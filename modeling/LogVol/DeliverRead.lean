/-
# LogVol.DeliverRead — from the buffer of a read request into the user's.

A read of the dataset's own type into a whole memory space reads into the user buffer itself. Any other reads
into a buffer with room for the elements of both types, is converted there in place, and is copied or unpacked
by a datatype made of the memory selection. Unpacking is told the size of the elements as the dataset has
them, which is not enough when those of memory are larger (`deliverRead_iff`).
-/
import LogVol.MemSelection
import Mathlib.Data.List.MinMax

namespace LogVol

open Lib (Box Store cellOffset)

/-! ## §1 — the request. -/

/-- The fields of `H5VL_log_rreq_t` that delivery works with. `xbuf` is `none` where it is the user's, and else
the size it is allocated with; `msize` is `H5Tget_size (mtype)` where there is something to convert. -/
structure Rreq where
  rsize : ℕ
  esize : ℕ
  xbuf : Option ℕ
  ptype : Option MpiType
  msize : Option ℕ
  deriving DecidableEq, Repr

/-- **`H5VL_log_dataseti_read`**, as far as the request goes: `esize` is that of the dataset, `msize` the size
of the memory type, and `eqtype` whether the types are equal. -/
def datasetiRreq (esize msize : ℕ) (eqtype : Bool) (mem : MemSpace) (dsel : List Box) :
    Except Fault (Option Rreq) :=
  if dsel = [] then .ok none
  else if eqtype && mem.selectsAll then
    .ok (some ⟨selSize dsel, esize, none, none, none⟩)
  else do
    let size := selSize dsel * max msize esize % 2 ^ 64
    let ptype ← mem.packType msize
    pure (some ⟨selSize dsel, esize, some size, ptype, if eqtype then none else some msize⟩)

/-- The dataspace of the file side: for `H5S_ALL` (`none`) that of the dataset. -/
def fileSpace (dims : List ℕ) (file : Option Dspace) : Dspace := file.getD ⟨dims, .all⟩

/-- **`H5VL_log_dataset_read_elements`**. -/
def datasetReadElements (dims : List ℕ) (esize msize : ℕ) (eqtype : Bool) (mem : MemSpace)
    (file : Option Dspace) : Except Fault (Option Rreq) := do
  let dsel ← (fileSpace dims file).selections
  datasetiRreq esize msize eqtype (mem.orFile (fileSpace dims file)) dsel

/-! ## §2 — delivery. -/

/-- Single bytes moved, each given by where it goes in the one buffer and where it is in the other. -/
def scatter (moves : List (ℕ × ℕ)) (src dst : Store) : Store :=
  moves.foldl (fun dst m => Function.update dst m.1 (src m.2)) dst

/-- The moves of the first `n` bytes to where they were. -/
def copyMoves (n : ℕ) : List (ℕ × ℕ) := (List.range n).map fun i => (i, i)

/-- The moves of elements of `w` bytes, from the `k`-th of a buffer on, to the given places. -/
def elemMovesFrom (w k : ℕ) (places : List ℕ) : List (ℕ × ℕ) :=
  (places.zipIdx k).flatMap fun p => (List.range w).map fun j => (w * p.1 + j, w * p.2 + j)

/-- The moves of the elements of a buffer. -/
def elemMoves (w : ℕ) (places : List ℕ) : List (ℕ × ℕ) := elemMovesFrom w 0 places

/-- `MPI_Unpack` of one element of a type: it fails unless the `insize` bytes it is given cover the type. -/
def mpiUnpack (insize : Int) (t : MpiType) : Option (List (ℕ × ℕ)) :=
  if (t.places.length * t.elem : ℕ) ≤ insize then some (elemMoves t.elem t.places) else none

/-- `esize` in `H5VL_log_nb_perform_read`: the size of an element after conversion. -/
def Rreq.elemSize (r : Rreq) : ℕ := r.msize.getD r.esize

/-- The number of bytes `MPI_Unpack` or `memcpy` is told to take out of `xbuf`. -/
def Rreq.takes (r : Rreq) : Int :=
  match r.ptype with
  | some _ => cInt (r.rsize * r.esize % 2 ^ 64 : ℕ)
  | none => (r.rsize * r.elemSize % 2 ^ 64 : ℕ)

/-- **Post processing** in `H5VL_log_nb_perform_read`: the bytes that go from `xbuf`, read and converted, to
the user buffer. Where the two are one buffer they are there already. What `MPI_Unpack` returns is not
looked at. -/
def Rreq.deliver (r : Rreq) : List (ℕ × ℕ) :=
  match r.xbuf with
  | none => copyMoves (r.rsize * r.esize)
  | some _ =>
      match r.ptype with
      | some t => (mpiUnpack r.takes t).getD []
      | none => copyMoves r.takes.toNat

/-- **`Delivered`** — the elements, of `w` bytes each, go to the given places one after the other: an element is
found where it belongs unless a later one belongs there too, and every other byte is what it was. The
buffer has room for the elements of both types and for what is taken out of it. -/
structure Delivered (w : ℕ) (places : List ℕ) (r : Rreq) : Prop where
  inOrder : r.deliver = elemMoves w places
  elements : ∀ xbuf ubuf pre p post, places = pre ++ p :: post → p ∉ post →
    (scatter r.deliver xbuf ubuf).read (w * p) w = xbuf.read (w * pre.length) w
  others : ∀ xbuf ubuf a, (∀ p ∈ places, a < w * p ∨ w * p + w ≤ a) → scatter r.deliver xbuf ubuf a = ubuf a
  room : ∀ size, r.xbuf = some size → r.rsize * max w r.esize ≤ size ∧ r.takes ≤ size

/-! ## §3 — when delivery works. -/

/-- A selection of part of memory can be unpacked: its blocks list it in order, the element size and, for
every element, extents and place survive the casts to `int`, and the elements as the dataset has them are
as many bytes as those of memory. -/
structure Unpackable (esize msize n : ℕ) (s : Dspace) : Prop where
  listed : s.Listed
  elem : msize < 2 ^ 31
  kept : ∀ x ∈ s.cells, CastKeeps s.dims x
  covers : (n * msize : ℕ) ≤ cInt (n * esize : ℕ)

/-- **`Deliverable`** — the user buffer is read into, or the larger of the two element sizes times the number of
elements fits a `size_t`, and a memory selection of part of the space can be unpacked. -/
def Deliverable (esize msize : ℕ) (eqtype : Bool) (mem : MemSpace) (n : ℕ) : Prop :=
  eqtype = true ∧ mem.selectsAll = true ∨
    n * max msize esize < 2 ^ 64 ∧
      ∀ s, mem = .space s → mem.selectsAll = false → Unpackable esize msize n s

/-! ## §4 — moving bytes. -/

theorem scatter_append (ms ns : List (ℕ × ℕ)) (src dst : Store) :
    scatter (ms ++ ns) src dst = scatter ns src (scatter ms src dst) := List.foldl_append

theorem scatter_of_notMem {ms : List (ℕ × ℕ)} {src dst : Store} {a : ℕ} (h : ∀ m ∈ ms, m.1 ≠ a) :
    scatter ms src dst a = dst a := by
  induction ms generalizing dst with
  | nil => rfl
  | cons m ms ih =>
      show scatter ms src (Function.update dst m.1 (src m.2)) a = dst a
      rw [ih fun n hn => h n (List.mem_cons_of_mem m hn)]
      exact Function.update_of_ne (h m (List.mem_cons_self ..)).symm _ _

/-- A byte nothing else goes to holds the byte that went there. -/
theorem scatter_of_mem {ms : List (ℕ × ℕ)} {src dst : Store} (hnodup : (ms.map Prod.fst).Nodup) {m : ℕ × ℕ}
    (h : m ∈ ms) : scatter ms src dst m.1 = src m.2 := by
  induction ms generalizing dst with
  | nil => cases h
  | cons n ms ih =>
      rw [List.map_cons, List.nodup_cons] at hnodup
      show scatter ms src (Function.update dst n.1 (src n.2)) m.1 = src m.2
      rcases List.mem_cons.mp h with rfl | h
      · rw [scatter_of_notMem]
        · exact Function.update_self ..
        · intro k hk heq
          exact hnodup.1 (heq ▸ List.mem_map_of_mem hk)
      · exact ih hnodup.2 h

@[simp] theorem elemMovesFrom_nil (w k : ℕ) : elemMovesFrom w k [] = [] := rfl

@[simp] theorem elemMovesFrom_cons (w k p : ℕ) (places : List ℕ) : elemMovesFrom w k (p :: places) =
    ((List.range w).map fun j => (w * p + j, w * k + j)) ++ elemMovesFrom w (k + 1) places := rfl

theorem elemMovesFrom_append (w k : ℕ) (ps qs : List ℕ) :
    elemMovesFrom w k (ps ++ qs) = elemMovesFrom w k ps ++ elemMovesFrom w (k + ps.length) qs := by
  rw [elemMovesFrom, List.zipIdx_append, List.flatMap_append]
  rfl

theorem elemMovesFrom_length (w k : ℕ) (places : List ℕ) :
    (elemMovesFrom w k places).length = places.length * w := by
  induction places generalizing k with
  | nil => simp
  | cons p places ih => simp [ih, Nat.succ_mul, Nat.add_comm]

/-- Every byte goes into one of the elements. -/
theorem elemMovesFrom_dst {w k : ℕ} {places : List ℕ} {m : ℕ × ℕ} (h : m ∈ elemMovesFrom w k places) :
    ∃ p ∈ places, w * p ≤ m.1 ∧ m.1 < w * p + w := by
  induction places generalizing k with
  | nil => cases h
  | cons p places ih =>
      rw [elemMovesFrom_cons, List.mem_append] at h
      rcases h with h | h
      · obtain ⟨j, hj, rfl⟩ := List.mem_map.mp h
        have hlt := List.mem_range.mp hj
        exact ⟨p, List.mem_cons_self .., Nat.le_add_right .., Nat.add_lt_add_left hlt _⟩
      · obtain ⟨q, hq, hm⟩ := ih h
        exact ⟨q, List.mem_cons_of_mem p hq, hm⟩

/-- Every byte of an element goes somewhere. -/
theorem elemMovesFrom_mem {w k p j : ℕ} {places : List ℕ} (hp : p ∈ places) (hj : j < w) :
    ∃ m ∈ elemMovesFrom w k places, m.1 = w * p + j := by
  induction places generalizing k with
  | nil => cases hp
  | cons q places ih =>
      simp only [elemMovesFrom_cons, List.mem_append]
      rcases List.mem_cons.mp hp with rfl | hp
      · exact ⟨_, Or.inl (List.mem_map.mpr ⟨j, List.mem_range.mpr hj, rfl⟩), rfl⟩
      · obtain ⟨m, hm, hdst⟩ := @ih (k + 1) hp
        exact ⟨m, Or.inr hm, hdst⟩

/-- Elements side by side do not overlap. -/
theorem elem_apart {w p q a : ℕ} (hpq : p ≠ q) (hlo : w * p ≤ a) (hhi : a < w * p + w) :
    a < w * q ∨ w * q + w ≤ a := by
  rcases Nat.lt_or_gt_of_ne hpq with hlt | hlt
  · have hle : w * (p + 1) ≤ w * q := Nat.mul_le_mul_left w hlt
    rw [Nat.mul_succ] at hle
    omega
  · have hle : w * (q + 1) ≤ w * p := Nat.mul_le_mul_left w hlt
    rw [Nat.mul_succ] at hle
    omega

theorem scatter_others {w : ℕ} {places : List ℕ} {src dst : Store} {k a : ℕ}
    (h : ∀ p ∈ places, a < w * p ∨ w * p + w ≤ a) : scatter (elemMovesFrom w k places) src dst a = dst a := by
  apply scatter_of_notMem
  rintro m hm rfl
  obtain ⟨p, hp, hlo, hhi⟩ := elemMovesFrom_dst hm
  have := h p hp
  omega

/-- **An element is where it belongs**, unless a later one belongs there too. -/
theorem scatter_element {w p : ℕ} {pre post : List ℕ} (src dst : Store) (hpost : p ∉ post) :
    (scatter (elemMovesFrom w 0 (pre ++ p :: post)) src dst).read (w * p) w = src.read (w * pre.length) w := by
  apply List.map_congr_left
  intro j hj
  have hlt := List.mem_range.mp hj
  rw [elemMovesFrom_append, elemMovesFrom_cons, scatter_append, scatter_append, scatter_others, Nat.zero_add]
  · have hmem : (w * p + j, w * pre.length + j) ∈
        (List.range w).map fun j => (w * p + j, w * pre.length + j) := List.mem_map_of_mem hj
    refine scatter_of_mem ?_ hmem
    rw [List.map_map]
    exact List.nodup_range.map fun i j hij => Nat.add_left_cancel hij
  · intro q hq
    have hne : p ≠ q := fun heq => hpost (heq ▸ hq)
    exact elem_apart hne (Nat.le_add_right ..) (Nat.add_lt_add_left hlt _)

theorem copyMoves_mul (n w : ℕ) : copyMoves (n * w) = elemMoves w (List.range n) := by
  unfold elemMoves
  induction n with
  | zero => simp [copyMoves]
  | succ n ih =>
      rw [List.range_succ, elemMovesFrom_append, ← ih, List.length_range, copyMoves, Nat.succ_mul,
        List.range_add, List.map_append, List.map_map]
      simp [copyMoves, Function.comp_def, Nat.mul_comm]

/-- The moves tell the places apart. -/
theorem elemMovesFrom_inj {w k : ℕ} (hw : 0 < w) {ps qs : List ℕ}
    (h : elemMovesFrom w k ps = elemMovesFrom w k qs) : ps = qs := by
  have hlen : ps.length = qs.length := by
    have hmul := congrArg List.length h
    rw [elemMovesFrom_length, elemMovesFrom_length] at hmul
    exact Nat.eq_of_mul_eq_mul_right hw hmul
  induction ps generalizing qs k with
  | nil => exact (List.length_eq_zero_iff.mp hlen.symm).symm
  | cons p ps ih =>
      obtain ⟨q, qs, rfl⟩ := List.exists_cons_of_length_eq_add_one hlen.symm
      rw [elemMovesFrom_cons, elemMovesFrom_cons] at h
      obtain ⟨hhead, htail⟩ := List.append_inj h (by simp)
      have hfirst := List.map_inj_left.mp hhead 0 (List.mem_range.mpr hw)
      have hpq : w * p = w * q := congrArg Prod.fst hfirst
      rw [ih htail (Nat.succ.inj hlen), Nat.eq_of_mul_eq_mul_left hw hpq]

/-! ## §5 — delivery. -/

/-- Elements are unpacked when the input covers them; each is then of the type's element size, in the order of
its places. -/
theorem mpiUnpack_eq_moves_iff {insize : Int} {t : MpiType} {w : ℕ} {places : List ℕ} (hw : 0 < w)
    (hsome : places ≠ []) (helem : t.elem ≤ w) (hle : ∀ q ∈ t.places, ∃ p ∈ places, q ≤ p) :
    (mpiUnpack insize t).getD [] = elemMoves w places ↔
      t = ⟨w, places⟩ ∧ (places.length * w : ℕ) ≤ insize := by
  have hpos : 0 < places.length := List.length_pos_iff.mpr hsome
  unfold mpiUnpack
  constructor
  · intro h
    split at h
    · rename_i hcover
      -- the last byte of the last place is reached, and by no place behind it
      have hew : t.elem = w := by
        have hp := List.maximum_of_length_pos_mem hpos
        have hlast := fun q (hq : q ∈ places) => List.le_maximum_of_length_pos_of_mem hq hpos
        generalize List.maximum_of_length_pos hpos = p at hp hlast
        have hbyte : ∃ m ∈ elemMoves w places, m.1 = w * p + (w - 1) :=
          elemMovesFrom_mem hp (by omega)
        rw [← h] at hbyte
        obtain ⟨m, hm, hdst⟩ := hbyte
        obtain ⟨q, hq, -, hhi⟩ := elemMovesFrom_dst hm
        obtain ⟨p', hp', hqp'⟩ := hle q hq
        have hqp : q ≤ p := hqp'.trans (hlast p' hp')
        have hmul : t.elem * q ≤ w * p := Nat.mul_le_mul helem hqp
        omega
      obtain ⟨elem, tplaces⟩ := t
      obtain rfl : elem = w := hew
      obtain rfl : tplaces = places := elemMovesFrom_inj hw h
      exact ⟨rfl, hcover⟩
    · have hnone : (elemMoves w places).length = 0 := by
        rw [← h]
        rfl
      rw [elemMoves, elemMovesFrom_length] at hnone
      exact absurd hnone (Nat.mul_pos hpos hw).ne'
  · rintro ⟨rfl, hcover⟩
    rw [if_pos hcover, Option.getD_some]

/-- **Unpacking** delivers the elements exactly when the selection is `Unpackable`. -/
theorem unpack_iff {esize msize n : ℕ} {s : Dspace} (hmsize : 0 < msize) (hn : 0 < n) (hvalid : s.Valid)
    (hpart : s.sel ≠ .all) (hcount : s.places.length = n) :
    (∃ t, s.selections >>= getMpiTypeOf msize s.dims = .ok (some t) ∧
      (mpiUnpack (cInt (n * esize : ℕ)) t).getD [] = elemMoves msize s.places) ↔ Unpackable esize msize n s := by
  have hsome : s.places ≠ [] := List.length_pos_iff.mp (hcount ▸ hn)
  have hcells : s.cells.length = s.places.length := (List.length_map _).symm
  constructor
  · rintro ⟨t, ht, hmoves⟩
    obtain ⟨bs, hbs, ht⟩ := Lib.bind_eq_ok.mp ht
    obtain ⟨helem, -, hplaces⟩ := getMpiTypeOf_eq_some_iff.mp ht
    obtain ⟨hsub, hblocks, -⟩ := Dspace.selections_within hvalid hbs
    have hin := Dspace.cells_inArray hvalid
    have hle : ∀ q ∈ t.places, ∃ p ∈ s.places, q ≤ p := by
      intro q hq
      obtain ⟨y, hy, hqy⟩ := getMpiType_le hplaces q hq
      exact ⟨_, List.mem_map_of_mem (hsub y hy), hqy⟩
    obtain ⟨rfl, hcover⟩ := (mpiUnpack_eq_moves_iff hmsize hsome (mpiElem_le helem) hle).mp hmoves
    rw [hcount] at hcover
    -- The type has the places of the selection, so the casts kept them and the blocks list them in order.
    have hkept := kept_of_getMpiType hplaces hsub hin fun x hx => List.mem_map_of_mem hx
    have hsame := Except.ok.inj
      ((getMpiType_of_kept hblocks fun x hx => (hkept x (hsub x hx)).2).symm.trans hplaces)
    have hlist : bs.flatMap Box.cells = s.cells :=
      map_cellOffset_inj (fun x hx => hin x (hsub x hx)) hin hsame
    refine ⟨(Dspace.listed_iff hvalid hpart).mp ⟨bs, hbs, hlist⟩, mpiElem_eq_self_iff.mp helem, ?_, hcover⟩
    exact fun x hx => (hkept x hx).2
  · rintro ⟨hlisted, helem, hkept, hcover⟩
    obtain ⟨bs, hbs, hlist⟩ := (Dspace.listed_iff hvalid hpart).mpr hlisted
    obtain ⟨-, hblocks, -⟩ := Dspace.selections_within hvalid hbs
    have hplaces := getMpiType_of_kept hblocks (hlist ▸ hkept)
    rw [hlist] at hplaces
    have hne : bs ≠ [] := by
      rintro rfl
      rw [List.flatMap_nil] at hlist
      rw [← hlist, List.length_nil] at hcells
      omega
    refine ⟨⟨msize, s.places⟩, Lib.bind_eq_ok.mpr ⟨bs, hbs, ?_⟩, ?_⟩
    · exact getMpiTypeOf_eq_some_iff.mpr ⟨mpiElem_eq_self_iff.mpr helem, hne, hplaces⟩
    · rw [← hcount] at hcover
      exact (mpiUnpack_eq_moves_iff hmsize hsome le_rfl fun q hq => ⟨q, hq, le_rfl⟩).mpr ⟨rfl, hcount ▸ hcover⟩

/-- Elements moved in order are delivered. -/
theorem delivered_of_inOrder {w : ℕ} {places : List ℕ} {r : Rreq} (h : r.deliver = elemMoves w places)
    (hroom : ∀ size, r.xbuf = some size → r.rsize * max w r.esize ≤ size ∧ r.takes ≤ size) :
    Delivered w places r where
  inOrder := h
  elements := by
    rintro xbuf ubuf pre p post rfl hp
    rw [h]
    exact scatter_element xbuf ubuf hp
  others := by
    intro xbuf ubuf a ha
    rw [h]
    exact scatter_others ha
  room := hroom

section Requests

variable {esize msize : ℕ} {eqtype : Bool} {mem : MemSpace} {dsel : List Box}

theorem datasetiRreq_ok_iff (hdsel : dsel ≠ []) (hown : (eqtype && mem.selectsAll) = false) {r : Rreq} :
    datasetiRreq esize msize eqtype mem dsel = .ok (some r) ↔ ∃ ptype, mem.packType msize = .ok ptype ∧
      r = ⟨selSize dsel, esize, some (selSize dsel * max msize esize % 2 ^ 64), ptype,
        if eqtype then none else some msize⟩ := by
  unfold datasetiRreq
  rw [if_neg hdsel, if_neg (by simp [hown]), Lib.bind_eq_ok]
  constructor
  · rintro ⟨ptype, hptype, h⟩
    exact ⟨ptype, hptype, (Option.some.inj (Except.ok.inj h)).symm⟩
  · rintro ⟨ptype, hptype, rfl⟩
    exact ⟨ptype, hptype, rfl⟩

/-- A request with a buffer of its own: room is what has to fit, and then the elements have to be moved. -/
theorem rreq_delivered_iff {ptype : Option MpiType} {places : List ℕ} {n : ℕ} (heq : eqtype = true → msize = esize) :
    Delivered msize places
        ⟨n, esize, some (n * max msize esize % 2 ^ 64), ptype, if eqtype then none else some msize⟩ ↔
      n * max msize esize < 2 ^ 64 ∧
        (match ptype with
          | some t => (mpiUnpack (cInt (n * esize : ℕ)) t).getD []
          | none => copyMoves (n * msize)) = elemMoves msize places := by
  have hsize : (if eqtype then none else some msize).getD esize = msize := by
    cases eqtype with
    | false => rfl
    | true => exact (heq rfl).symm
  -- The size is computed in a `size_t`, and is the real one as long as that fits.
  have hroom : n * max msize esize ≤ n * max msize esize % 2 ^ 64 ↔ n * max msize esize < 2 ^ 64 := by omega
  have hesize : n * esize ≤ n * max msize esize := Nat.mul_le_mul_left n (le_max_right _ _)
  have hmsize : n * msize ≤ n * max msize esize := Nat.mul_le_mul_left n (le_max_left _ _)
  constructor
  · intro h
    have hfit := hroom.mp (h.room _ rfl).1
    refine ⟨hfit, ?_⟩
    have hmoves := h.inOrder
    cases ptype with
    | none =>
        simp only [Rreq.deliver, Rreq.takes, Rreq.elemSize, hsize, Int.toNat_natCast] at hmoves
        rwa [Nat.mod_eq_of_lt (by omega)] at hmoves
    | some t =>
        simp only [Rreq.deliver, Rreq.takes] at hmoves
        rwa [Nat.mod_eq_of_lt (by omega)] at hmoves
  · rintro ⟨hfit, hmoves⟩
    apply delivered_of_inOrder
    · cases ptype with
      | none =>
          simp only [Rreq.deliver, Rreq.takes, Rreq.elemSize, hsize, Int.toNat_natCast]
          rwa [Nat.mod_eq_of_lt (by omega)]
      | some t =>
          simp only [Rreq.deliver, Rreq.takes]
          rwa [Nat.mod_eq_of_lt (by omega)]
    · intro size heqs
      obtain rfl := Option.some.inj heqs
      refine ⟨hroom.mpr hfit, ?_⟩
      cases ptype with
      | none =>
          simp only [Rreq.takes, Rreq.elemSize, hsize]
          omega
      | some t =>
          simp only [Rreq.takes]
          have hcast := toNat_cInt_le (n * esize % 2 ^ 64)
          omega

/-- **The request of `H5VL_log_dataseti_read` is delivered** exactly when it is `Deliverable`. -/
theorem datasetiRreq_delivered_iff (hsome : 0 < selSize dsel) (hvalid : ∀ s, mem = .space s → s.Valid)
    (hcount : (mem.places (selSize dsel)).length = selSize dsel) (hmsize : 0 < msize)
    (heq : eqtype = true → msize = esize) :
    (∃ r, datasetiRreq esize msize eqtype mem dsel = .ok (some r) ∧
      Delivered msize (mem.places (selSize dsel)) r) ↔ Deliverable esize msize eqtype mem (selSize dsel) := by
  have hdsel : dsel ≠ [] := by
    rintro rfl
    exact absurd hsome (by decide)
  unfold Deliverable
  cases hown : eqtype && mem.selectsAll with
  | true =>
      -- The user buffer is read into.
      obtain ⟨htype, hall⟩ := (Bool.and_eq_true ..).mp hown
      refine iff_of_true ?_ (Or.inl ⟨htype, hall⟩)
      obtain rfl := heq htype
      refine ⟨⟨selSize dsel, msize, none, none, none⟩, ?_, ?_⟩
      · rw [datasetiRreq, if_neg hdsel, if_pos hown]
      · apply delivered_of_inOrder
        · rw [MemSpace.places_of_selectsAll hall hcount]
          exact copyMoves_mul ..
        · intro size h
          cases h
  | false =>
      have hnot : ¬ (eqtype = true ∧ mem.selectsAll = true) := by
        rintro ⟨htype, hall⟩
        rw [htype, hall] at hown
        cases hown
      rw [or_iff_right hnot]
      simp only [datasetiRreq_ok_iff hdsel hown]
      cases hall : mem.selectsAll with
      | true =>
          have hpack := MemSpace.packType_of_selectsAll msize hall
          have hmoves : copyMoves (selSize dsel * msize) = elemMoves msize (mem.places (selSize dsel)) := by
            rw [MemSpace.places_of_selectsAll hall hcount]
            exact copyMoves_mul ..
          constructor
          · rintro ⟨r, ⟨ptype, -, rfl⟩, h⟩
            exact ⟨((rreq_delivered_iff heq).mp h).1, fun s _ hpart => by cases hpart⟩
          · rintro ⟨hfit, -⟩
            exact ⟨_, ⟨none, hpack, rfl⟩, (rreq_delivered_iff heq).mpr ⟨hfit, hmoves⟩⟩
      | false =>
          obtain ⟨s, rfl, hpart, hpack⟩ := MemSpace.packType_of_part msize hall
          have hunpack := @unpack_iff esize msize _ s hmsize hsome (hvalid s rfl) hpart hcount
          constructor
          · rintro ⟨r, ⟨ptype, hptype, rfl⟩, h⟩
            obtain ⟨hfit, hmoves⟩ := (rreq_delivered_iff heq).mp h
            refine ⟨hfit, fun t ht _ => ?_⟩
            obtain rfl : s = t := MemSpace.space.inj ht
            rw [hpack] at hptype
            cases ptype with
            | some t => exact hunpack.mp ⟨t, hptype, hmoves⟩
            | none =>
                -- There would be no block, and so no element.
                obtain ⟨bs, hbs, hnone⟩ := Lib.bind_eq_ok.mp hptype
                obtain rfl := getMpiTypeOf_eq_none hnone
                have hcount : (s.cells.map (cellOffset s.dims)).length = selSize dsel := hcount
                rw [(Dspace.selections_within (hvalid s rfl) hbs).2.2 rfl] at hcount
                exact absurd hcount hsome.ne
          · rintro ⟨hfit, h⟩
            obtain ⟨t, ht, hmoves⟩ := hunpack.mpr (h s rfl rfl)
            exact ⟨_, ⟨some t, hpack.trans ht, rfl⟩, (rreq_delivered_iff heq).mpr ⟨hfit, hmoves⟩⟩

end Requests

/-- **Delivery to the user buffer.** Whatever the element sizes and the selections, the elements a read asks
for are delivered exactly when the request is `Deliverable`. -/
theorem deliverRead_iff (dims : List ℕ) (esize msize : ℕ) (eqtype : Bool) (mem : MemSpace) (file : Option Dspace)
    (dsel : List Box) (hdsel : (fileSpace dims file).selections = .ok dsel) (hsome : 0 < selSize dsel)
    (hvalid : ∀ s, mem.orFile (fileSpace dims file) = .space s → s.Valid)
    (hcount : ((mem.orFile (fileSpace dims file)).places (selSize dsel)).length = selSize dsel)
    (hmsize : 0 < msize) (heq : eqtype = true → msize = esize) :
    (∃ r, datasetReadElements dims esize msize eqtype mem file = .ok (some r) ∧
      Delivered msize ((mem.orFile (fileSpace dims file)).places (selSize dsel)) r) ↔
      Deliverable esize msize eqtype (mem.orFile (fileSpace dims file)) (selSize dsel) := by
  have hread : datasetReadElements dims esize msize eqtype mem file =
      datasetiRreq esize msize eqtype (mem.orFile (fileSpace dims file)) dsel := by
    rw [datasetReadElements, hdsel]
    rfl
  rw [hread]
  exact datasetiRreq_delivered_iff hsome hvalid hcount hmsize heq

/-- Two elements of one in the middle of four, read as elements of `msize` bytes. -/
def middlePair : MemSpace := .space ⟨[4], .hyperslab [[(1, 2)]]⟩

/-- Four-byte elements into the middle of an array of four-byte elements of another type. -/
theorem deliverRead_middlePair :
    ∃ r, datasetReadElements [2] 4 4 false middlePair none = .ok (some r) ∧ Delivered 4 [1, 2] r := by
  refine (deliverRead_iff [2] 4 4 false middlePair none [[(0, 2)]] rfl (by decide) ?_ rfl (by decide)
    (by decide)).mpr (Or.inr ⟨by decide, ?_⟩)
  · rintro s h
    obtain rfl := MemSpace.space.inj h
    exact ⟨by decide, by decide, fun h => absurd h (by decide)⟩
  · rintro s h -
    obtain rfl := MemSpace.space.inj h
    exact ⟨fun h => absurd h (by decide), by decide, by decide, by decide⟩

/-- **Larger elements in memory**: read as eight-byte elements into the same places, the two are not
delivered. -/
theorem not_delivered_middlePair :
    ¬ ∃ r, datasetReadElements [2] 4 8 false middlePair none = .ok (some r) ∧ Delivered 8 [1, 2] r := by
  rintro ⟨r, hr, hdelivered⟩
  have hreq : datasetReadElements [2] 4 8 false middlePair none =
      .ok (some ⟨2, 4, some 16, some ⟨8, [1, 2]⟩, some 8⟩) := by decide
  obtain rfl := Option.some.inj (Except.ok.inj (hreq.symm.trans hr))
  have hmoves := hdelivered.inOrder
  revert hmoves
  decide

end LogVol
