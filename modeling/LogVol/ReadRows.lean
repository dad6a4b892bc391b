/-
# LogVol.ReadRows — what the rows of a result carry.

`Intersec.Reads` says which byte of the file a result takes where in memory, element by element. The subarray of
a result that is alone carries exactly these (`single_reads`), and so do the rows of one that is broken down
(`rows_reads`), which the odometer lists one after another.
-/
import LogVol.ReadTypes
import LogVol.HyperOrder
import LogVol.Lib.BoxRows

namespace LogVol

open Lib (Box Move cellOffset fromZero InOrder)

/-! ## §1 — the elements of a result. -/

namespace Intersec

/-- The part of the data that is read, and the part of memory it goes to. -/
def fileBox (b : Intersec) : Box := (b.dstart.map Int.toNat).zip (b.count.map Int.toNat)

def memBox (b : Intersec) : Box := (b.mstart.map Int.toNat).zip (b.count.map Int.toNat)

def dataSize (b : Intersec) : List ℕ := b.dsize.map Int.toNat

def memSize (b : Intersec) : List ℕ := b.msize.map Int.toNat

/-- The elements, each as an index in every dimension, counted from the first one. -/
def counters (b : Intersec) : List (List ℕ) := Box.cells (fromZero (b.count.map Int.toNat))

/-- The place of an element in the data, and in memory. -/
def filePlace (b : Intersec) (c : List ℕ) : ℕ :=
  cellOffset b.dataSize (List.zipWith (· + ·) (b.dstart.map Int.toNat) c)

def memPlace (b : Intersec) (c : List ℕ) : ℕ :=
  cellOffset b.memSize (List.zipWith (· + ·) (b.mstart.map Int.toNat) c)

/-- **`Reads`** — the byte at `x` is one of an element, and goes to the same byte of that element in memory. -/
def Reads (b : Intersec) (x d : ℤ) : Prop :=
  ∃ c ∈ b.counters, ∃ j < b.info.esize.toNat,
    x = b.pos + (b.info.esize.toNat * b.filePlace c + j : ℕ) ∧ d = b.xbuf + (b.info.esize.toNat * b.memPlace c + j : ℕ)

/-- A part of the data of a block, and a part of memory of the same extents. -/
structure Placed (b : Intersec) : Prop where
  esize_pos : 0 < b.info.esize.toNat
  dsize_length : b.dsize.length = b.info.ndim
  dstart_length : b.dstart.length = b.info.ndim
  count_length : b.count.length = b.info.ndim
  msize_length : b.msize.length = b.info.ndim
  mstart_length : b.mstart.length = b.info.ndim
  dstart_nonneg : ∀ x ∈ b.dstart, 0 ≤ x
  mstart_nonneg : ∀ x ∈ b.mstart, 0 ≤ x
  count_pos : ∀ n ∈ b.count, 1 ≤ n
  inData : b.fileBox.InArray b.dataSize
  inMemory : b.memBox.InArray b.memSize

variable {b : Intersec}

theorem fileBox_cells (h : b.Placed) :
    b.fileBox.cells = b.counters.map (List.zipWith (· + ·) (b.dstart.map Int.toNat)) :=
  Box.cells_shift (by rw [List.length_map, List.length_map, h.dstart_length, h.count_length])

theorem memBox_cells (h : b.Placed) :
    b.memBox.cells = b.counters.map (List.zipWith (· + ·) (b.mstart.map Int.toNat)) :=
  Box.cells_shift (by rw [List.length_map, List.length_map, h.mstart_length, h.count_length])

/-- Sizes of an array with a block in it are positive. -/
theorem sizes_pos {starts counts sizes : List ℤ} (hlen : starts.length = counts.length)
    (hpos : ∀ n ∈ counts, 1 ≤ n)
    (h : Box.InArray ((starts.map Int.toNat).zip (counts.map Int.toNat)) (sizes.map Int.toNat)) :
    ∀ n ∈ sizes, 1 ≤ n := by
  induction sizes generalizing starts counts with
  | nil => exact fun n hn => absurd hn List.not_mem_nil
  | cons d sizes ih =>
    obtain ⟨p, ps, hp, hps, heq⟩ := List.forall₂_cons_right_iff.mp h
    obtain _ | ⟨s, starts⟩ := starts
    · cases heq
    obtain ⟨n, counts, rfl⟩ := List.exists_cons_of_length_eq_add_one hlen.symm
    obtain ⟨hn, hpos⟩ := List.forall_mem_cons.mp hpos
    obtain ⟨rfl, rfl⟩ := List.cons.inj heq
    refine List.forall_mem_cons.mpr ⟨?_, ih (Nat.succ.inj hlen) hpos hps⟩
    dsimp only at hp
    omega

theorem createSubarray_ok {starts counts sizes : List ℤ} (hlen : starts.length = counts.length)
    (hnn : ∀ x ∈ starts, 0 ≤ x) (hpos : ∀ n ∈ counts, 1 ≤ n)
    (h : Box.InArray ((starts.map Int.toNat).zip (counts.map Int.toNat)) (sizes.map Int.toNat)) :
    createSubarray sizes counts starts = .ok ((Box.cells ((starts.map Int.toNat).zip (counts.map Int.toNat))).map
      (cellOffset (sizes.map Int.toNat))) :=
  if_pos ⟨sizes_pos hlen hpos h, hpos, hnn, h⟩

/-! ## §2 — one that is alone. -/

theorem Placed.dataPos (h : b.Placed) : 1 ≤ b.dataSize.prod := by
  refine Nat.one_le_iff_ne_zero.mpr (List.prod_ne_zero fun hzero => ?_)
  obtain ⟨n, hn, hzero⟩ := List.mem_map.mp hzero
  have hpos := sizes_pos (h.dstart_length.trans h.count_length.symm) h.count_pos h.inData n hn
  omega

/-- The runs of a subarray: one for each element. -/
def elemRuns (b : Intersec) : List Move :=
  b.counters.map fun c => ⟨b.pos + (b.info.esize.toNat * b.filePlace c : ℕ),
    b.xbuf + (b.info.esize.toNat * b.memPlace c : ℕ), b.info.esize.toNat⟩

theorem single_eq (h : b.Placed) (hes : b.info.esize.toNat < 2 ^ 31) (hz : b.zbuf = none) :
    b.single = .ok b.elemRuns := by
  unfold single
  rw [hz]
  dsimp only
  split
  · rename_i hzero
    have hcount : b.count = [] := List.length_eq_zero_iff.mp (h.count_length.trans hzero)
    have hd : b.dsize = [] := List.length_eq_zero_iff.mp (h.dsize_length.trans hzero)
    have hm : b.msize = [] := List.length_eq_zero_iff.mp (h.msize_length.trans hzero)
    rw [cInt_of_range (by omega) (by omega)]
    simp [elemRuns, counters, filePlace, memPlace, dataSize, memSize, hcount, hd, hm, fromZero, Box.cells,
      cellOffset, Lib.suffixProds, Lib.natValue]
  · have helem : mpiElem b.info.esize.toNat = .ok b.info.esize.toNat := mpiElem_eq_self_iff.mpr hes
    have hsrc := createSubarray_ok (h.dstart_length.trans h.count_length.symm) h.dstart_nonneg h.count_pos h.inData
    have hdst := createSubarray_ok (h.mstart_length.trans h.count_length.symm) h.mstart_nonneg h.count_pos h.inMemory
    have hf := fileBox_cells h
    have hmem := memBox_cells h
    unfold fileBox at hf
    unfold memBox at hmem
    rw [helem, hsrc, hdst, hf, hmem]
    show Except.ok _ = _
    rw [List.map_map, List.map_map, List.zipWith_map, List.zipWith_self]
    rfl

theorem elemRuns_len (h : b.Placed) : ∀ m ∈ b.elemRuns, 0 < m.len := by
  intro m hm
  obtain ⟨c, -, rfl⟩ := List.mem_map.mp hm
  exact Int.natCast_pos.mpr h.esize_pos

/-- A run of a whole number of bytes, in bytes. -/
theorem carries_iff {src dst : ℤ} {n : ℕ} {x d : ℤ} :
    Move.Carries ⟨src, dst, n⟩ x d ↔ ∃ j < n, x = src + (j : ℕ) ∧ d = dst + (j : ℕ) := by
  unfold Move.Carries Move.Takes Move.stop
  dsimp only
  constructor
  · rintro ⟨⟨hlo, hhi⟩, rfl⟩
    exact ⟨(x - src).toNat, by omega, by omega, by omega⟩
  · rintro ⟨j, hj, rfl, rfl⟩
    omega

/-- **The subarray carries the elements.** -/
theorem elemRuns_carries {x d : ℤ} : (∃ m ∈ b.elemRuns, m.Carries x d) ↔ b.Reads x d := by
  unfold elemRuns Reads
  simp only [List.mem_map, exists_exists_and_eq_and, carries_iff, Nat.cast_add, add_assoc]

/-- The place in the data of an element is one of an element of the array. -/
theorem cell_lt (h : b.Placed) {c : List ℕ} (hc : c ∈ b.counters) :
    List.Forall₂ (· < ·) (List.zipWith (· + ·) (b.dstart.map Int.toNat) c) b.dataSize := by
  refine h.inData.cell ?_
  rw [fileBox_cells h]
  exact List.mem_map_of_mem hc

theorem filePlace_lt (h : b.Placed) {c : List ℕ} (hc : c ∈ b.counters) : b.filePlace c < b.dataSize.prod :=
  Lib.cellOffset_lt (cell_lt h hc)

/-- The elements come in the order of the data. -/
theorem counters_places (h : b.Placed) : b.counters.Pairwise fun c c' => b.filePlace c < b.filePlace c' := by
  have hcells := b.fileBox.cells_pairwise_lt
  rw [fileBox_cells h, List.pairwise_map] at hcells
  exact hcells.imp_of_mem fun hc hc' hlt => (Lib.cellOffset_lt_iff (cell_lt h hc) (cell_lt h hc')).mpr hlt

/-- No two elements have the same place. -/
theorem filePlace_inj (h : b.Placed) {c c' : List ℕ} (hc : c ∈ b.counters) (hc' : c' ∈ b.counters)
    (heq : b.filePlace c = b.filePlace c') : c = c' := by
  have hnodup : (b.counters.map b.filePlace).Nodup := by
    rw [List.Nodup, List.pairwise_map]
    exact (counters_places h).imp ne_of_lt
  exact List.inj_on_of_nodup_map hnodup hc hc' heq

theorem elemRuns_inOrder (h : b.Placed) : InOrder b.elemRuns := by
  rw [InOrder, elemRuns, List.pairwise_map]
  refine (counters_places h).imp fun hlt _ _ => ?_
  have hstep := Nat.mul_le_mul_left b.info.esize.toNat hlt
  rw [Nat.mul_succ] at hstep
  show b.pos + (b.info.esize.toNat * _ : ℕ) + (b.info.esize.toNat : ℕ) ≤ b.pos + (b.info.esize.toNat * _ : ℕ)
  omega

/-! ## §3 — the odometer. -/

end Intersec

/-- The dimensions before the last, as spans. -/
def leadSpan (cs : List ℕ) : Span := cs.map fun n => (0, n - 1)

theorem leadSpan_box {cs : List ℕ} (h : ∀ n ∈ cs, 1 ≤ n) : Span.box (leadSpan cs) = fromZero cs := by
  rw [Span.box, leadSpan, List.map_map, fromZero]
  refine List.map_congr_left fun n hn => ?_
  have hpos := h n hn
  show (0, n - 1 - 0 + 1) = (0, n)
  rw [Nat.sub_zero, Nat.sub_add_cancel hpos]

theorem leadSpan_ordered (cs : List ℕ) : (leadSpan cs).Ordered := by
  intro p hp
  obtain ⟨n, -, rfl⟩ := List.mem_map.mp hp
  exact Nat.zero_le _

/-- The counters of the code: the last dimension stays at zero. -/
def ctrOf (x : List ℕ) : List ℤ := x.map (fun n : ℕ => (n : ℤ)) ++ [0]

theorem turnCtr_eq {cs x : List ℕ} (w : ℤ) (hx : List.Forall₂ (· < ·) x cs) :
    turnCtr (cs.map (fun n : ℕ => (n : ℤ)) ++ [w]) (ctrOf x) =
      ((carryRow (leadSpan cs) x).1, ctrOf (carryRow (leadSpan cs) x).2) := by
  induction hx with
  | nil => rfl
  | @cons i n x cs hi _ ih =>
    obtain ⟨c', cs', hcs⟩ : ∃ c' cs', cs.map (fun n : ℕ => (n : ℤ)) ++ [w] = c' :: cs' :=
      List.exists_cons_of_ne_nil (List.append_ne_nil_of_right_ne_nil _ (List.cons_ne_nil _ _))
    rw [hcs] at ih
    rw [List.map_cons, List.cons_append, hcs, show leadSpan (n :: cs) = (0, n - 1) :: leadSpan cs from rfl]
    show turnCtr ((n : ℤ) :: c' :: cs') ((i : ℤ) :: ctrOf x) = _
    rw [turnCtr, ih, carryRow]
    rcases carryRow (leadSpan cs) x with ⟨up, x'⟩
    cases up with
    | false =>
      have hroom : ¬ (n : ℤ) ≤ i := by omega
      simp [hroom, ctrOf]
    | true =>
      by_cases hend : n - 1 < i + 1
      · have hend' : (n : ℤ) ≤ i + 1 := by omega
        simp [hend, hend', ctrOf]
      · have hend' : ¬ (n : ℤ) ≤ i + 1 := by omega
        simp [hend, hend', ctrOf]

/-- The first dimension goes on and on. -/
theorem nextCtr_eq {n : ℕ} {cs x : List ℕ} {i : ℕ} (w : ℤ) (hx : List.Forall₂ (· < ·) x cs) :
    nextCtr ((n :: cs).map (fun n : ℕ => (n : ℤ)) ++ [w]) (ctrOf (i :: x)) =
      ctrOf (nextRow (leadSpan (n :: cs)) (i :: x)) := by
  have hturn := turnCtr_eq w hx
  show nextCtr ((n : ℤ) :: (cs.map (fun n : ℕ => (n : ℤ)) ++ [w])) ((i : ℤ) :: ctrOf x) = _
  rw [nextCtr, hturn, show leadSpan (n :: cs) = (0, n - 1) :: leadSpan cs from rfl, nextRow]
  rcases carryRow (leadSpan cs) x with ⟨up, x'⟩
  cases up <;> simp [ctrOf]

/-- Where the odometer overflows, the first dimension has come to its end. -/
theorem nextRow_of_overflow {n i : ℕ} {cs x y : List ℕ} (hi : i < n)
    (h : carryRow (leadSpan (n :: cs)) (i :: x) = (true, y)) :
    ∃ z, nextRow (leadSpan (n :: cs)) (i :: x) = n :: z := by
  rw [show leadSpan (n :: cs) = (0, n - 1) :: leadSpan cs from rfl] at h ⊢
  rw [carryRow] at h
  rcases hturn : carryRow (leadSpan cs) x with ⟨up, x'⟩
  rw [hturn] at h
  cases up with
  | false => cases h
  | true =>
    simp only [if_true] at h
    split at h
    · have hend : i + 1 = n := by omega
      exact ⟨x', by simp [nextRow, hturn, hend]⟩
    · cases h

section Odometer

variable {b : Intersec} {n : ℕ} {cs : List ℕ} {w : ℤ}

/-- A row and those behind it. -/
theorem rowsFrom_walk (hcount : b.count = (n :: cs).map (fun n : ℕ => (n : ℤ)) ++ [w]) (hnd : ¬ b.info.ndim < 2)
    (rest : List (List ℕ)) (cur : List ℕ) (fuel : ℕ) (hfuel : rest.length < fuel)
    (hin : ∀ c ∈ cur :: rest, List.Forall₂ (· < ·) c (n :: cs))
    (hchain : (cur :: rest).IsChain fun a b => carryRow (leadSpan (n :: cs)) a = (false, b))
    (hstop : ∀ x ∈ (cur :: rest).getLast?, ∃ y, carryRow (leadSpan (n :: cs)) x = (true, y)) :
    b.rowsFrom fuel (ctrOf cur) = (cur :: rest).map fun c => b.row (ctrOf c) := by
  have hhead (m : ℕ) (z : List ℕ) : (ctrOf (m :: z)).headD 0 < b.count.headD 0 ↔ m < n := by
    rw [hcount]
    exact Int.ofNat_lt
  induction rest generalizing cur fuel with
  | nil =>
    obtain ⟨i, x, hi, hx, rfl⟩ := List.forall₂_cons_right_iff.mp (hin cur (List.mem_cons_self ..))
    obtain ⟨fuel, rfl⟩ := Nat.exists_eq_succ_of_ne_zero (Nat.ne_zero_of_lt hfuel)
    obtain ⟨y, hover⟩ := hstop (i :: x) rfl
    -- The last row: the carry runs into the first counter, which ends the loop.
    obtain ⟨z, hz⟩ := nextRow_of_overflow hi hover
    have hend : b.rowsFrom fuel (ctrOf (n :: z)) = [] := by
      cases fuel with
      | zero => rfl
      | succ fuel => rw [Intersec.rowsFrom, if_neg (fun hlt => absurd ((hhead n z).mp hlt) (lt_irrefl n))]
    rw [Intersec.rowsFrom, if_pos ((hhead i x).mpr hi), if_neg hnd, hcount, nextCtr_eq w hx, hz, hend]
    rfl
  | cons next rest ih =>
    obtain ⟨i, x, hi, hx, rfl⟩ := List.forall₂_cons_right_iff.mp (hin cur (List.mem_cons_self ..))
    obtain ⟨fuel, rfl⟩ := Nat.exists_eq_succ_of_ne_zero (Nat.ne_zero_of_lt hfuel)
    obtain ⟨hstep, hrest⟩ := List.isChain_cons_cons.mp hchain
    have hnext := (nextRow_of_carryRow hstep).2
    have htail := ih next fuel (Nat.lt_of_succ_lt_succ hfuel) (fun c hc => hin c (List.mem_cons_of_mem _ hc)) hrest
      (by rwa [List.getLast?_cons_cons] at hstop)
    rw [Intersec.rowsFrom, if_pos ((hhead i x).mpr hi), if_neg hnd, hcount, nextCtr_eq w hx, hnext, htail]
    rfl

/-- **The odometer lists the rows**, one for each place in the dimensions before the last. -/
theorem rowsFrom_cells (hpos : ∀ m ∈ n :: cs, 1 ≤ m)
    (hcount : b.count = (n :: cs).map (fun n : ℕ => (n : ℤ)) ++ [w]) (hnd : b.info.ndim = cs.length + 2) :
    b.rowsFrom (b.turns + 1) (List.replicate b.info.ndim 0) =
      (Box.cells (fromZero (n :: cs))).map fun c => b.row (ctrOf c) := by
  -- The same odometer as the one that lists the rows of a hyperslab, started at 0.
  have hwalks := walks (leadSpan_ordered (n :: cs))
  have hbox := leadSpan_box hpos
  have hin : ∀ c ∈ Box.cells (fromZero (n :: cs)), List.Forall₂ (· < ·) c (n :: cs) := by
    intro c hc
    have hc := Box.mem_cells.mp hc
    rw [fromZero, List.forall₂_map_right_iff] at hc
    exact hc.imp fun _ _ hlt => by simpa using hlt.2
  obtain ⟨rest, hrest⟩ : ∃ rest, Box.cells (fromZero (n :: cs)) = (leadSpan (n :: cs)).first :: rest := by
    rw [← hbox]
    exact List.head?_eq_some_iff.mp hwalks.head
  have hfirst : List.replicate b.info.ndim 0 = ctrOf (leadSpan (n :: cs)).first := by
    have hzero : (leadSpan (n :: cs)).first = List.replicate (cs.length + 1) 0 := by
      rw [Span.first, leadSpan, List.map_map]
      exact List.map_const'
    rw [hzero, hnd, ctrOf, List.map_replicate, show cs.length + 2 = (cs.length + 1) + 1 from rfl, List.replicate_succ']
    rfl
  have hturns : b.turns = (Box.cells (fromZero (n :: cs))).length := by
    rw [Box.cells_length, Intersec.turns, hcount, List.dropLast_concat, fromZero, List.map_map, List.map_map]
    exact congrArg List.prod (List.map_congr_left fun m hm => max_eq_left (hpos m hm))
  have hchain := hwalks.chain
  have hstop := hwalks.stop
  rw [hbox, hrest] at hchain hstop
  rw [hrest] at hin hturns ⊢
  rw [hfirst]
  refine rowsFrom_walk hcount (by omega) rest _ _ ?_ hin hchain fun x hx => ⟨_, (hstop x hx).1⟩
  rw [hturns, List.length_cons]
  omega

end Odometer

/-! ## §4 — the rows. -/

theorem placeOf_natCast (ds xs : List ℕ) :
    placeOf (ds.map fun n : ℕ => (n : ℤ)) (xs.map fun n : ℕ => (n : ℤ)) = (cellOffset ds xs : ℕ) := by
  induction ds generalizing xs with
  | nil => cases xs <;> rfl
  | cons d ds ih =>
    cases xs with
    | nil => rfl
    | cons x xs =>
      rw [List.map_cons, List.map_cons, placeOf, ih, Lib.cellOffset_cons, ← Nat.cast_list_prod]
      push_cast
      rfl

/-- Numbers that are not negative are natural numbers. -/
theorem map_toNat_cast {xs : List ℤ} (h : ∀ x ∈ xs, 0 ≤ x) :
    (xs.map Int.toNat).map (fun n : ℕ => (n : ℤ)) = xs := by
  rw [List.map_map]
  exact (List.map_congr_left fun x hx => Int.toNat_of_nonneg (h x hx)).trans (List.map_id xs)

theorem ctrOf_eq (c : List ℕ) : ctrOf c = (c ++ [0]).map fun n : ℕ => (n : ℤ) := by
  rw [List.map_append]
  rfl

namespace Intersec

variable {b : Intersec}

theorem placeOf_ctr {sizes starts : List ℤ} (c : List ℕ) (hsizes : ∀ n ∈ sizes, 1 ≤ n) (hstarts : ∀ x ∈ starts, 0 ≤ x) :
    placeOf sizes (List.zipWith (· + ·) starts (ctrOf c)) =
      (cellOffset (sizes.map Int.toNat) (List.zipWith (· + ·) (starts.map Int.toNat) (c ++ [0])) : ℕ) := by
  have hsize : (sizes.map Int.toNat).map (fun n : ℕ => (n : ℤ)) = sizes :=
    map_toNat_cast fun n hn => le_trans (by decide) (hsizes n hn)
  rw [← placeOf_natCast, hsize, ctrOf_eq, List.map_zipWith]
  conv_lhs => rw [← map_toNat_cast hstarts]
  rw [List.zipWith_map]
  simp only [Nat.cast_add]

theorem Placed.dsize_pos (h : b.Placed) : ∀ n ∈ b.dsize, 1 ≤ n :=
  sizes_pos (h.dstart_length.trans h.count_length.symm) h.count_pos h.inData

theorem Placed.msize_pos (h : b.Placed) : ∀ n ∈ b.msize, 1 ≤ n :=
  sizes_pos (h.mstart_length.trans h.count_length.symm) h.count_pos h.inMemory

/-- Along a row, places are next to each other. -/
theorem place_concat {sizes starts c : List ℕ} (hstarts : starts.length = sizes.length)
    (hc : c.length + 1 = sizes.length) (e : ℕ) :
    cellOffset sizes (List.zipWith (· + ·) starts (c ++ [e])) =
      cellOffset sizes (List.zipWith (· + ·) starts (c ++ [0])) + e := by
  obtain ⟨ds, d, rfl⟩ : ∃ ds d, sizes = ds ++ [d] := by
    obtain rfl | ⟨ds, d, hds⟩ := List.eq_nil_or_concat' sizes
    · cases hc
    · exact ⟨ds, d, hds⟩
  have hlen : c.length = ds.length := by
    rw [List.length_append, List.length_singleton] at hc
    exact Nat.succ.inj hc
  have hcat (i : ℕ) : (c ++ [i]).length = (ds ++ [d]).length := by
    rw [List.length_append, List.length_append, hlen]
    rfl
  rw [Lib.cellOffset_add hstarts (hcat e), Lib.cellOffset_add hstarts (hcat 0), Lib.cellOffset_concat hlen,
    Lib.cellOffset_concat hlen]
  omega

/-- The counts, as those of the dimensions before the last, and the last. -/
theorem counts_concat (h : b.Placed) (hnd : b.info.ndim ≠ 0) :
    ∃ (cs : List ℕ) (w : ℕ), b.count = cs.map (fun n : ℕ => (n : ℤ)) ++ [(w : ℤ)] ∧ (∀ n ∈ cs, 1 ≤ n) ∧ 1 ≤ w ∧
      cs.length + 1 = b.info.ndim := by
  have hcast := map_toNat_cast fun n hn => le_trans (by decide : (0 : ℤ) ≤ 1) (h.count_pos n hn)
  have hlen := h.count_length
  have hpos : ∀ n ∈ b.count.map Int.toNat, 1 ≤ n := by
    intro n hn
    obtain ⟨m, hm, rfl⟩ := List.mem_map.mp hn
    have hm := h.count_pos m hm
    omega
  obtain hnil | ⟨cs, w, hcs⟩ := List.eq_nil_or_concat' (b.count.map Int.toNat)
  · rw [hnil] at hcast
    rw [← hcast] at hlen
    exact absurd hlen.symm hnd
  · rw [hcs] at hcast hpos
    obtain ⟨hcspos, hw⟩ := List.forall_mem_append.mp hpos
    rw [← hcast, List.length_map, List.length_append] at hlen
    refine ⟨cs, w, ?_, hcspos, hw w (List.mem_singleton_self w), hlen⟩
    rw [← hcast, List.map_append]
    rfl

/-- **The rows** of a result, in the dimensions before the last. -/
theorem rows_eq {cs : List ℕ} {w : ℕ} (hcount : b.count = cs.map (fun n : ℕ => (n : ℤ)) ++ [(w : ℤ)])
    (hpos : ∀ n ∈ cs, 1 ≤ n) (hw : 1 ≤ w) (hlen : cs.length + 1 = b.info.ndim) :
    b.rows = .ok ((Box.cells (fromZero cs)).map fun c => b.row (ctrOf c)) := by
  unfold rows
  rw [if_neg (by omega)]
  cases cs with
  | nil =>
    have hone : b.info.ndim = 1 := hlen.symm
    have hmore : (List.replicate 1 (0 : ℤ)).headD 0 < b.count.headD 0 := by
      rw [hcount]
      exact Int.natCast_pos.mpr hw
    rw [hone, rowsFrom, if_pos hmore, if_pos (by omega)]
    rfl
  | cons n cs => rw [rowsFrom_cells hpos hcount hlen.symm]

/-- One row: the place of its first element, in the data and in memory. -/
theorem row_eq (h : b.Placed) {cs : List ℕ} {w : ℕ} (hcount : b.count = cs.map (fun n : ℕ => (n : ℤ)) ++ [(w : ℤ)])
    (hfit : w * b.info.esize.toNat < 2 ^ 31) (c : List ℕ) :
    b.row (ctrOf c) = ⟨b.pos + (b.info.esize.toNat * b.filePlace (c ++ [0]) : ℕ),
      b.xbuf + (b.info.esize.toNat * b.memPlace (c ++ [0]) : ℕ), (w * b.info.esize.toNat : ℕ)⟩ := by
  unfold row
  rw [placeOf_ctr c h.dsize_pos h.dstart_nonneg, placeOf_ctr c h.msize_pos h.mstart_nonneg, hcount,
    List.getLastD_concat, ← Nat.cast_mul, cInt_of_range (by omega) (by omega)]
  simp only [Nat.cast_mul]
  rfl

theorem mem_counters_concat {cs : List ℕ} {w : ℕ} (hcount : b.count = cs.map (fun n : ℕ => (n : ℤ)) ++ [(w : ℤ)])
    {c : List ℕ} : c ∈ b.counters ↔ ∃ c₀ ∈ Box.cells (fromZero cs), ∃ e < w, c = c₀ ++ [e] := by
  have hnat : b.count.map Int.toNat = cs ++ [w] := by
    rw [hcount, List.map_append, List.map_map]
    exact congrArg (· ++ [w]) ((List.map_congr_left fun m _ => Int.toNat_natCast m).trans (List.map_id cs))
  rw [counters, hnat]
  exact Lib.mem_fromZero_concat

section Row

variable {cs : List ℕ} {w : ℕ}

theorem row_places (h : b.Placed) (hlen : cs.length + 1 = b.info.ndim) {c : List ℕ} (hc : c ∈ Box.cells (fromZero cs))
    (e : ℕ) : b.filePlace (c ++ [e]) = b.filePlace (c ++ [0]) + e ∧
      b.memPlace (c ++ [e]) = b.memPlace (c ++ [0]) + e := by
  have hclen : c.length = cs.length := (Box.length_of_mem hc).trans (List.length_map _)
  constructor
  · refine place_concat ?_ ?_ e
    · rw [dataSize, List.length_map, List.length_map, h.dstart_length, h.dsize_length]
    · rw [dataSize, List.length_map, h.dsize_length, hclen, hlen]
  · refine place_concat ?_ ?_ e
    · rw [memSize, List.length_map, List.length_map, h.mstart_length, h.msize_length]
    · rw [memSize, List.length_map, h.msize_length, hclen, hlen]

/-- What a row carries: its elements. -/
theorem row_carries (h : b.Placed) (hcount : b.count = cs.map (fun n : ℕ => (n : ℤ)) ++ [(w : ℤ)])
    (hfit : w * b.info.esize.toNat < 2 ^ 31) (hlen : cs.length + 1 = b.info.ndim) {c : List ℕ}
    (hc : c ∈ Box.cells (fromZero cs)) {x d : ℤ} :
    (b.row (ctrOf c)).Carries x d ↔ ∃ e < w, ∃ j < b.info.esize.toNat,
      x = b.pos + (b.info.esize.toNat * b.filePlace (c ++ [e]) + j : ℕ) ∧
        d = b.xbuf + (b.info.esize.toNat * b.memPlace (c ++ [e]) + j : ℕ) := by
  rw [row_eq h hcount hfit, carries_iff]
  have hes := h.esize_pos
  constructor
  · rintro ⟨t, ht, rfl, rfl⟩
    obtain ⟨hf, hm⟩ := row_places h hlen hc (t / b.info.esize.toNat)
    refine ⟨t / b.info.esize.toNat, (Nat.div_lt_iff_lt_mul hes).mpr ht, t % b.info.esize.toNat,
      Nat.mod_lt _ hes, ?_, ?_⟩
    · rw [hf, Nat.mul_add, Nat.add_assoc, Nat.div_add_mod, Nat.cast_add, ← add_assoc]
    · rw [hm, Nat.mul_add, Nat.add_assoc, Nat.div_add_mod, Nat.cast_add, ← add_assoc]
  · rintro ⟨e, he, j, hj, rfl, rfl⟩
    obtain ⟨hf, hm⟩ := row_places h hlen hc e
    refine ⟨b.info.esize.toNat * e + j, ?_, ?_, ?_⟩
    · have hstep := Nat.mul_le_mul_left b.info.esize.toNat he
      rw [Nat.mul_succ] at hstep
      rw [Nat.mul_comm w]
      omega
    · rw [hf, Nat.mul_add, Nat.add_assoc, Nat.cast_add, ← add_assoc]
    · rw [hm, Nat.mul_add, Nat.add_assoc, Nat.cast_add, ← add_assoc]

end Row

/-- The length of a row. -/
def exactRowLen (b : Intersec) : ℤ := b.count.getLastD 0 * b.info.esize.toNat

/-- A row has no more bytes than the data. -/
theorem Placed.row_lt (h : b.Placed) (hfits : b.info.esize.toNat * b.dataSize.prod < 2 ^ 31) :
    b.exactRowLen < 2 ^ 31 := by
  by_cases hnd : b.info.ndim = 0
  · have hnil : b.count = [] := List.length_eq_zero_iff.mp (h.count_length.trans hnd)
    rw [exactRowLen, hnil]
    simp
  obtain ⟨cs, w, hcount, hpos, hw, hlen⟩ := counts_concat h hnd
  have hc := Box.start_mem (fun p hp => by
    obtain ⟨n, hn, rfl⟩ := List.mem_map.mp hp
    exact hpos n hn : Box.Nonempty (fromZero cs))
  have hmem : (fromZero cs).start ++ [w - 1] ∈ b.counters :=
    (mem_counters_concat hcount).mpr ⟨_, hc, w - 1, by omega, rfl⟩
  have hplace := filePlace_lt h hmem
  rw [(row_places h hlen hc (w - 1)).1] at hplace
  have hle : w ≤ b.dataSize.prod := by omega
  have hbytes : w * b.info.esize.toNat < 2 ^ 31 := by
    calc w * b.info.esize.toNat ≤ b.dataSize.prod * b.info.esize.toNat := Nat.mul_le_mul_right _ hle
      _ = b.info.esize.toNat * b.dataSize.prod := Nat.mul_comm _ _
      _ < 2 ^ 31 := hfits
  rw [exactRowLen, hcount, List.getLastD_concat, ← Nat.cast_mul]
  exact_mod_cast hbytes

/-- **The rows carry the elements**, and share no byte. -/
theorem rows_reads (h : b.Placed) (hnd : b.info.ndim ≠ 0) (hfit : b.exactRowLen < 2 ^ 31) :
    ∃ ms, b.rows = .ok ms ∧ (∀ m ∈ ms, 0 < m.len ∧ m.len < 2 ^ 31) ∧
      (ms.Pairwise fun k l => ∀ x, ¬ (k.Takes x ∧ l.Takes x)) ∧ ∀ x d, (∃ m ∈ ms, m.Carries x d) ↔ b.Reads x d := by
  obtain ⟨cs, w, hcount, hpos, hw, hlen⟩ := counts_concat h hnd
  have hfit : w * b.info.esize.toNat < 2 ^ 31 := by
    rw [exactRowLen, hcount, List.getLastD_concat, ← Nat.cast_mul] at hfit
    exact_mod_cast hfit
  have hrow {c : List ℕ} (hc : c ∈ Box.cells (fromZero cs)) {x d : ℤ} := @row_carries b cs w h hcount hfit hlen c hc x d
  refine ⟨_, rows_eq hcount hpos hw hlen, ?_, ?_, fun x d => ?_⟩
  · intro m hm
    obtain ⟨c, -, rfl⟩ := List.mem_map.mp hm
    rw [row_eq h hcount hfit]
    exact ⟨Int.natCast_pos.mpr (Nat.mul_pos hw h.esize_pos), Int.ofNat_lt.mpr hfit⟩
  · rw [List.pairwise_map]
    refine (Box.cells_pairwise_lt _).imp_of_mem ?_
    intro c c' hc hc' hlt x ⟨hx, hx'⟩
    -- the byte is one of an element of each row
    obtain ⟨e, he, j, hj, hxe, -⟩ := (hrow hc).mp ⟨hx, rfl⟩
    obtain ⟨e', he', j', hj', hxe', -⟩ := (hrow hc').mp ⟨hx', rfl⟩
    have hplace : b.filePlace (c ++ [e]) = b.filePlace (c' ++ [e']) := by
      have hsum : b.info.esize.toNat * b.filePlace (c ++ [e]) + j =
            b.info.esize.toNat * b.filePlace (c' ++ [e']) + j' := by
        omega
      have hdiv := congrArg (· / b.info.esize.toNat) hsum
      simpa only [Nat.mul_add_div h.esize_pos, Nat.div_eq_of_lt hj, Nat.div_eq_of_lt hj', Nat.add_zero] using hdiv
    have hmem := (mem_counters_concat hcount).mpr ⟨c, hc, e, he, rfl⟩
    have hmem' := (mem_counters_concat hcount).mpr ⟨c', hc', e', he', rfl⟩
    obtain ⟨rfl, -⟩ := List.append_inj' (filePlace_inj h hmem hmem' hplace) rfl
    exact lt_irrefl _ hlt
  · unfold Reads
    simp only [List.mem_map, exists_exists_and_eq_and, mem_counters_concat hcount]
    constructor
    · rintro ⟨c, hc, hcarries⟩
      obtain ⟨e, he, j, hj, hx⟩ := (hrow hc).mp hcarries
      exact ⟨c ++ [e], ⟨c, hc, e, he, rfl⟩, j, hj, hx⟩
    · rintro ⟨_, ⟨c, hc, e, he, rfl⟩, j, hj, hx⟩
      exact ⟨c, hc, (hrow hc).mpr ⟨e, he, j, hj, hx⟩⟩

/-- **A result that is alone** carries its elements, in the order of the data. -/
theorem single_reads (h : b.Placed) (hes : b.info.esize.toNat < 2 ^ 31) (hz : b.zbuf = none) :
    ∃ ms, b.single = .ok ms ∧ InOrder ms ∧ (∀ m ∈ ms, 0 < m.len) ∧
      ∀ x d, (∃ m ∈ ms, m.Carries x d) ↔ b.Reads x d :=
  ⟨_, single_eq h hes hz, elemRuns_inOrder h, elemRuns_len h, fun _ _ => elemRuns_carries⟩

end Intersec

end LogVol
