/-
# LogVol.SearchExact — what a search of the index finds.

The search describes an intersection twice: as a part of the data of a block of an entry, and as a part of
the memory a block of the request goes to. `Transfer` is one element of it, `SearchRet.transfers` reads
the elements off a result the way the subarray types do, and `coincidences` says what they should be, by
the place of each element in the row-major list of the elements of its block. `search_exact` says that
the two are the same list: no element is missed, none comes twice, and each has its own two places.
-/
import LogVol.OffsetCodec
import LogVol.IdxList
import LogVol.PointSelect

namespace LogVol

open Lib (Box cellOffset)

/-! ## §1 — elements to be read. -/

/-- One element: the data it is in, at `foff` in the file and of `xsize` bytes once it is unfiltered, its
byte in that data, and the byte of memory it goes to. -/
structure Transfer where
  foff : MpiOffset
  fsize : MpiOffset
  xsize : MpiOffset
  off : Int
  dst : ℕ
  deriving DecidableEq

/-- The elements a result describes: `(dsize, dstart, count)` as a subarray of the data at `doff`,
`(msize, mstart, count)` as a subarray at `xbuf`. -/
def SearchRet.transfers (r : SearchRet) : Except Fault (List Transfer) := do
  let src ← createSubarray r.dsize r.count r.dstart
  let dst ← createSubarray r.msize r.count r.mstart
  pure (List.zipWith (fun s d : ℕ => ⟨r.foff, r.fsize, r.xsize, r.doff.toInt + r.info.esize.toNat * s,
    r.xbuf + r.info.esize.toNat * d⟩) src dst)

/-- A block as a box. -/
def Block.box (b : Block) : Box := (b.start.zip b.count).map fun p => (p.1.toNat, p.2.toNat)

/-- The elements a block of the request, at the place `before` among the elements of the request, shares
with a block of an entry: each is at its place in the list of elements of the one and of the other. -/
def sharedElems (req : ReadReq) (before : ℕ) (b : Block) (ent : MetaEntry) (msel : MetaSel) :
    List Transfer :=
  (b.box.cells.filter (· ∈ msel.block.box.cells)).map fun x =>
    ⟨ent.hdr.foff, ent.hdr.fsize, ent.dsize,
      msel.doff.toInt + req.info.esize.toNat * msel.block.box.cells.idxOf x,
      req.xbuf + req.info.esize.toNat * (before + b.box.cells.idxOf x)⟩

/-- The elements of the blocks of a request, one block after another. -/
def requestElems (bs : List Block) : List (List ℕ) := bs.flatMap fun b => b.box.cells

/-- **`coincidences`** — every element that a block of the request shares with a block of an entry. -/
def coincidences (req : ReadReq) (ents : List MetaEntry) : List Transfer :=
  req.sels.sels.zipIdx.flatMap fun bi => ents.flatMap fun ent => ent.sels.flatMap fun msel =>
    sharedElems req (requestElems (req.sels.sels.take bi.2)).length bi.1 ent msel

/-- The end of a block is a coordinate, and its extents fit an `int`. -/
def Block.FitsInt (b : Block) : Prop :=
  ∀ p ∈ b.start.zip b.count, p.1.toNat + p.2.toNat < 2 ^ 64 ∧ p.2.toNat < 2 ^ 31

instance (b : Block) : Decidable b.FitsInt := inferInstanceAs (Decidable (∀ p ∈ _, _))

/-- The end of a block is a coordinate. -/
def Block.EndsFit (b : Block) : Prop := ∀ p ∈ b.start.zip b.count, p.1.toNat + p.2.toNat < 2 ^ 64

theorem Block.FitsInt.endsFit {b : Block} (h : b.FitsInt) : b.EndsFit := fun p hp => (h p hp).1

/-- Entries and a request of one rank, with extents that fit an `int`; the memory the request is for has
an address in every byte. -/
structure Searchable (req : ReadReq) (ents : List MetaEntry) : Prop where
  rank : ∀ ent ∈ ents, ∀ s ∈ ent.sels, s.start.length = req.sels.ndim ∧ s.count.length = req.sels.ndim
  entFits : ∀ ent ∈ ents, ∀ s ∈ ent.sels, s.block.FitsInt
  reqFits : ∀ b ∈ req.sels.sels, b.FitsInt
  memory : req.info.esize.toNat * (requestElems req.sels.sels).length < 2 ^ 64

/-! ## §2 — one block against another. -/

theorem Block.box_length {b : Block} (h : b.start.length = b.count.length) :
    b.box.length = b.start.length := by
  rw [Block.box, List.length_map, List.length_zip, h, Nat.min_self]

theorem Block.box_counts {b : Block} (h : b.start.length = b.count.length) :
    b.box.map Prod.snd = b.count.map BitVec.toNat := by
  rw [Block.box, List.map_map]
  show (b.start.zip b.count).map (BitVec.toNat ∘ Prod.snd) = _
  rw [← List.map_map, List.map_snd_zip (by omega)]

@[simp] theorem Block.fitsInt_nil : Block.FitsInt ⟨[], []⟩ := fun _ h => absurd h List.not_mem_nil

@[simp] theorem Block.fitsInt_cons {s c : HSize} {ss cs : List HSize} :
    Block.FitsInt ⟨s :: ss, c :: cs⟩ ↔
      (s.toNat + c.toNat < 2 ^ 64 ∧ c.toNat < 2 ^ 31) ∧ Block.FitsInt ⟨ss, cs⟩ := List.forall_mem_cons

@[simp] theorem Block.endsFit_nil : Block.EndsFit ⟨[], []⟩ := fun _ h => absurd h List.not_mem_nil

@[simp] theorem Block.endsFit_cons {s c : HSize} {ss cs : List HSize} :
    Block.EndsFit ⟨s :: ss, c :: cs⟩ ↔ s.toNat + c.toNat < 2 ^ 64 ∧ Block.EndsFit ⟨ss, cs⟩ := List.forall_mem_cons

/-- `intersect` computes the box two blocks share. -/
theorem intersect_eq {sa ca sb cb : List HSize} (ha : sa.length = ca.length) (hb : sb.length = cb.length)
    (hab : sa.length = sb.length) (hfita : Block.EndsFit ⟨sa, ca⟩) (hfitb : Block.EndsFit ⟨sb, cb⟩) :
    intersect sa ca sb cb = (Box.inter (Block.box ⟨sa, ca⟩) (Block.box ⟨sb, cb⟩)).map fun c =>
      (c.map fun p => BitVec.ofNat 64 p.1, c.map fun p => BitVec.ofNat 64 p.2) := by
  induction sa generalizing ca sb cb with
  | nil =>
      obtain rfl := List.length_eq_zero_iff.mp ha.symm
      obtain rfl := List.length_eq_zero_iff.mp hab.symm
      rfl
  | cons s sa ih =>
      obtain ⟨c, ca, rfl⟩ := List.exists_cons_of_length_eq_add_one ha.symm
      obtain ⟨t, sb, rfl⟩ := List.exists_cons_of_length_eq_add_one hab.symm
      obtain ⟨d, cb, rfl⟩ := List.exists_cons_of_length_eq_add_one hb.symm
      obtain ⟨hs, hfita⟩ := Block.endsFit_cons.mp hfita
      obtain ⟨ht, hfitb⟩ := Block.endsFit_cons.mp hfitb
      have hrest := ih (Nat.succ.inj ha) (Nat.succ.inj hb) (Nat.succ.inj hab) hfita hfitb
      -- The ends fit words, so the larger start and the smaller end are those of natural numbers.
      have hsc : (s + c).toNat = s.toNat + c.toNat := by rw [BitVec.toNat_add, Nat.mod_eq_of_lt hs]
      have htd : (t + d).toNat = t.toNat + d.toNat := by rw [BitVec.toNat_add, Nat.mod_eq_of_lt ht]
      have hso : (if s < t then t else s) = BitVec.ofNat 64 (max s.toNat t.toNat) := by
        apply BitVec.eq_of_toNat_eq
        rw [BitVec.toNat_ofNat, Nat.mod_eq_of_lt (by omega)]
        split <;> rename_i hlt <;> rw [BitVec.lt_def] at hlt <;> omega
      have hco : (if t + d < s + c then t + d else s + c) =
          BitVec.ofNat 64 (min (s.toNat + c.toNat) (t.toNat + d.toNat)) := by
        apply BitVec.eq_of_toNat_eq
        rw [BitVec.toNat_ofNat, Nat.mod_eq_of_lt (by omega)]
        split <;> rename_i hlt <;> rw [BitVec.lt_def, hsc, htd] at hlt <;> omega
      have hboxa : Block.box ⟨s :: sa, c :: ca⟩ = (s.toNat, c.toNat) :: Block.box ⟨sa, ca⟩ := rfl
      have hboxb : Block.box ⟨t :: sb, d :: cb⟩ = (t.toNat, d.toNat) :: Block.box ⟨sb, cb⟩ := rfl
      rw [intersect, hso, hco, hboxa, hboxb, Box.inter, hrest]
      have hle : BitVec.ofNat 64 (min (s.toNat + c.toNat) (t.toNat + d.toNat)) ≤
          BitVec.ofNat 64 (max s.toNat t.toNat) ↔
            min (s.toNat + c.toNat) (t.toNat + d.toNat) ≤ max s.toNat t.toNat := by
        rw [BitVec.le_def, BitVec.toNat_ofNat, BitVec.toNat_ofNat, Nat.mod_eq_of_lt (by omega),
          Nat.mod_eq_of_lt (by omega)]
      simp only [hle]
      split
      · rfl
      · rename_i hroom
        rw [Option.map_map]
        rcases Box.inter (Block.box ⟨sa, ca⟩) (Block.box ⟨sb, cb⟩) with _ | box
        · rfl
        · have hsub : BitVec.ofNat 64 (min (s.toNat + c.toNat) (t.toNat + d.toNat)) -
              BitVec.ofNat 64 (max s.toNat t.toNat) =
                BitVec.ofNat 64 (min (s.toNat + c.toNat) (t.toNat + d.toNat) - max s.toNat t.toNat) := by
            apply BitVec.eq_of_toNat_eq
            have hmin : min (s.toNat + c.toNat) (t.toNat + d.toNat) < 2 ^ 64 := by omega
            have hmax : max s.toNat t.toNat < 2 ^ 64 := by omega
            rw [BitVec.toNat_sub_of_le, BitVec.toNat_ofNat, BitVec.toNat_ofNat, BitVec.toNat_ofNat,
              Nat.mod_eq_of_lt hmin, Nat.mod_eq_of_lt hmax, Nat.mod_eq_of_lt (by omega)]
            rw [BitVec.le_def, BitVec.toNat_ofNat, BitVec.toNat_ofNat, Nat.mod_eq_of_lt hmin,
              Nat.mod_eq_of_lt hmax]
            omega
          show some (_ :: _, _ :: _) = some (_ :: _, _ :: _)
          rw [hsub]

/-- Blocks that meet end at coordinates: where the end of one wraps around, it comes before the start. -/
theorem intersect_endsFit {sa ca sb cb : List HSize} (ha : sa.length = ca.length) (hb : sb.length = cb.length)
    (hab : sa.length = sb.length) (h : (intersect sa ca sb cb).isSome) :
    Block.EndsFit ⟨sa, ca⟩ ∧ Block.EndsFit ⟨sb, cb⟩ := by
  induction sa generalizing ca sb cb with
  | nil =>
      obtain rfl := List.length_eq_zero_iff.mp ha.symm
      obtain rfl := List.length_eq_zero_iff.mp hab.symm
      obtain rfl := List.length_eq_zero_iff.mp hb.symm
      exact ⟨Block.endsFit_nil, Block.endsFit_nil⟩
  | cons s sa ih =>
      obtain ⟨c, ca, rfl⟩ := List.exists_cons_of_length_eq_add_one ha.symm
      obtain ⟨t, sb, rfl⟩ := List.exists_cons_of_length_eq_add_one hab.symm
      obtain ⟨d, cb, rfl⟩ := List.exists_cons_of_length_eq_add_one hb.symm
      have hroom : ¬ (if t + d < s + c then t + d else s + c) ≤ (if s < t then t else s) := by
        intro hle
        rw [intersect, if_pos hle] at h
        exact absurd h Bool.false_ne_true
      have hrest : (intersect sa ca sb cb).isSome := by
        rw [intersect, if_neg hroom] at h
        rcases hi : intersect sa ca sb cb with _ | r
        · rw [hi] at h
          exact absurd h Bool.false_ne_true
        · rfl
      obtain ⟨hfita, hfitb⟩ := ih (Nat.succ.inj ha) (Nat.succ.inj hb) (Nat.succ.inj hab) hrest
      rw [Block.endsFit_cons, Block.endsFit_cons]
      suffices s.toNat + c.toNat < 2 ^ 64 ∧ t.toNat + d.toNat < 2 ^ 64 from ⟨⟨this.1, hfita⟩, this.2, hfitb⟩
      have hsc := BitVec.toNat_add s c
      have htd := BitVec.toNat_add t d
      have hs := s.isLt
      have hc := c.isLt
      have ht := t.isLt
      have hd := d.isLt
      simp only [BitVec.le_def, BitVec.lt_def] at hroom
      -- An end that wrapped is below its own start.
      split_ifs at hroom <;> omega

/-- The start of a box inside a block, counted from the start of the block and cast to `int`. -/
theorem starts_within {start count : List HSize} (hlen : start.length = count.length)
    (hfit : Block.FitsInt ⟨start, count⟩) {c : Box} (h : c.Inside (Block.box ⟨start, count⟩)) :
    (List.zipWith (· - ·) (c.map fun p => BitVec.ofNat 64 p.1) start).map cordInt =
      (Box.within c (Block.box ⟨start, count⟩)).map fun p => cInt p.1 := by
  induction start generalizing count c with
  | nil =>
      obtain rfl := List.length_eq_zero_iff.mp hlen.symm
      obtain rfl := List.forall₂_nil_right_iff.mp h
      rfl
  | cons s start ih =>
      obtain ⟨k, count, rfl⟩ := List.exists_cons_of_length_eq_add_one hlen.symm
      obtain ⟨p, c, hp, hc, rfl⟩ := List.forall₂_cons_right_iff.mp h
      obtain ⟨hs, hfit⟩ := Block.fitsInt_cons.mp hfit
      have hword : (BitVec.ofNat 64 p.1 - s).toNat = p.1 - s.toNat := by
        have hlt : p.1 < 2 ^ 64 := by simp only at hp; omega
        rw [BitVec.toNat_sub_of_le, BitVec.toNat_ofNat, Nat.mod_eq_of_lt hlt]
        rw [BitVec.le_def, BitVec.toNat_ofNat, Nat.mod_eq_of_lt hlt]
        exact hp.1
      have hrest := ih (Nat.succ.inj hlen) hfit hc
      show cordInt (BitVec.ofNat 64 p.1 - s) :: _ = cInt ((p.1 - s.toNat : ℕ) : Int) :: _
      rw [cordInt, hword]
      exact congrArg _ hrest

theorem counts_within {c a : Box} (h : c.Inside a) (hfit : ∀ p ∈ a, p.2 < 2 ^ 31) :
    (c.map fun p => BitVec.ofNat 64 p.2).map cordInt = (Box.within c a).map fun p => cInt p.2 := by
  induction h with
  | nil => rfl
  | @cons p q c a hpq _ ih =>
      have hq := hfit q (List.mem_cons_self ..)
      have hrest := ih fun r hr => hfit r (List.mem_cons_of_mem q hr)
      have hword : (BitVec.ofNat 64 p.2).toNat = p.2 := by
        rw [BitVec.toNat_ofNat, Nat.mod_eq_of_lt (by omega)]
      show cordInt (BitVec.ofNat 64 p.2) :: _ = cInt p.2 :: _
      rw [cordInt, hword]
      exact congrArg _ hrest

/-- **The subarray of a block** that a box inside it is: its places are those of the elements in the list
of elements of the block. -/
theorem createSubarray_within {b : Block} (hlen : b.start.length = b.count.length) (hfit : b.FitsInt)
    {c : Box} (h : c.Inside b.box) :
    createSubarray (b.count.map cordInt) ((c.map fun p => BitVec.ofNat 64 p.2).map cordInt)
      ((List.zipWith (· - ·) (c.map fun p => BitVec.ofNat 64 p.1) b.start).map cordInt) =
        .ok (c.cells.map b.box.cells.idxOf) := by
  have hbox : ∀ p ∈ b.box, p.2 < 2 ^ 31 := by
    intro p hp
    obtain ⟨q, hq, rfl⟩ := List.mem_map.mp hp
    exact (hfit q hq).2
  have hdims : b.count.map cordInt = (b.box.map Prod.snd).map fun d : ℕ => cInt d := by
    rw [Block.box_counts hlen, List.map_map]
    exact List.map_congr_left fun d _ => by rw [cordInt, Function.comp_apply]
  have hint : ∀ d ∈ b.box.map Prod.snd, d < 2 ^ 31 := by
    intro d hd
    obtain ⟨p, hp, rfl⟩ := List.mem_map.mp hd
    exact hbox p hp
  rw [hdims, counts_within h hbox, starts_within hlen hfit h,
    createSubarray_block hint (Box.within_nonempty h) (Box.within_inArray h), Box.places_within h]

/-! ## §3 — results and what they describe. -/

/-- The results describe the elements `ts`, in order. -/
def Describes (rets : List SearchRet) (ts : List Transfer) : Prop :=
  (rets.mapM SearchRet.transfers).map List.flatten = .ok ts

theorem describes_nil : Describes [] [] := rfl

theorem Describes.append {rs rs' : List SearchRet} {ts ts' : List Transfer} (h : Describes rs ts)
    (h' : Describes rs' ts') : Describes (rs ++ rs') (ts ++ ts') := by
  unfold Describes at h h' ⊢
  rcases hrs : rs.mapM SearchRet.transfers with _ | l
  · rw [hrs] at h
    cases h
  rcases hrs' : rs'.mapM SearchRet.transfers with _ | l'
  · rw [hrs'] at h'
    cases h'
  rw [hrs] at h
  rw [hrs'] at h'
  obtain rfl := Except.ok.inj h
  obtain rfl := Except.ok.inj h'
  rw [List.mapM_append, hrs, hrs']
  show Except.ok _ = _
  rw [List.flatten_append]

/-- Lists of results put one behind the other. -/
theorem Describes.flatMap {α : Type} {l : List α} {f : α → List SearchRet} {g : α → List Transfer}
    (h : ∀ a ∈ l, Describes (f a) (g a)) : Describes (l.flatMap f) (l.flatMap g) := by
  induction l with
  | nil => exact describes_nil
  | cons a l ih =>
      rw [List.flatMap_cons, List.flatMap_cons]
      exact (h a (List.mem_cons_self ..)).append (ih fun b hb => h b (List.mem_cons_of_mem a hb))

/-- The result for the box `c` two blocks share. -/
def sharedRet (req : ReadReq) (b : Block) (xbuf : ℕ) (ent : MetaEntry) (msel : MetaSel) (c : Box) :
    SearchRet :=
  { info := req.info
    dsize := msel.block.count.map cordInt
    dstart := (List.zipWith (· - ·) (c.map fun p => BitVec.ofNat 64 p.1) msel.block.start).map cordInt
    msize := b.count.map cordInt
    mstart := (List.zipWith (· - ·) (c.map fun p => BitVec.ofNat 64 p.1) b.start).map cordInt
    count := (c.map fun p => BitVec.ofNat 64 p.2).map cordInt
    xsize := ent.dsize
    doff := msel.doff
    xbuf := xbuf
    foff := ent.hdr.foff
    fsize := ent.hdr.fsize }

section Blocks

variable {req : ReadReq} {b : Block} {ent : MetaEntry} {msel : MetaSel}

theorem searchSel_eq (xbuf : ℕ) (hlen : msel.block.start.length = msel.block.count.length)
    (hlen' : b.start.length = b.count.length) (hrank : msel.block.start.length = b.start.length)
    (hfit : msel.block.FitsInt) (hfit' : b.FitsInt) :
    searchSel req b xbuf ent msel = (Box.inter msel.block.box b.box).map (sharedRet req b xbuf ent msel) := by
  have hinter := intersect_eq hlen hlen' hrank hfit.endsFit hfit'.endsFit
  change intersect msel.start msel.count b.start b.count = _ at hinter
  rw [searchSel, hinter, Option.map_map]
  rfl

/-- **One block against another**: a result where they share an element, none where they do not. -/
theorem searchSel_describes (before : ℕ) (hlen : msel.block.start.length = msel.block.count.length)
    (hlen' : b.start.length = b.count.length) (hrank : msel.block.start.length = b.start.length)
    (hfit : msel.block.FitsInt) (hfit' : b.FitsInt) :
    Describes (searchSel req b (req.xbuf + req.info.esize.toNat * before) ent msel).toList
      (sharedElems req before b ent msel) := by
  have hboxes : msel.block.box.length = b.box.length := by
    rw [Block.box_length hlen, Block.box_length hlen', hrank]
  rw [searchSel_eq _ hlen hlen' hrank hfit hfit', sharedElems, ← Box.inter_cells hboxes]
  rcases hinter : Box.inter msel.block.box b.box with _ | c
  · exact describes_nil
  · obtain ⟨hin, hin'⟩ := Box.inter_inside hboxes hinter
    have hsrc := createSubarray_within hlen hfit hin
    have hdst := createSubarray_within hlen' hfit' hin'
    have hread : (sharedRet req b (req.xbuf + req.info.esize.toNat * before) ent msel c).transfers =
        .ok (c.cells.map fun x => ⟨ent.hdr.foff, ent.hdr.fsize, ent.dsize,
          msel.doff.toInt + req.info.esize.toNat * msel.block.box.cells.idxOf x,
          req.xbuf + req.info.esize.toNat * (before + b.box.cells.idxOf x)⟩) := by
      rw [SearchRet.transfers]
      simp only [sharedRet]
      rw [hsrc, hdst]
      show Except.ok _ = _
      rw [List.zipWith_map, List.zipWith_self]
      simp only [Nat.mul_add, Nat.add_assoc]
    show ([sharedRet req b (req.xbuf + req.info.esize.toNat * before) ent msel c].mapM
      SearchRet.transfers).map List.flatten = _
    rw [List.mapM_cons, hread]
    show Except.ok _ = _
    simp

end Blocks

/-- The size of a block is the number of its elements, counted in 64-bit words. -/
theorem selSize_eq {b : Block} (h : b.start.length = b.count.length) :
    b.selSize = BitVec.ofNat 64 b.box.cells.length := by
  have hbytes := blockBytes_eq 1 b
  rw [Block.elems, show (1 : HSize).toNat = 1 from rfl, one_mul, ← Block.box_counts h,
    ← Box.cells_length] at hbytes
  exact hbytes

/-- **The blocks of a request, from one of them on**: the elements of the blocks before it are `before`,
and the memory they go to is skipped. -/
theorem searchBlocks_describes {req : ReadReq} {ents : List MetaEntry} (h : Searchable req ents)
    {pre bs : List Block} (hsels : req.sels.sels = pre ++ bs) {soff : HSize}
    (hsoff : soff.toNat = req.info.esize.toNat * (requestElems pre).length) :
    Describes (searchBlocks req ents soff bs) ((bs.zipIdx pre.length).flatMap fun bi =>
      ents.flatMap fun ent => ent.sels.flatMap fun msel =>
        sharedElems req (requestElems (req.sels.sels.take bi.2)).length bi.1 ent msel) := by
  induction bs generalizing pre soff with
  | nil => exact describes_nil
  | cons b bs ih =>
      have hmem : b ∈ req.sels.sels := by
        rw [hsels]
        exact List.mem_append_right pre (List.mem_cons_self ..)
      have hrank := req.sels.rank_eq b hmem
      have htake : req.sels.sels.take pre.length = pre := by rw [hsels, List.take_left]
      rw [searchBlocks, List.zipIdx_cons, List.flatMap_cons]
      apply Describes.append
      · -- this block against every block of every entry
        simp only [htake]
        apply Describes.flatMap
        intro ent hent
        rw [List.filterMap_eq_flatMap_toList]
        apply Describes.flatMap
        intro msel hmsel
        have hmrank := h.rank ent hent msel hmsel
        rw [hsoff]
        apply searchSel_describes
        · exact hmrank.1.trans hmrank.2.symm
        · exact hrank.1.trans hrank.2.symm
        · exact hmrank.1.trans hrank.1.symm
        · exact h.entFits ent hent msel hmsel
        · exact h.reqFits b hmem
      · -- the blocks behind it
        have hsels' : req.sels.sels = (pre ++ [b]) ++ bs := by rw [hsels, List.append_assoc]; rfl
        have hall : requestElems req.sels.sels = requestElems pre ++ (b.box.cells ++ requestElems bs) := by
          rw [hsels, requestElems, List.flatMap_append, List.flatMap_cons]
          rfl
        have hthis : requestElems (pre ++ [b]) = requestElems pre ++ b.box.cells := by
          rw [requestElems, List.flatMap_append, List.flatMap_singleton]
          rfl
        have hnext := @ih (pre ++ [b]) hsels' (soff + b.selSize * req.info.esize) ?_
        · rw [List.length_append, List.length_singleton] at hnext
          exact hnext
        · have hmemory := h.memory
          rw [hall, List.length_append, List.length_append, Nat.mul_add, Nat.mul_add] at hmemory
          have hword := req.info.esize.isLt
          rw [selSize_eq (hrank.1.trans hrank.2.symm), hthis, List.length_append, Nat.mul_add, BitVec.toNat_add,
            BitVec.toNat_mul, BitVec.toNat_ofNat, hsoff, Nat.mod_mul_mod, Nat.mul_comm b.box.cells.length,
            Nat.mod_eq_of_lt (a := req.info.esize.toNat * b.box.cells.length) (by omega),
            Nat.mod_eq_of_lt (by omega)]

/-- **The search is exact.** The results describe every element a block of the request shares with a
block of an entry, each once, at its place in the data of the one and in the memory of the other. -/
theorem search_exact {idx : ArrayIdx} {req : ReadReq} {ents : List MetaEntry}
    (hents : idx[req.did.toNat]? = some ents) (h : Searchable req ents) :
    ∃ rets, idx.search req = .ok rets ∧ Describes rets (coincidences req ents) := by
  refine ⟨searchBlocks req ents 0 req.sels.sels, ?_, ?_⟩
  · rw [ArrayIdx.search, hents]
  · exact @searchBlocks_describes req ents h [] _ rfl 0 (by simp [requestElems])

/-- Two columns of two rows. -/
def columnsBlocks : List Block := [⟨[0, 1], [2, 2]⟩]

theorem columnsBlocks_rank : ∀ b ∈ columnsBlocks, b.start.length = 2 ∧ b.count.length = 2 := by decide

theorem columnsBlocks_length : columnsBlocks.length < 2 ^ 31 := by decide

/-- A request for them in a 4 by 4 dataset of `int`s. -/
def columnsReq : ReadReq where
  did := 0
  info := sampleSquareDset
  sels := ⟨2, columnsBlocks, columnsBlocks_rank, columnsBlocks_length⟩
  xbuf := 1000

/-- An entry of two blocks: the lower left corner, and one element of the first row. -/
def cornersEntry : MetaEntry where
  hdr := ⟨0, 0, 0, 100, 20⟩
  sels := [⟨[1, 0], [2, 2], 0⟩, ⟨[0, 2], [1, 1], 16⟩]
  dsize := 20

theorem search_columns : ∃ rets, ArrayIdx.search [[cornersEntry]] columnsReq = .ok rets ∧
    Describes rets (coincidences columnsReq [cornersEntry]) :=
  search_exact rfl ⟨by decide, by simp [cornersEntry, MetaSel.block], by simp [columnsReq, columnsBlocks], by decide⟩

example : coincidences columnsReq [cornersEntry] = [⟨100, 20, 20, 4, 1008⟩, ⟨100, 20, 20, 16, 1004⟩] := by
  decide

end LogVol
