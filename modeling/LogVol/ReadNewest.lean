/-
# LogVol.ReadNewest — a read returns what was written last.

Every write has its data in the log behind that of the writes before it, so that of the blocks that cover an element
the last one written is the last in the file. Requests that share no element read no byte of the file twice, and
what goes to one byte of memory comes in the order of the file: what is left there is of the last block that covers
the element, and of the fill value where there is none (`read_newest`).
-/
import LogVol.ReadCarries

namespace LogVol

open Lib (Box Move Store)

/-! ## §1 — entries in the file. -/

/-- Where the data of a block of an entry begins. -/
def dataPos (ent : MetaEntry) (s : MetaSel) : ℤ := (ent.hdr.foff + s.doff).toInt

/-- An entry of a dataset: the data of its blocks, one after another, is in the range of the entry. -/
structure Stored (info : DsetInfo) (ent : MetaEntry) : Prop where
  rank : ∀ s ∈ ent.sels, s.start.length = info.ndim ∧ s.count.length = info.ndim
  placed : ent.sels = placeSels info.esize 0 (ent.sels.map MetaSel.block)
  size : ((info.esize.toNat * (ent.sels.map fun s => s.block.elems).sum : ℕ) : ℤ) ≤ ent.hdr.fsize.toInt
  foff_nonneg : 0 ≤ ent.hdr.foff.toInt
  fits : ent.hdr.foff.toInt + ent.hdr.fsize.toInt < 2 ^ 63

/-- **A log**: the writes in their order, each to a dataset, with their data one behind the other in the file. -/
structure Log (info : ℕ → DsetInfo) (writes : List (ℕ × MetaEntry)) : Prop where
  stored : ∀ w ∈ writes, Stored (info w.1) w.2
  order : writes.Pairwise fun v w => v.2.hdr.foff.toInt + v.2.hdr.fsize.toInt ≤ w.2.hdr.foff.toInt

/-- What was written to a dataset. -/
def writtenTo (writes : List (ℕ × MetaEntry)) (did : ℕ) : List MetaEntry :=
  (writes.filter fun w => w.1 = did).map Prod.snd

/-- The blocks of entries, one after another. -/
def blocksOf (ents : List MetaEntry) : List (MetaEntry × MetaSel) :=
  ents.flatMap fun e => e.sels.map fun s => (e, s)

/-- The block that was written last, of those that cover an element. -/
def newest (ents : List MetaEntry) (y : List ℕ) : Option (MetaEntry × MetaSel) :=
  ((blocksOf ents).filter fun p => p.2.block.box.cells.contains y).getLast?

/-- Where in the file an element of a block is. -/
def storedAt (esize : ℕ) (p : MetaEntry × MetaSel) (y : List ℕ) : ℕ :=
  (p.1.hdr.foff + p.2.doff).toNat + esize * p.2.block.box.cells.idxOf y

/-- The data of one block ends before that of the other begins. -/
def DataBefore (esize : ℕ) (p q : MetaEntry × MetaSel) : Prop :=
  dataPos p.1 p.2 + (esize * p.2.block.elems : ℕ) ≤ dataPos q.1 q.2

def DataApart (esize : ℕ) (p q : MetaEntry × MetaSel) : Prop := DataBefore esize p q ∨ DataBefore esize q p

theorem elems_eq {b : Block} (h : b.start.length = b.count.length) : b.elems = b.box.cells.length := by
  rw [Block.elems, ← Block.box_counts h, ← Box.cells_length]

/-- Blocks laid one after another, from `n` on. -/
theorem placeSels_spans (esize : HSize) {bs : List Block} {n : ℕ}
    (hfit : n + esize.toNat * (bs.map Block.elems).sum < 2 ^ 63) :
    (∀ s ∈ placeSels esize (BitVec.ofNat 64 n) bs, n ≤ s.doff.toNat ∧
        s.doff.toNat + esize.toNat * s.block.elems ≤ n + esize.toNat * (bs.map Block.elems).sum) ∧
      (placeSels esize (BitVec.ofNat 64 n) bs).Pairwise fun s t =>
        s.doff.toNat + esize.toNat * s.block.elems ≤ t.doff.toNat := by
  induction bs generalizing n with
  | nil => exact ⟨fun s hs => absurd hs List.not_mem_nil, List.Pairwise.nil⟩
  | cons b bs ih =>
    rw [List.map_cons, List.sum_cons, Nat.mul_add] at hfit ⊢
    have hnext : blockBytes esize b.count + BitVec.ofNat 64 n = BitVec.ofNat 64 (n + esize.toNat * b.elems) := by
      rw [blockBytes_eq, ← BitVec.ofNat_add, Nat.add_comm]
    have hfirst : (BitVec.ofNat 64 n).toNat = n := by
      rw [BitVec.toNat_ofNat, Nat.mod_eq_of_lt (by omega)]
    obtain ⟨hin, hpair⟩ := @ih (n + esize.toNat * b.elems) (by omega)
    rw [placeSels, hnext]
    refine ⟨List.forall_mem_cons.mpr ⟨?_, ?_⟩, List.pairwise_cons.mpr ⟨?_, hpair⟩⟩
    · show n ≤ (BitVec.ofNat 64 n).toNat ∧ (BitVec.ofNat 64 n).toNat + esize.toNat * b.elems ≤ _
      omega
    · intro s hs
      have hs := hin s hs
      omega
    · intro t ht
      have ht := (hin t ht).1
      show (BitVec.ofNat 64 n).toNat + esize.toNat * b.elems ≤ _
      omega

section Stored

variable {info : DsetInfo} {ent : MetaEntry} (h : Stored info ent)
include h

theorem stored_spans :
    (∀ s ∈ ent.sels, (s.doff.toNat : ℤ) + (info.esize.toNat * s.block.elems : ℕ) ≤ ent.hdr.fsize.toInt) ∧
      ent.sels.Pairwise fun s t => s.doff.toNat + info.esize.toNat * s.block.elems ≤ t.doff.toNat := by
  have hsize := h.size
  have hfits := h.fits
  have hfoff := h.foff_nonneg
  have hsum : ((ent.sels.map MetaSel.block).map Block.elems).sum = (ent.sels.map fun s => s.block.elems).sum := by
    rw [List.map_map]
    rfl
  have hspans := @placeSels_spans info.esize (ent.sels.map MetaSel.block) 0 (by rw [hsum]; omega)
  rw [show BitVec.ofNat 64 0 = (0 : MpiOffset) from rfl, ← h.placed, hsum] at hspans
  refine ⟨?_, hspans.2⟩
  intro s hs
  have hs := (hspans.1 s hs).2
  omega

/-- The place of a block: no sum wraps. -/
theorem dataPos_eq {s : MetaSel} (hs : s ∈ ent.sels) :
    dataPos ent s = ent.hdr.foff.toInt + s.doff.toNat ∧ ((ent.hdr.foff + s.doff).toNat : ℤ) = dataPos ent s := by
  have hin := (stored_spans h).1 s hs
  have hfits := h.fits
  have hfoff := h.foff_nonneg
  have hword : (ent.hdr.foff.toNat : ℤ) = ent.hdr.foff.toInt := by
    rw [BitVec.toInt_eq_toNat_cond] at hfoff ⊢
    split at hfoff <;> omega
  have hsum : (ent.hdr.foff + s.doff).toNat = ent.hdr.foff.toNat + s.doff.toNat := by
    rw [BitVec.toNat_add, Nat.mod_eq_of_lt (by omega)]
  have hint : dataPos ent s = ((ent.hdr.foff + s.doff).toNat : ℤ) := by
    rw [dataPos, BitVec.toInt_eq_toNat_of_lt (by omega)]
  rw [hint, hsum]
  omega

theorem stored_range {s : MetaSel} (hs : s ∈ ent.sels) : ent.hdr.foff.toInt ≤ dataPos ent s ∧
    dataPos ent s + (info.esize.toNat * s.block.elems : ℕ) ≤ ent.hdr.foff.toInt + ent.hdr.fsize.toInt := by
  have hin := (stored_spans h).1 s hs
  have hpos := (dataPos_eq h hs).1
  omega

theorem stored_blocks : (ent.sels.map fun s => (ent, s)).Pairwise (DataBefore info.esize.toNat) := by
  rw [List.pairwise_map]
  refine (stored_spans h).2.imp_of_mem ?_
  intro s t hs ht hle
  show dataPos ent s + (info.esize.toNat * s.block.elems : ℕ) ≤ dataPos ent t
  rw [(dataPos_eq h hs).1, (dataPos_eq h ht).1]
  omega

end Stored

theorem mem_writtenTo {writes : List (ℕ × MetaEntry)} {did : ℕ} {e : MetaEntry} :
    e ∈ writtenTo writes did ↔ (did, e) ∈ writes := by
  unfold writtenTo
  simp only [List.mem_map, List.mem_filter, decide_eq_true_eq]
  constructor
  · rintro ⟨⟨_, _⟩, ⟨hw, rfl⟩, rfl⟩
    exact hw
  · intro hw
    exact ⟨(did, e), ⟨hw, rfl⟩, rfl⟩

theorem mem_blocksOf {ents : List MetaEntry} {p : MetaEntry × MetaSel} :
    p ∈ blocksOf ents ↔ p.1 ∈ ents ∧ p.2 ∈ p.1.sels := by
  unfold blocksOf
  simp only [List.mem_flatMap, List.mem_map]
  constructor
  · rintro ⟨e, he, s, hs, rfl⟩
    exact ⟨he, hs⟩
  · rintro ⟨he, hs⟩
    exact ⟨p.1, he, p.2, hs, rfl⟩

theorem newest_none {ents : List MetaEntry} {y : List ℕ} (h : newest ents y = none) :
    ∀ q ∈ blocksOf ents, y ∉ q.2.block.box.cells := by
  intro q hq hy
  have hempty := List.getLast?_eq_none_iff.mp h
  rw [List.filter_eq_nil_iff] at hempty
  exact hempty q hq (by simpa using hy)

section Log

variable {info : ℕ → DsetInfo} {writes : List (ℕ × MetaEntry)} (hlog : Log info writes)
include hlog

/-- **The blocks of a dataset** are in the file in the order in which they were written. -/
theorem blocks_before (did : ℕ) :
    (blocksOf (writtenTo writes did)).Pairwise (DataBefore (info did).esize.toNat) := by
  have hstored : ∀ e ∈ writtenTo writes did, Stored (info did) e := fun e he => hlog.stored _ (mem_writtenTo.mp he)
  rw [blocksOf, List.pairwise_flatMap]
  constructor
  · exact fun e he => stored_blocks (hstored e he)
  · have horder : (writtenTo writes did).Pairwise fun e e' =>
        e.hdr.foff.toInt + e.hdr.fsize.toInt ≤ e'.hdr.foff.toInt := by
      rw [writtenTo, List.pairwise_map]
      exact hlog.order.filter _
    refine horder.imp_of_mem ?_
    intro e e' he he' hle p hp q hq
    obtain ⟨s, hs, rfl⟩ := List.mem_map.mp hp
    obtain ⟨t, ht, rfl⟩ := List.mem_map.mp hq
    have hend := (stored_range (hstored e he) hs).2
    have hbegin := (stored_range (hstored e' he') ht).1
    show dataPos e s + ((info did).esize.toNat * s.block.elems : ℕ) ≤ dataPos e' t
    omega

/-- The last of the blocks that cover an element is behind the others. -/
theorem newest_last {did : ℕ} {y : List ℕ} {p : MetaEntry × MetaSel}
    (h : newest (writtenTo writes did) y = some p) : p ∈ blocksOf (writtenTo writes did) ∧ y ∈ p.2.block.box.cells ∧
      ∀ q ∈ blocksOf (writtenTo writes did), y ∈ q.2.block.box.cells →
        q = p ∨ DataBefore (info did).esize.toNat q p := by
  have hbefore := (blocks_before hlog did).filter fun p => p.2.block.box.cells.contains y
  have hmem := List.mem_filter.mp (List.mem_of_getLast? h)
  refine ⟨hmem.1, by simpa using hmem.2, ?_⟩
  intro q hq hy
  obtain ⟨front, hfront⟩ := List.getLast?_eq_some_iff.mp h
  have hqmem : q ∈ (blocksOf (writtenTo writes did)).filter fun p => p.2.block.box.cells.contains y :=
    List.mem_filter.mpr ⟨hq, by simpa using hy⟩
  rw [hfront] at hbefore hqmem
  rcases List.mem_append.mp hqmem with hqmem | hqmem
  · exact Or.inr ((List.pairwise_append.mp hbefore).2.2 q hqmem p (List.mem_singleton_self p))
  · exact Or.inl (List.mem_singleton.mp hqmem)

/-- Of two blocks of one dataset, one is behind the other. -/
theorem blocks_apart {did : ℕ} {p q : MetaEntry × MetaSel} (hp : p ∈ blocksOf (writtenTo writes did))
    (hq : q ∈ blocksOf (writtenTo writes did)) (hne : p ≠ q) : DataApart (info did).esize.toNat p q := by
  have hsymm : Std.Symm (DataApart (info did).esize.toNat) := ⟨fun _ _ h => h.symm⟩
  have hpair : (blocksOf (writtenTo writes did)).Pairwise (DataApart (info did).esize.toNat) :=
    (blocks_before hlog did).imp Or.inl
  exact hpair.forall hp hq hne

/-- Data of different datasets is apart. -/
theorem entries_apart {did did' : ℕ} (hne : did ≠ did') {e e' : MetaEntry} (he : e ∈ writtenTo writes did)
    (he' : e' ∈ writtenTo writes did') : e.hdr.foff.toInt + e.hdr.fsize.toInt ≤ e'.hdr.foff.toInt ∨
      e'.hdr.foff.toInt + e'.hdr.fsize.toInt ≤ e.hdr.foff.toInt := by
  have hsymm : Std.Symm fun v w : ℕ × MetaEntry => v.2.hdr.foff.toInt + v.2.hdr.fsize.toInt ≤ w.2.hdr.foff.toInt ∨
      w.2.hdr.foff.toInt + w.2.hdr.fsize.toInt ≤ v.2.hdr.foff.toInt := ⟨fun _ _ h => h.symm⟩
  have hpair : writes.Pairwise fun v w => v.2.hdr.foff.toInt + v.2.hdr.fsize.toInt ≤ w.2.hdr.foff.toInt ∨
      w.2.hdr.foff.toInt + w.2.hdr.fsize.toInt ≤ v.2.hdr.foff.toInt := hlog.order.imp Or.inl
  refine hpair.forall (mem_writtenTo.mp he) (mem_writtenTo.mp he') ?_
  intro heq
  exact hne (congrArg Prod.fst heq)

end Log

/-! ## §2 — what a result reads. -/

namespace SelPair

variable {req : ReadReq} {p : SelPair}

/-- The result of a pair, unfiltered. -/
def result (req : ReadReq) (p : SelPair) (c : Box) : Intersec := ⟨p.exactRet req c, none⟩

theorem map_toNat_natCast {α : Type} (f : α → ℕ) (l : List α) :
    (l.map fun a => (f a : ℤ)).map Int.toNat = l.map f := by
  rw [List.map_map]
  rfl

/-- The part of a block that a box inside it is, as the two arrays give it. -/
theorem zip_within {c a : Box} (h : c.Inside a) :
    ((Box.within c a).map fun q => (q.1 : ℤ)).map Int.toNat = (Box.within c a).map Prod.fst ∧
      ((Box.within c a).map Prod.fst).zip (c.map Prod.snd) = Box.within c a := by
  refine ⟨map_toNat_natCast _ _, ?_⟩
  induction h with
  | nil => rfl
  | @cons q r c a _ _ ih =>
    show (q.1 - r.1, q.2) :: _ = (q.1 - r.1, q.2) :: Box.within c a
    exact congrArg _ ih

section Shared

variable (h : p.Ranked req) {c : Box}
include h

theorem result_dataSize : (p.result req c).dataSize = p.msel.block.box.map Prod.snd := by
  rw [Block.box_counts h.entryLen]
  exact map_toNat_natCast _ _

theorem result_memSize : (p.result req c).memSize = p.b.box.map Prod.snd := by
  rw [Block.box_counts h.blockLen]
  exact map_toNat_natCast _ _

variable (hc : p.shared = some c)
include hc

theorem shared_inside : c.Inside p.msel.block.box ∧ c.Inside p.b.box :=
  Box.inter_inside (by rw [Block.box_length h.entryLen, Block.box_length h.blockLen, h.sameLen]) hc

theorem result_fileBox : (p.result req c).fileBox = Box.within c p.msel.block.box := by
  obtain ⟨hstart, hzip⟩ := zip_within (shared_inside h hc).1
  show (((Box.within c p.msel.block.box).map fun q => (q.1 : ℤ)).map Int.toNat).zip
    ((c.map fun q => (q.2 : ℤ)).map Int.toNat) = _
  rw [hstart, map_toNat_natCast, hzip]

theorem result_memBox : (p.result req c).memBox = Box.within c p.b.box := by
  obtain ⟨hstart, hzip⟩ := zip_within (shared_inside h hc).2
  show (((Box.within c p.b.box).map fun q => (q.1 : ℤ)).map Int.toNat).zip
    ((c.map fun q => (q.2 : ℤ)).map Int.toNat) = _
  rw [hstart, map_toNat_natCast, hzip]

/-- The result is a part of the one block and of the other. -/
theorem result_placed (hes : 0 < req.info.esize.toNat) : (p.result req c).Placed := by
  obtain ⟨hin, hin'⟩ := shared_inside h hc
  have hlen : c.length = req.info.ndim := by
    rw [hin'.length_eq, Block.box_length h.blockLen, h.block.1]
  have hwithin : (Box.within c p.msel.block.box).length = req.info.ndim := by
    rw [(Box.within_inArray hin).length_eq, List.length_map, ← hin.length_eq, hlen]
  have hwithin' : (Box.within c p.b.box).length = req.info.ndim := by
    rw [(Box.within_inArray hin').length_eq, List.length_map, ← hin'.length_eq, hlen]
  refine ⟨hes, ?_, ?_, ?_, ?_, ?_, ?_, ?_, ?_, ?_, ?_⟩
  · exact (List.length_map _).trans h.entry.2
  · exact (List.length_map _).trans hwithin
  · exact (List.length_map _).trans hlen
  · exact (List.length_map _).trans h.block.2
  · exact (List.length_map _).trans hwithin'
  · exact List.forall_mem_map.mpr fun q _ => Int.natCast_nonneg _
  · exact List.forall_mem_map.mpr fun q _ => Int.natCast_nonneg _
  · exact List.forall_mem_map.mpr fun q hq => Int.ofNat_le.mpr (hin.nonempty q hq)
  · rw [result_fileBox h hc, result_dataSize h]
    exact Box.within_inArray hin
  · rw [result_memBox h hc, result_memSize h]
    exact Box.within_inArray hin'

/-- **A result reads** the elements that the two blocks share, each at its place in the one and in the other. -/
theorem result_reads (hes : 0 < req.info.esize.toNat) {x d : ℤ} : (p.result req c).Reads x d ↔
    ∃ y, y ∈ p.b.box.cells ∧ y ∈ p.msel.block.box.cells ∧ ∃ j < req.info.esize.toNat,
      x = dataPos p.ent p.msel + (req.info.esize.toNat * p.msel.block.box.cells.idxOf y + j : ℕ) ∧
        d = (req.xbuf + p.before + (req.info.esize.toNat * p.b.box.cells.idxOf y + j) : ℕ) := by
  obtain ⟨hin, hin'⟩ := shared_inside h hc
  have hplaced := result_placed h hc hes
  -- the elements, by their places in the two blocks
  have hfile : (p.result req c).counters.map (p.result req c).filePlace =
      c.cells.map p.msel.block.box.cells.idxOf := by
    have hcells := Intersec.fileBox_cells hplaced
    rw [result_fileBox h hc] at hcells
    rw [← Box.places_within hin, hcells, List.map_map]
    unfold Intersec.filePlace
    rw [result_dataSize h]
    rfl
  have hmem : (p.result req c).counters.map (p.result req c).memPlace = c.cells.map p.b.box.cells.idxOf := by
    have hcells := Intersec.memBox_cells hplaced
    rw [result_memBox h hc] at hcells
    rw [← Box.places_within hin', hcells, List.map_map]
    unfold Intersec.memPlace
    rw [result_memSize h]
    rfl
  have hboth : ((p.result req c).counters.map fun k =>
      ((p.result req c).filePlace k, (p.result req c).memPlace k)) =
        c.cells.map fun y => (p.msel.block.box.cells.idxOf y, p.b.box.cells.idxOf y) := by
    rw [← List.zip_map', ← List.zip_map', hfile, hmem]
  have hcells : ∀ y, y ∈ c.cells ↔ y ∈ p.b.box.cells ∧ y ∈ p.msel.block.box.cells := by
    intro y
    have hinter := Box.inter_cells (show p.msel.block.box.length = p.b.box.length by
      rw [Block.box_length h.entryLen, Block.box_length h.blockLen, h.sameLen])
    rw [show Box.inter p.msel.block.box p.b.box = some c from hc] at hinter
    rw [show c.cells = _ from hinter, List.mem_filter, decide_eq_true_iff]
  have hplaces : ∀ u v, (∃ k ∈ (p.result req c).counters, (p.result req c).filePlace k = u ∧
      (p.result req c).memPlace k = v) ↔
        ∃ y ∈ c.cells, p.msel.block.box.cells.idxOf y = u ∧ p.b.box.cells.idxOf y = v := by
    intro u v
    have hiff := iff_of_eq (congrArg (fun l => (u, v) ∈ l) hboth)
    simpa only [List.mem_map, Prod.mk.injEq] using hiff
  constructor
  · rintro ⟨k, hk, j, hj, rfl, rfl⟩
    obtain ⟨y, hy, hu, hv⟩ := (hplaces _ _).mp ⟨k, hk, rfl, rfl⟩
    refine ⟨y, ((hcells y).mp hy).1, ((hcells y).mp hy).2, j, hj, ?_, ?_⟩
    · rw [hu]
      rfl
    · rw [hv]
      show ((req.xbuf + p.before : ℕ) : ℤ) + _ = _
      rw [← Nat.cast_add]
      rfl
  · rintro ⟨y, hyb, hym, j, hj, rfl, rfl⟩
    obtain ⟨k, hk, hu, hv⟩ := (hplaces _ _).mpr ⟨y, (hcells y).mpr ⟨hyb, hym⟩, rfl, rfl⟩
    refine ⟨k, hk, j, hj, ?_, ?_⟩
    · rw [hu]
      rfl
    · rw [hv]
      show _ = ((req.xbuf + p.before : ℕ) : ℤ) + _
      rw [← Nat.cast_add]
      rfl

end Shared

end SelPair

/-! ## §3 — what a request reads. -/

/-- The results of a request. -/
def ReadReq.results (req : ReadReq) (ents : List MetaEntry) : List Intersec :=
  (req.pairs ents).filterMap fun p => p.shared.map (p.result req)

theorem mem_pairsFrom {esize before : ℕ} {ents : List MetaEntry} {bs : List Block} {p : SelPair}
    (h : p ∈ pairsFrom esize ents before bs) : p.b ∈ bs ∧ p.ent ∈ ents ∧ p.msel ∈ p.ent.sels := by
  induction bs generalizing before with
  | nil => exact absurd h List.not_mem_nil
  | cons b bs ih =>
    rcases List.mem_append.mp h with h | h
    · obtain ⟨e, he, h⟩ := List.mem_flatMap.mp h
      obtain ⟨s, hs, rfl⟩ := List.mem_map.mp h
      exact ⟨List.mem_cons_self .., he, hs⟩
    · obtain ⟨hb, hes⟩ := ih h
      exact ⟨List.mem_cons_of_mem b hb, hes⟩

/-- The elements of a request against the blocks of entries. -/
theorem pairsFrom_elems {esize : ℕ} {ents : List MetaEntry} {bs : List Block}
    (hrank : ∀ b ∈ bs, b.start.length = b.count.length) (k : ℕ) (y : List ℕ) (P : MetaEntry → MetaSel → ℕ → Prop) :
    (∃ p ∈ pairsFrom esize ents (esize * k) bs, y ∈ p.b.box.cells ∧
        P p.ent p.msel (p.before + esize * p.b.box.cells.idxOf y)) ↔
      ∃ n, (requestElems bs)[n]? = some y ∧ ∃ e ∈ ents, ∃ s ∈ e.sels, P e s (esize * (k + n)) := by
  induction bs generalizing k with
  | nil => simp [pairsFrom, requestElems]
  | cons b bs ih =>
    obtain ⟨hb, hrank⟩ := List.forall_mem_cons.mp hrank
    have hnext : esize * k + esize * b.elems = esize * (k + b.box.cells.length) := by
      rw [elems_eq hb, Nat.mul_add]
    have hrest := ih hrank (k + b.box.cells.length)
    rw [pairsFrom, hnext]
    have helems : requestElems (b :: bs) = b.box.cells ++ requestElems bs := rfl
    rw [helems]
    -- The first block has the first elements; behind them the count goes on from its number of cells.
    constructor
    · rintro ⟨p, hp, hy, hP⟩
      rcases List.mem_append.mp hp with hp | hp
      · obtain ⟨e, he, hp⟩ := List.mem_flatMap.mp hp
        obtain ⟨s, hs, rfl⟩ := List.mem_map.mp hp
        have hlt := List.idxOf_lt_length_of_mem hy
        refine ⟨b.box.cells.idxOf y, ?_, e, he, s, hs, ?_⟩
        · rw [List.getElem?_append_left hlt, List.getElem?_idxOf hy]
        · rw [Nat.mul_add]
          exact hP
      · obtain ⟨n, hn, e, he, s, hs, hP⟩ := hrest.mp ⟨p, hp, hy, hP⟩
        refine ⟨b.box.cells.length + n, ?_, e, he, s, hs, ?_⟩
        · rw [List.getElem?_append_right (Nat.le_add_right _ _), Nat.add_sub_cancel_left, hn]
        · rwa [← Nat.add_assoc]
    · rintro ⟨n, hn, e, he, s, hs, hP⟩
      rcases Nat.lt_or_ge n b.box.cells.length with hlt | hge
      · rw [List.getElem?_append_left hlt, List.getElem?_eq_getElem hlt, Option.some_inj] at hn
        have hidx : b.box.cells.idxOf y = n := by
          rw [← hn]
          exact b.box.cells_nodup.idxOf_getElem n hlt
        refine ⟨⟨esize * k, b, e, s⟩, ?_, ?_, ?_⟩
        · exact List.mem_append_left _ (List.mem_flatMap.mpr ⟨e, he, List.mem_map.mpr ⟨s, hs, rfl⟩⟩)
        · rw [← hn]
          exact List.getElem_mem hlt
        · rw [hidx, ← Nat.mul_add]
          exact hP
      · rw [List.getElem?_append_right hge] at hn
        have hsum : k + b.box.cells.length + (n - b.box.cells.length) = k + n := by omega
        obtain ⟨p, hp, hy, hP⟩ := hrest.mpr ⟨n - b.box.cells.length, hn, e, he, s, hs, by rwa [hsum]⟩
        exact ⟨p, List.mem_append_right _ hp, hy, hP⟩

/-- What a result of a request reads is of an element it has in common with a block of an entry. -/
theorem reads_elem {req : ReadReq} {ents : List MetaEntry} (hrank : ∀ p ∈ req.pairs ents, p.Ranked req)
    (hes : 0 < req.info.esize.toNat) {b : Intersec} (hb : b ∈ req.results ents) {x d : ℤ} (hx : b.Reads x d) :
    ∃ n y, (requestElems req.sels.sels)[n]? = some y ∧ ∃ e ∈ ents, ∃ s ∈ e.sels,
      b.pos = dataPos e s ∧ y ∈ s.block.box.cells ∧ ∃ j < req.info.esize.toNat,
        x = dataPos e s + (req.info.esize.toNat * s.block.box.cells.idxOf y + j : ℕ) ∧
          d = (req.xbuf + (req.info.esize.toNat * n + j) : ℕ) := by
  have hblocks : ∀ b ∈ req.sels.sels, b.start.length = b.count.length :=
    fun b hb => (req.sels.rank_eq b hb).1.trans (req.sels.rank_eq b hb).2.symm
  obtain ⟨p, hp, hres⟩ := List.mem_filterMap.mp hb
  obtain ⟨c, hc, rfl⟩ := Option.map_eq_some_iff.mp hres
  obtain ⟨y, hyb, hym, j, hj, hx, hd⟩ := (SelPair.result_reads (hrank p hp) hc hes).mp hx
  have helems := @pairsFrom_elems req.info.esize.toNat ents req.sels.sels hblocks 0 y fun e s t =>
    p.ent = e ∧ p.msel = s ∧ p.before + req.info.esize.toNat * p.b.box.cells.idxOf y = t
  simp only [Nat.mul_zero, Nat.zero_add] at helems
  obtain ⟨n, hn, e, he, s, hs, rfl, rfl, ht⟩ := helems.mp ⟨p, hp, hyb, rfl, rfl, rfl⟩
  refine ⟨n, y, hn, _, he, _, hs, rfl, hym, j, hj, hx, ?_⟩
  rw [hd]
  omega

/-- **A request reads** every element it has in common with a block of an entry, at its place in the one and in
the other. -/
theorem reads_of_elem {req : ReadReq} {ents : List MetaEntry} (hrank : ∀ p ∈ req.pairs ents, p.Ranked req)
    (hes : 0 < req.info.esize.toNat) {n : ℕ} {y : List ℕ} (hn : (requestElems req.sels.sels)[n]? = some y)
    {e : MetaEntry} (he : e ∈ ents) {s : MetaSel} (hs : s ∈ e.sels) (hy : y ∈ s.block.box.cells) {j : ℕ}
    (hj : j < req.info.esize.toNat) : ∃ b ∈ req.results ents, b.pos = dataPos e s ∧
      b.Reads (dataPos e s + (req.info.esize.toNat * s.block.box.cells.idxOf y + j : ℕ))
        (req.xbuf + (req.info.esize.toNat * n + j) : ℕ) := by
  have hblocks : ∀ b ∈ req.sels.sels, b.start.length = b.count.length :=
    fun b hb => (req.sels.rank_eq b hb).1.trans (req.sels.rank_eq b hb).2.symm
  have helems := @pairsFrom_elems req.info.esize.toNat ents req.sels.sels hblocks 0 y fun e' s' t =>
    e' = e ∧ s' = s ∧ t = req.info.esize.toNat * n
  simp only [Nat.mul_zero, Nat.zero_add] at helems
  obtain ⟨p, hp, hyb, rfl, rfl, ht⟩ := helems.mpr ⟨n, hn, e, he, s, hs, rfl, rfl, rfl⟩
  have hinter := Box.inter_cells (show p.msel.block.box.length = p.b.box.length by
    rw [Block.box_length (hrank p hp).entryLen, Block.box_length (hrank p hp).blockLen, (hrank p hp).sameLen])
  have hcell : y ∈ p.b.box.cells.filter (· ∈ p.msel.block.box.cells) := List.mem_filter.mpr ⟨hyb, by simpa using hy⟩
  rcases hc : p.shared with _ | c
  · rw [← hinter, show Box.inter p.msel.block.box p.b.box = none from hc] at hcell
    exact absurd hcell List.not_mem_nil
  · refine ⟨p.result req c, List.mem_filterMap.mpr ⟨p, hp, by rw [hc]; rfl⟩, rfl, ?_⟩
    refine (SelPair.result_reads (hrank p hp) hc hes).mpr ⟨y, hyb, hy, j, hj, rfl, ?_⟩
    rw [← ht]
    omega

/-! ## §4 — no byte is read twice. -/

section Log

variable {info : ℕ → DsetInfo} {writes : List (ℕ × MetaEntry)} (hlog : Log info writes)
include hlog

/-- The bytes of an element of a block. -/
theorem elem_lt {did : ℕ} {P : MetaEntry × MetaSel} (hP : P ∈ blocksOf (writtenTo writes did)) {y : List ℕ}
    (hy : y ∈ P.2.block.box.cells) {j : ℕ} (hj : j < (info did).esize.toNat) :
    (info did).esize.toNat * P.2.block.box.cells.idxOf y + j < (info did).esize.toNat * P.2.block.elems := by
  obtain ⟨he, hs⟩ := mem_blocksOf.mp hP
  have hrank := (hlog.stored _ (mem_writtenTo.mp he)).rank _ hs
  have hlt := List.idxOf_lt_length_of_mem hy
  rw [← elems_eq (show P.2.block.start.length = P.2.block.count.length from hrank.1.trans hrank.2.symm)] at hlt
  have hstep := Nat.mul_le_mul_left (info did).esize.toNat hlt
  rw [Nat.mul_succ] at hstep
  omega

/-- **A byte of the log** is of one element of one block. -/
theorem elem_unique {did did' : ℕ} {P P' : MetaEntry × MetaSel} (hP : P ∈ blocksOf (writtenTo writes did))
    (hP' : P' ∈ blocksOf (writtenTo writes did')) {y y' : List ℕ} (hy : y ∈ P.2.block.box.cells)
    (hy' : y' ∈ P'.2.block.box.cells) {j j' : ℕ} (hj : j < (info did).esize.toNat)
    (hj' : j' < (info did').esize.toNat)
    (heq : dataPos P.1 P.2 + ((info did).esize.toNat * P.2.block.box.cells.idxOf y + j : ℕ) =
      dataPos P'.1 P'.2 + ((info did').esize.toNat * P'.2.block.box.cells.idxOf y' + j' : ℕ)) :
    did = did' ∧ P = P' ∧ y = y' := by
  have hlt := elem_lt hlog hP hy hj
  have hlt' := elem_lt hlog hP' hy' hj'
  obtain ⟨he, hs⟩ := mem_blocksOf.mp hP
  obtain ⟨he', hs'⟩ := mem_blocksOf.mp hP'
  -- Entries of different datasets are apart in the log, and so are the blocks of one dataset.
  obtain rfl : did = did' := by
    by_contra hne
    have hin := stored_range (hlog.stored _ (mem_writtenTo.mp he)) hs
    have hin' := stored_range (hlog.stored _ (mem_writtenTo.mp he')) hs'
    dsimp only at hin hin'
    rcases entries_apart hlog hne he he' with hend | hend <;> omega
  obtain rfl : P = P' := by
    by_contra hne
    rcases blocks_apart hlog hP hP' hne with hend | hend
    · unfold DataBefore at hend
      omega
    · unfold DataBefore at hend
      omega
  refine ⟨rfl, rfl, ?_⟩
  have hsum : (info did).esize.toNat * P.2.block.box.cells.idxOf y + j =
      (info did).esize.toNat * P.2.block.box.cells.idxOf y' + j' := by omega
  -- Within a block, the quotient by the element size is the index of the cell.
  have hdiv := congrArg (· / (info did).esize.toNat) hsum
  have hes : 0 < (info did).esize.toNat := by omega
  simp only [Nat.mul_add_div hes, Nat.div_eq_of_lt hj, Nat.div_eq_of_lt hj', Nat.add_zero] at hdiv
  exact (List.idxOf_inj hy).mp hdiv

theorem blocks_pos {did : ℕ} {P : MetaEntry × MetaSel} (hP : P ∈ blocksOf (writtenTo writes did)) :
    0 ≤ dataPos P.1 P.2 ∧ ((P.1.hdr.foff + P.2.doff).toNat : ℤ) = dataPos P.1 P.2 := by
  obtain ⟨he, hs⟩ := mem_blocksOf.mp hP
  have hpos := (dataPos_eq (hlog.stored _ (mem_writtenTo.mp he)) hs).2
  exact ⟨hpos ▸ Int.natCast_nonneg _, hpos⟩

/-- The results of one request share no byte. -/
theorem results_apart {did : ℕ} {req : ReadReq} {ents : List MetaEntry} (hinfo : req.info = info did)
    (hperm : ents.Perm (writtenTo writes did)) (hrank : ∀ p ∈ req.pairs ents, p.Ranked req)
    (hes : 0 < req.info.esize.toNat) (hnodup : (requestElems req.sels.sels).Nodup) :
    (req.results ents).Pairwise Intersec.ApartFrom := by
  have hblock : ∀ {e : MetaEntry} {s : MetaSel}, e ∈ ents → s ∈ e.sels → (e, s) ∈ blocksOf (writtenTo writes did) :=
    fun he hs => mem_blocksOf.mpr ⟨hperm.mem_iff.mp he, hs⟩
  have hpairs : ∀ (bs : List Block) (before : ℕ), (requestElems bs).Nodup →
      (pairsFrom req.info.esize.toNat ents before bs).Pairwise fun p p' =>
        ∀ y, y ∈ p.b.box.cells → y ∈ p.msel.block.box.cells →
          ∀ y', y' ∈ p'.b.box.cells → y' ∈ p'.msel.block.box.cells →
          ∀ j < req.info.esize.toNat, ∀ j' < req.info.esize.toNat,
            dataPos p.ent p.msel + (req.info.esize.toNat * p.msel.block.box.cells.idxOf y + j : ℕ) ≠
              dataPos p'.ent p'.msel + (req.info.esize.toNat * p'.msel.block.box.cells.idxOf y' + j' : ℕ) := by
    intro bs
    induction bs with
    | nil => exact fun before _ => List.Pairwise.nil
    | cons b bs ih =>
      intro before hnodup
      have helems : requestElems (b :: bs) = b.box.cells ++ requestElems bs := rfl
      rw [helems, List.nodup_append] at hnodup
      have hthis : (ents.flatMap fun ent => ent.sels.map fun msel => (⟨before, b, ent, msel⟩ : SelPair)) =
          (blocksOf ents).map fun P => ⟨before, b, P.1, P.2⟩ := by
        rw [blocksOf, List.map_flatMap]
        simp only [List.map_map]
        rfl
      rw [pairsFrom, List.pairwise_append]
      refine ⟨?_, ih _ hnodup.2.1, ?_⟩
      · -- one block of the request, against two blocks of entries
        have hsymm : ∀ {P P' : MetaEntry × MetaSel}, DataApart (info did).esize.toNat P P' →
            DataApart (info did).esize.toNat P' P := Or.symm
        have hapart : (blocksOf ents).Pairwise (DataApart (info did).esize.toNat) :=
          ((hperm.flatMap_right _).pairwise_iff hsymm).mpr ((blocks_before hlog did).imp Or.inl)
        rw [hthis, List.pairwise_map]
        refine hapart.imp_of_mem ?_
        intro P P' hP hP' hPP y _ hy y' _ hy' j hj j' hj' heq
        obtain ⟨he, hs⟩ := mem_blocksOf.mp hP
        obtain ⟨he', hs'⟩ := mem_blocksOf.mp hP'
        rw [hinfo] at hj hj' heq
        have hlt := elem_lt hlog (hblock he hs) hy hj
        have hlt' := elem_lt hlog (hblock he' hs') hy' hj'
        dsimp only at hlt hlt' heq
        rcases hPP with hend | hend
        · unfold DataBefore at hend
          omega
        · unfold DataBefore at hend
          omega
      · -- two blocks of the request
        intro p hp p' hp' y hyb hy y' hyb' hy' j hj j' hj' heq
        rw [hthis] at hp
        obtain ⟨P, hP, rfl⟩ := List.mem_map.mp hp
        obtain ⟨he, hs⟩ := mem_blocksOf.mp hP
        obtain ⟨hb', he', hs'⟩ := mem_pairsFrom hp'
        rw [hinfo] at hj hj' heq
        obtain ⟨-, -, rfl⟩ := elem_unique hlog (hblock he hs) (hblock he' hs') hy hy' hj hj' heq
        exact hnodup.2.2 y hyb y (List.mem_flatMap.mpr ⟨p'.b, hb', hyb'⟩) rfl
  rw [ReadReq.results, List.pairwise_filterMap]
  refine (hpairs req.sels.sels 0 hnodup).imp_of_mem ?_
  rintro p p' hp hp' hpp b hb b' hb' x ⟨⟨d, hx⟩, d', hx'⟩
  obtain ⟨c, hc, rfl⟩ := Option.map_eq_some_iff.mp hb
  obtain ⟨c', hc', rfl⟩ := Option.map_eq_some_iff.mp hb'
  obtain ⟨y, hyb, hy, j, hj, hxy, -⟩ := (SelPair.result_reads (hrank p hp) hc hes).mp hx
  obtain ⟨y', hyb', hy', j', hj', hxy', -⟩ := (SelPair.result_reads (hrank p' hp') hc' hes).mp hx'
  exact hpp y hyb hy y' hyb' hy' j hj j' hj' (hxy.symm.trans hxy')

end Log

/-! ## §5 — a batch of requests. -/

/-- The elements of a queued request, one block after another. -/
def QueuedRead.elems (mem : UserMem) (q : QueuedRead) : List (List ℕ) := requestElems (q.sels.read mem).sels

/-- The range of memory that a request reads into. -/
def QueuedRead.buffer (mem : UserMem) (q : QueuedRead) : ℕ × ℕ :=
  (q.xbuf, q.info.esize.toNat * (q.elems mem).length)

/-- Requests for datasets without filters, each with a buffer of its own. -/
structure Queued (info : ℕ → DsetInfo) (mem : UserMem) (reqs : List QueuedRead) : Prop where
  info_eq : ∀ q ∈ reqs, q.info = info q.did.toNat
  unfiltered : ∀ q ∈ reqs, q.info.filters = []
  rank : ∀ q ∈ reqs, (q.sels.read mem).ndim = q.info.ndim
  esize_pos : ∀ q ∈ reqs, 0 < q.info.esize.toNat
  rsize : ∀ q ∈ reqs, q.req.rsize = (q.elems mem).length
  buffers : reqs.Pairwise fun q r => Lib.RangesDisjoint (q.buffer mem) (r.buffer mem)

/-- Requests for datasets without filters that have no element in common, each with a buffer of its own. -/
structure Batch (info : ℕ → DsetInfo) (mem : UserMem) (reqs : List QueuedRead) : Prop where
  info_eq : ∀ q ∈ reqs, q.info = info q.did.toNat
  unfiltered : ∀ q ∈ reqs, q.info.filters = []
  rank : ∀ q ∈ reqs, (q.sels.read mem).ndim = q.info.ndim
  esize_pos : ∀ q ∈ reqs, 0 < q.info.esize.toNat
  rsize : ∀ q ∈ reqs, q.req.rsize = (q.elems mem).length
  nodup : ∀ q ∈ reqs, (q.elems mem).Nodup
  disjoint : reqs.Pairwise fun q r => q.did = r.did → ∀ y ∈ q.elems mem, y ∉ r.elems mem
  buffers : reqs.Pairwise fun q r => Lib.RangesDisjoint (q.buffer mem) (r.buffer mem)

theorem Batch.queued {info : ℕ → DsetInfo} {mem : UserMem} {reqs : List QueuedRead} (h : Batch info mem reqs) :
    Queued info mem reqs :=
  ⟨h.info_eq, h.unfiltered, h.rank, h.esize_pos, h.rsize, h.buffers⟩

/-- The index has the entries of every dataset that is read, in whatever order. -/
def IndexHas (idx : ArrayIdx) (writes : List (ℕ × MetaEntry)) (reqs : List QueuedRead) : Prop :=
  ∀ q ∈ reqs, ∃ ents, idx[q.did.toNat]? = some ents ∧ ents.Perm (writtenTo writes q.did.toNat)

/-- The results of all requests, as the types are made of them. -/
def batchResults (idx : ArrayIdx) (mem : UserMem) (reqs : List QueuedRead) : List Intersec :=
  reqs.flatMap fun q => (q.wanted mem).results (idx[q.did.toNat]?.getD [])

/-- A byte of memory is one of one element of one request. -/
theorem batch_place {info : ℕ → DsetInfo} {mem : UserMem} {reqs : List QueuedRead} (hqueued : Queued info mem reqs)
    {q r : QueuedRead} (hq : q ∈ reqs) (hr : r ∈ reqs) {n m j k : ℕ} (hn : n < (q.elems mem).length)
    (hm : m < (r.elems mem).length) (hj : j < q.info.esize.toNat) (hk : k < r.info.esize.toNat)
    (heq : q.xbuf + (q.info.esize.toNat * n + j) = r.xbuf + (r.info.esize.toNat * m + k)) :
    q = r ∧ n = m ∧ j = k := by
  have hq' := Nat.mul_le_mul_left q.info.esize.toNat hn
  have hr' := Nat.mul_le_mul_left r.info.esize.toNat hm
  rw [Nat.mul_succ] at hq' hr'
  obtain rfl : q = r := by
    by_contra hne
    have hsymm : Std.Symm fun q r : QueuedRead => Lib.RangesDisjoint (q.buffer mem) (r.buffer mem) :=
      ⟨fun _ _ h => h.symm⟩
    have hdisj := hqueued.buffers.forall hq hr hne
    unfold Lib.RangesDisjoint QueuedRead.buffer at hdisj
    dsimp only at hdisj
    omega
  have hsum : q.info.esize.toNat * n + j = q.info.esize.toNat * m + k := by omega
  have hes := hqueued.esize_pos q hq
  have hdiv := congrArg (· / q.info.esize.toNat) hsum
  simp only [Nat.mul_add_div hes, Nat.div_eq_of_lt hj, Nat.div_eq_of_lt hk, Nat.add_zero] at hdiv
  subst hdiv
  exact ⟨rfl, rfl, by omega⟩

section Batch

variable {info : ℕ → DsetInfo} {writes : List (ℕ × MetaEntry)} {idx : ArrayIdx} {mem : UserMem}
  {reqs : List QueuedRead} (hlog : Log info writes) (hidx : IndexHas idx writes reqs)
  (hqueued : Queued info mem reqs)
include hlog hidx hqueued

/-- The entries that a request is searched for in, and the ranks. -/
theorem batch_pairs {q : QueuedRead} (hq : q ∈ reqs) :
    (idx[q.did.toNat]?.getD []).Perm (writtenTo writes q.did.toNat) ∧
      idx[q.did.toNat]? = some (idx[q.did.toNat]?.getD []) ∧
        ∀ p ∈ (q.wanted mem).pairs (idx[q.did.toNat]?.getD []), p.Ranked (q.wanted mem) := by
  obtain ⟨ents, hents, hperm⟩ := hidx q hq
  rw [hents, Option.getD_some]
  refine ⟨hperm, rfl, ?_⟩
  intro p hp
  obtain ⟨hb, he, hs⟩ := mem_pairsFrom hp
  have hrank := (hlog.stored _ (mem_writtenTo.mp (hperm.mem_iff.mp he))).rank _ hs
  have hblock := (q.sels.read mem).rank_eq p.b hb
  rw [hqueued.rank q hq] at hblock
  refine ⟨hblock, ?_⟩
  show _ = q.info.ndim ∧ _ = q.info.ndim
  rw [hqueued.info_eq q hq]
  exact hrank

theorem batch_ranked : ∀ q ∈ reqs, (q.wanted mem).Ranked idx := by
  intro q hq
  obtain ⟨-, hents, hpairs⟩ := batch_pairs hlog hidx hqueued hq
  exact ⟨_, hents, hpairs⟩

/-- What a result reads: an element of a request and of a block of an entry. -/
theorem batch_reads {b : Intersec} (hb : b ∈ batchResults idx mem reqs) {x d : ℤ} (hx : b.Reads x d) :
    ∃ q ∈ reqs, ∃ n y, (q.elems mem)[n]? = some y ∧ ∃ P ∈ blocksOf (writtenTo writes q.did.toNat),
      b.pos = dataPos P.1 P.2 ∧ y ∈ P.2.block.box.cells ∧ ∃ j < q.info.esize.toNat,
        x = dataPos P.1 P.2 + (q.info.esize.toNat * P.2.block.box.cells.idxOf y + j : ℕ) ∧
          d = (q.xbuf + (q.info.esize.toNat * n + j) : ℕ) := by
  obtain ⟨q, hq, hb⟩ := List.mem_flatMap.mp hb
  obtain ⟨hperm, -, hpairs⟩ := batch_pairs hlog hidx hqueued hq
  obtain ⟨n, y, hn, e, he, s, hs, hpos, hy, j, hj, hx, hd⟩ := reads_elem hpairs (hqueued.esize_pos q hq) hb hx
  exact ⟨q, hq, n, y, hn, (e, s), mem_blocksOf.mpr ⟨hperm.mem_iff.mp he, hs⟩, hpos, hy, j, hj, hx, hd⟩

/-- **What goes to one byte of memory** comes in the order of the blocks. -/
theorem batch_inBlockOrder : InBlockOrder (batchResults idx mem reqs) := by
  intro a ha b hb hle x y d hx hy
  obtain ⟨q, hq, n, u, hn, P, hP, hpos, hu, j, hj, rfl, hd⟩ := batch_reads hlog hidx hqueued ha hx
  obtain ⟨r, hr, m, v, hm, P', hP', hpos', hv, k, hk, rfl, hd'⟩ := batch_reads hlog hidx hqueued hb hy
  have hnlt := (List.getElem?_eq_some_iff.mp hn).1
  have hmlt := (List.getElem?_eq_some_iff.mp hm).1
  obtain ⟨rfl, rfl, rfl⟩ := batch_place hqueued hq hr hnlt hmlt hj hk (Int.ofNat_inj.mp (hd.symm.trans hd'))
  obtain rfl : u = v := Option.some.inj (hn.symm.trans hm)
  by_cases heq : P = P'
  · rw [heq]
  · rw [hqueued.info_eq q hq] at hj ⊢
    have hlt := elem_lt hlog hP hu hj
    have hlt' := elem_lt hlog hP' hv hj
    rcases blocks_apart hlog hP hP' heq with hend | hend
    · unfold DataBefore at hend
      omega
    · unfold DataBefore at hend
      omega

end Batch

/-- **No byte of the file** is read twice. -/
theorem batch_apart {info : ℕ → DsetInfo} {writes : List (ℕ × MetaEntry)} {idx : ArrayIdx} {mem : UserMem}
    {reqs : List QueuedRead} (hlog : Log info writes) (hidx : IndexHas idx writes reqs)
    (hbatch : Batch info mem reqs) : (batchResults idx mem reqs).Pairwise Intersec.ApartFrom := by
  rw [batchResults, List.pairwise_flatMap]
  constructor
  · intro q hq
    obtain ⟨hperm, -, hpairs⟩ := batch_pairs hlog hidx hbatch.queued hq
    exact results_apart hlog (hbatch.info_eq q hq) hperm hpairs (hbatch.esize_pos q hq) (hbatch.nodup q hq)
  · refine hbatch.disjoint.imp_of_mem ?_
    rintro q r hq hr hdisj a ha b hb x ⟨⟨d, hx⟩, d', hx'⟩
    obtain ⟨hperm, -, hpairs⟩ := batch_pairs hlog hidx hbatch.queued hq
    obtain ⟨hperm', -, hpairs'⟩ := batch_pairs hlog hidx hbatch.queued hr
    obtain ⟨n, u, hn, e, he, s, hs, -, hu, j, hj, hx, -⟩ := reads_elem hpairs (hbatch.esize_pos q hq) ha hx
    obtain ⟨m, v, hm, e', he', s', hs', -, hv, k, hk, hx', -⟩ := reads_elem hpairs' (hbatch.esize_pos r hr) hb hx'
    change j < q.info.esize.toNat at hj
    change k < r.info.esize.toNat at hk
    change x = dataPos e s + (q.info.esize.toNat * s.block.box.cells.idxOf u + j : ℕ) at hx
    change x = dataPos e' s' + (r.info.esize.toNat * s'.block.box.cells.idxOf v + k : ℕ) at hx'
    rw [hbatch.info_eq q hq] at hj hx
    rw [hbatch.info_eq r hr] at hk hx'
    have hP : (e, s) ∈ blocksOf (writtenTo writes q.did.toNat) := mem_blocksOf.mpr ⟨hperm.mem_iff.mp he, hs⟩
    have hP' : (e', s') ∈ blocksOf (writtenTo writes r.did.toNat) := mem_blocksOf.mpr ⟨hperm'.mem_iff.mp he', hs'⟩
    have heq := hx.symm.trans hx'
    obtain ⟨hdid, -, rfl⟩ := elem_unique hlog hP hP' hu hv hj hk heq
    exact hdisj (BitVec.eq_of_toNat_eq hdid) u (List.mem_of_getElem? hn) (List.mem_of_getElem? hm)

/-! ## §6 — the fill values. -/

theorem replicate_getD {v : List UInt8} {m n j : ℕ} (hn : n < m) (hj : j < v.length) :
    (List.replicate m v).flatten.getD (v.length * n + j) 0 = v.getD j 0 := by
  induction m generalizing n with
  | zero => exact absurd hn (Nat.not_lt_zero n)
  | succ m ih =>
    rw [List.replicate_succ, List.flatten_cons]
    cases n with
    | zero =>
      rw [Nat.mul_zero, Nat.zero_add]
      exact List.getD_append _ _ _ _ hj
    | succ n =>
      have hplace : v.length * (n + 1) + j = v.length + (v.length * n + j) := by
        rw [Nat.mul_succ]
        omega
      rw [hplace, List.getD_append_right _ _ _ _ (Nat.le_add_right _ _), Nat.add_sub_cancel_left]
      exact ih (Nat.lt_of_succ_lt_succ hn)

theorem fillBuffer_length (q : QueuedRead) : ∀ v ∈ q.info.fill,
    (List.replicate q.req.rsize v).flatten.length = q.info.esize.toNat * q.req.rsize := by
  intro v hv
  simp [q.info.fill_length v hv, Nat.mul_comm]

/-- What is in no buffer is not filled. -/
theorem fillBuffers_outside {reqs : List QueuedRead} {a : ℕ}
    (h : ∀ q ∈ reqs, a < q.xbuf ∨ q.xbuf + q.info.esize.toNat * q.req.rsize ≤ a) (buf : Store) :
    reqs.foldl fillBuffer buf a = buf a := by
  induction reqs generalizing buf with
  | nil => rfl
  | cons q reqs ih =>
    obtain ⟨hq, h⟩ := List.forall_mem_cons.mp h
    rw [List.foldl_cons, ih h, fillBuffer]
    cases hfill : q.info.fill with
    | some v =>
      apply Store.write_of_not_mem
      rwa [fillBuffer_length q v hfill]
    | none => rfl

/-- What a byte of an element has before anything is read: that of the fill value, if there is one. -/
def filled (q : QueuedRead) (buf : Store) (n j : ℕ) : UInt8 :=
  match q.info.fill with
  | some v => v.getD j 0
  | none => buf (q.xbuf + (q.info.esize.toNat * n + j))

/-- **The buffers are filled**: none is touched by what is filled into another. -/
theorem fillBuffers_elem {info : ℕ → DsetInfo} {mem : UserMem} {reqs : List QueuedRead}
    (hqueued : Queued info mem reqs) {q : QueuedRead} (hq : q ∈ reqs) {n j : ℕ} (hn : n < (q.elems mem).length)
    (hj : j < q.info.esize.toNat) (buf : Store) :
    reqs.foldl fillBuffer buf (q.xbuf + (q.info.esize.toNat * n + j)) = filled q buf n j := by
  have hroom := Nat.mul_le_mul_left q.info.esize.toNat hn
  rw [Nat.mul_succ] at hroom
  have hrsize := hqueued.rsize
  have hbuffers := hqueued.buffers
  obtain ⟨front, rear, rfl⟩ := List.append_of_mem hq
  rw [List.pairwise_append, List.pairwise_cons] at hbuffers
  obtain ⟨-, ⟨hrear, -⟩, hfront⟩ := hbuffers
  -- the buffers of the requests before and after
  have houtside : ∀ r ∈ front ++ q :: rear, Lib.RangesDisjoint (q.buffer mem) (r.buffer mem) →
      q.xbuf + (q.info.esize.toNat * n + j) < r.xbuf ∨
        r.xbuf + r.info.esize.toNat * r.req.rsize ≤ q.xbuf + (q.info.esize.toNat * n + j) := by
    intro r hr hdisj
    rw [hrsize r hr]
    unfold Lib.RangesDisjoint QueuedRead.buffer at hdisj
    dsimp only at hdisj
    omega
  rw [List.foldl_append, List.foldl_cons, fillBuffers_outside]
  · rw [fillBuffer, filled]
    cases hfill : q.info.fill with
    | some v =>
      have hlen := fillBuffer_length q v hfill
      have hv : v.length = q.info.esize.toNat := q.info.fill_length v hfill
      have hsize := hrsize q hq
      dsimp only
      rw [Store.write_of_mem (Nat.le_add_right _ _) (by rw [hlen, hsize]; omega), Nat.add_sub_cancel_left, ← hv]
      exact replicate_getD (by rwa [hsize]) (by rwa [hv])
    | none =>
      dsimp only
      rw [fillBuffers_outside]
      intro r hr
      exact houtside r (List.mem_append_left _ hr) (hfront r hr q (List.mem_cons_self ..)).symm
  · intro r hr
    exact houtside r (List.mem_append_right _ (List.mem_cons_of_mem q hr)) (hrear r hr)

/-! ## §7 — what a flush reads. -/

theorem allocZbufs_unfiltered {place : MpiOffset → ℕ} {seen : List MpiOffset} {rs : List SearchRet}
    (h : ∀ r ∈ rs, r.info.filters = []) : allocZbufs place seen rs = rs.map fun r => ⟨r, none⟩ := by
  induction rs with
  | nil => rfl
  | cons r rs ih =>
    obtain ⟨hr, h⟩ := List.forall_mem_cons.mp h
    rw [allocZbufs, if_pos hr, ih h, List.map_cons]

theorem exactSel_results (req : ReadReq) (ents : List MetaEntry) :
    (((req.pairs ents).filterMap (SelPair.exactSel req)).map fun r => (⟨r, none⟩ : Intersec)) =
      req.results ents := by
  rw [List.map_filterMap, ReadReq.results]
  congr 1
  funext p
  exact Option.map_map ..

section Flush

variable {info : ℕ → DsetInfo} {writes : List (ℕ × MetaEntry)} {idx : ArrayIdx} {mem : UserMem}
  {reqs : List QueuedRead} (hlog : Log info writes) (hidx : IndexHas idx writes reqs)
  (hqueued : Queued info mem reqs)
include hlog hidx hqueued

/-- The results of the search, where the numbers fit. -/
theorem batch_search {rest : ReadRest} (hfit : ReadFits rest idx (reqs.map (·.wanted mem))) :
    ∃ found, (reqs.mapM fun q => idx.search (q.wanted mem)) = .ok found ∧
      allocZbufs rest.place [] found.flatten = batchResults idx mem reqs ∧
        TypesFit rest.std (batchResults idx mem reqs) := by
  let sels : QueuedRead → List SearchRet := fun q =>
    ((q.wanted mem).pairs (idx[q.did.toNat]?.getD [])).filterMap (SelPair.exactSel (q.wanted mem))
  have hranked := batch_ranked hlog hidx hqueued
  have hexact : ∀ q ∈ reqs, exactSearch idx (q.wanted mem) = .ok (sels q) := by
    intro q hq
    obtain ⟨-, hents, -⟩ := batch_pairs hlog hidx hqueued hq
    rw [exactSearch]
    rw [show idx[(q.wanted mem).did.toNat]? = some (idx[q.did.toNat]?.getD []) from hents]
  -- Where the extents fit, a search in `int`s finds what an exact one finds.
  have hsearch : ∀ q ∈ reqs, idx.search (q.wanted mem) = exactSearch idx (q.wanted mem) :=
    fun q hq => (search_exact_iff (hranked q hq)).mpr (hfit.search _ (List.mem_map_of_mem hq))
  have hall : (reqs.mapM fun q => exactSearch idx (q.wanted mem)) = .ok (reqs.map sels) := by
    refine (@Lib.mapM_eq_ok_map_iff _ _ _ _ sels (fun _ => True) _ reqs ?_).mpr ⟨fun _ _ => trivial, rfl⟩
    intro q hq rs
    rw [hexact q hq, Except.ok.injEq, true_and]
    exact eq_comm
  have hresults : allocZbufs rest.place [] (reqs.map sels).flatten = batchResults idx mem reqs := by
    -- Nothing is filtered, so no buffer is allocated for what was found.
    rw [allocZbufs_unfiltered, List.map_flatten, List.map_map, batchResults, List.flatMap]
    · congr 1
      exact List.map_congr_left fun q _ => exactSel_results _ _
    · intro r hr
      obtain ⟨rs, hrs, hr⟩ := List.mem_flatten.mp hr
      obtain ⟨q, hq, rfl⟩ := List.mem_map.mp hrs
      obtain ⟨p, -, hp⟩ := List.mem_filterMap.mp hr
      obtain ⟨c, -, rfl⟩ := Option.map_eq_some_iff.mp hp
      exact hqueued.unfiltered q hq
  refine ⟨reqs.map sels, ?_, hresults, ?_⟩
  · rw [Lib.mapM_congr hsearch, hall]
  · rw [← hresults]
    refine hfit.types _ ?_
    rw [List.mapM_map]
    exact hall

theorem batch_placed : ∀ b ∈ batchResults idx mem reqs, b.Placed ∧ b.zbuf = none := by
  intro b hb
  obtain ⟨q, hq, hb⟩ := List.mem_flatMap.mp hb
  obtain ⟨-, -, hpairs⟩ := batch_pairs hlog hidx hqueued hq
  obtain ⟨p, hp, hres⟩ := List.mem_filterMap.mp hb
  obtain ⟨c, hc, rfl⟩ := Option.map_eq_some_iff.mp hres
  exact ⟨SelPair.result_placed (hpairs p hp) hc (hqueued.esize_pos q hq), rfl⟩

section Runs

variable {runs : List Move}
  (hreads : ∀ x d, (∃ m ∈ runs, m.Carries x d) → ∃ b ∈ batchResults idx mem reqs, b.Reads x d)
include hreads

theorem batch_places : ∀ m ∈ runs, 0 < m.len → 0 ≤ m.src ∧ 0 ≤ m.dst := by
  intro m hm hlen
  have hstart : m.Carries m.src m.dst := by
    unfold Move.Carries Move.Takes Move.stop
    omega
  obtain ⟨b, hb, hx⟩ := hreads _ _ ⟨m, hm, hstart⟩
  obtain ⟨_, _, _, _, _, P, hP, _, _, _, _, hx, hd⟩ := batch_reads hlog hidx hqueued hb hx
  have hP := (blocks_pos hlog hP).1
  omega

variable {q : QueuedRead} (hq : q ∈ reqs) {n : ℕ} {y : List ℕ} (hn : (q.elems mem)[n]? = some y) {j : ℕ}
  (hj : j < q.info.esize.toNat)
include hq hn hj

/-- What goes to a byte of an element is of this element, in one of the blocks that cover it. -/
theorem batch_source {x : ℤ} (hx : ∃ m ∈ runs, m.Carries x (q.xbuf + (q.info.esize.toNat * n + j) : ℕ)) :
    ∃ P ∈ blocksOf (writtenTo writes q.did.toNat), y ∈ P.2.block.box.cells ∧
      x = dataPos P.1 P.2 + (q.info.esize.toNat * P.2.block.box.cells.idxOf y + j : ℕ) := by
  obtain ⟨b, hb, hx⟩ := hreads _ _ hx
  obtain ⟨r, hr, m, v, hm, P, hP, -, hv, k, hk, rfl, hd⟩ := batch_reads hlog hidx hqueued hb hx
  have hnlt := (List.getElem?_eq_some_iff.mp hn).1
  have hmlt := (List.getElem?_eq_some_iff.mp hm).1
  obtain ⟨rfl, rfl, rfl⟩ := batch_place hqueued hq hr hnlt hmlt hj hk (Int.ofNat_inj.mp hd)
  obtain rfl : y = v := Option.some.inj (hn.symm.trans hm)
  exact ⟨P, hP, hv, rfl⟩

/-- An element that nothing covers is left as it was. -/
theorem batch_untouched (hnew : newest (writtenTo writes q.did.toNat) y = none) (file buf : Store) :
    readRuns runs file buf (q.xbuf + (q.info.esize.toNat * n + j)) =
      buf (q.xbuf + (q.info.esize.toNat * n + j)) := by
  refine readRuns_none (batch_places hlog hidx hqueued hreads) file buf ?_
  intro x hx
  obtain ⟨P, hP, hy, -⟩ := batch_source hlog hidx hqueued hreads hq hn hj hx
  exact newest_none hnew P hP hy

/-- **What is read of the block that was written last** stays. -/
theorem batch_last (hlast : LastWins runs) {p : MetaEntry × MetaSel}
    (hnew : newest (writtenTo writes q.did.toNat) y = some p)
    (hread : ∃ m ∈ runs, m.Carries (dataPos p.1 p.2 + (q.info.esize.toNat * p.2.block.box.cells.idxOf y + j : ℕ))
      (q.xbuf + (q.info.esize.toNat * n + j) : ℕ)) (file buf : Store) :
    readRuns runs file buf (q.xbuf + (q.info.esize.toNat * n + j)) =
      file (storedAt q.info.esize.toNat p y + j) := by
  obtain ⟨hp, hy, hlater⟩ := newest_last hlog hnew
  have hstored : ((storedAt q.info.esize.toNat p y + j : ℕ) : ℤ) =
      dataPos p.1 p.2 + (q.info.esize.toNat * p.2.block.box.cells.idxOf y + j : ℕ) := by
    rw [storedAt, Nat.add_assoc, Nat.cast_add, (blocks_pos hlog hp).2]
  refine readRuns_last (batch_places hlog hidx hqueued hreads) file buf hlast ?_ ?_
  · rw [hstored]
    exact hread
  · intro x hx
    obtain ⟨P, hP, hyP, hx⟩ := batch_source hlog hidx hqueued hreads hq hn hj hx
    rcases hlater P hP hyP with rfl | hbefore
    · exact Int.ofNat_le.mp (by rw [hx, hstored])
    · rw [hqueued.info_eq q hq] at hj hx hstored
      have hlt := elem_lt hlog hP hyP hj
      unfold DataBefore at hbefore
      rw [hqueued.info_eq q hq]
      omega

end Runs

/-- An element is read of every block that covers it. -/
theorem batch_read {q : QueuedRead} (hq : q ∈ reqs) {n : ℕ} {y : List ℕ} (hn : (q.elems mem)[n]? = some y) {j : ℕ}
    (hj : j < q.info.esize.toNat) {P : MetaEntry × MetaSel} (hP : P ∈ blocksOf (writtenTo writes q.did.toNat))
    (hy : y ∈ P.2.block.box.cells) : ∃ b ∈ batchResults idx mem reqs, b.pos = dataPos P.1 P.2 ∧
      b.Reads (dataPos P.1 P.2 + (q.info.esize.toNat * P.2.block.box.cells.idxOf y + j : ℕ))
        (q.xbuf + (q.info.esize.toNat * n + j) : ℕ) := by
  obtain ⟨hperm, -, hpairs⟩ := batch_pairs hlog hidx hqueued hq
  obtain ⟨he, hs⟩ := mem_blocksOf.mp hP
  obtain ⟨b, hb, hpos, hx⟩ := reads_of_elem hpairs (hqueued.esize_pos q hq) hn (hperm.mem_iff.mpr he) hs hy hj
  exact ⟨b, List.mem_flatMap.mpr ⟨q, hq, hb⟩, hpos, hx⟩

/-- **Every element of a buffer** after the read. -/
theorem batch_elem {runs : List Move} (hlast : LastWins runs)
    (hcarries : ∀ x d, (∃ m ∈ runs, m.Carries x d) ↔ ∃ b ∈ batchResults idx mem reqs, b.Reads x d) {q : QueuedRead}
    (hq : q ∈ reqs) {n : ℕ} {y : List ℕ} (hn : (q.elems mem)[n]? = some y) {j : ℕ} (hj : j < q.info.esize.toNat)
    (file buf : Store) : readRuns runs file buf (q.xbuf + (q.info.esize.toNat * n + j)) =
      match newest (writtenTo writes q.did.toNat) y with
      | some p => file (storedAt q.info.esize.toNat p y + j)
      | none => buf (q.xbuf + (q.info.esize.toNat * n + j)) := by
  have hreads : ∀ x d, (∃ m ∈ runs, m.Carries x d) → ∃ b ∈ batchResults idx mem reqs, b.Reads x d :=
    fun x d => (hcarries x d).mp
  rcases hnew : newest (writtenTo writes q.did.toNat) y with _ | p
  · exact batch_untouched hlog hidx hqueued hreads hq hn hj hnew file buf
  · obtain ⟨hp, hy, -⟩ := newest_last hlog hnew
    refine batch_last hlog hidx hqueued hreads hq hn hj hlast hnew ?_ file buf
    obtain ⟨b, hb, -, hx⟩ := batch_read hlog hidx hqueued hq hn hj hp hy
    exact (hcarries _ _).mpr ⟨b, hb, hx⟩

end Flush

/-- **A read without filters returns what was written last**, and the fill value where nothing was written. The
entries may overlap and the index may have them in any order; the data of each is in the file behind that of the
entries written before it. What is left to do is to convert and to deliver what the buffers have. -/
theorem read_newest {rest : ReadRest}
    (hunfilter : ∀ blocks buf, (∀ b ∈ blocks, b.zbuf = none) → rest.unfilter blocks buf = buf) {info : ℕ → DsetInfo}
    {writes : List (ℕ × MetaEntry)} (hlog : Log info writes) {idx : ArrayIdx} {reqs : List QueuedRead}
    (hidx : IndexHas idx writes reqs) {mem : UserMem} (hbatch : Batch info mem reqs)
    (hfit : ReadFits rest idx (reqs.map (·.wanted mem))) (file buf : Store) :
    ∃ buf', flushQueuedReads rest idx file mem reqs buf = .ok (reqs.foldl (finishReq rest) buf') ∧
      ∀ q ∈ reqs, ∀ n y, (q.elems mem)[n]? = some y → ∀ j < q.info.esize.toNat,
        buf' (q.xbuf + (q.info.esize.toNat * n + j)) =
          match newest (writtenTo writes q.did.toNat) y with
          | some p => file (storedAt q.info.esize.toNat p y + j)
          | none => filled q buf n j := by
  obtain ⟨found, hfound, hblocks, htypes⟩ := batch_search hlog hidx hbatch.queued hfit
  have hplaced := batch_placed hlog hidx hbatch.queued
  obtain ⟨runs, hruns, hlast, hcarries⟩ := readiGenRtypes_carries hplaced htypes (batch_apart hlog hidx hbatch)
    (batch_inBlockOrder hlog hidx hbatch.queued)
  refine ⟨readRuns runs file (reqs.foldl fillBuffer buf), ?_, ?_⟩
  · rw [flushQueuedReads, performRead, hfound, Lib.ok_bind]
    simp only [hblocks, hruns, Lib.ok_bind, copyOverlaps, List.foldl_nil]
    rw [hunfilter _ _ fun b hb => (hplaced b hb).2]
    rfl
  · intro q hq n y hn j hj
    rw [batch_elem hlog hidx hbatch.queued hlast hcarries hq hn hj]
    cases newest (writtenTo writes q.did.toNat) y with
    | some p => rfl
    | none => exact fillBuffers_elem hbatch.queued hq (List.getElem?_eq_some_iff.mp hn).1 hj buf

/-- The second of the two bytes, written later. -/
def lateByte : MetaEntry where
  hdr := ⟨0, 0, 0, 102, 1⟩
  sels := [⟨[1], [1], 0⟩]
  dsize := 1

def lateByteFound : SearchRet := ⟨twoBytesDset, [1], [0], [2], [1], [1], 1, 0, 1000, 102, 1⟩

theorem lateByte_found (mem : UserMem) :
    exactSearch [[lateByte, twoBytes]] (twoBytesRead.wanted mem) = .ok [lateByteFound, twoBytesFound] := rfl

theorem lateByte_groups : splitGroups (stableSort.sort [⟨lateByteFound, none⟩, ⟨twoBytesFound, none⟩]) =
    [[⟨twoBytesFound, none⟩], [⟨lateByteFound, none⟩]] := rfl

theorem lateByte_fits (mem : UserMem) :
    ReadFits sampleRest [[lateByte, twoBytes]] ([twoBytesRead].map (·.wanted mem)) := by
  refine ⟨?_, ?_⟩
  · intro q hq ents hents p hp
    obtain rfl := List.mem_singleton.mp hq
    obtain rfl := Option.some.inj hents
    have hwhole : Block.FitsInt ⟨[0], [2]⟩ := by simp
    have hlate : Block.FitsInt ⟨[1], [1]⟩ := by simp
    have hp : p = ⟨0, ⟨[0], [2]⟩, lateByte, ⟨[1], [1], 0⟩⟩ ∨ p = ⟨0, ⟨[0], [2]⟩, twoBytes, ⟨[0], [2], 0⟩⟩ := by
      simpa [ReadReq.pairs, pairsFrom, twoBytesRead, QueuedRead.wanted, SelRef.read, twoBytesSels, lateByte,
        twoBytes] using hp
    rcases hp with rfl | rfl
    · exact fun _ => ⟨hlate, hwhole, Nat.two_pow_pos 64⟩
    · exact fun _ => ⟨hwhole, hwhole, Nat.two_pow_pos 64⟩
  · intro found hfound
    rw [List.map_singleton, List.mapM_cons, lateByte_found] at hfound
    obtain rfl := Except.ok.inj hfound
    have hone : Intersec.exactLen ⟨lateByteFound, none⟩ < 2 ^ 31 := by decide
    refine ⟨?_, by decide⟩
    intro g hg
    have hg : g ∈ splitGroups (stableSort.sort [⟨lateByteFound, none⟩, ⟨twoBytesFound, none⟩]) := hg
    rw [lateByte_groups] at hg
    rcases List.mem_cons.mp hg with rfl | hg
    · exact twoBytesFound_fits
    · obtain rfl := List.mem_singleton.mp hg
      exact hone

/-- Two bytes, and the second of them again. -/
def lateWrites : List (ℕ × MetaEntry) := [(0, twoBytes), (0, lateByte)]

theorem twoBytes_stored : Stored twoBytesDset twoBytes := ⟨by decide, rfl, by decide, by decide, by decide⟩

theorem lateByte_stored : Stored twoBytesDset lateByte := ⟨by decide, rfl, by decide, by decide, by decide⟩

theorem lateWrites_log : Log (fun _ => twoBytesDset) lateWrites :=
  ⟨List.forall_mem_cons.mpr ⟨twoBytes_stored, List.forall_mem_singleton.mpr lateByte_stored⟩, by decide⟩

theorem lateWrites_index : IndexHas [[lateByte, twoBytes]] lateWrites [twoBytesRead] :=
  List.forall_mem_singleton.mpr ⟨_, rfl, List.Perm.swap ..⟩

theorem twoBytesRead_batch (mem : UserMem) : Batch (fun _ => twoBytesDset) mem [twoBytesRead] := by
  refine ⟨?_, ?_, ?_, ?_, ?_, ?_, List.pairwise_singleton .., List.pairwise_singleton ..⟩ <;>
    refine List.forall_mem_singleton.mpr ?_
  · rfl
  · rfl
  · rfl
  · exact Nat.one_pos
  · rfl
  · have hnodup : [[0], [1]].Nodup := by decide
    exact hnodup

theorem read_newest_late : ∃ buf', flushQueuedReads sampleRest [[lateByte, twoBytes]] (fun a => UInt8.ofNat a)
    (fun _ => 0) [twoBytesRead] (fun _ => 0) = .ok (finishReq sampleRest buf' twoBytesRead) ∧
      buf' 1000 = 100 ∧ buf' 1001 = 102 := by
  obtain ⟨buf', hflush, helem⟩ := @read_newest sampleRest (fun _ _ _ => rfl) _ _ lateWrites_log _ _
    lateWrites_index _ (twoBytesRead_batch _) (lateByte_fits _) (fun a => UInt8.ofNat a) fun _ => 0
  refine ⟨buf', hflush, ?_, ?_⟩
  · exact helem twoBytesRead (List.mem_singleton_self _) 0 [0] rfl 0 Nat.one_pos
  · exact helem twoBytesRead (List.mem_singleton_self _) 1 [1] rfl 0 Nat.one_pos

/-! ## §6 — rows of 2^31 bytes. -/

/-- A group of several results whose rows are all of a negative length is refused. -/
theorem readiGenRtypes_negative {std : BlockSort} {blocks g : List Intersec}
    (hg : g ∈ splitGroups (std.sort blocks)) (hmany : 2 ≤ g.length) (hwhole : ∀ b ∈ g, b.Whole)
    (hrow : ∀ b ∈ g, b.info.ndim ≠ 0 ∧ cInt b.exactRowLen < 0) (p : List Move × List CopyCtx) :
    readiGenRtypes std blocks ≠ .ok p := by
  intro hok
  rcases g with _ | ⟨a, _ | ⟨b, g⟩⟩
  · exact absurd hmany (by decide)
  · exact absurd hmany (by simp)
  rcases Lib.bind_eq_ok.mp hok with ⟨parts, hparts, hrest⟩
  rcases Lib.forall₂_mem_left (Lib.mapM_eq_ok_iff.mp hparts) hg with ⟨part, hmem, hpart⟩
  have hrows : ∀ c ∈ a :: b :: g, ∃ ms, c.rows = .ok ms ∧ ms ≠ [] ∧ ∀ m ∈ ms, m.len < 0 := by
    intro c hc
    rcases Intersec.rows_eq_cons (hwhole c hc) (hrow c hc).1 with ⟨m, ms, hms, hlen⟩
    refine ⟨m :: ms, hms, List.cons_ne_nil m ms, fun l hl => ?_⟩
    rw [hlen l hl]
    exact (hrow c hc).2
  rcases Lib.exists_mapM_ok hrows with ⟨rows, hrows, hneg⟩
  rw [genGroup_many, hrows] at hpart
  obtain rfl := Except.ok.inj hpart
  -- the first row is not trimmed
  have hfirst : ∃ m ∈ trimRows (sortoffsets rows.flatten), m.len < 0 := by
    have hperm := (sortoffsets_spec rows.flatten).1
    rcases hsort : sortoffsets rows.flatten with _ | ⟨k, ks⟩
    · rw [hsort] at hperm
      cases hneg with
      | cons hone =>
        rename_i ms _ _
        rw [List.nil_perm, List.flatten_cons, List.append_eq_nil_iff] at hperm
        exact absurd hperm.1 hone.1
    · refine ⟨k, by simp [trimRows], ?_⟩
      have hk : k ∈ rows.flatten := hperm.mem_iff.mp (by simp [hsort])
      rcases List.mem_flatten.mp hk with ⟨ms, hms, hkms⟩
      rcases Lib.forall₂_mem_left hneg.flip hms with ⟨c, -, hone⟩
      exact hone.2 k hkms
  rcases hfirst with ⟨m, hm, hlt⟩
  have hbad : ¬ ∀ m ∈ parts.flatMap Prod.fst, 0 ≤ m.len := by
    intro hall
    exact absurd (hall m (List.mem_flatMap.mpr ⟨_, hmem, hm⟩)) (not_le.mpr hlt)
  rw [if_neg hbad] at hrest
  cases hrest

theorem wideDset_rank : [2, 1073741824].length ≤ maxRank := by decide

theorem wideDset_mdims : [2, 1073741824].length = [2, 1073741824].length := rfl

theorem wideDset_dsteps : [1073741824, 1].length = [2, 1073741824].length := rfl

/-- Two rows of 2^30 elements of 8 bytes. -/
def wideDset : DsetInfo :=
  DsetInfo.plain 8 [2, 1073741824] [2, 1073741824] [1073741824, 1] wideDset_rank wideDset_mdims wideDset_dsteps

/-- All of it, written at once. -/
def wideEntry : MetaEntry where
  hdr := ⟨0, 0, 0, 100, 17179869184⟩
  sels := [⟨[0, 0], [2, 1073741824], 0⟩]
  dsize := 17179869184

/-- The `2^28` columns from `col` on. -/
def wideBlock (col : HSize) : Block := ⟨[0, col], [2, 268435456]⟩

theorem wideBlock_rank (col : HSize) :
    ∀ b ∈ [wideBlock col], b.start.length = 2 ∧ b.count.length = 2 :=
  List.forall_mem_singleton.mpr ⟨rfl, rfl⟩

theorem wideBlock_length (col : HSize) : [wideBlock col].length < 2 ^ 31 := by
  rw [List.length_singleton]
  decide

def wideSels (col : HSize) : Selections := ⟨2, [wideBlock col], wideBlock_rank col, wideBlock_length col⟩

/-- A read of them, into memory at `xbuf`. -/
def wideRead (col : HSize) (xbuf : ℕ) : QueuedRead :=
  ⟨0, wideDset, .own (wideSels col), ⟨536870912, 8, none, none, none⟩, xbuf, xbuf⟩

/-- What is found of it. -/
def wideFound (col : HSize) (xbuf : ℕ) : SearchRet :=
  ⟨wideDset, [2, 1073741824], [0, col.toNat], [2, 268435456], [0, 0], [2, 268435456], 17179869184, 0, xbuf, 100,
    17179869184⟩

/-- The columns next to each other. -/
def wideReads : List QueuedRead := [wideRead 0 0, wideRead 268435456 4294967296]

theorem wideEntry_log : Log (fun _ => wideDset) [(0, wideEntry)] := by
  refine ⟨List.forall_mem_singleton.mpr ?_, List.pairwise_singleton ..⟩
  exact ⟨by decide, rfl, by decide, by decide, by decide⟩

theorem wideEntry_index : IndexHas [[wideEntry]] [(0, wideEntry)] wideReads := by
  intro q hq
  have hdid : q.did = 0 := by
    rcases List.mem_pair.mp hq with rfl | rfl <;> rfl
  rw [hdid]
  exact ⟨[wideEntry], rfl, List.Perm.refl _⟩

theorem wideRead_elems (col : HSize) (xbuf : ℕ) (mem : UserMem) :
    (wideRead col xbuf).elems mem = Box.cells [(0, 2), (col.toNat, 268435456)] := by
  show requestElems [wideBlock col] = _
  simp [requestElems, wideBlock, Block.box]

theorem wideRead_length (col : HSize) (xbuf : ℕ) (mem : UserMem) :
    ((wideRead col xbuf).elems mem).length = 536870912 := by
  rw [wideRead_elems, Box.cells_length]
  simp

theorem wideReads_batch (mem : UserMem) : Batch (fun _ => wideDset) mem wideReads := by
  have hall : ∀ {P : QueuedRead → Prop}, (∀ col xbuf, P (wideRead col xbuf)) → ∀ q ∈ wideReads, P q := by
    intro P h q hq
    rcases List.mem_pair.mp hq with rfl | rfl
    · exact h _ _
    · exact h _ _
  refine ⟨hall fun _ _ => rfl, hall fun _ _ => rfl, hall fun _ _ => rfl, hall fun _ _ => ?_, hall fun _ _ => ?_,
    hall fun _ _ => ?_, List.pairwise_pair.mpr ?_, List.pairwise_pair.mpr ?_⟩
  · exact Nat.succ_pos 7
  · rw [wideRead_length]
    rfl
  · rw [wideRead_elems]
    exact Box.cells_nodup _
  · intro _ y hy hy'
    rw [wideRead_elems] at hy hy'
    have hy := Box.mem_cells.mp hy
    have hy' := Box.mem_cells.mp hy'
    cases hy with
    | cons _ hy =>
      cases hy' with
      | cons _ hy' =>
        simp only [List.forall₂_cons_right_iff] at hy hy'
        rcases hy with ⟨j, _, hj, -, rfl⟩
        rcases hy' with ⟨k, _, hk, -, heq⟩
        rw [List.cons.injEq] at heq
        simp at hj hk
        omega
  · refine Or.inl ?_
    rw [QueuedRead.buffer, wideRead_length]
    simp [QueuedRead.buffer, wideRead, wideDset, DsetInfo.plain]

theorem wideReads_extents (mem : UserMem) :
    ∀ q ∈ wideReads.map (·.wanted mem), ∀ ents, [[wideEntry]][q.did.toNat]? = some ents →
      ∀ p ∈ q.pairs ents, p.Fits := by
  have hone : ∀ col : HSize, col.toNat < 1073741824 → ∀ xbuf, ∀ ents,
      [[wideEntry]][((wideRead col xbuf).wanted mem).did.toNat]? = some ents →
        ∀ p ∈ ((wideRead col xbuf).wanted mem).pairs ents, p.Fits := by
    intro col hcol xbuf ents hents p hp
    obtain rfl := Option.some.inj hents
    obtain rfl := List.mem_singleton.mp hp
    have hwhole : Block.FitsInt ⟨[0, 0], [2, 1073741824]⟩ := by simp
    have hpart : Block.FitsInt (wideBlock col) := by
      simp [wideBlock]
      omega
    exact fun _ => ⟨hwhole, hpart, Nat.two_pow_pos 64⟩
  intro q hq
  rcases List.mem_pair.mp hq with rfl | rfl
  · exact hone 0 (by decide) _
  · exact hone 268435456 (by decide) _

theorem wide_intersect (col : HSize) (hcol : col = 0 ∨ col = 268435456) :
    intersect [0, 0] [2, 1073741824] [0, col] [2, 268435456] = some ([0, col], [2, 268435456]) := by
  rcases hcol with rfl | rfl <;> decide

theorem wideRead_found {col : HSize} (hcol : col = 0 ∨ col = 268435456) (xbuf : ℕ) (mem : UserMem) :
    ArrayIdx.search [[wideEntry]] ((wideRead col xbuf).wanted mem) = .ok [wideFound col xbuf] := by
  have hcords : cordInt 2#64 = 2 ∧ cordInt 1073741824#64 = 1073741824 ∧ cordInt 268435456#64 = 268435456 ∧
      cordInt 0#64 = 0 := by decide
  have hcol' : cordInt col = col.toNat := by rcases hcol with rfl | rfl <;> decide
  have hsel : searchSel ((wideRead col xbuf).wanted mem) (wideBlock col) xbuf wideEntry
      ⟨[0, 0], [2, 1073741824], 0⟩ = some (wideFound col xbuf) := by
    rw [searchSel, wideBlock, wide_intersect col hcol, Option.map_some]
    simp [hcords, hcol', wideFound, wideEntry, QueuedRead.wanted, wideRead]
  have hblocks : searchBlocks ((wideRead col xbuf).wanted mem) [wideEntry] 0 [wideBlock col] =
      [wideFound col xbuf] := by
    have hbuf : ((wideRead col xbuf).wanted mem).xbuf + (0 : HSize).toNat = xbuf := Nat.add_zero xbuf
    have hsels : wideEntry.sels = [⟨[0, 0], [2, 1073741824], 0⟩] := rfl
    rw [searchBlocks, searchBlocks, hbuf, List.flatMap_singleton, hsels, List.filterMap_cons, hsel]
    simp
  exact congrArg Except.ok hblocks

theorem wideReads_ranked (mem : UserMem) : ∀ q ∈ wideReads.map (·.wanted mem), q.Ranked [[wideEntry]] := by
  intro q hq
  rcases List.mem_pair.mp hq with rfl | rfl
  · refine ⟨[wideEntry], rfl, fun p hp => ?_⟩
    obtain rfl := List.mem_singleton.mp hp
    exact ⟨⟨rfl, rfl⟩, ⟨rfl, rfl⟩⟩
  · refine ⟨[wideEntry], rfl, fun p hp => ?_⟩
    obtain rfl := List.mem_singleton.mp hp
    exact ⟨⟨rfl, rfl⟩, ⟨rfl, rfl⟩⟩

/-- **Both reads together have rows of 2^31 bytes**, whatever else is given: MPI refuses their length. -/
theorem wideReads_refused (rest : ReadRest) (file : Store) (mem : UserMem) (buf buf' : Store) :
    flushQueuedReads rest [[wideEntry]] file mem wideReads buf ≠ .ok buf' := by
  intro hok
  have hfound : (wideReads.mapM fun q => ArrayIdx.search [[wideEntry]] (q.wanted mem)) =
      .ok [[wideFound 0 0], [wideFound 268435456 4294967296]] := by
    rw [wideReads, List.mapM_cons, wideRead_found (Or.inl rfl), Lib.ok_bind, List.mapM_cons,
      wideRead_found (Or.inr rfl)]
    rfl
  have hexact : (wideReads.map (·.wanted mem)).mapM (exactSearch [[wideEntry]]) =
      .ok [[wideFound 0 0], [wideFound 268435456 4294967296]] := by
    rw [← hfound, List.mapM_map]
    refine Lib.mapM_congr fun q hq => ?_
    have hq := List.mem_map_of_mem (f := (·.wanted mem)) hq
    exact ((search_exact_iff (wideReads_ranked mem _ hq)).mpr (wideReads_extents mem _ hq)).symm
  have hwhole := found_whole (wideReads_ranked mem) (wideReads_extents mem) hexact rest.place
  have hblocks : allocZbufs rest.place [] [[wideFound 0 0], [wideFound 268435456 4294967296]].flatten =
      [⟨wideFound 0 0, none⟩, ⟨wideFound 268435456 4294967296, none⟩] := rfl
  -- The two are not tied, so there is only one sorted order, and they touch, so they are one group.
  have hgroups : splitGroups (rest.std.sort [⟨wideFound 0 0, none⟩, ⟨wideFound 268435456 4294967296, none⟩]) =
      [[⟨wideFound 0 0, none⟩, ⟨wideFound 268435456 4294967296, none⟩]] := by
    rw [eq_of_sorted (rest.std.perm _) (by decide) (rest.std.sorted _)]
    rfl
  have hrow : cInt (268435456 * 8) < 0 := by decide
  rw [hblocks] at hwhole
  rw [flushQueuedReads, performRead, hfound, Lib.ok_bind] at hok
  simp only [hblocks] at hok
  rcases Lib.bind_eq_ok.mp hok with ⟨p, hp, -⟩
  refine readiGenRtypes_negative (hgroups ▸ List.mem_singleton_self _) le_rfl hwhole ?_ p hp
  intro b hb
  rcases List.mem_pair.mp hb with rfl | rfl
  · exact ⟨two_ne_zero, hrow⟩
  · exact ⟨two_ne_zero, hrow⟩

/-- With extents that fit an `int`, a read is refused. -/
theorem not_read_newest_wide : ¬ ∀ (rest : ReadRest) (info : ℕ → DsetInfo) (writes : List (ℕ × MetaEntry))
    (idx : ArrayIdx) (mem : UserMem) (reqs : List QueuedRead) (file buf : Store),
    (∀ blocks buf, (∀ b ∈ blocks, b.zbuf = none) → rest.unfilter blocks buf = buf) → Log info writes →
      IndexHas idx writes reqs → Batch info mem reqs →
      (∀ q ∈ reqs.map (·.wanted mem), ∀ ents, idx[q.did.toNat]? = some ents → ∀ p ∈ q.pairs ents, p.Fits) →
        ∃ buf', flushQueuedReads rest idx file mem reqs buf = .ok buf' := by
  intro hall
  rcases hall sampleRest (fun _ => wideDset) [(0, wideEntry)] [[wideEntry]] (fun _ => 0) wideReads (fun _ => 0)
    (fun _ => 0) (fun _ _ _ => rfl) wideEntry_log wideEntry_index (wideReads_batch _) (wideReads_extents _) with
    ⟨buf', hflush⟩
  exact wideReads_refused _ _ _ _ _ hflush

end LogVol
