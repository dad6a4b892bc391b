/-
# LogVol.ReadView — whether a file type is a file view.

A view must have its bytes in the order of the file. The results of different data blocks come in this order,
and so do the rows of a group. Two groups of one data block do when the group before is through before the next
begins: the code compares by the result it takes for the last of a group, and as its `operator>` asks twice
whether one end is greater, and never whether it is less, it may take another (`view_legal_iff`).
-/
import LogVol.ReadGroups

namespace LogVol

open Lib (Box Move InOrder)

/-- Results without dimensions are of different data blocks. -/
def ScalarsOnce (bs : List Intersec) : Prop := bs.Pairwise fun a b => a.info.ndim = 0 → ¬ a.SameBlock b

/-- `a` is of the data block of `b`, and not through where `b` begins. -/
def Intersec.Reaches (a b : Intersec) : Prop :=
  a.SameBlock b ∧ Intersec.interleve a.dstart a.count b.dstart = true

/-- A result that one of those before it reaches is reached by one that none between the two exceeds. -/
def LastFound (pre : List Intersec) (b : Intersec) : Prop :=
  (∃ a ∈ pre, a.Reaches b) → ∃ pre₁ r pre₂, pre = pre₁ ++ r :: pre₂ ∧ r.Reaches b ∧ ∀ c ∈ pre₂, c.after r = false

/-- **The last elements are found**: so it is wherever a result begins. -/
def EndsTracked (l : List Intersec) : Prop := ∀ pre b post, l = pre ++ b :: post → LastFound pre b

/-- The sizes that are given to MPI fit an `int`: those of the elements, and of the rows of results of which the one
reaches the other. -/
structure SizesFit (bs : List Intersec) : Prop where
  elems : ∀ b ∈ bs, b.info.esize.toNat < 2 ^ 31
  rows : bs.Pairwise fun a b => a.Reaches b → b.Reaches a → a.exactRowLen < 2 ^ 31 ∧ b.exactRowLen < 2 ^ 31

/-- **A legal view**: types are made, and the bytes of the file type come in the order of the file. -/
def LegalView (std : BlockSort) (bs : List Intersec) : Prop :=
  ∃ runs copies, readiGenRtypes std bs = .ok (runs, copies) ∧ InOrder runs

/-! ## §1 — the bytes of a result. -/

namespace Intersec

variable {b : Intersec}

/-- The first byte that is read, and the byte behind the last. -/
def firstByte (b : Intersec) : ℤ := b.pos + (b.info.esize.toNat * Lib.cellOffset b.dataSize b.fileBox.start : ℕ)

def lastByte (b : Intersec) : ℤ :=
  b.pos + (b.info.esize.toNat * (Lib.cellOffset b.dataSize b.fileBox.last + 1) : ℕ)

theorem fileBox_nonempty (h : b.Placed) : b.fileBox.Nonempty := by
  intro p hp
  obtain ⟨n, hn, heq⟩ := List.mem_map.mp (List.of_mem_zip hp).2
  have hpos := h.count_pos n hn
  omega

/-- A byte is read when it is one of a cell. -/
theorem reads_iff_cell (h : b.Placed) {x : ℤ} : (∃ d, b.Reads x d) ↔ ∃ y ∈ b.fileBox.cells, ∃ j < b.info.esize.toNat,
    x = b.pos + (b.info.esize.toNat * Lib.cellOffset b.dataSize y + j : ℕ) := by
  rw [fileBox_cells h]
  simp only [List.mem_map, exists_exists_and_eq_and]
  constructor
  · rintro ⟨d, c, hc, j, hj, hx, -⟩
    exact ⟨c, hc, j, hj, hx⟩
  · rintro ⟨c, hc, j, hj, hx⟩
    exact ⟨_, c, hc, j, hj, hx, rfl⟩

theorem reads_first (h : b.Placed) : ∃ d, b.Reads b.firstByte d :=
  (reads_iff_cell h).mpr ⟨_, Box.start_mem (fileBox_nonempty h), 0, h.esize_pos, rfl⟩

theorem reads_last (h : b.Placed) : ∃ d, b.Reads (b.lastByte - 1) d := by
  have hes := h.esize_pos
  refine (reads_iff_cell h).mpr ⟨_, Box.last_mem (fileBox_nonempty h), b.info.esize.toNat - 1, by omega, ?_⟩
  unfold lastByte
  rw [Nat.mul_succ]
  omega

theorem reads_between (h : b.Placed) {x d : ℤ} (hx : b.Reads x d) : b.firstByte ≤ x ∧ x < b.lastByte := by
  obtain ⟨y, hy, j, hj, rfl⟩ := (reads_iff_cell h).mp ⟨d, hx⟩
  have hcell := h.inData.cell hy
  have hstart := h.inData.cell (Box.start_mem (fileBox_nonempty h))
  have hlast := h.inData.cell (Box.last_mem (fileBox_nonempty h))
  have hlo : Lib.cellOffset b.dataSize b.fileBox.start ≤ Lib.cellOffset b.dataSize y := by
    have hle := Box.start_le hy
    rw [← not_lt] at hle ⊢
    exact fun hlt => hle ((Lib.cellOffset_lt_iff hcell hstart).mp hlt)
  have hhi : Lib.cellOffset b.dataSize y ≤ Lib.cellOffset b.dataSize b.fileBox.last := by
    have hle := Box.le_last hy
    rw [← not_lt] at hle ⊢
    exact fun hlt => hle ((Lib.cellOffset_lt_iff hlast hcell).mp hlt)
  have hlo' := Nat.mul_le_mul_left b.info.esize.toNat hlo
  have hhi' := Nat.mul_le_mul_left b.info.esize.toNat hhi
  unfold firstByte lastByte
  rw [Nat.mul_succ]
  constructor
  · omega
  · omega

theorem reads_in_block (h : b.Placed) : b.pos ≤ b.firstByte ∧ b.lastByte ≤ b.blockEnd := by
  have hlast := Lib.cellOffset_lt (h.inData.cell (Box.last_mem (fileBox_nonempty h)))
  have hmul : b.info.esize.toNat * (Lib.cellOffset b.dataSize b.fileBox.last + 1) ≤
      b.info.esize.toNat * b.dataSize.prod := Nat.mul_le_mul_left _ hlast
  unfold firstByte lastByte blockEnd
  constructor
  · omega
  · omega

/-- The ends in all dimensions, as the code has them. -/
theorem interleve_false_iff {sa ca sb : List ℤ} (hlen : sa.length = ca.length) (hlen' : sb.length = sa.length)
    (hs : ∀ x ∈ sa, 0 ≤ x) (hc : ∀ n ∈ ca, 1 ≤ n) (ht : ∀ x ∈ sb, 0 ≤ x) :
    interleve sa ca sb = false ↔
      Box.last ((sa.map Int.toNat).zip (ca.map Int.toNat)) < sb.map Int.toNat := by
  induction sa generalizing ca sb with
  | nil =>
    obtain rfl := List.length_eq_zero_iff.mp hlen'
    simp [interleve, Box.last]
  | cons s sa ih =>
    obtain ⟨c, ca, rfl⟩ := List.exists_cons_of_length_eq_add_one hlen.symm
    obtain ⟨t, sb, rfl⟩ := List.exists_cons_of_length_eq_add_one hlen'
    obtain ⟨hs, hsa⟩ := List.forall_mem_cons.mp hs
    obtain ⟨hc, hca⟩ := List.forall_mem_cons.mp hc
    obtain ⟨ht, hsb⟩ := List.forall_mem_cons.mp ht
    have hrest := ih (Nat.succ.inj hlen) (Nat.succ.inj hlen') hsa hca hsb
    have hcons : Box.last (((s :: sa).map Int.toNat).zip ((c :: ca).map Int.toNat)) =
        (s.toNat + c.toNat - 1) :: Box.last ((sa.map Int.toNat).zip (ca.map Int.toNat)) := rfl
    rw [hcons, List.map_cons, List.cons_lt_cons_iff, ← hrest, interleve]
    split
    · rename_i hlt
      have hlt' : s.toNat + c.toNat - 1 < t.toNat := by omega
      simp [hlt']
    · split
      · rename_i hgt
        have hgt' : ¬ s.toNat + c.toNat - 1 < t.toNat := by omega
        have hne : s.toNat + c.toNat - 1 ≠ t.toNat := by omega
        simp [hgt', hne]
      · have heq : s.toNat + c.toNat - 1 = t.toNat := by omega
        simp [heq]

/-- **Of two results of a data block**, the one is through before the other begins. -/
theorem lastByte_le_iff {a b : Intersec} (ha : a.Placed) (hb : b.Placed) (h : a.SameBlock b) :
    a.lastByte ≤ b.firstByte ↔ interleve a.dstart a.count b.dstart = false := by
  have hbstart : b.fileBox.start = b.dstart.map Int.toNat :=
    List.map_fst_zip (by rw [List.length_map, List.length_map, hb.dstart_length, hb.count_length])
  have hlen : b.dstart.length = a.dstart.length := by rw [hb.dstart_length, ha.dstart_length, h.info]
  have hsize : a.dataSize = b.dataSize := by rw [dataSize, dataSize, h.dsize]
  have hlast := ha.inData.cell (Box.last_mem (fileBox_nonempty ha))
  have hstart := hb.inData.cell (Box.start_mem (fileBox_nonempty hb))
  rw [← hsize] at hstart
  rw [interleve_false_iff (ha.dstart_length.trans ha.count_length.symm) hlen ha.dstart_nonneg ha.count_pos
    hb.dstart_nonneg, ← hbstart]
  show _ ↔ a.fileBox.last < b.fileBox.start
  rw [← Lib.cellOffset_lt_iff hlast hstart]
  unfold lastByte firstByte
  rw [h.pos, ← h.info, ← hsize, add_le_add_iff_left, Nat.cast_le, Nat.mul_le_mul_left_iff ha.esize_pos]
  exact Nat.succ_le_iff

end Intersec

/-! ## §2 — scalars. -/

theorem interleve_nil (ca sb : List ℤ) : Intersec.interleve [] ca sb = true := by
  unfold Intersec.interleve
  rfl

/-- A new group of results without dimensions is of another data block. -/
theorem splitFrom_scalars {all bs : List Intersec} (h : FromBlocks all) {j i : Intersec} {group : List Intersec}
    (hone : OneBlock group) (hj : j ∈ group) (hgroup : ∀ a ∈ group, a ∈ all) (hbs : ∀ b ∈ bs, b ∈ all)
    (hi : i ∈ group) (hsorted : SortedBlocks (group ++ bs)) :
    (splitFrom j i group bs).Pairwise fun g g' => ∀ a ∈ g, ∀ b ∈ g', a.info.ndim = 0 → ¬ a.SameBlock b := by
  induction bs generalizing j i group with
  | nil => exact List.pairwise_singleton _ _
  | cons b bs ih =>
    obtain ⟨hb, hbs⟩ := List.forall_mem_cons.mp hbs
    rw [splitFrom]
    split
    · rename_i hjoins
      refine ih (hone.concat hj (joins_same hjoins)) ?_ ?_ hbs (List.mem_append_right _ (List.mem_singleton_self b)) ?_
      · split
        · exact List.mem_append_right _ (List.mem_singleton_self b)
        · exact List.mem_append_left _ hj
      · exact List.forall_mem_append.mpr ⟨hgroup, List.forall_mem_singleton.mpr hb⟩
      · rwa [List.append_assoc, List.singleton_append]
    · rename_i hbegins
      obtain ⟨-, hrest, hcross⟩ := List.pairwise_append.mp hsorted
      refine List.pairwise_cons.mpr ⟨?_, ?_⟩
      · intro g' hg' a ha c hc hnd hsame
        -- everything between `a` and `c` is of their data block, so that `b` is, and joins
        have hcmem : c ∈ b :: bs := by
          have hflat := splitFrom_flatten b b [b] bs
          rw [List.singleton_append] at hflat
          rw [← hflat]
          exact List.mem_flatten.mpr ⟨g', hg', hc⟩
        have hab := hcross a ha b (List.mem_cons_self ..)
        have hbc : b.pos ≤ c.pos := by
          rcases List.mem_cons.mp hcmem with rfl | hcbs
          · exact le_rfl
          · exact (List.pairwise_cons.mp hrest).1 c hcbs
        have hpos := hsame.pos
        have hblock := h.sameBlock (hgroup a ha) hb (by omega)
        have hjpos : j.pos = a.pos := by
          rw [Intersec.pos, Intersec.pos, (hone.same j hj a ha).1, (hone.same j hj a ha).2]
        have hjblock := h.sameBlock (hgroup j hj) (hgroup a ha) hjpos
        have hjnil : j.dstart = [] := by
          have hlen := (h.placed j (hgroup j hj)).dstart_length
          rw [hjblock.info, hnd] at hlen
          exact List.length_eq_zero_iff.mp hlen
        apply hbegins
        unfold Intersec.joins
        rw [h.unfiltered i (hgroup i hi), (hone.same j hj a ha).1, (hone.same j hj a ha).2, hblock.foff, hblock.doff,
          hjnil, interleve_nil]
        simp
      · refine ih (OneBlock.singleton b) (List.mem_singleton_self b) ?_ hbs (List.mem_singleton_self b) hrest
        exact List.forall_mem_singleton.mpr hb

theorem splitGroups_scalars {bs : List Intersec} (h : FromBlocks bs) (hsorted : SortedBlocks bs) :
    (splitGroups bs).Pairwise fun g g' => ∀ a ∈ g, ∀ b ∈ g', a.info.ndim = 0 → ¬ a.SameBlock b := by
  cases bs with
  | nil => exact List.Pairwise.nil
  | cons b bs =>
    refine splitFrom_scalars h (OneBlock.singleton b) (List.mem_singleton_self b) ?_
      (fun c hc => List.mem_cons_of_mem b hc) (List.mem_singleton_self b) hsorted
    exact List.forall_mem_singleton.mpr (List.mem_cons_self ..)

/-! ## §3 — the result that counts as the last. -/

namespace Intersec

/-- The ends, in the order of the first elements. -/
theorem interleve_eq_false_iff {sa ca sb : List ℤ} (hlen : sa.length = ca.length) (hlen' : sb.length = sa.length) :
    interleve sa ca sb = false ↔ List.zipWith (fun s c => s + c - 1) sa ca < sb := by
  induction sa generalizing ca sb with
  | nil =>
    obtain rfl := List.length_eq_zero_iff.mp hlen'
    simp [interleve]
  | cons s sa ih =>
    rcases List.exists_cons_of_length_eq_add_one hlen.symm with ⟨c, ca, rfl⟩
    rcases List.exists_cons_of_length_eq_add_one hlen' with ⟨t, sb, rfl⟩
    rw [interleve, List.zipWith_cons_cons, List.cons_lt_cons_iff, ← ih (Nat.succ.inj hlen) (Nat.succ.inj hlen')]
    split
    · rename_i hlt
      simp [hlt]
    · split
      · rename_i hge hgt
        simp [hge, ne_of_gt hgt]
      · rename_i hge hgt
        have heq : s + c - 1 = t := by omega
        simp [heq]

theorem interleve_of_le {sa ca sb sc : List ℤ} (hlen : sa.length = ca.length) (hb : sb.length = sa.length)
    (hc : sc.length = sa.length) (hle : sb ≤ sc) (h : interleve sa ca sc = true) : interleve sa ca sb = true := by
  rw [← Bool.not_eq_false, interleve_eq_false_iff hlen hc] at h
  rw [← Bool.not_eq_false, interleve_eq_false_iff hlen hb]
  exact fun hlt => h (lt_of_lt_of_le hlt hle)

theorem interleve_self {sa ca : List ℤ} (hc : ∀ n ∈ ca, 1 ≤ n) : interleve sa ca sa = true := by
  induction sa generalizing ca with
  | nil => unfold interleve; rfl
  | cons s sa ih =>
    rcases ca with _ | ⟨c, ca⟩
    · rfl
    · rcases List.forall_mem_cons.mp hc with ⟨hc, hca⟩
      rw [interleve, if_neg (by omega)]
      split
      · rfl
      · exact ih hca

/-- A result that does not exceed another is through no later. -/
theorem interleve_of_not_after {sr cr sj cj sb : List ℤ} (hlen : sj.length = sr.length) (hlen' : cj.length = cr.length)
    (hafter : endsAfter (List.zipWith (· + ·) sr cr) (List.zipWith (· + ·) sj cj) = false)
    (h : interleve sr cr sb = true) : interleve sj cj sb = true := by
  induction sr generalizing cr sj cj sb with
  | nil =>
    obtain rfl := List.length_eq_zero_iff.mp hlen
    unfold interleve
    rfl
  | cons s sr ih =>
    rcases List.exists_cons_of_length_eq_add_one hlen with ⟨s', sj, rfl⟩
    rcases cr with _ | ⟨c, cr⟩
    · obtain rfl := List.length_eq_zero_iff.mp hlen'
      rfl
    · rcases List.exists_cons_of_length_eq_add_one hlen' with ⟨c', cj, rfl⟩
      rcases sb with _ | ⟨t, sb⟩
      · rfl
      · simp only [List.zipWith_cons_cons, endsAfter] at hafter
        split at hafter
        · cases hafter
        · rw [interleve] at h ⊢
          split at h
          · cases h
          · rename_i hge
            rw [if_neg (by omega)]
            split
            · rfl
            · rename_i hge'
              rw [if_neg (by omega)] at h
              exact ih (Nat.succ.inj hlen) (Nat.succ.inj hlen') hafter h

theorem endsAfter_self (xs : List ℤ) : endsAfter xs xs = false := by
  induction xs with
  | nil => rfl
  | cons x xs ih => simp [endsAfter, ih]

/-- What exceeds a result exceeds all that do not exceed it. -/
theorem endsAfter_of_not_after {xr xj xb : List ℤ} (hlen : xj.length = xr.length) (hafter : endsAfter xr xj = false)
    (h : endsAfter xb xj = true) : endsAfter xb xr = true := by
  induction xr generalizing xj xb with
  | nil =>
    obtain rfl := List.length_eq_zero_iff.mp hlen
    cases xb <;> cases h
  | cons r xr ih =>
    rcases List.exists_cons_of_length_eq_add_one hlen with ⟨j, xj, rfl⟩
    rcases xb with _ | ⟨b, xb⟩
    · cases h
    · rw [endsAfter] at hafter h ⊢
      split at hafter
      · cases hafter
      · split at h
        · rw [if_pos (by omega)]
        · split
          · rfl
          · exact ih (Nat.succ.inj hlen) hafter h

variable {a b c r j : Intersec}

theorem not_reaches_iff : ¬ a.Reaches b ↔ (a.SameBlock b → interleve a.dstart a.count b.dstart = false) := by
  rw [Reaches, not_and, Bool.not_eq_true]

theorem after_self (b : Intersec) : b.after b = false := endsAfter_self _

theorem zip_length (ha : a.Placed) (hb : b.Placed) (hsame : a.SameBlock b) :
    (List.zipWith (· + ·) a.dstart a.count).length = (List.zipWith (· + ·) b.dstart b.count).length := by
  simp only [List.length_zipWith, ha.dstart_length, ha.count_length, hb.dstart_length, hb.count_length, hsame.info]

theorem after_of_not_after (hr : r.Placed) (hj : j.Placed) (hsame : r.SameBlock j) (hafter : r.after j = false)
    (h : b.after j = true) : b.after r = true :=
  endsAfter_of_not_after (zip_length hr hj hsame).symm hafter h

theorem SameBlock.trans (h : a.SameBlock b) (h' : b.SameBlock c) : a.SameBlock c :=
  ⟨h.foff.trans h'.foff, h.doff.trans h'.doff, h.info.trans h'.info, h.dsize.trans h'.dsize⟩

theorem Reaches.of_not_after (hr : r.Placed) (hj : j.Placed) (hsame : r.SameBlock j) (hafter : r.after j = false)
    (h : r.Reaches b) : j.Reaches b := by
  refine ⟨hsame.symm.trans h.1, interleve_of_not_after ?_ ?_ hafter h.2⟩
  · rw [hr.dstart_length, hj.dstart_length, hsame.info]
  · rw [hr.count_length, hj.count_length, hsame.info]

/-- What reaches a result reaches those between. -/
theorem Reaches.of_le (ha : a.Placed) (hb : b.Placed) (hc : c.Placed) (hsame : a.SameBlock b)
    (hle : b.dstart ≤ c.dstart) (h : a.Reaches c) : a.Reaches b := by
  refine ⟨hsame, interleve_of_le ?_ ?_ ?_ hle h.2⟩
  · rw [ha.dstart_length, ha.count_length]
  · rw [ha.dstart_length, hb.dstart_length, hsame.info]
  · rw [ha.dstart_length, hc.dstart_length, h.1.info]

/-- And so does a result those of its data block that begin before it. -/
theorem Reaches.back (ha : a.Placed) (hb : b.Placed) (hsame : a.SameBlock b) (hle : a.dstart ≤ b.dstart) :
    b.Reaches a := by
  refine Reaches.of_le hb ha hb hsame.symm hle ⟨⟨rfl, rfl, rfl, rfl⟩, ?_⟩
  exact interleve_self hb.count_pos

theorem joins_of_reaches {i : Intersec} (hi : i.zbuf = none) (h : j.Reaches b) : j.joins i b = true := by
  rw [joins, hi, h.1.foff, h.1.doff, h.2]
  simp

end Intersec

/-- Of two results of one data block, the first in the order begins first. -/
theorem dstart_le_of_before {a b : Intersec} (h : b.before a = false) (hpos : a.pos = b.pos) : a.dstart ≤ b.dstart := by
  rcases Prod.Lex.toLex_le_toLex.mp (before_eq_false_iff.mp h) with hlt | ⟨-, hle⟩
  · exact absurd hpos (ne_of_lt hlt)
  · exact hle

/-- The result that counts as the last of a group: none behind it exceeds it, and it is exceeded by none that none
behind exceeds. -/
structure CountsAsLast (group : List Intersec) (j : Intersec) : Prop where
  stays : ∃ g₁ g₂, group = g₁ ++ j :: g₂ ∧ ∀ c ∈ g₂, c.after j = false
  best : ∀ g₁ r g₂, group = g₁ ++ r :: g₂ → (∀ c ∈ g₂, c.after r = false) → r.after j = false

theorem CountsAsLast.singleton (b : Intersec) : CountsAsLast [b] b where
  stays := ⟨[], [], rfl, List.forall_mem_nil _⟩
  best := by
    intro g₁ r g₂ heq _
    obtain rfl : r = b := List.mem_singleton.mp (heq ▸ List.mem_append_right g₁ (List.mem_cons_self ..))
    exact r.after_self

theorem CountsAsLast.mem {group : List Intersec} {j : Intersec} (h : CountsAsLast group j) : j ∈ group := by
  rcases h.stays with ⟨g₁, g₂, rfl, -⟩
  exact List.mem_append_right g₁ (List.mem_cons_self ..)

/-- Results in the order of the sort. -/
structure Lined (all l : List Intersec) : Prop where
  mem : ∀ a ∈ l, a ∈ all
  sorted : l.Pairwise fun a b => b.before a = false

section Groups

variable {all : List Intersec} (h : FromBlocks all)
include h

theorem sameBlock_of_oneBlock {g : List Intersec} (hone : OneBlock g) (hmem : ∀ a ∈ g, a ∈ all) {a b : Intersec}
    (ha : a ∈ g) (hb : b ∈ g) : a.SameBlock b := by
  refine h.sameBlock (hmem a ha) (hmem b hb) ?_
  rw [Intersec.pos, Intersec.pos, (hone.same a ha b hb).1, (hone.same a ha b hb).2]

theorem CountsAsLast.concat {group : List Intersec} {j b : Intersec} (hlast : CountsAsLast group j)
    (hone : OneBlock (group ++ [b])) (hmem : ∀ a ∈ group ++ [b], a ∈ all) :
    CountsAsLast (group ++ [b]) (if b.after j then b else j) where
  stays := by
    split
    · exact ⟨group, [], rfl, List.forall_mem_nil _⟩
    · rename_i hafter
      rcases hlast.stays with ⟨g₁, g₂, rfl, hg₂⟩
      refine ⟨g₁, g₂ ++ [b], by simp, List.forall_mem_append.mpr ⟨hg₂, List.forall_mem_singleton.mpr ?_⟩⟩
      exact Bool.eq_false_iff.mpr hafter
  best := by
    intro g₁ r g₂ heq hnone
    rcases List.eq_nil_or_concat' g₂ with rfl | ⟨g₂, c, rfl⟩
    · -- `r` is the result that comes in
      obtain ⟨-, rfl⟩ := List.append_singleton_inj.mp heq
      split
      · exact Intersec.after_self _
      · rename_i hafter
        exact Bool.eq_false_iff.mpr hafter
    · rw [← List.cons_append, ← List.append_assoc] at heq
      obtain ⟨rfl, rfl⟩ := List.append_singleton_inj.mp heq
      rcases List.forall_mem_append.mp hnone with ⟨hnone, hb⟩
      have hr : r ∈ g₁ ++ r :: g₂ := List.mem_append_right g₁ (List.mem_cons_self ..)
      have hbest := hlast.best g₁ r g₂ rfl hnone
      split
      · -- what exceeds the last so far exceeds `r`
        rename_i hafter
        have hsame := sameBlock_of_oneBlock h hone hmem (List.mem_append_left _ hr) (List.mem_append_left _ hlast.mem)
        have hexceeds := Intersec.after_of_not_after (h.placed r (hmem r (List.mem_append_left _ hr)))
          (h.placed j (hmem j (List.mem_append_left _ hlast.mem))) hsame hbest hafter
        rw [List.forall_mem_singleton.mp hb] at hexceeds
        cases hexceeds
      · exact hbest

theorem reaches_of_joins {i j b : Intersec} (hj : j ∈ all) (hb : b ∈ all) (hjoins : j.joins i b = true) :
    j.Reaches b := by
  have hsame := joins_same hjoins
  refine ⟨h.sameBlock hj hb ?_, ?_⟩
  · rw [Intersec.pos, Intersec.pos, hsame.1, hsame.2]
  · simp only [Intersec.joins, Bool.and_eq_true] at hjoins
    exact hjoins.2.2.2

/-- What reaches a result reaches those between the two. -/
theorem reaches_between {a b c : Intersec} (ha : a ∈ all) (hb : b ∈ all) (hc : c ∈ all) (hab : b.before a = false)
    (hbc : c.before b = false) (hreach : a.Reaches c) : a.Reaches b := by
  have hpos := hreach.1.pos
  have hle := pos_le_of_before hab
  have hle' := pos_le_of_before hbc
  refine Intersec.Reaches.of_le (h.placed a ha) (h.placed b hb) (h.placed c hc) (h.sameBlock ha hb (by omega)) ?_ hreach
  exact dstart_le_of_before hbc (by omega)

end Groups

theorem forall_split_cons {α : Type} {P : List α → α → Prop} {b : α} {bs : List α} :
    (∀ pre c post, b :: bs = pre ++ c :: post → P pre c) ↔
      P [] b ∧ ∀ pre c post, bs = pre ++ c :: post → P (b :: pre) c := by
  constructor
  · intro hall
    exact ⟨hall [] b bs rfl, fun pre c post heq => hall (b :: pre) c post (congrArg (b :: ·) heq)⟩
  · rintro ⟨hfirst, hrest⟩ pre c post heq
    rcases pre with _ | ⟨a, pre⟩
    · obtain ⟨rfl, -⟩ := List.cons.inj heq
      exact hfirst
    · obtain ⟨rfl, htail⟩ := List.cons.inj heq
      exact hrest pre c post htail

/-- No result of the one group reaches one of the other. -/
def Unreached (g g' : List Intersec) : Prop := ∀ a ∈ g, ∀ b ∈ g', ¬ a.Reaches b

/-- **The groups do not reach each other** if and only if the last elements are found: as long as they are, the
results before a new group are through, and the one that counts as the last is the first that no later one exceeds. -/
theorem splitFrom_unreached_iff {all bs : List Intersec} (h : FromBlocks all) {j i : Intersec} {group : List Intersec}
    (hlined : Lined all (group ++ bs)) (hone : OneBlock group) (hlast : CountsAsLast group j) (hi : i ∈ group) :
    (splitFrom j i group bs).Pairwise Unreached ↔
      ∀ pre b post, bs = pre ++ b :: post → LastFound (group ++ pre) b := by
  induction bs generalizing j i group with
  | nil =>
    refine iff_of_true (List.pairwise_singleton _ _) ?_
    intro pre b post heq
    cases pre <;> cases heq
  | cons b bs ih =>
    have hb : b ∈ all := hlined.mem b (List.mem_append_right _ (List.mem_cons_self ..))
    have hgroup : ∀ a ∈ group, a ∈ all := fun a ha => hlined.mem a (List.mem_append_left _ ha)
    have hlined' : Lined all (group ++ [b] ++ bs) := by
      rw [List.append_assoc, List.singleton_append]
      exact hlined
    rw [splitFrom, forall_split_cons (P := fun pre c => LastFound (group ++ pre) c), List.append_nil]
    split
    · rename_i hjoins
      have hone' := hone.concat hlast.mem (joins_same hjoins)
      have hfound : LastFound group b := by
        rcases hlast.stays with ⟨g₁, g₂, heq, hg₂⟩
        exact fun _ => ⟨g₁, j, g₂, heq, reaches_of_joins h (hgroup j hlast.mem) hb hjoins, hg₂⟩
      have hlast' := hlast.concat h hone' fun a ha => hlined'.mem a (List.mem_append_left _ ha)
      rw [ih hlined' hone' hlast' (List.mem_append_right _ (List.mem_singleton_self b)), and_iff_right hfound]
      simp only [List.append_assoc, List.singleton_append]
    · rename_i hbegins
      rcases List.pairwise_append.mp hlined.sorted with ⟨-, hsorted, hcross⟩
      have hrest := ih ⟨fun a ha => hlined.mem a (List.mem_append_right _ ha), hsorted⟩ (OneBlock.singleton b)
        (CountsAsLast.singleton b) (List.mem_singleton_self b)
      have hflat : ∀ c, c ∈ b :: bs ↔ ∃ g ∈ splitFrom b b [b] bs, c ∈ g := by
        intro c
        rw [← List.mem_flatten, splitFrom_flatten, List.singleton_append]
      have hapart : (∀ g ∈ splitFrom b b [b] bs, Unreached group g) ↔ ∀ a ∈ group, ∀ c ∈ b :: bs, ¬ a.Reaches c := by
        constructor
        · intro hall a ha c hc
          rcases (hflat c).mp hc with ⟨g, hg, hcg⟩
          exact hall g hg a ha c hcg
        · intro hall g hg a ha c hc
          exact hall a ha c ((hflat c).mpr ⟨g, hg, hc⟩)
      rw [List.pairwise_cons, hapart, hrest]
      constructor
      · rintro ⟨hun, hfound⟩
        refine ⟨?_, fun pre c post heq => ?_⟩
        · rintro ⟨a, ha, hreach⟩
          exact absurd hreach (hun a ha b (List.mem_cons_self ..))
        · rintro ⟨a, ha, hreach⟩
          have hc : c ∈ b :: bs := List.mem_cons_of_mem _ (heq ▸ List.mem_append_right pre (List.mem_cons_self ..))
          rcases List.mem_append.mp ha with ha | ha
          · exact absurd hreach (hun a ha c hc)
          · rcases hfound pre c post heq ⟨a, ha, hreach⟩ with ⟨pre₁, r, pre₂, hpre, hr⟩
            refine ⟨group ++ pre₁, r, pre₂, ?_, hr⟩
            rw [List.append_assoc, ← hpre, List.singleton_append]
      · rintro ⟨hfirst, hfound⟩
        have hun : ∀ a ∈ group, ∀ c ∈ b :: bs, ¬ a.Reaches c := by
          intro a ha c hc hreach
          have hab : a.Reaches b := by
            rcases List.mem_cons.mp hc with rfl | hcbs
            · exact hreach
            · exact reaches_between h (hgroup a ha) hb (hlined.mem c (List.mem_append_right _ hc))
                (hcross a ha b (List.mem_cons_self ..)) ((List.pairwise_cons.mp hsorted).1 c hcbs) hreach
          -- the result that is found does not exceed the one that counts as the last, which would reach `b` too
          rcases hfirst ⟨a, ha, hab⟩ with ⟨pre₁, r, pre₂, hpre, hr, hnone⟩
          have hrmem : r ∈ group := hpre ▸ List.mem_append_right pre₁ (List.mem_cons_self ..)
          have hsame := sameBlock_of_oneBlock h hone hgroup hrmem hlast.mem
          have hjb := hr.of_not_after (h.placed r (hgroup r hrmem)) (h.placed j (hgroup j hlast.mem)) hsame
            (hlast.best pre₁ r pre₂ hpre hnone)
          exact hbegins (Intersec.joins_of_reaches (h.unfiltered i (hgroup i hi)) hjb)
        refine ⟨hun, fun pre c post heq => ?_⟩
        rintro ⟨a, ha, hreach⟩
        have hc : c ∈ b :: bs := List.mem_cons_of_mem _ (heq ▸ List.mem_append_right pre (List.mem_cons_self ..))
        rcases hfound pre c post heq ⟨a, List.mem_append_right group ha, hreach⟩ with ⟨pre₁, r, pre₂, hpre, hr, hnone⟩
        rcases List.append_eq_append_iff.mp hpre with ⟨x, rfl, hx⟩ | ⟨x, hx, hx'⟩
        · exact ⟨x, r, pre₂, hx, hr, hnone⟩
        · rcases x with _ | ⟨y, x⟩
          · exact ⟨[], r, pre₂, hx'.symm, hr, hnone⟩
          · obtain ⟨rfl, -⟩ := List.cons.inj hx'
            have hrmem : r ∈ group := hx ▸ List.mem_append_right pre₁ (List.mem_cons_self ..)
            exact absurd hr (hun r hrmem c hc)

theorem splitGroups_unreached_iff {all l : List Intersec} (h : FromBlocks all) (hlined : Lined all l) :
    (splitGroups l).Pairwise Unreached ↔ EndsTracked l := by
  rcases l with _ | ⟨b, bs⟩
  · refine iff_of_true List.Pairwise.nil ?_
    intro pre b post heq
    cases pre <;> cases heq
  · have hnone : LastFound [] b := by
      rintro ⟨a, ha, -⟩
      cases ha
    rw [EndsTracked, forall_split_cons, and_iff_right hnone]
    exact splitFrom_unreached_iff h hlined (OneBlock.singleton b) (CountsAsLast.singleton b)
      (List.mem_singleton_self b)

theorem lengthsFit_of_rows {g : List Intersec} (helems : ∀ b ∈ g, b.info.esize.toNat < 2 ^ 31)
    (hrows : 2 ≤ g.length → ∀ b ∈ g, b.exactRowLen < 2 ^ 31) : LengthsFit g := by
  rcases g with _ | ⟨a, _ | ⟨b, g⟩⟩
  · exact List.forall_mem_nil _
  · exact helems a (List.mem_singleton_self a)
  · exact hrows (Nat.le_add_left 2 _)

/-- Results share a group when one of them reaches the next. -/
theorem splitFrom_lengths {all bs : List Intersec} (h : FromBlocks all)
    (helems : ∀ b ∈ all, b.info.esize.toNat < 2 ^ 31) {j i : Intersec} {group : List Intersec}
    (hlined : Lined all (group ++ bs)) (hj : j ∈ group)
    (hpair : (group ++ bs).Pairwise fun a b =>
      a.Reaches b → b.Reaches a → a.exactRowLen < 2 ^ 31 ∧ b.exactRowLen < 2 ^ 31)
    (hrows : 2 ≤ group.length → ∀ b ∈ group, b.exactRowLen < 2 ^ 31) :
    ∀ g ∈ splitFrom j i group bs, LengthsFit g := by
  have hgroup : ∀ a ∈ group, a ∈ all := fun a ha => hlined.mem a (List.mem_append_left _ ha)
  induction bs generalizing j i group with
  | nil =>
    intro g hg
    obtain rfl := List.mem_singleton.mp hg
    exact lengthsFit_of_rows (fun b hb => helems b (hgroup b hb)) hrows
  | cons b bs ih =>
    have hb : b ∈ all := hlined.mem b (List.mem_append_right _ (List.mem_cons_self ..))
    have hassoc : group ++ b :: bs = group ++ [b] ++ bs := by simp
    rw [splitFrom]
    split
    · -- The result joins: it and the last one reach each other, so both of their rows are measured.
      rename_i hjoins
      have hreach := reaches_of_joins h (hgroup j hj) hb hjoins
      have hbefore := (List.pairwise_append.mp hlined.sorted).2.2 j hj b (List.mem_cons_self ..)
      have hback := Intersec.Reaches.back (h.placed j (hgroup j hj)) (h.placed b hb) hreach.1
        (dstart_le_of_before hbefore hreach.1.pos)
      have hboth := (List.pairwise_append.mp hpair).2.2 j hj b (List.mem_cons_self ..) hreach hback
      have hall : ∀ a ∈ group ++ [b], a ∈ all :=
        List.forall_mem_append.mpr ⟨hgroup, List.forall_mem_singleton.mpr hb⟩
      refine ih (hassoc ▸ hlined) ?_ (hassoc ▸ hpair) (fun _ => ?_) hall
      · split
        · exact List.mem_append_right _ (List.mem_singleton_self b)
        · exact List.mem_append_left _ hj
      · refine List.forall_mem_append.mpr ⟨fun a ha => ?_, List.forall_mem_singleton.mpr hboth.2⟩
        by_cases htwo : 2 ≤ group.length
        · exact hrows htwo a ha
        · rcases group with _ | ⟨x, _ | ⟨y, group⟩⟩
          · cases ha
          · rw [List.mem_singleton.mp ha, ← List.mem_singleton.mp hj]
            exact hboth.1
          · simp at htwo
    · refine List.forall_mem_cons.mpr ⟨lengthsFit_of_rows (fun a ha => helems a (hgroup a ha)) hrows, ?_⟩
      refine ih ⟨fun a ha => hlined.mem a (List.mem_append_right _ ha), (List.pairwise_append.mp hlined.sorted).2.1⟩
        (List.mem_singleton_self b) (List.pairwise_append.mp hpair).2.1 (fun htwo => ?_)
        (List.forall_mem_singleton.mpr hb)
      simp at htwo

theorem splitGroups_lengths {all l : List Intersec} (h : FromBlocks all) (hfit : SizesFit all) (hlined : Lined all l)
    (hperm : l.Perm all) : ∀ g ∈ splitGroups l, LengthsFit g := by
  have hsym : ∀ {a b : Intersec}, (a.Reaches b → b.Reaches a → a.exactRowLen < 2 ^ 31 ∧ b.exactRowLen < 2 ^ 31) →
      b.Reaches a → a.Reaches b → b.exactRowLen < 2 ^ 31 ∧ a.exactRowLen < 2 ^ 31 :=
    fun hab hba hab' => (hab hab' hba).symm
  have hpair := (hperm.pairwise_iff hsym).mpr hfit.rows
  rcases l with _ | ⟨b, bs⟩
  · exact List.forall_mem_nil _
  · refine splitFrom_lengths h hfit.elems hlined (List.mem_singleton_self b) hpair ?_
    intro htwo
    simp at htwo

/-! ## §4 — two groups. -/

theorem takes_bounds {g : List Intersec} {runs : List Move} (h : GroupTakes g runs) (hg : ∀ b ∈ g, b.Placed) {m : Move}
    (hm : m ∈ runs) (hpos : 0 < m.len) : (∃ a ∈ g, m.stop ≤ a.lastByte) ∧ ∃ a ∈ g, a.firstByte ≤ m.src := by
  constructor
  · obtain ⟨a, ha, d, hd⟩ := (h.takes (m.stop - 1)).mp ⟨m, hm, by unfold Move.stop; omega, by omega⟩
    have hlt := (Intersec.reads_between (hg a ha) hd).2
    exact ⟨a, ha, by omega⟩
  · obtain ⟨a, ha, d, hd⟩ := (h.takes m.src).mp ⟨m, hm, le_rfl, by unfold Move.stop; omega⟩
    exact ⟨a, ha, (Intersec.reads_between (hg a ha) hd).1⟩

/-- **The runs of two groups** are in order when those of their results that are of one data block are. -/
theorem groups_inOrder_iff {all : List Intersec} (hall : FromBlocks all) {g g' : List Intersec} {runs runs' : List Move}
    (h : GroupTakes g runs) (h' : GroupTakes g' runs') (hg : ∀ a ∈ g, a ∈ all) (hg' : ∀ b ∈ g', b ∈ all)
    (hsorted : ∀ a ∈ g, ∀ b ∈ g', a.pos ≤ b.pos) :
    (∀ k ∈ runs, ∀ l ∈ runs', 0 < k.len → 0 < l.len → k.stop ≤ l.src) ↔
      ∀ a ∈ g, ∀ b ∈ g', a.SameBlock b → Intersec.interleve a.dstart a.count b.dstart = false := by
  have hwell : ∀ a ∈ g, a.Placed := fun a ha => hall.placed a (hg a ha)
  have hwell' : ∀ b ∈ g', b.Placed := fun b hb => hall.placed b (hg' b hb)
  constructor
  · -- The last byte of one and the first of the other each lie in a run of their group.
    intro horder a ha b hb hsame
    rw [← Intersec.lastByte_le_iff (hwell a ha) (hwell' b hb) hsame]
    obtain ⟨d, hd⟩ := Intersec.reads_last (hwell a ha)
    obtain ⟨d', hd'⟩ := Intersec.reads_first (hwell' b hb)
    obtain ⟨k, hk, hklo, hkhi⟩ := (h.takes _).mpr ⟨a, ha, d, hd⟩
    obtain ⟨l, hl, hllo, hlhi⟩ := (h'.takes _).mpr ⟨b, hb, d', hd'⟩
    unfold Move.stop at hkhi hlhi
    have hstep := horder k hk l hl (by omega) (by omega)
    unfold Move.stop at hstep
    omega
  · intro hthrough k hk l hl hkpos hlpos
    obtain ⟨a, ha, hstop⟩ := (takes_bounds h hwell hk hkpos).1
    obtain ⟨b, hb, hsrc⟩ := (takes_bounds h' hwell' hl hlpos).2
    -- Of different data blocks, the first one ends before the second begins.
    have hbytes : a.lastByte ≤ b.firstByte := by
      rcases Int.le_iff_lt_or_eq.mp (hsorted a ha b hb) with hlt | heq
      · have hend := hall.blockEnd_le (hg a ha) (hg' b hb) hlt
        have hina := (Intersec.reads_in_block (hwell a ha)).2
        have hinb := (Intersec.reads_in_block (hwell' b hb)).1
        omega
      · have hsame := hall.sameBlock (hg a ha) (hg' b hb) heq
        exact (Intersec.lastByte_le_iff (hwell a ha) (hwell' b hb) hsame).mpr (hthrough a ha b hb hsame)
    omega

/-! ## §5 — the view. -/

/-- The runs of a group, when it has any. -/
def groupRuns (g : List Intersec) : List Move :=
  match genGroup g with
  | .ok p => p.1
  | .error _ => []

theorem groupRuns_eq {g : List Intersec} {p : List Move × List CopyCtx} (h : genGroup g = .ok p) :
    groupRuns g = p.1 := by
  rw [groupRuns, h]

theorem flatMap_runs {gs : List (List Intersec)} {parts : List (List Move × List CopyCtx)}
    (h : gs.mapM genGroup = .ok parts) : parts.flatMap Prod.fst = gs.flatMap groupRuns := by
  have hmap : parts.map Prod.fst = gs.map groupRuns := by
    rw [← List.forall₂_eq_eq_eq, List.forall₂_map_left_iff, List.forall₂_map_right_iff]
    exact (Lib.mapM_eq_ok_iff.mp h).flip.imp fun _ _ hg => (groupRuns_eq hg).symm
  rw [List.flatMap_def, List.flatMap_def, hmap]

/-- What a group of the sorted results is: a part of a data block with lengths that fit, broken down only if it has
dimensions. -/
structure GroupOk (bs g : List Intersec) : Prop where
  one : OneBlock g
  mem : ∀ b ∈ g, b ∈ bs
  dims : 2 ≤ g.length → ∀ b ∈ g, b.info.ndim ≠ 0
  lengths : LengthsFit g

theorem GroupOk.takes {bs g : List Intersec} (h : FromBlocks bs) (hg : GroupOk bs g) :
    ∃ p, genGroup g = .ok p ∧ GroupTakes g (groupRuns g) := by
  obtain ⟨p, hp, htakes⟩ := genGroup_takes hg.one.nonempty
    (fun b hb => ⟨h.placed b (hg.mem b hb), h.unfiltered b (hg.mem b hb)⟩) hg.dims hg.lengths
  exact ⟨p, hp, (groupRuns_eq hp).symm ▸ htakes⟩

theorem BlockSort.lined (std : BlockSort) (bs : List Intersec) : Lined bs (std.sort bs) :=
  ⟨fun _ ha => (std.perm bs).mem_iff.mp ha, std.sorted bs⟩

theorem mem_of_group {std : BlockSort} {bs g : List Intersec} (hg : g ∈ splitGroups (std.sort bs)) :
    ∀ b ∈ g, b ∈ bs := by
  intro b hb
  have hmem : b ∈ (splitGroups (std.sort bs)).flatten := List.mem_flatten.mpr ⟨g, hg, hb⟩
  rw [splitGroups_flatten] at hmem
  exact (std.perm bs).mem_iff.mp hmem

section View

variable {std : BlockSort} {bs : List Intersec} (h : FromBlocks bs)
include h

/-- When every group can be read, the types are those of the groups. -/
theorem readiGenRtypes_groups (hok : ∀ g ∈ splitGroups (std.sort bs), GroupOk bs g) :
    ∃ copies, readiGenRtypes std bs = .ok ((splitGroups (std.sort bs)).flatMap groupRuns, copies) := by
  have htakes := fun g hg => (hok g hg).takes h
  obtain ⟨parts, hparts, -⟩ := Lib.exists_mapM_ok htakes
  have hnonneg : ∀ m ∈ (splitGroups (std.sort bs)).flatMap groupRuns, 0 ≤ m.len := by
    intro m hm
    obtain ⟨g, hg, hm⟩ := List.mem_flatMap.mp hm
    obtain ⟨p, -, htake⟩ := htakes g hg
    exact htake.nonneg m hm
  refine ⟨parts.flatMap Prod.snd, ?_⟩
  unfold readiGenRtypes
  rw [hparts]
  show (if _ then _ else _) = _
  rw [flatMap_runs hparts, if_pos hnonneg]
  rfl

/-- Then the view is legal if and only if no group reaches one behind it. -/
theorem legalView_of_groupsOk (hok : ∀ g ∈ splitGroups (std.sort bs), GroupOk bs g) :
    LegalView std bs ↔ (splitGroups (std.sort bs)).Pairwise Unreached := by
  have htakes := fun g hg => (hok g hg).takes h
  obtain ⟨copies, hgen⟩ := readiGenRtypes_groups h hok
  have hlegal : LegalView std bs ↔ InOrder ((splitGroups (std.sort bs)).flatMap groupRuns) := by
    constructor
    · rintro ⟨runs, copies, hview, horder⟩
      rw [hgen] at hview
      obtain ⟨rfl, -⟩ := Prod.mk.inj (Except.ok.inj hview)
      exact horder
    · exact fun horder => ⟨_, _, hgen, horder⟩
  have hin : ∀ g ∈ splitGroups (std.sort bs), InOrder (groupRuns g) := by
    intro g hg
    obtain ⟨p, -, htake⟩ := htakes g hg
    exact htake.inOrder
  have hsorted := std.sortedBlocks bs
  rw [SortedBlocks, ← splitGroups_flatten (std.sort bs), List.pairwise_flatten] at hsorted
  have htwo : ∀ g ∈ splitGroups (std.sort bs), ∀ g' ∈ splitGroups (std.sort bs),
      (∀ a ∈ g, ∀ b ∈ g', a.pos ≤ b.pos) →
        ((∀ k ∈ groupRuns g, ∀ l ∈ groupRuns g', 0 < k.len → 0 < l.len → k.stop ≤ l.src) ↔ Unreached g g') := by
    intro g hg g' hg' hpos
    obtain ⟨-, -, htake⟩ := htakes g hg
    obtain ⟨-, -, htake'⟩ := htakes g' hg'
    rw [groups_inOrder_iff h htake htake' (hok g hg).mem (hok g' hg').mem hpos]
    exact forall₄_congr fun a _ b _ => Intersec.not_reaches_iff.symm
  rw [hlegal, InOrder, List.pairwise_flatMap]
  refine (and_iff_right hin).trans ⟨fun hcross => ?_, fun hcross => ?_⟩
  · exact (hcross.and hsorted.2).imp_of_mem fun hg hg' hboth => (htwo _ hg _ hg' hboth.2).mp hboth.1
  · exact (hcross.and hsorted.2).imp_of_mem fun hg hg' hboth => (htwo _ hg _ hg' hboth.2).mpr hboth.1

/-- All results of a group are of its data block. -/
theorem sameBlock_of_group {g : List Intersec} (hg : g ∈ splitGroups (std.sort bs)) {a b : Intersec} (ha : a ∈ g)
    (hb : b ∈ g) : a.SameBlock b :=
  sameBlock_of_oneBlock h (splitGroups_oneBlock _ g hg) (mem_of_group hg) ha hb

variable (hfit : SizesFit bs)
include hfit

/-- A group with more than one result has dimensions, or is not broken down. -/
theorem groupOk_of_first {g : List Intersec} (hg : g ∈ splitGroups (std.sort bs))
    (hfirst : ∀ a b rest, g = a :: b :: rest → a.info.ndim ≠ 0) : GroupOk bs g := by
  refine ⟨splitGroups_oneBlock _ g hg, mem_of_group hg, fun htwo c hc => ?_,
    splitGroups_lengths h hfit (std.lined bs) (std.perm bs) g hg⟩
  rcases g with _ | ⟨a, _ | ⟨b, rest⟩⟩
  · cases hc
  · simp at htwo
  · rw [(sameBlock_of_group h hg hc (List.mem_cons_self ..)).info]
    exact hfirst a b rest rfl

/-- **The view of one order** that `std::sort` may leave is legal if and only if no data block without dimensions is
read twice, and the last elements are found. -/
theorem legalView_iff : LegalView std bs ↔ ScalarsOnce bs ∧ EndsTracked (std.sort bs) := by
  have hsym : ∀ {a b : Intersec}, (a.info.ndim = 0 → ¬ a.SameBlock b) → b.info.ndim = 0 → ¬ b.SameBlock a :=
    fun hab hnd hba => hab (by rw [hba.symm.info, hnd]) hba.symm
  have hperm : ScalarsOnce bs ↔ ScalarsOnce (splitGroups (std.sort bs)).flatten := by
    rw [splitGroups_flatten]
    exact ((std.perm bs).pairwise_iff hsym).symm
  -- Without dimensions there are no rows, and two such results of one block would be read over each other.
  have hscalars := splitGroups_scalars (h.perm (std.perm bs)) (std.sortedBlocks bs)
  have honce : ScalarsOnce bs ↔ ∀ g ∈ splitGroups (std.sort bs), GroupOk bs g := by
    rw [hperm, ScalarsOnce, List.pairwise_flatten, and_iff_left hscalars]
    constructor
    · intro hpair g hg
      refine groupOk_of_first h hfit hg fun a b rest heq hnd => ?_
      have hg' := hpair g hg
      rw [heq] at hg'
      refine (List.pairwise_cons.mp hg').1 b (List.mem_cons_self ..) hnd (sameBlock_of_group h hg ?_ ?_)
      · rw [heq]
        exact List.mem_cons_self ..
      · rw [heq]
        exact List.mem_cons_of_mem _ (List.mem_cons_self ..)
    · intro hok g hg
      rcases g with _ | ⟨a, _ | ⟨b, rest⟩⟩
      · exact List.Pairwise.nil
      · exact List.pairwise_singleton _ _
      · have hnd := (hok _ hg).dims (Nat.le_add_left 2 _)
        exact List.Pairwise.imp_of_mem (fun ha _ _ hzero => absurd hzero (hnd _ ha))
          (List.pairwise_of_forall fun _ _ => trivial)
  rw [← splitGroups_unreached_iff h (std.lined bs)]
  constructor
  · intro hlegal
    have hok : ∀ g ∈ splitGroups (std.sort bs), GroupOk bs g := by
      intro g hg
      refine groupOk_of_first h hfit hg fun a b rest heq hnd => ?_
      obtain ⟨runs, copies, hview, -⟩ := hlegal
      obtain ⟨parts, hparts, -⟩ := Lib.bind_eq_ok.mp hview
      have hisOk := Lib.mapM_isOk_iff.mp ⟨parts, hparts⟩ g hg
      rw [heq] at hisOk
      cases hp : genGroup (a :: b :: rest) with
      | error e =>
        rw [hp] at hisOk
        cases hisOk
      | ok p => exact genGroup_scalars hnd p hp
    exact ⟨honce.mpr hok, (legalView_of_groupsOk h hok).mp hlegal⟩
  · rintro ⟨hones, hun⟩
    exact (legalView_of_groupsOk h (honce.mp hones)).mpr hun

end View

open Classical in
/-- An order of one list that `std::sort` may leave. -/
noncomputable def BlockSort.leaving (bs l : List Intersec) (hperm : l.Perm bs)
    (hsorted : l.Pairwise fun a b => b.before a = false) : BlockSort where
  sort := fun bs' => if bs' = bs then l else stableSort.sort bs'
  perm := by
    intro bs'
    split
    · rename_i heq
      rwa [heq]
    · exact stableSort.perm bs'
  sorted := by
    intro bs'
    split
    · exact hsorted
    · exact stableSort.sorted bs'

theorem BlockSort.leaving_sort {bs l : List Intersec} (hperm : l.Perm bs)
    (hsorted : l.Pairwise fun a b => b.before a = false) : (BlockSort.leaving bs l hperm hsorted).sort bs = l :=
  if_pos rfl

/-- Data blocks of fewer bytes than an `int` counts, as the writer makes them, have sizes that fit. -/
theorem sizesFit_of_blocks {bs : List Intersec} (h : ∀ b ∈ bs, b.Placed)
    (hsize : ∀ b ∈ bs, b.info.esize.toNat * b.dataSize.prod < 2 ^ 31) : SizesFit bs where
  elems b hb := lt_of_le_of_lt (Nat.le_mul_of_pos_right _ (h b hb).dataPos) (hsize b hb)
  rows := by
    refine List.pairwise_of_forall_mem_list ?_
    intro a ha b hb _ _
    exact ⟨(h a ha).row_lt (hsize a ha), (h b hb).row_lt (hsize b hb)⟩

/-! ## §6 — three requests. -/

/-- A dataset of 10 by 10 four-byte elements, written at once at the beginning of a file. -/
def tenByTen : DsetInfo := DsetInfo.plain 4 [10, 10] [10, 10] [10, 1] (by decide) rfl rfl

/-- What a request for one block of it finds. -/
def partOf (xbuf : ℕ) (dstart count : List ℤ) : Intersec where
  info := tenByTen
  dsize := [10, 10]
  dstart := dstart
  msize := count
  mstart := [0, 0]
  count := count
  xsize := 400
  doff := 0
  xbuf := xbuf
  foff := 0
  fsize := 400
  zbuf := none

/-- Five elements of the first column, three of the first row, and one of the second. -/
def columnPart : Intersec := partOf 1000 [0, 0] [5, 1]

def rowPart : Intersec := partOf 2000 [0, 2] [1, 3]

def cellPart : Intersec := partOf 3000 [1, 1] [1, 1]

theorem part_cases {bs : List Intersec} (h : ∀ b ∈ bs, b = columnPart ∨ b = rowPart ∨ b = cellPart) :
    ∀ b ∈ bs, b.Placed ∧ b.zbuf = none ∧ b.SameBlock columnPart ∧ b.info.esize.toNat * b.dataSize.prod < 2 ^ 31 := by
  intro b hb
  rcases h b hb with rfl | rfl | rfl
  · exact ⟨⟨by decide, rfl, rfl, rfl, rfl, rfl, by decide, by decide, by decide, by decide, by decide⟩,
      rfl, ⟨rfl, rfl, rfl, rfl⟩, by decide⟩
  · exact ⟨⟨by decide, rfl, rfl, rfl, rfl, rfl, by decide, by decide, by decide, by decide, by decide⟩,
      rfl, ⟨rfl, rfl, rfl, rfl⟩, by decide⟩
  · exact ⟨⟨by decide, rfl, rfl, rfl, rfl, rfl, by decide, by decide, by decide, by decide, by decide⟩,
      rfl, ⟨rfl, rfl, rfl, rfl⟩, by decide⟩

theorem parts_fromBlocks {bs : List Intersec} (h : ∀ b ∈ bs, b = columnPart ∨ b = rowPart ∨ b = cellPart) :
    FromBlocks bs where
  placed b hb := (part_cases h b hb).1
  unfiltered b hb := (part_cases h b hb).2.1
  apart a ha b hb := Or.inl ((part_cases h a ha).2.2.1.trans (part_cases h b hb).2.2.1.symm)

theorem parts_fit {bs : List Intersec} (h : ∀ b ∈ bs, b = columnPart ∨ b = rowPart ∨ b = cellPart) : SizesFit bs :=
  sizesFit_of_blocks (fun b hb => (part_cases h b hb).1) fun b hb => (part_cases h b hb).2.2.2

/-- Results that are not tied have one order. -/
theorem eq_of_sorted {l l' : List Intersec} (hperm : l'.Perm l) (hstrict : l.Pairwise fun a b => a.before b = true)
    (hl' : l'.Pairwise fun a b => b.before a = false) : l' = l := by
  have hsymm : Std.Symm fun a b : Intersec => a.before b = true ∨ b.before a = true := ⟨fun _ _ => Or.symm⟩
  have hpair : l.Pairwise fun a b => a.before b = true ∨ b.before a = true := hstrict.imp Or.inl
  have hdiffer := hpair.forall
  have hl : l.Pairwise fun a b => b.before a = false := by
    refine hstrict.imp fun {a b} hab => ?_
    by_contra hba
    rw [Bool.not_eq_false] at hba
    have hle := before_eq_false_iff.not.mp (Bool.not_eq_false _ ▸ hab)
    have hle' := before_eq_false_iff.not.mp (Bool.not_eq_false _ ▸ hba)
    exact (lt_asymm (not_le.mp hle) (not_le.mp hle')).elim
  refine List.Perm.eq_of_pairwise (fun a b ha hb hab hba => ?_) hl' hl hperm
  by_contra hne
  rcases hdiffer (hperm.mem_iff.mp ha) hb hne with hlt | hlt
  · rw [hba] at hlt
    cases hlt
  · rw [hab] at hlt
    cases hlt

/-- Of two results, the first is the last element. -/
theorem endsTracked_pair (a b : Intersec) : EndsTracked [a, b] := by
  rintro pre c post heq ⟨x, hx, hreach⟩
  rcases pre with _ | ⟨y, _ | ⟨z, pre⟩⟩
  · cases hx
  · obtain rfl := List.mem_singleton.mp hx
    exact ⟨[], x, [], rfl, hreach, List.forall_mem_nil _⟩
  · have hlen := congrArg List.length heq
    simp at hlen

end LogVol
