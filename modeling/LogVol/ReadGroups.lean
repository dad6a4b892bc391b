/-
# LogVol.ReadGroups — the groups of a read.

The results are sorted by their data blocks and split into groups, each within one data block. A group of one is
a subarray; the rows of a larger one are sorted and trimmed, and take the bytes of its results all the same
(`genGroup_takes`). Where the rows share no byte, nothing is trimmed and nothing is copied
(`trimRows_of_apart`).
-/
import LogVol.ReadRows

namespace LogVol

open Lib (Move InOrder BeginsInOrder trimAll)

/-! ## §1 — data blocks. -/

namespace Intersec

/-- Both are parts of the same data. -/
structure SameBlock (a b : Intersec) : Prop where
  foff : a.foff = b.foff
  doff : a.doff = b.doff
  info : a.info = b.info
  dsize : a.dsize = b.dsize

/-- The byte behind the data. -/
def blockEnd (b : Intersec) : ℤ := b.pos + (b.info.esize.toNat * b.dataSize.prod : ℕ)

theorem SameBlock.symm {a b : Intersec} (h : a.SameBlock b) : b.SameBlock a :=
  ⟨h.foff.symm, h.doff.symm, h.info.symm, h.dsize.symm⟩

theorem SameBlock.pos {a b : Intersec} (h : a.SameBlock b) : a.pos = b.pos := by
  rw [Intersec.pos, Intersec.pos, h.foff, h.doff]

theorem SameBlock.blockEnd {a b : Intersec} (h : a.SameBlock b) : a.blockEnd = b.blockEnd := by
  rw [Intersec.blockEnd, Intersec.blockEnd, h.pos, h.info, dataSize, dataSize, h.dsize]

theorem Placed.pos_lt {b : Intersec} (h : b.Placed) : b.pos < b.blockEnd := by
  have hpos := Nat.mul_pos h.esize_pos h.dataPos
  unfold blockEnd
  omega

end Intersec

/-- **Results of a search**, without filters: they are parts of data blocks, and two data blocks share no byte of
the file. -/
structure FromBlocks (bs : List Intersec) : Prop where
  placed : ∀ b ∈ bs, b.Placed
  unfiltered : ∀ b ∈ bs, b.zbuf = none
  apart : ∀ a ∈ bs, ∀ b ∈ bs, a.SameBlock b ∨ a.blockEnd ≤ b.pos ∨ b.blockEnd ≤ a.pos

theorem FromBlocks.sameBlock {bs : List Intersec} (h : FromBlocks bs) {a b : Intersec} (ha : a ∈ bs) (hb : b ∈ bs)
    (hpos : a.pos = b.pos) : a.SameBlock b := by
  have hapos := (h.placed a ha).pos_lt
  have hbpos := (h.placed b hb).pos_lt
  rcases h.apart a ha b hb with hsame | hend | hend
  · exact hsame
  · omega
  · omega

theorem FromBlocks.blockEnd_le {bs : List Intersec} (h : FromBlocks bs) {a b : Intersec} (ha : a ∈ bs) (hb : b ∈ bs)
    (hpos : a.pos < b.pos) : a.blockEnd ≤ b.pos := by
  have hbpos := (h.placed b hb).pos_lt
  rcases h.apart a ha b hb with hsame | hend | hend
  · exact absurd hsame.pos (ne_of_lt hpos)
  · exact hend
  · omega

theorem FromBlocks.perm {bs bs' : List Intersec} (h : FromBlocks bs) (hperm : bs'.Perm bs) : FromBlocks bs' where
  placed b hb := h.placed b (hperm.mem_iff.mp hb)
  unfiltered b hb := h.unfiltered b (hperm.mem_iff.mp hb)
  apart a ha b hb := h.apart a (hperm.mem_iff.mp ha) b (hperm.mem_iff.mp hb)

/-! ## §2 — sorted. -/

/-- In the order of the first elements. -/
def SortedBlocks (bs : List Intersec) : Prop := bs.Pairwise fun a b => a.pos ≤ b.pos

theorem pos_le_of_before {a b : Intersec} (h : b.before a = false) : a.pos ≤ b.pos := by
  rcases Prod.Lex.toLex_le_toLex.mp (before_eq_false_iff.mp h) with hlt | ⟨heq, -⟩
  · exact le_of_lt hlt
  · exact le_of_eq heq

theorem BlockSort.sortedBlocks (std : BlockSort) (bs : List Intersec) : SortedBlocks (std.sort bs) :=
  (std.sorted bs).imp pos_le_of_before

/-! ## §3 — groups. -/

theorem splitFrom_flatten (j i : Intersec) (group bs : List Intersec) :
    (splitFrom j i group bs).flatten = group ++ bs := by
  induction bs generalizing j i group with
  | nil => simp [splitFrom]
  | cons b bs ih =>
    rw [splitFrom]
    split
    · rw [ih, List.append_assoc, List.singleton_append]
    · rw [List.flatten_cons, ih, List.singleton_append]

theorem splitGroups_flatten (bs : List Intersec) : (splitGroups bs).flatten = bs := by
  cases bs with
  | nil => rfl
  | cons b bs => exact splitFrom_flatten b b [b] bs

/-- A group is not empty, and is part of one data block. -/
structure OneBlock (g : List Intersec) : Prop where
  nonempty : g ≠ []
  same : ∀ a ∈ g, ∀ b ∈ g, a.foff = b.foff ∧ a.doff = b.doff

theorem OneBlock.singleton (b : Intersec) : OneBlock [b] := by
  refine ⟨List.cons_ne_nil b [], fun a ha c hc => ?_⟩
  rw [List.mem_singleton.mp ha, List.mem_singleton.mp hc]
  exact ⟨rfl, rfl⟩

theorem joins_same {j i b : Intersec} (h : j.joins i b = true) : j.foff = b.foff ∧ j.doff = b.doff := by
  simp only [Intersec.joins, Bool.and_eq_true, decide_eq_true_eq] at h
  exact ⟨h.2.1, h.2.2.1⟩

theorem OneBlock.concat {g : List Intersec} {j b : Intersec} (h : OneBlock g) (hj : j ∈ g)
    (hsame : j.foff = b.foff ∧ j.doff = b.doff) : OneBlock (g ++ [b]) := by
  have hto : ∀ a ∈ g ++ [b], a.foff = b.foff ∧ a.doff = b.doff := by
    intro a ha
    rcases List.mem_append.mp ha with ha | ha
    · exact ⟨(h.same a ha j hj).1.trans hsame.1, (h.same a ha j hj).2.trans hsame.2⟩
    · rw [List.mem_singleton.mp ha]
      exact ⟨rfl, rfl⟩
  refine ⟨List.append_ne_nil_of_left_ne_nil h.nonempty _, fun a ha c hc => ?_⟩
  exact ⟨(hto a ha).1.trans (hto c hc).1.symm, (hto a ha).2.trans (hto c hc).2.symm⟩

theorem splitFrom_oneBlock {j i : Intersec} {group : List Intersec} (bs : List Intersec) (h : OneBlock group)
    (hj : j ∈ group) : ∀ g ∈ splitFrom j i group bs, OneBlock g := by
  induction bs generalizing j i group with
  | nil => exact fun g hg => List.mem_singleton.mp hg ▸ h
  | cons b bs ih =>
    rw [splitFrom]
    split
    · rename_i hjoins
      refine ih (h.concat hj (joins_same hjoins)) ?_
      split
      · exact List.mem_append_right _ (List.mem_singleton_self b)
      · exact List.mem_append_left _ hj
    · exact List.forall_mem_cons.mpr ⟨h, ih (OneBlock.singleton b) (List.mem_singleton_self b)⟩

theorem splitGroups_oneBlock (bs : List Intersec) : ∀ g ∈ splitGroups bs, OneBlock g := by
  cases bs with
  | nil => exact fun g hg => absurd hg List.not_mem_nil
  | cons b bs => exact splitFrom_oneBlock bs (OneBlock.singleton b) (List.mem_singleton_self b)

/-! ## §4 — the rows of a group. -/

theorem trimRows_cons (k : Move) (ms : List Move) : trimRows (k :: ms) = k :: trimRows (ms.map (trimRow k)) := by
  rw [trimRows]

theorem copiesOf_cons (k : Move) (ms : List Move) :
    copiesOf (k :: ms) = ms.filterMap (copyRow k) ++ copiesOf (ms.map (trimRow k)) := by
  rw [copiesOf]

/-- A length that an `int` holds. -/
def Counted (m : Move) : Prop := 0 ≤ m.len ∧ m.len < 2 ^ 31

/-- The size of a copy, without the conversions. -/
theorem overlapSize_eq {k l : Move} (hk : Counted k) (hl : Counted l) (hbegin : 0 < l.len → k.src ≤ l.src)
    (hlt : l.src < k.stop) : overlapSize k l = min l.len (k.stop - l.src) := by
  obtain ⟨hk₀, hk₁⟩ := hk
  obtain ⟨hl₀, hl₁⟩ := hl
  unfold Move.stop at hlt
  unfold overlapSize toSize Move.stop
  rcases Int.le_iff_lt_or_eq.mp hl₀ with hpos | hzero
  · have hbegin := hbegin hpos
    rw [Int.emod_eq_of_lt hl₀ (by omega), Int.emod_eq_of_lt (by omega) (by omega)]
    omega
  · have hmod := Int.emod_nonneg (k.src - l.src + k.len) (by decide : (2 : ℤ) ^ 64 ≠ 0)
    rw [← hzero]
    omega

/-- The conversions of the code change no length. -/
theorem trimRow_eq {k l : Move} (hk : Counted k) (hl : Counted l) (hbegin : 0 < l.len → k.src ≤ l.src) :
    trimRow k l = k.trim l := by
  have hsize := overlapSize_eq hk hl hbegin
  obtain ⟨hk₀, hk₁⟩ := hk
  obtain ⟨hl₀, hl₁⟩ := hl
  unfold trimRow Move.trim
  split
  · rename_i hlt
    rw [hsize hlt]
    have hlen : cInt (toSize (l.len - min l.len (k.stop - l.src))).toNat = l.len - min l.len (k.stop - l.src) := by
      unfold Move.stop at hlt
      unfold toSize Move.stop
      rw [Int.emod_eq_of_lt (by omega) (by omega), Int.toNat_of_nonneg (by omega)]
      exact cInt_of_range (by omega) (by omega)
    rw [hlen]
  · rfl

theorem counted_trim {k l : Move} (hl : Counted l) : Counted (k.trim l) :=
  ⟨(Lib.trim_len hl.1).1, lt_of_le_of_lt (Lib.trim_len hl.1).2 hl.2⟩

theorem trimRows_eq {ms : List Move} (hlen : ∀ m ∈ ms, Counted m) (h : BeginsInOrder ms) :
    trimRows ms = trimAll ms := by
  induction ms using Lib.trimAll_induction with
  | nil =>
    rw [trimRows, trimAll]
  | cons k ms ih =>
    obtain ⟨hk, hlen⟩ := List.forall_mem_cons.mp hlen
    obtain ⟨hfirst, h⟩ := List.pairwise_cons.mp h
    have hmap : ms.map (trimRow k) = ms.map k.trim :=
      List.map_congr_left fun l hl => trimRow_eq hk (hlen l hl) (hfirst l hl)
    rw [trimRows_cons, Lib.trimAll_cons, hmap, ih]
    · intro l hl
      obtain ⟨l₀, hl₀, rfl⟩ := List.mem_map.mp hl
      exact counted_trim (hlen l₀ hl₀)
    · exact Lib.beginsInOrder_trim (fun l hl => (hlen l hl).1) h

/-- Rows that share nothing are left as they are, and nothing is copied. -/
theorem trimRows_of_apart {ms : List Move} (h : ms.Pairwise fun k l => k.stop ≤ l.src) :
    trimRows ms = ms ∧ copiesOf ms = [] := by
  induction ms with
  | nil =>
    rw [trimRows, copiesOf]
    exact ⟨rfl, rfl⟩
  | cons k ms ih =>
    obtain ⟨hk, h⟩ := List.pairwise_cons.mp h
    have hmap : ms.map (trimRow k) = ms := by
      refine (List.map_congr_left fun l hl => ?_).trans (List.map_id ms)
      have hbehind := hk l hl
      exact if_neg (by omega)
    have hcopies : ms.filterMap (copyRow k) = [] := by
      rw [List.filterMap_eq_nil_iff]
      intro l hl
      have hbehind := hk l hl
      exact if_neg (by omega)
    rw [trimRows_cons, copiesOf_cons, hmap, hcopies, (ih h).1, (ih h).2]
    exact ⟨rfl, rfl⟩

/-- No byte is read twice. -/
def Intersec.ApartFrom (a b : Intersec) : Prop := ∀ x, ¬ ((∃ d, a.Reads x d) ∧ ∃ d, b.Reads x d)

/-- Of two rows, no byte is taken twice. -/
def RowsApart (rows : List Move) : Prop := rows.Pairwise fun k l => ∀ x, ¬ (k.Takes x ∧ l.Takes x)

/-- The rows of all results of a group. -/
structure GroupRows (g : List Intersec) (rows : List Move) : Prop where
  counted : ∀ m ∈ rows, Counted m
  pos : ∀ m ∈ rows, 0 < m.len
  carries : ∀ x d, (∃ m ∈ rows, m.Carries x d) ↔ ∃ b ∈ g, b.Reads x d
  apart : g.Pairwise Intersec.ApartFrom → RowsApart rows

theorem reads_row_counted {b : Intersec} (h : b.Placed) (hnd : b.info.ndim ≠ 0) (hfit : b.exactRowLen < 2 ^ 31) :
    ∃ ms, b.rows = .ok ms ∧ RowsApart ms ∧ GroupRows [b] ms := by
  obtain ⟨ms, hms, hlen, hapart, hcarries⟩ := Intersec.rows_reads h hnd hfit
  refine ⟨ms, hms, hapart, fun m hm => ⟨(hlen m hm).1.le, (hlen m hm).2⟩, fun m hm => (hlen m hm).1, ?_,
    fun _ => hapart⟩
  exact fun x d => by simpa using hcarries x d

theorem groupRows {g : List Intersec} (h : ∀ b ∈ g, b.Placed ∧ b.info.ndim ≠ 0 ∧ b.exactRowLen < 2 ^ 31) :
    ∃ rows, g.mapM Intersec.rows = .ok rows ∧ GroupRows g rows.flatten := by
  induction g with
  | nil => exact ⟨[], rfl, by simp, by simp, by simp, fun _ => List.Pairwise.nil⟩
  | cons b g ih =>
    obtain ⟨⟨hb, hnd, hfit⟩, hg⟩ := List.forall_mem_cons.mp h
    obtain ⟨rows, hrows, hspec⟩ := ih hg
    obtain ⟨ms, hms, hapart, hone⟩ := reads_row_counted hb hnd hfit
    have hhead (x d : ℤ) := hone.carries x d
    simp only [List.mem_singleton, exists_eq_left] at hhead
    refine ⟨ms :: rows, ?_, ?_, ?_, fun x d => ?_, fun hpair => ?_⟩
    · exact Lib.mapM_eq_ok_iff.mpr (List.Forall₂.cons hms (Lib.mapM_eq_ok_iff.mp hrows))
    · rw [List.flatten_cons]
      exact List.forall_mem_append.mpr ⟨hone.counted, hspec.counted⟩
    · rw [List.flatten_cons]
      exact List.forall_mem_append.mpr ⟨hone.pos, hspec.pos⟩
    · have htail := hspec.carries x d
      simp only [List.flatten_cons, List.mem_append, or_and_right, exists_or, hhead, htail, List.exists_mem_cons_iff]
    · obtain ⟨hbg, hg⟩ := List.pairwise_cons.mp hpair
      rw [List.flatten_cons]
      refine List.pairwise_append.mpr ⟨hapart, hspec.apart hg, ?_⟩
      intro k hk l hl x ⟨hkx, hlx⟩
      obtain ⟨c, hc, hd⟩ := (hspec.carries x _).mp ⟨l, hl, hlx, rfl⟩
      exact hbg c hc x ⟨⟨_, (hhead x _).mp ⟨k, hk, hkx, rfl⟩⟩, _, hd⟩

/-- Sorted rows begin one after the other. -/
theorem beginsInOrder_of_sorted {ms : List Move} (h : SortedBySrc ms) : BeginsInOrder ms := by
  refine List.Pairwise.imp ?_ h
  intro k l hle _
  exact hle

/-- What a group is read with: the bytes of its results, in the order of the file. -/
structure GroupTakes (g : List Intersec) (runs : List Move) : Prop where
  inOrder : InOrder runs
  nonneg : ∀ m ∈ runs, 0 ≤ m.len
  takes : ∀ x, (∃ m ∈ runs, m.Takes x) ↔ ∃ b ∈ g, ∃ d, b.Reads x d

theorem genGroup_single {b : Intersec} (h : b.Placed) (hes : b.info.esize.toNat < 2 ^ 31) (hz : b.zbuf = none) :
    ∃ runs, genGroup [b] = .ok (runs, []) ∧ GroupTakes [b] runs ∧
      ∀ x d, (∃ m ∈ runs, m.Carries x d) ↔ b.Reads x d := by
  obtain ⟨ms, hms, horder, hlen, hcarries⟩ := Intersec.single_reads h hes hz
  refine ⟨ms, ?_, ⟨horder, fun m hm => (hlen m hm).le, fun x => ?_⟩, hcarries⟩
  · rw [genGroup, hms]
    rfl
  · simp only [List.mem_singleton, exists_eq_left]
    constructor
    · rintro ⟨m, hm, hx⟩
      exact ⟨_, (hcarries x _).mp ⟨m, hm, hx, rfl⟩⟩
    · rintro ⟨d, hd⟩
      obtain ⟨m, hm, hx, -⟩ := (hcarries x d).mpr hd
      exact ⟨m, hm, hx⟩

theorem genGroup_many {a b : Intersec} {g : List Intersec} :
    genGroup (a :: b :: g) = ((a :: b :: g).mapM Intersec.rows).map fun rows =>
      (trimRows (sortoffsets rows.flatten), copiesOf (sortoffsets rows.flatten)) := by
  rw [genGroup]
  · cases (a :: b :: g).mapM Intersec.rows <;> rfl
  · exact fun c hc => by cases hc

/-- The lengths of a group fit an `int`: those of the rows, where there are several results. -/
def LengthsFit : List Intersec → Prop
  | [b] => b.info.esize.toNat < 2 ^ 31
  | bs => ∀ b ∈ bs, b.exactRowLen < 2 ^ 31

/-- **A group takes the bytes of its results.** -/
theorem genGroup_takes {g : List Intersec} (hne : g ≠ []) (h : ∀ b ∈ g, b.Placed ∧ b.zbuf = none)
    (hnd : 2 ≤ g.length → ∀ b ∈ g, b.info.ndim ≠ 0) (hfit : LengthsFit g) :
    ∃ p, genGroup g = .ok p ∧ GroupTakes g p.1 := by
  rcases g with _ | ⟨a, _ | ⟨b, g⟩⟩
  · exact absurd rfl hne
  · obtain ⟨hplaced, hz⟩ := h a (List.mem_singleton_self a)
    obtain ⟨runs, hruns, htakes, -⟩ := genGroup_single hplaced hfit hz
    exact ⟨_, hruns, htakes⟩
  · have hnd := hnd (Nat.le_add_left 2 _)
    have hfit : ∀ c ∈ a :: b :: g, c.exactRowLen < 2 ^ 31 := hfit
    obtain ⟨rows, hrows, hspec⟩ := groupRows fun c hc => ⟨(h c hc).1, hnd c hc, hfit c hc⟩
    rw [genGroup_many, hrows]
    obtain ⟨hperm, hsorted⟩ := sortoffsets_spec rows.flatten
    have hcounted : ∀ m ∈ sortoffsets rows.flatten, Counted m := fun m hm => hspec.counted m (hperm.mem_iff.mp hm)
    have hlen : ∀ m ∈ sortoffsets rows.flatten, 0 ≤ m.len := fun m hm => (hcounted m hm).1
    have hbegin := beginsInOrder_of_sorted hsorted
    refine ⟨_, rfl, ?_⟩
    dsimp only
    rw [trimRows_eq hcounted hbegin]
    refine ⟨Lib.trimAll_inOrder hlen hbegin, Lib.trimAll_len hlen, fun x => ?_⟩
    rw [Lib.trimAll_takes hlen hbegin]
    simp only [hperm.mem_iff]
    constructor
    · rintro ⟨m, hm, hx⟩
      obtain ⟨c, hc, hd⟩ := (hspec.carries x _).mp ⟨m, hm, hx, rfl⟩
      exact ⟨c, hc, _, hd⟩
    · rintro ⟨c, hc, d, hd⟩
      obtain ⟨m, hm, hx, -⟩ := (hspec.carries x d).mpr ⟨c, hc, hd⟩
      exact ⟨m, hm, hx⟩

/-- Without dimensions, a group of more than one is not broken down. -/
theorem genGroup_scalars {a b : Intersec} {g : List Intersec} (h : a.info.ndim = 0) (p : List Move × List CopyCtx) :
    genGroup (a :: b :: g) ≠ .ok p := by
  have hrows : a.rows = .error .outside := if_pos h
  have hfail : (a :: b :: g).mapM Intersec.rows = .error .outside := by
    rw [List.mapM_cons, hrows]
    rfl
  rw [genGroup_many, hfail]
  nofun

end LogVol
