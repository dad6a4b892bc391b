/-
# LogVol.GroupNumber — how the groups of a file with subfiles are numbered.

Each process takes a color, and the processes of one color are a group. The processes gather their ranks in
the groups, count the first ones before them, and the first one of each group broadcasts what it counted.
`scanRanks_eq` is what the count comes to, `numberRanks_numbered` that it numbers the groups of any division of
the processes, and `groupNumbering_iff` for how many subfiles the colors are a division into so many groups.
-/
import LogVol.Subfiling

namespace LogVol

/-! ## §1 — the colors. -/

/-- The second argument of `MPI_Comm_split`. The product is an `int`, and comes first; its overflow is not
defined. -/
def splitColor (np : ℕ) (ngroup : I32) (rank : ℕ) : Except Fault ℤ :=
  if 2 ^ 31 ≤ (rank : ℤ) * ngroup.toInt then .error .outside else .ok (((rank : ℤ) * ngroup.toInt).tdiv np)

/-- The colors are defined, they are numbers of groups, and they follow the ranks. -/
structure ColorsFit (np : ℕ) (ngroup : I32) : Prop where
  bounds : ∀ rank < np, ∃ c, splitColor np ngroup rank = .ok c ∧ 0 ≤ c ∧ c < ngroup.toInt
  monotone : ∀ r s c d, r ≤ s → s < np → splitColor np ngroup r = .ok c → splitColor np ngroup s = .ok d →
    c ≤ d

/-! ## §2 — the count. -/

/-- `MPI_Allgather` of the ranks in the groups. -/
def gatherRanks (color : ℕ → ℕ) (np : ℕ) : List ℕ := (List.range np).map (groupRank color)

/-- One of the loops over `group_ranks`, which starts at the count of the one before. -/
def countRoots (count : ℕ) (groupRanks : List ℕ) : ℕ :=
  groupRanks.foldl (fun n r => if r = 0 then n + 1 else n) count

/-- The two loops of a process: `group_id` goes up to its own rank, `ngroup` on from there. -/
def scanRanks (groupRanks : List ℕ) (rank : ℕ) : ℕ × ℕ :=
  let groupId := countRoots 0 (groupRanks.take rank)
  (groupId, countRoots groupId (groupRanks.drop rank))

/-- What a process holds after `MPI_Bcast` from the first one of its group. -/
def numberRanks (color : ℕ → ℕ) (np rank : ℕ) : ℕ × ℕ :=
  ((scanRanks (gatherRanks color np) (groupRoot color rank)).1, (scanRanks (gatherRanks color np) rank).2)

/-- **`Numbered`** — the processes agree on the number of groups, and the groups are numbered from zero. -/
structure Numbered (color : ℕ → ℕ) (np : ℕ) (number : ℕ → ℕ × ℕ) : Prop where
  ngroup : ∀ rank < np, (number rank).2 = ((Finset.range np).image color).card
  groupId : ∀ r < np, ∀ s < np, (number r).1 = (number s).1 ↔ color r = color s
  numbers : (Finset.range np).image (fun rank => (number rank).1) =
    Finset.range ((Finset.range np).image color).card

/-! ## §3 — what the count comes to. -/

theorem countRoots_eq (count : ℕ) (groupRanks : List ℕ) :
    countRoots count groupRanks = count + (groupRanks.filter fun r => decide (r = 0)).length := by
  induction groupRanks generalizing count with
  | nil => rfl
  | cons r groupRanks ih =>
    rw [countRoots, List.foldl_cons, ← countRoots, ih]
    by_cases hr : r = 0
    · simp [hr, Nat.add_assoc, Nat.add_comm]
    · simp [hr]

@[simp] theorem gatherRanks_length (color : ℕ → ℕ) (np : ℕ) : (gatherRanks color np).length = np := by
  simp [gatherRanks]

theorem gatherRanks_take (color : ℕ → ℕ) {rank np : ℕ} (hrank : rank ≤ np) :
    (gatherRanks color np).take rank = gatherRanks color rank := by
  rw [gatherRanks, ← List.map_take, List.take_range, min_eq_left hrank]
  rfl

theorem countRoots_gather (color : ℕ → ℕ) (n : ℕ) : countRoots 0 (gatherRanks color n) = groupRoots color n := by
  rw [countRoots_eq, gatherRanks, List.filter_map, List.length_map, Nat.zero_add]
  rfl

/-- A process counts the first ones before it, and all of them. -/
theorem scanRanks_eq (color : ℕ → ℕ) {rank np : ℕ} (hrank : rank ≤ np) :
    scanRanks (gatherRanks color np) rank = (groupRoots color rank, groupRoots color np) := by
  have hid : countRoots 0 ((gatherRanks color np).take rank) = groupRoots color rank := by
    rw [gatherRanks_take color hrank, countRoots_gather]
  have hall : countRoots (groupRoots color rank) ((gatherRanks color np).drop rank) = groupRoots color np := by
    rw [← hid, countRoots, countRoots, ← List.foldl_append, List.take_append_drop]
    exact countRoots_gather color np
  simp only [scanRanks, hid, hall]

/-! ## §4 — the first process of a group. -/

/-- It is of the group, it comes no later, and no process before it is of the group. -/
theorem groupRoot_spec (color : ℕ → ℕ) (rank : ℕ) :
    color (groupRoot color rank) = color rank ∧ groupRoot color rank ≤ rank ∧
      ∀ i < groupRoot color rank, color i ≠ color rank := by
  unfold groupRoot
  cases hfind : (List.range rank).find? fun i => decide (color i = color rank) with
  | none =>
    refine ⟨rfl, le_rfl, ?_⟩
    simpa using hfind
  | some root =>
    obtain ⟨hroot, i, hi, rfl, hbefore⟩ := List.find?_eq_some_iff_getElem.mp hfind
    simp only [List.length_range] at hi
    simp only [List.getElem_range, decide_eq_true_eq] at hroot
    refine ⟨by simpa using hroot, by simpa using hi.le, ?_⟩
    intro j hj
    simpa using hbefore j (by simpa using hj)

theorem groupRank_groupRoot (color : ℕ → ℕ) (rank : ℕ) : groupRank color (groupRoot color rank) = 0 := by
  obtain ⟨hcolor, -, hbefore⟩ := groupRoot_spec color rank
  rw [groupRank_eq_zero, hcolor]
  exact hbefore

theorem groupRoot_eq_iff (color : ℕ → ℕ) (r s : ℕ) :
    groupRoot color r = groupRoot color s ↔ color r = color s := by
  obtain ⟨hr, -, hbr⟩ := groupRoot_spec color r
  obtain ⟨hs, -, hbs⟩ := groupRoot_spec color s
  constructor
  · intro h
    rw [← hr, ← hs, h]
  · intro h
    rcases Nat.lt_trichotomy (groupRoot color r) (groupRoot color s) with hlt | heq | hlt
    · exact absurd (hr.trans h) (hbs _ hlt)
    · exact heq
    · exact absurd (hs.trans h.symm) (hbr _ hlt)

theorem groupRoots_succ (color : ℕ → ℕ) (n : ℕ) :
    groupRoots color (n + 1) = groupRoots color n + if groupRank color n = 0 then 1 else 0 := by
  rw [groupRoots, groupRoots, List.range_succ, List.filter_append, List.length_append]
  by_cases h : groupRank color n = 0 <;> simp [h]

theorem groupRoots_mono (color : ℕ → ℕ) : Monotone (groupRoots color) := by
  apply monotone_nat_of_le_succ
  intro n
  rw [groupRoots_succ]
  omega

/-- The count goes up after the first process of a group. -/
theorem groupRoots_lt {color : ℕ → ℕ} {root n : ℕ} (hroot : groupRank color root = 0) (hlt : root < n) :
    groupRoots color root < groupRoots color n := by
  have hmono : groupRoots color (root + 1) ≤ groupRoots color n := groupRoots_mono color hlt
  rw [groupRoots_succ, if_pos hroot] at hmono
  omega

theorem groupRoots_inj {color : ℕ → ℕ} {a b : ℕ} (ha : groupRank color a = 0) (hb : groupRank color b = 0)
    (heq : groupRoots color a = groupRoots color b) : a = b := by
  rcases Nat.lt_trichotomy a b with hlt | hab | hlt
  · exact absurd heq (groupRoots_lt ha hlt).ne
  · exact hab
  · exact absurd heq.symm (groupRoots_lt hb hlt).ne

theorem groupRoot_eq_self {color : ℕ → ℕ} {root : ℕ} (hroot : groupRank color root = 0) :
    groupRoot color root = root := by
  obtain ⟨hcolor, hle, -⟩ := groupRoot_spec color root
  rcases hle.lt_or_eq with hlt | heq
  · exact absurd hcolor (groupRank_eq_zero.mp hroot _ hlt)
  · exact heq

/-- The count takes every value on its way up, at the first process of a group. -/
theorem exists_root {color : ℕ → ℕ} {id n : ℕ} (hid : id < groupRoots color n) :
    ∃ root < n, groupRank color root = 0 ∧ groupRoots color root = id := by
  induction n with
  | zero => exact absurd hid (Nat.not_lt_zero id)
  | succ n ih =>
    rw [groupRoots_succ] at hid
    by_cases hbelow : id < groupRoots color n
    · obtain ⟨root, hlt, hroot⟩ := ih hbelow
      exact ⟨root, hlt.trans (Nat.lt_succ_self n), hroot⟩
    · by_cases hroot : groupRank color n = 0
      · rw [if_pos hroot] at hid
        exact ⟨n, Nat.lt_succ_self n, hroot, by omega⟩
      · rw [if_neg hroot] at hid
        exact absurd hid hbelow

/-! ## §5 — the numbers. -/

theorem numberRanks_eq (color : ℕ → ℕ) {rank np : ℕ} (hrank : rank < np) :
    numberRanks color np rank = (groupRoots color (groupRoot color rank), groupRoots color np) := by
  have hroot : groupRoot color rank ≤ np := (groupRoot_spec color rank).2.1.trans hrank.le
  rw [numberRanks, scanRanks_eq color hroot, scanRanks_eq color hrank.le]

/-- **`H5VL_log_filei_calc_node_rank`** holds the numbers of the count. -/
theorem calcNodeRank_number {l : Launch} {ngroup : I32} {rank : ℕ} {n : NodeRank} (hrank : rank < l.np)
    (h : calcNodeRank l ngroup rank = .ok n) : (n.groupId, n.ngroup) = numberRanks (l.color ngroup) l.np rank := by
  unfold calcNodeRank at h
  split at h
  · cases h
  · obtain rfl := Except.ok.inj h
    exact (numberRanks_eq _ hrank).symm

/-- However the processes are divided, and in whatever order the groups stand. -/
theorem numberRanks_numbered (color : ℕ → ℕ) (np : ℕ) : Numbered color np (numberRanks color np) := by
  have hid : ∀ r < np, ∀ s < np,
      (numberRanks color np r).1 = (numberRanks color np s).1 ↔ color r = color s := by
    intro r hr s hs
    rw [numberRanks_eq color hr, numberRanks_eq color hs, ← groupRoot_eq_iff color]
    constructor
    · exact groupRoots_inj (groupRank_groupRoot color r) (groupRank_groupRoot color s)
    · intro h
      rw [h]
  refine ⟨?_, hid, ?_⟩
  · intro rank hrank
    rw [numberRanks_eq color hrank]
    exact groupRoots_eq_card color np
  · ext id
    rw [← groupRoots_eq_card, Finset.mem_image, Finset.mem_range]
    constructor
    · rintro ⟨rank, hrank, rfl⟩
      have hlt : rank < np := Finset.mem_range.mp hrank
      rw [numberRanks_eq color hlt]
      exact groupRoots_lt (groupRank_groupRoot color rank) ((groupRoot_spec color rank).2.1.trans_lt hlt)
    · intro hid
      obtain ⟨root, hlt, hroot, rfl⟩ := exists_root hid
      refine ⟨root, Finset.mem_range.mpr hlt, ?_⟩
      rw [numberRanks_eq color hlt, groupRoot_eq_self hroot]

/-! ## §6 — for how many subfiles. -/

theorem toInt_eq_of_pos {n : I32} (hpos : 0 < n.toInt) : n.toInt = (n.toNat : ℤ) := by
  rw [BitVec.toInt_eq_toNat_cond] at hpos ⊢
  split at hpos <;> omega

theorem splitColor_eq_ok {np : ℕ} {ngroup : I32} {rank : ℕ} {c : ℤ} (hpos : 0 < ngroup.toInt) :
    splitColor np ngroup rank = .ok c ↔
      rank * ngroup.toNat < 2 ^ 31 ∧ c = ((rank * ngroup.toNat / np : ℕ) : ℤ) := by
  have hnat : ngroup.toInt = (ngroup.toNat : ℤ) := toInt_eq_of_pos hpos
  have hcast : (rank : ℤ) * ngroup.toInt = ((rank * ngroup.toNat : ℕ) : ℤ) := by
    rw [hnat]
    push_cast
    rfl
  unfold splitColor
  rw [hcast]
  split
  · rename_i hover
    simp only [reduceCtorEq, false_iff, not_and]
    intro hlt
    omega
  · rename_i hfits
    rw [Except.ok.injEq, Int.ofNat_tdiv]
    constructor
    · intro h
      exact ⟨by omega, h.symm⟩
    · intro h
      exact h.2.symm

/-- The colors are those the groups are made of. -/
theorem splitColor_color {l : Launch} {ngroup : I32} {rank : ℕ} {c : ℤ} (hpos : 0 < ngroup.toInt)
    (h : splitColor l.np ngroup rank = .ok c) : c = l.color ngroup rank := by
  rw [Launch.color, if_pos hpos]
  exact ((splitColor_eq_ok hpos).mp h).2

/-- The colors fit when the largest product does. -/
theorem colorsFit_iff {np : ℕ} {ngroup : I32} (hnp : 0 < np) (hpos : 0 < ngroup.toInt) :
    ColorsFit np ngroup ↔ (np - 1) * ngroup.toNat < 2 ^ 31 := by
  constructor
  · intro h
    obtain ⟨c, hc, -⟩ := h.bounds (np - 1) (by omega)
    exact ((splitColor_eq_ok hpos).mp hc).1
  · intro hlast
    constructor
    · intro rank hrank
      have hle : rank * ngroup.toNat ≤ (np - 1) * ngroup.toNat := Nat.mul_le_mul_right _ (by omega)
      refine ⟨_, (splitColor_eq_ok hpos).mpr ⟨hle.trans_lt hlast, rfl⟩, Int.natCast_nonneg _, ?_⟩
      rw [toInt_eq_of_pos hpos, Nat.cast_lt, Nat.div_lt_iff_lt_mul hnp, Nat.mul_comm]
      have hngroup : 0 < ngroup.toNat := by
        have := toInt_eq_of_pos hpos
        omega
      exact Nat.mul_lt_mul_of_pos_left hrank hngroup
    · intro r s c d hrs _ hc hd
      rw [((splitColor_eq_ok hpos).mp hc).2, ((splitColor_eq_ok hpos).mp hd).2, Nat.cast_le]
      exact Nat.div_le_div_right (Nat.mul_le_mul_right _ hrs)

/-- Two numberings that are the same on the processes. -/
theorem Numbered.congr {color : ℕ → ℕ} {np : ℕ} {number number' : ℕ → ℕ × ℕ} (h : Numbered color np number)
    (heq : ∀ rank < np, number' rank = number rank) : Numbered color np number' := by
  constructor
  · intro rank hrank
    rw [heq rank hrank]
    exact h.ngroup rank hrank
  · intro r hr s hs
    rw [heq r hr, heq s hs]
    exact h.groupId r hr s hs
  · rw [← h.numbers]
    apply Finset.image_congr
    intro rank hrank
    simp only [heq rank (by simpa using hrank)]

/-- For so many subfiles every process takes the color of its group, and `H5VL_log_filei_calc_node_rank` numbers
the groups. -/
theorem calcNodeRank_numbered (l : Launch) {ngroup : I32} (hpos : 0 < ngroup.toInt)
    (hfits : (l.np - 1) * ngroup.toNat < 2 ^ 31) :
    ∃ number : ℕ → NodeRank,
      (∀ rank < l.np, calcNodeRank l ngroup rank = .ok (number rank) ∧
        splitColor l.np ngroup rank = .ok (l.color ngroup rank)) ∧
      Numbered (l.color ngroup) l.np fun rank => ((number rank).groupId, (number rank).ngroup) := by
  have hno : ¬ (0 < ngroup.toInt ∧ 2 ^ 31 ≤ (l.np - 1) * ngroup.toNat) := by
    omega
  have hcalc : ∀ rank, ∃ n, calcNodeRank l ngroup rank = .ok n := by
    intro rank
    unfold calcNodeRank
    rw [if_neg hno]
    exact ⟨_, rfl⟩
  choose number hnumber using hcalc
  refine ⟨number, ?_, ?_⟩
  · intro rank hrank
    obtain ⟨c, hc, -⟩ := ((colorsFit_iff l.np_pos hpos).mpr hfits).bounds rank hrank
    refine ⟨hnumber rank, ?_⟩
    rw [hc, splitColor_color hpos hc]
  · apply (numberRanks_numbered (l.color ngroup) l.np).congr
    intro rank hrank
    exact calcNodeRank_number hrank (hnumber rank)

/-- **`groupNumbering_iff`** — the processes are divided into so many groups, by rank, and the groups of any
division are numbered, exactly when the product of the last rank and the number of subfiles is below `2 ^ 31`. -/
theorem groupNumbering_iff (l : Launch) (ngroup : I32) (hpos : 0 < ngroup.toInt) :
    (ColorsFit l.np ngroup ∧ ∀ color, Numbered color l.np (numberRanks color l.np)) ↔
      (l.np - 1) * ngroup.toNat < 2 ^ 31 := by
  rw [colorsFit_iff l.np_pos hpos]
  constructor
  · intro h
    exact h.1
  · intro h
    refine ⟨h, ?_⟩
    intro color
    exact numberRanks_numbered color l.np

/-- Three processes in two groups. -/
theorem groupNumbering_three :
    0 < (2 : I32).toInt ∧ ColorsFit 3 2 ∧ ∀ color, Numbered color 3 (numberRanks color 3) :=
  ⟨by decide, (groupNumbering_iff ⟨3, fun _ => 0, by decide, by decide⟩ 2 (by decide)).mpr (by decide)⟩

/-- Four processes in `2 ^ 30` groups: the product of the third one is `2 ^ 31`, whose word is that of a negative
color. -/
theorem groupNumbering_overflow :
    splitColor 4 1073741824 2 = .error .outside ∧ cInt (2 * 1073741824) = -2147483648 ∧
      ¬ ColorsFit 4 1073741824 := by
  refine ⟨by decide, by decide, ?_⟩
  intro h
  obtain ⟨c, hc, -⟩ := h.bounds 2 (by decide)
  cases hc

end LogVol
