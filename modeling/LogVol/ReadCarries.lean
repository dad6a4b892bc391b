/-
# LogVol.ReadCarries — a read in which no byte of the file goes to two places.

Where no two results share a byte of the file, rows are not trimmed and nothing is copied: the types carry the
elements of the results and nothing else (`readiGenRtypes_carries`). They come in the order of the data blocks, so
that a byte of memory which several results go to ends up with what is last in the file (`readRuns_last`).
-/
import LogVol.ReadExact
import LogVol.ReadView

namespace LogVol

open Lib (Move Store)

/-! ## §1 — groups. -/

theorem RowsApart.perm {rows rows' : List Move} (h : RowsApart rows) (hperm : rows'.Perm rows) :
    RowsApart rows' := by
  refine (hperm.pairwise_iff ?_).mpr h
  intro k l hkl x ⟨hl, hk⟩
  exact hkl x ⟨hk, hl⟩

/-- Rows that share no byte are through one before the other, once they are sorted. -/
theorem sortoffsets_apart {rows : List Move} (hpos : ∀ m ∈ rows, 0 < m.len) (h : RowsApart rows) :
    (sortoffsets rows).Pairwise fun k l => k.stop ≤ l.src := by
  obtain ⟨hperm, hsorted⟩ := sortoffsets_spec rows
  have hboth := List.Pairwise.and (h.perm hperm) hsorted
  refine hboth.imp_of_mem ?_
  intro k l hk hl hkl
  by_contra hlt
  have hkpos := hpos k (hperm.mem_iff.mp hk)
  have hlpos := hpos l (hperm.mem_iff.mp hl)
  refine hkl.1 l.src ⟨⟨hkl.2, ?_⟩, le_rfl, ?_⟩
  · omega
  · unfold Move.stop
    omega

/-- **A group in which no byte is read twice** carries the elements of its results, and nothing is copied. -/
theorem genGroup_carries {g : List Intersec} (hne : g ≠ []) (h : ∀ b ∈ g, b.Placed ∧ b.zbuf = none)
    (hfit : GroupFits g) (hapart : g.Pairwise Intersec.ApartFrom) :
    ∃ runs, genGroup g = .ok (runs, []) ∧ (∀ m ∈ runs, 0 ≤ m.len) ∧
      ∀ x d, (∃ m ∈ runs, m.Carries x d) ↔ ∃ b ∈ g, b.Reads x d := by
  rcases g with _ | ⟨a, _ | ⟨b, g⟩⟩
  · exact absurd rfl hne
  · obtain ⟨ha, hz⟩ := h a (List.mem_singleton_self a)
    have hes : a.exactLen < 2 ^ 31 := hfit
    rw [Intersec.exactLen, hz] at hes
    obtain ⟨runs, hruns, htakes, hcarries⟩ := genGroup_single ha (Int.ofNat_lt.mp hes) hz
    exact ⟨runs, hruns, htakes.nonneg, fun x d => by simpa using hcarries x d⟩
  · have hfit : ∀ c ∈ a :: b :: g, c.info.ndim ≠ 0 ∧ c.exactRowLen < 2 ^ 31 ∧ c.exactNrow < 2 ^ 31 := hfit
    obtain ⟨rows, hrows, hspec⟩ := groupRows fun c hc => ⟨(h c hc).1, (hfit c hc).1, (hfit c hc).2.1⟩
    obtain ⟨htrim, hcopies⟩ := trimRows_of_apart (sortoffsets_apart hspec.pos (hspec.apart hapart))
    have hperm := (sortoffsets_spec rows.flatten).1
    refine ⟨sortoffsets rows.flatten, ?_, ?_, fun x d => ?_⟩
    · rw [genGroup_many, hrows]
      show Except.ok (trimRows (sortoffsets rows.flatten), copiesOf (sortoffsets rows.flatten)) = _
      rw [htrim, hcopies]
    · exact fun m hm => (hspec.pos m (hperm.mem_iff.mp hm)).le
    · rw [← hspec.carries x d]
      simp only [hperm.mem_iff]

/-! ## §2 — the types. -/

/-- Of two results, what goes to one byte of memory comes in the order of the data blocks. -/
def InBlockOrder (bs : List Intersec) : Prop :=
  ∀ a ∈ bs, ∀ b ∈ bs, a.pos ≤ b.pos → ∀ x y d, a.Reads x d → b.Reads y d → x ≤ y

/-- What goes to one byte of memory comes in the order of the file. -/
def LastWins (runs : List Move) : Prop :=
  runs.Pairwise fun k l => ∀ x y d, k.Carries x d → l.Carries y d → x ≤ y

theorem mem_groups_iff {std : BlockSort} {bs : List Intersec} {b : Intersec} :
    b ∈ bs ↔ ∃ g ∈ splitGroups (std.sort bs), b ∈ g := by
  rw [← List.mem_flatten, splitGroups_flatten, (std.perm bs).mem_iff]

/-- The runs of the groups, which come in the order of the data blocks. -/
theorem lastWins_groups {std : BlockSort} {bs : List Intersec} (horder : InBlockOrder bs)
    (hcarries : ∀ g ∈ splitGroups (std.sort bs), ∀ m ∈ groupRuns g, ∀ x d, m.Carries x d → ∃ b ∈ g, b.Reads x d) :
    LastWins ((splitGroups (std.sort bs)).flatMap groupRuns) := by
  rw [LastWins, List.pairwise_flatMap]
  constructor
  · -- two runs of one data block
    intro g hg
    refine List.pairwise_of_forall_mem_list ?_
    intro k hk l hl x y d hx hy
    obtain ⟨a, ha, hax⟩ := hcarries g hg k hk x d hx
    obtain ⟨b, hb, hby⟩ := hcarries g hg l hl y d hy
    obtain ⟨hfoff, hdoff⟩ := (splitGroups_oneBlock _ g hg).same a ha b hb
    have hpos : a.pos = b.pos := by rw [Intersec.pos, Intersec.pos, hfoff, hdoff]
    exact horder a (mem_of_group hg a ha) b (mem_of_group hg b hb) hpos.le x y d hax hby
  · -- two runs of groups that are sorted
    have hsorted := std.sortedBlocks bs
    rw [SortedBlocks, ← splitGroups_flatten (std.sort bs), List.pairwise_flatten] at hsorted
    refine hsorted.2.imp_of_mem ?_
    intro g g' hg hg' hle k hk l hl x y d hx hy
    obtain ⟨a, ha, hax⟩ := hcarries g hg k hk x d hx
    obtain ⟨b, hb, hby⟩ := hcarries g' hg' l hl y d hy
    exact horder a (mem_of_group hg a ha) b (mem_of_group hg' b hb) (hle a ha b hb) x y d hax hby

/-- **The types of a read** in which no byte is read twice. -/
theorem readiGenRtypes_carries {std : BlockSort} {bs : List Intersec} (h : ∀ b ∈ bs, b.Placed ∧ b.zbuf = none)
    (hfit : TypesFit std bs) (hapart : bs.Pairwise Intersec.ApartFrom) (horder : InBlockOrder bs) :
    ∃ runs, readiGenRtypes std bs = .ok (runs, []) ∧ LastWins runs ∧
      ∀ x d, (∃ m ∈ runs, m.Carries x d) ↔ ∃ b ∈ bs, b.Reads x d := by
  have hsym : ∀ {a b : Intersec}, a.ApartFrom b → b.ApartFrom a := fun hab x hx => hab x ⟨hx.2, hx.1⟩
  -- Being apart does not depend on the order, so it holds of the sorted results, and in each group.
  have hpairs := ((std.perm bs).pairwise_iff hsym).mpr hapart
  rw [← splitGroups_flatten (std.sort bs), List.pairwise_flatten] at hpairs
  have hgroup : ∀ g ∈ splitGroups (std.sort bs), ∃ p, genGroup g = .ok p ∧ p.2 = [] ∧
      (∀ m ∈ groupRuns g, 0 ≤ m.len) ∧ ∀ x d, (∃ m ∈ groupRuns g, m.Carries x d) ↔ ∃ b ∈ g, b.Reads x d := by
    intro g hg
    obtain ⟨runs, hruns, hlen, hcarries⟩ := genGroup_carries (splitGroups_oneBlock _ g hg).nonempty
      (fun b hb => h b (mem_of_group hg b hb)) (hfit.groups g hg) (hpairs.1 g hg)
    rw [groupRuns_eq hruns]
    exact ⟨_, hruns, rfl, hlen, hcarries⟩
  obtain ⟨parts, hparts, hspec⟩ := Lib.exists_mapM_ok hgroup
  have hruns := flatMap_runs hparts
  have hcopies : parts.flatMap Prod.snd = [] := by
    rw [List.flatMap_eq_nil_iff]
    intro p hp
    obtain ⟨g, hg, hgp⟩ := Lib.mem_of_mapM_ok hparts hp
    obtain ⟨p', hp', hnil, -⟩ := hgroup g hg
    obtain rfl := Except.ok.inj (hgp.symm.trans hp')
    exact hnil
  have hlen : ∀ m ∈ parts.flatMap Prod.fst, 0 ≤ m.len := by
    intro m hm
    rw [hruns] at hm
    obtain ⟨g, hg, hm⟩ := List.mem_flatMap.mp hm
    obtain ⟨p, -, -, hlen, -⟩ := hgroup g hg
    exact hlen m hm
  have hcarries : ∀ g ∈ splitGroups (std.sort bs), ∀ m ∈ groupRuns g, ∀ x d, m.Carries x d →
      ∃ b ∈ g, b.Reads x d := by
    intro g hg m hm x d hmx
    obtain ⟨p, -, -, -, hcarries⟩ := hgroup g hg
    exact (hcarries x d).mp ⟨m, hm, hmx⟩
  refine ⟨parts.flatMap Prod.fst, ?_, ?_, fun x d => ?_⟩
  · rw [readiGenRtypes, hparts, Lib.ok_bind, hcopies]
    exact if_pos hlen
  · rw [hruns]
    exact lastWins_groups horder hcarries
  · rw [hruns]
    constructor
    · rintro ⟨m, hm, hx⟩
      obtain ⟨g, hg, hm⟩ := List.mem_flatMap.mp hm
      obtain ⟨b, hb, hbx⟩ := hcarries g hg m hm x d hx
      exact ⟨b, mem_groups_iff.mpr ⟨g, hg, hb⟩, hbx⟩
    · rintro ⟨b, hb, hbx⟩
      obtain ⟨g, hg, hbg⟩ := mem_groups_iff.mp hb
      obtain ⟨p, -, -, -, hcarries⟩ := hgroup g hg
      obtain ⟨m, hm, hx⟩ := (hcarries x d).mpr ⟨b, hbg, hbx⟩
      exact ⟨m, List.mem_flatMap.mpr ⟨g, hg, hm⟩, hx⟩

/-! ## §3 — memory after the read. -/

/-- Where several bytes go to one place, in the order of where they come from, the last of them is there. -/
theorem scatter_last {ms : List (ℕ × ℕ)} (horder : ms.Pairwise fun k l => k.1 = l.1 → k.2 ≤ l.2) {src dst : Store}
    {m : ℕ × ℕ} (hm : m ∈ ms) (hmax : ∀ k ∈ ms, k.1 = m.1 → k.2 ≤ m.2) : scatter ms src dst m.1 = src m.2 := by
  induction ms generalizing dst m with
  | nil => exact absurd hm List.not_mem_nil
  | cons n ms ih =>
    rw [List.pairwise_cons] at horder
    rw [List.forall_mem_cons] at hmax
    obtain ⟨hn, horder⟩ := horder
    obtain ⟨-, hmax⟩ := hmax
    show scatter ms src (Function.update dst n.1 (src n.2)) m.1 = src m.2
    rcases List.mem_cons.mp hm with rfl | hm
    · by_cases hagain : ∃ k ∈ ms, k.1 = m.1
      · obtain ⟨k, hk, hkm⟩ := hagain
        have hle := hmax k hk hkm
        have heq : k.2 = m.2 := Nat.le_antisymm hle (hn k hk hkm.symm)
        rw [← hkm, ← heq]
        refine ih horder hk ?_
        intro l hl hlk
        rw [heq]
        exact hmax l hl (hlk.trans hkm)
      · push Not at hagain
        rw [scatter_of_notMem hagain]
        exact Function.update_self ..
    · exact ih horder hm hmax

/-- A run goes byte by byte. -/
theorem mem_runBytes {m : Move} (hm : 0 < m.len → 0 ≤ m.src ∧ 0 ≤ m.dst) {d x : ℕ} :
    (d, x) ∈ runBytes m.dst m.src m.len ↔ m.Carries x d := by
  unfold runBytes Move.Carries Move.Takes Move.stop
  simp only [List.mem_map, List.bind_eq_flatMap, List.pure_def, List.mem_flatMap, List.mem_range,
    List.mem_singleton, Prod.mk.injEq]
  constructor
  · rintro ⟨_, ⟨i, hi, rfl⟩, rfl, rfl⟩
    have hm := hm (by omega)
    omega
  · rintro ⟨⟨hlo, hhi⟩, hd⟩
    have hm := hm (by omega)
    exact ⟨_, ⟨(x - m.src).toNat, by omega, rfl⟩, by omega, by omega⟩

section Memory

variable {runs : List Move} (hplaces : ∀ m ∈ runs, 0 < m.len → 0 ≤ m.src ∧ 0 ≤ m.dst) (file buf : Store)
include hplaces

/-- **What is last in the file** is what a byte of memory has after the read. -/
theorem readRuns_last (horder : LastWins runs) {x d : ℕ} (hx : ∃ m ∈ runs, m.Carries x d)
    (hmax : ∀ y : ℕ, (∃ m ∈ runs, m.Carries y d) → y ≤ x) : readRuns runs file buf d = file x := by
  obtain ⟨m, hm, hmx⟩ := hx
  have hmem : (d, x) ∈ runs.flatMap fun m => runBytes m.dst m.src m.len :=
    List.mem_flatMap.mpr ⟨m, hm, (mem_runBytes (hplaces m hm)).mpr hmx⟩
  refine scatter_last ?_ hmem ?_
  · rw [List.pairwise_flatMap]
    constructor
    · intro k hk
      refine List.pairwise_of_forall_mem_list ?_
      rintro ⟨d₁, x₁⟩ h₁ ⟨d₂, x₂⟩ h₂ heq
      have hc₁ := (mem_runBytes (hplaces k hk)).mp h₁
      have hc₂ := (mem_runBytes (hplaces k hk)).mp h₂
      unfold Move.Carries at hc₁ hc₂
      dsimp only at heq ⊢
      omega
    · refine horder.imp_of_mem ?_
      rintro k l hk hl hkl ⟨d₁, x₁⟩ h₁ ⟨d₂, x₂⟩ h₂ heq
      obtain rfl : d₁ = d₂ := heq
      have hle := hkl x₁ x₂ d₁ ((mem_runBytes (hplaces k hk)).mp h₁) ((mem_runBytes (hplaces l hl)).mp h₂)
      exact Int.ofNat_le.mp hle
  · rintro ⟨d', y⟩ hk rfl
    obtain ⟨l, hl, hly⟩ := List.mem_flatMap.mp hk
    exact hmax y ⟨l, hl, (mem_runBytes (hplaces l hl)).mp hly⟩

/-- What nothing goes to is as it was. -/
theorem readRuns_none {d : ℕ} (h : ∀ x : ℕ, ¬ ∃ m ∈ runs, m.Carries x d) : readRuns runs file buf d = buf d := by
  refine scatter_of_notMem ?_
  rintro ⟨d', x⟩ hx rfl
  obtain ⟨m, hm, hmx⟩ := List.mem_flatMap.mp hx
  exact h x ⟨m, hm, (mem_runBytes (hplaces m hm)).mp hmx⟩

end Memory

end LogVol
