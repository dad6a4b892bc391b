/-
# LogVol.HyperOrder — the order in which a hyperslab selection lists its elements.

The blocks HDF5 returns begin in lexicographic order, and of two the one lies before the other in the first
dimension in which they differ. From this: only blocks of one group interleave, since comparing neighbours
is enough (`Span.reach`, `blockGroups_apart`); the odometer walks a block row by row (`Walks`); rows of
disjoint blocks, once sorted by their start, follow one another (`rows_pairwise_lt`). What remains are the
counts kept in `int`s and the slots the groups are filled in through: `hyperOrder_iff` says which selections
they carry, and a block that is written over is missed (`fillGroups_lost`).
-/
import LogVol.HyperBlocks
import Mathlib.Data.List.SplitBy

namespace LogVol

open Lib (Box)

/-! ## §1 — what HDF5 returns. -/

/-- The ranges of two blocks are disjoint in the first dimension in which they differ. -/
def Span.Apart : Span → Span → Prop
  | p :: a, q :: b => if p = q then Span.Apart a b else p.2 < q.1 ∨ q.2 < p.1
  | _, _ => False

/-- The first block ends before the second begins, in the first dimension in which they differ. -/
def Span.Before : Span → Span → Prop
  | p :: a, q :: b => p.2 < q.1 ∨ p = q ∧ Span.Before a b
  | _, _ => False

/-- Two or more blocks as HDF5 lists them: none is empty, they are listed in the order of their start
corners, and any two are apart. -/
structure HdfBlocks (ndim : ℕ) (blocks : List Span) : Prop where
  rank_pos : 1 ≤ ndim
  several : 2 ≤ blocks.length
  rank : ∀ b ∈ blocks, b.length = ndim
  ordered : ∀ b ∈ blocks, b.Ordered
  sorted : blocks.Pairwise fun a b => a.first ≤ b.first
  apart : blocks.Pairwise Span.Apart

theorem Span.Ordered.head {p : ℕ × ℕ} {s : Span} (h : Span.Ordered (p :: s)) : p.1 ≤ p.2 :=
  h p (List.mem_cons_self ..)

theorem Span.Ordered.tail {p : ℕ × ℕ} {s : Span} (h : Span.Ordered (p :: s)) : Span.Ordered s :=
  fun q hq => h q (List.mem_cons_of_mem p hq)

theorem Span.before_of_apart {a b : Span} (ha : a.Ordered) (hb : b.Ordered) (hapart : a.Apart b)
    (hle : a.first ≤ b.first) : a.Before b := by
  induction a generalizing b with
  | nil => cases hapart
  | cons p a ih =>
      rcases b with _ | ⟨q, b⟩
      · cases hapart
      rw [Span.Apart] at hapart
      simp only [Span.first, List.map_cons, Lib.cons_le_cons_iff_lex] at hle
      split at hapart
      · rename_i heq
        subst heq
        refine Or.inr ⟨rfl, ih ha.tail hb.tail hapart ?_⟩
        rcases hle with hlt | ⟨-, hle⟩
        · exact absurd hlt (lt_irrefl _)
        · exact hle
      · rcases hapart with hlt | hgt
        · exact Or.inl hlt
        · -- the second cannot end before the first begins, as it does not begin before it
          have hq := hb.head
          rcases hle with hlt | ⟨heq, -⟩ <;> omega

theorem Span.Before.first_lt {a b : Span} (ha : a.Ordered) (h : a.Before b) : a.first < b.first := by
  induction a generalizing b with
  | nil => cases h
  | cons p a ih =>
      rcases b with _ | ⟨q, b⟩
      · cases h
      have hp := ha.head
      rcases h with hlt | ⟨rfl, h⟩
      · exact Lib.lt_of_heads (lt_of_le_of_lt hp hlt)
      · exact List.cons_lt_cons_iff.mpr (Or.inr ⟨rfl, ih ha.tail h⟩)

theorem Span.Before.disjoint {a b : Span} (ha : a.Ordered) (h : a.Before b) {x : List ℕ}
    (hx : x ∈ a.box.cells) : x ∉ b.box.cells := by
  induction a generalizing b x with
  | nil => cases h
  | cons p a ih =>
      rcases b with _ | ⟨q, b⟩
      · cases h
      obtain ⟨i, y, rfl⟩ := List.exists_cons_of_length_eq_add_one (Box.length_of_mem hx)
      intro hx'
      obtain ⟨hi, hy⟩ := Box.mem_cells_cons.mp hx
      obtain ⟨hi', hy'⟩ := Box.mem_cells_cons.mp hx'
      change p.1 ≤ i ∧ i < p.1 + (p.2 - p.1 + 1) at hi
      change q.1 ≤ i ∧ i < q.1 + (q.2 - q.1 + 1) at hi'
      have hp := ha.head
      rcases h with hlt | ⟨-, h⟩
      · omega
      · exact ih ha.tail h hy hy'

/-- **Comparing neighbours is enough**: of three blocks, the first reaches no further past the start of the
third than the second does. -/
theorem Span.reach {a b c : Span} (ha : a.Ordered) (hb : b.Ordered) (hab : a.Before b)
    (hac : a.Before c) (hbc : b.Before c) (hlt : b.last < c.first) : a.last < c.first := by
  induction a generalizing b c with
  | nil => cases hab
  | cons p a ih =>
      rcases b with _ | ⟨q, b⟩
      · cases hab
      rcases c with _ | ⟨r, c⟩
      · cases hbc
      have hp := ha.head
      have hq := hb.head
      rcases hac with hpr | ⟨rfl, hac⟩
      · exact Lib.lt_of_heads hpr
      -- the first and the third share their range, so the second, between them, has it too
      have hshared : p = q := by
        rcases hab with hpq | ⟨rfl, -⟩
        · rcases hbc with hqr | ⟨rfl, -⟩
          · omega
          · rfl
        · rfl
      subst hshared
      have hab' : Span.Before a b := by
        rcases hab with hpq | ⟨-, hab⟩
        · omega
        · exact hab
      have hbc' : Span.Before b c := by
        rcases hbc with hpq | ⟨-, hbc⟩
        · omega
        · exact hbc
      rcases List.cons_lt_cons_iff.mp hlt with hlt | ⟨heq, hlt⟩
      · exact Lib.lt_of_heads hlt
      · exact List.cons_lt_cons_iff.mpr (Or.inr ⟨heq, ih ha.tail hb.tail hab' hac hbc' hlt⟩)

/-- What the merging keeps holds of the blocks at first. -/
theorem HdfBlocks.before {ndim : ℕ} {blocks : List Span} (h : HdfBlocks ndim blocks) :
    blocks.Pairwise Span.Before :=
  (h.sorted.and h.apart).imp_of_mem fun ha hb hab =>
    Span.before_of_apart (h.ordered _ ha) (h.ordered _ hb) hab.2 hab.1

theorem triplewise_of_pairwise {α : Type} {r : α → α → Prop} {q : α → α → α → Prop} {l : List α}
    (h : l.Pairwise r) (hq : ∀ a ∈ l, ∀ b ∈ l, ∀ c ∈ l, r a b → r a c → r b c → q a b c) :
    l.Triplewise q := by
  induction h with
  | nil => exact List.Triplewise.nil
  | @cons a l ha hl ih =>
      rw [List.triplewise_cons]
      constructor
      · refine hl.imp_of_mem fun hb hc hbc => ?_
        exact hq a (List.mem_cons_self ..) _ (List.mem_cons_of_mem a hb) _ (List.mem_cons_of_mem a hc)
          (ha _ hb) (ha _ hc) hbc
      · apply ih
        intro b hb c hc d hd
        exact hq b (List.mem_cons_of_mem a hb) c (List.mem_cons_of_mem a hc) d (List.mem_cons_of_mem a hd)

theorem HdfBlocks.spansKept {ndim : ℕ} {blocks : List Span} (h : HdfBlocks ndim blocks) :
    SpansKept ndim (blocks.flatMap fun b => b.box.cells) blocks := by
  refine ⟨h.rank, h.ordered, ?_, ?_, List.Perm.refl _⟩
  · exact h.before.imp_of_mem fun ha _ hab => hab.first_lt (h.ordered _ ha)
  · refine triplewise_of_pairwise h.before fun a ha b hb c _ hab hac hbc hlt => ?_
    exact Span.reach (h.ordered a ha) (h.ordered b hb) hab hac hbc hlt

/-- Blocks that are apart share no element. -/
theorem HdfBlocks.nodup {ndim : ℕ} {blocks : List Span} (h : HdfBlocks ndim blocks) :
    (blocks.flatMap fun b => b.box.cells).Nodup := by
  rw [List.nodup_flatMap]
  refine ⟨fun b _ => Box.cells_nodup _, h.before.imp_of_mem fun ha _ hab => ?_⟩
  exact List.disjoint_left.mpr fun x hx => hab.disjoint (h.ordered _ ha) hx

/-! ## §2 — groups. -/

/-- Blocks of different groups do not interleave. -/
def GroupsApart (gs : List (List Span)) : Prop :=
  gs.Pairwise fun g k => ∀ a ∈ g, ∀ b ∈ k, a.last < b.first

theorem groupsApart_of_chain {gs : List (List Span)} (hne : [] ∉ gs)
    (hchain : gs.IsChain fun g k => ∃ hg hk, (g.getLast hg).last < (k.head hk).first)
    (hsorted : gs.flatten.Pairwise fun a b => a.first < b.first)
    (hreach : gs.flatten.Triplewise fun a b c => b.last < c.first → a.last < c.first) :
    GroupsApart gs := by
  induction gs with
  | nil => exact List.Pairwise.nil
  | cons g gs ih =>
      have hgs : GroupsApart gs := by
        rw [List.flatten_cons] at hsorted hreach
        apply ih
        · exact fun h => hne (List.mem_cons_of_mem g h)
        · exact hchain.tail
        · exact (List.pairwise_append.mp hsorted).2.1
        · exact (List.triplewise_append.mp hreach).2.1
      refine List.pairwise_cons.mpr ⟨?_, hgs⟩
      rcases gs with _ | ⟨k, gs⟩
      · exact fun k hk => absurd hk List.not_mem_nil
      obtain ⟨⟨hg, hk, hlast⟩, -⟩ := List.isChain_cons_cons.mp hchain
      -- `c` closes the group and `e` opens the next one
      obtain ⟨g, c, rfl⟩ : ∃ g' c, g = g' ++ [c] := ⟨_, _, (List.dropLast_append_getLast hg).symm⟩
      obtain ⟨e, k, rfl⟩ := List.exists_cons_of_ne_nil hk
      rw [List.getLast_append_singleton, List.head_cons] at hlast
      have hflat : ((g ++ [c]) :: (e :: k) :: gs).flatten = g ++ c :: e :: (k ++ gs.flatten) := by simp
      rw [hflat] at hsorted hreach
      have hfrom : ∀ a ∈ g ++ [c], a.last < e.first := by
        intro a ha
        rcases List.mem_append.mp ha with ha | ha
        · have hpairs := (List.triplewise_append.mp hreach).2.2.1 a ha
          exact List.rel_of_pairwise_cons hpairs (List.mem_cons_self ..) hlast
        · obtain rfl := List.mem_singleton.mp ha
          exact hlast
      intro k' hk' a ha b hb
      have hb' : b ∈ e :: (k ++ gs.flatten) := by
        rcases List.mem_cons.mp hk' with rfl | hk'
        · exact List.mem_append_left _ hb
        · exact List.mem_cons_of_mem e (List.mem_append_right k (List.mem_flatten.mpr ⟨k', hk', hb⟩))
      refine lt_of_lt_of_le (hfrom a ha) ?_
      rcases List.mem_cons.mp hb' with rfl | hb'
      · exact le_rfl
      · have hrest := (List.pairwise_append.mp hsorted).2.1.of_cons
        exact le_of_lt (List.rel_of_pairwise_cons hrest hb')

/-- **The groups the neighbours give do not interleave.** -/
theorem blockGroups_apart {n : ℕ} {cells : List (List ℕ)} {bs : List Span} (h : SpansKept n cells bs) :
    GroupsApart (blockGroups bs) := by
  have hflat : (blockGroups bs).flatten = bs := List.flatten_splitBy _ bs
  apply groupsApart_of_chain
  · exact List.nil_notMem_splitBy _ bs
  · have hchain := List.isChain_getLast_head_splitBy
      (fun a b : Span => !lessthan (Span.last a) (Span.first b)) bs
    have hrank : ∀ g ∈ blockGroups bs, ∀ s ∈ g, s.length = n := by
      intro g hg s hs
      exact h.rank s (hflat ▸ List.mem_flatten.mpr ⟨g, hg, hs⟩)
    apply hchain.imp_of_mem_imp
    intro g k hg hk hneighbours
    obtain ⟨hg', hk', hlast⟩ := hneighbours
    refine ⟨hg', hk', ?_⟩
    rw [Bool.not_eq_false'] at hlast
    refine (lessthan_iff ?_).mp hlast
    rw [Span.last, Span.first, List.length_map, List.length_map, hrank g hg _ (List.getLast_mem hg'),
      hrank k hk _ (List.head_mem hk')]
  · rw [hflat]
    exact h.sorted
  · rw [hflat]
    exact h.reach

/-! ## §3 — the odometer. -/

/-- What the odometer does on the indices of a block: it steps from each to the next, overflows at the
last, and begins at the first. -/
structure Walks (lead : Span) : Prop where
  chain : lead.box.cells.IsChain fun a b => carryRow lead a = (false, b)
  stop : ∀ x ∈ lead.box.cells.getLast?, carryRow lead x = (true, lead.first) ∧ x = lead.last
  head : lead.box.cells.head? = some lead.first

/-- The same from index `lo` of the first dimension on, which ends at `lo + n`. -/
theorem walks_from {p : ℕ × ℕ} {s : Span} (hs : Walks s) {lo n : ℕ} (hend : lo + n = p.2) :
    let cells := (List.range' lo (n + 1)).flatMap fun i => s.box.cells.map (i :: ·)
    (cells.IsChain fun a b => carryRow (p :: s) a = (false, b)) ∧
      (∀ x ∈ cells.getLast?, carryRow (p :: s) x = (true, p.1 :: s.first) ∧ x = p.2 :: s.last) ∧
      cells.head? = some (lo :: s.first) := by
  -- along one index of the first dimension the odometer turns the others only
  have hrow (i : ℕ) : (s.box.cells.map (i :: ·)).IsChain fun a b => carryRow (p :: s) a = (false, b) := by
    rw [List.isChain_map]
    refine hs.chain.imp fun a b hab => ?_
    simp [carryRow, hab]
  have hlast (i : ℕ) : ∀ x ∈ (s.box.cells.map (i :: ·)).getLast?,
      x = i :: s.last ∧ carryRow s s.last = (true, s.first) := by
    intro x hx
    rw [List.getLast?_map] at hx
    obtain ⟨y, hy, rfl⟩ := Option.mem_map.mp hx
    obtain ⟨hcarry, rfl⟩ := hs.stop y hy
    exact ⟨rfl, hcarry⟩
  have hfirst (i : ℕ) : (s.box.cells.map (i :: ·)).head? = some (i :: s.first) := by
    rw [List.head?_map, hs.head]
    rfl
  induction n generalizing lo with
  | zero =>
      simp only [Nat.zero_add, List.range'_one, List.flatMap_singleton]
      refine ⟨hrow lo, fun x hx => ?_, hfirst lo⟩
      obtain ⟨rfl, hcarry⟩ := hlast lo x hx
      have hlo : lo = p.2 := by omega
      simp [carryRow, hcarry, hlo]
  | succ n ih =>
      obtain ⟨hchain, hstop, hhead⟩ := @ih (lo + 1) (by omega)
      rw [List.range'_succ, List.flatMap_cons]
      refine ⟨List.isChain_append.mpr ⟨hrow lo, hchain, fun x hx y hy => ?_⟩, fun x hx => ?_, ?_⟩
      · -- from the last of one index to the first of the next
        obtain ⟨rfl, hcarry⟩ := hlast lo x hx
        obtain rfl := Option.some.inj (hhead.symm.trans hy)
        have hroom : ¬ p.2 < lo + 1 := by omega
        simp [carryRow, hcarry, hroom]
      · apply hstop
        rw [List.getLast?_append] at hx
        obtain ⟨z, hz⟩ : ∃ z, ((List.range' (lo + 1) (n + 1)).flatMap fun i =>
            s.box.cells.map (i :: ·)).getLast? = some z := by
          rw [← Option.isSome_iff_exists, List.getLast?_isSome]
          intro hnil
          rw [hnil] at hhead
          cases hhead
        rw [hz] at hx ⊢
        exact hx
      · rw [List.head?_append, hfirst]
        rfl

theorem walks {lead : Span} (h : lead.Ordered) : Walks lead := by
  induction lead with
  | nil =>
      refine ⟨List.isChain_singleton _, fun x hx => ?_, rfl⟩
      obtain rfl := Option.some.inj hx
      exact ⟨rfl, rfl⟩
  | cons p s ih =>
      have hend : p.1 + (p.2 - p.1) = p.2 := by
        have := h.head
        omega
      obtain ⟨hchain, hstop, hhead⟩ := walks_from (ih h.tail) hend
      exact ⟨hchain, hstop, hhead⟩

/-- Where the odometer does not overflow there is another row, and it is the one it turns to. -/
theorem nextRow_of_carryRow {lead : Span} {a b : List ℕ} (h : carryRow lead a = (false, b)) :
    moreRows lead a = true ∧ nextRow lead a = b := by
  induction lead generalizing a b with
  | nil => cases h
  | cons p s ih =>
      rcases a with _ | ⟨i, a⟩
      · cases h
      rw [carryRow] at h
      rcases hturn : carryRow s a with ⟨carry, a'⟩
      rw [hturn] at h
      cases carry with
      | false =>
          obtain ⟨-, rfl⟩ := Prod.mk.inj h
          have hmore := (ih hturn).1
          constructor
          · simp only [moreRows, List.zip_cons_cons, List.any_cons] at hmore ⊢
            rw [hmore, Bool.or_true]
          · simp [nextRow, hturn]
      | true =>
          simp only [if_true] at h
          split at h
          · cases h
          · rename_i hroom
            obtain ⟨-, rfl⟩ := Prod.mk.inj h
            have hlt : i < p.2 := by omega
            constructor
            · simp [moreRows, hlt]
            · simp [nextRow, hturn]

theorem moreRows_last (lead : Span) : moreRows lead lead.last = false := by
  rw [moreRows, Bool.eq_false_iff, ne_eq, List.any_eq_true]
  rintro ⟨⟨i, p⟩, hmem, hlt⟩
  have heq : i = p.2 := by
    induction lead with
    | nil => cases hmem
    | cons q s ih =>
        rcases List.mem_cons.mp hmem with heq | hmem
        · cases heq
          rfl
        · exact ih hmem
  have hlt' : i < p.2 := of_decide_eq_true hlt
  omega

/-! ## §4 — the rows of a block. -/

/-- The rows of a block, one for each choice of indices in the dimensions before the last. -/
def cutRows (s : Span) : List Box :=
  (Span.box s.dropLast).cells.map (rowBox (s.getLastD (0, 0)))

/-- **The odometer lists the rows of a block.** -/
theorem rowsFrom_eq {lead : Span} (tail : ℕ × ℕ) (h : lead.Ordered) {cap : ℕ} :
    rowsFrom lead tail cap lead.first =
      if lead.box.cells.length ≤ cap then .ok (lead.box.cells.map (rowBox tail)) else .error .outside := by
  have hwalks := walks h
  -- From any row on: one row is written while there is room, and the odometer steps to the next.
  have hrun : ∀ (cells : List (List ℕ)) (cur : List ℕ) (cap : ℕ),
      ((cur :: cells).IsChain fun a b => carryRow lead a = (false, b)) →
      (∀ x ∈ (cur :: cells).getLast?, x = lead.last) →
      rowsFrom lead tail cap cur =
        if (cur :: cells).length ≤ cap then .ok ((cur :: cells).map (rowBox tail)) else .error .outside := by
    intro cells
    induction cells with
    | nil =>
        intro cur cap _ hlast
        obtain rfl := hlast cur rfl
        rcases cap with _ | cap
        · rfl
        · rw [rowsFrom, moreRows_last]
          simp
    | cons b cells ih =>
        intro cur cap hchain hlast
        obtain ⟨hstep, hrest⟩ := List.isChain_cons_cons.mp hchain
        obtain ⟨hmore, hnext⟩ := nextRow_of_carryRow hstep
        rcases cap with _ | cap
        · rfl
        · rw [rowsFrom, if_pos hmore, hnext, ih b cap hrest (by rwa [List.getLast?_cons_cons] at hlast)]
          simp only [List.length_cons, Nat.add_le_add_iff_right]
          split <;> rfl
  obtain ⟨cells, hcells⟩ : ∃ cells, lead.box.cells = lead.first :: cells := by
    rcases hlist : lead.box.cells with _ | ⟨x, cells⟩
    · have hhead := hwalks.head
      rw [hlist] at hhead
      cases hhead
    · have hhead := hwalks.head
      rw [hlist] at hhead
      obtain rfl := Option.some.inj hhead
      exact ⟨cells, rfl⟩
  have hchain := hwalks.chain
  have hstop := fun x hx => (hwalks.stop x hx).2
  rw [hcells] at hchain hstop ⊢
  exact hrun cells _ cap hchain hstop

theorem Span.split_last {s : Span} (hs : s ≠ []) : s.dropLast ++ [s.getLastD (0, 0)] = s := by
  rw [List.getLastD_eq_getLast?, List.getLast?_eq_some_getLast hs]
  exact List.dropLast_append_getLast hs

/-- The rows of a block have its elements. -/
theorem cutRows_cells {s : Span} (hs : s ≠ []) : (cutRows s).flatMap Box.cells = s.box.cells := by
  have hbox : s.box = Span.box s.dropLast ++ Span.box [s.getLastD (0, 0)] := by
    rw [Span.box, Span.box, Span.box, ← List.map_append, Span.split_last hs]
  rw [hbox, Box.cells_append, cutRows, List.flatMap_map]
  refine List.flatMap_congr fun cur _ => ?_
  rw [rowBox, Box.cells_append, pointBox_cells, List.flatMap_singleton]
  rfl

/-- A row: of the rank of the block, with one index in all dimensions but the last. -/
structure IsRow (n : ℕ) (row : Box) : Prop where
  rank : row.length = n
  thin : row.ThinBefore (n - 1)
  nonempty : row.Nonempty

theorem cutRows_isRow {s : Span} (hs : s ≠ []) {row : Box} (h : row ∈ cutRows s) :
    IsRow s.length row := by
  obtain ⟨cur, hcur, rfl⟩ := List.mem_map.mp h
  have hlen : (pointBox cur).length = s.length - 1 := by
    rw [pointBox, List.length_map, Box.length_of_mem hcur, Span.box_length, List.length_dropLast]
  have hpos : 0 < s.length := List.length_pos_of_ne_nil hs
  refine ⟨?_, fun p hp => ?_, fun p hp => ?_⟩
  · rw [rowBox, List.length_append, hlen, List.length_singleton]
    omega
  · rw [rowBox, List.take_append_of_le_length (by omega), ← hlen, List.take_length] at hp
    obtain ⟨x, -, rfl⟩ := List.mem_map.mp hp
    rfl
  · rcases List.mem_append.mp hp with hp | hp
    · obtain ⟨x, -, rfl⟩ := List.mem_map.mp hp
      exact le_rfl
    · obtain rfl := List.mem_singleton.mp hp
      exact Nat.le_add_left 1 _

/-- **Rows that share no element list their elements in order once they are sorted.** -/
theorem rows_pairwise_lt {n : ℕ} (hn : 1 ≤ n) {rows : List Box} (hrow : ∀ r ∈ rows, IsRow n r)
    (hnodup : (rows.flatMap Box.cells).Nodup) :
    ((sortBy Box.start rows).flatMap Box.cells).Pairwise (· < ·) := by
  have hperm := sortBy_perm Box.start rows
  have hrow' : ∀ r ∈ sortBy Box.start rows, IsRow n r := fun r hr => hrow r (hperm.mem_iff.mp hr)
  have hsorted : (sortBy Box.start rows).Pairwise fun u v => u.start ≤ v.start := by
    apply sortBy_pairwise
    intro r hr
    rw [Box.start, List.length_map, (hrow r hr).rank]
  have hdisjoint : (sortBy Box.start rows).Pairwise fun u v => List.Disjoint u.cells v.cells :=
    (List.nodup_flatMap.mp ((hperm.flatMap_right Box.cells).nodup_iff.mpr hnodup)).2
  rw [List.pairwise_flatMap]
  refine ⟨fun r _ => Box.cells_pairwise_lt r, (hsorted.and hdisjoint).imp_of_mem ?_⟩
  intro u v hu hv huv
  obtain ⟨d, rfl⟩ : ∃ d, n = d + 1 := ⟨n - 1, by omega⟩
  exact Box.cells_lt_of_thin (hrow' u hu).rank (hrow' v hv).rank (hrow' u hu).thin (hrow' v hv).thin
    (hrow' v hv).nonempty (fun x hx => List.disjoint_left.mp huv.2 hx) huv.1

/-! ## §5 — what a group becomes. -/

/-- The blocks a group becomes. -/
def groupBlocks (ndim : ℕ) : List Span → List Box
  | [s] => [s.box]
  | g => mergeBlocks false ndim (sortBy Box.start (g.flatMap cutRows))

/-- The rows a group is written as; a block that is alone is written whole. -/
def spanRows : List Span → List Box
  | [s] => [s.box]
  | g => g.flatMap cutRows

/-- They are sorted and merged. -/
theorem groupBlocks_eq (ndim : ℕ) (g : List Span) :
    groupBlocks ndim g = mergeBlocks false ndim (sortBy Box.start (spanRows g)) := by
  rcases g with _ | ⟨s, _ | ⟨t, g⟩⟩
  · rfl
  · show [s.box] = mergeBlocks false ndim [s.box]
    induction ndim with
    | zero => rfl
    | succ d ih => exact ih
  · rfl

/-- The elements of a group, in order. -/
theorem groupBlocks_cells {n : ℕ} (hn : 1 ≤ n) {g : List Span} (hrank : ∀ s ∈ g, s.length = n)
    (hnodup : (g.flatMap fun s => s.box.cells).Nodup) :
    ((groupBlocks n g).flatMap Box.cells).Pairwise (· < ·) ∧
      ((groupBlocks n g).flatMap Box.cells).Perm (g.flatMap fun s => s.box.cells) := by
  have hne : ∀ s ∈ g, s ≠ [] := by
    rintro s hs rfl
    have := hrank [] hs
    rw [List.length_nil] at this
    omega
  have hrow : ∀ r ∈ g.flatMap cutRows, IsRow n r := by
    intro r hr
    obtain ⟨s, hs, hr⟩ := List.mem_flatMap.mp hr
    rw [← hrank s hs]
    exact cutRows_isRow (hne s hs) hr
  have hcells : (g.flatMap cutRows).flatMap Box.cells = g.flatMap fun s => s.box.cells := by
    rw [List.flatMap_assoc]
    exact List.flatMap_congr fun s hs => cutRows_cells (hne s hs)
  unfold groupBlocks
  split
  · rename_i s
    simp only [List.flatMap_singleton]
    exact ⟨Box.cells_pairwise_lt _, List.Perm.refl _⟩
  · have hrow' : ∀ r ∈ sortBy Box.start (g.flatMap cutRows), IsRow n r :=
      fun r hr => hrow r ((sortBy_perm _ _).mem_iff.mp hr)
    rw [mergeBlocks_cells (fun r hr => (hrow' r hr).rank) fun r hr => (hrow' r hr).thin]
    constructor
    · exact rows_pairwise_lt hn hrow (hcells ▸ hnodup)
    · rw [← hcells]
      exact (sortBy_perm _ _).flatMap_right _

/-- The rows of a block are as many as there are indices in the dimensions before the last. -/
def rowCount (s : Span) : ℕ := (s.dropLast.map fun p => p.2 - p.1 + 1).prod

theorem cutRows_length (s : Span) : (cutRows s).length = rowCount s := by
  rw [cutRows, List.length_map, Box.cells_length, Span.box, List.map_map]
  rfl

/-- The places a group needs: one for a block that is alone, one for every row of the others. -/
def groupNeed : List Span → ℕ
  | [_] => 1
  | g => (g.map rowCount).sum

theorem spanRows_length (g : List Span) : (spanRows g).length = groupNeed g := by
  unfold spanRows groupNeed
  split
  · rfl
  · rw [List.length_flatMap]
    simp only [cutRows_length]

theorem groupNeed_pos {g : List Span} (hg : g ≠ []) : 0 < groupNeed g := by
  have hrows (s : Span) : 0 < rowCount s := by
    refine List.prod_pos fun n hn => ?_
    obtain ⟨p, -, rfl⟩ := List.mem_map.mp hn
    exact Nat.succ_pos _
  rcases g with _ | ⟨s, _ | ⟨t, g⟩⟩
  · exact absurd rfl hg
  · exact one_pos
  · show 0 < ((s :: t :: g).map rowCount).sum
    rw [List.map_cons, List.sum_cons]
    exact Nat.add_pos_left (hrows s) _

/-- What a group is written as has its elements. -/
theorem spanRows_cells {g : List Span} (hne : [] ∉ g) :
    (spanRows g).flatMap Box.cells = g.flatMap fun s => s.box.cells := by
  unfold spanRows
  split
  · rw [List.flatMap_singleton, List.flatMap_singleton]
  · rw [List.flatMap_assoc]
    exact List.flatMap_congr fun s hs => cutRows_cells fun heq => hne (heq ▸ hs)

theorem spanRows_mem {n : ℕ} (hn : 1 ≤ n) {g : List Span} (hrank : ∀ s ∈ g, s.length = n) {r : Box}
    (hr : r ∈ spanRows g) : r.length = n ∧ r.Nonempty := by
  unfold spanRows at hr
  split at hr
  · rename_i s
    obtain rfl := List.mem_singleton.mp hr
    exact ⟨(Span.box_length s).trans (hrank s (List.mem_cons_self ..)), Span.box_nonempty s⟩
  · obtain ⟨s, hs, hr⟩ := List.mem_flatMap.mp hr
    have hlen := hrank s hs
    have hrow := cutRows_isRow (by rintro rfl; simp at hlen; omega) hr
    exact ⟨hrow.rank.trans hlen, hrow.nonempty⟩

/-! ## §6 — counting and filling. -/

theorem countRows_eq {s : Span} (h : rowCount s < 2 ^ 31) : countRows s = rowCount s := by
  have hfold : ∀ (l : List (ℕ × ℕ)) (n : Int),
      l.foldl (fun n p => cInt (n * ((p.2 - p.1 + 1 : ℕ) : Int))) (cInt n) =
        cInt (n * ((l.map fun p => p.2 - p.1 + 1).prod : ℕ)) := by
    intro l
    induction l with
    | nil =>
        intro n
        simp
    | cons p l ih =>
        intro n
        have hmul : cInt (cInt n * ((p.2 - p.1 + 1 : ℕ) : Int)) = cInt (n * ((p.2 - p.1 + 1 : ℕ) : Int)) :=
          Int.bmod_mul_bmod
        rw [List.foldl_cons, hmul, ih, List.map_cons, List.prod_cons, Nat.cast_mul, mul_assoc]
  have hone : cInt 1 = 1 := cInt_of_range (by omega) (by omega)
  have hrows := hfold s.dropLast 1
  rw [hone, one_mul] at hrows
  unfold countRows
  rw [hrows]
  exact cInt_of_range (by omega) (by unfold rowCount at h; omega)

theorem addReqs_natCast (n m : ℕ) :
    addReqs n m = if n + m < 2 ^ 31 then .ok ((n + m : ℕ) : Int) else .error .outside := by
  unfold addReqs
  rw [Nat.cast_add]
  split
  · rw [if_pos (by omega)]
  · rw [if_neg (by omega)]

theorem countGroup_eq {g : List Span} (hrows : ∀ s ∈ g, rowCount s < 2 ^ 31) {n : ℕ} (hn : n < 2 ^ 31) :
    g.foldlM (fun n s => addReqs n (countRows s)) (n : Int) =
      if n + (g.map rowCount).sum < 2 ^ 31 then .ok ((n + (g.map rowCount).sum : ℕ) : Int)
      else .error .outside := by
  induction g generalizing n with
  | nil =>
      rw [List.map_nil, List.sum_nil, Nat.add_zero, if_pos hn]
      rfl
  | cons s g ih =>
      rw [List.foldlM_cons, countRows_eq (hrows s (List.mem_cons_self ..)), addReqs_natCast,
        List.map_cons, List.sum_cons, ← Nat.add_assoc]
      split
      · rename_i hfit
        exact ih (fun t ht => hrows t (List.mem_cons_of_mem s ht)) hfit
      · rw [if_neg (by omega)]
        rfl

/-- The places all groups need. -/
def totalNeed (gs : List (List Span)) : ℕ := (gs.map groupNeed).sum

/-- **The counting is exact** as long as no block that is cut has too many rows. -/
theorem countReqs_eq {gs : List (List Span)}
    (hrows : ∀ g ∈ gs, 2 ≤ g.length → ∀ s ∈ g, rowCount s < 2 ^ 31) {n : ℕ} (hn : n < 2 ^ 31) :
    countReqs gs n =
      if n + totalNeed gs < 2 ^ 31 then .ok ((n + totalNeed gs : ℕ) : Int) else .error .outside := by
  induction gs generalizing n with
  | nil =>
      rw [totalNeed, List.map_nil, List.sum_nil, Nat.add_zero, if_pos hn]
      rfl
  | cons g gs ih =>
      have hgs := fun k hk => hrows k (List.mem_cons_of_mem g hk)
      have hcount (m : ℕ) (h : n + m < 2 ^ 31) : countReqs gs ((n + m : ℕ) : Int) =
          if n + (m + totalNeed gs) < 2 ^ 31 then .ok ((n + (m + totalNeed gs) : ℕ) : Int)
          else .error .outside := by
        rw [ih hgs h, Nat.add_assoc]
      have hsum : totalNeed (g :: gs) = groupNeed g + totalNeed gs := by
        rw [totalNeed, List.map_cons, List.sum_cons]
        rfl
      rw [hsum]
      rcases g with _ | ⟨s, _ | ⟨t, g⟩⟩
      · exact hcount 0 hn
      · -- a block alone in its group
        show addReqs n ((1 : ℕ) : Int) >>= countReqs gs = _
        rw [addReqs_natCast]
        split
        · rename_i hfit
          exact hcount 1 hfit
        · rw [if_neg (by rw [groupNeed]; omega)]
          rfl
      · -- a group that is cut
        have hcut := hrows (s :: t :: g) (List.mem_cons_self ..) (by simp)
        show ((s :: t :: g).foldlM (fun n s => addReqs n (countRows s)) (n : Int)) >>= countReqs gs = _
        rw [countGroup_eq hcut hn]
        split
        · rename_i hfit
          exact hcount _ hfit
        · rw [if_neg (by rw [groupNeed]; omega; simp)]
          rfl

/-- Breaking blocks fits exactly when there is a place for every row. -/
theorem breakBlocks_eq {ss : List Span} (hord : ∀ s ∈ ss, s.Ordered) {cap : ℕ} :
    breakBlocks cap ss =
      if (ss.map rowCount).sum ≤ cap then .ok (ss.flatMap cutRows) else .error .outside := by
  induction ss generalizing cap with
  | nil => simp [breakBlocks]
  | cons s ss ih =>
      have hlead : Span.Ordered s.dropLast :=
        fun p hp => hord s (List.mem_cons_self ..) p (List.mem_of_mem_dropLast hp)
      have hlen : (Span.box s.dropLast).cells.length = rowCount s := by
        rw [← cutRows_length, cutRows, List.length_map]
      rw [breakBlocks, rowsFrom_eq _ hlead, hlen, List.map_cons, List.sum_cons]
      split
      · rename_i hfit
        show (breakBlocks (cap - (cutRows s).length) ss >>= fun rest => pure (cutRows s ++ rest)) = _
        rw [ih fun t ht => hord t (List.mem_cons_of_mem s ht), cutRows_length]
        split
        · rw [if_pos (by omega)]
          rfl
        · rw [if_neg (by omega)]
          rfl
      · rw [if_neg (by omega)]
        rfl

/-- Joining keeps the rank, and adds no element that neither of the two has. -/
theorem joinKeeps_cells (n : ℕ) (Q : List ℕ → Prop) :
    JoinKeeps n fun b => b.length = n ∧ ∀ x ∈ b.cells, Q x := by
  rintro d hd a b ⟨ha, hQa⟩ ⟨hb, hQb⟩ hadj
  have hfollows := adjoins_follows (ha.symm ▸ hd) (ha.trans hb.symm) hadj
  refine ⟨(joinBlocks_length ..).trans ha, fun x hx => ?_⟩
  rw [joinBlocks_grow hfollows] at hx
  rcases List.mem_append.mp ((Box.cells_grow_perm hfollows).mem_iff.mp hx) with hx | hx
  · exact hQa x hx
  · exact hQb x hx

theorem joinKeeps_shape (n : ℕ) : JoinKeeps n fun b => b.length = n ∧ Box.Nonempty b := by
  rintro d - a b ⟨ha, hne⟩ - -
  exact ⟨(joinBlocks_length ..).trans ha, joinBlocks_nonempty d a b hne⟩

/-- **One group**: its rows have their places or the filling ends. -/
theorem fillGroups_cons {ndim : ℕ} {g : List Span} (gs : List (List Span)) (hg : g ≠ [])
    (hord : ∀ s ∈ g, s.Ordered) {s : Slots} {n : ℕ} (hn : n ≤ s.vecs.length) :
    fillGroups ndim (g :: gs) s n =
      if n + groupNeed g ≤ s.vecs.length then
        fillGroups ndim gs (s.fill ndim n (spanRows g)).1 (s.fill ndim n (spanRows g)).2
      else .error .outside := by
  rcases g with _ | ⟨b, _ | ⟨c, g⟩⟩
  · exact absurd rfl hg
  · show (if n < s.vecs.length then fillGroups ndim gs (s.put n [Span.box b]) (n + 1) else .error .outside) = _
    show _ = if n + 1 ≤ s.vecs.length then _ else _
    split
    · rename_i hroom
      rw [if_pos (show n + 1 ≤ s.vecs.length from hroom)]
      show _ = fillGroups ndim gs (s.fill ndim n [Span.box b]).1 (s.fill ndim n [Span.box b]).2
      rw [Slots.fill_single ndim hroom]
    · rename_i hfull
      rw [if_neg (by omega)]
  · show (breakBlocks (s.vecs.length - n) (b :: c :: g) >>= fun rows =>
      fillGroups ndim gs (s.fill ndim n rows).1 (s.fill ndim n rows).2) = _
    have hneed : groupNeed (b :: c :: g) = ((b :: c :: g).map rowCount).sum := rfl
    rw [breakBlocks_eq hord, hneed]
    split
    · rw [if_pos (by omega)]
      rfl
    · rw [if_neg (by omega)]
      rfl

/-- No two of the slots that are in use, or written to, when a group is filled in point to the same vector.
`vecs` says where the slots point, of which `n` are in use. -/
def SlotsApart (ndim : ℕ) : List (List Span) → List ℕ → ℕ → Prop
  | [], _, _ => True
  | g :: gs, vecs, n => (vecs.take (n + groupNeed g)).Nodup ∧
      SlotsApart ndim gs (nextSlots ndim n (spanRows g) vecs) (n + (groupBlocks ndim g).length)

instance SlotsApart.decidable (ndim : ℕ) : ∀ gs vecs n, Decidable (SlotsApart ndim gs vecs n)
  | [], _, _ => isTrue trivial
  | g :: gs, vecs, n =>
      have := SlotsApart.decidable ndim gs (nextSlots ndim n (spanRows g) vecs)
        (n + (groupBlocks ndim g).length)
      inferInstanceAs (Decidable (_ ∧ _))

theorem totalNeed_cons (g : List Span) (gs : List (List Span)) :
    totalNeed (g :: gs) = groupNeed g + totalNeed gs := by
  rw [totalNeed, List.map_cons, List.sum_cons]
  rfl

section Filling

variable {ndim : ℕ} {gs : List (List Span)} (hne : [] ∉ gs) (hord : ∀ g ∈ gs, ∀ s ∈ g, s.Ordered)
include hne hord

/-- **Filling**: where every row has its place, it comes to its end. -/
theorem fillGroups_isOk {s : Slots} {n : ℕ} (hroom : n + totalNeed gs ≤ s.vecs.length) :
    ∃ r, fillGroups ndim gs s n = .ok r := by
  induction gs generalizing s n with
  | nil => exact ⟨_, rfl⟩
  | cons g gs ih =>
      rw [totalNeed_cons] at hroom
      have hrows : n + (spanRows g).length ≤ s.vecs.length := by
        rw [spanRows_length]
        omega
      have hcount := Slots.fill_count_le ndim hrows
      rw [spanRows_length] at hcount
      rw [fillGroups_cons gs (fun heq => hne (heq ▸ List.mem_cons_self ..)) (hord g (List.mem_cons_self ..))
        (by omega), if_pos (by omega)]
      apply ih (fun h => hne (List.mem_cons_of_mem g h)) fun k hk => hord k (List.mem_cons_of_mem g hk)
      rw [Slots.fill_length ndim hrows]
      omega

/-- **With the slots apart** the groups are filled in one behind the other. -/
theorem fillGroups_eq {s : Slots} {n : ℕ} (hn : n ≤ s.vecs.length) (hapart : SlotsApart ndim gs s.vecs n)
    {r : Slots × ℕ} (h : fillGroups ndim gs s n = .ok r) :
    r.1.blocks r.2 = s.blocks n ++ gs.flatMap (groupBlocks ndim) := by
  induction gs generalizing s n with
  | nil =>
      obtain rfl := Except.ok.inj h
      exact (List.append_nil _).symm
  | cons g gs ih =>
      rw [fillGroups_cons gs (fun heq => hne (heq ▸ List.mem_cons_self ..)) (hord g (List.mem_cons_self ..))
        hn] at h
      split at h
      · rename_i hroom
        obtain ⟨hnodup, hapart⟩ := hapart
        rw [← spanRows_length] at hroom hnodup
        have hblocks := Slots.fill_blocks ndim hroom hnodup
        have hcount := Slots.fill_count ndim hroom hnodup
        rw [← groupBlocks_eq] at hblocks hcount
        rw [← Slots.fill_vecs ndim hroom, ← hcount] at hapart
        have hle := Slots.fill_count_le ndim hroom
        have hlen := Slots.fill_length ndim hroom
        rw [ih (fun h => hne (List.mem_cons_of_mem g h)) (fun k hk => hord k (List.mem_cons_of_mem g hk))
          (by omega) hapart h, hblocks, List.append_assoc, List.flatMap_cons]
      · cases h

/-- **Whatever the slots**, what joining keeps and the rows have, the blocks have. -/
theorem fillGroups_keeps {P : Box → Prop} (hjoin : JoinKeeps ndim P) {s : Slots} {n : ℕ}
    (hn : n ≤ s.vecs.length) (hs : ∀ b ∈ s.blocks n, P b) (hrows : ∀ g ∈ gs, ∀ b ∈ spanRows g, P b)
    {r : Slots × ℕ} (h : fillGroups ndim gs s n = .ok r) : ∀ b ∈ r.1.blocks r.2, P b := by
  induction gs generalizing s n with
  | nil =>
      obtain rfl := Except.ok.inj h
      exact hs
  | cons g gs ih =>
      rw [fillGroups_cons gs (fun heq => hne (heq ▸ List.mem_cons_self ..)) (hord g (List.mem_cons_self ..))
        hn] at h
      split at h
      · rename_i hroom
        rw [← spanRows_length] at hroom
        have hle := Slots.fill_count_le ndim hroom
        have hlen := Slots.fill_length ndim hroom
        refine ih (fun h => hne (List.mem_cons_of_mem g h)) (fun k hk => hord k (List.mem_cons_of_mem g hk))
          (by omega) ?_ (fun k hk => hrows k (List.mem_cons_of_mem g hk)) h
        refine Slots.fill_keeps ndim hjoin hroom (Slots.put_keeps hroom fun b hb => ?_)
        rcases List.mem_append.mp hb with hb | hb
        · exact hs b hb
        · exact hrows g (List.mem_cons_self ..) b hb
      · cases h

/-- Where the filling comes to its end, no block that was cut had more rows than there were places. -/
theorem rowCount_le_of_fillGroups {s : Slots} {n : ℕ} (hn : n ≤ s.vecs.length) {r : Slots × ℕ}
    (h : fillGroups ndim gs s n = .ok r) : ∀ g ∈ gs, groupNeed g ≤ s.vecs.length := by
  induction gs generalizing s n with
  | nil => exact fun g hg => absurd hg List.not_mem_nil
  | cons g gs ih =>
      rw [fillGroups_cons gs (fun heq => hne (heq ▸ List.mem_cons_self ..)) (hord g (List.mem_cons_self ..))
        hn] at h
      split at h
      · rename_i hroom
        intro k hk
        rcases List.mem_cons.mp hk with rfl | hk
        · omega
        · rw [← spanRows_length] at hroom
          have hle := Slots.fill_count_le ndim hroom
          have hlen := Slots.fill_length ndim hroom
          rw [← hlen]
          exact ih (fun h => hne (List.mem_cons_of_mem g h)) (fun k hk => hord k (List.mem_cons_of_mem g hk))
            (by omega) h k hk
      · cases h

/-- **A block written over** is nowhere any more, and its elements are not written again. -/
theorem fillGroups_overwritten {s : Slots} {n : ℕ} {rows : List Box} (hroom : n + rows.length ≤ s.vecs.length)
    (hshape : ∀ b ∈ s.blocks n ++ rows ++ gs.flatMap spanRows, b.length = ndim ∧ b.Nonempty)
    (hnodup : ((s.blocks n ++ rows ++ gs.flatMap spanRows).flatMap Box.cells).Nodup)
    (hslots : ¬ (s.vecs.take (n + rows.length)).Nodup) {r : Slots × ℕ}
    (h : fillGroups ndim gs (s.fill ndim n rows).1 (s.fill ndim n rows).2 = .ok r) :
    ∃ x ∈ (s.blocks n ++ rows).flatMap Box.cells, ∀ b ∈ r.1.blocks r.2, x ∉ b.cells := by
  obtain ⟨pre, b, post, hsplit, hlost⟩ := Slots.put_lost hroom hslots
  rw [hsplit] at hshape hnodup ⊢
  have hx : b.start ∈ b.cells := Box.start_mem (hshape b (by simp)).2
  have hperm : (pre ++ b :: post ++ gs.flatMap spanRows).Perm (b :: (pre ++ post ++ gs.flatMap spanRows)) :=
    List.perm_middle.append_right _
  have hother : ∀ c ∈ pre ++ post ++ gs.flatMap spanRows, c.length = ndim ∧ ∀ x ∈ c.cells, x ≠ b.start := by
    have hapart := (List.nodup_flatMap.mp ((hperm.flatMap_right Box.cells).nodup_iff.mp hnodup)).2
    intro c hc
    refine ⟨(hshape c (hperm.mem_iff.mpr (List.mem_cons_of_mem b hc))).1, ?_⟩
    rintro x hxc rfl
    exact List.disjoint_left.mp (List.rel_of_pairwise_cons hapart hc) hx hxc
  have hle := Slots.fill_count_le ndim hroom
  have hlen := Slots.fill_length ndim hroom
  have hjoin := joinKeeps_cells ndim (· ≠ b.start)
  refine ⟨b.start, List.mem_flatMap.mpr ⟨b, by simp, hx⟩, fun c hc hmem => ?_⟩
  refine (fillGroups_keeps hne hord hjoin (by omega) ?_ ?_ h c hc).2 _ hmem rfl
  · exact Slots.fill_keeps ndim hjoin hroom fun v hv => hother _ (List.mem_append_left _ (hlost v hv))
  · exact fun g hg c hc => hother c (List.mem_append_right _ (List.mem_flatMap.mpr ⟨g, hg, hc⟩))

/-- **With two slots the same** some element is in none of the blocks, of those that should be there. -/
theorem fillGroups_lost (hn₁ : 1 ≤ ndim) (hrank : ∀ g ∈ gs, ∀ s ∈ g, s.length = ndim) {s : Slots} {n : ℕ}
    (hn : n ≤ s.vecs.length) (hused : ∀ b ∈ s.blocks n, b.length = ndim ∧ b.Nonempty)
    (hnodup : ((s.blocks n ++ gs.flatMap spanRows).flatMap Box.cells).Nodup)
    (hsame : ¬ SlotsApart ndim gs s.vecs n) {r : Slots × ℕ} (h : fillGroups ndim gs s n = .ok r) :
    ∃ x ∈ (s.blocks n ++ gs.flatMap spanRows).flatMap Box.cells, ∀ b ∈ r.1.blocks r.2, x ∉ b.cells := by
  induction gs generalizing s n with
  | nil => exact absurd trivial hsame
  | cons g gs ih =>
      have hneGs : [] ∉ gs := fun h => hne (List.mem_cons_of_mem g h)
      have hordGs : ∀ k ∈ gs, ∀ s ∈ k, s.Ordered := fun k hk => hord k (List.mem_cons_of_mem g hk)
      have hrankGs : ∀ k ∈ gs, ∀ s ∈ k, s.length = ndim := fun k hk => hrank k (List.mem_cons_of_mem g hk)
      rw [fillGroups_cons gs (fun heq => hne (heq ▸ List.mem_cons_self ..)) (hord g (List.mem_cons_self ..))
        hn] at h
      split at h
      swap
      · cases h
      rename_i hroom
      rw [← spanRows_length] at hroom
      rw [List.flatMap_cons, ← List.append_assoc] at hnodup ⊢
      have hshape : ∀ b ∈ s.blocks n ++ spanRows g ++ gs.flatMap spanRows, b.length = ndim ∧ b.Nonempty := by
        intro b hb
        rcases List.mem_append.mp hb with hb | hb
        · rcases List.mem_append.mp hb with hb | hb
          · exact hused b hb
          · exact spanRows_mem hn₁ (hrank g (List.mem_cons_self ..)) hb
        · obtain ⟨k, hk, hb⟩ := List.mem_flatMap.mp hb
          exact spanRows_mem hn₁ (hrankGs k hk) hb
      by_cases hslots : (s.vecs.take (n + (spanRows g).length)).Nodup
      · -- this group is filled in as it should be, so a later one is not
        have hblocks := Slots.fill_blocks ndim hroom hslots
        have hcount := Slots.fill_count ndim hroom hslots
        have hle := Slots.fill_count_le ndim hroom
        have hlen := Slots.fill_length ndim hroom
        rw [← groupBlocks_eq] at hblocks hcount
        have hg : [] ∉ g := by
          intro hnil
          have hzero := hrank g (List.mem_cons_self ..) [] hnil
          rw [List.length_nil] at hzero
          omega
        have hsame' : ¬ SlotsApart ndim gs (s.fill ndim n (spanRows g)).1.vecs
            (s.fill ndim n (spanRows g)).2 := by
          rw [Slots.fill_vecs ndim hroom, hcount]
          exact fun hapart => hsame ⟨spanRows_length g ▸ hslots, hapart⟩
        have hcells : ((groupBlocks ndim g).flatMap Box.cells).Perm ((spanRows g).flatMap Box.cells) := by
          rw [List.flatMap_append, List.flatMap_append, spanRows_cells hg] at hnodup
          rw [spanRows_cells hg]
          have hg' := (List.nodup_append.mp (List.nodup_append.mp hnodup).1).2.1
          exact (groupBlocks_cells hn₁ (hrank g (List.mem_cons_self ..)) hg').2
        have hperm : ((s.blocks n ++ groupBlocks ndim g ++ gs.flatMap spanRows).flatMap Box.cells).Perm
            ((s.blocks n ++ spanRows g ++ gs.flatMap spanRows).flatMap Box.cells) := by
          simp only [List.flatMap_append]
          exact (hcells.append_left _).append_right _
        rw [← hperm.nodup_iff, ← hblocks] at hnodup
        have hused' : ∀ b ∈ (s.fill ndim n (spanRows g)).1.blocks (s.fill ndim n (spanRows g)).2,
            b.length = ndim ∧ Box.Nonempty b :=
          Slots.fill_keeps ndim (joinKeeps_shape ndim) hroom
            (Slots.put_keeps hroom fun b hb => hshape b (List.mem_append_left _ hb))
        obtain ⟨x, hx, hlost⟩ := ih hneGs hordGs hrankGs (by omega) hused' hnodup hsame' h
        rw [hblocks] at hx
        exact ⟨x, hperm.mem_iff.mp hx, hlost⟩
      · obtain ⟨x, hx, hlost⟩ := fillGroups_overwritten hneGs hordGs hroom hshape hnodup hslots h
        rw [List.flatMap_append]
        exact ⟨x, List.mem_append_left _ hx, hlost⟩

/-- The slots in use are among those there are, and some are once a group is filled in. -/
theorem fillGroups_count {s : Slots} {n : ℕ} (hn : n ≤ s.vecs.length) {r : Slots × ℕ}
    (h : fillGroups ndim gs s n = .ok r) :
    n + (if gs = [] then 0 else 1) ≤ r.2 ∧ r.2 ≤ r.1.vecs.length ∧ r.1.vecs.length = s.vecs.length := by
  induction gs generalizing s n with
  | nil =>
      obtain rfl := Except.ok.inj h
      exact ⟨le_rfl, hn, rfl⟩
  | cons g gs ih =>
      rw [fillGroups_cons gs (fun heq => hne (heq ▸ List.mem_cons_self ..)) (hord g (List.mem_cons_self ..))
        hn] at h
      split at h
      · rename_i hroom
        have hpos := groupNeed_pos (fun heq => hne (heq ▸ List.mem_cons_self ..))
        rw [← spanRows_length] at hroom hpos
        have hle := Slots.fill_count_le ndim hroom
        have hlen := Slots.fill_length ndim hroom
        have hmore := Slots.fill_count_lt ndim hroom hpos
        obtain ⟨hfrom, hto, hsame⟩ := ih (fun h => hne (List.mem_cons_of_mem g h))
          (fun k hk => hord k (List.mem_cons_of_mem g hk)) (by omega) h
        rw [if_neg (List.cons_ne_nil g gs)]
        exact ⟨by omega, hto, hsame.trans hlen⟩
      · cases h

end Filling

/-! ## §7 — the selection in row-major order. -/

/-- The blocks after they were merged, sorted and merged again. -/
def mergedBlocks (ndim : ℕ) (blocks : List Span) : List Span :=
  mergeBlocks true ndim (sortBy Span.first (mergeBlocks true ndim blocks))

theorem HdfBlocks.mergedBlocks_kept {ndim : ℕ} {blocks : List Span} (h : HdfBlocks ndim blocks) :
    SpansKept ndim (blocks.flatMap fun b => b.box.cells) (mergedBlocks ndim blocks) := by
  have hkept := mergeBlocks_spansKept h.spansKept
  have hsort := hkept.sortBy_eq
  rw [mergedBlocks, hsort]
  exact mergeBlocks_spansKept hkept

/-- **`RowMajor`** — `bs` lists the elements of `blocks`, each once and in row-major order. -/
structure RowMajor (blocks : List Span) (bs : List Box) : Prop where
  disjoint : bs.Pairwise fun u v => ∀ x ∈ u.cells, x ∉ v.cells
  covers : ∀ x, x ∈ bs.flatMap Box.cells ↔ ∃ b ∈ blocks, x ∈ b.box.cells
  ordered : (bs.flatMap Box.cells).Pairwise (· < ·)
  placed : ∀ dims, (∀ b ∈ blocks, b.box.InArray dims) →
    ((bs.flatMap Box.cells).map (Lib.cellOffset dims)).Pairwise (· < ·)

/-- The counts fit: of the blocks HDF5 lists, and of the blocks to allocate, times the rank. -/
structure CountsFit (ndim : ℕ) (blocks : List Span) : Prop where
  listed : blocks.length < 2 ^ 31
  allocated : totalNeed (blockGroups (mergedBlocks ndim blocks)) * ndim < 2 ^ 31

theorem rowMajor_of_perm {blocks : List Span} {bs : List Box}
    (hperm : (bs.flatMap Box.cells).Perm (blocks.flatMap fun b => b.box.cells))
    (hordered : (bs.flatMap Box.cells).Pairwise (· < ·)) : RowMajor blocks bs := by
  have hcovers (x : List ℕ) : x ∈ bs.flatMap Box.cells ↔ ∃ b ∈ blocks, x ∈ b.box.cells := by
    rw [hperm.mem_iff, List.mem_flatMap]
  refine ⟨?_, hcovers, hordered, fun dims hin => ?_⟩
  · refine (List.pairwise_flatMap.mp hordered).2.imp fun huv x hx hx' => ?_
    exact lt_irrefl x (huv x hx x hx')
  · have hplace : ∀ x ∈ bs.flatMap Box.cells, List.Forall₂ (· < ·) x dims := by
      intro x hx
      obtain ⟨b, hb, hx⟩ := (hcovers x).mp hx
      exact (hin b hb).cell hx
    rw [List.pairwise_map]
    exact hordered.imp_of_mem fun hx hy hxy =>
      (Lib.cellOffset_lt_iff (hplace _ hx) (hplace _ hy)).mpr hxy

/-- The groups, one behind the other, list the elements in order. -/
theorem groups_rowMajor {ndim : ℕ} {blocks : List Span} (h : HdfBlocks ndim blocks) :
    RowMajor blocks ((blockGroups (mergedBlocks ndim blocks)).flatMap (groupBlocks ndim)) := by
  have hkept := h.mergedBlocks_kept
  have hflat : (blockGroups (mergedBlocks ndim blocks)).flatten = mergedBlocks ndim blocks :=
    List.flatten_splitBy _ _
  have hmem : ∀ g ∈ blockGroups (mergedBlocks ndim blocks), ∀ s ∈ g, s ∈ mergedBlocks ndim blocks := by
    intro g hg s hs
    exact hflat ▸ List.mem_flatten.mpr ⟨g, hg, hs⟩
  have hcells : (blockGroups (mergedBlocks ndim blocks)).flatMap (fun g => g.flatMap fun s => s.box.cells) =
      (mergedBlocks ndim blocks).flatMap fun s => s.box.cells := by
    conv_rhs => rw [← hflat, List.flatten_eq_flatMap, List.flatMap_assoc]
    rfl
  have hgroup : ∀ g ∈ blockGroups (mergedBlocks ndim blocks),
      ((groupBlocks ndim g).flatMap Box.cells).Pairwise (· < ·) ∧
        ((groupBlocks ndim g).flatMap Box.cells).Perm (g.flatMap fun s => s.box.cells) := by
    intro g hg
    apply groupBlocks_cells h.rank_pos fun s hs => hkept.rank s (hmem g hg s hs)
    have hnodup := hkept.kept.nodup_iff.mpr h.nodup
    rw [← hcells] at hnodup
    exact (List.nodup_flatMap.mp hnodup).1 g hg
  apply rowMajor_of_perm
  · rw [List.flatMap_assoc]
    refine List.Perm.trans ?_ (hcells ▸ hkept.kept)
    exact List.Perm.flatMap_left _ fun g hg => (hgroup g hg).2
  · rw [List.flatMap_assoc, List.pairwise_flatMap]
    refine ⟨fun g hg => (hgroup g hg).1, (blockGroups_apart hkept).imp_of_mem ?_⟩
    intro g k hg hk hapart x hx y hy
    obtain ⟨a, ha, hx⟩ := List.mem_flatMap.mp ((hgroup g hg).2.mem_iff.mp hx)
    obtain ⟨b, hb, hy⟩ := List.mem_flatMap.mp ((hgroup k hk).2.mem_iff.mp hy)
    -- `x` is not behind the last of its block, and `y` not before the first of its own
    have hxa := Span.le_last (hkept.ordered a (hmem g hg a ha)) hx
    have hby := Box.start_le hy
    rw [Span.start_box] at hby
    exact lt_of_le_of_lt hxa (lt_of_lt_of_le (hapart a ha b hb) hby)

/-- The places for a group are among those for all. -/
theorem groupNeed_le_totalNeed {gs : List (List Span)} {g : List Span} (hg : g ∈ gs) :
    groupNeed g ≤ totalNeed gs := List.le_sum_of_mem (List.mem_map_of_mem hg)

/-- A block that is cut has no more rows than its group needs places. -/
theorem rowCount_le_groupNeed {g : List Span} (hlen : 2 ≤ g.length) {s : Span} (hs : s ∈ g) :
    rowCount s ≤ groupNeed g := by
  have hneed : groupNeed g = (g.map rowCount).sum := by
    rcases g with _ | ⟨a, _ | ⟨b, g⟩⟩
    · rfl
    · exact absurd hlen (by simp)
    · rfl
  rw [hneed]
  exact List.le_sum_of_mem (List.mem_map_of_mem hs)

/-- What is known of the groups of a selection. -/
theorem HdfBlocks.groups {ndim : ℕ} {blocks : List Span} (h : HdfBlocks ndim blocks) :
    [] ∉ blockGroups (mergedBlocks ndim blocks) ∧
      ∀ g ∈ blockGroups (mergedBlocks ndim blocks), ∀ s ∈ g, s.length = ndim ∧ s.Ordered := by
  have hkept := h.mergedBlocks_kept
  have hflat : (blockGroups (mergedBlocks ndim blocks)).flatten = mergedBlocks ndim blocks :=
    List.flatten_splitBy _ _
  refine ⟨List.nil_notMem_splitBy _ _, fun g hg s hs => ?_⟩
  have hmem : s ∈ mergedBlocks ndim blocks := hflat ▸ List.mem_flatten.mpr ⟨g, hg, hs⟩
  exact ⟨hkept.rank s hmem, hkept.ordered s hmem⟩

/-- The rows of all groups have the elements of the selection. -/
theorem HdfBlocks.spanRows_perm {ndim : ℕ} {blocks : List Span} (h : HdfBlocks ndim blocks) :
    (((blockGroups (mergedBlocks ndim blocks)).flatMap spanRows).flatMap Box.cells).Perm
      (blocks.flatMap fun b => b.box.cells) := by
  obtain ⟨-, hshape⟩ := h.groups
  have hflat : (blockGroups (mergedBlocks ndim blocks)).flatten = mergedBlocks ndim blocks :=
    List.flatten_splitBy _ _
  have hcells : ((blockGroups (mergedBlocks ndim blocks)).flatMap spanRows).flatMap Box.cells =
      (mergedBlocks ndim blocks).flatMap fun s => s.box.cells := by
    conv_rhs => rw [← hflat, List.flatten_eq_flatMap, List.flatMap_assoc]
    rw [List.flatMap_assoc]
    refine List.flatMap_congr fun g hg => spanRows_cells fun hnil => ?_
    have hlen := (hshape g hg [] hnil).1
    have hpos := h.rank_pos
    rw [List.length_nil] at hlen
    omega
  rw [hcells]
  exact h.mergedBlocks_kept.kept

/-- **When the constructor comes to its end**: exactly when the counts fit. -/
theorem hyperSlots_ok_iff {ndim : ℕ} {blocks : List Span} (h : HdfBlocks ndim blocks) {r : Slots × ℕ} :
    hyperSlots ndim blocks = .ok r ↔ CountsFit ndim blocks ∧
      fillGroups ndim (blockGroups (mergedBlocks ndim blocks))
        (Slots.alloc (totalNeed (blockGroups (mergedBlocks ndim blocks)))) 0 = .ok r := by
  obtain ⟨hne, hshape⟩ := h.groups
  have hord : ∀ g ∈ blockGroups (mergedBlocks ndim blocks), ∀ s ∈ g, s.Ordered :=
    fun g hg s hs => (hshape g hg s hs).2
  have hunfold : hyperSlots ndim blocks = if 2 ^ 31 ≤ blocks.length then .error .outside else
      countReqs (blockGroups (mergedBlocks ndim blocks)) 0 >>= fun nreq =>
        if nreq < 0 then .error (.raised "#A initialization fail") else
          allocBlocks ndim nreq.toNat >>= fun _ =>
            fillGroups ndim (blockGroups (mergedBlocks ndim blocks)) (Slots.alloc nreq.toNat) 0 := rfl
  have hfits : CountsFit ndim blocks ↔ blocks.length < 2 ^ 31 ∧
      totalNeed (blockGroups (mergedBlocks ndim blocks)) * ndim < 2 ^ 31 :=
    ⟨fun hfit => ⟨hfit.listed, hfit.allocated⟩, fun hfit => ⟨hfit.1, hfit.2⟩⟩
  rw [hunfold, hfits]
  clear hunfold hfits hshape
  generalize blockGroups (mergedBlocks ndim blocks) = gs at hord hne ⊢
  have hfactor (n : ℕ) : n ≤ n * ndim := Nat.le_mul_of_pos_right n h.rank_pos
  -- where no block that is cut has too many rows, the places are counted exactly
  have hcounts (hneeds : ∀ g ∈ gs, groupNeed g < 2 ^ 31) := @countReqs_eq gs
    (fun g hg hlen s hs => lt_of_le_of_lt (rowCount_le_groupNeed hlen hs) (hneeds g hg)) 0 (by omega)
  rw [Nat.zero_add, Nat.cast_zero] at hcounts
  constructor
  · intro hok
    split at hok
    · cases hok
    rename_i hlisted
    obtain ⟨nreq, hcount, hok⟩ := Lib.bind_eq_ok.mp hok
    split at hok
    · cases hok
    obtain ⟨_, halloc, hfill⟩ := Lib.bind_eq_ok.mp hok
    have hplaces : nreq.toNat * ndim < 2 ^ 31 := by
      unfold allocBlocks at halloc
      split at halloc
      · assumption
      · cases halloc
    -- every row had its place, so the products of the counts did not wrap
    have hneeds : ∀ g ∈ gs, groupNeed g < 2 ^ 31 := by
      intro g hg
      have hle := rowCount_le_of_fillGroups hne hord (Nat.zero_le _) hfill g hg
      have := hfactor nreq.toNat
      simp only [Slots.alloc, List.length_range] at hle
      omega
    have hexact := hcounts hneeds
    rw [hcount] at hexact
    split at hexact
    · obtain rfl := Except.ok.inj hexact
      rw [Int.toNat_natCast] at hplaces hfill
      exact ⟨⟨by omega, hplaces⟩, hfill⟩
    · cases hexact
  · rintro ⟨⟨hlisted, hplaces⟩, hfill⟩
    have hneed : totalNeed gs < 2 ^ 31 := by
      have := hfactor (totalNeed gs)
      omega
    have hexact := hcounts fun g hg => lt_of_le_of_lt (groupNeed_le_totalNeed hg) hneed
    rw [if_pos hneed] at hexact
    rw [if_neg (by omega)]
    refine Lib.bind_eq_ok.mpr ⟨_, hexact, ?_⟩
    rw [if_neg (by omega), Int.toNat_natCast]
    exact Lib.bind_eq_ok.mpr ⟨(), if_pos hplaces, hfill⟩

/-- No vector in use is written again while the groups are filled in. -/
def VectorsApart (ndim : ℕ) (blocks : List Span) : Prop :=
  SlotsApart ndim (blockGroups (mergedBlocks ndim blocks))
    (List.range (totalNeed (blockGroups (mergedBlocks ndim blocks)))) 0

instance (ndim : ℕ) (blocks : List Span) : Decidable (VectorsApart ndim blocks) :=
  inferInstanceAs (Decidable (SlotsApart ..))

/-- The slots stay apart while no rows are merged but those of the last group. -/
theorem slotsApart_of_unmerged {ndim : ℕ} {gs : List (List Span)} {vecs : List ℕ} {n : ℕ} (hnodup : vecs.Nodup)
    (hroom : n + totalNeed gs ≤ vecs.length)
    (h : ∀ g ∈ gs.dropLast, (groupBlocks ndim g).length = groupNeed g) : SlotsApart ndim gs vecs n := by
  induction gs generalizing vecs n with
  | nil => trivial
  | cons g gs ih =>
      have htake : (vecs.take (n + groupNeed g)).Nodup := hnodup.sublist (List.take_sublist _ _)
      refine ⟨htake, ?_⟩
      cases gs with
      | nil => trivial
      | cons g' gs =>
          rw [totalNeed_cons] at hroom
          obtain ⟨hg, hrest⟩ := List.forall_mem_cons.mp h
          have hperm : (nextSlots ndim n (spanRows g) vecs).Perm vecs := by
            apply nextSlots_perm ndim hnodup
            · rw [spanRows_length]
              omega
            · rw [← groupBlocks_eq, hg, spanRows_length]
          apply ih (hperm.nodup_iff.mpr hnodup) _ hrest
          rw [hperm.length_eq, hg]
          omega

/-- **Where no rows are merged but those of the last group**, no vector in use is written again. -/
theorem vectorsApart_of_unmerged {ndim : ℕ} {blocks : List Span}
    (h : ∀ g ∈ (blockGroups (mergedBlocks ndim blocks)).dropLast, (groupBlocks ndim g).length = groupNeed g) :
    VectorsApart ndim blocks :=
  slotsApart_of_unmerged List.nodup_range (by simp) h

/-- **Where only the last group is cut**: each of the others is a block that is alone. -/
theorem vectorsApart_of_alone {ndim : ℕ} {blocks : List Span}
    (h : ∀ g ∈ (blockGroups (mergedBlocks ndim blocks)).dropLast, g.length = 1) : VectorsApart ndim blocks := by
  apply vectorsApart_of_unmerged
  intro g hg
  obtain ⟨s, rfl⟩ := List.length_eq_one_iff.mp (h g hg)
  rfl

theorem hyperSelections_ok_iff {ndim : ℕ} {blocks : List Span} {bs : List Box} :
    hyperSelections ndim blocks = .ok bs ↔
      ∃ r, hyperSlots ndim blocks = .ok r ∧ r.1.blocks r.2 = bs := by
  unfold hyperSelections
  cases hyperSlots ndim blocks with
  | error e => simp [Except.map]
  | ok r => simp [Except.map]

section Selections

variable {ndim : ℕ} {blocks : List Span} (h : HdfBlocks ndim blocks)
include h

theorem hyperSelections_isOk (hfit : CountsFit ndim blocks) : ∃ bs, hyperSelections ndim blocks = .ok bs := by
  obtain ⟨hne, hshape⟩ := h.groups
  obtain ⟨r, hr⟩ := @fillGroups_isOk ndim _ hne (fun g hg s hs => (hshape g hg s hs).2)
    (Slots.alloc (totalNeed (blockGroups (mergedBlocks ndim blocks)))) 0 (by simp [Slots.alloc])
  exact ⟨_, hyperSelections_ok_iff.mpr ⟨r, (hyperSlots_ok_iff h).mpr ⟨hfit, hr⟩, rfl⟩⟩

variable {bs : List Box} (hok : hyperSelections ndim blocks = .ok bs)
include hok

theorem hyperSelections_ne_nil : bs ≠ [] := by
  obtain ⟨hne, hshape⟩ := h.groups
  obtain ⟨r, hr, rfl⟩ := hyperSelections_ok_iff.mp hok
  obtain ⟨-, hfill⟩ := (hyperSlots_ok_iff h).mp hr
  have hsome : blockGroups (mergedBlocks ndim blocks) ≠ [] := by
    intro hnil
    have hperm := h.spanRows_perm
    rw [hnil] at hperm
    obtain ⟨b, hb⟩ := List.exists_mem_of_length_pos (lt_of_lt_of_le two_pos h.several)
    have hmem : b.box.start ∈ blocks.flatMap fun b => b.box.cells :=
      List.mem_flatMap.mpr ⟨b, hb, Box.start_mem (Span.box_nonempty b)⟩
    exact List.not_mem_nil (hperm.mem_iff.mpr hmem)
  obtain ⟨hfrom, hto, -⟩ := fillGroups_count hne (fun g hg s hs => (hshape g hg s hs).2) (Nat.zero_le _) hfill
  rw [if_neg hsome] at hfrom
  intro hnil
  have hlen := congrArg List.length hnil
  rw [Slots.blocks, List.length_map, List.length_take, List.length_nil] at hlen
  omega

theorem hyperSelections_fits : CountsFit ndim blocks := by
  obtain ⟨r, hr, -⟩ := hyperSelections_ok_iff.mp hok
  exact ((hyperSlots_ok_iff h).mp hr).1

/-- **With the vectors apart** the constructor lists the groups one behind the other. -/
theorem hyperSelections_eq (hapart : VectorsApart ndim blocks) :
    bs = (blockGroups (mergedBlocks ndim blocks)).flatMap (groupBlocks ndim) := by
  obtain ⟨hne, hshape⟩ := h.groups
  obtain ⟨r, hr, rfl⟩ := hyperSelections_ok_iff.mp hok
  obtain ⟨-, hfill⟩ := (hyperSlots_ok_iff h).mp hr
  exact @fillGroups_eq ndim _ hne (fun g hg s hs => (hshape g hg s hs).2) (Slots.alloc _) 0 (Nat.zero_le _)
    hapart r hfill

/-- **Whatever is written over**, the blocks have elements, and none that is not selected. -/
theorem hyperSelections_within :
    ∀ b ∈ bs, b.Nonempty ∧ ∀ x ∈ b.cells, x ∈ blocks.flatMap fun b => b.box.cells := by
  obtain ⟨hne, hshape⟩ := h.groups
  obtain ⟨r, hr, rfl⟩ := hyperSelections_ok_iff.mp hok
  obtain ⟨-, hfill⟩ := (hyperSlots_ok_iff h).mp hr
  have hord : ∀ g ∈ blockGroups (mergedBlocks ndim blocks), ∀ s ∈ g, s.Ordered :=
    fun g hg s hs => (hshape g hg s hs).2
  have hrow : ∀ g ∈ blockGroups (mergedBlocks ndim blocks), ∀ b ∈ spanRows g, b.length = ndim ∧ Box.Nonempty b :=
    fun g hg b hb => spanRows_mem h.rank_pos (fun s hs => (hshape g hg s hs).1) hb
  have hnone (P : Box → Prop) : ∀ b ∈ (Slots.alloc
      (totalNeed (blockGroups (mergedBlocks ndim blocks)))).blocks 0, P b := fun b hb => by cases hb
  have hshapes := fillGroups_keeps hne hord (joinKeeps_shape ndim) (Nat.zero_le _) (hnone _) hrow hfill
  have hcells := fillGroups_keeps hne hord
    (joinKeeps_cells ndim (· ∈ blocks.flatMap fun b => b.box.cells)) (Nat.zero_le _) (hnone _)
    (fun g hg b hb => ⟨(hrow g hg b hb).1, fun x hx => h.spanRows_perm.mem_iff.mp
      (List.mem_flatMap.mpr ⟨b, List.mem_flatMap.mpr ⟨g, hg, hb⟩, hx⟩)⟩) hfill
  exact fun b hb => ⟨(hshapes b hb).2, (hcells b hb).2⟩

/-- **With a vector written again** an element is missing. -/
theorem hyperSelections_lost (hsame : ¬ VectorsApart ndim blocks) :
    ∃ x ∈ blocks.flatMap (fun b => b.box.cells), x ∉ bs.flatMap Box.cells := by
  obtain ⟨hne, hshape⟩ := h.groups
  obtain ⟨r, hr, rfl⟩ := hyperSelections_ok_iff.mp hok
  obtain ⟨-, hfill⟩ := (hyperSlots_ok_iff h).mp hr
  have hnodup := h.spanRows_perm.nodup_iff.mpr h.nodup
  obtain ⟨x, hx, hlost⟩ := @fillGroups_lost ndim _ hne (fun g hg s hs => (hshape g hg s hs).2) h.rank_pos
    (fun g hg s hs => (hshape g hg s hs).1) (Slots.alloc _) 0 (Nat.zero_le _) (fun b hb => by cases hb) hnodup
    hsame r hfill
  refine ⟨x, h.spanRows_perm.mem_iff.mp hx, fun hmem => ?_⟩
  obtain ⟨b, hb, hxb⟩ := List.mem_flatMap.mp hmem
  exact hlost b hb hxb

end Selections

/-- **Hyperslab selections.** The blocks are those of the selection in row-major order, on all selections
whose counts fit and for which no vector in use is written again. -/
theorem hyperOrder_iff {ndim : ℕ} {blocks : List Span} (h : HdfBlocks ndim blocks) :
    (∃ bs, hyperSelections ndim blocks = .ok bs ∧ RowMajor blocks bs) ↔
      CountsFit ndim blocks ∧ VectorsApart ndim blocks := by
  constructor
  · rintro ⟨bs, hok, hrow⟩
    refine ⟨hyperSelections_fits h hok, ?_⟩
    by_contra hsame
    obtain ⟨x, hx, hlost⟩ := hyperSelections_lost h hok hsame
    exact hlost ((hrow.covers x).mpr (List.mem_flatMap.mp hx))
  · rintro ⟨hfit, hapart⟩
    obtain ⟨bs, hok⟩ := hyperSelections_isOk h hfit
    obtain rfl := hyperSelections_eq h hok hapart
    exact ⟨_, hok, groups_rowMajor h⟩

/-- Two columns of a dataspace, of `rows` rows, that do not touch. -/
def twoColumns (rows : ℕ) : List Span := [[(0, rows - 1), (0, 0)], [(0, rows - 1), (2, 2)]]

theorem hdfBlocks_twoColumns (rows : ℕ) : HdfBlocks 2 (twoColumns rows) := by
  have hordered (c : ℕ) : Span.Ordered [(0, rows - 1), (c, c)] := by
    intro p hp
    rcases List.mem_pair.mp hp with rfl | rfl
    · exact Nat.zero_le _
    · exact le_rfl
  constructor
  · exact one_le_two
  · exact le_rfl
  · simp [twoColumns]
  · simp [twoColumns, hordered]
  · simp [twoColumns, Span.first, Lib.cons_le_cons_iff_lex]
  · simp [twoColumns, Span.Apart]

/-- Two columns of two rows: four rows of one element. -/
theorem hyperOrder_twoColumns :
    ∃ bs, hyperSelections 2 (twoColumns 2) = .ok bs ∧ RowMajor (twoColumns 2) bs :=
  (hyperOrder_iff (hdfBlocks_twoColumns 2)).mpr ⟨⟨by decide, by decide⟩, vectorsApart_of_alone (by decide)⟩

/-- A column of two blocks, a block beside the second of them, and one behind. -/
def metColumns : List Span := [[(0, 1), (0, 1)], [(2, 3), (0, 1)], [(2, 3), (4, 5)], [(10, 10), (0, 1)]]

/-- **The last block is written over a row of the column**: of the six rows the first three of the column are
merged again, which moves the pointer to its fourth forward, and what comes next is written through the slot
this pointer was moved from. -/
theorem not_hyperOrder_metColumns : HdfBlocks 2 metColumns ∧
    ¬ ∃ bs, hyperSelections 2 metColumns = .ok bs ∧ RowMajor metColumns bs := by
  have hblocks : HdfBlocks 2 metColumns := by
    constructor
    · exact one_le_two
    · decide
    · decide
    · simp only [metColumns, Span.Ordered]
      decide
    · decide
    · simp [metColumns, Span.Apart]
  refine ⟨hblocks, ?_⟩
  rintro ⟨bs, hok, hrow⟩
  obtain ⟨x, hx, hlost⟩ := hyperSelections_lost hblocks hok (by decide)
  exact hlost ((hrow.covers x).mpr (List.mem_flatMap.mp hx))

end LogVol
