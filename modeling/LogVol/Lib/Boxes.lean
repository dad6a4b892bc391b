/-
# LogVol.Lib.Boxes — boxes of a grid and their cells in row-major order.

A box has, in each dimension, a first index and a number of indices. `Box.cells` lists its cells with the
last dimension running fastest, which is lexicographic order (`cells_pairwise_lt`). Boxes that agree but
for one dimension, where the one ends and the other begins, join to a box with the cells of both
(`cells_grow_perm`), and in the very order of the two when no earlier dimension has more than one index
(`cells_grow`). `cellOffset` is the place of a cell in an array of given extents; along the cells of a box
inside the array it only grows.
-/
import LogVol.Lib.MixedRadix

namespace LogVol.Lib

/-! ## §1 — lexicographic order. -/

theorem lt_of_heads {x y : ℕ} {a b : List ℕ} (h : x < y) : x :: a < y :: b :=
  List.cons_lt_cons_iff.mpr (Or.inl h)

theorem cons_le_cons_iff_lex {x y : ℕ} {a b : List ℕ} : x :: a ≤ y :: b ↔ x < y ∨ x = y ∧ a ≤ b := by
  rw [le_iff_lt_or_eq, List.cons_lt_cons_iff, List.cons.injEq, le_iff_lt_or_eq]
  tauto

/-! ## §2 — boxes. -/

/-- Per dimension, the first index and the number of indices. -/
abbrev Box := List (ℕ × ℕ)

/-- The cells of a box, the last dimension running fastest. -/
def Box.cells : Box → List (List ℕ)
  | [] => [[]]
  | p :: b => (List.range' p.1 p.2).flatMap fun x => (Box.cells b).map (x :: ·)

/-- The first cell. -/
def Box.start (b : Box) : List ℕ := b.map Prod.fst

/-- Every dimension has an index. -/
def Box.Nonempty (b : Box) : Prop := ∀ p ∈ b, 1 ≤ p.2

theorem Box.mem_cells {b : Box} {x : List ℕ} :
    x ∈ b.cells ↔ List.Forall₂ (fun i (p : ℕ × ℕ) => p.1 ≤ i ∧ i < p.1 + p.2) x b := by
  induction b generalizing x with
  | nil => simp [Box.cells]
  | cons p b ih =>
      simp only [Box.cells, List.mem_flatMap, List.mem_range'_1, List.mem_map, List.forall₂_cons_right_iff]
      constructor
      · rintro ⟨i, hi, y, hy, rfl⟩
        exact ⟨i, y, hi, ih.mp hy, rfl⟩
      · rintro ⟨i, y, hi, hy, rfl⟩
        exact ⟨i, hi, y, ih.mpr hy, rfl⟩

theorem Box.mem_cells_cons {p : ℕ × ℕ} {b : Box} {i : ℕ} {x : List ℕ} :
    i :: x ∈ Box.cells (p :: b) ↔ (p.1 ≤ i ∧ i < p.1 + p.2) ∧ x ∈ b.cells := by
  rw [Box.mem_cells, List.forall₂_cons, ← Box.mem_cells]

/-- The cells of two boxes side by side. -/
theorem Box.cells_append (a b : Box) :
    Box.cells (a ++ b) = a.cells.flatMap fun x => b.cells.map (x ++ ·) := by
  induction a with
  | nil => simp [Box.cells]
  | cons p a ih =>
      show (List.range' p.1 p.2).flatMap (fun i => (Box.cells (a ++ b)).map (i :: ·)) =
        ((List.range' p.1 p.2).flatMap fun i => (Box.cells a).map (i :: ·)).flatMap _
      rw [ih, List.flatMap_assoc]
      simp only [List.map_flatMap, List.flatMap_map, List.map_map]
      rfl

theorem Box.cells_length (b : Box) : b.cells.length = (b.map Prod.snd).prod := by
  induction b with
  | nil => rfl
  | cons p b ih => simp [Box.cells, List.length_flatMap, ih]

theorem Box.length_of_mem {b : Box} {x : List ℕ} (h : x ∈ b.cells) : x.length = b.length :=
  (Box.mem_cells.mp h).length_eq

theorem Box.start_mem {b : Box} (h : b.Nonempty) : b.start ∈ b.cells := by
  induction b with
  | nil => simp [Box.start, Box.cells]
  | cons p b ih =>
      rw [Box.start, List.map_cons, Box.mem_cells_cons]
      have hp := h p (List.mem_cons_self ..)
      exact ⟨⟨le_rfl, by omega⟩, ih fun q hq => h q (List.mem_cons_of_mem p hq)⟩

/-- No cell comes before the first. -/
theorem Box.start_le {b : Box} {x : List ℕ} (h : x ∈ b.cells) : b.start ≤ x := by
  induction b generalizing x with
  | nil =>
      obtain rfl := List.mem_singleton.mp h
      exact le_rfl
  | cons p b ih =>
      obtain ⟨i, y, rfl⟩ := List.exists_cons_of_length_eq_add_one (Box.length_of_mem h)
      obtain ⟨⟨hi, -⟩, hy⟩ := Box.mem_cells_cons.mp h
      rw [Box.start, List.map_cons, cons_le_cons_iff_lex]
      rcases Nat.lt_or_eq_of_le hi with hlt | heq
      · exact Or.inl hlt
      · exact Or.inr ⟨heq, ih hy⟩

/-- **Cells are listed in lexicographic order.** -/
theorem Box.cells_pairwise_lt (b : Box) : b.cells.Pairwise (· < ·) := by
  induction b with
  | nil => exact List.pairwise_singleton _ _
  | cons p b ih =>
      rw [Box.cells, List.pairwise_flatMap]
      constructor
      · intro i _
        rw [List.pairwise_map]
        exact ih.imp fun h => List.cons_lt_cons_iff.mpr (Or.inr ⟨rfl, h⟩)
      · refine List.Pairwise.imp ?_ List.pairwise_lt_range'
        intro i j hij x hx y hy
        obtain ⟨x', -, rfl⟩ := List.mem_map.mp hx
        obtain ⟨y', -, rfl⟩ := List.mem_map.mp hy
        exact lt_of_heads hij

theorem Box.cells_nodup (b : Box) : b.cells.Nodup := b.cells_pairwise_lt.imp fun h => ne_of_lt h

/-! ## §3 — joining boxes. -/

/-- The box `b` with `n` more indices in dimension `d`. -/
def Box.grow : ℕ → ℕ → Box → Box
  | _, _, [] => []
  | 0, n, p :: b => (p.1, p.2 + n) :: b
  | d + 1, n, p :: b => p :: Box.grow d n b

/-- `b` begins in dimension `d` where `a` ends, and is like `a` in the others. -/
def Box.Follows : ℕ → Box → Box → Prop
  | 0, p :: a, q :: b => p.1 + p.2 = q.1 ∧ a = b
  | d + 1, p :: a, q :: b => p = q ∧ Box.Follows d a b
  | _, _, _ => False

/-- The extent of a box in a dimension. -/
def Box.extent (d : ℕ) (b : Box) : ℕ := (b.map Prod.snd).getD d 0

/-- The joined box has the cells of both. -/
theorem Box.cells_grow_perm {d : ℕ} {a b : Box} (h : Box.Follows d a b) :
    (Box.grow d (b.extent d) a).cells.Perm (a.cells ++ b.cells) := by
  induction d generalizing a b with
  | zero =>
      rcases a with _ | ⟨p, a⟩
      · cases h
      rcases b with _ | ⟨q, b⟩
      · cases h
      obtain ⟨hpq, rfl⟩ := h
      have hrange : List.range' p.1 (p.2 + q.2) = List.range' p.1 p.2 ++ List.range' q.1 q.2 := by
        rw [← hpq]
        exact (@List.range'_append p.1 p.2 q.2 1).symm.trans (by rw [one_mul])
      show ((List.range' p.1 (p.2 + q.2)).flatMap _).Perm _
      rw [hrange, List.flatMap_append]
      rfl
  | succ d ih =>
      rcases a with _ | ⟨p, a⟩
      · cases h
      rcases b with _ | ⟨q, b⟩
      · cases h
      obtain ⟨rfl, hab⟩ := h
      have hcells (i : ℕ) : ((Box.cells (Box.grow d (Box.extent d b) a)).map (i :: ·)).Perm
          ((Box.cells a).map (i :: ·) ++ (Box.cells b).map (i :: ·)) := by
        rw [← List.map_append]
        exact (ih hab).map _
      exact (List.Perm.flatMap_left _ fun i _ => hcells i).trans (List.flatMap_append_perm _ _ _).symm

/-- No dimension before `d` has more than one index. -/
def Box.ThinBefore (d : ℕ) (b : Box) : Prop := ∀ p ∈ b.take d, p.2 = 1

/-- **In the order of the two**, when no dimension before has more than one index. -/
theorem Box.cells_grow {d : ℕ} {a b : Box} (h : Box.Follows d a b) (hthin : a.ThinBefore d) :
    (Box.grow d (b.extent d) a).cells = a.cells ++ b.cells := by
  -- Both lists are sorted and have the same cells.
  refine (Box.cells_grow_perm h).eq_of_pairwise (fun x y _ _ hxy hyx => ?_)
    (Box.cells_pairwise_lt _) ?_
  · exact absurd (lt_trans hxy hyx) (lt_irrefl _)
  · refine List.pairwise_append.mpr ⟨a.cells_pairwise_lt, b.cells_pairwise_lt, ?_⟩
    induction d generalizing a b with
    | zero =>
        rcases a with _ | ⟨p, a⟩
        · cases h
        rcases b with _ | ⟨q, b⟩
        · cases h
        obtain ⟨hpq, -⟩ := h
        intro x hx y hy
        obtain ⟨i, x, rfl⟩ := List.exists_cons_of_length_eq_add_one (Box.length_of_mem hx)
        obtain ⟨j, y, rfl⟩ := List.exists_cons_of_length_eq_add_one (Box.length_of_mem hy)
        have hi := (Box.mem_cells_cons.mp hx).1
        have hj := (Box.mem_cells_cons.mp hy).1
        exact lt_of_heads (by omega)
    | succ d ih =>
        rcases a with _ | ⟨p, a⟩
        · cases h
        rcases b with _ | ⟨q, b⟩
        · cases h
        obtain ⟨rfl, hab⟩ := h
        intro x hx y hy
        obtain ⟨i, x, rfl⟩ := List.exists_cons_of_length_eq_add_one (Box.length_of_mem hx)
        obtain ⟨j, y, rfl⟩ := List.exists_cons_of_length_eq_add_one (Box.length_of_mem hy)
        have hone := hthin p (List.mem_cons_self ..)
        obtain ⟨hi, hx'⟩ := Box.mem_cells_cons.mp hx
        obtain ⟨hj, hy'⟩ := Box.mem_cells_cons.mp hy
        obtain rfl : i = j := by omega
        have hlt := ih hab (fun r hr => hthin r (List.mem_cons_of_mem p hr)) x hx' y hy'
        exact List.cons_lt_cons_iff.mpr (Or.inr ⟨rfl, hlt⟩)

/-- Two boxes thin in all dimensions but the last lie one behind the other when they share no cell. -/
theorem Box.cells_lt_of_thin {d : ℕ} {u v : Box} (hu : u.length = d + 1) (hv : v.length = d + 1)
    (hthin : u.ThinBefore d) (hthin' : v.ThinBefore d) (hne : v.Nonempty)
    (hdisjoint : ∀ x ∈ u.cells, x ∉ v.cells) (hle : u.start ≤ v.start) :
    ∀ x ∈ u.cells, ∀ y ∈ v.cells, x < y := by
  induction d generalizing u v with
  | zero =>
      obtain ⟨p, rfl⟩ := List.length_eq_one_iff.mp hu
      obtain ⟨q, rfl⟩ := List.length_eq_one_iff.mp hv
      have hbegin : p.1 ≤ q.1 := by
        simp only [Box.start, List.map_cons, List.map_nil, cons_le_cons_iff_lex] at hle
        omega
      -- In the last dimension the first range ends before the second begins, or its start would be shared.
      have hend : p.1 + p.2 ≤ q.1 := by
        by_contra hlt
        apply hdisjoint [q.1]
        · exact Box.mem_cells_cons.mpr ⟨by omega, List.mem_singleton_self _⟩
        · exact Box.start_mem hne
      intro x hx y hy
      obtain ⟨i, x, rfl⟩ := List.exists_cons_of_length_eq_add_one (Box.length_of_mem hx)
      obtain ⟨j, y, rfl⟩ := List.exists_cons_of_length_eq_add_one (Box.length_of_mem hy)
      have hi := (Box.mem_cells_cons.mp hx).1
      have hj := (Box.mem_cells_cons.mp hy).1
      exact lt_of_heads (by omega)
  | succ d ih =>
      obtain ⟨p, u, rfl⟩ := List.exists_cons_of_length_eq_add_one hu
      obtain ⟨q, v, rfl⟩ := List.exists_cons_of_length_eq_add_one hv
      have hp := hthin p (List.mem_cons_self ..)
      have hq := hthin' q (List.mem_cons_self ..)
      intro x hx y hy
      obtain ⟨i, x, rfl⟩ := List.exists_cons_of_length_eq_add_one (Box.length_of_mem hx)
      obtain ⟨j, y, rfl⟩ := List.exists_cons_of_length_eq_add_one (Box.length_of_mem hy)
      obtain ⟨hi, hx⟩ := Box.mem_cells_cons.mp hx
      obtain ⟨hj, hy⟩ := Box.mem_cells_cons.mp hy
      rcases cons_le_cons_iff_lex.mp hle with hlt | ⟨heq, hle⟩
      · exact lt_of_heads (by omega)
      · refine List.cons_lt_cons_iff.mpr (Or.inr ⟨by omega, ?_⟩)
        refine ih (Nat.succ.inj hu) (Nat.succ.inj hv) (fun r hr => hthin r (List.mem_cons_of_mem p hr))
          (fun r hr => hthin' r (List.mem_cons_of_mem q hr)) (fun r hr => hne r (List.mem_cons_of_mem q hr))
          (fun z hz hz' => ?_) hle x hx y hy
        apply hdisjoint (i :: z)
        · exact Box.mem_cells_cons.mpr ⟨hi, hz⟩
        · exact Box.mem_cells_cons.mpr ⟨by omega, hz'⟩

/-! ## §4 — places in an array. -/

/-- The place of a cell in an array with extents `ds`, in row-major order. -/
def cellOffset (ds x : List ℕ) : ℕ := natValue (suffixProds ds) x

theorem cellOffset_cons (d : ℕ) (ds : List ℕ) (i : ℕ) (x : List ℕ) :
    cellOffset (d :: ds) (i :: x) = i * ds.prod + cellOffset ds x := rfl

theorem cellOffset_lt {ds x : List ℕ} (h : List.Forall₂ (· < ·) x ds) : cellOffset ds x < ds.prod :=
  natValue_lt_prod h

/-- Cells of an array are placed in their lexicographic order. -/
theorem cellOffset_lt_iff {ds x y : List ℕ} (hx : List.Forall₂ (· < ·) x ds)
    (hy : List.Forall₂ (· < ·) y ds) : cellOffset ds x < cellOffset ds y ↔ x < y := by
  induction hx generalizing y with
  | nil =>
      cases hy
      simp
  | @cons i d x ds hi hx ih =>
      obtain _ | ⟨hj, hy⟩ := hy
      rename_i j y
      rw [cellOffset_cons, cellOffset_cons, List.cons_lt_cons_iff]
      have hx' := cellOffset_lt hx
      have hy' := cellOffset_lt hy
      rcases Nat.lt_trichotomy i j with hlt | rfl | hgt
      · have hstep : (i + 1) * ds.prod ≤ j * ds.prod := Nat.mul_le_mul_right _ hlt
        rw [Nat.add_mul, Nat.one_mul] at hstep
        simp only [hlt, true_or, iff_true]
        omega
      · simp only [Nat.add_lt_add_iff_left, lt_irrefl, false_or, true_and]
        exact ih hy
      · have hstep : (j + 1) * ds.prod ≤ i * ds.prod := Nat.mul_le_mul_right _ hgt
        rw [Nat.add_mul, Nat.one_mul] at hstep
        have hne : ¬ i < j := Nat.not_lt.mpr (Nat.le_of_lt hgt)
        have hne' : i ≠ j := Nat.ne_of_gt hgt
        simp only [hne, hne', false_and, or_self, iff_false, not_lt]
        omega

theorem cellOffset_inj {ds x y : List ℕ} (hx : List.Forall₂ (· < ·) x ds) (hy : List.Forall₂ (· < ·) y ds)
    (h : cellOffset ds x = cellOffset ds y) : x = y := by
  rcases lt_trichotomy x y with hlt | heq | hgt
  · exact absurd ((cellOffset_lt_iff hx hy).mpr hlt) (by omega)
  · exact heq
  · exact absurd ((cellOffset_lt_iff hy hx).mpr hgt) (by omega)

/-- The box lies inside an array with extents `ds`. -/
def Box.InArray (b : Box) (ds : List ℕ) : Prop :=
  List.Forall₂ (fun (p : ℕ × ℕ) d => p.1 + p.2 ≤ d) b ds

instance (b : Box) (ds : List ℕ) : Decidable (b.InArray ds) := inferInstanceAs (Decidable (List.Forall₂ _ _ _))

theorem Box.InArray.cell {b : Box} {ds x : List ℕ} (h : b.InArray ds) (hx : x ∈ b.cells) :
    List.Forall₂ (· < ·) x ds := by
  induction h generalizing x with
  | nil =>
      obtain rfl := List.mem_singleton.mp hx
      exact List.Forall₂.nil
  | @cons p d b ds hp _ ih =>
      obtain ⟨i, y, rfl⟩ := List.exists_cons_of_length_eq_add_one (Box.length_of_mem hx)
      obtain ⟨hi, hy⟩ := Box.mem_cells_cons.mp hx
      exact List.Forall₂.cons (by omega) (ih hy)

/-- A box with an index in every dimension lies in an array when its cells do. -/
theorem Box.inArray_of_cells {b : Box} {ds : List ℕ} (hne : b.Nonempty)
    (h : ∀ x ∈ b.cells, List.Forall₂ (· < ·) x ds) : b.InArray ds := by
  induction b generalizing ds with
  | nil =>
      have hnil := h [] (List.mem_singleton_self _)
      obtain rfl := List.length_eq_zero_iff.mp hnil.length_eq.symm
      exact List.Forall₂.nil
  | cons p b ih =>
      have hp := hne p (List.mem_cons_self ..)
      have hb : Box.Nonempty b := fun q hq => hne q (List.mem_cons_of_mem p hq)
      have hlast := h ((p.1 + p.2 - 1) :: Box.start b)
        (Box.mem_cells_cons.mpr ⟨⟨by omega, by omega⟩, Box.start_mem hb⟩)
      obtain ⟨d, ds, hd, -, rfl⟩ := List.forall₂_cons_left_iff.mp hlast
      refine List.Forall₂.cons (by omega) (ih hb fun x hx => ?_)
      exact (List.forall₂_cons.mp (h (p.1 :: x) (Box.mem_cells_cons.mpr ⟨⟨le_rfl, by omega⟩, hx⟩))).2

/-! ## §5 — places in a box. -/

/-- The place of a cell in a list of rows, one for each index from `lo` on. -/
theorem idxOf_rows {rows : List (List ℕ)} {x : List ℕ} (hx : x ∈ rows) {lo n i : ℕ} (hlo : lo ≤ i)
    (hi : i < lo + n) : ((List.range' lo n).flatMap fun j => rows.map (j :: ·)).idxOf (i :: x) =
      (i - lo) * rows.length + rows.idxOf x := by
  induction n generalizing lo with
  | zero => omega
  | succ n ih =>
      rw [List.range'_succ, List.flatMap_cons]
      rcases Nat.lt_or_eq_of_le hlo with hlt | rfl
      · have hnot : i :: x ∉ rows.map (lo :: ·) := by
          intro hmem
          obtain ⟨y, -, hy⟩ := List.mem_map.mp hmem
          have := (List.cons.inj hy).1
          omega
        rw [List.idxOf_append_of_notMem hnot, ih (by omega) (by omega), List.length_map,
          show i - lo = (i - (lo + 1)) + 1 by omega, Nat.add_mul, Nat.one_mul]
        omega
      · have hmem : lo :: x ∈ rows.map (lo :: ·) := List.mem_map_of_mem hx
        rw [List.idxOf_append_of_mem hmem, Nat.sub_self, Nat.zero_mul, Nat.zero_add]
        clear hmem ih
        induction rows with
        | nil => cases hx
        | cons y rows ih =>
            rw [List.map_cons, List.idxOf_cons, List.idxOf_cons]
            rcases List.mem_cons.mp hx with rfl | hx
            · simp
            · by_cases hyx : y = x
              · simp [hyx]
              · simp [ih hx]

/-- **The place of a cell among the cells of its box** is its place in an array of the extents of the
box, with the coordinates counted from the first cell. -/
theorem Box.idxOf_cells {b : Box} {x : List ℕ} (h : x ∈ b.cells) :
    b.cells.idxOf x = cellOffset (b.map Prod.snd) (List.zipWith (· - ·) x b.start) := by
  induction b generalizing x with
  | nil =>
      obtain rfl := List.mem_singleton.mp h
      rfl
  | cons p b ih =>
      obtain ⟨i, y, rfl⟩ := List.exists_cons_of_length_eq_add_one (Box.length_of_mem h)
      obtain ⟨⟨hlo, hi⟩, hy⟩ := Box.mem_cells_cons.mp h
      rw [Box.cells, idxOf_rows hy hlo hi, ih hy, Box.cells_length]
      rfl

/-- What two boxes share, if they share anything. -/
def Box.inter : Box → Box → Option Box
  | p :: a, q :: b =>
      if min (p.1 + p.2) (q.1 + q.2) ≤ max p.1 q.1 then none
      else (Box.inter a b).map
        ((max p.1 q.1, min (p.1 + p.2) (q.1 + q.2) - max p.1 q.1) :: ·)
  | _, _ => some []

/-- **The cells two boxes share**, in the order of the one as well as of the other. -/
theorem Box.inter_cells {a b : Box} (hlen : a.length = b.length) :
    (Box.inter a b).elim [] Box.cells = b.cells.filter (· ∈ a.cells) := by
  have hmem : ∀ x, x ∈ (Box.inter a b).elim [] Box.cells ↔ x ∈ a.cells ∧ x ∈ b.cells := by
    induction a generalizing b with
    | nil =>
        obtain rfl := List.length_eq_zero_iff.mp hlen.symm
        intro x
        simp [Box.inter, Box.cells]
    | cons p a ih =>
        obtain ⟨q, b, rfl⟩ := List.exists_cons_of_length_eq_add_one hlen.symm
        have hrest := ih (Nat.succ.inj hlen)
        have hout (i : ℕ) : max p.1 q.1 ≤ i ∧ i < min (p.1 + p.2) (q.1 + q.2) ↔
            (p.1 ≤ i ∧ i < p.1 + p.2) ∧ q.1 ≤ i ∧ i < q.1 + q.2 := by omega
        intro x
        rcases x with _ | ⟨i, y⟩
        · have hnil : [] ∉ Box.cells (p :: a) := fun h => by cases Box.length_of_mem h
          simp only [hnil, false_and, iff_false]
          rw [Box.inter]
          split
          · exact List.not_mem_nil
          · rcases Box.inter a b with _ | c
            · exact List.not_mem_nil
            · exact fun h => by cases Box.length_of_mem h
        rw [Box.mem_cells_cons, Box.mem_cells_cons, Box.inter]
        split
        · have := hout i
          refine iff_of_false List.not_mem_nil ?_
          rintro ⟨⟨hp, -⟩, hq, -⟩
          omega
        · have hy := hrest y
          rcases hinter : Box.inter a b with _ | c
          · rw [hinter] at hy
            refine iff_of_false List.not_mem_nil ?_
            rintro ⟨⟨-, hya⟩, -, hyb⟩
            exact List.not_mem_nil (hy.mpr ⟨hya, hyb⟩)
          · rw [hinter] at hy
            show i :: y ∈ Box.cells (_ :: c) ↔ _
            rw [Box.mem_cells_cons]
            have hin := hout i
            have hyc : y ∈ c.cells ↔ y ∈ Box.cells a ∧ y ∈ Box.cells b := hy
            rw [hyc]
            simp only
            rw [show max p.1 q.1 + (min (p.1 + p.2) (q.1 + q.2) - max p.1 q.1) =
              min (p.1 + p.2) (q.1 + q.2) by omega, hin]
            tauto
  have hsorted : ((Box.inter a b).elim [] Box.cells).Pairwise (· < ·) := by
    rcases Box.inter a b with _ | c
    · exact List.Pairwise.nil
    · exact c.cells_pairwise_lt
  have hfilter : (b.cells.filter (· ∈ a.cells)).Pairwise (· < ·) :=
    b.cells_pairwise_lt.sublist List.filter_sublist
  -- The cells of a box are sorted, so it is enough that the two have the same ones.
  refine List.Perm.eq_of_pairwise (fun x y _ _ hxy hyx => ?_) hsorted hfilter ?_
  · exact absurd (lt_trans hxy hyx) (lt_irrefl _)
  · refine (List.perm_ext_iff_of_nodup ?_ ?_).mpr fun x => ?_
    · exact hsorted.imp fun h => ne_of_lt h
    · exact hfilter.imp fun h => ne_of_lt h
    · rw [hmem, List.mem_filter, decide_eq_true_iff, and_comm]

/-- The box `c` lies inside the box `a`, with an index in every dimension. -/
def Box.Inside (c a : Box) : Prop :=
  List.Forall₂ (fun p q : ℕ × ℕ => q.1 ≤ p.1 ∧ p.1 + p.2 ≤ q.1 + q.2 ∧ 1 ≤ p.2) c a

theorem Box.inter_inside {a b c : Box} (hlen : a.length = b.length) (h : Box.inter a b = some c) :
    c.Inside a ∧ c.Inside b := by
  induction a generalizing b c with
  | nil =>
      obtain rfl := List.length_eq_zero_iff.mp hlen.symm
      obtain rfl := Option.some.inj h
      exact ⟨List.Forall₂.nil, List.Forall₂.nil⟩
  | cons p a ih =>
      obtain ⟨q, b, rfl⟩ := List.exists_cons_of_length_eq_add_one hlen.symm
      rw [Box.inter] at h
      split at h
      · cases h
      rename_i hroom
      obtain ⟨c, hc, rfl⟩ := Option.map_eq_some_iff.mp h
      obtain ⟨ha, hb⟩ := ih (Nat.succ.inj hlen) hc
      constructor
      · refine List.Forall₂.cons ⟨le_max_left _ _, ?_, ?_⟩ ha
        · show max p.1 q.1 + (min (p.1 + p.2) (q.1 + q.2) - max p.1 q.1) ≤ p.1 + p.2
          omega
        · show 1 ≤ min (p.1 + p.2) (q.1 + q.2) - max p.1 q.1
          omega
      · refine List.Forall₂.cons ⟨le_max_right _ _, ?_, ?_⟩ hb
        · show max p.1 q.1 + (min (p.1 + p.2) (q.1 + q.2) - max p.1 q.1) ≤ q.1 + q.2
          omega
        · show 1 ≤ min (p.1 + p.2) (q.1 + q.2) - max p.1 q.1
          omega

theorem Box.Inside.nonempty {c a : Box} (h : c.Inside a) : c.Nonempty := by
  induction h with
  | nil => exact fun q hq => absurd hq List.not_mem_nil
  | cons hpq _ ih => exact List.forall_mem_cons.mpr ⟨hpq.2.2, ih⟩

/-- A cell of a box inside another is a cell of that. -/
theorem Box.Inside.mem {c a : Box} (h : c.Inside a) {x : List ℕ} (hx : x ∈ c.cells) : x ∈ a.cells := by
  induction h generalizing x with
  | nil => exact hx
  | @cons p q c a hpq _ ih =>
      obtain ⟨i, y, rfl⟩ := List.exists_cons_of_length_eq_add_one (Box.length_of_mem hx)
      obtain ⟨hi, hy⟩ := Box.mem_cells_cons.mp hx
      exact Box.mem_cells_cons.mpr ⟨by omega, ih hy⟩

/-- The box `c` in coordinates counted from the first cell of the box `a`. -/
def Box.within (c a : Box) : Box := List.zipWith (fun p q => (p.1 - q.1, p.2)) c a

theorem Box.cells_within {c a : Box} (h : c.Inside a) :
    (Box.within c a).cells = c.cells.map fun x => List.zipWith (· - ·) x a.start := by
  induction h with
  | nil => rfl
  | @cons p q c a hpq _ ih =>
      have hrange : List.range' (p.1 - q.1) p.2 = (List.range' p.1 p.2).map (· - q.1) :=
        (List.map_sub_range' hpq.1 _).symm
      show (List.range' (p.1 - q.1) p.2).flatMap (fun i => (Box.cells (Box.within c a)).map (i :: ·)) =
        ((List.range' p.1 p.2).flatMap fun i => (Box.cells c).map (i :: ·)).map _
      rw [hrange, ih, List.flatMap_map, List.map_flatMap]
      simp only [List.map_map]
      rfl

/-- **The places of the cells of `c` among those of `a`** are the places of the cells of `c`, counted from
the first cell of `a`, in an array of the extents of `a`. -/
theorem Box.places_within {c a : Box} (h : c.Inside a) :
    (Box.within c a).cells.map (cellOffset (a.map Prod.snd)) = c.cells.map a.cells.idxOf := by
  rw [Box.cells_within h, List.map_map]
  exact List.map_congr_left fun x hx => (Box.idxOf_cells (h.mem hx)).symm

theorem Box.within_nonempty {c a : Box} (h : c.Inside a) : (Box.within c a).Nonempty := by
  induction h with
  | nil => exact fun p hp => absurd hp List.not_mem_nil
  | @cons p q c a hpq _ ih =>
      intro r hr
      rcases List.mem_cons.mp hr with rfl | hr
      · exact hpq.2.2
      · exact ih r hr

theorem Box.within_inArray {c a : Box} (h : c.Inside a) : (Box.within c a).InArray (a.map Prod.snd) := by
  induction h with
  | nil => exact List.Forall₂.nil
  | @cons p q c a hpq _ ih =>
      refine List.Forall₂.cons ?_ ih
      show p.1 - q.1 + p.2 ≤ q.2
      omega

end LogVol.Lib
