/-
# LogVol.Lib.BoxRows — the rows of a box in an array.

A box counted from its own first cell has the cells of the box, moved (`Box.cells_shift`), and so have their
places in an array (`cellOffset_add`). What a box has in the last dimension at one place in the others is a row:
its cells are next to each other in the array (`cellOffset_concat`). The last cell of a box comes after all the
others.
-/
import LogVol.Lib.Boxes

namespace LogVol.Lib

/-- The last cell. -/
def Box.last (b : Box) : List ℕ := b.map fun p => p.1 + p.2 - 1

theorem Box.last_mem {b : Box} (h : b.Nonempty) : b.last ∈ b.cells := by
  induction b with
  | nil => exact List.mem_singleton_self _
  | cons p b ih =>
    obtain ⟨hp, hb⟩ := List.forall_mem_cons.mp h
    have hlast : p.1 ≤ p.1 + p.2 - 1 ∧ p.1 + p.2 - 1 < p.1 + p.2 := by omega
    exact Box.mem_cells_cons.mpr ⟨hlast, ih hb⟩

/-- No cell comes after the last. -/
theorem Box.le_last {b : Box} {x : List ℕ} (h : x ∈ b.cells) : x ≤ b.last := by
  induction b generalizing x with
  | nil =>
    obtain rfl := List.mem_singleton.mp h
    exact le_rfl
  | cons p b ih =>
    obtain ⟨i, y, rfl⟩ := List.exists_cons_of_length_eq_add_one (Box.length_of_mem h)
    obtain ⟨⟨-, hi⟩, hy⟩ := Box.mem_cells_cons.mp h
    rw [Box.last, List.map_cons, cons_le_cons_iff_lex]
    rcases Nat.lt_or_eq_of_le (Nat.le_sub_one_of_lt hi) with hlt | heq
    · exact Or.inl hlt
    · exact Or.inr ⟨heq, ih hy⟩

/-- Box extents, counted from the first cell. -/
def fromZero (counts : List ℕ) : Box := counts.map (0, ·)

/-- **The cells of a box** are its first cell, moved. -/
theorem Box.cells_shift {start counts : List ℕ} (h : start.length = counts.length) :
    Box.cells (start.zip counts) = (Box.cells (fromZero counts)).map (List.zipWith (· + ·) start) := by
  induction start generalizing counts with
  | nil =>
    obtain rfl := List.length_eq_zero_iff.mp h.symm
    rfl
  | cons s start ih =>
    obtain ⟨n, counts, rfl⟩ := List.exists_cons_of_length_eq_add_one h.symm
    have hrange : List.range' s n = (List.range' 0 n).map (s + ·) := by
      rw [List.map_add_range', Nat.add_zero]
    show (List.range' s n).flatMap (fun i => (Box.cells (start.zip counts)).map (i :: ·)) =
      ((List.range' 0 n).flatMap fun i => (Box.cells (fromZero counts)).map (i :: ·)).map _
    rw [hrange, ih (Nat.succ.inj h), List.flatMap_map, List.map_flatMap]
    simp only [List.map_map]
    rfl

theorem cellOffset_add {ds s c : List ℕ} (hs : s.length = ds.length) (hc : c.length = ds.length) :
    cellOffset ds (List.zipWith (· + ·) s c) = cellOffset ds s + cellOffset ds c := by
  induction ds generalizing s c with
  | nil =>
    obtain rfl := List.length_eq_zero_iff.mp hs
    rfl
  | cons d ds ih =>
    obtain ⟨i, s, rfl⟩ := List.exists_cons_of_length_eq_add_one hs
    obtain ⟨j, c, rfl⟩ := List.exists_cons_of_length_eq_add_one hc
    rw [List.zipWith_cons_cons, cellOffset_cons, cellOffset_cons, cellOffset_cons,
      ih (Nat.succ.inj hs) (Nat.succ.inj hc)]
    ring

/-- **A row**: along the last dimension the places are next to each other. -/
theorem cellOffset_concat {ds x : List ℕ} (h : x.length = ds.length) (d i : ℕ) :
    cellOffset (ds ++ [d]) (x ++ [i]) = cellOffset ds x * d + i := by
  induction ds generalizing x with
  | nil =>
    obtain rfl := List.length_eq_zero_iff.mp h
    show i * 1 + 0 = 0 * d + i
    omega
  | cons e ds ih =>
    obtain ⟨j, x, rfl⟩ := List.exists_cons_of_length_eq_add_one h
    rw [List.cons_append, List.cons_append, cellOffset_cons, cellOffset_cons, ih (Nat.succ.inj h), List.prod_append,
      List.prod_singleton]
    ring

/-- The cells of a box are those of its rows. -/
theorem mem_fromZero_concat {counts x : List ℕ} {n : ℕ} :
    x ∈ Box.cells (fromZero (counts ++ [n])) ↔
      ∃ c ∈ Box.cells (fromZero counts), ∃ e < n, x = c ++ [e] := by
  have hsplit : fromZero (counts ++ [n]) = fromZero counts ++ [(0, n)] := List.map_append
  have hlast : Box.cells [(0, n)] = (List.range' 0 n).map fun i => [i] := List.map_eq_flatMap.symm
  rw [hsplit, Box.cells_append, hlast]
  simp only [List.mem_flatMap, List.mem_map, List.mem_range'_1]
  constructor
  · rintro ⟨c, hc, _, ⟨e, he, rfl⟩, rfl⟩
    exact ⟨c, hc, e, by omega, rfl⟩
  · rintro ⟨c, hc, e, he, rfl⟩
    exact ⟨c, hc, _, ⟨e, by omega, rfl⟩, rfl⟩

end LogVol.Lib
