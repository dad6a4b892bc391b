/-
# LogVol.Lib.Shrunk — cells of arrays that lost something.

Extents and coordinates kept in too narrow a type come out smaller or not at all. Then a cell can only move down
(`cellOffset_le`), and one that is still at its place has not changed (`eq_of_cellOffset_eq`).
-/
import LogVol.Lib.Boxes

namespace LogVol.Lib

/-- A smaller cell of a smaller array has no later place. -/
theorem cellOffset_le {cs ds x y : List ℕ} (hc : List.Forall₂ (· ≤ ·) cs ds) (hx : List.Forall₂ (· ≤ ·) x y) :
    cellOffset cs x ≤ cellOffset ds y := by
  induction hc generalizing x y with
  | nil => simp [cellOffset, suffixProds, natValue]
  | @cons c d cs ds _ hcs ih =>
      cases hx with
      | nil => simp [cellOffset, suffixProds, natValue]
      | @cons i j x y hij hxy =>
          rw [cellOffset_cons, cellOffset_cons]
          have hprod : cs.prod ≤ ds.prod := hcs.prod_le_prod'
          exact Nat.add_le_add (Nat.mul_le_mul hij hprod) (ih hxy)

/-- A smaller cell with the same place is the same cell. -/
theorem eq_of_cellOffset_eq {cs ds x y : List ℕ} (hpos : ∀ c ∈ cs, 1 ≤ c) (hc : List.Forall₂ (· ≤ ·) cs ds)
    (hlen : x.length = cs.length) (hx : List.Forall₂ (· ≤ ·) x y) (h : cellOffset cs x = cellOffset ds y) :
    x = y := by
  induction hc generalizing x y with
  | nil =>
      obtain rfl := List.length_eq_zero_iff.mp hlen
      cases hx
      rfl
  | @cons c d cs ds _ hcs ih =>
      cases hx with
      | nil => cases hlen
      | @cons i j x y hij hxy =>
          rw [cellOffset_cons, cellOffset_cons] at h
          have hrest := cellOffset_le hcs hxy
          have hprod : cs.prod ≤ ds.prod := hcs.prod_le_prod'
          have hone : 1 ≤ cs.prod := List.one_le_prod fun c hc => hpos c (List.mem_cons_of_mem _ hc)
          have hmul : i * cs.prod ≤ j * ds.prod := Nat.mul_le_mul hij hprod
          have hhead : i = j := by
            by_contra hne
            have hlt : i * cs.prod < j * cs.prod := Nat.mul_lt_mul_of_pos_right (by omega) hone
            have hle : j * cs.prod ≤ j * ds.prod := Nat.mul_le_mul_left j hprod
            omega
          have htail := ih (fun c hc => hpos c (List.mem_cons_of_mem _ hc)) (Nat.succ.inj hlen) hxy (by omega)
          rw [hhead, htail]

end LogVol.Lib
