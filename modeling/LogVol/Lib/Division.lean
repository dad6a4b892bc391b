/-
# LogVol.Lib.Division — dividing the items of numbered parts among workers.

`m` parts are divided among `n` workers in one of two ways. Each worker takes a run of whole parts
(`flatMap_slices`): with the cuts at `r * m / n` the runs cover every part once. Or each worker is
assigned one part and takes some of its items (`assigned_perm_iff`): then every item is taken exactly once
exactly when every part that holds items has one worker and that worker takes all of it.
-/
import Mathlib

namespace LogVol.Lib

/-! ## §1 — runs of whole parts. -/

/-- The parts before worker `r`. -/
def cut (m n r : Nat) : Nat := r * m / n

theorem cut_zero (m n : Nat) : cut m n 0 = 0 := by
  rw [cut, Nat.zero_mul, Nat.zero_div]

theorem cut_self {m n : Nat} (hn : 0 < n) : cut m n n = m := by
  rw [cut, Nat.mul_comm, Nat.mul_div_cancel _ hn]

theorem cut_le_succ (m n r : Nat) : cut m n r ≤ cut m n (r + 1) := by
  apply Nat.div_le_div_right
  exact Nat.mul_le_mul_right m (Nat.le_succ r)

theorem cut_lt {m n r : Nat} (hr : r < n) (hm : 0 < m) : cut m n r < m := by
  rw [cut, Nat.div_lt_iff_lt_mul (by omega), Nat.mul_comm m n]
  exact Nat.mul_lt_mul_of_pos_right hr hm

/-- With at least as many parts as workers, only the first worker starts at the first part. -/
theorem cut_pos {m n r : Nat} (hmn : n ≤ m) (hn : 0 < n) (hr : 0 < r) : 0 < cut m n r := by
  apply Nat.div_pos _ hn
  calc n ≤ m := hmn
    _ = 1 * m := (Nat.one_mul m).symm
    _ ≤ r * m := Nat.mul_le_mul_right m hr

/-- A worker starts at part `k` when the part's share of the workers begins at or before it. -/
theorem cut_eq_iff {m n r k : Nat} (hn : 0 < n) :
    cut m n r = k ↔ k * n ≤ r * m ∧ r * m < (k + 1) * n := by
  rw [cut, Nat.div_eq_iff hn]
  have hk : (k + 1) * n = k * n + n := by ring
  omega

/-- Consecutive slices of a list are the list. -/
theorem flatMap_slices {α : Type} (xs : List α) {c : Nat → Nat} (hzero : c 0 = 0)
    (hmono : ∀ r, c r ≤ c (r + 1)) (n : Nat) :
    (List.range n).flatMap (fun r => (xs.take (c (r + 1))).drop (c r)) = xs.take (c n) := by
  induction n with
  | zero => rw [hzero, List.take_zero]; rfl
  | succ n ih =>
      rw [List.range_succ, List.flatMap_append, ih, List.flatMap_singleton]
      have htake : xs.take (c n) = (xs.take (c (n + 1))).take (c n) := by
        rw [List.take_take, Nat.min_eq_left (hmono n)]
      rw [htake, List.take_append_drop]

/-! ## §2 — one part a worker. -/

section Assigned

variable {α : Type} {m n : Nat} {part : Nat → Nat} {took whole : Nat → List α}

/-- The workers assigned to a part. -/
def carriers (n : Nat) (part : Nat → Nat) (k : Nat) : Finset Nat :=
  (Finset.range n).filter fun r => part r = k

theorem card_carriers_eq_one {k : Nat} :
    (carriers n part k).card = 1 ↔ ∃! r, r < n ∧ part r = k := by
  rw [Finset.card_eq_one]
  constructor
  · rintro ⟨r, hr⟩
    have hmem (q : Nat) : (q < n ∧ part q = k) ↔ q = r := by
      rw [← @Finset.mem_singleton _ r q, ← hr, carriers, Finset.mem_filter, Finset.mem_range]
    exact ⟨r, (hmem r).mpr rfl, fun q hq => (hmem q).mp hq⟩
  · rintro ⟨r, hr, huniq⟩
    refine ⟨r, Finset.ext fun q => ?_⟩
    rw [carriers, Finset.mem_filter, Finset.mem_range, Finset.mem_singleton]
    exact ⟨huniq q, fun h => h ▸ hr⟩

/-- An item is in one part only. -/
theorem part_unique (hnodup : ((List.range m).flatMap whole).Nodup) {k k' : Nat} (hk : k < m)
    (hk' : k' < m) {x : α} (hx : x ∈ whole k) (hx' : x ∈ whole k') : k = k' := by
  by_contra hne
  have hsymm : Std.Symm (Function.onFun List.Disjoint whole) := ⟨fun _ _ h => List.Disjoint.symm h⟩
  exact (List.nodup_flatMap.mp hnodup).2.forall (List.mem_range.mpr hk) (List.mem_range.mpr hk') hne
    hx hx'

variable [DecidableEq α]

/-- How often an item is taken: once for every carrier of a part and every time it is taken there. -/
theorem count_assigned (hpart : ∀ r < n, part r < m) (x : α) :
    ((List.range n).flatMap fun r => took (part r)).count x =
      ∑ k ∈ Finset.range m, (carriers n part k).card * (took k).count x := by
  have hsum : ((List.range n).flatMap fun r => took (part r)).count x =
      ∑ r ∈ Finset.range n, (took (part r)).count x := by
    rw [List.count_flatMap]
    rfl
  have hmaps : ∀ r ∈ Finset.range n, part r ∈ Finset.range m := fun r hr =>
    Finset.mem_range.mpr (hpart r (Finset.mem_range.mp hr))
  rw [hsum, ← Finset.sum_fiberwise_of_maps_to hmaps]
  apply Finset.sum_congr rfl
  intro k _
  rw [← smul_eq_mul, ← Finset.sum_const]
  apply Finset.sum_congr rfl
  intro r hr
  rw [(Finset.mem_filter.mp hr).2]

/-- An item of part `k` is taken by the carriers of `k` only. -/
theorem count_assigned_part (hpart : ∀ r < n, part r < m)
    (hnodup : ((List.range m).flatMap whole).Nodup) (hsub : ∀ k < m, (took k).Sublist (whole k))
    {k : Nat} (hk : k < m) {x : α} (hx : x ∈ whole k) :
    ((List.range n).flatMap fun r => took (part r)).count x =
      (carriers n part k).card * (took k).count x := by
  rw [count_assigned hpart]
  apply Finset.sum_eq_single_of_mem k (Finset.mem_range.mpr hk)
  intro k' hk' hne
  have hnot : x ∉ took k' := fun hx' =>
    hne (part_unique hnodup (Finset.mem_range.mp hk') hk
      ((hsub k' (Finset.mem_range.mp hk')).subset hx') hx)
  rw [List.count_eq_zero_of_not_mem hnot, Nat.mul_zero]

/-- **Every item is taken exactly once** exactly when every part with items has one worker, who takes all
of it; a worker takes items of its part in order, and some when there are any. -/
theorem assigned_perm_iff (hpart : ∀ r < n, part r < m)
    (hnodup : ((List.range m).flatMap whole).Nodup) (hsub : ∀ k < m, (took k).Sublist (whole k)) :
    ((List.range n).flatMap fun r => took (part r)).Perm ((List.range m).flatMap whole) ↔
      ∀ k < m, whole k ≠ [] → (∃! r, r < n ∧ part r = k) ∧ took k = whole k := by
  have hone {k : Nat} (hk : k < m) {x : α} (hx : x ∈ whole k) :
      ((List.range m).flatMap whole).count x = 1 :=
    List.count_eq_one_of_mem hnodup (List.mem_flatMap.mpr ⟨k, List.mem_range.mpr hk, hx⟩)
  have hwhole (k : Nat) (hk : k < m) : (whole k).Nodup :=
    (List.nodup_flatMap.mp hnodup).1 k (List.mem_range.mpr hk)
  rw [List.perm_iff_count]
  constructor
  · intro hperm k hk hne
    -- How often an item is taken is the number of workers of its part times how often each takes it.
    have hboth (x : α) (hx : x ∈ whole k) : (carriers n part k).card = 1 ∧ x ∈ took k := by
      have hprod : (carriers n part k).card * (took k).count x = 1 := by
        rw [← count_assigned_part hpart hnodup hsub hk hx, hperm, hone hk hx]
      have hcount := Nat.eq_one_of_mul_eq_one_left hprod
      refine ⟨Nat.eq_one_of_mul_eq_one_right hprod, ?_⟩
      apply List.count_pos_iff.mp
      omega
    obtain ⟨x, hx⟩ := List.exists_mem_of_ne_nil _ hne
    refine ⟨card_carriers_eq_one.mp (hboth x hx).1, ?_⟩
    apply (hsub k hk).eq_of_length_le
    exact (List.Nodup.subperm (hwhole k hk) fun y hy => (hboth y hy).2).length_le
  · intro h x
    by_cases hx : x ∈ (List.range m).flatMap whole
    · obtain ⟨k, hk, hxk⟩ := List.mem_flatMap.mp hx
      have hk := List.mem_range.mp hk
      obtain ⟨huniq, htook⟩ := h k hk (List.ne_nil_of_mem hxk)
      rw [count_assigned_part hpart hnodup hsub hk hxk, card_carriers_eq_one.mpr huniq, htook,
        hone hk hxk, List.count_eq_one_of_mem (hwhole k hk) hxk]
    · rw [List.count_eq_zero_of_not_mem hx]
      apply List.count_eq_zero_of_not_mem
      intro htaken
      obtain ⟨r, hr, hxr⟩ := List.mem_flatMap.mp htaken
      have hlt := hpart r (List.mem_range.mp hr)
      exact hx (List.mem_flatMap.mpr ⟨part r, List.mem_range.mpr hlt, (hsub _ hlt).subset hxr⟩)

end Assigned

end LogVol.Lib
