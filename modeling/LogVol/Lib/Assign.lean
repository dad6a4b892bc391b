/-
# LogVol.Lib.Assign — assignments made one after another.

An array written through a list of places, in order: of several assignments to one place the last stays. With
the places all different every value stays (`map_assign_zip`), and of an assignment that is followed by another
to its place nothing is left (`assign_overwritten`). Of batches the last one that has a place counts
(`assign_flatMap_last`), so that the order of two of them matters only where they have a place in common
(`assign_flatMap_byKey`). Lists of batches without a common place may be interleaved (`assign_interleaved`).
-/
import Mathlib.Data.List.Induction
import Mathlib.Data.List.Nodup
import Mathlib.Logic.Function.Basic

namespace LogVol.Lib

variable {α β : Type} [DecidableEq α]

/-- The assignments `ps`, made to `f` in order. -/
def assign (f : α → β) (ps : List (α × β)) : α → β := ps.foldl (fun f p => Function.update f p.1 p.2) f

@[simp] theorem assign_nil (f : α → β) : assign f [] = f := rfl

@[simp] theorem assign_cons (f : α → β) (p : α × β) (ps : List (α × β)) :
    assign f (p :: ps) = assign (Function.update f p.1 p.2) ps := rfl

theorem assign_append (f : α → β) (ps qs : List (α × β)) : assign f (ps ++ qs) = assign (assign f ps) qs :=
  List.foldl_append

/-- A place that is not assigned to keeps its value. -/
theorem assign_of_notMem {f : α → β} {ps : List (α × β)} {a : α} (h : a ∉ ps.map Prod.fst) :
    assign f ps a = f a := by
  induction ps generalizing f with
  | nil => rfl
  | cons p ps ih =>
      rw [List.map_cons, List.mem_cons, not_or] at h
      rw [assign_cons, ih h.2, Function.update_of_ne h.1]

/-- A place that is assigned to has one of its values. -/
theorem assign_mem {f : α → β} {ps : List (α × β)} {a : α} (h : a ∈ ps.map Prod.fst) :
    (a, assign f ps a) ∈ ps := by
  induction ps generalizing f with
  | nil => cases h
  | cons p ps ih =>
      rw [assign_cons]
      by_cases hlater : a ∈ ps.map Prod.fst
      · exact List.mem_cons_of_mem p (ih hlater)
      · rw [List.map_cons, List.mem_cons] at h
        obtain rfl := h.resolve_right hlater
        rw [assign_of_notMem hlater, Function.update_self]
        exact List.mem_cons_self ..

/-- What the places hold before does not matter to one that is assigned to. -/
theorem assign_congr {f g : α → β} {ps : List (α × β)} {a : α} (h : a ∈ ps.map Prod.fst ∨ f a = g a) :
    assign f ps a = assign g ps a := by
  induction ps generalizing f g with
  | nil => exact h.resolve_left List.not_mem_nil
  | cons p ps ih =>
      rw [assign_cons, assign_cons]
      apply ih
      by_cases hlater : a ∈ ps.map Prod.fst
      · exact Or.inl hlater
      · right
        by_cases heq : a = p.1
        · rw [heq, Function.update_self, Function.update_self]
        · rw [Function.update_of_ne heq, Function.update_of_ne heq]
          exact h.resolve_left (by simpa [heq] using hlater)

/-- **An assignment that is followed by another to its place** might as well not have been made. -/
theorem assign_overwritten (f : α → β) (ps : List (α × β)) {p : α × β} {qs : List (α × β)}
    (h : p.1 ∈ qs.map Prod.fst) : assign f (ps ++ p :: qs) = assign f (ps ++ qs) := by
  rw [assign_append, assign_append, assign_cons]
  funext a
  apply assign_congr
  by_cases heq : a = p.1
  · exact Or.inl (heq ▸ h)
  · exact Or.inr (Function.update_of_ne heq ..)

/-- **With the places all different** every value stays. -/
theorem map_assign_zip {f : α → β} {as : List α} {bs : List β} (hnodup : as.Nodup)
    (hlen : as.length = bs.length) : as.map (assign f (as.zip bs)) = bs := by
  induction as generalizing f bs with
  | nil => exact (List.length_eq_zero_iff.mp hlen.symm).symm
  | cons a as ih =>
      obtain ⟨b, bs, rfl⟩ := List.exists_cons_of_length_eq_add_one hlen.symm
      have hlen' : as.length = bs.length := Nat.succ.inj hlen
      obtain ⟨hnew, hnodup⟩ := List.nodup_cons.mp hnodup
      rw [List.zip_cons_cons, assign_cons, List.map_cons, ih hnodup hlen', assign_of_notMem]
      · rw [Function.update_self]
      · rwa [List.map_fst_zip (Nat.le_of_eq hlen')]

/-- Assigning what is there changes nothing. -/
theorem assign_zip_map (f : α → β) (as : List α) : assign f (as.zip (as.map f)) = f := by
  induction as with
  | nil => rfl
  | cons a as ih =>
      rw [List.map_cons, List.zip_cons_cons, assign_cons, Function.update_eq_self, ih]

/-- **With two places the same** one of the values is nowhere any more. -/
theorem exists_assign_lost (f : α → β) {ps : List (α × β)} (h : ¬ (ps.map Prod.fst).Nodup) :
    ∃ pre p post, ps = pre ++ p :: post ∧
      ∀ a ∈ ps.map Prod.fst, assign f ps a ∈ (pre ++ post).map Prod.snd := by
  induction ps generalizing f with
  | nil => exact absurd List.nodup_nil h
  | cons q qs ih =>
      by_cases hq : q.1 ∈ qs.map Prod.fst
      · refine ⟨[], q, qs, rfl, fun a ha => ?_⟩
        have hlater : a ∈ qs.map Prod.fst := by
          rcases List.mem_cons.mp ha with rfl | ha
          · exact hq
          · exact ha
        have heq : assign f (q :: qs) = assign f qs := assign_overwritten f [] hq
        rw [heq]
        exact List.mem_map.mpr ⟨_, assign_mem hlater, rfl⟩
      · have hrest : ¬ (qs.map Prod.fst).Nodup := fun hnodup => h (List.nodup_cons.mpr ⟨hq, hnodup⟩)
        obtain ⟨pre, p, post, rfl, hlost⟩ := ih (Function.update f q.1 q.2) hrest
        refine ⟨q :: pre, p, post, rfl, fun a ha => ?_⟩
        rw [assign_cons]
        rcases List.mem_cons.mp ha with rfl | ha
        · rw [assign_of_notMem hq, Function.update_self]
          exact List.mem_cons_self ..
        · exact List.mem_cons_of_mem _ (hlost a ha)

/-! ## The value of a place. -/

/-- Only the assignments to a place matter to it. -/
theorem assign_eq_of_filter {f : α → β} {ps qs : List (α × β)} {a : α}
    (h : ps.filter (fun p => p.1 = a) = qs.filter fun p => p.1 = a) : assign f ps a = assign f qs a := by
  have hfilter : ∀ (ps : List (α × β)) (f g : α → β), f a = g a →
      assign f ps a = assign g (ps.filter fun p => p.1 = a) a := by
    intro ps
    induction ps with
    | nil => exact fun f g hfg => hfg
    | cons p ps ih =>
      intro f g hfg
      rw [assign_cons]
      by_cases hp : p.1 = a
      · rw [List.filter_cons_of_pos (by simpa using hp), assign_cons]
        apply ih
        rw [hp, Function.update_self, Function.update_self]
      · rw [List.filter_cons_of_neg (by simpa using hp)]
        apply ih
        rw [Function.update_of_ne (Ne.symm hp), hfg]
  rw [hfilter ps f f rfl, hfilter qs f f rfl, h]

section Batches

variable {ι : Type} (as : ι → List (α × β))

/-- Batches that do not assign to a place do not matter to it. -/
theorem assign_flatMap_filter (f : α → β) (ws : List ι) {a : α} (keep : ι → Bool)
    (h : ∀ w ∈ ws, a ∈ (as w).map Prod.fst → keep w = true) :
    assign f (ws.flatMap as) a = assign f ((ws.filter keep).flatMap as) a := by
  apply assign_eq_of_filter
  induction ws with
  | nil => rfl
  | cons w ws ih =>
    rw [List.flatMap_cons, List.filter_append, ih fun v hv => h v (List.mem_cons_of_mem w hv)]
    by_cases hw : keep w = true
    · rw [List.filter_cons_of_pos hw, List.flatMap_cons, List.filter_append]
    · rw [List.filter_cons_of_neg hw]
      have hnone : (as w).filter (fun p => p.1 = a) = [] := by
        rw [List.filter_eq_nil_iff]
        intro p hp heq
        apply hw
        apply h w (List.mem_cons_self ..)
        exact List.mem_map.mpr ⟨p, hp, by simpa using heq⟩
      rw [hnone, List.nil_append]

/-- **Of batches that assign one value to a place, or nothing**, the last one that assigns to it is left. -/
theorem assign_flatMap_last (f : α → β) {a : α} {covers : ι → Bool} {val : ι → β} {ws : List ι}
    (hval : ∀ w ∈ ws, ∀ p ∈ as w, p.1 = a → p.2 = val w)
    (hcovers : ∀ w ∈ ws, covers w = true ↔ a ∈ (as w).map Prod.fst) :
    assign f (ws.flatMap as) a = (ws.filter covers).getLast?.elim (f a) val := by
  induction ws using List.reverseRecOn with
  | nil => rfl
  | append_singleton ws w ih =>
    rw [List.forall_mem_append] at hval hcovers
    have hw := hcovers.2 w (List.mem_singleton_self w)
    rw [List.flatMap_append, assign_append, List.flatMap_singleton, List.filter_append]
    by_cases hc : covers w = true
    · -- the last one assigns to it
      have hmem := assign_mem (f := assign f (ws.flatMap as)) (hw.mp hc)
      rw [List.filter_cons_of_pos hc, List.filter_nil, List.getLast?_append, List.getLast?_singleton]
      exact hval.2 w (List.mem_singleton_self w) _ hmem rfl
    · rw [assign_of_notMem fun hmem => hc (hw.mpr hmem), List.filter_cons_of_neg hc, List.filter_nil,
        List.append_nil]
      exact ih hval.1 hcovers.1

/-- In the order of their keys, the small ones come first. -/
theorem filter_lt_append {ws : List (ℕ × ι)} (h : ws.Pairwise fun v w => v.1 ≤ w.1) (m : ℕ) :
    ws.filter (fun w => w.1 < m) ++ ws.filter (fun w => ¬ w.1 < m) = ws := by
  induction h with
  | nil => rfl
  | @cons w ws hle _ ih =>
    by_cases hw : w.1 < m
    · simpa [hw] using ih
    · have hall : ∀ v ∈ w :: ws, ¬ v.1 < m := by
        refine List.forall_mem_cons.mpr ?_
        refine ⟨hw, fun v hv => ?_⟩
        have := hle v hv
        omega
      rw [List.filter_eq_nil_iff.mpr, List.nil_append, List.filter_eq_self.mpr]
      · simpa using hall
      · simpa using hall

/-- A list in the order of its keys is what comes out when it is taken apart by key. -/
theorem flatMap_filter_sorted {ws : List (ℕ × ι)} (h : ws.Pairwise fun v w => v.1 ≤ w.1) {n : ℕ}
    (hlt : ∀ w ∈ ws, w.1 < n) : ((List.range n).flatMap fun i => ws.filter fun w => w.1 = i) = ws := by
  induction n generalizing ws with
  | zero =>
    rcases ws with _ | ⟨w, ws⟩
    · rfl
    · exact absurd (hlt w (List.mem_cons_self ..)) (Nat.not_lt_zero _)
  | succ n ih =>
    have hlow := @ih (ws.filter fun w => w.1 < n) (h.filter _) (by simp)
    have hhigh : (ws.filter fun w => w.1 = n) = ws.filter fun w => ¬ w.1 < n := by
      apply List.filter_congr
      intro w hw
      have := hlt w hw
      simp only [decide_eq_decide]
      omega
    rw [List.range_succ, List.flatMap_append, List.flatMap_singleton, hhigh]
    conv_rhs => rw [← filter_lt_append h n, ← hlow]
    congr 1
    rw [List.flatMap_def, List.flatMap_def]
    congr 1
    apply List.map_congr_left
    intro i hi
    rw [List.filter_filter]
    apply List.filter_congr
    intro w _
    have := List.mem_range.mp hi
    simp only [decide_eq_decide, ← Bool.decide_and]
    omega

/-- A list that is taken apart by key is the same, but for the order. -/
theorem flatMap_filter_perm (key : ι → ℕ) {ws : List ι} {n : ℕ} (hlt : ∀ w ∈ ws, key w < n) :
    ((List.range n).flatMap fun i => ws.filter fun w => key w = i).Perm ws := by
  induction n generalizing ws with
  | zero =>
    rcases ws with _ | ⟨w, ws⟩
    · exact List.Perm.refl []
    · exact absurd (hlt w (List.mem_cons_self ..)) (Nat.not_lt_zero _)
  | succ n ih =>
    have hlow := @ih (ws.filter fun w => key w < n) (by simp)
    -- The last key takes what the ones below it leave.
    have hhigh : (ws.filter fun w => key w = n) = ws.filter fun w => !decide (key w < n) := by
      apply List.filter_congr
      intro w hw
      have := hlt w hw
      rw [← decide_not, decide_eq_decide]
      omega
    have hsame : ((List.range n).flatMap fun i => (ws.filter fun w => key w < n).filter fun w => key w = i) =
        (List.range n).flatMap fun i => ws.filter fun w => key w = i := by
      rw [List.flatMap_def, List.flatMap_def]
      congr 1
      apply List.map_congr_left
      intro i hi
      rw [List.filter_filter]
      apply List.filter_congr
      intro w _
      have := List.mem_range.mp hi
      rw [← Bool.decide_and, decide_eq_decide]
      omega
    rw [hsame] at hlow
    rw [List.range_succ, List.flatMap_append, List.flatMap_singleton, hhigh]
    exact (hlow.append_right _).trans (List.filter_append_perm ..)

/-- **Batches taken key by key** leave the places as they do in their order, if of two that assign to one place the
first has not the greater key. -/
theorem assign_flatMap_byKey (f : α → β) {ws : List (ℕ × ι)}
    (h : ws.Pairwise fun v w => (∃ a, a ∈ (as v.2).map Prod.fst ∧ a ∈ (as w.2).map Prod.fst) → v.1 ≤ w.1) {n : ℕ}
    (hlt : ∀ w ∈ ws, w.1 < n) :
    assign f (((List.range n).flatMap fun i => ws.filter fun w => w.1 = i).flatMap fun w => as w.2) =
      assign f (ws.flatMap fun w => as w.2) := by
  funext a
  have hkeep : ∀ us : List (ℕ × ι), assign f (us.flatMap fun w => as w.2) a =
      assign f ((us.filter fun w => (as w.2).any fun p => p.1 = a).flatMap fun w => as w.2) a := by
    intro us
    apply assign_flatMap_filter
    intro w _ ha
    obtain ⟨p, hp, rfl⟩ := List.mem_map.mp ha
    exact List.any_eq_true.mpr ⟨p, hp, by simp⟩
  -- among the batches that assign to `a` the keys are in order
  have hsorted : (ws.filter fun w => (as w.2).any fun p => p.1 = a).Pairwise fun v w => v.1 ≤ w.1 := by
    refine (h.filter _).imp_of_mem ?_
    intro v w hv hw hvw
    apply hvw
    refine ⟨a, ?_, ?_⟩
    · simpa using (List.mem_filter.mp hv).2
    · simpa using (List.mem_filter.mp hw).2
  have hall := flatMap_filter_sorted hsorted fun w hw => hlt w (List.mem_of_mem_filter hw)
  rw [hkeep, hkeep ws, List.filter_flatMap, ← hall]
  simp only [List.filter_filter, Bool.and_comm]

/-- Batches may be replaced one by one. -/
theorem assign_flatMap_congr {as bs : ι → List (α × β)} {ws : List ι}
    (h : ∀ w ∈ ws, ∀ f, assign f (as w) = assign f (bs w)) (f : α → β) :
    assign f (ws.flatMap as) = assign f (ws.flatMap bs) := by
  induction ws generalizing f with
  | nil => rfl
  | cons w ws ih =>
    rw [List.forall_mem_cons] at h
    rw [List.flatMap_cons, List.flatMap_cons, assign_append, assign_append, h.1, ih h.2]

end Batches

/-! ## Interleaving. -/

/-- `ws` interleaves the lists of `n` processes: each of them has its own in order. -/
structure Interleaves {ι : Type} (n : ℕ) (lists : ℕ → List ι) (ws : List (ℕ × ι)) : Prop where
  lt : ∀ w ∈ ws, w.1 < n
  each : ∀ r < n, (ws.filter fun w => w.1 = r).map Prod.snd = lists r

theorem Interleaves.mem {ι : Type} {n : ℕ} {lists : ℕ → List ι} {ws : List (ℕ × ι)} (h : Interleaves n lists ws)
    {w : ℕ × ι} (hw : w ∈ ws) : w.2 ∈ lists w.1 := by
  rw [← h.each w.1 (h.lt w hw)]
  exact List.mem_map_of_mem (List.mem_filter.mpr ⟨hw, by simp⟩)

/-- **Lists of batches, interleaved somehow,** leave what they do one list after another, if no two processes assign
to one place. -/
theorem assign_interleaved {ι : Type} (as : ι → List (α × β)) (f : α → β) {n : ℕ} {lists : ℕ → List ι}
    {ws : List (ℕ × ι)} (h : Interleaves n lists ws)
    (hapart : ∀ r < n, ∀ s < n, ∀ v ∈ lists r, ∀ w ∈ lists s,
      (∃ a, a ∈ (as v).map Prod.fst ∧ a ∈ (as w).map Prod.fst) → r = s) :
    assign f (ws.flatMap fun w => as w.2) = assign f (((List.range n).flatMap lists).flatMap as) := by
  have hpair : ws.Pairwise fun v w =>
      (∃ a, a ∈ (as v.2).map Prod.fst ∧ a ∈ (as w.2).map Prod.fst) → v.1 ≤ w.1 := by
    apply List.pairwise_of_forall_mem_list
    intro v hv w hw hshared
    apply Nat.le_of_eq
    exact hapart v.1 (h.lt v hv) w.1 (h.lt w hw) v.2 (h.mem hv) w.2 (h.mem hw) hshared
  rw [← assign_flatMap_byKey as f hpair h.lt]
  congr 1
  rw [List.flatMap_assoc, List.flatMap_assoc]
  apply List.flatMap_congr
  intro r hr
  rw [← h.each r (List.mem_range.mp hr), List.flatMap_map]

end LogVol.Lib
