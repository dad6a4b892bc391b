/-
# LogVol.SortOffsets — sorting rows by where they are in the file.

`sortoffsets` sorts three arrays side by side: up to fifteen places by passes of swaps, more of them by taking
the one in the middle as the pivot. `sortoffsets_perm` and `sortoffsets_sorted` say that it sorts.
-/
import LogVol.Lib.Moves

namespace LogVol

open Lib (Move)

/-! ## §1 — the code. -/

/-- A pass over what is behind `a`: of two neighbours the one that is first in the file comes first. -/
def bubble (a : Move) : List Move → List Move
  | [] => [a]
  | b :: ms => if b.src < a.src then b :: bubble a ms else a :: bubble b ms

def bubblePass : List Move → List Move
  | [] => []
  | a :: ms => bubble a ms

/-- Passes until one swaps nothing. -/
def smallSort : ℕ → List Move → List Move
  | 0, ms => ms
  | fuel + 1, ms => if bubblePass ms = ms then ms else smallSort fuel (bubblePass ms)

/-- What the loop leaves in front of place `j`, and between `j` and the place it is at: what is less than the
pivot is swapped with the first of the others. -/
def partitionStep (pivot : Move) (s : List Move × List Move) (m : Move) : List Move × List Move :=
  if m.src < pivot.src then (s.1 ++ [m], s.2.rotate 1) else (s.1, s.2 ++ [m])

def partitionAt (pivot : Move) (ms : List Move) : List Move × List Move := ms.foldl (partitionStep pivot) ([], [])

theorem partition_length (pivot : Move) (ms : List Move) :
    (partitionAt pivot ms).1.length + (partitionAt pivot ms).2.length = ms.length := by
  have hfold : ∀ (ms : List Move) (s : List Move × List Move),
      (ms.foldl (partitionStep pivot) s).1.length + (ms.foldl (partitionStep pivot) s).2.length =
        s.1.length + s.2.length + ms.length := by
    intro ms
    induction ms with
    | nil => exact fun _ => rfl
    | cons m ms ih =>
      intro s
      rw [List.foldl_cons, ih]
      unfold partitionStep
      split
      · simp
        omega
      · simp
        omega
  simpa [partitionAt] using hfold ms ([], [])

/-- **`sortoffsets`** — the pivot is swapped to the end, and in the end with the first that is not less. -/
def sortoffsets (ms : List Move) : List Move :=
  if ms.length < 16 then smallSort ms.length ms
  else match _h : ms.drop (ms.length / 2) with
    | [] => ms
    | pivot :: behind =>
        let parts := partitionAt pivot (ms.take (ms.length / 2) ++ behind.rotate (behind.length - 1))
        sortoffsets parts.1 ++ pivot :: sortoffsets (parts.2.rotate 1)
termination_by ms.length
decreasing_by
  all_goals
    have hlen := partition_length pivot (ms.take (ms.length / 2) ++ behind.rotate (behind.length - 1))
    have hdrop := congrArg List.length _h
    simp only [List.length_append, List.length_rotate, List.length_take, List.length_drop, List.length_cons] at *
    omega

/-! ## §2 — few rows. -/

theorem bubble_perm (a : Move) (ms : List Move) : (bubble a ms).Perm (a :: ms) := by
  induction ms generalizing a with
  | nil => exact List.Perm.refl _
  | cons b ms ih =>
    rw [bubble]
    split
    · exact ((ih a).cons b).trans (List.Perm.swap a b ms)
    · exact (ih b).cons a

theorem bubblePass_perm (ms : List Move) : (bubblePass ms).Perm ms := by
  cases ms with
  | nil => exact List.Perm.refl _
  | cons a ms => exact bubble_perm a ms

/-- A pass takes the last to the end. -/
theorem bubble_last (a : Move) (ms : List Move) :
    ∃ front last, bubble a ms = front ++ [last] ∧ front.length = ms.length ∧ ∀ m ∈ front, m.src ≤ last.src := by
  induction ms generalizing a with
  | nil => exact ⟨[], a, rfl, rfl, fun m hm => absurd hm List.not_mem_nil⟩
  | cons b ms ih =>
    rw [bubble]
    have hstep : ∀ x y : Move, x.src ≤ y.src → ∃ front last, x :: bubble y ms = front ++ [last] ∧
        front.length = ms.length + 1 ∧ ∀ m ∈ front, m.src ≤ last.src := by
      intro x y hxy
      obtain ⟨front, last, heq, hlen, hle⟩ := ih y
      refine ⟨x :: front, last, ?_, ?_, ?_⟩
      · rw [heq, List.cons_append]
      · rw [List.length_cons, hlen]
      · have hmem : y ∈ front ++ [last] := by
          rw [← heq]
          exact (bubble_perm y ms).mem_iff.mpr (List.mem_cons_self ..)
        have hy : y.src ≤ last.src := by
          rcases List.mem_append.mp hmem with hy | hy
          · exact hle y hy
          · rw [List.mem_singleton.mp hy]
        exact List.forall_mem_cons.mpr ⟨hxy.trans hy, hle⟩
    split
    · rename_i hlt
      exact hstep b a hlt.le
    · rename_i hge
      exact hstep a b (not_lt.mp hge)

/-- The last one stays where it is. -/
theorem bubble_append (a : Move) (ms : List Move) {last : Move} (h : ∀ m ∈ a :: ms, m.src ≤ last.src) :
    bubble a (ms ++ [last]) = bubble a ms ++ [last] := by
  induction ms generalizing a with
  | nil =>
    have hle := h a (List.mem_cons_self ..)
    show (if last.src < a.src then _ else _) = _
    rw [if_neg (not_lt.mpr hle)]
    rfl
  | cons b ms ih =>
    obtain ⟨ha, hrest⟩ := List.forall_mem_cons.mp h
    obtain ⟨hb, hms⟩ := List.forall_mem_cons.mp hrest
    rw [List.cons_append, bubble, bubble]
    split
    · rw [ih a (List.forall_mem_cons.mpr ⟨ha, hms⟩), List.cons_append]
    · rw [ih b hrest, List.cons_append]

theorem bubblePass_append {ms : List Move} {last : Move} (h : ∀ m ∈ ms, m.src ≤ last.src) :
    bubblePass (ms ++ [last]) = bubblePass ms ++ [last] := by
  cases ms with
  | nil => rfl
  | cons a ms => exact bubble_append a ms h

theorem smallSort_append (fuel : ℕ) {ms : List Move} {last : Move} (h : ∀ m ∈ ms, m.src ≤ last.src) :
    smallSort fuel (ms ++ [last]) = smallSort fuel ms ++ [last] := by
  induction fuel generalizing ms with
  | zero => rfl
  | succ fuel ih =>
    have hperm := bubblePass_perm ms
    rw [smallSort, smallSort, bubblePass_append h]
    by_cases heq : bubblePass ms = ms
    · rw [if_pos (by rw [heq]), if_pos heq]
    · rw [if_neg (fun happ => heq (List.append_cancel_right happ)), if_neg heq]
      exact ih fun m hm => h m (hperm.mem_iff.mp hm)

theorem smallSort_perm (fuel : ℕ) (ms : List Move) : (smallSort fuel ms).Perm ms := by
  induction fuel generalizing ms with
  | zero => exact List.Perm.refl ms
  | succ fuel ih =>
    rw [smallSort]
    split
    · exact List.Perm.refl ms
    · exact (ih _).trans (bubblePass_perm ms)

/-- In the order of the file. -/
def SortedBySrc (ms : List Move) : Prop := ms.Pairwise fun k l => k.src ≤ l.src

theorem SortedBySrc.append {ms : List Move} {last : Move} (h : SortedBySrc ms) (hle : ∀ m ∈ ms, m.src ≤ last.src) :
    SortedBySrc (ms ++ [last]) :=
  List.pairwise_append.mpr ⟨h, List.pairwise_singleton _ _, fun m hm _ hl => List.mem_singleton.mp hl ▸ hle m hm⟩

/-- As many passes as there are rows are enough. -/
theorem smallSort_sorted {fuel : ℕ} {ms : List Move} (h : ms.length ≤ fuel) : SortedBySrc (smallSort fuel ms) := by
  induction fuel generalizing ms with
  | zero =>
    rw [List.length_eq_zero_iff.mp (Nat.le_zero.mp h)]
    exact List.Pairwise.nil
  | succ fuel ih =>
    cases ms with
    | nil =>
      rw [smallSort, if_pos (by rfl)]
      exact List.Pairwise.nil
    | cons a ms =>
      obtain ⟨front, last, heq, hlen, hle⟩ := bubble_last a ms
      have hsorted : SortedBySrc (smallSort fuel (front ++ [last])) := by
        rw [smallSort_append fuel hle]
        apply (ih (by rw [hlen]; exact Nat.le_of_succ_le_succ h)).append
        intro m hm
        exact hle m ((smallSort_perm fuel front).mem_iff.mp hm)
      rw [smallSort]
      split
      · -- nothing was swapped, and nothing would be
        rename_i hfix
        have hstay : ∀ n, smallSort n (a :: ms) = a :: ms := by
          intro n
          cases n with
          | zero => rfl
          | succ n => rw [smallSort, if_pos hfix]
        have hpass : bubblePass (a :: ms) = front ++ [last] := heq
        rw [← hpass, hfix, hstay] at hsorted
        exact hsorted
      · show SortedBySrc (smallSort fuel (bubble a ms))
        rw [heq]
        exact hsorted

/-! ## §3 — many rows. -/

theorem partition_spec (pivot : Move) (ms : List Move) :
    ((partitionAt pivot ms).1 ++ (partitionAt pivot ms).2).Perm ms ∧
      (∀ m ∈ (partitionAt pivot ms).1, m.src < pivot.src) ∧ ∀ m ∈ (partitionAt pivot ms).2, pivot.src ≤ m.src := by
  -- A step that takes an element to the front part also rotates the other one.
  have hfold : ∀ (ms : List Move) (s : List Move × List Move),
      (∀ m ∈ s.1, m.src < pivot.src) → (∀ m ∈ s.2, pivot.src ≤ m.src) →
      ((ms.foldl (partitionStep pivot) s).1 ++ (ms.foldl (partitionStep pivot) s).2).Perm (s.1 ++ s.2 ++ ms) ∧
        (∀ m ∈ (ms.foldl (partitionStep pivot) s).1, m.src < pivot.src) ∧
          ∀ m ∈ (ms.foldl (partitionStep pivot) s).2, pivot.src ≤ m.src := by
    intro ms
    induction ms with
    | nil =>
      intro s hless hmore
      rw [List.append_nil]
      exact ⟨List.Perm.refl _, hless, hmore⟩
    | cons m ms ih =>
      intro s hless hmore
      rw [List.foldl_cons]
      unfold partitionStep
      split
      · rename_i hlt
        obtain ⟨hperm, hrest⟩ := ih (s.1 ++ [m], s.2.rotate 1)
          (by
            intro x hx
            rcases List.mem_append.mp hx with hx | hx
            · exact hless x hx
            · rwa [List.mem_singleton.mp hx])
          (fun x hx => hmore x (List.mem_rotate.mp hx))
        refine ⟨hperm.trans ?_, hrest⟩
        show ((s.1 ++ [m]) ++ s.2.rotate 1 ++ ms).Perm _
        have hrot : (s.2.rotate 1).Perm s.2 := List.rotate_perm _ _
        calc ((s.1 ++ [m]) ++ s.2.rotate 1 ++ ms).Perm ((s.1 ++ [m]) ++ s.2 ++ ms) :=
              (hrot.append_left _).append_right _
          _ = s.1 ++ (m :: (s.2 ++ ms)) := by simp
          List.Perm _ (s.1 ++ (s.2 ++ m :: ms)) := (List.perm_middle.symm).append_left _
          _ = s.1 ++ s.2 ++ m :: ms := (List.append_assoc ..).symm
      · rename_i hge
        obtain ⟨hperm, hrest⟩ := ih (s.1, s.2 ++ [m]) hless
          (by
            intro x hx
            rcases List.mem_append.mp hx with hx | hx
            · exact hmore x hx
            · rw [List.mem_singleton.mp hx]
              exact not_lt.mp hge)
        refine ⟨hperm.trans ?_, hrest⟩
        simp
  simpa [partitionAt] using hfold ms ([], []) (fun m hm => absurd hm List.not_mem_nil)
    fun m hm => absurd hm List.not_mem_nil

/-- The sides of the pivot, sorted. -/
theorem SortedBySrc.around {less more : List Move} {pivot : Move} (hless : SortedBySrc less)
    (hmore : SortedBySrc more) (hlt : ∀ m ∈ less, m.src ≤ pivot.src) (hge : ∀ m ∈ more, pivot.src ≤ m.src) :
    SortedBySrc (less ++ pivot :: more) := by
  refine List.pairwise_append.mpr ⟨hless, List.pairwise_cons.mpr ⟨hge, hmore⟩, ?_⟩
  intro m hm l hl
  rcases List.mem_cons.mp hl with rfl | hl
  · exact hlt m hm
  · exact (hlt m hm).trans (hge l hl)

/-- **It sorts.** -/
theorem sortoffsets_spec (ms : List Move) : (sortoffsets ms).Perm ms ∧ SortedBySrc (sortoffsets ms) := by
  induction hn : ms.length using Nat.strong_induction_on generalizing ms with
  | _ n ih =>
    subst hn
    rw [sortoffsets]
    split
    · exact ⟨smallSort_perm _ ms, smallSort_sorted le_rfl⟩
    · rename_i hlarge
      split
      · rename_i hnil
        have hlen := congrArg List.length hnil
        rw [List.length_drop, List.length_nil] at hlen
        omega
      · rename_i pivot behind hdrop
        dsimp only
        -- the pivot and the others
        have hsplit : ms.take (ms.length / 2) ++ pivot :: behind = ms := by
          rw [← hdrop, List.take_append_drop]
        have hothers : (pivot :: (ms.take (ms.length / 2) ++ behind.rotate (behind.length - 1))).Perm ms := by
          have hrot : (behind.rotate (behind.length - 1)).Perm behind := List.rotate_perm _ _
          have hmid := ((hrot.append_left (ms.take (ms.length / 2))).cons pivot).trans List.perm_middle.symm
          rwa [hsplit] at hmid
        generalize ms.take (ms.length / 2) ++ behind.rotate (behind.length - 1) = others at hothers
        obtain ⟨hparts, hlt, hge⟩ := partition_spec pivot others
        generalize (partitionAt pivot others).1 = less at hparts hlt
        generalize (partitionAt pivot others).2 = more at hparts hge
        have hlen := hothers.length_eq
        have hlen' := hparts.length_eq
        rw [List.length_cons] at hlen
        rw [List.length_append] at hlen'
        obtain ⟨hperm, hsorted⟩ := ih less.length (by omega) less rfl
        obtain ⟨hperm', hsorted'⟩ := ih (more.rotate 1).length (by rw [List.length_rotate]; omega)
          (more.rotate 1) rfl
        have hmore : (sortoffsets (more.rotate 1)).Perm more := hperm'.trans (List.rotate_perm _ _)
        constructor
        · have hsides := (hperm.append (hmore.cons pivot)).trans List.perm_middle
          exact (hsides.trans (hparts.cons pivot)).trans hothers
        · apply hsorted.around hsorted'
          · intro m hm
            exact (hlt m (hperm.mem_iff.mp hm)).le
          · intro m hm
            exact hge m (hmore.mem_iff.mp hm)

end LogVol
