/-
# LogVol.SwapSort — the three arrays that `sortoffsets` sorts.

The rows of a read are kept in three arrays side by side, and sorted in place: `oswap` exchanges two places in
each of them. `sortoffsetsRun` follows the loops of the source place by place, with a bound on how often they
go round. Enough of it is one more than there are places, and what the arrays hold in the end is the list
`sortoffsets` (`sortoffsetsRun_list`); nothing outside is touched.
-/
import LogVol.SortOffsets

namespace LogVol

open Lib (Move)

/-! ## §1 — three arrays. -/

/-- `oa`, `ob` and `l`. -/
structure RowArrays where
  oa : ℕ → ℤ
  ob : ℕ → ℤ
  l : ℕ → ℤ

/-- Exchange two places of one array, by way of a third. -/
def swapAt (f : ℕ → ℤ) (a b : ℕ) : ℕ → ℤ := Function.update (Function.update f a (f b)) b (f a)

namespace RowArrays

/-- `OSWAP`. -/
def oswap (s : RowArrays) (a b : ℕ) : RowArrays := ⟨swapAt s.oa a b, swapAt s.ob a b, swapAt s.l a b⟩

/-- The triple at a place. -/
def row (s : RowArrays) (i : ℕ) : Move := ⟨s.oa i, s.ob i, s.l i⟩

/-- The triples at `n` places from `lo` on. -/
def slice (s : RowArrays) (lo n : ℕ) : List Move := (List.range' lo n).map s.row

/-- `for (i = 0; i < len - 1; i++)`: two neighbours that are out of order are exchanged. The flag is `j`. -/
def smallPass : ℕ → ℕ → RowArrays × Bool → RowArrays × Bool
  | 0, _, s => s
  | n + 1, i, s =>
      smallPass n (i + 1) (if s.1.oa (i + 1) < s.1.oa i then (s.1.oswap i (i + 1), true) else s)

/-- `while (j)`. -/
def smallLoop (lo len : ℕ) : ℕ → RowArrays → Option RowArrays
  | 0, _ => none
  | fuel + 1, s =>
      let r := smallPass (len - 1) lo (s, false)
      if r.2 then smallLoop lo len fuel r.1 else some r.1

/-- `for (i = 0; i < len; i++)`: what is less than the row at `p` is exchanged with the one at `j`. -/
def pivotLoop (p : ℕ) : ℕ → ℕ → RowArrays × ℕ → RowArrays × ℕ
  | 0, _, s => s
  | n + 1, i, s =>
      pivotLoop p n (i + 1)
        (if s.1.oa i < s.1.oa p then (if i ≠ s.2 then s.1.oswap i s.2 else s.1, s.2 + 1) else s)

/-- **`sortoffsets`** of `len` places from `lo` on, going round `fuel` times at most. -/
def sortoffsetsRun : ℕ → ℕ → ℕ → RowArrays → Option RowArrays
  | 0, _, _, _ => none
  | fuel + 1, len, lo, s =>
      if len < 16 then smallLoop lo len (fuel + 1) s
      else
        let last := lo + len - 1
        let r := pivotLoop last len lo (s.oswap (lo + len / 2) last, lo)
        (sortoffsetsRun fuel (r.2 - lo) lo (r.1.oswap last r.2)).bind fun s =>
          sortoffsetsRun fuel (len - (r.2 - lo) - 1) (r.2 + 1) s

/-! ## §2 — slices. -/

variable {s : RowArrays} {lo len : ℕ}

theorem swapAt_apply (f : ℕ → ℤ) (a b i : ℕ) :
    swapAt f a b i = if i = b then f a else if i = a then f b else f i := by
  simp only [swapAt, Function.update_apply]

/-- **A swap keeps the triples together.** -/
theorem oswap_row (s : RowArrays) (a b i : ℕ) :
    (s.oswap a b).row i = if i = b then s.row a else if i = a then s.row b else s.row i := by
  simp only [row, oswap, swapAt_apply]
  split
  · rfl
  · split <;> rfl

theorem oswap_left (s : RowArrays) (a b : ℕ) : (s.oswap a b).row a = s.row b := by
  rw [oswap_row, if_pos rfl]
  split
  · rename_i h
    rw [h]
  · rfl

theorem oswap_right (s : RowArrays) (a b : ℕ) : (s.oswap a b).row b = s.row a := by
  rw [oswap_row, if_pos rfl]

theorem oswap_of_ne (s : RowArrays) {a b i : ℕ} (ha : i ≠ a) (hb : i ≠ b) : (s.oswap a b).row i = s.row i := by
  rw [oswap_row, if_neg hb, if_neg ha]

@[simp] theorem slice_length (s : RowArrays) (lo n : ℕ) : (s.slice lo n).length = n := by simp [slice]

@[simp] theorem slice_zero (s : RowArrays) (lo : ℕ) : s.slice lo 0 = [] := rfl

theorem slice_succ (s : RowArrays) (lo n : ℕ) : s.slice lo (n + 1) = s.row lo :: s.slice (lo + 1) n := by
  simp [slice, List.range'_succ]

theorem slice_append (s : RowArrays) (lo m n : ℕ) : s.slice lo (m + n) = s.slice lo m ++ s.slice (lo + m) n := by
  rw [slice, slice, slice, ← List.map_append, List.range'_append_1]

theorem slice_congr {s t : RowArrays} {lo n : ℕ} (h : ∀ i, lo ≤ i → i < lo + n → s.row i = t.row i) :
    s.slice lo n = t.slice lo n := by
  apply List.map_congr_left
  intro i hi
  rw [List.mem_range'_1] at hi
  exact h i hi.1 hi.2

/-- The first and the last of some places are exchanged: the one in front goes to the end. -/
theorem oswap_slice (s : RowArrays) (j n : ℕ) :
    (s.oswap (j + n) j).slice j (n + 1) = s.row (j + n) :: (s.slice j n).rotate 1 := by
  rcases n with _ | n
  · rw [slice_succ, oswap_right]
    rfl
  · rw [slice_succ, oswap_right, slice_succ s, List.rotate_cons_succ, List.rotate_zero, slice_append]
    congr 2
    · apply slice_congr
      intro i hlo hhi
      exact oswap_of_ne s (by omega) (by omega)
    · have hplace : j + 1 + n = j + (n + 1) := by omega
      rw [slice_succ, slice_zero, hplace, oswap_left]

/-- Places that a step leaves as they are. -/
def Frame (s t : RowArrays) (lo hi : ℕ) : Prop := ∀ i, i < lo ∨ hi ≤ i → t.row i = s.row i

theorem Frame.refl (s : RowArrays) (lo hi : ℕ) : Frame s s lo hi := fun _ _ => rfl

theorem Frame.trans {s t u : RowArrays} {lo hi lo' hi' : ℕ} (h : Frame s t lo hi) (h' : Frame t u lo' hi')
    (hlo : lo ≤ lo') (hhi : hi' ≤ hi) : Frame s u lo hi := by
  intro i hi
  rw [h' i (by omega), h i hi]

theorem frame_oswap {s : RowArrays} {a b lo hi : ℕ} (ha : lo ≤ a ∧ a < hi) (hb : lo ≤ b ∧ b < hi) :
    Frame s (s.oswap a b) lo hi := by
  intro i hi
  exact oswap_of_ne s (by omega) (by omega)

/-! ## §3 — up to fifteen places. -/

/-- A pass over the places is a pass over the list, and the flag says whether anything was exchanged. -/
theorem smallPass_spec (n i : ℕ) (s : RowArrays) (flag : Bool) :
    (smallPass n i (s, flag)).1.slice i (n + 1) = bubblePass (s.slice i (n + 1)) ∧
      ((smallPass n i (s, flag)).2 = true ↔ flag = true ∨ bubblePass (s.slice i (n + 1)) ≠ s.slice i (n + 1)) ∧
      Frame s (smallPass n i (s, flag)).1 i (i + n + 1) := by
  induction n generalizing i s flag with
  | zero => exact ⟨rfl, by simp [smallPass, slice, bubblePass, bubble], Frame.refl s _ _⟩
  | succ n ih =>
    have hlist : s.slice i (n + 2) = s.row i :: s.row (i + 1) :: s.slice (i + 2) n := by
      rw [slice_succ, slice_succ]
    rw [smallPass, hlist, bubblePass, bubble]
    -- Out of order: the two are exchanged, and the pass goes on with the larger one.
    by_cases hlt : s.oa (i + 1) < s.oa i
    · have hlt' : (s.row (i + 1)).src < (s.row i).src := hlt
      rw [if_pos hlt, if_pos hlt']
      obtain ⟨hpass, hflag, hframe⟩ := ih (i + 1) (s.oswap i (i + 1)) true
      have hrest : (s.oswap i (i + 1)).slice (i + 1) (n + 1) = s.row i :: s.slice (i + 2) n := by
        rw [slice_succ, oswap_right]
        congr 1
        apply slice_congr
        intro k hlo hhi
        exact oswap_of_ne s (by omega) (by omega)
      have hfirst : (smallPass n (i + 1) (s.oswap i (i + 1), true)).1.row i = s.row (i + 1) := by
        rw [hframe i (Or.inl (Nat.lt_succ_self i)), oswap_left]
      refine ⟨?_, ?_, ?_⟩
      · rw [slice_succ, hfirst, hpass, hrest, bubblePass]
      · have hne : s.row (i + 1) :: bubble (s.row i) (s.slice (i + 2) n) ≠
            s.row i :: s.row (i + 1) :: s.slice (i + 2) n := by
          intro heq
          rw [(List.cons.inj heq).1] at hlt'
          exact lt_irrefl _ hlt'
        exact ⟨fun _ => Or.inr hne, fun _ => hflag.mpr (Or.inl rfl)⟩
      · have hswap : Frame s (s.oswap i (i + 1)) i (i + (n + 1) + 1) :=
          frame_oswap (by omega) (by omega)
        exact hswap.trans hframe (by omega) (by omega)
    · have hlt' : ¬ (s.row (i + 1)).src < (s.row i).src := hlt
      rw [if_neg hlt, if_neg hlt']
      obtain ⟨hpass, hflag, hframe⟩ := ih (i + 1) s flag
      have hrest : s.slice (i + 1) (n + 1) = s.row (i + 1) :: s.slice (i + 2) n := slice_succ s (i + 1) n
      rw [hrest, bubblePass] at hpass hflag
      refine ⟨?_, ?_, ?_⟩
      · rw [slice_succ, hframe i (Or.inl (Nat.lt_succ_self i)), hpass]
      · rw [hflag, ne_eq, ne_eq, List.cons_eq_cons]
        simp
      · exact (Frame.refl s i _).trans hframe (by omega) (by omega)

/-- What is in order stays as it is. -/
theorem bubblePass_sorted {ms : List Move} (h : SortedBySrc ms) : bubblePass ms = ms := by
  rcases ms with _ | ⟨a, ms⟩
  · rfl
  rw [bubblePass]
  induction ms generalizing a with
  | nil => rfl
  | cons b ms ih =>
    obtain ⟨ha, hms⟩ := List.pairwise_cons.mp h
    have hab := ha b (List.mem_cons_self ..)
    rw [bubble, if_neg (not_lt.mpr hab), ih b hms]

/-- **The loop ends** once a pass exchanges nothing. -/
theorem smallLoop_spec {k fuel : ℕ} (hlen : 0 < len) (hk : k < fuel)
    (hsorted : SortedBySrc (smallSort k (s.slice lo len))) :
    ∃ t, smallLoop lo len fuel s = some t ∧ t.slice lo len = smallSort k (s.slice lo len) ∧
      Frame s t lo (lo + len) := by
  induction k generalizing s fuel with
  | zero =>
    obtain ⟨fuel, rfl⟩ := Nat.exists_eq_succ_of_ne_zero (Nat.ne_of_gt hk)
    obtain ⟨hpass, hflag, hframe⟩ := smallPass_spec (len - 1) lo s false
    have hlen' : len - 1 + 1 = len := Nat.sub_add_cancel hlen
    have hend : lo + (len - 1) + 1 = lo + len := by omega
    rw [hlen'] at hpass hflag
    rw [hend] at hframe
    -- Sorted already: one more pass finds nothing to exchange.
    have hstay : bubblePass (s.slice lo len) = s.slice lo len := bubblePass_sorted hsorted
    have hdone : ¬ (smallPass (len - 1) lo (s, false)).2 = true := by
      rw [hflag]
      simp [hstay]
    refine ⟨(smallPass (len - 1) lo (s, false)).1, ?_, ?_, hframe⟩
    · rw [smallLoop]
      exact if_neg hdone
    · rw [hpass, hstay]
      rfl
  | succ k ih =>
    obtain ⟨fuel, rfl⟩ := Nat.exists_eq_succ_of_ne_zero (Nat.ne_of_gt (Nat.zero_lt_of_lt hk))
    obtain ⟨hpass, hflag, hframe⟩ := smallPass_spec (len - 1) lo s false
    have hlen' : len - 1 + 1 = len := Nat.sub_add_cancel hlen
    have hend : lo + (len - 1) + 1 = lo + len := by omega
    rw [hlen'] at hpass hflag
    rw [hend] at hframe
    rw [smallSort] at hsorted ⊢
    rw [smallLoop]
    -- An exchange leads to another pass, for which the induction has the rest.
    by_cases hstay : bubblePass (s.slice lo len) = s.slice lo len
    · rw [if_pos hstay]
      refine ⟨(smallPass (len - 1) lo (s, false)).1, if_neg ?_, by rw [hpass, hstay], hframe⟩
      rw [hflag]
      simp [hstay]
    · rw [if_neg hstay] at hsorted ⊢
      rw [← hpass] at hsorted ⊢
      obtain ⟨t, hrun, hslice, hrest⟩ := ih (Nat.lt_of_succ_lt_succ hk) hsorted
      refine ⟨t, ?_, hslice, hframe.trans hrest le_rfl le_rfl⟩
      rw [← hrun]
      exact if_pos (hflag.mpr (Or.inr hstay))

/-- No places, no passes that do anything. -/
theorem smallLoop_zero (fuel : ℕ) (s : RowArrays) : smallLoop lo 0 (fuel + 1) s = some s := rfl

/-! ## §4 — the pivot. -/

/-- Rows are exchanged also where the loop spares itself the exchange. -/
theorem exchange_row (s : RowArrays) (i j k : ℕ) : (if i ≠ j then s.oswap i j else s).row k = (s.oswap i j).row k := by
  split
  · rfl
  · rename_i h
    rw [not_not.mp h, oswap_row]
    split
    · rename_i hk
      rw [hk]
    · rfl

theorem exchange_slice (s : RowArrays) (i j a n : ℕ) :
    (if i ≠ j then s.oswap i j else s).slice a n = (s.oswap i j).slice a n :=
  slice_congr fun k _ _ => exchange_row s i j k

/-- The places of two lists that lie one behind the other. -/
theorem slice_split {m : ℕ} {less more : List Move} (h : s.slice lo m = less ++ more) :
    m = less.length + more.length ∧ s.slice lo less.length = less ∧ s.slice (lo + less.length) more.length = more := by
  have hlen := congrArg List.length h
  rw [slice_length, List.length_append] at hlen
  subst hlen
  rw [slice_append] at h
  obtain ⟨hless, hmore⟩ := List.append_inj h (slice_length ..)
  exact ⟨rfl, hless, hmore⟩

/-- The row behind `less` and `more` goes behind `less`, and the first of `more` to where it was. -/
theorem oswap_parts {m j : ℕ} {less more : List Move} (h : s.slice lo m = less ++ more) (hj : j = lo + less.length) :
    (s.oswap (lo + m) j).slice lo (m + 1) = less ++ s.row (lo + m) :: more.rotate 1 := by
  obtain ⟨rfl, hless, hmore⟩ := slice_split h
  subst hj
  have hplace : lo + (less.length + more.length) = lo + less.length + more.length := (Nat.add_assoc ..).symm
  rw [hplace, Nat.add_assoc less.length, slice_append, oswap_slice, hmore]
  congr 1
  refine Eq.trans (slice_congr fun i hlo hhi => ?_) hless
  exact oswap_of_ne s (by omega) (by omega)

/-- **What the loop leaves** of the places in front of the pivot: what is less, and the others as they were
turned round. -/
theorem pivotLoop_spec {p n i j : ℕ} {s : RowArrays} {less more : List Move} (hi : i + n = p) (hlo : lo ≤ i)
    (hslice : s.slice lo (i - lo) = less ++ more) (hj : j = lo + less.length) :
    (pivotLoop p (n + 1) i (s, j)).1.slice lo (p - lo) =
        ((s.slice i n).foldl (partitionStep (s.row p)) (less, more)).1 ++
          ((s.slice i n).foldl (partitionStep (s.row p)) (less, more)).2 ∧
      (pivotLoop p (n + 1) i (s, j)).2 =
        lo + ((s.slice i n).foldl (partitionStep (s.row p)) (less, more)).1.length ∧
      Frame s (pivotLoop p (n + 1) i (s, j)).1 lo p := by
  induction n generalizing i j s less more with
  | zero =>
    -- the pivot meets itself
    obtain rfl : i = p := hi
    rw [pivotLoop, if_neg (lt_irrefl _), pivotLoop]
    exact ⟨hslice, hj, Frame.refl s _ _⟩
  | succ n ih =>
    have hnext : i + 1 - lo = i - lo + 1 := by omega
    have hplace : lo + (i - lo) = i := by omega
    rw [pivotLoop, slice_succ, List.foldl_cons]
    by_cases hlt : s.oa i < s.oa p
    · rw [if_pos hlt]
      have hstep : partitionStep (s.row p) (less, more) (s.row i) = (less ++ [s.row i], more.rotate 1) := if_pos hlt
      have hbehind : ∀ k, i < k → (if i ≠ j then s.oswap i j else s).row k = s.row k := by
        intro k hk
        obtain ⟨hlen, -, -⟩ := slice_split hslice
        rw [exchange_row]
        exact oswap_of_ne s (by omega) (by omega)
      have hparts : (if i ≠ j then s.oswap i j else s).slice lo (i + 1 - lo) =
          (less ++ [s.row i]) ++ more.rotate 1 := by
        have hswap := oswap_parts hslice hj
        rw [hplace] at hswap
        rw [exchange_slice, hnext, hswap, List.append_assoc]
        rfl
      have hrow := hbehind p (by omega)
      have hrest : (if i ≠ j then s.oswap i j else s).slice (i + 1) n = s.slice (i + 1) n :=
        slice_congr fun k hk _ => hbehind k hk
      have hframe : Frame s (if i ≠ j then s.oswap i j else s) lo p := by
        obtain ⟨hlen, -, -⟩ := slice_split hslice
        intro k hk
        rw [exchange_row]
        exact oswap_of_ne s (by omega) (by omega)
      obtain ⟨hdone, hcount, hkept⟩ := ih (j := j + 1) (by omega) (by omega) hparts
        (by rw [hj, List.length_append, List.length_singleton, Nat.add_assoc])
      rw [hrow, hrest] at hdone hcount
      rw [hstep]
      exact ⟨hdone, hcount, hframe.trans hkept le_rfl le_rfl⟩
    · rw [if_neg hlt]
      have hstep : partitionStep (s.row p) (less, more) (s.row i) = (less, more ++ [s.row i]) := if_neg hlt
      have hparts : s.slice lo (i + 1 - lo) = less ++ (more ++ [s.row i]) := by
        rw [hnext, slice_append, hplace, hslice, List.append_assoc]
        rfl
      rw [hstep]
      exact ih (by omega) (by omega) hparts hj

/-- The one in the middle and the last are exchanged. -/
theorem oswap_middle (s : RowArrays) (lo h n : ℕ) :
    (s.oswap (lo + h) (lo + h + n)).slice lo (h + n) ++ [(s.oswap (lo + h) (lo + h + n)).row (lo + h + n)] =
      (s.slice lo h ++ (s.slice (lo + h + 1) n).rotate (n - 1)) ++ [s.row (lo + h)] := by
  rw [oswap_right, slice_append]
  congr 1
  congr 1
  · apply slice_congr
    intro k hlo hhi
    exact oswap_of_ne s (by omega) (by omega)
  · rcases n with _ | n
    · rfl
    · have hlast : lo + h + 1 + n = lo + h + (n + 1) := by omega
      have hbehind : s.slice (lo + h + 1) (n + 1) = s.slice (lo + h + 1) n ++ [s.row (lo + h + (n + 1))] := by
        rw [slice_append, hlast]
        rfl
      have hrot : (s.slice (lo + h + 1) (n + 1)).rotate n = s.row (lo + h + (n + 1)) :: s.slice (lo + h + 1) n := by
        have hturn := List.rotate_append_length_eq (s.slice (lo + h + 1) n) [s.row (lo + h + (n + 1))]
        rw [slice_length] at hturn
        rw [hbehind, hturn]
        rfl
      rw [Nat.add_sub_cancel, hrot, slice_succ, oswap_left]
      congr 1
      apply slice_congr
      intro k hlo hhi
      exact oswap_of_ne s (by omega) (by omega)

/-- **One partition**: the pivot between what is less and the others. -/
theorem partition_places (s : RowArrays) (lo h n : ℕ) {less more : List Move} {r : RowArrays × ℕ}
    (hparts : partitionAt (s.row (lo + h)) (s.slice lo h ++ (s.slice (lo + h + 1) n).rotate (n - 1)) = (less, more))
    (hr : pivotLoop (lo + h + n) (h + n + 1) lo (s.oswap (lo + h) (lo + h + n), lo) = r) :
    r.2 = lo + less.length ∧
      (r.1.oswap (lo + h + n) r.2).slice lo (h + n + 1) = less ++ s.row (lo + h) :: more.rotate 1 ∧
      Frame s (r.1.oswap (lo + h + n) r.2) lo (lo + h + n + 1) := by
  obtain ⟨hothers, hpivot⟩ := List.append_inj' (oswap_middle s lo h n) rfl
  -- The pivot is at the end while the loop runs, and changes places with the first that is not less.
  have hpivot : (s.oswap (lo + h) (lo + h + n)).row (lo + h + n) = s.row (lo + h) := (List.cons.inj hpivot).1
  have hempty : (s.oswap (lo + h) (lo + h + n)).slice lo (lo - lo) = [] ++ [] := by
    rw [Nat.sub_self]
    rfl
  obtain ⟨hslice, hcount, hkept⟩ := pivotLoop_spec (n := h + n) (j := lo) (p := lo + h + n) (by omega) le_rfl hempty rfl
  have hwidth : lo + h + n - lo = h + n := by omega
  rw [hr, hothers, hpivot] at hslice hcount
  rw [hr] at hkept
  rw [partitionAt] at hparts
  rw [hparts, hwidth] at hslice
  rw [hparts] at hcount
  have hplace : lo + (h + n) = lo + h + n := by omega
  have hrow : r.1.row (lo + h + n) = s.row (lo + h) := by rw [hkept _ (Or.inr le_rfl), hpivot]
  have hbound := congrArg List.length hslice
  rw [slice_length, List.length_append] at hbound
  refine ⟨hcount, ?_, ?_⟩
  · have hswap := oswap_parts hslice hcount
    rwa [hplace, hrow] at hswap
  · have hmiddle : Frame s (s.oswap (lo + h) (lo + h + n)) lo (lo + h + n + 1) := frame_oswap (by omega) (by omega)
    have hlast : Frame r.1 (r.1.oswap (lo + h + n) r.2) lo (lo + h + n + 1) := by
      simp only at hcount hbound
      exact frame_oswap (by omega) (by omega)
    exact (hmiddle.trans hkept le_rfl (by omega)).trans hlast le_rfl le_rfl

/-! ## §5 — all of it. -/

/-- **What the arrays hold in the end** is the sorted list, and one round more than there are places is enough. -/
theorem sortoffsetsRun_list {fuel len : ℕ} (lo : ℕ) (s : RowArrays) (hfuel : len < fuel) :
    ∃ t, sortoffsetsRun fuel len lo s = some t ∧ t.slice lo len = sortoffsets (s.slice lo len) ∧
      Frame s t lo (lo + len) := by
  induction len using Nat.strong_induction_on generalizing fuel lo s with
  | _ len ih =>
    obtain ⟨fuel, rfl⟩ := Nat.exists_eq_succ_of_ne_zero (Nat.ne_of_gt (Nat.zero_lt_of_lt hfuel))
    rw [sortoffsetsRun, sortoffsets, slice_length]
    by_cases hsmall : len < 16
    · rw [if_pos hsmall, if_pos hsmall]
      rcases Nat.eq_zero_or_pos len with rfl | hpos
      · exact ⟨s, smallLoop_zero fuel s, rfl, Frame.refl s _ _⟩
      · exact smallLoop_spec hpos hfuel (smallSort_sorted (by rw [slice_length]))
    · rw [if_neg hsmall, if_neg hsmall]
      obtain ⟨h, n, hh, hlen⟩ : ∃ h n, len / 2 = h ∧ len = h + (n + 1) := ⟨len / 2, len - len / 2 - 1, rfl, by omega⟩
      have hplaces : s.slice lo len = s.slice lo h ++ s.row (lo + h) :: s.slice (lo + h + 1) n := by
        rw [hlen, slice_append, slice_succ]
      have hlast : lo + len - 1 = lo + h + n := by omega
      have hdrop : (s.slice lo len).drop h = s.row (lo + h) :: s.slice (lo + h + 1) n := by
        rw [hplaces, List.drop_left' (slice_length ..)]
      have htake : (s.slice lo len).take h = s.slice lo h := by rw [hplaces, List.take_left' (slice_length ..)]
      rw [hh, hlast]
      split
      · rename_i hnil
        rw [hdrop] at hnil
        cases hnil
      · rename_i pivot behind hcons
        rw [hdrop] at hcons
        obtain ⟨rfl, rfl⟩ := List.cons.inj hcons
        rw [htake, slice_length]
        dsimp only
        rcases hparts : partitionAt (s.row (lo + h)) (s.slice lo h ++ (s.slice (lo + h + 1) n).rotate (n - 1))
          with ⟨less, more⟩
        rcases hr : pivotLoop (lo + h + n) len lo (s.oswap (lo + h) (lo + h + n), lo) with ⟨r, j⟩
        rw [hlen, ← Nat.add_assoc] at hr
        obtain ⟨hj, hslice, hframe⟩ := partition_places s lo h n hparts hr
        simp only at hj hslice hframe ⊢
        generalize r.oswap (lo + h + n) j = u at hslice hframe
        -- the two sides
        obtain ⟨hcount, hless, hbehind⟩ := slice_split hslice
        rw [List.length_cons, List.length_rotate] at hcount hbehind
        rw [slice_succ] at hbehind
        obtain ⟨hpivot, hmore⟩ := List.cons.inj hbehind
        have hleft : j - lo = less.length := by omega
        have hright : len - less.length - 1 = more.length := by omega
        rw [hleft, hright, hj]
        obtain ⟨t, hrun, ht, htframe⟩ := @ih less.length (by omega) fuel lo u (by omega)
        obtain ⟨v, hrun', hv, hvframe⟩ := @ih more.length (by omega) fuel (lo + less.length + 1) t (by omega)
        have htmore : t.slice (lo + less.length + 1) more.length = more.rotate 1 := by
          rw [← hmore]
          exact slice_congr fun i hi _ => htframe i (Or.inr (by omega))
        have hvless : v.slice lo less.length = t.slice lo less.length :=
          slice_congr fun i _ hi => hvframe i (Or.inl (by omega))
        have hvpivot : v.row (lo + less.length) = s.row (lo + h) := by
          rw [hvframe _ (Or.inl (Nat.lt_succ_self _)), htframe _ (Or.inr le_rfl), hpivot]
        refine ⟨v, ?_, ?_, ?_⟩
        · rw [hrun, Option.bind_some, hrun']
        · have hall : len = less.length + (more.length + 1) := by omega
          rw [hall, slice_append, slice_succ, hvless, ht, hless, hvpivot, hv, htmore]
        · have hend : lo + h + n + 1 = lo + len := by omega
          rw [hend] at hframe
          exact (hframe.trans htframe le_rfl (by omega)).trans hvframe (by omega) (by omega)

theorem row_eq_of_slice {t : RowArrays} {n i : ℕ} (h : s.slice lo n = t.slice lo n) (hlo : lo ≤ i) (hhi : i < lo + n) :
    s.row i = t.row i :=
  List.map_inj_left.mp h i (List.mem_range'_1.mpr ⟨hlo, hhi⟩)

theorem eq_of_rows {t : RowArrays} (h : ∀ i, s.row i = t.row i) : s = t := by
  have hoa : s.oa = t.oa := funext fun i => congrArg Move.src (h i)
  have hob : s.ob = t.ob := funext fun i => congrArg Move.dst (h i)
  have hl : s.l = t.l := funext fun i => congrArg Move.len (h i)
  cases s
  cases t
  simp_all

end RowArrays

open RowArrays in
/-- **`sortoffsets` sorts**: it ends, the offsets are in order, the triples are those there were, and nothing
behind the arrays is written to. -/
theorem sortoffsetsRun_sorts (len : ℕ) (s : RowArrays) :
    ∃ n t, (∀ fuel ≥ n, sortoffsetsRun fuel len 0 s = some t) ∧
      (∀ i k, i ≤ k → k < len → t.oa i ≤ t.oa k) ∧
      ((List.range len).map t.row).Perm ((List.range len).map s.row) ∧
      ∀ i, len ≤ i → t.row i = s.row i := by
  obtain ⟨t, -, ht, hframe⟩ := sortoffsetsRun_list 0 s (Nat.lt_succ_self len)
  obtain ⟨hperm, hsorted⟩ := sortoffsets_spec (s.slice 0 len)
  rw [← ht] at hperm hsorted
  refine ⟨len + 1, t, ?_, ?_, ?_, fun i hi => hframe i (Or.inr (by omega))⟩
  · -- however often it may go round, the arrays end with the same rows
    intro fuel hfuel
    obtain ⟨u, hrun, hu, huframe⟩ := sortoffsetsRun_list 0 s (Nat.lt_of_succ_le hfuel)
    have hsame : u = t := by
      apply eq_of_rows
      intro i
      by_cases hi : i < len
      · exact row_eq_of_slice (hu.trans ht.symm) (Nat.zero_le i) (by omega)
      · rw [huframe i (Or.inr (by omega)), hframe i (Or.inr (by omega))]
    rw [hrun, hsame]
  · intro i k hik hk
    rcases Nat.eq_or_lt_of_le hik with rfl | hlt
    · exact le_rfl
    · have hpair := List.pairwise_iff_getElem.mp (List.pairwise_map.mp hsorted) i k (by simpa using hk.trans' hlt)
        (by simpa using hk) hlt
      simpa [row] using hpair
  · rwa [slice, slice, ← List.range_eq_range'] at hperm

end LogVol
