/-
# LogVol.SelectBlocks — sorting and merging the blocks of a selection, and point selections.

A selection comes from HDF5 as blocks or as points, and is stored as blocks: `starts[i][k]` and
`counts[i][k]` are here the pairs of a box, `hstarts[i][k]` and `hends[i][k]` the pairs of a span, whose
second entry is the last index and not a count. Indices lie inside the extents of the dataspace, which are
below `2 ^ 64 - 1`, so that none of the sums wraps and indices are plain numbers. `mergeBlocks` is the one
loop used for both; `mergeBlocks_cells` says that it leaves the order of the elements alone as long as
the blocks are thin in the dimensions not merged yet.
-/
import LogVol.Base
import LogVol.Lib.Reader
import LogVol.Lib.Boxes

namespace LogVol

open Lib (Box)

/-! ## §1 — comparing and sorting. -/

/-- `lessthan`: the first dimension that differs decides. -/
def lessthan : List ℕ → List ℕ → Bool
  | x :: a, y :: b => if x < y then true else if y < x then false else lessthan a b
  | _, _ => false

theorem lessthan_iff {a b : List ℕ} (hlen : a.length = b.length) : lessthan a b = true ↔ a < b := by
  induction a generalizing b with
  | nil =>
      obtain rfl := List.length_eq_zero_iff.mp hlen.symm
      simp [lessthan]
  | cons x a ih =>
      obtain ⟨y, b, rfl⟩ := List.exists_cons_of_length_eq_add_one hlen.symm
      rw [lessthan, List.cons_lt_cons_iff]
      rcases Nat.lt_trichotomy x y with hlt | rfl | hgt
      · simp [hlt]
      · simp [ih (Nat.succ.inj hlen)]
      · simp [hgt, Nat.not_lt.mpr (Nat.le_of_lt hgt), Nat.ne_of_gt hgt]

/-- `std::sort` by the coordinates `key`. Which of two elements with the same coordinates comes first is
not specified; the elements sorted here are equal where their coordinates are. -/
def sortBy {α : Type} (key : α → List ℕ) (l : List α) : List α :=
  l.insertionSort fun a b => !lessthan (key b) (key a)

theorem sortBy_perm {α : Type} (key : α → List ℕ) (l : List α) : (sortBy key l).Perm l :=
  List.perm_insertionSort _ l

/-- Sorting by coordinates of one rank is sorting by lexicographic order. -/
theorem sortBy_pairwise {α : Type} {key : α → List ℕ} {l : List α} {n : ℕ}
    (hlen : ∀ a ∈ l, (key a).length = n) : (sortBy key l).Pairwise fun a b => key a ≤ key b := by
  have hle : ∀ a ∈ l, ∀ b ∈ l, ((!lessthan (key b) (key a)) = true ↔ key a ≤ key b) := by
    intro a ha b hb
    have hiff := lessthan_iff ((hlen b hb).trans (hlen a ha).symm)
    rw [Bool.not_eq_true', ← not_lt, ← hiff, Bool.not_eq_true]
  have hmap := List.map_insertionSort (r := fun a b => (!lessthan (key b) (key a)) = true)
    (s := (· ≤ ·)) key l hle
  have hsorted := List.pairwise_insertionSort (· ≤ ·) (l.map key)
  rw [← hmap, List.pairwise_map] at hsorted
  exact hsorted

/-- Sorting changes nothing exactly when the list is sorted. -/
theorem sortBy_eq_self_iff {α : Type} {key : α → List ℕ} {l : List α} {n : ℕ}
    (hlen : ∀ a ∈ l, (key a).length = n) :
    sortBy key l = l ↔ l.Pairwise fun a b => key a ≤ key b := by
  constructor
  · intro h
    rw [← h]
    exact sortBy_pairwise hlen
  · intro h
    refine List.Pairwise.insertionSort_eq (h.imp_of_mem fun ha hb hab => ?_)
    rw [Bool.not_eq_true', ← Bool.not_eq_true, lessthan_iff ((hlen _ hb).trans (hlen _ ha).symm)]
    exact not_lt.mpr hab

/-! ## §2 — merging neighbours. -/

/-- The test of `merge_blocks`: in dimension `d` the second block starts right behind the first, in the
others the two agree. -/
def adjoins (useEnd : Bool) : ℕ → List (ℕ × ℕ) → List (ℕ × ℕ) → Bool
  | 0, p :: a, q :: b => (if useEnd then p.2 + 1 == q.1 else p.1 + p.2 == q.1) && a == b
  | d + 1, p :: a, q :: b => p == q && adjoins useEnd d a b
  | _, _, _ => true

/-- The merged block: `counts[j][d]` becomes the last index of the second block, or grows by its count. -/
def joinBlocks (useEnd : Bool) : ℕ → List (ℕ × ℕ) → List (ℕ × ℕ) → List (ℕ × ℕ)
  | 0, p :: a, q :: _ => (p.1, if useEnd then q.2 else p.2 + q.2) :: a
  | d + 1, p :: a, _ :: b => p :: joinBlocks useEnd d a b
  | _, a, _ => a

/-- One pass over the blocks: `cur` is block `j`, to which the next one is joined where it can be. -/
def mergePass (useEnd : Bool) (d : ℕ) : List (ℕ × ℕ) → List (List (ℕ × ℕ)) → List (List (ℕ × ℕ))
  | cur, [] => [cur]
  | cur, b :: bs =>
      if adjoins useEnd d cur b then mergePass useEnd d (joinBlocks useEnd d cur b) bs
      else cur :: mergePass useEnd d b bs

/-- **`merge_blocks`**: a pass for every dimension, the last one first. -/
def mergeBlocks (useEnd : Bool) : ℕ → List (List (ℕ × ℕ)) → List (List (ℕ × ℕ))
  | 0, bs => bs
  | _ + 1, [] => []
  | d + 1, b :: bs => mergeBlocks useEnd d (mergePass useEnd d b bs)

theorem adjoins_follows {d : ℕ} {a b : Box} (ha : d < a.length) (hlen : a.length = b.length)
    (h : adjoins false d a b = true) : Box.Follows d a b := by
  induction d generalizing a b with
  | zero =>
      obtain ⟨p, a, rfl⟩ := List.exists_cons_of_length_pos ha
      obtain ⟨q, b, rfl⟩ := List.exists_cons_of_length_pos (hlen ▸ ha)
      simpa [adjoins, Box.Follows] using h
  | succ d ih =>
      obtain ⟨p, a, rfl⟩ := List.exists_cons_of_length_pos (Nat.zero_lt_of_lt ha)
      obtain ⟨q, b, rfl⟩ := List.exists_cons_of_length_pos (Nat.zero_lt_of_lt (hlen ▸ ha))
      rw [adjoins, Bool.and_eq_true, beq_iff_eq] at h
      exact ⟨h.1, ih (Nat.lt_of_succ_lt_succ ha) (Nat.succ.inj hlen) h.2⟩

theorem joinBlocks_grow {d : ℕ} {a b : Box} (h : Box.Follows d a b) :
    joinBlocks false d a b = Box.grow d (b.extent d) a := by
  induction d generalizing a b with
  | zero =>
      rcases a with _ | ⟨p, a⟩
      · cases h
      rcases b with _ | ⟨q, b⟩
      · cases h
      rfl
  | succ d ih =>
      rcases a with _ | ⟨p, a⟩
      · cases h
      rcases b with _ | ⟨q, b⟩
      · cases h
      show p :: joinBlocks false d a b = p :: Box.grow d (Box.extent d b) a
      rw [ih h.2]

@[simp] theorem joinBlocks_length (useEnd : Bool) (d : ℕ) (a b : List (ℕ × ℕ)) :
    (joinBlocks useEnd d a b).length = a.length := by
  induction d generalizing a b with
  | zero => rcases a with _ | ⟨p, a⟩ <;> rcases b with _ | ⟨q, b⟩ <;> rfl
  | succ d ih => rcases a with _ | ⟨p, a⟩ <;> rcases b with _ | ⟨q, b⟩ <;> simp [joinBlocks, ih]

/-- Joining touches no dimension before the one merged. -/
theorem joinBlocks_take (useEnd : Bool) (d : ℕ) (a b : List (ℕ × ℕ)) :
    (joinBlocks useEnd d a b).take d = a.take d := by
  induction d generalizing a b with
  | zero => rfl
  | succ d ih => rcases a with _ | ⟨p, a⟩ <;> rcases b with _ | ⟨q, b⟩ <;> simp [joinBlocks, ih]

/-- **What joining two neighbours keeps, a pass keeps.** -/
theorem mergePass_inv {useEnd : Bool} {d : ℕ} {Inv : List (List (ℕ × ℕ)) → Prop}
    (hstep : ∀ pre a b bs, adjoins useEnd d a b = true → Inv (pre ++ a :: b :: bs) →
      Inv (pre ++ joinBlocks useEnd d a b :: bs))
    (pre : List (List (ℕ × ℕ))) {cur : List (ℕ × ℕ)} {bs : List (List (ℕ × ℕ))} (h : Inv (pre ++ cur :: bs)) :
    Inv (pre ++ mergePass useEnd d cur bs) := by
  induction bs generalizing pre cur with
  | nil => exact h
  | cons b bs ih =>
      rw [mergePass]
      split
      · rename_i hadj
        exact ih pre (hstep pre cur b bs hadj h)
      · have hrest := ih (pre ++ [cur]) (by rw [List.append_assoc]; exact h)
        rw [List.append_assoc] at hrest
        exact hrest

/-- The same for all passes: `Inv (d + 1)` is what holds before the pass over dimension `d`. -/
theorem mergeBlocks_inv {useEnd : Bool} {n : ℕ} {Inv : ℕ → List (List (ℕ × ℕ)) → Prop}
    (hstep : ∀ d, d < n → ∀ pre a b bs, adjoins useEnd d a b = true → Inv (d + 1) (pre ++ a :: b :: bs) →
      Inv (d + 1) (pre ++ joinBlocks useEnd d a b :: bs))
    (hdown : ∀ d bs, Inv (d + 1) bs → Inv d bs) {d : ℕ} (hd : d ≤ n) {bs : List (List (ℕ × ℕ))}
    (h : Inv d bs) : Inv 0 (mergeBlocks useEnd d bs) := by
  induction d generalizing bs with
  | zero => exact h
  | succ d ih =>
      rcases bs with _ | ⟨b, bs⟩
      · have hall (k : ℕ) (hk : Inv k []) : Inv 0 [] := by
          induction k with
          | zero => exact hk
          | succ k ihk => exact ihk (hdown k [] hk)
        exact hall (d + 1) h
      · refine ih (Nat.le_of_succ_le hd) (hdown d _ ?_)
        exact mergePass_inv (hstep d hd) [] h

/-- The invariant of merging counted blocks: rank, thinness, and the elements in their order. -/
structure CellsKept (n : ℕ) (cells : List (List ℕ)) (d : ℕ) (bs : List Box) : Prop where
  rank : ∀ b ∈ bs, b.length = n
  thin : ∀ b ∈ bs, b.ThinBefore (d - 1)
  kept : bs.flatMap Box.cells = cells

theorem CellsKept.join {n d : ℕ} (hd : d < n) {cells : List (List ℕ)} {pre bs : List Box} {a b : Box}
    (hadj : adjoins false d a b = true) (h : CellsKept n cells (d + 1) (pre ++ a :: b :: bs)) :
    CellsKept n cells (d + 1) (pre ++ joinBlocks false d a b :: bs) := by
  have ha := h.rank a (by simp)
  have hthin := h.thin a (by simp)
  have hfollows := adjoins_follows (by rw [ha]; exact hd) (ha.trans (h.rank b (by simp)).symm) hadj
  refine ⟨fun c hc => ?_, fun c hc => ?_, ?_⟩
  · rcases List.mem_append.mp hc with hc | hc
    · exact h.rank c (by simp [hc])
    · rcases List.mem_cons.mp hc with rfl | hc
      · rw [joinBlocks_length, ha]
      · exact h.rank c (by simp [hc])
  · rcases List.mem_append.mp hc with hc | hc
    · exact h.thin c (by simp [hc])
    · rcases List.mem_cons.mp hc with rfl | hc
      · intro p hp
        rw [Nat.add_sub_cancel, joinBlocks_take] at hp
        exact hthin p hp
      · exact h.thin c (by simp [hc])
  · rw [← h.kept, joinBlocks_grow hfollows]
    simp only [List.flatMap_append, List.flatMap_cons]
    rw [Box.cells_grow hfollows hthin, List.append_assoc]

/-- **Merging keeps the elements in their order**, over blocks that are thin in all dimensions but the
last. -/
theorem mergeBlocks_cells {n : ℕ} {bs : List Box} (hlen : ∀ b ∈ bs, b.length = n)
    (hthin : ∀ b ∈ bs, b.ThinBefore (n - 1)) :
    (mergeBlocks false n bs).flatMap Box.cells = bs.flatMap Box.cells := by
  have hstep : ∀ d, d < n → ∀ pre a b cs, adjoins false d a b = true →
      CellsKept n (bs.flatMap Box.cells) (d + 1) (pre ++ a :: b :: cs) →
      CellsKept n (bs.flatMap Box.cells) (d + 1) (pre ++ joinBlocks false d a b :: cs) :=
    fun d hd pre a b cs hadj h => h.join hd hadj
  refine (mergeBlocks_inv hstep (fun d cs h => ⟨h.rank, fun b hb p hp => ?_, h.kept⟩) le_rfl
    ⟨hlen, hthin, rfl⟩).kept
  have hsub : b.take (d - 1) = (b.take d).take (d - 1) := by
    rw [List.take_take, Nat.min_eq_left (Nat.sub_le d 1)]
  rw [hsub] at hp
  exact h.thin b hb p (List.mem_of_mem_take hp)

/-- A joined block has an index in every dimension. -/
theorem joinBlocks_nonempty (d : ℕ) (a b : Box) (ha : a.Nonempty) :
    Box.Nonempty (joinBlocks false d a b) := by
  induction d generalizing a b with
  | zero =>
      rcases a with _ | ⟨p, a⟩
      · exact ha
      rcases b with _ | ⟨q, b⟩
      · exact ha
      intro r hr
      rcases List.mem_cons.mp hr with rfl | hr
      · exact Nat.le_add_right_of_le (ha p (List.mem_cons_self ..))
      · exact ha r (List.mem_cons_of_mem p hr)
  | succ d ih =>
      rcases a with _ | ⟨p, a⟩
      · exact ha
      rcases b with _ | ⟨q, b⟩
      · exact ha
      intro r hr
      rcases List.mem_cons.mp hr with rfl | hr
      · exact ha r (List.mem_cons_self ..)
      · exact ih a b (fun s hs => ha s (List.mem_cons_of_mem p hs)) r hr

theorem mergeBlocks_nonempty {n : ℕ} {bs : List Box} (h : ∀ b ∈ bs, b.Nonempty) :
    ∀ b ∈ mergeBlocks false n bs, Box.Nonempty b := by
  refine @mergeBlocks_inv false n (fun _ bs => ∀ b ∈ bs, Box.Nonempty b)
    (fun d _ pre a b bs _ h c hc => ?_) (fun _ _ h => h) _ le_rfl _ h
  rcases List.mem_append.mp hc with hc | hc
  · exact h c (by simp [hc])
  · rcases List.mem_cons.mp hc with rfl | hc
    · exact joinBlocks_nonempty d a b (h a (by simp))
    · exact h c (by simp [hc])

/-- Merging makes no more blocks. -/
theorem mergeBlocks_length_le (useEnd : Bool) (n : ℕ) (bs : List (List (ℕ × ℕ))) :
    (mergeBlocks useEnd n bs).length ≤ bs.length := by
  refine @mergeBlocks_inv useEnd n (fun _ cs => cs.length ≤ bs.length)
    (fun d _ pre a b cs _ h => ?_) (fun _ _ h => h) _ le_rfl _ le_rfl
  simp only [List.length_append, List.length_cons] at h ⊢
  omega

end LogVol
