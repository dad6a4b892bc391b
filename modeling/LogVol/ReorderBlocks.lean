/-
# LogVol.ReorderBlocks — sorting and merging blocks in place.

`sortblocks` and `merge_blocks` work on two arrays of pointers, `starts` and `counts`; what the pointers lead to
are 64-bit words. The first moves the pointers along the cycles of the order that `std::sort` has found, and
writes into that order as it goes (`sortblocks_gathers`). The second writes to the rows of one slot and moves
the pointers of another over those of a third, which it will not read again; on rows that are all different it
is `mergeBlocks` on lists (`mergeSlots_list`), as long as no sum of two words wraps.
-/
import LogVol.SelectBlocks

namespace LogVol

/-! ## §1 — the code. -/

/-- Where the slots of `starts` and `counts` point to, and what is there. -/
structure BlockArrays where
  starts : ℕ → ℕ
  counts : ℕ → ℕ
  mem : ℕ → ℕ → HSize

namespace BlockArrays

/-- `starts[i][k]`. -/
def startAt (s : BlockArrays) (i k : ℕ) : HSize := s.mem (s.starts i) k

/-- `counts[i][k]`. -/
def countAt (s : BlockArrays) (i k : ℕ) : HSize := s.mem (s.counts i) k

/-- The coordinates that `lessthan` compares. -/
def start (s : BlockArrays) (ndim i : ℕ) : List ℕ := (List.range ndim).map fun k => (s.startAt i k).toNat

/-- The two pointers of a slot. -/
def slot (s : BlockArrays) (i : ℕ) : ℕ × ℕ := (s.starts i, s.counts i)

/-- `starts[j] = a; counts[j] = b`. -/
def assign (s : BlockArrays) (j a b : ℕ) : BlockArrays :=
  { s with starts := Function.update s.starts j a, counts := Function.update s.counts j b }

/-- Cyclic swap until we ran back: `while (k != i)`. The result has the `j` at which the loop ends. -/
def followCycle (i : ℕ) : ℕ → BlockArrays → (ℕ → ℕ) → ℕ → Option (BlockArrays × (ℕ → ℕ) × ℕ)
  | 0, _, _, _ => none
  | fuel + 1, s, idx, j =>
      if idx j ≠ i then
        followCycle i fuel (s.assign j (s.starts (idx j)) (s.counts (idx j))) (Function.update idx j j) (idx j)
      else some (s, idx, j)

/-- Pull out element `i`, and put it where its cycle ends. -/
def reorderStep (fuel : ℕ) (s : BlockArrays × (ℕ → ℕ)) (i : ℕ) : Option (BlockArrays × (ℕ → ℕ)) :=
  if s.2 i ≠ i then
    (followCycle i fuel s.1 s.2 i).map fun r =>
      (r.1.assign r.2.2 (s.1.starts i) (s.1.counts i), Function.update r.2.1 r.2.2 r.2.2)
  else some s

/-- **`sortblocks`**, with the order that `std::sort` has put the indices in, and a bound on how often an inner
loop goes round. -/
def sortblocks (fuel len : ℕ) (idx : List ℕ) (s : BlockArrays) : Option BlockArrays :=
  ((List.range len).foldlM (reorderStep fuel) (s, fun i => idx.getD i i)).map Prod.fst

/-- What `std::sort` with `comp` may make of the indices. -/
structure IndexSorted (s : BlockArrays) (ndim len : ℕ) (idx : List ℕ) : Prop where
  perm : idx.Perm (List.range len)
  sorted : idx.Pairwise fun l r => lessthan (s.start ndim r) (s.start ndim l) = false

/-- Block `i` can be merged into block `j`: the loop over `k` reaches `ndim`. -/
def mergeable (useEnd : Bool) (ndim d : ℕ) (s : BlockArrays) (j i : ℕ) : Bool :=
  (List.range ndim).all fun k =>
    if k = d then
      if useEnd then s.countAt j k + 1 == s.startAt i k else s.startAt j k + s.countAt j k == s.startAt i k
    else s.startAt i k == s.startAt j k && s.countAt i k == s.countAt j k

/-- `counts[j][d] = v`. -/
def setCount (s : BlockArrays) (j d : ℕ) (v : HSize) : BlockArrays :=
  { s with mem := Function.update s.mem (s.counts j) (Function.update (s.mem (s.counts j)) d v) }

/-- One turn of the loop over `i`: merge, or else the block goes to the next slot. -/
def mergeStep (useEnd : Bool) (ndim d : ℕ) (s : BlockArrays × ℕ) (i : ℕ) : BlockArrays × ℕ :=
  if mergeable useEnd ndim d s.1 s.2 i then
    (s.1.setCount s.2 d (if useEnd then s.1.countAt i d else s.1.countAt s.2 d + s.1.countAt i d), s.2)
  else (s.1.assign (s.2 + 1) (s.1.starts i) (s.1.counts i), s.2 + 1)

/-- The pass over dimension `d`, with the number of blocks it leaves. -/
def mergeSlotsPass (useEnd : Bool) (ndim d : ℕ) (s : BlockArrays) (len : ℕ) : BlockArrays × ℕ :=
  let r := (List.range' 1 (len - 1)).foldl (mergeStep useEnd ndim d) (s, 0)
  (r.1, r.2 + 1)

/-- The passes over the dimensions below `d`, the last one first. -/
def mergePasses (useEnd : Bool) (ndim : ℕ) : ℕ → BlockArrays → ℕ → BlockArrays × ℕ
  | 0, s, len => (s, len)
  | d + 1, s, len =>
      let r := mergeSlotsPass useEnd ndim d s len
      mergePasses useEnd ndim d r.1 r.2

/-- **`merge_blocks`** — the arrays and `len`. -/
def mergeSlots (useEnd : Bool) (ndim : ℕ) (s : BlockArrays) (len : ℕ) : BlockArrays × ℕ :=
  mergePasses useEnd ndim ndim s len

/-! ## §2 — reordering. -/

variable {s t : BlockArrays} {len : ℕ}

theorem assign_slot (s : BlockArrays) (j a b i : ℕ) : (s.assign j a b).slot i = if i = j then (a, b) else s.slot i := by
  simp only [slot, assign, Function.update_apply]
  split <;> rfl

@[simp] theorem assign_slot_self (s : BlockArrays) (j a b : ℕ) : (s.assign j a b).slot j = (a, b) := by
  rw [assign_slot, if_pos rfl]

theorem assign_slot_of_ne (s : BlockArrays) {j i : ℕ} (a b : ℕ) (h : i ≠ j) : (s.assign j a b).slot i = s.slot i := by
  rw [assign_slot, if_neg h]

@[simp] theorem assign_mem (s : BlockArrays) (j a b : ℕ) : (s.assign j a b).mem = s.mem := rfl

/-- The order is one of the places below `len`. -/
structure Order (π : ℕ → ℕ) (len : ℕ) : Prop where
  lt : ∀ i < len, π i < len
  inj : ∀ i < len, ∀ j < len, π i = π j → i = j

/-- **Between two cycles**: the places of `todo` are as they were, and their cycles are in `todo`; every other
place has what the order puts there, and its index says so. -/
structure Reordered (π : ℕ → ℕ) (s₀ : BlockArrays) (len : ℕ) (todo : Finset ℕ) (s : BlockArrays) (idx : ℕ → ℕ) :
    Prop where
  below : ∀ x ∈ todo, x < len
  closed : ∀ x ∈ todo, π x ∈ todo
  pending : ∀ x ∈ todo, idx x = π x ∧ s.slot x = s₀.slot x
  done : ∀ x < len, x ∉ todo → idx x = x ∧ s.slot x = s₀.slot (π x)
  outside : ∀ x, len ≤ x → s.slot x = s₀.slot x
  mem_eq : s.mem = s₀.mem

/-- **On a cycle**, pulled out at `i`: place `j` waits for what the order puts there. -/
structure OnCycle (π : ℕ → ℕ) (s₀ : BlockArrays) (len i j : ℕ) (todo : Finset ℕ) (s : BlockArrays) (idx : ℕ → ℕ) :
    Prop where
  below : ∀ x ∈ todo, x < len
  here : j ∈ todo
  pulled : i ∈ todo → i = j
  closed : ∀ x ∈ todo, π x = i ∨ π x ∈ todo ∧ π x ≠ j
  order : ∀ x ∈ todo, idx x = π x
  pending : ∀ x ∈ todo, x ≠ j → s.slot x = s₀.slot x
  done : ∀ x < len, x ∉ todo → idx x = x ∧ s.slot x = s₀.slot (π x)
  outside : ∀ x, len ≤ x → s.slot x = s₀.slot x
  mem_eq : s.mem = s₀.mem

section Cycles

variable {π : ℕ → ℕ} {s₀ : BlockArrays} {todo : Finset ℕ} {idx : ℕ → ℕ} {i j : ℕ}

/-- A place whose index is its own is done. -/
theorem Reordered.fixed (h : Reordered π s₀ len todo s idx) (hπ : Order π len) (hi : idx i = i) :
    Reordered π s₀ len (todo.erase i) s idx := by
  have hfix : ∀ x ∈ todo, π x = i → x = i := by
    intro x hx hxi
    by_cases hmem : i ∈ todo
    · have hπi : π i = i := (h.pending i hmem).1.symm.trans hi
      exact hπ.inj x (h.below x hx) i (h.below i hmem) (hxi.trans hπi.symm)
    · exact absurd (hxi ▸ h.closed x hx) hmem
  refine ⟨fun x hx => h.below x (Finset.mem_of_mem_erase hx), fun x hx => ?_,
    fun x hx => h.pending x (Finset.mem_of_mem_erase hx), fun x hlt hx => ?_, h.outside, h.mem_eq⟩
  · obtain ⟨hne, hx⟩ := Finset.mem_erase.mp hx
    exact Finset.mem_erase.mpr ⟨fun hxi => hne (hfix x hx hxi), h.closed x hx⟩
  · by_cases hmem : x ∈ todo
    · obtain rfl : x = i := by
        by_contra hne
        exact hx (Finset.mem_erase.mpr ⟨hne, hmem⟩)
      obtain ⟨hidx, hslot⟩ := h.pending x hmem
      rw [hi] at hidx
      exact ⟨hi, by rw [hslot, ← hidx]⟩
    · exact h.done x hlt hmem

/-- The cycle of a place that is not done begins there. -/
theorem Reordered.pullOut (h : Reordered π s₀ len todo s idx) (hi : i < len) (hne : idx i ≠ i) :
    OnCycle π s₀ len i i todo s idx := by
  have hmem : i ∈ todo := by
    by_contra hmem
    exact hne (h.done i hi hmem).1
  refine ⟨h.below, hmem, fun _ => rfl, fun x hx => ?_, fun x hx => (h.pending x hx).1,
    fun x hx _ => (h.pending x hx).2, h.done, h.outside, h.mem_eq⟩
  by_cases hxi : π x = i
  · exact Or.inl hxi
  · exact Or.inr ⟨h.closed x hx, hxi⟩

/-- **One turn of the inner loop.** -/
theorem OnCycle.follow (h : OnCycle π s₀ len i j todo s idx) (hπ : Order π len) (hne : idx j ≠ i) :
    OnCycle π s₀ len i (idx j) (todo.erase j) (s.assign j (s.starts (idx j)) (s.counts (idx j)))
      (Function.update idx j j) := by
  have hidx := h.order j h.here
  obtain ⟨hnext, hnextne⟩ : π j ∈ todo ∧ π j ≠ j := by
    rcases h.closed j h.here with hπi | hnext
    · exact absurd (hidx.trans hπi) hne
    · exact hnext
  rw [← hidx] at hnext hnextne
  have hlen := h.below j h.here
  -- Row j gets its vectors from idx j, which is the next row of the cycle, and is done.
  refine ⟨fun x hx => h.below x (Finset.mem_of_mem_erase hx), Finset.mem_erase.mpr ⟨hnextne, hnext⟩,
    fun hi => ?_, fun x hx => ?_, fun x hx => ?_, fun x hx hxne => ?_, fun x hlt hx => ?_, fun x hx => ?_, h.mem_eq⟩
  · obtain ⟨hij, hi⟩ := Finset.mem_erase.mp hi
    exact absurd (h.pulled hi) hij
  · obtain ⟨hxj, hx⟩ := Finset.mem_erase.mp hx
    rcases h.closed x hx with hπi | ⟨hmem, hπj⟩
    · exact Or.inl hπi
    · refine Or.inr ⟨Finset.mem_erase.mpr ⟨hπj, hmem⟩, fun hsame => hxj ?_⟩
      exact hπ.inj x (h.below x hx) j hlen (hsame.trans hidx)
  · obtain ⟨hxj, hx⟩ := Finset.mem_erase.mp hx
    rw [Function.update_of_ne hxj, h.order x hx]
  · obtain ⟨hxj, hx⟩ := Finset.mem_erase.mp hx
    rw [assign_slot_of_ne _ _ _ hxj, h.pending x hx hxj]
  · by_cases hxj : x = j
    · subst hxj
      rw [Function.update_self, assign_slot_self, ← hidx]
      exact ⟨rfl, h.pending _ hnext hnextne⟩
    · rw [Function.update_of_ne hxj, assign_slot_of_ne _ _ _ hxj]
      exact h.done x hlt fun hmem => hx (Finset.mem_erase.mpr ⟨hxj, hmem⟩)
  · rw [assign_slot_of_ne _ _ _ (by omega)]
    exact h.outside x hx

/-- The end of the cycle: what was pulled out is put there. -/
theorem OnCycle.close (h : OnCycle π s₀ len i j todo s idx) (hπ : Order π len) (hend : idx j = i) :
    Reordered π s₀ len (todo.erase j) (s.assign j (s₀.starts i) (s₀.counts i)) (Function.update idx j j) := by
  have hidx := h.order j h.here
  have hlen := h.below j h.here
  refine ⟨fun x hx => h.below x (Finset.mem_of_mem_erase hx), fun x hx => ?_, fun x hx => ?_, fun x hlt hx => ?_,
    fun x hx => ?_, h.mem_eq⟩
  · obtain ⟨hxj, hx⟩ := Finset.mem_erase.mp hx
    rcases h.closed x hx with hπi | ⟨hmem, hπj⟩
    · exact absurd (hπ.inj x (h.below x hx) j hlen (hπi.trans (hend.symm.trans hidx))) hxj
    · exact Finset.mem_erase.mpr ⟨hπj, hmem⟩
  · obtain ⟨hxj, hx⟩ := Finset.mem_erase.mp hx
    rw [Function.update_of_ne hxj, assign_slot_of_ne _ _ _ hxj]
    exact ⟨h.order x hx, h.pending x hx hxj⟩
  · by_cases hxj : x = j
    · subst hxj
      rw [Function.update_self, assign_slot_self, ← hidx, hend]
      exact ⟨rfl, rfl⟩
    · rw [Function.update_of_ne hxj, assign_slot_of_ne _ _ _ hxj]
      exact h.done x hlt fun hmem => hx (Finset.mem_erase.mpr ⟨hxj, hmem⟩)
  · rw [assign_slot_of_ne _ _ _ (by omega)]
    exact h.outside x hx

/-- **The inner loop ends**, with the place that waits for what was pulled out. -/
theorem followCycle_spec {fuel : ℕ} (hπ : Order π len) (h : OnCycle π s₀ len i j todo s idx)
    (hfuel : todo.card ≤ fuel) :
    ∃ t idx' j' todo', followCycle i fuel s idx j = some (t, idx', j') ∧ OnCycle π s₀ len i j' todo' t idx' ∧
      idx' j' = i ∧ todo' ⊆ todo := by
  induction fuel generalizing s idx j todo with
  | zero => exact absurd h.here (by rw [Finset.card_eq_zero.mp (Nat.le_zero.mp hfuel)]; exact Finset.notMem_empty j)
  | succ fuel ih =>
    rw [followCycle]
    by_cases hend : idx j = i
    · rw [if_neg (not_not.mpr hend)]
      exact ⟨s, idx, j, todo, rfl, h, hend, Finset.Subset.refl todo⟩
    · rw [if_pos hend]
      have hcard := Finset.card_erase_of_mem h.here
      obtain ⟨t, idx', j', todo', hrun, hcycle, hback, hsub⟩ := ih (h.follow hπ hend) (by omega)
      exact ⟨t, idx', j', todo', hrun, hcycle, hback, hsub.trans (Finset.erase_subset j todo)⟩

theorem Reordered.card_le (h : Reordered π s₀ len todo s idx) : todo.card ≤ len := by
  have hsub : todo ⊆ Finset.range len := fun x hx => Finset.mem_range.mpr (h.below x hx)
  simpa using Finset.card_le_card hsub

/-- **One turn of the outer loop**: its place is done. -/
theorem reorderStep_spec {fuel : ℕ} (hπ : Order π len) (h : Reordered π s₀ len todo s idx) (hi : i < len)
    (hfuel : len ≤ fuel) :
    ∃ t idx' todo', reorderStep fuel (s, idx) i = some (t, idx') ∧ Reordered π s₀ len todo' t idx' ∧
      todo' ⊆ todo.erase i := by
  rw [reorderStep]
  by_cases hfix : idx i = i
  · rw [if_neg (not_not.mpr hfix)]
    exact ⟨s, idx, todo.erase i, rfl, h.fixed hπ hfix, Finset.Subset.refl _⟩
  · rw [if_pos hfix]
    have hcycle := h.pullOut hi hfix
    obtain ⟨t, idx', j', todo', hrun, hlast, hback, hsub⟩ := followCycle_spec hπ hcycle (h.card_le.trans hfuel)
    obtain ⟨hstarts, hcounts⟩ := Prod.mk.inj (h.pending i hcycle.here).2
    refine ⟨_, _, todo'.erase j', by rw [hrun]; rfl, ?_, fun x hx => ?_⟩
    · have hclose := hlast.close hπ hback
      rw [← hstarts, ← hcounts] at hclose
      exact hclose
    · obtain ⟨hxj, hx⟩ := Finset.mem_erase.mp hx
      refine Finset.mem_erase.mpr ⟨fun hxi => hxj ?_, hsub hx⟩
      rw [hxi] at hx ⊢
      exact hlast.pulled hx

theorem reorder_spec {fuel n : ℕ} (hπ : Order π len) (h : Reordered π s₀ len todo s idx) (hn : n ≤ len)
    (hfuel : len ≤ fuel) :
    ∃ t idx' todo', (List.range n).foldlM (reorderStep fuel) (s, idx) = some (t, idx') ∧
      Reordered π s₀ len todo' t idx' ∧ ∀ x < n, x ∉ todo' := by
  induction n with
  | zero => exact ⟨s, idx, todo, rfl, h, fun x hx => absurd hx (Nat.not_lt_zero x)⟩
  | succ n ih =>
    obtain ⟨t, idx', todo', hrun, hmid, hdone⟩ := ih (Nat.le_of_succ_le hn)
    obtain ⟨u, idx'', todo'', hstep, hnext, hsub⟩ := reorderStep_spec hπ hmid hn hfuel
    refine ⟨u, idx'', todo'', ?_, hnext, fun x hx hmem => ?_⟩
    · rw [List.range_succ, List.foldlM_append, hrun]
      simpa using hstep
    · obtain ⟨hne, hmem⟩ := Finset.mem_erase.mp (hsub hmem)
      exact hdone x (by omega) hmem

end Cycles

/-- The order in a list of all places. -/
theorem order_of_perm {idx : List ℕ} (h : idx.Perm (List.range len)) : Order (fun i => idx.getD i i) len := by
  have hlen : idx.length = len := by rw [h.length_eq, List.length_range]
  have hnodup : idx.Nodup := h.nodup_iff.mpr List.nodup_range
  refine ⟨fun i hi => ?_, fun i hi j hj hij => ?_⟩
  · have hi' : i < idx.length := hlen ▸ hi
    rw [List.getD_eq_getElem idx i hi']
    exact List.mem_range.mp (h.mem_iff.mp (List.getElem_mem hi'))
  · have hi' : i < idx.length := hlen ▸ hi
    have hj' : j < idx.length := hlen ▸ hj
    rw [List.getD_eq_getElem idx i hi', List.getD_eq_getElem idx j hj'] at hij
    exact (List.Nodup.getElem_inj_iff hnodup).mp hij

/-- **`sortblocks` ends, with every slot holding the two pointers that the order puts there.** -/
theorem sortblocks_gathers {fuel : ℕ} {idx : List ℕ} (h : idx.Perm (List.range len)) (hfuel : len ≤ fuel) :
    ∃ t, sortblocks fuel len idx s = some t ∧ t.mem = s.mem ∧
      (List.range len).map t.slot = idx.map s.slot ∧ ∀ i, len ≤ i → t.slot i = s.slot i := by
  have hπ := order_of_perm h
  have hstart : Reordered (fun i => idx.getD i i) s len (Finset.range len) s fun i => idx.getD i i :=
    ⟨fun x hx => Finset.mem_range.mp hx, fun x hx => Finset.mem_range.mpr (hπ.lt x (Finset.mem_range.mp hx)),
      fun _ _ => ⟨rfl, rfl⟩, fun x hlt hx => absurd (Finset.mem_range.mpr hlt) hx, fun _ _ => rfl, rfl⟩
  obtain ⟨t, idx', todo, hrun, hend, hdone⟩ := reorder_spec hπ hstart le_rfl hfuel
  have hlen : idx.length = len := by rw [h.length_eq, List.length_range]
  refine ⟨t, by rw [sortblocks, hrun]; rfl, hend.mem_eq, ?_, hend.outside⟩
  apply List.ext_getElem
  · simp [hlen]
  · intro i hi hi'
    rw [List.length_map, List.length_range] at hi
    have hplace := (hend.done i hi (hdone i hi)).2
    rw [List.getElem_map, List.getElem_range, List.getElem_map, hplace, List.getD_eq_getElem idx i (by omega)]

/-! ## §3 — lists and places. -/

/-- The second block begins behind the first, in one dimension. -/
def touches (useEnd : Bool) (p q : ℕ × ℕ) : Bool := if useEnd then p.2 + 1 == q.1 else p.1 + p.2 == q.1

/-- The two of them as one. -/
def joined (useEnd : Bool) (p q : ℕ × ℕ) : ℕ × ℕ := (p.1, if useEnd then q.2 else p.2 + q.2)

theorem map_range_succ {α : Type} (f : ℕ → α) (n : ℕ) :
    (List.range (n + 1)).map f = f 0 :: (List.range n).map fun k => f (k + 1) := by
  rw [List.range_succ_eq_map, List.map_cons, List.map_map]
  rfl

/-- `adjoins`, dimension by dimension. -/
theorem adjoins_range {useEnd : Bool} {d n : ℕ} {f g : ℕ → ℕ × ℕ} (hd : d < n) :
    adjoins useEnd d ((List.range n).map f) ((List.range n).map g) = true ↔
      ∀ k < n, if k = d then touches useEnd (f k) (g k) = true else f k = g k := by
  induction d generalizing n f g with
  | zero =>
    obtain ⟨n, rfl⟩ := Nat.exists_eq_succ_of_ne_zero (Nat.ne_of_gt hd)
    rw [map_range_succ, map_range_succ, adjoins, Bool.and_eq_true, beq_iff_eq, List.map_inj_left]
    constructor
    · rintro ⟨htouch, hrest⟩ k hk
      rcases k with _ | k
      · exact htouch
      · exact hrest k (List.mem_range.mpr (Nat.lt_of_succ_lt_succ hk))
    · intro h
      exact ⟨h 0 hd, fun k hk => h (k + 1) (Nat.succ_lt_succ (List.mem_range.mp hk))⟩
  | succ d ih =>
    obtain ⟨n, rfl⟩ := Nat.exists_eq_succ_of_ne_zero (Nat.ne_of_gt (Nat.zero_lt_of_lt hd))
    rw [map_range_succ, map_range_succ, adjoins, Bool.and_eq_true, beq_iff_eq, ih (Nat.lt_of_succ_lt_succ hd)]
    constructor
    · rintro ⟨hfirst, hrest⟩ k hk
      rcases k with _ | k
      · exact hfirst
      · simpa only [Nat.succ_inj] using hrest k (Nat.lt_of_succ_lt_succ hk)
    · intro h
      refine ⟨h 0 (Nat.succ_pos n), fun k hk => ?_⟩
      simpa only [Nat.succ_inj] using h (k + 1) (Nat.succ_lt_succ hk)

/-- `joinBlocks` writes to one dimension. -/
theorem joinBlocks_range (useEnd : Bool) {d n : ℕ} (f g : ℕ → ℕ × ℕ) (hd : d < n) :
    joinBlocks useEnd d ((List.range n).map f) ((List.range n).map g) =
      (List.range n).map (Function.update f d (joined useEnd (f d) (g d))) := by
  induction d generalizing n f g with
  | zero =>
    obtain ⟨n, rfl⟩ := Nat.exists_eq_succ_of_ne_zero (Nat.ne_of_gt hd)
    rw [map_range_succ, map_range_succ, map_range_succ, Function.update_self]
    exact congrArg _ (List.map_congr_left fun k _ => (Function.update_of_ne (Nat.succ_ne_zero k) ..).symm)
  | succ d ih =>
    obtain ⟨n, rfl⟩ := Nat.exists_eq_succ_of_ne_zero (Nat.ne_of_gt (Nat.zero_lt_of_lt hd))
    rw [map_range_succ, map_range_succ, map_range_succ, joinBlocks, ih _ _ (Nat.lt_of_succ_lt_succ hd),
      Function.update_of_ne (Nat.succ_ne_zero d).symm]
    refine congrArg _ (List.map_congr_left fun k _ => ?_)
    simp only [Function.update_apply, Nat.succ_inj]

/-- The end of a block, and the place behind it, are words. -/
def Fits (useEnd : Bool) (p : ℕ × ℕ) : Prop := if useEnd then p.2 + 1 < 2 ^ 64 else p.1 + p.2 < 2 ^ 64

theorem joined_fits {useEnd : Bool} {p q : ℕ × ℕ} (h : touches useEnd p q = true) (hq : Fits useEnd q) :
    Fits useEnd (joined useEnd p q) := by
  rcases useEnd
  · have hpq : p.1 + p.2 = q.1 := by simpa [touches] using h
    have hq : q.1 + q.2 < 2 ^ 64 := hq
    show p.1 + (p.2 + q.2) < 2 ^ 64
    omega
  · exact hq

/-! ## §4 — merging. -/

/-- The block in a slot: its starts and its counts, or ends. -/
def block (s : BlockArrays) (ndim i : ℕ) : List (ℕ × ℕ) :=
  (List.range ndim).map fun k => ((s.startAt i k).toNat, (s.countAt i k).toNat)

/-- **Rows of their own**: what is written through `counts` at one slot is read at no other. -/
def RowsApart (s : BlockArrays) (used : ℕ → Prop) : Prop :=
  ∀ i k, used i → used k → s.counts i ≠ s.starts k ∧ (i ≠ k → s.counts i ≠ s.counts k)

section Merge

variable {useEnd : Bool} {ndim d i j : ℕ}

theorem word_touches {p q : HSize × HSize} (h : Fits useEnd (p.1.toNat, p.2.toNat)) :
    (if useEnd then p.2 + 1 == q.1 else p.1 + p.2 == q.1) =
      touches useEnd (p.1.toNat, p.2.toNat) (q.1.toNat, q.2.toNat) := by
  rw [Bool.eq_iff_iff]
  rcases useEnd
  · have hfit : p.1.toNat + p.2.toNat < 2 ^ 64 := h
    simp only [touches, Bool.false_eq_true, if_false, beq_iff_eq, ← BitVec.toNat_inj, BitVec.toNat_add]
    rw [Nat.mod_eq_of_lt hfit]
  · have hfit : p.2.toNat + 1 < 2 ^ 64 := h
    simp only [touches, if_true, beq_iff_eq, ← BitVec.toNat_inj, BitVec.toNat_add]
    rw [show (1 : HSize).toNat = 1 from rfl, Nat.mod_eq_of_lt hfit]

/-- The test in the arrays is the one on lists, where no sum wraps. -/
theorem mergeable_iff (hd : d < ndim) (hfit : Fits useEnd ((s.startAt j d).toNat, (s.countAt j d).toNat)) :
    mergeable useEnd ndim d s j i = adjoins useEnd d (s.block ndim j) (s.block ndim i) := by
  rw [Bool.eq_iff_iff, block, block, adjoins_range hd, mergeable, List.all_eq_true]
  refine forall_congr' fun k => ?_
  rw [List.mem_range]
  refine imp_congr_right fun hk => ?_
  by_cases hkd : k = d
  · subst hkd
    rw [if_pos rfl, if_pos rfl]
    exact Bool.eq_iff_iff.mp
      (word_touches (p := (s.startAt j k, s.countAt j k)) (q := (s.startAt i k, s.countAt i k)) hfit)
  · rw [if_neg hkd, if_neg hkd, Bool.and_eq_true, beq_iff_eq, beq_iff_eq, Prod.mk.injEq, BitVec.toNat_inj,
      BitVec.toNat_inj]
    exact and_congr eq_comm eq_comm

/-- What is written through a slot whose row is its own. -/
theorem setCount_block (v : HSize) (hself : s.counts j ≠ s.starts j) :
    (s.setCount j d v).block ndim j =
      (List.range ndim).map (Function.update (fun k => ((s.startAt j k).toNat, (s.countAt j k).toNat)) d
        ((s.startAt j d).toNat, v.toNat)) := by
  refine List.map_congr_left fun k _ => ?_
  simp only [setCount, startAt, countAt, Function.update_self, Function.update_of_ne hself.symm]
  by_cases hkd : k = d
  · rw [hkd, Function.update_self, Function.update_self]
  · rw [Function.update_of_ne hkd, Function.update_of_ne hkd]

theorem setCount_other (v : HSize) (hstart : s.counts j ≠ s.starts i) (hcount : s.counts j ≠ s.counts i) :
    (s.setCount j d v).block ndim i = s.block ndim i := by
  simp only [block, setCount, startAt, countAt, Function.update_of_ne hstart.symm, Function.update_of_ne hcount.symm]

/-- **Merging in place is joining lists.** -/
theorem setCount_joins (hd : d < ndim) (hself : s.counts j ≠ s.starts j)
    (hfit : Fits useEnd (joined useEnd ((s.startAt j d).toNat, (s.countAt j d).toNat)
      ((s.startAt i d).toNat, (s.countAt i d).toNat))) :
    (s.setCount j d (if useEnd then s.countAt i d else s.countAt j d + s.countAt i d)).block ndim j =
      joinBlocks useEnd d (s.block ndim j) (s.block ndim i) := by
  rw [setCount_block _ hself, block, block, joinBlocks_range _ _ _ hd]
  congr 2
  rcases useEnd
  · have hsum : (s.startAt j d).toNat + ((s.countAt j d).toNat + (s.countAt i d).toNat) < 2 ^ 64 := hfit
    simp only [joined, Bool.false_eq_true, if_false, BitVec.toNat_add]
    rw [Nat.mod_eq_of_lt (by omega)]
  · rfl

theorem assign_block (s : BlockArrays) (a b : ℕ) (ndim k : ℕ) :
    (s.assign j (s.starts a) (s.counts b)).block ndim k =
      if k = j then (List.range ndim).map fun x => ((s.startAt a x).toNat, (s.countAt b x).toNat)
      else s.block ndim k := by
  simp only [block, assign, startAt, countAt, Function.update_apply]
  split <;> rfl

/-- What a step needs: the slots written to and those still to be read have rows of their own, and blocks whose
ends are words. -/
structure MergeReady (useEnd : Bool) (ndim : ℕ) (s : BlockArrays) (used : ℕ → Prop) : Prop where
  apart : s.RowsApart used
  fits : ∀ i, used i → ∀ k < ndim, Fits useEnd ((s.startAt i k).toNat, (s.countAt i k).toNat)

/-- The slots in use while block `i` is looked at: those up to `j`, and the `n` from `i` on. -/
def InUse (j i n x : ℕ) : Prop := x ≤ j ∨ i ≤ x ∧ x < i + n

theorem MergeReady.fits_block {used : ℕ → Prop} (h : MergeReady useEnd ndim s used) (hi : used i) :
    ∀ p ∈ s.block ndim i, Fits useEnd p := by
  intro p hp
  obtain ⟨k, hk, rfl⟩ := List.mem_map.mp hp
  exact h.fits i hi k (List.mem_range.mp hk)

/-- The blocks are merged, and the one that is gone is not read again. -/
theorem MergeReady.merge {n : ℕ} (h : MergeReady useEnd ndim s (InUse j i (n + 1))) (hji : j < i) (hd : d < ndim)
    (hadj : adjoins useEnd d (s.block ndim j) (s.block ndim i) = true) :
    MergeReady useEnd ndim
      (s.setCount j d (if useEnd then s.countAt i d else s.countAt j d + s.countAt i d)) (InUse j (i + 1) n) := by
  have hj : InUse j i (n + 1) j := Or.inl le_rfl
  have hi : InUse j i (n + 1) i := Or.inr ⟨le_rfl, by omega⟩
  have hsub : ∀ x, InUse j (i + 1) n x → InUse j i (n + 1) x := by
    intro x hx
    unfold InUse at hx ⊢
    omega
  refine ⟨fun x y hx hy => h.apart x y (hsub x hx) (hsub y hy), fun x hx k hk => ?_⟩
  have htouch : touches useEnd ((s.startAt j d).toNat, (s.countAt j d).toNat)
      ((s.startAt i d).toNat, (s.countAt i d).toNat) = true := by
    have hadj := (adjoins_range hd).mp hadj d hd
    rwa [if_pos rfl] at hadj
  have hjoin := joined_fits htouch (h.fits i hi d hd)
  -- the block that is written to, or another one
  have hmem : ((fun k =>
      (((s.setCount j d (if useEnd then s.countAt i d else s.countAt j d + s.countAt i d)).startAt x k).toNat,
      ((s.setCount j d (if useEnd then s.countAt i d else s.countAt j d + s.countAt i d)).countAt x k).toNat)) k) ∈
      (s.setCount j d (if useEnd then s.countAt i d else s.countAt j d + s.countAt i d)).block ndim x :=
    List.mem_map_of_mem (List.mem_range.mpr hk)
  by_cases hxj : x = j
  · subst hxj
    rw [setCount_joins hd (h.apart x x hj hj).1 hjoin, block, block, joinBlocks_range _ _ _ hd] at hmem
    obtain ⟨y, hy, heq⟩ := List.mem_map.mp hmem
    dsimp only at heq
    rw [← heq]
    by_cases hyd : y = d
    · rw [hyd, Function.update_self]
      exact hjoin
    · rw [Function.update_of_ne hyd]
      exact h.fits x hj y (List.mem_range.mp hy)
  · obtain ⟨hstart, hcount⟩ := h.apart j x hj (hsub x hx)
    rw [setCount_other _ hstart (hcount (Ne.symm hxj))] at hmem
    exact h.fits_block (hsub x hx) _ hmem

/-- The next block goes to the next slot, whose own block has gone on before. -/
theorem MergeReady.advance {n : ℕ} (h : MergeReady useEnd ndim s (InUse j i (n + 1))) (hji : j < i) :
    MergeReady useEnd ndim (s.assign (j + 1) (s.starts i) (s.counts i)) (InUse (j + 1) (i + 1) n) := by
  have hi : InUse j i (n + 1) i := Or.inr ⟨le_rfl, by omega⟩
  have hsub : ∀ x, InUse (j + 1) (i + 1) n x → x ≠ j + 1 → InUse j i (n + 1) x ∧ x ≠ i := by
    intro x hx hne
    unfold InUse at hx ⊢
    omega
  refine ⟨fun x y hx hy => ?_, fun x hx k hk => ?_⟩
  · simp only [assign, Function.update_apply]
    split
    · split
      · rename_i hxj hyj
        exact ⟨(h.apart i i hi hi).1, fun hne => absurd (hxj.trans hyj.symm) hne⟩
      · rename_i hyj
        obtain ⟨hyused, hyi⟩ := hsub y hy hyj
        exact ⟨(h.apart i y hi hyused).1, fun _ => (h.apart i y hi hyused).2 (Ne.symm hyi)⟩
    · rename_i hxj
      obtain ⟨hxused, hxi⟩ := hsub x hx hxj
      split
      · exact ⟨(h.apart x i hxused hi).1, fun _ => (h.apart x i hxused hi).2 hxi⟩
      · rename_i hyj
        exact h.apart x y hxused (hsub y hy hyj).1
  · simp only [startAt, countAt, assign, Function.update_apply]
    split
    · exact h.fits i hi k hk
    · rename_i hxj
      exact h.fits x (hsub x hx hxj).1 k hk

/-- **A pass in the arrays is a pass over the list.** -/
theorem mergeStep_list (hd : d < ndim) {n : ℕ} (h : MergeReady useEnd ndim s (InUse j i n)) (hji : j < i)
    {r : BlockArrays × ℕ} (hr : (List.range' i n).foldl (mergeStep useEnd ndim d) (s, j) = r) :
    (List.range (r.2 + 1)).map (r.1.block ndim) = (List.range j).map (s.block ndim) ++
        mergePass useEnd d (s.block ndim j) ((List.range' i n).map (s.block ndim)) ∧
      MergeReady useEnd ndim r.1 (· ≤ r.2) ∧ r.2 < i + n := by
  -- On the slots that are left. The slots up to j are the list so far, those from i on are what is still to come.
  induction n generalizing i j s with
  | zero =>
    subst hr
    have hused : ∀ x, x ≤ j → InUse j i 0 x := fun x hx => Or.inl hx
    refine ⟨?_, ⟨fun x y hx hy => h.apart x y (hused x hx) (hused y hy), fun x hx => h.fits x (hused x hx)⟩, hji⟩
    rw [List.range_succ, List.map_append]
    rfl
  | succ n ih =>
    have hj : InUse j i (n + 1) j := Or.inl le_rfl
    have hi : InUse j i (n + 1) i := Or.inr ⟨le_rfl, by omega⟩
    have hbehind : ∀ x ∈ List.range' (i + 1) n, InUse j i (n + 1) x ∧ x ≠ j ∧ x ≠ j + 1 := by
      intro x hx
      rw [List.mem_range'_1] at hx
      unfold InUse
      omega
    rw [List.range'_succ, List.foldl_cons, mergeStep, mergeable_iff hd (h.fits j hj d hd)] at hr
    rw [List.range'_succ, List.map_cons, mergePass]
    by_cases hadj : adjoins useEnd d (s.block ndim j) (s.block ndim i) = true
    · -- The pair is joined in slot j, and j stays. No other slot has its arrays.
      rw [if_pos hadj] at hr ⊢
      obtain ⟨hlist, hnext, hlt⟩ := ih (h.merge hji hd hadj) (by omega) hr
      refine ⟨?_, hnext, by omega⟩
      have htouch : touches useEnd ((s.startAt j d).toNat, (s.countAt j d).toNat)
          ((s.startAt i d).toNat, (s.countAt i d).toNat) = true := by
        have hadj := (adjoins_range hd).mp hadj d hd
        rwa [if_pos rfl] at hadj
      have hother : ∀ x, InUse j i (n + 1) x → x ≠ j →
          (s.setCount j d (if useEnd then s.countAt i d else s.countAt j d + s.countAt i d)).block ndim x =
            s.block ndim x := by
        intro x hx hne
        obtain ⟨hstart, hcount⟩ := h.apart j x hj hx
        exact setCount_other _ hstart (hcount (Ne.symm hne))
      rw [hlist, setCount_joins hd (h.apart j j hj hj).1 (joined_fits htouch (h.fits i hi d hd))]
      congr 1
      · refine List.map_congr_left fun x hx => hother x (Or.inl ?_) ?_
        · exact (List.mem_range.mp hx).le
        · exact (List.mem_range.mp hx).ne
      · exact congrArg _ (List.map_congr_left fun x hx => hother x (hbehind x hx).1 (hbehind x hx).2.1)
    · -- Slot j is left as it is, and slot i moves behind it.
      rw [if_neg hadj] at hr ⊢
      obtain ⟨hlist, hnext, hlt⟩ := ih (h.advance hji) (by omega) hr
      refine ⟨?_, hnext, by omega⟩
      have hfront : (List.range (j + 1)).map ((s.assign (j + 1) (s.starts i) (s.counts i)).block ndim) =
          (List.range j).map (s.block ndim) ++ [s.block ndim j] := by
        rw [List.range_succ, List.map_append]
        congr 1
        · refine List.map_congr_left fun x hx => ?_
          have hlt := List.mem_range.mp hx
          rw [assign_block, if_neg (by omega)]
        · show [_] = [_]
          rw [assign_block, if_neg (by omega)]
      have hmoved : (s.assign (j + 1) (s.starts i) (s.counts i)).block ndim (j + 1) = s.block ndim i := by
        rw [assign_block, if_pos rfl]
        rfl
      rw [hlist, hfront, hmoved, List.append_assoc]
      congr 1
      refine congrArg (fun l => s.block ndim j :: mergePass useEnd d (s.block ndim i) l)
        (List.map_congr_left fun x hx => ?_)
      rw [assign_block, if_neg (hbehind x hx).2.2]

/-- **`merge_blocks` on arrays is `mergeBlocks` on the list of blocks.** -/
theorem mergePasses_list (hd : d ≤ ndim) {len : ℕ} (hlen : 0 < len) (h : MergeReady useEnd ndim s (· < len))
    {r : BlockArrays × ℕ} (hr : mergePasses useEnd ndim d s len = r) :
    (List.range r.2).map (r.1.block ndim) = mergeBlocks useEnd d ((List.range len).map (s.block ndim)) ∧ 0 < r.2 := by
  induction d generalizing s len with
  | zero =>
    subst hr
    exact ⟨rfl, hlen⟩
  | succ d ih =>
    obtain ⟨n, rfl⟩ := Nat.exists_eq_succ_of_ne_zero (Nat.ne_of_gt hlen)
    have hused : ∀ x, InUse 0 1 n x → x < n + 1 := by
      intro x hx
      unfold InUse at hx
      omega
    have hstart : MergeReady useEnd ndim s (InUse 0 1 n) :=
      ⟨fun x y hx hy => h.apart x y (hused x hx) (hused y hy), fun x hx => h.fits x (hused x hx)⟩
    rcases hpass : (List.range' 1 n).foldl (mergeStep useEnd ndim d) (s, 0) with ⟨t, j⟩
    obtain ⟨hlist, hnext, -⟩ := mergeStep_list hd hstart one_pos hpass
    rw [mergePasses, mergeSlotsPass, Nat.succ_sub_one, hpass] at hr
    have hnext : MergeReady useEnd ndim t (· < j + 1) :=
      ⟨fun x y hx hy => hnext.apart x y (Nat.le_of_lt_succ hx) (Nat.le_of_lt_succ hy),
        fun x hx => hnext.fits x (Nat.le_of_lt_succ hx)⟩
    obtain ⟨hrest, hpos⟩ := ih (Nat.le_of_succ_le hd) (Nat.succ_pos j) hnext hr
    refine ⟨?_, hpos⟩
    have hblocks : (List.range (n + 1)).map (s.block ndim) =
        s.block ndim 0 :: (List.range' 1 n).map (s.block ndim) := by
      rw [List.range_eq_range', List.range'_succ, List.map_cons]
    rw [hrest, hlist, hblocks, mergeBlocks]
    rfl

end Merge

/-! ## §5 — the elements of blocks. -/

/-- The element `x` is in the block. -/
def Covers (useEnd : Bool) (b : List (ℕ × ℕ)) (x : List ℕ) : Prop :=
  List.Forall₂ (fun p c => p.1 ≤ c ∧ if useEnd then c ≤ p.2 else c < p.1 + p.2) b x

/-- A block that is given by its ends has no end in front of its start. -/
def Ordered (useEnd : Bool) (b : List (ℕ × ℕ)) : Prop := ∀ p ∈ b, useEnd = true → p.1 ≤ p.2

variable {useEnd : Bool} {ndim d : ℕ}

theorem ordered_cons {p : ℕ × ℕ} {b : List (ℕ × ℕ)} :
    Ordered useEnd (p :: b) ↔ (useEnd = true → p.1 ≤ p.2) ∧ Ordered useEnd b := List.forall_mem_cons

/-- **A joined block has the elements of both.** -/
theorem covers_join {a b : List (ℕ × ℕ)} {x : List ℕ} (hd : d < a.length) (hlen : a.length = b.length)
    (hadj : adjoins useEnd d a b = true) (ha : Ordered useEnd a) (hb : Ordered useEnd b) :
    Covers useEnd (joinBlocks useEnd d a b) x ↔ Covers useEnd a x ∨ Covers useEnd b x := by
  induction d generalizing a b x with
  -- The dimension that is joined: the two ranges touch.
  | zero =>
    obtain ⟨p, a, rfl⟩ := List.exists_cons_of_length_pos hd
    obtain ⟨q, b, rfl⟩ := List.exists_cons_of_length_pos (hlen ▸ hd)
    rw [adjoins, Bool.and_eq_true, beq_iff_eq] at hadj
    obtain ⟨htouch, rfl⟩ := hadj
    have hp := (ordered_cons.mp ha).1
    have hq := (ordered_cons.mp hb).1
    rcases x with _ | ⟨c, x⟩
    · simp [Covers, joinBlocks]
    · simp only [Covers, joinBlocks, List.forall₂_cons, ← or_and_right]
      refine and_congr_left fun _ => ?_
      rcases useEnd
      · simp only [Bool.false_eq_true, if_false, beq_iff_eq] at htouch ⊢
        omega
      · simp only [if_true, beq_iff_eq] at htouch ⊢
        have hp := hp rfl
        have hq := hq rfl
        omega
  -- A dimension before it: the two ranges are the same.
  | succ d ih =>
    obtain ⟨p, a, rfl⟩ := List.exists_cons_of_length_pos (Nat.zero_lt_of_lt hd)
    obtain ⟨q, b, rfl⟩ := List.exists_cons_of_length_pos (Nat.zero_lt_of_lt (hlen ▸ hd))
    rw [adjoins, Bool.and_eq_true, beq_iff_eq] at hadj
    obtain ⟨rfl, hadj⟩ := hadj
    rcases x with _ | ⟨c, x⟩
    · simp [Covers, joinBlocks]
    · have hrest := ih (x := x) (Nat.lt_of_succ_lt_succ hd) (Nat.succ.inj hlen) hadj (ordered_cons.mp ha).2
        (ordered_cons.mp hb).2
      simp only [Covers, joinBlocks, List.forall₂_cons, ← and_or_left] at hrest ⊢
      exact and_congr_right fun _ => hrest

theorem ordered_join {a b : List (ℕ × ℕ)} (hadj : adjoins useEnd d a b = true) (ha : Ordered useEnd a)
    (hb : Ordered useEnd b) : Ordered useEnd (joinBlocks useEnd d a b) := by
  induction d generalizing a b with
  | zero =>
    rcases a with _ | ⟨p, a⟩
    · exact ha
    rcases b with _ | ⟨q, b⟩
    · exact ha
    obtain ⟨hp, ha⟩ := ordered_cons.mp ha
    have hq := (ordered_cons.mp hb).1
    refine ordered_cons.mpr ⟨fun hend => ?_, ha⟩
    subst hend
    have htouch := (Bool.and_eq_true_iff.mp hadj).1
    simp only [if_true, beq_iff_eq] at htouch ⊢
    have hp := hp rfl
    have hq := hq rfl
    omega
  | succ d ih =>
    rcases a with _ | ⟨p, a⟩
    · exact ha
    rcases b with _ | ⟨q, b⟩
    · exact ha
    obtain ⟨hp, ha⟩ := ordered_cons.mp ha
    exact ordered_cons.mpr ⟨hp, ih (Bool.and_eq_true_iff.mp hadj).2 ha (ordered_cons.mp hb).2⟩

/-- No element is in two of the blocks. -/
def NoneShared (useEnd : Bool) (bs : List (List (ℕ × ℕ))) : Prop :=
  bs.Pairwise fun a b => ∀ x, ¬ (Covers useEnd a x ∧ Covers useEnd b x)

/-- What merging keeps: the rank, the order of start and end, the elements, and that no two blocks share one. -/
structure ElemsKept (useEnd : Bool) (ndim : ℕ) (elems : List ℕ → Prop) (bs : List (List (ℕ × ℕ))) : Prop where
  rank : ∀ b ∈ bs, b.length = ndim
  ordered : ∀ b ∈ bs, Ordered useEnd b
  covered : ∀ x, (∃ b ∈ bs, Covers useEnd b x) ↔ elems x
  disjoint : NoneShared useEnd bs

/-- **What joining two neighbours keeps.** -/
theorem ElemsKept.join {elems : List ℕ → Prop} {pre bs : List (List (ℕ × ℕ))} {a b : List (ℕ × ℕ)} (hd : d < ndim)
    (hadj : adjoins useEnd d a b = true) (h : ElemsKept useEnd ndim elems (pre ++ a :: b :: bs)) :
    ElemsKept useEnd ndim elems (pre ++ joinBlocks useEnd d a b :: bs) := by
  have ha := h.rank a (by simp)
  have hb := h.rank b (by simp)
  have hcovers : ∀ x, Covers useEnd (joinBlocks useEnd d a b) x ↔ Covers useEnd a x ∨ Covers useEnd b x :=
    fun x => covers_join (ha ▸ hd) (ha.trans hb.symm) hadj (h.ordered a (by simp)) (h.ordered b (by simp))
  refine ⟨fun c hc => ?_, fun c hc => ?_, fun x => ?_, ?_⟩
  · simp only [List.mem_append, List.mem_cons] at hc
    rcases hc with hc | rfl | hc
    · exact h.rank c (by simp [hc])
    · rw [joinBlocks_length, ha]
    · exact h.rank c (by simp [hc])
  · simp only [List.mem_append, List.mem_cons] at hc
    rcases hc with hc | rfl | hc
    · exact h.ordered c (by simp [hc])
    · exact ordered_join hadj (h.ordered a (by simp)) (h.ordered b (by simp))
    · exact h.ordered c (by simp [hc])
  · rw [← h.covered x]
    simp only [List.mem_append, List.mem_cons, or_and_right, exists_or, exists_eq_left, hcovers, or_assoc]
  · have hpairs := h.disjoint
    simp only [NoneShared, List.pairwise_append, List.pairwise_cons, List.forall_mem_cons] at hpairs ⊢
    obtain ⟨hpre, ⟨⟨hab, habs⟩, hbbs, hbs⟩, hacross⟩ := hpairs
    -- An element of the joined block and of another would be one of its two parts.
    refine ⟨hpre, ⟨fun c hc x hx => ?_, hbs⟩, fun c hc => ⟨fun x hx => ?_, (hacross c hc).2.2⟩⟩
    · rcases (hcovers x).mp hx.1 with hax | hbx
      · exact habs c hc x ⟨hax, hx.2⟩
      · exact hbbs c hc x ⟨hbx, hx.2⟩
    · rcases (hcovers x).mp hx.2 with hax | hbx
      · exact (hacross c hc).1 x ⟨hx.1, hax⟩
      · exact (hacross c hc).2.1 x ⟨hx.1, hbx⟩

theorem mergeBlocks_elems {elems : List ℕ → Prop} {bs : List (List (ℕ × ℕ))}
    (h : ElemsKept useEnd ndim elems bs) : ElemsKept useEnd ndim elems (mergeBlocks useEnd ndim bs) :=
  @mergeBlocks_inv useEnd ndim (fun _ => ElemsKept useEnd ndim elems)
    (fun _ hd _ _ _ _ hadj hkept => hkept.join hd hadj) (fun _ _ hkept => hkept) ndim le_rfl bs h

end BlockArrays

open BlockArrays

/-- The blocks in the first `len` slots, in order of their starts, with the pointers of each kept together. -/
structure BlocksSorted (ndim len : ℕ) (s t : BlockArrays) : Prop where
  rows : t.mem = s.mem
  slots : ((List.range len).map t.slot).Perm ((List.range len).map s.slot)
  sorted : ((List.range len).map (t.start ndim)).Pairwise (· ≤ ·)
  outside : ∀ i, len ≤ i → t.slot i = s.slot i

/-- The blocks in the first `len` slots, merged into those of the first `len'`. -/
structure BlocksMerged (useEnd : Bool) (ndim : ℕ) (s : BlockArrays) (len : ℕ) (t : BlockArrays) (len' : ℕ) :
    Prop where
  pos : 0 < len'
  fewer : len' ≤ len
  covered : ∀ x, (∃ i < len', Covers useEnd (t.block ndim i) x) ↔ ∃ i < len, Covers useEnd (s.block ndim i) x
  disjoint : NoneShared useEnd ((List.range len').map (t.block ndim))

theorem BlockArrays.eq_of_slots {t u : BlockArrays} (hmem : t.mem = u.mem) (h : ∀ i, t.slot i = u.slot i) : t = u := by
  have hstarts : t.starts = u.starts := funext fun i => congrArg Prod.fst (h i)
  have hcounts : t.counts = u.counts := funext fun i => congrArg Prod.snd (h i)
  cases t
  cases u
  simp_all

/-- `std::sort` has an order to find. -/
theorem sortBy_indexSorted (ndim len : ℕ) (s : BlockArrays) :
    s.IndexSorted ndim len (sortBy (s.start ndim) (List.range len)) := by
  have hlen : ∀ i ∈ List.range len, (s.start ndim i).length = ndim := by simp [BlockArrays.start]
  refine ⟨sortBy_perm _ _, (sortBy_pairwise hlen).imp ?_⟩
  intro l r hle
  rw [← Bool.not_eq_true, lessthan_iff (by simp [BlockArrays.start])]
  exact not_lt.mpr hle

/-- **`sortblocks` sorts**, whatever `std::sort` makes of equal starts. -/
theorem sortblocks_sorts {ndim len : ℕ} {s : BlockArrays} {idx : List ℕ} (h : s.IndexSorted ndim len idx) :
    ∃ t, (∀ fuel ≥ len, sortblocks fuel len idx s = some t) ∧ BlocksSorted ndim len s t := by
  obtain ⟨t, -, hmem, hslots, houtside⟩ := sortblocks_gathers (s := s) h.perm (le_refl len)
  refine ⟨t, fun fuel hfuel => ?_, hmem, ?_, ?_, houtside⟩
  · obtain ⟨u, hrun, humem, huslots, huoutside⟩ := sortblocks_gathers (s := s) h.perm hfuel
    rw [hrun, eq_of_slots (t := u) (u := t) (humem.trans hmem.symm)]
    intro i
    by_cases hi : i < len
    · exact List.map_inj_left.mp (huslots.trans hslots.symm) i (List.mem_range.mpr hi)
    · rw [huoutside i (Nat.le_of_not_lt hi), houtside i (Nat.le_of_not_lt hi)]
  · rw [hslots]
    exact h.perm.map s.slot
  · -- a start is read through the first pointer of its slot
    have hread : ∀ i, t.start ndim i = (List.range ndim).map fun k => (s.mem (t.slot i).1 k).toNat := by
      intro i
      rw [← hmem]
      rfl
    have hstarts : (List.range len).map (t.start ndim) = idx.map (s.start ndim) := by
      have hmap := congrArg (List.map fun p : ℕ × ℕ => (List.range ndim).map fun k => (s.mem p.1 k).toNat) hslots
      rw [List.map_map, List.map_map] at hmap
      rw [List.map_congr_left fun i _ => hread i]
      exact hmap
    rw [hstarts, List.pairwise_map]
    refine h.sorted.imp ?_
    intro l r hless
    rw [← Bool.not_eq_true, lessthan_iff (by simp [BlockArrays.start])] at hless
    exact not_lt.mp hless

/-- **`merge_blocks` keeps the elements** of blocks that share none, as long as no end is past the last word. -/
theorem mergeSlots_merged {useEnd : Bool} {ndim len : ℕ} {s : BlockArrays} (hlen : 0 < len)
    (h : s.MergeReady useEnd ndim (· < len)) (hordered : ∀ i < len, Ordered useEnd (s.block ndim i))
    (hdisjoint : NoneShared useEnd ((List.range len).map (s.block ndim))) :
    BlocksMerged useEnd ndim s len (mergeSlots useEnd ndim s len).1 (mergeSlots useEnd ndim s len).2 := by
  rcases hr : mergeSlots useEnd ndim s len with ⟨t, len'⟩
  obtain ⟨hlist, hpos⟩ := mergePasses_list le_rfl hlen h hr
  have hbefore : ElemsKept useEnd ndim (fun x => ∃ i < len, Covers useEnd (s.block ndim i) x)
      ((List.range len).map (s.block ndim)) := by
    refine ⟨fun b hb => ?_, fun b hb => ?_, fun x => by simp, hdisjoint⟩
    · obtain ⟨i, -, rfl⟩ := List.mem_map.mp hb
      simp [block]
    · obtain ⟨i, hi, rfl⟩ := List.mem_map.mp hb
      exact hordered i (List.mem_range.mp hi)
  have hafter := mergeBlocks_elems hbefore
  have hfewer := mergeBlocks_length_le useEnd ndim ((List.range len).map (s.block ndim))
  rw [← hlist] at hafter hfewer
  refine ⟨hpos, by simpa using hfewer, fun x => ?_, hafter.disjoint⟩
  rw [← hafter.covered x]
  simp

/-- **Sorting and merging in place.** -/
theorem blocks_sorted_merged (ndim len : ℕ) (s : BlockArrays) (hlen : 0 < len) :
    (∀ idx, s.IndexSorted ndim len idx →
      ∃ t, (∀ fuel ≥ len, sortblocks fuel len idx s = some t) ∧ BlocksSorted ndim len s t) ∧
    ∀ useEnd, s.MergeReady useEnd ndim (· < len) → (∀ i < len, Ordered useEnd (s.block ndim i)) →
      NoneShared useEnd ((List.range len).map (s.block ndim)) →
        BlocksMerged useEnd ndim s len (mergeSlots useEnd ndim s len).1 (mergeSlots useEnd ndim s len).2 :=
  ⟨fun _ h => sortblocks_sorts h, fun _ => mergeSlots_merged hlen⟩

/-! ## §6 — two blocks at the end of the words. -/

/-- Two intervals given by their ends: from five to the last word, and from zero to three. -/
def edgeArrays : BlockArrays where
  starts i := 2 * i
  counts i := 2 * i + 1
  mem row _ := if row = 0 then 5 else if row = 1 then BitVec.allOnes 64 else if row = 2 then 0 else 3

theorem edge_blocks : (List.range 2).map (edgeArrays.block 1) = [[(5, 2 ^ 64 - 1)], [(0, 3)]] := by
  simp [List.range_succ, block, startAt, countAt, edgeArrays]

/-- The place behind the last word is zero, where the other block begins. -/
theorem edge_mergeable : mergeable true 1 0 edgeArrays 0 1 = true := by decide

theorem edge_merged : mergeSlots true 1 edgeArrays 2 = (edgeArrays.setCount 0 0 3, 1) := by
  have hpass : (List.range' 1 (2 - 1)).foldl (mergeStep true 1 0) (edgeArrays, 0) = (edgeArrays.setCount 0 0 3, 0) := by
    show mergeStep true 1 0 (edgeArrays, 0) 1 = _
    rw [mergeStep, if_pos edge_mergeable]
    rfl
  rw [mergeSlots, mergePasses, mergeSlotsPass, hpass]
  rfl

/-- **Merged into nothing**: the two are blocks that share no element, and the one that is left has none. -/
theorem edge_not_merged :
    (edgeArrays.RowsApart (· < 2) ∧ (∀ i < 2, Ordered true (edgeArrays.block 1 i)) ∧
      NoneShared true ((List.range 2).map (edgeArrays.block 1))) ∧
    ¬ BlocksMerged true 1 edgeArrays 2 (mergeSlots true 1 edgeArrays 2).1 (mergeSlots true 1 edgeArrays 2).2 := by
  have hfirst : edgeArrays.block 1 0 = [(5, 2 ^ 64 - 1)] := by
    simp [List.range_succ, block, startAt, countAt, edgeArrays]
  have hsecond : edgeArrays.block 1 1 = [(0, 3)] := by
    simp [List.range_succ, block, startAt, countAt, edgeArrays]
  refine ⟨⟨fun i k _ _ => ?_, fun i hi => ?_, ?_⟩, fun h => ?_⟩
  · simp only [edgeArrays]
    omega
  · obtain rfl | rfl : i = 0 ∨ i = 1 := by omega
    · rw [hfirst]
      simp [Ordered]
    · rw [hsecond]
      simp [Ordered]
  · rw [edge_blocks]
    simp only [NoneShared, List.pairwise_cons, List.mem_singleton, forall_eq]
    refine ⟨fun x hx => ?_, by simp⟩
    rcases x with _ | ⟨c, x⟩
    · simp [Covers] at hx
    · simp only [Covers, List.forall₂_cons, if_true] at hx
      omega
  · -- Element 0 was in the second block; what is left starts at 5 and ends at 3.
    rw [edge_merged] at h
    have hin : ∃ i < 2, Covers true (edgeArrays.block 1 i) [0] := ⟨1, one_lt_two, by rw [hsecond]; simp [Covers]⟩
    obtain ⟨i, hi, hcovers⟩ := (h.covered [0]).mpr hin
    obtain rfl : i = 0 := Nat.lt_one_iff.mp hi
    have hleft : (edgeArrays.setCount 0 0 3).block 1 0 = [(5, 3)] := by
      simp [List.range_succ, block, startAt, countAt, edgeArrays, setCount]
    rw [hleft] at hcovers
    simp [Covers] at hcovers

/-- Two intervals of two elements each, from these elements on. -/
def intervals (first second : HSize) : BlockArrays where
  starts i := 2 * i
  counts i := 2 * i + 1
  mem row _ := if row = 0 then first else if row = 2 then second else 2

/-- Out of order they are sorted, and in order they make one block of four elements. -/
theorem blocks_sorted_merged_intervals :
    (∃ t, (∀ fuel ≥ 2, sortblocks fuel 2 [1, 0] (intervals 2 0) = some t) ∧ BlocksSorted 1 2 (intervals 2 0) t) ∧
      (mergeSlots false 1 (intervals 0 2) 2).2 = 1 ∧
      BlocksMerged false 1 (intervals 0 2) 2 (mergeSlots false 1 (intervals 0 2) 2).1
        (mergeSlots false 1 (intervals 0 2) 2).2 := by
  have hfirst : (intervals 0 2).block 1 0 = [(0, 2)] := by simp [block, startAt, countAt, intervals, List.range_succ]
  have hsecond : (intervals 0 2).block 1 1 = [(2, 2)] := by simp [block, startAt, countAt, intervals, List.range_succ]
  have hmerged : (mergeSlots false 1 (intervals 0 2) 2).2 = 1 := by
    have hneighbours : mergeable false 1 0 (intervals 0 2) 0 1 = true := by decide
    have hpass : (List.range' 1 (2 - 1)).foldl (mergeStep false 1 0) (intervals 0 2, 0) =
        (mergeStep false 1 0 (intervals 0 2, 0) 1) := rfl
    rw [mergeStep, if_pos hneighbours] at hpass
    rw [mergeSlots, mergePasses, mergeSlotsPass, hpass]
    rfl
  have hsort := (blocks_sorted_merged 1 2 (intervals 2 0) two_pos).1 [1, 0] ⟨by decide, by decide⟩
  refine ⟨hsort, hmerged, (blocks_sorted_merged 1 2 (intervals 0 2) two_pos).2 false
    ⟨fun i k _ _ => ?_, fun i _ k _ => ?_⟩ ?_ ?_⟩
  · simp only [intervals]
    omega
  · have hword : ∀ row k, ((intervals 0 2).mem row k).toNat ≤ 2 := by
      intro row k
      simp only [intervals]
      split_ifs <;> decide
    have hstart := hword ((intervals 0 2).starts i) k
    have hcount := hword ((intervals 0 2).counts i) k
    show ((intervals 0 2).mem _ k).toNat + ((intervals 0 2).mem _ k).toNat < 2 ^ 64
    omega
  · exact fun i _ p _ hend => absurd hend Bool.false_ne_true
  · show NoneShared false [(intervals 0 2).block 1 0, (intervals 0 2).block 1 1]
    rw [hfirst, hsecond]
    simp only [NoneShared, List.pairwise_cons, List.mem_singleton, forall_eq]
    refine ⟨fun x hx => ?_, by simp⟩
    rcases x with _ | ⟨c, x⟩
    · simp [Covers] at hx
    · simp [Covers] at hx
      omega

end LogVol
