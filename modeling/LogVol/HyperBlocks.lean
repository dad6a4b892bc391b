/-
# LogVol.HyperBlocks — hyperslab selections of two or more blocks.

HDF5 lists the blocks in the order of their first elements, but pairs the elements with memory in
row-major order of the dataspace, so blocks that interleave have to be cut into rows. The connector merges
neighbours, sorts, finds out which neighbours interleave by comparing the last element of the one with the
first of the next, and cuts the blocks of each group of more than one. Here are the code, which fills the
slots of the selection group by group, and what its merging of HDF5's blocks keeps (`mergeBlocks_spansKept`).
-/
import LogVol.PointSelect
import LogVol.SelectSlots
import Mathlib.Data.List.Triplewise

namespace LogVol

open Lib (Box)

/-! ## §1 — from blocks with ends to blocks with counts. -/

/-- A block as HDF5 returns it: `hstarts` and `hends`, the first and the last index in each dimension. -/
abbrev Span := List (ℕ × ℕ)

/-- `hstarts[i]`. -/
def Span.first (s : Span) : List ℕ := s.map Prod.fst

/-- `hends[i]`. -/
def Span.last (s : Span) : List ℕ := s.map Prod.snd

/-- `counts[i][k] = hends[i][k] - hstarts[i][k] + 1`. -/
def Span.box (s : Span) : Box := s.map fun p => (p.1, p.2 - p.1 + 1)

/-- Blocks with the same group number: each interleaves with the one before it, in that its first element
does not lie behind that one's last. -/
def blockGroups (bs : List Span) : List (List Span) :=
  bs.splitBy fun a b => !lessthan (Span.last a) (Span.first b)

/-! ## §2 — counting the blocks to allocate. -/

/-- `nreq += m`: on overflow of the `int` nothing is known of the allocation. -/
def addReqs (nreq m : Int) : Except Fault Int :=
  if -(2 ^ 31) ≤ nreq + m ∧ nreq + m < 2 ^ 31 then .ok (nreq + m) else .error .outside

/-- `nbreq`: the product of the counts of all dimensions but the last, kept in an `int`. -/
def countRows (s : Span) : Int :=
  s.dropLast.foldl (fun n p => cInt (n * ((p.2 - p.1 + 1 : ℕ) : Int))) 1

/-- Count number of requests: one for a block that is alone in its group, one for every row of the
others. -/
def countReqs : List (List Span) → Int → Except Fault Int
  | [], nreq => .ok nreq
  | [_] :: gs, nreq => addReqs nreq 1 >>= countReqs gs
  | g :: gs, nreq => g.foldlM (fun n s => addReqs n (countRows s)) nreq >>= countReqs gs

/-! ## §3 — cutting blocks into rows. -/

/-- Increase the start to the next location, carry to the lower dimension if overflow. The flag tells
whether the first of the given dimensions overflowed. -/
def carryRow : Span → List ℕ → Bool × List ℕ
  | p :: s, c :: cs =>
      let (carry, cs) := carryRow s cs
      if carry then if p.2 < c + 1 then (true, p.1 :: cs) else (false, (c + 1) :: cs)
      else (false, c :: cs)
  | _, _ => (true, [])

/-- The next row of a block, given by its indices in all dimensions but the last: the first dimension is
not checked for overflow. -/
def nextRow : Span → List ℕ → List ℕ
  | _ :: s, c :: cs =>
      let (carry, cs) := carryRow s cs
      (if carry then c + 1 else c) :: cs
  | _, _ => []

/-- There is a dimension before the last that has not reached its end. -/
def moreRows (lead : Span) (cur : List ℕ) : Bool := (cur.zip lead).any fun c => c.1 < c.2.2

/-- A row: one index in all dimensions but the last. -/
def rowBox (tail : ℕ × ℕ) (cur : List ℕ) : Box := pointBox cur ++ [(tail.1, tail.2 - tail.1 + 1)]

/-- The rows of a block from `cur` on, into `cap` allocated places. -/
def rowsFrom (lead : Span) (tail : ℕ × ℕ) : ℕ → List ℕ → Except Fault (List Box)
  | 0, _ => .error .outside
  | cap + 1, cur =>
      if moreRows lead cur then (rowsFrom lead tail cap (nextRow lead cur)).map (rowBox tail cur :: ·)
      else .ok [rowBox tail cur]

/-- Break down each block of a group. -/
def breakBlocks : ℕ → List Span → Except Fault (List Box)
  | _, [] => .ok []
  | cap, s :: ss => do
      let rows ← rowsFrom s.dropLast (s.getLastD (0, 0)) cap (Span.first s.dropLast)
      let rest ← breakBlocks (cap - rows.length) ss
      pure (rows ++ rest)

/-- Fill up selections: the first `nreq` slots are in use. The rows of a group are sorted and merged before the
next group is filled in behind them, through the pointers that are there. -/
def fillGroups (ndim : ℕ) : List (List Span) → Slots → ℕ → Except Fault (Slots × ℕ)
  | [], s, nreq => .ok (s, nreq)
  | [b] :: gs, s, nreq =>
      if nreq < s.vecs.length then fillGroups ndim gs (s.put nreq [Span.box b]) (nreq + 1) else .error .outside
  | g :: gs, s, nreq => do
      let rows ← breakBlocks (s.vecs.length - nreq) g
      let r := s.fill ndim nreq rows
      fillGroups ndim gs r.1 r.2

/-- **`H5VL_log_selections (dsid)`** of a hyperslab selection with the blocks `blocks`, two or more of them: the
slots, and `nsel`. The merging loops count blocks in an `int`. The pointers to HDF5's blocks are moved about as
well, but nothing is written through those behind the ones that stay. -/
def hyperSlots (ndim : ℕ) (blocks : List Span) : Except Fault (Slots × ℕ) :=
  if 2 ^ 31 ≤ blocks.length then .error .outside
  else do
    let blocks := mergeBlocks true ndim blocks
    let blocks := sortBy Span.first blocks
    let blocks := mergeBlocks true ndim blocks
    let groups := blockGroups blocks
    let nreq ← countReqs groups 0
    if nreq < 0 then .error (.raised "#A initialization fail")
    else do
      allocBlocks ndim nreq.toNat
      fillGroups ndim groups (Slots.alloc nreq.toNat) 0

/-- The blocks of a hyperslab selection. -/
def hyperSelections (ndim : ℕ) (blocks : List Span) : Except Fault (List Box) :=
  (hyperSlots ndim blocks).map fun r => r.1.blocks r.2

/-! ## §4 — joining spans. -/

/-- No block is empty. -/
def Span.Ordered (s : Span) : Prop := ∀ p ∈ s, p.1 ≤ p.2

@[simp] theorem Span.box_length (s : Span) : s.box.length = s.length := List.length_map _

theorem Span.start_box (s : Span) : s.box.start = s.first := by
  rw [Box.start, Span.box, List.map_map]
  rfl

theorem Span.box_nonempty (s : Span) : s.box.Nonempty := by
  intro p hp
  obtain ⟨q, -, rfl⟩ := List.mem_map.mp hp
  exact Nat.le_add_left 1 _

/-- No element of a block comes behind its last. -/
theorem Span.le_last {s : Span} (h : s.Ordered) {x : List ℕ} (hx : x ∈ s.box.cells) : x ≤ s.last := by
  induction s generalizing x with
  | nil =>
      obtain rfl := List.mem_singleton.mp hx
      exact le_rfl
  | cons p s ih =>
      obtain ⟨i, y, rfl⟩ := List.exists_cons_of_length_eq_add_one (Box.length_of_mem hx)
      obtain ⟨hlo, hy⟩ := Box.mem_cells_cons.mp hx
      change p.1 ≤ i ∧ i < p.1 + (p.2 - p.1 + 1) at hlo
      have hp := h p (List.mem_cons_self ..)
      rw [Span.last, List.map_cons, Lib.cons_le_cons_iff_lex]
      rcases Nat.lt_or_ge i p.2 with hlt | hge
      · exact Or.inl hlt
      · exact Or.inr ⟨by omega, ih (fun q hq => h q (List.mem_cons_of_mem p hq)) hy⟩

/-- What joining two neighbours gives. -/
structure Span.Joins (d : ℕ) (a b c : Span) : Prop where
  follows : Box.Follows d a.box b.box
  box : c.box = Box.grow d (b.box.extent d) a.box
  first : c.first = a.first
  last : c.last = b.last
  ordered : c.Ordered

theorem joinBlocks_joins {d : ℕ} {a b : Span} (hd : d < a.length) (hlen : a.length = b.length)
    (ha : a.Ordered) (hb : b.Ordered) (h : adjoins true d a b = true) :
    Span.Joins d a b (joinBlocks true d a b) := by
  induction d generalizing a b with
  | zero =>
      obtain ⟨p, a, rfl⟩ := List.exists_cons_of_length_pos hd
      obtain ⟨q, b, rfl⟩ := List.exists_cons_of_length_pos (hlen ▸ hd)
      -- The dimension that is joined: the second range begins right behind the first.
      obtain ⟨hpq, rfl⟩ : p.2 + 1 = q.1 ∧ a = b := by simpa [adjoins] using h
      have hp := ha p (List.mem_cons_self ..)
      have hq := hb q (List.mem_cons_self ..)
      refine ⟨⟨?_, rfl⟩, ?_, rfl, rfl, ?_⟩
      · show p.1 + (p.2 - p.1 + 1) = q.1
        omega
      · show (p.1, q.2 - p.1 + 1) :: Span.box a = (p.1, p.2 - p.1 + 1 + (q.2 - q.1 + 1)) :: Span.box a
        congr 2
        omega
      · intro r hr
        rcases List.mem_cons.mp hr with rfl | hr
        · show p.1 ≤ q.2
          omega
        · exact ha r (List.mem_cons_of_mem p hr)
  | succ d ih =>
      obtain ⟨p, a, rfl⟩ := List.exists_cons_of_length_pos (Nat.zero_lt_of_lt hd)
      obtain ⟨q, b, rfl⟩ := List.exists_cons_of_length_pos (Nat.zero_lt_of_lt (hlen ▸ hd))
      rw [adjoins, Bool.and_eq_true, beq_iff_eq] at h
      obtain ⟨rfl, h⟩ := h
      have hjoins := ih (Nat.lt_of_succ_lt_succ hd) (Nat.succ.inj hlen)
        (fun r hr => ha r (List.mem_cons_of_mem p hr)) (fun r hr => hb r (List.mem_cons_of_mem p hr)) h
      refine ⟨⟨rfl, hjoins.follows⟩, ?_, ?_, ?_, ?_⟩
      · exact congrArg _ hjoins.box
      · exact congrArg (p.1 :: ·) hjoins.first
      · exact congrArg (p.2 :: ·) hjoins.last
      · intro r hr
        rcases List.mem_cons.mp hr with rfl | hr
        · exact ha r (List.mem_cons_self ..)
        · exact hjoins.ordered r hr

/-! ## §5 — what the merging of spans keeps. -/

/-- **`SpansKept`** — the blocks begin in lexicographic order and cover the elements `cells`; and where the
last element of one comes before the first of a later one, so do the last elements of all before it. -/
structure SpansKept (n : ℕ) (cells : List (List ℕ)) (bs : List Span) : Prop where
  rank : ∀ b ∈ bs, b.length = n
  ordered : ∀ b ∈ bs, b.Ordered
  sorted : bs.Pairwise fun a b => a.first < b.first
  reach : bs.Triplewise fun a b c => b.last < c.first → a.last < c.first
  kept : (bs.flatMap fun b => b.box.cells).Perm cells

/-- Two neighbours replaced by a block that begins with the one and ends with the other. -/
theorem SpansKept.join {n d : ℕ} (hd : d < n) {cells : List (List ℕ)} {pre bs : List Span} {a b : Span}
    (hadj : adjoins true d a b = true) (h : SpansKept n cells (pre ++ a :: b :: bs)) :
    SpansKept n cells (pre ++ joinBlocks true d a b :: bs) := by
  have ha := h.rank a (by simp)
  have hb := h.rank b (by simp)
  have hjoins := joinBlocks_joins (by rw [ha]; exact hd) (ha.trans hb.symm) (h.ordered a (by simp))
    (h.ordered b (by simp)) hadj
  -- What holds of every block holds of the others, and only the joined one has to be looked at.
  have hothers {P : Span → Prop} (hP : ∀ c ∈ pre ++ a :: b :: bs, P c) (hc : P (joinBlocks true d a b)) :
      ∀ c ∈ pre ++ joinBlocks true d a b :: bs, P c := by
    intro c hmem
    rcases List.mem_append.mp hmem with hmem | hmem
    · exact hP c (by simp [hmem])
    · rcases List.mem_cons.mp hmem with rfl | hmem
      · exact hc
      · exact hP c (by simp [hmem])
  refine ⟨hothers h.rank (by rw [joinBlocks_length, ha]), hothers h.ordered hjoins.ordered, ?_, ?_, ?_⟩
  · have hsorted := h.sorted
    simp only [List.pairwise_append, List.pairwise_cons, List.mem_cons, hjoins.first] at hsorted ⊢
    obtain ⟨hpre, ⟨hafter, -, hbs⟩, hacross⟩ := hsorted
    refine ⟨hpre, ⟨fun c hc => hafter c (Or.inr hc), hbs⟩, fun c hc e he => ?_⟩
    rcases he with rfl | he
    · rw [hjoins.first]
      exact hacross c hc a (Or.inl rfl)
    · exact hacross c hc e (Or.inr (Or.inr he))
  · have hreach := h.reach
    simp only [List.triplewise_append, List.triplewise_cons, List.pairwise_cons, List.mem_cons,
      forall_eq_or_imp, hjoins.first, hjoins.last] at hreach ⊢
    obtain ⟨hpre, ⟨⟨-, -⟩, hb₃, hbs⟩, hfrom, hto⟩ := hreach
    refine ⟨hpre, ⟨hb₃, hbs⟩, fun c hc => ⟨(hfrom c hc).2.1, (hfrom c hc).2.2⟩, hto.1, hto.2.2⟩
  · refine List.Perm.trans ?_ h.kept
    simp only [List.flatMap_append, List.flatMap_cons]
    apply List.Perm.append_left
    rw [← List.append_assoc]
    apply List.Perm.append_right
    rw [hjoins.box]
    exact Box.cells_grow_perm hjoins.follows

/-- **Merging keeps it.** -/
theorem mergeBlocks_spansKept {n : ℕ} {cells : List (List ℕ)} {bs : List Span} (h : SpansKept n cells bs) :
    SpansKept n cells (mergeBlocks true n bs) :=
  @mergeBlocks_inv true n (fun _ => SpansKept n cells) (fun _ hd _ _ _ _ hadj h => h.join hd hadj)
    (fun _ _ h => h) n le_rfl bs h

/-- Blocks that begin in order are in the order the sorting gives. -/
theorem SpansKept.sortBy_eq {n : ℕ} {cells : List (List ℕ)} {bs : List Span} (h : SpansKept n cells bs) :
    sortBy Span.first bs = bs := by
  refine (sortBy_eq_self_iff (n := n) fun b hb => ?_).mpr (h.sorted.imp fun hlt => le_of_lt hlt)
  rw [Span.first, List.length_map, h.rank b hb]

end LogVol
