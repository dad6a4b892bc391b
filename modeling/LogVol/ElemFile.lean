/-
# LogVol.ElemFile — what a file is for: the elements that were written.

Without the log a file is a map from the elements of its datasets to their bytes. A write assigns to the elements
of its selection, and is not in the file before the next flush; a flush puts the writes of every rank there, rank
by rank. `ElemFile` is that machine. In which order the ranks made their calls between two flushes does not show
unless a rank overwrites what a higher one wrote before (`run_inCallOrder`). Nor does it show where the ranks
flushed before the file was closed, unless a rank overwrites what a higher one had flushed (`run_unflushed`).
-/
import LogVol.SearchExact
import LogVol.DatasetWrite
import LogVol.Lib.Assign

namespace LogVol

open Lib (assign)

/-! ## §1 — elements. -/

/-- An element of a dataset, by the number of the dataset. -/
abbrev Elem := ℕ × List ℕ

/-- What was written to the elements. -/
abbrev Contents := Elem → Option (List UInt8)

/-- The elements of a write, one block after another. -/
def WriteCall.elems (c : WriteCall) : List (List ℕ) := requestElems c.sels.sels

/-- What a write assigns: to its `n`-th element the `n`-th part of its data. -/
def WriteCall.assigns (esize : ℕ → ℕ) (c : WriteCall) : List (Elem × Option (List UInt8)) :=
  c.elems.mapIdx fun n y => ((c.did, y), some ((c.data.drop (esize c.did * n)).take (esize c.did)))

/-- Two writes have an element in common. -/
def WriteCall.Meets (c d : WriteCall) : Prop := c.did = d.did ∧ ∃ y ∈ c.elems, y ∈ d.elems

theorem assigns_fst (esize : ℕ → ℕ) (c : WriteCall) :
    (c.assigns esize).map Prod.fst = c.elems.map fun y => (c.did, y) := by
  apply List.ext_getElem
  · simp [WriteCall.assigns]
  · intro n hn hn'
    simp [WriteCall.assigns]

theorem mem_assigns_fst {esize : ℕ → ℕ} {c : WriteCall} {x : Elem} :
    x ∈ (c.assigns esize).map Prod.fst ↔ x.1 = c.did ∧ x.2 ∈ c.elems := by
  rw [assigns_fst, List.mem_map]
  constructor
  · rintro ⟨y, hy, rfl⟩
    exact ⟨rfl, hy⟩
  · rintro ⟨hdid, hx⟩
    exact ⟨x.2, hx, by rw [← hdid]⟩

/-- Writes that assign to one element meet. -/
theorem meets_of_assigns {esize : ℕ → ℕ} {c d : WriteCall}
    (h : ∃ x, x ∈ (c.assigns esize).map Prod.fst ∧ x ∈ (d.assigns esize).map Prod.fst) : c.Meets d := by
  rcases h with ⟨x, hc, hd⟩
  rw [mem_assigns_fst] at hc hd
  exact ⟨hc.1.symm.trans hd.1, x.2, hc.2, hd.2⟩

/-! ## §2 — the machine. -/

/-- What is in the file, and what each rank has not flushed. -/
structure ElemFile where
  held : Contents
  pending : List (List WriteCall)

/-- What happens to it: a rank has written, all ranks have flushed, or all ranks have closed the file, which flushes
it too. -/
inductive ElemEvent
  | write (rank : ℕ) (c : WriteCall)
  | flush
  | close

namespace ElemFile

/-- A file of `n` ranks without elements. -/
def empty (n : ℕ) : ElemFile := ⟨fun _ => none, List.replicate n []⟩

variable (esize : ℕ → ℕ)

/-- The writes of every rank are put into the file. -/
def flushed (a : ElemFile) : ElemFile :=
  ⟨assign a.held (a.pending.flatten.flatMap (WriteCall.assigns esize)), a.pending.map fun _ => []⟩

def step (a : ElemFile) : ElemEvent → ElemFile
  | .write i c => { a with pending := a.pending.modify i (· ++ [c]) }
  | .flush | .close => a.flushed esize

def run (a : ElemFile) (es : List ElemEvent) : ElemFile := es.foldl (step esize) a

@[simp] theorem run_nil (a : ElemFile) : a.run esize [] = a := rfl

@[simp] theorem run_cons (a : ElemFile) (e : ElemEvent) (es : List ElemEvent) :
    a.run esize (e :: es) = (a.step esize e).run esize es := rfl

theorem run_append (a : ElemFile) (es es' : List ElemEvent) :
    a.run esize (es ++ es') = (a.run esize es).run esize es' := List.foldl_append

/-- There are as many ranks after a run. -/
theorem run_pending (a : ElemFile) (es : List ElemEvent) : (a.run esize es).pending.length = a.pending.length := by
  induction es generalizing a with
  | nil => rfl
  | cons e es ih =>
    rw [run_cons, ih]
    cases e <;> simp [step, flushed]

/-! ## §3 — in the order of the calls. -/

/-- The writes of a run, in the order of the calls. -/
def writesOf : List ElemEvent → List WriteCall
  | [] => []
  | .write _ c :: es => c :: writesOf es
  | .flush :: es | .close :: es => writesOf es

/-- No rank overwrites, before the next flush, what a higher one has written: `ws` are the writes since the last
flush. -/
def InCallOrder : List (ℕ × WriteCall) → List ElemEvent → Prop
  | _, [] => True
  | ws, .write i c :: es => (∀ w ∈ ws, w.2.Meets c → w.1 ≤ i) ∧ InCallOrder (ws ++ [(i, c)]) es
  | _, .flush :: es | _, .close :: es => InCallOrder [] es

/-- The writes of a run are made by `n` ranks. -/
def OfRanks (n : ℕ) (es : List ElemEvent) : Prop := ∀ i c, .write i c ∈ es → i < n

/-- Writes by rank. -/
def byRank (n : ℕ) (ws : List (ℕ × WriteCall)) : List (List WriteCall) :=
  (List.range n).map fun i => (ws.filter fun w => w.1 = i).map Prod.snd

theorem byRank_nil (n : ℕ) : byRank n [] = List.replicate n [] := by
  simp [byRank]

theorem byRank_concat (n : ℕ) (ws : List (ℕ × WriteCall)) (i : ℕ) (c : WriteCall) :
    (byRank n ws).modify i (· ++ [c]) = byRank n (ws ++ [(i, c)]) := by
  apply List.ext_getElem
  · simp [byRank]
  · intro k hk hk'
    rw [List.getElem_modify]
    by_cases h : i = k
    · simp [byRank, h]
    · simp [byRank, h]

/-- A flush of writes that are in order rank by rank. -/
theorem assign_byRank (held : Contents) {n : ℕ} {ws : List (ℕ × WriteCall)} (hlt : ∀ w ∈ ws, w.1 < n)
    (h : ws.Pairwise fun v w => v.2.Meets w.2 → v.1 ≤ w.1) :
    assign held ((byRank n ws).flatten.flatMap (WriteCall.assigns esize)) =
      assign held ((ws.map Prod.snd).flatMap (WriteCall.assigns esize)) := by
  have hsorted : ws.Pairwise fun v w =>
      (∃ x, x ∈ (v.2.assigns esize).map Prod.fst ∧ x ∈ (w.2.assigns esize).map Prod.fst) → v.1 ≤ w.1 := by
    refine h.imp ?_
    intro v w hvw hx
    exact hvw (meets_of_assigns hx)
  have hkeys := Lib.assign_flatMap_byKey (WriteCall.assigns esize) held hsorted hlt
  rw [List.flatMap_map, ← hkeys]
  congr 1
  simp only [byRank, ← List.flatMap_def, List.flatMap_assoc, List.flatMap_map]

variable {esize}

theorem byRank_none (n : ℕ) (ws : List (ℕ × WriteCall)) :
    (byRank n ws).map (fun _ => ([] : List WriteCall)) = byRank n [] := by
  rw [byRank_nil, List.map_const', byRank, List.length_map, List.length_range]

/-- Induction on the run, from any file whose ranks have `ws` not flushed. -/
theorem run_ordered {n : ℕ} {ws : List (ℕ × WriteCall)} {es : List ElemEvent} (hws : ∀ w ∈ ws, w.1 < n)
    (hpair : ws.Pairwise fun v w => v.2.Meets w.2 → v.1 ≤ w.1) (hes : OfRanks n es) (h : InCallOrder ws es)
    (held : Contents) : ((⟨held, byRank n ws⟩ : ElemFile).run esize (es ++ [.close])).held =
      assign held ((ws.map Prod.snd ++ writesOf es).flatMap (WriteCall.assigns esize)) := by
  induction es generalizing ws held with
  | nil =>
    rw [writesOf, List.append_nil]
    exact assign_byRank esize held hws hpair
  | cons e es ih =>
    have hrest : OfRanks n es := fun i c hmem => hes i c (List.mem_cons_of_mem _ hmem)
    -- a flush, or a close, with what comes behind it
    have hflush : InCallOrder [] es →
        (((⟨held, byRank n ws⟩ : ElemFile).flushed esize).run esize (es ++ [.close])).held =
          assign held ((ws.map Prod.snd ++ writesOf es).flatMap (WriteCall.assigns esize)) := by
      intro horder
      rw [flushed, assign_byRank esize held hws hpair, byRank_none, ih (by simp) List.Pairwise.nil hrest horder,
        List.map_nil, List.nil_append, List.flatMap_append, Lib.assign_append]
    rw [List.cons_append, run_cons]
    cases e with
    | write i c =>
      have hi : i < n := hes i c (List.mem_cons_self ..)
      have hnext : ∀ w ∈ ws ++ [(i, c)], w.1 < n := by
        rw [List.forall_mem_append]
        exact ⟨hws, by simpa using hi⟩
      have hpair' : (ws ++ [(i, c)]).Pairwise fun v w => v.2.Meets w.2 → v.1 ≤ w.1 := by
        rw [List.pairwise_append]
        refine ⟨hpair, List.pairwise_singleton .., ?_⟩
        intro v hv w hw
        rw [List.mem_singleton.mp hw]
        exact h.1 v hv
      rw [step, byRank_concat, ih hnext hpair' hrest h.2, writesOf, List.map_append, List.append_assoc]
      rfl
    | flush => exact hflush h
    | close => exact hflush h

/-- **In a run that keeps the order of the calls** the file ends up with what was written last, whichever rank wrote
it and wherever the ranks flushed. -/
theorem run_inCallOrder {n : ℕ} {es : List ElemEvent} (hes : OfRanks n es) (h : InCallOrder [] es) :
    ((empty n).run esize (es ++ [.close])).held =
      assign (fun _ => none) ((writesOf es).flatMap (WriteCall.assigns esize)) := by
  have hrun := @run_ordered esize n [] es (by simp) List.Pairwise.nil hes h fun _ => none
  rw [byRank_nil] at hrun
  exact hrun

/-! ## §4 — flushes before the file is closed. -/

/-- A run without its flushes: the ranks keep what they write until the file is closed. -/
def unflushed : List ElemEvent → List ElemEvent
  | [] => []
  | .flush :: es => unflushed es
  | e :: es => e :: unflushed es

theorem unflushed_append (es es' : List ElemEvent) : unflushed (es ++ es') = unflushed es ++ unflushed es' := by
  induction es with
  | nil => rfl
  | cons e es ih => cases e <;> simp [unflushed, ih]

/-- No rank overwrites, before the file is closed, what a higher one has flushed: `ls` are the writes that were
flushed since the file was closed last, `ws` those since the last flush. -/
def InRankOrder : List (ℕ × WriteCall) → List (ℕ × WriteCall) → List ElemEvent → Prop
  | _, _, [] => True
  | ls, ws, .write i c :: es => (∀ l ∈ ls, l.2.Meets c → l.1 ≤ i) ∧ InRankOrder ls (ws ++ [(i, c)]) es
  | ls, ws, .flush :: es => InRankOrder (ls ++ ws) [] es
  | _, _, .close :: es => InRankOrder [] [] es

/-- Writes, rank by rank. -/
def rankSorted (n : ℕ) (ws : List (ℕ × WriteCall)) : List (ℕ × WriteCall) :=
  (List.range n).flatMap fun i => ws.filter fun w => w.1 = i

theorem mem_rankSorted {n : ℕ} {ws : List (ℕ × WriteCall)} (hlt : ∀ w ∈ ws, w.1 < n) {w : ℕ × WriteCall} :
    w ∈ rankSorted n ws ↔ w ∈ ws := by
  simp only [rankSorted, List.mem_flatMap, List.mem_range, List.mem_filter, decide_eq_true_eq]
  constructor
  · rintro ⟨i, -, hw, -⟩
    exact hw
  · intro hw
    exact ⟨w.1, hlt w hw, hw, rfl⟩

theorem rankSorted_pairwise (n : ℕ) (ws : List (ℕ × WriteCall)) :
    (rankSorted n ws).Pairwise fun v w => v.1 ≤ w.1 := by
  rw [rankSorted, List.pairwise_flatMap]
  constructor
  · intro i _
    apply List.pairwise_of_forall_mem_list
    intro v hv w hw
    simp only [List.mem_filter, decide_eq_true_eq] at hv hw
    omega
  · refine List.pairwise_lt_range.imp ?_
    intro i j hij v hv w hw
    simp only [List.mem_filter, decide_eq_true_eq] at hv hw
    omega

theorem rankSorted_snd (n : ℕ) (ws : List (ℕ × WriteCall)) :
    (rankSorted n ws).map Prod.snd = (byRank n ws).flatten := by
  rw [rankSorted, List.map_flatMap, List.flatMap_def, byRank]

/-- What is sorted by rank is the same, rank by rank. -/
theorem byRank_rankSorted (n : ℕ) (ls ws : List (ℕ × WriteCall)) :
    byRank n (ls ++ rankSorted n ws) = byRank n (ls ++ ws) := by
  apply List.map_congr_left
  intro i hi
  have hone : ∀ m, (((List.range m).flatMap fun k => ws.filter fun w => w.1 = k).filter fun w => w.1 = i) =
      if i < m then ws.filter fun w => w.1 = i else [] := by
    intro m
    induction m with
    | zero => rfl
    | succ m ih =>
      rw [List.range_succ, List.flatMap_append, List.filter_append, ih, List.flatMap_singleton, List.filter_filter]
      by_cases him : i = m
      · simp [him]
      · have hnone : (ws.filter fun w => decide (w.1 = i) && decide (w.1 = m)) = [] := by
          rw [List.filter_eq_nil_iff]
          intro w _ hw
          simp only [Bool.and_eq_true, decide_eq_true_eq] at hw
          omega
        rw [hnone, List.append_nil]
        apply if_congr _ rfl rfl
        omega
  rw [List.filter_append, List.filter_append, rankSorted, hone, if_pos (List.mem_range.mp hi)]

section Unflushed

variable {n : ℕ} {ls L ws : List (ℕ × WriteCall)} (hlt : ∀ w ∈ ws, w.1 < n) (hL : ∀ l ∈ L, l.1 < n)
  (hpair : L.Pairwise fun v w => v.2.Meets w.2 → v.1 ≤ w.1)
  (hcross : ∀ l ∈ L, ∀ w ∈ ws, l.2.Meets w.2 → l.1 ≤ w.1)
include hlt hL hpair hcross

omit hL in
theorem append_rankSorted : (L ++ rankSorted n ws).Pairwise fun v w => v.2.Meets w.2 → v.1 ≤ w.1 := by
  refine List.pairwise_append.mpr ⟨hpair, ?_, ?_⟩
  · refine (rankSorted_pairwise n ws).imp ?_
    intro v w hle _
    exact hle
  · intro l hl w hw
    exact hcross l hl w ((mem_rankSorted hlt).mp hw)

/-- What was flushed and then what was not, or all of it at once, rank by rank. -/
theorem assign_unflushed (held : Contents) :
    assign (assign held ((L.map Prod.snd).flatMap (WriteCall.assigns esize)))
        ((byRank n ws).flatten.flatMap (WriteCall.assigns esize)) =
      assign held ((byRank n (L ++ ws)).flatten.flatMap (WriteCall.assigns esize)) := by
  have hall : ∀ w ∈ L ++ rankSorted n ws, w.1 < n := by
    rw [List.forall_mem_append]
    exact ⟨hL, fun w hw => hlt w ((mem_rankSorted hlt).mp hw)⟩
  have hranks := assign_byRank esize held hall (append_rankSorted hlt hpair hcross)
  rw [byRank_rankSorted] at hranks
  rw [hranks, ← Lib.assign_append, List.map_append, rankSorted_snd, List.flatMap_append]

end Unflushed

/-- Induction on the run: `L` are the writes that were flushed, in the order of the flushes and rank by rank. -/
theorem run_unflushed_from {n : ℕ} {ls L ws : List (ℕ × WriteCall)} {es : List ElemEvent}
    (hmem : ∀ l ∈ L, l ∈ ls) (hlt : ∀ w ∈ ws, w.1 < n) (hL : ∀ l ∈ L, l.1 < n)
    (hpair : L.Pairwise fun v w => v.2.Meets w.2 → v.1 ≤ w.1)
    (hcross : ∀ l ∈ L, ∀ w ∈ ws, l.2.Meets w.2 → l.1 ≤ w.1) (hes : OfRanks n es) (h : InRankOrder ls ws es)
    (held : Contents) :
    ((⟨assign held ((L.map Prod.snd).flatMap (WriteCall.assigns esize)), byRank n ws⟩ : ElemFile).run esize
        (es ++ [.close])).held =
      ((⟨held, byRank n (L ++ ws)⟩ : ElemFile).run esize (unflushed es ++ [.close])).held := by
  induction es generalizing ls L ws held with
  | nil => exact assign_unflushed hlt hL hpair hcross held
  | cons e es ih =>
    have hrest : OfRanks n es := fun i c hmem => hes i c (List.mem_cons_of_mem _ hmem)
    cases e with
    | write i c =>
      have hi : i < n := hes i c (List.mem_cons_self ..)
      have hnext : ∀ w ∈ ws ++ [(i, c)], w.1 < n := by
        rw [List.forall_mem_append]
        exact ⟨hlt, by simpa using hi⟩
      have hcross' : ∀ l ∈ L, ∀ w ∈ ws ++ [(i, c)], l.2.Meets w.2 → l.1 ≤ w.1 := by
        intro l hl
        rw [List.forall_mem_append]
        exact ⟨hcross l hl, by simpa using h.1 l (hmem l hl)⟩
      have hstep := ih hmem hnext hL hpair hcross' hrest h.2 held
      rw [← byRank_concat, ← List.append_assoc, ← byRank_concat] at hstep
      exact hstep
    -- The writes of this flush join L, sorted by rank, and none of them meets one of a higher rank before it.
    | flush =>
      have hmem' : ∀ l ∈ L ++ rankSorted n ws, l ∈ ls ++ ws := by
        rw [List.forall_mem_append]
        constructor
        · exact fun l hl => List.mem_append_left _ (hmem l hl)
        · exact fun l hl => List.mem_append_right _ ((mem_rankSorted hlt).mp hl)
      have hL' : ∀ l ∈ L ++ rankSorted n ws, l.1 < n := by
        rw [List.forall_mem_append]
        exact ⟨hL, fun l hl => hlt l ((mem_rankSorted hlt).mp hl)⟩
      have hstep := ih hmem' (by simp) hL' (append_rankSorted hlt hpair hcross) (by simp) hrest h held
      rw [List.append_nil, byRank_rankSorted, List.map_append, List.flatMap_append, Lib.assign_append,
        rankSorted_snd] at hstep
      rw [List.cons_append, run_cons, step, flushed, byRank_none]
      exact hstep
    | close =>
      have hstep := @ih [] [] [] (by simp) (by simp) (by simp) List.Pairwise.nil (by simp) hrest h
        (assign held ((byRank n (L ++ ws)).flatten.flatMap (WriteCall.assigns esize)))
      simp only [List.map_nil, List.flatMap_nil, Lib.assign_nil, List.append_nil] at hstep
      rw [List.cons_append, run_cons, step, flushed, byRank_none, assign_unflushed hlt hL hpair hcross, hstep]
      show _ = ((⟨held, byRank n (L ++ ws)⟩ : ElemFile).run esize (.close :: (unflushed es ++ [.close]))).held
      rw [run_cons, step, flushed, byRank_none]

/-- **Where the ranks have flushed** does not matter to a file that is closed in the end, in a run in which no rank
overwrites what a higher one has flushed since it was closed last. -/
theorem run_unflushed {n : ℕ} {es : List ElemEvent} (hes : OfRanks n es) (h : InRankOrder [] [] es) :
    ((empty n).run esize (es ++ [.close])).held = ((empty n).run esize (unflushed (es ++ [.close]))).held := by
  have hrun := @run_unflushed_from esize n [] [] [] es (by simp) (by simp) (by simp) List.Pairwise.nil (by simp) hes
    h fun _ => none
  rw [List.append_nil, byRank_nil] at hrun
  rw [unflushed_append]
  exact hrun

end ElemFile

end LogVol
