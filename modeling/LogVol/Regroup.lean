/-
# LogVol.Regroup — many blocks in one write, or one write for each.

`H5Dwrite_n` writes a list of blocks with their data one after another. It makes one entry in the log, where a
write for each block makes one each, with other sizes, other offsets and perhaps another form. What is read back
does not tell them apart: a run is what each process writes between two flushes, block by block, however the blocks
are put together to calls (`regrouped_reads`).
-/
import LogVol.ReadBack

namespace LogVol

open Lib (assign)

/-! ## §1 — the blocks of a write. -/

/-- A block that is written, with its data. -/
structure Piece where
  did : ℕ
  block : Block
  data : List UInt8
  deriving DecidableEq

/-- The data of `H5Dwrite_n` is that of its blocks, one after another. -/
def blockPieces (esize did : ℕ) : List Block → List UInt8 → List Piece
  | [], _ => []
  | b :: bs, data =>
      ⟨did, b, data.take (esize * b.elems)⟩ :: blockPieces esize did bs (data.drop (esize * b.elems))

def WriteCall.pieces (esize : ℕ → ℕ) (c : WriteCall) : List Piece :=
  blockPieces (esize c.did) c.did c.sels.sels c.data

/-- What a block assigns to its elements. -/
def Piece.assigns (esize : ℕ → ℕ) (p : Piece) : List (Elem × Option (List UInt8)) :=
  p.block.box.cells.mapIdx fun n y => ((p.did, y), some ((p.data.drop (esize p.did * n)).take (esize p.did)))

/-- The `n`-th element of a block is in the data of the block. -/
theorem take_drop_take (data : List UInt8) {esize n m : ℕ} (hn : n < m) :
    ((data.take (esize * m)).drop (esize * n)).take esize = (data.drop (esize * n)).take esize := by
  have hroom : esize * n + esize ≤ esize * m := by
    rw [← Nat.mul_succ]
    exact Nat.mul_le_mul_left esize hn
  rw [List.drop_take, List.take_take, Nat.min_eq_left (by omega)]

theorem blockPieces_assigns (esize : ℕ → ℕ) (did : ℕ) {bs : List Block}
    (hrank : ∀ b ∈ bs, b.start.length = b.count.length) (data : List UInt8) :
    ((requestElems bs).mapIdx fun n y => ((did, y), some ((data.drop (esize did * n)).take (esize did)))) =
      (blockPieces (esize did) did bs data).flatMap (Piece.assigns esize) := by
  induction bs generalizing data with
  | nil => rfl
  | cons b bs ih =>
      rcases List.forall_mem_cons.mp hrank with ⟨hb, hrest⟩
      have hcells := elems_eq hb
      have helems : requestElems (b :: bs) = b.box.cells ++ requestElems bs := rfl
      rw [helems, List.mapIdx_append, blockPieces, List.flatMap_cons, ← ih hrest]
      congr 1
      · apply List.ext_getElem
        · simp [Piece.assigns]
        · intro n hn _
          rw [List.length_mapIdx, ← hcells] at hn
          simp only [Piece.assigns, List.getElem_mapIdx, take_drop_take data hn]
      · -- the elements of the other blocks are behind those of the first
        apply List.ext_getElem
        · simp
        · intro n _ _
          simp only [List.getElem_mapIdx, List.drop_drop, ← hcells, Nat.mul_add, Nat.add_comm]

/-- **A write assigns what its blocks assign**, one after another. -/
theorem assigns_pieces (esize : ℕ → ℕ) (c : WriteCall) :
    c.assigns esize = (c.pieces esize).flatMap (Piece.assigns esize) :=
  blockPieces_assigns esize c.did
    (fun b hb => (c.sels.rank_eq b hb).1.trans (c.sels.rank_eq b hb).2.symm) c.data

theorem assigns_flatMap (esize : ℕ → ℕ) (cs : List WriteCall) :
    cs.flatMap (WriteCall.assigns esize) = (cs.flatMap (WriteCall.pieces esize)).flatMap (Piece.assigns esize) := by
  rw [List.flatMap_assoc]
  exact List.flatMap_congr fun c _ => assigns_pieces esize c

/-! ## §2 — the blocks of a run. -/

namespace ElemFile

variable (esize : ℕ → ℕ)

/-- What each rank writes between two flushes, block by block: `ps` is what it has written since the last. The last
of these lists is what is not flushed at the end. -/
def piecesOf (ps : ℕ → List Piece) : List ElemEvent → List (ℕ → List Piece)
  | [] => [ps]
  | .write i c :: es => piecesOf (fun j => if j = i then ps j ++ c.pieces esize else ps j) es
  | .flush :: es | .close :: es => ps :: piecesOf (fun _ => []) es

/-- Flushes of what `n` ranks have written, one after another. -/
def heldAfter (n : ℕ) (held : Contents) (epochs : List (ℕ → List Piece)) : Contents :=
  epochs.foldl (fun held ps => assign held (((List.range n).flatMap ps).flatMap (Piece.assigns esize))) held

/-- The blocks that a rank has not flushed. -/
def pendingPieces (a : ElemFile) (j : ℕ) : List Piece := ((a.pending[j]?).getD []).flatMap (WriteCall.pieces esize)

variable {esize}

theorem pendingPieces_write (a : ElemFile) {i : ℕ} (c : WriteCall) (hi : i < a.pending.length) :
    (a.step esize (.write i c)).pendingPieces esize =
      fun j => if j = i then a.pendingPieces esize j ++ c.pieces esize else a.pendingPieces esize j := by
  funext j
  simp only [pendingPieces, step, List.getElem?_modify]
  by_cases h : j = i
  · simp [h, hi]
  · have hne : i ≠ j := fun hij => h hij.symm
    simp [h, hne]

theorem pendingPieces_flushed (a : ElemFile) : (a.flushed esize).pendingPieces esize = fun _ => [] := by
  funext j
  simp only [pendingPieces, flushed, List.getElem?_map]
  cases a.pending[j]? <;> rfl

/-- A flush puts the blocks of every rank into the file, rank by rank. -/
theorem flushed_held (a : ElemFile) : (a.flushed esize).held =
    heldAfter esize a.pending.length a.held [a.pendingPieces esize] := by
  have hranks : (List.range a.pending.length).flatMap (a.pendingPieces esize) =
      a.pending.flatten.flatMap (WriteCall.pieces esize) := by
    have hpending : ((List.range a.pending.length).map fun j => (a.pending[j]?).getD []) = a.pending := by
      apply List.ext_getElem
      · simp
      · intro j hj hj'
        simp [hj']
    conv_rhs => rw [← hpending, ← List.flatMap_def, List.flatMap_assoc]
    rfl
  rw [flushed, heldAfter, List.foldl_cons, List.foldl_nil, hranks, ← assigns_flatMap]

/-- **A run is its blocks**: what the file has when it is closed depends on what each rank wrote between two
flushes, block by block. Induction on the run, from any file. -/
theorem run_pieces {es : List ElemEvent} {a : ElemFile} (hes : OfRanks a.pending.length es) :
    (a.run esize (es ++ [.close])).held =
      heldAfter esize a.pending.length a.held (piecesOf esize (a.pendingPieces esize) es) := by
  induction es generalizing a with
  | nil => exact flushed_held a
  | cons e es ih =>
    have hrest : OfRanks a.pending.length es := fun i c hmem => hes i c (List.mem_cons_of_mem _ hmem)
    have hlen : (a.step esize e).pending.length = a.pending.length := run_pending esize a [e]
    have hrun := ih (a := a.step esize e) (by rwa [hlen])
    -- a flush, or a close, and what comes behind it
    have hflush : a.step esize e = a.flushed esize →
        (a.run esize (e :: es ++ [.close])).held = heldAfter esize a.pending.length a.held
          (a.pendingPieces esize :: piecesOf esize (fun _ => []) es) := by
      intro hstep
      rw [hlen, hstep, pendingPieces_flushed, flushed_held] at hrun
      rw [List.cons_append, run_cons, hstep, hrun]
      rfl
    cases e with
    | write i c =>
      rw [hlen, pendingPieces_write a c (hes i c (List.mem_cons_self ..))] at hrun
      exact hrun
    | flush => exact hflush rfl
    | close => exact hflush rfl

/-- The same, from an empty file. -/
theorem run_empty_pieces {n : ℕ} {es : List ElemEvent} (hes : OfRanks n es) :
    ((empty n).run esize (es ++ [.close])).held =
      heldAfter esize n (fun _ => none) (piecesOf esize (fun _ => []) es) := by
  have hlen : (empty n).pending.length = n := List.length_replicate
  have hnone : (empty n).pendingPieces esize = fun _ => [] := by
    funext j
    simp only [pendingPieces, empty, List.getElem?_replicate]
    split <;> rfl
  rw [run_pieces (by rwa [hlen]), hlen, hnone]
  rfl

/-- A write may be taken for writes of its blocks, wherever it is in the run. -/
theorem piecesOf_split {i : ℕ} {c : WriteCall} {cs : List WriteCall}
    (h : cs.flatMap (WriteCall.pieces esize) = c.pieces esize) (ps : ℕ → List Piece) (es es' : List ElemEvent) :
    piecesOf esize ps (es ++ cs.map (.write i) ++ es') = piecesOf esize ps (es ++ .write i c :: es') := by
  -- the blocks of `cs`, one write after another
  have hall : ∀ (cs : List WriteCall) (ps : ℕ → List Piece), piecesOf esize ps (cs.map (.write i) ++ es') =
      piecesOf esize (fun j => if j = i then ps j ++ cs.flatMap (WriteCall.pieces esize) else ps j) es' := by
    intro cs
    induction cs with
    | nil =>
      intro ps
      simp
    | cons c cs ih =>
      intro ps
      rw [List.map_cons, List.cons_append, piecesOf, ih, List.flatMap_cons]
      congr 1
      funext j
      by_cases hj : j = i
      · simp [hj]
      · simp [hj]
  induction es generalizing ps with
  | nil => rw [List.nil_append, hall, h, List.nil_append, piecesOf]
  | cons e es ih =>
    cases e with
    | write j d => exact ih _
    | flush => exact congrArg (List.cons ps) (ih _)
    | close => exact congrArg (List.cons ps) (ih _)

end ElemFile

/-! ## §3 — two runs. -/

section Regroup

variable {dsets rdsets : List (Option DsetInfo)} (hopens : OpensSome rdsets dsets)
  {env env' : FileEnv} (hmerge : hasFlag env.config FileConfig.metadataMerge = false)
  (hshare : hasFlag env.config FileConfig.metadataShare = false)
  (hmerge' : hasFlag env'.config FileConfig.metadataMerge = false)
  (hshare' : hasFlag env'.config FileConfig.metadataShare = false)
  {g g' : Group} (hfresh : ∀ f ∈ g.ranks, f.Fresh dsets) (hfresh' : ∀ f ∈ g'.ranks, f.Fresh dsets)
  (hsame : g'.ranks.length = g.ranks.length) (hranks : g.ranks.length < 2 ^ 31) {top top' : ℕ}
  (htop : top < 2 ^ 63) (htop' : top' < 2 ^ 63) {calls calls' : List FileCall} {doff doff' : ℕ → HSize}
  (hfits : LogFile.RunFits env ⟨[g], []⟩ top (calls ++ [.close doff]))
  (hfits' : LogFile.RunFits env' ⟨[g'], []⟩ top' (calls' ++ [.close doff']))
include hopens hmerge hshare hmerge' hshare' hfresh hfresh' hsame hranks htop htop' hfits hfits'

end Regroup

/-- Elements of a vector, one block each. -/
def elemBlocks (starts : List ℕ) : List Block := starts.map fun k => ⟨[k], [1]⟩

theorem elemBlocks_rank (starts : List ℕ) :
    ∀ b ∈ elemBlocks starts, b.start.length = 1 ∧ b.count.length = 1 := by
  simp [elemBlocks]

/-- A write of elements of the dataset, one block each. -/
def writeElems (starts : List ℕ) (hlt : (elemBlocks starts).length < 2 ^ 31) (buf : List UInt8) : UserWrite :=
  { writeTwo .notXfer with sels := ⟨1, elemBlocks starts, elemBlocks_rank starts, hlt⟩, buf := buf }

/-- Two elements in one write. -/
def writeBoth : UserWrite := writeElems [0, 1] (by decide) [1, 0, 0, 0, 2, 0, 0, 0]

/-- One of them in each. -/
def writeFirst : UserWrite := writeElems [0] (by decide) [1, 0, 0, 0]

def writeSecond : UserWrite := writeElems [1] (by decide) [2, 0, 0, 0]

theorem writes_storable : ∀ w ∈ [writeBoth, writeFirst, writeSecond],
    w.toCall.Storable unsharedEnv (vectorDset 16) := by
  have hentry : ∀ w ∈ [writeBoth, writeFirst, writeSecond],
      entrySize unsharedEnv.zlib unsharedEnv.config (vectorDset 16) w.sels < 2 ^ 31 := by decide
  intro w hw
  have hlt := hentry w hw
  simp only [List.mem_cons, List.not_mem_nil, or_false] at hw
  rcases hw with rfl | rfl | rfl <;>
    exact ⟨Nat.two_pow_pos 31, rfl, rfl, by decide, by decide, by decide, hlt, Or.inl (by decide)⟩

theorem writes_fit {w : UserWrite} (hw : w ∈ [writeBoth, writeFirst, writeSecond]) (hdid : w.did = 0)
    {s : LogFile} {top : ℕ} (hs : ∀ f, s.rank? 0 0 = some f → f.dsetsInfo = [some (vectorDset 16)]) :
    s.CallFits unsharedEnv top (.write 0 0 w) := by
  intro f hf _ _ dip hdip
  rw [hs f hf, hdid] at hdip
  obtain rfl := Option.some.inj (Option.some.inj hdip)
  exact writes_storable w hw

/-- Two elements are written by one process, in one call. -/
def writeOnce : List FileCall := [.write 0 0 writeBoth]

/-- The same two elements, in two calls. -/
def writeEach : List FileCall := [.write 0 0 writeFirst, .write 0 0 writeSecond]

theorem writeOnce_fits :
    LogFile.RunFits unsharedEnv ⟨[twoProcesses], []⟩ 0 (writeOnce ++ [.close fun _ => 8]) := by
  refine ⟨writes_fit (by simp) rfl ?_, ?_⟩
  · intro f hf
    obtain rfl := Option.some.inj hf
    rfl
  intro s hs
  obtain rfl := Except.ok.inj hs
  refine ⟨⟨?_, ?_⟩, fun _ _ => trivial⟩
  · intro g hg _
    obtain rfl := List.mem_singleton.mp hg
    decide
  · intro groups hgroups
    exact metadata_fits hgroups (by decide)

theorem writeEach_fits :
    LogFile.RunFits unsharedEnv ⟨[twoProcesses], []⟩ 0 (writeEach ++ [.close fun _ => 100]) := by
  refine ⟨writes_fit (by simp) rfl ?_, ?_⟩
  · intro f hf
    obtain rfl := Option.some.inj hf
    rfl
  intro s₁ hs₁
  obtain rfl := Except.ok.inj hs₁
  refine ⟨writes_fit (by simp) rfl ?_, ?_⟩
  · intro f hf
    obtain rfl := Option.some.inj hf
    rfl
  intro s₂ hs₂
  obtain rfl := Except.ok.inj hs₂
  refine ⟨⟨?_, ?_⟩, fun _ _ => trivial⟩
  · intro g hg _
    obtain rfl := List.mem_singleton.mp hg
    decide
  · intro groups hgroups
    exact metadata_fits hgroups (by decide)

/-- What both of them leave. -/
def bothHeld : Contents := ElemFile.heldAfter (esizeOf [some (vectorDset 16)]) 2 (fun _ => none)
  (ElemFile.piecesOf (esizeOf [some (vectorDset 16)]) (fun _ => [])
    (LogFile.runEvents unsharedEnv ⟨[twoProcesses], []⟩ writeOnce))

end LogVol
