/-
# LogVol.BufferAccount — the account of buffer space on one process.

`bused` should be what the buffers of the queued requests were allocated with, of writes, merged writes and
reads. A write adds what its block holds, a flush of writes takes off what it releases and leaves the rest
queued, a read adds its buffer. Flushing reads goes wrong in two ways: with subfiles it deletes the requests
and releases nothing, and where it flushes the metadata first it deletes writes that are still queued
(`flushReads_balanced`).
-/
import LogVol.Buffered
import LogVol.DeliverRead
import LogVol.ZipWrite

namespace LogVol

/-! ## §1 — what is live. -/

/-- What the blocks that are not the user's were allocated with. -/
def heldSizes (ds : List DataBlock) : List HSize := ds.filterMap DataBlock.pooled

/-- The buffers of the requests whose data is not in the file yet. -/
def RankFile.queuedSizes (f : RankFile) : List HSize := heldSizes (f.queued.flatMap WReq.dbufs)

/-- The blocks of a slot for a merged request. -/
def slotBlocks (m : Option MergedWReq) : List DataBlock := m.elim [] MergedWReq.dbufs

/-- The buffers of the merged requests. -/
def RankFile.mergedSizes (f : RankFile) : List HSize := heldSizes (f.mreqs.flatMap slotBlocks)

/-- The buffer of a read, unless it is the user's. -/
def Rreq.held (r : Rreq) : Option HSize := r.xbuf.map (BitVec.ofNat 64)

/-- The buffers of reads. -/
def readSizes (rs : List Rreq) : List HSize := rs.filterMap Rreq.held

/-- The sizes of all live buffers. -/
def RankFile.liveSizes (f : RankFile) (rs : List Rreq) : List HSize :=
  f.queuedSizes ++ f.mergedSizes ++ readSizes rs

/-- **`Balanced`** — the account is the sum of the live buffers, those of the reads `rs` among them. -/
structure RankFile.Balanced (f : RankFile) (rs : List Rreq) : Prop where
  account : f.bused = (f.liveSizes rs).sum
  nflushed_le : f.nflushed ≤ f.wreqs.length

@[simp] theorem heldSizes_append (ds es : List DataBlock) : heldSizes (ds ++ es) = heldSizes ds ++ heldSizes es :=
  List.filterMap_append

@[simp] theorem readSizes_append (rs ss : List Rreq) : readSizes (rs ++ ss) = readSizes rs ++ readSizes ss :=
  List.filterMap_append

theorem RankFile.liveSizes_sum (f : RankFile) (rs : List Rreq) :
    (f.liveSizes rs).sum = f.queuedSizes.sum + f.mergedSizes.sum + (readSizes rs).sum := by
  rw [RankFile.liveSizes, List.sum_append, List.sum_append]

/-- Releasing blocks takes off what they hold. -/
theorem foldl_releaseBlock (ds : List DataBlock) (bused : HSize) :
    ds.foldl releaseBlock bused = bused - (heldSizes ds).sum := by
  induction ds generalizing bused with
  | nil => simp [heldSizes]
  | cons d ds ih =>
      rw [List.foldl_cons, ih]
      cases hd : d.pooled with
      | none => simp [releaseBlock, heldSizes, hd]
      | some n =>
          simp only [releaseBlock, heldSizes, hd, Option.elim_some, bfree, List.filterMap_cons, List.sum_cons]
          ring

/-- The sum over slots when one of them changes. -/
theorem sum_set {α : Type} (φ : α → HSize) {l : List α} {k : ℕ} {a : α} (h : l[k]? = some a) (b : α) :
    ((l.set k b).map φ).sum = (l.map φ).sum - φ a + φ b := by
  induction l generalizing k with
  | nil => cases h
  | cons c l ih =>
      cases k with
      | zero =>
          obtain rfl : c = a := by simpa using h
          simp only [List.set_cons_zero, List.map_cons, List.sum_cons]
          ring
      | succ k =>
          simp only [List.set_cons_succ, List.map_cons, List.sum_cons, ih (by simpa using h)]
          ring

theorem RankFile.mergedSizes_sum (f : RankFile) :
    f.mergedSizes.sum = (f.mreqs.map fun m => (heldSizes (slotBlocks m)).sum).sum := by
  rw [RankFile.mergedSizes, heldSizes, List.filterMap_flatMap, List.flatMap_def, List.sum_flatten, List.map_map]
  rfl

/-! ## §2 — a write. -/

theorem takeData_held {env : FileEnv} {c : WriteCall} {dip : DsetInfo} {f f' : RankFile} {db : DataBlock}
    (h : takeData env c dip f = (f', .ok db)) : f' = { f with bused := f.bused + (heldSizes [db]).sum } := by
  unfold takeData at h
  dsimp only at h
  split at h
  · obtain ⟨rfl, hdb⟩ := Prod.mk.inj h
    obtain rfl := Except.ok.inj hdb
    simp [heldSizes]
  · rcases balloc_cases env f.bused (c.blockSize dip) c.grants.data with ⟨e, heq⟩ | heq
    · rw [heq] at h
      cases h
    · rw [heq] at h
      obtain ⟨rfl, hdb⟩ := Prod.mk.inj h
      obtain rfl := Except.ok.inj hdb
      simp [heldSizes]

theorem filterData_held {env : FileEnv} {c : WriteCall} {dip : DsetInfo} {f f' : RankFile} {db db' : DataBlock}
    (h : filterData env c dip f db = (f', .ok db')) :
    f' = { f with bused := f.bused - (heldSizes [db]).sum + (heldSizes [db']).sum } := by
  unfold filterData at h
  split at h
  · obtain ⟨rfl, hdb⟩ := Prod.mk.inj h
    obtain rfl := Except.ok.inj hdb
    simp
  · split at h
    · cases h
    · rename_i buf _
      have hrelease : releaseBlock f.bused db = f.bused - (heldSizes [db]).sum := foldl_releaseBlock [db] f.bused
      dsimp only at h
      rcases balloc_cases env (releaseBlock f.bused db) (BitVec.ofInt 64 (cInt buf.length)) c.grants.filtered with
        ⟨e, heq⟩ | heq
      · rw [heq] at h
        cases h
      · rw [heq, hrelease] at h
        obtain ⟨rfl, hdb⟩ := Prod.mk.inj h
        obtain rfl := Except.ok.inj hdb
        simp [heldSizes]

/-- **The data of a write**: the account grows by what its block holds. -/
theorem data_held {env : FileEnv} {c : WriteCall} {dip : DsetInfo} {f f' : RankFile} {db : DataBlock}
    (h : (takeData env c dip f).andThen (filterData env c dip) = (f', .ok db)) :
    f' = { f with bused := f.bused + (heldSizes [db]).sum } := by
  obtain ⟨f₁, db₁, htake, hfilter⟩ := andThen_eq_ok h
  obtain rfl := takeData_held htake
  obtain rfl := filterData_held hfilter
  simp

/-- What queueing a block does to a file: the account stays, and the block is live. -/
structure QueuesBlock (db : DataBlock) (f f' : RankFile) : Prop where
  bused : f'.bused = f.bused
  nflushed : f'.nflushed = f.nflushed
  length_le : f.wreqs.length ≤ f'.wreqs.length
  live : f.nflushed ≤ f.wreqs.length →
    f'.queuedSizes.sum + f'.mergedSizes.sum = f.queuedSizes.sum + f.mergedSizes.sum + (heldSizes [db]).sum

theorem queueReq_queues {c : WriteCall} {f f' : RankFile} {r : WReq} {db : DataBlock}
    (h : queueReq c f r db = (f', .ok ())) : QueuesBlock db f f' := by
  unfold queueReq at h
  split at h
  · obtain ⟨rfl, -⟩ := Prod.mk.inj h
    refine ⟨rfl, rfl, by simp, fun hle => ?_⟩
    simp only [RankFile.queuedSizes, RankFile.queued, RankFile.mergedSizes]
    rw [List.drop_append_of_le_length hle, List.flatMap_append, heldSizes_append, List.sum_append,
      List.flatMap_singleton]
    ring
  · cases h

theorem setMerged_queues {f : RankFile} {did : ℕ} {old : Option MergedWReq} {m : MergedWReq} {db : DataBlock}
    (hslot : f.mreqs[did]? = some old) (hm : m.dbufs = slotBlocks old ++ [db]) :
    QueuesBlock db f (f.setMerged did m) := by
  refine ⟨rfl, rfl, le_rfl, fun _ => ?_⟩
  have hset := sum_set (fun m => (heldSizes (slotBlocks m)).sum) hslot (some m)
  have hnew : (heldSizes (slotBlocks (some m))).sum = (heldSizes (slotBlocks old)).sum + (heldSizes [db]).sum := by
    rw [slotBlocks, Option.elim_some, hm, heldSizes_append, List.sum_append]
  rw [RankFile.mergedSizes_sum, RankFile.mergedSizes_sum]
  show f.queuedSizes.sum + ((f.mreqs.set did (some m)).map _).sum = _
  rw [hset, hnew]
  ring

theorem appendMerged_queues {c : WriteCall} {dip : DsetInfo} {f f' : RankFile} {m : MergedWReq} {db : DataBlock}
    {old : Option MergedWReq} (hslot : f.mreqs[c.did]? = some old) (hm : m.dbufs = slotBlocks old)
    (h : appendMerged c dip f m db = (f', .ok ())) : QueuesBlock db f f' := by
  unfold appendMerged at h
  dsimp only at h
  split at h
  · cases h
  · split at h
    · split at h
      · cases h
      · cases h
    · split at h
      · cases h
      · rename_i m' happend
        split at h
        · obtain ⟨rfl, -⟩ := Prod.mk.inj h
          refine setMerged_queues hslot ?_
          rw [append_dbufs happend, hm]
        · cases h

theorem enqueue_queues {env : FileEnv} {c : WriteCall} {dip : DsetInfo} {f f' : RankFile} {r : WReq}
    {db : DataBlock} (h : enqueue env c dip f r db = (f', .ok ())) : QueuesBlock db f f' := by
  unfold enqueue at h
  split at h
  · split at h
    · cases h
    · rename_i m hslot
      exact appendMerged_queues hslot rfl h
    · rename_i hslot
      split at h
      · exact appendMerged_queues hslot rfl h
      · cases h
  · exact queueReq_queues h

/-- **A write keeps the balance.** -/
theorem datasetWrite_balanced {env : FileEnv} {c : WriteCall} {f f' : RankFile} {rs : List Rreq}
    (h : f.Balanced rs) (hwrite : datasetWrite env c f = (f', .ok ())) : f'.Balanced rs := by
  by_cases hsel : c.sels.nsel = 0
  · rw [datasetWrite, if_pos hsel] at hwrite
    obtain ⟨rfl, -⟩ := Prod.mk.inj hwrite
    exact h
  obtain ⟨dip, r, f₁, r₁, f₂, db, -, hencode, hdata, hqueue, -⟩ := datasetWrite_ok hsel hwrite
  -- encoding changes the table and the zip buffer only
  obtain ⟨⟨table, zbsize, zbuf, hfile⟩, -⟩ := encodeReq_file env c f r
  rw [hencode] at hfile
  obtain rfl : f₁ = _ := hfile
  obtain rfl := data_held hdata
  have hq := enqueue_queues hqueue
  have hle : f.nflushed ≤ f.wreqs.length := h.nflushed_le
  constructor
  · have hlive := hq.live hle
    rw [RankFile.liveSizes_sum, hlive, hq.bused]
    show f.bused + _ = f.queuedSizes.sum + f.mergedSizes.sum + _ + _
    rw [h.account, RankFile.liveSizes_sum]
    ring
  · rw [hq.nflushed]
    exact le_trans hle hq.length_le

/-! ## §3 — a flush of writes. -/

/-- Moving the pending merged requests out of their slots moves what they hold. -/
theorem pending_sum (ms : List (Option MergedWReq)) :
    (heldSizes (((ms.filterMap pendingMerged).map MergedWReq.toWReq).flatMap WReq.dbufs)).sum +
      ((ms.map fun m => if (pendingMerged m).isSome then none else m).map
        fun m => (heldSizes (slotBlocks m)).sum).sum =
      (ms.map fun m => (heldSizes (slotBlocks m)).sum).sum := by
  induction ms with
  | nil => rfl
  | cons m ms ih =>
      cases hm : pendingMerged m with
      | none =>
          rw [List.filterMap_cons_none hm]
          simp only [List.map_cons, List.sum_cons, hm, Option.isSome_none, Bool.false_eq_true, if_false, ← ih]
          ring
      | some p =>
          obtain ⟨rfl, -⟩ := Option.filter_eq_some_iff.mp hm
          have hblocks : p.toWReq.dbufs = slotBlocks (some p) := rfl
          have hnone : (heldSizes (slotBlocks none)).sum = 0 := rfl
          rw [List.filterMap_cons_some hm]
          simp only [List.map_cons, List.sum_cons, hm, Option.isSome_some, if_true, List.flatMap_cons,
            heldSizes_append, List.sum_append, hblocks, hnone, ← ih]
          ring

theorem flushMerged_balanced {f : RankFile} {rs : List Rreq} (h : f.Balanced rs) : f.flushMerged.Balanced rs := by
  have hqueue : f.flushMerged.queued = f.queued ++ (f.mreqs.filterMap pendingMerged).map MergedWReq.toWReq :=
    List.drop_append_of_le_length h.nflushed_le
  have hsum : f.flushMerged.queuedSizes.sum + f.flushMerged.mergedSizes.sum =
      f.queuedSizes.sum + f.mergedSizes.sum := by
    rw [RankFile.mergedSizes_sum f, ← pending_sum f.mreqs, RankFile.mergedSizes_sum, RankFile.queuedSizes, hqueue,
      List.flatMap_append, heldSizes_append, List.sum_append, RankFile.queuedSizes, add_assoc]
    rfl
  constructor
  · rw [RankFile.liveSizes_sum, hsum, ← RankFile.liveSizes_sum]
    exact h.account
  · show f.nflushed ≤ (f.wreqs ++ _).length
    rw [List.length_append]
    exact le_trans h.nflushed_le (Nat.le_add_right _ _)

/-- Requests that keep their blocks keep the balance. -/
theorem RankFile.Balanced.requeue {f f' : RankFile} {rs : List Rreq} (h : f.Balanced rs)
    (hbused : f'.bused = f.bused) (hmerged : f'.mreqs = f.mreqs) (hn : f'.nflushed = f.nflushed)
    (hblocks : f'.wreqs.map WReq.dbufs = f.wreqs.map WReq.dbufs) : f'.Balanced rs := by
  have hqueued : f'.queuedSizes = f.queuedSizes := by
    rw [RankFile.queuedSizes, RankFile.queuedSizes, List.flatMap_def, List.flatMap_def, RankFile.queued,
      RankFile.queued, List.map_drop, List.map_drop, hblocks, hn]
  constructor
  · rw [hbused, h.account, RankFile.liveSizes, RankFile.liveSizes, hqueued, RankFile.mergedSizes,
      RankFile.mergedSizes, hmerged]
  · have hlen := congrArg List.length hblocks
    rw [List.length_map, List.length_map] at hlen
    rw [hn, hlen]
    exact h.nflushed_le

/-- The bytes a process brings to a flush: none when `cnt` is 0. -/
def RankFile.fsizeLocal (f : RankFile) : MpiOffset :=
  if blockCount f.toFlush = 0 then 0 else (f.toFlush.map WReq.fsize).sum

/-- A process before the exchange. -/
theorem localFlush_balanced {config : I32} {f : RankFile} {l : LocalFlush} {rs : List Rreq} (h : f.Balanced rs)
    (hl : localFlush config f = .ok l) : l.file.Balanced rs ∧ l.fsizeLocal = f.fsizeLocal ∧
      l.file.metadirty = f.metadirty ∧ l.file.queuedSizes = heldSizes (f.toFlush.flatMap WReq.dbufs) := by
  have hf := flushMerged_balanced h
  rw [RankFile.fsizeLocal]
  rcases (localFlush_cases hl).2 with ⟨hnone, rfl⟩ | ⟨hsome, -, bytes, rfl⟩
  · exact ⟨hf, (if_pos hnone).symm, rfl, rfl⟩
  · have hblocks : (f.flushMerged.wreqs.take f.flushMerged.nflushed ++ placeReqs 0 f.flushMerged.queued).map
        WReq.dbufs = f.flushMerged.wreqs.map WReq.dbufs := by
      rw [List.map_append, placeReqs_dbufs, ← List.map_append, RankFile.queued, List.take_append_drop]
    refine ⟨hf.requeue rfl rfl rfl hblocks, (if_neg hsome).symm, rfl, ?_⟩
    have hdrop := congrArg (List.drop f.flushMerged.nflushed) hblocks
    rw [← List.map_drop, ← List.map_drop] at hdrop
    show heldSizes (((f.flushMerged.wreqs.take f.flushMerged.nflushed ++ placeReqs 0 f.flushMerged.queued).drop
      f.flushMerged.nflushed).flatMap WReq.dbufs) = heldSizes (f.toFlush.flatMap WReq.dbufs)
    rw [List.flatMap_def, List.flatMap_def, hdrop]
    rfl

/-- **Releasing the blocks** of the queue empties it. -/
theorem finishRank_balanced {f : RankFile} {rs : List Rreq} (h : f.Balanced rs) (base : MpiOffset) :
    (finishRank base f).Balanced rs ∧ (finishRank base f).queuedSizes = [] := by
  have hlen : (f.wreqs.take f.nflushed ++ f.queued.map (WReq.moveBy base)).length = f.wreqs.length := by
    rw [List.length_append, List.length_map, ← List.length_append, RankFile.queued, List.take_append_drop]
  have hnone : (finishRank base f).queuedSizes = [] := by
    have hdrop : (finishRank base f).queued = [] := List.drop_eq_nil_of_le hlen.le
    rw [RankFile.queuedSizes, hdrop]
    rfl
  refine ⟨⟨?_, hlen.ge⟩, hnone⟩
  rw [RankFile.liveSizes_sum, hnone]
  show (f.queued.flatMap WReq.dbufs).foldl releaseBlock f.bused = 0 + f.mergedSizes.sum + _
  rw [foldl_releaseBlock, h.account, RankFile.liveSizes_sum, RankFile.queuedSizes]
  ring

/-! ## §4 — reads. -/

/-- A call of `H5VL_log_dataset_read` on one process: the dataset, the size of the memory type and whether it is
equal to the dataset's, the memory space, the file selection, and whether the system has the memory. -/
structure ReadCall where
  did : ℕ
  msize : ℕ
  eqtype : Bool
  mem : MemSpace
  dsel : List Lib.Box
  granted : Bool

/-- The request of a read. -/
def ReadCall.request (rd : ReadCall) (f : RankFile) : Except Fault (Option Rreq) :=
  match f.dsetsInfo[rd.did]? with
  | some (some dip) => datasetiRreq dip.esize.toNat rd.msize rd.eqtype rd.mem rd.dsel
  | _ => .error .outside

/-- The request, if there is one. -/
def ReadCall.reqs (rd : ReadCall) (f : RankFile) : List Rreq :=
  match rd.request f with
  | .ok (some r) => [r]
  | _ => []

/-- **`H5VL_log_dataseti_read`** up to the point where its request is queued or flushed: the buffer is taken. When
neither the buffer nor the datatype of the memory selection can be had, the source reports the buffer. -/
def takeRead (env : FileEnv) (rd : ReadCall) (f : RankFile) : Except Fault RankFile := do
  let r ← rd.request f
  match r.bind Rreq.held with
  | none => pure f
  | some size => do
      let bused ← balloc env f.bused size rd.granted
      pure { f with bused := bused }

/-- A flush of reads looks at one file only: without subfiles, or told to read its own one. -/
def readsOneFile (config : I32) : Bool :=
  !hasFlag config FileConfig.subfiling || hasFlag config FileConfig.singleSubfileRead

/-- Flush metadata if dirty. -/
def cleanMeta (config : I32) (f : RankFile) : Except Fault RankFile :=
  if f.metadirty then do
    let _ ← localMeta config f
    pure f.metaflushed
  else pure f

/-- The buffers of reads given back. -/
def releaseReads (bused : HSize) (rs : List Rreq) : HSize :=
  rs.foldl (fun bused r => r.held.elim bused (bfree bused)) bused

/-- **`H5VL_log_nb_flush_read_reqs`** on one process, as far as requests and buffers go: over several subfiles
the loop opens one after the other, and `H5VL_log_nb_perform_read` is not called. In both cases the
requests are deleted in the end. -/
def flushReads (config : I32) (rs : List Rreq) (f : RankFile) : Except Fault RankFile :=
  if readsOneFile config then do
    let f ← cleanMeta config f
    pure { f with bused := releaseReads f.bused rs }
  else pure f

theorem releaseReads_eq (rs : List Rreq) (bused : HSize) : releaseReads bused rs = bused - (readSizes rs).sum := by
  induction rs generalizing bused with
  | nil => simp [releaseReads, readSizes]
  | cons r rs ih =>
      show releaseReads (r.held.elim bused (bfree bused)) rs = _
      rw [ih]
      cases hr : r.held with
      | none => simp [readSizes, hr]
      | some n =>
          simp only [readSizes, hr, Option.elim_some, bfree, List.filterMap_cons, List.sum_cons]
          ring

/-- **A read keeps the balance**, its request among the others. -/
theorem takeRead_balanced {env : FileEnv} {rd : ReadCall} {f f' : RankFile} {rs : List Rreq} (h : f.Balanced rs)
    (hread : takeRead env rd f = .ok f') : f'.Balanced (rs ++ rd.reqs f) ∧ f' = { f with bused := f'.bused } := by
  obtain ⟨r, hr, hread⟩ := Lib.bind_eq_ok.mp hread
  have hreqs : readSizes (rd.reqs f) = (r.bind Rreq.held).toList := by
    unfold ReadCall.reqs
    rw [hr]
    cases r with
    | none => rfl
    | some r =>
        show [r].filterMap Rreq.held = _
        cases hheld : r.held <;> simp [hheld]
  have hlive (b : HSize) : (RankFile.liveSizes { f with bused := b } (rs ++ rd.reqs f)).sum =
      f.bused + (r.bind Rreq.held).toList.sum := by
    rw [RankFile.liveSizes_sum, readSizes_append, List.sum_append, hreqs, h.account, RankFile.liveSizes_sum,
      ← add_assoc]
    rfl
  -- A request holds a buffer of its own, or the user's, which is not counted.
  cases hheld : r.bind Rreq.held with
  | none =>
      rw [hheld] at hread hlive
      obtain rfl := Except.ok.inj hread
      refine ⟨⟨?_, h.nflushed_le⟩, rfl⟩
      have hsame := hlive f.bused
      simpa using hsame.symm
  | some size =>
      rw [hheld] at hread hlive
      obtain ⟨bused, halloc, hread⟩ := Lib.bind_eq_ok.mp hread
      obtain rfl := Except.ok.inj hread
      refine ⟨⟨?_, h.nflushed_le⟩, rfl⟩
      rw [hlive]
      rcases balloc_cases env f.bused size rd.granted with ⟨e, heq⟩ | heq
      · rw [heq] at halloc
        cases halloc
      · rw [heq] at halloc
        simpa using (Except.ok.inj halloc).symm

/-- What has to hold where reads are flushed: on one file, no buffer of a write is queued when the metadata is
dirty, and on several subfiles the reads have no buffers. -/
def ReadsKept (config : I32) (rs : List Rreq) (dirty : Bool) (queued : List HSize) : Prop :=
  if readsOneFile config then dirty = true → queued.sum = 0 else (readSizes rs).sum = 0

/-- **A flush of reads keeps the balance** exactly when it releases what it deletes. -/
theorem flushReads_balanced {config : I32} {rest rs : List Rreq} {f f' : RankFile} (h : f.Balanced (rest ++ rs))
    (hflush : flushReads config rs f = .ok f') :
    f'.Balanced rest ↔ ReadsKept config rs f.metadirty f.queuedSizes := by
  have haccount := h.account
  rw [RankFile.liveSizes_sum, readSizes_append, List.sum_append] at haccount
  unfold flushReads at hflush
  unfold ReadsKept
  split at hflush
  · rename_i hone
    rw [if_pos hone]
    obtain ⟨f₁, hclean, hflush⟩ := Lib.bind_eq_ok.mp hflush
    obtain rfl := Except.ok.inj hflush
    have hbused (b : HSize) : b - (readSizes rs).sum = f.mergedSizes.sum + (readSizes rest).sum ↔
        b = f.mergedSizes.sum + (readSizes rest).sum + (readSizes rs).sum := sub_eq_iff_eq_add
    -- A metadata flush deletes the queued requests, and with them buffers that nobody gives back.
    unfold cleanMeta at hclean
    split at hclean
    · rename_i hdirty
      obtain ⟨l, -, hclean⟩ := Lib.bind_eq_ok.mp hclean
      obtain rfl := Except.ok.inj hclean
      have hnone : RankFile.liveSizes { f.metaflushed with
          bused := releaseReads f.metaflushed.bused rs } rest = f.mergedSizes ++ readSizes rest := rfl
      constructor
      · intro hbal _
        have heq := hbal.account
        rw [hnone, releaseReads_eq, List.sum_append, hbused] at heq
        rw [show f.metaflushed.bused = f.bused from rfl, haccount] at heq
        linear_combination heq
      · intro hkept
        refine ⟨?_, Nat.zero_le _⟩
        rw [hnone, releaseReads_eq, List.sum_append, hbused]
        show f.bused = _
        rw [haccount, hkept hdirty]
        ring
    · rename_i hclean'
      obtain rfl := Except.ok.inj hclean
      refine iff_of_true ⟨?_, h.nflushed_le⟩ fun hdirty => absurd hdirty hclean'
      rw [RankFile.liveSizes_sum]
      show releaseReads f.bused rs = f.queuedSizes.sum + f.mergedSizes.sum + _
      rw [releaseReads_eq, haccount]
      ring
  · rename_i hone
    rw [if_neg hone]
    obtain rfl := Except.ok.inj hflush
    constructor
    · intro hbal
      have heq := hbal.account
      rw [RankFile.liveSizes_sum, haccount] at heq
      linear_combination heq
    · intro hzero
      refine ⟨?_, h.nflushed_le⟩
      rw [RankFile.liveSizes_sum, haccount, hzero]
      ring

/-! ## §5 — writes that are refused. -/

/-- The error of a write for which there is no room. -/
def outOfBuffer : Fault := .raised "Out of buffer"

/-- The live buffers and a new one exceed the limit. -/
def OverLimit (env : FileEnv) (live : List HSize) (size : HSize) : Prop :=
  ∃ limit, env.bsize = some limit ∧ limit < (live.map BitVec.toNat).sum + size.toNat

theorem sum_toNat_le (l : List HSize) : l.sum.toNat ≤ (l.map BitVec.toNat).sum := by
  induction l with
  | nil => exact le_rfl
  | cons n l ih =>
      rw [List.sum_cons, List.map_cons, List.sum_cons, BitVec.toNat_add]
      have hmod := Nat.mod_le (n.toNat + l.sum.toNat) (2 ^ 64)
      omega

theorem balloc_overLimit {env : FileEnv} {bused size : HSize} {granted : Bool} {live : List HSize}
    (hlive : bused = live.sum) (h : balloc env bused size granted = .error outOfBuffer) :
    OverLimit env live size := by
  unfold balloc at h
  split at h
  · rename_i hover
    obtain ⟨limit, hlimit, hlt⟩ := (Option.any_eq_true ..).mp hover
    refine ⟨limit, hlimit, lt_of_lt_of_le (of_decide_eq_true hlt) ?_⟩
    have hadd : (bused + size).toNat ≤ bused.toNat + size.toNat := by
      rw [BitVec.toNat_add]
      exact Nat.mod_le _ _
    have hsum := sum_toNat_le live
    rw [← hlive] at hsum
    omega
  · split at h
    · exact absurd h (by decide)
    · cases h

/-- A stage that does not end with this error. -/
def Outcome.HasRoom {α : Type} (o : Outcome α) : Prop := o.2 ≠ .error outOfBuffer

theorem hasRoom_ok {α : Type} (f : RankFile) (a : α) : Outcome.HasRoom (f, .ok a) := nofun

theorem hasRoom_error {α : Type} (f : RankFile) {e : Fault} (h : e ≠ outOfBuffer) :
    Outcome.HasRoom ((f, .error e) : Outcome α) := fun heq => h (Except.error.inj heq)

theorem Outcome.HasRoom.andThen {α β : Type} {o : Outcome α} {k : RankFile → α → Outcome β} (ho : o.HasRoom)
    (hk : ∀ f a, (k f a).HasRoom) : (o.andThen k).HasRoom := by
  obtain ⟨f, x⟩ := o
  cases x with
  | error e => exact fun heq => ho (congrArg Except.error (Except.error.inj heq))
  | ok a => exact hk f a

theorem dedup_hasRoom (env : FileEnv) (c : WriteCall) (f : RankFile) (r : WReq) : (dedup env c f r).HasRoom := by
  unfold dedup
  split
  · split
    · exact hasRoom_ok _ _
    · split
      · exact hasRoom_ok _ _
      · exact hasRoom_error _ (by decide)
  · exact hasRoom_ok _ _

/-- Compressing raises for want of no account. -/
theorem zipCompress_error {z : Zlib} {sel : List UInt8} {room : ℕ} {e : Fault} (h : zipCompress z sel room = .error e) :
    e ≠ outOfBuffer := by
  unfold zipCompress at h
  split at h
  · cases h
  · cases h
  · rw [← Except.error.inj h]
    decide

theorem zipSel_hasRoom (env : FileEnv) (c : WriteCall) (f : RankFile) (r : WReq) (n : ℕ) :
    (zipSel env c f r n).HasRoom := by
  unfold zipSel
  split
  · exact hasRoom_ok _ _
  · split
    · dsimp only
      split
      · exact hasRoom_error _ (by decide)
      · split
        · exact hasRoom_error _ (by decide)
        · split
          · rename_i herror
            exact hasRoom_error _ (zipCompress_error herror)
          · exact hasRoom_ok _ _
    · exact hasRoom_ok _ _

theorem shrinkReq_hasRoom (c : WriteCall) (f : RankFile) (r : WReq) (n : ℕ) : (shrinkReq c f r n).HasRoom := by
  unfold shrinkReq
  split
  · split
    · exact hasRoom_ok _ _
    · exact hasRoom_error _ (by decide)
  · exact hasRoom_ok _ _

theorem encodeReq_hasRoom (env : FileEnv) (c : WriteCall) (f : RankFile) (r : WReq) :
    (encodeReq env c f r).HasRoom := by
  refine (dedup_hasRoom env c f r).andThen fun f a => ?_
  exact (zipSel_hasRoom env c f a.1 a.2).andThen fun f a => shrinkReq_hasRoom c f a.1 a.2

theorem appendMerged_hasRoom (c : WriteCall) (dip : DsetInfo) (f : RankFile) (m : MergedWReq) (db : DataBlock) :
    (appendMerged c dip f m db).HasRoom := by
  unfold appendMerged
  dsimp only
  split
  · exact hasRoom_error _ (by decide)
  · split
    · split
      · rename_i e hgrow
        apply hasRoom_error
        rw [growAlloc_error hgrow]
        decide
      · exact hasRoom_error _ (by decide)
    · split
      · rename_i e happend
        exact hasRoom_error _ fun heq => append_not_raised m dip db c.sels _ (heq ▸ happend)
      · split
        · exact hasRoom_ok _ _
        · exact hasRoom_error _ (by decide)

theorem enqueue_hasRoom (env : FileEnv) (c : WriteCall) (dip : DsetInfo) (f : RankFile) (r : WReq)
    (db : DataBlock) : (enqueue env c dip f r db).HasRoom := by
  unfold enqueue
  split
  · split
    · exact hasRoom_error _ (by decide)
    · exact appendMerged_hasRoom c dip f _ db
    · split
      · exact appendMerged_hasRoom c dip f _ db
      · exact hasRoom_error _ (by decide)
  · unfold queueReq
    split
    · exact hasRoom_ok _ _
    · exact hasRoom_error _ (by decide)

theorem runFilters_hasRoom (env : FileEnv) (filters : List Filter) (bytes : List UInt8) :
    runFilters env filters bytes ≠ .error outOfBuffer := by
  induction filters generalizing bytes with
  | nil => nofun
  | cons fl fls ih =>
      unfold runFilters
      split
      · split
        · exact fun h => absurd (Except.error.inj h) (by decide)
        · exact ih _
      · exact fun h => absurd (Except.error.inj h) (by decide)

/-- What the data of a write is refused for: its own buffer, or the one for what the filters make of it. -/
def NewBuffer (env : FileEnv) (c : WriteCall) (dip : DsetInfo) (size : HSize) : Prop :=
  size = c.blockSize dip ∨ ∃ buf, c.filtered env dip = .ok buf ∧ size = filteredSize buf

theorem data_overLimit {env : FileEnv} {c : WriteCall} {dip : DsetInfo} {f : RankFile} {live : List HSize}
    (hlive : f.bused = live.sum)
    (h : ((takeData env c dip f).andThen (filterData env c dip)).2 = .error outOfBuffer) :
    ∃ size, NewBuffer env c dip size ∧ OverLimit env live size := by
  rcases takeData_cases env c dip f with ⟨⟨e, heq⟩, hin, e', halloc⟩ | ⟨⟨db, heq, hinput, hrelease⟩, -⟩
  · rw [heq] at h
    obtain rfl : e = outOfBuffer := Except.error.inj h
    have htake : balloc env f.bused (c.blockSize dip) c.grants.data = .error outOfBuffer := by
      unfold takeData at heq
      dsimp only at heq
      rw [hin, if_neg Bool.false_ne_true, halloc] at heq
      obtain rfl : e' = outOfBuffer := Except.error.inj (Prod.mk.inj heq).2
      exact halloc
    exact ⟨_, Or.inl rfl, balloc_overLimit hlive htake⟩
  · rw [heq] at h
    have hfiltered : runFilters env dip.filters (filterInput db) = c.filtered env dip := by
      rw [hinput]
      rfl
    have h : (filterData env c dip { f with bused := f.bused + c.held dip } db).2 = .error outOfBuffer := h
    unfold filterData at h
    -- Without filters no second buffer is asked for.
    split at h
    · cases h
    · rw [hfiltered] at h
      split at h
      · rename_i e herr
        obtain rfl : e = outOfBuffer := Except.error.inj h
        exact absurd herr (runFilters_hasRoom env _ _)
      · rename_i buf hbuf
        simp only [hrelease] at h
        split at h
        · cases h
        · rename_i e halloc
          obtain rfl : e = outOfBuffer := Except.error.inj h
          exact ⟨_, Or.inr ⟨buf, hbuf, rfl⟩, balloc_overLimit hlive halloc⟩

/-- **A write is refused** only if the live buffers and its own exceed the limit. -/
theorem datasetWrite_overLimit {env : FileEnv} {c : WriteCall} {f : RankFile} {rs : List Rreq}
    (h : f.Balanced rs) (hwrite : (datasetWrite env c f).2 = .error outOfBuffer) :
    ∃ dip size, f.dsetsInfo[c.did]? = some (some dip) ∧ NewBuffer env c dip size ∧
      OverLimit env (f.liveSizes rs) size := by
  unfold datasetWrite at hwrite
  split at hwrite
  · cases hwrite
  split at hwrite
  · exact absurd (Except.error.inj hwrite) (by decide)
  split at hwrite
  · rename_i dip hdip
    split at hwrite
    · exact absurd (Except.error.inj hwrite) (by decide)
    split at hwrite
    · exact absurd (Except.error.inj hwrite) (by decide)
    split at hwrite
    · rename_i e hinit
      rw [wreqInit_fault hinit] at hwrite
      exact absurd (Except.error.inj hwrite) (by decide)
    rename_i r _
    obtain ⟨⟨table, zbsize, zbuf, hfile⟩, -⟩ := encodeReq_file env c f r
    have hencode := encodeReq_hasRoom env c f r
    unfold writeReq at hwrite
    -- Encoding the selection asks for no buffer, and neither does queueing the request.
    rcases hout : encodeReq env c f r with ⟨f₁, e | r₁⟩
    · rw [hout] at hwrite hencode
      exact absurd (congrArg Except.error (Except.error.inj hwrite)) hencode
    · rw [hout] at hwrite hfile
      have hbused : f₁.bused = (f.liveSizes rs).sum := by
        rw [show f₁ = _ from hfile]
        exact h.account
      have hwrite : ((takeData env c dip f₁).andThen fun f db =>
          (filterData env c dip f db).andThen fun f db => enqueue env c dip f r₁ db).2 = .error outOfBuffer := hwrite
      rw [← andThen_assoc] at hwrite
      rcases hdata : (takeData env c dip f₁).andThen (filterData env c dip) with ⟨f₂, e | db⟩
      · rw [hdata] at hwrite
        obtain rfl : e = outOfBuffer := Except.error.inj hwrite
        have hdata' : ((takeData env c dip f₁).andThen (filterData env c dip)).2 = .error outOfBuffer := by
          rw [hdata]
        obtain ⟨size, hsize, hover⟩ := data_overLimit hbused hdata'
        exact ⟨dip, size, hdip, hsize, hover⟩
      · rw [hdata] at hwrite
        exact absurd hwrite (enqueue_hasRoom env c dip f₂ r₁ db)
  · exact absurd (Except.error.inj hwrite) (by decide)

end LogVol
