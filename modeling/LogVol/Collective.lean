/-
# LogVol.Collective — the collective operations of flushing, closing and reading.

Every process of a job runs the same functions on its own queues, and meets the others in collective
operations: on the communicator of the file, on the communicator of its group, and on the handle of the
file its group shares. The functions are processes here (`Lib.Proc`): what they do on their own is that
of `FlushWrite` and `MetaFlush`, and every collective call is a step of all members of its communicator.
-/
import LogVol.MetaFlush
import LogVol.ReadTypes
import LogVol.Lib.Collective

namespace LogVol

open Lib (Proc Net)

/-! ## §1 — communicators and operations. -/

/-- Where an operation is called: on `fp->comm`, on `fp->group_comm` of a group, or on the file that a
group shares. -/
inductive Comm where
  | world
  | group (g : Nat)
  | handle (g : Nat)
  deriving DecidableEq, Repr

/-- The operations. Those from `datasetCreate` to `fileFlush` are called through the underlying VOL. -/
inductive Collective where
  | allreduceMax
  | allreduceSum
  | exscanSum
  | bcast
  | barrier
  | gather
  | scatter
  | datasetCreate
  | datasetOpen
  | datasetWrite
  | datasetClose
  | groupOpen
  | groupClose
  | fileOpen
  | fileClose
  | fileFlush
  | mpiFileOpen
  | mpiFileClose
  | setView
  | writeAtAll
  | readAtAll
  deriving DecidableEq, Repr

structure Call where
  comm : Comm
  op : Collective
  deriving DecidableEq, Repr

/-- What is contributed to an operation, and what it answers. -/
abbrev Words := List (BitVec 64)

/-- The first word. -/
def word (ws : Words) : BitVec 64 := ws.headD 0

/-- `HADDR_UNDEF`. -/
def haddrUndef : HSize := BitVec.allOnes 64

/-- The processes that have a file open: how many there are, the group of each (`group_comm` is `comm`
without subfiling), the configuration, whether the transfer property list of the file is collective, and
whether setting a file view is counted as an operation. `place` and `placeLate` are where the underlying
VOL puts the dataset it creates in a group, asked at once and after a flush. The aligned data layout
closes a file in a way of its own. -/
structure Job where
  np : Nat
  group : Fin np → Nat
  config : I32
  xferCollective : Bool
  views : Bool
  place : Nat → Words → HSize
  placeLate : Nat → Words → HSize
  whole : hasFlag config FileConfig.subfiling = false → ∀ i j, group i = group j
  unaligned : hasFlag config FileConfig.dataAlign = false

namespace Job

variable (J : Job)

/-- The members of a communicator, in the order of their ranks. -/
def members : Comm → List (Fin J.np)
  | .world => List.finRange J.np
  | .group g => (List.finRange J.np).filter fun i => J.group i = g
  | .handle g => (List.finRange J.np).filter fun i => J.group i = g

/-- `group_rank`. -/
def groupRank (i : Fin J.np) : Nat := ((J.members (.group (J.group i))).filter (· < i)).length

/-- `group_np`. -/
def groupNp (i : Fin J.np) : Nat := (J.members (.group (J.group i))).length

/-- `ngroup`. -/
def ngroup : Nat := ((List.finRange J.np).map J.group).dedup.length

/-- The larger of each two words. -/
def maxWords (ws ws' : Words) : Words := List.zipWith (fun a b => if a < b then b else a) ws ws'

/-- What the members of a communicator are answered. -/
def reply (c : Call) (arg : Fin J.np → Words) (i : Fin J.np) : Words :=
  let ms := J.members c.comm
  let before := ms.filter (· < i)
  let root : Words := (ms.head?.map arg).getD []
  match c.op, c.comm with
  | .allreduceMax, _ => (ms.map arg).foldr maxWords (arg i)
  | .allreduceSum, _ => [(ms.map fun j => word (arg j)).sum]
  | .exscanSum, _ => [(before.map fun j => word (arg j)).sum]
  | .gather, _ => if before = [] then ms.flatMap arg else []
  | .scatter, _ => (root.drop (2 * before.length)).take 2
  | .datasetCreate, .handle g => [J.place g root]
  | .datasetOpen, .handle g => [J.placeLate g root]
  | _, _ => []

/-- The communicators of the job. -/
def net : Net (Fin J.np) Call Words Comm where
  chan := Call.comm
  Member := fun c i => i ∈ J.members c
  reply := J.reply
  reply_congr := by
    intro c arg arg' h i hi
    have hms : ∀ j ∈ J.members c.comm, arg j = arg' j := h
    have hbefore : ∀ j ∈ (J.members c.comm).filter (· < i), arg j = arg' j := fun j hj =>
      hms j (List.mem_filter.mp hj).1
    have hroot : (J.members c.comm).head?.map arg = (J.members c.comm).head?.map arg' := by
      cases hm : (J.members c.comm).head? with
      | none => rfl
      | some j => exact congrArg some (hms j (List.mem_of_head? hm))
    have hsum : ∀ {js : List (Fin J.np)}, (∀ j ∈ js, arg j = arg' j) →
        (js.map fun j => word (arg j)) = js.map fun j => word (arg' j) := fun hjs =>
      List.map_congr_left fun j hj => congrArg word (hjs j hj)
    unfold reply
    simp only [hroot, hsum hms, hsum hbefore, List.map_congr_left hms, List.flatMap, hms i hi]

/-- A process of the job. -/
abbrev Prog (α : Type) := Proc Call Words Fault α

/-- Which communicator of its own a process uses. -/
inductive Scope where
  | world
  | group
  | handle
  deriving DecidableEq, Repr

def comm (i : Fin J.np) : Scope → Comm
  | .world => .world
  | .group => .group (J.group i)
  | .handle => .handle (J.group i)

/-- Call one operation. -/
def call (i : Fin J.np) (scope : Scope) (op : Collective) (arg : Words) : Prog Words :=
  .call ⟨J.comm i scope, op⟩ arg .ret

/-- Call operations one after another, without any contribution that matters. -/
def calls (i : Fin J.np) : List (Scope × Collective) → Prog Unit
  | [] => pure ()
  | (scope, op) :: rest => do
      let _ ← J.call i scope op []
      calls i rest

/-! ## §2 — writing. -/

/-- Create a dataset and get its file offset. If it is not allocated, flush the file and reopen the
dataset; if that does not work either, the data is discarded. -/
def createDataset (i : Fin J.np) (arg : Words) : Prog HSize := do
  let doff ← J.call i .handle .datasetCreate arg
  if word doff = haddrUndef then do
    J.calls i [(.handle, .datasetClose), (.world, .fileFlush)]
    let doff ← J.call i .handle .datasetOpen arg
    pure (if word doff = haddrUndef then 0 else word doff)
  else pure (word doff)

/-- The dataset is written through the underlying VOL when data is passed through, else by MPI. -/
def writeOp : Collective :=
  if hasFlag J.config FileConfig.passthru then .datasetWrite else .writeAtAll

/-- The part of a flush that runs when the group has any data. -/
def writeLog (i : Fin J.np) (l : LocalFlush) (fsizeGroup foffGroup : MpiOffset) : Prog RankFile := do
  let doff ← J.createDataset i [0, l.file.nldset.signExtend 64, fsizeGroup]
  J.calls i [(.handle, J.writeOp), (.handle, .datasetClose)]
  pure (finishRank (foffGroup + doff) l.file)

/-- A group without data writes nothing. -/
def writeGroup (i : Fin J.np) (l : LocalFlush) (sizes : MpiOffset × MpiOffset) : Prog RankFile :=
  if sizes.1 = 0 then pure l.file else J.writeLog i l sizes.1 sizes.2

/-- `fsize_group` and `foff_group`. -/
def groupSizes (i : Fin J.np) (fsizeLocal fsizeAll foffAll : MpiOffset) :
    Prog (MpiOffset × MpiOffset) :=
  if hasFlag J.config FileConfig.subfiling then do
    let fsizeGroup ← J.call i .group .allreduceSum [fsizeLocal]
    let foffGroup ← J.call i .group .exscanSum [fsizeLocal]
    pure (word fsizeGroup, word foffGroup)
  else pure (fsizeAll, foffAll)

/-- The part of a flush after the requests are placed. -/
def exchange (i : Fin J.np) (l : LocalFlush) : Prog RankFile := do
  let fsizeAll ← J.call i .world .allreduceSum [l.fsizeLocal]
  let foffAll ← J.call i .world .exscanSum [l.fsizeLocal]
  let sizes ← J.groupSizes i l.fsizeLocal (word fsizeAll) (word foffAll)
  if word fsizeAll = 0 then pure l.file
  else do
    let f ← J.writeGroup i l sizes
    pure { f with metadirty := true }

/-- **`H5VL_log_nb_flush_write_reqs`** on one process. -/
def flushWriteReqs (i : Fin J.np) (f : RankFile) : Prog RankFile :=
  match localFlush J.config f with
  | .error e => .raise e
  | .ok l => J.exchange i l

/-- What the first process of a group sends the others: where the section of each starts, and the total
size. -/
def scatterParts (sizes : Words) : Words :=
  (List.range sizes.length).flatMap fun k => [(sizes.take k).sum, sizes.sum]

/-- What a process contributes to the gather: the first one of a group also writes the map. -/
def mdsize (i : Fin J.np) (f : RankFile) : MpiOffset :=
  (if J.groupRank i = 0 then mapSize (J.groupNp i) else 0) +
    (f.wreqs.map fun r => r.hdr.metaSize.signExtend 64).sum

/-- Sync metadata size: `rbuf`. -/
def syncSizes (i : Fin J.np) (f : RankFile) : Prog Words := do
  let sizes ← J.call i .group .gather [J.mdsize i f]
  J.call i .group .scatter (if J.groupRank i = 0 then scatterParts sizes else [])

/-- A group with any entry creates a metadata dataset of `dsize` bytes and writes it. The barrier is on
the communicator of the file: no process may read metadata before everyone has written. -/
def writeMeta (i : Fin J.np) (f : RankFile) (dsize : MpiOffset) : Prog Unit :=
  if mapSize (J.groupNp i) < dsize then do
    let _ ← J.createDataset i [1, f.nldset.signExtend 64, dsize]
    J.calls i [(.handle, J.writeOp), (.handle, .datasetClose)]
    J.calls i [(.world, .barrier)]
  else pure ()

/-- **`H5VL_log_filei_metaflush`** on one process. -/
def metaflush (i : Fin J.np) (f : RankFile) : Prog RankFile :=
  match localMeta J.config f with
  | .error e => .raise e
  | .ok _ => do
      let rbuf ← J.syncSizes i f
      J.writeMeta i f (rbuf.getD 1 0)
      pure f.metaflushed

/-! ## §3 — reading. -/

end Job

/-- How far a process gets before the read itself: it fails in the search of the index or in making the types, it
finds nothing, or it has the types of what it finds. -/
inductive ReadStage where
  | failed
  | nothing
  | typed
  deriving DecidableEq, Repr

/-- What the search of the index comes to: an error, or the results with their buffers. -/
structure Searched where
  std : BlockSort
  found : Except Fault (List Intersec)

/-- The types are made only if something is found. -/
def Searched.stage (s : Searched) : ReadStage :=
  match s.found with
  | .error _ => .failed
  | .ok [] => .nothing
  | .ok blocks => if (readiGenRtypes s.std blocks).isOk then .typed else .failed

namespace Job

variable (J : Job)

/-- The operations of the read itself. Data passed through is read independently. A process that has failed
calls none: its error is returned, and it goes on with what the application calls next. -/
def readOps (stage : ReadStage) : List (Scope × Collective) :=
  if hasFlag J.config FileConfig.passthru then []
  else
    match stage with
    | .failed => []
    | .nothing => [(.handle, .readAtAll)]
    | .typed =>
        if J.views then [(.handle, .setView), (.handle, .readAtAll), (.handle, .setView)]
        else [(.handle, .readAtAll)]

/-- Flush metadata if dirty. -/
def cleanMeta (i : Fin J.np) (f : RankFile) : Prog RankFile :=
  if f.metadirty then J.metaflush i f else pure f

/-- `H5VL_log_nb_perform_read`. What comes after the read calls nothing, whether it fails or not. -/
def performRead (i : Fin J.np) (stage : ReadStage) (f : RankFile) : Prog RankFile := do
  let f ← J.cleanMeta i f
  J.calls i (J.readOps stage)
  pure f

/-- Whether a read looks at one file only. -/
def readsHere : Bool :=
  !hasFlag J.config FileConfig.subfiling || hasFlag J.config FileConfig.singleSubfileRead

/-- Iterate through all subfiles: close the current one, open the next one. -/
def switchOps : List (Scope × Collective) :=
  (List.range J.ngroup).flatMap fun _ =>
    [(.handle, .groupClose), (.handle, .mpiFileClose), (.handle, .fileClose), (.world, .bcast),
      (.handle, .fileOpen), (.handle, .groupOpen), (.handle, .mpiFileOpen)]

/-- **`H5VL_log_nb_flush_read_reqs`** on one process. -/
def flushReadReqs (i : Fin J.np) (stage : ReadStage) (f : RankFile) : Prog RankFile :=
  if J.readsHere then J.performRead i stage f
  else do
    J.calls i J.switchOps
    pure f

end Job

/-! ## §4 — the calls of an application. -/

/-- `H5VL_log_filei_get_num_pending_writes`. -/
def RankFile.numPendingWrites (f : RankFile) : Nat :=
  f.queued.length + (f.mreqs.filterMap pendingMerged).length

/-- A process with its queues: its file, the number of queued reads and what the search for them comes to. A
vector has fewer than `2 ^ 64` elements. -/
structure Queues where
  file : RankFile
  rreqs : HSize
  searched : Searched
  fits : file.numPendingWrites < 2 ^ 64

/-- A blocking read of one process: a selection of `nsel` blocks, whether a request can be made of it, and what the
search for it comes to. A request needs a user buffer, and where that is not reused, memory within the limit of the
file and a type for the selection in memory. -/
structure BlockingRead where
  nsel : Nat
  made : Bool
  searched : Searched

/-- A process that calls nothing in its read: the selection is empty, or there is no request. -/
def BlockingRead.Silent (c : BlockingRead) : Prop := c.nsel = 0 ∨ c.made = false

instance (c : BlockingRead) : Decidable c.Silent := inferInstanceAs (Decidable (_ ∨ _))

namespace Job

variable (J : Job)

/-- Flush write requests if any process has some. -/
def flushPending (i : Fin J.np) (pending : HSize) (f : RankFile) : Prog RankFile :=
  if 0 < pending then J.flushWriteReqs i f else pure f

/-- Flush read requests if any process has some. -/
def flushQueuedReads (i : Fin J.np) (rreqs : HSize) (stage : ReadStage) (f : RankFile) : Prog RankFile :=
  if 0 < rreqs then J.flushReadReqs i stage f else pure f

/-- **`H5VL_log_filei_flush`** on one process. -/
def fileiFlush (i : Fin J.np) (q : Queues) : Prog RankFile := do
  let numReqs ← J.call i .world .allreduceMax [BitVec.ofNat 64 q.file.numPendingWrites, q.rreqs]
  let f ← J.flushPending i (numReqs.getD 0 0) q.file
  J.flushQueuedReads i (numReqs.getD 1 0) q.searched.stage f

/-- **`H5VL_log_filei_close`** on one process, up to the metadata flush; the file is not read-only. -/
def fileiClose (i : Fin J.np) (f : RankFile) : Prog RankFile := do
  let f ← J.flushWriteReqs i f
  J.metaflush i f

/-- Flush pending write requests if the read is collective, by the property list of the file. -/
def flushForRead (i : Fin J.np) (f : RankFile) : Prog RankFile :=
  if J.xferCollective ∨ J.np = 1 then do
    let pending ← J.call i .world .allreduceMax [BitVec.ofNat 64 f.numPendingWrites]
    J.flushPending i (pending.getD 0 0) f
  else pure f

/-- **`H5VL_log_dataseti_read`** on one process, blocking. Without a request, it returns with an error before it
has called anything. -/
def datasetiRead (i : Fin J.np) (c : BlockingRead) (f : RankFile) : Prog RankFile :=
  if c.nsel = 0 then pure f
  else if c.made = false then pure f
  else do
    let f ← J.flushForRead i f
    J.flushReadReqs i c.searched.stage f

end Job

end LogVol
