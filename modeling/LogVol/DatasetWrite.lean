/-
# LogVol.DatasetWrite — queueing one write.

`datasetWrite` follows `H5VL_log_dataseti_write` stage by stage: encode the request, look it up in the
deduplication table, compress and shrink it, take a buffer for the data, run the filters, and queue the
request or append it to the dataset's merged one. Every stage may raise, and what it has changed in the
file by then stays: an `Outcome` is the file after the stage together with its result.
-/
import LogVol.File

namespace LogVol

open Lib (putWord)

/-! ## §1 — calls and outcomes. -/

/-- Which of the requests for memory a call makes are granted. -/
structure Grants where
  request : Bool
  insert : Bool
  zip : Bool
  shrink : Bool
  data : Bool
  filtered : Bool
  merged : Bool
  grow : Bool
  push : Bool
  deriving DecidableEq, Repr

def Grants.all : Grants := ⟨true, true, true, true, true, true, true, true, true⟩

/-- The arguments of a write: the dataset and the selection, the element size of the memory type,
whether the user's buffer can be used as it is, and the data, packed and converted to the type of the
dataset. -/
structure WriteCall where
  did : Nat
  sels : Selections
  memEsize : HSize
  inPlace : Bool
  hasBuf : Bool
  data : List UInt8
  grants : Grants

/-- The file after a stage, and how the stage ended. -/
abbrev Outcome (α : Type) := RankFile × Except Fault α

/-- The next stage runs on the file the last one left, unless that one failed. -/
def Outcome.andThen {α β : Type} (o : Outcome α) (k : RankFile → α → Outcome β) : Outcome β :=
  match o with
  | (f, .ok a) => k f a
  | (f, .error e) => (f, .error e)

/-- `CHECK_PTR` on a null pointer. -/
def nullPtr : Fault := .raised "#A initialization fail"

/-- `std::bad_alloc`. -/
def badAlloc : Fault := .raised "std::bad_alloc"

/-! ## §2 — the request. -/

/-- The 8 bytes after the header: the record number of a record entry. -/
def WReq.recField (r : WReq) : List UInt8 := r.body.take sizeofOffset

/-- Turn a request into a reference to the request `key` was copied from. The record field goes when
both have the same record. -/
def WReq.refer (r : WReq) (mdsize : MpiOffset) (key : WReq) : WReq :=
  let flag := clearFlag (r.hdr.flag ||| MetaFlag.selRef) MetaFlag.selDeflate
  let full := hasFlag flag MetaFlag.record && hasFlag key.hdr.flag MetaFlag.record &&
    r.recField == key.recField
  let selOff := if full then r.selOff - sizeofOffset else r.selOff
  let off := selOff - sizeofHdr
  { r with
    hdr := { r.hdr with flag := if full then clearFlag flag MetaFlag.record else flag }
    selOff := selOff
    body := r.body.take off ++ putWord sizeofOffset (key.metaOff - mdsize) ++
      r.body.drop (off + sizeofOffset) }

/-- Deduplication: a selection larger than a reference is looked up, and inserted if it is new. The
result has the size its selection has now. -/
def dedup (env : FileEnv) (c : WriteCall) (f : RankFile) (r : WReq) : Outcome (WReq × Nat) :=
  if hasFlag env.config FileConfig.metadataShare ∧ sizeofOffset < r.selsize then
    match env.hash.find f.wreqHash r with
    | some key => (f, .ok (r.refer f.mdsize key, sizeofOffset))
    | none =>
        if c.grants.insert then ({ f with wreqHash := f.wreqHash ++ [r] }, .ok (r, r.selsize))
        else (f, .error badAlloc)
  else (f, .ok (r, r.selsize))

/-- The zip buffer enlarged to hold `selsize` bytes. -/
def growZip (c : WriteCall) (f : RankFile) (selsize : Nat) : RankFile :=
  if f.zbsize.toNat < selsize
  then { f with zbsize := BitVec.ofNat 64 selsize, zbuf := c.grants.zip } else f

/-- `H5VL_log_zip_compress`: it does not ask whether the stream has ended, and returns `true` when the room is full
too. -/
def zipCompress (z : Zlib) (sel : List UInt8) (room : Nat) : Except Fault Bool :=
  match z.compress sel room with
  | .ended _ | .filled => .ok true
  | .cut => .error (.raised "deflateEnd fail")

/-- Compress metadata. The result is used when `H5VL_log_zip_compress` returns `0`, which it never does: what it has
made is discarded. -/
def zipSel (env : FileEnv) (c : WriteCall) (f : RankFile) (r : WReq) (selsize : Nat) :
    Outcome (WReq × Nat) :=
  match env.zlib with
  | none => (f, .ok (r, selsize))
  | some z =>
      if hasFlag r.hdr.flag MetaFlag.selDeflate then
        let grown := growZip c f selsize
        if f.zbsize.toNat < selsize ∧ grown.zbuf = false then (grown, .error nullPtr)
        else if grown.zbuf = false then (grown, .error (.raised "deflate fail"))
        else match zipCompress z (r.selBytes.take selsize) (cInt grown.zbsize.toNat).toNat with
          | .error e => (grown, .error e)
          | .ok _ =>
              (grown, .ok ({ r with hdr := { r.hdr with
                flag := clearFlag r.hdr.flag MetaFlag.selDeflate } }, selsize))
      else (f, .ok (r, selsize))

/-- Resize the metadata buffer if the entry has become smaller. -/
def shrinkReq (c : WriteCall) (f : RankFile) (r : WReq) (selsize : Nat) : Outcome WReq :=
  if ((r.selOff + selsize : Nat) : Int) < r.hdr.metaSize.toInt then
    if c.grants.shrink then (f, .ok (r.resize (r.selOff + selsize))) else (f, .error nullPtr)
  else (f, .ok r)

/-- The request, ready to be queued but for its data. -/
def encodeReq (env : FileEnv) (c : WriteCall) (f : RankFile) (r : WReq) : Outcome WReq :=
  (dedup env c f r).andThen fun f (r, selsize) =>
    (zipSel env c f r selsize).andThen fun f (r, selsize) => shrinkReq c f r selsize

/-! ## §3 — the data. -/

/-- Size of the internal buffer: type conversion is in place, so it holds whichever type is larger. -/
def WriteCall.blockSize (c : WriteCall) (dip : DsetInfo) : HSize :=
  c.sels.getSelSize * (if c.memEsize < dip.esize then dip.esize else c.memEsize)

/-- The user's buffer, or an internal one with the data packed and converted. -/
def takeData (env : FileEnv) (c : WriteCall) (dip : DsetInfo) (f : RankFile) : Outcome DataBlock :=
  let size := c.sels.getSelSize * dip.esize
  if c.inPlace then (f, .ok ⟨c.data, size, none⟩)
  else match balloc env f.bused (c.blockSize dip) c.grants.data with
    | .ok bused => ({ f with bused := bused }, .ok ⟨c.data, size, some (c.blockSize dip)⟩)
    | .error e => (f, .error e)

/-- `H5Z_FILTER_DEFLATE`. -/
def filterDeflate : I32 := 1

/-- **`H5VL_logi_filter`** — deflate is the only filter there is. -/
def runFilters (env : FileEnv) : List Filter → List UInt8 → Except Fault (List UInt8)
  | [], bytes => .ok bytes
  | fl :: fls, bytes =>
      if fl.id = filterDeflate then
        match env.deflate bytes with
        | none => .error (.raised "deflate fail")
        | some out => runFilters env fls out
      else .error (.raised "Filter not supported")

/-- What the filters of a dataset make of a block; its length is passed as an `int`. -/
def filterInput (db : DataBlock) : List UInt8 := db.xbuf.take (db.size.toNat % 2 ^ 32)

/-- Filtering: the block is replaced by an internal buffer with the filtered data. -/
def filterData (env : FileEnv) (c : WriteCall) (dip : DsetInfo) (f : RankFile) (db : DataBlock) :
    Outcome DataBlock :=
  if dip.filters = [] then (f, .ok db)
  else match runFilters env dip.filters (filterInput db) with
    | .error e => (f, .error e)
    | .ok buf =>
        let csize : HSize := BitVec.ofInt 64 (cInt buf.length)
        let bused := releaseBlock f.bused db
        match balloc env bused csize c.grants.filtered with
        | .ok bused => ({ f with bused := bused }, .ok ⟨buf, csize, some csize⟩)
        | .error e => ({ f with bused := bused }, .error e)

/-! ## §4 — the queue. -/

/-- Append to request list. -/
def queueReq (c : WriteCall) (f : RankFile) (r : WReq) (db : DataBlock) : Outcome Unit :=
  if c.grants.push then
    ({ f with
      wreqs := f.wreqs ++ [{ r with hdr := { r.hdr with fsize := db.size }, dbufs := [db] }]
      mdsize := f.mdsize + r.hdr.metaSize.signExtend 64 }, .ok ())
  else (f, .error badAlloc)

/-- The merged request of the dataset, now `m`. -/
def RankFile.setMerged (f : RankFile) (did : Nat) (m : MergedWReq) : RankFile :=
  { f with mreqs := f.mreqs.set did (some m) }

/-- Append to a merged request, already in its slot. Without the memory to grow, its buffer is lost;
without the memory for one more data block, the selection is in but the data is not. -/
def appendMerged (c : WriteCall) (dip : DsetInfo) (f : RankFile) (m : MergedWReq) (db : DataBlock) :
    Outcome Unit :=
  let msize := m.msize dip c.sels
  if m.lost then (f.setMerged c.did m, .error .outside)
  else if m.mbufp + msize.toNat > m.alloc.toNat ∧ c.grants.grow = false then
    match growAlloc (BitVec.ofInt 64 m.hdr.metaSize.toInt + msize) 22 m.alloc with
    | .error e => (f.setMerged c.did m, .error e)
    | .ok alloc => (f.setMerged c.did { m with alloc := alloc, lost := true }, .error nullPtr)
  else match m.append dip db c.sels with
    | .error e => (f.setMerged c.did m, .error e)
    | .ok m' =>
        if c.grants.push then (f.setMerged c.did m', .ok ())
        else (f.setMerged c.did { m' with hdr := m.hdr, dbufs := m.dbufs }, .error badAlloc)

/-- Put request in queue: merged requests are allocated when they are first needed. -/
def enqueue (env : FileEnv) (c : WriteCall) (dip : DsetInfo) (f : RankFile) (r : WReq) (db : DataBlock) :
    Outcome Unit :=
  if hasFlag env.config FileConfig.metadataMerge then
    match f.mreqs[c.did]? with
    | none => (f, .error .outside)
    | some (some m) => appendMerged c dip f m db
    | some none =>
        if c.grants.merged then
          appendMerged c dip f (mergedInit env.config (BitVec.ofNat 32 c.did) dip 1) db
        else (f, .error nullPtr)
  else queueReq c f r db

/-! ## §5 — the call. -/

/-- The stages after the request is made. -/
def writeReq (env : FileEnv) (c : WriteCall) (dip : DsetInfo) (f : RankFile) (r : WReq) : Outcome Unit :=
  (encodeReq env c f r).andThen fun f r =>
    (takeData env c dip f).andThen fun f db =>
      (filterData env c dip f db).andThen fun f db => enqueue env c dip f r db

/-- **`H5VL_log_dataseti_write`**. With `config` equal to `METADATA_MERGE` and nothing else,
`config ^ METADATA_MERGE` is zero and neither `db.ubuf` nor `db.size` is ever set. -/
def datasetWrite (env : FileEnv) (c : WriteCall) (f : RankFile) : Outcome Unit :=
  if c.sels.nsel = 0 then (f, .ok ())
  else if c.hasBuf = false then (f, .error (.raised "user buffer can't be NULL"))
  else match f.dsetsInfo[c.did]? with
    | some (some dip) =>
        if env.config = FileConfig.metadataMerge then (f, .error .outside)
        else if c.grants.request = false then (f, .error nullPtr)
        else match wreqInit env.zlib env.config (BitVec.ofNat 32 c.did) f.mdsize dip c.sels with
          | .error e => (f, .error e)
          | .ok r => writeReq env c dip f r
    | _ => (f, .error .outside)

end LogVol
