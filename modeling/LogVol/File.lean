/-
# LogVol.File — the state of an open file on one process.

`RankFile` is what the write path changes: the queue of requests and how many of them have their data
in the file, the merged request of every dataset, the deduplication table, and the account of buffer
space. `FileEnv` is what it does not change. `balloc` and `bfree` keep the account.
-/
import LogVol.WReq

namespace LogVol

/-! ## §1 — state. -/

/-- `find` of the deduplication table, a `std::unordered_map` keyed by requests: it returns a key it
holds that the request looked up equals, and does return one when some such key has the same hash. What
lies behind the buffer of a key is compared when the request is the longer of the two, and is
`beyond`. -/
structure HashFind where
  beyond : WReq → List UInt8
  find : List WReq → WReq → Option WReq
  sound : ∀ {table r key}, find table r = some key → key ∈ table ∧ r.keyEq (beyond key) key = true
  complete : ∀ {table r key}, key ∈ table → r.keyEq (beyond key) key = true → r.hash = key.hash →
    (find table r).isSome

/-- A table searched from its start, with nothing behind the buffers of its keys. -/
def HashFind.scan : HashFind where
  beyond := fun _ => []
  find := fun table r => table.find? (r.keyEq [])
  sound := fun h => ⟨List.mem_of_find?_eq_some h, List.find?_some h⟩
  complete := fun hmem heq _ => List.find?_isSome.mpr ⟨_, hmem, heq⟩

/-- What is fixed while a file is open: whether metadata compression is built in, the deflate of the
filter pipeline (`none` when it fails), the `config` field, the limit on buffered data (`none` for
`LOG_VOL_BSIZE_UNLIMITED`), and the hash table's search. -/
structure FileEnv where
  zlib : Option Zlib
  deflate : List UInt8 → Option (List UInt8)
  config : I32
  bsize : Option Nat
  hash : HashFind

/-- The fields of `H5VL_log_file_t` that the write path works on. The dataset table holds a null
pointer for a dataset that is not open; a key of `wreqHash` stands for itself and for the request it was
copied from; `zbuf` is whether the zip buffer of `zbsize` bytes is there. `nflushed` is an `int`, which holds the
number as a flush of more requests does not end well (`flushWriteReqs_nflushed_lt`). -/
structure RankFile where
  dsetsInfo : List (Option DsetInfo)
  wreqs : List WReq
  nflushed : Nat
  mreqs : List (Option MergedWReq)
  mdsize : MpiOffset
  wreqHash : List WReq
  bused : HSize
  zbsize : HSize
  zbuf : Bool
  nldset : I32
  metadirty : Bool

/-! ## §2 — the account of buffer space. -/

/-- `H5VL_log_filei_balloc`: `bused` after the allocation. `mallocOk` is whether the system has the
memory. -/
def balloc (env : FileEnv) (bused size : HSize) (mallocOk : Bool) : Except Fault HSize :=
  if env.bsize.any fun limit => limit < (bused + size).toNat then .error (.raised "Out of buffer")
  else if !mallocOk then .error (.raised "OOM")
  else .ok (bused + size)

/-- `H5VL_log_filei_bfree`: give back what the buffer was allocated with. -/
def bfree (bused : HSize) (pooled : HSize) : HSize := bused - pooled

/-- Release the buffer of a data block, unless it is the user's. -/
def releaseBlock (bused : HSize) (d : DataBlock) : HSize := d.pooled.elim bused (bfree bused)

/-! ## §3 — merged requests join the queue. -/

/-- A merged request seen as a request: its block count is the first field of its body, and it has no
`meta_off`. Of a lost buffer there is nothing left to write. -/
def MergedWReq.toWReq (m : MergedWReq) : WReq :=
  { hdr := m.hdr
    body := if m.lost then [] else Lib.putWord sizeofInt m.nsel ++ m.packed
    selOff := sizeofHdr
    nsel := m.nsel.toNat
    metaOff := 0
    dbufs := m.dbufs }

/-- The merged request of a dataset, if it has one with a selection in it. -/
def pendingMerged (m : Option MergedWReq) : Option MergedWReq :=
  m.filter fun m => 0 < m.nsel.toInt

/-- Flush all merged requests: they move to the end of the queue. -/
def RankFile.flushMerged (f : RankFile) : RankFile :=
  let pending := f.mreqs.filterMap pendingMerged
  { f with
    wreqs := f.wreqs ++ pending.map MergedWReq.toWReq
    mdsize := pending.foldl (fun n m => n + m.hdr.metaSize.signExtend 64) f.mdsize
    mreqs := f.mreqs.map fun m => if (pendingMerged m).isSome then none else m }

end LogVol
