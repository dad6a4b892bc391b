/-
# LogVol.WReq — write requests, the metadata entries they carry, and merged requests.

A write request owns the bytes of its metadata entry: the header and a body. `wreqInit` is the
constructor that encodes a selection; `WReq.resize`, `WReq.hash` and `WReq.keyEq` are the operations
the write path uses to shrink an entry and to look it up in the deduplication table. A merged request
collects many writes to one dataset in a single entry that grows as they are appended.
-/
import LogVol.Meta

namespace LogVol

open Lib (putWord putWords getWord)

/-! ## §1 — requests. -/

/-- `H5VL_log_req_data_block_t`: the data of one write. `xbuf` is the content of the I/O buffer when
the request is queued and `size` its length in bytes as the connector recorded it; `pooled` is the size
the buffer was allocated with when it is not the user's own. -/
structure DataBlock where
  xbuf : List UInt8
  size : HSize
  pooled : Option HSize
  deriving DecidableEq, Repr

/-- `H5VL_log_wreq_t`. `meta_buf` is the header followed by `body`; `selOff` is `sel_buf - meta_buf`,
past the record number when there is one. -/
structure WReq where
  hdr : MetaHdr
  body : List UInt8
  selOff : Nat
  nsel : Nat
  metaOff : MpiOffset
  dbufs : List DataBlock
  deriving DecidableEq, Repr

/-- `meta_buf`. -/
def WReq.metaBuf (r : WReq) : List UInt8 := r.hdr.bytes ++ r.body

/-- The bytes from `sel_buf` on. -/
def WReq.selBytes (r : WReq) : List UInt8 := r.metaBuf.drop r.selOff

/-! ## §2 — the constructor. -/

/-- The record number of a record write: the first dimension is unlimited and every block covers the
same single index of it. -/
def recordOf (dip : DsetInfo) (sels : Selections) : Option HSize :=
  match sels.sels with
  | [] => none
  | b :: _ =>
      let recnum := b.start.getD 0 0
      if dip.mdims.head? = some unlimited ∧
          ∀ b ∈ sels.sels, b.count.getD 0 0 = 1 ∧ b.start.getD 0 0 = recnum
      then some recnum else none

/-- Number of dimensions stored: all, or all but the record dimension. -/
def encdimOf (dip : DsetInfo) (recnum : Option HSize) : Nat :=
  if recnum.isSome then dip.ndim - 1 else dip.ndim

/-- The first dimension stored. -/
def dimoffOf (recnum : Option HSize) : Nat := if recnum.isSome then 1 else 0

/-- The flags of a new entry. -/
def wreqFlag (z : Option Zlib) (config : I32) (dip : DsetInfo) (sels : Selections) : I32 :=
  let recnum := recordOf dip sels
  let multi := decide (1 < sels.nsel)
  orIf (multi && z.isSome && hasFlag config FileConfig.selDeflate) MetaFlag.selDeflate <|
  orIf (multi && decide (1 < encdimOf dip recnum) && hasFlag config FileConfig.selEncode)
    MetaFlag.selEncode <|
  orIf multi MetaFlag.mulSel <|
  orIf recnum.isSome MetaFlag.record 0

/-- `mbsize`: the factor in parentheses is an `int`, the rest is a `size_t`. -/
def wreqMbsize (flag : I32) (encdim nsel : Nat) : HSize :=
  let words : Int := if hasFlag flag MetaFlag.selEncode
    then cInt ((encdim : Int) - 1 + nsel * 2) else cInt ((encdim : Int) * nsel * 2)
  BitVec.ofNat 64 sizeofHdr +
    (if hasFlag flag MetaFlag.record then BitVec.ofNat 64 sizeofOffset else 0) +
    (if hasFlag flag MetaFlag.mulSel then BitVec.ofNat 64 sizeofInt else 0) +
    BitVec.ofNat 64 sizeofOffset * BitVec.ofInt 64 words

/-- What the constructor writes after the header: record number, block count, steps, selection. -/
def wreqBody (flag : I32) (dip : DsetInfo) (sels : Selections) (recnum : Option HSize) : List UInt8 :=
  let encdim := encdimOf dip recnum
  let dimoff := if hasFlag flag MetaFlag.record then 1 else 0
  (if hasFlag flag MetaFlag.record then putWord sizeofOffset (recnum.getD 0) else []) ++
  (if hasFlag flag MetaFlag.mulSel then putWord sizeofInt (BitVec.ofNat 32 sels.nsel) else []) ++
  (if hasFlag flag MetaFlag.selEncode then
    putWords sizeofOffset ((dip.dsteps.drop (dip.ndim - encdim)).take (encdim - 1)) ++
      sels.encode (some dip.dsteps) dimoff
  else sels.encode none dimoff)

/-- **`H5VL_log_wreq_t (dset, sels)`** — `outside` when the allocation of `mbsize` bytes does not hold
what is written into it. The file offset and size of the data are not known yet. -/
def wreqInit (z : Option Zlib) (config : I32) (id : I32) (mdsize : MpiOffset) (dip : DsetInfo)
    (sels : Selections) : Except Fault WReq :=
  let recnum := recordOf dip sels
  let flag := wreqFlag z config dip sels
  let mbsize := wreqMbsize flag (encdimOf dip recnum) sels.nsel
  let body := wreqBody flag dip sels recnum
  if mbsize.toNat ≠ sizeofHdr + body.length then .error .outside
  else .ok {
    hdr := { metaSize := mbsize.setWidth 32, did := id, flag := flag, foff := 0, fsize := 0 }
    body := body
    selOff := if hasFlag flag MetaFlag.record then sizeofHdr + sizeofOffset else sizeofHdr
    nsel := sels.nsel
    metaOff := mdsize
    dbufs := [] }

/-! ## §3 — shrinking and comparing entries. -/

/-- `resize`: keep the first `size` bytes of `meta_buf` and record the size. -/
def WReq.resize (r : WReq) (size : Nat) : WReq :=
  { r with
    body := r.body.take (size - sizeofHdr)
    hdr := { r.hdr with metaSize := BitVec.ofNat 32 size } }

/-- `meta_size - (sel_buf - meta_buf)`: the number of bytes of the selection. -/
def WReq.selsize (r : WReq) : Nat := (r.hdr.metaSize.toInt - r.selOff).toNat

/-- `std::hash`: exclusive or of the whole 8-byte words of the selection. -/
def WReq.hash (r : WReq) : HSize :=
  (List.range (r.selsize / 8)).foldl (fun h i => h ^^^ getWord 64 ((r.selBytes.drop (8 * i)).take 8)) 0

/-- `operator==`: equal sizes, and the bytes of the left side's selection equal as many bytes of the
right side's. `beyond` is what memory holds after the right side's buffer. -/
def WReq.keyEq (beyond : List UInt8) (l r : WReq) : Bool :=
  l.hdr.metaSize == r.hdr.metaSize &&
    l.selBytes.take l.selsize == (r.selBytes ++ beyond).take l.selsize

/-! ## §4 — merged requests. -/

/-- `H5VL_log_merged_wreq_t`: `packed` is what was written after the block count, `mbufp` the offset of
the next byte in `meta_buf`, `alloc` the size of its allocation. A failed `realloc` replaces `meta_buf`
by a null pointer: the buffer is then `lost`. -/
structure MergedWReq where
  hdr : MetaHdr
  nsel : I32
  packed : List UInt8
  mbufp : Int
  alloc : HSize
  lost : Bool
  dbufs : List DataBlock
  deriving DecidableEq, Repr

/-- The bytes written to `meta_buf`. -/
def MergedWReq.metaBuf (m : MergedWReq) : List UInt8 :=
  m.hdr.bytes ++ (putWord sizeofInt m.nsel ++ m.packed)

/-- The entry that is written out: `meta_size` bytes of `meta_buf`. -/
def MergedWReq.entry (m : MergedWReq) : List UInt8 := m.metaBuf.take m.hdr.metaSize.toInt.toNat

/-- Number of selections a merged request reserves space for when it is made. -/
def mergedReqSelReserve : Nat := 32

/-- The allocation grows by this shift. -/
def mergedReqSelMul : Nat := 3

/-- `init (fp, id, nsel)`. The steps are packed when the flags contain the bit
`H5VL_FILEI_CONFIG_SEL_ENCODE` of the other enumeration, which `init` never sets. -/
def mergedInit (config id : I32) (dip : DsetInfo) (nsel : Nat) : MergedWReq :=
  let nsel := max nsel mergedReqSelReserve
  let encode := decide (1 < dip.ndim) && hasFlag config FileConfig.selEncode
  let flag := orIf (hasFlag config FileConfig.selDeflate) MetaFlag.selDeflate <|
    orIf encode MetaFlag.selEncode MetaFlag.mulSel
  let words : Nat := if encode then 2 * nsel + dip.ndim else dip.ndim * 2 * nsel
  let steps := if hasFlag flag FileConfig.selEncode
    then putWords sizeofOffset (dip.dsteps.take (dip.ndim - 1)) else []
  let mbufp := sizeofHdr + sizeofInt + steps.length
  { hdr := { metaSize := BitVec.ofNat 32 mbufp, did := id, flag := flag, foff := 0, fsize := 0 }
    nsel := 0
    packed := steps
    mbufp := mbufp
    alloc := BitVec.ofNat 64 (sizeofHdr + sizeofInt + sizeofOffset * words)
    lost := false
    dbufs := [] }

/-- `while (meta_size_alloc < target) meta_size_alloc <<= 3`; shifted 22 times a size is zero, and the
loop no longer ends. -/
def growAlloc (target : HSize) : Nat → HSize → Except Fault HSize
  | 0, alloc => if alloc < target then .error .diverged else .ok alloc
  | fuel + 1, alloc =>
      if alloc < target then growAlloc target fuel (alloc <<< mergedReqSelMul) else .ok alloc

/-- `reserve (size)`: make room for `size` more bytes. -/
def MergedWReq.reserve (m : MergedWReq) (size : HSize) : Except Fault MergedWReq :=
  if m.mbufp + size.toNat > m.alloc.toNat then do
    let alloc ← growAlloc (BitVec.ofInt 64 m.hdr.metaSize.toInt + size) 22 m.alloc
    pure { m with alloc := alloc, mbufp := m.hdr.metaSize.toInt }
  else pure m

/-- Write `bytes` at offset `mbufp` of `meta_buf`, past the header and the block count. -/
def MergedWReq.write (m : MergedWReq) (bytes : List UInt8) : Except Fault (List UInt8) :=
  let off := m.mbufp - (sizeofHdr + sizeofInt)
  if off < 0 ∨ m.mbufp + bytes.length > m.alloc.toNat then .error .outside
  else .ok (m.packed.take off.toNat ++ bytes ++ m.packed.drop (off.toNat + bytes.length))

/-- `msize`: whether offsets or coordinates are packed is again decided by
`H5VL_FILEI_CONFIG_SEL_ENCODE`; the product that gives the size starts with the `int` `nsel * 2`. -/
def MergedWReq.msize (m : MergedWReq) (dip : DsetInfo) (sels : Selections) : HSize :=
  let two := BitVec.ofInt 64 (cInt (sels.nsel * 2))
  if hasFlag m.hdr.flag FileConfig.selEncode then two * BitVec.ofNat 64 sizeofOffset
  else two * BitVec.ofNat 64 sizeofOffset * BitVec.ofNat 64 dip.ndim

/-- **`append (dp, db, sels)`** — pack one more selection and its data, with all the memory it asks
for. -/
def MergedWReq.append (m : MergedWReq) (dip : DsetInfo) (db : DataBlock) (sels : Selections) :
    Except Fault MergedWReq := do
  let msize := m.msize dip sels
  let dsteps := if hasFlag m.hdr.flag FileConfig.selEncode then some dip.dsteps else none
  let m ← m.reserve msize
  let packed ← m.write (sels.encode dsteps 0)
  let mbufp := m.mbufp + msize.toInt
  pure { m with
    packed := packed
    mbufp := mbufp
    nsel := m.nsel + BitVec.ofNat 32 sels.nsel
    dbufs := m.dbufs ++ [db]
    hdr := { m.hdr with fsize := m.hdr.fsize + db.size, metaSize := BitVec.ofInt 32 mbufp } }

/-- A merged request made by the write path, with every write of a sequence appended to it. -/
def mergedOf (config id : I32) (dip : DsetInfo) (writes : List (DataBlock × Selections)) :
    Except Fault MergedWReq :=
  writes.foldlM (fun m w => m.append dip w.1 w.2) (mergedInit config id dip 1)

end LogVol
