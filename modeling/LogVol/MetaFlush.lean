/-
# LogVol.MetaFlush — what a metadata flush writes.

The metadata buffers of all requests of a group go into one metadata dataset: first the decomposition
map, in the section of the group's first process, then the entries process by process. `metadataDataset`
is the content of the dataset; `RankFile.metaflushed` is the file of a process afterwards, with every
request deleted, whether its data was flushed or not.
-/
import LogVol.FlushWrite

namespace LogVol

open Lib (putWords)

/-! ## §1 — one process. -/

/-- The bytes the memory type covers of one metadata buffer; its length is `(int) meta_size`. -/
def WReq.metaTypeBytes (passthru : Bool) (r : WReq) : Except Fault (List UInt8) :=
  let len := r.hdr.metaSize.toInt
  if len < 0 then .error (if passthru then .outside else .raised "MPI_ERR_ARG")
  else if (r.metaBuf.length : Int) < len then .error .outside
  else .ok (r.metaBuf.take len.toNat)

/-- What a process has to write, besides the decomposition map. -/
structure LocalMeta where
  bytes : List UInt8
  mdsize : MpiOffset

/-- Gather offset and lens. -/
def localMeta (config : I32) (f : RankFile) : Except Fault LocalMeta := do
  let entries ← f.wreqs.mapM (WReq.metaTypeBytes (hasFlag config FileConfig.passthru))
  pure ⟨entries.flatten, (f.wreqs.map fun r => r.hdr.metaSize.signExtend 64).sum⟩

/-- Delete requests, and record that the metadata is clean. -/
def RankFile.metaflushed (f : RankFile) : RankFile :=
  { f with wreqs := [], nflushed := 0, metadirty := false, mdsize := 0, wreqHash := [] }

/-! ## §2 — one group. -/

/-- The size of the decomposition map of a group of `np` processes. -/
def mapSize (np : Nat) : HSize := BitVec.ofNat 64 (sizeofOffset * (np + 1))

/-- `mdoffs`: the number of sections, and where each section ends in the dataset. -/
def decompMap (sizes : List MpiOffset) : List MpiOffset :=
  BitVec.ofNat 64 sizes.length ::
    (sizes.inits.tail.map fun before => mapSize sizes.length + before.sum)

/-- The bytes of a metadata dataset. -/
def metadataDataset (locals : List LocalMeta) : List UInt8 :=
  putWords sizeofOffset (decompMap (locals.map LocalMeta.mdsize)) ++ locals.flatMap LocalMeta.bytes

/-! ## §3 — requests whose entries can be written. -/

/-- An entry as long as its header says is written as it is. -/
theorem metaTypeBytes_eq {passthru : Bool} {r : WReq}
    (hsize : (r.metaBuf.length : Int) = r.hdr.metaSize.toInt) :
    r.metaTypeBytes passthru = .ok r.metaBuf := by
  rw [WReq.metaTypeBytes]
  simp only [← hsize]
  rw [if_neg (by omega), if_neg (by omega), Int.toNat_natCast, List.take_length]

/-- Moving the data of a request leaves the size of its entry. -/
theorem SameBut.metaTypeBytes_isOk {r r' : WReq} (h : r.SameBut r') (passthru : Bool) :
    (r'.metaTypeBytes passthru).isOk = (r.metaTypeBytes passthru).isOk := by
  obtain ⟨foff, rfl⟩ := h
  have hlen : ({ r with hdr := { r.hdr with foff := foff } } : WReq).metaBuf.length =
      r.metaBuf.length := by
    rw [WReq.metaBuf, WReq.metaBuf, List.length_append, List.length_append, MetaHdr.bytes_length,
      MetaHdr.bytes_length]
  rw [WReq.metaTypeBytes, WReq.metaTypeBytes]
  simp only [hlen]
  split
  · rfl
  · split
    · rfl
    · rfl

end LogVol
