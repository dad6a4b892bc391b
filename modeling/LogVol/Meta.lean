/-
# LogVol.Meta — the metadata entry and its decoder.

An entry is a packed header followed by a body: an optional record number, an optional block count,
and the selection in one of the two layouts of `Selections.encode`. `metaentryDecode` follows the
source's reads one by one, on the bytes from the start of the entry to the end of the buffer that
holds it; running past that end is the fault `outside`. The entry's own `meta_size` bounds none of
the reads, so how much a decode consumes is part of its result.
-/
import LogVol.Dataspace
import LogVol.Lib.Reader

namespace LogVol

open Lib (Reader Reads Yields putWord takeWord takeMany failWith pureExcept)

/-! ## §1 — the header. -/

/-- `H5VL_logi_meta_hdr`. -/
structure MetaHdr where
  metaSize : I32
  did : I32
  flag : I32
  foff : MpiOffset
  fsize : MpiOffset
  deriving DecidableEq, Repr

/-- The bytes of the packed header. -/
def MetaHdr.bytes (h : MetaHdr) : List UInt8 :=
  putWord sizeofInt h.metaSize ++ putWord sizeofInt h.did ++ putWord sizeofInt h.flag ++
    putWord sizeofOffset h.foff ++ putWord sizeofOffset h.fsize

@[simp] theorem MetaHdr.bytes_length (h : MetaHdr) : h.bytes.length = sizeofHdr := by
  simp only [MetaHdr.bytes, List.length_append, Lib.putWord_length, sizeofInt, sizeofOffset,
    sizeofHdr]

/-- `*((int *)bufp)`, and advance. -/
def readInt : Reader Fault I32 := takeWord .outside sizeofInt 32

/-- `*((MPI_Offset *)bufp)`, and advance. -/
def readOffset : Reader Fault MpiOffset := takeWord .outside sizeofOffset 64

theorem readInt_reads (v : I32) : Reads readInt (putWord sizeofInt v) v :=
  Reads.takeWord (by decide) v

theorem readOffset_reads (v : MpiOffset) : Reads readOffset (putWord sizeofOffset v) v :=
  Reads.takeWord (by decide) v

/-- `block.hdr = *((H5VL_logi_meta_hdr *)bufp)`. -/
def readHdr : Reader Fault MetaHdr := do
  let metaSize ← readInt
  let did ← readInt
  let flag ← readInt
  let foff ← readOffset
  let fsize ← readOffset
  pure ⟨metaSize, did, flag, foff, fsize⟩

theorem readHdr_reads (h : MetaHdr) : Reads readHdr h.bytes h := by
  have hbytes : h.bytes = putWord sizeofInt h.metaSize ++ (putWord sizeofInt h.did ++
      (putWord sizeofInt h.flag ++ (putWord sizeofOffset h.foff ++
      (putWord sizeofOffset h.fsize ++ [])))) := by
    simp only [MetaHdr.bytes, List.append_assoc, List.append_nil]
  rw [hbytes]
  unfold readHdr
  refine (readInt_reads h.metaSize).bind ?_
  refine (readInt_reads h.did).bind ?_
  refine (readInt_reads h.flag).bind ?_
  refine (readOffset_reads h.foff).bind ?_
  exact (readOffset_reads h.fsize).bind (Reads.pure h)

/-! ## §2 — decoded entries. -/

/-- `H5VL_logi_metasel_t`: a block and the offset of its data within the entry's data. -/
structure MetaSel where
  start : List HSize
  count : List HSize
  doff : MpiOffset
  deriving DecidableEq, Repr

def MetaSel.block (s : MetaSel) : Block := ⟨s.start, s.count⟩

/-- `H5VL_logi_metaentry_t`. -/
structure MetaEntry where
  hdr : MetaHdr
  sels : List MetaSel
  dsize : HSize
  deriving DecidableEq, Repr

/-- The bytes of a block of `count` elements: `esize` times each count in turn. -/
def blockBytes (esize : HSize) (count : List HSize) : HSize := count.foldl (· * ·) esize

/-- Lay blocks one after another: each starts where the data of the one before it ends. -/
def placeSels (esize : HSize) : MpiOffset → List Block → List MetaSel
  | _, [] => []
  | doff, b :: bs => ⟨b.start, b.count, doff⟩ :: placeSels esize (blockBytes esize b.count + doff) bs

@[simp] theorem placeSels_block (esize : HSize) (doff : MpiOffset) (bs : List Block) :
    (placeSels esize doff bs).map MetaSel.block = bs := by
  induction bs generalizing doff with
  | nil => rfl
  | cons b bs ih => rw [placeSels, List.map_cons, ih, MetaSel.block]

@[simp] theorem placeSels_length (esize : HSize) (doff : MpiOffset) (bs : List Block) :
    (placeSels esize doff bs).length = bs.length := by
  rw [← List.length_map (f := MetaSel.block), placeSels_block]

/-- Data size of an entry: the data offset of the last block plus the size of that block, taken over
its first `encdim` dimensions. -/
def lastBlockEnd (esize : HSize) (encdim : Nat) (sels : List MetaSel) : Except Fault HSize :=
  match sels.getLast? with
  | none => .error .outside
  | some s => .ok (blockBytes esize (s.count.take encdim) + s.doff)

theorem lastBlockEnd_ok (esize : HSize) (encdim : Nat) {sels : List MetaSel} (h : sels ≠ []) :
    ∃ dsize, lastBlockEnd esize encdim sels = .ok dsize :=
  ⟨_, by rw [lastBlockEnd, List.getLast?_eq_some_getLast h]⟩

/-- The block read from an entry: a record entry has the record number as its first start, and a first
count of one. -/
def mkBlock (recnum : Option HSize) (start count : List HSize) : Block :=
  match recnum with
  | some rec => ⟨rec :: start, 1 :: count⟩
  | none => ⟨start, count⟩

/-! ## §3 — the decoder. -/

/-- What `deflate` with `Z_FINISH`, and then `deflateEnd`, make of a buffer in the room they are given: the stream
ends; the room is full when all of the buffer has been taken in, with which both are content (`Z_OK`); or
`deflateEnd` finds that some of it has not (`Z_DATA_ERROR`). -/
inductive Deflated
  | ended (out : List UInt8)
  | filled
  | cut
  deriving DecidableEq, Repr

/-- zlib, as the connector calls it: `deflate` and `inflate` of a whole buffer into one of the given
capacity; `decompress` has no result when `inflate` does not end the stream. -/
structure Zlib where
  compress : List UInt8 → Nat → Deflated
  decompress : List UInt8 → Nat → Option (List UInt8)

/-- `inflate` into a new buffer of `size` bytes: there is none of a negative size, and zlib refuses a null pointer. -/
def Zlib.inflate (z : Zlib) (bytes : List UInt8) (size : Int) : Option (List UInt8) :=
  if size < 0 then none else z.decompress bytes size.toNat

theorem Zlib.inflate_eq (z : Zlib) (bytes : List UInt8) {size : Int} (h : 0 ≤ size) :
    z.inflate bytes size = z.decompress bytes size.toNat := if_neg (not_lt.mpr h)

/-- `n` words of 8 bytes (`memcpy` of `sizeof (MPI_Offset) * n`); a negative `n` asks for more memory
than there is. -/
def readOffsets (n : Int) : Reader Fault (List MpiOffset) :=
  if n < 0 then failWith .outside else takeMany readOffset n.toNat

theorem readOffsets_reads {vs : List MpiOffset} {n : Int} (hn : n = vs.length) :
    Reads (readOffsets n) (Lib.putWords sizeofOffset vs) vs := by
  subst hn
  rw [readOffsets, if_neg (by omega), Int.toNat_natCast]
  exact Reads.takeWords (by decide) rfl

/-- The next `n` bytes, or as many as there are; a negative length is a huge unsigned one. -/
def takeAtMost (n : Int) : Reader Fault (List UInt8) := fun bs =>
  if n < 0 then .ok (bs, []) else .ok (bs.take n.toNat, bs.drop n.toNat)

/-- One start or one count: an offset to split, or `encdim` coordinates. -/
def readCords (encoded : Bool) (encdim : Int) (dsteps : List MpiOffset) : Reader Fault (List HSize) := do
  if encoded then
    let off ← readOffset
    pureExcept (selDecode dsteps off)
  else
    readOffsets encdim

/-- Entry size must be > 0. -/
def checkMetaSize (hdr : MetaHdr) : Reader Fault Unit :=
  if hdr.metaSize.toInt ≤ 0 then failWith (.raised "Invalid metadata entry") else pure ()

/-- The record number, if it is a record entry. -/
def readRecnum (flag : I32) : Reader Fault (Option HSize) :=
  if hasFlag flag MetaFlag.record then some <$> readOffset else pure none

/-- Number of dimensions encoded: `ndim`, or `ndim - 1` in a record entry. -/
def encdimRead (dset : DsetInfo) (recnum : Option HSize) : Int :=
  if recnum.isSome then (dset.ndim : Int) - 1 else dset.ndim

/-- The encoding steps: all but the last are stored, and the last is `1`. -/
def readSteps (flag : I32) (encdim : Int) : Reader Fault (List MpiOffset) :=
  if hasFlag flag MetaFlag.selEncode then (· ++ [1]) <$> readOffsets (encdim - 1) else pure []

/-- `block.sels.resize (nsel)`. -/
def checkNsel (nsel : Int) : Reader Fault Unit :=
  if nsel < 0 then failWith (.raised "vector::_M_default_append") else pure ()

/-- Retrieve the steps, the starts and the counts, and lay out the blocks. -/
def readSels (dset : DsetInfo) (hdr : MetaHdr) (recnum : Option HSize) (nsel : Int) :
    Reader Fault (MetaEntry × List MpiOffset) := do
  let encoded := hasFlag hdr.flag MetaFlag.selEncode
  let encdim := encdimRead dset recnum
  let dsteps ← readSteps hdr.flag encdim
  checkNsel nsel
  let starts ← takeMany (readCords encoded encdim dsteps) nsel.toNat
  let counts ← takeMany (readCords encoded encdim dsteps) nsel.toNat
  let sels := placeSels dset.esize 0 (List.zipWith (mkBlock recnum) starts counts)
  let dsize ← pureExcept (lastBlockEnd dset.esize encdim.toNat sels)
  pure (⟨hdr, sels, dsize⟩, dsteps)

/-- Size of the decompressed selection: steps, starts and counts, or the coordinates. -/
def unzippedSize (flag : I32) (encdim nsel : Int) : Int :=
  if hasFlag flag MetaFlag.selEncode
  then sizeofOffset * (encdim - 1) + sizeofOffset * 2 * nsel
  else sizeofOffset * 2 * encdim * nsel

/-- If the rest of the entry is compressed, decompress it first. -/
def unpackSels (z : Option Zlib) (dset : DsetInfo) (hdr : MetaHdr) (recnum : Option HSize)
    (nsel : Int) : Reader Fault (MetaEntry × List MpiOffset) :=
  if hasFlag hdr.flag MetaFlag.selDeflate then
    match z with
    | none => failWith (.raised "Compressed Metadata Support Not Enabled")
    | some z => do
        let inBytes ← takeAtMost (hdr.metaSize.toInt - sizeofHdr - sizeofInt)
        match z.inflate inBytes (unzippedSize hdr.flag (encdimRead dset recnum) nsel) with
        | none => failWith (.raised "inflate fail")
        | some zbuf => pureExcept (((readSels dset hdr recnum nsel).run zbuf).map (·.1))
  else readSels dset hdr recnum nsel

theorem unpackSels_plain {z : Option Zlib} {dset : DsetInfo} {hdr : MetaHdr}
    {recnum : Option HSize} {nsel : Int} (h : hasFlag hdr.flag MetaFlag.selDeflate = false) :
    unpackSels z dset hdr recnum nsel = readSels dset hdr recnum nsel := by
  unfold unpackSels
  rw [h]
  rfl

/-- The blocks: more than one selection is announced by a count, and may be compressed. -/
def readBlocks (z : Option Zlib) (dset : DsetInfo) (hdr : MetaHdr) (recnum : Option HSize) :
    Reader Fault (MetaEntry × List MpiOffset) :=
  if hasFlag hdr.flag MetaFlag.mulSel then do
    let nsel ← readInt
    unpackSels z dset hdr recnum nsel.toInt
  else readSels dset hdr recnum 1

/-- **`H5VL_logi_metaentry_decode`**, with the steps it found in the entry. -/
def metaentryDecodeSteps (z : Option Zlib) (dset : DsetInfo) :
    Reader Fault (MetaEntry × List MpiOffset) := do
  let hdr ← readHdr
  checkMetaSize hdr
  let recnum ← readRecnum hdr.flag
  readBlocks z dset hdr recnum

/-- **`H5VL_logi_metaentry_decode`** — the entry at the front of `ent`. -/
def metaentryDecode (z : Option Zlib) (dset : DsetInfo) (ent : List UInt8) : Except Fault MetaEntry :=
  ((metaentryDecodeSteps z dset).run ent).map (·.1.1)

theorem readSels_hdr {dset : DsetInfo} {hdr : MetaHdr} {recnum : Option HSize} {n : Int}
    {bytes rest : List UInt8} {out : MetaEntry × List MpiOffset}
    (h : (readSels dset hdr recnum n).run bytes = .ok (out, rest)) : out.1.hdr = hdr := by
  rw [readSels, Lib.run_bind_eq_ok] at h
  obtain ⟨dsteps, mid, -, h⟩ := h
  obtain ⟨-, mid, -, h⟩ := Lib.run_bind_eq_ok.mp h
  obtain ⟨starts, mid, -, h⟩ := Lib.run_bind_eq_ok.mp h
  obtain ⟨counts, mid, -, h⟩ := Lib.run_bind_eq_ok.mp h
  obtain ⟨dsize, mid, -, h⟩ := Lib.run_bind_eq_ok.mp h
  obtain ⟨rfl, -⟩ := Prod.mk.inj (Except.ok.inj h)
  rfl

/-- What is unpacked has been read as selections, out of the entry or out of what it holds compressed. -/
theorem unpackSels_readSels {z : Option Zlib} {dset : DsetInfo} {hdr : MetaHdr} {recnum : Option HSize}
    {n : Int} {bytes rest : List UInt8} {out : MetaEntry × List MpiOffset}
    (h : (unpackSels z dset hdr recnum n).run bytes = .ok (out, rest)) :
    ∃ bytes' rest', (readSels dset hdr recnum n).run bytes' = .ok (out, rest') := by
  unfold unpackSels at h
  split at h
  · split at h
    · cases h
    · obtain ⟨inBytes, mid, -, h⟩ := Lib.run_bind_eq_ok.mp h
      split at h
      · cases h
      · rename_i zbuf _
        obtain ⟨hmap, -⟩ := Lib.run_pureExcept_eq_ok.mp h
        cases hrun : (readSels dset hdr recnum n).run zbuf with
        | error e => rw [hrun] at hmap; cases hmap
        | ok v =>
            rw [hrun] at hmap
            obtain rfl := Except.ok.inj hmap
            exact ⟨zbuf, v.2, hrun⟩
  · exact ⟨bytes, rest, h⟩

theorem unpackSels_entry_hdr {z : Option Zlib} {dset : DsetInfo} {hdr : MetaHdr} {recnum : Option HSize}
    {n : Int} {bytes rest : List UInt8} {out : MetaEntry × List MpiOffset}
    (h : (unpackSels z dset hdr recnum n).run bytes = .ok (out, rest)) : out.1.hdr = hdr := by
  obtain ⟨_, _, hread⟩ := unpackSels_readSels h
  exact readSels_hdr hread

/-- What a decoded entry was read from, behind its header and its record number. -/
theorem metaentryDecodeSteps_readSels {z : Option Zlib} {dset : DsetInfo} {bytes rest : List UInt8}
    {out : MetaEntry × List MpiOffset} (h : (metaentryDecodeSteps z dset).run bytes = .ok (out, rest)) :
    ∃ mid mid' recnum, readHdr.run bytes = .ok (out.1.hdr, mid) ∧ 0 < out.1.hdr.metaSize.toInt ∧
      (readRecnum out.1.hdr.flag).run mid = .ok (recnum, mid') ∧
      ∃ n bytes' rest', (readSels dset out.1.hdr recnum n).run bytes' = .ok (out, rest') := by
  obtain ⟨hdr, mid, hhdr, h⟩ := Lib.run_bind_eq_ok.mp h
  obtain ⟨_, mid₁, hcheck, h⟩ := Lib.run_bind_eq_ok.mp h
  obtain ⟨recnum, mid₂, hrec, h⟩ := Lib.run_bind_eq_ok.mp h
  have hread : ∃ n bytes' rest', (readSels dset hdr recnum n).run bytes' = .ok (out, rest') := by
    unfold readBlocks at h
    split at h
    · obtain ⟨nsel, mid₃, -, h⟩ := Lib.run_bind_eq_ok.mp h
      exact ⟨_, unpackSels_readSels h⟩
    · exact ⟨1, _, _, h⟩
  have hout : out.1.hdr = hdr := by
    obtain ⟨n, bytes', rest', hread⟩ := hread
    exact readSels_hdr hread
  have hpos : 0 < hdr.metaSize.toInt := by
    by_contra hle
    rw [checkMetaSize, if_pos (by omega)] at hcheck
    cases hcheck
  rw [checkMetaSize, if_neg (by omega)] at hcheck
  obtain ⟨-, rfl⟩ := Prod.mk.inj (Except.ok.inj hcheck)
  rw [hout]
  exact ⟨mid, mid₂, recnum, hhdr, hpos, hrec, hread⟩

/-- **A decoded entry carries the header it was read with**, and a positive size. -/
theorem metaentryDecodeSteps_hdr {z : Option Zlib} {dset : DsetInfo} {bytes rest : List UInt8}
    {out : MetaEntry × List MpiOffset} (h : (metaentryDecodeSteps z dset).run bytes = .ok (out, rest)) :
    ∃ mid, readHdr.run bytes = .ok (out.1.hdr, mid) ∧ 0 < out.1.hdr.metaSize.toInt := by
  obtain ⟨mid, _, _, hhdr, hpos, _⟩ := metaentryDecodeSteps_readSels h
  exact ⟨mid, hhdr, hpos⟩

theorem readSels_rec {dset : DsetInfo} {hdr : MetaHdr} {recnum : HSize} {n : Int}
    {bytes rest : List UInt8} {out : MetaEntry × List MpiOffset}
    (h : (readSels dset hdr (some recnum) n).run bytes = .ok (out, rest)) :
    (out.1.sels.head?.bind fun s => s.start.head?) = some recnum := by
  rw [readSels, Lib.run_bind_eq_ok] at h
  obtain ⟨dsteps, mid, -, h⟩ := h
  obtain ⟨-, mid, -, h⟩ := Lib.run_bind_eq_ok.mp h
  obtain ⟨starts, mid, -, h⟩ := Lib.run_bind_eq_ok.mp h
  obtain ⟨counts, mid, -, h⟩ := Lib.run_bind_eq_ok.mp h
  obtain ⟨dsize, mid, hsize, h⟩ := Lib.run_bind_eq_ok.mp h
  obtain ⟨rfl, -⟩ := Prod.mk.inj (Except.ok.inj h)
  obtain ⟨hend, -⟩ := Lib.run_pureExcept_eq_ok.mp hsize
  rcases starts with _ | ⟨start, starts⟩
  · cases hend
  · rcases counts with _ | ⟨count, counts⟩
    · cases hend
    · rfl

/-- **The first block of a decoded record entry starts with the record number.** -/
theorem metaentryDecode_rec {z : Option Zlib} {dset : DsetInfo} {ent : List UInt8} {e : MetaEntry}
    (h : metaentryDecode z dset ent = .ok e) (hrec : hasFlag e.hdr.flag MetaFlag.record = true) :
    ∃ recnum, (e.sels.head?.bind fun s => s.start.head?) = some recnum := by
  rcases hrun : (metaentryDecodeSteps z dset).run ent with err | ⟨out, rest⟩
  · rw [metaentryDecode, hrun] at h
    cases h
  · rw [metaentryDecode, hrun] at h
    obtain rfl := Except.ok.inj h
    obtain ⟨mid, mid', recnum, -, -, hnum, n, bytes', rest', hread⟩ := metaentryDecodeSteps_readSels hrun
    rw [readRecnum, if_pos hrec, StateT.run_map] at hnum
    obtain ⟨⟨v, mid₁⟩, -, hnum⟩ := Lib.bind_eq_ok.mp hnum
    obtain ⟨rfl, -⟩ := Prod.mk.inj (Except.ok.inj hnum)
    exact ⟨v, readSels_rec hread⟩

/-! ## §4 — references. -/

/-- The first `ndim` coordinates of every referenced block, the first one overwritten in a record
entry. Coordinates a block never had count as outside. -/
def refSels (ndim : Nat) (recnum : Option HSize) (cached : List MetaSel) : Except Fault (List MetaSel) :=
  if cached.all fun s => ndim ≤ s.start.length && ndim ≤ s.count.length then
    .ok <| cached.map fun s => match recnum with
      | some rec => ⟨(s.start.take ndim).set 0 rec, (s.count.take ndim).set 0 1, s.doff⟩
      | none => ⟨s.start.take ndim, s.count.take ndim, s.doff⟩
  else .error .outside

/-- **`H5VL_logi_metaentry_ref_decode`** — an entry whose blocks are those of the entry at `pos` plus
the relative offset it stores. `bcache` gives the blocks of the entries parsed so far by position, and
none for any other position. -/
def metaentryRefDecode (dset : DsetInfo) (bcache : Int → List MetaSel) (pos : Int) :
    Reader Fault MetaEntry := do
  let hdr ← readHdr
  checkMetaSize hdr
  let recnum ← readRecnum hdr.flag
  let roff ← readOffset
  let sels ← pureExcept (refSels dset.ndim recnum (bcache (pos + roff.toInt)))
  let dsize ← pureExcept (lastBlockEnd dset.esize dset.ndim sels)
  pure ⟨hdr, sels, dsize⟩

end LogVol
