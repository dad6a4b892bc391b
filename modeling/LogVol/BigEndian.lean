/-
# LogVol.BigEndian — entries written and decoded on machines of either byte order.

The metadata is little-endian. Under `WORDS_BIGENDIAN` the connector stores natively and reverses: the constructor
the record number, the block count and the words of the selection, the deduplication the relative offset, and
`H5VL_log_filei_metaflush` the header; a decoder reverses again, in place, before it loads. The functions here take
the byte order of the machine, and on a little-endian one they are those of the other modules.
`writeEntryOn_iff` says which entries both machines write alike and decode alike: the header is reversed as 4-byte
words although two of its fields are offsets, and the decoder reverses as many words as the selection has bytes.
-/
import LogVol.Lib.ByteOrder
import LogVol.Sections
import LogVol.ZipWrite

namespace LogVol

open Lib (ByteOrder Reader Reads Yields leBytes ReversesBytes eachWord loadWord rewriteWords peek putWord putWords
  pureExcept failWith takeMany)

/-! ## §1 — reversing a word. -/

/-- `H5VL_logi_lreverse (val)`. -/
def lreverse (val : I32) : I32 :=
  ((val >>> 24) &&& 0x000000FF) ||| ((val >>> 8) &&& 0x0000FF00) |||
    ((val <<< 8) &&& 0x00FF0000) ||| ((val <<< 24) &&& 0xFF000000)

/-- `H5VL_logi_llreverse (val)`. -/
def llreverse (val : BitVec 64) : BitVec 64 :=
  ((val >>> 56) &&& 0x00000000000000FF) ||| ((val >>> 40) &&& 0x000000000000FF00) |||
    ((val >>> 24) &&& 0x0000000000FF0000) ||| ((val >>> 8) &&& 0x00000000FF000000) |||
    ((val <<< 8) &&& 0x000000FF00000000) ||| ((val <<< 24) &&& 0x0000FF0000000000) |||
    ((val <<< 40) &&& 0x00FF000000000000) ||| ((val <<< 56) &&& 0xFF00000000000000)

theorem lreverse_reverses : ReversesBytes sizeofInt lreverse := by
  apply Lib.reversesBytes_of_bits
  intro v i hi b hb
  unfold sizeofInt at hi ⊢
  interval_cases i <;> interval_cases b <;> simp [lreverse]

theorem llreverse_reverses : ReversesBytes sizeofOffset llreverse := by
  apply Lib.reversesBytes_of_bits
  intro v i hi b hb
  unfold sizeofOffset at hi ⊢
  interval_cases i <;> interval_cases b <;> simp [llreverse]

/-! ## §2 — the constructor. -/

/-- `H5VL_logi_lreverse (&val)` under `WORDS_BIGENDIAN`. -/
def lreverseOn (o : ByteOrder) (val : I32) : I32 := match o with
  | .little => val
  | .big => lreverse val

/-- `H5VL_logi_llreverse (&val)` under `WORDS_BIGENDIAN`. -/
def llreverseOn (o : ByteOrder) (val : BitVec 64) : BitVec 64 := match o with
  | .little => val
  | .big => llreverse val

/-- `H5VL_logi_llreverse (start, end)` under `WORDS_BIGENDIAN`, over the words of `bytes`. -/
def llreverseWords (o : ByteOrder) (bytes : List UInt8) : List UInt8 := match o with
  | .little => bytes
  | .big => eachWord .big sizeofOffset llreverse (bytes.length / sizeofOffset) bytes

/-- `H5VL_log_selections::encode`, stored natively. -/
def Selections.encodeOn (o : ByteOrder) (s : Selections) (dsteps : Option (List MpiOffset)) (dimoff : ℕ) :
    List UInt8 :=
  match dsteps with
  | some ds =>
      s.sels.flatMap (fun b => o.store sizeofOffset (selEncode (ds.drop dimoff) (b.start.drop dimoff))) ++
      s.sels.flatMap (fun b => o.store sizeofOffset (selEncode (ds.drop dimoff) (b.count.drop dimoff)))
  | none =>
      s.sels.flatMap (fun b => o.stores sizeofOffset (b.start.drop dimoff)) ++
      s.sels.flatMap (fun b => o.stores sizeofOffset (b.count.drop dimoff))

/-- What the constructor writes after the header. The record number and the block count are reversed before they are
stored, and the rest, from the steps to the end of the entry, afterwards. -/
def wreqBodyOn (o : ByteOrder) (flag : I32) (dip : DsetInfo) (sels : Selections) (recnum : Option HSize) : List UInt8 :=
  let encdim := encdimOf dip recnum
  let dimoff := if hasFlag flag MetaFlag.record then 1 else 0
  (if hasFlag flag MetaFlag.record then o.store sizeofOffset (llreverseOn o (recnum.getD 0)) else []) ++
  (if hasFlag flag MetaFlag.mulSel then o.store sizeofInt (lreverseOn o (BitVec.ofNat 32 sels.nsel)) else []) ++
  llreverseWords o (if hasFlag flag MetaFlag.selEncode then
      o.stores sizeofOffset ((dip.dsteps.drop (dip.ndim - encdim)).take (encdim - 1)) ++
        sels.encodeOn o (some dip.dsteps) dimoff
    else sels.encodeOn o none dimoff)

/-- **`H5VL_log_wreq_t (dset, sels)`** on a machine of either order: the size of the entry and the values of its
header do not depend on it. -/
def wreqInitOn (o : ByteOrder) (z : Option Zlib) (config id : I32) (mdsize : MpiOffset) (dip : DsetInfo)
    (sels : Selections) : Except Fault WReq :=
  (wreqInit z config id mdsize dip sels).map fun r =>
    { r with body := wreqBodyOn o r.hdr.flag dip sels (recordOf dip sels) }

theorem store_lreverseOn (o : ByteOrder) (val : I32) :
    o.store sizeofInt (lreverseOn o val) = putWord sizeofInt val := by
  cases o with
  | little => rfl
  | big => rw [ByteOrder.store, lreverseOn, lreverse_reverses, List.reverse_reverse]

theorem store_llreverseOn (o : ByteOrder) (val : BitVec 64) :
    o.store sizeofOffset (llreverseOn o val) = putWord sizeofOffset val := by
  cases o with
  | little => rfl
  | big => rw [ByteOrder.store, llreverseOn, llreverse_reverses, List.reverse_reverse]

/-- Words stored natively and reversed in place are little-endian. -/
theorem llreverseWords_stores (o : ByteOrder) (vs : List (BitVec 64)) :
    llreverseWords o (o.stores sizeofOffset vs) = putWords sizeofOffset vs := by
  cases o with
  | little => rfl
  | big =>
    have hn : (ByteOrder.big.stores sizeofOffset vs).length / sizeofOffset = vs.length := by
      rw [Lib.stores_length]
      exact Nat.mul_div_cancel_left _ (by decide)
    have hpass := Lib.eachWord_stores (by decide) llreverse_reverses vs []
    rw [List.append_nil, List.append_nil] at hpass
    rw [llreverseWords, hn, hpass]

/-- The words of an encoded selection. -/
def Selections.encodeWords (s : Selections) (dsteps : Option (List MpiOffset)) (dimoff : ℕ) : List MpiOffset :=
  match dsteps with
  | some ds =>
      s.sels.map (fun b => selEncode (ds.drop dimoff) (b.start.drop dimoff)) ++
      s.sels.map (fun b => selEncode (ds.drop dimoff) (b.count.drop dimoff))
  | none => s.sels.flatMap (fun b => b.start.drop dimoff) ++ s.sels.flatMap (fun b => b.count.drop dimoff)

theorem encodeOn_eq (o : ByteOrder) (s : Selections) (dsteps : Option (List MpiOffset)) (dimoff : ℕ) :
    s.encodeOn o dsteps dimoff = o.stores sizeofOffset (s.encodeWords dsteps dimoff) := by
  cases dsteps with
  | some ds => rw [Selections.encodeOn, Selections.encodeWords, Lib.stores_append, Lib.stores_map, Lib.stores_map]
  | none =>
    rw [Selections.encodeOn, Selections.encodeWords, Lib.stores_append, Lib.stores_flatMap, Lib.stores_flatMap]

theorem encode_eq (s : Selections) (dsteps : Option (List MpiOffset)) (dimoff : ℕ) :
    s.encode dsteps dimoff = putWords sizeofOffset (s.encodeWords dsteps dimoff) :=
  encodeOn_eq .little s dsteps dimoff

/-- **Every machine writes the same body**, whatever its fields. -/
theorem wreqBodyOn_eq (o : ByteOrder) (flag : I32) (dip : DsetInfo) (sels : Selections) (recnum : Option HSize) :
    wreqBodyOn o flag dip sels recnum = wreqBody flag dip sels recnum := by
  have hsteps (steps ws : List MpiOffset) : llreverseWords o (o.stores sizeofOffset steps ++ o.stores sizeofOffset ws) =
      putWords sizeofOffset steps ++ putWords sizeofOffset ws := by
    rw [← Lib.stores_append, llreverseWords_stores, Lib.putWords_append]
  unfold wreqBodyOn wreqBody
  simp only [store_llreverseOn, store_lreverseOn, encodeOn_eq, encode_eq]
  congr 1
  split
  · exact hsteps _ _
  · exact llreverseWords_stores o _

theorem wreqInit_body {z : Option Zlib} {config id : I32} {mdsize : MpiOffset} {dip : DsetInfo} {sels : Selections}
    {r : WReq} (h : wreqInit z config id mdsize dip sels = .ok r) :
    r.body = wreqBody r.hdr.flag dip sels (recordOf dip sels) := by
  unfold wreqInit at h
  simp only at h
  split at h
  · cases h
  · obtain rfl := Except.ok.inj h
    rfl

/-- **The constructor does not depend on the byte order.** -/
theorem wreqInitOn_eq (o : ByteOrder) (z : Option Zlib) (config id : I32) (mdsize : MpiOffset) (dip : DsetInfo)
    (sels : Selections) : wreqInitOn o z config id mdsize dip sels = wreqInit z config id mdsize dip sels := by
  unfold wreqInitOn
  rcases h : wreqInit z config id mdsize dip sels with e | r
  · rfl
  · show Except.ok { r with body := wreqBodyOn o r.hdr.flag dip sels (recordOf dip sels) } = Except.ok r
    rw [wreqBodyOn_eq, ← wreqInit_body h]

/-! ## §3 — references, and the header. -/

/-- A relative offset, stored natively and reversed in place. -/
def roffOn (o : ByteOrder) (roff : MpiOffset) : List UInt8 := llreverseWords o (o.store sizeofOffset roff)

/-- `WReq.refer` on a machine of either order. The record numbers compared are those in the entries, reversed in
both. -/
def WReq.referOn (o : ByteOrder) (r : WReq) (mdsize : MpiOffset) (key : WReq) : WReq :=
  let off := (r.refer mdsize key).selOff - sizeofHdr
  { r.refer mdsize key with
    body := r.body.take off ++ roffOn o (key.metaOff - mdsize) ++ r.body.drop (off + sizeofOffset) }

/-- `dedup` on a machine of either order. -/
def dedupOn (o : ByteOrder) (env : FileEnv) (c : WriteCall) (f : RankFile) (r : WReq) : Outcome (WReq × ℕ) :=
  if hasFlag env.config FileConfig.metadataShare ∧ sizeofOffset < r.selsize then
    match env.hash.find f.wreqHash r with
    | some key => (f, .ok (r.referOn o f.mdsize key, sizeofOffset))
    | none =>
        if c.grants.insert then ({ f with wreqHash := f.wreqHash ++ [r] }, .ok (r, r.selsize))
        else (f, .error badAlloc)
  else (f, .ok (r, r.selsize))

/-- `encodeReq` on a machine of either order. -/
def encodeReqOn (o : ByteOrder) (env : FileEnv) (c : WriteCall) (f : RankFile) (r : WReq) : Outcome WReq :=
  (dedupOn o env c f r).andThen fun f (r, selsize) =>
    (zipSel env c f r selsize).andThen fun f (r, selsize) => shrinkReq c f r selsize

theorem roffOn_eq (o : ByteOrder) (roff : MpiOffset) : roffOn o roff = putWord sizeofOffset roff := by
  have h := llreverseWords_stores o [roff]
  rw [ByteOrder.stores, putWords, List.flatMap_singleton, List.flatMap_singleton] at h
  exact h

theorem referOn_eq (o : ByteOrder) (r : WReq) (mdsize : MpiOffset) (key : WReq) :
    r.referOn o mdsize key = r.refer mdsize key := by
  unfold WReq.referOn
  simp only [roffOn_eq]
  rfl

theorem dedupOn_eq (o : ByteOrder) (env : FileEnv) (c : WriteCall) (f : RankFile) (r : WReq) :
    dedupOn o env c f r = dedup env c f r := by
  unfold dedupOn dedup
  split
  · cases env.hash.find f.wreqHash r with
    | none => rfl
    | some key => exact congrArg (fun r => (f, Except.ok (r, sizeofOffset))) (referOn_eq o r f.mdsize key)
  · rfl

/-- **Encoding a request does not depend on the byte order.** -/
theorem encodeReqOn_eq (o : ByteOrder) (env : FileEnv) (c : WriteCall) (f : RankFile) (r : WReq) :
    encodeReqOn o env c f r = encodeReq env c f r := by
  rw [encodeReqOn, encodeReq, dedupOn_eq]

/-- The packed header, stored natively. -/
def MetaHdr.bytesOn (o : ByteOrder) (h : MetaHdr) : List UInt8 :=
  o.store sizeofInt h.metaSize ++ o.store sizeofInt h.did ++ o.store sizeofInt h.flag ++
    o.store sizeofOffset h.foff ++ o.store sizeofOffset h.fsize

/-- The header of an entry as `H5VL_log_filei_metaflush` writes it: 4-byte words reversed from its start to its end. -/
def MetaHdr.flushedOn (o : ByteOrder) (h : MetaHdr) : List UInt8 := match o with
  | .little => h.bytesOn .little
  | .big => eachWord .big sizeofInt lreverse (sizeofHdr / sizeofInt) (h.bytesOn .big)

/-- **The entry of a write** on a machine of either order: the constructor, deduplication and compression, the place
of the data filled in, and the header reversed by the flush. -/
def writeEntryOn (o : ByteOrder) (env : FileEnv) (c : WriteCall) (f : RankFile) (id : I32) (dip : DsetInfo)
    (foff fsize : MpiOffset) : Except Fault (List UInt8) :=
  match wreqInitOn o env.zlib env.config id f.mdsize dip c.sels with
  | .error e => .error e
  | .ok r => (encodeReqOn o env c f r).2.map fun r =>
      MetaHdr.flushedOn o { r.hdr with foff := foff, fsize := fsize } ++ r.body

/-- A word with its halves exchanged. -/
def swapHalves (v : MpiOffset) : MpiOffset := v.extractLsb' 0 32 ++ v.extractLsb' 32 32

/-- A header with the halves of its offsets exchanged. -/
def MetaHdr.swapped (h : MetaHdr) : MetaHdr := { h with foff := swapHalves h.foff, fsize := swapHalves h.fsize }

/-- The header as seven words of four bytes. -/
def MetaHdr.words (h : MetaHdr) : List I32 :=
  [h.metaSize, h.did, h.flag, h.foff.extractLsb' 0 32, h.foff.extractLsb' 32 32, h.fsize.extractLsb' 0 32,
    h.fsize.extractLsb' 32 32]

/-- The low half of a word comes first. -/
theorem putWord_halves (v : MpiOffset) : putWord sizeofOffset v =
    putWord sizeofInt (v.extractLsb' 0 32) ++ putWord sizeofInt (v.extractLsb' 32 32) := by
  have hpow : (256 : ℕ) ^ 4 = 2 ^ 32 := by
    norm_num
  have hlow : (v.extractLsb' 0 32).toNat = v.toNat % 256 ^ 4 := by
    rw [BitVec.extractLsb'_toNat, Nat.shiftRight_zero, hpow]
  have hhigh : (v.extractLsb' 32 32).toNat = v.toNat / 256 ^ 4 % 256 ^ 4 := by
    rw [BitVec.extractLsb'_toNat, Nat.shiftRight_eq_div_pow, hpow]
  show leBytes (4 + 4) v.toNat = leBytes 4 _ ++ leBytes 4 _
  rw [Lib.leBytes_add, hlow, hhigh, Lib.leBytes_mod, Lib.leBytes_mod]

theorem store_halves (v : MpiOffset) : ByteOrder.big.store sizeofOffset v =
    ByteOrder.big.store sizeofInt (v.extractLsb' 32 32) ++ ByteOrder.big.store sizeofInt (v.extractLsb' 0 32) := by
  rw [ByteOrder.store, putWord_halves, List.reverse_append]
  rfl

theorem swapHalves_low (v : MpiOffset) : (swapHalves v).extractLsb' 0 32 = v.extractLsb' 32 32 :=
  BitVec.extractLsb'_append_eq_right

theorem swapHalves_high (v : MpiOffset) : (swapHalves v).extractLsb' 32 32 = v.extractLsb' 0 32 :=
  BitVec.extractLsb'_append_eq_left

theorem hdr_bytes_words (h : MetaHdr) : h.bytes = putWords sizeofInt h.words := by
  simp [MetaHdr.bytes, MetaHdr.words, putWord_halves]

theorem hdr_bytesOn_words (h : MetaHdr) : h.bytesOn .big = ByteOrder.big.stores sizeofInt h.swapped.words := by
  simp [MetaHdr.bytesOn, MetaHdr.words, MetaHdr.swapped, store_halves, swapHalves_low, swapHalves_high,
    ByteOrder.stores]

/-- **The header a big-endian machine writes** has the halves of its offsets exchanged. -/
theorem flushedOn_big (h : MetaHdr) : h.flushedOn .big = h.swapped.bytes := by
  have hpass := Lib.eachWord_stores (by decide) lreverse_reverses h.swapped.words []
  rw [List.append_nil, List.append_nil, ← hdr_bytesOn_words, ← hdr_bytes_words] at hpass
  exact hpass

theorem hdr_bytes_inj {h h' : MetaHdr} (heq : h.bytes = h'.bytes) : h = h' := by
  have hread := (readHdr_reads h).unique (heq ▸ readHdr_reads h')
  exact Except.ok.inj hread

/-- **The two headers agree** exactly when the halves of both offsets do. -/
theorem flushedOn_eq_iff (h : MetaHdr) :
    h.flushedOn .big = h.flushedOn .little ↔ swapHalves h.foff = h.foff ∧ swapHalves h.fsize = h.fsize := by
  rw [flushedOn_big]
  show h.swapped.bytes = h.bytes ↔ _
  constructor
  · intro heq
    have hhdr := hdr_bytes_inj heq
    exact ⟨congrArg MetaHdr.foff hhdr, congrArg MetaHdr.fsize hhdr⟩
  · rintro ⟨hfoff, hfsize⟩
    rw [MetaHdr.swapped, hfoff, hfsize]

/-! ## §4 — the decoder. -/

/-- `*((int *)bufp)`, and advance. -/
def readIntOn (o : ByteOrder) : Reader Fault I32 := loadWord .outside o sizeofInt 32

/-- `*((MPI_Offset *)bufp)`, and advance. -/
def readOffsetOn (o : ByteOrder) : Reader Fault MpiOffset := loadWord .outside o sizeofOffset 64

/-- `H5VL_logi_lreverse ((uint32_t *)bufp, (uint32_t *)bufp + n)` under `WORDS_BIGENDIAN`. -/
def lreverseAt (o : ByteOrder) (n : ℕ) : Reader Fault Unit := match o with
  | .little => pure ()
  | .big => rewriteWords .outside .big sizeofInt lreverse n

/-- `H5VL_logi_llreverse ((uint64_t *)bufp, (uint64_t *)bufp + n)` under `WORDS_BIGENDIAN`. -/
def llreverseAt (o : ByteOrder) (n : ℕ) : Reader Fault Unit := match o with
  | .little => pure ()
  | .big => rewriteWords .outside .big sizeofOffset llreverse n

/-- `*((H5VL_logi_meta_hdr *)bufp)`. -/
def readHdrOn (o : ByteOrder) : Reader Fault MetaHdr := do
  let metaSize ← readIntOn o
  let did ← readIntOn o
  let flag ← readIntOn o
  let foff ← readOffsetOn o
  let fsize ← readOffsetOn o
  pure ⟨metaSize, did, flag, foff, fsize⟩

/-- The record number, if it is a record entry, reversed in place. -/
def readRecnumOn (o : ByteOrder) (flag : I32) : Reader Fault (Option HSize) :=
  if hasFlag flag MetaFlag.record then do
    llreverseAt o 1
    some <$> readOffsetOn o
  else pure none

/-- `n` words of 8 bytes. -/
def readOffsetsOn (o : ByteOrder) (n : Int) : Reader Fault (List MpiOffset) :=
  if n < 0 then failWith .outside else takeMany (readOffsetOn o) n.toNat

/-- One start or one count. -/
def readCordsOn (o : ByteOrder) (encoded : Bool) (encdim : Int) (dsteps : List MpiOffset) :
    Reader Fault (List HSize) := do
  if encoded then
    let off ← readOffsetOn o
    pureExcept (selDecode dsteps off)
  else
    readOffsetsOn o encdim

/-- The encoding steps. -/
def readStepsOn (o : ByteOrder) (flag : I32) (encdim : Int) : Reader Fault (List MpiOffset) :=
  if hasFlag flag MetaFlag.selEncode then (· ++ [1]) <$> readOffsetsOn o (encdim - 1) else pure []

/-- Retrieve the steps, the starts and the counts, and lay out the blocks. -/
def readSelsOn (o : ByteOrder) (dset : DsetInfo) (hdr : MetaHdr) (recnum : Option HSize) (nsel : Int) :
    Reader Fault (MetaEntry × List MpiOffset) := do
  let encoded := hasFlag hdr.flag MetaFlag.selEncode
  let encdim := encdimRead dset recnum
  let dsteps ← readStepsOn o hdr.flag encdim
  checkNsel nsel
  let starts ← takeMany (readCordsOn o encoded encdim dsteps) nsel.toNat
  let counts ← takeMany (readCordsOn o encoded encdim dsteps) nsel.toNat
  let sels := placeSels dset.esize 0 (List.zipWith (mkBlock recnum) starts counts)
  let dsize ← pureExcept (lastBlockEnd dset.esize encdim.toNat sels)
  pure (⟨hdr, sels, dsize⟩, dsteps)

/-- `H5VL_logi_llreverse ((uint64_t *)bp, (uint64_t *)(bp + bsize))`, and retrieve the selections. `bsize` counts
bytes, and `bp` points to words. -/
def reversedSelsOn (o : ByteOrder) (dset : DsetInfo) (hdr : MetaHdr) (recnum : Option HSize) (bsize nsel : Int) :
    Reader Fault (MetaEntry × List MpiOffset) := do
  llreverseAt o bsize.toNat
  readSelsOn o dset hdr recnum nsel

/-- If the rest of the entry is compressed, decompress it first. -/
def unpackSelsOn (o : ByteOrder) (z : Option Zlib) (dset : DsetInfo) (hdr : MetaHdr) (recnum : Option HSize)
    (nsel : Int) : Reader Fault (MetaEntry × List MpiOffset) :=
  let bsize := unzippedSize hdr.flag (encdimRead dset recnum) nsel
  if hasFlag hdr.flag MetaFlag.selDeflate then
    match z with
    | none => failWith (.raised "Compressed Metadata Support Not Enabled")
    | some z => do
        let inBytes ← takeAtMost (hdr.metaSize.toInt - sizeofHdr - sizeofInt)
        match z.inflate inBytes bsize with
        | none => failWith (.raised "inflate fail")
        | some zbuf => pureExcept (((reversedSelsOn o dset hdr recnum bsize nsel).run zbuf).map (·.1))
  else reversedSelsOn o dset hdr recnum bsize nsel

/-- The blocks: more than one selection is announced by a count, reversed in place. -/
def readBlocksOn (o : ByteOrder) (z : Option Zlib) (dset : DsetInfo) (hdr : MetaHdr) (recnum : Option HSize) :
    Reader Fault (MetaEntry × List MpiOffset) :=
  if hasFlag hdr.flag MetaFlag.mulSel then do
    lreverseAt o 1
    let nsel ← readIntOn o
    unpackSelsOn o z dset hdr recnum nsel.toInt
  else reversedSelsOn o dset hdr recnum (sizeofOffset * 2 * encdimRead dset recnum) 1

/-- `H5VL_logi_metaentry_decode` past the header. -/
def decodeBodyOn (o : ByteOrder) (z : Option Zlib) (dset : DsetInfo) (hdr : MetaHdr) :
    Reader Fault (MetaEntry × List MpiOffset) := do
  checkMetaSize hdr
  let recnum ← readRecnumOn o hdr.flag
  readBlocksOn o z dset hdr recnum

/-- **`H5VL_logi_metaentry_decode`** on a machine of either order. -/
def metaentryDecodeOn (o : ByteOrder) (z : Option Zlib) (dset : DsetInfo) :
    Reader Fault (MetaEntry × List MpiOffset) := do
  let hdr ← readHdrOn o
  decodeBodyOn o z dset hdr

/-- `H5VL_logi_metaentry_ref_decode` past the header. -/
def refBodyOn (o : ByteOrder) (dset : DsetInfo) (bcache : Int → List MetaSel) (pos : Int) (hdr : MetaHdr) :
    Reader Fault MetaEntry := do
  checkMetaSize hdr
  let recnum ← readRecnumOn o hdr.flag
  llreverseAt o 1
  let roff ← readOffsetOn o
  let sels ← pureExcept (refSels dset.ndim recnum (bcache (pos + roff.toInt)))
  let dsize ← pureExcept (lastBlockEnd dset.esize dset.ndim sels)
  pure ⟨hdr, sels, dsize⟩

/-- **`H5VL_logi_metaentry_ref_decode`** on a machine of either order. -/
def metaentryRefDecodeOn (o : ByteOrder) (dset : DsetInfo) (bcache : Int → List MetaSel) (pos : Int) :
    Reader Fault MetaEntry := do
  let hdr ← readHdrOn o
  refBodyOn o dset bcache pos hdr

/-- **On a little-endian machine** the decoder is that of the other modules. -/
theorem metaentryDecodeOn_little (z : Option Zlib) (dset : DsetInfo) :
    metaentryDecodeOn .little z dset = metaentryDecodeSteps z dset := rfl

theorem metaentryRefDecodeOn_little (dset : DsetInfo) (bcache : Int → List MetaSel) (pos : Int) :
    metaentryRefDecodeOn .little dset bcache pos = metaentryRefDecode dset bcache pos := rfl

/-- What reads metadata: an index of the connector, or one of the utilities, h5ldump, and h5lreplay where metadata is
shared. Where it is not, h5lreplay does not reverse the header. -/
inductive MetaReader
  | index
  | utility
  deriving DecidableEq, Repr

/-- Reverse the header, and decode the entry by its flag. -/
def decodeEntryOn (o : ByteOrder) (z : Option Zlib) (dsets : List (Option DsetInfo)) (bcache : Int → List MetaSel)
    (pos : Int) : Reader Fault MetaEntry := do
  lreverseAt o (sizeofHdr / sizeofInt)
  let hdr ← peek (readHdrOn o)
  match ← pureExcept (dsetAt dsets hdr.did) with
  | none => failWith .outside
  | some dset =>
      if hasFlag hdr.flag MetaFlag.selRef then metaentryRefDecodeOn o dset bcache pos
      else Prod.fst <$> metaentryDecodeOn o z dset

/-- **The entry at `bufp`**, in a file that shares metadata. An index skips entries of datasets that are not open, and
looks for the dataset before it reverses the header. -/
def readEntryOn (o : ByteOrder) (ρ : MetaReader) (z : Option Zlib) (dsets : List (Option DsetInfo))
    (bcache : Int → List MetaSel) (pos : Int) : Reader Fault (Option MetaEntry) :=
  match ρ with
  | .utility => some <$> decodeEntryOn o z dsets bcache pos
  | .index => do
      let did ← peek (do let _ ← readIntOn o; readIntOn o)
      match ← pureExcept (dsetAt dsets did) with
      | none => pure none
      | some _ => some <$> decodeEntryOn o z dsets bcache pos

/-! ## §5 — what a decoder finds. -/

theorem lreverseAt_run (o : ByteOrder) (vs : List I32) (rest : List UInt8) :
    (lreverseAt o vs.length).run (putWords sizeofInt vs ++ rest) = .ok ((), o.stores sizeofInt vs ++ rest) := by
  cases o with
  | little => rfl
  | big => exact Lib.rewriteWords_run (by decide) lreverse_reverses vs rest

theorem llreverseAt_run (o : ByteOrder) (vs : List (BitVec 64)) (rest : List UInt8) :
    (llreverseAt o vs.length).run (putWords sizeofOffset vs ++ rest) = .ok ((), o.stores sizeofOffset vs ++ rest) := by
  cases o with
  | little => rfl
  | big => exact Lib.rewriteWords_run (by decide) llreverse_reverses vs rest

/-- A word reversed in place is read as it was written. -/
theorem reversedInt_run {α : Type} (o : ByteOrder) (v : I32) (rest : List UInt8) (g : I32 → Reader Fault α) :
    (do lreverseAt o 1
        let n ← readIntOn o
        g n).run (putWord sizeofInt v ++ rest) = (g v).run rest := by
  have hpass := lreverseAt_run o [v] rest
  simp only [putWords, ByteOrder.stores, List.flatMap_singleton, List.length_singleton] at hpass
  rw [StateT.run_bind, hpass, Lib.ok_bind]
  exact (Lib.Reads.loadWord (by decide) v).run_bind rest

theorem reversedOffset_run {α : Type} (o : ByteOrder) (v : MpiOffset) (rest : List UInt8)
    (g : MpiOffset → Reader Fault α) :
    (do llreverseAt o 1
        let n ← readOffsetOn o
        g n).run (putWord sizeofOffset v ++ rest) = (g v).run rest := by
  have hpass := llreverseAt_run o [v] rest
  simp only [putWords, ByteOrder.stores, List.flatMap_singleton, List.length_singleton] at hpass
  rw [StateT.run_bind, hpass, Lib.ok_bind]
  exact (Lib.Reads.loadWord (by decide) v).run_bind rest

theorem readRecnumOn_reads (o : ByteOrder) {flag : I32} {recnum : Option HSize}
    (hrec : hasFlag flag MetaFlag.record = recnum.isSome) :
    Reads (readRecnumOn o flag) (recnum.elim [] (putWord sizeofOffset)) recnum := by
  intro tail
  rw [readRecnumOn, hrec]
  rcases recnum with _ | v
  · rfl
  · exact reversedOffset_run o v tail fun n => pure (some n)

theorem readHdrOn_reads (o : ByteOrder) (h : MetaHdr) : Reads (readHdrOn o) (h.bytesOn o) h := by
  have hint (v : I32) : Reads (readIntOn o) (o.store sizeofInt v) v := Lib.Reads.loadWord (by decide) v
  have hoff (v : MpiOffset) : Reads (readOffsetOn o) (o.store sizeofOffset v) v := Lib.Reads.loadWord (by decide) v
  have hbytes : h.bytesOn o = o.store sizeofInt h.metaSize ++ (o.store sizeofInt h.did ++
      (o.store sizeofInt h.flag ++ (o.store sizeofOffset h.foff ++ (o.store sizeofOffset h.fsize ++ [])))) := by
    simp only [MetaHdr.bytesOn, List.append_assoc, List.append_nil]
  rw [hbytes]
  unfold readHdrOn
  refine (hint _).bind ?_
  refine (hint _).bind ?_
  refine (hint _).bind ?_
  refine (hoff _).bind ?_
  exact (hoff _).bind (Reads.pure h)

/-- Loaded before it is reversed, an `int` of the entry is the reverse of itself. -/
theorem readIntOn_stored (o : ByteOrder) (v : I32) : Reads (readIntOn o) (putWord sizeofInt v) (lreverseOn o v) := by
  have h : Reads (readIntOn o) (o.store sizeofInt (lreverseOn o v)) (lreverseOn o v) :=
    Lib.Reads.loadWord (by decide) _
  rwa [store_lreverseOn] at h

section Header

variable {h : MetaHdr}

/-- Its words reversed, the header is the machine's own. -/
theorem lreverseAt_hdr (hhalves : h.swapped = h) (o : ByteOrder) (rest : List UInt8) :
    (lreverseAt o (sizeofHdr / sizeofInt)).run (h.bytes ++ rest) = .ok ((), h.bytesOn o ++ rest) := by
  cases o with
  | little => rfl
  | big =>
    have hpass := lreverseAt_run .big h.words rest
    have hown := hdr_bytesOn_words h
    rw [hhalves] at hown
    rwa [← hdr_bytes_words, ← hown] at hpass

variable {dsets : List (Option DsetInfo)} {dset : DsetInfo}

/-- **Past the header**, the decode of an entry is that of its body. -/
theorem decodeEntryOn_run (hhalves : h.swapped = h) (hopen : dsetAt dsets h.did = .ok (some dset)) (o : ByteOrder)
    (z : Option Zlib) (bcache : Int → List MetaSel) (pos : Int) (rest : List UInt8) :
    (decodeEntryOn o z dsets bcache pos).run (h.bytes ++ rest) =
      (if hasFlag h.flag MetaFlag.selRef then refBodyOn o dset bcache pos h
        else Prod.fst <$> decodeBodyOn o z dset h).run rest := by
  have hread := readHdrOn_reads o h
  unfold decodeEntryOn
  rw [StateT.run_bind, lreverseAt_hdr hhalves, Lib.ok_bind, StateT.run_bind, hread.peek, Lib.ok_bind]
  simp only [hopen]
  rw [StateT.run_bind]
  show (if hasFlag h.flag MetaFlag.selRef then metaentryRefDecodeOn o dset bcache pos
    else Prod.fst <$> metaentryDecodeOn o z dset).run (h.bytesOn o ++ rest) = _
  by_cases href : hasFlag h.flag MetaFlag.selRef = true
  · rw [if_pos href, if_pos href]
    exact hread.run_bind rest
  · rw [if_neg href, if_neg href, StateT.run_map, StateT.run_map]
    congr 1
    exact hread.run_bind rest

/-- **An index decodes an entry** when it finds an open dataset under the number it loads. -/
theorem readEntryOn_index (o : ByteOrder) (z : Option Zlib) (bcache : Int → List MetaSel) (pos : Int)
    (rest : List UInt8) : (readEntryOn o .index z dsets bcache pos).run (h.bytes ++ rest) =
      match dsetAt dsets (lreverseOn o h.did) with
      | .error e => .error e
      | .ok none => .ok (none, h.bytes ++ rest)
      | .ok (some _) => (some <$> decodeEntryOn o z dsets bcache pos).run (h.bytes ++ rest) := by
  have hdid : Reads (do let _ ← readIntOn o; readIntOn o) (putWord sizeofInt h.metaSize ++ putWord sizeofInt h.did)
      (lreverseOn o h.did) := (readIntOn_stored o h.metaSize).bind (readIntOn_stored o h.did)
  have hsplit : h.bytes ++ rest = (putWord sizeofInt h.metaSize ++ putWord sizeofInt h.did) ++
      (putWord sizeofInt h.flag ++ putWord sizeofOffset h.foff ++ putWord sizeofOffset h.fsize ++ rest) := by
    simp only [MetaHdr.bytes, List.append_assoc]
  have hpeek := hdid.peek
    (putWord sizeofInt h.flag ++ putWord sizeofOffset h.foff ++ putWord sizeofOffset h.fsize ++ rest)
  rw [← hsplit] at hpeek
  unfold readEntryOn
  rw [StateT.run_bind, hpeek, Lib.ok_bind, StateT.run_bind]
  rcases dsetAt dsets (lreverseOn o h.did) with e | d | d
  · rfl
  · rfl
  · rfl

end Header

/-! ## §6 — what an entry holds. -/

/-- The request whose entry the new one refers to, if it is shared. -/
def WReq.sharedWith (env : FileEnv) (f : RankFile) (r : WReq) : Option WReq :=
  if hasFlag env.config FileConfig.metadataShare ∧ sizeofOffset < r.selsize then env.hash.find f.wreqHash r else none

/-- A whole entry, with the selection it was made for. -/
structure WholeEntry (id : I32) (dip : DsetInfo) (sels : Selections) (r : WReq) : Prop where
  did : r.hdr.did = id
  record : hasFlag r.hdr.flag MetaFlag.record = (recordOf dip sels).isSome
  mulSel : hasFlag r.hdr.flag MetaFlag.mulSel = (nselField sels.nsel).isSome
  selEncode : hasFlag r.hdr.flag MetaFlag.selEncode = true → 1 < encdimOf dip (recordOf dip sels) ∧ 1 < sels.nsel
  selDeflate : hasFlag r.hdr.flag MetaFlag.selDeflate = false
  selRef : hasFlag r.hdr.flag MetaFlag.selRef = false
  body : r.body = entryPrefix (recordOf dip sels) (nselField sels.nsel) ++
    selField dip sels (hasFlag r.hdr.flag MetaFlag.selEncode) (recordOf dip sels)
  metaSize : sizeofHdr + r.body.length < 2 ^ 31 → r.hdr.metaSize.toInt = sizeofHdr + r.body.length

/-- An entry that refers to another one: a record number if it has one of its own, and the relative offset. -/
structure RefEntry (id : I32) (roff : MpiOffset) (recnum : Option HSize) (r : WReq) : Prop where
  did : r.hdr.did = id
  record : hasFlag r.hdr.flag MetaFlag.record = recnum.isSome
  selRef : hasFlag r.hdr.flag MetaFlag.selRef = true
  body : r.body = recnum.elim [] (putWord sizeofOffset) ++ putWord sizeofOffset roff
  metaSize : 0 < r.hdr.metaSize.toInt

/-- Cut behind its offset, it is a reference. -/
theorem offsetAt_refEntry {r : WReq} {flag : I32} {selOff : ℕ} {recnum : Option HSize} (roff : MpiOffset)
    (hselOff : selOff = sizeofHdr + (recnum.elim [] (putWord sizeofOffset)).length)
    (hbody : recnum.elim [] (putWord sizeofOffset) <+: r.body) (hrec : hasFlag flag MetaFlag.record = recnum.isSome)
    (href : hasFlag flag MetaFlag.selRef = true) :
    RefEntry r.hdr.did roff recnum ((r.offsetAt flag selOff roff).resize (selOff + sizeofOffset)) := by
  obtain ⟨rest, hrest⟩ := hbody
  have hlen : (recnum.elim [] (putWord sizeofOffset)).length ≤ sizeofOffset := by
    rcases recnum with _ | v <;> simp
  refine ⟨rfl, hrec, href, ?_, ?_⟩
  · have htake : r.body.take (selOff - sizeofHdr) = recnum.elim [] (putWord sizeofOffset) := by
      rw [hselOff, Nat.add_sub_cancel_left, ← hrest, List.take_left]
    show (r.body.take (selOff - sizeofHdr) ++ putWord sizeofOffset roff ++ _).take _ = _
    rw [htake, List.take_left']
    rw [List.length_append, Lib.putWord_length, hselOff]
    omega
  · show 0 < (BitVec.ofNat 32 (selOff + sizeofOffset)).toInt
    have hhdr : sizeofHdr = 28 := rfl
    have hoff : sizeofOffset = 8 := rfl
    rw [toInt_ofNat_of_lt (by omega)]
    omega

section Made

variable {env : FileEnv} {c : WriteCall} {f f' : RankFile} {id : I32} {dip : DsetInfo} {r r' : WReq}

variable (hinit : wreqInit env.zlib env.config id f.mdsize dip c.sels = .ok r)
  (hencode : encodeReq env c f r = (f', .ok r'))
include hinit hencode

/-- **An entry that is not shared** is the one the constructor made. -/
theorem wholeEntry_of_encodeReq (hplain : r.sharedWith env f = none) : WholeEntry id dip c.sels r' := by
  obtain ⟨hdid, hflag, hbody, -, hsize⟩ := wreqInit_shape hinit
  have hr' : r' = if env.zlib.isSome ∧ hasFlag r.hdr.flag MetaFlag.selDeflate = true then r.uncompressed else r := by
    rcases encodeReq_ok hencode with ⟨key, hlook, hfind, -⟩ | ⟨-, hr'⟩
    · rw [WReq.sharedWith, if_pos (show _ ∧ _ from hlook), hfind] at hplain
      cases hplain
    · exact hr'
  -- the deflate flag is all that may have changed
  have hkeep : r'.body = r.body ∧ r'.hdr.did = r.hdr.did ∧ r'.hdr.metaSize = r.hdr.metaSize ∧
      hasFlag r'.hdr.flag MetaFlag.selDeflate = false ∧
      ∀ bit, hasFlag MetaFlag.selDeflate bit = false → hasFlag r'.hdr.flag bit = hasFlag r.hdr.flag bit := by
    rw [hr']
    split
    · exact ⟨rfl, rfl, rfl, hasFlag_clearFlag_self .., fun bit hbit => hasFlag_clearFlag hbit _⟩
    · rename_i hrun
      refine ⟨rfl, rfl, rfl, ?_, fun bit _ => rfl⟩
      rw [hflag, wreqFlag_selDeflate] at hrun ⊢
      by_cases hz : env.zlib.isSome = true
      · simpa [hz] using hrun
      · simp [hz]
  obtain ⟨hb, hd, hm, hzip, hbits⟩ := hkeep
  have hencode : hasFlag r'.hdr.flag MetaFlag.selEncode =
      hasFlag (wreqFlag env.zlib env.config dip c.sels) MetaFlag.selEncode := by
    rw [hbits _ (by decide), hflag]
  constructor
  · rw [hd, hdid]
  · rw [hbits _ (by decide), hflag, wreqFlag_record]
  · rw [hbits _ (by decide), hflag, wreqFlag_mulSel, nselField]
    by_cases hn : 1 < c.sels.nsel <;> simp [hn]
  · intro h
    rw [hencode, wreqFlag_selEncode] at h
    simp only [Bool.and_eq_true, decide_eq_true_eq] at h
    exact ⟨h.1.2, h.1.1⟩
  · exact hzip
  · rw [hbits _ (by decide), hflag, wreqFlag_selRef]
  · rw [hb, hbody, hencode, wreqBody_eq]
  · rw [hb, hm]
    exact hsize

/-- **A shared entry** holds the offset of the entry it refers to. -/
theorem refEntry_of_encodeReq {key : WReq} (hkey : r.sharedWith env f = some key) :
    ∃ recnum, RefEntry id (key.metaOff - f.mdsize) recnum r' := by
  obtain ⟨hdid, hflag, hbody, hoff, -⟩ := wreqInit_shape hinit
  rw [wreqBody_eq, entryPrefix, List.append_assoc] at hbody
  rw [wreqFlag_record] at hoff
  have hlook : LookedUp env r ∧ env.hash.find f.wreqHash r = some key := by
    unfold WReq.sharedWith at hkey
    split at hkey
    · rename_i hlook
      exact ⟨hlook, hkey⟩
    · cases hkey
  have hr' : r' = (r.refer f.mdsize key).resize ((r.refer f.mdsize key).selOff + sizeofOffset) := by
    rcases encodeReq_ok hencode with ⟨key', -, hfind, -, hr'⟩ | ⟨hnone, -⟩
    · obtain rfl := Option.some.inj (hfind.symm.trans hlook.2)
      exact hr'
    · rw [hnone hlook.1] at hlook
      cases hlook.2
  have hclear : hasFlag (clearFlag (r.hdr.flag ||| MetaFlag.selRef) MetaFlag.selDeflate) MetaFlag.record =
      (recordOf dip c.sels).isSome := by
    have hor := hasFlag_orIf true MetaFlag.selRef MetaFlag.record r.hdr.flag
    rw [hasFlag_clearFlag (by decide), ← wreqFlag_record env.zlib env.config dip c.sels, ← hflag]
    exact hor
  have hlen : r.selOff = sizeofHdr + ((recordOf dip c.sels).elim [] (putWord sizeofOffset)).length := by
    rw [hoff]
    rcases recordOf dip c.sels with _ | v
    · rfl
    · simp
  have href := refer_selRef r f.mdsize key
  rw [hr']
  rcases refer_offsetAt r f.mdsize key with ⟨hrec, heq⟩ | heq
  · -- one record: the reference stands for it as well
    have hsel : r.selOff - sizeofOffset = sizeofHdr := by
      rw [hclear] at hrec
      rw [if_pos hrec] at hoff
      rw [hoff, Nat.add_sub_cancel]
    rw [heq] at href ⊢
    rw [← hdid]
    exact ⟨none, offsetAt_refEntry _ hsel List.nil_prefix (hasFlag_clearFlag_self ..) href⟩
  · rw [heq] at href ⊢
    rw [← hdid]
    exact ⟨recordOf dip c.sels, offsetAt_refEntry _ hlen ⟨_, hbody.symm⟩ hclear href⟩

end Made

/-! ## §7 — bodies. -/

/-- The referenced blocks have the coordinates of the dataset. -/
def Resolves (dset : DsetInfo) (cached : List MetaSel) : Prop :=
  cached ≠ [] ∧ ∀ s ∈ cached, dset.ndim ≤ s.start.length ∧ dset.ndim ≤ s.count.length

theorem checkMetaSize_bind {α : Type} {h : MetaHdr} (hpos : 0 < h.metaSize.toInt) (g : Reader Fault α)
    (bs : List UInt8) : (checkMetaSize h >>= fun _ => g).run bs = g.run bs := by
  rw [checkMetaSize, if_neg (by omega)]
  rfl

/-- **A reference is decoded** on every machine exactly when the blocks it refers to are at hand. -/
theorem refBodyOn_reads_iff {id : I32} {roff : MpiOffset} {recnum : Option HSize} {r : WReq}
    (hr : RefEntry id roff recnum r) {h : MetaHdr} (hflag : h.flag = r.hdr.flag) (hsize : h.metaSize = r.hdr.metaSize)
    (dset : DsetInfo) (bcache : Int → List MetaSel) (pos : Int) :
    (∃ e, ∀ o, Reads (refBodyOn o dset bcache pos h) r.body e) ↔ Resolves dset (bcache (pos + roff.toInt)) := by
  -- The words of a reference are reversed one by one, so every machine has the same ones.
  have hrun (o : ByteOrder) (tail : List UInt8) : (refBodyOn o dset bcache pos h).run (r.body ++ tail) =
      (refSels dset.ndim recnum (bcache (pos + roff.toInt)) >>= fun sels =>
        lastBlockEnd dset.esize dset.ndim sels >>= fun dsize => .ok (⟨h, sels, dsize⟩, tail)) := by
    have hrec : hasFlag h.flag MetaFlag.record = recnum.isSome := by
      rw [hflag, hr.record]
    rw [refBodyOn, checkMetaSize_bind (by rw [hsize]; exact hr.metaSize), hr.body, List.append_assoc,
      (readRecnumOn_reads o hrec).run_bind, reversedOffset_run]
    simp only [Lib.run_pureExcept_bind]
    rfl
  constructor
  · rintro ⟨e, he⟩
    have hok := he .little []
    rw [hrun] at hok
    obtain ⟨sels, hsels, hok⟩ := Lib.bind_eq_ok.mp hok
    obtain ⟨dsize, hsize, -⟩ := Lib.bind_eq_ok.mp hok
    unfold refSels at hsels
    split at hsels
    · rename_i hall
      refine ⟨fun hnil => ?_, by simpa [List.all_eq_true] using hall⟩
      rw [hnil, List.map_nil] at hsels
      obtain rfl := Except.ok.inj hsels
      cases hsize
    · cases hsels
  · rintro ⟨hne, hall⟩
    have hsels : ∃ sels, refSels dset.ndim recnum (bcache (pos + roff.toInt)) = .ok sels ∧ sels ≠ [] := by
      rw [refSels, if_pos (by simpa [List.all_eq_true] using hall)]
      exact ⟨_, rfl, by simpa using hne⟩
    obtain ⟨sels, hsels, hnil⟩ := hsels
    obtain ⟨dsize, hdsize⟩ := lastBlockEnd_ok dset.esize dset.ndim hnil
    refine ⟨⟨h, sels, dsize⟩, fun o tail => ?_⟩
    rw [hrun, hsels, Lib.ok_bind, hdsize]
    rfl

theorem takeMany_nothing {α : Type} {r : Reader Fault α} {a : α} (h : Reads r [] a) :
    ∀ n, Reads (takeMany r n) [] (List.replicate n a)
  | 0 => Reads.pure []
  | n + 1 => h.bind_nil ((takeMany_nothing h n).bind_nil (Reads.pure _))

/-- The blocks of a scalar, or of a record of one dimension, take no room. -/
theorem readSelsOn_nothing {dset : DsetInfo} {hdr : MetaHdr} {recnum : Option HSize} {n : Int}
    (henc : hasFlag hdr.flag MetaFlag.selEncode = false) (hdim : encdimRead dset recnum = 0) (hn : 0 < n) :
    ∃ out, ∀ o, Reads (readSelsOn o dset hdr recnum n) [] out := by
  set sels := placeSels dset.esize 0 (List.zipWith (mkBlock recnum) (List.replicate n.toNat [])
    (List.replicate n.toNat [])) with hsels
  have hne : sels ≠ [] := by
    rw [hsels, ← List.length_pos_iff, placeSels_length, List.length_zipWith, List.length_replicate]
    omega
  obtain ⟨dsize, hdsize⟩ := lastBlockEnd_ok dset.esize (encdimRead dset recnum).toNat hne
  refine ⟨(⟨hdr, sels, dsize⟩, []), fun o => ?_⟩
  have hcord : Reads (readCordsOn o false (encdimRead dset recnum) []) [] [] := by
    rw [hdim]
    exact Reads.pure []
  have hcheck : Reads (checkNsel n) [] () := by
    rw [checkNsel, if_neg (by omega)]
    exact Reads.pure ()
  unfold readSelsOn readStepsOn
  rw [henc]
  refine (Reads.pure (ε := Fault) ([] : List MpiOffset)).bind_nil (hcheck.bind_nil ?_)
  refine (takeMany_nothing hcord n.toNat).bind_nil ((takeMany_nothing hcord n.toNat).bind_nil ?_)
  simp only [← hsels, hdsize]
  exact Reads.pure _

/-- Number of blocks and bytes of the selection, as the decoder works them out. -/
def selExtent (dset : DsetInfo) (h : MetaHdr) (recnum : Option HSize) (nsel : Option I32) : Int × Int :=
  nsel.elim (1, sizeofOffset * 2 * encdimRead dset recnum)
    fun n => (n.toInt, unzippedSize h.flag (encdimRead dset recnum) n.toInt)

section Whole

variable {id : I32} {dip : DsetInfo} {sels : Selections} {r : WReq} (hr : WholeEntry id dip sels r) {h : MetaHdr}
  (hflag : h.flag = r.hdr.flag)
include hr hflag

/-- **The body of a whole entry**: behind the block count, the selection is reversed and retrieved. -/
theorem decodeBodyOn_run (hpos : 0 < h.metaSize.toInt) (o : ByteOrder) (z : Option Zlib) (tail : List UInt8) :
    let extent := selExtent dip h (recordOf dip sels) (nselField sels.nsel)
    (decodeBodyOn o z dip h).run (r.body ++ tail) =
      (reversedSelsOn o dip h (recordOf dip sels) extent.2 extent.1).run
        (selField dip sels (hasFlag r.hdr.flag MetaFlag.selEncode) (recordOf dip sels) ++ tail) := by
  intro extent
  have hrec : hasFlag h.flag MetaFlag.record = (recordOf dip sels).isSome := by
    rw [hflag, hr.record]
  have hmul : hasFlag h.flag MetaFlag.mulSel = (nselField sels.nsel).isSome := by
    rw [hflag, hr.mulSel]
  have hzip : hasFlag h.flag MetaFlag.selDeflate = false := by
    rw [hflag, hr.selDeflate]
  rw [decodeBodyOn, checkMetaSize_bind hpos, hr.body, entryPrefix, List.append_assoc, List.append_assoc,
    (readRecnumOn_reads o hrec).run_bind, readBlocksOn, hmul]
  show (if _ then _ else _ : Reader Fault _).run _ = _
  unfold extent selExtent
  rcases nselField sels.nsel with _ | n
  · rfl
  · rw [Option.isSome_some, if_pos rfl]
    refine (reversedInt_run o n _ fun n => unpackSelsOn o z dip h (recordOf dip sels) n.toInt).trans ?_
    simp only [unpackSelsOn, hzip]
    rfl

/-- The decoder counts at least the bytes there are, and some unless no dimension is stored. -/
theorem selExtent_bounds (hrank : sels.ndim = dip.ndim) :
    let extent := selExtent dip h (recordOf dip sels) (nselField sels.nsel)
    0 < extent.1 ∧
      (encdimOf dip (recordOf dip sels) = 0 → extent.2 = 0 ∧
        selField dip sels (hasFlag r.hdr.flag MetaFlag.selEncode) (recordOf dip sels) = []) ∧
      (encdimOf dip (recordOf dip sels) ≠ 0 → 0 < extent.2) ∧
      ((selField dip sels (hasFlag r.hdr.flag MetaFlag.selEncode) (recordOf dip sels)).length : Int) ≤ extent.2 := by
  have hlen := selField_length dip sels (hasFlag r.hdr.flag MetaFlag.selEncode) (recordOf dip sels) hrank
  have henc := hr.selEncode
  have hn : sels.nsel < 2 ^ 31 := sels.nsel_lt
  simp only [selExtent, nselField, encdimRead_eq, ← List.length_eq_zero_iff, hlen, hflag, unzippedSize]
  generalize encdimOf dip (recordOf dip sels) = encdim at henc ⊢
  have h8 : sizeofOffset = 8 := rfl
  -- Several blocks: offsets take a word for each vector, coordinates one for each dimension.
  by_cases hmul : 1 < sels.nsel
  · rw [if_pos hmul, Option.elim_some, toInt_ofNat_of_lt hn]
    by_cases hflag : hasFlag r.hdr.flag MetaFlag.selEncode = true
    · obtain ⟨hdim, -⟩ := henc hflag
      simp only [hflag, if_true, h8]
      push_cast
      omega
    · simp only [hflag, Bool.false_eq_true, if_false, h8]
      refine ⟨by omega, ?_, fun hdim => ?_, le_of_eq ?_⟩
      · rintro rfl
        simp
      · have hpos : 0 < encdim * sels.nsel := Nat.mul_pos (by omega) (by omega)
        have hcast : ((8 : ℕ) : Int) * 2 * encdim * sels.nsel = 16 * ((encdim * sels.nsel : ℕ) : Int) := by
          push_cast
          ring
        omega
      · push_cast
        ring
  · have hflag : hasFlag r.hdr.flag MetaFlag.selEncode = false := by
      by_contra hne
      exact hmul (henc (by simpa using hne)).2
    rw [if_neg hmul, Option.elim_none]
    simp only [hflag, Bool.false_eq_true, if_false, h8]
    have hle : encdim * sels.nsel ≤ encdim * 1 := Nat.mul_le_mul_left encdim (by omega)
    generalize encdim * sels.nsel = words at hle
    omega

/-- **A whole entry is decoded** on every machine exactly when no dimension is stored in it: a big-endian one reverses
eight times the bytes of the selection. -/
theorem wholeBody_reads_iff (hsize : h.metaSize = r.hdr.metaSize) (hrank : sels.ndim = dip.ndim) (z : Option Zlib) :
    (∃ e, ∀ o, Reads (Prod.fst <$> decodeBodyOn o z dip h) r.body e) ↔ encdimOf dip (recordOf dip sels) = 0 := by
  obtain ⟨hn, hzero, hsome, hlen⟩ := selExtent_bounds hr hflag hrank
  have hrun := decodeBodyOn_run hr hflag
  generalize selExtent dip h (recordOf dip sels) (nselField sels.nsel) = extent at hn hzero hsome hlen hrun
  constructor
  · rintro ⟨e, he⟩
    by_contra hdim
    have hok := he .big []
    rw [StateT.run_map] at hok
    by_cases hpos : 0 < h.metaSize.toInt
    · -- the pass runs off the entry
      have hshort : (selField dip sels (hasFlag r.hdr.flag MetaFlag.selEncode) (recordOf dip sels) ++ []).length <
          sizeofOffset * extent.2.toNat := by
        have hsome := hsome hdim
        have h8 : sizeofOffset * extent.2.toNat = 8 * extent.2.toNat := rfl
        rw [List.append_nil]
        omega
      rw [hrun hpos .big z [], reversedSelsOn, StateT.run_bind] at hok
      have hfails : (llreverseAt .big extent.2.toNat).run (selField dip sels (hasFlag r.hdr.flag MetaFlag.selEncode)
          (recordOf dip sels) ++ []) = .error .outside := Lib.rewriteWords_short hshort
      rw [hfails] at hok
      cases hok
    · rw [decodeBodyOn, StateT.run_bind, checkMetaSize, if_pos (by omega)] at hok
      cases hok
  · intro hdim
    obtain ⟨hbytes, hnil⟩ := hzero hdim
    have henc : hasFlag h.flag MetaFlag.selEncode = false := by
      by_contra hne
      have hlt := (hr.selEncode (by rw [← hflag]; simpa using hne)).1
      omega
    have hpos : 0 < h.metaSize.toInt := by
      have hbody : r.body.length ≤ sizeofOffset + sizeofInt := by
        have hfirst : ((recordOf dip sels).elim [] (putWord sizeofOffset)).length ≤ sizeofOffset := by
          rcases recordOf dip sels with _ | v <;> simp
        have hsecond : ((nselField sels.nsel).elim [] (putWord sizeofInt)).length ≤ sizeofInt := by
          rcases nselField sels.nsel with _ | n <;> simp
        rw [hr.body, hnil, List.append_nil, entryPrefix, List.length_append]
        omega
      have h28 : sizeofHdr = 28 := rfl
      have h8 : sizeofOffset = 8 := rfl
      have h4 : sizeofInt = 4 := rfl
      rw [hsize, hr.metaSize (by omega)]
      omega
    have hrec : encdimRead dip (recordOf dip sels) = 0 := by
      rw [encdimRead_eq, hdim]
      rfl
    obtain ⟨out, hout⟩ := readSelsOn_nothing henc hrec hn
    refine ⟨out.1, fun o tail => ?_⟩
    have hpass : (llreverseAt o extent.2.toNat).run tail = .ok ((), tail) := by
      rw [hbytes]
      exact llreverseAt_run o [] tail
    have hread := hout o tail
    rw [List.nil_append] at hread
    rw [StateT.run_map, hrun hpos o z tail, hnil, List.nil_append, reversedSelsOn, StateT.run_bind, hpass, Lib.ok_bind,
      hread]
    rfl

end Whole

/-! ## §8 — one format on both machines. -/

theorem reads_some_iff {m : Reader Fault MetaEntry} {bs : List UInt8} {e : MetaEntry} :
    Reads (some <$> m) bs (some e) ↔ Reads m bs e := by
  constructor
  · intro h tail
    have hrun := h tail
    rw [StateT.run_map] at hrun
    rcases hm : m.run (bs ++ tail) with err | ⟨a, rest⟩
    · rw [hm] at hrun
      cases hrun
    · rw [hm] at hrun
      cases hrun
      rfl
  · intro h
    exact h.map some

/-- **A reader decodes an entry** when an index finds its dataset, and the body is decoded. -/
theorem readEntryOn_reads_iff {h : MetaHdr} (hhalves : h.swapped = h) {dsets : List (Option DsetInfo)} {dset : DsetInfo}
    (hopen : dsetAt dsets h.did = .ok (some dset)) (o : ByteOrder) (ρ : MetaReader) (z : Option Zlib)
    (bcache : Int → List MetaSel) (pos : Int) (body : List UInt8) (e : MetaEntry) :
    Reads (readEntryOn o ρ z dsets bcache pos) (h.bytes ++ body) (some e) ↔
      (ρ = .index → ∃ d, dsetAt dsets (lreverseOn o h.did) = .ok (some d)) ∧
        Reads (if hasFlag h.flag MetaFlag.selRef then refBodyOn o dset bcache pos h
          else Prod.fst <$> decodeBodyOn o z dset h) body e := by
  have hdecode : Reads (decodeEntryOn o z dsets bcache pos) (h.bytes ++ body) e ↔
      Reads (if hasFlag h.flag MetaFlag.selRef then refBodyOn o dset bcache pos h
        else Prod.fst <$> decodeBodyOn o z dset h) body e := by
    refine forall_congr' fun tail => ?_
    rw [List.append_assoc, decodeEntryOn_run hhalves hopen]
  rw [← hdecode, ← reads_some_iff]
  cases ρ with
  | utility =>
    refine (and_iff_right fun hρ => ?_).symm
    cases hρ
  -- An index looks its dataset up before the header is reversed.
  | index =>
    have hrun (tail : List UInt8) := @readEntryOn_index h dsets o z bcache pos (body ++ tail)
    rcases hfound : dsetAt dsets (lreverseOn o h.did) with err | d | d
    · refine iff_of_false (fun hread => ?_) fun hboth => ?_
      · have hok := hread []
        rw [List.append_assoc, hrun, hfound] at hok
        cases hok
      · obtain ⟨d, hd⟩ := hboth.1 rfl
        cases hd
    · refine iff_of_false (fun hread => ?_) fun hboth => ?_
      · have hok := hread []
        rw [List.append_assoc, hrun, hfound] at hok
        cases hok
      · obtain ⟨d, hd⟩ := hboth.1 rfl
        cases hd
    · refine Iff.trans ?_ (and_iff_right fun _ => ⟨d, rfl⟩).symm
      refine forall_congr' fun tail => ?_
      rw [List.append_assoc, hrun, hfound]

/-- Both machines write the entry of the write with the same bytes, and on both a reader decodes these to the same
header and blocks, whatever follows them, which it does not touch. -/
def OrderIndependent (env : FileEnv) (c : WriteCall) (f : RankFile) (id : I32) (dip : DsetInfo) (foff fsize : MpiOffset)
    (ρ : MetaReader) (z : Option Zlib) (dsets : List (Option DsetInfo)) (bcache : Int → List MetaSel) (pos : Int) :
    Prop :=
  ∃ bytes, (∀ o, writeEntryOn o env c f id dip foff fsize = .ok bytes) ∧
    ∃ e, ∀ o, Reads (readEntryOn o ρ z dsets bcache pos) bytes (some e)

/-- **The machines agree** on the entry of a write exactly when both its offsets have equal halves, the entry is a
reference whose blocks are at hand or stores no dimension, and, for an index, the number of the dataset reversed is
that of an open dataset. -/
theorem orderIndependent_iff {env : FileEnv} {c : WriteCall} {f f' : RankFile} {id : I32} {dip : DsetInfo} {r r' : WReq}
    (hinit : wreqInit env.zlib env.config id f.mdsize dip c.sels = .ok r)
    (hencode : encodeReq env c f r = (f', .ok r')) (hrank : c.sels.ndim = dip.ndim) {dsets : List (Option DsetInfo)}
    (hopen : dsetAt dsets id = .ok (some dip)) (foff fsize : MpiOffset) (ρ : MetaReader) (z : Option Zlib)
    (bcache : Int → List MetaSel) (pos : Int) :
    OrderIndependent env c f id dip foff fsize ρ z dsets bcache pos ↔
      swapHalves foff = foff ∧ swapHalves fsize = fsize ∧
        (ρ = .index → ∃ d, dsetAt dsets (lreverse id) = .ok (some d)) ∧
        (r.sharedWith env f).elim (encdimOf dip (recordOf dip c.sels) = 0)
          fun key => Resolves dip (bcache (pos + (key.metaOff - f.mdsize).toInt)) := by
  set h : MetaHdr := { r'.hdr with foff := foff, fsize := fsize } with hh
  have hwrite (o : ByteOrder) : writeEntryOn o env c f id dip foff fsize = .ok (h.flushedOn o ++ r'.body) := by
    rw [writeEntryOn, wreqInitOn_eq, hinit]
    show (encodeReqOn o env c f r).2.map _ = _
    rw [encodeReqOn_eq, hencode]
    rfl
  -- what the entry holds decides how it is decoded
  have hbody : r'.hdr.did = id ∧ ((∃ e, ∀ o, Reads (if hasFlag h.flag MetaFlag.selRef then refBodyOn o dip bcache pos h
      else Prod.fst <$> decodeBodyOn o z dip h) r'.body e) ↔
        (r.sharedWith env f).elim (encdimOf dip (recordOf dip c.sels) = 0)
          fun key => Resolves dip (bcache (pos + (key.metaOff - f.mdsize).toInt))) := by
    rcases hkey : r.sharedWith env f with _ | key
    · have hwhole := wholeEntry_of_encodeReq hinit hencode hkey
      refine ⟨hwhole.did, ?_⟩
      simp only [show hasFlag h.flag MetaFlag.selRef = false from hwhole.selRef, Bool.false_eq_true, if_false]
      exact wholeBody_reads_iff hwhole (h := h) rfl rfl hrank z
    · obtain ⟨recnum, hrefers⟩ := refEntry_of_encodeReq hinit hencode hkey
      refine ⟨hrefers.did, ?_⟩
      simp only [show hasFlag h.flag MetaFlag.selRef = true from hrefers.selRef, if_true]
      exact refBodyOn_reads_iff hrefers (h := h) rfl rfl dip bcache pos
  obtain ⟨hdid, hbody⟩ := hbody
  have hread (hhalves : h.swapped = h) (o : ByteOrder) (e : MetaEntry) :=
    readEntryOn_reads_iff hhalves (show dsetAt dsets h.did = _ by rw [hh, hdid, hopen]) o ρ z bcache pos r'.body e
  rw [← hbody]
  constructor
  · rintro ⟨bytes, hbytes, e, he⟩
    have heq (o : ByteOrder) : bytes = h.flushedOn o ++ r'.body := Except.ok.inj ((hbytes o).symm.trans (hwrite o))
    have hhdr : h.flushedOn .big = h.flushedOn .little :=
      List.append_cancel_right ((heq .big).symm.trans (heq .little))
    obtain ⟨hfoff, hfsize⟩ := (flushedOn_eq_iff h).mp hhdr
    have hhalves : h.swapped = h := by
      rw [MetaHdr.swapped, hfoff, hfsize]
    have hall (o : ByteOrder) := (hread hhalves o e).mp
      (by rw [← show bytes = h.bytes ++ _ from heq .little]; exact he o)
    refine ⟨hfoff, hfsize, fun hρ => ?_, e, fun o => (hall o).2⟩
    obtain ⟨d, hd⟩ := (hall .big).1 hρ
    rw [← hdid]
    exact ⟨d, hd⟩
  · rintro ⟨hfoff, hfsize, hindex, e, he⟩
    have hhalves : h.swapped = h := by
      rw [MetaHdr.swapped, show swapHalves h.foff = h.foff from hfoff, show swapHalves h.fsize = h.fsize from hfsize]
    refine ⟨h.bytes ++ r'.body, fun o => ?_, e, fun o => (hread hhalves o e).mpr ⟨fun hρ => ?_, he o⟩⟩
    · rw [hwrite o]
      cases o with
      | little => rfl
      | big => rw [flushedOn_big, hhalves]
    · cases o with
      | little => exact ⟨dip, by rw [hh]; exact hdid ▸ hopen⟩
      | big =>
        obtain ⟨d, hd⟩ := hindex hρ
        rw [← hdid] at hd
        exact ⟨d, hd⟩

/-- The request of a write of the first two of sixteen elements. -/
def twoElementsReq : WReq where
  hdr := ⟨44, 0, 0, 0, 0⟩
  body := putWords sizeofOffset [(0 : MpiOffset), 2]
  selOff := 28
  nsel := 1
  metaOff := 0
  dbufs := []

/-- A file in which it is queued already, its entry first in the section. -/
def sharedFile : RankFile := { freshFile with mdsize := 44, wreqHash := [twoElementsReq] }

theorem twoElements_init :
    wreqInit (sharingEnv 8).zlib (sharingEnv 8).config 0 sharedFile.mdsize (vectorDset 16) (twoElements true).sels =
      .ok { twoElementsReq with metaOff := 44 } := by
  decide

theorem twoElements_shared : (encodeReq (sharingEnv 8) (twoElements true) sharedFile
    { twoElementsReq with metaOff := 44 }).2 =
      .ok { twoElementsReq with hdr := ⟨36, 0, MetaFlag.selRef, 0, 0⟩, body := putWord sizeofOffset (-44 : MpiOffset),
                                metaOff := 44 } := by
  decide

/-- Written again, the request becomes a reference, and both machines agree on it if its data lies well. -/
theorem orderIndependent_shared :
    OrderIndependent (sharingEnv 8) (twoElements true) sharedFile 0 (vectorDset 16) 0x0000080000000800
      0x0000000800000008 .index none [some (vectorDset 16)] (fun _ => [⟨[0], [2], 0⟩]) 44 := by
  have hencode : encodeReq (sharingEnv 8) (twoElements true) sharedFile { twoElementsReq with metaOff := 44 } =
      ((encodeReq (sharingEnv 8) (twoElements true) sharedFile { twoElementsReq with metaOff := 44 }).1, _) :=
    Prod.ext rfl twoElements_shared
  have hopen : dsetAt [some (vectorDset 16)] 0 = .ok (some (vectorDset 16)) := rfl
  refine (orderIndependent_iff twoElements_init hencode rfl hopen _ _ _ _ _ _).mpr
    ⟨by decide, by decide, fun _ => ⟨vectorDset 16, rfl⟩, ?_⟩
  have hkey : WReq.sharedWith (sharingEnv 8) sharedFile { twoElementsReq with metaOff := 44 } =
      some twoElementsReq := by decide
  rw [hkey]
  refine ⟨by decide, fun s hs => ?_⟩
  obtain rfl := List.mem_singleton.mp hs
  exact ⟨by decide, by decide⟩

/-- **Eight bytes at offset 2048**: a big-endian machine writes another header. -/
theorem not_orderIndependent_twoElements :
    ¬ OrderIndependent (sharingEnv 8) (twoElements true) freshFile 0 (vectorDset 16) 2048 8 .index none
      [some (vectorDset 16)] (fun _ => []) 0 := by
  rintro ⟨bytes, hbytes, -⟩
  have heq := (hbytes .big).trans (hbytes .little).symm
  revert heq
  decide

end LogVol
