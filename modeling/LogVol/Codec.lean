/-
# LogVol.Codec — what the constructor encodes, the decoder reads back.

The constructor and the decoder compute the layout of an entry independently. `decodeSteps_yields`
puts the decoder's reads side by side with the writer's fields (header, record number, block count,
selection) for every combination of flags, `readSels_reads` does the same for the starts and counts of
a selection, and the two layouts are instances: coordinates are always read back, offsets are read
back exactly as far as the division undoes the sum.
-/
import LogVol.WReq
import LogVol.Lib.MixedRadix

namespace LogVol

open Lib (Reader Reads Yields putWord putWords takeMany pureExcept)

/-! ## §1 — where the data of a block lies. -/

/-- The number of elements of a block, as a natural number. -/
def Block.elems (b : Block) : Nat := (b.count.map BitVec.toNat).prod

theorem blockBytes_eq (esize : HSize) (b : Block) :
    blockBytes esize b.count = BitVec.ofNat 64 (esize.toNat * b.elems) := by
  have h : ∀ (cs : List HSize) (e : HSize),
      cs.foldl (· * ·) e = BitVec.ofNat 64 (e.toNat * (cs.map BitVec.toNat).prod) := by
    intro cs
    induction cs with
    | nil =>
        intro e
        rw [List.foldl_nil, List.map_nil, List.prod_nil, mul_one, BitVec.ofNat_toNat,
          BitVec.setWidth_eq]
    | cons c cs ih =>
        intro e
        rw [List.foldl_cons, ih, List.map_cons, List.prod_cons]
        apply BitVec.eq_of_toNat_eq
        rw [BitVec.toNat_ofNat, BitVec.toNat_ofNat, BitVec.toNat_mul, ← mul_assoc, Nat.mul_mod,
          Nat.mod_mod, ← Nat.mul_mod]
  exact h b.count esize

/-- **Data offsets.** Block `i` starts `esize` times the number of elements of the blocks before it
past the start of the entry's data, counted in 64-bit words. -/
theorem placeSels_doff (esize : HSize) :
    ∀ (bs : List Block) (doff : MpiOffset) (i : Nat) (hi : i < (placeSels esize doff bs).length),
      (placeSels esize doff bs)[i].doff =
        doff + BitVec.ofNat 64 (esize.toNat * ((bs.take i).map Block.elems).sum)
  | b :: bs, doff, 0, _ => by simp [placeSels]
  | b :: bs, doff, i + 1, hi => by
      have hi' : i < (placeSels esize (blockBytes esize b.count + doff) bs).length := by
        simpa [placeSels] using hi
      have ih := placeSels_doff esize bs (blockBytes esize b.count + doff) i hi'
      simp only [placeSels, List.getElem_cons_succ, List.take_succ_cons, List.map_cons, List.sum_cons]
      rw [ih, blockBytes_eq, Nat.mul_add, BitVec.ofNat_add]
      ring

/-! ## §2 — the decoder against the fields of an entry. -/

/-- The entry made of the starts and counts read. -/
def buildEntry (dset : DsetInfo) (hdr : MetaHdr) (recnum : Option HSize)
    (starts counts : List (List HSize)) : Except Fault MetaEntry :=
  let sels := placeSels dset.esize 0 (List.zipWith (mkBlock recnum) starts counts)
  (lastBlockEnd dset.esize (encdimRead dset recnum).toNat sels).map fun dsize => ⟨hdr, sels, dsize⟩

theorem buildEntry_ok (dset : DsetInfo) (hdr : MetaHdr) {recnum : Option HSize}
    {starts counts : List (List HSize)} (hne : List.zipWith (mkBlock recnum) starts counts ≠ []) :
    ∃ e, buildEntry dset hdr recnum starts counts = .ok e := by
  have hsels : placeSels dset.esize 0 (List.zipWith (mkBlock recnum) starts counts) ≠ [] := by
    rw [← List.length_pos_iff, placeSels_length, List.length_pos_iff]
    exact hne
  obtain ⟨dsize, hdsize⟩ := lastBlockEnd_ok dset.esize (encdimRead dset recnum).toNat hsels
  exact ⟨⟨hdr, placeSels dset.esize 0 (List.zipWith (mkBlock recnum) starts counts), dsize⟩, by
    simp only [buildEntry, hdsize, Except.map]⟩

theorem buildEntry_eq {dset : DsetInfo} {hdr : MetaHdr} {recnum : Option HSize}
    {starts counts : List (List HSize)} {e : MetaEntry}
    (h : buildEntry dset hdr recnum starts counts = .ok e) :
    e.hdr = hdr ∧
      e.sels = placeSels dset.esize 0 (List.zipWith (mkBlock recnum) starts counts) := by
  simp only [buildEntry] at h
  cases hlast : lastBlockEnd dset.esize (encdimRead dset recnum).toNat
    (placeSels dset.esize 0 (List.zipWith (mkBlock recnum) starts counts)) with
  | error f => rw [hlast] at h; cases h
  | ok dsize =>
      rw [hlast] at h
      obtain rfl := Except.ok.inj h
      exact ⟨rfl, rfl⟩

theorem buildEntry_block {dset : DsetInfo} {hdr : MetaHdr} {recnum : Option HSize}
    {starts counts : List (List HSize)} {e : MetaEntry}
    (h : buildEntry dset hdr recnum starts counts = .ok e) :
    e.sels.map MetaSel.block = List.zipWith (mkBlock recnum) starts counts := by
  rw [(buildEntry_eq h).2, placeSels_block]

/-- Starts and counts are read one by one; the first that cannot be read ends the decode. -/
theorem readSels_yields {dset : DsetInfo} {hdr : MetaHdr} {recnum : Option HSize}
    {dsteps : List MpiOffset} {stepBytes : List UInt8} {bs : List Block}
    {encS encC : Block → List UInt8} {decS decC : Block → Except Fault (List HSize)}
    (hsteps : Reads (readSteps hdr.flag (encdimRead dset recnum)) stepBytes dsteps)
    (hstart : ∀ b ∈ bs, Yields (readCords (hasFlag hdr.flag MetaFlag.selEncode)
      (encdimRead dset recnum) dsteps) (encS b) (decS b))
    (hcount : ∀ b ∈ bs, Yields (readCords (hasFlag hdr.flag MetaFlag.selEncode)
      (encdimRead dset recnum) dsteps) (encC b) (decC b)) :
    Yields (readSels dset hdr recnum bs.length)
      (stepBytes ++ (bs.flatMap encS ++ bs.flatMap encC))
      (do let starts ← bs.mapM decS
          let counts ← bs.mapM decC
          let e ← buildEntry dset hdr recnum starts counts
          pure (e, dsteps)) := by
  have hnsel : Reads (checkNsel bs.length) [] () := by
    rw [checkNsel, if_neg (by omega)]
    exact Reads.pure ()
  refine hsteps.bind (hnsel.bind_nil ((Yields.takeMany hstart).andThen fun starts _ => ?_))
  rw [← List.append_nil (bs.flatMap encC)]
  refine (Yields.takeMany hcount).andThen fun counts _ => ?_
  -- The entry is built last, and fails only if there is no last block.
  have hbuild : (do
        let e ← buildEntry dset hdr recnum starts counts
        pure (e, dsteps)) =
      lastBlockEnd dset.esize (encdimRead dset recnum).toNat
        (placeSels dset.esize 0 (List.zipWith (mkBlock recnum) starts counts)) >>= fun dsize =>
        .ok (⟨hdr, placeSels dset.esize 0 (List.zipWith (mkBlock recnum) starts counts), dsize⟩,
          dsteps) := by
    simp only [buildEntry]
    cases lastBlockEnd dset.esize (encdimRead dset recnum).toNat
      (placeSels dset.esize 0 (List.zipWith (mkBlock recnum) starts counts)) <;> rfl
  rw [hbuild]
  rw [← List.append_nil ([] : List UInt8)]
  exact (Yields.pureExcept _).andThen fun _ _ => Reads.pure _

/-- The fields of an entry before its selection: record number and block count. -/
def entryPrefix (recnum : Option HSize) (nsel : Option I32) : List UInt8 :=
  (recnum.elim [] (putWord sizeofOffset)) ++ (nsel.elim [] (putWord sizeofInt))

theorem readRecnum_reads {flag : I32} {recnum : Option HSize}
    (hrec : hasFlag flag MetaFlag.record = recnum.isSome) :
    Reads (readRecnum flag) (recnum.elim [] (putWord sizeofOffset)) recnum := by
  rw [readRecnum, hrec]
  cases recnum with
  | none => exact Reads.pure none
  | some rec => exact (readOffset_reads rec).map some

/-- The decoder reads header, record number, block count and then the selection, whichever of the two
middle fields the flags announce. -/
theorem decodeSteps_yields {z : Option Zlib} {dset : DsetInfo} {hdr : MetaHdr}
    {recnum : Option HSize} {nsel : Option I32} {selBytes : List UInt8}
    {out : Except Fault (MetaEntry × List MpiOffset)} (hpos : 0 < hdr.metaSize.toInt)
    (hrec : hasFlag hdr.flag MetaFlag.record = recnum.isSome)
    (hmul : hasFlag hdr.flag MetaFlag.mulSel = nsel.isSome)
    (hsel : Yields (nsel.elim (readSels dset hdr recnum 1)
      fun n => unpackSels z dset hdr recnum n.toInt) selBytes out) :
    Yields (metaentryDecodeSteps z dset) (hdr.bytes ++ (entryPrefix recnum nsel ++ selBytes)) out := by
  have hcheck : Reads (checkMetaSize hdr) [] () := by
    rw [checkMetaSize, if_neg (by omega)]
    exact Reads.pure ()
  have hblocks : Yields (readBlocks z dset hdr recnum)
      (nsel.elim [] (putWord sizeofInt) ++ selBytes) out := by
    rw [readBlocks, hmul]
    cases nsel with
    | none => exact hsel
    | some n => exact (readInt_reads n).bind hsel
  rw [entryPrefix, List.append_assoc]
  exact (readHdr_reads hdr).bind (hcheck.bind_nil ((readRecnum_reads hrec).bind hblocks))

/-- Behind header, record number and block count, the decoder is at the selection. -/
theorem decodeSteps_run {z : Option Zlib} {dset : DsetInfo} {hdr : MetaHdr} {recnum : Option HSize} {n : I32}
    (selBytes : List UInt8) (hpos : 0 < hdr.metaSize.toInt)
    (hrec : hasFlag hdr.flag MetaFlag.record = recnum.isSome) (hmul : hasFlag hdr.flag MetaFlag.mulSel = true) :
    (metaentryDecodeSteps z dset).run (hdr.bytes ++ (entryPrefix recnum (some n) ++ selBytes)) =
      (unpackSels z dset hdr recnum n.toInt).run selBytes := by
  have hcheck : (checkMetaSize hdr).run (entryPrefix recnum (some n) ++ selBytes) =
      .ok ((), entryPrefix recnum (some n) ++ selBytes) := by
    rw [checkMetaSize, if_neg (by omega)]
    rfl
  have hnumber := readRecnum_reads hrec (putWord sizeofInt n ++ selBytes)
  have hcount := readInt_reads n selBytes
  rw [metaentryDecodeSteps, StateT.run_bind, readHdr_reads hdr (entryPrefix recnum (some n) ++ selBytes)]
  show (checkMetaSize hdr >>= fun _ => readRecnum hdr.flag >>= readBlocks z dset hdr).run _ = _
  rw [StateT.run_bind, hcheck]
  show (readRecnum hdr.flag >>= readBlocks z dset hdr).run (entryPrefix recnum (some n) ++ selBytes) = _
  rw [entryPrefix, List.append_assoc, StateT.run_bind, Option.elim_some, hnumber]
  show (readBlocks z dset hdr recnum).run _ = _
  rw [readBlocks, if_pos hmul, StateT.run_bind, hcount]
  rfl

/-! ## §3 — what the constructor writes. -/

section Constructor

variable (z : Option Zlib) (config : I32) (dip : DsetInfo) (sels : Selections)

theorem wreqFlag_record :
    hasFlag (wreqFlag z config dip sels) MetaFlag.record = (recordOf dip sels).isSome := by
  simp [wreqFlag, hasFlag_orIf]

theorem wreqFlag_mulSel :
    hasFlag (wreqFlag z config dip sels) MetaFlag.mulSel = decide (1 < sels.nsel) := by
  simp [wreqFlag, hasFlag_orIf]

theorem wreqFlag_selEncode :
    hasFlag (wreqFlag z config dip sels) MetaFlag.selEncode =
      (decide (1 < sels.nsel) && decide (1 < encdimOf dip (recordOf dip sels)) &&
        hasFlag config FileConfig.selEncode) := by
  simp [wreqFlag, hasFlag_orIf]

theorem wreqFlag_selDeflate :
    hasFlag (wreqFlag z config dip sels) MetaFlag.selDeflate =
      (decide (1 < sels.nsel) && z.isSome && hasFlag config FileConfig.selDeflate) := by
  simp [wreqFlag, hasFlag_orIf]

theorem wreqFlag_selRef : hasFlag (wreqFlag z config dip sels) MetaFlag.selRef = false := by
  simp [wreqFlag, hasFlag_orIf]

/-- The block count of an entry, stored when there is more than one block. -/
def nselField (nsel : Nat) : Option I32 := if 1 < nsel then some (BitVec.ofNat 32 nsel) else none

/-- The selection part of an entry: steps and offsets, or coordinates. -/
def selField (encoded : Bool) (recnum : Option HSize) : List UInt8 :=
  if encoded then
    putWords sizeofOffset ((dip.dsteps.drop (dip.ndim - encdimOf dip recnum)).take
      (encdimOf dip recnum - 1)) ++ sels.encode (some dip.dsteps) (dimoffOf recnum)
  else sels.encode none (dimoffOf recnum)

theorem wreqBody_eq :
    wreqBody (wreqFlag z config dip sels) dip sels (recordOf dip sels) =
      entryPrefix (recordOf dip sels) (nselField sels.nsel) ++
        selField dip sels (hasFlag (wreqFlag z config dip sels) MetaFlag.selEncode)
          (recordOf dip sels) := by
  rw [wreqBody, wreqFlag_record, wreqFlag_mulSel, entryPrefix, selField, nselField]
  have hrec : (if (recordOf dip sels).isSome = true
        then putWord sizeofOffset ((recordOf dip sels).getD 0) else []) =
      (recordOf dip sels).elim [] (putWord sizeofOffset) := by
    cases recordOf dip sels <;> rfl
  have hmul : (if decide (1 < sels.nsel) = true
        then putWord sizeofInt (BitVec.ofNat 32 sels.nsel) else []) =
      (if 1 < sels.nsel then some (BitVec.ofNat 32 sels.nsel) else none).elim []
        (putWord sizeofInt) := by
    by_cases h : 1 < sels.nsel <;> simp [h]
  rw [hrec, hmul, dimoffOf]

theorem encdimOf_le (recnum : Option HSize) : encdimOf dip recnum ≤ dip.ndim := by
  unfold encdimOf
  split <;> omega

theorem ndim_sub_dimoffOf (recnum : Option HSize) :
    dip.ndim - dimoffOf recnum = encdimOf dip recnum := by
  unfold encdimOf dimoffOf
  split <;> simp

/-- The number of 8-byte words of the selection part. -/
theorem selField_length (encoded : Bool) (recnum : Option HSize) (hrank : sels.ndim = dip.ndim) :
    (selField dip sels encoded recnum).length = sizeofOffset *
      (if encoded then encdimOf dip recnum - 1 + sels.nsel * 2
        else encdimOf dip recnum * sels.nsel * 2) := by
  have hsteps : ((dip.dsteps.drop (dip.ndim - encdimOf dip recnum)).take
      (encdimOf dip recnum - 1)).length = encdimOf dip recnum - 1 := by
    have hle := encdimOf_le dip recnum
    have hlen : dip.dsteps.length = dip.ndim := dip.dsteps_length
    rw [List.length_take, List.length_drop, hlen]
    omega
  cases encoded with
  | true =>
      rw [selField, if_pos rfl, if_pos rfl, List.length_append, Lib.putWords_length, hsteps,
        encode_length_offsets]
      ring
  | false =>
      rw [selField, if_neg Bool.false_ne_true, if_neg Bool.false_ne_true, encode_length_coords, hrank,
        ndim_sub_dimoffOf]

/-- The size of the entry the constructor builds, in bytes. -/
def entrySize : Nat :=
  sizeofHdr + (wreqBody (wreqFlag z config dip sels) dip sels (recordOf dip sels)).length

/-- The entry built when its size fits the `int32_t` field. -/
def wreqOf (id : I32) (mdsize : MpiOffset) : WReq :=
  { hdr := { metaSize := BitVec.ofNat 32 (entrySize z config dip sels), did := id,
             flag := wreqFlag z config dip sels, foff := 0, fsize := 0 }
    body := wreqBody (wreqFlag z config dip sels) dip sels (recordOf dip sels)
    selOff := if (recordOf dip sels).isSome then sizeofHdr + sizeofOffset else sizeofHdr
    nsel := sels.nsel
    metaOff := mdsize
    dbufs := [] }

/-- The number of 8-byte words of the selection part of the entry. -/
def selWords : Nat :=
  if hasFlag (wreqFlag z config dip sels) MetaFlag.selEncode
  then encdimOf dip (recordOf dip sels) - 1 + sels.nsel * 2
  else encdimOf dip (recordOf dip sels) * sels.nsel * 2

theorem entrySize_eq (hrank : sels.ndim = dip.ndim) :
    entrySize z config dip sels = sizeofHdr +
      (if (recordOf dip sels).isSome then sizeofOffset else 0) +
      (if 1 < sels.nsel then sizeofInt else 0) + sizeofOffset * selWords z config dip sels := by
  have hrecnum : ((recordOf dip sels).elim [] (putWord sizeofOffset)).length =
      if (recordOf dip sels).isSome then sizeofOffset else 0 := by
    cases recordOf dip sels <;> simp
  have hnsel : ((nselField sels.nsel).elim [] (putWord sizeofInt)).length =
      if 1 < sels.nsel then sizeofInt else 0 := by
    unfold nselField
    split <;> simp
  rw [entrySize, wreqBody_eq, List.length_append, selField_length dip sels _ _ hrank, entryPrefix,
    List.length_append, hrecnum, hnsel, selWords]
  omega

/-- The factor of `mbsize` is the number of words of the selection part, kept in an `int`. -/
theorem wreqMbsize_eq :
    wreqMbsize (wreqFlag z config dip sels) (encdimOf dip (recordOf dip sels)) sels.nsel =
      BitVec.ofNat 64 (sizeofHdr + (if (recordOf dip sels).isSome then sizeofOffset else 0) +
        (if 1 < sels.nsel then sizeofInt else 0)) +
      BitVec.ofNat 64 sizeofOffset * BitVec.ofInt 64 (cInt (selWords z config dip sels)) := by
  have hwords : (if hasFlag (wreqFlag z config dip sels) MetaFlag.selEncode = true
      then cInt ((encdimOf dip (recordOf dip sels) : Int) - 1 + sels.nsel * 2)
      else cInt ((encdimOf dip (recordOf dip sels) : Int) * sels.nsel * 2)) =
      cInt (selWords z config dip sels) := by
    rw [selWords]
    by_cases henc : hasFlag (wreqFlag z config dip sels) MetaFlag.selEncode = true
    · rw [if_pos henc, if_pos henc]
      rw [wreqFlag_selEncode, Bool.and_eq_true, Bool.and_eq_true, decide_eq_true_eq] at henc
      have hpos := of_decide_eq_true henc.1.2
      push_cast [Nat.cast_sub (by omega : 1 ≤ encdimOf dip (recordOf dip sels))]
      rfl
    · rw [if_neg henc, if_neg henc]
      push_cast
      rfl
  rw [wreqMbsize, hwords, wreqFlag_record, wreqFlag_mulSel]
  simp only [BitVec.ofNat_add, apply_ite (BitVec.ofNat 64), decide_eq_true_eq]
  rfl

theorem selWords_lt_of_size (hrank : sels.ndim = dip.ndim)
    (hsize : entrySize z config dip sels < 2 ^ 31) : selWords z config dip sels < 2 ^ 31 := by
  have hentry := entrySize_eq z config dip sels hrank
  have h8 : sizeofOffset = 8 := rfl
  rw [h8] at hentry
  omega

/-- **The constructor succeeds** whenever the number of words of the selection fits an `int`. -/
theorem wreqInit_eq (id : I32) (mdsize : MpiOffset) (hrank : sels.ndim = dip.ndim)
    (hwords : selWords z config dip sels < 2 ^ 31) :
    wreqInit z config id mdsize dip sels = .ok (wreqOf z config dip sels id mdsize) := by
  have hentry := entrySize_eq z config dip sels hrank
  have hmb : wreqMbsize (wreqFlag z config dip sels) (encdimOf dip (recordOf dip sels)) sels.nsel =
      BitVec.ofNat 64 (entrySize z config dip sels) := by
    rw [wreqMbsize_eq, cInt_of_range (by omega) (by omega), BitVec.ofInt_natCast, hentry,
      ← BitVec.ofNat_mul, ← BitVec.ofNat_add]
  have hnat : (BitVec.ofNat 64 (entrySize z config dip sels)).toNat = entrySize z config dip sels := by
    have hrec : (if (recordOf dip sels).isSome then sizeofOffset else 0) ≤ 8 := by split <;> decide
    have hmul : (if 1 < sels.nsel then sizeofInt else 0) ≤ 4 := by split <;> decide
    have h28 : sizeofHdr = 28 := rfl
    have h8 : sizeofOffset * selWords z config dip sels = 8 * selWords z config dip sels := rfl
    rw [BitVec.toNat_ofNat]
    omega
  have hint : (BitVec.ofNat 64 (entrySize z config dip sels)).setWidth 32 =
      BitVec.ofNat 32 (entrySize z config dip sels) := by
    apply BitVec.eq_of_toNat_eq
    rw [BitVec.toNat_setWidth, hnat, BitVec.toNat_ofNat]
  unfold wreqInit
  simp only [hmb, hnat, hint]
  rw [if_neg (show ¬ (entrySize z config dip sels ≠ sizeofHdr + _) from fun h => h rfl), wreqOf,
    wreqFlag_record]

theorem selWords_lt : selWords z config dip sels < 2 ^ 38 := by
  have hn : sels.nsel < 2 ^ 31 := sels.nsel_lt
  have he : encdimOf dip (recordOf dip sels) ≤ 32 := (encdimOf_le dip _).trans dip.rank_le
  have hmul : encdimOf dip (recordOf dip sels) * sels.nsel ≤ 32 * sels.nsel :=
    Nat.mul_le_mul_right _ he
  unfold selWords
  split <;> omega

/-- A word count that wrapped in its `int` gives another size than the true one. -/
theorem wrapped_size_ne {pre w : Nat} (hpre : pre ≤ 40) (hw : 2 ^ 31 ≤ w) (hlt : w < 2 ^ 38) :
    (BitVec.ofInt 64 (pre + 8 * cInt w)).toNat ≠ pre + 8 * w := by
  have hlo : -2147483648 ≤ cInt w := Int.le_bmod (by decide)
  have hhi : cInt w < 2147483648 := Int.bmod_lt (by decide)
  have hmod : cInt w + 4294967296 * (w : Int).bdiv (2 ^ 32) = w := Int.bmod_add_bdiv w (2 ^ 32)
  rw [BitVec.toNat_ofInt]
  generalize cInt w = c at *
  generalize (w : Int).bdiv (2 ^ 32) = k at *
  norm_num at hw hlt ⊢
  omega

/-- With more words than an `int` counts, the allocation does not hold the entry. -/
theorem wreqInit_error (id : I32) (mdsize : MpiOffset) (hrank : sels.ndim = dip.ndim)
    (hwords : 2 ^ 31 ≤ selWords z config dip sels) :
    wreqInit z config id mdsize dip sels = .error .outside := by
  have hentry := entrySize_eq z config dip sels hrank
  have hlt := selWords_lt z config dip sels
  set pre := sizeofHdr + (if (recordOf dip sels).isSome then sizeofOffset else 0) +
    (if 1 < sels.nsel then sizeofInt else 0) with hpre
  have hpre_lt : pre ≤ 40 := by
    rw [hpre]
    split <;> split <;> decide
  have hmb : wreqMbsize (wreqFlag z config dip sels) (encdimOf dip (recordOf dip sels)) sels.nsel =
      BitVec.ofInt 64 (pre + 8 * cInt (selWords z config dip sels)) := by
    rw [wreqMbsize_eq, BitVec.ofInt_add, BitVec.ofInt_mul, BitVec.ofInt_natCast]
    rfl
  have hne : (BitVec.ofInt 64 (pre + 8 * cInt (selWords z config dip sels))).toNat ≠
      entrySize z config dip sels := by
    rw [hentry]
    exact wrapped_size_ne hpre_lt hwords hlt
  unfold wreqInit
  simp only [hmb]
  rw [if_pos (show (BitVec.ofInt 64 _).toNat ≠ sizeofHdr + _ from hne)]

/-- The entry is exactly `meta_size` bytes long. -/
theorem wreqOf_metaBuf_length (id : I32) (mdsize : MpiOffset)
    (hsize : entrySize z config dip sels < 2 ^ 31) :
    ((wreqOf z config dip sels id mdsize).metaBuf.length : Int) =
      (wreqOf z config dip sels id mdsize).hdr.metaSize.toInt := by
  have hlen : (wreqOf z config dip sels id mdsize).metaBuf.length = entrySize z config dip sels := by
    rw [WReq.metaBuf, List.length_append, MetaHdr.bytes_length, wreqOf, entrySize]
  have hmeta : (wreqOf z config dip sels id mdsize).hdr.metaSize =
      BitVec.ofNat 32 (entrySize z config dip sels) := rfl
  rw [hlen, hmeta, toInt_ofNat_of_lt hsize]

theorem wreqOf_metaSize_pos (id : I32) (mdsize : MpiOffset)
    (hsize : entrySize z config dip sels < 2 ^ 31) :
    0 < (wreqOf z config dip sels id mdsize).hdr.metaSize.toInt := by
  rw [← wreqOf_metaBuf_length z config dip sels id mdsize hsize, WReq.metaBuf, List.length_append,
    MetaHdr.bytes_length]
  have h28 : sizeofHdr = 28 := rfl
  omega

end Constructor

/-! ## §4 — records. -/

/-- A record selection is over a dataset with a first dimension, and every block covers exactly the
record's index of it. -/
theorem recordOf_eq_some {dip : DsetInfo} {sels : Selections} {rec : HSize}
    (h : recordOf dip sels = some rec) :
    1 ≤ dip.ndim ∧ ∀ b ∈ sels.sels, b.count.getD 0 0 = 1 ∧ b.start.getD 0 0 = rec := by
  unfold recordOf at h
  split at h
  · cases h
  · rename_i b bs hbs
    simp only at h
    split at h
    · rename_i hcond
      obtain rfl := Option.some.inj h
      refine ⟨?_, hcond.2⟩
      rw [DsetInfo.ndim, ← dip.mdims_length]
      by_contra hlt
      rw [List.length_eq_zero_iff.mp (by omega : dip.mdims.length = 0)] at hcond
      cases hcond.1
    · cases h

/-- Dropping the record dimension and putting the record number back gives the block. -/
theorem mkBlock_drop {dip : DsetInfo} {sels : Selections} (hrank : sels.ndim = dip.ndim) {b : Block}
    (hb : b ∈ sels.sels) :
    mkBlock (recordOf dip sels) (b.start.drop (dimoffOf (recordOf dip sels)))
      (b.count.drop (dimoffOf (recordOf dip sels))) = b := by
  cases hrec : recordOf dip sels with
  | none => rfl
  | some rec =>
      obtain ⟨hpos, hall⟩ := recordOf_eq_some hrec
      obtain ⟨hcount, hstart⟩ := hall b hb
      obtain ⟨hls, hlc⟩ := sels.rank_eq b hb
      obtain ⟨start, count⟩ := b
      cases start with
      | nil => simp only [List.length_nil] at hls; omega
      | cons s ss =>
          cases count with
          | nil => simp only [List.length_nil] at hlc; omega
          | cons c cs =>
              simp only [List.getD_cons_zero] at hcount hstart
              rw [hcount, hstart]
              rfl

theorem encdimRead_eq {dip : DsetInfo} {sels : Selections} :
    encdimRead dip (recordOf dip sels) = encdimOf dip (recordOf dip sels) := by
  unfold encdimRead encdimOf
  cases hrec : recordOf dip sels with
  | none => rfl
  | some rec =>
      have hpos := (recordOf_eq_some hrec).1
      simp only [Option.isSome_some, if_true]
      omega

/-! ## §5 — the coordinate layout. -/

/-- An uncompressed entry is read back as soon as its selection part is. -/
theorem wreqOf_yields (z' : Option Zlib) {z : Option Zlib} {config id : I32} {mdsize : MpiOffset} {dip : DsetInfo}
    {sels : Selections} {out : Except Fault (MetaEntry × List MpiOffset)}
    (hpos : 0 < (wreqOf z config dip sels id mdsize).hdr.metaSize.toInt) (hne : sels.sels ≠ [])
    (hzip : hasFlag (wreqFlag z config dip sels) MetaFlag.selDeflate = false)
    (hsel : Yields (readSels dip (wreqOf z config dip sels id mdsize).hdr (recordOf dip sels) sels.nsel)
      (selField dip sels (hasFlag (wreqFlag z config dip sels) MetaFlag.selEncode)
        (recordOf dip sels)) out) :
    Yields (metaentryDecodeSteps z' dip) (wreqOf z config dip sels id mdsize).metaBuf out := by
  have hmul : hasFlag (wreqOf z config dip sels id mdsize).hdr.flag MetaFlag.mulSel =
      (nselField sels.nsel).isSome := by
    rw [show (wreqOf z config dip sels id mdsize).hdr.flag = wreqFlag z config dip sels from rfl,
      wreqFlag_mulSel, nselField]
    by_cases h : 1 < sels.nsel <;> simp [h]
  have hbody : (wreqOf z config dip sels id mdsize).body =
      entryPrefix (recordOf dip sels) (nselField sels.nsel) ++
        selField dip sels (hasFlag (wreqFlag z config dip sels) MetaFlag.selEncode)
          (recordOf dip sels) := wreqBody_eq z config dip sels
  rw [WReq.metaBuf, hbody]
  refine decodeSteps_yields hpos (wreqFlag_record z config dip sels) hmul ?_
  unfold nselField
  by_cases h : 1 < sels.nsel
  · rw [if_pos h, Option.elim_some, toInt_ofNat_of_lt (n := sels.nsel) sels.nsel_lt,
      unpackSels_plain hzip]
    exact hsel
  · -- A single block has no count in front.
    have hn : sels.nsel = 1 := by
      have := List.length_pos_iff.mpr hne
      unfold Selections.nsel at h ⊢
      omega
    rw [hn] at hsel
    rw [if_neg h, Option.elim_none]
    exact hsel

/-- Coordinates are read back as they were written. -/
theorem readSels_coords {config : I32} {z : Option Zlib} {dip : DsetInfo} {sels : Selections}
    (id : I32) (mdsize : MpiOffset) (hrank : sels.ndim = dip.ndim) (hne : sels.sels ≠ [])
    (henc : hasFlag (wreqFlag z config dip sels) MetaFlag.selEncode = false) :
    ∃ dsize, Reads (readSels dip (wreqOf z config dip sels id mdsize).hdr (recordOf dip sels) sels.nsel)
      (selField dip sels false (recordOf dip sels))
      (⟨(wreqOf z config dip sels id mdsize).hdr, placeSels dip.esize 0 sels.sels, dsize⟩, []) := by
  have hflag : hasFlag (wreqOf z config dip sels id mdsize).hdr.flag MetaFlag.selEncode = false := henc
  -- The vectors without the dimensions in front, which the record number stands for.
  have hcords (f : Block → List HSize) (hf : ∀ b ∈ sels.sels, (f b).length = dip.ndim) :
      ∀ b ∈ sels.sels, Reads (readCords (hasFlag (wreqOf z config dip sels id mdsize).hdr.flag
        MetaFlag.selEncode) (encdimRead dip (recordOf dip sels)) [])
        (putWords sizeofOffset ((f b).drop (dimoffOf (recordOf dip sels))))
        ((f b).drop (dimoffOf (recordOf dip sels))) := by
    intro b hb
    rw [hflag, readCords, if_neg Bool.false_ne_true]
    refine readOffsets_reads ?_
    rw [List.length_drop, hf b hb, encdimRead_eq, ndim_sub_dimoffOf]
  have hsteps : Reads (readSteps (wreqOf z config dip sels id mdsize).hdr.flag
      (encdimRead dip (recordOf dip sels))) [] [] := by
    rw [readSteps, hflag]
    exact Reads.pure []
  have hzip : List.zipWith (mkBlock (recordOf dip sels))
      (sels.sels.map fun b => b.start.drop (dimoffOf (recordOf dip sels)))
      (sels.sels.map fun b => b.count.drop (dimoffOf (recordOf dip sels))) = sels.sels := by
    rw [List.zipWith_map, List.zipWith_self, List.map_congr_left fun b hb => mkBlock_drop hrank hb,
      List.map_id']
  obtain ⟨e, he⟩ := buildEntry_ok dip (wreqOf z config dip sels id mdsize).hdr (by rw [hzip]; exact hne)
  have heq : e = ⟨(wreqOf z config dip sels id mdsize).hdr, placeSels dip.esize 0 sels.sels, e.dsize⟩ := by
    obtain ⟨hhdr, hsels⟩ := buildEntry_eq he
    rw [hzip] at hsels
    rw [← hhdr, ← hsels]
  have hread := readSels_yields hsteps
    (hcords Block.start fun b hb => (sels.rank_eq b hb).1.trans hrank)
    (hcords Block.count fun b hb => (sels.rank_eq b hb).2.trans hrank)
  have hok (f : Block → List HSize) :
      sels.sels.mapM (fun b => (Except.ok (f b) : Except Fault _)) = .ok (sels.sels.map f) :=
    List.mapM_pure
  rw [hok, hok] at hread
  change Yields _ _ (buildEntry _ _ _ _ _ >>= _) at hread
  rw [he] at hread
  refine ⟨e.dsize, ?_⟩
  rw [← heq]
  exact hread

/-- **The coordinate layout round-trips.** The entry the constructor builds for a non-empty selection
of the dataset's rank, when it fits the `int32_t` size and is neither offset-encoded, compressed nor a
reference, decodes to the same dataset and the same blocks in the same order, each block's data
starting `esize` times the number of elements of the earlier blocks into the entry's data; whatever
follows the entry in its buffer, the decoder consumes exactly its `meta_size` bytes. -/
theorem metaentryDecode_wreqInit (z z' : Option Zlib) (config id : I32) (mdsize : MpiOffset)
    (dip : DsetInfo) (sels : Selections) (hrank : sels.ndim = dip.ndim) (hne : sels.sels ≠ [])
    (hsize : entrySize z config dip sels < 2 ^ 31) :
    ∃ r, wreqInit z config id mdsize dip sels = .ok r ∧
      (r.metaBuf.length : Int) = r.hdr.metaSize.toInt ∧
      (hasFlag r.hdr.flag MetaFlag.selEncode = false → hasFlag r.hdr.flag MetaFlag.selDeflate = false →
        hasFlag r.hdr.flag MetaFlag.selRef = false →
        ∀ tail, ∃ e steps, (metaentryDecodeSteps z' dip).run (r.metaBuf ++ tail) = .ok ((e, steps), tail) ∧
          metaentryDecode z' dip (r.metaBuf ++ tail) = .ok e ∧
          e.hdr.did = id ∧ e.sels.map MetaSel.block = sels.sels ∧
          ∀ i (hi : i < e.sels.length), e.sels[i].doff =
            BitVec.ofNat 64 (dip.esize.toNat * ((sels.sels.take i).map Block.elems).sum)) := by
  have hpos := wreqOf_metaSize_pos z config dip sels id mdsize hsize
  refine ⟨wreqOf z config dip sels id mdsize, wreqInit_eq z config dip sels id mdsize hrank
    (selWords_lt_of_size z config dip sels hrank hsize),
    wreqOf_metaBuf_length z config dip sels id mdsize hsize, fun henc hzip _ tail => ?_⟩
  obtain ⟨dsize, hsel⟩ := readSels_coords id mdsize hrank hne henc
  have henc' : hasFlag (wreqFlag z config dip sels) MetaFlag.selEncode = false := henc
  have hread := wreqOf_yields z' hpos hne hzip (by rw [henc']; exact hsel)
  have hrun := hread tail
  refine ⟨_, _, hrun, ?_, rfl, placeSels_block dip.esize 0 sels.sels, fun i hi => ?_⟩
  · rw [metaentryDecode, hrun]
    rfl
  · rw [placeSels_doff, zero_add]

/-- A dataset of 4-byte elements with an unlimited first dimension. -/
def sampleRecordDset : DsetInfo :=
  DsetInfo.plain 4 [5, 3] [unlimited, 3] [3, 1] (by decide) rfl rfl

/-- Two blocks of the record 2. -/
def sampleRecordSels : Selections :=
  { ndim := 2, sels := [⟨[2, 0], [1, 1]⟩, ⟨[2, 2], [1, 1]⟩], rank_eq := by decide, nsel_lt := by decide }

theorem metaentryDecode_wreqInit_record :
    ∃ r e, wreqInit none 0 7 0 sampleRecordDset sampleRecordSels = .ok r ∧
      hasFlag r.hdr.flag MetaFlag.record = true ∧
      metaentryDecode none sampleRecordDset r.metaBuf = .ok e ∧
      e.sels.map MetaSel.block = sampleRecordSels.sels := by
  obtain ⟨r, hr, -, hdecode⟩ := metaentryDecode_wreqInit none none 0 7 0 sampleRecordDset
    sampleRecordSels rfl (by decide) (by decide)
  have hr' := hr.symm.trans
    (wreqInit_eq none 0 sampleRecordDset sampleRecordSels 7 0 rfl (by decide))
  obtain rfl := Except.ok.inj hr'
  obtain ⟨e, steps, -, he, -, hsels, -⟩ := hdecode (by decide) (by decide) (by decide) []
  rw [List.append_nil] at he
  exact ⟨_, e, hr, by decide, he, hsels⟩

end LogVol
