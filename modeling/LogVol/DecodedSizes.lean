/-
# LogVol.DecodedSizes — the data sizes and data offsets of decoded entries.

Three loops compute them. The full decoder lays blocks out with the element size of the dataset and adds
the size of the last block, over the dimensions *stored*: in a record entry it takes the record's own
dimension for the first of these and so leaves the last one out. A reference gets its size over all
dimensions, but keeps the offsets computed for the entry it refers to, with the element size of that
entry's dataset. `SizesRight` says what the sizes should be, `decodedSizes_iff` when they are.
-/
import LogVol.DedupEntry
import LogVol.MergedCodec
import LogVol.Sections

namespace LogVol

open Lib (Reader putWord)

/-! ## §1 — offsets of blocks laid end to end. -/

/-- The data offsets of blocks. -/
def doffs (sels : List MetaSel) : List MpiOffset := sels.map MetaSel.doff

/-- The number of elements of a list of blocks. -/
def totalElems (sels : List MetaSel) : Nat := (sels.map fun s => s.block.elems).sum

/-- **`SizesRight`** — the data of each block starts where the data of the blocks before it ends, and the
data of the entry ends with that of its last block, all of it counted in elements of `esize` bytes. -/
structure SizesRight (esize : HSize) (e : MetaEntry) : Prop where
  doff : ∀ i (hi : i < e.sels.length),
    e.sels[i].doff = BitVec.ofNat 64 (esize.toNat * totalElems (e.sels.take i))
  dsize : e.dsize = BitVec.ofNat 64 (esize.toNat * totalElems e.sels)

theorem totalElems_eq (sels : List MetaSel) :
    totalElems sels = ((sels.map MetaSel.block).map Block.elems).sum := by
  rw [totalElems, List.map_map]
  rfl

theorem doff_iff_placed {esize : HSize} {sels : List MetaSel} :
    (∀ i (hi : i < sels.length),
      sels[i].doff = BitVec.ofNat 64 (esize.toNat * totalElems (sels.take i))) ↔
      doffs sels = doffs (placeSels esize 0 (sels.map MetaSel.block)) := by
  have hplaced (i : Nat) (hi : i < (placeSels esize 0 (sels.map MetaSel.block)).length) :
      (placeSels esize 0 (sels.map MetaSel.block))[i].doff =
        BitVec.ofNat 64 (esize.toNat * totalElems (sels.take i)) := by
    rw [placeSels_doff, zero_add, totalElems_eq]
    simp only [List.map_take]
  have hlen : (doffs sels).length = (doffs (placeSels esize 0 (sels.map MetaSel.block))).length := by
    simp [doffs]
  constructor
  · intro h
    apply List.ext_getElem hlen
    intro i hi hi'
    simp only [doffs, List.getElem_map]
    rw [h, hplaced]
  · intro h i hi
    have hi' : i < (placeSels esize 0 (sels.map MetaSel.block)).length := by simpa using hi
    have hget := congrArg (fun l : List HSize => l[i]?) h
    simp only [doffs, List.getElem?_map, List.getElem?_eq_getElem hi, List.getElem?_eq_getElem hi',
      Option.map_some, Option.some.injEq] at hget
    rw [hget, hplaced]

/-- Where the offsets are right, the data ends behind the last block. -/
theorem end_of_placed {esize : HSize} {sels : List MetaSel}
    (h : doffs sels = doffs (placeSels esize 0 (sels.map MetaSel.block))) {s : MetaSel}
    (hlast : sels.getLast? = some s) :
    BitVec.ofNat 64 (esize.toNat * totalElems sels) = blockBytes esize s.count + s.doff := by
  obtain ⟨init, rfl⟩ := List.getLast?_eq_some_iff.mp hlast
  have hdoff := doff_iff_placed.mpr h init.length (by simp)
  rw [List.getElem_concat_length rfl, List.take_left] at hdoff
  have htotal : totalElems (init ++ [s]) = totalElems init + s.block.elems := by
    simp [totalElems]
  have hbytes : blockBytes esize s.count = BitVec.ofNat 64 (esize.toNat * s.block.elems) :=
    blockBytes_eq esize s.block
  rw [htotal, Nat.mul_add, BitVec.ofNat_add, hdoff, hbytes, add_comm]

theorem doffs_placeSels_cons (esize : HSize) (doff : MpiOffset) (b : Block) (bs : List Block) :
    doffs (placeSels esize doff (b :: bs)) =
      doff :: doffs (placeSels esize (blockBytes esize b.count + doff) bs) := rfl

/-- Blocks laid out with two element sizes start at the same places if and only if each of them but the
last takes as many bytes with the one as with the other. -/
theorem doffs_placed_iff {esize esize' : HSize} {doff : MpiOffset} {bs bs' : List Block}
    (hlen : bs'.length = bs.length) :
    doffs (placeSels esize' doff bs') = doffs (placeSels esize doff bs) ↔
      ∀ p ∈ (bs'.zip bs).dropLast, blockBytes esize' p.1.count = blockBytes esize p.2.count := by
  induction bs generalizing bs' doff with
  | nil =>
      obtain rfl := List.length_eq_zero_iff.mp hlen
      simp [placeSels]
  | cons b bs ih =>
      obtain ⟨b', bs', rfl⟩ := List.exists_cons_of_length_eq_add_one hlen
      have hlen' : bs'.length = bs.length := Nat.succ.inj hlen
      rw [doffs_placeSels_cons, doffs_placeSels_cons, List.cons_inj_right]
      rcases bs with _ | ⟨c, bs⟩
      · obtain rfl := List.length_eq_zero_iff.mp hlen'
        simp [placeSels, doffs]
      · obtain ⟨c', bs', rfl⟩ := List.exists_cons_of_length_eq_add_one hlen'
        have hzip : ((b' :: c' :: bs').zip (b :: c :: bs)).dropLast =
            (b', b) :: ((c' :: bs').zip (c :: bs)).dropLast := rfl
        rw [hzip, List.forall_mem_cons]
        constructor
        · intro h
          have hsame : blockBytes esize' b'.count + doff = blockBytes esize b.count + doff := by
            rw [doffs_placeSels_cons, doffs_placeSels_cons] at h
            exact (List.cons.inj h).1
          rw [hsame] at h
          exact ⟨add_right_cancel hsame, (ih hlen').mp h⟩
        · rintro ⟨hbytes, hrest⟩
          rw [hbytes]
          exact (ih hlen').mpr hrest

/-- Once the offsets are right, the size of an entry is right if the counts it is computed over are all
that matter of the last block. -/
theorem sizesRight_iff {esize : HSize} {k : Nat} {e : MetaEntry} {s : MetaSel}
    (hlast : e.sels.getLast? = some s) (hend : lastBlockEnd esize k e.sels = .ok e.dsize) :
    SizesRight esize e ↔ doffs e.sels = doffs (placeSels esize 0 (e.sels.map MetaSel.block)) ∧
      blockBytes esize (s.count.take k) = blockBytes esize s.count := by
  have hdsize : e.dsize = blockBytes esize (s.count.take k) + s.doff := by
    rw [lastBlockEnd, hlast] at hend
    exact (Except.ok.inj hend).symm
  constructor
  · rintro ⟨hdoff, hsize⟩
    have hplaced := doff_iff_placed.mp hdoff
    refine ⟨hplaced, ?_⟩
    rw [end_of_placed hplaced hlast, hdsize] at hsize
    exact add_right_cancel hsize
  · rintro ⟨hplaced, hcount⟩
    exact ⟨doff_iff_placed.mpr hplaced, by rw [end_of_placed hplaced hlast, hdsize, hcount]⟩

/-! ## §2 — whole entries. -/

/-- The decoder lays the blocks of any entry out with the dataset's element size. -/
theorem readSels_placed {dset : DsetInfo} {hdr : MetaHdr} {recnum : Option HSize} {n : Int}
    {bytes rest : List UInt8} {out : MetaEntry × List MpiOffset}
    (h : (readSels dset hdr recnum n).run bytes = .ok (out, rest)) :
    doffs out.1.sels = doffs (placeSels dset.esize 0 (out.1.sels.map MetaSel.block)) ∧
      lastBlockEnd dset.esize (encdimRead dset recnum).toNat out.1.sels = .ok out.1.dsize := by
  rw [readSels, Lib.run_bind_eq_ok] at h
  obtain ⟨dsteps, mid, -, h⟩ := h
  obtain ⟨-, mid, -, h⟩ := Lib.run_bind_eq_ok.mp h
  obtain ⟨starts, mid, -, h⟩ := Lib.run_bind_eq_ok.mp h
  obtain ⟨counts, mid, -, h⟩ := Lib.run_bind_eq_ok.mp h
  obtain ⟨dsize, mid, hsize, h⟩ := Lib.run_bind_eq_ok.mp h
  obtain ⟨rfl, -⟩ := Prod.mk.inj (Except.ok.inj h)
  obtain ⟨hend, -⟩ := Lib.run_pureExcept_eq_ok.mp hsize
  exact ⟨by rw [placeSels_block], hend⟩

/-- Starts and counts have one coordinate for each dimension stored. -/
theorem takeCords_length {encoded : Bool} {ndim n : Nat} {dsteps : List MpiOffset} {bs rest : List UInt8}
    {vs : List (List HSize)} (hsteps : encoded = true → dsteps.length = ndim)
    (h : (Lib.takeMany (readCords encoded ndim dsteps) n).run bs = .ok (vs, rest)) :
    ∀ v ∈ vs, v.length = ndim := by
  intro v hv
  cases encoded with
  | false => exact (takeCoords_eq_ok_iff.mp h).2.1 v hv
  | true =>
      obtain ⟨-, offs, hsplit, -⟩ := takeOffsets_eq_ok_iff.mp h
      obtain ⟨off, -, hoff⟩ := Lib.forall₂_mem_left hsplit.flip hv
      rw [selDecode_length hoff, hsteps rfl]

theorem readSteps_length {flag : I32} {ndim : Nat} {bs rest : List UInt8} {dsteps : List MpiOffset}
    (h : (readSteps flag ndim).run bs = .ok (dsteps, rest))
    (henc : hasFlag flag MetaFlag.selEncode = true) : dsteps.length = ndim := by
  rw [readSteps, if_pos henc, StateT.run_map] at h
  obtain ⟨⟨steps, mid⟩, hread, h⟩ := Lib.bind_eq_ok.mp h
  obtain ⟨rfl, -⟩ := Prod.mk.inj (Except.ok.inj h)
  have hpos : 1 ≤ ndim := by
    by_contra hzero
    have hneg : (ndim : Int) - 1 < 0 := by omega
    rw [readOffsets, if_pos hneg] at hread
    cases hread
  have hn : (ndim : Int) - 1 = ((ndim - 1 : Nat) : Int) := by omega
  rw [hn] at hread
  obtain ⟨enc, ⟨hlen, -⟩, -⟩ := (readOffsets_accepts (ndim - 1) bs steps mid).mp hread
  show (steps ++ [1]).length = ndim
  rw [List.length_append, hlen, List.length_singleton]
  omega

/-- **An entry that is not a record entry has the right sizes**, whatever its bytes are. -/
theorem sizesRight_of_not_record {z : Option Zlib} {dset : DsetInfo} {ent : List UInt8} {e : MetaEntry}
    (h : metaentryDecode z dset ent = .ok e) (hrec : hasFlag e.hdr.flag MetaFlag.record = false) :
    SizesRight dset.esize e := by
  rcases hrun : (metaentryDecodeSteps z dset).run ent with err | ⟨out, rest⟩
  · rw [metaentryDecode, hrun] at h
    cases h
  rw [metaentryDecode, hrun] at h
  obtain rfl := Except.ok.inj h
  obtain ⟨mid, mid', recnum, -, -, hnum, n, bytes', rest', hread⟩ := metaentryDecodeSteps_readSels hrun
  -- there is no record number, so all dimensions are stored
  rw [readRecnum, if_neg (by rw [hrec]; exact Bool.false_ne_true)] at hnum
  obtain ⟨rfl, -⟩ := Prod.mk.inj (Except.ok.inj hnum)
  obtain ⟨hplaced, hend⟩ := readSels_placed hread
  have hcount := (readSels_count hread).2
  rw [← hcount] at hread
  obtain ⟨dsteps, mid₁, hsteps, starts, mid₂, -, counts, hcounts, dsize, -, hout⟩ := readSels_run_eq_ok.mp hread
  have hlen := takeCords_length (readSteps_length hsteps) hcounts
  cases hlast : out.1.sels.getLast? with
  | none =>
      rw [lastBlockEnd, hlast] at hend
      cases hend
  | some s =>
      refine (sizesRight_iff hlast hend).mpr ⟨hplaced, ?_⟩
      have hmem : s.count ∈ counts := by
        have hs : s.block ∈ List.zipWith (mkBlock none) starts counts := by
          rw [← placeSels_block dset.esize 0 (List.zipWith (mkBlock none) starts counts)]
          have hsels : out.1.sels = placeSels dset.esize 0 (List.zipWith (mkBlock none) starts counts) := by
            rw [hout]
          rw [← hsels]
          exact List.mem_map_of_mem (List.mem_of_getLast? hlast)
        obtain ⟨i, hi, hget⟩ := List.mem_iff_getElem.mp hs
        rw [List.getElem_zipWith] at hget
        have hi' : i < counts.length := by
          rw [List.length_zipWith] at hi
          omega
        have hblock : s.count = counts[i] := (congrArg Block.count hget).symm
        rw [hblock]
        exact List.getElem_mem _
      have htake : s.count.take (encdimRead dset none).toNat = s.count := by
        apply List.take_of_length_le
        rw [hlen _ hmem]
        exact le_of_eq (Int.toNat_natCast _).symm
      rw [htake]

/-! ## §3 — record entries. -/

section Queue

variable (z : Option Zlib) (config : I32)

/-- Of a record entry: its last block takes as many bytes when its count of the last dimension is left
out. -/
def Logged.LastThin (w : Logged) : Prop :=
  w.recnum.isSome → ∀ counts cs, w.counts z config = .ok counts → counts.getLast? = some cs →
    blockBytes w.dip.esize cs.dropLast = blockBytes w.dip.esize cs

variable {z config}

theorem blockBytes_one_cons (esize : HSize) (cs : List HSize) :
    blockBytes esize (1 :: cs) = blockBytes esize cs := by
  show blockBytes (esize * 1) cs = _
  rw [mul_one]

/-- **A record entry has the right sizes** exactly when that dimension does not matter. -/
theorem Logged.sizesRight_iff {w : Logged} (hw : w.Proper z config) {hdr : MetaHdr} {e : MetaEntry}
    (h : w.entry z config hdr = .ok e) : SizesRight w.dip.esize e ↔ w.LastThin z config := by
  unfold Logged.entry at h
  obtain ⟨starts, hstarts, h⟩ := Lib.bind_eq_ok.mp h
  obtain ⟨counts, hcounts, h⟩ := Lib.bind_eq_ok.mp h
  have hlenS := stored_lengths hw (fun b hb => (w.sels.rank_eq b hb).1) hstarts
  have hlenC := stored_lengths hw (fun b hb => (w.sels.rank_eq b hb).2) hcounts
  have hsels := (buildEntry_eq h).2
  have hplaced : doffs e.sels = doffs (placeSels w.dip.esize 0 (e.sels.map MetaSel.block)) := by
    rw [hsels, placeSels_block]
  have hdim : (encdimRead w.dip w.recnum).toNat = w.encdim := by
    have heq : encdimRead w.dip w.recnum = w.encdim := encdimRead_eq
    rw [heq, Int.toNat_natCast]
  have hend : lastBlockEnd w.dip.esize w.encdim e.sels = .ok e.dsize := by
    unfold buildEntry at h
    simp only [hdim] at h
    rw [← hsels] at h
    cases hlast : lastBlockEnd w.dip.esize w.encdim e.sels with
    | error f => rw [hlast] at h; cases h
    | ok dsize =>
        rw [hlast] at h
        rw [← Except.ok.inj h]
  -- the last block
  cases hget : e.sels.getLast? with
  | none =>
      rw [lastBlockEnd, hget] at hend
      cases hend
  | some s =>
      have hcount : (e.sels.map MetaSel.block).map Block.count =
          (List.zipWith (mkBlock w.recnum) starts counts).map Block.count := by
        rw [hsels, placeSels_block]
      rw [LogVol.sizesRight_iff hget hend, Logged.LastThin]
      have hlast : ((e.sels.map MetaSel.block).map Block.count).getLast? = some s.count := by
        rw [List.getLast?_map, List.getLast?_map, hget]
        rfl
      rw [hcount] at hlast
      cases hrec : w.recnum with
      | none =>
          have hfull : s.count.take w.encdim = s.count := by
            apply List.take_of_length_le
            rw [hrec] at hlast
            obtain ⟨b, hb, hbs⟩ := List.mem_map.mp (List.mem_of_getLast? hlast)
            obtain ⟨i, hi, hbi⟩ := List.mem_iff_getElem.mp hb
            rw [List.getElem_zipWith] at hbi
            have hin : i < counts.length := by
              rw [List.length_zipWith] at hi
              omega
            have hbc : b.count = counts[i] := (congrArg Block.count hbi).symm
            rw [← hbs, hbc, hlenC.2 _ (List.getElem_mem hin)]
          rw [hfull]
          simp [hplaced]
      | some rec =>
          rw [hrec, zipWith_mkBlock_count rec (hlenS.1.trans hlenC.1.symm), List.getLast?_map,
            Option.map_eq_some_iff] at hlast
          obtain ⟨cs, hcs, hscount⟩ := hlast
          have hlen := hlenC.2 cs (List.mem_of_getLast? hcs)
          have htake : s.count.take w.encdim = (1 :: cs).dropLast := by
            rw [← hscount, List.dropLast_eq_take, List.length_cons, hlen, Nat.add_sub_cancel]
          have hdrop : blockBytes w.dip.esize (1 :: cs).dropLast = blockBytes w.dip.esize cs.dropLast := by
            rcases cs with _ | ⟨c, cs⟩
            · rfl
            · rw [List.dropLast_cons_of_ne_nil (List.cons_ne_nil c cs), blockBytes_one_cons]
          have hfull : blockBytes w.dip.esize s.count = blockBytes w.dip.esize cs := by
            rw [← hscount]
            exact blockBytes_one_cons w.dip.esize cs
          rw [htake, hdrop, hfull]
          constructor
          · rintro ⟨-, hthin⟩ - counts' cs' hcounts' hcs'
            obtain rfl := Except.ok.inj (hcounts.symm.trans hcounts')
            obtain rfl := Option.some.inj (hcs.symm.trans hcs')
            exact hthin
          · intro hthin
            exact ⟨hplaced, hthin rfl counts cs hcounts hcs⟩

/-! ## §4 — references. -/

/-- A block of the entry referred to as the reference has it: of the dataset's rank, with the record's own
extent of one in the first dimension where the reference stores a record number. -/
def refCount (ndim : Nat) (kept : Option HSize) (count : List HSize) : List HSize :=
  if kept.isSome then (count.take ndim).set 0 1 else count.take ndim

theorem refSels_eq_ok {ndim : Nat} {kept : Option HSize} {cached sels : List MetaSel}
    (h : refSels ndim kept cached = .ok sels) :
    doffs sels = doffs cached ∧
      (sels.map MetaSel.block).map Block.count =
        (cached.map MetaSel.block).map fun b => refCount ndim kept b.count := by
  unfold refSels at h
  split at h
  · obtain rfl := Except.ok.inj h
    cases kept with
    | none => simp [doffs, refCount, MetaSel.block, Function.comp_def]
    | some rec => simp [doffs, refCount, MetaSel.block, Function.comp_def]
  · cases h

theorem refCount_length_le (ndim : Nat) (kept : Option HSize) (count : List HSize) :
    (refCount ndim kept count).length ≤ ndim := by
  unfold refCount
  split
  · simp
  · simp

/-- **A reference has the right sizes** exactly when every block but the last takes as many bytes in its
dataset as in the dataset of the entry it refers to, whose blocks are `bs`. -/
theorem refSizesRight_iff {dset : DsetInfo} {esize : HSize} {kept : Option HSize} {bs : List Block}
    {sels : List MetaSel} {hdr : MetaHdr} {dsize : HSize}
    (hsels : refSels dset.ndim kept (placeSels esize 0 bs) = .ok sels)
    (hend : lastBlockEnd dset.esize dset.ndim sels = .ok dsize) :
    SizesRight dset.esize ⟨hdr, sels, dsize⟩ ↔ ∀ b ∈ bs.dropLast,
      blockBytes esize b.count = blockBytes dset.esize (refCount dset.ndim kept b.count) := by
  obtain ⟨hdoffs, hcounts⟩ := refSels_eq_ok hsels
  rw [placeSels_block] at hcounts
  cases hlast : sels.getLast? with
  | none =>
      rw [lastBlockEnd, hlast] at hend
      cases hend
  | some s =>
      have hfull : s.count.take dset.ndim = s.count := by
        have hmem : s.count ∈ bs.map fun b => refCount dset.ndim kept b.count := by
          rw [← hcounts]
          exact List.mem_map_of_mem (List.mem_map_of_mem (List.mem_of_getLast? hlast))
        obtain ⟨b, -, hb⟩ := List.mem_map.mp hmem
        apply List.take_of_length_le
        rw [← hb]
        exact refCount_length_le ..
      have hlen : bs.length = (sels.map MetaSel.block).length := by
        have h := congrArg List.length hcounts
        simp only [List.length_map] at h ⊢
        exact h.symm
      rw [sizesRight_iff hlast hend, hfull, hdoffs, doffs_placed_iff hlen]
      -- the blocks of the reference, side by side with those it refers to
      generalize sels.map MetaSel.block = own at hcounts hlen
      have hzip : (bs.zip own).map (Prod.map id Block.count) =
          bs.map fun b => (b, refCount dset.ndim kept b.count) := by
        rw [← List.zip_map_right, hcounts, List.zip_map_right]
        clear hlen hcounts hdoffs hsels
        induction bs with
        | nil => rfl
        | cons b bs ih => rw [List.zip_cons_cons, List.map_cons, List.map_cons, ih]; rfl
      have hall : (∀ p ∈ (bs.zip own).dropLast,
            blockBytes esize p.1.count = blockBytes dset.esize p.2.count) ↔
          ∀ q ∈ ((bs.zip own).map (Prod.map id Block.count)).dropLast,
            blockBytes esize q.1.count = blockBytes dset.esize q.2 := by
        rw [← List.map_dropLast, List.forall_mem_map]
        rfl
      rw [hall, hzip, ← List.map_dropLast, List.forall_mem_map]
      exact and_iff_left rfl

/-! ## §5 — the entries of the write path. -/

/-- What a reference in a queued request is read as. -/
theorem IsRef.read {w v : Logged} {roff : MpiOffset} {kept : Option HSize} {r : WReq} (h : IsRef w v roff kept r)
    {dset : DsetInfo} {bcache : Int → List MetaSel} {pos : Int} {tail rest : List UInt8} {e : MetaEntry}
    (hrun : (metaentryRefDecode dset bcache pos).run (r.metaBuf ++ tail) = .ok (e, rest)) :
    ∃ sels dsize, refSels dset.ndim kept (bcache (pos + roff.toInt)) = .ok sels ∧
      lastBlockEnd dset.esize dset.ndim sels = .ok dsize ∧ e = ⟨r.hdr, sels, dsize⟩ := by
  obtain ⟨hdr, mid, hhdr, -, recnum, mid', hrec, roff', hroff, sels, hsels, dsize, hsize, he⟩ :=
    metaentryRefDecode_eq_ok.mp hrun
  rw [readHdr_metaBuf] at hhdr
  obtain ⟨rfl, rfl⟩ := Prod.mk.inj (Except.ok.inj hhdr)
  rw [h.body, List.append_assoc, readRecnum_reads h.record (putWord sizeofOffset roff ++ tail)] at hrec
  obtain ⟨rfl, rfl⟩ := Prod.mk.inj (Except.ok.inj hrec)
  rw [readOffset_reads roff tail] at hroff
  obtain ⟨rfl, -⟩ := Prod.mk.inj (Except.ok.inj hroff)
  exact ⟨sels, dsize, hsels, hsize, he⟩

/-- **When decoded sizes are right**, for every entry the write path queues for a dataset. A whole entry:
when it is no record entry, or its last block takes as many bytes without its count of the last dimension.
An entry of merged requests: always. A reference: when every block but the last of the entry it refers to
takes as many bytes with the one dataset's elements as with the other's. -/
theorem decodedSizes_iff (z z' : Option Zlib) (config : I32) (w : Logged) (hw : w.Proper z config)
    (tail : List UInt8) :
    (∀ r e, IsPlain z config w r → metaentryDecode z' w.dip (r.metaBuf ++ tail) = .ok e →
      (SizesRight w.dip.esize e ↔ w.LastThin z config)) ∧
    (∀ id writes m e, mergedOf config id w.dip writes = .ok m →
      metaentryDecode z' w.dip (m.toWReq.metaBuf ++ tail) = .ok e → SizesRight w.dip.esize e) ∧
    ∀ v hdr t roff kept r (cache : BlockCache) pos e rest, IsRef w v roff kept r →
      v.entry z config hdr = .ok t → cache.at (pos + roff.toInt) = t.sels →
      (metaentryRefDecode w.dip cache.at pos).run (r.metaBuf ++ tail) = .ok (e, rest) →
      (SizesRight w.dip.esize e ↔ ∀ b ∈ (t.sels.map MetaSel.block).dropLast,
        blockBytes v.dip.esize b.count = blockBytes w.dip.esize (refCount w.dip.ndim kept b.count)) := by
  refine ⟨fun r e hr he => ?_, fun id writes m e hm he => ?_,
    fun v hdr t roff kept r cache pos e rest hr ht hcache hrun => ?_⟩
  · rw [hr.decode hw] at he
    exact Logged.sizesRight_iff hw he
  · obtain ⟨mid, hhdr, -⟩ := metaentryDecode_hdr he
    rw [readHdr_metaBuf] at hhdr
    obtain ⟨hhdr, -⟩ := Prod.mk.inj (Except.ok.inj hhdr)
    -- A merged entry never has the flag of a record.
    refine sizesRight_of_not_record he ?_
    have hflag : e.hdr.flag = mergedFlag config w.dip := by
      rw [← hhdr]
      exact mergedOf_flag hm
    rw [hflag]
    exact (mergedFlag_bits config w.dip).2.1
  · obtain ⟨sels, dsize, hsels, hsize, rfl⟩ := hr.read hrun
    obtain ⟨starts, -, ht⟩ := Lib.bind_eq_ok.mp ht
    obtain ⟨counts, -, ht⟩ := Lib.bind_eq_ok.mp ht
    have hplaced := (buildEntry_eq ht).2
    rw [hcache, hplaced] at hsels
    rw [refSizesRight_iff hsels hsize, hplaced, placeSels_block]

/-- A write of two elements of record 2. -/
def sampleRowPair : Logged :=
  { did := 7, dip := sampleRecordDset
    sels := { ndim := 2, sels := [⟨[2, 0], [1, 2]⟩], rank_eq := by decide, nsel_lt := by decide } }

/-- Its whole entry. -/
def sampleRowPairReq : WReq := wreqOf none 0 sampleRowPair.dip sampleRowPair.sels 7 0

theorem sampleRowPair_proper : sampleRowPair.Proper none 0 where
  did_lt := by decide
  rank := rfl
  nonempty := by decide
  fits := by decide

theorem sampleRowPair_plain : IsPlain none 0 sampleRowPair sampleRowPairReq where
  did := rfl
  metaSize := rfl
  flag := by decide
  body := rfl

/-- What it is decoded to: the second element of the row is left out of its size. -/
theorem sampleRowPair_decode (tail : List UInt8) :
    metaentryDecode none sampleRowPair.dip (sampleRowPairReq.metaBuf ++ tail) =
      .ok ⟨sampleRowPairReq.hdr, [⟨[2, 0], [1, 2], 0⟩], 4⟩ := by
  rw [sampleRowPair_plain.decode sampleRowPair_proper]
  rfl

theorem decodedSizes_rowPair :
    SizesRight sampleRowPair.dip.esize ⟨sampleRowPairReq.hdr, [⟨[2, 0], [1, 2], 0⟩], 4⟩ ↔
      sampleRowPair.LastThin none 0 :=
  (decodedSizes_iff none none 0 sampleRowPair sampleRowPair_proper []).1 _ _ sampleRowPair_plain
    (sampleRowPair_decode [])

/-- **The size of a record entry with two elements is that of one.** -/
theorem not_sizesRight_rowPair :
    ∃ e, IsPlain none 0 sampleRowPair sampleRowPairReq ∧
      metaentryDecode none sampleRowPair.dip sampleRowPairReq.metaBuf = .ok e ∧
      ¬ SizesRight sampleRowPair.dip.esize e := by
  have hdecode := sampleRowPair_decode []
  rw [List.append_nil] at hdecode
  refine ⟨_, sampleRowPair_plain, hdecode, fun h => ?_⟩
  have hsize := h.dsize
  revert hsize
  decide

end Queue

end LogVol
