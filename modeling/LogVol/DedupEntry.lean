/-
# LogVol.DedupEntry — a reference against the entry it stands for.

With metadata sharing a write whose selection is already in the table is queued as a reference. Its
blocks are those of the earlier entry, laid out with that entry's element size, and its own record
number is put in. `Interchangeable` is the condition under which this gives what decoding the whole
entry would have given; `refDecode_interchangeable` proves it does.
-/
import LogVol.IdxList
import LogVol.OffsetCodec
import LogVol.FailedWrite
import LogVol.FlushWrite

namespace LogVol

open Lib (Reader Reads Yields putWord putWords pureExcept)

/-! ## §1 — a whole entry. -/

/-- The steps stored in an offset-encoded entry. -/
def storedSteps (dip : DsetInfo) (sels : Selections) : List MpiOffset :=
  (dip.dsteps.drop (dip.ndim - encdimOf dip (recordOf dip sels))).take
    (encdimOf dip (recordOf dip sels) - 1)

/-- A start or count as an entry gives it back: the coordinates stored, or an offset split again. -/
def storedCords (encoded : Bool) (dip : DsetInfo) (sels : Selections) (f : Block → List HSize)
    (b : Block) : Except Fault (List HSize) :=
  let cords := (f b).drop (dimoffOf (recordOf dip sels))
  if encoded then
    selDecode (storedSteps dip sels ++ [1])
      (selEncode (dip.dsteps.drop (dimoffOf (recordOf dip sels))) cords)
  else .ok cords

theorem selDecode_length {ss : List MpiOffset} {off : MpiOffset} {cs : List HSize}
    (h : selDecode ss off = .ok cs) : cs.length = ss.length := by
  induction ss generalizing off cs with
  | nil =>
      cases h
      rfl
  | cons s ss ih =>
      rw [selDecode] at h
      split at h
      · cases h
      · obtain ⟨cords, hcords, h⟩ := Lib.bind_eq_ok.mp h
        cases h
        rw [List.length_cons, List.length_cons, ih hcords]

theorem storedSteps_length (dip : DsetInfo) (sels : Selections) :
    (storedSteps dip sels).length = encdimOf dip (recordOf dip sels) - 1 := by
  have hle := encdimOf_le dip (recordOf dip sels)
  have hlen : dip.dsteps.length = dip.ndim := dip.dsteps_length
  rw [storedSteps, List.length_take, List.length_drop, hlen]
  omega

/-- What is given back has one coordinate for each dimension stored. -/
theorem storedCords_length {encoded : Bool} {dip : DsetInfo} {sels : Selections} {f : Block → List HSize}
    {b : Block} {cs : List HSize} (hf : (f b).length = dip.ndim)
    (hdim : encoded = true → 1 < encdimOf dip (recordOf dip sels))
    (h : storedCords encoded dip sels f b = .ok cs) : cs.length = encdimOf dip (recordOf dip sels) := by
  unfold storedCords at h
  cases encoded with
  | true =>
      simp only [if_true] at h
      have hone := hdim rfl
      rw [selDecode_length h, List.length_append, storedSteps_length, List.length_singleton]
      omega
  | false =>
      simp only [Bool.false_eq_true, if_false] at h
      cases h
      rw [List.length_drop, hf, ndim_sub_dimoffOf]

/-- **The selection part of an entry**, read for any dataset, header and record number that have the
layout of the entry. -/
theorem readSels_stored {dset dip : DsetInfo} {hdr : MetaHdr} {recnum : Option HSize} {sels : Selections}
    {encoded : Bool} (hrank : sels.ndim = dip.ndim)
    (hdim : encdimRead dset recnum = encdimOf dip (recordOf dip sels))
    (henc : hasFlag hdr.flag MetaFlag.selEncode = encoded)
    (hone : encoded = true → 1 < encdimOf dip (recordOf dip sels)) :
    Yields (readSels dset hdr recnum sels.nsel) (selField dip sels encoded (recordOf dip sels))
      (do let starts ← sels.sels.mapM (storedCords encoded dip sels Block.start)
          let counts ← sels.sels.mapM (storedCords encoded dip sels Block.count)
          let e ← buildEntry dset hdr recnum starts counts
          pure (e, if encoded then storedSteps dip sels ++ [1] else [])) := by
  cases encoded with
  | true =>
      have hdim₁ := hone rfl
      -- The steps that were stored are used for the split, whatever the dataset has now.
      have hsteps : Reads (readSteps hdr.flag (encdimRead dset recnum))
          (putWords sizeofOffset (storedSteps dip sels)) (storedSteps dip sels ++ [1]) := by
        have hn : encdimRead dset recnum - 1 = (storedSteps dip sels).length := by
          rw [storedSteps_length, hdim]
          omega
        rw [readSteps, henc]
        exact (readOffsets_reads hn).map (· ++ [1])
      have hcords (f : Block → List HSize) : ∀ b ∈ sels.sels,
          Yields (readCords (hasFlag hdr.flag MetaFlag.selEncode) (encdimRead dset recnum)
            (storedSteps dip sels ++ [1]))
            (putWord sizeofOffset (selEncode (dip.dsteps.drop (dimoffOf (recordOf dip sels)))
              ((f b).drop (dimoffOf (recordOf dip sels))))) (storedCords true dip sels f b) := by
        intro b _
        rw [henc, readCords, if_pos rfl]
        have hsplit := Yields.bind
          (f := fun off => pureExcept (selDecode (storedSteps dip sels ++ [1]) off))
          (readOffset_reads (selEncode (dip.dsteps.drop (dimoffOf (recordOf dip sels)))
            ((f b).drop (dimoffOf (recordOf dip sels))))) (Yields.pureExcept _)
        rw [List.append_nil] at hsplit
        exact hsplit
      exact readSels_yields hsteps (hcords Block.start) (hcords Block.count)
  | false =>
      have hcords (f : Block → List HSize) (hf : ∀ b ∈ sels.sels, (f b).length = dip.ndim) :
          ∀ b ∈ sels.sels, Yields (readCords (hasFlag hdr.flag MetaFlag.selEncode)
            (encdimRead dset recnum) []) (putWords sizeofOffset ((f b).drop (dimoffOf (recordOf dip sels))))
            (storedCords false dip sels f b) := by
        intro b hb
        rw [henc, readCords, if_neg Bool.false_ne_true]
        apply readOffsets_reads
        rw [hdim, List.length_drop, hf b hb, ndim_sub_dimoffOf]
      have hsteps : Reads (readSteps hdr.flag (encdimRead dset recnum)) [] [] := by
        rw [readSteps, henc]
        exact Reads.pure []
      exact readSels_yields hsteps
        (hcords Block.start fun b hb => (sels.rank_eq b hb).1.trans hrank)
        (hcords Block.count fun b hb => (sels.rank_eq b hb).2.trans hrank)

/-! ## §2 — entries of the queue. -/

/-- A write as it was made. -/
structure Logged where
  did : Nat
  dip : DsetInfo
  sels : Selections

section Queue

variable (z : Option Zlib) (config : I32)

/-- The record number of a record write. -/
def Logged.recnum (w : Logged) : Option HSize := recordOf w.dip w.sels

/-- Number of dimensions stored. -/
def Logged.encdim (w : Logged) : Nat := encdimOf w.dip w.recnum

/-- Selections are stored as offsets. -/
def Logged.encoded (w : Logged) : Bool := hasFlag (wreqFlag z config w.dip w.sels) MetaFlag.selEncode

/-- The starts its entry gives back. -/
def Logged.starts (w : Logged) : Except Fault (List (List HSize)) :=
  w.sels.sels.mapM (storedCords (w.encoded z config) w.dip w.sels Block.start)

/-- The counts its entry gives back. -/
def Logged.counts (w : Logged) : Except Fault (List (List HSize)) :=
  w.sels.sels.mapM (storedCords (w.encoded z config) w.dip w.sels Block.count)

/-- The selection part of its entry. -/
def Logged.selPart (w : Logged) : List UInt8 :=
  selField w.dip w.sels (w.encoded z config) w.recnum

/-- What decoding the entry of a write gives: its blocks, laid out with its element size. -/
def Logged.entry (w : Logged) (hdr : MetaHdr) : Except Fault MetaEntry := do
  let starts ← w.starts z config
  let counts ← w.counts z config
  buildEntry w.dip hdr w.recnum starts counts

/-- A write of some blocks of the dataset's rank, whose entry fits the `int32_t` size. -/
structure Logged.Proper (w : Logged) : Prop where
  did_lt : w.did < 2 ^ 32
  rank : w.sels.ndim = w.dip.ndim
  nonempty : w.sels.sels ≠ []
  fits : entrySize z config w.dip w.sels < 2 ^ 31

/-- The request carries the whole entry of the write, uncompressed. -/
structure IsPlain (w : Logged) (r : WReq) : Prop where
  did : r.hdr.did = BitVec.ofNat 32 w.did
  metaSize : r.hdr.metaSize = BitVec.ofNat 32 (entrySize z config w.dip w.sels)
  flag : r.hdr.flag = clearFlag (wreqFlag z config w.dip w.sels) MetaFlag.selDeflate
  body : r.body = wreqBody (wreqFlag z config w.dip w.sels) w.dip w.sels w.recnum

/-- The request carries a reference in the place of the entry of `w`: `kept` is the record number left
in it, which is gone when the entry referred to, that of `v`, has the same one. -/
structure IsRef (w v : Logged) (roff : MpiOffset) (kept : Option HSize) (r : WReq) : Prop where
  did : r.hdr.did = BitVec.ofNat 32 w.did
  metaSize : r.hdr.metaSize = BitVec.ofNat 32 r.metaBuf.length
  selRef : hasFlag r.hdr.flag MetaFlag.selRef = true
  record : hasFlag r.hdr.flag MetaFlag.record = kept.isSome
  body : r.body = kept.elim [] (putWord sizeofOffset) ++ putWord sizeofOffset roff
  kept_eq : kept = w.recnum ∨ kept = none ∧ w.recnum = v.recnum

/-- **`Interchangeable`** — the entry of `v` has the layout and the selection of that of `w`, both are
record entries or neither is, the blocks start at the same places in the data, and a record entry's last
block covers a single index of the last dimension. -/
structure Interchangeable (w v : Logged) : Prop where
  form : w.recnum.isSome = v.recnum.isSome
  nsel : w.sels.nsel = v.sels.nsel
  encdim : w.encdim = v.encdim
  selPart : w.selPart z config = v.selPart z config
  esize : w.dip.esize = v.dip.esize ∨ w.sels.nsel = 1
  last : w.recnum.isSome → ∀ counts cs, w.counts z config = .ok counts → counts.getLast? = some cs →
    cs.getLast? = some 1

variable {z config}

theorem IsPlain.length {w : Logged} {r : WReq} (h : IsPlain z config w r) :
    r.metaBuf.length = entrySize z config w.dip w.sels := by
  rw [WReq.metaBuf, List.length_append, MetaHdr.bytes_length, h.body]
  rfl

theorem IsPlain.wellSized {w : Logged} {r : WReq} (h : IsPlain z config w r) (hw : w.Proper z config) :
    r.WellSized := by
  rw [WReq.WellSized, h.length, h.metaSize, toInt_ofNat_of_lt hw.fits]

theorem Logged.encoded_encdim {w : Logged} (h : w.encoded z config = true) : 1 < w.encdim := by
  rw [Logged.encoded, wreqFlag_selEncode, Bool.and_eq_true, Bool.and_eq_true] at h
  exact of_decide_eq_true h.1.2

/-- The coordinates given back for each block, one for each dimension stored. -/
theorem stored_lengths {w : Logged} (hw : w.Proper z config) {f : Block → List HSize}
    (hf : ∀ b ∈ w.sels.sels, (f b).length = w.sels.ndim) {css : List (List HSize)}
    (h : w.sels.sels.mapM (storedCords (w.encoded z config) w.dip w.sels f) = .ok css) :
    css.length = w.sels.nsel ∧ ∀ cs ∈ css, cs.length = w.encdim := by
  have hall := Lib.mapM_eq_ok_iff.mp h
  refine ⟨hall.length_eq.symm, fun cs hcs => ?_⟩
  obtain ⟨b, hb, hstored⟩ := Lib.forall₂_mem_left hall.flip hcs
  exact storedCords_length ((hf b hb).trans hw.rank) Logged.encoded_encdim hstored

/-! ## §3 — decoding a whole entry. -/

/-- **A whole entry is decoded**, whatever follows it. -/
theorem IsPlain.decode {w : Logged} {r : WReq} (h : IsPlain z config w r) (hw : w.Proper z config)
    (z' : Option Zlib) (tail : List UInt8) :
    metaentryDecode z' w.dip (r.metaBuf ++ tail) = w.entry z config r.hdr := by
  -- Compressing cleared its own flag, and no other.
  have hflag (bit : I32) (hbit : hasFlag MetaFlag.selDeflate bit = false) :
      hasFlag r.hdr.flag bit = hasFlag (wreqFlag z config w.dip w.sels) bit := by
    rw [h.flag, hasFlag_clearFlag hbit]
  have hdeflate : hasFlag r.hdr.flag MetaFlag.selDeflate = false := by
    rw [h.flag, hasFlag_clearFlag_self]
  have hsel := @readSels_stored w.dip w.dip r.hdr w.recnum w.sels (w.encoded z config) hw.rank
    encdimRead_eq (hflag _ (by decide)) Logged.encoded_encdim
  have hmul : hasFlag r.hdr.flag MetaFlag.mulSel = (nselField w.sels.nsel).isSome := by
    rw [hflag _ (by decide), wreqFlag_mulSel, nselField]
    by_cases hn : 1 < w.sels.nsel <;> simp [hn]
  have hpos : 0 < r.hdr.metaSize.toInt := by
    have hlen := h.wellSized hw
    rw [WReq.WellSized, WReq.metaBuf, List.length_append, MetaHdr.bytes_length, sizeofHdr] at hlen
    omega
  have hread := @decodeSteps_yields z' w.dip r.hdr w.recnum (nselField w.sels.nsel)
    (w.selPart z config) _ hpos
    ((hflag _ (by decide)).trans (wreqFlag_record ..)) hmul (by
      unfold nselField
      by_cases hn : 1 < w.sels.nsel
      · rw [if_pos hn, Option.elim_some, toInt_ofNat_of_lt (n := w.sels.nsel) w.sels.nsel_lt,
          unpackSels_plain hdeflate]
        exact hsel
      · have hone : w.sels.nsel = 1 := by
          have := List.length_pos_iff.mpr hw.nonempty
          unfold Selections.nsel at hn ⊢
          omega
        rw [hone] at hsel
        rw [if_neg hn, Option.elim_none]
        exact hsel)
  have hbuf : r.metaBuf = r.hdr.bytes ++ (entryPrefix w.recnum (nselField w.sels.nsel) ++
      w.selPart z config) := by
    rw [WReq.metaBuf, h.body]
    exact congrArg (r.hdr.bytes ++ ·) (wreqBody_eq z config w.dip w.sels)
  rw [metaentryDecode, hbuf, hread tail]
  unfold Logged.entry
  show (((do
    let starts ← w.starts z config
    let counts ← w.counts z config
    let e ← buildEntry w.dip r.hdr w.recnum starts counts
    pure (e, _)) : Except Fault (MetaEntry × List MpiOffset)).map _).map _ = _
  cases w.starts z config with
  | error e => rfl
  | ok starts =>
      cases w.counts z config with
      | error e => rfl
      | ok counts =>
          show ((buildEntry w.dip r.hdr w.recnum starts counts >>= _).map _).map _ =
            buildEntry w.dip r.hdr w.recnum starts counts
          cases buildEntry w.dip r.hdr w.recnum starts counts <;> rfl

/-! ## §4 — decoding a reference. -/

theorem Logged.ndim_eq (w : Logged) :
    w.dip.ndim = if w.recnum.isSome then w.encdim + 1 else w.encdim := by
  unfold Logged.encdim encdimOf
  cases hrec : w.recnum with
  | none => rfl
  | some rec =>
      have hpos := (recordOf_eq_some hrec).1
      simp only [Option.isSome_some, if_true]
      omega

/-- Where a write's own entry and the one it can be exchanged for give back anything at all, they give
back the same blocks. -/
theorem Interchangeable.entry {w v : Logged} (h : Interchangeable z config w v) (hw : w.Proper z config)
    (hv : v.Proper z config) {hdr : MetaHdr} (hhdr : hasFlag hdr.flag MetaFlag.selEncode = w.encoded z config)
    {starts counts : List (List HSize)} (hstarts : v.starts z config = .ok starts)
    (hcounts : v.counts z config = .ok counts) :
    ∃ ownStarts ownCounts e, w.starts z config = .ok ownStarts ∧ w.counts z config = .ok ownCounts ∧
      buildEntry w.dip hdr w.recnum ownStarts ownCounts = .ok e ∧
      buildEntry w.dip hdr w.recnum starts counts = .ok e := by
  have henc : w.encoded z config = v.encoded z config := by
    have hdim := h.encdim
    unfold Logged.encdim Logged.recnum at hdim
    rw [Logged.encoded, Logged.encoded, wreqFlag_selEncode, wreqFlag_selEncode, h.nsel, hdim]
  have hdim : encdimRead w.dip w.recnum = v.encdim := by
    rw [← h.encdim]
    exact encdimRead_eq
  have hown := @readSels_stored w.dip w.dip hdr w.recnum w.sels _ hw.rank encdimRead_eq hhdr
    Logged.encoded_encdim
  have hother := @readSels_stored w.dip v.dip hdr w.recnum v.sels _ hv.rank hdim (hhdr.trans henc)
    Logged.encoded_encdim
  have hsel : selField w.dip w.sels (w.encoded z config) (recordOf w.dip w.sels) =
      selField v.dip v.sels (v.encoded z config) (recordOf v.dip v.sels) := h.selPart
  rw [hsel, h.nsel] at hown
  have hsame := hown.unique hother
  -- the blocks given back by the other entry make up an entry
  have hlenS := stored_lengths hv (fun b hb => (v.sels.rank_eq b hb).1) hstarts
  have hlenC := stored_lengths hv (fun b hb => (v.sels.rank_eq b hb).2) hcounts
  have hne : List.zipWith (mkBlock w.recnum) starts counts ≠ [] := by
    rw [← List.length_pos_iff, List.length_zipWith, hlenS.1, hlenC.1, min_self]
    exact List.length_pos_iff.mpr hv.nonempty
  obtain ⟨e, he⟩ := buildEntry_ok w.dip hdr hne
  have hok : (do
      let starts ← v.sels.sels.mapM (storedCords (v.encoded z config) v.dip v.sels Block.start)
      let counts ← v.sels.sels.mapM (storedCords (v.encoded z config) v.dip v.sels Block.count)
      let e ← buildEntry w.dip hdr w.recnum starts counts
      pure (e, if v.encoded z config then storedSteps v.dip v.sels ++ [1] else []) :
      Except Fault (MetaEntry × List MpiOffset)) =
      .ok (e, if v.encoded z config then storedSteps v.dip v.sels ++ [1] else []) := by
    unfold Logged.starts at hstarts
    unfold Logged.counts at hcounts
    rw [hstarts, hcounts]
    show (buildEntry w.dip hdr w.recnum starts counts >>= _) = _
    rw [he]
    rfl
  rw [hok] at hsame
  obtain ⟨ownStarts, hownS, hsame⟩ := Lib.bind_eq_ok.mp hsame
  obtain ⟨ownCounts, hownC, hsame⟩ := Lib.bind_eq_ok.mp hsame
  obtain ⟨e', he', hsame⟩ := Lib.bind_eq_ok.mp hsame
  obtain rfl : e' = e := (Prod.mk.inj (Except.ok.inj hsame)).1
  exact ⟨ownStarts, ownCounts, e', hownS, hownC, he', he⟩

/-- A block read with the record number `old`, seen as one of the record `new`. -/
theorem mkBlock_lengths {ndim encdim : Nat} {old new : Option HSize} (hform : new.isSome = old.isSome)
    (hndim : ndim = if new.isSome then encdim + 1 else encdim) {start count : List HSize}
    (hstart : start.length = encdim) (hcount : count.length = encdim) :
    (mkBlock old start count).start.length = ndim ∧ (mkBlock old start count).count.length = ndim ∧
      (mkBlock new start count).count = (mkBlock old start count).count := by
  subst hndim
  cases new <;> cases old <;> simp_all [mkBlock]

/-- The blocks of an entry with another record number put in, or with the one they have. -/
theorem refSels_placed {ndim encdim : Nat} {old new kept : Option HSize} {esize : HSize}
    (hform : new.isSome = old.isSome) (hkept : kept = new ∨ kept = none ∧ new = old)
    (hndim : ndim = if new.isSome then encdim + 1 else encdim) {starts counts : List (List HSize)}
    (hstarts : ∀ cs ∈ starts, cs.length = encdim) (hcounts : ∀ cs ∈ counts, cs.length = encdim) :
    refSels ndim kept (placeSels esize 0 (List.zipWith (mkBlock old) starts counts)) =
      .ok (placeSels esize 0 (List.zipWith (mkBlock new) starts counts)) := by
  unfold refSels
  generalize (0 : MpiOffset) = doff
  induction starts generalizing counts doff with
  | nil => rfl
  | cons start starts ih =>
      cases counts with
      | nil => rfl
      | cons count counts =>
          have hs := hstarts start (List.mem_cons_self ..)
          have hc := hcounts count (List.mem_cons_self ..)
          obtain ⟨hls, hlc, hcount⟩ := mkBlock_lengths hform hndim hs hc
          have hrest := ih (fun x hx => hstarts x (List.mem_cons_of_mem _ hx))
            (fun x hx => hcounts x (List.mem_cons_of_mem _ hx))
            (blockBytes esize (mkBlock old start count).count + doff)
          split at hrest
          · rename_i hall
            rw [List.zipWith_cons_cons, List.zipWith_cons_cons, placeSels, placeSels, if_pos, List.map_cons,
              hcount, ← Except.ok.inj hrest]
            · congr 2
              -- the first block
              rcases hkept with rfl | ⟨rfl, rfl⟩
              · cases kept with
                | none =>
                    cases old with
                    | some rec => cases hform
                    | none =>
                        have htake : start.take ndim = start := List.take_of_length_le (by rw [hls.symm]; rfl)
                        have htake' : count.take ndim = count := List.take_of_length_le (by rw [hlc.symm]; rfl)
                        simp only [mkBlock, htake, htake']
                | some rec =>
                    cases old with
                    | none => cases hform
                    | some rec' =>
                        have htake : (rec' :: start).take ndim = rec' :: start :=
                          List.take_of_length_le (by rw [hls.symm]; rfl)
                        have htake' : ((1 : HSize) :: count).take ndim = 1 :: count :=
                          List.take_of_length_le (by rw [hlc.symm]; rfl)
                        simp only [mkBlock]
                        rw [htake, htake']
                        rfl
              · have htake := List.take_of_length_le (l := (mkBlock new start count).start) (i := ndim)
                  (by rw [hls])
                have htake' := List.take_of_length_le (l := (mkBlock new start count).count) (i := ndim)
                  (by rw [hlc])
                simp only [htake, htake']
            · rw [List.all_cons, hall, hls, hlc]
              simp
          · cases hrest

/-- A single block starts at the start of the data, and so do blocks of elements of one size. -/
theorem placeSels_esize {esize esize' : HSize} {bs : List Block} (h : esize = esize' ∨ bs.length = 1) :
    placeSels esize 0 bs = placeSels esize' 0 bs := by
  rcases h with rfl | hone
  · rfl
  · obtain ⟨b, rfl⟩ := List.length_eq_one_iff.mp hone
    rfl

/-- The counts of the blocks of a record entry. -/
theorem zipWith_mkBlock_count (rec : HSize) :
    ∀ {starts counts : List (List HSize)}, starts.length = counts.length →
      (List.zipWith (mkBlock (some rec)) starts counts).map Block.count = counts.map ((1 : HSize) :: ·)
  | [], [], _ => rfl
  | _ :: starts, count :: counts, h => by
      have ih := zipWith_mkBlock_count rec (Nat.succ.inj h)
      rw [List.zipWith_cons_cons, List.map_cons, ih]
      rfl

/-- The size of the data does not depend on the last dimension when the last block has extent one in
it. -/
theorem lastBlockEnd_take {esize : HSize} {encdim ndim : Nat} {recnum : Option HSize}
    {starts counts : List (List HSize)} {sels : List MetaSel}
    (hndim : ndim = if recnum.isSome then encdim + 1 else encdim)
    (hsels : sels.map MetaSel.block = List.zipWith (mkBlock recnum) starts counts)
    (hlen : starts.length = counts.length) (hcounts : ∀ cs ∈ counts, cs.length = encdim)
    (hlast : recnum.isSome → ∀ cs, counts.getLast? = some cs → cs.getLast? = some 1) :
    lastBlockEnd esize ndim sels = lastBlockEnd esize encdim sels := by
  cases recnum with
  | none =>
      rw [hndim]
      rfl
  | some rec =>
      unfold lastBlockEnd
      cases hs : sels.getLast? with
      | none => rfl
      | some s =>
          -- the last count given back
          have hcount : sels.map MetaSel.count = counts.map ((1 : HSize) :: ·) := by
            have hmap : sels.map MetaSel.count = (sels.map MetaSel.block).map Block.count := by
              rw [List.map_map]
              rfl
            rw [hmap, hsels, zipWith_mkBlock_count rec hlen]
          have hget : (counts.map ((1 : HSize) :: ·)).getLast? = some s.count := by
            rw [← hcount, List.getLast?_map, hs]
            rfl
          rw [List.getLast?_map, Option.map_eq_some_iff] at hget
          obtain ⟨cs, hcs, hscount⟩ := hget
          obtain ⟨init, rfl⟩ := List.getLast?_eq_some_iff.mp (hlast rfl cs hcs)
          have hlength := hcounts _ (List.mem_of_getLast? hcs)
          rw [List.length_append, List.length_singleton] at hlength
          simp only [Option.isSome_some, if_true] at hndim
          show Except.ok (blockBytes esize (s.count.take ndim) + s.doff) =
            Except.ok (blockBytes esize (s.count.take encdim) + s.doff)
          rw [← hscount, hndim, ← hlength]
          have hall : ((1 : HSize) :: (init ++ [1])).take (init.length + 1 + 1) = (1 :: init) ++ [1] :=
            List.take_of_length_le (by simp)
          have hinit : ((1 : HSize) :: (init ++ [1])).take (init.length + 1) = 1 :: init := by simp
          rw [hall, hinit, blockBytes, List.foldl_append]
          show Except.ok (_ * 1 + s.doff) = _
          rw [mul_one]
          rfl

/-- **A reference decodes to what the whole entry would**, once the entry it refers to has been
decoded. -/
theorem IsRef.decode {w v : Logged} {roff : MpiOffset} {kept : Option HSize} {r : WReq}
    (h : IsRef w v roff kept r) (hwv : Interchangeable z config w v) (hw : w.Proper z config)
    (hv : v.Proper z config) {hdr : MetaHdr} (hhdr : hasFlag hdr.flag MetaFlag.selEncode = w.encoded z config)
    {starts counts : List (List HSize)} (hstarts : v.starts z config = .ok starts)
    (hcounts : v.counts z config = .ok counts) {cache : BlockCache} {pos : Int}
    (hcache : cache.at (pos + roff.toInt) =
      placeSels v.dip.esize 0 (List.zipWith (mkBlock v.recnum) starts counts)) (tail : List UInt8) :
    ∃ e₁ e₂, (metaentryRefDecode w.dip cache.at pos).run (r.metaBuf ++ tail) = .ok (e₁, tail) ∧
      w.entry z config hdr = .ok e₂ ∧ e₁.hdr = r.hdr ∧ e₂.hdr = hdr ∧ e₁.sels = e₂.sels ∧
      e₁.dsize = e₂.dsize := by
  obtain ⟨ownStarts, ownCounts, e, hownS, hownC, hown, hother⟩ :=
    hwv.entry hw hv hhdr hstarts hcounts
  obtain ⟨hehdr, hesels⟩ := buildEntry_eq hown
  obtain ⟨-, hesels'⟩ := buildEntry_eq hother
  have hlenS := stored_lengths hv (fun b hb => (v.sels.rank_eq b hb).1) hstarts
  have hlenC := stored_lengths hv (fun b hb => (v.sels.rank_eq b hb).2) hcounts
  have hlenS' := stored_lengths hw (fun b hb => (w.sels.rank_eq b hb).1) hownS
  have hlenC' := stored_lengths hw (fun b hb => (w.sels.rank_eq b hb).2) hownC
  -- the blocks: another record number, another element size
  have hrefs : refSels w.dip.ndim kept (cache.at (pos + roff.toInt)) = .ok e.sels := by
    have hdimS : ∀ cs ∈ starts, cs.length = w.encdim := fun cs hcs => (hlenS.2 cs hcs).trans hwv.encdim.symm
    have hdimC : ∀ cs ∈ counts, cs.length = w.encdim := fun cs hcs => (hlenC.2 cs hcs).trans hwv.encdim.symm
    rw [hcache, refSels_placed hwv.form h.kept_eq w.ndim_eq hdimS hdimC, hesels']
    refine congrArg Except.ok (placeSels_esize ?_)
    rcases hwv.esize with hsize | hone
    · exact Or.inl hsize.symm
    · right
      rw [List.length_zipWith, hlenS.1, hlenC.1, min_self, ← hwv.nsel, hone]
  -- the size of the data
  have hsize : lastBlockEnd w.dip.esize w.dip.ndim e.sels = .ok e.dsize := by
    have hblocks : e.sels.map MetaSel.block = List.zipWith (mkBlock w.recnum) ownStarts ownCounts := by
      rw [hesels, placeSels_block]
    rw [lastBlockEnd_take w.ndim_eq hblocks (hlenS'.1.trans hlenC'.1.symm) hlenC'.2
      fun hrec cs hcs => hwv.last hrec ownCounts cs hownC hcs]
    have hread : (encdimRead w.dip w.recnum).toNat = w.encdim := by
      have heq : encdimRead w.dip w.recnum = w.encdim := encdimRead_eq
      rw [heq, Int.toNat_natCast]
    unfold buildEntry at hown
    simp only at hown
    rw [← hesels, hread] at hown
    cases hend : lastBlockEnd w.dip.esize w.encdim e.sels with
    | error f => rw [hend] at hown; cases hown
    | ok dsize =>
        rw [hend] at hown
        rw [← Except.ok.inj hown]
  refine ⟨⟨r.hdr, e.sels, e.dsize⟩, e, ?_, ?_, rfl, hehdr, rfl, rfl⟩
  · -- header, record number if any, relative offset
    have hlen : r.metaBuf.length = sizeofHdr + (r.body).length := by
      rw [WReq.metaBuf, List.length_append, MetaHdr.bytes_length]
    have hpos : 0 < r.hdr.metaSize.toInt := by
      have hbody : r.body.length ≤ 16 := by
        rw [h.body]
        cases kept <;> simp [sizeofOffset]
      rw [h.metaSize, toInt_ofNat_of_lt (by rw [hlen, sizeofHdr]; omega), hlen, sizeofHdr]
      omega
    have hcheck : Reads (checkMetaSize r.hdr) [] () := by
      rw [checkMetaSize, if_neg (by omega)]
      exact Reads.pure ()
    have hread : Reads (metaentryRefDecode w.dip cache.at pos) r.metaBuf ⟨r.hdr, e.sels, e.dsize⟩ := by
      have hsels : Reads (pureExcept (refSels w.dip.ndim kept (cache.at (pos + roff.toInt)))) [] e.sels := by
        rw [hrefs]
        exact Yields.pureExcept _
      have hend : Reads (pureExcept (lastBlockEnd w.dip.esize w.dip.ndim e.sels)) [] e.dsize := by
        rw [hsize]
        exact Yields.pureExcept _
      have hlaid : Reads (do
          let dsize ← pureExcept (lastBlockEnd w.dip.esize w.dip.ndim e.sels)
          pure (⟨r.hdr, e.sels, dsize⟩ : MetaEntry)) [] ⟨r.hdr, e.sels, e.dsize⟩ :=
        hend.bind_nil (Reads.pure _)
      have hbody := (readOffset_reads roff).bind (f := fun roff => do
          let sels ← pureExcept (refSels w.dip.ndim kept (cache.at (pos + roff.toInt)))
          let dsize ← pureExcept (lastBlockEnd w.dip.esize w.dip.ndim sels)
          pure (⟨r.hdr, sels, dsize⟩ : MetaEntry)) (hsels.bind_nil hlaid)
      rw [List.append_nil] at hbody
      rw [WReq.metaBuf, h.body]
      exact (readHdr_reads r.hdr).bind (hcheck.bind_nil ((readRecnum_reads h.record).bind hbody))
    exact hread tail
  · unfold Logged.entry
    rw [hownS, hownC]
    exact hown

end Queue

end LogVol
