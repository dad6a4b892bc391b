/-
# LogVol.OffsetCodec — the offset layout, and exactly which blocks survive it.

In the offset layout a start or a count is one 64-bit word: the sum of its coordinates times the
encoding steps. The decoder divides by the steps in turn. A vector comes back exactly when its offset
fits the word and every tail of it is smaller than the step before it (`OffsetExact`): the numeral has
to be canonical. For starts inside the dataset this holds by itself; a count may equal its dimension,
and then in any dimension but the first it carries into the one before it.
-/
import LogVol.Codec

namespace LogVol

open Lib (Reads Yields putWord putWords radixValue radixDigits RadixCanonical suffixProds bind_eq_ok
  mapM_eq_ok_iff)

/-! ## §1 — one word: encode, then divide. -/

theorem selEncode_toInt (ss : List MpiOffset) (cs : List HSize) :
    (selEncode ss cs).toInt =
      (radixValue (ss.map BitVec.toInt) (cs.map BitVec.toInt)).bmod (2 ^ 64) := by
  induction ss generalizing cs with
  | nil => cases cs <;> rfl
  | cons s ss ih =>
      cases cs with
      | nil => rfl
      | cons c cs =>
          rw [selEncode, List.map_cons, List.map_cons, radixValue, BitVec.toInt_add, BitVec.toInt_mul,
            ih, Int.add_bmod_bmod, Int.bmod_add_bmod]

/-- Splitting an offset is reading the digits of a numeral, at the width of the machine. -/
theorem selDecode_eq_ok_iff {ss : List MpiOffset} {off : MpiOffset} {cs : List HSize} :
    selDecode ss off = .ok cs ↔
      radixDigits (ss.map BitVec.toInt) off.toInt = some (cs.map BitVec.toInt) := by
  induction ss generalizing off cs with
  | nil => cases cs <;> simp [selDecode, radixDigits]
  | cons s ss ih =>
      rw [selDecode, List.map_cons, radixDigits]
      by_cases hzero : s = 0
      · simp [hzero]
      · have hs : s.toInt ≠ 0 := fun h => hzero (BitVec.eq_of_toInt_eq (by rw [h]; rfl))
        rw [if_neg hs]
        by_cases hmin : off = BitVec.intMin 64 ∧ s = -1
        · -- the quotient is 2 ^ 63, which is no 64-bit value
          rw [if_pos (Or.inr hmin), hmin.1, hmin.2]
          constructor
          · intro h
            cases h
          · intro h
            obtain ⟨ds, -, hcons⟩ := Option.map_eq_some_iff.mp h
            cases cs with
            | nil => cases hcons
            | cons c cs =>
                have hhead := (List.cons.inj hcons).1
                have hlt := BitVec.toInt_lt (x := c)
                have hq : (BitVec.intMin 64).toInt.tdiv (-1#64 : BitVec 64).toInt = 2 ^ 63 := by decide
                rw [← hhead] at hlt
                exact absurd (hq ▸ hlt) (by decide)
        · rw [if_neg (by tauto), bind_eq_ok, Option.map_eq_some_iff]
          have hdiv : (off.sdiv s).toInt = off.toInt.tdiv s.toInt := by
            apply BitVec.toInt_sdiv_of_ne_or_ne
            tauto
          constructor
          · rintro ⟨ds, hds, hcons⟩
            obtain rfl := Except.ok.inj hcons
            refine ⟨ds.map BitVec.toInt, ?_, by rw [List.map_cons, hdiv]⟩
            rw [← BitVec.toInt_srem]
            exact ih.mp hds
          · rintro ⟨ds, hds, hcons⟩
            cases cs with
            | nil => cases hcons
            | cons c cs =>
                obtain ⟨hc, rfl⟩ := List.cons.inj hcons
                rw [← BitVec.toInt_srem] at hds
                rw [← hdiv] at hc
                exact ⟨cs, ih.mpr hds, by rw [BitVec.eq_of_toInt_eq hc]; rfl⟩

/-- **`OffsetExact ss cs`** — the offset of the vector `cs` fits a signed 64-bit word, and every tail
of it is smaller than the step before it. -/
def OffsetExact (ss : List MpiOffset) (cs : List HSize) : Prop :=
  -(2 ^ 63) ≤ radixValue (ss.map BitVec.toInt) (cs.map BitVec.toInt) ∧
  radixValue (ss.map BitVec.toInt) (cs.map BitVec.toInt) < 2 ^ 63 ∧
  RadixCanonical (ss.map BitVec.toInt) (cs.map BitVec.toInt)

instance (ss : List MpiOffset) (cs : List HSize) : Decidable (OffsetExact ss cs) :=
  inferInstanceAs (Decidable (_ ∧ _ ∧ _))

/-- **Decoding inverts encoding** on a vector exactly when the vector is `OffsetExact`. -/
theorem selDecode_selEncode_iff {ss : List MpiOffset} {cs : List HSize} (hlast : ss.getLast? = some 1)
    (hlen : cs.length = ss.length) : selDecode ss (selEncode ss cs) = .ok cs ↔ OffsetExact ss cs := by
  have hlast' : (ss.map BitVec.toInt).getLast? = some 1 := by
    rw [List.getLast?_map, hlast]
    rfl
  rw [selDecode_eq_ok_iff, Lib.radixDigits_eq_some_iff hlast' (by simpa using hlen), selEncode_toInt,
    OffsetExact, ← and_assoc]
  refine and_congr_left fun _ => ?_
  constructor
  · intro h
    rw [← h]
    exact ⟨Int.le_bmod (by decide), Int.bmod_lt (by decide)⟩
  · rintro ⟨hlo, hhi⟩
    exact Int.bmod_eq_of_le_mul_two (by omega) (by omega)

/-! ## §2 — the steps of a dataset. -/

theorem calcDsteps_getLast? : ∀ {ds : List HSize}, ds ≠ [] → (calcDsteps ds).getLast? = some 1
  | [_], _ => rfl
  | _ :: d :: ds, _ => by
      have ih : (calcDsteps (d :: ds)).getLast? = some 1 := calcDsteps_getLast? (by simp)
      rw [calcDsteps]
      cases h : calcDsteps (d :: ds) with
      | nil => rw [h] at ih; cases ih
      | cons s ss =>
          rw [h] at ih
          rw [List.getLast?_cons_cons, ih]

/-- The steps of the trailing dimensions are the trailing steps. -/
theorem calcDsteps_drop_one : ∀ ds : List HSize, (calcDsteps ds).drop 1 = calcDsteps (ds.drop 1)
  | [] => rfl
  | [_] => rfl
  | _ :: d :: ds => by
      have hlen := calcDsteps_length (d :: ds)
      rw [calcDsteps, List.drop_one, List.drop_one, List.tail_cons]
      cases h : calcDsteps (d :: ds) with
      | nil => rw [h] at hlen; simp at hlen
      | cons s ss => rfl

/-- Without overflow the steps are the suffix products of the dimensions. -/
theorem calcDsteps_toNat : ∀ {ds : List HSize}, (∀ d ∈ ds, 1 ≤ d.toNat) →
    (ds.map BitVec.toNat).prod < 2 ^ 63 →
      (calcDsteps ds).map BitVec.toNat = suffixProds (ds.map BitVec.toNat)
  | [], _, _ => rfl
  | [_], _, _ => rfl
  | d₀ :: d :: ds, hpos, hprod => by
      have hd₀ : 1 ≤ d₀.toNat := hpos d₀ (by simp)
      have htail : ((d :: ds).map BitVec.toNat).prod < 2 ^ 63 := by
        rw [List.map_cons, List.prod_cons] at hprod
        exact lt_of_le_of_lt (Nat.le_mul_of_pos_left _ hd₀) hprod
      have ih : (calcDsteps (d :: ds)).map BitVec.toNat = suffixProds ((d :: ds).map BitVec.toNat) :=
        calcDsteps_toNat (fun x hx => hpos x (List.mem_cons_of_mem _ hx)) htail
      rw [calcDsteps, List.map_cons, suffixProds]
      cases h : calcDsteps (d :: ds) with
      | nil =>
          have hlen := calcDsteps_length (d :: ds)
          rw [h] at hlen
          simp at hlen
      | cons s ss =>
          rw [h, List.map_cons, List.map_cons, suffixProds] at ih
          obtain ⟨hs, hss⟩ := List.cons.inj ih
          have hmul : (s * d).toNat = ((d :: ds).map BitVec.toNat).prod := by
            rw [BitVec.toNat_mul, hs, List.map_cons, List.prod_cons, mul_comm]
            rw [List.map_cons, List.prod_cons] at htail
            exact Nat.mod_eq_of_lt (by omega)
          rw [List.map_cons, hmul, List.map_cons (a := s), hs, hss]
          rfl

/-- A signed word below `2 ^ 63` is its unsigned value. -/
theorem toInt_eq_ofNat_toNat {w : BitVec 64} (h : w.toNat < 2 ^ 63) : w.toInt = Int.ofNat w.toNat :=
  BitVec.toInt_eq_toNat_of_lt (by omega)

theorem forall₂_le_lt {cs ds : List HSize} {n : Nat}
    (hle : List.Forall₂ (fun c d : HSize => c.toNat ≤ d.toNat) cs ds)
    (hds : ∀ d ∈ ds, d.toNat < n) : ∀ c ∈ cs, c.toNat < n := by
  induction hle with
  | nil => simp
  | cons hcd _ ih =>
      intro x hx
      rcases List.mem_cons.mp hx with rfl | hx
      · exact lt_of_le_of_lt hcd (hds _ (by simp))
      · exact ih (fun d hd => hds d (List.mem_cons_of_mem _ hd)) x hx

theorem map_toInt_eq {l : List (BitVec 64)} (hl : ∀ x ∈ l, x.toNat < 2 ^ 63) :
    l.map BitVec.toInt = (l.map BitVec.toNat).map Int.ofNat := by
  rw [List.map_map]
  exact List.map_congr_left fun x hx => toInt_eq_ofNat_toNat (hl x hx)

/-- **Where nothing overflows**, a vector within the dimensions is exact when each of its coordinates
but the first is strictly below its dimension. -/
theorem offsetExact_iff_lt {d : HSize} {ds : List HSize} {c : HSize} {cs : List HSize}
    (hpos : ∀ x ∈ d :: ds, 1 ≤ x.toNat) (hprod : ((d :: ds).map BitVec.toNat).prod ≤ 2 ^ 62)
    (hle : List.Forall₂ (fun c d : HSize => c.toNat ≤ d.toNat) (c :: cs) (d :: ds)) :
    OffsetExact (calcDsteps (d :: ds)) (c :: cs) ↔
      List.Forall₂ (fun c d : HSize => c.toNat < d.toNat) cs ds := by
  have hprodpos (l : List HSize) (hl : ∀ x ∈ l, 1 ≤ x.toNat) : 0 < (l.map BitVec.toNat).prod :=
    List.prod_pos fun y hy => by
      obtain ⟨z, hz, rfl⟩ := List.mem_map.mp hy
      exact hl z hz
  -- Each dimension divides the product, and is below the bound with it.
  have hlt : ∀ x ∈ d :: ds, x.toNat < 2 ^ 63 := by
    intro x hx
    have hdvd : x.toNat ∣ ((d :: ds).map BitVec.toNat).prod :=
      List.dvd_prod (List.mem_map_of_mem hx)
    have := Nat.le_of_dvd (hprodpos _ hpos) hdvd
    omega
  have hcords := map_toInt_eq (forall₂_le_lt hle hlt)
  have hsteps := calcDsteps_toNat hpos (by omega)
  have hsteps' : (calcDsteps (d :: ds)).map BitVec.toInt =
      (suffixProds ((d :: ds).map BitVec.toNat)).map Int.ofNat := by
    rw [← hsteps]
    refine map_toInt_eq fun x hx => ?_
    have hmem : x.toNat ∈ suffixProds ((d :: ds).map BitVec.toNat) := by
      rw [← hsteps]
      exact List.mem_map_of_mem hx
    have := Lib.le_prod_of_mem_suffixProds (fun y hy => by
      obtain ⟨z, hz, rfl⟩ := List.mem_map.mp hy
      exact hpos z hz) hmem
    omega
  have hcan : RadixCanonical ((suffixProds (d.toNat :: ds.map BitVec.toNat)).map Int.ofNat)
      ((c.toNat :: cs.map BitVec.toNat).map Int.ofNat) ↔
        List.Forall₂ (· < ·) (cs.map BitVec.toNat) (ds.map BitVec.toNat) := by
    refine Lib.radixCanonical_suffixProds_iff (fun y hy => ?_) (by simpa using hle.length_eq)
    obtain ⟨z, hz, rfl⟩ := List.mem_map.mp hy
    exact hpos z (List.mem_cons_of_mem _ hz)
  -- With nothing wrapped, this is a number in mixed radix, and exact is the same as canonical.
  rw [OffsetExact, hsteps', hcords, Lib.radixValue_natCast]
  rw [List.map_cons, List.map_cons, hcan, List.forall₂_map_left_iff, List.forall₂_map_right_iff]
  constructor
  · exact fun h => h.2.2
  · intro h
    refine ⟨by omega, ?_, h⟩
    have hc : c.toNat ≤ d.toNat := by
      cases hle
      assumption
    have hrest : Lib.natValue (suffixProds (ds.map BitVec.toNat)) (cs.map BitVec.toNat) <
        (ds.map BitVec.toNat).prod := by
      refine Lib.natValue_lt_prod ?_
      rwa [List.forall₂_map_left_iff, List.forall₂_map_right_iff]
    have hd : 1 ≤ d.toNat := hpos d (by simp)
    have hbound : Lib.natValue (suffixProds (d.toNat :: ds.map BitVec.toNat))
        (c.toNat :: cs.map BitVec.toNat) < 2 ^ 63 := by
      rw [suffixProds, Lib.natValue]
      rw [List.map_cons, List.prod_cons] at hprod
      -- The first coordinate may be the whole dimension, which costs one more product.
      calc c.toNat * (ds.map BitVec.toNat).prod + Lib.natValue _ (cs.map BitVec.toNat)
          < d.toNat * (ds.map BitVec.toNat).prod + (ds.map BitVec.toNat).prod :=
            Nat.add_lt_add_of_le_of_lt (Nat.mul_le_mul_right _ hc) hrest
        _ ≤ d.toNat * (ds.map BitVec.toNat).prod + d.toNat * (ds.map BitVec.toNat).prod :=
            Nat.add_le_add_left (Nat.le_mul_of_pos_left _ hd) _
        _ ≤ 2 ^ 63 := by omega
    exact_mod_cast hbound

/-! ## §3 — entries in the offset layout. -/

/-- The dimensions an entry's offsets range over: all, or all but the record dimension. -/
def encodedDims (dip : DsetInfo) (sels : Selections) : List HSize :=
  dip.dims.drop (dimoffOf (recordOf dip sels))

/-- With current steps, writer and reader of an entry divide by the same steps: those of the encoded
dimensions. -/
theorem encodedSteps_eq {dip : DsetInfo} {sels : Selections} (hcur : dip.StepsCurrent) :
    dip.dsteps.drop (dimoffOf (recordOf dip sels)) = calcDsteps (encodedDims dip sels) := by
  rw [hcur, encodedDims]
  cases hrec : recordOf dip sels with
  | none => rfl
  | some rec => exact calcDsteps_drop_one dip.dims

theorem encodedDims_length (dip : DsetInfo) (sels : Selections) :
    (encodedDims dip sels).length = encdimOf dip (recordOf dip sels) := by
  rw [encodedDims, List.length_drop, ← ndim_sub_dimoffOf, DsetInfo.ndim]

/-- The steps stored in the entry, completed by the last one. -/
theorem storedSteps_eq {dip : DsetInfo} {sels : Selections} (hcur : dip.StepsCurrent)
    (hpos : 1 ≤ encdimOf dip (recordOf dip sels)) :
    (dip.dsteps.drop (dip.ndim - encdimOf dip (recordOf dip sels))).take
      (encdimOf dip (recordOf dip sels) - 1) ++ [1] = calcDsteps (encodedDims dip sels) := by
  have hoff : dip.ndim - encdimOf dip (recordOf dip sels) = dimoffOf (recordOf dip sels) := by
    rw [← ndim_sub_dimoffOf] at hpos ⊢
    omega
  have hlen : (calcDsteps (encodedDims dip sels)).length = encdimOf dip (recordOf dip sels) := by
    rw [calcDsteps_length, encodedDims_length]
  have hne : calcDsteps (encodedDims dip sels) ≠ [] := by
    rw [← List.length_pos_iff, hlen]
    exact hpos
  have hlast : (calcDsteps (encodedDims dip sels)).getLast hne = 1 := by
    have hdims : encodedDims dip sels ≠ [] := by
      rw [← List.length_pos_iff, encodedDims_length]
      exact hpos
    have h := calcDsteps_getLast? hdims
    rw [List.getLast?_eq_some_getLast hne] at h
    exact Option.some.inj h
  rw [hoff, encodedSteps_eq hcur, ← hlen, ← List.dropLast_eq_take, ← hlast,
    List.dropLast_append_getLast]

/-- The offset of one start or count, as the reader splits it. -/
def splitCords (dip : DsetInfo) (sels : Selections) (f : Block → List HSize) (b : Block) :
    Except Fault (List HSize) :=
  selDecode (calcDsteps (encodedDims dip sels))
    (selEncode (calcDsteps (encodedDims dip sels)) ((f b).drop (dimoffOf (recordOf dip sels))))

/-- What the reader makes of an entry in the offset layout. -/
theorem readSels_offsets {config : I32} {z : Option Zlib} {dip : DsetInfo} {sels : Selections}
    (id : I32) (mdsize : MpiOffset) (hcur : dip.StepsCurrent)
    (henc : hasFlag (wreqFlag z config dip sels) MetaFlag.selEncode = true) :
    Yields (readSels dip (wreqOf z config dip sels id mdsize).hdr (recordOf dip sels) sels.nsel)
      (selField dip sels true (recordOf dip sels))
      (do let starts ← sels.sels.mapM (splitCords dip sels Block.start)
          let counts ← sels.sels.mapM (splitCords dip sels Block.count)
          let e ← buildEntry dip (wreqOf z config dip sels id mdsize).hdr (recordOf dip sels) starts
            counts
          pure (e, calcDsteps (encodedDims dip sels))) := by
  have hflag : hasFlag (wreqOf z config dip sels id mdsize).hdr.flag MetaFlag.selEncode = true := henc
  have hdim : 1 < encdimOf dip (recordOf dip sels) := by
    rw [wreqFlag_selEncode, Bool.and_eq_true, Bool.and_eq_true] at henc
    exact of_decide_eq_true henc.1.2
  -- The steps come first, all but the last, which is 1 and is not stored.
  have hsteps : Reads (readSteps (wreqOf z config dip sels id mdsize).hdr.flag
      (encdimRead dip (recordOf dip sels)))
      (putWords sizeofOffset ((dip.dsteps.drop (dip.ndim - encdimOf dip (recordOf dip sels))).take
        (encdimOf dip (recordOf dip sels) - 1))) (calcDsteps (encodedDims dip sels)) := by
    have hlen : ((dip.dsteps.drop (dip.ndim - encdimOf dip (recordOf dip sels))).take
        (encdimOf dip (recordOf dip sels) - 1)).length = encdimOf dip (recordOf dip sels) - 1 := by
      rw [List.length_take, List.length_drop, dip.dsteps_length]
      have := encdimOf_le dip (recordOf dip sels)
      unfold DsetInfo.ndim at *
      omega
    have hn : encdimRead dip (recordOf dip sels) - 1 =
        ((dip.dsteps.drop (dip.ndim - encdimOf dip (recordOf dip sels))).take
          (encdimOf dip (recordOf dip sels) - 1)).length := by
      rw [hlen, encdimRead_eq]
      omega
    have hread := (readOffsets_reads hn).map (· ++ [1])
    rw [storedSteps_eq hcur (by omega)] at hread
    rw [readSteps, hflag]
    exact hread
  -- Then one offset for each vector, split by those steps.
  have hcords (f : Block → List HSize) : ∀ b ∈ sels.sels,
      Yields (readCords (hasFlag (wreqOf z config dip sels id mdsize).hdr.flag MetaFlag.selEncode)
        (encdimRead dip (recordOf dip sels)) (calcDsteps (encodedDims dip sels)))
        (putWord sizeofOffset (selEncode (dip.dsteps.drop (dimoffOf (recordOf dip sels)))
          ((f b).drop (dimoffOf (recordOf dip sels))))) (splitCords dip sels f b) := by
    intro b _
    rw [hflag, readCords, if_pos rfl, encodedSteps_eq hcur]
    have hsplit := Yields.bind
      (f := fun off => Lib.pureExcept (selDecode (calcDsteps (encodedDims dip sels)) off))
      (readOffset_reads (selEncode (calcDsteps (encodedDims dip sels))
        ((f b).drop (dimoffOf (recordOf dip sels))))) (Yields.pureExcept _)
    rw [List.append_nil] at hsplit
    exact hsplit
  exact readSels_yields hsteps (hcords Block.start) (hcords Block.count)

/-- If the elements built from two traversals of a list are the list again, each element is built
from its own two values. -/
theorem zipWith_eq_self {α β γ : Type} {P : α → β → Prop} {Q : α → γ → Prop} {mk : β → γ → α}
    {xs : List α} {ys : List β} {zs : List γ} (hP : List.Forall₂ P xs ys)
    (hQ : List.Forall₂ Q xs zs) (h : List.zipWith mk ys zs = xs) :
    ∀ x ∈ xs, ∃ y z, P x y ∧ Q x z ∧ mk y z = x := by
  induction hP generalizing zs with
  | nil => simp
  | @cons x y xs ys hxy _ ih =>
      cases hQ with
      | @cons _ z _ zs hxz hQ =>
          rw [List.zipWith_cons_cons] at h
          obtain ⟨hx, hxs⟩ := List.cons.inj h
          intro x' hx'
          rcases List.mem_cons.mp hx' with rfl | hx'
          · exact ⟨y, z, hxy, hxz, hx⟩
          · exact ih hQ hxs x' hx'

theorem mkBlock_inj {recnum : Option HSize} {s s' c c' : List HSize}
    (h : mkBlock recnum s c = mkBlock recnum s' c') : s = s' ∧ c = c' := by
  cases recnum with
  | none => exact ⟨congrArg Block.start h, congrArg Block.count h⟩
  | some rec =>
      exact ⟨(List.cons.inj (congrArg Block.start h)).2, (List.cons.inj (congrArg Block.count h)).2⟩

/-- The starts and counts split back into the blocks exactly when each of them does. -/
theorem splitBlocks_iff {dip : DsetInfo} {sels : Selections} (hrank : sels.ndim = dip.ndim) :
    (∃ starts counts, sels.sels.mapM (splitCords dip sels Block.start) = .ok starts ∧
      sels.sels.mapM (splitCords dip sels Block.count) = .ok counts ∧
      List.zipWith (mkBlock (recordOf dip sels)) starts counts = sels.sels) ↔
    ∀ b ∈ sels.sels,
      splitCords dip sels Block.start b = .ok (b.start.drop (dimoffOf (recordOf dip sels))) ∧
      splitCords dip sels Block.count b = .ok (b.count.drop (dimoffOf (recordOf dip sels))) := by
  constructor
  · rintro ⟨starts, counts, hstarts, hcounts, hzip⟩ b hb
    obtain ⟨s, c, hs, hc, hmk⟩ := zipWith_eq_self (mapM_eq_ok_iff.mp hstarts)
      (mapM_eq_ok_iff.mp hcounts) hzip b hb
    obtain ⟨rfl, rfl⟩ := mkBlock_inj (hmk.trans (mkBlock_drop hrank hb).symm)
    exact ⟨hs, hc⟩
  · intro h
    refine ⟨sels.sels.map fun b => b.start.drop (dimoffOf (recordOf dip sels)),
      sels.sels.map fun b => b.count.drop (dimoffOf (recordOf dip sels)), ?_, ?_, ?_⟩
    · rw [mapM_eq_ok_iff, List.forall₂_map_right_iff, List.forall₂_same]
      exact fun b hb => (h b hb).1
    · rw [mapM_eq_ok_iff, List.forall₂_map_right_iff, List.forall₂_same]
      exact fun b hb => (h b hb).2
    · rw [List.zipWith_map, List.zipWith_self,
        List.map_congr_left fun b hb => mkBlock_drop hrank hb, List.map_id']

/-- The bytes the constructor builds for a selection decode to the same blocks. -/
def DecodesBack (z z' : Option Zlib) (config id : I32) (mdsize : MpiOffset) (dip : DsetInfo)
    (sels : Selections) : Prop :=
  ∃ r e, wreqInit z config id mdsize dip sels = .ok r ∧ metaentryDecode z' dip r.metaBuf = .ok e ∧
    e.sels.map MetaSel.block = sels.sels

/-- **`OffsetsExact`** — the number of words of the selection fits an `int`, the size of the entry is
positive as an `int32_t`, and every start and every count is exact against the steps of the encoded
dimensions. -/
structure OffsetsExact (z : Option Zlib) (config : I32) (dip : DsetInfo) (sels : Selections) : Prop where
  words_lt : selWords z config dip sels < 2 ^ 31
  size_pos : 0 < (BitVec.ofNat 32 (entrySize z config dip sels)).toInt
  exact : ∀ b ∈ sels.sels,
    OffsetExact (calcDsteps (encodedDims dip sels)) (b.start.drop (dimoffOf (recordOf dip sels))) ∧
    OffsetExact (calcDsteps (encodedDims dip sels)) (b.count.drop (dimoffOf (recordOf dip sels)))

/-- An entry whose size is not positive is refused. -/
theorem metaentryDecode_badSize {z : Option Zlib} {dset : DsetInfo} {hdr : MetaHdr}
    {body : List UInt8} (h : hdr.metaSize.toInt ≤ 0) :
    metaentryDecode z dset (hdr.bytes ++ body) = .error (.raised "Invalid metadata entry") := by
  have hcheck : Yields (checkMetaSize hdr) [] (.error (.raised "Invalid metadata entry")) := by
    rw [checkMetaSize, if_pos h]
    exact fun _ => rfl
  have hrest : Yields (checkMetaSize hdr >>= fun _ => readRecnum hdr.flag >>= readBlocks z dset hdr)
      ([] ++ []) (.error (.raised "Invalid metadata entry")) :=
    hcheck.andThen (g := fun _ => .error (.raised "Invalid metadata entry")) (by rintro _ ⟨⟩)
  have hrun := Yields.bind (f := fun hdr => do
    checkMetaSize hdr
    let recnum ← readRecnum hdr.flag
    readBlocks z dset hdr recnum) (readHdr_reads hdr) hrest body
  rw [List.append_nil, List.append_nil] at hrun
  exact congrArg (Except.map _) hrun

/-- **The offset layout round-trips exactly when the offsets are exact.** -/
theorem decodesBack_iff {z z' : Option Zlib} {config id : I32} {mdsize : MpiOffset} {dip : DsetInfo}
    {sels : Selections} (hrank : sels.ndim = dip.ndim) (hcur : dip.StepsCurrent)
    (henc : hasFlag (wreqFlag z config dip sels) MetaFlag.selEncode = true)
    (hzip : hasFlag (wreqFlag z config dip sels) MetaFlag.selDeflate = false) :
    DecodesBack z z' config id mdsize dip sels ↔ OffsetsExact z config dip sels := by
  have hmulti : 1 < sels.nsel ∧ 1 < encdimOf dip (recordOf dip sels) := by
    rw [wreqFlag_selEncode, Bool.and_eq_true, Bool.and_eq_true] at henc
    exact ⟨of_decide_eq_true henc.1.1, of_decide_eq_true henc.1.2⟩
  have hne : sels.sels ≠ [] := by
    rw [← List.length_pos_iff]
    exact lt_trans one_pos hmulti.1
  have hsize : (wreqOf z config dip sels id mdsize).hdr.metaSize =
      BitVec.ofNat 32 (entrySize z config dip sels) := rfl
  -- with a positive size, decoding is splitting the offsets and building the blocks
  have hdecode (hpos : 0 < (wreqOf z config dip sels id mdsize).hdr.metaSize.toInt) :
      metaentryDecode z' dip (wreqOf z config dip sels id mdsize).metaBuf =
        (do let starts ← sels.sels.mapM (splitCords dip sels Block.start)
            let counts ← sels.sels.mapM (splitCords dip sels Block.count)
            buildEntry dip (wreqOf z config dip sels id mdsize).hdr (recordOf dip sels) starts
              counts) := by
    have hsel := readSels_offsets id mdsize hcur henc
    have hrun := wreqOf_yields z' hpos hne hzip (by rw [henc]; exact hsel) []
    rw [List.append_nil] at hrun
    rw [metaentryDecode, hrun]
    cases sels.sels.mapM (splitCords dip sels Block.start) with
    | error e => rfl
    | ok starts =>
        cases sels.sels.mapM (splitCords dip sels Block.count) with
        | error e => rfl
        | ok counts =>
            change Except.map _ (Except.map _ (buildEntry _ _ _ starts counts >>= _)) =
              buildEntry _ _ _ starts counts
            cases buildEntry dip (wreqOf z config dip sels id mdsize).hdr (recordOf dip sels) starts
              counts <;> rfl
  have hexact (f : Block → List HSize) (hf : ∀ b ∈ sels.sels, (f b).length = dip.ndim) :
      ∀ b ∈ sels.sels, splitCords dip sels f b = .ok ((f b).drop (dimoffOf (recordOf dip sels))) ↔
        OffsetExact (calcDsteps (encodedDims dip sels))
          ((f b).drop (dimoffOf (recordOf dip sels))) := by
    intro b hb
    refine selDecode_selEncode_iff (calcDsteps_getLast? ?_) ?_
    · rw [← List.length_pos_iff, encodedDims_length]
      omega
    · rw [calcDsteps_length, encodedDims_length, List.length_drop, hf b hb, ndim_sub_dimoffOf]
  have hstart := hexact Block.start fun b hb => (sels.rank_eq b hb).1.trans hrank
  have hcount := hexact Block.count fun b hb => (sels.rank_eq b hb).2.trans hrank
  constructor
  · rintro ⟨r, e, hr, he, hblocks⟩
    have hwords : selWords z config dip sels < 2 ^ 31 := by
      by_contra hge
      rw [wreqInit_error z config dip sels id mdsize hrank (by omega)] at hr
      cases hr
    rw [wreqInit_eq z config dip sels id mdsize hrank hwords] at hr
    obtain rfl := Except.ok.inj hr
    have hpos : 0 < (wreqOf z config dip sels id mdsize).hdr.metaSize.toInt := by
      by_contra hle
      rw [WReq.metaBuf, metaentryDecode_badSize (by omega)] at he
      cases he
    rw [hdecode hpos, bind_eq_ok] at he
    obtain ⟨starts, hstarts, he⟩ := he
    obtain ⟨counts, hcounts, he⟩ := bind_eq_ok.mp he
    rw [buildEntry_block he] at hblocks
    have hsplit := (splitBlocks_iff hrank).mp ⟨starts, counts, hstarts, hcounts, hblocks⟩
    exact ⟨hwords, hpos, fun b hb =>
      ⟨(hstart b hb).mp (hsplit b hb).1, (hcount b hb).mp (hsplit b hb).2⟩⟩
  · rintro ⟨hwords, hpos, hall⟩
    obtain ⟨starts, counts, hstarts, hcounts, hzip⟩ := (splitBlocks_iff hrank).mpr fun b hb =>
      ⟨(hstart b hb).mpr (hall b hb).1, (hcount b hb).mpr (hall b hb).2⟩
    obtain ⟨e, he⟩ := buildEntry_ok dip (wreqOf z config dip sels id mdsize).hdr
      (by rw [hzip]; exact hne)
    refine ⟨_, e, wreqInit_eq z config dip sels id mdsize hrank hwords, ?_, ?_⟩
    · rw [hdecode hpos, hstarts, hcounts]
      exact he
    · rw [buildEntry_block he, hzip]

theorem forall₂_drop {α β : Type} {R : α → β → Prop} {xs : List α} {ys : List β}
    (h : List.Forall₂ R xs ys) (n : Nat) : List.Forall₂ R (xs.drop n) (ys.drop n) := by
  induction h generalizing n with
  | nil => simp
  | cons hxy hrest ih =>
      cases n with
      | zero => exact hrest.cons hxy
      | succ n => exact ih n

/-- Blocks inside dimensions whose product does not overflow are exact when every count beyond the
first encoded dimension is below its dimension; the starts always are. -/
theorem offsetsExact_iff_counts {z : Option Zlib} {config : I32} {dip : DsetInfo} {sels : Selections}
    (hrank : sels.ndim = dip.ndim) (hpos : ∀ d ∈ dip.dims, 1 ≤ d.toNat)
    (hins : ∀ b ∈ sels.sels, b.Inside dip.dims)
    (henc : hasFlag (wreqFlag z config dip sels) MetaFlag.selEncode = true)
    (hsize : entrySize z config dip sels < 2 ^ 31)
    (hprod : ((encodedDims dip sels).map BitVec.toNat).prod ≤ 2 ^ 62) :
    OffsetsExact z config dip sels ↔
      ∀ b ∈ sels.sels, List.Forall₂ (fun c d : HSize => c.toNat < d.toNat)
        (b.count.drop (dimoffOf (recordOf dip sels))).tail (encodedDims dip sels).tail := by
  have hdims : encodedDims dip sels ≠ [] := by
    rw [wreqFlag_selEncode, Bool.and_eq_true, Bool.and_eq_true] at henc
    have := of_decide_eq_true henc.1.2
    rw [← List.length_pos_iff, encodedDims_length]
    omega
  -- For one vector: the first encoded coordinate has no bound.
  have hvec (cs : List HSize) (hle : List.Forall₂ (fun c d : HSize => c.toNat ≤ d.toNat)
      (cs.drop (dimoffOf (recordOf dip sels))) (encodedDims dip sels)) :
      OffsetExact (calcDsteps (encodedDims dip sels)) (cs.drop (dimoffOf (recordOf dip sels))) ↔
        List.Forall₂ (fun c d : HSize => c.toNat < d.toNat)
          (cs.drop (dimoffOf (recordOf dip sels))).tail (encodedDims dip sels).tail := by
    have hpos' : ∀ d ∈ encodedDims dip sels, 1 ≤ d.toNat :=
      fun d hd => hpos d (List.mem_of_mem_drop hd)
    generalize encodedDims dip sels = ds at *
    generalize cs.drop (dimoffOf (recordOf dip sels)) = cs' at *
    cases hle with
    | nil => exact absurd rfl hdims
    | cons hcd hrest => exact offsetExact_iff_lt hpos' hprod (hrest.cons hcd)
  have hbounds (b : Block) (hb : b ∈ sels.sels) := (hins b hb).bounds
    ((sels.rank_eq b hb).1.trans (sels.rank_eq b hb).2.symm)
  constructor
  · intro h b hb
    exact (hvec b.count (forall₂_drop (hbounds b hb).2 _)).mp (h.exact b hb).2
  · intro h
    refine ⟨selWords_lt_of_size z config dip sels hrank hsize, ?_, fun b hb => ⟨?_, ?_⟩⟩
    · exact wreqOf_metaSize_pos z config dip sels 0 0 hsize
    · -- Starts are below the dimensions in any case.
      have hlt := forall₂_drop (hbounds b hb).1 (dimoffOf (recordOf dip sels))
      refine (hvec b.start (hlt.imp fun _ _ h => Nat.le_of_lt h)).mpr ?_
      rw [← List.drop_one, ← List.drop_one]
      exact forall₂_drop hlt 1
    · exact (hvec b.count (forall₂_drop (hbounds b hb).2 _)).mpr (h b hb)

/-! ## §4 — an entry that is marked compressed. -/

/-- What `inflate` is given of the bytes behind the block count: as many as the entry has behind a header and a
count, so that in a record entry the record number is not taken off. -/
def compressedPart (hdr : MetaHdr) (bytes : List UInt8) : List UInt8 :=
  if hdr.metaSize.toInt - sizeofHdr - sizeofInt < 0 then bytes
  else bytes.take (hdr.metaSize.toInt - sizeofHdr - sizeofInt).toNat

/-- A selection that is marked compressed is inflated as a whole, and read from the result. -/
theorem unpackSels_marked_iff {z : Option Zlib} {dset : DsetInfo} {hdr : MetaHdr} {recnum : Option HSize}
    {n : Int} {bytes : List UInt8} {out : MetaEntry × List MpiOffset}
    (h : hasFlag hdr.flag MetaFlag.selDeflate = true) :
    (∃ rest, (unpackSels z dset hdr recnum n).run bytes = .ok (out, rest)) ↔
      ∃ zl zbuf left, z = some zl ∧
        zl.inflate (compressedPart hdr bytes) (unzippedSize hdr.flag (encdimRead dset recnum) n) = some zbuf ∧
        (readSels dset hdr recnum n).run zbuf = .ok (out, left) := by
  -- What is given to zlib ends with the entry or with the buffer, whichever comes first.
  have htake : ∃ rest, (takeAtMost (hdr.metaSize.toInt - sizeofHdr - sizeofInt)).run bytes =
      .ok (compressedPart hdr bytes, rest) := by
    unfold compressedPart takeAtMost StateT.run
    split <;> exact ⟨_, rfl⟩
  obtain ⟨rest₀, htake⟩ := htake
  unfold unpackSels
  rw [if_pos h]
  cases z with
  | none =>
    constructor
    · rintro ⟨rest, hrun⟩
      cases hrun
    · rintro ⟨zl, zbuf, left, hz, -, -⟩
      cases hz
  | some zl =>
    simp only [StateT.run_bind, htake, Lib.ok_bind, Option.some.injEq]
    constructor
    · rintro ⟨rest, hrun⟩
      cases hz : zl.inflate (compressedPart hdr bytes)
          (unzippedSize hdr.flag (encdimRead dset recnum) n) with
      | none =>
        rw [hz] at hrun
        cases hrun
      | some zbuf =>
        rw [hz] at hrun
        obtain ⟨hmap, -⟩ := Lib.run_pureExcept_eq_ok.mp hrun
        cases hread : (readSels dset hdr recnum n).run zbuf with
        | error e =>
          rw [hread] at hmap
          cases hmap
        | ok v =>
          rw [hread] at hmap
          obtain rfl := Except.ok.inj hmap
          exact ⟨zl, zbuf, v.2, rfl, hz, hread⟩
    · rintro ⟨_, zbuf, left, rfl, hz, hread⟩
      refine ⟨rest₀, ?_⟩
      rw [hz]
      exact Lib.run_pureExcept_eq_ok.mpr ⟨by rw [hread]; rfl, rfl⟩

/-- **The raw selection is taken for a compressed one**: the constructor marks the entry, and stores the selection as
it is. It comes back if it happens to be what zlib makes of one that is read as the same blocks. -/
structure InflatesBack (z z' : Option Zlib) (config id : I32) (mdsize : MpiOffset) (dip : DsetInfo)
    (sels : Selections) : Prop where
  marked : hasFlag (wreqFlag z config dip sels) MetaFlag.selDeflate = true
  words_lt : selWords z config dip sels < 2 ^ 31
  size_pos : 0 < (BitVec.ofNat 32 (entrySize z config dip sels)).toInt
  inflates : ∃ zl zbuf out left, z' = some zl ∧
    zl.inflate (compressedPart (wreqOf z config dip sels id mdsize).hdr (selField dip sels true (recordOf dip sels)))
      (unzippedSize (wreqFlag z config dip sels) (encdimRead dip (recordOf dip sels)) sels.nsel) = some zbuf ∧
    (readSels dip (wreqOf z config dip sels id mdsize).hdr (recordOf dip sels) sels.nsel).run zbuf =
      .ok (out, left) ∧
    out.1.sels.map MetaSel.block = sels.sels

theorem decodesBack_marked_iff {z z' : Option Zlib} {config id : I32} {mdsize : MpiOffset} {dip : DsetInfo}
    {sels : Selections} (hrank : sels.ndim = dip.ndim)
    (henc : hasFlag (wreqFlag z config dip sels) MetaFlag.selEncode = true)
    (hzip : hasFlag (wreqFlag z config dip sels) MetaFlag.selDeflate = true) :
    DecodesBack z z' config id mdsize dip sels ↔ InflatesBack z z' config id mdsize dip sels := by
  have hmulti : 1 < sels.nsel := by
    rw [wreqFlag_selEncode, Bool.and_eq_true, Bool.and_eq_true] at henc
    exact of_decide_eq_true henc.1.1
  have hmul : hasFlag (wreqOf z config dip sels id mdsize).hdr.flag MetaFlag.mulSel = true := by
    show hasFlag (wreqFlag z config dip sels) MetaFlag.mulSel = true
    rw [wreqFlag_mulSel, decide_eq_true hmulti]
  have hbuf : (wreqOf z config dip sels id mdsize).metaBuf = (wreqOf z config dip sels id mdsize).hdr.bytes ++
      (entryPrefix (recordOf dip sels) (some (BitVec.ofNat 32 sels.nsel)) ++
        selField dip sels true (recordOf dip sels)) := by
    have hbody : (wreqOf z config dip sels id mdsize).body = _ := wreqBody_eq z config dip sels
    rw [WReq.metaBuf, hbody, henc, nselField, if_pos hmulti]
  -- The prefix reads back as it was written; the rest is the compressed part.
  have hdecode (hpos : 0 < (wreqOf z config dip sels id mdsize).hdr.metaSize.toInt) :
      metaentryDecode z' dip (wreqOf z config dip sels id mdsize).metaBuf =
        ((unpackSels z' dip (wreqOf z config dip sels id mdsize).hdr (recordOf dip sels) sels.nsel).run
          (selField dip sels true (recordOf dip sels))).map fun p => p.1.1 := by
    rw [metaentryDecode, hbuf, decodeSteps_run _ hpos (wreqFlag_record z config dip sels) hmul,
      toInt_ofNat_of_lt (n := sels.nsel) sels.nsel_lt]
  have hflag : hasFlag (wreqOf z config dip sels id mdsize).hdr.flag MetaFlag.selDeflate = true := hzip
  constructor
  · -- An entry that decodes was made, has a positive size, and was inflated.
    rintro ⟨r, e, hr, he, hblocks⟩
    have hwords : selWords z config dip sels < 2 ^ 31 := by
      by_contra hge
      rw [wreqInit_error z config dip sels id mdsize hrank (by omega)] at hr
      cases hr
    rw [wreqInit_eq z config dip sels id mdsize hrank hwords] at hr
    obtain rfl := Except.ok.inj hr
    have hpos : 0 < (wreqOf z config dip sels id mdsize).hdr.metaSize.toInt := by
      by_contra hle
      rw [WReq.metaBuf, metaentryDecode_badSize (by omega)] at he
      cases he
    rw [hdecode hpos] at he
    cases hrun : (unpackSels z' dip (wreqOf z config dip sels id mdsize).hdr (recordOf dip sels)
        sels.nsel).run (selField dip sels true (recordOf dip sels)) with
    | error err =>
      rw [hrun] at he
      cases he
    | ok p =>
      rw [hrun] at he
      obtain rfl := Except.ok.inj he
      obtain ⟨zl, zbuf, left, hz, hinflate, hread⟩ := (unpackSels_marked_iff hflag).mp ⟨p.2, hrun⟩
      exact ⟨hzip, hwords, hpos, zl, zbuf, p.1, left, hz, hinflate, hread, hblocks⟩
  · rintro ⟨-, hwords, hpos, zl, zbuf, out, left, hz, hinflate, hread, hblocks⟩
    obtain ⟨rest, hrun⟩ := (unpackSels_marked_iff hflag).mpr ⟨zl, zbuf, left, hz, hinflate, hread⟩
    refine ⟨_, out.1, wreqInit_eq z config dip sels id mdsize hrank hwords, ?_, hblocks⟩
    rw [hdecode hpos, hrun]
    rfl

/-- **When offset-encoded entries come back.** For blocks inside a dataset with current steps, the
bytes the constructor builds in the offset layout decode to the same blocks if and only if the entry is not marked
compressed and the offsets are exact, or it is and inflates to the same blocks. Of entries that are not marked, fit
their size field and have at most `2 ^ 62` cells in the encoded dimensions, those come back in which no block spans
a whole encoded dimension other than the first. -/
theorem decodesBack_offsets_iff (z z' : Option Zlib) (config id : I32) (mdsize : MpiOffset)
    (dip : DsetInfo) (sels : Selections) (hrank : sels.ndim = dip.ndim) (hcur : dip.StepsCurrent)
    (hpos : ∀ d ∈ dip.dims, 1 ≤ d.toNat) (hins : ∀ b ∈ sels.sels, b.Inside dip.dims)
    (henc : hasFlag (wreqFlag z config dip sels) MetaFlag.selEncode = true) :
    (DecodesBack z z' config id mdsize dip sels ↔
      hasFlag (wreqFlag z config dip sels) MetaFlag.selDeflate = false ∧ OffsetsExact z config dip sels ∨
        InflatesBack z z' config id mdsize dip sels) ∧
    (hasFlag (wreqFlag z config dip sels) MetaFlag.selDeflate = false → entrySize z config dip sels < 2 ^ 31 →
      ((encodedDims dip sels).map BitVec.toNat).prod ≤ 2 ^ 62 →
      (DecodesBack z z' config id mdsize dip sels ↔
        ∀ b ∈ sels.sels, List.Forall₂ (fun c d : HSize => c.toNat < d.toNat)
          (b.count.drop (dimoffOf (recordOf dip sels))).tail (encodedDims dip sels).tail)) := by
  constructor
  · cases hzip : hasFlag (wreqFlag z config dip sels) MetaFlag.selDeflate with
    | false =>
      have hnot : ¬ InflatesBack z z' config id mdsize dip sels := fun h => by
        rw [h.marked] at hzip
        cases hzip
      simp [decodesBack_iff hrank hcur henc hzip, hnot]
    | true => simp [decodesBack_marked_iff hrank henc hzip]
  · intro hzip hsize hprod
    exact (decodesBack_iff hrank hcur henc hzip).trans
      (offsetsExact_iff_counts hrank hpos hins henc hsize hprod)

/-- A 4 by 4 dataset. -/
def sampleSquareDset : DsetInfo := DsetInfo.plain 4 [4, 4] [4, 4] [4, 1] (by decide) rfl rfl

/-- Two blocks of two columns each. -/
def sampleHalfRows : Selections :=
  { ndim := 2, sels := [⟨[0, 0], [1, 2]⟩, ⟨[2, 1], [2, 2]⟩], rank_eq := by decide, nsel_lt := by decide }

/-- Two full rows. -/
def sampleFullRows : Selections :=
  { ndim := 2, sels := [⟨[0, 0], [1, 4]⟩, ⟨[2, 0], [1, 4]⟩], rank_eq := by decide, nsel_lt := by decide }

theorem decodesBack_offsets_halfRows :
    DecodesBack none none FileConfig.selEncode 0 0 sampleSquareDset sampleHalfRows := by
  have hins : ∀ b ∈ sampleHalfRows.sels, b.Inside sampleSquareDset.dims := by decide +kernel
  have hsize : entrySize none FileConfig.selEncode sampleSquareDset sampleHalfRows < 2 ^ 31 := by
    decide +kernel
  have hiff := decodesBack_offsets_iff none none FileConfig.selEncode 0 0 sampleSquareDset
    sampleHalfRows rfl rfl (by simp [sampleSquareDset, DsetInfo.plain]) hins (by decide)
  have hcounts := hiff.2 (by decide) hsize (by decide +kernel)
  rw [hcounts]
  decide +kernel

/-- Two full rows of a 4 by 4 dataset do not come back: a count of `[1, 4]` is read as `[2, 0]`. -/
theorem not_decodesBack_fullRows :
    sampleSquareDset.StepsCurrent ∧ (∀ b ∈ sampleFullRows.sels, b.Inside sampleSquareDset.dims) ∧
    hasFlag (wreqFlag none FileConfig.selEncode sampleSquareDset sampleFullRows)
      MetaFlag.selEncode = true ∧
    metaentryDecode none sampleSquareDset
        (wreqOf none FileConfig.selEncode sampleSquareDset sampleFullRows 0 0).metaBuf =
      .ok ⟨(wreqOf none FileConfig.selEncode sampleSquareDset sampleFullRows 0 0).hdr,
        [⟨[0, 0], [2, 0], 0⟩, ⟨[2, 0], [2, 0], 0⟩], 0⟩ ∧
    ¬ DecodesBack none none FileConfig.selEncode 0 0 sampleSquareDset sampleFullRows := by
  refine ⟨rfl, by decide +kernel, by decide, by decide +kernel, ?_⟩
  rintro ⟨r, e, hr, he, hblocks⟩
  rw [wreqInit_eq _ _ _ _ _ _ rfl (by decide +kernel)] at hr
  obtain rfl := Except.ok.inj hr
  have hread : metaentryDecode none sampleSquareDset
      (wreqOf none FileConfig.selEncode sampleSquareDset sampleFullRows 0 0).metaBuf =
    .ok ⟨(wreqOf none FileConfig.selEncode sampleSquareDset sampleFullRows 0 0).hdr,
      [⟨[0, 0], [2, 0], 0⟩, ⟨[2, 0], [2, 0], 0⟩], 0⟩ := by decide +kernel
  obtain rfl := Except.ok.inj (hread.symm.trans he)
  revert hblocks
  decide

end LogVol
