/-
# LogVol.DecodeBounds — decoding bytes that nobody has checked.

What `H5VL_logi_metaentry_decode` makes of the bytes at an entry, whatever they are. `EndsAs` says when a
computation returns, when it raises an error, and that it breaks in every other case; it composes along the
reads of the decoder, and `metaentryDecode_ends` is what comes out: the entry is decoded exactly when its fields
lie in the block (`EntryGood`), and refused for a few values of them (`EntryRefused`).
-/
import LogVol.MergedCodec

namespace LogVol

open Lib (Reader takeMany getWord)

/-! ## §1 — how a computation ends. -/

/-- A fault that is no error for the caller. -/
def Fault.Breaks : Fault → Prop
  | .raised _ => False
  | _ => True

/-- **`EndsAs x good refused Q`** — `x` returns a value with `Q` when `good`, raises an error when `refused`, and
breaks otherwise. -/
structure EndsAs {α : Type} (x : Except Fault α) (good refused : Prop) (Q : α → Prop) : Prop where
  ok : good → ∃ a, x = .ok a ∧ Q a
  raised : refused → ∃ msg, x = .error (.raised msg)
  breaks : ¬ good → ¬ refused → ∃ err, x = .error err ∧ err.Breaks

namespace EndsAs

variable {α β : Type} {x : Except Fault α} {g g' r r' : Prop} {Q : α → Prop}

theorem of_ok {a : α} (h : x = .ok a) (hQ : Q a) : EndsAs x True False Q where
  ok := fun _ => ⟨a, h, hQ⟩
  raised := False.elim
  breaks := fun hno => absurd trivial hno

theorem of_break (err : Fault) (h : x = .error err) (hbreak : err.Breaks) : EndsAs x False False Q where
  ok := False.elim
  raised := False.elim
  breaks := fun _ _ => ⟨err, h, hbreak⟩

theorem of_raise (msg : String) (h : x = .error (.raised msg)) : EndsAs x False True Q where
  ok := False.elim
  raised := fun _ => ⟨msg, h⟩
  breaks := fun _ hno => absurd trivial hno

theorem congr (h : EndsAs x g r Q) (hg : g ↔ g') (hr : r ↔ r') : EndsAs x g' r' Q := by
  rw [← propext hg, ← propext hr]
  exact h

theorem weaken {Q' : α → Prop} (h : EndsAs x g r Q) (hQ : ∀ a, Q a → Q' a) : EndsAs x g r Q' where
  ok := fun hg =>
    have ⟨a, ha, hQa⟩ := h.ok hg
    ⟨a, ha, hQ a hQa⟩
  raised := h.raised
  breaks := h.breaks

/-- What returns a value is good, and the value is as it says. -/
theorem of_eq_ok (h : EndsAs x g r Q) {a : α} (hx : x = .ok a) : g ∧ Q a := by
  have hg : g := by
    by_contra hno
    by_cases hrefused : r
    · obtain ⟨msg, hmsg⟩ := h.raised hrefused
      rw [hx] at hmsg
      cases hmsg
    · obtain ⟨err, herr, -⟩ := h.breaks hno hrefused
      rw [hx] at herr
      cases herr
  obtain ⟨b, hb, hQ⟩ := h.ok hg
  rw [hx] at hb
  obtain rfl := Except.ok.inj hb
  exact ⟨hg, hQ⟩

/-- A computation that cannot be refused, and what follows it. -/
theorem bind {f : α → Except Fault β} {P : β → Prop} (g' r' : Prop) (h : EndsAs x g False Q)
    (hf : ∀ a, Q a → EndsAs (f a) g' r' P) : EndsAs (x >>= f) (g ∧ g') (g ∧ r') P := by
  by_cases hg : g
  · obtain ⟨a, rfl, hQ⟩ := h.ok hg
    exact (hf a hQ).congr (and_iff_right hg).symm (and_iff_right hg).symm
  · obtain ⟨err, rfl, hbreak⟩ := h.breaks hg id
    exact (of_break _ rfl hbreak).congr (iff_of_false id fun hno => hg hno.1) (iff_of_false id fun hno => hg hno.1)

/-- What follows a computation always returns. -/
theorem bind_ok {f : α → Except Fault β} {P : β → Prop} (h : EndsAs x g r Q)
    (hf : ∀ a, x = .ok a → Q a → ∃ b, f a = .ok b ∧ P b) : EndsAs (x >>= f) g r P where
  ok := fun hg =>
    have ⟨a, ha, hQa⟩ := h.ok hg
    have ⟨b, hb, hPb⟩ := hf a ha hQa
    ⟨b, by rw [ha]; exact hb, hPb⟩
  raised := fun hr =>
    have ⟨msg, hmsg⟩ := h.raised hr
    ⟨msg, by rw [hmsg]; rfl⟩
  breaks := fun hg hr =>
    have ⟨err, herr, hbreak⟩ := h.breaks hg hr
    ⟨err, by rw [herr]; rfl, hbreak⟩

theorem map {P : β → Prop} {f : α → β} (h : EndsAs x g r Q) (hf : ∀ a, Q a → P (f a)) :
    EndsAs (x.map f) g r P where
  ok := fun hg =>
    have ⟨a, ha, hQa⟩ := h.ok hg
    ⟨f a, by rw [ha]; rfl, hf a hQa⟩
  raised := fun hr =>
    have ⟨msg, hmsg⟩ := h.raised hr
    ⟨msg, by rw [hmsg]; rfl⟩
  breaks := fun hg hr =>
    have ⟨err, herr, hbreak⟩ := h.breaks hg hr
    ⟨err, by rw [herr]; rfl, hbreak⟩

/-- A read that has to be inside. -/
theorem ite_ok {c : Prop} [Decidable c] {a : α} {err : Fault} (hQ : Q a) (hbreak : err.Breaks) :
    EndsAs (if c then .ok a else .error err) c False Q := by
  by_cases h : c
  · rw [if_pos h]
    exact (of_ok rfl hQ).congr (iff_of_true trivial h) Iff.rfl
  · rw [if_neg h]
    exact (of_break _ rfl hbreak).congr (iff_of_false id h) Iff.rfl

end EndsAs

/-! ## §2 — words. -/

/-- The word at the front. -/
def frontWord (bs : List UInt8) : MpiOffset := getWord 64 (bs.take sizeofOffset)

/-- The `int` at the front. -/
def frontInt (bs : List UInt8) : I32 := getWord 32 (bs.take sizeofInt)

theorem takeWord_run (k w : Nat) (bs : List UInt8) :
    (Lib.takeWord Fault.outside k w).run bs =
      if k ≤ bs.length then .ok (getWord w (bs.take k), bs.drop k) else .error .outside := by
  show (if k ≤ bs.length then _ else _ : Except Fault _) >>= _ = _
  split <;> rfl

theorem pureExcept_run {α : Type} (x : Except Fault α) (bs : List UInt8) :
    (Lib.pureExcept x).run bs = x.map fun a => (a, bs) := by
  cases x <;> rfl

theorem readOffset_ends (bs : List UInt8) :
    EndsAs (readOffset.run bs) (sizeofOffset ≤ bs.length) False
      fun p => p = (frontWord bs, bs.drop sizeofOffset) := by
  rw [readOffset, takeWord_run]
  exact EndsAs.ite_ok rfl trivial

theorem readInt_ends (bs : List UInt8) :
    EndsAs (readInt.run bs) (sizeofInt ≤ bs.length) False fun p => p = (frontInt bs, bs.drop sizeofInt) := by
  rw [readInt, takeWord_run]
  exact EndsAs.ite_ok rfl trivial

/-- `n` items of `w` bytes lie at the front, each with `P` of the bytes from it on. -/
def Many (w : ℕ) (P : List UInt8 → Prop) (n : ℕ) (bs : List UInt8) : Prop :=
  w * n ≤ bs.length ∧ ∀ i < n, P (bs.drop (w * i))

theorem many_add (w : ℕ) (P : List UInt8 → Prop) (m n : ℕ) (bs : List UInt8) :
    Many w P (m + n) bs ↔ Many w P m bs ∧ Many w P n (bs.drop (w * m)) := by
  unfold Many
  rw [List.length_drop, mul_add]
  constructor
  · rintro ⟨hlen, hall⟩
    refine ⟨⟨by omega, fun i hi => hall i (by omega)⟩, by omega, ?_⟩
    intro i hi
    rw [List.drop_drop, ← mul_add]
    exact hall (m + i) (by omega)
  · rintro ⟨⟨hlen, hlo⟩, hlen', hhi⟩
    refine ⟨by omega, ?_⟩
    intro i hi
    by_cases him : i < m
    · exact hlo i him
    · have h := hhi (i - m) (by omega)
      rwa [List.drop_drop, ← mul_add, Nat.add_sub_cancel' (by omega)] at h

theorem many_one (w : ℕ) (P : List UInt8 → Prop) (bs : List UInt8) :
    Many w P 1 bs ↔ w ≤ bs.length ∧ P bs := by
  unfold Many
  rw [mul_one]
  constructor
  · rintro ⟨hlen, hall⟩
    exact ⟨hlen, hall 0 Nat.one_pos⟩
  · rintro ⟨hlen, hP⟩
    refine ⟨hlen, ?_⟩
    intro i hi
    obtain rfl : i = 0 := by omega
    exact hP

/-- One item after another. -/
theorem takeMany_ends {α : Type} {r : Reader Fault α} {w : ℕ} {P : List UInt8 → Prop} {f : List UInt8 → α → Prop}
    (hr : ∀ bs, EndsAs (r.run bs) (w ≤ bs.length ∧ P bs) False fun p => f bs p.1 ∧ p.2 = bs.drop w) (n : ℕ)
    (bs : List UInt8) :
    EndsAs ((takeMany r n).run bs) (Many w P n bs) False fun p =>
      List.Forall₂ (fun i a => f (bs.drop (w * i)) a) (List.range n) p.1 ∧ p.2 = bs.drop (w * n) := by
  -- On the number of items; each takes w bytes, so the next starts w bytes further on.
  induction n generalizing bs with
  | zero =>
    refine (EndsAs.of_ok rfl ⟨List.Forall₂.nil, rfl⟩).congr (iff_of_true trivial ?_) Iff.rfl
    exact ⟨Nat.zero_le _, fun i hi => absurd hi (Nat.not_lt_zero i)⟩
  | succ n ih =>
    rw [takeMany, StateT.run_bind]
    have hone := (hr bs).congr (many_one w P bs).symm Iff.rfl
    refine (hone.bind (Many w P n (bs.drop w)) False ?_).congr ?_ (iff_of_false And.right id)
    · rintro ⟨a, rest⟩ ⟨ha, hrest⟩
      subst hrest
      rw [StateT.run_bind]
      refine ((ih (bs.drop w)).bind True False ?_).congr (and_iff_left trivial)
        (iff_of_false And.right id)
      rintro ⟨as, rest⟩ ⟨has, hrest⟩
      refine EndsAs.of_ok rfl ⟨?_, ?_⟩
      · rw [List.range_succ_eq_map]
        refine List.Forall₂.cons ha ?_
        rw [List.forall₂_map_left_iff]
        refine has.imp ?_
        intro i b hb
        rwa [List.drop_drop, add_comm, ← Nat.mul_succ] at hb
      · show rest = _
        have hrest : rest = (bs.drop w).drop (w * n) := hrest
        rw [hrest, List.drop_drop, add_comm, ← Nat.mul_succ]
    · rw [add_comm n 1, many_add, mul_one]

/-! ## §3 — selections. -/

/-- The steps divide the offset: none of them is zero, and the quotient by the first is a word. The remainder of a
division is never the least word. -/
def Divides (dsteps : List MpiOffset) (off : MpiOffset) : Prop :=
  0 ∉ dsteps ∧ (dsteps.head? = some (-1) → off ≠ BitVec.intMin 64)

theorem srem_ne_intMin {off s : MpiOffset} (hs : s ≠ 0) : off.srem s ≠ BitVec.intMin 64 := by
  intro h
  have hint := congrArg BitVec.toInt h
  rw [BitVec.toInt_srem] at hint
  have hmin : (BitVec.intMin 64).toInt = -(2 ^ 63) := by decide
  rw [hmin] at hint
  have hs0 : s.toInt ≠ 0 := fun h0 => hs (BitVec.toInt_inj.mp (h0.trans BitVec.toInt_zero.symm))
  have hlo := BitVec.le_toInt s
  have hhi := BitVec.toInt_lt (x := s)
  have hmod : (off.toInt.tmod s.toInt).natAbs < s.toInt.natAbs := by
    rw [Int.natAbs_tmod]
    exact Nat.mod_lt _ (Int.natAbs_pos.mpr hs0)
  omega

theorem selDecode_ends (dsteps : List MpiOffset) (off : MpiOffset) :
    EndsAs (selDecode dsteps off) (Divides dsteps off) False fun _ => True := by
  induction dsteps generalizing off with
  | nil =>
    refine (EndsAs.of_ok rfl trivial).congr (iff_of_true trivial ⟨List.not_mem_nil, ?_⟩) Iff.rfl
    intro h
    cases h
  | cons s ss ih =>
    rw [selDecode]
    -- The one quotient that does not fit needs the least offset, and behind a first division no offset is that.
    by_cases htrap : s = 0 ∨ (off = BitVec.intMin 64 ∧ s = -1)
    · rw [if_pos htrap]
      refine (EndsAs.of_break .trap rfl trivial).congr (iff_of_false id ?_) Iff.rfl
      rintro ⟨hzero, hmin⟩
      rcases htrap with rfl | ⟨rfl, rfl⟩
      · exact hzero (List.mem_cons_self ..)
      · exact hmin rfl rfl
    · rw [if_neg htrap]
      have hs : s ≠ 0 := fun h => htrap (Or.inl h)
      have hrest := (ih (off.srem s)).bind (f := fun cords => .ok (off.sdiv s :: cords))
        (P := fun _ => True) True False fun cords _ => EndsAs.of_ok rfl trivial
      refine hrest.congr ?_ (iff_of_false And.right id)
      rw [and_true]
      constructor
      · rintro ⟨hzero, -⟩
        refine ⟨?_, ?_⟩
        · rw [List.mem_cons, not_or]
          exact ⟨hs.symm, hzero⟩
        · intro hhead hoff
          exact htrap (Or.inr ⟨hoff, Option.some.inj hhead⟩)
      · rintro ⟨hzero, -⟩
        exact ⟨fun h => hzero (List.mem_cons_of_mem s h), fun _ => srem_ne_intMin hs⟩

section Selections

variable (flag : I32) (encdim : Int)

/-- The bytes of the stored steps. -/
def stepsSize : ℕ := if hasFlag flag MetaFlag.selEncode then sizeofOffset * (encdim - 1).toNat else 0

/-- The steps: all but the last are stored. -/
def stepsAt (bs : List UInt8) : List MpiOffset :=
  if hasFlag flag MetaFlag.selEncode
  then (List.range (encdim - 1).toNat).map (fun i => frontWord (bs.drop (sizeofOffset * i))) ++ [1]
  else []

/-- There are steps where there should be, for one dimension or more. -/
def StepsFit (bs : List UInt8) : Prop :=
  (hasFlag flag MetaFlag.selEncode = true → 1 ≤ encdim) ∧ stepsSize flag encdim ≤ bs.length

/-- The bytes of a start or a count. -/
def vecSize : ℕ := if hasFlag flag MetaFlag.selEncode then sizeofOffset else sizeofOffset * encdim.toNat

/-- A start or a count can be read at the front. -/
def VecFits (dsteps : List MpiOffset) (bs : List UInt8) : Prop :=
  if hasFlag flag MetaFlag.selEncode then Divides dsteps (frontWord bs) else 0 ≤ encdim

/-- **The selection fits**: `nsel` starts and as many counts behind the steps. -/
def SelsFit (nsel : ℕ) (bs : List UInt8) : Prop :=
  StepsFit flag encdim bs ∧
    Many (vecSize flag encdim) (VecFits flag encdim (stepsAt flag encdim bs)) (nsel + nsel)
      (bs.drop (stepsSize flag encdim))

variable {flag encdim}

theorem readOffsets_ends (n : Int) (bs : List UInt8) :
    EndsAs ((readOffsets n).run bs) (0 ≤ n ∧ sizeofOffset * n.toNat ≤ bs.length) False fun p =>
      p = ((List.range n.toNat).map (fun i => frontWord (bs.drop (sizeofOffset * i))),
        bs.drop (sizeofOffset * n.toNat)) := by
  unfold readOffsets
  by_cases hn : n < 0
  · rw [if_pos hn]
    exact (EndsAs.of_break .outside rfl trivial).congr (iff_of_false id fun h => absurd h.1 (not_le.mpr hn))
      Iff.rfl
  · rw [if_neg hn]
    have hone (bs : List UInt8) : EndsAs (readOffset.run bs) (sizeofOffset ≤ bs.length ∧ True) False
        fun p => p.1 = frontWord bs ∧ p.2 = bs.drop sizeofOffset := by
      refine ((readOffset_ends bs).congr (and_iff_left trivial).symm Iff.rfl).weaken ?_
      rintro _ rfl
      exact ⟨rfl, rfl⟩
    refine ((takeMany_ends (f := fun bs a => a = frontWord bs) hone n.toNat bs).congr ?_ Iff.rfl).weaken ?_
    · constructor
      · rintro ⟨hlen, -⟩
        exact ⟨by omega, hlen⟩
      · rintro ⟨-, hlen⟩
        exact ⟨hlen, fun _ _ => trivial⟩
    · rintro ⟨as, rest⟩ ⟨has, hrest⟩
      refine Prod.ext ?_ hrest
      exact Lib.forall₂_eq_map.mp has.flip

theorem readSteps_ends (flag : I32) (encdim : Int) (bs : List UInt8) :
    EndsAs ((readSteps flag encdim).run bs) (StepsFit flag encdim bs) False fun p =>
      p = (stepsAt flag encdim bs, bs.drop (stepsSize flag encdim)) := by
  unfold readSteps StepsFit stepsAt stepsSize
  by_cases henc : hasFlag flag MetaFlag.selEncode = true
  · rw [if_pos henc, if_pos henc, if_pos henc, StateT.run_map]
    refine ((readOffsets_ends (encdim - 1) bs).map (f := fun p => (p.1 ++ [1], p.2)) ?_).congr ?_ Iff.rfl
    · rintro _ rfl
      rfl
    · constructor
      · rintro ⟨hpos, hlen⟩
        exact ⟨fun _ => by omega, hlen⟩
      · rintro ⟨hpos, hlen⟩
        exact ⟨by have := hpos henc; omega, hlen⟩
  · rw [if_neg henc, if_neg henc, if_neg henc]
    have hfits : (hasFlag flag MetaFlag.selEncode = true → 1 ≤ encdim) ∧ 0 ≤ bs.length :=
      ⟨fun h => absurd h henc, Nat.zero_le _⟩
    exact (EndsAs.of_ok (Q := fun p => p = ([], bs.drop 0)) rfl rfl).congr (iff_of_true trivial hfits) Iff.rfl

theorem readCords_ends (flag : I32) (encdim : Int) (dsteps : List MpiOffset) (bs : List UInt8) :
    EndsAs ((readCords (hasFlag flag MetaFlag.selEncode) encdim dsteps).run bs)
      (vecSize flag encdim ≤ bs.length ∧ VecFits flag encdim dsteps bs) False fun p =>
      True ∧ p.2 = bs.drop (vecSize flag encdim) := by
  unfold vecSize VecFits readCords
  by_cases henc : hasFlag flag MetaFlag.selEncode = true
  · rw [if_pos henc, if_pos henc, if_pos henc, StateT.run_bind]
    refine ((readOffset_ends bs).bind (Divides dsteps (frontWord bs)) False ?_).congr Iff.rfl
      (iff_of_false And.right id)
    rintro _ rfl
    rw [pureExcept_run]
    exact (selDecode_ends dsteps (frontWord bs)).map fun _ _ => ⟨trivial, rfl⟩
  · rw [if_neg henc, if_neg henc, if_neg henc]
    refine ((readOffsets_ends encdim bs).congr and_comm Iff.rfl).weaken ?_
    rintro _ rfl
    exact ⟨trivial, rfl⟩

theorem checkNsel_run {nsel : Int} (h : 0 ≤ nsel) (bs : List UInt8) : (checkNsel nsel).run bs = .ok ((), bs) := by
  rw [checkNsel, if_neg (not_lt.mpr h)]
  rfl

/-- **The selection of an entry**, for any number of blocks. -/
theorem readSels_ends {dset : DsetInfo} {hdr : MetaHdr} {recnum : Option HSize}
    (hdim : encdimRead dset recnum = encdim) (nsel : Int) (bs : List UInt8) :
    EndsAs ((readSels dset hdr recnum nsel).run bs) (1 ≤ nsel ∧ SelsFit hdr.flag encdim nsel.toNat bs)
      (nsel < 0 ∧ StepsFit hdr.flag encdim bs) fun p => p.1.1.hdr = hdr ∧ p.1.1.sels ≠ [] := by
  unfold readSels
  rw [hdim, StateT.run_bind]
  have hvec := readCords_ends hdr.flag encdim (stepsAt hdr.flag encdim bs)
  have hmany (b : List UInt8) := takeMany_ends (f := fun _ _ => True) hvec nsel.toNat b
  refine ((readSteps_ends hdr.flag encdim bs).bind
    (1 ≤ nsel ∧ Many (vecSize hdr.flag encdim) (VecFits hdr.flag encdim (stepsAt hdr.flag encdim bs))
      (nsel.toNat + nsel.toNat) (bs.drop (stepsSize hdr.flag encdim))) (nsel < 0) ?_).congr ?_ and_comm
  · rintro _ rfl
    -- A negative count raises when the vector is resized; with none, the last block does not exist.
    rcases lt_or_ge nsel 0 with hneg | hpos
    · refine (EndsAs.of_raise "vector::_M_default_append" ?_).congr (iff_of_false id ?_) (iff_of_true trivial hneg)
      · simp only [StateT.run_bind, checkNsel, if_pos hneg]
        rfl
      · rintro ⟨h, -⟩
        omega
    · rw [StateT.run_bind, checkNsel_run hpos, Lib.ok_bind, StateT.run_bind]
      rw [many_add]
      refine ((hmany _).bind (1 ≤ nsel ∧ Many (vecSize hdr.flag encdim)
        (VecFits hdr.flag encdim (stepsAt hdr.flag encdim bs)) nsel.toNat
        ((bs.drop (stepsSize hdr.flag encdim)).drop (vecSize hdr.flag encdim * nsel.toNat))) False ?_).congr
        and_left_comm (iff_of_false And.right (not_lt.mpr hpos))
      rintro ⟨starts, rest⟩ ⟨hstarts, hrest⟩
      obtain rfl : rest = _ := hrest
      rw [StateT.run_bind]
      refine ((hmany _).bind (1 ≤ nsel) False ?_).congr and_comm (iff_of_false And.right id)
      rintro ⟨counts, rest⟩ ⟨hcounts, -⟩
      have hslen : starts.length = nsel.toNat := by rw [← hstarts.length_eq, List.length_range]
      have hclen : counts.length = nsel.toNat := by rw [← hcounts.length_eq, List.length_range]
      have hlen : (placeSels dset.esize 0 (List.zipWith (mkBlock recnum) starts counts)).length = nsel.toNat := by
        rw [placeSels_length, List.length_zipWith, hslen, hclen, min_self]
      have hend : EndsAs (lastBlockEnd dset.esize encdim.toNat
          (placeSels dset.esize 0 (List.zipWith (mkBlock recnum) starts counts))) (1 ≤ nsel) False fun _ =>
          placeSels dset.esize 0 (List.zipWith (mkBlock recnum) starts counts) ≠ [] := by
        by_cases hone : 1 ≤ nsel
        · have hne : placeSels dset.esize 0 (List.zipWith (mkBlock recnum) starts counts) ≠ [] := by
            rw [← List.length_pos_iff, hlen]
            omega
          obtain ⟨dsize, hdsize⟩ := lastBlockEnd_ok dset.esize encdim.toNat hne
          exact (EndsAs.of_ok hdsize hne).congr (iff_of_true trivial hone) Iff.rfl
        · have hnil : placeSels dset.esize 0 (List.zipWith (mkBlock recnum) starts counts) = [] := by
            rw [← List.length_eq_zero_iff, hlen]
            omega
          rw [hnil]
          exact (EndsAs.of_break .outside rfl trivial).congr (iff_of_false id hone) Iff.rfl
      rw [StateT.run_bind, pureExcept_run]
      have hpair := hend.map (f := fun dsize => (dsize, rest)) (P := fun _ =>
        placeSels dset.esize 0 (List.zipWith (mkBlock recnum) starts counts) ≠ []) fun _ h => h
      refine (hpair.bind True False ?_).congr (and_iff_left trivial) (iff_of_false And.right id)
      intro dsize hne
      exact EndsAs.of_ok rfl ⟨rfl, hne⟩
  · unfold SelsFit
    exact and_left_comm

end Selections

/-! ## §4 — entries. -/

/-- The bytes of the record number. -/
def recSize (flag : I32) : ℕ := if hasFlag flag MetaFlag.record then sizeofOffset else 0

/-- The bytes of the block count. -/
def countSize (flag : I32) : ℕ := if hasFlag flag MetaFlag.mulSel then sizeofInt else 0

/-- The number of blocks. -/
def countAt (flag : I32) (bs : List UInt8) : Int :=
  if hasFlag flag MetaFlag.mulSel then (frontInt bs).toInt else 1

/-- The dimensions that are encoded. -/
def encdimAt (dset : DsetInfo) (flag : I32) : Int :=
  if hasFlag flag MetaFlag.record then (dset.ndim : Int) - 1 else dset.ndim

/-- Entries with a single selection are never compressed. -/
def packedAt (flag : I32) : Bool := hasFlag flag MetaFlag.mulSel && hasFlag flag MetaFlag.selDeflate

/-- The number of bytes zlib is given. -/
def inflateLen (hdr : MetaHdr) : Int := hdr.metaSize.toInt - sizeofHdr - sizeofInt

/-- What zlib makes of the bytes that are there. -/
def unzipped (z : Option Zlib) (hdr : MetaHdr) (encdim nsel : Int) (bs : List UInt8) : Option (List UInt8) :=
  z.bind fun z => z.inflate (if inflateLen hdr < 0 then bs else bs.take (inflateLen hdr).toNat)
    (unzippedSize hdr.flag encdim nsel)

section Blocks

variable (z : Option Zlib) (dset : DsetInfo) (hdr : MetaHdr) (encdim : Int) (bs ent : List UInt8)

/-- The bytes of the selection: what follows the count, or what it holds compressed. -/
def selBytes : Option (List UInt8) :=
  if packedAt hdr.flag then unzipped z hdr encdim (countAt hdr.flag bs) (bs.drop (countSize hdr.flag))
  else some (bs.drop (countSize hdr.flag))

/-- There is a block or more, and all of them fit. -/
def BlocksGood : Prop :=
  countSize hdr.flag ≤ bs.length ∧ ∃ b ∈ selBytes z hdr encdim bs,
    1 ≤ countAt hdr.flag bs ∧ SelsFit hdr.flag encdim (countAt hdr.flag bs).toNat b

/-- The selection cannot be decompressed, or it has a negative number of blocks. -/
def BlocksRefused : Prop :=
  countSize hdr.flag ≤ bs.length ∧ ∀ b ∈ selBytes z hdr encdim bs,
    countAt hdr.flag bs < 0 ∧ StepsFit hdr.flag encdim b

/-- **An entry that is decoded**: its size is positive, and its record number and its blocks lie in the block. -/
def EntryGood : Prop :=
  0 < hdr.metaSize.toInt ∧ recSize hdr.flag ≤ (ent.drop sizeofHdr).length ∧
    BlocksGood z hdr (encdimAt dset hdr.flag) ((ent.drop sizeofHdr).drop (recSize hdr.flag))

/-- **An entry that is refused**: its size is not positive, or its blocks are refused. -/
def EntryRefused : Prop :=
  hdr.metaSize.toInt ≤ 0 ∨ recSize hdr.flag ≤ (ent.drop sizeofHdr).length ∧
    BlocksRefused z hdr (encdimAt dset hdr.flag) ((ent.drop sizeofHdr).drop (recSize hdr.flag))

end Blocks

variable {z : Option Zlib} {dset : DsetInfo} {hdr : MetaHdr} {ent rest : List UInt8}

theorem readHdr_rest (h : readHdr.run ent = .ok (hdr, rest)) : rest = ent.drop sizeofHdr := by
  rw [readHdr_eq_ok h, List.drop_left' hdr.bytes_length]

/-- Only the length decides whether there is a header. -/
theorem readHdr_ends (bs : List UInt8) :
    EndsAs (readHdr.run bs) (sizeofHdr ≤ bs.length) False fun _ => True := by
  unfold readHdr
  have hlast (metaSize did flag : I32) (foff : MpiOffset) (bs : List UInt8) :
      EndsAs ((do
        let fsize ← readOffset
        pure ⟨metaSize, did, flag, foff, fsize⟩ : Reader Fault MetaHdr).run bs) (sizeofOffset ≤ bs.length) False
        fun _ => True := by
    rw [StateT.run_bind]
    exact ((readOffset_ends bs).bind True False fun _ _ => EndsAs.of_ok rfl trivial).congr (and_iff_left trivial)
      (iff_of_false And.right id)
  simp only [StateT.run_bind] at hlast ⊢
  -- Field by field, with what the ones behind it still need.
  refine ((readInt_ends bs).bind (24 ≤ (bs.drop sizeofInt).length) False ?_).congr ?_ (iff_of_false And.right id)
  · rintro _ rfl
    refine ((readInt_ends _).bind (20 ≤ ((bs.drop sizeofInt).drop sizeofInt).length) False ?_).congr ?_
      (iff_of_false And.right id)
    · rintro _ rfl
      refine ((readInt_ends _).bind (16 ≤ (((bs.drop sizeofInt).drop sizeofInt).drop sizeofInt).length) False ?_).congr
        ?_ (iff_of_false And.right id)
      · rintro _ rfl
        refine ((readOffset_ends _).bind (8 ≤ ((((bs.drop sizeofInt).drop sizeofInt).drop sizeofInt).drop
          sizeofOffset).length) False ?_).congr ?_ (iff_of_false And.right id)
        · rintro _ rfl
          exact hlast ..
        · simp only [List.length_drop, sizeofOffset, sizeofInt]
          omega
      · simp only [List.length_drop, sizeofInt]
        omega
    · simp only [List.length_drop, sizeofInt]
      omega
  · simp only [List.length_drop, sizeofInt, sizeofHdr]
    omega

theorem readRecnum_ends (flag : I32) (bs : List UInt8) :
    EndsAs ((readRecnum flag).run bs) (recSize flag ≤ bs.length) False fun p =>
      p.1.isSome = hasFlag flag MetaFlag.record ∧ p.2 = bs.drop (recSize flag) := by
  unfold readRecnum recSize
  by_cases hrec : hasFlag flag MetaFlag.record = true
  · rw [if_pos hrec, if_pos hrec, StateT.run_map, hrec]
    refine (readOffset_ends bs).map (f := fun p => (some p.1, p.2)) ?_
    rintro _ rfl
    exact ⟨rfl, rfl⟩
  · rw [if_neg hrec, if_neg hrec]
    have hfalse := Bool.eq_false_iff.mpr hrec
    exact (EndsAs.of_ok rfl ⟨hfalse.symm, rfl⟩).congr (iff_of_true trivial (Nat.zero_le _)) Iff.rfl

/-- Bytes that cannot be unzipped are refused; otherwise the selection is read from what there is. -/
theorem unpackSels_ends {recnum : Option HSize} {encdim : Int} (hdim : encdimRead dset recnum = encdim)
    (nsel : Int) (bs : List UInt8) :
    EndsAs ((unpackSels z dset hdr recnum nsel).run bs)
      (∃ b ∈ if hasFlag hdr.flag MetaFlag.selDeflate then unzipped z hdr encdim nsel bs else some bs,
        1 ≤ nsel ∧ SelsFit hdr.flag encdim nsel.toNat b)
      (∀ b ∈ if hasFlag hdr.flag MetaFlag.selDeflate then unzipped z hdr encdim nsel bs else some bs,
        nsel < 0 ∧ StepsFit hdr.flag encdim b) fun p => p.1.1.hdr = hdr ∧ p.1.1.sels ≠ [] := by
  have hsels := @readSels_ends encdim dset hdr recnum hdim nsel
  have hsome (b : List UInt8) (P : List UInt8 → Prop) : P b ↔ ∃ b' ∈ some b, P b' := by simp
  have hall (b : List UInt8) (P : List UInt8 → Prop) : P b ↔ ∀ b' ∈ some b, P b' := by simp
  unfold unpackSels
  by_cases hdef : hasFlag hdr.flag MetaFlag.selDeflate = true
  · rw [if_pos hdef, if_pos hdef]
    rcases z with _ | z
    · refine (EndsAs.of_raise "Compressed Metadata Support Not Enabled" rfl).congr ?_ ?_
      · simp [unzipped]
      · simp [unzipped]
    · have htake : (takeAtMost (inflateLen hdr)).run bs =
          .ok (if inflateLen hdr < 0 then (bs, []) else
            (bs.take (inflateLen hdr).toNat, bs.drop (inflateLen hdr).toNat)) := by
        show (if inflateLen hdr < 0 then _ else _ : Except Fault _) = _
        split <;> rfl
      have hfst : (if inflateLen hdr < 0 then (bs, []) else
          (bs.take (inflateLen hdr).toNat, bs.drop (inflateLen hdr).toNat)).1 =
          if inflateLen hdr < 0 then bs else bs.take (inflateLen hdr).toNat := by
        split <;> rfl
      simp only [StateT.run_bind, ← inflateLen.eq_def, htake, Lib.ok_bind, hdim, hfst]
      rcases hunzip : unzipped (some z) hdr encdim nsel bs with _ | zbuf
      · have hnone : z.inflate (if inflateLen hdr < 0 then bs else bs.take (inflateLen hdr).toNat)
            (unzippedSize hdr.flag encdim nsel) = none := hunzip
        simp only [hnone]
        exact (EndsAs.of_raise "inflate fail" rfl).congr (by simp) (by simp)
      · have hzbuf : z.inflate (if inflateLen hdr < 0 then bs else bs.take (inflateLen hdr).toNat)
            (unzippedSize hdr.flag encdim nsel) = some zbuf := hunzip
        simp only [hzbuf]
        rw [← hsome zbuf (fun b => 1 ≤ nsel ∧ SelsFit hdr.flag encdim nsel.toNat b),
          ← hall zbuf (fun b => nsel < 0 ∧ StepsFit hdr.flag encdim b), pureExcept_run]
        have hfst := (hsels zbuf).map (f := Prod.fst) (P := fun out => out.1.hdr = hdr ∧ out.1.sels ≠ [])
          fun _ h => h
        exact hfst.map fun _ h => h
  · rw [if_neg hdef, if_neg hdef, ← hsome bs (fun b => 1 ≤ nsel ∧ SelsFit hdr.flag encdim nsel.toNat b),
      ← hall bs (fun b => nsel < 0 ∧ StepsFit hdr.flag encdim b)]
    exact hsels bs

/-- The count of the blocks, and the blocks. -/
theorem readBlocks_ends {recnum : Option HSize} {encdim : Int} (hdim : encdimRead dset recnum = encdim)
    (bs : List UInt8) :
    EndsAs ((readBlocks z dset hdr recnum).run bs) (BlocksGood z hdr encdim bs) (BlocksRefused z hdr encdim bs)
      fun p => p.1.1.hdr = hdr ∧ p.1.1.sels ≠ [] := by
  unfold readBlocks BlocksGood BlocksRefused selBytes countSize countAt packedAt
  by_cases hmul : hasFlag hdr.flag MetaFlag.mulSel = true
  · simp only [hmul, if_true, Bool.true_and]
    rw [StateT.run_bind]
    refine (readInt_ends bs).bind _ _ ?_
    rintro _ rfl
    exact unpackSels_ends hdim (frontInt bs).toInt (bs.drop sizeofInt)
  · simp only [Bool.eq_false_iff.mpr hmul, Bool.false_eq_true, if_false, Bool.false_and, List.drop_zero]
    refine (readSels_ends hdim 1 bs).congr ?_ ?_
    · simp
    · simp

/-- **`H5VL_logi_metaentry_decode` on any bytes.** -/
theorem metaentryDecode_ends (hhdr : readHdr.run ent = .ok (hdr, rest)) :
    EndsAs (metaentryDecode z dset ent) (EntryGood z dset hdr ent) (EntryRefused z dset hdr ent)
      fun e => e.hdr = hdr ∧ e.sels ≠ [] := by
  obtain rfl := readHdr_rest hhdr
  have hsteps : EndsAs ((metaentryDecodeSteps z dset).run ent) (EntryGood z dset hdr ent)
      (EntryRefused z dset hdr ent) fun p => p.1.1.hdr = hdr ∧ p.1.1.sels ≠ [] := by
    unfold metaentryDecodeSteps EntryGood EntryRefused
    rw [StateT.run_bind, hhdr, Lib.ok_bind, StateT.run_bind, checkMetaSize]
    by_cases hpos : hdr.metaSize.toInt ≤ 0
    · rw [if_pos hpos]
      exact (EndsAs.of_raise "Invalid metadata entry" rfl).congr (iff_of_false id fun h => absurd h.1 (not_lt.mpr hpos))
        (iff_of_true trivial (Or.inl hpos))
    · rw [if_neg hpos]
      show EndsAs (StateT.run (readRecnum hdr.flag >>= fun recnum => readBlocks z dset hdr recnum) _) _ _ _
      rw [StateT.run_bind]
      refine ((readRecnum_ends hdr.flag (ent.drop sizeofHdr)).bind
        (BlocksGood z hdr (encdimAt dset hdr.flag) ((ent.drop sizeofHdr).drop (recSize hdr.flag)))
        (BlocksRefused z hdr (encdimAt dset hdr.flag) ((ent.drop sizeofHdr).drop (recSize hdr.flag))) ?_).congr
        (and_iff_right (not_le.mp hpos)).symm (or_iff_right hpos).symm
      rintro ⟨recnum, rest⟩ ⟨hrec, hrest⟩
      obtain rfl : rest = _ := hrest
      have hdim : encdimRead dset recnum = encdimAt dset hdr.flag := by
        have hrec : recnum.isSome = hasFlag hdr.flag MetaFlag.record := hrec
        rw [encdimRead, encdimAt, hrec]
      exact readBlocks_ends hdim _
  exact hsteps.map fun _ h => h

end LogVol
