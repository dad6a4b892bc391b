/-
# LogVol.PartLimit — how much metadata one part takes.

`partCall` is a call of `H5VL_log_filei_metaupdate_part` with all it leaves behind: the cursor, the buffer it
loaded, and the index or the error. A part is a run of whole sections (`partCall_eq`). `RespectsLimit` says
that it is no larger than the buffer, and that a section too large for the buffer is refused before the
cursor moves; `partCall_limit_iff` for which sections this is so.
-/
import LogVol.MetaUpdate

namespace LogVol

/-! ## §1 — the call. -/

/-- What a part is read from: the number of sections, where the part starts, the section behind it, and its
size. -/
structure PartPlan where
  nsec : MpiOffset
  start : HSize
  next : Nat
  count : HSize

/-- Determine the sections that fit. -/
def planPart (limit : HSize) (ds : List UInt8) (sec : I32) : Except Fault PartPlan := do
  let nsec ← readMapWord ds 0
  let offs ← readEnds ds nsec
  if nsec.toInt ≤ sec.toInt then .error (.raised "Invalid section")
  else
    let start := if sec = 0 then BitVec.ofNat 64 sizeofOffset * (nsec + 1) else offs.getD (sec.toNat - 1) 0
    let i := fitSections offs start limit sec.toNat
    if i ≤ sec.toNat then .error (.raised "OOM") else .ok ⟨nsec, start, i, offs.getD (i - 1) 0 - start⟩

/-- What a call leaves behind. `md` and `sec` are references, so they are there after an error as well. -/
structure PartCall (E : Type) where
  cursor : I32 × I32
  loaded : List UInt8
  result : Except Fault (List (List E))

/-- **`H5VL_log_filei_metaupdate_part`**, when no write request is pending: the cursor is advanced before the
sections are read and parsed. -/
def partCall {E : Type} (I : LogIdx E) (limit : HSize) (mdsets : List (List UInt8)) (md sec : I32)
    (idx : List (List E)) : PartCall E :=
  match mdsets[md.toNat]? with
  | none => ⟨(md, sec), [], .error (.raised "H5VLdataset_open")⟩
  | some ds =>
      match planPart limit ds sec with
      | .error err => ⟨(md, sec), [], .error err⟩
      | .ok p =>
          let cursor := advance mdsets.length p.nsec md p.next
          match readSlab ds p.start p.count with
          | .error err => ⟨cursor, [], .error err⟩
          | .ok buf => ⟨cursor, buf, I.parseBlock buf (clearIdx idx)⟩

/-- At least section `sec` is always taken, so "OOM" is never raised. -/
theorem lt_fitSections (offs : List MpiOffset) (start limit : HSize) (sec : Nat) :
    sec < fitSections offs start limit sec :=
  Nat.lt_of_lt_of_le (Nat.lt_succ_self sec) (Nat.le_add_right _ _)

/-- `metaupdatePart` is what a call that does not fail returns. -/
theorem metaupdatePart_eq_partCall {E : Type} (I : LogIdx E) (limit : HSize) (mdsets : List (List UInt8))
    (md sec : I32) (idx : List (List E)) :
    metaupdatePart I limit mdsets md sec idx =
      (partCall I limit mdsets md sec idx).result.map fun idx' =>
        (idx', (partCall I limit mdsets md sec idx).cursor, (partCall I limit mdsets md sec idx).loaded) := by
  unfold metaupdatePart partCall planPart
  rcases mdsets[md.toNat]? with _ | ds
  · rfl
  · dsimp only
    rcases readMapWord ds 0 with err | nsec
    · rfl
    · simp only [Lib.ok_bind]
      rcases readEnds ds nsec with err | offs
      · rfl
      · simp only [Lib.ok_bind]
        by_cases hsec : nsec.toInt ≤ sec.toInt
        · simp only [if_pos hsec]
          rfl
        · simp only [if_neg hsec]
          generalize (if sec = 0 then BitVec.ofNat 64 sizeofOffset * (nsec + 1)
            else offs.getD (sec.toNat - 1) 0) = start
          simp only [if_neg (Nat.not_le.mpr (lt_fitSections offs start limit sec.toNat))]
          generalize readSlab ds start _ = slab
          rcases slab with err | buf
          · rfl
          · simp only [Lib.ok_bind]
            rcases I.parseBlock buf (clearIdx idx) with err | idx'
            · rfl
            · rfl

/-! ## §2 — a part is a run of whole sections. -/

theorem ofNat_sub_ofNat {i j : Nat} (h : i ≤ j) :
    (BitVec.ofNat 64 j - BitVec.ofNat 64 i : HSize) = BitVec.ofNat 64 (j - i) := by
  rw [sub_eq_iff_eq_add, ← BitVec.ofNat_add, Nat.sub_add_cancel h]

theorem fitSections_le {offs : List MpiOffset} {start limit : HSize} {sec : Nat} (h : sec < offs.length) :
    fitSections offs start limit sec ≤ offs.length := by
  have hle : fitSections offs start limit sec ≤ sec + 1 + (offs.drop (sec + 1)).length :=
    Nat.add_le_add_left (List.takeWhile_sublist _).length_le _
  rw [List.length_drop] at hle
  omega

/-- Every section behind the first one ends within the limit. -/
theorem fitSections_fits {offs : List MpiOffset} {start limit : HSize} {sec i : Nat} (hsec : sec < i)
    (hi : i < fitSections offs start limit sec) : (offs.getD i 0 - start).toNat ≤ limit.toNat := by
  have hlt : i - (sec + 1) < ((offs.drop (sec + 1)).takeWhile fun off => !limit.ult (off - start)).length := by
    rw [fitSections] at hi
    omega
  have htake := List.mem_takeWhile_imp (List.getElem_mem hlt)
  have hdrop : i - (sec + 1) < (offs.drop (sec + 1)).length :=
    hlt.trans_le (List.takeWhile_sublist _).length_le
  have hget : ((offs.drop (sec + 1)).takeWhile fun off => !limit.ult (off - start))[i - (sec + 1)] =
      offs.getD i 0 := by
    rw [List.length_drop] at hdrop
    rw [(List.takeWhile_prefix _).getElem hlt, List.getElem_drop, List.getD_eq_getElem _ _ (by omega)]
    congr 1
    omega
  rw [hget] at htake
  simpa [BitVec.ult] using htake

namespace SectionDset

variable (S : SectionDset)

theorem readEnds_eq : readEnds S.content (BitVec.ofNat 64 S.nsec) =
    .ok ((List.range S.nsec).map fun k => BitVec.ofNat 64 (S.secStart (k + 1))) := by
  have hlt : S.nsec < 2 ^ 31 := S.nsec_lt
  have hnsec : (BitVec.ofNat 64 S.nsec).toNat = S.nsec := by
    rw [BitVec.toNat_ofNat, Nat.mod_eq_of_lt (by omega)]
  rw [readEnds, hnsec, Lib.mapM_eq_ok_iff, List.forall₂_map_right_iff, List.forall₂_same]
  exact fun k hk => S.readMapWord_succ (List.mem_range.mp hk)

theorem getD_ends {k : Nat} (hk : k < S.nsec) :
    ((List.range S.nsec).map fun k => (BitVec.ofNat 64 (S.secStart (k + 1)) : MpiOffset)).getD k 0 =
      BitVec.ofNat 64 (S.secStart (k + 1)) := by
  rw [List.getD_eq_getElem _ _ (by rw [List.length_map, List.length_range]; exact hk), List.getElem_map,
    List.getElem_range]

theorem word_secStart_zero :
    (BitVec.ofNat 64 sizeofOffset * (BitVec.ofNat 64 S.nsec + 1) : HSize) = BitVec.ofNat 64 (S.secStart 0) := by
  rw [secStart_zero, BitVec.ofNat_mul, BitVec.ofNat_add]
  rfl

/-- The bytes of a run of sections. -/
theorem readSlab_sections {i j : Nat} (hij : i ≤ j) (hj : j ≤ S.nsec) :
    readSlab S.content (BitVec.ofNat 64 (S.secStart i))
        (BitVec.ofNat 64 (S.secStart j) - BitVec.ofNat 64 (S.secStart i)) =
      .ok ((S.bufs.take j).drop i).flatten := by
  have hle := S.secStart_mono hij
  have hend := S.secStart_mono hj
  rw [← content_length] at hend
  rw [ofNat_sub_ofNat hle, readSlab_ofNat (by exact S.size_lt) (by omega), S.slice_sections hij]

/-- What the part that begins at section `k` is read from. -/
theorem planPart_eq {k : Nat} (hk : k < S.nsec) (limit : HSize) :
    ∃ j, k < j ∧ j ≤ S.nsec ∧ (j = k + 1 ∨ S.secStart j - S.secStart k ≤ limit.toNat) ∧
      planPart limit S.content (BitVec.ofNat 32 k) = .ok ⟨BitVec.ofNat 64 S.nsec, BitVec.ofNat 64 (S.secStart k), j,
        BitVec.ofNat 64 (S.secStart j) - BitVec.ofNat 64 (S.secStart k)⟩ := by
  have hlt : S.nsec < 2 ^ 31 := S.nsec_lt
  have hnsec : (BitVec.ofNat 64 S.nsec).toInt = S.nsec := by
    rw [BitVec.toInt_eq_toNat_of_lt, BitVec.toNat_ofNat, Nat.mod_eq_of_lt (by omega)]
    rw [BitVec.toNat_ofNat, Nat.mod_eq_of_lt (by omega)]
    omega
  have hsec : (BitVec.ofNat 32 k).toNat = k := by
    rw [BitVec.toNat_ofNat, Nat.mod_eq_of_lt (by omega)]
  have hsecInt : (BitVec.ofNat 32 k).toInt = k := toInt_ofNat_of_lt (by omega)
  generalize hoffs : ((List.range S.nsec).map fun k => (BitVec.ofNat 64 (S.secStart (k + 1)) : MpiOffset)) = offs
  have hlen : offs.length = S.nsec := by
    rw [← hoffs, List.length_map, List.length_range]
  have hget : ∀ i < S.nsec, offs.getD i 0 = BitVec.ofNat 64 (S.secStart (i + 1)) := by
    intro i hi
    rw [← hoffs]
    exact S.getD_ends hi
  -- where the part starts
  have hstart : (if BitVec.ofNat 32 k = 0 then BitVec.ofNat 64 sizeofOffset * (BitVec.ofNat 64 S.nsec + 1)
      else offs.getD (k - 1) 0) = BitVec.ofNat 64 (S.secStart k) := by
    rcases k with _ | k
    · have hzero : (BitVec.ofNat 32 0) = (0 : I32) := rfl
      rw [if_pos hzero, word_secStart_zero]
    · rw [if_neg, Nat.add_sub_cancel, hget k (by omega)]
      intro hzero
      have := congrArg BitVec.toNat hzero
      rw [hsec] at this
      cases this
  have hlo := lt_fitSections offs (BitVec.ofNat 64 (S.secStart k)) limit k
  have hhi := @fitSections_le offs (BitVec.ofNat 64 (S.secStart k)) limit k (by omega)
  have hfits := @fitSections_fits offs (BitVec.ofNat 64 (S.secStart k)) limit k
  generalize hj : fitSections offs (BitVec.ofNat 64 (S.secStart k)) limit k = j at hlo hhi hfits
  rw [hlen] at hhi
  obtain ⟨l, rfl⟩ : ∃ l, j = l + 1 := Nat.exists_eq_add_one.mpr (by omega)
  refine ⟨l + 1, hlo, hhi, ?_, ?_⟩
  · rcases Nat.lt_or_ge k l with hkl | hkl
    · right
      have hle := hfits hkl (Nat.lt_succ_self l)
      have hmono := S.secStart_mono hlo.le
      have hword := S.secStart_lt hhi
      rw [hget l (by omega), ofNat_sub_ofNat hmono, BitVec.toNat_ofNat, Nat.mod_eq_of_lt (by omega)] at hle
      exact hle
    · left
      omega
  · unfold planPart
    simp only [S.readMapWord_zero, S.readEnds_eq, hoffs, Lib.ok_bind, hnsec, hsecInt, hsec, hstart, hj,
      Nat.add_sub_cancel, hget l (show l < S.nsec by omega)]
    rw [if_neg (by omega), if_neg (by omega)]

/-- **A part is a run of whole sections**, at least one, and the cursor moves behind it. -/
theorem partCall_eq {E : Type} (I : LogIdx E) {mdsets : List (List UInt8)} {md : I32}
    (hget : mdsets[md.toNat]? = some S.content) {k : Nat} (hk : k < S.nsec) (idx : List (List E))
    (limit : HSize) :
    ∃ j, k < j ∧ j ≤ S.nsec ∧ (j = k + 1 ∨ S.secStart j - S.secStart k ≤ limit.toNat) ∧
      partCall I limit mdsets md (BitVec.ofNat 32 k) idx =
        ⟨advance mdsets.length (BitVec.ofNat 64 S.nsec) md j, ((S.bufs.take j).drop k).flatten,
          I.parseBlock ((S.bufs.take j).drop k).flatten (clearIdx idx)⟩ := by
  obtain ⟨j, hlo, hhi, hsize, hplan⟩ := S.planPart_eq hk limit
  refine ⟨j, hlo, hhi, hsize, ?_⟩
  unfold partCall
  rw [hget]
  simp only [hplan, S.readSlab_sections hlo.le hhi]

/-- All sections are parsed at once, behind the map. -/
theorem metaupdateDset_eq {E : Type} (I : LogIdx E) (idx : List (List E)) :
    metaupdateDset I S.content idx = I.parseBlock S.bufs.flatten idx := by
  have hslab := S.readSlab_sections (Nat.zero_le S.nsec) le_rfl
  rw [← content_length, List.drop_zero, nsec, List.take_length] at hslab
  unfold metaupdateDset
  rw [S.readMapWord_zero, Lib.ok_bind]
  simp only [word_secStart_zero, hslab, Lib.ok_bind]

/-! ## §3 — the limit. -/

/-- **`RespectsLimit`** — a call loads whole sections which fit the buffer, or the section at the cursor does
not fit, and it raises before it has loaded or advanced anything. -/
def RespectsLimit {E : Type} (limit : HSize) (md : I32) (k : Nat) (c : PartCall E) : Prop :=
  (∃ j, k < j ∧ j ≤ S.nsec ∧ c.loaded = ((S.bufs.take j).drop k).flatten ∧ c.loaded.length ≤ limit.toNat) ∨
    limit.toNat < (S.bufs.getD k []).length ∧ c.loaded = [] ∧ c.cursor = (md, BitVec.ofNat 32 k) ∧
      ∃ msg, c.result = .error (.raised msg)

/-- The section at the cursor is among what is loaded. -/
theorem section_le_run {j k : Nat} (hlo : k < j) (hhi : j ≤ S.nsec) :
    (S.bufs.getD k []).length ≤ ((S.bufs.take j).drop k).flatten.length := by
  have hrun := S.secStart_add hlo.le
  have hsucc := S.secStart_succ (hlo.trans_le hhi)
  have hmono := S.secStart_mono (show k + 1 ≤ j from hlo)
  omega

/-- **`partCall_limit_iff`** — with any number of sections, of any sizes, and at any of them: the limit is
respected exactly when the section at the cursor fits. -/
theorem partCall_limit_iff {E : Type} (I : LogIdx E) {mdsets : List (List UInt8)} {md : I32}
    (hget : mdsets[md.toNat]? = some S.content) {k : Nat} (hk : k < S.nsec) (idx : List (List E))
    (limit : HSize) :
    S.RespectsLimit limit md k (partCall I limit mdsets md (BitVec.ofNat 32 k) idx) ↔
      (S.bufs.getD k []).length ≤ limit.toNat := by
  obtain ⟨j, hlo, hhi, hsize, hcall⟩ := S.partCall_eq I hget hk idx limit
  rw [hcall]
  constructor
  · rintro (⟨i, hki, hi, hload, hfits⟩ | ⟨hlarge, hnone, -, -⟩)
    · dsimp only at hload hfits
      rw [hload] at hfits
      exact (S.section_le_run hki hi).trans hfits
    · -- a section that does not fit is loaded all the same
      have hle := S.section_le_run hlo hhi
      dsimp only at hnone
      rw [hnone, List.length_nil] at hle
      omega
  · intro hfits
    refine Or.inl ⟨j, hlo, hhi, rfl, ?_⟩
    show ((S.bufs.take j).drop k).flatten.length ≤ limit.toNat
    have hrun := S.secStart_add hlo.le
    rcases hsize with rfl | hsize
    · rw [S.getElem_sections hk]
      exact hfits
    · omega

end SectionDset

theorem threeSections_size : (metadataDataset ([[1, 2, 3], [4], [5, 6]].map bufMeta)).length < 2 ^ 63 := by
  decide

theorem threeSections_nsec : [[1, 2, 3], [4], [5, 6]].length < 2 ^ 31 := by
  decide

/-- Three sections, the first of which is the largest. -/
def threeSections : SectionDset := ⟨[[1, 2, 3], [4], [5, 6]], threeSections_nsec, threeSections_size⟩

/-- With room for four bytes, the first two sections are loaded at once. -/
theorem partCall_limit_four :
    threeSections.RespectsLimit 4 0 0
      (partCall (listIdx none false []) 4 [threeSections.content] 0 (BitVec.ofNat 32 0) []) :=
  (threeSections.partCall_limit_iff (listIdx none false []) rfl (by decide) [] 4).mpr (by decide)

/-- With room for one byte, the first section is loaded all the same. -/
theorem partCall_overLimit :
    (partCall (listIdx none false []) 1 [threeSections.content] 0 (BitVec.ofNat 32 0) []).loaded = [1, 2, 3] ∧
      ¬ threeSections.RespectsLimit 1 0 0
        (partCall (listIdx none false []) 1 [threeSections.content] 0 (BitVec.ofNat 32 0) []) := by
  have hloaded : (partCall (listIdx none false []) 1 [threeSections.content] 0 (BitVec.ofNat 32 0) []).loaded =
      [1, 2, 3] := by
    rfl
  refine ⟨hloaded, ?_⟩
  rintro (⟨j, -, -, -, hfits⟩ | ⟨-, hnone, -⟩)
  · rw [hloaded] at hfits
    exact absurd hfits (by decide)
  · rw [hloaded] at hnone
    cases hnone

end LogVol
