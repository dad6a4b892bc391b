/-
# LogVol.SetExtent — a new extent of a dataset.

`H5Dset_extent` checks the new sizes one by one and stores each as it goes, updates the attribute, recalculates
the steps and queues the merged request. `RankFile.setExtent` is the call with all it leaves behind, and
`ExtentAtomic` says that it does all of this or nothing. `extentAtomic_iff` is for which sizes, and for which
results of the attribute update.
-/
import LogVol.File

namespace LogVol

/-! ## §1 — the description. -/

/-- The fields of a description that `H5Dset_extent` changes. -/
def DsetInfo.withDims (d : DsetInfo) (dims : List HSize) (h : dims.length = d.dims.length) : DsetInfo :=
  { d with
    dims := dims
    rank_le := h ▸ d.rank_le
    mdims_length := d.mdims_length.trans h.symm
    dsteps_length := d.dsteps_length.trans h.symm }

/-- Recalculate dsteps. -/
def DsetInfo.withSteps (d : DsetInfo) : DsetInfo :=
  { d with
    dsteps := calcDsteps d.dims
    dsteps_length := calcDsteps_length d.dims }

/-- How many of the new sizes are within the maximal ones, up to the first that is not. -/
def DsetInfo.sizesFit (d : DsetInfo) (sizes : ℕ → HSize) : ℕ :=
  ((List.range d.ndim).takeWhile fun i =>
    decide (d.mdims.getD i 0 = unlimited) || decide (sizes i ≤ d.mdims.getD i 0)).length

/-- Adjust dim, up to a size that exceeds its maximum. -/
def DsetInfo.adjust (d : DsetInfo) (sizes : ℕ → HSize) : DsetInfo :=
  d.withDims (d.dims.mapIdx fun i c => if i < d.sizesFit sizes then sizes i else c) List.length_mapIdx

/-- **`H5VL_log_dataset_specific`** with `H5VL_DATASET_SET_EXTENT`, on the description: the sizes before one
that is too large stay changed. -/
def DsetInfo.setExtent (encode : Bool) (sizes : ℕ → HSize) (d : DsetInfo) : DsetInfo :=
  if d.sizesFit sizes < d.ndim ∨ encode = false then d.adjust sizes else (d.adjust sizes).withSteps

/-- Flush merged request as dstep may be changed. -/
def RankFile.flushMergedOf (f : RankFile) (did : ℕ) : RankFile :=
  match (f.mreqs[did]?).join.bind fun m => pendingMerged (some m) with
  | none => f
  | some m => { f with
      wreqs := f.wreqs ++ [m.toWReq]
      mdsize := f.mdsize + m.hdr.metaSize.signExtend 64
      mreqs := f.mreqs.set did none }

/-! ## §2 — the call. -/

/-- `H5VL_logi_put_att`: which of its three calls fails, if any. -/
inductive AttResult
  | stored
  | openFails
  | writeFails
  | closeFails
  deriving DecidableEq, Repr

/-- The attribute afterwards: what was written stays when it cannot be closed. -/
def AttResult.put : AttResult → List HSize → List HSize → List HSize
  | .stored, _, buf => buf
  | .closeFails, _, buf => buf
  | .openFails, old, _ => old
  | .writeFails, old, _ => old

def AttResult.result : AttResult → Except Fault Unit
  | .stored => .ok ()
  | .openFails => .error (.raised "H5VLattr_open")
  | .writeFails => .error (.raised "H5VLattr_write")
  | .closeFails => .error (.raised "H5VLattr_close")

/-- What a call leaves behind: the file, the attribute with the dimensions, and its result. -/
structure ExtentCall where
  file : RankFile
  attr : List HSize
  result : Except Fault Unit

/-- **`H5VL_log_dataset_specific`** with `H5VL_DATASET_SET_EXTENT`. -/
def RankFile.setExtent (encode : Bool) (att : AttResult) (id : ℕ) (sizes : ℕ → HSize) (f : RankFile)
    (attr : List HSize) : ExtentCall :=
  match f.dsetsInfo[id]? with
  | some (some d) =>
      let adjusted := { f with dsetsInfo := f.dsetsInfo.set id (some (d.adjust sizes)) }
      if d.sizesFit sizes < d.ndim then ⟨adjusted, attr, .error (.raised "size cannot exceed max size")⟩
      else
        let attr := att.put attr (d.adjust sizes).dims
        match att.result with
        | .error err => ⟨adjusted, attr, .error err⟩
        | .ok () =>
            if encode then
              ⟨{ f with dsetsInfo := f.dsetsInfo.set id (some (d.adjust sizes).withSteps) }.flushMergedOf id, attr,
                .ok ()⟩
            else ⟨adjusted, attr, .ok ()⟩
  | _ => ⟨f, attr, .error .outside⟩

theorem flushMergedOf_table (f : RankFile) (did : ℕ) : (f.flushMergedOf did).dsetsInfo = f.dsetsInfo := by
  unfold RankFile.flushMergedOf
  split <;> rfl

/-- The description afterwards, when the attribute is stored. -/
theorem setExtent_dsetsInfo (encode : Bool) (id : ℕ) (sizes : ℕ → HSize) (f : RankFile) (attr : List HSize) :
    (f.setExtent encode .stored id sizes attr).file.dsetsInfo =
      f.dsetsInfo.modify id fun d => d.map (DsetInfo.setExtent encode sizes) := by
  unfold RankFile.setExtent
  split
  · rename_i d hget
    have hmodify : f.dsetsInfo.modify id (fun d => d.map (DsetInfo.setExtent encode sizes)) =
        f.dsetsInfo.set id (some (d.setExtent encode sizes)) := by
      rw [List.modify_eq_set_getElem?, hget]
      rfl
    rw [hmodify, DsetInfo.setExtent]
    by_cases hfit : d.sizesFit sizes < d.ndim
    · simp [hfit]
    · cases encode with
      | true => simp [hfit, AttResult.result, flushMergedOf_table]
      | false => simp [hfit, AttResult.result]
  · rename_i hnone
    apply List.ext_getElem?
    intro i
    rw [List.getElem?_modify]
    split
    · rename_i hid
      subst hid
      rcases hget : f.dsetsInfo[id]? with _ | _ | d
      · simp
      · simp
      · exact absurd hget (hnone d)
    · simp

/-! ## §3 — all or nothing. -/

/-- The request holds selections that are encoded with the steps of the dataset. -/
def MergedWReq.StepsEncoded (m : MergedWReq) : Prop := hasFlag m.hdr.flag MetaFlag.selEncode = true ∧ m.nsel ≠ 0

/-- The new dimensions. -/
def newDims (d : DsetInfo) (sizes : ℕ → HSize) : List HSize := (List.range d.ndim).map sizes

/-- **`ExtentAtomic`** — a call that fails leaves everything as it was. After one that does not, the dimensions,
the attribute and the steps are those of the new sizes, and no merged request has the old steps. -/
structure ExtentAtomic (id : ℕ) (sizes : ℕ → HSize) (d : DsetInfo) (f : RankFile) (attr : List HSize)
    (c : ExtentCall) : Prop where
  failed : ∀ err, c.result = .error err → c.file = f ∧ c.attr = attr
  done : c.result = .ok () → c.attr = newDims d sizes ∧
    ∃ d', c.file.dsetsInfo[id]? = some (some d') ∧ d'.dims = newDims d sizes ∧
      d'.dsteps = calcDsteps (newDims d sizes) ∧ ∀ m, c.file.mreqs[id]? = some (some m) → ¬ m.StepsEncoded

/-- The condition: what is stored before a failure is there already. The steps are recalculated only when they
are used, and the merged request leaves the queue only with a positive number of selections. -/
def ExtentSafe (encode : Bool) (att : AttResult) (id : ℕ) (sizes : ℕ → HSize) (d : DsetInfo) (f : RankFile)
    (attr : List HSize) : Prop :=
  if d.sizesFit sizes < d.ndim then ∀ i < d.sizesFit sizes, d.dims.getD i 0 = sizes i
  else match att with
    | .stored => (encode = true ∨ d.dsteps = calcDsteps (newDims d sizes)) ∧
        ∀ m, f.mreqs[id]? = some (some m) → m.StepsEncoded → encode = true ∧ 0 < m.nsel.toInt
    | .closeFails => d.dims = newDims d sizes ∧ attr = newDims d sizes
    | _ => d.dims = newDims d sizes

variable {id : ℕ} {sizes : ℕ → HSize} {d : DsetInfo} {f : RankFile} {attr : List HSize} {encode : Bool}
  {att : AttResult}

theorem withDims_eq_self (d : DsetInfo) {dims : List HSize} (h : dims.length = d.dims.length) :
    d.withDims dims h = d ↔ dims = d.dims := by
  constructor
  · intro heq
    exact congrArg DsetInfo.dims heq
  · rintro rfl
    rfl

theorem sizesFit_le (d : DsetInfo) (sizes : ℕ → HSize) : d.sizesFit sizes ≤ d.ndim := by
  have hle := (List.takeWhile_sublist (l := List.range d.ndim) fun i =>
    decide (d.mdims.getD i 0 = unlimited) || decide (sizes i ≤ d.mdims.getD i 0)).length_le
  rwa [List.length_range] at hle

/-- The dimensions stay what they are when the sizes that are stored are there already. -/
theorem adjust_eq_self (d : DsetInfo) (sizes : ℕ → HSize) :
    d.adjust sizes = d ↔ ∀ i < d.sizesFit sizes, d.dims.getD i 0 = sizes i := by
  have hle := sizesFit_le d sizes
  rw [DsetInfo.adjust, withDims_eq_self]
  constructor
  · intro heq i hi
    have hlt : i < d.dims.length := hi.trans_le hle
    have hget : (d.dims.mapIdx fun i c => if i < d.sizesFit sizes then sizes i else c).getD i 0 = d.dims.getD i 0 := by
      rw [heq]
    rw [List.getD_eq_getElem _ _ (by rwa [List.length_mapIdx]), List.getElem_mapIdx, if_pos hi] at hget
    exact hget.symm
  · intro h
    apply List.ext_getElem List.length_mapIdx
    intro i hi hi'
    rw [List.getElem_mapIdx]
    split
    · rename_i hfit
      rw [← h i hfit, List.getD_eq_getElem _ _ hi']
    · rfl

/-- All sizes fit. -/
theorem adjust_dims (hfit : ¬ d.sizesFit sizes < d.ndim) : (d.adjust sizes).dims = newDims d sizes := by
  have hle := sizesFit_le d sizes
  show d.dims.mapIdx _ = _
  apply List.ext_getElem
  · rw [List.length_mapIdx, newDims, List.length_map, List.length_range]
    rfl
  · intro i hi hi'
    have hlt : i < d.ndim := by
      rw [List.length_mapIdx] at hi
      exact hi
    rw [List.getElem_mapIdx, if_pos (by omega)]
    simp [newDims]

theorem adjust_eq_self_of_fit (hfit : ¬ d.sizesFit sizes < d.ndim) :
    d.adjust sizes = d ↔ d.dims = newDims d sizes := by
  constructor
  · intro h
    rw [← adjust_dims hfit, h]
  · intro h
    rw [DsetInfo.adjust, withDims_eq_self]
    exact (adjust_dims hfit).trans h.symm

/-- Storing a description leaves the file as it is exactly when it is the one that is there. -/
theorem store_eq_self (hget : f.dsetsInfo[id]? = some (some d)) (d' : DsetInfo) :
    { f with dsetsInfo := f.dsetsInfo.set id (some d') } = f ↔ d' = d := by
  obtain ⟨hlt, hd⟩ := List.getElem?_eq_some_iff.mp hget
  constructor
  · intro heq
    have hset := congrArg (fun g : RankFile => g.dsetsInfo[id]?) heq
    dsimp only at hset
    rw [List.getElem?_set_self hlt, hget] at hset
    exact Option.some.inj (Option.some.inj hset)
  · rintro rfl
    have hset : f.dsetsInfo.set id (some d') = f.dsetsInfo := by
      rw [← hd]
      exact List.set_getElem_self hlt
    rw [hset]

/-- The merged request that is left has no selections, or a count that has gone negative. -/
theorem flushMergedOf_getElem? (f : RankFile) (id : ℕ) {m : MergedWReq} :
    (f.flushMergedOf id).mreqs[id]? = some (some m) ↔ f.mreqs[id]? = some (some m) ∧ ¬ 0 < m.nsel.toInt := by
  unfold RankFile.flushMergedOf
  rcases hget : f.mreqs[id]? with _ | _ | m'
  · simp [hget]
  · simp [hget]
  · by_cases hpos : 0 < m'.nsel.toInt
    · have hlt : id < f.mreqs.length := (List.getElem?_eq_some_iff.mp hget).1
      simp only [Option.join_some, Option.bind_some, pendingMerged, Option.filter_some, hpos, decide_true, if_true]
      rw [List.getElem?_set_self hlt]
      constructor
      · intro h
        cases Option.some.inj h
      · rintro ⟨h, hnot⟩
        obtain rfl := Option.some.inj (Option.some.inj h)
        exact absurd hpos hnot
    · simp only [Option.join_some, Option.bind_some, pendingMerged, Option.filter_some, hpos, decide_false,
        Bool.false_eq_true, if_false, hget]
      constructor
      · intro h
        obtain rfl := Option.some.inj (Option.some.inj h)
        exact ⟨rfl, hpos⟩
      · exact And.left

theorem extentAtomic_of_error {c : ExtentCall} {err : Fault} (h : c.result = .error err) :
    ExtentAtomic id sizes d f attr c ↔ c.file = f ∧ c.attr = attr := by
  constructor
  · intro hatomic
    exact hatomic.failed err h
  · intro hsame
    refine ⟨fun _ _ => hsame, ?_⟩
    intro hok
    rw [h] at hok
    cases hok

theorem extentAtomic_of_ok {c : ExtentCall} {d' : DsetInfo} (h : c.result = .ok ())
    (hget : c.file.dsetsInfo[id]? = some (some d')) (hattr : c.attr = newDims d sizes)
    (hdims : d'.dims = newDims d sizes) :
    ExtentAtomic id sizes d f attr c ↔ d'.dsteps = calcDsteps (newDims d sizes) ∧
      ∀ m, c.file.mreqs[id]? = some (some m) → ¬ m.StepsEncoded := by
  constructor
  · intro hatomic
    obtain ⟨-, d'', hget', -, hsteps, hqueue⟩ := hatomic.done h
    rw [hget] at hget'
    obtain rfl := Option.some.inj (Option.some.inj hget')
    exact ⟨hsteps, hqueue⟩
  · rintro ⟨hsteps, hqueue⟩
    refine ⟨?_, fun _ => ⟨hattr, d', hget, hdims, hsteps, hqueue⟩⟩
    intro err herr
    rw [h] at herr
    cases herr

/-- **`extentAtomic_iff`** — for every dataset, vector of sizes and result of the attribute update. -/
theorem extentAtomic_iff (hget : f.dsetsInfo[id]? = some (some d)) :
    ExtentAtomic id sizes d f attr (f.setExtent encode att id sizes attr) ↔
      ExtentSafe encode att id sizes d f attr := by
  have hlt : id < f.dsetsInfo.length := (List.getElem?_eq_some_iff.mp hget).1
  unfold RankFile.setExtent ExtentSafe
  rw [hget]
  dsimp only
  by_cases hfit : d.sizesFit sizes < d.ndim
  · -- A size is too large: those before it have been stored.
    rw [if_pos hfit, if_pos hfit, extentAtomic_of_error rfl]
    dsimp only
    rw [store_eq_self hget, adjust_eq_self]
    exact and_iff_left rfl
  · have hdims := adjust_dims hfit
    rw [if_neg hfit, if_neg hfit]
    cases att with
    | openFails =>
      dsimp only [AttResult.result, AttResult.put]
      rw [extentAtomic_of_error rfl, store_eq_self hget, adjust_eq_self_of_fit hfit]
      exact and_iff_left rfl
    | writeFails =>
      dsimp only [AttResult.result, AttResult.put]
      rw [extentAtomic_of_error rfl, store_eq_self hget, adjust_eq_self_of_fit hfit]
      exact and_iff_left rfl
    | closeFails =>
      dsimp only [AttResult.result, AttResult.put]
      rw [extentAtomic_of_error rfl, store_eq_self hget, adjust_eq_self_of_fit hfit, hdims, @eq_comm _ _ attr]
    | stored =>
      dsimp only [AttResult.result, AttResult.put]
      cases encode with
      | false =>
        rw [if_neg Bool.false_ne_true, extentAtomic_of_ok rfl (List.getElem?_set_self hlt) hdims hdims]
        show d.dsteps = _ ∧ _ ↔ _
        simp
      -- The new steps would be used with vectors that were encoded by the old ones, so the queue is flushed.
      | true =>
        have htable : ({ f with dsetsInfo := f.dsetsInfo.set id (some (d.adjust sizes).withSteps) }.flushMergedOf
            id).dsetsInfo[id]? = some (some (d.adjust sizes).withSteps) := by
          rw [flushMergedOf_table]
          exact List.getElem?_set_self hlt
        have hsteps : (d.adjust sizes).withSteps.dims = newDims d sizes := hdims
        rw [if_pos rfl, extentAtomic_of_ok rfl htable hdims hsteps]
        show calcDsteps (d.adjust sizes).dims = _ ∧ _ ↔ _
        rw [hdims]
        simp only [flushMergedOf_getElem?]
        constructor
        · rintro ⟨-, hqueue⟩
          refine ⟨Or.inl trivial, ?_⟩
          intro m hm hsteps
          refine ⟨trivial, ?_⟩
          by_contra hneg
          exact hqueue m ⟨hm, hneg⟩ hsteps
        · rintro ⟨-, hsafe⟩
          refine ⟨trivial, ?_⟩
          rintro m ⟨hm, hneg⟩ hsteps
          exact hneg (hsafe m hm hsteps).2

theorem square_rank : ([4, 4] : List HSize).length ≤ maxRank := by decide

theorem square_mdims : ([10, 10] : List HSize).length = ([4, 4] : List HSize).length := rfl

theorem square_dsteps : ([4, 1] : List MpiOffset).length = ([4, 4] : List HSize).length := rfl

/-- A dataset of four by four elements that may grow to ten by ten. -/
def squareDset : DsetInfo :=
  DsetInfo.plain 4 [4, 4] [10, 10] [4, 1] square_rank square_mdims square_dsteps

/-- A file with this dataset, and no requests. -/
def squareFile : RankFile where
  dsetsInfo := [some squareDset]
  wreqs := []
  nflushed := 0
  mreqs := [none]
  mdsize := 0
  wreqHash := []
  bused := 0
  zbsize := 0
  zbuf := false
  nldset := 0
  metadirty := false

theorem squareCorners_rank : ∀ b ∈ [(⟨[0, 0], [1, 1]⟩ : Block), ⟨[3, 3], [1, 1]⟩],
    b.start.length = 2 ∧ b.count.length = 2 := by
  simp

/-- Two corners of the dataset. -/
def squareCorners : Selections where
  ndim := 2
  sels := [⟨[0, 0], [1, 1]⟩, ⟨[3, 3], [1, 1]⟩]
  rank_eq := squareCorners_rank
  nsel_lt := by decide

/-- A request that holds two encoded selections is sent off before the steps change. -/
theorem extentAtomic_square : ∃ m, mergedOf FileConfig.selEncode 0 squareDset [(⟨List.replicate 8 0, 8, none⟩,
    squareCorners)] = .ok m ∧ m.StepsEncoded ∧
    let f := { squareFile with mreqs := [some m] }
    let c := f.setExtent true .stored 0 (fun _ => 6) [4, 4]
    c.result = .ok () ∧ ExtentAtomic 0 (fun _ => 6) squareDset f [4, 4] c := by
  have happended : (mergedOf FileConfig.selEncode 0 squareDset [(⟨List.replicate 8 0, 8, none⟩, squareCorners)]).map
      (fun m => (m.nsel, m.hdr.flag)) = .ok (2, MetaFlag.selEncode ||| MetaFlag.mulSel) := by decide +kernel
  rcases hm : mergedOf FileConfig.selEncode 0 squareDset [(⟨List.replicate 8 0, 8, none⟩, squareCorners)] with _ | m
  · rw [hm] at happended
    cases happended
  · rw [hm] at happended
    obtain ⟨hnsel, hflag⟩ := Prod.mk.inj (Except.ok.inj happended)
    refine ⟨m, rfl, ⟨by rw [hflag]; decide, by rw [hnsel]; decide⟩, rfl, (extentAtomic_iff rfl).mpr ?_⟩
    rw [ExtentSafe, if_neg (by decide)]
    refine ⟨Or.inl rfl, fun m' hm' _ => ⟨rfl, ?_⟩⟩
    obtain rfl := Option.some.inj (Option.some.inj hm')
    rw [hnsel]
    decide

/-- The second size is too large, and the first one has been stored. -/
theorem extentAtomic_partly :
    let sizes : ℕ → HSize := fun i => if i = 0 then 6 else 11
    let c := squareFile.setExtent true .stored 0 sizes [4, 4]
    c.result = .error (.raised "size cannot exceed max size") ∧
      (c.file.dsetsInfo.map fun d => d.map DsetInfo.dims) = [some [6, 4]] ∧
      ¬ ExtentAtomic 0 sizes squareDset squareFile [4, 4] c := by
  intro sizes c
  have hresult : c.result = .error (.raised "size cannot exceed max size") := rfl
  have hdims : (c.file.dsetsInfo.map fun d => d.map DsetInfo.dims) = [some [6, 4]] := by decide
  refine ⟨hresult, hdims, ?_⟩
  intro h
  rw [(h.failed _ hresult).1] at hdims
  exact absurd hdims (by decide)

end LogVol
