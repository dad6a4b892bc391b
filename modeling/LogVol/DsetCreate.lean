/-
# LogVol.DsetCreate — creating datasets, and opening the file that has them.

`H5VL_log_dataset_create` creates the anchor dataset with the underlying VOL, stores three attributes with it,
and then appends to the tables of the file. Its error exit frees memory, and leaves in the file what is there.
Opening the file opens every dataset, which reads the attributes. `AllOrNothing` says that a call does all of
this or nothing, and `allOrNothing_iff` in which runs every call does.
-/
import LogVol.SetExtent

namespace LogVol

/-! ## §1 — what is in the file. -/

/-- An attribute of a dataset: not there, never written, or written. -/
inductive Attr (α : Type)
  | missing
  | blank
  | holds (a : α)
  deriving DecidableEq

/-- `H5VL_logi_add_att`: which of its three calls fails, if any. -/
inductive AddResult
  | added
  | createFails
  | writeFails
  | closeFails
  deriving DecidableEq, Repr

/-- The attribute afterwards. -/
def AddResult.put {α : Type} : AddResult → α → Attr α
  | .added, a => .holds a
  | .closeFails, a => .holds a
  | .writeFails, _ => .blank
  | .createFails, _ => .missing

/-- A dataset as it is in the file: `info` has what the anchor dataset holds itself, its type, its fill value
and its filters. -/
structure StoredDset where
  info : DsetInfo
  dims : Attr (List HSize)
  mdims : Attr (List HSize)
  id : Attr ℕ

/-- A file that is open: its tables, and the datasets that are in it. -/
structure DsetTable where
  ndset : ℕ
  dsetsInfo : List (Option DsetInfo)
  mreqs : List (Option MergedWReq)
  stored : List StoredDset

/-- A file that was just created. -/
def DsetTable.new : DsetTable := ⟨0, [], [], []⟩

/-! ## §2 — creating. -/

/-- One call: the description of the dataset, and which of its steps succeed. `allowed` is whether the type is
not of variable length and the layout can be set, `described` whether the type, the fill value, the extent and
the filters can be copied. -/
structure CreateCall where
  info : DsetInfo
  allowed : Bool
  created : Bool
  described : Bool
  dims : AddResult
  mdims : AddResult
  id : AddResult

/-- `std::vector::resize`. -/
def resizeTable {α : Type} (n : ℕ) (xs : List (Option α)) : List (Option α) :=
  xs.take n ++ List.replicate (n - xs.length) none

/-- A dataset that was created, whatever became of it. -/
def DsetTable.store (t : DsetTable) (s : StoredDset) : DsetTable := { t with stored := t.stored ++ [s] }

/-- **`H5VL_log_dataset_create`**. -/
def DsetTable.create (c : CreateCall) (t : DsetTable) : DsetTable × Except Fault ℕ :=
  if c.allowed = false then (t, .error (.raised "Variable length types are not supported"))
  else if c.created = false then (t, .error (.raised "H5VLdataset_create"))
  else
    let s : StoredDset := ⟨c.info, .missing, .missing, .missing⟩
    if c.described = false then (t.store s, .error (.raised "Memory allocation failed"))
    else
      let s := { s with dims := c.dims.put c.info.dims }
      if c.dims ≠ .added then (t.store s, .error (.raised "H5VL_LOG_DATASETI_ATTR_DIMS"))
      else
        let s := { s with mdims := c.mdims.put c.info.mdims }
        if c.mdims ≠ .added then (t.store s, .error (.raised "H5VL_LOG_DATASETI_ATTR_MDIMS"))
        else
          let s := { s with id := c.id.put t.ndset }
          if c.id ≠ .added then (t.store s, .error (.raised "H5VL_LOG_DATASETI_ATTR_ID"))
          -- `ndset` is an int, and overflows where the dataset is stored already
          else if 2 ^ 31 ≤ t.ndset + 1 then (t.store s, .error .outside)
          else
            ({
              ndset := t.ndset + 1
              dsetsInfo := t.dsetsInfo ++ [some c.info]
              mreqs := resizeTable (t.ndset + 1) t.mreqs
              stored := t.stored ++ [s] }, .ok t.ndset)

/-! ## §3 — opening. -/

/-- Dstep for encoding selection. They are not set when they are not used. -/
def attrSteps (encode : Bool) (dims : List HSize) : List MpiOffset :=
  if encode then calcDsteps dims else List.replicate dims.length 0

theorem attrSteps_length (encode : Bool) (dims : List HSize) : (attrSteps encode dims).length = dims.length := by
  cases encode with
  | true => exact calcDsteps_length dims
  | false => exact List.length_replicate

/-- The description of a dataset with the dimensions of its attributes. -/
def DsetInfo.fromAttrs (encode : Bool) (d : DsetInfo) (dims mdims : List HSize) : Except Fault DsetInfo :=
  if h : dims.length ≤ maxRank ∧ mdims.length = dims.length then
    .ok { d with
      dims := dims
      mdims := mdims
      dsteps := attrSteps encode dims
      rank_le := h.1
      mdims_length := h.2
      dsteps_length := attrSteps_length encode dims }
  else .error .outside

/-- `H5VL_logi_get_att`. What is read of an attribute that was never written is not defined. -/
def Attr.read {α : Type} : Attr α → Except Fault α
  | .missing => .error (.raised "H5VLattr_open")
  | .blank => .error .outside
  | .holds a => .ok a

/-- **`H5VL_log_dataseti_open`**, on the table: construct new dataset info if not already constructed. -/
def openStored (encode : Bool) (infos : List (Option DsetInfo)) (s : StoredDset) :
    Except Fault (List (Option DsetInfo)) := do
  let id ← s.id.read
  match infos[id]? with
  | none => .error .outside
  | some (some _) => pure infos
  | some none =>
      let dims ← s.dims.read
      let mdims ← s.mdims.read
      let d ← s.info.fromAttrs encode dims mdims
      pure (infos.set id (some d))

/-- Opening the file: the tables have room for as many datasets as there were, and every one of them is
visited. -/
def DsetTable.reopen (encode : Bool) (t : DsetTable) : Except Fault DsetTable := do
  let infos ← t.stored.foldlM (openStored encode) (List.replicate t.ndset none)
  pure { t with
    dsetsInfo := infos
    mreqs := List.replicate t.ndset none }

/-! ## §4 — all or nothing. -/

/-- The datasets in the file have IDs of their own, below `ndset`. -/
def DsetTable.Ids (t : DsetTable) : Prop :=
  ∃ ids : List ℕ, t.stored.map StoredDset.id = ids.map Attr.holds ∧ ids.Nodup ∧ ∀ id ∈ ids, id < t.ndset

/-- **`AllOrNothing`** — a call from `t` that leaves `t'`: the tables are of one size, the datasets in the file
have IDs of their own, the file can be opened, and a call that fails has left no dataset. -/
structure AllOrNothing (encode : Bool) (t t' : DsetTable) (result : Except Fault ℕ) : Prop where
  dsetsInfo : t'.dsetsInfo.length = t'.ndset
  mreqs : t'.mreqs.length = t'.ndset
  ids : t'.Ids
  opens : ∃ t'', t'.reopen encode = .ok t''
  failed : ∀ err, result = .error err → t'.stored = t.stored

inductive DsetOp
  | create (c : CreateCall)
  | reopen

/-- Every call of a run does all or nothing, and the file can be opened where it is. -/
def AllOrNothingRun (encode : Bool) : DsetTable → List DsetOp → Prop
  | _, [] => True
  | t, .create c :: ops =>
      AllOrNothing encode t (t.create c).1 (t.create c).2 ∧ AllOrNothingRun encode (t.create c).1 ops
  | t, .reopen :: ops => ∃ t', t.reopen encode = .ok t' ∧ AllOrNothingRun encode t' ops

/-- The call creates a dataset, whatever becomes of it. -/
def DsetOp.creates : DsetOp → Bool
  | .create c => c.allowed && c.created
  | .reopen => false

/-- Once the dataset was created, nothing fails any more. -/
def CreateCall.Whole (c : CreateCall) : Prop :=
  c.allowed = true → c.created = true →
    c.described = true ∧ c.dims = .added ∧ c.mdims = .added ∧ c.id = .added

/-! ## §5 — one call. -/

/-- **What a call does.** -/
theorem create_cases (c : CreateCall) (t : DsetTable) :
    (∃ err, (c.allowed = false ∨ c.created = false) ∧ t.create c = (t, .error err)) ∨
    (∃ s err, c.allowed = true ∧ c.created = true ∧ ¬ (c.Whole ∧ t.ndset + 1 < 2 ^ 31) ∧
      t.create c = (t.store s, .error err)) ∨
    (c.allowed = true ∧ c.created = true ∧ c.Whole ∧ t.ndset + 1 < 2 ^ 31 ∧ t.create c = ({
      ndset := t.ndset + 1
      dsetsInfo := t.dsetsInfo ++ [some c.info]
      mreqs := resizeTable (t.ndset + 1) t.mreqs
      stored := t.stored ++ [⟨c.info, .holds c.info.dims, .holds c.info.mdims, .holds t.ndset⟩] }, .ok t.ndset)) := by
  obtain ⟨info, allowed, created, described, dims, mdims, id⟩ := c
  unfold DsetTable.create
  cases allowed with
  | false => exact Or.inl ⟨_, Or.inl rfl, rfl⟩
  | true =>
    cases created with
    | false => exact Or.inl ⟨_, Or.inr rfl, rfl⟩
    | true =>
      right
      -- The dataset is there now; the first attribute that cannot be added ends the call, and no one takes it back.
      cases described with
      | false => exact Or.inl ⟨_, _, rfl, rfl, by simp [CreateCall.Whole], rfl⟩
      | true =>
        by_cases hdims : dims = .added
        · subst hdims
          by_cases hmdims : mdims = .added
          · subst hmdims
            by_cases hid : id = .added
            · subst hid
              by_cases hfull : 2 ^ 31 ≤ t.ndset + 1
              · refine Or.inl ⟨⟨info, .holds info.dims, .holds info.mdims, .holds t.ndset⟩, .outside, rfl, rfl,
                  fun h => absurd h.2 (not_lt.mpr hfull), ?_⟩
                exact if_pos hfull
              · exact Or.inr ⟨rfl, rfl, by simp [CreateCall.Whole], not_le.mp hfull, if_neg hfull⟩
            · exact Or.inl ⟨_, _, rfl, rfl, by simp [CreateCall.Whole, hid], by simp [hid]; exact ⟨rfl, rfl⟩⟩
          · exact Or.inl ⟨_, _, rfl, rfl, by simp [CreateCall.Whole, hmdims], by simp [hmdims]; exact ⟨rfl, rfl⟩⟩
        · exact Or.inl ⟨_, _, rfl, rfl, by simp [CreateCall.Whole, hdims], by simp [hdims]; exact ⟨rfl, rfl⟩⟩

/-! ## §6 — opening. -/

/-- The attributes with the dimensions are those the dataset was created with. -/
def StoredDset.Complete (s : StoredDset) : Prop :=
  s.dims = .holds s.info.dims ∧ s.mdims = .holds s.info.mdims

/-- A dataset that has its attributes is opened. -/
theorem openStored_ok (encode : Bool) {infos : List (Option DsetInfo)} {s : StoredDset} {id : ℕ}
    (hid : s.id = .holds id) (hlt : id < infos.length) (h : s.Complete) :
    ∃ infos', openStored encode infos s = .ok infos' ∧ infos'.length = infos.length := by
  obtain ⟨hdims, hmdims⟩ := h
  unfold openStored
  rw [hid, hdims, hmdims]
  simp only [Attr.read, Lib.ok_bind]
  rcases hget : infos[id]? with _ | _ | d
  · exact absurd hlt (Nat.not_lt.mpr (List.getElem?_eq_none_iff.mp hget))
  · have hread : ∃ d, s.info.fromAttrs encode s.info.dims s.info.mdims = .ok d := by
      unfold DsetInfo.fromAttrs
      rw [dif_pos ⟨s.info.rank_le, s.info.mdims_length⟩]
      exact ⟨_, rfl⟩
    obtain ⟨d, hd⟩ := hread
    simp only [hd, Lib.ok_bind]
    exact ⟨_, rfl, List.length_set⟩
  · exact ⟨infos, rfl, rfl⟩

/-- So are all of them, one after another. -/
theorem foldlM_openStored (encode : Bool) {stored : List StoredDset} {ids : List ℕ} {n : ℕ}
    (hids : stored.map StoredDset.id = ids.map Attr.holds) (hlt : ∀ id ∈ ids, id < n)
    (h : ∀ s ∈ stored, s.Complete) {infos : List (Option DsetInfo)} (hlen : infos.length = n) :
    ∃ infos', stored.foldlM (openStored encode) infos = .ok infos' ∧ infos'.length = n := by
  induction stored generalizing ids infos with
  | nil => exact ⟨infos, rfl, hlen⟩
  | cons s stored ih =>
    rcases ids with _ | ⟨id, ids⟩
    · cases hids
    · obtain ⟨hid, hids⟩ := List.cons.inj hids
      obtain ⟨infos₁, hopen, hlen₁⟩ :=
        openStored_ok encode hid (by rw [hlen]; exact hlt id (List.mem_cons_self ..)) (h s (List.mem_cons_self ..))
      obtain ⟨infos', hrest, hlen'⟩ := ih hids (fun i hi => hlt i (List.mem_cons_of_mem id hi))
        (fun x hx => h x (List.mem_cons_of_mem s hx)) (hlen₁.trans hlen)
      refine ⟨infos', ?_, hlen'⟩
      rw [List.foldlM_cons, hopen, Lib.ok_bind, hrest]

/-! ## §7 — the runs. -/

/-- **`Inv`** — the tables are of one size, and the datasets in the file are those of the calls that returned. -/
structure DsetTable.Inv (t : DsetTable) : Prop where
  dsetsInfo : t.dsetsInfo.length = t.ndset
  mreqs : t.mreqs.length = t.ndset
  ids : t.Ids
  complete : ∀ s ∈ t.stored, s.Complete

theorem DsetTable.Inv.new : DsetTable.new.Inv :=
  ⟨rfl, rfl, ⟨[], rfl, List.nodup_nil, fun _ h => absurd h List.not_mem_nil⟩, fun _ h => absurd h List.not_mem_nil⟩

theorem length_resizeTable {α : Type} {n : ℕ} {xs : List (Option α)} (h : xs.length ≤ n) :
    (resizeTable n xs).length = n := by
  rw [resizeTable, List.length_append, List.length_take, List.length_replicate]
  omega

namespace DsetTable

variable {t t' : DsetTable} {encode : Bool} {c : CreateCall}

theorem Inv.reopen (h : t.Inv) (encode : Bool) :
    ∃ t', t.reopen encode = .ok t' ∧ t'.Inv ∧ t'.ndset = t.ndset := by
  obtain ⟨ids, hids, hnodup, hlt⟩ := h.ids
  have hempty : (List.replicate t.ndset (none : Option DsetInfo)).length = t.ndset := List.length_replicate
  obtain ⟨infos, hopen, hlen⟩ := foldlM_openStored encode hids hlt h.complete hempty
  refine ⟨{ t with dsetsInfo := infos, mreqs := List.replicate t.ndset none }, ?_, ?_, rfl⟩
  · unfold DsetTable.reopen
    rw [hopen, Lib.ok_bind]
    rfl
  · exact ⟨hlen, List.length_replicate, h.ids, h.complete⟩

/-- A call that does nothing by halves keeps the invariant. -/
theorem Inv.create (h : t.Inv) (hc : c.Whole) (hroom : t.ndset + 1 < 2 ^ 31) : (t.create c).1.Inv := by
  rcases create_cases c t with ⟨err, -, hcreate⟩ | ⟨s, err, -, -, hbad, -⟩ | ⟨-, -, -, -, hcreate⟩
  · rw [hcreate]
    exact h
  · exact absurd ⟨hc, hroom⟩ hbad
  · rw [hcreate]
    obtain ⟨ids, hids, hnodup, hlt⟩ := h.ids
    refine ⟨?_, ?_, ⟨ids ++ [t.ndset], ?_, ?_, ?_⟩, ?_⟩
    · simp [h.dsetsInfo]
    · apply length_resizeTable
      rw [h.mreqs]
      exact Nat.le_succ _
    · simp [hids]
    · apply List.nodup_append'.mpr
      refine ⟨hnodup, List.nodup_singleton _, ?_⟩
      intro id hid hlast
      obtain rfl := List.mem_singleton.mp hlast
      exact Nat.lt_irrefl _ (hlt _ hid)
    · intro id hid
      rcases List.mem_append.mp hid with hid | hid
      · exact (hlt id hid).trans (Nat.lt_succ_self _)
      · obtain rfl := List.mem_singleton.mp hid
        exact Nat.lt_succ_self _
    · intro s hs
      rcases List.mem_append.mp hs with hs | hs
      · exact h.complete s hs
      · obtain rfl := List.mem_singleton.mp hs
        exact ⟨rfl, rfl⟩

/-- What a call that fails leaves of the datasets. -/
theorem create_failed (hc : c.Whole) (hroom : t.ndset + 1 < 2 ^ 31) {err : Fault}
    (h : (t.create c).2 = .error err) : (t.create c).1.stored = t.stored := by
  rcases create_cases c t with ⟨err', -, hcreate⟩ | ⟨s, err', -, -, hbad, -⟩ | ⟨-, -, -, -, hcreate⟩
  · rw [hcreate]
  · exact absurd ⟨hc, hroom⟩ hbad
  · rw [hcreate] at h
    cases h

/-- A call counts the dataset it creates. -/
theorem create_ndset (hc : c.Whole) (hroom : (DsetOp.create c).creates = true → t.ndset + 1 < 2 ^ 31) :
    (t.create c).1.ndset = t.ndset + if (DsetOp.create c).creates = true then 1 else 0 := by
  rcases create_cases c t with ⟨err, hno, hcreate⟩ | ⟨s, err, hallowed, hcreated, hbad, -⟩ |
    ⟨hallowed, hcreated, -, -, hcreate⟩
  · have hnot : ¬ (DsetOp.create c).creates = true := by
      rcases hno with hno | hno <;> simp [DsetOp.creates, hno]
    rw [hcreate, if_neg hnot]
    rfl
  · exact absurd ⟨hc, hroom (by simp [DsetOp.creates, hallowed, hcreated])⟩ hbad
  · rw [hcreate, if_pos (by simp [DsetOp.creates, hallowed, hcreated])]

end DsetTable

/-- A call that fails halfway has left a dataset. -/
theorem whole_of_allOrNothing {encode : Bool} {c : CreateCall} {t : DsetTable}
    (h : AllOrNothing encode t (t.create c).1 (t.create c).2) :
    c.Whole ∧ ((DsetOp.create c).creates = true → t.ndset + 1 < 2 ^ 31) := by
  rcases create_cases c t with ⟨err, hno, -⟩ | ⟨s, err, -, -, -, hcreate⟩ | ⟨-, -, hwhole, hroom, -⟩
  · constructor
    · intro hallowed hcreated
      rcases hno with hno | hno
      · rw [hno] at hallowed
        cases hallowed
      · rw [hno] at hcreated
        cases hcreated
    · rcases hno with hno | hno <;> simp [DsetOp.creates, hno]
  · rw [hcreate] at h
    have hstored : t.stored ++ [s] = t.stored := h.failed err rfl
    have hlen := congrArg List.length hstored
    rw [List.length_append, List.length_singleton] at hlen
    omega
  · exact ⟨hwhole, fun _ => hroom⟩

/-- A call that does nothing by halves, and has room for what it creates, does all or nothing. -/
theorem allOrNothing_of_whole {encode : Bool} {c : CreateCall} {t : DsetTable} (ht : t.Inv) (hc : c.Whole)
    (hroom : (DsetOp.create c).creates = true → t.ndset + 1 < 2 ^ 31) :
    AllOrNothing encode t (t.create c).1 (t.create c).2 ∧ (t.create c).1.Inv := by
  have hkeeps : (t.create c).1.Inv ∧ ∀ err, (t.create c).2 = .error err → (t.create c).1.stored = t.stored := by
    by_cases hcreates : (DsetOp.create c).creates = true
    · exact ⟨ht.create hc (hroom hcreates), fun _ => DsetTable.create_failed hc (hroom hcreates)⟩
    · rcases create_cases c t with ⟨err, -, hcreate⟩ | ⟨s, err, hallowed, hcreated, -⟩ | ⟨hallowed, hcreated, -⟩
      · rw [hcreate]
        exact ⟨ht, fun _ _ => rfl⟩
      · exact absurd (by simp [DsetOp.creates, hallowed, hcreated]) hcreates
      · exact absurd (by simp [DsetOp.creates, hallowed, hcreated]) hcreates
  obtain ⟨hinv, hfailed⟩ := hkeeps
  obtain ⟨t'', hopen, -⟩ := hinv.reopen encode
  exact ⟨⟨hinv.dsetsInfo, hinv.mreqs, hinv.ids, ⟨t'', hopen⟩, hfailed⟩, hinv⟩

/-- From a file that fits. -/
theorem allOrNothingRun_iff {encode : Bool} {t : DsetTable} (ht : t.Inv) (hndset : t.ndset < 2 ^ 31)
    (ops : List DsetOp) :
    AllOrNothingRun encode t ops ↔
      (∀ c, DsetOp.create c ∈ ops → c.Whole) ∧ t.ndset + ops.countP DsetOp.creates < 2 ^ 31 := by
  induction ops generalizing t with
  | nil =>
    refine iff_of_true trivial ⟨?_, hndset⟩
    intro c hc
    cases hc
  | cons op ops ih =>
    cases op with
    | create c =>
      rw [List.countP_cons]
      constructor
      · rintro ⟨hcall, hrest⟩
        obtain ⟨hwhole, hroom⟩ := whole_of_allOrNothing hcall
        have hinv := (@allOrNothing_of_whole encode c t ht hwhole hroom).2
        have hcount := DsetTable.create_ndset hwhole hroom
        have hndset' : (t.create c).1.ndset < 2 ^ 31 := by
          rw [hcount]
          split_ifs with hcreates
          · exact hroom hcreates
          · exact hndset
        obtain ⟨hall, hlt⟩ := (ih hinv hndset').mp hrest
        rw [hcount] at hlt
        refine ⟨?_, by omega⟩
        intro c' hc'
        rcases List.mem_cons.mp hc' with heq | hmem
        · obtain rfl := DsetOp.create.inj heq
          exact hwhole
        · exact hall c' hmem
      · rintro ⟨hall, hlt⟩
        have hwhole := hall c (List.mem_cons_self ..)
        have hroom : (DsetOp.create c).creates = true → t.ndset + 1 < 2 ^ 31 := by
          intro hcreates
          rw [if_pos hcreates] at hlt
          omega
        obtain ⟨hcall, hinv⟩ := @allOrNothing_of_whole encode c t ht hwhole hroom
        have hcount := DsetTable.create_ndset hwhole hroom
        refine ⟨hcall, (ih hinv (by omega)).mpr ⟨fun c' hc' => hall c' (List.mem_cons_of_mem _ hc'), ?_⟩⟩
        omega
    -- Reopening rebuilds the table from what is stored, which a whole call has left complete.
    | reopen =>
      obtain ⟨t', hopen, hinv, hsame⟩ := ht.reopen encode
      rw [List.countP_cons_of_neg (by simp [DsetOp.creates]), ← hsame]
      rw [← hsame] at hndset
      constructor
      · rintro ⟨t'', hopen', hrest⟩
        rw [hopen] at hopen'
        obtain rfl := Except.ok.inj hopen'
        obtain ⟨hall, hlt⟩ := (ih hinv hndset).mp hrest
        refine ⟨?_, hlt⟩
        intro c hc
        rcases List.mem_cons.mp hc with heq | hmem
        · cases heq
        · exact hall c hmem
      · rintro ⟨hall, hlt⟩
        exact ⟨t', hopen, (ih hinv hndset).mpr ⟨fun c hc => hall c (List.mem_cons_of_mem _ hc), hlt⟩⟩

/-- **`allOrNothing_iff`** — in every run on a new file, every call does all or nothing exactly when no step after
the creation of a dataset fails, and fewer than `2 ^ 31` datasets are created. -/
theorem allOrNothing_iff (encode : Bool) (ops : List DsetOp) :
    AllOrNothingRun encode .new ops ↔
      (∀ c, DsetOp.create c ∈ ops → c.Whole) ∧ ops.countP DsetOp.creates < 2 ^ 31 := by
  have hnew := @allOrNothingRun_iff encode .new DsetTable.Inv.new (Nat.two_pow_pos 31) ops
  rwa [show DsetTable.new.ndset = 0 from rfl, Nat.zero_add] at hnew

theorem four_rank : ([4] : List HSize).length ≤ maxRank := by decide

theorem four_mdims : ([4] : List HSize).length = ([4] : List HSize).length := rfl

theorem four_dsteps : ([1] : List MpiOffset).length = ([4] : List HSize).length := rfl

/-- The attribute with the ID cannot be created. -/
def idFails : CreateCall :=
  ⟨DsetInfo.plain 4 [4] [4] [1] four_rank four_mdims four_dsteps, true, true, true, .added, .added, .createFails⟩

/-- The call fails, the dataset is there, and the file cannot be opened any more. -/
theorem create_idFails :
    (DsetTable.new.create idFails).2 = .error (.raised "H5VL_LOG_DATASETI_ATTR_ID") ∧
      (DsetTable.new.create idFails).1.stored.length = 1 ∧
      ((DsetTable.new.create idFails).1.reopen true).isOk = false ∧
      ¬ AllOrNothingRun true .new [.create idFails] := by
  refine ⟨rfl, rfl, rfl, ?_⟩
  rintro ⟨h, -⟩
  have hstored := h.failed _ rfl
  cases hstored

end LogVol
