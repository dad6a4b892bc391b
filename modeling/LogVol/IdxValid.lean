/-
# LogVol.IdxValid — the index of an open file and the flag that says it is up to date.

Reading loads the metadata into the index unless `idxvalid` is set; writing metadata clears the flag. What
is loaded of a dataset depends on whether it is open, and a dataset that is opened later does not clear it.
`IdxGroup.step` is one call on the processes that share a log, `Coherent` says that a valid index has what is
recorded of every open dataset, and `idxvalid_coherent` which runs keep it so: `IdxGroup.Inv` says in addition
that a valid index has nothing of the datasets that are not open.
-/
import LogVol.Buffered
import LogVol.PartialIndex
import LogVol.SetExtent
import LogVol.Unlinked

namespace LogVol

/-! ## §1 — the processes of a log. -/

/-- One process: its file, the index, and whether it is up to date. -/
structure IdxRank (E : Type) where
  file : RankFile
  idx : List (List E)
  idxvalid : Bool

/-- The processes that share a log, with the descriptions its datasets have as attributes, and its metadata
datasets, of which they know `nmdset`. -/
structure IdxGroup (E : Type) where
  ranks : List (IdxRank E)
  dsets : List DsetInfo
  nmdset : ℕ
  mdsets : List (List UInt8)

/-- What the index of a file is, and how much metadata is loaded at once. -/
structure IdxEnv (E : Type) where
  env : FileEnv
  index : List (Option DsetInfo) → LogIdx E
  limit : Option HSize

inductive IdxOp
  | create (d : DsetInfo)
  | openDset (rank id : ℕ)
  | write (rank : ℕ) (c : WriteCall)
  | setExtent (rank id : ℕ) (sizes : ℕ → HSize)
  | flush (doff : ℕ → HSize) (others : List Group)
  | read
  | metaflush

variable {E : Type}

/-- `reserve`. -/
def reserveIdx (n : ℕ) (idx : List (List E)) : List (List E) := idx ++ List.replicate (n - idx.length) []

/-- Append dataset to the file. -/
def IdxRank.create (d : DsetInfo) (r : IdxRank E) : IdxRank E :=
  { r with
    file := { r.file with
      dsetsInfo := r.file.dsetsInfo ++ [some d]
      mreqs := r.file.mreqs ++ [none] }
    idx := reserveIdx (r.file.dsetsInfo.length + 1) r.idx }

/-- **`H5VL_log_dataseti_open`**: construct new dataset info if not already constructed. -/
def IdxRank.openDset (dsets : List DsetInfo) (id : ℕ) (r : IdxRank E) : IdxRank E :=
  match r.file.dsetsInfo[id]? with
  | some none => { r with file := { r.file with dsetsInfo := r.file.dsetsInfo.set id dsets[id]? } }
  | _ => r

/-- The extent of an open dataset, whose attribute can be stored. -/
def IdxRank.setExtent (encode : Bool) (id : ℕ) (sizes : ℕ → HSize) (r : IdxRank E) : IdxRank E :=
  { r with file := (r.file.setExtent encode .stored id sizes []).file }

/-- The attributes are those of the new sizes, unless one of them is too large. -/
def DsetInfo.storeExtent (encode : Bool) (sizes : ℕ → HSize) (d : DsetInfo) : DsetInfo :=
  if d.sizesFit sizes < d.ndim then d else d.setExtent encode sizes

/-- Until all metadata datasets are iterated, each part in place of the one before. -/
def partIdx (I : LogIdx E) (limit : HSize) (mdsets : List (List UInt8)) :
    ℕ → I32 × I32 → List (List E) → Except Fault (List (List E))
  | 0, _, _ => .error .diverged
  | fuel + 1, (md, sec), idx =>
      if md = -1 then .ok idx
      else do
        let (idx, cursor, _) ← metaupdatePart I limit mdsets md sec idx
        partIdx I limit mdsets fuel cursor idx

/-- **`H5VL_log_read_idx_search`** on a process once its metadata is clean. What a load that fails leaves in
the index is cleared by the next one. -/
def IdxRank.load (e : IdxEnv E) (nmdset : ℕ) (mdsets : List (List UInt8)) (r : IdxRank E) : IdxRank E :=
  match e.limit with
  | none =>
      if r.idxvalid then r
      else match metaupdate (e.index r.file.dsetsInfo) (mdsets.take nmdset) r.idx with
        | .ok idx => { r with idx := idx, idxvalid := decide (nmdset ≤ mdsets.length) }
        | .error _ => { r with idx := clearIdx r.idx }
  | some limit =>
      match partIdx (e.index r.file.dsetsInfo) limit (mdsets.take nmdset) (mdsets.flatten.length + 1) (0, 0)
        r.idx with
      | .ok idx => { r with idx := idx }
      | .error _ => { r with idx := clearIdx r.idx }

namespace IdxGroup

/-- The processes with other files. -/
def withFiles (g : IdxGroup E) (files : List RankFile) : IdxGroup E :=
  { g with ranks := List.zipWith (fun r f => { r with file := f }) g.ranks files }

/-- As a group of ranks that write. -/
def toGroup (g : IdxGroup E) : Group := ⟨g.ranks.map IdxRank.file, fun _ => 0⟩

/-- **`H5VL_log_filei_metaflush`**: the dataset is named after `nmdset`, and the name must be free. -/
def metaflush (e : IdxEnv E) (g : IdxGroup E) : Except Fault (IdxGroup E) := do
  let (group, md) ← metaflushGroup e.env.config g.toGroup
  if md ≠ [] ∧ g.nmdset < g.mdsets.length then .error (.raised "H5VLdataset_create")
  -- `nmdset` is an int
  else if 2 ^ 31 ≤ g.nmdset + md.length then .error .outside
  else
    let g := g.withFiles group.ranks
    pure { g with
      ranks := g.ranks.map fun r => { r with idxvalid := false }
      nmdset := g.nmdset + md.length
      mdsets := g.mdsets ++ md }

/-- Flush metadata if dirty. A process whose metadata is clean does not take part. -/
def cleanMeta (e : IdxEnv E) (g : IdxGroup E) : Except Fault (IdxGroup E) :=
  if g.ranks.any fun r => r.file.metadirty then
    if g.ranks.all fun r => r.file.metadirty then g.metaflush e else .error .diverged
  else .ok g

/-- **One call** on the processes that share a log. `others` are the other groups of the file. -/
def step (e : IdxEnv E) (g : IdxGroup E) : IdxOp → Except Fault (IdxGroup E)
  | .create d => .ok { g with ranks := g.ranks.map (IdxRank.create d), dsets := g.dsets ++ [d] }
  | .openDset i id => .ok { g with ranks := g.ranks.modify i (IdxRank.openDset g.dsets id) }
  | .write i c => .ok { g with ranks := g.ranks.modify i fun r =>
      { r with file := (datasetWrite e.env c r.file).1 } }
  | .setExtent i id sizes =>
      let encode := hasFlag e.env.config FileConfig.selEncode
      .ok { g with
        ranks := g.ranks.modify i (IdxRank.setExtent encode id sizes)
        dsets := g.dsets.modify id (DsetInfo.storeExtent encode sizes) }
  | .flush doff others => do
      let groups ← flushWriteReqs e.env.config doff (g.toGroup :: others)
      pure (g.withFiles (groups.head?.elim [] Group.ranks))
  | .read => do
      let g ← g.cleanMeta e
      pure { g with ranks := g.ranks.map (IdxRank.load e g.nmdset g.mdsets) }
  | .metaflush => g.metaflush e

end IdxGroup

/-! ## §2 — coherence. -/

/-- Descriptions that metadata entries are decoded the same with. -/
structure DsetInfo.Alike (d d' : DsetInfo) : Prop where
  esize : d.esize = d'.esize
  ndim : d.ndim = d'.ndim

/-- How an index loads metadata: sections as the parser says, of datasets that are in the table. -/
structure LoadsAs {V : Type} (P : EntryParser E V) (share : Bool)
    (index : List (Option DsetInfo) → LogIdx E) : Prop where
  indexes : ∀ dsets, Indexes (index dsets) P share dsets
  length : ∀ {dsets block idx idx'}, (index dsets).parseBlock block idx = .ok idx' → idx'.length = idx.length
  did_lt : ∀ {dsets idx idx'} {rs : List WReq}, (∀ r ∈ rs, r.WellSized) →
    (index dsets).parseBlock (rs.flatMap WReq.metaBuf) idx = .ok idx' →
      ∀ r ∈ rs, r.hdr.did.toNat < dsets.length
  alike : ∀ {d d' : DsetInfo}, d.Alike d' → P.plain d = P.plain d' ∧ P.ref d = P.ref d'

section Coherence

variable {V : Type} (P : EntryParser E V) (share : Bool)

/-- All sections of the metadata, with every dataset open. -/
abbrev Recorded (dsets : List DsetInfo) := List (MetaDset P share (dsets.map some))

variable {P share}

/-- The requests recorded, and the entries they become. -/
def recordedReqs {dsets : List DsetInfo} (Ds : Recorded P share dsets) : List WReq :=
  (Ds.flatMap MetaDset.secs).flatten

def recordedHeld {dsets : List DsetInfo} (Ds : Recorded P share dsets) : List (Option E) :=
  (Ds.flatMap MetaDset.held).flatten

/-- The dataset is open on the process. -/
def IdxRank.isOpen (r : IdxRank E) (i : ℕ) : Bool := (r.file.dsetsInfo[i]?.join).isSome

namespace IdxGroup

variable (P share)

/-- **`Coherent`** — a valid index has, for every open dataset, the entries recorded for it in all metadata
datasets, in order, and finds what the whole index finds. -/
structure Coherent (e : IdxEnv E) (g : IdxGroup E) (r : IdxRank E) : Prop where
  entries : r.idxvalid = true → ∀ Ds : Recorded P share g.dsets, g.mdsets = Ds.map MetaDset.content →
    ∀ i, r.isOpen i = true → r.idx[i]? = some (entriesOf i (recordedReqs Ds) (recordedHeld Ds))
  reads : r.idxvalid = true → ∀ Ds : Recorded P share g.dsets, g.mdsets = Ds.map MetaDset.content →
    ∀ reqs : List ReadReq, (∀ req ∈ reqs, r.isOpen req.did.toNat = true) →
      searchAll (e.index r.file.dsetsInfo) r.idx reqs =
        searchAll (e.index r.file.dsetsInfo)
          (idxOf g.dsets.length (recordedReqs Ds) (recordedHeld Ds)) reqs

/-- No entry of a dataset that is open on the process refers to an entry of one that is not. -/
def Resolves (g : IdxGroup E) (r : IdxRank E) : Prop :=
  ∀ Ds : Recorded P share g.dsets, g.mdsets = Ds.map MetaDset.content → ∀ D ∈ Ds, ∀ rs ∈ D.secs,
    RefsOpen share (fun i => !r.isOpen i) 0 [] rs

/-- Nothing is recorded of the dataset. -/
def Unrecorded (g : IdxGroup E) (id : ℕ) : Prop :=
  ∀ Ds : Recorded P share g.dsets, g.mdsets = Ds.map MetaDset.content →
    entriesOf id (recordedReqs Ds) (recordedHeld Ds) = []

/-- **`Meets`** — a dataset is opened for the first time while the index of the process is not valid, or
nothing is recorded of it; and an index is loaded while the references of open datasets lead to open ones. -/
def Meets (e : IdxEnv E) (g : IdxGroup E) : IdxOp → Prop
  | .openDset i id => ∀ r, g.ranks[i]? = some r → r.idxvalid = true → r.file.dsetsInfo[id]? = some none →
      g.Unrecorded P share id
  | .read => ∀ g', g.cleanMeta e = .ok g' → ∀ r ∈ g'.ranks, r.idxvalid = false → g'.Resolves P share r
  | _ => True

/-- Every call of a run does. -/
def RunMeets (e : IdxEnv E) : IdxGroup E → List IdxOp → Prop
  | _, [] => True
  | g, op :: ops => g.Meets P share e op ∧ ∀ g', g.step e op = .ok g' → RunMeets e g' ops

variable {P share}

/-- The state a run reaches. -/
def run (e : IdxEnv E) (g : IdxGroup E) (ops : List IdxOp) : Except Fault (IdxGroup E) :=
  ops.foldlM (fun g op => g.step e op) g

/-- **A file that was just created or opened**: the tables have a place for every dataset, with its description
if it was visited, the indexes too, no index is valid, and the metadata datasets are those of the file. -/
structure JustOpened (g : IdxGroup E) : Prop where
  table : ∀ r ∈ g.ranks, r.file.dsetsInfo.length = g.dsets.length
  described : ∀ r ∈ g.ranks, ∀ (i : ℕ) (d : DsetInfo), r.file.dsetsInfo[i]? = some (some d) →
    g.dsets[i]? = some d
  idx : ∀ r ∈ g.ranks, r.idx.length = g.dsets.length
  invalid : ∀ r ∈ g.ranks, r.idxvalid = false
  nmdset : g.nmdset = g.mdsets.length

end IdxGroup

end Coherence

/-! ## §3 — other tables. -/

section Tables

variable {V : Type} {P : EntryParser E V} {share : Bool} {dsets dsets' : List (Option DsetInfo)}

/-- The tables have alike descriptions of the dataset, or both none. -/
inductive AlikeAt (dsets dsets' : List (Option DsetInfo)) (did : I32) : Prop
  | closed (h : dsetAt dsets did = .ok none) (h' : dsetAt dsets' did = .ok none)
  | isOpen (d d' : DsetInfo) (h : dsetAt dsets did = .ok (some d)) (h' : dsetAt dsets' did = .ok (some d'))
      (alike : d.Alike d')

theorem dsetAt_eq_ok {did : I32} {o : Option DsetInfo} : dsetAt dsets did = .ok o ↔ dsets[did.toNat]? = some o := by
  unfold dsetAt
  cases dsets[did.toNat]? with
  | none => simp
  | some o' => simp

/-- **Entries are parsed the same with alike descriptions.** -/
theorem Parses.retable {pos : Int} {c : PosCache V} {rs : List WReq} {os : List (Option E)}
    (hP : ∀ {d d' : DsetInfo}, d.Alike d' → P.plain d = P.plain d' ∧ P.ref d = P.ref d')
    (h : Parses P share dsets pos c rs os) (hT : ∀ r ∈ rs, AlikeAt dsets dsets' r.hdr.did) :
    Parses P share dsets' pos c rs os := by
  induction h with
  | nil => exact Parses.nil
  | @skip pos c r rs os hsize hdset _ ih =>
    obtain ⟨hfirst, hrest⟩ := List.forall_mem_cons.mp hT
    cases hfirst with
    | closed _ h' => exact Parses.skip hsize h' (ih hrest)
    | isOpen d d' h _ _ =>
      rw [hdset] at h
      cases h
  | @entry pos c r rs e os dset hsize hdset hentry _ ih =>
    obtain ⟨hfirst, hrest⟩ := List.forall_mem_cons.mp hT
    cases hfirst with
    | closed h _ =>
      rw [hdset] at h
      cases h
    | isOpen d d' h h' halike =>
      rw [hdset] at h
      obtain rfl := Option.some.inj (Except.ok.inj h)
      obtain ⟨hplain, href⟩ := hP halike
      refine Parses.entry hsize h' ?_ (ih hrest)
      intro tail
      rw [← hentry tail, EntryParser.entryAt, EntryParser.entryAt, hplain, href]

/-- A metadata dataset read with another table. -/
theorem MetaDset.retable {held : List (List (Option E))} (D : MetaDset P share dsets)
    (h : List.Forall₂ (SectionHolds P share dsets') D.secs held) :
    ∃ D' : MetaDset P share dsets', D'.secs = D.secs ∧ D'.held = held :=
  ⟨⟨D.secs, held, h, D.nsec_lt, D.size_lt⟩, rfl, rfl⟩

/-- All of them, each with what the other table makes of its sections. -/
theorem exists_retable (Ds : List (MetaDset P share dsets))
    {f : MetaDset P share dsets → List (List (Option E))}
    (h : ∀ D ∈ Ds, List.Forall₂ (SectionHolds P share dsets') D.secs (f D)) :
    ∃ Ds' : List (MetaDset P share dsets'), Ds'.map MetaDset.content = Ds.map MetaDset.content ∧
      Ds'.flatMap MetaDset.secs = Ds.flatMap MetaDset.secs ∧ Ds'.flatMap MetaDset.held = Ds.flatMap f := by
  induction Ds with
  | nil => exact ⟨[], rfl, rfl, rfl⟩
  | cons D Ds ih =>
    obtain ⟨hD, hDs⟩ := List.forall_mem_cons.mp h
    obtain ⟨Ds', hc, hs, hh⟩ := ih hDs
    obtain ⟨D', hsecs, hheld⟩ := D.retable hD
    refine ⟨D' :: Ds', ?_, ?_, ?_⟩
    · rw [List.map_cons, List.map_cons, hc, MetaDset.content, MetaDset.content, hsecs]
    · rw [List.flatMap_cons, List.flatMap_cons, hs, hsecs]
    · rw [List.flatMap_cons, List.flatMap_cons, hh, hheld]

/-- With alike descriptions nothing changes. -/
theorem exists_retable_alike (hP : ∀ {d d' : DsetInfo}, d.Alike d' → P.plain d = P.plain d' ∧ P.ref d = P.ref d')
    (Ds : List (MetaDset P share dsets))
    (h : ∀ D ∈ Ds, ∀ r ∈ D.secs.flatten, AlikeAt dsets dsets' r.hdr.did) :
    ∃ Ds' : List (MetaDset P share dsets'), Ds'.map MetaDset.content = Ds.map MetaDset.content ∧
      Ds'.flatMap MetaDset.secs = Ds.flatMap MetaDset.secs ∧
      Ds'.flatMap MetaDset.held = Ds.flatMap MetaDset.held := by
  apply exists_retable
  intro D hD
  have hall := h D hD
  have hholds := D.holds
  generalize D.secs = secs at hall hholds
  generalize D.held = held at hholds
  induction hholds with
  | nil => exact List.Forall₂.nil
  | cons hsec _ ih =>
    rw [List.flatten_cons] at hall
    refine List.Forall₂.cons ?_ (ih fun r hr => hall r (List.mem_append_right _ hr))
    exact Parses.retable hP hsec fun r hr => hall r (List.mem_append_left _ hr)

end Tables

/-! ## §4 — loading with some datasets closed. -/

section Load

variable {V : Type} {P : EntryParser E V} {share : Bool} {dsets : List DsetInfo} {U : ℕ → Bool}

/-- The other datasets have nothing. -/
theorem entriesOf_hide_closed {i : ℕ} (hi : U i = true) (rs : List WReq) (os : List (Option E)) :
    entriesOf i rs (hide U rs os) = [] := by
  induction rs generalizing os with
  | nil => rfl
  | cons r rs ih =>
    cases os with
    | nil => rfl
    | cons o os =>
      rw [hide, entriesOf, ih, List.append_nil]
      by_cases hdid : r.hdr.did.toNat = i
      · rw [if_pos hdid, hdid, hi, if_pos rfl]
        rfl
      · rw [if_neg hdid]

theorem entriesOf_hide_eq (i : ℕ) (rs : List WReq) (os : List (Option E)) :
    entriesOf i rs (hide U rs os) = if U i then [] else entriesOf i rs os := by
  cases hi : U i with
  | true => exact entriesOf_hide_closed hi rs os
  | false => exact entriesOf_hide hi rs os

@[simp] theorem length_hide (U : ℕ → Bool) (rs : List WReq) (os : List (Option E))
    (h : os.length = rs.length) : (hide U rs os).length = rs.length := by
  induction rs generalizing os with
  | nil => rfl
  | cons r rs ih =>
    cases os with
    | nil => cases h
    | cons o os =>
      rw [hide, List.length_cons, List.length_cons, ih os (Nat.succ.inj h)]

/-- Section by section. -/
theorem entriesOf_hide_sections (i : ℕ) {secs : List (List WReq)} {held : List (List (Option E))}
    (h : List.Forall₂ (fun rs os => os.length = rs.length) secs held) :
    entriesOf i secs.flatten (List.zipWith (hide U) secs held).flatten =
      if U i then [] else entriesOf i secs.flatten held.flatten := by
  induction h with
  | nil => cases U i <;> rfl
  | @cons rs os secs held hlen _ ih =>
    rw [List.zipWith_cons_cons, List.flatten_cons, List.flatten_cons, List.flatten_cons,
      entriesOf_append (length_hide U rs os hlen), entriesOf_append hlen, ih, entriesOf_hide_eq]
    cases U i with
    | true => rfl
    | false => rfl

/-- What is loaded with the datasets in `U` closed: nothing of them, and of the others what is recorded. -/
theorem entriesOf_loaded (i : ℕ) (Ds : List (MetaDset P share (dsets.map some))) :
    entriesOf i (recordedReqs Ds) (Ds.flatMap fun D => List.zipWith (hide U) D.secs D.held).flatten =
      if U i then [] else entriesOf i (recordedReqs Ds) (recordedHeld Ds) := by
  have hone : ∀ D : MetaDset P share (dsets.map some),
      List.Forall₂ (fun rs os => os.length = rs.length) D.secs D.held := fun D =>
    D.holds.imp fun _ _ h => Parses.length_eq h
  unfold recordedReqs recordedHeld
  induction Ds with
  | nil => cases U i <;> rfl
  | cons D Ds ih =>
    have hlen : D.held.flatten.length = D.secs.flatten.length :=
      Parses.length_eq (Parses.flatten D.holds 0 [])
    have hlen' : (List.zipWith (hide U) D.secs D.held).flatten.length = D.secs.flatten.length := by
      have h := hone D
      generalize D.secs = secs at h
      generalize D.held = held at h
      induction h with
      | nil => rfl
      | @cons rs os secs held hl _ ih =>
        rw [List.zipWith_cons_cons, List.flatten_cons, List.flatten_cons, List.length_append,
          List.length_append, ih, length_hide U rs os hl]
    rw [List.flatMap_cons, List.flatMap_cons, List.flatMap_cons, List.flatten_append, List.flatten_append,
      List.flatten_append, entriesOf_append hlen', entriesOf_append hlen, ih,
      entriesOf_hide_sections i (hone D)]
    cases U i with
    | true => rfl
    | false => rfl

end Load

/-! ## §5 — what a load that ends has met. -/

section Walks

/-- What every step of a walk keeps, a walk that ends has kept. -/
theorem walkBlock_keeps {S : Type} {step : MetaHdr → List UInt8 → Int → S → Except Fault S} {Q : S → Prop}
    (hstep : ∀ hdr ent pos s s', Q s → step hdr ent pos s = .ok s' → Q s') {block : List UInt8} {fuel : ℕ}
    {pos : Int} {s s' : S} (hs : Q s) (h : walkBlock step block fuel pos s = .ok s') : Q s' := by
  induction fuel generalizing pos s with
  | zero => cases h
  | succ fuel ih =>
    rw [walkBlock] at h
    split at h
    · obtain rfl := Except.ok.inj h
      exact hs
    · split at h
      · cases h
      · obtain ⟨hdr, -, h⟩ := Lib.bind_eq_ok.mp h
        obtain ⟨s₁, hs₁, h⟩ := Lib.bind_eq_ok.mp h
        exact ih (hstep _ _ _ _ _ hs hs₁) h

/-- What every step of a walk over entries needs, all entries of a walk that ends have. -/
theorem walkEntries_all {S : Type} {step : MetaHdr → List UInt8 → Int → S → Except Fault S}
    {Q : WReq → Prop} (hstep : ∀ (r : WReq) ent pos s s', step r.hdr ent pos s = .ok s' → Q r)
    {rs : List WReq} {pos : ℕ} {s s' : S} (h : walkEntries step rs pos s = .ok s') : ∀ r ∈ rs, Q r := by
  induction rs generalizing pos s with
  | nil => exact fun _ hr => absurd hr List.not_mem_nil
  | cons r rs ih =>
    rw [walkEntries] at h
    obtain ⟨s₁, hs₁, h⟩ := Lib.bind_eq_ok.mp h
    exact List.forall_mem_cons.mpr ⟨hstep r _ _ _ _ hs₁, ih h⟩

theorem parseStep_length {z : Option Zlib} {share : Bool} {dsets : List (Option DsetInfo)} {hdr : MetaHdr}
    {ent : List UInt8} {pos : Int} {s s' : BlockCache × ArrayIdx}
    (h : parseStep z share dsets hdr ent pos s = .ok s') : s'.2.length = s.2.length := by
  unfold parseStep at h
  obtain ⟨o, -, h⟩ := Lib.bind_eq_ok.mp h
  cases o with
  | none =>
    obtain rfl := Except.ok.inj h
    rfl
  | some dset =>
    obtain ⟨⟨e, cache⟩, -, h⟩ := Lib.bind_eq_ok.mp h
    obtain ⟨idx, hidx, h⟩ := Lib.bind_eq_ok.mp h
    obtain rfl := Except.ok.inj h
    unfold ArrayIdx.insert at hidx
    split at hidx
    · obtain rfl := Except.ok.inj hidx
      exact List.length_modify ..
    · cases hidx

theorem compactStep_length {z : Option Zlib} {share : Bool} {dsets : List (Option DsetInfo)} {hdr : MetaHdr}
    {ent : List UInt8} {pos : Int} {s s' : CompactCache × CompactIdx}
    (h : compactStep z share dsets hdr ent pos s = .ok s') : s'.2.length = s.2.length := by
  unfold compactStep at h
  obtain ⟨o, -, h⟩ := Lib.bind_eq_ok.mp h
  cases o with
  | none =>
    obtain rfl := Except.ok.inj h
    rfl
  | some dset =>
    obtain ⟨⟨e, cache⟩, -, h⟩ := Lib.bind_eq_ok.mp h
    dsimp only at h
    split at h
    · obtain rfl := Except.ok.inj h
      exact List.length_modify ..
    · cases h

theorem map_eq_ok {ε α β : Type} {f : α → β} {x : Except ε α} {b : β} (h : x.map f = .ok b) :
    ∃ a, x = .ok a ∧ f a = b := by
  cases x with
  | error e => cases h
  | ok a => exact ⟨a, rfl, Except.ok.inj h⟩

/-- **Entries are decoded by size and number of dimensions alone.** -/
theorem metaentryDecode_alike (z : Option Zlib) {d d' : DsetInfo} (h : d.Alike d') :
    metaentryDecode z d = metaentryDecode z d' := by
  have hdim : encdimRead d = encdimRead d' := by
    funext recnum
    rw [encdimRead, encdimRead, h.ndim]
  have hsels : readSels d = readSels d' := by
    funext hdr recnum nsel
    unfold readSels
    rw [hdim, h.esize]
  have hunpack : unpackSels z d = unpackSels z d' := by
    funext hdr recnum nsel
    unfold unpackSels
    rw [hdim, hsels]
  have hblocks : readBlocks z d = readBlocks z d' := by
    funext hdr recnum
    unfold readBlocks
    rw [hunpack, hsels]
  funext ent
  unfold metaentryDecode metaentryDecodeSteps
  rw [hblocks]

theorem listParser_alike (z : Option Zlib) {d d' : DsetInfo} (h : d.Alike d') :
    (listParser z).plain d = (listParser z).plain d' ∧ (listParser z).ref d = (listParser z).ref d' := by
  refine ⟨metaentryDecode_alike z h, ?_⟩
  funext hdr ent kept
  rw [listParser_ref, listParser_ref]
  unfold metaentryRefDecode
  rw [h.esize, h.ndim]

theorem listIdx_loadsAs (z : Option Zlib) (share : Bool) : LoadsAs (listParser z) share (listIdx z share) where
  indexes := listIdx_indexes z share
  length := by
    intro dsets block idx idx' h
    have h : parseBlock z share dsets block idx = .ok idx' := h
    rw [parseBlock, parseLoop_eq_walkBlock] at h
    obtain ⟨s', hs', rfl⟩ := map_eq_ok h
    exact walkBlock_keeps (Q := fun s => s.2.length = idx.length)
      (fun _ _ _ _ _ hs hstep => (parseStep_length hstep).trans hs) rfl hs'
  did_lt := by
    intro dsets idx idx' rs hsize h
    have h : parseBlock z share dsets _ idx = .ok idx' := h
    rw [parseBlock_entries _ _ _ hsize] at h
    obtain ⟨s', hs', rfl⟩ := map_eq_ok h
    refine walkEntries_all ?_ hs'
    intro r ent pos s s' hstep
    obtain ⟨o, ho, -⟩ := Lib.bind_eq_ok.mp hstep
    exact dsetAt_lt ho
  alike := listParser_alike z

theorem compactIdx_loadsAs (z : Option Zlib) (share : Bool) :
    LoadsAs (compactParser z) share (compactIdx z share) where
  indexes := compactIdx_indexes z share
  length := by
    intro dsets block idx idx' h
    have h : compactParseBlock z share dsets block idx = .ok idx' := h
    rw [compactParseBlock] at h
    obtain ⟨s', hs', rfl⟩ := map_eq_ok h
    exact walkBlock_keeps (Q := fun s => s.2.length = idx.length)
      (fun _ _ _ _ _ hs hstep => (compactStep_length hstep).trans hs) rfl hs'
  did_lt := by
    intro dsets idx idx' rs hsize h
    have h : compactParseBlock z share dsets _ idx = .ok idx' := h
    rw [compactParseBlock, walkBlock_entries _ hsize] at h
    obtain ⟨s', hs', rfl⟩ := map_eq_ok h
    refine walkEntries_all ?_ hs'
    intro r ent pos s s' hstep
    obtain ⟨o, ho, -⟩ := Lib.bind_eq_ok.mp hstep
    exact dsetAt_lt ho
  alike := by
    intro d d' h
    have hplain := metaentryDecode_alike z h
    refine ⟨?_, rfl⟩
    funext ent
    show metaentryDecode z d ent >>= compactPlain = metaentryDecode z d' ent >>= compactPlain
    rw [hplain]

end Walks

/-! ## §6 — the invariant. -/

section Invariant

variable {V : Type} (P : EntryParser E V) (share : Bool)

/-- **`RankInv`** — what a process knows fits the file; a valid index was loaded from metadata of datasets
that were there, and has of those that are open what is recorded, and nothing of the others. -/
structure RankInv (dsets : List DsetInfo) (mdsets : List (List UInt8)) (r : IdxRank E) : Prop where
  table : r.file.dsetsInfo.length = dsets.length
  described : ∀ (i : ℕ) (d : DsetInfo), r.file.dsetsInfo[i]? = some (some d) → ∃ d', dsets[i]? = some d' ∧ d.Alike d'
  idx : r.idx.length = dsets.length
  below : r.idxvalid = true → ∀ (dsets' : List (Option DsetInfo)) (Ds : List (MetaDset P share dsets')),
    mdsets = Ds.map MetaDset.content → ∀ D ∈ Ds, ∀ x ∈ D.secs.flatten, x.hdr.did.toNat < dsets.length
  holds : r.idxvalid = true → ∀ Ds : Recorded P share dsets, mdsets = Ds.map MetaDset.content →
    ∀ i, i < dsets.length →
      r.idx[i]? = some (if r.isOpen i then entriesOf i (recordedReqs Ds) (recordedHeld Ds) else [])

variable {P share} {dsets : List DsetInfo} {mdsets : List (List UInt8)} {r r' : IdxRank E}

theorem isOpen_congr (h : r'.file.dsetsInfo = r.file.dsetsInfo) (i : ℕ) : r'.isOpen i = r.isOpen i := by
  rw [IdxRank.isOpen, IdxRank.isOpen, h]

/-- Nothing else of the file matters. -/
theorem RankInv.congr (h : RankInv P share dsets mdsets r) (hfile : r'.file.dsetsInfo = r.file.dsetsInfo)
    (hidx : r'.idx = r.idx) (hvalid : r'.idxvalid = r.idxvalid) : RankInv P share dsets mdsets r' where
  table := by rw [hfile, h.table]
  described := by
    rw [hfile]
    exact h.described
  idx := by rw [hidx, h.idx]
  below := by
    rw [hvalid]
    exact h.below
  holds := by
    rw [hvalid, hidx]
    intro hv Ds hDs i hi
    rw [isOpen_congr hfile]
    exact h.holds hv Ds hDs i hi

/-- An index that is not valid may have anything. -/
theorem RankInv.invalid (h : RankInv P share dsets mdsets r) (hfile : r'.file.dsetsInfo = r.file.dsetsInfo)
    (hidx : r'.idx.length = r.idx.length) (hvalid : r'.idxvalid = false) (mdsets' : List (List UInt8)) :
    RankInv P share dsets mdsets' r' where
  table := by rw [hfile, h.table]
  described := by
    rw [hfile]
    exact h.described
  idx := by rw [hidx, h.idx]
  below := by
    rw [hvalid]
    exact nofun
  holds := by
    rw [hvalid]
    exact nofun

/-- A table that has the same place for a dataset. -/
theorem alikeAt_congr {T T' : List (Option DsetInfo)} {did : I32} (h : did.toNat < T.length)
    (heq : T'[did.toNat]? = T[did.toNat]?) : AlikeAt T T' did := by
  cases ho : T[did.toNat]? with
  | none => exact absurd (List.getElem?_eq_none_iff.mp ho) (by omega)
  | some o =>
    rw [ho] at heq
    have hd := dsetAt_eq_ok.mpr ho
    have hd' := dsetAt_eq_ok.mpr heq
    cases o with
    | none => exact .closed hd hd'
    | some d => exact .isOpen d d hd hd' ⟨rfl, rfl⟩

/-- The sections of recorded metadata are of datasets that are there. -/
theorem recorded_did_lt (Ds : Recorded P share dsets) : ∀ D ∈ Ds, ∀ x ∈ D.secs.flatten,
    x.hdr.did.toNat < dsets.length := by
  intro D _ x hx
  have h := Parses.did_lt (Parses.flatten D.holds 0 []) x hx
  rwa [List.length_map] at h

section Steps

variable (L : ∀ {d d' : DsetInfo}, d.Alike d' → P.plain d = P.plain d' ∧ P.ref d = P.ref d')

include L

/-- **A dataset is created**: nothing is recorded of it. -/
theorem RankInv.create (h : RankInv P share dsets mdsets r) (d : DsetInfo) :
    RankInv P share (dsets ++ [d]) mdsets (r.create d) := by
  have hlen := h.table
  have hidx : (r.create d).idx = r.idx ++ [[]] := by
    show r.idx ++ List.replicate (r.file.dsetsInfo.length + 1 - r.idx.length) [] = _
    rw [h.idx, hlen, Nat.add_sub_cancel_left]
    rfl
  refine ⟨?_, ?_, ?_, ?_, ?_⟩
  · show (r.file.dsetsInfo ++ [some d]).length = _
    rw [List.length_append, List.length_append, hlen]
    rfl
  · -- The new dataset is at the end of both tables, the others are where they were.
    intro i d₁ hd₁
    have hd₁ : (r.file.dsetsInfo ++ [some d])[i]? = some (some d₁) := hd₁
    by_cases hi : i < dsets.length
    · rw [List.getElem?_append_left (by omega)] at hd₁
      rw [List.getElem?_append_left hi]
      exact h.described i d₁ hd₁
    · rw [List.getElem?_append_right (by omega), hlen] at hd₁
      rw [List.getElem?_append_right (by omega)]
      obtain ⟨hlt, hget⟩ := List.getElem?_eq_some_iff.mp hd₁
      have hz : i - dsets.length = 0 := by simpa using hlt
      simp only [hz] at hd₁ ⊢
      exact ⟨d, rfl, (Option.some.inj (Option.some.inj hd₁)) ▸ ⟨rfl, rfl⟩⟩
  · rw [hidx, List.length_append, List.length_append, h.idx]
    rfl
  · intro hv dsets' Ds hDs D hD x hx
    have hlt := h.below hv dsets' Ds hDs D hD x hx
    rw [List.length_append]
    omega
  · -- Entries recorded so far are of datasets below the new one, so the smaller table parses them as well.
    intro hv Ds hDs i hi
    have hbelow := h.below hv _ Ds hDs
    obtain ⟨Ds₀, hc, hs, hh⟩ := @exists_retable_alike E V P share ((dsets ++ [d]).map some) (dsets.map some) L Ds
      (by
        intro D hD x hx
        have hlt := hbelow D hD x hx
        apply alikeAt_congr
        · rw [List.length_map, List.length_append]
          omega
        · rw [List.getElem?_map, List.getElem?_map, List.getElem?_append_left hlt])
    have hreqs : recordedReqs Ds₀ = recordedReqs Ds := by
      rw [recordedReqs, recordedReqs, hs]
    have hheld : recordedHeld Ds₀ = recordedHeld Ds := by
      rw [recordedHeld, recordedHeld, hh]
    by_cases hlt : i < dsets.length
    · have hopen : (r.create d).isOpen i = r.isOpen i := by
        show ((r.file.dsetsInfo ++ [some d])[i]?.join).isSome = _
        rw [List.getElem?_append_left (by omega)]
        rfl
      have hold := h.holds hv Ds₀ (hDs.trans hc.symm) i hlt
      rw [hidx, List.getElem?_append_left (by rw [h.idx]; exact hlt), hold, hopen, hreqs, hheld]
    · have heq : i = dsets.length := by
        rw [List.length_append, List.length_singleton] at hi
        omega
      have hnone : entriesOf i (recordedReqs Ds) (recordedHeld Ds) = [] := by
        apply entriesOf_nil
        intro x hx hdid
        obtain ⟨rs, hrs, hx⟩ := List.mem_flatten.mp hx
        obtain ⟨D, hD, hrs⟩ := List.mem_flatMap.mp hrs
        have hlt' := hbelow D hD x (List.mem_flatten_of_mem hrs hx)
        omega
      rw [hnone, ite_self, hidx, List.getElem?_append_right (by rw [h.idx]; omega), h.idx, heq, Nat.sub_self]
      rfl

/-- **The attributes of datasets change**, not their shapes. -/
theorem RankInv.describe {dsets' : List DsetInfo} (h : RankInv P share dsets mdsets r)
    (hD : List.Forall₂ DsetInfo.Alike dsets dsets') : RankInv P share dsets' mdsets r := by
  have hlen := hD.length_eq
  have hget : ∀ (i : ℕ) (d : DsetInfo), dsets[i]? = some d → ∃ d', dsets'[i]? = some d' ∧ d.Alike d' := by
    intro i d hd
    obtain ⟨hi, rfl⟩ := List.getElem?_eq_some_iff.mp hd
    have hi' : i < dsets'.length := by omega
    exact ⟨dsets'[i], List.getElem?_eq_getElem hi', (List.forall₂_iff_get.mp hD).2 i hi hi'⟩
  refine ⟨h.table.trans hlen, ?_, h.idx.trans hlen, ?_, ?_⟩
  · intro i d hd
    obtain ⟨d₁, hd₁, h₁⟩ := h.described i d hd
    obtain ⟨d₂, hd₂, h₂⟩ := hget i d₁ hd₁
    exact ⟨d₂, hd₂, h₁.esize.trans h₂.esize, h₁.ndim.trans h₂.ndim⟩
  · rw [← hlen]
    exact h.below
  · intro hv Ds hDs i hi
    obtain ⟨Ds₀, hc, hs, hh⟩ := @exists_retable_alike E V P share (dsets'.map some) (dsets.map some) L Ds
      (by
        intro D hDmem x hx
        have hlt := recorded_did_lt Ds D hDmem x hx
        have hlt₀ : x.hdr.did.toNat < dsets.length := by omega
        obtain ⟨d', hd', halike⟩ := hget _ _ (List.getElem?_eq_getElem hlt₀)
        refine .isOpen d' dsets[x.hdr.did.toNat] ?_ ?_ ⟨halike.esize.symm, halike.ndim.symm⟩
        · rw [dsetAt_eq_ok, List.getElem?_map, hd']
          rfl
        · rw [dsetAt_eq_ok, List.getElem?_map, List.getElem?_eq_getElem hlt₀]
          rfl)
    have hold := h.holds hv Ds₀ (hDs.trans hc.symm) i (by omega)
    rw [hold, recordedReqs, recordedReqs, recordedHeld, recordedHeld, hs, hh]

omit L in
/-- **A process changes the extent of a dataset**: its description stays alike. -/
theorem RankInv.alike (h : RankInv P share dsets mdsets r) {id : ℕ} {f : DsetInfo → DsetInfo}
    (hf : ∀ d, (f d).Alike d) (hfile : r'.file.dsetsInfo = r.file.dsetsInfo.modify id fun d => d.map f)
    (hidx : r'.idx = r.idx) (hvalid : r'.idxvalid = r.idxvalid) : RankInv P share dsets mdsets r' := by
  have hget : ∀ i : ℕ, r'.file.dsetsInfo[i]? = r.file.dsetsInfo[i]? ∨
      r'.file.dsetsInfo[i]? = r.file.dsetsInfo[i]?.map (Option.map f) := by
    intro i
    by_cases hi : id = i
    · right
      simp [hfile, hi]
    · left
      simp [hfile, hi]
  -- Only the description changes, and an index is made from nothing of it but rank and element size.
  refine ⟨?_, ?_, ?_, ?_, ?_⟩
  · rw [hfile, List.length_modify, h.table]
  · intro i d hd
    rcases hget i with heq | heq
    · exact h.described i d (heq ▸ hd)
    · rw [heq] at hd
      obtain ⟨o, ho, hmap⟩ := Option.map_eq_some_iff.mp hd
      obtain ⟨d₀, rfl, rfl⟩ := Option.map_eq_some_iff.mp hmap
      obtain ⟨d', hd', halike⟩ := h.described i d₀ ho
      exact ⟨d', hd', (hf d₀).esize.trans halike.esize, (hf d₀).ndim.trans halike.ndim⟩
  · rw [hidx, h.idx]
  · rw [hvalid]
    exact h.below
  · rw [hvalid, hidx]
    intro hv Ds hDs i hi
    have hopen : r'.isOpen i = r.isOpen i := by
      rw [IdxRank.isOpen, IdxRank.isOpen]
      rcases hget i with heq | heq
      · rw [heq]
      · rw [heq]
        cases r.file.dsetsInfo[i]? with
        | none => rfl
        | some o => cases o <;> rfl
    rw [hopen]
    exact h.holds hv Ds hDs i hi

omit L in
/-- **A dataset is opened for the first time**, of which nothing is recorded or while the index is not
valid. -/
theorem RankInv.openDset (h : RankInv P share dsets mdsets r) {id : ℕ}
    (hrec : r.idxvalid = true → r.file.dsetsInfo[id]? = some none →
      ∀ Ds : Recorded P share dsets, mdsets = Ds.map MetaDset.content →
        entriesOf id (recordedReqs Ds) (recordedHeld Ds) = []) :
    RankInv P share dsets mdsets (r.openDset dsets id) := by
  unfold IdxRank.openDset
  split
  · rename_i hclosed
    obtain ⟨hid, -⟩ := List.getElem?_eq_some_iff.mp hclosed
    have hget : ∀ i : ℕ, (r.file.dsetsInfo.set id dsets[id]?)[i]? =
        if id = i then some dsets[id]? else r.file.dsetsInfo[i]? := by
      intro i
      rw [List.getElem?_set]
      by_cases hi : id = i
      · rw [if_pos hi, if_pos hi, if_pos hid]
      · rw [if_neg hi, if_neg hi]
    refine ⟨?_, ?_, h.idx, h.below, ?_⟩
    · rw [List.length_set, h.table]
    · intro i d hd
      have hd : (r.file.dsetsInfo.set id dsets[id]?)[i]? = some (some d) := hd
      rw [hget] at hd
      by_cases hi : id = i
      · rw [if_pos hi] at hd
        exact ⟨d, hi ▸ Option.some.inj hd, rfl, rfl⟩
      · rw [if_neg hi] at hd
        exact h.described i d hd
    · intro hv Ds hDs i hi
      have hold := h.holds hv Ds hDs i hi
      by_cases hii : id = i
      · subst hii
        have hno : r.isOpen id = false := by
          rw [IdxRank.isOpen, hclosed]
          rfl
        rw [hno] at hold
        show r.idx[id]? = _
        rw [hold, hrec hv hclosed Ds hDs, ite_self]
        simp
      · have hopen : (({ r with file := { r.file with
            dsetsInfo := r.file.dsetsInfo.set id dsets[id]? } } : IdxRank E).isOpen i) = r.isOpen i := by
          show ((r.file.dsetsInfo.set id dsets[id]?)[i]?.join).isSome = _
          rw [hget, if_neg hii]
          rfl
        rw [hopen]
        exact hold
  · exact h

omit L in
/-- What a load that ends has met: as many datasets in the index, and metadata of datasets of the table. -/
theorem metaupdate_met {index : List (Option DsetInfo) → LogIdx E} (hL : LoadsAs P share index)
    {T : List (Option DsetInfo)} {ds : List (List UInt8)} {idx idx' : List (List E)}
    (h : metaupdate (index T) ds idx = .ok idx') :
    idx'.length = idx.length ∧ ∀ (T' : List (Option DsetInfo)) (Ds : List (MetaDset P share T')),
      ds = Ds.map MetaDset.content → ∀ D ∈ Ds, ∀ x ∈ D.secs.flatten, x.hdr.did.toNat < T.length := by
  have hfold : ∀ (ds : List (List UInt8)) (idx₁ : List (List E)),
      ds.foldlM (fun idx ds => metaupdateDset (index T) ds idx) idx₁ = .ok idx' →
      idx'.length = idx₁.length ∧ ∀ (T' : List (Option DsetInfo)) (Ds : List (MetaDset P share T')),
        ds = Ds.map MetaDset.content → ∀ D ∈ Ds, ∀ x ∈ D.secs.flatten, x.hdr.did.toNat < T.length := by
    intro ds
    induction ds with
    | nil =>
      intro idx₁ h₁
      obtain rfl := Except.ok.inj h₁
      refine ⟨rfl, ?_⟩
      intro T' Ds hDs D hD
      rw [List.map_eq_nil_iff.mp hDs.symm] at hD
      exact absurd hD List.not_mem_nil
    | cons d ds ih =>
      intro idx₁ h₁
      rw [List.foldlM_cons] at h₁
      obtain ⟨idx₂, h₂, h₁⟩ := Lib.bind_eq_ok.mp h₁
      obtain ⟨hlen, hrest⟩ := ih idx₂ h₁
      have hlen₂ : idx₂.length = idx₁.length := by
        unfold metaupdateDset at h₂
        obtain ⟨nsec, -, h₂⟩ := Lib.bind_eq_ok.mp h₂
        obtain ⟨buf, -, h₂⟩ := Lib.bind_eq_ok.mp h₂
        exact hL.length h₂
      refine ⟨hlen.trans hlen₂, ?_⟩
      intro T' Ds hDs
      obtain ⟨D, Ds, rfl, hd, hds⟩ := List.map_eq_cons_iff.mp hDs.symm
      refine List.forall_mem_cons.mpr ⟨?_, hrest T' Ds hds.symm⟩
      rw [← hd, MetaDset.metaupdateDset_content] at h₂
      exact hL.did_lt (Parses.wellSized (Parses.flatten D.holds 0 [])) h₂
  obtain ⟨hlen, hdid⟩ := hfold ds _ h
  rw [clearIdx_eq, length_idxOf] at hlen
  exact ⟨hlen, hdid⟩

/-- **The metadata is loaded**, and the references of open datasets lead to open ones. -/
theorem RankInv.loaded {index : List (Option DsetInfo) → LogIdx E} (hL : LoadsAs P share index)
    (h : RankInv P share dsets mdsets r)
    (hrefs : ∀ Ds : Recorded P share dsets, mdsets = Ds.map MetaDset.content → ∀ D ∈ Ds, ∀ rs ∈ D.secs,
      RefsOpen share (fun i => !r.isOpen i) 0 [] rs) {idx : List (List E)}
    (hload : metaupdate (index r.file.dsetsInfo) mdsets r.idx = .ok idx) :
    RankInv P share dsets mdsets { r with idx := idx, idxvalid := true } := by
  obtain ⟨hlen, hdid⟩ := metaupdate_met hL hload
  refine ⟨h.table, h.described, hlen.trans h.idx, ?_, ?_⟩
  · intro _ T' Ds hDs D hD x hx
    have hlt := hdid T' Ds hDs D hD x hx
    rwa [h.table] at hlt
  · intro _ Ds hDs i hi
    -- the sections, with the table of the process
    have hsec : ∀ D ∈ Ds, List.Forall₂ (SectionHolds P share r.file.dsetsInfo) D.secs
        (List.zipWith (hide fun i => !r.isOpen i) D.secs D.held) := by
      intro D hD
      have hrefs := hrefs Ds hDs D hD
      have hlt := recorded_did_lt Ds D hD
      have hholds := D.holds
      generalize D.secs = secs at hrefs hlt hholds
      generalize D.held = held at hholds
      induction hholds with
      | nil => exact List.Forall₂.nil
      | @cons rs os secs held hsec _ ih =>
        rw [List.zipWith_cons_cons]
        refine List.Forall₂.cons ?_ (ih (fun rs hrs => hrefs rs (List.mem_cons_of_mem _ hrs))
          fun x hx => hlt x (List.mem_append_right _ hx))
        have hmasked := Parses.unlinked hsec (masks_nil _) (hrefs rs (List.mem_cons_self ..))
        refine Parses.retable L hmasked ?_
        intro x hx
        have hxlt : x.hdr.did.toNat < dsets.length := hlt x (List.mem_append_left _ hx)
        have hall : dsetAt (dsets.map some) x.hdr.did = .ok (some dsets[x.hdr.did.toNat]) := by
          rw [dsetAt_eq_ok, List.getElem?_map, List.getElem?_eq_getElem hxlt]
          rfl
        have hun := dsetAt_unlink (U := fun i => !r.isOpen i) hall
        have hT : x.hdr.did.toNat < r.file.dsetsInfo.length := by
          rw [h.table]
          exact hxlt
        cases ho : r.file.dsetsInfo[x.hdr.did.toNat] with
        | none =>
          have hget : r.file.dsetsInfo[x.hdr.did.toNat]? = some none := by
            rw [List.getElem?_eq_getElem hT, ho]
          have hno : r.isOpen x.hdr.did.toNat = false := by
            rw [IdxRank.isOpen, hget]
            rfl
          rw [hno] at hun
          exact .closed hun (dsetAt_eq_ok.mpr hget)
        | some d =>
          have hget : r.file.dsetsInfo[x.hdr.did.toNat]? = some (some d) := by
            rw [List.getElem?_eq_getElem hT, ho]
          have hyes : r.isOpen x.hdr.did.toNat = true := by
            rw [IdxRank.isOpen, hget]
            rfl
          obtain ⟨d', hd', halike⟩ := h.described _ d hget
          rw [List.getElem?_eq_getElem hxlt] at hd'
          obtain rfl := Option.some.inj hd'
          rw [hyes] at hun
          exact .isOpen _ d hun (dsetAt_eq_ok.mpr hget) ⟨halike.esize.symm, halike.ndim.symm⟩
    obtain ⟨Ds', hc, hs, hh⟩ := exists_retable Ds hsec
    have hidx : r.file.dsetsInfo.length ≤ r.idx.length := by rw [h.table, h.idx]
    rw [hDs, ← hc, metaupdate_content (hL.indexes _) Ds' hidx, hs, hh] at hload
    obtain rfl := Except.ok.inj hload
    have hone := entriesOf_loaded (U := fun i => !r.isOpen i) i Ds
    rw [recordedReqs] at hone
    rw [getElem?_idxOf, if_pos (by rw [h.idx]; exact hi), hone, recordedReqs]
    show some (if (!r.isOpen i) = true then _ else _) = some (if r.isOpen i = true then _ else _)
    cases r.isOpen i with
    | true => rfl
    | false => rfl

end Steps

end Invariant

/-! ## §7 — the table of a process. -/

theorem queueReq_table (c : WriteCall) (f : RankFile) (r : WReq) (db : DataBlock) :
    (queueReq c f r db).1.dsetsInfo = f.dsetsInfo := by
  unfold queueReq
  split <;> rfl

theorem appendMerged_table (c : WriteCall) (dip : DsetInfo) (f : RankFile) (m : MergedWReq) (db : DataBlock) :
    (appendMerged c dip f m db).1.dsetsInfo = f.dsetsInfo := by
  unfold appendMerged
  dsimp only
  split
  · rfl
  · split
    · split <;> rfl
    · split
      · rfl
      · split <;> rfl

theorem enqueue_table (env : FileEnv) (c : WriteCall) (dip : DsetInfo) (f : RankFile) (r : WReq)
    (db : DataBlock) : (enqueue env c dip f r db).1.dsetsInfo = f.dsetsInfo := by
  unfold enqueue
  split
  · split
    · rfl
    · apply appendMerged_table
    · split
      · apply appendMerged_table
      · rfl
  · apply queueReq_table

theorem encodeReq_table (env : FileEnv) (c : WriteCall) (f : RankFile) (r : WReq) :
    (encodeReq env c f r).1.dsetsInfo = f.dsetsInfo := by
  obtain ⟨⟨table, zbsize, zbuf, heq⟩, -⟩ := encodeReq_file env c f r
  rw [heq]

theorem data_table (env : FileEnv) (c : WriteCall) (dip : DsetInfo) (f : RankFile) :
    ((takeData env c dip f).andThen (filterData env c dip)).1.dsetsInfo = f.dsetsInfo := by
  rcases data_cases env c dip f with ⟨⟨e, heq⟩, -⟩ | ⟨⟨e, heq⟩, -⟩ | ⟨⟨db, heq⟩, -⟩
  · rw [heq]
  · rw [heq]
  · rw [heq]

/-- A stage that keeps the table, after one that does. -/
theorem andThen_table {α β : Type} {f : RankFile} {o : Outcome α} {k : RankFile → α → Outcome β}
    (ho : o.1.dsetsInfo = f.dsetsInfo) (hk : ∀ f a, (k f a).1.dsetsInfo = f.dsetsInfo) :
    (o.andThen k).1.dsetsInfo = f.dsetsInfo := by
  obtain ⟨f₁, x⟩ := o
  cases x with
  | error e => exact ho
  | ok a => exact (hk f₁ a).trans ho

/-- **A write** opens and closes nothing. -/
theorem datasetWrite_table (env : FileEnv) (c : WriteCall) (f : RankFile) :
    (datasetWrite env c f).1.dsetsInfo = f.dsetsInfo := by
  unfold datasetWrite
  split
  · rfl
  · split
    · rfl
    · split
      · split
        · rfl
        · split
          · rfl
          · split
            · rfl
            · unfold writeReq
              apply andThen_table (encodeReq_table env c f _)
              intro f r
              rw [← andThen_assoc]
              apply andThen_table (data_table env c _ f)
              intro f db
              apply enqueue_table
      · rfl

theorem localFlush_table {config : I32} {f : RankFile} {l : LocalFlush} (h : localFlush config f = .ok l) :
    l.file.dsetsInfo = f.dsetsInfo := by
  rcases (localFlush_cases h).2 with ⟨-, rfl⟩ | ⟨-, -, bytes, rfl⟩
  · rfl
  · rfl

/-- The same processes, each with its table. -/
def SameTables (files files' : List RankFile) : Prop :=
  List.Forall₂ (fun f f' => f'.dsetsInfo = f.dsetsInfo) files files'

theorem sameTables_map {files : List RankFile} {change : RankFile → RankFile}
    (h : ∀ f, (change f).dsetsInfo = f.dsetsInfo) : SameTables files (files.map change) := by
  rw [SameTables, List.forall₂_map_right_iff, List.forall₂_same]
  intro f _
  exact h f

theorem SameTables.trans {files files' files'' : List RankFile} (h : SameTables files files')
    (h' : SameTables files' files'') : SameTables files files'' := by
  unfold SameTables at h h' ⊢
  induction h generalizing files'' with
  | nil =>
    rw [List.forall₂_nil_left_iff.mp h']
    exact List.Forall₂.nil
  | cons heq _ ih =>
    obtain ⟨f'', fs'', heq', hrest, rfl⟩ := List.forall₂_cons_left_iff.mp h'
    exact List.Forall₂.cons (heq'.trans heq) (ih hrest)

/-- What the processes have ready, as files. -/
theorem locals_table {config : I32} {files : List RankFile} {locals : List LocalFlush}
    (h : files.mapM (localFlush config) = .ok locals) : SameTables files (locals.map LocalFlush.file) := by
  rw [SameTables, List.forall₂_map_right_iff]
  exact (Lib.mapM_eq_ok_iff.mp h).imp fun _ _ => localFlush_table

theorem flushGroup_table (doff : HSize) (locals : List LocalFlush) (file : Lib.Store) :
    SameTables (locals.map LocalFlush.file) (flushGroup doff locals file).ranks := by
  unfold flushGroup
  dsimp only
  split
  · exact List.forall₂_same.mpr fun _ _ => rfl
  · rename_i hne
    clear hne
    generalize hbases : exscan 0 (locals.map LocalFlush.fsizeLocal) = bases
    have hlen : bases.length = locals.length := by
      rw [← hbases, exscan_length, List.length_map]
    clear hbases
    induction locals generalizing bases with
    | nil =>
      rw [List.length_eq_zero_iff.mp hlen]
      exact List.Forall₂.nil
    | cons l locals ih =>
      cases bases with
      | nil => cases hlen
      | cons base bases => exact List.Forall₂.cons rfl (ih bases (Nat.succ.inj hlen))

/-- **A flush** opens and closes nothing. -/
theorem flushWriteReqs_table {config : I32} {doff : ℕ → HSize} {g : Group} {others groups : List Group}
    (h : flushWriteReqs config doff (g :: others) = .ok groups) :
    SameTables g.ranks (groups.head?.elim [] Group.ranks) := by
  unfold flushWriteReqs at h
  obtain ⟨locals, hl, h⟩ := Lib.bind_eq_ok.mp h
  obtain ⟨ls, lss, hls, hlss, rfl⟩ := List.forall₂_cons_left_iff.mp (Lib.mapM_eq_ok_iff.mp hl)
  have hls := locals_table hls
  dsimp only at h
  split at h
  · obtain rfl := Except.ok.inj h
    exact hls
  · obtain rfl := Except.ok.inj h
    rw [List.zip_cons_cons, List.mapIdx_cons]
    show SameTables g.ranks ((flushGroup (doff 0) ls g.file).ranks.map fun f => { f with metadirty := true })
    have hmark : SameTables (flushGroup (doff 0) ls g.file).ranks
        ((flushGroup (doff 0) ls g.file).ranks.map fun f => { f with metadirty := true }) :=
      sameTables_map fun _ => rfl
    exact hls.trans (flushGroup_table (doff 0) ls g.file) |>.trans hmark

/-! ## §8 — every call keeps the invariant. -/

theorem setExtent_table (encode : Bool) (id : ℕ) (sizes : ℕ → HSize) (r : IdxRank E) :
    (r.setExtent encode id sizes).file.dsetsInfo =
      r.file.dsetsInfo.modify id fun d => d.map (DsetInfo.setExtent encode sizes) :=
  setExtent_dsetsInfo encode id sizes r.file []

/-- A new extent has as many dimensions. -/
theorem setExtent_alike (encode : Bool) (sizes : ℕ → HSize) (d : DsetInfo) :
    (d.setExtent encode sizes).Alike d := by
  have hdims : (d.adjust sizes).ndim = d.ndim := by
    show (d.dims.mapIdx _).length = d.dims.length
    apply List.length_mapIdx
  unfold DsetInfo.setExtent
  split
  · exact ⟨rfl, hdims⟩
  · exact ⟨rfl, hdims⟩

theorem storeExtent_alike (encode : Bool) (sizes : ℕ → HSize) (d : DsetInfo) :
    (d.storeExtent encode sizes).Alike d := by
  unfold DsetInfo.storeExtent
  split
  · exact ⟨rfl, rfl⟩
  · exact setExtent_alike encode sizes d

theorem modify_alike {dsets : List DsetInfo} {id : ℕ} {f : DsetInfo → DsetInfo} (hf : ∀ d, (f d).Alike d) :
    List.Forall₂ DsetInfo.Alike dsets (dsets.modify id f) := by
  rw [List.forall₂_iff_get]
  refine ⟨(List.length_modify ..).symm, ?_⟩
  intro i hi hi'
  show dsets[i].Alike (dsets.modify id f)[i]
  rw [List.getElem_modify]
  split
  · exact ⟨(hf _).esize.symm, (hf _).ndim.symm⟩
  · exact ⟨rfl, rfl⟩

section Group

variable {V : Type} (P : EntryParser E V) (share : Bool)

/-- **`Inv`** — the processes fit the file, and know all its metadata datasets. With a limit no index is ever
valid. -/
structure IdxGroup.Inv (limit : Option HSize) (g : IdxGroup E) : Prop where
  ranks : ∀ r ∈ g.ranks, RankInv P share g.dsets g.mdsets r
  nmdset : g.nmdset = g.mdsets.length
  limited : limit ≠ none → ∀ r ∈ g.ranks, r.idxvalid = false

variable {P share} {e : IdxEnv E} {g g' : IdxGroup E} {limit : Option HSize}

namespace IdxGroup

/-- **Just opened.** -/
theorem JustOpened.inv (h : g.JustOpened) (limit : Option HSize) : g.Inv P share limit where
  ranks := by
    intro r hr
    have hv := h.invalid r hr
    refine ⟨h.table r hr, ?_, h.idx r hr, ?_, ?_⟩
    · intro i d hd
      exact ⟨d, h.described r hr i d hd, rfl, rfl⟩
    · rw [hv]
      exact nofun
    · rw [hv]
      exact nofun
  nmdset := h.nmdset
  limited := fun _ => h.invalid

/-- A process takes its new file. -/
theorem mem_withFiles {files : List RankFile} (h : SameTables (g.ranks.map IdxRank.file) files)
    {r' : IdxRank E} (hr : r' ∈ (g.withFiles files).ranks) :
    ∃ r ∈ g.ranks, r'.file.dsetsInfo = r.file.dsetsInfo ∧ r'.idx = r.idx ∧ r'.idxvalid = r.idxvalid := by
  unfold withFiles at hr
  generalize g.ranks = ranks at h hr
  unfold SameTables at h
  rw [List.forall₂_map_left_iff] at h
  induction h with
  | nil => exact absurd hr List.not_mem_nil
  | @cons r f ranks files hf _ ih =>
    rcases List.mem_cons.mp hr with rfl | hr
    · exact ⟨r, List.mem_cons_self .., hf, rfl, rfl⟩
    · obtain ⟨r₀, hr₀, hsame⟩ := ih hr
      exact ⟨r₀, List.mem_cons_of_mem _ hr₀, hsame⟩

theorem Inv.withFiles (h : g.Inv P share limit) {files : List RankFile}
    (hfiles : SameTables (g.ranks.map IdxRank.file) files) : (g.withFiles files).Inv P share limit where
  ranks := by
    intro r hr
    obtain ⟨r₀, hr₀, hfile, hidx, hvalid⟩ := mem_withFiles hfiles hr
    exact (h.ranks r₀ hr₀).congr hfile hidx hvalid
  nmdset := h.nmdset
  limited := by
    intro hlim r hr
    obtain ⟨r₀, hr₀, -, -, hvalid⟩ := mem_withFiles hfiles hr
    rw [hvalid]
    exact h.limited hlim r₀ hr₀

/-- One process changes, by itself. -/
theorem Inv.modify (h : g.Inv P share limit) {i : ℕ} {f : IdxRank E → IdxRank E}
    (hf : ∀ r, g.ranks[i]? = some r → RankInv P share g.dsets g.mdsets (f r))
    (hvalid : ∀ r, (f r).idxvalid = r.idxvalid) :
    ({ g with ranks := g.ranks.modify i f } : IdxGroup E).Inv P share limit where
  ranks := by
    intro r hr
    rcases mem_modify hr with hr | ⟨r₀, hr₀, rfl⟩
    · exact h.ranks r hr
    · exact hf r₀ hr₀
  nmdset := h.nmdset
  limited := by
    intro hlim r hr
    rcases mem_modify hr with hr | ⟨r₀, hr₀, rfl⟩
    · exact h.limited hlim r hr
    · rw [hvalid]
      exact h.limited hlim r₀ (List.mem_of_getElem? hr₀)

/-- **Metadata is written**: no index is valid, and one more dataset is known. -/
theorem Inv.metaflush (h : g.Inv P share limit) (hs : g.metaflush e = .ok g') : g'.Inv P share limit := by
  unfold IdxGroup.metaflush at hs
  obtain ⟨⟨group, md⟩, hgroup, hs⟩ := Lib.bind_eq_ok.mp hs
  have htables : SameTables (g.ranks.map IdxRank.file) group.ranks := by
    unfold metaflushGroup at hgroup
    obtain ⟨locals, -, hgroup⟩ := Lib.bind_eq_ok.mp hgroup
    obtain ⟨rfl, -⟩ := Prod.mk.inj (Except.ok.inj hgroup)
    exact sameTables_map fun _ => rfl
  dsimp only at hs
  split at hs
  · cases hs
  split at hs
  · cases hs
  · obtain rfl := Except.ok.inj hs
    refine ⟨?_, ?_, ?_⟩
    · intro r hr
      obtain ⟨r₁, hr₁, rfl⟩ := List.mem_map.mp hr
      obtain ⟨r₀, hr₀, hfile, hidx, -⟩ := mem_withFiles htables hr₁
      apply (h.ranks r₀ hr₀).invalid
      · exact hfile
      · exact congrArg List.length hidx
      · rfl
    · show g.nmdset + md.length = (g.mdsets ++ md).length
      rw [h.nmdset, List.length_append]
    · intro _ r hr
      obtain ⟨r₁, -, rfl⟩ := List.mem_map.mp hr
      rfl

theorem Inv.cleanMeta (h : g.Inv P share limit) (hs : g.cleanMeta e = .ok g') : g'.Inv P share limit := by
  unfold IdxGroup.cleanMeta at hs
  split at hs
  · split at hs
    · exact h.metaflush hs
    · cases hs
  · exact Except.ok.inj hs ▸ h

end IdxGroup

/-- Loading in parts keeps the number of datasets. -/
theorem partIdx_length (hL : LoadsAs P share e.index) {T : List (Option DsetInfo)} {limit : HSize}
    {mdsets : List (List UInt8)} {fuel : ℕ} {cursor : I32 × I32} {idx idx' : List (List E)}
    (h : partIdx (e.index T) limit mdsets fuel cursor idx = .ok idx') : idx'.length = idx.length := by
  induction fuel generalizing cursor idx with
  | zero => cases h
  | succ fuel ih =>
    rw [partIdx] at h
    split at h
    · exact congrArg List.length (Except.ok.inj h).symm
    · obtain ⟨⟨idx₁, cursor₁, buf⟩, hpart, h⟩ := Lib.bind_eq_ok.mp h
      refine (ih h).trans ?_
      unfold metaupdatePart at hpart
      split at hpart
      · cases hpart
      · obtain ⟨nsec, -, hpart⟩ := Lib.bind_eq_ok.mp hpart
        obtain ⟨offs, -, hpart⟩ := Lib.bind_eq_ok.mp hpart
        split at hpart
        · cases hpart
        · obtain ⟨buf, -, hpart⟩ := Lib.bind_eq_ok.mp hpart
          obtain ⟨idx₂, hparse, hpart⟩ := Lib.bind_eq_ok.mp hpart
          obtain ⟨rfl, -⟩ := Prod.mk.inj (Except.ok.inj hpart)
          rw [hL.length hparse, clearIdx, List.length_map]

/-- **A process reads.** -/
theorem RankInv.load {dsets : List DsetInfo} {mdsets : List (List UInt8)} {r : IdxRank E}
    (hL : LoadsAs P share e.index) (h : RankInv P share dsets mdsets r)
    (hlim : e.limit ≠ none → r.idxvalid = false)
    (hrefs : r.idxvalid = false → ∀ Ds : Recorded P share dsets, mdsets = Ds.map MetaDset.content → ∀ D ∈ Ds,
      ∀ rs ∈ D.secs, RefsOpen share (fun i => !r.isOpen i) 0 [] rs) :
    RankInv P share dsets mdsets (r.load e mdsets.length mdsets) ∧
      (e.limit ≠ none → (r.load e mdsets.length mdsets).idxvalid = false) := by
  -- what is in the index does not matter while it is not valid
  have hidx : ∀ idx : List (List E), idx.length = r.idx.length → ∀ b : Bool, b = false →
      RankInv P share dsets mdsets { r with idx := idx, idxvalid := b } := by
    intro idx hlen b hb
    apply h.invalid
    · rfl
    · exact hlen
    · exact hb
  have hclear : (clearIdx r.idx).length = r.idx.length := List.length_map ..
  unfold IdxRank.load
  rw [List.take_length]
  split
  · rename_i hnone
    refine ⟨?_, fun hsome => absurd hnone hsome⟩
    cases hv : r.idxvalid with
    | true =>
      rw [if_pos rfl]
      exact h
    | false =>
      rw [if_neg Bool.false_ne_true]
      split
      · rename_i idx hload
        rw [decide_eq_true (le_refl mdsets.length)]
        exact h.loaded hL.alike hL (hrefs hv) hload
      · exact hidx _ hclear false rfl
  · rename_i limit hsome
    have hv : r.idxvalid = false := hlim (by rw [hsome]; exact nofun)
    split
    · rename_i idx hload
      exact ⟨hidx idx (partIdx_length hL hload) _ hv, fun _ => hv⟩
    · exact ⟨hidx _ hclear _ hv, fun _ => hv⟩

namespace IdxGroup

/-- **One call.** -/
theorem Inv.step (hL : LoadsAs P share e.index) (h : g.Inv P share e.limit) {op : IdxOp}
    (hmeets : g.Meets P share e op) (hs : g.step e op = .ok g') : g'.Inv P share e.limit := by
  cases op with
  | create d =>
    obtain rfl := Except.ok.inj hs
    refine ⟨?_, h.nmdset, ?_⟩
    · intro r hr
      obtain ⟨r₀, hr₀, rfl⟩ := List.mem_map.mp hr
      exact (h.ranks r₀ hr₀).create hL.alike d
    · intro hlim r hr
      obtain ⟨r₀, hr₀, rfl⟩ := List.mem_map.mp hr
      exact h.limited hlim r₀ hr₀
  | openDset i id =>
    obtain rfl := Except.ok.inj hs
    apply h.modify
    · intro r hr
      exact (h.ranks r (List.mem_of_getElem? hr)).openDset (hmeets r hr)
    · intro r
      unfold IdxRank.openDset
      split <;> rfl
  | write i c =>
    obtain rfl := Except.ok.inj hs
    apply h.modify
    · intro r hr
      exact (h.ranks r (List.mem_of_getElem? hr)).congr (datasetWrite_table e.env c r.file) rfl rfl
    · exact fun _ => rfl
  | setExtent i id sizes =>
    obtain rfl := Except.ok.inj hs
    have halike := setExtent_alike (hasFlag e.env.config FileConfig.selEncode) sizes
    have hstored := storeExtent_alike (hasFlag e.env.config FileConfig.selEncode) sizes
    let dsets' := g.dsets.modify id (DsetInfo.storeExtent (hasFlag e.env.config FileConfig.selEncode) sizes)
    have hdescribed : ({ g with dsets := dsets' } : IdxGroup E).Inv P share e.limit :=
      ⟨fun r hr => (h.ranks r hr).describe hL.alike (modify_alike hstored), h.nmdset, h.limited⟩
    apply hdescribed.modify
    · intro r hr
      apply (hdescribed.ranks r (List.mem_of_getElem? hr)).alike halike
      · exact setExtent_table _ id sizes r
      · rfl
      · rfl
    · exact fun _ => rfl
  | flush doff others =>
    obtain ⟨groups, hgroups, hs⟩ := Lib.bind_eq_ok.mp hs
    obtain rfl := Except.ok.inj hs
    exact h.withFiles (flushWriteReqs_table hgroups)
  | read =>
    obtain ⟨g₁, hclean, hs⟩ := Lib.bind_eq_ok.mp hs
    obtain rfl := Except.ok.inj hs
    have h₁ := h.cleanMeta hclean
    have hload : ∀ r ∈ g₁.ranks, RankInv P share g₁.dsets g₁.mdsets (r.load e g₁.nmdset g₁.mdsets) ∧
        (e.limit ≠ none → (r.load e g₁.nmdset g₁.mdsets).idxvalid = false) := by
      intro r hr
      rw [h₁.nmdset]
      exact (h₁.ranks r hr).load hL (fun hlim => h₁.limited hlim r hr) (hmeets g₁ hclean r hr)
    refine ⟨?_, h₁.nmdset, ?_⟩
    · intro r hr
      obtain ⟨r₀, hr₀, rfl⟩ := List.mem_map.mp hr
      exact (hload r₀ hr₀).1
    · intro hlim r hr
      obtain ⟨r₀, hr₀, rfl⟩ := List.mem_map.mp hr
      exact (hload r₀ hr₀).2 hlim
  | metaflush => exact h.metaflush hs

/-- **A run.** -/
theorem Inv.run (hL : LoadsAs P share e.index) {ops : List IdxOp} (h : g.Inv P share e.limit)
    (hmeets : g.RunMeets P share e ops) (hs : g.run e ops = .ok g') : g'.Inv P share e.limit := by
  induction ops generalizing g with
  | nil => exact Except.ok.inj hs ▸ h
  | cons op ops ih =>
    rw [IdxGroup.run, List.foldlM_cons] at hs
    obtain ⟨g₁, hstep, hs⟩ := Lib.bind_eq_ok.mp hs
    exact ih (h.step hL hmeets.1 hstep) (hmeets.2 g₁ hstep) hs

end IdxGroup

/-- Requests of datasets that have the same entries in both indexes. -/
theorem Indexes.searchAll_congr {I : LogIdx E} {dsets : List (Option DsetInfo)} (hI : Indexes I P share dsets)
    {idx idx' : List (List E)} {reqs : List ReadReq}
    (h : ∀ req ∈ reqs, idx[req.did.toNat]? = idx'[req.did.toNat]?) :
    searchAll I idx reqs = searchAll I idx' reqs := by
  obtain ⟨skips, searchEnt, hsearch⟩ := hI.search
  have heq : reqs.mapM (I.search idx) = reqs.mapM (I.search idx') := by
    induction reqs with
    | nil => rfl
    | cons req reqs ih =>
      obtain ⟨hreq, hreqs⟩ := List.forall_mem_cons.mp h
      rw [List.mapM_cons, List.mapM_cons, ih hreqs, hsearch, hsearch, hreq]
  rw [searchAll, searchAll, heq]

/-- **What the invariant says of a valid index.** -/
theorem IdxGroup.Inv.coherent (hL : LoadsAs P share e.index) (h : g.Inv P share limit) {r : IdxRank E}
    (hr : r ∈ g.ranks) : g.Coherent P share e r := by
  have hrank := h.ranks r hr
  have hlt : ∀ i, r.isOpen i = true → i < g.dsets.length := by
    intro i hopen
    rw [← hrank.table]
    by_contra hge
    rw [IdxRank.isOpen, List.getElem?_eq_none (not_lt.mp hge)] at hopen
    cases hopen
  have hentries : r.idxvalid = true → ∀ Ds : Recorded P share g.dsets, g.mdsets = Ds.map MetaDset.content →
      ∀ i, r.isOpen i = true → r.idx[i]? = some (entriesOf i (recordedReqs Ds) (recordedHeld Ds)) := by
    intro hv Ds hDs i hopen
    rw [hrank.holds hv Ds hDs i (hlt i hopen), hopen, if_pos rfl]
  refine ⟨hentries, ?_⟩
  intro hv Ds hDs reqs hreqs
  apply (hL.indexes r.file.dsetsInfo).searchAll_congr
  intro req hreq
  have hopen := hreqs req hreq
  rw [hentries hv Ds hDs _ hopen, getElem?_idxOf, if_pos (hlt _ hopen)]

end Group

/-! ## §9 — the runs. -/

/-- **The index cache is coherent**, the list index and the compact index, in every state of a run that begins
with a file just created or opened, if every dataset is opened for the first time while the index is not valid
or nothing is recorded of it, and every load finds the targets of the references it needs. -/
theorem idxvalid_coherent (env : FileEnv) (z : Option Zlib) (share : Bool) (limit : Option HSize) :
    (∀ (g g' : IdxGroup MetaEntry) (ops : List IdxOp), g.JustOpened →
      g.RunMeets (listParser z) share ⟨env, listIdx z share, limit⟩ ops →
      g.run ⟨env, listIdx z share, limit⟩ ops = .ok g' →
      ∀ r ∈ g'.ranks, g'.Coherent (listParser z) share ⟨env, listIdx z share, limit⟩ r) ∧
    ∀ (g g' : IdxGroup CompactEntry) (ops : List IdxOp), g.JustOpened →
      g.RunMeets (compactParser z) share ⟨env, compactIdx z share, limit⟩ ops →
      g.run ⟨env, compactIdx z share, limit⟩ ops = .ok g' →
      ∀ r ∈ g'.ranks, g'.Coherent (compactParser z) share ⟨env, compactIdx z share, limit⟩ r := by
  constructor
  · intro g g' ops hopened hmeets hrun r hr
    have hL := listIdx_loadsAs z share
    exact ((hopened.inv limit).run hL hmeets hrun).coherent hL hr
  · intro g g' ops hopened hmeets hrun r hr
    have hL := compactIdx_loadsAs z share
    exact ((hopened.inv limit).run hL hmeets hrun).coherent hL hr

/-- Without references. -/
theorem refsOpen_unshared (U : ℕ → Bool) (pos : Int) (seen : PosCache I32) (rs : List WReq) :
    RefsOpen false U pos seen rs := by
  induction rs generalizing pos seen with
  | nil => trivial
  | cons r rs ih => exact And.intro (fun _ => rfl) (ih _ _)

theorem blockDset_nsec : [[blockReq 0 0 2 100 8]].length < 2 ^ 31 := by decide

theorem blockDset_size : (metadataDataset ([[blockReq 0 0 2 100 8]].map sectionMeta)).length < 2 ^ 63 := by decide

/-- A metadata dataset with one block of dataset 0, whose description is in the table. -/
def blockDset : MetaDset (listParser none) false [some (vectorDset 8)] where
  secs := [[blockReq 0 0 2 100 8]]
  held := [[some (blockEntry 0 0 2 100 8)]]
  holds := List.Forall₂.cons (Parses.block 8 rfl Parses.nil) List.Forall₂.nil
  nsec_lt := blockDset_nsec
  size_lt := blockDset_size

/-- The same dataset, read while dataset 0 is not open. -/
theorem exists_blockDset_closed : ∃ D : MetaDset (listParser none) false [none],
    D.secs = blockDset.secs ∧ D.held = [[none]] :=
  blockDset.retable (List.Forall₂.cons (Parses.skip (blockReq_wellSized 0 0 2 100 8) rfl Parses.nil)
    List.Forall₂.nil)

/-- One process that has opened a file with the dataset. -/
def openedGroup (table : List (Option DsetInfo)) (idx : List (List MetaEntry)) (idxvalid : Bool) :
    IdxGroup MetaEntry where
  ranks := [⟨{ freshFile with dsetsInfo := table }, idx, idxvalid⟩]
  dsets := [vectorDset 8]
  nmdset := 1
  mdsets := [blockDset.content]

def openedEnv : IdxEnv MetaEntry := ⟨sharingEnv 64, listIdx none false, none⟩

/-- A load that ends well. -/
theorem load_ok {e : IdxEnv E} {r : IdxRank E} {n : ℕ} {mdsets : List (List UInt8)} {idx : List (List E)}
    (hlim : e.limit = none) (hv : r.idxvalid = false)
    (h : metaupdate (e.index r.file.dsetsInfo) (mdsets.take n) r.idx = .ok idx) :
    r.load e n mdsets = { r with idx := idx, idxvalid := decide (n ≤ mdsets.length) } := by
  unfold IdxRank.load
  simp [hlim, hv, h]

/-- What is read depends on whether the dataset is open. -/
theorem openedGroup_read {table : List (Option DsetInfo)} (D : MetaDset (listParser none) false table)
    (hsecs : D.secs = blockDset.secs) (htable : table.length ≤ 1) :
    (openedGroup table [[]] false).step openedEnv .read =
      .ok (openedGroup table (idxOf 1 D.secs.flatten D.held.flatten) true) := by
  have hcontent : [blockDset.content] = [D].map MetaDset.content := by
    rw [List.map_singleton, MetaDset.content, MetaDset.content, hsecs]
  have hidx : table.length ≤ ([[]] : List (List MetaEntry)).length := htable
  have hload : metaupdate (listIdx none false table) [blockDset.content] [[]] =
      .ok (idxOf 1 D.secs.flatten D.held.flatten) := by
    rw [hcontent, metaupdate_content (listIdx_indexes none false table) [D] hidx]
    simp
  have hrank : IdxRank.load openedEnv 1 [blockDset.content] ⟨{ freshFile with dsetsInfo := table }, [[]], false⟩ =
      ⟨{ freshFile with dsetsInfo := table }, idxOf 1 D.secs.flatten D.held.flatten, true⟩ :=
    @load_ok MetaEntry openedEnv ⟨{ freshFile with dsetsInfo := table }, [[]], false⟩ 1 [blockDset.content] _
      rfl rfl hload
  show Except.ok _ = _
  rw [openedGroup, openedGroup]
  simp only [List.map_cons, List.map_nil, hrank]

theorem openedGroup_justOpened {table : List (Option DsetInfo)}
    (h : table = [none] ∨ table = [some (vectorDset 8)]) : (openedGroup table [[]] false).JustOpened where
  table := by
    intro r hr
    rw [List.mem_singleton.mp hr]
    rcases h with rfl | rfl
    · rfl
    · rfl
  described := by
    intro r hr i d hd
    rw [List.mem_singleton.mp hr] at hd
    have hd : table[i]? = some (some d) := hd
    rcases h with rfl | rfl
    · cases i with
      | zero => cases hd
      | succ i => cases hd
    · cases i with
      | zero => exact Option.some.inj hd
      | succ i => cases hd
  idx := fun r hr => by
    rw [List.mem_singleton.mp hr]
    rfl
  invalid := fun r hr => by
    rw [List.mem_singleton.mp hr]
  nmdset := rfl

/-- The dataset was visited when the file was opened: it is read, and opened again. -/
theorem idxvalid_coherent_visited :
    ∃ g', (openedGroup [some (vectorDset 8)] [[]] false).run openedEnv [.read, .openDset 0 0] = .ok g' ∧
      ∀ r ∈ g'.ranks, g'.Coherent (listParser none) false openedEnv r := by
  have hread := openedGroup_read blockDset rfl le_rfl
  have hrun : (openedGroup [some (vectorDset 8)] [[]] false).run openedEnv [.read, .openDset 0 0] =
      .ok (openedGroup [some (vectorDset 8)]
        (idxOf 1 blockDset.secs.flatten blockDset.held.flatten) true) := by
    rw [IdxGroup.run, List.foldlM_cons, hread]
    rfl
  refine ⟨_, hrun, ?_⟩
  apply (idxvalid_coherent (sharingEnv 64) none false none).1 _ _ _ (openedGroup_justOpened (Or.inr rfl)) _ hrun
  refine ⟨?_, ?_⟩
  · intro g' _ r _ _ Ds _ D _ rs _
    exact refsOpen_unshared _ 0 [] rs
  · intro g' hg'
    obtain rfl := Except.ok.inj (hread.symm.trans hg')
    refine ⟨?_, fun _ _ => trivial⟩
    intro r hr _ hclosed
    obtain rfl := Option.some.inj hr
    cases hclosed

/-- It was not: its entries were skipped, and the index stays valid when it is opened. -/
theorem not_idxvalid_coherent :
    ¬ ∀ (g g' : IdxGroup MetaEntry) (ops : List IdxOp), g.JustOpened → g.run openedEnv ops = .ok g' →
      ∀ r ∈ g'.ranks, g'.Coherent (listParser none) false openedEnv r := by
  intro h
  obtain ⟨D, hsecs, hheld⟩ := exists_blockDset_closed
  have hread := openedGroup_read D hsecs le_rfl
  have hrun : (openedGroup [none] [[]] false).run openedEnv [.read, .openDset 0 0] =
      .ok (openedGroup [some (vectorDset 8)] (idxOf 1 D.secs.flatten D.held.flatten) true) := by
    rw [IdxGroup.run, List.foldlM_cons, hread]
    rfl
  have hcoherent := h _ _ _ (openedGroup_justOpened (Or.inl rfl)) hrun _ (List.mem_singleton.mpr rfl)
  have hentries := hcoherent.entries rfl [blockDset] rfl 0 rfl
  rw [hsecs, hheld] at hentries
  cases hentries

end LogVol
