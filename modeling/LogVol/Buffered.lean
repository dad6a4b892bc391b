/-
# LogVol.Buffered — writes that keep a pointer to the user's buffer.

A queued block is either a copy of the data or the user's own buffer, which the program may have changed by
the time a flush reads it. `LogFile.runStores` is a run of writes and flushes on all ranks in which the
program stores what it likes into the buffers of queued blocks after every call, and `Isolated` says that what
it stores never reaches the file. `buffered_isolated` says which writes keep a run so: whatever is queued is
then a copy, and `RankFile.Internal` is kept by every stage of a write and of a flush.
-/
import LogVol.FailedWrite
import LogVol.MetaFlush

namespace LogVol

/-! ## §1 — the property. -/

/-- A transfer list: of another class, as the default is, or of the right one, with the property
`H5VL_log_nonblocking` if it was inserted. -/
inductive XferPlist
  | notXfer
  | xfer (nonblocking : Option Bool)
  deriving DecidableEq, Repr

/-- `H5Pset_buffered`. -/
def setBuffered (plist : XferPlist) (nonblocking : Bool) : Except Fault XferPlist :=
  match plist with
  | .notXfer => .error (.raised "Not dxplid")
  | .xfer _ => .ok (.xfer (some nonblocking))

/-- **`H5Pget_buffered`**. A list without the property has it `false`. -/
def getBuffered : XferPlist → Bool
  | .notXfer => false
  | .xfer none => false
  | .xfer (some nonblocking) => nonblocking

/-! ## §2 — writes. -/

/-- `H5S_sel_type`. `H5S_ALL` and `H5S_BLOCK` count as `all`. -/
inductive SelType
  | none | points | hyperslabs | all
  deriving DecidableEq, Repr

/-- A call of `H5VL_log_dataset_write` as the program makes it: `buf` is what its buffer holds, `eqtype` what
`H5Tequal` says of the two types, `pack` what `MPI_Pack` takes from the buffer and `convert` what `H5Tconvert`
makes of that. -/
structure UserWrite where
  did : ℕ
  sels : Selections
  plist : XferPlist
  eqtype : ℤ
  mstype : SelType
  memEsize : HSize
  hasBuf : Bool
  buf : List UInt8
  pack : List UInt8 → List UInt8
  convert : List UInt8 → List UInt8
  grants : Grants

namespace UserWrite

/-- Can reuse user buffer. -/
def reuses (w : UserWrite) : Bool :=
  getBuffered w.plist == true && decide (0 < w.eqtype) && w.mstype == .all

/-- The data of the internal buffer, packed or copied, then converted in place. -/
def packed (w : UserWrite) : List UInt8 :=
  let data := if w.mstype ≠ .all then w.pack w.buf else w.buf.take (w.sels.getSelSize * w.memEsize).toNat
  if w.eqtype = 0 then w.convert data else data

def toCall (w : UserWrite) : WriteCall where
  did := w.did
  sels := w.sels
  memEsize := w.memEsize
  inPlace := w.reuses
  hasBuf := w.hasBuf
  data := if w.reuses then w.buf else w.packed
  grants := w.grants

end UserWrite

/-! ## §3 — stores. -/

/-- What the program has stored, by request and block: the bytes the buffer of the block holds. -/
structure Stores where
  queued : ℕ → ℕ → ℕ → UInt8
  merged : ℕ → ℕ → ℕ → UInt8

/-- A block that is a copy is not affected by what the program stores. -/
def DataBlock.store (mem : ℕ → UInt8) (d : DataBlock) : DataBlock :=
  if d.pooled.isNone then { d with xbuf := (List.range d.xbuf.length).map mem } else d

def RankFile.store (st : Stores) (f : RankFile) : RankFile :=
  { f with
    wreqs := f.wreqs.mapIdx fun k r => { r with dbufs := r.dbufs.mapIdx fun j d => d.store (st.queued k j) }
    mreqs := f.mreqs.mapIdx fun k m => m.map fun m =>
      { m with dbufs := m.dbufs.mapIdx fun j d => d.store (st.merged k j) } }

/-! ## §4 — runs. -/

/-- The ranks and the data they have written, by group, and the metadata datasets. -/
structure LogFile where
  groups : List Group
  metadata : List (List UInt8)

inductive FileCall
  | write (group rank : ℕ) (w : UserWrite)
  | flush (doff : ℕ → HSize)
  | close (doff : ℕ → HSize)

/-- `H5VL_log_filei_metaflush` on a group: there is a dataset if there are any entries. -/
def metaflushGroup (config : I32) (g : Group) : Except Fault (Group × List (List UInt8)) := do
  let locals ← g.ranks.mapM (localMeta config)
  let dsize := mapSize g.ranks.length + (locals.map LocalMeta.mdsize).sum
  pure ({ g with ranks := g.ranks.map RankFile.metaflushed },
    if mapSize g.ranks.length < dsize then [metadataDataset locals] else [])

namespace LogFile

/-- One rank of one group. -/
def rank? (s : LogFile) (g i : ℕ) : Option RankFile := s.groups[g]?.bind fun gr => gr.ranks[i]?

/-- **One call.** A write that fails leaves what it has changed. A flush writes what is queued on all ranks;
closing the file writes the metadata too. -/
def step (env : FileEnv) (s : LogFile) : FileCall → Except Fault LogFile
  | .write g i w => .ok { s with groups := s.groups.modify g fun gr =>
      { gr with ranks := gr.ranks.modify i fun f => (datasetWrite env w.toCall f).1 } }
  | .flush doff => do
      let groups ← flushWriteReqs env.config doff s.groups
      pure { s with groups := groups }
  | .close doff => do
      let groups ← flushWriteReqs env.config doff s.groups
      let done ← groups.mapM (metaflushGroup env.config)
      pure ⟨done.map Prod.fst, s.metadata ++ done.flatMap Prod.snd⟩

/-- The program stores into its buffers, on every rank. -/
def store (st : ℕ → ℕ → Stores) (s : LogFile) : LogFile :=
  { s with groups := s.groups.mapIdx fun g gr =>
      { gr with ranks := gr.ranks.mapIdx fun i f => f.store (st g i) } }

/-- **A run** in which the program stores something after each call. -/
def runStores (env : FileEnv) : LogFile → List FileCall → (ℕ → ℕ → ℕ → Stores) → Except Fault LogFile
  | s, [], _ => .ok s
  | s, c :: cs, st => do
      let s' ← s.step env c
      runStores env (s'.store (st 0)) cs fun k => st (k + 1)

/-- What is in the file: the data bytes, by group, and the metadata. -/
def contents (s : LogFile) : List Lib.Store × List (List UInt8) := (s.groups.map Group.file, s.metadata)

/-- **`Isolated`** — the file ends up the same whatever the program stores. -/
def Isolated (env : FileEnv) (s : LogFile) (calls : List FileCall) : Prop :=
  ∀ st st', (s.runStores env calls st).map contents = (s.runStores env calls st').map contents

end LogFile

/-! ## §5 — writes that are copied. -/

/-- The write, of something from a buffer that is there, queues that buffer: the property was set to `true`,
there is nothing to convert or to pack, and the dataset has no filters. -/
structure UserWrite.Reuses (w : UserWrite) (f : RankFile) : Prop where
  nonempty : w.sels.nsel ≠ 0
  hasBuf : w.hasBuf = true
  buffered : w.plist = .xfer (some true)
  eqtype : 0 < w.eqtype
  mstype : w.mstype = .all
  unfiltered : ∃ dip, f.dsetsInfo[w.did]? = some (some dip) ∧ dip.filters = []

namespace LogFile

/-- A write that reuses no buffer, or another call. -/
def Copies (s : LogFile) : FileCall → Prop
  | .write g i w => ∀ f, s.rank? g i = some f → ¬ w.Reuses f
  | .flush _ | .close _ => True

/-- Every call of a run is one of these. -/
def RunCopies (env : FileEnv) : LogFile → List FileCall → Prop
  | _, [] => True
  | s, c :: cs => s.Copies c ∧ ∀ s', s.step env c = .ok s' → RunCopies env s' cs

end LogFile

theorem UserWrite.reuses_iff (w : UserWrite) :
    w.reuses = true ↔ w.plist = .xfer (some true) ∧ 0 < w.eqtype ∧ w.mstype = .all := by
  have hb : getBuffered w.plist = true ↔ w.plist = .xfer (some true) := by
    unfold getBuffered
    split <;> simp_all
  simp [UserWrite.reuses, hb, and_assoc]

/-! ## §6 — internal blocks. -/

/-- A block that is a copy. -/
def DataBlock.Internal (d : DataBlock) : Prop := d.pooled.isSome

/-- **`Internal`** — whatever a rank has queued is a copy. -/
structure RankFile.Internal (f : RankFile) : Prop where
  queued : ∀ r ∈ f.wreqs, ∀ d ∈ r.dbufs, d.Internal
  merged : ∀ m, some m ∈ f.mreqs → ∀ d ∈ m.dbufs, d.Internal

theorem DataBlock.Internal.store {d : DataBlock} (h : d.Internal) (mem : ℕ → UInt8) : d.store mem = d := by
  obtain ⟨n, hn⟩ := Option.isSome_iff_exists.mp h
  simp [DataBlock.store, hn]

theorem mapIdx_eq_self {α : Type} {f : ℕ → α → α} {l : List α} (h : ∀ i, ∀ a ∈ l, f i a = a) :
    l.mapIdx f = l := by
  apply List.ext_getElem
  · simp
  · intro i hi hl
    simp [h i _ (List.getElem_mem hl)]

theorem store_blocks {ds : List DataBlock} (h : ∀ d ∈ ds, d.Internal) (mem : ℕ → ℕ → UInt8) :
    (ds.mapIdx fun j d => d.store (mem j)) = ds := by
  apply mapIdx_eq_self
  intro j d hd
  exact (h d hd).store _

/-- Stores do not touch what is internal. -/
theorem RankFile.Internal.store {f : RankFile} (h : f.Internal) (st : Stores) : f.store st = f := by
  have hq : (f.wreqs.mapIdx fun k r =>
      ({ r with dbufs := r.dbufs.mapIdx fun j d => d.store (st.queued k j) } : WReq)) = f.wreqs := by
    apply mapIdx_eq_self
    intro k r hr
    rw [store_blocks (h.queued r hr)]
  have hm : (f.mreqs.mapIdx fun k m => m.map fun m =>
      ({ m with dbufs := m.dbufs.mapIdx fun j d => d.store (st.merged k j) } : MergedWReq)) = f.mreqs := by
    apply mapIdx_eq_self
    intro k m hmem
    cases m with
    | none => rfl
    | some m => simp [store_blocks (h.merged m hmem)]
  simp only [RankFile.store, hq, hm]

/-! ## §7 — the stages of a write. -/

/-- The file a stage leaves has `P`, and its result has `Q`. -/
structure Outcome.Ends {α : Type} (o : Outcome α) (P : RankFile → Prop) (Q : α → Prop) : Prop where
  file : P o.1
  result : ∀ a, o.2 = .ok a → Q a

theorem Outcome.ends_ok {α : Type} {f : RankFile} {a : α} {P : RankFile → Prop} {Q : α → Prop} (hf : P f)
    (ha : Q a) : Outcome.Ends (f, .ok a) P Q :=
  ⟨hf, fun _ h => Except.ok.inj h ▸ ha⟩

theorem Outcome.ends_error {α : Type} {f : RankFile} {e : Fault} {P : RankFile → Prop} {Q : α → Prop}
    (hf : P f) : Outcome.Ends (f, .error e) P Q :=
  ⟨hf, nofun⟩

/-- Stages one after the other. -/
theorem Outcome.Ends.andThen {α β : Type} {o : Outcome α} {k : RankFile → α → Outcome β}
    {P : RankFile → Prop} {Q : α → Prop} {R : β → Prop} (ho : o.Ends P Q)
    (hk : ∀ f a, P f → Q a → (k f a).Ends P R) : (o.andThen k).Ends P R := by
  obtain ⟨f, x⟩ := o
  cases x with
  | error e => exact Outcome.ends_error ho.file
  | ok a => exact hk f a ho.file (ho.result a rfl)

theorem dedup_internal {f : RankFile} (h : f.Internal) (env : FileEnv) (c : WriteCall) (r : WReq) :
    (dedup env c f r).Ends RankFile.Internal fun _ => True := by
  unfold dedup
  split
  · split
    · exact Outcome.ends_ok h trivial
    · split
      · exact Outcome.ends_ok ⟨h.queued, h.merged⟩ trivial
      · exact Outcome.ends_error h
  · exact Outcome.ends_ok h trivial

theorem growZip_internal {f : RankFile} (h : f.Internal) (c : WriteCall) (n : ℕ) :
    (growZip c f n).Internal := by
  unfold growZip
  split
  · exact ⟨h.queued, h.merged⟩
  · exact h

theorem zipSel_internal {f : RankFile} (h : f.Internal) (env : FileEnv) (c : WriteCall) (r : WReq) (n : ℕ) :
    (zipSel env c f r n).Ends RankFile.Internal fun _ => True := by
  have hg := growZip_internal h c n
  unfold zipSel
  split
  · exact Outcome.ends_ok h trivial
  · split
    · dsimp only
      split
      · exact Outcome.ends_error hg
      · split
        · exact Outcome.ends_error hg
        · split
          · exact Outcome.ends_error hg
          · exact Outcome.ends_ok hg trivial
    · exact Outcome.ends_ok h trivial

theorem shrinkReq_internal {f : RankFile} (h : f.Internal) (c : WriteCall) (r : WReq) (n : ℕ) :
    (shrinkReq c f r n).Ends RankFile.Internal fun _ => True := by
  unfold shrinkReq
  split
  · split
    · exact Outcome.ends_ok h trivial
    · exact Outcome.ends_error h
  · exact Outcome.ends_ok h trivial

theorem encodeReq_internal {f : RankFile} (h : f.Internal) (env : FileEnv) (c : WriteCall) (r : WReq) :
    (encodeReq env c f r).Ends RankFile.Internal fun _ => True := by
  refine (dedup_internal h env c r).andThen ?_
  rintro f ⟨r, n⟩ hf -
  refine (zipSel_internal hf env c r n).andThen ?_
  rintro f ⟨r, n⟩ hf -
  exact shrinkReq_internal hf c r n

/-- The block is the user's buffer only if that can be used as it is. -/
theorem takeData_internal {f : RankFile} (h : f.Internal) (env : FileEnv) (c : WriteCall) (dip : DsetInfo) :
    (takeData env c dip f).Ends RankFile.Internal fun db => c.inPlace = false → db.Internal := by
  unfold takeData
  dsimp only
  split
  · rename_i hin
    apply Outcome.ends_ok h
    intro hc
    simp [hin] at hc
  · split
    · exact Outcome.ends_ok ⟨h.queued, h.merged⟩ fun _ => rfl
    · exact Outcome.ends_error h

/-- What comes out of a filter is a copy. -/
theorem filterData_internal {f : RankFile} {db : DataBlock} (h : f.Internal) (env : FileEnv) (c : WriteCall)
    (dip : DsetInfo) (hdb : dip.filters = [] → db.Internal) :
    (filterData env c dip f db).Ends RankFile.Internal DataBlock.Internal := by
  unfold filterData
  split
  · rename_i hnil
    exact Outcome.ends_ok h (hdb hnil)
  · split
    · exact Outcome.ends_error h
    · dsimp only
      split
      · exact Outcome.ends_ok ⟨h.queued, h.merged⟩ rfl
      · exact Outcome.ends_error ⟨h.queued, h.merged⟩

theorem queueReq_internal {f : RankFile} {db : DataBlock} (h : f.Internal) (hdb : db.Internal)
    (c : WriteCall) (r : WReq) : (queueReq c f r db).Ends RankFile.Internal fun _ => True := by
  unfold queueReq
  split
  · refine Outcome.ends_ok ⟨?_, h.merged⟩ trivial
    intro r' hr' d hd
    rcases List.mem_append.mp hr' with hr' | hr'
    · exact h.queued r' hr' d hd
    · obtain rfl := List.mem_singleton.mp hr'
      rwa [List.mem_singleton.mp hd]
  · exact Outcome.ends_error h

/-- A merged request of copies can be put in its slot. -/
theorem setMerged_internal {f : RankFile} (h : f.Internal) (did : ℕ) {m : MergedWReq}
    (hm : ∀ d ∈ m.dbufs, d.Internal) : (f.setMerged did m).Internal := by
  refine ⟨h.queued, ?_⟩
  intro m' hm' d hd
  rcases List.mem_or_eq_of_mem_set hm' with hmem | heq
  · exact h.merged m' hmem d hd
  · obtain rfl := Option.some.inj heq
    exact hm d hd

/-- Packing one more selection adds its block. -/
theorem append_dbufs {m m' : MergedWReq} {dip : DsetInfo} {db : DataBlock} {sels : Selections}
    (h : m.append dip db sels = .ok m') : m'.dbufs = m.dbufs ++ [db] := by
  have hr : ∀ n m₁, m.reserve n = .ok m₁ → m₁.dbufs = m.dbufs := by
    intro n m₁ h₁
    unfold MergedWReq.reserve at h₁
    split at h₁
    · cases hg : growAlloc (BitVec.ofInt 64 m.hdr.metaSize.toInt + n) 22 m.alloc with
      | error e => simp [hg, bind, Except.bind] at h₁
      | ok alloc =>
        simp only [hg] at h₁
        obtain rfl := Except.ok.inj h₁
        rfl
    · obtain rfl := Except.ok.inj h₁
      rfl
  unfold MergedWReq.append at h
  cases h₁ : m.reserve (m.msize dip sels) with
  | error e => simp [h₁, bind, Except.bind] at h
  | ok m₁ =>
    simp only [h₁, bind, Except.bind] at h
    split at h
    · cases h
    · obtain rfl := Except.ok.inj h
      simp [hr _ _ h₁]

theorem appendMerged_internal {f : RankFile} {m : MergedWReq} {db : DataBlock} (h : f.Internal)
    (hm : ∀ d ∈ m.dbufs, d.Internal) (hdb : db.Internal) (c : WriteCall) (dip : DsetInfo) :
    (appendMerged c dip f m db).Ends RankFile.Internal fun _ => True := by
  unfold appendMerged
  dsimp only
  split
  · exact Outcome.ends_error (setMerged_internal h _ hm)
  · split
    · split
      · exact Outcome.ends_error (setMerged_internal h _ hm)
      · exact Outcome.ends_error (setMerged_internal h _ hm)
    · split
      · exact Outcome.ends_error (setMerged_internal h _ hm)
      · rename_i m' hm'
        have hall : ∀ d ∈ m'.dbufs, d.Internal := by
          rw [append_dbufs hm']
          intro d hd
          rcases List.mem_append.mp hd with hd | hd
          · exact hm d hd
          · rwa [List.mem_singleton.mp hd]
        split
        · exact Outcome.ends_ok (setMerged_internal h _ hall) trivial
        · exact Outcome.ends_error (setMerged_internal h _ hm)

theorem enqueue_internal {f : RankFile} {db : DataBlock} (h : f.Internal) (hdb : db.Internal)
    (env : FileEnv) (c : WriteCall) (dip : DsetInfo) (r : WReq) :
    (enqueue env c dip f r db).Ends RankFile.Internal fun _ => True := by
  unfold enqueue
  split
  · split
    · exact Outcome.ends_error h
    · rename_i m hm
      exact appendMerged_internal h (h.merged m (List.mem_of_getElem? hm)) hdb c dip
    · split
      · exact appendMerged_internal h (fun _ hd => absurd hd List.not_mem_nil) hdb c dip
      · exact Outcome.ends_error h
  · exact queueReq_internal h hdb c r

/-- **A write that reuses no buffer** queues a copy. -/
theorem datasetWrite_internal {f : RankFile} (h : f.Internal) (env : FileEnv) {c : WriteCall}
    (hc : c.sels.nsel ≠ 0 → c.hasBuf = true → ∀ dip, f.dsetsInfo[c.did]? = some (some dip) →
      dip.filters = [] → c.inPlace = false) : (datasetWrite env c f).1.Internal := by
  unfold datasetWrite
  split
  · exact h
  · rename_i hnsel
    split
    · exact h
    · rename_i hbuf
      split
      · rename_i dip hdip
        split
        · exact h
        · split
          · exact h
          · split
            · exact h
            · rename_i r hr
              refine Outcome.Ends.file (Q := fun _ => True) ?_
              refine (encodeReq_internal h env c r).andThen ?_
              intro f r hf _
              refine (takeData_internal hf env c dip).andThen ?_
              intro f db hf hdb
              refine (filterData_internal hf env c dip fun hnil =>
                hdb (hc hnsel (by simpa using hbuf) dip hdip hnil)).andThen ?_
              intro f db hf hdb
              exact enqueue_internal hf hdb env c dip r
      · exact h

/-! ## §8 — a flush. -/

theorem flushMerged_internal {f : RankFile} (h : f.Internal) : f.flushMerged.Internal := by
  refine ⟨?_, ?_⟩
  · intro r hr d hd
    rcases List.mem_append.mp hr with hr | hr
    · exact h.queued r hr d hd
    · obtain ⟨m, hm, rfl⟩ := List.mem_map.mp hr
      obtain ⟨x, hx, hpend⟩ := List.mem_filterMap.mp hm
      obtain ⟨rfl, -⟩ := Option.filter_eq_some_iff.mp hpend
      exact h.merged m hx d hd
  · intro m hm d hd
    obtain ⟨x, hx, heq⟩ := List.mem_map.mp hm
    split at heq
    · cases heq
    · subst heq
      exact h.merged m hx d hd

/-- Requests that were moved keep their blocks. -/
theorem placeReqs_dbufs (acc : MpiOffset) (rs : List WReq) :
    (placeReqs acc rs).map WReq.dbufs = rs.map WReq.dbufs := by
  induction rs generalizing acc with
  | nil => rfl
  | cons r rs ih => rw [placeReqs, List.map_cons, List.map_cons, ih]

/-- The queue may be replaced by one with the same blocks. -/
theorem RankFile.Internal.requeue {f f' : RankFile} (h : f.Internal)
    (hq : ∀ ds ∈ f'.wreqs.map WReq.dbufs, ds ∈ f.wreqs.map WReq.dbufs) (hm : f'.mreqs = f.mreqs) :
    f'.Internal := by
  refine ⟨?_, ?_⟩
  · intro r hr d hd
    obtain ⟨r', hr', heq⟩ := List.mem_map.mp (hq _ (List.mem_map_of_mem hr))
    rw [← heq] at hd
    exact h.queued r' hr' d hd
  · rw [hm]
    exact h.merged

theorem localFlush_internal {config : I32} {f : RankFile} {l : LocalFlush} (h : f.Internal)
    (hl : localFlush config f = .ok l) : l.file.Internal := by
  have hf := flushMerged_internal h
  rcases (localFlush_cases hl).2 with ⟨-, rfl⟩ | ⟨-, -, bytes, rfl⟩
  · exact hf
  · refine hf.requeue ?_ rfl
    intro ds hds
    rw [RankFile.placed, List.map_append, placeReqs_dbufs, ← List.map_append] at hds
    have hqueue : f.flushMerged.wreqs.take f.nflushed ++ f.toFlush = f.flushMerged.wreqs :=
      List.take_append_drop f.nflushed f.flushMerged.wreqs
    rwa [hqueue] at hds

theorem finishRank_internal {f : RankFile} (h : f.Internal) (base : MpiOffset) :
    (finishRank base f).Internal := by
  refine h.requeue ?_ rfl
  intro ds hds
  have hmove : (f.queued.map (WReq.moveBy base)).map WReq.dbufs = f.queued.map WReq.dbufs := by
    rw [List.map_map]
    rfl
  rw [finishRank, List.map_append, hmove, ← List.map_append] at hds
  rwa [RankFile.queued, List.take_append_drop] at hds

/-- Every rank of a group has only copies queued. -/
def Group.Internal (g : Group) : Prop := ∀ f ∈ g.ranks, f.Internal

theorem flushGroup_internal {locals : List LocalFlush} (h : ∀ l ∈ locals, l.file.Internal) (doff : HSize)
    (file : Lib.Store) : (flushGroup doff locals file).Internal := by
  unfold flushGroup
  dsimp only
  split
  · intro f hf
    obtain ⟨l, hl, rfl⟩ := List.mem_map.mp hf
    exact h l hl
  · intro f hf
    obtain ⟨i, hi, rfl⟩ := List.mem_iff_getElem.mp hf
    rw [List.getElem_zipWith]
    exact finishRank_internal (h _ (List.getElem_mem _)) _

theorem markDirty_internal {g : Group} (h : g.Internal) : g.markDirty.Internal := by
  intro f hf
  obtain ⟨f', hf', rfl⟩ := List.mem_map.mp hf
  exact ⟨(h f' hf').queued, (h f' hf').merged⟩

/-- **A flush** keeps what is queued internal. -/
theorem flushWriteReqs_internal {config : I32} {doff : ℕ → HSize} {groups groups' : List Group}
    (h : ∀ g ∈ groups, g.Internal) (hf : flushWriteReqs config doff groups = .ok groups') :
    ∀ g ∈ groups', g.Internal := by
  unfold flushWriteReqs at hf
  obtain ⟨locals, hl, hf⟩ := Lib.bind_eq_ok.mp hf
  have hloc : ∀ ls ∈ locals, ∀ l ∈ ls, l.file.Internal := by
    intro ls hls l hmem
    obtain ⟨g, hg, hrel⟩ := Lib.mem_of_mapM_ok hl hls
    obtain ⟨f, hfm, hfl⟩ := Lib.mem_of_mapM_ok hrel hmem
    exact localFlush_internal (h g hg f hfm) hfl
  dsimp only at hf
  split at hf
  · obtain rfl := Except.ok.inj hf
    intro g hg f hfm
    obtain ⟨i, hi, rfl⟩ := List.mem_iff_getElem.mp hg
    rw [List.getElem_zipWith] at hfm
    obtain ⟨l, hlm, rfl⟩ := List.mem_map.mp hfm
    exact hloc _ (List.getElem_mem _) l hlm
  · obtain rfl := Except.ok.inj hf
    intro g hg
    obtain ⟨i, hi, rfl⟩ := List.mem_iff_getElem.mp hg
    rw [List.getElem_mapIdx]
    apply markDirty_internal
    apply flushGroup_internal
    exact hloc _ (List.of_mem_zip (List.getElem_mem _)).1

/-- A metadata flush deletes the queue. -/
theorem metaflushGroup_internal {config : I32} {g g' : Group} {md : List (List UInt8)} (h : g.Internal)
    (hm : metaflushGroup config g = .ok (g', md)) : g'.Internal := by
  unfold metaflushGroup at hm
  obtain ⟨locals, -, hm⟩ := Lib.bind_eq_ok.mp hm
  obtain ⟨rfl, -⟩ := Prod.mk.inj (Except.ok.inj hm)
  intro f hf
  obtain ⟨f', hf', rfl⟩ := List.mem_map.mp hf
  exact ⟨nofun, (h f' hf').merged⟩

/-! ## §9 — runs. -/

/-- An element after one was changed is that one, or was there before. -/
theorem mem_modify {α : Type} {l : List α} {k : ℕ} {f : α → α} {a : α} (h : a ∈ l.modify k f) :
    a ∈ l ∨ ∃ b, l[k]? = some b ∧ a = f b := by
  obtain ⟨i, hi, rfl⟩ := List.mem_iff_getElem.mp h
  rw [List.length_modify] at hi
  rw [List.getElem_modify]
  split
  · rename_i hik
    subst hik
    exact Or.inr ⟨l[k], List.getElem?_eq_getElem hi, rfl⟩
  · exact Or.inl (List.getElem_mem hi)

namespace LogFile

/-- All ranks have only copies queued. -/
def Internal (s : LogFile) : Prop := ∀ g ∈ s.groups, g.Internal

theorem Internal.store {s : LogFile} (h : s.Internal) (st : ℕ → ℕ → Stores) : s.store st = s := by
  have hg : (s.groups.mapIdx fun g gr =>
      ({ gr with ranks := gr.ranks.mapIdx fun i f => f.store (st g i) } : Group)) = s.groups := by
    apply mapIdx_eq_self
    intro g gr hgr
    have hr : (gr.ranks.mapIdx fun i f => f.store (st g i)) = gr.ranks := by
      apply mapIdx_eq_self
      intro i f hf
      exact (h gr hgr f hf).store _
    rw [hr]
  simp only [LogFile.store, hg]

/-- **One call** keeps what is queued internal, unless it is a write that reuses its buffer. -/
theorem step_internal {env : FileEnv} {s s' : LogFile} {c : FileCall} (h : s.Internal) (hc : s.Copies c)
    (hs : s.step env c = .ok s') : s'.Internal := by
  cases c with
  | write g i w =>
    obtain rfl := Except.ok.inj hs
    intro gr hgr f hf
    rcases mem_modify hgr with hgr | ⟨gr', hgr', rfl⟩
    · exact h gr hgr f hf
    · have hint := h gr' (List.mem_of_getElem? hgr')
      rcases mem_modify hf with hf | ⟨f', hf', rfl⟩
      · exact hint f hf
      · have hrank : s.rank? g i = some f' := by
          rw [rank?, hgr']
          exact hf'
        apply datasetWrite_internal (hint f' (List.mem_of_getElem? hf'))
        intro hnsel hbuf dip hdip hnil
        -- The buffer is the user's only when nothing is converted, packed or filtered, and it may be kept.
        by_contra hin
        obtain ⟨hb, he, hm⟩ := w.reuses_iff.mp (by simpa [UserWrite.toCall] using hin)
        exact hc f' hrank ⟨hnsel, hbuf, hb, he, hm, dip, hdip, hnil⟩
  | flush doff =>
    obtain ⟨groups, hf, hs⟩ := Lib.bind_eq_ok.mp hs
    obtain rfl := Except.ok.inj hs
    exact flushWriteReqs_internal h hf
  | close doff =>
    obtain ⟨groups, hf, hs⟩ := Lib.bind_eq_ok.mp hs
    obtain ⟨done, hd, hs⟩ := Lib.bind_eq_ok.mp hs
    obtain rfl := Except.ok.inj hs
    intro g hg
    obtain ⟨⟨g', md⟩, hmem, rfl⟩ := List.mem_map.mp hg
    obtain ⟨g₀, hg₀, hrel⟩ := Lib.mem_of_mapM_ok hd hmem
    exact metaflushGroup_internal (flushWriteReqs_internal h hf g₀ hg₀) hrel

theorem runStores_cons {env : FileEnv} {s s' : LogFile} {c : FileCall} (hs : s.step env c = .ok s')
    (cs : List FileCall) (st : ℕ → ℕ → ℕ → Stores) :
    s.runStores env (c :: cs) st = (s'.store (st 0)).runStores env cs fun k => st (k + 1) := by
  simp only [runStores, hs, bind, Except.bind]

theorem runStores_error {env : FileEnv} {s : LogFile} {c : FileCall} {e : Fault} (hs : s.step env c = .error e)
    (cs : List FileCall) (st : ℕ → ℕ → ℕ → Stores) : s.runStores env (c :: cs) st = .error e := by
  simp only [runStores, hs, bind, Except.bind]

/-- Induction on the run: what is queued stays internal, so that no store changes anything. -/
theorem runStores_eq {env : FileEnv} {s : LogFile} {calls : List FileCall} (h : s.Internal)
    (hc : s.RunCopies env calls) (st st' : ℕ → ℕ → ℕ → Stores) :
    s.runStores env calls st = s.runStores env calls st' := by
  induction calls generalizing s st st' with
  | nil => rfl
  | cons c cs ih =>
    cases hs : s.step env c with
    | error e => rw [runStores_error hs, runStores_error hs]
    | ok s' =>
      have hint := step_internal h hc.1 hs
      rw [runStores_cons hs, runStores_cons hs, hint.store, hint.store]
      exact ih hint (hc.2 s' hs) _ _

end LogFile

/-- **Buffered writes are isolated** in every run in which no write with the property set to `true` has the
memory type of the dataset, the whole of its memory space selected and no filters: what the program stores
into its buffers after a write never reaches the file. -/
theorem buffered_isolated (env : FileEnv) (s : LogFile) (calls : List FileCall) (h : s.Internal)
    (hc : s.RunCopies env calls) : s.Isolated env calls := fun st st' =>
  congrArg (Except.map LogFile.contents) (LogFile.runStores_eq h hc st st')

/-- A write of the first two elements of a dataset, from a buffer that holds them, with this transfer list. -/
def writeTwo (plist : XferPlist) : UserWrite where
  did := 0
  sels := (twoElements true).sels
  plist := plist
  eqtype := 1
  mstype := .all
  memEsize := 4
  hasBuf := true
  buf := (twoElements true).data
  pack := id
  convert := id
  grants := .all

/-- One process, with a file that was just created and has one dataset. -/
def oneProcess : LogFile := ⟨[⟨[freshFile], fun _ => 0⟩], []⟩

/-- The write, then the end of the file. -/
def writeAndClose (plist : XferPlist) : List FileCall := [.write 0 0 (writeTwo plist), .close fun _ => 0]

theorem oneProcess_internal : oneProcess.Internal := by
  intro g hg f hf
  obtain rfl := List.mem_singleton.mp hg
  obtain rfl := List.mem_singleton.mp hf
  exact ⟨nofun, by simp [freshFile]⟩

/-- The default property is isolated. -/
theorem buffered_isolated_default :
    oneProcess.Isolated { sharingEnv 100 with config := 0 } (writeAndClose .notXfer) := by
  refine buffered_isolated _ _ _ oneProcess_internal ⟨?_, fun _ _ => ⟨trivial, fun _ _ => trivial⟩⟩
  intro f _ h
  cases h.buffered

/-- The property as `H5Pset_buffered` sets it to `true` is not: the byte at address `0` is what the program
stored after the write. -/
theorem not_buffered_isolated :
    setBuffered (.xfer none) true = .ok (.xfer (some true)) ∧
      ¬ oneProcess.Isolated { sharingEnv 100 with config := 0 } (writeAndClose (.xfer (some true))) := by
  refine ⟨rfl, ?_⟩
  intro h
  have hb := congrArg (Except.map fun c => c.1.map fun file => file 0)
    (h (fun _ _ _ => ⟨fun _ _ _ => 7, fun _ _ _ => 0⟩) fun _ _ _ => ⟨fun _ _ _ => 9, fun _ _ _ => 0⟩)
  exact absurd hb (by decide)

end LogVol
