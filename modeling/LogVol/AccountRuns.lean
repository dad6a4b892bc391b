/-
# LogVol.AccountRuns — the account of buffer space over whole runs.

All processes write, queue reads, read at once and flush, with and without subfiles. A call keeps the account
the sum of the live buffers exactly when the reads it flushes release what they delete. From a file that was
just opened, the account is sound in every state of a run if and only if every call does so
(`run_sound_iff`): then nothing is left in it when nothing is queued, and a write is refused only where the
limit is really exceeded.
-/
import LogVol.BufferAccount
import LogVol.Collective

namespace LogVol

/-! ## §1 — calls. -/

/-- The processes with the files they share, by group, and the reads each of them has queued. -/
structure Session where
  groups : List Group
  rreqs : ℕ → ℕ → List Rreq

/-- What is fixed while the file is open, and whether its transfer property list is collective. -/
structure ReadEnv extends FileEnv where
  xferCollective : Bool

/-- Process `i` of group `g`. -/
def rankOf (groups : List Group) (g i : ℕ) : Option RankFile := groups[g]?.bind fun gr => gr.ranks[i]?

/-- That process replaced. -/
def setRank (groups : List Group) (g i : ℕ) (f : RankFile) : List Group :=
  groups.modify g fun gr => { gr with ranks := gr.ranks.set i f }

/-- Every process of a group does the same. -/
def eachOf (act : ℕ → RankFile → Except Fault RankFile) (gr : Group) : Except Fault Group := do
  let ranks ← gr.ranks.zipIdx.mapM fun f => act f.2 f.1
  pure { gr with ranks := ranks }

/-- Every process does the same. -/
def eachRank (act : ℕ → ℕ → RankFile → Except Fault RankFile) (groups : List Group) :
    Except Fault (List Group) :=
  groups.zipIdx.mapM fun gr => eachOf (act gr.2) gr.1

/-- A process has writes that are not in the file yet. -/
def pendingWrites (groups : List Group) : Bool :=
  (groups.flatMap fun gr => gr.ranks.map RankFile.numPendingWrites).any fun n => decide (0 < n)

/-- Flush write requests if any process has some. -/
def flushPendingWrites (config : I32) (doff : ℕ → HSize) (groups : List Group) : Except Fault (List Group) :=
  if pendingWrites groups then flushWriteReqs config doff groups else .ok groups

/-- A call. Reading at once, and flushing, all processes do together; `rds` is what each of them reads. -/
inductive IoCall where
  | write (g i : ℕ) (w : UserWrite)
  | read (g i : ℕ) (rd : ReadCall)
  | readNow (rds : ℕ → ℕ → ReadCall) (doff : ℕ → HSize)
  | flush (doff : ℕ → HSize)

/-- Pending writes are flushed before a read at once: the transfer property list of the file is collective, or
there is one process. -/
def ReadEnv.flushesFirst (env : ReadEnv) (groups : List Group) : Bool :=
  env.xferCollective || decide ((groups.flatMap Group.ranks).length = 1)

/-- The flush before a read at once. -/
def flushBefore (env : ReadEnv) (doff : ℕ → HSize) (first : Bool) (groups : List Group) :
    Except Fault (List Group) :=
  if first then flushPendingWrites env.config doff groups else .ok groups

/-- The requests of a read at once, on each process. -/
def newReqs (rds : ℕ → ℕ → ReadCall) (groups : List Group) (g i : ℕ) : List Rreq :=
  (rankOf groups g i).elim [] (rds g i).reqs

/-- A process has reads queued. -/
def Session.anyReads (s : Session) : Bool :=
  s.groups.zipIdx.any fun gr => (List.range gr.1.ranks.length).any fun i => !(s.rreqs gr.2 i).isEmpty

/-- A read at once on one process. One that has selected nothing has returned. -/
def finishRead (config : I32) (rs : List Rreq) (f : RankFile) : Except Fault RankFile :=
  if rs = [] then .ok f else flushReads config rs f

/-- Flush read requests if any process has some. -/
def flushQueue (config : I32) (s : Session) (groups : List Group) : Except Fault (List Group) :=
  if s.anyReads then eachRank (fun g i => flushReads config (s.rreqs g i)) groups else .ok groups

/-- **One call**, when it succeeds. -/
def Session.step (env : ReadEnv) (s : Session) : IoCall → Except Fault Session
  | .write g i w =>
      match rankOf s.groups g i with
      | none => .error .outside
      | some f =>
          match datasetWrite env.toFileEnv w.toCall f with
          | (f', .ok ()) => .ok { s with groups := setRank s.groups g i f' }
          | (_, .error e) => .error e
  | .read g i rd =>
      match rankOf s.groups g i with
      | none => .error .outside
      | some f => do
          let f' ← takeRead env.toFileEnv rd f
          pure { groups := setRank s.groups g i f'
                 rreqs := Function.update s.rreqs g
                  (Function.update (s.rreqs g) i (s.rreqs g i ++ rd.reqs f)) }
  | .readNow rds doff => do
      let groups ← eachRank (fun g i => takeRead env.toFileEnv (rds g i)) s.groups
      let groups ← flushBefore env doff (env.flushesFirst s.groups) groups
      let groups ← eachRank (fun g i => finishRead env.config (newReqs rds s.groups g i)) groups
      pure { s with groups := groups }
  | .flush doff => do
      let groups ← flushPendingWrites env.config doff s.groups
      let groups ← flushQueue env.config s groups
      pure { groups := groups, rreqs := if s.anyReads then fun _ _ => [] else s.rreqs }

def Session.run (env : ReadEnv) : Session → List IoCall → Except Fault Session
  | s, [] => .ok s
  | s, c :: cs => do
      let s' ← s.step env c
      s'.run env cs

/-! ## §2 — the property. -/

/-- **`Accounted`** — on every process, the account is the sum of the live buffers. -/
def Session.Accounted (s : Session) : Prop :=
  ∀ g i f, rankOf s.groups g i = some f → f.Balanced (s.rreqs g i)

/-- A file that was just opened: nothing is queued, and nothing in the account. -/
def Session.Opened (s : Session) : Prop :=
  ∀ g i f, rankOf s.groups g i = some f →
    f.wreqs = [] ∧ f.nflushed = 0 ∧ (∀ m ∈ f.mreqs, m = none) ∧ f.bused = 0 ∧ s.rreqs g i = []

/-- The bytes of a group, and of all processes, in a flush of writes. -/
def fsizeGroup (gr : Group) : MpiOffset := (gr.ranks.map RankFile.fsizeLocal).sum

def fsizeAll (groups : List Group) : MpiOffset := (groups.map fsizeGroup).sum

/-- The buffers of writes that are queued on a process when it comes to its reads. Of a group that has no bytes
to write, a flush of writes leaves the requests where they are. -/
def leftQueued (flushes : Bool) (groups : List Group) (gr : Group) (f : RankFile) : List HSize :=
  if flushes then
    if fsizeAll groups = 0 ∨ fsizeGroup gr = 0 then heldSizes (f.toFlush.flatMap WReq.dbufs) else []
  else f.queuedSizes

/-- The metadata is dirty when it comes to the reads: it was, or a flush of writes has had something to write. -/
def dirtyThen (flushes : Bool) (groups : List Group) (f : RankFile) : Bool :=
  f.metadirty || flushes && decide (fsizeAll groups ≠ 0)

/-- What a call needs of one process: the reads it flushes there release what they delete. -/
def Session.RankKeeps (env : ReadEnv) (s : Session) (g i : ℕ) (gr : Group) (f : RankFile) : IoCall → Prop
  | .write _ _ _ => True
  | .read _ _ _ => True
  | .readNow rds _ =>
      let flushes := env.flushesFirst s.groups && pendingWrites s.groups
      (rds g i).reqs f ≠ [] →
        ReadsKept env.config ((rds g i).reqs f) (dirtyThen flushes s.groups f) (leftQueued flushes s.groups gr f)
  | .flush _ =>
      let flushes := pendingWrites s.groups
      s.anyReads = true →
        ReadsKept env.config (s.rreqs g i) (dirtyThen flushes s.groups f) (leftQueued flushes s.groups gr f)

/-- **The condition of a call**, on every process. -/
def Session.Keeps (env : ReadEnv) (s : Session) (c : IoCall) : Prop :=
  ∀ g i gr f, s.groups[g]? = some gr → gr.ranks[i]? = some f → s.RankKeeps env g i gr f c

/-- Every call of a run that succeeds fulfils its condition. -/
def Session.RunKeeps (env : ReadEnv) : Session → List IoCall → Prop
  | _, [] => True
  | s, c :: cs => ∀ s', s.step env c = .ok s' → s.Keeps env c ∧ s'.RunKeeps env cs

/-- Both queues are empty: no write, merged or not, has data that is not in the file yet, and no read is queued. -/
structure RankFile.Drained (f : RankFile) (rs : List Rreq) : Prop where
  writes : f.queued = []
  merged : ∀ m ∈ f.mreqs, slotBlocks m = []
  reads : rs = []

/-- **`Sound`** — the account is that of the live buffers, it is zero when both queues are empty, and a write is
refused only when the live buffers and the new one exceed the limit. -/
structure Session.Sound (env : ReadEnv) (s : Session) : Prop where
  accounted : s.Accounted
  drained : ∀ g i f, rankOf s.groups g i = some f → f.Drained (s.rreqs g i) → f.bused = 0
  refused : ∀ g i f (w : UserWrite), rankOf s.groups g i = some f →
    (datasetWrite env.toFileEnv w.toCall f).2 = .error outOfBuffer →
      ∃ dip size, f.dsetsInfo[w.did]? = some (some dip) ∧ NewBuffer env.toFileEnv w.toCall dip size ∧
        OverLimit env.toFileEnv (f.liveSizes (s.rreqs g i)) size

/-! ## §3 — the same on every process. -/

theorem mapM_getElem? {α β : Type} {act : α → Except Fault β} {xs : List α} {ys : List β}
    (h : xs.mapM act = .ok ys) {i : ℕ} {y : β} (hy : ys[i]? = some y) : ∃ x, xs[i]? = some x ∧ act x = .ok y := by
  have hall := Lib.mapM_eq_ok_iff.mp h
  obtain ⟨hi, rfl⟩ := List.getElem?_eq_some_iff.mp hy
  have hx : i < xs.length := hall.length_eq ▸ hi
  exact ⟨xs[i], List.getElem?_eq_getElem hx, hall.get hx hi⟩

theorem zipIdx_mapM {α β : Type} (act : ℕ → α → Except Fault β) {xs : List α} {ys : List β}
    (h : (xs.zipIdx.mapM fun x => act x.2 x.1) = .ok ys) :
    ys.length = xs.length ∧ ∀ i y, ys[i]? = some y → ∃ x, xs[i]? = some x ∧ act i x = .ok y := by
  have hlen := (Lib.mapM_eq_ok_iff.mp h).length_eq
  rw [List.length_zipIdx] at hlen
  refine ⟨hlen.symm, fun i y hy => ?_⟩
  obtain ⟨p, hp, hact⟩ := mapM_getElem? h hy
  rw [List.getElem?_zipIdx] at hp
  obtain ⟨x, hx, rfl⟩ := Option.map_eq_some_iff.mp hp
  rw [Nat.zero_add] at hact
  exact ⟨x, hx, hact⟩

/-- A process after a step of all processes. -/
theorem eachRank_group {act : ℕ → ℕ → RankFile → Except Fault RankFile} {groups groups' : List Group}
    (h : eachRank act groups = .ok groups') {g i : ℕ} {gr' : Group} {f' : RankFile} (hgr : groups'[g]? = some gr')
    (hf : gr'.ranks[i]? = some f') :
    ∃ gr f, groups[g]? = some gr ∧ gr.ranks[i]? = some f ∧ act g i f = .ok f' := by
  obtain ⟨gr, hgr₀, hof⟩ := (zipIdx_mapM (fun g => eachOf (act g)) h).2 g gr' hgr
  obtain ⟨ranks, hranks, hof⟩ := Lib.bind_eq_ok.mp hof
  obtain rfl := Except.ok.inj hof
  obtain ⟨f, hf, hact⟩ := (zipIdx_mapM (act g) hranks).2 i f' hf
  exact ⟨gr, f, hgr₀, hf, hact⟩

theorem rankOf_eq_some_iff {groups : List Group} {g i : ℕ} {f : RankFile} :
    rankOf groups g i = some f ↔ ∃ gr, groups[g]? = some gr ∧ gr.ranks[i]? = some f :=
  Option.bind_eq_some_iff

/-- The processes are the same ones. -/
def SameRanks (groups groups' : List Group) : Prop :=
  groups'.map (fun gr => gr.ranks.length) = groups.map fun gr => gr.ranks.length

theorem SameRanks.trans {groups groups₁ groups₂ : List Group} (h₁ : SameRanks groups groups₁)
    (h₂ : SameRanks groups₁ groups₂) : SameRanks groups groups₂ := Eq.trans h₂ h₁

theorem SameRanks.rankOf {groups groups' : List Group} (h : SameRanks groups groups') {g i : ℕ} {gr : Group}
    {f : RankFile} (hgr : groups[g]? = some gr) (hf : gr.ranks[i]? = some f) :
    ∃ f', rankOf groups' g i = some f' := by
  have hlen : (groups'.map fun gr => gr.ranks.length)[g]? = some gr.ranks.length := by
    rw [h, List.getElem?_map, hgr, Option.map_some]
  rw [List.getElem?_map] at hlen
  obtain ⟨gr', hgr', hlen⟩ := Option.map_eq_some_iff.mp hlen
  have hi : i < gr'.ranks.length := hlen ▸ (List.getElem?_eq_some_iff.mp hf).1
  exact ⟨gr'.ranks[i], rankOf_eq_some_iff.mpr ⟨gr', hgr', List.getElem?_eq_getElem hi⟩⟩

/-- What a step of all processes leaves as it is. -/
theorem eachRank_map {β : Type} (φ : RankFile → β) {act : ℕ → ℕ → RankFile → Except Fault RankFile}
    {groups groups' : List Group} (h : eachRank act groups = .ok groups')
    (hφ : ∀ g i f f', act g i f = .ok f' → φ f' = φ f) :
    groups'.map (fun gr => gr.ranks.map φ) = groups.map fun gr => gr.ranks.map φ := by
  obtain ⟨hlen, hget⟩ := zipIdx_mapM (fun g => eachOf (act g)) h
  apply List.ext_getElem
  · rw [List.length_map, List.length_map, hlen]
  · intro g hg hg'
    rw [List.length_map] at hg hg'
    rw [List.getElem_map, List.getElem_map]
    obtain ⟨gr, hgr, hof⟩ := hget g _ (List.getElem?_eq_getElem hg)
    obtain rfl : groups[g] = gr := by
      rw [List.getElem?_eq_getElem hg'] at hgr
      exact Option.some.inj hgr
    obtain ⟨ranks, hranks, hof⟩ := Lib.bind_eq_ok.mp hof
    rw [← Except.ok.inj hof]
    obtain ⟨hlen', hget'⟩ := zipIdx_mapM (act g) hranks
    apply List.ext_getElem
    · rw [List.length_map, List.length_map, hlen']
    · intro i hi hi'
      rw [List.length_map] at hi hi'
      rw [List.getElem_map, List.getElem_map]
      obtain ⟨f, hf, hact⟩ := hget' i _ (List.getElem?_eq_getElem hi)
      obtain rfl : (groups[g]).ranks[i] = f := by
        rw [List.getElem?_eq_getElem hi'] at hf
        exact Option.some.inj hf
      exact hφ g i _ _ hact

theorem eachRank_sameRanks {act : ℕ → ℕ → RankFile → Except Fault RankFile} {groups groups' : List Group}
    (h : eachRank act groups = .ok groups') : SameRanks groups groups' := by
  have hunit := congrArg (List.map List.length) (eachRank_map (fun _ => ()) h fun _ _ _ _ _ => rfl)
  simpa only [SameRanks, List.map_map, Function.comp_def, List.length_map] using hunit

theorem setRank_sameRanks (groups : List Group) (g i : ℕ) (f : RankFile) :
    SameRanks groups (setRank groups g i f) := by
  apply List.ext_getElem?
  intro k
  rw [List.getElem?_map, List.getElem?_map, setRank, List.getElem?_modify]
  cases groups[k]? with
  | none => rfl
  | some gr =>
      show some _ = some _
      split
      · exact congrArg some List.length_set
      · rfl

theorem rankOf_setRank {groups : List Group} {g i : ℕ} {f f₁ : RankFile} (hf : rankOf groups g i = some f)
    {g' i' : ℕ} {f' : RankFile} (h : rankOf (setRank groups g i f₁) g' i' = some f') :
    g' = g ∧ i' = i ∧ f' = f₁ ∨ ¬ (g' = g ∧ i' = i) ∧ rankOf groups g' i' = some f' := by
  obtain ⟨gr, hgr, hrank⟩ := rankOf_eq_some_iff.mp h
  obtain ⟨gr₀, hgr₀, hrank₀⟩ := rankOf_eq_some_iff.mp hf
  rw [setRank, List.getElem?_modify] at hgr
  obtain ⟨gr₁, hgr₁, hmap⟩ := Option.map_eq_some_iff.mp hgr
  split at hmap
  · rename_i hg
    subst hg
    obtain rfl : gr₁ = gr₀ := Option.some.inj (hgr₁.symm.trans hgr₀)
    subst hmap
    rw [show ({ gr₁ with ranks := gr₁.ranks.set i f₁ } : Group).ranks = gr₁.ranks.set i f₁ from rfl,
      List.getElem?_set] at hrank
    split at hrank
    · rename_i hi
      subst hi
      split at hrank
      · exact Or.inl ⟨rfl, rfl, (Option.some.inj hrank).symm⟩
      · cases hrank
    · rename_i hi
      exact Or.inr ⟨fun heq => hi heq.2.symm, rankOf_eq_some_iff.mpr ⟨gr₁, hgr₁, hrank⟩⟩
  · rename_i hg
    obtain rfl : gr₁ = gr := hmap
    exact Or.inr ⟨fun heq => hg heq.1.symm, rankOf_eq_some_iff.mpr ⟨gr₁, hgr₁, hrank⟩⟩

/-! ## §4 — a flush of writes. -/

theorem localFlush_fsize {config : I32} {f : RankFile} {l : LocalFlush} (hl : localFlush config f = .ok l) :
    l.fsizeLocal = f.fsizeLocal := by
  rw [RankFile.fsizeLocal]
  rcases (localFlush_cases hl).2 with ⟨hnone, rfl⟩ | ⟨hsome, -, bytes, rfl⟩
  · rw [if_pos hnone]
  · rw [if_neg hsome]

/-- What the processes of a group bring. -/
theorem locals_fsize {config : I32} {gr : Group} {ls : List LocalFlush}
    (h : gr.ranks.mapM (localFlush config) = .ok ls) : (ls.map LocalFlush.fsizeLocal).sum = fsizeGroup gr := by
  have hmap : ls.map LocalFlush.fsizeLocal = gr.ranks.map RankFile.fsizeLocal := by
    rw [← List.forall₂_eq_eq_eq, List.forall₂_map_left_iff, List.forall₂_map_right_iff]
    exact (Lib.mapM_eq_ok_iff.mp h).flip.imp fun _ _ hl => localFlush_fsize hl
  rw [hmap, fsizeGroup]

theorem locals_fsizeAll {config : I32} {groups : List Group} {locals : List (List LocalFlush)}
    (h : (groups.mapM fun g => g.ranks.mapM (localFlush config)) = .ok locals) :
    (locals.flatten.map LocalFlush.fsizeLocal).sum = fsizeAll groups := by
  have hmap : locals.map (fun ls => (ls.map LocalFlush.fsizeLocal).sum) = groups.map fsizeGroup := by
    rw [← List.forall₂_eq_eq_eq, List.forall₂_map_left_iff, List.forall₂_map_right_iff]
    exact (Lib.mapM_eq_ok_iff.mp h).flip.imp fun _ _ hls => locals_fsize hls
  rw [List.map_flatten, List.sum_flatten, List.map_map, fsizeAll, ← hmap]
  rfl

/-- Where a flush of writes leaves a process: balanced, with what is left in its queue. -/
structure FlushedTo (groups : List Group) (gr : Group) (f f' : RankFile) (rs : List Rreq) : Prop where
  balanced : f'.Balanced rs
  queued : f'.queuedSizes = leftQueued true groups gr f
  dirty : f'.metadirty = dirtyThen true groups f

theorem dirtyThen_of_ne {groups : List Group} (h : fsizeAll groups ≠ 0) (f : RankFile) :
    dirtyThen true groups f = true := by
  rw [dirtyThen, decide_eq_true h, Bool.and_true, Bool.or_true]

theorem flushWriteReqs_rank {config : I32} {doff : ℕ → HSize} {groups groups' : List Group}
    (h : flushWriteReqs config doff groups = .ok groups') {g i : ℕ} {f' : RankFile}
    (hf' : rankOf groups' g i = some f') : ∃ gr f, groups[g]? = some gr ∧ gr.ranks[i]? = some f ∧
      ∀ rs, f.Balanced rs → FlushedTo groups gr f f' rs := by
  unfold flushWriteReqs at h
  obtain ⟨locals, hlocals, h⟩ := Lib.bind_eq_ok.mp h
  have hall := locals_fsizeAll hlocals
  -- The process and what it brought.
  have hfind : ∀ {ls : List LocalFlush} {l : LocalFlush}, locals[g]? = some ls → ls[i]? = some l →
      ∃ gr f, groups[g]? = some gr ∧ gr.ranks[i]? = some f ∧ localFlush config f = .ok l ∧
        (ls.map LocalFlush.fsizeLocal).sum = fsizeGroup gr := by
    intro ls l hls hl
    obtain ⟨gr, hgr, hbrought⟩ := mapM_getElem? hlocals hls
    obtain ⟨f, hf, hlf⟩ := mapM_getElem? hbrought hl
    exact ⟨gr, f, hgr, hf, hlf, locals_fsize hbrought⟩
  dsimp only at h
  rw [hall] at h
  obtain ⟨gr', hgr', hrank⟩ := rankOf_eq_some_iff.mp hf'
  split at h
  · rename_i hzero
    obtain rfl := Except.ok.inj h
    obtain ⟨ls, gr₁, hls, -, rfl⟩ := List.getElem?_zipWith_eq_some.mp hgr'
    obtain ⟨l, hl, rfl⟩ : ∃ l, ls[i]? = some l ∧ l.file = f' := by
      rw [List.getElem?_map] at hrank
      exact Option.map_eq_some_iff.mp hrank
    obtain ⟨gr, f, hgr, hf, hlf, -⟩ := hfind hls hl
    refine ⟨gr, f, hgr, hf, fun rs hbal => ?_⟩
    obtain ⟨hbal', -, hdirty, hqueued⟩ := localFlush_balanced hbal hlf
    refine ⟨hbal', ?_, ?_⟩
    · rw [hqueued, leftQueued, if_pos rfl, if_pos (Or.inl hzero)]
    · simp [hdirty, dirtyThen, hzero]
  · rename_i hsome
    obtain rfl := Except.ok.inj h
    rw [List.getElem?_mapIdx] at hgr'
    obtain ⟨lg, hlg, rfl⟩ := Option.map_eq_some_iff.mp hgr'
    obtain ⟨hls, -⟩ := List.getElem?_zip_eq_some.mp hlg
    obtain ⟨f₁, hf₁, rfl⟩ : ∃ f₁, (flushGroup (doff g) lg.1 lg.2.file).ranks[i]? = some f₁ ∧
        { f₁ with metadirty := true } = f' := by
      rw [Group.markDirty, List.getElem?_map] at hrank
      exact Option.map_eq_some_iff.mp hrank
    unfold flushGroup at hf₁
    dsimp only at hf₁
    split at hf₁
    · -- the group has nothing to write
      rename_i hnone
      rw [List.getElem?_map] at hf₁
      obtain ⟨l, hl, rfl⟩ := Option.map_eq_some_iff.mp hf₁
      obtain ⟨gr, f, hgr, hf, hlf, hsize⟩ := hfind hls hl
      refine ⟨gr, f, hgr, hf, fun rs hbal => ?_⟩
      obtain ⟨hbal', -, -, hqueued⟩ := localFlush_balanced hbal hlf
      refine ⟨⟨hbal'.account, hbal'.nflushed_le⟩, ?_, ?_⟩
      · rw [leftQueued, if_pos rfl, if_pos (Or.inr (hsize.symm.trans hnone)), ← hqueued]
        rfl
      · rw [dirtyThen_of_ne hsome]
    · rename_i hgroup
      obtain ⟨l, base, hl, -, rfl⟩ := List.getElem?_zipWith_eq_some.mp hf₁
      obtain ⟨gr, f, hgr, hf, hlf, hsize⟩ := hfind hls hl
      refine ⟨gr, f, hgr, hf, fun rs hbal => ?_⟩
      obtain ⟨hbal', -⟩ := localFlush_balanced hbal hlf
      obtain ⟨hfinish, hqueued⟩ := finishRank_balanced hbal' (base + doff g)
      refine ⟨⟨hfinish.account, hfinish.nflushed_le⟩, ?_, ?_⟩
      · rw [leftQueued, if_pos rfl, if_neg (by rw [← hsize]; exact not_or.mpr ⟨hsome, hgroup⟩), ← hqueued]
        rfl
      · rw [dirtyThen_of_ne hsome]

theorem flushGroup_ranks_length (doff : HSize) (locals : List LocalFlush) (file : Lib.Store) :
    (flushGroup doff locals file).ranks.length = locals.length := by
  unfold flushGroup
  dsimp only
  split
  · rw [List.length_map]
  · rw [List.length_zipWith, exscan_length, List.length_map, min_self]

theorem flushWriteReqs_sameRanks {config : I32} {doff : ℕ → HSize} {groups groups' : List Group}
    (h : flushWriteReqs config doff groups = .ok groups') : SameRanks groups groups' := by
  unfold flushWriteReqs at h
  obtain ⟨locals, hlocals, h⟩ := Lib.bind_eq_ok.mp h
  have hbrought := Lib.mapM_eq_ok_iff.mp hlocals
  have hlen : locals.map List.length = groups.map fun gr => gr.ranks.length := by
    rw [← List.forall₂_eq_eq_eq, List.forall₂_map_left_iff, List.forall₂_map_right_iff]
    exact hbrought.flip.imp fun _ _ hls => (Lib.mapM_eq_ok_iff.mp hls).length_eq.symm
  have hzip : locals.length ≤ groups.length := hbrought.length_eq.ge
  rw [SameRanks, ← hlen]
  dsimp only at h
  split at h
  · obtain rfl := Except.ok.inj h
    rw [List.map_zipWith, ← List.map_uncurry_zip_eq_zipWith]
    conv_rhs => rw [← List.map_fst_zip hzip, List.map_map]
    exact List.map_congr_left fun _ _ => List.length_map _
  · obtain rfl := Except.ok.inj h
    apply List.ext_getElem
    · simp [hbrought.length_eq]
    · intro g _ _
      simp [Group.markDirty, flushGroup_ranks_length]

/-- The flush before the reads of a call, if there is one. -/
theorem flushFirst_rank {config : I32} {doff : ℕ → HSize} {first : Bool} {groups groups' : List Group}
    (h : (if first && pendingWrites groups then flushWriteReqs config doff groups else .ok groups) = .ok groups')
    {g i : ℕ} {f' : RankFile} (hf' : rankOf groups' g i = some f') :
    ∃ gr f, groups[g]? = some gr ∧ gr.ranks[i]? = some f ∧ ∀ rs, f.Balanced rs → f'.Balanced rs ∧
      f'.queuedSizes = leftQueued (first && pendingWrites groups) groups gr f ∧
        f'.metadirty = dirtyThen (first && pendingWrites groups) groups f := by
  split at h
  · rename_i hflush
    obtain ⟨gr, f, hgr, hf, hto⟩ := flushWriteReqs_rank h hf'
    refine ⟨gr, f, hgr, hf, fun rs hbal => ?_⟩
    rw [hflush]
    exact ⟨(hto rs hbal).balanced, (hto rs hbal).queued, (hto rs hbal).dirty⟩
  · rename_i hno
    obtain rfl := Except.ok.inj h
    obtain ⟨gr, hgr, hf⟩ := rankOf_eq_some_iff.mp hf'
    rw [Bool.not_eq_true] at hno
    refine ⟨gr, f', hgr, hf, fun rs hbal => ⟨hbal, ?_, ?_⟩⟩
    · rw [hno]
      rfl
    · rw [hno]
      simp [dirtyThen]

/-! ## §5 — runs. -/

/-- Taking the buffers of reads changes nothing that a flush of writes looks at. -/
theorem takeReads_same {env : FileEnv} {rds : ℕ → ℕ → ReadCall} {groups groups' : List Group}
    (h : eachRank (fun g i => takeRead env (rds g i)) groups = .ok groups') :
    pendingWrites groups' = pendingWrites groups ∧ fsizeAll groups' = fsizeAll groups ∧
      ∀ g : ℕ, groups'[g]?.map fsizeGroup = groups[g]?.map fsizeGroup := by
  have hsame {β : Type} (φ : RankFile → β) (hφ : ∀ (f : RankFile) b, φ { f with bused := b } = φ f) :
      groups'.map (fun gr => gr.ranks.map φ) = groups.map fun gr => gr.ranks.map φ := by
    refine eachRank_map φ h fun g i f f' hact => ?_
    obtain ⟨r, -, hact⟩ := Lib.bind_eq_ok.mp hact
    split at hact
    · rw [Except.ok.inj hact]
    · obtain ⟨bused, -, hact⟩ := Lib.bind_eq_ok.mp hact
      rw [← Except.ok.inj hact, hφ]
  have hsize := hsame RankFile.fsizeLocal fun _ _ => rfl
  have hgroup : groups'.map fsizeGroup = groups.map fsizeGroup := by
    have hsum := congrArg (List.map List.sum) hsize
    rwa [List.map_map, List.map_map] at hsum
  refine ⟨?_, ?_, fun g => ?_⟩
  · have hpending := congrArg List.flatten (hsame RankFile.numPendingWrites fun _ _ => rfl)
    rw [← List.flatMap_def, ← List.flatMap_def] at hpending
    rw [pendingWrites, pendingWrites, hpending]
  · rw [fsizeAll, fsizeAll, hgroup]
  · rw [← List.getElem?_map, ← List.getElem?_map, hgroup]

/-- Where a call leaves the processes: they are the same ones, and each is balanced exactly when the call keeps
what it needs. -/
structure CallKeeps (env : ReadEnv) (s s' : Session) (c : IoCall) : Prop where
  ranks : SameRanks s.groups s'.groups
  balanced : ∀ g i f', rankOf s'.groups g i = some f' → ∃ gr f, s.groups[g]? = some gr ∧ gr.ranks[i]? = some f ∧
    (f'.Balanced (s'.rreqs g i) ↔ s.RankKeeps env g i gr f c)

theorem write_keeps {env : ReadEnv} {s s' : Session} {g i : ℕ} {w : UserWrite} (h : s.Accounted)
    (hs : s.step env (.write g i w) = .ok s') : CallKeeps env s s' (.write g i w) := by
  unfold Session.step at hs
  dsimp only at hs
  split at hs
  · cases hs
  rename_i f hf
  split at hs
  · rename_i f' hwrite
    obtain rfl := Except.ok.inj hs
    refine ⟨setRank_sameRanks s.groups g i f', fun g' i' f₁ hf₁ => ?_⟩
    rcases rankOf_setRank hf hf₁ with ⟨rfl, rfl, rfl⟩ | ⟨-, hf₁⟩
    · obtain ⟨gr, hgr, hrank⟩ := rankOf_eq_some_iff.mp hf
      exact ⟨gr, f, hgr, hrank, iff_of_true (datasetWrite_balanced (h _ _ _ hf) hwrite) trivial⟩
    · obtain ⟨gr, hgr, hrank⟩ := rankOf_eq_some_iff.mp hf₁
      exact ⟨gr, f₁, hgr, hrank, iff_of_true (h _ _ _ hf₁) trivial⟩
  · cases hs

theorem read_keeps {env : ReadEnv} {s s' : Session} {g i : ℕ} {rd : ReadCall} (h : s.Accounted)
    (hs : s.step env (.read g i rd) = .ok s') : CallKeeps env s s' (.read g i rd) := by
  unfold Session.step at hs
  dsimp only at hs
  split at hs
  · cases hs
  rename_i f hf
  obtain ⟨f', hread, hs⟩ := Lib.bind_eq_ok.mp hs
  obtain rfl := Except.ok.inj hs
  refine ⟨setRank_sameRanks s.groups g i f', fun g' i' f₁ hf₁ => ?_⟩
  rcases rankOf_setRank hf hf₁ with ⟨rfl, rfl, rfl⟩ | ⟨hne, hf₁⟩
  · obtain ⟨gr, hgr, hrank⟩ := rankOf_eq_some_iff.mp hf
    refine ⟨gr, f, hgr, hrank, iff_of_true ?_ trivial⟩
    simpa using (takeRead_balanced (h _ _ _ hf) hread).1
  · obtain ⟨gr, hgr, hrank⟩ := rankOf_eq_some_iff.mp hf₁
    refine ⟨gr, f₁, hgr, hrank, iff_of_true ?_ trivial⟩
    -- the queue of another process
    have hsame : Function.update s.rreqs g (Function.update (s.rreqs g) i (s.rreqs g i ++ rd.reqs f)) g' i' =
        s.rreqs g' i' := by
      by_cases hg : g' = g
      · subst hg
        have hi : i' ≠ i := fun heq => hne ⟨rfl, heq⟩
        simp [hi]
      · simp [hg]
    have hbal := h _ _ _ hf₁
    rw [← hsame] at hbal
    exact hbal

theorem flushBefore_eq (env : ReadEnv) (doff : ℕ → HSize) (first : Bool) (groups : List Group) :
    flushBefore env doff first groups =
      if first && pendingWrites groups then flushWriteReqs env.config doff groups else .ok groups := by
  unfold flushBefore flushPendingWrites
  cases first <;> simp

theorem flushFirst_sameRanks {config : I32} {doff : ℕ → HSize} {b : Bool} {groups groups' : List Group}
    (h : (if b then flushWriteReqs config doff groups else .ok groups) = .ok groups') :
    SameRanks groups groups' := by
  split at h
  · exact flushWriteReqs_sameRanks h
  · rw [Except.ok.inj h]
    rfl

/-- A read at once on one process: its request is the one that is flushed, and then it is gone. -/
theorem finishRead_balanced {config : I32} {rest rs : List Rreq} {f f' : RankFile} (h : f.Balanced (rest ++ rs))
    (hfinish : finishRead config rs f = .ok f') :
    f'.Balanced rest ↔ rs ≠ [] → ReadsKept config rs f.metadirty f.queuedSizes := by
  unfold finishRead at hfinish
  split at hfinish
  · rename_i hnone
    obtain rfl := Except.ok.inj hfinish
    rw [hnone, List.append_nil] at h
    exact iff_of_true h fun hsome => absurd hnone hsome
  · rename_i hsome
    exact (flushReads_balanced h hfinish).trans (imp_iff_right hsome).symm

theorem readNow_keeps {env : ReadEnv} {s s' : Session} {rds : ℕ → ℕ → ReadCall} {doff : ℕ → HSize}
    (h : s.Accounted) (hs : s.step env (.readNow rds doff) = .ok s') :
    CallKeeps env s s' (.readNow rds doff) := by
  obtain ⟨groups₁, htake, hs⟩ := Lib.bind_eq_ok.mp hs
  obtain ⟨groups₂, hflush, hs⟩ := Lib.bind_eq_ok.mp hs
  obtain ⟨groups₃, hfinish, hs⟩ := Lib.bind_eq_ok.mp hs
  obtain rfl := Except.ok.inj hs
  rw [flushBefore_eq] at hflush
  obtain ⟨hpending, hall, hgroup⟩ := takeReads_same htake
  have hranks := (eachRank_sameRanks htake).trans (flushFirst_sameRanks hflush)
  refine ⟨hranks.trans (eachRank_sameRanks hfinish), fun g i f₃ hf₃ => ?_⟩
  -- the process before the reads are flushed, before the writes are flushed, and before the call
  obtain ⟨gr₃, hgr₃, hrank₃⟩ := rankOf_eq_some_iff.mp hf₃
  obtain ⟨gr₂, f₂, hgr₂, hrank₂, hact⟩ := eachRank_group hfinish hgr₃ hrank₃
  obtain ⟨gr₁, f₁, hgr₁, hrank₁, hto⟩ := flushFirst_rank hflush (rankOf_eq_some_iff.mpr ⟨gr₂, hgr₂, hrank₂⟩)
  obtain ⟨gr, f, hgr, hrank, hread⟩ := eachRank_group htake hgr₁ hrank₁
  refine ⟨gr, f, hgr, hrank, ?_⟩
  have hf : rankOf s.groups g i = some f := rankOf_eq_some_iff.mpr ⟨gr, hgr, hrank⟩
  obtain ⟨hbal₁, hsame⟩ := takeRead_balanced (h g i f hf) hread
  obtain ⟨hbal₂, hqueued, hdirty⟩ := hto _ hbal₁
  have hreqs : newReqs rds s.groups g i = (rds g i).reqs f := by rw [newReqs, hf, Option.elim_some]
  rw [hreqs] at hact
  have hsize : fsizeGroup gr₁ = fsizeGroup gr := by
    have hmap := hgroup g
    rw [hgr₁, hgr] at hmap
    exact Option.some.inj hmap
  have hleft (b : Bool) : leftQueued b groups₁ gr₁ f₁ = leftQueued b s.groups gr f := by
    rw [leftQueued, leftQueued, hall, hsize, hsame]
    rfl
  have hthen (b : Bool) : dirtyThen b groups₁ f₁ = dirtyThen b s.groups f := by
    rw [dirtyThen, dirtyThen, hall, hsame]
  have hiff := finishRead_balanced hbal₂ hact
  rw [hqueued, hdirty, hleft, hthen, hpending] at hiff
  exact hiff

theorem flush_keeps {env : ReadEnv} {s s' : Session} {doff : ℕ → HSize} (h : s.Accounted)
    (hs : s.step env (.flush doff) = .ok s') : CallKeeps env s s' (.flush doff) := by
  obtain ⟨groups₁, hflush, hs⟩ := Lib.bind_eq_ok.mp hs
  obtain ⟨groups₂, hqueue, hs⟩ := Lib.bind_eq_ok.mp hs
  obtain rfl := Except.ok.inj hs
  have hfirst : (if true && pendingWrites s.groups then flushWriteReqs env.config doff s.groups
      else .ok s.groups) = .ok groups₁ := hflush
  unfold flushQueue at hqueue
  -- Without queued reads the metadata is not flushed here, so nothing can be lost.
  cases hany : s.anyReads with
  | false =>
      rw [hany, if_neg Bool.false_ne_true] at hqueue
      obtain rfl := Except.ok.inj hqueue
      refine ⟨flushFirst_sameRanks hfirst, fun g i f₂ hf₂ => ?_⟩
      obtain ⟨gr, f, hgr, hrank, hto⟩ := flushFirst_rank hfirst hf₂
      refine ⟨gr, f, hgr, hrank, iff_of_true ?_ fun hreads => ?_⟩
      · exact (hto _ (h g i f (rankOf_eq_some_iff.mpr ⟨gr, hgr, hrank⟩))).1
      · rw [hany] at hreads
        cases hreads
  | true =>
      rw [hany, if_pos rfl] at hqueue
      refine ⟨(flushFirst_sameRanks hfirst).trans (eachRank_sameRanks hqueue), fun g i f₂ hf₂ => ?_⟩
      obtain ⟨gr₂, hgr₂, hrank₂⟩ := rankOf_eq_some_iff.mp hf₂
      obtain ⟨gr₁, f₁, hgr₁, hrank₁, hact⟩ := eachRank_group hqueue hgr₂ hrank₂
      obtain ⟨gr, f, hgr, hrank, hto⟩ := flushFirst_rank hfirst (rankOf_eq_some_iff.mpr ⟨gr₁, hgr₁, hrank₁⟩)
      refine ⟨gr, f, hgr, hrank, ?_⟩
      obtain ⟨hbal, hqueued, hdirty⟩ := hto _ (h g i f (rankOf_eq_some_iff.mpr ⟨gr, hgr, hrank⟩))
      have hbal' : f₁.Balanced ([] ++ s.rreqs g i) := hbal
      have hiff := flushReads_balanced hbal' hact
      rw [hqueued, hdirty] at hiff
      exact hiff.trans (imp_iff_right hany).symm

theorem step_keeps {env : ReadEnv} {s s' : Session} {c : IoCall} (h : s.Accounted) (hs : s.step env c = .ok s') :
    CallKeeps env s s' c := by
  cases c with
  | write g i w => exact write_keeps h hs
  | read g i rd => exact read_keeps h hs
  | readNow rds doff => exact readNow_keeps h hs
  | flush doff => exact flush_keeps h hs

/-- **One call** keeps the account exactly when it fulfils its condition. -/
theorem step_accounted_iff {env : ReadEnv} {s s' : Session} {c : IoCall} (h : s.Accounted)
    (hs : s.step env c = .ok s') : s'.Accounted ↔ s.Keeps env c := by
  have hkeeps := step_keeps h hs
  constructor
  · intro hacc g i gr f hgr hrank
    obtain ⟨f', hf'⟩ := hkeeps.ranks.rankOf hgr hrank
    obtain ⟨gr₁, f₁, hgr₁, hrank₁, hiff⟩ := hkeeps.balanced g i f' hf'
    obtain rfl : gr₁ = gr := Option.some.inj (hgr₁.symm.trans hgr)
    obtain rfl : f₁ = f := Option.some.inj (hrank₁.symm.trans hrank)
    exact hiff.mp (hacc g i f' hf')
  · intro hc g i f' hf'
    obtain ⟨gr, f, hgr, hrank, hiff⟩ := hkeeps.balanced g i f' hf'
    exact hiff.mpr (hc g i gr f hgr hrank)

theorem RankFile.Drained.liveSizes {f : RankFile} {rs : List Rreq} (h : f.Drained rs) : f.liveSizes rs = [] := by
  have hmerged : f.mreqs.flatMap slotBlocks = [] := List.flatMap_eq_nil_iff.mpr h.merged
  rw [RankFile.liveSizes, RankFile.queuedSizes, RankFile.mergedSizes, h.writes, hmerged, h.reads]
  rfl

theorem sound_iff {env : ReadEnv} {s : Session} : s.Sound env ↔ s.Accounted := by
  constructor
  · exact Session.Sound.accounted
  · intro h
    refine ⟨h, fun g i f hf hdrained => ?_, fun g i f w hf => datasetWrite_overLimit (h g i f hf)⟩
    have hbused := (h g i f hf).account
    rwa [hdrained.liveSizes] at hbused

theorem Session.Opened.accounted {s : Session} (h : s.Opened) : s.Accounted := by
  intro g i f hf
  obtain ⟨hwrites, hflushed, hmerged, hbused, hreads⟩ := h g i f hf
  have hdrained : f.Drained (s.rreqs g i) := by
    refine ⟨?_, fun m hm => ?_, hreads⟩
    · rw [RankFile.queued, hwrites, List.drop_nil]
    · rw [hmerged m hm]
      rfl
  refine ⟨?_, hflushed ▸ Nat.zero_le _⟩
  rw [hdrained.liveSizes, hbused]
  rfl

/-- A run up to some call is one call and then the run of what follows it. -/
theorem run_accounted_iff {env : ReadEnv} {s : Session} (calls : List IoCall) (h : s.Accounted) :
    (∀ cs s', cs <+: calls → s.run env cs = .ok s' → s'.Accounted) ↔ s.RunKeeps env calls := by
  induction calls generalizing s with
  | nil =>
      refine iff_of_true (fun cs s' hcs hs => ?_) trivial
      obtain rfl := List.prefix_nil.mp hcs
      exact Except.ok.inj hs ▸ h
  | cons c calls ih =>
      constructor
      · intro hall s₁ hs
        have hacc : s₁.Accounted := by
          refine hall [c] s₁ ⟨calls, rfl⟩ ?_
          show (s.step env c >>= fun s' => s'.run env []) = .ok s₁
          rw [hs]
          rfl
        refine ⟨(step_accounted_iff h hs).mp hacc, (ih hacc).mp fun cs s' hcs hrun => ?_⟩
        refine hall (c :: cs) s' (List.cons_prefix_cons.mpr ⟨rfl, hcs⟩) ?_
        show (s.step env c >>= fun s' => s'.run env cs) = .ok s'
        rw [hs]
        exact hrun
      · intro hkeeps cs s' hcs hrun
        cases cs with
        | nil => exact Except.ok.inj hrun ▸ h
        | cons c' cs =>
            obtain ⟨rfl, hrest⟩ := List.cons_prefix_cons.mp hcs
            obtain ⟨s₁, hs, hrun⟩ := Lib.bind_eq_ok.mp hrun
            obtain ⟨hc, hkept⟩ := hkeeps s₁ hs
            exact (ih ((step_accounted_iff h hs).mpr hc)).mpr hkept cs s' hrest hrun

/-- **The account is sound** in every state of a run, from a file that was just opened, if and only if every
call fulfils its condition: where it flushes reads from one file, none of the writes still queued has a buffer
when the metadata is dirty, and where it flushes them over several subfiles, none of them has a buffer. -/
theorem run_sound_iff (env : ReadEnv) (s : Session) (calls : List IoCall) (h : s.Opened) :
    (∀ cs s', cs <+: calls → s.run env cs = .ok s' → s'.Sound env) ↔ s.RunKeeps env calls := by
  simp only [sound_iff]
  exact run_accounted_iff calls h.accounted

/-- One process, with a file that was just created and has one dataset. -/
def justCreated : Session := ⟨[⟨[freshFile], fun _ => 0⟩], fun _ _ => []⟩

/-- A limit of 12 bytes, and the configuration of the file. -/
def smallBuffer (config : I32) : ReadEnv where
  toFileEnv := { sharingEnv 12 with config := config }
  xferCollective := false

/-- A read of two elements, whose memory type is not the dataset's: it has a buffer of 8 bytes. -/
def readTwo : ReadCall where
  did := 0
  msize := 4
  eqtype := false
  mem := .all
  dsel := [[(0, 2)]]
  granted := true

/-- That read is queued, and then the file is flushed. -/
def readThenFlush : List IoCall := [.read 0 0 readTwo, .flush fun _ => 0]

/-- A write of two elements, of another memory type as well. -/
def writeConverted : UserWrite := { writeTwo .notXfer with eqtype := 0 }

theorem justCreated_opened : justCreated.Opened := by
  intro g i f hf
  obtain ⟨gr, hgr, hrank⟩ := rankOf_eq_some_iff.mp hf
  obtain rfl := List.mem_singleton.mp (List.mem_of_getElem? hgr)
  obtain rfl := List.mem_singleton.mp (List.mem_of_getElem? hrank)
  exact ⟨rfl, rfl, by simp [freshFile], rfl, rfl⟩

/-- What the process is left with: the read's buffer in the account. -/
def heldEight : RankFile := { freshFile with bused := 8 }

/-- A limit of 16 bytes, and one file. -/
def twoBuffers : ReadEnv := { smallBuffer 0 with bsize := some 16 }

/-- A write and a read with a buffer of 8 bytes each, a flush of both, and another write. -/
def writeReadFlush : List IoCall :=
  [.write 0 0 writeConverted, .read 0 0 readTwo, .flush fun _ => 0, .write 0 0 writeConverted]

/-- The data of the write is flushed before the read is. -/
theorem run_sound_oneFile : justCreated.Opened ∧ (∃ s', justCreated.run twoBuffers writeReadFlush = .ok s') ∧
    ∀ cs s', cs <+: writeReadFlush → justCreated.run twoBuffers cs = .ok s' → s'.Sound twoBuffers := by
  refine ⟨justCreated_opened, ⟨_, rfl⟩, (run_sound_iff _ _ _ justCreated_opened).mpr fun s₁ hs₁ => ?_⟩
  obtain rfl := Except.ok.inj hs₁
  refine ⟨fun _ _ _ _ _ _ => trivial, fun s₂ hs₂ => ?_⟩
  obtain rfl := Except.ok.inj hs₂
  refine ⟨fun _ _ _ _ _ _ => trivial, fun s₃ _ => ⟨fun g i gr f hgr hrank _ => ?_, fun _ _ => ?_⟩⟩
  · obtain rfl := List.mem_singleton.mp (List.mem_of_getElem? hgr)
    obtain rfl := List.mem_singleton.mp (List.mem_of_getElem? hrank)
    -- the flush has written the 8 bytes, and no write is queued any more
    exact fun _ => by decide
  · exact ⟨fun _ _ _ _ _ _ => trivial, trivial⟩

/-- With subfiles it is not: both queues are empty in the end, and a write is refused, although 8 bytes do not
exceed the limit of 12. -/
theorem not_run_sound : ∃ s' f, justCreated.run (smallBuffer FileConfig.subfiling) readThenFlush = .ok s' ∧
    rankOf s'.groups 0 0 = some f ∧ f.Drained (s'.rreqs 0 0) ∧ f.bused = 8 ∧
      (datasetWrite (smallBuffer FileConfig.subfiling).toFileEnv writeConverted.toCall f).2 =
        .error outOfBuffer ∧
      ((f.liveSizes (s'.rreqs 0 0)).map BitVec.toNat).sum + 8 ≤ 12 ∧
      ¬ s'.Sound (smallBuffer FileConfig.subfiling) := by
  refine ⟨⟨[⟨[heldEight], fun _ => 0⟩], fun _ _ => []⟩, heldEight, rfl, rfl, ?_, rfl, by decide, by decide, ?_⟩
  · exact ⟨rfl, by decide, rfl⟩
  · intro hsound
    have hbused := hsound.drained 0 0 heldEight rfl ⟨rfl, by decide, rfl⟩
    exact absurd hbused (by decide)

end LogVol
