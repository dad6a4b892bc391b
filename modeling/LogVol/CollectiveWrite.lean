/-
# LogVol.CollectiveWrite — flushing and closing a file collectively.

A flush and a close call the same operations on every process, except for one: the barrier at the end of
a metadata flush is inside the branch of the groups that have metadata to write, and it is on the
communicator of the whole file. `flushClose_matched_iff` says when all calls match.
-/
import LogVol.CollectiveStages
import LogVol.IdxList

namespace LogVol

open Lib (Proc RunsOn Run Completes Returned)

/-! ## §1 — the processes of a job. -/

/-- The processes of a job with their queues. A metadata flush is collective in a group, so the
processes of one group agree on whether there is metadata to flush. -/
structure JobState (J : Job) where
  queues : Fin J.np → Queues
  dirty_group : ∀ i j, J.group i = J.group j →
    (queues i).file.metadirty = (queues j).file.metadirty

namespace JobState

variable {J : Job} (s : JobState J)

/-- The requests of a process, merged ones included. -/
def merged (i : Fin J.np) : RankFile := (s.queues i).file.flushMerged

/-- Some process has queued a read. -/
def SomeReads : Prop := ∃ i, 0 < (s.queues i).rreqs

/-- Some data is waiting to be written. -/
def SomeData : Prop :=
  J.pendingTotal (fun i => (s.queues i).file) ≠ 0

/-- The flush of the queued reads begins with a metadata flush of the process's group. -/
def Cleans (i : Fin J.np) : Prop :=
  s.SomeReads ∧ J.readsHere ∧ ((s.queues i).file.metadirty ∨ s.SomeData)

/-- **When the calls of a flush and a close match**: every process gets its data and entries ready; if
reads are queued, the processes of a group agree on whether they get to the read, and on whether they set a file
view; and at each metadata flush, the one before the queued reads and the one of the close, all groups have
metadata to write or none has. -/
structure Matches : Prop where
  data : ∀ i, FlushOk J.config (s.queues i).file
  entries : ∀ i, J.MetaOk (s.merged i)
  reads : s.SomeReads → J.readsHere → ReadsAgree J fun i => (s.queues i).searched.stage
  atRead : ∀ i j, J.Enters s.Cleans s.merged i → J.Enters s.Cleans s.merged j
  atClose : ∀ i j, J.Enters (fun i => ¬ s.Cleans i) s.merged i → J.Enters (fun i => ¬ s.Cleans i) s.merged j

end JobState

/-! ## §2 — closing. -/

/-- All processes take part. -/
abbrev Everyone {J : Job} (_ : Fin J.np) : Prop := True

theorem metaflush_everyone {J : Job} (f : Fin J.np → RankFile) :
    (fun i => J.metaflush i (f i)) = J.metaflushOn Everyone f := by
  funext i
  rw [Job.metaflushOn, if_pos trivial]

/-- Whether a group has metadata to write does not depend on where its data is. -/
theorem enters_same {J : Job} (D : Fin J.np → Prop) {f f' : Fin J.np → RankFile}
    (h : ∀ i, SamePlaces (f i).wreqs (f' i).wreqs) (i : Fin J.np) :
    J.Enters D f' i ↔ J.Enters D f i := by
  have hsize : J.metaSize f' i = J.metaSize f i := by
    rw [Job.metaSize, Job.metaSize, List.map_congr_left fun j _ => mdsize_same j (h j)]
  rw [Job.Enters, Job.Enters, hsize]

/-- **When a close completes**: every process gets its entries ready, and all groups have metadata to
write or none has. -/
theorem completes_close_iff {J : Job} (hplace : J.Allocates) {f : Fin J.np → RankFile}
    (hok : ∀ i, FlushOk J.config (f i)) :
    (Completes J.net fun i => J.fileiClose i (f i)) ↔
      (∀ i, J.MetaOk (f i).flushMerged) ∧
        ∀ i j, J.Enters Everyone (fun i => (f i).flushMerged) i →
          J.Enters Everyone (fun i => (f i).flushMerged) j := by
  obtain ⟨f', ⟨t, ht, -⟩, hf'⟩ := runs_flushWriteReqs hplace hok
  have hsame : ∀ i, SamePlaces (f i).flushMerged.wreqs (f' i).wreqs := fun i => (hf' i).1.same
  have hprog : (fun i => J.fileiClose i (f i)) = fun i =>
      J.flushWriteReqs i (f i) >>= fun f => J.metaflush i f := rfl
  rw [hprog, (ht.run _).completes_iff, metaflush_everyone]
  simp only [← enters_same Everyone hsame, ← metaOk_same (hsame _)]
  have hpure : J.metaflushOn Everyone f' = fun i =>
      J.metaflushOn Everyone f' i >>= fun f => pure f := by
    funext i
    exact (Proc.bind_pure _).symm
  refine ⟨fun h => ?_, fun ⟨hmeta, henter⟩ => ?_⟩
  · have hmeta : ∀ i, J.MetaOk (f' i) := by
      intro i
      cases hl : localMeta J.config (f' i) with
      | ok l => exact ⟨l, hl⟩
      | error e =>
          refine absurd h (Lib.not_completes_of_raise (i := i) (e := e) ?_)
          rw [← metaflush_everyone]
          show J.metaflush i (f' i) = _
          rw [Job.metaflush, hl]
    refine ⟨hmeta, fun i j hi => ?_⟩
    -- The barrier is on the whole file: a group with metadata waits there for one without.
    by_contra hj
    rw [hpure] at h
    exact Job.not_completes_metaflush (q := fun _ f => pure f) hplace Job.closed_true
      (fun i _ => hmeta i) hi hj (fun _ => trivial) h
  · obtain ⟨u, hu, -⟩ := Job.runs_metaflush hplace Job.closed_true (fun i _ => hmeta i) henter
    rw [hpure]
    exact ⟨_, _, hu.run _, fun i => ⟨_, rfl⟩⟩

/-! ## §3 — closing after a metadata flush. -/

/-- The size of the entries of a process. -/
def RankFile.entriesSize (f : RankFile) : MpiOffset :=
  (f.wreqs.map fun r => r.hdr.metaSize.signExtend 64).sum

/-- The decomposition map is in the section of one process. -/
theorem sum_mapSize {J : Job} (i : Fin J.np) :
    ((J.members (.group (J.group i))).map fun j =>
      if J.groupRank j = 0 then mapSize (J.groupNp j) else 0).sum = mapSize (J.groupNp i) := by
  obtain ⟨root, rest, hms⟩ : ∃ root rest, J.members (.group (J.group i)) = root :: rest := by
    have hmem : i ∈ J.members (.group (J.group i)) := Job.mem_group.mpr rfl
    cases hms : J.members (.group (J.group i)) with
    | nil => rw [hms] at hmem; exact absurd hmem List.not_mem_nil
    | cons root rest => exact ⟨root, rest, rfl⟩
  have hgroup : ∀ j ∈ root :: rest, J.group j = J.group i := fun j hj =>
    Job.mem_group.mp (hms ▸ hj)
  have hroot : J.groupRank root = 0 := Job.groupRank_head (g := J.group i) (by rw [hms]; rfl)
  have hothers : ∀ j ∈ rest, (if J.groupRank j = 0 then mapSize (J.groupNp j) else 0) = 0 := by
    intro j hj
    have hsorted : (J.members (.group (J.group i))).Pairwise (· < ·) :=
      (List.pairwise_lt_finRange J.np).filter _
    rw [hms] at hsorted
    have hbefore : root ∈ (J.members (.group (J.group j))).filter (· < j) := by
      rw [hgroup j (List.mem_cons_of_mem _ hj), hms, List.mem_filter]
      exact ⟨List.mem_cons_self .., decide_eq_true (List.rel_of_pairwise_cons hsorted hj)⟩
    refine if_neg fun hzero => absurd hbefore ?_
    rw [List.length_eq_zero_iff.mp hzero]
    exact List.not_mem_nil
  have hzero : (rest.map fun j => if J.groupRank j = 0 then mapSize (J.groupNp j) else 0).sum = 0 := by
    rw [List.map_congr_left hothers]
    simp
  rw [hms, List.map_cons, List.sum_cons, if_pos hroot, hzero, add_zero, Job.groupNp, Job.groupNp,
    hgroup root (List.mem_cons_self ..)]

/-- A metadata dataset holds the decomposition map and the entries. -/
theorem metaSize_eq {J : Job} (f : Fin J.np → RankFile) (i : Fin J.np) :
    J.metaSize f i = mapSize (J.groupNp i) +
      ((J.members (.group (J.group i))).map fun j => (f j).entriesSize).sum := by
  rw [← sum_mapSize i, ← List.sum_map_add]
  rfl

theorem metaSize_empty {J : Job} {f : Fin J.np → RankFile} {i : Fin J.np}
    (h : ∀ j, J.group j = J.group i → (f j).wreqs = []) : J.metaSize f i = mapSize (J.groupNp i) := by
  have hzero : ∀ j ∈ J.members (.group (J.group i)), (f j).entriesSize = 0 := by
    intro j hj
    rw [RankFile.entriesSize, h j (Job.mem_group.mp hj)]
    rfl
  rw [metaSize_eq, List.map_congr_left hzero]
  simp

/-- **Closing after a flush and a metadata flush of the processes in `D`.** -/
theorem completes_close_cleaned {J : Job} (hplace : J.Allocates) {f f' : Fin J.np → RankFile}
    (hf : ∀ i, Settled J.config (f i) (f' i)) {D : Fin J.np → Prop} (hD : J.Closed D) :
    (Completes J.net fun i => J.fileiClose i (J.cleaned D f' i)) ↔
      (∀ i, ¬ D i → J.MetaOk (f i).flushMerged) ∧
        ∀ i j, J.Enters (fun i => ¬ D i) (fun i => (f i).flushMerged) i →
          J.Enters (fun i => ¬ D i) (fun i => (f i).flushMerged) j := by
  classical
  have hin : ∀ i, D i → J.cleaned D f' i = (f' i).metaflushed := fun i hi => if_pos hi
  have hout : ∀ i, ¬ D i → J.cleaned D f' i = f' i := fun i hi => if_neg hi
  -- A process that has flushed its metadata has nothing left for the close to write.
  have hempty : ∀ i, D i → (J.cleaned D f' i).flushMerged.wreqs = [] := by
    intro i hi
    have hunmerged : (f' i).metaflushed.Unmerged := (hf i).unmerged
    rw [hin i hi, hunmerged.wreqs_eq]
    rfl
  have hsame : ∀ i, ¬ D i → SamePlaces (f i).flushMerged.wreqs (J.cleaned D f' i).flushMerged.wreqs := by
    intro i hi
    rw [hout i hi, (hf i).unmerged.wreqs_eq]
    exact (hf i).same
  have hok : ∀ i, FlushOk J.config (J.cleaned D f' i) := by
    intro i
    by_cases hi : D i
    · have hunmerged : (f' i).metaflushed.Unmerged := (hf i).unmerged
      rw [hin i hi, flushOk_iff, hunmerged.toFlush_eq]
      have hnone : (f' i).metaflushed.queued = [] := rfl
      rw [hnone]
      refine ⟨?_, Or.inl rfl⟩
      intro hlt
      rw [hunmerged.wreqs_eq] at hlt
      exact absurd hlt (Nat.not_lt_zero _)
    · rw [hout i hi]
      exact (hf i).flushOk
  rw [completes_close_iff hplace hok]
  have hmeta : ∀ i, J.MetaOk (J.cleaned D f' i).flushMerged ↔ (¬ D i → J.MetaOk (f i).flushMerged) := by
    intro i
    by_cases hi : D i
    · refine ⟨fun _ hnot => absurd hi hnot, fun _ => metaOk_iff.mpr ?_⟩
      rw [hempty i hi]
      exact fun b hb => absurd hb List.not_mem_nil
    · rw [metaOk_same (hsame i hi)]
      exact ⟨fun h _ => h, fun h => h hi⟩
  have henter : ∀ i, J.Enters Everyone (fun i => (J.cleaned D f' i).flushMerged) i ↔
      J.Enters (fun i => ¬ D i) (fun i => (f i).flushMerged) i := by
    intro i
    by_cases hi : D i
    · refine ⟨fun h => ?_, fun h => absurd hi h.1⟩
      have hsize := metaSize_empty (f := fun i => (J.cleaned D f' i).flushMerged) fun j hj =>
        hempty j ((hD j i hj).mpr hi)
      have hlt := h.2
      rw [hsize] at hlt
      exact (BitVec.lt_irrefl _ hlt).elim
    · have hsize : J.metaSize (fun i => (J.cleaned D f' i).flushMerged) i =
          J.metaSize (fun i => (f i).flushMerged) i := by
        refine congrArg List.sum (List.map_congr_left fun j hj => mdsize_same j (hsame j ?_))
        exact fun hj' => hi ((hD j i (Job.mem_group.mp hj)).mp hj')
      rw [Job.Enters, Job.Enters, hsize]
      exact ⟨fun h => ⟨hi, h.2⟩, fun h => ⟨trivial, h.2⟩⟩
  simp only [hmeta, henter]

/-! ## §4 — a flush and a close. -/

/-- **All calls match**: wherever the processes have got to, they can all go on to their ends, and when
they are there, all of them have been through the same operations on the communicator of the file, and
those of one group through the same operations on the communicator and the file of the group. -/
structure Job.Matched {α : Type} (J : Job) (p : Fin J.np → Job.Prog α) : Prop where
  ends : ∀ t p', Run J.net p t p' → ∃ u r, Run J.net p' u r ∧ Returned r
  world : ∀ t r, Run J.net p t r → Returned r → ∀ i j,
    (t i).filter (fun c => c.comm = .world) = (t j).filter fun c => c.comm = .world
  group : ∀ t r, Run J.net p t r → Returned r → ∀ i j, J.group i = J.group j →
    ((t i).filter fun c => c.comm = .group (J.group i)) =
      ((t j).filter fun c => c.comm = .group (J.group i)) ∧
    ((t i).filter fun c => c.comm = .handle (J.group i)) =
      (t j).filter fun c => c.comm = .handle (J.group i)

theorem Job.matched_iff {α : Type} {J : Job} {p : Fin J.np → Job.Prog α} :
    J.Matched p ↔ Completes J.net p := by
  refine ⟨fun h => h.ends _ _ .nil, fun h => ⟨?_, ?_, ?_⟩⟩
  · intro t p' hrun
    exact hrun.completes_iff.mp h
  · intro t r hrun _ i j
    exact hrun.same_calls (Job.mem_world i) (Job.mem_world j)
  · intro t r hrun _ i j hij
    exact ⟨hrun.same_calls (Job.mem_group.mpr rfl) (Job.mem_group.mpr hij.symm),
      hrun.same_calls (Job.mem_handle.mpr rfl) (Job.mem_handle.mpr hij.symm)⟩

/-- Every process runs `H5Fflush` and then closes the file. -/
def JobState.flushClose {J : Job} (s : JobState J) (i : Fin J.np) : Job.Prog RankFile := do
  let f ← J.fileiFlush i (s.queues i)
  J.fileiClose i f

theorem switchOps_plain (J : Job) : ∀ c ∈ J.switchOps,
    c.2 ≠ .allreduceMax ∧ c.2 ≠ .allreduceSum ∧ c.2 ≠ .gather := by
  intro c hc
  obtain ⟨_, -, hc⟩ := List.mem_flatMap.mp hc
  fin_cases hc <;> decide

/-- Without a metadata flush nothing is deleted. -/
theorem cleaned_none {J : Job} {D : Fin J.np → Prop} (h : ∀ i, ¬ D i) (f : Fin J.np → RankFile) :
    J.cleaned D f = f := funext fun i => if_neg (h i)

/-- The first call of a close is not the barrier. -/
theorem never_barrier_close {J : Job} (i : Fin J.np) (f : RankFile) :
    (J.fileiClose i f).Never Call.comm ⟨.world, .barrier⟩ := by
  unfold Job.fileiClose Job.flushWriteReqs
  cases localFlush J.config f with
  | error e => exact trivial
  | ok l => exact Or.inl ⟨rfl, nofun⟩

section

/-! What writes calls no operation of a read. -/

variable {J : Job} (i : Fin J.np) {c : Call} (hc : c.op = .setView ∨ c.op = .readAtAll)
include hc

theorem never_otherCall (scope : Job.Scope) {op : Collective} (arg : Words) (hview : op ≠ .setView)
    (hread : op ≠ .readAtAll) : (J.call i scope op arg).Never Call.comm c := by
  refine never_call i arg ?_
  rintro rfl
  exact hc.elim hview hread

theorem never_createDataset (arg : Words) : (J.createDataset i arg).Never Call.comm c := by
  unfold Job.createDataset
  refine (never_otherCall i hc .handle _ (by simp) (by simp)).bind fun doff => ?_
  split
  · refine (never_calls i ?_).bind fun _ => (never_otherCall i hc .handle _ (by simp) (by simp)).bind fun _ => trivial
    rintro x hx rfl
    rcases List.mem_pair.mp hx with rfl | rfl <;> simp at hc
  · exact trivial

theorem never_writeOps : (J.calls i [(.handle, J.writeOp), (.handle, .datasetClose)]).Never Call.comm c := by
  refine never_calls i ?_
  rintro x hx rfl
  rcases List.mem_pair.mp hx with rfl | rfl
  · unfold Job.writeOp at hc
    split at hc <;> simp at hc
  · simp at hc

theorem never_flushWriteReqs (f : RankFile) : (J.flushWriteReqs i f).Never Call.comm c := by
  unfold Job.flushWriteReqs
  cases localFlush J.config f with
  | error e => exact trivial
  | ok l =>
    refine (never_otherCall i hc .world _ (by simp) (by simp)).bind fun fsizeAll =>
      (never_otherCall i hc .world _ (by simp) (by simp)).bind fun foffAll => Proc.Never.bind ?_ fun sizes => ?_
    · unfold Job.groupSizes
      split
      · exact (never_otherCall i hc .group _ (by simp) (by simp)).bind fun _ =>
          (never_otherCall i hc .group _ (by simp) (by simp)).bind fun _ => trivial
      · exact trivial
    · split
      · exact trivial
      · refine Proc.Never.bind ?_ fun _ => trivial
        unfold Job.writeGroup Job.writeLog
        split
        · exact trivial
        · exact (never_createDataset i hc _).bind fun _ => (never_writeOps i hc).bind fun _ => trivial

theorem never_metaflush (f : RankFile) : (J.metaflush i f).Never Call.comm c := by
  unfold Job.metaflush Job.syncSizes
  cases localMeta J.config f with
  | error e => exact trivial
  | ok l =>
    refine Proc.Never.bind ((never_otherCall i hc .group _ (by simp) (by simp)).bind fun _ =>
      never_otherCall i hc .group _ (by simp) (by simp)) fun rbuf => Proc.Never.bind ?_ fun _ => trivial
    unfold Job.writeMeta
    split
    · exact (never_createDataset i hc _).bind fun _ => (never_writeOps i hc).bind fun _ =>
        (never_otherCall i hc .world [] (by simp) (by simp)).bind fun _ => trivial
    · exact trivial

end

/-- After a read, a close may follow. -/
theorem readEnds_close (J : Job) : ReadEnds J fun i f => J.fileiClose i f :=
  ⟨never_barrier_close,
    fun i f => (never_flushWriteReqs i (Or.inl rfl) f).bind fun f => never_metaflush i (Or.inl rfl) f,
    fun i f => (never_flushWriteReqs i (Or.inr rfl) f).bind fun f => never_metaflush i (Or.inr rfl) f⟩

namespace JobState

variable {J : Job} (s : JobState J)

theorem closed_cleans : J.Closed s.Cleans := by
  intro i j hij
  unfold Cleans
  rw [s.dirty_group i j hij]

/-- **The second half of the call**, once the pending writes are flushed. -/
theorem completes_reads_iff (hplace : J.Allocates) {f : Fin J.np → RankFile} {n : Fin J.np → HSize}
    (hn : ∀ i, 0 < n i ↔ s.SomeReads)
    (hf : ∀ i, Settled J.config (s.queues i).file (f i) ∧ (f i).metadirty =
      ((s.queues i).file.metadirty || decide (J.pendingTotal (fun i => (s.queues i).file) ≠ 0))) :
    (Completes J.net fun i =>
      J.flushQueuedReads i (n i) (s.queues i).searched.stage (f i) >>= fun f => J.fileiClose i f) ↔
      (∀ i, J.MetaOk (s.merged i)) ∧
      (s.SomeReads → J.readsHere → ReadsAgree J fun i => (s.queues i).searched.stage) ∧
      (∀ i j, J.Enters s.Cleans s.merged i → J.Enters s.Cleans s.merged j) ∧
      ∀ i j, J.Enters (fun i => ¬ s.Cleans i) s.merged i → J.Enters (fun i => ¬ s.Cleans i) s.merged j := by
  have hclose := completes_close_cleaned hplace (fun i => (hf i).1) s.closed_cleans
  have hsame : ∀ i, SamePlaces (s.merged i).wreqs (f i).wreqs := fun i => (hf i).1.same
  by_cases hhere : s.SomeReads ∧ J.readsHere
  · obtain ⟨hreads, hhere⟩ := hhere
    have hdirty : ∀ i, Dirty f i ↔ s.Cleans i := by
      intro i
      rw [Dirty, (hf i).2, Bool.or_eq_true, decide_eq_true_iff]
      exact ⟨fun h => ⟨hreads, hhere, h⟩, fun h => h.2.2⟩
    have hD : Dirty f = s.Cleans := funext fun i => propext (hdirty i)
    have hprog : (fun i => J.flushQueuedReads i (n i) (s.queues i).searched.stage (f i) >>= fun f =>
        J.fileiClose i f) = fun i => J.performRead i (s.queues i).searched.stage (f i) >>= fun f =>
          J.fileiClose i f := by
      funext i
      rw [Job.flushQueuedReads, if_pos ((hn i).mpr hreads), Job.flushReadReqs, if_pos hhere]
    have hclosed : J.Closed (Dirty f) := by rw [hD]; exact s.closed_cleans
    rw [hprog]
    refine ⟨fun h => ?_, fun ⟨hmeta, hfinds, hread, hclose'⟩ => ?_⟩
    · obtain ⟨hok, henter, hagree⟩ := performRead_of_completes hplace hclosed (readEnds_close J) h
      obtain ⟨t, ht, -⟩ := runs_performRead hplace hclosed hok henter hagree
      rw [(ht.run _).completes_iff, hD, hclose] at h
      rw [hD] at hok henter
      simp only [enters_same _ hsame, metaOk_same (hsame _)] at hok henter
      refine ⟨fun i => ?_, fun _ _ => hagree, henter, h.2⟩
      by_cases hi : s.Cleans i
      · exact hok i hi
      · exact h.1 i hi
    · have hok : ∀ i, Dirty f i → J.MetaOk (f i) := fun i _ => (metaOk_same (hsame i)).mpr (hmeta i)
      have henter : ∀ i j, J.Enters (Dirty f) f i → J.Enters (Dirty f) f j := by
        rw [hD]
        simp only [enters_same _ hsame]
        exact hread
      obtain ⟨t, ht, -⟩ := runs_performRead hplace hclosed hok henter (hfinds hreads hhere)
      rw [(ht.run _).completes_iff, hD, hclose]
      exact ⟨fun i _ => hmeta i, hclose'⟩
  · -- no read, or one that only goes through the subfiles
    have hnone : ∀ i, ¬ s.Cleans i := fun i h => hhere ⟨h.1, h.2.1⟩
    have hrun : ∃ ops, J.Runs (fun _ => True)
        (fun i => J.flushQueuedReads i (n i) (s.queues i).searched.stage (f i)) (fun _ => ops) f := by
      by_cases hreads : s.SomeReads
      · have hcalls := Job.runs_calls (J := J) Job.closed_true _ (fun _ _ => trivial) (switchOps_plain J)
        have hswitch : J.Runs (fun _ => True) (fun i => J.calls i J.switchOps >>= fun _ => pure (f i))
            (fun _ => Job.listedOf J.switchOps ++ []) f := hcalls.bind (Job.runs_pure _ f)
        refine ⟨_, hswitch.congr (fun i _ => ?_) (fun _ _ => rfl) fun _ _ => rfl⟩
        rw [Job.flushQueuedReads, if_pos ((hn i).mpr hreads), Job.flushReadReqs,
          if_neg fun h => hhere ⟨hreads, h⟩]
      · refine ⟨_, (Job.runs_pure _ f).congr (fun i _ => ?_) (fun _ _ => rfl) fun _ _ => rfl⟩
        rw [Job.flushQueuedReads, if_neg fun h => hreads ((hn i).mp h)]
    obtain ⟨ops, t, ht, -⟩ := hrun
    rw [cleaned_none hnone] at hclose
    rw [(ht.run _).completes_iff, hclose]
    refine ⟨fun h => ⟨fun i => h.1 i (hnone i), fun h₁ h₂ => absurd ⟨h₁, h₂⟩ hhere, ?_, h.2⟩,
      fun h => ⟨fun i _ => h.1 i, h.2.2.2⟩⟩
    exact fun i _ hi => absurd hi.1 (hnone i)

/-- A flush and a close complete when their calls match. -/
theorem completes_flushClose_iff (hplace : J.Allocates) :
    Completes J.net s.flushClose ↔ s.Matches := by
  obtain ⟨r, ⟨t, ht, -⟩, hr⟩ := runs_allreduceMax (J := J)
    (fun i => [BitVec.ofNat 64 (s.queues i).file.numPendingWrites, (s.queues i).rreqs])
    (n := 2) fun _ => rfl
  -- The number of pending writes fits the word it is sent in, so the maximum is 0 only when all are.
  have hpending : ∀ i, 0 < (r i).getD 0 0 ↔ SomePending fun i => (s.queues i).file := by
    intro i
    rw [hr i 0]
    refine exists_congr fun j => ?_
    show 0#64 < BitVec.ofNat 64 _ ↔ _
    rw [BitVec.lt_def, BitVec.toNat_ofNat (s.queues j).file.numPendingWrites,
      Nat.mod_eq_of_lt (s.queues j).fits]
    rfl
  have hreads : ∀ i, 0 < (r i).getD 1 0 ↔ s.SomeReads := fun i => hr i 1
  have hprog : s.flushClose = fun i =>
      J.call i .world .allreduceMax [BitVec.ofNat 64 (s.queues i).file.numPendingWrites,
        (s.queues i).rreqs] >>= fun r =>
      J.flushPending i (r.getD 0 0) (s.queues i).file >>= fun f =>
      J.flushQueuedReads i (r.getD 1 0) (s.queues i).searched.stage f >>= fun f => J.fileiClose i f := by
    funext i
    unfold flushClose Job.fileiFlush
    simp only [Proc.bind_assoc]
  rw [hprog, (ht.run _).completes_iff]
  refine ⟨fun h => ?_, fun h => ?_⟩
  · have hdata := fun i => flushOk_of_completes hpending h i
    obtain ⟨f, ops, ⟨u, hu, -⟩, hf⟩ := runs_flushPending hplace hpending hdata
    rw [(hu.run _).completes_iff, s.completes_reads_iff hplace hreads hf] at h
    obtain ⟨hentries, hfinds, hread, hclose⟩ := h
    exact ⟨hdata, hentries, hfinds, hread, hclose⟩
  · obtain ⟨f, ops, ⟨u, hu, -⟩, hf⟩ := runs_flushPending hplace hpending h.data
    rw [(hu.run _).completes_iff, s.completes_reads_iff hplace hreads hf]
    exact ⟨h.entries, h.reads, h.atRead, h.atClose⟩

/-- Every entry is as long as its header says, and the metadata of a group fits a file. -/
structure Sized : Prop where
  entries : ∀ i, ∀ r ∈ (s.merged i).wreqs, r.WellSized
  fits : ∀ i, sizeofOffset * (J.groupNp i + 1) + ((J.members (.group (J.group i))).map fun j =>
    ((s.merged j).wreqs.map fun r => r.metaBuf.length).sum).sum < 2 ^ 64

/-- The size of the entries of a process, as a number. -/
theorem entriesSize_toNat {f : RankFile} (h : ∀ r ∈ f.wreqs, r.WellSized)
    (hlt : (f.wreqs.map fun r => r.metaBuf.length).sum < 2 ^ 64) :
    f.entriesSize.toNat = (f.wreqs.map fun r => r.metaBuf.length).sum := by
  have hsize : (f.wreqs.map fun r => r.hdr.metaSize.signExtend 64).map BitVec.toNat =
      f.wreqs.map fun r => r.metaBuf.length := by
    rw [List.map_map]
    refine List.map_congr_left fun r hr => ?_
    have hr' : (r.metaBuf.length : Int) = r.hdr.metaSize.toInt := h r hr
    have hlen : r.hdr.metaSize.toInt < 2 ^ 31 := BitVec.toInt_lt
    show (BitVec.signExtend 64 r.hdr.metaSize).toNat = _
    rw [BitVec.signExtend, ← hr', BitVec.ofInt_natCast, BitVec.toNat_ofNat]
    omega
  rw [RankFile.entriesSize, sum_toNat (by rw [hsize]; exact hlt), hsize]

/-- **Which groups have metadata to write**: those in which some process has queued a request. -/
theorem enters_iff_queued (h : s.Sized) (D : Fin J.np → Prop) (i : Fin J.np) :
    J.Enters D s.merged i ↔ D i ∧ ∃ j, J.group j = J.group i ∧ (s.merged j).wreqs ≠ [] := by
  have hfits := h.fits i
  have hbuf : ∀ r : WReq, 0 < r.metaBuf.length := by
    intro r
    rw [WReq.metaBuf, List.length_append, MetaHdr.bytes_length]
    exact Nat.add_pos_left (by decide) _
  -- No process has more bytes of entries than its group, so no sum of the sizes wraps.
  have hle : ∀ j ∈ J.members (.group (J.group i)),
      ((s.merged j).wreqs.map fun r => r.metaBuf.length).sum ≤
        ((J.members (.group (J.group i))).map fun j =>
          ((s.merged j).wreqs.map fun r => r.metaBuf.length).sum).sum := fun j hj =>
    List.le_sum_of_mem (List.mem_map_of_mem (f := fun j =>
      ((s.merged j).wreqs.map fun r => r.metaBuf.length).sum) hj)
  have hsizes : ((J.members (.group (J.group i))).map fun j => (s.merged j).entriesSize).map
      BitVec.toNat = (J.members (.group (J.group i))).map fun j =>
        ((s.merged j).wreqs.map fun r => r.metaBuf.length).sum := by
    rw [List.map_map]
    refine List.map_congr_left fun j hj => entriesSize_toNat (h.entries j) ?_
    have := hle j hj
    omega
  have htotal : ((J.members (.group (J.group i))).map fun j => (s.merged j).entriesSize).sum.toNat =
      ((J.members (.group (J.group i))).map fun j =>
        ((s.merged j).wreqs.map fun r => r.metaBuf.length).sum).sum := by
    rw [sum_toNat (by rw [hsizes]; omega), hsizes]
  have hlt : mapSize (J.groupNp i) < J.metaSize s.merged i ↔
      0 < ((J.members (.group (J.group i))).map fun j =>
        ((s.merged j).wreqs.map fun r => r.metaBuf.length).sum).sum := by
    rw [metaSize_eq, BitVec.lt_def, BitVec.toNat_add, htotal, mapSize, BitVec.toNat_ofNat]
    omega
  rw [Job.Enters, hlt]
  apply and_congr_right
  intro _
  constructor
  · intro hpos
    by_contra hnone
    have hzero : ∀ j ∈ J.members (.group (J.group i)),
        ((s.merged j).wreqs.map fun r => r.metaBuf.length).sum = 0 := by
      intro j hj
      have hnil : (s.merged j).wreqs = [] := by
        by_contra hne
        exact hnone ⟨j, Job.mem_group.mp hj, hne⟩
      rw [hnil]
      rfl
    rw [List.map_congr_left hzero] at hpos
    simp at hpos
  · rintro ⟨j, hj, hne⟩
    obtain ⟨r, rs, hrs⟩ := List.exists_cons_of_ne_nil hne
    have hpos := hle j (Job.mem_group.mpr hj)
    rw [hrs, List.map_cons, List.sum_cons] at hpos
    have := hbuf r
    omega

end JobState

/-! ## §5 — two groups of one process. -/

/-- A request of one element of four bytes. -/
def oneElement : WReq :=
  { hdr := ⟨44, 0, 0, 0, 4⟩, body := Lib.putWords sizeofOffset ([0, 1] : Words), selOff := sizeofHdr, nsel := 1
    metaOff := 0, dbufs := [⟨[1, 2, 3, 4], 4, none⟩] }

/-- A process with these requests in its queue. -/
def queueOf (wreqs : List WReq) (h : wreqs.length < 2 ^ 64) : Queues where
  file := { dsetsInfo := [], wreqs := wreqs, nflushed := 0, mreqs := [], mdsize := 0, wreqHash := []
            bused := 0, zbsize := 0, zbuf := false, nldset := 0, metadirty := false }
  rreqs := 0
  searched := ⟨stableSort, .ok []⟩
  fits := h

/-- Two processes, each with a subfile of its own. -/
def twoGroups : Job where
  np := 2
  group := fun i => i.val
  config := FileConfig.subfiling
  xferCollective := false
  views := false
  place := fun _ _ => 4096
  placeLate := fun _ _ => 4096
  whole := nofun
  unaligned := by decide

/-- The second process has queued as many requests as `wreqs`, the first one has queued one. -/
def twoQueues (wreqs : List WReq) (h : wreqs.length < 2 ^ 64) : JobState twoGroups where
  queues := fun i => if i.val = 0 then queueOf [oneElement] (by decide) else queueOf wreqs h
  dirty_group := by
    intro i j _
    split <;> split <;> rfl

theorem twoGroups_allocates : twoGroups.Allocates := by
  intro g arg
  show (4096 : HSize) ≠ haddrUndef
  decide

/-- A process with one request can flush. -/
theorem flushOk_one {f : RankFile} (h : f = (queueOf [oneElement] (by decide)).file) : FlushOk 0 f := by
  have htoFlush : f.toFlush = [oneElement] := by rw [h]; rfl
  have hflag : hasFlag 0 FileConfig.passthru = false := by decide
  have hblocks : ([oneElement].flatMap WReq.dbufs).mapM (DataBlock.typeBytes false) =
      .ok (([oneElement].flatMap WReq.dbufs).map DataBlock.xbuf) := by
    rw [Lib.mapM_eq_ok_iff, List.forall₂_map_right_iff, List.forall₂_same]
    intro d hd
    obtain rfl := List.mem_singleton.mp hd
    exact typeBytes_eq rfl (by decide)
  rw [flushOk_iff, htoFlush, hflag]
  refine ⟨?_, Or.inr ⟨(blockCount_eq (by decide)).ge, _, hblocks, by decide⟩⟩
  intro _
  rw [h]
  decide

end LogVol
