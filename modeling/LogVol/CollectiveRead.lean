/-
# LogVol.CollectiveRead — reading collectively.

A process whose selection is empty returns from a read at once, and one that has no request fails before it calls
anything. `readAll_matched_iff` says when the calls of all processes match all the same, and when all of them go
through the same operations: the allreduce of the pending writes, the flush, the metadata flush and the read.
-/
import LogVol.CollectiveWrite

namespace LogVol

open Lib (Proc RunsOn Run Completes Returned)

/-! ## §1 — the same operations on every process. -/

/-- **All calls match, and every process goes through the same listed operations.** -/
structure Job.MatchedRead {α : Type} (J : Job) (p : Fin J.np → Job.Prog α) : Prop where
  matched : J.Matched p
  listed : ∀ t r, Run J.net p t r → Returned r → ∀ i j,
    (t i).filterMap Job.listed = (t j).filterMap Job.listed

/-- The processes run their programs, so the operations are those. -/
theorem Job.Runs.matchedRead_iff {α : Type} {J : Job} {p : Fin J.np → Job.Prog α}
    {ops : Fin J.np → List Collective} {a : Fin J.np → α} (h : J.Runs (fun _ => True) p ops a) :
    J.MatchedRead p ↔ ∀ i j, ops i = ops j := by
  obtain ⟨t, ht, hops⟩ := h
  have hprog : p = fun i => p i >>= pure := funext fun i => (Proc.bind_pure (p i)).symm
  have hrun : Run J.net p t fun i => pure (a i) := by
    have hbind := ht.run fun _ x => (pure x : Job.Prog α)
    rw [hprog]
    exact hbind
  have hret : Returned fun i => (pure (a i) : Job.Prog α) := fun i => ⟨a i, rfl⟩
  refine ⟨fun hm i j => ?_, fun heq => ⟨Job.matched_iff.mpr ⟨t, _, hrun, hret⟩, ?_⟩⟩
  · rw [← hops i trivial, ← hops j trivial]
    exact hm.listed t _ hrun hret i j
  · intro u r hu hr i j
    rw [hrun.calls_unique hret hu hr, hops i trivial, hops j trivial]
    exact heq i j

/-- A process that has returned goes through nothing, so nobody else may go through a listed
operation. -/
theorem Job.MatchedRead.not_always {α : Type} {J : Job} {p : Fin J.np → Job.Prog α}
    (h : J.MatchedRead p) {i j : Fin J.np} {a : α} (hi : p i = .ret a) {c : Call}
    (hc : (Job.listed c).isSome ∨ c.comm = .world) : ¬ (p j).Always c := by
  intro hj
  obtain ⟨t, r, hrun, hr⟩ := Job.matched_iff.mp h.matched
  have hmem : c ∈ t j := hrun.mem_of_always hr hj
  have hnil : t i = [] := hrun.ret_nil hi
  rcases hc with hlisted | hworld
  · obtain ⟨op, hop⟩ := Option.isSome_iff_exists.mp hlisted
    have hin : op ∈ (t j).filterMap Job.listed := List.mem_filterMap.mpr ⟨c, hmem, hop⟩
    rw [h.listed t r hrun hr j i, hnil] at hin
    exact absurd hin List.not_mem_nil
  · have hin : c ∈ (t j).filter fun c => c.comm = .world :=
      List.mem_filter.mpr ⟨hmem, decide_eq_true hworld⟩
    rw [h.matched.world t r hrun hr j i, hnil] at hin
    exact absurd hin List.not_mem_nil

/-! ## §2 — a blocking read. -/

/-- The read begins with an exchange of the pending writes. -/
def Job.Syncs (J : Job) : Prop := J.xferCollective ∨ J.np = 1

instance (J : Job) : Decidable J.Syncs := inferInstanceAs (Decidable (_ ∨ _))

theorem flushForRead_syncs {J : Job} (h : J.Syncs) (i : Fin J.np) (f : RankFile) :
    J.flushForRead i f =
      J.call i .world .allreduceMax [BitVec.ofNat 64 f.numPendingWrites] >>= fun r =>
        J.flushPending i (r.getD 0 0) f := if_pos h

theorem flushForRead_alone {J : Job} (h : ¬ J.Syncs) (i : Fin J.np) (f : RankFile) :
    J.flushForRead i f = pure f := if_neg h

theorem datasetiRead_silent {J : Job} {c : BlockingRead} (h : c.Silent) (i : Fin J.np) (f : RankFile) :
    J.datasetiRead i c f = pure f := by
  unfold Job.datasetiRead
  rcases h with h | h
  · rw [if_pos h]
  · rw [if_pos h, ite_self]

theorem datasetiRead_made {J : Job} {c : BlockingRead} (h : ¬ c.Silent) (i : Fin J.np) (f : RankFile) :
    J.datasetiRead i c f = J.flushForRead i f >>= fun f => J.flushReadReqs i c.searched.stage f := by
  rw [BlockingRead.Silent, not_or] at h
  unfold Job.datasetiRead
  rw [if_neg h.1, if_neg h.2]

namespace JobState

variable {J : Job} (s : JobState J) (reads : Fin J.np → BlockingRead)

/-- Every process makes a blocking read. -/
def readAll (i : Fin J.np) : Job.Prog RankFile := J.datasetiRead i (reads i) (s.queues i).file

/-- The requests a metadata flush would find: merged ones only once they are flushed. -/
def atRead (i : Fin J.np) : RankFile := if J.Syncs then s.merged i else (s.queues i).file

/-- The read begins with a metadata flush of the process's group. -/
def CleansForRead (i : Fin J.np) : Prop :=
  (s.queues i).file.metadirty ∨ J.Syncs ∧ s.SomeData

/-- **When the calls of a read match** with no process silent: if pending writes are flushed, every
process gets its data ready; and where one file is read, metadata is flushed by every process or by none,
every process gets its entries ready, all groups have metadata to write or none has, all processes get to the read
or none does, and the processes of a group agree on whether they set a file view. -/
structure ReadMatches : Prop where
  data : J.Syncs → ∀ i, FlushOk J.config (s.queues i).file
  entries : J.readsHere → ∀ i, s.CleansForRead i → J.MetaOk (s.atRead i)
  uniform : J.readsHere → ∀ i j, s.CleansForRead i → s.CleansForRead j
  enters : J.readsHere → ∀ i j, J.Enters s.CleansForRead s.atRead i → J.Enters s.CleansForRead s.atRead j
  reached : J.readsHere → hasFlag J.config FileConfig.passthru = false → ∀ i j,
    (reads i).searched.stage = .failed → (reads j).searched.stage = .failed
  agree : J.readsHere → ReadsAgree J fun i => (reads i).searched.stage

/-- Such a read calls nothing at all: the property list of the file is independent, one file is read, through the
underlying VOL or not at all, and no metadata is dirty. -/
structure ReadQuiet : Prop where
  independent : ¬ J.Syncs
  here : J.readsHere
  apart : ∀ i, ¬ (reads i).Silent →
    hasFlag J.config FileConfig.passthru ∨ (reads i).searched.stage = .failed
  clean : ∀ i, ¬ (reads i).Silent → (s.queues i).file.metadirty = false

theorem closed_cleansForRead : J.Closed s.CleansForRead := by
  intro i j hij
  unfold CleansForRead
  rw [s.dirty_group i j hij]

/-- The pending writes of every process are exchanged. -/
theorem runs_pending : ∃ r, J.Runs (fun _ => True)
    (fun i => J.call i .world .allreduceMax [BitVec.ofNat 64 (s.queues i).file.numPendingWrites])
    (fun _ => [.allreduceMax]) r ∧
    ∀ i, 0 < (r i).getD 0 0 ↔ SomePending fun i => (s.queues i).file := by
  obtain ⟨r, hrun, hr⟩ := runs_allreduceMax (J := J)
    (fun i => [BitVec.ofNat 64 (s.queues i).file.numPendingWrites]) (n := 1) fun _ => rfl
  refine ⟨r, hrun, fun i => (hr i 0).trans (exists_congr fun j => ?_)⟩
  show 0#64 < BitVec.ofNat 64 _ ↔ _
  rw [BitVec.lt_def, BitVec.toNat_ofNat (s.queues j).file.numPendingWrites,
    Nat.mod_eq_of_lt (s.queues j).fits]
  rfl

/-- What the processes have before the read. -/
structure Prepared (f : Fin J.np → RankFile) : Prop where
  same : ∀ i, SamePlaces (s.atRead i).wreqs (f i).wreqs
  dirty : ∀ i, (f i).metadirty = true ↔ s.CleansForRead i

/-- **The flush before a read.** -/
theorem runs_flushForRead (hplace : J.Allocates)
    (hok : J.Syncs → ∀ i, FlushOk J.config (s.queues i).file) :
    ∃ f ops, J.Runs (fun _ => True) (fun i => J.flushForRead i (s.queues i).file) (fun _ => ops) f ∧
      s.Prepared f := by
  by_cases hsync : J.Syncs
  · obtain ⟨r, hcall, hr⟩ := s.runs_pending
    obtain ⟨f, ops, hflush, hf⟩ := runs_flushPending hplace hr (hok hsync)
    have hrun : J.Runs (fun _ => True) (fun i => J.flushForRead i (s.queues i).file)
        (fun _ => [.allreduceMax] ++ ops) f := by
      simp only [flushForRead_syncs hsync]
      exact hcall.bind hflush
    refine ⟨f, _, hrun, fun i => ?_, fun i => ?_⟩
    · rw [atRead, if_pos hsync]
      exact (hf i).1.same
    · rw [(hf i).2, Bool.or_eq_true, decide_eq_true_iff, CleansForRead]
      exact or_congr_right ⟨fun h => ⟨hsync, h⟩, And.right⟩
  · refine ⟨fun i => (s.queues i).file, [], (Job.runs_pure _ _).congr
      (fun i _ => flushForRead_alone hsync i _) (fun _ _ => rfl) fun _ _ => rfl, fun i => ?_, fun i => ?_⟩
    · rw [atRead, if_neg hsync]
      exact samePlaces_refl _
    · exact ⟨Or.inl, fun h => h.resolve_right fun h => hsync h.1⟩

/-- A read of one file, after the flush. -/
theorem runs_readHere (hplace : J.Allocates) (hmade : ∀ i, ¬ (reads i).Silent) (hhere : J.readsHere)
    {f : Fin J.np → RankFile} {ops : List Collective}
    (hflush : J.Runs (fun _ => True) (fun i => J.flushForRead i (s.queues i).file) (fun _ => ops) f)
    (hclosed : J.Closed (Dirty f)) (hok : ∀ i, Dirty f i → J.MetaOk (f i))
    (henter : ∀ i j, J.Enters (Dirty f) f i → J.Enters (Dirty f) f j)
    (hagree : ReadsAgree J fun i => (reads i).searched.stage) :
    J.Runs (fun _ => True) (s.readAll reads)
      (fun i => ops ++ (Job.metaOps (Dirty f) i ++ (readListed J (reads i).searched.stage ++ [])))
      (J.cleaned (Dirty f) f) := by
  have hread : J.Runs (fun _ => True) (fun i => J.flushReadReqs i (reads i).searched.stage (f i))
      (fun i => Job.metaOps (Dirty f) i ++ (readListed J (reads i).searched.stage ++ []))
      (J.cleaned (Dirty f) f) := by
    refine (runs_performRead hplace hclosed hok henter hagree).congr (fun i _ => ?_) (fun _ _ => rfl)
      fun _ _ => rfl
    rw [Job.flushReadReqs, if_pos hhere]
  exact (hflush.bind hread).congr (fun i _ => datasetiRead_made (hmade i) i _) (fun _ _ => rfl) fun _ _ => rfl

/-- The listed operations of a metadata flush and a read say whether there is the one and the other. -/
theorem listed_eq_iff {D : Fin J.np → Prop} {i j : Fin J.np} {a b : ReadStage} :
    Job.metaOps D i ++ (readListed J a ++ []) = Job.metaOps D j ++ (readListed J b ++ []) ↔
      (D i ↔ D j) ∧ (hasFlag J.config FileConfig.passthru = false → (a = .failed ↔ b = .failed)) := by
  classical
  unfold Job.metaOps readListed
  by_cases hi : D i <;> by_cases hj : D j <;> cases hasFlag J.config FileConfig.passthru <;>
    cases a <;> cases b <;> simp [hi, hj]

/-- A read that completes has all data ready. -/
theorem flushOk_of_readAll (hmade : ∀ i, ¬ (reads i).Silent) (h : Completes J.net (s.readAll reads))
    (hsync : J.Syncs) (i : Fin J.np) : FlushOk J.config (s.queues i).file := by
  obtain ⟨r, ⟨t, ht, -⟩, hr⟩ := s.runs_pending
  have hflush : s.readAll reads = fun i =>
      J.call i .world .allreduceMax [BitVec.ofNat 64 (s.queues i).file.numPendingWrites] >>= fun r =>
      J.flushPending i (r.getD 0 0) (s.queues i).file >>= fun f =>
      J.flushReadReqs i (reads i).searched.stage f := by
    funext i
    rw [readAll, datasetiRead_made (hmade i), flushForRead_syncs hsync, Proc.bind_assoc]
  rw [hflush, (ht.run _).completes_iff] at h
  exact flushOk_of_completes hr h i

/-- **With no process silent.** -/
theorem matchedRead_iff_of_made (hplace : J.Allocates) (hmade : ∀ i, ¬ (reads i).Silent) :
    J.MatchedRead (s.readAll reads) ↔ s.ReadMatches reads := by
  have hprog : s.readAll reads = fun i => J.flushForRead i (s.queues i).file >>= fun f =>
      J.flushReadReqs i (reads i).searched.stage f := funext fun i => datasetiRead_made (hmade i) i _
  have hD : ∀ {f}, s.Prepared f → Dirty f = s.CleansForRead := fun hf => funext fun i => propext (hf.dirty i)
  refine ⟨fun h => ?_, fun h => ?_⟩
  · -- What has completed gives the conditions one by one, in the order of the calls.
    have hcompletes := Job.matched_iff.mp h.matched
    have hdata := s.flushOk_of_readAll reads hmade hcompletes
    obtain ⟨f, ops, hflush, hf⟩ := s.runs_flushForRead hplace hdata
    by_cases hhere : J.readsHere = true
    · have hclosed : J.Closed (Dirty f) := by rw [hD hf]; exact s.closed_cleansForRead
      obtain ⟨t, ht, -⟩ := id hflush
      rw [hprog, (ht.run _).completes_iff] at hcompletes
      have hread : (fun i => J.flushReadReqs i (reads i).searched.stage (f i)) = fun i =>
          J.performRead i (reads i).searched.stage (f i) >>= pure := by
        funext i
        rw [Job.flushReadReqs, if_pos hhere, Proc.bind_pure]
      rw [hread] at hcompletes
      obtain ⟨hok, henter, hagree⟩ := performRead_of_completes (q := fun _ => pure) hplace hclosed
        ⟨fun _ _ => trivial, fun _ _ => trivial, fun _ _ => trivial⟩ hcompletes
      have hruns := s.runs_readHere reads hplace hmade hhere hflush hclosed hok henter hagree
      have hops := fun i j => listed_eq_iff.mp (List.append_cancel_left (hruns.matchedRead_iff.mp h i j))
      rw [hD hf] at hok henter hops
      simp only [enters_same _ hf.same, metaOk_same (hf.same _)] at hok henter
      exact ⟨hdata, fun _ => hok, fun _ i j => (hops i j).1.mp, fun _ => henter,
        fun _ hpass i j => ((hops i j).2 hpass).mp, fun _ => hagree⟩
    · exact ⟨hdata, fun h => absurd h hhere, fun h => absurd h hhere, fun h => absurd h hhere,
        fun h => absurd h hhere, fun h => absurd h hhere⟩
  · obtain ⟨f, ops, hflush, hf⟩ := s.runs_flushForRead hplace h.data
    by_cases hhere : J.readsHere = true
    · have hclosed : J.Closed (Dirty f) := by rw [hD hf]; exact s.closed_cleansForRead
      have hok : ∀ i, Dirty f i → J.MetaOk (f i) := by
        intro i hi
        exact (metaOk_same (hf.same i)).mpr (h.entries hhere i ((hf.dirty i).mp hi))
      have henter : ∀ i j, J.Enters (Dirty f) f i → J.Enters (Dirty f) f j := by
        rw [hD hf]
        simp only [enters_same _ hf.same]
        exact h.enters hhere
      have hruns := s.runs_readHere reads hplace hmade hhere hflush hclosed hok henter (h.agree hhere)
      refine hruns.matchedRead_iff.mpr fun i j => congrArg (ops ++ ·) (listed_eq_iff.mpr ⟨?_, fun hpass => ?_⟩)
      · rw [hD hf]
        exact ⟨h.uniform hhere i j, h.uniform hhere j i⟩
      · exact ⟨h.reached hhere hpass i j, h.reached hhere hpass j i⟩
    · have hcalls := Job.runs_calls (J := J) Job.closed_true _ (fun _ _ => trivial) (switchOps_plain J)
      have hswitch : J.Runs (fun _ => True) (fun i => J.calls i J.switchOps >>= fun _ => pure (f i))
          (fun _ => Job.listedOf J.switchOps ++ []) f := hcalls.bind (Job.runs_pure _ f)
      have hread : J.Runs (fun _ => True) (fun i => J.flushReadReqs i (reads i).searched.stage (f i))
          (fun _ => Job.listedOf J.switchOps ++ []) f := by
        refine hswitch.congr (fun i _ => ?_) (fun _ _ => rfl) fun _ _ => rfl
        rw [Job.flushReadReqs, if_neg hhere]
      have hruns : J.Runs (fun _ => True) (s.readAll reads)
          (fun _ => ops ++ (Job.listedOf J.switchOps ++ [])) f :=
        (hflush.bind hread).congr (fun i _ => datasetiRead_made (hmade i) i _) (fun _ _ => rfl) fun _ _ => rfl
      exact hruns.matchedRead_iff.mpr fun _ _ => rfl

/-- What is among the calls is always called. -/
theorem always_calls {β : Type} (i : Fin J.np) {cs : List (Job.Scope × Collective)} (scope : Job.Scope)
    {op : Collective} (h : (scope, op) ∈ cs) (q : Job.Prog β) :
    (J.calls i cs >>= fun _ => q).Always ⟨J.comm i scope, op⟩ := by
  induction cs with
  | nil => exact absurd h List.not_mem_nil
  | cons c cs ih =>
      rcases List.mem_cons.mp h with rfl | h
      · exact Or.inl rfl
      · exact Or.inr fun _ => ih h

/-- A read that calls nothing matches. -/
theorem ReadQuiet.readMatches (h : s.ReadQuiet reads) (hmade : ∀ i, ¬ (reads i).Silent) : s.ReadMatches reads := by
  have hclean : ∀ i, ¬ s.CleansForRead i := by
    rintro i (hdirty | hsync)
    · rw [h.clean i (hmade i)] at hdirty
      cases hdirty
    · exact h.independent hsync.1
  have hfailed : hasFlag J.config FileConfig.passthru = false → ∀ i, (reads i).searched.stage = .failed := by
    intro hpass i
    refine (h.apart i (hmade i)).resolve_left fun hthru => ?_
    rw [hthru] at hpass
    cases hpass
  refine ⟨fun hsync => absurd hsync h.independent, fun _ i hi => absurd hi (hclean i),
    fun _ i _ hi => absurd hi (hclean i), fun _ i _ hi => absurd hi.1 (hclean i),
    fun _ hpass _ j _ => hfailed hpass j, fun _ hpass i j _ => ?_⟩
  simp [hfailed hpass i, hfailed hpass j]

/-- **With some processes silent, and some not.** -/
theorem matchedRead_iff_of_mixed {i j : Fin J.np} (hi : (reads i).Silent) (hj : ¬ (reads j).Silent) :
    J.MatchedRead (s.readAll reads) ↔ s.ReadQuiet reads := by
  have hsilent : ∀ {i}, (reads i).Silent → s.readAll reads i = .ret (s.queues i).file := fun h =>
    datasetiRead_silent h _ _
  refine ⟨fun h => ?_, fun h => ?_⟩
  · have hnot : ∀ {j}, ¬ (reads j).Silent → ∀ {c : Call}, (Job.listed c).isSome ∨ c.comm = .world →
        ¬ (J.flushForRead j (s.queues j).file >>= fun f =>
          J.flushReadReqs j (reads j).searched.stage f).Always c := by
      intro j hj c hc
      have halways := h.not_always (hsilent hi) hc (j := j)
      rwa [show s.readAll reads j = _ from datasetiRead_made hj j _] at halways
    have halone : ¬ J.Syncs := by
      intro hsync
      refine hnot hj (c := ⟨.world, .allreduceMax⟩) (Or.inr rfl) ?_
      rw [flushForRead_syncs hsync]
      exact Or.inl rfl
    have hhere : J.readsHere = true := by
      by_contra hhere
      have hngroup : 0 < J.ngroup := List.length_pos_of_mem
        (List.mem_dedup.mpr (List.mem_map_of_mem (List.mem_finRange i)))
      have hbcast : (.world, .bcast) ∈ J.switchOps :=
        List.mem_flatMap.mpr ⟨0, List.mem_range.mpr hngroup, by simp⟩
      refine hnot hj (c := ⟨.world, .bcast⟩) (Or.inr rfl) ?_
      rw [flushForRead_alone halone, Proc.pure_bind, Job.flushReadReqs, if_neg hhere]
      exact always_calls j _ hbcast _
    have hread : ∀ {j}, ¬ (reads j).Silent → ∀ {c : Call}, (Job.listed c).isSome →
        ¬ (J.performRead j (reads j).searched.stage (s.queues j).file).Always c := by
      intro j hj c hc
      have h := hnot hj (Or.inl hc)
      rwa [flushForRead_alone halone, Proc.pure_bind, Job.flushReadReqs, if_pos hhere] at h
    refine ⟨halone, hhere, fun j hj => ?_, fun j hj => ?_⟩
    · by_contra hreads
      rw [not_or] at hreads
      refine hread hj (c := ⟨.handle (J.group j), .readAtAll⟩) rfl ?_
      refine Proc.Always.bind (fun f => always_calls j Job.Scope.handle ?_ _) _
      unfold Job.readOps
      rw [if_neg hreads.1]
      cases hstage : (reads j).searched.stage with
      | failed => exact absurd hstage hreads.2
      | nothing => simp
      | typed => cases J.views <;> simp
    · by_contra hdirty
      refine hread hj (c := ⟨.group (J.group j), .gather⟩) rfl ?_
      unfold Job.performRead Job.cleanMeta Job.metaflush
      rw [if_pos (by simpa using hdirty)]
      cases localMeta J.config (s.queues j).file with
      | error e => exact trivial
      | ok l => exact Or.inl rfl
  · have hquiet : s.readAll reads = fun i => pure (s.queues i).file := by
      funext i
      by_cases hi : (reads i).Silent
      · exact hsilent hi
      · have hops : J.readOps (reads i).searched.stage = [] := by
          unfold Job.readOps
          rcases h.apart i hi with hpass | hfailed
          · rw [if_pos hpass]
          · rw [hfailed, ite_self]
        rw [readAll, datasetiRead_made hi, flushForRead_alone h.independent, Proc.pure_bind,
          Job.flushReadReqs, if_pos h.here, Job.performRead, Job.cleanMeta, h.clean i hi, hops]
        rfl
    rw [hquiet]
    exact (Job.runs_pure _ fun i => (s.queues i).file).matchedRead_iff.mpr fun _ _ => rfl

end JobState

/-! ## §3 — an empty selection. -/

/-- Two processes that share a file. -/
def twoRanks : Job where
  np := 2
  group := fun _ => 0
  config := 0
  xferCollective := false
  views := false
  place := fun _ _ => 4096
  placeLate := fun _ _ => 4096
  whole := fun _ _ _ => rfl
  unaligned := by decide

/-- Two processes with nothing queued. -/
def idleQueues : JobState twoRanks where
  queues := fun _ => queueOf [] (by decide)
  dirty_group := fun _ _ _ => rfl

theorem twoRanks_allocates : twoRanks.Allocates := by
  intro g arg
  show (4096 : HSize) ≠ haddrUndef
  decide

/-- A read of `nsel` blocks that finds nothing. -/
def emptyRead (nsel : Nat) : BlockingRead := ⟨nsel, true, ⟨stableSort, .ok []⟩⟩

end LogVol
