/-
# LogVol.CollectiveStages — flushing and reading as stages of a collective call.

What a flush leaves of a process (`Settled`) and when it fails; the exchange of counts that decides whether
there is a flush at all; and the read with the metadata flush before it. Each stage has a lemma for the
case that its calls match, and one that says what follows when the whole call completes.
-/
import LogVol.CollectiveRun

namespace LogVol

open Lib (Proc RunsOn Run Completes Returned)

/-! ## §1 — a process before and after a flush. -/

/-- The data of the queued requests can be written. -/
def FlushOk (config : I32) (f : RankFile) : Prop := ∃ l, localFlush config f = .ok l

/-- What decides whether a queue can be flushed: the data blocks and sizes of its requests. -/
def QueueOk (passthru : Bool) (rs : List WReq) : Prop :=
  blockCount rs = 0 ∨ (rs.flatMap WReq.dbufs).length ≤ blockCount rs ∧
    ∃ blocks, (rs.flatMap WReq.dbufs).mapM (DataBlock.typeBytes passthru) = .ok blocks ∧
      ¬ (passthru ∧ blocks.flatten.length ≠ (rs.map WReq.fsize).sum.toNat)

theorem flushOk_iff {config : I32} {f : RankFile} :
    FlushOk config f ↔ f.Visited ∧ QueueOk (hasFlag config FileConfig.passthru) f.toFlush := by
  rw [FlushOk, localFlush_eq, QueueOk]
  by_cases hreqs : f.Visited
  · rw [if_neg (not_overrun_iff.mpr hreqs), and_iff_right hreqs]
    by_cases hnone : blockCount f.toFlush = 0
    · rw [if_pos hnone]
      exact ⟨fun _ => Or.inl hnone, fun _ => ⟨_, rfl⟩⟩
    · rw [if_neg hnone, or_iff_right hnone]
      by_cases hcount : (f.toFlush.flatMap WReq.dbufs).length ≤ blockCount f.toFlush
      · rw [if_neg (not_lt.mpr hcount), and_iff_right hcount]
        constructor
        · rintro ⟨l, h⟩
          obtain ⟨blocks, hblocks, h⟩ := Lib.bind_eq_ok.mp h
          refine ⟨blocks, hblocks, ?_⟩
          intro hbad
          rw [if_pos hbad] at h
          cases h
        · rintro ⟨blocks, hblocks, hgood⟩
          rw [hblocks]
          exact ⟨_, if_neg hgood⟩
      · rw [if_pos (not_le.mp hcount)]
        refine iff_of_false ?_ fun h => hcount h.1
        rintro ⟨l, h⟩
        cases h
  · rw [if_pos (not_not.mp (mt not_overrun_iff.mp hreqs))]
    refine iff_of_false ?_ fun h => hreqs h.1
    rintro ⟨l, h⟩
    cases h

/-! ## §2 — what stays the same. -/

/-- The same requests, placed somewhere. -/
abbrev SamePlaces (rs rs' : List WReq) : Prop := List.Forall₂ WReq.SameBut rs rs'

theorem SameBut.refl (r : WReq) : r.SameBut r := ⟨r.hdr.foff, rfl⟩

theorem samePlaces_refl (rs : List WReq) : SamePlaces rs rs :=
  List.forall₂_same.mpr fun r _ => SameBut.refl r

theorem SameBut.trans {r r' r'' : WReq} (h : r.SameBut r') (h' : r'.SameBut r'') : r.SameBut r'' := by
  obtain ⟨foff, rfl⟩ := h
  obtain ⟨foff', rfl⟩ := h'
  exact ⟨foff', rfl⟩

/-- What does not depend on where a request is placed. -/
theorem SamePlaces.map_eq {γ : Type} {g : WReq → γ} (hg : ∀ {r r' : WReq}, r.SameBut r' → g r' = g r)
    {rs rs' : List WReq} (h : SamePlaces rs rs') : rs'.map g = rs.map g := by
  induction h with
  | nil => rfl
  | cons hr _ ih => rw [List.map_cons, List.map_cons, hg hr, ih]

theorem SamePlaces.trans {rs rs' rs'' : List WReq} (h : SamePlaces rs rs') (h' : SamePlaces rs' rs'') :
    SamePlaces rs rs'' := by
  induction h generalizing rs'' with
  | nil => exact h'
  | cons hr _ ih =>
      cases h' with
      | cons hr' htl => exact List.Forall₂.cons (SameBut.trans hr hr') (ih htl)

theorem samePlaces_placeReqs (acc : MpiOffset) (rs : List WReq) : SamePlaces rs (placeReqs acc rs) := by
  induction rs generalizing acc with
  | nil => exact List.Forall₂.nil
  | cons r rs ih => exact List.Forall₂.cons ⟨acc, rfl⟩ (ih _)

theorem samePlaces_moveBy (base : MpiOffset) (rs : List WReq) :
    SamePlaces rs (rs.map (WReq.moveBy base)) := by
  induction rs with
  | nil => exact List.Forall₂.nil
  | cons r rs ih => exact List.Forall₂.cons ⟨r.hdr.foff + base, rfl⟩ ih

theorem QueueOk.same {passthru : Bool} {rs rs' : List WReq} (h : SamePlaces rs rs') :
    QueueOk passthru rs' ↔ QueueOk passthru rs := by
  have hdbufs : rs'.flatMap WReq.dbufs = rs.flatMap WReq.dbufs := by
    rw [List.flatMap_def, List.flatMap_def, h.map_eq]
    rintro r r' ⟨foff, rfl⟩
    rfl
  have hfsize : rs'.map WReq.fsize = rs.map WReq.fsize := by
    refine h.map_eq ?_
    rintro r r' ⟨foff, rfl⟩
    rfl
  rw [QueueOk, QueueOk, blockCount, blockCount, hdbufs, hfsize]

/-- Whether the entries of a process can be written is a matter of each entry. -/
theorem metaOk_iff {J : Job} {f : RankFile} :
    J.MetaOk f ↔ ∀ b ∈ f.wreqs.map fun r =>
      (r.metaTypeBytes (hasFlag J.config FileConfig.passthru)).isOk, b = true := by
  rw [List.forall_mem_map, ← Lib.mapM_isOk_iff]
  show (∃ l, localMeta J.config f = .ok l) ↔ _
  unfold localMeta
  refine ⟨fun ⟨l, h⟩ => ?_, fun ⟨entries, h⟩ => ?_⟩
  · obtain ⟨entries, hentries, -⟩ := Lib.bind_eq_ok.mp h
    exact ⟨entries, hentries⟩
  · exact ⟨_, Lib.bind_eq_ok.mpr ⟨entries, h, rfl⟩⟩

theorem metaOk_same {J : Job} {f f' : RankFile} (h : SamePlaces f.wreqs f'.wreqs) :
    J.MetaOk f' ↔ J.MetaOk f := by
  rw [metaOk_iff, metaOk_iff, h.map_eq fun hr => SameBut.metaTypeBytes_isOk hr _]

theorem mdsize_same {J : Job} (i : Fin J.np) {f f' : RankFile} (h : SamePlaces f.wreqs f'.wreqs) :
    J.mdsize i f' = J.mdsize i f := by
  rw [Job.mdsize, Job.mdsize, h.map_eq]
  rintro r r' ⟨foff, rfl⟩
  rfl

/-! ## §3 — a process after a flush. -/

/-- No merged request waits to be flushed. -/
def RankFile.Unmerged (f : RankFile) : Prop := f.mreqs.filterMap pendingMerged = []

theorem unmerged_flushMerged (f : RankFile) : f.flushMerged.Unmerged := by
  show (f.mreqs.map fun m => if (pendingMerged m).isSome then none else m).filterMap pendingMerged = []
  rw [List.filterMap_map, List.filterMap_eq_nil_iff]
  intro m _
  show pendingMerged (if (pendingMerged m).isSome then none else m) = none
  split
  · rfl
  · rename_i h
    exact Option.not_isSome_iff_eq_none.mp h

theorem RankFile.Unmerged.wreqs_eq {f : RankFile} (h : f.Unmerged) : f.flushMerged.wreqs = f.wreqs := by
  show f.wreqs ++ (f.mreqs.filterMap pendingMerged).map _ = _
  rw [h, List.map_nil, List.append_nil]

theorem RankFile.Unmerged.toFlush_eq {f : RankFile} (h : f.Unmerged) : f.toFlush = f.queued := by
  show f.flushMerged.wreqs.drop f.nflushed = _
  rw [RankFile.Unmerged.wreqs_eq h]
  rfl

/-- **A process whose requests have been flushed**, or are all of them: the requests are the same, merged
ones included, and another flush succeeds. -/
structure Settled (config : I32) (f f' : RankFile) : Prop where
  same : SamePlaces f.flushMerged.wreqs f'.wreqs
  unmerged : f'.Unmerged
  flushOk : FlushOk config f'

theorem drop_take_append {γ : Type} {xs ys : List γ} {n : Nat} (h : ys.length = (xs.drop n).length) :
    (xs.take n ++ ys).drop n = ys := by
  by_cases hn : n ≤ xs.length
  · exact List.drop_left' (by rw [List.length_take, min_eq_left hn])
  · have hnil : ys = [] := by
      rw [← List.length_eq_zero_iff, h, List.length_drop]
      omega
    rw [hnil, List.append_nil, List.drop_eq_nil_of_le]
    rw [List.length_take]
    omega

/-- As many requests in the queue, of which as many are flushed. -/
theorem visited_same {f f' : RankFile} (h : f.Visited) (hunmerged : f'.Unmerged) (hnf : f'.nflushed = f.nflushed)
    (hlen : f'.wreqs.length = f.flushMerged.wreqs.length) : f'.Visited := by
  rw [RankFile.Visited, hunmerged.wreqs_eq, hlen, hnf]
  exact h

theorem settled_local {config : I32} {f : RankFile} {l : LocalFlush} (h : localFlush config f = .ok l) :
    Settled config f l.file := by
  obtain ⟨hvisited, hok⟩ := flushOk_iff.mp ⟨l, h⟩
  have hmerged : f.flushMerged.Unmerged := unmerged_flushMerged f
  rcases (localFlush_cases h).2 with ⟨-, rfl⟩ | ⟨-, -, bytes, rfl⟩
  · refine ⟨samePlaces_refl _, hmerged, flushOk_iff.mpr ⟨visited_same hvisited hmerged rfl rfl, ?_⟩⟩
    rw [hmerged.toFlush_eq]
    exact hok
  · have hunmerged : f.placed.Unmerged := hmerged
    have hwreqs : SamePlaces f.flushMerged.wreqs f.placed.wreqs := by
      show SamePlaces f.flushMerged.wreqs (f.flushMerged.wreqs.take f.nflushed ++ placeReqs 0 f.toFlush)
      nth_rewrite 1 [← List.take_append_drop f.nflushed f.flushMerged.wreqs]
      exact List.rel_append (samePlaces_refl _) (samePlaces_placeReqs 0 f.toFlush)
    refine ⟨hwreqs, hunmerged,
      flushOk_iff.mpr ⟨visited_same hvisited hunmerged rfl hwreqs.length_eq.symm, ?_⟩⟩
    rw [hunmerged.toFlush_eq]
    have hplaces := samePlaces_placeReqs 0 f.toFlush
    have hqueued : f.placed.queued = placeReqs 0 f.toFlush :=
      drop_take_append hplaces.length_eq.symm
    rw [hqueued]
    exact (QueueOk.same hplaces).mpr hok

theorem settled_finish {config : I32} {f : RankFile} {l : LocalFlush} (h : localFlush config f = .ok l)
    (base : MpiOffset) : Settled config f (finishRank base l.file) := by
  have hl := settled_local h
  have hunmerged : (finishRank base l.file).Unmerged := hl.unmerged
  have hplaces : SamePlaces l.file.wreqs (finishRank base l.file).wreqs := by
    show SamePlaces l.file.wreqs (l.file.wreqs.take l.file.nflushed ++ l.file.queued.map (WReq.moveBy base))
    nth_rewrite 1 [← List.take_append_drop l.file.nflushed l.file.wreqs]
    exact List.rel_append (samePlaces_refl _) (samePlaces_moveBy base l.file.queued)
  -- the queue is empty
  have hlen : (finishRank base l.file).wreqs.length = (finishRank base l.file).nflushed := hplaces.length_eq.symm
  refine ⟨hl.same.trans hplaces, hunmerged, flushOk_iff.mpr ⟨?_, Or.inl ?_⟩⟩
  · intro hlt
    rw [hunmerged.wreqs_eq, hlen] at hlt
    exact absurd hlt (lt_irrefl _)
  · have hnone : (finishRank base l.file).queued = [] := List.drop_eq_nil_of_le hlen.le
    rw [hunmerged.toFlush_eq, hnone]
    rfl

/-- The dirty flag is not looked at. -/
theorem Settled.dirty {config : I32} {f f' : RankFile} (h : Settled config f f') (d : Bool) :
    Settled config f { f' with metadirty := d } := by
  refine ⟨h.same, h.unmerged, flushOk_iff.mpr ?_⟩
  have hqueue := flushOk_iff.mp h.flushOk
  exact hqueue

/-- What a flush leaves is settled, and dirty if anything was written. -/
theorem settled_flushed {config : I32} {f f' : RankFile} {l : LocalFlush}
    (h : localFlush config f = .ok l) {total : MpiOffset} (hf : Job.FlushedTo l total f') :
    Settled config f f' ∧ f'.metadirty = (f.metadirty || decide (total ≠ 0)) := by
  have hdirty : l.file.metadirty = f.metadirty := by
    rcases (localFlush_cases h).2 with ⟨-, rfl⟩ | ⟨-, -, bytes, rfl⟩
    · rfl
    · rfl
  by_cases htotal : total = 0
  · rw [hf.idle htotal, hdirty, htotal]
    exact ⟨settled_local h, by simp⟩
  · obtain ⟨g, hg, rfl⟩ := hf.written htotal
    have hsettled : Settled config f g := by
      rcases hg with rfl | ⟨base, rfl⟩
      · exact settled_local h
      · exact settled_finish h base
    refine ⟨hsettled.dirty true, ?_⟩
    rw [decide_eq_true htotal, Bool.or_true]

/-- `fsize_local`: nothing when `cnt` is 0. -/
def RankFile.pendingSize (f : RankFile) : MpiOffset :=
  if blockCount f.toFlush = 0 then 0 else (f.toFlush.map WReq.fsize).sum

theorem fsizeLocal_eq {config : I32} {f : RankFile} {l : LocalFlush} (h : localFlush config f = .ok l) :
    l.fsizeLocal = f.pendingSize := by
  rw [RankFile.pendingSize]
  rcases (localFlush_cases h).2 with ⟨hnone, rfl⟩ | ⟨hsome, -, bytes, rfl⟩
  · rw [if_pos hnone]
  · rw [if_neg hsome]

/-- A process without pending writes has nothing to flush. -/
theorem settled_idle (config : I32) {f : RankFile} (h : f.numPendingWrites = 0) :
    Settled config f f ∧ f.pendingSize = 0 := by
  have hunmerged : f.Unmerged := List.length_eq_zero_iff.mp (Nat.eq_zero_of_add_eq_zero_left h)
  have hqueued : f.queued = [] := List.length_eq_zero_iff.mp (Nat.eq_zero_of_add_eq_zero_right h)
  have hvisited : f.Visited := by
    intro hlt
    rw [hunmerged.wreqs_eq] at hlt
    exact absurd hlt (not_lt.mpr (List.drop_eq_nil_iff.mp hqueued))
  have hnone : blockCount f.toFlush = 0 := by
    rw [hunmerged.toFlush_eq, hqueued]
    rfl
  refine ⟨⟨?_, hunmerged, flushOk_iff.mpr ⟨hvisited, Or.inl hnone⟩⟩, if_pos hnone⟩
  rw [hunmerged.wreqs_eq]
  exact samePlaces_refl _

/-- The bytes that wait to be written, over all processes. -/
def Job.pendingTotal (J : Job) (f : Fin J.np → RankFile) : MpiOffset :=
  ((J.members .world).map fun i => (f i).pendingSize).sum

/-! ## §4 — the exchange of the counts. -/

theorem getD_maxWords {ws ws' : Words} (h : ws.length = ws'.length) (k : Nat) :
    0 < (Job.maxWords ws ws').getD k 0 ↔ 0 < ws.getD k 0 ∨ 0 < ws'.getD k 0 := by
  by_cases hk : k < ws.length
  · have hk' : k < ws'.length := h ▸ hk
    simp only [Job.maxWords, List.getD_eq_getElem?_getD, List.getElem?_zipWith,
      List.getElem?_eq_getElem hk, List.getElem?_eq_getElem hk', Option.getD_some]
    split <;> bv_omega
  · have hk' : ¬ k < ws'.length := h ▸ hk
    simp only [Job.maxWords, List.getD_eq_getElem?_getD, List.getElem?_zipWith,
      List.getElem?_eq_none (not_lt.mp hk), List.getElem?_eq_none (not_lt.mp hk'), Option.getD_none]
    simp

theorem length_maxWords {ws ws' : Words} (h : ws.length = ws'.length) :
    (Job.maxWords ws ws').length = ws.length := by
  rw [Job.maxWords, List.length_zipWith, h, min_self]

/-- The maximum over some processes is positive when one of the numbers is. -/
theorem max_pos {J : Job} {arg : Fin J.np → Words} {n : Nat} (hlen : ∀ i, (arg i).length = n)
    (i : Fin J.np) (ms : List (Fin J.np)) :
    ((ms.map arg).foldr Job.maxWords (arg i)).length = n ∧
    ∀ k, 0 < ((ms.map arg).foldr Job.maxWords (arg i)).getD k 0 ↔
      ∃ j ∈ i :: ms, 0 < (arg j).getD k 0 := by
  induction ms with
  | nil => exact ⟨hlen i, fun k => by simp⟩
  | cons m ms ih =>
      obtain ⟨hl, hpos⟩ := ih
      have heq : (arg m).length = ((ms.map arg).foldr Job.maxWords (arg i)).length := by rw [hlen, hl]
      rw [List.map_cons, List.foldr_cons]
      refine ⟨(length_maxWords heq).trans (hlen m), fun k => ?_⟩
      rw [getD_maxWords heq, hpos k]
      simp only [List.mem_cons, exists_eq_or_imp]
      tauto

/-- Every process learns whether one of them has anything. -/
theorem runs_allreduceMax {J : Job} (arg : Fin J.np → Words) {n : Nat} (hlen : ∀ i, (arg i).length = n) :
    ∃ r, J.Runs (fun _ => True) (fun i => J.call i .world .allreduceMax (arg i))
        (fun _ => [.allreduceMax]) r ∧
      ∀ i k, 0 < (r i).getD k 0 ↔ ∃ j, 0 < (arg j).getD k 0 := by
  refine ⟨_, Job.runs_call Job.closed_true Job.Scope.world (fun _ _ => trivial) .allreduceMax arg _
    fun _ => rfl, ?_⟩
  intro i k
  have hpos := (max_pos hlen i (J.members .world)).2 k
  refine hpos.trans ?_
  simp

/-! ## §5 — flushing writes. -/

theorem FlushOk.exchange {J : Job} {f : RankFile} (h : FlushOk J.config f) (i : Fin J.np) :
    ∃ l, localFlush J.config f = .ok l ∧ J.flushWriteReqs i f = J.exchange i l := by
  obtain ⟨l, hl⟩ := h
  exact ⟨l, hl, by rw [Job.flushWriteReqs, hl]⟩

/-- **A flush on every process.** -/
theorem runs_flushWriteReqs {J : Job} (hplace : J.Allocates) {f : Fin J.np → RankFile}
    (hok : ∀ i, FlushOk J.config (f i)) :
    ∃ f', J.Runs (fun _ => True) (fun i => J.flushWriteReqs i (f i)) (fun _ => [.allreduceSum]) f' ∧
      ∀ i, Settled J.config (f i) (f' i) ∧
        (f' i).metadirty = ((f i).metadirty || decide (J.pendingTotal f ≠ 0)) := by
  choose l hl hprog using fun i => (hok i).exchange i
  obtain ⟨f', hrun, hflushed⟩ := Job.runs_exchange hplace l
  have htotal : J.totalSize l = J.pendingTotal f := by
    rw [Job.totalSize, Job.pendingTotal]
    exact congrArg List.sum (List.map_congr_left fun i _ => fsizeLocal_eq (hl i))
  refine ⟨f', hrun.congr (fun i _ => hprog i) (fun _ _ => rfl) fun _ _ => rfl, fun i => ?_⟩
  have hi := hflushed i
  rw [htotal] at hi
  exact settled_flushed (hl i) hi

/-- A process whose data cannot be written raises before it calls anything. -/
theorem not_completes_flush {J : Job} {β : Type} {f : Fin J.np → RankFile} {i : Fin J.np}
    (h : ¬ FlushOk J.config (f i)) (q : Fin J.np → RankFile → Job.Prog β) :
    ¬ Completes J.net fun i => J.flushWriteReqs i (f i) >>= q i := by
  cases hl : localFlush J.config (f i) with
  | ok l => exact absurd ⟨l, hl⟩ h
  | error e =>
      refine Lib.not_completes_of_raise (i := i) (e := e) ?_
      rw [Job.flushWriteReqs, hl]
      rfl

/-- Some process has pending writes. -/
def SomePending {J : Job} (f : Fin J.np → RankFile) : Prop := ∃ i, 0 < (f i).numPendingWrites

/-- **A flush if any process has pending writes.** -/
theorem runs_flushPending {J : Job} (hplace : J.Allocates) {f : Fin J.np → RankFile}
    {n : Fin J.np → HSize} (hn : ∀ i, 0 < n i ↔ SomePending f) (hok : ∀ i, FlushOk J.config (f i)) :
    ∃ f' ops, J.Runs (fun _ => True) (fun i => J.flushPending i (n i) (f i)) (fun _ => ops) f' ∧
      ∀ i, Settled J.config (f i) (f' i) ∧
        (f' i).metadirty = ((f i).metadirty || decide (J.pendingTotal f ≠ 0)) := by
  by_cases hsome : SomePending f
  · obtain ⟨f', hrun, hf'⟩ := runs_flushWriteReqs hplace hok
    refine ⟨f', _, hrun.congr (fun i _ => ?_) (fun _ _ => rfl) fun _ _ => rfl, hf'⟩
    exact if_pos ((hn i).mpr hsome)
  · have hidle : ∀ i, (f i).numPendingWrites = 0 := fun i =>
      Nat.eq_zero_of_not_pos fun hi => hsome ⟨i, hi⟩
    have htotal : J.pendingTotal f = 0 := by
      rw [Job.pendingTotal, List.map_congr_left fun i _ => (settled_idle J.config (hidle i)).2]
      simp
    refine ⟨f, [], (Job.runs_pure _ f).congr (fun i _ => ?_) (fun _ _ => rfl) fun _ _ => rfl,
      fun i => ⟨(settled_idle J.config (hidle i)).1, ?_⟩⟩
    · exact if_neg fun h => hsome ((hn i).mp h)
    · rw [htotal]
      simp

/-- A flush that is needed fails when a process cannot write its data. -/
theorem flushOk_of_completes {J : Job} {β : Type} {f : Fin J.np → RankFile} {n : Fin J.np → HSize}
    (hn : ∀ i, 0 < n i ↔ SomePending f) {q : Fin J.np → RankFile → Job.Prog β}
    (h : Completes J.net fun i => J.flushPending i (n i) (f i) >>= q i) (i : Fin J.np) :
    FlushOk J.config (f i) := by
  by_contra hnot
  have hpending : 0 < (f i).numPendingWrites := by
    by_contra hidle
    exact hnot (settled_idle J.config (Nat.eq_zero_of_not_pos hidle)).1.flushOk
  have hprog : (fun i => J.flushPending i (n i) (f i) >>= q i) = fun i =>
      J.flushWriteReqs i (f i) >>= q i := by
    funext j
    rw [Job.flushPending, if_pos ((hn j).mpr ⟨i, hpending⟩)]
  rw [hprog] at h
  exact not_completes_flush hnot q h

/-! ## §6 — flushing queued reads. -/

/-- The processes of a group agree on whether they get to the read, and on whether they set a file view. -/
def ReadsAgree (J : Job) (stage : Fin J.np → ReadStage) : Prop :=
  hasFlag J.config FileConfig.passthru = false → ∀ i j, J.group i = J.group j →
    (stage i = .failed ↔ stage j = .failed) ∧ (J.views → stage i = stage j)

/-- The listed operations of the read itself. -/
def readListed (J : Job) (stage : ReadStage) : List Collective :=
  if hasFlag J.config FileConfig.passthru ∨ stage = .failed then [] else [.readAtAll]

theorem listedOf_readOps (J : Job) (stage : ReadStage) : Job.listedOf (J.readOps stage) = readListed J stage := by
  unfold Job.readOps readListed
  cases hasFlag J.config FileConfig.passthru with
  | true => simp [Job.listedOf]
  | false => cases stage <;> cases J.views <;> simp [Job.listedOf]

/-- Two processes agree if and only if they call the same for the read. -/
theorem readOps_eq_iff {J : Job} {a b : ReadStage} : J.readOps a = J.readOps b ↔
    (hasFlag J.config FileConfig.passthru = false → (a = .failed ↔ b = .failed) ∧ (J.views → a = b)) := by
  unfold Job.readOps
  cases hasFlag J.config FileConfig.passthru with
  | true => simp
  | false => cases a <;> cases b <;> cases J.views <;> simp

theorem readsAgree_iff {J : Job} {stage : Fin J.np → ReadStage} :
    ReadsAgree J stage ↔ ∀ i j, J.group i = J.group j → J.readOps (stage i) = J.readOps (stage j) := by
  unfold ReadsAgree
  simp only [readOps_eq_iff]
  exact ⟨fun h i j hij hpass => h hpass i j hij, fun h hpass i j hij => h i j hij hpass⟩

/-- What the read calls, on the handle of the file. -/
theorem mem_readOps {J : Job} {stage : ReadStage} {c : Job.Scope × Collective} (h : c ∈ J.readOps stage) :
    c = (.handle, .setView) ∨ c = (.handle, .readAtAll) := by
  revert h
  unfold Job.readOps
  cases hasFlag J.config FileConfig.passthru with
  | true => simp
  | false => cases stage <;> cases J.views <;> simp <;> tauto

theorem runs_readOps {J : Job} {stage : Fin J.np → ReadStage} (h : ReadsAgree J stage) :
    J.Runs (fun _ => True) (fun i => J.calls i (J.readOps (stage i))) (fun i => readListed J (stage i))
      fun _ => () := by
  have hops := readsAgree_iff.mp h
  have hone : ∀ (P : Fin J.np → Prop) (a : ReadStage), J.Closed P → (∀ i, P i → J.readOps (stage i) = J.readOps a) →
      J.Runs P (fun i => J.calls i (J.readOps (stage i))) (fun i => readListed J (stage i)) fun _ => () := by
    intro P a hP heq
    have hrun := Job.runs_calls hP (J.readOps a)
      (fun ⟨c, hc, hw⟩ => by rcases mem_readOps hc with rfl | rfl <;> cases hw)
      (fun c hc => by rcases mem_readOps hc with rfl | rfl <;> decide)
    refine hrun.congr (fun i hi => by rw [heq i hi]) (fun i hi => ?_) fun _ _ => rfl
    rw [← listedOf_readOps, heq i hi]
  have hclosed : ∀ a, J.Closed fun i => J.readOps (stage i) = J.readOps a := fun a i j hij => by
    simp only [hops i j hij]
  -- a process calls what one of the three stages has
  refine Job.Runs.split (fun i => J.readOps (stage i) = J.readOps .failed) ?_
    (Job.Runs.split (fun i => J.readOps (stage i) = J.readOps .nothing) ?_ ?_)
  · exact hone _ .failed (Job.closed_true.and (hclosed _)) fun i hi => hi.2
  · exact hone _ .nothing ((Job.closed_true.and (hclosed _).not).and (hclosed _)) fun i hi => hi.2
  · refine hone _ .typed ((Job.closed_true.and (hclosed _).not).and (hclosed _).not) fun i hi => ?_
    cases hstage : stage i with
    | failed => exact absurd (congrArg J.readOps hstage) hi.1.2
    | nothing => exact absurd (congrArg J.readOps hstage) hi.2
    | typed => rfl

/-- Metadata is to be flushed before the read. -/
def Dirty {J : Job} (f : Fin J.np → RankFile) (i : Fin J.np) : Prop := (f i).metadirty = true

theorem cleanMeta_eq {J : Job} (f : Fin J.np → RankFile) :
    (fun i => J.cleanMeta i (f i)) = J.metaflushOn (Dirty f) f := by
  funext i
  unfold Job.cleanMeta Job.metaflushOn Dirty
  split <;> rfl

theorem performRead_bind {J : Job} {β : Type} (f : Fin J.np → RankFile) (stage : Fin J.np → ReadStage)
    (q : Fin J.np → RankFile → Job.Prog β) :
    (fun i => J.performRead i (stage i) (f i) >>= q i) = fun i =>
      J.metaflushOn (Dirty f) f i >>= fun f => J.calls i (J.readOps (stage i)) >>= fun _ => q i f := by
  funext i
  rw [← cleanMeta_eq]
  unfold Job.performRead
  simp only [Proc.bind_assoc, Proc.pure_bind]

/-- **A read whose calls match.** -/
theorem runs_performRead {J : Job} (hplace : J.Allocates) {f : Fin J.np → RankFile}
    {stage : Fin J.np → ReadStage} (hD : J.Closed (Dirty f)) (hok : ∀ i, Dirty f i → J.MetaOk (f i))
    (henter : ∀ i j, J.Enters (Dirty f) f i → J.Enters (Dirty f) f j) (hagree : ReadsAgree J stage) :
    J.Runs (fun _ => True) (fun i => J.performRead i (stage i) (f i))
      (fun i => Job.metaOps (Dirty f) i ++ (readListed J (stage i) ++ [])) (J.cleaned (Dirty f) f) := by
  have hmeta := Job.runs_metaflush hplace hD hok henter
  rw [← cleanMeta_eq] at hmeta
  exact hmeta.bind ((runs_readOps hagree).bind (Job.runs_pure _ (J.cleaned (Dirty f) f)))

/-- A call that is not `c`. -/
theorem never_call {J : Job} (i : Fin J.np) {scope : Job.Scope} {op : Collective} (arg : Words) {c : Call}
    (h : (⟨J.comm i scope, op⟩ : Call) ≠ c) : (J.call i scope op arg).Never Call.comm c := by
  by_cases hcomm : J.comm i scope = c.comm
  · exact Or.inl ⟨hcomm, h⟩
  · exact Or.inr ⟨hcomm, fun _ => trivial⟩

theorem never_calls {J : Job} (i : Fin J.np) {cs : List (Job.Scope × Collective)} {c : Call}
    (h : ∀ x ∈ cs, (⟨J.comm i x.1, x.2⟩ : Call) ≠ c) : (J.calls i cs).Never Call.comm c := by
  induction cs with
  | nil => exact trivial
  | cons x cs ih =>
    obtain ⟨hx, hcs⟩ := List.forall_mem_cons.mp h
    exact (never_call i [] hx).bind fun _ => ih hcs

/-- The read is not the barrier. -/
theorem never_barrier_readOps {J : Job} {β : Type} (i : Fin J.np) (stage : ReadStage) {q : Job.Prog β}
    (hq : q.Never Call.comm ⟨.world, .barrier⟩) :
    (J.calls i (J.readOps stage) >>= fun _ => q).Never Call.comm ⟨.world, .barrier⟩ := by
  refine (never_calls i fun x hx => ?_).bind fun _ => hq
  rcases mem_readOps hx with rfl | rfl <;> simp

/-- Of two processes that call different things for the read, one begins with an operation that the other one does
not begin with. -/
theorem readOps_differ {J : Job} {a b : ReadStage} (h : J.readOps a ≠ J.readOps b) :
    ∃ x ∈ [(Job.Scope.handle, Collective.setView), (.handle, .readAtAll)],
      (∃ xs, J.readOps a = x :: xs ∧ (J.readOps b).head? ≠ some x) ∨
        ∃ xs, J.readOps b = x :: xs ∧ (J.readOps a).head? ≠ some x := by
  revert h
  unfold Job.readOps
  cases hasFlag J.config FileConfig.passthru with
  | true => simp
  | false => cases a <;> cases b <;> cases J.views <;> simp

/-- What follows a read does not begin with an operation of another read. -/
structure ReadEnds {β : Type} (J : Job) (q : Fin J.np → RankFile → Job.Prog β) : Prop where
  barrier : ∀ i f, (q i f).Never Call.comm ⟨.world, .barrier⟩
  setView : ∀ i f, (q i f).Never Call.comm ⟨.handle (J.group i), .setView⟩
  readAtAll : ∀ i f, (q i f).Never Call.comm ⟨.handle (J.group i), .readAtAll⟩

/-- **A process waits in its read**, for one of its group that calls something else. -/
theorem not_completes_readOps {J : Job} {β : Type} {stage : Fin J.np → ReadStage}
    {q : Fin J.np → Job.Prog β} {i j : Fin J.np} (hij : J.group i = J.group j) {x : Job.Scope × Collective}
    (hx : x ∈ [(Job.Scope.handle, Collective.setView), (.handle, .readAtAll)]) {xs : List (Job.Scope × Collective)}
    (hi : J.readOps (stage i) = x :: xs) (hj : (J.readOps (stage j)).head? ≠ some x)
    (hq : (q j).Never Call.comm ⟨.handle (J.group j), x.2⟩) :
    ¬ Completes J.net fun i => J.calls i (J.readOps (stage i)) >>= fun _ => q i := by
  have hscope : x.1 = .handle := by rcases List.mem_pair.mp hx with rfl | rfl <;> rfl
  have hwaits : (J.calls i (J.readOps (stage i)) >>= fun _ => q i) =
      .call ⟨.handle (J.group i), x.2⟩ [] fun _ => J.calls i xs >>= fun _ => q i := by
    obtain ⟨scope, op⟩ := x
    cases hscope
    rw [hi]
    rfl
  refine Lib.not_completes_of_never (i := i) (j := j) hwaits (Job.mem_handle.mpr rfl)
    (Job.mem_handle.mpr hij.symm) ?_
  rw [hij]
  rcases hops : J.readOps (stage j) with _ | ⟨y, ys⟩
  · exact hq
  · have hy := mem_readOps (hops ▸ List.mem_cons_self .. : y ∈ J.readOps (stage j))
    have hne : y ≠ x := fun heq => hj (by rw [hops, heq]; rfl)
    obtain ⟨scope, op⟩ := x
    cases hscope
    refine Or.inl ⟨?_, ?_⟩
    · rcases hy with rfl | rfl <;> rfl
    · rcases hy with rfl | rfl
      · exact fun heq => hne (by cases heq; rfl)
      · exact fun heq => hne (by cases heq; rfl)

/-- **What a read needs**, when no process has an operation of it next afterwards. -/
theorem performRead_of_completes {J : Job} {β : Type} (hplace : J.Allocates) {f : Fin J.np → RankFile}
    {stage : Fin J.np → ReadStage} (hD : J.Closed (Dirty f)) {q : Fin J.np → RankFile → Job.Prog β}
    (hends : ReadEnds J q) (h : Completes J.net fun i => J.performRead i (stage i) (f i) >>= q i) :
    (∀ i, Dirty f i → J.MetaOk (f i)) ∧
      (∀ i j, J.Enters (Dirty f) f i → J.Enters (Dirty f) f j) ∧ ReadsAgree J stage := by
  classical
  rw [performRead_bind] at h
  -- A process that raises here never comes to the calls the others wait in.
  have hok : ∀ i, Dirty f i → J.MetaOk (f i) := by
    intro i hi
    cases hl : localMeta J.config (f i) with
    | ok l => exact ⟨l, hl⟩
    | error e =>
        refine absurd h (Lib.not_completes_of_raise (i := i) (e := e) ?_)
        rw [Job.metaflushOn, if_pos hi, Job.metaflush, hl]
        rfl
  have henter : ∀ i j, J.Enters (Dirty f) f i → J.Enters (Dirty f) f j := by
    intro i j hi
    by_contra hj
    exact Job.not_completes_metaflush hplace hD hok hi hj
      (fun f => never_barrier_readOps j (stage j) (hends.barrier j f)) h
  refine ⟨hok, henter, readsAgree_iff.mpr fun i j hij => ?_⟩
  obtain ⟨t, ht, -⟩ := Job.runs_metaflush hplace hD hok henter
  rw [(ht.run _).completes_iff] at h
  have hnever : ∀ x ∈ [(Job.Scope.handle, Collective.setView), (.handle, .readAtAll)], ∀ i f,
      (q i f).Never Call.comm ⟨.handle (J.group i), x.2⟩ :=
    List.forall_mem_cons.mpr ⟨hends.setView, List.forall_mem_singleton.mpr hends.readAtAll⟩
  -- Two lists of calls that differ differ at a call one process makes and the other never does.
  by_contra hne
  obtain ⟨x, hx, hdiffer⟩ := readOps_differ hne
  rcases hdiffer with ⟨xs, hi, hj⟩ | ⟨xs, hj, hi⟩
  · exact not_completes_readOps hij hx hi hj (hnever x hx j _) h
  · exact not_completes_readOps hij.symm hx hj hi (hnever x hx i _) h

end LogVol
