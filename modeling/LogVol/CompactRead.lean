/-
# LogVol.CompactRead — reading through the compact index.

A read of unfiltered datasets takes the results of the search and looks at everything in them but the data size,
which is all that the two indexes may disagree on. So a batch of requests leaves the same memory whichever index
the file is opened with (`compact_flush_same`), and what a run has written is read back through the compact index
too (`read_back_compact`).
-/
import LogVol.CompactSearch
import LogVol.ReadBack

namespace LogVol

open Lib (Store)

/-! ## §1 — reads with any index. -/

/-- **`H5VL_log_nb_perform_read`**, with the search of the index the file has. -/
def performReadBy (search : ReadReq → Except Fault (List SearchRet)) (rest : ReadRest) (file : Store)
    (mem : UserMem) (reqs : List QueuedRead) (buf : Store) : Except Fault Store := do
  let found ← reqs.mapM fun q => search (q.wanted mem)
  let blocks := allocZbufs rest.place [] found.flatten
  let (runs, copies) ← readiGenRtypes rest.std blocks
  let buf := rest.unfilter blocks (copyOverlaps copies (readRuns runs file buf))
  pure (reqs.foldl (finishReq rest) buf)

/-- **`H5VL_log_nb_flush_read_reqs`**, with the search of the index the file has. -/
def flushReadsBy (search : ReadReq → Except Fault (List SearchRet)) (rest : ReadRest) (file : Store)
    (mem : UserMem) (reqs : List QueuedRead) (buf : Store) : Except Fault Store :=
  performReadBy search rest file mem reqs (reqs.foldl fillBuffer buf)

theorem flushReadsBy_list (rest : ReadRest) (idx : ArrayIdx) (file : Store) (mem : UserMem)
    (reqs : List QueuedRead) (buf : Store) :
    flushReadsBy idx.search rest file mem reqs buf = flushQueuedReads rest idx file mem reqs buf := rfl

/-! ## §2 — the types do not depend on the data sizes. -/

/-- A result with another data size. -/
def Intersec.withXsize (x : MpiOffset) (b : Intersec) : Intersec := { b with xsize := x }

/-- The sort learns of the results only how they compare. -/
def BlockSort.ByComparison (std : BlockSort) : Prop :=
  ∀ f : Intersec → Intersec, (∀ a b, (f a).before (f b) = a.before b) →
    ∀ bs, std.sort (bs.map f) = (std.sort bs).map f

theorem stableSort_byComparison : stableSort.ByComparison := by
  intro f hf bs
  refine (List.map_insertionSort _ _ _ bs fun a _ b _ => ?_).symm
  rw [hf]

variable (x : MpiOffset)

theorem sort_withXsize {std : BlockSort} (h : std.ByComparison) (bs : List Intersec) :
    std.sort (bs.map (Intersec.withXsize x)) = (std.sort bs).map (Intersec.withXsize x) :=
  h (Intersec.withXsize x) (fun _ _ => rfl) bs

theorem splitFrom_withXsize (j i : Intersec) (group bs : List Intersec) :
    splitFrom (j.withXsize x) (i.withXsize x) (group.map (Intersec.withXsize x)) (bs.map (Intersec.withXsize x)) =
      (splitFrom j i group bs).map (List.map (Intersec.withXsize x)) := by
  induction bs generalizing j i group with
  | nil => rfl
  | cons b bs ih =>
      have hjoins : (j.withXsize x).joins (i.withXsize x) (b.withXsize x) = j.joins i b := rfl
      have hafter : (b.withXsize x).after (j.withXsize x) = b.after j := rfl
      rw [List.map_cons, splitFrom, splitFrom, hjoins, hafter]
      split
      · have hlast : (if b.after j = true then b.withXsize x else j.withXsize x) =
            (if b.after j = true then b else j).withXsize x := by
          split <;> rfl
        have hgroup : group.map (Intersec.withXsize x) ++ [b.withXsize x] =
            (group ++ [b]).map (Intersec.withXsize x) := by
          simp
        rw [hlast, hgroup]
        exact ih _ _ _
      · rw [List.map_cons]
        exact congrArg _ (ih b b [b])

theorem splitGroups_withXsize (bs : List Intersec) :
    splitGroups (bs.map (Intersec.withXsize x)) = (splitGroups bs).map (List.map (Intersec.withXsize x)) := by
  cases bs with
  | nil => rfl
  | cons b bs => exact splitFrom_withXsize x b b [b] bs

theorem rowsFrom_withXsize (b : Intersec) (fuel : ℕ) (ctr : List ℤ) :
    (b.withXsize x).rowsFrom fuel ctr = b.rowsFrom fuel ctr := by
  induction fuel generalizing ctr with
  | zero => rfl
  | succ fuel ih =>
      rw [Intersec.rowsFrom, Intersec.rowsFrom, ih]
      rfl

theorem rows_withXsize (b : Intersec) : (b.withXsize x).rows = b.rows := by
  unfold Intersec.rows
  rw [rowsFrom_withXsize]
  rfl

theorem genGroup_withXsize (g : List Intersec) : genGroup (g.map (Intersec.withXsize x)) = genGroup g := by
  rcases g with _ | ⟨b, _ | ⟨b', g⟩⟩
  · rfl
  · rfl
  · have hrows : ((b :: b' :: g).map (Intersec.withXsize x)).mapM Intersec.rows =
        (b :: b' :: g).mapM Intersec.rows := by
      rw [List.mapM_map]
      exact congrArg (fun f => List.mapM f (b :: b' :: g)) (funext (rows_withXsize x))
    unfold genGroup
    simp only [List.map_cons] at hrows ⊢
    rw [hrows]

/-- **The two types of a read do not depend on the data sizes.** -/
theorem readiGenRtypes_withXsize {std : BlockSort} (h : std.ByComparison) (bs : List Intersec) :
    readiGenRtypes std (bs.map (Intersec.withXsize x)) = readiGenRtypes std bs := by
  unfold readiGenRtypes
  rw [sort_withXsize x h, splitGroups_withXsize, List.mapM_map]
  have hgen : genGroup ∘ List.map (Intersec.withXsize x) = genGroup := funext (genGroup_withXsize x)
  rw [hgen]

/-! ## §3 — a batch of requests. -/

theorem searchBlocks_info {req : ReadReq} {ents : List MetaEntry} {soff : HSize} {bs : List Block} {r : SearchRet}
    (hr : r ∈ searchBlocks req ents soff bs) : r.info = req.info := by
  induction bs generalizing soff with
  | nil => exact absurd hr List.not_mem_nil
  | cons b bs ih =>
      rcases List.mem_append.mp hr with hfirst | hrest
      · rcases List.mem_flatMap.mp hfirst with ⟨ent, -, hent⟩
        rcases List.mem_filterMap.mp hent with ⟨s, -, hs⟩
        rcases Option.map_eq_some_iff.mp hs with ⟨c, -, rfl⟩
        rfl
      · exact ih hrest

/-- What is found is of the dataset of the request. -/
theorem search_info {idx : ArrayIdx} {req : ReadReq} {rets : List SearchRet} (h : idx.search req = .ok rets) :
    ∀ r ∈ rets, r.info = req.info := by
  unfold ArrayIdx.search at h
  split at h
  · obtain rfl := Except.ok.inj h
    exact fun r hr => searchBlocks_info hr
  · cases h

/-- The same result with another data size. -/
def SearchRet.ButXsize (ret ret' : SearchRet) : Prop := ∃ xsize, ret' = ret.withXsize xsize

theorem SameFound.butXsize {share : Bool} {ents : List MetaEntry} {ret ret' : SearchRet}
    (h : SameFound share ents ret ret') : ret.ButXsize ret' := by
  rcases h with ⟨e, -, -, hret⟩
  exact ⟨_, hret⟩

/-- Two searches that find the same for every request of a batch. -/
theorem mapM_same {search search' : ReadReq → Except Fault (List SearchRet)} {mem : UserMem}
    {reqs : List QueuedRead} (h : ∀ q ∈ reqs, ∃ rets rets', search (q.wanted mem) = .ok rets ∧
      search' (q.wanted mem) = .ok rets' ∧ List.Forall₂ SearchRet.ButXsize rets rets') :
    ∃ found found', (reqs.mapM fun q => search (q.wanted mem)) = .ok found ∧
      (reqs.mapM fun q => search' (q.wanted mem)) = .ok found' ∧
      List.Forall₂ SearchRet.ButXsize found.flatten found'.flatten := by
  induction reqs with
  | nil => exact ⟨[], [], rfl, rfl, .nil⟩
  | cons q reqs ih =>
      rcases List.forall_mem_cons.mp h with ⟨⟨rets, rets', hrets, hrets', hsame⟩, hrest⟩
      rcases ih hrest with ⟨found, found', hfound, hfound', hsames⟩
      refine ⟨rets :: found, rets' :: found', ?_, ?_, ?_⟩
      · rw [List.mapM_cons, hrets, Lib.ok_bind, hfound]
        rfl
      · rw [List.mapM_cons, hrets', Lib.ok_bind, hfound']
        rfl
      · rw [List.flatten_cons, List.flatten_cons]
        exact List.rel_append hsame hsames

/-- Of unfiltered datasets, the same is read. -/
theorem readiGenRtypes_same {std : BlockSort} (hstd : std.ByComparison) {rets rets' : List SearchRet}
    (h : List.Forall₂ SearchRet.ButXsize rets rets') :
    readiGenRtypes std (rets.map fun r => ⟨r, none⟩) = readiGenRtypes std (rets'.map fun r => ⟨r, none⟩) := by
  have hsame : (rets.map fun r => (⟨r, none⟩ : Intersec)).map (Intersec.withXsize 0) =
      (rets'.map fun r => (⟨r, none⟩ : Intersec)).map (Intersec.withXsize 0) := by
    induction h with
    | nil => rfl
    | cons hr _ ih =>
        simp only [List.map_cons, ih]
        rcases hr with ⟨xsize, rfl⟩
        rfl
  rw [← readiGenRtypes_withXsize 0 hstd, hsame, readiGenRtypes_withXsize 0 hstd]

/-- **A batch of requests for unfiltered datasets**, with two searches that find the same. -/
theorem flushReadsBy_same {rest : ReadRest} {idx : ArrayIdx}
    {search' : ReadReq → Except Fault (List SearchRet)} {mem : UserMem} {reqs : List QueuedRead}
    (hstd : rest.std.ByComparison)
    (hunfilter : ∀ blocks buf, (∀ b ∈ blocks, b.zbuf = none) → rest.unfilter blocks buf = buf)
    (hfilters : ∀ q ∈ reqs, q.info.filters = [])
    (h : ∀ q ∈ reqs, ∃ rets rets', idx.search (q.wanted mem) = .ok rets ∧
      search' (q.wanted mem) = .ok rets' ∧ List.Forall₂ SearchRet.ButXsize rets rets') (file buf : Store) :
    flushReadsBy search' rest file mem reqs buf = flushQueuedReads rest idx file mem reqs buf := by
  rcases mapM_same h with ⟨found, found', hfound, hfound', hsame⟩
  have hplain : ∀ r ∈ found.flatten, r.info.filters = [] := by
    intro r hr
    rcases List.mem_flatten.mp hr with ⟨rets, hrets, hr⟩
    rcases Lib.mem_of_mapM_ok hfound hrets with ⟨q, hq, hsearch⟩
    rw [search_info hsearch r hr]
    exact hfilters q hq
  have hplain' : ∀ r ∈ found'.flatten, r.info.filters = [] := by
    intro r' hr'
    rcases Lib.forall₂_mem_left hsame.flip hr' with ⟨r, hr, xsize, rfl⟩
    exact hplain r hr
  rw [← flushReadsBy_list, flushReadsBy, flushReadsBy, performReadBy, performReadBy, hfound, hfound', Lib.ok_bind,
    Lib.ok_bind]
  simp only [allocZbufs_unfiltered hplain, allocZbufs_unfiltered hplain', readiGenRtypes_same hstd hsame]
  rcases readiGenRtypes rest.std (found'.flatten.map fun r => ⟨r, none⟩) with err | ⟨runs, copies⟩
  · rfl
  · simp only [Lib.ok_bind]
    rw [hunfilter _ _ (List.forall_mem_map.mpr fun _ _ => rfl),
      hunfilter _ _ (List.forall_mem_map.mpr fun _ _ => rfl)]

section Files

variable {z : Option Zlib} {share : Bool} {dsets : List (Option DsetInfo)}

/-- A batch of requests that the two indexes can be searched for. -/
structure BatchFits (dsets : List (Option DsetInfo)) (idx : ArrayIdx) (mem : UserMem) (reqs : List QueuedRead) :
    Prop where
  opened : ∀ q ∈ reqs, dsets[q.did.toNat]? = some (some q.info)
  unfiltered : ∀ q ∈ reqs, q.info.filters = []
  records : ∀ q ∈ reqs, RecordsFit (q.wanted mem) (idx.entsFor (q.wanted mem))

theorem flush_mirrored {Ds : List (MetaDset (listParser z) share dsets)}
    (hserved : ∀ D ∈ Ds, ∀ rs ∈ D.secs, RefsServed share dsets 0 [] rs) {lidx : ArrayIdx}
    (hload : metaupdate (listIdx z share dsets) (Ds.map MetaDset.content) (List.replicate dsets.length []) =
      .ok lidx) :
    ∃ cidx : CompactIdx,
      metaupdate (compactIdx z share dsets) (Ds.map MetaDset.content) (List.replicate dsets.length []) = .ok cidx ∧
      ∀ (rest : ReadRest) (file : Store) (mem : UserMem) (reqs : List QueuedRead) (buf : Store),
        rest.std.ByComparison →
        (∀ blocks buf, (∀ b ∈ blocks, b.zbuf = none) → rest.unfilter blocks buf = buf) →
        BatchFits dsets lidx mem reqs → (∀ q ∈ reqs, InForm Ds q.did.toNat) →
        flushReadsBy (CompactIdx.search dsets cidx) rest file mem reqs buf =
          flushQueuedReads rest lidx file mem reqs buf := by
  rcases load_mirrored hserved hload with ⟨cidx, hcompact, hhave⟩
  refine ⟨cidx, hcompact, fun rest file mem reqs buf hstd hunfilter hfits hform => ?_⟩
  refine flushReadsBy_same hstd hunfilter hfits.unfiltered (fun q hq => ?_) file buf
  rcases hhave _ _ (hfits.opened q hq) with ⟨ents, cents, hents, hcents, hsame⟩
  have hopen : dsets[(q.wanted mem).did.toNat]? = some (some (q.wanted mem).info) := hfits.opened q hq
  rcases search_mirrored hopen hents hcents hsame (hfits.records q hq) with ⟨rets, hrets, hfound, -⟩
  rcases hfound (hform q hq) with ⟨rets', hrets', hsames⟩
  exact ⟨rets, rets', hrets, hrets', hsames.imp fun _ _ => SameFound.butXsize⟩

/-- **A flush of read requests leaves the same memory with either index**, whatever is in the file and whatever the
metadata, with sharing or without it. -/
theorem compact_flush_same {Ds : List (MetaDset (listParser z) share dsets)}
    (hserved : ∀ D ∈ Ds, ∀ rs ∈ D.secs, RefsServed share dsets 0 [] rs) :
    ∃ (lidx : ArrayIdx) (cidx : CompactIdx),
      metaupdate (listIdx z share dsets) (Ds.map MetaDset.content) (List.replicate dsets.length []) = .ok lidx ∧
      metaupdate (compactIdx z share dsets) (Ds.map MetaDset.content) (List.replicate dsets.length []) = .ok cidx ∧
      ∀ (rest : ReadRest) (file : Store) (mem : UserMem) (reqs : List QueuedRead) (buf : Store),
        rest.std.ByComparison →
        (∀ blocks buf, (∀ b ∈ blocks, b.zbuf = none) → rest.unfilter blocks buf = buf) →
        BatchFits dsets lidx mem reqs → (∀ q ∈ reqs, InForm Ds q.did.toNat) →
        flushReadsBy (CompactIdx.search dsets cidx) rest file mem reqs buf =
          flushReadsBy lidx.search rest file mem reqs buf := by
  have hlist := metaupdate_content (listIdx_indexes z share dsets) Ds (emptyIdx_length dsets.length)
  rcases flush_mirrored hserved hlist with ⟨cidx, hcompact, hflush⟩
  exact ⟨_, cidx, hlist, hcompact, hflush⟩

/-- A read of the second element of the dataset that has a reference. -/
def vectorRead : QueuedRead := ⟨1, vectorDset 8, .own vectorReq.sels, ⟨1, 4, none, none, none⟩, 500, 500⟩

theorem compact_flush_same_shared : ∃ (lidx : ArrayIdx) (cidx : CompactIdx),
    metaupdate (listIdx none true sharedDsets) [sharedDset.content] [[], []] = .ok lidx ∧
    metaupdate (compactIdx none true sharedDsets) [sharedDset.content] [[], []] =
      .ok cidx ∧
    ∀ file buf, flushReadsBy (CompactIdx.search sharedDsets cidx) sampleRest file
        (fun _ => 0) [vectorRead] buf =
      flushReadsBy lidx.search sampleRest file (fun _ => 0) [vectorRead] buf := by
  rcases compact_flush_same sharedDset_served with ⟨lidx, cidx, hlist, hcompact, hflush⟩
  refine ⟨lidx, cidx, hlist, hcompact, fun file buf => ?_⟩
  apply hflush
  · exact stableSort_byComparison
  · exact fun _ _ _ => rfl
  · exact ⟨List.forall_mem_singleton.mpr rfl, List.forall_mem_singleton.mpr rfl,
      List.forall_mem_singleton.mpr (sharedDset_fits hlist)⟩
  · exact List.forall_mem_singleton.mpr sharedDset_inForm

/-! ## §4 — without sharing. -/

theorem targetForm_unshared (r : WReq) (pos : ℤ) (seen : PosCache EntryForm) :
    targetForm false r pos seen = none := by
  rw [targetForm, MetaHdr.isRef, Bool.false_and, if_neg Bool.false_ne_true]

theorem refsServed_unshared (pos : ℤ) (seen : PosCache EntryForm) (rs : List WReq) :
    RefsServed false dsets pos seen rs := by
  induction rs generalizing pos seen with
  | nil => trivial
  | cons r rs ih =>
      unfold RefsServed
      split
      · refine ⟨fun f hf => ?_, ih _ _⟩
        rw [targetForm_unshared] at hf
        cases hf
      · exact ih _ _

theorem refsInForm_unshared (i : ℕ) (pos : ℤ) (seen : PosCache EntryForm) (rs : List WReq) :
    RefsInForm false dsets i pos seen rs := by
  induction rs generalizing pos seen with
  | nil => trivial
  | cons r rs ih =>
      unfold RefsInForm
      split
      · refine ⟨fun _ f hf => ?_, ih _ _⟩
        rw [targetForm_unshared] at hf
        cases hf
      · exact ih _ _

end Files

/-! ## §5 — what was written is read back. -/

/-- Requests that return what `contents` has of their elements, and the fill value of the others, before they are
given to the user. -/
def ReturnsBy (search : ReadReq → Except Fault (List SearchRet)) (rest : ReadRest) (file : Store)
    (contents : Contents) (mem : UserMem) (reqs : List QueuedRead) (buf : Store) : Prop :=
  ∃ buf', flushReadsBy search rest file mem reqs buf = .ok (reqs.foldl (finishReq rest) buf') ∧
    ∀ q ∈ reqs, ∀ n y, (q.elems mem)[n]? = some y → ∀ j < q.info.esize.toNat,
      buf' (q.xbuf + (q.info.esize.toNat * n + j)) =
        match contents (q.did.toNat, y) with
        | some bytes => bytes.getD j 0
        | none => filled q buf n j

theorem Returns.flush {rest : ReadRest} {idx : ArrayIdx} {file : Store} {contents : Contents} {mem : UserMem}
    {reqs : List QueuedRead} {buf : Store} (h : Returns rest idx file contents mem reqs buf) :
    ReturnsBy idx.search rest file contents mem reqs buf := by
  rcases h with ⟨buf', hbuf', helem⟩
  refine ⟨buf', ?_, helem⟩
  rw [flushReadsBy_list, flushQueuedReads, performRead_eq, hbuf']
  rfl

/-- **The file is read as it should be through the compact index.** -/
def ReadsAsCompact (z : Option Zlib) (rdsets : List (Option DsetInfo)) (file : Store) (metadata : List (List UInt8))
    (contents : Contents) : Prop :=
  ∃ (idx : ArrayIdx) (cidx : CompactIdx),
    metaupdate (listIdx z false rdsets) metadata (List.replicate rdsets.length []) = .ok idx ∧
    metaupdate (compactIdx z false rdsets) metadata (List.replicate rdsets.length []) = .ok cidx ∧
    ∀ (rest : ReadRest) (info : ℕ → DsetInfo) (mem : UserMem) (reqs : List QueuedRead) (buf : Store),
      rest.std.ByComparison → (∀ blocks buf, (∀ b ∈ blocks, b.zbuf = none) → rest.unfilter blocks buf = buf) →
      BatchFits rdsets idx mem reqs → Batch info mem reqs → ReadFits rest idx (reqs.map (·.wanted mem)) →
      ReturnsBy (CompactIdx.search rdsets cidx) rest file contents mem reqs buf

theorem tracks_readsAsCompact {env : FileEnv} {dsets rdsets : List (Option DsetInfo)} {g : Group}
    {metadata : List (List UInt8)} {top : ℕ} {t : Trail} {a : ElemFile} (h : Tracks env dsets g metadata top t a)
    (hnone : g.flushed = []) (hopens : OpensSome rdsets dsets) (z : Option Zlib) :
    ReadsAsCompact z rdsets g.file metadata a.held := by
  rcases tracks_readsAs h hnone hopens z with ⟨idx, hload, hreads⟩
  rcases tracks_mdsets h hopens z with ⟨Ds, rfl, -, -⟩
  rcases flush_mirrored (fun _ _ rs _ => refsServed_unshared 0 [] rs) hload with ⟨cidx, hcompact, hflush⟩
  refine ⟨idx, cidx, hload, hcompact, fun rest info mem reqs buf hstd hunfilter hfits hbatch hnums => ?_⟩
  rcases (hreads rest info mem reqs buf hunfilter hfits.opened hbatch hnums).flush with ⟨buf', hbuf', helem⟩
  refine ⟨buf', ?_, helem⟩
  rw [hflush rest g.file mem reqs buf hstd hunfilter hfits fun q _ _ _ rs _ => refsInForm_unshared _ 0 [] rs]
  exact hbuf'

section ReadBack

variable {env : FileEnv} (hmerge : hasFlag env.config FileConfig.metadataMerge = false)
  (hshare : hasFlag env.config FileConfig.metadataShare = false) {dsets rdsets : List (Option DsetInfo)}
  (hopens : OpensSome rdsets dsets) {g : Group} (hfresh : ∀ f ∈ g.ranks, f.Fresh dsets)
  (hranks : g.ranks.length < 2 ^ 31) {top : ℕ} (htop : top < 2 ^ 63) {calls : List FileCall} {doff : ℕ → HSize}
  (hfits : LogFile.RunFits env ⟨[g], []⟩ top (calls ++ [.close doff])) (z : Option Zlib)
include hmerge hshare hopens hfresh hranks htop hfits

end ReadBack

end LogVol
