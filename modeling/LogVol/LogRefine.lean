/-
# LogVol.LogRefine — the log of a file, and the elements it stands for.

`LogFile.step` is what a call does to the queues of the ranks, the log and the metadata; `ElemFile.step` is what it
is for. `Tracks` relates the two: what a rank has queued are the writes it has not flushed, the log has the data of
the others, one behind the other, and the metadata datasets and the queues have their entries. A write, a flush and
a metadata flush keep it (`step_tracks`), in a file of one group whose entries are neither merged nor shared, if the
log datasets are allocated one behind the other. So does every run (`run_tracks`), and none of its calls fails.
-/
import LogVol.ElemFile
import LogVol.WriteExact
import LogVol.Buffered
import LogVol.CollectiveStages
import LogVol.DedupEntry
import LogVol.MetaDset

namespace LogVol

open Lib (assign layout)

/-! ## §1 — writes that the log can store. -/

/-- The coordinates of every block come back from the entry of a write as they were. -/
def Logged.GivenBack (z : Option Zlib) (config : I32) (w : Logged) : Prop :=
  ∀ b ∈ w.sels.sels,
    storedCords (w.encoded z config) w.dip w.sels Block.start b = .ok (b.start.drop (dimoffOf w.recnum)) ∧
      storedCords (w.encoded z config) w.dip w.sels Block.count b = .ok (b.count.drop (dimoffOf w.recnum))

/-- Coordinates that are stored as they are come back. -/
theorem givenBack_of_coords {z : Option Zlib} {config : I32} {w : Logged} (h : w.encoded z config = false) :
    w.GivenBack z config := by
  intro b _
  simp [storedCords, h, Logged.recnum]

/-- Offsets come back if they are exact. -/
theorem givenBack_of_offsets {z : Option Zlib} {config : I32} {w : Logged} (hcur : w.dip.StepsCurrent)
    (hrank : w.sels.ndim = w.dip.ndim) (h : OffsetsExact z config w.dip w.sels) : w.GivenBack z config := by
  rcases henc : w.encoded z config with _ | _
  · exact givenBack_of_coords henc
  · have hdim : 1 < encdimOf w.dip (recordOf w.dip w.sels) := Logged.encoded_encdim henc
    have hlast : (calcDsteps (encodedDims w.dip w.sels)).getLast? = some 1 := by
      apply calcDsteps_getLast?
      rw [← List.length_pos_iff, encodedDims_length]
      omega
    have hsteps := @storedSteps_eq w.dip w.sels hcur (by omega)
    have hback : ∀ b ∈ w.sels.sels, ∀ f : Block → List HSize, (f b).length = w.sels.ndim →
        OffsetExact (calcDsteps (encodedDims w.dip w.sels)) ((f b).drop (dimoffOf (recordOf w.dip w.sels))) →
        storedCords true w.dip w.sels f b = .ok ((f b).drop (dimoffOf (recordOf w.dip w.sels))) := by
      intro b hb f hf hexact
      have hlen : ((f b).drop (dimoffOf (recordOf w.dip w.sels))).length =
          (calcDsteps (encodedDims w.dip w.sels)).length := by
        rw [List.length_drop, hf, hrank, calcDsteps_length, encodedDims_length, ndim_sub_dimoffOf]
      simp only [storedCords, if_true]
      rw [storedSteps, hsteps, encodedSteps_eq hcur]
      exact (selDecode_selEncode_iff hlast hlen).mpr hexact
    intro b hb
    rw [henc]
    obtain ⟨hstart, hcount⟩ := h.exact b hb
    obtain ⟨hls, hlc⟩ := w.sels.rank_eq b hb
    exact ⟨hback b hb Block.start hls hstart, hback b hb Block.count hlc hcount⟩

/-- **A write that the log can store**: some data, as much as is selected, of a dataset without filters, with sizes
that fit; coordinates that are stored as offsets are exact. -/
structure WriteCall.Storable (env : FileEnv) (dip : DsetInfo) (c : WriteCall) : Prop where
  did_lt : c.did < 2 ^ 31
  rank : c.sels.ndim = dip.ndim
  unfiltered : dip.filters = []
  filled : c.data.length = dip.esize.toNat * (c.sels.sels.map Block.elems).sum
  some_data : 0 < c.data.length
  data_lt : c.data.length < 2 ^ 31
  entry_lt : entrySize env.zlib env.config dip c.sels < 2 ^ 31
  exact : Logged.encoded env.zlib env.config ⟨c.did, dip, c.sels⟩ = false ∨
    dip.StepsCurrent ∧ OffsetsExact env.zlib env.config dip c.sels

section Storable

variable {env : FileEnv} {dip : DsetInfo} {c : WriteCall} (h : c.Storable env dip)
include h

theorem storable_givenBack : Logged.GivenBack env.zlib env.config ⟨c.did, dip, c.sels⟩ := by
  rcases h.exact with hcoords | ⟨hcur, hexact⟩
  · exact givenBack_of_coords hcoords
  · exact givenBack_of_offsets hcur h.rank hexact

theorem storable_nonempty : c.sels.sels ≠ [] := by
  intro hnil
  have hpos := h.some_data
  rw [h.filled, hnil] at hpos
  simp at hpos

theorem storable_proper : Logged.Proper env.zlib env.config ⟨c.did, dip, c.sels⟩ :=
  ⟨lt_trans h.did_lt (by norm_num), h.rank, storable_nonempty h, h.entry_lt⟩

/-- **The entry of the write** gives its blocks back, one behind the other. -/
theorem storable_entry (hdr : MetaHdr) : ∃ dsize, Logged.entry env.zlib env.config ⟨c.did, dip, c.sels⟩ hdr =
    .ok ⟨hdr, placeSels dip.esize 0 c.sels.sels, dsize⟩ := by
  have hstarts : Logged.starts env.zlib env.config ⟨c.did, dip, c.sels⟩ =
      .ok (c.sels.sels.map fun b => b.start.drop (dimoffOf (recordOf dip c.sels))) := by
    rw [Logged.starts, Lib.mapM_eq_ok_iff, List.forall₂_map_right_iff, List.forall₂_same]
    exact fun b hb => (storable_givenBack h b hb).1
  have hcounts : Logged.counts env.zlib env.config ⟨c.did, dip, c.sels⟩ =
      .ok (c.sels.sels.map fun b => b.count.drop (dimoffOf (recordOf dip c.sels))) := by
    rw [Logged.counts, Lib.mapM_eq_ok_iff, List.forall₂_map_right_iff, List.forall₂_same]
    exact fun b hb => (storable_givenBack h b hb).2
  have hblocks : List.zipWith (mkBlock (recordOf dip c.sels))
      (c.sels.sels.map fun b => b.start.drop (dimoffOf (recordOf dip c.sels)))
      (c.sels.sels.map fun b => b.count.drop (dimoffOf (recordOf dip c.sels))) = c.sels.sels := by
    rw [List.zipWith_map, List.zipWith_self, List.map_congr_left fun b hb => mkBlock_drop h.rank hb, List.map_id']
  have hne : List.zipWith (mkBlock (recordOf dip c.sels))
      (c.sels.sels.map fun b => b.start.drop (dimoffOf (recordOf dip c.sels)))
      (c.sels.sels.map fun b => b.count.drop (dimoffOf (recordOf dip c.sels))) ≠ [] := by
    rw [hblocks]
    exact storable_nonempty h
  obtain ⟨e, he⟩ := buildEntry_ok dip hdr hne
  obtain ⟨hhdr, hsels⟩ := buildEntry_eq he
  rw [hblocks] at hsels
  refine ⟨e.dsize, ?_⟩
  rw [Logged.entry, hstarts, Lib.ok_bind, hcounts, Lib.ok_bind]
  refine he.trans ?_
  rw [← hhdr, ← hsels]

end Storable

/-! ## §2 — requests. -/

/-- **The request of a write**: it has the whole entry of the write and its data. Where the data is in the file is
left open. -/
structure WReq.Carries (env : FileEnv) (dsets : List (Option DsetInfo)) (c : WriteCall) (r : WReq) : Prop where
  dset : ∃ dip, dsets[c.did]? = some (some dip) ∧ c.Storable env dip ∧
    IsPlain env.zlib env.config ⟨c.did, dip, c.sels⟩ r
  dbufs : ∃ db, r.dbufs = [db] ∧ db.xbuf = c.data ∧ db.size.toNat = c.data.length ∧ r.hdr.fsize = db.size

namespace WReq.Carries

variable {env : FileEnv} {dsets : List (Option DsetInfo)} {c : WriteCall} {r : WReq} (h : r.Carries env dsets c)
include h

theorem data : r.data = c.data := by
  obtain ⟨db, hdbufs, hxbuf, -, -⟩ := h.dbufs
  simp [WReq.data, hdbufs, hxbuf]

theorem fsize : r.hdr.fsize.toNat = c.data.length := by
  obtain ⟨db, -, -, hsize, hfsize⟩ := h.dbufs
  rw [hfsize, hsize]

theorem data_pos : 0 < c.data.length := by
  obtain ⟨dip, -, hstore, -⟩ := h.dset
  exact hstore.some_data

theorem data_lt : c.data.length < 2 ^ 31 := by
  obtain ⟨dip, -, hstore, -⟩ := h.dset
  exact hstore.data_lt

theorem ready : r.Ready := by
  obtain ⟨db, hdbufs, hxbuf, hsize, hfsize⟩ := h.dbufs
  have hlt := h.data_lt
  constructor
  · rw [hdbufs, hfsize]
    exact (add_zero _).symm
  · intro d hd
    rw [hdbufs] at hd
    rw [List.mem_singleton.mp hd, hxbuf, hsize]
    exact ⟨rfl, hlt⟩

theorem wellSized : r.WellSized := by
  obtain ⟨dip, -, hstore, hplain⟩ := h.dset
  exact hplain.wellSized (storable_proper hstore)

theorem did : r.hdr.did.toNat = c.did := by
  obtain ⟨dip, -, hstore, hplain⟩ := h.dset
  have hdid : r.hdr.did = BitVec.ofNat 32 c.did := hplain.did
  have hlt : c.did < 2 ^ 32 := lt_trans hstore.did_lt (by norm_num)
  rw [hdid, BitVec.toNat_ofNat, Nat.mod_eq_of_lt hlt]

/-- It may be moved in the file. -/
theorem sameBut {r' : WReq} (hsame : r.SameBut r') : r'.Carries env dsets c := by
  obtain ⟨foff, rfl⟩ := hsame
  obtain ⟨dip, hdip, hstore, hplain⟩ := h.dset
  exact ⟨⟨dip, hdip, hstore, hplain.did, hplain.metaSize, hplain.flag, hplain.body⟩, h.dbufs⟩

end WReq.Carries

/-- Clearing a flag that is not set. -/
theorem clearFlag_of_not {flags bit : I32} (h : hasFlag flags bit = false) : clearFlag flags bit = flags := by
  have hzero : flags &&& bit = 0#32 := by simpa [hasFlag] using h
  apply BitVec.eq_of_getLsbD_eq
  intro i hi
  have hbit := congrArg (fun w : BitVec 32 => w.getLsbD i) hzero
  simp only [BitVec.getLsbD_and, BitVec.getLsbD_zero] at hbit
  simp only [clearFlag, BitVec.getLsbD_and, BitVec.getLsbD_not, hi, decide_true, Bool.true_and]
  cases hf : flags.getLsbD i with
  | false => rfl
  | true => simpa [hf] using hbit

/-! ## §3 — a write. -/

/-- What a write leaves of a rank besides its queue. -/
structure LeavesTables (f f' : RankFile) : Prop where
  dsetsInfo : f'.dsetsInfo = f.dsetsInfo
  nflushed : f'.nflushed = f.nflushed
  mreqs : f'.mreqs = f.mreqs

/-- A stage changes the queue of the rank only if it succeeds. -/
structure QueuesOrNot (f : RankFile) (o : Outcome Unit) : Prop where
  tables : LeavesTables f o.1
  failed : o.2 ≠ .ok () → o.1.wreqs = f.wreqs

theorem queuesOrNot_same (f : RankFile) (res : Except Fault Unit) : QueuesOrNot f (f, res) :=
  ⟨⟨rfl, rfl, rfl⟩, fun _ => rfl⟩

section Write

variable {env : FileEnv} (hmerge : hasFlag env.config FileConfig.metadataMerge = false)

/-- What holds of a stage that fails, and of what follows one that does not. -/
theorem Outcome.andThen_rule {α β : Type} {o : Outcome α} {k : RankFile → α → Outcome β} {Q : Outcome β → Prop}
    (herror : ∀ e, Q (o.1, .error e)) (hok : ∀ a, o.2 = .ok a → Q (k o.1 a)) : Q (o.andThen k) := by
  obtain ⟨f, e | a⟩ := o
  · exact herror e
  · exact hok a rfl

include hmerge

/-- **A write** changes the queue of the rank, and that only when it is accepted. -/
theorem datasetWrite_tables (c : WriteCall) (f : RankFile) : QueuesOrNot f (datasetWrite env c f) := by
  have hsame := queuesOrNot_same f
  unfold datasetWrite
  split
  · exact hsame _
  split
  · exact hsame _
  split
  · rename_i dip _
    split
    · exact hsame _
    split
    · exact hsame _
    split
    · exact hsame _
    · rename_i r _
      unfold writeReq
      -- encoding changes the table and the zip buffer only
      obtain ⟨⟨table, zbsize, zbuf, hfile⟩, -⟩ := encodeReq_file env c f r
      refine Outcome.andThen_rule (Q := QueuesOrNot f) ?_ ?_
      · intro e
        rw [hfile]
        exact ⟨⟨rfl, rfl, rfl⟩, fun _ => rfl⟩
      · intro r₁ _
        rw [hfile, ← andThen_assoc]
        -- the data changes the account only
        have hdata : ∃ bused, ((takeData env c dip
            { f with wreqHash := table, zbsize := zbsize, zbuf := zbuf }).andThen (filterData env c dip)).1 =
              { f with wreqHash := table, zbsize := zbsize, zbuf := zbuf, bused := bused } := by
          rcases data_cases env c dip { f with wreqHash := table, zbsize := zbsize, zbuf := zbuf } with
            ⟨⟨e, heq⟩, -⟩ | ⟨⟨e, heq⟩, -⟩ | ⟨⟨db, heq⟩, -⟩
          · exact ⟨f.bused, by rw [heq]⟩
          · exact ⟨_, by rw [heq]⟩
          · exact ⟨_, by rw [heq]⟩
        obtain ⟨bused, hdata⟩ := hdata
        refine Outcome.andThen_rule (Q := QueuesOrNot f) ?_ ?_
        · intro e
          rw [hdata]
          exact ⟨⟨rfl, rfl, rfl⟩, fun _ => rfl⟩
        · intro db _
          rw [hdata]
          unfold enqueue queueReq
          rw [hmerge, if_neg Bool.false_ne_true]
          split
          · exact ⟨⟨rfl, rfl, rfl⟩, fun hne => absurd rfl hne⟩
          · exact ⟨⟨rfl, rfl, rfl⟩, fun _ => rfl⟩
  · exact hsame _

/-- **A write that is accepted** queues its request. -/
theorem datasetWrite_carries (hshare : hasFlag env.config FileConfig.metadataShare = false) {c : WriteCall}
    {f f' : RankFile} (hsel : c.sels.nsel ≠ 0)
    (hstore : ∀ dip, f.dsetsInfo[c.did]? = some (some dip) → c.Storable env dip)
    (h : datasetWrite env c f = (f', .ok ())) :
    ∃ r, f'.wreqs = f.wreqs ++ [r] ∧ r.Carries env f.dsetsInfo c := by
  obtain ⟨dip, r, f₁, r₁, f₂, db, hmakes, hencode, hdata, hqueue, hwreqs, -⟩ := datasetWrite_ok hsel h
  have hdset := hmakes.2.2.1
  have hc := hstore dip hdset
  refine ⟨r₁.queued db, ?_, ⟨dip, hdset, hc, ?_⟩, db, rfl, ?_, ?_, rfl⟩
  · rcases enqueue_ok hqueue with ⟨-, hw, -⟩ | ⟨hyes, -⟩
    · rw [hw, hwreqs]
    · rw [hmerge] at hyes
      cases hyes
  · -- the entry is whole, and not compressed
    have hwords := selWords_lt_of_size env.zlib env.config dip c.sels hc.rank hc.entry_lt
    have hinit := wreqInit_eq env.zlib env.config dip c.sels (BitVec.ofNat 32 c.did) f.mdsize hc.rank hwords
    obtain rfl := Except.ok.inj (hinit.symm.trans hmakes.2.2.2)
    rcases encodeReq_ok hencode with ⟨_, hlook, -⟩ | ⟨-, hr₁⟩
    · rw [LookedUp, hshare] at hlook
      cases hlook.1
    · rw [hr₁]
      split
      · exact ⟨rfl, rfl, rfl, rfl⟩
      · rename_i hzip
        have hflag : hasFlag (wreqFlag env.zlib env.config dip c.sels) MetaFlag.selDeflate = false := by
          by_contra hset
          rw [Bool.not_eq_false] at hset
          refine hzip ⟨?_, hset⟩
          rw [wreqFlag_selDeflate, Bool.and_eq_true, Bool.and_eq_true] at hset
          exact hset.1.2
        exact ⟨rfl, rfl, (clearFlag_of_not hflag).symm, rfl⟩
  · rw [(data_bytes hdata).1, WriteCall.bytes, if_pos hc.unfiltered]
  · have hbytes : c.bytes env dip = c.data := if_pos hc.unfiltered
    have hlt := hc.data_lt
    have hsize : (c.sels.getSelSize * dip.esize).toNat = c.data.length := by
      rw [getSelSize_eq, BitVec.toNat_mul, BitVec.toNat_ofNat, Nat.mod_mul_mod, Nat.mul_comm, ← hc.filled,
        Nat.mod_eq_of_lt (by omega)]
    rw [data_size hsize hdata (by rw [hbytes]; exact hlt), hbytes]

end Write

/-! ## §4 — a flush of one group. -/

theorem flushMerged_eq {f : RankFile} (h : f.Unmerged) : f.flushMerged = f := by
  have hnone : f.mreqs.filterMap pendingMerged = [] := h
  have hmreqs : (f.mreqs.map fun m => if (pendingMerged m).isSome then none else m) = f.mreqs := by
    conv_rhs => rw [← List.map_id f.mreqs]
    apply List.map_congr_left
    intro m hm
    rw [List.filterMap_eq_nil_iff.mp hnone m hm]
    rfl
  simp only [RankFile.flushMerged, hnone, hmreqs, List.map_nil, List.append_nil, List.foldl_nil]

/-- What a flush leaves of a rank besides its queue. -/
theorem localFlush_tables {config : I32} {f : RankFile} {l : LocalFlush}
    (h : localFlush config f = .ok l) : l.file.dsetsInfo = f.dsetsInfo ∧ l.file.Unmerged := by
  have hmerged : f.flushMerged.Unmerged := unmerged_flushMerged f
  rcases (localFlush_cases h).2 with ⟨-, rfl⟩ | ⟨-, -, bytes, rfl⟩
  · exact ⟨rfl, hmerged⟩
  · exact ⟨rfl, hmerged⟩

section Flush

variable {config : I32} {doff : ℕ → HSize} {g : Group}

/-- A flush with nothing queued changes nothing. -/
theorem flushWriteReqs_idle (h : ∀ f ∈ g.ranks, f.Unmerged ∧ f.queued = []) :
    flushWriteReqs config doff [g] = .ok [g] := by
  -- Nothing behind nflushed, so no rank has a block, and the sum of their sizes is 0.
  have hlocal : ∀ f ∈ g.ranks, localFlush config f = .ok ⟨f, [], 0⟩ := by
    intro f hf
    obtain ⟨hunmerged, hqueued⟩ := h f hf
    have hvisited : f.Visited := by
      intro hlt
      rw [hunmerged.wreqs_eq] at hlt
      exact absurd hlt (not_lt.mpr (List.drop_eq_nil_iff.mp hqueued))
    have hnone : blockCount f.toFlush = 0 := by
      rw [hunmerged.toFlush_eq, hqueued]
      rfl
    rw [localFlush_nothing config hvisited hnone, flushMerged_eq hunmerged]
  have hlocals : [g].mapM (fun g => g.ranks.mapM (localFlush config)) =
      .ok [g.ranks.map fun f => ⟨f, [], 0⟩] := by
    have hranks : g.ranks.mapM (localFlush config) = .ok (g.ranks.map fun f => ⟨f, [], 0⟩) := by
      rw [Lib.mapM_eq_ok_iff, List.forall₂_map_right_iff, List.forall₂_same]
      exact hlocal
    rw [List.mapM_cons, hranks]
    rfl
  have hsum : (([g.ranks.map fun f => (⟨f, [], 0⟩ : LocalFlush)].flatten).map LocalFlush.fsizeLocal).sum = 0 := by
    rw [List.flatten_singleton, List.map_map]
    induction g.ranks with
    | nil => rfl
    | cons f fs ih =>
      rw [List.map_cons, List.sum_cons, ih]
      rfl
  rw [flushWriteReqs, hlocals]
  refine (if_pos hsum).trans ?_
  simp only [List.zipWith_cons_cons, List.zipWith_nil_left, List.map_map, Function.comp_def, List.map_id']
  rfl

/-- Groups whose requests are the same, but for their places. -/
def SameRequests (g g' : Group) : Prop :=
  List.Forall₂ (fun f f' : RankFile => List.Forall₂ WReq.SameBut f.wreqs f'.wreqs) g.ranks g'.ranks

theorem sameBut_same (rs : List WReq) : List.Forall₂ WReq.SameBut rs rs :=
  List.forall₂_same.mpr fun r _ => ⟨r.hdr.foff, rfl⟩

/-- A rank after the exchange: what was flushed before, and what was queued at other places. -/
theorem FinishedAt.sameRequests {base : ℕ} {f f' : RankFile} (h : FinishedAt base f f') (hunmerged : f.Unmerged) :
    List.Forall₂ WReq.SameBut f.wreqs f'.wreqs := by
  have hnow := h.sameBut
  rw [hunmerged.toFlush_eq, RankFile.queued] at hnow
  have hpast := sameBut_same (f.wreqs.take f.nflushed)
  nth_rewrite 2 [← h.earlier] at hpast
  rw [← List.take_append_drop f.nflushed f.wreqs, ← List.take_append_drop f.nflushed f'.wreqs]
  exact List.rel_append hpast hnow

theorem length_layout (start : ℕ) (ns : List ℕ) : (layout start ns).length = ns.length := by
  induction ns generalizing start with
  | nil => rfl
  | cons n ns ih => simp [layout, ih]

theorem finished_sameRequests {fs fs' : List RankFile} {starts : List ℕ} (hunmerged : ∀ f ∈ fs, f.Unmerged)
    (hlen : fs.length ≤ starts.length)
    (h : List.Forall₂ (fun f' (p : RankFile × ℕ) => FinishedAt p.2 p.1 f') fs' (fs.zip starts)) :
    List.Forall₂ (fun f f' : RankFile => List.Forall₂ WReq.SameBut f.wreqs f'.wreqs) fs fs' := by
  have hzip : List.Forall₂ (fun f f' : RankFile => List.Forall₂ WReq.SameBut f.wreqs f'.wreqs)
      ((fs.zip starts).map Prod.fst) fs' := by
    rw [List.forall₂_map_left_iff, List.forall₂_iff_zip]
    refine ⟨h.flip.length_eq, ?_⟩
    intro p f' hmem
    have hf := (List.forall₂_iff_zip.mp h.flip).2 hmem
    exact hf.sameRequests (hunmerged p.1 (List.of_mem_zip (List.of_mem_zip hmem).1).1)
  rwa [List.map_fst_zip hlen] at hzip

/-- **A flush of a group that has data**: its requests are one behind the other in the log dataset. -/
theorem flushWriteReqs_one (hready : ∀ f ∈ g.ranks, f.Ready ∧ f.Unmerged) (hcounted : ∀ f ∈ g.ranks, f.Counted)
    (hfit : (doff 0).toNat + g.pendingBytes < 2 ^ 64) (hpos : 0 < g.pendingBytes) :
    ∃ g', flushWriteReqs config doff [g] = .ok [g'] ∧ GroupFlushed (doff 0) g g' ∧
      List.Forall₂ Lib.SamePlace ((flushedBy g g').map WReq.range)
        (layout (doff 0).toNat ((g.ranks.flatMap RankFile.toFlush).map fun r => r.data.length)) ∧
      SameRequests g g' ∧ ∀ f' ∈ g'.ranks, f'.Unmerged ∧ ∃ f ∈ g.ranks, f'.dsetsInfo = f.dsetsInfo := by
  have hrdy : ∀ f ∈ g.ranks, f.Ready := fun f hf => (hready f hf).1
  obtain ⟨ls, hls, hof⟩ := Lib.exists_mapM_ok fun f hf => localFlush_of config (hrdy f hf) (by
    have hle : f.pendingBytes ≤ g.pendingBytes := List.le_sum_of_mem (List.mem_map_of_mem hf)
    omega) (hcounted f hf)
  have hlocals : [g].mapM (fun g => g.ranks.mapM (localFlush config)) = .ok [ls] := by
    rw [List.mapM_cons, hls]
    rfl
  have hsum := locals_sum hof (lt_of_le_of_lt (Nat.le_add_left _ _) hfit)
  -- The loop over the groups runs because some rank has data.
  have hne : ([ls].flatten.map LocalFlush.fsizeLocal).sum ≠ 0 := by
    rw [List.flatten_singleton]
    intro hzero
    rw [hzero] at hsum
    exact hpos.ne hsum
  have hzero : ((0 : MpiOffset) + doff 0).toNat = (doff 0).toNat := by rw [zero_add]
  obtain ⟨hfin, -⟩ := finish_ranks 0 (doff 0) hrdy hof (by rw [hzero]; exact hfit)
  rw [hzero] at hfin
  have hgroup : (flushGroup (doff 0) ls g.file).ranks =
      List.zipWith (fun l foffGroup => finishRank (foffGroup + doff 0) l.file) ls
        (exscan 0 (ls.map LocalFlush.fsizeLocal)) := by
    rw [flushGroup, if_neg (by rwa [List.flatten_singleton] at hne)]
  refine ⟨(flushGroup (doff 0) ls g.file).markDirty, ?_, (flushGroup_flushed hrdy hof hfit hpos).markDirty, ?_, ?_,
    ?_⟩
  · rw [flushWriteReqs, hlocals]
    exact if_neg hne
  · rw [flushedBy_markDirty, flushedBy, hgroup]
    exact (finished_ranks hfin).2.2.2
  · rw [SameRequests, Group.markDirty, List.forall₂_map_right_iff, hgroup]
    exact finished_sameRequests (fun f hf => (hready f hf).2) (by simp [length_layout]) hfin
  · -- A rank keeps its table of datasets, whatever it flushed.
    intro f' hf'
    obtain ⟨f'', hf'', rfl⟩ := List.mem_map.mp hf'
    rw [flushGroup, if_neg (by rwa [List.flatten_singleton] at hne)] at hf''
    obtain ⟨i, hi, rfl⟩ := List.mem_iff_getElem.mp hf''
    simp only [List.getElem_zipWith]
    have hl := List.getElem_mem (l := ls) (n := i) (by simp at hi; omega)
    obtain ⟨f, hf, hlocal⟩ := Lib.mem_of_mapM_ok hls hl
    obtain ⟨hinfo, hunmerged⟩ := localFlush_tables hlocal
    exact ⟨hunmerged, f, hf, hinfo⟩

end Flush

/-! ## §5 — what the log stands for. -/

/-- The size of the elements of each dataset. -/
def esizeOf (dsets : List (Option DsetInfo)) (did : ℕ) : ℕ := ((dsets[did]?).join).elim 0 fun dip => dip.esize.toNat

/-- What became of the writes that were flushed: their requests in the order of the log, each with its write, and
the sections of the metadata datasets. -/
structure Trail where
  logged : List (WReq × WriteCall)
  secs : List (List (List WReq))

/-- The requests of a group whose data is in the log, and whose entries are in no metadata dataset yet. -/
def Group.flushed (g : Group) : List WReq := g.ranks.flatMap fun f => f.wreqs.take f.nflushed

/-- The sections of the metadata dataset that a metadata flush of the group writes. -/
def Group.sections (g : Group) : List (List WReq) := g.ranks.map RankFile.wreqs

/-- The writes that a rank has not flushed, and what it has queued. -/
def QueuedFor (env : FileEnv) (dsets : List (Option DsetInfo)) (cs : List WriteCall) (f : RankFile) : Prop :=
  List.Forall₂ (fun c r => WReq.Carries env dsets c r) cs f.queued

/-- **The log tracks the elements**: `a` is what the group and its metadata datasets stand for, by way of `t`; no
log dataset ends behind `top`. -/
structure Tracks (env : FileEnv) (dsets : List (Option DsetInfo)) (g : Group) (metadata : List (List UInt8))
    (top : ℕ) (t : Trail) (a : ElemFile) : Prop where
  dsetsInfo : ∀ f ∈ g.ranks, f.dsetsInfo = dsets
  unmerged : ∀ f ∈ g.ranks, f.Unmerged
  nflushed : ∀ f ∈ g.ranks, f.nflushed ≤ f.wreqs.length
  queued : List.Forall₂ (QueuedFor env dsets) a.pending g.ranks
  carries : ∀ p ∈ t.logged, WReq.Carries env dsets p.2 p.1
  order : t.logged.Pairwise fun p q => p.1.range.1 + p.1.range.2 ≤ q.1.range.1
  below : ∀ p ∈ t.logged, p.1.range.1 + p.1.range.2 ≤ top
  top_lt : top < 2 ^ 63
  file : ∀ p ∈ t.logged, g.file.read p.1.range.1 p.1.range.2 = p.1.data
  held : a.held = assign (fun _ => none) (t.logged.flatMap fun p => p.2.assigns (esizeOf dsets))
  metadata_eq : metadata = t.secs.map fun secs => metadataDataset (secs.map sectionMeta)
  ranks_lt : g.ranks.length < 2 ^ 31
  sizes : ∀ secs ∈ t.secs, secs.length < 2 ^ 31 ∧ (metadataDataset (secs.map sectionMeta)).length < 2 ^ 63
  indexed : (t.secs.flatten.flatten ++ g.flushed).Perm (t.logged.map Prod.fst)

/-- Ranks that were changed one by one. -/
theorem forall₂_modify {α β : Type} {R : α → β → Prop} {xs : List α} {ys : List β} (h : List.Forall₂ R xs ys)
    {i : ℕ} {f : α → α} {g : β → β} (hi : ∀ x y, ys[i]? = some y → R x y → R (f x) (g y)) :
    List.Forall₂ R (xs.modify i f) (ys.modify i g) := by
  induction h generalizing i with
  | nil => simp
  | @cons x y xs ys hxy hrest ih =>
    cases i with
    | zero => exact List.Forall₂.cons (hi x y rfl hxy) hrest
    | succ i => exact List.Forall₂.cons hxy (ih hi)

theorem map_modify_of_eq {α β : Type} {h : α → β} {l : List α} {i : ℕ} {f : α → α}
    (heq : ∀ a, l[i]? = some a → h (f a) = h a) : (l.modify i f).map h = l.map h := by
  apply List.ext_getElem
  · simp
  · intro k hk hk'
    rw [List.length_map] at hk'
    simp only [List.getElem_map, List.getElem_modify]
    split
    · rename_i hik
      subst hik
      exact heq _ (List.getElem?_eq_getElem hk')
    · rfl

/-- The pairs of two lists of one length that belong together. -/
theorem mem_zip_of_forall₂ {α β : Type} {R : α → β → Prop} {xs : List α} {ys : List β} (h : List.Forall₂ R xs ys)
    {p : β × α} (hp : p ∈ ys.zip xs) : R p.2 p.1 :=
  (List.forall₂_iff_zip.mp h.flip).2 hp

theorem forall₂_comp {α β γ : Type} {R : α → β → Prop} {S : β → γ → Prop} {T : α → γ → Prop} {xs : List α}
    {ys : List β} {zs : List γ} (hcomp : ∀ x y z, R x y → S y z → T x z) (hR : List.Forall₂ R xs ys)
    (hS : List.Forall₂ S ys zs) : List.Forall₂ T xs zs := by
  induction hR generalizing zs with
  | nil =>
    cases hS
    exact List.Forall₂.nil
  | cons hxy _ ih =>
    cases hS with
    | cons hyz hS => exact List.Forall₂.cons (hcomp _ _ _ hxy hyz) (ih hS)

/-- After a flush all requests are in the log, those that were there before among them. -/
theorem flushed_perm {g g' : Group} {doff : HSize} (hg : GroupFlushed doff g g') :
    g'.flushed.Perm (g.flushed ++ flushedBy g g') := by
  have hranks : ∀ fs fs' : List RankFile,
      List.Forall₂ (fun f f' : RankFile => f'.wreqs.take f.nflushed = f.wreqs.take f.nflushed) fs fs' →
      (∀ f' ∈ fs', f'.nflushed = f'.wreqs.length) →
      (fs'.flatMap fun f => f.wreqs.take f.nflushed).Perm ((fs.flatMap fun f => f.wreqs.take f.nflushed) ++
        (List.zipWith (fun f f' : RankFile => f'.wreqs.drop f.nflushed) fs fs').flatten) := by
    intro fs fs' hfs hall
    induction hfs with
    | nil => simp
    | @cons f f' fs fs' hf _ ih =>
      rw [List.forall_mem_cons] at hall
      have hwhole : f'.wreqs.take f'.nflushed = f.wreqs.take f.nflushed ++ f'.wreqs.drop f.nflushed := by
        rw [hall.1, List.take_length, ← hf, List.take_append_drop]
      rw [List.flatMap_cons, List.flatMap_cons, List.zipWith_cons_cons, List.flatten_cons, hwhole,
        List.append_assoc, List.append_assoc]
      apply List.Perm.append_left
      refine (List.Perm.append_left _ (ih hall.2)).trans ?_
      rw [← List.append_assoc, ← List.append_assoc]
      exact List.Perm.append_right _ List.perm_append_comm
  exact hranks g.ranks g'.ranks hg.earlier hg.nflushed

theorem metaflushed_flushed (g : Group) :
    ({ g with ranks := g.ranks.map RankFile.metaflushed } : Group).flushed = [] := by
  rw [Group.flushed, List.flatMap_eq_nil_iff]
  intro f hf
  rcases List.mem_map.mp hf with ⟨f', -, rfl⟩
  rfl

/-- The writes of the requests of a rank, or of a section, all of them made by that rank. -/
structure CarriedFor (env : FileEnv) (dsets : List (Option DsetInfo)) (made : ℕ → WriteCall → Prop)
    (css : List (List WriteCall)) (rss : List (List WReq)) : Prop where
  carries : List.Forall₂ (List.Forall₂ fun c r => WReq.Carries env dsets c r) css rss
  made : ∀ i, ∀ c ∈ css.getD i [], made i c

/-- **The sections track the elements** of a file that is flushed only when it is closed: `b` is what the sections
of the metadata datasets stand for, and what the ranks have queued or flushed since. Every write is `made` by the
rank in whose section it is. -/
structure Sectioned (env : FileEnv) (dsets : List (Option DsetInfo)) (made : ℕ → WriteCall → Prop) (g : Group)
    (secs : List (List (List WReq))) (b : ElemFile) : Prop where
  kept : CarriedFor env dsets made b.pending g.sections
  recorded : ∃ csss, List.Forall₂ (CarriedFor env dsets made) csss secs ∧
    (∀ css ∈ csss, css.length = g.ranks.length) ∧
    b.held = assign (fun _ => none) (csss.flatten.flatten.flatMap (WriteCall.assigns (esizeOf dsets)))

/-- **A flush** leaves the sections. -/
theorem Sectioned.flushed {env : FileEnv} {dsets : List (Option DsetInfo)} {made : ℕ → WriteCall → Prop}
    {g g' : Group} {secs : List (List (List WReq))} {b : ElemFile} (h : Sectioned env dsets made g secs b)
    (hreqs : SameRequests g g') : Sectioned env dsets made g' secs b := by
  have hsections : List.Forall₂ (List.Forall₂ WReq.SameBut) g.sections g'.sections := by
    rw [Group.sections, Group.sections, List.forall₂_map_left_iff, List.forall₂_map_right_iff]
    exact hreqs
  refine ⟨⟨forall₂_comp ?_ h.kept.carries hsections, h.kept.made⟩, ?_⟩
  · intro cs rs rs' hcs hrs
    exact forall₂_comp (fun c r r' hc hr => hc.sameBut hr) hcs hrs
  · rw [← hreqs.length_eq]
    exact h.recorded

/-- **A metadata flush** makes sections of what was queued or flushed. -/
theorem Sectioned.metaflushed {env : FileEnv} {dsets : List (Option DsetInfo)} {made : ℕ → WriteCall → Prop}
    {g : Group} {secs : List (List (List WReq))} {b : ElemFile} (h : Sectioned env dsets made g secs b) :
    Sectioned env dsets made { g with ranks := g.ranks.map RankFile.metaflushed }
      (secs ++ if g.sections.flatten = [] then [] else [g.sections]) (b.flushed (esizeOf dsets)) := by
  constructor
  · -- nothing is queued any more
    constructor
    · show List.Forall₂ _ (b.pending.map fun _ => []) ((g.ranks.map RankFile.metaflushed).map RankFile.wreqs)
      rw [List.map_map, List.forall₂_map_left_iff, List.forall₂_map_right_iff]
      have hkept := h.kept.carries
      rw [Group.sections, List.forall₂_map_right_iff] at hkept
      exact hkept.imp fun _ _ _ => List.Forall₂.nil
    · intro i c hc
      simp only [ElemFile.flushed, List.getD_eq_getElem?_getD, List.getElem?_map] at hc
      cases hi : b.pending[i]? <;> simp [hi] at hc
  · rcases h.recorded with ⟨csss, hcsss, hlens, hheld⟩
    have hlen := h.kept.carries.length_eq
    rw [Group.sections, List.length_map] at hlen
    rw [ElemFile.flushed, hheld]
    by_cases hnil : g.sections.flatten = []
    · -- there was none
      have hnone : b.pending.flatten = [] := by
        rw [← List.length_eq_zero_iff, (List.rel_flatten h.kept.carries).length_eq, hnil]
        rfl
      refine ⟨csss, ?_, ?_, ?_⟩
      · rwa [if_pos hnil, List.append_nil]
      · rwa [List.length_map]
      · rw [hnone]
        rfl
    · refine ⟨csss ++ [b.pending], ?_, ?_, ?_⟩
      · rw [if_neg hnil]
        exact List.rel_append hcsss (List.Forall₂.cons h.kept List.Forall₂.nil)
      · rw [List.length_map, List.forall_mem_append]
        exact ⟨hlens, by simpa using hlen⟩
      · rw [List.flatten_append, List.flatten_singleton, List.flatten_append, List.flatMap_append,
          Lib.assign_append]

/-- The events of a write of a rank: one if it is accepted and selects something. -/
def writeEvents (env : FileEnv) (i : ℕ) (c : WriteCall) (f : RankFile) : List ElemEvent :=
  match (datasetWrite env c f).2 with
  | .ok () => if c.sels.nsel = 0 then [] else [.write i c]
  | .error _ => []

/-- What a flush adds to the log. -/
def Trail.flushed (t : Trail) (g g' : Group) (a : ElemFile) : Trail :=
  { t with logged := t.logged ++ (flushedBy g g').zip a.pending.flatten }

/-- Where the log ends after a flush. -/
def Group.topAfter (g : Group) (doff : HSize) (top : ℕ) : ℕ :=
  if g.pendingBytes = 0 then top else doff.toNat + g.pendingBytes

/-- A rank of a new file: nothing is queued. -/
structure RankFile.Fresh (dsets : List (Option DsetInfo)) (f : RankFile) : Prop where
  dsetsInfo : f.dsetsInfo = dsets
  wreqs : f.wreqs = []
  nflushed : f.nflushed = 0
  unmerged : f.Unmerged

/-- **A new file** has no elements. -/
theorem fresh_tracks (env : FileEnv) {dsets : List (Option DsetInfo)} {g : Group} (h : ∀ f ∈ g.ranks, f.Fresh dsets)
    (hranks : g.ranks.length < 2 ^ 31) {top : ℕ} (htop : top < 2 ^ 63) :
    Tracks env dsets g [] top ⟨[], []⟩ (ElemFile.empty g.ranks.length) := by
  have hflushed : g.flushed = [] := by
    rw [Group.flushed, List.flatMap_eq_nil_iff]
    intro f hf
    rw [(h f hf).wreqs, List.take_nil]
  refine ⟨?_, ?_, ?_, ?_, ?_, List.Pairwise.nil, ?_, htop, ?_, rfl, rfl, hranks, ?_, ?_⟩
  · exact fun f hf => (h f hf).dsetsInfo
  · exact fun f hf => (h f hf).unmerged
  · intro f hf
    rw [(h f hf).nflushed]
    exact Nat.zero_le _
  · show List.Forall₂ _ (List.replicate g.ranks.length []) g.ranks
    rw [← List.map_const', List.forall₂_map_left_iff, List.forall₂_same]
    intro f hf
    rw [QueuedFor, RankFile.queued, (h f hf).wreqs, List.drop_nil]
    exact List.Forall₂.nil
  · simp
  · simp
  · simp
  · simp
  · simp [hflushed]

/-- A new file has no sections. -/
theorem fresh_sectioned (env : FileEnv) {dsets : List (Option DsetInfo)} (made : ℕ → WriteCall → Prop) {g : Group}
    (h : ∀ f ∈ g.ranks, f.Fresh dsets) : Sectioned env dsets made g [] (ElemFile.empty g.ranks.length) := by
  refine ⟨⟨?_, ?_⟩, [], List.Forall₂.nil, by simp, rfl⟩
  · show List.Forall₂ _ (List.replicate g.ranks.length []) (g.ranks.map RankFile.wreqs)
    rw [← List.map_const', List.forall₂_map_left_iff, List.forall₂_map_right_iff, List.forall₂_same]
    intro f hf
    rw [(h f hf).wreqs]
    exact List.Forall₂.nil
  · intro i c hc
    have hnone : (List.replicate g.ranks.length ([] : List WriteCall)).getD i [] = [] := by
      simp [List.getD_eq_getElem?_getD, List.getElem?_replicate]
      split <;> rfl
    change c ∈ (List.replicate g.ranks.length ([] : List WriteCall)).getD i [] at hc
    rw [hnone] at hc
    cases hc

section Steps

variable {env : FileEnv} (hmerge : hasFlag env.config FileConfig.metadataMerge = false)
  (hshare : hasFlag env.config FileConfig.metadataShare = false) {dsets : List (Option DsetInfo)} {g : Group}
  {metadata : List (List UInt8)} {top : ℕ} {t : Trail} {a : ElemFile} (h : Tracks env dsets g metadata top t a)
include hmerge hshare h

/-- A write leaves what was flushed. -/
theorem datasetWrite_flushed {c : WriteCall} {f : RankFile} (hf : f ∈ g.ranks)
    (hstore : (datasetWrite env c f).2 = .ok () → c.sels.nsel ≠ 0 → ∀ dip, dsets[c.did]? = some (some dip) →
      c.Storable env dip) (i : ℕ) :
    LeavesTables f (datasetWrite env c f).1 ∧
      (((datasetWrite env c f).1.wreqs = f.wreqs ∧ writeEvents env i c f = []) ∨
        ∃ r, (datasetWrite env c f).1.wreqs = f.wreqs ++ [r] ∧ r.Carries env dsets c ∧
          writeEvents env i c f = [.write i c]) := by
  obtain ⟨htables, hfailed⟩ := datasetWrite_tables hmerge c f
  refine ⟨htables, ?_⟩
  unfold writeEvents
  rcases hres : (datasetWrite env c f).2 with e | u
  · exact Or.inl ⟨hfailed (by rw [hres]; simp), rfl⟩
  · by_cases hsel : c.sels.nsel = 0
    · left
      rw [if_pos hsel]
      refine ⟨?_, rfl⟩
      rw [datasetWrite, if_pos hsel]
    · right
      rw [if_neg hsel]
      have hinfo := h.dsetsInfo f hf
      obtain ⟨r, hr, hcarries⟩ := datasetWrite_carries hmerge hshare (f := f) hsel
        (by rw [hinfo]; exact hstore hres hsel) (Prod.ext rfl hres)
      exact ⟨r, hr, by rwa [hinfo] at hcarries, rfl⟩

/-- **A write** goes to the section of its rank. -/
theorem write_sectioned {b : ElemFile} {made : ℕ → WriteCall → Prop} (hs : Sectioned env dsets made g t.secs b)
    {c : WriteCall} {i : ℕ} {f : RankFile} (hf : g.ranks[i]? = some f)
    (hmade : .write i c ∈ writeEvents env i c f → made i c)
    (hstore : (datasetWrite env c f).2 = .ok () → c.sels.nsel ≠ 0 → ∀ dip, dsets[c.did]? = some (some dip) →
      c.Storable env dip) :
    Sectioned env dsets made { g with ranks := g.ranks.modify i fun f => (datasetWrite env c f).1 } t.secs
      (b.run (esizeOf dsets) (ElemFile.unflushed (writeEvents env i c f))) := by
  -- A call appends at most one request, and it appends it to the section of its own rank.
  have hsections : ∀ rs, (datasetWrite env c f).1.wreqs = f.wreqs ++ rs →
      ({ g with ranks := g.ranks.modify i fun f => (datasetWrite env c f).1 } : Group).sections =
        g.sections.modify i (· ++ rs) := by
    intro rs hrs
    apply List.ext_getElem
    · simp [Group.sections]
    · intro k hk hk'
      simp only [Group.sections, List.getElem_map, List.getElem_modify]
      split
      · rename_i hik
        subst hik
        obtain ⟨hlt, rfl⟩ := List.getElem?_eq_some_iff.mp hf
        exact hrs
      · rfl
  have hlens : (g.ranks.modify i fun f => (datasetWrite env c f).1).length = g.ranks.length := List.length_modify ..
  obtain ⟨-, ⟨hsame, hevents⟩ | ⟨r, hmore, hr, hevents⟩⟩ :=
    datasetWrite_flushed hmerge hshare h (List.mem_of_getElem? hf) hstore i
  · rw [hevents]
    refine ⟨?_, by rw [hlens]; exact hs.recorded⟩
    rw [hsections [] (by rw [List.append_nil, hsame])]
    simp only [List.append_nil]
    rw [show (fun rs : List WReq => rs) = id from rfl, List.modify_id]
    exact hs.kept
  · rw [hevents]
    refine ⟨?_, by rw [hlens]; exact hs.recorded⟩
    rw [hsections [r] hmore]
    rw [hevents] at hmade
    refine ⟨forall₂_modify hs.kept.carries ?_, ?_⟩
    · intro cs rs _ hcs
      exact List.rel_append hcs (List.Forall₂.cons hr List.Forall₂.nil)
    · intro k c' hc'
      have hold := hs.kept.made k
      change c' ∈ (b.pending.modify i (· ++ [c])).getD k [] at hc'
      rw [List.getD_eq_getElem?_getD, List.getElem?_modify] at hc'
      rw [List.getD_eq_getElem?_getD] at hold
      -- Of the calls that are pending, only those of this rank have one more.
      by_cases hik : i = k
      · subst hik
        cases hcs : b.pending[i]? with
        | none => simp [hcs] at hc'
        | some cs =>
          rw [hcs] at hold
          simp only [hcs, if_true] at hc'
          rcases List.mem_append.mp hc' with hc' | hc'
          · exact hold c' hc'
          · rw [List.mem_singleton.mp hc']
            exact hmade (List.mem_singleton_self _)
      · apply hold
        simpa [hik] using hc'

/-- **A write** is tracked. -/
theorem write_tracks {c : WriteCall} {i : ℕ} {f : RankFile} (hf : g.ranks[i]? = some f)
    (hstore : (datasetWrite env c f).2 = .ok () → c.sels.nsel ≠ 0 → ∀ dip, dsets[c.did]? = some (some dip) →
      c.Storable env dip) :
    Tracks env dsets { g with ranks := g.ranks.modify i fun f => (datasetWrite env c f).1 } metadata top t
      (a.run (esizeOf dsets) (writeEvents env i c f)) := by
  have hmem := List.mem_of_getElem? hf
  obtain ⟨htables, hcases⟩ := datasetWrite_flushed hmerge hshare h hmem hstore i
  have hlen : f.wreqs.length ≤ (datasetWrite env c f).1.wreqs.length := by
    rcases hcases with ⟨hsame, -⟩ | ⟨r, hmore, -⟩
    · rw [hsame]
    · simp [hmore]
  -- what was flushed, and what was not
  have hflushed : (datasetWrite env c f).1.wreqs.take f.nflushed = f.wreqs.take f.nflushed := by
    rcases hcases with ⟨hsame, -⟩ | ⟨r, hmore, -⟩
    · rw [hsame]
    · rw [hmore, List.take_append_of_le_length (h.nflushed f hmem)]
  have hranks : ∀ f' ∈ g.ranks.modify i fun f => (datasetWrite env c f).1,
      f' ∈ g.ranks ∨ f' = (datasetWrite env c f).1 := by
    intro f' hf'
    rcases mem_modify hf' with hf' | ⟨b, hb, rfl⟩
    · exact Or.inl hf'
    · right
      rw [Option.some.inj (hb.symm.trans hf)]
  have hqueued : List.Forall₂ (QueuedFor env dsets) (a.run (esizeOf dsets) (writeEvents env i c f)).pending
      (g.ranks.modify i fun f => (datasetWrite env c f).1) := by
    rcases hcases with ⟨hsame, hevents⟩ | ⟨r, hmore, hr, hevents⟩
    · rw [hevents, ElemFile.run_nil, ← List.modify_id i a.pending]
      refine forall₂_modify h.queued ?_
      intro cs f' hf' hcs
      obtain rfl := Option.some.inj (hf'.symm.trans hf)
      rw [QueuedFor, RankFile.queued, hsame, htables.nflushed]
      exact hcs
    · rw [hevents, ElemFile.run_cons, ElemFile.run_nil]
      refine forall₂_modify h.queued ?_
      intro cs f' hf' hcs
      obtain rfl := Option.some.inj (hf'.symm.trans hf)
      rw [QueuedFor, RankFile.queued, hmore, htables.nflushed, List.drop_append_of_le_length (h.nflushed _ hmem)]
      exact List.rel_append hcs (List.Forall₂.cons hr List.Forall₂.nil)
  have hheld : (a.run (esizeOf dsets) (writeEvents env i c f)).held = a.held := by
    rcases hcases with ⟨-, hevents⟩ | ⟨r, -, -, hevents⟩
    · rw [hevents, ElemFile.run_nil]
    · rw [hevents]
      rfl
  have hkept : ({ g with ranks := g.ranks.modify i fun f => (datasetWrite env c f).1 } : Group).flushed =
      g.flushed := by
    simp only [Group.flushed, List.flatMap_def]
    congr 1
    apply map_modify_of_eq
    intro f' hf'
    obtain rfl := Option.some.inj (hf'.symm.trans hf)
    rw [htables.nflushed, hflushed]
  refine ⟨?_, ?_, ?_, hqueued, h.carries, h.order, h.below, h.top_lt, h.file, hheld.trans h.held, h.metadata_eq, ?_,
    h.sizes, ?_⟩
  · intro f' hf'
    rcases hranks f' hf' with hf' | rfl
    · exact h.dsetsInfo f' hf'
    · rw [htables.dsetsInfo, h.dsetsInfo f hmem]
  · intro f' hf'
    rcases hranks f' hf' with hf' | rfl
    · exact h.unmerged f' hf'
    · rw [RankFile.Unmerged, htables.mreqs]
      exact h.unmerged f hmem
  · intro f' hf'
    rcases hranks f' hf' with hf' | rfl
    · exact h.nflushed f' hf'
    · rw [htables.nflushed]
      exact (h.nflushed f hmem).trans hlen
  · rw [List.length_modify]
    exact h.ranks_lt
  · rw [hkept]
    exact h.indexed

/-! ## §6 — a flush. -/

omit hmerge hshare

theorem tracks_queued {f : RankFile} (hf : f ∈ g.ranks) {r : WReq} (hr : r ∈ f.queued) :
    ∃ c, r.Carries env dsets c := by
  rcases Lib.forall₂_mem_left h.queued.flip hf with ⟨cs, -, hcs⟩
  rcases Lib.forall₂_mem_left hcs.flip hr with ⟨c, -, hc⟩
  exact ⟨c, hc⟩

theorem tracks_ready {f : RankFile} (hf : f ∈ g.ranks) : f.Ready := by
  constructor
  · exact h.nflushed f hf
  · rw [(h.unmerged f hf).toFlush_eq]
    intro r hr
    rcases tracks_queued h hf hr with ⟨c, hc⟩
    exact hc.ready

/-- A request of the queue has one data block. -/
theorem tracks_counted {f : RankFile} (hf : f ∈ g.ranks) (hfew : f.wreqs.length < 2 ^ 31) : f.Counted := by
  have hunmerged := h.unmerged f hf
  have hones : ((f.queued.flatMap WReq.dbufs).length) = f.queued.length := by
    rw [List.length_flatMap]
    have hone : f.queued.map (fun r => r.dbufs.length) = f.queued.map fun _ => 1 := by
      apply List.map_congr_left
      intro r hr
      rcases tracks_queued h hf hr with ⟨c, hc⟩
      rcases hc.dbufs with ⟨db, hdb, -⟩
      rw [hdb]
      rfl
    rw [hone]
    simp
  constructor
  · intro _
    rw [hunmerged.wreqs_eq]
    exact hfew
  · left
    rw [hunmerged.toFlush_eq, hones, RankFile.queued, List.length_drop]
    omega

/-- What is queued, rank by rank, are the writes that were not flushed. -/
theorem tracks_toFlush :
    List.Forall₂ (fun c r => WReq.Carries env dsets c r) a.pending.flatten (g.ranks.flatMap RankFile.toFlush) := by
  have hqueued : g.ranks.map RankFile.toFlush = g.ranks.map RankFile.queued := by
    apply List.map_congr_left
    intro f hf
    exact (h.unmerged f hf).toFlush_eq
  rw [List.flatMap_def, hqueued]
  apply List.rel_flatten
  rw [List.forall₂_map_right_iff]
  exact h.queued

/-- Without any bytes there is nothing queued. -/
theorem tracks_idle (hzero : g.pendingBytes = 0) : a.pending.flatten = [] ∧ ∀ f ∈ g.ranks, f.queued = [] := by
  have hnone : ∀ f ∈ g.ranks, f.queued = [] := by
    intro f hf
    rw [List.eq_nil_iff_forall_not_mem]
    intro r hr
    rcases tracks_queued h hf hr with ⟨c, hc⟩
    have hbytes : r.data.length ≤ f.pendingBytes := by
      rw [RankFile.pendingBytes, (h.unmerged f hf).toFlush_eq]
      exact List.le_sum_of_mem (List.mem_map_of_mem hr)
    have hrank : f.pendingBytes ≤ g.pendingBytes := List.le_sum_of_mem (List.mem_map_of_mem hf)
    have hpos := hc.data_pos
    rw [hc.data] at hbytes
    omega
  refine ⟨?_, hnone⟩
  have hlen := (tracks_toFlush h).length_eq
  rw [← List.length_eq_zero_iff, hlen, List.length_eq_zero_iff, List.flatMap_eq_nil_iff]
  intro f hf
  rw [(h.unmerged f hf).toFlush_eq, hnone f hf]

/-- **A flush** is tracked, if its log dataset is behind the others. -/
theorem flush_tracks {doff : ℕ → HSize}
    (hplace : 0 < g.pendingBytes → top ≤ (doff 0).toNat ∧ (doff 0).toNat + g.pendingBytes < 2 ^ 63 ∧
      ∀ f ∈ g.ranks, f.wreqs.length < 2 ^ 31) :
    ∃ g' t', flushWriteReqs env.config doff [g] = .ok [g'] ∧ t'.secs = t.secs ∧ SameRequests g g' ∧
      (∀ f ∈ g'.ranks, f.nflushed = f.wreqs.length) ∧
      Tracks env dsets g' metadata (g.topAfter (doff 0) top) t' (a.step (esizeOf dsets) .flush) := by
  have hpending : a.pending.map (fun _ => ([] : List WriteCall)) = List.replicate g.ranks.length [] := by
    rw [List.map_const', h.queued.length_eq]
  rcases Nat.eq_zero_or_pos g.pendingBytes with hzero | hpos
  · -- nothing is queued
    obtain ⟨hnone, hqueued⟩ := tracks_idle h hzero
    have hsame : a.step (esizeOf dsets) .flush = a := by
      have hempty : a.pending.map (fun _ => ([] : List WriteCall)) = a.pending := by
        conv_rhs => rw [← List.map_id a.pending]
        apply List.map_congr_left
        intro cs hcs
        exact (List.flatten_eq_nil_iff.mp hnone cs hcs).symm
      rw [ElemFile.step, ElemFile.flushed, hnone, hempty]
      rfl
    refine ⟨g, t, flushWriteReqs_idle fun f hf => ⟨h.unmerged f hf, hqueued f hf⟩, rfl,
      List.forall₂_same.mpr fun f _ => sameBut_same f.wreqs, ?_, ?_⟩
    · intro f hf
      have hlen := congrArg List.length (hqueued f hf)
      have hle := h.nflushed f hf
      simp only [RankFile.queued, List.length_drop, List.length_nil] at hlen
      omega
    · rw [Group.topAfter, if_pos hzero, hsame]
      exact h
  · obtain ⟨htop, hlt, hfew⟩ := hplace hpos
    obtain ⟨g', hflush, hg, hplaces, hreqs, htables⟩ := @flushWriteReqs_one env.config doff g
      (fun f hf => ⟨tracks_ready h hf, h.unmerged f hf⟩) (fun f hf => tracks_counted h hf (hfew f hf)) (by omega)
      hpos
    have hcarried : List.Forall₂ (fun c r => WReq.Carries env dsets c r) a.pending.flatten (flushedBy g g') :=
      forall₂_comp (fun c r r' hc hr => hc.sameBut hr) (tracks_toFlush h) hg.sameBut
    have hlen := hcarried.length_eq
    -- the requests are where the layout has them
    have hrange : (flushedBy g g').map WReq.range =
        layout (doff 0).toNat ((g.ranks.flatMap RankFile.toFlush).map fun r => r.data.length) := by
      apply Lib.eq_of_samePlace hplaces
      intro rng hrng
      obtain ⟨r, hr, rfl⟩ := List.mem_map.mp hrng
      obtain ⟨c, -, hc⟩ := Lib.forall₂_mem_left hcarried.flip hr
      rw [WReq.range, hc.fsize]
      exact hc.data_pos
    have hbytes : ((g.ranks.flatMap RankFile.toFlush).map fun r => r.data.length).sum = g.pendingBytes := by
      rw [List.map_flatMap, List.flatMap_def, List.sum_flatten, List.map_map]
      rfl
    have hbounds : ∀ r ∈ flushedBy g g',
        (doff 0).toNat ≤ r.range.1 ∧ r.range.1 + r.range.2 ≤ (doff 0).toNat + g.pendingBytes := by
      intro r hr
      have hmem := List.mem_map_of_mem (f := WReq.range) hr
      rw [hrange] at hmem
      rw [← hbytes]
      exact Lib.mem_layout_bounds hmem
    have hfst : ((flushedBy g g').zip a.pending.flatten).map Prod.fst = flushedBy g g' :=
      List.map_fst_zip (by omega)
    have hsnd : ((flushedBy g g').zip a.pending.flatten).map Prod.snd = a.pending.flatten :=
      List.map_snd_zip (by omega)
    have hnew : ∀ p ∈ (flushedBy g g').zip a.pending.flatten, p.1 ∈ flushedBy g g' := by
      intro p hp
      exact (List.of_mem_zip hp).1
    refine ⟨g', t.flushed g g' a, hflush, rfl, hreqs, hg.nflushed, ?_⟩
    rw [Group.topAfter, if_neg hpos.ne']
    refine ⟨?_, ?_, ?_, ?_, ?_, ?_, ?_, hlt, ?_, ?_, h.metadata_eq, ?_, h.sizes, ?_⟩
    · intro f' hf'
      obtain ⟨-, f, hf, hinfo⟩ := htables f' hf'
      rw [hinfo, h.dsetsInfo f hf]
    · intro f' hf'
      exact (htables f' hf').1
    · intro f' hf'
      exact (hg.nflushed f' hf').le
    · -- nothing is queued any more
      show List.Forall₂ _ (a.pending.map fun _ => []) g'.ranks
      rw [hpending, hg.earlier.length_eq, ← List.map_const', List.forall₂_map_left_iff, List.forall₂_same]
      intro f' hf'
      rw [QueuedFor, RankFile.queued, hg.nflushed f' hf', List.drop_length]
      exact List.Forall₂.nil
    · intro p hp
      rcases List.mem_append.mp hp with hp | hp
      · exact h.carries p hp
      · exact mem_zip_of_forall₂ hcarried hp
    · -- the new ones are behind one another, and behind the others
      refine List.pairwise_append.mpr ⟨h.order, ?_, ?_⟩
      · have hordered := Lib.layout_ordered (doff 0).toNat
          ((g.ranks.flatMap RankFile.toFlush).map fun r => r.data.length)
        rw [← hrange, ← hfst, List.pairwise_map, List.pairwise_map] at hordered
        exact hordered
      · intro p hp q hq
        have hbelow := h.below p hp
        have hq := (hbounds q.1 (hnew q hq)).1
        omega
    · intro p hp
      rcases List.mem_append.mp hp with hp | hp
      · have hbelow := h.below p hp
        omega
      · exact (hbounds p.1 (hnew p hp)).2
    · intro p hp
      rcases List.mem_append.mp hp with hp | hp
      · rw [← h.file p hp]
        apply Lib.Store.read_congr
        intro addr _ haddr
        have hbelow := h.below p hp
        exact hg.others addr (Or.inl (by omega))
      · exact hg.holds p.1 (hnew p hp)
    · show assign a.held (a.pending.flatten.flatMap (WriteCall.assigns (esizeOf dsets))) = _
      have hassigns : ((flushedBy g g').zip a.pending.flatten).flatMap (fun p => p.2.assigns (esizeOf dsets)) =
          a.pending.flatten.flatMap (WriteCall.assigns (esizeOf dsets)) := by
        conv_rhs => rw [← hsnd, List.flatMap_map]
      rw [Trail.flushed, List.flatMap_append, hassigns, Lib.assign_append, ← h.held]
    · rw [← hg.earlier.length_eq]
      exact h.ranks_lt
    · rw [Trail.flushed, List.map_append, hfst]
      have hperm := (flushed_perm hg).append_left t.secs.flatten.flatten
      rw [← List.append_assoc] at hperm
      exact hperm.trans (h.indexed.append_right _)

/-! ## §7 — a metadata flush. -/

/-- The requests that are queued or in the log, of which every entry is whole. -/
theorem tracks_wellSized {f : RankFile} (hf : f ∈ g.ranks) {r : WReq} (hr : r ∈ f.wreqs) : r.WellSized := by
  rw [← List.take_append_drop f.nflushed f.wreqs, List.mem_append] at hr
  rcases hr with hr | hr
  · have hmem : r ∈ t.logged.map Prod.fst := by
      rw [← h.indexed.mem_iff]
      exact List.mem_append_right _ (List.mem_flatMap.mpr ⟨f, hf, hr⟩)
    rcases List.mem_map.mp hmem with ⟨p, hp, rfl⟩
    exact (h.carries p hp).wellSized
  · rcases tracks_queued h hf hr with ⟨c, hc⟩
    exact hc.wellSized

/-- **A metadata flush** writes the sections of the group, if there is any entry. -/
theorem metaflushGroup_tracks (hsize : (metadataDataset (g.sections.map sectionMeta)).length < 2 ^ 63) :
    metaflushGroup env.config g = .ok ({ g with ranks := g.ranks.map RankFile.metaflushed },
      if g.sections.flatten = [] then [] else [metadataDataset (g.sections.map sectionMeta)]) := by
  have hlocals : g.ranks.mapM (localMeta env.config) = .ok (g.sections.map sectionMeta) := by
    rw [Group.sections, List.map_map, Lib.mapM_eq_ok_iff, List.forall₂_map_right_iff, List.forall₂_same]
    intro f hf
    exact localMeta_eq fun r hr => tracks_wellSized h hf hr
  have hsum : ((g.sections.map sectionMeta).map LocalMeta.mdsize).sum =
      BitVec.ofNat 64 (g.sections.flatten.flatMap WReq.metaBuf).length := by
    rw [← MetaDset.map_bufMeta, sum_bufMeta, MetaDset.flatten_bufs]
  have hlen : (metadataDataset (g.sections.map sectionMeta)).length =
      sizeofOffset * (g.ranks.length + 1) + (g.sections.flatten.flatMap WReq.metaBuf).length := by
    rw [← MetaDset.map_bufMeta, metadataDataset_bufMeta, List.length_append, mapBytes_length, MetaDset.flatten_bufs,
      MetaDset.sectionBufs, List.length_map, Group.sections, List.length_map]
  rw [hlen] at hsize
  have hmap : mapSize g.ranks.length = BitVec.ofNat 64 (sizeofOffset * (g.ranks.length + 1)) := rfl
  rw [metaflushGroup, hlocals, Lib.ok_bind, hsum, hmap]
  generalize sizeofOffset * (g.ranks.length + 1) = n at hsize ⊢
  -- The source compares the sizes with and without the map, as words.
  have hentries : BitVec.ofNat 64 n < BitVec.ofNat 64 n +
      BitVec.ofNat 64 (g.sections.flatten.flatMap WReq.metaBuf).length ↔ g.sections.flatten ≠ [] := by
    rw [← BitVec.ofNat_add, BitVec.lt_def, BitVec.toNat_ofNat, BitVec.toNat_ofNat, Nat.mod_eq_of_lt (by omega),
      Nat.mod_eq_of_lt (by omega), Nat.lt_add_right_iff_pos, List.length_pos_iff, ne_eq, ne_eq, not_iff_not,
      List.flatMap_eq_nil_iff]
    constructor
    · intro hall
      rw [List.eq_nil_iff_forall_not_mem]
      intro r hr
      have hpos := r.metaBuf_pos
      rw [hall r hr] at hpos
      exact absurd hpos (lt_irrefl 0)
    · intro hnil
      rw [hnil]
      exact fun r hr => absurd hr List.not_mem_nil
  by_cases hnil : g.sections.flatten = []
  · rw [if_pos hnil]
    dsimp only
    rw [if_neg fun hlt => hentries.mp hlt hnil]
    rfl
  · rw [if_neg hnil]
    dsimp only
    rw [if_pos (hentries.mpr hnil)]
    rfl

/-- **After a metadata flush** the entries of all requests are in the metadata datasets, where all data is in the
log before. -/
theorem metaflushed_tracks (hall : ∀ f ∈ g.ranks, f.nflushed = f.wreqs.length)
    (hsize : (metadataDataset (g.sections.map sectionMeta)).length < 2 ^ 63) :
    ∃ t', t'.secs = t.secs ++ (if g.sections.flatten = [] then [] else [g.sections]) ∧
      Tracks env dsets { g with ranks := g.ranks.map RankFile.metaflushed }
      (metadata ++ if g.sections.flatten = [] then [] else [metadataDataset (g.sections.map sectionMeta)])
      top t' a := by
  have hflushed : g.flushed = g.sections.flatten := by
    rw [Group.flushed, List.flatMap_def, Group.sections]
    congr 1
    apply List.map_congr_left
    intro f hf
    rw [hall f hf, List.take_length]
  have hqueued : List.Forall₂ (QueuedFor env dsets) a.pending (g.ranks.map RankFile.metaflushed) := by
    rw [List.forall₂_map_right_iff, List.forall₂_iff_zip]
    refine ⟨h.queued.length_eq, ?_⟩
    intro cs f hmem
    have hcs := (List.forall₂_iff_zip.mp h.queued).2 hmem
    rw [QueuedFor, RankFile.queued, hall f (List.of_mem_zip hmem).2, List.drop_length] at hcs
    exact hcs
  refine ⟨{ t with secs := t.secs ++ if g.sections.flatten = [] then [] else [g.sections] }, rfl, ?_⟩
  refine ⟨?_, ?_, ?_, hqueued, h.carries, h.order, h.below, h.top_lt, h.file, h.held, ?_, ?_, ?_, ?_⟩
  · intro f hf
    rcases List.mem_map.mp hf with ⟨f', hf', rfl⟩
    exact h.dsetsInfo f' hf'
  · intro f hf
    rcases List.mem_map.mp hf with ⟨f', hf', rfl⟩
    exact h.unmerged f' hf'
  · intro f hf
    rcases List.mem_map.mp hf with ⟨f, -, rfl⟩
    exact le_refl 0
  · rw [h.metadata_eq, List.map_append]
    split
    · rfl
    · rfl
  · rw [List.length_map]
    exact h.ranks_lt
  · intro secs hsecs
    rcases List.mem_append.mp hsecs with hsecs | hsecs
    · exact h.sizes secs hsecs
    · split at hsecs
      · cases hsecs
      · rw [List.mem_singleton.mp hsecs]
        refine ⟨?_, hsize⟩
        rw [Group.sections, List.length_map]
        exact h.ranks_lt
  · -- the entries that were queued are in the dataset now
    have hindexed := h.indexed
    rw [hflushed] at hindexed
    rw [metaflushed_flushed, List.append_nil]
    split
    · rename_i hnil
      rw [hnil, List.append_nil] at hindexed
      simpa using hindexed
    · rwa [List.flatten_append, List.flatten_singleton, List.flatten_append]

end Steps

/-! ## §8 — runs. -/

namespace LogFile

/-- A run of calls. -/
def run (env : FileEnv) (s : LogFile) (calls : List FileCall) : Except Fault LogFile := calls.foldlM (step env) s

/-- What a call is, to the elements. -/
def events (env : FileEnv) (s : LogFile) : FileCall → List ElemEvent
  | .write g i w => (s.rank? g i).elim [] (writeEvents env i w.toCall)
  | .flush _ => [.flush]
  | .close _ => [.close]

/-- What a run is. -/
def runEvents (env : FileEnv) : LogFile → List FileCall → List ElemEvent
  | _, [] => []
  | s, c :: cs => events env s c ++ (s.step env c).toOption.elim [] fun s' => runEvents env s' cs

/-- Where there is any data for it, a log dataset at `doff` is behind the others, which end at `top`, and an `int`
counts the requests of every process. -/
def PlacedBehind (s : LogFile) (top : ℕ) (doff : HSize) : Prop :=
  ∀ g ∈ s.groups, 0 < g.pendingBytes → top ≤ doff.toNat ∧ doff.toNat + g.pendingBytes < 2 ^ 63 ∧
    ∀ f ∈ g.ranks, f.wreqs.length < 2 ^ 31

theorem events_ofRanks {env : FileEnv} {g : Group} {metadata : List (List UInt8)} {call : FileCall} {i : ℕ}
    {c : WriteCall} (h : .write i c ∈ events env ⟨[g], metadata⟩ call) : i < g.ranks.length := by
  cases call with
  | write k j w =>
    rcases hrank : rank? ⟨[g], metadata⟩ k j with _ | f
    · rw [events, hrank] at h
      cases h
    · rw [events, hrank, Option.elim_some, writeEvents] at h
      cases k with
      | zero =>
        have hf : g.ranks[j]? = some f := hrank
        split at h
        · split at h
          · cases h
          · obtain ⟨rfl, -⟩ := ElemEvent.write.inj (List.mem_singleton.mp h)
            exact (List.getElem?_eq_some_iff.mp hf).1
        · cases h
      | succ k => cases hrank
  | flush doff => simp [events] at h
  | close doff => simp [events] at h

/-- A call that the log can store: a write of what fits, a flush whose log dataset is placed behind the others. -/
def CallFits (env : FileEnv) (s : LogFile) (top : ℕ) : FileCall → Prop
  | .write g i w => ∀ f, s.rank? g i = some f → (datasetWrite env w.toCall f).2 = .ok () → w.sels.nsel ≠ 0 →
      ∀ dip, f.dsetsInfo[w.did]? = some (some dip) → w.toCall.Storable env dip
  | .flush doff => s.PlacedBehind top (doff 0)
  | .close doff => s.PlacedBehind top (doff 0) ∧ ∀ groups, flushWriteReqs env.config doff s.groups = .ok groups →
      ∀ g ∈ groups, (metadataDataset (g.sections.map sectionMeta)).length < 2 ^ 63

/-- Where the log ends after a call. -/
def topAfter (s : LogFile) (top : ℕ) : FileCall → ℕ
  | .write _ _ _ => top
  | .flush doff | .close doff => s.groups.foldl (fun top g => g.topAfter (doff 0) top) top

/-- Every call of a run is one that the log can store. -/
def RunFits (env : FileEnv) : LogFile → ℕ → List FileCall → Prop
  | _, _, [] => True
  | s, top, c :: cs => s.CallFits env top c ∧ ∀ s', s.step env c = .ok s' → RunFits env s' (s.topAfter top c) cs

end LogFile

/-- What the events `es` leave of the sections. -/
def KeepsSections (env : FileEnv) (dsets : List (Option DsetInfo)) (es : List ElemEvent) (g g' : Group)
    (secs secs' : List (List (List WReq))) : Prop :=
  ∀ made b, (∀ i c, .write i c ∈ es → made i c) → Sectioned env dsets made g secs b →
    Sectioned env dsets made g' secs' (b.run (esizeOf dsets) (ElemFile.unflushed es))

section Runs

variable {env : FileEnv} (hmerge : hasFlag env.config FileConfig.metadataMerge = false)
  (hshare : hasFlag env.config FileConfig.metadataShare = false) {dsets : List (Option DsetInfo)}
include hmerge hshare

/-- **One call** is tracked; none fails. -/
theorem step_tracks {g : Group} {metadata : List (List UInt8)} {top : ℕ} {t : Trail} {a : ElemFile}
    (h : Tracks env dsets g metadata top t a) {call : FileCall}
    (hfits : LogFile.CallFits env ⟨[g], metadata⟩ top call) :
    ∃ g' metadata' t', LogFile.step env ⟨[g], metadata⟩ call = .ok ⟨[g'], metadata'⟩ ∧
      Tracks env dsets g' metadata' (LogFile.topAfter ⟨[g], metadata⟩ top call) t'
        (a.run (esizeOf dsets) (LogFile.events env ⟨[g], metadata⟩ call)) ∧
      KeepsSections env dsets (LogFile.events env ⟨[g], metadata⟩ call) g g' t.secs t'.secs ∧
      ∀ doff, call = .close doff → g'.flushed = [] := by
  cases call with
  | write k i w =>
    rcases hrank : LogFile.rank? ⟨[g], metadata⟩ k i with _ | f
    · -- there is no such rank
      refine ⟨g, metadata, t, ?_, ?_, ?_, fun doff heq => by cases heq⟩
      · rw [LogFile.step]
        congr 2
        cases k with
        | zero =>
          have hnone : g.ranks[i]? = none := hrank
          rw [List.modify_zero_cons, List.modify_eq_self (by simpa using hnone)]
        | succ k => rw [List.modify_succ_cons, List.modify_nil]
      · rw [LogFile.events, hrank]
        exact h
      · rw [LogFile.events, hrank]
        exact fun made b _ hs => hs
    · cases k with
      | zero =>
        have hf : g.ranks[i]? = some f := hrank
        have hstore := hfits f hrank
        rw [h.dsetsInfo f (List.mem_of_getElem? hf)] at hstore
        refine ⟨_, metadata, t, rfl, ?_, ?_, fun doff heq => by cases heq⟩
        · rw [LogFile.events, hrank]
          exact write_tracks hmerge hshare h hf hstore
        · rw [LogFile.events, hrank]
          intro made b hmade hs
          exact write_sectioned hmerge hshare h hs hf (hmade i w.toCall) hstore
      | succ k => cases hrank
  | flush doff =>
    obtain ⟨g', t', hflush, hsecs, hreqs, -, hg'⟩ := flush_tracks h (hfits g (List.mem_singleton_self g))
    refine ⟨g', metadata, t', ?_, hg', ?_, fun doff heq => by cases heq⟩
    · rw [LogFile.step, hflush]
      rfl
    · rw [hsecs]
      exact fun made b _ hs => hs.flushed hreqs
  | close doff =>
    obtain ⟨hplace, hsize⟩ := hfits
    obtain ⟨g', t', hflush, hsecs, hreqs, hall, hg'⟩ := flush_tracks h (hplace g (List.mem_singleton_self g))
    have hlt := hsize [g'] hflush g' (List.mem_singleton_self g')
    obtain ⟨t'', hsecs', hclosed⟩ := metaflushed_tracks hg' hall hlt
    refine ⟨_, _, t'', ?_, hclosed, ?_, fun _ _ => metaflushed_flushed g'⟩
    rotate_left
    · rw [hsecs', hsecs]
      exact fun made b _ hs => (hs.flushed hreqs).metaflushed
    rw [LogFile.step, hflush, Lib.ok_bind, List.mapM_cons, metaflushGroup_tracks hg' hlt, Lib.ok_bind,
      List.mapM_nil]
    simp [pure, Except.pure, bind, Except.bind]

/-- **A run that ends with the file closed** is tracked, and does not fail: every entry is in a metadata dataset
then. Induction on the calls before. -/
theorem run_tracks {calls : List FileCall} {doff : ℕ → HSize} {g : Group} {metadata : List (List UInt8)} {top : ℕ}
    {t : Trail} {a : ElemFile} (h : Tracks env dsets g metadata top t a)
    (hfits : LogFile.RunFits env ⟨[g], metadata⟩ top (calls ++ [.close doff])) :
    ∃ g' metadata' top' t', LogFile.run env ⟨[g], metadata⟩ (calls ++ [.close doff]) = .ok ⟨[g'], metadata'⟩ ∧
      Tracks env dsets g' metadata' top' t'
        (a.run (esizeOf dsets) (LogFile.runEvents env ⟨[g], metadata⟩ (calls ++ [.close doff]))) ∧
      KeepsSections env dsets (LogFile.runEvents env ⟨[g], metadata⟩ (calls ++ [.close doff])) g g' t.secs t'.secs ∧
      g'.flushed = [] := by
  induction calls generalizing g metadata top t a with
  -- Only the close is left, and behind it nothing is queued.
  | nil =>
    obtain ⟨g', metadata', t', hstep, hg', hs', hnone⟩ := step_tracks hmerge hshare h hfits.1
    refine ⟨g', metadata', LogFile.topAfter ⟨[g], metadata⟩ top (.close doff), t', ?_, ?_, ?_, hnone doff rfl⟩
    · rw [List.nil_append, LogFile.run, List.foldlM_cons, hstep]
      rfl
    · rw [List.nil_append, LogFile.runEvents, hstep]
      exact hg'
    · rw [List.nil_append, LogFile.runEvents, hstep]
      exact hs'
  | cons call calls ih =>
    obtain ⟨g₁, metadata₁, t₁, hstep, hg₁, hs₁, -⟩ := step_tracks hmerge hshare h hfits.1
    obtain ⟨g', metadata', top', t', hrun, hg', hs', hnone⟩ := ih hg₁ (hfits.2 _ hstep)
    refine ⟨g', metadata', top', t', ?_, ?_, ?_, hnone⟩
    · rw [List.cons_append, LogFile.run, List.foldlM_cons, hstep, Lib.ok_bind]
      exact hrun
    · rw [List.cons_append, LogFile.runEvents, hstep, ElemFile.run_append]
      exact hg'
    · rw [List.cons_append, LogFile.runEvents, hstep]
      intro made b hmade hs
      rw [ElemFile.unflushed_append, ElemFile.run_append]
      have hmiddle := hs₁ made b (fun i c hc => hmade i c (List.mem_append_left _ hc)) hs
      exact hs' made _ (fun i c hc => hmade i c (List.mem_append_right _ hc)) hmiddle

/-- The events of a run that ends with the file closed: those before, made by the ranks of the group, and that. -/
theorem runEvents_close {calls : List FileCall} {doff : ℕ → HSize} {g : Group} {metadata : List (List UInt8)}
    {top : ℕ} {t : Trail} {a : ElemFile} (h : Tracks env dsets g metadata top t a)
    (hfits : LogFile.RunFits env ⟨[g], metadata⟩ top (calls ++ [.close doff])) :
    ElemFile.OfRanks g.ranks.length (LogFile.runEvents env ⟨[g], metadata⟩ calls) ∧
      LogFile.runEvents env ⟨[g], metadata⟩ (calls ++ [.close doff]) =
        LogFile.runEvents env ⟨[g], metadata⟩ calls ++ [.close] := by
  induction calls generalizing g metadata top t a with
  | nil =>
    obtain ⟨g', metadata', t', hstep, -⟩ := step_tracks hmerge hshare h hfits.1
    refine ⟨fun i c hmem => absurd hmem List.not_mem_nil, ?_⟩
    show LogFile.runEvents env ⟨[g], metadata⟩ [.close doff] = [.close]
    rw [LogFile.runEvents, hstep]
    rfl
  | cons call calls ih =>
    obtain ⟨g₁, metadata₁, t₁, hstep, hg₁, -⟩ := step_tracks hmerge hshare h hfits.1
    obtain ⟨hranks, hclose⟩ := ih hg₁ (hfits.2 _ hstep)
    have hlen : g₁.ranks.length = g.ranks.length := by
      rw [← hg₁.queued.length_eq, ← h.queued.length_eq, ElemFile.run_pending]
    rw [hlen] at hranks
    constructor
    · intro i c hmem
      rw [LogFile.runEvents, hstep] at hmem
      rcases List.mem_append.mp hmem with hmem | hmem
      · exact LogFile.events_ofRanks hmem
      · exact hranks i c hmem
    · rw [List.cons_append, LogFile.runEvents, LogFile.runEvents, hstep, List.append_assoc]
      congr 1

end Runs

end LogVol
