/-
# LogVol.DumpMeta — what h5ldump makes of a metadata section.

`h5ldump_mdsec` walks a section as the list index does and lists each entry. With the file at hand it also reads the
entry's data into a buffer that grows with the entries, and passes those of a filtered dataset through
`H5VL_logi_unfilter`. It works the size of the data out of the last block, as the number of its elements and its
offset, both in elements; the offset is in bytes.

The variables for the output of the filters are not initialized, so that a run is one for each of their values.
`mdsec_dumps_iff` says for which sections every run lists what the list index parses and reads all of the data.
-/
import LogVol.ReplayMeta
import LogVol.DecodedSizes
import LogVol.FilterChain

namespace LogVol

open Lib (Store)

/-! ## §1 — the walk. -/

/-- What is listed for an entry: its place in the section, its blocks, and, where the data are read, the bytes and the
size of the buffer. -/
structure Dumped where
  pos : Int
  entry : MetaEntry
  data : Option (List UInt8 × HSize)

/-- `bsize`: the size of the last block and its offset, times the element size; an entry without blocks is a
scalar. -/
def dumpSize (dset : DsetInfo) (e : MetaEntry) : HSize :=
  match e.sels.getLast? with
  | none => dset.esize
  | some s => (blockBytes 1 (s.count.take dset.ndim) + s.doff) * dset.esize

/-- `MPI_File_read_at` into a buffer of `dbsize` bytes; the number of bytes is an `int`. -/
def dumpRead (fin : Store) (hdr : MetaHdr) (dbsize : HSize) : Except Fault (List UInt8) :=
  if cInt hdr.fsize.toInt < 0 then .error (.raised "MPI_ERR_ARG")
  else if (dbsize.toNat : Int) < cInt hdr.fsize.toInt then .error .outside
  else .ok (fin.read hdr.foff.toNat (cInt hdr.fsize.toInt).toNat)

/-- Unfilter the data: `tbuf` and `csize` are `stale`. The result is copied into the buffer. -/
def dumpUnfilter (zf : Deflater) (stale : Scratch) (dset : DsetInfo) (data : List UInt8) (dbsize : HSize) :
    Except Fault Unit :=
  if dset.filters = [] then .ok ()
  else do
    let out ← unfilterBytes zf dset.filters data stale
    if out.size < 0 ∨ (dbsize.toNat : Int) < out.size then .error .outside else pure ()

/-- The data of an entry: they are read when the size check is passed, and the call is aborted otherwise. -/
def dumpData (zf : Deflater) (stale : Scratch) (fin : Store) (dset : DsetInfo) (e : MetaEntry) (dbsize : HSize) :
    Except Fault (List UInt8 × HSize) :=
  if (dumpSize dset e).toInt < e.hdr.fsize.toInt then .error (.raised "abort")
  else do
    let dbsize := if dbsize < dumpSize dset e then dumpSize dset e else dbsize
    let data ← dumpRead fin e.hdr dbsize
    dumpUnfilter zf stale dset data dbsize
    pure (data, dbsize)

/-- One entry. References are looked for in all files. -/
def mdsecStep (z : Option Zlib) (zf : Deflater) (stale : Int → Scratch) (fh : Option Store) (dsets : List DsetInfo)
    (hdr : MetaHdr) (ent : List UInt8) (pos : Int) (s : BlockCache × List Dumped × HSize) :
    Except Fault (BlockCache × List Dumped × HSize) := do
  let dset ← replayDset dsets hdr.did
  let (e, cache) ← parseEntry z true dset hdr ent pos s.1
  match fh with
  | none => pure (cache, s.2.1 ++ [⟨pos, e, none⟩], s.2.2)
  | some fin => do
      let (data, dbsize) ← dumpData zf (stale pos) fin dset e s.2.2
      pure (cache, s.2.1 ++ [⟨pos, e, some (data, dbsize)⟩], dbsize)

/-- **`h5ldump_mdsec`**: what is listed. -/
def mdsec (z : Option Zlib) (zf : Deflater) (stale : Int → Scratch) (fh : Option Store) (dsets : List DsetInfo)
    (buf : List UInt8) : Except Fault (List Dumped) :=
  (walkBlock (mdsecStep z zf stale fh dsets) buf (buf.length + 1) 0 ([], [], 0)).map fun s => s.2.1

/-! ## §2 — one entry. -/

/-- No filter takes a buffer whose recorded size is the largest there is, where there is no memory. -/
def noBuffer : Scratch := ⟨some 0, 2 ^ 31 - 1, []⟩

theorem deflateAlloc_noBuffer (zf : Deflater) (bytes : List UInt8) (out : Scratch) :
    deflateAlloc zf bytes noBuffer ≠ .ok out := by
  have hbound : cInt (zf.deflateBound bytes.length) < 2 ^ 31 := Int.bmod_lt (by decide)
  have hsize : noBuffer.size = 2 ^ 31 - 1 := rfl
  have hcap : noBuffer.cap = some 0 := rfl
  have hpos := zf.length_pos bytes
  rw [deflateAlloc, if_neg (by omega), hcap, deflateInto]
  intro hok
  split at hok
  · cases hok
  · rename_i hzero
    rw [if_pos (by omega)] at hok
    cases hok

/-- A stage that is not the last keeps the caller's buffer for later. -/
theorem chainStage_out {zf : Deflater} {bytes : List UInt8} {first last : ℕ → Bool} {st st' : Chain} {i : ℕ}
    {fl : Filter} (hlast : last i = false) (h : chainStage zf bytes first last st i fl = .ok st') :
    st'.out = st.out := by
  rw [chainStage, Lib.bind_eq_ok] at h
  obtain ⟨bin, -, h⟩ := h
  split at h
  · cases h
  · rw [if_neg (by rw [hlast]; exact Bool.false_ne_true)] at h
    obtain ⟨out, -, h⟩ := Lib.bind_eq_ok.mp h
    exact (congrArg Chain.out (Except.ok.inj h)).symm

theorem chainRun_out {zf : Deflater} {bytes : List UInt8} {first last : ℕ → Bool} {st st' : Chain}
    {stages : List (ℕ × Filter)} (hlast : ∀ s ∈ stages, last s.1 = false)
    (h : chainRun zf bytes first last st stages = .ok st') : st'.out = st.out := by
  induction stages generalizing st with
  | nil => exact (congrArg Chain.out (Except.ok.inj h)).symm
  | cons s stages ih =>
      obtain ⟨mid, hmid, hrest⟩ := Lib.bind_eq_ok.mp h
      have hfirst := chainStage_out (hlast s (List.mem_cons_self ..)) hmid
      exact (ih (fun x hx => hlast x (List.mem_cons_of_mem s hx)) hrest).trans hfirst

/-- **The filters fail on an output buffer that is not there.** -/
theorem unfilterBytes_noBuffer (zf : Deflater) {pipeline : List Filter} (hne : pipeline ≠ []) (bytes : List UInt8)
    (out : Scratch) : unfilterBytes zf pipeline bytes noBuffer ≠ .ok out := by
  rcases pipeline with _ | ⟨fl, rest⟩
  · exact absurd rfl hne
  intro h
  have hstages : (stagesOf (fl :: rest)).reverse =
      (((List.range rest.length).map Nat.succ).zip rest).reverse ++ [(0, fl)] := by
    rw [stagesOf, List.length_cons, List.range_succ_eq_map, List.zip_cons_cons, List.reverse_cons]
  have hlater : ∀ s ∈ (((List.range rest.length).map Nat.succ).zip rest).reverse, (s.1 == 0) = false := by
    intro s hs
    obtain ⟨hi, -⟩ := List.of_mem_zip (List.mem_reverse.mp hs)
    obtain ⟨i, -, hi⟩ := List.mem_map.mp hi
    rw [← hi]
    rfl
  rw [unfilterBytes, hstages, chainRun, List.foldlM_append] at h
  rcases hrun : List.foldlM (fun st s =>
      chainStage zf bytes (fun i => i == (fl :: rest).length - 1) (fun i => i == 0) st s.1 s.2)
      (Chain.start noBuffer) (((List.range rest.length).map Nat.succ).zip rest).reverse with _ | st
  · rw [hrun] at h
    cases h
  · have hout : st.out = noBuffer := chainRun_out hlater hrun
    rw [hrun] at h
    -- the last stage is the first filter
    rcases hlast : chainStage zf bytes (fun i => i == (fl :: rest).length - 1) (fun i => i == 0) st 0 fl with _ | st'
    · simp only [Lib.ok_bind, List.foldlM_cons, hlast] at h
      cases h
    · rw [chainStage, Lib.bind_eq_ok] at hlast
      obtain ⟨bin, -, hlast⟩ := hlast
      split at hlast
      · cases hlast
      · rw [if_pos (by rfl), hout] at hlast
        obtain ⟨out', halloc, -⟩ := Lib.bind_eq_ok.mp hlast
        exact deflateAlloc_noBuffer zf bin out' halloc

/-- The data of an entry are read into a buffer that has room for all of them. -/
def Dumped.Whole (fh : Option Store) (d : Dumped) : Prop :=
  match fh with
  | none => d.data = none
  | some fin => ∃ dbsize : HSize, d.data = some (fin.read d.entry.hdr.foff.toNat d.entry.hdr.fsize.toNat, dbsize) ∧
      d.entry.hdr.fsize.toNat ≤ dbsize.toNat

/-- An entry of an unfiltered dataset whose data are counted by an `int` and are not more than the size worked
out. -/
structure Dumpable (dset : DsetInfo) (e : MetaEntry) : Prop where
  unfiltered : dset.filters = []
  fsize_lt : e.hdr.fsize.toNat < 2 ^ 31
  fits : e.hdr.fsize.toInt ≤ (dumpSize dset e).toInt

theorem dumpUnfilter_noBuffer (zf : Deflater) {dset : DsetInfo} {data : List UInt8} {dbsize : HSize}
    (h : dumpUnfilter zf noBuffer dset data dbsize = .ok ()) : dset.filters = [] := by
  by_contra hne
  rw [dumpUnfilter, if_neg hne, Lib.bind_eq_ok] at h
  obtain ⟨out, hout, -⟩ := h
  exact unfilterBytes_noBuffer zf hne data out hout

/-- The data that are read are all of them when their number is an `int`. -/
theorem fsize_lt_of_read {fsize : MpiOffset} (hlen : (cInt fsize.toInt).toNat = fsize.toNat) :
    fsize.toNat < 2 ^ 31 := by
  have hlt : cInt fsize.toInt < 2 ^ 31 := Int.bmod_lt (by decide)
  omega

theorem cInt_fsize {fsize : MpiOffset} (h : fsize.toNat < 2 ^ 31) :
    fsize.toInt = fsize.toNat ∧ cInt fsize.toInt = fsize.toNat := by
  have hint : fsize.toInt = fsize.toNat := BitVec.toInt_eq_toNat_of_lt (by omega)
  exact ⟨hint, by rw [hint, cInt_of_range (by omega) (by omega)]⟩

theorem dumpRead_length {fin : Store} {hdr : MetaHdr} {dbsize : HSize} {data : List UInt8}
    (h : dumpRead fin hdr dbsize = .ok data) : data.length = (cInt hdr.fsize.toInt).toNat := by
  rw [dumpRead] at h
  split at h
  · cases h
  · split at h
    · cases h
    · rw [← Except.ok.inj h, Store.read_length]

theorem dumpRead_whole (fin : Store) {hdr : MetaHdr} {dbsize : HSize} (hlt : hdr.fsize.toNat < 2 ^ 31)
    (hroom : hdr.fsize.toNat ≤ dbsize.toNat) :
    dumpRead fin hdr dbsize = .ok (fin.read hdr.foff.toNat hdr.fsize.toNat) := by
  obtain ⟨-, hcast⟩ := cInt_fsize hlt
  rw [dumpRead, hcast, if_neg (by omega), if_neg (by omega), Int.toNat_natCast]

/-- **An entry that is dumped with all of its data**, whatever the filters find, is `Dumpable`. -/
theorem dumpable_of_data (zf : Deflater) {fin : Store} {dset : DsetInfo} {e : MetaEntry} {dbsize dbsize' : HSize}
    {data : List UInt8} (h : dumpData zf noBuffer fin dset e dbsize = .ok (data, dbsize'))
    (hlen : data.length = e.hdr.fsize.toNat) : Dumpable dset e := by
  rw [dumpData] at h
  split at h
  · cases h
  · rename_i hfits
    obtain ⟨data', hread, h⟩ := Lib.bind_eq_ok.mp h
    obtain ⟨_, hunfilter, h⟩ := Lib.bind_eq_ok.mp h
    obtain ⟨rfl, -⟩ := Prod.mk.inj (Except.ok.inj h)
    refine ⟨dumpUnfilter_noBuffer zf hunfilter, ?_, not_lt.mp hfits⟩
    exact fsize_lt_of_read ((dumpRead_length hread).symm.trans hlen)

/-- A dumpable entry is dumped with all of its data, and the buffer has room for them. -/
theorem Dumpable.data {dset : DsetInfo} {e : MetaEntry} (hdump : Dumpable dset e) (zf : Deflater) (stale : Scratch)
    (fin : Store) (dbsize : HSize) :
    ∃ dbsize' : HSize, dumpData zf stale fin dset e dbsize =
        .ok (fin.read e.hdr.foff.toNat e.hdr.fsize.toNat, dbsize') ∧ e.hdr.fsize.toNat ≤ dbsize'.toNat := by
  obtain ⟨hint, -⟩ := cInt_fsize hdump.fsize_lt
  have hfits := hdump.fits
  have hroom : e.hdr.fsize.toNat ≤ (if dbsize < dumpSize dset e then dumpSize dset e else dbsize).toNat := by
    have hsize : e.hdr.fsize.toNat ≤ (dumpSize dset e).toNat := by
      rw [hint, BitVec.toInt_eq_toNat_cond] at hfits
      split at hfits <;> omega
    split
    · exact hsize
    · rename_i hge
      exact hsize.trans (not_lt.mp hge)
  refine ⟨_, ?_, hroom⟩
  rw [dumpData, if_neg (not_lt.mpr hfits)]
  simp only [dumpRead_whole fin hdump.fsize_lt hroom, Lib.ok_bind, dumpUnfilter, if_pos hdump.unfiltered]
  rfl

/-! ## §3 — a section. -/

section Walk

variable {z : Option Zlib} {dsets : List DsetInfo} {share : Bool}

theorem replayDset_of_dsetAt {did : I32} {dset : DsetInfo} (h : dsetAt (dsets.map some) did = .ok (some dset)) :
    replayDset dsets did = .ok dset := by
  unfold dsetAt at h
  unfold replayDset
  rw [List.getElem?_map] at h
  rcases hget : dsets[did.toNat]? with _ | d
  · rw [hget] at h
    cases h
  · rw [hget] at h
    exact congrArg Except.ok (Option.some.inj (Except.ok.inj h))

/-- Without metadata sharing there are no references, and looking for them finds none. -/
theorem Parses.shared {E V : Type} {P : EntryParser E V} {ds : List (Option DsetInfo)} {pos : Int} {c c' : PosCache V}
    {rs : List WReq} {os : List (Option E)} (h : Parses P false ds pos c rs os)
    (hflag : ∀ r ∈ rs, hasFlag r.hdr.flag MetaFlag.selRef = false) : Parses P true ds pos c' rs os := by
  induction h generalizing c' with
  | nil => exact Parses.nil
  | skip hsize hdset _ ih => exact Parses.skip hsize hdset (ih fun x hx => hflag x (List.mem_cons_of_mem _ hx))
  | @entry pos c r rs e os dset hsize hdset hentry _ ih =>
      have hplain : r.hdr.isRef true = false := by
        rw [MetaHdr.isRef, hflag r (List.mem_cons_self ..)]
        rfl
      refine Parses.entry hsize hdset (fun tail => ?_) (ih fun x hx => hflag x (List.mem_cons_of_mem _ hx))
      rw [EntryParser.entryAt_plain _ _ _ _ hplain]
      have hown := hentry tail
      rwa [EntryParser.entryAt_unshared] at hown

/-- What a step does with an entry that is parsed. -/
theorem mdsecStep_eq (zf : Deflater) (stale : Int → Scratch) (fh : Option Store) {r : WReq} {dset : DsetInfo}
    {tail : List UInt8} {pos : Int} {c : BlockCache} {e : MetaEntry} (hdset : replayDset dsets r.hdr.did = .ok dset)
    (h : (listParser z).entryAt true dset r.hdr (r.metaBuf ++ tail) pos c = .ok e) (out : List Dumped)
    (dbsize : HSize) :
    mdsecStep z zf stale fh dsets r.hdr (r.metaBuf ++ tail) pos (c, out, dbsize) =
      match fh with
      | none => .ok ((listParser z).after true r.hdr pos e c, out ++ [⟨pos, e, none⟩], dbsize)
      | some fin => (dumpData zf (stale pos) fin dset e dbsize).map fun d =>
          ((listParser z).after true r.hdr pos e c, out ++ [⟨pos, e, some d⟩], d.2) := by
  rw [mdsecStep, hdset, Lib.ok_bind, parseEntry_listParser h, Lib.ok_bind]
  cases fh with
  | none => rfl
  | some fin => cases dumpData zf (stale pos) fin dset e dbsize <;> rfl

/-- The entries of the datasets can be dumped. -/
def AllDumpable (dsets : List DsetInfo) (held : List MetaEntry) : Prop :=
  ∀ e ∈ held, ∀ dset, replayDset dsets e.hdr.did = .ok dset → Dumpable dset e

/-- The walk lists every entry when nothing is read, or everything can be. -/
theorem mdsec_lists (zf : Deflater) (stale : Int → Scratch) {fh : Option Store} {pos : Nat} {c : BlockCache}
    {rs : List WReq} {held : List MetaEntry}
    (h : Parses (listParser z) true (dsets.map some) pos c rs (held.map some))
    (hdump : fh = none ∨ AllDumpable dsets held) (out : List Dumped) (dbsize : HSize) :
    ∃ c' out' dbsize', walkEntries (mdsecStep z zf stale fh dsets) rs pos (c, out, dbsize) =
        .ok (c', out ++ out', dbsize') ∧ out'.map Dumped.entry = held ∧ ∀ d ∈ out', d.Whole fh := by
  induction rs generalizing held pos c out dbsize with
  | nil =>
      cases held with
      | nil => exact ⟨c, [], dbsize, by rw [List.append_nil]; rfl, rfl, fun d hd => absurd hd List.not_mem_nil⟩
      | cons e held => cases h
  | cons r rs ih =>
      cases held with
      | nil => cases h
      | cons e held =>
          cases h with
          | @entry _ _ _ _ _ _ dset hsize hdset hentry hrest =>
              have hopen := replayDset_of_dsetAt hdset
              have hhdr := (listParser_hdr (hentry [])).1
              -- this entry
              obtain ⟨d, dbsize', hstep, hentry', hwhole⟩ : ∃ (d : Dumped) (dbsize' : HSize),
                  mdsecStep z zf stale fh dsets r.hdr (r.metaBuf ++ rs.flatMap WReq.metaBuf) pos (c, out, dbsize) =
                    .ok ((listParser z).after true r.hdr pos e c, out ++ [d], dbsize') ∧
                  d.entry = e ∧ d.Whole fh := by
                rw [mdsecStep_eq zf stale fh hopen (hentry _)]
                cases fh with
                | none => exact ⟨_, _, rfl, rfl, rfl⟩
                | some fin =>
                    have hthis := hdump.resolve_left nofun e (List.mem_cons_self ..) dset (hhdr ▸ hopen)
                    obtain ⟨dbsize', hdata, hroom⟩ := hthis.data zf (stale pos) fin dbsize
                    refine ⟨⟨pos, e, some (fin.read e.hdr.foff.toNat e.hdr.fsize.toNat, dbsize')⟩, dbsize', ?_, rfl,
                      dbsize', rfl, hroom⟩
                    simp only [hdata]
                    rfl
              have hlater : fh = none ∨ AllDumpable dsets held :=
                hdump.imp_right fun hall x hx => hall x (List.mem_cons_of_mem e hx)
              rw [← Nat.cast_add] at hrest
              obtain ⟨c', out', dbsize'', hwalk, hentries, hall⟩ := ih hrest hlater (out ++ [d]) dbsize'
              refine ⟨c', d :: out', dbsize'', ?_, ?_, List.forall_mem_cons.mpr ⟨hwhole, hall⟩⟩
              · rw [walkEntries, hstep, Lib.ok_bind, hwalk, List.append_assoc]
                rfl
              · rw [List.map_cons, hentry', hentries]

/-- A walk that lists every entry with all of its data has found entries that can be dumped. -/
theorem allDumpable_of_lists (zf : Deflater) {fin : Store} {pos : Nat} {c : BlockCache} {rs : List WReq}
    {held : List MetaEntry} (h : Parses (listParser z) true (dsets.map some) pos c rs (held.map some))
    {out : List Dumped} {dbsize : HSize} {s' : BlockCache × List Dumped × HSize}
    (hwalk : walkEntries (mdsecStep z zf (fun _ => noBuffer) (some fin) dsets) rs pos (c, out, dbsize) = .ok s')
    (hwhole : ∀ d ∈ s'.2.1, d.Whole (some fin)) : AllDumpable dsets held ∧ ∃ out', s'.2.1 = out ++ out' := by
  induction rs generalizing held pos c out dbsize with
  | nil =>
      obtain rfl := Except.ok.inj hwalk
      cases held with
      | nil => exact ⟨fun e he => absurd he List.not_mem_nil, [], (List.append_nil out).symm⟩
      | cons e held => cases h
  | cons r rs ih =>
      cases held with
      | nil => cases h
      | cons e held =>
          cases h with
          | @entry _ _ _ _ _ _ dset hsize hdset hentry hrest =>
              have hopen := replayDset_of_dsetAt hdset
              have hhdr := (listParser_hdr (hentry [])).1
              obtain ⟨s₁, hstep, hwalk⟩ := Lib.bind_eq_ok.mp hwalk
              rw [mdsecStep_eq zf _ (some fin) hopen (hentry _)] at hstep
              rcases hdata : dumpData zf noBuffer fin dset e dbsize with err | ⟨data, dbsize'⟩
              · simp only [hdata] at hstep
                cases hstep
              · simp only [hdata] at hstep
                obtain rfl := Except.ok.inj hstep
                rw [← Nat.cast_add] at hrest
                obtain ⟨hall, out', hout⟩ := ih hrest hwalk
                rw [List.append_assoc] at hout
                refine ⟨List.forall_mem_cons.mpr ⟨fun d hd => ?_, hall⟩, _, hout⟩
                -- What is listed now stays listed, and its bytes are the ones in the file.
                have hmem : (⟨pos, e, some (data, dbsize')⟩ : Dumped) ∈ s'.2.1 := by
                  rw [hout]
                  simp
                obtain ⟨size, hread, -⟩ := hwhole _ hmem
                obtain ⟨hbytes, -⟩ := Prod.mk.inj (Option.some.inj hread)
                rw [hhdr, hopen] at hd
                obtain rfl := Except.ok.inj hd
                exact dumpable_of_data zf hdata (by rw [hbytes, Store.read_length])

/-- **What is listed is what the list index parses**, entry by entry, with all of the data where they are read. -/
structure DumpsAs (z : Option Zlib) (share : Bool) (fh : Option Store) (dsets : List DsetInfo) (rs : List WReq)
    (held : List MetaEntry) (out : List Dumped) : Prop where
  entries : out.map Dumped.entry = held
  indexed : ∀ idx : ArrayIdx, dsets.length ≤ idx.length →
    parseBlock z share (dsets.map some) (rs.flatMap WReq.metaBuf) idx =
      .ok (insertAll idx rs (out.map fun d => some d.entry))
  whole : ∀ d ∈ out, d.Whole fh

/-- **h5ldump lists a section as the list index parses it, and reads all of the data**, whatever is in the variables
it does not initialize, exactly when it reads nothing or every entry can be dumped. -/
theorem mdsec_dumps_iff (zf : Deflater) (fh : Option Store) {rs : List WReq} {held : List MetaEntry}
    (h : SectionHolds (listParser z) share (dsets.map some) rs (held.map some))
    (hflag : share = false → ∀ r ∈ rs, hasFlag r.hdr.flag MetaFlag.selRef = false) :
    (∀ stale, ∃ out, mdsec z zf stale fh dsets (rs.flatMap WReq.metaBuf) = .ok out ∧
      DumpsAs z share fh dsets rs held out) ↔ fh = none ∨ AllDumpable dsets held := by
  -- h5ldump reads references whether or not the file shares metadata.
  have hshared : Parses (listParser z) true (dsets.map some) ((0 : Nat) : Int) [] rs (held.map some) := by
    cases share with
    | false => exact Parses.shared h (hflag rfl)
    | true => exact h
  have hwalks : ∀ stale, mdsec z zf stale fh dsets (rs.flatMap WReq.metaBuf) =
      (walkEntries (mdsecStep z zf stale fh dsets) rs 0 ([], [], 0)).map fun s => s.2.1 := fun stale => by
    rw [mdsec, walkBlock_entries _ (Parses.wellSized h)]
  constructor
  · intro hruns
    cases fh with
    | none => exact Or.inl rfl
    | some fin =>
        -- Buffers that hold nothing are one of the values the variables may have.
        obtain ⟨out, hrun, hdumps⟩ := hruns fun _ => noBuffer
        rw [hwalks] at hrun
        rcases hwalk : walkEntries (mdsecStep z zf (fun _ => noBuffer) (some fin) dsets) rs 0 ([], [], 0) with _ | s
        · rw [hwalk] at hrun
          cases hrun
        · rw [hwalk] at hrun
          obtain rfl := Except.ok.inj hrun
          exact Or.inr (allDumpable_of_lists zf hshared hwalk hdumps.whole).1
  · intro hdump stale
    obtain ⟨c', out, dbsize, hwalk, hentries, hwhole⟩ := mdsec_lists zf stale hshared hdump [] 0
    refine ⟨out, by rw [hwalks, hwalk]; rfl, hentries, fun idx hidx => ?_, hwhole⟩
    have hsome : (out.map fun d => some d.entry) = held.map some := by
      rw [← hentries, List.map_map]
      rfl
    rw [hsome]
    exact parseBlock_section h (by rw [List.length_map]; exact hidx)

end Walk

/-- **Unfiltered data of the right size can be dumped** unless the size worked out does not fit a word: it is at least
the real size, since the offset counts bytes. -/
theorem Dumpable.of_sizesRight {dset : DsetInfo} {e : MetaEntry} (hfilters : dset.filters = [])
    (hright : SizesRight dset.esize e) {init : List MetaSel} {s : MetaSel} (hsels : e.sels = init ++ [s])
    (hrank : s.count.length = dset.ndim) (hfsize : e.hdr.fsize.toNat = dset.esize.toNat * totalElems e.sels)
    (hlt : e.hdr.fsize.toNat < 2 ^ 31) (hfit : (s.block.elems + s.doff.toNat) * dset.esize.toNat < 2 ^ 63) :
    Dumpable dset e := by
  have htotal : totalElems e.sels = totalElems init + s.block.elems := by
    rw [hsels]
    simp [totalElems]
  have hle : dset.esize.toNat * totalElems init ≤ e.hdr.fsize.toNat := by
    rw [hfsize, htotal]
    exact Nat.mul_le_mul_left _ (Nat.le_add_right _ _)
  have hdoff : s.doff.toNat = dset.esize.toNat * totalElems init := by
    have hlen : init.length < e.sels.length := by rw [hsels, List.length_append]; exact Nat.lt_succ_self _
    have hget : e.sels[init.length] = s := by simp only [hsels, List.getElem_concat_length rfl]
    have htake : e.sels.take init.length = init := by rw [hsels, List.take_left]
    rw [← hget, hright.doff init.length hlen, htake, BitVec.toNat_ofNat, Nat.mod_eq_of_lt (by omega)]
  -- Elements of the last block plus the offset, which is in bytes, times the element size.
  have hsize : dumpSize dset e = BitVec.ofNat 64 ((s.block.elems + s.doff.toNat) * dset.esize.toNat) := by
    have hcount : blockBytes 1 s.count = BitVec.ofNat 64 s.block.elems := by
      have hbytes := blockBytes_eq 1 s.block
      rwa [show (1 : HSize).toNat = 1 from rfl, Nat.one_mul] at hbytes
    have hlast : e.sels.getLast? = some s := by rw [hsels, List.getLast?_concat]
    rw [dumpSize, hlast]
    simp only [← hrank, List.take_length, hcount]
    rw [BitVec.ofNat_mul, BitVec.ofNat_add, BitVec.ofNat_toNat, BitVec.ofNat_toNat, BitVec.setWidth_eq,
      BitVec.setWidth_eq]
  refine ⟨hfilters, hlt, ?_⟩
  have hreal : e.hdr.fsize.toNat ≤ (s.block.elems + s.doff.toNat) * dset.esize.toNat := by
    rw [hfsize, htotal, Nat.mul_comm]
    rcases Nat.eq_zero_or_pos dset.esize.toNat with hzero | hpos
    · rw [hzero, Nat.mul_zero]
      exact Nat.zero_le _
    · have hinit : totalElems init ≤ s.doff.toNat := by
        rw [hdoff]
        exact Nat.le_mul_of_pos_left _ hpos
      exact Nat.mul_le_mul_right _ (by omega)
  rw [(cInt_fsize hlt).1, hsize, BitVec.toInt_eq_toNat_of_lt (by rw [BitVec.toNat_ofNat]; omega), BitVec.toNat_ofNat]
  omega

/-! ### A section with two blocks in one entry and a reference, and an element that was deflated. -/

def pairBlocks : List Block := [⟨[0], [2]⟩, ⟨[5], [2]⟩]

def pairHdr : MetaHdr := ⟨64, 0, MetaFlag.mulSel, 100, 16⟩

/-- Two blocks of two elements, written by one call: the count of blocks, the starts, and the counts. -/
def pairReq : WReq where
  hdr := pairHdr
  body := entryPrefix none (some 2) ++ ([] ++ (pairBlocks.flatMap (fun b => Lib.putWords sizeofOffset b.start) ++
    pairBlocks.flatMap fun b => Lib.putWords sizeofOffset b.count))
  selOff := sizeofHdr
  nsel := 2
  metaOff := 0
  dbufs := []

/-- The entry it is read as. -/
def pairEntry : MetaEntry := ⟨pairHdr, [⟨[0], [2], 0⟩, ⟨[5], [2], 8⟩], 16⟩

theorem pairReq_wellSized : pairReq.WellSized := by
  show (pairReq.metaBuf.length : Int) = _
  rw [WReq.metaBuf, List.length_append, MetaHdr.bytes_length]
  rfl

theorem metaentryDecode_pairReq {z : Option Zlib} (n : HSize) (tail : List UInt8) :
    metaentryDecode z (vectorDset n) (pairReq.metaBuf ++ tail) = .ok pairEntry := by
  have hword (v : List HSize) (hv : v.length = 1) :
      Lib.Reads (readCords (hasFlag pairHdr.flag MetaFlag.selEncode) (encdimRead (vectorDset n) none) [])
        (Lib.putWords sizeofOffset v) v := by
    have hflag : hasFlag pairHdr.flag MetaFlag.selEncode = false := by decide
    rw [hflag, readCords, if_neg Bool.false_ne_true]
    apply readOffsets_reads
    rw [hv]
    rfl
  have hsteps : Lib.Reads (readSteps pairHdr.flag (encdimRead (vectorDset n) none)) [] [] := by
    rw [readSteps, if_neg (by decide)]
    exact Lib.Reads.pure []
  have hrank : ∀ b ∈ pairBlocks, b.start.length = 1 ∧ b.count.length = 1 := by decide
  have hsels := readSels_yields hsteps (fun b hb => hword b.start (hrank b hb).1)
    (fun b hb => hword b.count (hrank b hb).2)
  have hentry := @decodeSteps_yields z (vectorDset n) pairHdr none (some 2) _ _ (by decide) (by decide) (by decide)
    (by rw [Option.elim_some, unpackSels_plain (by decide)]; exact hsels)
  have hrun : (metaentryDecodeSteps z (vectorDset n)).run (pairReq.metaBuf ++ tail) = _ := hentry tail
  rw [metaentryDecode, hrun]
  rfl

/-- Two blocks of dataset 0, a block of it, and the same block of dataset 1. -/
def pairSection : List WReq := [pairReq, blockReq 0 3 2 116 8, refReq 1 (-44) 124 8]

def pairEntries : List MetaEntry := [pairEntry, blockEntry 0 3 2 116 8, refEntry 1 3 2 124 8]

theorem pairSection_holds :
    SectionHolds (listParser none) true ([vectorDset 8, vectorDset 8].map some) pairSection (pairEntries.map some) := by
  refine Parses.entry pairReq_wellSized rfl (fun tail => ?_) (Parses.block 8 rfl (Parses.refBlock 8 rfl rfl Parses.nil))
  rw [EntryParser.entryAt_plain _ _ _ _ (by rfl), listParser_plain]
  exact metaentryDecode_pairReq 8 tail

/-- The three entries are listed, and their bytes are read. -/
theorem mdsec_dumps_pairSection :
    SectionHolds (listParser none) true ([vectorDset 8, vectorDset 8].map some) pairSection (pairEntries.map some) ∧
    ∀ stale, ∃ out, mdsec none sampleDeflater stale (some fun _ => 0) [vectorDset 8, vectorDset 8]
        (pairSection.flatMap WReq.metaBuf) = .ok out ∧
      DumpsAs none true (some fun _ => 0) [vectorDset 8, vectorDset 8] pairSection pairEntries out := by
  refine ⟨pairSection_holds, (mdsec_dumps_iff sampleDeflater (some fun _ => 0) pairSection_holds ?_).mpr (Or.inr ?_)⟩
  · intro hshare
    cases hshare
  · intro e he dset hdset
    have hvector : dset = vectorDset 8 := by
      simp only [pairEntries, List.mem_cons, List.not_mem_nil, or_false] at he
      rcases he with rfl | rfl | rfl
      · exact (Except.ok.inj hdset).symm
      · exact (Except.ok.inj hdset).symm
      · exact (Except.ok.inj hdset).symm
    have hfits : ∀ e ∈ pairEntries, e.hdr.fsize.toNat < 2 ^ 31 ∧
        e.hdr.fsize.toInt ≤ (dumpSize (vectorDset 8) e).toInt := by decide
    rw [hvector]
    exact ⟨rfl, (hfits e he).1, (hfits e he).2⟩

def deflatedVector : DsetInfo := { vectorDset 1 with filters := oneDeflate }

theorem dumpDeflated_holds : SectionHolds (listParser none) false ([deflatedVector].map some) [blockReq 0 0 1 100 15]
    ([blockEntry 0 0 1 100 15].map some) := by
  refine Parses.entry (blockReq_wellSized 0 0 1 100 15) rfl (fun tail => ?_) Parses.nil
  rw [EntryParser.entryAt_unshared, listParser_plain]
  exact metaentryDecode_blockReq rfl 0 0 1 100 15 tail

/-- **Four bytes that are fifteen when deflated**: the size check is not passed. -/
theorem not_dumps_deflated :
    SectionHolds (listParser none) false ([deflatedVector].map some) [blockReq 0 0 1 100 15]
      ([blockEntry 0 0 1 100 15].map some) ∧
    ∀ stale, mdsec none sampleDeflater stale (some fun _ => 0) [deflatedVector]
      ([blockReq 0 0 1 100 15].flatMap WReq.metaBuf) = .error (.raised "abort") := by
  refine ⟨dumpDeflated_holds, fun stale => ?_⟩
  have hentry : (listParser none).entryAt true deflatedVector (blockReq 0 0 1 100 15).hdr
      ((blockReq 0 0 1 100 15).metaBuf ++ []) (0 : Nat) [] = .ok (blockEntry 0 0 1 100 15) := by
    rw [EntryParser.entryAt_plain _ _ _ _ (by rfl), listParser_plain]
    exact metaentryDecode_blockReq rfl 0 0 1 100 15 []
  have hdata : ∀ dbsize, dumpData sampleDeflater (stale 0) (fun _ => 0) deflatedVector
      (blockEntry 0 0 1 100 15) dbsize = .error (.raised "abort") := fun dbsize => if_pos (by decide)
  rw [mdsec, walkBlock_entries _ (Parses.wellSized dumpDeflated_holds), walkEntries, List.flatMap_nil,
    mdsecStep_eq sampleDeflater stale _ rfl hentry]
  simp only [Nat.cast_zero, hdata]
  rfl

end LogVol
