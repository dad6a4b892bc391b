/-
# LogVol.FlushWrite — flushing queued writes to the log, on all ranks.

Every rank places its queued requests end to end, the ranks exchange how much they have (an `Allreduce`
and an `Exscan`), each group of ranks that share a file creates one log dataset for all of it, and each
rank writes its data at its own place there. `flushWriteReqs` is that step over all ranks;
`flushWriteReqs_layout_iff` says where every request ends up, and when.
-/
import LogVol.File
import LogVol.Lib.ByteStore

namespace LogVol

open Lib (Store RangesDisjoint layout writeRange)

/-! ## §1 — what one rank brings. -/

/-- The bytes the memory type covers of one buffer; its length is kept in an `int`. -/
def DataBlock.typeBytes (passthru : Bool) (d : DataBlock) : Except Fault (List UInt8) :=
  let mlen := cInt d.size.toNat
  if mlen < 0 then .error (if passthru then .outside else .raised "MPI_ERR_ARG")
  else if (d.xbuf.length : Int) < mlen then .error .outside
  else .ok (d.xbuf.take mlen.toNat)

/-- `hdr->fsize`. -/
def WReq.fsize (r : WReq) : MpiOffset := r.hdr.fsize

/-- Place requests end to end: each `foff` is the running size. -/
def placeReqs : MpiOffset → List WReq → List WReq
  | _, [] => []
  | fsizeLocal, r :: rs =>
      { r with hdr := { r.hdr with foff := fsizeLocal } } :: placeReqs (fsizeLocal + r.hdr.fsize) rs

/-- A rank before the exchange: its file, the bytes it is going to write and `fsize_local`. -/
structure LocalFlush where
  file : RankFile
  bytes : List UInt8
  fsizeLocal : MpiOffset

/-- The requests of a rank whose data is not in the file yet. -/
def RankFile.queued (f : RankFile) : List WReq := f.wreqs.drop f.nflushed

/-- `cnt`: the number of data blocks, added up in an `int`. -/
def blockCount (rs : List WReq) : Int := cInt (rs.flatMap WReq.dbufs).length

/-- Flush merged requests, construct the memory type and place the requests. When `cnt` is 0 nothing is placed; arrays
of fewer entries than there are data blocks are written behind their end. The loops go by `(int)(wreqs.size ())`:
more requests than an `int` counts are taken for a fault, as the flush after them begins outside the queue. When data
is passed through, it is first gathered into a buffer of `fsize_local` bytes. -/
def localFlush (config : I32) (f : RankFile) : Except Fault LocalFlush :=
  let f := f.flushMerged
  let passthru := hasFlag config FileConfig.passthru
  if f.nflushed < f.wreqs.length ∧ 2 ^ 31 ≤ f.wreqs.length then .error .outside
  else if blockCount f.queued = 0 then .ok ⟨f, [], 0⟩
  else if blockCount f.queued < (f.queued.flatMap WReq.dbufs).length then .error .outside
  else do
    let blocks ← (f.queued.flatMap WReq.dbufs).mapM (DataBlock.typeBytes passthru)
    let fsizeLocal := (f.queued.map WReq.fsize).sum
    if passthru ∧ blocks.flatten.length ≠ fsizeLocal.toNat then .error .outside
    else .ok ⟨{ f with wreqs := f.wreqs.take f.nflushed ++ placeReqs 0 f.queued }, blocks.flatten,
      fsizeLocal⟩

/-! ## §2 — the exchange and the write. -/

/-- `MPI_Exscan` with `MPI_SUM`: the sum of what the ranks before each one have. -/
def exscan : MpiOffset → List MpiOffset → List MpiOffset
  | _, [] => []
  | acc, x :: xs => acc :: exscan (acc + x) xs

theorem exscan_length (acc : MpiOffset) (xs : List MpiOffset) : (exscan acc xs).length = xs.length := by
  induction xs generalizing acc with
  | nil => rfl
  | cons x xs ih => rw [exscan, List.length_cons, List.length_cons, ih]

/-- `hdr->foff += base`. -/
def WReq.moveBy (base : MpiOffset) (r : WReq) : WReq :=
  { r with hdr := { r.hdr with foff := r.hdr.foff + base } }

/-- Update metadata in requests, and release the buffers. -/
def finishRank (base : MpiOffset) (f : RankFile) : RankFile :=
  { f with
    wreqs := f.wreqs.take f.nflushed ++ f.queued.map (WReq.moveBy base)
    nflushed := f.wreqs.length
    bused := (f.queued.flatMap WReq.dbufs).foldl releaseBlock f.bused
    nldset := f.nldset + 1 }

/-- The processes that share a file, in rank order, and the file. Without subfiling all processes are
one group (`group_comm` is `comm`). -/
structure Group where
  ranks : List RankFile
  file : Store

/-- What the ranks of a group write, once the log dataset is at `doff`. -/
def groupWrites (doff : HSize) (locals : List LocalFlush) : List (Nat × List UInt8) :=
  List.zipWith (fun l foffGroup => ((foffGroup + doff).toNat, l.bytes)) locals
    (exscan 0 (locals.map LocalFlush.fsizeLocal))

/-- One group after the exchange: a log dataset is created when the group has any data. -/
def flushGroup (doff : HSize) (locals : List LocalFlush) (file : Store) : Group :=
  let fsizeGroup := (locals.map LocalFlush.fsizeLocal).sum
  if fsizeGroup = 0 then ⟨locals.map LocalFlush.file, file⟩
  else
    { ranks := List.zipWith (fun l foffGroup => finishRank (foffGroup + doff) l.file) locals
        (exscan 0 (locals.map LocalFlush.fsizeLocal))
      file := file.writeAll (groupWrites doff locals) }

/-- Metadata is dirty on every rank once any rank has written. -/
def Group.markDirty (g : Group) : Group :=
  { g with ranks := g.ranks.map fun f => { f with metadirty := true } }

/-- **`H5VL_log_nb_flush_write_reqs`** on every rank; `doff k` is where the log dataset of group `k` is
allocated. -/
def flushWriteReqs (config : I32) (doff : Nat → HSize) (groups : List Group) :
    Except Fault (List Group) := do
  let locals ← groups.mapM fun g => g.ranks.mapM (localFlush config)
  let fsizeAll := (locals.flatten.map LocalFlush.fsizeLocal).sum
  if fsizeAll = 0 then
    pure (List.zipWith (fun ls g => ⟨ls.map LocalFlush.file, g.file⟩) locals groups)
  else
    pure ((locals.zip groups).mapIdx fun k lg => (flushGroup (doff k) lg.1 lg.2.file).markDirty)

/-! ## §3 — queues that are well formed. -/

/-- A request is ready: its `fsize` is the sum of the sizes of its data blocks, and each of these has as
many bytes as it says, fewer than `2 ^ 31`. -/
structure WReq.Ready (r : WReq) : Prop where
  fsize : r.hdr.fsize = (r.dbufs.map DataBlock.size).sum
  sizes : ∀ d ∈ r.dbufs, d.xbuf.length = d.size.toNat ∧ d.size.toNat < 2 ^ 31

/-- The data of a request, one block after another. -/
def WReq.data (r : WReq) : List UInt8 := (r.dbufs.map DataBlock.xbuf).flatten

/-- The requests a flush finds in the queue of a rank, merged ones included. -/
def RankFile.toFlush (f : RankFile) : List WReq := f.flushMerged.queued

/-- The number of bytes a rank has to write. -/
def RankFile.pendingBytes (f : RankFile) : Nat := (f.toFlush.map fun r => r.data.length).sum

/-- The queue of a rank before a flush. -/
structure RankFile.Ready (f : RankFile) : Prop where
  nflushed_le : f.nflushed ≤ f.wreqs.length
  ready : ∀ r ∈ f.toFlush, r.Ready

/-- The loops over the queue visit all of it: it is empty, or an `int` counts the requests, flushed ones included. -/
def RankFile.Visited (f : RankFile) : Prop :=
  f.nflushed < f.flushMerged.wreqs.length → f.flushMerged.wreqs.length < 2 ^ 31

/-- The queue can be counted: its requests, and the data blocks, unless an `int` holds 0 for these and there are no
bytes in them. -/
structure RankFile.Counted (f : RankFile) : Prop where
  requests : f.Visited
  blocks : (f.toFlush.flatMap WReq.dbufs).length < 2 ^ 31 ∨
    2 ^ 32 ∣ (f.toFlush.flatMap WReq.dbufs).length ∧ f.pendingBytes = 0

theorem blockCount_eq {rs : List WReq} (h : (rs.flatMap WReq.dbufs).length < 2 ^ 31) :
    blockCount rs = (rs.flatMap WReq.dbufs).length :=
  cInt_of_range (by omega) (by omega)

theorem blockCount_eq_zero_iff {rs : List WReq} :
    blockCount rs = 0 ↔ 2 ^ 32 ∣ (rs.flatMap WReq.dbufs).length := by
  rw [blockCount, cInt, ← Int.dvd_iff_bmod_eq_zero]
  exact_mod_cast Iff.rfl

/-- An `int` that holds no less than the number holds the number. -/
theorem blockCount_lt {rs : List WReq} (h : (rs.flatMap WReq.dbufs).length ≤ blockCount rs) :
    (rs.flatMap WReq.dbufs).length < 2 ^ 31 := by
  have hlt := cInt_lt (rs.flatMap WReq.dbufs).length
  rw [← blockCount] at hlt
  omega

theorem typeBytes_eq {passthru : Bool} {d : DataBlock} (hlen : d.xbuf.length = d.size.toNat)
    (hlt : d.size.toNat < 2 ^ 31) : d.typeBytes passthru = .ok d.xbuf := by
  have hint : cInt d.size.toNat = d.xbuf.length := by
    rw [cInt_of_range (by omega) (by omega), hlen]
  rw [DataBlock.typeBytes]
  simp only [hint]
  rw [if_neg (by omega), if_neg (by omega), Int.toNat_natCast, List.take_length]

/-- A sum of 64-bit sizes is exact while it stays below `2 ^ 64`. -/
theorem sum_toNat {ws : List (BitVec 64)} (h : (ws.map BitVec.toNat).sum < 2 ^ 64) :
    ws.sum.toNat = (ws.map BitVec.toNat).sum := by
  induction ws with
  | nil => rfl
  | cons w ws ih =>
      rw [List.map_cons, List.sum_cons] at h ⊢
      rw [List.sum_cons, BitVec.toNat_add, ih (by omega)]
      exact Nat.mod_eq_of_lt h

theorem Ready.data_length {r : WReq} (h : r.Ready) :
    r.data.length = ((r.dbufs.map DataBlock.size).map BitVec.toNat).sum := by
  rw [WReq.data, List.length_flatten, List.map_map, List.map_map]
  congr 1
  exact List.map_congr_left fun d hd => (h.sizes d hd).1

theorem Ready.fsize_toNat {r : WReq} (h : r.Ready) (hlt : r.data.length < 2 ^ 64) :
    r.hdr.fsize.toNat = r.data.length := by
  rw [Ready.data_length h] at hlt ⊢
  rw [h.fsize, sum_toNat hlt]

/-! ## §4 — one rank. -/

/-- Where the data of a request is. -/
def WReq.range (r : WReq) : Nat × Nat := (r.hdr.foff.toNat, r.hdr.fsize.toNat)

/-- The same request, placed somewhere. -/
def WReq.SameBut (r r' : WReq) : Prop := ∃ foff, r' = { r with hdr := { r.hdr with foff := foff } }

/-- Requests placed from `acc` on, and moved by `base`. -/
def placedAt (acc base : MpiOffset) (rs : List WReq) : List WReq :=
  (placeReqs acc rs).map (WReq.moveBy base)

theorem placedAt_sameBut (acc base : MpiOffset) (rs : List WReq) :
    List.Forall₂ WReq.SameBut rs (placedAt acc base rs) := by
  induction rs generalizing acc with
  | nil => exact List.Forall₂.nil
  | cons r rs ih => exact List.Forall₂.cons ⟨acc + base, rfl⟩ (ih _)

/-- Placed requests lie end to end. -/
theorem placedAt_range (acc base : MpiOffset) {rs : List WReq} (hready : ∀ r ∈ rs, r.Ready)
    (hlt : (acc + base).toNat + (rs.map fun r => r.data.length).sum < 2 ^ 64) :
    (placedAt acc base rs).map WReq.range =
      layout (acc + base).toNat (rs.map fun r => r.data.length) := by
  induction rs generalizing acc with
  | nil => rfl
  | cons r rs ih =>
      rw [List.map_cons, List.sum_cons] at hlt
      have hr := hready r (List.mem_cons_self ..)
      have hsize : r.hdr.fsize.toNat = r.data.length := Ready.fsize_toNat hr (by omega)
      have hnext : (acc + r.hdr.fsize + base).toNat = (acc + base).toNat + r.data.length := by
        rw [show acc + r.hdr.fsize + base = acc + base + r.hdr.fsize by ring, BitVec.toNat_add, hsize]
        exact Nat.mod_eq_of_lt (by omega)
      have hrest := ih (acc + r.hdr.fsize) (fun x hx => hready x (List.mem_cons_of_mem _ hx))
        (by rw [hnext]; omega)
      rw [List.map_cons, layout, ← hnext, ← hrest, ← hsize]
      rfl

/-- **A rank before the exchange**: it brings the data of its queue, and has placed the requests unless
there is none. -/
structure LocalFlush.Of (f : RankFile) (l : LocalFlush) : Prop where
  fsizeLocal : l.fsizeLocal.toNat = f.pendingBytes
  bytes : l.bytes = (f.toFlush.map WReq.data).flatten
  nflushed : l.file.nflushed = f.nflushed
  earlier : l.file.wreqs.take f.nflushed = f.wreqs.take f.nflushed
  queued : l.file.queued = placeReqs 0 f.toFlush ∨
    l.file.queued = f.toFlush ∧ ∀ r ∈ f.toFlush, r.data = []
  mreqs : l.file.mreqs = f.flushMerged.mreqs

theorem flushMerged_take {f : RankFile} (h : f.nflushed ≤ f.wreqs.length) :
    f.flushMerged.wreqs.take f.nflushed = f.wreqs.take f.nflushed :=
  List.take_append_of_le_length h

theorem flatten_data (rs : List WReq) :
    (rs.map WReq.data).flatten = ((rs.flatMap WReq.dbufs).map DataBlock.xbuf).flatten := by
  induction rs with
  | nil => rfl
  | cons r rs ih =>
      rw [List.map_cons, List.flatten_cons, ih, List.flatMap_cons, List.map_append,
        List.flatten_append, WReq.data]

/-- The file of a process whose queued requests are placed. -/
def RankFile.placed (f : RankFile) : RankFile :=
  { f.flushMerged with wreqs := f.flushMerged.wreqs.take f.nflushed ++ placeReqs 0 f.toFlush }

theorem localFlush_eq (config : I32) (f : RankFile) :
    localFlush config f =
      if f.nflushed < f.flushMerged.wreqs.length ∧ 2 ^ 31 ≤ f.flushMerged.wreqs.length then .error .outside
      else if blockCount f.toFlush = 0 then .ok ⟨f.flushMerged, [], 0⟩
      else if blockCount f.toFlush < (f.toFlush.flatMap WReq.dbufs).length then .error .outside
      else (f.toFlush.flatMap WReq.dbufs).mapM
          (DataBlock.typeBytes (hasFlag config FileConfig.passthru)) >>= fun blocks =>
        if hasFlag config FileConfig.passthru ∧
            blocks.flatten.length ≠ (f.toFlush.map WReq.fsize).sum.toNat then .error .outside
        else .ok ⟨f.placed, blocks.flatten, (f.toFlush.map WReq.fsize).sum⟩ := rfl

theorem not_overrun_iff {f : RankFile} :
    ¬ (f.nflushed < f.flushMerged.wreqs.length ∧ 2 ^ 31 ≤ f.flushMerged.wreqs.length) ↔ f.Visited := by
  rw [not_and, RankFile.Visited]
  simp only [not_le]

/-- **What a rank brings to the exchange**: nothing, or the bytes of its blocks, with the requests placed. -/
theorem localFlush_cases {config : I32} {f : RankFile} {l : LocalFlush} (h : localFlush config f = .ok l) :
    f.Visited ∧ (blockCount f.toFlush = 0 ∧ l = ⟨f.flushMerged, [], 0⟩ ∨
      blockCount f.toFlush ≠ 0 ∧ (f.toFlush.flatMap WReq.dbufs).length < 2 ^ 31 ∧
        ∃ bytes, l = ⟨f.placed, bytes, (f.toFlush.map WReq.fsize).sum⟩) := by
  rw [localFlush_eq] at h
  split at h
  · cases h
  · rename_i hover
    refine ⟨not_overrun_iff.mp hover, ?_⟩
    split at h
    · rename_i hnone
      exact Or.inl ⟨hnone, (Except.ok.inj h).symm⟩
    · rename_i hsome
      split at h
      · cases h
      · rename_i hcount
        obtain ⟨blocks, -, h⟩ := Lib.bind_eq_ok.mp h
        split at h
        · cases h
        · exact Or.inr ⟨hsome, blockCount_lt (not_lt.mp hcount), _, (Except.ok.inj h).symm⟩

theorem placeReqs_length (acc : MpiOffset) (rs : List WReq) : (placeReqs acc rs).length = rs.length := by
  induction rs generalizing acc with
  | nil => rfl
  | cons r rs ih => simp [placeReqs, ih]

/-- **`nflushed` stays an `int`**: a flush that returns has found fewer than `2 ^ 31` requests where it moves it. -/
theorem flushWriteReqs_nflushed_lt {config : I32} {doff : Nat → HSize} {groups groups' : List Group}
    (h : flushWriteReqs config doff groups = .ok groups')
    (hlt : ∀ g ∈ groups, ∀ f ∈ g.ranks, f.nflushed < 2 ^ 31) :
    ∀ g ∈ groups', ∀ f ∈ g.ranks, f.nflushed < 2 ^ 31 := by
  obtain ⟨locals, hlocals, h⟩ := Lib.bind_eq_ok.mp h
  have hall := Lib.mapM_eq_ok_iff.mp hlocals
  have hlocal : ∀ ls ∈ locals, ∀ l ∈ ls, l.file.nflushed < 2 ^ 31 ∧ l.file.wreqs.length < 2 ^ 31 := by
    intro ls hls l hl
    obtain ⟨g, hg, hmap⟩ := Lib.forall₂_mem_left hall.flip hls
    obtain ⟨f, hf, hlf⟩ := Lib.forall₂_mem_left (Lib.mapM_eq_ok_iff.mp hmap).flip hl
    have hnf := hlt g hg f hf
    obtain ⟨hvisited, hcases⟩ := localFlush_cases hlf
    -- The requests are counted in an `int` where the loop over them starts.
    have hlen : f.flushMerged.wreqs.length < 2 ^ 31 := by
      by_cases hmore : f.nflushed < f.flushMerged.wreqs.length
      · exact hvisited hmore
      · omega
    rcases hcases with ⟨-, rfl⟩ | ⟨-, -, bytes, rfl⟩
    · exact ⟨hnf, hlen⟩
    · refine ⟨hnf, ?_⟩
      show (f.flushMerged.wreqs.take f.nflushed ++ placeReqs 0 (f.flushMerged.wreqs.drop f.nflushed)).length < _
      rw [List.length_append, placeReqs_length, ← List.length_append, List.take_append_drop]
      exact hlen
  dsimp only at h
  split at h
  · obtain rfl := Except.ok.inj h
    intro g hg f hf
    rw [← List.map_uncurry_zip_eq_zipWith] at hg
    obtain ⟨⟨ls, g₀⟩, hmem, rfl⟩ := List.mem_map.mp hg
    obtain ⟨l, hl, rfl⟩ := List.mem_map.mp hf
    exact (hlocal ls (List.of_mem_zip hmem).1 l hl).1
  · obtain rfl := Except.ok.inj h
    intro g hg f hf
    obtain ⟨k, hk, rfl⟩ := List.mem_mapIdx.mp hg
    have hls := (List.of_mem_zip (List.getElem_mem hk)).1
    obtain ⟨f₀, hf₀, rfl⟩ := List.mem_map.mp hf
    show f₀.nflushed < 2 ^ 31
    unfold flushGroup at hf₀
    dsimp only at hf₀
    split at hf₀
    · obtain ⟨l, hl, rfl⟩ := List.mem_map.mp hf₀
      exact (hlocal _ hls l hl).1
    · rw [← List.map_uncurry_zip_eq_zipWith] at hf₀
      obtain ⟨⟨l, base⟩, hmem, rfl⟩ := List.mem_map.mp hf₀
      exact (hlocal _ hls l (List.of_mem_zip hmem).1).2

theorem fsize_sum {f : RankFile} (h : f.Ready) (hlt : f.pendingBytes < 2 ^ 64) :
    ((f.toFlush.map WReq.fsize).sum).toNat = f.pendingBytes := by
  have hfsize : (f.toFlush.map WReq.fsize).map BitVec.toNat = f.toFlush.map fun r => r.data.length := by
    rw [List.map_map]
    refine List.map_congr_left fun r hr => Ready.fsize_toNat (h.ready r hr) ?_
    have hle : r.data.length ≤ f.pendingBytes := List.le_sum_of_mem (List.mem_map_of_mem hr)
    omega
  rw [sum_toNat (by rw [hfsize]; exact hlt), hfsize]
  rfl

/-- A rank that brings the bytes of its blocks. -/
theorem placed_of {f : RankFile} (h : f.Ready) (hlt : f.pendingBytes < 2 ^ 64) :
    LocalFlush.Of f ⟨f.placed, (f.toFlush.map WReq.data).flatten, (f.toFlush.map WReq.fsize).sum⟩ := by
  have htake := flushMerged_take h.nflushed_le
  have hnf : f.nflushed ≤ f.flushMerged.wreqs.length := by
    rw [RankFile.flushMerged, List.length_append]
    have := h.nflushed_le
    omega
  refine ⟨fsize_sum h hlt, rfl, rfl, ?_, Or.inl ?_, rfl⟩
  · show (f.flushMerged.wreqs.take f.nflushed ++ _).take f.nflushed = _
    rw [List.take_append_of_le_length (by rw [List.length_take]; omega), List.take_take, min_self, htake]
  · show (f.flushMerged.wreqs.take f.nflushed ++ _).drop f.nflushed = _
    rw [List.drop_append_of_le_length (by rw [List.length_take]; omega), List.drop_take, Nat.sub_self,
      List.take_zero, List.nil_append]

/-- A flush of blocks that are counted. -/
theorem localFlush_placed (config : I32) {f : RankFile} (h : f.Ready) (hlt : f.pendingBytes < 2 ^ 64)
    (hreqs : f.Visited) (hsome : blockCount f.toFlush ≠ 0)
    (hfew : (f.toFlush.flatMap WReq.dbufs).length < 2 ^ 31) : localFlush config f =
      .ok ⟨f.placed, (f.toFlush.map WReq.data).flatten, (f.toFlush.map WReq.fsize).sum⟩ := by
  have hblocks : (f.toFlush.flatMap WReq.dbufs).mapM
      (DataBlock.typeBytes (hasFlag config FileConfig.passthru)) =
      .ok ((f.toFlush.flatMap WReq.dbufs).map DataBlock.xbuf) := by
    rw [Lib.mapM_eq_ok_iff, List.forall₂_map_right_iff, List.forall₂_same]
    intro d hd
    obtain ⟨r, hr, hdr⟩ := List.mem_flatMap.mp hd
    obtain ⟨hdlen, hdlt⟩ := (h.ready r hr).sizes d hdr
    exact typeBytes_eq hdlen hdlt
  have hbytes : ((f.toFlush.flatMap WReq.dbufs).map DataBlock.xbuf).flatten.length =
      ((f.toFlush.map WReq.fsize).sum).toNat := by
    rw [← flatten_data, fsize_sum h hlt, RankFile.pendingBytes, List.length_flatten, List.map_map]
    rfl
  have hroom : ¬ blockCount f.toFlush < (f.toFlush.flatMap WReq.dbufs).length :=
    not_lt.mpr (blockCount_eq hfew).ge
  rw [localFlush_eq, if_neg (not_overrun_iff.mpr hreqs), if_neg hsome, if_neg hroom, hblocks]
  show (if _ then _ else _) = _
  rw [if_neg fun hbad => hbad.2 hbytes, ← flatten_data]

/-- A rank without data blocks, or whose blocks come to 0 in an `int`, brings nothing. -/
theorem localFlush_nothing (config : I32) {f : RankFile} (hreqs : f.Visited) (hnone : blockCount f.toFlush = 0) :
    localFlush config f = .ok ⟨f.flushMerged, [], 0⟩ := by
  rw [localFlush_eq, if_neg (not_overrun_iff.mpr hreqs), if_pos hnone]

theorem localFlush_of (config : I32) {f : RankFile} (h : f.Ready) (hlt : f.pendingBytes < 2 ^ 64) (hc : f.Counted) :
    ∃ l, localFlush config f = .ok l ∧ LocalFlush.Of f l := by
  by_cases hnone : blockCount f.toFlush = 0
  · have hzero : f.pendingBytes = 0 := by
      rcases hc.blocks with hfew | ⟨-, hzero⟩
      · rw [blockCount_eq hfew] at hnone
        have hnil : f.toFlush.flatMap WReq.dbufs = [] := List.length_eq_zero_iff.mp (by omega)
        rw [RankFile.pendingBytes, List.sum_eq_zero_iff]
        intro n hn
        obtain ⟨r, hr, rfl⟩ := List.mem_map.mp hn
        rw [WReq.data, List.flatMap_eq_nil_iff.mp hnil r hr]
        rfl
      · exact hzero
    have hempty : ∀ r ∈ f.toFlush, r.data = [] := by
      intro r hr
      have hle : r.data.length ≤ f.pendingBytes := List.le_sum_of_mem (List.mem_map_of_mem hr)
      exact List.length_eq_zero_iff.mp (by omega)
    refine ⟨_, localFlush_nothing config hc.requests hnone, hzero.symm, ?_, rfl, flushMerged_take h.nflushed_le,
      Or.inr ⟨rfl, hempty⟩, rfl⟩
    rw [List.map_congr_left hempty, List.map_const', List.flatten_replicate_nil]
  · rcases hc.blocks with hfew | ⟨hmany, -⟩
    · exact ⟨_, localFlush_placed config h hlt hc.requests hnone hfew, placed_of h hlt⟩
    · exact absurd (blockCount_eq_zero_iff.mpr hmany) hnone

/-- **A rank after the exchange**: what was flushed before is untouched, and the rest lies end to end
from `base` on. -/
structure FinishedAt (base : Nat) (f f' : RankFile) : Prop where
  earlier : f'.wreqs.take f.nflushed = f.wreqs.take f.nflushed
  nflushed : f'.nflushed = f'.wreqs.length
  sameBut : List.Forall₂ WReq.SameBut f.toFlush (f'.wreqs.drop f.nflushed)
  place : List.Forall₂ Lib.SamePlace ((f'.wreqs.drop f.nflushed).map WReq.range)
    (layout base (f.toFlush.map fun r => r.data.length))

theorem finishRank_at {f : RankFile} (h : f.Ready) {l : LocalFlush} (hl : LocalFlush.Of f l)
    (base : MpiOffset) (hlt : base.toNat + f.pendingBytes < 2 ^ 64) :
    FinishedAt base.toNat f (finishRank base l.file) := by
  have hnf : (l.file.wreqs.take f.nflushed).length = f.nflushed := by
    rw [hl.earlier, List.length_take]
    exact min_eq_left h.nflushed_le
  have hwreqs : (finishRank base l.file).wreqs =
      l.file.wreqs.take f.nflushed ++ l.file.queued.map (WReq.moveBy base) := by
    rw [← hl.nflushed]
    rfl
  have hdrop : (finishRank base l.file).wreqs.drop f.nflushed =
      l.file.queued.map (WReq.moveBy base) := by
    rw [hwreqs]
    exact List.drop_left' hnf
  refine ⟨?_, ?_, ?_, ?_⟩
  · rw [hwreqs, List.take_left' hnf, hl.earlier]
  · show l.file.wreqs.length = _
    rw [hwreqs, List.length_append, List.length_map, RankFile.queued, hl.nflushed, ← List.length_append,
      List.take_append_drop]
  · rw [hdrop]
    rcases hl.queued with hq | ⟨hq, -⟩
    · rw [hq]
      exact placedAt_sameBut 0 base f.toFlush
    · rw [hq, List.forall₂_map_right_iff, List.forall₂_same]
      exact fun r _ => ⟨r.hdr.foff + base, rfl⟩
  · rw [hdrop]
    rcases hl.queued with hq | ⟨hq, hempty⟩
    · have hrange := placedAt_range 0 base h.ready
        (by rw [zero_add]; exact hlt)
      rw [zero_add] at hrange
      rw [hq, ← hrange, placedAt]
      exact List.forall₂_same.mpr fun r _ => Lib.SamePlace.refl r
    · -- no data at all: every range is empty
      have hzero : ∀ r ∈ f.toFlush, r.hdr.fsize.toNat = 0 ∧ r.data.length = 0 := by
        intro r hr
        have hdata : r.data.length = 0 := by
          rw [hempty r hr]
          rfl
        exact ⟨by rw [Ready.fsize_toNat (h.ready r hr) (by omega), hdata], hdata⟩
      rw [hq]
      clear hq hdrop hwreqs hlt hl hempty hnf
      generalize base.toNat = start
      revert hzero
      generalize f.toFlush = rs
      intro hzero
      induction rs generalizing start with
      | nil => exact List.Forall₂.nil
      | cons r rs ih =>
          obtain ⟨hsize, hdata⟩ := hzero r (List.mem_cons_self ..)
          refine List.Forall₂.cons ⟨hsize.trans hdata.symm, Or.inl hsize⟩ ?_
          exact ih _ fun x hx => hzero x (List.mem_cons_of_mem _ hx)

/-! ## §5 — one group. -/

/-- The number of bytes a group has to write. -/
def Group.pendingBytes (g : Group) : Nat := (g.ranks.map RankFile.pendingBytes).sum

/-- The requests a flush put into the file, over the ranks of a group. -/
def flushedBy (g g' : Group) : List WReq :=
  (List.zipWith (fun f f' => f'.wreqs.drop f.nflushed) g.ranks g'.ranks).flatten

/-- The ranks of a group lie end to end from `start` on. -/
theorem finish_ranks (acc doff : HSize) {fs : List RankFile} (hready : ∀ f ∈ fs, f.Ready)
    {ls : List LocalFlush} (hls : List.Forall₂ LocalFlush.Of fs ls)
    (hlt : (acc + doff).toNat + (fs.map RankFile.pendingBytes).sum < 2 ^ 64) :
    List.Forall₂ (fun f' (p : RankFile × Nat) => FinishedAt p.2 p.1 f')
      (List.zipWith (fun l foff => finishRank (foff + doff) l.file) ls
        (exscan acc (ls.map LocalFlush.fsizeLocal)))
      (fs.zip ((layout (acc + doff).toNat (fs.map RankFile.pendingBytes)).map Prod.fst)) ∧
    List.zipWith (fun l foff => ((foff + doff).toNat, l.bytes)) ls
        (exscan acc (ls.map LocalFlush.fsizeLocal)) =
      ((layout (acc + doff).toNat (fs.map RankFile.pendingBytes)).map Prod.fst).zip
        (fs.map fun f => (f.toFlush.map WReq.data).flatten) := by
  induction hls generalizing acc with
  | nil => exact ⟨List.Forall₂.nil, rfl⟩
  | @cons f l fs ls hl _ ih =>
      rw [List.map_cons, List.sum_cons] at hlt
      have hnext : (acc + l.fsizeLocal + doff).toNat = (acc + doff).toNat + f.pendingBytes := by
        rw [show acc + l.fsizeLocal + doff = acc + doff + l.fsizeLocal by ring, BitVec.toNat_add,
          hl.fsizeLocal]
        exact Nat.mod_eq_of_lt (by omega)
      have hf := finishRank_at (hready f (List.mem_cons_self ..)) hl (acc + doff) (by omega)
      obtain ⟨hfin, hwrites⟩ := ih (acc + l.fsizeLocal)
        (fun x hx => hready x (List.mem_cons_of_mem _ hx)) (by rw [hnext]; omega)
      rw [hnext] at hfin hwrites
      refine ⟨List.Forall₂.cons hf hfin, ?_⟩
      rw [List.map_cons, exscan, List.zipWith_cons_cons, hwrites, hl.bytes]
      rfl

theorem SameBut.data_eq {r r' : WReq} (h : r.SameBut r') : r'.data = r.data := by
  obtain ⟨foff, rfl⟩ := h
  rfl

/-- **A group that has data.** What was flushed before is untouched; the requests flushed now are those
that were queued, at pairwise disjoint places that make up exactly the log dataset, and each place holds
the data of its request, in whatever order the ranks wrote. -/
structure GroupFlushed (doff : HSize) (g g' : Group) : Prop where
  earlier : List.Forall₂ (fun f f' => f'.wreqs.take f.nflushed = f.wreqs.take f.nflushed)
    g.ranks g'.ranks
  nflushed : ∀ f' ∈ g'.ranks, f'.nflushed = f'.wreqs.length
  sameBut : List.Forall₂ WReq.SameBut (g.ranks.flatMap RankFile.toFlush) (flushedBy g g')
  disjoint : (flushedBy g g').Pairwise fun r r' => RangesDisjoint r.range r'.range
  covers : ∀ a, (∃ r ∈ flushedBy g g', r.hdr.foff.toNat ≤ a ∧ a < r.hdr.foff.toNat + r.hdr.fsize.toNat) ↔
    doff.toNat ≤ a ∧ a < doff.toNat + g.pendingBytes
  holds : ∀ r ∈ flushedBy g g', g'.file.read r.hdr.foff.toNat r.hdr.fsize.toNat = r.data
  others : ∀ a, a < doff.toNat ∨ doff.toNat + g.pendingBytes ≤ a → g'.file a = g.file a

/-- **A group without data.** Nothing is written, and nothing that was flushed before changes. -/
structure GroupIdle (g g' : Group) : Prop where
  earlier : List.Forall₂ (fun f f' => f'.wreqs.take f.nflushed = f.wreqs.take f.nflushed ∧
    f'.nflushed = f.nflushed) g.ranks g'.ranks
  file : g'.file = g.file

/-- The finished ranks of a group together. -/
theorem finished_ranks {fs fs' : List RankFile} {start : Nat}
    (h : List.Forall₂ (fun f' (p : RankFile × Nat) => FinishedAt p.2 p.1 f') fs'
      (fs.zip ((layout start (fs.map RankFile.pendingBytes)).map Prod.fst))) :
    List.Forall₂ (fun f f' => f'.wreqs.take f.nflushed = f.wreqs.take f.nflushed) fs fs' ∧
    (∀ f' ∈ fs', f'.nflushed = f'.wreqs.length) ∧
    List.Forall₂ WReq.SameBut (fs.flatMap RankFile.toFlush)
      (List.zipWith (fun f f' : RankFile => f'.wreqs.drop f.nflushed) fs fs').flatten ∧
    List.Forall₂ Lib.SamePlace
      ((List.zipWith (fun f f' : RankFile => f'.wreqs.drop f.nflushed) fs fs').flatten.map WReq.range)
      (layout start ((fs.flatMap RankFile.toFlush).map fun r => r.data.length)) := by
  induction fs generalizing fs' start with
  | nil =>
      cases h
      exact ⟨List.Forall₂.nil, fun _ h => absurd h List.not_mem_nil, List.Forall₂.nil, List.Forall₂.nil⟩
  | cons f fs ih =>
      rw [List.map_cons, layout, List.map_cons, List.zip_cons_cons] at h
      cases h with
      | @cons f' _ fs' _ hf hfs =>
          obtain ⟨hearlier, hnflushed, hsame, hplace⟩ := ih hfs
          refine ⟨hearlier.cons hf.earlier, List.forall_mem_cons.mpr ⟨hf.nflushed, hnflushed⟩, ?_, ?_⟩
          · rw [List.flatMap_cons, List.zipWith_cons_cons, List.flatten_cons]
            exact List.rel_append hf.sameBut hsame
          · rw [List.flatMap_cons, List.zipWith_cons_cons, List.flatten_cons, List.map_append,
              List.map_append, Lib.layout_append]
            exact List.rel_append hf.place hplace

/-- What the ranks of a group have adds up to the group's size. -/
theorem locals_sum {fs : List RankFile} {ls : List LocalFlush} (hls : List.Forall₂ LocalFlush.Of fs ls)
    (hlt : (fs.map RankFile.pendingBytes).sum < 2 ^ 64) :
    ((ls.map LocalFlush.fsizeLocal).sum).toNat = (fs.map RankFile.pendingBytes).sum := by
  have hsizes : fs.map RankFile.pendingBytes = (ls.map LocalFlush.fsizeLocal).map BitVec.toNat := by
    rw [List.map_map, ← List.forall₂_eq_eq_eq, List.forall₂_map_left_iff, List.forall₂_map_right_iff]
    exact hls.imp fun _ _ hl => hl.fsizeLocal.symm
  rw [hsizes] at hlt ⊢
  exact sum_toNat hlt

theorem flushGroup_flushed {g : Group} (hready : ∀ f ∈ g.ranks, f.Ready) {ls : List LocalFlush}
    (hls : List.Forall₂ LocalFlush.Of g.ranks ls) {doff : HSize}
    (hlt : doff.toNat + g.pendingBytes < 2 ^ 64) (hpos : 0 < g.pendingBytes) :
    GroupFlushed doff g (flushGroup doff ls g.file) := by
  have hzero : ((0 : MpiOffset) + doff).toNat = doff.toNat := by rw [zero_add]
  obtain ⟨hfin, hwrites⟩ := finish_ranks 0 doff hready hls (by rw [hzero]; exact hlt)
  rw [hzero] at hfin hwrites
  have hsum := locals_sum hls (lt_of_le_of_lt (Nat.le_add_left _ _) hlt)
  have hgroup : flushGroup doff ls g.file =
      { ranks := List.zipWith (fun l foffGroup => finishRank (foffGroup + doff) l.file) ls
          (exscan 0 (ls.map LocalFlush.fsizeLocal))
        file := g.file.writeAll (groupWrites doff ls) } := by
    rw [flushGroup, if_neg]
    intro h
    rw [h] at hsum
    exact hpos.ne hsum
  obtain ⟨hearlier, hnflushed, hsame, hplace⟩ := finished_ranks hfin
  -- the ranks' writes are one write of all the data
  have hfile : g.file.writeAll (groupWrites doff ls) =
      g.file.write doff.toNat ((g.ranks.flatMap RankFile.toFlush).map WReq.data).flatten := by
    have hlens : g.ranks.map RankFile.pendingBytes =
        (g.ranks.map fun f => (f.toFlush.map WReq.data).flatten).map List.length := by
      rw [List.map_map]
      refine List.map_congr_left fun f _ => ?_
      rw [Function.comp_apply, List.length_flatten, List.map_map]
      rfl
    rw [groupWrites, hwrites, hlens, Store.writeAll_layout]
    congr 1
    rw [List.flatMap_def, List.map_flatten, List.map_map, List.flatten_flatten, List.map_map]
    rfl
  have hdatas : (g.ranks.flatMap RankFile.toFlush).map WReq.data =
      (flushedBy g (flushGroup doff ls g.file)).map WReq.data := by
    rw [hgroup, ← List.forall₂_eq_eq_eq]
    exact List.forall₂_map_left_iff.mpr (List.forall₂_map_right_iff.mpr
      (hsame.imp fun _ _ h => (SameBut.data_eq h).symm))
  have hlens : (g.ranks.flatMap RankFile.toFlush).map (fun r => r.data.length) =
      ((g.ranks.flatMap RankFile.toFlush).map WReq.data).map List.length := by
    rw [List.map_map]
    rfl
  have htotal : ((g.ranks.flatMap RankFile.toFlush).map fun r => r.data.length).sum = g.pendingBytes := by
    rw [Group.pendingBytes, List.flatMap_def, List.map_flatten, List.sum_flatten, List.map_map,
      List.map_map]
    rfl
  have hplace' : List.Forall₂ Lib.SamePlace ((flushedBy g (flushGroup doff ls g.file)).map WReq.range)
      (layout doff.toNat ((g.ranks.flatMap RankFile.toFlush).map fun r => r.data.length)) := by
    rw [hgroup]
    exact hplace
  have hcover (a : Nat) := (Lib.mem_samePlace_iff hplace' (a := a)).trans Lib.mem_layout_iff
  have hread : ((g.file.write doff.toNat ((g.ranks.flatMap RankFile.toFlush).map
      WReq.data).flatten)).read doff.toNat ((g.ranks.flatMap RankFile.toFlush).map
      WReq.data).flatten.length = ((g.ranks.flatMap RankFile.toFlush).map WReq.data).flatten :=
    Store.read_write_self ..
  have hall := Store.read_samePlaces (hlens ▸ hplace') (Store.read_layout hread)
  rw [hdatas, List.forall₂_map_left_iff, List.forall₂_map_right_iff, List.forall₂_same,
    ← hdatas] at hall
  rw [htotal] at hcover
  refine ⟨?_, ?_, ?_, ?_, fun a => ?_, fun r hr => ?_, fun a ha => ?_⟩
  · rw [hgroup]
    exact hearlier
  · rw [hgroup]
    exact hnflushed
  · rw [hgroup]
    exact hsame
  · exact List.pairwise_map.mp (Lib.pairwise_of_samePlace hplace' (Lib.layout_pairwise ..))
  · rw [← hcover a]
    constructor
    · rintro ⟨r, hr, h⟩
      exact ⟨r.range, List.mem_map_of_mem hr, h⟩
    · rintro ⟨_, hmem, h⟩
      obtain ⟨r, hr, rfl⟩ := List.mem_map.mp hmem
      exact ⟨r, hr, h⟩
  · rw [hgroup, hfile]
    exact hall r hr
  · rw [hgroup, hfile]
    refine Store.write_of_not_mem ?_
    have hlen : ((g.ranks.flatMap RankFile.toFlush).map WReq.data).flatten.length = g.pendingBytes := by
      rw [← htotal, List.length_flatten, hlens]
    rw [hlen]
    exact ha

/-- The ranks of a group may write in any order. -/
theorem groupWrites_perm {g : Group} (hready : ∀ f ∈ g.ranks, f.Ready) {ls : List LocalFlush}
    (hls : List.Forall₂ LocalFlush.Of g.ranks ls) {doff : HSize}
    (hlt : doff.toNat + g.pendingBytes < 2 ^ 64) {ws : List (Nat × List UInt8)}
    (hws : (groupWrites doff ls).Perm ws) : g.file.writeAll ws = g.file.writeAll (groupWrites doff ls) := by
  have hzero : ((0 : MpiOffset) + doff).toNat = doff.toNat := by rw [zero_add]
  have hwrites := (finish_ranks 0 doff hready hls (by rw [hzero]; exact hlt)).2
  refine (Store.writeAll_perm hws ?_ g.file).symm
  rw [← List.pairwise_map (f := writeRange), groupWrites, hwrites, hzero]
  have hrange : ∀ (start : Nat) (fs : List RankFile),
      ((((layout start (fs.map RankFile.pendingBytes)).map Prod.fst).zip
        (fs.map fun f => (f.toFlush.map WReq.data).flatten)).map writeRange) =
        layout start (fs.map RankFile.pendingBytes) := by
    intro start fs
    induction fs generalizing start with
    | nil => rfl
    | cons f fs ih =>
        rw [List.map_cons, layout, List.map_cons, List.map_cons, List.zip_cons_cons, List.map_cons, ih]
        congr 1
        rw [writeRange, List.length_flatten, List.map_map]
        rfl
  rw [hrange]
  exact Lib.layout_pairwise ..

/-! ## §6 — all ranks. -/

theorem forall₂_getElem? {α β : Type} {R : α → β → Prop} {xs : List α} {ys : List β}
    (h : List.Forall₂ R xs ys) {k : Nat} {x : α} {y : β} (hx : xs[k]? = some x)
    (hy : ys[k]? = some y) : R x y := by
  obtain ⟨hkx, rfl⟩ := List.getElem?_eq_some_iff.mp hx
  obtain ⟨hky, rfl⟩ := List.getElem?_eq_some_iff.mp hy
  exact h.get hkx hky

theorem flushedBy_markDirty (g g' : Group) : flushedBy g g'.markDirty = flushedBy g g' := by
  rw [flushedBy, flushedBy, Group.markDirty, List.zipWith_map_right]

theorem GroupFlushed.markDirty {doff : HSize} {g g' : Group} (h : GroupFlushed doff g g') :
    GroupFlushed doff g g'.markDirty := by
  refine ⟨List.forall₂_map_right_iff.mpr h.earlier, List.forall_mem_map.mpr h.nflushed, ?_, ?_, ?_, ?_,
    h.others⟩
  · rw [flushedBy_markDirty]
    exact h.sameBut
  · rw [flushedBy_markDirty]
    exact h.disjoint
  · rw [flushedBy_markDirty]
    exact h.covers
  · rw [flushedBy_markDirty]
    exact h.holds

theorem idle_of_locals {g : Group} {ls : List LocalFlush}
    (hls : List.Forall₂ LocalFlush.Of g.ranks ls) :
    GroupIdle g ⟨ls.map LocalFlush.file, g.file⟩ :=
  ⟨List.forall₂_map_right_iff.mpr (hls.imp fun _ _ hl => ⟨hl.earlier, hl.nflushed⟩), rfl⟩

theorem GroupIdle.markDirty {g g' : Group} (h : GroupIdle g g') : GroupIdle g g'.markDirty :=
  ⟨List.forall₂_map_right_iff.mpr h.earlier, h.file⟩

/-- Numbers that are no greater, one by one, and add up to as much are the same. -/
theorem eq_of_sum_le {xs ys : List ℕ} (h : List.Forall₂ (· ≤ ·) xs ys) (hsum : ys.sum ≤ xs.sum) : xs = ys := by
  induction h with
  | nil => rfl
  | @cons x y xs ys hxy hrest ih =>
      have hle := hrest.sum_le_sum
      rw [List.sum_cons, List.sum_cons] at hsum
      rw [ih (by omega), show x = y by omega]

/-- `fsize_group`: the size of the log dataset that is made for a group. -/
def fsizeGroupOf (config : I32) (g : Group) : Except Fault MpiOffset := do
  let locals ← g.ranks.mapM (localFlush config)
  pure (locals.map LocalFlush.fsizeLocal).sum

/-- **The flush lays out the log**: in each group the log dataset is made for all the bytes that are queued; if there
are any, the requests flushed lie at pairwise disjoint places that make up exactly `[doff, doff + fsize_group)` of the
group's file and hold their data, and requests flushed earlier stay as they are; a group that has none is left alone. -/
def FlushLaysOut (config : I32) (doff : Nat → HSize) (groups : List Group) : Prop :=
  ∃ groups', flushWriteReqs config doff groups = .ok groups' ∧ groups'.length = groups.length ∧
    ∀ k g g', groups[k]? = some g → groups'[k]? = some g' →
      fsizeGroupOf config g = .ok (BitVec.ofNat 64 g.pendingBytes) ∧
      (0 < g.pendingBytes → GroupFlushed (doff k) g g') ∧ (g.pendingBytes = 0 → GroupIdle g g')

section Layout

variable {config : I32} {doff : Nat → HSize} {groups : List Group}
  (hready : ∀ g ∈ groups, ∀ f ∈ g.ranks, f.Ready) (hall : (groups.map Group.pendingBytes).sum < 2 ^ 63)
include hready hall

omit hready in
theorem group_pendingBytes_lt {g : Group} (hg : g ∈ groups) : g.pendingBytes < 2 ^ 63 :=
  lt_of_le_of_lt (List.le_sum_of_mem (List.mem_map_of_mem hg)) hall

omit hready in
theorem rank_pendingBytes_lt {g : Group} (hg : g ∈ groups) {f : RankFile} (hf : f ∈ g.ranks) :
    f.pendingBytes < 2 ^ 64 := by
  have hf' : f.pendingBytes ≤ g.pendingBytes := List.le_sum_of_mem (List.mem_map_of_mem hf)
  have := group_pendingBytes_lt hall hg
  omega

/-- When all queues are counted, the flush lays out the log. -/
theorem layout_of_counted (hspace : ∀ k g, groups[k]? = some g → (doff k).toNat + g.pendingBytes < 2 ^ 63)
    (hcounted : ∀ g ∈ groups, ∀ f ∈ g.ranks, f.Counted) : FlushLaysOut config doff groups := by
  have hgroup : ∀ g ∈ groups, ∃ ls, g.ranks.mapM (localFlush config) = .ok ls ∧
      List.Forall₂ LocalFlush.Of g.ranks ls := by
    intro g hg
    refine Lib.exists_mapM_ok fun f hf => ?_
    exact localFlush_of config (hready g hg f hf) (rank_pendingBytes_lt hall hg hf) (hcounted g hg f hf)
  obtain ⟨locals, hlocals, hof⟩ := Lib.exists_mapM_ok hgroup
  have hlen := hof.length_eq
  have hofAt {k : Nat} {g : Group} {ls : List LocalFlush} (hg : groups[k]? = some g)
      (hl : locals[k]? = some ls) : List.Forall₂ LocalFlush.Of g.ranks ls :=
    forall₂_getElem? hof hg hl
  -- the sum over all ranks
  have hsum : ((locals.flatten.map LocalFlush.fsizeLocal).sum).toNat =
      (groups.map Group.pendingBytes).sum := by
    have hflat : List.Forall₂ LocalFlush.Of (groups.flatMap Group.ranks) locals.flatten := by
      rw [List.flatMap_def]
      exact List.rel_flatten (List.forall₂_map_left_iff.mpr hof)
    have htotal : ((groups.flatMap Group.ranks).map RankFile.pendingBytes).sum =
        (groups.map Group.pendingBytes).sum := by
      rw [List.flatMap_def, List.map_flatten, List.sum_flatten, List.map_map, List.map_map]
      rfl
    rw [locals_sum hflat (by rw [htotal]; omega), htotal]
  have hlocal {k : Nat} {g : Group} (hg : groups[k]? = some g) : ∃ ls, locals[k]? = some ls := by
    have hk := (List.getElem?_eq_some_iff.mp hg).1
    exact ⟨_, List.getElem?_eq_getElem (hlen ▸ hk)⟩
  have hsize {k : Nat} {g : Group} (hg : groups[k]? = some g) :
      fsizeGroupOf config g = .ok (BitVec.ofNat 64 g.pendingBytes) := by
    obtain ⟨ls, hls, hof⟩ := hgroup g (List.mem_of_getElem? hg)
    have hlt := group_pendingBytes_lt hall (List.mem_of_getElem? hg)
    rw [fsizeGroupOf, hls]
    refine congrArg Except.ok (BitVec.eq_of_toNat_eq ?_)
    have hlt' : g.pendingBytes < 2 ^ 64 := by omega
    rw [locals_sum hof hlt', BitVec.toNat_ofNat]
    exact (Nat.mod_eq_of_lt hlt').symm
  by_cases hzero : (locals.flatten.map LocalFlush.fsizeLocal).sum = 0
  · refine ⟨List.zipWith (fun ls g => ⟨ls.map LocalFlush.file, g.file⟩) locals groups, ?_, ?_, ?_⟩
    · rw [flushWriteReqs, hlocals]
      exact if_pos hzero
    · rw [List.length_zipWith, ← hlen, min_self]
    · intro k g g' hg hg'
      obtain ⟨ls, hls⟩ := hlocal hg
      rw [List.getElem?_zipWith, hls, hg] at hg'
      obtain rfl := Option.some.inj hg'
      have hnone : (groups.map Group.pendingBytes).sum = 0 := by
        rw [← hsum, hzero]
        rfl
      have hidle : g.pendingBytes = 0 := Nat.le_zero.mp (hnone ▸ List.le_sum_of_mem
        (List.mem_map_of_mem (List.mem_of_getElem? hg)))
      refine ⟨hsize hg, fun hpos => absurd hidle hpos.ne', fun _ => idle_of_locals (hofAt hg hls)⟩
  · refine ⟨(locals.zip groups).mapIdx fun k lg => (flushGroup (doff k) lg.1 lg.2.file).markDirty,
      ?_, ?_, ?_⟩
    · rw [flushWriteReqs, hlocals]
      exact if_neg hzero
    · rw [List.length_mapIdx, List.length_zip, ← hlen, min_self]
    · intro k g g' hg hg'
      obtain ⟨ls, hls⟩ := hlocal hg
      have hzip : (locals.zip groups)[k]? = some (ls, g) := by
        rw [List.getElem?_zip_eq_some]
        exact ⟨hls, hg⟩
      rw [List.getElem?_mapIdx, hzip] at hg'
      obtain rfl := Option.some.inj hg'
      have hrdy := hready g (List.mem_of_getElem? hg)
      have hfit := hspace k g hg
      refine ⟨hsize hg, fun hpos => (flushGroup_flushed hrdy (hofAt hg hls) (by omega) hpos).markDirty,
        fun hnone => ?_⟩
      have hls0 : (ls.map LocalFlush.fsizeLocal).sum = 0 := by
        apply BitVec.eq_of_toNat_eq
        have hnone' : (g.ranks.map RankFile.pendingBytes).sum = 0 := hnone
        rw [locals_sum (hofAt hg hls) (by rw [hnone']; decide), hnone']
        rfl
      have hsame : flushGroup (doff k) ls g.file = ⟨ls.map LocalFlush.file, g.file⟩ := by
        rw [flushGroup, if_pos hls0]
      show GroupIdle g (flushGroup (doff k) ls g.file).markDirty
      rw [hsame]
      exact (idle_of_locals (hofAt hg hls)).markDirty

/-- **When the flush lays out the log**: when, and only when, `int`s count the requests and the data blocks of every
rank. -/
theorem flushWriteReqs_layout_iff (hspace : ∀ k g, groups[k]? = some g → (doff k).toNat + g.pendingBytes < 2 ^ 63) :
    FlushLaysOut config doff groups ↔ ∀ g ∈ groups, ∀ f ∈ g.ranks, f.Counted := by
  refine ⟨?_, layout_of_counted hready hall hspace⟩
  rintro ⟨groups', hrun, hlen, hlaid⟩ g hg f hf
  obtain ⟨k, hk⟩ := List.getElem?_of_mem hg
  have hk' : k < groups'.length := by
    rw [hlen]
    exact (List.getElem?_eq_some_iff.mp hk).1
  obtain ⟨hsize, -⟩ := hlaid k g _ hk (List.getElem?_eq_getElem hk')
  have hlt := group_pendingBytes_lt hall hg
  -- every rank brings no more than it has, and together they bring all of it
  obtain ⟨ls, hls, hsum⟩ := Lib.bind_eq_ok.mp hsize
  have hranks := Lib.mapM_eq_ok_iff.mp hls
  have hbrings : List.Forall₂ (fun f (l : LocalFlush) => l.fsizeLocal.toNat ≤ f.pendingBytes ∧
      (l.fsizeLocal.toNat = f.pendingBytes → f.Counted)) g.ranks ls := by
    rw [List.forall₂_iff_zip]
    refine ⟨hranks.length_eq, ?_⟩
    intro f l hmem
    have hf := (List.of_mem_zip hmem).1
    obtain ⟨hreqs, hbrought⟩ := localFlush_cases ((List.forall₂_iff_zip.mp hranks).2 hmem)
    rcases hbrought with ⟨hnone, rfl⟩ | ⟨-, hfew, bytes, rfl⟩
    · refine ⟨Nat.zero_le _, ?_⟩
      intro hempty
      exact ⟨hreqs, Or.inr ⟨blockCount_eq_zero_iff.mp hnone, hempty.symm⟩⟩
    · refine ⟨(fsize_sum (hready g hg f hf) (rank_pendingBytes_lt hall hg hf)).le, ?_⟩
      exact fun _ => ⟨hreqs, Or.inl hfew⟩
  have hle : List.Forall₂ (· ≤ ·) ((ls.map LocalFlush.fsizeLocal).map BitVec.toNat)
      (g.ranks.map RankFile.pendingBytes) := by
    rw [List.map_map, List.forall₂_map_left_iff, List.forall₂_map_right_iff]
    exact hbrings.flip.imp fun _ _ h => h.1
  have htotal : ((ls.map LocalFlush.fsizeLocal).map BitVec.toNat).sum = g.pendingBytes := by
    have hup : ((ls.map LocalFlush.fsizeLocal).map BitVec.toNat).sum ≤ g.pendingBytes := hle.sum_le_sum
    have heq := congrArg BitVec.toNat (Except.ok.inj hsum)
    rw [sum_toNat (by omega), BitVec.toNat_ofNat, Nat.mod_eq_of_lt (by omega)] at heq
    exact heq
  have hsame := eq_of_sum_le hle htotal.ge
  rw [List.map_map, ← List.forall₂_eq_eq_eq, List.forall₂_map_left_iff, List.forall₂_map_right_iff] at hsame
  obtain ⟨n, hn, rfl⟩ := List.mem_iff_getElem.mp hf
  have hn' : n < ls.length := hbrings.length_eq ▸ hn
  exact (hbrings.get hn hn').2 (hsame.get hn' hn)

end Layout

/-- A request with one block of data. -/
def sampleReq (bytes : List UInt8) : WReq :=
  { hdr := ⟨0, 0, 0, 0, BitVec.ofNat 64 bytes.length⟩, body := [], selOff := sizeofHdr, nsel := 1
    metaOff := 0, dbufs := [⟨bytes, BitVec.ofNat 64 bytes.length, none⟩] }

/-- A rank whose queue is one request. -/
def sampleRank (bytes : List UInt8) : RankFile :=
  { dsetsInfo := [], wreqs := [sampleReq bytes], nflushed := 0, mreqs := [], mdsize := 0, wreqHash := []
    bused := 0, zbsize := 0, zbuf := false, nldset := 0, metadirty := false }

/-- Two ranks that share a file. -/
def sampleGroup : Group := ⟨[sampleRank [1, 2], sampleRank [3]], fun _ => 0⟩

theorem sampleRank_ready {bytes : List UInt8} (hlt : bytes.length < 2 ^ 31) : (sampleRank bytes).Ready := by
  refine ⟨Nat.zero_le _, fun r hr => ?_⟩
  obtain rfl := List.mem_singleton.mp hr
  refine ⟨(add_zero _).symm, fun d hd => ?_⟩
  obtain rfl := List.mem_singleton.mp hd
  show bytes.length = (BitVec.ofNat 64 bytes.length).toNat ∧ _
  rw [BitVec.toNat_ofNat, Nat.mod_eq_of_lt (by omega)]
  exact ⟨rfl, hlt⟩

theorem flushWriteReqs_layout_sample : FlushLaysOut 0 (fun _ => 100) [sampleGroup] := by
  have hready : ∀ g ∈ [sampleGroup], ∀ f ∈ g.ranks, f.Ready := by
    intro g hg f hf
    obtain rfl := List.mem_singleton.mp hg
    rcases List.mem_pair.mp hf with rfl | rfl
    · exact sampleRank_ready (by decide)
    · exact sampleRank_ready (by decide)
  have hspace : ∀ (k : Nat) (g : Group), [sampleGroup][k]? = some g →
      (100#64 : HSize).toNat + g.pendingBytes < 2 ^ 63 := by
    intro k g hg
    obtain rfl := List.mem_singleton.mp (List.mem_of_getElem? hg)
    decide
  apply (flushWriteReqs_layout_iff hready (by decide) hspace).mpr
  intro g hg f hf
  obtain rfl := List.mem_singleton.mp hg
  rcases List.mem_pair.mp hf with rfl | rfl
  · exact ⟨fun _ => by decide, Or.inl (by decide)⟩
  · exact ⟨fun _ => by decide, Or.inl (by decide)⟩

/-- A request of `n` elements that were merged, one byte each. -/
def mergedReq (n : Nat) : WReq where
  hdr := ⟨BitVec.ofNat 32 (32 + 16 * n), 0, MetaFlag.mulSel, 0, BitVec.ofNat 64 n⟩
  body := Lib.putWord sizeofInt (BitVec.ofNat 32 n) ++ List.replicate (16 * n) 0
  selOff := sizeofHdr
  nsel := n
  metaOff := 0
  dbufs := List.replicate n ⟨[7], 1, none⟩

/-- A rank with such a request for each of `m` datasets. -/
def manyBlocks (m n : Nat) : RankFile := { sampleRank [] with wreqs := List.replicate m (mergedReq n) }

theorem mergedReq_ready (n : Nat) : (mergedReq n).Ready := by
  constructor
  · show BitVec.ofNat 64 n = ((List.replicate n (⟨[7], 1, none⟩ : DataBlock)).map DataBlock.size).sum
    rw [List.map_replicate, List.sum_replicate, nsmul_eq_mul, mul_one]
    rfl
  · intro d hd
    rw [List.eq_of_mem_replicate hd]
    exact ⟨rfl, Nat.one_lt_two_pow (by decide)⟩

section ManyBlocks

variable (m n : Nat)

theorem manyBlocks_toFlush : (manyBlocks m n).toFlush = List.replicate m (mergedReq n) := by
  show (List.replicate m (mergedReq n) ++ []).drop 0 = _
  rw [List.append_nil, List.drop_zero]

theorem manyBlocks_length : ((manyBlocks m n).toFlush.flatMap WReq.dbufs).length = m * n := by
  rw [manyBlocks_toFlush, List.length_flatMap, List.map_replicate, List.sum_replicate]
  simp [mergedReq]

theorem manyBlocks_pendingBytes : (manyBlocks m n).pendingBytes = m * n := by
  rw [RankFile.pendingBytes, manyBlocks_toFlush, List.map_replicate, List.sum_replicate]
  simp [mergedReq, WReq.data]

theorem manyBlocks_ready : (manyBlocks m n).Ready := by
  refine ⟨Nat.zero_le _, fun r hr => ?_⟩
  rw [manyBlocks_toFlush] at hr
  rw [List.eq_of_mem_replicate hr]
  exact mergedReq_ready n

end ManyBlocks

/-- **32 datasets with `2 ^ 26` merged elements each**: there are as many bytes as blocks, and the number of blocks is
negative in an `int`. -/
theorem manyBlocks_uncounted : (manyBlocks 32 (2 ^ 26)).Ready ∧ (manyBlocks 32 (2 ^ 26)).pendingBytes = 2 ^ 31 ∧
    ¬ FlushLaysOut 0 (fun _ => 100) [⟨[manyBlocks 32 (2 ^ 26)], fun _ => 0⟩] := by
  have hlen := manyBlocks_length 32 (2 ^ 26)
  refine ⟨manyBlocks_ready _ _, (manyBlocks_pendingBytes _ _).trans (by norm_num), ?_⟩
  generalize manyBlocks 32 (2 ^ 26) = f at hlen ⊢
  rintro ⟨groups', hrun, -⟩
  obtain ⟨locals, hlocals, -⟩ := Lib.bind_eq_ok.mp hrun
  rcases Lib.mapM_eq_ok_iff.mp hlocals with _ | ⟨hls, _⟩
  rcases Lib.mapM_eq_ok_iff.mp hls with _ | ⟨hl, _⟩
  rcases (localFlush_cases hl).2 with ⟨hnone, -⟩ | ⟨-, hfew, -⟩
  · rw [blockCount_eq_zero_iff, hlen] at hnone
    norm_num at hnone
  · rw [hlen] at hfew
    norm_num at hfew

end LogVol
