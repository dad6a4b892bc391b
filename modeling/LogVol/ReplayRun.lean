/-
# LogVol.ReplayRun — a replay of the log.

`h5lreplay_core` parses the metadata, reads the data of every entry and writes its blocks to a file without a log.
Each process does so with its sections of every metadata dataset, and the processes write when they come to it.
The sections of a file are the ranks', one after another, so the flushes in between do not show: what a replay
leaves is what the file of elements has after the same run without them (`replayed`). Reads return the same if no
rank overwrites what a higher one had flushed (`replayed_reads`).
-/
import LogVol.ReadBack
import LogVol.ReplayData
import LogVol.ReplayPartition

namespace LogVol

open Lib (assign cut Store RangesDisjoint Interleaves)

/-! ## §1 — the index. -/

/-- `reqs[hdr->did].insert (block)`. -/
def insertReq (reqs : List (List MetaEntry)) (block : MetaEntry) : List (List MetaEntry) :=
  reqs.modify block.hdr.did.toNat (· ++ [block])

/-- Entries that are inserted one after another. -/
def insertReqs (ndset : ℕ) (blocks : List MetaEntry) : List (List MetaEntry) :=
  blocks.foldl insertReq (List.replicate ndset [])

/-- The index has the entries of each dataset, in the order of the metadata. -/
theorem insertReqs_eq (ndset : ℕ) (blocks : List MetaEntry) :
    insertReqs ndset blocks = (List.range ndset).map fun i => blocks.filter fun b => b.hdr.did.toNat = i := by
  induction blocks using List.reverseRecOn with
  | nil => simp [insertReqs]
  | append_singleton blocks b ih =>
    rw [insertReqs, List.foldl_append, ← insertReqs, ih]
    apply List.ext_getElem
    · simp [insertReq]
    · intro k hk hk'
      simp only [List.foldl_cons, List.foldl_nil, insertReq, List.getElem_modify]
      by_cases hb : b.hdr.did.toNat = k
      · simp [hb]
      · simp [hb]

/-! ## §2 — the writes. -/

/-- What an `H5Dwrite` puts into elements. -/
abbrev BlockWrite := List (Elem × Option (List UInt8))

/-- A block of the dataset with the number `did`. -/
def MetaSel.inDset (dset : DsetInfo) (sel : MetaSel) : Block := ⟨sel.start.take dset.ndim, sel.count.take dset.ndim⟩

/-- The block is inside of the dataset. -/
def Block.insideOf (b : Block) (dset : DsetInfo) : Bool :=
  (b.box.zip dset.dims).all fun p => p.1.1 + p.1.2 ≤ p.2.toNat

/-- **`H5Dwrite`** of a block of dataset `i`, from `buf` on. The memory is an array of `INT_MAX` elements, of which
the first `msize` are selected; a count of zero selects nothing. -/
def writeSel (i : ℕ) (dset : DsetInfo) (msize : HSize) (mem : Store) (sel : MetaSel) (buf : ℕ) :
    Except Fault BlockWrite :=
  let b := sel.inDset dset
  if sel.start.length < dset.ndim ∨ sel.count.length < dset.ndim then .error .outside
  else if 0 ∈ b.count ∧ msize = 0 then .ok []
  else if msize.toNat ≠ (b.count.map BitVec.toNat).prod ∨ 2 ^ 31 ≤ msize.toNat ∨ b.insideOf dset = false then
    .error (.raised "H5Dwrite")
  else .ok (b.box.cells.mapIdx fun n y =>
    ((i, y), some (mem.read (buf + dset.esize.toNat * n) dset.esize.toNat)))

/-- The blocks of an entry of dataset `i`; `msize` goes by the dataset of the entry. -/
def writeReqSels (dsets : List DsetInfo) (mem : Store) (i : ℕ) (dset : DsetInfo) (req : MetaEntry) (b : ReqBuf) :
    Except Fault (List BlockWrite) := do
  let own ← replayDset dsets req.hdr.did
  (req.sels.zip b.bufs).mapM fun s =>
    if s.1.count.length < own.ndim then .error .outside
    else writeSel i dset ((s.1.count.take own.ndim).foldl (· * ·) 1) mem s.1 s.2

/-- The entries in the order in which they are written, each with its dataset. -/
def writeOrder (dsets : List DsetInfo) (reqs : List (List MetaEntry)) : List ((ℕ × DsetInfo) × MetaEntry) :=
  ((dsets.zip reqs).zipIdx.map fun p => p.1.2.map fun req => ((p.2, p.1.1), req)).flatten

/-- **`h5lreplay_write_data`** — the blocks of all datasets, as they are written. -/
def writeData (dsets : List DsetInfo) (mem : Store) (reqs : List (List MetaEntry)) (bufs : List ReqBuf) :
    Except Fault (List BlockWrite) := do
  let written ← ((writeOrder dsets reqs).zip bufs).mapM fun r => writeReqSels dsets mem r.1.1.1 r.1.1.2 r.1.2 r.2
  pure written.flatten

/-- **`h5lreplay_core`** of a file without subfiles, in process `rank` of `np`: the blocks it writes, in order. -/
def replayCore (unfilter : Unfilter) (malloc : ℕ → ℕ) (z : Option Zlib) (config : I32) (dsets : List DsetInfo)
    (rank np : I32) (fin mem : Store) (mdsets : List (List UInt8)) : Except Fault (List BlockWrite) := do
  let placed ← parseMeta z config dsets rank np mdsets
  let reqs := insertReqs dsets.length (placed.flatten.map Prod.snd)
  let read ← readData unfilter malloc dsets fin mem reqs
  writeData dsets read.1 reqs read.2

/-! ## §3 — what a process parses. -/

/-- The sections of process `r` of `np`. -/
def sectionsOf {α : Type} (np r : ℕ) (secs : List (List α)) : List α :=
  ((secs.take (cut secs.length np (r + 1))).drop (cut secs.length np r)).flatten

theorem sectionsOf_map {α β : Type} (f : α → β) (np r : ℕ) (secs : List (List α)) :
    sectionsOf np r (secs.map fun s => s.map f) = (sectionsOf np r secs).map f := by
  rw [sectionsOf, sectionsOf, List.length_map, List.map_flatten, List.map_drop, List.map_take]

/-- The parts of all processes are all sections. -/
theorem flatMap_sectionsOf {α : Type} {np : ℕ} (hnp : 0 < np) (secs : List (List α)) :
    (List.range np).flatMap (fun r => sectionsOf np r secs) = secs.flatten := by
  have hslices := Lib.flatMap_slices secs (Lib.cut_zero secs.length np) (Lib.cut_le_succ secs.length np) np
  rw [Lib.cut_self hnp, List.take_length] at hslices
  conv_rhs => rw [← hslices]
  simp only [sectionsOf, List.flatMap_def, List.flatten_flatten, List.map_map, Function.comp_def]

theorem placeEntries_snd {E : Type} {rs : List WReq} {os : List (Option E)} (hlen : os.length = rs.length)
    (pos : ℤ) : (placeEntries pos rs os).map Prod.snd = os.reduceOption := by
  induction rs generalizing os pos with
  | nil =>
    rw [List.length_nil, List.length_eq_zero_iff] at hlen
    rw [hlen]
    rfl
  | cons r rs ih =>
    rcases os with _ | ⟨o, os⟩
    · cases hlen
    · rw [placeEntries, List.map_append, ih (Nat.succ.inj hlen)]
      cases o <;> simp [List.reduceOption]

/-- **What a process parses**: the entries of its sections of every metadata dataset. -/
theorem parseMeta_parts {z : Option Zlib} {config : I32} {rdsets : List DsetInfo} {np r : ℕ}
    (hconfig : hasFlag config FileConfig.metadataShare = false) (hr : r < np) (hnp : np < 2 ^ 31)
    {Ds : List (MetaDset (listParser z) false (rdsets.map some))} (hfew : ∀ D ∈ Ds, np ≤ D.nsec)
    (hsmall : ∀ D ∈ Ds, D.content.length < 2 ^ 31) : ∃ placed,
      parseMeta z config rdsets (BitVec.ofNat 32 r) (BitVec.ofNat 32 np) (Ds.map MetaDset.content) = .ok placed ∧
        placed.flatten.map Prod.snd = (Ds.flatMap fun D => sectionsOf np r D.held).reduceOption := by
  refine ⟨Ds.map fun D => D.runOf np r, ?_, ?_⟩
  · rw [parseMeta, List.mapM_map, Lib.mapM_eq_ok_iff, List.forall₂_map_right_iff, List.forall₂_same]
    intro D hD
    have hone : D.strideAt np (D.firstSec np r) = 1 := by rw [MetaDset.strideAt, if_pos (hfew D hD)]
    have hend : D.secStart (D.endSec np r) < 2 ^ 31 := by
      have hmono := D.secStart_mono (D.endSec_le hr (by have := hfew D hD; omega))
      rw [← MetaDset.content_length] at hmono
      exact lt_of_le_of_lt hmono (hsmall D hD)
    have hpos : 0 < D.nsec := lt_of_lt_of_le (Nat.zero_lt_of_lt hr) (hfew D hD)
    refine (D.parseMetaDset_small hconfig hr hnp hpos hend _).mpr ⟨rfl, ?_⟩
    rw [hone]
    intro _
    decide
  · rw [← List.flatMap_def, List.map_flatMap, List.reduceOption, List.filterMap_flatMap]
    apply List.flatMap_congr
    intro D hD
    have hpos : 0 < D.nsec := lt_of_lt_of_le (Nat.zero_lt_of_lt hr) (hfew D hD)
    have hrun := D.placeEntries_run (D.firstSec_le_endSec np r) (D.endSec_le hr hpos)
    have hheld := (D.run_holds (D.firstSec np r) (D.endSec np r)).length_eq
    rw [MetaDset.runOf, ← hrun, placeEntries_snd hheld]
    rw [sectionsOf, D.held_length, MetaDset.endSec, if_pos (hfew D hD), MetaDset.firstSec]
    rfl

/-! ## §4 — the blocks of a write. -/

/-- A write inside of its dataset: every block has elements, and they are in its dimensions. -/
def WriteCall.Inside (dip : DsetInfo) (c : WriteCall) : Prop :=
  ∀ b ∈ c.sels.sels, 0 < b.elems ∧ b.insideOf dip = true

/-- A block of the right rank is written. -/
theorem writeSel_ok {i : ℕ} {dset : DsetInfo} {b : Block}
    (hrank : b.start.length = dset.ndim ∧ b.count.length = dset.ndim)
    (hpos : 0 < b.elems) (hinside : b.insideOf dset = true) (hlt : b.elems < 2 ^ 31) (doff : MpiOffset)
    (mem : Store) (buf : ℕ) :
    writeSel i dset ((b.count.take dset.ndim).foldl (· * ·) 1) mem ⟨b.start, b.count, doff⟩ buf =
      .ok (b.box.cells.mapIdx fun n y =>
        ((i, y), some (mem.read (buf + dset.esize.toNat * n) dset.esize.toNat))) := by
  have hstart : b.start.take dset.ndim = b.start := List.take_of_length_le hrank.1.le
  have hcount : b.count.take dset.ndim = b.count := List.take_of_length_le hrank.2.le
  have hblock : (⟨b.start, b.count, doff⟩ : MetaSel).inDset dset = b := by
    rw [MetaSel.inDset, hstart, hcount]
  -- The product of the counts fits an `int`, so it is the number of elements.
  have hsize : (b.count.foldl (· * ·) 1).toNat = b.elems := by
    have hselSize : b.selSize = BitVec.ofNat 64 b.elems := by
      rw [selSize_eq (hrank.1.trans hrank.2.symm), elems_eq (hrank.1.trans hrank.2.symm)]
    rw [← Block.selSize, hselSize, BitVec.toNat_ofNat, Nat.mod_eq_of_lt (by omega)]
  have hsome : ¬ (0 ∈ b.count ∧ b.count.foldl (· * ·) 1 = 0) := by
    rintro ⟨-, hzero⟩
    rw [hzero] at hsize
    simp at hsize
    omega
  have hfits : ¬ ((b.count.foldl (· * ·) 1).toNat ≠ (b.count.map BitVec.toNat).prod ∨
      2 ^ 31 ≤ (b.count.foldl (· * ·) 1).toNat ∨ b.insideOf dset = false) := by
    rw [hsize, hinside]
    rintro (hne | hle | hout)
    · exact hne rfl
    · exact absurd hle (not_le.mpr hlt)
    · cases hout
  unfold writeSel
  rw [hblock, hcount]
  dsimp only
  rw [if_neg (by rw [hrank.1, hrank.2]; simp), if_neg hsome, if_neg hfits]

/-- What is written for the blocks of an entry, from buffers that hold `data`. Induction on the blocks. -/
theorem writeSels_ok {i : ℕ} {dset own : DsetInfo} (hown : own.ndim = dset.ndim) {mem : Store} {bs : List Block}
    (hblocks : ∀ b ∈ bs, (b.start.length = dset.ndim ∧ b.count.length = dset.ndim) ∧ 0 < b.elems ∧
      b.insideOf dset = true ∧ b.elems < 2 ^ 31) {doff : MpiOffset} {bufs : List ℕ} {data : List UInt8}
    (hlen : bufs.length = bs.length)
    (hdata : data.length = (bs.map fun b => dset.esize.toNat * b.elems).sum)
    (hholds : (bufs.zip (bs.map fun b => dset.esize.toNat * b.elems)).map (fun r => mem.read r.1 r.2) =
      (bs.map fun b => dset.esize.toNat * b.elems).splitLengths data) :
    ∃ writes, ((placeSels dset.esize doff bs).zip bufs).mapM (fun s =>
        if s.1.count.length < own.ndim then .error .outside
        else writeSel i dset ((s.1.count.take own.ndim).foldl (· * ·) 1) mem s.1 s.2) = .ok writes ∧
      writes.flatten = (requestElems bs).mapIdx fun n y =>
        ((i, y), some ((data.drop (dset.esize.toNat * n)).take dset.esize.toNat)) := by
  induction bs generalizing doff bufs data with
  | nil => exact ⟨[], rfl, rfl⟩
  | cons b bs ih =>
    rcases bufs with _ | ⟨buf, bufs⟩
    · cases hlen
    rw [List.forall_mem_cons] at hblocks
    obtain ⟨⟨hrank, hpos, hinside, hlt⟩, hrest⟩ := hblocks
    rw [List.map_cons, List.sum_cons] at hdata
    rw [List.map_cons, List.zip_cons_cons, List.map_cons, List.splitLengths_cons] at hholds
    obtain ⟨hfirst, hothers⟩ := List.cons.inj hholds
    rcases @ih hrest (blockBytes dset.esize b.count + doff) bufs (data.drop (dset.esize.toNat * b.elems))
      (Nat.succ.inj hlen) (by rw [List.length_drop]; omega) hothers with ⟨writes, hwrites, hflat⟩
    have hcells := elems_eq (hrank.1.trans hrank.2.symm)
    refine ⟨(b.box.cells.mapIdx fun n y =>
      ((i, y), some (mem.read (buf + dset.esize.toNat * n) dset.esize.toNat))) :: writes, ?_, ?_⟩
    · rw [placeSels, List.zip_cons_cons, List.mapM_cons, if_neg (by rw [hown, hrank.2]; exact lt_irrefl _), hown,
        writeSel_ok hrank hpos hinside hlt, Lib.ok_bind]
      rw [hown] at hwrites
      rw [hwrites]
      rfl
    · -- the elements of the first block, and those behind
      have helems : requestElems (b :: bs) = b.box.cells ++ requestElems bs := rfl
      rw [List.flatten_cons, hflat, helems, List.mapIdx_append]
      congr 1
      · apply List.ext_getElem
        · simp
        · intro n hn hn'
          rw [List.length_mapIdx, ← hcells] at hn
          have hroom : dset.esize.toNat * n + dset.esize.toNat ≤ dset.esize.toNat * b.elems := by
            rw [← Nat.mul_succ]
            exact Nat.mul_le_mul_left _ hn
          rw [List.getElem_mapIdx, List.getElem_mapIdx, ← drop_take_read mem buf hroom, hfirst, List.drop_take,
            List.take_take, min_eq_left (by omega)]
      · have hshift : ∀ n, n + b.box.cells.length = b.elems + n := by
          intro n
          omega
        simp only [hshift, List.drop_drop, Nat.mul_add]

/-! ## §5 — the entries of a file. -/

/-- The buffers of the entries do not overlap. -/
def BuffersApart (dsets : List DsetInfo) (malloc : ℕ → ℕ) (reqs : List MetaEntry) : Prop :=
  reqs.zipIdx.Pairwise fun p q => ∀ d e, replayDset dsets p.1.hdr.did = .ok d →
    replayDset dsets q.1.hdr.did = .ok e →
      RangesDisjoint (malloc p.2, (bufSize d p.1).toNat) (malloc q.2, (bufSize e q.1).toNat)

section Entries

variable {unfilter : Unfilter} {rdsets : List DsetInfo} {fin : Store}

/-- The entry is that of a write of unfiltered data, inside of its dataset. -/
structure StandsFor (env : FileEnv) (c : WriteCall) (e : LoggedEntry unfilter rdsets fin) : Prop where
  did : e.req.hdr.did.toNat = c.did
  dset : rdsets[c.did]? = some e.dset
  storable : c.Storable env e.dset
  sels : e.req.sels = placeSels e.dset.esize 0 c.sels.sels
  data : e.data = c.data
  whole : e.req.hdr.fsize.toNat = c.data.length
  inside : c.Inside e.dset

theorem selSizes_placeSels {dip : DsetInfo} {bs : List Block} (hrank : ∀ b ∈ bs, b.count.length = dip.ndim)
    (doff : MpiOffset) :
    selSizes dip (placeSels dip.esize doff bs) = bs.map fun b => dip.esize.toNat * b.elems := by
  induction bs generalizing doff with
  | nil => rfl
  | cons b bs ih =>
    rw [List.forall_mem_cons] at hrank
    rw [placeSels, selSizes_cons, ih hrank.2, List.map_cons, selBlock, List.take_of_length_le hrank.1.le]

section Stands

variable {env : FileEnv} {c : WriteCall} {e : LoggedEntry unfilter rdsets fin} (h : StandsFor env c e)
include h

theorem StandsFor.rank : ∀ b ∈ c.sels.sels, b.start.length = e.dset.ndim ∧ b.count.length = e.dset.ndim := by
  intro b hb
  rw [← h.storable.rank]
  exact c.sels.rank_eq b hb

theorem StandsFor.sizes :
    selSizes e.dset e.req.sels = c.sels.sels.map fun b => e.dset.esize.toNat * b.elems := by
  rw [h.sels, selSizes_placeSels fun b hb => (h.rank b hb).2]

/-- No data is cut off, and no filter was applied. -/
theorem StandsFor.intact : e.Intact := by
  have hlt := h.storable.data_lt
  rw [e.intact_iff (by rw [h.whole]; exact hlt)]
  have hstored : e.stored = e.data := e.logged.stored_eq h.storable.unfiltered
  refine ⟨?_, ?_, ?_⟩
  · rw [h.sels, ne_eq, ← List.length_eq_zero_iff, placeSels_length, List.length_eq_zero_iff]
    exact storable_nonempty h.storable
  · rw [h.data, h.whole]
  · rw [hstored, List.take_length]

/-- **What is written for an entry** whose buffer holds its data. -/
theorem StandsFor.written {mem : Store} {b : ReqBuf} (hheld : e.HeldIn mem b) :
    ∃ writes, writeReqSels rdsets mem c.did e.dset e.req b = .ok writes ∧
      writes.flatten = c.assigns (esizeOf (rdsets.map some)) := by
  have hdata := e.logged.data_length
  have hholds := hheld.holds
  have hlen := hheld.bufs_length
  rw [h.sizes] at hdata hholds
  rw [h.sels, placeSels_length] at hlen
  have hblocks : ∀ b ∈ c.sels.sels, (b.start.length = e.dset.ndim ∧ b.count.length = e.dset.ndim) ∧ 0 < b.elems ∧
      b.insideOf e.dset = true ∧ b.elems < 2 ^ 31 := by
    intro b hb
    refine ⟨h.rank b hb, (h.inside b hb).1, (h.inside b hb).2, ?_⟩
    -- the data of the block is part of what is written
    have hle : e.dset.esize.toNat * b.elems ≤ e.data.length := by
      rw [hdata]
      exact List.le_sum_of_mem (List.mem_map_of_mem (f := fun b => e.dset.esize.toNat * b.elems) hb)
    have hsome := h.storable.some_data
    rw [h.storable.filled] at hsome
    have hesize : 0 < e.dset.esize.toNat := Nat.pos_of_mul_pos_right hsome
    have hlt := h.storable.data_lt
    rw [← h.data] at hlt
    exact lt_of_le_of_lt (Nat.le_mul_of_pos_left _ hesize) (lt_of_le_of_lt hle hlt)
  rcases @writeSels_ok c.did e.dset e.dset rfl mem c.sels.sels hblocks 0 b.bufs e.data hlen hdata hholds with
    ⟨writes, hwrites, hflat⟩
  refine ⟨writes, ?_, ?_⟩
  · rw [writeReqSels, e.logged.dset_eq, Lib.ok_bind, h.sels]
    exact hwrites
  · have hesize : esizeOf (rdsets.map some) c.did = e.dset.esize.toNat := by
      rw [esizeOf, List.getElem?_map, h.dset]
      rfl
    rw [hflat, WriteCall.assigns, WriteCall.elems, hesize, h.data]

end Stands

/-- **The entries of requests** in the log. -/
theorem exists_entries {env : FileEnv} {g : Group} {metadata : List (List UInt8)} {top : ℕ} {t : Trail}
    {a : ElemFile} (h : Tracks env (rdsets.map some) g metadata top t a) (z : Option Zlib) {cs : List WriteCall}
    {rs : List WReq}
    (hcarries : List.Forall₂ (fun c r => WReq.Carries env (rdsets.map some) c r) cs rs)
    (hlogged : ∀ r ∈ rs, r ∈ t.logged.map Prod.fst)
    (hinside : ∀ c ∈ cs, ∀ dip, rdsets[c.did]? = some dip → c.Inside dip) :
    ∃ ps : List (WriteCall × LoggedEntry unfilter rdsets g.file), ps.map Prod.fst = cs ∧
      rs.map (heldEntry z (rdsets.map some)) = ps.map (fun p => some p.2.req) ∧
      ps.map (fun p => p.2.fileRange) = rs.map WReq.range ∧ ∀ p ∈ ps, StandsFor env p.1 p.2 := by
  induction hcarries with
  | nil => exact ⟨[], rfl, rfl, rfl, by simp⟩
  | @cons c r cs rs hc _ ih =>
    rw [List.forall_mem_cons] at hlogged hinside
    rcases ih hlogged.2 hinside.2 with ⟨ps, hcs, hheld, hrange, hstands⟩
    rcases carries_held hc z with ⟨dip, dsize, hdip, hstore, hentry⟩
    -- where its data is
    rcases List.mem_map.mp hlogged.1 with ⟨p, hp, rfl⟩
    obtain ⟨hfoff, hfsize, -⟩ := logged_place h hp
    have hdata : p.2.data = c.data := (h.carries p hp).data.symm.trans hc.data
    have hfile : g.file.read p.1.hdr.foff.toNat p.1.hdr.fsize.toNat = c.data := (h.file p hp).trans hc.data
    have hdset : rdsets[c.did]? = some dip := by
      rw [List.getElem?_map] at hdip
      cases hd : rdsets[c.did]? with
      | none => simp [hd] at hdip
      | some d => simpa [hd] using hdip
    have hsizes := @selSizes_placeSels dip c.sels.sels
      (fun b hb => (c.sels.rank_eq b hb).2.trans hstore.rank) 0
    have hesize : 0 < dip.esize.toNat := by
      have hsome := hstore.some_data
      rw [hstore.filled] at hsome
      exact Nat.pos_of_mul_pos_right hsome
    have hlog : IsLogged unfilter rdsets g.file ⟨p.1.hdr, placeSels dip.esize 0 c.sels.sels, dsize⟩ dip c.data := by
      refine ⟨?_, ?_, ?_, ?_, ?_, ?_, ?_, ?_⟩
      · show replayDset rdsets p.1.hdr.did = .ok dip
        rw [replayDset, hc.did, hdset]
      · show 0 ≤ p.1.hdr.foff.toInt
        omega
      · show 0 ≤ p.1.hdr.fsize.toInt
        omega
      · rw [hsizes]
        refine List.forall_mem_map.mpr ?_
        exact fun b hb => Nat.mul_pos hesize (hinside.1 dip hdset b hb).1
      · rw [hsizes, List.sum_map_mul_left, hstore.filled]
      · exact lt_trans hstore.data_lt (by norm_num)
      · exact fun _ => hfile
      · exact fun hne => absurd hstore.unfiltered hne
    refine ⟨(c, ⟨_, dip, c.data, hlog⟩) :: ps, ?_, ?_, ?_, ?_⟩
    · rw [List.map_cons, hcs]
    · rw [List.map_cons, List.map_cons, hentry, hheld]
    · rw [List.map_cons, List.map_cons, hrange]
      rfl
    · rw [List.forall_mem_cons]
      exact ⟨⟨hc.did, hdset, hstore, rfl, rfl, hc.fsize, hinside.1 dip hdset⟩, hstands⟩

/-! ## §6 — one process. -/

/-- Writes with their entries, dataset by dataset. -/
def byDset {β : Type} (ndset : ℕ) (ps : List (WriteCall × β)) : List (WriteCall × β) :=
  (List.range ndset).flatMap fun i => ps.filter fun p => p.1.did = i

theorem byDset_perm {β : Type} {ndset : ℕ} {ps : List (WriteCall × β)} (hlt : ∀ p ∈ ps, p.1.did < ndset) :
    (byDset ndset ps).Perm ps :=
  Lib.flatMap_filter_perm (fun p : WriteCall × β => p.1.did) hlt

theorem mem_byDset {β : Type} {ndset : ℕ} {ps : List (WriteCall × β)} {p : WriteCall × β}
    (h : p ∈ byDset ndset ps) : p ∈ ps := by
  rcases List.mem_flatMap.mp h with ⟨i, -, hp⟩
  exact List.mem_of_mem_filter hp

/-- The datasets have no elements in common, so their order does not show. -/
theorem assign_byDset {β : Type} (esize : ℕ → ℕ) (f : Contents) {ndset : ℕ} {ps : List (WriteCall × β)}
    (hlt : ∀ p ∈ ps, p.1.did < ndset) :
    assign f ((byDset ndset ps).flatMap fun p => p.1.assigns esize) =
      assign f (ps.flatMap fun p => p.1.assigns esize) := by
  have hpair : (ps.map fun p => (p.1.did, p)).Pairwise fun v w =>
      (∃ x, x ∈ (v.2.1.assigns esize).map Prod.fst ∧ x ∈ (w.2.1.assigns esize).map Prod.fst) → v.1 ≤ w.1 := by
    rw [List.pairwise_map]
    apply List.pairwise_of_forall_mem_list
    intro p _ q _ hshared
    exact (meets_of_assigns hshared).1.le
  have hkeys := Lib.assign_flatMap_byKey (fun p : WriteCall × β => p.1.assigns esize) f hpair
    (List.forall_mem_map.mpr hlt)
  rw [List.flatMap_map] at hkeys
  rw [← hkeys, byDset, List.flatMap_assoc, List.flatMap_assoc]
  congr 1
  apply List.flatMap_congr
  intro i _
  rw [List.filter_map, List.flatMap_map]
  rfl

/-- What is allocated for the entries of writes is apart. -/
theorem mallocApart_of {unfilter : Unfilter} {rdsets : List DsetInfo} {fin : Store} {malloc : ℕ → ℕ}
    {entries : List (LoggedEntry unfilter rdsets fin)}
    (h : BuffersApart rdsets malloc (entries.map LoggedEntry.req)) : MallocApart malloc entries := by
  rw [BuffersApart, List.zipIdx_map, List.pairwise_map] at h
  refine h.imp ?_
  intro p q hpq
  exact hpq p.1.dset q.1.dset p.1.logged.dset_eq q.1.logged.dset_eq

/-- **Entries whose data are whole are restored**, if an `int` counts them. -/
theorem restores_of_intact {unfilter : Unfilter} {rdsets : List DsetInfo} {fin : Store} {malloc : ℕ → ℕ}
    {reqs : List (List (LoggedEntry unfilter rdsets fin))} (hmalloc : MallocApart malloc reqs.flatten)
    (hfile : FileApart reqs.flatten) (hcount : reqs.flatten.length < 2 ^ 31)
    (hintact : ∀ e ∈ reqs.flatten, e.Intact) (mem : Store) : Restores reqs.flatten
      (readData unfilter malloc rdsets fin mem (reqs.map fun es => es.map LoggedEntry.req)) := by
  have hlen : (sortIdxs (hidxs malloc reqs.flatten)).length = reqs.flatten.length := by
    rw [(sortIdxs_perm _).length_eq, hidxs, List.length_map, List.length_zipIdx]
  have hnumbered : ∀ p ∈ reqs.flatten.zipIdx, p.1.Intact := fun p hp => hintact p.1 (List.fst_mem_of_mem_zipIdx hp)
  rw [restores_iff hmalloc]
  refine ⟨fun e he => (hintact e he).blocks, sortIdxs (hidxs malloc reqs.flatten), ?_, hfile.inView, ?_⟩
  · apply createHindexed_all
    · rw [hlen]
      exact hcount
    · intro h hh
      rcases List.mem_map.mp ((sortIdxs_perm _).mem_iff.mp hh) with ⟨p, hp, rfl⟩
      have hwhole := (hnumbered p hp).whole
      show 0 ≤ p.1.len
      omega
  · intro p hp
    refine held_of_intact hmalloc (List.Sublist.refl _) ?_ (hnumbered p hp) mem
    rw [(sortIdxs_perm _).mem_iff]
    exact List.mem_map.mpr ⟨p, hp, rfl⟩

section Process

variable {unfilter : Unfilter} {rdsets : List DsetInfo} {fin : Store} {env : FileEnv}
  {ps : List (WriteCall × LoggedEntry unfilter rdsets fin)} (hstands : ∀ p ∈ ps, StandsFor env p.1 p.2)
include hstands

/-- The index, with the entries as those of writes. -/
theorem insertReqs_entries : insertReqs rdsets.length (ps.map fun p => p.2.req) =
    ((List.range rdsets.length).map fun i => (ps.filter fun p => p.1.did = i).map Prod.snd).map
      fun es => es.map LoggedEntry.req := by
  rw [insertReqs_eq, List.map_map]
  apply List.map_congr_left
  intro i _
  rw [Function.comp, List.map_map, List.filter_map]
  congr 1
  apply List.filter_congr
  intro p hp
  simp [(hstands p hp).did]

theorem writeOrder_entries : writeOrder rdsets (insertReqs rdsets.length (ps.map fun p => p.2.req)) =
    (byDset rdsets.length ps).map fun p => ((p.1.did, p.2.dset), p.2.req) := by
  rw [insertReqs_entries hstands, writeOrder, byDset, List.map_flatMap, List.flatMap_def]
  congr 1
  apply List.ext_getElem
  · simp
  · intro i hi hi'
    simp only [List.getElem_map, List.getElem_zipIdx, List.getElem_zip, List.getElem_range, List.map_map, zero_add,
      Function.comp_def]
    apply List.map_congr_left
    intro p hp
    rw [List.mem_filter, decide_eq_true_eq] at hp
    obtain ⟨hp, rfl⟩ := hp
    have hdset := (hstands p hp).dset
    rw [(List.getElem?_eq_some_iff.mp hdset).2]

/-- **What is written** from buffers that hold the data. -/
theorem writes_entries {mem : Store} {bufs : List ReqBuf}
    (hheld : List.Forall₂ (fun p b => LoggedEntry.HeldIn p.2 mem b) ps bufs) :
    ∃ written, ((ps.map fun p => ((p.1.did, p.2.dset), p.2.req)).zip bufs).mapM
        (fun r => writeReqSels rdsets mem r.1.1.1 r.1.1.2 r.1.2 r.2) = .ok written ∧
      written.flatten.flatten = ps.flatMap fun p => p.1.assigns (esizeOf (rdsets.map some)) := by
  induction hheld with
  | nil => exact ⟨[], rfl, rfl⟩
  | @cons p b ps bufs hp _ ih =>
    rw [List.forall_mem_cons] at hstands
    rcases ih hstands.2 with ⟨written, hwritten, hflat⟩
    rcases hstands.1.written hp with ⟨writes, hwrites, hassigns⟩
    refine ⟨writes :: written, ?_, ?_⟩
    · rw [List.map_cons, List.zip_cons_cons, List.mapM_cons, hwrites, Lib.ok_bind, hwritten]
      rfl
    · rw [List.flatten_cons, List.flatten_append, hassigns, hflat, List.flatMap_cons]

/-- **One process** writes what its entries stand for, whatever is in its memory. -/
theorem process_writes (hcount : ps.length < 2 ^ 31)
    (hfile : (ps.map fun p => p.2.fileRange).Pairwise RangesDisjoint) {malloc : ℕ → ℕ}
    (hmalloc : BuffersApart rdsets malloc (insertReqs rdsets.length (ps.map fun p => p.2.req)).flatten)
    (mem : Store) : ∃ mem' bufs writes, readData unfilter malloc rdsets fin mem
        (insertReqs rdsets.length (ps.map fun p => p.2.req)) = .ok (mem', bufs) ∧
      writeData rdsets mem' (insertReqs rdsets.length (ps.map fun p => p.2.req)) bufs = .ok writes ∧
      writes.flatten = (byDset rdsets.length ps).flatMap fun p => p.1.assigns (esizeOf (rdsets.map some)) := by
  have hlt : ∀ p ∈ ps, p.1.did < rdsets.length := fun p hp => (List.getElem?_eq_some_iff.mp (hstands p hp).dset).1
  have hflat : ((List.range rdsets.length).map fun i => (ps.filter fun p => p.1.did = i).map Prod.snd).flatten =
      (byDset rdsets.length ps).map Prod.snd := by
    rw [byDset, List.map_flatMap, List.flatMap_def]
  have hperm := byDset_perm hlt
  have hstands' : ∀ p ∈ byDset rdsets.length ps, StandsFor env p.1 p.2 := fun p hp => hstands p (mem_byDset hp)
  rw [insertReqs_entries hstands, ← List.map_flatten, hflat] at hmalloc
  -- The entries are regrouped by dataset, which changes only their order.
  have hfiles : FileApart ((byDset rdsets.length ps).map Prod.snd) := by
    have hsorted := (hperm.map fun p => p.2.fileRange).symm.pairwise hfile fun h => h.symm
    rw [List.pairwise_map] at hsorted
    exact List.pairwise_map.mpr hsorted
  have hintact : ∀ e ∈ (byDset rdsets.length ps).map Prod.snd, e.Intact :=
    List.forall_mem_map.mpr fun p hp => (hstands' p hp).intact
  rw [← hflat] at hmalloc hfiles hintact
  have hcount' := hperm.length_eq
  rw [← List.length_map (f := Prod.snd), ← hflat] at hcount'
  rcases restores_of_intact (mallocApart_of hmalloc) hfiles (by omega) hintact mem with
    ⟨mem', bufs, hread, hheld, -⟩
  rw [hflat, List.forall₂_map_left_iff] at hheld
  rcases writes_entries hstands' hheld with ⟨written, hwritten, hassigns⟩
  refine ⟨mem', bufs, written.flatten, ?_, ?_, hassigns⟩
  · rw [insertReqs_entries hstands]
    exact hread
  · rw [writeData, writeOrder_entries hstands, hwritten]
    rfl

end Process

end Entries

/-! ## §7 — all processes. -/

/-- **A replay by `np` processes** leaves `contents`: each of them ends, whatever is in its memory, if its buffers
do not overlap, and then the blocks may be written in any order that keeps that of each process. -/
def ReplaysAs (z : Option Zlib) (config : I32) (rdsets : List DsetInfo) (np : ℕ) (file : Store)
    (metadata : List (List UInt8)) (contents : Contents) : Prop :=
  ∀ (unfilter : Unfilter) (malloc : ℕ → ℕ → ℕ) (mem : ℕ → Store),
    (∀ r < np, ∀ placed,
      parseMeta z config rdsets (BitVec.ofNat 32 r) (BitVec.ofNat 32 np) metadata = .ok placed →
        BuffersApart rdsets (malloc r) (insertReqs rdsets.length (placed.flatten.map Prod.snd)).flatten) →
    ∃ writes : ℕ → List BlockWrite,
      (∀ r < np, replayCore unfilter (malloc r) z config rdsets (BitVec.ofNat 32 r) (BitVec.ofNat 32 np) file
        (mem r) metadata = .ok (writes r)) ∧
      ∀ ws, Interleaves np writes ws → assign (fun _ => none) (ws.flatMap Prod.snd) = contents

/-- Sections `i` and `j` are read by one process. -/
def SamePart (n np i j : ℕ) : Prop := ∀ k ≤ np, cut n np k ≤ i ↔ cut n np k ≤ j

/-- What is in a part is in one of its sections. -/
theorem mem_sectionsOf {α : Type} {np r : ℕ} {secs : List (List α)} {x : α} (h : x ∈ sectionsOf np r secs) :
    ∃ i, cut secs.length np r ≤ i ∧ i < cut secs.length np (r + 1) ∧ x ∈ secs.getD i [] := by
  rcases List.mem_flatten.mp h with ⟨sec, hsec, hx⟩
  rcases List.mem_iff_getElem.mp hsec with ⟨k, hk, rfl⟩
  rw [List.length_drop, List.length_take] at hk
  refine ⟨cut secs.length np r + k, Nat.le_add_right _ _, by omega, ?_⟩
  rw [List.getElem_drop, List.getElem_take] at hx
  rwa [List.getD_eq_getElem _ _ (by omega)]

theorem cut_mono (n np : ℕ) {r s : ℕ} (h : r ≤ s) : cut n np r ≤ cut n np s :=
  Nat.div_le_div_right (Nat.mul_le_mul_right n h)

/-- A section is read by one process. -/
theorem SamePart.eq {n np i j r s : ℕ} (h : SamePart n np i j) (hr : r < np) (hs : s < np)
    (hi : cut n np r ≤ i ∧ i < cut n np (r + 1)) (hj : cut n np s ≤ j ∧ j < cut n np (s + 1)) : r = s := by
  rcases Nat.lt_trichotomy r s with hlt | heq | hlt
  · have hmono : cut n np (r + 1) ≤ cut n np s := cut_mono n np hlt
    have hsame := (h s hs.le).mpr hj.1
    omega
  · exact heq
  · have hmono : cut n np (s + 1) ≤ cut n np r := cut_mono n np hlt
    have hsame := (h r hr.le).mp hi.1
    omega

theorem flatMap_range_ite {α : Type} (f : ℕ → List α) {n r : ℕ} (hr : r < n) :
    ((List.range n).flatMap fun s => if s = r then f s else []) = f r := by
  induction n with
  | zero => exact absurd hr (Nat.not_lt_zero r)
  | succ n ih =>
    rw [List.range_succ, List.flatMap_append, List.flatMap_singleton]
    by_cases hrn : r = n
    · subst hrn
      rw [if_pos rfl, List.flatMap_eq_nil_iff.mpr, List.nil_append]
      intro s hs
      exact if_neg (List.mem_range.mp hs).ne
    · rw [if_neg (Ne.symm hrn), List.append_nil, ih (by omega)]

/-- The sections one after another interleave the parts of the processes. -/
theorem sections_interleave {α : Type} (np : ℕ) (csss : List (List (List α))) :
    Interleaves np (fun r => csss.flatMap (sectionsOf np r))
      (csss.flatMap fun css => (List.range np).flatMap fun r => (sectionsOf np r css).map fun c => (r, c)) := by
  constructor
  · intro w hw
    simp only [List.mem_flatMap, List.mem_range, List.mem_map] at hw
    rcases hw with ⟨_, _, r, hr, c, _, rfl⟩
    exact hr
  · intro r hr
    rw [List.filter_flatMap, List.map_flatMap]
    apply List.flatMap_congr
    intro css _
    have hone : ∀ s, ((sectionsOf np s css).map fun c => (s, c)).filter (fun w => w.1 = r) =
        if s = r then (sectionsOf np s css).map fun c => (s, c) else [] := by
      intro s
      split
      · rename_i hs
        simp [hs]
      · rename_i hs
        simp [hs]
    rw [List.filter_flatMap]
    simp only [hone]
    rw [flatMap_range_ite (fun s => (sectionsOf np s css).map fun c => (s, c)) hr, List.map_map]
    exact List.map_id' _

section Replay

variable {env : FileEnv} {rdsets : List DsetInfo} {g : Group} {metadata : List (List UInt8)} {top : ℕ} {t : Trail}
  {a b : ElemFile} {made : ℕ → WriteCall → Prop} (h : Tracks env (rdsets.map some) g metadata top t a)
  (hs : Sectioned env (rdsets.map some) made g t.secs b)
  (hinside : ∀ i c, made i c → ∀ dip, rdsets[c.did]? = some dip → c.Inside dip)
include h

/-- The places of the data of requests in the sections are apart. -/
theorem sections_apart : (t.secs.flatten.flatten.map WReq.range).Pairwise RangesDisjoint := by
  have hall : (t.logged.map fun p => p.1.range).Pairwise RangesDisjoint := by
    rw [List.pairwise_map]
    exact h.order.imp fun hle => Or.inl hle
  have hperm := h.indexed.map WReq.range
  rw [List.map_map] at hperm
  have hsecs := hperm.symm.pairwise hall fun hd => hd.symm
  rw [List.map_append] at hsecs
  exact (List.pairwise_append.mp hsecs).1

/-- There are no more requests in a part than bytes of metadata. -/
theorem sections_count (np r : ℕ) : (t.secs.flatMap (sectionsOf np r)).length ≤ (metadata.map List.length).sum := by
  rw [h.metadata_eq, List.length_flatMap, List.map_map]
  apply List.sum_le_sum
  intro secs _
  have hpart : (sectionsOf np r secs).Sublist secs.flatten :=
    List.Sublist.flatten ((List.drop_sublist _ _).trans (List.take_sublist _ _))
  have hbytes := length_le_metaBytes secs.flatten
  have hlen : (secs.flatten.flatMap WReq.metaBuf).length ≤ (metadataDataset (secs.map sectionMeta)).length := by
    rw [← MetaDset.map_bufMeta, metadataDataset_bufMeta, List.length_append, MetaDset.flatten_bufs]
    exact Nat.le_add_left _ _
  exact hpart.length_le.trans (hbytes.trans hlen)

include hinside

/-- **A process of a replay** writes what the writes of its sections assign. -/
theorem part_replayed (hconfig : hasFlag env.config FileConfig.metadataShare = false)
    (hsmall : (metadata.map List.length).sum < 2 ^ 31) {csss : List (List (List WriteCall))}
    (hcsss : List.Forall₂ (CarriedFor env (rdsets.map some) made) csss t.secs)
    (hlens : ∀ css ∈ csss, css.length = g.ranks.length) {np r : ℕ} (hr : r < np) (hnp : np ≤ g.ranks.length)
    (z : Option Zlib) (unfilter : Unfilter) {malloc : ℕ → ℕ}
    (hmalloc : ∀ placed,
      parseMeta z env.config rdsets (BitVec.ofNat 32 r) (BitVec.ofNat 32 np) metadata = .ok placed →
        BuffersApart rdsets malloc (insertReqs rdsets.length (placed.flatten.map Prod.snd)).flatten) (mem : Store) :
    ∃ writes, replayCore unfilter malloc z env.config rdsets (BitVec.ofNat 32 r) (BitVec.ofNat 32 np) g.file mem
        metadata = .ok writes ∧
      (∀ f, assign f writes.flatten =
        assign f ((csss.flatMap (sectionsOf np r)).flatMap (WriteCall.assigns (esizeOf (rdsets.map some))))) ∧
      ∀ w ∈ writes, ∀ x ∈ w.map Prod.fst, ∃ c ∈ csss.flatMap (sectionsOf np r),
        x ∈ (c.assigns (esizeOf (rdsets.map some))).map Prod.fst := by
  have hopens : OpensSome (rdsets.map some) (rdsets.map some) := ⟨le_rfl, fun _ _ hdip => hdip⟩
  rcases tracks_mdsets h hopens z with ⟨Ds, hcontent, hsecs, hheld⟩
  -- every metadata dataset has a section of each rank
  have hnsec : ∀ D ∈ Ds, D.nsec = g.ranks.length := by
    intro D hD
    have hmem : D.secs ∈ t.secs := by
      rw [← hsecs]
      exact List.mem_map_of_mem hD
    rcases Lib.forall₂_mem_left hcsss.flip hmem with ⟨css, hcss, hc⟩
    have hlen := hc.carries.length_eq
    rw [hlens css hcss] at hlen
    exact hlen.symm
  have hsize : ∀ D ∈ Ds, D.content.length < 2 ^ 31 := by
    intro D hD
    refine lt_of_le_of_lt ?_ hsmall
    rw [← hcontent, List.map_map]
    exact List.le_sum_of_mem (List.mem_map_of_mem (f := List.length ∘ MetaDset.content) hD)
  rcases parseMeta_parts hconfig hr (lt_of_le_of_lt hnp h.ranks_lt) (fun D hD => (hnsec D hD).symm ▸ hnp) hsize with
    ⟨placed, hparse, hentries⟩
  rw [hcontent] at hparse
  -- the requests of the part, with their writes
  have hcarries : List.Forall₂ (fun c r => WReq.Carries env (rdsets.map some) c r) (csss.flatMap (sectionsOf np r))
      (t.secs.flatMap (sectionsOf np r)) := by
    refine List.rel_flatMap hcsss ?_
    intro css secs hc
    unfold sectionsOf
    rw [hc.carries.length_eq]
    exact List.rel_flatten (List.forall₂_drop _ (List.forall₂_take _ hc.carries))
  have hpart : (t.secs.flatMap (sectionsOf np r)).Sublist t.secs.flatten.flatten := by
    rw [List.flatten_flatten, ← List.flatMap_def]
    apply List.Sublist.flatMap_right
    intro secs _
    exact List.Sublist.flatten ((List.drop_sublist _ _).trans (List.take_sublist _ _))
  have hlogged : ∀ r' ∈ t.secs.flatMap (sectionsOf np r), r' ∈ t.logged.map Prod.fst := by
    intro r' hr'
    rw [← h.indexed.mem_iff]
    exact List.mem_append_left _ (hpart.subset hr')
  have hins : ∀ c ∈ csss.flatMap (sectionsOf np r), ∀ dip, rdsets[c.did]? = some dip → c.Inside dip := by
    intro c hc
    rcases List.mem_flatMap.mp hc with ⟨css, hcss, hc⟩
    rcases Lib.forall₂_mem_left hcsss hcss with ⟨secs, -, hcarried⟩
    rcases mem_sectionsOf hc with ⟨i, -, -, hci⟩
    exact hinside i c (hcarried.made i c hci)
  rcases @exists_entries unfilter rdsets env g metadata top t a h z _ _ hcarries hlogged hins with
    ⟨ps, hcs, hentry, hrange, hstands⟩
  have hreqs : placed.flatten.map Prod.snd = ps.map fun p => p.2.req := by
    have hmap : (Ds.flatMap fun D => sectionsOf np r D.held) =
        (t.secs.flatMap (sectionsOf np r)).map (heldEntry z (rdsets.map some)) := by
      rw [← hsecs, List.flatMap_map, List.map_flatMap]
      apply List.flatMap_congr
      intro D hD
      rw [hheld D hD, sectionsOf_map]
    rw [hentries, hmap, hentry, List.reduceOption, List.filterMap_map]
    exact congrFun List.filterMap_eq_map' ps
  have hcount : ps.length < 2 ^ 31 := by
    have hlen := congrArg List.length hrange
    rw [List.length_map, List.length_map] at hlen
    rw [hlen]
    exact lt_of_le_of_lt (sections_count h np r) hsmall
  have hfile : (ps.map fun p => p.2.fileRange).Pairwise RangesDisjoint := by
    rw [hrange]
    exact (sections_apart h).sublist (hpart.map WReq.range)
  have hapart := hmalloc placed hparse
  rw [hreqs] at hapart
  rcases process_writes hstands hcount hfile hapart mem with ⟨mem', bufs, writes, hread, hwrite, hflat⟩
  refine ⟨writes, ?_, ?_, ?_⟩
  · rw [replayCore, hparse, Lib.ok_bind]
    dsimp only
    rw [hreqs, hread, Lib.ok_bind]
    exact hwrite
  · intro f
    rw [hflat, ← hcs, List.flatMap_map]
    exact assign_byDset _ f fun p hp => (List.getElem?_eq_some_iff.mp (hstands p hp).dset).1
  · intro w hw x hx
    have hmem : x ∈ writes.flatten.map Prod.fst := by
      rcases List.mem_map.mp hx with ⟨y, hy, rfl⟩
      exact List.mem_map_of_mem (List.mem_flatten_of_mem hw hy)
    rw [hflat, List.map_flatMap, List.mem_flatMap] at hmem
    rcases hmem with ⟨p, hp, hxp⟩
    refine ⟨p.1, ?_, hxp⟩
    rw [← hcs]
    exact List.mem_map_of_mem (mem_byDset hp)

include hs

/-- **The file is replayed**: what is left is what the elements have that were written, session by session, if the
ranks of different processes have written different elements. -/
theorem tracks_replays (hconfig : hasFlag env.config FileConfig.metadataShare = false)
    (hsmall : (metadata.map List.length).sum < 2 ^ 31) {np : ℕ} (hpos : 0 < np) (hnp : np ≤ g.ranks.length)
    (hapart : ∀ i c j d, made i c → made j d → c.Meets d → SamePart g.ranks.length np i j) (z : Option Zlib) :
    ReplaysAs z env.config rdsets np g.file metadata b.held := by
  intro unfilter malloc mem hmalloc
  rcases hs.recorded with ⟨csss, hcsss, hlens, hheld⟩
  have hall : ∀ r, ∃ writes, r < np →
      replayCore unfilter (malloc r) z env.config rdsets (BitVec.ofNat 32 r) (BitVec.ofNat 32 np) g.file (mem r)
          metadata = .ok writes ∧
        (∀ f, assign f writes.flatten =
          assign f ((csss.flatMap (sectionsOf np r)).flatMap (WriteCall.assigns (esizeOf (rdsets.map some))))) ∧
        ∀ w ∈ writes, ∀ x ∈ w.map Prod.fst, ∃ c ∈ csss.flatMap (sectionsOf np r),
          x ∈ (c.assigns (esizeOf (rdsets.map some))).map Prod.fst := by
    intro r
    by_cases hr : r < np
    · rcases part_replayed h hinside hconfig hsmall hcsss hlens hr hnp z unfilter (hmalloc r hr) (mem r) with
        ⟨writes, hwrites⟩
      exact ⟨writes, fun _ => hwrites⟩
    · exact ⟨[], fun hlt => absurd hlt hr⟩
  choose writes hwrites using hall
  refine ⟨writes, fun r hr => (hwrites r hr).1, ?_⟩
  -- writes that meet are read by one process
  have hsame : ∀ r < np, ∀ s < np, ∀ c ∈ csss.flatMap (sectionsOf np r), ∀ d ∈ csss.flatMap (sectionsOf np s),
      c.Meets d → r = s := by
    intro r hr s hs c hc d hd hmeets
    rcases List.mem_flatMap.mp hc with ⟨css, hcss, hc⟩
    rcases List.mem_flatMap.mp hd with ⟨dss, hdss, hd⟩
    rcases Lib.forall₂_mem_left hcsss hcss with ⟨_, -, hcarried⟩
    rcases Lib.forall₂_mem_left hcsss hdss with ⟨_, -, hcarried'⟩
    rcases mem_sectionsOf hc with ⟨i, hi, hi', hci⟩
    rcases mem_sectionsOf hd with ⟨j, hj, hj', hdj⟩
    rw [hlens css hcss] at hi hi'
    rw [hlens dss hdss] at hj hj'
    have hpart := hapart i c j d (hcarried.made i c hci) (hcarried'.made j d hdj) hmeets
    exact hpart.eq hr hs ⟨hi, hi'⟩ ⟨hj, hj'⟩
  intro ws hws
  have hblocks := Lib.assign_interleaved (fun w : BlockWrite => w) (fun _ => none) hws ?_
  · have hsections := Lib.assign_interleaved (WriteCall.assigns (esizeOf (rdsets.map some))) (fun _ => none)
      (sections_interleave np csss) ?_
    rotate_left
    · intro r hr s hs c hc d hd hshared
      exact hsame r hr s hs c hc d hd (meets_of_assigns hshared)
    have hflat : (csss.flatMap fun css => (List.range np).flatMap fun r =>
        (sectionsOf np r css).map fun c => (r, c)).flatMap
          (fun w => w.2.assigns (esizeOf (rdsets.map some))) =
        csss.flatten.flatten.flatMap (WriteCall.assigns (esizeOf (rdsets.map some))) := by
      rw [List.flatten_flatten, ← List.flatMap_def, List.flatMap_assoc, List.flatMap_assoc]
      apply List.flatMap_congr
      intro css _
      rw [← flatMap_sectionsOf hpos css, List.flatMap_assoc, List.flatMap_assoc]
      simp only [List.flatMap_map]
    rw [hflat] at hsections
    rw [hheld, hsections, List.flatMap_assoc]
    refine hblocks.trans ?_
    rw [List.flatMap_assoc]
    apply Lib.assign_flatMap_congr
    intro r hr f
    rw [← (hwrites r (List.mem_range.mp hr)).2.1 f, List.flatMap_def, List.map_id']
  · intro r hr s hs v hv w hw hshared
    rcases hshared with ⟨x, hxv, hxw⟩
    rcases (hwrites r hr).2.2 v hv x hxv with ⟨c, hc, hxc⟩
    rcases (hwrites s hs).2.2 w hw x hxw with ⟨d, hd, hxd⟩
    exact hsame r hr s hs c hc d hd (meets_of_assigns ⟨x, hxc, hxd⟩)

end Replay

/-- One process reads all sections. -/
theorem samePart_one {n i j : ℕ} (hi : i < n) (hj : j < n) : SamePart n 1 i j := by
  intro k hk
  have hcut : cut n 1 k = k * n := Nat.div_one _
  rcases Nat.le_one_iff_eq_zero_or_eq_one.mp hk with rfl | rfl
  · omega
  · omega

section Replayed

variable {env : FileEnv} (hmerge : hasFlag env.config FileConfig.metadataMerge = false)
  (hshare : hasFlag env.config FileConfig.metadataShare = false) {rdsets : List DsetInfo} {g : Group}
  (hfresh : ∀ f ∈ g.ranks, f.Fresh (rdsets.map some)) (hranks : g.ranks.length < 2 ^ 31) {top : ℕ}
  (htop : top < 2 ^ 63) {calls : List FileCall} {doff : ℕ → HSize}
  (hfits : LogFile.RunFits env ⟨[g], []⟩ top (calls ++ [.close doff]))
  (hsmall : ∀ s, LogFile.run env ⟨[g], []⟩ (calls ++ [.close doff]) = .ok s →
    (s.metadata.map List.length).sum < 2 ^ 31)
  (hinside : ∀ i c, .write i c ∈ LogFile.runEvents env ⟨[g], []⟩ calls → ∀ dip, rdsets[c.did]? = some dip →
    c.Inside dip)
  {np : ℕ} (hpos : 0 < np) (hnp : np ≤ g.ranks.length)
  (hapart : ∀ i c j d, .write i c ∈ LogFile.runEvents env ⟨[g], []⟩ calls →
    .write j d ∈ LogFile.runEvents env ⟨[g], []⟩ calls → c.Meets d → SamePart g.ranks.length np i j)
  (z : Option Zlib)
include hmerge hshare hfresh hranks htop hfits hsmall hinside hpos hnp hapart

/-- What a run leaves, for its reads and for a replay. -/
theorem run_replays : ∃ g' metadata, LogFile.run env ⟨[g], []⟩ (calls ++ [.close doff]) = .ok ⟨[g'], metadata⟩ ∧
    ReadsAs z (rdsets.map some) g'.file metadata ((ElemFile.empty g.ranks.length).run (esizeOf (rdsets.map some))
      (LogFile.runEvents env ⟨[g], []⟩ calls ++ [.close])).held ∧
    ReplaysAs z env.config rdsets np g'.file metadata ((ElemFile.empty g.ranks.length).run
      (esizeOf (rdsets.map some)) (ElemFile.unflushed (LogFile.runEvents env ⟨[g], []⟩ calls ++ [.close]))).held ∧
    ElemFile.OfRanks g.ranks.length (LogFile.runEvents env ⟨[g], []⟩ calls) := by
  have hstart := fresh_tracks env hfresh hranks htop
  rcases run_tracks hmerge hshare hstart hfits with ⟨g', metadata, top', t, hrun, htracks, hkeeps, hnone⟩
  obtain ⟨hof, hclose⟩ := runEvents_close hmerge hshare hstart hfits
  rw [hclose] at htracks hkeeps
  have hsecs := hkeeps (fun i c => .write i c ∈ LogFile.runEvents env ⟨[g], []⟩ calls) _
    (fun i c hc => by simpa using hc) (fresh_sectioned env _ hfresh)
  have hlen : g'.ranks.length = g.ranks.length := by
    rw [← htracks.queued.length_eq, ElemFile.run_pending]
    exact List.length_replicate
  refine ⟨g', metadata, hrun, tracks_readsAs htracks hnone ⟨le_rfl, fun _ _ hdip => hdip⟩ z, ?_, hof⟩
  rw [← hlen] at hnp hapart
  exact tracks_replays htracks hsecs hinside hshare (hsmall _ hrun) hpos hnp hapart z

/-- **The log is replayed**: after any run that ends with the file closed, a replay by as many processes as there
are ranks, or less, leaves what the file of elements has after the same run without its flushes, if the ranks that
different processes read have written different elements. -/
theorem replayed : ∃ g' metadata, LogFile.run env ⟨[g], []⟩ (calls ++ [.close doff]) = .ok ⟨[g'], metadata⟩ ∧
    ReplaysAs z env.config rdsets np g'.file metadata ((ElemFile.empty g.ranks.length).run
      (esizeOf (rdsets.map some))
      (ElemFile.unflushed (LogFile.runEvents env ⟨[g], []⟩ calls ++ [.close]))).held := by
  rcases run_replays hmerge hshare hfresh hranks htop hfits hsmall hinside hpos hnp hapart z with
    ⟨g', metadata, hrun, -, hreplays, -⟩
  exact ⟨g', metadata, hrun, hreplays⟩

/-- **A replay leaves what reads return**, if no rank overwrites what a higher one had flushed since the file was
closed last. -/
theorem replayed_reads (horder : ElemFile.InRankOrder [] [] (LogFile.runEvents env ⟨[g], []⟩ calls)) :
    ∃ g' metadata contents, LogFile.run env ⟨[g], []⟩ (calls ++ [.close doff]) = .ok ⟨[g'], metadata⟩ ∧
      ReadsAs z (rdsets.map some) g'.file metadata contents ∧
      ReplaysAs z env.config rdsets np g'.file metadata contents := by
  rcases run_replays hmerge hshare hfresh hranks htop hfits hsmall hinside hpos hnp hapart z with
    ⟨g', metadata, hrun, hreads, hreplays, hof⟩
  rw [← ElemFile.run_unflushed hof horder] at hreplays
  exact ⟨g', metadata, _, hrun, hreads, hreplays⟩

end Replayed

/-- What a replay leaves of the writes of the two processes. -/
def twiceReplayed : Contents := ((ElemFile.empty 2).run (esizeOf [some (vectorDset 16)])
  (ElemFile.unflushed (LogFile.runEvents unsharedEnv ⟨[twoProcesses], []⟩ writeTwice ++ [.close]))).held

theorem writeBytes_inside (buf : List UInt8) : (writeBytes buf).toCall.Inside (vectorDset 16) := by
  have hinside : ∀ b ∈ (twoElements true).sels.sels, 0 < b.elems ∧ b.insideOf (vectorDset 16) = true := by decide
  exact hinside

section TwoWrites

variable {es : List ElemEvent} {i j : ℕ} {x y : List UInt8}
  (hes : es = [.write i (writeBytes x).toCall, .flush, .write j (writeBytes y).toCall])
include hes

theorem twoWrites_inside : ∀ k c, .write k c ∈ es → ∀ dip, [vectorDset 16][c.did]? = some dip → c.Inside dip := by
  intro k c hc dip hdip
  have hbuf : ∃ buf, c = (writeBytes buf).toCall := by
    rw [hes] at hc
    simp only [List.mem_cons, ElemEvent.write.injEq, reduceCtorEq, List.not_mem_nil, or_false, false_or] at hc
    rcases hc with ⟨-, rfl⟩ | ⟨-, rfl⟩
    · exact ⟨x, rfl⟩
    · exact ⟨y, rfl⟩
  rcases hbuf with ⟨buf, rfl⟩
  obtain rfl := Option.some.inj hdip
  exact writeBytes_inside buf

theorem twoWrites_onePart (hi : i < 2) (hj : j < 2) : ∀ k c l d, .write k c ∈ es → .write l d ∈ es → c.Meets d →
    SamePart twoProcesses.ranks.length 1 k l := by
  have hranks : ∀ k c, .write k c ∈ es → k < 2 := by
    intro k c hc
    rw [hes] at hc
    simp only [List.mem_cons, ElemEvent.write.injEq, reduceCtorEq, List.not_mem_nil, or_false, false_or] at hc
    rcases hc with ⟨rfl, -⟩ | ⟨rfl, -⟩
    · exact hi
    · exact hj
  intro k c l d hc hd _
  exact samePart_one (hranks k c hc) (hranks l d hd)

end TwoWrites

theorem writeTwice_small : ∀ s, LogFile.run unsharedEnv ⟨[twoProcesses], []⟩ (writeTwice ++ [.close fun _ => 8]) =
    .ok s → (s.metadata.map List.length).sum < 2 ^ 31 := by
  intro s hs
  obtain rfl := Except.ok.inj hs
  decide

/-- The second process has written before the flush, and the first one behind it: a replay has them the other way
round. -/
theorem writeTwice_replayed : (∃ g' metadata, LogFile.run unsharedEnv ⟨[twoProcesses], []⟩
    (writeTwice ++ [.close fun _ => 8]) = .ok ⟨[g'], metadata⟩ ∧
      ReplaysAs none unsharedEnv.config [vectorDset 16] 1 g'.file metadata twiceReplayed) ∧
    twiceReplayed (0, [0]) = some [1, 0, 0, 0] ∧ twiceHeld (0, [0]) = some [3, 0, 0, 0] := by
  refine ⟨?_, ?_, ?_⟩
  · exact replayed rfl rfl twoProcesses_fresh (by decide) (by decide) writeTwice_fits writeTwice_small
      (twoWrites_inside rfl) Nat.one_pos (by decide) (twoWrites_onePart rfl (by decide) (by decide)) none
  · decide
  · decide

/-- One process writes two elements and all flush, then the process behind it writes them. -/
def writeInTurn : List FileCall :=
  [.write 0 0 (writeBytes [1, 0, 0, 0, 2, 0, 0, 0]), .flush fun _ => 0,
    .write 0 1 (writeBytes [3, 0, 0, 0, 4, 0, 0, 0])]

theorem writeInTurn_fits :
    LogFile.RunFits unsharedEnv ⟨[twoProcesses], []⟩ 0 (writeInTurn ++ [.close fun _ => 8]) := by
  refine ⟨write_fits rfl ?_, ?_⟩
  · intro f hf
    obtain rfl := Option.some.inj hf
    rfl
  intro s₁ hs₁
  obtain rfl := Except.ok.inj hs₁
  refine ⟨?_, ?_⟩
  · intro g hg _
    obtain rfl := List.mem_singleton.mp hg
    decide
  intro s₂ hs₂
  obtain rfl := Except.ok.inj hs₂
  refine ⟨write_fits rfl ?_, ?_⟩
  · intro f hf
    obtain rfl := Option.some.inj hf
    rfl
  intro s₃ hs₃
  obtain rfl := Except.ok.inj hs₃
  refine ⟨⟨?_, ?_⟩, fun _ _ => trivial⟩
  · intro g hg _
    obtain rfl := List.mem_singleton.mp hg
    decide
  · intro groups hgroups
    exact metadata_fits hgroups (by decide)

theorem writeInTurn_small : ∀ s, LogFile.run unsharedEnv ⟨[twoProcesses], []⟩
    (writeInTurn ++ [.close fun _ => 8]) = .ok s → (s.metadata.map List.length).sum < 2 ^ 31 := by
  intro s hs
  obtain rfl := Except.ok.inj hs
  decide

theorem writeInTurn_replayed : ∃ g' metadata contents, LogFile.run unsharedEnv ⟨[twoProcesses], []⟩
    (writeInTurn ++ [.close fun _ => 8]) = .ok ⟨[g'], metadata⟩ ∧
      ReadsAs none [some (vectorDset 16)] g'.file metadata contents ∧
      ReplaysAs none unsharedEnv.config [vectorDset 16] 1 g'.file metadata contents := by
  have horder : ElemFile.InRankOrder [] [] (LogFile.runEvents unsharedEnv ⟨[twoProcesses], []⟩ writeInTurn) := by
    refine ⟨fun l hl => absurd hl List.not_mem_nil, ?_, trivial⟩
    intro l hl _
    rw [List.mem_singleton.mp hl]
    exact Nat.zero_le 1
  exact replayed_reads rfl rfl twoProcesses_fresh (by decide) (by decide) writeInTurn_fits writeInTurn_small
    (twoWrites_inside rfl) Nat.one_pos (by decide) (twoWrites_onePart rfl (by decide) (by decide)) none horder

end LogVol
