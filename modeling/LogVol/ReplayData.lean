/-
# LogVol.ReplayData — the data which h5lreplay reads for its entries.

`h5lreplay_read_data` lays the blocks of an entry out in one buffer, large enough for the stored data too, reads
the stored data of all entries into their buffers by a single collective read, and passes those of filtered
datasets through `H5VL_logi_unfilter`. `readData` is that function in a memory where `malloc` is given.

The unfiltered bytes are in a buffer of their own, and `memcpy` copies from the entry's buffer into that one: what
the blocks of an entry hold is what is stored. `readData_restores_iff` says for which entries that is right.
-/
import LogVol.ReplayMeta
import LogVol.DatasetWrite
import LogVol.Codec
import LogVol.Lib.ByteStore
import LogVol.Lib.Reader

namespace LogVol

open Lib (Store RangesDisjoint layout writeRange)

/-! ## §1 — sizing. -/

/-- The buffer of an entry: where it is, its size, and `bufs`. -/
structure ReqBuf where
  addr : ℕ
  size : ℕ
  bufs : List ℕ
  deriving DecidableEq, Repr

/-- An element of `idxs`: where the data are in the file, where they go to, and how many bytes. -/
structure Hidx where
  foff : MpiOffset
  moff : ℕ
  len : ℤ

/-- What a block adds to `bsize`. -/
def selBlock (dset : DsetInfo) (sel : MetaSel) : Block := ⟨sel.start, sel.count.take dset.ndim⟩

/-- `bsize` at the beginning of each block. -/
def blockOffs (dset : DsetInfo) : HSize → List MetaSel → List HSize
  | _, [] => []
  | bsize, sel :: sels => bsize :: blockOffs dset (bsize + blockBytes dset.esize (selBlock dset sel).count) sels

/-- `bsize` behind the last block. -/
def blocksEnd (dset : DsetInfo) (sels : List MetaSel) : HSize :=
  sels.foldl (fun bsize sel => bsize + blockBytes dset.esize (selBlock dset sel).count) 0

/-- The size of an entry's buffer; the compressed size can be larger. -/
def bufSize (dset : DsetInfo) (req : MetaEntry) : HSize :=
  if blocksEnd dset req.sels < req.hdr.fsize then req.hdr.fsize else blocksEnd dset req.sels

/-- One entry whose buffer is at `buf`. Without blocks there is no `req.bufs[0]`. -/
def sizeReq (dsets : List DsetInfo) (buf : ℕ) (req : MetaEntry) : Except Fault (ReqBuf × Hidx) := do
  let dset ← replayDset dsets req.hdr.did
  if req.sels = [] then .error .outside
  else
    let bufs := (blockOffs dset 0 req.sels).map fun off => buf + off.toNat
    pure (⟨buf, (bufSize dset req).toNat, bufs⟩, ⟨req.hdr.foff, buf, cInt req.hdr.fsize.toInt⟩)

/-! ## §2 — the read. -/

/-- `idxs`, sorted. -/
def sortIdxs (idxs : List Hidx) : List Hidx := idxs.insertionSort fun a b => a.foff.toInt ≤ b.foff.toInt

/-- **`MPI_Type_create_hindexed`**: the number of blocks is an `int`, and so are their lengths. -/
def createHindexed (idxs : List Hidx) : Except Fault (List Hidx) :=
  if cInt idxs.length < 0 then .error (.raised "MPI_ERR_ARG")
  else if ∀ h ∈ idxs.take (cInt idxs.length).toNat, 0 ≤ h.len then .ok (idxs.take (cInt idxs.length).toNat)
  else .error (.raised "MPI_ERR_ARG")

/-- What a file view needs: the displacements are not negative, and the blocks lie one behind the other. -/
def InView (idxs : List Hidx) : Prop :=
  (∀ h ∈ idxs, 0 ≤ h.foff.toInt) ∧
    idxs.Pairwise fun a b => 0 < a.len → 0 < b.len → a.foff.toInt + a.len ≤ b.foff.toInt

instance (idxs : List Hidx) : Decidable (InView idxs) := inferInstanceAs (Decidable (_ ∧ _))

/-- What is put into memory for an element of `idxs`. -/
def Hidx.piece (fin : Store) (h : Hidx) : ℕ × List UInt8 := (h.moff, fin.read h.foff.toNat h.len.toNat)

/-- **`MPI_File_set_view`** and **`MPI_File_read_all`**. -/
def readPieces (fin mem : Store) (idxs : List Hidx) : Except Fault Store :=
  if InView idxs then .ok (mem.writeAll (idxs.map (Hidx.piece fin))) else .error (.raised "MPI_ERR_ARG")

/-! ## §3 — unfiltering. -/

/-- **`H5VL_logi_unfilter`**, as given: what it has put into the buffer it allocates for its output. -/
abbrev Unfilter := List Filter → List UInt8 → Except Fault (List UInt8)

/-- `csize` bytes are copied from the entry's buffer: those of the output buffer are replaced. -/
def unfilterReq (unfilter : Unfilter) (dsets : List DsetInfo) (mem : Store) (req : MetaEntry) (b : ReqBuf) :
    Except Fault Unit := do
  let dset ← replayDset dsets req.hdr.did
  if dset.filters = [] then pure ()
  else if cInt req.hdr.fsize.toInt < 0 then .error .outside
  else
    let out ← unfilter dset.filters (mem.read b.addr (cInt req.hdr.fsize.toInt).toNat)
    if cInt out.length < 0 ∨ (b.size : ℤ) < cInt out.length then .error .outside else pure ()

/-- **`h5lreplay_read_data`** for the entries of all datasets, where `malloc n` is the buffer allocated for entry
`n`: the memory afterwards, and the buffers. -/
def readData (unfilter : Unfilter) (malloc : ℕ → ℕ) (dsets : List DsetInfo) (fin mem : Store)
    (reqs : List (List MetaEntry)) : Except Fault (Store × List ReqBuf) := do
  let sized ← reqs.flatten.zipIdx.mapM fun r => sizeReq dsets (malloc r.2) r.1
  let idxs ← createHindexed (sortIdxs (sized.map Prod.snd))
  let mem ← readPieces fin mem idxs
  let _ ← (reqs.flatten.zip sized).mapM fun r => unfilterReq unfilter dsets mem r.1 r.2.1
  pure (mem, sized.map Prod.fst)

/-! ## §4 — where the blocks lie. -/

/-- The bytes of each block. -/
def selSizes (dset : DsetInfo) (sels : List MetaSel) : List ℕ :=
  sels.map fun sel => dset.esize.toNat * (selBlock dset sel).elems

theorem selSizes_cons (dset : DsetInfo) (sel : MetaSel) (sels : List MetaSel) :
    selSizes dset (sel :: sels) = dset.esize.toNat * (selBlock dset sel).elems :: selSizes dset sels := rfl

theorem selBytes_eq (dset : DsetInfo) (sel : MetaSel) :
    blockBytes dset.esize (selBlock dset sel).count =
      BitVec.ofNat 64 (dset.esize.toNat * (selBlock dset sel).elems) :=
  blockBytes_eq dset.esize (selBlock dset sel)

theorem blockOffs_length (dset : DsetInfo) (bsize : HSize) (sels : List MetaSel) :
    (blockOffs dset bsize sels).length = sels.length := by
  induction sels generalizing bsize with
  | nil => rfl
  | cons sel sels ih => rw [blockOffs, List.length_cons, List.length_cons, ih]

/-- The blocks lie end to end as long as `bsize` does not wrap. -/
theorem blockOffs_layout (dset : DsetInfo) (buf : ℕ) {bsize : HSize} {sels : List MetaSel}
    (h : bsize.toNat + (selSizes dset sels).sum < 2 ^ 64) :
    ((blockOffs dset bsize sels).map fun off => buf + off.toNat).zip (selSizes dset sels) =
      layout (buf + bsize.toNat) (selSizes dset sels) := by
  induction sels generalizing bsize with
  | nil => rfl
  | cons sel sels ih =>
      rw [selSizes_cons, List.sum_cons] at h
      have hnext : (bsize + blockBytes dset.esize (selBlock dset sel).count).toNat =
          bsize.toNat + dset.esize.toNat * (selBlock dset sel).elems := by
        rw [selBytes_eq, BitVec.toNat_add, BitVec.toNat_ofNat]
        omega
      have hrest := @ih (bsize + blockBytes dset.esize (selBlock dset sel).count) (by omega)
      rw [hnext, ← Nat.add_assoc] at hrest
      exact congrArg _ hrest

theorem blocksEnd_toNat {dset : DsetInfo} {sels : List MetaSel} (h : (selSizes dset sels).sum < 2 ^ 64) :
    (blocksEnd dset sels).toNat = (selSizes dset sels).sum := by
  have hfold : ∀ (sels : List MetaSel) (bsize : HSize),
      sels.foldl (fun bsize sel => bsize + blockBytes dset.esize (selBlock dset sel).count) bsize =
        bsize + BitVec.ofNat 64 (selSizes dset sels).sum := by
    intro sels
    induction sels with
    | nil => exact fun bsize => (BitVec.add_zero bsize).symm
    | cons sel sels ih =>
        intro bsize
        rw [List.foldl_cons, ih, selBytes_eq, selSizes_cons, List.sum_cons, BitVec.ofNat_add, BitVec.add_assoc]
  have hzero : blocksEnd dset sels = BitVec.ofNat 64 (selSizes dset sels).sum :=
    (hfold sels 0).trans (BitVec.zero_add _)
  rw [hzero, BitVec.toNat_ofNat, Nat.mod_eq_of_lt h]

/-! ## §5 — entries of a log. -/

/-- The entry of a write through the connector, and the bytes that were written: the file has them as they are, or
filtered. -/
structure IsLogged (unfilter : Unfilter) (dsets : List DsetInfo) (fin : Store) (req : MetaEntry) (dset : DsetInfo)
    (data : List UInt8) : Prop where
  dset_eq : replayDset dsets req.hdr.did = .ok dset
  foff_nonneg : 0 ≤ req.hdr.foff.toInt
  fsize_nonneg : 0 ≤ req.hdr.fsize.toInt
  blocks_pos : ∀ n ∈ selSizes dset req.sels, 0 < n
  data_length : data.length = (selSizes dset req.sels).sum
  data_lt : data.length < 2 ^ 64
  stored_eq : dset.filters = [] → fin.read req.hdr.foff.toNat req.hdr.fsize.toNat = data
  unfilter_eq : dset.filters ≠ [] →
    unfilter dset.filters (fin.read req.hdr.foff.toNat req.hdr.fsize.toNat) = .ok data

structure LoggedEntry (unfilter : Unfilter) (dsets : List DsetInfo) (fin : Store) where
  req : MetaEntry
  dset : DsetInfo
  data : List UInt8
  logged : IsLogged unfilter dsets fin req dset data

namespace LoggedEntry

variable {unfilter : Unfilter} {dsets : List DsetInfo} {fin : Store} (e : LoggedEntry unfilter dsets fin)

/-- The bytes in the file. -/
def stored : List UInt8 := fin.read e.req.hdr.foff.toNat e.req.hdr.fsize.toNat

/-- The first of them. -/
theorem stored_take {n : ℕ} (h : n ≤ e.req.hdr.fsize.toNat) :
    e.stored.take n = fin.read e.req.hdr.foff.toNat n := Store.take_read fin _ h

/-- Their length as an `int`. -/
def len : ℤ := cInt e.req.hdr.fsize.toInt

/-- Where they are. -/
def fileRange : ℕ × ℕ := (e.req.hdr.foff.toNat, e.req.hdr.fsize.toNat)

/-- The size of the buffer. -/
def room : ℕ := (bufSize e.dset e.req).toNat

/-- The buffer, when it is at `addr`. -/
def buf (addr : ℕ) : ReqBuf :=
  ⟨addr, e.room, (blockOffs e.dset 0 e.req.sels).map fun off => addr + off.toNat⟩

@[simp] theorem buf_addr (addr : ℕ) : (e.buf addr).addr = addr := rfl

@[simp] theorem buf_size (addr : ℕ) : (e.buf addr).size = e.room := rfl

/-- The element of `idxs`. -/
def hidx (addr : ℕ) : Hidx := ⟨e.req.hdr.foff, addr, e.len⟩

/-- **The buffer is large enough, each block is in it, and holds what was written.** -/
structure HeldIn (mem : Store) (b : ReqBuf) : Prop where
  fits_stored : e.req.hdr.fsize.toNat ≤ b.size
  fits_data : e.data.length ≤ b.size
  bufs_length : b.bufs.length = e.req.sels.length
  inside : ∀ r ∈ b.bufs.zip (selSizes e.dset e.req.sels), b.addr ≤ r.1 ∧ r.1 + r.2 ≤ b.addr + b.size
  holds : (b.bufs.zip (selSizes e.dset e.req.sels)).map (fun r => mem.read r.1 r.2) =
    (selSizes e.dset e.req.sels).splitLengths e.data

/-- The first of the stored bytes are what was written, and the filters take what is read. -/
structure Intact : Prop where
  blocks : e.req.sels ≠ []
  whole : (e.data.length : ℤ) ≤ e.len
  bytes : e.stored.take e.data.length = e.data
  unfilters : e.dset.filters ≠ [] → ∃ out, unfilter e.dset.filters (e.stored.take e.len.toNat) = .ok out ∧
    0 ≤ cInt out.length ∧ cInt out.length ≤ e.room

theorem room_eq : e.room = max e.data.length e.req.hdr.fsize.toNat := by
  have hend := @blocksEnd_toNat e.dset e.req.sels (e.logged.data_length ▸ e.logged.data_lt)
  rw [← e.logged.data_length] at hend
  unfold room bufSize
  split
  · rename_i hlt
    rw [BitVec.lt_def] at hlt
    omega
  · rename_i hle
    rw [BitVec.lt_def] at hle
    omega

theorem fsize_toInt : e.req.hdr.fsize.toInt = e.req.hdr.fsize.toNat := by
  have := e.logged.fsize_nonneg
  rw [BitVec.toInt_eq_toNat_cond] at this ⊢
  split at this <;> omega

theorem stored_length : e.stored.length = e.req.hdr.fsize.toNat := Store.read_length ..

theorem len_le : e.len ≤ e.req.hdr.fsize.toNat := by
  have h := toNat_cInt_le e.req.hdr.fsize.toNat
  rw [len, fsize_toInt]
  omega

theorem data_pos (h : e.req.sels ≠ []) : 0 < e.data.length := by
  rw [e.logged.data_length]
  rcases hs : e.req.sels with _ | ⟨sel, sels⟩
  · exact absurd hs h
  · have hpos := e.logged.blocks_pos
    rw [hs] at hpos
    have := hpos _ (List.mem_cons_self ..)
    rw [selSizes_cons, List.sum_cons]
    exact Nat.add_pos_left this _

theorem bufs_layout (addr : ℕ) :
    (e.buf addr).bufs.zip (selSizes e.dset e.req.sels) = layout addr (selSizes e.dset e.req.sels) := by
  have hlt : (0 : HSize).toNat + (selSizes e.dset e.req.sels).sum < 2 ^ 64 := by
    have := e.logged.data_lt
    rw [e.logged.data_length] at this
    exact (Nat.zero_add _).trans_lt this
  exact blockOffs_layout e.dset addr hlt

/-- What the blocks hold is what is at the beginning of the buffer. -/
theorem heldIn_iff {mem : Store} {addr : ℕ} :
    e.HeldIn mem (e.buf addr) ↔ mem.read addr e.data.length = e.data := by
  have hsplit : (layout addr (selSizes e.dset e.req.sels)).map (fun r => mem.read r.1 r.2) =
      (selSizes e.dset e.req.sels).splitLengths (mem.read addr e.data.length) := by
    rw [Store.map_read_layout, e.logged.data_length]
  constructor
  · intro h
    have hholds := h.holds
    rw [bufs_layout, hsplit] at hholds
    have hflat := congrArg List.flatten hholds
    rwa [List.flatten_splitLengths _ _ (by rw [Store.read_length, e.logged.data_length]),
      List.flatten_splitLengths _ _ (by rw [e.logged.data_length])] at hflat
  · intro h
    refine ⟨?_, ?_, ?_, ?_, ?_⟩
    · exact (le_max_right _ _).trans_eq e.room_eq.symm
    · exact (le_max_left _ _).trans_eq e.room_eq.symm
    · rw [buf, List.length_map, blockOffs_length]
    · intro r hr
      rw [bufs_layout] at hr
      have hin := Lib.mem_layout_bounds hr
      have hroom := e.room_eq
      rw [e.logged.data_length] at hroom
      show addr ≤ r.1 ∧ r.1 + r.2 ≤ addr + e.room
      omega
    · rw [bufs_layout, hsplit, h]

/-- Of less than `2 ^ 31` stored bytes nothing is cut off. -/
theorem intact_iff (h : e.req.hdr.fsize.toNat < 2 ^ 31) :
    e.Intact ↔ e.req.sels ≠ [] ∧ e.data.length ≤ e.req.hdr.fsize.toNat ∧ e.stored.take e.data.length = e.data := by
  have hlen : e.len = e.req.hdr.fsize.toNat := by
    rw [len, fsize_toInt]
    exact cInt_of_range (by omega) (by omega)
  have hall : e.stored.take e.len.toNat = e.stored := by
    rw [hlen, Int.toNat_natCast, ← stored_length, List.take_length]
  constructor
  · intro hintact
    have hwhole := hintact.whole
    rw [hlen] at hwhole
    exact ⟨hintact.blocks, by omega, hintact.bytes⟩
  · rintro ⟨hblocks, hle, hbytes⟩
    refine ⟨hblocks, by omega, hbytes, fun hfilters => ⟨e.data, ?_, ?_⟩⟩
    · rw [hall]
      exact e.logged.unfilter_eq hfilters
    · rw [cInt_of_range (by omega) (by omega), room_eq]
      omega

end LoggedEntry

/-! ## §6 — all entries. -/

section Entries

variable {unfilter : Unfilter} {dsets : List DsetInfo} {fin : Store} {malloc : ℕ → ℕ}
  {reqs : List (List (LoggedEntry unfilter dsets fin))}

/-- **After the read every entry's buffer is large enough and its blocks hold what was written**, and no two buffers
overlap. -/
def Restores (entries : List (LoggedEntry unfilter dsets fin)) (res : Except Fault (Store × List ReqBuf)) : Prop :=
  ∃ mem bufs, res = .ok (mem, bufs) ∧ List.Forall₂ (fun e b => e.HeldIn mem b) entries bufs ∧
    bufs.Pairwise fun b c => RangesDisjoint (b.addr, b.size) (c.addr, c.size)

/-- What `malloc` promises: the buffers do not overlap. -/
def MallocApart (malloc : ℕ → ℕ) (entries : List (LoggedEntry unfilter dsets fin)) : Prop :=
  entries.zipIdx.Pairwise fun p q => RangesDisjoint (malloc p.2, p.1.room) (malloc q.2, q.1.room)

/-- The elements of `idxs`. -/
def hidxs (malloc : ℕ → ℕ) (entries : List (LoggedEntry unfilter dsets fin)) : List Hidx :=
  entries.zipIdx.map fun p => p.1.hidx (malloc p.2)

theorem sortIdxs_perm (idxs : List Hidx) : (sortIdxs idxs).Perm idxs := List.perm_insertionSort _ idxs

/-- Sorted by their offsets, data which lie apart in the file make a view. -/
theorem inView_sortIdxs {idxs : List Hidx} (hfoff : ∀ h ∈ idxs, 0 ≤ h.foff.toInt)
    (hapart : idxs.Pairwise fun a b => 0 < a.len → 0 < b.len →
      a.foff.toInt + a.len ≤ b.foff.toInt ∨ b.foff.toInt + b.len ≤ a.foff.toInt) : InView (sortIdxs idxs) := by
  have hperm := sortIdxs_perm idxs
  have htotal : Std.Total fun a b : Hidx => a.foff.toInt ≤ b.foff.toInt := ⟨fun _ _ => le_total _ _⟩
  have htrans : IsTrans Hidx fun a b => a.foff.toInt ≤ b.foff.toInt := ⟨fun _ _ _ => le_trans⟩
  have hsorted : (sortIdxs idxs).Pairwise fun a b => a.foff.toInt ≤ b.foff.toInt :=
    List.pairwise_insertionSort (fun a b : Hidx => a.foff.toInt ≤ b.foff.toInt) idxs
  have hdisj := hperm.symm.pairwise hapart fun {a b} h ha hb => (h hb ha).symm
  refine ⟨fun h hh => hfoff h (hperm.mem_iff.mp hh), ?_⟩
  refine (hsorted.and hdisj).imp ?_
  rintro a b ⟨hle, h⟩ ha hb
  rcases h ha hb with h | h <;> omega

theorem sizeReq_eq_ok_iff {e : LoggedEntry unfilter dsets fin} {addr : ℕ} {r : ReqBuf × Hidx} :
    sizeReq dsets addr e.req = .ok r ↔ e.req.sels ≠ [] ∧ r = (e.buf addr, e.hidx addr) := by
  rw [sizeReq, e.logged.dset_eq, Lib.ok_bind]
  split
  · rename_i hnil
    exact iff_of_false nofun fun h => h.1 hnil
  · rename_i hne
    exact ⟨fun h => ⟨hne, (Except.ok.inj h).symm⟩, fun h => congrArg Except.ok h.2.symm⟩

theorem createHindexed_eq_ok_iff {idxs taken : List Hidx} :
    createHindexed idxs = .ok taken ↔ 0 ≤ cInt idxs.length ∧ taken = idxs.take (cInt idxs.length).toNat ∧
      ∀ h ∈ taken, 0 ≤ h.len := by
  unfold createHindexed
  generalize cInt idxs.length = count
  split
  · rename_i hneg
    exact iff_of_false nofun fun h => absurd h.1 (not_le.mpr hneg)
  · rename_i hcount
    split
    · rename_i hlens
      constructor
      · intro h
        obtain rfl := Except.ok.inj h
        exact ⟨not_lt.mp hcount, rfl, hlens⟩
      · rintro ⟨-, rfl, -⟩
        rfl
    · rename_i hlens
      refine iff_of_false nofun ?_
      rintro ⟨-, rfl, h⟩
      exact hlens h

theorem sublist_of_createHindexed {idxs taken : List Hidx} (h : createHindexed idxs = .ok taken) :
    taken.Sublist idxs ∧ taken.length ≤ (cInt idxs.length).toNat := by
  obtain ⟨-, htake, -⟩ := createHindexed_eq_ok_iff.mp h
  rw [htake]
  exact ⟨List.take_sublist _ _, List.length_take_le _ _⟩

/-- As many elements as an `int` counts are all taken. -/
theorem createHindexed_all {idxs : List Hidx} (hcount : idxs.length < 2 ^ 31) (hlens : ∀ h ∈ idxs, 0 ≤ h.len) :
    createHindexed idxs = .ok idxs := by
  have hcast : cInt idxs.length = idxs.length := cInt_of_range (by omega) (by omega)
  rw [createHindexed_eq_ok_iff, hcast]
  exact ⟨Int.natCast_nonneg _, (List.take_length ..).symm, hlens⟩

theorem readPieces_eq_ok_iff {mem mem' : Store} {idxs : List Hidx} :
    readPieces fin mem idxs = .ok mem' ↔ InView idxs ∧ mem' = mem.writeAll (idxs.map (Hidx.piece fin)) := by
  unfold readPieces
  split
  · rename_i hview
    exact ⟨fun h => ⟨hview, (Except.ok.inj h).symm⟩, fun h => congrArg Except.ok h.2.symm⟩
  · rename_i hview
    exact iff_of_false nofun fun h => hview h.1

theorem unfilterReq_eq_ok_iff {e : LoggedEntry unfilter dsets fin} {mem : Store} {addr : ℕ} :
    unfilterReq unfilter dsets mem e.req (e.buf addr) = .ok () ↔ (e.dset.filters ≠ [] → 0 ≤ e.len ∧
      ∃ out, unfilter e.dset.filters (mem.read addr e.len.toNat) = .ok out ∧ 0 ≤ cInt out.length ∧
        cInt out.length ≤ e.room) := by
  rw [unfilterReq, e.logged.dset_eq, Lib.ok_bind]
  split
  · rename_i hnil
    exact iff_of_true rfl fun h => absurd hnil h
  · rename_i hne
    rw [← LoggedEntry.len, LoggedEntry.buf_addr, LoggedEntry.buf_size]
    split
    · rename_i hneg
      exact iff_of_false nofun fun h => absurd (h hne).1 (not_le.mpr hneg)
    · rename_i hlen
      rw [Lib.bind_eq_ok]
      refine ⟨fun ⟨out, hout, h⟩ _ => ⟨not_lt.mp hlen, out, hout, ?_⟩, fun h => ?_⟩
      · split at h
        · exact nomatch h
        · rename_i hsize
          omega
      · obtain ⟨-, out, hout, hnonneg, hle⟩ := h hne
        exact ⟨out, hout, if_neg (by omega)⟩

/-- What the function comes to. -/
theorem readData_eq_ok_iff {mem mem' : Store} {bufs : List ReqBuf} :
    readData unfilter malloc dsets fin mem (reqs.map fun es => es.map LoggedEntry.req) = .ok (mem', bufs) ↔
      (∀ e ∈ reqs.flatten, e.req.sels ≠ []) ∧
      bufs = reqs.flatten.zipIdx.map (fun p => p.1.buf (malloc p.2)) ∧
      ∃ taken, createHindexed (sortIdxs (hidxs malloc reqs.flatten)) = .ok taken ∧
        InView taken ∧ mem' = mem.writeAll (taken.map (Hidx.piece fin)) ∧
        ∀ p ∈ reqs.flatten.zipIdx, unfilterReq unfilter dsets mem' p.1.req (p.1.buf (malloc p.2)) = .ok () := by
  have hsized : ∀ sized, (((reqs.map fun es => es.map LoggedEntry.req).flatten.zipIdx.mapM
      fun r => sizeReq dsets (malloc r.2) r.1) = .ok sized ↔ (∀ p ∈ reqs.flatten.zipIdx, p.1.req.sels ≠ []) ∧
        sized = reqs.flatten.zipIdx.map fun p => (p.1.buf (malloc p.2), p.1.hidx (malloc p.2))) := by
    intro sized
    rw [← List.map_flatten, List.zipIdx_map, List.mapM_map]
    exact Lib.mapM_eq_ok_map_iff fun p _ r => sizeReq_eq_ok_iff
  have hfirst : ∀ mem', (((reqs.map fun es => es.map LoggedEntry.req).flatten.zip
      (reqs.flatten.zipIdx.map fun p => (p.1.buf (malloc p.2), p.1.hidx (malloc p.2)))).mapM
        fun r => unfilterReq unfilter dsets mem' r.1 r.2.1) =
      reqs.flatten.zipIdx.mapM fun p => unfilterReq unfilter dsets mem' p.1.req (p.1.buf (malloc p.2)) := by
    intro mem'
    have hreqs : reqs.flatten.map LoggedEntry.req = reqs.flatten.zipIdx.map fun p => p.1.req := by
      conv_lhs => rw [← List.zipIdx_map_fst 0 reqs.flatten, List.map_map]
      rfl
    rw [← List.map_flatten, hreqs, List.zip_map', List.mapM_map]
    rfl
  have hunfilter : ∀ mem' us, (reqs.flatten.zipIdx.mapM
      fun p => unfilterReq unfilter dsets mem' p.1.req (p.1.buf (malloc p.2))) = .ok us ↔
      (∀ p ∈ reqs.flatten.zipIdx, unfilterReq unfilter dsets mem' p.1.req (p.1.buf (malloc p.2)) = .ok ()) ∧
        us = reqs.flatten.zipIdx.map fun _ => () :=
    fun mem' us => Lib.mapM_eq_ok_map_iff fun p _ u => ⟨fun h => ⟨h, rfl⟩, fun h => h.1⟩
  -- Which number an entry has does not matter for whether it has blocks.
  have hnumbered : (∀ p ∈ reqs.flatten.zipIdx, p.1.req.sels ≠ []) ↔ ∀ e ∈ reqs.flatten, e.req.sels ≠ [] := by
    conv_rhs => rw [← List.zipIdx_map_fst 0 reqs.flatten, List.forall_mem_map]
  rw [readData, Lib.bind_eq_ok, ← hnumbered]
  constructor
  · rintro ⟨sized, hok, h⟩
    obtain ⟨hblocks, rfl⟩ := (hsized sized).mp hok
    obtain ⟨taken, htaken, h⟩ := Lib.bind_eq_ok.mp h
    obtain ⟨mem₁, hread, h⟩ := Lib.bind_eq_ok.mp h
    obtain ⟨us, hus, h⟩ := Lib.bind_eq_ok.mp h
    obtain ⟨hview, rfl⟩ := readPieces_eq_ok_iff.mp hread
    rw [hfirst, hunfilter] at hus
    rw [List.map_map] at htaken
    obtain ⟨rfl, rfl⟩ := Prod.mk.inj (Except.ok.inj h)
    exact ⟨hblocks, by rw [List.map_map]; rfl, taken, htaken, hview, rfl, hus.1⟩
  · rintro ⟨hblocks, rfl, taken, htaken, hview, rfl, hus⟩
    refine ⟨_, (hsized _).mpr ⟨hblocks, rfl⟩, ?_⟩
    refine Lib.bind_eq_ok.mpr ⟨taken, by rw [List.map_map]; exact htaken, ?_⟩
    refine Lib.bind_eq_ok.mpr ⟨_, readPieces_eq_ok_iff.mpr ⟨hview, rfl⟩, ?_⟩
    rw [hfirst]
    refine Lib.bind_eq_ok.mpr ⟨_, (hunfilter _ _).mpr ⟨hus, rfl⟩, ?_⟩
    rw [List.map_map]
    rfl

/-- The memory after the read. -/
def memAfter (fin mem : Store) (taken : List Hidx) : Store := mem.writeAll (taken.map (Hidx.piece fin))

theorem restores_iff (hmalloc : MallocApart malloc reqs.flatten) (mem : Store) :
    Restores reqs.flatten (readData unfilter malloc dsets fin mem (reqs.map fun es => es.map LoggedEntry.req)) ↔
      (∀ e ∈ reqs.flatten, e.req.sels ≠ []) ∧
      ∃ taken, createHindexed (sortIdxs (hidxs malloc reqs.flatten)) = .ok taken ∧ InView taken ∧
        ∀ p ∈ reqs.flatten.zipIdx, (memAfter fin mem taken).read (malloc p.2) p.1.data.length = p.1.data ∧
          unfilterReq unfilter dsets (memAfter fin mem taken) p.1.req (p.1.buf (malloc p.2)) = .ok () := by
  have hheld : ∀ mem' : Store, List.Forall₂ (fun (e : LoggedEntry unfilter dsets fin) b => e.HeldIn mem' b)
      reqs.flatten (reqs.flatten.zipIdx.map fun p => p.1.buf (malloc p.2)) ↔
        ∀ p ∈ reqs.flatten.zipIdx, mem'.read (malloc p.2) p.1.data.length = p.1.data := by
    intro mem'
    conv_lhs => rw [← List.zipIdx_map_fst 0 reqs.flatten]
    rw [List.forall₂_map_left_iff, List.zipIdx_map_fst, List.forall₂_map_right_iff, List.forall₂_same]
    exact forall₂_congr fun p _ => p.1.heldIn_iff
  have hapart : (reqs.flatten.zipIdx.map fun p => p.1.buf (malloc p.2)).Pairwise
      fun b c => RangesDisjoint (b.addr, b.size) (c.addr, c.size) := List.pairwise_map.mpr hmalloc
  constructor
  · rintro ⟨mem', bufs, hok, hall, -⟩
    obtain ⟨hblocks, rfl, taken, htaken, hview, rfl, hunfilter⟩ := readData_eq_ok_iff.mp hok
    exact ⟨hblocks, taken, htaken, hview, fun p hp => ⟨(hheld _).mp hall p hp, hunfilter p hp⟩⟩
  · rintro ⟨hblocks, taken, htaken, hview, hall⟩
    refine ⟨memAfter fin mem taken, _, readData_eq_ok_iff.mpr ⟨hblocks, rfl, taken, htaken, hview, rfl, ?_⟩, ?_, hapart⟩
    · exact fun p hp => (hall p hp).2
    · exact (hheld _).mpr fun p hp => (hall p hp).1

theorem LoggedEntry.piece_le (e : LoggedEntry unfilter dsets fin) (addr : ℕ) :
    (writeRange ((e.hidx addr).piece fin)).2 ≤ e.room := by
  have hlen : (writeRange ((e.hidx addr).piece fin)).2 = e.len.toNat := Store.read_length ..
  have hle := e.len_le
  have hroom := e.room_eq
  omega

/-- Different entries have different buffers. -/
theorem MallocApart.apart {entries : List (LoggedEntry unfilter dsets fin)} (hmalloc : MallocApart malloc entries)
    {p q : LoggedEntry unfilter dsets fin × ℕ} (hp : p ∈ entries.zipIdx) (hq : q ∈ entries.zipIdx) (hne : p ≠ q) :
    RangesDisjoint (malloc p.2, p.1.room) (malloc q.2, q.1.room) := by
  have hsymm : Std.Symm fun p q : LoggedEntry unfilter dsets fin × ℕ =>
      RangesDisjoint (malloc p.2, p.1.room) (malloc q.2, q.1.room) := ⟨fun _ _ h => h.symm⟩
  exact List.Pairwise.forall hmalloc hp hq hne

/-- Outside of what is read into an entry's own buffer, the buffer is as it was. -/
theorem memAfter_kept {entries : List (LoggedEntry unfilter dsets fin)} (hmalloc : MallocApart malloc entries)
    {taken : List Hidx} (htaken : taken ⊆ hidxs malloc entries) {p : LoggedEntry unfilter dsets fin × ℕ}
    (hp : p ∈ entries.zipIdx) {j : ℕ} (hj : j < p.1.room)
    (hout : p.1.hidx (malloc p.2) ∈ taken → p.1.len ≤ j) (mem : Store) :
    memAfter fin mem taken (malloc p.2 + j) = mem (malloc p.2 + j) := by
  refine Store.writeAll_of_notMem (List.forall_mem_map.mpr fun h hh => ?_) mem
  obtain ⟨q, hq, rfl⟩ := List.mem_map.mp (htaken hh)
  have hlen : ((q.1.hidx (malloc q.2)).piece fin).2.length = q.1.len.toNat := Store.read_length ..
  have hle := q.1.piece_le (malloc q.2)
  show malloc p.2 + j < malloc q.2 ∨ malloc q.2 + ((q.1.hidx (malloc q.2)).piece fin).2.length ≤ malloc p.2 + j
  by_cases heq : p = q
  · subst heq
    have := hout hh
    omega
  · have hdisj := hmalloc.apart hp hq heq
    simp only [RangesDisjoint, writeRange] at hdisj hle
    omega

/-- The pieces read are apart in memory. -/
theorem MallocApart.pieces {entries : List (LoggedEntry unfilter dsets fin)} (hmalloc : MallocApart malloc entries)
    {taken : List Hidx} (htaken : taken.Sublist (sortIdxs (hidxs malloc entries))) :
    (taken.map (Hidx.piece fin)).Pairwise fun w w' => RangesDisjoint (writeRange w) (writeRange w') := by
  have hall : (hidxs malloc entries).Pairwise fun h h' =>
      RangesDisjoint (writeRange (h.piece fin)) (writeRange (h'.piece fin)) := by
    rw [hidxs, List.pairwise_map]
    refine hmalloc.imp fun {p q} hpq => ?_
    have hp := p.1.piece_le (malloc p.2)
    have hq := q.1.piece_le (malloc q.2)
    have hstart : ∀ p : LoggedEntry unfilter dsets fin × ℕ,
        (writeRange ((p.1.hidx (malloc p.2)).piece fin)).1 = malloc p.2 := fun _ => rfl
    have hpstart := hstart p
    have hqstart := hstart q
    unfold RangesDisjoint at hpq ⊢
    omega
  have hsorted := (sortIdxs_perm (hidxs malloc entries)).symm.pairwise hall fun {_ _} h => h.symm
  exact List.pairwise_map.mpr (hsorted.sublist htaken)

/-- What is read of an entry is in its buffer. -/
theorem memAfter_read {entries : List (LoggedEntry unfilter dsets fin)} (hmalloc : MallocApart malloc entries)
    {taken : List Hidx} (htaken : taken.Sublist (sortIdxs (hidxs malloc entries)))
    {p : LoggedEntry unfilter dsets fin × ℕ} (hmem : p.1.hidx (malloc p.2) ∈ taken) (mem : Store) :
    (memAfter fin mem taken).read (malloc p.2) p.1.len.toNat = p.1.stored.take p.1.len.toNat := by
  have hread := Store.read_writeAll_mem (hmalloc.pieces htaken) (List.mem_map_of_mem hmem) mem
  have hlen : ((p.1.hidx (malloc p.2)).piece fin).2.length = p.1.len.toNat := Store.read_length ..
  have hle : p.1.len.toNat ≤ p.1.req.hdr.fsize.toNat := by
    have := p.1.len_le
    omega
  rw [hlen] at hread
  exact hread.trans (p.1.stored_take hle).symm

/-- An `int` counts all elements of `idxs` when it is enough for all buffers. -/
theorem length_lt_of_taken {entries : List (LoggedEntry unfilter dsets fin)} (hmalloc : MallocApart malloc entries)
    {taken : List Hidx} (hlen : taken.length ≤ (cInt entries.length).toNat)
    (hpos : ∀ p ∈ entries.zipIdx, 0 < p.1.room) (hall : ∀ p ∈ entries.zipIdx, p.1.hidx (malloc p.2) ∈ taken) :
    entries.length < 2 ^ 31 := by
  have hinj : ∀ p ∈ entries.zipIdx, ∀ q ∈ entries.zipIdx,
      p.1.hidx (malloc p.2) = q.1.hidx (malloc q.2) → p = q := by
    intro p hp q hq heq
    by_contra hne
    have haddr : malloc p.2 = malloc q.2 := congrArg Hidx.moff heq
    have hdisj := hmalloc.apart hp hq hne
    have hppos := hpos p hp
    have hqpos := hpos q hq
    simp only [RangesDisjoint, haddr] at hdisj
    omega
  have hnodup : (hidxs malloc entries).Nodup :=
    List.Nodup.map_on hinj (List.Nodup.of_map _ (List.nodup_zipIdx_map_snd entries))
  have hsub : hidxs malloc entries ⊆ taken := fun h hh => by
    obtain ⟨p, hp, rfl⟩ := List.mem_map.mp hh
    exact hall p hp
  have hcard := (List.subperm_of_subset hnodup hsub).length_le
  rw [hidxs, List.length_map, List.length_zipIdx] at hcard
  have := toNat_cInt_lt entries.length
  omega

/-- A byte of the data that is there whatever was in memory before has been read. -/
theorem taken_of_held {entries : List (LoggedEntry unfilter dsets fin)} (hmalloc : MallocApart malloc entries)
    {taken : List Hidx} (htaken : taken ⊆ hidxs malloc entries) {p : LoggedEntry unfilter dsets fin × ℕ}
    (hp : p ∈ entries.zipIdx)
    (hheld : ∀ mem, (memAfter fin mem taken).read (malloc p.2) p.1.data.length = p.1.data) {j : ℕ}
    (hj : j < p.1.data.length) : p.1.hidx (malloc p.2) ∈ taken ∧ j < p.1.len := by
  by_contra hnot
  have hroom : j < p.1.room := by
    rw [LoggedEntry.room_eq]
    omega
  have hout : p.1.hidx (malloc p.2) ∈ taken → p.1.len ≤ j := fun hmem => not_lt.mp fun hlt => hnot ⟨hmem, hlt⟩
  -- some other byte was there before
  have hkept := memAfter_kept hmalloc htaken hp hroom hout fun _ => p.1.data[j] + 1
  have hbyte := congrArg (fun bytes : List UInt8 => bytes[j]?) (hheld fun _ => p.1.data[j] + 1)
  simp only [Store.read, List.getElem?_map, List.getElem?_range hj, Option.map_some, hkept,
    List.getElem?_eq_getElem hj, Option.some.injEq] at hbyte
  exact absurd hbyte (by simp)

/-- The entries' data are apart in the file. -/
def FileApart (entries : List (LoggedEntry unfilter dsets fin)) : Prop :=
  entries.Pairwise fun e e' => RangesDisjoint e.fileRange e'.fileRange

theorem FileApart.inView {entries : List (LoggedEntry unfilter dsets fin)} (h : FileApart entries) :
    InView (sortIdxs (hidxs malloc entries)) := by
  have hfoff : ∀ e : LoggedEntry unfilter dsets fin, e.req.hdr.foff.toInt = e.req.hdr.foff.toNat := by
    intro e
    have := e.logged.foff_nonneg
    rw [BitVec.toInt_eq_toNat_cond] at this ⊢
    split at this <;> omega
  refine inView_sortIdxs (List.forall_mem_map.mpr fun p _ => p.1.logged.foff_nonneg) ?_
  rw [FileApart, ← List.zipIdx_map_fst 0 entries, List.pairwise_map] at h
  refine List.pairwise_map.mpr (h.imp fun {p q} hpq => ?_)
  have hp := p.1.len_le
  have hq := q.1.len_le
  intro hppos hqpos
  show p.1.req.hdr.foff.toInt + p.1.len ≤ q.1.req.hdr.foff.toInt ∨
    q.1.req.hdr.foff.toInt + q.1.len ≤ p.1.req.hdr.foff.toInt
  rw [hfoff, hfoff]
  have hppos' : 0 < p.1.len := hppos
  have hqpos' : 0 < q.1.len := hqpos
  simp only [RangesDisjoint, LoggedEntry.fileRange] at hpq
  omega

theorem unfilterReq_read {p : LoggedEntry unfilter dsets fin × ℕ} {mem : Store}
    (hread : mem.read (malloc p.2) p.1.len.toNat = p.1.stored.take p.1.len.toNat) (hlen : 0 ≤ p.1.len) :
    unfilterReq unfilter dsets mem p.1.req (p.1.buf (malloc p.2)) = .ok () ↔ (p.1.dset.filters ≠ [] →
      ∃ out, unfilter p.1.dset.filters (p.1.stored.take p.1.len.toNat) = .ok out ∧ 0 ≤ cInt out.length ∧
        cInt out.length ≤ p.1.room) := by
  rw [unfilterReq_eq_ok_iff, hread]
  exact ⟨fun h hne => (h hne).2, fun h hne => ⟨hlen, h hne⟩⟩

/-- An entry whose data are held whatever was in memory before is intact. -/
theorem intact_of_held {entries : List (LoggedEntry unfilter dsets fin)} (hmalloc : MallocApart malloc entries)
    {taken : List Hidx} (htaken : taken.Sublist (sortIdxs (hidxs malloc entries)))
    {p : LoggedEntry unfilter dsets fin × ℕ} (hp : p ∈ entries.zipIdx) (hblocks : p.1.req.sels ≠ [])
    (hheld : ∀ mem, (memAfter fin mem taken).read (malloc p.2) p.1.data.length = p.1.data)
    (hunfilter : ∀ mem,
      unfilterReq unfilter dsets (memAfter fin mem taken) p.1.req (p.1.buf (malloc p.2)) = .ok ()) :
    p.1.hidx (malloc p.2) ∈ taken ∧ p.1.Intact := by
  have hsub : taken ⊆ hidxs malloc entries := fun h hh => (sortIdxs_perm _).mem_iff.mp (htaken.subset hh)
  have hpos := p.1.data_pos hblocks
  obtain ⟨hmem, hlen⟩ := taken_of_held hmalloc hsub hp hheld hpos
  have hlast := (taken_of_held hmalloc hsub hp hheld (Nat.sub_one_lt_of_lt hpos)).2
  have hwhole : (p.1.data.length : ℤ) ≤ p.1.len := by omega
  have hread := memAfter_read hmalloc htaken hmem fun _ => 0
  refine ⟨hmem, hblocks, hwhole, ?_, (unfilterReq_read hread (by omega)).mp (hunfilter _)⟩
  calc p.1.stored.take p.1.data.length
      = (p.1.stored.take p.1.len.toNat).take p.1.data.length := by
        rw [List.take_take, min_eq_left (by omega)]
    _ = ((memAfter fin (fun _ => 0) taken).read (malloc p.2) p.1.len.toNat).take p.1.data.length := by rw [hread]
    _ = p.1.data := (Store.take_read _ _ (by omega)).trans (hheld _)

/-- An intact entry's data are held once they have been read. -/
theorem held_of_intact {entries : List (LoggedEntry unfilter dsets fin)} (hmalloc : MallocApart malloc entries)
    {taken : List Hidx} (htaken : taken.Sublist (sortIdxs (hidxs malloc entries)))
    {p : LoggedEntry unfilter dsets fin × ℕ} (hmem : p.1.hidx (malloc p.2) ∈ taken) (hintact : p.1.Intact)
    (mem : Store) :
    (memAfter fin mem taken).read (malloc p.2) p.1.data.length = p.1.data ∧
      unfilterReq unfilter dsets (memAfter fin mem taken) p.1.req (p.1.buf (malloc p.2)) = .ok () := by
  have hread := memAfter_read hmalloc htaken hmem mem
  have hwhole := hintact.whole
  refine ⟨?_, (unfilterReq_read hread (by omega)).mpr hintact.unfilters⟩
  calc (memAfter fin mem taken).read (malloc p.2) p.1.data.length
      = ((memAfter fin mem taken).read (malloc p.2) p.1.len.toNat).take p.1.data.length :=
        (Store.take_read _ _ (by omega)).symm
    _ = p.1.stored.take p.1.data.length := by rw [hread, List.take_take, min_eq_left (by omega)]
    _ = p.1.data := hintact.bytes

/-- **Whatever was in memory before, `h5lreplay_read_data` leaves every entry's buffer with the bytes that were
written** exactly when an `int` counts the entries and each of them is intact. -/
theorem readData_restores_iff (hmalloc : MallocApart malloc reqs.flatten) (hfile : FileApart reqs.flatten) :
    (∀ mem, Restores reqs.flatten
      (readData unfilter malloc dsets fin mem (reqs.map fun es => es.map LoggedEntry.req))) ↔
        reqs.flatten.length < 2 ^ 31 ∧ ∀ e ∈ reqs.flatten, e.Intact := by
  have hlength : (sortIdxs (hidxs malloc reqs.flatten)).length = reqs.flatten.length := by
    rw [(sortIdxs_perm _).length_eq, hidxs, List.length_map, List.length_zipIdx]
  have hentries : (∀ e ∈ reqs.flatten, e.Intact) ↔ ∀ p ∈ reqs.flatten.zipIdx, p.1.Intact := by
    conv_lhs => rw [← List.zipIdx_map_fst 0 reqs.flatten, List.forall_mem_map]
  rw [hentries]
  constructor
  · intro h
    obtain ⟨hblocks, taken, htaken, -⟩ := (restores_iff hmalloc _).mp (h fun _ => 0)
    obtain ⟨hsub, hlen⟩ := sublist_of_createHindexed htaken
    rw [hlength] at hlen
    -- the blocks of the types do not depend on what is in memory
    have hall : ∀ mem, ∀ p ∈ reqs.flatten.zipIdx,
        (memAfter fin mem taken).read (malloc p.2) p.1.data.length = p.1.data ∧
          unfilterReq unfilter dsets (memAfter fin mem taken) p.1.req (p.1.buf (malloc p.2)) = .ok () := by
      intro mem
      obtain ⟨-, taken', htaken', -, hheld⟩ := (restores_iff hmalloc mem).mp (h mem)
      obtain rfl := Except.ok.inj (htaken'.symm.trans htaken)
      exact hheld
    have hintact : ∀ p ∈ reqs.flatten.zipIdx, p.1.hidx (malloc p.2) ∈ taken ∧ p.1.Intact := fun p hp =>
      intact_of_held hmalloc hsub hp (hblocks _ (List.fst_mem_of_mem_zipIdx hp)) (fun mem => (hall mem p hp).1)
        fun mem => (hall mem p hp).2
    refine ⟨length_lt_of_taken hmalloc hlen (fun p hp => ?_) fun p hp => (hintact p hp).1, fun p hp => (hintact p hp).2⟩
    have hpos := p.1.data_pos (hintact p hp).2.blocks
    rw [LoggedEntry.room_eq]
    omega
  · rintro ⟨hcount, hintact⟩ mem
    have htaken : createHindexed (sortIdxs (hidxs malloc reqs.flatten)) =
        .ok (sortIdxs (hidxs malloc reqs.flatten)) := by
      refine createHindexed_all (hlength ▸ hcount) fun h hh => ?_
      obtain ⟨p, hp, rfl⟩ := List.mem_map.mp ((sortIdxs_perm _).mem_iff.mp hh)
      have hwhole := (hintact p hp).whole
      show 0 ≤ p.1.len
      omega
    refine (restores_iff hmalloc mem).mpr ⟨fun e he => ?_, _, htaken, hfile.inView, fun p hp => ?_⟩
    · exact (hentries.mpr hintact e he).blocks
    · have hmem := (sortIdxs_perm _).mem_iff.mpr (List.mem_map_of_mem
        (f := fun p : LoggedEntry unfilter dsets fin × ℕ => p.1.hidx (malloc p.2)) hp)
      exact held_of_intact hmalloc (List.Sublist.refl _) hmem (hintact p hp) mem

end Entries

/-! ### Two bytes as they are, and one byte deflated. -/

/-- zlib's inflate, for a stream of one stored block: a header of seven bytes, the data, and a checksum of four. -/
def inflateStored : Unfilter := fun _ bytes => .ok ((bytes.drop 7).take (bytes.length - 11))

/-- At 0 there is 7, deflated; at 20 there are 10 and 20. -/
def replayFile : Store :=
  (Store.write (fun _ => 0) 0 [0x78, 0x01, 0x01, 0x01, 0x00, 0xFE, 0xFF, 7, 0x00, 0x08, 0x00, 0x08]).write 20 [10, 20]

theorem replayDset_rank : ([2] : List HSize).length ≤ maxRank := by decide

theorem replayDset_mdims : ([2] : List HSize).length = ([2] : List HSize).length := rfl

theorem replayDset_dsteps : ([1] : List MpiOffset).length = ([2] : List HSize).length := rfl

/-- Bytes, two of them. -/
def plainDset : DsetInfo := DsetInfo.plain 1 [2] [2] [1] replayDset_rank replayDset_mdims replayDset_dsteps

def deflatedDset : DsetInfo := { plainDset with filters := [⟨filterDeflate⟩] }

def replayDsets : List DsetInfo := [plainDset, deflatedDset]

/-- An entry of dataset `did` with one block of `n` bytes. -/
def byteEntry (did : I32) (foff fsize : MpiOffset) (n : HSize) : MetaEntry where
  hdr := ⟨0, did, 0, foff, fsize⟩
  sels := [⟨[0], [n], 0⟩]
  dsize := n

theorem twoPlain_logged :
    IsLogged inflateStored replayDsets replayFile (byteEntry 0 20 2 2) plainDset [10, 20] where
  dset_eq := rfl
  foff_nonneg := by decide
  fsize_nonneg := by decide
  blocks_pos := by decide
  data_length := by decide
  data_lt := by decide
  stored_eq := fun _ => by decide
  unfilter_eq := fun h => absurd rfl h

theorem oneDeflated_logged :
    IsLogged inflateStored replayDsets replayFile (byteEntry 1 0 12 1) deflatedDset [7] where
  dset_eq := rfl
  foff_nonneg := by decide
  fsize_nonneg := by decide
  blocks_pos := by decide
  data_length := by decide
  data_lt := by decide
  stored_eq := fun h => by cases h
  unfilter_eq := fun _ => by decide

def twoPlain : LoggedEntry inflateStored replayDsets replayFile := ⟨_, _, _, twoPlain_logged⟩

def oneDeflated : LoggedEntry inflateStored replayDsets replayFile := ⟨_, _, _, oneDeflated_logged⟩

theorem twoPlain_intact : twoPlain.Intact :=
  (twoPlain.intact_iff (by decide)).mpr ⟨by decide, by decide, by decide⟩

/-- The two bytes are read back. -/
theorem readData_restores_twoPlain :
    MallocApart (fun n => 100 * n) [[twoPlain], []].flatten ∧ FileApart [[twoPlain], []].flatten ∧
      ∀ mem, Restores [twoPlain]
        (readData inflateStored (fun n => 100 * n) replayDsets replayFile mem [[twoPlain.req], []]) := by
  have hmalloc : MallocApart (fun n => 100 * n) [[twoPlain], []].flatten := List.pairwise_singleton _ _
  have hfile : FileApart [[twoPlain], []].flatten := List.pairwise_singleton _ _
  refine ⟨hmalloc, hfile, (readData_restores_iff hmalloc hfile).mpr ⟨by decide, fun e he => ?_⟩⟩
  obtain rfl := List.mem_singleton.mp he
  exact twoPlain_intact

/-- **The byte 7 is not**: its block holds the first byte of the deflated stream. -/
theorem not_restores_oneDeflated :
    ¬ Restores [oneDeflated]
      (readData inflateStored (fun n => 100 * n) replayDsets replayFile (fun _ => 0) [[oneDeflated.req]]) := by
  intro h
  have hmalloc : MallocApart (fun n => 100 * n) [[oneDeflated]].flatten := List.pairwise_singleton _ _
  obtain ⟨-, taken, htaken, -, hheld⟩ := (restores_iff hmalloc _).mp h
  have hread := (hheld (oneDeflated, 0) (List.mem_singleton.mpr rfl)).1
  have hsub := (sublist_of_createHindexed htaken).1
  rcases List.sublist_cons_iff.mp hsub with hnil | ⟨rest, rfl, hrest⟩
  · obtain rfl := List.sublist_nil.mp hnil
    exact absurd hread (by decide)
  · obtain rfl := List.sublist_nil.mp hrest
    exact absurd hread (by decide)

end LogVol
