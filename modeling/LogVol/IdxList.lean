/-
# LogVol.IdxList — the list index: parsing metadata and searching it.

The index holds, for every dataset, the entries parsed for it, in order. `parseBlock` walks a buffer of
encoded metadata entry by entry; with metadata sharing it keeps the blocks of the entries it has decoded,
for references to them. `searchReq` intersects the blocks of a read request with those of the entries.
`walkBlock_cons` says what one step of the walk does to a buffer that is a concatenation of entries.
-/
import LogVol.File

namespace LogVol

open Lib (Reads Yields)

/-! ## §1 — the index. -/

/-- `dsets_info[did]`, a null pointer when the dataset is not open. -/
def dsetAt (dsets : List (Option DsetInfo)) (did : I32) : Except Fault (Option DsetInfo) :=
  match dsets[did.toNat]? with
  | some dset => .ok dset
  | none => .error .outside

/-- `H5VL_logi_array_idx_t`: the entries of each dataset. -/
abbrev ArrayIdx := List (List MetaEntry)

/-- `insert`. -/
def ArrayIdx.insert (idx : ArrayIdx) (e : MetaEntry) : Except Fault ArrayIdx :=
  if e.hdr.did.toNat < idx.length then .ok (idx.modify e.hdr.did.toNat (· ++ [e])) else .error .outside

/-- The cache of decoded entries: the position of each and its blocks, the newest first. -/
abbrev BlockCache := List (Int × List MetaSel)

/-- `bcache[pos]`: no blocks where nothing was decoded. -/
def BlockCache.at (c : BlockCache) (pos : Int) : List MetaSel :=
  (c.find? fun p => p.1 == pos).elim [] Prod.snd

/-! ## §2 — parsing. -/

/-- One entry: a reference takes its blocks from the cache, any other entry adds its own to it. Without
sharing there is no cache, and no flag is looked at. -/
def parseEntry (z : Option Zlib) (share : Bool) (dset : DsetInfo) (hdr : MetaHdr) (ent : List UInt8)
    (pos : Int) (cache : BlockCache) : Except Fault (MetaEntry × BlockCache) :=
  if share then
    if hasFlag hdr.flag MetaFlag.selRef then
      ((metaentryRefDecode dset cache.at pos).run ent).map fun r => (r.1, cache)
    else (metaentryDecode z dset ent).map fun e => (e, (pos, e.sels) :: cache)
  else (metaentryDecode z dset ent).map fun e => (e, cache)

/-- An entry is parsed and inserted, unless its dataset is not open. -/
def parseStep (z : Option Zlib) (share : Bool) (dsets : List (Option DsetInfo)) (hdr : MetaHdr)
    (ent : List UInt8) (pos : Int) (s : BlockCache × ArrayIdx) : Except Fault (BlockCache × ArrayIdx) := do
  match ← dsetAt dsets hdr.did with
  | none => pure s
  | some dset =>
      let (e, cache) ← parseEntry z share dset hdr ent pos s.1
      let idx ← s.2.insert e
      pure (cache, idx)

/-- The size and the dataset of an entry: all that is read of it while its dataset is not known to be open. -/
def readHead : Lib.Reader Fault (I32 × I32) := do
  let metaSize ← readInt
  let did ← readInt
  pure (metaSize, did)

/-- `hdr_tmp`. What does not lie in the buffer is `0` here: a decoder reads the whole header, and goes outside. -/
def peekHdr (ent : List UInt8) : Except Fault MetaHdr :=
  (readHead.run ent).map fun p =>
    match readHdr.run ent with
    | .ok (hdr, _) => hdr
    | .error _ => ⟨p.1.1, p.1.2, 0, 0, 0⟩

/-- A whole header is seen as it is. -/
theorem peekHdr_of_readHdr {ent rest : List UInt8} {hdr : MetaHdr} (h : readHdr.run ent = .ok (hdr, rest)) :
    peekHdr ent = .ok hdr := by
  have hhead : ∃ p, readHead.run ent = .ok p := by
    unfold readHdr at h
    rcases Lib.run_bind_eq_ok.mp h with ⟨metaSize, mid, hsize, h⟩
    rcases Lib.run_bind_eq_ok.mp h with ⟨did, mid', hdid, -⟩
    exact ⟨_, Lib.run_bind_eq_ok.mpr ⟨metaSize, mid, hsize, Lib.run_bind_eq_ok.mpr ⟨did, mid', hdid, rfl⟩⟩⟩
  rcases hhead with ⟨p, hp⟩
  simp only [peekHdr, hp, h, Except.map]

/-- The walk over a buffer. A position is visited only once in a walk that ends, so it has ended after
one step for every byte. -/
def parseLoop (z : Option Zlib) (share : Bool) (dsets : List (Option DsetInfo)) (block : List UInt8) :
    Nat → Int → BlockCache × ArrayIdx → Except Fault ArrayIdx
  | 0, _, _ => .error .diverged
  | fuel + 1, pos, s =>
      if (block.length : Int) ≤ pos then .ok s.2
      else if pos < 0 then .error .outside
      else do
        let ent := block.drop pos.toNat
        let hdr ← peekHdr ent
        let s ← parseStep z share dsets hdr ent pos s
        parseLoop z share dsets block fuel (pos + hdr.metaSize.toInt) s

/-- **`parse_block`** of the list index. -/
def parseBlock (z : Option Zlib) (share : Bool) (dsets : List (Option DsetInfo)) (block : List UInt8)
    (idx : ArrayIdx) : Except Fault ArrayIdx :=
  parseLoop z share dsets block (block.length + 1) 0 ([], idx)

/-! ## §3 — a buffer of entries. -/

/-- The walk over a buffer, with what is done at each entry. -/
def walkBlock {S : Type} (step : MetaHdr → List UInt8 → Int → S → Except Fault S) (block : List UInt8) :
    Nat → Int → S → Except Fault S
  | 0, _, _ => .error .diverged
  | fuel + 1, pos, s =>
      if (block.length : Int) ≤ pos then .ok s
      else if pos < 0 then .error .outside
      else do
        let ent := block.drop pos.toNat
        let hdr ← peekHdr ent
        let s ← step hdr ent pos s
        walkBlock step block fuel (pos + hdr.metaSize.toInt) s

theorem parseLoop_eq_walkBlock (z : Option Zlib) (share : Bool) (dsets : List (Option DsetInfo))
    (block : List UInt8) (fuel : Nat) (pos : Int) (s : BlockCache × ArrayIdx) :
    parseLoop z share dsets block fuel pos s =
      (walkBlock (parseStep z share dsets) block fuel pos s).map Prod.snd := by
  induction fuel generalizing pos s with
  | zero => rfl
  | succ fuel ih =>
      rw [parseLoop, walkBlock]
      split
      · rfl
      · split
        · rfl
        · rcases hread : peekHdr (block.drop pos.toNat) with _ | hdr
          · simp only [hread]
            rfl
          · rcases hstep : parseStep z share dsets hdr (block.drop pos.toNat) pos s with _ | s'
            · simp only [hread, Lib.ok_bind, hstep]
              rfl
            · simp only [hread, Lib.ok_bind, hstep]
              exact ih _ s'

section Walk

variable {S : Type} {step : MetaHdr → List UInt8 → Int → S → Except Fault S}

/-- **One step** over a buffer that goes on with an entry of the size its header says. -/
theorem walkBlock_cons {hdr : MetaHdr} {body : List UInt8}
    (hsize : ((hdr.bytes ++ body).length : Int) = hdr.metaSize.toInt) (pre rest : List UInt8) (fuel : Nat)
    (s : S) :
    walkBlock step (pre ++ (hdr.bytes ++ body ++ rest)) (fuel + 1) pre.length s =
      step hdr (hdr.bytes ++ body ++ rest) pre.length s >>=
        walkBlock step (pre ++ (hdr.bytes ++ body ++ rest)) fuel (pre ++ (hdr.bytes ++ body)).length := by
  have hhdr : peekHdr (hdr.bytes ++ body ++ rest) = .ok hdr := by
    rw [List.append_assoc]
    exact peekHdr_of_readHdr (readHdr_reads hdr (body ++ rest))
  have hnext : (pre.length : Int) + hdr.metaSize.toInt = ((pre ++ (hdr.bytes ++ body)).length : Nat) := by
    rw [← hsize, ← Nat.cast_add, ← List.length_append]
  have hinside : ¬ ((pre ++ (hdr.bytes ++ body ++ rest)).length : Int) ≤ pre.length := by
    simp only [List.length_append, MetaHdr.bytes_length, sizeofHdr]
    omega
  rw [walkBlock, if_neg hinside, if_neg (by omega), Int.toNat_natCast, List.drop_left]
  simp only [hhdr, Lib.ok_bind]
  show (step hdr _ _ s >>= fun s => walkBlock step _ fuel (pre.length + hdr.metaSize.toInt) s) = _
  rw [hnext]

/-- At the end of the buffer the walk ends. -/
theorem walkBlock_nil (pre : List UInt8) (fuel : Nat) (s : S) :
    walkBlock step pre (fuel + 1) pre.length s = .ok s := by
  rw [walkBlock, if_pos le_rfl]

end Walk

/-- The entry is as long as its header says. -/
def WReq.WellSized (r : WReq) : Prop := (r.metaBuf.length : Int) = r.hdr.metaSize.toInt

/-- An entry has at least its header. -/
theorem WReq.metaBuf_pos (r : WReq) : 0 < r.metaBuf.length := by
  rw [WReq.metaBuf, List.length_append, MetaHdr.bytes_length]
  exact Nat.add_pos_left (by decide) _

/-- There are no more entries than bytes. -/
theorem length_le_metaBytes (rs : List WReq) : rs.length ≤ (rs.flatMap WReq.metaBuf).length := by
  induction rs with
  | nil => exact Nat.zero_le _
  | cons r rs ih =>
      have hpos := r.metaBuf_pos
      rw [List.length_cons, List.flatMap_cons, List.length_append]
      omega

/-- What the walk does to the entries of a list of requests, one after another, the first of them at
`pos`. -/
def walkEntries {S : Type} (step : MetaHdr → List UInt8 → Int → S → Except Fault S) :
    List WReq → Nat → S → Except Fault S
  | [], _, s => .ok s
  | r :: rs, pos, s =>
      step r.hdr (r.metaBuf ++ rs.flatMap WReq.metaBuf) pos s >>=
        walkEntries step rs (pos + r.metaBuf.length)

theorem walkBlock_from {S : Type} (step : MetaHdr → List UInt8 → Int → S → Except Fault S) {rs : List WReq}
    (hsize : ∀ r ∈ rs, r.WellSized) (pre : List UInt8) {fuel : Nat} (hfuel : rs.length < fuel) (s : S) :
    walkBlock step (pre ++ rs.flatMap WReq.metaBuf) fuel pre.length s =
      walkEntries step rs pre.length s := by
  induction rs generalizing pre fuel s with
  | nil =>
      obtain ⟨fuel, rfl⟩ : ∃ n, fuel = n + 1 := ⟨fuel - 1, by simp at hfuel; omega⟩
      rw [List.flatMap_nil, List.append_nil, walkBlock_nil]
      rfl
  | cons r rs ih =>
      obtain ⟨fuel, rfl⟩ : ∃ n, fuel = n + 1 := ⟨fuel - 1, by simp at hfuel; omega⟩
      have hcons := @walkBlock_cons S step _ _ (hsize r (List.mem_cons_self ..)) pre
        (rs.flatMap WReq.metaBuf) fuel s
      rw [List.flatMap_cons, walkEntries, WReq.metaBuf, hcons]
      congr 1
      funext s'
      have hrest := ih (fun x hx => hsize x (List.mem_cons_of_mem r hx)) (pre ++ (r.hdr.bytes ++ r.body))
        (by simpa using hfuel) s'
      rw [List.append_assoc] at hrest
      rw [hrest, List.length_append]

/-- **A buffer of entries is walked entry by entry.** -/
theorem walkBlock_entries {S : Type} (step : MetaHdr → List UInt8 → Int → S → Except Fault S)
    {rs : List WReq} (hsize : ∀ r ∈ rs, r.WellSized) (s : S) :
    walkBlock step (rs.flatMap WReq.metaBuf) ((rs.flatMap WReq.metaBuf).length + 1) 0 s =
      walkEntries step rs 0 s := by
  exact walkBlock_from step hsize [] (Nat.lt_succ_of_le (length_le_metaBytes rs)) s

theorem parseBlock_entries (z : Option Zlib) (share : Bool) (dsets : List (Option DsetInfo))
    {rs : List WReq} (hsize : ∀ r ∈ rs, r.WellSized) (idx : ArrayIdx) :
    parseBlock z share dsets (rs.flatMap WReq.metaBuf) idx =
      (walkEntries (parseStep z share dsets) rs 0 ([], idx)).map Prod.snd := by
  rw [parseBlock, parseLoop_eq_walkBlock, walkBlock_entries _ hsize]

/-! ## §4 — searching. -/

/-- `H5VL_log_rreq_t`: the blocks wanted of a dataset, and where in memory their elements go, one block
after another. -/
structure ReadReq where
  did : I32
  info : DsetInfo
  sels : Selections
  xbuf : Nat

/-- `H5VL_log_idx_search_ret_t`: a block of a request meets a block of an entry. Per dimension, `count`
is the extent of the intersection, at `dstart` of an entry block of `dsize` and at `mstart` of a request
block of `msize`, all of them `int`s. -/
structure SearchRet where
  info : DsetInfo
  dsize : List Int
  dstart : List Int
  msize : List Int
  mstart : List Int
  count : List Int
  xsize : MpiOffset
  doff : MpiOffset
  xbuf : Nat
  foff : MpiOffset
  fsize : MpiOffset

/-- A coordinate stored in an `int`. -/
def cordInt (c : HSize) : Int := cInt c.toNat

/-- `intersect`: start and extent of what two blocks share, if they share anything. -/
def intersect : List HSize → List HSize → List HSize → List HSize → Option (List HSize × List HSize)
  | sa :: sas, ca :: cas, sb :: sbs, cb :: cbs => do
      let so := if sa < sb then sb else sa
      let co := if sb + cb < sa + ca then sb + cb else sa + ca
      if co ≤ so then none
      else do
        let (sos, cos) ← intersect sas cas sbs cbs
        pure (so :: sos, (co - so) :: cos)
  | _, _, _, _ => some ([], [])

/-- A block of an entry against a block of a request whose elements go to `xbuf`. -/
def searchSel (req : ReadReq) (b : Block) (xbuf : Nat) (ent : MetaEntry) (msel : MetaSel) :
    Option SearchRet :=
  (intersect msel.start msel.count b.start b.count).map fun (os, oc) =>
    { info := req.info
      dsize := msel.count.map cordInt
      dstart := (List.zipWith (· - ·) os msel.start).map cordInt
      msize := b.count.map cordInt
      mstart := (List.zipWith (· - ·) os b.start).map cordInt
      count := oc.map cordInt
      xsize := ent.dsize
      doff := msel.doff
      xbuf := xbuf
      foff := ent.hdr.foff
      fsize := ent.hdr.fsize }

/-- The blocks of a request in order; `soff` is the size of the elements of the blocks before. -/
def searchBlocks (req : ReadReq) (ents : List MetaEntry) : HSize → List Block → List SearchRet
  | _, [] => []
  | soff, b :: bs =>
      (ents.flatMap fun ent => ent.sels.filterMap (searchSel req b (req.xbuf + soff.toNat) ent)) ++
        searchBlocks req ents (soff + b.selSize * req.info.esize) bs

/-- **`search`** of the list index. -/
def ArrayIdx.search (idx : ArrayIdx) (req : ReadReq) : Except Fault (List SearchRet) :=
  match idx[req.did.toNat]? with
  | some ents => .ok (searchBlocks req ents 0 req.sels.sels)
  | none => .error .outside

end LogVol
