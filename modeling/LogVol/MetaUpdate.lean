/-
# LogVol.MetaUpdate — loading metadata into the index, at once or in parts.

`metaupdate` parses every metadata dataset into the index, which is then searched once. With a limit on
the index buffer, `metaupdatePart` parses as many whole sections as fit, beginning at a cursor, and moves
the cursor on; the index is searched after each part. `Indexes` is what of an index both rely on: what it
parses of a run of sections, and that the search of an index takes its entries one by one.
-/
import LogVol.MetaDset
import LogVol.IdxCompact

namespace LogVol

/-! ## §1 — the index. -/

/-- `H5VL_logi_idx_t`, as the reader of a file uses it. -/
structure LogIdx (E : Type) where
  parseBlock : List UInt8 → List (List E) → Except Fault (List (List E))
  search : List (List E) → ReadReq → Except Fault (List SearchRet)

/-- The list index. -/
def listIdx (z : Option Zlib) (share : Bool) (dsets : List (Option DsetInfo)) : LogIdx MetaEntry where
  parseBlock := parseBlock z share dsets
  search := ArrayIdx.search

/-- The compact index. -/
def compactIdx (z : Option Zlib) (share : Bool) (dsets : List (Option DsetInfo)) :
    LogIdx CompactEntry where
  parseBlock := compactParseBlock z share dsets
  search := CompactIdx.search dsets

/-- `clear`. -/
def clearIdx {E : Type} (idx : List (List E)) : List (List E) := idx.map fun _ => []

section Search

variable {E : Type} (I : LogIdx E)

/-- Search the index for every request. -/
def searchAll (idx : List (List E)) (reqs : List ReadReq) : Except Fault (List SearchRet) :=
  (reqs.mapM (I.search idx)).map List.flatten

/-! ## §2 — loading at once. -/

/-- Read and parse the entries of one metadata dataset, which begin behind the map. -/
def metaupdateDset (ds : List UInt8) (idx : List (List E)) : Except Fault (List (List E)) := do
  let nsec ← readMapWord ds 0
  let start := BitVec.ofNat 64 sizeofOffset * (nsec + 1)
  let buf ← readSlab ds start (BitVec.ofNat 64 ds.length - start)
  I.parseBlock buf idx

/-- **`H5VL_log_filei_metaupdate`**, when no write request is pending. -/
def metaupdate (mdsets : List (List UInt8)) (idx : List (List E)) : Except Fault (List (List E)) :=
  mdsets.foldlM (fun idx ds => metaupdateDset I ds idx) (clearIdx idx)

/-! ## §3 — loading in parts. -/

/-- The ending offset of each section. -/
def readEnds (ds : List UInt8) (nsec : MpiOffset) : Except Fault (List MpiOffset) :=
  (List.range nsec.toNat).mapM fun k => readMapWord ds (BitVec.ofNat 64 (sizeofOffset * (k + 1)))

/-- The section behind the last one to load: the first behind `sec` that ends too far from `start`. Section
`sec` itself is always loaded, so the check for "OOM" that follows in the source is never met. -/
def fitSections (offs : List MpiOffset) (start limit : HSize) (sec : Nat) : Nat :=
  sec + 1 + ((offs.drop (sec + 1)).takeWhile fun off => !limit.ult (off - start)).length

/-- Advance `sec` and `md`. -/
def advance (nmdset : Nat) (nsec : MpiOffset) (md : I32) (i : Nat) : I32 × I32 :=
  let md' := if nsec.toInt ≤ i then md + 1 else md
  (if (nmdset : Int) ≤ md'.toInt then -1 else md', if nsec.toInt ≤ i then 0 else BitVec.ofNat 32 i)

/-- **`H5VL_log_filei_metaupdate_part`**, when no write request is pending: the index, the cursor behind
the sections that were loaded, and the buffer that was parsed. -/
def metaupdatePart (limit : HSize) (mdsets : List (List UInt8)) (md sec : I32) (idx : List (List E)) :
    Except Fault (List (List E) × (I32 × I32) × List UInt8) :=
  match mdsets[md.toNat]? with
  | none => .error (.raised "H5VLdataset_open")
  | some ds => do
      let nsec ← readMapWord ds 0
      let offs ← readEnds ds nsec
      if nsec.toInt ≤ sec.toInt then .error (.raised "Invalid section")
      else do
        let start := if sec = 0 then BitVec.ofNat 64 sizeofOffset * (nsec + 1) else offs.getD (sec.toNat - 1) 0
        let i := fitSections offs start limit sec.toNat
        let buf ← readSlab ds start (offs.getD (i - 1) 0 - start)
        let idx ← I.parseBlock buf (clearIdx idx)
        pure (idx, advance mdsets.length nsec md i, buf)

/-- Until all metadata datasets are iterated: load partial metadata, search the index. The buffers that were
parsed, and what was found. -/
def partLoop (limit : HSize) (mdsets : List (List UInt8)) (reqs : List ReadReq) :
    Nat → I32 × I32 → List (List E) → Except Fault (List (List UInt8) × List SearchRet)
  | 0, _, _ => .error .diverged
  | fuel + 1, (md, sec), idx =>
      if md = -1 then .ok ([], [])
      else do
        let (idx, cursor, buf) ← metaupdatePart I limit mdsets md sec idx
        let found ← searchAll I idx reqs
        let (bufs, rest) ← partLoop limit mdsets reqs fuel cursor idx
        pure (buf :: bufs, found ++ rest)

/-- **`H5VL_log_read_idx_search`** with a limit. Every step takes at least one section, and there are no more
sections than bytes. -/
def readIdxSearchPart (limit : HSize) (mdsets : List (List UInt8)) (reqs : List ReadReq)
    (idx : List (List E)) : Except Fault (List (List UInt8) × List SearchRet) :=
  partLoop I limit mdsets reqs (mdsets.flatten.length + 1) (0, 0) idx

/-- **`H5VL_log_read_idx_search`** without one, when the index is not up to date. -/
def readIdxSearchFull (mdsets : List (List UInt8)) (reqs : List ReadReq) (idx : List (List E)) :
    Except Fault (List SearchRet) := do
  let idx ← metaupdate I mdsets idx
  searchAll I idx reqs

end Search

/-! ## §4 — what the reader relies on. -/

variable {E V : Type}

/-- **An index**: what it parses of a run of sections, and a search that takes the entries of a dataset one
by one, for every block of the request. -/
structure Indexes (I : LogIdx E) (P : EntryParser E V) (share : Bool) (dsets : List (Option DsetInfo)) :
    Prop where
  parse : ∀ {rs : List WReq} {os : List (Option E)}, SectionHolds P share dsets rs os →
    ∀ {idx : List (List E)}, dsets.length ≤ idx.length →
      I.parseBlock (rs.flatMap WReq.metaBuf) idx = .ok (insertAll idx rs os)
  search : ∃ (skips : ReadReq → Except Fault Bool)
    (searchEnt : ReadReq → Block → Nat → E → Except Fault (List SearchRet)), ∀ idx req,
      I.search idx req = skips req >>= fun skip =>
        if skip then .ok []
        else (idx[req.did.toNat]?).elim (.error .outside) fun ents =>
          searchEntries (searchEnt req) req ents 0 req.sels.sels

/-- The search of an entry of the list index does not fail. -/
theorem searchEntries_list (req : ReadReq) (ents : List MetaEntry) (soff : HSize) (bs : List Block) :
    searchEntries (fun b xbuf ent => .ok (ent.sels.filterMap (searchSel req b xbuf ent))) req ents soff bs =
      .ok (searchBlocks req ents soff bs) := by
  induction bs generalizing soff with
  | nil => rfl
  | cons b bs ih =>
      have hents (xbuf : Nat) : (ents.mapM fun ent =>
          (.ok (ent.sels.filterMap (searchSel req b xbuf ent)) : Except Fault (List SearchRet))) =
          .ok (ents.map fun ent => ent.sels.filterMap (searchSel req b xbuf ent)) := by
        rw [Lib.mapM_eq_ok_iff, List.forall₂_map_right_iff, List.forall₂_same]
        exact fun _ _ => rfl
      rw [searchEntries, hents, Lib.ok_bind, ih, Lib.ok_bind, searchBlocks, List.flatMap_def]
      rfl

theorem listIdx_indexes (z : Option Zlib) (share : Bool) (dsets : List (Option DsetInfo)) :
    Indexes (listIdx z share dsets) (listParser z) share dsets where
  parse := fun h _ hidx => parseBlock_section h hidx
  search := by
    refine ⟨fun _ => .ok false, fun req b xbuf ent => .ok (ent.sels.filterMap (searchSel req b xbuf ent)),
      fun idx req => ?_⟩
    rw [Lib.ok_bind, if_neg Bool.false_ne_true]
    show ArrayIdx.search idx req = _
    unfold ArrayIdx.search
    rcases idx[req.did.toNat]? with _ | ents
    · rfl
    · exact (searchEntries_list req ents 0 req.sels.sels).symm

theorem compactIdx_indexes (z : Option Zlib) (share : Bool) (dsets : List (Option DsetInfo)) :
    Indexes (compactIdx z share dsets) (compactParser z) share dsets where
  parse := fun h _ hidx => compactParseBlock_section h hidx
  search := by
    refine ⟨fun req => (dsetAt dsets req.did).map Option.isNone,
      fun req => compactSearchEnt (((dsets[req.did.toNat]?).join).elim 0 DsetInfo.esize) req,
      fun idx req => ?_⟩
    show CompactIdx.search dsets idx req = (dsetAt dsets req.did).map Option.isNone >>= _
    unfold CompactIdx.search dsetAt
    rcases hdset : dsets[req.did.toNat]? with _ | _ | dset
    · rfl
    · rfl
    · have hesize : ((dsets[req.did.toNat]?).join).elim 0 DsetInfo.esize = dset.esize := by
        rw [hdset]
        rfl
      simp only [hesize]
      rcases idx[req.did.toNat]? with _ | ents
      · rfl
      · rfl

end LogVol
