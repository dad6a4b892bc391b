/-
# LogVol.IdxCompact — the compact index.

An entry of the compact index keeps its blocks in one array, a record entry without the record's
dimension, and a reference keeps a pointer to the entry it refers to. What an entry has lost is computed
when it is searched: the offsets of its blocks, and the record it is in. `compactParser` is the index as
the sections see it; the walk of its `parse_block` does what it says (`compactStep_stepsAs`).
-/
import LogVol.Sections

namespace LogVol

variable {z : Option Zlib} {share : Bool} {dsets : List (Option DsetInfo)}

/-! ## §1 — entries. -/

/-- `blocks` of an entry that is no reference: `nsel` pairs of starts and counts, one after another. -/
structure CompactSels where
  nsel : Nat
  words : List HSize
  deriving DecidableEq, Repr

/-- `blocks`: an array of the entry's own, or, where `nsel` is `-1`, a pointer to the array of another
entry. -/
inductive CompactBlocks
  | own (sels : CompactSels)
  | ref (target : Option CompactSels)
  deriving DecidableEq, Repr

/-- The array, which a reference to no entry does not have. -/
def CompactBlocks.sels : CompactBlocks → Option CompactSels
  | own sels => some sels
  | ref target => target

/-- `H5VL_logi_compact_idx_entry_t`. The record number is `-1` in an entry that is in no record. -/
structure CompactEntry where
  recnum : HSize
  blocks : CompactBlocks
  foff : MpiOffset
  fsize : MpiOffset
  dsize : HSize
  deriving DecidableEq, Repr

/-- The coordinates behind the first `skip` of each start and of each count. -/
def packSels (skip : Nat) (sels : List MetaSel) : CompactSels where
  nsel := sels.length
  words := sels.flatMap fun s => s.start.drop skip ++ s.count.drop skip

/-- The entry made of a decoded one. -/
def compactPlain (e : MetaEntry) : Except Fault CompactEntry :=
  if hasFlag e.hdr.flag MetaFlag.record then
    match e.sels.head?.bind fun s => s.start.head? with
    | some rec => .ok ⟨rec, .own (packSels 1 e.sels), e.hdr.foff, e.hdr.fsize, e.dsize⟩
    | none => .error .outside
  else .ok ⟨-1, .own (packSels 0 e.sels), e.hdr.foff, e.hdr.fsize, e.dsize⟩

/-- The array of an entry that is no reference; only these can be referred to. -/
def CompactEntry.own (e : CompactEntry) : CompactSels :=
  match e.blocks with
  | .own sels => sels
  | .ref _ => ⟨0, []⟩

/-- The entry made of a reference. -/
def compactRef (hdr : MetaHdr) (recnum : Option HSize) (target : Option CompactSels) : CompactEntry :=
  ⟨recnum.getD (-1), .ref target, hdr.foff, hdr.fsize, 0⟩

/-- How the compact index makes an entry. -/
def compactParser (z : Option Zlib) : EntryParser CompactEntry CompactSels where
  plain := fun dset ent => metaentryDecode z dset ent >>= compactPlain
  ref := fun _ hdr ent kept => (refWords hdr ent).map fun w => compactRef hdr w.1 (some kept)
  keep := CompactEntry.own

theorem compactRef_of_ref {dset : DsetInfo} {hdr : MetaHdr} {ent : List UInt8}
    {w : Option HSize × MpiOffset} {kept : CompactSels} {e : CompactEntry} (hw : refWords hdr ent = .ok w)
    (h : (compactParser z).ref dset hdr ent kept = .ok e) : compactRef hdr w.1 (some kept) = e := by
  have h : (refWords hdr ent).map (fun w => compactRef hdr w.1 (some kept)) = .ok e := h
  rw [hw] at h
  exact Except.ok.inj h

/-! ## §2 — parsing. -/

/-- The entries of each dataset. -/
abbrev CompactIdx := List (List CompactEntry)

/-- The cache of entries that can be referred to. -/
abbrev CompactCache := PosCache CompactSels

/-- One entry: a reference gets a null pointer when nothing is in the cache where it points to. -/
def compactParse (z : Option Zlib) (share : Bool) (dset : DsetInfo) (hdr : MetaHdr) (ent : List UInt8)
    (pos : Int) (cache : CompactCache) : Except Fault (CompactEntry × CompactCache) :=
  if share then
    if hasFlag hdr.flag MetaFlag.selRef then
      (refWords hdr ent).map fun w => (compactRef hdr w.1 (cache.get? (pos + w.2.toInt)), cache)
    else (metaentryDecode z dset ent >>= compactPlain).map fun e => (e, (pos, e.own) :: cache)
  else (metaentryDecode z dset ent >>= compactPlain).map fun e => (e, cache)

/-- An entry is parsed and inserted, unless its dataset is not open. -/
def compactStep (z : Option Zlib) (share : Bool) (dsets : List (Option DsetInfo)) (hdr : MetaHdr)
    (ent : List UInt8) (pos : Int) (s : CompactCache × CompactIdx) :
    Except Fault (CompactCache × CompactIdx) := do
  match ← dsetAt dsets hdr.did with
  | none => pure s
  | some dset =>
      let (e, cache) ← compactParse z share dset hdr ent pos s.1
      if hdr.did.toNat < s.2.length then pure (cache, s.2.modify hdr.did.toNat (· ++ [e]))
      else .error .outside

/-- **`parse_block`** of the compact index. -/
def compactParseBlock (z : Option Zlib) (share : Bool) (dsets : List (Option DsetInfo))
    (block : List UInt8) (idx : CompactIdx) : Except Fault CompactIdx :=
  (walkBlock (compactStep z share dsets) block (block.length + 1) 0 ([], idx)).map Prod.snd

/-- A parsed entry is the one of the compact index. -/
theorem compactParse_compactParser {dset : DsetInfo} {hdr : MetaHdr} {ent : List UInt8} {pos : Int}
    {c : CompactCache} {e : CompactEntry}
    (h : (compactParser z).entryAt share dset hdr ent pos c = .ok e) :
    compactParse z share dset hdr ent pos c = .ok (e, (compactParser z).after share hdr pos e c) := by
  unfold compactParse EntryParser.after
  rcases share with _ | _
  · rw [EntryParser.entryAt_unshared] at h
    have hplain : (metaentryDecode z dset ent >>= compactPlain) = .ok e := h
    rw [if_neg Bool.false_ne_true, hplain]
    rfl
  · rcases href : hasFlag hdr.flag MetaFlag.selRef with _ | _
    · rw [EntryParser.entryAt_plain _ _ _ _ (by rw [MetaHdr.isRef, href]; rfl)] at h
      have hplain : (metaentryDecode z dset ent >>= compactPlain) = .ok e := h
      rw [if_pos rfl, if_neg Bool.false_ne_true, hplain]
      rfl
    · obtain ⟨w, kept, hw, hget, h⟩ :=
        ((compactParser z).entryAt_ref (by rw [MetaHdr.isRef, href]; rfl)).mp h
      rw [if_pos rfl, if_pos rfl, hw]
      show Except.ok (compactRef hdr w.1 (c.get? (pos + w.2.toInt)), c) = _
      rw [hget, compactRef_of_ref hw h]
      rfl

/-- The step of the compact index. -/
theorem compactStep_stepsAs (z : Option Zlib) (share : Bool) (dsets : List (Option DsetInfo)) :
    StepsAs (compactParser z) share dsets (compactStep z share dsets) where
  skip := by
    intro hdr hdset ent pos s
    unfold compactStep
    rw [hdset]
    rfl
  entry := by
    intro r dset hdset tail pos c e h idx hidx
    unfold compactStep
    simp only [hdset, Lib.ok_bind]
    rw [compactParse_compactParser h]
    simp only [Lib.ok_bind]
    rw [if_pos (Nat.lt_of_lt_of_le (dsetAt_lt hdset) hidx)]
    rfl

/-- **`parse_block` of the compact index** on a buffer of one or more sections. -/
theorem compactParseBlock_section {rs : List WReq} {os : List (Option CompactEntry)}
    (h : SectionHolds (compactParser z) share dsets rs os) {idx : CompactIdx}
    (hidx : dsets.length ≤ idx.length) :
    compactParseBlock z share dsets (rs.flatMap WReq.metaBuf) idx = .ok (insertAll idx rs os) :=
  (compactStep_stepsAs z share dsets).walkBlock h hidx

/-- What the list index makes an entry of, the compact index can. -/
theorem compactPlain_ok {dset : DsetInfo} {ent : List UInt8} {e : MetaEntry}
    (h : metaentryDecode z dset ent = .ok e) : ∃ ce, compactPlain e = .ok ce := by
  unfold compactPlain
  split
  · rename_i hrec
    obtain ⟨recnum, hhead⟩ := metaentryDecode_rec h hrec
    rw [hhead]
    exact ⟨_, rfl⟩
  · exact ⟨_, rfl⟩

/-- **A section of the list index is one of the compact index.** -/
theorem Parses.compact {pos : Int} {c : BlockCache} {c' : CompactCache} {rs : List WReq}
    {os : List (Option MetaEntry)} (h : Parses (listParser z) share dsets pos c rs os)
    (hc : ∀ p v, PosCache.get? c p = some v → ∃ v', c'.get? p = some v') :
    ∃ os', Parses (compactParser z) share dsets pos c' rs os' := by
  induction h generalizing c' with
  | nil => exact ⟨[], Parses.nil⟩
  | skip hsize hdset _ ih =>
      obtain ⟨os', hrest⟩ := ih hc
      exact ⟨none :: os', Parses.skip hsize hdset hrest⟩
  | @entry pos c r rs e os dset hsize hdset hentry _ ih =>
      have hmade : ∃ ce, ∀ tail,
          (compactParser z).entryAt share dset r.hdr (r.metaBuf ++ tail) pos c' = .ok ce := by
        -- Either index finds a target exactly where it has stored one, at the same positions.
        rcases href : r.hdr.isRef share with _ | _
        · simp only [EntryParser.entryAt_plain _ _ _ _ href, listParser_plain] at hentry ⊢
          obtain ⟨ce, hce⟩ := compactPlain_ok (hentry [])
          refine ⟨ce, fun tail => ?_⟩
          show (metaentryDecode z dset (r.metaBuf ++ tail) >>= compactPlain) = .ok ce
          rw [hentry tail, Lib.ok_bind, hce]
        · obtain ⟨w, v, hw, hget, -⟩ := ((listParser z).entryAt_ref href).mp (hentry [])
          obtain ⟨v', hget'⟩ := hc _ v hget
          refine ⟨compactRef r.hdr w.1 (some v'), fun tail => ?_⟩
          obtain ⟨w', _, hw', -⟩ := ((listParser z).entryAt_ref href).mp (hentry tail)
          obtain rfl := refWords_metaBuf hw hw'
          refine ((compactParser z).entryAt_ref href).mpr ⟨w, v', hw', hget', ?_⟩
          show (refWords r.hdr (r.metaBuf ++ tail)).map _ = _
          rw [hw']
          rfl
      obtain ⟨ce, hce⟩ := hmade
      have hnext : ∀ p v, PosCache.get? ((listParser z).after share r.hdr pos e c) p = some v →
          ∃ v', ((compactParser z).after share r.hdr pos ce c').get? p = some v' := by
        unfold EntryParser.after
        split
        · intro p v hp
          rw [PosCache.get?_cons] at hp ⊢
          split
          · exact ⟨_, rfl⟩
          · rename_i hne
            rw [if_neg hne] at hp
            exact hc p v hp
        · exact hc
      obtain ⟨os', hrest⟩ := ih hnext
      exact ⟨some ce :: os', Parses.entry hsize hdset hce hrest⟩

/-! ## §3 — searching. -/

/-- The blocks of an array one after another, `dim` starts and `dim` counts each; `doff` is where the data
of the next block begins, calculated on the fly. -/
def walkSels (esize : HSize) (dim : Nat) (hit : List HSize → List HSize → MpiOffset → Option SearchRet) :
    Nat → List HSize → MpiOffset → Except Fault (List SearchRet)
  | 0, _, _ => .ok []
  | nsel + 1, words, doff =>
      if words.length < 2 * dim then .error .outside
      else do
        let count := (words.drop dim).take dim
        let rest ← walkSels esize dim hit nsel (words.drop (2 * dim)) (doff + blockBytes esize count)
        pure ((hit (words.take dim) count doff).toList ++ rest)

/-- What a block of an entry shares with a block of a request: `lead` are the values of the dimension the
entry has left out, if it is in a record. -/
def compactHit (req : ReadReq) (b : Block) (xbuf : Nat) (ent : CompactEntry) (lead : Option (Int × Int))
    (start count : List HSize) (doff : MpiOffset) : Option SearchRet :=
  let skip := if lead.isSome then 1 else 0
  (intersect start count (b.start.drop skip) (b.count.drop skip)).map fun (os, oc) =>
    { info := req.info
      dsize := (lead.map fun _ => 1).toList ++ count.map cordInt
      dstart := (lead.map fun _ => 0).toList ++ (List.zipWith (· - ·) os start).map cordInt
      msize := (lead.map Prod.snd).toList ++ (b.count.drop skip).map cordInt
      mstart := (lead.map Prod.fst).toList ++ (List.zipWith (· - ·) os (b.start.drop skip)).map cordInt
      count := (lead.map fun _ => 1).toList ++ oc.map cordInt
      xsize := ent.dsize
      doff := doff
      xbuf := xbuf
      foff := ent.foff
      fsize := ent.fsize }

/-- An entry against a block of a request whose elements go to `xbuf`. An entry in a record is skipped
when the record is outside the block. -/
def compactSearchEnt (esize : HSize) (req : ReadReq) (b : Block) (xbuf : Nat) (ent : CompactEntry) :
    Except Fault (List SearchRet) :=
  match ent.blocks.sels with
  | none => .error .outside
  | some sels =>
      if 0 ≤ ent.recnum.toInt then
        match b.start.head?, b.count.head? with
        | some start, some count =>
            let mstart := cordInt (ent.recnum - start)
            let msize := cordInt count
            if mstart < 0 ∨ msize ≤ mstart then .ok []
            else walkSels esize (req.info.ndim - 1) (compactHit req b xbuf ent (some (mstart, msize)))
              sels.nsel sels.words 0
        | _, _ => .error .outside
      else walkSels esize req.info.ndim (compactHit req b xbuf ent none) sels.nsel sels.words 0

/-- The blocks of a request in order, and for each the entries of the dataset in order; `soff` is the size
of the elements of the blocks before. -/
def searchEntries {E : Type} (searchEnt : Block → Nat → E → Except Fault (List SearchRet)) (req : ReadReq)
    (ents : List E) : HSize → List Block → Except Fault (List SearchRet)
  | _, [] => .ok []
  | soff, b :: bs => do
      let found ← ents.mapM (searchEnt b (req.xbuf + soff.toNat))
      let rest ← searchEntries searchEnt req ents (soff + b.selSize * req.info.esize) bs
      pure (found.flatten ++ rest)

/-- **`search`** of the compact index. -/
def CompactIdx.search (dsets : List (Option DsetInfo)) (idx : CompactIdx) (req : ReadReq) :
    Except Fault (List SearchRet) := do
  match ← dsetAt dsets req.did with
  | none => pure []
  | some dset =>
      match idx[req.did.toNat]? with
      | some ents => searchEntries (compactSearchEnt dset.esize req) req ents 0 req.sels.sels
      | none => .error .outside

end LogVol
