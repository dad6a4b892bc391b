/-
# LogVol.ReplayMeta — how h5lreplay divides the metadata among its processes and parses it.

Every process of the replay computes, for each metadata dataset, which bytes of it to read, and which of
the entries it finds there to insert into its index. The bounds are `int`s, and the two 8-byte reads of
the decomposition map go through them: reading `start` overwrites `end`, and reading `end` overwrites
`off`. An entry is inserted together with its place in the dataset, which the source has as the address
of the entry.
-/
import LogVol.MetaDset

namespace LogVol

/-! ## §1 — dividing the jobs. -/

/-- `meta_sec`, without its buffer. -/
structure MetaSec where
  start : I32
  end_ : I32
  off : I32
  stride : I32

/-- The upper four of the eight bytes of a word. -/
def highWord (v : MpiOffset) : I32 := (v >>> 32).setWidth 32

/-- `H5Dread (.., &(sec.start))`: eight bytes over `start` and `end`. -/
def MetaSec.readStart (sec : MetaSec) (v : MpiOffset) : MetaSec :=
  { sec with start := v.setWidth 32, end_ := highWord v }

/-- `H5Dread (.., &(sec.end))`: eight bytes over `end` and `off`. -/
def MetaSec.readEnd (sec : MetaSec) (v : MpiOffset) : MetaSec :=
  { sec with end_ := v.setWidth 32, off := highWord v }

/-- Where the end of the section before the first one of rank `rank` stands in the map. -/
def startOf (rank np : I32) (nsec : MpiOffset) : HSize :=
  (rank.signExtend 64 * nsec).sdiv (np.signExtend 64) * BitVec.ofNat 64 sizeofOffset

/-- First rank to carry this section. -/
def firstRank (np : I32) (nsec : MpiOffset) (start : HSize) : I32 :=
  let share := np.signExtend 64 * start
  if share.umod nsec = 0 then (share.udiv nsec).setWidth 32 + 1 else (share.udiv nsec).setWidth 32

/-- Last rank to carry this section. -/
def lastRank (np : I32) (nsec : MpiOffset) (start : HSize) : I32 :=
  let share := np.signExtend 64 * (start + 1)
  if share.umod nsec = 0 then (share.udiv nsec).setWidth 32 - 1 else (share.udiv nsec).setWidth 32

/-- The number of ranks that carry this section. -/
def strideOf (np : I32) (nsec : MpiOffset) (start : HSize) : I32 :=
  lastRank np nsec start - firstRank np nsec start + 1

/-- For processes that start in the first section, the start offset is right after the end of the
decomposition map. -/
def MetaSec.behindMap (sec : MetaSec) (start : HSize) (nsec : MpiOffset) : MetaSec :=
  if start = 0 then { sec with start := (BitVec.ofNat 64 sizeofOffset * (nsec + 1)).setWidth 32 } else sec

/-- Dividing jobs: the bytes to read, and which entries among them to insert. All fields are set before
they are used. -/
def divideJobs (rank np : I32) (nsec : MpiOffset) (ds : List UInt8) : Except Fault MetaSec := do
  let start := startOf rank np nsec
  let v ← readMapWord ds start
  let sec := ((MetaSec.mk 0 0 0 0).readStart v).behindMap start nsec
  if np.signExtend 64 |>.sle nsec then do
    -- no process sharing a section
    let v ← readMapWord ds (startOf (rank + 1) np nsec)
    pure (MetaSec.readEnd { sec with stride := 1, off := 0 } v)
  else do
    let stride := strideOf np nsec start
    let off := rank - firstRank np nsec start
    let v ← readMapWord ds (start + BitVec.ofNat 64 sizeofOffset)
    pure (MetaSec.readEnd { sec with stride := stride, off := off } v)

/-- `(j - sec.off) % sec.stride == 0`. -/
def MetaSec.responsible (sec : MetaSec) (j : I32) : Except Fault Bool :=
  if sec.stride = 0 then .error .trap else .ok ((j - sec.off).srem sec.stride == 0)

/-! ## §2 — parsing. -/

/-- `dsets[hdr->did]`. -/
def replayDset (dsets : List DsetInfo) (did : I32) : Except Fault DsetInfo :=
  match dsets[did.toNat]? with
  | some dset => .ok dset
  | none => .error .outside

/-- Entries inserted into `reqs`, each with its place in the metadata dataset. -/
abbrev PlacedEntries := List (Int × MetaEntry)

/-- The loop for a file with metadata sharing: every entry is parsed, some are inserted. The walk has ended
after one step for every byte. -/
def sharedLoop (z : Option Zlib) (dsets : List DsetInfo) (sec : MetaSec) (buf : List UInt8) :
    Nat → I32 → Int → BlockCache → PlacedEntries → Except Fault PlacedEntries
  | 0, _, _, _, _ => .error .diverged
  | fuel + 1, j, ep, bcache, reqs =>
      if (buf.length : Int) ≤ ep then .ok reqs
      else if ep < 0 then .error .outside
      else do
        let ent := buf.drop ep.toNat
        let (hdr, _) ← readHdr.run ent
        let dset ← replayDset dsets hdr.did
        let (block, bcache) ← parseEntry z true dset hdr ent ep bcache
        let mine ← sec.responsible j
        sharedLoop z dsets sec buf fuel (j + 1) (ep + hdr.metaSize.toInt) bcache
          (if mine then reqs ++ [(sec.start.toInt + ep, block)] else reqs)

/-- The loop for a file without metadata sharing: the walk goes on to the next entry when one was
inserted. The counter wraps, so it has met every value after `2 ^ 32` steps. -/
def plainLoop (z : Option Zlib) (dsets : List DsetInfo) (sec : MetaSec) (buf : List UInt8) :
    Nat → I32 → Int → PlacedEntries → Except Fault PlacedEntries
  | 0, _, _, _ => .error .diverged
  | fuel + 1, j, ep, reqs =>
      if (buf.length : Int) ≤ ep then .ok reqs
      else if ep < 0 then .error .outside
      else do
        let ent := buf.drop ep.toNat
        let mine ← sec.responsible j
        if mine then do
          let (hdr, _) ← readHdr.run ent
          let dset ← replayDset dsets hdr.did
          let block ← metaentryDecode z dset ent
          plainLoop z dsets sec buf fuel (j + 1) (ep + hdr.metaSize.toInt)
            (reqs ++ [(sec.start.toInt + ep, block)])
        else plainLoop z dsets sec buf fuel (j + 1) ep reqs

/-- What rank `rank` of `np` inserts from one metadata dataset. The difference of the bounds is an `int`
expression, so it is not expected to wrap. -/
def parseMetaDset (z : Option Zlib) (config : I32) (dsets : List DsetInfo) (rank np : I32)
    (ds : List UInt8) : Except Fault PlacedEntries := do
  let nsec ← readMapWord ds 0
  if nsec.toInt ≤ 0 then pure []
  else do
    let sec ← divideJobs rank np nsec ds
    let count := BitVec.ofInt 64 (sec.end_.toInt - sec.start.toInt)
    let buf ← readSlab ds (sec.start.signExtend 64) count
    if hasFlag config FileConfig.metadataShare then sharedLoop z dsets sec buf (buf.length + 1) 0 0 [] []
    else plainLoop z dsets sec buf ((buf.length + 1) * 2 ^ 32) 0 0 []

/-- **`h5lreplay_parse_meta`** — the entries of each metadata dataset in turn. -/
def parseMeta (z : Option Zlib) (config : I32) (dsets : List DsetInfo) (rank np : I32)
    (mdsets : List (List UInt8)) : Except Fault (List PlacedEntries) :=
  mdsets.mapM (parseMetaDset z config dsets rank np)

end LogVol
