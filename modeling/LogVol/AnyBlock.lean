/-
# LogVol.AnyBlock — parsing blocks that nobody has checked.

`parse_block` of either index on any bytes. The loop goes on by the size in each header, and only the decoders
look at that size: the entry of a dataset that is not open has none, nor has a reference in the compact index.
`Survives` is what should hold of every entry a walk comes to, `Walkable` what the bytes have to be for it, and
`anyBlock_survives_iff` says that this is exact.
-/
import LogVol.DecodeBounds
import LogVol.IdxCompact

namespace LogVol

/-! ## §1 — the loops. -/

/-- The arrays of a block that was decoded: where it has no coordinates, whatever was there before. -/
def padSel (stale : ℕ → HSize × HSize) (s : MetaSel) : MetaSel :=
  ⟨s.start ++ (List.range' s.start.length (maxRank - s.start.length)).map fun i => (stale i).1,
    s.count ++ (List.range' s.count.length (maxRank - s.count.length)).map fun i => (stale i).2, s.doff⟩

/-- One entry of the list index, with the whole arrays of the blocks that a reference takes. -/
def anyEntry (stale : ℕ → HSize × HSize) (z : Option Zlib) (share : Bool) (dset : DsetInfo) (hdr : MetaHdr)
    (ent : List UInt8) (pos : Int) (cache : BlockCache) : Except Fault (MetaEntry × BlockCache) :=
  if hdr.isRef share then
    ((metaentryRefDecode dset (fun p => (cache.at p).map (padSel stale)) pos).run ent).map fun r => (r.1, cache)
  else parseEntry z share dset hdr ent pos cache

/-- The step of the list index. -/
def anyStep (stale : ℕ → HSize × HSize) (z : Option Zlib) (share : Bool) (dsets : List (Option DsetInfo))
    (hdr : MetaHdr) (ent : List UInt8) (pos : Int) (s : BlockCache × ArrayIdx) :
    Except Fault (BlockCache × ArrayIdx) := do
  match ← dsetAt dsets hdr.did with
  | none => pure s
  | some dset =>
      let (e, cache) ← anyEntry stale z share dset hdr ent pos s.1
      let idx ← s.2.insert e
      pure (cache, idx)

/-- It does what `parseStep` does wherever that one has coordinates. -/
theorem refSels_padSel (stale : ℕ → HSize × HSize) {ndim : ℕ} {recnum : Option HSize} {cached sels : List MetaSel}
    (h : refSels ndim recnum cached = .ok sels) : refSels ndim recnum (cached.map (padSel stale)) = .ok sels := by
  unfold refSels at h ⊢
  split at h
  · rename_i hall
    have hlong : ∀ s ∈ cached, ndim ≤ s.start.length ∧ ndim ≤ s.count.length := by
      simpa [List.all_eq_true] using hall
    have hall' : ((cached.map (padSel stale)).all fun s => ndim ≤ s.start.length && ndim ≤ s.count.length) = true := by
      simp only [List.all_eq_true, List.mem_map, Bool.and_eq_true, decide_eq_true_eq]
      rintro _ ⟨s, hs, rfl⟩
      obtain ⟨hstart, hcount⟩ := hlong s hs
      simp only [padSel, List.length_append]
      omega
    rw [if_pos hall', ← h, List.map_map]
    congr 1
    apply List.map_congr_left
    intro s hs
    obtain ⟨hstart, hcount⟩ := hlong s hs
    rcases recnum with _ | r
    · simp only [Function.comp_apply, padSel, List.take_append_of_le_length hstart,
        List.take_append_of_le_length hcount]
    · simp only [Function.comp_apply, padSel, List.take_append_of_le_length hstart,
        List.take_append_of_le_length hcount]
  · cases h

theorem metaentryRefDecode_padSel (stale : ℕ → HSize × HSize) {dset : DsetInfo} {bcache : Int → List MetaSel}
    {pos : Int} {ent rest : List UInt8} {e : MetaEntry}
    (h : (metaentryRefDecode dset bcache pos).run ent = .ok (e, rest)) :
    (metaentryRefDecode dset (fun p => (bcache p).map (padSel stale)) pos).run ent = .ok (e, rest) := by
  obtain ⟨hdr, mid, hhdr, hpos, recnum, mid', hrec, roff, hroff, sels, hsels, hsize⟩ := metaentryRefDecode_eq_ok.mp h
  exact metaentryRefDecode_eq_ok.mpr ⟨hdr, mid, hhdr, hpos, recnum, mid', hrec, roff, hroff, sels,
    refSels_padSel stale hsels, hsize⟩

/-- **Where the list index parses an entry**, so does this step, and to the same entry. -/
theorem anyStep_of_parseStep (stale : ℕ → HSize × HSize) {z : Option Zlib} {share : Bool}
    {dsets : List (Option DsetInfo)} {hdr : MetaHdr} {ent : List UInt8} {pos : Int} {s s' : BlockCache × ArrayIdx}
    (h : parseStep z share dsets hdr ent pos s = .ok s') : anyStep stale z share dsets hdr ent pos s = .ok s' := by
  unfold parseStep at h
  unfold anyStep
  obtain ⟨odset, hdset, h⟩ := Lib.bind_eq_ok.mp h
  rw [hdset, Lib.ok_bind]
  rcases odset with _ | dset
  · exact h
  · obtain ⟨⟨e, cache⟩, hentry, h⟩ := Lib.bind_eq_ok.mp h
    have hsame : anyEntry stale z share dset hdr ent pos s.1 = .ok (e, cache) := by
      unfold anyEntry
      by_cases href : hdr.isRef share = true
      · rw [if_pos href]
        obtain ⟨hshare, hflag⟩ := Bool.and_eq_true_iff.mp href
        rw [parseEntry, if_pos hshare, if_pos hflag] at hentry
        rcases hrun : (metaentryRefDecode dset s.1.at pos).run ent with err | ⟨e', rest⟩
        · rw [hrun] at hentry
          cases hentry
        · rw [hrun] at hentry
          rw [metaentryRefDecode_padSel stale hrun]
          exact hentry
      · rw [if_neg href]
        exact hentry
    simp only [hsame]
    exact h

/-- A step that goes on wherever another does takes a walk just as far. -/
theorem walkBlock_mono {S : Type} {step step' : MetaHdr → List UInt8 → Int → S → Except Fault S}
    (hstep : ∀ hdr ent pos s s', step hdr ent pos s = .ok s' → step' hdr ent pos s = .ok s') {block : List UInt8}
    {fuel : ℕ} {pos : Int} {s t : S} (h : walkBlock step block fuel pos s = .ok t) :
    walkBlock step' block fuel pos s = .ok t := by
  induction fuel generalizing pos s with
  | zero => cases h
  | succ fuel ih =>
    rw [walkBlock] at h ⊢
    split at h
    · rename_i hend
      rwa [if_pos hend]
    · rename_i hin
      rw [if_neg hin]
      split at h
      · cases h
      · rename_i hlo
        rw [if_neg hlo]
        rcases Lib.bind_eq_ok.mp h with ⟨hdr, hhdr, h⟩
        rcases Lib.bind_eq_ok.mp h with ⟨s', hs', h⟩
        simp only [hhdr, Lib.ok_bind, hstep _ _ _ _ _ hs']
        exact ih h

/-- **A block that the list index parses** is parsed by this step, to the same index. -/
theorem anyStep_parses (stale : ℕ → HSize × HSize) {z : Option Zlib} {share : Bool} {dsets : List (Option DsetInfo)}
    {block : List UInt8} {idx idx' : ArrayIdx} (h : parseBlock z share dsets block idx = .ok idx') :
    ∃ cache, walkBlock (anyStep stale z share dsets) block (block.length + 1) 0 ([], idx) = .ok (cache, idx') := by
  rw [parseBlock, parseLoop_eq_walkBlock] at h
  rcases hwalk : walkBlock (parseStep z share dsets) block (block.length + 1) 0 ([], idx) with _ | ⟨cache, idx''⟩
  · rw [hwalk] at h
    cases h
  · rw [hwalk] at h
    obtain rfl : idx'' = idx' := Except.ok.inj h
    exact ⟨cache, walkBlock_mono (fun _ _ _ _ _ => anyStep_of_parseStep stale) hwalk⟩

/-- zlib, into a buffer from `malloc`: where `inflate` does not write, there is what was there before. The room is an
`unsigned int`. -/
def Zlib.intoBuffer (heap : ℕ → UInt8) (z : Zlib) : Zlib where
  compress := z.compress
  decompress := fun bytes room => (z.decompress bytes (room % 2 ^ 32)).map fun out =>
    out ++ (List.range' out.length (room - out.length)).map heap

/-- The buffer of the entry at a position. -/
def buffered (heap : Int → ℕ → UInt8) (z : Option Zlib) (pos : Int) : Option Zlib :=
  z.map (Zlib.intoBuffer (heap pos))

/-- The step of the list index, with what each of its buffers held before. -/
def anyListStep (stale : ℕ → HSize × HSize) (z : Int → Option Zlib) (share : Bool) (dsets : List (Option DsetInfo))
    (hdr : MetaHdr) (ent : List UInt8) (pos : Int) (s : BlockCache × ArrayIdx) :
    Except Fault (BlockCache × ArrayIdx) :=
  anyStep stale (z pos) share dsets hdr ent pos s

/-- The step of the compact index. -/
def anyCompactStep (z : Int → Option Zlib) (share : Bool) (dsets : List (Option DsetInfo)) (hdr : MetaHdr)
    (ent : List UInt8) (pos : Int) (s : CompactCache × CompactIdx) : Except Fault (CompactCache × CompactIdx) :=
  compactStep (z pos) share dsets hdr ent pos s

/-! ## §2 — what should hold. -/

section Walk

variable {S : Type} (step : MetaHdr → List UInt8 → Int → S → Except Fault S) (block : List UInt8)

/-- The walk comes to a position and a state from another. -/
inductive Visits : Int → S → Int → S → Prop
  | here {pos : Int} {s : S} : Visits pos s pos s
  | next {pos p : Int} {s s' t : S} {hdr : MetaHdr} (hlo : 0 ≤ pos)
      (hhi : pos < (block.length : Int)) (hhdr : peekHdr (block.drop pos.toNat) = .ok hdr)
      (hstep : step hdr (block.drop pos.toNat) pos s = .ok s') (h : Visits (pos + hdr.metaSize.toInt) s' p t) :
      Visits pos s p t

end Walk

/-- The block is consumed, or there is an error. -/
def EndsClean {α : Type} (x : Except Fault α) : Prop := (∃ a, x = .ok a) ∨ ∃ msg, x = .error (.raised msg)

/-- Where the selection begins. -/
def selOff (flag : I32) : ℕ := sizeofHdr + recSize flag + countSize flag

/-- What zlib is given lies in the block. -/
def InflatesInside (z : Option Zlib) (hdr : MetaHdr) (ent : List UInt8) : Prop :=
  0 < hdr.metaSize.toInt → packedAt hdr.flag = true → z.isSome = true →
    0 ≤ inflateLen hdr ∧ selOff hdr.flag + inflateLen hdr ≤ ent.length

/-- **An entry that the walk comes to**: it is rejected unless its size is positive, a reference is to an entry that
was parsed, and zlib reads inside the block. -/
structure Handled {V I : Type} (z : Int → Option Zlib) (share : Bool) (dsets : List (Option DsetInfo))
    (step : MetaHdr → List UInt8 → Int → PosCache V × I → Except Fault (PosCache V × I)) (hdr : MetaHdr)
    (ent : List UInt8) (pos : Int) (s : PosCache V × I) : Prop where
  rejected : hdr.metaSize.toInt ≤ 0 → ∃ msg, step hdr ent pos s = .error (.raised msg)
  parsed : ∀ dset w, dsetAt dsets hdr.did = .ok (some dset) → hdr.isRef share = true → 0 < hdr.metaSize.toInt →
    refWords hdr ent = .ok w → ∃ v, s.1.get? (pos + w.2.toInt) = some v
  inflates : ∀ dset, dsetAt dsets hdr.did = .ok (some dset) → hdr.isRef share = false →
    InflatesInside (z pos) hdr ent

/-- **`Survives`** — the walk from here ends, by consuming the block or with an error, and every entry it comes to is
handled. -/
structure Survives {V I : Type} (z : Int → Option Zlib) (share : Bool) (dsets : List (Option DsetInfo))
    (step : MetaHdr → List UInt8 → Int → PosCache V × I → Except Fault (PosCache V × I)) (block : List UInt8)
    (pos : Int) (s : PosCache V × I) : Prop where
  ends : ∃ fuel, EndsClean (walkBlock step block fuel pos s)
  handled : ∀ p t hdr, Visits step block pos s p t → 0 ≤ p → p < (block.length : Int) →
    peekHdr (block.drop p.toNat) = .ok hdr → Handled z share dsets step hdr (block.drop p.toNat) p t

/-! ## §3 — what the bytes have to be. -/

/-- The relative offset of a reference. -/
def refOff (hdr : MetaHdr) (ent : List UInt8) : MpiOffset := frontWord ((ent.drop sizeofHdr).drop (recSize hdr.flag))

/-- The record number and the relative offset lie in the block. -/
def RefFits (hdr : MetaHdr) (ent : List UInt8) : Prop :=
  recSize hdr.flag ≤ (ent.drop sizeofHdr).length ∧
    sizeofOffset ≤ ((ent.drop sizeofHdr).drop (recSize hdr.flag)).length

/-- **`Walkable`** — every header that is reached from a position lies in the block, its dataset is in the table and
its size is positive, and its entry lies in the block; `seen` are the positions of the entries that were parsed. The
list index also checks the size of a reference (`checked`). -/
inductive Walkable (checked : Bool) (z : Int → Option Zlib) (share : Bool) (dsets : List (Option DsetInfo))
    (block : List UInt8) : List Int → Int → Prop
  | done {seen : List Int} {pos : Int} (h : (block.length : Int) ≤ pos) :
      Walkable checked z share dsets block seen pos
  | skip {seen : List Int} {pos : Int} {hdr : MetaHdr} (hhdr : peekHdr (block.drop pos.toNat) = .ok hdr)
      (hdset : dsetAt dsets hdr.did = .ok none) (hsize : 0 < hdr.metaSize.toInt)
      (hrest : Walkable checked z share dsets block seen (pos + hdr.metaSize.toInt)) :
      Walkable checked z share dsets block seen pos
  | plain {seen : List Int} {pos : Int} {hdr : MetaHdr} {rest : List UInt8} {dset : DsetInfo}
      (hhdr : readHdr.run (block.drop pos.toNat) = .ok (hdr, rest))
      (hdset : dsetAt dsets hdr.did = .ok (some dset)) (href : hdr.isRef share = false)
      (hzip : InflatesInside (z pos) hdr (block.drop pos.toNat))
      (hgood : EntryGood (z pos) dset hdr (block.drop pos.toNat))
      (hrest : Walkable checked z share dsets block (if share then pos :: seen else seen)
        (pos + hdr.metaSize.toInt)) :
      Walkable checked z share dsets block seen pos
  | plainRefused {seen : List Int} {pos : Int} {hdr : MetaHdr} {rest : List UInt8} {dset : DsetInfo}
      (hhdr : readHdr.run (block.drop pos.toNat) = .ok (hdr, rest))
      (hdset : dsetAt dsets hdr.did = .ok (some dset)) (href : hdr.isRef share = false)
      (hzip : InflatesInside (z pos) hdr (block.drop pos.toNat))
      (hrefused : EntryRefused (z pos) dset hdr (block.drop pos.toNat)) :
      Walkable checked z share dsets block seen pos
  | ref {seen : List Int} {pos : Int} {hdr : MetaHdr} {rest : List UInt8} {dset : DsetInfo}
      (hhdr : readHdr.run (block.drop pos.toNat) = .ok (hdr, rest))
      (hdset : dsetAt dsets hdr.did = .ok (some dset)) (href : hdr.isRef share = true)
      (hsize : 0 < hdr.metaSize.toInt) (hfits : RefFits hdr (block.drop pos.toNat))
      (htarget : pos + (refOff hdr (block.drop pos.toNat)).toInt ∈ seen)
      (hrest : Walkable checked z share dsets block seen (pos + hdr.metaSize.toInt)) :
      Walkable checked z share dsets block seen pos
  | refRefused {seen : List Int} {pos : Int} {hdr : MetaHdr} {rest : List UInt8} {dset : DsetInfo}
      (hhdr : readHdr.run (block.drop pos.toNat) = .ok (hdr, rest))
      (hdset : dsetAt dsets hdr.did = .ok (some dset)) (href : hdr.isRef share = true) (hchecked : checked = true)
      (hsize : hdr.metaSize.toInt ≤ 0) :
      Walkable checked z share dsets block seen pos

/-! ## §4 — one step. -/

/-- The positions of the entries that can be referred to. -/
def positions {V : Type} (c : PosCache V) : List Int := c.map Prod.fst

theorem mem_positions {V : Type} {c : PosCache V} {pos : Int} : pos ∈ positions c ↔ ∃ v, c.get? pos = some v := by
  induction c with
  | nil => simp [positions, PosCache.get?]
  | cons p c ih =>
    have hcons : positions (p :: c) = p.1 :: positions c := rfl
    rw [hcons, List.mem_cons, ih, PosCache.get?_cons]
    by_cases h : p.1 = pos
    · simp [h]
    · simp [h, Ne.symm h]

/-- What the step of an index makes of an entry, whatever the bytes. -/
structure StepJudged {V I : Type} (checked : Bool) (z : Int → Option Zlib) (share : Bool)
    (dsets : List (Option DsetInfo))
    (step : MetaHdr → List UInt8 → Int → PosCache V × I → Except Fault (PosCache V × I))
    (Inv : PosCache V × I → Prop) : Prop where
  table : ∀ hdr ent pos s {err}, dsetAt dsets hdr.did = .error err →
    ∃ err', step hdr ent pos s = .error err' ∧ err'.Breaks
  skip : ∀ hdr ent pos s, dsetAt dsets hdr.did = .ok none → step hdr ent pos s = .ok s
  short : ∀ hdr ent pos s {dset}, dsetAt dsets hdr.did = .ok (some dset) → peekHdr ent = .ok hdr →
    ¬ sizeofHdr ≤ ent.length → ∃ err, step hdr ent pos s = .error err ∧ err.Breaks
  plain : ∀ hdr ent pos s {rest dset}, dsetAt dsets hdr.did = .ok (some dset) → hdr.isRef share = false →
    readHdr.run ent = .ok (hdr, rest) → Inv s →
    EndsAs (step hdr ent pos s) (EntryGood (z pos) dset hdr ent) (EntryRefused (z pos) dset hdr ent)
      fun s' => Inv s' ∧ positions s'.1 = if share then pos :: positions s.1 else positions s.1
  words : ∀ hdr ent pos s {rest dset}, dsetAt dsets hdr.did = .ok (some dset) → hdr.isRef share = true →
    readHdr.run ent = .ok (hdr, rest) → 0 < hdr.metaSize.toInt → ¬ RefFits hdr ent →
    ∃ err, step hdr ent pos s = .error err ∧ err.Breaks
  ref : ∀ hdr ent pos s {rest dset}, dsetAt dsets hdr.did = .ok (some dset) → hdr.isRef share = true →
    readHdr.run ent = .ok (hdr, rest) → 0 < hdr.metaSize.toInt → RefFits hdr ent → Inv s →
    pos + (refOff hdr ent).toInt ∈ positions s.1 →
      ∃ s', step hdr ent pos s = .ok s' ∧ Inv s' ∧ positions s'.1 = positions s.1
  size : ∀ hdr ent pos s {rest dset}, dsetAt dsets hdr.did = .ok (some dset) → hdr.isRef share = true →
    readHdr.run ent = .ok (hdr, rest) → hdr.metaSize.toInt ≤ 0 →
    ((∃ msg, step hdr ent pos s = .error (.raised msg)) ↔ checked = true)

/-- The words of a reference. -/
theorem refWords_ends (hdr : MetaHdr) (ent : List UInt8) :
    EndsAs (refWords hdr ent) (RefFits hdr ent) False fun w => w.2 = refOff hdr ent := by
  unfold refWords RefFits refOff
  refine EndsAs.map (Q := fun p => p.1.2 = frontWord ((ent.drop sizeofHdr).drop (recSize hdr.flag))) ?_ fun _ h => h
  rw [StateT.run_bind]
  refine ((readRecnum_ends hdr.flag (ent.drop sizeofHdr)).bind
    (sizeofOffset ≤ ((ent.drop sizeofHdr).drop (recSize hdr.flag)).length) False ?_).congr Iff.rfl
    (iff_of_false And.right id)
  rintro ⟨recnum, rest⟩ ⟨-, hrest⟩
  obtain rfl : rest = _ := hrest
  rw [StateT.run_bind]
  refine ((readOffset_ends ((ent.drop sizeofHdr).drop (recSize hdr.flag))).bind True False ?_).congr
    (and_iff_left trivial) (iff_of_false And.right id)
  rintro _ rfl
  exact EndsAs.of_ok rfl rfl

/-! ## §5 — the walk. -/

section Walk

variable {V I : Type} {checked : Bool} {z : Int → Option Zlib} {share : Bool} {dsets : List (Option DsetInfo)}
  {step : MetaHdr → List UInt8 → Int → PosCache V × I → Except Fault (PosCache V × I)}
  {Inv : PosCache V × I → Prop} {block rest : List UInt8} {pos : Int} {s s' : PosCache V × I} {hdr : MetaHdr}

theorem EndsClean.not_breaks {α : Type} {x : Except Fault α} (h : EndsClean x) {err : Fault} (herr : x = .error err) :
    ¬ err.Breaks := by
  subst herr
  rcases h with ⟨a, h⟩ | ⟨msg, h⟩
  · cases h
  · obtain rfl := Except.error.inj h
    exact id

/-- One more step of a walk. -/
theorem walkBlock_step (hlo : 0 ≤ pos) (hhi : pos < (block.length : Int))
    (hhdr : peekHdr (block.drop pos.toNat) = .ok hdr) (fuel : ℕ) :
    walkBlock step block (fuel + 1) pos s =
      step hdr (block.drop pos.toNat) pos s >>= walkBlock step block fuel (pos + hdr.metaSize.toInt) := by
  rw [walkBlock, if_neg (not_le.mpr hhi), if_neg (not_lt.mpr hlo)]
  simp only [hhdr, Lib.ok_bind]

/-- Four bytes for the size and four for the dataset. -/
theorem readHead_ends (bs : List UInt8) :
    EndsAs (readHead.run bs) (sizeofInt + sizeofInt ≤ bs.length) False fun _ => True := by
  unfold readHead
  rw [StateT.run_bind]
  refine ((readInt_ends bs).bind (sizeofInt ≤ (bs.drop sizeofInt).length) False ?_).congr ?_
    (iff_of_false And.right id)
  · rintro _ rfl
    rw [StateT.run_bind]
    exact ((readInt_ends (bs.drop sizeofInt)).bind True False fun _ _ => EndsAs.of_ok rfl trivial).congr
      (and_iff_left trivial) (iff_of_false And.right id)
  · simp only [List.length_drop, sizeofInt]
    omega

theorem peekHdr_ends (bs : List UInt8) :
    EndsAs (peekHdr bs) (sizeofInt + sizeofInt ≤ bs.length) False fun _ => True :=
  (readHead_ends bs).map fun _ _ => trivial

/-- A header that is not all there has no flags. -/
theorem peekHdr_short {bs : List UInt8} {hdr : MetaHdr} (h : peekHdr bs = .ok hdr)
    (hshort : ¬ sizeofHdr ≤ bs.length) : hdr.flag = 0 ∧ ∃ err, readHdr.run bs = .error err ∧ err.Breaks := by
  rcases (readHdr_ends bs).breaks hshort id with ⟨err, herr, hbreak⟩
  refine ⟨?_, err, herr, hbreak⟩
  rcases hhead : readHead.run bs with _ | p
  · simp [peekHdr, hhead, Except.map] at h
  · simp only [peekHdr, hhead, herr, Except.map] at h
    rw [← Except.ok.inj h]

/-- A walk that ends has a size and a dataset to read. -/
theorem exists_hdr (hlo : 0 ≤ pos) (hhi : pos < (block.length : Int)) {fuel : ℕ}
    (hends : EndsClean (walkBlock step block fuel pos s)) :
    ∃ fuel' hdr, fuel = fuel' + 1 ∧ peekHdr (block.drop pos.toNat) = .ok hdr := by
  rcases fuel with _ | fuel
  · exact absurd trivial (@EndsClean.not_breaks _ _ hends .diverged rfl)
  · rcases hread : peekHdr (block.drop pos.toNat) with err | hdr
    · have hshort : ¬ sizeofInt + sizeofInt ≤ (block.drop pos.toNat).length := by
        intro hlen
        rcases (peekHdr_ends (block.drop pos.toNat)).ok hlen with ⟨_, hok, -⟩
        rw [hread] at hok
        cases hok
      rcases (peekHdr_ends (block.drop pos.toNat)).breaks hshort id with ⟨err', herr, hbreak⟩
      obtain rfl := Except.error.inj (hread.symm.trans herr)
      have hstops : walkBlock step block (fuel + 1) pos s = .error err := by
        rw [walkBlock, if_neg (not_le.mpr hhi), if_neg (not_lt.mpr hlo)]
        simp only [hread]
        rfl
      exact absurd hbreak (hends.not_breaks hstops)
    · exact ⟨fuel, hdr, rfl, rfl⟩

/-- Behind an entry that was parsed. -/
theorem Survives.next (h : Survives z share dsets step block pos s) (hlo : 0 ≤ pos) (hhi : pos < (block.length : Int))
    (hhdr : peekHdr (block.drop pos.toNat) = .ok hdr)
    (hstep : step hdr (block.drop pos.toNat) pos s = .ok s') :
    Survives z share dsets step block (pos + hdr.metaSize.toInt) s' where
  ends := by
    obtain ⟨fuel, hends⟩ := h.ends
    obtain ⟨fuel, _, rfl, -⟩ := exists_hdr hlo hhi hends
    rw [walkBlock_step hlo hhi hhdr, hstep, Lib.ok_bind] at hends
    exact ⟨fuel, hends⟩
  handled := fun p t hdr' hvisits => h.handled p t hdr' (Visits.next hlo hhi hhdr hstep hvisits)

/-- The step of a walk that ends does not break. -/
theorem Survives.step_not_breaks (h : Survives z share dsets step block pos s) (hlo : 0 ≤ pos)
    (hhi : pos < (block.length : Int)) (hhdr : peekHdr (block.drop pos.toNat) = .ok hdr) {err : Fault}
    (hstep : step hdr (block.drop pos.toNat) pos s = .error err) : ¬ err.Breaks := by
  obtain ⟨fuel, hends⟩ := h.ends
  obtain ⟨fuel, _, rfl, -⟩ := exists_hdr hlo hhi hends
  rw [walkBlock_step hlo hhi hhdr, hstep] at hends
  exact hends.not_breaks rfl

/-- **A walk that survives goes over such bytes.** Each step goes on, since the size is positive. -/
theorem Survives.walkable (hj : StepJudged checked z share dsets step Inv)
    (h : Survives z share dsets step block pos s) (hlo : 0 ≤ pos) (hinv : Inv s) :
    Walkable checked z share dsets block (positions s.1) pos := by
  -- On how much of the block is left. A positive size makes it less, and one that is not is rejected.
  induction hn : ((block.length : Int) - pos).toNat using Nat.strong_induction_on generalizing pos s with
  | _ n ih =>
    subst hn
    by_cases hhi : (block.length : Int) ≤ pos
    · exact Walkable.done hhi
    · replace hhi := not_le.mp hhi
      obtain ⟨fuel, hends⟩ := h.ends
      obtain ⟨_, hdr, -, hpeek⟩ := exists_hdr hlo hhi hends
      have hhandled := h.handled pos s hdr Visits.here hlo hhi hpeek
      have hnext {s' : PosCache V × I} (hpos : 0 < hdr.metaSize.toInt)
          (hstep : step hdr (block.drop pos.toNat) pos s = .ok s') (hinv' : Inv s') :
          Walkable checked z share dsets block (positions s'.1) (pos + hdr.metaSize.toInt) :=
        ih _ (by omega) (h.next hlo hhi hpeek hstep) (by omega) hinv' rfl
      rcases hdset : dsetAt dsets hdr.did with err | odset
      · obtain ⟨err', hstep, hbreak⟩ := hj.table _ (block.drop pos.toNat) pos s hdset
        exact absurd hbreak (h.step_not_breaks hlo hhi hpeek hstep)
      · rcases odset with _ | dset
        · -- Not open: the step cannot reject the entry, so its size must be positive.
          have hstep := hj.skip _ (block.drop pos.toNat) pos s hdset
          have hpos : 0 < hdr.metaSize.toInt := by
            by_contra hle
            obtain ⟨msg, hmsg⟩ := hhandled.rejected (not_lt.mp hle)
            rw [hstep] at hmsg
            cases hmsg
          exact Walkable.skip hpeek hdset hpos (hnext hpos hstep hinv)
        · rcases hread : readHdr.run (block.drop pos.toNat) with err | ⟨hdr', rest⟩
          · have hshort : ¬ sizeofHdr ≤ (block.drop pos.toNat).length := by
              intro hlen
              rcases (readHdr_ends (block.drop pos.toNat)).ok hlen with ⟨_, hok, -⟩
              rw [hread] at hok
              cases hok
            rcases hj.short _ _ pos s hdset hpeek hshort with ⟨err, hstep, hbreak⟩
            exact absurd hbreak (h.step_not_breaks hlo hhi hpeek hstep)
          obtain rfl : hdr = hdr' := Except.ok.inj (hpeek.symm.trans (peekHdr_of_readHdr hread))
          have hhdr := hread
          rcases href : hdr.isRef share with _ | _
          · -- An entry of its own.
            have hends := hj.plain _ _ pos _ hdset href hhdr hinv
            have hzip := hhandled.inflates dset hdset href
            by_cases hgood : EntryGood (z pos) dset hdr (block.drop pos.toNat)
            · obtain ⟨s', hstep, hinv', hkeys⟩ := hends.ok hgood
              have hrest := hnext hgood.1 hstep hinv'
              rw [hkeys] at hrest
              exact Walkable.plain hhdr hdset href hzip hgood hrest
            · by_cases hrefused : EntryRefused (z pos) dset hdr (block.drop pos.toNat)
              · exact Walkable.plainRefused hhdr hdset href hzip hrefused
              · obtain ⟨err, hstep, hbreak⟩ := hends.breaks hgood hrefused
                exact absurd hbreak (h.step_not_breaks hlo hhi hpeek hstep)
          · -- A reference: its words, its target, and where references are checked its size.
            by_cases hpos : 0 < hdr.metaSize.toInt
            · by_cases hfits : RefFits hdr (block.drop pos.toNat)
              · obtain ⟨w, hw, hoff⟩ := (refWords_ends hdr (block.drop pos.toNat)).ok hfits
                have htarget := mem_positions.mpr (hhandled.parsed dset w hdset href hpos hw)
                rw [hoff] at htarget
                obtain ⟨s', hstep, hinv', hkeys⟩ := hj.ref _ _ _ _ hdset href hhdr hpos hfits hinv htarget
                have hrest := hnext hpos hstep hinv'
                rw [hkeys] at hrest
                exact Walkable.ref hhdr hdset href hpos hfits htarget hrest
              · obtain ⟨err, hstep, hbreak⟩ := hj.words _ _ pos s hdset href hhdr hpos hfits
                exact absurd hbreak (h.step_not_breaks hlo hhi hpeek hstep)
            · have hchecked := (hj.size _ _ _ _ hdset href hhdr (not_lt.mp hpos)).mp
                (hhandled.rejected (not_lt.mp hpos))
              exact Walkable.refRefused hhdr hdset href hchecked (not_lt.mp hpos)

theorem hdr_inside (hlo : 0 ≤ pos) (hhdr : peekHdr (block.drop pos.toNat) = .ok hdr) :
    pos < (block.length : Int) := by
  have hlen : sizeofInt + sizeofInt ≤ (block.drop pos.toNat).length := by
    by_contra hshort
    rcases (peekHdr_ends (block.drop pos.toNat)).breaks hshort id with ⟨err, herr, -⟩
    rw [hhdr] at herr
    cases herr
  simp only [List.length_drop, sizeofInt] at hlen
  omega

theorem Handled.of_plain {ent : List UInt8} (href : hdr.isRef share = false)
    (hsize : hdr.metaSize.toInt ≤ 0 → ∃ msg, step hdr ent pos s = .error (.raised msg))
    (hzip : InflatesInside (z pos) hdr ent) : Handled z share dsets step hdr ent pos s := by
  refine ⟨hsize, ?_, fun _ _ _ => hzip⟩
  intro dset w _ htrue
  rw [href] at htrue
  cases htrue

theorem Handled.of_ref {ent : List UInt8} (href : hdr.isRef share = true)
    (hsize : hdr.metaSize.toInt ≤ 0 → ∃ msg, step hdr ent pos s = .error (.raised msg))
    (htarget : 0 < hdr.metaSize.toInt → ∀ w, refWords hdr ent = .ok w → ∃ v, s.1.get? (pos + w.2.toInt) = some v) :
    Handled z share dsets step hdr ent pos s := by
  refine ⟨hsize, fun _ w _ _ hpos hw => htarget hpos w hw, ?_⟩
  intro dset _ hfalse
  rw [href] at hfalse
  cases hfalse

/-- A walk whose first step raises an error. -/
theorem Survives.of_raised (hlo : 0 ≤ pos) (hhi : pos < (block.length : Int))
    (hhdr : peekHdr (block.drop pos.toNat) = .ok hdr) {msg : String}
    (hstep : step hdr (block.drop pos.toNat) pos s = .error (.raised msg))
    (hhandled : Handled z share dsets step hdr (block.drop pos.toNat) pos s) :
    Survives z share dsets step block pos s where
  ends := ⟨1, Or.inr ⟨msg, by rw [walkBlock_step hlo hhi hhdr, hstep]; rfl⟩⟩
  handled := by
    intro p t hdr' hvisits _ _ hhdr'
    cases hvisits with
    | here =>
      obtain rfl := Except.ok.inj (hhdr.symm.trans hhdr')
      exact hhandled
    | next _ _ hhdr'' hstep' _ =>
      obtain rfl := Except.ok.inj (hhdr.symm.trans hhdr'')
      rw [hstep] at hstep'
      cases hstep'

/-- A walk whose first step goes on. -/
theorem Survives.of_next (hlo : 0 ≤ pos) (hhi : pos < (block.length : Int))
    (hhdr : peekHdr (block.drop pos.toNat) = .ok hdr)
    (hstep : step hdr (block.drop pos.toNat) pos s = .ok s')
    (hhandled : Handled z share dsets step hdr (block.drop pos.toNat) pos s)
    (h : Survives z share dsets step block (pos + hdr.metaSize.toInt) s') :
    Survives z share dsets step block pos s where
  ends := by
    obtain ⟨fuel, hends⟩ := h.ends
    exact ⟨fuel + 1, by rw [walkBlock_step hlo hhi hhdr, hstep, Lib.ok_bind]; exact hends⟩
  handled := by
    intro p t hdr' hvisits hplo hphi hhdr'
    cases hvisits with
    | here =>
      obtain rfl := Except.ok.inj (hhdr.symm.trans hhdr')
      exact hhandled
    | next _ _ hhdr'' hstep' hrest =>
      obtain rfl := Except.ok.inj (hhdr.symm.trans hhdr'')
      rw [hstep] at hstep'
      obtain rfl := Except.ok.inj hstep'
      exact h.handled p t hdr' hrest hplo hphi hhdr'

/-- **A walk over such bytes survives.** -/
theorem Walkable.survives (hj : StepJudged checked z share dsets step Inv) {seen : List Int}
    (h : Walkable checked z share dsets block seen pos) (hlo : 0 ≤ pos) (hinv : Inv s)
    (hseen : positions s.1 = seen) : Survives z share dsets step block pos s := by
  -- One case for each kind of entry: those that are refused end the walk, the others leave the rest to it.
  induction h generalizing s with
  | @done seen pos hend =>
    refine ⟨⟨1, Or.inl ⟨s, by rw [walkBlock, if_pos hend]⟩⟩, ?_⟩
    intro p t hdr hvisits _ hphi _
    cases hvisits with
    | here => exact absurd hphi (not_lt.mpr hend)
    | next _ hhi => exact absurd hhi (not_lt.mpr hend)
  | @skip seen pos hdr hhdr hdset hsize _ ih =>
    refine Survives.of_next hlo (hdr_inside hlo hhdr) hhdr (hj.skip _ _ _ _ hdset) ?_ (ih (by omega) hinv hseen)
    refine ⟨fun hle => absurd hsize (not_lt.mpr hle), ?_, ?_⟩
    · intro dset w hknown
      rw [hdset] at hknown
      cases hknown
    · intro dset hknown
      rw [hdset] at hknown
      cases hknown
  | @plain seen pos hdr rest dset hhdr hdset href hzip hgood _ ih =>
    obtain ⟨s', hstep, hinv', hkeys⟩ := (hj.plain _ _ pos _ hdset href hhdr hinv).ok hgood
    have hsize := hgood.1
    rw [hseen] at hkeys
    refine Survives.of_next hlo (hdr_inside hlo (peekHdr_of_readHdr hhdr)) (peekHdr_of_readHdr hhdr) hstep
      ?_ (ih (by omega) hinv' hkeys)
    exact Handled.of_plain href (fun hle => absurd hsize (not_lt.mpr hle)) hzip
  | @plainRefused seen pos hdr rest dset hhdr hdset href hzip hrefused =>
    obtain ⟨msg, hstep⟩ := (hj.plain _ _ pos _ hdset href hhdr hinv).raised hrefused
    refine Survives.of_raised hlo (hdr_inside hlo (peekHdr_of_readHdr hhdr)) (peekHdr_of_readHdr hhdr) hstep ?_
    exact Handled.of_plain href (fun _ => ⟨msg, hstep⟩) hzip
  | @ref seen pos hdr rest dset hhdr hdset href hsize hfits htarget _ ih =>
    rw [← hseen] at htarget
    obtain ⟨s', hstep, hinv', hkeys⟩ := hj.ref _ _ _ _ hdset href hhdr hsize hfits hinv htarget
    rw [hseen] at hkeys
    refine Survives.of_next hlo (hdr_inside hlo (peekHdr_of_readHdr hhdr)) (peekHdr_of_readHdr hhdr) hstep
      ?_ (ih (by omega) hinv' hkeys)
    refine Handled.of_ref href (fun hle => absurd hsize (not_lt.mpr hle)) ?_
    intro _ w hw
    obtain ⟨w', hw', hoff⟩ := (refWords_ends hdr (block.drop pos.toNat)).ok hfits
    obtain rfl := Except.ok.inj (hw.symm.trans hw')
    rw [hoff]
    exact mem_positions.mp htarget
  | @refRefused seen pos hdr rest dset hhdr hdset href hchecked hsize =>
    obtain ⟨msg, hstep⟩ := (hj.size _ _ pos s hdset href hhdr hsize).mpr hchecked
    refine Survives.of_raised hlo (hdr_inside hlo (peekHdr_of_readHdr hhdr)) (peekHdr_of_readHdr hhdr) hstep ?_
    exact Handled.of_ref href (fun _ => ⟨msg, hstep⟩) fun hpos => absurd hpos (not_lt.mpr hsize)

end Walk

/-! ## §6 — the two indexes. -/

section Indexes

variable {z : Option Zlib} {share : Bool} {dsets : List (Option DsetInfo)} {dset : DsetInfo} {hdr : MetaHdr}
  {ent rest : List UInt8} {pos : Int}

theorem dsetAt_breaks {did : I32} {err : Fault} (h : dsetAt dsets did = .error err) : err.Breaks := by
  unfold dsetAt at h
  split at h
  · cases h
  · obtain rfl := Except.error.inj h
    trivial

theorem refSels_ok {ndim : ℕ} (recnum : Option HSize) {cached : List MetaSel}
    (h : ∀ s ∈ cached, ndim ≤ s.start.length ∧ ndim ≤ s.count.length) :
    ∃ sels, refSels ndim recnum cached = .ok sels ∧ sels.length = cached.length := by
  have hall : (cached.all fun s => ndim ≤ s.start.length && ndim ≤ s.count.length) = true := by
    simpa [List.all_eq_true] using h
  exact ⟨_, if_pos hall, List.length_map ..⟩

/-- **`H5VL_logi_metaentry_ref_decode` on any bytes**, when the arrays of all blocks are long enough. -/
theorem metaentryRefDecode_ends {bcache : Int → List MetaSel}
    (hlong : ∀ p, ∀ s ∈ bcache p, dset.ndim ≤ s.start.length ∧ dset.ndim ≤ s.count.length)
    (hhdr : readHdr.run ent = .ok (hdr, rest)) :
    EndsAs ((metaentryRefDecode dset bcache pos).run ent)
      (0 < hdr.metaSize.toInt ∧ RefFits hdr ent ∧ bcache (pos + (refOff hdr ent).toInt) ≠ [])
      (hdr.metaSize.toInt ≤ 0) fun p => p.1.hdr = hdr := by
  obtain rfl := readHdr_rest hhdr
  unfold metaentryRefDecode
  rw [StateT.run_bind, hhdr, Lib.ok_bind]
  dsimp only
  rw [StateT.run_bind]
  by_cases hpos : hdr.metaSize.toInt ≤ 0
  · rw [checkMetaSize, if_pos hpos]
    exact (EndsAs.of_raise "Invalid metadata entry" rfl).congr (iff_of_false id fun h => absurd h.1 (not_lt.mpr hpos))
      (iff_of_true trivial hpos)
  · have hcheck : (checkMetaSize hdr).run (ent.drop sizeofHdr) = .ok ((), ent.drop sizeofHdr) := by
      rw [checkMetaSize, if_neg hpos]
      rfl
    rw [hcheck, Lib.ok_bind]
    dsimp only
    rw [StateT.run_bind]
    refine ((readRecnum_ends hdr.flag (ent.drop sizeofHdr)).bind
      (sizeofOffset ≤ ((ent.drop sizeofHdr).drop (recSize hdr.flag)).length ∧
        bcache (pos + (refOff hdr ent).toInt) ≠ []) False ?_).congr ?_ (iff_of_false And.right hpos)
    · rintro ⟨recnum, rest⟩ ⟨-, hrest⟩
      obtain rfl : rest = _ := hrest
      rw [StateT.run_bind]
      refine ((readOffset_ends ((ent.drop sizeofHdr).drop (recSize hdr.flag))).bind
        (bcache (pos + (refOff hdr ent).toInt) ≠ []) False ?_).congr Iff.rfl (iff_of_false And.right id)
      rintro _ rfl
      obtain ⟨sels, hsels, hlen⟩ := refSels_ok recnum (hlong (pos + (refOff hdr ent).toInt))
      dsimp only
      rw [StateT.run_bind, ← refOff, pureExcept_run, hsels, Except.map, Lib.ok_bind]
      dsimp only
      rw [StateT.run_bind, pureExcept_run]
      by_cases hnil : bcache (pos + (refOff hdr ent).toInt) = []
      · rw [hnil, List.length_nil, List.length_eq_zero_iff] at hlen
        subst hlen
        exact (EndsAs.of_break .outside rfl trivial).congr (iff_of_false id fun h => h hnil) Iff.rfl
      · have hne : sels ≠ [] := by
          rw [← List.length_pos_iff, hlen]
          exact List.length_pos_iff.mpr hnil
        obtain ⟨dsize, hdsize⟩ := lastBlockEnd_ok dset.esize dset.ndim hne
        rw [hdsize]
        exact (EndsAs.of_ok (Q := fun p : MetaEntry × List UInt8 => p.1.hdr = hdr) rfl rfl).congr
          (iff_of_true trivial hnil) Iff.rfl
    · unfold RefFits
      rw [and_assoc, and_iff_right (not_le.mp hpos)]

theorem padSel_long (stale : ℕ → HSize × HSize) (dset : DsetInfo) (s : MetaSel) :
    dset.ndim ≤ (padSel stale s).start.length ∧ dset.ndim ≤ (padSel stale s).count.length := by
  have hrank : dset.ndim ≤ maxRank := dset.rank_le
  unfold padSel
  simp only [List.length_append, List.length_map, List.length_range']
  omega

/-- The list index is as long as the table, and every entry that was parsed has a block. -/
structure ListInv (dsets : List (Option DsetInfo)) (s : BlockCache × ArrayIdx) : Prop where
  rows : dsets.length ≤ s.2.length
  blocks : ∀ p ∈ s.1, p.2 ≠ []

theorem insert_ok {s : BlockCache × ArrayIdx} (h : ListInv dsets s)
    (hdset : dsetAt dsets hdr.did = .ok (some dset)) {e : MetaEntry} (he : e.hdr = hdr) {cache : BlockCache}
    (hcache : ∀ p ∈ cache, p.2 ≠ []) :
    ∃ s', (s.2.insert e >>= fun idx => pure (cache, idx)) = .ok s' ∧ ListInv dsets s' ∧ s'.1 = cache := by
  have hlt : e.hdr.did.toNat < s.2.length := by
    rw [he]
    exact (dsetAt_lt hdset).trans_le h.rows
  refine ⟨(cache, s.2.modify e.hdr.did.toNat (· ++ [e])), ?_, ⟨?_, hcache⟩, rfl⟩
  · rw [ArrayIdx.insert, if_pos hlt]
    rfl
  · rw [List.length_modify]
    exact h.rows

theorem BlockCache.at_ne_nil {c : BlockCache} (h : ∀ p ∈ c, p.2 ≠ []) {pos : Int} :
    c.at pos ≠ [] ↔ pos ∈ positions c := by
  induction c with
  | nil => simp [BlockCache.at, positions]
  | cons p c ih =>
    have hrest := ih fun q hq => h q (List.mem_cons_of_mem p hq)
    have hp := h p (List.mem_cons_self ..)
    unfold BlockCache.at positions at hrest ⊢
    rw [List.find?_cons, List.map_cons, List.mem_cons]
    by_cases heq : p.1 = pos
    · simp [heq, hp]
    · simp only [beq_eq_false_iff_ne.mpr heq, Ne.symm heq, false_or]
      exact hrest

/-- Where there is no header, nothing is decoded. -/
theorem metaentryDecode_short (z : Option Zlib) (dset : DsetInfo) {err : Fault} (h : readHdr.run ent = .error err) :
    metaentryDecode z dset ent = .error err := by
  unfold metaentryDecode metaentryDecodeSteps
  rw [StateT.run_bind, h]
  rfl

/-- **The list index.** -/
theorem anyStep_judged (stale : ℕ → HSize × HSize) (z : Int → Option Zlib) (share : Bool)
    (dsets : List (Option DsetInfo)) :
    StepJudged true z share dsets (anyListStep stale z share dsets) (ListInv dsets) := by
  have hknown {hdr : MetaHdr} {ent : List UInt8} {pos : Int} {s : BlockCache × ArrayIdx} {dset : DsetInfo}
      (hdset : dsetAt dsets hdr.did = .ok (some dset)) : anyListStep stale z share dsets hdr ent pos s =
        anyEntry stale (z pos) share dset hdr ent pos s.1 >>= fun r =>
          s.2.insert r.1 >>= fun idx => pure (r.2, idx) := by
    unfold anyListStep anyStep
    rw [hdset]
    rfl
  have href {hdr : MetaHdr} {ent rest : List UInt8} (pos : Int) (s : BlockCache × ArrayIdx) (dset : DsetInfo)
      (hisref : hdr.isRef share = true) (hhdr : readHdr.run ent = .ok (hdr, rest)) :
      EndsAs (anyEntry stale (z pos) share dset hdr ent pos s.1)
        (0 < hdr.metaSize.toInt ∧ RefFits hdr ent ∧
          (BlockCache.at s.1 (pos + (refOff hdr ent).toInt)).map (padSel stale) ≠ [])
        (hdr.metaSize.toInt ≤ 0) fun r => r.1.hdr = hdr ∧ r.2 = s.1 := by
    unfold anyEntry
    rw [if_pos hisref]
    refine (metaentryRefDecode_ends ?_ hhdr).map fun r hr => ⟨hr, rfl⟩
    intro p s' hs'
    obtain ⟨s'', -, rfl⟩ := List.mem_map.mp hs'
    exact padSel_long stale dset s''
  refine ⟨?_, ?_, ?_, ?_, ?_, ?_, ?_⟩
  · intro hdr ent pos s err hdset
    exact ⟨err, by unfold anyListStep anyStep; rw [hdset]; rfl, dsetAt_breaks hdset⟩
  · intro hdr ent pos s hdset
    unfold anyListStep anyStep
    rw [hdset]
    rfl
  · -- A header that is cut off reads as one without flags, so the decoder of whole entries comes to it.
    intro hdr ent pos s dset hdset hpeek hshort
    rcases peekHdr_short hpeek hshort with ⟨hflag, err, hread, hbreak⟩
    refine ⟨err, ?_, hbreak⟩
    have hplain : hdr.isRef share = false := by
      rw [MetaHdr.isRef, hflag]
      exact Bool.and_false share
    have hnoref : hasFlag hdr.flag MetaFlag.selRef = false := by
      rw [hflag]
      rfl
    rw [hknown hdset]
    unfold anyEntry parseEntry
    rw [if_neg (Bool.eq_false_iff.mp hplain), metaentryDecode_short (z pos) dset hread, hnoref]
    rcases share with _ | _ <;> rfl
  · intro hdr ent pos s rest dset hdset hplain hhdr hinv
    rw [hknown hdset]
    have hentry : EndsAs (anyEntry stale (z pos) share dset hdr ent pos s.1) (EntryGood (z pos) dset hdr ent)
        (EntryRefused (z pos) dset hdr ent) fun r => r.1.hdr = hdr ∧ r.1.sels ≠ [] ∧
          r.2 = if share then (pos, r.1.sels) :: s.1 else s.1 := by
      unfold anyEntry parseEntry
      rw [if_neg (Bool.eq_false_iff.mp hplain)]
      rcases share with _ | _
      · exact (metaentryDecode_ends hhdr).map fun e he => ⟨he.1, he.2, rfl⟩
      · have hflag : hasFlag hdr.flag MetaFlag.selRef = false := by simpa [MetaHdr.isRef] using hplain
        rw [if_pos rfl, hflag, if_neg Bool.false_ne_true]
        exact (metaentryDecode_ends hhdr).map fun e he => ⟨he.1, he.2, rfl⟩
    refine hentry.bind_ok ?_
    rintro ⟨e, cache⟩ - ⟨he, hne, hcache⟩
    obtain rfl : cache = if share then (pos, e.sels) :: s.1 else s.1 := hcache
    -- Blocks go to the cache when metadata is shared, and a decoded entry has at least one.
    have hblocks : ∀ p ∈ if share then (pos, e.sels) :: s.1 else s.1, p.2 ≠ [] := by
      split
      · exact List.forall_mem_cons.mpr ⟨hne, hinv.blocks⟩
      · exact hinv.blocks
    obtain ⟨s', hs', hinv', hcache⟩ := insert_ok hinv hdset he hblocks
    refine ⟨s', hs', hinv', ?_⟩
    rw [hcache]
    split <;> rfl
  · intro hdr ent pos s rest dset hdset hisref hhdr hsize hfits
    obtain ⟨err, herr, hbreak⟩ := (href pos s dset hisref hhdr).breaks (fun h => hfits h.2.1)
      (not_le.mpr hsize)
    exact ⟨err, by rw [hknown hdset, herr]; rfl, hbreak⟩
  · intro hdr ent pos s rest dset hdset hisref hhdr hsize hfits hinv htarget
    have hfound : (BlockCache.at s.1 (pos + (refOff hdr ent).toInt)).map (padSel stale) ≠ [] := by
      rw [Ne, List.map_eq_nil_iff]
      exact (BlockCache.at_ne_nil hinv.blocks).mpr htarget
    obtain ⟨⟨e, cache⟩, hentry, he, hcache⟩ :=
      (href pos s dset hisref hhdr).ok ⟨hsize, hfits, hfound⟩
    obtain rfl : cache = s.1 := hcache
    obtain ⟨s', hs', hinv', hcache⟩ := insert_ok hinv hdset he hinv.blocks
    exact ⟨s', by rw [hknown hdset, hentry]; exact hs', hinv', by rw [hcache]⟩
  · intro hdr ent pos s rest dset hdset hisref hhdr hsize
    obtain ⟨msg, hmsg⟩ := (href pos s dset hisref hhdr).raised hsize
    exact iff_of_true ⟨msg, by rw [hknown hdset, hmsg]; rfl⟩ rfl

/-- **The compact index.** It stores a reference to an entry that is not there as well. -/
theorem compactStep_judged (z : Int → Option Zlib) (share : Bool) (dsets : List (Option DsetInfo)) :
    StepJudged false z share dsets (anyCompactStep z share dsets) fun s => dsets.length ≤ s.2.length := by
  have hknown {hdr : MetaHdr} {ent : List UInt8} {pos : Int} {s : CompactCache × CompactIdx} {dset : DsetInfo}
      (hdset : dsetAt dsets hdr.did = .ok (some dset)) : anyCompactStep z share dsets hdr ent pos s =
        compactParse (z pos) share dset hdr ent pos s.1 >>= fun r =>
          if hdr.did.toNat < s.2.length then pure (r.2, s.2.modify hdr.did.toNat (· ++ [r.1]))
          else .error .outside := by
    unfold anyCompactStep compactStep
    rw [hdset]
    rfl
  have hstore {hdr : MetaHdr} {s : CompactCache × CompactIdx} {dset : DsetInfo} (r : CompactEntry × CompactCache)
      (hdset : dsetAt dsets hdr.did = .ok (some dset)) (hinv : dsets.length ≤ s.2.length) :
      ∃ s' : CompactCache × CompactIdx, (if hdr.did.toNat < s.2.length then
          pure (r.2, s.2.modify hdr.did.toNat (· ++ [r.1])) else .error .outside : Except Fault _) = .ok s' ∧
        dsets.length ≤ s'.2.length ∧ s'.1 = r.2 := by
    refine ⟨_, if_pos ((dsetAt_lt hdset).trans_le hinv), ?_, rfl⟩
    rw [List.length_modify]
    exact hinv
  have href {hdr : MetaHdr} (ent : List UInt8) (pos : Int) (s : CompactCache × CompactIdx) (dset : DsetInfo)
      (hisref : hdr.isRef share = true) :
      EndsAs (compactParse (z pos) share dset hdr ent pos s.1) (RefFits hdr ent) False fun r => r.2 = s.1 := by
    obtain ⟨hshare, hflag⟩ := Bool.and_eq_true_iff.mp hisref
    unfold compactParse
    rw [if_pos hshare, if_pos hflag]
    exact (refWords_ends hdr ent).map fun _ _ => rfl
  refine ⟨?_, ?_, ?_, ?_, ?_, ?_, ?_⟩
  · intro hdr ent pos s err hdset
    exact ⟨err, by unfold anyCompactStep compactStep; rw [hdset]; rfl, dsetAt_breaks hdset⟩
  · intro hdr ent pos s hdset
    unfold anyCompactStep compactStep
    rw [hdset]
    rfl
  · intro hdr ent pos s dset hdset hpeek hshort
    rcases peekHdr_short hpeek hshort with ⟨hflag, err, hread, hbreak⟩
    refine ⟨err, ?_, hbreak⟩
    have hnoref : hasFlag hdr.flag MetaFlag.selRef = false := by
      rw [hflag]
      rfl
    rw [hknown hdset]
    unfold compactParse
    rw [metaentryDecode_short (z pos) dset hread, hnoref]
    rcases share with _ | _ <;> rfl
  · intro hdr ent pos s rest dset hdset hplain hhdr hinv
    rw [hknown hdset]
    have hdecode : EndsAs (metaentryDecode (z pos) dset ent >>= compactPlain) (EntryGood (z pos) dset hdr ent)
        (EntryRefused (z pos) dset hdr ent) fun _ => True := by
      refine (metaentryDecode_ends hhdr).bind_ok ?_
      intro e he _
      obtain ⟨ce, hce⟩ := compactPlain_ok he
      exact ⟨ce, hce, trivial⟩
    have hentry : EndsAs (compactParse (z pos) share dset hdr ent pos s.1) (EntryGood (z pos) dset hdr ent)
        (EntryRefused (z pos) dset hdr ent) fun r => r.2 = if share then (pos, r.1.own) :: s.1 else s.1 := by
      unfold compactParse
      rcases share with _ | _
      · exact hdecode.map fun e _ => rfl
      · have hflag : hasFlag hdr.flag MetaFlag.selRef = false := by simpa [MetaHdr.isRef] using hplain
        rw [if_pos rfl, hflag, if_neg Bool.false_ne_true]
        exact hdecode.map fun e _ => rfl
    refine hentry.bind_ok ?_
    rintro ⟨e, cache⟩ - hcache
    obtain ⟨s', hs', hinv', hsame⟩ := hstore (e, cache) hdset hinv
    refine ⟨s', hs', hinv', ?_⟩
    rw [hsame]
    dsimp only at hcache ⊢
    rw [hcache]
    split <;> rfl
  · intro hdr ent pos s rest dset hdset hisref _ _ hfits
    obtain ⟨err, herr, hbreak⟩ := (href ent pos s dset hisref).breaks hfits id
    exact ⟨err, by rw [hknown hdset, herr]; rfl, hbreak⟩
  · intro hdr ent pos s rest dset hdset hisref _ _ hfits hinv _
    obtain ⟨r, hr, hcache⟩ := (href ent pos s dset hisref).ok hfits
    obtain ⟨s', hs', hinv', hsame⟩ := hstore r hdset hinv
    exact ⟨s', by rw [hknown hdset, hr]; exact hs', hinv', by rw [hsame, hcache]⟩
  · intro hdr ent pos s rest dset hdset hisref _ _
    refine iff_of_false ?_ Bool.false_ne_true
    -- It is stored or breaks; there is no check that raises.
    rintro ⟨msg, hmsg⟩
    rw [hknown hdset] at hmsg
    by_cases hfits : RefFits hdr ent
    · obtain ⟨r, hr, -⟩ := (href ent pos s dset hisref).ok hfits
      rw [hr, Lib.ok_bind] at hmsg
      split at hmsg
      · cases hmsg
      · cases hmsg
    · obtain ⟨err, herr, hbreak⟩ := (href ent pos s dset hisref).breaks hfits id
      rw [herr] at hmsg
      obtain rfl := Except.error.inj hmsg
      exact hbreak

end Indexes

/-! ## §7 — both indexes. -/

/-- The list index checks no less than the compact one. -/
theorem Walkable.list {z : Int → Option Zlib} {share : Bool} {dsets : List (Option DsetInfo)} {block : List UInt8}
    {seen : List Int} {pos : Int} (h : Walkable false z share dsets block seen pos) :
    Walkable true z share dsets block seen pos := by
  induction h with
  | done hend => exact Walkable.done hend
  | skip hhdr hdset hsize _ ih => exact Walkable.skip hhdr hdset hsize ih
  | plain hhdr hdset href hzip hgood _ ih => exact Walkable.plain hhdr hdset href hzip hgood ih
  | plainRefused hhdr hdset href hzip hrefused => exact Walkable.plainRefused hhdr hdset href hzip hrefused
  | ref hhdr hdset href hsize hfits htarget _ ih => exact Walkable.ref hhdr hdset href hsize hfits htarget ih
  | refRefused _ _ _ hchecked _ => cases hchecked

/-- **Parsing a section survives** in the list index exactly when the bytes are walkable with references checked. -/
theorem listWalk_survives_iff (stale : ℕ → HSize × HSize) (z : Int → Option Zlib) (share : Bool)
    (dsets : List (Option DsetInfo)) (block : List UInt8) {idx : ArrayIdx} (hidx : dsets.length ≤ idx.length) :
    Survives z share dsets (anyListStep stale z share dsets) block 0 ([], idx) ↔
      Walkable true z share dsets block [] 0 := by
  have hinv : ListInv dsets ([], idx) := ⟨hidx, fun p hp => absurd hp List.not_mem_nil⟩
  constructor
  · intro h
    exact h.walkable (anyStep_judged stale z share dsets) le_rfl hinv
  · intro h
    exact h.survives (anyStep_judged stale z share dsets) le_rfl hinv rfl

/-- And in the compact index, where they are not. -/
theorem compactWalk_survives_iff (z : Int → Option Zlib) (share : Bool) (dsets : List (Option DsetInfo))
    (block : List UInt8) {idx : CompactIdx} (hidx : dsets.length ≤ idx.length) :
    Survives z share dsets (anyCompactStep z share dsets) block 0 ([], idx) ↔
      Walkable false z share dsets block [] 0 := by
  constructor
  · intro h
    exact h.walkable (compactStep_judged z share dsets) le_rfl hidx
  · intro h
    exact h.survives (compactStep_judged z share dsets) le_rfl hidx rfl

/-- **`anyBlock_survives_iff`** — for every block, every table of datasets and every zlib, with sharing or without,
and whatever the memory held before. -/
theorem anyBlock_survives_iff (stale : ℕ → HSize × HSize) (heap : Int → ℕ → UInt8) (z : Option Zlib) (share : Bool)
    (dsets : List (Option DsetInfo)) (block : List UInt8) {idx : ArrayIdx} {cidx : CompactIdx}
    (hidx : dsets.length ≤ idx.length) (hcidx : dsets.length ≤ cidx.length) :
    (Survives (buffered heap z) share dsets (anyListStep stale (buffered heap z) share dsets) block 0 ([], idx) ∧
      Survives (buffered heap z) share dsets (anyCompactStep (buffered heap z) share dsets) block 0 ([], cidx)) ↔
      Walkable false (buffered heap z) share dsets block [] 0 := by
  rw [listWalk_survives_iff stale _ share dsets block hidx, compactWalk_survives_iff _ share dsets block hcidx]
  constructor
  · rintro ⟨-, h⟩
    exact h
  · intro h
    exact ⟨h.list, h⟩

/-- A header of a dataset that is not open, with a size. -/
def unopenedHdr (metaSize : I32) : MetaHdr := ⟨metaSize, 0, 0, 0, 0⟩

theorem peekHdr_unopened (metaSize : I32) :
    peekHdr ((unopenedHdr metaSize).bytes.drop (0 : Int).toNat) = .ok (unopenedHdr metaSize) := by
  have h := peekHdr_of_readHdr (readHdr_reads (unopenedHdr metaSize) [])
  rwa [List.append_nil] at h

/-- A block of one dataset, an entry of another that is not open, and a reference to the first. -/
def openedBlock : List UInt8 :=
  (blockReq 1 0 2 100 8).metaBuf ++ ((unopenedHdr 28).bytes ++ ((refReq 1 (-72) 108 8).metaBuf ++ []))

theorem openedBlock_drop :
    openedBlock.drop 44 = (unopenedHdr 28).bytes ++ ((refReq 1 (-72) 108 8).metaBuf ++ []) ∧
      openedBlock.drop 72 = (refReq 1 (-72) 108 8).metaBuf ++ [] := by
  have hblock : (blockReq 1 0 2 100 8).metaBuf.length = 44 := Int.ofNat_inj.mp (blockReq_wellSized 1 0 2 100 8)
  have hskip : (unopenedHdr 28).bytes.length = 28 := MetaHdr.bytes_length _
  have hdrop : openedBlock.drop 44 = (unopenedHdr 28).bytes ++ ((refReq 1 (-72) 108 8).metaBuf ++ []) :=
    List.drop_left' hblock
  refine ⟨hdrop, ?_⟩
  have htwice : openedBlock.drop (44 + 28) = (openedBlock.drop 44).drop 28 := List.drop_drop.symm
  rw [htwice, hdrop, List.drop_left' hskip]

theorem openedBlock_length : openedBlock.length = 108 := by
  have hblock : (blockReq 1 0 2 100 8).metaBuf.length = 44 := Int.ofNat_inj.mp (blockReq_wellSized 1 0 2 100 8)
  have hskip : (unopenedHdr 28).bytes.length = 28 := MetaHdr.bytes_length _
  have href : (refReq 1 (-72) 108 8).metaBuf.length = 36 := Int.ofNat_inj.mp (refReq_wellSized 1 (-72) 108 8)
  rw [openedBlock, List.length_append, List.length_append, List.length_append, hblock, hskip, href]
  rfl

/-- The entry that is not open is skipped, and the reference finds the block before it. -/
theorem openedBlock_walkable (z : Int → Option Zlib) :
    Walkable false z true [none, some (vectorDset 8)] openedBlock [] 0 := by
  obtain ⟨hskip, href⟩ := openedBlock_drop
  have hhdr : readHdr.run (openedBlock.drop (0 : Int).toNat) = .ok ((blockReq 1 0 2 100 8).hdr, _) :=
    readHdr_metaBuf (blockReq 1 0 2 100 8) _
  have hgood : EntryGood (z 0) (vectorDset 8) (blockReq 1 0 2 100 8).hdr (openedBlock.drop (0 : Int).toNat) :=
    ((metaentryDecode_ends hhdr).of_eq_ok (metaentryDecode_blockReq rfl 1 0 2 100 8 _)).1
  refine Walkable.plain hhdr rfl (by decide) (fun _ hpacked => absurd hpacked (by decide)) hgood ?_
  rw [show (0 : Int) + (blockReq 1 0 2 100 8).hdr.metaSize.toInt = 44 by decide]
  have hpeek : peekHdr (openedBlock.drop (44 : Int).toNat) = .ok (unopenedHdr 28) := by
    show peekHdr (openedBlock.drop 44) = _
    rw [hskip]
    exact peekHdr_of_readHdr (readHdr_reads (unopenedHdr 28) _)
  refine Walkable.skip hpeek rfl (by decide) ?_
  rw [show (44 : Int) + (unopenedHdr 28).metaSize.toInt = 72 by decide]
  obtain ⟨hfits, hroff⟩ := (refWords_ends _ _).of_eq_ok (refWords_refReq 1 (-72) 108 8 [])
  rw [← href] at hfits hroff
  have hhdr' : readHdr.run (openedBlock.drop (72 : Int).toNat) = .ok
      ((refReq 1 (-72) 108 8).hdr, (refReq 1 (-72) 108 8).body ++ []) := by
    show readHdr.run (openedBlock.drop 72) = _
    rw [href]
    exact readHdr_metaBuf (refReq 1 (-72) 108 8) []
  refine Walkable.ref hhdr' rfl (by decide) (by decide) hfits ?_ (Walkable.done ?_)
  · show (72 : Int) + (refOff _ (openedBlock.drop 72)).toInt ∈ _
    rw [← hroff]
    decide
  · rw [openedBlock_length]
    decide

theorem unopened_survives :
    Survives (buffered (fun _ _ => 0) none) true [none, some (vectorDset 8)]
        (anyListStep (fun _ => (0, 0)) (buffered (fun _ _ => 0) none) true [none, some (vectorDset 8)]) openedBlock 0
        ([], [[], []]) ∧
      Survives (buffered (fun _ _ => 0) none) true [none, some (vectorDset 8)]
        (anyCompactStep (buffered (fun _ _ => 0) none) true [none, some (vectorDset 8)]) openedBlock 0
        ([], [[], []]) :=
  (anyBlock_survives_iff (fun _ => (0, 0)) (fun _ _ => 0) none true [none, some (vectorDset 8)] openedBlock le_rfl
    le_rfl).mpr (openedBlock_walkable _)

/-- **An entry of no size is parsed for ever**, when its dataset is not open. -/
theorem zeroSize_diverges (z : Int → Option Zlib) :
    ¬ ∃ fuel, EndsClean (walkBlock (anyListStep (fun _ => (0, 0)) z false [none]) (unopenedHdr 0).bytes fuel 0
      (([], [[]]) : BlockCache × ArrayIdx)) := by
  have hall : ∀ fuel, walkBlock (anyListStep (fun _ => (0, 0)) z false [none]) (unopenedHdr 0).bytes fuel 0
      (([], [[]]) : BlockCache × ArrayIdx) = .error .diverged := by
    intro fuel
    -- The position stays where it is, so each step leads to the same walk with less fuel.
    induction fuel with
    | zero => rfl
    | succ fuel ih =>
      have hhi : (0 : Int) < ((unopenedHdr 0).bytes.length : Int) := by
        rw [MetaHdr.bytes_length]
        decide
      rw [walkBlock_step le_rfl hhi (peekHdr_unopened 0)]
      exact ih
  rintro ⟨fuel, hends⟩
  exact hends.not_breaks (hall fuel) trivial

theorem zeroSize_survives_not :
    ¬ (Survives (buffered (fun _ _ => 0) none) false [none]
        (anyListStep (fun _ => (0, 0)) (buffered (fun _ _ => 0) none) false [none]) (unopenedHdr 0).bytes 0
        (([], [[]]) : BlockCache × ArrayIdx) ∧
      Survives (buffered (fun _ _ => 0) none) false [none]
        (anyCompactStep (buffered (fun _ _ => 0) none) false [none]) (unopenedHdr 0).bytes 0
        (([], [[]]) : CompactCache × CompactIdx)) := by
  rintro ⟨h, -⟩
  exact zeroSize_diverges _ h.ends

end LogVol
