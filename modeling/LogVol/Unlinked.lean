/-
# LogVol.Unlinked — parsing metadata while some datasets are not open.

`unlink U` leaves the datasets in `U` without a description, as unlinked datasets are and those that were
never opened. Both indexes skip the entries of such a dataset, and with them what a later reference may
need: the list index reads blocks that are not there, the compact index stores a reference to nothing.
What is stored for the other datasets is what would be stored with every dataset open exactly when no
entry of theirs refers to an entry of a dataset in `U` (`RefsOpen`).
-/
import LogVol.IdxCompact

namespace LogVol

variable {z : Option Zlib} {share : Bool} {dsets : List DsetInfo} {U : Nat → Bool}

/-! ## §1 — datasets that are not open. -/

/-- The descriptions, without those of the datasets in `U`. -/
def unlink (U : Nat → Bool) (dsets : List DsetInfo) : List (Option DsetInfo) :=
  dsets.mapIdx fun i d => if U i then none else some d

@[simp] theorem unlink_length (U : Nat → Bool) (dsets : List DsetInfo) :
    (unlink U dsets).length = dsets.length := List.length_mapIdx ..

theorem dsetAt_unlink {did : I32} {dset : DsetInfo} (h : dsetAt (dsets.map some) did = .ok (some dset)) :
    dsetAt (unlink U dsets) did = .ok (if U did.toNat then none else some dset) := by
  unfold dsetAt at h ⊢
  rw [List.getElem?_map] at h
  rw [unlink, List.getElem?_mapIdx]
  rcases hget : dsets[did.toNat]? with _ | d
  · rw [hget] at h
    cases h
  · rw [hget] at h
    obtain rfl := Option.some.inj (Except.ok.inj h)
    rfl

theorem dsetAt_map_some {did : I32} : dsetAt (dsets.map some) did ≠ .ok none := by
  unfold dsetAt
  rw [List.getElem?_map]
  rcases dsets[did.toNat]? with _ | d
  · exact fun h => by cases h
  · exact fun h => by cases h

/-! ## §2 — references. -/

/-- Whether the entry `r` at `pos` is no reference to an entry of a dataset in `U`; `seen` says of which
dataset the entries are that can be referred to. -/
def refOpen (share : Bool) (U : Nat → Bool) (r : WReq) (pos : Int) (seen : PosCache I32) : Bool :=
  !r.hdr.isRef share || match refWords r.hdr r.metaBuf with
    | .ok w => (seen.get? (pos + w.2.toInt)).all fun did => !U did.toNat
    | .error _ => true

/-- The datasets of the entries that can be referred to, behind the entry `r`. -/
def seeEntry (share : Bool) (r : WReq) (pos : Int) (seen : PosCache I32) : PosCache I32 :=
  if share && !hasFlag r.hdr.flag MetaFlag.selRef then (pos, r.hdr.did) :: seen else seen

/-- **No entry of a dataset outside `U` refers to an entry of a dataset in `U`.** -/
def RefsOpen (share : Bool) (U : Nat → Bool) : Int → PosCache I32 → List WReq → Prop
  | _, _, [] => True
  | pos, seen, r :: rs =>
      (U r.hdr.did.toNat = false → refOpen share U r pos seen = true) ∧
        RefsOpen share U (pos + r.metaBuf.length) (seeEntry share r pos seen) rs

/-- What is left of the cache `c` when the entries of the datasets in `U` are skipped. -/
structure Masks {V : Type} (U : Nat → Bool) (pos : Int) (c masked : PosCache V) (seen : PosCache I32) :
    Prop where
  known : ∀ p v, c.get? p = some v → ∃ did, seen.get? p = some did
  kept : ∀ p v did, c.get? p = some v → seen.get? p = some did →
    masked.get? p = if U did.toNat then none else some v
  fresh : ∀ p, pos ≤ p → masked.get? p = none

theorem masks_nil {V : Type} (U : Nat → Bool) : Masks U 0 ([] : PosCache V) [] [] where
  known := fun _ _ h => by cases h
  kept := fun _ _ _ h => by cases h
  fresh := fun _ _ => rfl

variable {E V : Type} {P : EntryParser E V} {pos : Int} {c masked : PosCache V} {seen : PosCache I32}
  {r : WReq} {e : E}

/-- The caches behind an entry, which is skipped if its dataset is in `U`. -/
theorem Masks.after (h : Masks U pos c masked seen) (P : EntryParser E V) (share : Bool) (r : WReq) (e : E) :
    Masks U (pos + r.metaBuf.length) (P.after share r.hdr pos e c)
      (if U r.hdr.did.toNat then masked else P.after share r.hdr pos e masked)
      (seeEntry share r pos seen) := by
  have hlen := r.metaBuf_pos
  unfold EntryParser.after seeEntry
  -- An entry that can be referred to is seen at its position; it is cached there unless it is skipped.
  split
  · refine ⟨fun p v hp => ?_, fun p v did hp hs => ?_, fun p hp => ?_⟩
    · rw [PosCache.get?_cons] at hp ⊢
      split
      · exact ⟨_, rfl⟩
      · rename_i hne
        rw [if_neg hne] at hp
        exact h.known p v hp
    · rw [PosCache.get?_cons] at hp hs
      by_cases heq : pos = p
      · rw [if_pos heq] at hp hs
        obtain rfl := Option.some.inj hp
        obtain rfl := Option.some.inj hs
        split
        · exact h.fresh p heq.le
        · rw [PosCache.get?_cons, if_pos heq]
      · rw [if_neg heq] at hp hs
        split
        · exact h.kept p v did hp hs
        · rw [PosCache.get?_cons, if_neg heq]
          exact h.kept p v did hp hs
    · split
      · exact h.fresh p (by omega)
      · rw [PosCache.get?_cons, if_neg (by omega)]
        exact h.fresh p (by omega)
  · rw [ite_self]
    exact ⟨h.known, h.kept, fun p hp => h.fresh p (by omega)⟩

/-- A reference that resolves, with the dataset of the entry it refers to. -/
theorem Masks.target {dset : DsetInfo} (h : Masks U pos c masked seen)
    (hentry : ∀ tail, P.entryAt share dset r.hdr (r.metaBuf ++ tail) pos c = .ok e)
    (href : r.hdr.isRef share = true) :
    ∃ w v did, refWords r.hdr r.metaBuf = .ok w ∧ c.get? (pos + w.2.toInt) = some v ∧
      seen.get? (pos + w.2.toInt) = some did ∧
      masked.get? (pos + w.2.toInt) = (if U did.toNat then none else some v) ∧
      refOpen share U r pos seen = !U did.toNat ∧
      ∀ tail, refWords r.hdr (r.metaBuf ++ tail) = .ok w ∧
        P.ref dset r.hdr (r.metaBuf ++ tail) v = .ok e := by
  obtain ⟨w, v, hw, hget, -⟩ := (P.entryAt_ref href).mp (hentry [])
  obtain ⟨did, hseen⟩ := h.known _ v hget
  have hw' := hw
  rw [List.append_nil] at hw'
  refine ⟨w, v, did, hw', hget, hseen, h.kept _ v did hget hseen, ?_, fun tail => ?_⟩
  · rw [refOpen, href, hw']
    show (seen.get? (pos + w.2.toInt)).all (fun did => !U did.toNat) = !U did.toNat
    rw [hseen]
    rfl
  · obtain ⟨w', v', hw', hget', href⟩ := (P.entryAt_ref href).mp (hentry tail)
    obtain rfl := refWords_metaBuf hw hw'
    rw [hget] at hget'
    obtain rfl := Option.some.inj hget'
    exact ⟨hw', href⟩

/-- An entry that refers to no entry of a dataset in `U` is parsed as before. -/
theorem Masks.entryAt_eq {dset : DsetInfo} (h : Masks U pos c masked seen)
    (hentry : ∀ tail, P.entryAt share dset r.hdr (r.metaBuf ++ tail) pos c = .ok e)
    (hopen : refOpen share U r pos seen = true) (tail : List UInt8) :
    P.entryAt share dset r.hdr (r.metaBuf ++ tail) pos masked = .ok e := by
  rcases href : r.hdr.isRef share with _ | _
  · rw [P.entryAt_plain _ pos masked href, ← P.entryAt_plain _ pos c href]
    exact hentry tail
  · obtain ⟨w, v, did, -, -, -, hmasked, hdid, hparts⟩ := h.target hentry href
    rw [hopen] at hdid
    rw [if_neg (by simpa using hdid)] at hmasked
    exact (P.entryAt_ref href).mpr ⟨w, v, (hparts tail).1, hmasked, (hparts tail).2⟩

/-! ## §3 — what is inserted. -/

/-- What becomes of the requests, without those of the datasets in `U`. -/
def hide (U : Nat → Bool) : List WReq → List (Option E) → List (Option E)
  | r :: rs, o :: os => (if U r.hdr.did.toNat then none else o) :: hide U rs os
  | _, _ => []

theorem entriesOf_hide {i : Nat} (hi : U i = false) (rs : List WReq) (os : List (Option E)) :
    entriesOf i rs (hide U rs os) = entriesOf i rs os := by
  induction rs generalizing os with
  | nil => rfl
  | cons r rs ih =>
      rcases os with _ | ⟨o, os⟩
      · rfl
      · rw [hide, entriesOf, entriesOf, ih]
        by_cases hdid : r.hdr.did.toNat = i
        · rw [hdid, hi, if_neg Bool.false_ne_true]
        · rw [if_neg hdid, if_neg hdid]

variable {rs : List WReq} {os : List (Option E)}

/-- **While the references allow it, the other entries are parsed as with every dataset open.** -/
theorem Parses.unlinked (h : Parses P share (dsets.map some) pos c rs os) (hm : Masks U pos c masked seen)
    (hrefs : RefsOpen share U pos seen rs) :
    Parses P share (unlink U dsets) pos masked rs (hide U rs os) := by
  induction h generalizing masked seen with
  | nil => exact Parses.nil
  | skip _ hdset => exact absurd hdset dsetAt_map_some
  | @entry pos c r rs e os dset hsize hdset hentry _ ih =>
      obtain ⟨hfirst, hrest⟩ := hrefs
      have hnext := ih (hm.after P share r e) hrest
      have hmasked := dsetAt_unlink (U := U) hdset
      rw [hide]
      by_cases hU : U r.hdr.did.toNat
      · rw [if_pos hU] at hnext hmasked ⊢
        exact Parses.skip hsize hmasked hnext
      · rw [if_neg hU] at hnext hmasked ⊢
        exact Parses.entry hsize hmasked (hm.entryAt_eq hentry (hfirst (Bool.eq_false_iff.mpr hU))) hnext

/-- The list index does not resolve a reference to an entry that was skipped. -/
theorem parseEntry_missing (z : Option Zlib) (dset : DsetInfo) {tail : List UInt8} {c : BlockCache}
    {w : Option HSize × MpiOffset} (href : r.hdr.isRef share = true)
    (hw : refWords r.hdr (r.metaBuf ++ tail) = .ok w)
    (hmiss : PosCache.get? c (pos + w.2.toInt) = none) :
    ∃ err, parseEntry z share dset r.hdr (r.metaBuf ++ tail) pos c = .error err := by
  obtain ⟨rfl, hflag⟩ := Bool.and_eq_true_iff.mp href
  rw [parseEntry, if_pos rfl, if_pos hflag]
  rcases hrun : (metaentryRefDecode dset c.at pos).run (r.metaBuf ++ tail) with err | ⟨e, rest⟩
  · exact ⟨err, rfl⟩
  · exfalso
    obtain ⟨hdr, mid, hhdr, -, recnum, mid', hrec, roff, hroff, sels, hsels, dsize, hsize, -⟩ :=
      metaentryRefDecode_eq_ok.mp hrun
    rw [readHdr_metaBuf] at hhdr
    obtain ⟨rfl, rfl⟩ := Prod.mk.inj (Except.ok.inj hhdr)
    have hwords := refWords_eq hrec hroff
    rw [← List.append_assoc, ← WReq.metaBuf, hw] at hwords
    obtain rfl := Except.ok.inj hwords
    have hnone : c.at (pos + roff.toInt) = [] := by
      rw [BlockCache.at, Option.map_eq_none_iff.mp hmiss]
      rfl
    -- no blocks, so there is no last one to end the data
    rw [hnone] at hsels
    obtain rfl := Except.ok.inj hsels
    cases hsize

/-- **A reference of another dataset to an entry of a dataset in `U`** makes the list index fail. -/
theorem parseStep_unlinked_fails {pos : Nat} {c masked : BlockCache} {rs : List WReq}
    {os : List (Option MetaEntry)} (h : Parses (listParser z) share (dsets.map some) pos c rs os)
    (hm : Masks U pos c masked seen) (hrefs : ¬ RefsOpen share U pos seen rs) {idx : ArrayIdx}
    (hidx : dsets.length ≤ idx.length) :
    ∃ err, walkEntries (parseStep z share (unlink U dsets)) rs pos (masked, idx) = .error err := by
  generalize hp : (pos : Int) = p at h hm hrefs
  induction h generalizing pos masked seen idx with
  | nil => exact absurd trivial hrefs
  | skip _ hdset => exact absurd hdset dsetAt_map_some
  | @entry p c r rs e os dset hsize hdset hentry _ ih =>
      subst hp
      have hmasked := dsetAt_unlink (U := U) hdset
      have hsteps := parseStep_stepsAs z share (unlink U dsets)
      rw [walkEntries]
      by_cases hU : U r.hdr.did.toNat
      · rw [if_pos hU] at hmasked
        rw [hsteps.skip hmasked, Lib.ok_bind]
        have hnext := hm.after (listParser z) share r e
        rw [if_pos hU] at hnext
        refine ih hidx (Nat.cast_add _ _) hnext (fun hrest => hrefs ⟨fun hno => ?_, hrest⟩)
        rw [hU] at hno
        cases hno
      · rw [if_neg hU] at hmasked
        rcases hopen : refOpen share U r pos seen with _ | _
        · -- the reference that fails
          have href : r.hdr.isRef share = true := by
            by_contra hplain
            rw [refOpen, Bool.eq_false_iff.mpr hplain] at hopen
            cases hopen
          obtain ⟨w, v, did, -, -, -, hmiss, hdid, hparts⟩ := hm.target hentry href
          rw [hopen] at hdid
          rw [if_pos (by simpa using hdid)] at hmiss
          obtain ⟨err, herr⟩ := parseEntry_missing z dset href
            (hparts (rs.flatMap WReq.metaBuf)).1 hmiss
          refine ⟨err, ?_⟩
          unfold parseStep
          simp only [hmasked, Lib.ok_bind, herr]
          rfl
        · rw [hsteps.entry hmasked (hm.entryAt_eq hentry hopen _) (by rw [unlink_length]; exact hidx),
            Lib.ok_bind]
          have hnext := hm.after (listParser z) share r e
          rw [if_neg hU] at hnext
          exact ih (by rw [List.length_modify]; exact hidx) (Nat.cast_add _ _) hnext
            (fun hrest => hrefs ⟨fun _ => hopen, hrest⟩)

/-! ## §4 — what the compact index stores. -/

/-- A reference to nothing. -/
def CompactEntry.dangling (e : CompactEntry) : CompactEntry := { e with blocks := .ref none }

/-- What the compact index makes of the requests: of those of the datasets in `U` nothing, and a reference
to an entry of such a dataset points to nothing. -/
def cutRefs (share : Bool) (U : Nat → Bool) :
    Int → PosCache I32 → List WReq → List (Option CompactEntry) → List (Option CompactEntry)
  | pos, seen, r :: rs, o :: os =>
      (if U r.hdr.did.toNat then none
        else if refOpen share U r pos seen then o else o.map CompactEntry.dangling) ::
        cutRefs share U (pos + r.metaBuf.length) (seeEntry share r pos seen) rs os
  | _, _, _, _ => []

/-- A reference to an entry that was skipped is stored without it. -/
theorem compactParse_missing {dset : DsetInfo} {pos : Int} {c masked : CompactCache} {e : CompactEntry}
    (hm : Masks U pos c masked seen)
    (hentry : ∀ tail, (compactParser z).entryAt share dset r.hdr (r.metaBuf ++ tail) pos c = .ok e)
    (hopen : refOpen share U r pos seen = false) (tail : List UInt8) :
    compactParse z share dset r.hdr (r.metaBuf ++ tail) pos masked =
        .ok (e.dangling, (compactParser z).after share r.hdr pos e masked) ∧ e ≠ e.dangling := by
  have href : r.hdr.isRef share = true := by
    by_contra hplain
    rw [refOpen, Bool.eq_false_iff.mpr hplain] at hopen
    cases hopen
  obtain ⟨w, v, did, -, -, -, hmiss, hdid, hparts⟩ := hm.target hentry href
  rw [hopen] at hdid
  rw [if_pos (by simpa using hdid)] at hmiss
  obtain ⟨hw, hmade⟩ := hparts tail
  obtain rfl := compactRef_of_ref hw hmade
  obtain ⟨rfl, hflag⟩ := Bool.and_eq_true_iff.mp href
  constructor
  · rw [compactParse, if_pos rfl, if_pos hflag, hw]
    show Except.ok (compactRef r.hdr w.1 (masked.get? (pos + w.2.toInt)), masked) = _
    rw [hmiss, EntryParser.after, hflag]
    rfl
  · intro heq
    cases congrArg CompactEntry.blocks heq

/-- **The compact index parses whatever is not open**, and stores what is left. -/
theorem compactStep_unlinked {pos : Nat} {c masked : CompactCache} {rs : List WReq}
    {os : List (Option CompactEntry)} (h : Parses (compactParser z) share (dsets.map some) pos c rs os)
    (hm : Masks U pos c masked seen) {idx : CompactIdx} (hidx : dsets.length ≤ idx.length) :
    (walkEntries (compactStep z share (unlink U dsets)) rs pos (masked, idx)).map Prod.snd =
      .ok (insertAll idx rs (cutRefs share U pos seen rs os)) := by
  generalize hp : (pos : Int) = p at h hm
  induction h generalizing pos masked seen idx with
  | nil =>
      rw [walkEntries, insertAll]
      · rfl
      · exact fun _ _ _ _ hnil => by cases hnil
  | skip _ hdset => exact absurd hdset dsetAt_map_some
  | @entry p c r rs e os dset hsize hdset hentry _ ih =>
      subst hp
      have hmasked := dsetAt_unlink (U := U) hdset
      have hsteps := compactStep_stepsAs z share (unlink U dsets)
      have hnext := hm.after (compactParser z) share r e
      rw [walkEntries, cutRefs, insertAll]
      by_cases hU : U r.hdr.did.toNat
      · rw [if_pos hU] at hmasked hnext ⊢
        rw [hsteps.skip hmasked, Lib.ok_bind]
        exact ih hidx (Nat.cast_add _ _) hnext
      · rw [if_neg hU] at hmasked hnext ⊢
        have hidx' : dsets.length ≤ (idx.modify r.hdr.did.toNat (· ++ [e])).length := by
          rw [List.length_modify]
          exact hidx
        -- Its own dataset is open. A reference to one that is not finds nothing, and is stored all the same.
        rcases hopen : refOpen share U r pos seen with _ | _
        · have hparse := (compactParse_missing hm hentry hopen (rs.flatMap WReq.metaBuf)).1
          have hlt : r.hdr.did.toNat < idx.length := Nat.lt_of_lt_of_le
            (by rw [← unlink_length U dsets]; exact dsetAt_lt hmasked) hidx
          have hstep : compactStep z share (unlink U dsets) r.hdr (r.metaBuf ++ rs.flatMap WReq.metaBuf) pos
              (masked, idx) = .ok ((compactParser z).after share r.hdr pos e masked,
                idx.modify r.hdr.did.toNat (· ++ [e.dangling])) := by
            unfold compactStep
            simp only [hmasked, Lib.ok_bind, hparse]
            rw [if_pos hlt]
            rfl
          rw [hstep, Lib.ok_bind, if_neg Bool.false_ne_true]
          exact ih (by rw [List.length_modify]; exact hidx) (Nat.cast_add _ _) hnext
        · rw [hsteps.entry hmasked (hm.entryAt_eq hentry hopen _) (by rw [unlink_length]; exact hidx),
            Lib.ok_bind, if_pos rfl]
          exact ih hidx' (Nat.cast_add _ _) hnext

/-- Nothing is lost exactly when the references allow it. -/
theorem entriesOf_cutRefs_iff {pos : Int} {c masked : CompactCache} {rs : List WReq}
    {os : List (Option CompactEntry)} (h : Parses (compactParser z) share (dsets.map some) pos c rs os)
    (hm : Masks U pos c masked seen) :
    (∀ i, U i = false → entriesOf i rs (cutRefs share U pos seen rs os) = entriesOf i rs os) ↔
      RefsOpen share U pos seen rs := by
  induction h generalizing masked seen with
  | nil => exact iff_of_true (fun _ _ => rfl) trivial
  | skip _ hdset => exact absurd hdset dsetAt_map_some
  | @entry pos c r rs e os dset hsize hdset hentry _ ih =>
      have hnext := hm.after (compactParser z) share r e
      rw [cutRefs, RefsOpen, ← ih hnext]
      simp only [entriesOf]
      by_cases hU : U r.hdr.did.toNat
      · have hother (i : Nat) (hi : U i = false) : r.hdr.did.toNat ≠ i := by
          rintro rfl
          rw [hU] at hi
          cases hi
        constructor
        · intro hall
          refine ⟨fun hno => absurd hno (by rw [hU]; exact Bool.true_eq_false_eq_False), fun i hi => ?_⟩
          have hi' := hall i hi
          rwa [if_neg (hother i hi), if_neg (hother i hi), List.nil_append, List.nil_append] at hi'
        · rintro ⟨-, hall⟩ i hi
          rw [if_neg (hother i hi), if_neg (hother i hi), List.nil_append, List.nil_append]
          exact hall i hi
      · rw [if_neg hU]
        rcases hopen : refOpen share U r pos seen with _ | _
        · rw [if_neg Bool.false_ne_true]
          -- What is stored of such a reference has no blocks, so it is not what was meant.
          have hne := (compactParse_missing hm hentry hopen []).2
          constructor
          · intro hall
            have hhead := hall _ (Bool.eq_false_iff.mpr hU)
            rw [if_pos rfl, if_pos rfl] at hhead
            exact absurd (List.cons.inj hhead).1.symm hne
          · rintro ⟨hhead, -⟩
            cases hhead (Bool.eq_false_iff.mpr hU)
        · rw [if_pos rfl]
          constructor
          · intro hall
            exact ⟨fun _ => rfl, fun i hi => List.append_cancel_left (hall i hi)⟩
          · rintro ⟨-, hall⟩ i hi
            rw [hall i hi]

/-! ## §5 — one dataset does not depend on the others. -/

/-- **What an index stores does not depend on the datasets in `U`**: it parses the metadata whether they
are open or not, and what it has of every other dataset afterwards is the same. -/
def StoredSame {E : Type}
    (parseBlock : List (Option DsetInfo) → List UInt8 → List (List E) → Except Fault (List (List E)))
    (dsets : List DsetInfo) (U : Nat → Bool) (block : List UInt8) (idx : List (List E)) : Prop :=
  ∃ full part, parseBlock (dsets.map some) block idx = .ok full ∧
    parseBlock (unlink U dsets) block idx = .ok part ∧ ∀ i, U i = false → part[i]? = full[i]?

theorem Parses.did_lt {dsets : List (Option DsetInfo)} (h : Parses P share dsets pos c rs os) :
    ∀ r ∈ rs, r.hdr.did.toNat < dsets.length := by
  induction h with
  | nil => exact fun _ hr => absurd hr List.not_mem_nil
  | skip _ hdset _ ih => exact List.forall_mem_cons.mpr ⟨dsetAt_lt hdset, ih⟩
  | entry _ hdset _ _ ih => exact List.forall_mem_cons.mpr ⟨dsetAt_lt hdset, ih⟩

theorem entriesOf_nil {i : Nat} (h : ∀ r ∈ rs, r.hdr.did.toNat ≠ i) (os : List (Option E)) :
    entriesOf i rs os = [] := by
  induction rs generalizing os with
  | nil => rfl
  | cons r rs ih =>
      obtain ⟨hfirst, hrest⟩ := List.forall_mem_cons.mp h
      rcases os with _ | ⟨o, os⟩
      · rfl
      · rw [entriesOf, if_neg hfirst, ih hrest]
        rfl

/-- Both sides, once they are parsed. -/
theorem storedSame_insertAll {E : Type}
    {parseBlock : List (Option DsetInfo) → List UInt8 → List (List E) → Except Fault (List (List E))}
    {block : List UInt8} {idx : List (List E)} {rs : List WReq} {os os' : List (Option E)}
    (hfull : parseBlock (dsets.map some) block idx = .ok (insertAll idx rs os))
    (hpart : parseBlock (unlink U dsets) block idx = .ok (insertAll idx rs os')) :
    StoredSame parseBlock dsets U block idx ↔
      ∀ i, U i = false → i < idx.length → entriesOf i rs os' = entriesOf i rs os := by
  constructor
  · rintro ⟨full, part, hfull', hpart', hsame⟩ i hi hlt
    obtain rfl := Except.ok.inj (hfull.symm.trans hfull')
    obtain rfl := Except.ok.inj (hpart.symm.trans hpart')
    have hi := hsame i hi
    rw [getElem?_insertAll, getElem?_insertAll, List.getElem?_eq_getElem hlt] at hi
    exact List.append_cancel_left (Option.some.inj hi)
  · intro hsame
    refine ⟨_, _, hfull, hpart, fun i hi => ?_⟩
    rw [getElem?_insertAll, getElem?_insertAll]
    by_cases hlt : i < idx.length
    · rw [hsame i hi hlt]
    · rw [List.getElem?_eq_none (by omega)]
      rfl

/-- The list index. -/
theorem storedSame_list {rs : List WReq} {os : List (Option MetaEntry)}
    (h : SectionHolds (listParser z) share (dsets.map some) rs os) {idx : ArrayIdx}
    (hidx : dsets.length ≤ idx.length) :
    StoredSame (parseBlock z share) dsets U (rs.flatMap WReq.metaBuf) idx ↔ RefsOpen share U 0 [] rs := by
  constructor
  · rintro ⟨full, part, -, hpart, -⟩
    by_contra hrefs
    obtain ⟨err, herr⟩ := @parseStep_unlinked_fails z share dsets U [] 0 [] [] rs os h (masks_nil U) hrefs idx
      hidx
    rw [parseBlock_entries _ _ _ (Parses.wellSized h), herr] at hpart
    cases hpart
  · intro hrefs
    have hmasked := Parses.unlinked h (masks_nil U) hrefs
    rw [storedSame_insertAll (parseBlock_section h (by rw [List.length_map]; exact hidx))
      (parseBlock_section hmasked (by rw [unlink_length]; exact hidx))]
    exact fun i hi _ => entriesOf_hide hi rs os

/-- The compact index. -/
theorem storedSame_compact {rs : List WReq} {os : List (Option CompactEntry)}
    (h : SectionHolds (compactParser z) share (dsets.map some) rs os) {idx : CompactIdx}
    (hidx : dsets.length ≤ idx.length) :
    StoredSame (compactParseBlock z share) dsets U (rs.flatMap WReq.metaBuf) idx ↔
      RefsOpen share U 0 [] rs := by
  have hpart : compactParseBlock z share (unlink U dsets) (rs.flatMap WReq.metaBuf) idx =
      .ok (insertAll idx rs (cutRefs share U 0 [] rs os)) := by
    rw [compactParseBlock, walkBlock_entries _ (Parses.wellSized h)]
    exact @compactStep_unlinked z share dsets U [] 0 [] [] rs os h (masks_nil U) idx hidx
  rw [storedSame_insertAll (compactParseBlock_section h (by rw [List.length_map]; exact hidx)) hpart,
    ← entriesOf_cutRefs_iff h (masks_nil U)]
  constructor
  · intro hsame i hi
    by_cases hlt : i < idx.length
    · exact hsame i hi hlt
    · have hnone : ∀ r ∈ rs, r.hdr.did.toNat ≠ i := by
        intro r hr
        have hdid := Parses.did_lt h r hr
        rw [List.length_map] at hdid
        omega
      rw [entriesOf_nil hnone, entriesOf_nil hnone]
  · exact fun hsame i hi _ => hsame i hi

/-- **Reading one dataset does not depend on the others**, in the list index and in the compact index,
exactly when the references of the datasets outside `U` do not lead into `U`. -/
theorem storedSame_iff_refsOpen {rs : List WReq} {os : List (Option MetaEntry)}
    (h : SectionHolds (listParser z) share (dsets.map some) rs os) (U : Nat → Bool) :
    (∀ idx : ArrayIdx, dsets.length ≤ idx.length →
      (StoredSame (parseBlock z share) dsets U (rs.flatMap WReq.metaBuf) idx ↔ RefsOpen share U 0 [] rs)) ∧
    ∀ idx : CompactIdx, dsets.length ≤ idx.length →
      (StoredSame (compactParseBlock z share) dsets U (rs.flatMap WReq.metaBuf) idx ↔
        RefsOpen share U 0 [] rs) := by
  have hempty (p : Int) (v : List MetaSel) (hp : PosCache.get? [] p = some v) :
      ∃ v', PosCache.get? ([] : CompactCache) p = some v' := by cases hp
  obtain ⟨os', hcompact⟩ := Parses.compact h hempty
  exact ⟨fun idx hidx => storedSame_list h hidx, fun idx hidx => storedSame_compact hcompact hidx⟩

/-- A block written to dataset 0, and the same block written to dataset 1. -/
def sharedSection : List WReq := [blockReq 0 0 2 100 8, refReq 1 (-44) 108 8]

theorem sharedSection_holds :
    SectionHolds (listParser none) true ([vectorDset 8, vectorDset 8].map some) sharedSection
      [some (blockEntry 0 0 2 100 8), some (refEntry 1 0 2 108 8)] :=
  Parses.block 8 rfl (Parses.refBlock 8 rfl rfl Parses.nil)

/-- Dataset 1 is not open: dataset 0 is read as before. -/
theorem storedSame_sharedSection :
    StoredSame (parseBlock none true) [vectorDset 8, vectorDset 8] (fun i => i == 1)
        (sharedSection.flatMap WReq.metaBuf) [[], []] ∧
      StoredSame (compactParseBlock none true) [vectorDset 8, vectorDset 8] (fun i => i == 1)
        (sharedSection.flatMap WReq.metaBuf) [[], []] := by
  obtain ⟨hlist, hcompact⟩ := storedSame_iff_refsOpen sharedSection_holds fun i => i == 1
  have hrefs : RefsOpen true (fun i => i == 1) 0 [] sharedSection :=
    And.intro (fun _ => rfl) (And.intro (fun hno => absurd hno (by decide)) trivial)
  exact ⟨(hlist [[], []] le_rfl).mpr hrefs, (hcompact [[], []] le_rfl).mpr hrefs⟩

/-- Dataset 0 is not open: dataset 1 is lost. -/
theorem not_storedSame_sharedSection :
    ¬ StoredSame (parseBlock none true) [vectorDset 8, vectorDset 8] (fun i => i == 0)
        (sharedSection.flatMap WReq.metaBuf) [[], []] := by
  rw [storedSame_list sharedSection_holds le_rfl]
  rintro ⟨-, hsecond, -⟩
  cases hsecond rfl

end LogVol
