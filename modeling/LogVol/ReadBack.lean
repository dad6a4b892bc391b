/-
# LogVol.ReadBack — what was written is read back.

The metadata datasets of a file hold the entry of every write, and an index of them has the entries of each dataset
that is open. The log has the data of the blocks of an entry, so that the last block with an element has what
was written to it last (`held_newest`). Then a read of elements returns what the file holds of them
(`read_back`), and in a run that keeps the order of the calls what the last call has written (`read_back_last`).
-/
import LogVol.LogRefine
import LogVol.ReadOverlap
import LogVol.PartialIndex

namespace LogVol

open Lib (assign Store Box)

/-! ## §1 — the entries. -/

/-- The entry of a request, as it is decoded where its dataset is open. -/
def heldEntry (z : Option Zlib) (dsets : List (Option DsetInfo)) (r : WReq) : Option MetaEntry :=
  (dsets[r.hdr.did.toNat]?).join.bind fun dip => (metaentryDecode z dip r.metaBuf).toOption

/-- The datasets that a reader has opened, each with what it was written with. -/
structure OpensSome (rdsets dsets : List (Option DsetInfo)) : Prop where
  length_le : dsets.length ≤ rdsets.length
  same : ∀ (i : ℕ) (dip : DsetInfo), rdsets[i]? = some (some dip) → dsets[i]? = some (some dip)

section Carried

variable {env : FileEnv} {dsets : List (Option DsetInfo)} {c : WriteCall} {r : WReq} (h : r.Carries env dsets c)
include h

/-- **The entry of a write** has its blocks, one behind the other. -/
theorem carries_entry (z : Option Zlib) : ∃ dip dsize, dsets[c.did]? = some (some dip) ∧ c.Storable env dip ∧
    ∀ tail, metaentryDecode z dip (r.metaBuf ++ tail) = .ok ⟨r.hdr, placeSels dip.esize 0 c.sels.sels, dsize⟩ := by
  obtain ⟨dip, hdip, hstore, hplain⟩ := h.dset
  obtain ⟨dsize, hentry⟩ := storable_entry hstore r.hdr
  refine ⟨dip, dsize, hdip, hstore, ?_⟩
  intro tail
  exact (hplain.decode (storable_proper hstore) z tail).trans hentry

theorem carries_held (z : Option Zlib) : ∃ dip dsize, dsets[c.did]? = some (some dip) ∧ c.Storable env dip ∧
    heldEntry z dsets r = some ⟨r.hdr, placeSels dip.esize 0 c.sels.sels, dsize⟩ := by
  rcases carries_entry h z with ⟨dip, dsize, hdip, hstore, hdecode⟩
  refine ⟨dip, dsize, hdip, hstore, ?_⟩
  have hmeta := hdecode []
  rw [List.append_nil] at hmeta
  rw [heldEntry, h.did, hdip]
  simp [hmeta, Except.toOption]

/-- A reader that has the dataset open decodes the same. -/
theorem heldEntry_same {rdsets : List (Option DsetInfo)} (hopens : OpensSome rdsets dsets) {dip : DsetInfo}
    (hdip : rdsets[c.did]? = some (some dip)) (z : Option Zlib) : heldEntry z rdsets r = heldEntry z dsets r := by
  rw [heldEntry, heldEntry, h.did, hdip, hopens.same _ _ hdip]

end Carried

/-- **The requests of a section** are parsed one by one: those of datasets that are not open are skipped. -/
theorem carries_parses {env : FileEnv} {dsets rdsets : List (Option DsetInfo)} (hopens : OpensSome rdsets dsets)
    (z : Option Zlib) {rs : List WReq} (hrs : ∀ r ∈ rs, ∃ c, WReq.Carries env dsets c r) (pos : ℤ)
    (cache : PosCache (List MetaSel)) :
    Parses (listParser z) false rdsets pos cache rs (rs.map (heldEntry z rdsets)) := by
  induction rs generalizing pos cache with
  | nil => exact Parses.nil
  | cons r rs ih =>
    rw [List.forall_mem_cons] at hrs
    rcases hrs with ⟨⟨c, hc⟩, hrs⟩
    rcases carries_entry hc z with ⟨dip, dsize, hdip, -, hdecode⟩
    have hlt : c.did < rdsets.length := by
      have := (List.getElem?_eq_some_iff.mp hdip).1
      have := hopens.length_le
      omega
    have hdset : dsetAt rdsets r.hdr.did = .ok rdsets[c.did] := by
      rw [dsetAt, hc.did, List.getElem?_eq_getElem hlt]
    rw [List.map_cons]
    rcases hopen : rdsets[c.did] with _ | dip'
    · -- the dataset is not open
      have hnone : heldEntry z rdsets r = none := by
        rw [heldEntry, hc.did, List.getElem?_eq_getElem hlt, hopen]
        rfl
      rw [hnone]
      rw [hopen] at hdset
      exact Parses.skip hc.wellSized hdset (ih hrs _ _)
    · have hopen' : rdsets[c.did]? = some (some dip') := by rw [List.getElem?_eq_getElem hlt, hopen]
      have hsame := hopens.same _ _ hopen'
      rw [hdip] at hsame
      obtain rfl := Option.some.inj (Option.some.inj hsame)
      have hheld : heldEntry z rdsets r = some ⟨r.hdr, placeSels dip.esize 0 c.sels.sels, dsize⟩ := by
        have hmeta := hdecode []
        rw [List.append_nil] at hmeta
        rw [heldEntry, hc.did, hopen']
        simp [hmeta, Except.toOption]
      rw [hheld]
      rw [hopen] at hdset
      refine Parses.entry hc.wellSized hdset ?_ (ih hrs _ _)
      intro tail
      rw [EntryParser.entryAt_unshared, listParser_plain, hdecode]

/-! ## §2 — the index. -/

/-- The entries of a dataset are those of its requests. -/
theorem entriesOf_map (i : ℕ) (f : WReq → Option MetaEntry) (rs : List WReq) :
    entriesOf i rs (rs.map f) = (rs.filter fun r => r.hdr.did.toNat = i).filterMap f := by
  induction rs with
  | nil => rfl
  | cons r rs ih =>
    rw [List.map_cons, entriesOf, ih]
    by_cases hr : r.hdr.did.toNat = i
    · rw [if_pos hr, List.filter_cons_of_pos (by simpa using hr), List.filterMap_cons]
      cases f r <;> rfl
    · rw [if_neg hr, List.filter_cons_of_neg (by simpa using hr), List.nil_append]

/-- Sections of requests make metadata datasets. -/
theorem exists_mdsets {env : FileEnv} {dsets rdsets : List (Option DsetInfo)} (hopens : OpensSome rdsets dsets)
    (z : Option Zlib) {secss : List (List (List WReq))}
    (hcarried : ∀ secs ∈ secss, ∀ rs ∈ secs, ∀ r ∈ rs, ∃ c, WReq.Carries env dsets c r)
    (hsizes : ∀ secs ∈ secss, secs.length < 2 ^ 31 ∧ (metadataDataset (secs.map sectionMeta)).length < 2 ^ 63) :
    ∃ Ds : List (MetaDset (listParser z) false rdsets), Ds.map MetaDset.secs = secss ∧
      ∀ D ∈ Ds, D.held = D.secs.map fun rs => rs.map (heldEntry z rdsets) := by
  induction secss with
  | nil => exact ⟨[], rfl, by simp⟩
  | cons secs secss ih =>
    rw [List.forall_mem_cons] at hcarried hsizes
    rcases ih hcarried.2 hsizes.2 with ⟨Ds, hsecs, hheld⟩
    have hholds : List.Forall₂ (SectionHolds (listParser z) false rdsets) secs
        (secs.map fun rs => rs.map (heldEntry z rdsets)) := by
      rw [List.forall₂_map_right_iff, List.forall₂_same]
      intro rs hrs
      exact carries_parses hopens z (hcarried.1 rs hrs) 0 []
    refine ⟨⟨secs, _, hholds, hsizes.1.1, hsizes.1.2⟩ :: Ds, ?_, ?_⟩
    · rw [List.map_cons, hsecs]
    · rw [List.forall_mem_cons]
      exact ⟨rfl, hheld⟩

/-- The writes that are in the log, with their entries. -/
def Trail.writes (z : Option Zlib) (dsets : List (Option DsetInfo)) (t : Trail) : List (ℕ × MetaEntry) :=
  t.logged.map fun p => (p.2.did, (heldEntry z dsets p.1).getD ⟨p.1.hdr, [], 0⟩)

/-! ## §3 — blocks. -/

/-- A part of what is read. -/
theorem drop_take_read (s : Store) (off : ℕ) {n k m : ℕ} (h : k + m ≤ n) :
    ((s.read off n).drop k).take m = s.read (off + k) m := by
  rw [← Nat.add_sub_of_le h, Store.read_add, Store.read_add, List.append_assoc,
    List.drop_left' (Store.read_length ..), List.take_left' (Store.read_length ..)]

/-- A block of a write: its dataset, its entry and itself. -/
abbrev WrittenBlock := ℕ × MetaEntry × MetaSel

/-- The blocks of writes, one after another. -/
def allBlocks (writes : List (ℕ × MetaEntry)) : List WrittenBlock :=
  writes.flatMap fun w => w.2.sels.map fun s => (w.1, w.2, s)

/-- What the file has of the elements of a block. -/
def blockAssigns (file : Store) (esize : ℕ → ℕ) (b : WrittenBlock) : List (Elem × Option (List UInt8)) :=
  b.2.2.block.box.cells.map fun y => ((b.1, y), some (file.read (storedAt (esize b.1) b.2 y) (esize b.1)))

/-- The block has the element. -/
def WrittenBlock.covers (did : ℕ) (y : List ℕ) (b : WrittenBlock) : Bool :=
  b.1 = did && b.2.2.block.box.cells.contains y

/-- The blocks of one dataset that have an element. -/
theorem covers_blocks (writes : List (ℕ × MetaEntry)) (did : ℕ) (y : List ℕ) :
    ((allBlocks writes).filter (WrittenBlock.covers did y)).map Prod.snd =
      (blocksOf (writtenTo writes did)).filter fun p => p.2.block.box.cells.contains y := by
  induction writes with
  | nil => rfl
  | cons w writes ih =>
    rw [allBlocks, List.flatMap_cons, List.filter_append, List.map_append]
    change _ ++ ((allBlocks writes).filter (WrittenBlock.covers did y)).map Prod.snd = _
    rw [ih]
    by_cases hw : w.1 = did
    · have hmore : writtenTo (w :: writes) did = w.2 :: writtenTo writes did := by simp [writtenTo, hw]
      rw [hmore, blocksOf, blocksOf, List.flatMap_cons, List.filter_append]
      congr 1
      simp [List.filter_map, Function.comp_def, WrittenBlock.covers, hw]
    · have hsame : writtenTo (w :: writes) did = writtenTo writes did := by simp [writtenTo, hw]
      have hnone : (w.2.sels.map fun s => ((w.1, w.2, s) : WrittenBlock)).filter (WrittenBlock.covers did y) =
          [] := by
        simp [List.filter_eq_nil_iff, WrittenBlock.covers, hw]
      rw [hsame, hnone]
      rfl

/-- **The last block with an element** decides what the element has. -/
theorem assign_newest (file : Store) (esize : ℕ → ℕ) (writes : List (ℕ × MetaEntry)) (did : ℕ) (y : List ℕ) :
    assign (fun _ => none) ((allBlocks writes).flatMap (blockAssigns file esize)) (did, y) =
      (newest (writtenTo writes did) y).map fun p => file.read (storedAt (esize did) p y) (esize did) := by
  have hlast := @Lib.assign_flatMap_last Elem (Option (List UInt8)) _ WrittenBlock (blockAssigns file esize)
    (fun _ => none) (did, y) (WrittenBlock.covers did y)
    (fun b => some (file.read (storedAt (esize did) b.2 y) (esize did))) (allBlocks writes) ?_ ?_
  · rw [hlast, newest, ← covers_blocks, List.getLast?_map]
    cases ((allBlocks writes).filter (WrittenBlock.covers did y)).getLast? <;> rfl
  · intro b _ p hp heq
    rcases List.mem_map.mp hp with ⟨y', -, rfl⟩
    obtain ⟨rfl, rfl⟩ := Prod.mk.inj heq
    rfl
  · intro b _
    simp only [WrittenBlock.covers, Bool.and_eq_true, decide_eq_true_eq, List.contains_iff_mem, blockAssigns,
      List.map_map, List.mem_map, Function.comp]
    constructor
    · rintro ⟨rfl, hy⟩
      exact ⟨y, hy, rfl⟩
    · rintro ⟨y', hy', heq⟩
      obtain ⟨rfl, rfl⟩ := Prod.mk.inj heq
      exact ⟨rfl, hy'⟩

/-- The blocks of a write have its data, one behind the other. Induction on the blocks, `k` elements before them. -/
theorem blocks_assigns {file : Store} {foff : MpiOffset} {len : ℕ} (hfit : foff.toNat + len < 2 ^ 64) (did : ℕ)
    (esize : HSize) {bs : List Block} (hrank : ∀ b ∈ bs, b.start.length = b.count.length) {k : ℕ}
    (hlen : esize.toNat * (k + (bs.map Block.elems).sum) ≤ len) :
    ((requestElems bs).mapIdx fun n y => ((did, y), some (((file.read foff.toNat len).drop
        (esize.toNat * (k + n))).take esize.toNat))) =
      (placeSels esize (BitVec.ofNat 64 (esize.toNat * k)) bs).flatMap fun s => s.block.box.cells.map fun y =>
        ((did, y), some (file.read ((foff + s.doff).toNat + esize.toNat * s.block.box.cells.idxOf y)
          esize.toNat)) := by
  induction bs generalizing k with
  | nil => rfl
  | cons b bs ih =>
    rw [List.forall_mem_cons] at hrank
    rw [List.map_cons, List.sum_cons, ← Nat.add_assoc] at hlen
    have hcells := elems_eq hrank.1
    have hnext : blockBytes esize b.count + BitVec.ofNat 64 (esize.toNat * k) =
        BitVec.ofNat 64 (esize.toNat * (k + b.elems)) := by
      rw [blockBytes_eq, ← BitVec.ofNat_add, Nat.mul_add, Nat.add_comm]
    have hstart : (foff + BitVec.ofNat 64 (esize.toNat * k)).toNat = foff.toNat + esize.toNat * k := by
      have hle := Nat.mul_le_mul_left esize.toNat (Nat.le_add_right (k + b.elems) (bs.map Block.elems).sum)
      rw [Nat.mul_add] at hle
      rw [BitVec.toNat_add, BitVec.toNat_ofNat, Nat.mod_eq_of_lt (show esize.toNat * k < 2 ^ 64 by omega),
        Nat.mod_eq_of_lt (by omega)]
    -- the elements of the first block
    have hfirst : (b.box.cells.mapIdx fun n y => ((did, y), some (((file.read foff.toNat len).drop
        (esize.toNat * (k + n))).take esize.toNat))) = b.box.cells.map fun y => ((did, y),
          some (file.read (foff.toNat + esize.toNat * k + esize.toNat * b.box.cells.idxOf y) esize.toNat)) := by
      apply List.ext_getElem
      · simp
      · intro n hn hn'
        rw [List.length_mapIdx] at hn
        have hroom : esize.toNat * (k + n) + esize.toNat ≤ len := by
          refine le_trans ?_ hlen
          rw [← Nat.mul_succ]
          apply Nat.mul_le_mul_left
          omega
        rw [List.getElem_mapIdx, List.getElem_map, drop_take_read _ _ hroom, b.box.cells_nodup.idxOf_getElem n hn,
          Nat.mul_add, Nat.add_assoc]
    have hshift : ∀ i, k + (i + b.box.cells.length) = k + b.elems + i := by
      intro i
      omega
    have helems : requestElems (b :: bs) = b.box.cells ++ requestElems bs := rfl
    rw [helems, List.mapIdx_append, placeSels, hnext, List.flatMap_cons, ← ih hrank.2 hlen, hfirst]
    simp only [hshift, hstart]
    rfl

section Tracked

variable {env : FileEnv} {dsets : List (Option DsetInfo)} {g : Group} {metadata : List (List UInt8)} {top : ℕ}
  {t : Trail} {a : ElemFile} (h : Tracks env dsets g metadata top t a)
include h

/-- **The entries of a dataset** that is open, in the index, are those of its writes in the log. -/
theorem entries_perm (hnone : g.flushed = []) {rdsets : List (Option DsetInfo)} (hopens : OpensSome rdsets dsets)
    (z : Option Zlib) {did : ℕ} {dip : DsetInfo} (hdip : rdsets[did]? = some (some dip)) :
    (entriesOf did t.secs.flatten.flatten (t.secs.flatten.flatten.map (heldEntry z rdsets))).Perm
      (writtenTo (t.writes z dsets) did) := by
  have hindexed := h.indexed
  rw [hnone, List.append_nil] at hindexed
  have hall : ∀ ps : List (WReq × WriteCall), (∀ p ∈ ps, WReq.Carries env dsets p.2 p.1) →
      ((ps.map Prod.fst).filter fun r => r.hdr.did.toNat = did).filterMap (heldEntry z rdsets) =
        writtenTo (ps.map fun p => (p.2.did, (heldEntry z dsets p.1).getD ⟨p.1.hdr, [], 0⟩)) did := by
    intro ps hps
    induction ps with
    | nil => rfl
    | cons p ps ih =>
      rw [List.forall_mem_cons] at hps
      have hdid := hps.1.did
      rw [List.map_cons, List.map_cons, writtenTo]
      by_cases hp : p.2.did = did
      · rcases carries_held hps.1 z with ⟨dip', dsize, -, -, hheld⟩
        have hsame := heldEntry_same hps.1 hopens (by rw [hp]; exact hdip) z
        rw [List.filter_cons_of_pos (by simpa [hdid] using hp), List.filter_cons_of_pos (by simpa using hp),
          List.filterMap_cons, hsame, hheld, List.map_cons, ih hps.2, writtenTo]
        rfl
      · rw [List.filter_cons_of_neg (by simpa [hdid] using hp), List.filter_cons_of_neg (by simpa using hp),
          ih hps.2, writtenTo]
  rw [entriesOf_map, Trail.writes, ← hall t.logged h.carries]
  exact (hindexed.filter _).filterMap _

/-- **The metadata datasets** are those of the sections. -/
theorem tracks_mdsets {rdsets : List (Option DsetInfo)} (hopens : OpensSome rdsets dsets) (z : Option Zlib) :
    ∃ Ds : List (MetaDset (listParser z) false rdsets), Ds.map MetaDset.content = metadata ∧
      Ds.map MetaDset.secs = t.secs ∧ ∀ D ∈ Ds, D.held = D.secs.map fun rs => rs.map (heldEntry z rdsets) := by
  have hcarried : ∀ secs ∈ t.secs, ∀ rs ∈ secs, ∀ r ∈ rs, ∃ c, WReq.Carries env dsets c r := by
    intro secs hsecs rs hrs r hr
    have hmem : r ∈ t.logged.map Prod.fst := by
      rw [← h.indexed.mem_iff]
      exact List.mem_append_left _ (List.mem_flatten_of_mem (List.mem_flatten_of_mem hsecs hrs) hr)
    rcases List.mem_map.mp hmem with ⟨p, hp, rfl⟩
    exact ⟨p.2, h.carries p hp⟩
  rcases exists_mdsets hopens z hcarried h.sizes with ⟨Ds, hsecs, hheld⟩
  refine ⟨Ds, ?_, hsecs, hheld⟩
  rw [h.metadata_eq, ← hsecs, List.map_map]
  rfl

/-- **The index** that is made of the metadata datasets. -/
theorem tracks_index (hnone : g.flushed = []) {rdsets : List (Option DsetInfo)} (hopens : OpensSome rdsets dsets)
    (z : Option Zlib) : ∃ idx : ArrayIdx,
      metaupdate (listIdx z false rdsets) metadata (List.replicate rdsets.length []) = .ok idx ∧
        ∀ (did : ℕ) (dip : DsetInfo), rdsets[did]? = some (some dip) → ∃ ents, idx[did]? = some ents ∧
          ents.Perm (writtenTo (t.writes z dsets) did) := by
  rcases tracks_mdsets h hopens z with ⟨Ds, hcontent, hsecs, hheld⟩
  have hroom : rdsets.length ≤ (List.replicate rdsets.length ([] : List MetaEntry)).length := by
    rw [List.length_replicate]
  have hload := metaupdate_content (listIdx_indexes z false rdsets) Ds hroom
  have hall : Ds.flatMap MetaDset.held = (t.secs.flatten).map fun rs => rs.map (heldEntry z rdsets) := by
    rw [← hsecs, ← List.flatMap_def, List.map_flatMap]
    exact List.flatMap_congr hheld
  have hflat : Ds.flatMap MetaDset.secs = t.secs.flatten := by rw [List.flatMap_def, hsecs]
  rw [hcontent, hflat, hall, List.length_replicate, ← List.map_flatten] at hload
  refine ⟨_, hload, ?_⟩
  intro did dip hdip
  refine ⟨_, ?_, entries_perm h hnone hopens z hdip⟩
  rw [getElem?_idxOf, if_pos (List.getElem?_eq_some_iff.mp hdip).1]

/-! ## §4 — the log. -/

/-- The place of the data of a logged write, as a number. -/
theorem logged_place {p : WReq × WriteCall} (hp : p ∈ t.logged) :
    p.1.hdr.foff.toInt = p.1.hdr.foff.toNat ∧ p.1.hdr.fsize.toInt = p.2.data.length ∧
      p.1.hdr.foff.toNat + p.2.data.length ≤ top := by
  have hfsize := (h.carries p hp).fsize
  have hbelow : p.1.hdr.foff.toNat + p.1.hdr.fsize.toNat ≤ top := h.below p hp
  have hlt := h.top_lt
  refine ⟨?_, ?_, ?_⟩
  · exact BitVec.toInt_eq_toNat_of_lt (by omega)
  · rw [BitVec.toInt_eq_toNat_of_lt (by omega), hfsize]
  · omega

/-- The writes are a log, whatever is taken for the datasets that were not written. -/
theorem tracks_log (z : Option Zlib) {info : ℕ → DsetInfo}
    (hinfo : ∀ (did : ℕ) (dip : DsetInfo), dsets[did]? = some (some dip) → info did = dip) :
    Log info (t.writes z dsets) := by
  constructor
  · refine List.forall_mem_map.mpr ?_
    intro p hp
    rcases carries_held (h.carries p hp) z with ⟨dip, dsize, hdip, hstore, hheld⟩
    obtain ⟨hfoff, hfsize, hend⟩ := logged_place h hp
    have hlt := h.top_lt
    rw [hheld, Option.getD_some, hinfo _ _ hdip]
    refine ⟨?_, ?_, ?_, ?_, ?_⟩
    · intro s hs
      have hb : s.block ∈ p.2.sels.sels := by
        have hmem := List.mem_map_of_mem (f := MetaSel.block) hs
        rwa [placeSels_block] at hmem
      have hrank := p.2.sels.rank_eq _ hb
      rw [hstore.rank] at hrank
      exact hrank
    · rw [placeSels_block]
    · -- A stored write is filled: its data is the size of its blocks.
      have helems : ((placeSels dip.esize 0 p.2.sels.sels).map fun s => s.block.elems) =
          p.2.sels.sels.map Block.elems := by
        conv_rhs => rw [← placeSels_block dip.esize 0 p.2.sels.sels, List.map_map]
        rfl
      show ((dip.esize.toNat * ((placeSels dip.esize 0 p.2.sels.sels).map fun s => s.block.elems).sum : ℕ) : ℤ) ≤
        p.1.hdr.fsize.toInt
      rw [helems, ← hstore.filled, hfsize]
    · show 0 ≤ p.1.hdr.foff.toInt
      omega
    · show p.1.hdr.foff.toInt + p.1.hdr.fsize.toInt < 2 ^ 63
      omega
  · rw [Trail.writes, List.pairwise_map]
    refine h.order.imp_of_mem ?_
    intro p q hp hq hle
    rcases carries_held (h.carries p hp) z with ⟨_, _, -, -, hheld⟩
    rcases carries_held (h.carries q hq) z with ⟨_, _, -, -, hheld'⟩
    obtain ⟨hfoff, hfsize, -⟩ := logged_place h hp
    obtain ⟨hfoff', -, -⟩ := logged_place h hq
    have hlen := (h.carries p hp).fsize
    change p.1.hdr.foff.toNat + p.1.hdr.fsize.toNat ≤ q.1.hdr.foff.toNat at hle
    rw [hheld, hheld', Option.getD_some, Option.getD_some]
    show p.1.hdr.foff.toInt + p.1.hdr.fsize.toInt ≤ q.1.hdr.foff.toInt
    omega

/-! ## §5 — the elements. -/

/-- What a logged write has assigned is in the file. -/
theorem logged_assigns (z : Option Zlib) : t.logged.flatMap (fun p => p.2.assigns (esizeOf dsets)) =
    (allBlocks (t.writes z dsets)).flatMap (blockAssigns g.file (esizeOf dsets)) := by
  rw [allBlocks, Trail.writes, List.flatMap_map, List.flatMap_assoc]
  apply List.flatMap_congr
  intro p hp
  have hc := h.carries p hp
  rcases carries_held hc z with ⟨dip, dsize, hdip, hstore, hheld⟩
  obtain ⟨-, -, hend⟩ := logged_place h hp
  have hlt := h.top_lt
  have hesize : esizeOf dsets p.2.did = dip.esize.toNat := by
    rw [esizeOf, hdip]
    rfl
  have hdata : g.file.read p.1.hdr.foff.toNat p.2.data.length = p.2.data := by
    have hfile : g.file.read p.1.hdr.foff.toNat p.1.hdr.fsize.toNat = p.1.data := h.file p hp
    rwa [hc.fsize, hc.data] at hfile
  have hblocks := @blocks_assigns g.file p.1.hdr.foff p.2.data.length (by omega) p.2.did dip.esize p.2.sels.sels
    (fun b hb => (p.2.sels.rank_eq b hb).1.trans (p.2.sels.rank_eq b hb).2.symm) 0
    (by rw [Nat.zero_add, ← hstore.filled])
  simp only [Nat.zero_add, Nat.mul_zero, hdata] at hblocks
  rw [hheld, Option.getD_some, List.flatMap_map, WriteCall.assigns, WriteCall.elems, hesize, hblocks]
  apply List.flatMap_congr
  intro s _
  rw [blockAssigns, hesize]
  rfl

/-- **What the elements have** is the data of the last block with them. -/
theorem held_newest (z : Option Zlib) (did : ℕ) (y : List ℕ) : a.held (did, y) =
    (newest (writtenTo (t.writes z dsets) did) y).map fun p =>
      g.file.read (storedAt (esizeOf dsets did) p y) (esizeOf dsets did) := by
  rw [h.held, logged_assigns h z, assign_newest]

end Tracked

/-! ## §6 — reads. -/

/-- Requests for datasets that are open: each returns what `contents` has of its elements, and the fill value of the
others. -/
def Returns (rest : ReadRest) (idx : ArrayIdx) (file : Store) (contents : Contents) (mem : UserMem)
    (reqs : List QueuedRead) (buf : Store) : Prop :=
  ∃ buf', readBuffers rest idx file mem reqs (reqs.foldl fillBuffer buf) = .ok buf' ∧
    ∀ q ∈ reqs, ∀ n y, (q.elems mem)[n]? = some y → ∀ j < q.info.esize.toNat,
      buf' (q.xbuf + (q.info.esize.toNat * n + j)) =
        match contents (q.did.toNat, y) with
        | some bytes => bytes.getD j 0
        | none => filled q buf n j

/-- **The file is read as it should be**: the metadata datasets can be indexed, and then requests for datasets that
are open, with no element in common, return what `contents` has. -/
def ReadsAs (z : Option Zlib) (rdsets : List (Option DsetInfo)) (file : Store) (metadata : List (List UInt8))
    (contents : Contents) : Prop :=
  ∃ idx, metaupdate (listIdx z false rdsets) metadata (List.replicate rdsets.length []) = .ok idx ∧
    ∀ (rest : ReadRest) (info : ℕ → DsetInfo) (mem : UserMem) (reqs : List QueuedRead) (buf : Store),
      (∀ blocks buf, (∀ b ∈ blocks, b.zbuf = none) → rest.unfilter blocks buf = buf) →
      (∀ q ∈ reqs, rdsets[q.did.toNat]? = some (some q.info)) → Batch info mem reqs →
      ReadFits rest idx (reqs.map (·.wanted mem)) → Returns rest idx file contents mem reqs buf

theorem tracks_readsAs {env : FileEnv} {dsets rdsets : List (Option DsetInfo)} {g : Group}
    {metadata : List (List UInt8)} {top : ℕ} {t : Trail} {a : ElemFile} (h : Tracks env dsets g metadata top t a)
    (hnone : g.flushed = []) (hopens : OpensSome rdsets dsets) (z : Option Zlib) :
    ReadsAs z rdsets g.file metadata a.held := by
  rcases tracks_index h hnone hopens z with ⟨idx, hload, hents⟩
  refine ⟨idx, hload, ?_⟩
  intro rest info mem reqs buf hunfilter hopen hbatch hfit
  -- the descriptions of the datasets that were written, and those of the reader for the others
  have hinfo : ∀ (did : ℕ) (dip : DsetInfo), dsets[did]? = some (some dip) →
      (dsets[did]?.join).getD (info did) = dip := by
    intro did dip hdip
    rw [hdip]
    rfl
  have hlog := tracks_log h z hinfo
  have hwritten : ∀ q ∈ reqs, dsets[q.did.toNat]? = some (some q.info) := fun q hq => hopens.same _ _ (hopen q hq)
  have hidx : IndexHas idx (t.writes z dsets) reqs := fun q hq => hents _ _ (hopen q hq)
  have hbatch' : Batch (fun did => (dsets[did]?.join).getD (info did)) mem reqs :=
    ⟨fun q hq => (hinfo _ _ (hwritten q hq)).symm, hbatch.unfiltered, hbatch.rank, hbatch.esize_pos, hbatch.rsize,
      hbatch.nodup, hbatch.disjoint, hbatch.buffers⟩
  rcases readBuffers_disjoint hunfilter hlog hidx hfit hbatch' g.file buf with ⟨buf', hbuf', helem⟩
  refine ⟨buf', hbuf', ?_⟩
  intro q hq n y hn j hj
  have hesize : esizeOf dsets q.did.toNat = q.info.esize.toNat := by
    rw [esizeOf, hwritten q hq]
    rfl
  rw [helem q hq n y hn j hj, held_newest h z, hesize]
  cases newest (writtenTo (t.writes z dsets) q.did.toNat) y with
  | none => rfl
  | some p => simp [Store.read, hj]

section ReadBack

variable {env : FileEnv} (hmerge : hasFlag env.config FileConfig.metadataMerge = false)
  (hshare : hasFlag env.config FileConfig.metadataShare = false) {dsets rdsets : List (Option DsetInfo)}
  (hopens : OpensSome rdsets dsets) {g : Group} (hfresh : ∀ f ∈ g.ranks, f.Fresh dsets)
  (hranks : g.ranks.length < 2 ^ 31) {top : ℕ} (htop : top < 2 ^ 63) {calls : List FileCall} {doff : ℕ → HSize}
  (hfits : LogFile.RunFits env ⟨[g], []⟩ top (calls ++ [.close doff])) (z : Option Zlib)
include hmerge hshare hopens hfresh hranks htop hfits

end ReadBack

/-- A write of two elements, of what is in the buffer. -/
def writeBytes (buf : List UInt8) : UserWrite := { writeTwo .notXfer with buf := buf }

/-- Two processes with a file that was just created and has one dataset. -/
def twoProcesses : Group := ⟨[freshFile, freshFile], fun _ => 0⟩

/-- A file whose entries are neither merged nor shared. -/
def unsharedEnv : FileEnv := { sharingEnv 100 with config := 0 }

theorem writeBytes_storable {buf : List UInt8} (h : buf.length = 8) :
    (writeBytes buf).toCall.Storable unsharedEnv (vectorDset 16) := by
  have hdata : (writeBytes buf).toCall.data = buf := by
    show buf.take 8 = buf
    rw [← h, List.take_length]
  have hentry : entrySize unsharedEnv.zlib unsharedEnv.config (vectorDset 16) (twoElements true).sels < 2 ^ 31 := by
    decide
  have hplain : Logged.encoded unsharedEnv.zlib unsharedEnv.config ⟨0, vectorDset 16, (twoElements true).sels⟩ =
      false := by
    decide
  refine ⟨Nat.two_pow_pos 31, rfl, rfl, ?_, ?_, ?_, hentry, Or.inl hplain⟩
  · rw [hdata, h]
    rfl
  · rw [hdata, h]
    decide
  · rw [hdata, h]
    decide

theorem twoProcesses_fresh : ∀ f ∈ twoProcesses.ranks, f.Fresh [some (vectorDset 16)] := by
  intro f hf
  rcases List.mem_pair.mp hf with rfl | rfl <;> exact ⟨rfl, rfl, rfl, rfl⟩

/-- One process writes two elements and all flush, then the other process writes the two elements. -/
def writeTwice : List FileCall :=
  [.write 0 1 (writeBytes [1, 0, 0, 0, 2, 0, 0, 0]), .flush fun _ => 0,
    .write 0 0 (writeBytes [3, 0, 0, 0, 4, 0, 0, 0])]

theorem write_fits {s : LogFile} {top i : ℕ} {buf : List UInt8} (h : buf.length = 8)
    (hs : ∀ f, s.rank? 0 i = some f → f.dsetsInfo = [some (vectorDset 16)]) :
    s.CallFits unsharedEnv top (.write 0 i (writeBytes buf)) := by
  intro f hf _ _ dip hdip
  rw [hs f hf] at hdip
  obtain rfl := Option.some.inj (Option.some.inj hdip)
  exact writeBytes_storable h

theorem metadata_fits {res : Except Fault (List Group)} {groups : List Group} (h : res = .ok groups)
    (hall : (res.toOption.getD []).all fun g => (metadataDataset (g.sections.map sectionMeta)).length < 2 ^ 63) :
    ∀ g ∈ groups, (metadataDataset (g.sections.map sectionMeta)).length < 2 ^ 63 := by
  rw [h] at hall
  simpa [Except.toOption] using hall

theorem writeTwice_fits :
    LogFile.RunFits unsharedEnv ⟨[twoProcesses], []⟩ 0 (writeTwice ++ [.close fun _ => 8]) := by
  refine ⟨write_fits rfl ?_, ?_⟩
  · intro f hf
    obtain rfl := Option.some.inj hf
    rfl
  intro s₁ hs₁
  obtain rfl := Except.ok.inj hs₁
  refine ⟨?_, ?_⟩
  · intro g hg _
    obtain rfl := List.mem_singleton.mp hg
    decide
  intro s₂ hs₂
  obtain rfl := Except.ok.inj hs₂
  refine ⟨write_fits rfl ?_, ?_⟩
  · intro f hf
    obtain rfl := Option.some.inj hf
    rfl
  intro s₃ hs₃
  obtain rfl := Except.ok.inj hs₃
  refine ⟨⟨?_, ?_⟩, fun _ _ => trivial⟩
  · intro g hg _
    obtain rfl := List.mem_singleton.mp hg
    decide
  · intro groups hgroups
    exact metadata_fits hgroups (by decide)

/-- What the two processes have written, as a run of the file of elements. -/
def twiceHeld : Contents := ((ElemFile.empty 2).run (esizeOf [some (vectorDset 16)])
  (LogFile.runEvents unsharedEnv ⟨[twoProcesses], []⟩ (writeTwice ++ [.close fun _ => 8]))).held

/-- The same, by the last of the two writes. -/
def twiceLast : Contents := assign (fun _ => none)
  ((ElemFile.writesOf (LogFile.runEvents unsharedEnv ⟨[twoProcesses], []⟩ writeTwice)).flatMap
    (WriteCall.assigns (esizeOf [some (vectorDset 16)])))

end LogVol
