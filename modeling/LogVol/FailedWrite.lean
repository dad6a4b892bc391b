/-
# LogVol.FailedWrite — what a write that raises leaves behind.

A write changes the deduplication table and the zip buffer while it encodes the request, and takes
buffer space before it filters and queues the data; nothing is taken back when a later stage raises.
Each stage has one lemma saying what it changes in the file. `datasetWrite_noTrace` says exactly which
raising writes leave the queue, the merged requests, the table and the account as they were, and that a
run whose raising writes are of that kind is the run without them.
-/
import LogVol.DatasetWrite

namespace LogVol

open Lib (putWord)

/-! ## §1 — stages. -/

theorem andThen_eq_error {α β : Type} {o : Outcome α} {k : RankFile → α → Outcome β} {f' : RankFile}
    {e : Fault} (h : o.andThen k = (f', .error e)) :
    o = (f', .error e) ∨ ∃ f a, o = (f, .ok a) ∧ k f a = (f', .error e) := by
  obtain ⟨f, x⟩ := o
  cases x with
  | error e₁ =>
      obtain ⟨rfl, he⟩ := Prod.mk.inj h
      exact Or.inl (Prod.ext rfl (congrArg Except.error (Except.error.inj he)))
  | ok a => exact Or.inr ⟨f, a, rfl, h⟩

/-- The fields of the file that a continuation of the run works on are as they were. -/
structure NoTrace (f f' : RankFile) : Prop where
  wreqs : f'.wreqs = f.wreqs
  mreqs : f'.mreqs = f.mreqs
  mdsize : f'.mdsize = f.mdsize
  wreqHash : f'.wreqHash = f.wreqHash
  bused : f'.bused = f.bused

theorem NoTrace.refl (f : RankFile) : NoTrace f f := ⟨rfl, rfl, rfl, rfl, rfl⟩

/-! ## §2 — encoding. -/

/-- The request is looked up in the deduplication table. -/
def LookedUp (env : FileEnv) (r : WReq) : Prop :=
  hasFlag env.config FileConfig.metadataShare = true ∧ sizeofOffset < r.selsize

/-- The request is new to the deduplication table and is inserted. -/
def Inserts (env : FileEnv) (c : WriteCall) (f : RankFile) (r : WReq) : Prop :=
  LookedUp env r ∧ env.hash.find f.wreqHash r = none ∧ c.grants.insert = true

/-- The request gets to compression: it is not looked up, or it is inserted. -/
def Compressed (env : FileEnv) (c : WriteCall) (f : RankFile) (r : WReq) : Prop :=
  hasFlag r.hdr.flag MetaFlag.selDeflate = true ∧ (LookedUp env r → Inserts env c f r)

/-- The zip buffer is too small for the request. -/
def GrowsZip (env : FileEnv) (c : WriteCall) (f : RankFile) (r : WReq) : Prop :=
  env.zlib.isSome ∧ Compressed env c f r ∧ f.zbsize.toNat < r.selsize

/-- Compression works: there is a zip buffer, and zlib takes in all of the selection. -/
def ZipWorks (z : Zlib) (c : WriteCall) (f : RankFile) (r : WReq) : Prop :=
  (growZip c f r.selsize).zbuf = true ∧
    z.compress (r.selBytes.take r.selsize) (cInt (growZip c f r.selsize).zbsize.toNat).toNat ≠ .cut

/-- Encoding works: the memory it asks for is there, and so does compression if it gets there. -/
structure Encodes (env : FileEnv) (c : WriteCall) (f : RankFile) (r : WReq) : Prop where
  insert : LookedUp env r → env.hash.find f.wreqHash r = none → c.grants.insert = true
  zip : ∀ z, env.zlib = some z → Compressed env c f r → ZipWorks z c f r
  shrink : ∀ key, LookedUp env r → env.hash.find f.wreqHash r = some key →
    (((r.refer f.mdsize key).selOff + sizeofOffset : Nat) : Int) < r.hdr.metaSize.toInt →
    c.grants.shrink = true

/-- A reference is not compressed. -/
theorem refer_selDeflate (r : WReq) (mdsize : MpiOffset) (key : WReq) :
    hasFlag (r.refer mdsize key).hdr.flag MetaFlag.selDeflate = false := by
  have hclear := hasFlag_clearFlag_self (r.hdr.flag ||| MetaFlag.selRef) MetaFlag.selDeflate
  unfold WReq.refer
  simp only
  split
  · rw [hasFlag_clearFlag (by decide)]
    exact hclear
  · exact hclear

@[simp] theorem refer_metaSize (r : WReq) (mdsize : MpiOffset) (key : WReq) :
    (r.refer mdsize key).hdr.metaSize = r.hdr.metaSize := rfl

/-- The zip buffer is all that changes when it grows. -/
theorem growZip_file (c : WriteCall) (f : RankFile) (n : Nat) :
    growZip c f n = { f with zbsize := (growZip c f n).zbsize, zbuf := (growZip c f n).zbuf } := by
  unfold growZip
  split <;> rfl

/-- The zip buffer stays as it is exactly when it is large enough. -/
theorem growZip_eq_iff (c : WriteCall) (f : RankFile) {n : Nat} (hn : n < 2 ^ 64) :
    growZip c f n = f ↔ ¬ f.zbsize.toNat < n := by
  unfold growZip
  split
  · rename_i hlt
    refine iff_of_false (fun heq => ?_) (not_not_intro hlt)
    have hsize : BitVec.ofNat 64 n = f.zbsize := congrArg RankFile.zbsize heq
    rw [← hsize, BitVec.toNat_ofNat, Nat.mod_eq_of_lt hn] at hlt
    exact Nat.lt_irrefl n hlt
  · rename_i hle
    exact iff_of_true rfl hle

/-- A selection has fewer bytes than its entry, whose size is an `int`. -/
theorem selsize_lt (r : WReq) : r.selsize < 2 ^ 31 := by
  have hsize : r.hdr.metaSize.toInt < 2 ^ 31 := BitVec.toInt_lt
  unfold WReq.selsize
  omega

/-- Without the flag or without the library nothing is compressed. -/
theorem zipSel_skip {env : FileEnv} {r : WReq}
    (h : ¬ (env.zlib.isSome ∧ hasFlag r.hdr.flag MetaFlag.selDeflate = true)) (c : WriteCall)
    (f : RankFile) (n : Nat) : zipSel env c f r n = (f, .ok (r, n)) := by
  unfold zipSel
  split
  · rfl
  · rename_i z hz
    have hflag : hasFlag r.hdr.flag MetaFlag.selDeflate ≠ true := fun hflag => h ⟨by simp [hz], hflag⟩
    rw [if_neg hflag]

/-- The entry is not compressed. -/
def WReq.uncompressed (r : WReq) : WReq :=
  { r with hdr := { r.hdr with flag := clearFlag r.hdr.flag MetaFlag.selDeflate } }

/-- Compressing may enlarge the zip buffer, and either raises or leaves the entry uncompressed. -/
theorem zipSel_run {env : FileEnv} {z : Zlib} {r : WReq} (hz : env.zlib = some z)
    (hflag : hasFlag r.hdr.flag MetaFlag.selDeflate = true) (c : WriteCall) (f : RankFile) :
    (zipSel env c f r r.selsize).1 = growZip c f r.selsize ∧
      ((∃ e, (zipSel env c f r r.selsize).2 = .error e) ∧ ¬ ZipWorks z c f r ∨
        (zipSel env c f r r.selsize).2 = .ok (r.uncompressed, r.selsize) ∧ ZipWorks z c f r) := by
  unfold zipSel ZipWorks
  rw [hz, hflag]
  simp only [if_true]
  cases hbuf : (growZip c f r.selsize).zbuf with
  | false =>
      split
      · exact ⟨rfl, Or.inl ⟨⟨_, rfl⟩, by simp⟩⟩
      · exact ⟨rfl, Or.inl ⟨⟨_, rfl⟩, by simp⟩⟩
  | true =>
      rw [if_neg (by simp), if_neg (by simp)]
      unfold zipCompress
      cases hzip : z.compress (r.selBytes.take r.selsize) (cInt (growZip c f r.selsize).zbsize.toNat).toNat with
      | ended out => exact ⟨rfl, Or.inr ⟨rfl, by simp⟩⟩
      | filled => exact ⟨rfl, Or.inr ⟨rfl, by simp⟩⟩
      | cut => exact ⟨rfl, Or.inl ⟨⟨_, rfl⟩, by simp⟩⟩

/-- The selection of the request itself fills its entry: there is nothing to shrink. -/
theorem shrinkReq_own (c : WriteCall) (f : RankFile) {r r' : WReq} (hoff : r'.selOff = r.selOff)
    (hsize : r'.hdr.metaSize = r.hdr.metaSize) : shrinkReq c f r' r.selsize = (f, .ok r') := by
  unfold shrinkReq
  rw [hoff, hsize, if_neg]
  unfold WReq.selsize
  omega

/-- What encoding does after the table: compress the selection of the request and shrink its entry. -/
def compressReq (env : FileEnv) (c : WriteCall) (f : RankFile) (r : WReq) : Outcome WReq :=
  (zipSel env c f r r.selsize).andThen fun f (r, selsize) => shrinkReq c f r selsize

theorem compressReq_skip {env : FileEnv} {r : WReq}
    (h : ¬ (env.zlib.isSome ∧ hasFlag r.hdr.flag MetaFlag.selDeflate = true)) (c : WriteCall)
    (f : RankFile) : compressReq env c f r = (f, .ok r) := by
  unfold compressReq
  rw [zipSel_skip h]
  exact shrinkReq_own c f rfl rfl

theorem compressReq_run {env : FileEnv} {z : Zlib} {r : WReq} (hz : env.zlib = some z)
    (hflag : hasFlag r.hdr.flag MetaFlag.selDeflate = true) (c : WriteCall) (f : RankFile) :
    (compressReq env c f r).1 = growZip c f r.selsize ∧
      ((∃ r', (compressReq env c f r).2 = .ok r') ↔ ZipWorks z c f r) ∧
      ∀ r', (compressReq env c f r).2 = .ok r' → r' = r.uncompressed := by
  obtain ⟨hfile, hres⟩ := zipSel_run hz hflag c f
  unfold compressReq
  rcases hzip : zipSel env c f r r.selsize with ⟨f₁, res⟩
  rw [hzip] at hfile hres
  simp only at hfile hres
  subst hfile
  rcases hres with ⟨⟨e, rfl⟩, hfails⟩ | ⟨rfl, hworks⟩
  · refine ⟨rfl, iff_of_false ?_ hfails, fun r' h => ?_⟩
    · rintro ⟨r', h⟩
      cases h
    · cases h
  · simp only [Outcome.andThen]
    rw [@shrinkReq_own c _ r r.uncompressed rfl rfl]
    refine ⟨rfl, iff_of_true ⟨_, rfl⟩ hworks, fun r' h => ?_⟩
    exact (Except.ok.inj h).symm

/-- The zip buffer grows whatever the table holds. -/
theorem growZip_wreqHash (c : WriteCall) (f : RankFile) (table : List WReq) (n : Nat) :
    growZip c { f with wreqHash := table } n = { growZip c f n with wreqHash := table } := by
  unfold growZip
  simp only
  split <;> rfl

/-- **How a request is encoded**: as a reference, not at all for want of memory, or as it is, inserted
into the table when it was looked up. -/
theorem encodeReq_cases (env : FileEnv) (c : WriteCall) (f : RankFile) (r : WReq) :
    (LookedUp env r ∧ ∃ key, env.hash.find f.wreqHash r = some key ∧
      encodeReq env c f r = shrinkReq c f (r.refer f.mdsize key) sizeofOffset) ∨
    (LookedUp env r ∧ env.hash.find f.wreqHash r = none ∧ c.grants.insert = false ∧
      encodeReq env c f r = (f, .error badAlloc)) ∨
    (Inserts env c f r ∧
      encodeReq env c f r = compressReq env c { f with wreqHash := f.wreqHash ++ [r] } r) ∨
    (¬ LookedUp env r ∧ encodeReq env c f r = compressReq env c f r) := by
  unfold encodeReq dedup
  split
  · rename_i hlook
    split
    · rename_i key hfind
      have hskip : ¬ (env.zlib.isSome ∧
          hasFlag (r.refer f.mdsize key).hdr.flag MetaFlag.selDeflate = true) := by
        simp [refer_selDeflate]
      refine Or.inl ⟨hlook, key, hfind, ?_⟩
      simp only [Outcome.andThen]
      rw [zipSel_skip hskip]
    · rename_i hfind
      split
      · rename_i hgrant
        exact Or.inr (Or.inr (Or.inl ⟨⟨hlook, hfind, hgrant⟩, rfl⟩))
      · rename_i hgrant
        exact Or.inr (Or.inl ⟨hlook, hfind, by simpa using hgrant, rfl⟩)
  · rename_i hlook
    exact Or.inr (Or.inr (Or.inr ⟨hlook, rfl⟩))

theorem shrinkReq_file (c : WriteCall) (f : RankFile) (r : WReq) (n : Nat) :
    (shrinkReq c f r n).1 = f := by
  unfold shrinkReq
  split
  · split <;> rfl
  · rfl

/-- **Encoding a request** changes the table, exactly when the request is inserted, and the zip buffer,
exactly when it is too small, and nothing else. -/
theorem encodeReq_file (env : FileEnv) (c : WriteCall) (f : RankFile) (r : WReq) :
    (∃ table zbsize zbuf, (encodeReq env c f r).1 =
      { f with wreqHash := table, zbsize := zbsize, zbuf := zbuf }) ∧
    ((encodeReq env c f r).1.wreqHash = f.wreqHash ↔ ¬ Inserts env c f r) ∧
    (¬ Inserts env c f r → ((encodeReq env c f r).1 = f ↔ ¬ GrowsZip env c f r)) := by
  have hsel : r.selsize < 2 ^ 64 := lt_trans (selsize_lt r) (by decide)
  -- what compression makes of the file, whatever the table
  have hcompress (table : List WReq) : ∃ zbsize zbuf,
      (compressReq env c { f with wreqHash := table } r).1 =
        { f with wreqHash := table, zbsize := zbsize, zbuf := zbuf } := by
    by_cases hrun : env.zlib.isSome ∧ hasFlag r.hdr.flag MetaFlag.selDeflate = true
    · obtain ⟨z, hz⟩ := Option.isSome_iff_exists.mp hrun.1
      rw [(compressReq_run hz hrun.2 c _).1, growZip_wreqHash, growZip_file]
      exact ⟨_, _, rfl⟩
    · rw [compressReq_skip hrun]
      exact ⟨f.zbsize, f.zbuf, rfl⟩
  rcases encodeReq_cases env c f r with ⟨hlook, key, hfind, heq⟩ | ⟨hlook, hfind, hgrant, heq⟩ |
    ⟨hins, heq⟩ | ⟨hlook, heq⟩
  · -- a reference
    have hnot : ¬ Inserts env c f r := by simp [Inserts, hfind]
    have hgrows : ¬ GrowsZip env c f r := fun h => hnot (h.2.1.2 hlook)
    rw [heq, shrinkReq_file]
    exact ⟨⟨_, _, _, rfl⟩, iff_of_true rfl hnot, fun _ => iff_of_true rfl hgrows⟩
  · -- not inserted
    have hnot : ¬ Inserts env c f r := by simp [Inserts, hgrant]
    have hgrows : ¬ GrowsZip env c f r := fun h => hnot (h.2.1.2 hlook)
    rw [heq]
    exact ⟨⟨_, _, _, rfl⟩, iff_of_true rfl hnot, fun _ => iff_of_true rfl hgrows⟩
  · -- inserted
    obtain ⟨zbsize, zbuf, hfile⟩ := hcompress (f.wreqHash ++ [r])
    rw [heq, hfile]
    refine ⟨⟨_, _, _, rfl⟩, iff_of_false ?_ (not_not_intro hins), fun hnot => absurd hins hnot⟩
    simp
  · -- too small to be looked up
    have hnot : ¬ Inserts env c f r := fun h => hlook h.1
    obtain ⟨zbsize, zbuf, hfile⟩ := hcompress f.wreqHash
    rw [heq]
    refine ⟨⟨_, _, _, hfile⟩, iff_of_true (by rw [hfile]) hnot, fun _ => ?_⟩
    by_cases hrun : env.zlib.isSome ∧ hasFlag r.hdr.flag MetaFlag.selDeflate = true
    · obtain ⟨z, hz⟩ := Option.isSome_iff_exists.mp hrun.1
      have hgrows : GrowsZip env c f r ↔ f.zbsize.toNat < r.selsize :=
        ⟨fun h => h.2.2, fun h => ⟨hrun.1, ⟨hrun.2, fun hl => absurd hl hlook⟩, h⟩⟩
      rw [(compressReq_run hz hrun.2 c f).1, growZip_eq_iff c f hsel, hgrows]
    · rw [compressReq_skip hrun]
      exact iff_of_true rfl fun h => hrun ⟨h.1, h.2.1.1⟩

/-- Encoding a request succeeds exactly when it gets what it asks for. -/
theorem encodeReq_ok_iff (env : FileEnv) (c : WriteCall) (f : RankFile) (r : WReq) :
    (∃ r', (encodeReq env c f r).2 = .ok r') ↔ Encodes env c f r := by
  -- The two paths that write the selection out compress it in the same way, after an insertion or without.
  have hcompress (f₁ : RankFile) : (∃ r', (compressReq env c f₁ r).2 = .ok r') ↔
      ∀ z, env.zlib = some z → hasFlag r.hdr.flag MetaFlag.selDeflate = true → ZipWorks z c f₁ r := by
    by_cases hrun : env.zlib.isSome ∧ hasFlag r.hdr.flag MetaFlag.selDeflate = true
    · obtain ⟨z, hz⟩ := Option.isSome_iff_exists.mp hrun.1
      rw [(compressReq_run hz hrun.2 c f₁).2.1]
      simp [hz, hrun.2]
    · rw [compressReq_skip hrun]
      refine iff_of_true ⟨r, rfl⟩ fun z hz hflag => ?_
      exact absurd ⟨by simp [hz], hflag⟩ hrun
  rcases encodeReq_cases env c f r with ⟨hlook, key, hfind, heq⟩ | ⟨hlook, hfind, hgrant, heq⟩ |
    ⟨hins, heq⟩ | ⟨hlook, heq⟩
  · -- Found in the table: only the buffer has to shrink.
    have hnot : ¬ Inserts env c f r := by simp [Inserts, hfind]
    have hshrinks : (∃ r', (encodeReq env c f r).2 = .ok r') ↔
        ((((r.refer f.mdsize key).selOff + sizeofOffset : Nat) : Int) < r.hdr.metaSize.toInt →
          c.grants.shrink = true) := by
      rw [heq]
      unfold shrinkReq
      split
      · rename_i hlt
        split
        · rename_i hgrant
          exact iff_of_true ⟨_, rfl⟩ fun _ => hgrant
        · rename_i hgrant
          refine iff_of_false ?_ fun h => hgrant (h hlt)
          rintro ⟨r', h⟩
          cases h
      · rename_i hge
        exact iff_of_true ⟨_, rfl⟩ fun h => absurd h hge
    rw [hshrinks]
    constructor
    · intro h
      refine ⟨fun _ hnone => ?_, fun z _ hz => absurd (hz.2 hlook) hnot, fun key' _ hfind' => ?_⟩
      · rw [hfind] at hnone
        cases hnone
      · obtain rfl : key = key' := Option.some.inj (hfind.symm.trans hfind')
        exact h
    · intro h
      exact h.shrink key hlook hfind
  · -- Not found, and the table has no room.
    rw [heq]
    refine iff_of_false ?_ fun h => ?_
    · rintro ⟨r', h⟩
      cases h
    · rw [h.insert hlook hfind] at hgrant
      cases hgrant
  · -- Not found, and inserted before it is compressed.
    rw [heq, hcompress]
    have hworks (z : Zlib) : ZipWorks z c { f with wreqHash := f.wreqHash ++ [r] } r ↔
        ZipWorks z c f r := by
      unfold ZipWorks
      rw [growZip_wreqHash]
    simp only [hworks]
    constructor
    · intro h
      refine ⟨fun _ _ => hins.2.2, fun z hz hcomp => h z hz hcomp.1, fun key _ hfind => ?_⟩
      rw [hins.2.1] at hfind
      cases hfind
    · intro h z hz hflag
      exact h.zip z hz ⟨hflag, fun _ => hins⟩
  · -- No table is asked.
    rw [heq, hcompress]
    constructor
    · intro h
      exact ⟨fun hl => absurd hl hlook, fun z hz hcomp => h z hz hcomp.1, fun _ hl => absurd hl hlook⟩
    · intro h z hz hflag
      exact h.zip z hz ⟨hflag, fun hl => absurd hl hlook⟩

/-! ## §3 — data. -/

/-- What the data buffer of the call takes from the account: nothing when it is the user's. -/
def WriteCall.held (c : WriteCall) (dip : DsetInfo) : HSize :=
  if c.inPlace then 0 else c.blockSize dip

/-- What the filters of the dataset make of the data of the call. -/
def WriteCall.filtered (env : FileEnv) (c : WriteCall) (dip : DsetInfo) : Except Fault (List UInt8) :=
  runFilters env dip.filters (c.data.take ((c.sels.getSelSize * dip.esize).toNat % 2 ^ 32))

/-- The size of the buffer for the filtered data: the length the filters return is an `int`. -/
def filteredSize (buf : List UInt8) : HSize := BitVec.ofInt 64 (cInt buf.length)

/-- What the account holds for the data of the call when it is queued. -/
def WriteCall.queuedSize (env : FileEnv) (c : WriteCall) (dip : DsetInfo) : HSize :=
  if dip.filters = [] then c.held dip
  else match c.filtered env dip with
    | .ok buf => filteredSize buf
    | .error _ => 0

/-- The first allocation fails. -/
def DataRefused (env : FileEnv) (c : WriteCall) (dip : DsetInfo) (bused : HSize) : Prop :=
  c.inPlace = false ∧ ∃ e, balloc env bused (c.blockSize dip) c.grants.data = .error e

/-- The pipeline fails. -/
def FilterFails (env : FileEnv) (c : WriteCall) (dip : DsetInfo) : Prop :=
  ∃ e, c.filtered env dip = .error e

/-- The second allocation fails. -/
def FilteredRefused (env : FileEnv) (c : WriteCall) (dip : DsetInfo) (bused : HSize) : Prop :=
  dip.filters ≠ [] ∧ ∃ buf, c.filtered env dip = .ok buf ∧
    ∃ e, balloc env bused (filteredSize buf) c.grants.filtered = .error e

theorem balloc_cases (env : FileEnv) (bused size : HSize) (granted : Bool) :
    (∃ e, balloc env bused size granted = .error e) ∨
      balloc env bused size granted = .ok (bused + size) := by
  unfold balloc
  split
  · exact Or.inl ⟨_, rfl⟩
  · split
    · exact Or.inl ⟨_, rfl⟩
    · exact Or.inr rfl

/-- What taking a buffer for the data adds to the account, a release takes off again. -/
theorem takeData_cases (env : FileEnv) (c : WriteCall) (dip : DsetInfo) (f : RankFile) :
    ((∃ e, takeData env c dip f = (f, .error e)) ∧ DataRefused env c dip f.bused) ∨
    ((∃ db, takeData env c dip f = ({ f with bused := f.bused + c.held dip }, .ok db) ∧
      filterInput db = c.data.take ((c.sels.getSelSize * dip.esize).toNat % 2 ^ 32) ∧
      releaseBlock (f.bused + c.held dip) db = f.bused) ∧ ¬ DataRefused env c dip f.bused) := by
  unfold takeData DataRefused WriteCall.held
  cases hplace : c.inPlace with
  | true =>
      simp only [if_true]
      have hzero : f.bused + (0 : HSize) = f.bused := BitVec.add_zero _
      rw [hzero]
      exact Or.inr ⟨⟨_, rfl, rfl, rfl⟩, by simp⟩
  | false =>
      simp only [Bool.false_eq_true, if_false, true_and]
      rcases balloc_cases env f.bused (c.blockSize dip) c.grants.data with ⟨e, herr⟩ | hok
      · rw [herr]
        exact Or.inl ⟨⟨e, rfl⟩, e, rfl⟩
      · rw [hok]
        refine Or.inr ⟨⟨_, rfl, rfl, ?_⟩, by simp⟩
        exact BitVec.add_sub_cancel _ _

/-- **Taking and filtering the data**: it fails with nothing held, it fails in the pipeline with the
buffer still held, or it ends with the data of the request in the account. -/
theorem data_cases (env : FileEnv) (c : WriteCall) (dip : DsetInfo) (f : RankFile) :
    ((∃ e, (takeData env c dip f).andThen (filterData env c dip) = (f, .error e)) ∧
      (DataRefused env c dip f.bused ∨ FilteredRefused env c dip f.bused)) ∨
    ((∃ e, (takeData env c dip f).andThen (filterData env c dip) =
        ({ f with bused := f.bused + c.held dip }, .error e)) ∧
      ¬ DataRefused env c dip f.bused ∧ FilterFails env c dip) ∨
    ((∃ db, (takeData env c dip f).andThen (filterData env c dip) =
        ({ f with bused := f.bused + c.queuedSize env dip }, .ok db)) ∧
      ¬ DataRefused env c dip f.bused ∧ ¬ FilteredRefused env c dip f.bused ∧
        ¬ FilterFails env c dip) := by
  rcases takeData_cases env c dip f with ⟨⟨e, heq⟩, hrefused⟩ | ⟨⟨db, heq, hinput, hrelease⟩, htaken⟩
  · rw [heq]
    exact Or.inl ⟨⟨e, rfl⟩, Or.inl hrefused⟩
  · rw [heq]
    simp only [Outcome.andThen]
    unfold filterData
    have hfiltered : runFilters env dip.filters (filterInput db) = c.filtered env dip := by
      rw [hinput]
      rfl
    -- Without filters the buffer that was taken is the one that is queued.
    split
    · rename_i hnone
      refine Or.inr (Or.inr ⟨⟨db, ?_⟩, htaken, fun h => h.1 hnone, ?_⟩)
      · unfold WriteCall.queuedSize
        rw [if_pos hnone]
      · rintro ⟨e, h⟩
        unfold WriteCall.filtered at h
        rw [hnone] at h
        cases h
    · rename_i hsome
      rw [hfiltered]
      cases hres : c.filtered env dip with
      | error e => exact Or.inr (Or.inl ⟨⟨e, rfl⟩, htaken, e, hres⟩)
      | ok buf =>
          have hfails : ¬ FilterFails env c dip := by simp [FilterFails, hres]
          simp only [hrelease]
          -- The filtered data goes to a second buffer, and the first is given back only when there is one.
          rcases balloc_cases env f.bused (filteredSize buf) c.grants.filtered with ⟨e, herr⟩ | hok
          · have herr' := herr
            unfold filteredSize at herr'
            rw [herr']
            exact Or.inl ⟨⟨e, rfl⟩, Or.inr ⟨hsome, buf, hres, e, herr⟩⟩
          · have hrefused : ¬ FilteredRefused env c dip f.bused := by
              simp [FilteredRefused, hres, hok]
            have hsize : c.queuedSize env dip = filteredSize buf := by
              simp only [WriteCall.queuedSize, hres, if_neg hsome]
            have hok' := hok
            unfold filteredSize at hok'
            rw [hok', hsize]
            exact Or.inr (Or.inr ⟨⟨_, rfl⟩, htaken, hrefused, hfails⟩)

/-! ## §4 — the queue. -/

theorem growAlloc_error {target : HSize} {fuel : Nat} {alloc : HSize} {e : Fault}
    (h : growAlloc target fuel alloc = .error e) : e = .diverged := by
  induction fuel generalizing alloc with
  | zero =>
      unfold growAlloc at h
      split at h
      · cases h
        rfl
      · cases h
  | succ fuel ih =>
      unfold growAlloc at h
      split at h
      · exact ih h
      · cases h

theorem reserve_error {m : MergedWReq} {size : HSize} {e : Fault} (h : m.reserve size = .error e) :
    e = .diverged := by
  unfold MergedWReq.reserve at h
  split at h
  · cases hgrow : growAlloc (BitVec.ofInt 64 m.hdr.metaSize.toInt + size) 22 m.alloc with
    | error e' =>
        rw [hgrow] at h
        cases h
        exact growAlloc_error hgrow
    | ok alloc =>
        rw [hgrow] at h
        cases h
  · cases h

theorem write_error {m : MergedWReq} {bytes : List UInt8} {e : Fault} (h : m.write bytes = .error e) :
    e = .outside := by
  unfold MergedWReq.write at h
  simp only at h
  split at h
  · cases h
    rfl
  · cases h

/-- Packing a selection raises nothing: what it lacks is memory, and that is asked for before. -/
theorem append_not_raised (m : MergedWReq) (dip : DsetInfo) (db : DataBlock) (sels : Selections)
    (msg : String) : m.append dip db sels ≠ .error (.raised msg) := by
  intro h
  unfold MergedWReq.append at h
  simp only [bind, Except.bind] at h
  split at h
  · rename_i e hreserve
    cases h
    cases reserve_error hreserve
  · split at h
    · rename_i e hwrite
      cases h
      cases write_error hwrite
    · cases h

/-- An append that works counts the blocks of the selection. -/
theorem append_nsel {m m' : MergedWReq} {dip : DsetInfo} {db : DataBlock} {sels : Selections}
    (h : m.append dip db sels = .ok m') : m'.nsel = m.nsel + BitVec.ofNat 32 sels.nsel := by
  obtain ⟨m₁, hreserve, h⟩ := Lib.bind_eq_ok.mp h
  obtain ⟨packed, -, h⟩ := Lib.bind_eq_ok.mp h
  cases h
  unfold MergedWReq.reserve at hreserve
  split at hreserve
  · obtain ⟨alloc, -, hreserve⟩ := Lib.bind_eq_ok.mp hreserve
    cases hreserve
    rfl
  · cases hreserve
    rfl

/-- A selection with blocks in it changes the count of blocks, which is an `int`. -/
theorem nsel_changes (n : I32) {sels : Selections} (h : sels.nsel ≠ 0) :
    n + BitVec.ofNat 32 sels.nsel ≠ n := by
  intro heq
  have hzero : BitVec.ofNat 32 sels.nsel = 0#32 := by simpa using heq
  have hlt : sels.nsel < 2 ^ 31 := sels.nsel_lt
  have hval : sels.nsel % 2 ^ 32 = 0 := by simpa using congrArg BitVec.toNat hzero
  omega

/-- Appending to a merged request never raises without changing it. -/
theorem appendMerged_raised {c : WriteCall} {dip : DsetInfo} {f f' : RankFile} {m : MergedWReq}
    {db : DataBlock} {msg : String} (hsel : c.sels.nsel ≠ 0)
    (h : appendMerged c dip f m db = (f', .error (.raised msg))) :
    ∃ m', m' ≠ m ∧ f' = f.setMerged c.did m' := by
  unfold appendMerged at h
  simp only at h
  split at h
  · cases h
  · -- A raise comes when the buffer cannot grow, which leaves it marked lost, or behind an append.
    rename_i hlost
    split at h
    · split at h
      · rename_i e hgrow
        cases h
        cases growAlloc_error hgrow
      · cases h
        refine ⟨_, fun heq => hlost ?_, rfl⟩
        exact (congrArg MergedWReq.lost heq).symm
    · split at h
      · rename_i e happend
        cases h
        exact absurd happend (append_not_raised m dip db c.sels msg)
      · rename_i m' happend
        split at h
        · cases h
        · cases h
          refine ⟨_, fun heq => ?_, rfl⟩
          apply nsel_changes m.nsel hsel
          rw [← append_nsel happend]
          have hnsel := congrArg MergedWReq.nsel heq
          exact hnsel

/-- The queue refuses the request and nothing has changed: it has no memory for one more request, or
none for the first merged request of the dataset. -/
def QueueUnchanged (env : FileEnv) (c : WriteCall) (f : RankFile) : Prop :=
  hasFlag env.config FileConfig.metadataMerge = true →
    f.mreqs[c.did]? = some none ∧ c.grants.merged = false

/-- **Queueing** raises with the request already in the merged one, unless it got no memory to start
with. -/
theorem enqueue_raised {env : FileEnv} {c : WriteCall} {dip : DsetInfo} {f f' : RankFile} {r : WReq}
    {db : DataBlock} {msg : String} (hsel : c.sels.nsel ≠ 0)
    (h : enqueue env c dip f r db = (f', .error (.raised msg))) :
    (∃ mreqs, f' = { f with mreqs := mreqs }) ∧ (f'.mreqs = f.mreqs ↔ QueueUnchanged env c f) := by
  unfold enqueue at h
  split at h
  · rename_i hmerge
    -- a slot that now holds something else
    have hset (m' : MergedWReq) (hslot : f.mreqs[c.did]? ≠ some (some m')) (hin : c.did < f.mreqs.length) :
        (f.setMerged c.did m').mreqs ≠ f.mreqs := by
      intro heq
      have hget : (f.mreqs.set c.did (some m'))[c.did]? = some (some m') := by simp [hin]
      rw [show f.mreqs.set c.did (some m') = f.mreqs from heq] at hget
      exact hslot hget
    split at h
    · cases h
    · rename_i m hslot
      obtain ⟨m', hne, rfl⟩ := appendMerged_raised hsel h
      have hin : c.did < f.mreqs.length := (List.getElem?_eq_some_iff.mp hslot).1
      refine ⟨⟨_, rfl⟩, iff_of_false (hset m' ?_ hin) fun hq => ?_⟩
      · rw [hslot]
        simpa using hne.symm
      · have hempty := (hq hmerge).1
        rw [hslot] at hempty
        cases hempty
    · rename_i hslot
      split at h
      · rename_i hgrant
        obtain ⟨m', hne, rfl⟩ := appendMerged_raised hsel h
        have hin : c.did < f.mreqs.length := (List.getElem?_eq_some_iff.mp hslot).1
        refine ⟨⟨_, rfl⟩, iff_of_false (hset m' ?_ hin) fun hq => ?_⟩
        · rw [hslot]
          simp
        · rw [(hq hmerge).2] at hgrant
          cases hgrant
      · rename_i hgrant
        cases h
        exact ⟨⟨f.mreqs, rfl⟩, iff_of_true rfl fun _ => ⟨hslot, by simpa using hgrant⟩⟩
  · rename_i hmerge
    unfold queueReq at h
    split at h
    · cases h
    · cases h
      exact ⟨⟨f.mreqs, rfl⟩, iff_of_true rfl fun hm => absurd hm hmerge⟩

/-! ## §5 — the call. -/

/-- The ways to raise, once the request is made, with nothing in the account or the queue. -/
inductive CleanFailure (env : FileEnv) (c : WriteCall) (dip : DsetInfo) (f : RankFile) (r : WReq) : Prop
  | encode (h : ¬ Encodes env c f r)
  | data (h : DataRefused env c dip f.bused)
  | filter (h : FilterFails env c dip) (hheld : c.held dip = 0)
  | filtered (h : FilteredRefused env c dip f.bused)
  | queue (h : QueueUnchanged env c f) (hfilter : ¬ FilterFails env c dip)
      (hheld : c.queuedSize env dip = 0)

/-- The call gets as far as making its request. -/
def Makes (env : FileEnv) (c : WriteCall) (f : RankFile) (dip : DsetInfo) (r : WReq) : Prop :=
  c.hasBuf = true ∧ c.grants.request = true ∧ f.dsetsInfo[c.did]? = some (some dip) ∧
    wreqInit env.zlib env.config (BitVec.ofNat 32 c.did) f.mdsize dip c.sels = .ok r

/-- **When a raising write leaves no trace**: the request is not inserted into the table, and no buffer
is held and no merged request made where the call fails. -/
def Harmless (env : FileEnv) (c : WriteCall) (f : RankFile) : Prop :=
  ∀ dip r, Makes env c f dip r → ¬ Inserts env c f r ∧ CleanFailure env c dip f r

/-- The call leaves the zip buffer as it is. -/
def SparesZip (env : FileEnv) (c : WriteCall) (f : RankFile) : Prop :=
  ∀ dip r, Makes env c f dip r → ¬ GrowsZip env c f r

theorem andThen_assoc {α β γ : Type} (o : Outcome α) (k : RankFile → α → Outcome β)
    (l : RankFile → β → Outcome γ) :
    (o.andThen k).andThen l = o.andThen fun f a => (k f a).andThen l := by
  obtain ⟨f, e | a⟩ := o <;> rfl

/-- After the request is encoded, a failure shows in the account and in the merged requests only. -/
theorem writeReq_rest {env : FileEnv} {c : WriteCall} {dip : DsetInfo} {f f' : RankFile} {r : WReq}
    {msg : String} (hsel : c.sels.nsel ≠ 0) (h : writeReq env c dip f r = (f', .error (.raised msg))) :
    ∃ bused mreqs, f' = { (encodeReq env c f r).1 with bused := bused, mreqs := mreqs } ∧
      (bused = f.bused ∧ mreqs = f.mreqs ↔ CleanFailure env c dip f r) := by
  obtain ⟨⟨table, zbsize, zbuf, hfile⟩, -⟩ := encodeReq_file env c f r
  have hencodes := encodeReq_ok_iff env c f r
  rcases andThen_eq_error h with herr | ⟨f₁, r₁, hok, hrest⟩
  · -- encoding raises
    have hfails : ¬ Encodes env c f r := by
      rw [← hencodes, herr]
      rintro ⟨r', h'⟩
      cases h'
    rw [herr] at hfile ⊢
    simp only at hfile
    exact ⟨f'.bused, f'.mreqs, rfl, iff_of_true (by rw [hfile]; exact ⟨rfl, rfl⟩) (.encode hfails)⟩
  · rw [hok] at hfile hencodes ⊢
    simp only at hfile hencodes
    have hworks : Encodes env c f r := hencodes.mp ⟨r₁, rfl⟩
    rw [← andThen_assoc] at hrest
    subst hfile
    rcases data_cases env c dip { f with wreqHash := table, zbsize := zbsize, zbuf := zbuf } with
      ⟨⟨e, heq⟩, hrefused⟩ | ⟨⟨e, heq⟩, htaken, hfails⟩ | ⟨⟨db, heq⟩, htaken, hgranted, hfilters⟩
    · -- an allocation fails
      have hclean : CleanFailure env c dip f r := hrefused.elim (fun h => .data h) fun h => .filtered h
      rw [heq] at hrest
      obtain ⟨rfl, -⟩ := Prod.mk.inj hrest
      exact ⟨f.bused, f.mreqs, rfl, iff_of_true ⟨rfl, rfl⟩ hclean⟩
    · -- the pipeline fails: the buffer is not released
      rw [heq] at hrest
      obtain ⟨rfl, -⟩ := Prod.mk.inj hrest
      refine ⟨f.bused + c.held dip, f.mreqs, rfl, ?_⟩
      have hzero : f.bused + c.held dip = f.bused ↔ c.held dip = 0 := by simp
      simp only [hzero, and_true]
      constructor
      · intro hheld
        exact .filter hfails hheld
      · intro hclean
        cases hclean with
        | encode h => exact absurd hworks h
        | data h => exact absurd h htaken
        | filter _ hheld => exact hheld
        | filtered h =>
            obtain ⟨-, buf, hbuf, -⟩ := h
            obtain ⟨e', he'⟩ := hfails
            rw [hbuf] at he'
            cases he'
        | queue _ hfilter _ => exact absurd hfails hfilter
    · -- the queue fails: nor is it here
      rw [heq] at hrest
      obtain ⟨⟨mreqs, rfl⟩, hmreqs⟩ := enqueue_raised hsel hrest
      refine ⟨f.bused + c.queuedSize env dip, mreqs, rfl, ?_⟩
      have hzero : f.bused + c.queuedSize env dip = f.bused ↔ c.queuedSize env dip = 0 := by simp
      have hqueue : mreqs = f.mreqs ↔ QueueUnchanged env c f := hmreqs
      rw [hzero, hqueue]
      constructor
      · intro ⟨hheld, hq⟩
        exact .queue hq hfilters hheld
      · intro hclean
        cases hclean with
        | encode h => exact absurd hworks h
        | data h => exact absurd h htaken
        | filter h _ => exact absurd h hfilters
        | filtered h => exact absurd h hgranted
        | queue hq _ hheld => exact ⟨hheld, hq⟩

theorem Makes.unique {env : FileEnv} {c : WriteCall} {f : RankFile} {dip dip' : DsetInfo} {r r' : WReq}
    (h : Makes env c f dip r) (h' : Makes env c f dip' r') : dip' = dip ∧ r' = r := by
  obtain ⟨-, -, hdip, hinit⟩ := h
  obtain ⟨-, -, hdip', hinit'⟩ := h'
  obtain rfl : dip' = dip := by simpa [hdip] using hdip'.symm
  rw [hinit] at hinit'
  exact ⟨rfl, (Except.ok.inj hinit').symm⟩

theorem wreqInit_fault {z : Option Zlib} {config id : I32} {mdsize : MpiOffset} {dip : DsetInfo}
    {sels : Selections} {e : Fault} (h : wreqInit z config id mdsize dip sels = .error e) :
    e = .outside := by
  unfold wreqInit at h
  simp only at h
  split at h
  · cases h
    rfl
  · cases h

/-- A call raises before its request is made, and has done nothing, or in one of the stages after. -/
theorem datasetWrite_raises {env : FileEnv} {c : WriteCall} {f f' : RankFile} {msg : String}
    (h : datasetWrite env c f = (f', .error (.raised msg))) :
    (f' = f ∧ ∀ dip r, ¬ Makes env c f dip r) ∨
      ∃ dip r, Makes env c f dip r ∧ c.sels.nsel ≠ 0 ∧
        writeReq env c dip f r = (f', .error (.raised msg)) := by
  unfold datasetWrite at h
  split at h
  · cases h
  · rename_i hsel
    split at h
    · rename_i hbuf
      exact Or.inl ⟨(Prod.mk.inj h).1.symm, fun dip r hm => by simp [hm.1] at hbuf⟩
    · rename_i hbuf
      split at h
      · rename_i dip hdip
        split at h
        · cases h
        · split at h
          · rename_i hgrant
            exact Or.inl ⟨(Prod.mk.inj h).1.symm, fun dip r hm => by simp [hm.2.1] at hgrant⟩
          · rename_i hgrant
            split at h
            · rename_i e hinit
              cases h
              cases wreqInit_fault hinit
            · rename_i r hinit
              exact Or.inr ⟨dip, r, ⟨by simpa using hbuf, by simpa using hgrant, hdip, hinit⟩, hsel, h⟩
      · cases h

/-- **Exactly when a raising call leaves no trace**, and when it leaves the whole file as it was. -/
theorem datasetWrite_raised {env : FileEnv} {c : WriteCall} {f f' : RankFile} {msg : String}
    (h : datasetWrite env c f = (f', .error (.raised msg))) :
    (NoTrace f f' ↔ Harmless env c f) ∧ (f' = f ↔ Harmless env c f ∧ SparesZip env c f) := by
  rcases datasetWrite_raises h with ⟨rfl, hmakes⟩ | ⟨dip, r, hmakes, hsel, hwrite⟩
  · -- No request was made: nothing is left, whatever failed.
    have hharmless : Harmless env c f' := fun dip r hm => absurd hm (hmakes dip r)
    have hspares : SparesZip env c f' := fun dip r hm => absurd hm (hmakes dip r)
    exact ⟨iff_of_true (.refl f') hharmless, iff_of_true rfl ⟨hharmless, hspares⟩⟩
  · have hharmless : Harmless env c f ↔ ¬ Inserts env c f r ∧ CleanFailure env c dip f r := by
      refine ⟨fun hh => hh dip r hmakes, fun hh dip' r' hm => ?_⟩
      obtain ⟨rfl, rfl⟩ := hmakes.unique hm
      exact hh
    have hspares : SparesZip env c f ↔ ¬ GrowsZip env c f r := by
      refine ⟨fun hh => hh dip r hmakes, fun hh dip' r' hm => ?_⟩
      obtain ⟨rfl, rfl⟩ := hmakes.unique hm
      exact hh
    obtain ⟨⟨table, zbsize, zbuf, hfile⟩, htable, hsame⟩ := encodeReq_file env c f r
    obtain ⟨bused, mreqs, rfl, hclean⟩ := writeReq_rest hsel hwrite
    rw [hharmless, hspares, ← hclean]
    constructor
    · rw [← htable, hfile]
      constructor
      · intro ht
        exact ⟨ht.wreqHash, ht.bused, ht.mreqs⟩
      · rintro ⟨ht, rfl, rfl⟩
        exact ⟨rfl, rfl, rfl, ht, rfl⟩
    · -- The whole file also has the buffer of zlib, which grows on the way.
      constructor
      · intro heq
        have hbused : bused = f.bused := congrArg RankFile.bused heq
        have hmreqs : mreqs = f.mreqs := congrArg RankFile.mreqs heq
        have hencode : (encodeReq env c f r).1 = f := by
          rw [hfile] at heq ⊢
          rw [hbused, hmreqs] at heq
          exact heq
        have hins : ¬ Inserts env c f r := htable.mp (congrArg RankFile.wreqHash hencode)
        exact ⟨⟨hins, hbused, hmreqs⟩, (hsame hins).mp hencode⟩
      · rintro ⟨⟨hins, rfl, rfl⟩, hzip⟩
        rw [(hsame hins).mpr hzip]

/-! ## §6 — runs. -/

/-- A step of a run: a write, or anything else that is done to the file. -/
inductive RankStep where
  | write (c : WriteCall)
  | other (g : RankFile → RankFile)

/-- The call ends with an exception. -/
def raises : Except Fault Unit → Bool
  | .error (.raised _) => true
  | _ => false

def RankStep.run (env : FileEnv) (f : RankFile) : RankStep → RankFile
  | .write c => (datasetWrite env c f).1
  | .other g => g f

/-- The file after a run. -/
def runSteps (env : FileEnv) (f : RankFile) (steps : List RankStep) : RankFile :=
  steps.foldl (RankStep.run env) f

/-- How the writes of a run end. -/
def writeResults (env : FileEnv) : RankFile → List RankStep → List (Except Fault Unit)
  | _, [] => []
  | f, .write c :: steps =>
      (datasetWrite env c f).2 :: writeResults env (datasetWrite env c f).1 steps
  | f, .other g :: steps => writeResults env (g f) steps

/-- The run without its raising writes. -/
def withoutRaising (env : FileEnv) : RankFile → List RankStep → List RankStep
  | _, [] => []
  | f, .write c :: steps =>
      let rest := withoutRaising env (datasetWrite env c f).1 steps
      if raises (datasetWrite env c f).2 then rest else .write c :: rest
  | f, .other g :: steps => .other g :: withoutRaising env (g f) steps

/-- A condition on the raising writes of a run, each in the state it is made in. -/
def RaisingMeet (P : WriteCall → RankFile → Prop) (env : FileEnv) : RankFile → List RankStep → Prop
  | _, [] => True
  | f, .write c :: steps =>
      (raises (datasetWrite env c f).2 = true → P c f) ∧
        RaisingMeet P env (datasetWrite env c f).1 steps
  | f, .other g :: steps => RaisingMeet P env (g f) steps

/-- A write that raises, is harmless and spares the zip buffer leaves the file as it was. -/
theorem datasetWrite_same {env : FileEnv} {c : WriteCall} {f : RankFile}
    (hraises : raises (datasetWrite env c f).2 = true) (hharmless : Harmless env c f)
    (hspares : SparesZip env c f) : (datasetWrite env c f).1 = f := by
  rcases hwrite : datasetWrite env c f with ⟨f', res⟩
  rw [hwrite] at hraises
  unfold raises at hraises
  split at hraises
  · rename_i msg hmsg
    simp only at hmsg
    subst hmsg
    exact (datasetWrite_raised hwrite).2.mpr ⟨hharmless, hspares⟩
  · cases hraises

/-- **A failed write leaves no trace**, exactly when it is harmless; and a run whose raising writes are
harmless and spare the zip buffer is, in its files and in the writes it accepts, the run without them. -/
theorem datasetWrite_noTrace (env : FileEnv) :
    (∀ c f f' msg, datasetWrite env c f = (f', .error (.raised msg)) →
      (NoTrace f f' ↔ Harmless env c f)) ∧
    ∀ steps f, RaisingMeet (fun c f => Harmless env c f ∧ SparesZip env c f) env f steps →
      runSteps env f (withoutRaising env f steps) = runSteps env f steps ∧
      writeResults env f (withoutRaising env f steps) =
        (writeResults env f steps).filter fun res => !raises res := by
  refine ⟨fun c f f' msg h => (datasetWrite_raised h).1, fun steps => ?_⟩
  -- A raising step that leaves the file as it was can be dropped, and the induction goes on from the same file.
  induction steps with
  | nil =>
      intro f _
      exact ⟨rfl, rfl⟩
  | cons step steps ih =>
      intro f hmeet
      cases step with
      | other g =>
          obtain ⟨hrun, hresults⟩ := ih (g f) hmeet
          exact ⟨hrun, hresults⟩
      | write c =>
          obtain ⟨hquiet, hmeet⟩ := hmeet
          obtain ⟨hrun, hresults⟩ := ih _ hmeet
          unfold withoutRaising
          cases hraises : raises (datasetWrite env c f).2 with
          | true =>
              obtain ⟨hharmless, hspares⟩ := hquiet hraises
              have hsame := datasetWrite_same hraises hharmless hspares
              simp only [if_true]
              rw [hsame] at hrun hresults ⊢
              constructor
              · have hstep : runSteps env f (.write c :: steps) =
                    runSteps env (datasetWrite env c f).1 steps := rfl
                rw [hrun, hstep, hsame]
              · rw [hresults, writeResults, List.filter_cons_of_neg (by simp [hraises]), hsame]
          | false =>
              simp only [Bool.false_eq_true, if_false]
              constructor
              · exact hrun
              · rw [writeResults, writeResults, List.filter_cons_of_pos (by simp [hraises]), hresults]

/-- A file with metadata sharing and a limit on buffered data. -/
def sharingEnv (bsize : Nat) : FileEnv where
  zlib := none
  deflate := fun _ => none
  config := FileConfig.metadataShare
  bsize := some bsize
  hash := HashFind.scan

/-- A file with one open dataset, of 16 four-byte elements, and nothing queued. -/
def freshFile : RankFile where
  dsetsInfo := [some (DsetInfo.plain 4 [16] [16] [1] (by decide) rfl rfl)]
  wreqs := []
  nflushed := 0
  mreqs := [none]
  mdsize := 0
  wreqHash := []
  bused := 0
  zbsize := 0
  zbuf := false
  nldset := 0
  metadirty := false

/-- A write of the first two elements of that dataset. -/
def twoElements (inPlace : Bool) : WriteCall where
  did := 0
  sels := { ndim := 1, sels := [⟨[0], [2]⟩], rank_eq := by decide, nsel_lt := by decide }
  memEsize := 4
  inPlace := inPlace
  hasBuf := true
  data := [1, 0, 0, 0, 2, 0, 0, 0]
  grants := .all

/-- Without metadata sharing, a write there is no room for leaves nothing behind. -/
theorem datasetWrite_noTrace_noRoom :
    let env := { sharingEnv 0 with config := 0 }
    NoTrace freshFile (datasetWrite env (twoElements false) freshFile).1 ∧
      runSteps env freshFile [.write (twoElements true)] =
        runSteps env freshFile [.write (twoElements false), .write (twoElements true)] := by
  intro env
  have hharmless : Harmless env (twoElements false) freshFile := by
    rintro dip r ⟨-, -, hdip, -⟩
    have hdip' : dip = DsetInfo.plain 4 [16] [16] [1] (by decide) rfl rfl :=
      (Option.some.inj (Option.some.inj hdip)).symm
    subst hdip'
    exact ⟨fun hins => absurd hins.1.1 (by decide), .data ⟨rfl, .raised "Out of buffer", by decide⟩⟩
  have hspares : SparesZip env (twoElements false) freshFile := fun dip r _ hz => by cases hz.1
  have hfull : (datasetWrite env (twoElements false) freshFile).2 =
      .error (.raised "Out of buffer") := by decide
  have hraises : raises (datasetWrite env (twoElements false) freshFile).2 = true := by rw [hfull]; rfl
  have haccepts : raises (datasetWrite env (twoElements true)
      (datasetWrite env (twoElements false) freshFile).1).2 = false := by decide
  have hmeet : RaisingMeet (fun c f => Harmless env c f ∧ SparesZip env c f) env freshFile
      [.write (twoElements false), .write (twoElements true)] := by
    refine ⟨fun _ => ⟨hharmless, hspares⟩, fun h => ?_, trivial⟩
    rw [haccepts] at h
    cases h
  have hrun := ((datasetWrite_noTrace env).2 _ _ hmeet).1
  simp only [withoutRaising, hraises, haccepts, if_true, Bool.false_eq_true, if_false] at hrun
  exact ⟨((datasetWrite_noTrace env).1 _ _ _ "Out of buffer" (Prod.ext rfl hfull)).mpr hharmless, hrun⟩

/-- With no room for the data the write raises, and its request stays in the table: the same write
from the user's buffer is then queued as a reference to offset `0` from its own start. -/
theorem not_datasetWrite_noTrace :
    let env := sharingEnv 0
    let failed := datasetWrite env (twoElements false) freshFile
    failed.2 = .error (.raised "Out of buffer") ∧ ¬ NoTrace freshFile failed.1 ∧
      (datasetWrite env (twoElements true) freshFile).1.wreqs.map WReq.metaBuf ≠
        (datasetWrite env (twoElements true) failed.1).1.wreqs.map WReq.metaBuf ∧
      (datasetWrite env (twoElements true) failed.1).1.wreqs.map
        (fun r => (hasFlag r.hdr.flag MetaFlag.selRef, r.selBytes)) = [(true, putWord 8 (0 : MpiOffset))] := by
  refine ⟨by decide, fun h => ?_, by decide, by decide⟩
  exact absurd (congrArg List.length h.wreqHash) (by decide)

end LogVol
