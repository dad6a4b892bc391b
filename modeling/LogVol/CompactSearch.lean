/-
# LogVol.CompactSearch — the two indexes find the same.

Each index has of an entry what the other has in another form: the list index every block with its place in
the data, the compact index the blocks without the record's dimension and without a place. `Mirrors` relates
the two forms. Parsing keeps them related (`Parses.mirrored`), as long as a reference is to an entry of its
own form, and related entries are found with the same results (`compactSearchEnt_mirrors`), only that the
compact index has no data size for a reference.
-/
import LogVol.IdxValid
import LogVol.DecodedSizes

namespace LogVol

/-! ## §1 — two forms of an entry. -/

/-- A block with the record's dimension, in a record entry. -/
def Block.inRecord (recnum : Option HSize) (b : Block) : Block := mkBlock recnum b.start b.count

@[simp] theorem Block.inRecord_none (b : Block) : b.inRecord none = b := rfl

@[simp] theorem Block.inRecord_some (recnum : HSize) (b : Block) :
    b.inRecord (some recnum) = ⟨recnum :: b.start, 1 :: b.count⟩ := rfl

/-- Blocks one after another, the start and the count of each. -/
def packBlocks (bs : List Block) : CompactSels := ⟨bs.length, bs.flatMap fun b => b.start ++ b.count⟩

/-- An entry of a dataset of `ndim` dimensions with elements of `esize` bytes in both indexes: `bs` are its
blocks without the record's dimension. -/
structure Mirrors (ndim : ℕ) (esize : HSize) (recnum : Option HSize) (bs : List Block) (e : MetaEntry)
    (ce : CompactEntry) : Prop where
  rank : ∀ b ∈ bs, (b.inRecord recnum).start.length = ndim ∧ (b.inRecord recnum).count.length = ndim
  ne_nil : bs ≠ []
  sels : e.sels = placeSels esize 0 (bs.map (Block.inRecord recnum))
  recnum_eq : ce.recnum = recnum.getD (-1)
  blocks : ce.blocks.sels = some (packBlocks bs)
  foff : ce.foff = e.hdr.foff
  fsize : ce.fsize = e.hdr.fsize

/-- The blocks of a record entry are packed in two words less each. -/
theorem packBlocks_length {ndim : ℕ} {r : HSize} {bs : List Block}
    (hrank : ∀ b ∈ bs, (b.inRecord (some r)).start.length = ndim ∧ (b.inRecord (some r)).count.length = ndim) :
    (packBlocks bs).words.length + 2 * bs.length = 2 * ndim * bs.length := by
  induction bs with
  | nil => rfl
  | cons b bs ih =>
      rcases List.forall_mem_cons.mp hrank with ⟨hb, hrest⟩
      have hwords : (packBlocks (b :: bs)).words.length =
          b.start.length + b.count.length + (packBlocks bs).words.length := by
        simp [packBlocks, Nat.add_assoc]
      have hnext := ih hrest
      simp only [Block.inRecord_some, List.length_cons] at hb
      rw [hwords, List.length_cons, Nat.mul_succ (2 * ndim)]
      omega

/-- The record's dimension takes no part in where the data of a block is. -/
theorem placeSels_inRecord (esize : HSize) (recnum : Option HSize) (doff : MpiOffset) (bs : List Block) :
    placeSels esize doff (bs.map (Block.inRecord recnum)) = (placeSels esize doff bs).map fun s =>
      ⟨(s.block.inRecord recnum).start, (s.block.inRecord recnum).count, s.doff⟩ := by
  induction bs generalizing doff with
  | nil => rfl
  | cons b bs ih =>
      have hbytes : blockBytes esize (b.inRecord recnum).count = blockBytes esize b.count := by
        cases recnum with
        | none => rfl
        | some r => exact blockBytes_one_cons esize b.count
      rw [List.map_cons, placeSels, placeSels, List.map_cons, hbytes, ih]
      rfl

/-- **The walk of packed blocks** finds the place of each. -/
theorem walkSels_packed (esize : HSize) {dim : ℕ} (hit : List HSize → List HSize → MpiOffset → Option SearchRet)
    {bs : List Block} (hrank : ∀ b ∈ bs, b.start.length = dim ∧ b.count.length = dim) (doff : MpiOffset) :
    walkSels esize dim hit bs.length (bs.flatMap fun b => b.start ++ b.count) doff =
      .ok ((placeSels esize doff bs).filterMap fun s => hit s.start s.count s.doff) := by
  induction bs generalizing doff with
  | nil => rfl
  | cons b bs ih =>
      rcases List.forall_mem_cons.mp hrank with ⟨⟨hstart, hcount⟩, hrest⟩
      have hlen : (b.start ++ b.count).length = 2 * dim := by
        rw [List.length_append, hstart, hcount]
        omega
      have htake : (b.start ++ b.count ++ bs.flatMap fun b => b.start ++ b.count).take dim = b.start := by
        rw [List.append_assoc, ← hstart, List.take_left]
      have hdrop : ((b.start ++ b.count ++ bs.flatMap fun b => b.start ++ b.count).drop dim).take dim =
          b.count := by
        rw [List.append_assoc, ← hstart, List.drop_left, hstart, ← hcount, List.take_left]
      rw [List.length_cons, List.flatMap_cons, walkSels, if_neg (by rw [List.length_append, hlen]; omega), htake,
        hdrop, ← hlen, List.drop_left]
      simp only [ih hrest, Lib.ok_bind]
      rw [placeSels, add_comm (blockBytes esize b.count), List.filterMap_cons]
      cases hit b.start b.count doff <;> rfl

/-! ## §2 — searching an entry. -/

/-- A result with another data size. -/
def SearchRet.withXsize (xsize : MpiOffset) (r : SearchRet) : SearchRet := { r with xsize := xsize }

/-- **The first dimension of a block and a record** are in the range of an `int`. -/
def LeadFits (b : Block) (recnum : HSize) : Prop :=
  recnum.toNat < 2 ^ 31 ∧ ∀ start ∈ b.start.head?, ∀ count ∈ b.count.head?, start.toNat + count.toNat < 2 ^ 31

/-- A record is in a block exactly when it is in the block's first dimension. -/
theorem intersect_lead {r start count : HSize} {ss cs starts counts : List HSize} (hr : r.toNat < 2 ^ 31)
    (hfit : start.toNat + count.toNat < 2 ^ 31) :
    intersect (r :: ss) (1 :: cs) (start :: starts) (count :: counts) =
      if start.toNat ≤ r.toNat ∧ r.toNat < start.toNat + count.toNat then
        (intersect ss cs starts counts).map fun p => (r :: p.1, 1 :: p.2)
      else none := by
  have hnext : (r + 1).toNat = r.toNat + 1 := by
    rw [BitVec.toNat_add, Nat.mod_eq_of_lt (by simp; omega)]
    rfl
  have hend : (start + count).toNat = start.toNat + count.toNat := by
    rw [BitVec.toNat_add, Nat.mod_eq_of_lt (by omega)]
  have hso : (if r < start then start else r).toNat = max r.toNat start.toNat := by
    split <;> rename_i hlt <;> rw [BitVec.lt_def] at hlt <;> omega
  have hco : (if start + count < r + 1 then start + count else r + 1).toNat =
      min (r.toNat + 1) (start.toNat + count.toNat) := by
    split <;> rename_i hlt <;> rw [BitVec.lt_def, hend, hnext] at hlt <;> omega
  rw [intersect]
  simp only [BitVec.le_def, hso, hco]
  by_cases hin : start.toNat ≤ r.toNat ∧ r.toNat < start.toNat + count.toNat
  · have hstart : (if r < start then start else r) = r := if_neg (by rw [BitVec.lt_def]; omega)
    have hone : (if start + count < r + 1 then start + count else r + 1) - r = 1 := by
      rw [if_neg (by rw [BitVec.lt_def, hend, hnext]; omega), add_sub_cancel_left]
    rw [if_pos hin, if_neg (by omega), hstart, hone]
    cases intersect ss cs starts counts <;> rfl
  · rw [if_neg hin, if_pos (by omega)]

/-- The test of the compact index for the same. -/
theorem lead_skipped_iff {r start count : HSize} (hr : r.toNat < 2 ^ 31)
    (hfit : start.toNat + count.toNat < 2 ^ 31) :
    (cordInt (r - start) < 0 ∨ cordInt count ≤ cordInt (r - start)) ↔
      ¬ (start.toNat ≤ r.toNat ∧ r.toNat < start.toNat + count.toNat) := by
  have hcount : cordInt count = count.toNat := by
    rw [cordInt, cInt_of_range (by omega) (by omega)]
  rw [hcount]
  by_cases hle : start.toNat ≤ r.toNat
  · have hsub : cordInt (r - start) = ((r.toNat - start.toNat : ℕ) : ℤ) := by
      rw [cordInt, BitVec.toNat_sub_of_le (by rwa [BitVec.le_def]), cInt_of_range (by omega) (by omega)]
    rw [hsub]
    omega
  · have hwrap : ((r - start).toNat : ℤ) = (r.toNat : ℤ) - start.toNat + 2 ^ 64 := by
      rw [BitVec.toNat_sub]
      omega
    have hsub : cordInt (r - start) = (r.toNat : ℤ) - start.toNat := by
      have hmod : ((r.toNat : ℤ) - start.toNat + 2 ^ 64) =
          (r.toNat : ℤ) - start.toNat + ((2 ^ 32 : ℕ) : ℤ) * 2 ^ 32 := by
        norm_num
      rw [cordInt, hwrap, hmod, cInt, Int.add_mul_bmod_self_left, ← cInt, cInt_of_range (by omega) (by omega)]
    rw [hsub]
    omega

section Entry

variable {req : ReadReq} {b : Block} {esize : HSize} {e : MetaEntry} {ce : CompactEntry}

theorem compactHit_none (xbuf : ℕ) (s : MetaSel) (hfoff : ce.foff = e.hdr.foff) (hfsize : ce.fsize = e.hdr.fsize) :
    compactHit req b xbuf ce none s.start s.count s.doff =
      (searchSel req b xbuf e s).map (SearchRet.withXsize ce.dsize) := by
  unfold compactHit searchSel
  rw [Option.map_map, hfoff, hfsize]
  rfl

theorem compactHit_lead {r start count : HSize} {starts counts : List HSize} (hb : b.start = start :: starts)
    (hc : b.count = count :: counts) (hr : r.toNat < 2 ^ 31) (hfit : start.toNat + count.toNat < 2 ^ 31)
    (hin : start.toNat ≤ r.toNat ∧ r.toNat < start.toNat + count.toNat) (xbuf : ℕ) (s : MetaSel)
    (hfoff : ce.foff = e.hdr.foff) (hfsize : ce.fsize = e.hdr.fsize) :
    compactHit req b xbuf ce (some (cordInt (r - start), cordInt count)) s.start s.count s.doff =
      (searchSel req b xbuf e ⟨r :: s.start, 1 :: s.count, s.doff⟩).map (SearchRet.withXsize ce.dsize) := by
  have hone : cordInt 1 = 1 := by decide
  have hzero : cordInt (r - r) = 0 := by
    rw [sub_self]
    decide
  unfold compactHit searchSel
  rw [hb, hc, intersect_lead hr hfit, if_pos hin, Option.map_map, Option.map_map, hfoff, hfsize]
  simp only [Function.comp_def, SearchRet.withXsize, Option.map_some, Option.toList_some, List.singleton_append,
    List.map_cons, List.zipWith_cons_cons, hone, hzero, Option.isSome_some, if_true, List.drop_succ_cons,
    List.drop_zero]

/-- **A related entry is found with the same results**, with the data size the compact index has for it. -/
theorem compactSearchEnt_mirrors {recnum : Option HSize} {bs : List Block}
    (h : Mirrors req.info.ndim esize recnum bs e ce)
    (hb : b.start.length = req.info.ndim ∧ b.count.length = req.info.ndim)
    (hfit : ∀ r ∈ recnum, LeadFits b r) (xbuf : ℕ) :
    compactSearchEnt esize req b xbuf ce =
      .ok ((e.sels.filterMap (searchSel req b xbuf e)).map (SearchRet.withXsize ce.dsize)) := by
  unfold compactSearchEnt
  rw [h.blocks, h.sels, placeSels_inRecord, List.map_filterMap, List.filterMap_map]
  cases recnum with
  | none =>
      have hplain : ¬ 0 ≤ ce.recnum.toInt := by
        rw [h.recnum_eq]
        decide
      simp only [if_neg hplain]
      rw [packBlocks, walkSels_packed esize _ h.rank 0]
      simp only [compactHit_none xbuf _ h.foff h.fsize]
      rfl
  | some r =>
      rcases hfit r rfl with ⟨hr, hlead⟩
      have hrec : ce.recnum = r := h.recnum_eq
      have hnonneg : 0 ≤ r.toInt := by
        rw [BitVec.toInt_eq_toNat_of_lt (by omega)]
        exact Int.natCast_nonneg _
      -- an entry has a block, so a dataset with records has a first dimension
      have hdim : 0 < req.info.ndim := by
        rcases List.exists_mem_of_ne_nil bs h.ne_nil with ⟨b', hb'⟩
        rw [← (h.rank b' hb').1]
        exact Nat.succ_pos _
      have hrank : ∀ b' ∈ bs, b'.start.length = req.info.ndim - 1 ∧ b'.count.length = req.info.ndim - 1 := by
        intro b' hb'
        have hlen := h.rank b' hb'
        simp only [Block.inRecord_some, List.length_cons] at hlen
        omega
      rcases List.exists_cons_of_length_pos (hb.1 ▸ hdim) with ⟨start, starts, hstart⟩
      rcases List.exists_cons_of_length_pos (hb.2 ▸ hdim) with ⟨count, counts, hcount⟩
      have hends : start.toNat + count.toNat < 2 ^ 31 :=
        hlead start (by rw [hstart]; rfl) count (by rw [hcount]; rfl)
      simp only [hrec, if_pos hnonneg, hstart, hcount, List.head?_cons, lead_skipped_iff hr hends]
      by_cases hin : start.toNat ≤ r.toNat ∧ r.toNat < start.toNat + count.toNat
      · rw [if_neg (not_not.mpr hin), packBlocks, walkSels_packed esize _ hrank 0]
        simp only [compactHit_lead hstart hcount hr hends hin xbuf _ h.foff h.fsize]
        rfl
      · have hnone : ∀ s : MetaSel, searchSel req b xbuf e ⟨r :: s.start, 1 :: s.count, s.doff⟩ = none := by
          intro s
          rw [searchSel, hstart, hcount, intersect_lead hr hends, if_neg hin]
          rfl
        rw [if_pos hin]
        simp only [Function.comp_def, Block.inRecord_some, MetaSel.block, hnone, Option.map_none,
          List.filterMap_none]

end Entry

/-! ## §3 — decoding an entry. -/

/-- What every single read gives, a list of them gives. -/
theorem takeMany_all {α : Type} {r : Lib.Reader Fault α} {Q : α → Prop}
    (hr : ∀ {bs a rest}, r.run bs = .ok (a, rest) → Q a) {n : ℕ} {bs rest : List UInt8} {vs : List α}
    (h : (Lib.takeMany r n).run bs = .ok (vs, rest)) : vs.length = n ∧ ∀ v ∈ vs, Q v := by
  induction n generalizing bs vs with
  | zero =>
      rcases Prod.mk.inj (Except.ok.inj h) with ⟨rfl, -⟩
      exact ⟨rfl, fun v hv => absurd hv List.not_mem_nil⟩
  | succ n ih =>
      rcases Lib.run_bind_eq_ok.mp h with ⟨a, mid, ha, h⟩
      rcases Lib.run_bind_eq_ok.mp h with ⟨as, mid', has, h⟩
      rcases Prod.mk.inj (Except.ok.inj h) with ⟨rfl, rfl⟩
      rcases ih has with ⟨hlen, hall⟩
      exact ⟨congrArg (· + 1) hlen, List.forall_mem_cons.mpr ⟨hr ha, hall⟩⟩

theorem readOffsets_length {n : ℤ} {bs rest : List UInt8} {vs : List MpiOffset}
    (h : (readOffsets n).run bs = .ok (vs, rest)) : (vs.length : ℤ) = n := by
  unfold readOffsets at h
  split at h
  · cases h
  · have hlen := (takeMany_all (Q := fun _ => True) (fun _ => trivial) h).1
    omega

/-- Starts and counts have one coordinate for each dimension stored, of a record entry too. -/
theorem readCords_length {encoded : Bool} {encdim : ℤ} {dsteps : List MpiOffset} {bs rest : List UInt8}
    {v : List HSize} (hsteps : encoded = true → (dsteps.length : ℤ) = encdim)
    (h : (readCords encoded encdim dsteps).run bs = .ok (v, rest)) : (v.length : ℤ) = encdim := by
  cases encoded with
  | false => exact readOffsets_length h
  | true =>
      rw [readCords, if_pos rfl] at h
      rcases Lib.run_bind_eq_ok.mp h with ⟨off, mid, -, h⟩
      rw [selDecode_length (Lib.run_pureExcept_eq_ok.mp h).1, hsteps rfl]

theorem readSteps_lengthOf {flag : I32} {encdim : ℤ} {bs rest : List UInt8} {dsteps : List MpiOffset}
    (h : (readSteps flag encdim).run bs = .ok (dsteps, rest)) (henc : hasFlag flag MetaFlag.selEncode = true) :
    (dsteps.length : ℤ) = encdim := by
  rw [readSteps, if_pos henc, StateT.run_map] at h
  rcases Lib.bind_eq_ok.mp h with ⟨⟨steps, mid⟩, hread, h⟩
  rcases Prod.mk.inj (Except.ok.inj h) with ⟨rfl, -⟩
  have hlen := readOffsets_length hread
  show ((steps ++ [1]).length : ℤ) = encdim
  rw [List.length_append, List.length_singleton]
  omega

/-- **What a selection is read as**: blocks of the dimensions stored, with the record's dimension in a record
entry. -/
theorem readSels_blocks {dset : DsetInfo} {hdr : MetaHdr} {recnum : Option HSize} {n : ℤ}
    {bytes rest : List UInt8} {out : MetaEntry × List MpiOffset}
    (h : (readSels dset hdr recnum n).run bytes = .ok (out, rest)) :
    ∃ bs : List Block, bs.length = n.toNat ∧ bs ≠ [] ∧
      (∀ b ∈ bs, (b.inRecord recnum).start.length = dset.ndim ∧ (b.inRecord recnum).count.length = dset.ndim) ∧
      out.1.sels = placeSels dset.esize 0 (bs.map (Block.inRecord recnum)) := by
  rw [readSels, Lib.run_bind_eq_ok] at h
  rcases h with ⟨dsteps, mid, hsteps, h⟩
  rcases Lib.run_bind_eq_ok.mp h with ⟨_, mid₁, -, h⟩
  rcases Lib.run_bind_eq_ok.mp h with ⟨starts, mid₂, hstarts, h⟩
  rcases Lib.run_bind_eq_ok.mp h with ⟨counts, mid₃, hcounts, h⟩
  rcases Lib.run_bind_eq_ok.mp h with ⟨dsize, mid₄, hsize, h⟩
  rcases Prod.mk.inj (Except.ok.inj h) with ⟨rfl, -⟩
  have hstep := readSteps_lengthOf hsteps
  rcases takeMany_all (fun hr => readCords_length hstep hr) hstarts with ⟨hslen, hs⟩
  rcases takeMany_all (fun hr => readCords_length hstep hr) hcounts with ⟨hclen, hc⟩
  have hsels : List.zipWith (mkBlock recnum) starts counts =
      (List.zipWith Block.mk starts counts).map (Block.inRecord recnum) := by
    rw [List.map_zipWith]
    rfl
  -- The record's dimension is put in front of a block once it is read, so it can be left out until then.
  refine ⟨List.zipWith Block.mk starts counts, ?_, ?_, ?_, ?_⟩
  · rw [List.length_zipWith, hslen, hclen, Nat.min_self]
  · intro hnil
    rw [hsels, hnil] at hsize
    cases (Lib.run_pureExcept_eq_ok.mp hsize).1
  · intro b hb
    rcases List.mem_iff_getElem.mp hb with ⟨i, hi, rfl⟩
    rw [List.getElem_zipWith]
    have hstart := hs _ (List.getElem_mem (by rw [List.length_zipWith] at hi; omega : i < starts.length))
    have hcount := hc _ (List.getElem_mem (by rw [List.length_zipWith] at hi; omega : i < counts.length))
    cases recnum with
    | none => exact ⟨Int.natCast_inj.mp hstart, Int.natCast_inj.mp hcount⟩
    | some r =>
        simp only [encdimRead, Option.isSome_some, if_true] at hstart hcount
        simp only [Block.inRecord_some, List.length_cons]
        omega
  · rw [← hsels]

/-- Whether an entry is in a record and whether it may have several blocks. -/
def MetaHdr.isRecord (hdr : MetaHdr) : Bool := hasFlag hdr.flag MetaFlag.record

def MetaHdr.hasMany (hdr : MetaHdr) : Bool := hasFlag hdr.flag MetaFlag.mulSel

/-- A record number is read exactly where the flag says so. -/
theorem readRecnum_isSome {flag : I32} {bs rest : List UInt8} {recnum : Option HSize}
    (h : (readRecnum flag).run bs = .ok (recnum, rest)) : recnum.isSome = hasFlag flag MetaFlag.record := by
  unfold readRecnum at h
  split at h
  · rename_i hset
    rw [StateT.run_map] at h
    rcases Lib.bind_eq_ok.mp h with ⟨⟨v, _⟩, -, h⟩
    rcases Prod.mk.inj (Except.ok.inj h) with ⟨rfl, -⟩
    exact hset.symm
  · rename_i hset
    rcases Prod.mk.inj (Except.ok.inj h) with ⟨rfl, -⟩
    exact (Bool.eq_false_iff.mpr hset).symm

/-- **The blocks of a decoded entry.** -/
theorem metaentryDecode_blocks {z : Option Zlib} {dset : DsetInfo} {ent : List UInt8} {e : MetaEntry}
    (h : metaentryDecode z dset ent = .ok e) :
    ∃ (recnum : Option HSize) (bs : List Block), recnum.isSome = e.hdr.isRecord ∧
      (e.hdr.hasMany = false → bs.length = 1) ∧ bs ≠ [] ∧
      (∀ b ∈ bs, (b.inRecord recnum).start.length = dset.ndim ∧ (b.inRecord recnum).count.length = dset.ndim) ∧
      e.sels = placeSels dset.esize 0 (bs.map (Block.inRecord recnum)) := by
  rcases hrun : (metaentryDecodeSteps z dset).run ent with err | ⟨out, rest⟩
  · rw [metaentryDecode, hrun] at h
    cases h
  rw [metaentryDecode, hrun] at h
  obtain rfl := Except.ok.inj h
  rcases Lib.run_bind_eq_ok.mp hrun with ⟨hdr, mid, -, hrun⟩
  rcases Lib.run_bind_eq_ok.mp hrun with ⟨_, mid₁, -, hrun⟩
  rcases Lib.run_bind_eq_ok.mp hrun with ⟨recnum, mid₂, hrec, hrun⟩
  have hflag := readRecnum_isSome hrec
  rw [readBlocks] at hrun
  by_cases hmany : hasFlag hdr.flag MetaFlag.mulSel = true
  · rw [if_pos hmany] at hrun
    rcases Lib.run_bind_eq_ok.mp hrun with ⟨nsel, mid₃, -, hrun⟩
    rcases unpackSels_readSels hrun with ⟨bytes', rest', hread⟩
    rcases readSels_blocks hread with ⟨bs, -, hne, hrank, hsels⟩
    have hhdr := readSels_hdr hread
    refine ⟨recnum, bs, by rw [MetaHdr.isRecord, hhdr]; exact hflag, fun hone => ?_, hne, hrank, hsels⟩
    rw [MetaHdr.hasMany, hhdr, hmany] at hone
    cases hone
  · rw [if_neg hmany] at hrun
    rcases readSels_blocks hrun with ⟨bs, hlen, hne, hrank, hsels⟩
    have hhdr := readSels_hdr hrun
    exact ⟨recnum, bs, by rw [MetaHdr.isRecord, hhdr]; exact hflag, fun _ => hlen, hne, hrank, hsels⟩

/-- The blocks are packed without the record's dimension. -/
theorem packSels_placed (esize : HSize) (recnum : Option HSize) (doff : MpiOffset) (bs : List Block) :
    packSels (if recnum.isSome then 1 else 0) (placeSels esize doff (bs.map (Block.inRecord recnum))) =
      packBlocks bs := by
  have hwords : ∀ doff, ((placeSels esize doff (bs.map (Block.inRecord recnum))).flatMap fun s =>
      s.start.drop (if recnum.isSome then 1 else 0) ++ s.count.drop (if recnum.isSome then 1 else 0)) =
        bs.flatMap fun b => b.start ++ b.count := by
    induction bs with
    | nil => exact fun _ => rfl
    | cons b bs ih =>
        intro doff
        rw [List.map_cons, placeSels, List.flatMap_cons, List.flatMap_cons, ih]
        cases recnum <;> rfl
  rw [packSels, packBlocks, hwords, placeSels_length, List.length_map]

/-- **An entry with blocks of its own** has the same ones in the compact index. -/
theorem compactPlain_mirrors {z : Option Zlib} {dset : DsetInfo} {ent : List UInt8} {e : MetaEntry}
    (h : metaentryDecode z dset ent = .ok e) :
    ∃ (ce : CompactEntry) (recnum : Option HSize) (bs : List Block), compactPlain e = .ok ce ∧
      recnum.isSome = e.hdr.isRecord ∧ (e.hdr.hasMany = false → bs.length = 1) ∧
      Mirrors dset.ndim dset.esize recnum bs e ce ∧ ce.own = packBlocks bs ∧ ce.dsize = e.dsize := by
  rcases metaentryDecode_blocks h with ⟨recnum, bs, hrec, hone, hne, hrank, hsels⟩
  have hpack := packSels_placed dset.esize recnum 0 bs
  rw [← hsels] at hpack
  unfold compactPlain
  rw [← MetaHdr.isRecord, ← hrec]
  cases recnum with
  | none =>
      refine ⟨_, none, bs, rfl, rfl, hone, ⟨hrank, hne, hsels, rfl, ?_, rfl, rfl⟩, ?_, rfl⟩
      · exact congrArg some hpack
      · exact hpack
  | some r =>
      have hhead : (e.sels.head?.bind fun s => s.start.head?) = some r := by
        rcases List.exists_cons_of_ne_nil hne with ⟨b, bs', rfl⟩
        rw [hsels]
        rfl
      rw [hhead]
      refine ⟨_, some r, bs, rfl, rfl, hone, ⟨hrank, hne, hsels, rfl, ?_, rfl, rfl⟩, ?_, rfl⟩
      · exact congrArg some hpack
      · exact hpack

/-! ## §4 — references. -/

/-- What of an entry matters to a reference to it: the dimensions and the element size of its dataset, whether it
is in a record, and whether it may have several blocks. -/
structure EntryForm where
  ndim : ℕ
  esize : HSize
  record : Bool
  many : Bool
  deriving DecidableEq

def DsetInfo.formOf (dset : DsetInfo) (hdr : MetaHdr) : EntryForm :=
  ⟨dset.ndim, dset.esize, hdr.isRecord, hdr.hasMany⟩

/-- The form of the entry that the reference `r` at `pos` refers to; `seen` has the forms of the entries that can
be referred to. -/
def targetForm (share : Bool) (r : WReq) (pos : ℤ) (seen : PosCache EntryForm) : Option EntryForm :=
  if r.hdr.isRef share then
    match refWords r.hdr r.metaBuf with
    | .ok w => seen.get? (pos + w.2.toInt)
    | .error _ => none
  else none

/-- The forms of the entries that can be referred to, behind the entry `r`. -/
def seeForm (share : Bool) (dset : DsetInfo) (r : WReq) (pos : ℤ) (seen : PosCache EntryForm) :
    PosCache EntryForm :=
  if share && !hasFlag r.hdr.flag MetaFlag.selRef then (pos, dset.formOf r.hdr) :: seen else seen

/-- An entry whose blocks can stand for those of a reference: of as many dimensions, with its data laid out the
same way, and in a record if the reference is. -/
structure EntryForm.Serves (f own : EntryForm) : Prop where
  ndim : f.ndim = own.ndim
  esize : f.esize = own.esize ∨ f.many = false
  record : own.record = true → f.record = true

/-- **Every reference is to an entry that serves it.** -/
def RefsServed (share : Bool) (dsets : List (Option DsetInfo)) : ℤ → PosCache EntryForm → List WReq → Prop
  | _, _, [] => True
  | pos, seen, r :: rs =>
      match dsetAt dsets r.hdr.did with
      | .ok (some dset) => (∀ f ∈ targetForm share r pos seen, f.Serves (dset.formOf r.hdr)) ∧
          RefsServed share dsets (pos + r.metaBuf.length) (seeForm share dset r pos seen) rs
      | _ => RefsServed share dsets (pos + r.metaBuf.length) seen rs

/-- **No entry of dataset `i` that is in no record refers to one that is.** -/
def RefsInForm (share : Bool) (dsets : List (Option DsetInfo)) (i : ℕ) :
    ℤ → PosCache EntryForm → List WReq → Prop
  | _, _, [] => True
  | pos, seen, r :: rs =>
      match dsetAt dsets r.hdr.did with
      | .ok (some dset) => (r.hdr.did.toNat = i → ∀ f ∈ targetForm share r pos seen, f.record = r.hdr.isRecord) ∧
          RefsInForm share dsets i (pos + r.metaBuf.length) (seeForm share dset r pos seen) rs
      | _ => RefsInForm share dsets i (pos + r.metaBuf.length) seen rs

/-- An entry that is in a record in the array it refers to, and in none itself: the walk of its blocks takes them to
have a dimension more than they have. -/
structure Stray (ndim : ℕ) (ce : CompactEntry) : Prop where
  recnum : ce.recnum = -1
  short : ∃ sels, ce.blocks.sels = some sels ∧ sels.words.length < 2 * ndim * sels.nsel

/-- What is kept of an entry in both indexes. -/
structure KeptAs (f : EntryForm) (kept : List MetaSel) (packed : CompactSels) (recnum : Option HSize)
    (bs : List Block) : Prop where
  record : recnum.isSome = f.record
  single : f.many = false → bs.length = 1
  ne_nil : bs ≠ []
  rank : ∀ b ∈ bs, (b.inRecord recnum).start.length = f.ndim ∧ (b.inRecord recnum).count.length = f.ndim
  kept_eq : kept = placeSels f.esize 0 (bs.map (Block.inRecord recnum))
  packed_eq : packed = packBlocks bs

/-- The caches of both indexes have the same entries. -/
def CachesMirror (c : PosCache (List MetaSel)) (c' : PosCache CompactSels) (seen : PosCache EntryForm) : Prop :=
  ∀ pos kept, c.get? pos = some kept → ∃ f packed recnum bs, seen.get? pos = some f ∧ c'.get? pos = some packed ∧
    KeptAs f kept packed recnum bs

theorem cachesMirror_nil : CachesMirror [] [] [] := fun _ _ h => by cases h

theorem CachesMirror.cons {c : PosCache (List MetaSel)} {c' : PosCache CompactSels} {seen : PosCache EntryForm}
    (h : CachesMirror c c' seen) (pos : ℤ) {f : EntryForm} {kept : List MetaSel} {packed : CompactSels}
    {recnum : Option HSize} {bs : List Block} (hkept : KeptAs f kept packed recnum bs) :
    CachesMirror ((pos, kept) :: c) ((pos, packed) :: c') ((pos, f) :: seen) := by
  intro p v hp
  rw [PosCache.get?_cons] at hp ⊢
  rw [PosCache.get?_cons]
  by_cases heq : pos = p
  · rw [if_pos heq] at hp ⊢
    rw [if_pos heq]
    obtain rfl := Option.some.inj hp
    exact ⟨f, packed, recnum, bs, rfl, rfl, hkept⟩
  · rw [if_neg heq] at hp ⊢
    rw [if_neg heq]
    exact h p v hp

/-- The blocks of an entry, with another record number or with the one they have. -/
theorem refSels_blocks {ndim : ℕ} {old new : Option HSize} (hform : new.isSome = true → old.isSome = true)
    (esize : HSize) (bs : List Block)
    (hrank : ∀ b ∈ bs, (b.inRecord old).start.length = ndim ∧ (b.inRecord old).count.length = ndim) :
    refSels ndim new (placeSels esize 0 (bs.map (Block.inRecord old))) =
      .ok (placeSels esize 0 (bs.map (Block.inRecord (new.or old)))) := by
  have hall : ((placeSels esize 0 (bs.map (Block.inRecord old))).all fun s =>
      ndim ≤ s.start.length && ndim ≤ s.count.length) = true := by
    rw [placeSels_inRecord, List.all_map, List.all_eq_true]
    intro s hs
    have hmem : s.block ∈ bs := by
      have hmap := List.mem_map_of_mem (f := MetaSel.block) hs
      rwa [placeSels_block] at hmap
    rcases hrank _ hmem with ⟨hstart, hcount⟩
    simp [hstart, hcount]
  rw [refSels, if_pos hall, placeSels_inRecord, placeSels_inRecord, List.map_map]
  refine congrArg Except.ok (List.map_congr_left fun s hs => ?_)
  have hmem : s.block ∈ bs := by
    have hmap := List.mem_map_of_mem (f := MetaSel.block) hs
    rwa [placeSels_block] at hmap
  rcases hrank _ hmem with ⟨hstart, hcount⟩
  have htake := List.take_of_length_le (l := (s.block.inRecord old).start) (i := ndim) (by rw [hstart])
  have htake' := List.take_of_length_le (l := (s.block.inRecord old).count) (i := ndim) (by rw [hcount])
  cases new with
  | none => simp only [Function.comp_apply, htake, htake', Option.none_or]
  | some r =>
      rcases Option.isSome_iff_exists.mp (hform rfl) with ⟨r', rfl⟩
      simp only [Function.comp_apply, htake, htake']
      rfl

/-! ## §5 — parsing an entry. -/

/-- The data size the compact index has of an entry: none of a reference. -/
def MetaEntry.compactSize (share : Bool) (e : MetaEntry) : MpiOffset := if e.hdr.isRef share then 0 else e.dsize

/-- An entry of a dataset that both indexes have in full, but for the data size of a reference. -/
def SameEntry (share : Bool) (dset : DsetInfo) (e : MetaEntry) (ce : CompactEntry) : Prop :=
  ∃ recnum bs, Mirrors dset.ndim dset.esize recnum bs e ce ∧ recnum.isSome = e.hdr.isRecord ∧
    ce.dsize = e.compactSize share

section Parse

variable {z : Option Zlib} {share : Bool} {dset : DsetInfo} {r : WReq} {pos : ℤ} {c : BlockCache}
  {c' : CompactCache} {seen : PosCache EntryForm} {e : MetaEntry}

theorem plain_mirrored (hplain : r.hdr.isRef share = false)
    (hentry : ∀ tail, (listParser z).entryAt share dset r.hdr (r.metaBuf ++ tail) pos c = .ok e)
    (hc : CachesMirror c c' seen) :
    ∃ ce, (∀ tail, (compactParser z).entryAt share dset r.hdr (r.metaBuf ++ tail) pos c' = .ok ce) ∧
      CachesMirror ((listParser z).after share r.hdr pos e c) ((compactParser z).after share r.hdr pos ce c')
        (seeForm share dset r pos seen) ∧ SameEntry share dset e ce := by
  have hhdr := (listParser_hdr (hentry [])).1
  simp only [EntryParser.entryAt_plain _ _ _ _ hplain, listParser_plain] at hentry ⊢
  rcases compactPlain_mirrors (hentry []) with ⟨ce, recnum, bs, hce, hrec, hone, hmirrors, hown, hdsize⟩
  have hsize : ce.dsize = e.compactSize share := by
    rw [MetaEntry.compactSize, hhdr, hplain]
    exact hdsize
  refine ⟨ce, fun tail => ?_, ?_, recnum, bs, hmirrors, hrec, hsize⟩
  · show (metaentryDecode z dset (r.metaBuf ++ tail) >>= compactPlain) = .ok ce
    rw [hentry tail, Lib.ok_bind, hce]
  · unfold EntryParser.after seeForm
    split
    · have hkept : KeptAs (dset.formOf r.hdr) e.sels ce.own recnum bs := by
        refine ⟨?_, fun hmany => ?_, hmirrors.ne_nil, hmirrors.rank, hmirrors.sels, hown⟩
        · rw [hrec, hhdr]
          rfl
        · exact hone (by rw [hhdr]; exact hmany)
      exact hc.cons pos hkept
    · exact hc

/-- A record reference has a record number of its own. -/
theorem refWords_isSome {hdr : MetaHdr} {ent : List UInt8} {w : Option HSize × MpiOffset}
    (h : refWords hdr ent = .ok w) : w.1.isSome = hdr.isRecord := by
  rcases map_eq_ok h with ⟨⟨out, rest⟩, hrun, rfl⟩
  rcases Lib.run_bind_eq_ok.mp hrun with ⟨recnum, mid, hrec, hrun⟩
  rcases Lib.run_bind_eq_ok.mp hrun with ⟨roff, mid', -, hrun⟩
  rcases Prod.mk.inj (Except.ok.inj hrun) with ⟨rfl, -⟩
  exact readRecnum_isSome hrec

/-- The blocks the list index has for a reference. -/
theorem listRef_sels {kept : List MetaSel} {w : Option HSize × MpiOffset} {tail : List UInt8}
    (hw : refWords r.hdr (r.metaBuf ++ tail) = .ok w)
    (h : (listParser z).ref dset r.hdr (r.metaBuf ++ tail) kept = .ok e) :
    refSels dset.ndim w.1 kept = .ok e.sels ∧ e.hdr = r.hdr := by
  rw [listParser_ref] at h
  rcases map_eq_ok h with ⟨⟨out, rest⟩, hrun, rfl⟩
  rcases metaentryRefDecode_eq_ok.mp hrun with
    ⟨hdr, mid, hhdr, -, recnum, mid', hrec, roff, hroff, sels, hsels, dsize, -, rfl⟩
  rw [readHdr_metaBuf] at hhdr
  rcases Prod.mk.inj (Except.ok.inj hhdr) with ⟨rfl, rfl⟩
  have hwords := refWords_eq hrec hroff
  rw [← List.append_assoc, ← WReq.metaBuf, hw] at hwords
  obtain rfl := Except.ok.inj hwords
  exact ⟨hsels, rfl⟩

theorem ref_mirrored (href : r.hdr.isRef share = true)
    (hentry : ∀ tail, (listParser z).entryAt share dset r.hdr (r.metaBuf ++ tail) pos c = .ok e)
    (hc : CachesMirror c c' seen) (hserved : ∀ f ∈ targetForm share r pos seen, f.Serves (dset.formOf r.hdr)) :
    ∃ ce f, (∀ tail, (compactParser z).entryAt share dset r.hdr (r.metaBuf ++ tail) pos c' = .ok ce) ∧
      targetForm share r pos seen = some f ∧ (f.record = r.hdr.isRecord → SameEntry share dset e ce) ∧
      (f.record ≠ r.hdr.isRecord → Stray dset.ndim ce) := by
  rcases ((listParser z).entryAt_ref href).mp (hentry []) with ⟨⟨recw, roff⟩, kept, hw, hget, hmade⟩
  rcases hc _ _ hget with ⟨f, packed, recnum, bs, hseen, hget', hkept⟩
  have htarget : targetForm share r pos seen = some f := by
    rw [List.append_nil] at hw
    rw [targetForm, if_pos href, hw]
    exact hseen
  rcases hserved f htarget with ⟨hndim, hesize, hrecord⟩
  have hisSome : recw.isSome = r.hdr.isRecord := refWords_isSome hw
  have hndim' : f.ndim = dset.ndim := hndim
  rcases listRef_sels hw hmade with ⟨hblocks, hhdr⟩
  refine ⟨compactRef r.hdr recw (some packed), f, fun tail => ?_, htarget, ?_, ?_⟩
  · rcases ((listParser z).entryAt_ref href).mp (hentry tail) with ⟨w', _, hw', -⟩
    obtain rfl := refWords_metaBuf hw hw'
    refine ((compactParser z).entryAt_ref href).mpr ⟨_, packed, hw', hget', ?_⟩
    show (refWords r.hdr (r.metaBuf ++ tail)).map _ = _
    rw [hw']
    rfl
  · intro hform
    have hform' : recw.isSome = recnum.isSome := by rw [hkept.record, hform, hisSome]
    have hbytes : placeSels f.esize 0 (bs.map (Block.inRecord (recw.or recnum))) =
        placeSels dset.esize 0 (bs.map (Block.inRecord (recw.or recnum))) :=
      placeSels_esize (hesize.imp id fun hmany => by rw [List.length_map, hkept.single hmany])
    rw [hkept.kept_eq, refSels_blocks (fun h => by rw [← hform', h]) _ _ (by rw [← hndim']; exact hkept.rank),
      hbytes] at hblocks
    have hsels := (Except.ok.inj hblocks).symm
    have hpacked : (compactRef r.hdr recw (some packed)).blocks.sels = some (packBlocks bs) :=
      congrArg some hkept.packed_eq
    have hrank := hkept.rank
    rw [hndim'] at hrank
    have hsize : (compactRef r.hdr recw (some packed)).dsize = e.compactSize share := by
      rw [MetaEntry.compactSize, hhdr, href]
      rfl
    refine ⟨recw.or recnum, bs, ⟨?_, hkept.ne_nil, hsels, ?_, hpacked, ?_, ?_⟩, ?_, hsize⟩
    · cases recw <;> cases recnum <;> first | exact hrank | cases hform'
    · cases recw <;> cases recnum <;> first | rfl | cases hform'
    · rw [hhdr]
      rfl
    · rw [hhdr]
      rfl
    · rw [hhdr, ← hisSome]
      cases recw <;> cases recnum <;> first | rfl | cases hform'
  · intro hform
    -- the reference is in no record, and the entry it is to is in one
    rcases hrec : recw with _ | r₁
    · rw [hrec] at hisSome
      have hsome : recnum.isSome = true := by
        rw [hkept.record]
        rcases hf : f.record with _ | _
        · exact absurd (hf.trans hisSome) hform
        · rfl
      rcases Option.isSome_iff_exists.mp hsome with ⟨r₂, rfl⟩
      refine ⟨rfl, packed, rfl, ?_⟩
      have hpos := List.length_pos_iff.mpr hkept.ne_nil
      have hwords := packBlocks_length hkept.rank
      rw [hkept.packed_eq, ← hndim']
      show (packBlocks bs).words.length < 2 * f.ndim * bs.length
      omega
    · rw [hrec] at hisSome
      exact absurd ((hrecord hisSome.symm).trans hisSome) hform

end Parse

/-! ## §6 — parsing a section. -/

/-- What the indexes have of dataset `i`: the same entries, or some that go astray in the compact index. -/
structure HaveSame (share : Bool) (dset : DsetInfo) (inForm : Prop) (ents : List MetaEntry)
    (cents : List CompactEntry) : Prop where
  each : List.Forall₂ (fun e ce => SameEntry share dset e ce ∨ Stray dset.ndim ce) ents cents
  same : inForm → List.Forall₂ (SameEntry share dset) ents cents
  stray : ¬ inForm → ∃ ce ∈ cents, Stray dset.ndim ce

theorem HaveSame.nil (share : Bool) (dset : DsetInfo) : HaveSame share dset True [] [] :=
  ⟨.nil, fun _ => .nil, fun h => absurd trivial h⟩

theorem HaveSame.append {share : Bool} {dset : DsetInfo} {P Q : Prop} {ents ents' : List MetaEntry}
    {cents cents' : List CompactEntry} (h : HaveSame share dset P ents cents)
    (h' : HaveSame share dset Q ents' cents') :
    HaveSame share dset (P ∧ Q) (ents ++ ents') (cents ++ cents') where
  each := List.rel_append h.each h'.each
  same := fun hPQ => List.rel_append (h.same hPQ.1) (h'.same hPQ.2)
  stray := by
    intro hPQ
    by_cases hP : P
    · rcases h'.stray (fun hQ => hPQ ⟨hP, hQ⟩) with ⟨ce, hce, hstray⟩
      exact ⟨ce, List.mem_append_right _ hce, hstray⟩
    · rcases h.stray hP with ⟨ce, hce, hstray⟩
      exact ⟨ce, List.mem_append_left _ hce, hstray⟩

theorem HaveSame.congr {share : Bool} {dset : DsetInfo} {P Q : Prop} {ents : List MetaEntry}
    {cents : List CompactEntry} (h : HaveSame share dset P ents cents) (hPQ : P ↔ Q) :
    HaveSame share dset Q ents cents :=
  ⟨h.each, fun hQ => h.same (hPQ.mpr hQ), fun hQ => h.stray fun hP => hQ (hPQ.mp hP)⟩

section Parse

variable {z : Option Zlib} {share : Bool} {dset : DsetInfo} {r : WReq} {pos : ℤ} {c : BlockCache}
  {c' : CompactCache} {seen : PosCache EntryForm} {e : MetaEntry}

/-- **An entry parsed by both indexes.** -/
theorem entry_mirrored
    (hentry : ∀ tail, (listParser z).entryAt share dset r.hdr (r.metaBuf ++ tail) pos c = .ok e)
    (hc : CachesMirror c c' seen) (hserved : ∀ f ∈ targetForm share r pos seen, f.Serves (dset.formOf r.hdr)) :
    ∃ ce, (∀ tail, (compactParser z).entryAt share dset r.hdr (r.metaBuf ++ tail) pos c' = .ok ce) ∧
      CachesMirror ((listParser z).after share r.hdr pos e c) ((compactParser z).after share r.hdr pos ce c')
        (seeForm share dset r pos seen) ∧
      HaveSame share dset (∀ f ∈ targetForm share r pos seen, f.record = r.hdr.isRecord) [e] [ce] := by
  -- An entry of its own is kept alike by both; what a reference becomes depends on its target.
  rcases href : r.hdr.isRef share with _ | _
  · rcases plain_mirrored href hentry hc with ⟨ce, hce, hcaches, hsame⟩
    have hnone : targetForm share r pos seen = none := by rw [targetForm, href, if_neg Bool.false_ne_true]
    refine ⟨ce, hce, hcaches, List.Forall₂.cons (Or.inl hsame) .nil, fun _ => List.Forall₂.cons hsame .nil, ?_⟩
    intro hform
    refine absurd (fun f hf => ?_) hform
    rw [hnone] at hf
    cases hf
  · rcases ref_mirrored href hentry hc hserved with ⟨ce, f, hce, htarget, hsame, hstray⟩
    have hafter : (share && !hasFlag r.hdr.flag MetaFlag.selRef) = false := by
      rcases Bool.and_eq_true_iff.mp href with ⟨-, hflag⟩
      rw [hflag]
      exact Bool.and_false _
    refine ⟨ce, hce, ?_, ?_, ?_, ?_⟩
    · rw [EntryParser.after, EntryParser.after, seeForm, hafter]
      exact hc
    · -- The compact index keeps what the target has, and a record is only a record in both forms.
      by_cases hform : f.record = r.hdr.isRecord
      · exact List.Forall₂.cons (Or.inl (hsame hform)) .nil
      · exact List.Forall₂.cons (Or.inr (hstray hform)) .nil
    · intro hform
      exact List.Forall₂.cons (hsame (hform f htarget)) .nil
    · intro hform
      refine ⟨ce, List.mem_singleton_self ce, hstray fun heq => hform fun f' hf' => ?_⟩
      rw [htarget] at hf'
      obtain rfl := Option.some.inj hf'
      exact heq

/-- **A section parsed by both indexes.** -/
theorem Parses.mirrored {dsets : List (Option DsetInfo)} {rs : List WReq} {os : List (Option MetaEntry)}
    (h : Parses (listParser z) share dsets pos c rs os) (hc : CachesMirror c c' seen)
    (hserved : RefsServed share dsets pos seen rs) :
    ∃ os', Parses (compactParser z) share dsets pos c' rs os' ∧ ∀ i d, dsets[i]? = some (some d) →
      HaveSame share d (RefsInForm share dsets i pos seen rs) (entriesOf i rs os) (entriesOf i rs os') := by
  induction h generalizing c' seen with
  | nil => exact ⟨[], Parses.nil, fun _ d _ => HaveSame.nil share d⟩
  | @skip pos c r rs os hsize hdset _ ih =>
      rw [RefsServed, hdset] at hserved
      rcases ih hc hserved with ⟨os', hparses, hsame⟩
      refine ⟨none :: os', Parses.skip hsize hdset hparses, fun i d hd => ?_⟩
      rw [RefsInForm, hdset, entriesOf, entriesOf]
      simpa using hsame i d hd
  | @entry pos c r rs e os dset hsize hdset hentry _ ih =>
      rw [RefsServed, hdset] at hserved
      rcases entry_mirrored hentry hc hserved.1 with ⟨ce, hce, hcaches, hfirst⟩
      rcases ih hcaches hserved.2 with ⟨os', hparses, hsame⟩
      refine ⟨some ce :: os', Parses.entry hsize hdset hce hparses, fun i d hd => ?_⟩
      rw [entriesOf, entriesOf]
      -- Entries of the other datasets are in between, and have no part in this one's list.
      by_cases hi : r.hdr.did.toNat = i
      · have hd' : dset = d := by
          have hget := dsetAt_eq_ok.mp hdset
          rw [hi, hd] at hget
          exact (Option.some.inj (Option.some.inj hget)).symm
        obtain rfl := hd'
        rw [if_pos hi, if_pos hi]
        refine (hfirst.append (hsame i _ hd)).congr ?_
        simp [RefsInForm, hdset, hi]
      · rw [if_neg hi, if_neg hi]
        refine (hsame i d hd).congr ?_
        simp [RefsInForm, hdset, hi]

end Parse

/-! ## §7 — searching the indexes. -/

/-- A result for an entry has its data size, and its place in the file. -/
structure SearchRet.Of (e : MetaEntry) (ret : SearchRet) : Prop where
  xsize : ret.xsize = e.dsize
  foff : ret.foff = e.hdr.foff
  fsize : ret.fsize = e.hdr.fsize

/-- What the compact index finds of what the list index finds for one of the entries: the same, but that the data
size is 0 if the entry is a reference. -/
def SameFound (share : Bool) (ents : List MetaEntry) (ret ret' : SearchRet) : Prop :=
  ∃ e ∈ ents, ret.Of e ∧ ret' = ret.withXsize (e.compactSize share)

theorem searchSel_of {req : ReadReq} {b : Block} {xbuf : ℕ} {e : MetaEntry} {s : MetaSel} {ret : SearchRet}
    (h : searchSel req b xbuf e s = some ret) : ret.Of e := by
  rcases Option.map_eq_some_iff.mp h with ⟨c, -, rfl⟩
  exact ⟨rfl, rfl, rfl⟩

/-- Where nothing else fails, one failure is the result. -/
theorem mapM_outside {α β : Type} {f : α → Except Fault β} {l : List α}
    (hall : ∀ a ∈ l, (∃ b, f a = .ok b) ∨ f a = .error .outside) (hsome : ∃ a ∈ l, f a = .error .outside) :
    l.mapM f = .error .outside := by
  induction l with
  | nil => exact absurd hsome (by simp)
  | cons a l ih =>
      rw [List.mapM_cons]
      rcases List.forall_mem_cons.mp hall with ⟨⟨b, hb⟩ | hb, hrest⟩
      · rcases hsome with ⟨a', ha', hfail⟩
        rcases List.mem_cons.mp ha' with rfl | htail
        · rw [hb] at hfail
          cases hfail
        · rw [hb, Lib.ok_bind, ih hrest ⟨a', htail, hfail⟩]
          rfl
      · rw [hb]
        rfl

/-- The walk of an array that is too short ends behind it. -/
theorem walkSels_short (esize : HSize) {dim : ℕ} (hit : List HSize → List HSize → MpiOffset → Option SearchRet)
    {nsel : ℕ} {words : List HSize} (hshort : words.length < 2 * dim * nsel) (doff : MpiOffset) :
    walkSels esize dim hit nsel words doff = .error .outside := by
  induction nsel generalizing words doff with
  | zero => exact absurd hshort (by simp)
  | succ nsel ih =>
      rw [walkSels]
      split
      · rfl
      · have hrest : (words.drop (2 * dim)).length < 2 * dim * nsel := by
          rw [Nat.mul_succ] at hshort
          rw [List.length_drop]
          omega
        simp only [ih hrest]
        rfl

/-- **An entry that goes astray cannot be searched.** -/
theorem compactSearchEnt_stray {req : ReadReq} {ce : CompactEntry} (h : Stray req.info.ndim ce) (esize : HSize)
    (b : Block) (xbuf : ℕ) : compactSearchEnt esize req b xbuf ce = .error .outside := by
  rcases h.short with ⟨sels, hsels, hshort⟩
  have hplain : ¬ 0 ≤ ce.recnum.toInt := by
    rw [h.recnum]
    decide
  unfold compactSearchEnt
  rw [hsels]
  simp only [if_neg hplain]
  exact walkSels_short esize _ hshort 0

/-- **A request that the indexes can be searched for**: its blocks have the dimensions of the dataset, and `int`s
are large enough for their first dimension and for the records. -/
structure RecordsFit (req : ReadReq) (ents : List MetaEntry) : Prop where
  rank : req.sels.ndim = req.info.ndim
  lead : ∀ e ∈ ents, e.hdr.isRecord = true → ∀ b ∈ req.sels.sels, ∀ s ∈ e.sels, ∀ r ∈ s.start.head?, LeadFits b r

section Search

variable {share : Bool} {req : ReadReq} {ents : List MetaEntry} {cents : List CompactEntry}

/-- One block of a request. -/
theorem block_found (hfit : RecordsFit req ents) {b : Block} (hb : b ∈ req.sels.sels) (xbuf : ℕ) {e : MetaEntry}
    (he : e ∈ ents) {ce : CompactEntry} (hsame : SameEntry share req.info e ce) :
    compactSearchEnt req.info.esize req b xbuf ce =
      .ok ((e.sels.filterMap (searchSel req b xbuf e)).map (SearchRet.withXsize ce.dsize)) := by
  rcases hsame with ⟨recnum, bs, hmirrors, hrec, -⟩
  have hrank := req.sels.rank_eq b hb
  rw [hfit.rank] at hrank
  refine compactSearchEnt_mirrors hmirrors hrank (fun r hr => ?_) xbuf
  obtain rfl : recnum = some r := hr
  rcases List.exists_cons_of_ne_nil hmirrors.ne_nil with ⟨b', bs', rfl⟩
  refine hfit.lead e he hrec.symm b hb ⟨r :: b'.start, 1 :: b'.count, 0⟩ ?_ r rfl
  rw [hmirrors.sels]
  exact List.mem_cons_self

/-- The results for an entry of both indexes. -/
theorem entry_found {e : MetaEntry} (he : e ∈ ents) {ce : CompactEntry} (hsame : SameEntry share req.info e ce)
    (b : Block) (xbuf : ℕ) : List.Forall₂ (SameFound share ents) (e.sels.filterMap (searchSel req b xbuf e))
      ((e.sels.filterMap (searchSel req b xbuf e)).map (SearchRet.withXsize ce.dsize)) := by
  rw [List.forall₂_map_right_iff, List.forall₂_same]
  intro ret hret
  rcases List.mem_filterMap.mp hret with ⟨s, -, hs⟩
  rcases hsame with ⟨_, _, -, -, hdsize⟩
  exact ⟨e, he, searchSel_of hs, by rw [hdsize]⟩

theorem entries_found {all : List MetaEntry} (hfit : RecordsFit req all) {b : Block} (hb : b ∈ req.sels.sels)
    (xbuf : ℕ) (hsame : List.Forall₂ (SameEntry share req.info) ents cents) (hall : ∀ e ∈ ents, e ∈ all) :
    ∃ found, cents.mapM (compactSearchEnt req.info.esize req b xbuf) = .ok found ∧
      List.Forall₂ (SameFound share all) (ents.flatMap fun e => e.sels.filterMap (searchSel req b xbuf e))
        found.flatten := by
  induction hsame with
  | nil => exact ⟨[], rfl, .nil⟩
  | @cons e ce ents cents hfirst _ ih =>
      rcases List.forall_mem_cons.mp hall with ⟨he, hrest⟩
      rcases ih hrest with ⟨found, hmap, hfound⟩
      refine ⟨(e.sels.filterMap (searchSel req b xbuf e)).map (SearchRet.withXsize ce.dsize) :: found, ?_, ?_⟩
      · rw [List.mapM_cons, block_found hfit hb xbuf he hfirst, Lib.ok_bind, hmap]
        rfl
      · rw [List.flatMap_cons, List.flatten_cons]
        exact List.rel_append (entry_found he hfirst b xbuf) hfound

/-- **The entries of a dataset are found with the same results**, block by block. -/
theorem searchEntries_same (hfit : RecordsFit req ents)
    (hsame : List.Forall₂ (SameEntry share req.info) ents cents) {bs : List Block}
    (hbs : ∀ b ∈ bs, b ∈ req.sels.sels) (soff : HSize) :
    ∃ rets', searchEntries (compactSearchEnt req.info.esize req) req cents soff bs = .ok rets' ∧
      List.Forall₂ (SameFound share ents) (searchBlocks req ents soff bs) rets' := by
  induction bs generalizing soff with
  | nil => exact ⟨[], rfl, .nil⟩
  | cons b bs ih =>
      rcases List.forall_mem_cons.mp hbs with ⟨hb, hrest⟩
      rcases ih hrest (soff + b.selSize * req.info.esize) with ⟨rets', hrets, hfound⟩
      rcases entries_found hfit hb (req.xbuf + soff.toNat) hsame (fun _ he => he) with ⟨found, hmap, hsames⟩
      refine ⟨found.flatten ++ rets', ?_, ?_⟩
      · rw [searchEntries, hmap, Lib.ok_bind, hrets]
        rfl
      · rw [searchBlocks]
        exact List.rel_append hsames hfound

/-- **An entry that goes astray fails the search.** -/
theorem searchEntries_stray (hfit : RecordsFit req ents)
    (heach : List.Forall₂ (fun e ce => SameEntry share req.info e ce ∨ Stray req.info.ndim ce) ents cents)
    (hstray : ∃ ce ∈ cents, Stray req.info.ndim ce) (hne : req.sels.sels ≠ []) :
    searchEntries (compactSearchEnt req.info.esize req) req cents 0 req.sels.sels = .error .outside := by
  rcases List.exists_cons_of_ne_nil hne with ⟨b, bs, hbs⟩
  have hb : b ∈ req.sels.sels := by
    rw [hbs]
    exact List.mem_cons_self
  have hmap : cents.mapM (compactSearchEnt req.info.esize req b (req.xbuf + (0 : HSize).toNat)) =
      .error .outside := by
    apply mapM_outside
    · intro ce hce
      rcases Lib.forall₂_mem_left heach.flip hce with ⟨e, he, hsame | hgone⟩
      · exact Or.inl ⟨_, block_found hfit hb _ he hsame⟩
      · exact Or.inr (compactSearchEnt_stray hgone _ _ _)
    · rcases hstray with ⟨ce, hce, hgone⟩
      exact ⟨ce, hce, compactSearchEnt_stray hgone _ _ _⟩
  rw [hbs, searchEntries, hmap]
  rfl

end Search

/-! ## §8 — the metadata of a file. -/

section Files

variable {z : Option Zlib} {share : Bool} {dsets : List (Option DsetInfo)}

/-- **A metadata dataset that the list index parses, the compact index parses.** -/
theorem MetaDset.mirrored (D : MetaDset (listParser z) share dsets)
    (hserved : ∀ rs ∈ D.secs, RefsServed share dsets 0 [] rs) :
    ∃ D' : MetaDset (compactParser z) share dsets, D'.secs = D.secs ∧ ∀ i d, dsets[i]? = some (some d) →
      HaveSame share d (∀ rs ∈ D.secs, RefsInForm share dsets i 0 [] rs)
        (entriesOf i D.secs.flatten D.held.flatten) (entriesOf i D'.secs.flatten D'.held.flatten) := by
  have hsecs : ∃ held', List.Forall₂ (SectionHolds (compactParser z) share dsets) D.secs held' ∧
      ∀ i d, dsets[i]? = some (some d) → HaveSame share d (∀ rs ∈ D.secs, RefsInForm share dsets i 0 [] rs)
        (entriesOf i D.secs.flatten D.held.flatten) (entriesOf i D.secs.flatten held'.flatten) := by
    have hholds := D.holds
    revert hholds hserved
    generalize D.secs = secs
    generalize D.held = held
    intro hserved hholds
    induction hholds with
    | nil => exact ⟨[], .nil, fun _ d _ => (HaveSame.nil share d).congr (by simp)⟩
    | @cons rs os secs held hfirst _ ih =>
        rcases List.forall_mem_cons.mp hserved with ⟨hserved', hrest⟩
        rcases ih hrest with ⟨held', hparses, hsame⟩
        rcases Parses.mirrored hfirst cachesMirror_nil hserved' with ⟨os', hparse, hsec⟩
        refine ⟨os' :: held', List.Forall₂.cons hparse hparses, fun i d hd => ?_⟩
        simp only [List.flatten_cons]
        rw [entriesOf_append hfirst.length_eq, entriesOf_append hparse.length_eq]
        exact ((hsec i d hd).append (hsame i d hd)).congr (by simp)
  rcases hsecs with ⟨held', hparses, hsame⟩
  exact ⟨⟨D.secs, held', hparses, D.nsec_lt, D.size_lt⟩, rfl, hsame⟩

/-- **The metadata datasets of a file**, parsed by both indexes. -/
theorem exists_mirrored {Ds : List (MetaDset (listParser z) share dsets)}
    (hserved : ∀ D ∈ Ds, ∀ rs ∈ D.secs, RefsServed share dsets 0 [] rs) :
    ∃ Ds' : List (MetaDset (compactParser z) share dsets),
      Ds'.map MetaDset.content = Ds.map MetaDset.content ∧ ∀ i d, dsets[i]? = some (some d) →
        HaveSame share d (∀ D ∈ Ds, ∀ rs ∈ D.secs, RefsInForm share dsets i 0 [] rs)
          (entriesOf i (Ds.flatMap MetaDset.secs).flatten (Ds.flatMap MetaDset.held).flatten)
          (entriesOf i (Ds'.flatMap MetaDset.secs).flatten (Ds'.flatMap MetaDset.held).flatten) := by
  induction Ds with
  | nil => exact ⟨[], rfl, fun _ d _ => (HaveSame.nil share d).congr (by simp)⟩
  | cons D Ds ih =>
      rcases List.forall_mem_cons.mp hserved with ⟨hfirst, hrest⟩
      rcases ih hrest with ⟨Ds', hcontent, hsame⟩
      rcases D.mirrored hfirst with ⟨D', hsecs, hD⟩
      refine ⟨D' :: Ds', ?_, fun i d hd => ?_⟩
      · rw [List.map_cons, List.map_cons, hcontent, MetaDset.content, hsecs]
        rfl
      · simp only [List.flatMap_cons, List.flatten_append]
        rw [entriesOf_append (Parses.length_eq (Parses.flatten D.holds 0 [])),
          entriesOf_append (Parses.length_eq (Parses.flatten D'.holds 0 []))]
        exact ((hD i d hd).append (hsame i d hd)).congr (by simp)

/-- What an index has of the dataset of a request. -/
def ArrayIdx.entsFor (idx : ArrayIdx) (req : ReadReq) : List MetaEntry := (idx[req.did.toNat]?).getD []

/-- No reference of dataset `i` in these metadata datasets is out of form. -/
def InForm (Ds : List (MetaDset (listParser z) share dsets)) (i : ℕ) : Prop :=
  ∀ D ∈ Ds, ∀ rs ∈ D.secs, RefsInForm share dsets i 0 [] rs

theorem emptyIdx_length {E : Type} (n : ℕ) : n ≤ (List.replicate n ([] : List E)).length := by
  rw [List.length_replicate]

/-- Both indexes of a file, loaded. -/
theorem load_mirrored {Ds : List (MetaDset (listParser z) share dsets)}
    (hserved : ∀ D ∈ Ds, ∀ rs ∈ D.secs, RefsServed share dsets 0 [] rs) {lidx : ArrayIdx}
    (hload : metaupdate (listIdx z share dsets) (Ds.map MetaDset.content) (List.replicate dsets.length []) =
      .ok lidx) :
    ∃ cidx, metaupdate (compactIdx z share dsets) (Ds.map MetaDset.content) (List.replicate dsets.length []) =
        .ok cidx ∧ ∀ i d, dsets[i]? = some (some d) → ∃ ents cents, lidx[i]? = some ents ∧ cidx[i]? = some cents ∧
          HaveSame share d (InForm Ds i) ents cents := by
  rcases exists_mirrored hserved with ⟨Ds', hcontent, hsame⟩
  have hlist := metaupdate_content (listIdx_indexes z share dsets) Ds (emptyIdx_length dsets.length)
  have hcompact := metaupdate_content (compactIdx_indexes z share dsets) Ds' (emptyIdx_length dsets.length)
  rw [hload] at hlist
  obtain rfl := Except.ok.inj hlist
  refine ⟨_, by rw [← hcontent]; exact hcompact, fun i d hd => ?_⟩
  have hlt := (List.getElem?_eq_some_iff.mp hd).1
  refine ⟨_, _, ?_, ?_, hsame i d hd⟩
  · rw [getElem?_idxOf, List.length_replicate, if_pos hlt]
  · rw [getElem?_idxOf, List.length_replicate, if_pos hlt]

/-- A request for a dataset that both indexes have. -/
theorem search_mirrored {Ds : List (MetaDset (listParser z) share dsets)} {lidx : ArrayIdx} {cidx : CompactIdx}
    {req : ReadReq} (hopen : dsets[req.did.toNat]? = some (some req.info)) {ents : List MetaEntry}
    (hents : lidx[req.did.toNat]? = some ents) {cents : List CompactEntry}
    (hcents : cidx[req.did.toNat]? = some cents)
    (hhave : HaveSame share req.info (InForm Ds req.did.toNat) ents cents)
    (hfit : RecordsFit req (lidx.entsFor req)) :
    ∃ rets, lidx.search req = .ok rets ∧
      (InForm Ds req.did.toNat → ∃ rets', CompactIdx.search dsets cidx req = .ok rets' ∧
        List.Forall₂ (SameFound share (lidx.entsFor req)) rets rets') ∧
      (¬ InForm Ds req.did.toNat → req.sels.sels ≠ [] → CompactIdx.search dsets cidx req = .error .outside) := by
  have hdset : dsetAt dsets req.did = .ok (some req.info) := dsetAt_eq_ok.mpr hopen
  have hentsFor : lidx.entsFor req = ents := by rw [ArrayIdx.entsFor, hents, Option.getD_some]
  rw [hentsFor] at hfit ⊢
  refine ⟨_, by rw [ArrayIdx.search, hents], fun hform => ?_, fun hform hne => ?_⟩
  · rcases searchEntries_same hfit (hhave.same hform) (fun b hb => hb) 0 with ⟨rets', hrets, hfound⟩
    refine ⟨rets', ?_, hfound⟩
    rw [CompactIdx.search, hdset, Lib.ok_bind, hcents]
    exact hrets
  · rw [CompactIdx.search, hdset, Lib.ok_bind, hcents]
    exact searchEntries_stray hfit hhave.each (hhave.stray hform) hne

/-- **The two indexes agree on every request**: whatever the metadata of a file, in which every reference is to an
entry that serves it, the compact index finds what the list index finds, in the same order and with all but the data
size of references, as long as no reference of the dataset that is in no record is to an entry in one; else its search
runs past an array. -/
theorem compact_search_agrees {Ds : List (MetaDset (listParser z) share dsets)}
    (hserved : ∀ D ∈ Ds, ∀ rs ∈ D.secs, RefsServed share dsets 0 [] rs) :
    ∃ (lidx : ArrayIdx) (cidx : CompactIdx),
      metaupdate (listIdx z share dsets) (Ds.map MetaDset.content) (List.replicate dsets.length []) = .ok lidx ∧
      metaupdate (compactIdx z share dsets) (Ds.map MetaDset.content) (List.replicate dsets.length []) = .ok cidx ∧
      ∀ req : ReadReq, dsets[req.did.toNat]? = some (some req.info) → RecordsFit req (lidx.entsFor req) →
        ∃ rets, lidx.search req = .ok rets ∧
          (InForm Ds req.did.toNat → ∃ rets', CompactIdx.search dsets cidx req = .ok rets' ∧
            List.Forall₂ (SameFound share (lidx.entsFor req)) rets rets') ∧
          (¬ InForm Ds req.did.toNat → req.sels.sels ≠ [] →
            CompactIdx.search dsets cidx req = .error .outside) := by
  have hlist := metaupdate_content (listIdx_indexes z share dsets) Ds (emptyIdx_length dsets.length)
  rcases load_mirrored hserved hlist with ⟨cidx, hcompact, hhave⟩
  refine ⟨_, cidx, hlist, hcompact, fun req hopen hfit => ?_⟩
  rcases hhave _ _ hopen with ⟨ents, cents, hents, hcents, hsame⟩
  exact search_mirrored hopen hents hcents hsame hfit

end Files

/-- Two open datasets of eight elements. -/
def sharedDsets : List (Option DsetInfo) := [vectorDset 8, vectorDset 8].map some

theorem sharedDset_nsec : [sharedSection].length < 2 ^ 31 := by decide

theorem sharedDset_size : (metadataDataset ([sharedSection].map sectionMeta)).length < 2 ^ 63 := by decide

/-- The section of a block and of a reference to it, in a metadata dataset. -/
def sharedDset : MetaDset (listParser none) true sharedDsets where
  secs := [sharedSection]
  held := [[some (blockEntry 0 0 2 100 8), some (refEntry 1 0 2 108 8)]]
  holds := List.Forall₂.cons sharedSection_holds .nil
  nsec_lt := sharedDset_nsec
  size_lt := sharedDset_size

theorem vectorBlock_rank : ∀ b ∈ [(⟨[1], [1]⟩ : Block)], b.start.length = 1 ∧ b.count.length = 1 := by decide

theorem vectorBlock_lt : [(⟨[1], [1]⟩ : Block)].length < 2 ^ 31 := by decide

/-- The second element of the dataset that has the reference. -/
def vectorReq : ReadReq := ⟨1, vectorDset 8, ⟨1, [⟨[1], [1]⟩], vectorBlock_rank, vectorBlock_lt⟩, 500⟩

/-- The entry that can be referred to. -/
def sharedSeen : PosCache EntryForm := [(0, (vectorDset 8).formOf ⟨44, 0, 0, 100, 8⟩)]

/-- The reference is to an entry of its form. -/
theorem sharedSection_target : targetForm true (refReq 1 (-44) 108 8) 44 sharedSeen =
    some ⟨1, 4, false, false⟩ := by
  have hw := refWords_refReq 1 (-44) 108 8 []
  rw [List.append_nil] at hw
  rw [targetForm, if_pos (by decide), hw]
  rfl

theorem sharedSection_served : RefsServed true sharedDsets 0 [] sharedSection := by
  have hfirst : ∀ f ∈ targetForm true (blockReq 0 0 2 100 8) 0 [],
      f.Serves ((vectorDset 8).formOf (blockReq 0 0 2 100 8).hdr) := fun _ hf => by cases hf
  refine And.intro hfirst (And.intro (fun f hf => ?_) trivial)
  have hf : f ∈ targetForm true (refReq 1 (-44) 108 8) 44 sharedSeen := hf
  rw [sharedSection_target] at hf
  obtain rfl := Option.some.inj hf
  exact ⟨rfl, Or.inl rfl, fun hrec => by cases hrec⟩

theorem sharedSection_inForm : RefsInForm true sharedDsets 1 0 [] sharedSection := by
  refine And.intro (fun hdid => by cases hdid) (And.intro (fun _ f hf => ?_) trivial)
  have hf : f ∈ targetForm true (refReq 1 (-44) 108 8) 44 sharedSeen := hf
  rw [sharedSection_target] at hf
  obtain rfl := Option.some.inj hf
  rfl

theorem sharedDset_served : ∀ D ∈ [sharedDset], ∀ rs ∈ D.secs,
    RefsServed true sharedDsets 0 [] rs := by
  intro D hD rs hrs
  obtain rfl := List.mem_singleton.mp hD
  obtain rfl := List.mem_singleton.mp hrs
  exact sharedSection_served

theorem sharedDset_inForm : InForm [sharedDset] 1 := by
  intro D hD rs hrs
  obtain rfl := List.mem_singleton.mp hD
  obtain rfl := List.mem_singleton.mp hrs
  exact sharedSection_inForm

theorem sharedDset_fits {lidx : ArrayIdx} (h : metaupdate (listIdx none true sharedDsets)
    [sharedDset.content] [[], []] = .ok lidx) : RecordsFit vectorReq (lidx.entsFor vectorReq) := by
  have hload := metaupdate_content (listIdx_indexes none true sharedDsets) [sharedDset] (emptyIdx_length 2)
  obtain rfl := Except.ok.inj (h.symm.trans hload)
  refine ⟨rfl, fun e he hrec => ?_⟩
  obtain rfl := List.mem_singleton.mp he
  cases hrec

theorem compact_search_agrees_shared : ∃ (lidx : ArrayIdx) (cidx : CompactIdx),
    metaupdate (listIdx none true sharedDsets) [sharedDset.content] [[], []] = .ok lidx ∧
    metaupdate (compactIdx none true sharedDsets) [sharedDset.content] [[], []] =
      .ok cidx ∧
    ∃ rets rets', lidx.search vectorReq = .ok rets ∧
      CompactIdx.search sharedDsets cidx vectorReq = .ok rets' ∧
      List.Forall₂ (SameFound true (lidx.entsFor vectorReq)) rets rets' := by
  rcases compact_search_agrees sharedDset_served with ⟨lidx, cidx, hlist, hcompact, hreq⟩
  rcases hreq vectorReq rfl (sharedDset_fits hlist) with ⟨rets, hrets, hsame, -⟩
  rcases hsame sharedDset_inForm with ⟨rets', hrets', hfound⟩
  exact ⟨lidx, cidx, hlist, hcompact, rets, rets', hrets, hrets', hfound⟩

end LogVol
