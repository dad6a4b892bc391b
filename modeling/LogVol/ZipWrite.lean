/-
# LogVol.ZipWrite — compressed entries.

`H5VL_log_dataseti_write` compresses the selection of an entry and keeps the result when the status is `0`, which
is what `H5VL_log_zip_compress` returns when it fails. So no entry is ever stored compressed: with metadata
compression on, a write queues the entry that it queues with compression off (`datasetWrite_zipOff`), and
`compressedEntry_iff` is for selections which are not shortened by compression.
-/
import LogVol.Codec
import LogVol.FailedWrite

namespace LogVol

/-! ## §1 — the request with compression off. -/

/-- The file with metadata compression off. -/
def FileEnv.zipOff (env : FileEnv) : FileEnv := { env with config := clearFlag env.config FileConfig.selDeflate }

theorem zipOff_flag (env : FileEnv) {bit : I32} (hbit : hasFlag FileConfig.selDeflate bit = false) :
    hasFlag env.zipOff.config bit = hasFlag env.config bit := hasFlag_clearFlag hbit env.config

theorem orIf_selDeflate (cond : Bool) {flag : I32} (h : clearFlag flag MetaFlag.selDeflate = flag) :
    clearFlag (orIf cond MetaFlag.selDeflate flag) MetaFlag.selDeflate = flag := by
  cases cond with
  | false => exact h
  | true =>
    have hor : clearFlag (flag ||| MetaFlag.selDeflate) MetaFlag.selDeflate = clearFlag flag MetaFlag.selDeflate := by
      unfold clearFlag
      ext i hi
      simp only [BitVec.getElem_and, BitVec.getElem_or, BitVec.getElem_not]
      cases flag[i] <;> cases MetaFlag.selDeflate[i] <;> rfl
    exact hor.trans h

/-- A new entry differs in its deflate flag only. -/
theorem wreqFlag_zipOff (z : Option Zlib) (config : I32) (dip : DsetInfo) (sels : Selections) :
    wreqFlag z (clearFlag config FileConfig.selDeflate) dip sels =
      clearFlag (wreqFlag z config dip sels) MetaFlag.selDeflate := by
  have hrest (a b c : Bool) : clearFlag (orIf a MetaFlag.selEncode (orIf b MetaFlag.mulSel
      (orIf c MetaFlag.record 0))) MetaFlag.selDeflate = orIf a MetaFlag.selEncode (orIf b MetaFlag.mulSel
      (orIf c MetaFlag.record 0)) := by
    revert a b c
    decide
  unfold wreqFlag
  simp only
  rw [orIf_selDeflate _ (hrest ..), hasFlag_clearFlag_self, hasFlag_clearFlag (by decide), Bool.and_false]
  rfl

theorem wreqBody_clear (flag : I32) (dip : DsetInfo) (sels : Selections) (recnum : Option HSize) :
    wreqBody (clearFlag flag MetaFlag.selDeflate) dip sels recnum = wreqBody flag dip sels recnum := by
  unfold wreqBody
  simp only [hasFlag_clearFlag (show hasFlag MetaFlag.selDeflate MetaFlag.record = false by decide),
    hasFlag_clearFlag (show hasFlag MetaFlag.selDeflate MetaFlag.mulSel = false by decide),
    hasFlag_clearFlag (show hasFlag MetaFlag.selDeflate MetaFlag.selEncode = false by decide)]

theorem wreqMbsize_clear (flag : I32) (encdim nsel : ℕ) :
    wreqMbsize (clearFlag flag MetaFlag.selDeflate) encdim nsel = wreqMbsize flag encdim nsel := by
  unfold wreqMbsize
  simp only [hasFlag_clearFlag (show hasFlag MetaFlag.selDeflate MetaFlag.record = false by decide),
    hasFlag_clearFlag (show hasFlag MetaFlag.selDeflate MetaFlag.mulSel = false by decide),
    hasFlag_clearFlag (show hasFlag MetaFlag.selDeflate MetaFlag.selEncode = false by decide)]

/-- **The request made with compression off** is the one made with it on, uncompressed. -/
theorem wreqInit_zipOff {z : Option Zlib} {config id : I32} {mdsize : MpiOffset} {dip : DsetInfo} {sels : Selections}
    {r : WReq} (h : wreqInit z config id mdsize dip sels = .ok r) :
    wreqInit z (clearFlag config FileConfig.selDeflate) id mdsize dip sels = .ok r.uncompressed := by
  unfold wreqInit at h ⊢
  simp only [wreqFlag_zipOff, wreqBody_clear, wreqMbsize_clear,
    hasFlag_clearFlag (show hasFlag MetaFlag.selDeflate MetaFlag.record = false by decide)] at h ⊢
  split at h
  · cases h
  · rename_i hsize
    obtain rfl := Except.ok.inj h
    rw [if_neg hsize]
    rfl

/-! ## §2 — what is queued. -/

theorem andThen_eq_ok {α β : Type} {o : Outcome α} {k : RankFile → α → Outcome β} {f' : RankFile} {b : β}
    (h : o.andThen k = (f', .ok b)) : ∃ f a, o = (f, .ok a) ∧ k f a = (f', .ok b) := by
  obtain ⟨f, e | a⟩ := o
  · cases h
  · exact ⟨f, a, rfl, h⟩

/-- The request as it stands in the queue, with its data. -/
def WReq.queued (r : WReq) (db : DataBlock) : WReq :=
  { r with hdr := { r.hdr with fsize := db.size }, dbufs := [db] }

/-- **The stages of a write that is accepted**: it is encoded, takes its data and is queued. -/
theorem datasetWrite_ok {env : FileEnv} {c : WriteCall} {f f' : RankFile} (hsel : c.sels.nsel ≠ 0)
    (h : datasetWrite env c f = (f', .ok ())) :
    ∃ dip r f₁ r₁ f₂ db, Makes env c f dip r ∧ encodeReq env c f r = (f₁, .ok r₁) ∧
      (takeData env c dip f₁).andThen (filterData env c dip) = (f₂, .ok db) ∧
      enqueue env c dip f₂ r₁ db = (f', .ok ()) ∧ f₂.wreqs = f.wreqs ∧ f₂.mreqs = f.mreqs := by
  unfold datasetWrite at h
  rw [if_neg hsel] at h
  split at h
  · cases h
  rename_i hbuf
  split at h
  · rename_i dip hdset
    split at h
    · cases h
    split at h
    · cases h
    rename_i hgrant
    split at h
    · cases h
    rename_i r hreq
    obtain ⟨f₁, r₁, hencode, h⟩ := andThen_eq_ok h
    rw [← andThen_assoc] at h
    obtain ⟨f₂, db, hdata, h⟩ := andThen_eq_ok h
    have hf₁ : f₁.wreqs = f.wreqs ∧ f₁.mreqs = f.mreqs := by
      obtain ⟨⟨table, zbsize, zbuf, hfile⟩, -⟩ := encodeReq_file env c f r
      rw [hencode] at hfile
      rw [show f₁ = _ from hfile]
      exact ⟨rfl, rfl⟩
    have hf₂ : f₂.wreqs = f₁.wreqs ∧ f₂.mreqs = f₁.mreqs := by
      rcases data_cases env c dip f₁ with ⟨⟨e, heq⟩, -⟩ | ⟨⟨e, heq⟩, -⟩ | ⟨⟨db', heq⟩, -⟩
      · rw [hdata] at heq
        cases heq
      · rw [hdata] at heq
        cases heq
      · rw [hdata] at heq
        rw [(Prod.mk.inj heq).1]
        exact ⟨rfl, rfl⟩
    refine ⟨dip, r, f₁, r₁, f₂, db, ?_, hencode, hdata, h, hf₂.1.trans hf₁.1, hf₂.2.trans hf₁.2⟩
    exact ⟨by simpa using hbuf, by simpa using hgrant, hdset, hreq⟩
  · cases h

/-- **A write that is not merged** queues one request. -/
theorem datasetWrite_queues {env : FileEnv} {c : WriteCall} {f f' : RankFile} (hsel : c.sels.nsel ≠ 0)
    (hmerge : hasFlag env.config FileConfig.metadataMerge = false) (h : datasetWrite env c f = (f', .ok ())) :
    ∃ dip r f₁ r₁ db, Makes env c f dip r ∧ encodeReq env c f r = (f₁, .ok r₁) ∧
      ((takeData env c dip f₁).andThen (filterData env c dip)).2 = .ok db ∧
      f'.wreqs = f.wreqs ++ [r₁.queued db] := by
  obtain ⟨dip, r, f₁, r₁, f₂, db, hmakes, hencode, hdata, h, hwreqs, -⟩ := datasetWrite_ok hsel h
  refine ⟨dip, r, f₁, r₁, db, hmakes, hencode, by rw [hdata], ?_⟩
  unfold enqueue at h
  rw [hmerge, if_neg Bool.false_ne_true] at h
  unfold queueReq at h
  split at h
  · obtain ⟨rfl, -⟩ := Prod.mk.inj h
    show f₂.wreqs ++ [_] = _
    rw [hwreqs]
    rfl
  · cases h

/-- What the constructor makes. -/
theorem wreqInit_shape {z : Option Zlib} {config id : I32} {mdsize : MpiOffset} {dip : DsetInfo} {sels : Selections}
    {r : WReq} (h : wreqInit z config id mdsize dip sels = .ok r) :
    r.hdr.did = id ∧ r.hdr.flag = wreqFlag z config dip sels ∧
      r.body = wreqBody (wreqFlag z config dip sels) dip sels (recordOf dip sels) ∧
      r.selOff = (if hasFlag (wreqFlag z config dip sels) MetaFlag.record then sizeofHdr + sizeofOffset
        else sizeofHdr) ∧
      (sizeofHdr + r.body.length < 2 ^ 31 → r.hdr.metaSize.toInt = sizeofHdr + r.body.length) := by
  unfold wreqInit at h
  simp only at h
  split at h
  · cases h
  · rename_i hsize
    obtain rfl := Except.ok.inj h
    refine ⟨rfl, rfl, rfl, rfl, fun hlt => ?_⟩
    have hmb := not_not.mp hsize
    simp only at hlt ⊢
    rw [BitVec.toInt_eq_toNat_of_lt, BitVec.toNat_setWidth, hmb, Nat.mod_eq_of_lt (by omega), Nat.cast_add]
    rw [BitVec.toNat_setWidth, hmb, Nat.mod_eq_of_lt (by omega)]
    omega

/-- A request with a relative offset in the place of its selection. -/
def WReq.offsetAt (r : WReq) (flag : I32) (selOff : ℕ) (roff : MpiOffset) : WReq :=
  { r with
    hdr := { r.hdr with flag := flag }
    selOff := selOff
    body := r.body.take (selOff - sizeofHdr) ++ Lib.putWord sizeofOffset roff ++
      r.body.drop (selOff - sizeofHdr + sizeofOffset) }

/-- A reference keeps its record number, or stands for the record as well. -/
theorem refer_offsetAt (r : WReq) (mdsize : MpiOffset) (key : WReq) :
    let flag := clearFlag (r.hdr.flag ||| MetaFlag.selRef) MetaFlag.selDeflate
    (hasFlag flag MetaFlag.record = true ∧ r.refer mdsize key =
      r.offsetAt (clearFlag flag MetaFlag.record) (r.selOff - sizeofOffset) (key.metaOff - mdsize)) ∨
    r.refer mdsize key = r.offsetAt flag r.selOff (key.metaOff - mdsize) := by
  intro flag
  unfold WReq.refer
  dsimp only
  split_ifs with hfull
  · simp only [Bool.and_eq_true] at hfull
    exact Or.inl ⟨hfull.1.1, rfl⟩
  · exact Or.inr rfl

/-- A reference says so. -/
theorem refer_selRef (r : WReq) (mdsize : MpiOffset) (key : WReq) :
    hasFlag (r.refer mdsize key).hdr.flag MetaFlag.selRef = true := by
  have hset : hasFlag (clearFlag (r.hdr.flag ||| MetaFlag.selRef) MetaFlag.selDeflate) MetaFlag.selRef = true := by
    rw [hasFlag_clearFlag (by decide)]
    have hor := hasFlag_orIf true MetaFlag.selRef MetaFlag.selRef r.hdr.flag
    simpa [orIf] using hor
  unfold WReq.refer
  simp only
  split
  · rw [hasFlag_clearFlag (by decide)]
    exact hset
  · exact hset

/-- What compression leaves of a request, if it does not raise. -/
theorem compressReq_ok {env : FileEnv} {c : WriteCall} {f f₁ : RankFile} {r r₁ : WReq}
    (h : compressReq env c f r = (f₁, .ok r₁)) :
    r₁ = if env.zlib.isSome ∧ hasFlag r.hdr.flag MetaFlag.selDeflate = true then r.uncompressed else r := by
  by_cases hrun : env.zlib.isSome ∧ hasFlag r.hdr.flag MetaFlag.selDeflate = true
  · obtain ⟨z, hz⟩ := Option.isSome_iff_exists.mp hrun.1
    rw [if_pos hrun]
    exact (compressReq_run hz hrun.2 c f).2.2 r₁ (by rw [h])
  · rw [compressReq_skip hrun] at h
    rw [if_neg hrun]
    exact (Except.ok.inj (Prod.mk.inj h).2).symm

theorem refer_selOff_le (r : WReq) (mdsize : MpiOffset) (key : WReq) :
    (r.refer mdsize key).selOff ≤ r.selOff := by
  unfold WReq.refer
  simp only
  split <;> omega

/-- **What encoding makes of a request**: a reference, cut behind its offset, where the table has its selection, and
what compression leaves of it elsewhere. -/
theorem encodeReq_ok {env : FileEnv} {c : WriteCall} {f f₁ : RankFile} {r r₁ : WReq}
    (h : encodeReq env c f r = (f₁, .ok r₁)) :
    (∃ key, LookedUp env r ∧ env.hash.find f.wreqHash r = some key ∧
      (((r.refer f.mdsize key).selOff + sizeofOffset : ℕ) : Int) < r.hdr.metaSize.toInt ∧
      r₁ = (r.refer f.mdsize key).resize ((r.refer f.mdsize key).selOff + sizeofOffset)) ∨
    (LookedUp env r → env.hash.find f.wreqHash r = none) ∧
      r₁ = if env.zlib.isSome ∧ hasFlag r.hdr.flag MetaFlag.selDeflate = true then r.uncompressed else r := by
  rcases encodeReq_cases env c f r with ⟨hlook, key, hfind, heq⟩ | ⟨-, -, -, heq⟩ | ⟨hins, heq⟩ | ⟨hnot, heq⟩
  · left
    have hlt : (((r.refer f.mdsize key).selOff + sizeofOffset : ℕ) : Int) < r.hdr.metaSize.toInt := by
      have hle := refer_selOff_le r f.mdsize key
      have hsel : sizeofOffset < (r.hdr.metaSize.toInt - r.selOff).toNat := hlook.2
      omega
    refine ⟨key, hlook, hfind, hlt, ?_⟩
    rw [heq, shrinkReq, refer_metaSize, if_pos hlt] at h
    split at h
    · exact (Except.ok.inj (Prod.mk.inj h).2).symm
    · cases h
  · rw [heq] at h
    cases h
  · exact Or.inr ⟨fun _ => hins.2.1, compressReq_ok (heq.symm.trans h)⟩
  · exact Or.inr ⟨fun hlook => absurd hlook hnot, compressReq_ok (heq.symm.trans h)⟩

/-- **An entry that is no reference** goes through compression, and comes out of it uncompressed. -/
theorem encodeReq_plain {env : FileEnv} {c : WriteCall} {f f₁ : RankFile} {r r₁ : WReq}
    (h : encodeReq env c f r = (f₁, .ok r₁)) (hplain : hasFlag r₁.hdr.flag MetaFlag.selRef = false) :
    f₁.bused = f.bused ∧
      r₁ = if env.zlib.isSome ∧ hasFlag r.hdr.flag MetaFlag.selDeflate = true then r.uncompressed else r := by
  have hbused : f₁.bused = f.bused := by
    obtain ⟨⟨table, zbsize, zbuf, hfile⟩, -⟩ := encodeReq_file env c f r
    rw [h] at hfile
    rw [show f₁ = _ from hfile]
  refine ⟨hbused, ?_⟩
  rcases encodeReq_ok h with ⟨key, -, -, -, rfl⟩ | ⟨-, hr₁⟩
  · have href : hasFlag (r.refer f.mdsize key).hdr.flag MetaFlag.selRef = false := hplain
    rw [refer_selRef] at href
    cases href
  · exact hr₁

theorem runFilters_zipOff (env : FileEnv) (filters : List Filter) (bytes : List UInt8) :
    runFilters env.zipOff filters bytes = runFilters env filters bytes := by
  induction filters generalizing bytes with
  | nil => rfl
  | cons fl fls ih =>
    unfold runFilters
    simp only [ih]
    rfl

/-- The data of a write does not depend on how its entry is encoded. -/
theorem data_zipOff (env : FileEnv) (c : WriteCall) (dip : DsetInfo) {f g : RankFile} (h : g.bused = f.bused) :
    ((takeData env.zipOff c dip g).andThen (filterData env.zipOff c dip)).2 =
      ((takeData env c dip f).andThen (filterData env c dip)).2 := by
  have hballoc (bused size : HSize) (grant : Bool) :
      balloc env.zipOff bused size grant = balloc env bused size grant := rfl
  have hfilter {f g : RankFile} (h : g.bused = f.bused) (db : DataBlock) :
      (filterData env.zipOff c dip g db).2 = (filterData env c dip f db).2 := by
    unfold filterData
    rw [runFilters_zipOff, h]
    split
    · rfl
    · split
      · rfl
      · simp only [hballoc]
        split <;> rfl
  unfold takeData
  rw [h]
  split
  · exact hfilter h _
  · simp only [hballoc]
    split
    · simp only [Outcome.andThen]
      exact hfilter (by rfl) _
    · rfl

/-- What the constructor makes of a write of several blocks is to be compressed. -/
theorem wreqInit_selDeflate {z : Zlib} {config id : I32} {mdsize : MpiOffset} {dip : DsetInfo} {sels : Selections}
    {r : WReq} (hmulti : 1 < sels.nsel) (hconfig : hasFlag config FileConfig.selDeflate = true)
    (h : wreqInit (some z) config id mdsize dip sels = .ok r) : hasFlag r.hdr.flag MetaFlag.selDeflate = true := by
  unfold wreqInit at h
  simp only at h
  split at h
  · cases h
  · obtain rfl := Except.ok.inj h
    show hasFlag (wreqFlag (some z) config dip sels) MetaFlag.selDeflate = true
    rw [wreqFlag_selDeflate, hconfig, decide_eq_true hmulti]
    rfl

section Entry

variable {env : FileEnv} {z : Zlib} {c : WriteCall} {f f' g' : RankFile} {q q' : WReq}

/-- **The entry queued with compression on** is the one queued with it off, and is not compressed. -/
theorem datasetWrite_zipOff (hz : env.zlib = some z) (hconfig : hasFlag env.config FileConfig.selDeflate = true)
    (hmerge : hasFlag env.config FileConfig.metadataMerge = false) (hmulti : 1 < c.sels.nsel)
    (h : datasetWrite env c f = (f', .ok ())) (hq : f'.wreqs = f.wreqs ++ [q])
    (hplain : hasFlag q.hdr.flag MetaFlag.selRef = false) (h' : datasetWrite env.zipOff c f = (g', .ok ()))
    (hq' : g'.wreqs = f.wreqs ++ [q']) (hplain' : hasFlag q'.hdr.flag MetaFlag.selRef = false) :
    q = q' ∧ hasFlag q.hdr.flag MetaFlag.selDeflate = false := by
  have hmerge' : hasFlag env.zipOff.config FileConfig.metadataMerge = false :=
    (zipOff_flag env (by decide)).trans hmerge
  have hsel : c.sels.nsel ≠ 0 := by omega
  obtain ⟨dip, r, f₁, r₁, db, ⟨-, -, hdset, hreq⟩, hencode, hdata, hqueue⟩ := datasetWrite_queues hsel hmerge h
  obtain ⟨dip', r', f₁', r₁', db', ⟨-, -, hdset', hreq'⟩, hencode', hdata', hqueue'⟩ :=
    datasetWrite_queues hsel hmerge' h'
  obtain rfl := Option.some.inj (Option.some.inj (hdset.symm.trans hdset'))
  obtain rfl : q = r₁.queued db := by
    have hlast := hq.symm.trans hqueue
    simpa using hlast
  obtain rfl : q' = r₁'.queued db' := by
    have hlast := hq'.symm.trans hqueue'
    simpa using hlast
  obtain rfl : r' = r.uncompressed := Except.ok.inj (hreq'.symm.trans (wreqInit_zipOff hreq))
  -- It is marked for compression, and compression clears the mark whatever comes out.
  have hflag : hasFlag r.hdr.flag MetaFlag.selDeflate = true := by
    rw [hz] at hreq
    exact wreqInit_selDeflate hmulti hconfig hreq
  have hclear : hasFlag r.uncompressed.hdr.flag MetaFlag.selDeflate = false := hasFlag_clearFlag_self ..
  obtain ⟨hbused, hr₁⟩ := encodeReq_plain hencode hplain
  obtain ⟨hbused', hr₁'⟩ := encodeReq_plain hencode' hplain'
  rw [if_pos ⟨by rw [hz]; rfl, hflag⟩] at hr₁
  rw [if_neg fun hrun => Bool.false_ne_true (hclear.symm.trans hrun.2)] at hr₁'
  subst hr₁ hr₁'
  rw [data_zipOff env c dip (hbused'.trans hbused.symm), hdata] at hdata'
  obtain rfl := Except.ok.inj hdata'
  exact ⟨rfl, hclear⟩

/-! ## §3 — compressed entries. -/

/-- The selection of an entry, as it is given to zlib. -/
def WReq.selection (r : WReq) : List UInt8 := r.selBytes.take r.selsize

/-- The selection gets shorter when it is compressed: `out` is what zlib makes of it, in no more room than it takes
itself. -/
def Shortens (z : Zlib) (sel out : List UInt8) : Prop :=
  z.compress sel sel.length = .ended out ∧ out.length < sel.length

/-- **`CompressedEntry`** — the entry `q` of a write whose entry is `q'` with compression off: it is marked exactly when
the selection gets shorter, it has then the size of the shorter selection, and it is decoded to the same blocks. -/
structure CompressedEntry (z : Zlib) (dip : DsetInfo) (q q' : WReq) : Prop where
  flag : hasFlag q.hdr.flag MetaFlag.selDeflate = true ↔ ∃ out, Shortens z q'.selection out
  size : ∀ out, Shortens z q'.selection out → q.hdr.metaSize.toInt = (q'.selOff + out.length : ℕ)
  blocks : (metaentryDecode (some z) dip q.metaBuf).map MetaEntry.sels =
    (metaentryDecode (some z) dip q'.metaBuf).map MetaEntry.sels

/-- **`compressedEntry_iff`** — for every write of several blocks that is queued as no reference. -/
theorem compressedEntry_iff (dip : DsetInfo) (hz : env.zlib = some z)
    (hconfig : hasFlag env.config FileConfig.selDeflate = true)
    (hmerge : hasFlag env.config FileConfig.metadataMerge = false) (hmulti : 1 < c.sels.nsel)
    (h : datasetWrite env c f = (f', .ok ())) (hq : f'.wreqs = f.wreqs ++ [q])
    (hplain : hasFlag q.hdr.flag MetaFlag.selRef = false) (h' : datasetWrite env.zipOff c f = (g', .ok ()))
    (hq' : g'.wreqs = f.wreqs ++ [q']) (hplain' : hasFlag q'.hdr.flag MetaFlag.selRef = false) :
    CompressedEntry z dip q q' ↔ ¬ ∃ out, Shortens z q'.selection out := by
  obtain ⟨rfl, hclear⟩ := datasetWrite_zipOff hz hconfig hmerge hmulti h hq hplain h' hq' hplain'
  constructor
  · intro hentry hshort
    rw [hentry.flag.mpr hshort] at hclear
    cases hclear
  · intro hlong
    refine ⟨iff_of_false ?_ hlong, fun out hshort => absurd ⟨out, hshort⟩ hlong, rfl⟩
    rw [hclear]
    exact Bool.false_ne_true

end Entry

/-- The entry of a write of two blocks, behind its header: the number of blocks, the starts, and the counts. -/
def twoBlocksSelection : List UInt8 :=
  [2, 0, 0, 0, 0, 0, 0, 0, 0, 0, 0, 0, 4, 0, 0, 0, 0, 0, 0, 0, 1, 0, 0, 0, 0, 0, 0, 0, 1, 0, 0, 0, 0, 0, 0, 0]

/-- What zlib makes of it. -/
def twoBlocksZipped : List UInt8 := [120, 156, 99, 98, 64, 0, 22, 40, 205, 136, 70, 3, 0, 0, 228, 0, 9]

/-- zlib on this selection. -/
def twoBlocksZlib : Zlib where
  compress := fun bytes room =>
    if bytes = twoBlocksSelection ∧ twoBlocksZipped.length ≤ room then .ended twoBlocksZipped else .filled
  decompress := fun bytes room =>
    if bytes = twoBlocksZipped ∧ twoBlocksSelection.length ≤ room then some twoBlocksSelection else none

/-- A file with metadata compression. -/
def zipEnv : FileEnv where
  zlib := some twoBlocksZlib
  deflate := fun _ => none
  config := FileConfig.selDeflate
  bsize := none
  hash := HashFind.scan

/-- A write of two elements that are no neighbours. -/
def twoBlocks : WriteCall where
  did := 0
  sels := { ndim := 1, sels := [⟨[0], [1]⟩, ⟨[4], [1]⟩], rank_eq := by decide, nsel_lt := by decide }
  memEsize := 4
  inPlace := true
  hasBuf := true
  data := [1, 0, 0, 0, 2, 0, 0, 0]
  grants := .all

/-- What it queues. -/
def twoBlocksReq : WReq where
  hdr := ⟨64, 0, MetaFlag.mulSel, 0, 8⟩
  body := twoBlocksSelection
  selOff := 28
  nsel := 2
  metaOff := 0
  dbufs := [⟨[1, 0, 0, 0, 2, 0, 0, 0], 8, none⟩]

theorem twoBlocks_writes (env : FileEnv) (h : (datasetWrite env twoBlocks freshFile).2 = .ok ()) :
    datasetWrite env twoBlocks freshFile = ((datasetWrite env twoBlocks freshFile).1, .ok ()) := Prod.ext rfl h

theorem twoBlocks_shortens : Shortens twoBlocksZlib twoBlocksReq.selection twoBlocksZipped :=
  ⟨by decide, by decide⟩

/-- The 36 bytes of the selection are compressed to 17, and stored as they were. -/
theorem twoBlocks_uncompressed :
    ¬ CompressedEntry twoBlocksZlib (DsetInfo.plain 4 [16] [16] [1] (by decide) rfl rfl) twoBlocksReq
      twoBlocksReq := by
  rw [compressedEntry_iff _ rfl rfl rfl (by decide) (twoBlocks_writes zipEnv (by decide)) (by decide) (by decide)
    (twoBlocks_writes zipEnv.zipOff (by decide)) (by decide) (by decide)]
  exact not_not_intro ⟨_, twoBlocks_shortens⟩

theorem twoBlocks_notMarked :
    (datasetWrite zipEnv twoBlocks freshFile).2 = .ok () ∧
      (datasetWrite zipEnv twoBlocks freshFile).1.wreqs = [twoBlocksReq] ∧
      (datasetWrite zipEnv.zipOff twoBlocks freshFile).1.wreqs = [twoBlocksReq] ∧
      ∀ dip, ¬ CompressedEntry twoBlocksZlib dip twoBlocksReq twoBlocksReq := by
  refine ⟨by decide, by decide, by decide, ?_⟩
  intro dip hentry
  exact absurd (hentry.flag.mpr ⟨_, twoBlocks_shortens⟩) (by decide)

end LogVol
