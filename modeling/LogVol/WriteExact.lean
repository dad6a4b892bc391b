/-
# LogVol.WriteExact — which writes keep every size they are made of.

The length of a data buffer that MPI is given, the length that the filters return and the size of an entry are
`int`s made of 64-bit sizes; nothing is checked on the way. `SizesExact` says that a queue has the value of each of
them: what a flush then gives to MPI is every buffer and every entry, as they are. `write_exact_iff` is the step:
a write that is accepted keeps it so if and only if its sizes fit (`WriteFits`). `writes_exact_iff` is the run.
-/
import LogVol.BufferAccount
import LogVol.MetaFlush

namespace LogVol

open Lib (putWord)

/-! ## §1 — sizes with their values. -/

/-- `mlens[j]`, the number of bytes MPI is given for a buffer. -/
def DataBlock.mlen (d : DataBlock) : ℤ := cInt d.size.toNat

/-- MPI is given the size of every buffer, the sizes add up to `fsize`, and `meta_size` is that of the entry. -/
structure WReq.SizesExact (r : WReq) : Prop where
  counts : ∀ d ∈ r.dbufs, d.mlen = d.xbuf.length
  total : (r.dbufs.map DataBlock.mlen).sum = r.hdr.fsize.toInt
  entry : r.hdr.metaSize.toInt = r.metaBuf.length

/-- The same of a merged request, which goes on where its entry ends. -/
structure MergedWReq.SizesExact (m : MergedWReq) : Prop where
  req : m.toWReq.SizesExact
  pos : m.mbufp = m.hdr.metaSize.toInt
  kept : m.lost = false

structure RankFile.SizesExact (f : RankFile) : Prop where
  queued : ∀ r ∈ f.wreqs, r.SizesExact
  merged : ∀ m, some m ∈ f.mreqs → m.SizesExact

/-- The bytes of the data of a write, as they are queued. -/
def WriteCall.bytes (env : FileEnv) (c : WriteCall) (dip : DsetInfo) : List UInt8 :=
  if dip.filters = [] then c.data else (c.filtered env dip).toOption.getD []

/-- The merged request that a write is appended to. -/
def mergedSlot (env : FileEnv) (c : WriteCall) (dip : DsetInfo) (old : Option MergedWReq) : MergedWReq :=
  old.getD (mergedInit env.config (BitVec.ofNat 32 c.did) dip 1)

/-- The selection as it is appended to a merged request. -/
def MergedWReq.selection (m : MergedWReq) (dip : DsetInfo) (sels : Selections) : List UInt8 :=
  sels.encode (if hasFlag m.hdr.flag FileConfig.selEncode then some dip.dsteps else none) 0

/-- The sizes of a write to the dataset fit: its entry, its data as it is queued, and the merged request with the
two of them, where there is one. -/
structure FitsDset (env : FileEnv) (c : WriteCall) (f : RankFile) (dip : DsetInfo) : Prop where
  entry : entrySize env.zlib env.config dip c.sels < 2 ^ 31
  data : (c.bytes env dip).length < 2 ^ 31
  merged : hasFlag env.config FileConfig.metadataMerge = true → ∀ old, f.mreqs[c.did]? = some old →
    (mergedSlot env c dip old).hdr.metaSize.toInt +
        ((mergedSlot env c dip old).selection dip c.sels).length < 2 ^ 31 ∧
      (mergedSlot env c dip old).hdr.fsize.toInt + (c.bytes env dip).length < 2 ^ 63

/-- The sizes of a write fit. -/
def WriteFits (env : FileEnv) (c : WriteCall) (f : RankFile) : Prop :=
  c.sels.nsel ≠ 0 → ∀ dip, f.dsetsInfo[c.did]? = some (some dip) → FitsDset env c f dip

/-- `meta_size` is what is allocated for the entry, when it is made. -/
def AllocExact (env : FileEnv) (c : WriteCall) (f : RankFile) : Prop :=
  c.sels.nsel ≠ 0 → ∀ dip r, Makes env c f dip r → r.hdr.metaSize.toInt = r.metaBuf.length

/-- A selection in the dataset, and as much data as it selects. -/
def WriteCall.Filled (c : WriteCall) (f : RankFile) : Prop :=
  ∀ dip, f.dsetsInfo[c.did]? = some (some dip) → c.sels.ndim = dip.ndim ∧ c.data.length < 2 ^ 64 ∧
    c.data.length = dip.esize.toNat * (c.sels.sels.map Block.elems).sum

/-! ## §2 — the entry. -/

theorem WReq.metaBuf_length (r : WReq) : r.metaBuf.length = sizeofHdr + r.body.length := by
  rw [WReq.metaBuf, List.length_append, MetaHdr.bytes_length]

theorem toInt_ofNat_eq_iff {n : ℕ} : (BitVec.ofNat 32 n).toInt = n ↔ n < 2 ^ 31 := by
  refine ⟨?_, toInt_ofNat_of_lt⟩
  intro h
  have hlt : (BitVec.ofNat 32 n).toInt < 2 ^ 31 := BitVec.toInt_lt
  omega

/-- **A new entry** has its size in `meta_size` if and only if that fits. -/
theorem wreqInit_exact_iff {z : Option Zlib} {config id : I32} {mdsize : MpiOffset} {dip : DsetInfo}
    {sels : Selections} {r : WReq} (hrank : sels.ndim = dip.ndim)
    (h : wreqInit z config id mdsize dip sels = .ok r) :
    r.hdr.metaSize.toInt = r.metaBuf.length ↔ entrySize z config dip sels < 2 ^ 31 := by
  have hwords : selWords z config dip sels < 2 ^ 31 := by
    by_contra hge
    rw [wreqInit_error z config dip sels id mdsize hrank (not_lt.mp hge)] at h
    cases h
  rw [wreqInit_eq z config dip sels id mdsize hrank hwords] at h
  obtain rfl := Except.ok.inj h
  have hlen : (wreqOf z config dip sels id mdsize).metaBuf.length = entrySize z config dip sels :=
    WReq.metaBuf_length _
  rw [hlen]
  exact toInt_ofNat_eq_iff

/-- Cutting an entry makes it as long as it says. -/
theorem resize_exact {r : WReq} {n : ℕ} (hlo : sizeofHdr ≤ n) (hle : n ≤ r.metaBuf.length) (hlt : n < 2 ^ 31) :
    (r.resize n).hdr.metaSize.toInt = (r.resize n).metaBuf.length := by
  rw [WReq.metaBuf_length] at hle ⊢
  show (BitVec.ofNat 32 n).toInt = ((sizeofHdr + (r.body.take (n - sizeofHdr)).length : ℕ) : ℤ)
  rw [toInt_ofNat_of_lt hlt, List.length_take]
  omega

theorem offsetAt_metaBuf {r : WReq} {selOff : ℕ} (flag : I32) (roff : MpiOffset)
    (hfit : selOff - sizeofHdr + sizeofOffset ≤ r.body.length) :
    (r.offsetAt flag selOff roff).metaBuf.length = r.metaBuf.length := by
  rw [WReq.metaBuf_length, WReq.metaBuf_length]
  have hbody : (r.offsetAt flag selOff roff).body.length = r.body.length := by
    simp only [WReq.offsetAt, List.length_append, List.length_take, List.length_drop, Lib.putWord_length]
    omega
  rw [hbody]

/-- Behind the header there is the record number, or the selection. -/
theorem refer_selOff {z : Option Zlib} {config id : I32} {mdsize : MpiOffset} {dip : DsetInfo} {sels : Selections}
    {r : WReq} (h : wreqInit z config id mdsize dip sels = .ok r) (mdsize' : MpiOffset) (key : WReq) :
    sizeofHdr ≤ (r.refer mdsize' key).selOff := by
  obtain ⟨-, hflag, -, hoff, -⟩ := wreqInit_shape h
  rcases refer_offsetAt r mdsize' key with ⟨hrec, heq⟩ | heq
  · have hor := hasFlag_orIf true MetaFlag.selRef MetaFlag.record r.hdr.flag
    rw [hasFlag_clearFlag (by decide)] at hrec
    have hrec : hasFlag (wreqFlag z config dip sels) MetaFlag.record = true := by
      rw [← hflag]
      exact hor.symm.trans hrec
    rw [if_pos hrec] at hoff
    rw [heq]
    show sizeofHdr ≤ r.selOff - sizeofOffset
    omega
  · rw [heq]
    show sizeofHdr ≤ r.selOff
    split at hoff <;> omega

/-- **Encoding keeps the size of an entry.** -/
theorem encodeReq_exact {env : FileEnv} {c : WriteCall} {f f₁ : RankFile} {id : I32} {dip : DsetInfo} {r r₁ : WReq}
    (hinit : wreqInit env.zlib env.config id f.mdsize dip c.sels = .ok r)
    (hr : r.hdr.metaSize.toInt = r.metaBuf.length) (h : encodeReq env c f r = (f₁, .ok r₁)) :
    r₁.hdr.metaSize.toInt = r₁.metaBuf.length := by
  rcases encodeReq_ok h with ⟨key, -, -, hlt, rfl⟩ | ⟨-, rfl⟩
  · have hlo := refer_selOff hinit f.mdsize key
    have hmax : r.hdr.metaSize.toInt < 2 ^ 31 := BitVec.toInt_lt
    rw [hr] at hlt hmax
    have hbody := r.metaBuf_length
    have hlen : (r.refer f.mdsize key).metaBuf.length = r.metaBuf.length := by
      rcases refer_offsetAt r f.mdsize key with ⟨-, heq⟩ | heq
      · rw [heq] at hlt hlo ⊢
        apply offsetAt_metaBuf
        change sizeofHdr ≤ r.selOff - sizeofOffset at hlo
        change ((r.selOff - sizeofOffset + sizeofOffset : ℕ) : ℤ) < _ at hlt
        omega
      · rw [heq] at hlt hlo ⊢
        apply offsetAt_metaBuf
        change sizeofHdr ≤ r.selOff at hlo
        change ((r.selOff + sizeofOffset : ℕ) : ℤ) < _ at hlt
        omega
    apply resize_exact <;> omega
  · split
    · rw [WReq.metaBuf_length]
      exact hr.trans (congrArg Nat.cast r.metaBuf_length)
    · exact hr

/-! ## §3 — the data. -/

/-- The number of elements of a selection, in 64-bit words. -/
theorem getSelSize_eq (sels : Selections) :
    sels.getSelSize = BitVec.ofNat 64 (sels.sels.map Block.elems).sum := by
  have hfold : ∀ (bs : List Block) (n : ℕ),
      bs.foldl (fun n b => n + b.selSize) (BitVec.ofNat 64 n) = BitVec.ofNat 64 (n + (bs.map Block.elems).sum) := by
    intro bs
    induction bs with
    | nil => exact fun n => rfl
    | cons b bs ih =>
      intro n
      have hsize : b.selSize = BitVec.ofNat 64 b.elems := by
        have hbytes := blockBytes_eq 1 b
        rw [show (1 : HSize).toNat = 1 from rfl, Nat.one_mul] at hbytes
        exact hbytes
      rw [List.foldl_cons, hsize, ← BitVec.ofNat_add, ih, List.map_cons, List.sum_cons, Nat.add_assoc]
  have hall := hfold sels.sels 0
  rw [Nat.zero_add] at hall
  exact hall

/-- The size of the data of a filled write is that of the selection. -/
theorem filled_size {c : WriteCall} {f : RankFile} (hc : c.Filled f) {dip : DsetInfo}
    (hdset : f.dsetsInfo[c.did]? = some (some dip)) : (c.sels.getSelSize * dip.esize).toNat = c.data.length := by
  obtain ⟨-, hlt, hlen⟩ := hc dip hdset
  rw [getSelSize_eq, BitVec.toNat_mul, BitVec.toNat_ofNat, Nat.mod_mul_mod, Nat.mul_comm, ← hlen,
    Nat.mod_eq_of_lt hlt]

/-- What the stages of the data make: the bytes of the write, and their size. -/
theorem data_bytes {env : FileEnv} {c : WriteCall} {dip : DsetInfo} {f f' : RankFile} {db : DataBlock}
    (h : (takeData env c dip f).andThen (filterData env c dip) = (f', .ok db)) :
    db.xbuf = c.bytes env dip ∧
      db.size = if dip.filters = [] then c.sels.getSelSize * dip.esize else filteredSize (c.bytes env dip) := by
  obtain ⟨f₁, db₁, htake, hfilter⟩ := andThen_eq_ok h
  have hdb₁ : db₁.xbuf = c.data ∧ db₁.size = c.sels.getSelSize * dip.esize := by
    unfold takeData at htake
    dsimp only at htake
    -- From the user's buffer or from an internal one; the size is worked out before either.
    split at htake
    · obtain rfl := Except.ok.inj (Prod.mk.inj htake).2
      exact ⟨rfl, rfl⟩
    · split at htake
      · obtain rfl := Except.ok.inj (Prod.mk.inj htake).2
        exact ⟨rfl, rfl⟩
      · cases htake
  unfold filterData at hfilter
  split at hfilter
  · rename_i hnone
    obtain rfl := Except.ok.inj (Prod.mk.inj hfilter).2
    rw [WriteCall.bytes, if_pos hnone, if_pos hnone]
    exact hdb₁
  · rename_i hsome
    split at hfilter
    · cases hfilter
    · rename_i buf hrun
      have hfiltered : c.filtered env dip = .ok buf := by
        rw [← hrun, filterInput, hdb₁.1, hdb₁.2]
        rfl
      have hbytes : c.bytes env dip = buf := by
        rw [WriteCall.bytes, if_neg hsome, hfiltered]
        rfl
      rw [hbytes, if_neg hsome]
      dsimp only at hfilter
      split at hfilter
      · obtain rfl := Except.ok.inj (Prod.mk.inj hfilter).2
        exact ⟨rfl, rfl⟩
      · cases hfilter

section Data

variable {env : FileEnv} {c : WriteCall} {dip : DsetInfo} {f f' : RankFile} {db : DataBlock}
  (hsize : (c.sels.getSelSize * dip.esize).toNat = c.data.length)
  (h : (takeData env c dip f).andThen (filterData env c dip) = (f', .ok db))
include hsize h

theorem data_size (hlt : (c.bytes env dip).length < 2 ^ 31) : db.size.toNat = (c.bytes env dip).length := by
  obtain ⟨-, hdb⟩ := data_bytes h
  rw [hdb]
  split
  · rename_i hnone
    rw [hsize, WriteCall.bytes, if_pos hnone]
  · rw [filteredSize, cInt_of_range (by omega) (by omega), BitVec.ofInt_natCast, BitVec.toNat_ofNat]
    exact Nat.mod_eq_of_lt (by omega)

/-- **MPI is given the size of a buffer** if and only if that fits. -/
theorem mlen_eq_iff : db.mlen = db.xbuf.length ↔ (c.bytes env dip).length < 2 ^ 31 := by
  rw [(data_bytes h).1]
  constructor
  · intro hlen
    have hlt : db.mlen < 2 ^ 31 := cInt_lt _
    omega
  · intro hlt
    rw [DataBlock.mlen, data_size hsize h hlt]
    exact cInt_of_range (by omega) (by omega)

/-- **A request with its data** is exact if and only if the data fits. -/
theorem queued_exact_iff {r : WReq} (hr : r.hdr.metaSize.toInt = r.metaBuf.length) :
    (r.queued db).SizesExact ↔ (c.bytes env dip).length < 2 ^ 31 := by
  have hiff := mlen_eq_iff hsize h
  constructor
  · intro hexact
    exact hiff.mp (hexact.counts db (List.mem_singleton_self db))
  · intro hlt
    have hlen := hiff.mpr hlt
    refine ⟨?_, ?_, ?_⟩
    · intro d hd
      rw [List.mem_singleton.mp hd]
      exact hlen
    · show [db.mlen].sum = db.size.toInt
      rw [List.sum_singleton, hlen, (data_bytes h).1, BitVec.toInt_eq_toNat_of_lt, data_size hsize h hlt]
      rw [data_size hsize h hlt]
      omega
    · rw [WReq.metaBuf_length]
      exact hr.trans (congrArg Nat.cast r.metaBuf_length)

end Data

/-! ## §4 — merged requests. -/

theorem selection_length (m : MergedWReq) {dip : DsetInfo} {sels : Selections} (hrank : sels.ndim = dip.ndim) :
    (m.selection dip sels).length = sizeofOffset *
      (if hasFlag m.hdr.flag FileConfig.selEncode then sels.nsel * 2 else dip.ndim * sels.nsel * 2) := by
  unfold MergedWReq.selection
  split
  · rw [encode_length_offsets]
  · rw [encode_length_coords, hrank, Nat.sub_zero]

/-- `msize` is the size of the selection, where that fits. -/
theorem msize_eq {m : MergedWReq} {dip : DsetInfo} {sels : Selections} (hrank : sels.ndim = dip.ndim)
    (hlt : (m.selection dip sels).length < 2 ^ 31) :
    (m.msize dip sels).toInt = (m.selection dip sels).length := by
  have hlen : (m.selection dip sels).length = _ := selection_length m hrank
  have h8 : sizeofOffset = 8 := rfl
  have hword : m.msize dip sels = BitVec.ofNat 64 (m.selection dip sels).length := by
    rw [hlen] at hlt ⊢
    unfold MergedWReq.msize
    dsimp only
    split
    · rename_i hflag
      rw [if_pos hflag, h8] at hlt
      rw [cInt_of_range (by omega) (by omega), mul_comm sizeofOffset, BitVec.ofNat_mul]
      rfl
    · rename_i hflag
      rw [if_neg hflag, h8] at hlt
      rcases Nat.eq_zero_or_pos dip.ndim with hzero | hpos
      · rw [hzero]
        simp
      · have hle : 1 * sels.nsel ≤ dip.ndim * sels.nsel := Nat.mul_le_mul_right _ hpos
        rw [cInt_of_range (by omega) (by omega)]
        have hcast : BitVec.ofInt 64 ((sels.nsel * 2 : ℕ) : ℤ) = BitVec.ofNat 64 (sels.nsel * 2) := rfl
        push_cast at hcast
        rw [hcast, ← BitVec.ofNat_mul, ← BitVec.ofNat_mul]
        congr 1
        ring
  rw [hword, BitVec.toInt_eq_toNat_of_lt, BitVec.toNat_ofNat, Nat.mod_eq_of_lt (by omega)]
  rw [BitVec.toNat_ofNat, Nat.mod_eq_of_lt (by omega)]
  omega

/-- A merged request by its fields. -/
theorem MergedWReq.sizesExact_iff {m : MergedWReq} (hkept : m.lost = false) :
    m.SizesExact ↔ (∀ d ∈ m.dbufs, d.mlen = d.xbuf.length) ∧
      (m.dbufs.map DataBlock.mlen).sum = m.hdr.fsize.toInt ∧
        m.hdr.metaSize.toInt = ((sizeofHdr + sizeofInt + m.packed.length : ℕ) : ℤ) ∧
          m.mbufp = m.hdr.metaSize.toInt := by
  have hlen : m.toWReq.metaBuf.length = sizeofHdr + sizeofInt + m.packed.length := by
    have hbody : m.toWReq.body.length = sizeofInt + m.packed.length := by
      rw [MergedWReq.toWReq, hkept]
      simp
    rw [WReq.metaBuf_length, hbody, Nat.add_assoc]
  constructor
  · rintro ⟨⟨hcounts, htotal, hentry⟩, hpos, -⟩
    rw [hlen] at hentry
    exact ⟨hcounts, htotal, hentry, hpos⟩
  · rintro ⟨hcounts, htotal, hentry, hpos⟩
    rw [← hlen] at hentry
    exact ⟨⟨hcounts, htotal, hentry⟩, hpos, hkept⟩

/-- What an append makes of the fields of a request. -/
structure Appended (dip : DsetInfo) (db : DataBlock) (sels : Selections) (m m' : MergedWReq) : Prop where
  packed : m'.packed = m.packed ++ m.selection dip sels
  mbufp : m'.mbufp = m.mbufp + (m.msize dip sels).toInt
  metaSize : m'.hdr.metaSize = BitVec.ofInt 32 m'.mbufp
  fsize : m'.hdr.fsize = m.hdr.fsize + db.size
  dbufs : m'.dbufs = m.dbufs ++ [db]
  lost : m'.lost = m.lost

/-- **An append** puts the selection behind the others. -/
theorem append_spec {m m' : MergedWReq} {dip : DsetInfo} {db : DataBlock} {sels : Selections} (hm : m.SizesExact)
    (h : m.append dip db sels = .ok m') : Appended dip db sels m m' := by
  obtain ⟨m₁, hreserve, h⟩ := Lib.bind_eq_ok.mp h
  obtain ⟨packed, hwrite, h⟩ := Lib.bind_eq_ok.mp h
  obtain rfl := Except.ok.inj h
  have hm₁ : ∃ alloc, m₁ = { m with alloc := alloc } := by
    unfold MergedWReq.reserve at hreserve
    split at hreserve
    · obtain ⟨alloc, -, hreserve⟩ := Lib.bind_eq_ok.mp hreserve
      obtain rfl := Except.ok.inj hreserve
      refine ⟨alloc, ?_⟩
      rw [← hm.pos]
    · obtain rfl := Except.ok.inj hreserve
      exact ⟨m.alloc, rfl⟩
  obtain ⟨alloc, rfl⟩ := hm₁
  refine ⟨?_, rfl, rfl, rfl, rfl, rfl⟩
  -- the buffer ends where the entry does
  obtain ⟨-, -, hentry, hpos⟩ := (MergedWReq.sizesExact_iff hm.kept).mp hm
  have hoff : m.mbufp - (sizeofHdr + sizeofInt) = m.packed.length := by
    rw [hpos, hentry]
    push_cast
    omega
  have hwrite : ({ m with alloc := alloc } : MergedWReq).write (m.selection dip sels) = .ok packed := hwrite
  unfold MergedWReq.write at hwrite
  dsimp only at hwrite
  rw [hoff] at hwrite
  split at hwrite
  · cases hwrite
  · obtain rfl := Except.ok.inj hwrite
    show _ = m.packed ++ m.selection dip sels
    rw [Int.toNat_natCast, List.take_length, List.drop_eq_nil_of_le (Nat.le_add_right _ _), List.append_nil]

/-- **A merged request with one more selection** is exact if and only if the data and the entry fit. -/
theorem append_exact_iff {env : FileEnv} {c : WriteCall} {dip : DsetInfo} {f f' : RankFile} {db : DataBlock}
    (hsize : (c.sels.getSelSize * dip.esize).toNat = c.data.length)
    (hdata : (takeData env c dip f).andThen (filterData env c dip) = (f', .ok db)) (hrank : c.sels.ndim = dip.ndim)
    {m m' : MergedWReq} (hm : m.SizesExact) (h : m.append dip db c.sels = .ok m') :
    m'.SizesExact ↔ (c.bytes env dip).length < 2 ^ 31 ∧
      m.hdr.metaSize.toInt + (m.selection dip c.sels).length < 2 ^ 31 ∧
        m.hdr.fsize.toInt + (c.bytes env dip).length < 2 ^ 63 := by
  have happ := append_spec hm h
  have hmlen := mlen_eq_iff hsize hdata
  have hbytes := (data_bytes hdata).1
  obtain ⟨hcounts₀, htotal₀, hentry₀, hpos₀⟩ := (MergedWReq.sizesExact_iff hm.kept).mp hm
  rw [MergedWReq.sizesExact_iff (happ.lost.trans hm.kept), happ.dbufs, happ.packed, happ.metaSize, happ.fsize]
  have hsum : ((m.dbufs ++ [db]).map DataBlock.mlen).sum = m.hdr.fsize.toInt + db.mlen := by
    rw [List.map_append, List.sum_append, htotal₀, List.map_singleton, List.sum_singleton]
  rw [hsum, List.length_append]
  constructor
  · rintro ⟨hcounts, htotal, hentry, hpos⟩
    have hcount := hcounts db (List.mem_append_right _ (List.mem_singleton_self db))
    refine ⟨hmlen.mp hcount, ?_, ?_⟩
    · have hmax : (BitVec.ofInt 32 m'.mbufp).toInt < 2 ^ 31 := BitVec.toInt_lt
      push_cast at hentry hentry₀
      omega
    · have hmax : (m.hdr.fsize + db.size).toInt < 2 ^ 63 := BitVec.toInt_lt
      rw [← htotal, hcount, hbytes] at hmax
      exact hmax
  · rintro ⟨hlt, hfits, hroom⟩
    have hcount := hmlen.mpr hlt
    have hmin : (m.selection dip c.sels).length < 2 ^ 31 := by omega
    have hend : m'.mbufp =
        ((sizeofHdr + sizeofInt + (m.packed.length + (m.selection dip c.sels).length) : ℕ) : ℤ) := by
      rw [happ.mbufp, msize_eq hrank hmin, hpos₀, hentry₀]
      push_cast
      ring
    -- The entry ends below 2^31, so `meta_size` is its real size.
    have hint : (BitVec.ofInt 32 m'.mbufp).toInt = m'.mbufp := by
      rw [hend, BitVec.ofInt_natCast]
      apply toInt_ofNat_of_lt
      omega
    refine ⟨?_, ?_, hint.trans hend, hint.symm⟩
    · intro d hd
      rcases List.mem_append.mp hd with hd | hd
      · exact hcounts₀ d hd
      · rw [List.mem_singleton.mp hd]
        exact hcount
    · have hword : db.size.toInt = (c.bytes env dip).length := by
        rw [BitVec.toInt_eq_toNat_of_lt, data_size hsize hdata hlt]
        rw [data_size hsize hdata hlt]
        omega
      rw [hcount, hbytes, ← hword]
      refine (BitVec.toInt_add_of_not_saddOverflow ?_).symm
      simp only [BitVec.saddOverflow, ge_iff_le, Bool.or_eq_true, decide_eq_true_eq, not_or, not_le, not_lt, hword]
      exact ⟨hroom, le_trans (BitVec.le_toInt _) (le_add_of_nonneg_right (Int.natCast_nonneg _))⟩

/-- A merged request that is new has nothing but its header and its steps. -/
theorem mergedInit_exact (config id : I32) (dip : DsetInfo) (nsel : ℕ) :
    (mergedInit config id dip nsel).SizesExact := by
  have hsteps : ∀ flag : Bool,
      (if flag then Lib.putWords sizeofOffset (dip.dsteps.take (dip.ndim - 1)) else []).length ≤ 8 * 32 := by
    intro flag
    split
    · have hlen : (dip.dsteps.take (dip.ndim - 1)).length ≤ 32 := by
        have hrank : dip.dims.length ≤ 32 := dip.rank_le
        have hsteps := dip.dsteps_length
        rw [List.length_take]
        omega
      rw [Lib.putWords_length]
      exact Nat.mul_le_mul_left 8 hlen
    · exact Nat.zero_le _
  rw [MergedWReq.sizesExact_iff rfl]
  have hint : (mergedInit config id dip nsel).hdr.metaSize.toInt =
      ((sizeofHdr + sizeofInt + (mergedInit config id dip nsel).packed.length : ℕ) : ℤ) := by
    apply toInt_ofNat_of_lt
    have hle := hsteps (hasFlag (mergedInit config id dip nsel).hdr.flag FileConfig.selEncode)
    have hhdr : sizeofHdr + sizeofInt = 32 := rfl
    change List.length (mergedInit config id dip nsel).packed ≤ _ at hle
    show sizeofHdr + sizeofInt + (mergedInit config id dip nsel).packed.length < 2 ^ 31
    omega
  exact ⟨fun d hd => absurd hd List.not_mem_nil, rfl, hint, hint.symm⟩

/-! ## §5 — a write. -/

theorem appendMerged_ok {c : WriteCall} {dip : DsetInfo} {f f' : RankFile} {m : MergedWReq} {db : DataBlock}
    (h : appendMerged c dip f m db = (f', .ok ())) :
    ∃ m', m.append dip db c.sels = .ok m' ∧ f' = f.setMerged c.did m' := by
  unfold appendMerged at h
  dsimp only at h
  split at h
  · cases h
  split at h
  · split at h
    · cases h
    · cases h
  split at h
  · cases h
  rename_i m' happend
  split at h
  · exact ⟨m', happend, (Prod.mk.inj h).1.symm⟩
  · cases h

/-- What joins the queue: a request, or a merged request in the place of the one before. -/
theorem enqueue_ok {env : FileEnv} {c : WriteCall} {dip : DsetInfo} {f f' : RankFile} {r : WReq} {db : DataBlock}
    (h : enqueue env c dip f r db = (f', .ok ())) :
    (hasFlag env.config FileConfig.metadataMerge = false ∧ f'.wreqs = f.wreqs ++ [r.queued db] ∧
      f'.mreqs = f.mreqs) ∨
    (hasFlag env.config FileConfig.metadataMerge = true ∧ ∃ old m', f.mreqs[c.did]? = some old ∧
      (mergedSlot env c dip old).append dip db c.sels = .ok m' ∧ f'.wreqs = f.wreqs ∧
        f'.mreqs = f.mreqs.set c.did (some m')) := by
  unfold enqueue at h
  split at h
  · rename_i hmerge
    refine Or.inr ⟨hmerge, ?_⟩
    split at h
    · cases h
    · rename_i m hslot
      obtain ⟨m', happend, rfl⟩ := appendMerged_ok h
      exact ⟨some m, m', hslot, happend, rfl, rfl⟩
    · rename_i hslot
      split at h
      · obtain ⟨m', happend, rfl⟩ := appendMerged_ok h
        exact ⟨none, m', hslot, happend, rfl, rfl⟩
      · cases h
  · rename_i hmerge
    refine Or.inl ⟨by simpa using hmerge, ?_⟩
    unfold queueReq at h
    split at h
    · obtain ⟨rfl, -⟩ := Prod.mk.inj h
      exact ⟨rfl, rfl⟩
    · cases h

theorem slot_exact {env : FileEnv} {c : WriteCall} {dip : DsetInfo} {f : RankFile} (hf : f.SizesExact)
    {old : Option MergedWReq} (hold : f.mreqs[c.did]? = some old) : (mergedSlot env c dip old).SizesExact := by
  cases old with
  | none => exact mergedInit_exact _ _ _ _
  | some m => exact hf.merged m (List.mem_of_getElem? hold)

/-- The queue is exact if and only if what has joined it is. -/
theorem queue_exact_iff {f f' : RankFile} (hf : f.SizesExact) {r : WReq} (hwreqs : f'.wreqs = f.wreqs ++ [r])
    (hmreqs : f'.mreqs = f.mreqs) : f'.SizesExact ↔ r.SizesExact := by
  constructor
  · intro h
    apply h.queued
    rw [hwreqs]
    exact List.mem_append_right _ (List.mem_singleton_self r)
  · intro hr
    refine ⟨?_, fun m hm => hf.merged m (hmreqs ▸ hm)⟩
    intro q hq
    rw [hwreqs] at hq
    rcases List.mem_append.mp hq with hq | hq
    · exact hf.queued q hq
    · rwa [List.mem_singleton.mp hq]

theorem slots_exact_iff {f f' : RankFile} (hf : f.SizesExact) {k : ℕ} {old : Option MergedWReq} {m : MergedWReq}
    (hold : f.mreqs[k]? = some old) (hwreqs : f'.wreqs = f.wreqs) (hmreqs : f'.mreqs = f.mreqs.set k (some m)) :
    f'.SizesExact ↔ m.SizesExact := by
  constructor
  · intro h
    apply h.merged
    rw [hmreqs]
    exact List.mem_set (List.getElem?_eq_some_iff.mp hold).1 _
  · intro hm
    refine ⟨fun q hq => hf.queued q (hwreqs ▸ hq), ?_⟩
    intro m' hm'
    rw [hmreqs] at hm'
    rcases List.mem_or_eq_of_mem_set hm' with hm' | hm'
    · exact hf.merged m' hm'
    · rwa [Option.some.inj hm']

/-- **A write that is accepted** leaves every size exact if and only if its sizes fit. -/
theorem write_exact_iff {env : FileEnv} {c : WriteCall} {f f' : RankFile} (hf : f.SizesExact) (hc : c.Filled f)
    (h : datasetWrite env c f = (f', .ok ())) : AllocExact env c f ∧ f'.SizesExact ↔ WriteFits env c f := by
  by_cases hsel : c.sels.nsel = 0
  · rw [datasetWrite, if_pos hsel] at h
    obtain ⟨rfl, -⟩ := Prod.mk.inj h
    exact iff_of_true ⟨fun hne => absurd hsel hne, hf⟩ fun hne => absurd hsel hne
  obtain ⟨dip, r, f₁, r₁, f₂, db, hmakes, hencode, hdata, hqueue, hwreqs, hmreqs⟩ := datasetWrite_ok hsel h
  have hdset := hmakes.2.2.1
  have hinit := hmakes.2.2.2
  have hrank := (hc dip hdset).1
  have hsize := filled_size hc hdset
  have halloc : AllocExact env c f ↔ entrySize env.zlib env.config dip c.sels < 2 ^ 31 := by
    rw [← wreqInit_exact_iff hrank hinit]
    constructor
    · intro hall
      exact hall hsel dip r hmakes
    · intro hr _ dip' r' hmakes'
      obtain ⟨rfl, rfl⟩ := hmakes.unique hmakes'
      exact hr
  have hfits : WriteFits env c f ↔ FitsDset env c f dip := by
    constructor
    · intro hall
      exact hall hsel dip hdset
    · intro hfit _ dip' hdset'
      obtain rfl := Option.some.inj (Option.some.inj (hdset.symm.trans hdset'))
      exact hfit
  rw [halloc, hfits]
  have hf₂ : f₂.SizesExact := ⟨fun q hq => hf.queued q (hwreqs ▸ hq), fun m hm => hf.merged m (hmreqs ▸ hm)⟩
  rcases enqueue_ok hqueue with ⟨hmerge, hw, hm⟩ | ⟨hmerge, old, m', hold, happend, hw, hm⟩
  · -- a request of its own
    constructor
    · rintro ⟨hentry, hexact⟩
      have hr := (wreqInit_exact_iff hrank hinit).mpr hentry
      have hr₁ := encodeReq_exact hinit hr hencode
      refine ⟨hentry, (queued_exact_iff hsize hdata hr₁).mp ((queue_exact_iff hf₂ hw hm).mp hexact), ?_⟩
      intro hyes
      rw [hmerge] at hyes
      cases hyes
    · rintro ⟨hentry, hlt, -⟩
      have hr := (wreqInit_exact_iff hrank hinit).mpr hentry
      have hr₁ := encodeReq_exact hinit hr hencode
      exact ⟨hentry, (queue_exact_iff hf₂ hw hm).mpr ((queued_exact_iff hsize hdata hr₁).mpr hlt)⟩
  · -- the merged request of the dataset
    have happ := append_exact_iff hsize hdata hrank (slot_exact hf₂ hold) happend
    rw [slots_exact_iff hf₂ hold hw hm, happ]
    rw [hmreqs] at hold
    constructor
    · rintro ⟨hentry, hlt, hroom⟩
      refine ⟨hentry, hlt, ?_⟩
      intro _ old' hold'
      obtain rfl := Option.some.inj (hold.symm.trans hold')
      exact hroom
    · rintro ⟨hentry, hlt, hroom⟩
      exact ⟨hentry, hlt, hroom hmerge old hold⟩

/-! ## §6 — a write that is rejected. -/

/-- Where a write that is rejected has a merged request to extend, there is the memory for that. -/
def SparesMerged (env : FileEnv) (c : WriteCall) (f : RankFile) : Prop :=
  (datasetWrite env c f).2 ≠ .ok () → hasFlag env.config FileConfig.metadataMerge = true →
    c.grants.grow = true ∧ c.grants.push = true

/-- A write is rejected before it gets to the queue, or there. -/
theorem datasetWrite_error {env : FileEnv} {c : WriteCall} {f f' : RankFile} {e : Fault}
    (h : datasetWrite env c f = (f', .error e)) :
    (f'.wreqs = f.wreqs ∧ f'.mreqs = f.mreqs) ∨ ∃ dip f₂ r db, f₂.wreqs = f.wreqs ∧ f₂.mreqs = f.mreqs ∧
      enqueue env c dip f₂ r db = (f', .error e) := by
  have hnone : ∀ {g : RankFile} {e' : Fault}, (f, (.error e' : Except Fault Unit)) = (g, .error e) →
      g.wreqs = f.wreqs ∧ g.mreqs = f.mreqs := by
    intro g e' heq
    rw [← (Prod.mk.inj heq).1]
    exact ⟨rfl, rfl⟩
  unfold datasetWrite at h
  split at h
  · cases h
  split at h
  · exact Or.inl (hnone h)
  split at h
  · rename_i dip _
    split at h
    · exact Or.inl (hnone h)
    split at h
    · exact Or.inl (hnone h)
    split at h
    · exact Or.inl (hnone h)
    rename_i r _
    obtain ⟨⟨table, zbsize, zbuf, hfile⟩, -⟩ := encodeReq_file env c f r
    rcases andThen_eq_error h with hencode | ⟨f₁, r₁, hencode, h⟩
    · rw [hencode] at hfile
      rw [show f' = _ from hfile]
      exact Or.inl ⟨rfl, rfl⟩
    have hf₁ : f₁.wreqs = f.wreqs ∧ f₁.mreqs = f.mreqs := by
      rw [hencode] at hfile
      rw [show f₁ = _ from hfile]
      exact ⟨rfl, rfl⟩
    rw [← andThen_assoc] at h
    -- Of all the stages only the last one touches a queue.
    rcases data_cases env c dip f₁ with ⟨⟨e', heq⟩, -⟩ | ⟨⟨e', heq⟩, -⟩ | ⟨⟨db, heq⟩, -⟩
    · rw [heq] at h
      rw [← (Prod.mk.inj h).1]
      exact Or.inl hf₁
    · rw [heq] at h
      rw [← (Prod.mk.inj h).1]
      exact Or.inl hf₁
    · rw [heq] at h
      exact Or.inr ⟨dip, { f₁ with bused := f₁.bused + c.queuedSize env dip }, r₁, db, hf₁.1, hf₁.2, h⟩
  · exact Or.inl (hnone h)

theorem setMerged_exact {f : RankFile} (hf : f.SizesExact) {m : MergedWReq} (hm : m.SizesExact) (k : ℕ) :
    (f.setMerged k m).SizesExact := by
  refine ⟨hf.queued, ?_⟩
  intro m' hm'
  rcases List.mem_or_eq_of_mem_set hm' with hm' | hm'
  · exact hf.merged m' hm'
  · rwa [Option.some.inj hm']

/-- With the memory to extend it, a merged request that rejects a selection is as it was. -/
theorem appendMerged_error_exact {c : WriteCall} {dip : DsetInfo} {f f' : RankFile} {m : MergedWReq}
    {db : DataBlock} {e : Fault} (hf : f.SizesExact) (hm : m.SizesExact) (hgrow : c.grants.grow = true)
    (hpush : c.grants.push = true) (h : appendMerged c dip f m db = (f', .error e)) : f'.SizesExact := by
  unfold appendMerged at h
  simp only [hgrow, hpush, hm.kept, Bool.false_eq_true, Bool.true_eq_false, and_false, if_false, if_true] at h
  split at h
  · rw [← (Prod.mk.inj h).1]
    exact setMerged_exact hf hm c.did
  · cases h

/-- **A write that is rejected** leaves every size exact, where there is the memory for merged requests. -/
theorem rejected_exact {env : FileEnv} {c : WriteCall} {f f' : RankFile} {e : Fault} (hf : f.SizesExact)
    (hspares : hasFlag env.config FileConfig.metadataMerge = true → c.grants.grow = true ∧ c.grants.push = true)
    (h : datasetWrite env c f = (f', .error e)) : f'.SizesExact := by
  rcases datasetWrite_error h with ⟨hwreqs, hmreqs⟩ | ⟨dip, f₂, r, db, hwreqs, hmreqs, hqueue⟩
  · exact ⟨fun q hq => hf.queued q (hwreqs ▸ hq), fun m hm => hf.merged m (hmreqs ▸ hm)⟩
  have hf₂ : f₂.SizesExact := ⟨fun q hq => hf.queued q (hwreqs ▸ hq), fun m hm => hf.merged m (hmreqs ▸ hm)⟩
  unfold enqueue at hqueue
  split at hqueue
  · rename_i hmerge
    obtain ⟨hgrow, hpush⟩ := hspares hmerge
    split at hqueue
    · rwa [← (Prod.mk.inj hqueue).1]
    · rename_i m hslot
      exact appendMerged_error_exact hf₂ (hf₂.merged m (List.mem_of_getElem? hslot)) hgrow hpush hqueue
    · split at hqueue
      · exact appendMerged_error_exact hf₂ (mergedInit_exact _ _ _ _) hgrow hpush hqueue
      · rwa [← (Prod.mk.inj hqueue).1]
  · unfold queueReq at hqueue
    split at hqueue
    · cases hqueue
    · rwa [← (Prod.mk.inj hqueue).1]

/-! ## §7 — a run of writes. -/

/-- Every write of a run meets `P` in the file that those before it leave. -/
def WritesMeet (P : WriteCall → RankFile → Prop) (env : FileEnv) : RankFile → List WriteCall → Prop
  | _, [] => True
  | f, c :: cs => P c f ∧ WritesMeet P env (datasetWrite env c f).1 cs

/-- The file after a run of writes. -/
def runWrites (env : FileEnv) (f : RankFile) (cs : List WriteCall) : RankFile :=
  cs.foldl (fun f c => (datasetWrite env c f).1) f

/-- Every size has its value after the write, and that of its entry when it is accepted. -/
def StaysExact (env : FileEnv) (c : WriteCall) (f : RankFile) : Prop :=
  ((datasetWrite env c f).2 = .ok () → AllocExact env c f) ∧ (datasetWrite env c f).1.SizesExact

/-- The sizes of the write fit, when it is accepted. -/
def FitsAccepted (env : FileEnv) (c : WriteCall) (f : RankFile) : Prop :=
  (datasetWrite env c f).2 = .ok () → WriteFits env c f

/-- What the flushes give to MPI: every buffer as it is, the counts adding up to `fsize`, and every entry. -/
structure RankFile.HandsOver (f : RankFile) (passthru : Bool) : Prop where
  data : ∀ r ∈ f.flushMerged.wreqs, ∀ d ∈ r.dbufs, d.typeBytes passthru = .ok d.xbuf
  total : ∀ r ∈ f.flushMerged.wreqs, (r.dbufs.map fun d => (d.xbuf.length : ℤ)).sum = r.hdr.fsize.toInt
  entries : ∀ r ∈ f.flushMerged.wreqs, r.metaTypeBytes passthru = .ok r.metaBuf

/-- **A buffer whose size has its value** is given to MPI as it is. -/
theorem typeBytes_of_mlen {d : DataBlock} (h : d.mlen = d.xbuf.length) (passthru : Bool) :
    d.typeBytes passthru = .ok d.xbuf := by
  change cInt d.size.toNat = d.xbuf.length at h
  rw [DataBlock.typeBytes]
  simp only [h]
  rw [if_neg (by omega), if_neg (by omega), Int.toNat_natCast, List.take_length]

theorem handsOver_of_exact {f : RankFile} (hf : f.SizesExact) (passthru : Bool) : f.HandsOver passthru := by
  have hall : ∀ r ∈ f.flushMerged.wreqs, r.SizesExact := by
    intro r hr
    rcases List.mem_append.mp hr with hr | hr
    · exact hf.queued r hr
    · obtain ⟨m, hm, rfl⟩ := List.mem_map.mp hr
      obtain ⟨old, hold, hpending⟩ := List.mem_filterMap.mp hm
      rw [pendingMerged, Option.filter_eq_some_iff] at hpending
      rw [hpending.1] at hold
      exact (hf.merged m hold).req
  refine ⟨?_, ?_, ?_⟩
  · intro r hr d hd
    exact typeBytes_of_mlen ((hall r hr).counts d hd) passthru
  · intro r hr
    rw [← (hall r hr).total]
    refine congrArg List.sum (List.map_congr_left ?_)
    intro d hd
    exact ((hall r hr).counts d hd).symm
  · intro r hr
    exact metaTypeBytes_eq (hall r hr).entry.symm

/-- **One write** leaves every size exact if and only if its sizes fit. -/
theorem staysExact_iff {env : FileEnv} {c : WriteCall} {f : RankFile} (hf : f.SizesExact) (hc : c.Filled f)
    (hspares : SparesMerged env c f) : StaysExact env c f ↔ FitsAccepted env c f := by
  unfold StaysExact FitsAccepted
  rcases hwrite : datasetWrite env c f with ⟨f', e | _⟩
  · have hrejected : f'.SizesExact := by
      refine rejected_exact hf (hspares ?_) hwrite
      rw [hwrite]
      simp
    simp [hrejected]
  · rw [← write_exact_iff hf hc hwrite]
    simp

/-- **The writes that keep every size** are those whose sizes fit: along a run of writes, each of as much data as it
selects, every buffer, request and entry is exact if and only if every write that is accepted fits. Then the flushes
give to MPI every buffer and every entry as they are. -/
theorem writes_exact_iff (env : FileEnv) (cs : List WriteCall) (f : RankFile) (hf : f.SizesExact)
    (hfilled : WritesMeet WriteCall.Filled env f cs) (hspares : WritesMeet (SparesMerged env) env f cs) :
    (WritesMeet (StaysExact env) env f cs ↔ WritesMeet (FitsAccepted env) env f cs) ∧
      (WritesMeet (FitsAccepted env) env f cs → ∀ passthru, (runWrites env f cs).HandsOver passthru) := by
  induction cs generalizing f with
  | nil => exact ⟨Iff.rfl, fun _ passthru => handsOver_of_exact hf passthru⟩
  | cons c cs ih =>
    have hstep := staysExact_iff hf hfilled.1 hspares.1
    constructor
    · constructor
      · rintro ⟨hexact, hrest⟩
        exact ⟨hstep.mp hexact, (ih _ hexact.2 hfilled.2 hspares.2).1.mp hrest⟩
      · rintro ⟨hfits, hrest⟩
        have hexact := hstep.mpr hfits
        exact ⟨hexact, (ih _ hexact.2 hfilled.2 hspares.2).1.mpr hrest⟩
    · rintro ⟨hfits, hrest⟩
      exact (ih _ (hstep.mpr hfits).2 hfilled.2 hspares.2).2 hrest

/-! ## §8 — a write of 2^32 + 1 bytes. -/

theorem fourGiB_rank : [4294967297].length ≤ maxRank := by decide

theorem fourGiB_lengths : [4294967297].length = [4294967297].length := rfl

theorem fourGiB_dsteps : [1].length = [4294967297].length := rfl

def fourGiBDset : DsetInfo :=
  DsetInfo.plain 1 [4294967297] [4294967297] [1] fourGiB_rank fourGiB_lengths fourGiB_dsteps

/-- A file with one dataset of bytes, and nothing queued. -/
def fourGiBFile : RankFile := { freshFile with dsetsInfo := [some fourGiBDset] }

def fourGiBBlocks : List Block := [⟨[0], [4294967297]⟩]

theorem fourGiBBlocks_rank : ∀ b ∈ fourGiBBlocks, b.start.length = 1 ∧ b.count.length = 1 := by decide

theorem fourGiBBlocks_length : fourGiBBlocks.length < 2 ^ 31 := by decide

def fourGiBSels : Selections := ⟨1, fourGiBBlocks, fourGiBBlocks_rank, fourGiBBlocks_length⟩

/-- A write of the whole dataset. -/
def fourGiBWrite (data : List UInt8) : WriteCall where
  did := 0
  sels := fourGiBSels
  memEsize := 1
  inPlace := true
  hasBuf := true
  data := data
  grants := .all

def plainEnv : FileEnv := { sharingEnv 0 with config := 0 }

theorem fourGiB_init : (wreqInit plainEnv.zlib plainEnv.config 0 0 fourGiBDset fourGiBSels).isOk = true := by decide

theorem fourGiB_encodes (data : List UInt8) (f : RankFile) (r : WReq) :
    Encodes plainEnv (fourGiBWrite data) f r := by
  refine ⟨?_, ?_, ?_⟩
  all_goals simp [plainEnv, sharingEnv, LookedUp, fourGiBWrite, Grants.all]

theorem fourGiB_accepted (data : List UInt8) :
    (datasetWrite plainEnv (fourGiBWrite data) fourGiBFile).2 = .ok () := by
  unfold datasetWrite
  split
  · rfl
  split
  · rename_i hbuf
    cases hbuf
  split
  · rename_i dip hdset
    obtain rfl := Option.some.inj (Option.some.inj hdset)
    split
    · rename_i hconfig
      exact absurd hconfig (by decide)
    split
    · rename_i hgrant
      cases hgrant
    split
    · rename_i e hinit
      have hok := fourGiB_init
      rw [show wreqInit _ _ 0 0 _ fourGiBSels = _ from hinit] at hok
      cases hok
    · rename_i r hinit
      obtain ⟨r₁, hr₁⟩ := (encodeReq_ok_iff plainEnv (fourGiBWrite data) fourGiBFile r).mpr (fourGiB_encodes _ _ _)
      show (Outcome.andThen _ _).2 = _
      rw [show encodeReq plainEnv (fourGiBWrite data) fourGiBFile r = (_, .ok r₁) from Prod.ext rfl hr₁]
      rfl
  · rename_i hnone
    exact absurd rfl (hnone _)

theorem exact_of_empty {f : RankFile} (hwreqs : f.wreqs = []) (hmreqs : f.mreqs = [none]) : f.SizesExact := by
  refine ⟨?_, ?_⟩
  · intro r hr
    rw [hwreqs] at hr
    cases hr
  · intro m hm
    rw [hmreqs] at hm
    cases List.mem_singleton.mp hm

/-- One byte is given to MPI of 2^32 + 1. -/
theorem not_writes_exact : ¬ ∀ (env : FileEnv) (c : WriteCall) (f f' : RankFile), f.SizesExact → c.Filled f →
    datasetWrite env c f = (f', .ok ()) → AllocExact env c f ∧ f'.SizesExact := by
  intro hall
  have hlen : (List.replicate 4294967297 (0 : UInt8)).length = 4294967297 := List.length_replicate
  generalize List.replicate 4294967297 (0 : UInt8) = data at hlen
  have hfilled : (fourGiBWrite data).Filled fourGiBFile := by
    intro dip hdip
    obtain rfl := Option.some.inj (Option.some.inj hdip)
    refine ⟨rfl, ?_, ?_⟩
    · show data.length < 2 ^ 64
      omega
    · show data.length = _
      rw [hlen]
      rfl
  have hwrite : datasetWrite plainEnv (fourGiBWrite data) fourGiBFile =
      ((datasetWrite plainEnv (fourGiBWrite data) fourGiBFile).1, .ok ()) := Prod.ext rfl (fourGiB_accepted data)
  have hfile : fourGiBFile.SizesExact := exact_of_empty rfl rfl
  have hexact := hall _ _ _ _ hfile hfilled hwrite
  have hfits := (write_exact_iff hfile hfilled hwrite).mp hexact
  have hlt := (hfits Nat.one_ne_zero _ rfl).data
  change data.length < 2 ^ 31 at hlt
  omega

/-- Metadata merging; the selections of a vector are not encoded. -/
def mergingEnv : FileEnv := { sharingEnv 64 with config := FileConfig.metadataMerge ||| FileConfig.selEncode }

/-- One element, and the last two, from an internal buffer. -/
def lastThree : WriteCall where
  did := 0
  sels := { ndim := 1, sels := [⟨[12], [1]⟩, ⟨[14], [2]⟩], rank_eq := by decide, nsel_lt := by decide }
  memEsize := 4
  inPlace := false
  hasBuf := true
  data := [3, 0, 0, 0, 4, 0, 0, 0, 5, 0, 0, 0]
  grants := .all

/-- The file with the merged request that the first write makes. -/
def mergedOnce : RankFile := (datasetWrite mergingEnv (twoElements true) freshFile).1

theorem mergedWrites_filled : (twoElements true).Filled freshFile ∧ lastThree.Filled mergedOnce := by
  constructor
  · intro dip hdip
    obtain rfl := Option.some.inj (Option.some.inj hdip)
    exact ⟨rfl, by decide, by decide⟩
  · intro dip hdip
    have htable : mergedOnce.dsetsInfo = freshFile.dsetsInfo := rfl
    rw [htable] at hdip
    obtain rfl := Option.some.inj (Option.some.inj hdip)
    exact ⟨rfl, by decide, by decide⟩

theorem mergedWrites_accepted : (datasetWrite mergingEnv (twoElements true) freshFile).2 = .ok () ∧
    (datasetWrite mergingEnv lastThree mergedOnce).2 = .ok () := by
  constructor <;> decide +kernel

/-- The second write is appended to the merged request that the first one makes. -/
theorem writes_exact_merged :
    WritesMeet (StaysExact mergingEnv) mergingEnv freshFile [twoElements true, lastThree] ∧
      ∀ passthru, (runWrites mergingEnv freshFile [twoElements true, lastThree]).HandsOver passthru := by
  have hmain := writes_exact_iff mergingEnv [twoElements true, lastThree] freshFile (exact_of_empty rfl rfl)
    ⟨mergedWrites_filled.1, mergedWrites_filled.2, trivial⟩
    ⟨fun hne => absurd mergedWrites_accepted.1 hne, fun hne => absurd mergedWrites_accepted.2 hne, trivial⟩
  have hfits : WritesMeet (FitsAccepted mergingEnv) mergingEnv freshFile [twoElements true, lastThree] := by
    refine ⟨fun _ _ dip hdip => ?_, fun _ _ dip hdip => ?_, trivial⟩
    · obtain rfl := Option.some.inj (Option.some.inj hdip)
      refine ⟨by decide, by decide, fun _ old hold => ?_⟩
      obtain rfl : none = old := Option.some.inj hold
      decide +kernel
    · have htable : mergedOnce.dsetsInfo = freshFile.dsetsInfo := rfl
      rw [show (datasetWrite mergingEnv (twoElements true) freshFile).1 = mergedOnce from rfl, htable] at hdip
      obtain rfl := Option.some.inj (Option.some.inj hdip)
      refine ⟨by decide, by decide, fun _ old hold => ?_⟩
      -- the one slot there is
      let d := DsetInfo.plain 4 [16] [16] [1] (by decide) rfl rfl
      have hslots : ∀ old ∈ mergedOnce.mreqs, let m := mergedSlot mergingEnv lastThree d old
          m.hdr.metaSize.toInt + (m.selection d lastThree.sels).length < 2 ^ 31 ∧
            m.hdr.fsize.toInt + (lastThree.bytes mergingEnv d).length < 2 ^ 63 := by decide +kernel
      exact hslots old (List.mem_of_getElem? hold)
  exact ⟨hmain.1.mpr hfits, hmain.2 hfits⟩

end LogVol
