/-
# LogVol.MergedBuffer — the memory of a merged request.

`MergedWReq` says what a merged request holds; here is the memory it holds it in. `MergedBuf` has the allocation
at `meta_buf`, with every pointer into it as a position, and the capacity beside the end pointer that is derived
from it. A store outside the allocation is the fault `outside`, and a growth loop that does not end is
`diverged`. `Bounded` is what `init` and `append` keep, `runMerged_within` that it holds after every sequence of
them, and `Bounded.body_eq` that the memory holds what `MergedWReq` says.
-/
import LogVol.MergedCodec
import LogVol.Lib.ByteStore

namespace LogVol

open Lib (Store putWord putWords getWord RangesDisjoint)

/-! ## §1 — the memory and the pointers into it. -/

/-- `H5VL_log_merged_wreq_t`: `size` bytes are allocated at `meta_buf`, and the pointers are positions behind
it. What `realloc` puts behind the old bytes is what `mem` has there. -/
structure MergedBuf where
  mem : Store
  size : ℕ
  selBuf : ℤ
  mbufp : ℤ
  mbufe : ℤ
  metaSizeAlloc : HSize
  nsel : I32
  dbufs : List DataBlock

namespace MergedBuf

/-- The fields of the header, by their place in it. -/
def metaSizeAt : ℕ := 0
/-- `did`. -/
def didAt : ℕ := metaSizeAt + sizeofInt
/-- `flag`. -/
def flagAt : ℕ := didAt + sizeofInt
/-- `fsize`, behind `foff`. -/
def fsizeAt : ℕ := flagAt + sizeofInt + sizeofOffset

/-- A store through a pointer. -/
def put (m : MergedBuf) (off : ℤ) (bs : List UInt8) : Except Fault MergedBuf :=
  if 0 ≤ off ∧ off + bs.length ≤ m.size then .ok { m with mem := m.mem.write off.toNat bs }
  else .error .outside

/-- `hdr->meta_size`. -/
def metaSize (m : MergedBuf) : I32 := getWord 32 (m.mem.read metaSizeAt sizeofInt)

/-- `hdr->flag`. -/
def flag (m : MergedBuf) : I32 := getWord 32 (m.mem.read flagAt sizeofInt)

/-- `hdr->fsize`. -/
def fsize (m : MergedBuf) : MpiOffset := getWord 64 (m.mem.read fsizeAt sizeofOffset)

/-- The count at `sel_buf`. -/
def count (m : MergedBuf) : I32 := getWord 32 (m.mem.read m.selBuf.toNat sizeofInt)

/-! ## §2 — the calls. -/

/-- `meta_size_alloc` in `init`: offsets and steps are meant to be packed in one layout, coordinates in the
other. -/
def initAlloc (encode : Bool) (dip : DsetInfo) (nsel : ℤ) : HSize :=
  BitVec.ofNat 64 (sizeofHdr + sizeofInt) +
    if encode then BitVec.ofNat 64 sizeofOffset * (BitVec.ofInt 64 (cInt (2 * nsel)) + BitVec.ofNat 64 dip.ndim)
    else BitVec.ofNat 64 sizeofOffset * BitVec.ofNat 64 dip.ndim * BitVec.ofNat 64 2 *
      BitVec.ofInt 64 nsel

/-- Pack the steps, when the flags have the bit `H5VL_FILEI_CONFIG_SEL_ENCODE` of the other enumeration. -/
def packSteps (m : MergedBuf) (flag : I32) (dip : DsetInfo) : Except Fault MergedBuf :=
  if hasFlag flag FileConfig.selEncode then do
    let m ← m.put m.mbufp (putWords sizeofOffset (dip.dsteps.take (dip.ndim - 1)))
    pure { m with mbufp := m.mbufp + (sizeofOffset * (dip.ndim - 1) : ℕ) }
  else pure m

/-- Fill up the header. -/
def putHeader (m : MergedBuf) (id flag : I32) : Except Fault MergedBuf := do
  let m ← m.put didAt (putWord sizeofInt id)
  let m ← m.put flagAt (putWord sizeofInt flag)
  let m ← m.put metaSizeAt (putWord sizeofInt (BitVec.ofInt 32 m.mbufp))
  m.put fsizeAt (putWord sizeofOffset (0 : MpiOffset))

/-- `init (fp, id, nsel)`. `given` is the memory that `malloc` returns; `dbufs` is left as it is. -/
def init (config id : I32) (dip : DsetInfo) (nsel : ℤ) (given : Store) (dbufs : List DataBlock) :
    Except Fault MergedBuf := do
  let nsel := max nsel mergedReqSelReserve
  let encode := decide (1 < dip.ndim) && hasFlag config FileConfig.selEncode
  let flag := orIf (hasFlag config FileConfig.selDeflate) MetaFlag.selDeflate <|
    orIf encode MetaFlag.selEncode MetaFlag.mulSel
  let alloc := initAlloc encode dip nsel
  let m : MergedBuf :=
    { mem := given, size := alloc.toNat, selBuf := sizeofHdr, mbufp := sizeofHdr + sizeofInt
      mbufe := alloc.toNat, metaSizeAlloc := alloc, nsel := 0, dbufs := dbufs }
  let m ← m.packSteps flag dip
  m.putHeader id flag

/-- `reserve (size)`: whether there is room is asked of the pointers, how much to allocate is told by the
header's `meta_size`, and the pointers are derived from that again. -/
def reserve (m : MergedBuf) (size : HSize) : Except Fault MergedBuf :=
  if m.mbufp + size.toNat > m.mbufe then do
    let alloc ← growAlloc (BitVec.ofInt 64 m.metaSize.toInt + size) 22 m.metaSizeAlloc
    pure { m with size := alloc.toNat, metaSizeAlloc := alloc, mbufp := m.metaSize.toInt, mbufe := alloc.toNat }
  else pure m

/-- `msize`. -/
def msize (m : MergedBuf) (dip : DsetInfo) (sels : Selections) : HSize :=
  let two := BitVec.ofInt 64 (cInt (sels.nsel * 2))
  if hasFlag m.flag FileConfig.selEncode then two * BitVec.ofNat 64 sizeofOffset
  else two * BitVec.ofNat 64 sizeofOffset * BitVec.ofNat 64 dip.ndim

/-- The selection as `append` packs it. -/
def encode (m : MergedBuf) (dip : DsetInfo) (sels : Selections) : List UInt8 :=
  sels.encode (if hasFlag m.flag FileConfig.selEncode then some dip.dsteps else none) 0

/-- Record the count, the data and the size of the entry. -/
def putTotals (m : MergedBuf) (db : DataBlock) : Except Fault MergedBuf := do
  let m ← m.put m.selBuf (putWord sizeofInt m.nsel)
  let m ← ({ m with dbufs := m.dbufs ++ [db] } : MergedBuf).put fsizeAt (putWord sizeofOffset (m.fsize + db.size))
  m.put metaSizeAt (putWord sizeofInt (BitVec.ofInt 32 m.mbufp))

/-- `append (dp, db, sels)`, once there is a buffer. -/
def append (m : MergedBuf) (dip : DsetInfo) (db : DataBlock) (sels : Selections) : Except Fault MergedBuf := do
  let msize := m.msize dip sels
  let m ← m.reserve msize
  let m ← m.put m.mbufp (m.encode dip sels)
  ({ m with mbufp := m.mbufp + msize.toNat, nsel := m.nsel + BitVec.ofNat 32 sels.nsel } : MergedBuf).putTotals db

end MergedBuf

/-- A call on a merged request. -/
inductive MergedCall where
  | init (nsel : ℤ) (given : Store)
  | append (db : DataBlock) (sels : Selections) (given : Store)

/-- One call. Before the first, `meta_buf` is `NULL`; an `append` then makes the buffer itself. -/
def MergedCall.run (config id : I32) (dip : DsetInfo) : Option MergedBuf → MergedCall → Except Fault MergedBuf
  | m, .init nsel given => MergedBuf.init config id dip nsel given ((m.map MergedBuf.dbufs).getD [])
  | some m, .append db sels _ => m.append dip db sels
  | none, .append db sels given => do
    let m ← MergedBuf.init config id dip sels.nsel given []
    m.append dip db sels

/-- A sequence of calls on a request. -/
def runMerged (config id : I32) (dip : DsetInfo) (calls : List MergedCall) : Except Fault (Option MergedBuf) :=
  calls.foldlM (fun m c => do pure (some (← c.run config id dip m))) none

/-! ## §3 — what is asked. -/

/-- What has been appended since the buffer was made, after one more call. -/
def MergedCall.writes (ws : Writes) : MergedCall → Writes
  | .init _ _ => []
  | .append db sels _ => ws ++ [(db, sels)]

/-- What was appended since the buffer was made last. -/
def appended (calls : List MergedCall) : Writes := calls.foldl MergedCall.writes []

/-- What the size of a call is measured by: the blocks it announces or appends have the rank of the dataset, and
those that are announced fit an entry of less than 2 GiB. -/
def MergedCall.Fits (dip : DsetInfo) : MergedCall → Prop
  | .init nsel _ => mergedSize dip nsel.toNat < 2 ^ 31
  | .append _ sels _ => sels.ndim = dip.ndim

/-- The entry stays below 2 GiB all along. -/
structure TotalFits (dip : DsetInfo) (calls : List MergedCall) : Prop where
  each : ∀ c ∈ calls, c.Fits dip
  entry : ∀ before, before <+: calls → mergedSize dip (writtenBlocks (appended before)).length < 2 ^ 31

/-- **Within its bounds**, with `n` blocks appended by at least one append if `some`. The count is an `int`: a
dataset of rank 0 has blocks that take no room, and as many of them as an `int` counts. -/
structure MergedBuf.Within (dip : DsetInfo) (ws : Writes) (m : MergedBuf) : Prop where
  size : m.size = m.metaSizeAlloc.toNat
  mbufe : m.mbufe = m.metaSizeAlloc.toNat
  header_le : (sizeofHdr + sizeofInt : ℕ) ≤ m.mbufp
  mbufp_le : m.mbufp ≤ m.mbufe
  metaSize : m.metaSize.toInt = m.mbufp
  count : ws ≠ [] → m.count = BitVec.ofNat 32 (writtenBlocks ws).length
  count_toInt : ws ≠ [] → 0 < dip.ndim ∨ (writtenBlocks ws).length < 2 ^ 31 →
    m.count.toInt = (writtenBlocks ws).length

/-! ## §4 — what the calls keep. -/

namespace MergedBuf

/-- **`Bounded`** — the memory of a request to which `ws` were appended. -/
structure Bounded (dip : DsetInfo) (ws : Writes) (m : MergedBuf) : Prop where
  size : m.size = m.metaSizeAlloc.toNat
  mbufe : m.mbufe = m.metaSizeAlloc.toNat
  selBuf : m.selBuf = sizeofHdr
  mbufp : m.mbufp = mergedSize dip (writtenBlocks ws).length
  room : mergedSize dip (writtenBlocks ws).length ≤ m.metaSizeAlloc.toNat
  fits : mergedSize dip (writtenBlocks ws).length < 2 ^ 31
  metaSize : m.metaSize = BitVec.ofNat 32 (mergedSize dip (writtenBlocks ws).length)
  flag : hasFlag m.flag FileConfig.selEncode = false
  nsel : m.nsel = BitVec.ofNat 32 (writtenBlocks ws).length
  count : ws ≠ [] → m.count = m.nsel
  packed : m.mem.read (sizeofHdr + sizeofInt) (putWords sizeofOffset (packedWords ws)).length =
    putWords sizeofOffset (packedWords ws)

variable {config id : I32} {dip : DsetInfo} {ws : Writes} {m : MergedBuf}

theorem put_ok {off : ℤ} {bs : List UInt8} (h₀ : 0 ≤ off) (h : off + bs.length ≤ m.size) :
    m.put off bs = .ok { m with mem := m.mem.write off.toNat bs } := if_pos ⟨h₀, h⟩

theorem getWord_write_self (s : Store) {w k : ℕ} (hw : w = 8 * k) (off : ℕ) (v : BitVec w) :
    getWord w ((s.write off (putWord k v)).read off k) = v := by
  have hread := Store.read_write_self s off (putWord k v)
  rw [Lib.putWord_length] at hread
  rw [hread, Lib.getWord_putWord hw]

/-- What is read beside a write. -/
theorem read_write_beside {s : Store} {off n off' : ℕ} {bs : List UInt8}
    (h : off + n ≤ off' ∨ off' + bs.length ≤ off) : (s.write off' bs).read off n = s.read off n := by
  refine Store.read_write_disjoint ?_
  show off + n ≤ off' ∨ off' + bs.length ≤ off ∨ n = 0 ∨ bs.length = 0
  omega

theorem mergedSize_ge (dip : DsetInfo) (n : ℕ) : sizeofHdr + sizeofInt ≤ mergedSize dip n :=
  Nat.le_add_right _ _

/-- The capacity that `init` computes holds the header and the count. -/
theorem initAlloc_ge (dip : DsetInfo) (encode : Bool) {nsel : ℤ} (henc : encode = true → 1 < dip.ndim)
    (hfits : mergedSize dip nsel.toNat < 2 ^ 31) :
    sizeofHdr + sizeofInt ≤ (initAlloc encode dip (max nsel mergedReqSelReserve)).toNat := by
  have hrank : dip.ndim ≤ 32 := dip.rank_le
  obtain ⟨n, hn⟩ : ∃ n : ℕ, max nsel mergedReqSelReserve = n :=
    ⟨(max nsel mergedReqSelReserve).toNat, by rw [Int.toNat_of_nonneg]; simp [mergedReqSelReserve]⟩
  have hsmall : 8 * (dip.ndim * n * 2) < 2 ^ 31 := by
    -- The number of blocks it is made for, or the 32 it reserves at least.
    have hcases : n = nsel.toNat ∨ n = 32 := by
      simp only [mergedReqSelReserve] at hn
      omega
    rcases hcases with rfl | rfl
    · simp only [mergedSize, sizeofHdr, sizeofInt, sizeofOffset] at hfits
      omega
    · omega
  rw [hn, initAlloc]
  cases encode with
  | true =>
    have hle : 2 * n ≤ dip.ndim * n := Nat.mul_le_mul_right _ (henc rfl)
    have hint : cInt (2 * n) = (2 * n : ℕ) := by
      rw [cInt_of_range (by omega) (by omega)]
      push_cast
      rfl
    rw [if_pos rfl, hint, BitVec.ofInt_natCast, ← BitVec.ofNat_add, ← BitVec.ofNat_mul, ← BitVec.ofNat_add,
      BitVec.toNat_ofNat, Nat.mod_eq_of_lt (by simp only [sizeofHdr, sizeofInt, sizeofOffset]; omega)]
    omega
  | false =>
    have hmul : sizeofOffset * dip.ndim * 2 * n = 8 * (dip.ndim * n * 2) := by
      rw [sizeofOffset]
      ring
    rw [if_neg Bool.false_ne_true, BitVec.ofInt_natCast, ← BitVec.ofNat_mul, ← BitVec.ofNat_mul,
      ← BitVec.ofNat_mul, ← BitVec.ofNat_add, hmul, BitVec.toNat_ofNat,
      Nat.mod_eq_of_lt (by simp only [sizeofHdr, sizeofInt]; omega)]
    omega

/-- Storing the header, in an allocation that has room for it and the count. -/
theorem putHeader_ok (id flag : I32) (h : 32 ≤ m.size) :
    ∃ mem, m.putHeader id flag = .ok { m with mem := mem } ∧
      getWord 32 (mem.read metaSizeAt sizeofInt) = BitVec.ofInt 32 m.mbufp ∧
      getWord 32 (mem.read flagAt sizeofInt) = flag := by
  have hlen (v : I32) : (putWord sizeofInt v).length = 4 := Lib.putWord_length _ _
  have hlen' (v : MpiOffset) : (putWord sizeofOffset v).length = 8 := Lib.putWord_length _ _
  refine ⟨(((m.mem.write didAt (putWord sizeofInt id)).write flagAt (putWord sizeofInt flag)).write metaSizeAt
    (putWord sizeofInt (BitVec.ofInt 32 m.mbufp))).write fsizeAt (putWord sizeofOffset (0 : MpiOffset)), ?_, ?_, ?_⟩
  · rw [putHeader, put_ok (by simp) (by rw [hlen]; simp only [didAt, metaSizeAt, sizeofInt]; omega)]
    show (put _ _ _ >>= _) = _
    rw [put_ok (by simp) (by rw [hlen]; simp only [flagAt, didAt, metaSizeAt, sizeofInt]; omega)]
    show (put _ _ _ >>= _) = _
    rw [put_ok (by simp) (by rw [hlen]; simp only [metaSizeAt]; omega)]
    show put _ _ _ = _
    rw [put_ok (by simp) (by
      rw [hlen']
      simp only [fsizeAt, flagAt, didAt, metaSizeAt, sizeofInt, sizeofOffset]
      omega)]
    rfl
  · rw [read_write_beside (Or.inl (by decide))]
    exact getWord_write_self _ rfl _ _
  · rw [read_write_beside (Or.inl (by decide)), read_write_beside (Or.inr (by rw [hlen]; decide))]
    exact getWord_write_self _ rfl _ _

/-- **`init`** stores inside its allocation. -/
theorem init_bounded (config id : I32) {nsel : ℤ} (hfits : mergedSize dip nsel.toNat < 2 ^ 31) (given : Store)
    (dbufs : List DataBlock) : ∃ m, init config id dip nsel given dbufs = .ok m ∧ m.Bounded dip [] := by
  have hge := initAlloc_ge dip (decide (1 < dip.ndim) && hasFlag config FileConfig.selEncode)
    (by intro h; simp at h; exact h.1) hfits
  have hflag := mergedFlag_selEncode config dip
  set alloc := initAlloc (decide (1 < dip.ndim) && hasFlag config FileConfig.selEncode) dip
    (max nsel mergedReqSelReserve) with halloc
  obtain ⟨mem, hput, hmeta, hflagAt⟩ := putHeader_ok (m := ⟨given, alloc.toNat, sizeofHdr,
    sizeofHdr + sizeofInt, alloc.toNat, alloc, 0, dbufs⟩) id (mergedFlag config dip) hge
  have hsize : mergedSize dip (writtenBlocks []).length = 32 := by
    show 28 + 4 + 8 * (dip.ndim * 0 * 2) = 32
    omega
  refine ⟨⟨mem, alloc.toNat, sizeofHdr, sizeofHdr + sizeofInt, alloc.toNat, alloc, 0, dbufs⟩, ?_, ?_⟩
  · show (packSteps ⟨given, alloc.toNat, sizeofHdr, sizeofHdr + sizeofInt, alloc.toNat, alloc, 0, dbufs⟩
      (mergedFlag config dip) dip >>= fun m => m.putHeader id (mergedFlag config dip)) = _
    -- The steps are never packed: the flag that is tested is not the one that is set.
    rw [packSteps, hflag, if_neg Bool.false_ne_true]
    exact hput
  · refine ⟨rfl, rfl, rfl, ?_, ?_, ?_, ?_, ?_, rfl, ?_, rfl⟩
    · rw [hsize]
      rfl
    · rw [hsize]
      exact hge
    · rw [hsize]
      decide
    · rw [hsize]
      exact hmeta
    · show hasFlag (getWord 32 (mem.read flagAt sizeofInt)) FileConfig.selEncode = false
      rw [hflagAt, hflag]
    · intro h
      exact absurd rfl h

/-- **`reserve`** makes room, and only that. -/
theorem Bounded.reserve (h : m.Bounded dip ws) {k : ℕ}
    (hfits : mergedSize dip (writtenBlocks ws).length + k < 2 ^ 31) :
    ∃ m', m.reserve (BitVec.ofNat 64 k) = .ok m' ∧ m'.Bounded dip ws ∧ m'.mem = m.mem ∧
      mergedSize dip (writtenBlocks ws).length + k ≤ m'.size := by
  have hk : (BitVec.ofNat 64 k).toNat = k := by
    rw [BitVec.toNat_ofNat]
    exact Nat.mod_eq_of_lt (by omega)
  have hmeta : m.metaSize.toInt = mergedSize dip (writtenBlocks ws).length := by
    rw [h.metaSize]
    exact toInt_ofNat_of_lt h.fits
  have htarget : (BitVec.ofInt 64 m.metaSize.toInt + BitVec.ofNat 64 k).toNat =
      mergedSize dip (writtenBlocks ws).length + k := by
    rw [hmeta, BitVec.ofInt_natCast, ← BitVec.ofNat_add, BitVec.toNat_ofNat]
    exact Nat.mod_eq_of_lt (by omega)
  have hpos : 0 < m.metaSizeAlloc.toNat := by
    have hroom := h.room
    have hge := mergedSize_ge dip (writtenBlocks ws).length
    simp only [sizeofHdr, sizeofInt] at hge
    omega
  rw [MergedBuf.reserve, hk]
  by_cases hgt : m.mbufp + k > m.mbufe
  · -- the loop ends: the size to reach has 31 bits
    obtain ⟨alloc, hgrow, hle⟩ := growAlloc_ok (by rw [htarget]; omega) 22 m.metaSizeAlloc hpos
      (by rw [htarget]; omega)
    rw [htarget] at hle
    refine ⟨{ m with
      size := alloc.toNat, metaSizeAlloc := alloc, mbufp := m.metaSize.toInt, mbufe := alloc.toNat }, ?_, ?_, rfl,
      hle⟩
    · rw [if_pos hgt, hgrow]
      rfl
    · exact { h with size := rfl, mbufe := rfl, mbufp := hmeta, room := le_trans (Nat.le_add_right _ k) hle }
  · refine ⟨m, if_neg hgt, h, rfl, ?_⟩
    rw [h.mbufp, h.mbufe] at hgt
    rw [h.size]
    omega

/-- Storing the count, the data size and the size of the entry. -/
theorem putTotals_ok (db : DataBlock) (hsel : m.selBuf = sizeofHdr) (h : 32 ≤ m.size) :
    ∃ mem, m.putTotals db = .ok { m with mem := mem, dbufs := m.dbufs ++ [db] } ∧
      getWord 32 (mem.read metaSizeAt sizeofInt) = BitVec.ofInt 32 m.mbufp ∧
      getWord 32 (mem.read flagAt sizeofInt) = m.flag ∧ getWord 32 (mem.read sizeofHdr sizeofInt) = m.nsel ∧
      ∀ off n, 32 ≤ off → mem.read off n = m.mem.read off n := by
  have hlen (v : I32) : (putWord sizeofInt v).length = 4 := Lib.putWord_length _ _
  have hlen' (v : MpiOffset) : (putWord sizeofOffset v).length = 8 := Lib.putWord_length _ _
  let mem₁ := m.mem.write sizeofHdr (putWord sizeofInt m.nsel)
  let fsize : MpiOffset := getWord 64 (mem₁.read fsizeAt sizeofOffset)
  refine ⟨(mem₁.write fsizeAt (putWord sizeofOffset (fsize + db.size))).write metaSizeAt
    (putWord sizeofInt (BitVec.ofInt 32 m.mbufp)), ?_, ?_, ?_, ?_, ?_⟩
  · have hcount : m.put m.selBuf (putWord sizeofInt m.nsel) = .ok { m with mem := mem₁ } := by
      rw [put_ok (by rw [hsel]; simp) (by rw [hsel, hlen]; simp only [sizeofHdr]; omega), hsel]
      rfl
    rw [putTotals, hcount]
    show (put _ _ _ >>= _) = _
    rw [put_ok (by simp) (by
      rw [hlen']
      simp only [fsizeAt, flagAt, didAt, metaSizeAt, sizeofInt, sizeofOffset]
      omega)]
    show put _ _ _ = _
    rw [put_ok (by simp) (by rw [hlen]; simp only [metaSizeAt]; omega)]
    rfl
  · exact getWord_write_self _ rfl _ _
  · -- The three words lie in the first 32 bytes, beside each other and beside the flag.
    rw [read_write_beside (Or.inr (by rw [hlen]; decide)), read_write_beside (Or.inl (by decide)),
      read_write_beside (Or.inl (by decide))]
    rfl
  · rw [read_write_beside (Or.inr (by rw [hlen]; decide)), read_write_beside (Or.inr (by rw [hlen']; decide))]
    exact getWord_write_self _ rfl _ _
  · intro off n hoff
    rw [read_write_beside (Or.inr (by rw [hlen]; simp only [metaSizeAt]; omega)),
      read_write_beside (Or.inr (by
        rw [hlen']
        simp only [fsizeAt, flagAt, didAt, metaSizeAt, sizeofInt, sizeofOffset]
        omega)),
      read_write_beside (Or.inr (by rw [hlen]; simp only [sizeofHdr]; omega))]

/-- **`append`** stores inside the allocation, and records what it appended. -/
theorem Bounded.append (h : m.Bounded dip ws) {w : DataBlock × Selections} (hrank : w.2.ndim = dip.ndim)
    (hlen : (packedWords ws).length = dip.ndim * (writtenBlocks ws).length * 2)
    (hfits : mergedSize dip (writtenBlocks (ws ++ [w])).length < 2 ^ 31) :
    ∃ m', m.append dip w.1 w.2 = .ok m' ∧ m'.Bounded dip (ws ++ [w]) := by
  obtain ⟨db, sels⟩ := w
  have hsels : sels.ndim = dip.ndim := hrank
  set n := (writtenBlocks ws).length with hn
  set k := sizeofOffset * (dip.ndim * sels.nsel * 2) with hk
  have hcount : (writtenBlocks (ws ++ [(db, sels)])).length = n + sels.nsel := by
    rw [writtenBlocks_concat, List.length_append]
    rfl
  have hsize : mergedSize dip (n + sels.nsel) = mergedSize dip n + k := mergedSize_add dip n _
  rw [hcount, hsize] at hfits
  have hkNat : (BitVec.ofNat 64 k).toNat = k := by
    rw [BitVec.toNat_ofNat]
    exact Nat.mod_eq_of_lt (by omega)
  have hmsize : m.msize dip sels = BitVec.ofNat 64 k := by
    rw [msize, h.flag]
    exact append_msize dip sels (by omega)
  obtain ⟨m₁, hreserve, h₁, hmem, hroom⟩ := h.reserve hfits
  -- the selection goes behind what is packed already
  have hbytes : (sels.encode none 0).length = k := by
    rw [encode_coords, Lib.putWords_length, coordWords_length sels.rank_eq, hsels]
    rfl
  have hmbufp : m₁.mbufp.toNat = mergedSize dip n := by
    rw [h₁.mbufp]
    rfl
  have hput : m₁.put m₁.mbufp (sels.encode none 0) =
      .ok { m₁ with mem := m₁.mem.write (mergedSize dip n) (sels.encode none 0) } := by
    have hput' : m₁.put m₁.mbufp (sels.encode none 0) = _ := put_ok (by rw [h₁.mbufp]; omega)
      (by rw [h₁.mbufp, hbytes]; exact_mod_cast hroom)
    rw [hmbufp] at hput'
    exact hput'
  let m₂ : MergedBuf := { m₁ with
    mem := m₁.mem.write (mergedSize dip n) (sels.encode none 0)
    mbufp := m₁.mbufp + k
    nsel := m₁.nsel + BitVec.ofNat 32 sels.nsel }
  have hge : 32 ≤ mergedSize dip n := mergedSize_ge dip n
  have hroom' : mergedSize dip n + k ≤ m₁.size := hroom
  obtain ⟨mem, htotals, hmeta, hflag, hnsel, hrest⟩ := putTotals_ok (m := m₂) db h₁.selBuf (by
    show 32 ≤ m₁.size
    omega)
  have hmbufp₂ : m₂.mbufp = mergedSize dip (n + sels.nsel) := by
    show m₁.mbufp + k = _
    rw [h₁.mbufp, hsize]
    push_cast
    rfl
  have hflag₂ : m₂.flag = m.flag := by
    show getWord 32 ((m₁.mem.write (mergedSize dip n) _).read flagAt sizeofInt) = _
    rw [read_write_beside (Or.inl (by
      simp only [flagAt, didAt, metaSizeAt, sizeofInt]
      omega)), hmem]
    rfl
  have hnsel₂ : m₂.nsel = BitVec.ofNat 32 (n + sels.nsel) := by
    show m₁.nsel + _ = _
    rw [h₁.nsel, ← BitVec.ofNat_add]
  refine ⟨{ m₂ with mem := mem, dbufs := m₂.dbufs ++ [db] }, ?_, ?_⟩
  · rw [MergedBuf.append]
    simp only [hmsize]
    rw [hreserve]
    show (m₁.put m₁.mbufp (m₁.encode dip sels) >>= _) = _
    have hencode : m₁.encode dip sels = sels.encode none 0 := by
      rw [encode, h₁.flag, if_neg Bool.false_ne_true]
    rw [hencode, hput]
    show putTotals _ db = _
    rw [hkNat]
    exact htotals
  · rw [← hcount] at hmbufp₂ hnsel₂
    refine ⟨h₁.size, h₁.mbufe, h₁.selBuf, hmbufp₂, ?_, ?_, ?_, ?_, hnsel₂, ?_, ?_⟩
    · show _ ≤ m₁.metaSizeAlloc.toNat
      rw [hcount, hsize, ← h₁.size]
      exact hroom'
    · rw [hcount, hsize]
      exact hfits
    · show getWord 32 (mem.read metaSizeAt sizeofInt) = _
      rw [hmeta, hmbufp₂, BitVec.ofInt_natCast]
    · show hasFlag (getWord 32 (mem.read flagAt sizeofInt)) FileConfig.selEncode = false
      rw [hflag, hflag₂, h.flag]
    · intro _
      show getWord 32 (mem.read (m₁.selBuf).toNat sizeofInt) = m₂.nsel
      rw [h₁.selBuf]
      exact hnsel
    · have hold : (putWords sizeofOffset (packedWords ws)).length = mergedSize dip n - 32 := by
        rw [Lib.putWords_length, hlen]
        show _ = 28 + 4 + 8 * (dip.ndim * n * 2) - 32
        rw [sizeofOffset]
        omega
      have hplace : 32 + (mergedSize dip n - 32) = mergedSize dip n := by omega
      have hwords : putWords sizeofOffset (packedWords (ws ++ [(db, sels)])) =
          putWords sizeofOffset (packedWords ws) ++ sels.encode none 0 := by
        rw [packedWords_concat, Lib.putWords_append, encode_coords]
      rw [hwords, List.length_append]
      show mem.read 32 _ = _
      rw [hrest _ _ le_rfl]
      show (m₁.mem.write (mergedSize dip n) (sels.encode none 0)).read 32 _ = _
      rw [Store.read_add, read_write_beside (Or.inl (by rw [hold, hplace])), hmem]
      have hpacked := h.packed
      rw [show m.mem.read 32 _ = _ from hpacked, hold, hplace, Store.read_write_self]

/-- What is kept is what is asked. -/
theorem Bounded.within (h : m.Bounded dip ws) : m.Within dip ws where
  size := h.size
  mbufe := h.mbufe
  header_le := by
    rw [h.mbufp]
    exact_mod_cast mergedSize_ge dip _
  mbufp_le := by
    rw [h.mbufp, h.mbufe]
    exact_mod_cast h.room
  metaSize := by
    rw [h.metaSize, h.mbufp]
    exact toInt_ofNat_of_lt h.fits
  count := by
    intro hne
    rw [h.count hne, h.nsel]
  count_toInt := by
    intro hne hn
    rw [h.count hne, h.nsel]
    refine toInt_ofNat_of_lt ?_
    rcases hn with hrank | hn
    · -- a block of a rank above 0 takes room in the entry
      have hfits : 28 + 4 + 8 * (dip.ndim * (writtenBlocks ws).length * 2) < 2 ^ 31 := h.fits
      have hle : (writtenBlocks ws).length ≤ dip.ndim * (writtenBlocks ws).length :=
        Nat.le_mul_of_pos_left _ hrank
      omega
    · exact hn

/-- **The memory holds what `MergedWReq` says**, from the count on. -/
theorem Bounded.body_eq (h : m.Bounded dip ws) (hne : ws ≠ []) {r : MergedWReq} (hr : MergedInv config id dip ws r) :
    m.mem.read sizeofHdr (sizeofInt + r.packed.length) = putWord sizeofInt r.nsel ++ r.packed := by
  have hcount : getWord 32 (m.mem.read sizeofHdr sizeofInt) = r.nsel := by
    have hc := h.count hne
    rw [MergedBuf.count, h.selBuf, h.nsel, ← hr.nsel] at hc
    exact hc
  have hword := Lib.putWord_getWord (k := sizeofInt) (w := 32) rfl (Store.read_length m.mem sizeofHdr sizeofInt)
  rw [Store.read_add, hr.packed, h.packed, ← hcount, hword]

end MergedBuf

/-! ## §5 — sequences of calls. -/

section Runs

variable {config id : I32} {dip : DsetInfo}

theorem appended_concat (calls : List MergedCall) (c : MergedCall) :
    appended (calls ++ [c]) = c.writes (appended calls) := by
  rw [appended, List.foldl_append]
  rfl

theorem appended_rank {calls : List MergedCall} (h : ∀ c ∈ calls, c.Fits dip) :
    ∀ w ∈ appended calls, w.2.ndim = dip.ndim := by
  induction calls using List.reverseRecOn with
  | nil =>
    intro w hw
    cases hw
  | append_singleton calls c ih =>
    have hold := ih fun d hd => h d (List.mem_append_left _ hd)
    have hc := h c (by simp)
    rw [appended_concat]
    cases c with
    | init nsel given =>
      intro w hw
      cases hw
    | append db sels given =>
      intro w hw
      rcases List.mem_append.mp hw with hw | hw
      · exact hold w hw
      · rw [List.mem_singleton.mp hw]
        exact hc

/-- **One call**, on a request to which `ws` were appended or that has no buffer yet. -/
theorem MergedCall.run_bounded (config id : I32) {ws : Writes} {s : Option MergedBuf} {c : MergedCall}
    (hs : ∀ m, s = some m → m.Bounded dip ws) (hnone : s = none → ws = [])
    (hrank : ∀ w ∈ ws, w.2.ndim = dip.ndim) (hc : c.Fits dip)
    (hfits : mergedSize dip (writtenBlocks (c.writes ws)).length < 2 ^ 31) :
    ∃ m, c.run config id dip s = .ok m ∧ m.Bounded dip (c.writes ws) := by
  cases c with
  | init nsel given => exact MergedBuf.init_bounded config id hc given _
  | append db sels given =>
    simp only [MergedCall.writes] at hfits ⊢
    cases s with
    | some m => exact (hs m rfl).append (w := (db, sels)) hc (packedWords_length hrank) hfits
    | none =>
      rw [hnone rfl] at hfits ⊢
      have hsize : mergedSize dip (sels.nsel : ℤ).toNat < 2 ^ 31 := by
        simpa [writtenBlocks, Selections.nsel] using hfits
      obtain ⟨m, hinit, hm⟩ := MergedBuf.init_bounded config id hsize given []
      obtain ⟨m', happend, hm'⟩ := hm.append (w := (db, sels)) hc rfl hfits
      refine ⟨m', ?_, hm'⟩
      show (MergedBuf.init config id dip sels.nsel given [] >>= fun m => m.append dip db sels) = _
      rw [hinit]
      exact happend

theorem runMerged_concat (calls : List MergedCall) (c : MergedCall) :
    runMerged config id dip (calls ++ [c]) =
      runMerged config id dip calls >>= fun s => some <$> c.run config id dip s := by
  rw [runMerged, List.foldlM_append]
  refine bind_congr fun s => ?_
  rw [List.foldlM_cons]
  simp [List.foldlM_nil]

theorem runMerged_bounded (config id : I32) {calls : List MergedCall} (ht : TotalFits dip calls) :
    ∃ s, runMerged config id dip calls = .ok s ∧ (s = none ↔ calls = []) ∧
      ∀ m, s = some m → m.Bounded dip (appended calls) := by
  induction calls using List.reverseRecOn with
  | nil => exact ⟨none, rfl, iff_of_true rfl rfl, fun m hm => absurd hm (Option.some_ne_none m).symm⟩
  | append_singleton calls c ih =>
    have hbefore : TotalFits dip calls :=
      ⟨fun d hd => ht.each d (List.mem_append_left _ hd),
        fun before hb => ht.entry before (hb.trans (List.prefix_append _ _))⟩
    obtain ⟨s, hrun, hnone, hs⟩ := ih hbefore
    have hempty : s = none → appended calls = [] := by
      intro hsn
      rw [hnone.mp hsn]
      rfl
    have hfits := ht.entry _ (List.prefix_refl _)
    rw [appended_concat] at hfits ⊢
    obtain ⟨m, hm, hbounded⟩ := MergedCall.run_bounded config id hs hempty
      (appended_rank hbefore.each) (ht.each c (by simp)) hfits
    refine ⟨some m, ?_, by simp, ?_⟩
    · rw [runMerged_concat, hrun]
      show some <$> c.run config id dip s = _
      rw [hm]
      rfl
    · intro m' hm'
      rw [← Option.some.inj hm']
      exact hbounded

/-- The buffer is the one that `mergedOf` describes. -/
def MergedBuf.Describes (config id : I32) (dip : DsetInfo) (ws : Writes) (m : MergedBuf) : Prop :=
  ws ≠ [] → ∃ r, mergedOf config id dip ws = .ok r ∧
    m.mem.read sizeofHdr (sizeofInt + r.packed.length) = putWord sizeofInt r.nsel ++ r.packed

/-- **Every sequence of calls** whose entry stays below 2 GiB returns; after any call there is a buffer, within its
bounds, that holds the count and the blocks. -/
theorem runMerged_within (config id : I32) {calls : List MergedCall} (ht : TotalFits dip calls) :
    ∃ s, runMerged config id dip calls = .ok s ∧ (s = none ↔ calls = []) ∧
      ∀ m, s = some m → m.Within dip (appended calls) ∧ m.Describes config id dip (appended calls) := by
  obtain ⟨s, hrun, hnone, hs⟩ := runMerged_bounded config id ht
  refine ⟨s, hrun, hnone, ?_⟩
  intro m hm
  refine ⟨(hs m hm).within, ?_⟩
  intro hne
  obtain ⟨r, hr, hinv⟩ := mergedOf_inv config id (appended_rank ht.each) (hs m hm).fits
  exact ⟨r, hr, (hs m hm).body_eq hne hinv⟩

/-- A buffer for one block, and two elements. -/
def twoAppends : List MergedCall :=
  [.init 1 fun _ => 7, .append (sampleElement 0).1 (sampleElement 0).2 fun _ => 7,
    .append (sampleElement 5).1 (sampleElement 5).2 fun _ => 7]

theorem runMerged_twoAppends :
    TotalFits sampleVectorDset twoAppends ∧
      ∃ s, runMerged FileConfig.metadataMerge 0 sampleVectorDset twoAppends = .ok s ∧
        (s = none ↔ twoAppends = []) ∧
        ∀ m, s = some m → m.Within sampleVectorDset (appended twoAppends) ∧
          m.Describes FileConfig.metadataMerge 0 sampleVectorDset (appended twoAppends) := by
  have ht : TotalFits sampleVectorDset twoAppends := by
    refine ⟨?_, ?_⟩
    · intro c hc
      simp only [twoAppends, List.mem_cons, List.not_mem_nil, or_false] at hc
      rcases hc with rfl | rfl | rfl
      · show mergedSize sampleVectorDset 1 < 2 ^ 31
        decide
      · rfl
      · rfl
    · intro before hb
      rw [← List.mem_inits, twoAppends] at hb
      simp only [List.inits, List.map_cons, List.map_nil, List.mem_cons, List.not_mem_nil, or_false] at hb
      rcases hb with rfl | rfl | rfl | rfl <;> decide
  exact ⟨ht, runMerged_within FileConfig.metadataMerge 0 ht⟩

end Runs

end LogVol
