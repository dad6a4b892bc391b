/-
# LogVol.Base — machine integers, flags and faults of the log-based VOL connector.

The connector stores coordinates, offsets and sizes in 64-bit words (`hsize_t`, `MPI_Offset`,
`size_t`) and counts in a C `int`; both wrap, and both are kept here at their own width. The two flag
enumerations it tests with `&` are listed side by side, since the same bit means different things in
them: `MetaFlag` is the `flag` field of a metadata entry, `FileConfig` the `config` field of a file.
-/
import Mathlib

namespace LogVol

/-! ## §1 — machine integers. -/

/-- `hsize_t` and `size_t`: an unsigned 64-bit word. -/
abbrev HSize := BitVec 64

/-- `MPI_Offset`: the same word, read as a signed number by `/`, `%` and comparisons. -/
abbrev MpiOffset := BitVec 64

/-- `int` and `int32_t`. -/
abbrev I32 := BitVec 32

/-- The value an `int` holds after an integer expression was stored in it. -/
def cInt (n : Int) : Int := n.bmod (2 ^ 32)

theorem cInt_of_range {n : Int} (hlo : -(2 ^ 31) ≤ n) (hhi : n < 2 ^ 31) : cInt n = n := by
  unfold cInt
  exact Int.bmod_eq_of_le_mul_two (by omega) (by omega)

theorem cInt_lt (n : Int) : cInt n < 2 ^ 31 := Int.bmod_lt (by decide)

theorem cInt_eq_self_iff {n : Int} (hn : 0 ≤ n) : cInt n = n ↔ n < 2 ^ 31 := by
  refine ⟨?_, fun h => cInt_of_range (by omega) h⟩
  intro h
  rw [← h]
  exact cInt_lt n

theorem toNat_cInt_le (n : ℕ) : (cInt n).toNat ≤ n := by
  rcases Nat.lt_or_ge n (2 ^ 31) with hlt | hge
  · rw [cInt_of_range (by omega) (by omega), Int.toNat_natCast]
  · have hbound := cInt_lt n
    omega

theorem toNat_cInt_lt (n : ℕ) : (cInt n).toNat < 2 ^ 31 := by
  have hbound := cInt_lt n
  omega

/-- A natural number that fits an `int` is read back from one. -/
theorem toInt_ofNat_of_lt {n : Nat} (h : n < 2 ^ 31) : (BitVec.ofNat 32 n).toInt = n := by
  rw [BitVec.toInt_eq_toNat_of_lt, BitVec.toNat_ofNat, Nat.mod_eq_of_lt (by omega)]
  rw [BitVec.toNat_ofNat]
  omega

/-- `sizeof (MPI_Offset)`. -/
def sizeofOffset : Nat := 8

/-- `sizeof (int)`. -/
def sizeofInt : Nat := 4

/-- `sizeof (H5VL_logi_meta_hdr)`: three `int32_t` and two `MPI_Offset`, packed. -/
def sizeofHdr : Nat := 28

/-- `H5S_UNLIMITED`. -/
def unlimited : HSize := BitVec.allOnes 64

/-! ## §2 — flags. -/

namespace MetaFlag

/-! `H5VL_LOGI_META_FLAG_*`: bits of the `flag` field of a metadata entry. -/

def mulSel : I32 := 0x01
def selEncode : I32 := 0x04
def selDeflate : I32 := 0x08
def selRef : I32 := 0x10
def record : I32 := 0x20

end MetaFlag

namespace FileConfig

/-! `H5VL_FILEI_CONFIG_*`: bits of the `config` field of a file. -/

def metadataMerge : I32 := 0x01
def selEncode : I32 := 0x02
def selDeflate : I32 := 0x04
def metadataShare : I32 := 0x08
def passthru : I32 := 0x10
def dataAlign : I32 := 0x100
def subfiling : I32 := 0x200
def singleSubfileRead : I32 := 0x400

end FileConfig

/-- `flags & bit`, read as a condition. -/
def hasFlag (flags bit : I32) : Bool := flags &&& bit != 0

/-- `flags |= bit` under a condition. -/
def orIf (cond : Bool) (bit flags : I32) : I32 := if cond then flags ||| bit else flags

/-- `flags &= ~bit`. -/
def clearFlag (flags bit : I32) : I32 := flags &&& ~~~bit

/-- Testing a bit after another was set. -/
theorem hasFlag_orIf (cond : Bool) (bit bit' flags : I32) :
    hasFlag (orIf cond bit flags) bit' = (cond && hasFlag bit bit' || hasFlag flags bit') := by
  cases cond with
  | false => rfl
  | true =>
      have hor : (flags ||| bit) &&& bit' = 0 ↔ flags &&& bit' = 0 ∧ bit &&& bit' = 0 := by
        rw [BitVec.and_or_distrib_right]
        exact BitVec.or_eq_zero_iff
      rw [Bool.eq_iff_iff]
      simp only [hasFlag, orIf, if_true, Bool.true_and, Bool.or_eq_true, bne_iff_ne, ne_eq, hor]
      tauto

theorem hasFlag_clearFlag_self (flags bit : I32) : hasFlag (clearFlag flags bit) bit = false := by
  have h : clearFlag flags bit &&& bit = 0#32 := by
    unfold clearFlag
    ext i hi
    simp only [BitVec.getElem_and, BitVec.getElem_not, BitVec.getElem_zero]
    cases bit[i] <;> simp
  rw [hasFlag, h]
  rfl

/-- Clearing a bit leaves the others. -/
theorem hasFlag_clearFlag {bit bit' : I32} (h : hasFlag bit bit' = false) (flags : I32) :
    hasFlag (clearFlag flags bit) bit' = hasFlag flags bit' := by
  have hzero : bit &&& bit' = 0#32 := by simpa [hasFlag] using h
  have heq : clearFlag flags bit &&& bit' = flags &&& bit' := by
    unfold clearFlag
    ext i hi
    have hi' : (bit &&& bit')[i] = false := by rw [hzero, BitVec.getElem_zero]
    simp only [BitVec.getElem_and, BitVec.getElem_not] at hi' ⊢
    cases hb : bit[i] <;> simp_all
  rw [hasFlag, heq, hasFlag]

@[simp] theorem hasFlag_zero (bit : I32) : hasFlag 0#32 bit = false := by
  simp [hasFlag]

/-- The bits of an entry's flag are distinct. -/
@[simp] theorem hasFlag_metaFlag :
    hasFlag MetaFlag.mulSel MetaFlag.mulSel = true ∧ hasFlag MetaFlag.mulSel MetaFlag.selEncode = false ∧
    hasFlag MetaFlag.mulSel MetaFlag.selDeflate = false ∧ hasFlag MetaFlag.mulSel MetaFlag.selRef = false ∧
    hasFlag MetaFlag.mulSel MetaFlag.record = false ∧ hasFlag MetaFlag.selEncode MetaFlag.mulSel = false ∧
    hasFlag MetaFlag.selEncode MetaFlag.selEncode = true ∧
    hasFlag MetaFlag.selEncode MetaFlag.selDeflate = false ∧
    hasFlag MetaFlag.selEncode MetaFlag.selRef = false ∧ hasFlag MetaFlag.selEncode MetaFlag.record = false ∧
    hasFlag MetaFlag.selDeflate MetaFlag.mulSel = false ∧
    hasFlag MetaFlag.selDeflate MetaFlag.selEncode = false ∧
    hasFlag MetaFlag.selDeflate MetaFlag.selDeflate = true ∧
    hasFlag MetaFlag.selDeflate MetaFlag.selRef = false ∧
    hasFlag MetaFlag.selDeflate MetaFlag.record = false ∧ hasFlag MetaFlag.selRef MetaFlag.mulSel = false ∧
    hasFlag MetaFlag.selRef MetaFlag.selEncode = false ∧
    hasFlag MetaFlag.selRef MetaFlag.selDeflate = false ∧ hasFlag MetaFlag.selRef MetaFlag.selRef = true ∧
    hasFlag MetaFlag.selRef MetaFlag.record = false ∧ hasFlag MetaFlag.record MetaFlag.mulSel = false ∧
    hasFlag MetaFlag.record MetaFlag.selEncode = false ∧
    hasFlag MetaFlag.record MetaFlag.selDeflate = false ∧ hasFlag MetaFlag.record MetaFlag.selRef = false ∧
    hasFlag MetaFlag.record MetaFlag.record = true := by
  decide

/-! ## §3 — faults. -/

/-- How a call ends when it does not return. -/
inductive Fault where
  /-- `H5VL_logi_exception` with the message the source gives, or an exception of the C++ library. -/
  | raised (msg : String)
  /-- Memory outside the buffer is read or written. -/
  | outside
  /-- The processor traps on an integer division. -/
  | trap
  /-- The call never ends. -/
  | diverged
  deriving DecidableEq, Repr

end LogVol
