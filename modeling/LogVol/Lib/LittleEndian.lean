/-
# LogVol.Lib.LittleEndian — fixed-width machine words as little-endian bytes.

A word of `8 * k` bits occupies `k` bytes of memory, least significant byte first. `leBytes` writes
the bytes of a natural number, `leNat` reads them back (`Nat.ofDigits` in base 256), and
`putWord` / `getWord` are the same maps at the machine word types `BitVec w`. Nothing here knows what
the words are for: a reader of this file could lift it under any binary format.
-/
import Mathlib

namespace LogVol.Lib

/-! ## §1 — natural numbers as bytes. -/

/-- The value of a byte string, least significant byte first. -/
def leNat (bs : List UInt8) : Nat := Nat.ofDigits 256 (bs.map UInt8.toNat)

/-- The `k` low bytes of `n`, least significant first; higher bytes are dropped. -/
def leBytes : Nat → Nat → List UInt8
  | 0, _ => []
  | k + 1, n => UInt8.ofNat n :: leBytes k (n / 256)

@[simp] theorem leNat_nil : leNat [] = 0 := rfl

@[simp] theorem leNat_cons (b : UInt8) (bs : List UInt8) :
    leNat (b :: bs) = b.toNat + 256 * leNat bs := by
  simp only [leNat, List.map_cons, Nat.ofDigits_cons]

@[simp] theorem leBytes_length (k n : Nat) : (leBytes k n).length = k := by
  induction k generalizing n with
  | zero => rfl
  | succ k ih => rw [leBytes, List.length_cons, ih]

/-- The low bytes come first. -/
theorem leBytes_add (j k n : Nat) : leBytes (j + k) n = leBytes j n ++ leBytes k (n / 256 ^ j) := by
  induction j generalizing n with
  | zero => rw [Nat.zero_add, pow_zero, Nat.div_one, leBytes, List.nil_append]
  | succ j ih => rw [Nat.succ_add, leBytes, ih, leBytes, List.cons_append, Nat.div_div_eq_div_mul, pow_succ']

theorem leNat_lt (bs : List UInt8) : leNat bs < 256 ^ bs.length := by
  have h := Nat.ofDigits_lt_base_pow_length (b := 256) (l := bs.map UInt8.toNat) (by omega)
    (by intro d hd
        obtain ⟨b, -, rfl⟩ := List.mem_map.mp hd
        exact b.toNat_lt)
  rwa [List.length_map] at h

/-- Writing `k` bytes and reading them back keeps the number modulo `256 ^ k`. -/
theorem leNat_leBytes (k n : Nat) : leNat (leBytes k n) = n % 256 ^ k := by
  induction k generalizing n with
  | zero => rw [leBytes, leNat_nil, pow_zero, Nat.mod_one]
  | succ k ih =>
      have hb : (UInt8.ofNat n).toNat = n % 256 := UInt8.toNat_ofNat'
      rw [leBytes, leNat_cons, ih, hb, pow_succ', Nat.mod_mul]

/-- Reading a byte string and writing as many bytes gives the string back. -/
theorem leBytes_leNat (bs : List UInt8) : leBytes bs.length (leNat bs) = bs := by
  induction bs with
  | nil => rfl
  | cons b bs ih =>
      have hb : b.toNat < 256 := b.toNat_lt
      have hdiv : (b.toNat + 256 * leNat bs) / 256 = leNat bs := by omega
      have hlow : UInt8.ofNat (b.toNat + 256 * leNat bs) = b := by
        apply UInt8.toNat_inj.mp
        rw [UInt8.toNat_ofNat']
        omega
      rw [List.length_cons, leBytes, leNat_cons, hdiv, hlow, ih]

theorem leBytes_mod (k n : Nat) : leBytes k (n % 256 ^ k) = leBytes k n := by
  have h := leBytes_leNat (leBytes k n)
  rwa [leBytes_length, leNat_leBytes] at h

/-! ## §2 — machine words as bytes. -/

/-- The `k` bytes of a machine word. -/
def putWord (k : Nat) {w : Nat} (v : BitVec w) : List UInt8 := leBytes k v.toNat

/-- The machine word stored in a byte string. -/
def getWord (w : Nat) (bs : List UInt8) : BitVec w := BitVec.ofNat w (leNat bs)

@[simp] theorem putWord_length (k : Nat) {w : Nat} (v : BitVec w) : (putWord k v).length = k :=
  leBytes_length k v.toNat

theorem getWord_putWord {k w : Nat} (hw : w = 8 * k) (v : BitVec w) : getWord w (putWord k v) = v := by
  have hpow : 256 ^ k = 2 ^ w := by
    rw [hw, pow_mul]
    rfl
  apply BitVec.eq_of_toNat_eq
  rw [getWord, putWord, leNat_leBytes, hpow, BitVec.toNat_ofNat, Nat.mod_mod,
    Nat.mod_eq_of_lt v.isLt]

theorem putWord_getWord {k w : Nat} (hw : w = 8 * k) {bs : List UInt8} (hbs : bs.length = k) :
    putWord k (getWord w bs) = bs := by
  have hpow : 256 ^ k = 2 ^ w := by
    rw [hw, pow_mul]
    rfl
  have hlt : leNat bs < 2 ^ w := by
    rw [← hpow, ← hbs]
    exact leNat_lt bs
  subst hbs
  rw [putWord, getWord, BitVec.toNat_ofNat, Nat.mod_eq_of_lt hlt, leBytes_leNat]

/-- Two words with the same bytes are the same word. -/
theorem putWord_inj {k w : Nat} (hw : w = 8 * k) {u v : BitVec w} (h : putWord k u = putWord k v) :
    u = v := by
  rw [← getWord_putWord hw u, h, getWord_putWord hw]

/-- A sequence of machine words, one after another. -/
def putWords (k : Nat) {w : Nat} (vs : List (BitVec w)) : List UInt8 := vs.flatMap (putWord k)

@[simp] theorem putWords_nil (k : Nat) {w : Nat} : putWords k ([] : List (BitVec w)) = [] := rfl

@[simp] theorem putWords_cons (k : Nat) {w : Nat} (v : BitVec w) (vs : List (BitVec w)) :
    putWords k (v :: vs) = putWord k v ++ putWords k vs := rfl

theorem putWords_append (k : Nat) {w : Nat} (us vs : List (BitVec w)) :
    putWords k (us ++ vs) = putWords k us ++ putWords k vs :=
  List.flatMap_append

theorem putWords_flatten (k : Nat) {w : Nat} (vss : List (List (BitVec w))) :
    putWords k vss.flatten = (vss.map (putWords k)).flatten := by
  induction vss with
  | nil => rfl
  | cons vs vss ih => rw [List.flatten_cons, putWords_append, ih, List.map_cons, List.flatten_cons]

@[simp] theorem putWords_length (k : Nat) {w : Nat} (vs : List (BitVec w)) :
    (putWords k vs).length = k * vs.length := by
  induction vs with
  | nil => rfl
  | cons v vs ih =>
      rw [putWords_cons, List.length_append, putWord_length, ih, List.length_cons]
      ring

/-- Two word sequences of one length with the same bytes are the same sequence. -/
theorem putWords_inj {k w : Nat} (hw : w = 8 * k) :
    ∀ {us vs : List (BitVec w)}, us.length = vs.length → putWords k us = putWords k vs → us = vs
  | [], [], _, _ => rfl
  | u :: us, v :: vs, hlen, h => by
      rw [putWords_cons, putWords_cons] at h
      obtain ⟨hu, hus⟩ := List.append_inj h (by rw [putWord_length, putWord_length])
      rw [putWord_inj hw hu, putWords_inj hw (by simpa using hlen) hus]

end LogVol.Lib
