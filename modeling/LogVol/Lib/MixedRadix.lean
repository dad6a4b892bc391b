/-
# LogVol.Lib.MixedRadix — positional numerals over arbitrary steps, with truncated division.

A numeral is a list of digits against a list of steps; its value is the sum of `digit * step`
(`radixValue`). Reading the digits back divides by each step in turn and keeps the remainder
(`radixDigits`), the way C's `/` and `%` do it: quotients are truncated towards zero and a zero step
has no quotient. `radixDigits_eq_some_iff` says exactly which digit lists are read back: the value has
to be that of the digits, and every tail of the numeral has to be smaller in magnitude than the step
before it and must not pull the other way (`RadixCanonical`).

For steps that are the suffix products of a list of sizes (row-major addressing) the condition is the
textbook one: every digit but the first is below its size (`radixCanonical_suffixProds_iff`).
-/
import Mathlib

namespace LogVol.Lib

/-! ## §1 — values, digits, and the numerals that are read back. -/

/-- The value of a numeral: the sum of `digit * step`. -/
def radixValue : List Int → List Int → Int
  | s :: ss, c :: cs => c * s + radixValue ss cs
  | _, _ => 0

/-- Peel off the digits of `n`, most significant step first; `none` at a zero step. -/
def radixDigits : List Int → Int → Option (List Int)
  | [], _ => some []
  | s :: ss, n => if s = 0 then none else (radixDigits ss (n.tmod s)).map (n.tdiv s :: ·)

/-- **`RadixCanonical ss cs`** — every tail of the numeral is smaller in magnitude than the step it
follows, and has the sign of the part before it (or is zero). -/
def RadixCanonical : List Int → List Int → Prop
  | s :: ss, c :: cs =>
      (radixValue ss cs).natAbs < s.natAbs ∧ 0 ≤ c * s * radixValue ss cs ∧ RadixCanonical ss cs
  | _, _ => True

instance radixCanonicalDecidable : ∀ ss cs, Decidable (RadixCanonical ss cs)
  | [], _ => isTrue trivial
  | _ :: _, [] => isTrue trivial
  | s :: ss, c :: cs =>
      have := radixCanonicalDecidable ss cs
      inferInstanceAs (Decidable ((radixValue ss cs).natAbs < s.natAbs ∧
        0 ≤ c * s * radixValue ss cs ∧ RadixCanonical ss cs))

/-- Truncated division is determined by a remainder that is small and does not change the sign. -/
theorem tdiv_tmod_iff {n s q r : Int} (hs : s ≠ 0) :
    n.tdiv s = q ∧ n.tmod s = r ↔ n = q * s + r ∧ r.natAbs < s.natAbs ∧ 0 ≤ q * s * r := by
  have hcomm : q * s = s * q := mul_comm q s
  rcases le_total 0 n with hn | hn
  · rw [Int.tdiv_tmod_unique hn hs]
    constructor
    · rintro ⟨hv, hr0, hrs⟩
      have hq : 0 ≤ q * s := by
        by_contra hneg
        -- A multiple of s that is not 0 is no smaller than s, and the remainder is.
        have habs : (s.natAbs : Int) ≤ -(q * s) := by
          have hd : s ∣ -(q * s) := ⟨-q, by ring⟩
          have hle := Int.le_of_dvd (by omega) (Int.natAbs_dvd.mpr hd)
          exact hle
        omega
      exact ⟨by omega, by omega, mul_nonneg hq hr0⟩
    · rintro ⟨hv, hlt, hsign⟩
      refine ⟨by omega, ?_, by omega⟩
      by_contra hneg
      have hr : r < 0 := by omega
      have hq : q * s ≤ 0 := by nlinarith
      omega
  · rw [Int.tdiv_tmod_unique' hn hs]
    constructor
    · rintro ⟨hv, hrs, hr0⟩
      have hq : q * s ≤ 0 := by
        by_contra hpos
        have habs : (s.natAbs : Int) ≤ q * s := by
          have hd : s ∣ q * s := ⟨q, by ring⟩
          exact Int.le_of_dvd (by omega) (Int.natAbs_dvd.mpr hd)
        omega
      exact ⟨by omega, by omega, mul_nonneg_of_nonpos_of_nonpos hq hr0⟩
    · rintro ⟨hv, hlt, hsign⟩
      refine ⟨by omega, by omega, ?_⟩
      by_contra hpos
      have hr : 0 < r := by omega
      have hq : 0 ≤ q * s := by nlinarith
      omega

/-- **Reading a numeral back.** Against steps ending in `1`, the digits of `n` are `cs` exactly when
`n` is the value of `cs` and `cs` is canonical. -/
theorem radixDigits_eq_some_iff :
    ∀ {ss cs : List Int} {n : Int}, ss.getLast? = some 1 → cs.length = ss.length →
      (radixDigits ss n = some cs ↔ n = radixValue ss cs ∧ RadixCanonical ss cs)
  | [s], [c], n, hlast, _ => by
      obtain rfl : s = 1 := by simpa using hlast
      simp [radixDigits, radixValue, RadixCanonical]
  | s :: s' :: ss, c :: cs, n, hlast, hlen => by
      have ih : radixDigits (s' :: ss) (n.tmod s) = some cs ↔
          n.tmod s = radixValue (s' :: ss) cs ∧ RadixCanonical (s' :: ss) cs :=
        radixDigits_eq_some_iff (by simpa using hlast) (by simpa using hlen)
      rw [radixDigits, radixValue, RadixCanonical]
      rcases eq_or_ne s 0 with rfl | hs
      · simp
      · rw [if_neg hs, Option.map_eq_some_iff]
        constructor
        · rintro ⟨ds, hds, hcons⟩
          obtain ⟨hq, rfl⟩ := List.cons.inj hcons
          obtain ⟨hr, hcan⟩ := ih.mp hds
          obtain ⟨hv, hlt, hsign⟩ := (tdiv_tmod_iff hs).mp ⟨hq, hr⟩
          exact ⟨hv, hlt, hsign, hcan⟩
        · rintro ⟨hv, hlt, hsign, hcan⟩
          obtain ⟨hq, hr⟩ := (tdiv_tmod_iff hs).mpr ⟨hv, hlt, hsign⟩
          exact ⟨cs, ih.mpr ⟨hr, hcan⟩, by rw [hq]⟩

/-- A numeral over its own digits is worth the sum of their squares and its last digit. -/
theorem radixValue_self (ss : List Int) (x : Int) :
    radixValue (ss ++ [1]) (ss ++ [x]) = (ss.map fun s => s * s).sum + x := by
  induction ss with
  | nil => simp [radixValue]
  | cons s ss ih =>
      rw [List.cons_append, List.cons_append, radixValue, ih, List.map_cons, List.sum_cons]
      ring

/-- A number is never read back, over nonempty steps and a final `1`, as those steps and itself. -/
theorem radixDigits_self_ne {ss : List Int} (x : Int) (hss : ss ≠ []) :
    radixDigits (ss ++ [1]) x ≠ some (ss ++ [x]) := by
  intro h
  obtain ⟨hv, hcan⟩ := (radixDigits_eq_some_iff (by simp) (by simp)).mp h
  rw [radixValue_self] at hv
  obtain ⟨s, ss, rfl⟩ := List.exists_cons_of_ne_nil hss
  rw [List.cons_append, List.cons_append, RadixCanonical] at hcan
  have hs : s ≠ 0 := by
    rintro rfl
    have := hcan.1
    omega
  have hsq : 0 < s * s := mul_self_pos.mpr hs
  have hrest : 0 ≤ (ss.map fun s => s * s).sum := List.sum_nonneg fun y hy => by
    obtain ⟨t, -, rfl⟩ := List.mem_map.mp hy
    exact mul_self_nonneg t
  rw [List.map_cons, List.sum_cons] at hv
  omega

/-! ## §2 — steps that are suffix products of sizes. -/

/-- The number of cells below each position: the product of the sizes after it. -/
def suffixProds : List Nat → List Nat
  | [] => []
  | _ :: ds => ds.prod :: suffixProds ds

@[simp] theorem suffixProds_length (ds : List Nat) : (suffixProds ds).length = ds.length := by
  induction ds with
  | nil => rfl
  | cons d ds ih => rw [suffixProds, List.length_cons, ih, List.length_cons]

/-- Every step is at most the number of cells. -/
theorem le_prod_of_mem_suffixProds {ds : List Nat} (hpos : ∀ d ∈ ds, 1 ≤ d) {s : Nat}
    (hs : s ∈ suffixProds ds) : s ≤ ds.prod := by
  induction ds with
  | nil => cases hs
  | cons d ds ih =>
      have hd : 1 ≤ d := hpos d (List.mem_cons_self ..)
      have hle : ds.prod ≤ d * ds.prod := Nat.le_mul_of_pos_left _ hd
      rw [List.prod_cons]
      rcases List.mem_cons.mp hs with rfl | hs
      · exact hle
      · exact (ih (fun x hx => hpos x (List.mem_cons_of_mem _ hx)) hs).trans hle

/-- The value of a numeral of natural digits and steps. -/
def natValue : List Nat → List Nat → Nat
  | s :: ss, c :: cs => c * s + natValue ss cs
  | _, _ => 0

theorem radixValue_natCast (ss cs : List Nat) :
    radixValue (ss.map Int.ofNat) (cs.map Int.ofNat) = natValue ss cs := by
  induction ss generalizing cs with
  | nil => cases cs <;> rfl
  | cons s ss ih =>
      cases cs with
      | nil => rfl
      | cons c cs =>
          simp only [List.map_cons, radixValue, natValue, ih cs]
          push_cast
          rfl

/-- Digits below their sizes stay below the number of cells. -/
theorem natValue_lt_prod {ds cs : List Nat} (h : List.Forall₂ (· < ·) cs ds) :
    natValue (suffixProds ds) cs < ds.prod := by
  induction h with
  | nil => simp [natValue, suffixProds]
  | @cons c d cs ds hcd _ ih =>
      rw [suffixProds, natValue, List.prod_cons]
      calc c * ds.prod + natValue (suffixProds ds) cs
          < c * ds.prod + ds.prod := by omega
        _ = (c + 1) * ds.prod := by ring
        _ ≤ d * ds.prod := Nat.mul_le_mul_right _ hcd

/-- **Row-major addressing.** Over suffix products of positive sizes a numeral is canonical exactly
when every digit after the first is below its size. -/
theorem radixCanonical_suffixProds_iff :
    ∀ {d : Nat} {ds : List Nat} {c : Nat} {cs : List Nat}, (∀ x ∈ ds, 1 ≤ x) →
      cs.length = ds.length →
      (RadixCanonical ((suffixProds (d :: ds)).map Int.ofNat) ((c :: cs).map Int.ofNat) ↔
        List.Forall₂ (· < ·) cs ds)
  | d, [], c, [], _, _ => by simp [suffixProds, RadixCanonical, radixValue]
  | d, d' :: ds, c, c' :: cs, hpos, hlen => by
      have ih : RadixCanonical ((suffixProds (d' :: ds)).map Int.ofNat)
          ((c' :: cs).map Int.ofNat) ↔ List.Forall₂ (· < ·) cs ds :=
        radixCanonical_suffixProds_iff (fun x hx => hpos x (List.mem_cons_of_mem _ hx))
          (by simpa using hlen)
      have hprod : 0 < ds.prod :=
        List.prod_pos fun x hx => hpos x (List.mem_cons_of_mem _ hx)
      rw [suffixProds, List.map_cons, List.map_cons, RadixCanonical, radixValue_natCast, ih,
        List.forall₂_cons]
      have habs : ∀ m : Nat, (Int.ofNat m).natAbs = m := fun _ => rfl
      constructor
      · rintro ⟨hlt, -, hcs⟩
        refine ⟨?_, hcs⟩
        rw [Int.natAbs_natCast, habs, suffixProds, natValue, List.prod_cons] at hlt
        by_contra hge
        have hle : d' * ds.prod ≤ c' * ds.prod := Nat.mul_le_mul_right _ (by omega)
        omega
      · rintro ⟨hc, hcs⟩
        refine ⟨?_, ?_, hcs⟩
        · rw [Int.natAbs_natCast, habs]
          exact natValue_lt_prod (List.Forall₂.cons hc hcs)
        · have hn : ∀ m : Nat, (0 : Int) ≤ Int.ofNat m := Int.natCast_nonneg
          exact mul_nonneg (mul_nonneg (hn _) (hn _)) (Int.natCast_nonneg _)

end LogVol.Lib
