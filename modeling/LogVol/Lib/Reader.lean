/-
# LogVol.Lib.Reader — reading a byte string front to back, and when a reader undoes a writer.

A `Reader ε α` consumes bytes from the front of a string and returns a value or an error of type `ε`.
`Yields r bs x` says that `r`, started on `bs` followed by anything at all, ends as `x` does, and when
it returns a value it has consumed exactly `bs`; `Reads r bs a` is the case where it returns `a`. It is
the round-trip relation between a format's writer (which produced `bs`) and its reader: it composes
along `>>=` (`Yields.bind`, `Yields.andThen`) and along repetition (`Yields.takeMany`), so a format's
round trip is assembled field by field, the lengths being accounted for by the concatenation itself.
-/
import LogVol.Lib.LittleEndian

namespace LogVol.Lib

/-! ## §1 — readers. -/

/-- A computation that consumes bytes and may fail. -/
abbrev Reader (ε α : Type) := StateT (List UInt8) (Except ε) α

/-- The next `n` bytes; `short` when fewer are left. -/
def takeBytes {ε : Type} (short : ε) (n : Nat) : Reader ε (List UInt8) := fun bs =>
  if n ≤ bs.length then .ok (bs.take n, bs.drop n) else .error short

/-- The next machine word of `k` bytes. -/
def takeWord {ε : Type} (short : ε) (k w : Nat) : Reader ε (BitVec w) :=
  getWord w <$> takeBytes short k

/-- Run a reader `n` times and collect the results in order. -/
def takeMany {ε α : Type} (r : Reader ε α) : Nat → Reader ε (List α)
  | 0 => pure []
  | n + 1 => do
      let a ← r
      let as ← takeMany r n
      pure (a :: as)

/-- Fail with `e`. -/
def failWith {ε α : Type} (e : ε) : Reader ε α := fun _ => .error e

/-- A fallible computation that consumes nothing. -/
def pureExcept {ε α : Type} (x : Except ε α) : Reader ε α := fun bs =>
  match x with
  | .ok a => .ok (a, bs)
  | .error e => .error e

/-! ## §2 — a reader that undoes a writer. -/

/-- **`Yields r bs x`** — on `bs`, whatever follows, `r` ends as `x`; with a value, after consuming
exactly `bs`. -/
def Yields {ε α : Type} (r : Reader ε α) (bs : List UInt8) (x : Except ε α) : Prop :=
  ∀ tail, r.run (bs ++ tail) = x.map (·, tail)

/-- **`Reads r bs a`** — `r` consumes exactly `bs`, whatever follows, and returns `a`. -/
abbrev Reads {ε α : Type} (r : Reader ε α) (bs : List UInt8) (a : α) : Prop := Yields r bs (.ok a)

variable {ε α β : Type}

theorem Reads.pure (a : α) : Reads (Pure.pure a : Reader ε α) [] a := fun _ => rfl

/-- What a reader makes of a string is determined. -/
theorem Yields.unique {r : Reader ε α} {bs : List UInt8} {x y : Except ε α} (hx : Yields r bs x)
    (hy : Yields r bs y) : x = y := by
  have h := (hx []).symm.trans (hy [])
  cases x with
  | error e =>
      cases y with
      | error e' => exact congrArg Except.error (Except.error.inj h)
      | ok b => cases h
  | ok a =>
      cases y with
      | error e' => cases h
      | ok b => exact congrArg Except.ok (Prod.mk.inj (Except.ok.inj h)).1

theorem Yields.pureExcept : ∀ x : Except ε α, Yields (pureExcept x) [] x
  | .ok _, _ => rfl
  | .error _, _ => rfl

/-- Sequencing after a reader that may fail: the second one runs only on a value. -/
theorem Yields.andThen {r : Reader ε α} {f : α → Reader ε β} {bs bs' : List UInt8} {x : Except ε α}
    {g : α → Except ε β} (hr : Yields r bs x) (hf : ∀ a, x = .ok a → Yields (f a) bs' (g a)) :
    Yields (r >>= f) (bs ++ bs') (x >>= g) := by
  intro tail
  have h := hr (bs' ++ tail)
  rw [List.append_assoc, StateT.run_bind, h]
  cases x with
  | error e => rfl
  | ok a => exact hf a rfl tail

/-- Sequencing: the second reader starts where the first one stopped. -/
theorem Yields.bind {r : Reader ε α} {f : α → Reader ε β} {bs bs' : List UInt8} {a : α}
    {x : Except ε β} (hr : Reads r bs a) (hf : Yields (f a) bs' x) : Yields (r >>= f) (bs ++ bs') x :=
  hr.andThen (g := fun _ => x) fun _ h => by cases h; exact hf

/-- Sequencing after a reader that consumes nothing. -/
theorem Yields.bind_nil {r : Reader ε α} {f : α → Reader ε β} {bs : List UInt8} {a : α}
    {x : Except ε β} (hr : Reads r [] a) (hf : Yields (f a) bs x) : Yields (r >>= f) bs x :=
  hr.bind hf

/-- Post-processing the value read. -/
theorem Reads.map {r : Reader ε α} {bs : List UInt8} {a : α} (f : α → β) (hr : Reads r bs a) :
    Reads (f <$> r) bs (f a) := by
  intro tail
  rw [StateT.run_map, hr tail]
  rfl

theorem Reads.takeBytes {short : ε} {n : Nat} {bs : List UInt8} (hbs : bs.length = n) :
    Reads (takeBytes short n) bs bs := by
  intro tail
  subst hbs
  show (if bs.length ≤ (bs ++ tail).length then _ else _) = _
  rw [if_pos (by simp), List.take_left, List.drop_left]
  rfl

/-- Reading back one machine word. -/
theorem Reads.takeWord {short : ε} {k w : Nat} (hw : w = 8 * k) (v : BitVec w) :
    Reads (takeWord short k w) (putWord k v) v := by
  have hbytes : Reads (Lib.takeBytes short k) (putWord k v) (putWord k v) :=
    Reads.takeBytes (putWord_length k v)
  have hword := hbytes.map (getWord w)
  rwa [getWord_putWord hw] at hword

/-- Repetition: if `r` undoes `enc` on every element of a list, repeating it undoes the
concatenation of the encodings. -/
theorem Reads.takeMany {γ : Type} {r : Reader ε α} {enc : γ → List UInt8} {dec : γ → α} :
    ∀ {xs : List γ}, (∀ x ∈ xs, Reads r (enc x) (dec x)) →
      Reads (takeMany r xs.length) (xs.flatMap enc) (xs.map dec)
  | [], _ => Reads.pure []
  | x :: xs, h => by
      have hx : Reads r (enc x) (dec x) := h x (List.mem_cons_self ..)
      have hxs := Reads.takeMany fun y hy => h y (List.mem_cons_of_mem x hy)
      have hcons := Yields.bind (f := fun as => Pure.pure (dec x :: as)) hxs (Reads.pure _)
      rw [List.append_nil] at hcons
      exact hx.bind hcons

/-- Repetition of a reader that may fail on some elements: the first failure ends it. -/
theorem Yields.takeMany {γ : Type} {r : Reader ε α} {enc : γ → List UInt8} {dec : γ → Except ε α} :
    ∀ {xs : List γ}, (∀ x ∈ xs, Yields r (enc x) (dec x)) →
      Yields (Lib.takeMany r xs.length) (xs.flatMap enc) (xs.mapM dec)
  | [], _ => Reads.pure []
  | x :: xs, h => by
      have hx : Yields r (enc x) (dec x) := h x (List.mem_cons_self ..)
      have hxs := Yields.takeMany fun y hy => h y (List.mem_cons_of_mem x hy)
      rw [List.mapM_cons, List.flatMap_cons]
      refine hx.andThen fun a _ => ?_
      rw [← List.append_nil (xs.flatMap enc)]
      exact hxs.andThen fun as _ => Reads.pure (a :: as)

/-- Reading back a sequence of machine words. -/
theorem Reads.takeWords {short : ε} {k w n : Nat} (hw : w = 8 * k) {vs : List (BitVec w)}
    (hn : vs.length = n) : Reads (Lib.takeMany (Lib.takeWord short k w) n) (putWords k vs) vs := by
  subst hn
  have h : Reads (Lib.takeMany (Lib.takeWord short k w) vs.length) (vs.flatMap (putWord k))
      (vs.map id) := Reads.takeMany fun v _ => Reads.takeWord hw v
  rwa [List.map_id] at h

/-! ## §3 — computations that may fail. -/

/-- A computation that returned goes on. -/
theorem ok_bind (a : α) (f : α → Except ε β) : (Except.ok a >>= f) = f a := rfl

/-- A sequence of two computations returns a value when both do. -/
theorem bind_eq_ok {x : Except ε α} {f : α → Except ε β} {b : β} :
    (x >>= f) = .ok b ↔ ∃ a, x = .ok a ∧ f a = .ok b := by
  cases x with
  | error e => exact ⟨fun h => (nomatch h), fun ⟨_, h, _⟩ => (nomatch h)⟩
  | ok a => exact ⟨fun h => ⟨a, rfl, h⟩, fun ⟨_, h, hf⟩ => by cases h; exact hf⟩

/-- A traversal returns the values of its elements, in order. -/
theorem mapM_eq_ok_iff {f : α → Except ε β} :
    ∀ {xs : List α} {ys : List β},
      xs.mapM f = .ok ys ↔ List.Forall₂ (fun x y => f x = .ok y) xs ys
  | [], ys => by
      rw [List.mapM_nil, List.forall₂_nil_left_iff]
      exact ⟨fun h => (Except.ok.inj h).symm, fun h => by rw [h]; rfl⟩
  | x :: xs, ys => by
      rw [List.mapM_cons, bind_eq_ok, List.forall₂_cons_left_iff]
      constructor
      · rintro ⟨y, hy, hrest⟩
        obtain ⟨ys', hys', hcons⟩ := bind_eq_ok.mp hrest
        exact ⟨y, ys', hy, mapM_eq_ok_iff.mp hys', (Except.ok.inj hcons).symm⟩
      · rintro ⟨y, ys', hy, hys', rfl⟩
        exact ⟨y, hy, bind_eq_ok.mpr ⟨ys', mapM_eq_ok_iff.mpr hys', rfl⟩⟩

/-- A traversal by a function that returns `g x` when `P x`, and fails otherwise. -/
theorem mapM_eq_ok_map_iff {f : α → Except ε β} {g : α → β} {P : α → Prop} {ys : List β} :
    ∀ {xs : List α}, (∀ x ∈ xs, ∀ y, f x = .ok y ↔ P x ∧ y = g x) →
      (xs.mapM f = .ok ys ↔ (∀ x ∈ xs, P x) ∧ ys = xs.map g) := by
  intro xs h
  rw [mapM_eq_ok_iff]
  induction xs generalizing ys with
  | nil => simp
  | cons x xs ih =>
      have hx := h x (List.mem_cons_self ..)
      have hxs := fun ys => @ih ys fun z hz => h z (List.mem_cons_of_mem x hz)
      rw [List.forall₂_cons_left_iff]
      constructor
      · rintro ⟨y, ys, hy, hrest, rfl⟩
        obtain ⟨hp, rfl⟩ := (hx y).mp hy
        obtain ⟨hps, rfl⟩ := (hxs ys).mp hrest
        exact ⟨List.forall_mem_cons.mpr ⟨hp, hps⟩, rfl⟩
      · rintro ⟨hp, rfl⟩
        obtain ⟨hp, hps⟩ := List.forall_mem_cons.mp hp
        exact ⟨g x, xs.map g, (hx _).mpr ⟨hp, rfl⟩, (hxs _).mpr ⟨hps, rfl⟩, rfl⟩

theorem mapM_congr {f g : α → Except ε β} {xs : List α} (h : ∀ x ∈ xs, f x = g x) : xs.mapM f = xs.mapM g := by
  induction xs with
  | nil => rfl
  | cons x xs ih =>
    obtain ⟨hx, hxs⟩ := List.forall_mem_cons.mp h
    rw [List.mapM_cons, List.mapM_cons, hx, ih hxs]

/-- What a traversal returns comes from one of its elements. -/
theorem mem_of_mapM_ok {f : α → Except ε β} {xs : List α} {ys : List β} (h : xs.mapM f = .ok ys) {y : β}
    (hy : y ∈ ys) : ∃ x ∈ xs, f x = .ok y := by
  have hall := mapM_eq_ok_iff.mp h
  clear h
  induction hall with
  | nil => exact absurd hy List.not_mem_nil
  | cons hx _ ih =>
      rcases List.mem_cons.mp hy with rfl | hy
      · exact ⟨_, List.mem_cons_self .., hx⟩
      · obtain ⟨x, hmem, hx⟩ := ih hy
        exact ⟨x, List.mem_cons_of_mem _ hmem, hx⟩

/-- A traversal whose every step returns a value returns all of them. -/
theorem exists_mapM_ok {f : α → Except ε β} {P : α → β → Prop} :
    ∀ {xs : List α}, (∀ x ∈ xs, ∃ y, f x = .ok y ∧ P x y) →
      ∃ ys, xs.mapM f = .ok ys ∧ List.Forall₂ P xs ys
  | [], _ => ⟨[], rfl, List.Forall₂.nil⟩
  | x :: xs, h => by
      obtain ⟨y, hy, hp⟩ := h x (List.mem_cons_self ..)
      obtain ⟨ys, hys, hps⟩ := exists_mapM_ok fun z hz => h z (List.mem_cons_of_mem x hz)
      exact ⟨y :: ys, by rw [List.mapM_cons, hy, hys]; rfl, hps.cons hp⟩

/-- A traversal returns when every step does. -/
theorem mapM_isOk_iff {f : α → Except ε β} {xs : List α} :
    (∃ ys, xs.mapM f = .ok ys) ↔ ∀ x ∈ xs, (f x).isOk = true := by
  refine ⟨?_, ?_⟩
  · rintro ⟨ys, h⟩ x hx
    have hall := mapM_eq_ok_iff.mp h
    clear h
    induction hall with
    | nil => exact absurd hx List.not_mem_nil
    | cons hy _ ih =>
        rcases List.mem_cons.mp hx with rfl | hx
        · rw [hy]
          rfl
        · exact ih hx
  · intro h
    have hsome : ∀ x ∈ xs, ∃ y, f x = .ok y ∧ True := by
      intro x hx
      have hok := h x hx
      cases hfx : f x with
      | error e => rw [hfx] at hok; cases hok
      | ok y => exact ⟨y, rfl, trivial⟩
    obtain ⟨ys, hys, -⟩ := exists_mapM_ok hsome
    exact ⟨ys, hys⟩

/-! ## §4 — a reader as the inverse of a format. -/

/-- **`Accepts r E`** — `r` returns `a` exactly on the strings that begin with an encoding of `a`, and
leaves what follows it. -/
def Accepts (r : Reader ε α) (E : List UInt8 → α → Prop) : Prop :=
  ∀ bs a rest, r.run bs = .ok (a, rest) ↔ ∃ enc, E enc a ∧ bs = enc ++ rest

/-- A sequence of two readers returns a value when both do, the second one on what the first left. -/
theorem run_bind_eq_ok {r : Reader ε α} {f : α → Reader ε β} {bs rest : List UInt8} {b : β} :
    (r >>= f).run bs = .ok (b, rest) ↔
      ∃ a mid, r.run bs = .ok (a, mid) ∧ (f a).run mid = .ok (b, rest) := by
  rw [StateT.run_bind, bind_eq_ok, Prod.exists]

theorem run_pureExcept_eq_ok {x : Except ε α} {bs rest : List UInt8} {a : α} :
    (pureExcept x).run bs = .ok (a, rest) ↔ x = .ok a ∧ bs = rest := by
  cases x with
  | error e =>
      constructor
      · intro h
        cases h
      · rintro ⟨h, -⟩
        cases h
  | ok b =>
      show Except.ok (b, bs) = Except.ok (a, rest) ↔ _
      rw [Except.ok.injEq, Except.ok.injEq, Prod.mk.injEq]

/-- A reader that read an encoding back goes on with what follows it. -/
theorem Reads.run_bind {r : Reader ε α} {f : α → Reader ε β} {bs : List UInt8} {a : α}
    (hr : Reads r bs a) (tail : List UInt8) : (r >>= f).run (bs ++ tail) = (f a).run tail := by
  rw [StateT.run_bind, hr tail]
  rfl

theorem Accepts.takeWord {short : ε} {k w : Nat} (hw : w = 8 * k) :
    Accepts (Lib.takeWord short k w) fun enc v => enc = putWord k v := by
  intro bs v rest
  constructor
  · intro h
    have hrun : (Lib.takeWord short k w).run bs =
        if k ≤ bs.length then .ok (getWord w (bs.take k), bs.drop k) else .error short := by
      show (if k ≤ bs.length then _ else _ : Except ε _) >>= _ = _
      split <;> rfl
    rw [hrun] at h
    split at h
    · rename_i hlen
      obtain ⟨hv, hrest⟩ := Prod.mk.inj (Except.ok.inj h)
      have htake : (bs.take k).length = k := by
        rw [List.length_take]
        omega
      refine ⟨bs.take k, ?_, ?_⟩
      · rw [← hv]
        exact (putWord_getWord hw htake).symm
      · rw [← hrest, List.take_append_drop]
    · cases h
  · rintro ⟨enc, rfl, rfl⟩
    exact Reads.takeWord hw v rest

/-- Repetition accepts the concatenations of as many encodings. -/
theorem Accepts.takeMany {r : Reader ε α} {E : List UInt8 → α → Prop} (hr : Accepts r E) :
    ∀ n : Nat, Accepts (Lib.takeMany r n) fun enc as =>
      as.length = n ∧ ∃ encs, List.Forall₂ E encs as ∧ enc = encs.flatten
  | 0 => by
      intro bs as rest
      show Except.ok ([], bs) = Except.ok (as, rest) ↔ _
      rw [Except.ok.injEq, Prod.mk.injEq]
      constructor
      · rintro ⟨rfl, rfl⟩
        exact ⟨[], ⟨rfl, [], List.Forall₂.nil, rfl⟩, rfl⟩
      · rintro ⟨enc, ⟨hlen, encs, hall, rfl⟩, rfl⟩
        obtain rfl := List.length_eq_zero_iff.mp hlen
        cases hall
        exact ⟨rfl, rfl⟩
  | n + 1 => by
      intro bs as rest
      rw [Lib.takeMany, run_bind_eq_ok]
      constructor
      · rintro ⟨a, mid, ha, hrest⟩
        obtain ⟨as', mid', has, hcons⟩ := run_bind_eq_ok.mp hrest
        obtain ⟨rfl, rfl⟩ := Prod.mk.inj (Except.ok.inj hcons)
        obtain ⟨enc, henc, rfl⟩ := (hr bs a mid).mp ha
        obtain ⟨enc', ⟨hlen, encs, hall, rfl⟩, rfl⟩ := (hr.takeMany n mid as' mid').mp has
        refine ⟨enc ++ encs.flatten, ⟨by rw [List.length_cons, hlen], enc :: encs, hall.cons henc, ?_⟩,
          by rw [List.append_assoc]⟩
        rw [List.flatten_cons]
      · rintro ⟨enc, ⟨hlen, encs, hall, rfl⟩, rfl⟩
        cases hall with
        | nil => cases hlen
        | @cons e a encs as he hall =>
            -- An encoding of the first item, and then those of the rest, by recursion.
            have hmany := (hr.takeMany n (encs.flatten ++ rest) as rest).mpr
              ⟨encs.flatten, ⟨by simpa using hlen, encs, hall, rfl⟩, rfl⟩
            refine ⟨a, encs.flatten ++ rest, (hr _ _ _).mpr ⟨e, he, ?_⟩,
              run_bind_eq_ok.mpr ⟨as, rest, hmany, rfl⟩⟩
            rw [List.flatten_cons, List.append_assoc]

theorem forall₂_eq_map {γ : Type} {f : γ → α} : ∀ {xs : List α} {ys : List γ},
    List.Forall₂ (fun x y => x = f y) xs ys ↔ xs = ys.map f
  | xs, [] => by rw [List.forall₂_nil_right_iff, List.map_nil]
  | xs, y :: ys => by
      rw [List.forall₂_cons_right_iff, List.map_cons]
      constructor
      · rintro ⟨x, xs', rfl, h, rfl⟩
        rw [forall₂_eq_map.mp h]
      · rintro rfl
        exact ⟨f y, ys.map f, rfl, forall₂_eq_map.mpr rfl, rfl⟩

/-- The strings that begin with `n` machine words. -/
theorem Accepts.takeWords {short : ε} {k w n : Nat} (hw : w = 8 * k) :
    Accepts (Lib.takeMany (Lib.takeWord short k w) n) fun enc vs =>
      vs.length = n ∧ enc = putWords k vs := by
  intro bs vs rest
  rw [(Accepts.takeWord hw).takeMany n]
  have h (enc : List UInt8) : (∃ encs, List.Forall₂ (fun e (v : BitVec w) => e = putWord k v) encs vs ∧
      enc = encs.flatten) ↔ enc = putWords k vs := by
    constructor
    · rintro ⟨encs, hall, rfl⟩
      rw [forall₂_eq_map.mp hall, putWords, List.flatMap_def]
    · rintro rfl
      exact ⟨vs.map (putWord k), forall₂_eq_map.mpr rfl, by rw [putWords, List.flatMap_def]⟩
  simp only [h]

end LogVol.Lib
