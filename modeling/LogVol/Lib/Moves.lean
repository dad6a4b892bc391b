/-
# LogVol.Lib.Moves — moves of bytes, ordered by where they come from.

A move takes `len` bytes from `src` to `dst`. Moves are in order when each takes its bytes from behind those of
the moves before it. `trimAll` makes them so: from every move it cuts off what a move before it has taken
already (`trimAll_inOrder`), and together they take what they took before (`trimAll_takes`), each byte to where
the first of them that takes it does (`trimAll_carries`).
-/
import Mathlib

namespace LogVol.Lib

structure Move where
  src : ℤ
  dst : ℤ
  len : ℤ
  deriving DecidableEq, Repr

namespace Move

/-- The byte behind the last one that is taken. -/
def stop (m : Move) : ℤ := m.src + m.len

/-- The byte at `x` is taken. -/
def Takes (m : Move) (x : ℤ) : Prop := m.src ≤ x ∧ x < m.stop

instance (m : Move) (x : ℤ) : Decidable (m.Takes x) := inferInstanceAs (Decidable (_ ∧ _))

/-- The byte at `x` goes to `d`. -/
def Carries (m : Move) (x d : ℤ) : Prop := m.Takes x ∧ d = m.dst + (x - m.src)

/-- Without what `k` has taken, if `k` begins first. -/
def trim (k l : Move) : Move :=
  if l.src < k.stop then
    let n := min l.len (k.stop - l.src)
    ⟨l.src + n, l.dst + n, l.len - n⟩
  else l

end Move

/-- **In order**: of two moves that take anything, the first is through before the second begins. -/
def InOrder (ms : List Move) : Prop := ms.Pairwise fun k l => 0 < k.len → 0 < l.len → k.stop ≤ l.src

/-- The moves that take anything begin one after the other. -/
def BeginsInOrder (ms : List Move) : Prop := ms.Pairwise fun k l => 0 < l.len → k.src ≤ l.src

/-- From every move, what the moves before it take is cut off. -/
def trimAll : List Move → List Move
  | [] => []
  | k :: ms => k :: trimAll (ms.map k.trim)
termination_by ms => ms.length

variable {k l m : Move} {ms : List Move} {x e : ℤ}

theorem trimAll_cons (k : Move) (ms : List Move) : trimAll (k :: ms) = k :: trimAll (ms.map k.trim) := by
  rw [trimAll]

/-- Induction along the cuts. -/
@[elab_as_elim]
theorem trimAll_induction {P : List Move → Prop} (nil : P []) (cons : ∀ k ms, P (ms.map k.trim) → P (k :: ms))
    (ms : List Move) : P ms := by
  induction hn : ms.length generalizing ms with
  | zero =>
    rw [List.length_eq_zero_iff.mp hn]
    exact nil
  | succ n ih =>
    obtain ⟨k, ms, rfl⟩ := List.exists_cons_of_length_eq_add_one hn
    apply cons
    apply ih
    rw [List.length_map]
    exact Nat.succ.inj hn

/-! ## §1 — one move. -/

theorem trim_len (hl : 0 ≤ l.len) : 0 ≤ (k.trim l).len ∧ (k.trim l).len ≤ l.len := by
  unfold Move.trim
  split
  · dsimp only
    omega
  · exact ⟨hl, le_rfl⟩

theorem trim_stop (k l : Move) : (k.trim l).stop = l.stop := by
  unfold Move.trim
  split
  · simp only [Move.stop]
    omega
  · rfl

theorem trim_src (hl : 0 ≤ l.len) : l.src ≤ (k.trim l).src := by
  unfold Move.trim
  split
  · dsimp only
    omega
  · exact le_rfl

/-- What is left begins behind `k`. -/
theorem trim_behind (hk : 0 < (k.trim l).len) : k.stop ≤ (k.trim l).src := by
  unfold Move.trim at hk ⊢
  split
  · rename_i hlt
    rw [if_pos hlt] at hk
    dsimp only at hk ⊢
    omega
  · omega

/-- Nothing is cut off twice. -/
theorem trim_takes (hle : 0 < l.len → k.src ≤ l.src) (hl : 0 ≤ l.len) :
    (k.trim l).Takes x ∨ k.Takes x ↔ l.Takes x ∨ k.Takes x := by
  unfold Move.Takes
  rw [trim_stop]
  unfold Move.trim
  split
  · simp only [Move.stop] at *
    omega
  · exact Iff.rfl

/-! ## §2 — all of them. -/

/-- Two moves that `k` cuts begin as before, if the second is not used up. -/
theorem trim_mono (hm : 0 ≤ m.len) (hlm : 0 < m.len → l.src ≤ m.src)
    (hne : 0 < (k.trim m).len) : (k.trim l).src ≤ (k.trim m).src := by
  have hpos : 0 < m.len := lt_of_lt_of_le hne (trim_len hm).2
  have hstart := hlm hpos
  have hbehind := trim_behind hne
  have hsrc := @trim_src k m hm
  have hsrc' : (k.trim l).src ≤ l.src ∨ (k.trim l).src ≤ k.stop := by
    unfold Move.trim
    split
    · dsimp only
      omega
    · exact Or.inl le_rfl
  omega

theorem beginsInOrder_trim (hlen : ∀ l ∈ ms, 0 ≤ l.len) (h : BeginsInOrder ms) :
    BeginsInOrder (ms.map k.trim) := by
  rw [BeginsInOrder, List.pairwise_map]
  exact h.imp_of_mem fun _ hm hlm => trim_mono (hlen _ hm) hlm

theorem trim_len_all (hlen : ∀ l ∈ ms, 0 ≤ l.len) : ∀ l ∈ ms.map k.trim, 0 ≤ l.len := by
  intro l hl
  obtain ⟨l₀, hl₀, rfl⟩ := List.mem_map.mp hl
  exact (trim_len (hlen l₀ hl₀)).1

/-- What is left of each is behind what each was behind. -/
theorem trimAll_behind (hlen : ∀ l ∈ ms, 0 ≤ l.len) (h : ∀ l ∈ ms, 0 < l.len → e ≤ l.src) :
    ∀ l ∈ trimAll ms, 0 < l.len → e ≤ l.src := by
  induction ms using trimAll_induction with
  | nil =>
    rw [trimAll]
    exact fun l hl => absurd hl List.not_mem_nil
  | cons k ms ih =>
    obtain ⟨hk, hlen⟩ := List.forall_mem_cons.mp hlen
    obtain ⟨hek, h⟩ := List.forall_mem_cons.mp h
    rw [trimAll_cons]
    refine List.forall_mem_cons.mpr ⟨hek, ?_⟩
    apply ih
    · exact trim_len_all hlen
    · intro l hl hpos
      obtain ⟨l₀, hl₀, rfl⟩ := List.mem_map.mp hl
      have hlen₀ := hlen l₀ hl₀
      exact (h l₀ hl₀ (lt_of_lt_of_le hpos (trim_len hlen₀).2)).trans (trim_src hlen₀)

/-- The lengths stay at least zero. -/
theorem trimAll_len (hlen : ∀ l ∈ ms, 0 ≤ l.len) : ∀ l ∈ trimAll ms, 0 ≤ l.len := by
  induction ms using trimAll_induction with
  | nil =>
    rw [trimAll]
    exact fun l hl => absurd hl List.not_mem_nil
  | cons k ms ih =>
    obtain ⟨hk, hlen⟩ := List.forall_mem_cons.mp hlen
    rw [trimAll_cons]
    refine List.forall_mem_cons.mpr ⟨hk, ?_⟩
    exact ih (trim_len_all hlen)

/-- **What is cut is in order.** -/
theorem trimAll_inOrder (hlen : ∀ l ∈ ms, 0 ≤ l.len) (h : BeginsInOrder ms) : InOrder (trimAll ms) := by
  induction ms using trimAll_induction with
  | nil =>
    rw [trimAll]
    exact List.Pairwise.nil
  | cons k ms ih =>
    obtain ⟨-, hlen⟩ := List.forall_mem_cons.mp hlen
    obtain ⟨-, h⟩ := List.pairwise_cons.mp h
    rw [trimAll_cons]
    refine List.pairwise_cons.mpr ⟨?_, ?_⟩
    · intro l hl _ hpos
      refine trimAll_behind (trim_len_all hlen) ?_ l hl hpos
      intro m hm hne
      obtain ⟨m₀, -, rfl⟩ := List.mem_map.mp hm
      exact trim_behind hne
    · exact ih (trim_len_all hlen) (beginsInOrder_trim hlen h)

/-- **And takes the same.** -/
theorem trimAll_takes (hlen : ∀ l ∈ ms, 0 ≤ l.len) (h : BeginsInOrder ms) (x : ℤ) :
    (∃ l ∈ trimAll ms, l.Takes x) ↔ ∃ l ∈ ms, l.Takes x := by
  induction ms using trimAll_induction with
  | nil =>
    rw [trimAll]
  | cons k ms ih =>
    obtain ⟨-, hlen⟩ := List.forall_mem_cons.mp hlen
    obtain ⟨hfirst, h⟩ := List.pairwise_cons.mp h
    have hrest := ih (trim_len_all hlen) (beginsInOrder_trim hlen h)
    rw [trimAll_cons, List.exists_mem_cons_iff, List.exists_mem_cons_iff, hrest]
    constructor
    · rintro (hk | ⟨l, hl, hx⟩)
      · exact Or.inl hk
      · obtain ⟨l₀, hl₀, rfl⟩ := List.mem_map.mp hl
        rcases (trim_takes (hfirst l₀ hl₀) (hlen l₀ hl₀)).mp (Or.inl hx) with hx | hk
        · exact Or.inr ⟨l₀, hl₀, hx⟩
        · exact Or.inl hk
    · rintro (hk | ⟨l₀, hl₀, hx⟩)
      · exact Or.inl hk
      · rcases (trim_takes (hfirst l₀ hl₀) (hlen l₀ hl₀)).mpr (Or.inl hx) with hx | hk
        · exact Or.inr ⟨k.trim l₀, List.mem_map_of_mem hl₀, hx⟩
        · exact Or.inl hk

/-! ## §3 — where the bytes go. -/

theorem trim_takes_iff (hle : 0 < l.len → k.src ≤ l.src) (hl : 0 ≤ l.len) :
    (k.trim l).Takes x ↔ l.Takes x ∧ ¬ k.Takes x := by
  have hsrc := @trim_src k l hl
  constructor
  · intro hx
    have hpos : 0 < (k.trim l).len := by
      unfold Move.Takes Move.stop at hx
      omega
    have hbehind := trim_behind hpos
    unfold Move.Takes at hx ⊢
    rw [trim_stop] at hx
    omega
  · rintro ⟨hx, hk⟩
    rcases (trim_takes hle hl).mpr (Or.inl hx) with hx | hx
    · exact hx
    · exact absurd hx hk

/-- What is left of a move goes where it went. -/
theorem trim_carries_iff (hle : 0 < l.len → k.src ≤ l.src) (hl : 0 ≤ l.len) {d : ℤ} :
    (k.trim l).Carries x d ↔ l.Carries x d ∧ ¬ k.Takes x := by
  have hplace : (k.trim l).dst + (x - (k.trim l).src) = l.dst + (x - l.src) := by
    unfold Move.trim
    split
    · dsimp only
      omega
    · rfl
  unfold Move.Carries
  rw [trim_takes_iff hle hl, hplace]
  tauto

/-- The first move that takes the byte at `x` takes it to `d`. -/
def CarriesFirst (ms : List Move) (x d : ℤ) : Prop := ∃ m, (ms.find? fun m => m.Takes x) = some m ∧ m.Carries x d

theorem carriesFirst_cons {d : ℤ} :
    CarriesFirst (k :: ms) x d ↔ k.Carries x d ∨ ¬ k.Takes x ∧ CarriesFirst ms x d := by
  unfold CarriesFirst
  by_cases hx : k.Takes x
  · simp [hx]
  · have hnot : ¬ k.Carries x d := fun h => hx h.1
    simp [hx, hnot]

theorem CarriesFirst.exists_carries {d : ℤ} (h : CarriesFirst ms x d) : ∃ m ∈ ms, m.Carries x d := by
  obtain ⟨m, hm, hx⟩ := h
  exact ⟨m, List.mem_of_find?_eq_some hm, hx⟩

/-- A byte goes to one place first. -/
theorem CarriesFirst.unique {d d' : ℤ} (h : CarriesFirst ms x d) (h' : CarriesFirst ms x d') : d = d' := by
  obtain ⟨m, hm, -, hd⟩ := h
  obtain ⟨m', hm', -, hd'⟩ := h'
  obtain rfl := Option.some.inj (hm.symm.trans hm')
  exact hd.trans hd'.symm

theorem carriesFirst_trim (hlen : ∀ l ∈ ms, 0 ≤ l.len) (hfirst : ∀ l ∈ ms, 0 < l.len → k.src ≤ l.src) {d : ℤ} :
    CarriesFirst (ms.map k.trim) x d ↔ ¬ k.Takes x ∧ CarriesFirst ms x d := by
  induction ms with
  | nil => simp [CarriesFirst]
  | cons l ms ih =>
    obtain ⟨hl, hlen⟩ := List.forall_mem_cons.mp hlen
    obtain ⟨hle, hfirst⟩ := List.forall_mem_cons.mp hfirst
    rw [List.map_cons, carriesFirst_cons, carriesFirst_cons, ih hlen hfirst, trim_takes_iff hle hl,
      trim_carries_iff hle hl]
    tauto

/-- **What is cut** goes where the first move that takes it goes. -/
theorem trimAll_carries (hlen : ∀ l ∈ ms, 0 ≤ l.len) (h : BeginsInOrder ms) {d : ℤ} :
    (∃ m ∈ trimAll ms, m.Carries x d) ↔ CarriesFirst ms x d := by
  induction ms using trimAll_induction with
  | nil =>
    rw [trimAll]
    simp [CarriesFirst]
  | cons k ms ih =>
    obtain ⟨-, hlen⟩ := List.forall_mem_cons.mp hlen
    obtain ⟨hfirst, h⟩ := List.pairwise_cons.mp h
    rw [trimAll_cons, List.exists_mem_cons_iff, ih (trim_len_all hlen) (beginsInOrder_trim hlen h),
      carriesFirst_trim hlen hfirst, carriesFirst_cons]

/-- Moves that are in order take every byte once. -/
theorem InOrder.carriesFirst {d : ℤ} (h : InOrder ms) : (∃ m ∈ ms, m.Carries x d) ↔ CarriesFirst ms x d := by
  induction ms with
  | nil => simp [CarriesFirst]
  | cons k ms ih =>
    obtain ⟨hk, h⟩ := List.pairwise_cons.mp h
    rw [List.exists_mem_cons_iff, carriesFirst_cons, ← ih h]
    refine or_congr_right ⟨?_, And.right⟩
    rintro ⟨l, hl, hx⟩
    refine ⟨?_, l, hl, hx⟩
    intro hkx
    have hbehind := hk l hl
    obtain ⟨hlx, -⟩ := hx
    unfold Move.Takes Move.stop at hkx hlx
    unfold Move.stop at hbehind
    omega

end LogVol.Lib
