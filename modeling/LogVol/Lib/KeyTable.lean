/-
# LogVol.Lib.KeyTable — a table of held things, by a key that is only a part of what they are.

`held` says what each handle stands for, if it is held, and `table` finds a handle by the key of what it stands
for. The two are `Paired` when every held handle is in the table under its own key and the table has no other
handles. Then a look-up is exact for the things that are known if and only if no held thing shares its key with
another known one (`Paired.exactOn_iff`).
-/
import Mathlib.Logic.Function.Basic
import Mathlib.Tactic.Basic

namespace LogVol.Lib

variable {Id K H : Type*} {key : Id → K} {table : K → Option H} {held : H → Option Id}

/-- The table and what is held agree. -/
structure Paired (key : Id → K) (table : K → Option H) (held : H → Option Id) : Prop where
  entered : ∀ h i, held h = some i → table (key i) = some h
  found : ∀ k h, table k = some h → ∃ i, held h = some i ∧ key i = k

/-- Looking up a known thing gives the handle that stands for it, and nothing if none does. -/
def ExactOn (known : Id → Prop) (key : Id → K) (table : K → Option H) (held : H → Option Id) : Prop :=
  ∀ i, known i → ∀ h, table (key i) = some h ↔ held h = some i

theorem paired_empty : Paired key (fun _ => (none : Option H)) fun _ => none where
  entered := by
    intro h i hi
    cases hi
  found := by
    intro k h hk
    cases hk

/-- **When a look-up is exact.** -/
theorem Paired.exactOn_iff (hp : Paired key table held) {known : Id → Prop} :
    ExactOn known key table held ↔ ∀ i, known i → ∀ h j, held h = some j → key j = key i → j = i := by
  refine ⟨?_, ?_⟩
  · intro he i hi h j hj hk
    have hfound : table (key i) = some h := by rw [← hk]; exact hp.entered h j hj
    exact Option.some.inj (hj.symm.trans ((he i hi h).mp hfound))
  · intro happart i hi h
    refine ⟨?_, hp.entered h i⟩
    intro hfound
    rcases hp.found _ _ hfound with ⟨j, hj, hk⟩
    rw [hj, happart i hi h j hj hk]

/-- A look-up that finds nothing: nothing that is held has the key. -/
theorem Paired.key_ne (hp : Paired key table held) {i : Id} (hn : table (key i) = none) :
    ∀ h j, held h = some j → key j ≠ key i := by
  intro h j hj hk
  have hfound := hp.entered h j hj
  rw [hk, hn] at hfound
  cases hfound

variable [DecidableEq K] [DecidableEq H]

/-- A new handle is entered under a key that was free. -/
theorem Paired.enter (hp : Paired key table held) {i : Id} {h : H} (hh : held h = none)
    (hk : table (key i) = none) :
    Paired key (Function.update table (key i) (some h)) (Function.update held h (some i)) where
  entered := by
    intro g j hg
    by_cases hgh : g = h
    · subst hgh
      rw [Function.update_self] at hg
      rw [← Option.some.inj hg, Function.update_self]
    · rw [Function.update_of_ne hgh] at hg
      rw [Function.update_of_ne (hp.key_ne hk g j hg), hp.entered g j hg]
  found := by
    intro k g hg
    by_cases hki : k = key i
    · subst hki
      rw [Function.update_self] at hg
      refine ⟨i, ?_, rfl⟩
      rw [← Option.some.inj hg, Function.update_self]
    · rw [Function.update_of_ne hki] at hg
      rcases hp.found k g hg with ⟨j, hj, hjk⟩
      have hgh : g ≠ h := by
        intro e
        rw [e, hh] at hj
        cases hj
      exact ⟨j, by rw [Function.update_of_ne hgh, hj], hjk⟩

/-- A handle is taken out of the table when it is given up. -/
theorem Paired.leave (hp : Paired key table held) {i : Id} {h : H} (hh : held h = some i) :
    Paired key (Function.update table (key i) none) (Function.update held h none) where
  entered := by
    intro g j hg
    have hgh : g ≠ h := by
      intro e
      rw [e, Function.update_self] at hg
      cases hg
    rw [Function.update_of_ne hgh] at hg
    have hk : key j ≠ key i := by
      intro e
      have hj := hp.entered g j hg
      rw [e, hp.entered h i hh] at hj
      exact hgh (Option.some.inj hj).symm
    rw [Function.update_of_ne hk, hp.entered g j hg]
  found := by
    intro k g hg
    have hk : k ≠ key i := by
      intro e
      rw [e, Function.update_self] at hg
      cases hg
    rw [Function.update_of_ne hk] at hg
    rcases hp.found k g hg with ⟨j, hj, hjk⟩
    have hgh : g ≠ h := by
      intro e
      rw [e, hh] at hj
      exact hk (hjk.symm.trans (congrArg key (Option.some.inj hj)).symm)
    exact ⟨j, by rw [Function.update_of_ne hgh, hj], hjk⟩

end LogVol.Lib
