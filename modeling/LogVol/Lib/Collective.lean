/-
# LogVol.Lib.Collective — processes that run collective operations.

Every process computes on its own until it calls a collective operation, and waits there until all
members of the operation's communicator have called it. `Step` is one such meeting and `Run` a sequence
of them, with the calls each process has been through. The order of the meetings does not matter
(`Run.strip`): when one run gets every process to its end, every run can be continued to that end. The
members of a communicator go through the same sequence of operations on it (`Run.same_calls`).
`RunsOn` composes runs along the programs of the processes.
-/
import Mathlib.Data.Fintype.Basic
import Mathlib.Data.Finset.Image

namespace LogVol.Lib

/-! ## §1 — processes. -/

/-- What is left to do of a process: it has returned, it has raised an error, or it waits in a call with
something to contribute. -/
inductive Proc (C V ε α : Type) where
  | ret (a : α)
  | raise (e : ε)
  | call (c : C) (arg : V) (k : V → Proc C V ε α)

namespace Proc

variable {C V ε α β : Type}

/-- Continue with the value a process returns. -/
def bind : Proc C V ε α → (α → Proc C V ε β) → Proc C V ε β
  | ret a, q => q a
  | raise e, _ => raise e
  | call c arg k, q => call c arg fun v => (k v).bind q

instance : Monad (Proc C V ε) where
  pure := ret
  bind := bind

@[simp] theorem pure_bind (a : α) (q : α → Proc C V ε β) : (pure a : Proc C V ε α) >>= q = q a := rfl

@[simp] theorem raise_bind (e : ε) (q : α → Proc C V ε β) :
    (raise e : Proc C V ε α) >>= q = raise e := rfl

@[simp] theorem call_bind (c : C) (arg : V) (k : V → Proc C V ε α) (q : α → Proc C V ε β) :
    (call c arg k) >>= q = call c arg fun v => k v >>= q := rfl

theorem bind_assoc {γ : Type} (p : Proc C V ε α) (q : α → Proc C V ε β) (r : β → Proc C V ε γ) :
    (p >>= q) >>= r = p >>= fun a => q a >>= r := by
  induction p with
  | ret a => rfl
  | raise e => rfl
  | call c arg k ih => exact congrArg (call c arg) (funext ih)

theorem bind_pure (p : Proc C V ε α) : p >>= pure = p := by
  induction p with
  | ret a => rfl
  | raise e => rfl
  | call c arg k ih => exact congrArg (call c arg) (funext ih)

/-- Whatever it is answered, the process does not call `c` before another call that `chan` puts on the
same communicator. -/
def Never {κ : Type} (chan : C → κ) (c : C) : Proc C V ε α → Prop
  | ret _ => True
  | raise _ => True
  | call d _ k => (chan d = chan c ∧ d ≠ c) ∨ (chan d ≠ chan c ∧ ∀ v, (k v).Never chan c)

/-- What is not called before, and not called after, is not called. -/
theorem Never.bind {κ : Type} {chan : C → κ} {c : C} {p : Proc C V ε α} {q : α → Proc C V ε β}
    (hp : p.Never chan c) (hq : ∀ a, (q a).Never chan c) : (p >>= q).Never chan c := by
  induction p with
  | ret a => exact hq a
  | raise e => exact trivial
  | call d arg k ih =>
    rcases hp with hother | ⟨hchan, hrest⟩
    · exact Or.inl hother
    · exact Or.inr ⟨hchan, fun v => ih v (hrest v)⟩

/-- Whatever it is answered, the process calls `c` on its way to its end. -/
def Always (c : C) : Proc C V ε α → Prop
  | ret _ => False
  | raise _ => True
  | call d _ k => d = c ∨ ∀ v, (k v).Always c

/-- What is always called after a program is always called. -/
theorem Always.bind {c : C} {q : α → Proc C V ε β} (h : ∀ a, (q a).Always c) (p : Proc C V ε α) :
    (p >>= q).Always c := by
  induction p with
  | ret a => exact h a
  | raise e => exact trivial
  | call d arg k ih => exact Or.inr ih

end Proc

/-! ## §2 — runs. -/

/-- Communicators and their operations: the communicator of a call, its members, and what each member is
answered, which the contributions of the members decide. -/
structure Net (ι C V κ : Type) where
  chan : C → κ
  Member : κ → ι → Prop
  reply : C → (ι → V) → ι → V
  reply_congr : ∀ {c arg arg'}, (∀ i, Member (chan c) i → arg i = arg' i) →
    ∀ {i}, Member (chan c) i → reply c arg i = reply c arg' i

variable {ι C V κ ε α β : Type} {net : Net ι C V κ}

/-- The members of the communicator of `c`, at least one, have all called `c` and are answered. Nobody
else moves. -/
structure Step (net : Net ι C V κ) (c : C) (s s' : ι → Proc C V ε α) : Prop where
  someone : ∃ i, net.Member (net.chan c) i
  meet : ∃ (arg : ι → V) (k : ι → V → Proc C V ε α), (∀ i, net.Member (net.chan c) i → s i = .call c (arg i) (k i)) ∧
    ∀ i, net.Member (net.chan c) i → s' i = k i (net.reply c arg i)
  others : ∀ i, ¬ net.Member (net.chan c) i → s' i = s i

/-- The calls of every process after one more meeting. -/
noncomputable def Net.record (net : Net ι C V κ) (c : C) (t : ι → List C) : ι → List C :=
  open Classical in fun i => if net.Member (net.chan c) i then c :: t i else t i

/-- A run, with the calls each process has been through. -/
inductive Run (net : Net ι C V κ) : (ι → Proc C V ε α) → (ι → List C) → (ι → Proc C V ε α) → Prop where
  | nil {s} : Run net s (fun _ => []) s
  | step {s s₁ s' c t} : Step net c s s₁ → Run net s₁ t s' → Run net s (net.record c t) s'

/-- Every process has returned. -/
def Returned (s : ι → Proc C V ε α) : Prop := ∀ i, ∃ a, s i = .ret a

/-- All processes get to their ends. -/
def Completes (net : Net ι C V κ) (s : ι → Proc C V ε α) : Prop :=
  ∃ t s', Run net s t s' ∧ Returned s'

theorem record_member {c : C} {t : ι → List C} {i : ι} (h : net.Member (net.chan c) i) :
    net.record c t i = c :: t i := if_pos h

theorem record_other {c : C} {t : ι → List C} {i : ι} (h : ¬ net.Member (net.chan c) i) :
    net.record c t i = t i := if_neg h

theorem Run.trans {s s₁ s₂ : ι → Proc C V ε α} {t u : ι → List C} (h : Run net s t s₁)
    (h' : Run net s₁ u s₂) : Run net s (fun i => t i ++ u i) s₂ := by
  induction h with
  | nil => exact h'
  | @step s s₁ _ c t hstep _ ih =>
      have hrec : net.record c (fun i => t i ++ u i) = fun i => net.record c t i ++ u i := by
        funext i
        by_cases hi : net.Member (net.chan c) i
        · rw [record_member hi, record_member hi, List.cons_append]
        · rw [record_other hi, record_other hi]
      rw [← hrec]
      exact .step hstep (ih h')

/-- A process answered twice in the same state was in the same call. -/
theorem Step.call_eq {s s₁ s₂ : ι → Proc C V ε α} {c d : C} (h₁ : Step net c s s₁)
    (h₂ : Step net d s s₂) {i : ι} (hc : net.Member (net.chan c) i)
    (hd : net.Member (net.chan d) i) : c = d := by
  obtain ⟨arg, k, hs, -⟩ := h₁.meet
  obtain ⟨arg', k', hs', -⟩ := h₂.meet
  have heq := (hs i hc).symm.trans (hs' i hd)
  exact (Proc.call.inj heq).1

theorem Step.unique {s s₁ s₂ : ι → Proc C V ε α} {c : C} (h₁ : Step net c s s₁)
    (h₂ : Step net c s s₂) : s₁ = s₂ := by
  obtain ⟨arg, k, hs, hr⟩ := h₁.meet
  obtain ⟨arg', k', hs', hr'⟩ := h₂.meet
  have hinj : ∀ i, net.Member (net.chan c) i → arg i = arg' i ∧ k i = k' i := fun i hi =>
    (Proc.call.inj ((hs i hi).symm.trans (hs' i hi))).2
  funext i
  by_cases hi : net.Member (net.chan c) i
  · rw [hr i hi, hr' i hi, (hinj i hi).2, net.reply_congr (fun j hj => (hinj j hj).1) hi]
  · rw [h₁.others i hi, h₂.others i hi]

/-- Meetings without a common member can change places. -/
theorem Step.swap {s s₁ s₂ : ι → Proc C V ε α} {c d : C} (h₁ : Step net c s s₁)
    (h₂ : Step net d s s₂)
    (hdisj : ∀ i, net.Member (net.chan c) i → ¬ net.Member (net.chan d) i) :
    ∃ s₃, Step net d s₁ s₃ ∧ Step net c s₂ s₃ := by
  classical
  refine ⟨fun i => if net.Member (net.chan c) i then s₁ i else s₂ i, ?_, ?_⟩
  · obtain ⟨arg, k, hs, hr⟩ := h₂.meet
    refine ⟨h₂.someone, ⟨arg, k, ?_, ?_⟩, ?_⟩
    · intro i hi
      rw [h₁.others i fun hc => hdisj i hc hi, hs i hi]
    · intro i hi
      rw [if_neg fun hc => hdisj i hc hi, hr i hi]
    · intro i hi
      by_cases hc : net.Member (net.chan c) i
      · rw [if_pos hc]
      · rw [if_neg hc, h₁.others i hc, h₂.others i hi]
  · obtain ⟨arg, k, hs, hr⟩ := h₁.meet
    refine ⟨h₁.someone, ⟨arg, k, ?_, ?_⟩, ?_⟩
    · intro i hi
      rw [h₂.others i (hdisj i hi), hs i hi]
    · intro i hi
      rw [if_pos hi, hr i hi]
    · intro i hi
      rw [if_neg hi]

/-- What a process has been through, an order of two meetings apart. -/
theorem record_comm {c d : C} {t : ι → List C}
    (hdisj : ∀ i, net.Member (net.chan c) i → ¬ net.Member (net.chan d) i) :
    net.record c (net.record d t) = net.record d (net.record c t) := by
  funext i
  by_cases hc : net.Member (net.chan c) i
  · rw [record_member hc, record_other (hdisj i hc), record_other (hdisj i hc), record_member hc]
  · by_cases hd : net.Member (net.chan d) i
    · rw [record_other hc, record_member hd, record_member hd, record_other hc]
    · rw [record_other hc, record_other hd, record_other hd, record_other hc]

/-- A complete run can start with any meeting that can take place. -/
theorem Step.strip {s s₁ r : ι → Proc C V ε α} {c : C} {u : ι → List C} (h : Step net c s s₁)
    (hrun : Run net s u r) (hr : Returned r) : ∃ v, Run net s₁ v r ∧ u = net.record c v := by
  induction hrun generalizing s₁ with
  | @nil s =>
      obtain ⟨i, hi⟩ := h.someone
      obtain ⟨arg, k, hs, -⟩ := h.meet
      obtain ⟨a, ha⟩ := hr i
      cases (hs i hi).symm.trans ha
  | @step s s₂ r d u hd hrest ih =>
      by_cases hshare : ∃ i, net.Member (net.chan c) i ∧ net.Member (net.chan d) i
      · obtain ⟨i, hc, hdi⟩ := hshare
        cases h.call_eq hd hc hdi
        cases h.unique hd
        exact ⟨u, hrest, rfl⟩
      · have hdisj : ∀ i, net.Member (net.chan c) i → ¬ net.Member (net.chan d) i :=
          fun i hc hdi => hshare ⟨i, hc, hdi⟩
        obtain ⟨s₃, hd', hc'⟩ := h.swap hd hdisj
        obtain ⟨v, hv, rfl⟩ := ih hc' hr
        exact ⟨net.record d v, .step hd' hv, (record_comm hdisj).symm⟩

/-- **A complete run can start with any run.** -/
theorem Run.strip {s s₁ r : ι → Proc C V ε α} {t u : ι → List C} (h : Run net s t s₁)
    (hrun : Run net s u r) (hr : Returned r) :
    ∃ v, Run net s₁ v r ∧ u = fun i => t i ++ v i := by
  induction h generalizing u with
  | nil => exact ⟨u, hrun, rfl⟩
  | @step s s₁ _ c t hstep _ ih =>
      obtain ⟨w, hw, rfl⟩ := hstep.strip hrun hr
      obtain ⟨v, hv, rfl⟩ := ih hw
      refine ⟨v, hv, ?_⟩
      funext i
      by_cases hi : net.Member (net.chan c) i
      · rw [record_member hi, record_member hi, List.cons_append]
      · rw [record_other hi, record_other hi]

/-- Whether all processes get to their ends does not depend on how they start. -/
theorem Run.completes_iff {s s₁ : ι → Proc C V ε α} {t : ι → List C} (h : Run net s t s₁) :
    Completes net s ↔ Completes net s₁ := by
  refine ⟨?_, ?_⟩
  · rintro ⟨u, r, hu, hr⟩
    obtain ⟨v, hv, -⟩ := h.strip hu hr
    exact ⟨v, r, hv, hr⟩
  · rintro ⟨v, r, hv, hr⟩
    exact ⟨_, r, h.trans hv, hr⟩

/-- **No process waits for another that never comes**: from wherever a run has got to, it goes on, until
every process has returned. -/
theorem Completes.progress {s s₁ : ι → Proc C V ε α} {t : ι → List C} (h : Completes net s)
    (hrun : Run net s t s₁) : Returned s₁ ∨ ∃ c s₂, Step net c s₁ s₂ := by
  obtain ⟨v, r, hv, hr⟩ := hrun.completes_iff.mp h
  cases hv with
  | nil => exact Or.inl hr
  | step hstep _ => exact Or.inr ⟨_, _, hstep⟩

/-- Nothing happens once every process has returned. -/
theorem Run.returned_nil {s r : ι → Proc C V ε α} {t : ι → List C} (h : Run net s t r)
    (hs : Returned s) : t = fun _ => [] := by
  cases h with
  | nil => rfl
  | step hstep _ =>
      obtain ⟨i, hi⟩ := hstep.someone
      obtain ⟨arg, k, hcall, -⟩ := hstep.meet
      obtain ⟨a, ha⟩ := hs i
      cases (hcall i hi).symm.trans ha

/-- **Every complete run is the same** for each process. -/
theorem Run.calls_unique {s r r' : ι → Proc C V ε α} {t u : ι → List C} (h : Run net s t r)
    (hr : Returned r) (h' : Run net s u r') (hr' : Returned r') : u = t := by
  obtain ⟨v, hv, rfl⟩ := h.strip h' hr'
  rw [hv.returned_nil hr]
  funext i
  exact List.append_nil _

/-- **The members of a communicator go through the same operations on it.** -/
theorem Run.same_calls [DecidableEq κ] {s s' : ι → Proc C V ε α} {t : ι → List C}
    (h : Run net s t s') {ch : κ} {i j : ι} (hi : net.Member ch i) (hj : net.Member ch j) :
    (t i).filter (fun c => net.chan c = ch) = (t j).filter fun c => net.chan c = ch := by
  induction h with
  | nil => rfl
  | @step s s₁ _ c t hstep _ ih =>
      by_cases hc : net.chan c = ch
      · subst hc
        rw [record_member hi, record_member hj, List.filter_cons_of_pos (by simp),
          List.filter_cons_of_pos (by simp), ih]
      · -- a call elsewhere is in neither of the two sequences
        have hdrop : ∀ x, (net.record c t x).filter (fun c => net.chan c = ch) =
            (t x).filter fun c => net.chan c = ch := by
          intro x
          by_cases hx : net.Member (net.chan c) x
          · rw [record_member hx, List.filter_cons_of_neg (by simpa using hc)]
          · rw [record_other hx]
        rw [hdrop i, hdrop j, ih]

/-! ## §3 — processes that are stuck. -/

theorem Run.raise_stays {s s' : ι → Proc C V ε α} {t : ι → List C} (h : Run net s t s') {i : ι} {e : ε}
    (hi : s i = .raise e) : s' i = .raise e := by
  induction h with
  | nil => exact hi
  | @step s s₁ _ c t hstep _ ih =>
      refine ih ?_
      by_cases hc : net.Member (net.chan c) i
      · obtain ⟨arg, k, hs, -⟩ := hstep.meet
        cases (hs i hc).symm.trans hi
      · rw [hstep.others i hc, hi]

theorem Run.ret_nil {s s' : ι → Proc C V ε α} {t : ι → List C} (h : Run net s t s') {i : ι} {a : α}
    (hi : s i = .ret a) : t i = [] := by
  induction h with
  | nil => rfl
  | @step s s₁ _ c t hstep _ ih =>
      have hc : ¬ net.Member (net.chan c) i := by
        intro hc
        obtain ⟨arg, k, hs, -⟩ := hstep.meet
        cases (hs i hc).symm.trans hi
      rw [record_other hc]
      exact ih ((hstep.others i hc).trans hi)

theorem not_completes_of_raise {s : ι → Proc C V ε α} {i : ι} {e : ε} (hi : s i = .raise e) :
    ¬ Completes net s := by
  rintro ⟨t, r, hrun, hr⟩
  obtain ⟨a, ha⟩ := hr i
  cases (hrun.raise_stays hi).symm.trans ha

/-- **A process waits forever** in a call that another member's next operation on the communicator is
not. -/
theorem not_completes_of_never {s : ι → Proc C V ε α} {i j : ι} {c : C} {arg : V}
    {k : V → Proc C V ε α} (hi : s i = .call c arg k) (hci : net.Member (net.chan c) i)
    (hcj : net.Member (net.chan c) j) (hj : (s j).Never net.chan c) : ¬ Completes net s := by
  rintro ⟨t, r, hrun, hr⟩
  -- Along the run: a call on another communicator moves neither i nor the fact that j has no such call.
  induction hrun with
  | nil =>
      obtain ⟨a, ha⟩ := hr i
      cases hi.symm.trans ha
  | @step s s₁ _ d t hstep _ ih =>
      obtain ⟨arg', k', hs, hs₁⟩ := hstep.meet
      have hne : net.chan d ≠ net.chan c := by
        intro heq
        have hdj := hs j (heq ▸ hcj)
        rw [hdj] at hj
        have hdi := (hs i (heq ▸ hci)).symm.trans hi
        rcases hj with ⟨-, hne⟩ | ⟨hne, -⟩
        · exact hne (Proc.call.inj hdi).1
        · exact hne heq
      have hdi : ¬ net.Member (net.chan d) i := by
        intro hdi
        exact hne (congrArg net.chan (Proc.call.inj ((hs i hdi).symm.trans hi)).1)
      refine ih ((hstep.others i hdi).trans hi) ?_ hr
      by_cases hdj : net.Member (net.chan d) j
      · rw [hs j hdj] at hj
        rw [hs₁ j hdj]
        rcases hj with ⟨heq, -⟩ | ⟨-, hk⟩
        · exact absurd heq hne
        · exact hk _
      · rw [hstep.others j hdj]
        exact hj

/-- A process that always calls `c` has been through `c` when it returns. -/
theorem Run.mem_of_always {s r : ι → Proc C V ε α} {t : ι → List C} (h : Run net s t r)
    (hr : Returned r) {i : ι} {c : C} (hi : (s i).Always c) : c ∈ t i := by
  induction h with
  | nil =>
      obtain ⟨a, ha⟩ := hr i
      rw [ha] at hi
      exact hi.elim
  | @step s s₁ _ d t hstep _ ih =>
      by_cases hd : net.Member (net.chan d) i
      · obtain ⟨arg, k, hs, hs₁⟩ := hstep.meet
        rw [record_member hd]
        rw [hs i hd] at hi
        rcases hi with rfl | hall
        · exact List.mem_cons_self ..
        · exact List.mem_cons_of_mem _ (ih hr (by rw [hs₁ i hd]; exact hall _))
      · rw [record_other hd]
        exact ih hr (by rw [hstep.others i hd]; exact hi)

/-! ## §4 — runs along a program. -/

/-- The processes in `P`, whatever follows, run `p` with the calls `t` and get `a`, while nobody else
moves. -/
def RunsOn (net : Net ι C V κ) (P : ι → Prop) (p : ι → Proc C V ε α) (t : ι → List C) (a : ι → α) :
    Prop :=
  ∀ ⦃γ : Type⦄ (q : ι → α → Proc C V ε γ) (s s' : ι → Proc C V ε γ),
    (∀ i, P i → s i = p i >>= q i) → (∀ i, P i → s' i = q i (a i)) → (∀ i, ¬ P i → s' i = s i) →
    ∃ u, Run net s u s' ∧ (∀ i, P i → u i = t i) ∧ ∀ i, ¬ P i → u i = []

theorem RunsOn.pure {P : ι → Prop} (a : ι → α) :
    RunsOn net P (fun i => (pure (a i) : Proc C V ε α)) (fun _ => []) a := by
  intro γ q s s' hs hs' hother
  have hsame : s' = s := by
    funext i
    by_cases hi : P i
    · rw [hs' i hi, hs i hi]
      rfl
    · exact hother i hi
  rw [hsame]
  exact ⟨_, .nil, fun _ _ => rfl, fun _ _ => rfl⟩

theorem RunsOn.bind {P : ι → Prop} {p : ι → Proc C V ε α} {t : ι → List C} {a : ι → α}
    (h : RunsOn net P p t a) {p' : ι → α → Proc C V ε β} {t' : ι → List C} {b : ι → β}
    (h' : RunsOn net P (fun i => p' i (a i)) t' b) :
    RunsOn net P (fun i => p i >>= p' i) (fun i => t i ++ t' i) b := by
  classical
  intro γ q s s' hs hs' hother
  obtain ⟨u, hu, hut, hue⟩ := h (fun i x => p' i x >>= q i) s
    (fun i => if P i then p' i (a i) >>= q i else s i)
    (fun i hi => (hs i hi).trans (Proc.bind_assoc _ _ _)) (fun i hi => if_pos hi)
    (fun i hi => if_neg hi)
  obtain ⟨v, hv, hvt, hve⟩ := h' q _ s' (fun i hi => if_pos hi) hs'
    (fun i hi => (hother i hi).trans (if_neg hi).symm)
  refine ⟨_, hu.trans hv, ?_, ?_⟩
  · intro i hi
    rw [hut i hi, hvt i hi]
  · intro i hi
    rw [hue i hi, hve i hi, List.append_nil]

/-- Two parts of the processes run one after the other. -/
theorem RunsOn.union {P Q : ι → Prop} {p : ι → Proc C V ε α} {t : ι → List C} {a : ι → α}
    (h : RunsOn net P p t a) (h' : RunsOn net Q p t a) (hdisj : ∀ i, P i → ¬ Q i) :
    RunsOn net (fun i => P i ∨ Q i) p t a := by
  classical
  intro γ q s s' hs hs' hother
  obtain ⟨u, hu, hut, hue⟩ := h q s (fun i => if P i then q i (a i) else s i)
    (fun i hi => hs i (Or.inl hi)) (fun i hi => if_pos hi) (fun i hi => if_neg hi)
  obtain ⟨v, hv, hvt, hve⟩ := h' q _ s'
    (fun i hi => (if_neg fun hp => hdisj i hp hi).trans (hs i (Or.inr hi)))
    (fun i hi => hs' i (Or.inr hi))
    (fun i hi => by
      by_cases hp : P i
      · rw [hs' i (Or.inl hp), if_pos hp]
      · rw [if_neg hp, hother i (by tauto)])
  refine ⟨_, hu.trans hv, ?_, ?_⟩
  · rintro i (hi | hi)
    · rw [hut i hi, hve i (hdisj i hi), List.append_nil]
    · rw [hue i fun hp => hdisj i hp hi, hvt i hi, List.nil_append]
  · intro i hi
    rw [hue i (by tauto), hve i (by tauto), List.append_nil]

theorem RunsOn.congr {P Q : ι → Prop} {p p' : ι → Proc C V ε α} {t t' : ι → List C} {a a' : ι → α}
    (h : RunsOn net P p t a) (hPQ : ∀ i, P i ↔ Q i) (hp : ∀ i, P i → p' i = p i)
    (ht : ∀ i, P i → t' i = t i) (ha : ∀ i, P i → a' i = a i) : RunsOn net Q p' t' a' := by
  intro γ q s s' hs hs' hother
  obtain ⟨u, hu, hut, hue⟩ := h q s s' (fun i hi => by rw [hs i ((hPQ i).mp hi), hp i hi])
    (fun i hi => by rw [hs' i ((hPQ i).mp hi), ha i hi]) (fun i hi => hother i (by rwa [← hPQ]))
  exact ⟨u, hu, fun i hi => by rw [hut i ((hPQ i).mpr hi), ht i ((hPQ i).mpr hi)],
    fun i hi => hue i (by rwa [hPQ])⟩

/-- The processes of `P` call the same operation, each on its own communicator, all of whose members
are in `P`. -/
theorem RunsOn.call [Fintype ι] {P : ι → Prop} (c : ι → C) (arg : ι → V)
    (hmem : ∀ i, P i → ∀ j, net.Member (net.chan (c i)) j ↔ P j ∧ c j = c i) :
    RunsOn net P (fun i => (Proc.call (c i) (arg i) .ret : Proc C V ε V)) (fun i => [c i])
      fun i => net.reply (c i) arg i := by
  classical
  intro γ q s s' hs hs' hother
  -- one meeting for each communicator, in any order
  have key : ∀ S : Finset C, ∃ u, Run net s u
        (fun i => if P i ∧ c i ∈ S then q i (net.reply (c i) arg i) else s i) ∧
      ∀ i, u i = if P i ∧ c i ∈ S then [c i] else [] := by
    intro S
    induction S using Finset.induction_on with
    | empty => exact ⟨_, by simpa using Run.nil, fun i => by simp⟩
    | @insert d S hd ih =>
        obtain ⟨u, hu, hut⟩ := ih
        by_cases hsome : ∃ i, P i ∧ c i = d
        · obtain ⟨i₀, hi₀, rfl⟩ := hsome
          have hstep : Step net (c i₀)
              (fun i => if P i ∧ c i ∈ S then q i (net.reply (c i) arg i) else s i)
              (fun i => if P i ∧ c i ∈ insert (c i₀) S then q i (net.reply (c i) arg i) else s i) := by
            refine ⟨⟨i₀, (hmem i₀ hi₀ i₀).mpr ⟨hi₀, rfl⟩⟩, ⟨arg, q, ?_, ?_⟩, ?_⟩
            · intro i hi
              obtain ⟨hP, hci⟩ := (hmem i₀ hi₀ i).mp hi
              show (if _ then _ else _) = _
              rw [if_neg (by rw [hci]; tauto), hs i hP, ← hci]
              rfl
            · intro i hi
              obtain ⟨hP, hci⟩ := (hmem i₀ hi₀ i).mp hi
              show (if _ then _ else _) = _
              rw [if_pos ⟨hP, by rw [hci]; exact Finset.mem_insert_self ..⟩, hci]
            · intro i hi
              have hnot : ¬ (P i ∧ c i = c i₀) := fun h => hi ((hmem i₀ hi₀ i).mpr h)
              have hiff : (P i ∧ c i ∈ insert (c i₀) S) ↔ (P i ∧ c i ∈ S) := by
                rw [Finset.mem_insert]
                tauto
              exact if_congr hiff rfl rfl
          refine ⟨_, hu.trans (.step hstep .nil), ?_⟩
          intro i
          rw [hut i]
          by_cases hi : P i ∧ c i = c i₀
          · have hm : net.Member (net.chan (c i₀)) i := (hmem i₀ hi₀ i).mpr hi
            rw [record_member hm, if_neg (by rw [hi.2]; tauto),
              if_pos ⟨hi.1, by rw [hi.2]; exact Finset.mem_insert_self ..⟩, hi.2, List.nil_append]
          · have hm : ¬ net.Member (net.chan (c i₀)) i := fun h => hi ((hmem i₀ hi₀ i).mp h)
            have hiff : (P i ∧ c i ∈ S) ↔ (P i ∧ c i ∈ insert (c i₀) S) := by
              rw [Finset.mem_insert]
              tauto
            rw [record_other hm, List.append_nil]
            exact if_congr hiff rfl rfl
        · have hiff : ∀ i, (P i ∧ c i ∈ insert d S) ↔ (P i ∧ c i ∈ S) := by
            intro i
            rw [Finset.mem_insert]
            exact ⟨fun h => ⟨h.1, h.2.resolve_left fun hc => hsome ⟨i, h.1, hc⟩⟩,
              fun h => ⟨h.1, Or.inr h.2⟩⟩
          refine ⟨u, ?_, ?_⟩
          · simpa only [hiff] using hu
          · intro i
            simpa only [hiff] using hut i
  obtain ⟨u, hu, hut⟩ := key (Finset.univ.image c)
  have hall : ∀ i, c i ∈ Finset.univ.image c := fun i =>
    Finset.mem_image_of_mem c (Finset.mem_univ i)
  have hend : (fun i => if P i ∧ c i ∈ Finset.univ.image c then q i (net.reply (c i) arg i) else s i) =
      s' := by
    funext i
    by_cases hi : P i
    · rw [if_pos ⟨hi, hall i⟩, hs' i hi]
    · rw [if_neg (by tauto), hother i hi]
  rw [hend] at hu
  exact ⟨u, hu, fun i hi => by rw [hut i, if_pos ⟨hi, hall i⟩],
    fun i hi => by rw [hut i, if_neg (by tauto)]⟩

/-- All processes run `p` first. -/
theorem RunsOn.run {p : ι → Proc C V ε α} {t : ι → List C} {a : ι → α}
    (h : RunsOn net (fun _ => True) p t a) (q : ι → α → Proc C V ε β) :
    Run net (fun i => p i >>= q i) t fun i => q i (a i) := by
  obtain ⟨u, hu, hut, -⟩ := h q _ _ (fun _ _ => rfl) (fun _ _ => rfl)
    fun _ hi => absurd trivial hi
  rwa [show u = t from funext fun i => hut i trivial] at hu

end LogVol.Lib
