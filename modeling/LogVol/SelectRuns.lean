/-
# LogVol.SelectRuns — selection objects over whole runs.

One lemma for each function of a selection object says that it keeps what the object stands for
(`SelObj.Describes`), and what it needs for that; `SelPool.Sound.step` has a case for each call. From there every
run whose steps meet the condition leaves all objects in order (`runSels_sound`). The condition is needed from
the first constructor on: a list of two points will do (`not_runSels_swappedPair`).
-/
import LogVol.SelectObjects

namespace LogVol

open Lib (Box)

/-! ## §1 — what the calls keep. -/

/-- A target whose `dims` can take extents of rank `n`. -/
def DimsPtr.Takes (tndim : ℤ) (n : ℕ) (d : DimsPtr) : Prop :=
  d = .null ∧ (tndim < n ∨ n = 0) ∨ ∃ a, d = .own a ∧ tndim ≤ a.length

/-- **Extents are copied** to a target that can take them. -/
theorem DimsPtr.Takes.store {tndim : ℤ} {n : ℕ} {d : DimsPtr} (h : d.Takes tndim n) {ds : List ℕ}
    (hds : ds.length = n) : ∃ d', (d.grow tndim n >>= DimsPtr.store ds) = .ok d' ∧
      ((∃ a, d' = .own a ∧ a.take n = ds) ∨ d' = .null ∧ n = 0) := by
  have hstore {a : List ℕ} (ha : n ≤ a.length) : ∃ d', DimsPtr.store ds (.own a) = .ok d' ∧
      ((∃ a, d' = .own a ∧ a.take n = ds) ∨ d' = .null ∧ n = 0) := by
    unfold DimsPtr.store
    split
    · rename_i hnil
      subst hnil
      obtain rfl : 0 = n := hds
      exact ⟨_, rfl, Or.inl ⟨a, rfl, rfl⟩⟩
    · refine ⟨_, if_pos (hds ▸ ha), Or.inl ⟨_, rfl, ?_⟩⟩
      rw [← hds, List.take_left]
  rcases h with ⟨rfl, hrank⟩ | ⟨a, rfl, hlen⟩
  · unfold DimsPtr.grow
    split
    · exact hstore (by simp)
    · rename_i hge
      obtain rfl := hrank.resolve_left hge
      obtain rfl := List.length_eq_zero_iff.mp hds
      exact ⟨_, rfl, Or.inr ⟨rfl, rfl⟩⟩
  · unfold DimsPtr.grow
    split
    · apply hstore
      simp only [List.length_append, List.length_take, List.length_replicate]
      omega
    · exact hstore (by omega)

/-- **Assignment**: a target that can take the extents becomes what the source is. -/
theorem SelObj.Describes.assignTo {v : SelValue} {rhs : SelObj} (h : rhs.Describes v) {tndim : ℤ} {tdims : DimsPtr}
    (htarget : v.dims = none ∨ tdims.Takes tndim v.ndim) :
    ∃ x, rhs.assignTo tndim tdims = .ok x ∧ x.Describes v := by
  obtain ⟨ndim, nsel, dims, arrays⟩ := rhs
  obtain ⟨rfl, rfl, hdims, harrays⟩ : ndim = v.ndim ∧ nsel = v.blocks.length ∧ dims.Hold v ∧ arrays.Hold v :=
    ⟨h.ndim, h.nsel, h.dims, h.arrays⟩
  obtain ⟨d, hd, hdhold⟩ : ∃ d, SelObj.copyDims tndim tdims ⟨v.ndim, v.blocks.length, dims, arrays⟩ = .ok d ∧
      d.Hold v := by
    unfold DimsPtr.Hold at hdims ⊢
    split at hdims
    · subst hdims
      exact ⟨_, rfl, rfl⟩
    · rename_i ds hds
      -- The extents are copied into the array the target has, which has to be long enough.
      obtain ⟨hlen, ⟨a, rfl, htake⟩ | ⟨rfl, hzero⟩⟩ := hdims
      · have htakes := htarget.resolve_left (by rw [hds]; nofun)
        obtain ⟨d, hd, hhold⟩ := htakes.store hlen
        refine ⟨d, ?_, hlen, hhold⟩
        have ha : ¬ a.length < v.ndim := by
          rw [← htake, List.length_take] at hlen
          omega
        show (if a.length < v.ndim then _ else tdims.grow tndim v.ndim >>= DimsPtr.store (a.take v.ndim)) = _
        rw [if_neg ha, htake, hd]
      · exact ⟨_, rfl, hlen, Or.inr ⟨rfl, hzero⟩⟩
  obtain ⟨a, ha, hahold⟩ : ∃ a, SelObj.copyArrays ⟨v.ndim, v.blocks.length, dims, arrays⟩ = .ok a ∧
      a.Hold v := by
    cases arrays with
    | none => exact ⟨_, rfl, harrays⟩
    | caller bs => exact ⟨_, rfl, harrays⟩
    | freed => exact ⟨_, rfl, harrays⟩
    | own b =>
        obtain ⟨hsound, hblocks, hdeep⟩ := harrays
        have hfits := hsound.fits
        rw [hblocks] at hfits
        obtain ⟨a, ha, hhold⟩ := allocArrays_hold hfits v.dims
        -- Arrays of its own begin with a slot, so there is a block.
        have hsome : v.blocks ≠ [] := by
          intro hnil
          have hzero := hsound.slots.1
          have hbase := hsound.base
          rw [hblocks, hnil, List.length_nil, List.length_eq_zero_iff] at hzero
          rw [hzero] at hbase
          cases hbase
        refine ⟨a, ?_, ?_⟩
        · show allocArrays v.ndim v.blocks.length b.blocks = _
          rw [hblocks, ha]
        · obtain ⟨ndim, vdims, blocks, deep⟩ := v
          obtain rfl : deep = true := hdeep
          have heq : (!blocks.isEmpty) = true := by simpa using hsome
          rwa [heq] at hhold
  refine ⟨⟨v.ndim, v.blocks.length, d, a⟩, ?_, ⟨rfl, rfl, hdhold, hahold⟩⟩
  rw [SelObj.assignTo, hd]
  show (SelObj.copyArrays _ >>= _) = _
  rw [ha]
  rfl

/-- An object that owns its arrays hands them back. -/
theorem SelObj.Describes.free {v : SelValue} {x : SelObj} (h : x.Describes v) :
    ∃ a, x.arrays.free x.ndim = .ok a ∧ (v.deep = false → a = x.arrays) := by
  obtain ⟨ndim, nsel, dims, arrays⟩ := x
  have hhold : arrays.Hold v := h.arrays
  cases arrays with
  | none => exact ⟨_, rfl, fun _ => rfl⟩
  | caller bs => exact ⟨_, rfl, fun _ => rfl⟩
  | freed => exact absurd hhold id
  | own b =>
      refine ⟨.freed, ?_, fun hshallow => ?_⟩
      · show (b.free ndim).map _ = _
        rw [Backing.free, if_pos (Or.inr hhold.1.base)]
        rfl
      · rw [hhold.2.2] at hshallow
        cases hshallow

/-- An object's own `dims` can take extents, if it has some or is of smaller rank. -/
theorem SelObj.Describes.takes {t : SelValue} {x : SelObj} (h : x.Describes t) {n : ℕ}
    (hrank : t.dims ≠ none ∨ t.ndim < n ∨ n = 0) : x.dims.Takes x.ndim n := by
  obtain ⟨ndim, nsel, dims, arrays⟩ := x
  obtain rfl : ndim = t.ndim := h.ndim
  have hdims : dims.Hold t := h.dims
  unfold DimsPtr.Hold at hdims
  split at hdims
  · rename_i hnone
    refine Or.inl ⟨hdims, ?_⟩
    rcases hrank with hsome | hlt | hzero
    · exact absurd hnone hsome
    · exact Or.inl (by exact_mod_cast hlt)
    · exact Or.inr hzero
  · obtain ⟨hlen, ⟨a, rfl, htake⟩ | ⟨rfl, hzero⟩⟩ := hdims
    · refine Or.inr ⟨a, rfl, ?_⟩
      rw [← htake, List.length_take] at hlen
      exact_mod_cast (by omega : t.ndim ≤ a.length)
    · refine Or.inl ⟨rfl, ?_⟩
      show (t.ndim : ℤ) < n ∨ n = 0
      omega

theorem SelObj.Describes.destroy {v : SelValue} {x : SelObj} (h : x.Describes v) : x.destroy = .ok () := by
  obtain ⟨a, ha, -⟩ := h.free
  have hdims : x.dims.free = .ok () := by
    have hhold := h.dims
    unfold DimsPtr.Hold at hhold
    split at hhold
    · rw [hhold]
      rfl
    · obtain ⟨-, ⟨a, heq, -⟩ | ⟨heq, -⟩⟩ := hhold
      · rw [heq]
        rfl
      · rw [heq]
        rfl
  rw [SelObj.destroy, hdims]
  show (x.arrays.free x.ndim >>= _) = _
  rw [ha]
  rfl

/-- **A deep copy in place** of arrays that are shared. -/
theorem SelObj.Describes.deepen {v : SelValue} {x : SelObj} (h : x.Describes v)
    (hfit : v.blocks.length * v.ndim < 2 ^ 31) :
    ∃ y, x.deepen = .ok y ∧ y.Describes { v with deep := !v.blocks.isEmpty } := by
  obtain ⟨ndim, nsel, dims, arrays⟩ := x
  obtain ⟨vndim, vdims, blocks, deep⟩ := v
  obtain ⟨rfl, rfl, hdims, harrays⟩ : ndim = vndim ∧ nsel = blocks.length ∧ dims.Hold ⟨vndim, vdims, blocks, deep⟩ ∧
    arrays.Hold ⟨vndim, vdims, blocks, deep⟩ := ⟨h.ndim, h.nsel, h.dims, h.arrays⟩
  obtain ⟨a, ha, hhold⟩ := allocArrays_hold hfit vdims
  have hshare {arrays : Arrays} (hread : arrays.read = .ok blocks) :
      (arrays.read >>= fun bs => allocArrays ndim blocks.length bs >>= fun arrays =>
        pure (⟨ndim, blocks.length, dims, arrays⟩ : SelObj)) = .ok ⟨ndim, blocks.length, dims, a⟩ := by
    rw [hread]
    show (allocArrays ndim blocks.length blocks >>= _) = _
    rw [ha]
    rfl
  -- Shared arrays are copied; those that are its own already stay.
  cases arrays with
  | none => exact ⟨_, hshare (congrArg Except.ok harrays.1.symm), rfl, rfl, hdims, hhold⟩
  | caller bs => exact ⟨_, hshare (congrArg Except.ok harrays.1), rfl, rfl, hdims, hhold⟩
  | freed => exact absurd harrays id
  | own b =>
      refine ⟨_, rfl, rfl, rfl, hdims, harrays.1, harrays.2.1, ?_⟩
      have hslots := harrays.1.slots.1
      have hbase := harrays.1.base
      have hblocks : b.blocks = blocks := harrays.2.1
      rw [hblocks] at hslots
      rcases blocks with _ | ⟨c, cs⟩
      · rw [List.length_nil, List.length_eq_zero_iff] at hslots
        rw [hslots] at hbase
        cases hbase
      · rfl

/-- **Two objects that describe the same** are equal. -/
theorem SelObj.Describes.equal {v : SelValue} {x y : SelObj} (hx : x.Describes v) (hy : y.Describes v) :
    x.equal y = .ok true := by
  have hread {z : SelObj} (hz : z.Describes v) : z.arrays.read = .ok v.blocks := by
    obtain ⟨ndim, nsel, dims, arrays⟩ := z
    have hhold : arrays.Hold v := hz.arrays
    cases arrays with
    | none => exact congrArg Except.ok hhold.1.symm
    | caller bs => exact congrArg Except.ok hhold.1
    | own b => exact congrArg Except.ok hhold.2.1
    | freed => exact absurd hhold id
  rw [SelObj.equal, hx.ndim, hy.ndim, hx.nsel, hy.nsel, hread hx, hread hy]
  simp only [ne_eq, not_true_eq_false, if_false, Lib.ok_bind, beq_self_eq_true]
  rfl

/-! ## §2 — steps and runs. -/

theorem SelPool.Sound.update {vals : SelValues} {pool : SelPool} (h : pool.Sound vals) (id : ℕ) {v : SelValue}
    {x : SelObj} (hx : x.Describes v) :
    SelPool.Sound (Function.update vals id (some v)) (Function.update pool id (some x)) := by
  intro k
  by_cases hk : k = id
  · rw [hk, Function.update_self, Function.update_self]
    exact Option.Rel.some hx
  · rw [Function.update_of_ne hk, Function.update_of_ne hk]
    exact h k

/-- An object that there is. -/
theorem SelPool.Sound.get {vals : SelValues} {pool : SelPool} (h : pool.Sound vals) {id : ℕ}
    (hid : vals id ≠ none) :
    ∃ v x, vals id = some v ∧ pool id = some x ∧ x.Describes v := by
  have hrel := h id
  cases hv : vals id with
  | none => exact absurd hv hid
  | some v =>
      rw [hv] at hrel
      cases hx : pool id with
      | none =>
          rw [hx] at hrel
          cases hrel
      | some x =>
          rw [hx] at hrel
          cases hrel with
          | some hdesc => exact ⟨v, x, rfl, rfl, hdesc⟩

/-- **Assigning** between two objects, or one that shares its arrays to itself. -/
theorem SelPool.Sound.assign {vals : SelValues} {pool : SelPool} (h : pool.Sound vals) {id src : ℕ}
    (hposs : (SelOp.assign id src).Possible vals) (hmeets : (SelOp.assign id src).Meets vals) :
    ∃ pool', pool.assign id src = .ok pool' ∧ pool'.Sound (vals.step (.assign id src)) := by
  obtain ⟨t, x, ht, hx, htarget⟩ := h.get hposs.1
  obtain ⟨v, rhs, hv, hrhs, hsource⟩ := h.get hposs.2
  obtain ⟨hself, hdims⟩ := hmeets t v ht hv
  obtain ⟨a, ha, hshallow⟩ := htarget.free
  -- what the source is once the arrays of the target are gone
  have hsrc : Function.update pool id (some { x with arrays := a }) src = some rhs := by
    by_cases hsame : src = id
    · subst hsame
      obtain rfl := Option.some.inj (ht.symm.trans hv)
      obtain rfl := Option.some.inj (hx.symm.trans hrhs)
      rw [hshallow (hself rfl), Function.update_self]
    · rw [Function.update_of_ne hsame, hrhs]
  obtain ⟨y, hy, hydesc⟩ := @SelObj.Describes.assignTo v rhs hsource x.ndim x.dims (by
    rcases hdims with hnone | hrest
    · exact Or.inl hnone
    · exact Or.inr (htarget.takes hrest))
  refine ⟨Function.update pool id (some y), ?_, ?_⟩
  · rw [SelPool.assign, hx]
    show (x.arrays.free x.ndim >>= _) = _
    rw [ha]
    simp only [Lib.ok_bind, hsrc, hy, Function.update_idem]
    rfl
  · show SelPool.Sound (Function.update vals id (vals src)) _
    rw [hv]
    exact h.update id hydesc

/-- **One call.** -/
theorem SelPool.Sound.step {vals : SelValues} {pool : SelPool} (h : pool.Sound vals) {op : SelOp}
    (hposs : op.Possible vals) (hmeets : op.Meets vals) :
    ∃ pool', pool.step op = .ok pool' ∧ pool'.Sound (vals.step op) := by
  cases op with
  | fresh id => exact ⟨_, rfl, h.update id ⟨rfl, rfl, rfl, rfl, rfl⟩⟩
  | ofSpace id s order =>
      obtain ⟨-, hvalid, hrank, horder⟩ := hposs
      obtain ⟨r, hr, hcount, hhold⟩ := s.arrays_hold hvalid hrank horder hmeets
      refine ⟨_, Lib.bind_eq_ok.mpr ⟨r, hr, rfl⟩, h.update id ⟨?_, hcount, ?_, hhold⟩⟩
      · rw [Dspace.value]
        split <;> rfl
      · have hdims : s.value.dims = some s.dims ∧ s.value.ndim = s.dims.length := by
          rw [Dspace.value]
          split <;> exact ⟨rfl, rfl⟩
        unfold DimsPtr.Hold
        rw [hdims.1, hdims.2]
        exact ⟨rfl, Or.inl ⟨s.dims, rfl, List.take_length⟩⟩
  | ofList id ndim dims blocks =>
      refine ⟨_, rfl, h.update id ⟨rfl, rfl, ?_, rfl, rfl⟩⟩
      cases dims with
      | none => rfl
      | some ds =>
          have hlen : ds.length = ndim := hposs.2.1 ds rfl
          exact ⟨hlen, Or.inl ⟨ds, rfl, hlen ▸ List.take_length⟩⟩
  | copy id src junkNdim junkNull =>
      -- The copy constructor assigns before the fields it assigns to have a value.
      obtain ⟨v, rhs, hv, hrhs, hsource⟩ := h.get hposs.2
      obtain ⟨y, hy, hydesc⟩ := @SelObj.Describes.assignTo v rhs hsource junkNdim (junkPtr junkNull) (by
        rcases hmeets v hv with hnone | ⟨rfl, hrank⟩
        · exact Or.inl hnone
        · exact Or.inr (Or.inl ⟨rfl, hrank⟩))
      refine ⟨Function.update pool id (some y), ?_, ?_⟩
      · simp only [SelPool.step, hrhs, hy, Lib.ok_bind]
        rfl
      · show SelPool.Sound (Function.update vals id (vals src)) _
        rw [hv]
        exact h.update id hydesc
  | assign id src => exact h.assign hposs hmeets
  | deepen id =>
      obtain ⟨v, x, hv, hx, hdesc⟩ := h.get hposs
      obtain ⟨y, hy, hydesc⟩ := hdesc.deepen (hmeets v hv)
      refine ⟨Function.update pool id (some y), ?_, ?_⟩
      · simp only [SelPool.step, hx, hy, Lib.ok_bind]
        rfl
      · show SelPool.Sound (Function.update vals id ((vals id).map _)) _
        rw [hv]
        exact h.update id hydesc
  | destroy id =>
      obtain ⟨v, x, hv, hx, hdesc⟩ := h.get hposs
      refine ⟨Function.update pool id none, ?_, fun k => ?_⟩
      · simp only [SelPool.step, hx, hdesc.destroy, Lib.ok_bind]
        rfl
      · show Option.Rel _ (Function.update vals id none k) _
        by_cases hk : k = id
        · rw [hk, Function.update_self, Function.update_self]
          exact Option.Rel.none
        · rw [Function.update_of_ne hk, Function.update_of_ne hk]
          exact h k

theorem runSels_from {ops : List SelOp} {vals : SelValues} {pool : SelPool} (h : pool.Sound vals)
    (hposs : Along (fun vals op => op.Possible vals) vals ops)
    (hmeets : Along (fun vals op => op.Meets vals) vals ops) :
    ∃ pool', ops.foldlM SelPool.step pool = .ok pool' ∧ pool'.Sound (ops.foldl SelValues.step vals) := by
  induction ops generalizing vals pool with
  | nil => exact ⟨pool, rfl, h⟩
  | cons op ops ih =>
      obtain ⟨mid, hmid, hsound⟩ := h.step hposs.1 hmeets.1
      obtain ⟨pool', hrun, hend⟩ := ih hsound hposs.2 hmeets.2
      refine ⟨pool', ?_, hend⟩
      rw [List.foldlM_cons, hmid]
      exact hrun

theorem Along.before {P : SelValues → SelOp → Prop} {pre ops : List SelOp} {vals : SelValues} (h : pre <+: ops)
    (hops : Along P vals ops) : Along P vals pre := by
  induction pre generalizing vals ops with
  | nil => trivial
  | cons op pre ih =>
      obtain ⟨rest, rfl⟩ := h
      exact ⟨hops.1, ih (List.prefix_append _ _) hops.2⟩

theorem Along.last {P : SelValues → SelOp → Prop} {pre : List SelOp} {op : SelOp} {vals : SelValues}
    (hops : Along P vals (pre ++ [op])) : P (pre.foldl SelValues.step vals) op := by
  induction pre generalizing vals with
  | nil => exact hops.1
  | cons q pre ih => exact ih hops.2

/-- An object is what its source is right after it is made as a copy, or assigned to. -/
def CopiesEqual (ops : List SelOp) (pool : SelPool) : Prop :=
  ∀ pre id src, ((∃ junkNdim junkNull, ops = pre ++ [.copy id src junkNdim junkNull]) ∨
      ops = pre ++ [.assign id src]) →
    ∃ x y, pool id = some x ∧ pool src = some y ∧ x.equal y = .ok true

/-- **The representation of selections.** In every run of a program whose steps meet the condition, all objects
describe what they stand for after each of them, with the arrays they own laid out as they were obtained, and
copies are equal to their source. -/
theorem runSels_sound {ops : List SelOp} (hposs : Along (fun vals op => op.Possible vals) (fun _ => none) ops)
    (hmeets : Along (fun vals op => op.Meets vals) (fun _ => none) ops) :
    ∀ pre, pre <+: ops → ∃ pool, runSels pre = .ok pool ∧ pool.Sound (selValues pre) ∧ CopiesEqual pre pool := by
  intro pre hpre
  have hempty : SelPool.Sound (fun _ => none) fun _ => none := fun _ => Option.Rel.none
  obtain ⟨pool, hrun, hsound⟩ := runSels_from hempty (hposs.before hpre) (hmeets.before hpre)
  refine ⟨pool, hrun, hsound, ?_⟩
  intro before id src hlast
  -- after the call the two stand for the same selection
  obtain ⟨hsame, hsome⟩ : selValues pre id = selValues pre src ∧ selValues pre id ≠ none := by
    have hupdate (vals : SelValues) (hsrc : vals src ≠ none) :
        Function.update vals id (vals src) id = Function.update vals id (vals src) src ∧
          Function.update vals id (vals src) id ≠ none := by
      rw [Function.update_self]
      refine ⟨?_, hsrc⟩
      by_cases hid : src = id
      · rw [hid, Function.update_self]
      · rw [Function.update_of_ne hid]
    have hstep := hposs.before hpre
    rcases hlast with ⟨junkNdim, junkNull, rfl⟩ | rfl
    · have hcopy := hupdate _ hstep.last.2
      rwa [selValues, List.foldl_append]
    · have hassign := hupdate _ hstep.last.2
      rwa [selValues, List.foldl_append]
  obtain ⟨v, x, hv, hx, hxdesc⟩ := hsound.get hsome
  obtain ⟨w, y, hw, hy, hydesc⟩ := hsound.get (hsame ▸ hsome)
  obtain rfl : v = w := Option.some.inj (hv.symm.trans (hsame.trans hw))
  exact ⟨x, y, hx, hy, hxdesc.equal hydesc⟩

/-- A pair of points in order, a copy where `NULL` happened to be, an assignment back, and the end of both. -/
def pointPair : List SelOp :=
  [.ofSpace 0 ⟨[2, 2], .points [[0, 1], [1, 0]]⟩ [0, 1], .copy 1 0 (-1) true, .assign 0 1, .deepen 1, .destroy 0,
    .destroy 1]

theorem runSels_pointPair :
    ∃ pool, runSels pointPair = .ok pool ∧ pool.Sound (selValues pointPair) ∧ CopiesEqual pointPair pool := by
  refine @runSels_sound pointPair ?_ ?_ pointPair (List.prefix_refl _)
  · refine ⟨⟨rfl, ?_, by decide, ?_⟩, ⟨rfl, nofun⟩, ⟨nofun, nofun⟩, nofun, nofun, nofun, trivial⟩
    · show ∀ p ∈ [[0, 1], [1, 0]], List.Forall₂ (· < ·) p [2, 2]
      decide
    · rintro _ ⟨⟩
      exact ⟨by decide, by decide⟩
  · refine ⟨⟨by decide, by decide⟩, fun v _ => Or.inr ⟨rfl, Or.inl (by omega)⟩, ?_, ?_, trivial, trivial, trivial⟩
    · rintro t v ht -
      obtain rfl := Option.some.inj ht
      exact ⟨nofun, Or.inr (Or.inl nofun)⟩
    · intro v hv
      obtain rfl := Option.some.inj hv
      decide

/-- Two points listed the other way round. -/
def swappedPair : List SelOp := [.ofSpace 0 ⟨[2, 2], .points [[1, 0], [0, 1]]⟩ [1, 0]]

/-- **The pointer that is handed back** is that of the second point, not that of the allocation. -/
theorem not_runSels_swappedPair : Along (fun vals op => op.Possible vals) (fun _ => none) swappedPair ∧
    (¬ ∃ pool, runSels swappedPair = .ok pool ∧ pool.Sound (selValues swappedPair)) ∧
    (runSels (swappedPair ++ [.destroy 0])).isOk = false := by
  refine ⟨⟨⟨rfl, ?_, by decide, ?_⟩, trivial⟩, ?_, by decide⟩
  · show ∀ p ∈ [[1, 0], [0, 1]], List.Forall₂ (· < ·) p [2, 2]
    decide
  · rintro _ ⟨⟩
    exact ⟨by decide, by decide⟩
  · rintro ⟨pool, hrun, hsound⟩
    obtain rfl := Except.ok.inj hrun
    have hmade : selValues swappedPair 0 ≠ none := nofun
    obtain ⟨v, x, hv, hx, hdesc⟩ := hsound.get hmade
    obtain rfl := Option.some.inj hx
    have hbase := hdesc.arrays.1.base
    revert hbase
    decide

end LogVol
