/-
# LogVol.SelectObjects — selection objects and the arrays they own.

A selection either points to the arrays of its caller or owns its own: two arrays of pointers to the vectors of
one allocation, which is handed back through `starts[0]`. The constructors sort and merge the pointers in place,
so what `starts[0]` points to depends on the data; and copying looks at fields of the target that may never have
been set. Here are the constructors, `operator=`, `convert_to_deep` and the destructor on a pool of objects,
with, over them, what the objects are to describe; `SelOp.Meets` is what the steps of a run have to meet, and
`Dspace.arrays_hold` says what the constructors make of a dataspace then.
-/
import LogVol.MemSelection

namespace LogVol

open Lib (Box)

/-! ## §1 — the arrays. -/

/-- The arrays of a selection that owns them. `alloc (size)` made room for `2 * size` vectors; `starts[i]` and
`counts[i]` point to the vectors with these numbers, and `blocks` is what is in the vectors. -/
structure Backing where
  size : ℕ
  starts : List ℕ
  counts : List ℕ
  blocks : List Box

/-- What `starts`, `counts` and `sels_arr` are: nothing, the arrays of a caller, arrays of their own, or arrays
that were handed back already. -/
inductive Arrays where
  | none
  | caller (blocks : List Box)
  | own (b : Backing)
  | freed

/-- **`alloc (nsel)`**, and the blocks `bs` copied into it. -/
def allocArrays (ndim nsel : ℕ) (bs : List Box) : Except Fault Arrays :=
  if nsel = 0 then .ok .none
  else do
    allocBlocks ndim nsel
    pure (.own ⟨nsel, List.range nsel, (List.range nsel).map (nsel + ·), bs⟩)

/-- `if (starts[0]) free (starts[0])`: it has to be what was obtained. -/
def Backing.free (ndim : ℕ) (b : Backing) : Except Fault Unit :=
  if ndim = 0 ∨ b.starts.head? = some 0 then .ok () else .error .outside

/-- Deallocate existing start and count array. -/
def Arrays.free (ndim : ℕ) : Arrays → Except Fault Arrays
  | .own b => (b.free ndim).map fun _ => .freed
  | a => .ok a

/-- The blocks that are read through `starts` and `counts`. -/
def Arrays.read : Arrays → Except Fault (List Box)
  | .none => .ok []
  | .caller bs => .ok bs
  | .own b => .ok b.blocks
  | .freed => .error .outside

/-- The arrays of a point selection. `order` says which point is where once `std::sort` has moved the pointers in
`starts`; those in `counts` are where they were. -/
def pointArrays (ndim : ℕ) (ps : List (List ℕ)) (order : List ℕ) : Except Fault (ℕ × Arrays) :=
  if ps = [] then .ok (0, .none)
  else do
    allocBlocks ndim ps.length
    let m := Merging.passes ndim
      ⟨fun i => pointBox (ps.getD (order.getD i 0) []), List.range ps.length, []⟩
    pure (m.live.length, .own ⟨ps.length, m.live.map fun i => order.getD i 0, m.live.map (ps.length + ·),
      m.live.map m.data⟩)

/-- The arrays of a hyperslab selection of two or more blocks. -/
def hyperArrays (ndim : ℕ) (blocks : List Span) : Except Fault (ℕ × Arrays) :=
  (hyperSlots ndim blocks).map fun r =>
    (r.2, .own ⟨r.1.vecs.length, r.1.vecs.take r.2, (r.1.vecs.take r.2).map (r.1.vecs.length + ·),
      r.1.blocks r.2⟩)

/-- `nsel` and the arrays of a selection of a dataspace. -/
def Dspace.arrays (s : Dspace) (order : List ℕ) : Except Fault (ℕ × Arrays) :=
  match s.sel with
  | .none => .ok (0, .none)
  | .all =>
      if 0 ∈ s.dims then .ok (0, .none)
      else (allocArrays s.dims.length 1 [s.dims.map (0, ·)]).map (1, ·)
  | .hyperslab [b] => (allocArrays s.dims.length 1 [b.box]).map (1, ·)
  | .hyperslab blocks => hyperArrays s.dims.length blocks
  | .points ps => pointArrays s.dims.length ps order

/-! ## §2 — the objects. -/

/-- The pointer `dims`: `NULL`, to an allocation with these entries, or not set. -/
inductive DimsPtr where
  | null
  | own (a : List ℕ)
  | wild

/-- `if (this->ndim < rhs.ndim) this->dims = realloc (this->dims, ...)` -/
def DimsPtr.grow (tndim : ℤ) (n : ℕ) (d : DimsPtr) : Except Fault DimsPtr :=
  if tndim < n then
    match d with
    | .null => .ok (.own (List.replicate n 0))
    | .own a => .ok (.own (a.take n ++ List.replicate (n - a.length) 0))
    | .wild => .error .outside
  else .ok d

/-- `memcpy (this->dims, ...)`: of nothing, it does nothing. -/
def DimsPtr.store (xs : List ℕ) (d : DimsPtr) : Except Fault DimsPtr :=
  if xs = [] then .ok d
  else
    match d with
    | .own a => if xs.length ≤ a.length then .ok (.own (xs ++ a.drop xs.length)) else .error .outside
    | _ => .error .outside

/-- **`H5VL_log_selections`**, with `sels_arr` being set where the arrays are its own. -/
structure SelObj where
  ndim : ℕ
  nsel : ℕ
  dims : DimsPtr
  arrays : Arrays

/-- Copy dimension sizes, into `dims` of an object whose rank was `tndim`. -/
def SelObj.copyDims (tndim : ℤ) (tdims : DimsPtr) (rhs : SelObj) : Except Fault DimsPtr :=
  match rhs.dims with
  | .null => .ok .null
  | .wild => .error .outside
  | .own a =>
      if a.length < rhs.ndim then .error .outside
      else tdims.grow tndim rhs.ndim >>= DimsPtr.store (a.take rhs.ndim)

/-- Arrays that are its own are copied, others are shared. -/
def SelObj.copyArrays (rhs : SelObj) : Except Fault Arrays :=
  match rhs.arrays with
  | .own b => allocArrays rhs.ndim rhs.nsel b.blocks
  | a => .ok a

/-- What `operator=` makes of an object without arrays, of rank `tndim`. -/
def SelObj.assignTo (tndim : ℤ) (tdims : DimsPtr) (rhs : SelObj) : Except Fault SelObj := do
  let dims ← rhs.copyDims tndim tdims
  let arrays ← rhs.copyArrays
  pure ⟨rhs.ndim, rhs.nsel, dims, arrays⟩

/-- `operator==` -/
def SelObj.equal (x y : SelObj) : Except Fault Bool :=
  if x.ndim ≠ y.ndim then .ok false
  else if x.nsel ≠ y.nsel then .ok false
  else do
    let bs ← x.arrays.read
    let cs ← y.arrays.read
    pure (bs == cs)

/-- `free (dims)` -/
def DimsPtr.free : DimsPtr → Except Fault Unit
  | .wild => .error .outside
  | _ => .ok ()

/-! ## §3 — calls on a pool of objects. -/

/-- Objects are made by the constructors, also as copies, of which `junkNdim` is what happens to be in `ndim`, and
`junkNull` whether `dims` happens to be `NULL`; then assigned to, made deep, and destroyed. -/
inductive SelOp where
  | fresh (id : ℕ)
  | ofSpace (id : ℕ) (s : Dspace) (order : List ℕ)
  | ofList (id ndim : ℕ) (dims : Option (List ℕ)) (blocks : List Box)
  | copy (id src : ℕ) (junkNdim : ℤ) (junkNull : Bool)
  | assign (id src : ℕ)
  | deepen (id : ℕ)
  | destroy (id : ℕ)

abbrev SelPool := ℕ → Option SelObj

/-- `this->dims` of the constructor from a block list. -/
def givenDims : Option (List ℕ) → DimsPtr
  | none => .null
  | some ds => .own ds

/-- A pointer that was not set. -/
def junkPtr (isNull : Bool) : DimsPtr := if isNull then .null else .wild

/-- **`convert_to_deep`** -/
def SelObj.deepen (x : SelObj) : Except Fault SelObj :=
  match x.arrays with
  | .own _ => .ok x
  | a => do
      let bs ← a.read
      let arrays ← allocArrays x.ndim x.nsel bs
      pure { x with arrays := arrays }

/-- **`~H5VL_log_selections`** -/
def SelObj.destroy (x : SelObj) : Except Fault Unit := do
  x.dims.free
  let _ ← x.arrays.free x.ndim
  pure ()

/-- `operator=` on objects of a pool. The arrays of the target are deallocated first, also where the source is
the target. -/
def SelPool.assign (pool : SelPool) (id src : ℕ) : Except Fault SelPool :=
  match pool id with
  | none => .ok pool
  | some x => do
      let arrays ← x.arrays.free x.ndim
      let pool := Function.update pool id (some { x with arrays := arrays })
      match pool src with
      | none => .ok pool
      | some rhs => do
          let x ← rhs.assignTo x.ndim x.dims
          pure (Function.update pool id (some x))

def SelPool.step (pool : SelPool) : SelOp → Except Fault SelPool
  | .fresh id => .ok (Function.update pool id (some ⟨0, 0, .null, .none⟩))
  | .ofSpace id s order => do
      let r ← s.arrays order
      pure (Function.update pool id (some ⟨s.dims.length, r.1, .own s.dims, r.2⟩))
  | .ofList id ndim dims blocks =>
      .ok (Function.update pool id (some ⟨ndim, blocks.length, givenDims dims, .caller blocks⟩))
  | .copy id src junkNdim junkNull =>
      match pool src with
      | none => .ok pool
      | some rhs => do
          let x ← rhs.assignTo junkNdim (junkPtr junkNull)
          pure (Function.update pool id (some x))
  | .assign id src => pool.assign id src
  | .deepen id =>
      match pool id with
      | none => .ok pool
      | some x => do
          let x ← x.deepen
          pure (Function.update pool id (some x))
  | .destroy id =>
      match pool id with
      | none => .ok pool
      | some x => do
          x.destroy
          pure (Function.update pool id none)

/-- A run from no objects. -/
def runSels (ops : List SelOp) : Except Fault SelPool := ops.foldlM SelPool.step fun _ => none

/-! ## §4 — what the objects are to describe. -/

/-- A selection: the rank and, where they are known, the extents of its dataspace, and its blocks. `deep` says
whether they are in arrays of its own. -/
structure SelValue where
  ndim : ℕ
  dims : Option (List ℕ)
  blocks : List Box
  deep : Bool

abbrev SelValues := ℕ → Option SelValue

/-- The selection of a dataspace. -/
def Dspace.value (s : Dspace) : SelValue :=
  match s.selections with
  | .ok bs => ⟨s.dims.length, some s.dims, bs, !bs.isEmpty⟩
  | .error _ => ⟨s.dims.length, some s.dims, [], false⟩

/-- What a call means: a copy is what its source is. -/
def SelValues.step (vals : SelValues) : SelOp → SelValues
  | .fresh id => Function.update vals id (some ⟨0, none, [], false⟩)
  | .ofSpace id s _ => Function.update vals id (some s.value)
  | .ofList id ndim dims blocks => Function.update vals id (some ⟨ndim, dims, blocks, false⟩)
  | .copy id src _ _ => Function.update vals id (vals src)
  | .assign id src => Function.update vals id (vals src)
  | .deepen id => Function.update vals id ((vals id).map fun v => { v with deep := !v.blocks.isEmpty })
  | .destroy id => Function.update vals id none

def selValues (ops : List SelOp) : SelValues := ops.foldl SelValues.step fun _ => none

/-- **`Backing.Sound`** — `starts[0]` is at the beginning of the allocation, and the vectors lie inside it, no two
of them the same. -/
structure Backing.Sound (ndim : ℕ) (b : Backing) : Prop where
  base : b.starts.head? = some 0
  slots : b.starts.length = b.blocks.length ∧ b.counts.length = b.blocks.length
  inside : ∀ v ∈ b.starts ++ b.counts, v < 2 * b.size
  apart : (b.starts ++ b.counts).Nodup
  fits : b.blocks.length * ndim < 2 ^ 31

/-- The arrays hold the blocks of `v`, and are its own exactly where `v` says so. -/
def Arrays.Hold (v : SelValue) : Arrays → Prop
  | .none => v.blocks = [] ∧ v.deep = false
  | .caller bs => bs = v.blocks ∧ v.deep = false
  | .own b => b.Sound v.ndim ∧ b.blocks = v.blocks ∧ v.deep = true
  | .freed => False

/-- `dims` has the extents of `v`. -/
def DimsPtr.Hold (v : SelValue) (d : DimsPtr) : Prop :=
  match v.dims with
  | none => d = .null
  | some ds => ds.length = v.ndim ∧ ((∃ a, d = .own a ∧ a.take v.ndim = ds) ∨ d = .null ∧ v.ndim = 0)

/-- **`Describes`** — the fields of an object describe the selection it stands for. -/
structure SelObj.Describes (v : SelValue) (x : SelObj) : Prop where
  ndim : x.ndim = v.ndim
  nsel : x.nsel = v.blocks.length
  dims : x.dims.Hold v
  arrays : x.arrays.Hold v

/-- The objects of a pool describe what they stand for. -/
def SelPool.Sound (vals : SelValues) (pool : SelPool) : Prop :=
  ∀ id, Option.Rel (fun v x => SelObj.Describes v x) (vals id) (pool id)

/-! ## §5 — programs, and the steps that are sound. -/

/-- What a program can do: objects are made where there are none, and used where there are; a dataspace is as
HDF5 gives it, and `std::sort` sorts; the caller's lists are as long as it says. -/
def SelOp.Possible (vals : SelValues) : SelOp → Prop
  | .fresh id => vals id = none
  | .ofSpace id s order => vals id = none ∧ s.Valid ∧ s.dims.length ≤ 32 ∧
      ∀ ps, s.sel = .points ps → order.Perm (List.range ps.length) ∧
        order.Pairwise fun i j => ps.getD i [] ≤ ps.getD j []
  | .ofList id ndim dims blocks => vals id = none ∧ (∀ ds, dims = some ds → ds.length = ndim) ∧
      blocks.length < 2 ^ 31 ∧ ∀ b ∈ blocks, b.length = ndim
  | .copy id src _ _ => vals id = none ∧ vals src ≠ none
  | .assign id src => vals id ≠ none ∧ vals src ≠ none
  | .deepen id => vals id ≠ none
  | .destroy id => vals id ≠ none

/-- A selection of a dataspace whose constructor leaves `starts[0]` and all vectors where they belong. -/
def Dspace.Constructs (s : Dspace) : Prop :=
  match s.sel with
  | .none => True
  | .all => True
  | .hyperslab blocks => 2 ≤ blocks.length → CountsFit s.dims.length blocks ∧ VectorsApart s.dims.length blocks
  | .points ps => ps.length * s.dims.length < 2 ^ 31 ∧ ∀ p ∈ ps.tail, ps.headD [] < p

/-- **The condition**: of a list of points the first comes before all others, and the counts fit; a copy is made
where no extents are copied or where `ndim` and `dims` happen to be small and `NULL`; extents are not assigned to
an object that has none, unless its rank is smaller; an object that owns its arrays is not assigned to itself. -/
def SelOp.Meets (vals : SelValues) : SelOp → Prop
  | .ofSpace _ s _ => s.Constructs
  | .copy _ src junkNdim junkNull => ∀ v, vals src = some v →
      v.dims = none ∨ junkNull = true ∧ (junkNdim < v.ndim ∨ v.ndim = 0)
  | .assign id src => ∀ t v, vals id = some t → vals src = some v →
      (id = src → v.deep = false) ∧ (v.dims = none ∨ t.dims ≠ none ∨ t.ndim < v.ndim ∨ v.ndim = 0)
  | .deepen id => ∀ v, vals id = some v → v.blocks.length * v.ndim < 2 ^ 31
  | _ => True

/-- A property of every call of a program and what there is before it. -/
def Along (P : SelValues → SelOp → Prop) : SelValues → List SelOp → Prop
  | _, [] => True
  | vals, op :: ops => P vals op ∧ Along P (vals.step op) ops

/-! ## §6 — what the constructors make. -/

/-- The vectors of the two halves of an allocation are different. -/
theorem slots_apart {vs ws : List ℕ} {n : ℕ} (hvs : vs.Nodup) (hlt : ∀ v ∈ vs, v < n) (hws : ws.Nodup) :
    (vs ++ ws.map (n + ·)).Nodup := by
  refine List.nodup_append.mpr ⟨hvs, hws.map fun i j hij => Nat.add_left_cancel hij, ?_⟩
  rintro v hv w hw rfl
  obtain ⟨i, -, heq⟩ := List.mem_map.mp hw
  have hv := hlt v hv
  omega

theorem slots_inside {vs ws : List ℕ} {n : ℕ} (hvs : ∀ v ∈ vs, v < n) (hws : ∀ w ∈ ws, w < n) :
    ∀ v ∈ vs ++ ws.map (n + ·), v < 2 * n := by
  intro v hv
  rcases List.mem_append.mp hv with hv | hv
  · have := hvs v hv
    omega
  · obtain ⟨w, hw, rfl⟩ := List.mem_map.mp hv
    have := hws w hw
    omega

section Constructors

variable {ndim : ℕ}

/-- **Fresh arrays** hold what is copied into them. -/
theorem allocArrays_hold {bs : List Box} (h : bs.length * ndim < 2 ^ 31) (dims : Option (List ℕ)) :
    ∃ a, allocArrays ndim bs.length bs = .ok a ∧ a.Hold ⟨ndim, dims, bs, !bs.isEmpty⟩ := by
  rcases bs with _ | ⟨b, bs⟩
  · exact ⟨.none, rfl, rfl, rfl⟩
  · refine ⟨.own ⟨bs.length + 1, List.range (bs.length + 1),
      (List.range (bs.length + 1)).map (bs.length + 1 + ·), b :: bs⟩, ?_, ⟨?_, ?_, ?_, ?_, h⟩, rfl, rfl⟩
    · rw [allocArrays, if_neg (by simp), allocBlocks, if_pos h]
      rfl
    · rw [List.range_succ_eq_map]
      rfl
    · simp
    · exact slots_inside (fun v hv => List.mem_range.mp hv) fun w hw => List.mem_range.mp hw
    · exact slots_apart List.nodup_range (fun v hv => List.mem_range.mp hv) List.nodup_range

theorem map_getD_range {α : Type} (l : List α) (d : α) : (List.range l.length).map (fun i => l.getD i d) = l := by
  apply List.ext_getElem
  · simp
  · intro i hi hi'
    simp [List.getD_eq_getElem?_getD, hi']

/-- Whatever the order of equal points, the sorted pointers point to the sorted points. -/
theorem sortedPoints_eq {ps : List (List ℕ)} {order : List ℕ} (hrank : ∀ p ∈ ps, p.length = ndim)
    (horder : order.Perm (List.range ps.length))
    (hsorted : order.Pairwise fun i j => ps.getD i [] ≤ ps.getD j []) :
    order.map (fun i => ps.getD i []) = sortBy id ps := by
  have hperm : (order.map fun i => ps.getD i []).Perm ps := by
    have hmap := horder.map fun i => ps.getD i []
    rwa [map_getD_range] at hmap
  refine (hperm.trans (sortBy_perm id ps).symm).eq_of_pairwise ?_ (List.pairwise_map.mpr hsorted)
    (sortBy_pairwise hrank)
  exact fun x y _ _ hxy hyx => le_antisymm hxy hyx

/-- The first of the sorted pointers points to the first point, if that comes before all others. -/
theorem order_head {ps : List (List ℕ)} {order : List ℕ} (hsome : ps ≠ [])
    (horder : order.Perm (List.range ps.length))
    (hsorted : order.Pairwise fun i j => ps.getD i [] ≤ ps.getD j [])
    (hfirst : ∀ p ∈ ps.tail, ps.headD [] < p) : order.getD 0 0 = 0 := by
  obtain ⟨p, ps, rfl⟩ := List.exists_cons_of_ne_nil hsome
  have hzero : 0 ∈ order := horder.mem_iff.mpr (by simp)
  rcases order with _ | ⟨k, order⟩
  · cases hzero
  show k = 0
  rcases List.mem_cons.mp hzero with hk | hzero
  · exact hk.symm
  · have hle : (p :: ps).getD k [] ≤ p := List.rel_of_pairwise_cons hsorted hzero
    have hk : k < ps.length + 1 := by
      simpa using horder.mem_iff.mp (List.mem_cons_self ..)
    rcases k with _ | k
    · rfl
    · rw [List.getD_cons_succ, List.getD_eq_getElem _ _ (Nat.lt_of_succ_lt_succ hk)] at hle
      exact absurd (hfirst _ (List.getElem_mem _)) (not_lt.mpr hle)

/-- **A point list** whose first point comes before all others. -/
theorem pointArrays_hold {ps : List (List ℕ)} {order : List ℕ} (hrank : ∀ p ∈ ps, p.length = ndim)
    (horder : order.Perm (List.range ps.length))
    (hsorted : order.Pairwise fun i j => ps.getD i [] ≤ ps.getD j [])
    (hfit : ps.length * ndim < 2 ^ 31) (hfirst : ∀ p ∈ ps.tail, ps.headD [] < p) (dims : Option (List ℕ)) :
    ∃ bs r, pointSelections ndim ps = .ok bs ∧ pointArrays ndim ps order = .ok r ∧ r.1 = bs.length ∧
      r.2.Hold ⟨ndim, dims, bs, !bs.isEmpty⟩ := by
  have hselections : pointSelections ndim ps = .ok (mergeBlocks false ndim ((sortBy id ps).map pointBox)) := by
    unfold pointSelections
    rw [allocBlocks, if_pos hfit]
    rfl
  refine ⟨mergeBlocks false ndim ((sortBy id ps).map pointBox), ?_⟩
  rw [hselections]
  by_cases hnone : ps = []
  · subst hnone
    refine ⟨(0, .none), rfl, if_pos rfl, ?_, ?_, ?_⟩ <;> cases ndim <;> rfl
  have hlen : order.length = ps.length := by rw [horder.length_eq, List.length_range]
  -- slot `i` has the vector of the point that was moved there
  let data : ℕ → Box := fun i => pointBox (ps.getD (order.getD i 0) [])
  let m := Merging.passes ndim ⟨data, List.range ps.length, []⟩
  have hlive : m.live.Sublist (List.range ps.length) := Merging.passes_live ndim _
  have hnodup : m.live.Nodup := hlive.nodup List.nodup_range
  have hbound : ∀ i ∈ m.live, i < ps.length := fun i hi => List.mem_range.mp (hlive.subset hi)
  have hslots : (m.live.map fun i => order.getD i 0).Sublist order := by
    have hmap := hlive.map fun i => order.getD i 0
    rwa [← hlen, map_getD_range] at hmap
  have hpoint : ∀ v ∈ m.live.map (fun i => order.getD i 0), v < ps.length := fun v hv =>
    List.mem_range.mp (horder.mem_iff.mp (hslots.subset hv))
  have hdata : (List.range ps.length).map data = (sortBy id ps).map pointBox := by
    rw [← sortedPoints_eq hrank horder hsorted, List.map_map, ← hlen]
    conv_rhs => rw [← map_getD_range order 0, List.map_map]
    rfl
  have hblocks : m.live.map m.data = mergeBlocks false ndim ((sortBy id ps).map pointBox) := by
    rw [← hdata]
    exact Merging.passes_blocks List.nodup_range
  have hhead : m.live.head? = some 0 := by
    obtain ⟨p, ps, rfl⟩ := List.exists_cons_of_ne_nil hnone
    refine (Merging.passes_head ndim _).trans ?_
    show (List.range (ps.length + 1)).head? = some 0
    rw [List.range_succ_eq_map]
    rfl
  refine ⟨(m.live.length, .own ⟨ps.length, m.live.map fun i => order.getD i 0,
    m.live.map (ps.length + ·), m.live.map m.data⟩), rfl, ?_, ?_, ⟨?_, ?_, ?_, ?_, ?_⟩, hblocks, ?_⟩
  · rw [pointArrays, if_neg hnone, allocBlocks, if_pos hfit]
    rfl
  · rw [← hblocks, List.length_map]
  · show (m.live.map fun i => order.getD i 0).head? = some 0
    rw [List.head?_map, hhead, Option.map_some, order_head hnone horder hsorted hfirst]
  · simp
  · exact slots_inside hpoint hbound
  · exact slots_apart (hslots.nodup (horder.nodup_iff.mpr List.nodup_range)) hpoint hnodup
  · have hle : m.live.length ≤ ps.length := by
      have hsub := hlive.length_le
      rwa [List.length_range] at hsub
    show (m.live.map m.data).length * ndim < 2 ^ 31
    rw [List.length_map]
    exact lt_of_le_of_lt (Nat.mul_le_mul_right ndim hle) hfit
  · show (!(mergeBlocks false ndim ((sortBy id ps).map pointBox)).isEmpty) = true
    rw [← hblocks]
    rcases hm : m.live with _ | ⟨v, vs⟩
    · rw [hm] at hhead
      cases hhead
    · rfl

/-- The first of the rows of a group begins where its first block does, and no other before. -/
theorem spanRows_first (hn : 1 ≤ ndim) {g : List Span} (hg : g ≠ []) (hshape : ∀ s ∈ g, s.length = ndim ∧ s.Ordered)
    (hsorted : g.Pairwise fun a b => a.first < b.first) :
    ∃ r rows, spanRows g = r :: rows ∧ ∀ u ∈ rows, lessthan u.start r.start = false := by
  obtain ⟨b, g, rfl⟩ := List.exists_cons_of_ne_nil hg
  have hempty : [] ∉ b :: g := by
    intro hnil
    have hlen := (hshape [] hnil).1
    rw [List.length_nil] at hlen
    omega
  obtain ⟨r, rows, hrows, hr⟩ : ∃ r rows, spanRows (b :: g) = r :: rows ∧ r.start = b.first := by
    rcases g with _ | ⟨c, g⟩
    · exact ⟨b.box, [], rfl, Span.start_box b⟩
    · have hlead : Span.Ordered b.dropLast :=
        fun p hp => (hshape b (List.mem_cons_self ..)).2 p (List.mem_of_mem_dropLast hp)
      have hb : b ≠ [] := fun heq => hempty (heq ▸ List.mem_cons_self ..)
      obtain ⟨cur, hcur⟩ : ∃ cur, (Span.box b.dropLast).cells = (Span.first b.dropLast) :: cur := by
        have hhead := (walks hlead).head
        rcases hcells : (Span.box b.dropLast).cells with _ | ⟨x, cur⟩
        · rw [hcells] at hhead
          cases hhead
        · rw [hcells] at hhead
          exact ⟨cur, by rw [Option.some.inj hhead]⟩
      refine ⟨rowBox (b.getLastD (0, 0)) (Span.first b.dropLast),
        cur.map (rowBox (b.getLastD (0, 0))) ++ (c :: g).flatMap cutRows, ?_, ?_⟩
      · show cutRows b ++ (c :: g).flatMap cutRows = _
        rw [cutRows, hcur]
        rfl
      · conv_rhs => rw [← Span.split_last hb]
        simp [rowBox, Box.start, pointBox, Span.first, Function.comp_def]
  refine ⟨r, rows, hrows, fun u hu => ?_⟩
  have hmem : u ∈ spanRows (b :: g) := hrows ▸ List.mem_cons_of_mem r hu
  have hu' := spanRows_mem hn (fun s hs => (hshape s hs).1) hmem
  have hr' := spanRows_mem hn (fun s hs => (hshape s hs).1) (r := r) (hrows ▸ List.mem_cons_self ..)
  rw [← Bool.not_eq_true, lessthan_iff (by simp [Box.start, hu'.1, hr'.1]), hr, not_lt]
  -- its start is an element of a block, which begins no earlier than the first
  have hstart : u.start ∈ (b :: g).flatMap fun s => s.box.cells := by
    rw [← spanRows_cells hempty]
    exact List.mem_flatMap.mpr ⟨u, hmem, Box.start_mem hu'.2⟩
  obtain ⟨s, hs, hcell⟩ := List.mem_flatMap.mp hstart
  have hle := Box.start_le hcell
  rw [Span.start_box] at hle
  refine le_trans ?_ hle
  rcases List.mem_cons.mp hs with rfl | hs
  · exact le_rfl
  · exact le_of_lt (List.rel_of_pairwise_cons hsorted hs)

/-- **The first slot** still has the first vector when the first group is filled in. -/
theorem fill_alloc_head (hn : 1 ≤ ndim) {g : List Span} (hg : g ≠ []) (hshape : ∀ s ∈ g, s.length = ndim ∧ s.Ordered)
    (hsorted : g.Pairwise fun a b => a.first < b.first) {cap : ℕ} (hroom : groupNeed g ≤ cap) :
    let r := (Slots.alloc cap).fill ndim 0 (spanRows g)
    (r.1.vecs.take r.2).head? = some 0 := by
  obtain ⟨r, rows, hrows, hfirst⟩ := spanRows_first hn hg hshape hsorted
  have hlen : rows.length + 1 ≤ cap := by
    rw [← spanRows_length, hrows] at hroom
    exact hroom
  have hslots : slotsFrom (Slots.alloc cap).vecs 0 (rows.length + 1) = 0 :: List.range' 1 rows.length := by
    show (List.range cap).take (rows.length + 1) = _
    rw [List.take_range, Nat.min_eq_left hlen, List.range_eq_range', List.range'_succ]
  have hdata : (0 :: List.range' 1 rows.length).map ((Slots.alloc cap).put 0 (r :: rows)).data = r :: rows := by
    show List.map (Lib.assign _ ((slotsFrom (Slots.alloc cap).vecs 0 (rows.length + 1)).zip (r :: rows))) _ = _
    rw [hslots]
    have hnodup : (List.range' 0 (rows.length + 1)).Nodup := List.nodup_range'
    exact Lib.map_assign_zip hnodup (by simp)
  obtain ⟨hzero, hrest⟩ := List.cons_eq_cons.mp hdata
  rw [hrows]
  show ((((Slots.alloc cap).fill ndim 0 (r :: rows)).1.vecs).take _).head? = some 0
  rw [Slots.fill_used ndim (by simpa [Slots.alloc] using hlen)]
  show (settle ndim _ (slotsFrom (Slots.alloc cap).vecs 0 (rows.length + 1))).live.head? = some 0
  rw [hslots]
  apply settle_head
  intro u hu
  have hmem := List.mem_map_of_mem (f := ((Slots.alloc cap).put 0 (r :: rows)).data) hu
  rw [hrest] at hmem
  rw [hzero]
  exact hfirst _ hmem

/-- One group filled in with the slots apart. -/
theorem SlotsApart.fill {g : List Span} {gs : List (List Span)} {s : Slots} {n : ℕ}
    (hroom : n + (spanRows g).length ≤ s.vecs.length) (h : SlotsApart ndim (g :: gs) s.vecs n) :
    ((s.fill ndim n (spanRows g)).1.vecs.take (s.fill ndim n (spanRows g)).2).Nodup ∧
      SlotsApart ndim gs (s.fill ndim n (spanRows g)).1.vecs (s.fill ndim n (spanRows g)).2 := by
  obtain ⟨hslots, hapart⟩ := h
  rw [← spanRows_length] at hslots
  have hcount := Slots.fill_count ndim hroom hslots
  rw [← groupBlocks_eq] at hcount
  constructor
  · rw [Slots.fill_used ndim hroom]
    rw [take_add_slotsFrom] at hslots
    obtain ⟨hbefore, hws, hdisjoint⟩ := List.nodup_append.mp hslots
    exact List.nodup_append.mpr ⟨hbefore, settle_live_nodup hws,
      fun v hv u hu => hdisjoint v hv u (settle_live_mem hu)⟩
  · rw [Slots.fill_vecs ndim hroom, hcount]
    exact hapart

theorem Slots.fill_mem {n : ℕ} {rows : List Box} {s : Slots} {v : ℕ} (hv : v ∈ (s.fill ndim n rows).1.vecs) :
    v ∈ s.vecs := by
  rcases List.mem_append.mp hv with hv | hv
  · rcases List.mem_append.mp hv with hv | hv
    · exact List.mem_of_mem_take hv
    · exact List.mem_of_mem_drop (List.mem_of_mem_take (settle_mem hv))
  · exact List.mem_of_mem_drop hv

/-- **With the slots apart** the vectors in use stay apart, and the first slot keeps its own. -/
theorem fillGroups_slots {gs : List (List Span)} (hne : [] ∉ gs) (hord : ∀ g ∈ gs, ∀ s ∈ g, s.Ordered) {s : Slots}
    {n : ℕ} (hn : n ≤ s.vecs.length) (hnodup : (s.vecs.take n).Nodup) (hapart : SlotsApart ndim gs s.vecs n)
    {r : Slots × ℕ} (h : fillGroups ndim gs s n = .ok r) :
    (r.1.vecs.take r.2).Nodup ∧ (∀ v ∈ r.1.vecs, v ∈ s.vecs) ∧
      (0 < n → (r.1.vecs.take r.2).head? = (s.vecs.take n).head?) := by
  -- On the groups that are left: each is written behind the slots in use, and those have to stay apart.
  induction gs generalizing s n with
  | nil =>
      obtain rfl := Except.ok.inj h
      exact ⟨hnodup, fun v hv => hv, fun _ => rfl⟩
  | cons g gs ih =>
      rw [fillGroups_cons gs (fun heq => hne (heq ▸ List.mem_cons_self ..)) (hord g (List.mem_cons_self ..))
        hn] at h
      split at h
      · rename_i hroom
        rw [← spanRows_length] at hroom
        obtain ⟨hnodup', hapart'⟩ := hapart.fill hroom
        have hle := Slots.fill_count_le ndim hroom
        have hlen := Slots.fill_length ndim hroom
        have hpos := Slots.fill_count_lt ndim hroom
          (spanRows_length g ▸ groupNeed_pos fun heq => hne (heq ▸ List.mem_cons_self ..))
        obtain ⟨hend, hmem, hhead⟩ := ih (fun h => hne (List.mem_cons_of_mem g h))
          (fun k hk => hord k (List.mem_cons_of_mem g hk)) (by omega) hnodup' hapart' h
        refine ⟨hend, fun v hv => Slots.fill_mem (hmem v hv), fun h₀ => ?_⟩
        rw [hhead (by omega), Slots.fill_used ndim hroom, List.head?_append]
        rcases hs : s.vecs.take n with _ | ⟨v, vs⟩
        · -- There is a slot in use, so the first one is not new.
          have hzero := congrArg List.length hs
          rw [List.length_take, List.length_nil] at hzero
          omega
        · rfl
      · cases h

/-- **The whole filling**, from fresh slots. -/
theorem fillGroups_alloc_head (hn : 1 ≤ ndim) {gs : List (List Span)} (hne : [] ∉ gs)
    (hshape : ∀ g ∈ gs, ∀ s ∈ g, s.length = ndim ∧ s.Ordered)
    (hsorted : gs.flatten.Pairwise fun a b => a.first < b.first) (hsome : gs ≠ []) {cap : ℕ}
    (hapart : SlotsApart ndim gs (List.range cap) 0) {r : Slots × ℕ}
    (h : fillGroups ndim gs (Slots.alloc cap) 0 = .ok r) : (r.1.vecs.take r.2).head? = some 0 := by
  obtain ⟨g, gs, rfl⟩ := List.exists_cons_of_ne_nil hsome
  have hg : g ≠ [] := fun heq => hne (heq ▸ List.mem_cons_self ..)
  rw [fillGroups_cons gs hg (fun s hs => (hshape g (List.mem_cons_self ..) s hs).2) (Nat.zero_le _)] at h
  split at h
  · rename_i hroom
    have hcap : groupNeed g ≤ cap := by simpa [Slots.alloc] using hroom
    rw [← spanRows_length] at hroom
    obtain ⟨hnodup, hapart⟩ := SlotsApart.fill (s := Slots.alloc cap) hroom hapart
    have hle := Slots.fill_count_le ndim hroom
    have hlen := Slots.fill_length ndim hroom
    have hpos := Slots.fill_count_lt ndim hroom (spanRows_length g ▸ groupNeed_pos hg)
    have hfirst := fill_alloc_head hn hg (hshape g (List.mem_cons_self ..))
      (List.pairwise_append.mp (List.flatten_cons ▸ hsorted)).1 hcap
    obtain ⟨-, -, hhead⟩ := fillGroups_slots (fun h => hne (List.mem_cons_of_mem g h))
      (fun k hk s hs => (hshape k (List.mem_cons_of_mem g hk) s hs).2) (by omega) hnodup hapart h
    exact (hhead hpos).trans hfirst
  · cases h

/-- **Several blocks** whose counts fit and for which no vector in use is written again. -/
theorem hyperArrays_hold {blocks : List Span} (h : HdfBlocks ndim blocks) (hfit : CountsFit ndim blocks)
    (hapart : VectorsApart ndim blocks) (dims : Option (List ℕ)) :
    ∃ bs r, hyperSelections ndim blocks = .ok bs ∧ hyperArrays ndim blocks = .ok r ∧ r.1 = bs.length ∧
      r.2.Hold ⟨ndim, dims, bs, !bs.isEmpty⟩ := by
  obtain ⟨bs, hok⟩ := hyperSelections_isOk h hfit
  obtain ⟨r, hr, rfl⟩ := hyperSelections_ok_iff.mp hok
  obtain ⟨-, hfill⟩ := (hyperSlots_ok_iff h).mp hr
  obtain ⟨hne, hshape⟩ := h.groups
  have hord : ∀ g ∈ blockGroups (mergedBlocks ndim blocks), ∀ s ∈ g, s.Ordered :=
    fun g hg s hs => (hshape g hg s hs).2
  obtain ⟨hnodup, hmem, -⟩ := @fillGroups_slots ndim _ hne hord (Slots.alloc _) 0 (Nat.zero_le _)
    List.nodup_nil hapart r hfill
  obtain ⟨-, hto, hlen⟩ := fillGroups_count hne hord (Nat.zero_le _) hfill
  have hcap : r.1.vecs.length = totalNeed (blockGroups (mergedBlocks ndim blocks)) := by
    rw [hlen]
    exact List.length_range
  have hbound : ∀ v ∈ r.1.vecs.take r.2, v < r.1.vecs.length := by
    intro v hv
    rw [hcap]
    exact List.mem_range.mp (hmem v (List.mem_of_mem_take hv))
  have hcount : (r.1.blocks r.2).length = r.2 := by
    rw [Slots.blocks, List.length_map, List.length_take, Nat.min_eq_left hto]
  have hsome : r.1.blocks r.2 ≠ [] := hyperSelections_ne_nil h hok
  -- The destructor frees what the first slot points to, so that has to be the start of the allocation.
  have hhead : (r.1.vecs.take r.2).head? = some 0 := by
    refine fillGroups_alloc_head h.rank_pos hne hshape ?_ ?_ hapart hfill
    · rw [blockGroups, List.flatten_splitBy]
      exact h.mergedBlocks_kept.sorted
    · intro hnil
      rw [hnil] at hfill
      obtain rfl := Except.ok.inj hfill
      exact hsome rfl
  refine ⟨_, (r.2, .own ⟨r.1.vecs.length, r.1.vecs.take r.2, (r.1.vecs.take r.2).map (r.1.vecs.length + ·),
    r.1.blocks r.2⟩), hok, ?_, hcount.symm, ⟨hhead, ?_, ?_, ?_, ?_⟩, rfl, ?_⟩
  · rw [hyperArrays, hr]
    rfl
  · simp [Slots.blocks]
  · exact slots_inside hbound hbound
  · exact slots_apart hnodup hbound hnodup
  · show (r.1.blocks r.2).length * ndim < 2 ^ 31
    rw [hcount]
    refine lt_of_le_of_lt (Nat.mul_le_mul_right ndim hto) ?_
    rw [hcap]
    exact hfit.allocated
  · simp [hsome]

end Constructors

/-- **Every constructor from a dataspace** leaves the arrays in order, on the selections it is good for. -/
theorem Dspace.arrays_hold {s : Dspace} {order : List ℕ} (hvalid : s.Valid) (hrank : s.dims.length ≤ 32)
    (horder : ∀ ps, s.sel = .points ps → order.Perm (List.range ps.length) ∧
      order.Pairwise fun i j => ps.getD i [] ≤ ps.getD j [])
    (hgood : s.Constructs) :
    ∃ r, s.arrays order = .ok r ∧ r.1 = s.value.blocks.length ∧ r.2.Hold s.value := by
  have hone (b : Box) : ∃ a, allocArrays s.dims.length 1 [b] = .ok a ∧
      a.Hold ⟨s.dims.length, some s.dims, [b], true⟩ :=
    @allocArrays_hold s.dims.length [b] (by simp; omega) (some s.dims)
  have hvalue {bs : List Box} (h : s.selections = .ok bs) :
      s.value = ⟨s.dims.length, some s.dims, bs, !bs.isEmpty⟩ := by
    rw [Dspace.value, h]
  obtain ⟨dims, sel⟩ := s
  cases sel with
  | none =>
      rw [hvalue rfl]
      exact ⟨_, rfl, rfl, rfl, rfl⟩
  | all =>
      -- An extent of 0 leaves nothing to select.
      by_cases hzero : 0 ∈ dims
      · rw [hvalue (if_pos hzero)]
        exact ⟨_, if_pos hzero, rfl, rfl, rfl⟩
      · obtain ⟨a, ha, hhold⟩ := hone (dims.map (0, ·))
        rw [hvalue (if_neg hzero)]
        refine ⟨(1, a), ?_, rfl, hhold⟩
        show (if 0 ∈ dims then _ else (allocArrays dims.length 1 [dims.map (0, ·)]).map (1, ·)) = _
        rw [if_neg hzero, ha]
        rfl
  | hyperslab blocks =>
      obtain ⟨hsome, -, hhdf⟩ : blocks ≠ [] ∧ (∀ b ∈ blocks, b.box.InArray dims) ∧
        (2 ≤ blocks.length → HdfBlocks dims.length blocks) := hvalid
      -- A single block takes the short way, whatever the selection looks like.
      rcases blocks with _ | ⟨b, _ | ⟨c, blocks⟩⟩
      · exact absurd rfl hsome
      · obtain ⟨a, ha, hhold⟩ := hone b.box
        rw [hvalue rfl]
        refine ⟨(1, a), ?_, rfl, hhold⟩
        show (allocArrays dims.length 1 [b.box]).map (1, ·) = _
        rw [ha]
        rfl
      · have hseveral : 2 ≤ (b :: c :: blocks).length := Nat.le_add_left 2 _
        obtain ⟨hfit, hapart⟩ := hgood hseveral
        obtain ⟨bs, r, hbs, hr, hcount, hhold⟩ := hyperArrays_hold (hhdf hseveral) hfit hapart (some dims)
        rw [hvalue hbs]
        exact ⟨r, hr, hcount, hhold⟩
  | points ps =>
      obtain ⟨hfit, hfirst⟩ := hgood
      obtain ⟨hperm, hsorted⟩ := horder ps rfl
      obtain ⟨bs, r, hbs, hr, hcount, hhold⟩ := pointArrays_hold (fun p hp => (hvalid p hp).length_eq) hperm
        hsorted hfit hfirst (some dims)
      rw [hvalue hbs]
      exact ⟨r, hr, hcount, hhold⟩

end LogVol
