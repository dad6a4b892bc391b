/-
# LogVol.Names — stored names, and which of them the visits take for user objects.

A name that begins with an underscore is stored with one more, so that names with a single one are left to
the connector's own objects. The first character looked at is that of the whole path, not of each
component. Four places undo this for the names they come across: the visit that opens the datasets of a
file, the callback of link iterations, and the visits of two utilities, which go through the native
connector. `consumersAgree_iff` says for which names all four are right.
-/
import LogVol.Base
import LogVol.Lib.Reader

namespace LogVol

/-! ## §1 — paths. -/

/-- `name[i]` of a string that ends with a null character. -/
def charAt (s : List Char) (i : ℕ) : Char := s.getD i (Char.ofNat 0)

/-- A component of a path: a name that HDF5 looks up in a group. -/
def IsComponent (c : List Char) : Prop := c ≠ [] ∧ c ≠ ['.'] ∧ '/' ∉ c

/-- The components of a path: HDF5 skips repeated slashes, and `.` stands for the group itself. -/
def components (s : List Char) : List (List Char) :=
  (s.splitOn '/').filter fun c => c ≠ [] ∧ c ≠ ['.']

/-- The path as visits spell it: relative, with single slashes. -/
def joinPath (p : List (List Char)) : List Char := ['/'].intercalate p

theorem slash_not_mem_splitOn {s c : List Char} (h : c ∈ s.splitOn '/') : '/' ∉ c := by
  induction s generalizing c with
  | nil =>
      rw [List.splitOn_nil, List.mem_singleton] at h
      rw [h]
      exact List.not_mem_nil
  | cons x s ih =>
      rw [List.splitOn_cons_eq_if_modifyHead] at h
      split at h
      · rcases List.mem_cons.mp h with rfl | h
        · exact List.not_mem_nil
        · exact ih h
      · rename_i hx
        rcases hs : s.splitOn '/' with _ | ⟨w, ws⟩
        · exact absurd hs (List.splitOn_ne_nil _ _)
        rw [hs] at h ih
        rcases List.mem_cons.mp h with rfl | h
        · have hw := ih (List.mem_cons_self ..)
          rw [List.mem_cons, not_or]
          exact ⟨fun heq => hx (by rw [heq, beq_self_eq_true]), hw⟩
        · exact ih (List.mem_cons_of_mem w h)

theorem isComponent_of_mem {s c : List Char} (h : c ∈ components s) : IsComponent c := by
  obtain ⟨hmem, hne⟩ := List.mem_filter.mp h
  obtain ⟨hnil, hdot⟩ := of_decide_eq_true hne
  exact ⟨hnil, hdot, slash_not_mem_splitOn hmem⟩

/-- **A path is read back from its components.** -/
theorem components_joinPath {p : List (List Char)} (h : ∀ c ∈ p, IsComponent c) :
    components (joinPath p) = p := by
  rcases p with _ | ⟨c, p⟩
  · decide
  · rw [components, joinPath, List.splitOn_intercalate '/' (fun c hc => (h c hc).2.2) (List.cons_ne_nil _ _)]
    rw [List.filter_eq_self]
    intro d hd
    exact decide_eq_true ⟨(h d hd).1, (h d hd).2.1⟩

/-- A character put before the first component. -/
theorem joinPath_cons (x : Char) (c : List Char) (p : List (List Char)) :
    joinPath ((x :: c) :: p) = x :: joinPath (c :: p) := by
  rcases p with _ | ⟨d, p⟩
  · simp [joinPath]
  · simp [joinPath, List.intercalate_cons_cons]

/-! ## §2 — stored names. -/

/-- `H5VL_logi_name_remap` of a name that is not empty. -/
def escape : List Char → List Char
  | [] => []
  | c :: s => if c = '_' then '_' :: c :: s else c :: s

/-- **`H5VL_logi_name_remap`**. -/
def nameRemap (name : List Char) : Except Fault (List Char) :=
  if name = [] then .error (.raised "Object name cannot be empty") else .ok (escape name)

/-- A name that begins with one underscore only. -/
def Internal (c : List Char) : Prop := charAt c 0 = '_' ∧ charAt c 1 ≠ '_'

instance (c : List Char) : Decidable (Internal c) := inferInstanceAs (Decidable (_ ∧ _))

/-- An escaped name is not an internal one. -/
theorem not_internal_escape (c : List Char) : ¬ Internal (escape c) := by
  rcases c with _ | ⟨x, c⟩
  · decide
  · rw [escape]
    split
    · rename_i hx
      exact fun h => h.2 hx
    · rename_i hx
      exact fun h => hx h.1

/-- The components of a path that begins with an underscore: the first is escaped, the others are not. -/
theorem components_underscore (s : List Char) : ∃ w rest,
    components ('_' :: s) = ('_' :: w) :: rest ∧ components ('_' :: '_' :: s) = ('_' :: '_' :: w) :: rest ∧
      IsComponent ('_' :: w) := by
  rcases hs : s.splitOn '/' with _ | ⟨w, ws⟩
  · exact absurd hs (List.splitOn_ne_nil _ _)
  have hone : ('_' :: s).splitOn '/' = ('_' :: w) :: ws := by
    rw [List.splitOn_cons_eq_if_modifyHead, hs]
    rfl
  have htwo : ('_' :: '_' :: s).splitOn '/' = ('_' :: '_' :: w) :: ws := by
    rw [List.splitOn_cons_eq_if_modifyHead, hone]
    rfl
  have hcomps : components ('_' :: s) = ('_' :: w) :: ws.filter fun c => c ≠ [] ∧ c ≠ ['.'] := by
    rw [components, hone, List.filter_cons_of_pos (by simp)]
  refine ⟨w, _, hcomps, ?_, isComponent_of_mem (s := '_' :: s) ?_⟩
  · rw [components, htwo, List.filter_cons_of_pos (by simp)]
  · rw [hcomps]
    exact List.mem_cons_self ..

/-! ## §3 — the consumers. -/

/-- `H5O_type_t`, as far as it is looked at. -/
inductive ObjType
  | dataset | group | other
  deriving DecidableEq

/-- Skip unnamed and hidden objects: the test of the visits. -/
def skipsVisited (name : List Char) : Bool :=
  (charAt name 0 == '_' && charAt name 1 != '_') || (charAt name 0 == '/' || charAt name 0 == '.')

/-- `if (name[0] == '_') name++`. -/
def unescape (name : List Char) : List Char := if charAt name 0 = '_' then name.tail else name

/-- `H5VL_log_filei_dset_visit`: where the dataset it opens is looked up. It opens through the connector,
which escapes the name once more. -/
def dsetVisit (type : ObjType) (name : List Char) : Option (List (List Char)) :=
  if skipsVisited name then none
  else if type = .dataset then some (components (escape (unescape name))) else none

/-- `h5ldump_visit_handler`: the dataset is looked up by the name visited. -/
def h5ldumpVisit (type : ObjType) (name : List Char) : Option (List (List Char)) :=
  if skipsVisited name then none
  else if type = .dataset then some (components name) else none

/-- `h5lreplay_copy_handler`: where the object is looked up, through the native connector, and the name of
the copy. Datasets, groups and all other objects are opened under the same name. -/
def h5lreplayCopy (name : List Char) : Option (List (List Char) × List Char) :=
  if skipsVisited name then none else some (components (unescape name), unescape name)

/-- `H5VL_log_linki_iterate_op`: the name handed on to the user. -/
def linkiIterateOp (name : List Char) : Option (List Char) :=
  if charAt name 0 = '_' then if charAt name 1 = '_' then some name.tail else none else some name

/-- An object created under a name of the user's choice. -/
structure UserObject where
  type : ObjType
  name : List Char

/-- The path it is stored under. -/
def UserObject.path (o : UserObject) : List (List Char) := components (escape o.name)

/-- The name a visit of the file finds it by. -/
def UserObject.visited (o : UserObject) : List Char := joinPath o.path

/-- What the consumers do is right for an object of the user: each handles it, opens it where it is stored,
and reports the name it was created under. An iteration over its group comes across its last component, a
visit of the links across the whole path. -/
structure HandledRight (o : UserObject) : Prop where
  visit : dsetVisit o.type o.visited = if o.type = .dataset then some o.path else none
  dump : h5ldumpVisit o.type o.visited = if o.type = .dataset then some o.path else none
  replay : (h5lreplayCopy o.visited).map (fun r => (r.1, components r.2)) =
    some (o.path, components o.name)
  iterate : o.path.getLast?.bind linkiIterateOp = (components o.name).getLast?
  iterateAll : (linkiIterateOp o.visited).map components = some (components o.name)

/-- None of them handles what is stored at `p`. -/
structure Ignored (p : List (List Char)) : Prop where
  visit : ∀ type, dsetVisit type (joinPath p) = none
  dump : ∀ type, h5ldumpVisit type (joinPath p) = none
  replay : h5lreplayCopy (joinPath p) = none
  iterate : p.head?.bind linkiIterateOp = none
  iterateAll : linkiIterateOp (joinPath p) = none

/-- **`ConsumersAgree`** — all four handle the objects of the user, rightly, and ignore the others. -/
structure ConsumersAgree (objs : List UserObject) (internals : List (List (List Char))) : Prop where
  user : ∀ o ∈ objs, HandledRight o
  internal : ∀ p ∈ internals, Ignored p

/-- A name with no underscore and no dot at its start, and no underscore at the start of its last
component. -/
structure PlainName (name : List Char) : Prop where
  first : ∀ c ∈ (components name).head?, charAt c 0 ≠ '_' ∧ charAt c 0 ≠ '.'
  last : ∀ c ∈ (components name).getLast?, charAt c 0 ≠ '_'

/-! ## §4 — names that are handled rightly. -/

theorem joinPath_head {x : Char} {c : List Char} {p : List (List Char)} :
    charAt (joinPath ((x :: c) :: p)) 0 = x := by
  rw [joinPath_cons]
  rfl

/-- What begins with an internal component looks hidden. -/
theorem charAt_of_internal {c : List Char} {p : List (List Char)} (h : Internal c) :
    charAt (joinPath (c :: p)) 0 = '_' ∧ charAt (joinPath (c :: p)) 1 ≠ '_' := by
  rcases c with _ | ⟨x, c⟩
  · exact absurd h.1 (by decide)
  refine ⟨joinPath_head.trans h.1, ?_⟩
  rw [joinPath_cons]
  rcases c with _ | ⟨y, c⟩
  · rcases p with _ | ⟨d, p⟩
    · exact h.2
    · simp [joinPath, List.intercalate_cons_cons, charAt]
  · rw [joinPath_cons]
    exact h.2

theorem skipsVisited_of_internal {name : List Char} (h : charAt name 0 = '_' ∧ charAt name 1 ≠ '_') :
    skipsVisited name = true := by
  simp [skipsVisited, h.1, h.2]

/-- **The connector's own objects** are handled by none of them. -/
theorem ignored_of_internal {c : List Char} {p : List (List Char)} (h : Internal c) : Ignored (c :: p) := by
  have hv := charAt_of_internal (p := p) h
  have hskip := skipsVisited_of_internal hv
  refine ⟨fun type => ?_, fun type => ?_, ?_, ?_, ?_⟩
  · rw [dsetVisit, if_pos hskip]
  · rw [h5ldumpVisit, if_pos hskip]
  · rw [h5lreplayCopy, if_pos hskip]
  · show linkiIterateOp c = none
    rw [linkiIterateOp, if_pos h.1, if_neg h.2]
  · rw [linkiIterateOp, if_pos hv.1, if_neg hv.2]

/-- A stored path whose first component begins with an underscore is not copied: the utility drops it, or
looks for it under a name without that underscore. -/
theorem replay_wrong {c : List Char} {p : List (List Char)} (hp : ∀ d ∈ ('_' :: c) :: p, IsComponent d) :
    ∀ r ∈ h5lreplayCopy (joinPath (('_' :: c) :: p)), r.1 ≠ ('_' :: c) :: p := by
  intro r hr
  by_cases hint : Internal ('_' :: c)
  · rw [(ignored_of_internal hint).replay] at hr
    cases hr
  rcases c with _ | ⟨y, c⟩
  · exact absurd ⟨rfl, by decide⟩ hint
  obtain rfl : y = '_' := by
    by_contra hy
    exact hint ⟨rfl, hy⟩
  have hstrip : unescape (joinPath (('_' :: '_' :: c) :: p)) = joinPath (('_' :: c) :: p) := by
    rw [joinPath_cons]
    rfl
  rw [h5lreplayCopy, hstrip] at hr
  split at hr
  · cases hr
  obtain rfl := Option.some.inj hr
  have hvalid : ∀ d ∈ ('_' :: c) :: p, IsComponent d := by
    intro d hd
    rcases List.mem_cons.mp hd with rfl | hd
    · have hslash := (hp _ (List.mem_cons_self ..)).2.2
      exact ⟨List.cons_ne_nil _ _, by simp, fun h => hslash (List.mem_cons_of_mem _ h)⟩
    · exact hp d (List.mem_cons_of_mem _ hd)
  simp only [components_joinPath hvalid]
  intro heq
  have hlen := congrArg List.length (List.cons.inj heq).1
  simp at hlen

/-- A name that does not begin with an underscore is stored as it is. -/
theorem path_eq_of_ne {o : UserObject} (h : charAt o.name 0 ≠ '_') : o.path = components o.name := by
  rw [UserObject.path]
  rcases hn : o.name with _ | ⟨x, s⟩
  · rfl
  · rw [hn] at h
    rw [escape, if_neg]
    exact h

/-- **An object is handled rightly exactly when its name is plain.** -/
theorem handledRight_iff {o : UserObject} (hne : components o.name ≠ []) :
    HandledRight o ↔ PlainName o.name := by
  have hvalid : ∀ d ∈ o.path, IsComponent d := fun d hd => isComponent_of_mem hd
  by_cases hunder : charAt o.name 0 = '_'
  · -- a leading underscore, one more of which is stored
    obtain ⟨s, hs⟩ : ∃ s, o.name = '_' :: s := by
      rcases hn : o.name with _ | ⟨x, s⟩
      · rw [hn] at hunder
        exact absurd hunder (by decide)
      · rw [hn] at hunder
        obtain rfl : x = '_' := hunder
        exact ⟨s, rfl⟩
    obtain ⟨w, rest, hcomps, hpath, -⟩ := components_underscore s
    have hpath' : o.path = ('_' :: '_' :: w) :: rest := by
      rw [UserObject.path, hs]
      exact hpath
    constructor
    · intro h
      have hreplay := h.replay
      rw [UserObject.visited, hpath'] at hreplay
      obtain ⟨r, hr, hpair⟩ := Option.map_eq_some_iff.mp hreplay
      exact absurd (congrArg Prod.fst hpair) (replay_wrong (hpath' ▸ hvalid) r hr)
    · intro h
      rw [hs] at h
      have hfirst := (h.first ('_' :: w) (by rw [hcomps]; rfl)).1
      exact absurd rfl hfirst
  · have hpath := path_eq_of_ne hunder
    obtain ⟨c, p, hcp⟩ := List.exists_cons_of_ne_nil hne
    obtain ⟨x, c, rfl⟩ : ∃ x c', c = x :: c' :=
      List.exists_cons_of_ne_nil (isComponent_of_mem (s := o.name) (by rw [hcp]; exact List.mem_cons_self ..)).1
    rw [hcp] at hpath
    rw [hpath] at hvalid
    have hslash : x ≠ '/' := fun hx =>
      (hvalid _ (List.mem_cons_self ..)).2.2 (by rw [hx]; exact List.mem_cons_self ..)
    have hhead : charAt o.visited 0 = x := by
      rw [UserObject.visited, hpath]
      exact joinPath_head
    constructor
    · intro h
      constructor
      · intro d hd
        obtain rfl : x :: c = d := by rw [hcp] at hd; exact Option.some.inj hd
        constructor
        · rintro rfl
          have hreplay := h.replay
          rw [UserObject.visited, hpath] at hreplay
          obtain ⟨r, hr, hpair⟩ := Option.map_eq_some_iff.mp hreplay
          exact absurd (congrArg Prod.fst hpair) (replay_wrong hvalid r hr)
        · rintro rfl
          have hskip : skipsVisited o.visited = true := by simp [skipsVisited, hhead]
          have hreplay := h.replay
          rw [h5lreplayCopy, if_pos hskip] at hreplay
          cases hreplay
      · intro d hd
        have hiter := h.iterate
        rw [hpath, ← hcp, hd] at hiter
        intro hd0
        change linkiIterateOp d = some d at hiter
        rw [linkiIterateOp, if_pos hd0] at hiter
        split at hiter
        · have hlen := congrArg List.length (Option.some.inj hiter)
          have hmem : d ∈ components o.name := List.mem_of_getLast? hd
          have hpos := List.length_pos_of_ne_nil (isComponent_of_mem hmem).1
          rw [List.length_tail] at hlen
          omega
        · cases hiter
    · intro h
      obtain ⟨hx, hdot⟩ := h.first (x :: c) (by rw [hcp]; rfl)
      change x ≠ '_' at hx
      change x ≠ '.' at hdot
      have hskip : skipsVisited o.visited = false := by simp [skipsVisited, hhead, hx, hdot, hslash]
      have hplain : unescape o.visited = o.visited := by rw [unescape, if_neg (by rw [hhead]; exact hx)]
      have hback : components o.visited = o.path := by
        rw [UserObject.visited, hpath]
        exact components_joinPath hvalid
      have hesc : escape o.visited = o.visited := by
        rw [UserObject.visited, hpath, joinPath_cons, escape, if_neg hx]
      refine ⟨?_, ?_, ?_, ?_, ?_⟩
      · rw [dsetVisit, if_neg (by rw [hskip]; decide), hplain, hesc, hback]
      · rw [h5ldumpVisit, if_neg (by rw [hskip]; decide), hback]
      · rw [h5lreplayCopy, if_neg (by rw [hskip]; decide), hplain, Option.map_some, hback, hpath, hcp]
      · rw [hpath, ← hcp]
        rcases hlast : (components o.name).getLast? with _ | d
        · rfl
        · show linkiIterateOp d = some d
          rw [linkiIterateOp, if_neg (h.last d hlast)]
      · rw [linkiIterateOp, if_neg (by rw [hhead]; exact hx), Option.map_some, hback, hpath, hcp]

/-- **Which stored names are user objects.** The four consumers agree on a set of names exactly when all of
them are plain. -/
theorem consumersAgree_iff {objs : List UserObject} {internals : List (List (List Char))}
    (hobjs : ∀ o ∈ objs, components o.name ≠ []) (hints : ∀ p ∈ internals, ∃ c ∈ p.head?, Internal c) :
    ConsumersAgree objs internals ↔ ∀ o ∈ objs, PlainName o.name := by
  have hignored : ∀ p ∈ internals, Ignored p := by
    intro p hp
    obtain ⟨c, hc, hint⟩ := hints p hp
    rcases p with _ | ⟨d, p⟩
    · cases hc
    · obtain rfl := Option.some.inj hc
      exact ignored_of_internal hint
  constructor
  · intro h o ho
    exact (handledRight_iff (hobjs o ho)).mp (h.user o ho)
  · intro h
    exact ⟨fun o ho => (handledRight_iff (hobjs o ho)).mpr (h o ho), hignored⟩

/-- A group with a dataset in it, next to the group of the log. -/
theorem consumersAgree_nested :
    ConsumersAgree [⟨.group, "g".toList⟩, ⟨.dataset, "/g/x_".toList⟩] [["_LOG".toList, "_md".toList]] := by
  refine (consumersAgree_iff (by decide) ?_).mpr fun o ho => ?_
  · intro p hp
    obtain rfl := List.mem_singleton.mp hp
    exact ⟨_, rfl, by decide⟩
  · rcases List.mem_pair.mp ho with rfl | rfl
    · exact ⟨by decide, by decide⟩
    · exact ⟨by decide, by decide⟩

/-- A dataset named `_x`: the copy looks for it under that name, and it is stored under `__x`. -/
theorem not_consumersAgree_underscore : ¬ ConsumersAgree [⟨.dataset, "_x".toList⟩] [["_LOG".toList]] := by
  intro h
  have hreplay := (h.user _ (List.mem_singleton_self _)).replay
  revert hreplay
  decide

end LogVol
