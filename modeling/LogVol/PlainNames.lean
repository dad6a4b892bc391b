/-
# LogVol.PlainNames — the names a user works with.

Calls that take a path escape it, except the creation of links and the copying of links, which hand their
paths on as they are; and a path is escaped at its first character only. `PathCall.stored` is what a call
becomes, `PathCall.meant` what it says, and the user's view is a namespace in which the call is done as it says.
`plainNamespace_of_escaped` says that in runs of calls whose paths have every component escaped the user
sees that namespace, whatever the connector stores next to it under names of its own.
-/
import LogVol.Names
import LogVol.Lib.Namespace

namespace LogVol

open Lib (Path Link Op Answer Space Embeds Unlinked)

/-! ## §1 — calls. -/

/-- A name of the user or of a stored link. -/
abbrev Name := List Char

/-- A path as HDF5 reads it. -/
def pathOf (s : Name) : Path Name := ⟨charAt s 0 == '/', components s⟩

/-- The calls of the API, with the names as given. Where a call takes two locations, one can be left out
(`H5L_SAME_LOC`). Iterations over an opened group have `.` for a name. -/
inductive PathCall
  | create (group : Bool) (g : ℕ) (name : Name)
  | openAt (g : ℕ) (name : Name)
  | linkHard (src : Option ℕ) (name : Name) (dst : Option ℕ) (newName : Name)
  | linkSoft (target : Name) (g : ℕ) (name : Name)
  | linkCopy (src : Option ℕ) (name : Name) (dst : Option ℕ) (newName : Name)
  | linkMove (src : Option ℕ) (name : Name) (dst : Option ℕ) (newName : Name)
  | linkExists (g : ℕ) (name : Name)
  | linkDelete (g : ℕ) (name : Name)
  | linkIterate (g : ℕ) (name : Name)

/-- The two locations, of which one can be that of the other. -/
def sameLoc (src dst : Option ℕ) : Option (ℕ × ℕ) :=
  match src, dst with
  | some a, some b => some (a, b)
  | some a, none => some (a, a)
  | none, some b => some (b, b)
  | none, none => none

/-- What a call says, if its locations do. -/
def PathCall.meant : PathCall → Option (Op Name)
  | .create group g name => some (.create group g (pathOf name))
  | .openAt g name => some (.openAt g (pathOf name))
  | .linkHard src name dst newName =>
      (sameLoc src dst).map fun l => .hard l.1 (pathOf name) l.2 (pathOf newName)
  | .linkSoft target g name => some (.soft (pathOf target) g (pathOf name))
  | .linkCopy src name dst newName =>
      (sameLoc src dst).map fun l => .copy l.1 (pathOf name) l.2 (pathOf newName)
  | .linkMove src name dst newName =>
      (sameLoc src dst).map fun l => .move l.1 (pathOf name) l.2 (pathOf newName)
  | .linkExists g name => some (.existsAt g (pathOf name))
  | .linkDelete g name => some (.delete g (pathOf name))
  | .linkIterate g name => some (.iterate g (pathOf name))

/-- **What reaches the native connector.** `H5VL_log_link_create` and `H5VL_log_link_copy` pass the names on
as they are; `H5VL_log_link_move` reads the file of both locations, also of one that is not given; all others
take the name from `H5VL_logi_name_remap`. -/
def PathCall.stored : PathCall → Except Fault (Option (Op Name))
  | .create group g name => do
      let iname ← nameRemap name
      pure (some (.create group g (pathOf iname)))
  | .openAt g name => do
      let iname ← nameRemap name
      pure (some (.openAt g (pathOf iname)))
  | .linkHard src name dst newName => pure (PathCall.linkHard src name dst newName).meant
  | .linkSoft target g name => pure (PathCall.linkSoft target g name).meant
  | .linkCopy src name dst newName => pure (PathCall.linkCopy src name dst newName).meant
  | .linkMove src name dst newName =>
      match src, dst with
      | some a, some b => do
          let iname1 ← nameRemap name
          let iname2 ← nameRemap newName
          pure (some (.move a (pathOf iname1) b (pathOf iname2)))
      | _, _ => .error .outside
  | .linkExists g name => do
      let iname ← nameRemap name
      pure (some (.existsAt g (pathOf iname)))
  | .linkDelete g name => do
      let iname ← nameRemap name
      pure (some (.delete g (pathOf iname)))
  | .linkIterate g name => do
      let iname ← nameRemap name
      pure (some (.iterate g (pathOf iname)))

/-! ## §2 — runs. -/

/-- What happens to a file: a call of the user, or the connector makes an object of its own, under a name
with a single underscore. -/
inductive NameStep
  | user (c : PathCall)
  | log (group : Bool) (g : ℕ) (name : Name)

/-- An operation that may not have been said. -/
def runOp (n : ℕ) (s : Space Name) : Option (Op Name) → Answer Name × Space Name
  | none => (.fail, s)
  | some op => s.run n op

/-- **A call through the connector.** An error it raises itself fails the call, and the names of an
iteration go through `H5VL_log_linki_iterate_op`. -/
def logCall (n : ℕ) (s : Space Name) (c : PathCall) : Except Fault (Answer Name × Space Name) :=
  match c.stored with
  | .error (.raised _) => .ok (.fail, s)
  | .error e => .error e
  | .ok op => .ok ((runOp n s op).1.view linkiIterateOp, (runOp n s op).2)

/-- **A run on the stored names.** -/
def logRun (n : ℕ) : Space Name → List NameStep → Except Fault (List (Answer Name) × Space Name)
  | s, [] => .ok ([], s)
  | s, .user c :: sts => do
      let r ← logCall n s c
      let rest ← logRun n r.2 sts
      pure (r.1 :: rest.1, rest.2)
  | s, .log group g name :: sts => logRun n ((s.alloc group).insert g name (.hard s.isGroup.length)) sts

/-- **A run as the user means it**: the objects of the connector exist, and have no names. -/
def userRun (n : ℕ) : Space Name → List NameStep → List (Answer Name) × Space Name
  | t, [] => ([], t)
  | t, .user c :: sts =>
      let r := runOp n t c.meant
      let rest := userRun n r.2 sts
      (r.1 :: rest.1, rest.2)
  | t, .log group _ _ :: sts => userRun n (t.alloc group) sts

/-- A file that was just created has the group of the log. -/
def fileCreated : Space Name where
  isGroup := [true, true]
  links := fun g => if g = 0 then [(['_', 'L', 'O', 'G'], .hard 1)] else []

/-- The same file as the user sees it. -/
def fileSeen : Space Name where
  isGroup := [true, true]
  links := fun _ => []

/-- The names the connector gave its objects in a group. -/
def ownNames (g : ℕ) : List NameStep → List Name
  | [] => []
  | .user _ :: sts => ownNames g sts
  | .log _ h name :: sts => if h = g then name :: ownNames g sts else ownNames g sts

/-- The objects the connector made. -/
def ownObjects (n : ℕ) : Space Name → List NameStep → List ℕ
  | _, [] => []
  | t, .user c :: sts => ownObjects n (runOp n t c.meant).2 sts
  | t, .log group _ _ :: sts => t.isGroup.length :: ownObjects n (t.alloc group) sts

/-- The objects a call starts from were opened before. -/
def HandlesOpened (n : ℕ) : List ℕ → Space Name → List NameStep → Prop
  | _, _, [] => True
  | known, t, .user c :: sts =>
      (∀ op ∈ c.meant, ∀ g ∈ op.handles, g ∈ known) ∧
        HandlesOpened n
          (match (runOp n t c.meant).1 with | .opened o => o :: known | _ => known)
          (runOp n t c.meant).2 sts
  | known, t, .log group _ _ :: sts => HandlesOpened n known (t.alloc group) sts

/-- **`PlainNamespace`** — the user gets the answers of the namespace the calls describe; no call touches a
link to an object of the connector, or opens one, from objects that were opened before. -/
structure PlainNamespace (n : ℕ) (steps : List NameStep) : Prop where
  answers : (logRun n fileCreated steps).map Prod.fst = .ok (userRun n fileSeen steps).1
  untouched : ∀ r, logRun n fileCreated steps = .ok r → ∀ g, (r.2.unseen linkiIterateOp g).map Prod.fst =
    (fileCreated.unseen linkiIterateOp g).map Prod.fst ++ ownNames g steps
  unreached : HandlesOpened n [0] fileSeen steps →
    ∀ o, .opened o ∈ (userRun n fileSeen steps).1 → o ≠ 1 ∧ o ∉ ownObjects n fileSeen steps

/-! ## §3 — escaped paths. -/

/-- No component begins with an underscore. -/
def PlainPath (s : Name) : Prop := ∀ c ∈ components s, charAt c 0 ≠ '_'

instance (s : Name) : Decidable (PlainPath s) := inferInstanceAs (Decidable (∀ c ∈ components s, _))

/-- Only the first component may begin with an underscore, and only if the path begins with it. -/
structure EscapedPath (s : Name) : Prop where
  nonempty : s ≠ []
  rest : ∀ c ∈ (components s).tail, charAt c 0 ≠ '_'
  first : charAt s 0 ≠ '_' → PlainPath s

/-- The paths of a call are escaped as their components would be: those that are not escaped at all have
nothing to escape. A link is moved between locations that are both given. -/
def PathCall.Escaped : PathCall → Prop
  | .create _ _ name | .openAt _ name | .linkExists _ name | .linkDelete _ name | .linkIterate _ name =>
      EscapedPath name
  | .linkHard _ name _ newName | .linkCopy _ name _ newName => PlainPath name ∧ PlainPath newName
  | .linkSoft target _ name => PlainPath target ∧ PlainPath name
  | .linkMove src name dst newName =>
      (src.isSome ∧ dst.isSome) ∧ EscapedPath name ∧ EscapedPath newName

/-- The connector's own objects have names with a single underscore. -/
def NameStep.Escaped : NameStep → Prop
  | .user c => c.Escaped
  | .log _ _ name => Internal name

theorem escape_of_ne {c : Name} (h : charAt c 0 ≠ '_') : escape c = c := by
  rcases c with _ | ⟨x, c⟩
  · rfl
  · rw [escape, if_neg]
    exact h

theorem map_escape_of_ne {cs : List Name} (h : ∀ c ∈ cs, charAt c 0 ≠ '_') : cs.map escape = cs := by
  conv_rhs => rw [← List.map_id cs]
  exact List.map_congr_left fun c hc => escape_of_ne (h c hc)

/-- An iteration turns names back. -/
theorem linkiIterateOp_escape (c : Name) : linkiIterateOp (escape c) = some c := by
  rcases c with _ | ⟨x, c⟩
  · decide
  · by_cases hx : x = '_'
    · subst hx
      rfl
    · have hfirst : charAt (x :: c) 0 ≠ '_' := hx
      rw [escape_of_ne hfirst, linkiIterateOp, if_neg hfirst]

theorem linkiIterateOp_internal {c : Name} (h : Internal c) : linkiIterateOp c = none := by
  rw [linkiIterateOp, if_pos h.1, if_neg h.2]

theorem PlainPath.pathOf {s : Name} (h : PlainPath s) : (pathOf s).map escape = pathOf s := by
  rw [Lib.Path.map, LogVol.pathOf, map_escape_of_ne h]

/-- **A path that is escaped as a whole** is escaped component by component. -/
theorem EscapedPath.pathOf {s : Name} (h : EscapedPath s) :
    LogVol.pathOf (escape s) = (LogVol.pathOf s).map escape := by
  by_cases hunder : charAt s 0 = '_'
  · obtain ⟨s, rfl⟩ : ∃ s', s = '_' :: s' := by
      rcases s with _ | ⟨x, s⟩
      · exact absurd rfl h.nonempty
      · obtain rfl : x = '_' := hunder
        exact ⟨s, rfl⟩
    obtain ⟨w, rest, hcomps, hescaped, -⟩ := components_underscore s
    have hrest := h.rest
    rw [hcomps, List.tail_cons] at hrest
    have hesc : escape ('_' :: s) = '_' :: '_' :: s := rfl
    rw [hesc, LogVol.pathOf, LogVol.pathOf, Lib.Path.map, hescaped, hcomps, List.map_cons,
      map_escape_of_ne hrest]
    rfl
  · rw [escape_of_ne hunder, (h.first hunder).pathOf]

theorem EscapedPath.nameRemap {s : Name} (h : EscapedPath s) : nameRemap s = .ok (escape s) := by
  rw [LogVol.nameRemap, if_neg h.nonempty]

/-- **What is stored is what is meant, with the names escaped.** -/
theorem PathCall.stored_of_escaped {c : PathCall} (h : c.Escaped) :
    c.stored = .ok (c.meant.map (Op.map escape)) := by
  cases c with
  | create group g name =>
      rw [PathCall.stored, h.nameRemap, Lib.ok_bind, h.pathOf]
      rfl
  | openAt g name =>
      rw [PathCall.stored, h.nameRemap, Lib.ok_bind, h.pathOf]
      rfl
  -- Creating and copying links do not remap, so these names are already what is stored.
  | linkHard src name dst newName =>
      rw [PathCall.stored, PathCall.meant, Option.map_map]
      show Except.ok _ = Except.ok _
      congr 2
      funext l
      simp only [Function.comp_apply, Op.map, h.1.pathOf, h.2.pathOf]
  | linkSoft target g name =>
      rw [PathCall.stored, PathCall.meant]
      show Except.ok (some _) = Except.ok (some _)
      rw [Op.map, h.1.pathOf, h.2.pathOf]
  | linkCopy src name dst newName =>
      rw [PathCall.stored, PathCall.meant, Option.map_map]
      show Except.ok _ = Except.ok _
      congr 2
      funext l
      simp only [Function.comp_apply, Op.map, h.1.pathOf, h.2.pathOf]
  | linkMove src name dst newName =>
      obtain ⟨⟨hsrc, hdst⟩, hname, hnew⟩ := h
      obtain ⟨a, rfl⟩ := Option.isSome_iff_exists.mp hsrc
      obtain ⟨b, rfl⟩ := Option.isSome_iff_exists.mp hdst
      rw [PathCall.stored, hname.nameRemap, Lib.ok_bind, hnew.nameRemap, Lib.ok_bind, hname.pathOf, hnew.pathOf]
      rfl
  | linkExists g name =>
      rw [PathCall.stored, h.nameRemap, Lib.ok_bind, h.pathOf]
      rfl
  | linkDelete g name =>
      rw [PathCall.stored, h.nameRemap, Lib.ok_bind, h.pathOf]
      rfl
  | linkIterate g name =>
      rw [PathCall.stored, h.nameRemap, Lib.ok_bind, h.pathOf]
      rfl

/-! ## §4 — steps and runs. -/

/-- The stored namespace goes with the one the user sees. -/
abbrev Shows (t s : Space Name) : Prop := Embeds escape linkiIterateOp t s

/-- **One call.** -/
theorem Shows.call {n : ℕ} {t s : Space Name} (h : Shows t s) {c : PathCall} (hc : c.Escaped) :
    ∃ r, logCall n s c = .ok r ∧ r.1 = (runOp n t c.meant).1 ∧ Shows (runOp n t c.meant).2 r.2 ∧
      ∀ g, r.2.unseen linkiIterateOp g = s.unseen linkiIterateOp g := by
  rw [logCall, PathCall.stored_of_escaped hc]
  rcases c.meant with _ | op
  · exact ⟨_, rfl, rfl, h, fun _ => rfl⟩
  · have halike := h.run linkiIterateOp_escape n op
    exact ⟨_, rfl, halike.answer, halike.embeds, halike.unseen⟩

/-- **A run.** -/
theorem Shows.run {n : ℕ} {steps : List NameStep} (hsteps : ∀ st ∈ steps, st.Escaped) {t s : Space Name}
    (h : Shows t s) : ∃ s', logRun n s steps = .ok ((userRun n t steps).1, s') ∧
      ∀ g, (s'.unseen linkiIterateOp g).map Prod.fst =
        (s.unseen linkiIterateOp g).map Prod.fst ++ ownNames g steps := by
  induction steps generalizing t s with
  | nil => exact ⟨s, rfl, fun g => (List.append_nil _).symm⟩
  | cons st steps ih =>
      have hrest := fun x hx => hsteps x (List.mem_cons_of_mem st hx)
      cases st with
      | user c =>
          obtain ⟨r, hcall, hanswer, hshows, hunseen⟩ :=
            h.call (n := n) (hsteps _ (List.mem_cons_self ..))
          obtain ⟨s', hrun, hnames⟩ := ih hrest hshows
          refine ⟨s', ?_, fun g => ?_⟩
          · rw [logRun, hcall, Lib.ok_bind, hrun, Lib.ok_bind, hanswer]
            rfl
          · rw [hnames, hunseen]
            rfl
      | log group k name =>
          have hname := linkiIterateOp_internal (hsteps _ (List.mem_cons_self ..))
          obtain ⟨s', hrun, hnames⟩ :=
            ih hrest (h.insert_unseen group k hname (.hard s.isGroup.length))
          refine ⟨s', hrun, fun g => ?_⟩
          rw [hnames, ownNames]
          by_cases hk : k = g
          · subst hk
            rw [if_pos rfl]
            simp [Space.unseen, Space.insert, Space.alloc, hname]
          · rw [if_neg hk]
            have hg : g ≠ k := fun heq => hk heq.symm
            simp [Space.unseen, Space.insert, Space.alloc, Function.update_of_ne hg]

theorem isGroup_length_run (n : ℕ) (t : Space Name) (op : Option (Op Name)) :
    t.isGroup.length ≤ (runOp n t op).2.isGroup.length := by
  have hsame : ∀ a : Answer Name, t.isGroup.length ≤ (a, t).2.isGroup.length := fun _ => le_rfl
  rcases op with _ | op
  · exact le_rfl
  cases op <;> simp only [runOp, Space.run] <;> repeat' split
  all_goals simp [Space.insert, Space.alloc, Space.erase]

/-- Objects made later have higher numbers. -/
theorem le_of_mem_ownObjects {n : ℕ} {steps : List NameStep} {t : Space Name} {o : ℕ}
    (h : o ∈ ownObjects n t steps) : t.isGroup.length ≤ o := by
  induction steps generalizing t with
  | nil => cases h
  | cons st steps ih =>
      cases st with
      | user c => exact (isGroup_length_run n t c.meant).trans (ih h)
      | log group g name =>
          rcases List.mem_cons.mp h with rfl | h
          · exact le_rfl
          · have hle := ih h
            simp only [Space.alloc, List.length_append, List.length_singleton] at hle
            omega

/-- **No object of the connector is opened.** -/
theorem unlinked_steps {n : ℕ} {steps : List NameStep} {t : Space Name} {own known : List ℕ}
    (h : Unlinked t own) (hknown : ∀ g ∈ known, t.IsFree own g) (hhandles : HandlesOpened n known t steps) :
    ∀ o, .opened o ∈ (userRun n t steps).1 → o ∉ own ∧ o ∉ ownObjects n t steps := by
  induction steps generalizing t own known with
  | nil => exact fun o ho => absurd ho List.not_mem_nil
  | cons st steps ih =>
      cases st with
      | user c =>
          obtain ⟨hops, hhandles⟩ := hhandles
          have hrun : Unlinked (runOp n t c.meant).2 own ∧
              ∀ o, (runOp n t c.meant).1 = .opened o → (runOp n t c.meant).2.IsFree own o := by
            rcases hmeant : c.meant with _ | op
            · exact ⟨h, fun o ho => by cases ho⟩
            · rw [hmeant] at hops
              exact h.run n fun g hg => hknown g (hops op rfl g hg)
          have hkept : ∀ g ∈ known, (runOp n t c.meant).2.IsFree own g := fun g hg =>
            ⟨lt_of_lt_of_le (hknown g hg).1 (isGroup_length_run n t c.meant), (hknown g hg).2⟩
          have hrest := ih hrun.1 (fun g hg => ?_) hhandles
          · intro o ho
            rcases List.mem_cons.mp ho with ho | ho
            · have hfree := hrun.2 o ho.symm
              refine ⟨hfree.2, fun hmem => ?_⟩
              have hmem' : o ∈ ownObjects n (runOp n t c.meant).2 steps := hmem
              exact absurd (le_of_mem_ownObjects hmem') (Nat.not_le.mpr hfree.1)
            · exact hrest o ho
          · split at hg
            · rename_i o ho
              rcases List.mem_cons.mp hg with rfl | hg
              · exact hrun.2 _ ho
              · exact hkept g hg
            · exact hkept g hg
      | log group k name =>
          have hknown' : ∀ g ∈ known, (t.alloc group).IsFree (t.isGroup.length :: own) g := by
            intro g hg
            refine ⟨((hknown g hg).alloc group).1, ?_⟩
            rw [List.mem_cons, not_or]
            exact ⟨Nat.ne_of_lt (hknown g hg).1, (hknown g hg).2⟩
          have hrest := ih (h.alloc_own group) hknown' hhandles
          intro o ho
          obtain ⟨hown, hlater⟩ := hrest o ho
          rw [List.mem_cons, not_or] at hown
          refine ⟨hown.2, fun hmem => ?_⟩
          rcases List.mem_cons.mp hmem with rfl | hmem
          · exact hown.1 rfl
          · exact hlater hmem

/-- The file just created. -/
theorem shows_fileCreated : Shows fileSeen fileCreated := by
  refine ⟨rfl, fun g => ?_⟩
  by_cases hg : g = 0
  · subst hg
    rfl
  · simp [fileCreated, fileSeen, hg]

theorem unlinked_fileSeen : Unlinked fileSeen [1] := by
  refine ⟨⟨by decide, by decide⟩, by decide, fun g x hx => ?_⟩
  exact absurd hx List.not_mem_nil

/-- **The user sees a plain namespace** in every run of calls whose paths are escaped as their components
would be. -/
theorem plainNamespace_of_escaped {n : ℕ} {steps : List NameStep} (h : ∀ st ∈ steps, st.Escaped) :
    PlainNamespace n steps := by
  obtain ⟨s', hrun, hnames⟩ := shows_fileCreated.run (n := n) h
  refine ⟨?_, fun r hr => ?_, fun hhandles o ho => ?_⟩
  · rw [hrun]
    rfl
  · rw [hrun] at hr
    obtain rfl := Except.ok.inj hr
    exact hnames
  · have hroot : ∀ g ∈ [0], fileSeen.IsFree [1] g := by
      intro g hg
      obtain rfl := List.mem_singleton.mp hg
      exact unlinked_fileSeen.root
    obtain ⟨hone, hlater⟩ := unlinked_steps unlinked_fileSeen hroot hhandles o ho
    exact ⟨fun heq => hone (by rw [heq]; exact List.mem_singleton_self 1), hlater⟩

/-- A group with an underscore, a flush in between, and a dataset in the group. -/
theorem plainNamespace_underscore : PlainNamespace 16
    [.user (.create true 0 "_g".toList), .log false 1 "_md_0".toList,
      .user (.create false 0 "_g/x".toList), .user (.openAt 0 "_g".toList),
      .user (.linkExists 2 "x".toList), .user (.linkIterate 0 ".".toList)] := by
  apply plainNamespace_of_escaped
  intro st hst
  simp only [List.mem_cons, List.not_mem_nil, or_false] at hst
  rcases hst with rfl | rfl | rfl | rfl | rfl | rfl
  · exact ⟨by decide, by decide, fun h => absurd rfl h⟩
  · exact ⟨rfl, by decide⟩
  · exact ⟨by decide, by decide, fun h => absurd rfl h⟩
  · exact ⟨by decide, by decide, fun h => absurd rfl h⟩
  · exact ⟨by decide, by decide, fun _ => by decide⟩
  · exact ⟨by decide, by decide, fun _ => by decide⟩

/-- A soft link `_y` to a dataset `x`: the link is stored under `_y`, and looked for under `__y`. -/
theorem not_plainNamespace_softLink : ¬ PlainNamespace 16
    [.user (.create false 0 "x".toList), .user (.linkSoft "x".toList 0 "_y".toList),
      .user (.linkExists 0 "_y".toList)] := by
  intro h
  have hanswers := h.answers
  revert hanswers
  decide

end LogVol
