/-
# LogVol.Lib.Namespace — groups, links and paths.

A namespace has objects, numbered in the order they were made, `0` being the root group; a group has links
in the order they were made, each under a name of its own, to an object or, as a soft link, to a path.
Names are of any type. The operations are those of a file format with hard and soft links; resolving a path
passes at most a given number of soft links. `Embeds` relates a namespace to one in which every name is
replaced by another, and which may have links more under names that replace none; `Embeds.run` says that no
operation tells the two apart, or touches those links.
-/
import Mathlib.Data.List.Basic
import Mathlib.Logic.Function.Basic
import Mathlib.Tactic

namespace LogVol.Lib

/-! ## §1 — namespaces. -/

/-- A path, from the root or from the group it is used in. -/
structure Path (N : Type) where
  absolute : Bool
  names : List N
  deriving DecidableEq

/-- What a name stands for. -/
inductive Link (N : Type)
  | hard (o : ℕ)
  | soft (target : Path N)
  deriving DecidableEq

/-- Objects can be groups; only a group has links. -/
structure Space (N : Type) where
  isGroup : List Bool
  links : ℕ → List (N × Link N)

section Operations

variable {N : Type} [DecidableEq N]

/-- The link of a group under a name. -/
def Space.lookup (s : Space N) (g : ℕ) (c : N) : Option (Link N) := (s.links g).lookup c

/-- Follow hard links; `k` goes on behind a soft link. -/
def Space.walk (s : Space N) (k : ℕ → List N → Option ℕ) : ℕ → List N → Option ℕ
  | g, [] => some g
  | g, c :: cs =>
      match s.lookup g c with
      | none => none
      | some (.hard o) => s.walk k o cs
      | some (.soft p) => k (if p.absolute then 0 else g) (p.names ++ cs)

/-- The object a path leads to, with at most `n` soft links on the way. -/
def Space.resolve (s : Space N) : ℕ → ℕ → List N → Option ℕ
  | 0 => s.walk fun _ _ => none
  | n + 1 => s.walk (s.resolve n)

/-- Where a path used in group `g` starts. -/
def Path.start (p : Path N) (g : ℕ) : ℕ := if p.absolute then 0 else g

/-- The object at a path. -/
def Space.object (s : Space N) (n g : ℕ) (p : Path N) : Option ℕ := s.resolve n (p.start g) p.names

/-- The group and the name a path ends with. -/
def Space.place (s : Space N) (n g : ℕ) (p : Path N) : Option (ℕ × N) := do
  let c ← p.names.getLast?
  let h ← s.resolve n (p.start g) p.names.dropLast
  if s.isGroup.getD h false then some (h, c) else none

/-- The same, where there is no link of that name yet. -/
def Space.newPlace (s : Space N) (n g : ℕ) (p : Path N) : Option (ℕ × N) := do
  let hc ← s.place n g p
  if (s.lookup hc.1 hc.2).isNone then some hc else none

/-- The link at a path, which is not followed. -/
def Space.linkAt (s : Space N) (n g : ℕ) (p : Path N) : Option ((ℕ × N) × Link N) := do
  let hc ← s.place n g p
  let l ← s.lookup hc.1 hc.2
  some (hc, l)

/-- A link more. -/
def Space.insert (s : Space N) (g : ℕ) (c : N) (l : Link N) : Space N :=
  { s with links := Function.update s.links g (s.links g ++ [(c, l)]) }

/-- A link less. -/
def Space.erase (s : Space N) (g : ℕ) (c : N) : Space N :=
  { s with links := Function.update s.links g ((s.links g).filter fun e => e.1 ≠ c) }

/-- A new object, with no link to it. -/
def Space.alloc (s : Space N) (group : Bool) : Space N := { s with isGroup := s.isGroup ++ [group] }

/-- Operations, on objects opened before. -/
inductive Op (N : Type)
  | create (group : Bool) (g : ℕ) (p : Path N)
  | openAt (g : ℕ) (p : Path N)
  | hard (src : ℕ) (p : Path N) (dst : ℕ) (q : Path N)
  | soft (target : Path N) (g : ℕ) (q : Path N)
  | copy (src : ℕ) (p : Path N) (dst : ℕ) (q : Path N)
  | move (src : ℕ) (p : Path N) (dst : ℕ) (q : Path N)
  | existsAt (g : ℕ) (p : Path N)
  | delete (g : ℕ) (p : Path N)
  | iterate (g : ℕ) (p : Path N)

/-- What an operation returns. -/
inductive Answer (N : Type)
  | fail
  | done
  | opened (o : ℕ)
  | found (b : Bool)
  | names (l : List N)
  deriving DecidableEq

/-- **One operation.** What cannot be done changes nothing. -/
def Space.run (n : ℕ) (s : Space N) : Op N → Answer N × Space N
  | .create group g p =>
      match s.newPlace n g p with
      | none => (.fail, s)
      | some (h, c) => (.opened s.isGroup.length, (s.alloc group).insert h c (.hard s.isGroup.length))
  | .openAt g p =>
      match s.object n g p with
      | none => (.fail, s)
      | some o => (.opened o, s)
  | .hard src p dst q =>
      match s.object n src p, s.newPlace n dst q with
      | some o, some (h, c) => (.done, s.insert h c (.hard o))
      | _, _ => (.fail, s)
  | .soft target g q =>
      match s.newPlace n g q with
      | none => (.fail, s)
      | some (h, c) => (.done, s.insert h c (.soft target))
  | .copy src p dst q =>
      match s.linkAt n src p, s.newPlace n dst q with
      | some (_, l), some (h, c) => (.done, s.insert h c l)
      | _, _ => (.fail, s)
  | .move src p dst q =>
      match s.linkAt n src p, s.newPlace n dst q with
      | some ((h', c'), l), some (h, c) => (.done, (s.insert h c l).erase h' c')
      | _, _ => (.fail, s)
  | .existsAt g p =>
      match s.place n g p with
      | none => (if p.absolute && p.names.isEmpty then .found true else .fail, s)
      | some (h, c) => (.found (s.lookup h c).isSome, s)
  | .delete g p =>
      match s.linkAt n g p with
      | none => (.fail, s)
      | some ((h, c), _) => (.done, s.erase h c)
  | .iterate g p =>
      match s.object n g p with
      | none => (.fail, s)
      | some h => if s.isGroup.getD h false then (.names ((s.links h).map Prod.fst), s) else (.fail, s)

end Operations

/-! ## §2 — names replaced by others. -/

section Rename

variable {M N : Type}

def Path.map (e : M → N) (p : Path M) : Path N := ⟨p.absolute, p.names.map e⟩

def Link.map (e : M → N) : Link M → Link N
  | .hard o => .hard o
  | .soft p => .soft (p.map e)

def Op.map (e : M → N) : Op M → Op N
  | .create group g p => .create group g (p.map e)
  | .openAt g p => .openAt g (p.map e)
  | .hard src p dst q => .hard src (p.map e) dst (q.map e)
  | .soft target g q => .soft (target.map e) g (q.map e)
  | .copy src p dst q => .copy src (p.map e) dst (q.map e)
  | .move src p dst q => .move src (p.map e) dst (q.map e)
  | .existsAt g p => .existsAt g (p.map e)
  | .delete g p => .delete g (p.map e)
  | .iterate g p => .iterate g (p.map e)

/-- An answer seen through a filter of names, which also turns them back. -/
def Answer.view (view : N → Option M) : Answer N → Answer M
  | .fail => .fail
  | .done => .done
  | .opened o => .opened o
  | .found b => .found b
  | .names l => .names (l.filterMap view)

/-- **`Embeds`** — the same objects, and in every group the links of `t` under the names `e` replaces theirs
by. The names `view` does not see are not among them. -/
structure Embeds (e : M → N) (view : N → Option M) (t : Space M) (s : Space N) : Prop where
  isGroup : s.isGroup = t.isGroup
  links : ∀ g, ((s.links g).filter fun x => (view x.1).isSome) =
    (t.links g).map fun x => (e x.1, x.2.map e)

/-- The links of a group under names that are not seen. -/
def Space.unseen (view : N → Option M) (s : Space N) (g : ℕ) : List (N × Link N) :=
  (s.links g).filter fun x => (view x.1).isNone

variable [DecidableEq M] [DecidableEq N] {e : M → N} {view : N → Option M}

section Lookup

variable (hview : ∀ c, view (e c) = some c)
include hview

omit [DecidableEq M] [DecidableEq N] in
theorem renames_inj {c d : M} (h : e c = e d) : c = d := by
  have hsome := congrArg view h
  rw [hview, hview] at hsome
  exact Option.some.inj hsome

omit [DecidableEq M] in
/-- A name that is seen is found among the names that are seen. -/
theorem lookup_filter (l : List (N × Link N)) (c : M) :
    (l.filter fun x => (view x.1).isSome).lookup (e c) = l.lookup (e c) := by
  induction l with
  | nil => rfl
  | cons x l ih =>
      by_cases hx : (view x.1).isSome = true
      · rw [List.filter_cons, if_pos hx, List.lookup_cons, List.lookup_cons, ih]
      · rw [List.filter_cons, if_neg hx, ih, List.lookup_cons]
        have hne : (e c == x.1) = false := by
          rw [beq_eq_false_iff_ne]
          rintro heq
          rw [← heq, hview] at hx
          exact hx rfl
        rw [hne]

theorem lookup_map (l : List (M × Link M)) (c : M) :
    (l.map fun x => (e x.1, x.2.map e)).lookup (e c) = (l.lookup c).map (Link.map e) := by
  induction l with
  | nil => rfl
  | cons x l ih =>
      rw [List.map_cons, List.lookup_cons, List.lookup_cons]
      by_cases hx : c = x.1
      · subst hx
        simp
      · have hne : (e c == e x.1) = false := by
          rw [beq_eq_false_iff_ne]
          exact fun heq => hx (renames_inj hview heq)
        have hne' : (c == x.1) = false := beq_eq_false_iff_ne.mpr hx
        rw [hne, hne']
        exact ih

end Lookup

variable {t : Space M} {s : Space N}

section Resolve

variable (hview : ∀ c, view (e c) = some c) (h : Embeds e view t s)
include hview h

theorem Embeds.lookup (g : ℕ) (c : M) : s.lookup g (e c) = (t.lookup g c).map (Link.map e) := by
  rw [Space.lookup, Space.lookup, ← lookup_filter hview, h.links, lookup_map hview]

theorem Embeds.walk {k : ℕ → List M → Option ℕ} {k' : ℕ → List N → Option ℕ}
    (hk : ∀ g p, k' g (p.map e) = k g p) (g : ℕ) (cs : List M) :
    s.walk k' g (cs.map e) = t.walk k g cs := by
  induction cs generalizing g with
  | nil => rfl
  | cons c cs ih =>
      rw [List.map_cons, Space.walk, Space.walk, h.lookup hview]
      rcases t.lookup g c with _ | l
      · rfl
      · cases l with
        | hard o => exact ih o
        | soft p =>
            show k' _ (p.names.map e ++ cs.map e) = k _ (p.names ++ cs)
            rw [← List.map_append]
            exact hk _ _

/-- **Paths lead to the same objects.** -/
theorem Embeds.resolve (n g : ℕ) (cs : List M) : s.resolve n g (cs.map e) = t.resolve n g cs := by
  induction n generalizing g cs with
  | zero => exact h.walk hview (fun _ _ => rfl) g cs
  | succ n ih => exact h.walk hview (fun g p => ih g p) g cs

theorem Embeds.object (n g : ℕ) (p : Path M) : s.object n g (p.map e) = t.object n g p :=
  h.resolve hview n _ p.names

theorem Embeds.place (n g : ℕ) (p : Path M) :
    s.place n g (p.map e) = (t.place n g p).map fun hc => (hc.1, e hc.2) := by
  unfold Space.place
  have hnames : (p.map e).names = p.names.map e := rfl
  have hstart : (p.map e).start g = p.start g := rfl
  rw [hnames, hstart, List.getLast?_map, ← List.map_dropLast, h.resolve hview, h.isGroup]
  rcases p.names.getLast? with _ | c
  · rfl
  · rcases hres : t.resolve n (p.start g) p.names.dropLast with _ | o
    · simp
    · simp only [Option.map_some, Option.bind_eq_bind, Option.bind_some]
      split <;> rfl

theorem Embeds.newPlace (n g : ℕ) (p : Path M) :
    s.newPlace n g (p.map e) = (t.newPlace n g p).map fun hc => (hc.1, e hc.2) := by
  unfold Space.newPlace
  rw [h.place hview]
  rcases t.place n g p with _ | hc
  · rfl
  · simp only [Option.map_some, Option.bind_eq_bind, Option.bind_some, h.lookup hview, Option.isNone_map]
    split <;> rfl

theorem Embeds.linkAt (n g : ℕ) (p : Path M) :
    s.linkAt n g (p.map e) = (t.linkAt n g p).map fun x => ((x.1.1, e x.1.2), x.2.map e) := by
  unfold Space.linkAt
  rw [h.place hview]
  rcases t.place n g p with _ | hc
  · rfl
  · simp only [Option.map_some, Option.bind_eq_bind, Option.bind_some, h.lookup hview]
    rcases t.lookup hc.1 hc.2 with _ | l <;> rfl

end Resolve

section Update

variable (hview : ∀ c, view (e c) = some c)
include hview

omit [DecidableEq M] [DecidableEq N] in
theorem Embeds.insert (h : Embeds e view t s) (g : ℕ) (c : M) (l : Link M) :
    Embeds e view (t.insert g c l) (s.insert g (e c) (l.map e)) := by
  refine ⟨h.isGroup, fun k => ?_⟩
  by_cases hk : k = g
  · subst hk
    simp only [Space.insert, Function.update_self]
    rw [List.filter_append, h.links, List.map_append, List.filter_singleton]
    simp [hview]
  · simp only [Space.insert, Function.update_of_ne hk]
    exact h.links k

theorem Embeds.erase (h : Embeds e view t s) (g : ℕ) (c : M) :
    Embeds e view (t.erase g c) (s.erase g (e c)) := by
  refine ⟨h.isGroup, fun k => ?_⟩
  by_cases hk : k = g
  · subst hk
    simp only [Space.erase, Function.update_self]
    rw [List.filter_comm, h.links, List.filter_map]
    congr 1
    refine List.filter_congr fun x _ => ?_
    have hiff : e x.1 ≠ e c ↔ x.1 ≠ c := not_congr ⟨fun heq => renames_inj hview heq, fun heq => by rw [heq]⟩
    simp only [Function.comp_apply, hiff]
  · simp only [Space.erase, Function.update_of_ne hk]
    exact h.links k

omit [DecidableEq M] [DecidableEq N] hview in
theorem Embeds.alloc (h : Embeds e view t s) (group : Bool) :
    Embeds e view (t.alloc group) (s.alloc group) :=
  ⟨congrArg (· ++ [group]) h.isGroup, h.links⟩

omit [DecidableEq M] [DecidableEq N] in
theorem unseen_insert (s : Space N) (g : ℕ) (c : M) (l : Link N) (k : ℕ) :
    (s.insert g (e c) l).unseen view k = s.unseen view k := by
  unfold Space.unseen
  by_cases hk : k = g
  · subst hk
    simp only [Space.insert, Function.update_self]
    rw [List.filter_append, List.filter_singleton]
    simp [hview]
  · simp only [Space.insert, Function.update_of_ne hk]

omit [DecidableEq M] in
theorem unseen_erase (s : Space N) (g : ℕ) (c : M) (k : ℕ) :
    (s.erase g (e c)).unseen view k = s.unseen view k := by
  unfold Space.unseen
  by_cases hk : k = g
  · subst hk
    simp only [Space.erase, Function.update_self]
    rw [List.filter_filter]
    refine List.filter_congr fun x _ => ?_
    rcases hx : view x.1 with _ | d
    · have hne : x.1 ≠ e c := by
        rintro heq
        rw [heq, hview] at hx
        cases hx
      simp [hne]
    · simp
  · simp only [Space.erase, Function.update_of_ne hk]

omit [DecidableEq M] [DecidableEq N] hview in
/-- A link under a name that is not seen, to a new object. -/
theorem Embeds.insert_unseen (h : Embeds e view t s) (group : Bool) (g : ℕ) {c : N} (hc : view c = none)
    (l : Link N) : Embeds e view (t.alloc group) ((s.alloc group).insert g c l) := by
  refine ⟨(h.alloc group).isGroup, fun k => ?_⟩
  by_cases hk : k = g
  · subst hk
    simp only [Space.insert, Function.update_self]
    rw [List.filter_append, List.filter_singleton, hc]
    exact (List.append_nil _).trans (h.links k)
  · simp only [Space.insert, Function.update_of_ne hk]
    exact h.links k

end Update

/-! ## §3 — operations on both. -/

/-- What an operation on the one and the renamed operation on the other come to: the same answer as far as
it is seen, namespaces that still go together, and the links not seen as they were. -/
structure Alike (e : M → N) (view : N → Option M) (s : Space N) (r : Answer M × Space M)
    (r' : Answer N × Space N) : Prop where
  answer : r'.1.view view = r.1
  embeds : Embeds e view r.2 r'.2
  unseen : ∀ g, r'.2.unseen view g = s.unseen view g

omit [DecidableEq M] [DecidableEq N] in
/-- The names seen are those of the other group. -/
theorem Embeds.names (hview : ∀ c, view (e c) = some c) (h : Embeds e view t s) (g : ℕ) :
    ((s.links g).map Prod.fst).filterMap view = (t.links g).map Prod.fst := by
  have hseen : ∀ l : List (N × Link N), (l.map Prod.fst).filterMap view =
      ((l.filter fun x => (view x.1).isSome).map Prod.fst).filterMap view := by
    intro l
    induction l with
    | nil => rfl
    | cons x l ih =>
        rcases hx : view x.1 with _ | d
        · rw [List.filter_cons, if_neg (by rw [hx]; exact Bool.false_ne_true), List.map_cons,
            List.filterMap_cons_none hx, ih]
        · rw [List.filter_cons, if_pos (by rw [hx]; rfl), List.map_cons, List.map_cons,
            List.filterMap_cons_some hx, List.filterMap_cons_some hx, ih]
  rw [hseen, h.links, List.map_map, List.filterMap_map]
  have hback : (view ∘ Prod.fst ∘ fun x : M × Link M => (e x.1, x.2.map e)) = fun x => some x.1 :=
    funext fun x => hview x.1
  rw [← List.filterMap_eq_map]
  exact congrArg (fun f => (t.links g).filterMap f) hback

/-- **No operation tells the two apart.** -/
theorem Embeds.run (hview : ∀ c, view (e c) = some c) (h : Embeds e view t s) (n : ℕ) (op : Op M) :
    Alike e view s (t.run n op) (s.run n (op.map e)) := by
  have hsame (a : Answer N) : ∀ g, (a, s).2.unseen view g = s.unseen view g := fun _ => rfl
  -- A name is looked up where the other one is, so both operations find the same place or none.
  cases op with
  | create group g p =>
      simp only [Op.map, Space.run, h.newPlace hview]
      rcases t.newPlace n g p with _ | ⟨k, c⟩
      · exact ⟨rfl, h, hsame _⟩
      · refine ⟨?_, ?_, ?_⟩
        · show Answer.opened s.isGroup.length = _
          rw [h.isGroup]
        · simp only [Option.map_some, h.isGroup]
          exact (h.alloc group).insert hview k c (.hard t.isGroup.length)
        · exact unseen_insert hview _ k c _
  | openAt g p =>
      simp only [Op.map, Space.run, h.object hview]
      rcases t.object n g p with _ | o
      · exact ⟨rfl, h, hsame _⟩
      · exact ⟨rfl, h, hsame _⟩
  | hard src p dst q =>
      simp only [Op.map, Space.run, h.object hview, h.newPlace hview]
      rcases t.object n src p with _ | o
      · exact ⟨rfl, h, hsame _⟩
      · rcases t.newPlace n dst q with _ | ⟨k, c⟩
        · exact ⟨rfl, h, hsame _⟩
        · exact ⟨rfl, h.insert hview k c (.hard o), unseen_insert hview s k c _⟩
  | soft target g q =>
      simp only [Op.map, Space.run, h.newPlace hview]
      rcases t.newPlace n g q with _ | ⟨k, c⟩
      · exact ⟨rfl, h, hsame _⟩
      · exact ⟨rfl, h.insert hview k c (.soft target), unseen_insert hview s k c _⟩
  | copy src p dst q =>
      simp only [Op.map, Space.run, h.linkAt hview, h.newPlace hview]
      rcases t.linkAt n src p with _ | ⟨⟨k', c'⟩, l⟩
      · exact ⟨rfl, h, hsame _⟩
      · rcases t.newPlace n dst q with _ | ⟨k, c⟩
        · exact ⟨rfl, h, hsame _⟩
        · exact ⟨rfl, h.insert hview k c l, unseen_insert hview s k c _⟩
  | move src p dst q =>
      simp only [Op.map, Space.run, h.linkAt hview, h.newPlace hview]
      rcases t.linkAt n src p with _ | ⟨⟨k', c'⟩, l⟩
      · exact ⟨rfl, h, hsame _⟩
      · rcases t.newPlace n dst q with _ | ⟨k, c⟩
        · exact ⟨rfl, h, hsame _⟩
        · refine ⟨rfl, (h.insert hview k c l).erase hview k' c', fun g => ?_⟩
          exact (unseen_erase hview _ k' c' g).trans (unseen_insert hview s k c _ g)
  | existsAt g p =>
      simp only [Op.map, Space.run, h.place hview]
      rcases t.place n g p with _ | ⟨k, c⟩
      · refine ⟨?_, h, hsame _⟩
        have hempty : (p.map e).names.isEmpty = p.names.isEmpty := List.isEmpty_map
        show Answer.view view (if (p.map e).absolute && (p.map e).names.isEmpty then .found true else .fail) = _
        rw [hempty]
        show Answer.view view (if p.absolute && p.names.isEmpty then .found true else .fail) =
          if p.absolute && p.names.isEmpty then .found true else .fail
        split <;> rfl
      · refine ⟨?_, h, hsame _⟩
        show Answer.found (s.lookup k (e c)).isSome = .found (t.lookup k c).isSome
        rw [h.lookup hview, Option.isSome_map]
  | delete g p =>
      simp only [Op.map, Space.run, h.linkAt hview]
      rcases t.linkAt n g p with _ | ⟨⟨k, c⟩, l⟩
      · exact ⟨rfl, h, hsame _⟩
      · exact ⟨rfl, h.erase hview k c, unseen_erase hview s k c⟩
  | iterate g p =>
      simp only [Op.map, Space.run, h.object hview, h.isGroup]
      rcases t.object n g p with _ | k
      · exact ⟨rfl, h, hsame _⟩
      · simp only
        split
        · exact ⟨congrArg Answer.names (h.names hview k), h, hsame _⟩
        · exact ⟨rfl, h, hsame _⟩

end Rename

/-! ## §4 — objects no link leads to. -/

section Apart

variable {M : Type}

/-- An object that exists and is not one of `own`. -/
def Space.IsFree (t : Space M) (own : List ℕ) (o : ℕ) : Prop := o < t.isGroup.length ∧ o ∉ own

/-- **`Unlinked`** — all links lead to objects that are not in `own`. -/
structure Unlinked (t : Space M) (own : List ℕ) : Prop where
  root : t.IsFree own 0
  made : ∀ o ∈ own, o < t.isGroup.length
  apart : ∀ g, ∀ x ∈ t.links g, ∀ o, x.2 = .hard o → t.IsFree own o

/-- The objects an operation starts from. -/
def Op.handles : Op M → List ℕ
  | .create _ g _ | .openAt g _ | .soft _ g _ | .existsAt g _ | .delete g _ | .iterate g _ => [g]
  | .hard src _ dst _ | .copy src _ dst _ | .move src _ dst _ => [src, dst]

variable {t : Space M} {own : List ℕ}

theorem Space.IsFree.alloc {o : ℕ} (h : t.IsFree own o) (group : Bool) : (t.alloc group).IsFree own o := by
  refine ⟨?_, h.2⟩
  have hlt := h.1
  simp only [Space.alloc, List.length_append, List.length_singleton]
  omega

theorem Unlinked.insert (h : Unlinked t own) (g : ℕ) (c : M) {l : Link M}
    (hl : ∀ o, l = .hard o → t.IsFree own o) : Unlinked (t.insert g c l) own := by
  refine ⟨h.root, h.made, fun k x hx => ?_⟩
  by_cases hk : k = g
  · subst hk
    simp only [Space.insert, Function.update_self] at hx
    rcases List.mem_append.mp hx with hx | hx
    · exact h.apart k x hx
    · obtain rfl := List.mem_singleton.mp hx
      exact hl
  · simp only [Space.insert, Function.update_of_ne hk] at hx
    exact h.apart k x hx

theorem Unlinked.alloc (h : Unlinked t own) (group : Bool) : Unlinked (t.alloc group) own := by
  refine ⟨h.root.alloc group, fun o ho => ?_, fun g x hx o hxo => (h.apart g x hx o hxo).alloc group⟩
  have hlt := h.made o ho
  simp only [Space.alloc, List.length_append, List.length_singleton]
  omega

/-- A new object without a link is one more. -/
theorem Unlinked.alloc_own (h : Unlinked t own) (group : Bool) :
    Unlinked (t.alloc group) (t.isGroup.length :: own) := by
  have hfree : ∀ o, t.IsFree own o → (t.alloc group).IsFree (t.isGroup.length :: own) o := by
    intro o ho
    refine ⟨(ho.alloc group).1, ?_⟩
    rw [List.mem_cons, not_or]
    exact ⟨Nat.ne_of_lt ho.1, ho.2⟩
  refine ⟨hfree 0 h.root, fun o ho => ?_, fun g x hx o hxo => hfree o (h.apart g x hx o hxo)⟩
  simp only [Space.alloc, List.length_append, List.length_singleton]
  rcases List.mem_cons.mp ho with rfl | ho
  · omega
  · have := h.made o ho
    omega

variable [DecidableEq M]

theorem Unlinked.erase (h : Unlinked t own) (g : ℕ) (c : M) : Unlinked (t.erase g c) own := by
  refine ⟨h.root, h.made, fun k x hx => ?_⟩
  by_cases hk : k = g
  · subst hk
    simp only [Space.erase, Function.update_self] at hx
    exact h.apart k x (List.mem_of_mem_filter hx)
  · simp only [Space.erase, Function.update_of_ne hk] at hx
    exact h.apart k x hx

/-- A link that is found is one of the group. -/
theorem Space.mem_of_lookup {g : ℕ} {c : M} {l : Link M} (h : t.lookup g c = some l) :
    ∃ x ∈ t.links g, x.2 = l := by
  obtain ⟨pre, post, hlinks, -⟩ := List.lookup_eq_some_iff.mp h
  exact ⟨(c, l), by rw [hlinks]; simp, rfl⟩

theorem Unlinked.walk (h : Unlinked t own) {k : ℕ → List M → Option ℕ}
    (hk : ∀ g p, t.IsFree own g → ∀ o ∈ k g p, t.IsFree own o) {g : ℕ} (hg : t.IsFree own g) (cs : List M) :
    ∀ o ∈ t.walk k g cs, t.IsFree own o := by
  induction cs generalizing g with
  | nil =>
      intro o ho
      obtain rfl := Option.some.inj ho
      exact hg
  | cons c cs ih =>
      intro o ho
      rw [Space.walk] at ho
      rcases hlook : t.lookup g c with _ | l
      · rw [hlook] at ho
        cases ho
      · rw [hlook] at ho
        cases l with
        | hard k =>
            obtain ⟨x, hx, hxk⟩ := Space.mem_of_lookup hlook
            exact ih (h.apart g x hx k hxk) o ho
        | soft p =>
            have hstart : t.IsFree own (if p.absolute then 0 else g) := by
              split
              · exact h.root
              · exact hg
            exact hk _ _ hstart o ho

/-- **No path leads to an object no link leads to.** -/
theorem Unlinked.resolve (h : Unlinked t own) (n : ℕ) {g : ℕ} (hg : t.IsFree own g) (cs : List M) :
    ∀ o ∈ t.resolve n g cs, t.IsFree own o := by
  induction n generalizing g cs with
  | zero => exact h.walk (fun _ _ _ o ho => by cases ho) hg cs
  | succ n ih => exact h.walk (fun g p hg => ih hg p) hg cs

theorem Unlinked.object (h : Unlinked t own) (n : ℕ) {g : ℕ} (hg : t.IsFree own g) {p : Path M} {o : ℕ}
    (ho : t.object n g p = some o) : t.IsFree own o := by
  refine h.resolve n ?_ p.names o ho
  rw [Path.start]
  split
  · exact h.root
  · exact hg

/-- The link at a path is one of a group. -/
theorem Unlinked.linkAt (h : Unlinked t own) {n g : ℕ} {p : Path M} {x : (ℕ × M) × Link M}
    (hx : t.linkAt n g p = some x) : ∀ o, x.2 = .hard o → t.IsFree own o := by
  unfold Space.linkAt at hx
  obtain ⟨hc, -, hx⟩ := Option.bind_eq_some_iff.mp hx
  obtain ⟨l, hl, hx⟩ := Option.bind_eq_some_iff.mp hx
  obtain rfl := Option.some.inj hx
  obtain ⟨y, hy, hyl⟩ := Space.mem_of_lookup hl
  intro o ho
  exact h.apart _ y hy o (hyl.trans ho)

/-- **Operations from other objects** lead to other objects only, and leave it so. -/
theorem Unlinked.run (h : Unlinked t own) (n : ℕ) {op : Op M} (hop : ∀ g ∈ op.handles, t.IsFree own g) :
    Unlinked (t.run n op).2 own ∧
      ∀ o, (t.run n op).1 = .opened o → (t.run n op).2.IsFree own o := by
  -- Only `create` makes an object, and a link that is copied leads where it led before.
  cases op with
  | create group g p =>
      simp only [Space.run]
      rcases t.newPlace n g p with _ | ⟨k, c⟩
      · exact ⟨h, fun o ho => by cases ho⟩
      · have hnew : (t.alloc group).IsFree own t.isGroup.length := by
          refine ⟨?_, fun hmem => absurd (h.made _ hmem) (lt_irrefl _)⟩
          simp [Space.alloc]
        refine ⟨(h.alloc group).insert k c fun o ho => ?_, fun o ho => ?_⟩
        · obtain rfl := Link.hard.inj ho
          exact hnew
        · obtain rfl := Answer.opened.inj ho
          exact hnew
  | openAt g p =>
      simp only [Space.run]
      rcases hobj : t.object n g p with _ | o
      · exact ⟨h, fun o ho => by cases ho⟩
      · refine ⟨h, fun o' ho' => ?_⟩
        obtain rfl := Answer.opened.inj ho'
        exact h.object n (hop g (List.mem_singleton_self g)) hobj
  | hard src p dst q =>
      simp only [Space.run]
      rcases hobj : t.object n src p with _ | o
      · exact ⟨h, fun o ho => by cases ho⟩
      · rcases t.newPlace n dst q with _ | ⟨k, c⟩
        · exact ⟨h, fun o ho => by cases ho⟩
        · refine ⟨h.insert k c fun o' ho' => ?_, fun o ho => by cases ho⟩
          obtain rfl := Link.hard.inj ho'
          exact h.object n (hop src (List.mem_cons_self ..)) hobj
  | soft target g q =>
      simp only [Space.run]
      rcases t.newPlace n g q with _ | ⟨k, c⟩
      · exact ⟨h, fun o ho => by cases ho⟩
      · exact ⟨h.insert k c (fun o ho => by cases ho), fun o ho => by cases ho⟩
  | copy src p dst q =>
      simp only [Space.run]
      rcases hlink : t.linkAt n src p with _ | x
      · exact ⟨h, fun o ho => by cases ho⟩
      · rcases t.newPlace n dst q with _ | ⟨k, c⟩
        · exact ⟨h, fun o ho => by cases ho⟩
        · exact ⟨h.insert k c (h.linkAt hlink), fun o ho => by cases ho⟩
  | move src p dst q =>
      simp only [Space.run]
      rcases hlink : t.linkAt n src p with _ | x
      · exact ⟨h, fun o ho => by cases ho⟩
      · rcases t.newPlace n dst q with _ | ⟨k, c⟩
        · exact ⟨h, fun o ho => by cases ho⟩
        · exact ⟨(h.insert k c (h.linkAt hlink)).erase _ _, fun o ho => by cases ho⟩
  | existsAt g p =>
      simp only [Space.run]
      rcases t.place n g p with _ | ⟨k, c⟩
      · refine ⟨h, fun o ho => ?_⟩
        simp only at ho
        split at ho <;> cases ho
      · exact ⟨h, fun o ho => by cases ho⟩
  | delete g p =>
      simp only [Space.run]
      rcases t.linkAt n g p with _ | ⟨⟨k, c⟩, l⟩
      · exact ⟨h, fun o ho => by cases ho⟩
      · exact ⟨h.erase k c, fun o ho => by cases ho⟩
  | iterate g p =>
      simp only [Space.run]
      rcases t.object n g p with _ | k
      · exact ⟨h, fun o ho => by cases ho⟩
      · simp only
        split
        · exact ⟨h, fun o ho => by cases ho⟩
        · exact ⟨h, fun o ho => by cases ho⟩

end Apart

end LogVol.Lib
