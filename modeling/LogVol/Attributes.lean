/-
# LogVol.Attributes — the attributes of an object, asked for by number.

The connector keeps one attribute of its own on the root group of a log file and three on each dataset, under names
that begin with one underscore. The callback of an iteration leaves them out and turns the users' names back. The
other calls count on them being the first: they add their number to the index, and take it away again.

How many there are is taken from the type of the handle the call is made on, and the calls differ in what they look at
besides: the kind of the file, the order, whether the call underneath has failed. `attrAgrees_iff` says for which of
them the answer is that of the iteration, and the index is as it was.
-/
import LogVol.PlainNames

namespace LogVol

/-! ## §1 — objects and their attributes. -/

/-- `H5I_type_t` of a handle. -/
inductive HandleType
  | file | dataset | group
  deriving DecidableEq

/-- What a handle leads to: a file handle leads to the root group. -/
inductive AttrOwner
  | root | dataset | group
  deriving DecidableEq

inductive IndexType
  | name | crtOrder
  deriving DecidableEq

inductive IterOrder
  | inc | dec
  deriving DecidableEq

/-- A stored attribute: its name and its creation order. -/
structure StoredAttr where
  name : List Char
  corder : I32
  deriving DecidableEq

/-- The order in which HDF5 goes through the attributes of an object. -/
structure AttrIndex where
  order : IndexType → IterOrder → List StoredAttr → List StoredAttr
  perm : ∀ t ord attrs, (order t ord attrs).Perm attrs

/-- `H5VL_LOG_FILEI_ATTR`, and `H5VL_LOG_DATASETI_ATTR_DIMS`, `_MDIMS` and `_ID`. -/
def AttrOwner.internalNames : AttrOwner → List (List Char)
  | .root => [['_', 'i', 'n', 't', '_', 'a', 't', 't']]
  | .dataset => [['_', 'd', 'i', 'm', 's'], ['_', 'm', 'd', 'i', 'm', 's'], ['_', 'I', 'D']]
  | .group => []

theorem AttrOwner.internalNames_internal (owner : AttrOwner) : ∀ name ∈ owner.internalNames, Internal name := by
  cases owner <;> decide

theorem AttrOwner.internalNames_nodup (owner : AttrOwner) : owner.internalNames.Nodup := by
  cases owner <;> decide

/-- An object of a log file or of a regular one, with the connector's attributes and the users'. Creation order
may be tracked. -/
structure AttrObject where
  log : Bool
  owner : AttrOwner
  tracked : Bool
  internal : List StoredAttr
  users : List StoredAttr
  internal_names : internal.map StoredAttr.name = if log then owner.internalNames else []
  users_nodup : (users.map StoredAttr.name).Nodup
  count_lt : internal.length + users.length < 2 ^ 63

/-- What a user's attribute is stored as. -/
def AttrObject.store (o : AttrObject) (a : StoredAttr) : StoredAttr :=
  if o.log then { a with name := escape a.name } else a

def AttrObject.stored (o : AttrObject) : List StoredAttr := o.internal ++ o.users.map o.store

/-- `H5VL_log_atti_iterate_op`: the name handed on to the user, in the manner of `H5VL_log_linki_iterate_op`. -/
def attiIterateOp (attrName : List Char) : Option (List Char) := linkiIterateOp attrName

/-- What the user's callback is given for an attribute. In a regular file it is called by HDF5. -/
def AttrObject.shows (o : AttrObject) (a : StoredAttr) : Option StoredAttr :=
  if o.log then (attiIterateOp a.name).map fun name => { a with name := name } else some a

/-- **What an iteration delivers**, in order. -/
def AttrObject.delivered (o : AttrObject) (ix : AttrIndex) (t : IndexType) (ord : IterOrder) : List StoredAttr :=
  (ix.order t ord o.stored).filterMap o.shows

/-! ## §2 — the calls. -/

/-- What is added to an index, and taken from a count. -/
def HandleType.skip : HandleType → ℕ
  | .file => 1
  | .dataset => 3
  | .group => 0

/-- **`H5VL_log_object_get`** of the object's info: `num_attrs`. -/
def objectGetNumAttrs (o : AttrObject) (h : HandleType) : HSize :=
  BitVec.ofNat 64 o.stored.length - BitVec.ofNat 64 h.skip

/-- **`H5VL_log_attr_open`** by index: the attribute that is opened, and `n` afterwards. The index is raised in log
files only, and lowered in all files; not when the attribute could not be opened. -/
def attrOpen (ix : AttrIndex) (o : AttrObject) (h : HandleType) (t : IndexType) (ord : IterOrder) (n : HSize) :
    Option StoredAttr × HSize :=
  let raised := if o.log then n + BitVec.ofNat 64 h.skip else n
  match (ix.order t ord o.stored)[raised.toNat]? with
  | none => (none, raised)
  | some a => (some a, raised - BitVec.ofNat 64 h.skip)

/-- **`H5VL_log_attr_get`** by index: the attribute that is asked about, and `n` afterwards. For a decreasing order the
first run is for an index bound check; it is rerun with the correct `n`. -/
def attrGet (ix : AttrIndex) (o : AttrObject) (h : HandleType) (t : IndexType) (ord : IterOrder) (n : HSize) :
    Option StoredAttr × HSize :=
  match (ix.order t ord o.stored)[(n + BitVec.ofNat 64 h.skip).toNat]? with
  | none => (none, n + BitVec.ofNat 64 h.skip)
  | some a =>
      let lowered := n + BitVec.ofNat 64 h.skip - BitVec.ofNat 64 h.skip
      (if ord = .dec then (ix.order t ord o.stored)[lowered.toNat]? else some a, lowered)

/-- `H5VL_ATTR_GET_NAME`. -/
def attrGetName (ix : AttrIndex) (o : AttrObject) (h : HandleType) (t : IndexType) (ord : IterOrder) (n : HSize) :
    Option (List Char) × HSize :=
  ((attrGet ix o h t ord n).1.map StoredAttr.name, (attrGet ix o h t ord n).2)

/-- `H5VL_ATTR_GET_INFO`: the creation order is lowered. -/
def attrGetInfo (ix : AttrIndex) (o : AttrObject) (h : HandleType) (t : IndexType) (ord : IterOrder) (n : HSize) :
    Option StoredAttr × HSize :=
  ((attrGet ix o h t ord n).1.map fun a => { a with corder := a.corder - BitVec.ofNat 32 h.skip },
    (attrGet ix o h t ord n).2)

/-! ## §3 — agreement. -/

/-- A call that reports a count, or is about attribute `n`. -/
inductive AttrCall
  | count
  | open (t : IndexType) (ord : IterOrder) (n : HSize)
  | name (t : IndexType) (ord : IterOrder) (n : HSize)
  | info (t : IndexType) (ord : IterOrder) (n : HSize)

/-- What is valid of an attribute's information. -/
def AttrObject.valid (o : AttrObject) (a : StoredAttr) : StoredAttr := if o.tracked then a else { a with corder := 0 }

/-- **The call's answer is that of the iteration**, and the caller's index is what it was. -/
def AttrObject.Agrees (o : AttrObject) (ix : AttrIndex) (h : HandleType) : AttrCall → Prop
  | .count => ∀ t ord, objectGetNumAttrs o h = BitVec.ofNat 64 (o.delivered ix t ord).length
  | .open t ord n =>
      (attrOpen ix o h t ord n).1.map o.shows = (o.delivered ix t ord)[n.toNat]?.map some ∧
        (attrOpen ix o h t ord n).2 = n
  | .name t ord n =>
      (attrGetName ix o h t ord n).1 = (o.delivered ix t ord)[n.toNat]?.map StoredAttr.name ∧
        (attrGetName ix o h t ord n).2 = n
  | .info t ord n =>
      (attrGetInfo ix o h t ord n).1.map (fun a => o.shows (o.valid a)) =
          (o.delivered ix t ord)[n.toNat]?.map (fun a => some (o.valid a)) ∧
        (attrGetInfo ix o h t ord n).2 = n

/-- How many elements that are left out stand ahead of the one that comes out as number `n`. -/
def hiddenBefore {α β : Type} (f : α → Option β) : List α → ℕ → ℕ
  | [], _ => 0
  | a :: l, n =>
      match f a, n with
      | none, n => hiddenBefore f l n + 1
      | some _, 0 => 0
      | some _, n + 1 => hiddenBefore f l n

/-- The connector's attributes ahead of the users' attribute `n`. -/
def AttrObject.ahead (o : AttrObject) (ix : AttrIndex) (t : IndexType) (ord : IterOrder) (n : HSize) : ℕ :=
  hiddenBefore o.shows (ix.order t ord o.stored) n.toNat

/-- `H5VL_log_attr_get` comes to the users' attribute `n`. -/
def AttrObject.Found (o : AttrObject) (ix : AttrIndex) (h : HandleType) (t : IndexType) (n : HSize) : IterOrder → Prop
  | .inc => o.ahead ix t .inc n = h.skip
  | .dec => o.ahead ix t .dec n = 0 ∧ n.toNat + h.skip < o.stored.length

/-- `H5VL_log_attr_get` finds no attribute `n`, and has not changed the index. -/
def AttrObject.Missed (o : AttrObject) (h : HandleType) (n : HSize) : IterOrder → Prop
  | .inc => h.skip = 0 ∧ o.stored.length ≤ n.toNat
  | .dec => o.stored.length ≤ n.toNat ∧ (h.skip = 0 ∨ (n.toNat + h.skip) % 2 ^ 64 < o.stored.length)

/-- The place `H5VL_log_attr_get` comes to for one of the users' attributes. -/
def HandleType.seat (h : HandleType) (ord : IterOrder) (n : HSize) : ℕ :=
  if ord = .dec then n.toNat else n.toNat + h.skip

/-- `H5VL_log_attr_get` comes to another attribute, which is stored under the user's name of attribute `n`. -/
def AttrObject.Namesake (o : AttrObject) (ix : AttrIndex) (h : HandleType) (t : IndexType) (ord : IterOrder)
    (n : HSize) : Prop :=
  (ord = .dec → n.toNat + h.skip < o.stored.length) ∧
    ∃ a u, (ix.order t ord o.stored)[h.seat ord n]? = some a ∧ (o.delivered ix t ord)[n.toNat]? = some u ∧
      o.shows a ≠ some u ∧ a.name = u.name

/-- The condition for a call. -/
def AttrObject.Right (o : AttrObject) (ix : AttrIndex) (h : HandleType) : AttrCall → Prop
  | .count => o.internal.length = h.skip
  | .open t ord n =>
      if o.log then
        if n.toNat < o.users.length then o.ahead ix t ord n = h.skip
        else h.skip = 0 ∧ o.stored.length ≤ n.toNat
      else h.skip = 0 ∨ o.users.length ≤ n.toNat
  | .name t ord n =>
      if n.toNat < o.users.length then
        (o.Found ix h t n ord ∧ ∀ u ∈ (o.delivered ix t ord)[n.toNat]?, o.log → charAt u.name 0 ≠ '_') ∨
          o.Namesake ix h t ord n
      else o.Missed h n ord
  | .info t ord n =>
      if n.toNat < o.users.length then o.Found ix h t n ord ∧ (o.tracked → h.skip = 0) else o.Missed h n ord

/-! ## §4 — what is shown. -/

theorem getElem?_hiddenBefore {α β : Type} {f : α → Option β} {l : List α} {n : ℕ}
    (h : n < (l.filterMap f).length) :
    l[n + hiddenBefore f l n]?.map f = (l.filterMap f)[n]?.map some := by
  induction l generalizing n with
  | nil => exact absurd h (Nat.not_lt_zero n)
  | cons a l ih =>
      rcases hfa : f a with _ | b
      · rw [List.filterMap_cons_none hfa] at h ⊢
        have hnext : hiddenBefore f (a :: l) n = hiddenBefore f l n + 1 := by simp only [hiddenBefore, hfa]
        rw [hnext, ← Nat.add_assoc, List.getElem?_cons_succ]
        exact ih h
      · rw [List.filterMap_cons_some hfa] at h ⊢
        rcases n with _ | n
        · have hnext : hiddenBefore f (a :: l) 0 = 0 := by simp only [hiddenBefore, hfa]
          rw [hnext, List.getElem?_cons_zero, List.getElem?_cons_zero, Option.map_some, Option.map_some, hfa]
        · have hnext : hiddenBefore f (a :: l) (n + 1) = hiddenBefore f l n := by simp only [hiddenBefore, hfa]
          rw [hnext, Nat.add_right_comm, List.getElem?_cons_succ, List.getElem?_cons_succ]
          exact ih (Nat.lt_of_succ_lt_succ h)

theorem hiddenBefore_eq_zero {α β : Type} {f : α → Option β} {l : List α} (h : ∀ a ∈ l, f a ≠ none) (n : ℕ) :
    hiddenBefore f l n = 0 := by
  induction l generalizing n with
  | nil => rfl
  | cons a l ih =>
      obtain ⟨b, hb⟩ := Option.ne_none_iff_exists'.mp (h a (List.mem_cons_self ..))
      rcases n with _ | n
      · simp only [hiddenBefore, hb]
      · simp only [hiddenBefore, hb]
        exact ih (fun a' ha' => h a' (List.mem_cons_of_mem a ha')) n

namespace AttrObject

variable (o : AttrObject) (ix : AttrIndex) (h : HandleType) (t : IndexType) (ord : IterOrder)

theorem shows_store (u : StoredAttr) : o.shows (o.store u) = some u := by
  unfold shows store
  split
  · rw [attiIterateOp, linkiIterateOp_escape]
    rfl
  · rfl

theorem shows_internal {a : StoredAttr} (ha : a ∈ o.internal) : o.shows a = none := by
  have hname : a.name ∈ if o.log then o.owner.internalNames else [] := by
    rw [← o.internal_names]
    exact List.mem_map_of_mem ha
  unfold shows
  split at hname
  · rename_i hlog
    rw [if_pos hlog, attiIterateOp, linkiIterateOp_internal (o.owner.internalNames_internal _ hname)]
    rfl
  · exact absurd hname List.not_mem_nil

/-- An attribute that is shown is the user's of that name. -/
theorem eq_store {a u : StoredAttr} (ha : a ∈ o.stored) (hu : o.shows a = some u) : a = o.store u := by
  rcases List.mem_append.mp ha with ha | ha
  · rw [o.shows_internal ha] at hu
    exact nomatch hu
  · obtain ⟨v, -, rfl⟩ := List.mem_map.mp ha
    rw [shows_store] at hu
    rw [Option.some.inj hu]

theorem filterMap_stored : o.stored.filterMap o.shows = o.users := by
  have hinternal : o.internal.filterMap o.shows = [] :=
    List.filterMap_eq_nil_iff.mpr fun a ha => o.shows_internal ha
  have husers : (o.users.map o.store).filterMap o.shows = o.users := by
    rw [List.filterMap_map]
    conv_rhs => rw [← List.filterMap_some (l := o.users)]
    exact List.filterMap_congr fun u _ => o.shows_store u
  rw [stored, List.filterMap_append, hinternal, husers, List.nil_append]

/-- **The iteration delivers the users' attributes.** -/
theorem delivered_perm : (o.delivered ix t ord).Perm o.users := by
  have hperm := (ix.perm t ord o.stored).filterMap o.shows
  rwa [filterMap_stored] at hperm

theorem delivered_length : (o.delivered ix t ord).length = o.users.length := (o.delivered_perm ix t ord).length_eq

theorem order_length : (ix.order t ord o.stored).length = o.stored.length := (ix.perm t ord o.stored).length_eq

theorem stored_length : o.stored.length = o.internal.length + o.users.length := by
  rw [stored, List.length_append, List.length_map]

theorem internal_length : o.internal.length = if o.log then o.owner.internalNames.length else 0 := by
  rw [← List.length_map (f := StoredAttr.name), o.internal_names]
  split <;> rfl

theorem stored_nodup : o.stored.Nodup := by
  have hinternal : o.internal.Nodup := by
    refine List.Nodup.of_map StoredAttr.name ?_
    rw [o.internal_names]
    split
    · exact o.owner.internalNames_nodup
    · exact List.nodup_nil
  have husers : (o.users.map o.store).Nodup := by
    refine (List.Nodup.of_map _ o.users_nodup).map fun u v huv => ?_
    have hshows := congrArg o.shows huv
    rw [shows_store, shows_store] at hshows
    exact Option.some.inj hshows
  refine List.nodup_append.mpr ⟨hinternal, husers, ?_⟩
  rintro a ha _ hb rfl
  obtain ⟨u, -, rfl⟩ := List.mem_map.mp hb
  have hnone := o.shows_internal ha
  rw [shows_store] at hnone
  exact nomatch hnone

/-- **The users' attribute `n` is at one place in the order**: behind those of the connector that are ahead. -/
theorem shown_iff {n : HSize} (hn : n.toNat < o.users.length) {p : ℕ} :
    (ix.order t ord o.stored)[p]?.map o.shows = (o.delivered ix t ord)[n.toNat]?.map some ↔
      p = n.toNat + o.ahead ix t ord n := by
  rw [← o.delivered_length ix t ord] at hn
  have hplace := getElem?_hiddenBefore (f := o.shows) hn
  constructor
  · intro hp
    obtain ⟨u, hu⟩ : ∃ u, (o.delivered ix t ord)[n.toNat]? = some u := ⟨_, List.getElem?_eq_getElem hn⟩
    have hplaced : ∀ {q : ℕ}, (ix.order t ord o.stored)[q]?.map o.shows = (o.delivered ix t ord)[n.toNat]?.map some →
        (ix.order t ord o.stored)[q]? = some (o.store u) := by
      intro q hq
      rw [hu, Option.map_some] at hq
      obtain ⟨a, ha, hshows⟩ := Option.map_eq_some_iff.mp hq
      rw [ha, o.eq_store ((ix.perm t ord o.stored).mem_iff.mp (List.mem_of_getElem? ha)) hshows]
    have hnodup : (ix.order t ord o.stored).Nodup := (ix.perm t ord o.stored).nodup_iff.mpr o.stored_nodup
    obtain ⟨hp', hpa⟩ := List.getElem?_eq_some_iff.mp (hplaced hp)
    obtain ⟨hq', hqa⟩ := List.getElem?_eq_some_iff.mp (hplaced hplace)
    exact (hnodup.getElem_inj_iff).mp (hpa.trans hqa.symm)
  · rintro rfl
    exact hplace

/-- Behind the users' last attribute there is nothing to be shown. -/
theorem missed_iff {n : HSize} (hn : o.users.length ≤ n.toNat) {p : ℕ} :
    (ix.order t ord o.stored)[p]?.map o.shows = (o.delivered ix t ord)[n.toNat]?.map some ↔ o.stored.length ≤ p := by
  have hnone : (o.delivered ix t ord)[n.toNat]? = none := List.getElem?_eq_none (by rw [delivered_length]; exact hn)
  rw [hnone, Option.map_none, Option.map_eq_none_iff, List.getElem?_eq_none_iff, order_length]

theorem skip_le : h.skip ≤ 3 := by
  cases h <;> decide

theorem raised_toNat (n : HSize) : (n + BitVec.ofNat 64 h.skip).toNat = (n.toNat + h.skip) % 2 ^ 64 := by
  have := skip_le h
  rw [BitVec.toNat_add, BitVec.toNat_ofNat, Nat.mod_eq_of_lt (show h.skip < 2 ^ 64 by omega)]

theorem raised_toNat_of_lt {n : HSize} (hn : n.toNat < o.users.length) :
    (n + BitVec.ofNat 64 h.skip).toNat = n.toNat + h.skip := by
  have := skip_le h
  have := o.count_lt
  rw [raised_toNat, Nat.mod_eq_of_lt (by omega)]

theorem raised_eq_iff (n : HSize) : n + BitVec.ofNat 64 h.skip = n ↔ h.skip = 0 := by
  cases h <;> simp [HandleType.skip]

theorem lowered_eq_iff (n : HSize) : n - BitVec.ofNat 64 h.skip = n ↔ h.skip = 0 := by
  cases h <;> simp [HandleType.skip]

/-- What `H5VL_log_attr_open` comes to in a log file. -/
theorem attrOpen_log (hlog : o.log) (n : HSize) :
    o.Agrees ix h (.open t ord n) ↔
      (ix.order t ord o.stored)[(n + BitVec.ofNat 64 h.skip).toNat]?.map o.shows =
          (o.delivered ix t ord)[n.toNat]?.map some ∧
        (o.stored.length ≤ (n + BitVec.ofNat 64 h.skip).toNat → h.skip = 0) := by
  simp only [Agrees, attrOpen, if_pos hlog]
  rcases hget : (ix.order t ord o.stored)[(n + BitVec.ofNat 64 h.skip).toNat]? with _ | a
  · rw [List.getElem?_eq_none_iff, order_length] at hget
    simp only [raised_eq_iff, hget, forall_const]
  · obtain ⟨hlt, -⟩ := List.getElem?_eq_some_iff.mp hget
    rw [order_length] at hlt
    simp only [BitVec.add_sub_cancel, not_le.mpr hlt, false_imp_iff]

/-- What it comes to in a regular file. -/
theorem attrOpen_regular (hlog : ¬ o.log) (n : HSize) :
    o.Agrees ix h (.open t ord n) ↔
      (ix.order t ord o.stored)[n.toNat]?.map o.shows = (o.delivered ix t ord)[n.toNat]?.map some ∧
        (n.toNat < o.stored.length → h.skip = 0) := by
  simp only [Agrees, attrOpen, if_neg hlog]
  rcases hget : (ix.order t ord o.stored)[n.toNat]? with _ | a
  · rw [List.getElem?_eq_none_iff, order_length] at hget
    simp only [not_lt.mpr hget, false_imp_iff]
  · obtain ⟨hlt, -⟩ := List.getElem?_eq_some_iff.mp hget
    rw [order_length] at hlt
    simp only [lowered_eq_iff, hlt, forall_const]

theorem ahead_le {n : HSize} (hn : n.toNat < o.users.length) : n.toNat + o.ahead ix t ord n < o.stored.length := by
  have hplace := (o.shown_iff ix t ord hn).mpr rfl
  by_contra hge
  have hnone : (ix.order t ord o.stored)[n.toNat + o.ahead ix t ord n]? = none :=
    List.getElem?_eq_none (by rw [order_length]; omega)
  rw [hnone, List.getElem?_eq_getElem (by rw [delivered_length]; exact hn)] at hplace
  exact nomatch hplace

/-- Without attributes of the connector nothing is ahead. -/
theorem ahead_eq_zero (hinternal : o.internal = []) (n : HSize) : o.ahead ix t ord n = 0 := by
  refine hiddenBefore_eq_zero (fun a ha => ?_) _
  have hmem : a ∈ o.stored := (ix.perm t ord o.stored).mem_iff.mp ha
  rw [stored, hinternal, List.nil_append] at hmem
  obtain ⟨u, -, rfl⟩ := List.mem_map.mp hmem
  rw [shows_store]
  exact Option.some_ne_none u

theorem internal_regular (hlog : ¬ o.log) : o.internal = [] := by
  rw [← List.length_eq_zero_iff, internal_length, if_neg hlog]

theorem open_agrees_iff (n : HSize) : o.Agrees ix h (.open t ord n) ↔ o.Right ix h (.open t ord n) := by
  by_cases hlog : o.log
  · rw [attrOpen_log o ix h t ord hlog, Right, if_pos hlog]
    split
    · rename_i hn
      rw [o.raised_toNat_of_lt h hn, o.shown_iff ix t ord hn, Nat.add_left_cancel_iff]
      have hlt := o.ahead_le ix t ord hn
      omega
    · rename_i hn
      rw [o.missed_iff ix t ord (not_lt.mp hn)]
      constructor
      · rintro ⟨hmiss, hzero⟩
        have hskip := hzero hmiss
        rw [(raised_eq_iff h n).mpr hskip] at hmiss
        exact ⟨hskip, hmiss⟩
      · rintro ⟨hskip, hmiss⟩
        rw [(raised_eq_iff h n).mpr hskip]
        exact ⟨hmiss, fun _ => hskip⟩
  · rw [attrOpen_regular o ix h t ord hlog, Right, if_neg hlog]
    have hinternal := o.internal_regular hlog
    have hlength : o.stored.length = o.users.length := by
      rw [stored_length, hinternal, List.length_nil, Nat.zero_add]
    rcases Nat.lt_or_ge n.toNat o.users.length with hn | hn
    · rw [o.shown_iff ix t ord hn, o.ahead_eq_zero ix t ord hinternal]
      omega
    · rw [o.missed_iff ix t ord hn]
      omega

/-- What `H5VL_log_attr_get` comes to. -/
theorem attrGet_eq (n : HSize) :
    attrGet ix o h t ord n =
      if (n + BitVec.ofNat 64 h.skip).toNat < o.stored.length then
        ((ix.order t ord o.stored)[if ord = .dec then n.toNat else (n + BitVec.ofNat 64 h.skip).toNat]?, n)
      else (none, n + BitVec.ofNat 64 h.skip) := by
  unfold attrGet
  rcases hget : (ix.order t ord o.stored)[(n + BitVec.ofNat 64 h.skip).toNat]? with _ | a
  · rw [List.getElem?_eq_none_iff, order_length] at hget
    rw [if_neg (not_lt.mpr hget)]
  · obtain ⟨hlt, -⟩ := List.getElem?_eq_some_iff.mp hget
    rw [order_length] at hlt
    rw [if_pos hlt]
    simp only [BitVec.add_sub_cancel]
    cases ord
    · exact Prod.ext hget.symm rfl
    · rfl

/-- There is no attribute `n`, whatever is asked about it. -/
theorem attrGet_missed {γ : Type} (g : StoredAttr → γ) (n : HSize) :
    (attrGet ix o h t ord n).1.map g = none ∧ (attrGet ix o h t ord n).2 = n ↔ o.Missed h n ord := by
  have hle := o.stored_length
  rw [attrGet_eq]
  split
  · rename_i hlt
    rw [Option.map_eq_none_iff, List.getElem?_eq_none_iff, order_length]
    cases ord
    · rw [if_neg nofun]
      refine iff_of_false (fun hmiss => absurd hlt (not_lt.mpr hmiss.1)) fun hmiss => ?_
      rw [(raised_eq_iff h n).mpr hmiss.1] at hlt
      exact absurd hlt (not_lt.mpr hmiss.2)
    · rw [raised_toNat] at hlt
      exact ⟨fun hmiss => ⟨hmiss.1, Or.inr hlt⟩, fun hmiss => ⟨hmiss.1, rfl⟩⟩
  · rename_i hge
    rw [Option.map_none, eq_self, true_and, raised_eq_iff]
    cases ord
    · refine ⟨fun hskip => ⟨hskip, ?_⟩, fun hmiss => hmiss.1⟩
      rw [(raised_eq_iff h n).mpr hskip] at hge
      exact not_lt.mp hge
    · rw [raised_toNat] at hge
      refine ⟨fun hskip => ⟨?_, Or.inl hskip⟩, fun hmiss => hmiss.2.resolve_right hge⟩
      rw [hskip, Nat.add_zero, Nat.mod_eq_of_lt n.isLt] at hge
      exact not_lt.mp hge

/-- There is an attribute `n`: what `H5VL_log_attr_get` says about it. -/
theorem attrGet_found {γ : Type} (g : StoredAttr → γ) {n : HSize} (hn : n.toNat < o.users.length) {v : γ} :
    (attrGet ix o h t ord n).1.map g = some v ∧ (attrGet ix o h t ord n).2 = n ↔
      n.toNat + h.skip < o.stored.length ∧ (ix.order t ord o.stored)[h.seat ord n]?.map g = some v := by
  rw [attrGet_eq, o.raised_toNat_of_lt h hn, ← HandleType.seat]
  split
  · rename_i hlt
    simp only [hlt, true_and, and_true]
  · rename_i hge
    simp only [hge, false_and, Option.map_none, reduceCtorEq]

theorem found_iff {n : HSize} (hn : n.toNat < o.users.length) :
    o.Found ix h t n ord ↔ n.toNat + h.skip < o.stored.length ∧ h.seat ord n = n.toNat + o.ahead ix t ord n := by
  have hlt := o.ahead_le ix t ord hn
  cases ord
  · rw [Found, HandleType.seat, if_neg nofun]
    omega
  · rw [Found, HandleType.seat, if_pos rfl]
    omega

theorem mem_users_of_delivered {n : HSize} {u : StoredAttr} (hu : (o.delivered ix t ord)[n.toNat]? = some u) :
    u ∈ o.users := (o.delivered_perm ix t ord).mem_iff.mp (List.mem_of_getElem? hu)

/-- A user's attribute is known by its name. -/
theorem user_ext {u v : StoredAttr} (hu : u ∈ o.users) (hv : v ∈ o.users) (hname : u.name = v.name) : u = v :=
  List.inj_on_of_nodup_map o.users_nodup hu hv hname

theorem shows_corder (a : StoredAttr) (c : I32) :
    o.shows { a with corder := c } = (o.shows a).map fun u => { u with corder := c } := by
  unfold shows
  split
  · rw [Option.map_map]
    rfl
  · rfl

theorem corder_of_shows {a u : StoredAttr} (h : o.shows a = some u) : a.corder = u.corder := by
  unfold shows at h
  split at h
  · obtain ⟨name, -, rfl⟩ := Option.map_eq_some_iff.mp h
    rfl
  · rw [Option.some.inj h]

/-- What is valid of the information about an attribute is that of the user's attribute: it is the same one, and a
tracked creation order has not been lowered. -/
theorem shows_valid_iff {a u : StoredAttr} (ha : a ∈ o.stored) (hu : u ∈ o.users) :
    o.shows (o.valid { a with corder := a.corder - BitVec.ofNat 32 h.skip }) = some (o.valid u) ↔
      o.shows a = some u ∧ (o.tracked → h.skip = 0) := by
  have hzero : a.corder - BitVec.ofNat 32 h.skip = a.corder ↔ h.skip = 0 := by
    cases h <;> simp [HandleType.skip]
  have hvalid : ∀ c, o.valid { a with corder := c } = { a with corder := if o.tracked then c else 0 } := by
    intro c
    unfold valid
    split <;> rfl
  have huvalid : o.valid u = { u with corder := if o.tracked then u.corder else 0 } := by
    unfold valid
    split <;> rfl
  rw [hvalid, shows_corder, huvalid]
  constructor
  · intro heq
    obtain ⟨v, hv, hvu⟩ := Option.map_eq_some_iff.mp heq
    obtain ⟨hname, hcorder⟩ := StoredAttr.mk.inj hvu
    -- An internal attribute is shown as nothing, so the one that is shown is a user's.
    have hvmem : v ∈ o.users := by
      rcases List.mem_append.mp ha with ha | ha
      · rw [o.shows_internal ha] at hv
        exact nomatch hv
      · obtain ⟨w, hw, rfl⟩ := List.mem_map.mp ha
        rw [shows_store] at hv
        exact Option.some.inj hv ▸ hw
    obtain rfl := o.user_ext hvmem hu hname
    refine ⟨hv, fun htracked => hzero.mp ?_⟩
    rw [if_pos htracked, if_pos htracked] at hcorder
    rw [hcorder, o.corder_of_shows hv]
  · rintro ⟨hshows, htracked⟩
    rw [hshows, Option.map_some]
    congr 2
    split
    · rename_i h
      rw [hzero.mpr (htracked h), o.corder_of_shows hshows]
    · rfl

theorem info_agrees_iff (n : HSize) : o.Agrees ix h (.info t ord n) ↔ o.Right ix h (.info t ord n) := by
  simp only [Agrees, attrGetInfo, Right, Option.map_map]
  split
  · rename_i hn
    obtain ⟨u, hu⟩ : ∃ u, (o.delivered ix t ord)[n.toNat]? = some u :=
      ⟨_, List.getElem?_eq_getElem (by rw [delivered_length]; exact hn)⟩
    have hshown := o.shown_iff ix t ord hn (p := h.seat ord n)
    rw [hu, Option.map_some] at hshown ⊢
    rw [o.attrGet_found ix h t ord _ hn, o.found_iff ix h t ord hn, ← hshown, and_assoc]
    refine and_congr_right fun _ => ?_
    rcases hget : (ix.order t ord o.stored)[h.seat ord n]? with _ | a
    · simp
    · have ha : a ∈ o.stored := (ix.perm t ord o.stored).mem_iff.mp (List.mem_of_getElem? hget)
      simp only [Option.map_some, Function.comp_apply, Option.some.injEq]
      exact o.shows_valid_iff h ha (o.mem_users_of_delivered ix t ord hu)
  · rename_i hn
    have hnone : (o.delivered ix t ord)[n.toNat]? = none :=
      List.getElem?_eq_none (by rw [delivered_length]; exact not_lt.mp hn)
    rw [hnone, Option.map_none]
    exact o.attrGet_missed ix h t ord _ n

/-- A user's attribute is stored under the name the user knows it by, unless that begins with an underscore. -/
theorem store_name_iff (u : StoredAttr) : (o.store u).name = u.name ↔ (o.log → charAt u.name 0 ≠ '_') := by
  unfold store
  split
  · rename_i hlog
    constructor
    · intro hname _ hunder
      rcases hu : u.name with _ | ⟨c, s⟩
      · rw [hu] at hunder
        exact absurd hunder (by decide)
      · rw [hu] at hunder hname
        obtain rfl : c = '_' := hunder
        exact absurd (congrArg List.length hname) (by simp [escape])
    · exact fun hname => escape_of_ne (hname hlog)
  · rename_i hlog
    exact iff_of_true rfl fun hlog' => absurd hlog' hlog

theorem name_agrees_iff (n : HSize) : o.Agrees ix h (.name t ord n) ↔ o.Right ix h (.name t ord n) := by
  simp only [Agrees, attrGetName, Right]
  split
  · rename_i hn
    obtain ⟨u, hu⟩ : ∃ u, (o.delivered ix t ord)[n.toNat]? = some u :=
      ⟨_, List.getElem?_eq_getElem (by rw [delivered_length]; exact hn)⟩
    have hshown := o.shown_iff ix t ord hn (p := h.seat ord n)
    rw [hu, Option.map_some] at hshown ⊢
    rw [o.attrGet_found ix h t ord _ hn, o.found_iff ix h t ord hn, ← hshown, Namesake, hu]
    constructor
    · rintro ⟨hbound, hname⟩
      obtain ⟨a, ha, hname⟩ := Option.map_eq_some_iff.mp hname
      have hstored : a ∈ o.stored := (ix.perm t ord o.stored).mem_iff.mp (List.mem_of_getElem? ha)
      -- It is the attribute asked for, or another one that is stored under its name.
      by_cases hsame : o.shows a = some u
      · obtain rfl := o.eq_store hstored hsame
        refine Or.inl ⟨⟨hbound, by rw [ha, Option.map_some, hsame]⟩, fun v hv => ?_⟩
        obtain rfl := Option.some.inj hv
        exact (o.store_name_iff _).mp hname
      · exact Or.inr ⟨fun _ => hbound, a, u, ha, rfl, hsame, hname⟩
    · -- The stored name is the user's unless it begins with an underscore.
      rintro (⟨⟨hbound, hsame⟩, hplain⟩ | ⟨hbound, a, v, ha, hv, -, hname⟩)
      · obtain ⟨a, ha, hsame⟩ := Option.map_eq_some_iff.mp hsame
        have hstored : a ∈ o.stored := (ix.perm t ord o.stored).mem_iff.mp (List.mem_of_getElem? ha)
        obtain rfl := o.eq_store hstored hsame
        refine ⟨hbound, ?_⟩
        rw [ha, Option.map_some, (o.store_name_iff u).mpr (hplain u rfl)]
      · obtain rfl := Option.some.inj hv
        refine ⟨?_, by rw [ha, Option.map_some, hname]⟩
        obtain ⟨hlt, -⟩ := List.getElem?_eq_some_iff.mp ha
        rw [order_length] at hlt
        cases ord
        · rwa [HandleType.seat, if_neg nofun] at hlt
        · exact hbound rfl
  · rename_i hn
    have hnone : (o.delivered ix t ord)[n.toNat]? = none :=
      List.getElem?_eq_none (by rw [delivered_length]; exact not_lt.mp hn)
    rw [hnone, Option.map_none]
    exact o.attrGet_missed ix h t ord _ n

theorem count_agrees_iff : o.Agrees ix h .count ↔ o.Right ix h .count := by
  have hcount := o.count_lt
  have hskip := skip_le h
  have hiff : objectGetNumAttrs o h = BitVec.ofNat 64 o.users.length ↔ o.internal.length = h.skip := by
    rw [objectGetNumAttrs, stored_length, BitVec.ofNat_add, ← BitVec.toNat_inj, BitVec.toNat_sub, BitVec.toNat_add,
      BitVec.toNat_ofNat, BitVec.toNat_ofNat, BitVec.toNat_ofNat]
    omega
  simp only [Agrees, Right, delivered_length, hiff]
  exact ⟨fun hall => hall .name .inc, fun hlen _ _ => hlen⟩

theorem agrees_iff_right (call : AttrCall) : o.Agrees ix h call ↔ o.Right ix h call := by
  cases call with
  | count => exact o.count_agrees_iff ix h
  | «open» t ord n => exact o.open_agrees_iff ix h t ord n
  | name t ord n => exact o.name_agrees_iff ix h t ord n
  | info t ord n => exact o.info_agrees_iff ix h t ord n

theorem skip_eq_zero_iff : h.skip = 0 ↔ h = .group := by
  cases h <;> decide

/-- An attribute that is asked for behind the last one is not found, and an index that was raised stays so. -/
theorem skip_eq_zero_of_agrees (hall : ∀ call, o.Agrees ix h call) : h.skip = 0 := by
  have hlen : o.internal.length = h.skip := (o.count_agrees_iff ix h).mp (hall .count)
  have hcount := o.count_lt
  have htoNat : (BitVec.ofNat 64 o.stored.length).toNat = o.stored.length := by
    rw [BitVec.toNat_ofNat, stored_length, Nat.mod_eq_of_lt (by omega)]
  have hright := (o.open_agrees_iff ix h .name .inc _).mp (hall (.open .name .inc (BitVec.ofNat 64 o.stored.length)))
  simp only [Right, htoNat] at hright
  split at hright
  · rw [if_neg (by rw [stored_length]; omega)] at hright
    exact hright.1
  · rename_i hlog
    rw [← hlen, o.internal_regular hlog]
    rfl

/-- Where all calls agree no name is escaped. -/
theorem plain_of_agrees (hall : ∀ call, o.Agrees ix h call) (hinternal : o.internal = []) {u : StoredAttr}
    (hu : u ∈ o.users) : o.log → charAt u.name 0 ≠ '_' := by
  have hskip := o.skip_eq_zero_of_agrees ix h hall
  obtain ⟨i, hi⟩ := List.getElem?_of_mem ((o.delivered_perm ix .name .inc).mem_iff.mpr hu)
  obtain ⟨hlt, -⟩ := List.getElem?_eq_some_iff.mp hi
  rw [delivered_length] at hlt
  have hcount := o.count_lt
  have htoNat : (BitVec.ofNat 64 i).toNat = i := by
    rw [BitVec.toNat_ofNat, Nat.mod_eq_of_lt (by omega)]
  have hright := (o.name_agrees_iff ix h .name .inc _).mp (hall (.name .name .inc (BitVec.ofNat 64 i)))
  simp only [Right, htoNat, if_pos hlt] at hright
  rcases hright with ⟨-, hplain⟩ | ⟨-, a, v, ha, hv, hne, -⟩
  · exact hplain u hi
  · -- nothing is ahead, so the call comes to the user's attribute itself
    have hseat : h.seat .inc (BitVec.ofNat 64 i) =
        (BitVec.ofNat 64 i).toNat + o.ahead ix .name .inc (BitVec.ofNat 64 i) := by
      rw [o.ahead_eq_zero ix .name .inc hinternal, HandleType.seat, if_neg nofun, hskip]
    have hshown := (o.shown_iff ix .name .inc (htoNat.symm ▸ hlt)).mpr hseat
    rw [ha, hv, Option.map_some, Option.map_some, Option.some.injEq] at hshown
    exact absurd hshown hne

theorem right_of_nothing_hidden (hskip : h.skip = 0) (hinternal : o.internal = [])
    (hplain : ∀ u ∈ o.users, o.log → charAt u.name 0 ≠ '_') (call : AttrCall) : o.Right ix h call := by
  have hahead := fun t ord n => o.ahead_eq_zero ix t ord hinternal n
  have hlength : o.stored.length = o.users.length := by
    rw [stored_length, hinternal, List.length_nil, Nat.zero_add]
  have hfound : ∀ t ord (n : HSize), n.toNat < o.users.length → o.Found ix h t n ord := by
    intro t ord n hn
    rw [o.found_iff ix h t ord hn, hahead, HandleType.seat, hskip, hlength]
    exact ⟨hn, ite_self _⟩
  have hmissed : ∀ ord (n : HSize), ¬ n.toNat < o.users.length → o.Missed h n ord := by
    intro ord n hn
    have hle : o.stored.length ≤ n.toNat := hlength ▸ not_lt.mp hn
    cases ord
    · exact ⟨hskip, hle⟩
    · exact ⟨hle, Or.inl hskip⟩
  cases call with
  | count => rw [Right, hinternal, hskip, List.length_nil]
  | «open» t ord n =>
      simp only [Right, hskip, hahead, true_and, true_or]
      split
      · split
        · trivial
        · rename_i hn
          exact hlength ▸ not_lt.mp hn
      · trivial
  | name t ord n =>
      simp only [Right]
      split
      · rename_i hn
        exact Or.inl ⟨hfound t ord n hn, fun u hu => hplain u (o.mem_users_of_delivered ix t ord hu)⟩
      · rename_i hn
        exact hmissed ord n hn
  | info t ord n =>
      simp only [Right]
      split
      · rename_i hn
        exact ⟨hfound t ord n hn, fun _ => hskip⟩
      · rename_i hn
        exact hmissed ord n hn

/-- All calls about an object agree when none of its attributes is the connector's, the handle is that of a group,
and no name is escaped. -/
theorem agrees_all_iff :
    (∀ call, o.Agrees ix h call) ↔
      h = .group ∧ o.internal = [] ∧ ∀ u ∈ o.users, o.log → charAt u.name 0 ≠ '_' := by
  constructor
  · intro hall
    have hskip := o.skip_eq_zero_of_agrees ix h hall
    have hlen : o.internal.length = h.skip := (o.count_agrees_iff ix h).mp (hall .count)
    have hinternal : o.internal = [] := List.length_eq_zero_iff.mp (hlen.trans hskip)
    exact ⟨(skip_eq_zero_iff h).mp hskip, hinternal, fun u hu => o.plain_of_agrees ix h hall hinternal hu⟩
  · rintro ⟨hgroup, hinternal, hplain⟩ call
    rw [agrees_iff_right]
    exact o.right_of_nothing_hidden ix h ((skip_eq_zero_iff h).mpr hgroup) hinternal hplain call

end AttrObject

/-- **A call about the attributes of an object answers as the iteration does, and leaves the index as it was**, exactly
when it is right; all calls do only when there is nothing to hide. -/
theorem attributes_agree_iff (o : AttrObject) (ix : AttrIndex) (h : HandleType) :
    (∀ call, o.Agrees ix h call ↔ o.Right ix h call) ∧
      ((∀ call, o.Agrees ix h call) ↔
        h = .group ∧ o.internal = [] ∧ ∀ u ∈ o.users, o.log → charAt u.name 0 ≠ '_') :=
  ⟨o.agrees_iff_right ix h, o.agrees_all_iff ix h⟩

/-! ### A file with an attribute `A`. -/

/-- Attributes sorted by name or by creation order. -/
def sortAttrs : IndexType → List StoredAttr → List StoredAttr
  | .name, attrs => attrs.insertionSort fun a b => a.name ≤ b.name
  | .crtOrder, attrs => attrs.insertionSort fun a b => a.corder ≤ b.corder

def orderAttrs (t : IndexType) : IterOrder → List StoredAttr → List StoredAttr
  | .inc, attrs => sortAttrs t attrs
  | .dec, attrs => (sortAttrs t attrs).reverse

theorem sortAttrs_perm (t : IndexType) (attrs : List StoredAttr) : (sortAttrs t attrs).Perm attrs := by
  cases t
  · exact List.perm_insertionSort _ attrs
  · exact List.perm_insertionSort _ attrs

theorem orderAttrs_perm (t : IndexType) (ord : IterOrder) (attrs : List StoredAttr) :
    (orderAttrs t ord attrs).Perm attrs := by
  cases ord
  · exact sortAttrs_perm t attrs
  · exact (List.reverse_perm _).trans (sortAttrs_perm t attrs)

def sortedIndex : AttrIndex := ⟨orderAttrs, orderAttrs_perm⟩

def intAttr : StoredAttr := ⟨['_', 'i', 'n', 't', '_', 'a', 't', 't'], 0⟩

def attrA : StoredAttr := ⟨['A'], 1⟩

theorem fileWithA_names : [intAttr].map StoredAttr.name = if true then AttrOwner.root.internalNames else [] := rfl

theorem fileWithA_nodup : ([attrA].map StoredAttr.name).Nodup := List.nodup_singleton _

theorem fileWithA_count : [intAttr].length + [attrA].length < 2 ^ 63 := by decide

/-- The root group of a log file. -/
def fileWithA : AttrObject where
  log := true
  owner := .root
  tracked := true
  internal := [intAttr]
  users := [attrA]
  internal_names := fileWithA_names
  users_nodup := fileWithA_nodup
  count_lt := fileWithA_count

/-- By name, `A` comes first and the connector's attribute second: attribute 0 of the file is opened as `_int_att`. -/
theorem not_agrees_fileWithA : ¬ fileWithA.Agrees sortedIndex .file (.open .name .inc 0) := by
  intro hagrees
  have hahead : fileWithA.ahead sortedIndex .name .inc 0 = 0 := by decide
  have hright : fileWithA.ahead sortedIndex .name .inc 0 = 1 :=
    (fileWithA.open_agrees_iff sortedIndex .file .name .inc 0).mp hagrees
  exact Nat.zero_ne_one (hahead.symm.trans hright)

end LogVol
