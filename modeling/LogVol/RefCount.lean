/-
# LogVol.RefCount — the reference count of an open file.

A file is closed by whoever gives back the last reference to it. Every `H5VL_log_obj_t` takes one when it is
built and returns it when it is deleted; a reopened file takes one, and a handle returns it when it is closed.
`OpenFile.step` is one call on the file, with what the calls below it return given. `Excess d` says how far
the count is ahead of what the program holds in the middle of a call, and `refCount_iff` which runs keep it
level.
-/
import LogVol.Base

namespace LogVol

/-! ## §1 — the file and its count. -/

/-- `H5I_type_t`, as far as the connector tells the types apart. -/
inductive ObjKind
  | dataset | group | attr | datatype | file | other
  deriving DecidableEq, Repr

/-- An open file: `is_log_based_file` and `refcnt`, with the handles and the objects the program holds and has
not given back, and how often `H5VL_log_filei_close` ran. -/
structure OpenFile where
  logBased : Bool
  refcnt : ℤ
  handles : ℕ
  objs : List ObjKind
  closes : ℕ
  deriving DecidableEq, Repr

namespace OpenFile

/-- What the program holds. -/
def held (s : OpenFile) : ℕ := s.handles + s.objs.length

/-- `H5VL_log_file_t ()`: a file that was just created or opened. -/
def opened (logBased : Bool) : OpenFile := ⟨logBased, 1, 1, [], 0⟩

/-- `INT_MAX`. -/
def maxRef : ℕ := 2 ^ 31 - 1

/-- `H5VL_log_filei_inc_ref`. The count is an `int`, whose overflow is not defined. -/
def incRef (s : OpenFile) : Except Fault OpenFile :=
  if s.refcnt < maxRef then .ok { s with refcnt := s.refcnt + 1 } else .error .outside

/-- `H5VL_log_filei_dec_ref`. -/
def decRef (s : OpenFile) : OpenFile :=
  if s.refcnt - 1 = 0 then { s with refcnt := 0, closes := s.closes + 1 }
  else { s with refcnt := s.refcnt - 1 }

/-- The program gets an object. -/
def give (k : ObjKind) (s : OpenFile) : OpenFile := { s with objs := s.objs ++ [k] }

/-- The program gives an object back. -/
def take (i : ℕ) (s : OpenFile) : OpenFile := { s with objs := s.objs.eraseIdx i }

/-! ## §2 — the calls. -/

/-- **Calls that build their object first.** The arguments are checked, the object is built, and is deleted
again if what follows fails. -/
def makeObj (k : ObjKind) (args made : Bool) (s : OpenFile) : Except Fault OpenFile :=
  if args then do
    let s ← s.incRef
    pure (if made then s.give k else s.decRef)
  else .ok s

/-- `H5VL_log_dataset_create`: a name that cannot be escaped or a type of variable length fails the check. -/
def datasetCreate := makeObj .dataset
/-- `H5VL_log_group_create`. -/
def groupCreate := makeObj .group
/-- `H5VL_log_group_open`. -/
def groupOpen := makeObj .group
/-- `H5VL_log_attr_create`. -/
def attrCreate := makeObj .attr
/-- `H5VL_log_attr_open`. -/
def attrOpen := makeObj .attr
/-- `H5VL_log_datatype_commit`. -/
def datatypeCommit := makeObj .datatype
/-- `H5VL_log_datatype_open`. -/
def datatypeOpen := makeObj .datatype

/-- `H5VL_log_dataseti_open`: a `unique_ptr` deletes the object when its attributes cannot be read, which a
regular file does not have. -/
def datasetiOpen (attrs : Bool) (s : OpenFile) : Except Fault OpenFile := do
  let s ← s.incRef
  pure (if !s.logBased || attrs then s.give .dataset else s.decRef)

/-- `H5VL_log_dataset_open`. In a regular file the object is built before the dataset is opened, and its
pointer is lost with the scope when that fails. -/
def datasetOpen (name under attrs : Bool) (s : OpenFile) : Except Fault OpenFile :=
  if s.logBased then
    if name && under then s.datasetiOpen attrs else .ok s
  else do
    let s ← s.incRef
    pure (if under then s.give .dataset else s)

/-- `H5VL_log_object_open`: the object is opened first, and `opened_type` says what it is. -/
def objectOpen (k : ObjKind) (under attrs : Bool) (s : OpenFile) : Except Fault OpenFile :=
  if under then
    if s.logBased && k == .dataset then s.datasetiOpen attrs else do
      let s ← s.incRef
      pure (s.give k)
  else .ok s

/-- `H5VL_log_wrap_object`. A wrapped file of a log-based file is the file itself, `H5VL_log_filei_wrap` does
not count it. -/
def wrapObject (k : ObjKind) (under attrs : Bool) (s : OpenFile) : Except Fault OpenFile :=
  if !s.logBased then do
    let s ← s.incRef
    pure (s.give k)
  else if under then
    match k with
    | .dataset => s.datasetiOpen attrs
    | .file => .ok { s with handles := s.handles + 1 }
    | k => do
        let s ← s.incRef
        pure (s.give k)
  else .ok s

/-- `H5VL_log_unwrap_object`, of an object that is not the file. -/
def unwrapObject (i : ℕ) (s : OpenFile) : OpenFile := (s.take i).decRef

/-- `H5VL_log_dataset_close`, `_group_close`, `_attr_close` and `_datatype_close`: the object is deleted if the
one below it could be closed. -/
def closeObj (i : ℕ) (under : Bool) (s : OpenFile) : OpenFile :=
  if under then (s.take i).decRef else s

/-- `H5VL_log_file_specific` with `H5VL_FILE_REOPEN`. -/
def reopen (s : OpenFile) : Except Fault OpenFile := do
  let s ← s.incRef
  pure { s with handles := s.handles + 1 }

/-- `H5VL_log_file_close`. -/
def fileClose (s : OpenFile) : OpenFile := { s with handles := s.handles - 1 }.decRef

end OpenFile

/-- The calls that build their object first. -/
inductive MakeCall
  | datasetCreate | groupCreate | groupOpen | attrCreate | attrOpen | datatypeCommit | datatypeOpen
  deriving DecidableEq, Repr

def MakeCall.run : MakeCall → Bool → Bool → OpenFile → Except Fault OpenFile
  | .datasetCreate => OpenFile.datasetCreate
  | .groupCreate => OpenFile.groupCreate
  | .groupOpen => OpenFile.groupOpen
  | .attrCreate => OpenFile.attrCreate
  | .attrOpen => OpenFile.attrOpen
  | .datatypeCommit => OpenFile.datatypeCommit
  | .datatypeOpen => OpenFile.datatypeOpen

/-- The calls on one open file, each with what the calls below it return. -/
inductive FileOp
  | make (c : MakeCall) (args made : Bool)
  | datasetOpen (name under attrs : Bool)
  | objectOpen (k : ObjKind) (under attrs : Bool)
  | wrap (k : ObjKind) (under attrs : Bool)
  | unwrap (i : ℕ)
  | close (i : ℕ) (under : Bool)
  | reopen
  | fileClose
  | wrappedFile (i : ℕ)
  deriving DecidableEq, Repr

namespace OpenFile

/-- **One call.** Whatever is called after `H5VL_log_filei_close` uses a file that is gone. The wrapped file
of a regular file is an `H5VL_log_obj_t`, which `H5VL_log_file_close` and `_specific` use as a larger
`H5VL_log_file_t`. -/
def step (s : OpenFile) (op : FileOp) : Except Fault OpenFile :=
  if s.closes ≠ 0 then .error .outside
  else match op with
    | .make c args made => c.run args made s
    | .datasetOpen name under attrs => s.datasetOpen name under attrs
    | .objectOpen k under attrs => s.objectOpen k under attrs
    | .wrap k under attrs => s.wrapObject k under attrs
    | .unwrap i => .ok (s.unwrapObject i)
    | .close i under => .ok (s.closeObj i under)
    | .reopen => s.reopen
    | .fileClose => .ok s.fileClose
    | .wrappedFile _ => .error .outside

/-- The program passes what it holds: an object or a handle to the calls that make something, the object that
is closed, a handle of the file that is reopened or closed. -/
def Holds (s : OpenFile) : FileOp → Prop
  | .make .. | .datasetOpen .. | .objectOpen .. | .wrap .. => 0 < s.held
  | .unwrap i => i < s.objs.length
  | .close i _ => ∃ k ∈ s.objs[i]?, k ≠ .file
  | .reopen | .fileClose => 0 < s.handles
  | .wrappedFile i => s.logBased = false ∧ s.objs[i]? = some .file

/-- **`Counted`** — the count is what the program holds, and the file was closed if that is nothing. -/
structure Counted (s : OpenFile) : Prop where
  refcnt : s.refcnt = s.held
  closes : s.closes = if s.held = 0 then 1 else 0

/-- Every call of a run passes what the program then holds. -/
def RunHolds : OpenFile → List FileOp → Prop
  | _, [] => True
  | s, op :: ops => s.Holds op ∧ ∀ s', s.step op = .ok s' → RunHolds s' ops

/-- No call of a run goes wrong, and every state is counted. -/
def RunCounted : OpenFile → List FileOp → Prop
  | s, [] => s.Counted
  | s, op :: ops => s.Counted ∧ ∃ s', s.step op = .ok s' ∧ RunCounted s' ops

end OpenFile

/-! ## §3 — balanced calls. -/

/-- The call builds an object or reopens the file. -/
def FileOp.builds (logBased : Bool) : FileOp → Bool
  | .make _ args _ => args
  | .datasetOpen name under _ => !logBased || (name && under)
  | .objectOpen _ under _ => under
  | .wrap k under _ => !logBased || (under && k != .file)
  | .reopen => true
  | _ => false

/-- The call is not one of three: a dataset of a regular file that fails to open, the file of a log-based file
that is wrapped, a wrapped file of a regular file that is used. -/
def FileOp.balanced (logBased : Bool) : FileOp → Bool
  | .datasetOpen _ under _ => logBased || under
  | .wrap k under _ => !(logBased && under && k == .file)
  | .wrappedFile _ => false
  | _ => true

/-- **`Sound`** — a balanced call, made while the count can still grow if it builds something. -/
structure FileOp.Sound (s : OpenFile) (op : FileOp) : Prop where
  balanced : op.balanced s.logBased
  room : op.builds s.logBased → s.held < OpenFile.maxRef

/-- Every call of a run is sound where it is made. -/
def RunSound : OpenFile → List FileOp → Prop
  | _, [] => True
  | s, op :: ops => op.Sound s ∧ ∀ s', s.step op = .ok s' → RunSound s' ops

namespace OpenFile

@[simp] theorem held_give (k : ObjKind) (s : OpenFile) : (s.give k).held = s.held + 1 := by
  simp [give, held, Nat.add_assoc]

theorem held_take {s : OpenFile} {i : ℕ} (h : i < s.objs.length) : (s.take i).held + 1 = s.held := by
  simp only [take, held, List.length_eraseIdx_of_lt h]
  omega

/-- The file is open, and the count is `d` more than the program holds. -/
structure Excess (d : ℤ) (s : OpenFile) : Prop where
  refcnt : s.refcnt = s.held + d
  isOpen : s.closes = 0

theorem Counted.excess {s : OpenFile} (h : s.Counted) (hs : 0 < s.held) : s.Excess 0 where
  refcnt := by simpa using h.refcnt
  isOpen := by simpa [hs.ne'] using h.closes

theorem Excess.counted {s : OpenFile} (h : s.Excess 0) (hs : 0 < s.held) : s.Counted where
  refcnt := by simpa using h.refcnt
  closes := by simpa [hs.ne'] using h.isOpen

/-- An open file that is counted is held. -/
theorem Counted.held_pos {s : OpenFile} (h : s.Counted) (ho : s.closes = 0) : 0 < s.held := by
  by_contra hs
  have hz : s.held = 0 := by omega
  have hc := h.closes
  simp [hz, ho] at hc

/-- A count that is off by something is not counted. -/
theorem Excess.not_counted {s : OpenFile} {d : ℤ} (h : s.Excess d) (hd : d ≠ 0) : ¬ s.Counted := by
  intro hc
  have h1 := h.refcnt
  rw [hc.refcnt] at h1
  omega

/-! ## §4 — what the steps of a call do to the excess. -/

/-- **Taking a reference** puts the count one ahead, if there is room. -/
theorem Excess.incRef {s : OpenFile} (h : s.Excess 0) (hr : s.held < maxRef) :
    ∃ t, s.incRef = .ok t ∧ t.Excess 1 ∧ t.held = s.held ∧ t.logBased = s.logBased := by
  have hlt : s.refcnt < maxRef := by
    rw [h.refcnt]
    omega
  refine ⟨{ s with refcnt := s.refcnt + 1 }, by simp [OpenFile.incRef, hlt], ⟨?_, h.isOpen⟩, rfl, rfl⟩
  show s.refcnt + 1 = s.held + 1
  simp [h.refcnt]

/-- Without room the count overflows. -/
theorem Excess.incRef_full {s : OpenFile} (h : s.Excess 0) (hr : ¬ s.held < maxRef) :
    s.incRef = .error .outside := by
  have hge : ¬ s.refcnt < maxRef := by
    rw [h.refcnt]
    omega
  simp [OpenFile.incRef, hge]

theorem Excess.give {s : OpenFile} (h : s.Excess 1) (k : ObjKind) : (s.give k).Excess 0 := by
  refine ⟨?_, h.isOpen⟩
  show s.refcnt = (s.give k).held + 0
  rw [h.refcnt, held_give]
  push_cast
  ring

theorem Excess.take {s : OpenFile} (h : s.Excess 0) {i : ℕ} (hi : i < s.objs.length) :
    (s.take i).Excess 1 := by
  refine ⟨?_, h.isOpen⟩
  show s.refcnt = (s.take i).held + 1
  rw [h.refcnt, ← held_take hi]
  push_cast
  ring

/-- **Giving a reference back** levels the count, and closes the file if nothing is held. -/
theorem Excess.decRef {s : OpenFile} (h : s.Excess 1) : s.decRef.Counted := by
  have hr : s.refcnt - 1 = s.held := by
    have h1 := h.refcnt
    omega
  unfold OpenFile.decRef
  rw [hr]
  by_cases hz : s.held = 0
  · rw [if_pos (by exact_mod_cast hz)]
    refine ⟨?_, ?_⟩
    · show (0 : ℤ) = s.held
      simp [hz]
    · show s.closes + 1 = if s.held = 0 then 1 else 0
      simp [hz, h.isOpen]
  · rw [if_neg (by exact_mod_cast hz)]
    refine ⟨rfl, ?_⟩
    show s.closes = if s.held = 0 then 1 else 0
    simp [hz, h.isOpen]

end OpenFile

namespace OpenFile

/-- **A call that takes a reference** is counted if what it does with it levels the count. -/
theorem Excess.incRef_bind {s : OpenFile} (h : s.Excess 0) (hs : 0 < s.held) (hr : s.held < maxRef)
    {f : OpenFile → OpenFile}
    (hf : ∀ t, t.Excess 1 → 0 < t.held → t.logBased = s.logBased → (f t).Counted) :
    ∃ s', (do let t ← s.incRef; pure (f t)) = .ok s' ∧ s'.Counted := by
  obtain ⟨t, ht, he, hh, hl⟩ := h.incRef hr
  refine ⟨f t, by rw [ht]; rfl, ?_⟩
  apply hf t he
  · rwa [hh]
  · exact hl

theorem Excess.give_counted {s : OpenFile} (h : s.Excess 1) (k : ObjKind) : (s.give k).Counted := by
  apply (h.give k).counted
  simp

/-! ## §5 — one call. -/

theorem makeObj_counted {s : OpenFile} (h : s.Excess 0) (hs : 0 < s.held) (k : ObjKind) (args made : Bool)
    (hr : args → s.held < maxRef) : ∃ s', makeObj k args made s = .ok s' ∧ s'.Counted := by
  cases args with
  | false => exact ⟨s, rfl, h.counted hs⟩
  | true =>
    refine h.incRef_bind hs (hr rfl) ?_
    intro t ht _ _
    cases made with
    | false => exact ht.decRef
    | true => exact ht.give_counted k

theorem datasetiOpen_counted {s : OpenFile} (h : s.Excess 0) (hs : 0 < s.held) (attrs : Bool)
    (hr : s.held < maxRef) : ∃ s', s.datasetiOpen attrs = .ok s' ∧ s'.Counted := by
  refine h.incRef_bind hs hr (f := fun t => if !t.logBased || attrs then t.give .dataset else t.decRef) ?_
  intro t ht _ _
  by_cases hc : (!t.logBased || attrs) = true
  · simp only [hc, if_true]
    exact ht.give_counted .dataset
  · simp only [hc]
    exact ht.decRef

/-- Building and handing out an object. -/
theorem build_counted {s : OpenFile} (h : s.Excess 0) (hs : 0 < s.held) (k : ObjKind)
    (hr : s.held < maxRef) : ∃ s', (do let t ← s.incRef; pure (t.give k)) = .ok s' ∧ s'.Counted :=
  h.incRef_bind hs hr fun _ ht _ _ => ht.give_counted k

theorem datasetOpen_counted {s : OpenFile} (h : s.Excess 0) (hs : 0 < s.held) (name under attrs : Bool)
    (hr : !s.logBased || (name && under) → s.held < maxRef) (hb : s.logBased || under) :
    ∃ s', s.datasetOpen name under attrs = .ok s' ∧ s'.Counted := by
  unfold datasetOpen
  cases hl : s.logBased with
  | true =>
    rw [if_pos rfl]
    by_cases hn : (name && under) = true
    · rw [if_pos hn]
      exact datasetiOpen_counted h hs attrs (hr (by simp [hn]))
    · rw [if_neg hn]
      exact ⟨s, rfl, h.counted hs⟩
  | false =>
    have hu : under = true := by simpa [hl] using hb
    subst hu
    exact build_counted h hs .dataset (hr (by simp [hl]))

theorem objectOpen_counted {s : OpenFile} (h : s.Excess 0) (hs : 0 < s.held) (k : ObjKind)
    (under attrs : Bool) (hr : under → s.held < maxRef) :
    ∃ s', s.objectOpen k under attrs = .ok s' ∧ s'.Counted := by
  unfold objectOpen
  cases under with
  | false => exact ⟨s, rfl, h.counted hs⟩
  | true =>
    rw [if_pos rfl]
    by_cases hd : (s.logBased && k == .dataset) = true
    · rw [if_pos hd]
      exact datasetiOpen_counted h hs attrs (hr rfl)
    · rw [if_neg hd]
      exact build_counted h hs k (hr rfl)

theorem wrapObject_counted {s : OpenFile} (h : s.Excess 0) (hs : 0 < s.held) (k : ObjKind)
    (under attrs : Bool) (hr : !s.logBased || (under && k != .file) → s.held < maxRef)
    (hb : !(s.logBased && under && k == .file)) :
    ∃ s', s.wrapObject k under attrs = .ok s' ∧ s'.Counted := by
  unfold wrapObject
  cases hl : s.logBased with
  | false => exact build_counted h hs k (hr (by simp [hl]))
  | true =>
    cases under with
    | false => exact ⟨s, rfl, h.counted hs⟩
    | true =>
      have hk : k ≠ .file := by simpa [hl] using hb
      have hroom : s.held < maxRef := hr (by simp [hk])
      cases k with
      | file => exact absurd rfl hk
      | dataset => exact datasetiOpen_counted h hs attrs hroom
      | group | attr | datatype | other => exact build_counted h hs _ hroom

theorem take_counted {s : OpenFile} (h : s.Excess 0) {i : ℕ} (hi : i < s.objs.length) :
    (s.take i).decRef.Counted :=
  (h.take hi).decRef

theorem reopen_counted {s : OpenFile} (h : s.Excess 0) (hs : 0 < s.held) (hr : s.held < maxRef) :
    ∃ s', s.reopen = .ok s' ∧ s'.Counted := by
  refine h.incRef_bind hs hr (f := fun t => { t with handles := t.handles + 1 }) ?_
  intro t ht _ _
  refine Excess.counted ⟨?_, ht.isOpen⟩ ?_
  · show t.refcnt = (t.handles + 1 + t.objs.length : ℕ) + 0
    rw [ht.refcnt]
    simp only [held]
    push_cast
    ring
  · show 0 < t.handles + 1 + t.objs.length
    omega

theorem fileClose_counted {s : OpenFile} (h : s.Excess 0) (hh : 0 < s.handles) : s.fileClose.Counted := by
  apply Excess.decRef
  refine ⟨?_, h.isOpen⟩
  show s.refcnt = (_ : ℕ) + 1
  rw [h.refcnt]
  simp only [held]
  push_cast [Nat.cast_sub (show 1 ≤ s.handles by omega)]
  ring

/-- **A sound call** of a counted file leaves it counted. -/
theorem step_counted {s : OpenFile} {op : FileOp} (h : s.Counted) (ho : s.closes = 0) (hh : s.Holds op)
    (hs : op.Sound s) : ∃ s', s.step op = .ok s' ∧ s'.Counted := by
  have hp := h.held_pos ho
  have he := h.excess hp
  simp only [step, ho, ne_eq, not_true, if_false]
  cases op with
  | make c args made => cases c <;> exact makeObj_counted he hp _ args made hs.room
  | datasetOpen name under attrs => exact datasetOpen_counted he hp name under attrs hs.room hs.balanced
  | objectOpen k under attrs => exact objectOpen_counted he hp k under attrs hs.room
  | wrap k under attrs => exact wrapObject_counted he hp k under attrs hs.room hs.balanced
  | unwrap i => exact ⟨_, rfl, take_counted he hh⟩
  | close i under =>
    obtain ⟨k, hk, -⟩ := hh
    obtain ⟨hi, -⟩ := List.getElem?_eq_some_iff.mp hk
    cases under with
    | false => exact ⟨_, rfl, h⟩
    | true => exact ⟨_, rfl, take_counted he hi⟩
  | reopen => exact reopen_counted he hp (hs.room rfl)
  | fileClose => exact ⟨_, rfl, fileClose_counted he hh⟩
  | wrappedFile i => exact absurd hs.balanced (by simp [FileOp.balanced])

/-! ## §6 — the calls that are not sound. -/

/-- A dataset that could not be opened leaves the count one ahead. -/
theorem datasetOpen_lost {s s' : OpenFile} {name attrs : Bool} (h : s.Excess 0) (hl : s.logBased = false)
    (hs : s.datasetOpen name false attrs = .ok s') : s'.Excess 1 := by
  by_cases hr : s.held < maxRef
  · obtain ⟨t, ht, he, -, -⟩ := h.incRef hr
    simp [datasetOpen, hl, ht, bind, Except.bind, pure, Except.pure] at hs
    rwa [← hs]
  · simp [datasetOpen, hl, h.incRef_full hr, bind, Except.bind] at hs

/-- A wrapped file puts it one behind. -/
theorem wrapObject_file {s s' : OpenFile} {attrs : Bool} (h : s.Excess 0) (hl : s.logBased = true)
    (hs : s.wrapObject .file true attrs = .ok s') : s'.Excess (-1) := by
  simp [wrapObject, hl] at hs
  subst hs
  refine ⟨?_, h.isOpen⟩
  show s.refcnt = (s.handles + 1 + s.objs.length : ℕ) + -1
  rw [h.refcnt]
  simp only [held]
  push_cast
  ring

/-- A call that builds something overflows a full count. -/
theorem step_full {s : OpenFile} {op : FileOp} (h : s.Excess 0) (hb : op.builds s.logBased)
    (hr : ¬ s.held < maxRef) (s' : OpenFile) : s.step op ≠ .ok s' := by
  have hf := h.incRef_full hr
  simp only [step, h.isOpen, ne_eq, not_true, if_false]
  cases op with
  | make c args made =>
    have ha : args = true := hb
    cases c <;> simp [MakeCall.run, datasetCreate, groupCreate, groupOpen, attrCreate, attrOpen,
      datatypeCommit, datatypeOpen, makeObj, ha, hf, bind, Except.bind]
  | datasetOpen name under attrs =>
    cases hl : s.logBased with
    | false => simp [datasetOpen, hl, hf, bind, Except.bind]
    | true =>
      have hn : (name && under) = true := by simpa [FileOp.builds, hl] using hb
      simp [datasetOpen, datasetiOpen, hl, hn, hf, bind, Except.bind]
  | objectOpen k under attrs =>
    have hu : under = true := hb
    by_cases hd : (s.logBased && k == .dataset) = true <;>
      simp [objectOpen, datasetiOpen, hu, hd, hf, bind, Except.bind]
  | wrap k under attrs =>
    cases hl : s.logBased with
    | false => simp [wrapObject, hl, hf, bind, Except.bind]
    | true =>
      have hk : under = true ∧ k ≠ .file := by simpa [FileOp.builds, hl] using hb
      cases k <;> simp_all [wrapObject, datasetiOpen, bind, Except.bind]
  | reopen => simp [OpenFile.reopen, hf, bind, Except.bind]
  | unwrap i | close i under | fileClose | wrappedFile i => exact absurd hb (by simp [FileOp.builds])

theorem step_uncounted {s s' : OpenFile} {op : FileOp} (h : s.Counted) (ho : s.closes = 0)
    (hs : ¬ op.Sound s) (he : s.step op = .ok s') : ¬ s'.Counted := by
  have hx := h.excess (h.held_pos ho)
  by_cases hb : op.balanced s.logBased
  · have hr : op.builds s.logBased ∧ ¬ s.held < maxRef := by
      by_contra hc
      exact hs ⟨hb, fun hbu => by_contra fun hn => hc ⟨hbu, hn⟩⟩
    exact absurd he (step_full hx hr.1 hr.2 s')
  · simp only [step, ho, ne_eq, not_true, if_false] at he
    cases op with
    | datasetOpen name under attrs =>
      obtain ⟨hl, hu⟩ : s.logBased = false ∧ under = false := by simpa [FileOp.balanced] using hb
      subst hu
      exact (datasetOpen_lost hx hl he).not_counted (by decide)
    | wrap k under attrs =>
      obtain ⟨⟨hl, hu⟩, hk⟩ : (s.logBased = true ∧ under = true) ∧ k = .file := by
        simpa [FileOp.balanced] using hb
      subst hu hk
      exact (wrapObject_file hx hl he).not_counted (by decide)
    | wrappedFile i => exact absurd he (by simp)
    | make c args made | objectOpen k under attrs | unwrap i | close i under | reopen | fileClose =>
      exact absurd rfl hb

/-! ## §7 — runs. -/

theorem opened_counted (logBased : Bool) : (opened logBased).Counted := ⟨rfl, rfl⟩

/-- After the file was closed the program holds nothing to call with. -/
theorem Counted.isOpen_of_holds {s : OpenFile} {op : FileOp} (h : s.Counted) (hh : s.Holds op) :
    s.closes = 0 := by
  have hp : 0 < s.held := by
    cases op with
    | make c args made | datasetOpen name under attrs | objectOpen k under attrs | wrap k under attrs =>
      exact hh
    | reopen | fileClose => exact Nat.lt_of_lt_of_le hh (Nat.le_add_right _ _)
    | unwrap i =>
      have hi : i < s.objs.length := hh
      simp only [held]
      omega
    | close i under =>
      obtain ⟨k, hk, -⟩ := hh
      obtain ⟨hi, -⟩ := List.getElem?_eq_some_iff.mp hk
      simp only [held]
      omega
    | wrappedFile i =>
      obtain ⟨hi, -⟩ := List.getElem?_eq_some_iff.mp hh.2
      simp only [held]
      omega
  exact (h.excess hp).isOpen

/-- Induction on the run: a counted file stays counted up to the first call that is not sound, and is not
counted after it. -/
theorem runCounted_iff {s : OpenFile} {ops : List FileOp} (h : s.Counted) (hh : s.RunHolds ops) :
    s.RunCounted ops ↔ RunSound s ops := by
  induction ops generalizing s with
  | nil => exact ⟨fun _ => trivial, fun _ => h⟩
  | cons op ops ih =>
    have ho := h.isOpen_of_holds hh.1
    constructor
    · rintro ⟨-, s', he, hr⟩
      have hc : s'.Counted := by
        cases ops with
        | nil => exact hr
        | cons op' ops => exact hr.1
      refine ⟨?_, ?_⟩
      · by_contra hs
        exact step_uncounted h ho hs he hc
      · intro t ht
        rw [he] at ht
        obtain rfl := Except.ok.inj ht
        exact (ih hc (hh.2 _ he)).mp hr
    · rintro ⟨hs, hrest⟩
      obtain ⟨s', he, hc⟩ := step_counted h ho hh.1 hs
      exact ⟨h, s', he, (ih hc (hh.2 s' he)).mpr (hrest s' he)⟩

end OpenFile

/-- **Reference count of a file.** In a run of calls, each passing what the program then holds, the count is
the number of handles and objects held in every state, and the file is closed when that is nothing and not
otherwise, if and only if every call is balanced and there is room where a reference is taken. -/
theorem refCount_iff (logBased : Bool) (ops : List FileOp) (h : (OpenFile.opened logBased).RunHolds ops) :
    (OpenFile.opened logBased).RunCounted ops ↔ RunSound (OpenFile.opened logBased) ops :=
  OpenFile.runCounted_iff (OpenFile.opened_counted logBased) h

namespace OpenFile

/-- A regular file whose dataset could not be opened, closed. -/
def lostRun : List FileOp := [.datasetOpen true false true, .fileClose]

/-- A dataset is made, the file handle closed, and the file asked from the dataset and closed. -/
def wrappedRun : List FileOp :=
  [.make .datasetCreate true true, .fileClose, .wrap .file true true, .fileClose]

/-- A dataset is made and outlives the file handle. -/
def soundRun : List FileOp := [.make .datasetCreate true true, .reopen, .fileClose, .fileClose, .close 0 true]

end OpenFile

theorem refCount_soundRun : (OpenFile.opened true).RunCounted OpenFile.soundRun := by
  refine (refCount_iff true OpenFile.soundRun ?_).mpr ?_
  · refine ⟨Nat.one_pos, ?_⟩
    rintro _ ⟨⟩
    refine ⟨Nat.one_pos, ?_⟩
    rintro _ ⟨⟩
    refine ⟨Nat.two_pos, ?_⟩
    rintro _ ⟨⟩
    refine ⟨Nat.one_pos, ?_⟩
    rintro _ ⟨⟩
    exact ⟨⟨.dataset, rfl, nofun⟩, fun _ _ => trivial⟩
  · refine ⟨⟨rfl, fun _ => ?_⟩, ?_⟩
    · show 1 < 2 ^ 31 - 1
      norm_num
    rintro _ ⟨⟩
    refine ⟨⟨rfl, fun _ => ?_⟩, ?_⟩
    · show 2 < 2 ^ 31 - 1
      norm_num
    rintro _ ⟨⟩
    refine ⟨⟨rfl, nofun⟩, ?_⟩
    rintro _ ⟨⟩
    refine ⟨⟨rfl, nofun⟩, ?_⟩
    rintro _ ⟨⟩
    exact ⟨⟨rfl, nofun⟩, fun _ _ => trivial⟩

/-- Both runs go through. The regular file is never closed, though nothing of it is held; the log-based file is
closed under the dataset. -/
theorem not_refCount :
    ((OpenFile.opened false).RunHolds OpenFile.lostRun ∧ ¬ (OpenFile.opened false).RunCounted OpenFile.lostRun ∧
      OpenFile.lostRun.foldlM OpenFile.step (OpenFile.opened false) = .ok ⟨false, 1, 0, [], 0⟩) ∧
    ((OpenFile.opened true).RunHolds OpenFile.wrappedRun ∧
      ¬ (OpenFile.opened true).RunCounted OpenFile.wrappedRun ∧
      OpenFile.wrappedRun.foldlM OpenFile.step (OpenFile.opened true) = .ok ⟨true, 0, 0, [.dataset], 1⟩) := by
  refine ⟨⟨?_, ?_, rfl⟩, ⟨?_, ?_, rfl⟩⟩
  · refine ⟨Nat.one_pos, ?_⟩
    rintro _ ⟨⟩
    exact ⟨Nat.one_pos, fun _ _ => trivial⟩
  · rintro ⟨-, _, ⟨⟩, h, -⟩
    exact absurd h.refcnt (by decide)
  · refine ⟨Nat.one_pos, ?_⟩
    rintro _ ⟨⟩
    refine ⟨Nat.one_pos, ?_⟩
    rintro _ ⟨⟩
    refine ⟨Nat.one_pos, ?_⟩
    rintro _ ⟨⟩
    exact ⟨Nat.one_pos, fun _ _ => trivial⟩
  · rintro ⟨-, _, ⟨⟩, -, _, ⟨⟩, -, _, ⟨⟩, h, -⟩
    exact absurd h.refcnt (by decide)

end LogVol
