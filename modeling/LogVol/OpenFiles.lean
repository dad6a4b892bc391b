/-
# LogVol.OpenFiles — the table of open files.

The connector refuses to open a file that it has open already. It keeps `files`, from inode numbers to file
objects: `register` enters a file at the end of an open or of the post-open callback of a create, `rm` takes it
out when it is closed, and `search` looks a path up. A file is told from another by its device and its inode
number, and the table has the inode number alone. `Call` is one call of the program, with the step at which it
fails; `exact_run_iff` says in which runs `search` stays exact.
-/
import LogVol.Lib.KeyTable
import LogVol.Base

namespace LogVol

/-- What `stat` tells a file by: `st_dev` and `st_ino`. -/
structure FileId where
  dev : ℕ
  ino : ℕ
  deriving DecidableEq, Repr

variable {P H : Type}

/-! ## §1 — the file objects and the table. -/

/-- `H5VL_log_file_t`: its name, the file that `uo` is open on, the reference count, and the fields of the
table. -/
structure FileObj (P : Type) where
  name : P
  uo : FileId
  refcnt : ℤ
  ino : ℕ
  hasIno : Bool
  deriving DecidableEq, Repr

/-- **The process**: the file a path leads to, the map `files`, and the file objects that are not freed. -/
structure OpenFiles (P H : Type) where
  disk : P → Option FileId
  files : ℕ → Option H
  live : H → Option (FileObj P)

namespace OpenFiles

section Calls

variable [DecidableEq P] [DecidableEq H]

/-- The file that an object that is not freed has open. -/
def holds (s : OpenFiles P H) (h : H) : Option FileId := (s.live h).map FileObj.uo

/-- `H5VL_log_filei_search`. -/
def search (s : OpenFiles P H) (path : P) : Option H := (s.disk path).bind fun st => s.files st.ino

/-- The object `h` is given the content `f`. -/
def put (s : OpenFiles P H) (h : H) (f : Option (FileObj P)) : OpenFiles P H :=
  { s with live := Function.update s.live h f }

/-- The entry of an inode number in `files`. -/
def enter (s : OpenFiles P H) (ino : ℕ) (h : Option H) : OpenFiles P H :=
  { s with files := Function.update s.files ino h }

/-- `H5VL_log_filei_register`. -/
def register (s : OpenFiles P H) (h : H) (f : FileObj P) : OpenFiles P H :=
  match s.disk f.name with
  | some st => (s.put h (some { f with ino := st.ino, hasIno := true })).enter st.ino (some h)
  | none => s.put h (some { f with hasIno := false })

/-- `H5VL_log_filei_rm`. -/
def rm (s : OpenFiles P H) (f : FileObj P) : OpenFiles P H :=
  if f.hasIno then s.enter f.ino none else s

/-- `H5VL_log_filei_dec_ref` and `H5VL_log_filei_close`. -/
def decRef (s : OpenFiles P H) (h : H) (f : FileObj P) : OpenFiles P H :=
  if f.refcnt - 1 = 0 then (s.rm f).put h none else s.put h (some { f with refcnt := f.refcnt - 1 })

/-! ## §2 — the calls. -/

/-- Where a create or an open ends: before the underlying connector has the file open; after that, while the
call gives the underlying connector's identifier back; in the post-open callback; not at all. -/
inductive Ends
  | under | leave | post | done
  deriving DecidableEq, Repr

/-- `new H5VL_log_file_t (uvlid)`, with the file open below. The constructor leaves `ino` and `has_ino` as the
memory has them. -/
def newFile (path : P) (file : FileId) (stale : ℕ × Bool) : FileObj P := ⟨path, file, 1, stale.1, stale.2⟩

/-- `H5VL_log_file_create`, and `H5VL_log_filei_post_create` as the post-open callback. `file` is the file
that the underlying connector makes, or truncates, at the path. -/
def fileCreate (s : OpenFiles P H) (path : P) (file : FileId) (h : H) (stale : ℕ × Bool) (e : Ends) :
    OpenFiles P H :=
  match s.search path, e with
  | some _, _ => s
  | none, .under => s
  | none, .leave => { s with disk := Function.update s.disk path (some file) }.put h none
  | none, .post =>
    { s with disk := Function.update s.disk path (some file) }.put h (some (newFile path file stale))
  | none, .done =>
    { s with disk := Function.update s.disk path (some file) }.register h (newFile path file stale)

/-- `H5VL_log_file_open`, and `H5VL_log_filei_post_open` as the post-open callback: the file is registered by
the open itself, and a failure behind that frees the object. -/
def fileOpen (s : OpenFiles P H) (path : P) (h : H) (stale : ℕ × Bool) (e : Ends) : OpenFiles P H :=
  match s.search path, s.disk path, e with
  | some _, _, _ => s
  | none, none, _ => s
  | none, some _, .under => s
  | none, some file, .leave => (s.register h (newFile path file stale)).put h none
  | none, some file, .post => s.register h (newFile path file stale)
  | none, some file, .done => s.register h (newFile path file stale)

/-- `H5VL_log_filei_inc_ref`, by a reopen or by an object of the file. -/
def incRef (s : OpenFiles P H) (h : H) : OpenFiles P H :=
  match s.live h with
  | some f => s.put h (some { f with refcnt := f.refcnt + 1 })
  | none => s

/-- `H5VL_log_file_close`. -/
def fileClose (s : OpenFiles P H) (h : H) : OpenFiles P H :=
  match s.live h with
  | some f => s.decRef h f
  | none => s

/-- A call of the program. A create or an open says which object is allocated, what its memory had in it, and
where the call ends. -/
inductive Call (P H : Type)
  | fcreate (path : P) (file : FileId) (h : H) (stale : ℕ × Bool) (e : Ends)
  | fopen (path : P) (h : H) (stale : ℕ × Bool) (e : Ends)
  | freopen (h : H)
  | fclose (h : H)

def step (s : OpenFiles P H) : Call P H → OpenFiles P H
  | .fcreate path file h stale e => s.fileCreate path file h stale e
  | .fopen path h stale e => s.fileOpen path h stale e
  | .freopen h => s.incRef h
  | .fclose h => s.fileClose h

def run (s : OpenFiles P H) (calls : List (Call P H)) : OpenFiles P H := calls.foldl step s

/-- Nothing is open. -/
def start (disk : P → Option FileId) : OpenFiles P H := ⟨disk, fun _ => none, fun _ => none⟩

/-! ## §3 — what is asked. -/

/-- What the system sees to: an object is allocated where none is; a create truncates the file at its path, or
makes one that no path leads to yet; handles that are given back or held again are open. -/
def Allowed (s : OpenFiles P H) : Call P H → Prop
  | .fcreate path file h _ _ =>
    s.live h = none ∧ (s.disk path = some file ∨ s.disk path = none ∧ ∀ p, s.disk p ≠ some file)
  | .fopen _ h _ _ => s.live h = none
  | .freopen h | .fclose h => s.live h ≠ none

/-- Every call of the run is allowed where it is made. -/
def Follows (s : OpenFiles P H) : List (Call P H) → Prop
  | [] => True
  | c :: calls => s.Allowed c ∧ (s.step c).Follows calls

/-- **The table is exact**: `search` finds `h` at a path exactly when `h` is not freed and has the file at the
path open. -/
def Exact (s : OpenFiles P H) : Prop :=
  ∀ path h, s.search path = some h ↔ ∃ file, s.disk path = some file ∧ s.holds h = some file

/-- No path leads to another file with the inode number of `file`. -/
def Alone (s : OpenFiles P H) (file : FileId) : Prop := ∀ p i, s.disk p = some i → i.ino = file.ino → i = file

/-- No open file has the inode number of `file`. -/
def Free (s : OpenFiles P H) (file : FileId) : Prop := ∀ g i, s.holds g = some i → i.ino ≠ file.ino

/-- **What a call must not do**, if the table is to stay exact. A create that has made its file must not end in
the post-open callback, nor with an inode number that an open file has, and must find its file alone if it
comes through. An open that has registered its file must not end before it returns, and must find it alone. -/
def Sound (s : OpenFiles P H) : Call P H → Prop
  | .fcreate path file _ _ e =>
    s.search path = none → e ≠ .under →
      e ≠ .post ∧ s.Free file ∧ (e = .done → s.Alone file)
  | .fopen path _ _ e =>
    ∀ file, s.search path = none → e ≠ .under → s.disk path = some file → e ≠ .leave ∧ s.Alone file
  | .freopen _ | .fclose _ => True

end Calls

/-! ## §4 — the table between two calls. -/

/-- **What the calls keep**: the table and the objects are paired, every object was registered under the inode
number of its file, and every open file has a path. -/
structure Level (s : OpenFiles P H) : Prop where
  paired : Lib.Paired FileId.ino s.files s.holds
  registered : ∀ h f, s.live h = some f → f.hasIno = true ∧ f.ino = f.uo.ino
  onDisk : ∀ h i, s.holds h = some i → ∃ p, s.disk p = some i

theorem level_start (disk : P → Option FileId) : (start disk : OpenFiles P H).Level where
  paired := Lib.paired_empty
  registered := by
    intro h f hf
    cases hf
  onDisk := by
    intro h i hi
    cases hi

theorem start_exact (disk : P → Option FileId) : (start disk : OpenFiles P H).Exact := by
  intro path h
  simp [start, search, holds]

variable {s : OpenFiles P H} {path : P} {h : H} {file : FileId} {f : FileObj P}

theorem holds_of_live (hf : s.live h = some f) : s.holds h = some f.uo := by simp [holds, hf]

theorem holds_of_free (hh : s.live h = none) : s.holds h = none := by simp [holds, hh]

theorem search_of_disk (hd : s.disk path = some file) : s.search path = s.files file.ino := by
  simp [search, hd]

/-- `Exact` is a look-up that is exact for the files that paths lead to. -/
theorem exact_iff_exactOn :
    s.Exact ↔ Lib.ExactOn (fun i => ∃ p, s.disk p = some i) FileId.ino s.files s.holds := by
  refine ⟨?_, ?_⟩
  · rintro he i ⟨p, hp⟩ h
    have hs := he p h
    rw [search_of_disk hp, hp] at hs
    simpa using hs
  · intro he p h
    cases hp : s.disk p with
    | none => simp [search, hp]
    | some i => simpa [search, hp] using he i ⟨p, hp⟩ h

theorem Level.exact_iff (hl : s.Level) :
    s.Exact ↔ ∀ p i, s.disk p = some i → ∀ h j, s.holds h = some j → j.ino = i.ino → j = i := by
  rw [exact_iff_exactOn, hl.paired.exactOn_iff]
  refine ⟨?_, ?_⟩
  · intro ha p i hp
    exact ha i ⟨p, hp⟩
  · rintro ha i ⟨p, hp⟩
    exact ha p i hp

/-- A search that finds nothing at a path that exists. -/
theorem Level.free (hl : s.Level) (hs : s.search path = none) (hd : s.disk path = some file) :
    s.Free file := by
  rw [search_of_disk hd] at hs
  exact hl.paired.key_ne hs

theorem Level.files_free (hl : s.Level) (hfree : s.Free file) : s.files file.ino = none := by
  cases hf : s.files file.ino with
  | none => rfl
  | some g =>
    rcases hl.paired.found _ _ hf with ⟨i, hi, hk⟩
    exact absurd hk (hfree g i hi)

/-- The disk once `file` is at `path`. -/
theorem Level.create [DecidableEq P] (hl : s.Level) (he : s.Exact) (hs : s.search path = none)
    (hdisk : s.disk path = some file ∨ s.disk path = none ∧ ∀ p, s.disk p ≠ some file) :
    let s' : OpenFiles P H := { s with disk := Function.update s.disk path (some file) }
    s'.Level ∧ (s'.Exact ↔ s.Free file) ∧ (s'.Alone file ↔ s.Alone file) := by
  intro s'
  rcases hdisk with hd | ⟨hd, hnew⟩
  · -- the path leads to the file already
    have hsame : s' = s := by
      show { s with disk := Function.update s.disk path (some file) } = s
      rw [← hd, Function.update_eq_self]
    rw [hsame]
    exact ⟨hl, ⟨fun _ => hl.free hs hd, fun _ => he⟩, Iff.rfl⟩
  · have hpath : ∀ p i, s'.disk p = some i ↔ (p = path ∧ i = file) ∨ (p ≠ path ∧ s.disk p = some i) := by
      intro p i
      by_cases hp : p = path
      · simp [s', hp, eq_comm]
      · simp [s', hp]
    have hlevel : s'.Level := by
      refine ⟨hl.paired, hl.registered, ?_⟩
      intro g i hg
      rcases hl.onDisk g i hg with ⟨p, hp⟩
      refine ⟨p, (hpath p i).mpr (Or.inr ⟨?_, hp⟩)⟩
      intro e
      rw [e, hd] at hp
      cases hp
    refine ⟨hlevel, ?_, ?_⟩
    · rw [hlevel.exact_iff]
      refine ⟨?_, ?_⟩
      · intro ha g j hg hino
        rcases hl.onDisk g j hg with ⟨p, hp⟩
        have hj := ha path file ((hpath _ _).mpr (Or.inl ⟨rfl, rfl⟩)) g j hg hino
        exact hnew p (hj ▸ hp)
      · intro hfree p i hp g j hg hino
        rcases (hpath p i).mp hp with ⟨-, rfl⟩ | ⟨-, hp'⟩
        · exact absurd hino (hfree g j hg)
        · exact hl.exact_iff.mp he p i hp' g j hg hino
    · refine ⟨?_, ?_⟩
      · intro ha p i hp
        refine ha p i ((hpath p i).mpr (Or.inr ⟨?_, hp⟩))
        intro e
        rw [e, hd] at hp
        cases hp
      · intro ha p i hp hino
        rcases (hpath p i).mp hp with ⟨-, rfl⟩ | ⟨-, hp'⟩
        · rfl
        · exact ha p i hp' hino

/-- What a call does to the table: it stays exact if and only if the call is sound, and then the table is level
again. -/
structure Kept (s s' : OpenFiles P H) (sound : Prop) : Prop where
  exact_iff : s'.Exact ↔ sound
  level : sound → s'.Level

theorem Kept.same (hl : s.Level) (he : s.Exact) {sound : Prop} (hs : sound) : Kept s s sound :=
  ⟨⟨fun _ => hs, fun _ => he⟩, fun _ => hl⟩

theorem Kept.fails {s' : OpenFiles P H} {sound : Prop} (he : ¬ s'.Exact) (hs : ¬ sound) : Kept s s' sound :=
  ⟨⟨fun h => absurd h he, fun h => absurd h hs⟩, fun h => absurd h hs⟩

/-! ## §5 — what each part of a call does to it. -/

@[simp] theorem holds_enter (k : ℕ) (g : Option H) : (s.enter k g).holds = s.holds := rfl

variable [DecidableEq H]

@[simp] theorem holds_put (g : FileObj P) : (s.put h (some g)).holds = Function.update s.holds h (some g.uo) := by
  funext k
  by_cases hk : k = h
  · subst hk
    simp [holds, put]
  · simp [holds, put, hk]

@[simp] theorem holds_put_none : (s.put h none).holds = Function.update s.holds h none := by
  funext k
  by_cases hk : k = h
  · subst hk
    simp [holds, put]
  · simp [holds, put, hk]

theorem put_self (hh : s.live h = none) : s.put h none = s := by
  rw [put, ← hh, Function.update_eq_self]

/-- **Registering**, when `stat` finds the file. -/
theorem register_eq (hd : s.disk f.name = some f.uo) :
    s.register h f =
      (s.put h (some { f with ino := f.uo.ino, hasIno := true })).enter f.uo.ino (some h) := by
  simp [register, hd]

theorem Level.register (hl : s.Level) (hh : s.live h = none) (hd : s.disk f.name = some f.uo)
    (hfree : s.Free f.uo) : (s.register h f).Level := by
  rw [register_eq hd]
  refine ⟨?_, ?_, ?_⟩
  · have hp := hl.paired.enter (holds_of_free hh) (hl.files_free hfree)
    rw [holds_enter, holds_put]
    exact hp
  · intro g f' hg
    by_cases hgh : g = h
    · subst hgh
      have he : f' = { f with ino := f.uo.ino, hasIno := true } := by simpa [put, enter] using hg.symm
      simp [he]
    · exact hl.registered g f' (by simpa [put, enter, hgh] using hg)
  · intro g i hg
    by_cases hgh : g = h
    · subst hgh
      have hi : f.uo = i := by simpa [holds, put, enter] using hg
      exact ⟨f.name, by rw [← hi]; exact hd⟩
    · exact hl.onDisk g i (by simpa [holds, put, enter, hgh] using hg)

/-- **A registered file is found**, and the table stays exact if and only if no path leads to another file with
its inode number. -/
theorem Level.register_exact_iff (hl : s.Level) (he : s.Exact) (hh : s.live h = none)
    (hd : s.disk f.name = some f.uo) (hfree : s.Free f.uo) : (s.register h f).Exact ↔ s.Alone f.uo := by
  rw [(hl.register hh hd hfree).exact_iff, register_eq hd]
  rw [holds_enter, holds_put]
  show (∀ p i, s.disk p = some i → ∀ g j, _ → j.ino = i.ino → j = i) ↔ _
  refine ⟨?_, ?_⟩
  · intro ha p i hp hino
    exact (ha p i hp h f.uo (by simp) hino.symm).symm
  · intro ha p i hp g j hg hino
    by_cases hgh : g = h
    · subst hgh
      have hj : f.uo = j := by simpa using hg
      subst hj
      exact (ha p i hp hino.symm).symm
    · rw [Function.update_of_ne hgh] at hg
      exact hl.exact_iff.mp he p i hp g j hg hino

/-- A file that is registered over another one's entry hides it. -/
theorem Level.register_not_exact (hl : s.Level) (hh : s.live h = none) (hd : s.disk f.name = some f.uo)
    (hfree : ¬ s.Free f.uo) : ¬ (s.register h f).Exact := by
  intro he
  rw [Free] at hfree
  push Not at hfree
  rcases hfree with ⟨g, i, hg, hino⟩
  have hgh : g ≠ h := by
    intro e
    rw [e, holds_of_free hh] at hg
    cases hg
  rcases hl.onDisk g i hg with ⟨p, hp⟩
  rw [register_eq hd] at he
  have hfound := (he p g).mpr ⟨i, hp, by simpa [holds, put, enter, hgh] using hg⟩
  have hself : some h = some g := by simpa [search, put, enter, hp, hino] using hfound
  exact hgh (Option.some.inj hself).symm

/-- **A freed object in the table.** -/
theorem register_freed_not_exact (hd : s.disk f.name = some f.uo) : ¬ ((s.register h f).put h none).Exact := by
  rw [register_eq hd]
  intro he
  have hfound := (he f.name h).mp (by simp [search, put, enter, hd])
  rcases hfound with ⟨i, -, hi⟩
  simp [holds, put, enter] at hi

/-- **An open file that is not in the table.** -/
theorem Level.put_not_exact (hl : s.Level) (hh : s.live h = none) (hd : s.disk path = some f.uo) :
    ¬ (s.put h (some f)).Exact := by
  intro he
  have hfound := (he path h).mpr ⟨f.uo, hd, by simp [holds, put]⟩
  have hentry : s.files f.uo.ino = some h := by simpa [search, put, enter, hd] using hfound
  rcases hl.paired.found _ _ hentry with ⟨i, hi, -⟩
  rw [holds_of_free hh] at hi
  cases hi

/-- A reference more or less. -/
theorem Level.put_refcnt (hl : s.Level) (hf : s.live h = some f) (n : ℤ) :
    (s.put h (some { f with refcnt := n })).Level ∧ ((s.put h (some { f with refcnt := n })).Exact ↔ s.Exact) := by
  have hholds : (s.put h (some { f with refcnt := n })).holds = s.holds := by
    rw [holds_put, ← holds_of_live hf]
    exact Function.update_eq_self _ _
  refine ⟨⟨?_, ?_, ?_⟩, ?_⟩
  · rw [hholds]
    exact hl.paired
  · intro g f' hg
    by_cases hgh : g = h
    · subst hgh
      have he : f' = { f with refcnt := n } := by simpa [put, enter] using hg.symm
      rw [he]
      exact hl.registered g f hf
    · exact hl.registered g f' (by simpa [put, enter, hgh] using hg)
  · rw [hholds]
    exact hl.onDisk
  · rw [Exact, hholds]
    rfl

/-- **Closing** a file takes out its own entry. -/
theorem Level.close (hl : s.Level) (he : s.Exact) (hf : s.live h = some f) :
    ((s.rm f).put h none).Level ∧ ((s.rm f).put h none).Exact := by
  have hreg := hl.registered h f hf
  have hrm : (s.rm f).put h none = (s.put h none).enter f.uo.ino none := by
    simp [rm, put, enter, hreg.1, hreg.2]
  have hlevel : ((s.rm f).put h none).Level := by
    rw [hrm]
    refine ⟨?_, ?_, ?_⟩
    · have hp := hl.paired.leave (holds_of_live hf)
      rw [← holds_put_none] at hp
      exact hp
    · intro g f' hg
      by_cases hgh : g = h
      · subst hgh
        simp [put, enter] at hg
      · exact hl.registered g f' (by simpa [put, enter, hgh] using hg)
    · intro g i hg
      by_cases hgh : g = h
      · subst hgh
        simp [holds, put, enter] at hg
      · exact hl.onDisk g i (by simpa [holds, put, enter, hgh] using hg)
  refine ⟨hlevel, ?_⟩
  rw [hlevel.exact_iff, hrm]
  intro p i hp g j hg hino
  by_cases hgh : g = h
  · subst hgh
    simp [holds, put, enter] at hg
  · exact hl.exact_iff.mp he p i hp g j (by simpa [holds, put, enter, hgh] using hg) hino

/-! ## §6 — one call. -/

theorem fileOpen_kept (hl : s.Level) (he : s.Exact) (stale : ℕ × Bool) (e : Ends) (hh : s.live h = none) :
    Kept s (s.fileOpen path h stale e) (s.Sound (.fopen path h stale e)) := by
  cases hs : s.search path with
  | some g => simpa [fileOpen, hs] using Kept.same hl he (by simp [Sound, hs])
  | none =>
    cases hd : s.disk path with
    | none => simpa [fileOpen, hs, hd] using Kept.same hl he (by simp [Sound, hd])
    | some file =>
      have hname : s.disk (newFile path file stale).name = some (newFile path file stale).uo := hd
      have hfree : s.Free (newFile path file stale).uo := hl.free hs hd
      have hreg : Kept s (s.register h (newFile path file stale)) (s.Alone file) :=
        ⟨hl.register_exact_iff he hh hname hfree, fun _ => hl.register hh hname hfree⟩
      cases e with
      | under => simpa [fileOpen, hs, hd] using Kept.same hl he (by simp [Sound])
      | leave =>
        refine Kept.fails ?_ ?_
        · simpa [fileOpen, hs, hd] using register_freed_not_exact (h := h) hname
        · simp [Sound, hs, hd]
      | post => simpa [fileOpen, hs, hd, Sound] using hreg
      | done => simpa [fileOpen, hs, hd, Sound] using hreg

variable [DecidableEq P]

theorem fileCreate_kept (hl : s.Level) (he : s.Exact) (stale : ℕ × Bool) (e : Ends) (hh : s.live h = none)
    (hdisk : s.disk path = some file ∨ s.disk path = none ∧ ∀ p, s.disk p ≠ some file) :
    Kept s (s.fileCreate path file h stale e) (s.Sound (.fcreate path file h stale e)) := by
  cases hs : s.search path with
  | some g => simpa [fileCreate, hs] using Kept.same hl he (by simp [Sound, hs])
  | none =>
    rcases hl.create he hs hdisk with ⟨hlevel, hexact, halone⟩
    have hd : ({ s with disk := Function.update s.disk path (some file) } : OpenFiles P H).disk
        (newFile path file stale).name = some (newFile path file stale).uo := by simp [newFile]
    cases e with
    | under => simpa [fileCreate, hs] using Kept.same hl he (by simp [Sound])
    -- The object stays behind, but nothing was registered.
    | leave =>
      have hput := put_self (s := { s with disk := Function.update s.disk path (some file) }) hh
      refine ⟨?_, ?_⟩
      · simpa [fileCreate, hs, hput, Sound] using hexact
      · intro _
        simpa [fileCreate, hs, hput] using hlevel
    -- Registered, and then deleted with the failure: the table keeps a handle that is gone.
    | post =>
      refine Kept.fails ?_ ?_
      · simpa [fileCreate, hs] using hlevel.put_not_exact hh hd
      · simp [Sound, hs]
    | done =>
      simp only [fileCreate, hs]
      -- The table is keyed by the inode alone, so a file on another device may be in the way.
      by_cases hfree : s.Free file
      · refine ⟨?_, ?_⟩
        · rw [hlevel.register_exact_iff (hexact.mpr hfree) hh hd hfree]
          simpa [Sound, hs, hfree, newFile] using halone
        · intro _
          exact hlevel.register hh hd hfree
      · refine Kept.fails (hlevel.register_not_exact hh hd hfree) ?_
        simp [Sound, hs, hfree]

/-- **One call**, whichever it is. -/
theorem step_kept (hl : s.Level) (he : s.Exact) {c : Call P H} (ha : s.Allowed c) :
    Kept s (s.step c) (s.Sound c) := by
  cases c with
  | fcreate path file h stale e => exact fileCreate_kept hl he stale e ha.1 ha.2
  | fopen path h stale e => exact fileOpen_kept hl he stale e ha
  | freopen h =>
    rcases Option.ne_none_iff_exists'.mp ha with ⟨f, hf⟩
    have hput := hl.put_refcnt hf (f.refcnt + 1)
    simp only [step, incRef, hf]
    exact ⟨⟨fun _ => trivial, fun _ => hput.2.mpr he⟩, fun _ => hput.1⟩
  | fclose h =>
    rcases Option.ne_none_iff_exists'.mp ha with ⟨f, hf⟩
    simp only [step, fileClose, hf, decRef]
    split
    · have hclose := hl.close he hf
      exact ⟨⟨fun _ => trivial, fun _ => hclose.2⟩, fun _ => hclose.1⟩
    · have hput := hl.put_refcnt hf (f.refcnt - 1)
      exact ⟨⟨fun _ => trivial, fun _ => hput.2.mpr he⟩, fun _ => hput.1⟩

/-! ## §7 — runs. -/

/-- A run from where the table is level and exact. -/
theorem Level.run_iff (calls : List (Call P H)) (hl : s.Level) (he : s.Exact) (hf : s.Follows calls) :
    (∀ before, before <+: calls → (s.run before).Exact) ↔
      ∀ before c, before ++ [c] <+: calls → (s.run before).Sound c := by
  induction calls generalizing s with
  | nil =>
    refine ⟨?_, ?_⟩
    · intro _ before c hp
      simp at hp
    · intro _ before hp
      rw [List.prefix_nil.mp hp]
      exact he
  | cons c calls ih =>
    have hkept := step_kept hl he hf.1
    by_cases hs : s.Sound c
    · have hrest := ih (hkept.level hs) (hkept.exact_iff.mpr hs) hf.2
      refine ⟨?_, ?_⟩
      · intro hall before d hp
        cases before with
        | nil =>
          rcases List.cons_prefix_cons.mp hp with ⟨rfl, -⟩
          exact hs
        | cons b before =>
          rcases List.cons_prefix_cons.mp hp with ⟨rfl, hp'⟩
          refine hrest.mp ?_ before d hp'
          intro before' hb
          exact hall (b :: before') (List.cons_prefix_cons.mpr ⟨rfl, hb⟩)
      · intro hall before hp
        cases before with
        | nil => exact he
        | cons b before =>
          rcases List.cons_prefix_cons.mp hp with ⟨rfl, hp'⟩
          refine hrest.mpr ?_ before hp'
          intro before' d hb
          exact hall (b :: before') d (List.cons_prefix_cons.mpr ⟨rfl, hb⟩)
    · -- the first call is at fault, and shows at once
      refine ⟨?_, ?_⟩
      · intro hall
        refine absurd (hkept.exact_iff.mp ?_) hs
        exact hall [c] (List.cons_prefix_cons.mpr ⟨rfl, List.nil_prefix⟩)
      · intro hall
        exact absurd (hall [] c (List.cons_prefix_cons.mpr ⟨rfl, List.nil_prefix⟩)) hs

/-- **The table is exact in every state of a run if and only if every call of it is sound.** -/
theorem exact_run_iff (disk : P → Option FileId) (calls : List (Call P H))
    (hf : (start disk : OpenFiles P H).Follows calls) :
    (∀ before, before <+: calls → ((start disk).run before).Exact) ↔
      ∀ before c, before ++ [c] <+: calls → ((start disk).run before).Sound c :=
  (level_start disk).run_iff calls (start_exact disk) hf

/-- Two paths, to files of one inode number on two devices. -/
def twoDevices : ℕ → Option FileId
  | 0 => some ⟨1, 5⟩
  | 1 => some ⟨2, 5⟩
  | _ => none

/-- A file is opened, opened again in vain, and closed. -/
def openTwice : List (Call ℕ ℕ) := [.fopen 0 0 (0, false) .done, .fopen 0 1 (0, false) .done, .fclose 0]

/-- One path. -/
def onePath (p : ℕ) : Option FileId := if p = 0 then some ⟨1, 5⟩ else none

theorem exact_run_openTwice :
    (start onePath : OpenFiles ℕ ℕ).Follows openTwice ∧
      ∀ before, before <+: openTwice → ((start onePath : OpenFiles ℕ ℕ).run before).Exact := by
  have hf : (start onePath : OpenFiles ℕ ℕ).Follows openTwice := by
    refine ⟨rfl, rfl, ?_, trivial⟩
    simp [Allowed, step, fileOpen, start, search, onePath, register, put, newFile, enter]
  have halone : (start onePath : OpenFiles ℕ ℕ).Alone ⟨1, 5⟩ := by
    intro p i hi _
    by_cases hp : p = 0
    · simpa [start, onePath, hp] using hi.symm
    · simp [start, onePath, hp] at hi
  refine ⟨hf, (exact_run_iff onePath openTwice hf).mpr ?_⟩
  intro before c hp
  rcases before with _ | ⟨a, _ | ⟨b, _ | ⟨d, rest⟩⟩⟩
  · have hc : c = .fopen 0 0 (0, false) .done := by simpa [openTwice] using hp
    subst hc
    intro file _ _ hd
    have hfile : file = ⟨1, 5⟩ := by simpa [run, start, onePath] using hd.symm
    subst hfile
    exact ⟨by decide, halone⟩
  · have hc : a = .fopen 0 0 (0, false) .done ∧ c = .fopen 0 1 (0, false) .done := by
      simpa [openTwice] using hp
    rcases hc with ⟨rfl, rfl⟩
    intro file hs
    -- the second open is turned away
    have hfound : ((start onePath : OpenFiles ℕ ℕ).run [.fopen 0 0 (0, false) .done]).search 0 = some 0 := by decide
    rw [hfound] at hs
    cases hs
  · have hc : c = .fclose 0 := by
      have hc' := hp
      simp [openTwice] at hc'
      exact hc'.2.2
    subst hc
    trivial
  · simp [openTwice] at hp

/-- With the first file open, the second is taken for it. -/
theorem not_exact_run : ¬ ∀ (disk : ℕ → Option FileId) (calls : List (Call ℕ ℕ)),
    (start disk : OpenFiles ℕ ℕ).Follows calls →
      ∀ before, before <+: calls → ((start disk).run before).Exact := by
  intro hall
  have hexact := hall twoDevices [.fopen 0 0 (0, false) .done] ⟨rfl, trivial⟩ _ (List.prefix_refl _)
  rcases (hexact 1 0).mp (by decide) with ⟨file, hd, hh⟩
  have hsecond : some file = some ⟨2, 5⟩ := hd.symm
  have hfirst : some file = some ⟨1, 5⟩ := hh.symm
  exact absurd (hsecond.symm.trans hfirst) (by decide)

end OpenFiles

end LogVol
