/-
# LogVol.QueuedReads — reads that are queued, and what they read when they are flushed.

A queued request keeps its selection until the flush. `H5Dread` makes one of its file space, with arrays of its
own; `H5Dread_n` makes one of the pointers that the program passes, and the blocks are what these lead to when
the flush follows them. `performRead` is a flush of reads: the search of the index, the two types of the read,
and what goes on from there into the user buffers. Two runs that make the same calls deliver the same bytes if
the program stores nothing into arrays that a queued read still uses (`queuedReads_same`).
-/
import LogVol.DeliverRead
import LogVol.ReadTypes

namespace LogVol

open Lib (Box Store Move)

/-! ## §1 — selections that own their arrays, and selections that do not. -/

/-- The words of the program's memory. -/
abbrev UserMem := ℕ → HSize

/-- The arguments `n`, `starts` and `counts` of `H5Dread_n`, for a dataset of rank `ndim`: the two arrays of
pointers, by address. -/
structure CallerArrays where
  ndim : ℕ
  n : ℕ
  starts : ℕ
  counts : ℕ
  n_lt : n < 2 ^ 31

/-- The `ndim` words that a pointer leads to. -/
def vectorAt (mem : UserMem) (ndim : ℕ) (p : HSize) : List HSize :=
  (List.range ndim).map fun j => mem (p.toNat + j)

/-- `starts[i]` and `counts[i]`, for every `i`. -/
def CallerArrays.blocks (a : CallerArrays) (mem : UserMem) : List Block :=
  (List.range a.n).map fun i =>
    ⟨vectorAt mem a.ndim (mem (a.starts + i)), vectorAt mem a.ndim (mem (a.counts + i))⟩

theorem CallerArrays.blocks_rank (a : CallerArrays) (mem : UserMem) :
    ∀ b ∈ a.blocks mem, b.start.length = a.ndim ∧ b.count.length = a.ndim := by
  intro b hb
  rcases List.mem_map.mp hb with ⟨i, -, rfl⟩
  simp [vectorAt]

theorem CallerArrays.blocks_lt (a : CallerArrays) (mem : UserMem) : (a.blocks mem).length < 2 ^ 31 := by
  rw [CallerArrays.blocks, List.length_map, List.length_range]
  exact a.n_lt

/-- The selection, as the arrays are now. -/
def CallerArrays.selections (a : CallerArrays) (mem : UserMem) : Selections :=
  ⟨a.ndim, a.blocks mem, a.blocks_rank mem, a.blocks_lt mem⟩

/-- The words that the arrays are made of. -/
def CallerArrays.words (a : CallerArrays) (mem : UserMem) : Set ℕ :=
  { x | ∃ i < a.n, x = a.starts + i ∨ x = a.counts + i ∨
    ∃ j < a.ndim, x = (mem (a.starts + i)).toNat + j ∨ x = (mem (a.counts + i)).toNat + j }

/-- `sels` of a request: made of a dataspace, or of the caller's arrays (`sels_arr` is `NULL` then). -/
inductive SelRef where
  | own (s : Selections)
  | caller (a : CallerArrays)

/-- The blocks that are found when the selection is used. -/
def SelRef.read (mem : UserMem) : SelRef → Selections
  | .own s => s
  | .caller a => a.selections mem

/-! ## §2 — a request. -/

/-- `H5VL_log_rreq_t`. `xbuf` is `ubuf` where nothing has to be converted or unpacked. -/
structure QueuedRead where
  did : I32
  info : DsetInfo
  sels : SelRef
  req : Rreq
  xbuf : ℕ
  ubuf : ℕ

/-- How a read is asked for: the type and space of memory, the user buffer, and the internal buffer that it is
given if it needs one. -/
structure ReadHow where
  msize : ℕ
  eqtype : Bool
  space : MemSpace
  xbuf : ℕ
  ubuf : ℕ

/-- **`H5VL_log_dataseti_read`** up to the queue: the number of elements is that of the selection now. -/
def queueRead (mem : UserMem) (did : ℕ) (info : DsetInfo) (sels : SelRef) (how : ReadHow) :
    Except Fault (Option QueuedRead) := do
  let r ← datasetiRreq info.esize.toNat how.msize how.eqtype how.space ((sels.read mem).sels.map Block.box)
  pure (r.map fun req =>
    { did := BitVec.ofNat 32 did, info, sels, req
      xbuf := if req.xbuf.isSome then how.xbuf else how.ubuf
      ubuf := how.ubuf })

/-! ## §3 — the flush. -/

/-- The request as the search sees it. -/
def QueuedRead.wanted (q : QueuedRead) (mem : UserMem) : ReadReq := ⟨q.did, q.info, q.sels.read mem, q.xbuf⟩

/-- What is not modelled here: in which order tied results are sorted, where the data of a filtered block is put,
what unfiltering and `MPI_Pack` do to memory, and what `H5Tconvert` does to a buffer. -/
structure ReadRest where
  std : BlockSort
  place : MpiOffset → ℕ
  unfilter : List Intersec → Store → Store
  convert : QueuedRead → Store → Store

/-- Allocate zbuf for filtered data: of the results with one file offset, the first reads it. -/
def allocZbufs (place : MpiOffset → ℕ) : List MpiOffset → List SearchRet → List Intersec
  | _, [] => []
  | seen, r :: rs =>
      if r.info.filters = [] then ⟨r, none⟩ :: allocZbufs place seen rs
      else if r.foff ∈ seen then ⟨{ r with fsize := 0 }, some (place r.foff)⟩ :: allocZbufs place seen rs
      else ⟨r, some (place r.foff)⟩ :: allocZbufs place (r.foff :: seen) rs

/-- The bytes of a run, by where they go and where they come from. -/
def runBytes (dst src len : ℤ) : List (ℕ × ℕ) :=
  (List.range len.toNat).map fun i => ((dst + i).toNat, (src + i).toNat)

/-- `MPI_File_read_at_all` with the two types. -/
def readRuns (runs : List Move) (file buf : Store) : Store :=
  scatter (runs.flatMap fun m => runBytes m.dst m.src m.len) file buf

/-- `memcpy (o.dst, o.src, o.size)`, for every overlap. -/
def copyOverlaps (copies : List CopyCtx) (buf : Store) : Store :=
  copies.foldl (fun buf c => scatter (runBytes c.dst c.src c.size) buf buf) buf

/-- Post processing: type conversion, and the user buffer. -/
def finishReq (rest : ReadRest) (buf : Store) (q : QueuedRead) : Store :=
  let buf := if q.req.msize.isSome then rest.convert q buf else buf
  scatter (q.req.deliver.map fun m => (q.ubuf + m.1, q.xbuf + m.2)) buf buf

/-- **`H5VL_log_nb_perform_read`**. -/
def performRead (rest : ReadRest) (idx : ArrayIdx) (file : Store) (mem : UserMem) (reqs : List QueuedRead)
    (buf : Store) : Except Fault Store := do
  let found ← reqs.mapM fun q => idx.search (q.wanted mem)
  let blocks := allocZbufs rest.place [] found.flatten
  let (runs, copies) ← readiGenRtypes rest.std blocks
  let buf := rest.unfilter blocks (copyOverlaps copies (readRuns runs file buf))
  pure (reqs.foldl (finishReq rest) buf)

/-- Fill up user buffer if fillval is set. -/
def fillBuffer (buf : Store) (q : QueuedRead) : Store :=
  match q.info.fill with
  | some v => buf.write q.xbuf (List.replicate q.req.rsize v).flatten
  | none => buf

/-- **`H5VL_log_nb_flush_read_reqs`**, without subfiles. -/
def flushQueuedReads (rest : ReadRest) (idx : ArrayIdx) (file : Store) (mem : UserMem) (reqs : List QueuedRead)
    (buf : Store) : Except Fault Store :=
  performRead rest idx file mem reqs (reqs.foldl fillBuffer buf)

/-! ## §4 — runs. -/

/-- The file, by the calls that a run makes on it: a dataset that is open, any other call, which takes its
arguments by value, and a flush up to where the metadata is read: the index and the bytes of the file. -/
structure FileOps (F W : Type) where
  info : F → ℕ → Option DsetInfo
  call : F → W → Except Fault F
  load : F → Except Fault (F × ArrayIdx × Store)
  rest : ReadRest

/-- The process: the file, the buffers, the memory the program keeps its arrays in, and the queue. -/
structure ReadState (F : Type) where
  file : F
  bufs : Store
  mem : UserMem
  rreqs : List QueuedRead

/-- A step of the program. `read` is `H5Dread` with what the constructor makes of its file space, `readN` is
`H5Dread_n`, both with the queueing transfer property; `store` is whatever the program does to its memory. -/
inductive ReadStep (W : Type) where
  | call (w : W)
  | read (did : ℕ) (sel : Selections) (how : ReadHow)
  | readN (did : ℕ) (a : CallerArrays) (how : ReadHow)
  | store (mem : UserMem)
  | flush

variable {F W : Type} {ops : FileOps F W}

/-- A read joins the queue. -/
def ReadState.enqueue (ops : FileOps F W) (s : ReadState F) (did : ℕ) (sels : SelRef) (how : ReadHow) :
    Except Fault (ReadState F) :=
  match ops.info s.file did with
  | none => .error .outside
  | some info => do
      let q ← queueRead s.mem did info sels how
      pure { s with rreqs := s.rreqs ++ q.toList }

/-- The queue is flushed. -/
def ReadState.flush (ops : FileOps F W) (s : ReadState F) : Except Fault (ReadState F) := do
  let (file, idx, bytes) ← ops.load s.file
  let bufs ← flushQueuedReads ops.rest idx bytes s.mem s.rreqs s.bufs
  pure { s with file := file, bufs := bufs, rreqs := [] }

def ReadState.step (ops : FileOps F W) (s : ReadState F) : ReadStep W → Except Fault (ReadState F)
  | .call w => do
      let file ← ops.call s.file w
      pure { s with file := file }
  | .read did sel how => s.enqueue ops did (.own sel) how
  | .readN did a how => s.enqueue ops did (.caller a) { how with space := .block }
  | .store mem => .ok { s with mem := mem }
  | .flush => s.flush ops

def ReadState.run (ops : FileOps F W) : ReadState F → List (ReadStep W) → Except Fault (ReadState F)
  | s, [] => .ok s
  | s, c :: cs => do
      let s' ← s.step ops c
      s'.run ops cs

/-- **Two runs with the same calls**, where `used` are the words of arrays whose reads have returned. A store may
put different things there, and nowhere else; a call finds the same blocks in the arrays it is given. -/
def SameCalls (ops : FileOps F W) (used : Set ℕ) (s₁ s₂ : ReadState F) :
    List (ReadStep W) → List (ReadStep W) → Prop
  | .store m₁ :: cs₁, .store m₂ :: cs₂ =>
      (∀ x, x ∉ used → m₁ x = m₂ x) ∧ SameCalls ops used { s₁ with mem := m₁ } { s₂ with mem := m₂ } cs₁ cs₂
  | .readN did a how :: cs₁, c₂ :: cs₂ =>
      c₂ = .readN did a how ∧ a.selections s₁.mem = a.selections s₂.mem ∧
        ∀ s₁' s₂', s₁.step ops (.readN did a how) = .ok s₁' → s₂.step ops c₂ = .ok s₂' →
          SameCalls ops (used ∪ a.words s₁.mem ∪ a.words s₂.mem) s₁' s₂' cs₁ cs₂
  | c₁ :: cs₁, c₂ :: cs₂ =>
      c₁ = c₂ ∧ ∀ s₁' s₂', s₁.step ops c₁ = .ok s₁' → s₂.step ops c₂ = .ok s₂' →
        SameCalls ops used s₁' s₂' cs₁ cs₂
  | [], [] => True
  | _, _ => False

/-- **What the program must not do**: a store changes what a queued selection is made of. -/
def LeavesQueued (ops : FileOps F W) (s : ReadState F) : List (ReadStep W) → Prop
  | [] => True
  | c :: cs =>
      (∀ mem, c = .store mem → ∀ q ∈ s.rreqs, q.sels.read mem = q.sels.read s.mem) ∧
        ∀ s', s.step ops c = .ok s' → LeavesQueued ops s' cs

/-! ## §5 — the flush depends on the selections, and on nothing else in the program's memory. -/

/-- **A selection that is fixed**: whatever the program stores, unless it has blocks, and coordinates, that are
not its own. -/
theorem SelRef.fixed_iff (r : SelRef) :
    (∀ mem mem', r.read mem = r.read mem') ↔ ∀ a, r = .caller a → a.n = 0 ∨ a.ndim = 0 := by
  cases r with
  | own s =>
    refine ⟨?_, fun _ _ _ => rfl⟩
    intro _ a ha
    cases ha
  | caller a =>
    refine ⟨?_, ?_⟩
    · rintro hfixed _ ⟨⟩
      by_contra hne
      push Not at hne
      -- a memory of zeros and a memory of ones
      have hread : a.selections (fun _ => 0) = a.selections fun _ => 1 := hfixed _ _
      have hblocks : a.blocks (fun _ => 0) = a.blocks fun _ => 1 := congrArg Selections.sels hread
      obtain ⟨n, hn⟩ := Nat.exists_eq_succ_of_ne_zero hne.1
      obtain ⟨k, hk⟩ := Nat.exists_eq_succ_of_ne_zero hne.2
      rw [CallerArrays.blocks, CallerArrays.blocks, hn, List.range_succ_eq_map] at hblocks
      simp only [List.map_cons, List.cons.injEq, Block.mk.injEq, vectorAt, hk, List.range_succ_eq_map] at hblocks
      exact absurd hblocks.1.1.1 (by decide)
    · intro hnone mem mem'
      have hblocks : a.blocks mem = a.blocks mem' := by
        rcases hnone a rfl with hn | hk
        · simp [CallerArrays.blocks, hn]
        · simp [CallerArrays.blocks, vectorAt, hk]
      show a.selections mem = a.selections mem'
      simp only [CallerArrays.selections, hblocks]

theorem queueRead_congr {m₁ m₂ : UserMem} {sels : SelRef} (h : sels.read m₁ = sels.read m₂) (did : ℕ)
    (info : DsetInfo) (how : ReadHow) : queueRead m₁ did info sels how = queueRead m₂ did info sels how := by
  rw [queueRead, queueRead, h]

theorem queueRead_sels {mem : UserMem} {did : ℕ} {info : DsetInfo} {sels : SelRef} {how : ReadHow}
    {q : Option QueuedRead} (h : queueRead mem did info sels how = .ok q) : ∀ r ∈ q, r.sels = sels := by
  obtain ⟨req, -, hq⟩ := Lib.bind_eq_ok.mp h
  obtain rfl := Except.ok.inj hq
  intro r hr
  rcases Option.mem_map.mp hr with ⟨_, -, rfl⟩
  rfl

theorem mapM_search_congr {m₁ m₂ : UserMem} (idx : ArrayIdx) {reqs : List QueuedRead}
    (h : ∀ q ∈ reqs, q.sels.read m₁ = q.sels.read m₂) :
    (reqs.mapM fun q => idx.search (q.wanted m₁)) = reqs.mapM fun q => idx.search (q.wanted m₂) := by
  refine Lib.mapM_congr fun q hq => ?_
  rw [QueuedRead.wanted, QueuedRead.wanted, h q hq]

/-- **A flush** reads the same, if the selections of its requests do. -/
theorem flushQueuedReads_congr {m₁ m₂ : UserMem} (rest : ReadRest) (idx : ArrayIdx) (file : Store)
    {reqs : List QueuedRead} (h : ∀ q ∈ reqs, q.sels.read m₁ = q.sels.read m₂) (buf : Store) :
    flushQueuedReads rest idx file m₁ reqs buf = flushQueuedReads rest idx file m₂ reqs buf := by
  simp only [flushQueuedReads, performRead, mapM_search_congr idx h]

/-! ## §6 — two runs. -/

/-- The two processes differ in memory only, and no queued selection sees it. -/
structure ReadState.Alike (s₁ s₂ : ReadState F) : Prop where
  file : s₁.file = s₂.file
  bufs : s₁.bufs = s₂.bufs
  rreqs : s₁.rreqs = s₂.rreqs
  sels : ∀ q ∈ s₁.rreqs, q.sels.read s₁.mem = q.sels.read s₂.mem

/-- Two steps come out alike: they fail alike, or what they leave is alike. -/
def AlikeResults (r₁ r₂ : Except Fault (ReadState F)) : Prop :=
  match r₁, r₂ with
  | .ok s₁, .ok s₂ => s₁.Alike s₂
  | .error e₁, .error e₂ => e₁ = e₂
  | _, _ => False

theorem enqueue_alike {s₁ s₂ : ReadState F} (h : s₁.Alike s₂) (sels : SelRef)
    (hsels : sels.read s₁.mem = sels.read s₂.mem) (did : ℕ) (how : ReadHow) :
    AlikeResults (s₁.enqueue ops did sels how) (s₂.enqueue ops did sels how) := by
  unfold ReadState.enqueue
  rw [← h.file]
  cases ops.info s₁.file did with
  | none => rfl
  | some info =>
    simp only [← queueRead_congr hsels]
    cases hq : queueRead s₁.mem did info sels how with
    | error e => rfl
    | ok q =>
      refine ⟨rfl, h.bufs, congrArg (· ++ q.toList) h.rreqs, ?_⟩
      intro r hr
      rcases List.mem_append.mp hr with hr | hr
      · exact h.sels r hr
      · have hr' : r ∈ q := by simpa using hr
        rw [queueRead_sels hq r hr']
        exact hsels

theorem flush_alike {s₁ s₂ : ReadState F} (h : s₁.Alike s₂) : AlikeResults (s₁.flush ops) (s₂.flush ops) := by
  unfold ReadState.flush
  rw [← h.file, ← h.rreqs, ← h.bufs]
  cases ops.load s₁.file with
  | error e => rfl
  | ok loaded =>
    obtain ⟨file, idx, bytes⟩ := loaded
    show AlikeResults (flushQueuedReads ops.rest idx bytes s₁.mem s₁.rreqs s₁.bufs >>= _)
      (flushQueuedReads ops.rest idx bytes s₂.mem s₁.rreqs s₁.bufs >>= _)
    rw [flushQueuedReads_congr ops.rest idx bytes h.sels]
    cases flushQueuedReads ops.rest idx bytes s₂.mem s₁.rreqs s₁.bufs with
    | error e => rfl
    | ok bufs => exact ⟨rfl, rfl, rfl, fun q hq => absurd hq (List.not_mem_nil)⟩

/-- **One call**, with what it finds in the arrays it is given. -/
theorem step_alike {s₁ s₂ : ReadState F} (h : s₁.Alike s₂) {c : ReadStep W} (hstore : ∀ m, c ≠ .store m)
    (hargs : ∀ did a how, c = .readN did a how → a.selections s₁.mem = a.selections s₂.mem) :
    AlikeResults (s₁.step ops c) (s₂.step ops c) := by
  cases c with
  | call w =>
    show AlikeResults (ops.call s₁.file w >>= fun file => pure { s₁ with file := file })
      (ops.call s₂.file w >>= fun file => pure { s₂ with file := file })
    rw [← h.file]
    cases ops.call s₁.file w with
    | error e => rfl
    | ok file => exact ⟨rfl, h.bufs, h.rreqs, h.sels⟩
  | read did sel how => exact enqueue_alike h _ rfl did how
  | readN did a how => exact enqueue_alike h (.caller a) (hargs did a how rfl) did _
  | store m => exact absurd rfl (hstore m)
  | flush => exact flush_alike h

/-- The first steps of two runs with the same calls. -/
theorem SameCalls.cons {used : Set ℕ} {s₁ s₂ : ReadState F} {c₁ c₂ : ReadStep W} {cs₁ cs₂ : List (ReadStep W)}
    (h : SameCalls ops used s₁ s₂ (c₁ :: cs₁) (c₂ :: cs₂)) :
    (∃ m₁ m₂, c₁ = .store m₁ ∧ c₂ = .store m₂ ∧
      SameCalls ops used { s₁ with mem := m₁ } { s₂ with mem := m₂ } cs₁ cs₂) ∨
    (c₂ = c₁ ∧ (∀ m, c₁ ≠ .store m) ∧
      (∀ did a how, c₁ = .readN did a how → a.selections s₁.mem = a.selections s₂.mem) ∧
      ∃ used', ∀ s₁' s₂', s₁.step ops c₁ = .ok s₁' → s₂.step ops c₁ = .ok s₂' →
        SameCalls ops used' s₁' s₂' cs₁ cs₂) := by
  -- Only a store may differ, and of a read from the caller's arrays what these hold at the time.
  cases c₁ with
  | store m₁ =>
    left
    cases c₂ with
    | store m₂ => exact ⟨m₁, m₂, rfl, rfl, h.2⟩
    | call w => exact absurd h.1 (by simp)
    | read did sel how => exact absurd h.1 (by simp)
    | readN did a how => exact absurd h.1 (by simp)
    | flush => exact absurd h.1 (by simp)
  | readN did a how =>
    right
    obtain ⟨rfl, hsels, hnext⟩ := h
    refine ⟨rfl, nofun, ?_, _, hnext⟩
    rintro _ _ _ ⟨⟩
    exact hsels
  | call w =>
    right
    obtain ⟨rfl, hnext⟩ := h
    exact ⟨rfl, nofun, nofun, used, hnext⟩
  | read did sel how =>
    right
    obtain ⟨rfl, hnext⟩ := h
    exact ⟨rfl, nofun, nofun, used, hnext⟩
  | flush =>
    right
    obtain ⟨rfl, hnext⟩ := h
    exact ⟨rfl, nofun, nofun, used, hnext⟩

theorem run_alike {used : Set ℕ} {s₁ s₂ : ReadState F} {cs₁ cs₂ : List (ReadStep W)} (h : s₁.Alike s₂)
    (hcalls : SameCalls ops used s₁ s₂ cs₁ cs₂) (h₁ : LeavesQueued ops s₁ cs₁) (h₂ : LeavesQueued ops s₂ cs₂) :
    AlikeResults (s₁.run ops cs₁) (s₂.run ops cs₂) := by
  induction cs₁ generalizing used s₁ s₂ cs₂ with
  | nil =>
    cases cs₂ with
    | nil => exact h
    | cons c₂ cs₂ => exact absurd hcalls (by simp [SameCalls])
  | cons c₁ cs₁ ih =>
    cases cs₂ with
    | nil => exact absurd hcalls (by simp [SameCalls])
    | cons c₂ cs₂ =>
      rcases hcalls.cons with ⟨m₁, m₂, rfl, rfl, hnext⟩ | ⟨rfl, hstore, hargs, used', hnext⟩
      · -- What is queued is not touched by a store, so both memories give the same selections.
        have hstored : ReadState.Alike { s₁ with mem := m₁ } { s₂ with mem := m₂ } := by
          refine ⟨h.file, h.bufs, h.rreqs, ?_⟩
          intro q hq
          show q.sels.read m₁ = q.sels.read m₂
          rw [h₁.1 m₁ rfl q hq, h₂.1 m₂ rfl q (h.rreqs ▸ hq)]
          exact h.sels q hq
        have hrest := ih hstored hnext (h₁.2 _ rfl) (h₂.2 _ rfl)
        exact hrest
      · have hstep : AlikeResults (s₁.step ops c₂) (s₂.step ops c₂) := step_alike h hstore hargs
        unfold ReadState.run
        cases hr₁ : s₁.step ops c₂ with
        | error e₁ =>
          cases hr₂ : s₂.step ops c₂ with
          | error e₂ =>
            rw [hr₁, hr₂] at hstep
            exact hstep
          | ok s₂' =>
            rw [hr₁, hr₂] at hstep
            exact hstep.elim
        | ok s₁' =>
          cases hr₂ : s₂.step ops c₂ with
          | error e₂ =>
            rw [hr₁, hr₂] at hstep
            exact hstep.elim
          | ok s₂' =>
            rw [hr₁, hr₂] at hstep
            exact ih hstep (hnext s₁' s₂' hr₁ hr₂) (h₁.2 s₁' hr₁) (h₂.2 s₂' hr₂)

/-- **Queued reads read what they were asked for**, in two runs with the same calls that leave the arrays of
queued reads as they are: every buffer ends up with the same bytes, after every prefix of the two. -/
theorem queuedReads_same (ops : FileOps F W) (file : F) (bufs : Store) (mem : UserMem)
    {cs₁ cs₂ : List (ReadStep W)}
    (hcalls : SameCalls ops ∅ ⟨file, bufs, mem, []⟩ ⟨file, bufs, mem, []⟩ cs₁ cs₂)
    (h₁ : LeavesQueued ops ⟨file, bufs, mem, []⟩ cs₁) (h₂ : LeavesQueued ops ⟨file, bufs, mem, []⟩ cs₂) :
    (ReadState.run ops ⟨file, bufs, mem, []⟩ cs₁).map ReadState.bufs =
      (ReadState.run ops ⟨file, bufs, mem, []⟩ cs₂).map ReadState.bufs := by
  have halike : ReadState.Alike (⟨file, bufs, mem, []⟩ : ReadState F) ⟨file, bufs, mem, []⟩ :=
    ⟨rfl, rfl, rfl, fun _ _ => rfl⟩
  have hrun := run_alike halike hcalls h₁ h₂
  revert hrun
  cases ReadState.run ops ⟨file, bufs, mem, []⟩ cs₁ <;> cases ReadState.run ops ⟨file, bufs, mem, []⟩ cs₂
  · exact congrArg Except.error
  · exact False.elim
  · exact False.elim
  · intro h
    exact congrArg Except.ok h.bufs

/-- Two bytes in one entry. -/
def twoBytes : MetaEntry where
  hdr := ⟨0, 0, 0, 100, 2⟩
  sels := [⟨[0], [2], 0⟩]
  dsize := 2

theorem twoBytes_rank : [2].length ≤ maxRank := by decide

theorem twoBytes_mdims : [2].length = [2].length := rfl

theorem twoBytes_dsteps : [1].length = [2].length := rfl

def twoBytesDset : DsetInfo :=
  DsetInfo.plain 1 [2] [2] [1] twoBytes_rank twoBytes_mdims twoBytes_dsteps

/-- A file with one dataset, which holds 10 and 20. -/
def twoBytesFile : FileOps Unit Unit where
  info _ did := if did = 0 then some twoBytesDset else none
  call _ _ := .ok ()
  load _ := .ok ((), [[twoBytes]], fun a => if a = 100 then 10 else 20)
  rest := ⟨stableSort, fun _ => 0, fun _ buf => buf, fun _ buf => buf⟩

theorem oneBlock_lt : 1 < 2 ^ 31 := by decide

/-- One block of one byte: the pointers at 0 and 1 lead to its start at 10 and its count at 11. -/
def oneBlock : CallerArrays := ⟨1, 1, 0, 1, oneBlock_lt⟩

/-- The memory, with the start of the block. -/
def startAt (i : HSize) : UserMem := fun x => if x = 0 then 10 else if x = 1 then 11 else if x = 10 then i else 1

/-- How it is read: into the buffer at 1000. -/
def intoBuffer : ReadHow := ⟨1, true, .block, 0, 1000⟩

theorem flush_rreqs {s s' : ReadState F} (h : s.flush ops = .ok s') : s'.rreqs = [] := by
  obtain ⟨loaded, -, h⟩ := Lib.bind_eq_ok.mp h
  obtain ⟨bufs, -, h⟩ := Lib.bind_eq_ok.mp h
  obtain rfl := Except.ok.inj h
  rfl

/-- The start of the block is stored again after the flush. -/
def storeAfterFlush (i : HSize) : List (ReadStep Unit) := [.readN 0 oneBlock intoBuffer, .flush, .store (startAt i)]

/-- The same before the flush. -/
def storeBeforeFlush (i : HSize) : List (ReadStep Unit) := [.readN 0 oneBlock intoBuffer, .store (startAt i), .flush]

/-- The two memories differ in a word of the arrays. -/
theorem startAt_differ (mem : UserMem) (i : HSize) :
    ∀ x, x ∉ ∅ ∪ oneBlock.words (startAt 0) ∪ oneBlock.words mem → startAt 0 x = startAt i x := by
  intro x hx
  have hne : x ≠ 10 := by
    rintro rfl
    refine hx (Or.inl (Or.inr ⟨0, by decide, Or.inr (Or.inr ⟨0, by decide, Or.inl rfl⟩)⟩))
  simp [startAt, hne]

theorem leavesQueued_storeAfterFlush (i : HSize) :
    LeavesQueued twoBytesFile ⟨(), fun _ => 0, startAt 0, []⟩ (storeAfterFlush i) := by
  refine ⟨nofun, fun s hs => ⟨nofun, fun s' hs' => ⟨?_, fun _ _ => trivial⟩⟩⟩
  intro mem _ q hq
  rw [flush_rreqs hs'] at hq
  cases hq

theorem queuedReads_same_storeAfterFlush :
    (ReadState.run twoBytesFile ⟨(), fun _ => 0, startAt 0, []⟩ (storeAfterFlush 0)).map ReadState.bufs =
      (ReadState.run twoBytesFile ⟨(), fun _ => 0, startAt 0, []⟩ (storeAfterFlush 1)).map ReadState.bufs := by
  refine queuedReads_same twoBytesFile () (fun _ => 0) (startAt 0) ?_ (leavesQueued_storeAfterFlush 0)
    (leavesQueued_storeAfterFlush 1)
  refine ⟨rfl, rfl, fun _ _ _ _ => ⟨rfl, fun _ _ _ _ => ⟨startAt_differ _ 1, trivial⟩⟩⟩

/-- Stored before the flush, the other start is read. -/
theorem not_queuedReads_same : ¬ ∀ (ops : FileOps Unit Unit) (bufs : Store) (mem : UserMem)
    (cs₁ cs₂ : List (ReadStep Unit)), SameCalls ops ∅ ⟨(), bufs, mem, []⟩ ⟨(), bufs, mem, []⟩ cs₁ cs₂ →
      (ReadState.run ops ⟨(), bufs, mem, []⟩ cs₁).map ReadState.bufs =
        (ReadState.run ops ⟨(), bufs, mem, []⟩ cs₂).map ReadState.bufs := by
  intro hall
  have hsame := hall twoBytesFile (fun _ => 0) (startAt 0) (storeBeforeFlush 0) (storeBeforeFlush 1)
    ⟨rfl, rfl, fun _ _ _ _ => ⟨startAt_differ _ 1, rfl, fun _ _ _ _ => trivial⟩⟩
  have hbyte := congrArg (fun r => r.toOption.map fun bufs : Store => bufs 1000) hsame
  exact absurd hbyte (by decide)

end LogVol
