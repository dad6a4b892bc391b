/-
# LogVol.FilterChain — the filters of a dataset, one after another.

`H5VL_logi_filter` and `H5VL_logi_unfilter` pass the data through two buffers in turn, from the caller's input
to the caller's output. `chainStage` is one stage of either loop and `run_eq_ok` what a run of stages comes to:
each stage deflates, and it has room exactly while the bound on its output is an `int`. Both functions call
deflate, so that `unfilter_filter_iff` is for inputs which come back when they are deflated over and over.
-/
import LogVol.DatasetWrite

namespace LogVol

/-! ## §1 — one stage. -/

/-- zlib with its default compression. `deflateBound` bounds the output, which has a header and a checksum at
least, and is less than twice the longest input there is. -/
structure Deflater where
  deflate : List UInt8 → List UInt8
  deflateBound : ℕ → ℕ
  length_le : ∀ bytes, (deflate bytes).length ≤ deflateBound bytes.length
  length_pos : ∀ bytes, 0 < (deflate bytes).length
  bound_lt : ∀ n < 2 ^ 31, deflateBound n < 2 ^ 32

/-- A buffer with its recorded size: how much memory there is behind the pointer, and what was written to it. -/
structure Scratch where
  cap : Option ℕ
  size : ℤ
  data : List UInt8

/-- No buffer. -/
def Scratch.null : Scratch := ⟨none, 0, []⟩

/-- `uInt`: an unsigned 32-bit word. -/
def uInt (n : ℕ) : ℕ := n % 2 ^ 32

theorem uInt_of_lt {n : ℕ} (h : n < 2 ^ 32) : uInt n = n := Nat.mod_eq_of_lt h

/-- The actual compression work, into so much memory. The bound is given to zlib as an `uInt`; zlib refuses a null
pointer, and so much memory must be there. -/
def deflateInto (z : Deflater) (bytes : List UInt8) : Option ℕ → Except Fault Scratch
  | none => .error (.raised "deflate fail")
  | some cap =>
      if cap < uInt (z.deflateBound bytes.length) then .error .outside
      else if uInt (z.deflateBound bytes.length) < (z.deflate bytes).length then .error (.raised "deflate fail")
      else .ok ⟨some cap, cInt (z.deflate bytes).length, z.deflate bytes⟩

/-- **`H5VL_logi_filter_deflate_alloc`**: the bound is compared as an `int`. -/
def deflateAlloc (z : Deflater) (bytes : List UInt8) (out : Scratch) : Except Fault Scratch :=
  if out.size < cInt (z.deflateBound bytes.length) then deflateInto z bytes (some (z.deflateBound bytes.length))
  else deflateInto z bytes out.cap

/-- The variables of either loop: the two buffers, the size of the input, and what the caller gets. -/
structure Chain where
  buf : Bool → Scratch
  sizeIn : ℤ
  out : Scratch

/-- What a stage reads: the caller's input, or a buffer that has as many bytes as its size says. -/
def Chain.input (st : Chain) (bytes : List UInt8) (first : Bool) (parity : Bool) : Except Fault (List UInt8) :=
  if first then .ok bytes
  else if ((st.buf parity).data.length : ℤ) < st.sizeIn then .error .outside
  else .ok ((st.buf parity).data.take st.sizeIn.toNat)

/-- Iteration `i` of either loop: the input and output buffers alternate, the first iteration reads from the
user's buffer, and the last one writes to the user's buffer. -/
def chainStage (z : Deflater) (bytes : List UInt8) (first last : ℕ → Bool) (st : Chain) (i : ℕ) (fl : Filter) :
    Except Fault Chain := do
  let bin ← st.input bytes (first i) (i % 2 = 1)
  if fl.id ≠ filterDeflate then .error (.raised "Filter not supported")
  else if last i then
    let out ← deflateAlloc z bin st.out
    pure { st with out := out }
  else
    let old := st.buf ((i + 1) % 2 = 1)
    let out ← deflateAlloc z bin old
    pure { st with
      buf := Function.update st.buf ((i + 1) % 2 = 1) { out with size := max old.size out.size }
      sizeIn := out.size }

/-- The loop over some of the stages. -/
def chainRun (z : Deflater) (bytes : List UInt8) (first last : ℕ → Bool) (st : Chain) (stages : List (ℕ × Filter)) :
    Except Fault Chain :=
  stages.foldlM (fun st s => chainStage z bytes first last st s.1 s.2) st

/-- The variables at the start. -/
def Chain.start (out : Scratch) : Chain := ⟨fun _ => .null, 0, out⟩

/-- The filters with their indices. -/
def stagesOf (pipeline : List Filter) : List (ℕ × Filter) := (List.range pipeline.length).zip pipeline

/-- **`H5VL_logi_filter`**: what the caller has in `out` afterwards. -/
def filterBytes (z : Deflater) (pipeline : List Filter) (bytes : List UInt8) (out : Scratch) : Except Fault Scratch :=
  (chainRun z bytes (fun i => i == 0) (fun i => i == pipeline.length - 1) (.start out) (stagesOf pipeline)).map
    Chain.out

/-- **`H5VL_logi_unfilter`**: the same stages, from the last filter to the first. -/
def unfilterBytes (z : Deflater) (pipeline : List Filter) (bytes : List UInt8) (out : Scratch) :
    Except Fault Scratch :=
  (chainRun z bytes (fun i => i == pipeline.length - 1) (fun i => i == 0) (.start out) (stagesOf pipeline).reverse).map
    Chain.out

/-! ## §2 — what a stage has room for. -/

/-- The recorded size is that of memory which is there, less than `2 ^ 31` bytes of it. -/
structure Scratch.Fits (s : Scratch) : Prop where
  size_nonneg : 0 ≤ s.size
  null : s.cap = none → s.size = 0
  size_le : ∀ cap ∈ s.cap, s.size ≤ cap
  cap_lt : ∀ cap ∈ s.cap, cap < 2 ^ 31

theorem Scratch.null_fits : Scratch.null.Fits :=
  ⟨le_rfl, fun _ => rfl, fun _ h => absurd h (Option.not_mem_none _), fun _ h => absurd h (Option.not_mem_none _)⟩

theorem cInt_neg {n : ℕ} (hlo : 2 ^ 31 ≤ n) (hhi : n < 2 ^ 32) : cInt n < 0 := by
  have hword : cInt n = (BitVec.ofNat 32 n).toInt := (BitVec.toInt_ofNat' ..).symm
  have hnat : (BitVec.ofNat 32 n).toNat = n := by
    rw [BitVec.toNat_ofNat, Nat.mod_eq_of_lt hhi]
  rw [hword, BitVec.toInt_eq_toNat_cond, hnat]
  split
  · omega
  · push_cast
    omega

/-- **A stage has room while the bound is an `int`.** -/
theorem deflateAlloc_ok (z : Deflater) {bytes : List UInt8} (hshort : bytes.length < 2 ^ 31) {out : Scratch}
    (hout : out.Fits)
    (hbound : z.deflateBound bytes.length < 2 ^ 31) :
    ∃ cap, out.size ≤ (cap : ℕ) ∧ (z.deflate bytes).length ≤ cap ∧ cap < 2 ^ 31 ∧
      deflateAlloc z bytes out = .ok ⟨some cap, (z.deflate bytes).length, z.deflate bytes⟩ := by
  have hle := z.length_le bytes
  have hpos := z.length_pos bytes
  have hcint : cInt (z.deflateBound bytes.length) = z.deflateBound bytes.length :=
    cInt_of_range (by omega) (by omega)
  have hlen : cInt (z.deflate bytes).length = (z.deflate bytes).length := cInt_of_range (by omega) (by omega)
  have huint : uInt (z.deflateBound bytes.length) = z.deflateBound bytes.length :=
    uInt_of_lt (z.bound_lt bytes.length hshort)
  have hinto : ∀ cap, z.deflateBound bytes.length ≤ cap →
      deflateInto z bytes (some cap) = .ok ⟨some cap, (z.deflate bytes).length, z.deflate bytes⟩ := by
    intro cap hcap
    rw [deflateInto, if_neg (by rw [huint]; omega), if_neg (by rw [huint]; omega), hlen]
  unfold deflateAlloc
  by_cases hnew : out.size < cInt (z.deflateBound bytes.length)
  · rw [if_pos hnew]
    exact ⟨z.deflateBound bytes.length, (hcint ▸ hnew).le, hle, hbound, hinto _ le_rfl⟩
  · rw [if_neg hnew]
    rw [hcint] at hnew
    rcases hcap : out.cap with _ | cap
    · have hzero := hout.null hcap
      omega
    · have hsize := hout.size_le cap hcap
      exact ⟨cap, hsize, by omega, hout.cap_lt cap hcap, hinto cap (by omega)⟩

/-- From there on the bound is negative as an `int`, and the buffer that is there is too small. -/
theorem deflateAlloc_error (z : Deflater) {bytes : List UInt8} (hlen : bytes.length < 2 ^ 31) {out : Scratch}
    (hout : out.Fits) (hbound : ¬ z.deflateBound bytes.length < 2 ^ 31) :
    ∃ err, deflateAlloc z bytes out = .error err := by
  have hlt := z.bound_lt bytes.length hlen
  have hold : ¬ out.size < cInt (z.deflateBound bytes.length) :=
    not_lt.mpr ((cInt_neg (Nat.not_lt.mp hbound) hlt).le.trans hout.size_nonneg)
  unfold deflateAlloc
  rw [if_neg hold]
  rcases hcap : out.cap with _ | cap
  · exact ⟨_, rfl⟩
  · have hsmall : cap < uInt (z.deflateBound bytes.length) := by
      rw [uInt_of_lt hlt]
      exact (hout.cap_lt cap hcap).trans_le (Nat.not_lt.mp hbound)
    exact ⟨_, if_pos hsmall⟩

/-! ## §3 — the loop. -/

/-- Between two stages: the output of the one is the input of the next. -/
structure Chain.Ready (st : Chain) (parity : Bool) (bytes : List UInt8) : Prop where
  data : (st.buf parity).data = bytes
  size : st.sizeIn = bytes.length
  fits : ∀ p, (st.buf p).Fits
  out : st.out.Fits

variable {z : Deflater} {bytes d : List UInt8} {first last : ℕ → Bool} {st : Chain} {i : ℕ} {fl : Filter}

theorem Chain.Ready.input (h : st.Ready (i % 2 = 1) d) (hfirst : first i = false) :
    st.input bytes (first i) (i % 2 = 1) = .ok d := by
  rw [Chain.input, hfirst, if_neg Bool.false_ne_true, h.data, h.size, if_neg (lt_irrefl _), Int.toNat_natCast,
    List.take_length]

theorem Chain.start_fits {out : Scratch} (p : Bool) : ((Chain.start out).buf p).Fits := Scratch.null_fits

/-- A stage before the last one. -/
theorem chainStage_next (hfl : fl.id = filterDeflate) (hlast : last i = false)
    (hin : st.input bytes (first i) (i % 2 = 1) = .ok d) (hlen : d.length < 2 ^ 31)
    (hfits : ∀ p, (st.buf p).Fits) (hout : st.out.Fits) (hbound : z.deflateBound d.length < 2 ^ 31) :
    ∃ st', chainStage z bytes first last st i fl = .ok st' ∧ st'.Ready ((i + 1) % 2 = 1) (z.deflate d) := by
  obtain ⟨cap, hsize, hle, hlt, halloc⟩ := deflateAlloc_ok z hlen (hfits ((i + 1) % 2 = 1)) hbound
  unfold chainStage
  rw [hin, Lib.ok_bind, if_neg (not_not.mpr hfl), hlast, if_neg Bool.false_ne_true]
  simp only [halloc, Lib.ok_bind]
  refine ⟨_, rfl, ?_⟩
  constructor
  · simp
  · rfl
  · intro p
    show (Function.update st.buf ((i + 1) % 2 = 1 : Bool) _ p).Fits
    by_cases hp : p = ((i + 1) % 2 = 1 : Bool)
    · subst hp
      rw [Function.update_self]
      have hold := (hfits ((i + 1) % 2 = 1)).size_nonneg
      refine ⟨le_max_of_le_left hold, fun h => (by cases h), ?_, ?_⟩
      · intro c hc
        obtain rfl := Option.some.inj hc
        exact max_le hsize (by exact_mod_cast hle)
      · intro c hc
        obtain rfl := Option.some.inj hc
        exact hlt
    · rw [Function.update_of_ne hp]
      exact hfits p
  · exact hout

/-- The last stage. -/
theorem chainStage_last (hfl : fl.id = filterDeflate) (hlast : last i = true)
    (hin : st.input bytes (first i) (i % 2 = 1) = .ok d) (hlen : d.length < 2 ^ 31) (hout : st.out.Fits)
    (hbound : z.deflateBound d.length < 2 ^ 31) :
    ∃ st', chainStage z bytes first last st i fl = .ok st' ∧ st'.out.data = z.deflate d ∧
      st'.out.size = (z.deflate d).length := by
  obtain ⟨cap, -, -, -, halloc⟩ := deflateAlloc_ok z hlen hout hbound
  unfold chainStage
  rw [hin, Lib.ok_bind, if_neg (not_not.mpr hfl), hlast, if_pos rfl, halloc]
  exact ⟨_, rfl, rfl, rfl⟩

/-- A stage without room. -/
theorem chainStage_error (hfl : fl.id = filterDeflate) (hin : st.input bytes (first i) (i % 2 = 1) = .ok d)
    (hlen : d.length < 2 ^ 31) (hfits : ∀ p, (st.buf p).Fits) (hout : st.out.Fits)
    (hbound : ¬ z.deflateBound d.length < 2 ^ 31) :
    ∃ err, chainStage z bytes first last st i fl = .error err := by
  unfold chainStage
  rw [hin, Lib.ok_bind, if_neg (not_not.mpr hfl)]
  split
  · obtain ⟨err, herr⟩ := deflateAlloc_error z hlen hout hbound
    exact ⟨err, by rw [herr]; rfl⟩
  · obtain ⟨err, herr⟩ := deflateAlloc_error z hlen (hfits ((i + 1) % 2 = 1)) hbound
    exact ⟨err, by simp only [herr]; rfl⟩

/-- Stages that follow one another: all of them deflate, only the last one is the last, and each reads the
buffer that the one before it has written. -/
def Linked (first last : ℕ → Bool) : List (ℕ × Filter) → Prop
  | [] => False
  | [s] => s.2.id = filterDeflate ∧ last s.1 = true
  | s :: s' :: stages => s.2.id = filterDeflate ∧ last s.1 = false ∧ first s'.1 = false ∧
      s'.1 % 2 = (s.1 + 1) % 2 ∧ Linked first last (s' :: stages)

/-- The data after `n` stages. -/
def deflated (z : Deflater) (n : ℕ) (bytes : List UInt8) : List UInt8 := z.deflate^[n] bytes

/-- Every one of the first `n` stages has room. -/
def AllBounded (z : Deflater) (n : ℕ) (bytes : List UInt8) : Prop :=
  ∀ k < n, z.deflateBound (deflated z k bytes).length < 2 ^ 31

theorem allBounded_succ (z : Deflater) (n : ℕ) (bytes : List UInt8) :
    AllBounded z (n + 1) bytes ↔ z.deflateBound bytes.length < 2 ^ 31 ∧ AllBounded z n (z.deflate bytes) := by
  constructor
  · intro h
    refine ⟨h 0 (Nat.succ_pos n), ?_⟩
    intro k hk
    exact h (k + 1) (by omega)
  · rintro ⟨hfirst, hrest⟩ k hk
    rcases k with _ | k
    · exact hfirst
    · exact hrest k (by omega)

theorem chainRun_cons {s : ℕ × Filter} {st' : Chain} (hstage : chainStage z bytes first last st s.1 s.2 = .ok st')
    (rest : List (ℕ × Filter)) :
    chainRun z bytes first last st (s :: rest) = chainRun z bytes first last st' rest := by
  rw [chainRun, List.foldlM_cons, hstage, Lib.ok_bind]
  rfl

/-- **A run of stages** deflates the data once for each of them, and ends exactly when every stage has room. -/
theorem chainRun_spec {s : ℕ × Filter} {stages : List (ℕ × Filter)} (hlink : Linked first last (s :: stages))
    (hin : st.input bytes (first s.1) (s.1 % 2 = 1) = .ok d) (hlen : d.length < 2 ^ 31)
    (hfits : ∀ p, (st.buf p).Fits) (hout : st.out.Fits) :
    (AllBounded z (stages.length + 1) d → ∃ st', chainRun z bytes first last st (s :: stages) = .ok st' ∧
      st'.out.data = deflated z (stages.length + 1) d ∧ st'.out.size = (deflated z (stages.length + 1) d).length) ∧
    (¬ AllBounded z (stages.length + 1) d → ∃ err, chainRun z bytes first last st (s :: stages) = .error err) := by
  -- Each stage deflates what the one before it put into the other buffer.
  induction stages generalizing s st d with
  | nil =>
    obtain ⟨hfl, hlast⟩ := hlink
    rw [List.length_nil, allBounded_succ]
    constructor
    · rintro ⟨hbound, -⟩
      obtain ⟨st', hstage, hdata, hsize⟩ := @chainStage_last z _ _ first _ _ _ _ hfl hlast hin hlen hout hbound
      exact ⟨st', by rw [chainRun_cons hstage]; rfl, hdata, hsize⟩
    · intro hno
      have hbound : ¬ z.deflateBound d.length < 2 ^ 31 := fun h => hno ⟨h, fun k hk => absurd hk (Nat.not_lt_zero k)⟩
      obtain ⟨err, hstage⟩ := @chainStage_error z _ _ first last _ _ _ hfl hin hlen hfits hout hbound
      exact ⟨err, by rw [chainRun, List.foldlM_cons, hstage]; rfl⟩
  | cons s' stages ih =>
    obtain ⟨hfl, hlast, hfirst', hparity, hlink'⟩ := hlink
    rw [List.length_cons, allBounded_succ]
    by_cases hbound : z.deflateBound d.length < 2 ^ 31
    · obtain ⟨st', hstage, hready⟩ := @chainStage_next z _ _ first _ _ _ _ hfl hlast hin hlen hfits hout hbound
      rw [← hparity] at hready
      have hlen' : (z.deflate d).length < 2 ^ 31 := (z.length_le d).trans_lt hbound
      obtain ⟨hgood, hbad⟩ := ih hlink' (hready.input hfirst') hlen' hready.fits hready.out
      rw [chainRun_cons hstage]
      constructor
      · rintro ⟨-, hrest⟩
        exact hgood hrest
      · intro hno
        exact hbad fun hrest => hno ⟨hbound, hrest⟩
    · constructor
      · rintro ⟨h, -⟩
        exact absurd h hbound
      · intro _
        obtain ⟨err, hstage⟩ := @chainStage_error z _ _ first last _ _ _ hfl hin hlen hfits hout hbound
        exact ⟨err, by rw [chainRun, List.foldlM_cons, hstage]; rfl⟩

/-! ## §4 — the pipelines. -/

/-- The filters with indices from `i` on. -/
theorem linked_from {pipeline : List Filter} (hne : pipeline ≠ []) (hall : ∀ f ∈ pipeline, f.id = filterDeflate)
    {n i : ℕ} (hn : i + pipeline.length = n) :
    Linked (fun i => i == 0) (fun i => i == n - 1) ((List.range' i pipeline.length).zip pipeline) := by
  induction pipeline generalizing i with
  | nil => exact absurd rfl hne
  | cons f pipeline ih =>
    rw [List.length_cons] at hn
    have hf := hall f (List.mem_cons_self ..)
    rcases pipeline with _ | ⟨g, pipeline⟩
    · refine ⟨hf, ?_⟩
      simp only [List.length_nil] at hn
      simp only [beq_iff_eq]
      omega
    · have hrest := ih (List.cons_ne_nil _ _) (fun x hx => hall x (List.mem_cons_of_mem f hx))
        (i := i + 1) (by omega)
      simp only [List.length_cons] at hn
      refine ⟨hf, ?_, ?_, rfl, hrest⟩
      · simp only [beq_eq_false_iff_ne]
        omega
      · simp

theorem stagesOf_reverse (pipeline : List Filter) (f : Filter) :
    (stagesOf (pipeline ++ [f])).reverse = (pipeline.length, f) :: (stagesOf pipeline).reverse := by
  rw [stagesOf, List.length_append, List.length_singleton, List.range_succ, List.zip_append List.length_range,
    List.reverse_append]
  rfl

/-- The filters from the last to the first. -/
theorem linked_reverse {pipeline : List Filter} (hne : pipeline ≠ [])
    (hall : ∀ f ∈ pipeline, f.id = filterDeflate) {n : ℕ} (hn : pipeline.length ≤ n) :
    Linked (fun i => i == n - 1) (fun i => i == 0) (stagesOf pipeline).reverse := by
  induction pipeline using List.reverseRecOn with
  | nil => exact absurd rfl hne
  | append_singleton pipeline f ih =>
    rw [List.length_append, List.length_singleton] at hn
    have hf := hall f (List.mem_append_right _ (List.mem_singleton_self f))
    rw [stagesOf_reverse]
    rcases List.eq_nil_or_concat' pipeline with rfl | ⟨pre, g, hpre⟩
    · exact ⟨hf, rfl⟩
    · have hpne : pipeline ≠ [] := by
        rw [hpre]
        simp
      have hrest := ih hpne (fun x hx => hall x (List.mem_append_left _ hx)) (by omega)
      have hlen : pipeline.length = pre.length + 1 := by
        rw [hpre]
        simp
      rw [hpre, stagesOf_reverse] at hrest
      rw [hpre, stagesOf_reverse, ← hpre]
      refine ⟨hf, ?_, ?_, ?_, hrest⟩
      · simp only [beq_eq_false_iff_ne]
        omega
      · simp only [beq_eq_false_iff_ne]
        omega
      · dsimp only
        omega

/-- A buffer that the caller passes: its size is an `int`, and so much memory is there. -/
def callerBuf (size : Option ℕ) : Scratch := ⟨size, (size.getD 0 : ℕ), []⟩

theorem callerBuf_fits {size : Option ℕ} (h : ∀ n ∈ size, n < 2 ^ 31) : (callerBuf size).Fits := by
  refine ⟨Int.natCast_nonneg _, ?_, ?_, h⟩
  · rintro rfl
    rfl
  · intro cap hcap
    obtain rfl : size = some cap := hcap
    exact le_rfl

variable {pipeline : List Filter}

/-- What the caller gets: the data deflated so often, with its size. -/
def Scratch.Holds (s : Scratch) (bytes : List UInt8) : Prop := s.data = bytes ∧ s.size = bytes.length

/-- A whole loop, from the caller's input to the caller's output. -/
theorem chain_spec (z : Deflater) {stages : List (ℕ × Filter)} {n : ℕ} (hn : stages.length = n)
    (hlink : Linked first last stages) (hfirst : ∀ s ∈ stages.head?, first s.1 = true) (hlen : bytes.length < 2 ^ 31)
    {out : Scratch} (hout : out.Fits) :
    (AllBounded z n bytes → ∃ r, (chainRun z bytes first last (.start out) stages).map Chain.out = .ok r ∧
      r.Holds (deflated z n bytes)) ∧
    (¬ AllBounded z n bytes → ∃ err, (chainRun z bytes first last (.start out) stages).map Chain.out = .error err) := by
  rcases stages with _ | ⟨s, stages⟩
  · exact absurd hlink id
  · subst hn
    have hin : (Chain.start out).input bytes (first s.1) (s.1 % 2 = 1) = .ok bytes := by
      rw [Chain.input, hfirst s rfl, if_pos rfl]
    obtain ⟨hgood, hbad⟩ := chainRun_spec (z := z) hlink hin hlen Chain.start_fits hout
    constructor
    · intro h
      obtain ⟨st', hrun, hdata, hsize⟩ := hgood h
      exact ⟨st'.out, by rw [hrun]; rfl, hdata, hsize⟩
    · intro h
      obtain ⟨err, hrun⟩ := hbad h
      exact ⟨err, by rw [hrun]; rfl⟩

theorem filterBytes_spec (z : Deflater) (hne : pipeline ≠ []) (hall : ∀ f ∈ pipeline, f.id = filterDeflate)
    (hlen : bytes.length < 2 ^ 31) {out : Scratch} (hout : out.Fits) :
    (AllBounded z pipeline.length bytes → ∃ r, filterBytes z pipeline bytes out = .ok r ∧
      r.Holds (deflated z pipeline.length bytes)) ∧
    (¬ AllBounded z pipeline.length bytes → ∃ err, filterBytes z pipeline bytes out = .error err) := by
  have hlink := linked_from hne hall (Nat.zero_add pipeline.length)
  rw [← List.range_eq_range', ← stagesOf] at hlink
  apply chain_spec z _ hlink _ hlen hout
  · simp [stagesOf]
  · obtain ⟨f, fs, rfl⟩ := List.exists_cons_of_ne_nil hne
    intro s hs
    rw [stagesOf, List.length_cons, List.range_succ_eq_map] at hs
    obtain rfl : (0, f) = s := Option.some.inj hs
    rfl

/-- And so does the function that should undo it. -/
theorem unfilterBytes_spec (z : Deflater) (hne : pipeline ≠ []) (hall : ∀ f ∈ pipeline, f.id = filterDeflate)
    (hlen : bytes.length < 2 ^ 31) {out : Scratch} (hout : out.Fits) :
    (AllBounded z pipeline.length bytes → ∃ r, unfilterBytes z pipeline bytes out = .ok r ∧
      r.Holds (deflated z pipeline.length bytes)) ∧
    (¬ AllBounded z pipeline.length bytes → ∃ err, unfilterBytes z pipeline bytes out = .error err) := by
  apply chain_spec z _ (linked_reverse hne hall le_rfl) _ hlen hout
  · simp [stagesOf]
  · rcases List.eq_nil_or_concat' pipeline with rfl | ⟨pre, g, rfl⟩
    · exact absurd rfl hne
    · intro s hs
      rw [stagesOf_reverse] at hs
      obtain rfl : (pre.length, g) = s := Option.some.inj hs
      simp

/-! ## §5 — the round trip. -/

/-- **`UnfilterRestores`** — the data is filtered, and unfiltering it gives it back with its length. No stage reads
or writes beyond a buffer. -/
def UnfilterRestores (z : Deflater) (pipeline : List Filter) (bytes : List UInt8) (out out' : Scratch) : Prop :=
  ∃ filtered, filterBytes z pipeline bytes out = .ok filtered ∧
    ∃ r, unfilterBytes z pipeline (filtered.data.take filtered.size.toNat) out' = .ok r ∧ r.Holds bytes

theorem deflated_add (z : Deflater) (m n : ℕ) (bytes : List UInt8) :
    deflated z m (deflated z n bytes) = deflated z (m + n) bytes :=
  (Function.iterate_add_apply z.deflate m n bytes).symm

theorem allBounded_add (z : Deflater) (m n : ℕ) (bytes : List UInt8) :
    AllBounded z (m + n) bytes ↔ AllBounded z n bytes ∧ AllBounded z m (deflated z n bytes) := by
  constructor
  · intro h
    refine ⟨fun k hk => h k (by omega), ?_⟩
    intro k hk
    rw [deflated_add]
    exact h (k + n) (by omega)
  · rintro ⟨hlo, hhi⟩ k hk
    by_cases hkn : k < n
    · exact hlo k hkn
    · have h := hhi (k - n) (by omega)
      rwa [deflated_add, Nat.sub_add_cancel (by omega)] at h

/-- What was deflated with room for it is not too long. -/
theorem deflated_short {n : ℕ} (hn : 0 < n) (h : AllBounded z n bytes) : (deflated z n bytes).length < 2 ^ 31 := by
  obtain ⟨k, rfl⟩ := Nat.exists_eq_add_one.mpr hn
  have hstep : deflated z (k + 1) bytes = z.deflate (deflated z k bytes) :=
    Function.iterate_succ_apply' z.deflate k bytes
  rw [hstep]
  exact (z.length_le _).trans_lt (h k (Nat.lt_succ_self k))

theorem Scratch.Holds.take {s : Scratch} (h : s.Holds bytes) : s.data.take s.size.toNat = bytes := by
  rw [h.1, h.2, Int.toNat_natCast, List.take_length]

/-- **`unfilter_filter_iff`** — for every pipeline of deflate filters and all data whose length is an `int`. -/
theorem unfilter_filter_iff (z : Deflater) (hne : pipeline ≠ []) (hall : ∀ f ∈ pipeline, f.id = filterDeflate)
    (hlen : bytes.length < 2 ^ 31) {out out' : Scratch} (hout : out.Fits) (hout' : out'.Fits) :
    UnfilterRestores z pipeline bytes out out' ↔
      AllBounded z (pipeline.length + pipeline.length) bytes ∧
        deflated z (pipeline.length + pipeline.length) bytes = bytes := by
  have hpos := List.length_pos_iff.mpr hne
  obtain ⟨hgood, hbad⟩ := filterBytes_spec z hne hall hlen hout
  rw [allBounded_add, ← deflated_add]
  constructor
  · rintro ⟨filtered, hfilter, r, hunfilter, hr⟩
    -- Unfiltering deflates as often again, so nothing is restored unless that leads back to the data.
    by_cases hall₁ : AllBounded z pipeline.length bytes
    · obtain ⟨f, hf, hfh⟩ := hgood hall₁
      rw [hfilter] at hf
      obtain rfl := Except.ok.inj hf
      rw [hfh.take] at hunfilter
      obtain ⟨hgood', hbad'⟩ := unfilterBytes_spec z hne hall (deflated_short hpos hall₁) hout'
      by_cases hall₂ : AllBounded z pipeline.length (deflated z pipeline.length bytes)
      · obtain ⟨r', hr', hrh⟩ := hgood' hall₂
        rw [hunfilter] at hr'
        obtain rfl := Except.ok.inj hr'
        exact ⟨⟨hall₁, hall₂⟩, hrh.1.symm.trans hr.1⟩
      · obtain ⟨err, herr⟩ := hbad' hall₂
        rw [hunfilter] at herr
        cases herr
    · obtain ⟨err, herr⟩ := hbad hall₁
      rw [hfilter] at herr
      cases herr
  · rintro ⟨⟨hall₁, hall₂⟩, heq⟩
    obtain ⟨filtered, hfilter, hfh⟩ := hgood hall₁
    obtain ⟨r, hunfilter, hr⟩ := (unfilterBytes_spec z hne hall (deflated_short hpos hall₁) hout').1 hall₂
    rw [heq] at hr
    exact ⟨filtered, hfilter, r, by rw [hfh.take]; exact hunfilter, hr⟩

/-- What zlib gives for the empty input and for four bytes, and for what it has given, again and again. -/
def zlibStreams : List (List UInt8 × List UInt8) :=
  let e₁ : List UInt8 := [0x78, 0x9c, 0x03, 0, 0, 0, 0, 0x01]
  let e₂ : List UInt8 := [0x78, 0x9c, 0xab, 0x98, 0xc3, 0xcc, 0, 0x04, 0x8c, 0, 0x08, 0x1f, 0x01, 0x19]
  let d₁ : List UInt8 := [0x78, 0x9c, 0x63, 0x64, 0x62, 0x66, 1, 0, 0, 0x18, 0, 0x0b]
  let d₂ : List UInt8 := [0x78, 0x9c, 0xab, 0x98, 0x93, 0x9c, 0x92, 0x94, 0xc6, 0xc8, 0xc0, 0x20, 0xc1, 0xc0, 0x0d, 0,
    0x19, 0xf5, 2, 0xc8]
  let d₃ : List UInt8 := [0x78, 0x9c, 0xab, 0x98, 0xb3, 0x7a, 0xc6, 0xe4, 0x39, 0x93, 0xa6, 0x1c, 0x3b, 0x71, 0x40,
    0xe1, 0xe0, 1, 0x5e, 6, 0xc9, 0xaf, 0x4c, 0x27, 0, 0x77, 0x1f, 0x0a, 0x81]
  let d₄ : List UInt8 := [0x78, 0x9c, 0xab, 0x98, 0xb3, 0x7a, 0xc6, 0xe6, 0xaa, 0x63, 0x4f, 0x2c, 0x27, 0x2f, 0x93,
    0xb1, 0x2e, 0x74, 0x78, 0xf8, 0x80, 0x31, 0x8e, 0xed, 0xe4, 0x7a, 0x1f, 0x75, 0x86, 0x72, 0x79, 0xae, 0x46, 0,
    0xde, 0x0e, 0x0c, 0xdb]
  [([], e₁), (e₁, e₂), ([1, 2, 3, 4], d₁), (d₁, d₂), (d₂, d₃), (d₃, d₄)]

/-- zlib on these; everything else as it is behind a header. -/
def sampleDeflate (bytes : List UInt8) : List UInt8 := (zlibStreams.lookup bytes).getD ([0x78, 0x01] ++ bytes)

/-- The bound zlib gives with its default settings. -/
def sampleBound (n : ℕ) : ℕ := n + n / 2 ^ 12 + n / 2 ^ 14 + n / 2 ^ 25 + 13

theorem zlibStreams_length : ∀ p ∈ zlibStreams, p.2.length ≤ sampleBound p.1.length ∧ 0 < p.2.length := by decide

theorem sampleDeflate_length (bytes : List UInt8) :
    (sampleDeflate bytes).length ≤ sampleBound bytes.length ∧ 0 < (sampleDeflate bytes).length := by
  unfold sampleDeflate
  cases h : zlibStreams.lookup bytes with
  | none =>
    simp [sampleBound]
    omega
  | some out =>
    rw [List.lookup_eq_some_iff] at h
    rcases h with ⟨pre, post, heq, -⟩
    exact zlibStreams_length (bytes, out) (by simp [heq])

theorem sampleBound_lt (n : ℕ) (h : n < 2 ^ 31) : sampleBound n < 2 ^ 32 := by
  unfold sampleBound
  omega

def sampleDeflater : Deflater :=
  ⟨sampleDeflate, sampleBound, fun bytes => (sampleDeflate_length bytes).1, fun bytes => (sampleDeflate_length bytes).2,
    sampleBound_lt⟩

def oneDeflate : List Filter := [⟨filterDeflate⟩]

theorem oneDeflate_ne_nil : oneDeflate ≠ [] := List.cons_ne_nil _ _

theorem oneDeflate_all (f : Filter) (hf : f ∈ oneDeflate) : f.id = filterDeflate := by
  obtain rfl : f = ⟨filterDeflate⟩ := List.mem_singleton.mp hf
  rfl

theorem callerBuf_none_fits : (callerBuf none).Fits := callerBuf_fits fun _ h => absurd h (Option.not_mem_none _)

/-- Two filters and four bytes: what comes back has been compressed four times. -/
theorem unfilterRestores_twoDeflates :
    ¬ UnfilterRestores sampleDeflater (oneDeflate ++ oneDeflate) [1, 2, 3, 4] (callerBuf none) (callerBuf none) := by
  have hall : ∀ f ∈ oneDeflate ++ oneDeflate, f.id = filterDeflate := by simp [oneDeflate]
  rw [unfilter_filter_iff sampleDeflater (by simp [oneDeflate]) hall (by decide) callerBuf_none_fits
    callerBuf_none_fits]
  rintro ⟨-, hback⟩
  exact absurd hback (by decide +kernel)

/-- One filter and no data: what comes back is the compressed stream, compressed once more. -/
theorem unfilter_deflates_again :
    ∃ (z : Deflater) (pipeline : List Filter) (bytes : List UInt8), pipeline ≠ [] ∧
      (∀ f ∈ pipeline, f.id = filterDeflate) ∧ bytes.length < 2 ^ 31 ∧
      ¬ UnfilterRestores z pipeline bytes (callerBuf none) (callerBuf none) := by
  have hbounded : AllBounded sampleDeflater (1 + 1) [] := by
    rw [allBounded_succ, allBounded_succ]
    exact ⟨by decide, by decide, fun k hk => absurd hk (Nat.not_lt_zero k)⟩
  rw [allBounded_add] at hbounded
  refine ⟨sampleDeflater, oneDeflate, [], oneDeflate_ne_nil, oneDeflate_all, by decide, ?_⟩
  rintro ⟨filtered, hfilter, r, hunfilter, hr⟩
  obtain ⟨f, hf, hfh⟩ := (filterBytes_spec sampleDeflater oneDeflate_ne_nil oneDeflate_all (by decide)
    callerBuf_none_fits).1 hbounded.1
  obtain rfl := Except.ok.inj (hfilter.symm.trans hf)
  rw [hfh.take] at hunfilter
  obtain ⟨r', hr', hrh⟩ := (unfilterBytes_spec sampleDeflater oneDeflate_ne_nil oneDeflate_all
    (deflated_short Nat.one_pos hbounded.1) callerBuf_none_fits).1 hbounded.2
  obtain rfl := Except.ok.inj (hunfilter.symm.trans hr')
  exact absurd (hrh.1.symm.trans hr.1) (by decide)

end LogVol
