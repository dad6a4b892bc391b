/-
# LogVol.Subfiling — the subfiles of a file, when it is created and closed, and when it is opened again.

The processes that create a file are divided into groups, and each group writes to a subfile. What its log
group has is counted, and closing the file stores the counts in an attribute of the subfile, and zeros in that
of the main file. Opening the file makes the groups, the names and the counts anew, and a flush of read requests
switches from one subfile to the next. `ReadsBack` says that all of this agrees with what was stored, and
`readsBack_iff` for which files it does.
-/
import LogVol.Base
import LogVol.Lib.Reader

namespace LogVol

/-! ## §1 — groups. -/

/-- The processes that create or open a file: how many there are, and the compute node of each. -/
structure Launch where
  np : ℕ
  nodes : ℕ → ℕ
  np_pos : 0 < np
  np_lt : np < 2 ^ 31

/-- The color of a process: so many groups, or one for each compute node. -/
def Launch.color (l : Launch) (ngroup : I32) (rank : ℕ) : ℕ :=
  if 0 < ngroup.toInt then rank * ngroup.toNat / l.np else l.nodes rank

/-- `MPI_Comm_rank` among the processes of the same color. -/
def groupRank (color : ℕ → ℕ) (rank : ℕ) : ℕ :=
  ((List.range rank).filter fun i => decide (color i = color rank)).length

/-- How many of the first `n` processes are the first of their group. -/
def groupRoots (color : ℕ → ℕ) (n : ℕ) : ℕ :=
  ((List.range n).filter fun i => decide (groupRank color i = 0)).length

/-- The first process of the group, which broadcasts the group ID. -/
def groupRoot (color : ℕ → ℕ) (rank : ℕ) : ℕ :=
  ((List.range rank).find? fun i => decide (color i = color rank)).getD rank

structure NodeRank where
  groupRank : ℕ
  groupNp : ℕ
  groupId : ℕ
  ngroup : ℕ

/-- **`H5VL_log_filei_calc_node_rank`**, without aligned writes. The group ID is assigned by the global rank of
group rank 0. `rank * ngroup` is an `int`, whose overflow is not defined. -/
def calcNodeRank (l : Launch) (ngroup : I32) (rank : ℕ) : Except Fault NodeRank :=
  if 0 < ngroup.toInt ∧ 2 ^ 31 ≤ (l.np - 1) * ngroup.toNat then .error .outside
  else
    let color := l.color ngroup
    .ok {
      groupRank := groupRank color rank
      groupNp := ((List.range l.np).filter fun i => decide (color i = color rank)).length
      groupId := groupRoots color (groupRoot color rank)
      ngroup := groupRoots color l.np }

/-! ## §2 — names. -/

/-- `basename`, the one of POSIX. -/
def basename (path : List Char) : List Char :=
  if path = [] then ['.']
  else
    let stripped := path.rdropWhile (· == '/')
    if stripped = [] then ['/'] else stripped.rtakeWhile (· != '/')

/-- `std::to_string`. -/
def digits (id : ℕ) : List Char := (Nat.repr id).toList

/-- The name of a subfile in `H5VL_log_filei_create_subfile`. -/
def createSubname (name : List Char) (id : ℕ) : List Char :=
  name ++ ".subfiles/".toList ++ basename name ++ ['.'] ++ digits id

/-- The name of a subfile in `H5VL_log_filei_open_subfile`. -/
def openSubname (name : List Char) (id : ℕ) : List Char :=
  name ++ ".subfiles/".toList ++ name ++ ['.'] ++ digits id

/-! ## §3 — creating and closing. -/

/-- `H5VL_LOG_FILEI_ATTR`. -/
structure FileAttr where
  ndset : I32
  nldset : I32
  nmdset : I32
  config : I32
  ngroup : I32
  deriving DecidableEq, Repr

/-- What the property lists and the environment say of a file that is created, with subfiling. -/
structure CreatePlists where
  metaMerge : Bool
  metaShare : Bool
  metaZip : Bool
  selEncode : Bool
  singleSubfileRead : Bool
  passthru : Bool
  dataAlign : Bool

/-- `H5VL_log_filei_parse_fapl` and `H5VL_log_filei_parse_fcpl`. -/
def CreatePlists.config (p : CreatePlists) : I32 :=
  orIf true FileConfig.subfiling <| orIf p.dataAlign FileConfig.dataAlign <|
    orIf p.passthru FileConfig.passthru <| orIf p.singleSubfileRead FileConfig.singleSubfileRead <|
    orIf p.selEncode FileConfig.selEncode <| orIf p.metaZip FileConfig.selDeflate <|
    orIf p.metaShare FileConfig.metadataShare <| orIf p.metaMerge FileConfig.metadataMerge 0

/-- What the log group of a subfile has: data and metadata datasets. -/
structure LogCounts where
  nldset : I32
  nmdset : I32

/-- One collective flush, of data or of metadata, and which groups have anything to write. -/
inductive SubfileOp
  | flush (data : ℕ → Bool)
  | metaflush (entries : ℕ → Bool)

/-- A dataset is created in a subfile when its group has anything. -/
def SubfileOp.count (g : ℕ) (c : LogCounts) : SubfileOp → LogCounts
  | .flush data => if data g then { c with nldset := c.nldset + 1 } else c
  | .metaflush entries => if entries g then { c with nmdset := c.nmdset + 1 } else c

/-- The counts of group `g` when the file is closed. -/
def countsOf (ops : List SubfileOp) (g : ℕ) : LogCounts := ops.foldl (SubfileOp.count g) ⟨0, 0⟩

structure FileCreation where
  name : List Char
  launch : Launch
  plists : CreatePlists
  ngroup : I32
  ndset : I32
  ops : List SubfileOp

structure StoredSubfile where
  name : List Char
  attr : FileAttr

/-- What is there once the file is closed: the attribute of the main file, and the subfiles by group. -/
structure StoredFile where
  main : FileAttr
  subfiles : List StoredSubfile

/-- **`H5VL_log_filei_close`**, the attribute in the subfile: no subfiling flag in a subfile. -/
def subfileAttr (ndset config ngroup : I32) (c : LogCounts) : FileAttr :=
  ⟨ndset, c.nldset, c.nmdset, clearFlag config FileConfig.subfiling, ngroup⟩

/-- The attribute in the main file: no data and metadata in the main file, and the flag is turned back on. -/
def mainAttr (ndset config ngroup : I32) : FileAttr :=
  ⟨ndset, 0, 0, orIf true FileConfig.subfiling (clearFlag config FileConfig.subfiling), ngroup⟩

/-- **From `H5VL_log_filei_post_create` to `H5VL_log_filei_close`.** Aligned write is not supported in
subfiles. -/
def FileCreation.stored (c : FileCreation) : Except Fault StoredFile := do
  let n ← calcNodeRank c.launch c.ngroup 0
  let config := clearFlag c.plists.config FileConfig.dataAlign
  let ngroup := BitVec.ofNat 32 n.ngroup
  pure {
    main := mainAttr c.ndset config ngroup
    subfiles := (List.range n.ngroup).map fun g =>
      ⟨createSubname c.name g, subfileAttr c.ndset config ngroup (countsOf c.ops g)⟩ }

/-! ## §4 — opening and reading. -/

/-- A process that has opened the file, and a subfile. -/
structure SubfiledProc where
  name : List Char
  ndset : I32
  nldset : I32
  nmdset : I32
  config : I32
  ngroup : ℕ
  groupId : ℕ
  subname : List Char

/-- **`H5VL_log_filei_open_subfile`**: the attribute is the one of the main file. -/
def openSubfile (main : FileAttr) (p : SubfiledProc) : SubfiledProc :=
  { p with
    subname := openSubname p.name p.groupId
    nldset := main.nldset
    nmdset := main.nmdset }

/-- **`H5VL_log_filei_post_open`**: the number of groups is taken from where `config` is. -/
def postOpen (main : FileAttr) (name : List Char) (l : Launch) (rank : ℕ) : Except Fault SubfiledProc :=
  if hasFlag main.config FileConfig.subfiling then do
    let n ← calcNodeRank l main.config rank
    pure (openSubfile main {
      name := name
      ndset := main.ndset
      nldset := main.nldset
      nmdset := main.nmdset
      config := clearFlag main.config FileConfig.dataAlign
      ngroup := n.ngroup
      groupId := n.groupId
      subname := [] })
  else .ok {
    name := name
    ndset := main.ndset
    nldset := main.nldset
    nmdset := main.nmdset
    config := main.config
    ngroup := 1
    groupId := 0
    subname := name }

/-- **`H5VL_log_nb_flush_read_reqs`**: the subfiles a process has open one after the other, and whether it
searches each. Our own subfile is the last, so that it is not opened again. -/
def flushReadReqs (main : FileAttr) (p : SubfiledProc) : List (SubfiledProc × Bool) :=
  if !hasFlag p.config FileConfig.subfiling || hasFlag p.config FileConfig.singleSubfileRead then [(p, true)]
  else (List.range' 1 p.ngroup).map fun i =>
    (openSubfile main { p with groupId := (p.groupId + i) % p.ngroup }, false)

/-- The metadata datasets that are loaded for the searches, by subfile and number. -/
def loadedDsets (visits : List (SubfiledProc × Bool)) : List (List Char × ℕ) :=
  visits.flatMap fun v => if v.2 then (List.range v.1.nmdset.toNat).map fun k => (v.1.subname, k) else []

/-! ## §5 — reading back. -/

/-- The process has the subfile of its group, and knows what was stored in it. -/
structure SubfiledProc.Matches (p : SubfiledProc) (s : StoredSubfile) : Prop where
  subname : p.subname = s.name
  ngroup : BitVec.ofNat 32 p.ngroup = s.attr.ngroup
  nldset : p.nldset = s.attr.nldset
  nmdset : p.nmdset = s.attr.nmdset

/-- The subfile of the group is one that was created. -/
def SubfiledProc.Finds (p : SubfiledProc) (f : StoredFile) : Prop :=
  ∃ s, f.subfiles[p.groupId]? = some s ∧ p.Matches s

/-- **`ReadsBack`** — every process opens the file, finds its subfile and what was stored in it, and so it does
with each subfile it switches to when it flushes its read requests. It searches every subfile once, and the
metadata it loads is all there is. -/
def ReadsBack (f : StoredFile) (name : List Char) (l : Launch) : Prop :=
  ∀ rank < l.np, ∃ p, postOpen f.main name l rank = .ok p ∧ p.Finds f ∧
    (∀ v ∈ flushReadReqs f.main p, v.1.Finds f) ∧
    (((flushReadReqs f.main p).filter Prod.snd).map fun v => v.1.groupId).Perm (List.range f.subfiles.length) ∧
    ∀ s ∈ f.subfiles, ∀ k < s.attr.nmdset.toNat, (s.name, k) ∈ loadedDsets (flushReadReqs f.main p)

/-! ## §6 — how many groups there are. -/

theorem groupRank_eq_zero {color : ℕ → ℕ} {n : ℕ} : groupRank color n = 0 ↔ ∀ i < n, color i ≠ color n := by
  rw [groupRank, List.length_eq_zero_iff, List.filter_eq_nil_iff]
  simp

/-- As many as there are colors. -/
theorem groupRoots_eq_card (color : ℕ → ℕ) (n : ℕ) :
    groupRoots color n = ((Finset.range n).image color).card := by
  induction n with
  | zero => rfl
  | succ n ih =>
    have hmem : color n ∈ (Finset.range n).image color ↔ ¬ groupRank color n = 0 := by
      rw [groupRank_eq_zero]
      simp
    rw [Finset.range_add_one, Finset.image_insert, groupRoots, List.range_succ, List.filter_append,
      List.length_append, ← groupRoots, ih]
    by_cases hroot : groupRank color n = 0
    · rw [Finset.card_insert_of_notMem (fun hin => hmem.mp hin hroot)]
      simp [hroot]
    · rw [Finset.insert_eq_of_mem (hmem.mpr hroot)]
      simp [hroot]

theorem groupRoots_pos {color : ℕ → ℕ} {n : ℕ} (hn : 0 < n) : 0 < groupRoots color n := by
  rw [groupRoots_eq_card, Finset.card_pos, Finset.image_nonempty, Finset.nonempty_range_iff]
  omega

/-- So many groups, or as many as there are processes. -/
theorem groupRoots_split {n np : ℕ} (hn : 0 < n) (hnp : 0 < np) :
    groupRoots (fun rank => rank * n / np) np = min n np := by
  rw [groupRoots_eq_card]
  rcases le_or_gt n np with hle | hlt
  · have himage : ((Finset.range np).image fun rank => rank * n / np) = Finset.range n := by
      ext c
      simp only [Finset.mem_image, Finset.mem_range]
      constructor
      · rintro ⟨rank, hrank, rfl⟩
        rw [Nat.div_lt_iff_lt_mul hnp]
        nlinarith
      · intro hc
        -- the first process that is not below the share of group `c`
        have hup : c * np ≤ (c * np + (n - 1)) / n * n := by
          have hmod := Nat.div_add_mod (c * np + (n - 1)) n
          have hlt := Nat.mod_lt (c * np + (n - 1)) hn
          rw [Nat.mul_comm] at hmod
          omega
        have hdown : (c * np + (n - 1)) / n * n ≤ c * np + (n - 1) := Nat.div_mul_le_self _ n
        refine ⟨(c * np + (n - 1)) / n, ?_, ?_⟩
        · rw [Nat.div_lt_iff_lt_mul hn]
          have hstep : c * np + np ≤ np * n := by nlinarith
          omega
        · rw [Nat.div_eq_iff hnp]
          constructor
          · exact hup
          · omega
    rw [himage, Finset.card_range, min_eq_left hle]
  · have hinj : Set.InjOn (fun rank => rank * n / np) (Finset.range np : Set ℕ) := by
      have hmono : StrictMono fun rank : ℕ => rank * n / np := by
        apply strictMono_nat_of_lt_succ
        intro rank
        have hstep : (rank + 1) * n = rank * n + n := by ring
        show rank * n / np < (rank + 1) * n / np
        rw [hstep]
        calc rank * n / np < rank * n / np + 1 := Nat.lt_succ_self _
          _ = (rank * n + np) / np := (Nat.add_div_right _ hnp).symm
          _ ≤ (rank * n + n) / np := Nat.div_le_div_right (by omega)
      exact hmono.injective.injOn
    rw [Finset.card_image_of_injOn hinj, Finset.card_range, min_eq_right hlt.le]

/-! ## §7 — which files are read back. -/

/-- The file name has no directory component. -/
theorem basename_eq_self {path : List Char} : basename path = path ↔ path = ['/'] ∨ path ≠ [] ∧ '/' ∉ path := by
  unfold basename
  by_cases hnil : path = []
  · simp [hnil]
  · rw [if_neg hnil]
    dsimp only
    split
    · -- Nothing but slashes.
      rename_i hstripped
      have hall := List.rdropWhile_eq_nil_iff.mp hstripped
      constructor
      · intro heq
        exact Or.inl heq.symm
      · rintro (hroot | ⟨hne, hslash⟩)
        · exact hroot.symm
        · obtain ⟨c, hc⟩ := List.exists_mem_of_ne_nil path hne
          obtain rfl : c = '/' := by simpa using hall c hc
          exact absurd hc hslash
    · rename_i hstripped
      constructor
      · intro heq
        right
        refine ⟨hnil, ?_⟩
        intro hslash
        rw [← heq] at hslash
        simpa using List.mem_rtakeWhile_imp hslash
      · rintro (hroot | ⟨-, hslash⟩)
        · rw [hroot] at hstripped
          exact absurd rfl hstripped
        · -- Without a slash nothing is stripped, and the name is taken as a whole.
          have hne : ∀ c ∈ path, (c != '/') = true := by
            intro c hc
            rw [bne_iff_ne]
            rintro rfl
            exact hslash hc
          have hlast : path.rdropWhile (· == '/') = path := by
            rw [List.rdropWhile_eq_self_iff]
            intro hl heq
            exact bne_iff_ne.mp (hne _ (List.getLast_mem hl)) (beq_iff_eq.mp heq)
          rw [hlast]
          exact List.rtakeWhile_eq_self_iff.mpr hne

theorem subname_eq {name : List Char} {id : ℕ} :
    openSubname name id = createSubname name id ↔ basename name = name := by
  simp only [openSubname, createSubname, List.append_assoc, List.append_cancel_left_eq, List.append_cancel_right_eq]
  exact eq_comm

/-- The `config` field of the attribute in the main file. -/
def CreatePlists.stored (p : CreatePlists) : I32 :=
  orIf true FileConfig.subfiling (clearFlag (clearFlag p.config FileConfig.dataAlign) FileConfig.subfiling)

theorem stored_subfiling (p : CreatePlists) : hasFlag p.stored FileConfig.subfiling = true := by
  rw [CreatePlists.stored, hasFlag_orIf]
  rfl

theorem stored_single (p : CreatePlists) :
    hasFlag p.stored FileConfig.singleSubfileRead = p.singleSubfileRead := by
  obtain ⟨a, b, c, d, e, f, g⟩ := p
  revert a b c d e f g
  decide

/-- Taken for a number of groups, it is at least two. -/
theorem stored_bounds (p : CreatePlists) : 2 ≤ p.stored.toNat ∧ 0 < p.stored.toInt := by
  obtain ⟨a, b, c, d, e, f, g⟩ := p
  revert a b c d e f g
  decide

/-- The file that is there. -/
theorem stored_eq_ok {c : FileCreation} {f : StoredFile} (h : c.stored = .ok f) :
    ∃ ngroup : ℕ, 0 < ngroup ∧ f.main.config = c.plists.stored ∧ f.main.nldset = 0 ∧ f.main.nmdset = 0 ∧
      f.subfiles = (List.range ngroup).map fun g => ⟨createSubname c.name g,
        subfileAttr c.ndset (clearFlag c.plists.config FileConfig.dataAlign) (BitVec.ofNat 32 ngroup)
          (countsOf c.ops g)⟩ := by
  obtain ⟨n, hn, h⟩ := Lib.bind_eq_ok.mp h
  obtain rfl := Except.ok.inj h
  refine ⟨n.ngroup, ?_, rfl, rfl, rfl, rfl⟩
  unfold calcNodeRank at hn
  split at hn
  · cases hn
  · obtain rfl := Except.ok.inj hn
    exact groupRoots_pos c.launch.np_pos

/-- A process that opens a file with subfiles. -/
theorem postOpen_subfiled {main : FileAttr} {p : CreatePlists} (hmain : main.config = p.stored)
    (name : List Char) (l : Launch) (rank : ℕ) {q : SubfiledProc} :
    postOpen main name l rank = .ok q ↔ (l.np - 1) * p.stored.toNat < 2 ^ 31 ∧
      q = openSubfile main {
        name := name
        ndset := main.ndset
        nldset := main.nldset
        nmdset := main.nmdset
        config := clearFlag p.stored FileConfig.dataAlign
        ngroup := min p.stored.toNat l.np
        groupId := groupRoots (l.color p.stored) (groupRoot (l.color p.stored) rank)
        subname := [] } := by
  obtain ⟨htwo, hpos⟩ := stored_bounds p
  have hcolor : l.color p.stored = fun rank => rank * p.stored.toNat / l.np := by
    funext rank
    rw [Launch.color, if_pos hpos]
  -- The processes are split evenly, so no group is empty unless there are more groups than processes.
  have hgroups : groupRoots (l.color p.stored) l.np = min p.stored.toNat l.np := by
    rw [hcolor]
    exact groupRoots_split (by omega) l.np_pos
  rw [postOpen, hmain, if_pos (stored_subfiling p), Lib.bind_eq_ok]
  unfold calcNodeRank
  by_cases hover : 2 ^ 31 ≤ (l.np - 1) * p.stored.toNat
  · rw [if_pos ⟨hpos, hover⟩]
    constructor
    · rintro ⟨n, hn, -⟩
      cases hn
    · rintro ⟨hlt, -⟩
      omega
  · rw [if_neg (fun h => hover h.2)]
    dsimp only
    rw [hgroups]
    constructor
    · rintro ⟨n, hn, hq⟩
      obtain rfl := Except.ok.inj hn
      exact ⟨not_le.mp hover, (Except.ok.inj hq).symm⟩
    · rintro ⟨-, rfl⟩
      exact ⟨_, rfl, rfl⟩

/-- What a flush of read requests visits: the subfile that is open, or all without a search. -/
theorem flushReadReqs_single {main : FileAttr} {q : SubfiledProc} {p : CreatePlists}
    (hq : q.config = clearFlag p.stored FileConfig.dataAlign) :
    if p.singleSubfileRead then flushReadReqs main q = [(q, true)]
    else ∀ v ∈ flushReadReqs main q, v.2 = false := by
  have hsub : hasFlag q.config FileConfig.subfiling = true := by
    rw [hq, hasFlag_clearFlag (by decide), stored_subfiling]
  have hsingle : hasFlag q.config FileConfig.singleSubfileRead = p.singleSubfileRead := by
    rw [hq, hasFlag_clearFlag (by decide), stored_single]
  unfold flushReadReqs
  rw [hsub, hsingle]
  cases p.singleSubfileRead with
  | true => rfl
  | false =>
    intro v hv
    obtain ⟨i, -, rfl⟩ := List.mem_map.mp hv
    rfl

/-- **Subfiles are read back** exactly if there is one, opened by one process that is told to read only its
own, the file name has no directory component, and nothing was written. -/
theorem readsBack_iff (c : FileCreation) (l : Launch) {f : StoredFile} (h : c.stored = .ok f) :
    ReadsBack f c.name l ↔ (c.name = ['/'] ∨ c.name ≠ [] ∧ '/' ∉ c.name) ∧
      c.plists.singleSubfileRead = true ∧ f.subfiles.length = 1 ∧ l.np = 1 ∧
      (countsOf c.ops 0).nldset = 0 ∧ (countsOf c.ops 0).nmdset = 0 := by
  obtain ⟨ngroup, hpos, hconfig, hld, hmd, hsub⟩ := stored_eq_ok h
  obtain ⟨htwo, -⟩ := stored_bounds c.plists
  have hlen : f.subfiles.length = ngroup := by simp [hsub]
  rw [hlen, ← basename_eq_self]
  constructor
  · intro hread
    obtain ⟨q, hopen, hfinds, -, hperm, -⟩ := hread 0 l.np_pos
    obtain ⟨-, hq⟩ := (postOpen_subfiled hconfig c.name l 0).mp hopen
    have hvisits := @flushReadReqs_single f.main q c.plists (by rw [hq]; rfl)
    cases hsingle : c.plists.singleSubfileRead with
    | false =>
      -- nothing is searched
      rw [hsingle] at hvisits
      have hnone : (flushReadReqs f.main q).filter Prod.snd = [] := by
        rw [List.filter_eq_nil_iff]
        intro v hv
        rw [hvisits v hv]
        exact Bool.false_ne_true
      rw [hnone, List.map_nil, hlen] at hperm
      have hzero := hperm.length_eq
      rw [List.length_nil, List.length_range] at hzero
      omega
    | true =>
      rw [hsingle, if_pos rfl] at hvisits
      rw [hvisits, hlen] at hperm
      have hone : 1 = ngroup := by simpa using hperm.length_eq
      obtain ⟨s, hs, hm⟩ := hfinds
      subst hone
      obtain ⟨hid, hattr⟩ := List.getElem?_eq_some_iff.mp hs
      have hid : q.groupId = 0 := by omega
      have hs : s = ⟨createSubname c.name 0, subfileAttr c.ndset
          (clearFlag c.plists.config FileConfig.dataAlign) (BitVec.ofNat 32 1) (countsOf c.ops 0)⟩ := by
        simp only [hsub, hid, List.range_one, List.map_singleton] at hs
        exact (Option.some.inj hs).symm
      rw [hs] at hm
      have hsubname : q.subname = openSubname c.name q.groupId := by
        rw [hq]
        rfl
      have hngroup : q.ngroup = min c.plists.stored.toNat l.np := by
        rw [hq]
        rfl
      have hnl : q.nldset = 0 := by
        rw [hq]
        exact hld
      have hnm : q.nmdset = 0 := by
        rw [hq]
        exact hmd
      refine ⟨?_, rfl, rfl, ?_, hm.nldset.symm.trans hnl, hm.nmdset.symm.trans hnm⟩
      · apply (@subname_eq c.name 0).mp
        rw [← hid, ← hsubname, hm.subname, hid]
      · have hnp := l.np_lt
        have hgroup := congrArg BitVec.toNat hm.ngroup
        rw [hngroup, BitVec.toNat_ofNat] at hgroup
        have hmin : min c.plists.stored.toNat l.np % 2 ^ 32 = 1 := hgroup
        omega
  · rintro ⟨hname, hsingle, rfl, hnp, hlds, hmds⟩ rank hrank
    obtain rfl : rank = 0 := by omega
    have hfew : (l.np - 1) * c.plists.stored.toNat < 2 ^ 31 := by simp [hnp]
    have hopen := (postOpen_subfiled hconfig c.name l 0).mpr ⟨hfew, rfl⟩
    generalize hq : openSubfile f.main _ = q at hopen
    have hvisits : flushReadReqs f.main q = [(q, true)] := by
      have hvisits := @flushReadReqs_single f.main q c.plists (by rw [← hq]; rfl)
      rwa [hsingle, if_pos rfl] at hvisits
    have hid : q.groupId = 0 := by
      rw [← hq]
      rfl
    have hfinds : q.Finds f := by
      refine ⟨⟨createSubname c.name 0, subfileAttr c.ndset (clearFlag c.plists.config FileConfig.dataAlign)
        (BitVec.ofNat 32 1) (countsOf c.ops 0)⟩, ?_, ?_, ?_, ?_, ?_⟩
      · rw [hid, hsub]
        rfl
      · rw [← hq]
        exact subname_eq.mpr hname
      · rw [← hq]
        show BitVec.ofNat 32 (min _ l.np) = BitVec.ofNat 32 1
        rw [hnp, min_eq_right (by omega)]
      · rw [← hq]
        exact hld.trans hlds.symm
      · rw [← hq]
        exact hmd.trans hmds.symm
    refine ⟨q, hopen, hfinds, ?_, ?_, ?_⟩
    · rw [hvisits]
      intro v hv
      rw [List.mem_singleton.mp hv]
      exact hfinds
    · rw [hvisits, hlen]
      simp [hid]
    · rw [hsub]
      intro s hs k hk
      obtain ⟨g, hg, rfl⟩ := List.mem_map.mp hs
      obtain rfl : g = 0 := by simpa using hg
      have hzero : (countsOf c.ops 0).nmdset.toNat = 0 := by rw [hmds]; rfl
      exact absurd hk (by show ¬ k < (countsOf c.ops 0).nmdset.toNat; omega)

theorem two_lt_pow : 2 < 2 ^ 31 := by decide

/-- One process, or two on a compute node. -/
def soloLaunch : Launch := ⟨1, fun _ => 0, Nat.one_pos, lt_trans Nat.one_lt_two two_lt_pow⟩

def pairLaunch : Launch := ⟨2, fun _ => 0, Nat.two_pos, two_lt_pow⟩

def plainPlists (singleSubfileRead : Bool) : CreatePlists :=
  ⟨false, false, false, false, singleSubfileRead, false, false⟩

/-- A file in the working directory that is closed at once. -/
def emptyFile : FileCreation := ⟨"a.h5".toList, soloLaunch, plainPlists true, 1, 1, []⟩

/-- A file in it with two subfiles, to each of which something is written. -/
def writtenFile : FileCreation :=
  ⟨"a.h5".toList, pairLaunch, plainPlists false, 2, 1, [.flush fun _ => true, .metaflush fun _ => true]⟩

theorem readsBack_emptyFile : ∃ f, emptyFile.stored = .ok f ∧ ReadsBack f emptyFile.name soloLaunch :=
  ⟨_, rfl, (readsBack_iff emptyFile soloLaunch rfl).mpr
    ⟨Or.inr ⟨by decide, by decide⟩, rfl, rfl, rfl, rfl, rfl⟩⟩

/-- Two processes wrote it, and two open it. -/
theorem not_readsBack_writtenFile :
    ¬ ∀ (c : FileCreation) (l : Launch) (f : StoredFile), c.stored = .ok f → ReadsBack f c.name l := by
  intro h
  have hread := h writtenFile pairLaunch _ rfl
  obtain ⟨-, hsingle, -⟩ := (readsBack_iff writtenFile pairLaunch rfl).mp hread
  cases hsingle

end LogVol
