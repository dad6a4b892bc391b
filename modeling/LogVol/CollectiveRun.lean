/-
# LogVol.CollectiveRun — what each function does when its collective calls match.

`Job.Runs` is a run of a program by the processes that satisfy a predicate, with the operations the
contract of a read names. One lemma a function says when its calls match and what it leaves in the files;
`completes_metaflush` is the one place where matching is in doubt, the barrier at the end of a metadata
flush.
-/
import LogVol.Collective

namespace LogVol

open Lib (Proc RunsOn Completes)

namespace Job

variable {J : Job} {α β : Type}

/-! ## §1 — who takes part. -/

/-- With one process of a group, all processes of the group. -/
def Closed (J : Job) (P : Fin J.np → Prop) : Prop := ∀ i j, J.group i = J.group j → (P i ↔ P j)

/-- The underlying VOL allocates a dataset when it is created, as `H5D_ALLOC_TIME_EARLY` asks. -/
def Allocates (J : Job) : Prop := ∀ g arg, J.place g arg ≠ haddrUndef

theorem closed_true : J.Closed fun _ => True := fun _ _ _ => Iff.rfl

theorem Closed.and {P Q : Fin J.np → Prop} (hP : J.Closed P) (hQ : J.Closed Q) :
    J.Closed fun i => P i ∧ Q i := fun i j h => and_congr (hP i j h) (hQ i j h)

theorem Closed.not {P : Fin J.np → Prop} (hP : J.Closed P) : J.Closed fun i => ¬ P i := fun i j h =>
  not_congr (hP i j h)

@[simp] theorem mem_world (i : Fin J.np) : i ∈ J.members .world := List.mem_finRange i

@[simp] theorem mem_group {i : Fin J.np} {g : Nat} : i ∈ J.members (.group g) ↔ J.group i = g := by
  simp [members]

@[simp] theorem mem_handle {i : Fin J.np} {g : Nat} : i ∈ J.members (.handle g) ↔ J.group i = g := by
  simp [members]

/-- The operations a read is said to consist of, each at its first call: the allreduce of the pending
writes, the flush of them, the metadata flush, and the read. -/
def listed (c : Call) : Option Collective :=
  match c with
  | ⟨.world, .allreduceMax⟩ => some .allreduceMax
  | ⟨.world, .allreduceSum⟩ => some .allreduceSum
  | ⟨_, .gather⟩ => some .gather
  | ⟨_, .readAtAll⟩ => some .readAtAll
  | _ => none

/-- The processes in `P` run `p` and get `a`, each with its listed operations. -/
def Runs (J : Job) (P : Fin J.np → Prop) (p : Fin J.np → Prog α) (ops : Fin J.np → List Collective)
    (a : Fin J.np → α) : Prop :=
  ∃ t, RunsOn J.net P p t a ∧ ∀ i, P i → (t i).filterMap listed = ops i

/-! ## §2 — composing. -/

theorem runs_pure (P : Fin J.np → Prop) (a : Fin J.np → α) :
    J.Runs P (fun i => (pure (a i) : Prog α)) (fun _ => []) a :=
  ⟨_, RunsOn.pure a, fun _ _ => rfl⟩

theorem Runs.bind {P : Fin J.np → Prop} {p : Fin J.np → Prog α}
    {ops ops' : Fin J.np → List Collective} {a : Fin J.np → α} (h : J.Runs P p ops a)
    {p' : Fin J.np → α → Prog β} {b : Fin J.np → β}
    (h' : J.Runs P (fun i => p' i (a i)) ops' b) :
    J.Runs P (fun i => p i >>= p' i) (fun i => ops i ++ ops' i) b := by
  obtain ⟨t, ht, hops⟩ := h
  obtain ⟨t', ht', hops'⟩ := h'
  refine ⟨_, ht.bind ht', ?_⟩
  intro i hi
  rw [List.filterMap_append, hops i hi, hops' i hi]

theorem Runs.congr {P : Fin J.np → Prop} {p p' : Fin J.np → Prog α}
    {ops ops' : Fin J.np → List Collective} {a a' : Fin J.np → α} (h : J.Runs P p ops a)
    (hp : ∀ i, P i → p' i = p i) (hops : ∀ i, P i → ops' i = ops i) (ha : ∀ i, P i → a' i = a i) :
    J.Runs P p' ops' a' := by
  obtain ⟨t, ht, hlisted⟩ := h
  refine ⟨t, ht.congr (fun _ => Iff.rfl) hp (fun _ _ => rfl) ha, ?_⟩
  intro i hi
  rw [hlisted i hi, hops i hi]

/-- Some processes do one thing and the others another. -/
theorem Runs.split {P : Fin J.np → Prop} (Q : Fin J.np → Prop) {p : Fin J.np → Prog α}
    {ops : Fin J.np → List Collective} {a : Fin J.np → α} (h : J.Runs (fun i => P i ∧ Q i) p ops a)
    (h' : J.Runs (fun i => P i ∧ ¬ Q i) p ops a) : J.Runs P p ops a := by
  classical
  obtain ⟨t, ht, hops⟩ := h
  obtain ⟨t', ht', hops'⟩ := h'
  have hQ : ∀ i, P i ∧ Q i → (if Q i then t i else t' i) = t i := fun i hi => if_pos hi.2
  have hQ' : ∀ i, P i ∧ ¬ Q i → (if Q i then t i else t' i) = t' i := fun i hi => if_neg hi.2
  have hboth := RunsOn.union
    (ht.congr (fun _ => Iff.rfl) (fun _ _ => rfl) hQ fun _ _ => rfl)
    (ht'.congr (fun _ => Iff.rfl) (fun _ _ => rfl) hQ' fun _ _ => rfl) fun i hi hi' => hi'.2 hi.2
  refine ⟨fun i => if Q i then t i else t' i,
    hboth.congr (fun i => by tauto) (fun _ _ => rfl) (fun _ _ => rfl) fun _ _ => rfl, ?_⟩
  intro i hi
  by_cases hq : Q i
  · simp only [if_pos hq, hops i ⟨hi, hq⟩]
  · simp only [if_neg hq, hops' i ⟨hi, hq⟩]

/-- The processes of a closed set call an operation of their own communicators. -/
theorem runs_call {P : Fin J.np → Prop} (hP : J.Closed P) (scope : Scope)
    (hworld : scope = .world → ∀ i, P i) (op : Collective) (arg : Fin J.np → Words)
    (ops : List Collective) (hops : ∀ i, (listed ⟨J.comm i scope, op⟩).toList = ops) :
    J.Runs P (fun i => J.call i scope op (arg i)) (fun _ => ops)
      fun i => J.reply ⟨J.comm i scope, op⟩ arg i := by
  refine ⟨_, RunsOn.call (fun i => (⟨J.comm i scope, op⟩ : Call)) arg ?_, ?_⟩
  · intro i hi j
    show j ∈ J.members (J.comm i scope) ↔ _
    cases scope with
    | world => simp [comm, hworld rfl]
    | group =>
        simp only [comm, mem_group, Call.mk.injEq, Comm.group.injEq, and_true]
        exact ⟨fun h => ⟨(hP j i h).mpr hi, h⟩, And.right⟩
    | handle =>
        simp only [comm, mem_handle, Call.mk.injEq, Comm.handle.injEq, and_true]
        exact ⟨fun h => ⟨(hP j i h).mpr hi, h⟩, And.right⟩
  · intro i _
    rw [← hops i, List.filterMap_cons]
    cases listed ⟨J.comm i scope, op⟩ with
    | none => rfl
    | some op => rfl

/-- The listed operations of a sequence of calls. -/
def listedOf (cs : List (Scope × Collective)) : List Collective :=
  cs.filterMap fun c => if c.2 = .readAtAll then some .readAtAll else none

/-- Operations whose answer does not matter, other than the allreduces and the gather. -/
theorem runs_calls {P : Fin J.np → Prop} (hP : J.Closed P) (cs : List (Scope × Collective))
    (hworld : (∃ c ∈ cs, c.1 = .world) → ∀ i, P i)
    (hplain : ∀ c ∈ cs, c.2 ≠ .allreduceMax ∧ c.2 ≠ .allreduceSum ∧ c.2 ≠ .gather) :
    J.Runs P (fun i => J.calls i cs) (fun _ => listedOf cs) fun _ => () := by
  induction cs with
  | nil => exact runs_pure P fun _ => ()
  | cons c cs ih =>
      obtain ⟨scope, op⟩ := c
      have hrest := ih (fun ⟨c, hc, hw⟩ => hworld ⟨c, List.mem_cons_of_mem _ hc, hw⟩) fun c hc =>
        hplain c (List.mem_cons_of_mem _ hc)
      have hops : ∀ i, (listed ⟨J.comm i scope, op⟩).toList = listedOf [(scope, op)] := by
        intro i
        obtain ⟨h₁, h₂, h₃⟩ := hplain (scope, op) (List.mem_cons_self ..)
        cases op <;> cases scope <;> first | rfl | contradiction
      have hcall := runs_call hP scope (fun h => hworld ⟨_, List.mem_cons_self .., h⟩) op (fun _ => [])
        (listedOf [(scope, op)]) hops
      have happ : listedOf ((scope, op) :: cs) = listedOf [(scope, op)] ++ listedOf cs := by
        rw [← List.singleton_append, listedOf, List.filterMap_append]
        rfl
      rw [happ]
      exact hcall.bind hrest

/-! ## §3 — writing. -/

/-- Creating a dataset that is allocated at once. -/
theorem runs_createDataset (hplace : J.Allocates) {P : Fin J.np → Prop} (hP : J.Closed P)
    (arg : Fin J.np → Words) :
    ∃ doff, J.Runs P (fun i => J.createDataset i (arg i)) (fun _ => []) doff := by
  have hcall := runs_call hP Scope.handle nofun .datasetCreate arg [] fun _ => rfl
  refine ⟨fun i => word (J.reply ⟨J.comm i .handle, .datasetCreate⟩ arg i), hcall.bind ?_⟩
  refine (runs_pure P _).congr (fun i _ => ?_) (fun _ _ => rfl) fun _ _ => rfl
  exact if_neg (hplace (J.group i) _)

/-- Writing a dataset and closing it. -/
theorem runs_writeOps {P : Fin J.np → Prop} (hP : J.Closed P) :
    J.Runs P (fun i => J.calls i [(.handle, J.writeOp), (.handle, .datasetClose)]) (fun _ => [])
      fun _ => () := by
  have hlisted : listedOf [(.handle, J.writeOp), (.handle, .datasetClose)] = [] := by
    unfold writeOp
    split <;> rfl
  have hcalls := runs_calls hP [(.handle, J.writeOp), (.handle, .datasetClose)] (by simp)
    (by unfold writeOp; split <;> simp)
  rwa [hlisted] at hcalls

theorem runs_writeLog (hplace : J.Allocates) {P : Fin J.np → Prop} (hP : J.Closed P)
    (l : Fin J.np → LocalFlush) (sizes : Fin J.np → MpiOffset × MpiOffset) :
    ∃ base : Fin J.np → MpiOffset, J.Runs P (fun i => J.writeLog i (l i) (sizes i).1 (sizes i).2) (fun _ => [])
      fun i => finishRank (base i) (l i).file := by
  obtain ⟨doff, hcreate⟩ := runs_createDataset hplace hP fun i =>
    [0, (l i).file.nldset.signExtend 64, (sizes i).1]
  refine ⟨fun i => (sizes i).2 + doff i, hcreate.bind ((runs_writeOps hP).bind ?_)⟩
  exact runs_pure P _

theorem runs_groupSizes (fsizeLocal fsizeAll foffAll : Fin J.np → MpiOffset)
    (hall : ∀ i j, fsizeAll i = fsizeAll j) :
    ∃ sizes, J.Runs (fun _ => True) (fun i => J.groupSizes i (fsizeLocal i) (fsizeAll i) (foffAll i))
        (fun _ => []) sizes ∧ ∀ i j, J.group i = J.group j → (sizes i).1 = (sizes j).1 := by
  by_cases hsub : hasFlag J.config FileConfig.subfiling = true
  · have hsum := runs_call (J := J) closed_true Scope.group nofun .allreduceSum
      (fun i => [fsizeLocal i]) [] fun _ => rfl
    have hscan := runs_call (J := J) closed_true Scope.group nofun .exscanSum
      (fun i => [fsizeLocal i]) [] fun _ => rfl
    refine ⟨fun i => (word (J.reply ⟨J.comm i .group, .allreduceSum⟩ (fun i => [fsizeLocal i]) i),
      word (J.reply ⟨J.comm i .group, .exscanSum⟩ (fun i => [fsizeLocal i]) i)), ?_, ?_⟩
    · unfold groupSizes
      simp only [if_pos hsub]
      exact hsum.bind (hscan.bind (runs_pure _ _))
    · intro i j hij
      show ((J.members (.group (J.group i))).map _).sum = ((J.members (.group (J.group j))).map _).sum
      rw [hij]
  · refine ⟨fun i => (fsizeAll i, foffAll i), ?_, fun i j _ => hall i j⟩
    unfold groupSizes
    simp only [if_neg hsub]
    exact runs_pure _ _

/-- **What a flush leaves** of a process that brought `l`, when the processes together brought `total`
bytes. -/
structure FlushedTo (l : LocalFlush) (total : MpiOffset) (f' : RankFile) : Prop where
  idle : total = 0 → f' = l.file
  written : total ≠ 0 → ∃ f, (f = l.file ∨ ∃ base, f = finishRank base l.file) ∧
    f' = { f with metadirty := true }

/-- The bytes all processes bring to a flush. -/
def totalSize (J : Job) (l : Fin J.np → LocalFlush) : MpiOffset :=
  ((J.members .world).map fun i => (l i).fsizeLocal).sum

/-- **The exchange of a flush**: its calls match. -/
theorem runs_exchange (hplace : J.Allocates) (l : Fin J.np → LocalFlush) :
    ∃ f', J.Runs (fun _ => True) (fun i => J.exchange i (l i)) (fun _ => [.allreduceSum]) f' ∧
      ∀ i, FlushedTo (l i) (J.totalSize l) (f' i) := by
  have hsum := runs_call (J := J) closed_true Scope.world (fun _ _ => trivial) .allreduceSum
    (fun i => [(l i).fsizeLocal]) [.allreduceSum] fun _ => rfl
  have hscan := runs_call (J := J) closed_true Scope.world (fun _ _ => trivial) .exscanSum
    (fun i => [(l i).fsizeLocal]) [] fun _ => rfl
  have hall : ∀ i, word (J.reply ⟨J.comm i .world, .allreduceSum⟩ (fun i => [(l i).fsizeLocal]) i) =
      J.totalSize l := fun _ => rfl
  obtain ⟨sizes, hsizes, hgroup⟩ := runs_groupSizes (fun i => (l i).fsizeLocal)
    (fun i => word (J.reply ⟨J.comm i .world, .allreduceSum⟩ (fun i => [(l i).fsizeLocal]) i))
    (fun i => word (J.reply ⟨J.comm i .world, .exscanSum⟩ (fun i => [(l i).fsizeLocal]) i))
    fun i j => by rw [hall i, hall j]
  by_cases htotal : J.totalSize l = 0
  · refine ⟨fun i => (l i).file, ?_, fun i => ⟨fun _ => rfl, fun h => absurd htotal h⟩⟩
    refine hsum.bind (hscan.bind (hsizes.bind ?_))
    simp only [hall, if_pos htotal]
    exact runs_pure _ _
  · -- the groups that have any data write it
    have hdata : J.Closed fun i => (sizes i).1 = 0 := fun i j hij => by
      simp only [hgroup i j hij]
    obtain ⟨base, hwrite⟩ := runs_writeLog hplace (closed_true.and hdata.not) l sizes
    have hparts : J.Runs (fun _ => True)
        (fun i => J.writeGroup i (l i) (sizes i)) (fun _ => [])
        fun i => if (sizes i).1 = 0 then (l i).file else finishRank (base i) (l i).file := by
      refine Runs.split (fun i => (sizes i).1 = 0) ?_ ?_
      · exact (runs_pure _ fun i => (l i).file).congr (fun i hi => if_pos hi.2) (fun _ _ => rfl)
          fun i hi => if_pos hi.2
      · exact hwrite.congr (fun i hi => if_neg hi.2) (fun _ _ => rfl) fun i hi => if_neg hi.2
    refine ⟨fun i => { (if (sizes i).1 = 0 then (l i).file else finishRank (base i) (l i).file) with
      metadirty := true }, ?_, fun i => ⟨fun h => absurd h htotal, fun _ => ⟨_, ?_, rfl⟩⟩⟩
    · refine hsum.bind (hscan.bind (hsizes.bind ?_))
      simp only [hall, if_neg htotal]
      exact hparts.bind (runs_pure _ _)
    · split
      · exact Or.inl rfl
      · exact Or.inr ⟨_, rfl⟩

/-! ## §4 — the metadata flush. -/

/-- The first member of a group has no member before it. -/
theorem groupRank_head {g : Nat} {i : Fin J.np} (h : (J.members (.group g)).head? = some i) :
    J.groupRank i = 0 := by
  have hi : J.group i = g := mem_group.mp (List.mem_of_head? h)
  have hsorted : (J.members (.group g)).Pairwise (· < ·) :=
    (List.pairwise_lt_finRange J.np).filter _
  rw [groupRank, hi, List.length_eq_zero_iff, List.filter_eq_nil_iff]
  obtain ⟨rest, hrest⟩ := List.head?_eq_some_iff.mp h
  rw [hrest] at hsorted ⊢
  intro j hj
  rcases List.mem_cons.mp hj with rfl | hj
  · simp
  · simpa using le_of_lt (List.rel_of_pairwise_cons hsorted hj)

/-- A member of a group comes before the end of the list. -/
theorem before_lt {g : Nat} {i : Fin J.np} (hi : J.group i = g) :
    ((J.members (.group g)).filter (· < i)).length < (J.members (.group g)).length :=
  List.length_filter_lt_length_iff_exists.mpr ⟨i, mem_group.mpr hi, by simp⟩

theorem scatterParts_part {sizes : Words} {k : Nat} (h : k < sizes.length) :
    ((scatterParts sizes).drop (2 * k)).take 2 = [(sizes.take k).sum, sizes.sum] := by
  have key : ∀ (n k : Nat) (g : Nat → Words), (∀ j, (g j).length = 2) → k < n →
      (((List.range n).flatMap g).drop (2 * k)).take 2 = g k := by
    intro n
    induction n with
    | zero => exact fun k g _ hk => absurd hk (Nat.not_lt_zero k)
    | succ n ih =>
        intro k g hg hk
        rw [List.range_succ_eq_map, List.flatMap_cons, List.flatMap_map]
        cases k with
        | zero => rw [Nat.mul_zero, List.drop_zero, List.take_left' (hg 0)]
        | succ k =>
            have hlen : 2 * (k + 1) = (g 0).length + 2 * k := by rw [hg 0]; omega
            rw [hlen, List.drop_append, List.drop_eq_nil_of_le (by omega), Nat.add_sub_cancel_left,
              List.nil_append]
            exact ih k (fun j => g (j + 1)) (fun j => hg _) (by omega)
  exact key sizes.length k _ (fun _ => rfl) h

/-- The size of the metadata dataset of a process's group. -/
def metaSize (J : Job) (f : Fin J.np → RankFile) (i : Fin J.np) : MpiOffset :=
  ((J.members (.group (J.group i))).map fun j => J.mdsize j (f j)).sum

/-- **The exchange of a metadata flush**: every process learns the size of the dataset. -/
theorem runs_syncSizes {P : Fin J.np → Prop} (hP : J.Closed P) (f : Fin J.np → RankFile) :
    ∃ rbuf, J.Runs P (fun i => J.syncSizes i (f i)) (fun _ => [.gather]) rbuf ∧
      ∀ i, P i → (rbuf i).getD 1 0 = J.metaSize f i := by
  have hgather := runs_call hP Scope.group nofun .gather (fun i => [J.mdsize i (f i)])
    [.gather] fun _ => rfl
  have hscatter := runs_call hP Scope.group nofun .scatter
    (fun i => if J.groupRank i = 0 then scatterParts
      (J.reply ⟨J.comm i .group, .gather⟩ (fun i => [J.mdsize i (f i)]) i) else [])
    [] fun _ => rfl
  refine ⟨_, hgather.bind hscatter, ?_⟩
  intro i _
  have hmem : i ∈ J.members (.group (J.group i)) := mem_group.mpr rfl
  obtain ⟨root, hroot⟩ : ∃ root, (J.members (.group (J.group i))).head? = some root := by
    cases hms : J.members (.group (J.group i)) with
    | nil => rw [hms] at hmem; exact absurd hmem List.not_mem_nil
    | cons root rest => exact ⟨root, rfl⟩
  -- The root is the first of the group; it gathers the sizes and scatters their sum to each.
  have hgroup : J.group root = J.group i := mem_group.mp (List.mem_of_head? hroot)
  have hbefore : (J.members (.group (J.group i))).filter (· < root) = [] := by
    rw [← List.length_eq_zero_iff, ← hgroup]
    exact groupRank_head hroot
  have hsizes : J.reply ⟨J.comm root .group, .gather⟩ (fun i => [J.mdsize i (f i)]) root =
      (J.members (.group (J.group i))).map fun j => J.mdsize j (f j) := by
    simp only [reply, comm, hgroup, hbefore, if_true]
    exact List.map_eq_flatMap.symm
  have hk : ((J.members (.group (J.group i))).filter (· < i)).length <
      ((J.members (.group (J.group i))).map fun j => J.mdsize j (f j)).length := by
    rw [List.length_map]
    exact before_lt rfl
  show ((((J.members (.group (J.group i))).head?.map _).getD []).drop _ |>.take 2).getD 1 0 = _
  rw [hroot, Option.map_some, Option.getD_some, if_pos (groupRank_head hroot), hsizes]
  exact congrArg (fun ws : Words => ws.getD 1 0) (scatterParts_part hk)

/-- A group has metadata to write: the processes of the group take part and the dataset is larger than
the decomposition map. -/
def Enters (J : Job) (D : Fin J.np → Prop) (f : Fin J.np → RankFile) (i : Fin J.np) : Prop :=
  D i ∧ mapSize (J.groupNp i) < J.metaSize f i

/-- The entries of a process can be written. -/
def MetaOk (J : Job) (f : RankFile) : Prop := ∃ l, localMeta J.config f = .ok l

/-- The files after a metadata flush of the processes in `D`. -/
noncomputable def cleaned (J : Job) (D : Fin J.np → Prop) (f : Fin J.np → RankFile) (i : Fin J.np) :
    RankFile :=
  open Classical in if D i then (f i).metaflushed else f i

/-- A metadata flush of the processes in `D`. -/
noncomputable def metaflushOn (J : Job) (D : Fin J.np → Prop) (f : Fin J.np → RankFile) (i : Fin J.np) :
    Prog RankFile :=
  open Classical in if D i then J.metaflush i (f i) else pure (f i)

/-- Writing metadata, up to the barrier; the result is whether the barrier follows. -/
def writeMetaData (J : Job) (i : Fin J.np) (f : RankFile) (dsize : MpiOffset) : Prog Bool :=
  if mapSize (J.groupNp i) < dsize then do
    let _ ← J.createDataset i [1, f.nldset.signExtend 64, dsize]
    J.calls i [(.handle, J.writeOp), (.handle, .datasetClose)]
    pure true
  else pure false

/-- The barrier at the end of writing metadata. -/
def barrierIf (J : Job) (i : Fin J.np) (enters : Bool) : Prog Unit :=
  if enters then J.calls i [(.world, .barrier)] else pure ()

theorem writeMeta_eq (i : Fin J.np) (f : RankFile) (dsize : MpiOffset) :
    J.writeMeta i f dsize = J.writeMetaData i f dsize >>= J.barrierIf i := by
  unfold writeMeta writeMetaData
  split
  · rw [Proc.bind_assoc]
    rfl
  · rfl

theorem runs_writeMetaData (hplace : J.Allocates) {P : Fin J.np → Prop} (hP : J.Closed P)
    (f : Fin J.np → RankFile) (d : Fin J.np → MpiOffset)
    (hd : J.Closed fun i => mapSize (J.groupNp i) < d i) :
    J.Runs P (fun i => J.writeMetaData i (f i) (d i)) (fun _ => [])
      fun i => decide (mapSize (J.groupNp i) < d i) := by
  refine Runs.split (fun i => mapSize (J.groupNp i) < d i) ?_ ?_
  · obtain ⟨doff, hcreate⟩ := runs_createDataset hplace (hP.and hd) fun i =>
      [1, (f i).nldset.signExtend 64, d i]
    have hwrite : J.Runs (fun i => P i ∧ mapSize (J.groupNp i) < d i)
        (fun i => J.createDataset i [1, (f i).nldset.signExtend 64, d i] >>= fun _ =>
          J.calls i [(.handle, J.writeOp), (.handle, .datasetClose)] >>= fun _ => pure true)
        (fun _ => []) fun _ => true :=
      hcreate.bind ((runs_writeOps (hP.and hd)).bind (runs_pure _ _))
    exact hwrite.congr (fun i hi => if_pos hi.2) (fun _ _ => rfl) fun i hi => decide_eq_true hi.2
  · exact (runs_pure _ fun _ => false).congr (fun i hi => if_neg hi.2) (fun _ _ => rfl)
      fun i hi => decide_eq_false hi.2

/-- A metadata flush of the processes in `D`, up to the barrier. -/
noncomputable def toBarrier (J : Job) (D : Fin J.np → Prop) (f : Fin J.np → RankFile) (i : Fin J.np) :
    Prog Bool :=
  open Classical in
  if D i then J.syncSizes i (f i) >>= fun rbuf => J.writeMetaData i (f i) (rbuf.getD 1 0)
  else pure false

/-- The listed operations of a metadata flush. -/
noncomputable def metaOps (D : Fin J.np → Prop) (i : Fin J.np) : List Collective :=
  open Classical in if D i then [.gather] else []

theorem runs_toBarrier (hplace : J.Allocates) {D : Fin J.np → Prop} (hD : J.Closed D)
    (f : Fin J.np → RankFile) :
    J.Runs (fun _ => True) (J.toBarrier D f) (metaOps D)
      (open Classical in fun i => decide (J.Enters D f i)) := by
  classical
  refine Runs.split D ?_ ?_
  · have hD' := closed_true.and hD
    obtain ⟨rbuf, hsync, hsize⟩ := runs_syncSizes hD' f
    have hclosed : J.Closed fun i => mapSize (J.groupNp i) < J.metaSize f i := by
      intro i j hij
      simp only [groupNp, metaSize, hij]
    have hdata := runs_writeMetaData hplace hD' f (J.metaSize f) hclosed
    refine (hsync.bind (hdata.congr (fun i hi => ?_) (fun _ _ => rfl) fun _ _ => rfl)).congr
      (fun i hi => if_pos hi.2) (fun i hi => if_pos hi.2) fun i hi => ?_
    · rw [hsize i hi]
    · exact decide_eq_decide.mpr ⟨And.right, fun h => ⟨hi.2, h⟩⟩
  · exact (runs_pure _ fun _ => false).congr (fun i hi => if_neg hi.2) (fun i hi => if_neg hi.2)
      fun i hi => decide_eq_false fun h => hi.2 h.1

/-- What follows a metadata flush comes after the barrier. -/
theorem metaflushOn_bind {D : Fin J.np → Prop} {f : Fin J.np → RankFile}
    (hok : ∀ i, D i → J.MetaOk (f i)) (i : Fin J.np) (q : RankFile → Prog β) :
    J.metaflushOn D f i >>= q =
      J.toBarrier D f i >>= fun enters => J.barrierIf i enters >>= fun _ => q (J.cleaned D f i) := by
  classical
  unfold metaflushOn toBarrier cleaned
  by_cases hi : D i
  · obtain ⟨l, hl⟩ := hok i hi
    simp only [if_pos hi, metaflush, hl, writeMeta_eq, Proc.bind_assoc, Proc.pure_bind]
  · simp only [if_neg hi]
    rfl

theorem runs_barrierIf {b : Fin J.np → Bool} (h : (∀ i, b i = true) ∨ ∀ i, b i = false) :
    J.Runs (fun _ => True) (fun i => J.barrierIf i (b i)) (fun _ => []) fun _ => () := by
  rcases h with hall | hnone
  · have hrun := runs_calls (J := J) closed_true [(.world, .barrier)] (fun _ _ => trivial)
      (by simp)
    exact hrun.congr (fun i _ => by rw [barrierIf, hall i]; rfl) (fun _ _ => rfl) fun _ _ => rfl
  · exact (runs_pure _ fun _ => ()).congr (fun i _ => by rw [barrierIf, hnone i]; rfl)
      (fun _ _ => rfl) fun _ _ => rfl

/-- **A metadata flush whose calls match**: all groups write metadata, or none does. -/
theorem runs_metaflush (hplace : J.Allocates) {D : Fin J.np → Prop} (hD : J.Closed D)
    {f : Fin J.np → RankFile} (hok : ∀ i, D i → J.MetaOk (f i))
    (hall : ∀ i j, J.Enters D f i → J.Enters D f j) :
    J.Runs (fun _ => True) (J.metaflushOn D f) (metaOps D) (J.cleaned D f) := by
  classical
  have huniform : (∀ i, decide (J.Enters D f i) = true) ∨ ∀ i, decide (J.Enters D f i) = false := by
    by_cases hsome : ∃ i, J.Enters D f i
    · obtain ⟨i, hi⟩ := hsome
      exact Or.inl fun j => decide_eq_true (hall i j hi)
    · exact Or.inr fun i => decide_eq_false fun hi => hsome ⟨i, hi⟩
  have hrun : J.Runs (fun _ => True)
      (fun i => J.toBarrier D f i >>= fun enters =>
        J.barrierIf i enters >>= fun _ => pure (J.cleaned D f i))
      (fun i => metaOps D i ++ []) (J.cleaned D f) :=
    (runs_toBarrier hplace hD f).bind ((runs_barrierIf huniform).bind (runs_pure _ _))
  refine hrun.congr (fun i _ => ?_) (fun i _ => (List.append_nil _).symm) fun _ _ => rfl
  rw [← Proc.bind_pure (J.metaflushOn D f i), metaflushOn_bind hok]

/-- **A metadata flush whose calls do not match**: a process of a group that writes metadata waits in
the barrier for one of a group that does not. -/
theorem not_completes_metaflush (hplace : J.Allocates) {D : Fin J.np → Prop} (hD : J.Closed D)
    {f : Fin J.np → RankFile} (hok : ∀ i, D i → J.MetaOk (f i)) {i j : Fin J.np}
    (hi : J.Enters D f i) (hj : ¬ J.Enters D f j) {q : Fin J.np → RankFile → Prog β}
    (hnever : ∀ f, (q j f).Never Call.comm ⟨.world, .barrier⟩) :
    ¬ Completes J.net fun i => J.metaflushOn D f i >>= q i := by
  classical
  obtain ⟨t, ht, -⟩ := runs_toBarrier hplace hD f
  have hrun := ht.run fun i enters => J.barrierIf i enters >>= fun _ => q i (J.cleaned D f i)
  have hprog : (fun i => J.metaflushOn D f i >>= q i) = fun i =>
      J.toBarrier D f i >>= fun enters => J.barrierIf i enters >>= fun _ => q i (J.cleaned D f i) :=
    funext fun i => metaflushOn_bind hok i (q i)
  rw [hprog, hrun.completes_iff]
  have hwaits : (J.barrierIf i (decide (J.Enters D f i)) >>= fun _ => q i (J.cleaned D f i)) =
      .call ⟨.world, .barrier⟩ [] fun _ => q i (J.cleaned D f i) := by
    rw [decide_eq_true hi]
    rfl
  refine Lib.not_completes_of_never (i := i) (j := j) hwaits (mem_world i) (mem_world j) ?_
  rw [decide_eq_false hj]
  exact hnever _

end Job

end LogVol
