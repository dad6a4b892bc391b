/-
# LogVol.ReadTypes — the two types of a read.

A read of many blocks is one call: the file type says where the bytes come from, the memory type where they
go. What a search has found is sorted by its place in the file. Results that may interleave in the data of one
block make a group, which is broken down into rows and sorted again, and of rows that overlap the later one is
trimmed: what is cut off is copied in memory, after the read. A type is given here by its runs of bytes in the
order of the type map; one `Move` is a run of the file type and the run of the memory type it goes to.
-/
import LogVol.SearchExact
import LogVol.MemSelection
import LogVol.SortOffsets

namespace LogVol

open Lib (Move)

/-! ## §1 — what is to be read. -/

/-- `H5VL_log_idx_search_ret_t` with its `zbuf`: where the data of a filtered block is read to. -/
structure Intersec extends SearchRet where
  zbuf : Option ℕ

namespace Intersec

/-- `foff + doff`. -/
def pos (b : Intersec) : ℤ := (b.foff + b.doff).toInt

/-- Order of the first element: `operator<`. -/
def before (a b : Intersec) : Bool :=
  if a.pos < b.pos then true
  else if b.pos < a.pos then false
  else decide (a.dstart < b.dstart)

/-- Order of the last element, as the loop of `operator>` has it: it asks the same question twice. -/
def endsAfter : List ℤ → List ℤ → Bool
  | x :: xs, y :: ys => if y < x then true else if y < x then false else endsAfter xs ys
  | _, _ => false

/-- `operator>`. -/
def after (a b : Intersec) : Bool :=
  endsAfter (List.zipWith (· + ·) a.dstart a.count) (List.zipWith (· + ·) b.dstart b.count)

/-- `interleve`: the last element of the one against the first of the other. -/
def interleve : List ℤ → List ℤ → List ℤ → Bool
  | s :: sa, c :: ca, t :: sb =>
      if s + c - 1 < t then false else if t < s + c - 1 then true else interleve sa ca sb
  | _, _, _ => true

/-- `b` does not begin a new group behind `i`, when the group is compared by `j`. -/
def joins (j i b : Intersec) : Bool :=
  i.zbuf.isNone && (decide (j.foff = b.foff) && (decide (j.doff = b.doff) && interleve j.dstart j.count b.dstart))

end Intersec

theorem before_eq_false_iff {a b : Intersec} :
    b.before a = false ↔ toLex (a.pos, a.dstart) ≤ toLex (b.pos, b.dstart) := by
  rw [Prod.Lex.toLex_le_toLex]
  unfold Intersec.before
  split
  · rename_i hlt
    simp only [Bool.true_eq_false, false_iff, not_or]
    omega
  · split
    · rename_i hlt
      simp [hlt]
    · have heq : a.pos = b.pos := by omega
      simp [heq]

/-- **`std::sort`**: an order in which no result comes before one that is less. Of results that are tied, any may
come first. -/
structure BlockSort where
  sort : List Intersec → List Intersec
  perm : ∀ bs, (sort bs).Perm bs
  sorted : ∀ bs, (sort bs).Pairwise fun a b => b.before a = false

/-- One such order: results that are tied stay as they were. -/
def stableSort : BlockSort where
  sort := List.insertionSort fun a b => b.before a = false
  perm := List.perm_insertionSort _
  sorted := by
    have htotal : Std.Total fun a b : Intersec => b.before a = false :=
      ⟨fun a b => by simpa only [before_eq_false_iff] using le_total _ _⟩
    have htrans : IsTrans Intersec fun a b => b.before a = false :=
      ⟨fun a b c => by simpa only [before_eq_false_iff] using le_trans⟩
    exact List.pairwise_insertionSort (fun a b : Intersec => b.before a = false)

/-- The rest of the loop over the sorted results: `group` is the one that is not closed yet, `i` the last
result in it, and `j` the one that counts as its last element. -/
def splitFrom (j i : Intersec) (group : List Intersec) : List Intersec → List (List Intersec)
  | [] => [group]
  | b :: bs =>
      if j.joins i b then splitFrom (if b.after j then b else j) b (group ++ [b]) bs
      else group :: splitFrom b b [b] bs

/-- The groups: `newgroup[i]` is true at the end of each. -/
def splitGroups : List Intersec → List (List Intersec)
  | [] => []
  | b :: bs => splitFrom b b [b] bs

/-! ## §2 — one result. -/

/-- A result that is alone in its group. The data of a filtered block is read as a whole, by the one result
that has its size. -/
def Intersec.single (b : Intersec) : Except Fault (List Move) :=
  match b.zbuf with
  | some zbuf => .ok (if 0 < b.fsize.toInt then [⟨b.foff.toInt, zbuf, cInt b.fsize.toNat⟩] else [])
  | none =>
      if b.info.ndim = 0 then .ok [⟨b.pos, b.xbuf, cInt b.info.esize.toNat⟩]
      else do
        let elem ← mpiElem b.info.esize.toNat
        let src ← createSubarray b.dsize b.count b.dstart
        let dst ← createSubarray b.msize b.count b.mstart
        pure (List.zipWith (fun s d : ℕ => ⟨b.pos + elem * s, b.xbuf + elem * d, elem⟩) src dst)

/-! ## §3 — a group. -/

/-- The sum of `fssize[k] * x[k]`, without the factor of an element. -/
def placeOf : List ℤ → List ℤ → ℤ
  | _ :: ds, x :: xs => x * ds.prod + placeOf ds xs
  | _, _ => 0

/-- The row at `ctr`. -/
def Intersec.row (b : Intersec) (ctr : List ℤ) : Move where
  src := b.pos + b.info.esize.toNat * placeOf b.dsize (List.zipWith (· + ·) b.dstart ctr)
  dst := b.xbuf + b.info.esize.toNat * placeOf b.msize (List.zipWith (· + ·) b.mstart ctr)
  len := cInt (b.count.getLastD 0 * b.info.esize.toNat)

/-- Move to next position: a dimension between the first and the last goes back to zero where it is through.
The flag tells the dimension before to go on. -/
def turnCtr : List ℤ → List ℤ → Bool × List ℤ
  | c :: c' :: cs, x :: xs =>
      let (up, xs) := turnCtr (c' :: cs) xs
      let x := if up then x + 1 else x
      if c ≤ x then (true, 0 :: xs) else (false, x :: xs)
  | _, xs => (true, xs)

def nextCtr : List ℤ → List ℤ → List ℤ
  | _ :: cs, x :: xs =>
      let (up, xs) := turnCtr cs xs
      (if up then x + 1 else x) :: xs
  | _, xs => xs

/-- Foreach row. -/
def Intersec.rowsFrom (b : Intersec) : ℕ → List ℤ → List Move
  | 0, _ => []
  | fuel + 1, ctr =>
      if ctr.headD 0 < b.count.headD 0 then
        b.row ctr :: if b.info.ndim < 2 then [] else b.rowsFrom fuel (nextCtr b.count ctr)
      else []

/-- How often the loop goes round at most: a dimension whose count is not positive turns at once. -/
def Intersec.turns (b : Intersec) : ℕ := (b.count.dropLast.map fun c => max c.toNat 1).prod

/-- `nrow`: the number of rows, an `int`. -/
def Intersec.nrow (b : Intersec) : ℤ := b.count.dropLast.foldl (fun n c => cInt (n * c)) 1

/-- Breakdown. Without dimensions, there is a place in front of the arrays that is written to. -/
def Intersec.rows (b : Intersec) : Except Fault (List Move) :=
  if b.info.ndim = 0 then .error .outside
  else .ok (b.rowsFrom (b.turns + 1) (List.replicate b.info.ndim 0))

/-- `H5VL_log_copy_ctx`. -/
structure CopyCtx where
  src : ℤ
  dst : ℤ
  size : ℤ
  deriving DecidableEq, Repr

/-- A length as a `size_t`. -/
def toSize (n : ℤ) : ℤ := n % 2 ^ 64

/-- How much of `l` the row `k` has already. -/
def overlapSize (k l : Move) : ℤ := min (toSize l.len) (toSize (k.src - l.src + k.len))

/-- Trim off the later one. -/
def trimRow (k l : Move) : Move :=
  if l.src < k.stop then
    ⟨l.src + overlapSize k l, l.dst + overlapSize k l, cInt (toSize (l.len - overlapSize k l)).toNat⟩
  else l

/-- Copy the result from the former read to cover the later one. -/
def copyRow (k l : Move) : Option CopyCtx :=
  if l.src < k.stop then some ⟨k.dst - overlapSize k l + k.len, l.dst, overlapSize k l⟩ else none

/-- The copies, one row after another. -/
def copiesOf : List Move → List CopyCtx
  | [] => []
  | k :: ms => ms.filterMap (copyRow k) ++ copiesOf (ms.map (trimRow k))
termination_by ms => ms.length

/-- The rows with what is behind every one of them trimmed. -/
def trimRows : List Move → List Move
  | [] => []
  | k :: ms => k :: trimRows (ms.map (trimRow k))
termination_by ms => ms.length

/-- One group, and the copies it needs. -/
def genGroup : List Intersec → Except Fault (List Move × List CopyCtx)
  | [b] => b.single.map fun ms => (ms, [])
  | bs => do
      let rows ← bs.mapM Intersec.rows
      let sorted := sortoffsets rows.flatten
      pure (trimRows sorted, copiesOf sorted)

/-! ## §4 — the types. -/

/-- Only 1, or breakdown. -/
def countGroup (nt : ℤ) : List Intersec → ℤ
  | [_] => cInt (nt + 1)
  | bs => bs.foldl (fun nt b => cInt (nt + b.nrow)) nt

/-- Count total types after breakdown: `nt`, by which the arrays are allocated. -/
def countTypes (std : BlockSort) (blocks : List Intersec) : ℤ := (splitGroups (std.sort blocks)).foldl countGroup 0

/-- **`H5VL_log_dataset_readi_gen_rtypes`** — the runs of both types, and the copies; no length of a block of
the struct types may be negative. -/
def readiGenRtypes (std : BlockSort) (blocks : List Intersec) : Except Fault (List Move × List CopyCtx) := do
  let parts ← (splitGroups (std.sort blocks)).mapM genGroup
  let runs := parts.flatMap Prod.fst
  if ∀ m ∈ runs, 0 ≤ m.len then pure (runs, parts.flatMap Prod.snd) else .error (.raised "MPI_ERR_ARG")

end LogVol
