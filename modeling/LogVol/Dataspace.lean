/-
# LogVol.Dataspace — selections, dataset descriptions, and how a selection is encoded.

A selection is a list of blocks, each a start and a count per dimension. Metadata stores it in one of
two layouts: the coordinates themselves, or one offset per start and per count, computed from the
dataset's `dsteps` (`selEncode`) and split again by division (`selDecode`).
-/
import LogVol.Base
import LogVol.Lib.LittleEndian

namespace LogVol

open Lib (putWord putWords)

/-! ## §1 — selections. -/

/-- One selected block: `starts[i]` and `counts[i]`. -/
structure Block where
  start : List HSize
  count : List HSize
  deriving DecidableEq, Repr

/-- `H5VL_log_selections`: the selected blocks of a dataspace, in order. `nsel` is a C `int`, so there
are fewer than `2 ^ 31` of them, and every block has one start and one count per dimension. -/
structure Selections where
  ndim : Nat
  sels : List Block
  rank_eq : ∀ b ∈ sels, b.start.length = ndim ∧ b.count.length = ndim
  nsel_lt : sels.length < 2 ^ 31

def Selections.nsel (s : Selections) : Nat := s.sels.length

/-- `get_sel_size (i)`: the number of elements of a block. -/
def Block.selSize (b : Block) : HSize := b.count.foldl (· * ·) 1

/-- `get_sel_size ()`: the number of elements of the selection. -/
def Selections.getSelSize (s : Selections) : HSize := s.sels.foldl (fun n b => n + b.selSize) 0

/-- The block lies inside the dimensions: counts are positive and `start + count <= dims` in each of
them. -/
def Block.Inside (dims : List HSize) (b : Block) : Prop :=
  List.Forall₂ (fun (sc : HSize × HSize) d => 1 ≤ sc.2.toNat ∧ sc.1.toNat + sc.2.toNat ≤ d.toNat)
    (b.start.zip b.count) dims

instance (dims : List HSize) (b : Block) : Decidable (b.Inside dims) :=
  inferInstanceAs (Decidable (List.Forall₂ _ _ _))

/-- A block inside the dimensions starts below each of them and counts at most each of them. -/
theorem Block.Inside.bounds {dims : List HSize} {b : Block} (h : b.Inside dims)
    (hlen : b.start.length = b.count.length) :
    List.Forall₂ (fun s d : HSize => s.toNat < d.toNat) b.start dims ∧
      List.Forall₂ (fun c d : HSize => c.toNat ≤ d.toNat) b.count dims := by
  obtain ⟨start, count⟩ := b
  simp only [Block.Inside] at h hlen ⊢
  induction start generalizing count dims with
  | nil =>
      obtain rfl : count = [] := List.length_eq_zero_iff.mp hlen.symm
      cases h
      exact ⟨List.Forall₂.nil, List.Forall₂.nil⟩
  | cons s start ih =>
      cases count with
      | nil => cases hlen
      | cons c count =>
          rw [List.zip_cons_cons] at h
          obtain _ | ⟨hsc, hrest⟩ := h
          obtain ⟨hstart, hcount⟩ := ih count hrest (by simpa using hlen)
          simp only at hsc
          exact ⟨hstart.cons (by omega), hcount.cons (by omega)⟩

/-! ## §2 — datasets. -/

/-- One filter of a pipeline (`H5VL_log_filter_t`), named by its `id`. -/
structure Filter where
  id : I32
  deriving DecidableEq, Repr

/-- `H5S_MAX_RANK`. -/
def maxRank : Nat := 32

/-- `H5VL_log_dset_info_t`. The rank is the length of `dims`, at most `maxRank`; `fill` is `none` when
the fill value is undefined, and holds one element otherwise. -/
structure DsetInfo where
  esize : HSize
  dims : List HSize
  mdims : List HSize
  dsteps : List MpiOffset
  filters : List Filter
  fill : Option (List UInt8)
  rank_le : dims.length ≤ maxRank
  mdims_length : mdims.length = dims.length
  dsteps_length : dsteps.length = dims.length
  fill_length : ∀ f ∈ fill, f.length = esize.toNat

def DsetInfo.ndim (d : DsetInfo) : Nat := d.dims.length

/-- A dataset without filters, with an undefined fill value. -/
def DsetInfo.plain (esize : HSize) (dims mdims : List HSize) (dsteps : List MpiOffset)
    (hrank : dims.length ≤ maxRank) (hmdims : mdims.length = dims.length)
    (hdsteps : dsteps.length = dims.length) : DsetInfo :=
  { esize, dims, mdims, dsteps, filters := [], fill := none, rank_le := hrank
    mdims_length := hmdims, dsteps_length := hdsteps
    fill_length := fun _ h => absurd h (Option.not_mem_none _) }

/-- The `dsteps` computed from the current dimensions when a dataset is created, opened or resized:
the last step is `1` and each step is the next one times the next dimension. -/
def calcDsteps : List HSize → List MpiOffset
  | [] => []
  | [_] => [1]
  | _ :: d :: ds =>
      match calcDsteps (d :: ds) with
      | [] => []
      | s :: ss => s * d :: s :: ss

@[simp] theorem calcDsteps_length : ∀ ds : List HSize, (calcDsteps ds).length = ds.length
  | [] => rfl
  | [_] => rfl
  | _ :: d :: ds => by
      have ih := calcDsteps_length (d :: ds)
      rw [calcDsteps]
      cases h : calcDsteps (d :: ds) with
      | nil => rw [h] at ih; simp at ih
      | cons s ss =>
          rw [h] at ih
          simp only [List.length_cons] at ih ⊢
          omega

/-- `dsteps` belongs to the current `dims`. -/
def DsetInfo.StepsCurrent (d : DsetInfo) : Prop := d.dsteps = calcDsteps d.dims

/-! ## §3 — offsets of coordinates. -/

/-- `H5VL_logi_sel_encode`: the offset of a coordinate vector, in 64-bit arithmetic. -/
def selEncode : List MpiOffset → List HSize → MpiOffset
  | s :: ss, c :: cs => c * s + selEncode ss cs
  | _, _ => 0

/-- `H5VL_logi_sel_decode`: split an offset by signed division. Dividing by zero traps, and so does
the one quotient that does not fit. -/
def selDecode : List MpiOffset → MpiOffset → Except Fault (List HSize)
  | [], _ => .ok []
  | s :: ss, off =>
      if s = 0 ∨ (off = BitVec.intMin 64 ∧ s = -1) then .error .trap
      else do
        let cords ← selDecode ss (off.srem s)
        pure (off.sdiv s :: cords)

/-! ## §4 — selections in metadata. -/

/-- `H5VL_log_selections::encode`: all starts, then all counts, from dimension `dimoff` on; one offset
per vector when steps are given, the coordinates otherwise. -/
def Selections.encode (s : Selections) (dsteps : Option (List MpiOffset)) (dimoff : Nat) : List UInt8 :=
  match dsteps with
  | some ds =>
      s.sels.flatMap (fun b => putWord sizeofOffset (selEncode (ds.drop dimoff) (b.start.drop dimoff))) ++
      s.sels.flatMap (fun b => putWord sizeofOffset (selEncode (ds.drop dimoff) (b.count.drop dimoff)))
  | none =>
      s.sels.flatMap (fun b => putWords sizeofOffset (b.start.drop dimoff)) ++
      s.sels.flatMap (fun b => putWords sizeofOffset (b.count.drop dimoff))

theorem flatMap_length_const {α β : Type} {l : List α} {f : α → List β} {k : Nat}
    (h : ∀ x ∈ l, (f x).length = k) : (l.flatMap f).length = k * l.length := by
  induction l with
  | nil => rfl
  | cons x l ih =>
      rw [List.flatMap_cons, List.length_append, h x (List.mem_cons_self ..),
        ih fun y hy => h y (List.mem_cons_of_mem x hy), List.length_cons]
      ring

theorem encode_length_offsets (s : Selections) (ds : List MpiOffset) (dimoff : Nat) :
    (s.encode (some ds) dimoff).length = sizeofOffset * (s.nsel * 2) := by
  have h (f : Block → List HSize) : (s.sels.flatMap fun b =>
      putWord sizeofOffset (selEncode (ds.drop dimoff) ((f b).drop dimoff))).length =
      sizeofOffset * s.sels.length :=
    flatMap_length_const fun b _ => Lib.putWord_length _ _
  rw [Selections.encode, List.length_append, h Block.start, h Block.count, Selections.nsel]
  ring

theorem encode_length_coords (s : Selections) (dimoff : Nat) :
    (s.encode none dimoff).length = sizeofOffset * ((s.ndim - dimoff) * s.nsel * 2) := by
  have h (f : Block → List HSize) (hf : ∀ b ∈ s.sels, (f b).length = s.ndim) :
      (s.sels.flatMap fun b => putWords sizeofOffset ((f b).drop dimoff)).length =
      sizeofOffset * (s.ndim - dimoff) * s.sels.length :=
    flatMap_length_const fun b hb => by rw [Lib.putWords_length, List.length_drop, hf b hb]
  rw [Selections.encode, List.length_append, h Block.start fun b hb => (s.rank_eq b hb).1,
    h Block.count fun b hb => (s.rank_eq b hb).2, Selections.nsel]
  ring

end LogVol
