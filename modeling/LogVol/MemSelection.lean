/-
# LogVol.MemSelection — memory selections and the datatypes made of them.

The elements of a memory selection come in an order, and each has a place in its dataspace. The connector makes
a datatype of the blocks it keeps the selection in, casting extents, starts and counts to `int`. It has the
elements at their places and in their order when the blocks list them so (`Dspace.listed_iff`) and the casts
keep every one of them (`getMpiType_of_kept`), and not otherwise (`kept_of_getMpiType`).
-/
import LogVol.HyperOrder
import LogVol.Lib.Shrunk

namespace LogVol

open Lib (Box cellOffset)

/-! ## §1 — memory spaces. -/

/-- What is selected of a dataspace, as HDF5 lists it. -/
inductive Selection where
  | none
  | all
  | hyperslab (blocks : List Span)
  | points (ps : List (List ℕ))

/-- A dataspace: its extents and its selection. -/
structure Dspace where
  dims : List ℕ
  sel : Selection

/-- The elements of the selection, in the order in which HDF5 pairs them with a buffer. -/
def Dspace.cells (s : Dspace) : List (List ℕ) :=
  match s.sel with
  | .none => []
  | .all => Box.cells (s.dims.map (0, ·))
  | .hyperslab blocks => sortBy id (blocks.flatMap fun b => b.box.cells)
  | .points ps => ps

/-- Where they are in the dataspace, counted in elements. -/
def Dspace.places (s : Dspace) : List ℕ := s.cells.map (cellOffset s.dims)

/-- **`H5VL_log_selections (dsid)`**: the selection as blocks. -/
def Dspace.selections (s : Dspace) : Except Fault (List Box) :=
  match s.sel with
  | .none => .ok []
  | .all => if 0 ∈ s.dims then .ok [] else .ok [s.dims.map (0, ·)]
  | .hyperslab [b] => .ok [b.box]
  | .hyperslab blocks => hyperSelections s.dims.length blocks
  | .points ps => pointSelections s.dims.length ps

/-- HDF5 selects inside the extents. -/
def Dspace.Valid (s : Dspace) : Prop :=
  match s.sel with
  | .none => True
  | .all => True
  | .hyperslab blocks =>
      blocks ≠ [] ∧ (∀ b ∈ blocks, b.box.InArray s.dims) ∧
        (2 ≤ blocks.length → HdfBlocks s.dims.length blocks)
  | .points ps => ∀ p ∈ ps, List.Forall₂ (· < ·) p s.dims

/-- `get_sel_size`: the number of elements in the blocks. -/
def selSize (bs : List Box) : ℕ := (bs.map fun b => (b.map Prod.snd).prod).sum % 2 ^ 64

/-- The id of a memory dataspace: `H5S_ALL`, `H5S_BLOCK` or that of a dataspace. -/
inductive MemSpace where
  | all
  | block
  | space (s : Dspace)

/-- `mstype == H5S_SEL_ALL`. -/
def MemSpace.selectsAll : MemSpace → Bool
  | .space ⟨_, .all⟩ => true
  | .space _ => false
  | _ => true

/-- `H5S_ALL` means using the file space. -/
def MemSpace.orFile (mem : MemSpace) (dsid : Dspace) : MemSpace :=
  match mem with
  | .all => .space dsid
  | mem => mem

/-- Where the `n` elements of a read belong in the user buffer, once `H5S_ALL` is replaced. -/
def MemSpace.places (mem : MemSpace) (n : ℕ) : List ℕ :=
  match mem with
  | .space s => s.places
  | _ => List.range n

/-! ## §2 — the datatype. -/

/-- A derived datatype: `places.length` elements of `elem` bytes, at these places of an array of such. -/
structure MpiType where
  elem : ℕ
  places : List ℕ
  deriving DecidableEq, Repr

/-- `H5VL_logi_get_mpi_type_by_size`, and `MPI_Type_contiguous` for the sizes it has no type for: the number
of bytes is an `int`. -/
def mpiElem (esize : ℕ) : Except Fault ℕ :=
  if esize = 1 ∨ esize = 2 ∨ esize = 4 ∨ esize = 8 then .ok esize
  else if 0 ≤ cInt esize then .ok (cInt esize).toNat
  else .error (.raised "MPI_ERR_ARG")

/-- **`get_mpi_type (esize, type)`** of the blocks: `MPI_DATATYPE_NULL` when there are none. -/
def getMpiTypeOf (esize : ℕ) (dims : List ℕ) (bs : List Box) : Except Fault (Option MpiType) := do
  let elem ← mpiElem esize
  if bs = [] then pure none
  else do
    let places ← getMpiType dims bs
    pure (some ⟨elem, places⟩)

/-- Need packing: the datatype of a memory selection that is not all of its space. -/
def MemSpace.packType (msize : ℕ) : MemSpace → Except Fault (Option MpiType)
  | .space ⟨_, .all⟩ => .ok none
  | .space s => s.selections >>= getMpiTypeOf msize s.dims
  | _ => .ok none

/-! ## §3 — what has to hold. -/

/-- The blocks of the selection list its elements in their order. -/
def Dspace.Listed (s : Dspace) : Prop :=
  match s.sel with
  | .none => True
  | .all => True
  | .hyperslab blocks => 2 ≤ blocks.length → CountsFit s.dims.length blocks ∧ VectorsApart s.dims.length blocks
  | .points ps => SortedPoints s.dims.length ps

/-- Extents, cast to `int`. -/
def castDims (dims : List ℕ) : List ℕ := dims.map fun d : ℕ => (cInt d).toNat

/-- The casts leave an element inside the array, and at its place. -/
def CastKeeps (dims x : List ℕ) : Prop :=
  List.Forall₂ (· < ·) x (castDims dims) ∧ cellOffset (castDims dims) x = cellOffset dims x

instance (dims x : List ℕ) : Decidable (CastKeeps dims x) := inferInstanceAs (Decidable (_ ∧ _))

/-! ## §4 — the casts. -/

/-- A block, its start and its counts cast to `int`. -/
def castBlock (b : Box) : Box := b.map fun p => ((cInt p.1).toNat, (cInt p.2).toNat)

/-- Every cell of a block as it comes out of the casts is one of the block, moved down, and not moved where the
cell fits an `int`. -/
theorem castBlock_cell {b : Box} {x : List ℕ} (hx : x ∈ (castBlock b).cells) :
    ∃ y ∈ b.cells, List.Forall₂ (· ≤ ·) x y ∧ ((∀ i ∈ y, i < 2 ^ 31) → x = y) := by
  induction b generalizing x with
  | nil =>
      obtain rfl := List.mem_singleton.mp hx
      exact ⟨[], List.mem_singleton.mpr rfl, List.Forall₂.nil, fun _ => rfl⟩
  | cons p b ih =>
      obtain ⟨i, x, rfl⟩ := List.exists_cons_of_length_eq_add_one (Box.length_of_mem hx)
      have hbox : castBlock (p :: b) = ((cInt p.1).toNat, (cInt p.2).toNat) :: castBlock b := rfl
      rw [hbox, Box.mem_cells_cons] at hx
      simp only at hx
      obtain ⟨⟨hlo, hhi⟩, hrest⟩ := hx
      obtain ⟨y, hy, hxy, hsame⟩ := ih hrest
      have hstart := toNat_cInt_le p.1
      have hcount := toNat_cInt_le p.2
      refine ⟨(p.1 + (i - (cInt p.1).toNat)) :: y, Box.mem_cells_cons.mpr ⟨⟨by omega, ?_⟩, hy⟩,
        List.Forall₂.cons (by omega) hxy, fun hfit => ?_⟩
      · omega
      · have hhead := hfit _ (List.mem_cons_self ..)
        have hcast : (cInt p.1).toNat = p.1 := by
          rw [cInt_of_range (by omega) (by omega), Int.toNat_natCast]
        exact List.cons_eq_cons.mpr ⟨by omega, hsame fun j hj => hfit j (List.mem_cons_of_mem _ hj)⟩

theorem castDims_le (dims : List ℕ) : List.Forall₂ (· ≤ ·) (castDims dims) dims := by
  rw [castDims, List.forall₂_map_left_iff, List.forall₂_same]
  exact fun d _ => toNat_cInt_le d

/-- What `MPI_Type_create_subarray` asks of the casts. -/
structure SubarrayOk (dims : List ℕ) (b : Box) : Prop where
  extents : ∀ d ∈ dims, 1 ≤ cInt d
  counts : ∀ p ∈ b, 1 ≤ cInt p.2
  starts : ∀ p ∈ b, 0 ≤ cInt p.1
  inside : (castBlock b).InArray (castDims dims)

theorem createSubarray_eq_ok_iff {dims : List ℕ} {b : Box} {places : List ℕ} :
    createSubarray (dims.map fun d : ℕ => cInt d) (b.map fun p => cInt p.2) (b.map fun p => cInt p.1) =
      .ok places ↔ SubarrayOk dims b ∧ (castBlock b).cells.map (cellOffset (castDims dims)) = places := by
  have hzip : ((b.map fun p => cInt p.1).map Int.toNat).zip ((b.map fun p => cInt p.2).map Int.toNat) =
      castBlock b := by
    simp only [List.map_map, List.zip_map', castBlock, Function.comp_def]
  have hdims : (dims.map fun d : ℕ => cInt d).map Int.toNat = castDims dims := by
    simp only [List.map_map, castDims, Function.comp_def]
  unfold createSubarray
  rw [hzip, hdims]
  split
  · rename_i hok
    simp only [List.forall_mem_map] at hok
    obtain ⟨hext, hcount, hstart, hin⟩ := hok
    constructor
    · intro h
      exact ⟨⟨hext, hcount, hstart, hin⟩, Except.ok.inj h⟩
    · rintro ⟨-, rfl⟩
      rfl
  · rename_i hnot
    simp only [List.forall_mem_map] at hnot
    refine iff_of_false (fun h => by cases h) ?_
    rintro ⟨hok, -⟩
    exact hnot ⟨hok.extents, hok.counts, hok.starts, hok.inside⟩

/-- **The memory type** is made of the blocks as they come out of the casts. -/
theorem getMpiType_eq_ok_iff {dims : List ℕ} {bs : List Box} {places : List ℕ} :
    getMpiType dims bs = .ok places ↔ (∀ b ∈ bs, SubarrayOk dims b) ∧
      ((bs.map castBlock).flatMap Box.cells).map (cellOffset (castDims dims)) = places := by
  have hflat : ((bs.map castBlock).flatMap Box.cells).map (cellOffset (castDims dims)) =
      (bs.map fun b => (castBlock b).cells.map (cellOffset (castDims dims))).flatten := by
    rw [List.map_flatMap, List.flatMap_map, List.flatMap_def]
  have hmap {x : Except Fault (List (List ℕ))} : x.map List.flatten = .ok places ↔
      ∃ pss, x = .ok pss ∧ pss.flatten = places := by
    cases x with
    | error e => simp [Except.map]
    | ok pss => simp [Except.map]
  rw [getMpiType, hmap, hflat]
  simp only [Lib.mapM_eq_ok_iff, createSubarray_eq_ok_iff]
  constructor
  · rintro ⟨pss, hpss, rfl⟩
    have heq : (bs.map fun b => (castBlock b).cells.map (cellOffset (castDims dims))) = pss := by
      rw [← List.forall₂_eq_eq_eq, List.forall₂_map_left_iff]
      exact hpss.imp fun _ _ h => h.2
    refine ⟨fun b hb => ?_, by rw [heq]⟩
    obtain ⟨ps, -, hps⟩ := Lib.forall₂_mem_left hpss hb
    exact hps.1
  · rintro ⟨hok, hplaces⟩
    refine ⟨_, ?_, hplaces⟩
    rw [List.forall₂_map_right_iff, List.forall₂_same]
    exact fun b hb => ⟨hok b hb, rfl⟩

/-- The memory type has no place behind those of the elements. -/
theorem getMpiType_le {dims : List ℕ} {bs : List Box} {places : List ℕ} (h : getMpiType dims bs = .ok places) :
    ∀ q ∈ places, ∃ y ∈ bs.flatMap Box.cells, q ≤ cellOffset dims y := by
  obtain ⟨-, rfl⟩ := getMpiType_eq_ok_iff.mp h
  intro q hq
  obtain ⟨x, hx, rfl⟩ := List.mem_map.mp hq
  obtain ⟨c, hc, hx⟩ := List.mem_flatMap.mp hx
  obtain ⟨b, hb, rfl⟩ := List.mem_map.mp hc
  obtain ⟨y, hy, hxy, -⟩ := castBlock_cell hx
  exact ⟨y, List.mem_flatMap.mpr ⟨b, hb, hy⟩, Lib.cellOffset_le (castDims_le dims) hxy⟩

section Casts

variable {dims : List ℕ} {bs : List Box} (hblocks : ∀ b ∈ bs, b.Nonempty ∧ b.InArray dims)
include hblocks

/-- **Elements the casts keep** are where they belong in the memory type. -/
theorem getMpiType_of_kept (hkept : ∀ x ∈ bs.flatMap Box.cells, CastKeeps dims x) :
    getMpiType dims bs = .ok ((bs.flatMap Box.cells).map (cellOffset dims)) := by
  have hin : ∀ b ∈ bs, Box.InArray b (castDims dims) := fun b hb =>
    Box.inArray_of_cells (hblocks b hb).1 fun x hx => (hkept x (List.mem_flatMap.mpr ⟨b, hb, hx⟩)).1
  -- A block inside the cast array has small numbers only.
  have hsmall : ∀ b ∈ bs, ∀ p ∈ b, 1 ≤ p.2 ∧ p.1 + p.2 < 2 ^ 31 := by
    intro b hb p hp
    obtain ⟨c, hc, hle⟩ := Lib.forall₂_mem_left (hin b hb) hp
    obtain ⟨d, -, rfl⟩ := List.mem_map.mp hc
    have hlt := toNat_cInt_lt d
    exact ⟨(hblocks b hb).1 p hp, by omega⟩
  have hcast : ∀ b ∈ bs, castBlock b = b := by
    intro b hb
    have hpair : ∀ p ∈ b, ((cInt p.1).toNat, (cInt p.2).toNat) = id p := by
      intro p hp
      have hlt := (hsmall b hb p hp).2
      rw [cInt_of_range (by omega) (by omega), cInt_of_range (by omega) (by omega)]
      rfl
    rw [castBlock, List.map_congr_left hpair, List.map_id]
  refine getMpiType_eq_ok_iff.mpr ⟨fun b hb => ⟨?_, ?_, ?_, ?_⟩, ?_⟩
  · intro d hd
    obtain ⟨p, hp, hle⟩ := Lib.forall₂_mem_left (hin b hb).flip (List.mem_map_of_mem hd)
    have hpos := (hsmall b hb p hp).1
    omega
  · intro p hp
    have hp := hsmall b hb p hp
    rw [cInt_of_range (by omega) (by omega)]
    omega
  · intro p hp
    have hp := hsmall b hb p hp
    rw [cInt_of_range (by omega) (by omega)]
    omega
  · rw [hcast b hb]
    exact hin b hb
  · rw [List.map_congr_left hcast, List.map_id']
    exact List.map_congr_left fun x hx => (hkept x hx).2

end Casts

/-- **Conversely**, a memory type with the places of some elements, made of blocks that have no others, has each
of them in a block, and the casts keep it. -/
theorem kept_of_getMpiType {dims : List ℕ} {bs : List Box} {places : List ℕ} (h : getMpiType dims bs = .ok places)
    {xs : List (List ℕ)} (hsub : ∀ x ∈ bs.flatMap Box.cells, x ∈ xs) (hin : ∀ x ∈ xs, List.Forall₂ (· < ·) x dims)
    (hall : ∀ x ∈ xs, cellOffset dims x ∈ places) :
    ∀ x ∈ xs, x ∈ bs.flatMap Box.cells ∧ CastKeeps dims x := by
  obtain ⟨hok, rfl⟩ := getMpiType_eq_ok_iff.mp h
  -- from the last element down: whatever takes its place has moved down from one that is not before it
  intro x hx
  induction hm : dims.prod - cellOffset dims x using Nat.strong_induction_on generalizing x with
  | _ m ih =>
      obtain ⟨x', hx', hplace⟩ := List.mem_map.mp (hall x hx)
      obtain ⟨c, hc, hx'⟩ := List.mem_flatMap.mp hx'
      obtain ⟨b, hb, rfl⟩ := List.mem_map.mp hc
      obtain ⟨y, hy, hle, hsame⟩ := castBlock_cell hx'
      have hyb : y ∈ bs.flatMap Box.cells := List.mem_flatMap.mpr ⟨b, hb, hy⟩
      have hyin := hin y (hsub y hyb)
      have hx'in : List.Forall₂ (· < ·) x' (castDims dims) := (hok b hb).inside.cell hx'
      have hdown : cellOffset dims x ≤ cellOffset dims y := by
        rw [← hplace]
        exact Lib.cellOffset_le (castDims_le dims) hle
      rcases Nat.lt_or_ge (cellOffset dims x) (cellOffset dims y) with hlt | hge
      · have hylt := Lib.cellOffset_lt hyin
        obtain ⟨-, hkept⟩ := ih (dims.prod - cellOffset dims y) (by omega) y (hsub y hyb) rfl
        have hfit : ∀ i ∈ y, i < 2 ^ 31 := by
          intro i hi
          obtain ⟨c, hc, hic⟩ := Lib.forall₂_mem_left hkept.1 hi
          obtain ⟨d, -, rfl⟩ := List.mem_map.mp hc
          exact hic.trans (toNat_cInt_lt d)
        rw [hsame hfit, hkept.2] at hplace
        omega
      · obtain rfl := Lib.cellOffset_inj (hin x hx) hyin (Nat.le_antisymm hdown hge)
        have hpos : ∀ c ∈ castDims dims, 1 ≤ c := by
          intro c hc
          obtain ⟨i, -, hic⟩ := Lib.forall₂_mem_left hx'in.flip hc
          exact Nat.one_le_of_lt hic
        obtain rfl := Lib.eq_of_cellOffset_eq hpos (castDims_le dims) hx'in.length_eq hle hplace
        exact ⟨hyb, hx'in, hplace⟩

/-! ## §5 — the blocks of a memory selection. -/

/-- Row-major order is the order of the sorted elements. -/
theorem RowMajor.cells_eq {ndim : ℕ} {blocks : List Span} (h : HdfBlocks ndim blocks) {bs : List Box}
    (hbs : RowMajor blocks bs) :
    bs.flatMap Box.cells = sortBy id (blocks.flatMap fun b => b.box.cells) := by
  have hnodup : (bs.flatMap Box.cells).Nodup := hbs.ordered.imp fun hlt => ne_of_lt hlt
  have hperm : (bs.flatMap Box.cells).Perm (blocks.flatMap fun b => b.box.cells) := by
    rw [List.perm_ext_iff_of_nodup hnodup h.nodup]
    intro x
    rw [hbs.covers, List.mem_flatMap]
  have hsorted : (sortBy id (blocks.flatMap fun b => b.box.cells)).Pairwise (· ≤ ·) := by
    apply sortBy_pairwise
    intro x hx
    obtain ⟨b, hb, hx⟩ := List.mem_flatMap.mp hx
    show x.length = ndim
    rw [Box.length_of_mem hx, Span.box_length, h.rank b hb]
  refine (hperm.trans (sortBy_perm id _).symm).eq_of_pairwise ?_ (hbs.ordered.imp le_of_lt) hsorted
  exact fun x y _ _ hxy hyx => le_antisymm hxy hyx

/-- **The blocks lie in the selection**, each with an element in it, and there is one if there is an element. -/
theorem Dspace.selections_within {s : Dspace} (hvalid : s.Valid) {bs : List Box} (h : s.selections = .ok bs) :
    (∀ x ∈ bs.flatMap Box.cells, x ∈ s.cells) ∧ (∀ b ∈ bs, b.Nonempty ∧ b.InArray s.dims) ∧
      (bs = [] → s.cells = []) := by
  obtain ⟨dims, sel⟩ := s
  cases sel with
  | none =>
      obtain rfl := Except.ok.inj h
      exact ⟨by simp, by simp, fun _ => rfl⟩
  | all =>
      have h : (if 0 ∈ dims then .ok [] else .ok [dims.map (0, ·)] : Except Fault (List Box)) = .ok bs := h
      split at h
      · rename_i hzero
        obtain rfl := Except.ok.inj h
        refine ⟨by simp, by simp, fun _ => List.eq_nil_of_length_eq_zero ?_⟩
        show (Box.cells (dims.map (0, ·))).length = 0
        rw [Box.cells_length, List.map_map]
        exact List.prod_eq_zero (List.mem_map.mpr ⟨0, hzero, rfl⟩)
      · rename_i hpos
        obtain rfl := Except.ok.inj h
        rw [List.flatMap_singleton]
        refine ⟨fun x hx => hx, fun b hb => ?_, fun hnil => absurd hnil (List.cons_ne_nil _ _)⟩
        obtain rfl := List.mem_singleton.mp hb
        constructor
        · intro p hp
          obtain ⟨d, hd, rfl⟩ := List.mem_map.mp hp
          exact Nat.one_le_iff_ne_zero.mpr fun heq => hpos (heq ▸ hd)
        · rw [Box.InArray, List.forall₂_map_left_iff, List.forall₂_same]
          intro d _
          exact (Nat.zero_add d).le
  | hyperslab blocks =>
      obtain ⟨hsome, hin, hhdf⟩ : blocks ≠ [] ∧ (∀ b ∈ blocks, b.box.InArray dims) ∧
        (2 ≤ blocks.length → HdfBlocks dims.length blocks) := hvalid
      have hsort (x : List ℕ) : x ∈ sortBy id (blocks.flatMap fun b => b.box.cells) ↔
          x ∈ blocks.flatMap fun b => b.box.cells := (sortBy_perm id _).mem_iff
      show (∀ x ∈ bs.flatMap Box.cells, x ∈ sortBy id (blocks.flatMap fun b => b.box.cells)) ∧
        (∀ b ∈ bs, b.Nonempty ∧ b.InArray dims) ∧
        (bs = [] → sortBy id (blocks.flatMap fun b => b.box.cells) = [])
      simp only [hsort]
      rcases blocks with _ | ⟨b, _ | ⟨c, blocks⟩⟩
      · exact absurd rfl hsome
      · obtain rfl := Except.ok.inj h
        refine ⟨fun x hx => by simpa using hx, fun b' hb' => ?_, fun hnil => absurd hnil (List.cons_ne_nil _ _)⟩
        obtain rfl := List.mem_singleton.mp hb'
        exact ⟨Span.box_nonempty b, hin b (List.mem_cons_self ..)⟩
      · -- Rows are cut out of the blocks that were merged, so nothing outside of them is listed.
        have hhdf := hhdf (Nat.le_add_left 2 _)
        have hwithin := hyperSelections_within hhdf h
        refine ⟨fun x hx => ?_, fun b' hb' => ?_, fun hnil => absurd hnil (hyperSelections_ne_nil hhdf h)⟩
        · obtain ⟨b', hb', hx⟩ := List.mem_flatMap.mp hx
          exact (hwithin b' hb').2 x hx
        · refine ⟨(hwithin b' hb').1, Box.inArray_of_cells (hwithin b' hb').1 fun x hx => ?_⟩
          obtain ⟨a, ha, hx⟩ := List.mem_flatMap.mp ((hwithin b' hb').2 x hx)
          exact (hin a ha).cell hx
  | points ps =>
      have hrank : ∀ p ∈ ps, p.length = dims.length := fun p hp => (hvalid p hp).length_eq
      have hcells := pointSelections_cells hrank h
      have hperm := sortBy_perm id ps
      refine ⟨fun x hx => ?_, pointSelections_inArray hvalid h, ?_⟩
      · rw [hcells] at hx
        exact hperm.mem_iff.mp hx
      · rintro rfl
        rw [List.flatMap_nil] at hcells
        exact List.nil_perm.mp (hcells ▸ hperm)

/-- The elements of a selection lie in its space. -/
theorem Dspace.cells_inArray {s : Dspace} (hvalid : s.Valid) : ∀ x ∈ s.cells, List.Forall₂ (· < ·) x s.dims := by
  obtain ⟨dims, sel⟩ := s
  cases sel with
  | none => exact fun x hx => absurd hx List.not_mem_nil
  | all =>
      intro x hx
      refine Box.InArray.cell (b := dims.map (0, ·)) ?_ hx
      rw [Box.InArray, List.forall₂_map_left_iff, List.forall₂_same]
      exact fun d _ => (Nat.zero_add d).le
  | hyperslab blocks =>
      intro x hx
      obtain ⟨b, hb, hx⟩ := List.mem_flatMap.mp ((sortBy_perm id _).mem_iff.mp hx)
      exact (hvalid.2.1 b hb).cell hx
  | points ps => exact hvalid

/-- **The blocks list a selection of part of a space in its order** exactly when `Listed` says so. -/
theorem Dspace.listed_iff {s : Dspace} (hvalid : s.Valid) (hpart : s.sel ≠ .all) :
    (∃ bs, s.selections = .ok bs ∧ bs.flatMap Box.cells = s.cells) ↔ s.Listed := by
  obtain ⟨dims, sel⟩ := s
  cases sel with
  | none => exact iff_of_true ⟨[], rfl, rfl⟩ trivial
  | all => exact absurd rfl hpart
  | hyperslab blocks =>
      show (∃ bs : List Box, _ ∧ bs.flatMap Box.cells = sortBy id (blocks.flatMap fun b => b.box.cells)) ↔
        (2 ≤ blocks.length → CountsFit dims.length blocks ∧ VectorsApart dims.length blocks)
      obtain ⟨hsome, -, hhdf⟩ : blocks ≠ [] ∧ (∀ b ∈ blocks, b.box.InArray dims) ∧
        (2 ≤ blocks.length → HdfBlocks dims.length blocks) := hvalid
      rcases blocks with _ | ⟨b, _ | ⟨c, blocks⟩⟩
      · exact absurd rfl hsome
      · refine iff_of_true ⟨[b.box], rfl, ?_⟩ (by simp)
        rw [List.flatMap_singleton, List.flatMap_singleton]
        have hsorted : b.box.cells.Pairwise (· ≤ ·) := b.box.cells_pairwise_lt.imp le_of_lt
        exact ((sortBy_eq_self_iff fun x hx => Box.length_of_mem hx).mpr hsorted).symm
      · have hseveral : 2 ≤ (b :: c :: blocks).length := Nat.le_add_left 2 _
        have hhdf := hhdf hseveral
        constructor
        · rintro ⟨bs, hok, hlist⟩ -
          refine ⟨hyperSelections_fits hhdf hok, ?_⟩
          -- A vector that is written twice loses what it held first.
          by_contra hsame
          obtain ⟨x, hx, hlost⟩ := hyperSelections_lost hhdf hok hsame
          rw [hlist] at hlost
          exact hlost ((sortBy_perm id _).mem_iff.mpr hx)
        · intro hlisted
          obtain ⟨hfit, hapart⟩ := hlisted hseveral
          obtain ⟨bs, hok⟩ := hyperSelections_isOk hhdf hfit
          refine ⟨bs, hok, ?_⟩
          rw [hyperSelections_eq hhdf hok hapart]
          exact (groups_rowMajor hhdf).cells_eq hhdf
  | points ps => exact fileOrder_iff fun p hp => (hvalid p hp).length_eq

/-! ## §6 — a datatype or none. -/

/-- The element size as MPI sees it. -/
theorem mpiElem_le {esize elem : ℕ} (h : mpiElem esize = .ok elem) : elem ≤ esize := by
  unfold mpiElem at h
  split at h
  · exact (Except.ok.inj h).ge
  · split at h
    · obtain rfl := Except.ok.inj h
      exact toNat_cInt_le esize
    · cases h

theorem mpiElem_eq_self_iff {esize : ℕ} : mpiElem esize = .ok esize ↔ esize < 2 ^ 31 := by
  unfold mpiElem
  split
  · rename_i hsize
    exact iff_of_true rfl (by omega)
  · constructor
    · intro h
      split at h
      · rw [← Except.ok.inj h]
        exact toNat_cInt_lt esize
      · cases h
    · intro hlt
      rw [cInt_of_range (by omega) (by omega), if_pos (Int.natCast_nonneg esize), Int.toNat_natCast]

theorem getMpiTypeOf_eq_none {esize : ℕ} {dims : List ℕ} {bs : List Box}
    (h : getMpiTypeOf esize dims bs = .ok none) : bs = [] := by
  unfold getMpiTypeOf at h
  obtain ⟨elem, -, h⟩ := Lib.bind_eq_ok.mp h
  split at h
  · assumption
  · obtain ⟨places, -, h⟩ := Lib.bind_eq_ok.mp h
    cases h

/-- A datatype made of blocks, of which there are some. -/
theorem getMpiTypeOf_eq_some_iff {esize : ℕ} {dims : List ℕ} {bs : List Box} {t : MpiType} :
    getMpiTypeOf esize dims bs = .ok (some t) ↔
      mpiElem esize = .ok t.elem ∧ bs ≠ [] ∧ getMpiType dims bs = .ok t.places := by
  unfold getMpiTypeOf
  rw [Lib.bind_eq_ok]
  constructor
  · rintro ⟨elem, helem, h⟩
    split at h
    · cases h
    · rename_i hsome
      obtain ⟨places, hplaces, h⟩ := Lib.bind_eq_ok.mp h
      obtain rfl := Option.some.inj (Except.ok.inj h)
      exact ⟨helem, hsome, hplaces⟩
  · rintro ⟨helem, hsome, hplaces⟩
    refine ⟨t.elem, helem, ?_⟩
    rw [if_neg hsome]
    exact Lib.bind_eq_ok.mpr ⟨t.places, hplaces, rfl⟩

/-- The places of all the elements of an array. -/
theorem whole_places (ds : List ℕ) : (Box.cells (ds.map (0, ·))).map (cellOffset ds) = List.range ds.prod := by
  induction ds with
  | nil => rfl
  | cons d ds ih =>
      rw [List.map_cons, Box.cells, List.map_flatMap, List.prod_cons]
      have hrow (i : ℕ) : ((Box.cells (ds.map (0, ·))).map (i :: ·)).map (cellOffset (d :: ds)) =
          (List.range ds.prod).map (i * ds.prod + ·) := by
        rw [← ih, List.map_map, List.map_map]
        rfl
      simp only [hrow]
      clear hrow ih
      show (List.range' 0 d).flatMap _ = _
      rw [← List.range_eq_range']
      induction d with
      | zero => simp
      | succ d ih =>
          rw [List.range_succ, List.flatMap_append, ih, List.flatMap_singleton, Nat.succ_mul, List.range_add]

/-- A memory space that is selected whole takes the elements one after another. -/
theorem MemSpace.places_of_selectsAll {mem : MemSpace} {n : ℕ} (h : mem.selectsAll = true)
    (hcount : (mem.places n).length = n) : mem.places n = List.range n := by
  rcases mem with _ | _ | ⟨dims, sel⟩
  · rfl
  · rfl
  · cases sel with
    | all =>
        have hplaces : MemSpace.places (.space ⟨dims, .all⟩) n = List.range dims.prod := whole_places dims
        rw [hplaces, List.length_range] at hcount
        rw [hplaces, hcount]
    | none => cases h
    | hyperslab blocks => cases h
    | points ps => cases h

theorem MemSpace.packType_of_selectsAll {mem : MemSpace} (msize : ℕ) (h : mem.selectsAll = true) :
    mem.packType msize = .ok none := by
  rcases mem with _ | _ | ⟨dims, sel⟩
  · rfl
  · rfl
  · cases sel with
    | all => rfl
    | none => cases h
    | hyperslab blocks => cases h
    | points ps => cases h

theorem MemSpace.packType_of_part {mem : MemSpace} (msize : ℕ) (h : mem.selectsAll = false) :
    ∃ s, mem = .space s ∧ s.sel ≠ .all ∧ mem.packType msize = s.selections >>= getMpiTypeOf msize s.dims := by
  rcases mem with _ | _ | ⟨dims, sel⟩
  · cases h
  · cases h
  · cases sel with
    | all => cases h
    | none => exact ⟨_, rfl, nofun, rfl⟩
    | hyperslab blocks => exact ⟨_, rfl, nofun, rfl⟩
    | points ps => exact ⟨_, rfl, nofun, rfl⟩

end LogVol
