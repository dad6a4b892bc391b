/-
# LogVol.PointSelect — point selections and the order of their points.

HDF5 pairs the k-th element of a buffer with the k-th point of the list. The connector sorts the points
before it merges them into blocks, and the blocks are what data is written and read by: on the file side
block after block, on the memory side through the datatype `getMpiType` makes of them. Both follow the
list exactly when it is sorted (`pointOrder_iff`).
-/
import LogVol.SelectBlocks
import LogVol.Lib.ByteStore

namespace LogVol

open Lib (Box cellOffset)

/-! ## §1 — the blocks of a point selection. -/

/-- `alloc (nsel)`: `nsel * ndim` is computed in `int`s, and where it does not fit the counts are placed
anywhere. -/
def allocBlocks (ndim nsel : ℕ) : Except Fault Unit :=
  if nsel * ndim < 2 ^ 31 then .ok () else .error .outside

/-- **`H5VL_log_selections (dsid)`** of a point selection: the points are sorted and merged as blocks of
one element each. -/
def pointSelections (ndim : ℕ) (points : List (List ℕ)) : Except Fault (List Box) := do
  allocBlocks ndim points.length
  let starts := sortBy id points
  pure (mergeBlocks false ndim (starts.map fun p => p.map fun x => (x, 1)))

/-- A point as a block. -/
def pointBox (p : List ℕ) : Box := p.map fun x => (x, 1)

theorem pointBox_cells (p : List ℕ) : (pointBox p).cells = [p] := by
  induction p with
  | nil => rfl
  | cons x p ih =>
      show (List.range' x 1).flatMap _ = _
      have hp : Box.cells (p.map fun x => (x, 1)) = [p] := ih
      simp [hp]

/-- **The blocks list the points in sorted order.** -/
theorem pointSelections_cells {ndim : ℕ} {points : List (List ℕ)} (hrank : ∀ p ∈ points, p.length = ndim)
    {bs : List Box} (h : pointSelections ndim points = .ok bs) :
    bs.flatMap Box.cells = sortBy id points := by
  unfold pointSelections at h
  obtain ⟨-, -, h⟩ := Lib.bind_eq_ok.mp h
  obtain rfl := Except.ok.inj h
  have hmem : ∀ b ∈ (sortBy id points).map pointBox, ∃ p ∈ points, pointBox p = b := by
    intro b hb
    obtain ⟨p, hp, rfl⟩ := List.mem_map.mp hb
    exact ⟨p, (sortBy_perm id points).mem_iff.mp hp, rfl⟩
  have hlen : ∀ b ∈ (sortBy id points).map pointBox, b.length = ndim := by
    intro b hb
    obtain ⟨p, hp, rfl⟩ := hmem b hb
    rw [pointBox, List.length_map, hrank p hp]
  have hthin : ∀ b ∈ (sortBy id points).map pointBox, Box.ThinBefore (ndim - 1) b := by
    intro b hb q hq
    obtain ⟨p, -, rfl⟩ := hmem b hb
    obtain ⟨x, -, rfl⟩ := List.mem_map.mp (List.mem_of_mem_take hq)
    rfl
  have hcells := mergeBlocks_cells hlen hthin
  show (mergeBlocks false ndim ((sortBy id points).map pointBox)).flatMap Box.cells = _
  rw [hcells, List.flatMap_map]
  simp [pointBox_cells]

/-! ## §2 — the memory type. -/

/-- `MPI_Type_create_subarray` in C order, as the places of its elements in the array: every size and
every extent is positive and the block lies inside. -/
def createSubarray (size ssize sstart : List Int) : Except Fault (List ℕ) :=
  if (∀ n ∈ size, 1 ≤ n) ∧ (∀ n ∈ ssize, 1 ≤ n) ∧ (∀ n ∈ sstart, 0 ≤ n) ∧
      Box.InArray ((sstart.map Int.toNat).zip (ssize.map Int.toNat)) (size.map Int.toNat) then
    .ok ((Box.cells ((sstart.map Int.toNat).zip (ssize.map Int.toNat))).map
      (cellOffset (size.map Int.toNat)))
  else .error (.raised "MPI_ERR_ARG")

/-- **`get_mpi_type`**: a subarray for every block, all of them of the whole array, one after another.
Extents, starts and counts are cast to `int`. The type is given by the places of its elements. -/
def getMpiType (dims : List ℕ) (bs : List Box) : Except Fault (List ℕ) :=
  (bs.mapM fun b => createSubarray (dims.map fun d : ℕ => cInt d) (b.map fun p => cInt p.2)
    (b.map fun p => cInt p.1)).map List.flatten

/-- The casts change nothing of a block of an array whose extents fit an `int`. -/
theorem createSubarray_block {dims : List ℕ} {b : Box} (hint : ∀ d ∈ dims, d < 2 ^ 31) (hne : b.Nonempty)
    (hin : b.InArray dims) :
    createSubarray (dims.map fun d : ℕ => cInt d) (b.map fun p => cInt p.2) (b.map fun p => cInt p.1) =
      .ok (b.cells.map (cellOffset dims)) := by
  have hdims : (dims.map fun d : ℕ => cInt d) = dims.map fun d : ℕ => (d : Int) :=
    List.map_congr_left fun d hd => cInt_of_range (by omega) (by have := hint d hd; omega)
  -- The block lies in the array, so its places and counts fit where the extents do.
  have hfit : ∀ p ∈ b, 1 ≤ p.2 ∧ p.1 + p.2 < 2 ^ 31 := by
    intro p hp
    obtain ⟨d, hd, hpd⟩ := Lib.forall₂_mem_left hin hp
    have hlt := hint d hd
    exact ⟨hne p hp, by omega⟩
  have hcount : (b.map fun p => cInt p.2) = b.map fun p => (p.2 : Int) :=
    List.map_congr_left fun p hp => cInt_of_range (by omega) (by have := (hfit p hp).2; omega)
  have hstart : (b.map fun p => cInt p.1) = b.map fun p => (p.1 : Int) :=
    List.map_congr_left fun p hp => cInt_of_range (by omega) (by have := (hfit p hp).2; omega)
  have hzip : ((b.map fun p => (p.1 : Int)).map Int.toNat).zip ((b.map fun p => (p.2 : Int)).map Int.toNat) =
      b := by
    rw [List.map_map, List.map_map, List.zip_map']
    exact List.map_id b
  have hsize : (dims.map fun d : ℕ => (d : Int)).map Int.toNat = dims := by
    rw [List.map_map]
    exact List.map_id dims
  have hpos : ∀ d ∈ dims, 1 ≤ d := by
    intro d hd
    obtain ⟨p, hp, hpd⟩ := Lib.forall₂_mem_left hin.flip hd
    have := hne p hp
    omega
  unfold createSubarray
  rw [hdims, hcount, hstart, hzip, hsize, if_pos]
  refine ⟨?_, ?_, ?_, hin⟩
  · intro n hn
    obtain ⟨d, hd, rfl⟩ := List.mem_map.mp hn
    have := hpos d hd
    omega
  · intro n hn
    obtain ⟨p, hp, rfl⟩ := List.mem_map.mp hn
    have := (hfit p hp).1
    omega
  · intro n hn
    obtain ⟨p, -, rfl⟩ := List.mem_map.mp hn
    omega

/-- **The memory type lists the elements of the blocks in order.** -/
theorem getMpiType_eq {dims : List ℕ} {bs : List Box} (hint : ∀ d ∈ dims, d < 2 ^ 31)
    (hne : ∀ b ∈ bs, b.Nonempty) (hin : ∀ b ∈ bs, b.InArray dims) :
    getMpiType dims bs = .ok ((bs.flatMap Box.cells).map (cellOffset dims)) := by
  have hall : bs.mapM (fun b => createSubarray (dims.map fun d : ℕ => cInt d) (b.map fun p => cInt p.2)
      (b.map fun p => cInt p.1)) = .ok (bs.map fun b => b.cells.map (cellOffset dims)) := by
    refine Lib.mapM_eq_ok_iff.mpr (List.forall₂_map_right_iff.mpr (List.forall₂_same.mpr fun b hb => ?_))
    exact createSubarray_block hint (hne b hb) (hin b hb)
  rw [getMpiType, hall]
  show Except.ok _ = _
  rw [List.map_flatMap, List.flatMap_def]

/-! ## §3 — the order of the points. -/

/-- On the file side the k-th element goes to the k-th point. -/
def FileOrder (ndim : ℕ) (points : List (List ℕ)) : Prop :=
  ∃ bs, pointSelections ndim points = .ok bs ∧ bs.flatMap Box.cells = points

/-- On the memory side the k-th element is that of the k-th point. -/
def MemOrder (dims : List ℕ) (points : List (List ℕ)) : Prop :=
  ∃ bs, pointSelections dims.length points = .ok bs ∧
    getMpiType dims bs = .ok (points.map (cellOffset dims))

/-- The list is sorted, and its coordinates fit the allocation. -/
structure SortedPoints (ndim : ℕ) (points : List (List ℕ)) : Prop where
  sorted : points.Pairwise (· ≤ ·)
  fits : points.length * ndim < 2 ^ 31

theorem pointSelections_isOk_iff {ndim : ℕ} {points : List (List ℕ)} :
    (∃ bs, pointSelections ndim points = .ok bs) ↔ points.length * ndim < 2 ^ 31 := by
  unfold pointSelections allocBlocks
  split
  · rename_i hfit
    exact iff_of_true ⟨_, rfl⟩ hfit
  · rename_i hfit
    refine iff_of_false ?_ hfit
    rintro ⟨bs, h⟩
    cases h

theorem fileOrder_iff {ndim : ℕ} {points : List (List ℕ)} (hrank : ∀ p ∈ points, p.length = ndim) :
    FileOrder ndim points ↔ SortedPoints ndim points := by
  constructor
  · rintro ⟨bs, h, horder⟩
    rw [pointSelections_cells hrank h] at horder
    exact ⟨(@sortBy_eq_self_iff _ id _ _ hrank).mp horder, pointSelections_isOk_iff.mp ⟨bs, h⟩⟩
  · rintro ⟨hsorted, hfit⟩
    obtain ⟨bs, h⟩ := pointSelections_isOk_iff.mpr hfit
    refine ⟨bs, h, ?_⟩
    rw [pointSelections_cells hrank h]
    exact (@sortBy_eq_self_iff _ id _ _ hrank).mpr hsorted

/-- The blocks of a point selection lie where its points do. -/
theorem pointSelections_inArray {dims : List ℕ} {points : List (List ℕ)}
    (hin : ∀ p ∈ points, List.Forall₂ (· < ·) p dims) {bs : List Box}
    (h : pointSelections dims.length points = .ok bs) : ∀ b ∈ bs, b.Nonempty ∧ b.InArray dims := by
  have hcells := pointSelections_cells (fun p hp => (hin p hp).length_eq) h
  have hne : ∀ b ∈ bs, Box.Nonempty b := by
    unfold pointSelections at h
    obtain ⟨-, -, h⟩ := Lib.bind_eq_ok.mp h
    obtain rfl := Except.ok.inj h
    refine mergeBlocks_nonempty fun b hb => ?_
    obtain ⟨p, -, rfl⟩ := List.mem_map.mp hb
    intro q hq
    obtain ⟨x, -, rfl⟩ := List.mem_map.mp hq
    exact le_rfl
  intro b hb
  refine ⟨hne b hb, Box.inArray_of_cells (hne b hb) fun x hx => hin x ?_⟩
  rw [← (sortBy_perm id points).mem_iff, ← hcells]
  exact List.mem_flatMap.mpr ⟨b, hb, hx⟩

theorem map_cellOffset_inj {dims : List ℕ} {xs ys : List (List ℕ)}
    (hx : ∀ x ∈ xs, List.Forall₂ (· < ·) x dims) (hy : ∀ y ∈ ys, List.Forall₂ (· < ·) y dims)
    (h : xs.map (cellOffset dims) = ys.map (cellOffset dims)) : xs = ys := by
  have hlen : xs.length = ys.length := by
    have hmap := congrArg List.length h
    rwa [List.length_map, List.length_map] at hmap
  apply List.ext_getElem hlen
  intro i hi hi'
  have hget := congrArg (fun l : List ℕ => l[i]?) h
  simp only [List.getElem?_map, List.getElem?_eq_getElem hi, List.getElem?_eq_getElem hi', Option.map_some,
    Option.some.injEq] at hget
  exact Lib.cellOffset_inj (hx _ (List.getElem_mem hi)) (hy _ (List.getElem_mem hi')) hget

theorem memOrder_iff {dims : List ℕ} {points : List (List ℕ)} (hint : ∀ d ∈ dims, d < 2 ^ 31)
    (hin : ∀ p ∈ points, List.Forall₂ (· < ·) p dims) :
    MemOrder dims points ↔ SortedPoints dims.length points := by
  have hrank : ∀ p ∈ points, p.length = dims.length := fun p hp => (hin p hp).length_eq
  have htype {bs : List Box} (h : pointSelections dims.length points = .ok bs) :
      getMpiType dims bs = .ok ((sortBy id points).map (cellOffset dims)) := by
    have hblocks := pointSelections_inArray hin h
    rw [getMpiType_eq hint (fun b hb => (hblocks b hb).1) (fun b hb => (hblocks b hb).2),
      pointSelections_cells hrank h]
  constructor
  · rintro ⟨bs, h, horder⟩
    rw [htype h] at horder
    have hsame := map_cellOffset_inj
      (fun p hp => hin p ((sortBy_perm id points).mem_iff.mp hp)) hin (Except.ok.inj horder)
    exact ⟨(@sortBy_eq_self_iff _ id _ _ hrank).mp hsame, pointSelections_isOk_iff.mp ⟨bs, h⟩⟩
  · rintro ⟨hsorted, hfit⟩
    obtain ⟨bs, h⟩ := pointSelections_isOk_iff.mpr hfit
    refine ⟨bs, h, ?_⟩
    rw [htype h, (@sortBy_eq_self_iff _ id _ _ hrank).mpr hsorted]

/-- **Point selections keep the order of their points** exactly when the list is sorted: on the file side,
and on the memory side of a dataspace whose extents fit an `int`. -/
theorem pointOrder_iff (dims : List ℕ) (points : List (List ℕ))
    (hin : ∀ p ∈ points, List.Forall₂ (· < ·) p dims) :
    (FileOrder dims.length points ↔ SortedPoints dims.length points) ∧
      ((∀ d ∈ dims, d < 2 ^ 31) → (MemOrder dims points ↔ SortedPoints dims.length points)) :=
  ⟨fileOrder_iff fun p hp => (hin p hp).length_eq, fun hint => memOrder_iff hint hin⟩

theorem pointOrder_pair :
    (FileOrder 2 [[0, 1], [1, 0]] ↔ SortedPoints 2 [[0, 1], [1, 0]]) ∧
      (MemOrder [2, 2] [[0, 1], [1, 0]] ↔ SortedPoints 2 [[0, 1], [1, 0]]) :=
  have h := pointOrder_iff [2, 2] [[0, 1], [1, 0]] (by decide)
  ⟨h.1, h.2 (by decide)⟩

/-- **Two points listed the other way round change places**, in the file and in memory. -/
theorem not_pointOrder_swapped :
    ¬ FileOrder 2 [[1, 0], [0, 1]] ∧ ¬ MemOrder [2, 2] [[1, 0], [0, 1]] := by
  have hblocks : pointSelections 2 [[1, 0], [0, 1]] = .ok [[(0, 1), (1, 1)], [(1, 1), (0, 1)]] := by decide
  constructor
  · rintro ⟨bs, h, horder⟩
    obtain rfl := Except.ok.inj (hblocks.symm.trans h)
    revert horder
    decide
  · rintro ⟨bs, h, horder⟩
    obtain rfl := Except.ok.inj (hblocks.symm.trans h)
    revert horder
    decide

end LogVol
