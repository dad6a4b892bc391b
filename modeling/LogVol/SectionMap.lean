/-
# LogVol.SectionMap — the offsets and the map of a metadata flush.

The first process of a group gathers how much each process has to write, turns the sizes into offsets in place,
scatters to each process where it begins, and writes the same array, its first word replaced, as the
decomposition map. `metaflushLayout` is that computation, `prefixSums_eq` and `fillSend_eq` are its loops.
`MapRoundTrip` says that the sections lie one behind the other and that both readers find them again, and
`mapRoundTrip_iff` for how many processes and entries.
-/
import LogVol.PartLimit
import LogVol.Lib.ByteStore

namespace LogVol

open Lib (putWords Store)

/-! ## §1 — the group. -/

/-- The metadata buffers of the requests of each process of a group. The size of a buffer is an `int`, and that
of all of them, with the map, an `MPI_Offset`. -/
structure GroupMeta where
  procs : List (List (List UInt8))
  np_pos : 0 < procs.length
  np_lt : procs.length < 2 ^ 31
  buf_lt : ∀ bufs ∈ procs, ∀ buf ∈ bufs, buf.length < 2 ^ 31
  size_lt : sizeofOffset * (procs.length + 1) + procs.flatten.flatten.length < 2 ^ 63

namespace GroupMeta

variable (G : GroupMeta)

/-- `group_np`. -/
def np : Nat := G.procs.length

/-- What each process writes, besides the map. -/
def secBytes : List (List UInt8) := G.procs.map List.flatten

/-! ## §2 — the computation. -/

/-- `lens[0]`, the size of the map, stored in an `int`. -/
def mapLen : I32 := BitVec.ofNat 32 (sizeofOffset * (G.np + 1))

/-- `nentry` of a process: the map, if it is the first one, and its entries. -/
def nentry (rank : Nat) : Nat := (if rank = 0 then 1 else 0) + (G.procs.getD rank []).length

/-- `mdsize` of a process: the map, if it is the first one, and its entries. -/
def localSize (rank : Nat) : MpiOffset :=
  (if rank = 0 then G.mapLen.signExtend 64 else 0) +
    ((G.procs.getD rank []).map fun buf => (BitVec.ofNat 32 buf.length).signExtend 64).sum

/-- `mdoffs` after `MPI_Gather`, its first word zero. -/
def gathered : Nat → MpiOffset
  | 0 => 0
  | rank + 1 => G.localSize rank

/-- `mdoffs[i + 1] += mdoffs[i]`, for each of the first `n` processes. -/
def prefixSums (n : Nat) (mdoffs : Nat → MpiOffset) : Nat → MpiOffset :=
  (List.range n).foldl (fun a i => Function.update a (i + 1) (a (i + 1) + a i)) mdoffs

/-- `mdoffs_snd`: the offsets at the even places, and then the total size at the odd ones. -/
def fillSend (n : Nat) (mdoffs : Nat → MpiOffset) (total : MpiOffset) : Nat → MpiOffset :=
  let snd := (List.range n).foldl (fun a i => Function.update a (2 * i) (mdoffs i)) fun _ => 0
  (List.range n).foldl (fun a i => Function.update a (2 * i + 1) total) snd

/-- What a flush arrives at: `dsize`, and where each process writes what. -/
structure FlushLayout where
  dsize : HSize
  pieces : List (Nat × List UInt8)

/-- **`H5VL_log_filei_metaflush`**, the layout. The arrays of the entries have as many places as an `int` counts, none
if it is negative, and are written for every entry. The type of the entries is refused when the length of the map is
negative, and with `passthru` so many bytes are copied; `group_np * 2` is an `int`, whose overflow is not
defined. -/
def metaflushLayout (passthru : Bool) : Except Fault FlushLayout :=
  if ∃ rank < G.np, 2 ^ 31 ≤ G.nentry rank then .error .outside
  else if 2 ^ 31 ≤ G.np * 2 then .error .outside
  else if G.mapLen.toInt < 0 then .error (if passthru then .outside else .raised "MPI_ERR_ARG")
  else
    let mdoffs := prefixSums G.np G.gathered
    let snd := fillSend G.np mdoffs (mdoffs G.np)
    let stored := Function.update mdoffs 0 (BitVec.ofNat 64 (G.mapLen.toNat / sizeofOffset) - 1)
    let map := (putWords sizeofOffset ((List.range (G.np + 1)).map stored)).take G.mapLen.toNat
    .ok {
      dsize := snd 1
      pieces := (List.range G.np).map fun rank =>
        ((snd (2 * rank)).toNat, (if rank = 0 then map else []) ++ G.secBytes.getD rank []) }

/-- Whether the metadata dataset is created: it is larger than its map. -/
def FlushLayout.Created (L : FlushLayout) (np : Nat) : Prop := sizeofOffset * (np + 1) < L.dsize.toNat

/-- The metadata dataset, once each process has written, in whatever order, over what was there. -/
def FlushLayout.dataset (L : FlushLayout) (s : Store) (order : List (Nat × List UInt8)) : List UInt8 :=
  (s.writeAll order).read 0 L.dsize.toNat

/-- **`MapRoundTrip`** — the sections lie in order, without gap or overlap, over the whole of the dataset, with
the map before the first of them. A dataset that is not created has nothing to hold. From one that is, the
sections are read in runs of whole ones, one by one when the limit is zero, and all at once. -/
structure MapRoundTrip (passthru : Bool) (L : FlushLayout) : Prop where
  layout : G.metaflushLayout passthru = .ok L
  placed : L.pieces.map Lib.writeRange = Lib.layout 0 (L.pieces.map fun p => p.2.length)
  inside : (L.pieces.map fun p => p.2.length).sum = L.dsize.toNat
  bytes : ∃ map, map.length = sizeofOffset * (G.np + 1) ∧
    L.pieces.map Prod.snd = (map ++ G.secBytes.headD []) :: G.secBytes.tail
  skipped : ¬ L.Created G.np → G.secBytes.flatten = []
  part : L.Created G.np → ∀ s order, order.Perm L.pieces → ∀ {E : Type} (I : LogIdx E) (md : I32)
    (mdsets : List (List UInt8)), mdsets[md.toNat]? = some (L.dataset s order) → ∀ k < G.np, ∀ idx limit,
      ∃ j, k < j ∧ j ≤ G.np ∧ (limit = 0 → ((G.secBytes.take j).drop k).flatten = G.secBytes.getD k []) ∧
        (partCall I limit mdsets md (BitVec.ofNat 32 k) idx).loaded = ((G.secBytes.take j).drop k).flatten
  all : L.Created G.np → ∀ s order, order.Perm L.pieces → ∀ {E : Type} (I : LogIdx E) (idx : List (List E)),
    metaupdateDset I (L.dataset s order) idx = I.parseBlock G.secBytes.flatten idx

/-! ## §3 — the loops. -/

/-- The sums of the words before each place, over the part that the loop has reached. -/
theorem prefixSums_eq {mdoffs : Nat → MpiOffset} (hzero : mdoffs 0 = 0) (n j : Nat) :
    prefixSums n mdoffs j = if j ≤ n then ((List.range j).map fun i => mdoffs (i + 1)).sum else mdoffs j := by
  induction n generalizing j with
  | zero =>
    rw [prefixSums, List.range_zero, List.foldl_nil]
    split
    · rename_i hj
      obtain rfl : j = 0 := by omega
      simpa using hzero
    · rfl
  | succ n ih =>
    rw [prefixSums, List.range_succ, List.foldl_append, ← prefixSums, List.foldl_cons, List.foldl_nil]
    by_cases hj : j = n + 1
    · subst hj
      rw [Function.update_self, ih, ih, if_neg (by omega), if_pos le_rfl, if_pos le_rfl, List.range_succ,
        List.map_append, List.sum_append, List.map_singleton, List.sum_singleton, add_comm]
    · rw [Function.update_of_ne hj, ih]
      by_cases hle : j ≤ n
      · rw [if_pos hle, if_pos (by omega)]
      · rw [if_neg hle, if_neg (by omega)]

/-- A loop that stores a word at each of its own places. -/
theorem foldl_update {place : Nat → Nat} (hinj : Function.Injective place) (value : Nat → MpiOffset) (n : Nat)
    (a : Nat → MpiOffset) :
    (∀ i < n, ((List.range n).foldl (fun a i => Function.update a (place i) (value i)) a) (place i) = value i) ∧
      ∀ j, (∀ i < n, place i ≠ j) →
        ((List.range n).foldl (fun a i => Function.update a (place i) (value i)) a) j = a j := by
  induction n with
  | zero =>
    refine ⟨?_, ?_⟩
    · intro i hi
      exact absurd hi (Nat.not_lt_zero i)
    · intro j _
      rfl
  | succ n ih =>
    obtain ⟨hstored, hkept⟩ := ih
    rw [List.range_succ, List.foldl_append, List.foldl_cons, List.foldl_nil]
    refine ⟨?_, ?_⟩
    · intro i hi
      rcases Nat.lt_succ_iff_lt_or_eq.mp hi with hlt | rfl
      · rw [Function.update_of_ne (fun h => hlt.ne (hinj h)), hstored i hlt]
      · rw [Function.update_self]
    · intro j hj
      rw [Function.update_of_ne (fun h => hj n (Nat.lt_succ_self n) h.symm)]
      exact hkept j fun i hi => hj i (hi.trans (Nat.lt_succ_self n))

/-- What `MPI_Scatter` sends to each process: where it begins, and the total size. -/
theorem fillSend_eq (n : Nat) (mdoffs : Nat → MpiOffset) (total : MpiOffset) {rank : Nat} (hrank : rank < n) :
    fillSend n mdoffs total (2 * rank) = mdoffs rank ∧ fillSend n mdoffs total (2 * rank + 1) = total := by
  have heven : Function.Injective fun i : Nat => 2 * i := fun i j h => by
    dsimp only at h
    omega
  have hodd : Function.Injective fun i : Nat => 2 * i + 1 := fun i j h => by
    dsimp only at h
    omega
  have hoffs := foldl_update heven mdoffs n fun _ => 0
  have htotal := fun a => foldl_update hodd (fun _ => total) n a
  refine ⟨?_, ?_⟩
  · rw [fillSend, (htotal _).2 (2 * rank) (fun i _ => by omega)]
    exact hoffs.1 rank hrank
  · exact (htotal _).1 rank hrank

/-! ## §4 — what the computation comes to. -/

theorem signExtend_ofNat {n : Nat} (h : n < 2 ^ 31) :
    (BitVec.ofNat 32 n).signExtend 64 = BitVec.ofNat 64 n := by
  apply BitVec.eq_of_toInt_eq
  rw [BitVec.toInt_signExtend_of_le (by decide), toInt_ofNat_of_lt h, BitVec.toInt_ofNat']
  exact (Int.bmod_eq_of_le_mul_two (by omega) (by omega)).symm

theorem sum_bufs {bufs : List (List UInt8)} (h : ∀ buf ∈ bufs, buf.length < 2 ^ 31) :
    (bufs.map fun buf => (BitVec.ofNat 32 buf.length).signExtend 64).sum = BitVec.ofNat 64 bufs.flatten.length := by
  induction bufs with
  | nil => rfl
  | cons buf bufs ih =>
    rw [List.map_cons, List.sum_cons, signExtend_ofNat (h buf (List.mem_cons_self ..)),
      ih fun b hb => h b (List.mem_cons_of_mem buf hb), List.flatten_cons, List.length_append, BitVec.ofNat_add]

@[simp] theorem secBytes_length : G.secBytes.length = G.np := List.length_map _

theorem secBytes_getD (rank : Nat) : G.secBytes.getD rank [] = (G.procs.getD rank []).flatten := by
  rw [secBytes, ← List.flatten_nil, List.getD_map]

theorem flatten_secBytes : G.secBytes.flatten = G.procs.flatten.flatten := List.flatten_flatten.symm

theorem sections_size_lt : (metadataDataset (G.secBytes.map bufMeta)).length < 2 ^ 63 := by
  have hsize := G.size_lt
  rw [metadataDataset_bufMeta, List.length_append, mapBytes_length, secBytes_length, flatten_secBytes]
  exact hsize

theorem sections_nsec_lt : G.secBytes.length < 2 ^ 31 := by
  rw [secBytes_length]
  exact G.np_lt

/-- The metadata dataset the group means to write. -/
def sections : SectionDset := ⟨G.secBytes, G.sections_nsec_lt, G.sections_size_lt⟩

@[simp] theorem sections_nsec : G.sections.nsec = G.np := G.secBytes_length

variable {G} (hfit : sizeofOffset * (G.np + 1) < 2 ^ 31) (hcount : ∀ rank < G.np, G.nentry rank < 2 ^ 31)

include hfit

theorem mapLen_toNat : G.mapLen.toNat = sizeofOffset * (G.np + 1) := by
  rw [mapLen, BitVec.toNat_ofNat, Nat.mod_eq_of_lt (by omega)]

theorem localSize_eq (rank : Nat) : G.localSize rank =
    BitVec.ofNat 64 ((if rank = 0 then sizeofOffset * (G.np + 1) else 0) + (G.secBytes.getD rank []).length) := by
  have hbufs : ∀ buf ∈ G.procs.getD rank [], buf.length < 2 ^ 31 := by
    intro buf hbuf
    by_cases hrank : rank < G.procs.length
    · rw [List.getD_eq_getElem _ _ hrank] at hbuf
      exact G.buf_lt _ (List.getElem_mem hrank) buf hbuf
    · rw [List.getD_eq_default _ _ (by omega)] at hbuf
      cases hbuf
  rw [localSize, sum_bufs hbufs, ← secBytes_getD, BitVec.ofNat_add]
  by_cases hrank : rank = 0
  · rw [if_pos hrank, if_pos hrank, mapLen, signExtend_ofNat hfit]
  · rw [if_neg hrank, if_neg hrank]
    rfl

/-- Where a process begins; behind the last one is the end of the dataset. -/
def pieceStart (G : GroupMeta) (rank : Nat) : Nat := if rank = 0 then 0 else G.sections.secStart rank

omit hfit in
/-- Each process begins where the one before it ends. -/
theorem pieceStart_succ {rank : Nat} (hrank : rank < G.np) : G.pieceStart (rank + 1) =
    G.pieceStart rank + ((if rank = 0 then sizeofOffset * (G.np + 1) else 0) + (G.secBytes.getD rank []).length) := by
  have hsucc : G.sections.secStart (rank + 1) = G.sections.secStart rank + (G.secBytes.getD rank []).length :=
    G.sections.secStart_succ (by rwa [sections_nsec])
  rw [pieceStart, if_neg (Nat.succ_ne_zero rank), hsucc, pieceStart]
  by_cases hzero : rank = 0
  · subst hzero
    rw [if_pos rfl, if_pos rfl, SectionDset.secStart_zero, sections_nsec, Nat.zero_add]
  · rw [if_neg hzero, if_neg hzero, Nat.zero_add]

/-- The offsets after the loop. -/
theorem mdoffs_eq {j : Nat} (hj : j ≤ G.np) :
    prefixSums G.np G.gathered j = BitVec.ofNat 64 (G.pieceStart j) := by
  rw [prefixSums_eq rfl, if_pos hj]
  induction j with
  | zero => rfl
  | succ j ih =>
    rw [List.range_succ, List.map_append, List.sum_append, ih (by omega), List.map_singleton, List.sum_singleton,
      gathered, localSize_eq hfit, ← BitVec.ofNat_add, pieceStart_succ (by omega)]

/-- The array that is stored is the decomposition map. -/
theorem stored_eq : (List.range (G.np + 1)).map (Function.update (prefixSums G.np G.gathered) 0
      (BitVec.ofNat 64 (G.mapLen.toNat / sizeofOffset) - 1)) =
    decompMap ((G.secBytes.map bufMeta).map LocalMeta.mdsize) := by
  apply List.ext_getElem?
  intro i
  rcases i with _ | k
  · have hfirst : BitVec.ofNat 64 (G.mapLen.toNat / sizeofOffset) - 1 = (BitVec.ofNat 64 G.np : MpiOffset) := by
      rw [mapLen_toNat hfit, Nat.mul_div_cancel_left _ (by decide), BitVec.ofNat_add]
      exact add_sub_cancel_right _ _
    rw [List.getElem?_map, List.getElem?_range (Nat.succ_pos _), Option.map_some, Function.update_self, hfirst]
    simp [decompMap]
  · by_cases hk : k < G.np
    · have hword := G.sections.decompMap_succ (show k < G.sections.nsec by rwa [sections_nsec])
      rw [List.getElem?_map, List.getElem?_range (by omega), Option.map_some,
        Function.update_of_ne (Nat.succ_ne_zero k), mdoffs_eq hfit hk, pieceStart, if_neg (Nat.succ_ne_zero k)]
      exact hword.symm
    · rw [List.getElem?_eq_none (by simpa using hk), List.getElem?_eq_none]
      rw [decompMap_length, List.length_map, List.length_map, secBytes_length]
      omega

/-! ## §5 — the sections in their places. -/

omit hfit in
/-- Ranges that begin where the one before them ends are a layout. -/
theorem map_range_layout {off len : Nat → Nat} (n : Nat) (h : ∀ i < n, off (i + 1) = off i + len i) :
    (List.range n).map (fun i => (off i, len i)) = Lib.layout (off 0) ((List.range n).map len) ∧
      off 0 + ((List.range n).map len).sum = off n := by
  induction n with
  | zero => exact ⟨rfl, rfl⟩
  | succ n ih =>
    obtain ⟨hlayout, hsum⟩ := ih fun i hi => h i (hi.trans (Nat.lt_succ_self n))
    rw [List.range_succ, List.map_append, List.map_append, Lib.layout_append, ← hlayout, hsum, List.sum_append,
      ← Nat.add_assoc, hsum, h n (Nat.lt_succ_self n)]
    exact ⟨rfl, by simp⟩

/-- The decomposition map, as bytes. -/
def mapBytes (G : GroupMeta) : List UInt8 :=
  putWords sizeofOffset (decompMap ((G.secBytes.map bufMeta).map LocalMeta.mdsize))

omit hfit in
theorem length_mapBytes : G.mapBytes.length = sizeofOffset * (G.np + 1) := by
  rw [mapBytes, mapBytes_length, secBytes_length]

/-- What the group writes. -/
def goodLayout (G : GroupMeta) : FlushLayout where
  dsize := BitVec.ofNat 64 (G.pieceStart G.np)
  pieces := (List.range G.np).map fun rank =>
    (G.pieceStart rank, (if rank = 0 then G.mapBytes else []) ++ G.secBytes.getD rank [])

omit hfit in
theorem pieceStart_lt {rank : Nat} (hrank : rank ≤ G.np) : G.pieceStart rank < 2 ^ 63 := by
  unfold pieceStart
  split
  · exact Nat.two_pow_pos 63
  · exact G.sections.secStart_lt (by rwa [sections_nsec])

omit hfit in
theorem pieceStart_toNat {rank : Nat} (hrank : rank ≤ G.np) :
    (BitVec.ofNat 64 (G.pieceStart rank)).toNat = G.pieceStart rank := by
  have hlt := pieceStart_lt hrank
  rw [BitVec.toNat_ofNat, Nat.mod_eq_of_lt (by omega)]

include hcount in
theorem metaflushLayout_eq (passthru : Bool) : G.metaflushLayout passthru = .ok G.goodLayout := by
  have hnp : G.np * 2 < 2 ^ 31 := by
    rw [sizeofOffset] at hfit
    omega
  have hlen : ¬ G.mapLen.toInt < 0 := by
    rw [mapLen, toInt_ofNat_of_lt hfit]
    omega
  have hmap : (putWords sizeofOffset ((List.range (G.np + 1)).map (Function.update (prefixSums G.np G.gathered) 0
      (BitVec.ofNat 64 (G.mapLen.toNat / sizeofOffset) - 1)))).take G.mapLen.toNat = G.mapBytes := by
    rw [stored_eq hfit, ← mapBytes, mapLen_toNat hfit, ← length_mapBytes, List.take_length]
  have hsize := (fillSend_eq G.np (prefixSums G.np G.gathered) (prefixSums G.np G.gathered G.np) G.np_pos).2
  rw [Nat.mul_zero, Nat.zero_add, mdoffs_eq hfit le_rfl] at hsize
  have hpieces : ∀ rank < G.np, (fillSend G.np (prefixSums G.np G.gathered) (prefixSums G.np G.gathered G.np)
      (2 * rank)).toNat = G.pieceStart rank := by
    intro rank hrank
    rw [(fillSend_eq _ _ _ hrank).1, mdoffs_eq hfit hrank.le, pieceStart_toNat hrank.le]
  have hentries : ¬ ∃ rank < G.np, 2 ^ 31 ≤ G.nentry rank := by
    rintro ⟨rank, hrank, hle⟩
    exact absurd (hcount rank hrank) (not_lt.mpr hle)
  unfold metaflushLayout
  rw [if_neg hentries, if_neg (by omega), if_neg hlen]
  dsimp only
  rw [hmap, mdoffs_eq hfit le_rfl, hsize, goodLayout]
  congr 2
  apply List.map_congr_left
  intro rank hrank
  rw [← hpieces rank (List.mem_range.mp hrank), mdoffs_eq hfit le_rfl]

omit hfit in
theorem goodLayout_placed : G.goodLayout.pieces.map Lib.writeRange =
      Lib.layout 0 (G.goodLayout.pieces.map fun p => p.2.length) ∧
    (G.goodLayout.pieces.map fun p => p.2.length).sum = G.pieceStart G.np := by
  have hstep : ∀ rank < G.np, G.pieceStart (rank + 1) = G.pieceStart rank +
      ((if rank = 0 then G.mapBytes else []) ++ G.secBytes.getD rank []).length := by
    intro rank hrank
    rw [pieceStart_succ hrank, List.length_append]
    by_cases hzero : rank = 0
    · rw [if_pos hzero, if_pos hzero, length_mapBytes]
    · rw [if_neg hzero, if_neg hzero, List.length_nil]
  obtain ⟨hlayout, hsum⟩ := map_range_layout G.np hstep
  have hstart : G.pieceStart 0 = 0 := if_pos rfl
  rw [hstart] at hlayout hsum
  rw [goodLayout, List.map_map, List.map_map]
  refine ⟨hlayout, ?_⟩
  rw [← hsum, Nat.zero_add]
  rfl

omit hfit in
theorem goodLayout_bytes :
    G.goodLayout.pieces.map Prod.snd = (G.mapBytes ++ G.secBytes.headD []) :: G.secBytes.tail := by
  have hlen := G.secBytes_length
  have hpos := G.np_pos
  rw [goodLayout, List.map_map]
  rcases hsecs : G.secBytes with _ | ⟨b, bs⟩
  · rw [hsecs] at hlen
    rw [← np, ← hlen] at hpos
    exact absurd hpos (Nat.lt_irrefl 0)
  · rw [hsecs, List.length_cons] at hlen
    rw [← hlen, List.range_succ_eq_map, List.map_cons, List.map_map]
    congr 1
    show (List.range bs.length).map (fun i => (b :: bs).getD (i + 1) []) = bs
    apply List.ext_getElem
    · simp
    · intro i hi hi'
      simp [List.getElem?_eq_getElem hi']

omit hfit in
/-- **The dataset is the map and the sections**, whoever writes first. -/
theorem goodLayout_dataset (s : Store) {order : List (Nat × List UInt8)} (horder : order.Perm G.goodLayout.pieces) :
    G.goodLayout.dataset s order = G.sections.content := by
  obtain ⟨hplaced, hsum⟩ := @goodLayout_placed G
  have hdisj : G.goodLayout.pieces.Pairwise fun w w' => Lib.RangesDisjoint (Lib.writeRange w) (Lib.writeRange w') := by
    rw [← List.pairwise_map, hplaced]
    exact Lib.layout_pairwise _ _
  have hzip : G.goodLayout.pieces = ((Lib.layout 0 ((G.goodLayout.pieces.map Prod.snd).map List.length)).map
      Prod.fst).zip (G.goodLayout.pieces.map Prod.snd) := by
    refine List.zip_of_prod ?_ rfl
    rw [List.map_map]
    show _ = (Lib.layout 0 (G.goodLayout.pieces.map fun p => p.2.length)).map Prod.fst
    rw [← hplaced, List.map_map]
    rfl
  have hflat : (G.goodLayout.pieces.map Prod.snd).flatten = G.sections.content := by
    rw [goodLayout_bytes, List.flatten_cons, List.append_assoc, SectionDset.content_eq]
    congr 1
    show G.secBytes.headD [] ++ G.secBytes.tail.flatten = G.secBytes.flatten
    rcases G.secBytes with _ | ⟨b, bs⟩ <;> simp
  have hlen : G.goodLayout.dsize.toNat = (G.goodLayout.pieces.map Prod.snd).flatten.length := by
    rw [goodLayout, pieceStart_toNat le_rfl, ← hsum, List.length_flatten, List.map_map]
    rfl
  have horder' : order.Pairwise fun w w' => Lib.RangesDisjoint (Lib.writeRange w) (Lib.writeRange w') :=
    (horder.pairwise_iff fun h => h.symm).mpr hdisj
  have hwrite : s.writeAll order = s.write 0 G.sections.content := by
    rw [Store.writeAll_perm horder horder', hzip, Store.writeAll_layout, hflat]
  rw [FlushLayout.dataset, hwrite, hlen, hflat, Store.read_write_self]

/-! ## §6 — the round trip. -/

omit hfit in
/-- A run of sections which is empty holds what its first one holds. -/
theorem run_eq_of_le_zero {j k : Nat} (hlo : k < j) (hhi : j ≤ G.np)
    (hsize : j = k + 1 ∨ G.sections.secStart j - G.sections.secStart k ≤ 0) :
    ((G.secBytes.take j).drop k).flatten = G.secBytes.getD k [] := by
  rcases hsize with rfl | hsize
  · exact G.sections.getElem_sections (by rwa [sections_nsec])
  · have hrun := G.sections.secStart_add hlo.le
    have hsec := G.sections.section_le_run hlo (by rwa [sections_nsec])
    have hnil : ((G.sections.bufs.take j).drop k).flatten = [] := List.length_eq_zero_iff.mp (by omega)
    rw [hnil, List.length_nil, Nat.le_zero] at hsec
    exact hnil.trans (List.length_eq_zero_iff.mp hsec).symm

include hcount in
/-- **The sections are found again**, when the size of the map is an `int`, and so is the number of entries. -/
theorem goodLayout_roundTrip (passthru : Bool) : G.MapRoundTrip passthru G.goodLayout where
  layout := metaflushLayout_eq hfit hcount passthru
  placed := goodLayout_placed.1
  inside := by
    rw [goodLayout_placed.2, goodLayout, pieceStart_toNat le_rfl]
  bytes := ⟨G.mapBytes, length_mapBytes, goodLayout_bytes⟩
  skipped := by
    intro hskip
    have hend : G.pieceStart G.np = sizeofOffset * (G.np + 1) + G.secBytes.flatten.length := by
      have hlen := G.sections.content_length
      rw [pieceStart, if_neg (show G.np ≠ 0 from G.np_pos.ne'), ← sections_nsec, ← hlen, SectionDset.content_eq,
        List.length_append, SectionDset.map_length]
      rfl
    rw [FlushLayout.Created, goodLayout, pieceStart_toNat le_rfl, hend] at hskip
    exact List.length_eq_zero_iff.mp (by omega)
  part := by
    intro _ s order horder E I md mdsets hget k hk idx limit
    rw [goodLayout_dataset s horder] at hget
    obtain ⟨j, hlo, hhi, hsize, hcall⟩ := G.sections.partCall_eq I hget (by rwa [sections_nsec]) idx limit
    rw [sections_nsec] at hhi
    refine ⟨j, hlo, hhi, ?_, ?_⟩
    · rintro rfl
      exact run_eq_of_le_zero hlo hhi hsize
    · rw [hcall]
      rfl
  all := by
    intro _ s order horder E I idx
    rw [goodLayout_dataset s horder]
    exact G.sections.metaupdateDset_eq I idx

omit hfit in
/-- **`mapRoundTrip_iff`** — with any sizes of entries on each process: the sections are in their places and are
found again exactly when the size of the map is an `int`, and so is the number of entries of each process. -/
theorem mapRoundTrip_iff (G : GroupMeta) (passthru : Bool) : (∃ L, G.MapRoundTrip passthru L) ↔
    sizeofOffset * (G.np + 1) < 2 ^ 31 ∧ ∀ rank < G.np, G.nentry rank < 2 ^ 31 := by
  constructor
  · rintro ⟨L, h⟩
    have hcount : ∀ rank < G.np, G.nentry rank < 2 ^ 31 := by
      intro rank hrank
      by_contra hmany
      have hlayout := h.layout
      rw [metaflushLayout, if_pos ⟨rank, hrank, not_lt.mp hmany⟩] at hlayout
      cases hlayout
    refine ⟨?_, hcount⟩
    by_contra hlarge
    obtain ⟨map, hmap, hbytes⟩ := h.bytes
    have hlayout := h.layout
    have hentries : ¬ ∃ rank < G.np, 2 ^ 31 ≤ G.nentry rank := by
      rintro ⟨rank, hrank, hle⟩
      exact absurd (hcount rank hrank) (not_lt.mpr hle)
    unfold metaflushLayout at hlayout
    rw [if_neg hentries] at hlayout
    split at hlayout
    · cases hlayout
    · split at hlayout
      · cases hlayout
      · -- the map is cut to the length that was stored
        rename_i hlen
        obtain rfl := Except.ok.inj hlayout
        have hshort : G.mapLen.toNat < 2 ^ 31 := by
          rw [BitVec.toInt_eq_toNat_cond] at hlen
          split at hlen <;> omega
        obtain ⟨n, hn⟩ : ∃ n, G.np = n + 1 := Nat.exists_eq_add_one.mpr G.np_pos
        have hfirst : ∀ words : List UInt8, words.take G.mapLen.toNat ++ G.secBytes.getD 0 [] =
            map ++ G.secBytes.headD [] → False := by
          intro words heq
          have hlen := congrArg List.length heq
          have hgetD : G.secBytes.getD 0 [] = G.secBytes.headD [] := by
            rcases G.secBytes with _ | ⟨b, bs⟩ <;> rfl
          rw [List.length_append, List.length_append, List.length_take, hgetD] at hlen
          omega
        dsimp only at hbytes
        generalize putWords sizeofOffset _ = words at hbytes
        rw [List.map_map, hn, List.range_succ_eq_map, List.map_cons] at hbytes
        exact hfirst words (List.cons.inj hbytes).1
  · rintro ⟨hfit, hcount⟩
    exact ⟨G.goodLayout, goodLayout_roundTrip hfit hcount passthru⟩

end GroupMeta

/-- Two processes, the first with two entries. -/
def twoProcs : GroupMeta where
  procs := [[[1, 2], [3]], [[4]]]
  np_pos := by decide
  np_lt := by decide
  buf_lt := by decide
  size_lt := by decide

theorem twoProcs_roundTrip : ∃ L, twoProcs.MapRoundTrip false L :=
  (twoProcs.mapRoundTrip_iff false).mpr ⟨by decide, by decide⟩

theorem manyProcs_flatten :
    (List.replicate 268435455 [[(0 : UInt8)]]).flatten.flatten.length = 268435455 := by
  rw [List.flatten_replicate_singleton, List.flatten_replicate_singleton, List.length_replicate]

theorem manyProcs_buf : ∀ bufs ∈ List.replicate 268435455 [[(0 : UInt8)]], ∀ buf ∈ bufs, buf.length < 2 ^ 31 := by
  intro bufs hbufs buf hbuf
  obtain rfl := List.eq_of_mem_replicate hbufs
  obtain rfl := List.mem_singleton.mp hbuf
  decide

theorem manyProcs_pos : 0 < (List.replicate 268435455 [[(0 : UInt8)]]).length := by
  rw [List.length_replicate]
  decide

theorem manyProcs_lt : (List.replicate 268435455 [[(0 : UInt8)]]).length < 2 ^ 31 := by
  rw [List.length_replicate]
  decide

theorem manyProcs_size : sizeofOffset * ((List.replicate 268435455 [[(0 : UInt8)]]).length + 1) +
    (List.replicate 268435455 [[(0 : UInt8)]]).flatten.flatten.length < 2 ^ 63 := by
  rw [manyProcs_flatten, List.length_replicate]
  decide

/-- `2 ^ 28 - 1` processes with one byte each. -/
def manyProcs : GroupMeta where
  procs := List.replicate 268435455 [[0]]
  np_pos := manyProcs_pos
  np_lt := manyProcs_lt
  buf_lt := manyProcs_buf
  size_lt := manyProcs_size

/-- The size of the map is `2 ^ 31`, and the word that is stored is negative. -/
theorem manyProcs_refused : manyProcs.mapLen = 0x80000000 ∧
    manyProcs.metaflushLayout false = .error (.raised "MPI_ERR_ARG") ∧ ¬ ∃ L, manyProcs.MapRoundTrip false L := by
  have hnp : manyProcs.np = 268435455 := List.length_replicate
  have hlen : manyProcs.mapLen = 0x80000000 := by
    rw [GroupMeta.mapLen, hnp]
    decide
  have hentries : ¬ ∃ rank < manyProcs.np, 2 ^ 31 ≤ manyProcs.nentry rank := by
    rintro ⟨rank, hrank, hle⟩
    have hbufs : manyProcs.procs.getD rank [] = [[0]] := by
      rw [List.getD_eq_getElem _ _ hrank]
      exact List.getElem_replicate ..
    rw [GroupMeta.nentry, hbufs, List.length_singleton] at hle
    split at hle <;> omega
  have hrefused : manyProcs.metaflushLayout false = .error (.raised "MPI_ERR_ARG") := by
    unfold GroupMeta.metaflushLayout
    rw [if_neg hentries, hnp, hlen, if_neg (by decide), if_pos (by decide)]
    rfl
  refine ⟨hlen, hrefused, ?_⟩
  rintro ⟨L, h⟩
  have hlayout := h.layout
  rw [hrefused] at hlayout
  cases hlayout

end LogVol
