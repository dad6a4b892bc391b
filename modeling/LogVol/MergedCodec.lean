/-
# LogVol.MergedCodec — merged requests, and exactly which of them are read back.

A merged request packs each appended selection by itself, all its starts and then all its counts,
while the decoder reads the starts of the whole entry before its counts. `mergedOf_inv` says what a
sequence of appends leaves in the buffer as long as the entry fits its size field, `readSels_merged_iff`
what the decoder takes for a layout of given blocks, and `mergedDecodes_iff` puts the two together.
-/
import LogVol.OffsetCodec

namespace LogVol

open Lib (Reader Reads Accepts putWord putWords takeMany bind_eq_ok run_bind_eq_ok
  run_pureExcept_eq_ok)

/-! ## §1 — what a sequence of appends packs. -/

/-- A sequence of writes: the data and the selection of each. -/
abbrev Writes := List (DataBlock × Selections)

/-- The blocks of a sequence of writes, in order. -/
def writtenBlocks (writes : Writes) : List Block := writes.flatMap fun w => w.2.sels

/-- The coordinates of a list of blocks: all starts, then all counts. -/
def coordWords (bs : List Block) : List HSize := bs.flatMap Block.start ++ bs.flatMap Block.count

/-- What the writes pack: the coordinates of each selection, one selection after another. -/
def packedWords (writes : Writes) : List HSize := writes.flatMap fun w => coordWords w.2.sels

/-- The size of an entry with `n` blocks in coordinates. -/
def mergedSize (dip : DsetInfo) (n : Nat) : Nat :=
  sizeofHdr + sizeofInt + sizeofOffset * (dip.ndim * n * 2)

/-- The flags of a merged entry. -/
def mergedFlag (config : I32) (dip : DsetInfo) : I32 :=
  orIf (hasFlag config FileConfig.selDeflate) MetaFlag.selDeflate <|
    orIf (decide (1 < dip.ndim) && hasFlag config FileConfig.selEncode) MetaFlag.selEncode
      MetaFlag.mulSel

theorem mergedFlag_bits (config : I32) (dip : DsetInfo) :
    hasFlag (mergedFlag config dip) MetaFlag.mulSel = true ∧
    hasFlag (mergedFlag config dip) MetaFlag.record = false ∧
    hasFlag (mergedFlag config dip) MetaFlag.selEncode =
      (decide (1 < dip.ndim) && hasFlag config FileConfig.selEncode) ∧
    hasFlag (mergedFlag config dip) MetaFlag.selDeflate = hasFlag config FileConfig.selDeflate := by
  simp [mergedFlag, hasFlag_orIf]

/-- The bit that `init` and `append` test to pack steps and offsets is none of the bits `init` sets. -/
theorem mergedFlag_selEncode (config : I32) (dip : DsetInfo) :
    hasFlag (mergedFlag config dip) FileConfig.selEncode = false := by
  have hbits : hasFlag MetaFlag.mulSel FileConfig.selEncode = false ∧
      hasFlag MetaFlag.selEncode FileConfig.selEncode = false ∧
      hasFlag MetaFlag.selDeflate FileConfig.selEncode = false := by decide
  simp [mergedFlag, hasFlag_orIf, hbits]

theorem encode_coords (s : Selections) : s.encode none 0 = putWords sizeofOffset (coordWords s.sels) := by
  rw [coordWords, Lib.putWords_append]
  simp only [Selections.encode, List.drop_zero, putWords, List.flatMap_assoc]

theorem coordWords_length {ndim : Nat} {bs : List Block}
    (hbs : ∀ b ∈ bs, b.start.length = ndim ∧ b.count.length = ndim) :
    (coordWords bs).length = ndim * bs.length * 2 := by
  rw [coordWords, List.length_append, flatMap_length_const fun b hb => (hbs b hb).1,
    flatMap_length_const fun b hb => (hbs b hb).2]
  ring

/-- The allocation is shifted until it holds `target` bytes, if `fuel` shifts are enough. -/
theorem growAlloc_ok {target : HSize} (htarget : target.toNat < 2 ^ 32) :
    ∀ (fuel : Nat) (alloc : HSize), 0 < alloc.toNat → target.toNat ≤ alloc.toNat * 8 ^ fuel →
      ∃ alloc', growAlloc target fuel alloc = .ok alloc' ∧ target.toNat ≤ alloc'.toNat
  | 0, alloc, _, hle => by
      have hge : ¬ alloc < target := by
        rw [BitVec.lt_def]
        omega
      exact ⟨alloc, by rw [growAlloc, if_neg hge], by omega⟩
  | fuel + 1, alloc, hpos, hle => by
      rw [growAlloc]
      by_cases hlt : alloc < target
      · rw [BitVec.lt_def] at hlt
        have hshift : (alloc <<< mergedReqSelMul).toNat = alloc.toNat * 8 := by
          rw [BitVec.toNat_shiftLeft, Nat.shiftLeft_eq, mergedReqSelMul]
          exact Nat.mod_eq_of_lt (by omega)
        rw [if_pos (BitVec.lt_def.mpr hlt)]
        refine growAlloc_ok htarget fuel (alloc <<< mergedReqSelMul) (by omega) ?_
        rw [hshift]
        calc target.toNat ≤ alloc.toNat * 8 ^ (fuel + 1) := hle
          _ = alloc.toNat * 8 * 8 ^ fuel := by ring
      · rw [if_neg hlt]
        rw [BitVec.lt_def] at hlt
        exact ⟨alloc, rfl, by omega⟩

/-- **`MergedInv`** — the state of a merged request after a sequence of appends whose entry fits. -/
structure MergedInv (config id : I32) (dip : DsetInfo) (writes : Writes) (m : MergedWReq) : Prop where
  hdr : m.hdr = ⟨BitVec.ofNat 32 (mergedSize dip (writtenBlocks writes).length), id,
    mergedFlag config dip, 0, (writes.map fun w => w.1.size).sum⟩
  nsel : m.nsel = BitVec.ofNat 32 (writtenBlocks writes).length
  packed : m.packed = putWords sizeofOffset (packedWords writes)
  mbufp : m.mbufp = mergedSize dip (writtenBlocks writes).length
  alloc : 0 < m.alloc.toNat

theorem mergedInit_inv (config id : I32) (dip : DsetInfo) :
    MergedInv config id dip [] (mergedInit config id dip 1) := by
  have hsteps : hasFlag (mergedInit config id dip 1).hdr.flag FileConfig.selEncode = false :=
    mergedFlag_selEncode config dip
  have hpacked : (mergedInit config id dip 1).packed = [] := by
    show (if hasFlag (mergedInit config id dip 1).hdr.flag FileConfig.selEncode then _ else _) = _
    rw [hsteps]
    rfl
  have hmbufp : (mergedInit config id dip 1).mbufp = mergedSize dip 0 := by
    show ((sizeofHdr + sizeofInt + (mergedInit config id dip 1).packed.length : Nat) : Int) = _
    rw [hpacked, mergedSize, mul_zero, zero_mul, mul_zero]
    rfl
  refine ⟨?_, rfl, hpacked, hmbufp, ?_⟩
  · have hsize : (mergedInit config id dip 1).hdr.metaSize = BitVec.ofNat 32 (mergedSize dip 0) := by
      show BitVec.ofNat 32 (sizeofHdr + sizeofInt + (mergedInit config id dip 1).packed.length) = _
      rw [hpacked, mergedSize, mul_zero, zero_mul, mul_zero]
      rfl
    show (⟨(mergedInit config id dip 1).hdr.metaSize, id, mergedFlag config dip, 0, 0⟩ : MetaHdr) = _
    rw [hsize]
    rfl
  · have hndim : dip.ndim ≤ 32 := dip.rank_le
    show 0 < (BitVec.ofNat 64 (28 + 4 + 8 *
      (if decide (1 < dip.ndim) && hasFlag config FileConfig.selEncode then 2 * 32 + dip.ndim
        else dip.ndim * 2 * 32))).toNat
    rw [BitVec.toNat_ofNat]
    split <;> omega

theorem mergedSize_add (dip : DsetInfo) (n k : Nat) :
    mergedSize dip (n + k) = mergedSize dip n + sizeofOffset * (dip.ndim * k * 2) := by
  simp only [mergedSize]
  ring

theorem writtenBlocks_concat (writes : Writes) (w : DataBlock × Selections) :
    writtenBlocks (writes ++ [w]) = writtenBlocks writes ++ w.2.sels := by
  rw [writtenBlocks, List.flatMap_append, List.flatMap_singleton, writtenBlocks]

theorem packedWords_concat (writes : Writes) (w : DataBlock × Selections) :
    packedWords (writes ++ [w]) = packedWords writes ++ coordWords w.2.sels := by
  rw [packedWords, List.flatMap_append, List.flatMap_singleton, packedWords]

/-- The bytes `append` makes room for are the coordinates of the selection, if there are not so many
that the `int` in the product wraps. -/
theorem append_msize (dip : DsetInfo) (sels : Selections)
    (hfits : sizeofOffset * (dip.ndim * sels.nsel * 2) < 2 ^ 31) :
    BitVec.ofInt 64 (cInt (sels.nsel * 2)) * BitVec.ofNat 64 sizeofOffset * BitVec.ofNat 64 dip.ndim =
      BitVec.ofNat 64 (sizeofOffset * (dip.ndim * sels.nsel * 2)) := by
  rcases Nat.eq_zero_or_pos dip.ndim with h0 | hpos
  · rw [h0]
    simp
  · have hle : sels.nsel ≤ dip.ndim * sels.nsel := Nat.le_mul_of_pos_left _ hpos
    have h8 : sizeofOffset * (dip.ndim * sels.nsel * 2) = 8 * (dip.ndim * sels.nsel * 2) := rfl
    have hint : cInt (sels.nsel * 2) = (sels.nsel * 2 : Nat) := by
      rw [cInt_of_range (by omega) (by omega)]
      push_cast
      rfl
    rw [hint, BitVec.ofInt_natCast, ← BitVec.ofNat_mul, ← BitVec.ofNat_mul]
    exact congrArg (BitVec.ofNat 64) (by ring)

/-- Making room for `k` more bytes changes only the allocation. -/
theorem reserve_ok {m : MergedWReq} {size k : Nat} (hmbufp : m.mbufp = size)
    (hmeta : m.hdr.metaSize.toInt = size) (hfits : size + k < 2 ^ 31) (halloc : 0 < m.alloc.toNat) :
    ∃ alloc, m.reserve (BitVec.ofNat 64 k) = .ok { m with alloc := alloc } ∧
      size + k ≤ alloc.toNat ∧ 0 < alloc.toNat := by
  have hktoNat : (BitVec.ofNat 64 k).toNat = k := by
    rw [BitVec.toNat_ofNat]
    exact Nat.mod_eq_of_lt (by omega)
  have htarget : (BitVec.ofInt 64 m.hdr.metaSize.toInt + BitVec.ofNat 64 k).toNat = size + k := by
    rw [hmeta, BitVec.ofInt_natCast, ← BitVec.ofNat_add, BitVec.toNat_ofNat]
    exact Nat.mod_eq_of_lt (by omega)
  rw [MergedWReq.reserve, hktoNat]
  by_cases hgt : m.mbufp + k > m.alloc.toNat
  · obtain ⟨alloc, hgrow, hge⟩ := growAlloc_ok (by rw [htarget]; omega) 22 m.alloc halloc
      (by rw [htarget]; omega)
    rw [htarget] at hge
    refine ⟨alloc, ?_, hge, by omega⟩
    rw [if_pos hgt, hgrow, hmeta, ← hmbufp]
    rfl
  · exact ⟨m.alloc, by rw [if_neg hgt]; rfl, by omega, halloc⟩

/-- **One append** keeps the state, as long as the entry still fits. -/
theorem append_inv {config id : I32} {dip : DsetInfo} {writes : Writes} {m : MergedWReq}
    (h : MergedInv config id dip writes m) {w : DataBlock × Selections}
    (hrank : w.2.ndim = dip.ndim)
    (hlen : (packedWords writes).length = dip.ndim * (writtenBlocks writes).length * 2)
    (hfits : mergedSize dip (writtenBlocks (writes ++ [w])).length < 2 ^ 31) :
    ∃ m', m.append dip w.1 w.2 = .ok m' ∧ MergedInv config id dip (writes ++ [w]) m' := by
  obtain ⟨db, sels⟩ := w
  set n := (writtenBlocks writes).length with hn
  set k := sizeofOffset * (dip.ndim * sels.nsel * 2) with hk
  have hcount : (writtenBlocks (writes ++ [(db, sels)])).length = n + sels.nsel := by
    rw [writtenBlocks_concat, List.length_append]
    rfl
  have hsize : mergedSize dip (n + sels.nsel) = mergedSize dip n + k := mergedSize_add dip n _
  rw [hcount, hsize] at hfits
  have hflag : hasFlag m.hdr.flag FileConfig.selEncode = false := by
    rw [h.hdr]
    exact mergedFlag_selEncode config dip
  have hmsize : m.msize dip sels = BitVec.ofNat 64 k := by
    rw [MergedWReq.msize, hflag]
    exact append_msize dip sels (by omega)
  have hktoNat : (BitVec.ofNat 64 k).toNat = k := by
    rw [BitVec.toNat_ofNat]
    exact Nat.mod_eq_of_lt (by omega)
  have hmeta : m.hdr.metaSize.toInt = mergedSize dip n := by
    rw [h.hdr]
    exact toInt_ofNat_of_lt (n := mergedSize dip n) (by omega)
  have hmbufp₀ : m.mbufp = mergedSize dip n := h.mbufp
  obtain ⟨alloc, hreserve, hroom, hpos⟩ := reserve_ok (m := m) (k := k) hmbufp₀ hmeta hfits h.alloc
  -- the selection goes right after what is already packed
  have hbytes : (putWords sizeofOffset (coordWords sels.sels)).length = k := by
    have hrank' : sels.ndim = dip.ndim := hrank
    rw [Lib.putWords_length, coordWords_length sels.rank_eq, hrank']
    rfl
  have hpackedLen : (m.packed.length : Int) = m.mbufp - (sizeofHdr + sizeofInt) := by
    rw [h.packed, hmbufp₀, Lib.putWords_length, hlen, mergedSize]
    push_cast
    ring
  have hwrite : ({ m with alloc := alloc } : MergedWReq).write (putWords sizeofOffset (coordWords sels.sels)) =
      .ok (m.packed ++ putWords sizeofOffset (coordWords sels.sels)) := by
    have hoff : (m.mbufp - (sizeofHdr + sizeofInt : Int)).toNat = m.packed.length := by
      rw [← hpackedLen]
      rfl
    have hinside : ¬ (m.mbufp - (sizeofHdr + sizeofInt : Int) < 0 ∨
        m.mbufp + (putWords sizeofOffset (coordWords sels.sels)).length > alloc.toNat) := by
      rw [← hpackedLen, hmbufp₀, hbytes]
      omega
    rw [MergedWReq.write]
    show (if _ then _ else _) = _
    rw [if_neg hinside, hoff, List.take_length,
      List.drop_eq_nil_of_le (Nat.le_add_right _ _), List.append_nil]
  have hmbufp : m.mbufp + (BitVec.ofNat 64 k).toInt = mergedSize dip (n + sels.nsel) := by
    rw [hmbufp₀, hsize, BitVec.toInt_eq_toNat_of_lt (by rw [hktoNat]; omega), hktoNat]
    push_cast
    rfl
  refine ⟨{ m with
    alloc := alloc
    packed := m.packed ++ putWords sizeofOffset (coordWords sels.sels)
    mbufp := m.mbufp + (BitVec.ofNat 64 k).toInt
    nsel := m.nsel + BitVec.ofNat 32 sels.nsel
    dbufs := m.dbufs ++ [db]
    hdr := { m.hdr with
      fsize := m.hdr.fsize + db.size
      metaSize := BitVec.ofInt 32 (m.mbufp + (BitVec.ofNat 64 k).toInt) } },
    ?_, ?hdr, ?nsel, ?packed, ?mbufp, hpos⟩
  · rw [MergedWReq.append]
    simp only [hflag, hmsize, if_neg Bool.false_ne_true, encode_coords]
    rw [hreserve]
    show (({ m with alloc := alloc } : MergedWReq).write _ >>= _) = _
    rw [hwrite]
    rfl
  case hdr =>
    rw [hcount]
    show ({ m.hdr with fsize := _, metaSize := BitVec.ofInt 32 (m.mbufp + _) } : MetaHdr) = _
    rw [hmbufp, h.hdr, List.map_append, List.sum_append, BitVec.ofInt_natCast]
    simp
  case nsel =>
    rw [hcount]
    show m.nsel + BitVec.ofNat 32 sels.nsel = _
    rw [h.nsel, ← BitVec.ofNat_add]
  case packed => rw [h.packed, packedWords_concat, Lib.putWords_append]
  case mbufp => rw [hcount]; exact hmbufp

theorem mergedOf_concat (config id : I32) (dip : DsetInfo) (writes : Writes)
    (w : DataBlock × Selections) :
    mergedOf config id dip (writes ++ [w]) =
      mergedOf config id dip writes >>= fun m => m.append dip w.1 w.2 := by
  rw [mergedOf, List.foldlM_append]
  exact bind_congr fun m => List.foldlM_cons.trans (bind_pure _)

theorem writtenBlocks_rank {dip : DsetInfo} {writes : Writes}
    (hrank : ∀ w ∈ writes, w.2.ndim = dip.ndim) :
    ∀ b ∈ writtenBlocks writes, b.start.length = dip.ndim ∧ b.count.length = dip.ndim := by
  intro b hb
  obtain ⟨w, hw, hb⟩ := List.mem_flatMap.mp hb
  rw [← hrank w hw]
  exact w.2.rank_eq b hb

theorem writtenBlocks_cons (w : DataBlock × Selections) (writes : Writes) :
    writtenBlocks (w :: writes) = w.2.sels ++ writtenBlocks writes := List.flatMap_cons ..

theorem packedWords_cons (w : DataBlock × Selections) (writes : Writes) :
    packedWords (w :: writes) = coordWords w.2.sels ++ packedWords writes := List.flatMap_cons ..

theorem packedWords_length {dip : DsetInfo} {writes : Writes}
    (hrank : ∀ w ∈ writes, w.2.ndim = dip.ndim) :
    (packedWords writes).length = dip.ndim * (writtenBlocks writes).length * 2 := by
  induction writes with
  | nil => simp [packedWords, writtenBlocks]
  | cons w writes ih =>
      have hw : (coordWords w.2.sels).length = dip.ndim * w.2.sels.length * 2 := by
        rw [coordWords_length w.2.rank_eq, hrank w (List.mem_cons_self ..)]
      have ih := ih fun x hx => hrank x (List.mem_cons_of_mem w hx)
      rw [packedWords_cons, List.length_append, hw, ih, writtenBlocks_cons, List.length_append]
      ring

/-- **Every sequence of appends** whose entry fits the size field succeeds, and packs the selections
one after another. -/
theorem mergedOf_inv (config id : I32) {dip : DsetInfo} {writes : Writes}
    (hrank : ∀ w ∈ writes, w.2.ndim = dip.ndim)
    (hfits : mergedSize dip (writtenBlocks writes).length < 2 ^ 31) :
    ∃ m, mergedOf config id dip writes = .ok m ∧ MergedInv config id dip writes m := by
  induction writes using List.reverseRecOn with
  | nil => exact ⟨_, rfl, mergedInit_inv config id dip⟩
  | append_singleton writes w ih =>
      have hrank' : ∀ x ∈ writes, x.2.ndim = dip.ndim :=
        fun x hx => hrank x (List.mem_append_left _ hx)
      have hle : mergedSize dip (writtenBlocks writes).length ≤
          mergedSize dip (writtenBlocks (writes ++ [w])).length := by
        rw [writtenBlocks_concat, List.length_append, mergedSize_add]
        exact Nat.le_add_right _ _
      obtain ⟨m, hm, hinv⟩ := ih hrank' (by omega)
      obtain ⟨m', hm', hinv'⟩ := append_inv hinv (hrank w (by simp)) (packedWords_length hrank') hfits
      exact ⟨m', by rw [mergedOf_concat, hm]; exact hm', hinv'⟩

theorem reserve_hdr {m m' : MergedWReq} {size : HSize} (h : m.reserve size = .ok m') :
    m'.hdr = m.hdr := by
  rw [MergedWReq.reserve] at h
  split at h
  · obtain ⟨alloc, -, h⟩ := bind_eq_ok.mp h
    obtain rfl := Except.ok.inj h
    rfl
  · obtain rfl := Except.ok.inj h
    rfl

theorem append_flag {m m' : MergedWReq} {dip : DsetInfo} {db : DataBlock} {sels : Selections}
    (h : m.append dip db sels = .ok m') : m'.hdr.flag = m.hdr.flag := by
  rw [MergedWReq.append] at h
  obtain ⟨m₁, hreserve, h⟩ := bind_eq_ok.mp h
  obtain ⟨packed, -, h⟩ := bind_eq_ok.mp h
  obtain rfl := Except.ok.inj h
  show m₁.hdr.flag = _
  rw [reserve_hdr hreserve]

/-- The flags are those `init` sets, whatever is appended. -/
theorem mergedOf_flag {config id : I32} {dip : DsetInfo} {writes : Writes} {m : MergedWReq}
    (h : mergedOf config id dip writes = .ok m) : m.hdr.flag = mergedFlag config dip := by
  induction writes using List.reverseRecOn generalizing m with
  | nil =>
      obtain rfl := Except.ok.inj h
      rfl
  | append_singleton writes w ih =>
      rw [mergedOf_concat] at h
      obtain ⟨m₁, hm₁, happend⟩ := bind_eq_ok.mp h
      rw [append_flag happend, ih hm₁]

/-! ## §2 — what the decoder takes for a layout of given blocks. -/

/-- **`Layout encoded ndim bs bytes`** — the bytes begin with the blocks: their coordinates, or the
steps of all but the last dimension and one offset for every start and every count. -/
def Layout (encoded : Bool) (ndim : Nat) (bs : List Block) (bytes : List UInt8) : Prop :=
  if encoded then ∃ steps starts counts rest, steps.length + 1 = ndim ∧
    List.Forall₂ (fun off b => selDecode (steps ++ [1]) off = .ok b.start) starts bs ∧
    List.Forall₂ (fun off b => selDecode (steps ++ [1]) off = .ok b.count) counts bs ∧
    bytes = putWords sizeofOffset (steps ++ (starts ++ counts)) ++ rest
  else ∃ rest, bytes = putWords sizeofOffset (coordWords bs) ++ rest

theorem readOffset_accepts : Accepts readOffset fun enc v => enc = putWord sizeofOffset v :=
  Accepts.takeWord (by decide)

theorem readOffsets_accepts (n : Nat) : Accepts (readOffsets n) fun enc vs =>
    vs.length = n ∧ enc = putWords sizeofOffset vs := by
  rw [readOffsets, if_neg (by omega), Int.toNat_natCast]
  exact Accepts.takeWords (by decide)

/-- Reading `n` vectors of coordinates. -/
theorem takeCoords_eq_ok_iff {ndim n : Nat} {dsteps : List MpiOffset} {bs rest : List UInt8}
    {vs : List (List HSize)} :
    (takeMany (readCords false ndim dsteps) n).run bs = .ok (vs, rest) ↔
      vs.length = n ∧ (∀ v ∈ vs, v.length = ndim) ∧ bs = putWords sizeofOffset vs.flatten ++ rest := by
  have hone : Accepts (readCords false ndim dsteps) fun enc v =>
      v.length = ndim ∧ enc = putWords sizeofOffset v := by
    rw [readCords, if_neg Bool.false_ne_true]
    exact readOffsets_accepts ndim
  have hall : ∀ {encs : List (List UInt8)} {vs : List (List HSize)},
      List.Forall₂ (fun enc v => v.length = ndim ∧ enc = putWords sizeofOffset v) encs vs ↔
        (∀ v ∈ vs, v.length = ndim) ∧ encs = vs.map (putWords sizeofOffset) := by
    intro encs vs
    rw [← Lib.forall₂_eq_map]
    induction vs generalizing encs with
    | nil => simp
    | cons v vs ih =>
        simp only [List.forall₂_cons_right_iff, ih, List.forall_mem_cons]
        constructor
        · rintro ⟨e, es, ⟨hv, rfl⟩, ⟨hvs, hes⟩, rfl⟩
          exact ⟨⟨hv, hvs⟩, _, es, rfl, hes, rfl⟩
        · rintro ⟨⟨hv, hvs⟩, e, es, rfl, hes, rfl⟩
          exact ⟨_, es, ⟨hv, rfl⟩, ⟨hvs, hes⟩, rfl⟩
  rw [(hone.takeMany n) bs vs rest]
  simp only [hall]
  constructor
  · rintro ⟨enc, ⟨hlen, encs, ⟨hvs, rfl⟩, rfl⟩, rfl⟩
    exact ⟨hlen, hvs, by rw [Lib.putWords_flatten]⟩
  · rintro ⟨hlen, hvs, rfl⟩
    exact ⟨_, ⟨hlen, _, ⟨hvs, rfl⟩, rfl⟩, by rw [Lib.putWords_flatten]⟩

/-- Reading `n` offsets and splitting each of them. -/
theorem takeOffsets_eq_ok_iff {ndim : Int} {n : Nat} {dsteps : List MpiOffset} {bs rest : List UInt8}
    {vs : List (List HSize)} :
    (takeMany (readCords true ndim dsteps) n).run bs = .ok (vs, rest) ↔
      vs.length = n ∧ ∃ offs, List.Forall₂ (fun off v => selDecode dsteps off = .ok v) offs vs ∧
        bs = putWords sizeofOffset offs ++ rest := by
  -- One offset is accepted with what its division gives, so many are accepted one by one.
  have hone : Accepts (readCords true ndim dsteps) fun enc v =>
      ∃ off, enc = putWord sizeofOffset off ∧ selDecode dsteps off = .ok v := by
    intro bs v rest
    rw [readCords, if_pos rfl, run_bind_eq_ok]
    constructor
    · rintro ⟨off, mid, hoff, hsplit⟩
      obtain ⟨hv, rfl⟩ := run_pureExcept_eq_ok.mp hsplit
      obtain ⟨enc, henc, rfl⟩ := (readOffset_accepts bs off mid).mp hoff
      exact ⟨enc, ⟨off, henc, hv⟩, rfl⟩
    · rintro ⟨enc, ⟨off, henc, hv⟩, rfl⟩
      exact ⟨off, rest, (readOffset_accepts _ off rest).mpr ⟨enc, henc, rfl⟩,
        run_pureExcept_eq_ok.mpr ⟨hv, rfl⟩⟩
  have hall : ∀ {encs : List (List UInt8)} {vs : List (List HSize)},
      List.Forall₂ (fun enc v => ∃ off, enc = putWord sizeofOffset off ∧
        selDecode dsteps off = .ok v) encs vs ↔
      ∃ offs, encs = offs.map (putWord sizeofOffset) ∧
        List.Forall₂ (fun off v => selDecode dsteps off = .ok v) offs vs := by
    intro encs vs
    induction vs generalizing encs with
    | nil => simp
    | cons v vs ih =>
        simp only [List.forall₂_cons_right_iff, ih]
        constructor
        · rintro ⟨e, es, ⟨off, rfl, hv⟩, ⟨offs, rfl, hvs⟩, rfl⟩
          exact ⟨off :: offs, rfl, off, offs, hv, hvs, rfl⟩
        · rintro ⟨_, rfl, off, offs, hv, hvs, rfl⟩
          exact ⟨_, _, ⟨off, rfl, hv⟩, ⟨offs, rfl, hvs⟩, rfl⟩
  rw [(hone.takeMany n) bs vs rest]
  simp only [hall]
  constructor
  · rintro ⟨enc, ⟨hlen, encs, ⟨offs, rfl, hvs⟩, rfl⟩, rfl⟩
    exact ⟨hlen, offs, hvs, by rw [putWords, List.flatMap_def]⟩
  · rintro ⟨hlen, offs, hvs, rfl⟩
    exact ⟨_, ⟨hlen, _, ⟨offs, rfl, hvs⟩, rfl⟩, by rw [putWords, List.flatMap_def]⟩

theorem zipWith_mkBlock_iff {starts counts : List (List HSize)} {bs : List Block}
    (hs : starts.length = bs.length) (hc : counts.length = bs.length) :
    List.zipWith (mkBlock none) starts counts = bs ↔
      starts = bs.map Block.start ∧ counts = bs.map Block.count := by
  constructor
  · intro h
    have hlen : starts.length = counts.length := hs.trans hc.symm
    clear hs hc
    induction starts generalizing counts bs with
    | nil =>
        obtain rfl := List.length_eq_zero_iff.mp hlen.symm
        subst h
        exact ⟨rfl, rfl⟩
    | cons s starts ih =>
        cases counts with
        | nil => cases hlen
        | cons c counts =>
            subst h
            obtain ⟨hs, hc⟩ := ih rfl (by simpa using hlen)
            exact ⟨congrArg (s :: ·) hs, congrArg (c :: ·) hc⟩
  · rintro ⟨rfl, rfl⟩
    rw [List.zipWith_map, List.zipWith_self]
    exact List.map_id' bs

/-- The reads of a selection, one after another. -/
theorem readSels_run_eq_ok {dset : DsetInfo} {hdr : MetaHdr} {n : Nat} {bytes rest : List UInt8}
    {out : MetaEntry × List MpiOffset} :
    (readSels dset hdr none n).run bytes = .ok (out, rest) ↔
      ∃ dsteps mid, (readSteps hdr.flag dset.ndim).run bytes = .ok (dsteps, mid) ∧
      ∃ starts mid', (takeMany (readCords (hasFlag hdr.flag MetaFlag.selEncode) dset.ndim dsteps)
        n).run mid = .ok (starts, mid') ∧
      ∃ counts, (takeMany (readCords (hasFlag hdr.flag MetaFlag.selEncode) dset.ndim dsteps)
        n).run mid' = .ok (counts, rest) ∧
      ∃ dsize, lastBlockEnd dset.esize dset.ndim
        (placeSels dset.esize 0 (List.zipWith (mkBlock none) starts counts)) = .ok dsize ∧
      out = (⟨hdr, placeSels dset.esize 0 (List.zipWith (mkBlock none) starts counts), dsize⟩, dsteps) := by
  have hcheck : checkNsel (n : Int) = pure () := by rw [checkNsel, if_neg (by omega)]
  have hread : readSels dset hdr none n = (do
      let dsteps ← readSteps hdr.flag dset.ndim
      let starts ← takeMany (readCords (hasFlag hdr.flag MetaFlag.selEncode) dset.ndim dsteps) n
      let counts ← takeMany (readCords (hasFlag hdr.flag MetaFlag.selEncode) dset.ndim dsteps) n
      let dsize ← Lib.pureExcept (lastBlockEnd dset.esize dset.ndim
        (placeSels dset.esize 0 (List.zipWith (mkBlock none) starts counts)))
      pure (⟨hdr, placeSels dset.esize 0 (List.zipWith (mkBlock none) starts counts), dsize⟩,
        dsteps)) := by
    rw [readSels, hcheck]
    rfl
  rw [hread, run_bind_eq_ok]
  refine exists_congr fun dsteps => exists_congr fun mid => and_congr_right fun _ => ?_
  rw [run_bind_eq_ok]
  refine exists_congr fun starts => exists_congr fun mid' => and_congr_right fun _ => ?_
  rw [run_bind_eq_ok]
  constructor
  · rintro ⟨counts, mid'', hcounts, h⟩
    obtain ⟨dsize, mid₃, hend, h⟩ := run_bind_eq_ok.mp h
    obtain ⟨hdsize, rfl⟩ := run_pureExcept_eq_ok.mp hend
    obtain ⟨rfl, rfl⟩ := Prod.mk.inj (Except.ok.inj h)
    exact ⟨counts, hcounts, dsize, hdsize, rfl⟩
  · rintro ⟨counts, hcounts, dsize, hdsize, rfl⟩
    exact ⟨counts, rest, hcounts,
      run_bind_eq_ok.mpr ⟨dsize, rest, run_pureExcept_eq_ok.mpr ⟨hdsize, rfl⟩, rfl⟩⟩

/-- **What the decoder accepts.** The selection part of an entry is read as the blocks `bs` exactly
when it begins with a layout of them. -/
theorem readSels_layout_iff {dset : DsetInfo} {hdr : MetaHdr} {bs : List Block} {bytes : List UInt8}
    (hne : bs ≠ []) (hrank : ∀ b ∈ bs, b.start.length = dset.ndim ∧ b.count.length = dset.ndim)
    (henc : hasFlag hdr.flag MetaFlag.selEncode = true → 1 ≤ dset.ndim) :
    (∃ out rest, (readSels dset hdr none bs.length).run bytes = .ok (out, rest) ∧
      out.1.hdr = hdr ∧ out.1.sels.map MetaSel.block = bs) ↔
      Layout (hasFlag hdr.flag MetaFlag.selEncode) dset.ndim bs bytes := by
  have hend : placeSels dset.esize 0 bs ≠ [] := by
    rw [← List.length_pos_iff, placeSels_length, List.length_pos_iff]
    exact hne
  obtain ⟨dsize, hdsize⟩ := lastBlockEnd_ok dset.esize dset.ndim hend
  have hself : List.zipWith (mkBlock none) (bs.map Block.start) (bs.map Block.count) = bs :=
    (zipWith_mkBlock_iff (List.length_map ..) (List.length_map ..)).mpr ⟨rfl, rfl⟩
  cases hflag : hasFlag hdr.flag MetaFlag.selEncode with
  -- Coordinates: all starts, and then all counts.
  | false =>
      have hsteps : readSteps hdr.flag dset.ndim = pure [] := by
        rw [readSteps, hflag]
        rfl
      show _ ↔ ∃ rest, bytes = putWords sizeofOffset (coordWords bs) ++ rest
      have hwords : coordWords bs = (bs.map Block.start).flatten ++ (bs.map Block.count).flatten := by
        rw [coordWords, List.flatMap_def, List.flatMap_def]
      constructor
      · rintro ⟨out, rest, hrun, -, hblocks⟩
        obtain ⟨dsteps, mid, hmid, starts, mid', hstarts, counts, hcounts, dsize, -, rfl⟩ :=
          readSels_run_eq_ok.mp hrun
        rw [hsteps] at hmid
        obtain ⟨rfl, rfl⟩ := Prod.mk.inj (Except.ok.inj hmid)
        rw [hflag] at hstarts hcounts
        obtain ⟨hslen, -, rfl⟩ := takeCoords_eq_ok_iff.mp hstarts
        obtain ⟨hclen, -, rfl⟩ := takeCoords_eq_ok_iff.mp hcounts
        rw [placeSels_block] at hblocks
        obtain ⟨rfl, rfl⟩ := (zipWith_mkBlock_iff hslen hclen).mp hblocks
        exact ⟨rest, by rw [hwords, Lib.putWords_append, List.append_assoc]⟩
      · rintro ⟨rest, rfl⟩
        refine ⟨_, rest, readSels_run_eq_ok.mpr ⟨[], _, by rw [hsteps]; rfl, bs.map Block.start,
          putWords sizeofOffset (bs.map Block.count).flatten ++ rest, ?_, bs.map Block.count, ?_,
          dsize, by rw [hself]; exact hdsize, rfl⟩, rfl, ?_⟩
        · rw [hflag]
          refine takeCoords_eq_ok_iff.mpr ⟨List.length_map .., ?_, ?_⟩
          · exact List.forall_mem_map.mpr fun b hb => (hrank b hb).1
          · rw [hwords, Lib.putWords_append, List.append_assoc]
        · rw [hflag]
          exact takeCoords_eq_ok_iff.mpr ⟨List.length_map ..,
            List.forall_mem_map.mpr fun b hb => (hrank b hb).2, rfl⟩
        · rw [placeSels_block, hself]
  -- Offsets: the steps before them say how each is split.
  | true =>
      have hpos := henc hflag
      have hsteps {dsteps : List MpiOffset} {mid : List UInt8} :
          (readSteps hdr.flag dset.ndim).run bytes = .ok (dsteps, mid) ↔
            ∃ steps, steps.length + 1 = dset.ndim ∧ dsteps = steps ++ [1] ∧
              bytes = putWords sizeofOffset steps ++ mid := by
        have hread : readSteps hdr.flag dset.ndim =
            readOffsets ((dset.ndim - 1 : Nat) : Int) >>= fun steps => pure (steps ++ [1]) := by
          rw [readSteps, hflag, if_pos rfl, Nat.cast_sub hpos, ← bind_pure_comp]
          rfl
        rw [hread, run_bind_eq_ok]
        constructor
        · rintro ⟨steps, mid', hsteps, h⟩
          obtain ⟨rfl, rfl⟩ := Prod.mk.inj (Except.ok.inj h)
          obtain ⟨_, ⟨hlen, rfl⟩, rfl⟩ := (readOffsets_accepts _ _ _ _).mp hsteps
          exact ⟨steps, by omega, rfl, rfl⟩
        · rintro ⟨steps, hlen, rfl, rfl⟩
          exact ⟨steps, mid, (readOffsets_accepts _ _ _ _).mpr ⟨_, ⟨by omega, rfl⟩, rfl⟩, rfl⟩
      show _ ↔ ∃ steps starts counts rest, _
      constructor
      · rintro ⟨out, rest, hrun, -, hblocks⟩
        obtain ⟨dsteps, mid, hmid, starts, mid', hstarts, counts, hcounts, dsize, -, rfl⟩ :=
          readSels_run_eq_ok.mp hrun
        obtain ⟨steps, hlen, rfl, rfl⟩ := hsteps.mp hmid
        rw [hflag] at hstarts hcounts
        obtain ⟨hslen, soffs, hsplit, rfl⟩ := takeOffsets_eq_ok_iff.mp hstarts
        obtain ⟨hclen, coffs, hcsplit, rfl⟩ := takeOffsets_eq_ok_iff.mp hcounts
        rw [placeSels_block] at hblocks
        obtain ⟨rfl, rfl⟩ := (zipWith_mkBlock_iff hslen hclen).mp hblocks
        rw [List.forall₂_map_right_iff] at hsplit hcsplit
        refine ⟨steps, soffs, coffs, rest, hlen, hsplit, hcsplit, ?_⟩
        rw [Lib.putWords_append, Lib.putWords_append, List.append_assoc, List.append_assoc]
      · rintro ⟨steps, soffs, coffs, rest, hlen, hsplit, hcsplit, hbytes⟩
        rw [Lib.putWords_append, Lib.putWords_append, List.append_assoc, List.append_assoc] at hbytes
        refine ⟨_, rest, readSels_run_eq_ok.mpr ⟨steps ++ [1], _, hsteps.mpr ⟨steps, hlen, rfl, hbytes⟩,
          bs.map Block.start, putWords sizeofOffset coffs ++ rest, ?_, bs.map Block.count, ?_,
          dsize, by rw [hself]; exact hdsize, rfl⟩, rfl, ?_⟩
        · rw [hflag]
          exact takeOffsets_eq_ok_iff.mpr ⟨List.length_map .., soffs,
            List.forall₂_map_right_iff.mpr hsplit, rfl⟩
        · rw [hflag]
          exact takeOffsets_eq_ok_iff.mpr ⟨List.length_map .., coffs,
            List.forall₂_map_right_iff.mpr hcsplit, rfl⟩
        · rw [placeSels_block, hself]

/-- What a decode returns has as many blocks as the count it read, and at least one. -/
theorem readSels_count {dset : DsetInfo} {hdr : MetaHdr} {n : Int} {bytes rest : List UInt8}
    {out : MetaEntry × List MpiOffset} (h : (readSels dset hdr none n).run bytes = .ok (out, rest)) :
    1 ≤ out.1.sels.length ∧ (out.1.sels.length : Int) = n := by
  have hn : 0 ≤ n := by
    by_contra hneg
    obtain ⟨dsteps, mid, -, h⟩ := run_bind_eq_ok.mp h
    obtain ⟨_, mid', hcheck, -⟩ := run_bind_eq_ok.mp h
    rw [checkNsel, if_pos (by omega)] at hcheck
    cases hcheck
  obtain ⟨k, rfl⟩ := Int.eq_ofNat_of_zero_le hn
  obtain ⟨dsteps, mid, -, starts, mid', hstarts, counts, hcounts, dsize, hend, rfl⟩ :=
    readSels_run_eq_ok.mp h
  have hlen {bs bs' : List UInt8} {vs : List (List HSize)}
      (hvs : (takeMany (readCords (hasFlag hdr.flag MetaFlag.selEncode) dset.ndim dsteps) k).run bs =
        .ok (vs, bs')) : vs.length = k := by
    cases hflag : hasFlag hdr.flag MetaFlag.selEncode with
    | false => rw [hflag] at hvs; exact (takeCoords_eq_ok_iff.mp hvs).1
    | true => rw [hflag] at hvs; exact (takeOffsets_eq_ok_iff.mp hvs).1
  show 1 ≤ (placeSels _ _ _).length ∧ ((placeSels _ _ _).length : Int) = k
  rw [placeSels_length, List.length_zipWith, hlen hstarts, hlen hcounts, min_self]
  refine ⟨?_, rfl⟩
  by_contra hzero
  have hnil : placeSels dset.esize 0 (List.zipWith (mkBlock none) starts counts) = [] := by
    rw [← List.length_eq_zero_iff, placeSels_length, List.length_zipWith, hlen hstarts]
    omega
  rw [hnil] at hend
  cases hend

/-- Selections that are read have a size. -/
theorem readSels_size {dset : DsetInfo} {hdr : MetaHdr} {n : Int} {bytes left : List UInt8}
    {out : MetaEntry × List MpiOffset} (h : (readSels dset hdr none n).run bytes = .ok (out, left)) :
    0 ≤ unzippedSize hdr.flag dset.ndim n := by
  rw [readSels, run_bind_eq_ok] at h
  rcases h with ⟨dsteps, mid, hsteps, h⟩
  rcases run_bind_eq_ok.mp h with ⟨_, mid', hcheck, -⟩
  have hn : 0 ≤ n := by
    by_contra hneg
    unfold checkNsel at hcheck
    rw [if_pos (not_le.mp hneg)] at hcheck
    cases hcheck
  unfold unzippedSize
  by_cases hflag : hasFlag hdr.flag MetaFlag.selEncode = true
  · rw [if_pos hflag]
    rw [readSteps, if_pos hflag] at hsteps
    have hdim : ¬ encdimRead dset none - 1 < 0 := by
      intro hneg
      rw [readOffsets, if_pos hneg] at hsteps
      cases hsteps
    have hencdim : encdimRead dset none = dset.ndim := rfl
    rw [hencdim] at hdim
    simp only [sizeofOffset]
    omega
  · rw [if_neg hflag]
    positivity

/-- Compressed selections are inflated as a whole, and read from the result. -/
theorem unpackSels_deflate {z : Option Zlib} {dset : DsetInfo} {hdr : MetaHdr} {n : Int}
    {bytes rest : List UInt8} {out : MetaEntry × List MpiOffset}
    (hflag : hasFlag hdr.flag MetaFlag.selDeflate = true)
    (hlen : (bytes.length : Int) = hdr.metaSize.toInt - sizeofHdr - sizeofInt) :
    (unpackSels z dset hdr none n).run bytes = .ok (out, rest) ↔
      rest = [] ∧ ∃ zl zbuf, z = some zl ∧
        zl.decompress bytes (unzippedSize hdr.flag dset.ndim n).toNat = some zbuf ∧
        ∃ left, (readSels dset hdr none n).run zbuf = .ok (out, left) := by
  have htake : (takeAtMost (hdr.metaSize.toInt - sizeofHdr - sizeofInt)).run bytes =
      .ok (bytes, []) := by
    rw [← hlen]
    show (if (bytes.length : Int) < 0 then Except.ok (bytes, [])
      else Except.ok (bytes.take (bytes.length : Int).toNat, bytes.drop (bytes.length : Int).toNat)) = _
    rw [if_neg (by omega), Int.toNat_natCast, List.take_length, List.drop_length]
  unfold unpackSels
  rw [hflag, if_pos rfl]
  cases z with
  | none =>
      constructor
      · intro h
        cases h
      · rintro ⟨-, zl, zbuf, ⟨⟩, -⟩
  | some zl =>
      rw [run_bind_eq_ok]
      constructor
      · rintro ⟨inBytes, mid, hin, h⟩
        rw [htake] at hin
        obtain ⟨rfl, rfl⟩ := Prod.mk.inj (Except.ok.inj hin)
        split at h
        · cases h
        · rename_i zbuf hz
          obtain ⟨hread, rfl⟩ := run_pureExcept_eq_ok.mp h
          cases hrun : (readSels dset hdr none n).run zbuf with
          | error e => rw [hrun] at hread; cases hread
          | ok v =>
              rw [hrun] at hread
              obtain rfl := Except.ok.inj hread
              -- What inflates to a whole selection was inflated with the room it asks for.
              replace hz := (zl.inflate_eq _ (readSels_size hrun)).symm.trans hz
              exact ⟨rfl, zl, zbuf, rfl, hz, v.2, hrun⟩
      · rintro ⟨rfl, _, zbuf, ⟨⟩, hz, left, hrun⟩
        refine ⟨bytes, [], htake, ?_⟩
        have hz' : zl.inflate bytes (unzippedSize hdr.flag (encdimRead dset none) n) = some zbuf :=
          (zl.inflate_eq bytes (readSels_size hrun)).trans hz
        rw [hz']
        show (Lib.pureExcept (((readSels dset hdr none n).run zbuf).map (·.1))).run [] = _
        rw [hrun]
        rfl

/-! ## §3 — which merged entries are read back. -/

/-- The entry of a merged request decodes to the blocks appended, in order, and its data size is the
sum of the sizes appended. -/
def MergedDecodes (z : Option Zlib) (config id : I32) (dip : DsetInfo) (writes : Writes) : Prop :=
  ∃ m e, mergedOf config id dip writes = .ok m ∧ metaentryDecode z dip m.entry = .ok e ∧
    e.sels.map MetaSel.block = writtenBlocks writes ∧
    e.hdr.fsize = (writes.map fun w => w.1.size).sum

/-- **`MergedReadable`** — the number of blocks fits the `int` that counts them. Without compression,
the entry does not claim to hold offsets, and packing the selections one after another puts the same
words as packing all starts before all counts. With compression, which the writer only claims, the
packed words happen to inflate to a layout of the blocks. -/
def MergedReadable (z : Option Zlib) (config : I32) (dip : DsetInfo) (writes : Writes) : Prop :=
  1 ≤ (writtenBlocks writes).length ∧ (writtenBlocks writes).length < 2 ^ 31 ∧
  if hasFlag config FileConfig.selDeflate then
    ∃ zl zbuf, z = some zl ∧
      zl.decompress (putWords sizeofOffset (packedWords writes))
        (unzippedSize (mergedFlag config dip) dip.ndim (writtenBlocks writes).length).toNat = some zbuf ∧
      Layout (decide (1 < dip.ndim) && hasFlag config FileConfig.selEncode) dip.ndim
        (writtenBlocks writes) zbuf
  else ¬ (1 < dip.ndim ∧ hasFlag config FileConfig.selEncode = true) ∧
    packedWords writes = coordWords (writtenBlocks writes)

/-- The decoder on a merged entry: header, block count, selection. -/
theorem metaentryDecode_merged {z : Option Zlib} {dset : DsetInfo} {hdr : MetaHdr} {n : I32}
    {bytes : List UInt8} (hpos : 0 < hdr.metaSize.toInt)
    (hrec : hasFlag hdr.flag MetaFlag.record = false)
    (hmul : hasFlag hdr.flag MetaFlag.mulSel = true) :
    metaentryDecode z dset (hdr.bytes ++ (putWord sizeofInt n ++ bytes)) =
      ((unpackSels z dset hdr none n.toInt).run bytes).map (·.1.1) := by
  have hcheck : checkMetaSize hdr = pure () := by rw [checkMetaSize, if_neg (by omega)]
  have hrecnum : readRecnum hdr.flag = pure none := by
    rw [readRecnum, hrec]
    rfl
  have hblocks : readBlocks z dset hdr none =
      readInt >>= fun nsel => unpackSels z dset hdr none nsel.toInt := by
    rw [readBlocks, hmul, if_pos rfl]
  rw [metaentryDecode, metaentryDecodeSteps, (readHdr_reads hdr).run_bind, hcheck, pure_bind,
    hrecnum, pure_bind, hblocks, (readInt_reads n).run_bind]

/-- The words of a first start are never steps and an offset that split into that start. -/
theorem not_layout_packed {ndim : Nat} {writes : Writes} (hndim : 1 < ndim)
    (hne : writtenBlocks writes ≠ [])
    (hrank : ∀ b ∈ writtenBlocks writes, b.start.length = ndim ∧ b.count.length = ndim) :
    ¬ Layout true ndim (writtenBlocks writes) (putWords sizeofOffset (packedWords writes)) := by
  show ¬ ∃ steps starts counts rest, _
  rintro ⟨steps, starts, counts, rest, hlen, hstarts, -, hbytes⟩
  -- the packed words begin with the first start
  have hfirst : ∀ (ws : Writes) {b : Block} {bs : List Block}, writtenBlocks ws = b :: bs →
      ∃ more, packedWords ws = b.start ++ more := by
    intro ws
    induction ws with
    | nil => intro b bs h; cases h
    | cons w ws ih =>
        intro b bs h
        rw [writtenBlocks_cons] at h
        rw [packedWords_cons]
        cases hsels : w.2.sels with
        | nil =>
            rw [hsels] at h
            exact ih h
        | cons b' bs' =>
            rw [hsels, List.cons_append] at h
            obtain ⟨rfl, -⟩ := List.cons.inj h
            exact ⟨_, by rw [coordWords, List.flatMap_cons, List.append_assoc, List.append_assoc]⟩
  obtain ⟨b, bs, hbs⟩ := List.exists_cons_of_ne_nil hne
  obtain ⟨more, hmore⟩ := hfirst writes hbs
  rw [hbs, List.forall₂_cons_right_iff] at hstarts
  obtain ⟨off, offs, hsplit, -, rfl⟩ := hstarts
  have hstart : b.start = steps ++ [off] := by
    have hwords : putWords sizeofOffset b.start ++ putWords sizeofOffset more =
        putWords sizeofOffset (steps ++ [off]) ++ (putWords sizeofOffset (offs ++ counts) ++ rest) := by
      rw [← Lib.putWords_append, ← hmore, hbytes, ← List.append_assoc (putWords _ _),
        ← Lib.putWords_append]
      simp
    have hl : b.start.length = (steps ++ [off]).length := by
      rw [(hrank b (by rw [hbs]; simp)).1, List.length_append, List.length_singleton, hlen]
    have hpre := (List.append_inj hwords (by rw [Lib.putWords_length, Lib.putWords_length, hl])).1
    exact Lib.putWords_inj (by decide) hl hpre
  rw [hstart, selDecode_eq_ok_iff, List.map_append, List.map_append] at hsplit
  refine Lib.radixDigits_self_ne off.toInt ?_ hsplit
  rw [← List.length_pos_iff, List.length_map]
  omega

/-- Without compression, the packed words are a layout of the blocks when they are their coordinates. -/
theorem layout_packed_iff {dip : DsetInfo} {encoded : Bool} {writes : Writes}
    (henc : encoded = true → 1 < dip.ndim) (hne : writtenBlocks writes ≠ [])
    (hrank : ∀ w ∈ writes, w.2.ndim = dip.ndim) :
    Layout encoded dip.ndim (writtenBlocks writes) (putWords sizeofOffset (packedWords writes)) ↔
      encoded = false ∧ packedWords writes = coordWords (writtenBlocks writes) := by
  have hblocks := writtenBlocks_rank hrank
  cases encoded with
  | true => simpa using not_layout_packed (henc rfl) hne hblocks
  | false =>
      show (∃ rest, _) ↔ _
      have hlen : (packedWords writes).length = (coordWords (writtenBlocks writes)).length := by
        rw [packedWords_length hrank, coordWords_length hblocks]
      constructor
      · rintro ⟨rest, hbytes⟩
        have hnil : rest = [] := by
          have := congrArg List.length hbytes
          rw [List.length_append, Lib.putWords_length, Lib.putWords_length, hlen] at this
          exact List.length_eq_zero_iff.mp (by omega)
        rw [hnil, List.append_nil] at hbytes
        exact ⟨rfl, Lib.putWords_inj (by decide) hlen hbytes⟩
      · rintro ⟨-, h⟩
        exact ⟨[], by rw [h, List.append_nil]⟩

/-- The selection part of an entry decodes to the given blocks. -/
theorem unpackSels_layout_iff {z : Option Zlib} {dset : DsetInfo} {hdr : MetaHdr} {bs : List Block}
    {bytes : List UInt8} (hne : bs ≠ [])
    (hrank : ∀ b ∈ bs, b.start.length = dset.ndim ∧ b.count.length = dset.ndim)
    (henc : hasFlag hdr.flag MetaFlag.selEncode = true → 1 ≤ dset.ndim)
    (hlen : (bytes.length : Int) = hdr.metaSize.toInt - sizeofHdr - sizeofInt) :
    (∃ out rest, (unpackSels z dset hdr none bs.length).run bytes = .ok (out, rest) ∧
      out.1.hdr = hdr ∧ out.1.sels.map MetaSel.block = bs) ↔
    if hasFlag hdr.flag MetaFlag.selDeflate then
      ∃ zl zbuf, z = some zl ∧
        zl.decompress bytes (unzippedSize hdr.flag dset.ndim bs.length).toNat = some zbuf ∧
        Layout (hasFlag hdr.flag MetaFlag.selEncode) dset.ndim bs zbuf
    else Layout (hasFlag hdr.flag MetaFlag.selEncode) dset.ndim bs bytes := by
  cases hzip : hasFlag hdr.flag MetaFlag.selDeflate with
  | false =>
      rw [unpackSels_plain hzip, if_neg Bool.false_ne_true]
      exact readSels_layout_iff hne hrank henc
  | true =>
      rw [if_pos rfl]
      constructor
      · rintro ⟨out, rest, hrun, hhdr, hblocks⟩
        obtain ⟨-, zl, zbuf, hz, hdec, left, hread⟩ := (unpackSels_deflate hzip hlen).mp hrun
        exact ⟨zl, zbuf, hz, hdec,
          (readSels_layout_iff hne hrank henc).mp ⟨out, left, hread, hhdr, hblocks⟩⟩
      · rintro ⟨zl, zbuf, hz, hdec, hlayout⟩
        obtain ⟨out, left, hread, hhdr, hblocks⟩ := (readSels_layout_iff hne hrank henc).mpr hlayout
        exact ⟨out, [], (unpackSels_deflate hzip hlen).mpr ⟨rfl, zl, zbuf, hz, hdec, left, hread⟩,
          hhdr, hblocks⟩

/-- Whether compressed or not, as many blocks are returned as the count says. -/
theorem unpackSels_count {z : Option Zlib} {dset : DsetInfo} {hdr : MetaHdr} {n : Int}
    {bytes rest : List UInt8} {out : MetaEntry × List MpiOffset}
    (hlen : (bytes.length : Int) = hdr.metaSize.toInt - sizeofHdr - sizeofInt)
    (h : (unpackSels z dset hdr none n).run bytes = .ok (out, rest)) :
    1 ≤ out.1.sels.length ∧ (out.1.sels.length : Int) = n := by
  cases hzip : hasFlag hdr.flag MetaFlag.selDeflate with
  | false =>
      rw [unpackSels_plain hzip] at h
      exact readSels_count h
  | true =>
      obtain ⟨-, zl, zbuf, -, -, left, hread⟩ := (unpackSels_deflate hzip hlen).mp h
      exact readSels_count hread

/-- Entries that fit their size field. -/
theorem mergedDecodes_iff_readable (z : Option Zlib) (config id : I32) {dip : DsetInfo} {writes : Writes}
    (hrank : ∀ w ∈ writes, w.2.ndim = dip.ndim)
    (hfits : mergedSize dip (writtenBlocks writes).length < 2 ^ 31) :
    MergedDecodes z config id dip writes ↔ MergedReadable z config dip writes := by
  obtain ⟨m, hm, hinv⟩ := mergedOf_inv config id hrank hfits
  have hblocks := writtenBlocks_rank hrank
  obtain ⟨hmul, hrec, hencode, hdeflate⟩ := mergedFlag_bits config dip
  have hflag : m.hdr.flag = mergedFlag config dip := by rw [hinv.hdr]
  have hmeta : m.hdr.metaSize.toInt = mergedSize dip (writtenBlocks writes).length := by
    rw [hinv.hdr]
    exact toInt_ofNat_of_lt hfits
  have hpackedLen : (m.packed.length : Int) = m.hdr.metaSize.toInt - sizeofHdr - sizeofInt := by
    rw [hinv.packed, hmeta, Lib.putWords_length, packedWords_length hrank, mergedSize]
    push_cast
    ring
  have hentry : m.entry = m.hdr.bytes ++ (putWord sizeofInt m.nsel ++ m.packed) := by
    rw [MergedWReq.entry, MergedWReq.metaBuf]
    refine List.take_of_length_le ?_
    rw [List.length_append, List.length_append, MetaHdr.bytes_length, Lib.putWord_length]
    omega
  have hpos : 0 < m.hdr.metaSize.toInt := by
    have h28 : sizeofHdr = 28 := rfl
    omega
  have hdecode : metaentryDecode z dip m.entry =
      ((unpackSels z dip m.hdr none m.nsel.toInt).run m.packed).map (·.1.1) := by
    rw [hentry]
    exact metaentryDecode_merged hpos (by rw [hflag]; exact hrec) (by rw [hflag]; exact hmul)
  have henc : hasFlag m.hdr.flag MetaFlag.selEncode = true → 1 ≤ dip.ndim := by
    rw [hflag, hencode, Bool.and_eq_true]
    intro h
    exact Nat.le_of_lt (of_decide_eq_true h.1)
  -- decoding is unpacking what was packed, with the count the entry stores
  have hiff : MergedDecodes z config id dip writes ↔
      ∃ out rest, (unpackSels z dip m.hdr none m.nsel.toInt).run m.packed = .ok (out, rest) ∧
        out.1.hdr = m.hdr ∧ out.1.sels.map MetaSel.block = writtenBlocks writes := by
    constructor
    · rintro ⟨m', e, hm', he, hsels, hsize⟩
      obtain rfl := Except.ok.inj (hm.symm.trans hm')
      rw [hdecode] at he
      cases hrun : (unpackSels z dip m.hdr none m.nsel.toInt).run m.packed with
      | error f => rw [hrun] at he; cases he
      | ok v =>
          rw [hrun] at he
          obtain rfl := Except.ok.inj he
          exact ⟨v.1, v.2, rfl, unpackSels_entry_hdr hrun, hsels⟩
    · rintro ⟨out, rest, hrun, hhdr, hsels⟩
      refine ⟨m, out.1, hm, by rw [hdecode, hrun]; rfl, hsels, ?_⟩
      rw [hhdr, hinv.hdr]
  rw [hiff]
  have hcount : m.nsel.toInt = (writtenBlocks writes).length ↔
      (writtenBlocks writes).length < 2 ^ 31 := by
    rw [hinv.nsel]
    constructor
    · intro h
      have := BitVec.toInt_lt (x := BitVec.ofNat 32 (writtenBlocks writes).length)
      rw [h] at this
      exact_mod_cast this
    · exact toInt_ofNat_of_lt
  have hlayout (hn : 1 ≤ (writtenBlocks writes).length) :
      (if hasFlag m.hdr.flag MetaFlag.selDeflate then
        ∃ zl zbuf, z = some zl ∧ zl.decompress m.packed
          (unzippedSize m.hdr.flag dip.ndim (writtenBlocks writes).length).toNat = some zbuf ∧
          Layout (hasFlag m.hdr.flag MetaFlag.selEncode) dip.ndim (writtenBlocks writes) zbuf
      else Layout (hasFlag m.hdr.flag MetaFlag.selEncode) dip.ndim (writtenBlocks writes) m.packed) ↔
      if hasFlag config FileConfig.selDeflate then
        ∃ zl zbuf, z = some zl ∧ zl.decompress (putWords sizeofOffset (packedWords writes))
          (unzippedSize (mergedFlag config dip) dip.ndim (writtenBlocks writes).length).toNat =
            some zbuf ∧
          Layout (decide (1 < dip.ndim) && hasFlag config FileConfig.selEncode) dip.ndim
            (writtenBlocks writes) zbuf
      else ¬ (1 < dip.ndim ∧ hasFlag config FileConfig.selEncode = true) ∧
        packedWords writes = coordWords (writtenBlocks writes) := by
    rw [hflag, hencode, hdeflate, hinv.packed]
    refine iff_of_eq (if_congr Iff.rfl rfl (propext ?_))
    rw [layout_packed_iff (fun h => of_decide_eq_true (Bool.and_eq_true _ _ ▸ h).1)
      (List.length_pos_iff.mp hn) hrank]
    simp
  constructor
  · rintro ⟨out, rest, hrun, hhdr, hsels⟩
    obtain ⟨hone, hnum⟩ := unpackSels_count hpackedLen hrun
    have hlen : out.1.sels.length = (writtenBlocks writes).length := by
      rw [← hsels, List.length_map]
    rw [hlen] at hone hnum
    rw [← hnum] at hrun
    exact ⟨hone, hcount.mp hnum.symm, (hlayout hone).mp
      ((unpackSels_layout_iff (List.length_pos_iff.mp hone) hblocks henc hpackedLen).mp
        ⟨out, rest, hrun, hhdr, hsels⟩)⟩
  · rintro ⟨hone, hlt, hread⟩
    rw [hcount.mpr hlt]
    exact (unpackSels_layout_iff (List.length_pos_iff.mp hone) hblocks henc hpackedLen).mpr
      ((hlayout hone).mpr hread)

theorem readHdr_eq_ok {bytes rest : List UInt8} {h : MetaHdr} (hrun : readHdr.run bytes = .ok (h, rest)) :
    bytes = h.bytes ++ rest := by
  have hint {bs rest : List UInt8} {v : I32} (h : readInt.run bs = .ok (v, rest)) :
      bs = putWord sizeofInt v ++ rest := by
    obtain ⟨_, rfl, rfl⟩ := (Accepts.takeWord (by decide) bs v rest).mp h
    rfl
  have hoff {bs rest : List UInt8} {v : MpiOffset} (h : readOffset.run bs = .ok (v, rest)) :
      bs = putWord sizeofOffset v ++ rest := by
    obtain ⟨_, rfl, rfl⟩ := (readOffset_accepts bs v rest).mp h
    rfl
  rw [readHdr, run_bind_eq_ok] at hrun
  obtain ⟨metaSize, mid₁, h₁, hrun⟩ := hrun
  obtain ⟨did, mid₂, h₂, hrun⟩ := run_bind_eq_ok.mp hrun
  obtain ⟨flag, mid₃, h₃, hrun⟩ := run_bind_eq_ok.mp hrun
  obtain ⟨foff, mid₄, h₄, hrun⟩ := run_bind_eq_ok.mp hrun
  obtain ⟨fsize, mid₅, h₅, hrun⟩ := run_bind_eq_ok.mp hrun
  obtain ⟨rfl, rfl⟩ := Prod.mk.inj (Except.ok.inj hrun)
  rw [hint h₁, hint h₂, hint h₃, hoff h₄, hoff h₅, MetaHdr.bytes]
  simp only [List.append_assoc]

theorem MetaHdr.bytes_inj {h h' : MetaHdr} (heq : h.bytes = h'.bytes) : h = h' := by
  have hrun := readHdr_reads h []
  rw [heq, readHdr_reads h' []] at hrun
  exact (Prod.mk.inj (Except.ok.inj hrun)).1.symm

/-- The coordinates of as many blocks as are decoded lie inside the entry, so that many fit its size
field. -/
theorem mergedSize_lt_of_decodes {z : Option Zlib} {config id : I32} {dip : DsetInfo} {writes : Writes}
    (hrank : ∀ w ∈ writes, w.2.ndim = dip.ndim)
    (hzip : hasFlag config FileConfig.selDeflate = false)
    (henc : ¬ (1 < dip.ndim ∧ hasFlag config FileConfig.selEncode = true))
    (h : MergedDecodes z config id dip writes) :
    mergedSize dip (writtenBlocks writes).length < 2 ^ 31 := by
  obtain ⟨m, e, hm, he, hsels, -⟩ := h
  obtain ⟨hmul, hrec, hencode, hdeflate⟩ := mergedFlag_bits config dip
  have hflag := mergedOf_flag hm
  have hplain : hasFlag m.hdr.flag MetaFlag.selEncode = false := by
    rw [hflag, hencode, Bool.and_eq_false_iff]
    by_cases hn : 1 < dip.ndim
    · exact Or.inr (by simpa using fun h => henc ⟨hn, h⟩)
    · exact Or.inl (decide_eq_false hn)
  rw [metaentryDecode] at he
  cases hrun : (metaentryDecodeSteps z dip).run m.entry with
  | error f => rw [hrun] at he; cases he
  | ok v =>
      rw [hrun] at he
      obtain rfl := Except.ok.inj he
      rw [metaentryDecodeSteps, run_bind_eq_ok] at hrun
      obtain ⟨hdr, mid, hhdr, hrun⟩ := hrun
      have hsplit := readHdr_eq_ok hhdr
      -- the header read is the header of the request
      obtain rfl : hdr = m.hdr := by
        have hwhole : hdr.bytes ++ (mid ++ m.metaBuf.drop m.hdr.metaSize.toInt.toNat) =
            m.hdr.bytes ++ (putWord sizeofInt m.nsel ++ m.packed) := by
          rw [← List.append_assoc, ← hsplit, MergedWReq.entry, List.take_append_drop,
            MergedWReq.metaBuf]
        refine MetaHdr.bytes_inj (List.append_inj hwhole ?_).1
        rw [MetaHdr.bytes_length, MetaHdr.bytes_length]
      obtain ⟨_, mid₁, hcheck, hrest⟩ := run_bind_eq_ok.mp hrun
      obtain ⟨recnum, mid₂, hrecnum, hread⟩ := run_bind_eq_ok.mp hrest
      have hmid : mid = mid₁ := by
        unfold checkMetaSize at hcheck
        split at hcheck
        · cases hcheck
        · exact (Prod.mk.inj (Except.ok.inj hcheck)).2
      rw [readRecnum, hflag, hrec] at hrecnum
      obtain ⟨rfl, rfl⟩ := Prod.mk.inj (Except.ok.inj hrecnum)
      rw [readBlocks, hflag, hmul, if_pos rfl, run_bind_eq_ok] at hread
      obtain ⟨n, mid₃, hn, hunpack⟩ := hread
      obtain ⟨_, rfl, rfl⟩ := (Accepts.takeWord (by decide) mid₁ n mid₃).mp hn
      rw [unpackSels_plain (by rw [hflag, hdeflate, hzip])] at hunpack
      obtain ⟨hone, hnum⟩ := readSels_count hunpack
      have hlen : v.1.1.sels.length = (writtenBlocks writes).length := by
        rw [← hsels, List.length_map]
      rw [← hnum, hlen] at hunpack
      rw [hlen] at hone
      have hblocks := writtenBlocks_rank hrank
      have hlayout := (readSels_layout_iff (List.length_pos_iff.mp hone) hblocks
        (by rw [hplain]; exact fun h => absurd h Bool.false_ne_true)).mp
        ⟨v.1, v.2, hunpack, readSels_hdr hunpack, hsels⟩
      rw [hplain] at hlayout
      obtain ⟨rest, rfl⟩ := hlayout
      have hbytes : m.entry.length ≤ m.hdr.metaSize.toInt.toNat := by
        rw [MergedWReq.entry, List.length_take]
        exact min_le_left _ _
      have hmax : m.hdr.metaSize.toInt < 2 ^ 31 := by
        simpa using BitVec.toInt_lt (x := m.hdr.metaSize)
      rw [hsplit, hmid, List.length_append, List.length_append, List.length_append,
        MetaHdr.bytes_length, Lib.putWord_length, Lib.putWords_length, coordWords_length hblocks] at hbytes
      rw [mergedSize]
      omega

/-- **When merged entries come back.** For a sequence of selections of the dataset's rank appended to
one merged request: while the coordinates fit the `int32_t` size field, the entry decodes to the
appended blocks in order, with the sum of the data sizes, if and only if it is `MergedReadable`; and an
entry that claims neither offsets nor compression only comes back when they do fit. -/
theorem mergedDecodes_iff (z : Option Zlib) (config id : I32) (dip : DsetInfo) (writes : Writes)
    (hrank : ∀ w ∈ writes, w.2.ndim = dip.ndim) :
    (mergedSize dip (writtenBlocks writes).length < 2 ^ 31 →
      (MergedDecodes z config id dip writes ↔ MergedReadable z config dip writes)) ∧
    (hasFlag config FileConfig.selDeflate = false →
      ¬ (1 < dip.ndim ∧ hasFlag config FileConfig.selEncode = true) →
      (MergedDecodes z config id dip writes ↔
        mergedSize dip (writtenBlocks writes).length < 2 ^ 31 ∧ MergedReadable z config dip writes)) := by
  refine ⟨mergedDecodes_iff_readable z config id hrank, fun hzip henc => ?_⟩
  constructor
  · intro h
    have hfits := mergedSize_lt_of_decodes hrank hzip henc h
    exact ⟨hfits, (mergedDecodes_iff_readable z config id hrank hfits).mp h⟩
  · rintro ⟨hfits, hread⟩
    exact (mergedDecodes_iff_readable z config id hrank hfits).mpr hread

/-- One append packs what the decoder reads. -/
theorem packedWords_single (w : DataBlock × Selections) :
    packedWords [w] = coordWords (writtenBlocks [w]) := by
  rw [packedWords, writtenBlocks, List.flatMap_singleton, List.flatMap_singleton]

/-- A vector of eight elements. -/
def sampleVectorDset : DsetInfo :=
  DsetInfo.plain 4 [8] [8] [1] (by decide) rfl (calcDsteps_length [8])

/-- One element of the vector. -/
def sampleElement (i : HSize) : DataBlock × Selections :=
  (⟨[0, 0, 0, 0], 4, none⟩,
    { ndim := 1
      sels := [⟨[i], [1]⟩]
      rank_eq := List.forall_mem_singleton.mpr ⟨rfl, rfl⟩
      nsel_lt := (by decide : 1 < 2 ^ 31) })

/-- Two elements at the start of the vector and three at its end, written by one call. -/
def sampleBlocks : DataBlock × Selections :=
  (⟨List.replicate 20 0, 20, none⟩,
    { ndim := 1
      sels := [⟨[0], [2]⟩, ⟨[5], [3]⟩]
      rank_eq := by decide
      nsel_lt := (by decide : 2 < 2 ^ 31) })

/-- One append of several blocks: all starts are before all counts. -/
theorem mergedDecodes_blocks :
    MergedDecodes none FileConfig.metadataMerge 0 sampleVectorDset [sampleBlocks] := by
  have hiff := mergedDecodes_iff none FileConfig.metadataMerge 0 sampleVectorDset [sampleBlocks]
    (by intro w hw; rw [List.mem_singleton.mp hw]; rfl)
  rw [hiff.1 (by decide)]
  refine ⟨by decide, by decide, ?_⟩
  rw [if_neg (by decide)]
  exact ⟨by decide, packedWords_single _⟩

/-- Two elements appended one after the other: the second start is read where the first count is. -/
theorem not_mergedDecodes_elements :
    (∃ m, mergedOf FileConfig.metadataMerge 0 sampleVectorDset [sampleElement 0, sampleElement 5] =
        .ok m ∧
      (metaentryDecode none sampleVectorDset m.entry).map (fun e => e.sels.map MetaSel.block) =
        .ok [⟨[0], [5]⟩, ⟨[1], [1]⟩]) ∧
    ¬ MergedDecodes none FileConfig.metadataMerge 0 sampleVectorDset
      [sampleElement 0, sampleElement 5] := by
  have hread : (mergedOf FileConfig.metadataMerge 0 sampleVectorDset
      [sampleElement 0, sampleElement 5] >>= fun m =>
        (metaentryDecode none sampleVectorDset m.entry).map (fun e => e.sels.map MetaSel.block)) =
      .ok [⟨[0], [5]⟩, ⟨[1], [1]⟩] := by decide +kernel
  obtain ⟨m, hm, he⟩ := bind_eq_ok.mp hread
  refine ⟨⟨m, hm, he⟩, ?_⟩
  rintro ⟨m', e, hm', he', hsels, -⟩
  obtain rfl := Except.ok.inj (hm.symm.trans hm')
  rw [he'] at he
  have hwrong : e.sels.map MetaSel.block = [⟨[0], [5]⟩, ⟨[1], [1]⟩] := Except.ok.inj he
  rw [hsels] at hwrong
  revert hwrong
  decide

end LogVol
