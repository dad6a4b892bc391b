/-
# LogVol.ReadExact — which reads keep every coordinate, every length and every count.

A search puts 64-bit coordinates into `int`s, and `H5VL_log_dataset_readi_gen_rtypes` makes `int`s of lengths
and of numbers of rows; nothing is checked on the way. `ReadExact` says that a flush of reads has the value of
each of them, against a search and sums in natural numbers. `readExact_iff_fits` says when: the blocks that meet
have ends that are coordinates and extents that fit an `int`, and so do the rows and their number.
-/
import LogVol.QueuedReads
import LogVol.ReadGroups

namespace LogVol

open Lib (Box Move Store trimAll)

/-! ## §1 — the search without casts. -/

/-- A block of a request against a block of an entry; `before` counts the bytes of the blocks before it. -/
structure SelPair where
  before : ℕ
  b : Block
  ent : MetaEntry
  msel : MetaSel

/-- The blocks `bs` of a request against every block of every entry, in the order of the search. -/
def pairsFrom (esize : ℕ) (ents : List MetaEntry) : ℕ → List Block → List SelPair
  | _, [] => []
  | before, b :: bs =>
      (ents.flatMap fun ent => ent.sels.map fun msel => ⟨before, b, ent, msel⟩) ++
        pairsFrom esize ents (before + esize * b.elems) bs

/-- The pairs that a request is searched for in. -/
def ReadReq.pairs (req : ReadReq) (ents : List MetaEntry) : List SelPair :=
  pairsFrom req.info.esize.toNat ents 0 req.sels.sels

namespace SelPair

/-- What the two blocks share. -/
def shared (p : SelPair) : Option Box := Box.inter p.msel.block.box p.b.box

/-- The result for the box `c` the two share, every number with its value. -/
def exactRet (req : ReadReq) (p : SelPair) (c : Box) : SearchRet where
  info := req.info
  dsize := p.msel.count.map fun n => (n.toNat : ℤ)
  dstart := (Box.within c p.msel.block.box).map fun q => (q.1 : ℤ)
  msize := p.b.count.map fun n => (n.toNat : ℤ)
  mstart := (Box.within c p.b.box).map fun q => (q.1 : ℤ)
  count := c.map fun q => (q.2 : ℤ)
  xsize := p.ent.dsize
  doff := p.msel.doff
  xbuf := req.xbuf + p.before
  foff := p.ent.hdr.foff
  fsize := p.ent.hdr.fsize

/-- What the search should find. -/
def exactSel (req : ReadReq) (p : SelPair) : Option SearchRet := p.shared.map (p.exactRet req)

/-- What the search finds. -/
def foundSel (req : ReadReq) (p : SelPair) : Option SearchRet :=
  searchSel req p.b (req.xbuf + (BitVec.ofNat 64 p.before).toNat) p.ent p.msel

/-- Blocks that meet have extents that fit an `int`, and their bytes have addresses. -/
def Fits (p : SelPair) : Prop :=
  p.shared.isSome → p.msel.block.FitsInt ∧ p.b.FitsInt ∧ p.before < 2 ^ 64

instance (p : SelPair) : Decidable p.Fits := inferInstanceAs (Decidable (_ → _))

/-- The two blocks have the rank of the dataset. -/
structure Ranked (req : ReadReq) (p : SelPair) : Prop where
  block : p.b.start.length = req.info.ndim ∧ p.b.count.length = req.info.ndim
  entry : p.msel.start.length = req.info.ndim ∧ p.msel.count.length = req.info.ndim

end SelPair

/-- The search without casts. -/
def exactSearch (idx : ArrayIdx) (req : ReadReq) : Except Fault (List SearchRet) :=
  match idx[req.did.toNat]? with
  | some ents => .ok ((req.pairs ents).filterMap (SelPair.exactSel req))
  | none => .error .outside

/-- A read of a dataset that is indexed, with blocks of its rank. -/
def ReadReq.Ranked (idx : ArrayIdx) (req : ReadReq) : Prop :=
  ∃ ents, idx[req.did.toNat]? = some ents ∧ ∀ p ∈ req.pairs ents, p.Ranked req

theorem searchBlocks_eq (req : ReadReq) (ents : List MetaEntry) (n : ℕ) (bs : List Block) :
    searchBlocks req ents (BitVec.ofNat 64 n) bs =
      (pairsFrom req.info.esize.toNat ents n bs).filterMap (SelPair.foundSel req) := by
  induction bs generalizing n with
  | nil => rfl
  | cons b bs ih =>
    have hsize : BitVec.ofNat 64 n + b.selSize * req.info.esize =
        BitVec.ofNat 64 (n + req.info.esize.toNat * b.elems) := by
      have hbytes := blockBytes_eq 1 b
      rw [show (1 : HSize).toNat = 1 from rfl, Nat.one_mul] at hbytes
      have hsel : b.selSize = BitVec.ofNat 64 b.elems := hbytes
      rw [hsel, BitVec.ofNat_add, BitVec.ofNat_mul, BitVec.ofNat_toNat, BitVec.setWidth_eq, mul_comm]
    rw [searchBlocks, pairsFrom, List.filterMap_append, hsize, ih, List.filterMap_flatMap]
    congr 2
    funext ent
    rw [List.filterMap_map]
    rfl

theorem search_eq {idx : ArrayIdx} {req : ReadReq} {ents : List MetaEntry}
    (h : idx[req.did.toNat]? = some ents) :
    idx.search req = .ok ((req.pairs ents).filterMap (SelPair.foundSel req)) := by
  have hblocks := searchBlocks_eq req ents 0 req.sels.sels
  rw [ArrayIdx.search, h]
  exact congrArg Except.ok hblocks

/-! ## §2 — where the casts change nothing. -/

theorem map_cordInt_eq_iff {counts : List HSize} :
    counts.map cordInt = counts.map (fun n => (n.toNat : ℤ)) ↔ ∀ n ∈ counts, n.toNat < 2 ^ 31 := by
  rw [List.map_inj_left]
  exact forall₂_congr fun n _ => (cInt_eq_self_iff (Int.natCast_nonneg _)).trans Nat.cast_lt_ofNat

theorem Block.fitsInt_iff {b : Block} (h : b.start.length = b.count.length) :
    b.FitsInt ↔ b.EndsFit ∧ ∀ n ∈ b.count, n.toNat < 2 ^ 31 := by
  have hcounts : (∀ n ∈ b.count, n.toNat < 2 ^ 31) ↔ ∀ p ∈ b.start.zip b.count, p.2.toNat < 2 ^ 31 := by
    have hsnd : (b.start.zip b.count).map Prod.snd = b.count := List.map_snd_zip h.ge
    conv_lhs => rw [← hsnd]
    exact List.forall_mem_map
  rw [hcounts]
  exact ⟨fun hfit => ⟨hfit.endsFit, fun p hp => (hfit p hp).2⟩, fun hfit p hp => ⟨hfit.1 p hp, hfit.2 p hp⟩⟩

/-- The places of a box in a block whose extents fit an `int` fit one too. -/
theorem map_cInt_within {c a : Box} (h : c.Inside a) (hfit : ∀ p ∈ a, p.2 < 2 ^ 31) :
    (Box.within c a).map (fun q => cInt q.1) = (Box.within c a).map fun q => (q.1 : ℤ) := by
  induction h with
  | nil => simp [Box.within]
  | @cons p q c a hpq _ ih =>
    have hq := hfit q (List.mem_cons_self ..)
    have hplace : cInt ((p.1 - q.1 : ℕ) : ℤ) = ((p.1 - q.1 : ℕ) : ℤ) :=
      (cInt_eq_self_iff (Int.natCast_nonneg _)).mpr (by omega)
    have hrest := ih fun r hr => hfit r (List.mem_cons_of_mem q hr)
    show cInt ((p.1 - q.1 : ℕ) : ℤ) :: _ = ((p.1 - q.1 : ℕ) : ℤ) :: _
    rw [hplace]
    exact congrArg _ hrest

theorem map_cordInt_counts {c a : Box} (h : c.Inside a) (hfit : ∀ p ∈ a, p.2 < 2 ^ 31) :
    (c.map fun q => BitVec.ofNat 64 q.2).map cordInt = c.map fun q => (q.2 : ℤ) := by
  rw [counts_within h hfit]
  induction h with
  | nil => simp [Box.within]
  | @cons p q c a hpq _ ih =>
    have hq := hfit q (List.mem_cons_self ..)
    have hcount : cInt (p.2 : ℤ) = p.2 := (cInt_eq_self_iff (Int.natCast_nonneg _)).mpr (by omega)
    have hrest := ih fun r hr => hfit r (List.mem_cons_of_mem q hr)
    show cInt (p.2 : ℤ) :: _ = (p.2 : ℤ) :: _
    rw [hcount]
    exact congrArg _ hrest

namespace SelPair

variable {req : ReadReq} {p : SelPair}

theorem Ranked.blockLen (h : p.Ranked req) : p.b.start.length = p.b.count.length :=
  h.block.1.trans h.block.2.symm

theorem Ranked.entryLen (h : p.Ranked req) : p.msel.block.start.length = p.msel.block.count.length :=
  h.entry.1.trans h.entry.2.symm

theorem Ranked.sameLen (h : p.Ranked req) : p.msel.block.start.length = p.b.start.length :=
  h.entry.1.trans h.block.1.symm

/-- What is found is shared, by blocks that end at coordinates. -/
theorem foundSel_some (h : p.Ranked req) (hsome : (p.foundSel req).isSome) :
    p.shared.isSome ∧ p.msel.block.EndsFit ∧ p.b.EndsFit := by
  have hmeet : (intersect p.msel.start p.msel.count p.b.start p.b.count).isSome := by
    rwa [foundSel, searchSel, Option.isSome_map] at hsome
  have hends := intersect_endsFit h.entryLen h.blockLen h.sameLen hmeet
  refine ⟨?_, hends⟩
  have hinter := intersect_eq h.entryLen h.blockLen h.sameLen hends.1 hends.2
  change intersect p.msel.start p.msel.count p.b.start p.b.count = _ at hinter
  rwa [hinter, Option.isSome_map] at hmeet

/-- What is found where the ends are coordinates: only the casts are left. -/
theorem foundSel_eq (h : p.Ranked req) (hends : p.msel.block.EndsFit) (hends' : p.b.EndsFit) :
    p.foundSel req =
      p.shared.map (sharedRet req p.b (req.xbuf + (BitVec.ofNat 64 p.before).toNat) p.ent p.msel) := by
  have hinter := intersect_eq h.entryLen h.blockLen h.sameLen hends hends'
  change intersect p.msel.start p.msel.count p.b.start p.b.count = _ at hinter
  rw [foundSel, searchSel, hinter, Option.map_map]
  rfl

theorem box_fits {b : Block} (hfit : b.FitsInt) : ∀ q ∈ b.box, q.2 < 2 ^ 31 := by
  intro q hq
  rcases List.mem_map.mp hq with ⟨w, hw, rfl⟩
  exact (hfit w hw).2

/-- One result has the values it should have where its numbers fit. -/
theorem sharedRet_eq_iff (h : p.Ranked req) (hends : p.msel.block.EndsFit) (hends' : p.b.EndsFit) {c : Box}
    (hc : p.shared = some c) :
    sharedRet req p.b (req.xbuf + (BitVec.ofNat 64 p.before).toNat) p.ent p.msel c = p.exactRet req c ↔
      p.msel.block.FitsInt ∧ p.b.FitsInt ∧ p.before < 2 ^ 64 := by
  have hlen : p.msel.block.box.length = p.b.box.length := by
    rw [Block.box_length h.entryLen, Block.box_length h.blockLen, h.sameLen]
  obtain ⟨hin, hin'⟩ := Box.inter_inside hlen hc
  constructor
  · intro heq
    have hdsize := map_cordInt_eq_iff.mp (congrArg SearchRet.dsize heq)
    have hmsize := map_cordInt_eq_iff.mp (congrArg SearchRet.msize heq)
    have hxbuf : req.xbuf + (BitVec.ofNat 64 p.before).toNat = req.xbuf + p.before :=
      congrArg SearchRet.xbuf heq
    refine ⟨?_, ?_, ?_⟩
    · exact (Block.fitsInt_iff h.entryLen).mpr ⟨hends, hdsize⟩
    · exact (Block.fitsInt_iff h.blockLen).mpr ⟨hends', hmsize⟩
    · have hword := (BitVec.ofNat 64 p.before).isLt
      omega
  · rintro ⟨hfit, hfit', hbefore⟩
    have hdsize := map_cordInt_eq_iff.mpr ((Block.fitsInt_iff h.entryLen).mp hfit).2
    have hmsize := map_cordInt_eq_iff.mpr ((Block.fitsInt_iff h.blockLen).mp hfit').2
    have hword : (BitVec.ofNat 64 p.before).toNat = p.before := by
      rw [BitVec.toNat_ofNat, Nat.mod_eq_of_lt hbefore]
    unfold sharedRet exactRet
    rw [hword, map_cordInt_counts hin (box_fits hfit), starts_within h.entryLen hfit hin,
      starts_within h.blockLen hfit' hin', map_cInt_within hin (box_fits hfit),
      map_cInt_within hin' (box_fits hfit')]
    exact congrArg₂ (fun d m => SearchRet.mk _ d _ m _ _ _ _ _ _ _) hdsize hmsize

/-- **One block against another** gives what it should if and only if the numbers fit. -/
theorem foundSel_eq_exactSel_iff (h : p.Ranked req) : p.foundSel req = p.exactSel req ↔ p.Fits := by
  rcases hc : p.shared with _ | c
  · have hfound : p.foundSel req = none := by
      rcases hf : p.foundSel req with _ | r
      · rfl
      · have hsome := (foundSel_some h (hf ▸ rfl)).1
        rw [hc] at hsome
        exact absurd hsome Bool.false_ne_true
    refine iff_of_true ?_ fun hsome => ?_
    · rw [hfound, exactSel, hc]
      rfl
    · rw [hc] at hsome
      exact absurd hsome Bool.false_ne_true
  · have hexact : p.exactSel req = some (p.exactRet req c) := by rw [exactSel, hc, Option.map_some]
    have hfits : p.Fits ↔ p.msel.block.FitsInt ∧ p.b.FitsInt ∧ p.before < 2 ^ 64 := by
      rw [Fits, hc]
      exact ⟨fun hfit => hfit rfl, fun hfit _ => hfit⟩
    rw [hfits, hexact]
    constructor
    · intro heq
      obtain ⟨-, hends, hends'⟩ := foundSel_some h (heq ▸ rfl)
      rw [foundSel_eq h hends hends', hc, Option.map_some, Option.some_inj] at heq
      exact (sharedRet_eq_iff h hends hends' hc).mp heq
    · intro hfit
      have hends := hfit.1.endsFit
      have hends' := hfit.2.1.endsFit
      rw [foundSel_eq h hends hends', hc, Option.map_some, (sharedRet_eq_iff h hends hends' hc).mpr hfit]

end SelPair

/-- Two filters of one list, the first of which keeps no more than the second: they give the same list if and
only if they do the same to every element. -/
theorem filterMap_eq_filterMap_iff {α β : Type} {f g : α → Option β} {l : List α}
    (h : ∀ a ∈ l, (f a).isSome → (g a).isSome) : l.filterMap f = l.filterMap g ↔ ∀ a ∈ l, f a = g a := by
  refine ⟨?_, List.filterMap_congr⟩
  induction l with
  | nil => exact fun _ a ha => absurd ha List.not_mem_nil
  | cons a l ih =>
    intro heq
    obtain ⟨ha, h⟩ := List.forall_mem_cons.mp h
    have hle : (l.filterMap f).length ≤ (l.filterMap g).length := by
      rw [List.length_filterMap_eq_countP, List.length_filterMap_eq_countP]
      exact List.countP_mono_left h
    rw [List.filterMap_cons, List.filterMap_cons] at heq
    rcases hf : f a with _ | x <;> rcases hg : g a with _ | y
    · simp only [hf, hg] at heq
      exact List.forall_mem_cons.mpr ⟨hf.trans hg.symm, ih h heq⟩
    · simp only [hf, hg] at heq
      have hlen := congrArg List.length heq
      rw [List.length_cons] at hlen
      omega
    · rw [hf, hg] at ha
      exact absurd (ha rfl) Bool.false_ne_true
    · simp only [hf, hg, List.cons.injEq] at heq
      exact List.forall_mem_cons.mpr ⟨by rw [hf, hg, heq.1], ih h heq.2⟩

/-- **A search finds what it should** if and only if the numbers of blocks that meet fit. -/
theorem search_eq_exactSearch_iff {idx : ArrayIdx} {req : ReadReq} {ents : List MetaEntry}
    (hents : idx[req.did.toNat]? = some ents) (hrank : ∀ p ∈ req.pairs ents, p.Ranked req) :
    idx.search req = exactSearch idx req ↔ ∀ p ∈ req.pairs ents, p.Fits := by
  have hle : ∀ p ∈ req.pairs ents, (p.foundSel req).isSome → (p.exactSel req).isSome := by
    intro p hp hsome
    rw [SelPair.exactSel, Option.isSome_map]
    exact (SelPair.foundSel_some (hrank p hp) hsome).1
  rw [search_eq hents, exactSearch, hents]
  simp only [Except.ok.injEq]
  rw [filterMap_eq_filterMap_iff hle]
  exact forall₂_congr fun p hp => SelPair.foundSel_eq_exactSel_iff (hrank p hp)

/-! ## §3 — the lengths and the counts of the types. -/

/-- A result of a search without casts: two subarrays, of some elements. -/
structure SearchRet.Whole (r : SearchRet) : Prop where
  rank : r.count.length = r.info.ndim
  count_pos : ∀ n ∈ r.count, 1 ≤ n
  src : ∃ places, createSubarray r.dsize r.count r.dstart = .ok places ∧ places ≠ []
  dst : ∃ places, createSubarray r.msize r.count r.mstart = .ok places ∧ places ≠ []

namespace Intersec

/-- The length of a result that is alone: all of its filtered data, or one element. -/
def exactLen (b : Intersec) : ℤ := if b.zbuf.isSome then b.fsize.toInt else b.info.esize.toNat

/-- The number of rows. -/
def exactNrow (b : Intersec) : ℤ := b.count.dropLast.prod

end Intersec

/-- The number of types of a group. -/
def groupTypes : List Intersec → ℤ
  | [_] => 1
  | bs => (bs.map Intersec.exactNrow).sum

def exactTypes (std : BlockSort) (blocks : List Intersec) : ℤ := ((splitGroups (std.sort blocks)).map groupTypes).sum

/-- Every length of a group, and every number of rows in it, has its value; so have the lengths that are left of
rows that overlap. -/
def GroupExact : List Intersec → Prop
  | [b] => ∃ ms, b.single = .ok ms ∧ ∀ m ∈ ms, m.len = b.exactLen
  | bs =>
      (∀ b ∈ bs, b.nrow = b.exactNrow ∧ ∃ ms, b.rows = .ok ms ∧ ∀ m ∈ ms, m.len = b.exactRowLen) ∧
        ∀ rows, bs.mapM Intersec.rows = .ok rows →
          trimRows (sortoffsets rows.flatten) = trimAll (sortoffsets rows.flatten)

/-- The numbers of a group fit an `int`. Results without dimensions have no rows: two of them must not make a
group. -/
def GroupFits : List Intersec → Prop
  | [b] => b.exactLen < 2 ^ 31
  | bs => ∀ b ∈ bs, b.info.ndim ≠ 0 ∧ b.exactRowLen < 2 ^ 31 ∧ b.exactNrow < 2 ^ 31

/-- The lengths and the counts of the two types have their values. -/
structure TypesExact (std : BlockSort) (blocks : List Intersec) : Prop where
  groups : ∀ g ∈ splitGroups (std.sort blocks), GroupExact g
  count : countTypes std blocks = exactTypes std blocks

/-- They fit an `int`. -/
structure TypesFit (std : BlockSort) (blocks : List Intersec) : Prop where
  groups : ∀ g ∈ splitGroups (std.sort blocks), GroupFits g
  count : exactTypes std blocks < 2 ^ 31

/-- A product of `int`s is the product, as an `int`. -/
theorem foldl_cInt_mul (n : ℤ) (cs : List ℤ) :
    cs.foldl (fun n c => cInt (n * c)) (cInt n) = cInt (n * cs.prod) := by
  induction cs generalizing n with
  | nil => rw [List.foldl_nil, List.prod_nil, mul_one]
  | cons c cs ih =>
    have hstep : cInt (cInt n * c) = cInt (n * c) := Int.bmod_mul_bmod
    rw [List.foldl_cons, hstep, ih, List.prod_cons, mul_assoc]

namespace Intersec

variable {b : Intersec}

theorem nrow_eq (b : Intersec) : b.nrow = cInt b.exactNrow := by
  have hfold := foldl_cInt_mul 1 b.count.dropLast
  rw [one_mul, cInt_of_range (by decide) (by decide)] at hfold
  exact hfold

theorem exactNrow_pos (h : ∀ n ∈ b.count, 1 ≤ n) : 1 ≤ b.exactNrow :=
  List.one_le_prod fun n hn => h n (List.mem_of_mem_dropLast hn)

/-- **A result that is alone** has the length it should have if and only if that fits. -/
theorem single_exact_iff (h : b.Whole) :
    (∃ ms, b.single = .ok ms ∧ ∀ m ∈ ms, m.len = b.exactLen) ↔ b.exactLen < 2 ^ 31 := by
  unfold exactLen single
  rcases b.zbuf with _ | zbuf
  · simp only [Option.isSome_none, Bool.false_eq_true, if_false]
    have hnat := cInt_eq_self_iff (Int.natCast_nonneg b.info.esize.toNat)
    split
    · simpa using hnat
    · obtain ⟨src, hsrc, hsrc₀⟩ := h.src
      obtain ⟨dst, hdst, hdst₀⟩ := h.dst
      have helem : mpiElem b.info.esize.toNat = .ok b.info.esize.toNat ↔ (b.info.esize.toNat : ℤ) < 2 ^ 31 :=
        mpiElem_eq_self_iff.trans (by omega)
      rw [← helem, hsrc, hdst]
      rcases mpiElem b.info.esize.toNat with e | elem
      · refine iff_of_false ?_ (by simp)
        rintro ⟨ms, hms, -⟩
        cases hms
      · simp only [Lib.ok_bind, Except.ok.injEq]
        constructor
        · rintro ⟨ms, hms, hlen⟩
          obtain rfl := Except.ok.inj hms
          -- there is an element, and its run is as long as the element type
          rcases src with _ | ⟨s, src⟩
          · exact absurd rfl hsrc₀
          rcases dst with _ | ⟨d, dst⟩
          · exact absurd rfl hdst₀
          have hfirst := hlen _ (List.mem_cons_self ..)
          exact Int.natCast_inj.mp hfirst
        · rintro rfl
          refine ⟨_, rfl, ?_⟩
          intro m hm
          rcases List.mem_iff_getElem.mp hm with ⟨i, hi, rfl⟩
          rw [List.getElem_zipWith]
  · simp only [Option.isSome_some, if_true]
    split
    · rename_i hpos
      have hword : (b.fsize.toNat : ℤ) = b.fsize.toInt := by
        rw [BitVec.toInt_eq_toNat_cond] at hpos ⊢
        split at hpos <;> omega
      have hnat := cInt_eq_self_iff hpos.le
      simpa [hword] using hnat
    · rename_i hneg
      refine iff_of_true ⟨[], rfl, ?_⟩ (by omega)
      exact fun m hm => absurd hm List.not_mem_nil

theorem rowsFrom_len (b : Intersec) (fuel : ℕ) (ctr : List ℤ) :
    ∀ m ∈ b.rowsFrom fuel ctr, m.len = cInt b.exactRowLen := by
  induction fuel generalizing ctr with
  | zero => exact fun m hm => absurd hm List.not_mem_nil
  | succ fuel ih =>
    rw [rowsFrom]
    split
    · refine List.forall_mem_cons.mpr ⟨rfl, ?_⟩
      split
      · exact fun m hm => absurd hm List.not_mem_nil
      · exact ih _
    · exact fun m hm => absurd hm List.not_mem_nil

/-- A result with dimensions has a row. -/
theorem rows_eq_cons (h : b.Whole) (hnd : b.info.ndim ≠ 0) :
    ∃ m ms, b.rows = .ok (m :: ms) ∧ ∀ l ∈ m :: ms, l.len = cInt b.exactRowLen := by
  have hlen := b.rowsFrom_len (b.turns + 1) (List.replicate b.info.ndim 0)
  obtain ⟨k, hk⟩ := Nat.exists_eq_succ_of_ne_zero hnd
  obtain ⟨c, cs, hcount⟩ := List.exists_cons_of_length_eq_add_one (h.rank.trans hk)
  have hc : 0 < c := h.count_pos c (hcount ▸ List.mem_cons_self ..)
  have hfirst : (List.replicate b.info.ndim (0 : ℤ)).headD 0 < b.count.headD 0 := by
    rw [hk, hcount]
    exact hc
  rw [rowsFrom, if_pos hfirst] at hlen
  refine ⟨_, _, ?_, hlen⟩
  rw [rows, if_neg hnd, rowsFrom, if_pos hfirst]

theorem exactRowLen_nonneg (h : b.Whole) : 0 ≤ b.exactRowLen := by
  refine mul_nonneg ?_ (Int.natCast_nonneg _)
  rw [List.getLastD_eq_getLast?]
  rcases hlast : b.count.getLast? with _ | n
  · exact le_rfl
  · exact zero_le_one.trans (h.count_pos n (List.mem_of_getLast? hlast))

/-- **The rows of a result** have the length they should have if and only if there are dimensions and it fits. -/
theorem rows_exact_iff (h : b.Whole) :
    (∃ ms, b.rows = .ok ms ∧ ∀ m ∈ ms, m.len = b.exactRowLen) ↔ b.info.ndim ≠ 0 ∧ b.exactRowLen < 2 ^ 31 := by
  by_cases hnd : b.info.ndim = 0
  · refine iff_of_false ?_ fun hfit => hfit.1 hnd
    rintro ⟨ms, hms, -⟩
    rw [rows, if_pos hnd] at hms
    cases hms
  obtain ⟨m, ms, hms, hlen⟩ := rows_eq_cons h hnd
  rw [← cInt_eq_self_iff (exactRowLen_nonneg h), hms]
  constructor
  · rintro ⟨_, ⟨⟩, hexact⟩
    exact ⟨hnd, (hlen m (List.mem_cons_self ..)).symm.trans (hexact m (List.mem_cons_self ..))⟩
  · rintro ⟨-, hfit⟩
    exact ⟨_, rfl, fun l hl => (hlen l hl).trans hfit⟩

end Intersec

/-- Rows that fit are counted by an `int`, in whatever order. -/
theorem rows_counted {bs : List Intersec} (h : ∀ b ∈ bs, b.Whole)
    (hfit : ∀ b ∈ bs, b.info.ndim ≠ 0 ∧ b.exactRowLen < 2 ^ 31 ∧ b.exactNrow < 2 ^ 31) {rows : List (List Move)}
    (hrows : bs.mapM Intersec.rows = .ok rows) : ∀ m ∈ sortoffsets rows.flatten, Counted m := by
  intro m hm
  have hmem := (sortoffsets_spec rows.flatten).1.mem_iff.mp hm
  obtain ⟨ms, hms, hm⟩ := List.mem_flatten.mp hmem
  obtain ⟨b, hb, hbms⟩ := Lib.mem_of_mapM_ok hrows hms
  obtain ⟨ms', hms', hlen⟩ := (Intersec.rows_exact_iff (h b hb)).mpr ⟨(hfit b hb).1, (hfit b hb).2.1⟩
  rw [hbms] at hms'
  obtain rfl := Except.ok.inj hms'
  rw [Counted, hlen m hm]
  exact ⟨Intersec.exactRowLen_nonneg (h b hb), (hfit b hb).2.1⟩

theorem trimRows_exact {rows : List Move} (h : ∀ m ∈ sortoffsets rows, Counted m) :
    trimRows (sortoffsets rows) = trimAll (sortoffsets rows) :=
  trimRows_eq h (beginsInOrder_of_sorted (sortoffsets_spec rows).2)

/-- **A group of several results** has its values if and only if they fit. -/
theorem manyExact_iff {bs : List Intersec} (h : ∀ b ∈ bs, b.Whole) :
    ((∀ b ∈ bs, b.nrow = b.exactNrow ∧ ∃ ms, b.rows = .ok ms ∧ ∀ m ∈ ms, m.len = b.exactRowLen) ∧
        ∀ rows, bs.mapM Intersec.rows = .ok rows →
          trimRows (sortoffsets rows.flatten) = trimAll (sortoffsets rows.flatten)) ↔
      ∀ b ∈ bs, b.info.ndim ≠ 0 ∧ b.exactRowLen < 2 ^ 31 ∧ b.exactNrow < 2 ^ 31 := by
  have hone : (∀ b ∈ bs, b.nrow = b.exactNrow ∧ ∃ ms, b.rows = .ok ms ∧ ∀ m ∈ ms, m.len = b.exactRowLen) ↔
      ∀ b ∈ bs, b.info.ndim ≠ 0 ∧ b.exactRowLen < 2 ^ 31 ∧ b.exactNrow < 2 ^ 31 := by
    refine forall₂_congr fun b hb => ?_
    have hpos := Intersec.exactNrow_pos (h b hb).count_pos
    rw [Intersec.nrow_eq, cInt_eq_self_iff (zero_le_one.trans hpos), Intersec.rows_exact_iff (h b hb)]
    tauto
  rw [hone]
  exact ⟨And.left, fun hfit => ⟨hfit, fun rows hrows => trimRows_exact (rows_counted h hfit hrows)⟩⟩

theorem groupExact_iff {g : List Intersec} (h : ∀ b ∈ g, b.Whole) : GroupExact g ↔ GroupFits g := by
  rcases g with _ | ⟨a, _ | ⟨b, g⟩⟩
  · exact manyExact_iff h
  · exact Intersec.single_exact_iff (h a (List.mem_singleton_self a))
  · exact manyExact_iff h

theorem foldl_nrow (nt : ℤ) (bs : List Intersec) :
    bs.foldl (fun nt b => cInt (nt + b.nrow)) (cInt nt) = cInt (nt + (bs.map Intersec.exactNrow).sum) := by
  induction bs generalizing nt with
  | nil => rw [List.foldl_nil, List.map_nil, List.sum_nil, add_zero]
  | cons b bs ih =>
    have hstep : cInt (cInt nt + cInt b.exactNrow) = cInt (nt + b.exactNrow) :=
      Int.bmod_add_bmod.trans Int.add_bmod_bmod
    rw [List.foldl_cons, Intersec.nrow_eq, hstep, ih, List.map_cons, List.sum_cons, add_assoc]

theorem countGroup_cInt (nt : ℤ) (g : List Intersec) : countGroup (cInt nt) g = cInt (nt + groupTypes g) := by
  rcases g with _ | ⟨a, _ | ⟨b, g⟩⟩
  · exact foldl_nrow nt []
  · exact Int.bmod_add_bmod
  · exact foldl_nrow nt (a :: b :: g)

/-- The number of types is what it should be, as an `int`. -/
theorem countTypes_eq (std : BlockSort) (blocks : List Intersec) :
    countTypes std blocks = cInt (exactTypes std blocks) := by
  have hfold : ∀ (gs : List (List Intersec)) (nt : ℤ),
      gs.foldl countGroup (cInt nt) = cInt (nt + (gs.map groupTypes).sum) := by
    intro gs
    induction gs with
    | nil => intro nt; rw [List.foldl_nil, List.map_nil, List.sum_nil, add_zero]
    | cons g gs ih =>
      intro nt
      rw [List.foldl_cons, countGroup_cInt, ih, List.map_cons, List.sum_cons, add_assoc]
  have hall := hfold (splitGroups (std.sort blocks)) 0
  rw [cInt_of_range (by decide) (by decide), zero_add] at hall
  exact hall

theorem groupTypes_nonneg {g : List Intersec} (h : ∀ b ∈ g, b.Whole) : 0 ≤ groupTypes g := by
  have hsum : 0 ≤ (g.map Intersec.exactNrow).sum := by
    refine List.sum_nonneg ?_
    intro n hn
    obtain ⟨b, hb, rfl⟩ := List.mem_map.mp hn
    exact zero_le_one.trans (Intersec.exactNrow_pos (h b hb).count_pos)
  rcases g with _ | ⟨a, _ | ⟨b, g⟩⟩
  · exact hsum
  · exact zero_le_one
  · exact hsum

theorem whole_of_group {std : BlockSort} {blocks : List Intersec} (h : ∀ b ∈ blocks, b.Whole) {g : List Intersec}
    (hg : g ∈ splitGroups (std.sort blocks)) : ∀ b ∈ g, b.Whole := by
  intro b hb
  have hmem : b ∈ (splitGroups (std.sort blocks)).flatten := List.mem_flatten.mpr ⟨g, hg, hb⟩
  rw [splitGroups_flatten] at hmem
  exact h b ((std.perm blocks).mem_iff.mp hmem)

/-- **The types of results** of a search without casts have their values if and only if these fit. -/
theorem typesExact_iff {std : BlockSort} {blocks : List Intersec} (h : ∀ b ∈ blocks, b.Whole) :
    TypesExact std blocks ↔ TypesFit std blocks := by
  have hwhole : ∀ g ∈ splitGroups (std.sort blocks), ∀ b ∈ g, b.Whole := fun g hg => whole_of_group h hg
  have hgroups : (∀ g ∈ splitGroups (std.sort blocks), GroupExact g) ↔
      ∀ g ∈ splitGroups (std.sort blocks), GroupFits g :=
    forall₂_congr fun g hg => groupExact_iff (hwhole g hg)
  have hnonneg : 0 ≤ exactTypes std blocks := by
    refine List.sum_nonneg ?_
    intro n hn
    obtain ⟨g, hg, rfl⟩ := List.mem_map.mp hn
    exact groupTypes_nonneg (hwhole g hg)
  have hcount : countTypes std blocks = exactTypes std blocks ↔ exactTypes std blocks < 2 ^ 31 := by
    rw [countTypes_eq, cInt_eq_self_iff hnonneg]
  exact ⟨fun hexact => ⟨hgroups.mp hexact.groups, hcount.mp hexact.count⟩,
    fun hfit => ⟨hgroups.mpr hfit.groups, hcount.mpr hfit.count⟩⟩

/-- A result that is alone has no run of a negative length, if its length fits. -/
theorem single_ok {b : Intersec} (h : b.Whole) (hfit : b.exactLen < 2 ^ 31) :
    ∃ ms, b.single = .ok ms ∧ ∀ m ∈ ms, 0 ≤ m.len := by
  obtain ⟨ms, hms, hlen⟩ := (Intersec.single_exact_iff h).mpr hfit
  refine ⟨ms, hms, ?_⟩
  intro m hm
  rw [hlen m hm, Intersec.exactLen]
  rcases hz : b.zbuf with _ | zbuf
  · exact Int.natCast_nonneg _
  · simp only [Intersec.single, hz] at hms
    obtain rfl := Except.ok.inj hms
    -- nothing is read where there are no bytes
    split at hm
    · rename_i hpos
      exact hpos.le
    · exact absurd hm List.not_mem_nil

/-- **A group whose numbers fit** is made a type of, with no negative length. -/
theorem genGroup_ok {g : List Intersec} (hne : g ≠ []) (h : ∀ b ∈ g, b.Whole) (hfit : GroupFits g) :
    ∃ p, genGroup g = .ok p ∧ ∀ m ∈ p.1, 0 ≤ m.len := by
  rcases g with _ | ⟨a, _ | ⟨b, g⟩⟩
  · exact absurd rfl hne
  · obtain ⟨ms, hms, hlen⟩ := single_ok (h a (List.mem_singleton_self a)) hfit
    refine ⟨(ms, []), ?_, hlen⟩
    rw [genGroup, hms]
    rfl
  · have hfit : ∀ c ∈ a :: b :: g, c.info.ndim ≠ 0 ∧ c.exactRowLen < 2 ^ 31 ∧ c.exactNrow < 2 ^ 31 := hfit
    have hrow : ∀ c ∈ a :: b :: g, ∃ ms, c.rows = .ok ms ∧ True := by
      intro c hc
      obtain ⟨ms, hms, -⟩ := (Intersec.rows_exact_iff (h c hc)).mpr ⟨(hfit c hc).1, (hfit c hc).2.1⟩
      exact ⟨ms, hms, trivial⟩
    obtain ⟨rows, hrows, -⟩ := Lib.exists_mapM_ok hrow
    have hcounted := rows_counted h hfit hrows
    refine ⟨_, by rw [genGroup_many, hrows]; rfl, ?_⟩
    dsimp only
    rw [trimRows_exact hcounted]
    exact Lib.trimAll_len fun m hm => (hcounted m hm).1

theorem readiGenRtypes_ok {std : BlockSort} {blocks : List Intersec} (h : ∀ b ∈ blocks, b.Whole)
    (hfit : TypesFit std blocks) : ∃ p, readiGenRtypes std blocks = .ok p := by
  have hgroup : ∀ g ∈ splitGroups (std.sort blocks), ∃ p, genGroup g = .ok p ∧ ∀ m ∈ p.1, 0 ≤ m.len := by
    intro g hg
    exact genGroup_ok (splitGroups_oneBlock _ g hg).nonempty (whole_of_group h hg) (hfit.groups g hg)
  obtain ⟨parts, hparts, -⟩ := Lib.exists_mapM_ok hgroup
  have hlen : ∀ m ∈ parts.flatMap Prod.fst, 0 ≤ m.len := by
    intro m hm
    obtain ⟨p, hp, hm⟩ := List.mem_flatMap.mp hm
    obtain ⟨g, hg, hgp⟩ := Lib.mem_of_mapM_ok hparts hp
    obtain ⟨p', hp', hlen⟩ := hgroup g hg
    rw [hgp] at hp'
    obtain rfl := Except.ok.inj hp'
    exact hlen m hm
  refine ⟨(parts.flatMap Prod.fst, parts.flatMap Prod.snd), ?_⟩
  rw [readiGenRtypes, hparts, Lib.ok_bind]
  exact if_pos hlen

/-! ## §4 — a flush of reads. -/

/-- A result of a search without casts is whole. -/
theorem exactSel_whole {req : ReadReq} {p : SelPair} (h : p.Ranked req) (hfit : p.Fits) {r : SearchRet}
    (hr : p.exactSel req = some r) : r.Whole := by
  obtain ⟨c, hc, rfl⟩ := Option.map_eq_some_iff.mp hr
  have hnums := hfit (hc ▸ rfl)
  have hlen : p.msel.block.box.length = p.b.box.length := by
    rw [Block.box_length h.entryLen, Block.box_length h.blockLen, h.sameLen]
  obtain ⟨hin, hin'⟩ := Box.inter_inside hlen hc
  rw [← (SelPair.sharedRet_eq_iff h hnums.1.endsFit hnums.2.1.endsFit hc).mpr hnums]
  have hcells : ∀ f : List ℕ → ℕ, c.cells.map f ≠ [] := by
    intro f hnil
    exact List.ne_nil_of_mem (Box.start_mem hin.nonempty) (List.map_eq_nil_iff.mp hnil)
  refine ⟨?_, ?_, ?_, ?_⟩
  · show ((c.map fun q => BitVec.ofNat 64 q.2).map cordInt).length = req.info.ndim
    rw [List.length_map, List.length_map, hin'.length_eq, Block.box_length h.blockLen, h.block.1]
  · show ∀ n ∈ (c.map fun q => BitVec.ofNat 64 q.2).map cordInt, 1 ≤ n
    rw [map_cordInt_counts hin (SelPair.box_fits hnums.1), List.forall_mem_map]
    intro q hq
    exact Int.toNat_le.mp (hin.nonempty q hq)
  · exact ⟨_, createSubarray_within h.entryLen hnums.1 hin, hcells _⟩
  · exact ⟨_, createSubarray_within h.blockLen hnums.2.1 hin', hcells _⟩

theorem allocZbufs_whole {place : MpiOffset → ℕ} {rs : List SearchRet} (h : ∀ r ∈ rs, r.Whole)
    (seen : List MpiOffset) : ∀ b ∈ allocZbufs place seen rs, b.Whole := by
  induction rs generalizing seen with
  | nil => exact fun b hb => absurd hb List.not_mem_nil
  | cons r rs ih =>
    obtain ⟨hr, h⟩ := List.forall_mem_cons.mp h
    rw [allocZbufs]
    split
    · exact List.forall_mem_cons.mpr ⟨hr, ih h seen⟩
    · split
      · exact List.forall_mem_cons.mpr ⟨⟨hr.rank, hr.count_pos, hr.src, hr.dst⟩, ih h seen⟩
      · exact List.forall_mem_cons.mpr ⟨hr, ih h _⟩

/-- The requests of a flush, as the search sees them: each of a dataset that is indexed. -/
structure ReadExact (rest : ReadRest) (idx : ArrayIdx) (reqs : List ReadReq) : Prop where
  search : ∀ q ∈ reqs, idx.search q = exactSearch idx q
  types : ∀ found, reqs.mapM idx.search = .ok found → TypesExact rest.std (allocZbufs rest.place [] found.flatten)

/-- The numbers fit. -/
structure ReadFits (rest : ReadRest) (idx : ArrayIdx) (reqs : List ReadReq) : Prop where
  search : ∀ q ∈ reqs, ∀ ents, idx[q.did.toNat]? = some ents → ∀ p ∈ q.pairs ents, p.Fits
  types : ∀ found, reqs.mapM (exactSearch idx) = .ok found → TypesFit rest.std (allocZbufs rest.place [] found.flatten)

theorem exactSearch_whole {idx : ArrayIdx} {q : ReadReq} (hrank : q.Ranked idx)
    (hfit : ∀ ents, idx[q.did.toNat]? = some ents → ∀ p ∈ q.pairs ents, p.Fits) {rs : List SearchRet}
    (h : exactSearch idx q = .ok rs) : ∀ r ∈ rs, r.Whole := by
  obtain ⟨ents, hents, hpairs⟩ := hrank
  rw [exactSearch, hents] at h
  obtain rfl := Except.ok.inj h
  intro r hr
  obtain ⟨p, hp, hsel⟩ := List.mem_filterMap.mp hr
  exact exactSel_whole (hpairs p hp) (hfit ents hents p hp) hsel

theorem search_exact_iff {idx : ArrayIdx} {q : ReadReq} (hrank : q.Ranked idx) :
    idx.search q = exactSearch idx q ↔
      ∀ ents, idx[q.did.toNat]? = some ents → ∀ p ∈ q.pairs ents, p.Fits := by
  obtain ⟨ents, hents, hpairs⟩ := hrank
  rw [search_eq_exactSearch_iff hents hpairs, hents]
  simp

/-- The results that the types of a flush are made of. -/
theorem found_whole {idx : ArrayIdx} {reqs : List ReadReq} (hrank : ∀ q ∈ reqs, q.Ranked idx)
    (hfit : ∀ q ∈ reqs, ∀ ents, idx[q.did.toNat]? = some ents → ∀ p ∈ q.pairs ents, p.Fits)
    {found : List (List SearchRet)} (h : reqs.mapM (exactSearch idx) = .ok found) (place : MpiOffset → ℕ) :
    ∀ b ∈ allocZbufs place [] found.flatten, b.Whole := by
  refine allocZbufs_whole ?_ []
  intro r hr
  obtain ⟨rs, hrs, hr⟩ := List.mem_flatten.mp hr
  obtain ⟨q, hq, hqrs⟩ := Lib.mem_of_mapM_ok h hrs
  exact exactSearch_whole (hrank q hq) (hfit q hq) hqrs r hr

/-- **A flush of reads has the value of every number** if and only if the numbers fit. -/
theorem readExact_iff_fits {rest : ReadRest} {idx : ArrayIdx} {reqs : List ReadReq}
    (hrank : ∀ q ∈ reqs, q.Ranked idx) : ReadExact rest idx reqs ↔ ReadFits rest idx reqs := by
  have hsearch : (∀ q ∈ reqs, idx.search q = exactSearch idx q) ↔
      ∀ q ∈ reqs, ∀ ents, idx[q.did.toNat]? = some ents → ∀ p ∈ q.pairs ents, p.Fits :=
    forall₂_congr fun q hq => search_exact_iff (hrank q hq)
  have htypes (hexact : ∀ q ∈ reqs, idx.search q = exactSearch idx q) :
      (∀ found, reqs.mapM idx.search = .ok found → TypesExact rest.std (allocZbufs rest.place [] found.flatten)) ↔
        ∀ found, reqs.mapM (exactSearch idx) = .ok found →
          TypesFit rest.std (allocZbufs rest.place [] found.flatten) := by
    rw [Lib.mapM_congr hexact]
    exact forall₂_congr fun found hfound => typesExact_iff (found_whole hrank (hsearch.mp hexact) hfound rest.place)
  constructor
  · intro h
    exact ⟨hsearch.mp h.search, (htypes h.search).mp h.types⟩
  · intro h
    exact ⟨hsearch.mpr h.search, (htypes (hsearch.mpr h.search)).mpr h.types⟩

/-- **Reads whose numbers fit go through.** -/
theorem performRead_ok {rest : ReadRest} {idx : ArrayIdx} {mem : UserMem} {reqs : List QueuedRead}
    (hrank : ∀ q ∈ reqs, (q.wanted mem).Ranked idx) (hfit : ReadFits rest idx (reqs.map (·.wanted mem)))
    (file buf : Store) : ∃ buf', performRead rest idx file mem reqs buf = .ok buf' := by
  have hrank := List.forall_mem_map.mpr hrank
  have hexact := (readExact_iff_fits hrank).mpr hfit
  have hopen : ∀ q ∈ reqs.map (·.wanted mem), ∃ rs, idx.search q = .ok rs ∧ True := by
    intro q hq
    obtain ⟨ents, hents, -⟩ := hrank q hq
    exact ⟨_, search_eq hents, trivial⟩
  obtain ⟨found, hfound, -⟩ := Lib.exists_mapM_ok hopen
  have hfound' := hfound
  rw [Lib.mapM_congr hexact.search] at hfound'
  have hwhole := found_whole hrank hfit.search hfound' rest.place
  obtain ⟨p, hp⟩ := readiGenRtypes_ok hwhole (hfit.types found hfound')
  rw [List.mapM_map] at hfound
  have hfound : (reqs.mapM fun q => idx.search (q.wanted mem)) = .ok found := hfound
  rw [performRead, hfound, Lib.ok_bind]
  simp only [hp]
  exact ⟨_, rfl⟩

/-- **What a flush of reads has to do**: have the value of every number, or fail with an error. -/
def ReadMeets (rest : ReadRest) (idx : ArrayIdx) (file : Store) (mem : UserMem) (reqs : List QueuedRead)
    (buf : Store) : Prop :=
  ReadExact rest idx (reqs.map (·.wanted mem)) ∨
    ∃ e, performRead rest idx file mem reqs buf = .error (.raised e)

def sampleRest : ReadRest := ⟨stableSort, fun _ => 0, fun _ buf => buf, fun _ buf => buf⟩

theorem twoBytesBlocks_rank : ∀ b ∈ [(⟨[0], [2]⟩ : Block)], b.start.length = 1 ∧ b.count.length = 1 := by decide

theorem twoBytesBlocks_length : [(⟨[0], [2]⟩ : Block)].length < 2 ^ 31 := by decide

def twoBytesSels : Selections := ⟨1, [⟨[0], [2]⟩], twoBytesBlocks_rank, twoBytesBlocks_length⟩

/-- A read of the two bytes of `twoBytes`. -/
def twoBytesRead : QueuedRead := ⟨0, twoBytesDset, .own twoBytesSels, ⟨2, 1, none, none, none⟩, 1000, 1000⟩

theorem twoBytesRead_ranked (mem : UserMem) : (twoBytesRead.wanted mem).Ranked [[twoBytes]] := by
  refine ⟨[twoBytes], rfl, ?_⟩
  intro p hp
  obtain rfl := List.mem_singleton.mp hp
  exact ⟨⟨rfl, rfl⟩, ⟨rfl, rfl⟩⟩

/-- What should be found: the two bytes. -/
def twoBytesFound : SearchRet := ⟨twoBytesDset, [2], [0], [2], [0], [2], 2, 0, 1000, 100, 2⟩

theorem twoBytesRead_found (mem : UserMem) :
    exactSearch [[twoBytes]] (twoBytesRead.wanted mem) = .ok [twoBytesFound] := rfl

theorem twoBytesFound_fits : GroupFits [⟨twoBytesFound, none⟩] := by
  show Intersec.exactLen ⟨twoBytesFound, none⟩ < 2 ^ 31
  decide

theorem twoBytesRead_fits (mem : UserMem) :
    ReadFits sampleRest [[twoBytes]] ([twoBytesRead].map (·.wanted mem)) := by
  refine ⟨?_, ?_⟩
  · intro q hq ents hents p hp
    obtain rfl := List.mem_singleton.mp hq
    obtain rfl := Option.some.inj hents
    obtain rfl := List.mem_singleton.mp hp
    have hfit : Block.FitsInt ⟨[0], [2]⟩ := by simp
    exact fun _ => ⟨hfit, hfit, Nat.two_pow_pos 64⟩
  · intro found hfound
    rw [List.map_singleton, List.mapM_cons, twoBytesRead_found] at hfound
    obtain rfl := Except.ok.inj hfound
    refine ⟨?_, by decide⟩
    intro g hg
    obtain rfl := List.mem_singleton.mp hg
    exact twoBytesFound_fits

/-- 2^32 + 1 bytes in a row. -/
def longBlocks : List Block := [⟨[0], [4294967297]⟩]

theorem longBlocks_rank : ∀ b ∈ longBlocks, b.start.length = 1 ∧ b.count.length = 1 := by decide

theorem longBlocks_length : longBlocks.length < 2 ^ 31 := by decide

def longSels : Selections := ⟨1, longBlocks, longBlocks_rank, longBlocks_length⟩

theorem longDset_rank : [4294967297].length ≤ maxRank := by decide

theorem longDset_mdims : [4294967297].length = [4294967297].length := rfl

theorem longDset_dsteps : [1].length = [4294967297].length := rfl

def longDset : DsetInfo :=
  DsetInfo.plain 1 [4294967297] [4294967297] [1] longDset_rank longDset_mdims longDset_dsteps

/-- An entry of the whole dataset. -/
def longEntry : MetaEntry where
  hdr := ⟨0, 0, 0, 100, 4294967297⟩
  sels := [⟨[0], [4294967297], 0⟩]
  dsize := 4294967297

/-- A read of the whole dataset. -/
def longRead : QueuedRead := ⟨0, longDset, .own longSels, ⟨4294967297, 1, none, none, none⟩, 1000, 1000⟩

theorem longRead_ranked (mem : UserMem) : (longRead.wanted mem).Ranked [[longEntry]] := by
  refine ⟨[longEntry], rfl, ?_⟩
  intro p hp
  obtain rfl := List.mem_singleton.mp hp
  exact ⟨⟨rfl, rfl⟩, ⟨rfl, rfl⟩⟩

/-- What is found: one byte. -/
def longFound : SearchRet := ⟨longDset, [1], [0], [1], [0], [1], 4294967297, 0, 1000, 100, 4294967297⟩

theorem cordInt_long : cordInt 4294967297 = 1 := by decide

theorem cordInt_zero : cordInt (0 - 0) = 0 := by decide

theorem intersect_long : intersect [0] [4294967297] [0] [4294967297] = some ([0], [4294967297]) := by decide

theorem longRead_found (mem : UserMem) :
    ArrayIdx.search [[longEntry]] (longRead.wanted mem) = .ok [longFound] := by
  have hsel : searchSel (longRead.wanted mem) ⟨[0], [4294967297]⟩ 1000 longEntry ⟨[0], [4294967297], 0⟩ =
      some longFound := by
    rw [searchSel, intersect_long, Option.map_some]
    simp only [List.map_cons, List.map_nil, List.zipWith_cons_cons, List.zipWith_nil_left, cordInt_long,
      cordInt_zero]
    rfl
  show Except.ok ([searchSel (longRead.wanted mem) ⟨[0], [4294967297]⟩ 1000 longEntry
    ⟨[0], [4294967297], 0⟩].filterMap id ++ []) = _
  rw [hsel]
  rfl

end LogVol
