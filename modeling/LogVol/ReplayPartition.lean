/-
# LogVol.ReplayPartition — whether the processes of a replay divide the metadata.

`Partitioned` says that every process parses its part, and that the entries all processes insert are those
of the dataset, each once. With at least as many sections as processes each process takes a run of whole
sections, and they do. With more processes than sections a process takes one section, several processes
take the same, and all of them insert the same entries of it: `start` is a byte offset where the source
uses it as the number of the section, and `off`, which should tell the processes apart, is overwritten
when `end` is read.
-/
import LogVol.ReplayDivide

namespace LogVol

open Lib (cut)

variable {z : Option Zlib} {share : Bool} {dsets : List DsetInfo}

/-! ## §1 — which entries a process of one section takes. -/

theorem pick_sublist (off stride j : I32) (xs : PlacedEntries) : (pick off stride j xs).Sublist xs := by
  induction xs generalizing j with
  | nil => exact List.Sublist.refl _
  | cons x xs ih =>
      rw [pick]
      split
      · exact (ih (j + 1)).cons_cons x
      · exact (ih (j + 1)).cons x

theorem srem_unit {stride : I32} (h : stride = 1 ∨ stride = -1) (j : I32) : (j.srem stride == 0) = true := by
  have hzero : j.srem stride = 0 := by
    apply BitVec.eq_of_toInt_eq
    rw [BitVec.toInt_srem]
    rcases h with rfl | rfl
    · exact Int.tmod_one _
    · show j.toInt.tmod (-1) = 0
      rw [Int.tmod_neg, Int.tmod_one]
  rw [hzero]
  rfl

theorem pick_unit {stride : I32} (h : stride = 1 ∨ stride = -1) (off j : I32) (xs : PlacedEntries) :
    pick off stride j xs = xs := by
  induction xs generalizing j with
  | nil => rfl
  | cons x xs ih => rw [pick, if_pos (srem_unit h _), ih]

/-- The strides that divide the number of the second entry. -/
theorem srem_one {stride : I32} (h : ((1 : I32).srem stride == 0) = true) : stride = 1 ∨ stride = -1 := by
  have hzero : ((1 : I32).srem stride).toInt = 0 := by
    rw [beq_iff_eq.mp h]
    rfl
  rw [BitVec.toInt_srem] at hzero
  have hdvd : stride.toInt ∣ 1 := Int.dvd_of_tmod_eq_zero hzero
  rcases Int.isUnit_iff.mp (isUnit_of_dvd_one hdvd) with hone | hone
  · left
    apply BitVec.eq_of_toInt_eq
    rw [hone]
    rfl
  · right
    apply BitVec.eq_of_toInt_eq
    rw [hone]
    rfl

/-- A process takes all entries of its section when there is one, or when its stride is a unit. -/
theorem pick_eq_self_iff {stride : I32} {xs : PlacedEntries} (hxs : xs ≠ []) :
    pick 0 stride 0 xs = xs ↔ xs.length = 1 ∨ stride = 1 ∨ stride = -1 := by
  have hfirst : (((0 : I32) - 0).srem stride == 0) = true := by
    show ((0 : I32).srem stride == 0) = true
    rw [zero_srem]
    rfl
  constructor
  · intro hall
    rcases xs with _ | ⟨x, _ | ⟨y, ys⟩⟩
    · exact absurd rfl hxs
    · exact Or.inl rfl
    · right
      apply srem_one
      by_contra hmiss
      have hsecond : ¬ (((0 : I32) + 1 - 0).srem stride == 0) = true := hmiss
      rw [pick, if_pos hfirst, pick, if_neg hsecond] at hall
      have hlen := congrArg List.length hall
      have hsub := (pick_sublist 0 stride (0 + 1 + 1) ys).length_le
      simp only [List.length_cons] at hlen
      omega
  · rintro (hone | hunit)
    · obtain ⟨x, rfl⟩ := List.length_eq_one_iff.mp hone
      rw [pick, if_pos hfirst, pick]
    · exact pick_unit hunit 0 0 xs

theorem taken_sublist (share : Bool) (stride : I32) (xs : PlacedEntries) :
    (taken share stride xs).Sublist xs := by
  unfold taken
  split
  · exact pick_sublist 0 stride 0 xs
  · exact List.Sublist.refl xs

theorem taken_nil (share : Bool) (stride : I32) : taken share stride [] = [] :=
  List.sublist_nil.mp (taken_sublist share stride [])

theorem taken_eq_self_iff {share : Bool} {stride : I32} {xs : PlacedEntries} (hxs : xs ≠ []) :
    taken share stride xs = xs ↔ (share = true → xs.length = 1 ∨ stride = 1 ∨ stride = -1) := by
  rcases share with _ | _
  · simp [taken]
  · simp only [taken, if_true, forall_const]
    exact pick_eq_self_iff hxs

/-! ## §2 — the division. -/

namespace MetaDset

variable (D : MetaDset (listParser z) share (dsets.map some)) {r np : Nat} {config : I32}

/-- Where every dataset is open, no entry comes out of no request only. -/
theorem placeEntries_eq_nil {p pos : Int} {c : BlockCache} {rs : List WReq} {os : List (Option MetaEntry)}
    (h : Parses (listParser z) share (dsets.map some) p c rs os) (hnil : placeEntries pos rs os = []) :
    rs = [] := by
  rcases rs with _ | ⟨r, rs⟩
  · rfl
  · obtain ⟨_, e, os, -, -, -, -, rfl⟩ := h.first
    rw [placeEntries, Option.toList_some, List.map_singleton] at hnil
    cases hnil

theorem runOf_eq_nil (hr : r < np) (hn : 0 < D.nsec) (h : D.runOf np r = []) :
    D.secStart (D.firstSec np r) = D.secStart (D.endSec np r) := by
  have hle := D.firstSec_le_endSec np r
  have hrun := D.placeEntries_run hle (D.endSec_le hr hn)
  rw [← runOf, h] at hrun
  have hsecs := placeEntries_eq_nil (D.run_holds (D.firstSec np r) (D.endSec np r)) hrun
  have hsub := D.secStart_sub hle
  rw [hsecs] at hsub
  have hmono := D.secStart_mono hle
  have hzero : D.secStart (D.endSec np r) - D.secStart (D.firstSec np r) = 0 := hsub
  omega

/-- What a process returns when no bound is cut. -/
theorem parseMetaDset_small (hconfig : hasFlag config FileConfig.metadataShare = share) (hr : r < np)
    (hnp : np < 2 ^ 31) (hn : 0 < D.nsec) (hsmall : D.secStart (D.endSec np r) < 2 ^ 31)
    (xs : PlacedEntries) :
    parseMetaDset z config dsets (BitVec.ofNat 32 r) (BitVec.ofNat 32 np) D.content = .ok xs ↔
      xs = taken share (D.strideAt np (D.firstSec np r)) (D.runOf np r) ∧
        (D.runOf np r ≠ [] → D.strideAt np (D.firstSec np r) ≠ 0) := by
  by_cases hrun : D.runOf np r = []
  · rw [D.parseMetaDset_empty hr hnp hn (D.runOf_eq_nil hr hn hrun), hrun, taken_nil, Except.ok.injEq]
    simp [eq_comm]
  · by_cases hstride : D.strideAt np (D.firstSec np r) = 0
    · rw [D.parseMetaDset_trap hconfig hr hnp hn hsmall hstride hrun]
      constructor
      · intro h
        cases h
      · rintro ⟨-, h⟩
        exact absurd hstride (h hrun)
    · rw [D.parseMetaDset_run hconfig hr hnp hn hsmall hstride, Except.ok.injEq]
      constructor
      · intro h
        exact ⟨h.symm, fun _ => hstride⟩
      · rintro ⟨h, -⟩
        exact h.symm

/-- **The processes divide the metadata**: each of them returns, and the entries they insert are the
entries of the dataset, every one inserted by one process, once. -/
def Partitioned (config : I32) (np : Nat) : Prop :=
  ∃ ins : Nat → PlacedEntries,
    (∀ r < np, parseMetaDset z config dsets (BitVec.ofNat 32 r) (BitVec.ofNat 32 np) D.content =
      .ok (ins r)) ∧
    ((List.range np).flatMap ins).Perm D.allPlaced

/-- Section `k` is read by one process only. -/
def Sole (np k : Nat) : Prop := ∃! r, r < np ∧ r * D.nsec / np = k

/-- The entries of section `k` are inserted once: one process reads it, which can divide by its stride, and
with metadata sharing the stride skips none of them. -/
def CarriedOnce (np k : Nat) : Prop :=
  D.Sole np k ∧ D.strideAt np k ≠ 0 ∧
    (share = true → (D.placed k).length = 1 ∨ D.strideAt np k = 1 ∨ D.strideAt np k = -1)

theorem partitioned_congr {P : Nat → PlacedEntries → Prop} {took : Nat → PlacedEntries}
    {Q : Nat → Prop} (h : ∀ r < np, ∀ xs, P r xs ↔ xs = took r ∧ Q r) (all : PlacedEntries) :
    (∃ ins : Nat → PlacedEntries, (∀ r < np, P r (ins r)) ∧ ((List.range np).flatMap ins).Perm all) ↔
      (∀ r < np, Q r) ∧ ((List.range np).flatMap took).Perm all := by
  have hsame {ins : Nat → PlacedEntries} (hins : ∀ r < np, ins r = took r) :
      (List.range np).flatMap ins = (List.range np).flatMap took := by
    rw [List.flatMap_def, List.flatMap_def]
    congr 1
    exact List.map_congr_left fun r hr => hins r (List.mem_range.mp hr)
  constructor
  · rintro ⟨ins, hins, hperm⟩
    rw [hsame fun r hr => ((h r hr _).mp (hins r hr)).1] at hperm
    exact ⟨fun r hr => ((h r hr _).mp (hins r hr)).2, hperm⟩
  · rintro ⟨hq, hperm⟩
    exact ⟨took, fun r hr => (h r hr _).mpr ⟨rfl, hq r hr⟩, hperm⟩

/-- A process of one section reads that section. -/
theorem runOf_eq_placed (hr : r < np) (hn : 0 < D.nsec) (hmany : ¬ np ≤ D.nsec) :
    D.runOf np r = D.placed (D.firstSec np r) := by
  have hk := D.firstSec_lt hr hn
  have hend : D.endSec np r = D.firstSec np r + 1 := by rw [endSec, if_neg hmany, firstSec]
  have hslice : ((List.range D.nsec).take (D.firstSec np r + 1)).drop (D.firstSec np r) =
      [D.firstSec np r] := by
    rw [List.take_add_one, List.getElem?_range hk, List.drop_append, List.length_take,
      List.length_range, Nat.min_eq_left (by omega), Nat.sub_self, List.drop_of_length_le (by simp)]
    rfl
  rw [runOf, hend, hslice, List.flatMap_singleton]

/-- At least as many sections as processes: the runs are all sections. -/
theorem flatMap_runOf (hnp : 0 < np) (hfew : np ≤ D.nsec) :
    (List.range np).flatMap (D.runOf np) = D.allPlaced := by
  have hslices := Lib.flatMap_slices (List.range D.nsec) (Lib.cut_zero D.nsec np)
    (Lib.cut_le_succ D.nsec np) np
  rw [Lib.cut_self hnp, List.take_of_length_le (by simp)] at hslices
  rw [allPlaced, ← hslices, List.flatMap_assoc]
  congr 1
  funext r
  rw [runOf, endSec, if_pos hfew, firstSec]

/-- The division, when no bound is cut. -/
theorem partitioned_small (hconfig : hasFlag config FileConfig.metadataShare = share) (hpos : 0 < np)
    (hnp : np < 2 ^ 31) (hn : 0 < D.nsec) (hsmall : D.content.length < 2 ^ 31) :
    D.Partitioned config np ↔
      np ≤ D.nsec ∨ ∀ k < D.nsec, D.placed k ≠ [] → D.CarriedOnce np k := by
  have hend (r : Nat) (hr : r < np) : D.secStart (D.endSec np r) < 2 ^ 31 := by
    have := D.secStart_mono (D.endSec_le hr hn)
    rw [← content_length] at this
    omega
  unfold Partitioned
  rw [partitioned_congr (fun r hr => D.parseMetaDset_small hconfig hr hnp hn (hend r hr)) D.allPlaced]
  by_cases hfew : np ≤ D.nsec
  · -- Sections enough: the stride is 1, and a process takes what it reads.
    have hone (k : Nat) : D.strideAt np k = 1 := by rw [strideAt, if_pos hfew]
    have htaken : (fun r => taken share (D.strideAt np (D.firstSec np r)) (D.runOf np r)) = D.runOf np := by
      funext r
      by_cases hrun : D.runOf np r = []
      · rw [hrun, taken_nil]
      · rw [hone]
        exact (taken_eq_self_iff hrun).mpr fun _ => Or.inr (Or.inl rfl)
    simp only [hfew, true_or, iff_true]
    refine ⟨fun r _ _ => ?_, ?_⟩
    · rw [hone]
      decide
    · rw [htaken, D.flatMap_runOf hpos hfew]
  · -- Fewer sections than processes: each process reads one, and some read the same one.
    have hpart : ∀ r < np, D.firstSec np r < D.nsec := fun r hr => D.firstSec_lt hr hn
    have htook : (List.range np).flatMap (fun r => taken share (D.strideAt np (D.firstSec np r))
        (D.runOf np r)) = (List.range np).flatMap fun r =>
          (fun k => taken share (D.strideAt np k) (D.placed k)) (D.firstSec np r) := by
      rw [List.flatMap_def, List.flatMap_def]
      congr 1
      apply List.map_congr_left
      intro r hr
      rw [D.runOf_eq_placed (List.mem_range.mp hr) hn hfew]
    -- A perfect division assigns every section that has entries to just one process, as a whole.
    have hassigned := Lib.assigned_perm_iff hpart D.allPlaced_nodup
      fun k _ => taken_sublist share (D.strideAt np k) (D.placed k)
    rw [htook, allPlaced, hassigned]
    simp only [hfew, false_or]
    constructor
    · rintro ⟨hstride, hall⟩ k hk hne
      obtain ⟨huniq, htaken⟩ := hall k hk hne
      refine ⟨huniq, ?_, (taken_eq_self_iff hne).mp htaken⟩
      obtain ⟨r, ⟨hr, rfl⟩, -⟩ := huniq
      exact hstride r hr (by rw [D.runOf_eq_placed hr hn hfew]; exact hne)
    · intro hall
      refine ⟨fun r hr hne => ?_, fun k hk hne => ?_⟩
      · rw [D.runOf_eq_placed hr hn hfew] at hne
        exact (hall _ (hpart r hr) hne).2.1
      · obtain ⟨huniq, -, hshare⟩ := hall k hk hne
        exact ⟨huniq, (taken_eq_self_iff hne).mpr hshare⟩

/-! ## §3 — bounds that are cut, and strides. -/

/-- An entry a process inserts lies before the end it read, as an `int`. -/
theorem parseMetaDset_bounds (hr : r < np) (hnp : np < 2 ^ 31) (hn : 0 < D.nsec) {xs : PlacedEntries}
    (h : parseMetaDset z config dsets (BitVec.ofNat 32 r) (BitVec.ofNat 32 np) D.content = .ok xs)
    {x : Int × MetaEntry} (hx : x ∈ xs) : x.1 < (D.secOf np r).end_.toInt := by
  rw [D.parseMetaDset_eq hr hnp hn] at h
  obtain ⟨buf, hbuf, h⟩ := Lib.bind_eq_ok.mp h
  have hbound : x.1 < (D.secOf np r).start.toInt + buf.length ∧ buf ≠ [] := by
    have hmem : x ∈ ([] : PlacedEntries) ∨ (D.secOf np r).start.toInt ≤ x.1 ∧
        x.1 < (D.secOf np r).start.toInt + buf.length := by
      split at h
      · exact sharedLoop_bounds h hx
      · exact plainLoop_bounds h hx
    rcases hmem with hmem | ⟨hlo, hhi⟩
    · exact absurd hmem List.not_mem_nil
    · refine ⟨hhi, ?_⟩
      rintro rfl
      rw [List.length_nil] at hhi
      omega
  obtain ⟨hlt, hne⟩ := hbound
  have hsize : D.content.length < 2 ^ 63 := D.size_lt
  unfold readSlab at hbuf
  split at hbuf
  · exact absurd (Except.ok.inj hbuf).symm hne
  · split at hbuf
    · rename_i hfit
      have hlen : buf.length ≤ (D.countOf np r).toNat := by
        rw [← Except.ok.inj hbuf]
        exact List.length_take_le _ _
      -- neither the start nor the size is negative
      have hstart : 0 ≤ (D.secOf np r).start.toInt ∧
          (((D.secOf np r).start.signExtend 64).toNat : Int) = (D.secOf np r).start.toInt := by
        have hext := BitVec.toInt_signExtend_of_le (x := (D.secOf np r).start) (show 32 ≤ 64 by decide)
        rw [BitVec.toInt_eq_toNat_of_lt (by omega)] at hext
        omega
      have hcount : ((D.countOf np r).toNat : Int) =
          (D.secOf np r).end_.toInt - (D.secOf np r).start.toInt := by
        have hlo := BitVec.le_toInt (D.secOf np r).end_
        have hhi := BitVec.toInt_lt (x := (D.secOf np r).end_)
        have hhi' := BitVec.toInt_lt (x := (D.secOf np r).start)
        have hint := BitVec.toInt_ofInt (n := 64)
          ((D.secOf np r).end_.toInt - (D.secOf np r).start.toInt)
        rw [← countOf, BitVec.toInt_eq_toNat_of_lt (by omega),
          Int.bmod_eq_of_le_mul_two (by omega) (by omega)] at hint
        exact hint
      omega
    · cases hbuf

/-- The last entry ends where the dataset does, and no section starts inside it. -/
theorem exists_last (hsome : D.allPlaced ≠ []) :
    ∃ x ∈ D.allPlaced, 0 ≤ x.1 ∧ (D.content.length : Int) < x.1 + 2 ^ 31 ∧
      ∀ l ≤ D.nsec, x.1 < D.secStart l → D.secStart l = D.content.length := by
  have hparses := Parses.flatten D.holds 0 []
  have hlen := hparses.length_eq
  rw [allPlaced_eq] at hsome ⊢
  obtain ⟨init, q, hsecs⟩ : ∃ init q, D.secs.flatten = init ++ [q] := by
    rcases List.eq_nil_or_concat D.secs.flatten with hnil | ⟨init, q, h⟩
    · rw [hnil] at hsome
      exact absurd rfl hsome
    · exact ⟨init, q, by rw [h, List.concat_eq_append]⟩
  obtain ⟨einit, e, hheld⟩ : ∃ einit e, D.held.flatten = einit ++ [some e] := by
    rcases List.eq_nil_or_concat D.held.flatten with hnil | ⟨einit, o, h⟩
    · rw [hnil, hsecs, List.length_append] at hlen
      cases hlen
    · rw [List.concat_eq_append] at h
      have hmem : o ∈ D.held.flatten := by
        rw [h]
        exact List.mem_append_right _ (List.mem_singleton.mpr rfl)
      obtain ⟨e, rfl⟩ := Option.isSome_iff_exists.mp (hparses.isSome o hmem)
      exact ⟨einit, e, h⟩
  have hinit : einit.length = init.length := by
    rw [hheld, hsecs, List.length_append, List.length_append] at hlen
    simpa using hlen
  have htotal : D.content.length = D.secStart 0 + (init.flatMap WReq.metaBuf).length + q.metaBuf.length := by
    rw [content_length, secStart, secStart_zero, nsec, List.take_length, hsecs, List.flatMap_append,
      List.length_append, List.flatMap_singleton]
    omega
  have hq : (q.metaBuf.length : Int) = q.hdr.metaSize.toInt :=
    hparses.wellSized q (by rw [hsecs]; exact List.mem_append_right _ (List.mem_singleton.mpr rfl))
  have hqlt : q.hdr.metaSize.toInt < 2 ^ 31 := BitVec.toInt_lt
  refine ⟨((D.secStart 0 : Int) + (init.flatMap WReq.metaBuf).length, e), ?_, by omega, by omega, ?_⟩
  · rw [hsecs, hheld, placeEntries_append hinit]
    exact List.mem_append_right _ (List.mem_singleton.mpr rfl)
  · -- A section that starts behind the last entry has no entries before it left out.
    intro l hl hlt
    have hpre : (D.secs.take l).flatten <+: init ++ [q] := by
      rw [← hsecs]
      exact ⟨(D.secs.drop l).flatten, by rw [← List.flatten_append, List.take_append_drop]⟩
    rcases List.prefix_concat_iff.mp hpre with hall | hpart
    · rw [secStart, hall, htotal, secStart_zero, List.flatMap_append,
        List.length_append, List.flatMap_singleton, Nat.add_assoc]
    · exfalso
      obtain ⟨rest, hrest⟩ := hpart
      have hle : ((D.secs.take l).flatten.flatMap WReq.metaBuf).length ≤
          (init.flatMap WReq.metaBuf).length := by
        rw [← hrest, List.flatMap_append, List.length_append]
        exact Nat.le_add_right _ _
      have hstart : D.secStart l = D.secStart 0 +
          ((D.secs.take l).flatten.flatMap WReq.metaBuf).length := by
        rw [secStart_zero, secStart]
      rw [hstart] at hlt
      push_cast at hlt
      omega

/-- A dataset whose end does not fit an `int` is not divided. -/
theorem content_lt_of_partitioned (hnp : np < 2 ^ 31) (hn : 0 < D.nsec) (hsome : D.allPlaced ≠ [])
    (h : D.Partitioned config np) : D.content.length < 2 ^ 31 := by
  obtain ⟨ins, hins, hperm⟩ := h
  obtain ⟨x, hx, hpos, hlast, hstarts⟩ := D.exists_last hsome
  obtain ⟨r, hr, hxr⟩ := List.mem_flatMap.mp (hperm.mem_iff.mpr hx)
  have hr := List.mem_range.mp hr
  have hlt := D.parseMetaDset_bounds hr hnp hn (hins r hr) hxr
  have hle := D.secStart_mono (D.endSec_le hr hn)
  rw [← content_length] at hle
  have hend : (D.secOf np r).end_.toInt < 2 ^ 31 := BitVec.toInt_lt
  -- the end of the process' last section is below `2 ^ 32`, so as an `int` it is itself or negative
  have hself : D.secStart (D.endSec np r) < 2 ^ 31 := by
    by_contra hbig
    have hneg : (D.secOf np r).end_.toInt < 0 := by
      rw [secOf, BitVec.toInt_ofNat']
      rw [Int.bmod_def]
      split <;> omega
    omega
  rw [secOf, toInt_ofNat_of_lt hself] at hlt
  have heq := hstarts _ (D.endSec_le hr hn) hlt
  omega

/-- A section that one process reads: there are fewer than twice as many processes as sections. -/
theorem sole_lt (hn : 0 < D.nsec) {k : Nat} (hk : k < D.nsec) (hsole : D.Sole np k) : np < 2 * D.nsec := by
  by_contra hge
  obtain ⟨r, -, huniq⟩ := hsole
  have hround := Nat.div_add_mod (k * np + D.nsec - 1) D.nsec
  have hmod := Nat.mod_lt (k * np + D.nsec - 1) hn
  have hreads (q : Nat) (hlo : k * np ≤ q * D.nsec) (hhi : q * D.nsec < (k + 1) * np) : q = r := by
    refine huniq q ⟨?_, (Lib.cut_eq_iff (m := D.nsec) (by omega)).mpr ⟨hlo, hhi⟩⟩
    have hall : (k + 1) * np ≤ D.nsec * np := Nat.mul_le_mul_right np hk
    have hcomm : D.nsec * np = np * D.nsec := Nat.mul_comm _ _
    exact Nat.lt_of_mul_lt_mul_right (a := D.nsec) (by omega)
  have hsucc : (k + 1) * np = k * np + np := Nat.succ_mul k np
  have hcomm := Nat.mul_comm D.nsec ((k * np + D.nsec - 1) / D.nsec)
  have hstep : ((k * np + D.nsec - 1) / D.nsec + 1) * D.nsec =
      (k * np + D.nsec - 1) / D.nsec * D.nsec + D.nsec := Nat.succ_mul _ _
  -- the first process at or behind the start of the section's share, and the one after it
  have hfirst := hreads ((k * np + D.nsec - 1) / D.nsec) (by omega) (by omega)
  have hsecond := hreads ((k * np + D.nsec - 1) / D.nsec + 1) (by omega) (by omega)
  omega

/-- The stride in natural numbers, when the products fit 64 bits. -/
theorem strideOf_eq {np n a : Nat} (hpos : 0 < np) (hnp : np < 2 ^ 31) (hn : n < 2 ^ 64)
    (hfit : np * (a + 1) < 2 ^ 64) :
    strideOf (BitVec.ofNat 32 np) (BitVec.ofNat 64 n) (BitVec.ofNat 64 a) =
      (if np * (a + 1) % n = 0 then BitVec.ofNat 32 (np * (a + 1) / n) - 1
        else BitVec.ofNat 32 (np * (a + 1) / n)) -
      (if np * a % n = 0 then BitVec.ofNat 32 (np * a / n) + 1 else BitVec.ofNat 32 (np * a / n)) + 1 := by
  have hword (b : Nat) (hb : b < 2 ^ 64) : (BitVec.ofNat 64 b).toNat = b := by
    rw [BitVec.toNat_ofNat, Nat.mod_eq_of_lt hb]
  have hle (b : Nat) : b ≤ np * b := Nat.le_mul_of_pos_left b hpos
  have hsucc : np * (a + 1) = np * a + np := Nat.mul_succ np a
  have hle₁ := hle a
  have hle₂ := hle (a + 1)
  have hshare (b : Nat) (hb : np * b < 2 ^ 64) (hb' : b ≤ np * b) :
      (BitVec.ofNat 32 np).signExtend 64 * BitVec.ofNat 64 b = BitVec.ofNat 64 (np * b) := by
    apply BitVec.eq_of_toNat_eq
    rw [BitVec.toNat_mul, toNat_extend_int hnp, hword b (by omega), hword _ hb, Nat.mod_eq_of_lt hb]
  have hquot (b : Nat) (hb : b < 2 ^ 64) :
      ((BitVec.ofNat 64 b).udiv (BitVec.ofNat 64 n)).setWidth 32 = BitVec.ofNat 32 (b / n) := by
    have hdiv : (BitVec.ofNat 64 b).udiv (BitVec.ofNat 64 n) = BitVec.ofNat 64 (b / n) := by
      apply BitVec.eq_of_toNat_eq
      rw [hword _ (Nat.lt_of_le_of_lt (Nat.div_le_self _ _) hb)]
      show (BitVec.ofNat 64 b / BitVec.ofNat 64 n).toNat = _
      rw [BitVec.toNat_udiv, hword b hb, hword n hn]
    rw [hdiv, setWidth_ofNat]
  have hrem (b : Nat) (hb : b < 2 ^ 64) :
      (BitVec.ofNat 64 b).umod (BitVec.ofNat 64 n) = 0 ↔ b % n = 0 := by
    rw [← BitVec.toNat_inj]
    show (BitVec.ofNat 64 b % BitVec.ofNat 64 n).toNat = 0 ↔ _
    rw [BitVec.toNat_umod, hword b hb, hword n hn]
  have hnext : BitVec.ofNat 64 a + 1 = BitVec.ofNat 64 (a + 1) := (BitVec.ofNat_add a 1).symm
  rw [strideOf, firstRank, lastRank, hnext, hshare _ (by omega) hle₁, hshare _ (by omega) hle₂]
  simp only [hquot _ (show np * a < 2 ^ 64 by omega), hquot _ hfit,
    hrem _ (show np * a < 2 ^ 64 by omega), hrem _ hfit]

/-- **The stride of a section that one process reads**, when the products fit 64 bits: it is never zero,
and it is a unit exactly when the byte offset of the section's map entry, times the number of processes,
is a multiple of the number of sections. -/
theorem strideAt_sole (hnp : np < 2 ^ 31) (hmany : D.nsec < np) (hfit : 8 * np * D.nsec < 2 ^ 64) {k : Nat}
    (hk : k < D.nsec) (hsole : D.Sole np k) :
    D.strideAt np k ≠ 0 ∧
      ((D.strideAt np k = 1 ∨ D.strideAt np k = -1) ↔ D.nsec ∣ np * (sizeofOffset * k)) := by
  have hn : 0 < D.nsec := by omega
  have hfew := D.sole_lt hn hk hsole
  have hprod : np * (sizeofOffset * k + 1) ≤ 8 * np * D.nsec := by
    calc np * (sizeofOffset * k + 1) ≤ np * (8 * D.nsec) :=
          Nat.mul_le_mul_left np (by rw [sizeofOffset]; omega)
      _ = 8 * np * D.nsec := by ring
  rw [strideAt, if_neg (by omega), strideOf_eq (by omega) hnp (by omega) (by omega),
    Nat.dvd_iff_mod_eq_zero, Nat.mul_succ]
  have hdiv := Nat.div_add_mod (np * (sizeofOffset * k)) D.nsec
  have hmod := Nat.mod_lt (np * (sizeofOffset * k)) hn
  generalize np * (sizeofOffset * k) = share at *
  generalize share / D.nsec = q at *
  generalize share % D.nsec = rem at *
  -- The last section ends in the quotient of the share, plus as many as the remainder carries over.
  have hsplit (c s : Nat) (hs : s < D.nsec) (hsum : rem + np = c * D.nsec + s) :
      (share + np) / D.nsec = q + c ∧ (share + np) % D.nsec = s := by
    have heq : share + np = s + (q + c) * D.nsec := by
      rw [← hdiv, Nat.add_mul, Nat.mul_comm D.nsec q]
      omega
    rw [heq, Nat.add_mul_div_right _ _ hn, Nat.add_mul_mod_self_right, Nat.div_eq_of_lt hs,
      Nat.mod_eq_of_lt hs, Nat.zero_add]
    exact ⟨rfl, rfl⟩
  have hplain (x c : I32) : x + c - x + 1 = c + 1 := by ring
  have hafter (x c : I32) : x + c - (x + 1) + 1 = c := by ring
  have hbefore (x c : I32) : x + c - 1 - x + 1 = c := by ring
  -- A process that is alone with its section has a share of no more than two sections and a bit.
  rcases Nat.lt_trichotomy (rem + np) (2 * D.nsec) with hlt | heq | hgt
  · obtain ⟨hdq, hdm⟩ := hsplit 1 (rem + np - D.nsec) (by omega) (by omega)
    rw [hdq, hdm, if_neg (by omega), BitVec.ofNat_add]
    by_cases hzero : rem = 0
    · rw [if_pos hzero, hafter]
      exact ⟨by decide, iff_of_true (Or.inl rfl) hzero⟩
    · rw [if_neg hzero, hplain]
      exact ⟨by decide, iff_of_false (by decide) hzero⟩
  · obtain ⟨hdq, hdm⟩ := hsplit 2 0 hn (by omega)
    rw [hdq, hdm, if_pos rfl, if_neg (by omega), BitVec.ofNat_add, hbefore]
    exact ⟨by decide, iff_of_false (by decide) (by omega)⟩
  · obtain ⟨hdq, hdm⟩ := hsplit 2 (rem + np - 2 * D.nsec) (by omega) (by omega)
    rw [hdq, hdm, if_neg (by omega), if_neg (by omega), BitVec.ofNat_add, hplain]
    exact ⟨by decide, iff_of_false (by decide) (by omega)⟩

/-! ## §4 — the work division. -/

/-- A dataset without sections is read as one without entries. -/
theorem parseMetaDset_noSections (hn : D.nsec = 0) :
    parseMetaDset z config dsets (BitVec.ofNat 32 r) (BitVec.ofNat 32 np) D.content = .ok [] := by
  unfold parseMetaDset
  rw [D.readMapWord_zero, hn, Lib.ok_bind]
  rfl

/-- Nothing to divide: every process returns, wherever the empty sections lie. -/
theorem partitioned_empty (hnp : np < 2 ^ 31) (hnone : D.allPlaced = []) : D.Partitioned config np := by
  refine ⟨fun _ => [], fun r hr => ?_, ?_⟩
  · rcases Nat.eq_zero_or_pos D.nsec with hn | hn
    · exact D.parseMetaDset_noSections hn
    · apply D.parseMetaDset_empty hr hnp hn
      apply D.runOf_eq_nil hr hn
      have hsub : ∀ k ∈ ((List.range D.nsec).take (D.endSec np r)).drop (D.firstSec np r),
          D.placed k = [] := fun k hk =>
        List.flatMap_eq_nil_iff.mp hnone k (List.mem_of_mem_take (List.mem_of_mem_drop hk))
      exact List.flatMap_eq_nil_iff.mpr hsub
  · rw [hnone, List.flatMap_eq_nil_iff.mpr fun _ _ => rfl]

/-- The division of one dataset. -/
theorem partitioned_iff_carried (hconfig : hasFlag config FileConfig.metadataShare = share) (hpos : 0 < np)
    (hnp : np < 2 ^ 31) :
    D.Partitioned config np ↔
      D.allPlaced = [] ∨ D.content.length < 2 ^ 31 ∧
        (np ≤ D.nsec ∨ ∀ k < D.nsec, D.placed k ≠ [] → D.CarriedOnce np k) := by
  by_cases hnone : D.allPlaced = []
  · exact iff_of_true (D.partitioned_empty hnp hnone) (Or.inl hnone)
  · have hn : 0 < D.nsec := by
      by_contra hzero
      apply hnone
      rw [allPlaced, Nat.eq_zero_of_not_pos hzero]
      rfl
    rw [or_iff_right hnone]
    constructor
    · intro h
      have hsmall := D.content_lt_of_partitioned hnp hn hnone h
      exact ⟨hsmall, (D.partitioned_small hconfig hpos hnp hn hsmall).mp h⟩
    · rintro ⟨hsmall, h⟩
      exact (D.partitioned_small hconfig hpos hnp hn hsmall).mpr h

end MetaDset

/-- **The processes divide the metadata of a file**: `parse_meta` returns on each of them, and of every
metadata dataset the entries they insert are its entries, every one inserted by one process, once. -/
def ParsedOnce (config : I32) (np : Nat) (Ds : List (MetaDset (listParser z) share (dsets.map some))) : Prop :=
  ∃ ins : Nat → List PlacedEntries,
    (∀ r < np, parseMeta z config dsets (BitVec.ofNat 32 r) (BitVec.ofNat 32 np)
      (Ds.map MetaDset.content) = .ok (ins r)) ∧
    ∀ i (hi : i < Ds.length), ((List.range np).flatMap fun r => (ins r).getD i []).Perm (Ds[i]).allPlaced

/-- The datasets are divided one by one. -/
theorem parsedOnce_iff_partitioned {config : I32} {np : Nat}
    {Ds : List (MetaDset (listParser z) share (dsets.map some))} :
    ParsedOnce config np Ds ↔ ∀ D ∈ Ds, D.Partitioned config np := by
  constructor
  · rintro ⟨ins, hins, hperm⟩ D hD
    obtain ⟨i, hi, rfl⟩ := List.getElem_of_mem hD
    refine ⟨fun r => (ins r).getD i [], fun r hr => ?_, hperm i hi⟩
    have hall := Lib.mapM_eq_ok_iff.mp (hins r hr)
    rw [List.forall₂_map_left_iff] at hall
    have hi' : i < (ins r).length := by
      rw [← hall.length_eq]
      exact hi
    show _ = Except.ok ((ins r).getD i [])
    rw [List.getD_eq_getElem _ _ hi']
    exact (List.forall₂_iff_get.mp hall).2 i hi hi'
  · -- What the processes insert of each dataset is put together into one list for each process.
    intro h
    have hparts : ∀ i : Fin Ds.length, (Ds[i]).Partitioned config np := fun i =>
      h _ (List.getElem_mem i.isLt)
    choose ins hins hperm using hparts
    refine ⟨fun r => List.ofFn fun i => ins i r, fun r hr => ?_, fun i hi => ?_⟩
    · apply Lib.mapM_eq_ok_iff.mpr
      rw [List.forall₂_map_left_iff, List.forall₂_iff_get]
      refine ⟨(List.length_ofFn ..).symm, fun i hi _ => ?_⟩
      rw [List.get_ofFn]
      exact hins ⟨i, hi⟩ r hr
    · have hget : (fun r => (List.ofFn fun j => ins j r).getD i []) = ins ⟨i, hi⟩ := by
        funext r
        rw [List.getD_eq_getElem _ _ (by rw [List.length_ofFn]; exact hi), List.getElem_ofFn]
      rw [hget]
      exact hperm ⟨i, hi⟩

/-- **Work division of a replay.** The processes divide the metadata exactly when each metadata dataset
holds no entry, or is shorter than `2 ^ 31` bytes and has as many sections as there are processes or more,
or every section of it with entries is carried once. The second part says which strides skip nothing, for
products that fit 64 bits. -/
theorem parseMeta_parsedOnce_iff {config : I32} {np : Nat} (hpos : 0 < np) (hnp : np < 2 ^ 31)
    (Ds : List (MetaDset (listParser z) (hasFlag config FileConfig.metadataShare) (dsets.map some))) :
    (ParsedOnce config np Ds ↔ ∀ D ∈ Ds,
      D.allPlaced = [] ∨ D.content.length < 2 ^ 31 ∧
        (np ≤ D.nsec ∨ ∀ k < D.nsec, D.placed k ≠ [] → D.CarriedOnce np k)) ∧
    ∀ D ∈ Ds, D.nsec < np → 8 * np * D.nsec < 2 ^ 64 → ∀ k < D.nsec, D.Sole np k →
      D.strideAt np k ≠ 0 ∧
        ((D.strideAt np k = 1 ∨ D.strideAt np k = -1) ↔ D.nsec ∣ np * (sizeofOffset * k)) := by
  refine ⟨?_, fun D _ hmany hfit k hk hsole => D.strideAt_sole hnp hmany hfit hk hsole⟩
  rw [parsedOnce_iff_partitioned]
  exact forall₂_congr fun D _ => D.partitioned_iff_carried rfl hpos hnp

/-- A dataset of one section, of one block written by one process. -/
def oneSection :
    MetaDset (listParser none) (hasFlag 0 FileConfig.metadataShare) ([vectorDset 8].map some) where
  secs := [[blockReq 0 0 2 100 8]]
  held := [[some (blockEntry 0 0 2 100 8)]]
  holds := List.Forall₂.cons (Parses.block 8 rfl Parses.nil) List.Forall₂.nil
  nsec_lt := by decide
  size_lt := by decide

theorem twoSections_hold : List.Forall₂ (SectionHolds (listParser none) (hasFlag 0 FileConfig.metadataShare)
    ([vectorDset 8].map some)) [[blockReq 0 0 2 100 8], [blockReq 0 2 3 108 12, blockReq 0 5 1 120 4]]
    [[some (blockEntry 0 0 2 100 8)], [some (blockEntry 0 2 3 108 12), some (blockEntry 0 5 1 120 4)]] :=
  List.Forall₂.cons (Parses.block 8 rfl Parses.nil)
    (List.Forall₂.cons (Parses.block 8 rfl (Parses.block 8 rfl Parses.nil)) List.Forall₂.nil)

theorem twoSections_size : (metadataDataset ([[blockReq 0 0 2 100 8],
    [blockReq 0 2 3 108 12, blockReq 0 5 1 120 4]].map sectionMeta)).length < 2 ^ 63 := by
  decide +kernel

theorem twoSections_count :
    [[blockReq 0 0 2 100 8], [blockReq 0 2 3 108 12, blockReq 0 5 1 120 4]].length < 2 ^ 31 := by
  decide

/-- A dataset of two sections: of one block, and of two. -/
def twoSections :
    MetaDset (listParser none) (hasFlag 0 FileConfig.metadataShare) ([vectorDset 8].map some) where
  secs := [[blockReq 0 0 2 100 8], [blockReq 0 2 3 108 12, blockReq 0 5 1 120 4]]
  held := [[some (blockEntry 0 0 2 100 8)], [some (blockEntry 0 2 3 108 12), some (blockEntry 0 5 1 120 4)]]
  holds := twoSections_hold
  nsec_lt := twoSections_count
  size_lt := twoSections_size

/-- Two processes take a section each. -/
theorem parsedOnce_twoSections : ParsedOnce 0 2 [twoSections] := by
  apply (parseMeta_parsedOnce_iff (by decide) (by decide) [twoSections]).1.mpr
  intro D hD
  rw [List.mem_singleton.mp hD]
  exact Or.inr ⟨by decide +kernel, Or.inl (by decide)⟩

/-- Two processes: both read the section, and both insert its entry. -/
theorem not_parsedOnce_oneSection : ¬ ParsedOnce 0 2 [oneSection] := by
  rw [parsedOnce_iff_partitioned]
  intro h
  have hone := h oneSection (List.mem_singleton.mpr rfl)
  rw [oneSection.partitioned_small rfl (by decide) (by decide) (by decide) (by decide)] at hone
  rcases hone with hfew | hall
  · exact absurd hfew (by decide)
  · obtain ⟨⟨r, -, huniq⟩, -⟩ := hall 0 (by decide) (by decide)
    have hfirst : 0 = r := huniq 0 (by decide)
    have hsecond : 1 = r := huniq 1 (by decide)
    omega

end LogVol
