/-
# LogVol.ReadOverlap — reads that overlap.

Requests that are flushed together may ask for the same bytes. Of rows that overlap, the first in the order of
the file is read and what it has is copied to the others, after the read. The copies are right where no row ends
inside the row it is copied from, and newer data is not copied over by older data where an element has the same
first reader in the data blocks that have it. Then a batch reads what was written last, and so a request reads in
a batch what it reads alone (`reads_independent`).
-/
import LogVol.ReadNewest

namespace LogVol

open Lib (Box Move Store BeginsInOrder CarriesFirst trimAll)

/-! ## §1 — the copies of a group. -/

/-- A byte at `s` is copied to `d`. -/
def CopyCtx.Copies (c : CopyCtx) (s d : ℤ) : Prop := ∃ i, 0 ≤ i ∧ i < c.size ∧ s = c.src + i ∧ d = c.dst + i

/-- **No row ends inside**: the first row that reaches as far as another one ends with it. -/
def NoneInside (ms : List Move) : Prop :=
  ∀ pre l post, ms = pre ++ l :: post → 0 < l.len →
    ∀ k, (pre.find? fun k => l.stop ≤ k.stop) = some k → k.stop = l.stop

theorem NoneInside.head {k : Move} {ms : List Move} (h : NoneInside (k :: ms)) {l : Move} (hl : l ∈ ms)
    (hpos : 0 < l.len) : k.stop ≤ l.stop := by
  obtain ⟨pre, post, rfl⟩ := List.append_of_mem hl
  by_contra hlt
  have hk : ((k :: pre).find? fun k => l.stop ≤ k.stop) = some k :=
    List.find?_cons_of_pos (by simpa using (not_le.mp hlt).le)
  exact hlt (h (k :: pre) l post rfl hpos k hk).le

/-- Nor does one after the first is cut off. -/
theorem NoneInside.trim {k : Move} {ms : List Move} (hlen : ∀ l ∈ ms, 0 ≤ l.len) (h : NoneInside (k :: ms)) :
    NoneInside (ms.map k.trim) := by
  intro pre' l' post' heq hpos k' hk'
  obtain ⟨pre, rest, rfl, rfl, hrest⟩ := List.map_eq_append_iff.mp heq
  obtain ⟨l, post, rfl, rfl, rfl⟩ := List.map_eq_cons_iff.mp hrest
  have hl := hlen l (List.mem_append_right _ (List.mem_cons_self ..))
  rw [List.find?_map] at hk'
  obtain ⟨m, hm, rfl⟩ := Option.map_eq_some_iff.mp hk'
  rw [Lib.trim_stop, Lib.trim_stop]
  have hm : (pre.find? fun m => l.stop ≤ m.stop) = some m := by
    rw [← hm]
    congr 1
    funext m
    simp only [Function.comp, Lib.trim_stop]
  -- `k` does not reach the end of what is left of `l`
  have hreach : k.stop < l.stop := by
    by_contra hge
    unfold Move.trim at hpos
    unfold Move.stop at hge
    split at hpos
    · unfold Move.stop at hpos
      dsimp only at hpos
      omega
    · rename_i hbehind
      unfold Move.stop at hbehind
      omega
  refine h (k :: pre) l post rfl (lt_of_lt_of_le hpos (Lib.trim_len hl).2) m ?_
  rw [List.find?_cons_of_neg (by simpa using hreach)]
  exact hm

/-- What is copied for a row is what the former row has there. -/
theorem copyRow_copies {k l : Move} (hk : Counted k) (hl : Counted l) (hbegin : 0 < l.len → k.src ≤ l.src)
    (hend : 0 < l.len → k.stop ≤ l.stop) {s d : ℤ} :
    (∃ c, copyRow k l = some c ∧ c.Copies s d) ↔ ∃ x, k.Carries x s ∧ l.Carries x d := by
  have hsize := overlapSize_eq hk hl hbegin
  obtain ⟨hl₀, -⟩ := hl
  unfold copyRow CopyCtx.Copies Move.Carries Move.Takes
  by_cases hlt : l.src < k.stop
  · rw [if_pos hlt, hsize hlt]
    unfold Move.stop at *
    constructor
    · rintro ⟨c, hc, i, hi, hin, rfl, rfl⟩
      obtain rfl := Option.some.inj hc
      dsimp only at hin ⊢
      exact ⟨l.src + i, by omega, by omega⟩
    · rintro ⟨x, ⟨hkx, rfl⟩, hlx, rfl⟩
      refine ⟨_, rfl, x - l.src, ?_⟩
      dsimp only
      omega
  · rw [if_neg hlt]
    constructor
    · rintro ⟨c, hc, -⟩
      cases hc
    · rintro ⟨x, ⟨hkx, -⟩, hlx, -⟩
      omega

/-- **The copies of a group**: what is copied to a place is what the row it belongs to would have read, and whatever
a row does not read itself is copied to it. -/
theorem copiesOf_copies {ms : List Move} (hcounted : ∀ m ∈ ms, Counted m) (hbegin : BeginsInOrder ms)
    (hinside : NoneInside ms) :
    (∀ c ∈ copiesOf ms, ∀ s d, c.Copies s d → ∃ x, CarriesFirst ms x s ∧ ∃ l ∈ ms, l.Carries x d) ∧
      ∀ l ∈ ms, ∀ x d, l.Carries x d →
        CarriesFirst ms x d ∨ ∃ c ∈ copiesOf ms, ∃ s, c.Copies s d ∧ CarriesFirst ms x s := by
  induction ms using Lib.trimAll_induction with
  | nil =>
    rw [copiesOf]
    exact ⟨fun c hc => absurd hc List.not_mem_nil, fun l hl => absurd hl List.not_mem_nil⟩
  | cons k ms ih =>
    obtain ⟨hk, hcounted⟩ := List.forall_mem_cons.mp hcounted
    obtain ⟨hfirst, hbegin⟩ := List.pairwise_cons.mp hbegin
    have hlen : ∀ l ∈ ms, 0 ≤ l.len := fun l hl => (hcounted l hl).1
    have hmap : ms.map (trimRow k) = ms.map k.trim :=
      List.map_congr_left fun l hl => trimRow_eq hk (hcounted l hl) (hfirst l hl)
    have hcopied {l : Move} (hl : l ∈ ms) (s d : ℤ) :=
      @copyRow_copies k l hk (hcounted l hl) (hfirst l hl) (hinside.head hl) s d
    have htrim : ∀ {x d : ℤ}, CarriesFirst (ms.map k.trim) x d → CarriesFirst (k :: ms) x d := by
      intro x d hx
      exact Lib.carriesFirst_cons.mpr (Or.inr ((Lib.carriesFirst_trim hlen hfirst).mp hx))
    obtain ⟨hsound, hcomplete⟩ := ih (List.forall_mem_map.mpr fun l hl => counted_trim (hcounted l hl))
      (Lib.beginsInOrder_trim hlen hbegin) (hinside.trim hlen)
    rw [copiesOf_cons, hmap]
    constructor
    · intro c hc s d hsd
      rcases List.mem_append.mp hc with hc | hc
      · obtain ⟨l, hl, hkl⟩ := List.mem_filterMap.mp hc
        obtain ⟨x, hx, hlx⟩ := (hcopied hl s d).mp ⟨c, hkl, hsd⟩
        exact ⟨x, Lib.carriesFirst_cons.mpr (Or.inl hx), l, List.mem_cons_of_mem k hl, hlx⟩
      · obtain ⟨x, hx, l', hl', hlx⟩ := hsound c hc s d hsd
        obtain ⟨l, hl, rfl⟩ := List.mem_map.mp hl'
        have hlx := ((Lib.trim_carries_iff (hfirst l hl) (hlen l hl)).mp hlx).1
        exact ⟨x, htrim hx, l, List.mem_cons_of_mem k hl, hlx⟩
    · intro l hl x d hx
      rcases List.mem_cons.mp hl with rfl | hl
      · exact Or.inl (Lib.carriesFirst_cons.mpr (Or.inl hx))
      · by_cases hkx : k.Takes x
        · -- `k` has the byte: it is copied to `l`
          have hks : k.Carries x (k.dst + (x - k.src)) := ⟨hkx, rfl⟩
          obtain ⟨c, hc, hsd⟩ := (hcopied hl _ d).mpr ⟨x, hks, hx⟩
          exact Or.inr ⟨c, List.mem_append_left _ (List.mem_filterMap.mpr ⟨l, hl, hc⟩), _, hsd,
            Lib.carriesFirst_cons.mpr (Or.inl hks)⟩
        · have hlx := (Lib.trim_carries_iff (hfirst l hl) (hlen l hl)).mpr ⟨hx, hkx⟩
          rcases hcomplete (k.trim l) (List.mem_map_of_mem hl) x d hlx with hx | ⟨c, hc, s, hsd, hs⟩
          · exact Or.inl (htrim hx)
          · exact Or.inr ⟨c, List.mem_append_right _ hc, s, hsd, htrim hs⟩

/-! ## §2 — a group. -/

/-- The pieces that a group is read in, in the order of the file. -/
def groupPieces : List Intersec → List Move
  | [b] => b.single.toOption.getD []
  | bs => sortoffsets (bs.flatMap fun b => b.rows.toOption.getD [])

theorem groupPieces_many {a b : Intersec} {g : List Intersec} {rows : List (List Move)}
    (h : (a :: b :: g).mapM Intersec.rows = .ok rows) :
    groupPieces (a :: b :: g) = sortoffsets rows.flatten := by
  have hrows : ∀ {bs : List Intersec} {rows : List (List Move)},
      List.Forall₂ (fun b ms => b.rows = .ok ms) bs rows →
        (bs.flatMap fun b => b.rows.toOption.getD []) = rows.flatten := by
    intro bs rows hall
    induction hall with
    | nil => rfl
    | cons hb _ ih =>
      rw [List.flatMap_cons, List.flatten_cons, ih, hb]
      rfl
  rw [groupPieces, hrows (Lib.mapM_eq_ok_iff.mp h)]
  exact fun c hc => by cases hc

/-- What a group is read with: direct reads, which go where the first reader of a byte has it, and copies of
these. -/
structure GroupReads (g : List Intersec) (runs : List Move) (copies : List CopyCtx) : Prop where
  nonneg : ∀ m ∈ runs, 0 ≤ m.len
  first : ∀ x d, (∃ m ∈ runs, m.Carries x d) ↔ CarriesFirst (groupPieces g) x d
  reads : ∀ x d, CarriesFirst (groupPieces g) x d → ∃ b ∈ g, b.Reads x d
  copied : ∀ c ∈ copies, ∀ s d, c.Copies s d → ∃ x, CarriesFirst (groupPieces g) x s ∧ ∃ b ∈ g, b.Reads x d
  all : ∀ b ∈ g, ∀ x d, b.Reads x d →
    CarriesFirst (groupPieces g) x d ∨ ∃ c ∈ copies, ∃ s, c.Copies s d ∧ CarriesFirst (groupPieces g) x s

/-- **A group whose rows do not end inside each other.** -/
theorem genGroup_reads {g : List Intersec} (hne : g ≠ []) (h : ∀ b ∈ g, b.Placed ∧ b.zbuf = none)
    (hfit : GroupFits g) (hinside : NoneInside (groupPieces g)) :
    ∃ runs copies, genGroup g = .ok (runs, copies) ∧ GroupReads g runs copies := by
  rcases g with _ | ⟨a, _ | ⟨b, g⟩⟩
  · exact absurd rfl hne
  · -- A single result is read as it is, without a copy.
    obtain ⟨ha, hz⟩ := h a (List.mem_singleton_self a)
    have hes : a.exactLen < 2 ^ 31 := hfit
    rw [Intersec.exactLen, hz] at hes
    obtain ⟨ms, hms, horder, hlen, hcarries⟩ := Intersec.single_reads ha (Int.ofNat_lt.mp hes) hz
    have hpieces : groupPieces [a] = ms := by
      rw [groupPieces, hms]
      rfl
    have hfirst (x d : ℤ) : CarriesFirst ms x d ↔ a.Reads x d := by
      rw [← horder.carriesFirst, hcarries]
    refine ⟨ms, [], ?_, fun m hm => (hlen m hm).le, ?_, ?_, ?_, ?_⟩
    · rw [genGroup, hms]
      rfl
    · intro x d
      rw [hpieces, hfirst, hcarries]
    · intro x d hx
      rw [hpieces, hfirst] at hx
      exact ⟨a, List.mem_singleton_self a, hx⟩
    · exact fun c hc => absurd hc List.not_mem_nil
    · intro b hb x d hx
      obtain rfl := List.mem_singleton.mp hb
      rw [hpieces, hfirst]
      exact Or.inl hx
  · have hfit : ∀ c ∈ a :: b :: g, c.info.ndim ≠ 0 ∧ c.exactRowLen < 2 ^ 31 ∧ c.exactNrow < 2 ^ 31 := hfit
    obtain ⟨rows, hrows, hspec⟩ := groupRows fun c hc => ⟨(h c hc).1, (hfit c hc).1, (hfit c hc).2.1⟩
    have hpieces := groupPieces_many hrows
    rw [hpieces] at hinside
    obtain ⟨hperm, hsorted⟩ := sortoffsets_spec rows.flatten
    have hcounted : ∀ m ∈ sortoffsets rows.flatten, Counted m := fun m hm => hspec.counted m (hperm.mem_iff.mp hm)
    have hlen : ∀ m ∈ sortoffsets rows.flatten, 0 ≤ m.len := fun m hm => (hcounted m hm).1
    -- Sorted rows that do not end inside each other: a trim cuts what the next one has.
    have hbegin := beginsInOrder_of_sorted hsorted
    obtain ⟨hcopied, hall⟩ := copiesOf_copies hcounted hbegin hinside
    have hreads (x d : ℤ) : (∃ l ∈ sortoffsets rows.flatten, l.Carries x d) ↔ ∃ c ∈ a :: b :: g, c.Reads x d := by
      simp only [hperm.mem_iff, hspec.carries]
    refine ⟨trimRows (sortoffsets rows.flatten), copiesOf (sortoffsets rows.flatten), ?_, ?_, ?_, ?_, ?_, ?_⟩
    · rw [genGroup_many, hrows]
      rfl
    · rw [trimRows_eq hcounted hbegin]
      exact Lib.trimAll_len hlen
    · intro x d
      rw [trimRows_eq hcounted hbegin, hpieces]
      exact Lib.trimAll_carries hlen hbegin
    · intro x d hx
      rw [hpieces] at hx
      exact (hreads x d).mp hx.exists_carries
    · intro c hc s d hsd
      rw [hpieces]
      obtain ⟨x, hx, hl⟩ := hcopied c hc s d hsd
      exact ⟨x, hx, (hreads x d).mp hl⟩
    · intro c hc x d hx
      rw [hpieces]
      obtain ⟨l, hl, hlx⟩ := (hreads x d).mpr ⟨c, hc, hx⟩
      exact hall l hl x d hlx

/-! ## §3 — the types. -/

/-- The first reader of the byte at `x` of the file, in a group, has it at `d`. -/
def ReadsFirst (g : List Intersec) (x d : ℤ) : Prop := CarriesFirst (groupPieces g) x d

/-- **Results that may overlap**: no row ends inside the row it is copied from, and where a byte of memory is read
from two data blocks, it has the same first reader in both. -/
structure Untangled (std : BlockSort) (bs : List Intersec) : Prop where
  ends : ∀ g ∈ splitGroups (std.sort bs), NoneInside (groupPieces g)
  readers : ∀ g ∈ splitGroups (std.sort bs), ∀ g' ∈ splitGroups (std.sort bs), ∀ a ∈ g, ∀ b ∈ g',
    a.pos ≠ b.pos → ∀ x y d u v, a.Reads x d → b.Reads y d → ReadsFirst g x u → ReadsFirst g' y v → u = v

/-- What the types read, and what the copies do. -/
structure TypesRead (std : BlockSort) (bs : List Intersec) (runs : List Move) (copies : List CopyCtx) : Prop where
  lastWins : LastWins runs
  first : ∀ x d, (∃ m ∈ runs, m.Carries x d) ↔ ∃ g ∈ splitGroups (std.sort bs), ReadsFirst g x d
  reads : ∀ g ∈ splitGroups (std.sort bs), ∀ x d, ReadsFirst g x d → ∃ b ∈ g, b.Reads x d
  copied : ∀ c ∈ copies, ∀ s d, c.Copies s d →
    ∃ g ∈ splitGroups (std.sort bs), ∃ x, ReadsFirst g x s ∧ ∃ b ∈ g, b.Reads x d
  all : ∀ g ∈ splitGroups (std.sort bs), ∀ b ∈ g, ∀ x d, b.Reads x d →
    ReadsFirst g x d ∨ ∃ c ∈ copies, ∃ s, c.Copies s d ∧ ReadsFirst g x s

theorem TypesRead.carries {std : BlockSort} {bs : List Intersec} {runs : List Move} {copies : List CopyCtx}
    (h : TypesRead std bs runs copies) : ∀ x d, (∃ m ∈ runs, m.Carries x d) → ∃ b ∈ bs, b.Reads x d := by
  intro x d hx
  obtain ⟨g, hg, hx⟩ := (h.first x d).mp hx
  obtain ⟨b, hb, hx⟩ := h.reads g hg x d hx
  exact ⟨b, mem_of_group hg b hb, hx⟩

theorem readiGenRtypes_reads {std : BlockSort} {bs : List Intersec} (h : ∀ b ∈ bs, b.Placed ∧ b.zbuf = none)
    (hfit : TypesFit std bs) (hends : ∀ g ∈ splitGroups (std.sort bs), NoneInside (groupPieces g))
    (horder : InBlockOrder bs) :
    ∃ runs copies, readiGenRtypes std bs = .ok (runs, copies) ∧ TypesRead std bs runs copies := by
  have hgroup : ∀ g ∈ splitGroups (std.sort bs), ∃ p, genGroup g = .ok p ∧ GroupReads g p.1 p.2 := by
    intro g hg
    obtain ⟨runs, copies, hok, hreads⟩ := genGroup_reads (splitGroups_oneBlock _ g hg).nonempty
      (fun b hb => h b (mem_of_group hg b hb)) (hfit.groups g hg) (hends g hg)
    exact ⟨(runs, copies), hok, hreads⟩
  obtain ⟨parts, hparts, hspec⟩ := Lib.exists_mapM_ok hgroup
  have hruns := flatMap_runs hparts
  -- the part of every group
  have hpart : ∀ p ∈ parts, ∃ g ∈ splitGroups (std.sort bs), GroupReads g p.1 p.2 := by
    intro p hp
    obtain ⟨g, hg, hgp⟩ := Lib.mem_of_mapM_ok hparts hp
    obtain ⟨p', hp', hreads⟩ := hgroup g hg
    obtain rfl := Except.ok.inj (hgp.symm.trans hp')
    exact ⟨g, hg, hreads⟩
  have hof : ∀ g ∈ splitGroups (std.sort bs), ∃ p ∈ parts, groupRuns g = p.1 ∧ GroupReads g p.1 p.2 := by
    intro g hg
    obtain ⟨p, hp, hgp⟩ := Lib.forall₂_mem_left (Lib.mapM_eq_ok_iff.mp hparts) hg
    obtain ⟨p', hp', hreads⟩ := hgroup g hg
    obtain rfl := Except.ok.inj (hgp.symm.trans hp')
    exact ⟨p, hp, groupRuns_eq hgp, hreads⟩
  have hlen : ∀ m ∈ parts.flatMap Prod.fst, 0 ≤ m.len := by
    intro m hm
    obtain ⟨p, hp, hm⟩ := List.mem_flatMap.mp hm
    obtain ⟨g, -, hreads⟩ := hpart p hp
    exact hreads.nonneg m hm
  refine ⟨parts.flatMap Prod.fst, parts.flatMap Prod.snd, ?_, ?_, ?_, ?_, ?_, ?_⟩
  · rw [readiGenRtypes, hparts, Lib.ok_bind]
    exact if_pos hlen
  · rw [hruns]
    refine lastWins_groups horder ?_
    intro g hg m hm x d hx
    obtain ⟨p, -, hgp, hreads⟩ := hof g hg
    rw [hgp] at hm
    exact hreads.reads x d ((hreads.first x d).mp ⟨m, hm, hx⟩)
  · intro x d
    constructor
    · rintro ⟨m, hm, hx⟩
      obtain ⟨p, hp, hm⟩ := List.mem_flatMap.mp hm
      obtain ⟨g, hg, hreads⟩ := hpart p hp
      exact ⟨g, hg, (hreads.first x d).mp ⟨m, hm, hx⟩⟩
    · rintro ⟨g, hg, hx⟩
      obtain ⟨p, hp, -, hreads⟩ := hof g hg
      obtain ⟨m, hm, hx⟩ := (hreads.first x d).mpr hx
      exact ⟨m, List.mem_flatMap.mpr ⟨p, hp, hm⟩, hx⟩
  · intro g hg x d hx
    obtain ⟨p, -, -, hreads⟩ := hof g hg
    exact hreads.reads x d hx
  · intro c hc s d hsd
    obtain ⟨p, hp, hc⟩ := List.mem_flatMap.mp hc
    obtain ⟨g, hg, hreads⟩ := hpart p hp
    obtain ⟨x, hx, hb⟩ := hreads.copied c hc s d hsd
    exact ⟨g, hg, x, hx, hb⟩
  · intro g hg b hb x d hx
    obtain ⟨p, hp, -, hreads⟩ := hof g hg
    rcases hreads.all b hb x d hx with hfirst | ⟨c, hc, s, hsd, hs⟩
    · exact Or.inl hfirst
    · exact Or.inr ⟨c, List.mem_flatMap.mpr ⟨p, hp, hc⟩, s, hsd, hs⟩

/-! ## §4 — memory after the copies. -/

theorem scatter_cases (ms : List (ℕ × ℕ)) (src dst : Store) (a : ℕ) :
    (scatter ms src dst a = dst a ∧ ∀ m ∈ ms, m.1 ≠ a) ∨ ∃ m ∈ ms, m.1 = a ∧ scatter ms src dst a = src m.2 := by
  induction ms generalizing dst with
  | nil => exact Or.inl ⟨rfl, fun m hm => absurd hm List.not_mem_nil⟩
  | cons n ms ih =>
    rcases ih (Function.update dst n.1 (src n.2)) with ⟨hval, hnone⟩ | ⟨m, hm, hma, hval⟩
    · by_cases hn : n.1 = a
      · refine Or.inr ⟨n, List.mem_cons_self .., hn, ?_⟩
        rw [← hn] at hval ⊢
        exact hval.trans (Function.update_self ..)
      · refine Or.inl ⟨hval.trans (Function.update_of_ne (Ne.symm hn) ..), ?_⟩
        exact List.forall_mem_cons.mpr ⟨hn, hnone⟩
    · exact Or.inr ⟨m, List.mem_cons_of_mem n hm, hma, hval⟩

theorem mem_copyBytes {c : CopyCtx} (hc : 0 < c.size → 0 ≤ c.src ∧ 0 ≤ c.dst) {d s : ℕ} :
    (d, s) ∈ runBytes c.dst c.src c.size ↔ c.Copies s d := by
  rw [@mem_runBytes ⟨c.src, c.dst, c.size⟩ hc]
  unfold Move.Carries Move.Takes Move.stop CopyCtx.Copies
  constructor
  · rintro ⟨⟨hlo, hhi⟩, hd⟩
    dsimp only at hlo hhi hd
    exact ⟨s - c.src, by omega⟩
  · rintro ⟨i, hi, hin, hs, hd⟩
    dsimp only
    omega

/-- **The copies**: a byte has what is wanted of it where it had that before, and where it is copied from a byte
that has what is wanted of both. -/
theorem copyOverlaps_wanted {copies : List CopyCtx} {Wanted : ℕ → UInt8 → Prop} {direct : ℕ → Prop}
    (hplaces : ∀ c ∈ copies, 0 < c.size → 0 ≤ c.src ∧ 0 ≤ c.dst)
    (hcopies : ∀ c ∈ copies, ∀ s d : ℕ, c.Copies s d → direct s ∧ ∀ w, Wanted d w → Wanted s w) {buf : Store}
    (hbuf : ∀ a w, direct a → Wanted a w → buf a = w) :
    (∀ a w, Wanted a w → buf a = w → copyOverlaps copies buf a = w) ∧
      ∀ c ∈ copies, ∀ s d : ℕ, c.Copies s d → ∀ w, Wanted d w → copyOverlaps copies buf d = w := by
  induction copies generalizing buf with
  | nil => exact ⟨fun a w _ h => h, fun c hc => absurd hc List.not_mem_nil⟩
  | cons c copies ih =>
    obtain ⟨hplace, hplaces⟩ := List.forall_mem_cons.mp hplaces
    obtain ⟨hcopy, hcopies⟩ := List.forall_mem_cons.mp hcopies
    -- one copy
    have hstep : ∀ a w, Wanted a w → (buf a = w ∨ ∃ s : ℕ, c.Copies s a) →
        scatter (runBytes c.dst c.src c.size) buf buf a = w := by
      intro a w hw hor
      rcases scatter_cases (runBytes c.dst c.src c.size) buf buf a with ⟨hval, hnone⟩ | ⟨⟨a, s⟩, hm, rfl, hval⟩
      · rcases hor with hbefore | ⟨s, hs⟩
        · rw [hval, hbefore]
        · exact absurd rfl (hnone (a, s) ((mem_copyBytes hplace).mpr hs))
      · obtain ⟨hs, hws⟩ := hcopy s a ((mem_copyBytes hplace).mp hm)
        rw [hval]
        exact hbuf s w hs (hws w hw)
    obtain ⟨hkeep, hcopied⟩ := ih hplaces hcopies (fun a w ha hw => hstep a w hw (Or.inl (hbuf a w ha hw)))
    refine ⟨fun a w hw ha => hkeep a w hw (hstep a w hw (Or.inl ha)), ?_⟩
    refine List.forall_mem_cons.mpr ⟨?_, hcopied⟩
    intro s d hsd w hw
    exact hkeep d w hw (hstep d w hw (Or.inr ⟨s, hsd⟩))

/-! ## §5 — a batch. -/

/-- Data blocks that have an element in common begin at different places. -/
theorem blocks_pos_ne {info : ℕ → DsetInfo} {writes : List (ℕ × MetaEntry)} (hlog : Log info writes) {did : ℕ}
    {P p : MetaEntry × MetaSel} (hP : P ∈ blocksOf (writtenTo writes did))
    (hp : p ∈ blocksOf (writtenTo writes did)) {y : List ℕ} (hy : y ∈ P.2.block.box.cells)
    (hy' : y ∈ p.2.block.box.cells) (hes : 0 < (info did).esize.toNat) (hne : P ≠ p) :
    dataPos P.1 P.2 ≠ dataPos p.1 p.2 := by
  have hlt := elem_lt hlog hP hy hes
  have hlt' := elem_lt hlog hp hy' hes
  rcases blocks_apart hlog hP hp hne with hend | hend
  · unfold DataBefore at hend
    omega
  · unfold DataBefore at hend
    omega

/-- What is wanted of a byte of memory: the byte of the element that was written last, or what was there. -/
def Wanted (writes : List (ℕ × MetaEntry)) (mem : UserMem) (reqs : List QueuedRead) (file buf : Store) (a : ℕ)
    (w : UInt8) : Prop :=
  ∃ q ∈ reqs, ∃ n y j, (q.elems mem)[n]? = some y ∧ j < q.info.esize.toNat ∧
    a = q.xbuf + (q.info.esize.toNat * n + j) ∧
      w = match newest (writtenTo writes q.did.toNat) y with
        | some p => file (storedAt q.info.esize.toNat p y + j)
        | none => buf a

section Overlap

variable {info : ℕ → DsetInfo} {writes : List (ℕ × MetaEntry)} {idx : ArrayIdx} {mem : UserMem}
  {reqs : List QueuedRead} (hlog : Log info writes) (hidx : IndexHas idx writes reqs)
  (hqueued : Queued info mem reqs)
include hlog hidx hqueued

/-- The same is wanted of two bytes of memory that one byte of the file goes to. -/
theorem wanted_same {a b : Intersec} (ha : a ∈ batchResults idx mem reqs) (hb : b ∈ batchResults idx mem reqs)
    {x : ℤ} {s d : ℕ} (hs : a.Reads x s) (hd : b.Reads x d) {file buf : Store} {w : UInt8}
    (hw : Wanted writes mem reqs file buf d w) : Wanted writes mem reqs file buf s w := by
  obtain ⟨q, hq, n, y, hn, P, hP, -, hy, j, hj, hx, hsq⟩ := batch_reads hlog hidx hqueued ha hs
  obtain ⟨r, hr, m, v, hm, P', hP', -, hv, k, hk, hx', hdr⟩ := batch_reads hlog hidx hqueued hb hd
  have hjq := hj
  have hkr := hk
  rw [hqueued.info_eq q hq] at hj hx
  rw [hqueued.info_eq r hr] at hk hx'
  obtain ⟨hdid, rfl, rfl⟩ := elem_unique hlog hP hP' hy hv hj hk (hx.symm.trans hx')
  have hinfo : q.info = r.info := by rw [hqueued.info_eq q hq, hqueued.info_eq r hr, hdid]
  obtain rfl : j = k := by
    rw [← hdid] at hx'
    omega
  -- what is wanted of `d` is of this element
  obtain ⟨r₂, hr₂, m₂, v₂, k₂, hm₂, hk₂, hd₂, rfl⟩ := hw
  have hlt := (List.getElem?_eq_some_iff.mp hm).1
  have hlt₂ := (List.getElem?_eq_some_iff.mp hm₂).1
  obtain ⟨rfl, rfl, rfl⟩ := batch_place hqueued hr hr₂ hlt hlt₂ hkr hk₂ (Int.ofNat_inj.mp hdr ▸ hd₂)
  obtain rfl := Option.some.inj (hm.symm.trans hm₂)
  refine ⟨q, hq, n, y, j, hn, hjq, Int.ofNat_inj.mp hsq, ?_⟩
  rw [hdid, hinfo]
  cases hnew : newest (writtenTo writes r.did.toNat) y with
  | some p => rfl
  | none => exact absurd hy (newest_none hnew P (hdid ▸ hP))

variable {std : BlockSort} {runs : List Move} {copies : List CopyCtx}
  (htypes : TypesRead std (batchResults idx mem reqs) runs copies)
include htypes

/-- **What is read directly** is what was written last: the newest block is read to the same place. -/
theorem batch_direct (hun : Untangled std (batchResults idx mem reqs)) {a : ℕ}
    (ha : ∃ g ∈ splitGroups (std.sort (batchResults idx mem reqs)), ∃ x, ReadsFirst g x a) {file buf : Store}
    {w : UInt8} (hw : Wanted writes mem reqs file buf a w) : readRuns runs file buf a = w := by
  obtain ⟨g, hg, x, hx⟩ := ha
  obtain ⟨b, hb, hbx⟩ := htypes.reads g hg x a hx
  obtain ⟨q, hq, n, y, j, hn, hj, rfl, rfl⟩ := hw
  obtain ⟨r, hr, m, v, hm, P, hP, hpos, hv, k, hk, hxP, hd⟩ :=
    batch_reads hlog hidx hqueued (mem_of_group hg b hb) hbx
  have hnlt := (List.getElem?_eq_some_iff.mp hn).1
  have hmlt := (List.getElem?_eq_some_iff.mp hm).1
  obtain ⟨rfl, rfl, rfl⟩ := batch_place hqueued hq hr hnlt hmlt hj hk (Int.ofNat_inj.mp hd)
  obtain rfl : y = v := Option.some.inj (hn.symm.trans hm)
  rcases hnew : newest (writtenTo writes q.did.toNat) y with _ | p
  · exact absurd hv (newest_none hnew P hP)
  · obtain ⟨hp, hyp, -⟩ := newest_last hlog hnew
    refine batch_last hlog hidx hqueued htypes.carries hq hn hj htypes.lastWins hnew ?_ file buf
    by_cases hPp : P = p
    · rw [← hPp, ← hxP]
      exact (htypes.first _ _).mpr ⟨g, hg, hx⟩
    · -- the first reader of the newest block has it at the same place
      obtain ⟨b', hb', hpos', hbx'⟩ := batch_read hlog hidx hqueued hq hn hj hp hyp
      obtain ⟨g', hg', hbg'⟩ := mem_groups_iff.mp hb'
      have hes := hqueued.esize_pos q hq
      rw [hqueued.info_eq q hq] at hes
      have hne : b.pos ≠ b'.pos := by
        rw [hpos, hpos']
        exact blocks_pos_ne hlog hP hp hv hyp hes hPp
      have hsame : ∀ v, ReadsFirst g' _ v → (q.xbuf + (q.info.esize.toNat * n + j) : ℕ) = v :=
        fun v hv => hun.readers g hg g' hg' b hb b' hbg' hne _ _ _ _ v hbx hbx' hx hv
      refine (htypes.first _ _).mpr ⟨g', hg', ?_⟩
      rcases htypes.all g' hg' b' hbg' _ _ hbx' with hfirst | ⟨c, -, s, -, hs⟩
      · exact hfirst
      · rw [hsame s hs]
        exact hs

/-- A copy is made of a byte that is read directly, to one that the same is wanted of. -/
theorem batch_copies (file buf : Store) : ∀ c ∈ copies, ∀ s d : ℕ, c.Copies s d →
    (∃ g ∈ splitGroups (std.sort (batchResults idx mem reqs)), ∃ x, ReadsFirst g x s) ∧
      ∀ w, Wanted writes mem reqs file buf d w → Wanted writes mem reqs file buf s w := by
  intro c hc s d hsd
  obtain ⟨g, hg, x, hx, b', hb', hd⟩ := htypes.copied c hc s d hsd
  obtain ⟨b, hb, hs⟩ := htypes.reads g hg x s hx
  refine ⟨⟨g, hg, x, hx⟩, fun w hw => ?_⟩
  exact wanted_same hlog hidx hqueued (mem_of_group hg b hb) (mem_of_group hg b' hb') hs hd hw

theorem batch_copyPlaces : ∀ c ∈ copies, 0 < c.size → 0 ≤ c.src ∧ 0 ≤ c.dst := by
  intro c hc hsize
  obtain ⟨g, hg, x, hx, b', hb', hd⟩ := htypes.copied c hc c.src c.dst ⟨0, le_rfl, hsize, by omega, by omega⟩
  obtain ⟨b, hb, hs⟩ := htypes.reads g hg x c.src hx
  obtain ⟨_, _, _, _, _, _, _, _, _, _, _, _, hs⟩ := batch_reads hlog hidx hqueued (mem_of_group hg b hb) hs
  obtain ⟨_, _, _, _, _, _, _, _, _, _, _, _, hd⟩ := batch_reads hlog hidx hqueued (mem_of_group hg b' hb') hd
  omega

/-- **After the copies**, every byte has what is wanted of it. -/
theorem batch_wanted (hun : Untangled std (batchResults idx mem reqs)) {file buf : Store} {a : ℕ} {w : UInt8}
    (hw : Wanted writes mem reqs file buf a w) : copyOverlaps copies (readRuns runs file buf) a = w := by
  obtain ⟨hkeep, hcopied⟩ := copyOverlaps_wanted (batch_copyPlaces hlog hidx hqueued htypes)
    (batch_copies hlog hidx hqueued htypes file buf)
    fun a w ha hw => batch_direct hlog hidx hqueued htypes hun ha hw
  obtain ⟨q, hq, n, y, j, hn, hj, rfl, hval⟩ := id hw
  rcases hnew : newest (writtenTo writes q.did.toNat) y with _ | p
  · rw [hnew] at hval
    refine hkeep _ w hw ?_
    rw [hval]
    exact batch_untouched hlog hidx hqueued htypes.carries hq hn hj hnew file buf
  · obtain ⟨hp, hy, -⟩ := newest_last hlog hnew
    obtain ⟨b, hb, -, hx⟩ := batch_read hlog hidx hqueued hq hn hj hp hy
    obtain ⟨g, hg, hbg⟩ := mem_groups_iff.mp hb
    rcases htypes.all g hg b hbg _ _ hx with hfirst | ⟨c, hc, s, hsd, hs⟩
    · exact hkeep _ w hw (batch_direct hlog hidx hqueued htypes hun ⟨g, hg, _, hfirst⟩ hw)
    · -- the source of a copy is a place in memory
      obtain ⟨b', hb', hbs⟩ := htypes.reads g hg _ s hs
      obtain ⟨_, _, _, _, _, _, _, _, _, _, _, _, rfl⟩ := batch_reads hlog hidx hqueued (mem_of_group hg b' hb') hbs
      exact hcopied c hc _ _ hsd w hw

end Overlap

/-! ## §6 — the buffers of a batch. -/

/-- `H5VL_log_nb_perform_read` up to the post processing: what the buffers of the requests have. -/
def readBuffers (rest : ReadRest) (idx : ArrayIdx) (file : Store) (mem : UserMem) (reqs : List QueuedRead)
    (buf : Store) : Except Fault Store := do
  let found ← reqs.mapM fun q => idx.search (q.wanted mem)
  let blocks := allocZbufs rest.place [] found.flatten
  let (runs, copies) ← readiGenRtypes rest.std blocks
  pure (rest.unfilter blocks (copyOverlaps copies (readRuns runs file buf)))

theorem performRead_eq (rest : ReadRest) (idx : ArrayIdx) (file : Store) (mem : UserMem) (reqs : List QueuedRead)
    (buf : Store) : performRead rest idx file mem reqs buf =
      (readBuffers rest idx file mem reqs buf).map (reqs.foldl (finishReq rest)) := by
  rw [performRead, readBuffers]
  cases reqs.mapM fun q => idx.search (q.wanted mem) with
  | error e => rfl
  | ok found =>
    simp only [Lib.ok_bind]
    cases readiGenRtypes rest.std (allocZbufs rest.place [] found.flatten) with
    | error e => rfl
    | ok p => rfl

section Buffers

variable {rest : ReadRest}
  (hunfilter : ∀ blocks buf, (∀ b ∈ blocks, b.zbuf = none) → rest.unfilter blocks buf = buf) {info : ℕ → DsetInfo}
  {writes : List (ℕ × MetaEntry)} (hlog : Log info writes) {idx : ArrayIdx} {mem : UserMem} {reqs : List QueuedRead}
  (hidx : IndexHas idx writes reqs) (hqueued : Queued info mem reqs)
  (hfit : ReadFits rest idx (reqs.map (·.wanted mem)))
include hunfilter hlog hidx hqueued hfit

theorem readBuffers_types {runs : List Move} {copies : List CopyCtx}
    (htypes : readiGenRtypes rest.std (batchResults idx mem reqs) = .ok (runs, copies)) (file buf : Store) :
    readBuffers rest idx file mem reqs buf = .ok (copyOverlaps copies (readRuns runs file buf)) := by
  obtain ⟨found, hfound, hblocks, -⟩ := batch_search hlog hidx hqueued hfit
  rw [readBuffers, hfound, Lib.ok_bind]
  simp only [hblocks, htypes, Lib.ok_bind]
  rw [hunfilter _ _ fun b hb => (batch_placed hlog hidx hqueued b hb).2]
  rfl

/-- **A batch of reads that overlap** reads what was written last, and the fill value where nothing was written, if
no row ends inside the row it is copied from and every byte has one first reader. -/
theorem readBuffers_newest (hun : Untangled rest.std (batchResults idx mem reqs)) (file buf : Store) :
    ∃ buf', readBuffers rest idx file mem reqs (reqs.foldl fillBuffer buf) = .ok buf' ∧
      ∀ q ∈ reqs, ∀ n y, (q.elems mem)[n]? = some y → ∀ j < q.info.esize.toNat,
        buf' (q.xbuf + (q.info.esize.toNat * n + j)) =
          match newest (writtenTo writes q.did.toNat) y with
          | some p => file (storedAt q.info.esize.toNat p y + j)
          | none => filled q buf n j := by
  obtain ⟨found, -, -, hnums⟩ := batch_search hlog hidx hqueued hfit
  obtain ⟨runs, copies, hok, htypes⟩ := readiGenRtypes_reads (batch_placed hlog hidx hqueued) hnums hun.ends
    (batch_inBlockOrder hlog hidx hqueued)
  refine ⟨_, readBuffers_types hunfilter hlog hidx hqueued hfit hok file _, ?_⟩
  intro q hq n y hn j hj
  refine batch_wanted hlog hidx hqueued htypes hun ⟨q, hq, n, y, j, hn, hj, rfl, ?_⟩
  cases newest (writtenTo writes q.did.toNat) y with
  | some p => rfl
  | none => exact (fillBuffers_elem hqueued hq (List.getElem?_eq_some_iff.mp hn).1 hj buf).symm

omit hqueued in
/-- Requests that have no element in common read what was written last. -/
theorem readBuffers_disjoint (hbatch : Batch info mem reqs) (file buf : Store) :
    ∃ buf', readBuffers rest idx file mem reqs (reqs.foldl fillBuffer buf) = .ok buf' ∧
      ∀ q ∈ reqs, ∀ n y, (q.elems mem)[n]? = some y → ∀ j < q.info.esize.toNat,
        buf' (q.xbuf + (q.info.esize.toNat * n + j)) =
          match newest (writtenTo writes q.did.toNat) y with
          | some p => file (storedAt q.info.esize.toNat p y + j)
          | none => filled q buf n j := by
  have hqueued := hbatch.queued
  obtain ⟨found, -, -, hnums⟩ := batch_search hlog hidx hqueued hfit
  obtain ⟨runs, hok, hlast, hcarries⟩ := readiGenRtypes_carries (batch_placed hlog hidx hqueued) hnums
    (batch_apart hlog hidx hbatch) (batch_inBlockOrder hlog hidx hqueued)
  refine ⟨_, readBuffers_types hunfilter hlog hidx hqueued hfit hok file _, ?_⟩
  intro q hq n y hn j hj
  show readRuns runs file _ _ = _
  rw [batch_elem hlog hidx hqueued hlast hcarries hq hn hj]
  cases newest (writtenTo writes q.did.toNat) y with
  | some p => rfl
  | none => exact fillBuffers_elem hqueued hq (List.getElem?_eq_some_iff.mp hn).1 hj buf

/-- **A request in a batch** reads what it reads alone, if it asks for no element twice. -/
theorem reads_independent (hun : Untangled rest.std (batchResults idx mem reqs))
    (hnodup : ∀ q ∈ reqs, (q.elems mem).Nodup)
    (hfits : ∀ q ∈ reqs, ReadFits rest idx ([q].map (·.wanted mem))) (file buf : Store) :
    ∃ buf', readBuffers rest idx file mem reqs (reqs.foldl fillBuffer buf) = .ok buf' ∧
      ∀ q ∈ reqs, ∃ alone, readBuffers rest idx file mem [q] (fillBuffer buf q) = .ok alone ∧
        ∀ i < q.info.esize.toNat * (q.elems mem).length, buf' (q.xbuf + i) = alone (q.xbuf + i) := by
  obtain ⟨buf', hbuf', helem⟩ := readBuffers_newest hunfilter hlog hidx hqueued hfit hun file buf
  refine ⟨buf', hbuf', fun q hq => ?_⟩
  have hone : Batch info mem [q] := by
    refine ⟨?_, ?_, ?_, ?_, ?_, ?_, List.pairwise_singleton .., List.pairwise_singleton ..⟩
    · exact List.forall_mem_singleton.mpr (hqueued.info_eq q hq)
    · exact List.forall_mem_singleton.mpr (hqueued.unfiltered q hq)
    · exact List.forall_mem_singleton.mpr (hqueued.rank q hq)
    · exact List.forall_mem_singleton.mpr (hqueued.esize_pos q hq)
    · exact List.forall_mem_singleton.mpr (hqueued.rsize q hq)
    · exact List.forall_mem_singleton.mpr (hnodup q hq)
  have hhas : IndexHas idx writes [q] := List.forall_mem_singleton.mpr (hidx q hq)
  obtain ⟨alone, halone, helem'⟩ := readBuffers_disjoint hunfilter hlog hhas (hfits q hq) hone file buf
  refine ⟨alone, halone, fun i hi => ?_⟩
  -- the byte is one of an element
  have hes := hqueued.esize_pos q hq
  have hn : i / q.info.esize.toNat < (q.elems mem).length := Nat.div_lt_of_lt_mul hi
  have hj := Nat.mod_lt i hes
  have hsum := Nat.div_add_mod i q.info.esize.toNat
  have hget := List.getElem?_eq_getElem hn
  have hbatch := helem q hq _ _ hget _ hj
  have hlone := helem' q (List.mem_singleton_self q) _ _ hget _ hj
  rw [hsum] at hbatch hlone
  rw [hbatch, hlone]

end Buffers

theorem secondBlocks_rank : ∀ b ∈ [(⟨[1], [1]⟩ : Block)], b.start.length = 1 ∧ b.count.length = 1 := by decide

theorem secondBlocks_length : [(⟨[1], [1]⟩ : Block)].length < 2 ^ 31 := by decide

def secondSels : Selections := ⟨1, [⟨[1], [1]⟩], secondBlocks_rank, secondBlocks_length⟩

/-- A read of the second of the two bytes. -/
def secondRead : QueuedRead := ⟨0, twoBytesDset, .own secondSels, ⟨1, 1, none, none, none⟩, 2000, 2000⟩

/-- What is found for the second byte. -/
def secondFound : SearchRet := ⟨twoBytesDset, [2], [1], [1], [0], [1], 2, 0, 2000, 100, 2⟩

theorem secondRead_found (mem : UserMem) :
    exactSearch [[twoBytes]] (secondRead.wanted mem) = .ok [secondFound] := rfl

def bothReads : List QueuedRead := [twoBytesRead, secondRead]

theorem bothReads_results (mem : UserMem) :
    batchResults [[twoBytes]] mem bothReads = [⟨twoBytesFound, none⟩, ⟨secondFound, none⟩] := rfl

theorem bothReads_groups : splitGroups (stableSort.sort [⟨twoBytesFound, none⟩, ⟨secondFound, none⟩]) =
    [[⟨twoBytesFound, none⟩, ⟨secondFound, none⟩]] := rfl

theorem bothReads_pieces : groupPieces [⟨twoBytesFound, none⟩, ⟨secondFound, none⟩] =
    [⟨100, 1000, 2⟩, ⟨101, 2000, 1⟩] := by
  have hrows : [(⟨twoBytesFound, none⟩ : Intersec), ⟨secondFound, none⟩].mapM Intersec.rows =
      .ok [[⟨100, 1000, 2⟩], [⟨101, 2000, 1⟩]] := rfl
  rw [groupPieces_many hrows, sortoffsets]
  rfl

theorem bothReads_untangled (mem : UserMem) : Untangled stableSort (batchResults [[twoBytes]] mem bothReads) := by
  rw [bothReads_results]
  refine ⟨?_, ?_⟩
  · rw [bothReads_groups]
    refine List.forall_mem_singleton.mpr ?_
    rw [bothReads_pieces]
    intro pre l post heq _ k hk
    rcases pre with _ | ⟨a, _ | ⟨b, pre⟩⟩
    · cases hk
    · obtain ⟨rfl, hrest⟩ := List.cons.inj heq
      obtain ⟨rfl, -⟩ := List.cons.inj hrest
      obtain rfl : _ = k := by simpa [Move.stop] using hk
      rfl
    · have hlen := congrArg List.length heq
      simp at hlen
  · rw [bothReads_groups]
    intro g hg g' hg' a ha b hb hne
    obtain rfl := List.mem_singleton.mp hg
    obtain rfl := List.mem_singleton.mp hg'
    have hpos : ∀ c ∈ [(⟨twoBytesFound, none⟩ : Intersec), ⟨secondFound, none⟩], c.pos = 100 := by decide
    exact absurd ((hpos a ha).trans (hpos b hb).symm) hne

theorem secondRead_fits (mem : UserMem) :
    ReadFits sampleRest [[twoBytes]] ([secondRead].map (·.wanted mem)) := by
  refine ⟨?_, ?_⟩
  · intro q hq ents hents p hp
    obtain rfl := List.mem_singleton.mp hq
    obtain rfl := Option.some.inj hents
    obtain rfl := List.mem_singleton.mp hp
    have hwhole : Block.FitsInt ⟨[0], [2]⟩ := by simp
    have hsecond : Block.FitsInt ⟨[1], [1]⟩ := by simp
    exact fun _ => ⟨hwhole, hsecond, Nat.two_pow_pos 64⟩
  · intro found hfound
    rw [List.map_singleton, List.mapM_cons, secondRead_found] at hfound
    obtain rfl := Except.ok.inj hfound
    have hone : Intersec.exactLen ⟨secondFound, none⟩ < 2 ^ 31 := by decide
    refine ⟨?_, by decide⟩
    intro g hg
    obtain rfl := List.mem_singleton.mp hg
    exact hone

theorem bothReads_fits (mem : UserMem) : ReadFits sampleRest [[twoBytes]] (bothReads.map (·.wanted mem)) := by
  refine ⟨?_, ?_⟩
  · intro q hq
    rcases List.mem_pair.mp hq with rfl | rfl
    · exact (twoBytesRead_fits mem).search _ (List.mem_singleton_self _)
    · exact (secondRead_fits mem).search _ (List.mem_singleton_self _)
  · intro found hfound
    rw [bothReads, List.map_cons, List.map_singleton, List.mapM_cons, twoBytesRead_found, List.mapM_cons,
      secondRead_found] at hfound
    obtain rfl := Except.ok.inj hfound
    refine ⟨?_, by decide⟩
    intro g hg
    obtain rfl := List.mem_singleton.mp hg
    have hrows : ∀ c ∈ [(⟨twoBytesFound, none⟩ : Intersec), ⟨secondFound, none⟩],
        c.info.ndim ≠ 0 ∧ c.exactRowLen < 2 ^ 31 ∧ c.exactNrow < 2 ^ 31 := by decide
    exact hrows

theorem twoBytes_log : Log (fun _ => twoBytesDset) [(0, twoBytes)] :=
  ⟨List.forall_mem_singleton.mpr twoBytes_stored, List.pairwise_singleton ..⟩

theorem bothReads_index : IndexHas [[twoBytes]] [(0, twoBytes)] bothReads := by
  intro q hq
  rcases List.mem_pair.mp hq with rfl | rfl <;> exact ⟨_, rfl, List.Perm.refl _⟩

theorem bothReads_queued (mem : UserMem) : Queued (fun _ => twoBytesDset) mem bothReads := by
  refine ⟨?_, ?_, ?_, ?_, ?_, ?_⟩
  · intro q hq
    rcases List.mem_pair.mp hq with rfl | rfl <;> rfl
  · intro q hq
    rcases List.mem_pair.mp hq with rfl | rfl <;> rfl
  · intro q hq
    rcases List.mem_pair.mp hq with rfl | rfl <;> rfl
  · intro q hq
    rcases List.mem_pair.mp hq with rfl | rfl <;> exact Nat.one_pos
  · intro q hq
    rcases List.mem_pair.mp hq with rfl | rfl <;> rfl
  · refine List.pairwise_pair.mpr (Or.inl ?_)
    show 1000 + 2 ≤ 2000
    decide

/-- Both have the second byte: one of them reads it, and it is copied to the other. -/
theorem readBuffers_both : ∃ buf', readBuffers sampleRest [[twoBytes]] (fun a => UInt8.ofNat a) (fun _ => 0)
    bothReads (bothReads.foldl fillBuffer fun _ => 0) = .ok buf' ∧ buf' 1001 = 101 ∧ buf' 2000 = 101 := by
  obtain ⟨buf', hbuf', helem⟩ := @readBuffers_newest sampleRest (fun _ _ _ => rfl) _ _ twoBytes_log _ _ _
    bothReads_index (bothReads_queued _) (bothReads_fits _) (bothReads_untangled _) (fun a => UInt8.ofNat a)
    fun _ => 0
  refine ⟨buf', hbuf', ?_, ?_⟩
  · exact helem twoBytesRead (List.mem_cons_self ..) 1 [1] rfl 0 Nat.one_pos
  · exact helem secondRead (List.mem_cons_of_mem _ (List.mem_singleton_self _)) 0 [1] rfl 0 Nat.one_pos

theorem reads_independent_both : ∃ buf' alone, readBuffers sampleRest [[twoBytes]] (fun a => UInt8.ofNat a)
    (fun _ => 0) bothReads (bothReads.foldl fillBuffer fun _ => 0) = .ok buf' ∧
      readBuffers sampleRest [[twoBytes]] (fun a => UInt8.ofNat a) (fun _ => 0) [secondRead]
        (fillBuffer (fun _ => 0) secondRead) = .ok alone ∧ buf' 2000 = alone 2000 := by
  have hnodup : ∀ q ∈ bothReads, (q.elems fun _ => 0).Nodup := by
    have hboth : [[0], [1]].Nodup ∧ [[1]].Nodup := by decide
    intro q hq
    rcases List.mem_pair.mp hq with rfl | rfl
    · exact hboth.1
    · exact hboth.2
  have hfits : ∀ q ∈ bothReads, ReadFits sampleRest [[twoBytes]] ([q].map (·.wanted fun _ => 0)) := by
    intro q hq
    rcases List.mem_pair.mp hq with rfl | rfl
    · exact twoBytesRead_fits _
    · exact secondRead_fits _
  obtain ⟨buf', hbuf', hreqs⟩ := @reads_independent sampleRest (fun _ _ _ => rfl) _ _ twoBytes_log _ _ _
    bothReads_index (bothReads_queued _) (bothReads_fits _) (bothReads_untangled _) hnodup hfits
    (fun a => UInt8.ofNat a) fun _ => 0
  obtain ⟨alone, halone, hbytes⟩ := hreqs secondRead (List.mem_cons_of_mem _ (List.mem_singleton_self _))
  exact ⟨buf', alone, hbuf', halone, hbytes 0 Nat.one_pos⟩

end LogVol
