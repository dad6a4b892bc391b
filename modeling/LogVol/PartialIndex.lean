/-
# LogVol.PartialIndex — indexing with limited memory agrees with full indexing.

The parts that `partLoop` loads are runs of whole sections, one behind the other (`metaupdatePart_eq`), and
the search of an index finds the same in its parts as in the whole, in another order
(`Indexes.searchAll_append`). Together the two ways of indexing agree for every limit, unless there is a
metadata dataset without sections or no metadata dataset: the loop opens the first one before it looks at
how many there are.
-/
import LogVol.PartLimit

namespace LogVol

variable {E V : Type} {P : EntryParser E V} {share : Bool} {dsets : List (Option DsetInfo)}

/-! ## §1 — searching an index in parts. -/

theorem perm_append_middle {α : Type} (a b c d : List α) :
    (a ++ b ++ (c ++ d)).Perm (a ++ c ++ (b ++ d)) := by
  rw [List.append_assoc, List.append_assoc]
  apply List.Perm.append_left
  rw [← List.append_assoc, ← List.append_assoc]
  exact List.Perm.append_right d List.perm_append_comm

section Entries

variable {searchEnt : Block → Nat → E → Except Fault (List SearchRet)} {req : ReadReq}

theorem searchEntries_nil (soff : HSize) (bs : List Block) :
    searchEntries searchEnt req [] soff bs = .ok [] := by
  induction bs generalizing soff with
  | nil => rfl
  | cons b bs ih =>
      rw [searchEntries, List.mapM_nil]
      simp only [ih, Lib.ok_bind, pure, Except.pure]
      rfl

theorem searchEntries_append {ents ents' : List E} {bs : List Block} {soff : HSize} {res : List SearchRet}
    (h : searchEntries searchEnt req (ents ++ ents') soff bs = .ok res) :
    ∃ r r', searchEntries searchEnt req ents soff bs = .ok r ∧
      searchEntries searchEnt req ents' soff bs = .ok r' ∧ (r ++ r').Perm res := by
  induction bs generalizing soff res with
  | nil =>
      obtain rfl := Except.ok.inj h
      exact ⟨[], [], rfl, rfl, List.Perm.nil⟩
  | cons b bs ih =>
      obtain ⟨found, hfound, h⟩ := Lib.bind_eq_ok.mp h
      obtain ⟨rest, hrest, h⟩ := Lib.bind_eq_ok.mp h
      obtain rfl := Except.ok.inj h
      rw [List.mapM_append] at hfound
      obtain ⟨f, hf, hfound⟩ := Lib.bind_eq_ok.mp hfound
      obtain ⟨f', hf', hfound⟩ := Lib.bind_eq_ok.mp hfound
      obtain rfl := Except.ok.inj hfound
      obtain ⟨r, r', hr, hr', hperm⟩ := ih hrest
      refine ⟨f.flatten ++ r, f'.flatten ++ r', ?_, ?_, ?_⟩
      · rw [searchEntries, hf, Lib.ok_bind, hr]
        rfl
      · rw [searchEntries, hf', Lib.ok_bind, hr']
        rfl
      · rw [List.flatten_append]
        exact (perm_append_middle ..).trans (hperm.append_left _)

end Entries

/-- The index of `n` datasets that has what becomes of the requests `rs`. -/
def idxOf (n : Nat) (rs : List WReq) (os : List (Option E)) : List (List E) :=
  insertAll (List.replicate n []) rs os

theorem getElem?_idxOf (n : Nat) (rs : List WReq) (os : List (Option E)) (i : Nat) :
    (idxOf n rs os)[i]? = if i < n then some (entriesOf i rs os) else none := by
  rw [idxOf, getElem?_insertAll, List.getElem?_replicate]
  split
  · rfl
  · rfl

theorem clearIdx_eq (idx : List (List E)) : clearIdx idx = idxOf idx.length [] [] := by
  rw [clearIdx, List.map_const']
  rfl

@[simp] theorem length_idxOf (n : Nat) (rs : List WReq) (os : List (Option E)) :
    (idxOf n rs os).length = n := by
  rw [idxOf, length_insertAll, List.length_replicate]

theorem insertAll_append (idx : List (List E)) {rs rs' : List WReq} {os os' : List (Option E)}
    (hlen : os.length = rs.length) :
    insertAll (insertAll idx rs os) rs' os' = insertAll idx (rs ++ rs') (os ++ os') := by
  apply List.ext_getElem?
  intro i
  rw [getElem?_insertAll, getElem?_insertAll, getElem?_insertAll, entriesOf_append hlen, Option.map_map]
  congr 1
  funext ents
  exact List.append_assoc ..

namespace Indexes

variable {I : LogIdx E} (hI : Indexes I P share dsets) {n : Nat} {rs rs' : List WReq}
  {os os' : List (Option E)}

include hI

theorem search_append (hlen : os.length = rs.length) {req : ReadReq} {res : List SearchRet}
    (h : I.search (idxOf n (rs ++ rs') (os ++ os')) req = .ok res) :
    ∃ r r', I.search (idxOf n rs os) req = .ok r ∧ I.search (idxOf n rs' os') req = .ok r' ∧
      (r ++ r').Perm res := by
  obtain ⟨skips, searchEnt, hsearch⟩ := hI.search
  simp only [hsearch, getElem?_idxOf, entriesOf_append hlen] at h ⊢
  obtain ⟨skip, hskip, h⟩ := Lib.bind_eq_ok.mp h
  rw [hskip]
  simp only [Lib.ok_bind]
  rcases skip with _ | _
  · simp only [Bool.false_eq_true, if_false] at h ⊢
    by_cases hn : req.did.toNat < n
    · simp only [if_pos hn, Option.elim_some] at h ⊢
      exact searchEntries_append h
    · simp only [if_neg hn] at h
      cases h
  · obtain rfl := Except.ok.inj h
    exact ⟨[], [], rfl, rfl, List.Perm.nil⟩

theorem search_empty {req : ReadReq} {res : List SearchRet}
    (h : I.search (idxOf n [] []) req = .ok res) : res = [] := by
  obtain ⟨skips, searchEnt, hsearch⟩ := hI.search
  simp only [hsearch, getElem?_idxOf] at h
  obtain ⟨skip, -, h⟩ := Lib.bind_eq_ok.mp h
  rcases skip with _ | _
  · simp only [Bool.false_eq_true, if_false] at h
    by_cases hn : req.did.toNat < n
    · simp only [if_pos hn, Option.elim_some, entriesOf, searchEntries_nil] at h
      exact (Except.ok.inj h).symm
    · simp only [if_neg hn] at h
      cases h
  · exact (Except.ok.inj h).symm

end Indexes

theorem searchAll_cons (I : LogIdx E) (idx : List (List E)) (req : ReadReq) (reqs : List ReadReq)
    (res : List SearchRet) :
    searchAll I idx (req :: reqs) = .ok res ↔ ∃ r rest, I.search idx req = .ok r ∧
      searchAll I idx reqs = .ok rest ∧ r ++ rest = res := by
  unfold searchAll
  rw [List.mapM_cons]
  constructor
  · intro h
    rcases hr : I.search idx req with err | r
    · rw [hr] at h
      cases h
    · rcases hrest : reqs.mapM (I.search idx) with err | rest
      · rw [hr, hrest] at h
        cases h
      · rw [hr, hrest] at h
        exact ⟨r, rest.flatten, rfl, rfl, Except.ok.inj h⟩
  · rintro ⟨r, rest, hr, hrest, rfl⟩
    rcases hfound : reqs.mapM (I.search idx) with err | found
    · rw [hfound] at hrest
      cases hrest
    · rw [hfound] at hrest
      obtain rfl := Except.ok.inj hrest
      rw [hr]
      rfl

namespace Indexes

variable {I : LogIdx E} (hI : Indexes I P share dsets) {n : Nat} {rs rs' : List WReq}
  {os os' : List (Option E)}

include hI

/-- **The parts of an index are searched to what the whole is searched to**, in another order. -/
theorem searchAll_append (hlen : os.length = rs.length) {reqs : List ReadReq} {res : List SearchRet}
    (h : searchAll I (idxOf n (rs ++ rs') (os ++ os')) reqs = .ok res) :
    ∃ r r', searchAll I (idxOf n rs os) reqs = .ok r ∧ searchAll I (idxOf n rs' os') reqs = .ok r' ∧
      (r ++ r').Perm res := by
  induction reqs generalizing res with
  | nil =>
      obtain rfl := Except.ok.inj h
      exact ⟨[], [], rfl, rfl, List.Perm.nil⟩
  | cons req reqs ih =>
      obtain ⟨f, rest, hf, hrest, rfl⟩ := (searchAll_cons ..).mp h
      obtain ⟨a, a', ha, ha', hperm⟩ := hI.search_append hlen hf
      obtain ⟨r, r', hr, hr', hperm'⟩ := ih hrest
      refine ⟨a ++ r, a' ++ r', (searchAll_cons ..).mpr ⟨a, r, ha, hr, rfl⟩,
        (searchAll_cons ..).mpr ⟨a', r', ha', hr', rfl⟩, ?_⟩
      exact (perm_append_middle ..).trans (hperm.append hperm')

theorem searchAll_empty {reqs : List ReadReq} {res : List SearchRet}
    (h : searchAll I (idxOf n [] []) reqs = .ok res) : res = [] := by
  induction reqs generalizing res with
  | nil => exact (Except.ok.inj h).symm
  | cons req reqs ih =>
      obtain ⟨f, rest, hf, hrest, rfl⟩ := (searchAll_cons ..).mp h
      rw [hI.search_empty hf, ih hrest, List.append_nil]

end Indexes

/-! ## §2 — one part. -/

namespace MetaDset

variable (D : MetaDset P share dsets)

/-- The run before section `j`, and the rest. -/
theorem drop_split {α : Type} (xs : List α) {i j : Nat} (h : i ≤ j) :
    (xs.take j).drop i ++ xs.drop j = xs.drop i := by
  obtain ⟨d, rfl⟩ := Nat.exists_eq_add_of_le h
  rw [List.drop_take, Nat.add_sub_cancel_left, ← List.drop_drop, List.take_append_drop]

variable {I : LogIdx E} (hI : Indexes I P share dsets)

include hI

omit hI in
/-- All sections of a dataset are parsed at once, behind its map. -/
theorem metaupdateDset_content (idx : List (List E)) :
    metaupdateDset I D.content idx = I.parseBlock (D.secs.flatten.flatMap WReq.metaBuf) idx := by
  rw [content_sections, SectionDset.metaupdateDset_eq, ← flatten_bufs]
  rfl

theorem metaupdateDset_eq {idx : List (List E)} (hidx : dsets.length ≤ idx.length) :
    metaupdateDset I D.content idx = .ok (insertAll idx D.secs.flatten D.held.flatten) := by
  rw [metaupdateDset_content]
  exact hI.parse (Parses.flatten D.holds 0 []) hidx

/-- **A part is a run of whole sections**, at least one, and the cursor moves behind it. -/
theorem metaupdatePart_eq {mdsets : List (List UInt8)} {md : I32} (hget : mdsets[md.toNat]? = some D.content)
    {k : Nat} (hk : k < D.nsec) {idx : List (List E)} (hidx : dsets.length ≤ idx.length) (limit : HSize) :
    ∃ j, k < j ∧ j ≤ D.nsec ∧ metaupdatePart I limit mdsets md (BitVec.ofNat 32 k) idx =
      .ok (idxOf idx.length ((D.secs.take j).drop k).flatten ((D.held.take j).drop k).flatten,
        advance mdsets.length (BitVec.ofNat 64 D.nsec) md j,
        ((D.secs.take j).drop k).flatten.flatMap WReq.metaBuf) := by
  rw [content_sections] at hget
  obtain ⟨j, hlo, hhi, -, hcall⟩ := D.sections.partCall_eq I hget (by rwa [nsec_sections]) idx limit
  rw [run_flatten, nsec_sections] at hcall
  rw [nsec_sections] at hhi
  refine ⟨j, hlo, hhi, ?_⟩
  rw [metaupdatePart_eq_partCall, hcall]
  dsimp only
  rw [hI.parse (D.run_holds k j) (by rw [clearIdx_eq, length_idxOf]; exact hidx), clearIdx_eq]
  rfl

omit hI in
/-- A dataset without sections has none to load. -/
theorem metaupdatePart_noSections {mdsets : List (List UInt8)} {md : I32}
    (hget : mdsets[md.toNat]? = some D.content) (hn : D.nsec = 0) (idx : List (List E)) (limit : HSize) :
    ∃ err, metaupdatePart I limit mdsets md (BitVec.ofNat 32 0) idx = .error err := by
  unfold metaupdatePart
  rw [hget]
  simp only [D.readMapWord_zero, Lib.ok_bind, hn]
  exact ⟨_, rfl⟩

end MetaDset

/-! ## §3 — the loop. -/

section Loop

variable {I : LogIdx E} (hI : Indexes I P share dsets) {limit : HSize} {reqs : List ReadReq}

/-- Where the cursor goes. -/
theorem advance_eq {nmdset nsec m i : Nat} (hn : nmdset < 2 ^ 31) (hnsec : nsec < 2 ^ 31) (hm : m < nmdset) :
    advance nmdset (BitVec.ofNat 64 nsec) (BitVec.ofNat 32 m) i =
      if nsec ≤ i then (if m + 1 = nmdset then -1 else BitVec.ofNat 32 (m + 1), 0)
      else (BitVec.ofNat 32 m, BitVec.ofNat 32 i) := by
  have hword : (BitVec.ofNat 64 nsec).toInt = nsec := by
    rw [BitVec.toInt_eq_toNat_of_lt, BitVec.toNat_ofNat, Nat.mod_eq_of_lt (by omega)]
    rw [BitVec.toNat_ofNat, Nat.mod_eq_of_lt (by omega)]
    omega
  have hnext : (BitVec.ofNat 32 m + 1 : I32) = BitVec.ofNat 32 (m + 1) := (BitVec.ofNat_add m 1).symm
  unfold advance
  simp only [hword, Nat.cast_le, hnext]
  by_cases hend : nsec ≤ i
  · simp only [if_pos hend]
    by_cases hlast : m + 1 = nmdset
    · have htop : (nmdset : Int) ≤ (BitVec.ofNat 32 (m + 1)).toInt := by
        rw [BitVec.toInt_ofNat', Int.bmod_eq_of_le_mul_two (by omega) (by omega)]
        omega
      rw [if_pos htop, if_pos hlast]
    · rw [if_neg hlast, toInt_ofNat_of_lt (by omega), if_neg (by omega)]
  · simp only [if_neg hend, toInt_ofNat_of_lt (show m < 2 ^ 31 by omega)]
    rw [if_neg (by omega)]

/-- The dataset at the cursor, which is not at the end. -/
theorem content_at {pre Ds : List (MetaDset P share dsets)} {D : MetaDset P share dsets}
    (hall : pre.length + (Ds.length + 1) < 2 ^ 31) :
    ((pre ++ D :: Ds).map MetaDset.content)[(BitVec.ofNat 32 pre.length).toNat]? = some D.content ∧
      ¬ BitVec.ofNat 32 pre.length = -1 := by
  constructor
  · rw [BitVec.toNat_ofNat, Nat.mod_eq_of_lt (by omega), List.getElem?_map,
      List.getElem?_append_right le_rfl, Nat.sub_self]
    rfl
  · intro h
    have htop := congrArg BitVec.toInt h
    rw [toInt_ofNat_of_lt (by omega)] at htop
    have hneg : (-1 : I32).toInt = -1 := rfl
    omega

/-- What is left to load behind the cursor: the sections from `k` on of `D`, and those of the datasets
behind it. -/
def sectionsLeft {α : Type} (f : MetaDset P share dsets → List α) (D : MetaDset P share dsets) (k : Nat)
    (Ds : List (MetaDset P share dsets)) : List α := (f D).drop k ++ Ds.flatMap f

theorem sectionsLeft_split {α : Type} (f : MetaDset P share dsets → List α) (D : MetaDset P share dsets)
    {k j : Nat} (h : k ≤ j) (Ds : List (MetaDset P share dsets)) :
    sectionsLeft f D k Ds = ((f D).take j).drop k ++ sectionsLeft f D j Ds := by
  rw [sectionsLeft, sectionsLeft, ← List.append_assoc, MetaDset.drop_split _ h]

theorem sectionsLeft_next {α : Type} (f : MetaDset P share dsets → List α) (D D' : MetaDset P share dsets)
    {j : Nat} (h : (f D).length ≤ j) (Ds : List (MetaDset P share dsets)) :
    sectionsLeft f D j (D' :: Ds) = sectionsLeft f D' 0 Ds := by
  rw [sectionsLeft, sectionsLeft, List.drop_of_length_le h, List.nil_append, List.flatMap_cons,
    List.drop_zero]

include hI

/-- **From any cursor the loop loads what is left**, in runs of whole sections, and finds what the search
of all of it finds. -/
theorem partLoop_spec {fuel : Nat} {pre Ds : List (MetaDset P share dsets)} {D : MetaDset P share dsets}
    (hall : pre.length + (Ds.length + 1) < 2 ^ 31) {k : Nat} (hk : k < D.nsec) (hsome : ∀ D' ∈ Ds, 0 < D'.nsec)
    (hfuel : (sectionsLeft MetaDset.secs D k Ds).length < fuel) {idx : List (List E)}
    (hidx : dsets.length ≤ idx.length) {found : List SearchRet}
    (hfound : searchAll I (idxOf idx.length (sectionsLeft MetaDset.secs D k Ds).flatten
      (sectionsLeft MetaDset.held D k Ds).flatten) reqs = .ok found) :
    ∃ bufs res, partLoop I limit ((pre ++ D :: Ds).map MetaDset.content) reqs fuel
        (BitVec.ofNat 32 pre.length, BitVec.ofNat 32 k) idx = .ok (bufs, res) ∧ res.Perm found ∧
      ∃ runs : List (List (List WReq)), runs.flatten = sectionsLeft MetaDset.secs D k Ds ∧
        bufs = runs.map fun run => run.flatten.flatMap WReq.metaBuf := by
  induction fuel generalizing pre D Ds k idx found with
  | zero => exact absurd hfuel (Nat.not_lt_zero _)
  | succ fuel ih =>
      obtain ⟨hget, hmd⟩ := content_at hall
      obtain ⟨j, hlo, hhi, hpart⟩ := D.metaupdatePart_eq hI hget hk hidx limit
      -- what the part holds, and what the rest holds
      have hrun : ((D.held.take j).drop k).flatten.length = ((D.secs.take j).drop k).flatten.length :=
        Parses.length_eq (D.run_holds k j)
      rw [sectionsLeft_split _ D hlo.le, sectionsLeft_split MetaDset.held D hlo.le, List.flatten_append,
        List.flatten_append] at hfound
      obtain ⟨r, r', hr, hr', hperm⟩ := hI.searchAll_append hrun hfound
      rw [sectionsLeft_split _ D hlo.le, List.length_append] at hfuel
      have hpos : 0 < ((D.secs.take j).drop k).length := by
        have hsecs : D.secs.length = D.nsec := rfl
        rw [List.length_drop, List.length_take]
        omega
      rw [partLoop, if_neg hmd, hpart, Lib.ok_bind]
      simp only [hr, Lib.ok_bind]
      have hnmdset : ((pre ++ D :: Ds).map MetaDset.content).length = pre.length + (Ds.length + 1) := by
        rw [List.length_map, List.length_append, List.length_cons]
      have hnsec : D.nsec < 2 ^ 31 := D.nsec_lt
      rw [hnmdset, advance_eq (by omega) hnsec (by omega)]
      -- the rest of the loop
      have hrest : ∃ bufs res, partLoop I limit ((pre ++ D :: Ds).map MetaDset.content) reqs fuel
          (if D.nsec ≤ j then (if pre.length + 1 = pre.length + (Ds.length + 1) then -1
              else BitVec.ofNat 32 (pre.length + 1), 0)
            else (BitVec.ofNat 32 pre.length, BitVec.ofNat 32 j))
          (idxOf idx.length ((D.secs.take j).drop k).flatten ((D.held.take j).drop k).flatten) =
            .ok (bufs, res) ∧ res.Perm r' ∧
          ∃ runs : List (List (List WReq)), runs.flatten = sectionsLeft MetaDset.secs D j Ds ∧
            bufs = runs.map fun run => run.flatten.flatMap WReq.metaBuf := by
        by_cases hend : D.nsec ≤ j
        · rw [if_pos hend]
          have hsecs : (D.secs).length ≤ j := hend
          have hheld : (D.held).length ≤ j := by
            rw [D.held_length]
            exact hend
          rcases Ds with _ | ⟨D', Ds⟩
          · -- all datasets are iterated
            have hempty : sectionsLeft MetaDset.secs D j ([] : List (MetaDset P share dsets)) = [] := by
              rw [sectionsLeft, List.drop_of_length_le hsecs]
              rfl
            have hempty' : sectionsLeft MetaDset.held D j ([] : List (MetaDset P share dsets)) = [] := by
              rw [sectionsLeft, List.drop_of_length_le hheld]
              rfl
            rw [hempty, hempty'] at hr'
            obtain rfl := hI.searchAll_empty hr'
            obtain ⟨fuel, rfl⟩ : ∃ n, fuel = n + 1 := Nat.exists_eq_add_one.mpr (by omega)
            have hlast : pre.length + 1 = pre.length + (([] : List (MetaDset P share dsets)).length + 1) := rfl
            rw [if_pos hlast, partLoop, if_pos rfl]
            exact ⟨[], [], rfl, List.Perm.nil, [], hempty.symm, rfl⟩
          · rw [sectionsLeft_next _ D D' hsecs, sectionsLeft_next _ D D' hheld] at hr'
            rw [sectionsLeft_next _ D D' hsecs] at hfuel ⊢
            rw [if_neg (by rw [List.length_cons]; omega)]
            have hlen : (pre ++ [D]).length + (Ds.length + 1) < 2 ^ 31 := by
              rw [List.length_append, List.length_singleton]
              rw [List.length_cons] at hall
              omega
            have hnext := @ih (pre ++ [D]) Ds D' hlen 0 (hsome D' (List.mem_cons_self ..))
              (fun D'' hD => hsome D'' (List.mem_cons_of_mem _ hD)) (by omega)
              (idxOf idx.length ((D.secs.take j).drop k).flatten ((D.held.take j).drop k).flatten)
              (by rw [length_idxOf]; exact hidx) r' (by rw [length_idxOf]; exact hr')
            rw [List.append_assoc, List.singleton_append, List.length_append] at hnext
            exact hnext
        · rw [if_neg hend]
          exact ih hall (by omega) hsome (by omega)
            (by rw [length_idxOf]; exact hidx) (by rw [length_idxOf]; exact hr')
      obtain ⟨bufs, res, hloop, hres, runs, hruns, rfl⟩ := hrest
      rw [hloop]
      refine ⟨_, _, rfl, (hres.append_left r).trans hperm, ((D.secs.take j).drop k) :: runs, ?_, rfl⟩
      rw [List.flatten_cons, hruns, ← sectionsLeft_split _ D hlo.le]

/-- A dataset without sections ahead: the loop does not return. -/
theorem partLoop_raises {fuel : Nat} {pre Ds : List (MetaDset P share dsets)} {D : MetaDset P share dsets}
    (hall : pre.length + (Ds.length + 1) < 2 ^ 31) {k : Nat} (hk : k < D.nsec ∨ k = 0)
    (hnone : ∃ D' ∈ D :: Ds, D'.nsec = 0) {idx : List (List E)} (hidx : dsets.length ≤ idx.length)
    (out : List (List UInt8) × List SearchRet) :
    partLoop I limit ((pre ++ D :: Ds).map MetaDset.content) reqs fuel
      (BitVec.ofNat 32 pre.length, BitVec.ofNat 32 k) idx ≠ .ok out := by
  induction fuel generalizing pre D Ds k idx out with
  | zero => exact fun h => by cases h
  | succ fuel ih =>
      obtain ⟨hget, hmd⟩ := content_at (D := D) hall
      rw [partLoop, if_neg hmd]
      -- It is the dataset at the cursor, or one that the loop comes to later.
      by_cases hn : D.nsec = 0
      · have hzero : k = 0 := hk.resolve_left (by omega)
        obtain ⟨err, herr⟩ := D.metaupdatePart_noSections (I := I) hget hn idx limit
        rw [hzero, herr]
        exact fun h => by cases h
      · have hk : k < D.nsec := by
          rcases hk with hlt | rfl
          · exact hlt
          · exact Nat.pos_of_ne_zero hn
        have hnone : ∃ D' ∈ Ds, D'.nsec = 0 := by
          obtain ⟨D', hD, hzero⟩ := hnone
          rcases List.mem_cons.mp hD with rfl | hD
          · exact absurd hzero hn
          · exact ⟨D', hD, hzero⟩
        obtain ⟨j, hlo, hhi, hpart⟩ := D.metaupdatePart_eq hI hget hk hidx limit
        have hnmdset : ((pre ++ D :: Ds).map MetaDset.content).length = pre.length + (Ds.length + 1) := by
          rw [List.length_map, List.length_append, List.length_cons]
        have hnsec : D.nsec < 2 ^ 31 := D.nsec_lt
        rw [hpart, Lib.ok_bind]
        simp only []
        rw [hnmdset, advance_eq (by omega) hnsec (by omega)]
        intro h
        obtain ⟨_, -, h⟩ := Lib.bind_eq_ok.mp h
        obtain ⟨out', hloop, -⟩ := Lib.bind_eq_ok.mp h
        revert hloop
        -- Behind the last section the cursor goes on to the next dataset.
        by_cases hend : D.nsec ≤ j
        · rcases Ds with _ | ⟨D', Ds⟩
          · obtain ⟨_, hD, -⟩ := hnone
            exact absurd hD List.not_mem_nil
          · rw [if_pos hend, if_neg (by rw [List.length_cons]; omega)]
            have hlen : (pre ++ [D]).length + (Ds.length + 1) < 2 ^ 31 := by
              rw [List.length_append, List.length_singleton]
              rw [List.length_cons] at hall
              omega
            have hnext := @ih (pre ++ [D]) Ds D' hlen 0 (Or.inr rfl) hnone
              (idxOf idx.length ((D.secs.take j).drop k).flatten ((D.held.take j).drop k).flatten)
              (by rw [length_idxOf]; exact hidx) out'
            rw [List.append_assoc, List.singleton_append, List.length_append] at hnext
            exact hnext
        · rw [if_neg hend]
          exact ih hall (Or.inl (by omega)) (by
            obtain ⟨D', hD, hzero⟩ := hnone
            exact ⟨D', List.mem_cons_of_mem D hD, hzero⟩) (by rw [length_idxOf]; exact hidx) out'

end Loop

/-! ## §4 — agreement. -/

/-- Metadata datasets, parsed one after another. -/
theorem foldlM_metaupdateDset {I : LogIdx E} (hI : Indexes I P share dsets) (Ds : List (MetaDset P share dsets))
    {idx : List (List E)} (hidx : dsets.length ≤ idx.length) :
    (Ds.map MetaDset.content).foldlM (fun idx ds => metaupdateDset I ds idx) idx =
      .ok (insertAll idx (Ds.flatMap MetaDset.secs).flatten (Ds.flatMap MetaDset.held).flatten) := by
  induction Ds generalizing idx with
  | nil => rfl
  | cons D Ds ih =>
      rw [List.map_cons, List.foldlM_cons, D.metaupdateDset_eq hI hidx, Lib.ok_bind,
        ih (by rw [length_insertAll]; exact hidx), List.flatMap_cons, List.flatMap_cons,
        List.flatten_append, List.flatten_append,
        insertAll_append idx (Parses.length_eq (Parses.flatten D.holds 0 []))]

/-- All of them, loaded at once. -/
theorem metaupdate_content {I : LogIdx E} (hI : Indexes I P share dsets) (Ds : List (MetaDset P share dsets))
    {idx : List (List E)} (hidx : dsets.length ≤ idx.length) :
    metaupdate I (Ds.map MetaDset.content) idx =
      .ok (idxOf idx.length (Ds.flatMap MetaDset.secs).flatten (Ds.flatMap MetaDset.held).flatten) := by
  rw [metaupdate, clearIdx_eq, foldlM_metaupdateDset hI Ds (by rw [length_idxOf]; exact hidx)]
  rfl

/-- The metadata datasets of a file. -/
structure MetaFile (P : EntryParser E V) (share : Bool) (dsets : List (Option DsetInfo)) where
  mdsets : List (MetaDset P share dsets)
  nmdset_lt : mdsets.length < 2 ^ 31

namespace MetaFile

variable (F : MetaFile P share dsets)

def contents : List (List UInt8) := F.mdsets.map MetaDset.content

/-- All sections, one behind the other. -/
def sections : List (List WReq) := F.mdsets.flatMap MetaDset.secs

/-- **Indexing in parts agrees with full indexing**: whatever is found for a list of requests in the index of
the whole metadata, the loop ends without an error, the buffers it parses are the sections of the file in
order, each in one of them, and it finds the same, in some order. -/
def PartAgrees (I : LogIdx E) (limit : HSize) : Prop :=
  ∀ idx, dsets.length ≤ idx.length → ∀ reqs found, readIdxSearchFull I F.contents reqs idx = .ok found →
    ∃ bufs res, readIdxSearchPart I limit F.contents reqs idx = .ok (bufs, res) ∧ res.Perm found ∧
      ∃ runs : List (List (List WReq)), runs.flatten = F.sections ∧
        bufs = runs.map fun run => run.flatten.flatMap WReq.metaBuf

variable {I : LogIdx E} (hI : Indexes I P share dsets)

include hI

/-- The index of the whole metadata. -/
theorem metaupdate_eq {idx : List (List E)} (hidx : dsets.length ≤ idx.length) :
    metaupdate I F.contents idx =
      .ok (idxOf idx.length F.sections.flatten (F.mdsets.flatMap MetaDset.held).flatten) :=
  metaupdate_content hI F.mdsets hidx

omit hI in
/-- There are fewer sections than bytes. -/
theorem sections_length_le : F.sections.length ≤ F.contents.flatten.length := by
  rw [sections, contents]
  generalize F.mdsets = Ds
  induction Ds with
  | nil => exact le_rfl
  | cons D Ds ih =>
      have hD : D.secs.length ≤ D.content.length := by
        rw [D.content_length, MetaDset.secStart, MetaDset.nsec, sizeofOffset]
        omega
      rw [List.flatMap_cons, List.map_cons, List.flatten_cons, List.length_append, List.length_append]
      omega

/-- **Limited-memory indexing agrees with full indexing**, for every limit, exactly when the file has a
metadata dataset, and none without sections. -/
theorem partAgrees_iff (limit : HSize) :
    F.PartAgrees I limit ↔ F.mdsets ≠ [] ∧ ∀ D ∈ F.mdsets, 0 < D.nsec := by
  have hcount := F.nmdset_lt
  constructor
  · intro h
    have hlen : dsets.length ≤ (List.replicate dsets.length ([] : List E)).length := by
      rw [List.length_replicate]
    have hfull : readIdxSearchFull I F.contents [] (List.replicate dsets.length []) = .ok [] := by
      rw [readIdxSearchFull, F.metaupdate_eq hI hlen]
      rfl
    -- No request at all is enough to see that the loop raises.
    obtain ⟨bufs, res, hpart, -⟩ := h _ hlen [] [] hfull
    rw [readIdxSearchPart, contents] at hpart
    rcases hDs : F.mdsets with _ | ⟨D, Ds⟩
    · rw [hDs] at hpart
      cases hpart
    · refine ⟨List.cons_ne_nil _ _, fun D' hD => Nat.pos_of_ne_zero fun hzero => ?_⟩
      rw [hDs] at hpart hcount
      have hlt : ([] : List (MetaDset P share dsets)).length + (Ds.length + 1) < 2 ^ 31 := by
        rw [List.length_nil, Nat.zero_add]
        exact hcount
      exact (partLoop_raises hI hlt (Or.inr rfl) ⟨D', hD, hzero⟩ hlen _) hpart
  · rintro ⟨hne, hsome⟩ idx hidx reqs found hfound
    rw [readIdxSearchFull, F.metaupdate_eq hI hidx, Lib.ok_bind] at hfound
    have hfuel := F.sections_length_le
    rw [sections] at hfound hfuel ⊢
    rw [readIdxSearchPart]
    rw [contents] at hfuel ⊢
    rcases hDs : F.mdsets with _ | ⟨D, Ds⟩
    · exact absurd hDs hne
    · rw [hDs] at hfound hfuel hsome hcount
      obtain ⟨hfirst, hrest⟩ := List.forall_mem_cons.mp hsome
      have hlt : ([] : List (MetaDset P share dsets)).length + (Ds.length + 1) < 2 ^ 31 := by
        rw [List.length_nil, Nat.zero_add]
        exact hcount
      exact partLoop_spec hI hlt hfirst hrest (Nat.lt_succ_of_le hfuel) hidx hfound

end MetaFile

/-- **Limited-memory indexing agrees with full indexing**, in the list index and in the compact index, exactly
when the file has a metadata dataset, and none without sections. -/
theorem partAgrees_list_compact (z : Option Zlib) (share : Bool) (dsets : List (Option DsetInfo))
    (limit : HSize) :
    (∀ F : MetaFile (listParser z) share dsets, F.PartAgrees (listIdx z share dsets) limit ↔
      F.mdsets ≠ [] ∧ ∀ D ∈ F.mdsets, 0 < D.nsec) ∧
    ∀ F : MetaFile (compactParser z) share dsets, F.PartAgrees (compactIdx z share dsets) limit ↔
      F.mdsets ≠ [] ∧ ∀ D ∈ F.mdsets, 0 < D.nsec :=
  ⟨fun F => F.partAgrees_iff (listIdx_indexes z share dsets) limit,
    fun F => F.partAgrees_iff (compactIdx_indexes z share dsets) limit⟩

/-- A file with two sections in its metadata dataset, and a limit below the size of either. -/
def twoSectionFile : MetaFile (listParser none) false [some (vectorDset 8)] where
  mdsets := [{
    secs := [[blockReq 0 0 2 100 8], [blockReq 0 2 3 108 12, blockReq 0 5 1 120 4]]
    held := [[some (blockEntry 0 0 2 100 8)], [some (blockEntry 0 2 3 108 12), some (blockEntry 0 5 1 120 4)]]
    holds := List.Forall₂.cons (Parses.block 8 rfl Parses.nil)
      (List.Forall₂.cons (Parses.block 8 rfl (Parses.block 8 rfl Parses.nil)) List.Forall₂.nil)
    nsec_lt := by decide
    size_lt := by decide +kernel }]
  nmdset_lt := by decide

theorem partAgrees_twoSectionFile : twoSectionFile.PartAgrees (listIdx none false [some (vectorDset 8)]) 1 := by
  apply ((partAgrees_list_compact none false [some (vectorDset 8)] 1).1 twoSectionFile).mpr
  refine ⟨List.cons_ne_nil _ _, ?_⟩
  intro D hD
  rw [List.mem_singleton.mp hD]
  decide

/-- A file with a dataset, closed before anything was written to it. -/
def unwrittenFile : MetaFile (listParser none) false [some (vectorDset 8)] := ⟨[], Nat.two_pow_pos 31⟩

theorem not_partAgrees_unwrittenFile :
    ¬ unwrittenFile.PartAgrees (listIdx none false [some (vectorDset 8)]) 1024 := by
  rw [unwrittenFile.partAgrees_iff (listIdx_indexes none false [some (vectorDset 8)]) 1024]
  exact fun h => h.1 rfl

end LogVol
