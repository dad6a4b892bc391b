/-
# LogVol.SelectSlots — blocks as they are kept: slots that point to vectors.

`starts` and `counts` are arrays of pointers into one allocation. Sorting permutes the pointers, and merging
moves those of the blocks that stay forward (`starts[j] = starts[i]`) without putting others in their place, so
that a slot behind the merged blocks still points to a vector which another slot, further in front, may point
to as well. What is written through such a slot is written over that block.

As long as no two of the slots written to, or in use, point to the same vector, merging slots is merging blocks
(`settle_blocks`); and whatever the slots, a property of blocks that joining keeps is kept (`settle_keeps`).
-/
import LogVol.SelectBlocks
import LogVol.Lib.Assign

namespace LogVol

open Lib (Box assign)

/-! ## §1 — slots. -/

/-- The slots of a selection: `starts[i]` and `counts[i]` point to the vectors numbered `vecs[i]`, each in its
half of the allocation, and `data` is what the vectors hold. -/
structure Slots where
  vecs : List ℕ
  data : ℕ → Box

/-- **`alloc (nsel)`**: every slot has a vector of its own. -/
def Slots.alloc (nsel : ℕ) : Slots := ⟨List.range nsel, fun _ => []⟩

/-- The blocks in the first `nsel` slots. -/
def Slots.blocks (s : Slots) (nsel : ℕ) : List Box := (s.vecs.take nsel).map s.data

/-- Slots in the middle of merging: those that hold blocks, and those behind them. -/
structure Merging where
  data : ℕ → Box
  live : List ℕ
  behind : List ℕ

/-- One pass over the slots: `v` is the vector of slot `j`, `w` that of slot `i`. The counts of the one grow by
those of the other, or else the pointer moves to slot `j + 1`. -/
def passSlots (d : ℕ) : (ℕ → Box) → ℕ → List ℕ → (ℕ → Box) × List ℕ
  | data, v, [] => (data, [v])
  | data, v, w :: ws =>
      if adjoins false d (data v) (data w) then
        passSlots d (Function.update data v (joinBlocks false d (data v) (data w))) v ws
      else
        let r := passSlots d data w ws
        (r.1, v :: r.2)

/-- A pass of `merge_blocks<false>`: the slots that no pointer was moved to keep theirs. -/
def Merging.pass (d : ℕ) (m : Merging) : Merging :=
  match m.live with
  | [] => m
  | v :: vs =>
      let r := passSlots d m.data v vs
      ⟨r.1, r.2, m.live.drop r.2.length ++ m.behind⟩

/-- **`merge_blocks<false>`** on slots. -/
def Merging.passes : ℕ → Merging → Merging
  | 0, m => m
  | d + 1, m => passes d (m.pass d)

/-- The slots `ws` sorted by what their vectors hold, and merged. -/
def settle (ndim : ℕ) (data : ℕ → Box) (ws : List ℕ) : Merging :=
  Merging.passes ndim ⟨data, sortBy (fun v => Box.start (data v)) ws, []⟩

/-- The vectors that `m` slots from slot `n` on point to. -/
def slotsFrom (vecs : List ℕ) (n m : ℕ) : List ℕ := (vecs.drop n).take m

/-- Blocks written from slot `n` on. -/
def Slots.put (n : ℕ) (rows : List Box) (s : Slots) : Slots :=
  { s with data := assign s.data ((slotsFrom s.vecs n rows.length).zip rows) }

/-- The slots once the `m` of them from slot `n` on are sorted and merged. -/
def Slots.settled (n m : ℕ) (vecs : List ℕ) (r : Merging) : List ℕ :=
  vecs.take n ++ (r.live ++ r.behind) ++ vecs.drop (n + m)

/-- Rows written from slot `n` on, sorted and merged there. -/
def Slots.fill (ndim n : ℕ) (rows : List Box) (s : Slots) : Slots × ℕ :=
  let r := settle ndim (s.put n rows).data (slotsFrom s.vecs n rows.length)
  (⟨Slots.settled n rows.length s.vecs r, r.data⟩, n + r.live.length)

/-- Where the slots point once rows are written from slot `n` on, sorted and merged. -/
def nextSlots (ndim n : ℕ) (rows : List Box) (vecs : List ℕ) : List ℕ :=
  let ws := slotsFrom vecs n rows.length
  Slots.settled n rows.length vecs (settle ndim (assign (fun _ => []) (ws.zip rows)) ws)

/-! ## §2 — one pass. -/

section Pass

variable {d : ℕ}

/-- The slots that hold blocks are some of those before, in their order. -/
theorem passSlots_sublist (data : ℕ → Box) (v : ℕ) (ws : List ℕ) :
    (passSlots d data v ws).2.Sublist (v :: ws) := by
  induction ws generalizing data v with
  | nil => exact List.Sublist.refl _
  | cons w ws ih =>
      rw [passSlots]
      split
      · exact (ih _ v).trans ((List.sublist_cons_self w ws).cons_cons v)
      · exact (ih data w).cons_cons v

/-- The first slot keeps its vector. -/
theorem passSlots_head {d : ℕ} (data : ℕ → Box) (v : ℕ) (ws : List ℕ) :
    (passSlots d data v ws).2.head? = some v := by
  induction ws generalizing data with
  | nil => rfl
  | cons w ws ih =>
      rw [passSlots]
      split
      · exact ih _
      · rfl

theorem passSlots_length_pos (data : ℕ → Box) (v : ℕ) (ws : List ℕ) :
    0 < (passSlots d data v ws).2.length := by
  induction ws generalizing data v with
  | nil => exact one_pos
  | cons w ws ih =>
      rw [passSlots]
      split
      · exact ih _ v
      · exact Nat.succ_pos _

/-- Other vectors are not touched. -/
theorem passSlots_other {data : ℕ → Box} {v u : ℕ} {ws : List ℕ} (hu : u ∉ v :: ws) :
    (passSlots d data v ws).1 u = data u := by
  induction ws generalizing data v with
  | nil => rfl
  | cons w ws ih =>
      simp only [List.mem_cons, not_or] at hu
      rw [passSlots]
      split
      · rw [ih (by simp [hu]), Function.update_of_ne hu.1]
      · exact ih (by simp [hu])

/-- **On vectors that are all different** a pass over slots is a pass over blocks. -/
theorem passSlots_blocks {data : ℕ → Box} {v : ℕ} {ws : List ℕ} (hnodup : (v :: ws).Nodup) :
    (passSlots d data v ws).2.map (passSlots d data v ws).1 = mergePass false d (data v) (ws.map data) := by
  induction ws generalizing data v with
  | nil => rfl
  | cons w ws ih =>
      obtain ⟨hv, hws⟩ := List.nodup_cons.mp hnodup
      have hvws : v ∉ ws := fun h => hv (List.mem_cons_of_mem w h)
      rw [passSlots, List.map_cons, mergePass]
      split
      · rw [ih (List.nodup_cons.mpr ⟨hvws, (List.nodup_cons.mp hws).2⟩), Function.update_self]
        congr 1
        exact List.map_congr_left fun u hu => Function.update_of_ne (ne_of_mem_of_not_mem hu hvws) ..
      · show (passSlots d data w ws).1 v :: _ = _
        rw [passSlots_other hv, ih hws]

/-- What other vectors hold does not matter. -/
theorem passSlots_congr {data data' : ℕ → Box} {v : ℕ} {ws : List ℕ} (h : ∀ u ∈ v :: ws, data u = data' u) :
    (passSlots d data v ws).2 = (passSlots d data' v ws).2 ∧
      ∀ u ∈ v :: ws, (passSlots d data v ws).1 u = (passSlots d data' v ws).1 u := by
  induction ws generalizing data data' v with
  | nil => exact ⟨rfl, h⟩
  | cons w ws ih =>
      have hv := h v (List.mem_cons_self ..)
      have hw := h w (List.mem_cons_of_mem v (List.mem_cons_self ..))
      rw [passSlots, passSlots, ← hv, ← hw]
      split
      · have hupdate (b : Box) : ∀ u ∈ v :: w :: ws, Function.update data v b u = Function.update data' v b u := by
          intro u hu
          by_cases heq : u = v
          · rw [heq, Function.update_self, Function.update_self]
          · rw [Function.update_of_ne heq, Function.update_of_ne heq, h u hu]
        generalize joinBlocks false d (data v) (data w) = b
        have hsub : ∀ u ∈ v :: ws, u ∈ v :: w :: ws := ((List.sublist_cons_self w ws).cons_cons v).subset
        obtain ⟨hlive, hdata⟩ := ih fun u hu => hupdate b u (hsub u hu)
        refine ⟨hlive, fun u hu => ?_⟩
        by_cases hmem : u ∈ v :: ws
        · exact hdata u hmem
        · rw [passSlots_other hmem, passSlots_other hmem, hupdate b u hu]
      · obtain ⟨hlive, hdata⟩ := ih fun u hu => h u (List.mem_cons_of_mem v hu)
        refine ⟨congrArg (v :: ·) hlive, fun u hu => ?_⟩
        by_cases hmem : u ∈ w :: ws
        · exact hdata u hmem
        · show (passSlots d data w ws).1 u = (passSlots d data' w ws).1 u
          rw [passSlots_other hmem, passSlots_other hmem, h u hu]

/-- A property of blocks that joining two of them keeps. -/
def JoinKeeps (n : ℕ) (P : Box → Prop) : Prop :=
  ∀ d < n, ∀ a b, P a → P b → adjoins false d a b = true → P (joinBlocks false d a b)

/-- **It holds of what the vectors hold after a pass**, also where slots share vectors. -/
theorem passSlots_keeps {n : ℕ} {P : Box → Prop} (hjoin : JoinKeeps n P) (hd : d < n) {data : ℕ → Box} {v : ℕ}
    {ws : List ℕ} (h : ∀ u ∈ v :: ws, P (data u)) : ∀ u ∈ v :: ws, P ((passSlots d data v ws).1 u) := by
  induction ws generalizing data v with
  | nil => exact h
  | cons w ws ih =>
      rw [passSlots]
      split
      · rename_i hadj
        have hgrown : P (joinBlocks false d (data v) (data w)) :=
          hjoin d hd _ _ (h v (by simp)) (h w (by simp)) hadj
        have hupdate : ∀ u ∈ v :: w :: ws,
            P (Function.update data v (joinBlocks false d (data v) (data w)) u) := by
          intro u hu
          by_cases heq : u = v
          · rw [heq, Function.update_self]
            exact hgrown
          · rw [Function.update_of_ne heq]
            exact h u hu
        have hsub : ∀ u ∈ v :: ws, u ∈ v :: w :: ws := ((List.sublist_cons_self w ws).cons_cons v).subset
        intro u hu
        -- A slot that was joined is no longer walked over, but another slot may have the same vector.
        by_cases hmem : u ∈ v :: ws
        · exact ih (fun t ht => hupdate t (hsub t ht)) u hmem
        · rw [passSlots_other hmem]
          exact hupdate u hu
      · intro u hu
        by_cases hmem : u ∈ w :: ws
        · exact ih (fun t ht => h t (List.mem_cons_of_mem v ht)) u hmem
        · show P ((passSlots d data w ws).1 u)
          rw [passSlots_other hmem]
          exact h u hu

end Pass

/-! ## §3 — all passes. -/

theorem Merging.pass_live (d : ℕ) (m : Merging) : (m.pass d).live.Sublist m.live := by
  obtain ⟨data, live, behind⟩ := m
  cases live with
  | nil => exact List.Sublist.refl _
  | cons v vs => exact passSlots_sublist data v vs

theorem Merging.pass_length (d : ℕ) (m : Merging) :
    ((m.pass d).live ++ (m.pass d).behind).length = (m.live ++ m.behind).length := by
  obtain ⟨data, live, behind⟩ := m
  cases live with
  | nil => rfl
  | cons v vs =>
      have hle := (passSlots_sublist (d := d) data v vs).length_le
      simp only [Merging.pass, List.length_append, List.length_drop]
      omega

theorem Merging.passes_live (d : ℕ) (m : Merging) : (m.passes d).live.Sublist m.live := by
  induction d generalizing m with
  | zero => exact List.Sublist.refl _
  | succ d ih => exact (ih _).trans (m.pass_live d)

theorem Merging.passes_head (d : ℕ) (m : Merging) : (m.passes d).live.head? = m.live.head? := by
  induction d generalizing m with
  | zero => rfl
  | succ d ih =>
      rw [Merging.passes, ih]
      obtain ⟨data, live, behind⟩ := m
      cases live with
      | nil => rfl
      | cons v vs => exact passSlots_head data v vs

theorem Merging.passes_live_pos {d : ℕ} {m : Merging} (h : 0 < m.live.length) :
    0 < (m.passes d).live.length := by
  induction d generalizing m with
  | zero => exact h
  | succ d ih =>
      apply ih
      obtain ⟨data, live, behind⟩ := m
      cases live with
      | nil => exact h
      | cons v vs => exact passSlots_length_pos data v vs

theorem Merging.passes_length (d : ℕ) (m : Merging) :
    ((m.passes d).live ++ (m.passes d).behind).length = (m.live ++ m.behind).length := by
  induction d generalizing m with
  | zero => rfl
  | succ d ih => exact (ih _).trans (m.pass_length d)

theorem Merging.passes_mem {d : ℕ} {m : Merging} {v : ℕ} (hv : v ∈ (m.passes d).live ++ (m.passes d).behind) :
    v ∈ m.live ++ m.behind := by
  induction d generalizing m with
  | zero => exact hv
  | succ d ih =>
      obtain ⟨data, live, behind⟩ := m
      have hpass := ih hv
      cases live with
      | nil => exact hpass
      | cons w ws =>
          rcases List.mem_append.mp hpass with hmem | hmem
          · exact List.mem_append_left _ ((Merging.pass_live d ⟨data, w :: ws, behind⟩).subset hmem)
          · rcases List.mem_append.mp hmem with hmem | hmem
            · exact List.mem_append_left _ (List.mem_of_mem_drop hmem)
            · exact List.mem_append_right _ hmem

theorem Merging.passes_other {d : ℕ} {m : Merging} {u : ℕ} (hu : u ∉ m.live) :
    (m.passes d).data u = m.data u := by
  induction d generalizing m with
  | zero => rfl
  | succ d ih =>
      rw [Merging.passes, ih fun h => hu ((m.pass_live d).subset h)]
      obtain ⟨data, live, behind⟩ := m
      cases live with
      | nil => rfl
      | cons v vs => exact passSlots_other hu

/-- **On vectors that are all different** merging slots is merging blocks. -/
theorem Merging.passes_blocks {d : ℕ} {m : Merging} (hnodup : m.live.Nodup) :
    (m.passes d).live.map (m.passes d).data = mergeBlocks false d (m.live.map m.data) := by
  induction d generalizing m with
  | zero => rfl
  | succ d ih =>
      rw [Merging.passes, ih ((m.pass_live d).nodup hnodup)]
      obtain ⟨data, live, behind⟩ := m
      cases live with
      | nil => cases d <;> rfl
      | cons v vs =>
          show mergeBlocks false d ((passSlots d data v vs).2.map (passSlots d data v vs).1) = _
          rw [passSlots_blocks hnodup]
          rfl

theorem Merging.passes_congr {d : ℕ} {m m' : Merging} (hlive : m.live = m'.live) (hbehind : m.behind = m'.behind)
    (hdata : ∀ u ∈ m.live, m.data u = m'.data u) :
    (m.passes d).live = (m'.passes d).live ∧ (m.passes d).behind = (m'.passes d).behind := by
  induction d generalizing m m' with
  | zero => exact ⟨hlive, hbehind⟩
  | succ d ih =>
      obtain ⟨data, live, behind⟩ := m
      obtain ⟨data', live', behind'⟩ := m'
      obtain rfl : live = live' := hlive
      obtain rfl : behind = behind' := hbehind
      cases live with
      | nil => exact ih rfl rfl nofun
      | cons v vs =>
          obtain ⟨hsame, hagree⟩ := passSlots_congr (d := d) hdata
          apply ih
          · exact hsame
          · show List.drop _ _ ++ _ = List.drop _ _ ++ _
            rw [hsame]
          · intro u hu
            exact hagree u ((passSlots_sublist data v vs).subset hu)

theorem Merging.passes_keeps {n d : ℕ} {P : Box → Prop} (hjoin : JoinKeeps n P) (hd : d ≤ n) {m : Merging}
    (h : ∀ u ∈ m.live, P (m.data u)) : ∀ u ∈ m.live, P ((m.passes d).data u) := by
  induction d generalizing m with
  | zero => exact h
  | succ d ih =>
      have hpass : ∀ u ∈ m.live, P ((m.pass d).data u) := by
        obtain ⟨data, live, behind⟩ := m
        cases live with
        | nil => exact h
        | cons v vs => exact passSlots_keeps hjoin hd h
      intro u hu
      by_cases hmem : u ∈ (m.pass d).live
      · exact ih (Nat.le_of_succ_le hd) (fun t ht => hpass t ((m.pass_live d).subset ht)) u hmem
      · rw [Merging.passes, Merging.passes_other hmem]
        exact hpass u hu

/-! ## §4 — sorting and merging. -/

theorem sortBy_map {α β : Type} (key : β → List ℕ) (f : α → β) (l : List α) :
    (sortBy (fun a => key (f a)) l).map f = sortBy key (l.map f) :=
  List.map_insertionSort _ _ f l fun _ _ _ _ => Iff.rfl

theorem sortBy_congr {α : Type} {key key' : α → List ℕ} {l : List α} (h : ∀ a ∈ l, key a = key' a) :
    sortBy key l = sortBy key' l := by
  have hmap := List.map_insertionSort (r := fun a b => (!lessthan (key b) (key a)) = true)
    (s := fun a b => (!lessthan (key' b) (key' a)) = true) id l fun a ha b hb => by
      rw [h a ha, h b hb]
      rfl
  rwa [List.map_id, List.map_id] at hmap

/-- What comes before none of the others stays where it is. -/
theorem sortBy_cons_least {α : Type} {key : α → List ℕ} {a : α} {l : List α}
    (h : ∀ b ∈ l, lessthan (key b) (key a) = false) : sortBy key (a :: l) = a :: sortBy key l := by
  show List.orderedInsert _ a (sortBy key l) = _
  rcases hl : sortBy key l with _ | ⟨b, bs⟩
  · rfl
  · have hb : b ∈ l := (sortBy_perm key l).mem_iff.mp (hl ▸ List.mem_cons_self ..)
    rw [List.orderedInsert_cons, if_pos (by rw [h b hb]; rfl)]

section Settle

variable {n : ℕ} {data : ℕ → Box} {ws : List ℕ}

theorem settle_live_mem {v : ℕ} (h : v ∈ (settle n data ws).live) : v ∈ ws :=
  (sortBy_perm _ ws).mem_iff.mp ((Merging.passes_live n _).subset h)

theorem settle_mem {v : ℕ} (h : v ∈ (settle n data ws).live ++ (settle n data ws).behind) : v ∈ ws := by
  have hmem := Merging.passes_mem h
  rw [List.append_nil] at hmem
  exact (sortBy_perm _ ws).mem_iff.mp hmem

theorem settle_live_nodup (h : ws.Nodup) : (settle n data ws).live.Nodup :=
  (Merging.passes_live n _).nodup ((sortBy_perm _ ws).nodup_iff.mpr h)

theorem settle_live_pos (h : 0 < ws.length) : 0 < (settle n data ws).live.length :=
  Merging.passes_live_pos ((sortBy_perm _ ws).length_eq ▸ h)

/-- A vector before all others stays in the first slot. -/
theorem settle_head {w : ℕ} (h : ∀ u ∈ ws, lessthan (Box.start (data u)) (Box.start (data w)) = false) :
    (settle n data (w :: ws)).live.head? = some w := by
  rw [settle, Merging.passes_head]
  show (sortBy (fun v => Box.start (data v)) (w :: ws)).head? = some w
  rw [sortBy_cons_least h]
  rfl

theorem settle_length : ((settle n data ws).live ++ (settle n data ws).behind).length = ws.length := by
  rw [settle, Merging.passes_length]
  simp [(sortBy_perm _ ws).length_eq]

/-- Where nothing is merged, the vectors are only sorted. -/
theorem settle_perm (hlive : (settle n data ws).live.length = ws.length) :
    ((settle n data ws).live ++ (settle n data ws).behind).Perm ws := by
  have hlen := @settle_length n data ws
  rw [List.length_append, hlive] at hlen
  have hbehind : (settle n data ws).behind = [] := List.length_eq_zero_iff.mp (by omega)
  have hsorted : (settle n data ws).live = sortBy (fun v => Box.start (data v)) ws := by
    apply (Merging.passes_live n ⟨data, sortBy (fun v => Box.start (data v)) ws, []⟩).eq_of_length
    rw [(sortBy_perm _ ws).length_eq]
    exact hlive
  rw [hbehind, List.append_nil, hsorted]
  exact sortBy_perm _ ws

theorem settle_other {u : ℕ} (hu : u ∉ ws) : (settle n data ws).data u = data u :=
  Merging.passes_other fun h => hu ((sortBy_perm _ ws).mem_iff.mp h)

/-- **On vectors that are all different**: the blocks sorted and merged. -/
theorem settle_blocks (h : ws.Nodup) : (settle n data ws).live.map (settle n data ws).data =
    mergeBlocks false n (sortBy Box.start (ws.map data)) := by
  rw [settle, Merging.passes_blocks ((sortBy_perm _ ws).nodup_iff.mpr h)]
  show mergeBlocks false n ((sortBy (fun v => Box.start (data v)) ws).map data) = _
  rw [sortBy_map]

theorem settle_congr {data' : ℕ → Box} (h : ∀ u ∈ ws, data u = data' u) :
    (settle n data ws).live = (settle n data' ws).live ∧
      (settle n data ws).behind = (settle n data' ws).behind := by
  apply Merging.passes_congr
  · exact sortBy_congr fun u hu => congrArg Box.start (h u hu)
  · rfl
  · exact fun u hu => h u ((sortBy_perm _ ws).mem_iff.mp hu)

theorem settle_keeps {P : Box → Prop} (hjoin : JoinKeeps n P) (h : ∀ u ∈ ws, P (data u)) :
    ∀ u ∈ ws, P ((settle n data ws).data u) := by
  have hperm := sortBy_perm (fun v => Box.start (data v)) ws
  intro u hu
  exact Merging.passes_keeps hjoin le_rfl (fun t ht => h t (hperm.mem_iff.mp ht)) u (hperm.mem_iff.mpr hu)

end Settle

/-! ## §5 — filling slots. -/

section Fill

variable (ndim : ℕ) {n : ℕ} {rows : List Box} {s : Slots}

theorem take_add_slotsFrom (vecs : List ℕ) (n m : ℕ) : vecs.take (n + m) = vecs.take n ++ slotsFrom vecs n m :=
  List.take_add

theorem slotsFrom_length {vecs : List ℕ} {n m : ℕ} (h : n + m ≤ vecs.length) :
    (slotsFrom vecs n m).length = m := by
  rw [slotsFrom, List.length_take, List.length_drop]
  omega

/-- The slots below `n` and those written to, with what is in them once it is written. -/
theorem Slots.put_data :
    (s.put n rows).data = assign s.data ((s.vecs.take (n + rows.length)).zip (s.blocks n ++ rows)) := by
  have hlen : (s.vecs.take n).length = (s.blocks n).length := by simp [Slots.blocks]
  rw [take_add_slotsFrom, List.zip_append hlen, Lib.assign_append, Slots.blocks, Lib.assign_zip_map]
  rfl

theorem Slots.zip_keys (hroom : n + rows.length ≤ s.vecs.length) :
    ((s.vecs.take (n + rows.length)).zip (s.blocks n ++ rows)).map Prod.fst = s.vecs.take (n + rows.length) ∧
      ((s.vecs.take (n + rows.length)).zip (s.blocks n ++ rows)).map Prod.snd = s.blocks n ++ rows := by
  have hlen : (s.vecs.take (n + rows.length)).length = (s.blocks n ++ rows).length := by
    simp only [Slots.blocks, List.length_append, List.length_map, List.length_take]
    omega
  exact ⟨List.map_fst_zip hlen.le, List.map_snd_zip hlen.ge⟩

/-- **With the slots all different** what is in use stays, and every row is there. -/
theorem Slots.put_blocks (hroom : n + rows.length ≤ s.vecs.length)
    (hnodup : (s.vecs.take (n + rows.length)).Nodup) :
    (s.put n rows).blocks (n + rows.length) = s.blocks n ++ rows := by
  have hlen : (s.vecs.take (n + rows.length)).length = (s.blocks n ++ rows).length := by
    simp only [Slots.blocks, List.length_append, List.length_map, List.length_take]
    omega
  show (s.vecs.take (n + rows.length)).map (s.put n rows).data = _
  rw [Slots.put_data]
  exact Lib.map_assign_zip hnodup hlen

/-- **With two slots the same** one of the blocks is written over. -/
theorem Slots.put_lost (hroom : n + rows.length ≤ s.vecs.length)
    (hnodup : ¬ (s.vecs.take (n + rows.length)).Nodup) :
    ∃ pre b post, s.blocks n ++ rows = pre ++ b :: post ∧
      ∀ v ∈ s.vecs.take (n + rows.length), (s.put n rows).data v ∈ pre ++ post := by
  obtain ⟨hkeys, hblocks⟩ := Slots.zip_keys hroom
  rw [← hkeys] at hnodup
  obtain ⟨pre, p, post, hsplit, hlost⟩ := Lib.exists_assign_lost s.data hnodup
  refine ⟨pre.map Prod.snd, p.2, post.map Prod.snd, ?_, fun v hv => ?_⟩
  · rw [← hblocks, hsplit, List.map_append, List.map_cons]
  · rw [Slots.put_data, ← List.map_append]
    exact hlost v (hkeys.symm ▸ hv)

theorem Slots.put_keeps {P : Box → Prop} (hroom : n + rows.length ≤ s.vecs.length)
    (h : ∀ b ∈ s.blocks n ++ rows, P b) : ∀ v ∈ s.vecs.take (n + rows.length), P ((s.put n rows).data v) := by
  obtain ⟨hkeys, hblocks⟩ := Slots.zip_keys hroom
  intro v hv
  rw [Slots.put_data]
  rw [← hkeys] at hv
  have hmem := List.mem_map_of_mem (f := Prod.snd) (Lib.assign_mem (f := s.data) hv)
  rw [hblocks] at hmem
  exact h _ hmem

theorem Slots.fill_length (hroom : n + rows.length ≤ s.vecs.length) :
    (s.fill ndim n rows).1.vecs.length = s.vecs.length := by
  have hlen := @settle_length ndim (s.put n rows).data (slotsFrom s.vecs n rows.length)
  rw [slotsFrom_length hroom] at hlen
  show (s.vecs.take n ++ _ ++ s.vecs.drop (n + rows.length)).length = _
  rw [List.length_append, List.length_append, hlen, List.length_take, List.length_drop]
  omega

theorem Slots.fill_count_le (hroom : n + rows.length ≤ s.vecs.length) :
    (s.fill ndim n rows).2 ≤ n + rows.length := by
  have hlen := @settle_length ndim (s.put n rows).data (slotsFrom s.vecs n rows.length)
  rw [slotsFrom_length hroom, List.length_append] at hlen
  show n + _ ≤ _
  omega

/-- Some block is left of the rows, if there are any. -/
theorem Slots.fill_count_lt (hroom : n + rows.length ≤ s.vecs.length) (hrows : 0 < rows.length) :
    n < (s.fill ndim n rows).2 := by
  have hlive := @settle_live_pos ndim (s.put n rows).data (slotsFrom s.vecs n rows.length)
    (by rw [slotsFrom_length hroom]; exact hrows)
  exact Nat.lt_add_of_pos_right hlive

/-- The slots in use once rows are filled in. -/
theorem Slots.fill_used (hroom : n + rows.length ≤ s.vecs.length) :
    (s.fill ndim n rows).1.vecs.take (s.fill ndim n rows).2 =
      s.vecs.take n ++ (settle ndim (s.put n rows).data (slotsFrom s.vecs n rows.length)).live := by
  have hlen : (s.vecs.take n).length = n := by
    rw [List.length_take]
    omega
  show (s.vecs.take n ++ (_ ++ _) ++ _).take (n + _) = _
  rw [← List.append_assoc, List.append_assoc]
  apply List.take_left'
  rw [List.length_append, hlen]

theorem Slots.fill_count (hroom : n + rows.length ≤ s.vecs.length)
    (hnodup : (s.vecs.take (n + rows.length)).Nodup) :
    (s.fill ndim n rows).2 = n + (mergeBlocks false ndim (sortBy Box.start rows)).length := by
  have hws : (slotsFrom s.vecs n rows.length).Nodup := by
    rw [take_add_slotsFrom] at hnodup
    exact (List.nodup_append.mp hnodup).2.1
  have hrows : (slotsFrom s.vecs n rows.length).map (s.put n rows).data = rows :=
    Lib.map_assign_zip hws (slotsFrom_length hroom)
  have hlen := congrArg List.length (@settle_blocks ndim (s.put n rows).data _ hws)
  rw [List.length_map, hrows] at hlen
  exact congrArg (n + ·) hlen

/-- **With the slots all different** the rows are sorted and merged behind the blocks in use. -/
theorem Slots.fill_blocks (hroom : n + rows.length ≤ s.vecs.length)
    (hnodup : (s.vecs.take (n + rows.length)).Nodup) :
    (s.fill ndim n rows).1.blocks (s.fill ndim n rows).2 =
      s.blocks n ++ mergeBlocks false ndim (sortBy Box.start rows) := by
  have hput := Slots.put_blocks hroom hnodup
  have hlen : ((s.vecs.take n).map (s.put n rows).data).length = (s.blocks n).length := by simp [Slots.blocks]
  rw [Slots.blocks, take_add_slotsFrom, List.map_append] at hput
  obtain ⟨hbefore, hrows⟩ := List.append_inj hput hlen
  rw [take_add_slotsFrom] at hnodup
  obtain ⟨-, hws, hapart⟩ := List.nodup_append.mp hnodup
  rw [Slots.blocks, Slots.fill_used ndim hroom, List.map_append]
  congr 1
  · rw [← hbefore]
    apply List.map_congr_left
    intro v hv
    exact settle_other fun hmem => hapart v hv v hmem rfl
  · refine (settle_blocks hws).trans ?_
    exact congrArg (fun bs => mergeBlocks false ndim (sortBy Box.start bs)) hrows

/-- **Whatever the slots**, what joining keeps holds of the blocks filled in. -/
theorem Slots.fill_keeps {P : Box → Prop} (hjoin : JoinKeeps ndim P) (hroom : n + rows.length ≤ s.vecs.length)
    (h : ∀ v ∈ s.vecs.take (n + rows.length), P ((s.put n rows).data v)) :
    ∀ b ∈ (s.fill ndim n rows).1.blocks (s.fill ndim n rows).2, P b := by
  intro b hb
  rw [Slots.blocks, Slots.fill_used ndim hroom] at hb
  obtain ⟨v, hv, rfl⟩ := List.mem_map.mp hb
  rw [take_add_slotsFrom] at h
  show P ((settle ndim (s.put n rows).data (slotsFrom s.vecs n rows.length)).data v)
  by_cases hmem : v ∈ slotsFrom s.vecs n rows.length
  · exact settle_keeps hjoin (fun u hu => h u (List.mem_append_right _ hu)) v hmem
  · rw [settle_other hmem]
    refine h v (List.mem_append_left _ ((List.mem_append.mp hv).resolve_right fun hlive => ?_))
    exact hmem (settle_live_mem hlive)

theorem Slots.fill_vecs (hroom : n + rows.length ≤ s.vecs.length) :
    (s.fill ndim n rows).1.vecs = nextSlots ndim n rows s.vecs := by
  have hlen : (slotsFrom s.vecs n rows.length).length = rows.length := slotsFrom_length hroom
  obtain ⟨hlive, hbehind⟩ := @settle_congr ndim (s.put n rows).data (slotsFrom s.vecs n rows.length)
    (assign (fun _ => []) ((slotsFrom s.vecs n rows.length).zip rows)) fun u hu => by
      apply Lib.assign_congr
      rw [List.map_fst_zip hlen.le]
      exact Or.inl hu
  show Slots.settled _ _ _ _ = Slots.settled _ _ _ _
  rw [Slots.settled, Slots.settled, hlive, hbehind]

/-- Where no rows are merged, the slots point to the vectors they pointed to, in some order. -/
theorem nextSlots_perm {vecs : List ℕ} (hnodup : vecs.Nodup) (hroom : n + rows.length ≤ vecs.length)
    (hkept : (mergeBlocks false ndim (sortBy Box.start rows)).length = rows.length) :
    (nextSlots ndim n rows vecs).Perm vecs := by
  have hlen := slotsFrom_length hroom
  have hws : (slotsFrom vecs n rows.length).Nodup := (hnodup.sublist (List.drop_sublist n vecs)).sublist
    (List.take_sublist rows.length _)
  have hrows : (slotsFrom vecs n rows.length).map
      (assign (fun _ => []) ((slotsFrom vecs n rows.length).zip rows)) = rows := Lib.map_assign_zip hws hlen
  have hlive := congrArg List.length (@settle_blocks ndim
    (assign (fun _ => []) ((slotsFrom vecs n rows.length).zip rows)) _ hws)
  rw [List.length_map, hrows, hkept] at hlive
  have hsettle := settle_perm (hlive.trans hlen.symm)
  have hsplit : vecs.take n ++ slotsFrom vecs n rows.length ++ vecs.drop (n + rows.length) = vecs := by
    rw [← take_add_slotsFrom, List.take_append_drop]
  have hperm := (hsettle.append_left (vecs.take n)).append_right (vecs.drop (n + rows.length))
  rwa [hsplit] at hperm

/-- A single block has nothing to be sorted or merged with. -/
theorem Slots.fill_single {b : Box} (hroom : n < s.vecs.length) : s.fill ndim n [b] = (s.put n [b], n + 1) := by
  have hslot : slotsFrom s.vecs n 1 = [s.vecs[n]] := by
    rw [slotsFrom, List.drop_eq_getElem_cons hroom]
    rfl
  have hsettle : settle ndim (s.put n [b]).data [s.vecs[n]] = ⟨(s.put n [b]).data, [s.vecs[n]], []⟩ := by
    show Merging.passes ndim ⟨_, [s.vecs[n]], []⟩ = _
    induction ndim with
    | zero => rfl
    | succ d ih => exact ih
  have hvecs : s.vecs.take n ++ ([s.vecs[n]] ++ []) ++ s.vecs.drop (n + 1) = s.vecs := by
    rw [List.append_nil, List.append_assoc, List.singleton_append, ← List.drop_eq_getElem_cons hroom,
      List.take_append_drop]
  unfold Slots.fill
  simp only [List.length_singleton, hslot, hsettle, Slots.settled, hvecs]
  rfl

end Fill

end LogVol
