/-
# LogVol.Lib.ByteStore — a byte-addressed store, and ranges laid end to end.

A `Store` maps addresses to bytes: a file or a memory. `Store.write` and `Store.read` move byte strings
in and out; writes to disjoint ranges commute (`writeAll_perm`), and writing strings end to end is
writing their concatenation (`write_append`). `layout` is the list of ranges obtained by laying sizes
end to end: they are pairwise disjoint, cover exactly the interval they fill, and reading each of them
takes a concatenation apart again (`read_layout`).
-/
import Mathlib

namespace LogVol.Lib

/-! ## §1 — reading and writing. -/

/-- A byte at every address. -/
abbrev Store := Nat → UInt8

/-- Put `bs` at `off`. -/
def Store.write (s : Store) (off : Nat) (bs : List UInt8) : Store := fun a =>
  if off ≤ a ∧ a < off + bs.length then bs.getD (a - off) 0 else s a

/-- The `n` bytes at `off`. -/
def Store.read (s : Store) (off n : Nat) : List UInt8 := (List.range n).map fun i => s (off + i)

@[simp] theorem Store.read_length (s : Store) (off n : Nat) : (s.read off n).length = n := by
  rw [Store.read, List.length_map, List.length_range]

theorem Store.read_add (s : Store) (off m n : Nat) :
    s.read off (m + n) = s.read off m ++ s.read (off + m) n := by
  rw [Store.read, List.range_add, List.map_append, List.map_map]
  simp only [Store.read, Function.comp_def, Nat.add_assoc]

theorem Store.take_read (s : Store) (off : Nat) {m n : Nat} (h : m ≤ n) :
    (s.read off n).take m = s.read off m := by
  rw [← Nat.add_sub_of_le h, Store.read_add, List.take_left' (Store.read_length ..)]

theorem Store.write_of_mem {s : Store} {off a : Nat} {bs : List UInt8} (h : off ≤ a)
    (h' : a < off + bs.length) : s.write off bs a = bs.getD (a - off) 0 := if_pos ⟨h, h'⟩

theorem Store.write_of_not_mem {s : Store} {off a : Nat} {bs : List UInt8}
    (h : a < off ∨ off + bs.length ≤ a) : s.write off bs a = s a := if_neg (by omega)

@[simp] theorem Store.write_nil (s : Store) (off : Nat) : s.write off [] = s := by
  funext a
  refine Store.write_of_not_mem ?_
  rw [List.length_nil]
  omega

/-- Writing a concatenation is writing its two parts end to end. -/
theorem Store.write_append (s : Store) (off : Nat) (bs cs : List UInt8) :
    s.write off (bs ++ cs) = (s.write off bs).write (off + bs.length) cs := by
  funext a
  by_cases hcs : off + bs.length ≤ a ∧ a < off + bs.length + cs.length
  · rw [Store.write_of_mem hcs.1 hcs.2, Store.write_of_mem (by omega) (by rw [List.length_append]; omega),
      List.getD_append_right _ _ _ _ (by omega)]
    congr 1
    omega
  · rw [Store.write_of_not_mem (s := s.write off bs) (by omega)]
    by_cases hbs : off ≤ a ∧ a < off + bs.length
    · rw [Store.write_of_mem hbs.1 hbs.2,
        Store.write_of_mem hbs.1 (by rw [List.length_append]; omega),
        List.getD_append _ _ _ _ (by omega)]
    · have houtside : a < off ∨ off + (bs ++ cs).length ≤ a := by
        rw [List.length_append]
        omega
      rw [Store.write_of_not_mem houtside, Store.write_of_not_mem (by omega)]

theorem Store.read_write_self (s : Store) (off : Nat) (bs : List UInt8) :
    (s.write off bs).read off bs.length = bs := by
  refine List.ext_getElem (Store.read_length ..) fun i h _ => ?_
  rw [Store.read_length] at h
  simp only [Store.read, List.getElem_map, List.getElem_range]
  rw [Store.write_of_mem (by omega) (by omega), Nat.add_sub_cancel_left, List.getD_eq_getElem]

theorem Store.read_congr {s s' : Store} {off n : Nat} (h : ∀ a, off ≤ a → a < off + n → s a = s' a) :
    s.read off n = s'.read off n :=
  List.map_congr_left fun i hi => h _ (Nat.le_add_right ..) (by
    have := List.mem_range.mp hi
    omega)

/-- Two ranges, each an offset and a length, without a common address. -/
def RangesDisjoint (r r' : Nat × Nat) : Prop := r.1 + r.2 ≤ r'.1 ∨ r'.1 + r'.2 ≤ r.1 ∨ r.2 = 0 ∨ r'.2 = 0

theorem RangesDisjoint.symm {r r' : Nat × Nat} (h : RangesDisjoint r r') : RangesDisjoint r' r := by
  unfold RangesDisjoint at h ⊢
  tauto

theorem Store.read_write_disjoint {s : Store} {off n off' : Nat} {bs : List UInt8}
    (h : RangesDisjoint (off, n) (off', bs.length)) : (s.write off' bs).read off n = s.read off n :=
  Store.read_congr fun a _ _ => Store.write_of_not_mem (by unfold RangesDisjoint at h; omega)

/-! ## §2 — many writes. -/

/-- A sequence of writes, each an offset and what to put there. -/
def Store.writeAll (s : Store) (ws : List (Nat × List UInt8)) : Store :=
  ws.foldl (fun s w => s.write w.1 w.2) s

/-- The range a write covers. -/
def writeRange (w : Nat × List UInt8) : Nat × Nat := (w.1, w.2.length)

theorem Store.write_comm {s : Store} {w w' : Nat × List UInt8}
    (h : RangesDisjoint (writeRange w) (writeRange w')) :
    (s.write w.1 w.2).write w'.1 w'.2 = (s.write w'.1 w'.2).write w.1 w.2 := by
  funext a
  unfold RangesDisjoint writeRange at h
  by_cases hw : w.1 ≤ a ∧ a < w.1 + w.2.length
  · have hw' : a < w'.1 ∨ w'.1 + w'.2.length ≤ a := by omega
    rw [Store.write_of_not_mem hw', Store.write_of_mem hw.1 hw.2, Store.write_of_mem hw.1 hw.2]
  · rw [Store.write_of_not_mem (s := s.write w'.1 w'.2) (by omega)]
    by_cases hw' : w'.1 ≤ a ∧ a < w'.1 + w'.2.length
    · rw [Store.write_of_mem hw'.1 hw'.2, Store.write_of_mem hw'.1 hw'.2]
    · rw [Store.write_of_not_mem (by omega), Store.write_of_not_mem (by omega),
        Store.write_of_not_mem (by omega)]

/-- **Writes to pairwise disjoint ranges may be made in any order.** -/
theorem Store.writeAll_perm {ws ws' : List (Nat × List UInt8)} (hperm : ws.Perm ws')
    (hdisj : ws.Pairwise fun w w' => RangesDisjoint (writeRange w) (writeRange w')) (s : Store) :
    s.writeAll ws = s.writeAll ws' := by
  induction hperm generalizing s with
  | nil => rfl
  | cons w _ ih => exact ih (List.pairwise_cons.mp hdisj).2 _
  | swap w w' ws =>
      have h := (List.pairwise_cons.mp hdisj).1 w (List.mem_cons_self ..)
      exact congrArg (fun s => Store.writeAll s ws) (Store.write_comm h)
  | trans h₁ _ ih₁ ih₂ =>
      rw [ih₁ hdisj, ih₂ ((h₁.pairwise_iff fun h => h.symm).mp hdisj)]

/-- An address in the range of none of the writes. -/
theorem Store.writeAll_of_notMem {ws : List (Nat × List UInt8)} {a : Nat}
    (h : ∀ w ∈ ws, a < w.1 ∨ w.1 + w.2.length ≤ a) (s : Store) : s.writeAll ws a = s a := by
  induction ws generalizing s with
  | nil => rfl
  | cons w ws ih =>
      have hrest := ih (fun v hv => h v (List.mem_cons_of_mem w hv)) (s.write w.1 w.2)
      exact hrest.trans (Store.write_of_not_mem (h w (List.mem_cons_self ..)))

/-- What one of several disjoint writes has put there is there in the end. -/
theorem Store.read_writeAll_mem {ws : List (Nat × List UInt8)}
    (hdisj : ws.Pairwise fun w w' => RangesDisjoint (writeRange w) (writeRange w'))
    {w : Nat × List UInt8} (hw : w ∈ ws) (s : Store) : (s.writeAll ws).read w.1 w.2.length = w.2 := by
  induction ws generalizing s with
  | nil => cases hw
  | cons v ws ih =>
      obtain ⟨hv, hws⟩ := List.pairwise_cons.mp hdisj
      rcases List.mem_cons.mp hw with rfl | hw
      · -- the later writes are elsewhere
        refine Eq.trans (Store.read_congr fun a hlo hhi => ?_) (Store.read_write_self s w.1 w.2)
        refine Store.writeAll_of_notMem (fun v hmem => ?_) (s.write w.1 w.2)
        have := hv v hmem
        unfold RangesDisjoint writeRange at this
        omega
      · exact ih hws hw _

/-! ## §3 — ranges laid end to end. -/

/-- The ranges that sizes occupy when laid end to end from `start` on. -/
def layout : Nat → List Nat → List (Nat × Nat)
  | _, [] => []
  | start, n :: ns => (start, n) :: layout (start + n) ns

theorem layout_append (start : Nat) (ms ns : List Nat) :
    layout start (ms ++ ns) = layout start ms ++ layout (start + ms.sum) ns := by
  induction ms generalizing start with
  | nil => rfl
  | cons m ms ih => rw [List.cons_append, layout, ih, layout, List.sum_cons, List.cons_append, Nat.add_assoc]

theorem mem_layout_bounds {start : Nat} {ns : List Nat} {r : Nat × Nat} (h : r ∈ layout start ns) :
    start ≤ r.1 ∧ r.1 + r.2 ≤ start + ns.sum := by
  induction ns generalizing start with
  | nil => cases h
  | cons n ns ih =>
      rw [List.sum_cons]
      rcases List.mem_cons.mp h with rfl | h
      · show start ≤ start ∧ start + n ≤ _
        omega
      · have := ih h
        omega

/-- Each range ends before the next begins. -/
theorem layout_ordered (start : Nat) (ns : List Nat) :
    (layout start ns).Pairwise fun r r' => r.1 + r.2 ≤ r'.1 := by
  induction ns generalizing start with
  | nil => exact List.Pairwise.nil
  | cons n ns ih =>
      refine List.pairwise_cons.mpr ⟨fun r hr => ?_, ih _⟩
      exact (mem_layout_bounds hr).1

/-- No two of the ranges overlap. -/
theorem layout_pairwise (start : Nat) (ns : List Nat) : (layout start ns).Pairwise RangesDisjoint :=
  (layout_ordered start ns).imp Or.inl

/-- The ranges cover exactly the interval they fill. -/
theorem mem_layout_iff {start a : Nat} {ns : List Nat} :
    (∃ r ∈ layout start ns, r.1 ≤ a ∧ a < r.1 + r.2) ↔ start ≤ a ∧ a < start + ns.sum := by
  induction ns generalizing start with
  | nil =>
      rw [List.sum_nil]
      constructor
      · rintro ⟨r, hr, -⟩
        cases hr
      · omega
  | cons n ns ih =>
      rw [layout, List.exists_mem_cons_iff, ih, List.sum_cons]
      simp only
      omega

/-- Writing strings end to end is one write of their concatenation. -/
theorem Store.writeAll_layout (s : Store) (start : Nat) (bss : List (List UInt8)) :
    s.writeAll (((layout start (bss.map List.length)).map Prod.fst).zip bss) =
      s.write start bss.flatten := by
  induction bss generalizing s start with
  | nil => rw [List.flatten_nil, Store.write_nil]; rfl
  | cons bs bss ih => rw [List.flatten_cons, Store.write_append]; exact ih _ _

/-- Reading the ranges takes a concatenation apart. -/
theorem Store.read_layout {s : Store} {start : Nat} {bss : List (List UInt8)}
    (h : s.read start bss.flatten.length = bss.flatten) :
    List.Forall₂ (fun r bs => s.read r.1 r.2 = bs) (layout start (bss.map List.length)) bss := by
  induction bss generalizing start with
  | nil => exact List.Forall₂.nil
  | cons bs bss ih =>
      rw [List.flatten_cons, List.length_append, Store.read_add] at h
      obtain ⟨hbs, hbss⟩ := List.append_inj h (Store.read_length ..)
      exact List.Forall₂.cons hbs (ih hbss)

/-- Reading the ranges one after another is reading all of them at once. -/
theorem Store.map_read_layout (s : Store) (start : Nat) (ns : List Nat) :
    (layout start ns).map (fun r => s.read r.1 r.2) = ns.splitLengths (s.read start ns.sum) := by
  induction ns generalizing start with
  | nil => rfl
  | cons n ns ih =>
      rw [layout, List.map_cons, ih, List.splitLengths_cons, List.sum_cons, Store.read_add,
        List.take_left' (Store.read_length ..), List.drop_left' (Store.read_length ..)]

theorem forall₂_mem_left {α β : Type} {R : α → β → Prop} {xs : List α} {ys : List β}
    (h : List.Forall₂ R xs ys) {x : α} (hx : x ∈ xs) : ∃ y ∈ ys, R x y := by
  induction h with
  | nil => cases hx
  | @cons x' y xs ys hxy _ ih =>
      rcases List.mem_cons.mp hx with rfl | hx
      · exact ⟨y, List.mem_cons_self .., hxy⟩
      · obtain ⟨y', hy', h'⟩ := ih hx
        exact ⟨y', List.mem_cons_of_mem _ hy', h'⟩

/-- Two ranges of one length that start at one place, unless they are empty. -/
def SamePlace (r r' : Nat × Nat) : Prop := r.2 = r'.2 ∧ (r.2 = 0 ∨ r.1 = r'.1)

theorem SamePlace.refl (r : Nat × Nat) : SamePlace r r := ⟨rfl, Or.inr rfl⟩

theorem SamePlace.mem_iff {r r' : Nat × Nat} (h : SamePlace r r') {a : Nat} :
    r.1 ≤ a ∧ a < r.1 + r.2 ↔ r'.1 ≤ a ∧ a < r'.1 + r'.2 := by
  unfold SamePlace at h
  omega

/-- A layout of ranges that are not empty is where they are. -/
theorem eq_of_samePlace {rs ls : List (Nat × Nat)} (h : List.Forall₂ SamePlace rs ls) (hpos : ∀ r ∈ rs, 0 < r.2) :
    rs = ls := by
  induction h with
  | nil => rfl
  | @cons r l rs ls hrl _ ih =>
      obtain ⟨hr, hrs⟩ := List.forall_mem_cons.mp hpos
      obtain ⟨hlen, hzero | hstart⟩ := hrl
      · omega
      · rw [ih hrs, Prod.ext hstart hlen]

/-- Ranges placed as a layout are pairwise disjoint. -/
theorem pairwise_of_samePlace {rs ls : List (Nat × Nat)} (h : List.Forall₂ SamePlace rs ls)
    (hls : ls.Pairwise RangesDisjoint) : rs.Pairwise RangesDisjoint := by
  induction h with
  | nil => exact List.Pairwise.nil
  | @cons r l rs ls hrl hrest ih =>
      obtain ⟨hl, hls⟩ := List.pairwise_cons.mp hls
      refine List.pairwise_cons.mpr ⟨fun r' hr' => ?_, ih hls⟩
      obtain ⟨l', hl', hrl'⟩ := forall₂_mem_left hrest hr'
      have hdisj := hl l' hl'
      unfold RangesDisjoint SamePlace at *
      omega

/-- Ranges placed as a layout cover what the layout covers. -/
theorem mem_samePlace_iff {rs ls : List (Nat × Nat)} (h : List.Forall₂ SamePlace rs ls) {a : Nat} :
    (∃ r ∈ rs, r.1 ≤ a ∧ a < r.1 + r.2) ↔ ∃ l ∈ ls, l.1 ≤ a ∧ a < l.1 + l.2 := by
  induction h with
  | nil => exact Iff.rfl
  | @cons r l rs ls hrl _ ih =>
      rw [List.exists_mem_cons_iff, List.exists_mem_cons_iff, ih]
      exact or_congr (SamePlace.mem_iff hrl) Iff.rfl

/-- Ranges placed as a layout hold what the layout holds. -/
theorem Store.read_samePlace {s : Store} {r r' : Nat × Nat} (h : SamePlace r r') :
    s.read r.1 r.2 = s.read r'.1 r'.2 := by
  obtain ⟨hlen, hzero | hstart⟩ := h
  · rw [← hlen, hzero]
    rfl
  · rw [hlen, hstart]

theorem Store.read_samePlaces {s : Store} {rs ls : List (Nat × Nat)} {bss : List (List UInt8)}
    (h : List.Forall₂ SamePlace rs ls) (hls : List.Forall₂ (fun l bs => s.read l.1 l.2 = bs) ls bss) :
    List.Forall₂ (fun r bs => s.read r.1 r.2 = bs) rs bss := by
  induction h generalizing bss with
  | nil =>
      cases hls
      exact List.Forall₂.nil
  | cons hrl _ ih =>
      cases hls with
      | cons hl hls => exact List.Forall₂.cons ((Store.read_samePlace hrl).trans hl) (ih hls)

end LogVol.Lib
