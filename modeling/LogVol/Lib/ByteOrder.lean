/-
# LogVol.Lib.ByteOrder — machine words on machines of either byte order.

A machine stores the bytes of a word from one end or from the other. A format that is fixed to one order is written
on the other machines by storing words natively and rewriting them in place, group by group, with a function that
reverses their bytes; it is read by rewriting before loading. `eachWord_groups` says what a pass over a run of
groups leaves, and `rewriteWords_run` what a reader finds after one. A pass that is told to cover more bytes than
there are fails.
-/
import LogVol.Lib.Reader

namespace LogVol.Lib

/-! ## §1 — stores and loads. -/

/-- Which end of a word is stored first. -/
inductive ByteOrder
  | little
  | big
  deriving DecidableEq, Repr

/-- The bytes of a word as the machine stores them. -/
def ByteOrder.store (o : ByteOrder) (k : ℕ) {w : ℕ} (v : BitVec w) : List UInt8 :=
  match o with
  | .little => putWord k v
  | .big => (putWord k v).reverse

/-- The word the machine loads. -/
def ByteOrder.load (o : ByteOrder) (w : ℕ) (bs : List UInt8) : BitVec w :=
  match o with
  | .little => getWord w bs
  | .big => getWord w bs.reverse

/-- A sequence of words, one after another. -/
def ByteOrder.stores (o : ByteOrder) (k : ℕ) {w : ℕ} (vs : List (BitVec w)) : List UInt8 :=
  vs.flatMap (o.store k)

@[simp] theorem store_length (o : ByteOrder) (k : ℕ) {w : ℕ} (v : BitVec w) : (o.store k v).length = k := by
  cases o <;> simp [ByteOrder.store]

theorem load_store (o : ByteOrder) {k w : ℕ} (hw : w = 8 * k) (v : BitVec w) : o.load w (o.store k v) = v := by
  cases o with
  | little => exact getWord_putWord hw v
  | big =>
    rw [ByteOrder.store, ByteOrder.load, List.reverse_reverse]
    exact getWord_putWord hw v

theorem stores_append (o : ByteOrder) (k : ℕ) {w : ℕ} (us vs : List (BitVec w)) :
    o.stores k (us ++ vs) = o.stores k us ++ o.stores k vs :=
  List.flatMap_append

theorem stores_flatMap (o : ByteOrder) (k : ℕ) {w : ℕ} {α : Type} (f : α → List (BitVec w)) (l : List α) :
    o.stores k (l.flatMap f) = l.flatMap fun a => o.stores k (f a) :=
  List.flatMap_assoc

theorem stores_map (o : ByteOrder) (k : ℕ) {w : ℕ} {α : Type} (f : α → BitVec w) (l : List α) :
    o.stores k (l.map f) = l.flatMap fun a => o.store k (f a) :=
  List.flatMap_map ..

@[simp] theorem stores_length (o : ByteOrder) (k : ℕ) {w : ℕ} (vs : List (BitVec w)) :
    (o.stores k vs).length = k * vs.length := by
  induction vs with
  | nil => rfl
  | cons v vs ih =>
    show (o.store k v ++ o.stores k vs).length = _
    rw [List.length_append, store_length, ih, List.length_cons]
    ring

/-! ## §2 — reversing words. -/

/-- A function on words reverses their bytes. -/
def ReversesBytes (k : ℕ) {w : ℕ} (f : BitVec w → BitVec w) : Prop :=
  ∀ v, putWord k (f v) = (putWord k v).reverse

theorem leBytes_eq_map (k n : ℕ) : leBytes k n = (List.range k).map fun i => UInt8.ofNat (n / 256 ^ i) := by
  induction k generalizing n with
  | zero => rfl
  | succ k ih =>
    rw [leBytes, ih, List.range_succ_eq_map, List.map_cons, List.map_map, pow_zero, Nat.div_one]
    congr 1
    apply List.map_congr_left
    intro i _
    rw [Function.comp_apply, Nat.div_div_eq_div_mul, ← pow_succ']

/-- Byte `i` of a word holds its bits `8 * i` to `8 * i + 7`. -/
theorem byte_eq_of_bits {m n i j : ℕ} (h : ∀ b < 8, m.testBit (8 * i + b) = n.testBit (8 * j + b)) :
    UInt8.ofNat (m / 256 ^ i) = UInt8.ofNat (n / 256 ^ j) := by
  have hpow (i : ℕ) : (256 : ℕ) ^ i = 2 ^ (8 * i) := by
    rw [pow_mul]
    rfl
  apply UInt8.toNat_inj.mp
  rw [UInt8.toNat_ofNat', UInt8.toNat_ofNat', hpow, hpow]
  apply Nat.eq_of_testBit_eq
  intro b
  rw [Nat.testBit_mod_two_pow, Nat.testBit_mod_two_pow, Nat.testBit_div_two_pow, Nat.testBit_div_two_pow]
  by_cases hb : b < 8
  · rw [Nat.add_comm b, Nat.add_comm b, h b hb]
  · simp [hb]

/-- **A function reverses the bytes of a word** when it moves every bit to the mirrored byte. -/
theorem reversesBytes_of_bits {k w : ℕ} {f : BitVec w → BitVec w}
    (h : ∀ v : BitVec w, ∀ i < k, ∀ b < 8, (f v).getLsbD (8 * i + b) = v.getLsbD (8 * (k - 1 - i) + b)) :
    ReversesBytes k f := by
  intro v
  apply List.ext_getElem
  · simp
  · intro i hi hi'
    simp only [putWord_length] at hi
    rw [List.getElem_reverse]
    simp only [putWord, leBytes_eq_map, List.getElem_map, List.getElem_range, List.length_map, List.length_range]
    apply byte_eq_of_bits
    intro b hb
    exact h v i hi b hb

/-! ## §3 — rewriting words in place. -/

/-- `for (; start < end; start++) f (start)` over `n` words: load each, store what `f` makes of it. -/
def eachWord (o : ByteOrder) (k : ℕ) {w : ℕ} (f : BitVec w → BitVec w) : ℕ → List UInt8 → List UInt8
  | 0, bs => bs
  | n + 1, bs => o.store k (f (o.load w (bs.take k))) ++ eachWord o k f n (bs.drop k)

/-- A word rewritten by a function that reverses bytes, on whatever machine. -/
theorem store_load_reverse (o : ByteOrder) {k w : ℕ} (hw : w = 8 * k) {f : BitVec w → BitVec w}
    (hf : ReversesBytes k f) {bs : List UInt8} (hbs : bs.length = k) : o.store k (f (o.load w bs)) = bs.reverse := by
  cases o with
  | little => rw [ByteOrder.store, ByteOrder.load, hf, putWord_getWord hw hbs]
  | big =>
    have hrev : bs.reverse.length = k := by
      rw [List.length_reverse, hbs]
    rw [ByteOrder.store, ByteOrder.load, hf, putWord_getWord hw hrev, List.reverse_reverse]

/-- **A pass over a run of groups** leaves each of them reversed, and nothing behind them changed. -/
theorem eachWord_groups (o : ByteOrder) {k w : ℕ} (hw : w = 8 * k) {f : BitVec w → BitVec w}
    (hf : ReversesBytes k f) :
    ∀ {gs : List (List UInt8)} (_ : ∀ g ∈ gs, g.length = k) (tail : List UInt8),
      eachWord o k f gs.length (gs.flatten ++ tail) = (gs.map List.reverse).flatten ++ tail
  | [], _, _ => rfl
  | g :: gs, hlen, tail => by
    have hg : g.length = k := hlen g (List.mem_cons_self ..)
    have htake : ((g :: gs).flatten ++ tail).take k = g := by
      rw [List.flatten_cons, List.append_assoc, ← hg, List.take_left]
    have hdrop : ((g :: gs).flatten ++ tail).drop k = gs.flatten ++ tail := by
      rw [List.flatten_cons, List.append_assoc, ← hg, List.drop_left]
    rw [List.length_cons, eachWord, htake, hdrop, store_load_reverse o hw hf hg,
      eachWord_groups o hw hf (fun g' hg' => hlen g' (List.mem_cons_of_mem g hg')) tail, List.map_cons,
      List.flatten_cons, List.append_assoc]

theorem flatten_map_store (o : ByteOrder) (k : ℕ) {w : ℕ} (vs : List (BitVec w)) :
    (vs.map (o.store k)).flatten = o.stores k vs := by
  rw [ByteOrder.stores, List.flatMap_def]

section BigMachine

variable {k w : ℕ} {f : BitVec w → BitVec w}

/-- Words stored by a big-endian machine, rewritten, are little-endian. -/
theorem eachWord_stores (hw : w = 8 * k) (hf : ReversesBytes k f) (vs : List (BitVec w)) (tail : List UInt8) :
    eachWord .big k f vs.length (ByteOrder.big.stores k vs ++ tail) = putWords k vs ++ tail := by
  have hlen : ∀ g ∈ vs.map (ByteOrder.big.store k), g.length = k := by simp
  have hgroups := eachWord_groups .big hw hf hlen tail
  have hrev : (vs.map (ByteOrder.big.store k)).map List.reverse = vs.map (ByteOrder.little.store k) := by
    simp [ByteOrder.store, Function.comp_def]
  rwa [List.length_map, flatten_map_store, hrev, flatten_map_store] at hgroups

/-- Little-endian words, rewritten on a big-endian machine, are its own. -/
theorem eachWord_putWords (hw : w = 8 * k) (hf : ReversesBytes k f) (vs : List (BitVec w)) (tail : List UInt8) :
    eachWord .big k f vs.length (putWords k vs ++ tail) = ByteOrder.big.stores k vs ++ tail := by
  have hlen : ∀ g ∈ vs.map (ByteOrder.little.store k), g.length = k := by simp
  have hgroups := eachWord_groups .big hw hf hlen tail
  have hrev : (vs.map (ByteOrder.little.store k)).map List.reverse = vs.map (ByteOrder.big.store k) := by
    simp [ByteOrder.store, Function.comp_def]
  rwa [List.length_map, flatten_map_store, hrev, flatten_map_store] at hgroups

end BigMachine

/-! ## §4 — readers of either machine. -/

variable {ε α : Type}

/-- The next word, as the machine loads it. -/
def loadWord (short : ε) (o : ByteOrder) (k w : ℕ) : Reader ε (BitVec w) := o.load w <$> takeBytes short k

/-- Rewrite the next `n` words in place, and stay there. -/
def rewriteWords (short : ε) (o : ByteOrder) (k : ℕ) {w : ℕ} (f : BitVec w → BitVec w) (n : ℕ) : Reader ε Unit :=
  fun bs => if k * n ≤ bs.length then .ok ((), eachWord o k f n bs) else .error short

/-- Read without moving on. -/
def peek (r : Reader ε α) : Reader ε α := fun bs => (r.run bs).map fun p => (p.1, bs)

/-- A computation that consumes nothing, and what follows it. -/
theorem run_pureExcept_bind {β : Type} (x : Except ε α) (g : α → Reader ε β) (bs : List UInt8) :
    (pureExcept x >>= g).run bs = x >>= fun a => (g a).run bs := by
  cases x <;> rfl

theorem Reads.loadWord {o : ByteOrder} {short : ε} {k w : ℕ} (hw : w = 8 * k) (v : BitVec w) :
    Reads (loadWord short o k w) (o.store k v) v := by
  have hbytes : Reads (Lib.takeBytes short k) (o.store k v) (o.store k v) := Reads.takeBytes (store_length o k v)
  have hword := hbytes.map (o.load w)
  rwa [load_store o hw] at hword

/-- **A pass over little-endian words** turns them into the machine's own. -/
theorem rewriteWords_run {short : ε} {k w : ℕ} (hw : w = 8 * k) {f : BitVec w → BitVec w} (hf : ReversesBytes k f)
    (vs : List (BitVec w)) (rest : List UInt8) :
    (rewriteWords short .big k f vs.length).run (putWords k vs ++ rest) =
      .ok ((), ByteOrder.big.stores k vs ++ rest) := by
  have hfits : k * vs.length ≤ (putWords k vs ++ rest).length := by
    rw [List.length_append, putWords_length]
    omega
  show (if _ then _ else _) = _
  rw [if_pos hfits, eachWord_putWords hw hf]

/-- A pass over more words than there are fails. -/
theorem rewriteWords_short {o : ByteOrder} {short : ε} {k w : ℕ} {f : BitVec w → BitVec w} {n : ℕ} {bs : List UInt8}
    (h : bs.length < k * n) : (rewriteWords short o k f n).run bs = .error short := by
  show (if _ then _ else _) = _
  rw [if_neg (by omega)]

theorem Reads.peek {r : Reader ε α} {bs : List UInt8} {a : α} (hr : Reads r bs a) (rest : List UInt8) :
    (peek r).run (bs ++ rest) = .ok (a, bs ++ rest) := by
  show (r.run (bs ++ rest)).map _ = _
  rw [hr rest]
  rfl

end LogVol.Lib
