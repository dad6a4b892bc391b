/-
# LogVol.Sections — a section of metadata entries, wherever it lies.

The entries one process wrote in one metadata flush form a section: an entry may refer to an earlier one
of its section and to none of another. Each index makes its own entries of what it parses, with what it
kept of the entries that can be referred to; `EntryParser` is what of an index that takes. `Parses` says
that a section can be parsed on its own, and which entries come out. A section that can is parsed to the
same entries behind any other sections (`Parses.shift`), whatever follows it, so a buffer of several
sections is parsed section by section (`Parses.flatten`).
-/
import LogVol.IdxList

namespace LogVol

variable {z : Option Zlib} {share : Bool} {dsets : List (Option DsetInfo)} {dset : DsetInfo}

/-! ## §1 — one entry. -/

/-- What was kept of the entries parsed so far, by position, the newest first. -/
abbrev PosCache (V : Type) := List (Int × V)

def PosCache.get? {V : Type} (c : PosCache V) (pos : Int) : Option V :=
  (c.find? fun p => p.1 == pos).map Prod.snd

/-- The record number and the relative offset of a reference, behind its header. -/
def refWords (hdr : MetaHdr) (ent : List UInt8) : Except Fault (Option HSize × MpiOffset) :=
  ((do
    let recnum ← readRecnum hdr.flag
    let roff ← readOffset
    pure (recnum, roff)).run (ent.drop sizeofHdr)).map Prod.fst

theorem readOffset_append {bs rest : List UInt8} {v : MpiOffset} (h : readOffset.run bs = .ok (v, rest))
    (tail : List UInt8) : readOffset.run (bs ++ tail) = .ok (v, rest ++ tail) := by
  obtain ⟨enc, rfl, rfl⟩ := (Lib.Accepts.takeWord (by decide) bs v rest).mp h
  rw [List.append_assoc]
  exact (Lib.Accepts.takeWord (by decide) _ v _).mpr ⟨_, rfl, rfl⟩

theorem readRecnum_append {flag : I32} {bs rest : List UInt8} {recnum : Option HSize}
    (h : (readRecnum flag).run bs = .ok (recnum, rest)) (tail : List UInt8) :
    (readRecnum flag).run (bs ++ tail) = .ok (recnum, rest ++ tail) := by
  unfold readRecnum at h ⊢
  split at h
  · rename_i hflag
    rw [StateT.run_map] at h
    obtain ⟨⟨v, mid⟩, hv, h⟩ := Lib.bind_eq_ok.mp h
    obtain ⟨rfl, rfl⟩ := Prod.mk.inj (Except.ok.inj h)
    rw [if_pos hflag, StateT.run_map, readOffset_append hv tail]
    rfl
  · rename_i hflag
    obtain ⟨rfl, rfl⟩ := Prod.mk.inj (Except.ok.inj h)
    rw [if_neg hflag]
    rfl

/-- What a reference is read as does not depend on what follows it. -/
theorem refWords_append {hdr : MetaHdr} {bs : List UInt8} {w : Option HSize × MpiOffset}
    (hlen : sizeofHdr ≤ bs.length) (h : refWords hdr bs = .ok w) (tail : List UInt8) :
    refWords hdr (bs ++ tail) = .ok w := by
  unfold refWords at h ⊢
  rcases hrun : StateT.run (do
      let recnum ← readRecnum hdr.flag
      let roff ← readOffset
      pure (recnum, roff)) (bs.drop sizeofHdr) with err | ⟨out, rest⟩
  · rw [hrun] at h
    cases h
  · rw [hrun] at h
    obtain rfl := Except.ok.inj h
    obtain ⟨recnum, mid, hrec, hrest⟩ := Lib.run_bind_eq_ok.mp hrun
    obtain ⟨roff, mid', hroff, hrest⟩ := Lib.run_bind_eq_ok.mp hrest
    obtain ⟨rfl, -⟩ := Prod.mk.inj (Except.ok.inj hrest)
    have hlonger : StateT.run (do
        let recnum ← readRecnum hdr.flag
        let roff ← readOffset
        pure (recnum, roff)) (bs.drop sizeofHdr ++ tail) = .ok ((recnum, roff), mid' ++ tail) := by
      refine Lib.run_bind_eq_ok.mpr ⟨recnum, mid ++ tail, readRecnum_append hrec tail, ?_⟩
      exact Lib.run_bind_eq_ok.mpr ⟨roff, mid' ++ tail, readOffset_append hroff tail, rfl⟩
    rw [List.drop_append_of_le_length hlen, hlonger]
    rfl

theorem refWords_metaBuf {r : WReq} {w w' : Option HSize × MpiOffset} {tail : List UInt8}
    (h : refWords r.hdr (r.metaBuf ++ []) = .ok w) (h' : refWords r.hdr (r.metaBuf ++ tail) = .ok w') :
    w = w' := by
  have hlen : sizeofHdr ≤ r.metaBuf.length := by
    rw [WReq.metaBuf, List.length_append, MetaHdr.bytes_length]
    exact Nat.le_add_right _ _
  rw [List.append_nil] at h
  exact Except.ok.inj ((refWords_append hlen h tail).symm.trans h')

/-- How an index makes an entry: `plain` of the bytes of an entry with blocks of its own, `ref` of a
reference and what was kept of the entry it refers to. `keep` is what is kept of a plain entry. -/
structure EntryParser (E V : Type) where
  plain : DsetInfo → List UInt8 → Except Fault E
  ref : DsetInfo → MetaHdr → List UInt8 → V → Except Fault E
  keep : E → V

/-- A reference, in a file with metadata sharing. -/
def MetaHdr.isRef (share : Bool) (hdr : MetaHdr) : Bool := share && hasFlag hdr.flag MetaFlag.selRef

section Parser

variable {E V : Type} (P : EntryParser E V)

/-- The entry at `pos`; a reference has to refer to an entry that was kept. -/
def EntryParser.entryAt (share : Bool) (dset : DsetInfo) (hdr : MetaHdr) (ent : List UInt8) (pos : Int)
    (c : PosCache V) : Except Fault E :=
  if hdr.isRef share then
    refWords hdr ent >>= fun w =>
      (c.get? (pos + w.2.toInt)).elim (.error .outside) (P.ref dset hdr ent)
  else P.plain dset ent

/-- A reference that comes out: what was kept of the entry it refers to. -/
theorem EntryParser.entryAt_ref {hdr : MetaHdr} {ent : List UInt8} {pos : Int} {c : PosCache V} {e : E}
    (href : hdr.isRef share = true) :
    P.entryAt share dset hdr ent pos c = .ok e ↔ ∃ w v, refWords hdr ent = .ok w ∧
      c.get? (pos + w.2.toInt) = some v ∧ P.ref dset hdr ent v = .ok e := by
  rw [EntryParser.entryAt, if_pos href, Lib.bind_eq_ok]
  constructor
  · rintro ⟨w, hw, h⟩
    rcases hget : c.get? (pos + w.2.toInt) with _ | v
    · rw [hget] at h
      cases h
    · rw [hget] at h
      exact ⟨w, v, hw, hget, h⟩
  · rintro ⟨w, v, hw, hget, h⟩
    exact ⟨w, hw, by rw [hget]; exact h⟩

theorem EntryParser.entryAt_plain {hdr : MetaHdr} (ent : List UInt8) (pos : Int) (c : PosCache V)
    (hplain : hdr.isRef share = false) : P.entryAt share dset hdr ent pos c = P.plain dset ent := by
  rw [EntryParser.entryAt, hplain, if_neg Bool.false_ne_true]

theorem EntryParser.entryAt_unshared (hdr : MetaHdr) (ent : List UInt8) (pos : Int) (c : PosCache V) :
    P.entryAt false dset hdr ent pos c = P.plain dset ent :=
  P.entryAt_plain ent pos c (Bool.false_and _)

/-- The cache behind it. -/
def EntryParser.after (share : Bool) (hdr : MetaHdr) (pos : Int) (e : E) (c : PosCache V) : PosCache V :=
  if share && !hasFlag hdr.flag MetaFlag.selRef then (pos, P.keep e) :: c else c

/-- What is kept in `c` is kept in `c'`, `d` bytes further on. -/
def PosCache.FoundIn (d : Int) (c c' : PosCache V) : Prop :=
  ∀ pos v, c.get? pos = some v → c'.get? (pos + d) = some v

theorem PosCache.foundIn_nil (d : Int) (c : PosCache V) : PosCache.FoundIn d [] c :=
  fun _ _ h => absurd h (by simp [PosCache.get?])

theorem PosCache.get?_cons (pos pos' : Int) (v : V) (c : PosCache V) :
    PosCache.get? ((pos', v) :: c) pos = if pos' = pos then some v else c.get? pos := by
  unfold PosCache.get?
  by_cases h : pos' = pos
  · simp [h]
  · simp [h]

theorem PosCache.FoundIn.cons {d : Int} {c c' : PosCache V} (h : c.FoundIn d c') (pos : Int) (v : V) :
    PosCache.FoundIn d ((pos, v) :: c) ((pos + d, v) :: c') := by
  intro p w
  rw [PosCache.get?_cons, PosCache.get?_cons]
  by_cases hp : pos = p
  · rw [if_pos hp, if_pos (by rw [hp])]
    exact id
  · rw [if_neg hp, if_neg (by omega)]
    exact h p w

theorem PosCache.FoundIn.after {d : Int} {c c' : PosCache V} (h : c.FoundIn d c') (hdr : MetaHdr)
    (pos : Int) (e : E) :
    PosCache.FoundIn d (P.after share hdr pos e c) (P.after share hdr (pos + d) e c') := by
  unfold EntryParser.after
  split
  · exact h.cons pos (P.keep e)
  · exact h

/-- What parsing an entry gives does not change when what was kept is found further on. -/
theorem EntryParser.entryAt_shift {hdr : MetaHdr} {ent : List UInt8} {pos d : Int} {c c' : PosCache V} {e : E}
    (hc : c.FoundIn d c') (h : P.entryAt share dset hdr ent pos c = .ok e) :
    P.entryAt share dset hdr ent (pos + d) c' = .ok e := by
  rcases href : hdr.isRef share with _ | _
  · rw [P.entryAt_plain ent (pos + d) c' href]
    rwa [P.entryAt_plain ent pos c href] at h
  · obtain ⟨w, v, hw, hget, h⟩ := (P.entryAt_ref href).mp h
    have hpos : pos + d + w.2.toInt = pos + w.2.toInt + d := by omega
    exact (P.entryAt_ref href).mpr ⟨w, v, hw, by rw [hpos]; exact hc _ v hget, h⟩

/-! ## §2 — a section. -/

/-- **A section parsed on its own**: what becomes of the requests `rs`, the first of them at `pos`, after
the ones in `cache`; nothing becomes of a request of a dataset that is not open. What follows the section
does not matter. -/
inductive Parses (share : Bool) (dsets : List (Option DsetInfo)) :
    Int → PosCache V → List WReq → List (Option E) → Prop
  | nil {pos : Int} {c : PosCache V} : Parses share dsets pos c [] []
  | skip {pos : Int} {c : PosCache V} {r : WReq} {rs : List WReq} {os : List (Option E)}
      (hsize : r.WellSized) (hdset : dsetAt dsets r.hdr.did = .ok none)
      (hrest : Parses share dsets (pos + r.metaBuf.length) c rs os) :
      Parses share dsets pos c (r :: rs) (none :: os)
  | entry {pos : Int} {c : PosCache V} {r : WReq} {rs : List WReq} {e : E} {os : List (Option E)}
      {dset : DsetInfo} (hsize : r.WellSized) (hdset : dsetAt dsets r.hdr.did = .ok (some dset))
      (hentry : ∀ tail, P.entryAt share dset r.hdr (r.metaBuf ++ tail) pos c = .ok e)
      (hrest : Parses share dsets (pos + r.metaBuf.length) (P.after share r.hdr pos e c) rs os) :
      Parses share dsets pos c (r :: rs) (some e :: os)

/-- These come out of the section. -/
def SectionHolds (share : Bool) (dsets : List (Option DsetInfo)) (rs : List WReq) (os : List (Option E)) :
    Prop := Parses P share dsets 0 [] rs os

namespace Parses

variable {P} {pos d : Int} {c c' : PosCache V} {rs rs' : List WReq} {os os' : List (Option E)}

theorem wellSized (h : Parses P share dsets pos c rs os) : ∀ r ∈ rs, r.WellSized := by
  induction h with
  | nil => exact fun _ hr => absurd hr List.not_mem_nil
  | skip hsize _ _ ih => exact List.forall_mem_cons.mpr ⟨hsize, ih⟩
  | entry hsize _ _ _ ih => exact List.forall_mem_cons.mpr ⟨hsize, ih⟩

theorem length_eq (h : Parses P share dsets pos c rs os) : os.length = rs.length := by
  induction h with
  | nil => rfl
  | skip _ _ _ ih => rw [List.length_cons, List.length_cons, ih]
  | entry _ _ _ _ ih => rw [List.length_cons, List.length_cons, ih]

/-- **A section is parsed to the same entries wherever it lies.** -/
theorem shift (h : Parses P share dsets pos c rs os) (hc : c.FoundIn d c') :
    Parses P share dsets (pos + d) c' rs os := by
  induction h generalizing c' with
  | nil => exact Parses.nil
  | @skip pos c r rs os hsize hdset _ ih =>
      have hp : pos + d + r.metaBuf.length = pos + r.metaBuf.length + d := by omega
      refine Parses.skip hsize hdset ?_
      rw [hp]
      exact ih hc
  | @entry pos c r rs e os dset hsize hdset hentry _ ih =>
      have hp : pos + d + r.metaBuf.length = pos + r.metaBuf.length + d := by omega
      refine Parses.entry hsize hdset (fun tail => P.entryAt_shift hc (hentry tail)) ?_
      rw [hp]
      exact ih (hc.after P r.hdr pos e)

/-- Entries followed by entries that can be parsed behind any others. -/
theorem append (h : Parses P share dsets pos c rs os)
    (h' : ∀ c', Parses P share dsets (pos + (rs.flatMap WReq.metaBuf).length) c' rs' os') :
    Parses P share dsets pos c (rs ++ rs') (os ++ os') := by
  have hnext (pos : Int) (r : WReq) (rs : List WReq) : pos + ((r :: rs).flatMap WReq.metaBuf).length =
      pos + r.metaBuf.length + (rs.flatMap WReq.metaBuf).length := by
    rw [List.flatMap_cons, List.length_append, Nat.cast_add, add_assoc]
  induction h with
  | @nil pos c =>
      have hrest := h' c
      rw [List.flatMap_nil, List.length_nil, Nat.cast_zero, add_zero] at hrest
      exact hrest
  | @skip pos c r rs os hsize hdset _ ih =>
      exact Parses.skip hsize hdset (ih fun c' => by rw [← hnext]; exact h' c')
  | @entry pos c r rs e os dset hsize hdset hentry _ ih =>
      exact Parses.entry hsize hdset hentry (ih fun c' => by rw [← hnext]; exact h' c')

/-- **A buffer of sections is parsed section by section.** -/
theorem flatten {secs : List (List WReq)} {held : List (List (Option E))}
    (h : List.Forall₂ (SectionHolds P share dsets) secs held) (pos : Int) (c : PosCache V) :
    Parses P share dsets pos c secs.flatten held.flatten := by
  induction h generalizing pos c with
  | nil => exact Parses.nil
  | @cons rs os secs held hsec _ ih =>
      rw [List.flatten_cons, List.flatten_cons]
      have hfirst : Parses P share dsets (0 + pos) c rs os :=
        Parses.shift hsec (PosCache.foundIn_nil pos c)
      rw [zero_add] at hfirst
      exact hfirst.append fun c' => ih _ c'

end Parses

end Parser

/-! ## §3 — the entries of the list index. -/

/-- The list index keeps the blocks of an entry. -/
def listParser (z : Option Zlib) : EntryParser MetaEntry (List MetaSel) where
  plain := metaentryDecode z
  ref := fun dset _ ent kept => ((metaentryRefDecode dset (fun _ => kept) 0).run ent).map Prod.fst
  keep := MetaEntry.sels

theorem listParser_plain : (listParser z).plain = metaentryDecode z := rfl

theorem listParser_ref (hdr : MetaHdr) (ent : List UInt8) (kept : List MetaSel) :
    (listParser z).ref dset hdr ent kept =
      ((metaentryRefDecode dset (fun _ => kept) 0).run ent).map Prod.fst := rfl

/-- A reference that resolves has found blocks, and carries the header it was read with. -/
theorem metaentryRefDecode_eq_ok {bcache : Int → List MetaSel} {pos : Int}
    {bytes rest : List UInt8} {e : MetaEntry} :
    (metaentryRefDecode dset bcache pos).run bytes = .ok (e, rest) ↔
      ∃ hdr mid, readHdr.run bytes = .ok (hdr, mid) ∧ 0 < hdr.metaSize.toInt ∧
        ∃ recnum mid', (readRecnum hdr.flag).run mid = .ok (recnum, mid') ∧
        ∃ roff, readOffset.run mid' = .ok (roff, rest) ∧
        ∃ sels, refSels dset.ndim recnum (bcache (pos + roff.toInt)) = .ok sels ∧
        ∃ dsize, lastBlockEnd dset.esize dset.ndim sels = .ok dsize ∧ e = ⟨hdr, sels, dsize⟩ := by
  unfold metaentryRefDecode
  constructor
  · intro h
    obtain ⟨hdr, mid, hhdr, h⟩ := Lib.run_bind_eq_ok.mp h
    obtain ⟨_, mid₁, hcheck, h⟩ := Lib.run_bind_eq_ok.mp h
    obtain ⟨recnum, mid₂, hrec, h⟩ := Lib.run_bind_eq_ok.mp h
    obtain ⟨roff, mid₃, hroff, h⟩ := Lib.run_bind_eq_ok.mp h
    obtain ⟨sels, mid₄, hsels, h⟩ := Lib.run_bind_eq_ok.mp h
    obtain ⟨dsize, mid₅, hsize, h⟩ := Lib.run_bind_eq_ok.mp h
    obtain ⟨hrefs, rfl⟩ := Lib.run_pureExcept_eq_ok.mp hsels
    obtain ⟨hend, rfl⟩ := Lib.run_pureExcept_eq_ok.mp hsize
    obtain ⟨rfl, rfl⟩ := Prod.mk.inj (Except.ok.inj h)
    -- The size is checked before anything else is read.
    have hpos : 0 < hdr.metaSize.toInt := by
      by_contra hle
      rw [checkMetaSize, if_pos (by omega)] at hcheck
      cases hcheck
    rw [checkMetaSize, if_neg (by omega)] at hcheck
    obtain ⟨-, rfl⟩ := Prod.mk.inj (Except.ok.inj hcheck)
    exact ⟨hdr, mid, hhdr, hpos, recnum, mid₂, hrec, roff, hroff, sels, hrefs, dsize, hend, rfl⟩
  · rintro ⟨hdr, mid, hhdr, hpos, recnum, mid', hrec, roff, hroff, sels, hsels, dsize, hsize, rfl⟩
    refine Lib.run_bind_eq_ok.mpr ⟨hdr, mid, hhdr, ?_⟩
    refine Lib.run_bind_eq_ok.mpr ⟨(), mid, by rw [checkMetaSize, if_neg (by omega)]; rfl, ?_⟩
    refine Lib.run_bind_eq_ok.mpr ⟨recnum, mid', hrec, ?_⟩
    refine Lib.run_bind_eq_ok.mpr ⟨roff, rest, hroff, ?_⟩
    refine Lib.run_bind_eq_ok.mpr ⟨sels, rest, Lib.run_pureExcept_eq_ok.mpr ⟨hsels, rfl⟩, ?_⟩
    exact Lib.run_bind_eq_ok.mpr ⟨dsize, rest, Lib.run_pureExcept_eq_ok.mpr ⟨hsize, rfl⟩, rfl⟩

/-- What a reference is read as. -/
theorem refWords_eq {hdr : MetaHdr} {mid mid' rest : List UInt8} {recnum : Option HSize} {roff : MpiOffset}
    (hrec : (readRecnum hdr.flag).run mid = .ok (recnum, mid'))
    (hroff : readOffset.run mid' = .ok (roff, rest)) :
    refWords hdr (hdr.bytes ++ mid) = .ok (recnum, roff) := by
  have hrun : StateT.run (do
      let recnum ← readRecnum hdr.flag
      let roff ← readOffset
      pure (recnum, roff)) mid = .ok ((recnum, roff), rest) := by
    refine Lib.run_bind_eq_ok.mpr ⟨recnum, mid', hrec, ?_⟩
    exact Lib.run_bind_eq_ok.mpr ⟨roff, rest, hroff, rfl⟩
  rw [refWords, List.drop_left' hdr.bytes_length, hrun]
  rfl

theorem BlockCache.at_eq {c : BlockCache} {pos : Int} {kept : List MetaSel}
    (h : PosCache.get? c pos = some kept) : c.at pos = kept := by
  unfold PosCache.get? at h
  unfold BlockCache.at
  obtain ⟨p, hp, rfl⟩ := Option.map_eq_some_iff.mp h
  rw [hp]
  rfl

/-- The header at the front of an entry. -/
theorem readHdr_metaBuf (r : WReq) (tail : List UInt8) :
    readHdr.run (r.metaBuf ++ tail) = .ok (r.hdr, r.body ++ tail) := by
  rw [WReq.metaBuf, List.append_assoc]
  exact readHdr_reads r.hdr (r.body ++ tail)

/-- A reference resolved in the cache of the walk. -/
theorem metaentryRefDecode_kept {r : WReq} {tail : List UInt8} {pos : Int} {c : BlockCache} {e : MetaEntry}
    {w : Option HSize × MpiOffset} {kept : List MetaSel}
    (hw : refWords r.hdr (r.metaBuf ++ tail) = .ok w) (hget : PosCache.get? c (pos + w.2.toInt) = some kept)
    (h : (listParser z).ref dset r.hdr (r.metaBuf ++ tail) kept = .ok e) :
    ∃ rest, (metaentryRefDecode dset c.at pos).run (r.metaBuf ++ tail) = .ok (e, rest) := by
  rcases hrun : (metaentryRefDecode dset (fun _ => kept) 0).run (r.metaBuf ++ tail) with err | ⟨e', rest⟩
  · simp only [listParser, hrun] at h
    cases h
  · simp only [listParser, hrun] at h
    obtain rfl := Except.ok.inj h
    obtain ⟨hdr, mid, hhdr, hpos, recnum, mid', hrec, roff, hroff, sels, hsels, dsize, hsize, he⟩ :=
      metaentryRefDecode_eq_ok.mp hrun
    have hread := hhdr
    rw [readHdr_metaBuf] at hread
    obtain ⟨rfl, rfl⟩ := Prod.mk.inj (Except.ok.inj hread)
    have hwords := refWords_eq hrec hroff
    rw [← List.append_assoc, ← WReq.metaBuf, hw] at hwords
    obtain rfl := Except.ok.inj hwords
    exact ⟨rest, metaentryRefDecode_eq_ok.mpr ⟨_, _, hhdr, hpos, recnum, mid', hrec, roff, hroff, sels,
      by rw [BlockCache.at_eq hget]; exact hsels, dsize, hsize, he⟩⟩

/-- A parsed entry is the one of the list index. -/
theorem parseEntry_listParser {r : WReq} {tail : List UInt8} {pos : Int} {c : BlockCache} {e : MetaEntry}
    (h : (listParser z).entryAt share dset r.hdr (r.metaBuf ++ tail) pos c = .ok e) :
    parseEntry z share dset r.hdr (r.metaBuf ++ tail) pos c =
      .ok (e, (listParser z).after share r.hdr pos e c) := by
  unfold parseEntry EntryParser.after
  rcases share with _ | _
  · rw [EntryParser.entryAt_unshared, listParser_plain] at h
    rw [if_neg Bool.false_ne_true, h]
    rfl
  · rcases href : hasFlag r.hdr.flag MetaFlag.selRef with _ | _
    · rw [EntryParser.entryAt_plain _ _ _ _ (by rw [MetaHdr.isRef, href]; rfl), listParser_plain] at h
      rw [if_pos rfl, if_neg Bool.false_ne_true, h]
      rfl
    · obtain ⟨w, kept, hw, hget, h⟩ := ((listParser z).entryAt_ref (by rw [MetaHdr.isRef, href]; rfl)).mp h
      obtain ⟨rest, hrun⟩ := metaentryRefDecode_kept hw hget h
      rw [if_pos rfl, if_pos rfl, hrun]
      rfl

theorem metaentryDecode_hdr {ent : List UInt8} {e : MetaEntry} (h : metaentryDecode z dset ent = .ok e) :
    ∃ mid, readHdr.run ent = .ok (e.hdr, mid) ∧ 0 < e.hdr.metaSize.toInt := by
  unfold metaentryDecode at h
  cases hrun : (metaentryDecodeSteps z dset).run ent with
  | error err => rw [hrun] at h; cases h
  | ok out =>
      rw [hrun] at h
      obtain rfl := Except.ok.inj h
      exact metaentryDecodeSteps_hdr hrun

/-- An entry of the list index carries the header at its front, with a positive size. -/
theorem listParser_hdr {r : WReq} {tail : List UInt8} {pos : Int} {c : BlockCache} {e : MetaEntry}
    (h : (listParser z).entryAt share dset r.hdr (r.metaBuf ++ tail) pos c = .ok e) :
    e.hdr = r.hdr ∧ 0 < r.hdr.metaSize.toInt := by
  have hfront : ∃ mid, readHdr.run (r.metaBuf ++ tail) = .ok (e.hdr, mid) ∧
      0 < e.hdr.metaSize.toInt := by
    rcases href : r.hdr.isRef share with _ | _
    · rw [EntryParser.entryAt_plain _ _ _ _ href, listParser_plain] at h
      exact metaentryDecode_hdr h
    · obtain ⟨w, kept, hw, hget, h⟩ := ((listParser z).entryAt_ref href).mp h
      obtain ⟨rest, hrun⟩ := metaentryRefDecode_kept hw hget h
      obtain ⟨hdr', mid, hhdr, hpos, _, _, _, _, _, _, _, _, _, he⟩ := metaentryRefDecode_eq_ok.mp hrun
      rw [he]
      exact ⟨mid, hhdr, hpos⟩
  obtain ⟨mid, hhdr, hpos⟩ := hfront
  rw [readHdr_metaBuf] at hhdr
  obtain ⟨hhdr, -⟩ := Prod.mk.inj (Except.ok.inj hhdr)
  rw [hhdr]
  exact ⟨rfl, hpos⟩

/-! ## §4 — what is inserted. -/

section Insert

variable {E : Type}

/-- The entries an index has of each dataset, with what becomes of the requests `rs` behind them. -/
def insertAll (idx : List (List E)) : List WReq → List (Option E) → List (List E)
  | r :: rs, o :: os =>
      insertAll (o.elim idx fun e => idx.modify r.hdr.did.toNat (· ++ [e])) rs os
  | _, _ => idx

/-- The entries of dataset `i` among them. -/
def entriesOf (i : Nat) : List WReq → List (Option E) → List E
  | r :: rs, o :: os => (if r.hdr.did.toNat = i then o.toList else []) ++ entriesOf i rs os
  | _, _ => []

theorem entriesOf_append {i : Nat} {rs rs' : List WReq} {os os' : List (Option E)}
    (hlen : os.length = rs.length) :
    entriesOf i (rs ++ rs') (os ++ os') = entriesOf i rs os ++ entriesOf i rs' os' := by
  induction rs generalizing os with
  | nil =>
      obtain rfl := List.length_eq_zero_iff.mp hlen
      rfl
  | cons r rs ih =>
      obtain ⟨o, os, rfl⟩ := List.exists_cons_of_length_eq_add_one hlen
      simp only [List.cons_append, entriesOf, ih (Nat.succ.inj hlen), List.append_assoc]

/-- The entries of dataset `i` go behind those it had. -/
theorem getElem?_insertAll (idx : List (List E)) (rs : List WReq) (os : List (Option E)) (i : Nat) :
    (insertAll idx rs os)[i]? = idx[i]?.map (· ++ entriesOf i rs os) := by
  induction rs generalizing idx os with
  | nil => simp [insertAll, entriesOf]
  | cons r rs ih =>
      rcases os with _ | ⟨_ | e, os⟩
      · simp [insertAll, entriesOf]
      · rw [insertAll, entriesOf, ih]
        simp
      · rw [insertAll, entriesOf, ih, Option.elim_some, List.getElem?_modify]
        by_cases h : r.hdr.did.toNat = i
        · simp [h, Function.comp_def]
        · simp [h]

@[simp] theorem length_insertAll (idx : List (List E)) (rs : List WReq) (os : List (Option E)) :
    (insertAll idx rs os).length = idx.length := by
  induction rs generalizing idx os with
  | nil => simp [insertAll]
  | cons r rs ih =>
      rcases os with _ | ⟨_ | e, os⟩
      · simp [insertAll]
      · rw [insertAll, ih]
        rfl
      · rw [insertAll, ih]
        exact List.length_modify ..

end Insert

theorem dsetAt_lt {did : I32} {d : Option DsetInfo} (h : dsetAt dsets did = .ok d) :
    did.toNat < dsets.length := by
  unfold dsetAt at h
  split at h
  · rename_i hget
    exact (List.getElem?_eq_some_iff.mp hget).1
  · cases h

/-- A step of a walk that does what the parser of an index says: nothing with the entry of a dataset that
is not open, else it is parsed and inserted. -/
structure StepsAs {E V : Type} (P : EntryParser E V) (share : Bool) (dsets : List (Option DsetInfo))
    (step : MetaHdr → List UInt8 → Int → PosCache V × List (List E) →
      Except Fault (PosCache V × List (List E))) : Prop where
  skip : ∀ {hdr : MetaHdr}, dsetAt dsets hdr.did = .ok none → ∀ ent pos s, step hdr ent pos s = .ok s
  entry : ∀ {r : WReq} {dset : DsetInfo}, dsetAt dsets r.hdr.did = .ok (some dset) →
    ∀ {tail : List UInt8} {pos : Int} {c : PosCache V} {e : E},
      P.entryAt share dset r.hdr (r.metaBuf ++ tail) pos c = .ok e →
    ∀ {idx : List (List E)}, dsets.length ≤ idx.length →
      step r.hdr (r.metaBuf ++ tail) pos (c, idx) =
        .ok (P.after share r.hdr pos e c, idx.modify r.hdr.did.toNat (· ++ [e]))

/-- **A walk inserts what becomes of the requests of its buffer**, in order. -/
theorem StepsAs.walkEntries {E V : Type} {P : EntryParser E V}
    {step : MetaHdr → List UInt8 → Int → PosCache V × List (List E) →
      Except Fault (PosCache V × List (List E))}
    (hstep : StepsAs P share dsets step) {pos : Nat} {c : PosCache V} {rs : List WReq}
    {os : List (Option E)} (h : Parses P share dsets pos c rs os) {idx : List (List E)}
    (hidx : dsets.length ≤ idx.length) :
    (walkEntries step rs pos (c, idx)).map Prod.snd = .ok (insertAll idx rs os) := by
  generalize hp : (pos : Int) = p at h
  induction h generalizing idx pos with
  | nil => rfl
  | @skip p c r rs os hsize hdset _ ih =>
      subst hp
      rw [LogVol.walkEntries, hstep.skip hdset]
      exact ih hidx (Nat.cast_add _ _)
  | @entry p c r rs e os dset hsize hdset hentry _ ih =>
      subst hp
      rw [LogVol.walkEntries, hstep.entry hdset (hentry _) hidx]
      exact ih (by rw [List.length_modify]; exact hidx) (Nat.cast_add _ _)

/-- A buffer, walked from its start. -/
theorem StepsAs.walkBlock {E V : Type} {P : EntryParser E V}
    {step : MetaHdr → List UInt8 → Int → PosCache V × List (List E) →
      Except Fault (PosCache V × List (List E))}
    (hstep : StepsAs P share dsets step) {rs : List WReq} {os : List (Option E)}
    (h : SectionHolds P share dsets rs os) {idx : List (List E)} (hidx : dsets.length ≤ idx.length) :
    (walkBlock step (rs.flatMap WReq.metaBuf) ((rs.flatMap WReq.metaBuf).length + 1) 0 ([], idx)).map
        Prod.snd = .ok (insertAll idx rs os) := by
  rw [walkBlock_entries step (Parses.wellSized h)]
  exact @StepsAs.walkEntries share dsets E V P step hstep 0 [] _ _ h idx hidx

/-- The step of the list index. -/
theorem parseStep_stepsAs (z : Option Zlib) (share : Bool) (dsets : List (Option DsetInfo)) :
    StepsAs (listParser z) share dsets (parseStep z share dsets) where
  skip := by
    intro hdr hdset ent pos s
    unfold parseStep
    rw [hdset]
    rfl
  entry := by
    intro r dset hdset tail pos c e h idx hidx
    have hhdr := (listParser_hdr h).1
    have hinsert : ArrayIdx.insert idx e = .ok (idx.modify r.hdr.did.toNat (· ++ [e])) := by
      rw [ArrayIdx.insert, hhdr, if_pos (Nat.lt_of_lt_of_le (dsetAt_lt hdset) hidx)]
    unfold parseStep
    simp only [hdset, Lib.ok_bind]
    rw [parseEntry_listParser h]
    simp only [Lib.ok_bind, hinsert]
    rfl

/-- **`parse_block` of the list index** on a buffer of one or more sections. -/
theorem parseBlock_section {rs : List WReq} {os : List (Option MetaEntry)}
    (h : SectionHolds (listParser z) share dsets rs os) {idx : ArrayIdx}
    (hidx : dsets.length ≤ idx.length) :
    parseBlock z share dsets (rs.flatMap WReq.metaBuf) idx = .ok (insertAll idx rs os) := by
  rw [parseBlock, parseLoop_eq_walkBlock]
  exact (parseStep_stepsAs z share dsets).walkBlock h hidx

/-! ## §5 — blocks of one-dimensional datasets. -/

theorem vector_rank (n : HSize) : [n].length ≤ maxRank := show 1 ≤ maxRank by decide

theorem vector_mdims (n : HSize) : [n].length = [n].length := rfl

theorem vector_dsteps (n : HSize) : [(1 : MpiOffset)].length = [n].length := rfl

/-- A dataset of `n` four-byte elements. -/
def vectorDset (n : HSize) : DsetInfo :=
  DsetInfo.plain 4 [n] [n] [1] (vector_rank n) (vector_mdims n) (vector_dsteps n)

/-- The request of a block of a one-dimensional dataset, stored as coordinates. -/
def blockReq (did : I32) (start count : HSize) (foff fsize : MpiOffset) : WReq where
  hdr := ⟨44, did, 0, foff, fsize⟩
  body := Lib.putWord sizeofOffset start ++ Lib.putWord sizeofOffset count
  selOff := sizeofHdr
  nsel := 1
  metaOff := 0
  dbufs := []

theorem blockReq_wellSized (did : I32) (start count : HSize) (foff fsize : MpiOffset) :
    (blockReq did start count foff fsize).WellSized := by
  show ((MetaHdr.bytes _ ++ (_ ++ _)).length : Int) = _
  simp only [List.length_append, MetaHdr.bytes_length, Lib.putWord_length]
  rfl

/-- It is read as its block, whatever follows. -/
theorem metaentryDecode_blockReq {z : Option Zlib} {dset : DsetInfo} (hdim : dset.ndim = 1) (did : I32)
    (start count : HSize) (foff fsize : MpiOffset) (tail : List UInt8) :
    metaentryDecode z dset ((blockReq did start count foff fsize).metaBuf ++ tail) =
      .ok ⟨⟨44, did, 0, foff, fsize⟩, [⟨[start], [count], 0⟩], dset.esize * count⟩ := by
  have hword (v : MpiOffset) : Lib.Reads (readCords false 1 []) (Lib.putWord sizeofOffset v) [v] := by
    have hread := @readOffsets_reads [v] 1 rfl
    rw [Lib.putWords_cons, Lib.putWords_nil, List.append_nil] at hread
    exact hread
  have henc : encdimRead dset none = 1 := by
    show (dset.ndim : Int) = 1
    rw [hdim]
    rfl
  -- One block of one dimension: a start, a count, and no steps.
  have hsels : Lib.Reads (readSels dset ⟨44, did, 0, foff, fsize⟩ none 1)
      (Lib.putWord sizeofOffset start ++ Lib.putWord sizeofOffset count)
      (⟨⟨44, did, 0, foff, fsize⟩, [⟨[start], [count], 0⟩], dset.esize * count⟩, []) := by
    unfold readSels
    simp only [henc]
    have hone (v : MpiOffset) : Lib.Reads (Lib.takeMany (readCords false 1 []) 1)
        (Lib.putWord sizeofOffset v) [[v]] := by
      have hmany : Lib.Reads (Lib.takeMany (readCords false 1 []) [v].length)
          ([v].flatMap (Lib.putWord sizeofOffset)) ([v].map fun v => [v]) :=
        Lib.Reads.takeMany fun x _ => hword x
      rw [List.flatMap_singleton] at hmany
      exact hmany
    have hsteps : Lib.Reads (readSteps 0 1) [] [] := Lib.Reads.pure []
    have hnsel : Lib.Reads (checkNsel 1) [] () := Lib.Reads.pure ()
    refine hsteps.bind_nil (hnsel.bind_nil ((hone start).bind ?_))
    rw [← List.append_nil (Lib.putWord sizeofOffset count)]
    refine (hone count).bind ?_
    have hend : lastBlockEnd dset.esize (1 : Int).toNat
        (placeSels dset.esize 0 (List.zipWith (mkBlock none) [[start]] [[count]])) =
        .ok (dset.esize * count) := by
      exact congrArg Except.ok (BitVec.add_zero _)
    rw [← List.append_nil ([] : List UInt8)]
    refine Lib.Yields.bind (a := dset.esize * count) ?_ (Lib.Reads.pure _)
    show Lib.Reads (Lib.pureExcept (lastBlockEnd dset.esize (1 : Int).toNat _)) [] _
    rw [hend]
    exact Lib.Yields.pureExcept _
  have hcheck : Lib.Reads (checkMetaSize ⟨44, did, 0, foff, fsize⟩) [] () := Lib.Reads.pure ()
  have hrec : Lib.Reads (readRecnum 0) [] none := Lib.Reads.pure none
  have hblocks : readBlocks z dset ⟨44, did, 0, foff, fsize⟩ none =
      readSels dset ⟨44, did, 0, foff, fsize⟩ none 1 := by
    have hmul : ¬ hasFlag (0 : I32) MetaFlag.mulSel = true := by decide
    rw [readBlocks, if_neg hmul]
  rw [← hblocks] at hsels
  have hsteps : Lib.Reads (metaentryDecodeSteps z dset) (blockReq did start count foff fsize).metaBuf
      (⟨⟨44, did, 0, foff, fsize⟩, [⟨[start], [count], 0⟩], dset.esize * count⟩, []) :=
    (readHdr_reads ⟨44, did, 0, foff, fsize⟩).bind (hcheck.bind_nil (hrec.bind_nil hsels))
  unfold metaentryDecode
  rw [hsteps tail]
  rfl

/-- The entry it is read as. -/
def blockEntry (did : I32) (start count : HSize) (foff fsize : MpiOffset) : MetaEntry :=
  ⟨⟨44, did, 0, foff, fsize⟩, [⟨[start], [count], 0⟩], 4 * count⟩

/-- A section that begins with such a request, for a dataset of `n` elements. -/
theorem Parses.block (n : HSize) {did : I32} (hdset : dsetAt dsets did = .ok (some (vectorDset n)))
    {start count : HSize} {foff fsize : MpiOffset} {pos : Int} {c : BlockCache} {rs : List WReq}
    {os : List (Option MetaEntry)}
    (hrest : Parses (listParser z) share dsets (pos + (blockReq did start count foff fsize).metaBuf.length)
      ((listParser z).after share (blockReq did start count foff fsize).hdr pos
        (blockEntry did start count foff fsize) c) rs os) :
    Parses (listParser z) share dsets pos c (blockReq did start count foff fsize :: rs)
      (some (blockEntry did start count foff fsize) :: os) := by
  refine Parses.entry (blockReq_wellSized did start count foff fsize) hdset (fun tail => ?_) hrest
  have hflag : hasFlag (0 : I32) MetaFlag.selRef = false := by decide
  have hplain : (blockReq did start count foff fsize).hdr.isRef share = false := by
    show (share && hasFlag (0 : I32) MetaFlag.selRef) = false
    rw [hflag, Bool.and_false]
  rw [EntryParser.entryAt_plain _ _ _ _ hplain, listParser_plain]
  exact metaentryDecode_blockReq rfl did start count foff fsize tail

/-- A reference to the entry `roff` bytes away. -/
def refReq (did : I32) (roff foff fsize : MpiOffset) : WReq where
  hdr := ⟨36, did, MetaFlag.selRef, foff, fsize⟩
  body := Lib.putWord sizeofOffset roff
  selOff := sizeofHdr
  nsel := 1
  metaOff := 0
  dbufs := []

theorem refReq_wellSized (did : I32) (roff foff fsize : MpiOffset) :
    (refReq did roff foff fsize).WellSized := by
  show ((MetaHdr.bytes _ ++ Lib.putWord sizeofOffset roff).length : Int) = _
  rw [List.length_append, MetaHdr.bytes_length, Lib.putWord_length]
  rfl

/-- It has no record number, and its offset behind the header. -/
theorem refReq_words (did : I32) (roff foff fsize : MpiOffset) (tail : List UInt8) :
    (readRecnum (refReq did roff foff fsize).hdr.flag).run ((refReq did roff foff fsize).body ++ tail) =
        .ok (none, Lib.putWord sizeofOffset roff ++ tail) ∧
      readOffset.run (Lib.putWord sizeofOffset roff ++ tail) = .ok (roff, tail) := by
  constructor
  · show (readRecnum MetaFlag.selRef).run _ = _
    rw [readRecnum, if_neg (by decide)]
    rfl
  · exact Lib.Reads.takeWord (by decide) roff tail

theorem refWords_refReq (did : I32) (roff foff fsize : MpiOffset) (tail : List UInt8) :
    refWords (refReq did roff foff fsize).hdr ((refReq did roff foff fsize).metaBuf ++ tail) =
      .ok (none, roff) := by
  obtain ⟨hrec, hroff⟩ := refReq_words did roff foff fsize tail
  rw [WReq.metaBuf, List.append_assoc]
  exact refWords_eq hrec hroff

/-- The entry it is read as, where it refers to a block of its own dataset or of one like it. -/
def refEntry (did : I32) (start count : HSize) (foff fsize : MpiOffset) : MetaEntry :=
  ⟨⟨36, did, MetaFlag.selRef, foff, fsize⟩, [⟨[start], [count], 0⟩], 4 * count⟩

theorem metaentryRefDecode_refReq (n : HSize) (did : I32) (roff foff fsize : MpiOffset)
    (start count : HSize) (tail : List UInt8) :
    (metaentryRefDecode (vectorDset n) (fun _ => [⟨[start], [count], 0⟩]) 0).run
        ((refReq did roff foff fsize).metaBuf ++ tail) = .ok (refEntry did start count foff fsize, tail) := by
  obtain ⟨hrec, hroff⟩ := refReq_words did roff foff fsize tail
  have hpos : (0 : Int) < (36 : I32).toInt := by decide
  have hsels : refSels (vectorDset n).ndim none [⟨[start], [count], 0⟩] = .ok [⟨[start], [count], 0⟩] := rfl
  have hend : lastBlockEnd (vectorDset n).esize (vectorDset n).ndim [⟨[start], [count], 0⟩] =
      .ok (4 * count) := congrArg Except.ok (BitVec.add_zero _)
  exact metaentryRefDecode_eq_ok.mpr ⟨_, _, readHdr_metaBuf _ tail, hpos, none, _, hrec, roff, hroff,
    _, hsels, _, hend, rfl⟩

/-- A section that begins with such a reference. -/
theorem Parses.refBlock (n : HSize) {did : I32} (hdset : dsetAt dsets did = .ok (some (vectorDset n)))
    {start count : HSize} {roff foff fsize : MpiOffset} {pos : Int} {c : BlockCache}
    (hget : PosCache.get? c (pos + roff.toInt) = some [⟨[start], [count], 0⟩]) {rs : List WReq}
    {os : List (Option MetaEntry)}
    (hrest : Parses (listParser z) true dsets (pos + (refReq did roff foff fsize).metaBuf.length) c rs os) :
    Parses (listParser z) true dsets pos c (refReq did roff foff fsize :: rs)
      (some (refEntry did start count foff fsize) :: os) := by
  have hflag : hasFlag (refReq did roff foff fsize).hdr.flag MetaFlag.selRef = true := by
    show hasFlag MetaFlag.selRef MetaFlag.selRef = true
    decide
  have href : (refReq did roff foff fsize).hdr.isRef true = true := hflag
  have hafter : (listParser z).after true (refReq did roff foff fsize).hdr pos
      (refEntry did start count foff fsize) c = c := by
    rw [EntryParser.after, hflag]
    rfl
  refine Parses.entry (refReq_wellSized did roff foff fsize) hdset (fun tail => ?_) ?_
  · refine ((listParser z).entryAt_ref href).mpr
      ⟨_, _, refWords_refReq did roff foff fsize tail, hget, ?_⟩
    rw [listParser_ref, metaentryRefDecode_refReq]
    rfl
  · rw [hafter]
    exact hrest

end LogVol
