import TaskingFramework.Fifo.Elements

/-!
# Reading

The calls of the readers keep showing the view: an element that a reader releases is recycled by the
last one, a reader pops what stands first in its window, and its window is extended by the elements
behind it.
-/

set_option linter.unusedSectionVars false

namespace TaskingFramework

open Foundation

variable {κ δ ρ τ : Type} [DecidableEq κ] [DecidableEq δ] [DecidableEq ρ] [DecidableEq τ]
  {s t : FifoGeneric κ δ ρ τ} {V W : FifoView κ ρ} {slot : ρ → Nat} {e : κ} {r : ρ} {d : δ}
  {l m : List κ} {volume : Nat}

private theorem Marked.releaseElement (h : Marked s V slot) (hvalid : V.Valid) (hr : r ∈ V.readers)
    (he : e ∈ V.fifo) (huntouched : s.Untouched t)
    (hmask : t.expectedReadsBitMask = Function.update s.expectedReadsBitMask e
      (s.expectedReadsBitMask e &&& ~~~(s.reader r).readerId)) :
    Marked t (V.releaseElement r e) slot := by
  have hbits : ∀ {P : ρ → Prop} {i : Nat}, Bits (V.releaseElement r e).readers slot P i ↔
      ∃ a ∈ V.readers, slot a = i ∧ P a := by
    intro P i
    rw [FifoView.releaseElement_readers, bits_of_mem hr]
  refine ⟨?_, ?_, ?_, ?_, ?_⟩
  · rw [huntouched.reader, FifoView.releaseElement_readers]
    exact h.id
  · rw [FifoView.releaseElement_readers]
    exact h.lt
  · rw [FifoView.releaseElement_readers]
    exact h.injective
  · rw [huntouched.bitMask, FifoView.releaseElement_readers]
    exact h.mask
  · intro f hf i
    have hf' : f ∈ V.fifo := by
      rw [hvalid.releaseElement_fifo hr] at hf
      exact (List.mem_filter.mp hf).1
    rw [hbits, hmask]
    by_cases hi : i < 32
    · by_cases hfe : f = e
      · subst hfe
        rw [Function.update_self, h.cleared hr he hi]
        constructor
        · rintro ⟨a, ha, hslot, hawaits, hne⟩
          exact ⟨a, ha, hslot, (hvalid.releaseElement_awaits hr).mpr
            ⟨hawaits, fun heq => hne heq.2⟩⟩
        · rintro ⟨a, ha, hslot, hawaits⟩
          obtain ⟨hawaits, hne⟩ := (hvalid.releaseElement_awaits hr).mp hawaits
          exact ⟨a, ha, hslot, hawaits, fun heq => hne ⟨rfl, heq⟩⟩
      · rw [Function.update_of_ne hfe, h.expected f hf', bits_of_mem hr]
        constructor
        · rintro ⟨a, ha, hslot, hawaits⟩
          exact ⟨a, ha, hslot, (hvalid.releaseElement_awaits hr).mpr
            ⟨hawaits, fun heq => hfe heq.1⟩⟩
        · rintro ⟨a, ha, hslot, hawaits⟩
          exact ⟨a, ha, hslot, ((hvalid.releaseElement_awaits hr).mp hawaits).1⟩
    · have hle : 32 ≤ i := Nat.le_of_not_lt hi
      rw [BitVec.getLsbD_of_ge _ _ hle]
      constructor
      · intro hfalse
        exact absurd hfalse Bool.false_ne_true
      · rintro ⟨a, ha, hslot, _⟩
        have hlt := h.lt a ha
        omega

/-- The last reader that releases an element recycles it. -/
theorem Kept.releaseElement (h : Kept s V) (hr : r ∈ V.readers) (he : e ∈ V.fifo)
    (hin : e ∉ V.unread r ∨ ∃ u, V.unread r = e :: u) :
    ∃ t, Returns (FifoGeneric.releaseElement · s e (s.reader r).readerId) t ∧
      Kept t (V.releaseElement r e) ∧ s.Untouched t := by
  obtain ⟨slot, hmarked⟩ := h.marked
  have hvalid : (V.releaseElement r e).Valid := h.valid.releaseElement hr he hin
  have hawaited : (V.releaseElement r e).Awaited := h.valid.releaseElement_awaited h.awaited hr
  have hzero := hmarked.cleared_eq_zero hr he
  have hsome : s.m_fifo_first.isSome = true := by
    rw [h.stored.fifo.head, List.isSome_head?]
    simpa using List.ne_nil_of_mem he
  have hne : ∀ f ∈ V.allocated, f ≠ e := fun f hf heq => h.stored.disjoint.2.2 f hf (heq ▸ he)
  obtain ⟨mask, hmask⟩ : ∃ mask, mask = s.expectedReadsBitMask e &&& ~~~(s.reader r).readerId :=
    ⟨_, rfl⟩
  rw [← hmask] at hzero
  have hkept : ∀ {t : FifoGeneric κ δ ρ τ}, s.Untouched t →
      t.Stored (V.releaseElement r e).unused V.allocated (V.releaseElement r e).fifo →
      t.expectedReadsBitMask = Function.update s.expectedReadsBitMask e mask →
      Kept t (V.releaseElement r e) := by
    intro t huntouched hstored hmask'
    have hmarked' := hmarked.releaseElement h.valid hr he huntouched (hmask ▸ hmask')
    refine ⟨hvalid, hawaited, ?_, ?_, ?_, ?_, slot, hmarked'⟩
    · rw [FifoView.releaseElement_allocated]
      exact hstored
    · rw [FifoView.releaseElement_allocated, hmask']
      intro f hf
      rw [Function.update_of_ne (hne f hf)]
      exact h.fresh f hf
    · rw [huntouched.reader, huntouched.readers, FifoView.releaseElement_readers]
      exact h.readers
    · rw [huntouched.reader, FifoView.releaseElement_readers]
      exact h.attached
  have hset : (s.setMask e mask).expectedReadsBitMask e = mask := Function.update_self ..
  by_cases hs : V.Shared r e
  · have hview := h.valid.releaseElement_of_shared hr hs
    refine ⟨s.setMask e mask, ?_, hkept ⟨rfl, rfl, rfl, rfl⟩ ?_ rfl, ⟨rfl, rfl, rfl, rfl⟩⟩
    · have hnot : mask ≠ 0 := fun h0 => hzero.mp h0 hs
      simp only [FifoGeneric.releaseElement, hsome, check_true, ok_bind, ← hmask, hset,
        if_neg hnot]
      exact returns_ok _
    · rw [hview]
      exact h.stored.setMask e mask
  · have hview := h.valid.releaseElement_of_last hr hs
    obtain ⟨t, hret, hstored, huntouched, hmask'⟩ := (h.stored.setMask e mask).removeElement he
    have huntouched : s.Untouched t :=
      ⟨huntouched.reader, huntouched.readers, huntouched.bitMask, huntouched.data⟩
    refine ⟨t, ?_, hkept huntouched ?_ hmask', huntouched⟩
    · simp only [FifoGeneric.releaseElement, hsome, check_true, ok_bind, ← hmask, hset,
        if_pos (hzero.mpr hs)]
      exact hret
    · rw [hview]
      exact hstored

private theorem Consistent.releaseLink (h : Consistent s V) (hr : r ∈ V.readers) (he : e ∈ V.held r) :
    ∃ t, Returns (FifoGeneric.releaseLink · s r e) t ∧ Consistent t (V.releaseElement r e) ∧
      s.SameReaders t := by
  have hfifo : e ∈ V.fifo := h.valid.awaits_mem hr (Or.inl he)
  have hunread : e ∉ V.unread r := h.valid.held_notMem hr he
  obtain ⟨t, hret, hkept, huntouched⟩ := h.releaseElement hr hfifo (Or.inl hunread)
  refine ⟨_, hret.bind (returns_ok _), ⟨hkept.setReader rfl rfl rfl, ?_⟩,
    huntouched.sameReaders.setReader rfl⟩
  intro a
  rw [FifoView.releaseElement_window, FifoView.releaseElement_held]
  by_cases har : a = r
  · subst a
    have hwindow : (V.window r).erase e = V.window r :=
      List.erase_of_not_mem fun hmem => hunread (List.mem_append_left _ hmem)
    have hpoints := h.points r
    rw [Function.update_self, Function.update_self, hwindow]
    simp only [FifoGeneric.setReader, Function.update_self, huntouched.reader]
    refine ⟨hpoints.first, hpoints.last, ?_, ?_⟩
    · rw [hpoints.elements]
    · have hlinks := hpoints.links
      have hlength := List.length_erase_of_mem he
      have hpos := List.length_pos_of_mem he
      simp only
      omega
  · rw [Function.update_of_ne har, Function.update_of_ne har]
    simp only [FifoGeneric.setReader, Function.update_of_ne har, huntouched.reader]
    exact h.points a

private theorem Consistent.releaseLinks (h : Consistent s V) (hr : r ∈ V.readers) (hl : V.held r = l) :
    ∃ t, Returns (FifoGeneric.releaseLinks · r l s) t ∧ Consistent t (V.releaseAll r l) ∧
      s.SameReaders t := by
  induction l generalizing s V with
  | nil => exact ⟨s, returns_ok s, h, .refl⟩
  | cons e l ih =>
      have he : e ∈ V.held r := hl ▸ List.mem_cons_self
      obtain ⟨s', hlink, h', hsame⟩ := h.releaseLink hr he
      have hr' : r ∈ (V.releaseElement r e).readers := FifoView.mem_releaseElement_readers.mpr hr
      have hheld : (V.releaseElement r e).held r = l := by
        rw [FifoView.releaseElement_held, Function.update_self, hl, List.erase_cons_head]
      obtain ⟨t, hret, ht, hsame'⟩ := ih h' hr' hheld
      refine ⟨t, ?_, ht, hsame.trans hsame'⟩
      have hfifo := (h.attached r).mpr hr
      simp only [FifoGeneric.releaseLinks, hfifo, if_true]
      exact hlink.bind hret

private theorem Consistent.not_attached (h : Consistent s V) (hr : r ∉ V.readers) :
    (s.reader r).fifo = false ∧ V.window r = [] ∧ V.behind r = [] ∧ V.held r = [] := by
  refine ⟨?_, h.valid.idle r hr⟩
  rw [← Bool.not_eq_true, h.attached r]
  exact hr

theorem Consistent.readerReleaseAll (h : Consistent s V) :
    ∃ t, Returns (FifoGeneric.readerReleaseAll · s r) t ∧
      Consistent t (V.releaseAll r (V.held r)) ∧ s.SameReaders t := by
  unfold FifoGeneric.readerReleaseAll
  rw [(h.points r).elements]
  by_cases hr : r ∈ V.readers
  · exact h.releaseLinks hr rfl
  · obtain ⟨_, _, _, hheld⟩ := h.not_attached hr
    rw [hheld]
    exact ⟨s, returns_ok s, h, .refl⟩

theorem Consistent.readerRelease (h : Consistent s V)
    (hfind : (V.held r).find? (fun e => s.data e = d) = some e) :
    ∃ t, Returns (FifoGeneric.readerRelease · s r d) t ∧ Consistent t (V.releaseElement r e) ∧
      s.SameReaders t := by
  have he : e ∈ V.held r := List.mem_of_find?_eq_some hfind
  have hr : r ∈ V.readers := by
    by_contra hr
    obtain ⟨_, _, _, hheld⟩ := h.not_attached hr
    exact absurd (hheld ▸ he) List.not_mem_nil
  obtain ⟨t, hret, ht⟩ := h.releaseLink hr he
  refine ⟨t, ?_, ht⟩
  simp only [FifoGeneric.readerRelease, (h.attached r).mpr hr, if_true, (h.points r).elements, hfind]
  exact hret

theorem Consistent.readerRelease_absent (h : Consistent s V)
    (hfind : (V.held r).find? (fun e => s.data e = d) = none) :
    Returns (FifoGeneric.readerRelease · s r d) s := by
  simp only [FifoGeneric.readerRelease, (h.points r).elements, hfind]
  refine (returns_ok s).congr fun fuel => ?_
  split <;> rfl

private theorem Kept.next_unread (h : Kept s V) (hr : r ∈ V.readers)
    (hunread : V.unread r = l ++ e :: m) :
    s.next e = m.head? := by
  obtain ⟨x, hx, _⟩ := h.valid.split r hr
  have hchain := h.stored.fifo
  rw [hx, hunread, ← List.append_assoc] at hchain
  exact hchain.next_eq

theorem Consistent.readerPop (h : Consistent s V) (hwindow : V.window r = e :: l)
    (hlinks : (V.held r).length < maximumFifoReaderLinks) :
    ∃ t, s.readerPop r = .ok (t, some (s.data e)) ∧ Consistent t (V.pop r e) ∧
      s.SameReaders t := by
  have hr : r ∈ V.readers := by
    by_contra hr
    obtain ⟨_, hnil, _, _⟩ := h.not_attached hr
    rw [hnil] at hwindow
    exact absurd hwindow (by simp)
  have hpoints := h.points r
  have hfirst : (s.reader r).fifo_first = some e := by
    rw [hpoints.first, hwindow]
    rfl
  have hlast : (s.reader r).fifo_last = (e :: l).getLast? := by
    rw [hpoints.last (by simp [hwindow]), hwindow]
  have hunused : (s.reader r).unusedLinks ≠ 0 := by
    have hsum := hpoints.links
    omega
  have hnd : (e :: l).Nodup := by
    have hunread := h.valid.unread_nodup hr
    rw [FifoView.unread, hwindow] at hunread
    exact (List.nodup_append.mp hunread).1
  have hnext : s.next e = (l ++ V.behind r).head? := by
    apply h.next_unread (l := []) hr
    rw [FifoView.unread, hwindow]
    rfl
  have hkept : ∀ reader : FifoGenericReader κ ρ τ, reader.nextReader = (s.reader r).nextReader →
      reader.fifo = (s.reader r).fifo → reader.readerId = (s.reader r).readerId →
      Points reader l (e :: V.held r) → Consistent (s.setReader r reader) (V.pop r e) := by
    intro reader hnextReader hattached hid hnew
    have hview : Kept s (V.pop r e) := h.view (h.valid.pop hr hwindow) (h.awaited.pop hwindow)
      rfl rfl rfl rfl fun f a => FifoView.pop_awaits hwindow
    refine ⟨hview.setReader hnextReader hattached hid, ?_⟩
    intro a
    by_cases har : a = r
    · subst a
      simpa [FifoView.pop, FifoGeneric.setReader, hwindow] using hnew
    · simpa [FifoView.pop, FifoGeneric.setReader, har] using h.points a
  have hcount : (s.reader r).unusedLinks - 1 + (e :: V.held r).length = maximumFifoReaderLinks := by
    have hsum := hpoints.links
    rw [List.length_cons]
    omega
  have helements : e :: (s.reader r).allocated_elements = e :: V.held r := by
    rw [hpoints.elements]
  have hguard : (!(s.reader r).fifo || decide ((s.reader r).unusedLinks = 0)) = false := by
    simp [(h.attached r).mpr hr, hunused]
  unfold FifoGeneric.readerPop
  simp only [hfirst, hguard, Bool.false_eq_true, if_false]
  cases l with
  | nil =>
      have hend : (s.reader r).fifo_last = some e := hlast
      rw [if_pos hend]
      refine ⟨_, rfl, hkept _ rfl rfl rfl ?_, FifoGeneric.SameReaders.refl.setReader rfl⟩
      exact ⟨rfl, fun hne => absurd rfl hne, helements, hcount⟩
  | cons b l =>
      have hend : (s.reader r).fifo_last ≠ some e := by
        rw [hlast]
        intro heq
        have hmem : e ∈ b :: l := List.mem_of_getLast? (by simpa [List.getLast?_cons] using heq)
        exact (List.nodup_cons.mp hnd).1 hmem
      have hsome : (s.next e).isSome = true := by
        rw [hnext]
        rfl
      rw [if_neg hend, hsome, check_true, ok_bind]
      refine ⟨_, rfl, hkept _ rfl rfl rfl ?_, FifoGeneric.SameReaders.refl.setReader rfl⟩
      refine ⟨hnext, fun _ => ?_, helements, hcount⟩
      simpa [List.getLast?_cons] using hlast

theorem Consistent.readerPop_empty (h : Consistent s V) (hwindow : V.window r = []) :
    s.readerPop r = .ok (s, none) := by
  have hfirst : (s.reader r).fifo_first = none := by
    rw [(h.points r).first, hwindow]
    rfl
  simp only [FifoGeneric.readerPop, hfirst]
  rfl

theorem Consistent.readerPop_full (h : Consistent s V)
    (hlinks : ¬ (V.held r).length < maximumFifoReaderLinks) :
    s.readerPop r = .ok (s, none) := by
  have hunused : (s.reader r).unusedLinks = 0 := by
    have hsum := (h.points r).links
    omega
  cases hfirst : (s.reader r).fifo_first with
  | none => simp [FifoGeneric.readerPop, hfirst]
  | some e => simp [FifoGeneric.readerPop, hfirst, hunused]

private theorem searchUnread_found {p : Option κ} {readerId : BitVec 32}
    (h : Chain s.next p (l ++ e :: m)) (hl : ∀ f ∈ l, s.expectedReadsBitMask f &&& readerId = 0)
    (he : s.expectedReadsBitMask e &&& readerId ≠ 0) :
    Returns (FifoGeneric.searchUnread s readerId · p) e := by
  induction l generalizing p with
  | nil =>
      obtain ⟨rfl, _⟩ := h
      refine (returns_ok e).step fun fuel => ?_
      rw [FifoGeneric.searchUnread, if_neg he]
  | cons a l ih =>
      obtain ⟨rfl, htail⟩ := h
      have ha := hl a List.mem_cons_self
      refine (ih htail fun f hf => hl f (List.mem_cons_of_mem a hf)).step fun fuel => ?_
      rw [FifoGeneric.searchUnread, if_pos ha]

private theorem advanceBy_eq {p : Option κ} {n : Nat} (h : Chain s.next p (e :: l))
    (hn : n ≤ l.length) :
    ∃ b, FifoGeneric.advanceBy s n e = .ok b ∧ ((e :: l).take (n + 1)).getLast? = some b := by
  induction n generalizing p e l with
  | zero => exact ⟨e, rfl, rfl⟩
  | succ n ih =>
      cases l with
      | nil => exact absurd hn (Nat.not_succ_le_zero n)
      | cons a l =>
          have hnext : s.next e = some a := h.2.1
          obtain ⟨b, hadvance, hlast⟩ := ih h.2 (Nat.le_of_succ_le_succ hn)
          refine ⟨b, ?_, ?_⟩
          · rw [FifoGeneric.advanceBy, hnext]
            exact hadvance
          · rw [List.take_succ_cons, List.getLast?_cons, hlast]
            rfl

private theorem Kept.chain_behind (h : Kept s V) (hr : r ∈ V.readers) :
    Chain s.next (V.behind r).head? (V.behind r) := by
  obtain ⟨x, hx, _⟩ := h.valid.split r hr
  have hchain := h.stored.fifo
  rw [hx, FifoView.unread, ← List.append_assoc] at hchain
  exact hchain.suffix

theorem Consistent.synchronizeReader (h : Consistent s V) (hr : r ∈ V.readers)
    (hpos : 0 < volume) (hvolume : volume ≤ (V.behind r).length)
    (hheld : V.window r = [] → V.held r = []) :
    ∃ t, Returns (FifoGeneric.synchronizeReader · s r volume) t ∧
      Consistent t (V.synchronize r volume) ∧ s.SameReaders t := by
  obtain ⟨slot, hmarked⟩ := h.marked
  have hpoints := h.points r
  obtain ⟨e, m, hbehind⟩ := List.exists_cons_of_length_pos (Nat.lt_of_lt_of_le hpos hvolume)
  have heunread : e ∈ V.unread r := by simp [FifoView.unread, hbehind]
  have hefifo : e ∈ V.fifo := h.valid.awaits_mem hr (Or.inr heunread)
  have hsome : s.m_fifo_first.isSome = true := by
    rw [h.stored.fifo.head, List.isSome_head?]
    simpa using List.ne_nil_of_mem hefifo
  have hchain := h.chain_behind hr
  rw [hbehind] at hchain
  have hlength : volume - 1 ≤ m.length := by
    rw [hbehind, List.length_cons] at hvolume
    omega
  obtain ⟨b, hadvance, hlast⟩ := advanceBy_eq hchain hlength
  have hvolume' : volume - 1 + 1 = volume := by omega
  rw [hvolume', ← hbehind] at hlast
  have hview : Kept s (V.synchronize r volume) := h.view (h.valid.synchronize hr)
    h.awaited.synchronize rfl rfl rfl rfl fun f a => FifoView.synchronize_awaits
  have hkept : ∀ reader : FifoGenericReader κ ρ τ, reader.nextReader = (s.reader r).nextReader →
      reader.fifo = (s.reader r).fifo → reader.readerId = (s.reader r).readerId →
      Points reader (V.window r ++ (V.behind r).take volume) (V.held r) →
      Consistent (s.setReader r reader) (V.synchronize r volume) := by
    intro reader hnextReader hattached hid hnew
    refine ⟨hview.setReader hnextReader hattached hid, ?_⟩
    intro a
    by_cases har : a = r
    · subst a
      simpa [FifoView.synchronize, FifoGeneric.setReader] using hnew
    · simpa [FifoView.synchronize, FifoGeneric.setReader, har] using h.points a
  have hend : (V.window r ++ (V.behind r).take volume).getLast? = some b := by
    rw [List.getLast?_append, hlast]
    rfl
  have hstart : ((V.behind r).take volume).head? = some e := by
    rw [hbehind, ← hvolume']
    rfl
  cases hwindow : V.window r with
  | nil =>
      obtain ⟨x, hx, _⟩ := h.valid.split r hr
      have hunread : V.unread r = e :: m := by rw [FifoView.unread, hwindow, hbehind]; rfl
      rw [hunread] at hx
      have hnone : ∀ f ∈ x, s.expectedReadsBitMask f &&& (s.reader r).readerId = 0 := by
        intro f hf
        have hfifo : f ∈ V.fifo := hx ▸ List.mem_append_left _ hf
        rw [← not_not (a := _ = _), ← ne_eq, hmarked.expects hr hfifo]
        rintro (hmem | hmem)
        · rw [hheld hwindow] at hmem
          exact List.not_mem_nil hmem
        · have hnd := h.valid.fifo_nodup
          rw [hx] at hnd
          exact (List.nodup_append.mp hnd).2.2 f hf f (hunread ▸ hmem) rfl
      have hexpects := (hmarked.expects hr hefifo).mpr (Or.inr heunread)
      have hfifo := h.stored.fifo
      rw [hx] at hfifo
      have hsearch := searchUnread_found hfifo hnone hexpects
      have hfirst : (s.reader r).fifo_first = none := by
        rw [hpoints.first, hwindow]
        rfl
      refine ⟨s.setReader r { s.reader r with fifo_first := some e, fifo_last := some b }, ?_, ?_,
        FifoGeneric.SameReaders.refl.setReader rfl⟩
      · simp only [FifoGeneric.synchronizeReader, hsome, check_true, ok_bind, hfirst]
        apply hsearch.bind
        rw [hadvance]
        exact returns_ok _
      · refine hkept _ rfl rfl rfl ?_
        rw [hwindow, List.nil_append] at hend ⊢
        exact ⟨hstart.symm, fun _ => hend.symm, hpoints.elements, hpoints.links⟩
  | cons a w =>
      have hne : V.window r ≠ [] := by simp [hwindow]
      obtain ⟨c, hc⟩ : ∃ c, (V.window r).getLast? = some c :=
        ⟨(V.window r).getLast hne, List.getLast?_eq_some_getLast hne⟩
      obtain ⟨w', hw'⟩ := List.getLast?_eq_some_iff.mp hc
      have hnext : s.next c = some e := by
        have hunread : V.unread r = w' ++ c :: V.behind r := by simp [FifoView.unread, hw']
        rw [h.next_unread hr hunread, hbehind]
        rfl
      have hfirst : (s.reader r).fifo_first = some a := by
        rw [hpoints.first, hwindow]
        rfl
      have hlastReader : (s.reader r).fifo_last = some c := (hpoints.last hne).trans hc
      refine ⟨s.setReader r { s.reader r with fifo_last := some b }, ?_, ?_,
        FifoGeneric.SameReaders.refl.setReader rfl⟩
      · simp only [FifoGeneric.synchronizeReader, hsome, check_true, ok_bind, hfirst, hlastReader,
          deref_some, hnext, hadvance]
        exact returns_ok _
      · refine hkept _ rfl rfl rfl ?_
        refine ⟨?_, fun _ => hend.symm, hpoints.elements, hpoints.links⟩
        rw [hwindow]
        exact hfirst

private theorem searchUnread_absent {p : Option κ} {readerId : BitVec 32} (h : Chain s.next p l)
    (hl : ∀ f ∈ l, s.expectedReadsBitMask f &&& readerId = 0) :
    Fails (FifoGeneric.searchUnread s readerId · p) .assertion := by
  induction l generalizing p with
  | nil =>
      obtain rfl : p = none := h
      exact (fails_error _).step fun fuel => rfl
  | cons a l ih =>
      obtain ⟨rfl, htail⟩ := h
      have ha := hl a List.mem_cons_self
      refine (ih htail fun f hf => hl f (List.mem_cons_of_mem a hf)).step fun fuel => ?_
      rw [FifoGeneric.searchUnread, if_pos ha]

private theorem advanceBy_exceeds {p : Option κ} {n : Nat} (h : Chain s.next p (e :: l))
    (hn : l.length < n) : FifoGeneric.advanceBy s n e = .error .assertion := by
  induction n generalizing p e l with
  | zero => exact absurd hn (Nat.not_lt_zero _)
  | succ n ih =>
      cases l with
      | nil =>
          have hnext : s.next e = none := h.2
          rw [FifoGeneric.advanceBy, hnext]
      | cons a l =>
          have hnext : s.next e = some a := h.2.1
          rw [FifoGeneric.advanceBy, hnext]
          exact ih h.2 (Nat.lt_of_succ_lt_succ hn)

/-- An assertion fails for a volume that asks for more than was pushed. -/
theorem Consistent.synchronizeReader_exceeds (h : Consistent s V) (hr : r ∈ V.readers)
    (hvolume : (V.behind r).length < volume) (hheld : V.window r = [] → V.held r = []) :
    Fails (FifoGeneric.synchronizeReader · s r volume) .assertion := by
  obtain ⟨slot, hmarked⟩ := h.marked
  have hpoints := h.points r
  have hchain := h.chain_behind hr
  unfold FifoGeneric.synchronizeReader
  cases hsome : s.m_fifo_first.isSome with
  | false => exact fails_error _
  | true =>
      simp only [check_true, ok_bind]
      cases hwindow : V.window r with
      | nil =>
          have hfirst : (s.reader r).fifo_first = none := by
            rw [hpoints.first, hwindow]
            rfl
          simp only [hfirst]
          obtain ⟨x, hx, _⟩ := h.valid.split r hr
          have hunread : V.unread r = V.behind r := by rw [FifoView.unread, hwindow]; rfl
          have hnone : ∀ f ∈ x, s.expectedReadsBitMask f &&& (s.reader r).readerId = 0 := by
            intro f hf
            have hfifo : f ∈ V.fifo := hx ▸ List.mem_append_left _ hf
            rw [← not_not (a := _ = _), ← ne_eq, hmarked.expects hr hfifo]
            rintro (hmem | hmem)
            · rw [hheld hwindow] at hmem
              exact List.not_mem_nil hmem
            · have hnd := h.valid.fifo_nodup
              rw [hx] at hnd
              exact (List.nodup_append.mp hnd).2.2 f hf f hmem rfl
          have hfifo := h.stored.fifo
          rw [hx, hunread] at hfifo
          cases hbehind : V.behind r with
          | nil =>
              rw [hbehind, List.append_nil] at hfifo
              exact (searchUnread_absent hfifo hnone).bind
          | cons e m =>
              rw [hbehind] at hfifo hchain hvolume
              have hefifo : e ∈ V.fifo := by simp [hx, hunread, hbehind]
              have heunread : e ∈ V.unread r := by simp [hunread, hbehind]
              have hexpects := (hmarked.expects hr hefifo).mpr (Or.inr heunread)
              apply (searchUnread_found hfifo hnone hexpects).bind_fails
              rw [advanceBy_exceeds hchain (by rw [List.length_cons] at hvolume; omega)]
              exact fails_error _
      | cons a w =>
          have hne : V.window r ≠ [] := by simp [hwindow]
          obtain ⟨c, hc⟩ : ∃ c, (V.window r).getLast? = some c :=
            ⟨(V.window r).getLast hne, List.getLast?_eq_some_getLast hne⟩
          obtain ⟨w', hw'⟩ := List.getLast?_eq_some_iff.mp hc
          have hnext : s.next c = (V.behind r).head? := by
            have hunread : V.unread r = w' ++ c :: V.behind r := by simp [FifoView.unread, hw']
            exact h.next_unread hr hunread
          have hfirst : (s.reader r).fifo_first = some a := by
            rw [hpoints.first, hwindow]
            rfl
          have hlastReader : (s.reader r).fifo_last = some c := (hpoints.last hne).trans hc
          simp only [hfirst, hlastReader, deref_some, ok_bind, hnext]
          cases hbehind : V.behind r with
          | nil => exact fails_error _
          | cons e m =>
              rw [hbehind] at hchain hvolume
              simp only [List.head?_cons]
              rw [advanceBy_exceeds hchain (by rw [List.length_cons] at hvolume; omega)]
              exact fails_error _

end TaskingFramework
