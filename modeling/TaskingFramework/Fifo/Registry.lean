import TaskingFramework.Fifo.ReleaseReader
import TaskingFramework.Foundation.Ends

/-!
# Calls that leave the readers alone

Whatever the readers do with the elements, a call of the FIFO or of a reader ends, and if it
returns, the chains are sound and the list of readers and its bits are those of before.
-/

set_option linter.unusedSectionVars false

namespace TaskingFramework.FifoGeneric

open Foundation

variable {κ δ ρ τ : Type} [DecidableEq κ] [DecidableEq δ] [DecidableEq ρ] [DecidableEq τ]
  {s t u : FifoGeneric κ δ ρ τ} {unused allocated fifo : List κ} {e : κ} {d : δ} {r : ρ}
  {readers : List ρ}

/-- Each element is in at most one of the three chains, which end. -/
def Sound (s : FifoGeneric κ δ ρ τ) : Prop := ∃ unused allocated fifo, s.Stored unused allocated fifo

/-- The chains are sound, and the list of readers, their ids and the bits of the FIFO are the same. -/
structure Maintains (s t : FifoGeneric κ δ ρ τ) : Prop where
  sound : t.Sound
  readers : t.m_readers = s.m_readers
  bitMask : t.m_readerBitMask = s.m_readerBitMask
  nextReader : ∀ r, (t.reader r).nextReader = (s.reader r).nextReader
  readerId : ∀ r, (t.reader r).readerId = (s.reader r).readerId

private theorem Sound.maintains (h : s.Sound) : s.Maintains s :=
    ⟨h, rfl, rfl, fun _ => rfl, fun _ => rfl⟩

theorem Sound.empty (h : s.Sound) (hempty : s.m_fifo_first = none) :
    ∃ unused allocated, s.Stored unused allocated [] := by
  obtain ⟨unused, allocated, fifo, hstored⟩ := h
  have hchain := hstored.fifo
  rw [hempty] at hchain
  obtain rfl : fifo = [] := hchain.eq_nil
  exact ⟨unused, allocated, hstored⟩

private theorem Maintains.trans (h : s.Maintains t) (h' : t.Maintains u) : s.Maintains u :=
  ⟨h'.sound, h'.readers.trans h.readers, h'.bitMask.trans h.bitMask,
    fun r => (h'.nextReader r).trans (h.nextReader r),
    fun r => (h'.readerId r).trans (h.readerId r)⟩

theorem Stored.maintains (h : t.Stored unused allocated fifo) (huntouched : s.Untouched t) :
    s.Maintains t :=
  ⟨⟨_, _, _, h⟩, huntouched.readers, huntouched.bitMask, fun r => by rw [huntouched.reader],
    fun r => by rw [huntouched.reader]⟩

theorem Maintains.setReader (h : s.Maintains t) {reader : FifoGenericReader κ ρ τ}
    (hnext : reader.nextReader = (t.reader r).nextReader)
    (hid : reader.readerId = (t.reader r).readerId) : s.Maintains (t.setReader r reader) := by
  obtain ⟨unused, allocated, fifo, hstored⟩ := h.sound
  refine ⟨⟨unused, allocated, fifo, hstored.unused, hstored.allocated, hstored.fifo, hstored.last,
    hstored.distinct⟩, h.readers, h.bitMask, ?_, ?_⟩
  · intro a
    rw [← h.nextReader a]
    by_cases har : a = r
    · subst a
      simpa [FifoGeneric.setReader] using hnext
    · simp [FifoGeneric.setReader, har]
  · intro a
    rw [← h.readerId a]
    by_cases har : a = r
    · subst a
      simpa [FifoGeneric.setReader] using hid
    · simp [FifoGeneric.setReader, har]

private theorem Sound.allocate (h : s.Sound) : s.Maintains s.allocate.1 := by
  obtain ⟨unused, allocated, fifo, hstored⟩ := h
  cases unused with
  | nil =>
      have hnone : s.m_unused = none := hstored.unused
      simp only [FifoGeneric.allocate, hnone]
      exact hstored.maintains ⟨rfl, rfl, rfl, rfl⟩
  | cons e unused =>
      obtain ⟨t, hcall, ht, huntouched, _⟩ := hstored.allocate
      rw [hcall]
      exact ht.maintains huntouched

private theorem Sound.release (h : s.Sound) (d : δ) (readerId : BitVec 32) :
    Ends (FifoGeneric.release · s d readerId) s.Maintains := by
  obtain ⟨unused, allocated, fifo, hstored⟩ := h
  cases hfind : allocated.find? fun e => s.data e = d with
  | none =>
      exact (release_absent hstored hfind readerId).ends (hstored.maintains ⟨rfl, rfl, rfl, rfl⟩)
  | some e =>
      by_cases hmask : s.expectedReadsBitMask e &&& ~~~readerId = 0
      · obtain ⟨t, hret, ht, huntouched, _⟩ := hstored.release hfind hmask
        exact hret.ends (ht.maintains huntouched)
      · exact (hstored.release_shared hfind hmask).ends
          ((hstored.setMask e _).maintains ⟨rfl, rfl, rfl, rfl⟩)

/-- The element that a push has taken is the last one of the FIFO and has the bits of the FIFO. -/
def Pushed (s t : FifoGeneric κ δ ρ τ) (d : δ) : Prop :=
  ∃ e, t.data e = d ∧ t.m_fifo_last = some e ∧
    t.expectedReadsBitMask e = s.m_readerBitMask.setWidth 32

theorem Sound.push (h : s.Sound) (d : δ) : ∃ t result, Returns (FifoGeneric.push · s d) (t, result) ∧
    s.Maintains t ∧ (result = true → s.Pushed t d) := by
  obtain ⟨unused, allocated, fifo, hstored⟩ := h
  cases hfind : allocated.find? fun e => s.data e = d with
  | none =>
      refine ⟨s, false, (takeAllocated_absent hstored hfind).bind (returns_ok _),
        hstored.maintains ⟨rfl, rfl, rfl, rfl⟩, ?_⟩
      intro hfalse
      exact absurd hfalse Bool.false_ne_true
  | some e =>
      obtain ⟨u, htake, hu, hnot, huntouched, _⟩ := hstored.takeAllocated hfind
      obtain ⟨t, happend, ht, huntouched', hmask⟩ := hu.append hnot d
      have hall := huntouched.trans huntouched'
      refine ⟨t, true, ?_, ht.maintains hall, fun _ => ⟨e, ?_, ?_, ?_⟩⟩
      · apply htake.bind
        simp only [happend]
        exact returns_ok _
      · rw [hall.data]
        simpa using List.find?_some hfind
      · rw [ht.last, List.getLast?_concat]
      · rw [hmask, Function.update_self, huntouched.bitMask]

private theorem Sound.pop (h : s.Sound) : s.Maintains s.pop.1 := by
  obtain ⟨unused, allocated, fifo, hstored⟩ := h
  have hself := hstored.maintains (s := s) ⟨rfl, rfl, rfl, rfl⟩
  cases fifo with
  | nil =>
      have hnone : s.m_fifo_first = none := hstored.fifo
      simp only [FifoGeneric.pop, hnone]
      exact hself
  | cons e fifo =>
      by_cases hreaders : s.m_readers = none
      · obtain ⟨t, hcall, ht, huntouched, _⟩ := hstored.pop hreaders
        rw [hcall]
        exact ht.maintains huntouched
      · have hfirst : s.m_fifo_first = some e := hstored.fifo.1
        simp only [FifoGeneric.pop, hfirst, if_neg hreaders]
        exact hself

private theorem Sound.releaseElement (h : s.Sound) (e : κ) (readerId : BitVec 32) :
    Ends (FifoGeneric.releaseElement · s e readerId) s.Maintains := by
  obtain ⟨unused, allocated, fifo, hstored⟩ := h
  have hset := hstored.setMask e (s.expectedReadsBitMask e &&& ~~~readerId)
  apply (ends_check _).bind
  intro _ _
  apply Ends.ite
  · intro _
    by_cases he : e ∈ fifo
    · obtain ⟨t, hret, ht, huntouched, _⟩ := hset.removeElement he
      exact hret.ends (ht.maintains
        ⟨huntouched.reader, huntouched.readers, huntouched.bitMask, huntouched.data⟩)
    · exact (hset.removeElement_absent he).ends (by decide)
  · intro _
    exact ends_ok (hset.maintains ⟨rfl, rfl, rfl, rfl⟩)

private theorem Sound.releaseLink (h : s.Sound) (r : ρ) (e : κ) :
    Ends (FifoGeneric.releaseLink · s r e) s.Maintains := by
  apply (h.releaseElement e _).bind
  intro t ht
  exact ends_ok (ht.setReader rfl rfl)

private theorem Sound.readerRelease (h : s.Sound) (r : ρ) (d : δ) :
    Ends (FifoGeneric.readerRelease · s r d) s.Maintains := by
  apply Ends.ite
  · intro _
    cases (s.reader r).allocated_elements.find? fun e => s.data e = d with
    | none => exact ends_ok h.maintains
    | some e => exact h.releaseLink r e
  · intro _
    exact ends_ok h.maintains

private theorem Sound.releaseLinks (h : s.Sound) (r : ρ) (l : List κ) :
    Ends (FifoGeneric.releaseLinks · r l s) s.Maintains := by
  induction l generalizing s with
  | nil => exact ends_ok h.maintains
  | cons e l ih =>
      apply Ends.ite
      · intro _
        apply (h.releaseLink r e).bind
        intro t ht
        exact (ih ht.sound).mono fun u hu => ht.trans hu
      · intro _
        exact ends_error (by decide)

private theorem Sound.readerPop (h : s.Sound) (r : ρ) :
    Ends (fun _ => s.readerPop r) fun a => s.Maintains a.1 := by
  cases hfirst : (s.reader r).fifo_first with
  | none =>
      simp only [FifoGeneric.readerPop, hfirst]
      exact ends_ok h.maintains
  | some e =>
      simp only [FifoGeneric.readerPop, hfirst]
      apply Ends.ite
      · intro _
        exact ends_ok h.maintains
      · intro _
        apply Ends.ite
        · intro _
          exact ends_ok (h.maintains.setReader rfl rfl)
        · intro _
          apply (ends_check _).bind
          intro _ _
          exact ends_ok (h.maintains.setReader rfl rfl)

private theorem searchUnread_ends {p : Option κ} {readerId : BitVec 32} (h : Chain s.next p fifo) :
    Ends (FifoGeneric.searchUnread s readerId · p) fun _ => True := by
  induction fifo generalizing p with
  | nil =>
      obtain rfl : p = none := h
      have hfails : Ends (fun _ => (.error .assertion : Outcome κ)) fun _ => True :=
        ends_error (by decide)
      exact hfails.step fun fuel => rfl
  | cons e fifo ih =>
      obtain ⟨rfl, htail⟩ := h
      by_cases hmask : s.expectedReadsBitMask e &&& readerId = 0
      · exact (ih htail).step fun fuel => by simp only [FifoGeneric.searchUnread, if_pos hmask]
      · have hfound : Ends (fun _ => .ok e) fun _ => True := ends_ok trivial
        exact hfound.step fun fuel => by simp only [FifoGeneric.searchUnread, if_neg hmask]

private theorem advanceBy_ends (n : Nat) (e : κ) : Ends (fun _ => s.advanceBy n e) fun _ => True := by
  induction n generalizing e with
  | zero => exact ends_ok trivial
  | succ n ih =>
      unfold FifoGeneric.advanceBy
      cases s.next e with
      | none => exact ends_error (by decide)
      | some following => exact ih following

private theorem Sound.synchronizeReader (h : s.Sound) (r : ρ) (volume : Nat) :
    Ends (FifoGeneric.synchronizeReader · s r volume) s.Maintains := by
  obtain ⟨unused, allocated, fifo, hstored⟩ := h
  have hself := hstored.maintains (s := s) ⟨rfl, rfl, rfl, rfl⟩
  apply (ends_check _).bind
  intro _ _
  cases hfirst : (s.reader r).fifo_first with
  | none =>
      simp only [hfirst]
      apply (searchUnread_ends hstored.fifo).bind
      intro first _
      apply (advanceBy_ends _ first).bind
      intro last _
      exact ends_ok (hself.setReader rfl rfl)
  | some e =>
      simp only [hfirst]
      apply (ends_deref _).bind
      intro last _
      cases s.next last with
      | none => exact ends_error (by decide)
      | some newItem =>
          apply (advanceBy_ends _ newItem).bind
          intro last' _
          exact ends_ok (hself.setReader rfl rfl)

private theorem Sound.synchronize (h : s.Sound)
    (hreaders : Chain (fun r => (s.reader r).nextReader) s.m_readers readers) (task : τ)
    (volume : Nat) : Ends (FifoGeneric.synchronize · s task volume) s.Maintains := by
  apply Ends.ite
  · intro _
    exact ends_ok h.maintains
  · intro _
    have hfind := findReader_returns task hreaders
    apply (hfind.ends (Q := fun _ => True) trivial).bind
    intro found _
    cases found with
    | none => exact ends_ok h.maintains
    | some r => exact h.synchronizeReader r volume

theorem Sound.call (h : s.Sound)
    (hreaders : Chain (fun r => (s.reader r).nextReader) s.m_readers readers) {c : FifoCall δ ρ τ}
    (hcome : ∀ r, c ≠ .associateReader r) (hleave : ∀ r, c ≠ .releaseReader r) :
    Ends (FifoGeneric.call · s c) fun a => s.Maintains a.1 := by
  cases c with
  | associateReader r => exact absurd rfl (hcome r)
  | releaseReader r => exact absurd rfl (hleave r)
  | allocate => exact ends_ok h.allocate
  | pop => exact ends_ok h.pop
  | release d =>
      apply (h.release d 1).bind
      intro t ht
      exact ends_ok ht
  | push d =>
      obtain ⟨t, result, hret, ht, _⟩ := h.push d
      have hends : Ends (FifoGeneric.push · s d) fun a => s.Maintains a.1 := hret.ends ht
      apply hends.bind
      intro a ha
      exact ends_ok ha
  | synchronize task volume =>
      apply (h.synchronize hreaders task volume).bind
      intro t ht
      exact ends_ok ht
  | readerPop r =>
      apply (h.readerPop r).bind
      intro a ha
      exact ends_ok ha
  | readerRelease r d =>
      apply (h.readerRelease r d).bind
      intro t ht
      exact ends_ok ht
  | readerReleaseAll r =>
      apply (h.releaseLinks r _).bind
      intro t ht
      exact ends_ok ht

end TaskingFramework.FifoGeneric
