import TaskingFramework.Fifo.Membership
import TaskingFramework.Foundation.Calls

/-!
# The calls of the FIFO refine those of the view

Every call returns, answers what the view answers, and keeps showing the view. A reader that leaves is
not covered here.
-/

set_option linter.unusedSectionVars false

namespace TaskingFramework

open Foundation

variable {κ δ ρ τ : Type} [DecidableEq κ] [DecidableEq δ] [DecidableEq ρ] [DecidableEq τ]
  {s t : FifoGeneric κ δ ρ τ} {V : FifoView κ ρ} {c : FifoCall δ ρ τ}

def FifoGeneric.task (s : FifoGeneric κ δ ρ τ) (r : ρ) : τ := (s.reader r).readerTask

/-- The call of the view that belongs to a call of the FIFO. -/
def FifoGeneric.view (s : FifoGeneric κ δ ρ τ) (V : FifoView κ ρ) (c : FifoCall δ ρ τ) :
    FifoView κ ρ × FifoAnswer δ :=
  V.call s.data s.task c

/-- The reader that `synchronize` finds for a task. -/
def FifoGeneric.readerOf (s : FifoGeneric κ δ ρ τ) (V : FifoView κ ρ) (task : τ) : Option ρ :=
  V.readers.find? fun r => s.task r = task

/-- What a call asks of the FIFO and its readers. -/
def Admissible (s : FifoGeneric κ δ ρ τ) (V : FifoView κ ρ) : FifoCall δ ρ τ → Prop
  | .associateReader r => r ∈ V.readers ∨ s.HasFreeId
  | .releaseReader _ => False
  | .synchronize task volume => ∀ r, s.readerOf V task = some r →
      volume ≤ (V.behind r).length ∧ (0 < volume → V.window r = [] → V.held r = [])
  | _ => True

/-- Only a new reader changes the bits of the readers. -/
def NewBits (s : FifoGeneric κ δ ρ τ) (V : FifoView κ ρ) (t : FifoGeneric κ δ ρ τ) :
    FifoCall δ ρ τ → Prop
  | .associateReader r => r ∈ V.readers ∧ t = s ∨ r ∉ V.readers ∧
      ∃ k, FirstFree V.readers s.m_readerBitMask k ∧
        ∀ i, t.m_readerBitMask.getLsbD i = true ↔ s.m_readerBitMask.getLsbD i = true ∨ i = k
  | _ => t.m_readerBitMask = s.m_readerBitMask

private theorem Consistent.synchronize {task : τ} {volume : Nat} (h : Consistent s V)
    (hlegal : Admissible s V (.synchronize task volume)) :
    ∃ t, Returns (FifoGeneric.synchronize · s task volume) t ∧
      Consistent t (s.view V (.synchronize task volume)).1 ∧ s.SameReaders t := by
  have hfind : Returns (FifoGeneric.findReader s task · s.m_readers) (s.readerOf V task) :=
    findReader_returns task h.readers
  by_cases hzero : volume = 0
  · subst hzero
    refine ⟨s, ?_, ?_, .refl⟩
    · simp only [FifoGeneric.synchronize, if_true]
      exact returns_ok s
    · simp only [FifoGeneric.view, FifoView.call]
      split
      · exact h
      · rw [FifoView.synchronize_zero]
        exact h
  · simp only [FifoGeneric.synchronize, if_neg hzero]
    cases hreader : s.readerOf V task with
    | none =>
        have hreader' : V.readers.find? (fun r => s.task r = task) = none := hreader
        refine ⟨s, ?_, ?_, .refl⟩
        · rw [hreader] at hfind
          exact hfind.bind (returns_ok s)
        · simp only [FifoGeneric.view, FifoView.call, hreader']
          exact h
    | some r =>
        have hreader' : V.readers.find? (fun r => s.task r = task) = some r := hreader
        have hr : r ∈ V.readers := List.mem_of_find?_eq_some hreader
        have hpos : 0 < volume := Nat.pos_of_ne_zero hzero
        obtain ⟨hvolume, hheld⟩ := hlegal r hreader
        obtain ⟨t, hret, ht, hsame⟩ := h.synchronizeReader hr hpos hvolume (hheld hpos)
        refine ⟨t, ?_, ?_, hsame⟩
        · rw [hreader] at hfind
          exact hfind.bind hret
        · simp only [FifoGeneric.view, FifoView.call, hreader']
          exact ht

theorem Consistent.synchronize_exceeds {task : τ} {volume : Nat} {r : ρ} (h : Consistent s V)
    (hreader : s.readerOf V task = some r) (hvolume : (V.behind r).length < volume)
    (hheld : V.window r = [] → V.held r = []) :
    Fails (FifoGeneric.synchronize · s task volume) .assertion := by
  have hfind : Returns (FifoGeneric.findReader s task · s.m_readers) (s.readerOf V task) :=
    findReader_returns task h.readers
  have hr : r ∈ V.readers := List.mem_of_find?_eq_some hreader
  have hzero : volume ≠ 0 := by omega
  simp only [FifoGeneric.synchronize, if_neg hzero]
  rw [hreader] at hfind
  exact hfind.bind_fails (h.synchronizeReader_exceeds hr hvolume hheld)

/-- The refinement step. -/
theorem Consistent.call (h : Consistent s V) (hlegal : Admissible s V c) :
    ∃ t, Returns (FifoGeneric.call · s c) (t, (s.view V c).2) ∧ Consistent t (s.view V c).1 ∧
      s.SameSetup t ∧ NewBits s V t c := by
  cases c with
  | allocate =>
      simp only [FifoGeneric.view, FifoView.call]
      cases hunused : V.unused with
      | nil =>
          have hnone : s.m_unused = none := by
            rw [h.stored.unused.head, hunused]
            rfl
          have hcall : s.allocate = (s, none) := by
            simp only [FifoGeneric.allocate, hnone]
          refine ⟨s, ?_, h, FifoGeneric.SameReaders.refl.toSameSetup, rfl⟩
          simp only [FifoGeneric.call, hcall]
          exact returns_ok _
      | cons e l =>
          obtain ⟨hdata, ht, hsame⟩ := h.allocate hunused
          refine ⟨s.allocate.1, ?_, ht, hsame.toSameSetup, hsame.bitMask⟩
          simp only [FifoGeneric.call, hdata]
          exact returns_ok _
  | release d =>
      simp only [FifoGeneric.view, FifoView.call]
      cases hfind : V.allocated.find? fun e => s.data e = d with
      | none =>
          have hret := FifoGeneric.release_absent h.stored hfind 1
          exact ⟨s, hret.bind (returns_ok _), h, FifoGeneric.SameReaders.refl.toSameSetup, rfl⟩
      | some e =>
          obtain ⟨t, hret, ht, hsame⟩ := h.release hfind
          exact ⟨t, hret.bind (returns_ok _), ht, hsame.toSameSetup, hsame.bitMask⟩
  | push d =>
      simp only [FifoGeneric.view, FifoView.call]
      cases hfind : V.allocated.find? fun e => s.data e = d with
      | none =>
          have hret := h.push_absent hfind
          exact ⟨s, hret.bind (returns_ok _), h, FifoGeneric.SameReaders.refl.toSameSetup, rfl⟩
      | some e =>
          obtain ⟨t, hret, ht, hsame⟩ := h.push hfind
          exact ⟨t, hret.bind (returns_ok _), ht, hsame.toSameSetup, hsame.bitMask⟩
  | pop =>
      simp only [FifoGeneric.view, FifoView.call, FifoGeneric.call]
      cases hr : V.readers with
      | nil =>
          cases hfifo : V.fifo with
          | nil =>
              rw [h.pop_nothing (Or.inr hfifo)]
              exact ⟨s, returns_ok _, h, FifoGeneric.SameReaders.refl.toSameSetup, rfl⟩
          | cons e l =>
              obtain ⟨hdata, ht, hsame⟩ := h.pop hr hfifo
              refine ⟨s.pop.1, ?_, ht, hsame.toSameSetup, hsame.bitMask⟩
              rw [hdata]
              exact returns_ok _
      | cons r readers =>
          rw [h.pop_nothing (Or.inl (by simp [hr]))]
          exact ⟨s, returns_ok _, h, FifoGeneric.SameReaders.refl.toSameSetup, rfl⟩
  | associateReader r =>
      simp only [FifoGeneric.view, FifoView.call]
      by_cases hr : r ∈ V.readers
      · rw [if_pos hr]
        have hret := h.associateReader_again hr
        exact ⟨s, hret.bind (returns_ok _), h, FifoGeneric.SameReaders.refl.toSameSetup,
          Or.inl ⟨hr, rfl⟩⟩
      · rw [if_neg hr]
        obtain ⟨k, hk⟩ := exists_firstFree h.m_readers_eq_none (hlegal.resolve_left hr)
        obtain ⟨t, hret, ht, hsame, hbits⟩ := h.associateReader hr hk
        exact ⟨t, hret.bind (returns_ok _), ht, hsame, Or.inr ⟨hr, k, hk, hbits⟩⟩
  | releaseReader r => exact absurd hlegal not_false
  | synchronize task volume =>
      obtain ⟨t, hret, ht, hsame⟩ := h.synchronize hlegal
      have hanswer : (s.view V (.synchronize task volume)).2 = .nothing := by
        simp only [FifoGeneric.view, FifoView.call]
        split <;> rfl
      rw [hanswer]
      exact ⟨t, hret.bind (returns_ok _), ht, hsame.toSameSetup, hsame.bitMask⟩
  | readerPop r =>
      simp only [FifoGeneric.view, FifoView.call]
      cases hwindow : V.window r with
      | nil =>
          refine ⟨s, ?_, h, FifoGeneric.SameReaders.refl.toSameSetup, rfl⟩
          simp only [FifoGeneric.call, h.readerPop_empty hwindow]
          exact returns_ok _
      | cons e l =>
          by_cases hlinks : (V.held r).length < maximumFifoReaderLinks
          · obtain ⟨t, hcall, ht, hsame⟩ := h.readerPop hwindow hlinks
            simp only [if_pos hlinks]
            refine ⟨t, ?_, ht, hsame.toSameSetup, hsame.bitMask⟩
            simp only [FifoGeneric.call, hcall]
            exact returns_ok _
          · simp only [if_neg hlinks]
            refine ⟨s, ?_, h, FifoGeneric.SameReaders.refl.toSameSetup, rfl⟩
            simp only [FifoGeneric.call, h.readerPop_full hlinks]
            exact returns_ok _
  | readerRelease r d =>
      simp only [FifoGeneric.view, FifoView.call]
      cases hfind : (V.held r).find? fun e => s.data e = d with
      | none =>
          have hret := h.readerRelease_absent hfind
          exact ⟨s, hret.bind (returns_ok _), h, FifoGeneric.SameReaders.refl.toSameSetup, rfl⟩
      | some e =>
          obtain ⟨t, hret, ht, hsame⟩ := h.readerRelease hfind
          exact ⟨t, hret.bind (returns_ok _), ht, hsame.toSameSetup, hsame.bitMask⟩
  | readerReleaseAll r =>
      obtain ⟨t, hret, ht, hsame⟩ := h.readerReleaseAll (r := r)
      exact ⟨t, hret.bind (returns_ok _), ht, hsame.toSameSetup, hsame.bitMask⟩

end TaskingFramework
