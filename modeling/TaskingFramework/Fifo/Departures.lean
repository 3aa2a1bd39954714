import TaskingFramework.Fifo.ReleaseReader

/-!
# Runs in which readers leave

A FIFO stays usable for the remaining readers exactly when the reader that leaves is the only one that
still awaits an element of the FIFO.
-/

set_option linter.unusedSectionVars false

namespace TaskingFramework

open Foundation

variable {κ δ ρ τ : Type} [DecidableEq κ] [DecidableEq δ] [DecidableEq ρ] [DecidableEq τ]

namespace Watched

/-- At most eight readers at a time. A reader has released what it popped when it starts a new
window. -/
def Orderly (w : Watched κ δ ρ τ) : FifoCall δ ρ τ → Prop
  | .associateReader r => r ∈ w.view.readers ∨ w.view.readers.length < 8
  | .releaseReader r => r ∈ w.view.readers
  | .synchronize task volume => ∀ r, w.fifo.readerOf w.view task = some r →
      0 < volume → w.view.window r = [] → w.view.held r = []
  | _ => True

/-- A reader leaves when no other one awaits an element of the FIFO, and comes when one of the bits
behind the first is free. -/
def Unshared (w : Watched κ δ ρ τ) : FifoCall δ ρ τ → Prop
  | .associateReader r => r ∈ w.view.readers ∨ w.fifo.HasFreeId
  | .releaseReader r => ∀ e ∈ w.view.fifo, ¬ w.view.Shared r e
  | _ => True

/-- What remains of the FIFO once the reader has left. -/
def remaining (w : Watched κ δ ρ τ) (r : ρ) : List κ := w.view.fifo.filter fun e => w.view.Shared r e

/-- The FIFO is usable once the reader has left: the remaining elements are those that other readers
await, and the next push returns and stands behind them. -/
structure Leaves (w : Watched κ δ ρ τ) (r : ρ) (s : FifoGeneric κ δ ρ τ) : Prop where
  ends : s.m_fifo_first = none ↔ s.m_fifo_last = none
  chain : Chain s.next s.m_fifo_first (w.remaining r)
  last : s.m_fifo_last = (w.remaining r).getLast?
  released : ∀ e ∈ w.remaining r, s.expectedReadsBitMask e &&& (s.reader r).readerId = 0
  push : ∀ d, ∃ t result, Returns (FifoGeneric.push · s d) (t, result) ∧
    (result = true → ∃ e, s.data e = d ∧ Chain t.next t.m_fifo_first (w.remaining r ++ [e]))

variable {w w' : Watched κ δ ρ τ} {c : FifoCall δ ρ τ} {a : FifoAnswer δ} {r : ρ}
  {buffer : FifoBuffer κ δ} {task : ρ → τ} {l : List (FifoCall δ ρ τ × FifoAnswer δ)}

private theorem remaining_eq_nil : w.remaining r = [] ↔ w.Unshared (.releaseReader r) := by
  rw [remaining, List.filter_eq_nil_iff]
  simp [Unshared]

private theorem leave_fifo (h : Consistent w.fifo w.view) (hr : r ∈ w.view.readers) :
    (w.view.leave r).fifo = w.remaining r :=
  h.valid.leave_fifo h.awaited hr

theorem call_returns {t : FifoGeneric κ δ ρ τ} (h : Returns (FifoGeneric.call · w.fifo c) (t, a)) :
    Returns (call · w c) ({ fifo := t, view := (w.fifo.view w.view c).1 }, a) :=
  h.bind (returns_ok _)

private theorem consistent_step (h : Consistent w.fifo w.view)
    (hstep : Calls (fun w c => w.Orderly c ∧ w.Unshared c) call w (c, a) w') :
    Consistent w'.fifo w'.view := by
  obtain ⟨⟨horderly, hunshared⟩, hret⟩ := hstep
  by_cases hleave : ∃ r, c = .releaseReader r
  · obtain ⟨r, rfl⟩ := hleave
    obtain ⟨t, hret', ht, _⟩ := h.releaseReader horderly
    have hnil : (w.view.leave r).fifo = [] := by
      rw [leave_fifo h horderly]
      exact remaining_eq_nil.mpr hunshared
    have hlast : t.m_fifo_last = none := by
      rw [ht.stored.last, hnil]
      rfl
    have hsame : { t with m_fifo_last := none } = t := by rw [← hlast]
    rw [hsame] at hret'
    have hcall : Returns (FifoGeneric.call · w.fifo (.releaseReader r)) (t, .nothing) :=
      hret'.bind (returns_ok _)
    obtain ⟨rfl, _⟩ := Prod.mk.inj (hret.unique (call_returns hcall))
    exact ht
  · have hadmissible : Admissible w.fifo w.view c := by
      cases c with
      | associateReader r => exact hunshared
      | releaseReader r => exact hleave ⟨r, rfl⟩
      | synchronize t volume =>
          intro r hreader
          refine ⟨?_, horderly r hreader⟩
          by_contra hexceeds
          have hfails := h.synchronize_exceeds hreader (Nat.lt_of_not_le hexceeds)
            (horderly r hreader (by omega))
          have hcall : Fails (call · w (.synchronize t volume)) .assertion := hfails.bind.bind
          exact hcall.not_returns hret
      | allocate => trivial
      | release d => trivial
      | push d => trivial
      | pop => trivial
      | readerPop r => trivial
      | readerRelease r d => trivial
      | readerReleaseAll r => trivial
    obtain ⟨t, hret', ht, _⟩ := h.call hadmissible
    obtain ⟨rfl, _⟩ := Prod.mk.inj (hret.unique (call_returns hret'))
    exact ht

private theorem leaves_iff (h : Consistent w.fifo w.view) (hr : r ∈ w.view.readers) :
    ∃ w', Calls Orderly call w (.releaseReader r, .nothing) w' ∧
      (w.Leaves r w'.fifo ↔ w.Unshared (.releaseReader r)) := by
  obtain ⟨t, hret, ht, hsetup, hreleased⟩ := h.releaseReader hr
  have hcall : Returns (FifoGeneric.call · w.fifo (.releaseReader r))
      ({ t with m_fifo_last := none }, .nothing) := hret.bind (returns_ok _)
  refine ⟨_, ⟨hr, call_returns hcall⟩, ?_⟩
  have hfifo := leave_fifo h hr
  constructor
  · intro hleaves
    rw [← remaining_eq_nil, ← List.getLast?_eq_none_iff]
    exact hleaves.last.symm
  · intro hunshared
    have hnil := remaining_eq_nil.mpr hunshared
    have hlast : t.m_fifo_last = none := by
      rw [ht.stored.last, hfifo, hnil]
      rfl
    have hsame : { t with m_fifo_last := none } = t := by rw [← hlast]
    show w.Leaves r { t with m_fifo_last := none }
    rw [hsame]
    have hchain := ht.stored.fifo
    rw [hfifo] at hchain hreleased
    refine ⟨?_, hchain, ?_, hreleased, ?_⟩
    · rw [hchain.head, hlast, hnil]
      simp
    · rw [hlast, hnil]
      rfl
    · intro d
      cases hfind : (w.view.leave r).allocated.find? fun e => t.data e = d with
      | none => exact ⟨t, false, ht.push_absent hfind, fun hfalse => absurd hfalse Bool.false_ne_true⟩
      | some e =>
          obtain ⟨u, hpush, hu, _⟩ := ht.push hfind
          refine ⟨u, true, hpush, fun _ => ⟨e, by simpa using List.find?_some hfind, ?_⟩⟩
          have hchain' := hu.stored.fifo
          rw [← hfifo]
          exact hchain'

/-- After every run in which readers leave only where no other reader awaits an element, the release of
a further reader leaves the FIFO usable if and only if no other reader awaits an element. -/
theorem run_leaves (buffer : FifoBuffer κ δ) (task : ρ → τ)
    (h : Run (Calls (fun w c => w.Orderly c ∧ w.Unshared c) call) (start buffer task) l w)
    (hr : r ∈ w.view.readers) :
    Chain w.fifo.next w.fifo.m_fifo_first w.view.fifo ∧
      ∃ w', Calls Orderly call w (.releaseReader r, .nothing) w' ∧
        (w.Leaves r w'.fifo ↔ w.Unshared (.releaseReader r)) := by
  have hinv : Consistent w.fifo w.view := by
    apply h.invariant (I := fun w => Consistent w.fifo w.view)
    · exact consistent_construct buffer.data task buffer.distinct
    · intro w ⟨c, a⟩ w' hw hstep
      exact consistent_step hw hstep
  exact ⟨hinv.stored.fifo, leaves_iff hinv hr⟩

/-- A reader that is the only one to await the element leaves the FIFO in order. -/
theorem run_leaves_last : ∃ w w', Run (Calls (fun w c => w.Orderly c ∧ w.Unshared c) call) opened
    [(.associateReader 0, .nothing), (.associateReader 1, .nothing), (.allocate, .data (some 1)),
      (.push 1, .pushed true), (.synchronize 1 1, .nothing), (.readerPop 1, .data (some 1)),
      (.readerRelease 1 1, .nothing)] w ∧
    Calls Orderly call w (.releaseReader 0, .nothing) w' ∧ w.Leaves 0 w'.fifo := by
  have h₀ : Run (Calls (fun w c => w.Orderly c ∧ w.Unshared c) call) opened [] opened := .start
  have h₁ := h₀.next_call 12 (.associateReader 0)
    ⟨Or.inr (by decide), Or.inr (by decide)⟩ fun fuel => rfl
  have h₂ := h₁.next_call 12 (.associateReader 1)
    ⟨Or.inr (by decide), Or.inr (by decide)⟩ fun fuel => rfl
  have h₃ := h₂.next_call 12 .allocate ⟨trivial, trivial⟩ fun fuel => rfl
  have h₄ := h₃.next_call 12 (.push 1) ⟨trivial, trivial⟩ fun fuel => rfl
  have h₅ := h₄.next_call 12 (.synchronize 1 1) ⟨by
    intro r hr _ _
    obtain rfl : 1 = r := Option.some.inj hr
    rfl, trivial⟩ fun fuel => rfl
  have h₆ := h₅.next_call 12 (.readerPop 1) ⟨trivial, trivial⟩ fun fuel => rfl
  have hrun := h₆.next_call 12 (.readerRelease 1 1) ⟨trivial, trivial⟩ fun fuel => rfl
  obtain ⟨_, w', hcall, hleaves⟩ := run_leaves (r := 0) _ _ hrun (by decide)
  exact ⟨_, w', hrun, hcall, hleaves.mpr (remaining_eq_nil.mp (by decide))⟩

/-- Where the other reader still awaits the element, the FIFO loses its last element, and the next push
goes through a null pointer. -/
theorem leaves_without_last : ∃ w w', Run (Calls Orderly call) opened
    [(.associateReader 0, .nothing), (.associateReader 1, .nothing), (.allocate, .data (some 1)),
      (.push 1, .pushed true), (.allocate, .data (some 0))] w ∧
    Calls Orderly call w (.releaseReader 1, .nothing) w' ∧ ¬ w.Leaves 1 w'.fifo ∧
    w'.fifo.m_fifo_first = some 1 ∧ w'.fifo.m_fifo_last = none ∧
    ∀ fuel, w'.fifo.call (fuel + 12) (.push 0) = .error .nullPointer := by
  have h₀ : Run (Calls Orderly call) opened [] opened := .start
  have h₁ := h₀.next_call 12 (.associateReader 0) (Or.inr (by decide)) fun fuel => rfl
  have h₂ := h₁.next_call 12 (.associateReader 1) (Or.inr (by decide)) fun fuel => rfl
  have h₃ := h₂.next_call 12 .allocate trivial fun fuel => rfl
  have h₄ := h₃.next_call 12 (.push 1) trivial fun fuel => rfl
  have hrun := h₄.next_call 12 .allocate trivial fun fuel => rfl
  have hmem : (1 : Nat) ∈ ([1, 0] : List Nat) := List.mem_cons_self
  refine ⟨_, _, hrun, calls_reached 12 hmem fun fuel => rfl, ?_, rfl, rfl,
    fun fuel => rfl⟩
  intro hleaves
  exact absurd (hleaves.ends.mpr rfl) (by decide)

end Watched

end TaskingFramework
