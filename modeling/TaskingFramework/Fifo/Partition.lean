import TaskingFramework.Fifo.Refinement

/-!
# The elements of a FIFO with readers

A FIFO is watched together with its view. As long as no reader leaves, every run of legal calls keeps
all elements in the three chains, the pointers of the readers within the FIFO, and recycles an element
at the release by the last reader that had to read it.
-/

set_option linter.unusedSectionVars false

namespace TaskingFramework

open Foundation

variable {κ δ ρ τ : Type} [DecidableEq κ] [DecidableEq δ] [DecidableEq ρ] [DecidableEq τ]

/-- The elements of a FIFO, with data of their own. -/
structure FifoBuffer (κ δ : Type) where
  items : List κ
  data : κ → δ
  distinct : items.Nodup
  separate : Function.Injective data

/-- A FIFO and what it is to show. -/
structure Watched (κ δ ρ τ : Type) where
  fifo : FifoGeneric κ δ ρ τ
  view : FifoView κ ρ

namespace Watched

def start (buffer : FifoBuffer κ δ) (task : ρ → τ) : Watched κ δ ρ τ where
  fifo := FifoGeneric.construct buffer.data task buffer.items
  view := FifoView.init buffer.items

def call (fuel : Nat) (w : Watched κ δ ρ τ) (c : FifoCall δ ρ τ) :
    Outcome (Watched κ δ ρ τ × FifoAnswer δ) := do
  let (s, answer) ← w.fifo.call fuel c
  return ({ fifo := s, view := (w.fifo.view w.view c).1 }, answer)

/-- At most eight readers, none of which leaves. A volume is at most what is pushed behind the window
of the reader, and a reader has released what it popped when it starts a new window. -/
def Legal (w : Watched κ δ ρ τ) : FifoCall δ ρ τ → Prop
  | .associateReader r => r ∈ w.view.readers ∨ w.view.readers.length < 8
  | .releaseReader _ => False
  | .synchronize task volume => ∀ r, w.fifo.readerOf w.view task = some r →
      volume ≤ (w.view.behind r).length ∧
        (0 < volume → w.view.window r = [] → w.view.held r = [])
  | _ => True

/-- Each element is in exactly one of the three chains, which end. -/
structure Partitioned (w : Watched κ δ ρ τ) (items : List κ) : Prop where
  unused : Chain w.fifo.next w.fifo.m_unused w.view.unused
  allocated : Chain w.fifo.next w.fifo.m_allocated w.view.allocated
  fifo : Chain w.fifo.next w.fifo.m_fifo_first w.view.fifo
  all : w.view.stock.Perm items
  distinct : w.view.stock.Nodup

/-- A reader that is not empty points to the ends of a part of the FIFO. -/
def PointsInto (reader : FifoGenericReader κ ρ τ) (fifo : List κ) : Prop :=
  reader.fifo_first ≠ none → ∃ front window rest, fifo = front ++ window ++ rest ∧ window ≠ [] ∧
    reader.fifo_first = window.head? ∧ reader.fifo_last = window.getLast?

/-- The bits of the readers are the lowest ones. -/
def Dense (w : Watched κ δ ρ τ) : Prop :=
  ∀ i, w.fifo.m_readerBitMask.getLsbD i = true ↔ i < max 1 w.view.readers.length

variable {w w' : Watched κ δ ρ τ} {c : FifoCall δ ρ τ} {a : FifoAnswer δ}
  {buffer : FifoBuffer κ δ} {task : ρ → τ} {l : List (FifoCall δ ρ τ × FifoAnswer δ)}

private theorem Dense.hasFreeId (h : w.Dense) (hc : Consistent w.fifo w.view)
    (hlt : w.view.readers.length < 8) : w.fifo.HasFreeId := by
  by_cases hr : w.view.readers = []
  · exact Or.inl (hc.m_readers_eq_none.mpr hr)
  · have hpos : 0 < w.view.readers.length := List.length_pos_iff.mpr hr
    refine Or.inr ⟨w.view.readers.length, hlt, hpos, ?_⟩
    rw [← Bool.not_eq_true, h]
    omega

private theorem admissible_of_legal (hc : Consistent w.fifo w.view) (hdense : w.Dense)
    (hlegal : w.Legal c) : Admissible w.fifo w.view c := by
  cases c with
  | associateReader r => exact hlegal.imp_right (hdense.hasFreeId hc)
  | releaseReader r => exact hlegal
  | synchronize task volume => exact hlegal
  | allocate => trivial
  | release d => trivial
  | push d => trivial
  | pop => trivial
  | readerPop r => trivial
  | readerRelease r d => trivial
  | readerReleaseAll r => trivial

private theorem Dense.associate (h : w.Dense) {k : Nat} {t : FifoGeneric κ δ ρ τ} {r : ρ}
    (hk : FirstFree w.view.readers w.fifo.m_readerBitMask k)
    (hbits : ∀ i, t.m_readerBitMask.getLsbD i = true ↔
      w.fifo.m_readerBitMask.getLsbD i = true ∨ i = k) :
    Dense { fifo := t, view := w.view.associate r } := by
  have hlength : (w.view.associate r).readers.length = w.view.readers.length + 1 := rfl
  intro i
  rw [hbits, h i, hlength]
  unfold FirstFree at hk
  by_cases hr : w.view.readers = []
  · rw [if_pos hr] at hk
    simp only [hr, List.length_nil]
    omega
  · rw [if_neg hr] at hk
    obtain ⟨hpos, _, hfree, hset⟩ := hk
    have hlen : 0 < w.view.readers.length := List.length_pos_iff.mpr hr
    have hle : w.view.readers.length ≤ k := by
      rw [← Bool.not_eq_true, h] at hfree
      omega
    have hge : k ≤ w.view.readers.length := by
      by_contra hlt
      have hbit := (h _).mp (hset w.view.readers.length hlen (by omega))
      omega
    omega

structure Keeps (buffer : FifoBuffer κ δ) (w : Watched κ δ ρ τ) : Prop where
  consistent : Consistent w.fifo w.view
  dense : w.Dense
  all : w.view.stock.Perm buffer.items

theorem keeps_start (buffer : FifoBuffer κ δ) (task : ρ → τ) : Keeps buffer (start buffer task) := by
  have hconsistent := consistent_construct buffer.data task buffer.distinct
  refine ⟨hconsistent, ?_, ?_⟩
  · obtain ⟨slot, hmarked⟩ := hconsistent.marked
    intro i
    have hbit := hmarked.mask i
    rw [Bits, if_pos (show (FifoView.init buffer.items : FifoView κ ρ).readers = [] from rfl)] at hbit
    have hlength : (start buffer task).view.readers.length = 0 := rfl
    rw [hlength]
    exact hbit.trans (by omega)
  · simp [start, FifoView.init, FifoView.stock]

/-- Every legal call returns, answers what the view answers and keeps everything in order. -/
theorem Keeps.call (h : Keeps buffer w) (hlegal : w.Legal c) :
    ∃ t, Returns (FifoGeneric.call · w.fifo c) (t, (w.fifo.view w.view c).2) ∧
      w.fifo.SameSetup t ∧ Keeps buffer { fifo := t, view := (w.fifo.view w.view c).1 } := by
  obtain ⟨t, hret, ht, hsetup, hbits⟩ :=
    h.consistent.call (admissible_of_legal h.consistent h.dense hlegal)
  have hstay : ∀ r, c ≠ .releaseReader r := by
    rintro r rfl
    exact hlegal
  have hstock : (w.fifo.view w.view c).1.stock.Perm w.view.stock := by
    apply h.consistent.valid.call_stock
    intro r hr
    exact absurd hr (hstay r)
  refine ⟨t, hret, hsetup, ht, ?_, hstock.trans h.all⟩
  by_cases hcome : ∃ r, c = .associateReader r
  · obtain ⟨r, rfl⟩ := hcome
    rcases hbits with ⟨hr, rfl⟩ | ⟨hr, k, hk, hbits⟩
    · simp only [FifoGeneric.view, FifoView.call, if_pos hr]
      exact h.dense
    · simp only [FifoGeneric.view, FifoView.call, if_neg hr]
      exact h.dense.associate hk hbits
  · have hcome' : ∀ r, c ≠ .associateReader r := fun r hr => hcome ⟨r, hr⟩
    have hreaders : (w.fifo.view w.view c).1.readers = w.view.readers :=
      FifoView.call_readers hcome' hstay
    have hmask : t.m_readerBitMask = w.fifo.m_readerBitMask := by
      cases c with
      | associateReader r => exact absurd rfl (hcome' r)
      | _ => exact hbits
    intro i
    show t.m_readerBitMask.getLsbD i = true ↔ i < max 1 (w.fifo.view w.view c).1.readers.length
    rw [hmask, hreaders]
    exact h.dense i

private theorem Keeps.step (h : Keeps buffer w) (hlegal : w.Legal c) :
    ∃ a w', Calls Legal Watched.call w (c, a) w' ∧ Keeps buffer w' ∧
      w'.view = (w.fifo.view w.view c).1 := by
  obtain ⟨t, hret, _, ht⟩ := h.call hlegal
  exact ⟨_, _, ⟨hlegal, hret.bind (returns_ok _)⟩, ht, rfl⟩

private theorem Keeps.partitioned (h : Keeps buffer w) : w.Partitioned buffer.items where
  unused := h.consistent.stored.unused
  allocated := h.consistent.stored.allocated
  fifo := h.consistent.stored.fifo
  all := h.all
  distinct := h.consistent.stored.distinct

private theorem Keeps.pointsInto (h : Keeps buffer w) (r : ρ) :
    PointsInto (w.fifo.reader r) w.view.fifo := by
  intro hfirst
  have hpoints := h.consistent.points r
  have hne : w.view.window r ≠ [] := by
    intro hnil
    rw [hpoints.first, hnil] at hfirst
    exact hfirst rfl
  have hr : r ∈ w.view.readers := by
    by_contra hr
    exact hne (h.consistent.valid.idle r hr).1
  obtain ⟨x, hx, _⟩ := h.consistent.valid.split r hr
  refine ⟨x, w.view.window r, w.view.behind r, ?_, hne, hpoints.first, hpoints.last hne⟩
  rw [hx, FifoView.unread, List.append_assoc]

/-- Every run of legal calls keeps the chains apart and all elements in them, and the pointers of the
readers within the FIFO. Every further legal call returns, and a pushed element becomes unused exactly
at the release by the last reader that had to read it. -/
theorem run_partitioned (buffer : FifoBuffer κ δ) (task : ρ → τ)
    (h : Run (Calls Legal call) (start buffer task) l w) :
    w.Partitioned buffer.items ∧ (∀ r, PointsInto (w.fifo.reader r) w.view.fifo) ∧
      ∀ c, w.Legal c → ∃ a w', Calls Legal call w (c, a) w' ∧ ∀ e ∈ w.view.fifo,
        (e ∈ w'.view.unused ↔ ∃ r, w.view.Releases w.fifo.data c r e ∧
          ∀ a ∈ w.view.readers, w.view.Awaits e a → a = r) := by
  have hkeeps : Keeps buffer w := by
    apply run_calls_invariant _ (keeps_start buffer task) h
    intro w c hw hlegal
    obtain ⟨a, w', hcall, hw', _⟩ := hw.step hlegal
    exact ⟨a, w', hcall, hw'⟩
  refine ⟨hkeeps.partitioned, hkeeps.pointsInto, ?_⟩
  intro c hlegal
  obtain ⟨a, w', hcall, _, hview⟩ := hkeeps.step hlegal
  refine ⟨a, w', hcall, ?_⟩
  intro e he
  have hstay : ∀ r, c ≠ .releaseReader r := by
    rintro r rfl
    exact hlegal
  rw [hview]
  exact hkeeps.consistent.valid.recycled_iff hstay he

theorem nodup_pair : [0, 1].Nodup := by decide

def opened : Watched Nat Nat Nat Nat := start ⟨[0, 1], id, nodup_pair, fun _ _ h => h⟩ id

/-- Two elements and two readers with tasks of their own; the first reader has read an element. -/
def twoReaders : Watched Nat Nat Nat Nat :=
  [.associateReader 0, .associateReader 1, .allocate, .push 1, .synchronize 0 1, .readerPop 0].foldl
    (fun w c => reached w (call 9 w c)) opened

private theorem run_twoReaders : Run (Calls Legal call) opened
    [(.associateReader 0, .nothing), (.associateReader 1, .nothing), (.allocate, .data (some 1)),
      (.push 1, .pushed true), (.synchronize 0 1, .nothing), (.readerPop 0, .data (some 1))]
    twoReaders := by
  have h₀ : Run (Calls Legal call) opened [] opened := .start
  have h₁ := h₀.next_call 9 (.associateReader 0) (Or.inr (by decide)) fun fuel => rfl
  have h₂ := h₁.next_call 9 (.associateReader 1) (Or.inr (by decide)) fun fuel => rfl
  have h₃ := h₂.next_call 9 (.allocate) trivial fun fuel => rfl
  have h₄ := h₃.next_call 9 (.push 1) trivial fun fuel => rfl
  have h₅ := h₄.next_call 9 (.synchronize 0 1) (by
    intro r hr
    obtain rfl : 0 = r := Option.some.inj hr
    exact ⟨by decide, fun _ _ => rfl⟩) fun fuel => rfl
  exact h₅.next_call 9 (.readerPop 0) trivial fun fuel => rfl

/-- The element of the two readers stays in the FIFO when the first of them releases it. -/
theorem run_partitioned_twoReaders :
    twoReaders.Partitioned [0, 1] ∧ PointsInto (twoReaders.fifo.reader 1) twoReaders.view.fifo ∧
      ∃ a w', Calls Legal call twoReaders (.readerRelease 0 1, a) w' ∧ 1 ∉ w'.view.unused := by
  obtain ⟨hpartitioned, hpoints, hcall⟩ := run_partitioned _ _ run_twoReaders
  obtain ⟨a, w', hstep, hunused⟩ := hcall (.readerRelease 0 1) trivial
  refine ⟨hpartitioned, hpoints 1, a, w', hstep, ?_⟩
  rw [hunused 1 (by decide)]
  rintro ⟨r, ⟨rfl, _⟩, hlast⟩
  exact absurd (hlast 1 (by decide) (by decide)) (by decide)

end Watched

end TaskingFramework
