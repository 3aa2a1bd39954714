import TaskingFramework.Fifo.Fifo
import TaskingFramework.Fifo.Partition

/-!
# A FIFO without readers is a bounded queue

An account beside the FIFO tells from the calls and their answers which elements the callers own, what
was pushed and what was popped. The answers of the FIFO are those of a bounded queue with this account.
-/

set_option linter.unusedSectionVars false

namespace TaskingFramework

open Foundation

variable {κ δ ρ τ ω : Type} [DecidableEq κ] [DecidableEq δ] [DecidableEq ρ] [DecidableEq τ]

structure Account (δ ω : Type) where
  /-- What was allocated or popped, and neither pushed nor released since then. -/
  owned : List δ
  pushed : List (δ × ω)
  popped : List (δ × ω)

namespace Account

def init : Account δ ω := ⟨[], [], []⟩

/-- The pushes that wait for a pop. -/
def waiting (A : Account δ ω) : List (δ × ω) := A.pushed.drop A.popped.length

/-- The entry for a call of the FIFO in the state `s`. -/
def note (A : Account δ ω) (s : Fifo κ δ ρ τ ω) (c : FifoOperation δ ω) (a : FifoAnswer δ) :
    Account δ ω :=
  match c, a with
  | .allocate, .data (some d) => { A with owned := d :: A.owned }
  | .release d, _ => { A with owned := A.owned.erase d }
  | .push d, .pushed true =>
      { A with owned := A.owned.erase d, pushed := A.pushed ++ [(d, s.value d)] }
  | .pushValue v, .pushed true =>
      match s.allocate.2 with
      | none => A
      | some d => { A with pushed := A.pushed ++ [(d, v)] }
  | .pop, .data (some d) => { A with owned := d :: A.owned, popped := A.popped ++ [(d, s.value d)] }
  | _, _ => A

/-- The answers of a bounded queue of size `n`. -/
def Serves (A : Account δ ω) (n : Nat) (s t : Fifo κ δ ρ τ ω) :
    FifoOperation δ ω → FifoAnswer δ → Prop
  | .allocate, .data d => d = none ↔ A.owned.length + A.waiting.length = n
  | .release d, .nothing => d ∉ A.owned → t = s
  | .push d, .pushed result => (result = true ↔ d ∈ A.owned) ∧ (result = false → t = s)
  | .pushValue _, .pushed result =>
      (result = true ↔ A.owned.length + A.waiting.length < n) ∧ (result = false → t = s)
  | .pop, .data d => d = A.waiting.head?.map Prod.fst
  | _, _ => False

end Account

/-- A FIFO and its account. -/
structure Accounted (κ δ ρ τ ω : Type) where
  fifo : Fifo κ δ ρ τ ω
  account : Account δ ω

namespace Accounted

def start (buffer : FifoBuffer κ δ) (task : ρ → τ) (value : δ → ω) : Accounted κ δ ρ τ ω where
  fifo := ⟨FifoGeneric.construct buffer.data task buffer.items, value⟩
  account := .init

def call (fuel : Nat) (w : Accounted κ δ ρ τ ω) (c : FifoOperation δ ω) :
    Outcome (Accounted κ δ ρ τ ω × FifoAnswer δ) := do
  let (s, answer) ← w.fifo.call fuel c
  return ({ fifo := s, account := w.account.note w.fifo c answer }, answer)

/-- The account balances with what the chains of the FIFO hold. -/
structure Balanced (buffer : FifoBuffer κ δ) (w : Accounted κ δ ρ τ ω) (V : FifoView κ ρ) : Prop where
  consistent : Consistent w.fifo.genericFifo V
  readers : V.readers = []
  all : V.stock.Perm buffer.items
  data : w.fifo.genericFifo.data = buffer.data
  owned : w.account.owned = V.allocated.map buffer.data
  pushed : w.account.pushed =
    w.account.popped ++ V.fifo.map fun e => (buffer.data e, w.fifo.value (buffer.data e))

variable {buffer : FifoBuffer κ δ} {task : ρ → τ} {value : δ → ω} {w w' : Accounted κ δ ρ τ ω}
  {V : FifoView κ ρ} {c : FifoOperation δ ω} {a : FifoAnswer δ} {d : δ} {v : ω} {e : κ} {m : List κ}
  {l : List (FifoOperation δ ω × FifoAnswer δ)}

private theorem balanced_start (buffer : FifoBuffer κ δ) (task : ρ → τ) (value : δ → ω) :
    Balanced buffer (start buffer task value) (FifoView.init buffer.items) where
  consistent := consistent_construct buffer.data task buffer.distinct
  readers := rfl
  all := by simp [FifoView.init, FifoView.stock]
  data := construct_data buffer.data task buffer.distinct
  owned := rfl
  pushed := rfl

private theorem Balanced.waiting (h : Balanced buffer w V) : w.account.waiting =
    V.fifo.map fun e => (buffer.data e, w.fifo.value (buffer.data e)) := by
  rw [Account.waiting, h.pushed, List.drop_left]

private theorem Balanced.length (h : Balanced buffer w V) :
    V.unused.length + (w.account.owned.length + w.account.waiting.length) = buffer.items.length := by
  have hlength := h.all.length_eq
  simp only [FifoView.stock, List.length_append] at hlength
  rw [h.waiting, h.owned, List.length_map, List.length_map]
  omega

private theorem Balanced.mem_owned (h : Balanced buffer w V) :
    d ∈ w.account.owned ↔ ∃ e ∈ V.allocated, buffer.data e = d := by
  rw [h.owned, List.mem_map]

private theorem Balanced.find_none (h : Balanced buffer w V) (hd : d ∉ w.account.owned) :
    V.allocated.find? (fun e => w.fifo.genericFifo.data e = d) = none := by
  rw [List.find?_eq_none]
  intro e he
  rw [h.data]
  have hne : buffer.data e ≠ d := fun heq => hd (h.mem_owned.mpr ⟨e, he, heq⟩)
  simpa using hne

private theorem Balanced.find_some (h : Balanced buffer w V) (hd : d ∈ w.account.owned) :
    ∃ e, V.allocated.find? (fun e => w.fifo.genericFifo.data e = d) = some e ∧
      e ∈ V.allocated ∧ buffer.data e = d := by
  obtain ⟨e, he, hdata⟩ := h.mem_owned.mp hd
  have hfound : (V.allocated.find? fun e => w.fifo.genericFifo.data e = d).isSome := by
    rw [List.find?_isSome]
    exact ⟨e, he, by rw [h.data]; simpa using hdata⟩
  obtain ⟨f, hf⟩ := Option.isSome_iff_exists.mp hfound
  obtain ⟨hfdata, _⟩ := FifoGeneric.find_data hf
  rw [h.data] at hfdata
  exact ⟨f, hf, List.mem_of_find?_eq_some hf, hfdata⟩

private theorem Balanced.allocate_nothing (h : Balanced buffer w V) (hunused : V.unused = []) :
    w.fifo.allocate = (w.fifo, none) := by
  have hnone : w.fifo.genericFifo.m_unused = none := by
    rw [h.consistent.stored.unused.head, hunused]
    rfl
  simp only [Fifo.allocate, FifoGeneric.allocate, hnone]

private theorem Balanced.allocate (h : Balanced buffer w V) (hunused : V.unused = e :: m) :
    w.fifo.allocate.2 = some (buffer.data e) ∧
      Balanced buffer ⟨w.fifo.allocate.1,
        { w.account with owned := buffer.data e :: w.account.owned }⟩ (V.allocate e) := by
  obtain ⟨hdata, ht, hsame⟩ := h.consistent.allocate hunused
  have he : e ∈ V.unused := hunused ▸ List.mem_cons_self
  have hdata' : w.fifo.genericFifo.allocate.1.data = buffer.data := hsame.data.trans h.data
  refine ⟨hdata.trans (by rw [h.data]), ?_⟩
  exact ⟨ht, h.readers, (FifoView.allocate_perm he).trans h.all, hdata',
    congrArg (buffer.data e :: ·) h.owned, h.pushed⟩

private theorem Balanced.release (h : Balanced buffer w V) (hd : d ∈ w.account.owned) :
    ∃ t V', Returns (Fifo.release · w.fifo d) t ∧
      Balanced buffer ⟨t, { w.account with owned := w.account.owned.erase d }⟩ V' := by
  obtain ⟨e, hfind, he, rfl⟩ := h.find_some hd
  obtain ⟨t, hret, ht, hsame⟩ := h.consistent.release hfind
  refine ⟨_, V.release e, hret.bind (returns_ok _), ht, h.readers,
    (FifoView.release_perm he).trans h.all, hsame.data.trans h.data, ?_, h.pushed⟩
  show w.account.owned.erase (buffer.data e) = (V.allocated.erase e).map buffer.data
  rw [List.map_erase buffer.separate, h.owned]

private theorem Balanced.release_absent (h : Balanced buffer w V) (hd : d ∉ w.account.owned) :
    Returns (Fifo.release · w.fifo d) w.fifo :=
  (FifoGeneric.release_absent h.consistent.stored (h.find_none hd) 1).bind (returns_ok _)

private theorem Balanced.push (h : Balanced buffer w V) (hd : d ∈ w.account.owned) :
    ∃ t V', Returns (Fifo.push · w.fifo d) (t, true) ∧
      Balanced buffer ⟨t, { w.account with
        owned := w.account.owned.erase d
        pushed := w.account.pushed ++ [(d, w.fifo.value d)] }⟩ V' := by
  obtain ⟨e, hfind, he, rfl⟩ := h.find_some hd
  obtain ⟨t, hret, ht, hsame⟩ := h.consistent.push hfind
  refine ⟨⟨t, w.fifo.value⟩, V.push e, hret.bind (returns_ok _), ht, h.readers,
    (FifoView.push_perm he).trans h.all, hsame.data.trans h.data, ?_, ?_⟩
  · show w.account.owned.erase (buffer.data e) = (V.allocated.erase e).map buffer.data
    rw [List.map_erase buffer.separate, h.owned]
  · show w.account.pushed ++ _ = w.account.popped ++ (V.fifo ++ [e]).map _
    rw [h.pushed, List.map_append, List.append_assoc]
    rfl

private theorem Balanced.push_absent (h : Balanced buffer w V) (hd : d ∉ w.account.owned) :
    Returns (Fifo.push · w.fifo d) (w.fifo, false) :=
  (h.consistent.push_absent (h.find_none hd)).bind (returns_ok _)

private theorem Balanced.write (h : Balanced buffer w V) (he : e ∉ V.fifo) :
    Balanced buffer ⟨{ w.fifo with value := Function.update w.fifo.value (buffer.data e) v },
      w.account⟩ V := by
  refine ⟨h.consistent, h.readers, h.all, h.data, h.owned, ?_⟩
  rw [h.pushed]
  congr 1
  apply List.map_congr_left
  intro f hf
  have hne : buffer.data f ≠ buffer.data e := fun heq => he (buffer.separate heq ▸ hf)
  show (buffer.data f, _) = (buffer.data f, Function.update w.fifo.value (buffer.data e) v _)
  rw [Function.update_of_ne hne]

private theorem Balanced.pushValue_full (h : Balanced buffer w V) (hunused : V.unused = []) :
    Returns (Fifo.pushValue · w.fifo v) (w.fifo, false) := by
  unfold Fifo.pushValue
  rw [h.allocate_nothing hunused]
  exact returns_ok _

private theorem Balanced.pushValue (h : Balanced buffer w V) (hunused : V.unused = e :: m) :
    ∃ t V', Returns (Fifo.pushValue · w.fifo v) (t, true) ∧
      Balanced buffer ⟨t, { w.account with
        pushed := w.account.pushed ++ [(buffer.data e, v)] }⟩ V' := by
  obtain ⟨htarget, hallocated⟩ := h.allocate hunused
  have he : e ∉ V.fifo := h.consistent.stored.disjoint.2.1 e (hunused ▸ List.mem_cons_self)
  have hwritten := hallocated.write (v := v) (V := V.allocate e) he
  have howned : buffer.data e ∈ buffer.data e :: w.account.owned := List.mem_cons_self
  obtain ⟨t, V', hret, ht⟩ := hwritten.push howned
  refine ⟨t, V', ?_, ?_⟩
  · unfold Fifo.pushValue
    simp only [htarget]
    exact hret
  · simpa using ht

private theorem Balanced.pop_nothing (h : Balanced buffer w V) (hfifo : V.fifo = []) :
    w.fifo.pop = (w.fifo, none) := by
  simp only [Fifo.pop, h.consistent.pop_nothing (Or.inr hfifo)]

private theorem Balanced.pop (h : Balanced buffer w V) (hfifo : V.fifo = e :: m) :
    w.fifo.pop.2 = some (buffer.data e) ∧
      Balanced buffer ⟨w.fifo.pop.1, { w.account with
        owned := buffer.data e :: w.account.owned
        popped := w.account.popped ++ [(buffer.data e, w.fifo.value (buffer.data e))] }⟩
        (V.consume e) := by
  obtain ⟨hdata, ht, hsame⟩ := h.consistent.pop h.readers hfifo
  have he : e ∈ V.fifo := hfifo ▸ List.mem_cons_self
  have hdata' : w.fifo.genericFifo.pop.1.data = buffer.data := hsame.data.trans h.data
  refine ⟨hdata.trans (by rw [h.data]), ht, h.readers, (FifoView.consume_perm he).trans h.all,
    hdata', congrArg (buffer.data e :: ·) h.owned, ?_⟩
  show w.account.pushed = (w.account.popped ++ [_]) ++ (V.fifo.erase e).map _
  rw [h.pushed, hfifo, List.erase_cons_head, List.append_assoc]
  rfl

private theorem returns_call {t : Fifo κ δ ρ τ ω} (h : Returns (Fifo.call · w.fifo c) (t, a)) :
    Calls (fun _ _ => True) call w (c, a) ⟨t, w.account.note w.fifo c a⟩ :=
  ⟨trivial, h.bind (returns_ok _)⟩

private theorem Balanced.step (h : Balanced buffer w V) (c : FifoOperation δ ω) :
    ∃ a w' V', Calls (fun _ _ => True) call w (c, a) w' ∧ Balanced buffer w' V' ∧
      w.account.Serves buffer.items.length w.fifo w'.fifo c a := by
  have hlength := h.length
  cases c with
  | allocate =>
      cases hunused : V.unused with
      | nil =>
          have hcall := h.allocate_nothing hunused
          refine ⟨.data none, _, V, returns_call (t := w.fifo) ?_, h, ?_⟩
          · simp only [Fifo.call, hcall]
            exact returns_ok _
          · rw [hunused, List.length_nil] at hlength
            exact ⟨fun _ => by omega, fun _ => rfl⟩
      | cons e m =>
          obtain ⟨hdata, ht⟩ := h.allocate hunused
          refine ⟨.data (some (buffer.data e)), _, V.allocate e, returns_call ?_, ht, ?_⟩
          · simp only [Fifo.call, hdata]
            exact returns_ok _
          · rw [hunused, List.length_cons] at hlength
            exact ⟨fun hnone => absurd hnone (Option.some_ne_none _), fun _ => by omega⟩
  | release d =>
      by_cases hd : d ∈ w.account.owned
      · obtain ⟨t, V', hret, ht⟩ := h.release hd
        exact ⟨.nothing, _, V', returns_call (hret.bind (returns_ok _)), ht,
          fun hnot => absurd hd hnot⟩
      · have hret := h.release_absent hd
        refine ⟨.nothing, _, V, returns_call (hret.bind (returns_ok _)), ?_, fun _ => rfl⟩
        show Balanced buffer ⟨w.fifo, { w.account with owned := w.account.owned.erase d }⟩ V
        rw [List.erase_of_not_mem hd]
        exact h
  | push d =>
      by_cases hd : d ∈ w.account.owned
      · obtain ⟨t, V', hret, ht⟩ := h.push hd
        exact ⟨.pushed true, _, V', returns_call (hret.bind (returns_ok _)), ht,
          ⟨fun _ => hd, fun _ => rfl⟩, fun hfalse => absurd hfalse.symm Bool.false_ne_true⟩
      · have hret := h.push_absent hd
        exact ⟨.pushed false, _, V, returns_call (hret.bind (returns_ok _)), h,
          ⟨fun htrue => absurd htrue Bool.false_ne_true, fun hmem => absurd hmem hd⟩, fun _ => rfl⟩
  | pushValue v =>
      cases hunused : V.unused with
      | nil =>
          have hret := h.pushValue_full (v := v) hunused
          rw [hunused, List.length_nil] at hlength
          exact ⟨.pushed false, _, V, returns_call (hret.bind (returns_ok _)), h,
            ⟨fun htrue => absurd htrue Bool.false_ne_true, fun hlt => absurd hlt (by omega)⟩,
            fun _ => rfl⟩
      | cons e m =>
          obtain ⟨htarget, _⟩ := h.allocate hunused
          obtain ⟨t, V', hret, ht⟩ := h.pushValue (v := v) hunused
          rw [hunused, List.length_cons] at hlength
          refine ⟨.pushed true, _, V', returns_call (hret.bind (returns_ok _)), ?_,
            ⟨fun _ => by omega, fun _ => rfl⟩, fun hfalse => absurd hfalse.symm Bool.false_ne_true⟩
          simp only [Account.note, htarget]
          exact ht
  | pop =>
      cases hfifo : V.fifo with
      | nil =>
          have hcall := h.pop_nothing hfifo
          refine ⟨.data none, _, V, returns_call (t := w.fifo) ?_, h, ?_⟩
          · simp only [Fifo.call, hcall]
            exact returns_ok _
          · show none = w.account.waiting.head?.map Prod.fst
            rw [h.waiting, hfifo]
            rfl
      | cons e m =>
          obtain ⟨hdata, ht⟩ := h.pop hfifo
          refine ⟨.data (some (buffer.data e)), _, V.consume e, returns_call ?_, ht, ?_⟩
          · simp only [Fifo.call, hdata]
            exact returns_ok _
          · show some (buffer.data e) = w.account.waiting.head?.map Prod.fst
            rw [h.waiting, hfifo]
            rfl

/-- In every run of calls the chains of the FIFO hold all elements, the pops are the first pushes in
the order of the pushes, and every further call is answered as by a bounded queue. -/
theorem run_boundedQueue (buffer : FifoBuffer κ δ) (task : ρ → τ) (value : δ → ω)
    (h : Run (Calls (fun _ _ => True) call) (start buffer task value) l w) :
    (∃ unused allocated fifo, w.fifo.genericFifo.Stored unused allocated fifo ∧
      (unused ++ allocated ++ fifo).Perm buffer.items) ∧
    w.account.popped <+: w.account.pushed ∧
    ∀ c, ∃ a w', Calls (fun _ _ => True) call w (c, a) w' ∧
      w.account.Serves buffer.items.length w.fifo w'.fifo c a := by
  have hbalanced : ∃ V, Balanced buffer w V := by
    apply run_calls_invariant (I := fun w => ∃ V, Balanced buffer w V) _ _ h
    · intro w c hw _
      obtain ⟨V, hV⟩ := hw
      obtain ⟨a, w', V', hcall, hV', _⟩ := hV.step c
      exact ⟨a, w', hcall, V', hV'⟩
    · exact ⟨_, balanced_start buffer task value⟩
  obtain ⟨V, hV⟩ := hbalanced
  refine ⟨⟨V.unused, V.allocated, V.fifo, hV.consistent.stored, hV.all⟩, ?_, ?_⟩
  · rw [hV.pushed]
    exact List.prefix_append _ _
  · intro c
    obtain ⟨a, w', V', hcall, _, hserves⟩ := hV.step c
    exact ⟨a, w', hcall, hserves⟩

def twoElements : Accounted Nat Nat Nat Nat Nat :=
  start ⟨[0, 1], id, Watched.nodup_pair, fun _ _ h => h⟩ id fun _ => 0

/-- A second push of the same element fails; the pops give the element and then the value. -/
theorem run_boundedQueue_twoElements : ∃ w, Run (Calls (fun _ _ => True) call) twoElements
    [(.allocate, .data (some 1)), (.push 1, .pushed true), (.push 1, .pushed false),
      (.pushValue 5, .pushed true), (.pushValue 6, .pushed false), (.pop, .data (some 1))] w ∧
    w.account.waiting = [(0, 5)] ∧ w.account.popped <+: w.account.pushed ∧
    ∃ w', Calls (fun _ _ => True) call w (.pop, .data (some 0)) w' := by
  have h₀ : Run (Calls (fun _ _ => True) call) twoElements [] twoElements := .start
  have h₁ := h₀.next_call 9 .allocate trivial fun fuel => rfl
  have h₂ := h₁.next_call 9 (.push 1) trivial fun fuel => rfl
  have h₃ := h₂.next_call 9 (.push 1) trivial fun fuel => rfl
  have h₄ := h₃.next_call 9 (.pushValue 5) trivial fun fuel => rfl
  have h₅ := h₄.next_call 9 (.pushValue 6) trivial fun fuel => rfl
  have hrun := h₅.next_call 9 .pop trivial fun fuel => rfl
  obtain ⟨_, hprefix, hcalls⟩ := run_boundedQueue _ _ _ hrun
  obtain ⟨a, w', hcall, hserves⟩ := hcalls .pop
  refine ⟨_, hrun, rfl, hprefix, w', ?_⟩
  cases a with
  | data d =>
      obtain rfl : d = some 0 := hserves
      exact hcall
  | nothing => exact absurd hserves not_false
  | pushed result => exact absurd hserves not_false

end Accounted

end TaskingFramework
