import TaskingFramework.Fifo.FifoGeneric
import Mathlib.Logic.Function.Basic
import Mathlib.Data.List.Nodup
import Mathlib.Data.List.Perm.Basic

/-!
# What a FIFO with readers is for

The elements of a FIFO are unused, allocated or pushed. Each reader has its own view of the pushed
elements: those that it holds, that is has popped and not released yet, the window of those that it may
pop, and those behind its window. A pushed element is recycled when no reader awaits it any more.
-/

set_option linter.unusedSectionVars false

namespace TaskingFramework

structure FifoView (κ ρ : Type) where
  unused : List κ
  allocated : List κ
  fifo : List κ
  readers : List ρ
  window : ρ → List κ
  behind : ρ → List κ
  held : ρ → List κ

namespace FifoView

variable {κ δ ρ τ : Type} [DecidableEq κ] [DecidableEq δ] [DecidableEq ρ] [DecidableEq τ]
  {V : FifoView κ ρ} {e f : κ} {r r' : ρ} {n : Nat}

/-- All elements of the FIFO. -/
def stock (V : FifoView κ ρ) : List κ := V.unused ++ V.allocated ++ V.fifo

def unread (V : FifoView κ ρ) (r : ρ) : List κ := V.window r ++ V.behind r

/-- The reader has not released the element yet. -/
def Awaits (V : FifoView κ ρ) (e : κ) (r : ρ) : Prop := e ∈ V.held r ∨ e ∈ V.unread r

instance : Decidable (V.Awaits e r) := inferInstanceAs (Decidable (_ ∨ _))

def allocate (V : FifoView κ ρ) (e : κ) : FifoView κ ρ :=
  { V with unused := V.unused.erase e, allocated := e :: V.allocated }

def release (V : FifoView κ ρ) (e : κ) : FifoView κ ρ :=
  { V with allocated := V.allocated.erase e, unused := e :: V.unused }

/-- An element is taken out of a FIFO without readers. -/
def consume (V : FifoView κ ρ) (e : κ) : FifoView κ ρ :=
  { V with fifo := V.fifo.erase e, allocated := e :: V.allocated }

def push (V : FifoView κ ρ) (e : κ) : FifoView κ ρ :=
  { V with
    allocated := V.allocated.erase e
    fifo := V.fifo ++ [e]
    behind := fun r => if r ∈ V.readers then V.behind r ++ [e] else V.behind r }

def associate (V : FifoView κ ρ) (r : ρ) : FifoView κ ρ :=
  { V with readers := r :: V.readers, behind := Function.update V.behind r V.fifo }

def synchronize (V : FifoView κ ρ) (r : ρ) (n : Nat) : FifoView κ ρ :=
  { V with
    window := Function.update V.window r (V.window r ++ (V.behind r).take n)
    behind := Function.update V.behind r ((V.behind r).drop n) }

/-- The reader pops the first element of its window. -/
def pop (V : FifoView κ ρ) (r : ρ) (e : κ) : FifoView κ ρ :=
  { V with
    window := Function.update V.window r (V.window r).tail
    held := Function.update V.held r (e :: V.held r) }

/-- The reader does not await the element any more. -/
def forget (V : FifoView κ ρ) (r : ρ) (e : κ) : FifoView κ ρ :=
  { V with
    held := Function.update V.held r ((V.held r).erase e)
    window := Function.update V.window r ((V.window r).erase e)
    behind := Function.update V.behind r ((V.behind r).erase e) }

def recycle (V : FifoView κ ρ) (e : κ) : FifoView κ ρ :=
  { V with fifo := V.fifo.erase e, unused := e :: V.unused }

def releaseElement (V : FifoView κ ρ) (r : ρ) (e : κ) : FifoView κ ρ :=
  if ∃ r' ∈ V.readers, (V.forget r e).Awaits e r' then V.forget r e
  else (V.forget r e).recycle e

def releaseAll (V : FifoView κ ρ) (r : ρ) (l : List κ) : FifoView κ ρ :=
  l.foldl (fun V e => V.releaseElement r e) V

/-- The reader leaves, and everything that only this reader awaits is recycled. -/
def leave (V : FifoView κ ρ) (r : ρ) : FifoView κ ρ :=
  let W := V.releaseAll r (V.held r ++ V.unread r)
  { W with readers := W.readers.erase r }

def call (data : κ → δ) (task : ρ → τ) (V : FifoView κ ρ) :
    FifoCall δ ρ τ → FifoView κ ρ × FifoAnswer δ
  | .allocate =>
      match V.unused with
      | [] => (V, .data none)
      | e :: _ => (V.allocate e, .data (some (data e)))
  | .release d =>
      match V.allocated.find? fun e => data e = d with
      | none => (V, .nothing)
      | some e => (V.release e, .nothing)
  | .push d =>
      match V.allocated.find? fun e => data e = d with
      | none => (V, .pushed false)
      | some e => (V.push e, .pushed true)
  | .pop =>
      match V.readers, V.fifo with
      | [], e :: _ => (V.consume e, .data (some (data e)))
      | _, _ => (V, .data none)
  | .associateReader r => (if r ∈ V.readers then V else V.associate r, .nothing)
  | .releaseReader r => (V.leave r, .nothing)
  | .synchronize t volume =>
      match V.readers.find? fun r => task r = t with
      | none => (V, .nothing)
      | some r => (V.synchronize r volume, .nothing)
  | .readerPop r =>
      match V.window r with
      | [] => (V, .data none)
      | e :: _ =>
          if (V.held r).length < maximumFifoReaderLinks then (V.pop r e, .data (some (data e)))
          else (V, .data none)
  | .readerRelease r d =>
      match (V.held r).find? fun e => data e = d with
      | none => (V, .nothing)
      | some e => (V.releaseElement r e, .nothing)
  | .readerReleaseAll r => (V.releaseAll r (V.held r), .nothing)

/-- What holds of the views of all readers: the unread elements stand at the end of the FIFO, the held
ones in front of them. -/
structure Valid (V : FifoView κ ρ) : Prop where
  distinct : V.stock.Nodup
  readers : V.readers.Nodup
  split : ∀ r ∈ V.readers, ∃ x, V.fifo = x ++ V.unread r ∧ ∀ e ∈ V.held r, e ∈ x
  once : ∀ r, (V.held r).Nodup
  idle : ∀ r ∉ V.readers, V.window r = [] ∧ V.behind r = [] ∧ V.held r = []

theorem Valid.fifo_nodup (h : V.Valid) : V.fifo.Nodup := (List.nodup_append.mp h.distinct).2.1

private theorem Valid.unread_sublist (h : V.Valid) (hr : r ∈ V.readers) :
    (V.unread r).Sublist V.fifo := by
  obtain ⟨x, hx, _⟩ := h.split r hr
  rw [hx]
  exact List.sublist_append_right x _

theorem Valid.unread_nodup (h : V.Valid) (hr : r ∈ V.readers) : (V.unread r).Nodup :=
  h.fifo_nodup.sublist (h.unread_sublist hr)

theorem Valid.awaits_mem (h : V.Valid) (hr : r ∈ V.readers) (he : V.Awaits e r) : e ∈ V.fifo := by
  obtain ⟨x, hx, hheld⟩ := h.split r hr
  rw [hx]
  rcases he with he | he
  · exact List.mem_append_left _ (hheld e he)
  · exact List.mem_append_right x he

theorem Valid.held_notMem (h : V.Valid) (hr : r ∈ V.readers) (he : e ∈ V.held r) :
    e ∉ V.unread r := by
  obtain ⟨x, hx, hheld⟩ := h.split r hr
  intro hu
  have hnd := h.fifo_nodup
  rw [hx] at hnd
  exact (List.nodup_append.mp hnd).2.2 e (hheld e he) e hu rfl

theorem Valid.of_perm (h : V.Valid) (W : FifoView κ ρ)
    (hperm : W.stock.Perm V.stock)
    (hreaders : W.readers.Nodup)
    (hsplit : ∀ r ∈ W.readers, ∃ x, W.fifo = x ++ W.unread r ∧ ∀ e ∈ W.held r, e ∈ x)
    (honce : ∀ r, (W.held r).Nodup)
    (hidle : ∀ r ∉ W.readers, W.window r = [] ∧ W.behind r = [] ∧ W.held r = []) : W.Valid :=
  ⟨hperm.nodup_iff.mpr h.distinct, hreaders, hsplit, honce, hidle⟩

theorem allocate_perm (he : e ∈ V.unused) : (V.allocate e).stock.Perm V.stock := by
  apply List.Perm.append_right
  have hmid : (V.unused.erase e ++ e :: V.allocated).Perm
      (e :: (V.unused.erase e ++ V.allocated)) := List.perm_middle
  exact hmid.trans ((List.perm_cons_erase he).symm.append_right V.allocated)

theorem release_perm (he : e ∈ V.allocated) : (V.release e).stock.Perm V.stock := by
  apply List.Perm.append_right
  have hmid : (V.unused ++ e :: V.allocated.erase e).Perm
      (e :: (V.unused ++ V.allocated.erase e)) := List.perm_middle
  exact hmid.symm.trans ((List.perm_cons_erase he).symm.append_left V.unused)

theorem push_perm (he : e ∈ V.allocated) : (V.push e).stock.Perm V.stock := by
  have hall : (V.allocated.erase e ++ (V.fifo ++ [e])).Perm (V.allocated ++ V.fifo) := by
    have hend : (V.allocated.erase e ++ (V.fifo ++ [e])).Perm
        (e :: (V.allocated.erase e ++ V.fifo)) := by
      rw [← List.append_assoc]
      exact List.perm_append_singleton e _
    exact hend.trans ((List.perm_cons_erase he).symm.append_right V.fifo)
  show (V.unused ++ V.allocated.erase e ++ (V.fifo ++ [e])).Perm (V.unused ++ V.allocated ++ V.fifo)
  rw [List.append_assoc, List.append_assoc]
  exact hall.append_left V.unused

theorem recycle_perm (he : e ∈ V.fifo) : (V.recycle e).stock.Perm V.stock := by
  have hmid : (V.unused ++ V.allocated ++ e :: V.fifo.erase e).Perm
      (e :: (V.unused ++ V.allocated ++ V.fifo.erase e)) := List.perm_middle
  exact hmid.symm.trans ((List.perm_cons_erase he).symm.append_left _)

theorem consume_perm (he : e ∈ V.fifo) : (V.consume e).stock.Perm V.stock := by
  show (V.unused ++ e :: V.allocated ++ V.fifo.erase e).Perm (V.unused ++ V.allocated ++ V.fifo)
  have hmid : (V.unused ++ e :: V.allocated).Perm (e :: (V.unused ++ V.allocated)) :=
    List.perm_middle
  have hfront : (V.unused ++ e :: V.allocated ++ V.fifo.erase e).Perm
      (V.unused ++ V.allocated ++ e :: V.fifo.erase e) :=
    (hmid.append_right _).trans List.perm_middle.symm
  exact hfront.trans ((List.perm_cons_erase he).symm.append_left _)

theorem Valid.allocate (h : V.Valid) (he : e ∈ V.unused) : (V.allocate e).Valid :=
  h.of_perm (V.allocate e) (allocate_perm he) h.readers h.split h.once h.idle

theorem Valid.release (h : V.Valid) (he : e ∈ V.allocated) : (V.release e).Valid :=
  h.of_perm (V.release e) (release_perm he) h.readers h.split h.once h.idle

theorem Valid.consume (h : V.Valid) (he : e ∈ V.fifo) (hr : V.readers = []) :
    (V.consume e).Valid := by
  apply h.of_perm (V.consume e) (consume_perm he) h.readers _ h.once h.idle
  intro r hmem
  have hmem' : r ∈ V.readers := hmem
  simp [hr] at hmem'

theorem push_unread (hr : r ∈ V.readers) : (V.push e).unread r = V.unread r ++ [e] := by
  simp [unread, push, hr]

theorem Valid.push (h : V.Valid) (he : e ∈ V.allocated) : (V.push e).Valid := by
  apply h.of_perm (V.push e) (push_perm he) h.readers _ h.once
  · intro r hr
    obtain ⟨hwindow, hbehind, hheld⟩ := h.idle r hr
    have hr' : r ∉ V.readers := hr
    refine ⟨hwindow, ?_, hheld⟩
    simpa [FifoView.push, hr'] using hbehind
  · intro r hr
    obtain ⟨x, hx, hheld⟩ := h.split r hr
    refine ⟨x, ?_, hheld⟩
    have hr' : r ∈ V.readers := hr
    rw [push_unread hr', ← List.append_assoc, ← hx]
    rfl

theorem Valid.associate (h : V.Valid) (hr : r ∉ V.readers) : (V.associate r).Valid := by
  apply h.of_perm (V.associate r) (List.Perm.refl _) (List.nodup_cons.mpr ⟨hr, h.readers⟩) _ h.once
  · intro a ha
    have har : a ≠ r ∧ a ∉ V.readers := by simpa [FifoView.associate] using ha
    obtain ⟨hwindow, hbehind, hheld⟩ := h.idle a har.2
    refine ⟨hwindow, ?_, hheld⟩
    show Function.update V.behind r V.fifo a = []
    rw [Function.update_of_ne har.1]
    exact hbehind
  · intro a ha
    by_cases har : a = r
    · subst a
      obtain ⟨hwindow, _, hheld⟩ := h.idle r hr
      refine ⟨[], ?_, ?_⟩
      · simp [unread, FifoView.associate, hwindow]
      · intro e he
        rw [show (V.associate r).held r = [] from hheld] at he
        exact absurd he List.not_mem_nil
    · have ha' : a ∈ V.readers := (List.mem_cons.mp ha).resolve_left har
      obtain ⟨x, hx, hheld⟩ := h.split a ha'
      refine ⟨x, ?_, hheld⟩
      simpa [unread, FifoView.associate, Function.update_of_ne har] using hx

theorem synchronize_unread : (V.synchronize r n).unread r' = V.unread r' := by
  by_cases hr : r' = r
  · subst r'
    simp [unread, synchronize]
  · simp [unread, synchronize, Function.update_of_ne hr]

theorem Valid.synchronize (h : V.Valid) (hr : r ∈ V.readers) : (V.synchronize r n).Valid := by
  apply h.of_perm (V.synchronize r n) (List.Perm.refl _) h.readers _ h.once
  · intro a ha
    have har : a ≠ r := fun heq => ha (heq ▸ hr)
    simp only [FifoView.synchronize, Function.update_of_ne har]
    exact h.idle a ha
  · intro a ha
    rw [synchronize_unread]
    exact h.split a ha

theorem synchronize_zero : V.synchronize r 0 = V := by
  simp [synchronize]

theorem pop_unread_self {w : List κ} (hw : V.window r = e :: w) :
    V.unread r = e :: (V.pop r e).unread r := by
  simp [unread, pop, hw]

theorem Valid.pop (h : V.Valid) (hr : r ∈ V.readers) {w : List κ} (hw : V.window r = e :: w) :
    (V.pop r e).Valid := by
  have hunread := pop_unread_self hw
  apply h.of_perm (V.pop r e) (List.Perm.refl _) h.readers
  · intro a ha
    by_cases har : a = r
    · subst a
      obtain ⟨x, hx, hheld⟩ := h.split r hr
      refine ⟨x ++ [e], ?_, ?_⟩
      · rw [List.append_assoc, List.singleton_append, ← hunread]
        exact hx
      · intro f hf
        have hf' : f = e ∨ f ∈ V.held r := by simpa [FifoView.pop] using hf
        rcases hf' with rfl | hf
        · simp
        · exact List.mem_append_left _ (hheld f hf)
    · simp only [unread, FifoView.pop, Function.update_of_ne har]
      exact h.split a ha
  · intro a
    by_cases har : a = r
    · subst a
      have he : e ∉ V.held r := by
        intro he
        apply h.held_notMem hr he
        rw [hunread]
        exact List.mem_cons_self
      simpa [FifoView.pop] using ⟨he, h.once r⟩
    · simp only [FifoView.pop, Function.update_of_ne har]
      exact h.once a
  · intro a ha
    have har : a ≠ r := fun heq => ha (heq ▸ hr)
    simp only [FifoView.pop, Function.update_of_ne har]
    exact h.idle a ha

theorem pop_awaits {w : List κ} (hw : V.window r = e :: w) :
    (V.pop r e).Awaits f r' ↔ V.Awaits f r' := by
  by_cases hr : r' = r
  · subst r'
    have hheld : f ∈ (V.pop r e).held r ↔ f = e ∨ f ∈ V.held r := by simp [FifoView.pop]
    rw [Awaits, Awaits, hheld, pop_unread_self hw, List.mem_cons]
    tauto
  · simp only [Awaits, unread, FifoView.pop, Function.update_of_ne hr]

theorem forget_unread_self (hnd : (V.unread r).Nodup) :
    (V.forget r e).unread r = (V.unread r).erase e := by
  simp only [unread, forget, Function.update_self]
  by_cases he : e ∈ V.window r
  · have hb : e ∉ V.behind r := fun hb => (List.nodup_append.mp hnd).2.2 e he e hb rfl
    rw [List.erase_append_left _ he, List.erase_of_not_mem hb]
  · rw [List.erase_append_right _ he, List.erase_of_not_mem he]

private theorem forget_unread_of_ne (hr : r' ≠ r) : (V.forget r e).unread r' = V.unread r' := by
  simp [unread, forget, Function.update_of_ne hr]

theorem Valid.forget_awaits (h : V.Valid) (hr : r ∈ V.readers) :
    (V.forget r e).Awaits f r' ↔ V.Awaits f r' ∧ ¬ (f = e ∧ r' = r) := by
  by_cases hrr : r' = r
  · subst r'
    have hheld : f ∈ (V.forget r e).held r ↔ f ∈ V.held r ∧ f ≠ e := by
      simp only [forget, Function.update_self]
      rw [(h.once r).mem_erase_iff]
      tauto
    have hunread : f ∈ (V.forget r e).unread r ↔ f ∈ V.unread r ∧ f ≠ e := by
      rw [forget_unread_self (h.unread_nodup hr), (h.unread_nodup hr).mem_erase_iff]
      tauto
    rw [Awaits, Awaits, hheld, hunread]
    tauto
  · have hheld : (V.forget r e).held r' = V.held r' := by
      simp [forget, Function.update_of_ne hrr]
    rw [Awaits, Awaits, hheld, forget_unread_of_ne hrr]
    tauto

private theorem Valid.forget (h : V.Valid) (hr : r ∈ V.readers)
    (he : e ∉ V.unread r ∨ ∃ u, V.unread r = e :: u) : (V.forget r e).Valid := by
  apply h.of_perm (V.forget r e) (List.Perm.refl _) h.readers
  · intro a ha
    by_cases har : a = r
    · subst a
      obtain ⟨x, hx, hheld⟩ := h.split r hr
      have hheld' : ∀ f ∈ (V.forget r e).held r, f ∈ x := by
        intro f hf
        have hf' : f ∈ (V.held r).erase e := by simpa [FifoView.forget] using hf
        exact hheld f (List.mem_of_mem_erase hf')
      rw [forget_unread_self (h.unread_nodup hr)]
      rcases he with he | ⟨u, hu⟩
      · rw [List.erase_of_not_mem he]
        exact ⟨x, hx, hheld'⟩
      · refine ⟨x ++ [e], ?_, fun f hf => List.mem_append_left _ (hheld' f hf)⟩
        rw [hu, List.erase_cons_head, List.append_assoc, List.singleton_append, ← hu]
        exact hx
    · rw [forget_unread_of_ne har]
      simp only [FifoView.forget, Function.update_of_ne har]
      exact h.split a ha
  · intro a
    by_cases har : a = r
    · subst a
      simpa [FifoView.forget] using (h.once r).erase e
    · simp only [FifoView.forget, Function.update_of_ne har]
      exact h.once a
  · intro a ha
    have har : a ≠ r := fun heq => ha (heq ▸ hr)
    simp only [FifoView.forget, Function.update_of_ne har]
    exact h.idle a ha

private theorem Valid.recycle (h : V.Valid) (he : e ∈ V.fifo)
    (hnone : ∀ r ∈ V.readers, ¬ V.Awaits e r) :
    (V.recycle e).Valid := by
  apply h.of_perm (V.recycle e) (recycle_perm he) h.readers _ h.once h.idle
  intro r hr
  obtain ⟨x, hx, hheld⟩ := h.split r hr
  have hu : e ∉ V.unread r := fun hu => hnone r hr (Or.inr hu)
  have hex : e ∈ x := by
    rw [hx] at he
    exact (List.mem_append.mp he).resolve_right hu
  refine ⟨x.erase e, ?_, ?_⟩
  · show V.fifo.erase e = x.erase e ++ V.unread r
    rw [hx, List.erase_append_left _ hex]
  · intro f hf
    have hfe : f ≠ e := fun heq => hnone r hr (Or.inl (heq ▸ hf))
    exact (List.mem_erase_of_ne hfe).mpr (hheld f hf)

theorem Valid.releaseElement (h : V.Valid) (hr : r ∈ V.readers) (hfifo : e ∈ V.fifo)
    (he : e ∉ V.unread r ∨ ∃ u, V.unread r = e :: u) : (V.releaseElement r e).Valid := by
  have hforget := h.forget hr he
  unfold FifoView.releaseElement
  split
  · exact hforget
  · rename_i hnone
    apply hforget.recycle hfifo
    intro r' hr' hawaits
    exact hnone ⟨r', hr', hawaits⟩

/-- With readers, every element of the FIFO is awaited by some of them. -/
def Awaited (V : FifoView κ ρ) : Prop :=
  V.readers ≠ [] → ∀ e ∈ V.fifo, ∃ r ∈ V.readers, V.Awaits e r

theorem push_awaits (hr : r ∈ V.readers) :
    (V.push e).Awaits f r ↔ V.Awaits f r ∨ f = e := by
  rw [Awaits, Awaits, push_unread hr, List.mem_append, List.mem_singleton, or_assoc]
  rfl

theorem Awaited.push (h : V.Awaited) : (V.push e).Awaited := by
  intro hne f hf
  obtain ⟨r, hr⟩ := List.exists_mem_of_ne_nil V.readers hne
  rcases List.mem_append.mp hf with hf | hf
  · obtain ⟨a, ha, hawaits⟩ := h hne f hf
    exact ⟨a, ha, (push_awaits ha).mpr (Or.inl hawaits)⟩
  · exact ⟨r, hr, (push_awaits hr).mpr (Or.inr (List.mem_singleton.mp hf))⟩

theorem associate_awaits (h : V.Valid) (hr : r ∉ V.readers) :
    (V.associate r).Awaits f r' ↔ if r' = r then f ∈ V.fifo else V.Awaits f r' := by
  by_cases hrr : r' = r
  · subst r'
    obtain ⟨hwindow, _, hheld⟩ := h.idle r hr
    simp [Awaits, unread, FifoView.associate, hwindow, hheld]
  · simp [Awaits, unread, FifoView.associate, hrr]

theorem Awaited.associate (h : V.Valid) (hr : r ∉ V.readers) : (V.associate r).Awaited := by
  intro _ f hf
  refine ⟨r, List.mem_cons_self, ?_⟩
  rw [associate_awaits h hr, if_pos rfl]
  exact hf

theorem synchronize_awaits : (V.synchronize r n).Awaits f r' ↔ V.Awaits f r' := by
  rw [Awaits, Awaits, synchronize_unread]
  rfl

theorem Awaited.synchronize (h : V.Awaited) : (V.synchronize r n).Awaited := by
  intro hne f hf
  obtain ⟨a, ha, hawaits⟩ := h hne f hf
  exact ⟨a, ha, synchronize_awaits.mpr hawaits⟩

theorem Awaited.pop (h : V.Awaited) {w : List κ} (hw : V.window r = e :: w) :
    (V.pop r e).Awaited := by
  intro hne f hf
  obtain ⟨a, ha, hawaits⟩ := h hne f hf
  exact ⟨a, ha, (pop_awaits hw).mpr hawaits⟩

end FifoView

end TaskingFramework
