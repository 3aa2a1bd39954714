import TaskingFramework.Fifo.View

/-!
# The last reader recycles an element

A reader releases elements one by one. An element stays in the FIFO as long as another reader awaits
it. A reader that leaves releases everything that it still awaits.
-/

set_option linter.unusedSectionVars false

namespace TaskingFramework

namespace FifoView

variable {κ δ ρ τ : Type} [DecidableEq κ] [DecidableEq δ] [DecidableEq ρ] [DecidableEq τ]
  {V : FifoView κ ρ} {e f : κ} {r r' : ρ} {l m : List κ} {data : κ → δ} {task : ρ → τ}
  {c : FifoCall δ ρ τ}

/-- Another reader than `r` awaits the element. -/
def Shared (V : FifoView κ ρ) (r : ρ) (e : κ) : Prop := ∃ a ∈ V.readers, a ≠ r ∧ V.Awaits e a

instance : Decidable (V.Shared r e) := inferInstanceAs (Decidable (∃ a ∈ V.readers, _))

private theorem Valid.shared_iff (h : V.Valid) (hr : r ∈ V.readers) :
    (∃ a ∈ V.readers, (V.forget r e).Awaits e a) ↔ V.Shared r e := by
  constructor
  · rintro ⟨a, ha, hawaits⟩
    obtain ⟨hawaits, hne⟩ := (h.forget_awaits hr).mp hawaits
    exact ⟨a, ha, fun heq => hne ⟨rfl, heq⟩, hawaits⟩
  · rintro ⟨a, ha, hne, hawaits⟩
    exact ⟨a, ha, (h.forget_awaits hr).mpr ⟨hawaits, fun heq => hne heq.2⟩⟩

theorem Valid.releaseElement_of_shared (h : V.Valid) (hr : r ∈ V.readers) (hs : V.Shared r e) :
    V.releaseElement r e = V.forget r e := by
  have hmem := (h.shared_iff hr).mpr hs
  exact if_pos hmem

theorem Valid.releaseElement_of_last (h : V.Valid) (hr : r ∈ V.readers) (hs : ¬ V.Shared r e) :
    V.releaseElement r e = (V.forget r e).recycle e := by
  have hmem := mt (h.shared_iff hr).mp hs
  exact if_neg hmem

theorem releaseElement_readers : (V.releaseElement r e).readers = V.readers := by
  unfold releaseElement
  split <;> rfl

theorem mem_releaseElement_readers : r' ∈ (V.releaseElement r e).readers ↔ r' ∈ V.readers := by
  rw [releaseElement_readers]

theorem releaseElement_allocated : (V.releaseElement r e).allocated = V.allocated := by
  unfold releaseElement
  split <;> rfl

theorem releaseElement_window :
    (V.releaseElement r e).window = Function.update V.window r ((V.window r).erase e) := by
  unfold releaseElement
  split <;> rfl

private theorem releaseElement_behind :
    (V.releaseElement r e).behind = Function.update V.behind r ((V.behind r).erase e) := by
  unfold releaseElement
  split <;> rfl

theorem releaseElement_held :
    (V.releaseElement r e).held = Function.update V.held r ((V.held r).erase e) := by
  unfold releaseElement
  split <;> rfl

private theorem releaseElement_awaits_eq :
    (V.releaseElement r e).Awaits f r' ↔ (V.forget r e).Awaits f r' := by
  unfold releaseElement
  split <;> exact Iff.rfl

theorem Valid.releaseElement_awaits (h : V.Valid) (hr : r ∈ V.readers) :
    (V.releaseElement r e).Awaits f r' ↔ V.Awaits f r' ∧ ¬ (f = e ∧ r' = r) := by
  rw [releaseElement_awaits_eq]
  exact h.forget_awaits hr

private theorem Valid.releaseElement_unread (h : V.Valid) (hr : r ∈ V.readers) :
    (V.releaseElement r e).unread r = (V.unread r).erase e := by
  rw [← forget_unread_self (h.unread_nodup hr)]
  unfold FifoView.releaseElement
  split <;> rfl

private theorem Valid.releaseElement_shared (h : V.Valid) (hr : r ∈ V.readers) :
    (V.releaseElement r e).Shared r f ↔ V.Shared r f := by
  rw [Shared, Shared, releaseElement_readers]
  constructor
  · rintro ⟨a, ha, hne, hawaits⟩
    exact ⟨a, ha, hne, ((h.releaseElement_awaits hr).mp hawaits).1⟩
  · rintro ⟨a, ha, hne, hawaits⟩
    exact ⟨a, ha, hne, (h.releaseElement_awaits hr).mpr ⟨hawaits, fun heq => hne heq.2⟩⟩

theorem Valid.releaseElement_fifo (h : V.Valid) (hr : r ∈ V.readers) :
    (V.releaseElement r e).fifo = V.fifo.filter fun f => f ≠ e ∨ V.Shared r e := by
  by_cases hs : V.Shared r e
  · rw [h.releaseElement_of_shared hr hs]
    show V.fifo = _
    symm
    rw [List.filter_eq_self]
    intro f _
    simpa using Or.inr hs
  · rw [h.releaseElement_of_last hr hs]
    show V.fifo.erase e = _
    rw [h.fifo_nodup.erase_eq_filter]
    apply List.filter_congr
    intro f _
    rw [Bool.eq_iff_iff]
    simp [hs]

private theorem Valid.releaseElement_unused (h : V.Valid) (hr : r ∈ V.readers) :
    f ∈ (V.releaseElement r e).unused ↔ f ∈ V.unused ∨ f = e ∧ ¬ V.Shared r e := by
  by_cases hs : V.Shared r e
  · rw [h.releaseElement_of_shared hr hs]
    have hunused : (V.forget r e).unused = V.unused := rfl
    rw [hunused]
    tauto
  · rw [h.releaseElement_of_last hr hs]
    have hunused : ((V.forget r e).recycle e).unused = e :: V.unused := rfl
    rw [hunused, List.mem_cons]
    tauto

private theorem Valid.releaseElement_of_not_awaits (h : V.Valid) (ha : V.Awaited) (hr : r ∈ V.readers)
    (he : e ∈ V.fifo) (hnot : ¬ V.Awaits e r) : V.releaseElement r e = V := by
  have hheld : e ∉ V.held r := fun hmem => hnot (Or.inl hmem)
  have hunread : e ∉ V.unread r := fun hmem => hnot (Or.inr hmem)
  have hwindow : e ∉ V.window r := fun hmem => hunread (List.mem_append_left _ hmem)
  have hbehind : e ∉ V.behind r := fun hmem => hunread (List.mem_append_right _ hmem)
  obtain ⟨a, hmem, hawaits⟩ := ha (List.ne_nil_of_mem hr) e he
  have hs : V.Shared r e := ⟨a, hmem, fun heq => hnot (heq ▸ hawaits), hawaits⟩
  rw [h.releaseElement_of_shared hr hs]
  simp [FifoView.forget, List.erase_of_not_mem, hheld, hwindow, hbehind]

theorem Valid.releaseElement_awaited (h : V.Valid) (ha : V.Awaited) (hr : r ∈ V.readers) :
    (V.releaseElement r e).Awaited := by
  intro hne f hf
  rw [releaseElement_readers] at hne ⊢
  rw [h.releaseElement_fifo hr, List.mem_filter, decide_eq_true_iff] at hf
  obtain ⟨hf, hcase⟩ := hf
  rcases hcase with hfe | ⟨a, hmem, hne', hawaits⟩
  · obtain ⟨a, hmem, hawaits⟩ := ha hne f hf
    exact ⟨a, hmem, (h.releaseElement_awaits hr).mpr ⟨hawaits, fun heq => hfe heq.1⟩⟩
  · by_cases hfe : f = e
    · subst hfe
      exact ⟨a, hmem, (h.releaseElement_awaits hr).mpr ⟨hawaits, fun heq => hne' heq.2⟩⟩
    · obtain ⟨b, hb, hawaits⟩ := ha hne f hf
      exact ⟨b, hb, (h.releaseElement_awaits hr).mpr ⟨hawaits, fun heq => hfe heq.1⟩⟩

private theorem Valid.releaseElement_perm (h : V.Valid) (hr : r ∈ V.readers) (he : e ∈ V.fifo) :
    (V.releaseElement r e).stock.Perm V.stock := by
  by_cases hs : V.Shared r e
  · rw [h.releaseElement_of_shared hr hs]
    exact List.Perm.refl _
  · rw [h.releaseElement_of_last hr hs]
    have he' : e ∈ (V.forget r e).fifo := he
    exact recycle_perm he'

/-- The elements that the reader releases one after the other: it reads them in order. -/
def InOrder (V : FifoView κ ρ) (r : ρ) : List κ → Prop
  | [] => True
  | e :: l => e ∈ V.fifo ∧ (e ∉ V.unread r ∨ ∃ u, V.unread r = e :: u) ∧
      (V.releaseElement r e).InOrder r l

theorem releaseAll_nil : V.releaseAll r [] = V := rfl

private theorem releaseAll_cons : V.releaseAll r (e :: l) = (V.releaseElement r e).releaseAll r l := rfl

theorem releaseAll_append : V.releaseAll r (l ++ m) = (V.releaseAll r l).releaseAll r m :=
  List.foldl_append

theorem InOrder.append (hl : V.InOrder r l) (hm : (V.releaseAll r l).InOrder r m) :
    V.InOrder r (l ++ m) := by
  induction l generalizing V with
  | nil => exact hm
  | cons e l ih => exact ⟨hl.1, hl.2.1, ih hl.2.2 hm⟩

theorem releaseAll_readers : (V.releaseAll r l).readers = V.readers := by
  induction l generalizing V with
  | nil => rfl
  | cons e l ih => rw [releaseAll_cons, ih, releaseElement_readers]

private theorem Valid.releaseAll (h : V.Valid) (hr : r ∈ V.readers) (hl : V.InOrder r l) :
    (V.releaseAll r l).Valid := by
  induction l generalizing V with
  | nil => exact h
  | cons e l ih =>
      have hr' : r ∈ (V.releaseElement r e).readers := mem_releaseElement_readers.mpr hr
      exact ih (h.releaseElement hr hl.1 hl.2.1) hr' hl.2.2

private theorem Valid.releaseAll_awaited (h : V.Valid) (ha : V.Awaited) (hr : r ∈ V.readers)
    (hl : V.InOrder r l) : (V.releaseAll r l).Awaited := by
  induction l generalizing V with
  | nil => exact ha
  | cons e l ih =>
      have hr' : r ∈ (V.releaseElement r e).readers := mem_releaseElement_readers.mpr hr
      exact ih (h.releaseElement hr hl.1 hl.2.1) (h.releaseElement_awaited ha hr) hr' hl.2.2

private theorem Valid.releaseAll_perm (h : V.Valid) (hr : r ∈ V.readers) (hl : V.InOrder r l) :
    (V.releaseAll r l).stock.Perm V.stock := by
  induction l generalizing V with
  | nil => exact List.Perm.refl _
  | cons e l ih =>
      have hr' : r ∈ (V.releaseElement r e).readers := mem_releaseElement_readers.mpr hr
      have htail := ih (h.releaseElement hr hl.1 hl.2.1) hr' hl.2.2
      exact htail.trans (h.releaseElement_perm hr hl.1)

private theorem Valid.releaseAll_awaits (h : V.Valid) (hr : r ∈ V.readers) (hl : V.InOrder r l) :
    (V.releaseAll r l).Awaits f r' ↔ V.Awaits f r' ∧ ¬ (f ∈ l ∧ r' = r) := by
  induction l generalizing V with
  | nil => simp [releaseAll_nil]
  | cons e l ih =>
      have hr' : r ∈ (V.releaseElement r e).readers := mem_releaseElement_readers.mpr hr
      rw [releaseAll_cons, ih (h.releaseElement hr hl.1 hl.2.1) hr' hl.2.2,
        h.releaseElement_awaits hr, List.mem_cons]
      tauto

theorem Valid.releaseAll_fifo (h : V.Valid) (hr : r ∈ V.readers) (hl : V.InOrder r l) :
    (V.releaseAll r l).fifo = V.fifo.filter fun f => f ∉ l ∨ V.Shared r f := by
  induction l generalizing V with
  | nil => simp [releaseAll_nil]
  | cons e l ih =>
      have hr' : r ∈ (V.releaseElement r e).readers := mem_releaseElement_readers.mpr hr
      rw [releaseAll_cons, ih (h.releaseElement hr hl.1 hl.2.1) hr' hl.2.2,
        h.releaseElement_fifo hr, List.filter_filter]
      apply List.filter_congr
      intro f _
      by_cases hfe : f = e
      · subst hfe
        by_cases hs : V.Shared r f <;> simp [h.releaseElement_shared hr, hs]
      · by_cases hs : V.Shared r f <;> simp [h.releaseElement_shared hr, hs, hfe]

private theorem Valid.releaseAll_unused (h : V.Valid) (hr : r ∈ V.readers) (hl : V.InOrder r l) :
    f ∈ (V.releaseAll r l).unused ↔ f ∈ V.unused ∨ f ∈ l ∧ ¬ V.Shared r f := by
  induction l generalizing V with
  | nil => simp [releaseAll_nil]
  | cons e l ih =>
      have hr' : r ∈ (V.releaseElement r e).readers := mem_releaseElement_readers.mpr hr
      rw [releaseAll_cons, ih (h.releaseElement hr hl.1 hl.2.1) hr' hl.2.2,
        h.releaseElement_unused hr, h.releaseElement_shared hr, List.mem_cons]
      by_cases hfe : f = e
      · subst hfe
        tauto
      · tauto

private theorem Valid.inOrder_held (h : V.Valid) (hr : r ∈ V.readers) (hnd : l.Nodup)
    (hl : ∀ e ∈ l, e ∈ V.fifo ∧ e ∉ V.unread r) : V.InOrder r l := by
  induction l generalizing V with
  | nil => trivial
  | cons e l ih =>
      obtain ⟨hfifo, hunread⟩ := hl e List.mem_cons_self
      have hvalid := h.releaseElement hr hfifo (Or.inl hunread)
      have hr' : r ∈ (V.releaseElement r e).readers := mem_releaseElement_readers.mpr hr
      refine ⟨hfifo, Or.inl hunread, ih hvalid hr' (List.nodup_cons.mp hnd).2 ?_⟩
      intro f hf
      have hfe : f ≠ e := fun heq => (List.nodup_cons.mp hnd).1 (heq ▸ hf)
      obtain ⟨hf', hfu⟩ := hl f (List.mem_cons_of_mem e hf)
      rw [h.releaseElement_fifo hr, h.releaseElement_unread hr, List.mem_filter,
        decide_eq_true_iff, List.erase_of_not_mem hunread]
      exact ⟨⟨hf', Or.inl hfe⟩, hfu⟩

theorem Valid.inOrder_held_all (h : V.Valid) (hr : r ∈ V.readers) : V.InOrder r (V.held r) := by
  apply h.inOrder_held hr (h.once r)
  intro e he
  exact ⟨h.awaits_mem hr (Or.inl he), h.held_notMem hr he⟩

/-- What a reader has not read is released from the front. -/
theorem Valid.inOrder_unread (h : V.Valid) (hr : r ∈ V.readers) (hl : V.unread r = l) :
    V.InOrder r l := by
  induction l generalizing V with
  | nil => trivial
  | cons e l ih =>
      have hfifo : e ∈ V.fifo := by
        apply h.awaits_mem hr (Or.inr _)
        rw [hl]
        exact List.mem_cons_self
      have hvalid := h.releaseElement hr hfifo (Or.inr ⟨l, hl⟩)
      have hr' : r ∈ (V.releaseElement r e).readers := mem_releaseElement_readers.mpr hr
      refine ⟨hfifo, Or.inr ⟨l, hl⟩, ih hvalid hr' ?_⟩
      rw [h.releaseElement_unread hr, hl, List.erase_cons_head]

theorem releaseAll_windows (hl : ∀ e ∈ l, e ∉ V.unread r) :
    (V.releaseAll r l).window = V.window ∧ (V.releaseAll r l).behind = V.behind := by
  induction l generalizing V with
  | nil => exact ⟨rfl, rfl⟩
  | cons e l ih =>
      have he : e ∉ V.window r ∧ e ∉ V.behind r := by
        simpa [unread] using hl e List.mem_cons_self
      have hwindow : (V.releaseElement r e).window = V.window := by
        rw [releaseElement_window, List.erase_of_not_mem he.1, Function.update_eq_self]
      have hbehind : (V.releaseElement r e).behind = V.behind := by
        rw [releaseElement_behind, List.erase_of_not_mem he.2, Function.update_eq_self]
      have hrest := ih (V := V.releaseElement r e) fun f hf => by
        rw [unread, hwindow, hbehind]
        exact hl f (List.mem_cons_of_mem e hf)
      rw [releaseAll_cons]
      exact ⟨hrest.1.trans hwindow, hrest.2.trans hbehind⟩

/-- What nobody awaits may be released in any order, without an effect. -/
theorem Valid.releaseAll_of_not_awaits (h : V.Valid) (ha : V.Awaited) (hr : r ∈ V.readers)
    (hl : ∀ e ∈ l, e ∈ V.fifo ∧ ¬ V.Awaits e r) : V.releaseAll r l = V ∧ V.InOrder r l := by
  induction l with
  | nil => exact ⟨rfl, trivial⟩
  | cons e l ih =>
      obtain ⟨hfifo, hnot⟩ := hl e List.mem_cons_self
      have hsame := h.releaseElement_of_not_awaits ha hr hfifo hnot
      obtain ⟨hrest, hin⟩ := ih fun f hf => hl f (List.mem_cons_of_mem e hf)
      refine ⟨?_, hfifo, Or.inl fun hu => hnot (Or.inr hu), ?_⟩
      · rw [releaseAll_cons, hsame, hrest]
      · rw [hsame]
        exact hin

theorem releaseAll_of_ne (hr : r' ≠ r) : (V.releaseAll r l).window r' = V.window r' ∧
    (V.releaseAll r l).held r' = V.held r' := by
  induction l generalizing V with
  | nil => exact ⟨rfl, rfl⟩
  | cons e l ih =>
      obtain ⟨hwindow, hheld⟩ := ih (V := V.releaseElement r e)
      rw [releaseElement_window, Function.update_of_ne hr] at hwindow
      rw [releaseElement_held, Function.update_of_ne hr] at hheld
      exact ⟨hwindow, hheld⟩

theorem Valid.releaseAll_held (h : V.Valid) (hr : r ∈ V.readers) :
    (V.releaseAll r (V.held r)).held r = [] := by
  have hin := h.inOrder_held_all hr
  have hvalid : (V.releaseAll r (V.held r)).Valid := h.releaseAll hr hin
  have hr' : r ∈ (V.releaseAll r (V.held r)).readers := by
    rw [releaseAll_readers]
    exact hr
  obtain ⟨hwindow, hbehind⟩ := releaseAll_windows fun e he => h.held_notMem hr he
  rw [List.eq_nil_iff_forall_not_mem]
  intro e he
  obtain ⟨hawaits, hnot⟩ := (h.releaseAll_awaits hr hin).mp (Or.inl he)
  rcases hawaits with hheld | hunread
  · exact hnot ⟨hheld, rfl⟩
  · apply hvalid.held_notMem hr' he
    rw [unread, hwindow, hbehind]
    exact hunread

private theorem Valid.inOrder_leave (h : V.Valid) (hr : r ∈ V.readers) :
    V.InOrder r (V.held r ++ V.unread r) := by
  have hheld := h.inOrder_held_all hr
  have hr' : r ∈ (V.releaseAll r (V.held r)).readers := by
    rw [releaseAll_readers]
    exact hr
  apply hheld.append
  apply (h.releaseAll hr hheld).inOrder_unread hr'
  obtain ⟨hwindow, hbehind⟩ := releaseAll_windows fun e he => h.held_notMem hr he
  rw [unread, hwindow, hbehind]
  rfl

/-- A reader that leaves does not await anything any more. -/
theorem Valid.released_all (h : V.Valid) (hr : r ∈ V.readers) :
    ¬ (V.releaseAll r (V.held r ++ V.unread r)).Awaits f r := by
  rw [h.releaseAll_awaits hr (h.inOrder_leave hr)]
  rintro ⟨hawaits, hnot⟩
  exact hnot ⟨List.mem_append.mpr hawaits, rfl⟩

theorem leave_readers : (V.leave r).readers = V.readers.erase r := by
  show (V.releaseAll r (V.held r ++ V.unread r)).readers.erase r = _
  rw [releaseAll_readers]

theorem Valid.leave_fifo (h : V.Valid) (ha : V.Awaited) (hr : r ∈ V.readers) :
    (V.leave r).fifo = V.fifo.filter fun f => V.Shared r f := by
  show (V.releaseAll r (V.held r ++ V.unread r)).fifo = _
  rw [h.releaseAll_fifo hr (h.inOrder_leave hr)]
  apply List.filter_congr
  intro f hf
  rw [Bool.eq_iff_iff, decide_eq_true_iff, decide_eq_true_iff]
  constructor
  · rintro (hnot | hs)
    · obtain ⟨a, hmem, hawaits⟩ := ha (List.ne_nil_of_mem hr) f hf
      refine ⟨a, hmem, ?_, hawaits⟩
      intro heq
      apply hnot
      rw [List.mem_append]
      exact heq ▸ hawaits
    · exact hs
  · exact Or.inr

theorem Valid.leave (h : V.Valid) (hr : r ∈ V.readers) : (V.leave r).Valid := by
  have hW := h.releaseAll hr (h.inOrder_leave hr)
  have hnone : ∀ f, ¬ (V.releaseAll r (V.held r ++ V.unread r)).Awaits f r :=
    fun f => h.released_all hr
  apply hW.of_perm (V.leave r) (List.Perm.refl _) (hW.readers.erase r) _ hW.once
  · intro a ha
    by_cases har : a = r
    · subst a
      refine ⟨?_, ?_, ?_⟩
      · rw [List.eq_nil_iff_forall_not_mem]
        intro f hf
        exact hnone f (Or.inr (List.mem_append_left _ hf))
      · rw [List.eq_nil_iff_forall_not_mem]
        intro f hf
        exact hnone f (Or.inr (List.mem_append_right _ hf))
      · rw [List.eq_nil_iff_forall_not_mem]
        intro f hf
        exact hnone f (Or.inl hf)
    · apply hW.idle
      intro hmem
      exact ha ((List.mem_erase_of_ne har).mpr hmem)
  · intro a ha
    exact hW.split a (List.mem_of_mem_erase ha)

theorem Valid.leave_awaited (h : V.Valid) (ha : V.Awaited) (hr : r ∈ V.readers) :
    (V.leave r).Awaited := by
  intro _ f hf
  have hW := h.releaseAll_awaited ha hr (h.inOrder_leave hr)
  have hne : (V.releaseAll r (V.held r ++ V.unread r)).readers ≠ [] := by
    rw [releaseAll_readers]
    exact List.ne_nil_of_mem hr
  obtain ⟨a, hmem, hawaits⟩ := hW hne f hf
  have har : a ≠ r := fun heq => h.released_all hr (heq ▸ hawaits)
  exact ⟨a, (List.mem_erase_of_ne har).mpr hmem, hawaits⟩

theorem Valid.held_readers (h : V.Valid) (he : e ∈ V.held r) : r ∈ V.readers := by
  by_contra hr
  rw [(h.idle r hr).2.2] at he
  exact List.not_mem_nil he

/-- No call loses an element of the FIFO. -/
theorem Valid.call_stock (h : V.Valid) (hleave : ∀ r, c = .releaseReader r → r ∈ V.readers) :
    (V.call data task c).1.stock.Perm V.stock := by
  cases c with
  | allocate =>
      cases hunused : V.unused with
      | nil => simp only [call, hunused, List.Perm.refl]
      | cons e l =>
          simp only [call, hunused]
          exact allocate_perm (hunused ▸ List.mem_cons_self)
  | release d =>
      cases hfind : V.allocated.find? fun e => data e = d with
      | none => simp only [call, hfind, List.Perm.refl]
      | some e =>
          simp only [call, hfind]
          exact release_perm (List.mem_of_find?_eq_some hfind)
  | push d =>
      cases hfind : V.allocated.find? fun e => data e = d with
      | none => simp only [call, hfind, List.Perm.refl]
      | some e =>
          simp only [call, hfind]
          exact push_perm (List.mem_of_find?_eq_some hfind)
  | pop =>
      simp only [call]
      split
      · rename_i e l _ hfifo
        exact consume_perm (hfifo ▸ List.mem_cons_self)
      · exact List.Perm.refl _
  | associateReader r =>
      simp only [call]
      split <;> exact List.Perm.refl _
  | releaseReader r =>
      have hr := hleave r rfl
      exact h.releaseAll_perm hr (h.inOrder_leave hr)
  | synchronize t volume =>
      simp only [call]
      split <;> exact List.Perm.refl _
  | readerPop r =>
      simp only [call]
      split
      · exact List.Perm.refl _
      · split <;> exact List.Perm.refl _
  | readerRelease r d =>
      cases hfind : (V.held r).find? fun e => data e = d with
      | none => simp only [call, hfind, List.Perm.refl]
      | some e =>
          have he := List.mem_of_find?_eq_some hfind
          have hr := h.held_readers he
          simp only [call, hfind]
          exact h.releaseElement_perm hr (h.awaits_mem hr (Or.inl he))
  | readerReleaseAll r =>
      by_cases hr : r ∈ V.readers
      · exact h.releaseAll_perm hr (h.inOrder_held_all hr)
      · have hheld := (h.idle r hr).2.2
        simp only [call, hheld, releaseAll_nil, List.Perm.refl]

theorem call_readers (hcome : ∀ r, c ≠ .associateReader r) (hstay : ∀ r, c ≠ .releaseReader r) :
    (V.call data task c).1.readers = V.readers := by
  cases c with
  | associateReader r => exact absurd rfl (hcome r)
  | releaseReader r => exact absurd rfl (hstay r)
  | readerRelease r d =>
      simp only [call]
      split
      · rfl
      · exact releaseElement_readers
  | readerReleaseAll r => exact releaseAll_readers
  | readerPop r =>
      simp only [call]
      split
      · rfl
      · split <;> rfl
  | allocate | release d | push d | pop | synchronize t volume =>
      simp only [call]
      split <;> rfl

/-- The reader releases the element in the call. -/
def Releases (V : FifoView κ ρ) (data : κ → δ) (c : FifoCall δ ρ τ) (r : ρ) (e : κ) : Prop :=
  match c with
  | .readerRelease a d => a = r ∧ (V.held r).find? (fun e => data e = d) = some e
  | .readerReleaseAll a => a = r ∧ e ∈ V.held r
  | _ => False

private theorem not_shared_iff : ¬ V.Shared r e ↔ ∀ a ∈ V.readers, V.Awaits e a → a = r := by
  constructor
  · intro h a ha hawaits
    by_contra hne
    exact h ⟨a, ha, hne, hawaits⟩
  · rintro h ⟨a, ha, hne, hawaits⟩
    exact hne (h a ha hawaits)

private theorem Valid.notMem_unused (h : V.Valid) (he : e ∈ V.fifo) : e ∉ V.unused := by
  intro hmem
  exact (List.nodup_append.mp h.distinct).2.2 e (List.mem_append_left _ hmem) e he rfl

theorem Valid.notMem_allocated (h : V.Valid) (he : e ∈ V.fifo) : e ∉ V.allocated := by
  intro hmem
  exact (List.nodup_append.mp h.distinct).2.2 e (List.mem_append_right _ hmem) e he rfl

/-- A pushed element becomes unused exactly when the last reader that awaits it releases it. -/
theorem Valid.recycled_iff (h : V.Valid) (hstay : ∀ r, c ≠ .releaseReader r) (he : e ∈ V.fifo) :
    e ∈ (V.call data task c).1.unused ↔
      ∃ r, V.Releases data c r e ∧ ∀ a ∈ V.readers, V.Awaits e a → a = r := by
  have hnot := h.notMem_unused he
  have hkeep : ∀ {W : FifoView κ ρ}, W.unused = V.unused → ¬ (∃ r, V.Releases data c r e) →
      (e ∈ W.unused ↔ ∃ r, V.Releases data c r e ∧ ∀ a ∈ V.readers, V.Awaits e a → a = r) := by
    intro W hW hnone
    rw [hW]
    constructor
    · intro hmem
      exact absurd hmem hnot
    · rintro ⟨r, hr, _⟩
      exact absurd ⟨r, hr⟩ hnone
  cases c with
  | allocate =>
      cases hunused : V.unused with
      | nil =>
          apply hkeep _ (by simp [Releases])
          simp only [call, hunused]
      | cons f l =>
          have hmem : e ∉ V.unused.erase f := fun hmem => hnot (List.mem_of_mem_erase hmem)
          simpa [call, hunused, FifoView.allocate, Releases] using hmem
  | release d =>
      cases hfind : V.allocated.find? fun e => data e = d with
      | none =>
          apply hkeep _ (by simp [Releases])
          simp only [call, hfind]
      | some f =>
          have hfe : e ≠ f := by
            intro heq
            exact h.notMem_allocated he (heq ▸ List.mem_of_find?_eq_some hfind)
          simpa [call, hfind, FifoView.release, Releases, hfe] using hnot
  | push d =>
      apply hkeep _ (by simp [Releases])
      simp only [call]
      split <;> rfl
  | pop =>
      apply hkeep _ (by simp [Releases])
      simp only [call]
      split <;> rfl
  | associateReader r =>
      apply hkeep _ (by simp [Releases])
      simp only [call]
      split <;> rfl
  | releaseReader r => exact absurd rfl (hstay r)
  | synchronize t volume =>
      apply hkeep _ (by simp [Releases])
      simp only [call]
      split <;> rfl
  | readerPop r =>
      apply hkeep _ (by simp [Releases])
      simp only [call]
      split
      · rfl
      · split <;> rfl
  | readerRelease r d =>
      cases hfind : (V.held r).find? fun e => data e = d with
      | none =>
          apply hkeep _ (by simp [Releases, hfind])
          simp only [call, hfind]
      | some f =>
          have hr := h.held_readers (List.mem_of_find?_eq_some hfind)
          simp only [call, hfind]
          rw [h.releaseElement_unused hr, not_shared_iff]
          simp only [Releases, hnot, false_or]
          constructor
          · rintro ⟨rfl, hlast⟩
            exact ⟨r, ⟨rfl, hfind⟩, hlast⟩
          · rintro ⟨a, ⟨rfl, hfind'⟩, hlast⟩
            obtain rfl := Option.some.inj (hfind.symm.trans hfind')
            exact ⟨rfl, hlast⟩
  | readerReleaseAll r =>
      by_cases hr : r ∈ V.readers
      · simp only [call]
        rw [h.releaseAll_unused hr (h.inOrder_held_all hr), not_shared_iff]
        simp only [Releases, hnot, false_or]
        constructor
        · rintro ⟨hheld, hlast⟩
          exact ⟨r, ⟨rfl, hheld⟩, hlast⟩
        · rintro ⟨a, ⟨rfl, hheld⟩, hlast⟩
          exact ⟨hheld, hlast⟩
      · have hheld := (h.idle r hr).2.2
        apply hkeep
        · simp only [call, hheld, releaseAll_nil]
        · rintro ⟨a, rfl, hmem⟩
          rw [hheld] at hmem
          exact List.not_mem_nil hmem

end FifoView

end TaskingFramework
