import TaskingFramework.Fifo.Consistent

/-!
# Allocating, releasing and pushing elements

The calls of the FIFO itself keep showing the view.
-/

set_option linter.unusedSectionVars false

namespace TaskingFramework

open Foundation

variable {κ δ ρ τ : Type} [DecidableEq κ] [DecidableEq δ] [DecidableEq ρ] [DecidableEq τ]
  {s t : FifoGeneric κ δ ρ τ} {V W : FifoView κ ρ} {e : κ} {d : δ} {l : List κ}

private theorem Consistent.restock (h : Consistent s V) (huntouched : s.Untouched t) (hvalid : W.Valid)
    (hawaited : W.Awaited) (hstored : t.Stored W.unused W.allocated W.fifo)
    (hfresh : ∀ e ∈ W.allocated, t.expectedReadsBitMask e = 1) (hreaders : W.readers = V.readers)
    (hwindow : W.window = V.window) (hheld : W.held = V.held)
    (hexpected : ∀ slot, Marked s V slot → ∀ e ∈ W.fifo, ∀ i,
      (t.expectedReadsBitMask e).getLsbD i = true ↔ Bits V.readers slot (W.Awaits e) i) :
    Consistent t W := by
  obtain ⟨slot, hmarked⟩ := h.marked
  refine ⟨⟨hvalid, hawaited, hstored, hfresh, ?_, ?_, slot, ?_⟩, ?_⟩
  · rw [huntouched.reader, huntouched.readers, hreaders]
    exact h.readers
  · rw [huntouched.reader, hreaders]
    exact h.attached
  · refine ⟨?_, ?_, ?_, ?_, ?_⟩
    · rw [huntouched.reader, hreaders]
      exact hmarked.id
    · rw [hreaders]
      exact hmarked.lt
    · rw [hreaders]
      exact hmarked.injective
    · rw [huntouched.bitMask, hreaders]
      exact hmarked.mask
    · rw [hreaders]
      exact hexpected slot hmarked
  · rw [huntouched.reader, hwindow, hheld]
    exact h.points

private theorem Kept.fifo_ne_allocated (h : Kept s V) {f : κ} (hf : f ∈ V.fifo) (he : e ∈ V.allocated) :
    f ≠ e := fun heq => h.stored.disjoint.2.2 e he (heq ▸ hf)

theorem Consistent.allocate (h : Consistent s V) (hunused : V.unused = e :: l) :
    s.allocate.2 = some (s.data e) ∧ Consistent s.allocate.1 (V.allocate e) ∧
      s.SameReaders s.allocate.1 := by
  have hstored := h.stored
  rw [hunused] at hstored
  obtain ⟨t, hcall, hstored', huntouched, hmask⟩ := hstored.allocate
  rw [hcall]
  have he : e ∈ V.unused := hunused ▸ List.mem_cons_self
  have herase : (V.allocate e).unused = l := by
    show V.unused.erase e = l
    rw [hunused, List.erase_cons_head]
  have hvalid : (V.allocate e).Valid := h.valid.allocate he
  refine ⟨rfl, h.restock huntouched hvalid h.awaited ?_ ?_ rfl rfl rfl ?_,
    huntouched.sameReaders⟩
  · rw [herase]
    exact hstored'
  · intro f hf
    rw [hmask]
    by_cases hfe : f = e
    · rw [hfe, Function.update_self]
    · rw [Function.update_of_ne hfe]
      exact h.fresh f ((List.mem_cons.mp hf).resolve_left hfe)
  · intro slot hmarked f hf i
    have hfe : f ≠ e := fun heq => h.stored.disjoint.2.1 e he (heq ▸ hf)
    rw [hmask, Function.update_of_ne hfe]
    exact hmarked.expected f hf i

theorem Consistent.release (h : Consistent s V)
    (hfind : V.allocated.find? (fun e => s.data e = d) = some e) :
    ∃ t, Returns (FifoGeneric.release · s d 1) t ∧ Consistent t (V.release e) ∧
      s.SameReaders t := by
  have he : e ∈ V.allocated := List.mem_of_find?_eq_some hfind
  have hlast : s.expectedReadsBitMask e &&& ~~~1 = 0 := by
    rw [h.fresh e he]
    rfl
  obtain ⟨t, hret, hstored, huntouched, hmask⟩ := h.stored.release hfind hlast
  have hnd : V.allocated.Nodup := h.stored.allocated.nodup
  have hvalid : (V.release e).Valid := h.valid.release he
  refine ⟨t, hret, h.restock huntouched hvalid h.awaited hstored ?_ rfl rfl rfl ?_,
    huntouched.sameReaders⟩
  · intro f hf
    obtain ⟨hfe, hf⟩ := hnd.mem_erase_iff.mp hf
    rw [hmask, Function.update_of_ne hfe]
    exact h.fresh f hf
  · intro slot hmarked f hf i
    rw [hmask, Function.update_of_ne (h.fifo_ne_allocated hf he)]
    exact hmarked.expected f hf i

private theorem Marked.pushed {slot : ρ → Nat} (h : Marked s V slot) (i : Nat) :
    (s.m_readerBitMask.setWidth 32).getLsbD i = true ↔
      Bits V.readers slot ((V.push e).Awaits e) i := by
  have hall : Bits V.readers slot ((V.push e).Awaits e) i ↔
      Bits V.readers slot (fun _ => True) i := by
    apply Bits.congr
    intro r hr
    simp [FifoView.push_awaits hr]
  rw [hall, ← h.mask i, BitVec.getLsbD_setWidth, Bool.and_eq_true, decide_eq_true_iff]
  constructor
  · exact And.right
  · intro hbit
    have hlt := BitVec.lt_of_getLsbD hbit
    exact ⟨by omega, hbit⟩

theorem Consistent.push (h : Consistent s V)
    (hfind : V.allocated.find? (fun e => s.data e = d) = some e) :
    ∃ t, Returns (FifoGeneric.push · s d) (t, true) ∧ Consistent t (V.push e) ∧
      s.SameReaders t := by
  have he : e ∈ V.allocated := List.mem_of_find?_eq_some hfind
  obtain ⟨s', htake, hstored', hnot, huntouched', hmask'⟩ := h.stored.takeAllocated hfind
  obtain ⟨t, happend, hstored, huntouched, hmask⟩ := hstored'.append hnot d
  have hnd : V.allocated.Nodup := h.stored.allocated.nodup
  have huntouched : s.Untouched t := ⟨huntouched.reader.trans huntouched'.reader,
    huntouched.readers.trans huntouched'.readers, huntouched.bitMask.trans huntouched'.bitMask,
    huntouched.data.trans huntouched'.data⟩
  have hvalid : (V.push e).Valid := h.valid.push he
  have hawaited : (V.push e).Awaited := h.awaited.push
  rw [hmask', huntouched'.bitMask] at hmask
  refine ⟨t, ?_, h.restock huntouched hvalid hawaited hstored ?_ rfl rfl rfl ?_,
    huntouched.sameReaders⟩
  · apply htake.bind
    simp only [happend]
    exact returns_ok _
  · intro f hf
    obtain ⟨hfe, hf⟩ := hnd.mem_erase_iff.mp hf
    rw [hmask, Function.update_of_ne hfe]
    exact h.fresh f hf
  · intro slot hmarked f hf i
    rw [hmask]
    by_cases hfe : f = e
    · rw [hfe, Function.update_self]
      exact hmarked.pushed i
    · have hf' : f ∈ V.fifo := by
        rcases List.mem_append.mp hf with hf | hf
        · exact hf
        · exact absurd (List.mem_singleton.mp hf) hfe
      rw [Function.update_of_ne hfe, hmarked.expected f hf' i]
      apply Bits.congr
      intro r hr
      simp [FifoView.push_awaits hr, hfe]

theorem Consistent.push_absent (h : Consistent s V)
    (hfind : V.allocated.find? (fun e => s.data e = d) = none) :
    Returns (FifoGeneric.push · s d) (s, false) := by
  apply (FifoGeneric.takeAllocated_absent h.stored hfind).bind
  exact returns_ok _

theorem Consistent.m_readers_eq_none (h : Consistent s V) : s.m_readers = none ↔ V.readers = [] := by
  rw [h.readers.head]
  exact List.head?_eq_none_iff

private theorem Marked.alone {slot : ρ → Nat} (h : Marked s V slot) (hr : V.readers = [])
    (he : e ∈ V.fifo) :
    s.expectedReadsBitMask e = 1 := by
  apply BitVec.eq_of_getLsbD_eq
  intro i _
  have h1 : (1 : BitVec 32) = BitVec.twoPow 32 0 := rfl
  rw [Bool.eq_iff_iff, h.expected e he, Bits, if_pos hr, h1, BitVec.getLsbD_twoPow]
  simpa using eq_comm

theorem Consistent.pop (h : Consistent s V) (hr : V.readers = []) (hfifo : V.fifo = e :: l) :
    s.pop.2 = some (s.data e) ∧ Consistent s.pop.1 (V.consume e) ∧ s.SameReaders s.pop.1 := by
  have he : e ∈ V.fifo := hfifo ▸ List.mem_cons_self
  obtain ⟨slot, hmarked⟩ := h.marked
  have hreaders := h.m_readers_eq_none.mpr hr
  have hstored := h.stored
  rw [hfifo] at hstored
  have herase : (V.consume e).fifo = l := by
    show V.fifo.erase e = l
    rw [hfifo, List.erase_cons_head]
  obtain ⟨t, hcall, hstored', huntouched, hmask⟩ := hstored.pop hreaders
  rw [hcall]
  have hvalid : (V.consume e).Valid := h.valid.consume he hr
  have hawaited : (V.consume e).Awaited := fun hne => absurd hr hne
  refine ⟨rfl, h.restock huntouched hvalid hawaited ?_ ?_ rfl rfl rfl ?_, huntouched.sameReaders⟩
  · rw [herase]
    exact hstored'
  · intro f hf
    rw [hmask]
    rcases List.mem_cons.mp hf with rfl | hf
    · exact hmarked.alone hr he
    · exact h.fresh f hf
  · intro slot' hmarked' f hf i
    rw [hmask]
    exact hmarked'.expected f (List.mem_of_mem_erase hf) i

theorem Consistent.pop_nothing (h : Consistent s V) (hnone : V.readers ≠ [] ∨ V.fifo = []) :
    s.pop = (s, none) := by
  unfold FifoGeneric.pop
  cases hfirst : s.m_fifo_first with
  | none => rfl
  | some e =>
      have hfifo : V.fifo ≠ [] := by
        intro hnil
        have hhead := h.stored.fifo.head
        rw [hfirst, hnil] at hhead
        exact absurd hhead (by simp)
      have hreaders := mt h.m_readers_eq_none.mp (hnone.resolve_right hfifo)
      simp only [if_neg hreaders]

end TaskingFramework
