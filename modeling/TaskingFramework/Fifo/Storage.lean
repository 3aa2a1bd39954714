import TaskingFramework.Fifo.FifoGeneric
import TaskingFramework.Foundation.Chain

/-!
# The three chains of a FIFO

The unused, the allocated and the pushed elements are chains over the same links without a common
element. The operations move elements between them.
-/

set_option linter.unusedSectionVars false

namespace TaskingFramework.FifoGeneric

open Foundation

variable {κ δ ρ τ : Type} [DecidableEq κ] [DecidableEq δ] [DecidableEq ρ] [DecidableEq τ]
  {s : FifoGeneric κ δ ρ τ} {unused allocated fifo l m : List κ} {e previous : κ} {d : δ}
  {p : Option κ}

structure Stored (s : FifoGeneric κ δ ρ τ) (u a q : List κ) : Prop where
  unused : Chain s.next s.m_unused u
  allocated : Chain s.next s.m_allocated a
  fifo : Chain s.next s.m_fifo_first q
  last : s.m_fifo_last = q.getLast?
  distinct : (u ++ a ++ q).Nodup

theorem Stored.disjoint (h : Stored s unused allocated fifo) :
    (∀ x ∈ unused, x ∉ allocated) ∧ (∀ x ∈ unused, x ∉ fifo) ∧ (∀ x ∈ allocated, x ∉ fifo) := by
  obtain ⟨hua, _, hf⟩ := List.nodup_append.mp h.distinct
  have hsplit := List.nodup_append.mp hua
  refine ⟨fun x hu ha => hsplit.2.2 x hu x ha rfl, ?_, ?_⟩
  · intro x hu hx
    exact hf x (List.mem_append_left _ hu) x hx rfl
  · intro x ha hx
    exact hf x (List.mem_append_right _ ha) x hx rfl

private theorem Stored.putUnused (h : Stored s unused allocated fifo)
    (he : e ∉ unused ++ allocated ++ fifo) :
    Stored { s.setNext e s.m_unused with m_unused := some e } (e :: unused) allocated fifo := by
  have hnot : (e ∉ unused ∧ e ∉ allocated) ∧ e ∉ fifo := by simpa [and_assoc] using he
  obtain ⟨⟨hu, ha⟩, hf⟩ := hnot
  exact ⟨h.unused.push hu, h.allocated.update ha _, h.fifo.update hf _, h.last,
    List.nodup_cons.mpr ⟨he, h.distinct⟩⟩

private theorem Stored.putAllocated (h : Stored s unused allocated fifo)
    (he : e ∉ unused ++ allocated ++ fifo) :
    Stored { s.setNext e s.m_allocated with m_allocated := some e }
      unused (e :: allocated) fifo := by
  have hnot : (e ∉ unused ∧ e ∉ allocated) ∧ e ∉ fifo := by simpa [and_assoc] using he
  obtain ⟨⟨hu, ha⟩, hf⟩ := hnot
  refine ⟨h.unused.update hu _, h.allocated.push ha, h.fifo.update hf _, h.last, ?_⟩
  have hperm : (unused ++ e :: allocated ++ fifo).Perm (e :: (unused ++ allocated ++ fifo)) :=
    List.perm_middle.append_right fifo
  exact hperm.nodup_iff.mpr (List.nodup_cons.mpr ⟨he, h.distinct⟩)

theorem Stored.setMask (h : Stored s unused allocated fifo) (e : κ) (mask : BitVec 32) :
    Stored (s.setMask e mask) unused allocated fifo :=
  ⟨h.unused, h.allocated, h.fifo, h.last, h.distinct⟩

private theorem Stored.takeUnused (h : Stored s (e :: unused) allocated fifo) :
    Stored { s with m_unused := s.next e } unused allocated fifo ∧
      e ∉ unused ++ allocated ++ fifo := by
  obtain ⟨hnot, hnd⟩ := List.nodup_cons.mp h.distinct
  exact ⟨⟨h.unused.2, h.allocated, h.fifo, h.last, hnd⟩, hnot⟩

private theorem nodup_without (h : (unused ++ (l ++ e :: m) ++ fifo).Nodup) :
    (unused ++ (l ++ m) ++ fifo).Nodup ∧ e ∉ unused ++ (l ++ m) ++ fifo := by
  have hperm : (unused ++ (l ++ e :: m) ++ fifo).Perm (e :: (unused ++ (l ++ m) ++ fifo)) := by
    have hin : (unused ++ (l ++ e :: m)).Perm (e :: (unused ++ (l ++ m))) := by
      rw [← List.append_assoc, ← List.append_assoc]
      exact List.perm_middle
    exact hin.append_right fifo
  have hnd := hperm.nodup_iff.mp h
  exact ⟨(List.nodup_cons.mp hnd).2, (List.nodup_cons.mp hnd).1⟩

private theorem Stored.unlinkFirstAllocated (h : Stored s unused (e :: allocated) fifo) :
    Stored { s with m_allocated := s.next e } unused allocated fifo ∧
      e ∉ unused ++ allocated ++ fifo := by
  obtain ⟨hnd, hnot⟩ := nodup_without (l := []) h.distinct
  exact ⟨⟨h.unused, h.allocated.2, h.fifo, h.last, hnd⟩, hnot⟩

private theorem Stored.unlinkAllocated (h : Stored s unused (l ++ previous :: e :: m) fifo) :
    Stored (s.setNext previous (s.next e)) unused (l ++ previous :: m) fifo ∧
      e ∉ unused ++ (l ++ previous :: m) ++ fifo := by
  have hdistinct := h.distinct
  rw [List.append_cons l previous (e :: m)] at hdistinct
  obtain ⟨hnd, hnot⟩ := nodup_without hdistinct
  have hassoc : l ++ [previous] ++ m = l ++ previous :: m := by simp
  rw [hassoc] at hnd hnot
  have hp : previous ∈ l ++ previous :: e :: m := by simp
  obtain ⟨hua, _, haf⟩ := h.disjoint
  refine ⟨⟨?_, h.allocated.bypass, ?_, h.last, hnd⟩, hnot⟩
  · exact h.unused.update (fun hmem => hua previous hmem hp) _
  · exact h.fifo.update (haf previous hp) _

private theorem searchAllocated_found (h : Chain s.next p (previous :: l ++ e :: m))
    (hl : ∀ x ∈ l, s.data x ≠ d) (he : s.data e = d) :
    ∃ k b, previous :: l = k ++ [b] ∧ Returns (searchAllocated s d · previous) (some b) := by
  induction l generalizing p previous with
  | nil =>
      have hnext : s.next previous = some e := h.2.1
      refine ⟨[], previous, rfl, (returns_ok _).step fun fuel => ?_⟩
      simp [searchAllocated, hnext, he]
  | cons a l ih =>
      have hnext : s.next previous = some a := h.2.1
      have ha : s.data a ≠ d := hl a List.mem_cons_self
      obtain ⟨k, b, hk, hret⟩ := ih h.2 fun x hx => hl x (List.mem_cons_of_mem a hx)
      refine ⟨previous :: k, b, by rw [hk, List.cons_append], hret.step fun fuel => ?_⟩
      simp [searchAllocated, hnext, ha]

private theorem searchAllocated_absent (h : Chain s.next p (previous :: l))
    (hl : ∀ x ∈ l, s.data x ≠ d) : Returns (searchAllocated s d · previous) none := by
  induction l generalizing p previous with
  | nil =>
      have hnext : s.next previous = none := h.2
      exact (returns_ok _).step fun fuel => by simp [searchAllocated, hnext]
  | cons a l ih =>
      have hnext : s.next previous = some a := h.2.1
      have ha : s.data a ≠ d := hl a List.mem_cons_self
      have hret := ih h.2 fun x hx => hl x (List.mem_cons_of_mem a hx)
      exact hret.step fun fuel => by simp [searchAllocated, hnext, ha]

private theorem Stored.findPrevious_found {head : κ} (h : Stored s unused (head :: l ++ e :: m) fifo)
    (hhead : s.data head ≠ d) (hl : ∀ x ∈ l, s.data x ≠ d) (he : s.data e = d) :
    ∃ k b, head :: l = k ++ [b] ∧ Returns (findPrevious · s d) (some b) := by
  obtain ⟨k, b, hk, hret⟩ := searchAllocated_found h.allocated hl he
  refine ⟨k, b, hk, hret.congr fun fuel => ?_⟩
  simp [findPrevious, h.allocated.1, hhead]

private theorem Stored.findPrevious_absent {head : κ} (h : Stored s unused (head :: l) fifo)
    (hhead : s.data head ≠ d) (hl : ∀ x ∈ l, s.data x ≠ d) :
    Returns (findPrevious · s d) none := by
  have hret := searchAllocated_absent h.allocated hl
  refine hret.congr fun fuel => ?_
  simp [findPrevious, h.allocated.1, hhead]

/-- The first allocated element with the data, and what stands in front of it. -/
theorem find_data (hfind : allocated.find? (fun x => s.data x = d) = some e) :
    s.data e = d ∧ ∃ l m, allocated = l ++ e :: m ∧ e ∉ l ∧ ∀ x ∈ l, s.data x ≠ d := by
  obtain ⟨he, l, m, hsplit, hl⟩ := List.find?_eq_some_iff_append.mp hfind
  have he : s.data e = d := by simpa using he
  have hl : ∀ x ∈ l, s.data x ≠ d := fun x hx => by simpa using hl x hx
  exact ⟨he, l, m, hsplit, fun hmem => hl e hmem he, hl⟩

private theorem find_data_none (hfind : allocated.find? (fun x => s.data x = d) = none) :
    ∀ x ∈ allocated, s.data x ≠ d := by
  intro x hx
  simpa using List.find?_eq_none.mp hfind x hx

/-- The readers and the data are left alone. -/
structure Untouched (s t : FifoGeneric κ δ ρ τ) : Prop where
  reader : t.reader = s.reader
  readers : t.m_readers = s.m_readers
  bitMask : t.m_readerBitMask = s.m_readerBitMask
  data : t.data = s.data

/-- What no call changes: the data of the elements and the tasks of the readers. -/
structure SameSetup (s t : FifoGeneric κ δ ρ τ) : Prop where
  data : t.data = s.data
  task : ∀ r, (t.reader r).readerTask = (s.reader r).readerTask

/-- Nor does a call change the bits of the readers unless it adds or takes away a reader. -/
structure SameReaders (s t : FifoGeneric κ δ ρ τ) : Prop extends SameSetup s t where
  bitMask : t.m_readerBitMask = s.m_readerBitMask

theorem SameSetup.trans {t u : FifoGeneric κ δ ρ τ} (h : SameSetup s t) (h' : SameSetup t u) :
    SameSetup s u :=
  ⟨h'.data.trans h.data, fun r => (h'.task r).trans (h.task r)⟩

theorem SameReaders.refl : SameReaders s s := ⟨⟨rfl, fun _ => rfl⟩, rfl⟩

theorem SameReaders.trans {t u : FifoGeneric κ δ ρ τ} (h : SameReaders s t) (h' : SameReaders t u) :
    SameReaders s u :=
  ⟨h.toSameSetup.trans h'.toSameSetup, h'.bitMask.trans h.bitMask⟩

theorem Untouched.sameReaders {t : FifoGeneric κ δ ρ τ} (h : Untouched s t) : SameReaders s t :=
  ⟨⟨h.data, fun r => by rw [h.reader]⟩, h.bitMask⟩

theorem SameReaders.setReader {t : FifoGeneric κ δ ρ τ} (h : SameReaders s t) {r : ρ}
    {reader : FifoGenericReader κ ρ τ} (htask : reader.readerTask = (t.reader r).readerTask) :
    SameReaders s (t.setReader r reader) := by
  refine ⟨⟨h.data, fun a => ?_⟩, h.bitMask⟩
  by_cases har : a = r
  · subst a
    rw [← h.task r, ← htask]
    simp [FifoGeneric.setReader]
  · rw [← h.task a]
    simp [FifoGeneric.setReader, har]

theorem Untouched.trans {t u : FifoGeneric κ δ ρ τ} (h : Untouched s t) (h' : Untouched t u) :
    Untouched s u :=
  ⟨h'.reader.trans h.reader, h'.readers.trans h.readers, h'.bitMask.trans h.bitMask,
    h'.data.trans h.data⟩

theorem Stored.allocate (h : Stored s (e :: unused) allocated fifo) :
    ∃ t, s.allocate = (t, some (s.data e)) ∧ Stored t unused (e :: allocated) fifo ∧
      Untouched s t ∧ t.expectedReadsBitMask = Function.update s.expectedReadsBitMask e 1 := by
  obtain ⟨htaken, hnot⟩ := h.takeUnused
  have hput := htaken.putAllocated hnot
  refine ⟨_, ?_, hput.setMask e 1, ⟨rfl, rfl, rfl, rfl⟩, rfl⟩
  simp only [FifoGeneric.allocate, h.unused.1]
  rfl

theorem takeAllocated_absent (h : Stored s unused allocated fifo)
    (hfind : allocated.find? (fun x => s.data x = d) = none) :
    Returns (takeAllocated · s d) (s, none) := by
  have hl := find_data_none hfind
  cases allocated with
  | nil =>
      have hnone : s.m_allocated = none := h.allocated
      refine (returns_ok _).congr fun fuel => ?_
      simp [takeAllocated, hnone]
  | cons head l =>
      have hhead := hl head List.mem_cons_self
      have hprevious := h.findPrevious_absent hhead fun x hx => hl x (List.mem_cons_of_mem head hx)
      simp only [takeAllocated, h.allocated.1, hhead, if_false]
      exact hprevious.bind (returns_ok _)

theorem Stored.takeAllocated (h : Stored s unused allocated fifo)
    (hfind : allocated.find? (fun x => s.data x = d) = some e) :
    ∃ t, Returns (FifoGeneric.takeAllocated · s d) (t, some e) ∧
      Stored t unused (allocated.erase e) fifo ∧ e ∉ unused ++ allocated.erase e ++ fifo ∧
      Untouched s t ∧ t.expectedReadsBitMask = s.expectedReadsBitMask := by
  obtain ⟨he, l, m, hsplit, hel, hl⟩ := find_data hfind
  subst hsplit
  rw [List.erase_append_right _ hel, List.erase_cons_head]
  cases l with
  | nil =>
      obtain ⟨hstored, hnot⟩ := h.unlinkFirstAllocated
      refine ⟨_, ?_, hstored, hnot, ⟨rfl, rfl, rfl, rfl⟩, rfl⟩
      refine (returns_ok _).congr fun fuel => ?_
      simp [FifoGeneric.takeAllocated, h.allocated.1, he]
  | cons head l =>
      have hhead := hl head List.mem_cons_self
      have hl' : ∀ x ∈ l, s.data x ≠ d := fun x hx => hl x (List.mem_cons_of_mem head hx)
      obtain ⟨k, b, hk, hprevious⟩ := h.findPrevious_found hhead hl' he
      have hfirst : s.m_allocated = some head := h.allocated.1
      rw [hk, List.append_assoc] at h
      obtain ⟨hstored, hnot⟩ := Stored.unlinkAllocated h
      have hnext : s.next b = some e := Chain.next_eq h.allocated
      rw [hk, List.append_assoc]
      refine ⟨_, ?_, hstored, hnot, ⟨rfl, rfl, rfl, rfl⟩, rfl⟩
      simp only [FifoGeneric.takeAllocated, hfirst, hhead, if_false]
      apply hprevious.bind
      simp only [hnext, deref_some, ok_bind]
      exact returns_ok _

theorem Stored.release (h : Stored s unused allocated fifo) {readerId : BitVec 32}
    (hfind : allocated.find? (fun x => s.data x = d) = some e)
    (hmask : s.expectedReadsBitMask e &&& ~~~readerId = 0) :
    ∃ t, Returns (FifoGeneric.release · s d readerId) t ∧
      Stored t (e :: unused) (allocated.erase e) fifo ∧ Untouched s t ∧
      t.expectedReadsBitMask = Function.update s.expectedReadsBitMask e 0 := by
  obtain ⟨he, l, m, hsplit, hel, hl⟩ := find_data hfind
  subst hsplit
  rw [List.erase_append_right _ hel, List.erase_cons_head]
  cases l with
  | nil =>
      obtain ⟨hstored, hnot⟩ := (h.setMask e 0).unlinkFirstAllocated
      refine ⟨_, ?_, hstored.putUnused hnot, ⟨rfl, rfl, rfl, rfl⟩, rfl⟩
      refine (returns_ok _).congr fun fuel => ?_
      simp [FifoGeneric.release, h.allocated.1, he, hmask, FifoGeneric.setMask]
  | cons head l =>
      have hhead := hl head List.mem_cons_self
      have hl' : ∀ x ∈ l, s.data x ≠ d := fun x hx => hl x (List.mem_cons_of_mem head hx)
      obtain ⟨k, b, hk, hprevious⟩ := h.findPrevious_found hhead hl' he
      have hfirst : s.m_allocated = some head := h.allocated.1
      rw [hk, List.append_assoc] at h
      obtain ⟨hstored, hnot⟩ := Stored.unlinkAllocated (h.setMask e 0)
      have hnext : s.next b = some e := Chain.next_eq h.allocated
      rw [hk, List.append_assoc]
      refine ⟨_, ?_, hstored.putUnused hnot, ⟨rfl, rfl, rfl, rfl⟩, rfl⟩
      simp only [FifoGeneric.release, hfirst, hhead, if_false]
      apply hprevious.bind
      simp only [hnext, deref_some, ok_bind]
      refine (returns_ok _).congr fun fuel => ?_
      simp [hmask, FifoGeneric.setMask, FifoGeneric.setNext]

/-- An allocated element that somebody else owns as well keeps its place. -/
theorem Stored.release_shared (h : Stored s unused allocated fifo) {readerId : BitVec 32}
    (hfind : allocated.find? (fun x => s.data x = d) = some e)
    (hmask : s.expectedReadsBitMask e &&& ~~~readerId ≠ 0) :
    Returns (FifoGeneric.release · s d readerId)
      (s.setMask e (s.expectedReadsBitMask e &&& ~~~readerId)) := by
  obtain ⟨he, l, m, hsplit, hel, hl⟩ := find_data hfind
  subst hsplit
  have hset : (s.setMask e (s.expectedReadsBitMask e &&& ~~~readerId)).expectedReadsBitMask e =
      s.expectedReadsBitMask e &&& ~~~readerId := Function.update_self ..
  cases l with
  | nil =>
      have hfirst : s.m_allocated = some e := h.allocated.1
      simp only [FifoGeneric.release, hfirst, he, if_true, hset, if_neg hmask]
      exact returns_ok _
  | cons head l =>
      have hhead := hl head List.mem_cons_self
      have hl' : ∀ x ∈ l, s.data x ≠ d := fun x hx => hl x (List.mem_cons_of_mem head hx)
      obtain ⟨k, b, hk, hprevious⟩ := h.findPrevious_found hhead hl' he
      have hfirst : s.m_allocated = some head := h.allocated.1
      rw [hk, List.append_assoc] at h
      have hnext : s.next b = some e := Chain.next_eq h.allocated
      simp only [FifoGeneric.release, hfirst, hhead, if_false]
      apply hprevious.bind
      simp only [hnext, deref_some, ok_bind, hset, if_neg hmask]
      exact returns_ok _

theorem release_absent (h : Stored s unused allocated fifo)
    (hfind : allocated.find? (fun x => s.data x = d) = none) (readerId : BitVec 32) :
    Returns (release · s d readerId) s := by
  have hl := find_data_none hfind
  cases allocated with
  | nil =>
      have hnone : s.m_allocated = none := h.allocated
      refine (returns_ok _).congr fun fuel => ?_
      simp [release, hnone]
  | cons head l =>
      have hhead := hl head List.mem_cons_self
      have hprevious := h.findPrevious_absent hhead fun x hx => hl x (List.mem_cons_of_mem head hx)
      simp only [release, h.allocated.1, hhead, if_false]
      exact hprevious.bind (returns_ok _)

theorem Stored.append (h : Stored s unused allocated fifo)
    (he : e ∉ unused ++ allocated ++ fifo) (d : δ) :
    ∃ t, s.append e d = .ok t ∧ Stored t unused allocated (fifo ++ [e]) ∧ Untouched s t ∧
      t.expectedReadsBitMask =
        Function.update s.expectedReadsBitMask e (s.m_readerBitMask.setWidth 32) := by
  have hnot : (e ∉ unused ∧ e ∉ allocated) ∧ e ∉ fifo := by simpa [and_assoc] using he
  obtain ⟨⟨hu, ha⟩, hf⟩ := hnot
  have hdistinct : (unused ++ allocated ++ (fifo ++ [e])).Nodup := by
    rw [← List.append_assoc]
    exact (List.perm_append_singleton e _).nodup_iff.mpr (List.nodup_cons.mpr ⟨he, h.distinct⟩)
  cases hlast : fifo.getLast? with
  | none =>
      have hnil := List.getLast?_eq_none_iff.mp hlast
      subst hnil
      have hfirst : s.m_fifo_first = none := h.fifo
      let t : FifoGeneric κ δ ρ τ := { s.setMask e (s.m_readerBitMask.setWidth 32) with
        m_fifo_first := some e
        m_fifo_last := some e
        m_lastPushed := some d }
      have hchain : Chain (Function.update s.next e none) (some e) [e] := ⟨rfl, by simp⟩
      refine ⟨t.setNext e none, ?_, ⟨h.unused.update hu none, h.allocated.update ha none, hchain,
        rfl, hdistinct⟩, ⟨rfl, rfl, rfl, rfl⟩, rfl⟩
      simp [FifoGeneric.append, isEmpty, FifoGeneric.setMask, FifoGeneric.setNext, hfirst, t]
  | some b =>
      obtain ⟨l, rfl⟩ := List.getLast?_eq_some_iff.mp hlast
      have hb : b ∈ l ++ [b] := by simp
      have hbe : b ≠ e := fun heq => hf (heq ▸ hb)
      obtain ⟨_, huf, haf⟩ := h.disjoint
      have hlast' : s.m_fifo_last = some b := h.last.trans hlast
      have hfirst : s.m_fifo_first.isNone = false := by
        rw [h.fifo.head]
        cases l <;> rfl
      have hcomm : Function.update (Function.update s.next b (some e)) e none =
          Function.update (Function.update s.next e none) b (some e) :=
        Function.update_comm hbe _ _ _
      have hchain : Chain (Function.update (Function.update s.next b (some e)) e none)
          s.m_fifo_first (l ++ [b] ++ [e]) := by
        rw [hcomm, List.append_assoc]
        exact h.fifo.snoc hf
      have hbu : b ∉ unused := fun hmem => huf b hmem hb
      have hba : b ∉ allocated := fun hmem => haf b hmem hb
      let t : FifoGeneric κ δ ρ τ := { s.setMask e (s.m_readerBitMask.setWidth 32) with
        m_fifo_last := some e
        m_lastPushed := some d }
      have hend : t.m_fifo_last = (l ++ [b] ++ [e]).getLast? := by
        rw [List.getLast?_concat]
      refine ⟨(t.setNext b (some e)).setNext e none, ?_,
        ⟨(h.unused.update hbu (some e)).update hu none,
          (h.allocated.update hba (some e)).update ha none, hchain, hend, hdistinct⟩,
        ⟨rfl, rfl, rfl, rfl⟩, rfl⟩
      simp [FifoGeneric.append, isEmpty, FifoGeneric.setMask, FifoGeneric.setNext, hfirst, hlast', t]

private theorem searchLink_found {p : Option κ} (h : Chain s.next p (l ++ previous :: e :: m)) :
    Returns (searchLink s e · p) (some previous) := by
  induction l generalizing p with
  | nil =>
      obtain ⟨rfl, hnext, _⟩ := h
      exact (returns_ok _).step fun fuel => by simp [searchLink, hnext]
  | cons a l ih =>
      obtain ⟨rfl, htail⟩ := h
      have hnext : s.next a ≠ some e := Chain.next_ne (p := some a) ⟨rfl, htail⟩
      exact (ih htail).step fun fuel => by simp [searchLink, hnext]

private theorem searchLink_absent {p : Option κ} (h : Chain s.next p l) (he : e ∉ l) :
    Returns (searchLink s e · p) none := by
  induction l generalizing p with
  | nil =>
      obtain rfl : p = none := h
      exact (returns_ok _).step fun fuel => rfl
  | cons a l ih =>
      obtain ⟨rfl, htail⟩ := h
      have hl : e ∉ l := fun hmem => he (List.mem_cons_of_mem a hmem)
      have hnext : s.next a ≠ some e := by
        rw [Chain.head htail]
        intro heq
        exact hl (List.mem_of_head? heq)
      exact (ih htail hl).step fun fuel => by simp [searchLink, hnext]

private theorem Stored.unlinkFirst (h : Stored s unused allocated (e :: fifo)) :
    Stored { s with
        m_fifo_first := s.next e
        m_fifo_last := if s.m_fifo_last = some e then none else s.m_fifo_last }
      unused allocated fifo ∧ e ∉ unused ++ allocated ++ fifo := by
  have hperm : (unused ++ allocated ++ e :: fifo).Perm (e :: (unused ++ allocated ++ fifo)) :=
    List.perm_middle
  have hnd := hperm.nodup_iff.mp h.distinct
  refine ⟨⟨h.unused, h.allocated, h.fifo.2, ?_, (List.nodup_cons.mp hnd).2⟩,
    (List.nodup_cons.mp hnd).1⟩
  have hlast := h.last
  have hef : e ∉ fifo := by
    intro hmem
    exact (List.nodup_cons.mp hnd).1 (List.mem_append_right _ hmem)
  show (if s.m_fifo_last = some e then none else s.m_fifo_last) = fifo.getLast?
  cases hl : fifo.getLast? with
  | none =>
      have hnil := List.getLast?_eq_none_iff.mp hl
      subst hnil
      rw [hlast]
      simp
  | some b =>
      have hb : b ∈ fifo := List.mem_of_getLast? hl
      have hbe : b ≠ e := fun heq => hef (heq ▸ hb)
      rw [hlast, List.getLast?_cons, hl]
      simp [hbe]

private theorem Stored.unlink (h : Stored s unused allocated (l ++ previous :: e :: m)) :
    Stored { s.setNext previous (s.next e) with
        m_fifo_last := if s.m_fifo_last = some e then some previous else s.m_fifo_last }
      unused allocated (l ++ previous :: m) ∧ e ∉ unused ++ allocated ++ (l ++ previous :: m) := by
  have hperm : (unused ++ allocated ++ (l ++ previous :: e :: m)).Perm
      (e :: (unused ++ allocated ++ (l ++ previous :: m))) := by
    rw [List.append_cons l previous (e :: m), List.append_cons l previous m, ← List.append_assoc,
      ← List.append_assoc, ← List.append_assoc (unused ++ allocated) (l ++ [previous]) m,
      ← List.append_assoc (unused ++ allocated) l [previous]]
    exact List.perm_middle
  have hnd := hperm.nodup_iff.mp h.distinct
  obtain ⟨hnot, hnd⟩ := List.nodup_cons.mp hnd
  have hp : previous ∈ l ++ previous :: e :: m := by simp
  obtain ⟨_, huf, haf⟩ := h.disjoint
  refine ⟨⟨?_, ?_, h.fifo.bypass, ?_, hnd⟩, hnot⟩
  · exact h.unused.update (fun hmem => huf previous hmem hp) _
  · exact h.allocated.update (fun hmem => haf previous hmem hp) _
  · show (if s.m_fifo_last = some e then some previous else s.m_fifo_last) = _
    have hlast := h.last
    cases hm : m.getLast? with
    | none =>
        have hnil := List.getLast?_eq_none_iff.mp hm
        subst hnil
        have he : s.m_fifo_last = some e := by simpa using hlast
        simp [he]
    | some b =>
        have hb : b ∈ m := List.mem_of_getLast? hm
        have hbe : b ≠ e := by
          intro heq
          apply hnot
          simp [← heq, hb]
        rw [hlast]
        simp [List.getLast?_append, List.getLast?_cons, hm, hbe]

theorem Stored.removeElement (h : Stored s unused allocated fifo) (he : e ∈ fifo) :
    ∃ t, Returns (FifoGeneric.removeElement · s e) t ∧
      Stored t (e :: unused) allocated (fifo.erase e) ∧ Untouched s t ∧
      t.expectedReadsBitMask = s.expectedReadsBitMask := by
  obtain ⟨l, m, rfl⟩ := List.append_of_mem he
  have hnd := h.fifo.nodup
  have hel : e ∉ l := fun hmem => (List.nodup_append.mp hnd).2.2 e hmem e List.mem_cons_self rfl
  rw [List.erase_append_right _ hel, List.erase_cons_head]
  cases hl : l.getLast? with
  | none =>
      have hnil := List.getLast?_eq_none_iff.mp hl
      subst hnil
      obtain ⟨hstored, hnot⟩ := h.unlinkFirst
      have hfirst : s.m_fifo_first = some e := h.fifo.1
      refine ⟨_, ?_, hstored.putUnused hnot, ⟨rfl, rfl, rfl, rfl⟩, rfl⟩
      refine (returns_ok _).congr fun fuel => ?_
      simp only [FifoGeneric.removeElement, hfirst, if_true]
      rfl
  | some previous =>
      obtain ⟨k, rfl⟩ := List.getLast?_eq_some_iff.mp hl
      have hfirst : s.m_fifo_first ≠ some e := by
        intro heq
        have hhead := h.fifo.head
        rw [heq] at hhead
        apply hel
        cases k with
        | nil => simpa using Option.some.inj hhead
        | cons a k => simp [Option.some.inj hhead]
      rw [List.append_assoc] at h
      have hsearch := searchLink_found h.fifo
      obtain ⟨hstored, hnot⟩ := Stored.unlink h
      rw [List.append_assoc]
      refine ⟨_, ?_, hstored.putUnused hnot, ⟨rfl, rfl, rfl, rfl⟩, rfl⟩
      simp only [FifoGeneric.removeElement, hfirst, if_false]
      exact hsearch.bind (returns_ok _)

theorem Stored.removeElement_absent (h : Stored s unused allocated fifo) (he : e ∉ fifo) :
    Fails (FifoGeneric.removeElement · s e) .assertion := by
  have hfirst : s.m_fifo_first ≠ some e := by
    rw [h.fifo.head]
    intro heq
    exact he (List.mem_of_head? heq)
  simp only [FifoGeneric.removeElement, hfirst, if_false]
  exact (searchLink_absent h.fifo he).bind_fails (fails_error _)

theorem Stored.pop (h : Stored s unused allocated (e :: fifo)) (hreaders : s.m_readers = none) :
    ∃ t, s.pop = (t, some (s.data e)) ∧ Stored t unused (e :: allocated) fifo ∧ Untouched s t ∧
      t.expectedReadsBitMask = s.expectedReadsBitMask := by
  have hfirst : s.m_fifo_first = some e := h.fifo.1
  obtain ⟨hunlinked, hnot⟩ := h.unlinkFirst
  have hlast : (if s.next e = none then none else s.m_fifo_last) =
      if s.m_fifo_last = some e then none else s.m_fifo_last := by
    have hheadnext := hunlinked.fifo.head
    have hl := hunlinked.last
    simp only at hheadnext hl
    rw [hl, hheadnext]
    cases fifo with
    | nil => simp
    | cons a l =>
        rw [if_neg (by simp), h.last]
        simp [List.getLast?_cons]
  refine ⟨_, ?_, hunlinked.putAllocated hnot, ⟨rfl, rfl, rfl, rfl⟩, rfl⟩
  rw [← hlast]
  simp only [FifoGeneric.pop, hfirst, hreaders, if_true]
  rfl

end TaskingFramework.FifoGeneric
