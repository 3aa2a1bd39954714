import TaskingFramework.Fifo.Storage
import TaskingFramework.Fifo.Recycle
import TaskingFramework.Foundation.BitMask
import Mathlib.Data.List.Induction

/-!
# When a FIFO shows its view

The chains hold the elements of the view, the bits of an element are those of the readers that await
it, and the pointers of a reader are the ends of its window.
-/

set_option linter.unusedSectionVars false

namespace TaskingFramework

open Foundation

variable {κ δ ρ τ : Type} [DecidableEq κ] [DecidableEq δ] [DecidableEq ρ] [DecidableEq τ]

/-- The bits of the readers with a property; a FIFO without readers has the first bit itself. -/
def Bits (readers : List ρ) (slot : ρ → Nat) (P : ρ → Prop) (i : Nat) : Prop :=
  if readers = [] then i = 0 else ∃ r ∈ readers, slot r = i ∧ P r

/-- The readers have the bits `slot`. -/
structure Marked (s : FifoGeneric κ δ ρ τ) (V : FifoView κ ρ) (slot : ρ → Nat) : Prop where
  id : ∀ r ∈ V.readers, (s.reader r).readerId = BitVec.twoPow 32 (slot r)
  lt : ∀ r ∈ V.readers, slot r < 8
  injective : ∀ r ∈ V.readers, ∀ a ∈ V.readers, slot r = slot a → r = a
  mask : ∀ i, s.m_readerBitMask.getLsbD i = true ↔ Bits V.readers slot (fun _ => True) i
  expected : ∀ e ∈ V.fifo, ∀ i,
    (s.expectedReadsBitMask e).getLsbD i = true ↔ Bits V.readers slot (V.Awaits e) i

/-- What the FIFO itself keeps of the view. -/
structure Kept (s : FifoGeneric κ δ ρ τ) (V : FifoView κ ρ) : Prop where
  valid : V.Valid
  awaited : V.Awaited
  stored : s.Stored V.unused V.allocated V.fifo
  fresh : ∀ e ∈ V.allocated, s.expectedReadsBitMask e = 1
  readers : Chain (fun r => (s.reader r).nextReader) s.m_readers V.readers
  attached : ∀ r, (s.reader r).fifo = true ↔ r ∈ V.readers
  marked : ∃ slot, Marked s V slot

/-- What a reader keeps of its window and of the elements that it holds. -/
structure Points (reader : FifoGenericReader κ ρ τ) (window held : List κ) : Prop where
  first : reader.fifo_first = window.head?
  last : window ≠ [] → reader.fifo_last = window.getLast?
  elements : reader.allocated_elements = held
  links : reader.unusedLinks + held.length = maximumFifoReaderLinks

structure Consistent (s : FifoGeneric κ δ ρ τ) (V : FifoView κ ρ) : Prop extends Kept s V where
  points : ∀ r, Points (s.reader r) (V.window r) (V.held r)

namespace FifoView

/-- Nothing is allocated or pushed yet and there are no readers. -/
def init (items : List κ) : FifoView κ ρ where
  unused := items.reverse
  allocated := []
  fifo := []
  readers := []
  window := fun _ => []
  behind := fun _ => []
  held := fun _ => []

private theorem valid_init {items : List κ} (h : items.Nodup) : (init items : FifoView κ ρ).Valid where
  distinct := by simpa [stock, init] using h
  readers := List.nodup_nil
  split := by simp [init]
  once := by simp [init]
  idle := by simp [init]

end FifoView

variable {s t : FifoGeneric κ δ ρ τ} {V W : FifoView κ ρ} {slot : ρ → Nat} {e f : κ} {r a : ρ}
  {P Q : ρ → Prop} {i : Nat}

theorem construct_unused (data : κ → δ) (task : ρ → τ) {items : List κ} (h : items.Nodup) :
    ∃ next, (FifoGeneric.construct data task items : FifoGeneric κ δ ρ τ) =
        { FifoGeneric.construct data task [] with next := next, m_unused := items.reverse.head? } ∧
      Chain next items.reverse.head? items.reverse := by
  induction items using List.reverseRecOn with
  | nil => exact ⟨fun _ => none, rfl, rfl⟩
  | append_singleton items e ih =>
      have hnd := List.nodup_append.mp h
      obtain ⟨next, hconstruct, hchain⟩ := ih hnd.1
      have he : e ∉ items.reverse := by
        intro hmem
        exact hnd.2.2 e (List.mem_reverse.mp hmem) e List.mem_cons_self rfl
      refine ⟨Function.update next e items.reverse.head?, ?_, ?_⟩
      · unfold FifoGeneric.construct at hconstruct ⊢
        rw [List.foldl_append, hconstruct]
        simp [FifoGeneric.setNext]
      · rw [List.reverse_append]
        exact hchain.push he

theorem construct_data (data : κ → δ) (task : ρ → τ) {items : List κ} (h : items.Nodup) :
    (FifoGeneric.construct data task items : FifoGeneric κ δ ρ τ).data = data := by
  obtain ⟨next, hconstruct, _⟩ := construct_unused (ρ := ρ) (τ := τ) data task h
  rw [hconstruct]
  rfl

theorem consistent_construct (data : κ → δ) (task : ρ → τ) {items : List κ} (h : items.Nodup) :
    Consistent (FifoGeneric.construct data task items) (FifoView.init items) := by
  obtain ⟨next, hconstruct, hchain⟩ := construct_unused (ρ := ρ) (τ := τ) data task h
  rw [hconstruct]
  have hbit : ∀ i, (1 : BitVec 8).getLsbD i = true ↔ i = 0 := by
    intro i
    have h1 : (1 : BitVec 8) = BitVec.twoPow 8 0 := rfl
    rw [h1, BitVec.getLsbD_twoPow]
    simpa using eq_comm
  refine ⟨⟨FifoView.valid_init h, fun hne => absurd rfl hne, ⟨hchain, rfl, rfl, rfl, ?_⟩,
    fun e he => absurd he List.not_mem_nil, rfl, ?_, fun _ => 0, ?_⟩, ?_⟩
  · exact (FifoView.valid_init (ρ := ρ) h).distinct
  · intro r
    simp [FifoView.init, FifoGeneric.construct, FifoGenericReader.init]
  · refine ⟨?_, ?_, ?_, ?_, ?_⟩
    · intro r hr
      exact absurd hr List.not_mem_nil
    · intro r hr
      exact absurd hr List.not_mem_nil
    · intro r hr
      exact absurd hr List.not_mem_nil
    · intro i
      rw [Bits, if_pos (show (FifoView.init items : FifoView κ ρ).readers = [] from rfl)]
      exact hbit i
    · intro e he
      exact absurd he List.not_mem_nil
  · intro r
    exact ⟨rfl, fun hne => absurd rfl hne, rfl, rfl⟩

theorem Bits.congr {readers : List ρ} (h : ∀ r ∈ readers, P r ↔ Q r) :
    Bits readers slot P i ↔ Bits readers slot Q i := by
  unfold Bits
  split
  · exact Iff.rfl
  · constructor
    · rintro ⟨r, hr, hs, hp⟩
      exact ⟨r, hr, hs, (h r hr).mp hp⟩
    · rintro ⟨r, hr, hs, hq⟩
      exact ⟨r, hr, hs, (h r hr).mpr hq⟩

theorem bits_of_mem {readers : List ρ} (hr : r ∈ readers) :
    Bits readers slot P i ↔ ∃ a ∈ readers, slot a = i ∧ P a := by
  rw [Bits, if_neg (List.ne_nil_of_mem hr)]

/-- The bit of a reader tells whether it awaits the element. -/
theorem Marked.expects (h : Marked s V slot) (hr : r ∈ V.readers) (he : e ∈ V.fifo) :
    s.expectedReadsBitMask e &&& (s.reader r).readerId ≠ 0 ↔ V.Awaits e r := by
  rw [h.id r hr, and_twoPow_ne_zero (Nat.lt_of_lt_of_le (h.lt r hr) (by decide)), h.expected e he,
    bits_of_mem hr]
  constructor
  · rintro ⟨a, ha, hslot, hawaits⟩
    obtain rfl := h.injective a ha r hr hslot
    exact hawaits
  · intro hawaits
    exact ⟨r, hr, rfl, hawaits⟩

theorem Marked.cleared (h : Marked s V slot) (hr : r ∈ V.readers) (he : e ∈ V.fifo) (hi : i < 32) :
    (s.expectedReadsBitMask e &&& ~~~(s.reader r).readerId).getLsbD i = true ↔
      ∃ a ∈ V.readers, slot a = i ∧ V.Awaits e a ∧ a ≠ r := by
  rw [h.id r hr, getLsbD_clear hi, h.expected e he, bits_of_mem hr]
  constructor
  · rintro ⟨⟨a, ha, hslot, hawaits⟩, hne⟩
    exact ⟨a, ha, hslot, hawaits, fun heq => hne (heq ▸ hslot.symm)⟩
  · rintro ⟨a, ha, hslot, hawaits, hne⟩
    refine ⟨⟨a, ha, hslot, hawaits⟩, ?_⟩
    intro heq
    exact hne (h.injective a ha r hr (hslot.trans heq))

theorem Marked.cleared_eq_zero (h : Marked s V slot) (hr : r ∈ V.readers) (he : e ∈ V.fifo) :
    s.expectedReadsBitMask e &&& ~~~(s.reader r).readerId = 0 ↔ ¬ V.Shared r e := by
  rw [← not_iff_not, not_not, ← ne_eq, mask_ne_zero_iff]
  constructor
  · rintro ⟨i, hi, hbit⟩
    obtain ⟨a, ha, _, hawaits, hne⟩ := (h.cleared hr he hi).mp hbit
    exact ⟨a, ha, hne, hawaits⟩
  · rintro ⟨a, ha, hne, hawaits⟩
    have hlt : slot a < 32 := Nat.lt_of_lt_of_le (h.lt a ha) (by decide)
    exact ⟨slot a, hlt, (h.cleared hr he hlt).mpr ⟨a, ha, rfl, hawaits, hne⟩⟩

/-- The same FIFO shows every view with the same elements and the same readers that await them. -/
theorem Marked.view (h : Marked s V slot) (hreaders : W.readers = V.readers)
    (hfifo : W.fifo = V.fifo) (hawaits : ∀ e a, W.Awaits e a ↔ V.Awaits e a) : Marked s W slot := by
  refine ⟨?_, ?_, ?_, ?_, ?_⟩
  · rw [hreaders]
    exact h.id
  · rw [hreaders]
    exact h.lt
  · rw [hreaders]
    exact h.injective
  · rw [hreaders]
    exact h.mask
  · rw [hreaders, hfifo]
    intro e he i
    rw [h.expected e he i]
    exact Bits.congr fun a _ => (hawaits e a).symm

theorem Kept.view (h : Kept s V) (hvalid : W.Valid) (hawaited : W.Awaited)
    (hunused : W.unused = V.unused) (hallocated : W.allocated = V.allocated)
    (hreaders : W.readers = V.readers) (hfifo : W.fifo = V.fifo)
    (hawaits : ∀ e a, W.Awaits e a ↔ V.Awaits e a) : Kept s W := by
  obtain ⟨slot, hmarked⟩ := h.marked
  refine ⟨hvalid, hawaited, ?_, ?_, ?_, ?_, slot, hmarked.view hreaders hfifo hawaits⟩
  · rw [hunused, hallocated, hfifo]
    exact h.stored
  · rw [hallocated]
    exact h.fresh
  · rw [hreaders]
    exact h.readers
  · rw [hreaders]
    exact h.attached

theorem Kept.setReader (h : Kept s V) {reader : FifoGenericReader κ ρ τ}
    (hnext : reader.nextReader = (s.reader r).nextReader) (hfifo : reader.fifo = (s.reader r).fifo)
    (hid : reader.readerId = (s.reader r).readerId) : Kept (s.setReader r reader) V := by
  have hlink : ∀ a, ((s.setReader r reader).reader a).nextReader = (s.reader a).nextReader := by
    intro a
    by_cases har : a = r
    · subst a
      simpa [FifoGeneric.setReader] using hnext
    · simp [FifoGeneric.setReader, har]
  have hflag : ∀ a, ((s.setReader r reader).reader a).fifo = (s.reader a).fifo := by
    intro a
    by_cases har : a = r
    · subst a
      simpa [FifoGeneric.setReader] using hfifo
    · simp [FifoGeneric.setReader, har]
  have hname : ∀ a, ((s.setReader r reader).reader a).readerId = (s.reader a).readerId := by
    intro a
    by_cases har : a = r
    · subst a
      simpa [FifoGeneric.setReader] using hid
    · simp [FifoGeneric.setReader, har]
  obtain ⟨slot, hmarked⟩ := h.marked
  refine ⟨h.valid, h.awaited, ?_, h.fresh, h.readers.congr fun a _ => hlink a, ?_, slot, ?_⟩
  · exact ⟨h.stored.unused, h.stored.allocated, h.stored.fifo, h.stored.last, h.stored.distinct⟩
  · intro a
    rw [hflag]
    exact h.attached a
  · refine ⟨?_, hmarked.lt, hmarked.injective, hmarked.mask, hmarked.expected⟩
    intro a ha
    rw [hname]
    exact hmarked.id a ha

end TaskingFramework
