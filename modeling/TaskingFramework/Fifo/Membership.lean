import TaskingFramework.Fifo.Readers

/-!
# The list of readers

Readers are looked up in the list of readers. A new reader gets the first free bit behind the first
one, unless it is the only reader, and becomes a reader of all elements in the FIFO.
-/

set_option linter.unusedSectionVars false

namespace TaskingFramework

open Foundation

variable {κ δ ρ τ : Type} [DecidableEq κ] [DecidableEq δ] [DecidableEq ρ] [DecidableEq τ]
  {s t : FifoGeneric κ δ ρ τ} {V : FifoView κ ρ} {slot : ρ → Nat} {r : ρ} {readers : List ρ}
  {p : Option ρ} {k i : Nat} {P : ρ → Prop} {l : List κ}

theorem searchReader_returns (h : Chain (fun r => (s.reader r).nextReader) p readers) :
    Returns (FifoGeneric.searchReader s r · p) (decide (r ∈ readers)) := by
  induction readers generalizing p with
  | nil =>
      obtain rfl : p = none := h
      exact (returns_ok _).step fun fuel => rfl
  | cons a readers ih =>
      obtain ⟨rfl, htail⟩ := h
      by_cases har : a = r
      · subst a
        refine (returns_ok _).step fun fuel => ?_
        simp [FifoGeneric.searchReader]
      · have hra : r ≠ a := fun heq => har heq.symm
        have hmem : decide (r ∈ a :: readers) = decide (r ∈ readers) := by simp [hra]
        rw [hmem]
        exact (ih htail).step fun fuel => by simp [FifoGeneric.searchReader, har]

theorem findReader_returns (task : τ) (h : Chain (fun r => (s.reader r).nextReader) p readers) :
    Returns (FifoGeneric.findReader s task · p)
      (readers.find? fun r => (s.reader r).readerTask = task) := by
  induction readers generalizing p with
  | nil =>
      obtain rfl : p = none := h
      exact (returns_ok _).step fun fuel => rfl
  | cons a readers ih =>
      obtain ⟨rfl, htail⟩ := h
      by_cases hat : (s.reader a).readerTask = task
      · refine (returns_ok _).step fun fuel => ?_
        simp [FifoGeneric.findReader, hat]
      · rw [List.find?_cons_of_neg (by simpa using hat)]
        exact (ih htail).step fun fuel => by simp [FifoGeneric.findReader, hat]

/-- The bit that a new reader gets. -/
def FirstFree (readers : List ρ) (mask : BitVec 8) (k : Nat) : Prop :=
  if readers = [] then k = 0
  else 1 ≤ k ∧ k < 8 ∧ mask.getLsbD k = false ∧ ∀ i, 1 ≤ i → i < k → mask.getLsbD i = true

/-- There is a bit for a new reader. -/
def FifoGeneric.HasFreeId (s : FifoGeneric κ δ ρ τ) : Prop :=
  s.m_readers = none ∨ ∃ i < 8, 1 ≤ i ∧ s.m_readerBitMask.getLsbD i = false

instance : Decidable s.HasFreeId := inferInstanceAs (Decidable (_ ∨ ∃ i < 8, _))

theorem exists_firstFree (hnone : s.m_readers = none ↔ readers = []) (hfree : s.HasFreeId) :
    ∃ k, FirstFree readers s.m_readerBitMask k := by
  unfold FirstFree
  by_cases hr : readers = []
  · exact ⟨0, by rw [if_pos hr]⟩
  · have hfree : ∃ i, i < 8 ∧ 1 ≤ i ∧ s.m_readerBitMask.getLsbD i = false := by
      rcases hfree with hempty | hfree
      · exact absurd (hnone.mp hempty) hr
      · exact hfree
    obtain ⟨hlt, hle, hbit⟩ := Nat.find_spec hfree
    refine ⟨Nat.find hfree, ?_⟩
    rw [if_neg hr]
    refine ⟨hle, hlt, hbit, ?_⟩
    intro i hi hik
    have hmin := Nat.find_min hfree hik
    by_contra hnot
    exact hmin ⟨by omega, hi, by simpa using hnot⟩

private theorem FirstFree.lt {mask : BitVec 8} (h : FirstFree readers mask k) : k < 8 := by
  unfold FirstFree at h
  split at h
  · omega
  · exact h.2.1

/-- The search of `associateReader` for the first free bit. -/
theorem freeReaderId_returns {mask : BitVec 32} {j : Nat} (hjk : j < k) (hk : k < 32)
    (hfree : mask.getLsbD k = false) (hset : ∀ i, j < i → i < k → mask.getLsbD i = true) :
    Returns (FifoGeneric.freeReaderId · (mask >>> j) (BitVec.twoPow 32 j)) (BitVec.twoPow 32 k) := by
  obtain ⟨n, rfl⟩ := Nat.exists_eq_add_of_lt hjk
  have hone : (1 : BitVec 32) = BitVec.twoPow 32 0 := rfl
  induction n generalizing j with
  | zero =>
      have hbit : mask >>> j >>> 1 &&& 1 = 0 := by
        by_contra hne
        rw [hone, ← ne_eq, and_twoPow_ne_zero (by decide), BitVec.getLsbD_ushiftRight,
          BitVec.getLsbD_ushiftRight] at hne
        simp [hfree] at hne
      refine (returns_ok _).step fun fuel => ?_
      rw [FifoGeneric.freeReaderId, twoPow_shiftLeft_one (by omega), if_neg (not_not.mpr hbit)]
  | succ n ih =>
      have hbit : mask >>> j >>> 1 &&& 1 ≠ 0 := by
        rw [hone, and_twoPow_ne_zero (by decide), BitVec.getLsbD_ushiftRight,
          BitVec.getLsbD_ushiftRight]
        exact hset (j + (1 + 0)) (by omega) (by omega)
      have hk' : j + 1 + n + 1 = j + (n + 1) + 1 := by omega
      have hrest := ih (j := j + 1) (by omega) (by omega) (hk' ▸ hfree)
        fun i hi hik => hset i (by omega) (by omega)
      rw [hk'] at hrest
      refine hrest.step fun fuel => ?_
      rw [FifoGeneric.freeReaderId, twoPow_shiftLeft_one (by omega), if_pos hbit,
        BitVec.shiftRight_add]

private theorem expectAll_returns {p : Option κ} (readerId : BitVec 32) (h : Chain s.next p l) :
    Returns (FifoGeneric.expectAll readerId · p s) { s with
      expectedReadsBitMask := fun e =>
        if e ∈ l then s.expectedReadsBitMask e ||| readerId else s.expectedReadsBitMask e } := by
  induction l generalizing p s with
  | nil =>
      obtain rfl : p = none := h
      refine (returns_ok _).step fun fuel => ?_
      simp [FifoGeneric.expectAll]
  | cons e l ih =>
      have hnd := Chain.nodup h
      obtain ⟨rfl, htail⟩ := h
      have hrest := ih (s := s.setMask e (s.expectedReadsBitMask e ||| readerId)) htail
      have hmask : (fun f => if f ∈ l then
            (s.setMask e (s.expectedReadsBitMask e ||| readerId)).expectedReadsBitMask f ||| readerId
          else (s.setMask e (s.expectedReadsBitMask e ||| readerId)).expectedReadsBitMask f) =
          fun f => if f ∈ e :: l then s.expectedReadsBitMask f ||| readerId
            else s.expectedReadsBitMask f := by
        funext f
        by_cases hfe : f = e
        · subst hfe
          simp [FifoGeneric.setMask, (List.nodup_cons.mp hnd).1]
        · simp [FifoGeneric.setMask, hfe]
      rw [hmask] at hrest
      exact hrest.step fun fuel => rfl

private theorem bits_cons (hr : r ∉ readers) :
    Bits (r :: readers) (Function.update slot r k) P i ↔
      (i = k ∧ P r) ∨ (readers ≠ [] ∧ Bits readers slot P i) := by
  rw [bits_of_mem List.mem_cons_self]
  constructor
  · rintro ⟨a, ha, hslot, hp⟩
    rcases List.mem_cons.mp ha with rfl | ha
    · rw [Function.update_self] at hslot
      exact Or.inl ⟨hslot.symm, hp⟩
    · have har : a ≠ r := fun heq => hr (heq ▸ ha)
      rw [Function.update_of_ne har] at hslot
      exact Or.inr ⟨List.ne_nil_of_mem ha, (bits_of_mem ha).mpr ⟨a, ha, hslot, hp⟩⟩
  · rintro (⟨rfl, hp⟩ | ⟨hne, hbits⟩)
    · exact ⟨r, List.mem_cons_self, Function.update_self .., hp⟩
    · rw [Bits, if_neg hne] at hbits
      obtain ⟨a, ha, hslot, hp⟩ := hbits
      have har : a ≠ r := fun heq => hr (heq ▸ ha)
      exact ⟨a, List.mem_cons_of_mem r ha, (Function.update_of_ne har _ _).trans hslot, hp⟩

theorem newReaderId_returns (hnone : s.m_readers = none ↔ readers = [])
    (hk : FirstFree readers s.m_readerBitMask k) :
    Returns (FifoGeneric.newReaderId · s) (BitVec.twoPow 32 k) := by
  unfold FifoGeneric.newReaderId
  unfold FirstFree at hk
  by_cases hnil : readers = []
  · rw [if_pos hnil] at hk
    subst hk
    simp only [hnone.mpr hnil, if_true]
    exact returns_ok _
  · rw [if_neg hnil] at hk
    obtain ⟨hpos, hlt, hbit, hset⟩ := hk
    simp only [mt hnone.mp hnil, if_false]
    have hwide : ∀ i, i < 32 → (s.m_readerBitMask.setWidth 32).getLsbD i =
        s.m_readerBitMask.getLsbD i := by
      intro i hi
      rw [BitVec.getLsbD_setWidth, decide_eq_true hi, Bool.true_and]
    have hfree := freeReaderId_returns hpos (by omega) ((hwide k (by omega)).trans hbit)
      fun i hi hik => (hwide i (by omega)).trans (hset i hi hik)
    rw [BitVec.ushiftRight_zero] at hfree
    exact hfree

/-- The FIFO with one more reader, which expects the elements `l`. -/
def FifoGeneric.associated (s : FifoGeneric κ δ ρ τ) (r : ρ) (readerId : BitVec 32) (l : List κ) :
    FifoGeneric κ δ ρ τ :=
  { s.setReader r { s.reader r with
      nextReader := s.m_readers
      fifo := true
      readerId := readerId } with
    m_readers := some r
    m_readerBitMask := if s.m_readers = none then s.m_readerBitMask
      else (s.m_readerBitMask.setWidth 32 ||| readerId).setWidth 8
    expectedReadsBitMask := fun e =>
      if e ∈ l then s.expectedReadsBitMask e ||| readerId else s.expectedReadsBitMask e }

theorem associateReader_returns {readerId : BitVec 32}
    (hreaders : Chain (fun a => (s.reader a).nextReader) s.m_readers readers)
    (hfifo : Chain s.next s.m_fifo_first l) (hr : r ∉ readers)
    (hid : Returns (FifoGeneric.newReaderId · s) readerId) :
    Returns (FifoGeneric.associateReader · s r) (s.associated r readerId l) := by
  have hsearch := searchReader_returns (r := r) hreaders
  simp only [hr, decide_false] at hsearch
  let mask : BitVec 8 := if s.m_readers = none then s.m_readerBitMask
    else (s.m_readerBitMask.setWidth 32 ||| readerId).setWidth 8
  let u : FifoGeneric κ δ ρ τ :=
    { s.setReader r { s.reader r with
        nextReader := s.m_readers
        fifo := true
        readerId := readerId } with
      m_readers := some r
      m_readerBitMask := mask }
  have hall : Returns (FifoGeneric.expectAll readerId · u.m_fifo_first u)
      (s.associated r readerId l) := expectAll_returns readerId hfifo
  apply hsearch.bind
  simp only [Bool.false_eq_true, if_false]
  exact hid.bind hall

private theorem associated_reader_of_ne {readerId : BitVec 32} {a : ρ} (ha : a ≠ r) :
    (s.associated r readerId l).reader a = s.reader a := by
  simp [FifoGeneric.associated, FifoGeneric.setReader, ha]

theorem associated_readerId {readerId : BitVec 32} (a : ρ) :
    ((s.associated r readerId l).reader a).readerId =
      if a = r then readerId else (s.reader a).readerId := by
  by_cases har : a = r
  · subst a
    simp [FifoGeneric.associated, FifoGeneric.setReader]
  · rw [associated_reader_of_ne har, if_neg har]

theorem associated_readers {readerId : BitVec 32}
    (h : Chain (fun a => (s.reader a).nextReader) s.m_readers readers) (hr : r ∉ readers) :
    Chain (fun a => ((s.associated r readerId l).reader a).nextReader)
      (s.associated r readerId l).m_readers (r :: readers) := by
  have hlink : (fun a => ((s.associated r readerId l).reader a).nextReader) =
      Function.update (fun a => (s.reader a).nextReader) r s.m_readers := by
    funext a
    by_cases har : a = r
    · subst a
      simp [FifoGeneric.associated, FifoGeneric.setReader]
    · rw [associated_reader_of_ne har, Function.update_of_ne har]
  rw [hlink]
  exact h.push hr

private theorem getLsbD_insert_byte (mask : BitVec 8) (hk : k < 8) :
    ((mask.setWidth 32 ||| BitVec.twoPow 32 k).setWidth 8).getLsbD i = true ↔
      mask.getLsbD i = true ∨ i = k := by
  rw [BitVec.getLsbD_setWidth, Bool.and_eq_true, decide_eq_true_iff,
    getLsbD_insert (Nat.lt_of_lt_of_le hk (by decide)), BitVec.getLsbD_setWidth, Bool.and_eq_true,
    decide_eq_true_iff]
  constructor
  · rintro ⟨_, ⟨_, hbit⟩ | rfl⟩
    · exact Or.inl hbit
    · exact Or.inr rfl
  · rintro (hbit | rfl)
    · have hlt := BitVec.lt_of_getLsbD hbit
      exact ⟨hlt, Or.inl ⟨by omega, hbit⟩⟩
    · exact ⟨hk, Or.inr rfl⟩

theorem Marked.associate (h : Marked s V slot) (hvalid : V.Valid) (hr : r ∉ V.readers)
    (hk : FirstFree V.readers s.m_readerBitMask k)
    (hid : ∀ a, (t.reader a).readerId =
      if a = r then BitVec.twoPow 32 k else (s.reader a).readerId)
    (hmask : ∀ i, t.m_readerBitMask.getLsbD i = true ↔ s.m_readerBitMask.getLsbD i = true ∨ i = k)
    (hexpected : ∀ e ∈ V.fifo,
      t.expectedReadsBitMask e = s.expectedReadsBitMask e ||| BitVec.twoPow 32 k) :
    Marked t (V.associate r) (Function.update slot r k) := by
  have hreaders : (V.associate r).readers = r :: V.readers := rfl
  have hne : ∀ a ∈ V.readers, a ≠ r := fun a ha heq => hr (heq ▸ ha)
  have hslot : ∀ a ∈ V.readers, Function.update slot r k a = slot a :=
    fun a ha => Function.update_of_ne (hne a ha) _ _
  have hself : Function.update slot r k r = k := Function.update_self ..
  have hlt : k < 8 := hk.lt
  have hfree : ∀ a ∈ V.readers, slot a ≠ k := by
    intro a ha heq
    have hset := (h.mask k).mpr ((bits_of_mem ha).mpr ⟨a, ha, heq, trivial⟩)
    rw [FirstFree, if_neg (List.ne_nil_of_mem ha)] at hk
    rw [hk.2.2.1] at hset
    exact Bool.false_ne_true hset
  -- the bit of a FIFO without readers becomes the one of its first reader
  have hbits : ∀ (P : ρ → Prop) i, P r → (Bits V.readers slot P i ∨ i = k ↔
      Bits (r :: V.readers) (Function.update slot r k) P i) := by
    intro P i hp
    rw [bits_cons hr]
    by_cases hnil : V.readers = []
    · rw [FirstFree, if_pos hnil] at hk
      rw [Bits, if_pos hnil]
      constructor
      · rintro (hi | hi)
        · exact Or.inl ⟨hi.trans hk.symm, hp⟩
        · exact Or.inl ⟨hi, hp⟩
      · rintro (⟨hi, _⟩ | ⟨hnot, _⟩)
        · exact Or.inr hi
        · exact absurd hnil hnot
    · tauto
  refine ⟨?_, ?_, ?_, ?_, ?_⟩
  · intro a ha
    rw [hid]
    rcases List.mem_cons.mp ha with rfl | ha
    · rw [if_pos rfl, hself]
    · rw [if_neg (hne a ha), hslot a ha]
      exact h.id a ha
  · intro a ha
    rcases List.mem_cons.mp ha with rfl | ha
    · rw [hself]
      exact hlt
    · rw [hslot a ha]
      exact h.lt a ha
  · intro a ha b hb heq
    rcases List.mem_cons.mp ha with har | ha'
    · rcases List.mem_cons.mp hb with hbr | hb'
      · rw [har, hbr]
      · rw [har, hself, hslot b hb'] at heq
        exact absurd heq.symm (hfree b hb')
    · rcases List.mem_cons.mp hb with hbr | hb'
      · rw [hbr, hself, hslot a ha'] at heq
        exact absurd heq (hfree a ha')
      · rw [hslot a ha', hslot b hb'] at heq
        exact h.injective a ha' b hb' heq
  · intro i
    rw [hmask, h.mask, hreaders]
    exact hbits (fun _ => True) i trivial
  · intro e he i
    have hawaits : (V.associate r).Awaits e r := by
      rw [FifoView.associate_awaits hvalid hr, if_pos rfl]
      exact he
    rw [hexpected e he, getLsbD_insert (Nat.lt_of_lt_of_le hlt (by decide)), h.expected e he,
      hreaders, ← hbits ((V.associate r).Awaits e) i hawaits]
    have hsame : Bits V.readers slot (V.Awaits e) i ↔
        Bits V.readers slot ((V.associate r).Awaits e) i := by
      apply Bits.congr
      intro a ha
      rw [FifoView.associate_awaits hvalid hr, if_neg (hne a ha)]
    rw [hsame]

theorem Consistent.associateReader_again (h : Consistent s V) (hr : r ∈ V.readers) :
    Returns (FifoGeneric.associateReader · s r) s := by
  have hsearch := searchReader_returns (r := r) h.readers
  simp only [hr, decide_true] at hsearch
  exact hsearch.bind (returns_ok s)

theorem Marked.associated (h : Marked s V slot) (hnone : s.m_readers = none ↔ V.readers = [])
    (hk : FirstFree V.readers s.m_readerBitMask k) (i : Nat) :
    (s.associated r (BitVec.twoPow 32 k) l).m_readerBitMask.getLsbD i = true ↔
      s.m_readerBitMask.getLsbD i = true ∨ i = k := by
  unfold FirstFree at hk
  by_cases hnil : V.readers = []
  · rw [if_pos hnil] at hk
    have hbit := h.mask i
    rw [Bits, if_pos hnil] at hbit
    simp only [FifoGeneric.associated, if_pos (hnone.mpr hnil), hbit, hk, or_self]
  · rw [if_neg hnil] at hk
    simp only [FifoGeneric.associated, if_neg (mt hnone.mp hnil)]
    exact getLsbD_insert_byte _ hk.2.1

theorem Consistent.associateReader (h : Consistent s V) (hr : r ∉ V.readers)
    (hk : FirstFree V.readers s.m_readerBitMask k) :
    ∃ t, Returns (FifoGeneric.associateReader · s r) t ∧ Consistent t (V.associate r) ∧
      s.SameSetup t ∧
      ∀ i, t.m_readerBitMask.getLsbD i = true ↔ s.m_readerBitMask.getLsbD i = true ∨ i = k := by
  obtain ⟨slot, hmarked⟩ := h.marked
  have hid := newReaderId_returns h.m_readers_eq_none hk
  have hbits := hmarked.associated (r := r) (l := V.fifo) h.m_readers_eq_none hk
  refine ⟨_, associateReader_returns h.readers h.stored.fifo hr hid, ⟨⟨h.valid.associate hr,
    FifoView.Awaited.associate h.valid hr, ?_, ?_, associated_readers h.readers hr, ?_,
    Function.update slot r k, ?_⟩, ?_⟩, ⟨rfl, ?_⟩, hbits⟩
  · exact ⟨h.stored.unused, h.stored.allocated, h.stored.fifo, h.stored.last, h.stored.distinct⟩
  · intro e he
    have hnot : e ∉ V.fifo := h.stored.disjoint.2.2 e he
    show (if e ∈ V.fifo then _ else s.expectedReadsBitMask e) = 1
    rw [if_neg hnot]
    exact h.fresh e he
  · intro a
    have hmem : a ∈ (V.associate r).readers ↔ a = r ∨ a ∈ V.readers := List.mem_cons
    rw [hmem]
    by_cases har : a = r
    · subst a
      simp [FifoGeneric.associated, FifoGeneric.setReader]
    · rw [associated_reader_of_ne har, h.attached a]
      simp [har]
  · refine hmarked.associate h.valid hr hk associated_readerId hbits ?_
    intro e he
    show (if e ∈ V.fifo then s.expectedReadsBitMask e ||| _ else _) = _
    rw [if_pos he]
  · intro a
    show Points _ (V.window a) (V.held a)
    have hpoints := h.points a
    by_cases har : a = r
    · subst a
      simp only [FifoGeneric.associated, FifoGeneric.setReader, Function.update_self]
      exact ⟨hpoints.first, hpoints.last, hpoints.elements, hpoints.links⟩
    · rw [associated_reader_of_ne har]
      exact hpoints
  · intro a
    by_cases har : a = r
    · subst a
      simp [FifoGeneric.associated, FifoGeneric.setReader]
    · rw [associated_reader_of_ne har]

end TaskingFramework
