import TaskingFramework.Fifo.Partition

/-!
# A reader leaves

`releaseReader` releases what the reader has popped and what it has not read, and takes it out of the
list of readers. It also clears the pointer to the last element, so the FIFO stays in order only where
nothing is left in it.
-/

set_option linter.unusedSectionVars false

namespace TaskingFramework

open Foundation

variable {κ δ ρ τ : Type} [DecidableEq κ] [DecidableEq δ] [DecidableEq ρ] [DecidableEq τ]
  {s t : FifoGeneric κ δ ρ τ} {V W : FifoView κ ρ} {slot : ρ → Nat} {e : κ} {r : ρ} {d : δ}
  {l x : List κ} {k m : List ρ}

private theorem Kept.releaseUnread (h : Kept s V) (hr : r ∈ V.readers) (hfifo : V.fifo = x ++ l)
    (hin : V.InOrder r l) :
    ∃ t, Returns (FifoGeneric.releaseUnread r · l.head? s) t ∧ Kept t (V.releaseAll r l) ∧
      s.Untouched t := by
  induction l generalizing s V x with
  | nil =>
      refine ⟨s, (returns_ok s).step fun fuel => rfl, h, rfl, rfl, rfl, rfl⟩
  | cons e l ih =>
      obtain ⟨hmem, hfront, hrest⟩ := hin
      obtain ⟨s', hret, h', huntouched⟩ := h.releaseElement hr hmem hfront
      have hr' : r ∈ (V.releaseElement r e).readers := FifoView.mem_releaseElement_readers.mpr hr
      have hnext : s.next e = l.head? := by
        have hchain := h.stored.fifo
        rw [hfifo] at hchain
        exact hchain.next_eq
      have hl : ∀ f ∈ l, f ≠ e := by
        intro f hf heq
        have hnd := h.valid.fifo_nodup
        rw [hfifo] at hnd
        exact (List.nodup_cons.mp (List.nodup_append.mp hnd).2.1).1 (heq ▸ hf)
      have hfifo' : (V.releaseElement r e).fifo =
          (x ++ [e]).filter (fun f => f ≠ e ∨ V.Shared r e) ++ l := by
        have hkeep : l.filter (fun f => f ≠ e ∨ V.Shared r e) = l := by
          rw [List.filter_eq_self]
          intro f hf
          simpa using Or.inl (hl f hf)
        rw [h.valid.releaseElement_fifo hr, hfifo, List.append_cons, List.filter_append, hkeep]
      obtain ⟨t, hloop, ht, huntouched'⟩ := ih h' hr' hfifo' hrest
      refine ⟨t, ?_, ht, huntouched.trans huntouched'⟩
      have hbody := hret.bind hloop
      rw [← hnext] at hbody
      exact hbody.step fun fuel => rfl

private theorem unlinkReader_returns {b : ρ} {p : Option ρ}
    (h : Chain (fun a => (s.reader a).nextReader) p (k ++ b :: r :: m)) :
    Returns (FifoGeneric.unlinkReader s r · p)
      ({ s.setReader b { s.reader b with nextReader := (s.reader r).nextReader } with
          m_readerBitMask :=
            (s.m_readerBitMask.setWidth 32 &&& ~~~(s.reader r).readerId).setWidth 8 }.setReader r
        { s.reader r with nextReader := none }) := by
  induction k generalizing p with
  | nil =>
      have hnd := Chain.nodup h
      have hrb : r ≠ b := fun heq => by simp [heq] at hnd
      obtain ⟨rfl, hnext, _⟩ := h
      refine (returns_ok _).step fun fuel => ?_
      simp only [FifoGeneric.unlinkReader, hnext, if_true]
      simp [FifoGeneric.setReader, Function.update_of_ne hrb]
  | cons a k ih =>
      have hnext : (s.reader a).nextReader ≠ some r := Chain.next_ne h
      obtain ⟨rfl, htail⟩ := h
      exact (ih htail).step fun fuel => by simp [FifoGeneric.unlinkReader, hnext]

theorem unlinkReader_absent {p : Option ρ}
    (h : Chain (fun a => (s.reader a).nextReader) p m) (hr : r ∉ m) :
    Returns (FifoGeneric.unlinkReader s r · p) s := by
  induction m generalizing p with
  | nil =>
      obtain rfl : p = none := h
      exact (returns_ok _).step fun fuel => rfl
  | cons a m ih =>
      obtain ⟨rfl, htail⟩ := h
      have hm : r ∉ m := fun hmem => hr (List.mem_cons_of_mem a hmem)
      have hhead : (s.reader a).nextReader = m.head? := Chain.head htail
      have hnext : (s.reader a).nextReader ≠ some r := by
        rw [hhead]
        intro heq
        exact hm (List.mem_of_head? heq)
      exact (ih htail hm).step fun fuel => by simp [FifoGeneric.unlinkReader, hnext]

private theorem getLsbD_clear_byte (mask : BitVec 8) (j i : Nat) :
    ((mask.setWidth 32 &&& ~~~BitVec.twoPow 32 j).setWidth 8).getLsbD i = true ↔
      mask.getLsbD i = true ∧ i ≠ j := by
  rw [BitVec.getLsbD_setWidth, Bool.and_eq_true, decide_eq_true_iff]
  constructor
  · rintro ⟨hlt, hbit⟩
    obtain ⟨hbit, hne⟩ := (getLsbD_clear (by omega)).mp hbit
    rw [BitVec.getLsbD_setWidth, Bool.and_eq_true] at hbit
    exact ⟨hbit.2, hne⟩
  · rintro ⟨hbit, hne⟩
    have hlt := BitVec.lt_of_getLsbD hbit
    refine ⟨hlt, (getLsbD_clear (by omega)).mpr ⟨?_, hne⟩⟩
    rw [BitVec.getLsbD_setWidth, Bool.and_eq_true, decide_eq_true_iff]
    exact ⟨by omega, hbit⟩

/-- The bits of the readers without one of them. -/
def clearedMask (readers : List ρ) (mask : BitVec 8) (readerId : BitVec 32) : BitVec 8 :=
  if readers = [] then 1 else (mask.setWidth 32 &&& ~~~readerId).setWidth 8

theorem Marked.detach (h : Marked s W slot) (hvalid : W.Valid) (hawaited : W.Awaited)
    (hr : r ∈ W.readers) (hnone : ∀ f, ¬ W.Awaits f r)
    (hid : ∀ a, (t.reader a).readerId = (s.reader a).readerId)
    (hmasks : t.expectedReadsBitMask = s.expectedReadsBitMask)
    (hmask : t.m_readerBitMask =
      clearedMask (W.readers.erase r) s.m_readerBitMask (s.reader r).readerId) :
    Marked t { W with readers := W.readers.erase r } slot := by
  have hmem : ∀ a, a ∈ W.readers.erase r ↔ a ≠ r ∧ a ∈ W.readers :=
    fun a => hvalid.readers.mem_erase_iff
  refine ⟨?_, ?_, ?_, ?_, ?_⟩
  · intro a ha
    rw [hid]
    exact h.id a ((hmem a).mp ha).2
  · intro a ha
    exact h.lt a ((hmem a).mp ha).2
  · intro a ha b hb
    exact h.injective a ((hmem a).mp ha).2 b ((hmem b).mp hb).2
  · intro i
    show t.m_readerBitMask.getLsbD i = true ↔ Bits (W.readers.erase r) slot (fun _ => True) i
    rw [hmask, clearedMask, Bits]
    split
    · have h1 : (1 : BitVec 8) = BitVec.twoPow 8 0 := rfl
      rw [h1, BitVec.getLsbD_twoPow]
      simpa using eq_comm
    · rw [h.id r hr, getLsbD_clear_byte, h.mask, bits_of_mem hr]
      constructor
      · rintro ⟨⟨a, ha, hslot, _⟩, hne⟩
        exact ⟨a, (hmem a).mpr ⟨fun heq => hne (heq ▸ hslot.symm), ha⟩, hslot, trivial⟩
      · rintro ⟨a, ha, hslot, _⟩
        obtain ⟨hne, ha⟩ := (hmem a).mp ha
        refine ⟨⟨a, ha, hslot, trivial⟩, ?_⟩
        intro heq
        exact hne (h.injective a ha r hr (hslot.trans heq))
  · intro e he i
    obtain ⟨b, hb, hawaits⟩ := hawaited (List.ne_nil_of_mem hr) e he
    have hbr : b ≠ r := fun heq => hnone e (heq ▸ hawaits)
    have hb' : b ∈ W.readers.erase r := (hmem b).mpr ⟨hbr, hb⟩
    show (t.expectedReadsBitMask e).getLsbD i = true ↔ Bits (W.readers.erase r) slot (W.Awaits e) i
    rw [hmasks, h.expected e he, bits_of_mem hb, bits_of_mem hb']
    constructor
    · rintro ⟨a, ha, hslot, hawaits⟩
      exact ⟨a, (hmem a).mpr ⟨fun heq => hnone e (heq ▸ hawaits), ha⟩, hslot, hawaits⟩
    · rintro ⟨a, ha, hslot, hawaits⟩
      exact ⟨a, ((hmem a).mp ha).2, hslot, hawaits⟩

/-- The reader that `releaseReader` leaves behind. -/
def leftReader (s : FifoGeneric κ δ ρ τ) (r : ρ) : FifoGenericReader κ ρ τ :=
  { s.reader r with fifo_first := none, fifo := false }

/-- The reader is out of the list of readers, and only the list and the reader have changed. -/
structure Detached (s t : FifoGeneric κ δ ρ τ) (r : ρ) (readers : List ρ) : Prop where
  chain : Chain (fun a => (t.reader a).nextReader) t.m_readers (readers.erase r)
  mask : t.m_readerBitMask = clearedMask (readers.erase r) s.m_readerBitMask (s.reader r).readerId
  reader : ∀ a, t.reader a =
    { (if a = r then leftReader s r else s.reader a) with nextReader := (t.reader a).nextReader }
  stored : ∀ {u a q}, s.Stored u a q → t.Stored u a q
  masks : t.expectedReadsBitMask = s.expectedReadsBitMask
  data : t.data = s.data

private theorem detached_head (h : Chain (fun a => (s.reader a).nextReader) s.m_readers (r :: m)) :
    Detached s { s.setReader r (leftReader s r) with
      m_readers := (s.reader r).nextReader
      m_readerBitMask := clearedMask m s.m_readerBitMask (s.reader r).readerId } r (r :: m) := by
  have herase : (r :: m).erase r = m := List.erase_cons_head ..
  have hr : r ∉ m := (List.nodup_cons.mp (Chain.nodup h)).1
  refine ⟨?_, ?_, ?_, fun h => ⟨h.unused, h.allocated, h.fifo, h.last, h.distinct⟩, rfl, rfl⟩
  · rw [herase]
    apply Chain.congr h.2
    intro a ha
    have har : a ≠ r := fun heq => hr (heq ▸ ha)
    show (Function.update s.reader r (leftReader s r) a).nextReader = (s.reader a).nextReader
    rw [Function.update_of_ne har]
  · rw [herase]
  · intro a
    by_cases har : a = r
    · subst a
      simp [FifoGeneric.setReader]
    · simp [FifoGeneric.setReader, har]

private theorem detached_behind {b : ρ}
    (h : Chain (fun a => (s.reader a).nextReader) s.m_readers (k ++ b :: r :: m)) :
    Detached s
      ({ (s.setReader r (leftReader s r)).setReader b
            { s.reader b with nextReader := (s.reader r).nextReader } with
          m_readerBitMask :=
            (s.m_readerBitMask.setWidth 32 &&& ~~~(s.reader r).readerId).setWidth 8 }.setReader r
        { leftReader s r with nextReader := none }) r (k ++ b :: r :: m) := by
  have hnd := Chain.nodup h
  have hrb : b ≠ r := by
    rintro rfl
    exact (List.nodup_cons.mp (List.nodup_append.mp hnd).2.1).1 List.mem_cons_self
  have hrk : r ∉ k := by
    intro hmem
    exact (List.nodup_append.mp hnd).2.2 r hmem r (by simp) rfl
  have herase : (k ++ b :: r :: m).erase r = k ++ b :: m := by
    rw [List.erase_append_right _ hrk, List.erase_cons_tail (by simpa using hrb),
      List.erase_cons_head]
  have hrest : r ∉ k ++ b :: m := by
    rw [← herase]
    exact hnd.not_mem_erase
  refine ⟨?_, ?_, ?_, fun h => ⟨h.unused, h.allocated, h.fifo, h.last, h.distinct⟩, rfl, rfl⟩
  · rw [herase]
    have hchain := Chain.update (Chain.bypass h) hrest none
    refine Chain.congr hchain fun a _ => ?_
    by_cases har : a = r
    · subst a
      simp [FifoGeneric.setReader]
    · by_cases hab : a = b
      · subst a
        simp [FifoGeneric.setReader, har]
      · simp [FifoGeneric.setReader, har, hab]
  · rw [herase, clearedMask, if_neg (by simp)]
    rfl
  · intro a
    by_cases har : a = r
    · subst a
      simp [FifoGeneric.setReader]
    · by_cases hab : a = b
      · subst a
        simp [FifoGeneric.setReader, har]
      · simp [FifoGeneric.setReader, har, hab]

private theorem Detached.reader_of_ne (h : Detached s t r k) {a : ρ} (ha : a ≠ r) :
    t.reader a = { s.reader a with nextReader := (t.reader a).nextReader } := by
  have hreader := h.reader a
  rw [if_neg ha] at hreader
  exact hreader

private theorem Detached.reader_self (h : Detached s t r k) :
    t.reader r = { leftReader s r with nextReader := (t.reader r).nextReader } := by
  have hreader := h.reader r
  rw [if_pos rfl] at hreader
  exact hreader

private theorem Detached.sameSetup (h : Detached s t r k) : s.SameSetup t := by
  refine ⟨h.data, fun a => ?_⟩
  by_cases har : a = r
  · subst a
    rw [h.reader_self]
    rfl
  · rw [h.reader_of_ne har]

theorem Detached.readerId (h : Detached s t r k) (a : ρ) :
    (t.reader a).readerId = (s.reader a).readerId := by
  by_cases har : a = r
  · subst a
    rw [h.reader_self]
    rfl
  · rw [h.reader_of_ne har]

private theorem Detached.kept (h : Detached s t r W.readers) (hkept : Kept s W) (hr : r ∈ W.readers)
    (hnone : ∀ f, ¬ W.Awaits f r) (hvalid : FifoView.Valid { W with readers := W.readers.erase r })
    (hawaited : FifoView.Awaited { W with readers := W.readers.erase r }) :
    Kept t { W with readers := W.readers.erase r } := by
  obtain ⟨slot, hmarked⟩ := hkept.marked
  refine ⟨hvalid, hawaited, h.stored hkept.stored, ?_, h.chain, ?_, slot, ?_⟩
  · intro e he
    rw [h.masks]
    exact hkept.fresh e he
  · intro a
    show (t.reader a).fifo = true ↔ a ∈ W.readers.erase r
    rw [hkept.valid.readers.mem_erase_iff]
    by_cases har : a = r
    · subst a
      rw [h.reader_self]
      simp [leftReader]
    · rw [h.reader_of_ne har]
      simpa [har] using hkept.attached a
  · exact hmarked.detach hkept.valid hkept.awaited hr hnone h.readerId h.masks h.mask

private theorem Consistent.unread_start (h : Consistent s V) (hr : r ∈ V.readers)
    (hheld : V.held r = []) :
    ∃ x l, V.fifo = x ++ l ∧ V.InOrder r l ∧ V.releaseAll r l = V.releaseAll r (V.unread r) ∧
      l.head? = if (s.reader r).fifo_first = none then s.m_fifo_first
        else (s.reader r).fifo_first := by
  obtain ⟨x, hx, _⟩ := h.valid.split r hr
  have hunread := h.valid.inOrder_unread hr rfl
  have hfirst := (h.points r).first
  cases hwindow : V.window r with
  | nil =>
      rw [hwindow, List.head?_nil] at hfirst
      have hnone : ∀ e ∈ x, e ∈ V.fifo ∧ ¬ V.Awaits e r := by
        intro e he
        refine ⟨hx ▸ List.mem_append_left _ he, ?_⟩
        rintro (hmem | hmem)
        · rw [hheld] at hmem
          exact List.not_mem_nil hmem
        · have hnd := h.valid.fifo_nodup
          rw [hx] at hnd
          exact (List.nodup_append.mp hnd).2.2 e he e hmem rfl
      obtain ⟨hsame, hin⟩ := h.valid.releaseAll_of_not_awaits h.awaited hr hnone
      refine ⟨[], V.fifo, rfl, ?_, ?_, ?_⟩
      · rw [hx]
        exact hin.append (by rw [hsame]; exact hunread)
      · rw [hx, FifoView.releaseAll_append, hsame]
      · rw [if_pos hfirst, h.stored.fifo.head]
  | cons e w =>
      rw [hwindow] at hfirst
      have hne : (s.reader r).fifo_first ≠ none := by simp [hfirst]
      refine ⟨x, V.unread r, hx, hunread, rfl, ?_⟩
      rw [if_neg hne, hfirst, FifoView.unread, hwindow]
      rfl

theorem detach_returns {readers : List ρ}
    (h : Chain (fun a => (s.reader a).nextReader) s.m_readers readers) (hr : r ∈ readers)
    {u : FifoGeneric κ δ ρ τ}
    (hu : u = FifoGeneric.setReader { s with m_fifo_last := none } r (leftReader s r)) :
    ∃ t, Detached s t r readers ∧ Returns (fun fuel =>
      if u.m_readers = some r then
        pure { u with
          m_readers := (u.reader r).nextReader
          m_readerBitMask := if (u.reader r).nextReader ≠ none then
              (u.m_readerBitMask.setWidth 32 &&& ~~~(u.reader r).readerId).setWidth 8
            else 1 }
      else FifoGeneric.unlinkReader u r fuel u.m_readers) { t with m_fifo_last := none } := by
  have hself : u.reader r = leftReader s r := by
    rw [hu]
    exact Function.update_self ..
  obtain ⟨k, m, rfl⟩ := List.append_of_mem hr
  cases hlast : k.getLast? with
  | none =>
      obtain rfl := List.getLast?_eq_none_iff.mp hlast
      have hhead : u.m_readers = some r := by
        rw [hu]
        exact h.1
      refine ⟨_, detached_head h, ?_⟩
      simp only [hhead, if_true, hself]
      have hnext : (s.reader r).nextReader = m.head? := Chain.head h.2
      have hmask : (if (leftReader s r).nextReader ≠ none then
          (u.m_readerBitMask.setWidth 32 &&& ~~~(leftReader s r).readerId).setWidth 8 else 1) =
          clearedMask m s.m_readerBitMask (s.reader r).readerId := by
        have hcond : (leftReader s r).nextReader ≠ none ↔ ¬ m = [] := by
          show (s.reader r).nextReader ≠ none ↔ ¬ m = []
          rw [hnext, ne_eq, List.head?_eq_none_iff]
        rw [clearedMask, hu]
        by_cases hm : m = []
        · rw [if_pos hm, if_neg (fun hne => hcond.mp hne hm)]
        · rw [if_neg hm, if_pos (hcond.mpr hm)]
          rfl
      rw [hmask, hu]
      exact returns_ok _
  | some b =>
      obtain ⟨k, rfl⟩ := List.getLast?_eq_some_iff.mp hlast
      rw [List.append_assoc] at h ⊢
      have hnd := Chain.nodup h
      have hbr : b ≠ r := by
        rintro rfl
        exact (List.nodup_cons.mp (List.nodup_append.mp hnd).2.1).1 List.mem_cons_self
      have hother : u.reader b = s.reader b := by
        rw [hu]
        exact Function.update_of_ne hbr ..
      have hhead : u.m_readers ≠ some r := by
        intro heq
        have hchain := Chain.head h
        have hreaders : u.m_readers = s.m_readers := by
          rw [hu]
          rfl
        rw [← hreaders, heq] at hchain
        have hrk : r ∉ k ++ [b] := by
          intro hmem
          rw [← List.append_assoc] at hnd
          exact (List.nodup_append.mp hnd).2.2 r hmem r List.mem_cons_self rfl
        cases k with
        | nil => exact hbr (by simpa using hchain.symm)
        | cons a k => exact hrk (by simp [Option.some.inj hchain])
      have hchain : Chain (fun a => (u.reader a).nextReader) u.m_readers (k ++ b :: r :: m) := by
        have hlink : ∀ a, (u.reader a).nextReader = (s.reader a).nextReader := by
          intro a
          rw [hu]
          by_cases har : a = r
          · subst a
            simp [FifoGeneric.setReader, leftReader]
          · simp [FifoGeneric.setReader, har]
        have hreaders : u.m_readers = s.m_readers := by
          rw [hu]
          rfl
        rw [hreaders]
        exact Chain.congr h fun a _ => hlink a
      have hret := unlinkReader_returns hchain
      refine ⟨_, detached_behind h, ?_⟩
      simp only [hhead, if_false]
      rw [hself, hother, hu] at hret
      rw [hu]
      exact hret

theorem Consistent.releaseReader (h : Consistent s V) (hr : r ∈ V.readers) :
    ∃ t, Returns (FifoGeneric.releaseReader · s r) { t with m_fifo_last := none } ∧
      Consistent t (V.leave r) ∧ s.SameSetup t ∧
      ∀ e ∈ (V.leave r).fifo, t.expectedReadsBitMask e &&& (t.reader r).readerId = 0 := by
  obtain ⟨s₁, hfirstPart, h₁, hsame⟩ := h.readerReleaseAll (r := r)
  have hr₁ : r ∈ (V.releaseAll r (V.held r)).readers := by
    rw [FifoView.releaseAll_readers]
    exact hr
  have hheld := h.valid.releaseAll_held hr
  obtain ⟨hwindow, hbehind⟩ := FifoView.releaseAll_windows fun e he => h.valid.held_notMem hr he
  obtain ⟨x, l, hx, hin, hview, hstart⟩ := h₁.unread_start hr₁ hheld
  obtain ⟨s₂, hloop, h₂, huntouched⟩ := h₁.releaseUnread hr₁ hx hin
  have hW : (V.releaseAll r (V.held r)).releaseAll r l =
      V.releaseAll r (V.held r ++ V.unread r) := by
    rw [hview, FifoView.releaseAll_append, FifoView.unread, FifoView.unread, hwindow, hbehind]
  rw [hW] at h₂
  have hr₂ : r ∈ (V.releaseAll r (V.held r ++ V.unread r)).readers := by
    rw [FifoView.releaseAll_readers]
    exact hr
  have hnone : ∀ f, ¬ (V.releaseAll r (V.held r ++ V.unread r)).Awaits f r :=
    fun f => h.valid.released_all hr
  obtain ⟨t, hdetached, htail⟩ := detach_returns h₂.readers hr₂ (u := _) rfl
  have hkept : Kept t (V.leave r) :=
    hdetached.kept h₂ hr₂ hnone (h.valid.leave hr) (h.valid.leave_awaited h.awaited hr)
  have hsetup : s.SameSetup t :=
    (hsame.trans huntouched.sameReaders).toSameSetup.trans hdetached.sameSetup
  refine ⟨t, ?_, ⟨hkept, ?_⟩, hsetup, ?_⟩
  · apply hfirstPart.bind
    rw [hstart] at hloop
    apply hloop.bind
    exact htail
  · intro a
    by_cases har : a = r
    · subst a
      have hpoints := h₁.points r
      rw [hheld] at hpoints
      have hempty : (V.leave r).window r = [] ∧ (V.leave r).held r = [] := by
        have hidle := (h.valid.leave hr).idle r (by
          rw [FifoView.leave_readers]
          exact h.valid.readers.not_mem_erase)
        exact ⟨hidle.1, hidle.2.2⟩
      rw [hempty.1, hempty.2, hdetached.reader_self, leftReader, huntouched.reader]
      exact ⟨rfl, fun hne => absurd rfl hne, hpoints.elements, hpoints.links⟩
    · have hpoints := h₁.points a
      obtain ⟨hwindow₁, hheld₁⟩ := FifoView.releaseAll_of_ne (V := V) (l := V.held r) har
      obtain ⟨hwindow₂, hheld₂⟩ :=
        FifoView.releaseAll_of_ne (V := V) (l := V.held r ++ V.unread r) har
      rw [hwindow₁, hheld₁] at hpoints
      show Points (t.reader a) ((V.releaseAll r (V.held r ++ V.unread r)).window a)
        ((V.releaseAll r (V.held r ++ V.unread r)).held a)
      rw [hwindow₂, hheld₂, hdetached.reader_of_ne har, huntouched.reader]
      exact ⟨hpoints.first, hpoints.last, hpoints.elements, hpoints.links⟩
  · intro e he
    obtain ⟨slot, hmarked⟩ := h₂.marked
    rw [hdetached.masks, hdetached.readerId]
    by_contra hne
    exact hnone e ((hmarked.expects hr₂ he).mp hne)

end TaskingFramework
