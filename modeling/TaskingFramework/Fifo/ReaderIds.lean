import TaskingFramework.Fifo.Registry
import TaskingFramework.Fifo.Departures

/-!
# The ids of the readers

Each reader has a bit of its own, and a pushed element waits for all bits, as long as the bits of
the FIFO suffice. The FIFO has eight of them, and the first one is only given to a reader that comes
alone.
-/

set_option linter.unusedSectionVars false

namespace TaskingFramework

open Foundation

variable {κ δ ρ τ : Type} [DecidableEq κ] [DecidableEq δ] [DecidableEq ρ] [DecidableEq τ]
  {s t : FifoGeneric κ δ ρ τ} {readers : List ρ} {r : ρ} {k i : Nat}

/-- The union of the ids of the readers, 1 without readers. -/
def FifoGeneric.readerIds (s : FifoGeneric κ δ ρ τ) (readers : List ρ) : BitVec 32 :=
  if readers = [] then 1 else readers.foldr (fun r ids => (s.reader r).readerId ||| ids) 0

/-- The readers have different ids, each with a single bit, and the FIFO has the bits of its readers. -/
structure FifoGeneric.Identified (s : FifoGeneric κ δ ρ τ) (readers : List ρ) : Prop where
  list : Chain (fun r => (s.reader r).nextReader) s.m_readers readers
  single : ∀ r ∈ readers, ∃ i < 32, (s.reader r).readerId = BitVec.twoPow 32 i
  different : ∀ r ∈ readers, ∀ a ∈ readers, (s.reader r).readerId = (s.reader a).readerId → r = a
  union : s.m_readerBitMask.setWidth 32 = s.readerIds readers

/-- The readers of a FIFO in which nothing is pushed. -/
def FifoView.ofReaders (readers : List ρ) : FifoView κ ρ := { FifoView.init [] with readers := readers }

/-- The chains are sound and the readers have bits of their own; the elements are not looked at. -/
structure Registered (s : FifoGeneric κ δ ρ τ) (readers : List ρ) : Prop where
  sound : s.Sound
  list : Chain (fun r => (s.reader r).nextReader) s.m_readers readers
  marked : ∃ slot, Marked s (FifoView.ofReaders readers : FifoView κ ρ) slot

private theorem valid_ofReaders (h : readers.Nodup) :
    (FifoView.ofReaders readers : FifoView κ ρ).Valid where
  distinct := List.nodup_nil
  readers := h
  split := fun _ _ => ⟨[], rfl, fun _ he => absurd he List.not_mem_nil⟩
  once := fun _ => List.nodup_nil
  idle := fun _ _ => ⟨rfl, rfl, rfl⟩

private theorem not_awaits_ofReaders (e : κ) :
    ¬ (FifoView.ofReaders readers : FifoView κ ρ).Awaits e r := by
  rintro (he | he)
  · exact List.not_mem_nil he
  · exact List.not_mem_nil he

private theorem FifoGeneric.getLsbD_readerIds (hr : r ∈ readers) :
    (s.readerIds readers).getLsbD i = true ↔
      ∃ a ∈ readers, (s.reader a).readerId.getLsbD i = true := by
  rw [FifoGeneric.readerIds, if_neg (List.ne_nil_of_mem hr), getLsbD_foldr_or]

namespace Registered

private theorem m_readers_eq_none (h : Registered s readers) : s.m_readers = none ↔ readers = [] := by
  rw [Chain.head h.list]
  exact List.head?_eq_none_iff

private theorem construct (data : κ → δ) (task : ρ → τ) {items : List κ} (h : items.Nodup) :
    Registered (FifoGeneric.construct data task items) [] := by
  have hconsistent := consistent_construct (δ := δ) data task h
  obtain ⟨slot, hmarked⟩ := hconsistent.marked
  exact ⟨⟨_, _, _, hconsistent.stored⟩, hconsistent.readers, slot,
    hmarked.view rfl rfl fun _ _ => Iff.rfl⟩

private theorem maintains (h : Registered s readers) (hmaintains : s.Maintains t) :
    Registered t readers := by
  obtain ⟨slot, hmarked⟩ := h.marked
  refine ⟨hmaintains.sound, ?_, slot, ?_, hmarked.lt, hmarked.injective, ?_, ?_⟩
  · rw [hmaintains.readers]
    exact Chain.congr h.list fun a _ => hmaintains.nextReader a
  · intro a ha
    rw [hmaintains.readerId]
    exact hmarked.id a ha
  · rw [hmaintains.bitMask]
    exact hmarked.mask
  · intro e he
    exact absurd he List.not_mem_nil

private theorem identified (h : Registered s readers) : s.Identified readers := by
  obtain ⟨slot, hmarked⟩ := h.marked
  have hlt : ∀ a ∈ readers, slot a < 32 :=
    fun a ha => Nat.lt_of_lt_of_le (hmarked.lt a ha) (by decide)
  refine ⟨h.list, ?_, ?_, ?_⟩
  · intro a ha
    exact ⟨slot a, hlt a ha, hmarked.id a ha⟩
  · intro a ha b hb heq
    rw [hmarked.id a ha, hmarked.id b hb] at heq
    exact hmarked.injective a ha b hb (twoPow_injective (hlt a ha) heq)
  · apply BitVec.eq_of_getLsbD_eq
    intro i hi
    have hmask : s.m_readerBitMask.getLsbD i = true ↔ Bits readers slot (fun _ => True) i :=
      hmarked.mask i
    rw [Bool.eq_iff_iff, BitVec.getLsbD_setWidth, decide_eq_true hi, Bool.true_and, hmask]
    cases readers with
    | nil =>
        have h1 : (1 : BitVec 32) = BitVec.twoPow 32 0 := rfl
        rw [Bits, if_pos rfl, FifoGeneric.readerIds, if_pos rfl, h1, BitVec.getLsbD_twoPow]
        simpa using eq_comm
    | cons a readers =>
        have hmem : a ∈ a :: readers := List.mem_cons_self
        rw [FifoGeneric.getLsbD_readerIds hmem, bits_of_mem hmem]
        constructor
        · rintro ⟨b, hb, rfl, _⟩
          refine ⟨b, hb, ?_⟩
          rw [hmarked.id b hb, BitVec.getLsbD_twoPow]
          simpa using hi
        · rintro ⟨b, hb, hbit⟩
          rw [hmarked.id b hb, BitVec.getLsbD_twoPow, Bool.and_eq_true, decide_eq_true_iff,
            decide_eq_true_iff] at hbit
          exact ⟨b, hb, hbit.2, trivial⟩

private theorem associateReader (h : Registered s readers) (hr : r ∉ readers) (hfree : s.HasFreeId) :
    ∃ t, Returns (FifoGeneric.associateReader · s r) t ∧ Registered t (r :: readers) := by
  obtain ⟨slot, hmarked⟩ := h.marked
  obtain ⟨unused, allocated, fifo, hstored⟩ := h.sound
  obtain ⟨k, hk⟩ := exists_firstFree h.m_readers_eq_none hfree
  have hid := newReaderId_returns h.m_readers_eq_none hk
  have hvalid : (FifoView.ofReaders readers : FifoView κ ρ).Valid :=
    valid_ofReaders (Chain.nodup h.list)
  have hmarked' := hmarked.associate hvalid hr hk
    (t := s.associated r (BitVec.twoPow 32 k) fifo) associated_readerId
    (hmarked.associated h.m_readers_eq_none hk) fun e he => absurd he List.not_mem_nil
  refine ⟨_, associateReader_returns h.list hstored.fifo hr hid, ?_,
    associated_readers h.list hr, _, hmarked'.id, hmarked'.lt, hmarked'.injective, hmarked'.mask, ?_⟩
  · exact ⟨unused, allocated, fifo, hstored.unused, hstored.allocated, hstored.fifo, hstored.last,
      hstored.distinct⟩
  · intro e he
    exact absurd he List.not_mem_nil

private theorem associateReader_full (h : Registered s readers) (hr : r ∉ readers)
    (hfull : ¬ s.HasFreeId) :
    ∃ t, Returns (FifoGeneric.associateReader · s r) t ∧ ¬ t.Identified (r :: readers) := by
  obtain ⟨unused, allocated, fifo, hstored⟩ := h.sound
  obtain ⟨hsome, hset⟩ := not_or.mp hfull
  have hid : Returns (FifoGeneric.newReaderId · s) (BitVec.twoPow 32 8) := by
    unfold FifoGeneric.newReaderId
    simp only [if_neg hsome]
    have hbits : ∀ i, 0 < i → i < 8 → (s.m_readerBitMask.setWidth 32).getLsbD i = true := by
      intro i hi hlt
      rw [BitVec.getLsbD_setWidth, decide_eq_true (by omega), Bool.true_and]
      by_contra hnot
      exact hset ⟨i, hlt, hi, by simpa using hnot⟩
    have hfree : (s.m_readerBitMask.setWidth 32).getLsbD 8 = false := by
      rw [BitVec.getLsbD_setWidth, BitVec.getLsbD_of_ge _ _ (by omega), Bool.and_false]
    have hsearch := freeReaderId_returns (j := 0) (k := 8) (by omega) (by omega) hfree hbits
    rw [BitVec.ushiftRight_zero] at hsearch
    exact hsearch
  refine ⟨_, associateReader_returns h.list hstored.fifo hr hid, ?_⟩
  intro hidentified
  have hunion := congrArg (fun ids => ids.getLsbD 8) hidentified.union
  have hbit : ((s.associated r (BitVec.twoPow 32 8) fifo).readerIds (r :: readers)).getLsbD 8 =
      true := by
    rw [FifoGeneric.getLsbD_readerIds List.mem_cons_self]
    refine ⟨r, List.mem_cons_self, ?_⟩
    rw [associated_readerId, if_pos rfl]
    rfl
  simp only [hbit, BitVec.getLsbD_setWidth] at hunion
  rw [BitVec.getLsbD_of_ge _ _ (by omega), Bool.and_false] at hunion
  exact Bool.false_ne_true hunion

private theorem releaseElement_empty (hempty : s.m_fifo_first = none) (fuel : Nat) (e : κ)
    (readerId : BitVec 32) : s.releaseElement fuel e readerId = .error .assertion := by
  have hcheck : check s.m_fifo_first.isSome = .error .assertion := by
    rw [hempty]
    rfl
  simp only [FifoGeneric.releaseElement, hcheck, error_bind]

private theorem readerReleaseAll_empty (hempty : s.m_fifo_first = none) :
    Ends (FifoGeneric.readerReleaseAll · s r) fun t => t = s := by
  unfold FifoGeneric.readerReleaseAll
  cases (s.reader r).allocated_elements with
  | nil => exact ends_ok rfl
  | cons e l =>
      apply Ends.ite
      · intro _
        simp only [FifoGeneric.releaseLink, releaseElement_empty hempty, error_bind]
        exact ends_error (by decide)
      · intro _
        exact ends_error (by decide)

private theorem releaseUnread_empty (hempty : s.m_fifo_first = none) (p : Option κ) :
    Ends (FifoGeneric.releaseUnread r · p s) fun t => t = s := by
  cases p with
  | none =>
      have hends : Ends (fun _ => .ok s) fun t => t = s := ends_ok rfl
      exact hends.step fun fuel => rfl
  | some e =>
      have hends : Ends (fun _ => (.error .assertion : Outcome (FifoGeneric κ δ ρ τ)))
          fun t => t = s := ends_error (by decide)
      refine hends.step fun fuel => ?_
      simp only [FifoGeneric.releaseUnread, releaseElement_empty hempty, error_bind]

private theorem detach (h : Registered s readers) (hempty : s.m_fifo_first = none) (hr : r ∈ readers)
    (hdetached : Detached s t r readers) :
    Registered { t with m_fifo_last := none } (readers.erase r) := by
  obtain ⟨unused, allocated, hstored⟩ := h.sound.empty hempty
  obtain ⟨slot, hmarked⟩ := h.marked
  have hvalid := valid_ofReaders (κ := κ) (Chain.nodup h.list)
  have hmarked' := hmarked.detach hvalid (fun _ e he => absurd he List.not_mem_nil) hr
    not_awaits_ofReaders hdetached.readerId hdetached.masks hdetached.mask
  have ht := hdetached.stored hstored
  refine ⟨⟨unused, allocated, [], ht.unused, ht.allocated, ht.fifo, rfl, ht.distinct⟩,
    hdetached.chain, slot, hmarked'.id, hmarked'.lt, hmarked'.injective, hmarked'.mask, ?_⟩
  intro e he
  exact absurd he List.not_mem_nil

private theorem releaseReader (h : Registered s readers) (hempty : s.m_fifo_first = none) (r : ρ) :
    Ends (FifoGeneric.releaseReader · s r) fun t => Registered t (readers.erase r) := by
  apply (readerReleaseAll_empty hempty).bind
  rintro s rfl
  apply (releaseUnread_empty hempty _).bind
  rintro s rfl
  by_cases hr : r ∈ readers
  · obtain ⟨t, hdetached, hret⟩ := detach_returns h.list hr (u := _) rfl
    exact hret.ends (h.detach hempty hr hdetached)
  · obtain ⟨unused, allocated, hstored⟩ := h.sound.empty hempty
    have hlast : FifoGeneric.Stored { s with m_fifo_last := none } unused allocated [] :=
      ⟨hstored.unused, hstored.allocated, hstored.fifo, rfl, hstored.distinct⟩
    have hmaintains : s.Maintains { s with m_fifo_last := none } :=
      hlast.maintains ⟨rfl, rfl, rfl, rfl⟩
    have hleft : Registered (FifoGeneric.setReader { s with m_fifo_last := none } r (leftReader s r))
        readers := h.maintains (hmaintains.setReader rfl rfl)
    rw [List.erase_of_not_mem hr]
    apply Ends.ite
    · intro hhead
      have hmem : readers.head? = some r := (Chain.head hleft.list).symm.trans hhead
      exact absurd (List.mem_of_head? hmem) hr
    · intro _
      exact (unlinkReader_absent hleft.list hr).ends hleft

end Registered

namespace Watched

variable {w w' : Watched κ δ ρ τ} {c : FifoCall δ ρ τ} {a : FifoAnswer δ} {buffer : FifoBuffer κ δ}
  {task : ρ → τ} {l : List (FifoCall δ ρ τ × FifoAnswer δ)}

/-- At most 32 readers at a time. What was pushed is read and released before a reader leaves. -/
def Quiet (w : Watched κ δ ρ τ) : FifoCall δ ρ τ → Prop
  | .associateReader r => r ∈ w.view.readers ∨ w.view.readers.length < 32
  | .releaseReader _ => w.fifo.isEmpty
  | _ => True

/-- A reader comes when one of the bits behind the first is free, or when it is the only one. -/
def Admits (w : Watched κ δ ρ τ) : FifoCall δ ρ τ → Prop
  | .associateReader r => r ∈ w.view.readers ∨ w.fifo.HasFreeId
  | _ => True

/-- A push returns, and the element that it has pushed waits for all readers. -/
def PushesToAll (w : Watched κ δ ρ τ) : Prop :=
  ∀ d, ∃ t result, Returns (FifoGeneric.push · w.fifo d) (t, result) ∧ (result = true → ∃ e,
    t.data e = d ∧ t.m_fifo_last = some e ∧
      t.expectedReadsBitMask e = w.fifo.readerIds w.view.readers)

private theorem pushesToAll (h : Registered w.fifo w.view.readers) : w.PushesToAll := by
  intro d
  obtain ⟨t, result, hret, _, hpushed⟩ := h.sound.push d
  refine ⟨t, result, hret, fun hresult => ?_⟩
  obtain ⟨e, hdata, hlast, hmask⟩ := hpushed hresult
  exact ⟨e, hdata, hlast, hmask.trans h.identified.union⟩

private theorem associateReader_call {t : FifoGeneric κ δ ρ τ} {r : ρ}
    (h : Returns (FifoGeneric.associateReader · w.fifo r) t) :
    Returns (FifoGeneric.call · w.fifo (.associateReader r)) (t, .nothing) :=
  h.bind (returns_ok _)

private theorem registered_call (h : Registered w.fifo w.view.readers) (hquiet : w.Quiet c)
    (hadmits : w.Admits c) : Ends (FifoGeneric.call · w.fifo c) fun a =>
      Registered a.1 (w.fifo.view w.view c).1.readers := by
  by_cases hcome : ∃ r, c = .associateReader r
  · obtain ⟨r, rfl⟩ := hcome
    by_cases hr : r ∈ w.view.readers
    · have hreaders : (w.fifo.view w.view (.associateReader r)).1.readers = w.view.readers := by
        simp only [FifoGeneric.view, FifoView.call, if_pos hr]
      have hsearch := searchReader_returns (r := r) h.list
      simp only [hr, decide_true] at hsearch
      have hret : Returns (FifoGeneric.associateReader · w.fifo r) w.fifo :=
        hsearch.bind (returns_ok _)
      rw [hreaders]
      exact (associateReader_call hret).ends h
    · have hreaders : (w.fifo.view w.view (.associateReader r)).1.readers = r :: w.view.readers := by
        simp only [FifoGeneric.view, FifoView.call, if_neg hr]
        rfl
      obtain ⟨t, hret, ht⟩ := h.associateReader hr (hadmits.resolve_left hr)
      rw [hreaders]
      exact (associateReader_call hret).ends ht
  · by_cases hleave : ∃ r, c = .releaseReader r
    · obtain ⟨r, rfl⟩ := hleave
      have hreaders : (w.fifo.view w.view (.releaseReader r)).1.readers = w.view.readers.erase r :=
        FifoView.leave_readers
      rw [hreaders]
      apply (h.releaseReader (Option.isNone_iff_eq_none.mp hquiet) r).bind
      intro t ht
      exact ends_ok ht
    · have hcome' : ∀ r, c ≠ .associateReader r := fun r hr => hcome ⟨r, hr⟩
      have hleave' : ∀ r, c ≠ .releaseReader r := fun r hr => hleave ⟨r, hr⟩
      have hreaders : (w.fifo.view w.view c).1.readers = w.view.readers :=
        FifoView.call_readers hcome' hleave'
      rw [hreaders]
      exact (h.sound.call h.list hcome' hleave').mono fun a ha => h.maintains ha

private theorem registered_step (h : Registered w.fifo w.view.readers)
    (hstep : Calls (fun w c => w.Quiet c ∧ w.Admits c) call w (c, a) w') :
    Registered w'.fifo w'.view.readers := by
  obtain ⟨⟨hquiet, hadmits⟩, hret⟩ := hstep
  have hends : Ends (call · w c) fun a => Registered a.1.fifo a.1.view.readers := by
    apply (registered_call h hquiet hadmits).bind
    intro a ha
    exact ends_ok ha
  exact hends.returned hret

private theorem associateReader_identified_iff (h : Registered w.fifo w.view.readers)
    (hr : r ∉ w.view.readers) (hlt : w.view.readers.length < 32) :
    ∃ w', Calls Quiet call w (.associateReader r, .nothing) w' ∧
      (w'.fifo.Identified w'.view.readers ↔ w.fifo.HasFreeId) := by
  have hcalls : ∀ {t}, Returns (FifoGeneric.associateReader · w.fifo r) t →
      Calls Quiet call w (.associateReader r, .nothing) { fifo := t, view := w.view.associate r } := by
    intro t hret
    refine ⟨Or.inr hlt, ?_⟩
    have hview : (w.fifo.view w.view (.associateReader r)).1 = w.view.associate r := by
      simp only [FifoGeneric.view, FifoView.call, if_neg hr]
    have hcall := call_returns (associateReader_call hret)
    rw [hview] at hcall
    exact hcall
  by_cases hfree : w.fifo.HasFreeId
  · obtain ⟨t, hret, ht⟩ := h.associateReader hr hfree
    exact ⟨_, hcalls hret, fun _ => hfree, fun _ => ht.identified⟩
  · obtain ⟨t, hret, ht⟩ := h.associateReader_full hr hfree
    exact ⟨_, hcalls hret, fun hidentified => absurd hidentified ht, fun hyes => absurd hyes hfree⟩

/-- In every run in which readers only come while there is a bit for them, the readers have bits of
their own and a pushed element waits for all of them. One more reader keeps it so if and only if
there is a bit for it. -/
theorem run_identified (buffer : FifoBuffer κ δ) (task : ρ → τ)
    (h : Run (Calls (fun w c => w.Quiet c ∧ w.Admits c) call) (start buffer task) l w) :
    w.fifo.Identified w.view.readers ∧ w.PushesToAll ∧
      ∀ r ∉ w.view.readers, w.view.readers.length < 32 →
        ∃ w', Calls Quiet call w (.associateReader r, .nothing) w' ∧
          (w'.fifo.Identified w'.view.readers ↔ w.fifo.HasFreeId) := by
  have hregistered : Registered w.fifo w.view.readers := by
    apply h.invariant (I := fun w => Registered w.fifo w.view.readers)
    · exact Registered.construct buffer.data task buffer.distinct
    · intro w ⟨c, a⟩ w' hw hstep
      exact registered_step hw hstep
  exact ⟨hregistered.identified, pushesToAll hregistered,
    fun r hr hlt => associateReader_identified_iff hregistered hr hlt⟩

/-- The third reader gets the bit behind the one of the second, although the first has left. -/
theorem run_identified_third : ∃ w w', Run (Calls (fun w c => w.Quiet c ∧ w.Admits c) call) opened
    [(.associateReader 0, .nothing), (.associateReader 1, .nothing), (.releaseReader 0, .nothing),
      (.associateReader 2, .nothing), (.allocate, .data (some 1)), (.push 1, .pushed true)] w ∧
    w.fifo.Identified [2, 1] ∧ w.fifo.m_readerBitMask = 6 ∧ w.PushesToAll ∧
    Calls Quiet call w (.associateReader 3, .nothing) w' ∧ w'.fifo.Identified w'.view.readers := by
  have h₀ : Run (Calls (fun w c => w.Quiet c ∧ w.Admits c) call) opened [] opened := .start
  have h₁ := h₀.next_call 12 (.associateReader 0)
    ⟨Or.inr (by decide), Or.inr (by decide)⟩ fun fuel => rfl
  have h₂ := h₁.next_call 12 (.associateReader 1)
    ⟨Or.inr (by decide), Or.inr (by decide)⟩ fun fuel => rfl
  have h₃ := h₂.next_call 12 (.releaseReader 0) ⟨rfl, trivial⟩ fun fuel => rfl
  have h₄ := h₃.next_call 12 (.associateReader 2)
    ⟨Or.inr (by decide), Or.inr (by decide)⟩ fun fuel => rfl
  have h₅ := h₄.next_call 12 .allocate ⟨trivial, trivial⟩ fun fuel => rfl
  have hrun := h₅.next_call 12 (.push 1) ⟨trivial, trivial⟩ fun fuel => rfl
  obtain ⟨hidentified, hpushes, hmore⟩ := run_identified _ _ hrun
  obtain ⟨w', hcall, hnext⟩ := hmore 3 (by decide) (by decide)
  exact ⟨_, w', hrun, hidentified, rfl, hpushes, hcall, hnext.mpr (by decide)⟩

/-- The ninth reader gets the bit behind those of the FIFO. -/
theorem not_identified_ninth : ∃ w, Run (Calls Quiet call) opened
    ((List.range 9).map fun r => (.associateReader r, .nothing)) w ∧
    w.view.readers.length = 9 ∧ w.fifo.m_readerBitMask = 255 ∧
    (w.fifo.reader 8).readerId = 256 ∧ ¬ w.fifo.Identified w.view.readers := by
  have h₀ : Run (Calls Quiet call) opened [] opened := .start
  have h₁ := h₀.next_call 12 (.associateReader 0) (Or.inr (by decide)) fun fuel => rfl
  have h₂ := h₁.next_call 12 (.associateReader 1) (Or.inr (by decide)) fun fuel => rfl
  have h₃ := h₂.next_call 12 (.associateReader 2) (Or.inr (by decide)) fun fuel => rfl
  have h₄ := h₃.next_call 12 (.associateReader 3) (Or.inr (by decide)) fun fuel => rfl
  have h₅ := h₄.next_call 12 (.associateReader 4) (Or.inr (by decide)) fun fuel => rfl
  have h₆ := h₅.next_call 12 (.associateReader 5) (Or.inr (by decide)) fun fuel => rfl
  have h₇ := h₆.next_call 12 (.associateReader 6) (Or.inr (by decide)) fun fuel => rfl
  have h₈ := h₇.next_call 12 (.associateReader 7) (Or.inr (by decide)) fun fuel => rfl
  have hrun := h₈.next_call 12 (.associateReader 8) (Or.inr (by decide)) fun fuel => rfl
  refine ⟨_, hrun, rfl, rfl, rfl, ?_⟩
  intro hidentified
  exact absurd hidentified.union (by decide)

end Watched

end TaskingFramework
