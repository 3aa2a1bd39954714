import TaskingFramework.Fifo.Partition

/-!
# Delivery in the order of the pushes

A journal beside the FIFO numbers the pushes and notes for each reader the numbers of the pushes that
it has popped. It only looks at the calls and their answers.
-/

set_option linter.unusedSectionVars false

namespace TaskingFramework

open Foundation

variable {κ δ ρ τ : Type} [DecidableEq κ] [DecidableEq δ] [DecidableEq ρ] [DecidableEq τ]

structure Journal (δ ρ : Type) where
  pushed : Nat
  /-- The push that the data are from. -/
  origin : δ → Nat
  readers : List ρ
  /-- The pushes that the reader has popped, in the order of its pops. -/
  reads : ρ → List Nat
  /-- The sum of the volumes that the reader was synchronized by. -/
  asked : ρ → Nat

namespace Journal

def init : Journal δ ρ where
  pushed := 0
  origin := fun _ => 0
  readers := []
  reads := fun _ => []
  asked := fun _ => 0

def readerOf (J : Journal δ ρ) (task : ρ → τ) (t : τ) : Option ρ :=
  J.readers.find? fun r => task r = t

def note (J : Journal δ ρ) (task : ρ → τ) (c : FifoCall δ ρ τ) (a : FifoAnswer δ) : Journal δ ρ :=
  match c, a with
  | .push d, .pushed true =>
      { J with pushed := J.pushed + 1, origin := Function.update J.origin d J.pushed }
  | .associateReader r, _ => if r ∈ J.readers then J else { J with readers := r :: J.readers }
  | .synchronize t volume, _ =>
      match J.readerOf task t with
      | none => J
      | some r => { J with asked := Function.update J.asked r (J.asked r + volume) }
  | .readerPop r, .data (some d) =>
      { J with reads := Function.update J.reads r (J.reads r ++ [J.origin d]) }
  | _, _ => J

/-- What a reader has read and has not read yet makes up all pushes. -/
structure Counts (J : Journal δ ρ) (data : κ → δ) (V : FifoView κ ρ) : Prop where
  readers : J.readers = V.readers
  empty : J.pushed = 0 → V.fifo = []
  idle : ∀ r ∉ V.readers, J.reads r = [] ∧ J.asked r = 0
  reads : ∀ r ∈ V.readers,
    J.reads r ++ (V.unread r).map (fun e => J.origin (data e)) = List.range J.pushed
  asked : ∀ r ∈ V.readers, (J.reads r).length + (V.window r).length = J.asked r

variable {J : Journal δ ρ} {data : κ → δ} {task : ρ → τ} {V W : FifoView κ ρ} {e : κ} {r : ρ}
  {volume : Nat} {c : FifoCall δ ρ τ} {l : List κ}

private theorem Counts.view (h : J.Counts data V) (hreaders : W.readers = V.readers)
    (hfifo : ∀ e ∈ W.fifo, e ∈ V.fifo) (hwindow : W.window = V.window) (hbehind : W.behind = V.behind) :
    J.Counts data W := by
  refine ⟨h.readers.trans hreaders.symm, ?_, ?_, ?_, ?_⟩
  · intro hzero
    rw [List.eq_nil_iff_forall_not_mem]
    intro e he
    have hmem := hfifo e he
    rw [h.empty hzero] at hmem
    exact List.not_mem_nil hmem
  · rw [hreaders]
    exact h.idle
  · rw [hreaders]
    intro r hr
    rw [FifoView.unread, hwindow, hbehind]
    exact h.reads r hr
  · rw [hreaders, hwindow]
    exact h.asked

private theorem Counts.push (h : J.Counts data V) (hvalid : V.Valid) (hdata : Function.Injective data)
    (he : e ∈ V.allocated) :
    Counts { J with pushed := J.pushed + 1, origin := Function.update J.origin (data e) J.pushed }
      data (V.push e) := by
  refine ⟨h.readers, fun hzero => absurd hzero (Nat.succ_ne_zero _), h.idle, ?_, h.asked⟩
  intro r hr
  have hr' : r ∈ V.readers := hr
  have hold : (V.unread r).map (fun f => Function.update J.origin (data e) J.pushed (data f)) =
      (V.unread r).map fun f => J.origin (data f) := by
    apply List.map_congr_left
    intro f hf
    have hfe : f ≠ e := by
      intro heq
      exact hvalid.notMem_allocated (hvalid.awaits_mem hr' (Or.inr hf)) (heq ▸ he)
    exact Function.update_of_ne (fun heq => hfe (hdata heq)) _ _
  show J.reads r ++ ((V.push e).unread r).map _ = List.range (J.pushed + 1)
  rw [FifoView.push_unread hr', List.map_append, hold, ← List.append_assoc, h.reads r hr',
    List.range_succ]
  simp

private theorem Counts.associate (h : J.Counts data V) (hvalid : V.Valid) (hr : r ∉ V.readers)
    (hzero : J.pushed = 0) :
    Counts { J with readers := r :: J.readers } data (V.associate r) := by
  have hfifo := h.empty hzero
  obtain ⟨hreads, hasked⟩ := h.idle r hr
  obtain ⟨hwindow, _, _⟩ := hvalid.idle r hr
  refine ⟨?_, h.empty, ?_, ?_, ?_⟩
  · show r :: J.readers = r :: V.readers
    rw [h.readers]
  · intro a ha
    exact h.idle a fun hmem => ha (List.mem_cons_of_mem r hmem)
  · intro a ha
    by_cases har : a = r
    · subst a
      simp [FifoView.unread, FifoView.associate, hwindow, hfifo, hreads, hzero]
    · have ha' : a ∈ V.readers := (List.mem_cons.mp ha).resolve_left har
      simpa [FifoView.unread, FifoView.associate, har] using h.reads a ha'
  · intro a ha
    by_cases har : a = r
    · subst a
      simp [FifoView.associate, hwindow, hreads, hasked]
    · exact h.asked a ((List.mem_cons.mp ha).resolve_left har)

private theorem Counts.synchronize (h : J.Counts data V) (hr : r ∈ V.readers)
    (hvolume : volume ≤ (V.behind r).length) :
    Counts { J with asked := Function.update J.asked r (J.asked r + volume) } data
      (V.synchronize r volume) := by
  refine ⟨h.readers, h.empty, ?_, ?_, ?_⟩
  · intro a ha
    have har : a ≠ r := fun heq => ha (heq ▸ hr)
    obtain ⟨hreads, hasked⟩ := h.idle a ha
    exact ⟨hreads, (Function.update_of_ne har _ _).trans hasked⟩
  · intro a ha
    rw [FifoView.synchronize_unread]
    exact h.reads a ha
  · intro a ha
    by_cases har : a = r
    · subst a
      have hasked := h.asked r hr
      simp only [FifoView.synchronize, Function.update_self, List.length_append, List.length_take]
      omega
    · simpa [FifoView.synchronize, har] using h.asked a ha

private theorem Counts.pop (h : J.Counts data V) (hr : r ∈ V.readers) (hwindow : V.window r = e :: l) :
    Counts { J with reads := Function.update J.reads r (J.reads r ++ [J.origin (data e)]) } data
      (V.pop r e) := by
  refine ⟨h.readers, h.empty, ?_, ?_, ?_⟩
  · intro a ha
    have har : a ≠ r := fun heq => ha (heq ▸ hr)
    obtain ⟨hreads, hasked⟩ := h.idle a ha
    exact ⟨(Function.update_of_ne har _ _).trans hreads, hasked⟩
  · intro a ha
    by_cases har : a = r
    · subst a
      have hreads := h.reads r hr
      rw [FifoView.pop_unread_self hwindow, List.map_cons] at hreads
      simpa using hreads
    · simpa [FifoView.unread, FifoView.pop, har] using h.reads a ha
  · intro a ha
    by_cases har : a = r
    · subst a
      have hasked := h.asked r hr
      rw [hwindow, List.length_cons] at hasked
      simp only [FifoView.pop, Function.update_self, hwindow, List.tail_cons, List.length_append,
        List.length_singleton]
      omega
    · simpa [FifoView.pop, har] using h.asked a ha

private theorem Counts.call (h : J.Counts data V) (hvalid : V.Valid) (hdata : Function.Injective data)
    (hcome : ∀ r, c = .associateReader r → r ∈ V.readers ∨ J.pushed = 0)
    (hstay : ∀ r, c ≠ .releaseReader r)
    (hvolume : ∀ t volume, c = .synchronize t volume → ∀ r, J.readerOf task t = some r →
      volume ≤ (V.behind r).length) :
    Counts (J.note task c (V.call data task c).2) data (V.call data task c).1 := by
  cases c with
  | allocate =>
      cases hunused : V.unused with
      | nil =>
          simp only [FifoView.call, hunused]
          exact h
      | cons e l =>
          simp only [FifoView.call, hunused]
          exact h.view rfl (fun _ he => he) rfl rfl
  | release d =>
      cases hfind : V.allocated.find? fun e => data e = d with
      | none =>
          simp only [FifoView.call, hfind]
          exact h
      | some e =>
          simp only [FifoView.call, hfind]
          exact h.view rfl (fun _ he => he) rfl rfl
  | push d =>
      cases hfind : V.allocated.find? fun e => data e = d with
      | none =>
          simp only [FifoView.call, hfind]
          exact h
      | some e =>
          have he : data e = d := by simpa using List.find?_some hfind
          simp only [FifoView.call, hfind]
          subst he
          exact h.push hvalid hdata (List.mem_of_find?_eq_some hfind)
  | pop =>
      cases hr : V.readers with
      | nil =>
          cases hfifo : V.fifo with
          | nil =>
              simp only [FifoView.call, hr, hfifo]
              exact h
          | cons e l =>
              simp only [FifoView.call, hr, hfifo]
              exact h.view rfl (fun _ hf => List.mem_of_mem_erase hf) rfl rfl
      | cons r readers =>
          simp only [FifoView.call, hr]
          exact h
  | associateReader r =>
      simp only [FifoView.call, note, h.readers]
      by_cases hr : r ∈ V.readers
      · rw [if_pos hr, if_pos hr]
        exact h
      · rw [if_neg hr, if_neg hr, ← h.readers]
        exact h.associate hvalid hr ((hcome r rfl).resolve_left hr)
  | releaseReader r => exact absurd rfl (hstay r)
  | synchronize t volume =>
      have hreader : J.readerOf task t = V.readers.find? fun r => task r = t := by
        rw [readerOf, h.readers]
      have hvolume := hvolume t volume rfl
      simp only [FifoView.call, note]
      rw [hreader] at hvolume ⊢
      cases hfind : V.readers.find? fun r => task r = t with
      | none => exact h
      | some r => exact h.synchronize (List.mem_of_find?_eq_some hfind) (hvolume r hfind)
  | readerPop r =>
      cases hwindow : V.window r with
      | nil =>
          simp only [FifoView.call, hwindow]
          exact h
      | cons e l =>
          have hr : r ∈ V.readers := by
            by_contra hr
            rw [(hvalid.idle r hr).1] at hwindow
            exact absurd hwindow (by simp)
          simp only [FifoView.call, hwindow]
          split
          · exact h.pop hr hwindow
          · exact h
  | readerRelease r d =>
      cases hfind : (V.held r).find? fun e => data e = d with
      | none =>
          simp only [FifoView.call, hfind]
          exact h
      | some e =>
          have he := List.mem_of_find?_eq_some hfind
          have hr := hvalid.held_readers he
          obtain ⟨hwindow, hbehind⟩ := FifoView.releaseAll_windows (l := [e]) fun f hf =>
            List.mem_singleton.mp hf ▸ hvalid.held_notMem hr he
          simp only [FifoView.call, hfind]
          refine h.view FifoView.releaseElement_readers (fun f hf => ?_) hwindow hbehind
          rw [hvalid.releaseElement_fifo hr] at hf
          exact (List.mem_filter.mp hf).1
  | readerReleaseAll r =>
      simp only [FifoView.call]
      by_cases hr : r ∈ V.readers
      · obtain ⟨hwindow, hbehind⟩ :=
          FifoView.releaseAll_windows fun f hf => hvalid.held_notMem hr hf
        refine h.view FifoView.releaseAll_readers (fun f hf => ?_) hwindow hbehind
        rw [hvalid.releaseAll_fifo hr (hvalid.inOrder_held_all hr)] at hf
        exact (List.mem_filter.mp hf).1
      · rw [(hvalid.idle r hr).2.2]
        exact h

theorem Counts.reads_prefix (h : J.Counts data V) : J.reads r <+: List.range J.pushed := by
  by_cases hr : r ∈ V.readers
  · exact ⟨_, h.reads r hr⟩
  · rw [(h.idle r hr).1]
    exact List.nil_prefix

theorem Counts.length_behind (h : J.Counts data V) (hr : r ∈ V.readers) :
    J.asked r + (V.behind r).length = J.pushed := by
  have hlength := congrArg List.length (h.reads r hr)
  rw [List.length_append, List.length_map, List.length_range, FifoView.unread,
    List.length_append] at hlength
  rw [← h.asked r hr]
  omega

private theorem Counts.origin_head (h : J.Counts data V) (hr : r ∈ V.readers)
    (hwindow : V.window r = e :: l) :
    J.origin (data e) = (J.reads r).length := by
  have hreads := h.reads r hr
  rw [FifoView.unread, hwindow, List.cons_append, List.map_cons] at hreads
  have hget := congrArg (fun l : List Nat => l[(J.reads r).length]?) hreads
  simp only [List.getElem?_append_right (Nat.le_refl _), Nat.sub_self, List.getElem?_cons_zero] at hget
  have horigin := (List.getElem?_eq_some_iff.mp hget.symm).2
  rw [List.getElem_range] at horigin
  exact horigin.symm

private theorem Counts.window_ne_nil_iff (h : J.Counts data V) (hvalid : V.Valid) :
    V.window r ≠ [] ↔ (J.reads r).length < J.asked r := by
  by_cases hr : r ∈ V.readers
  · rw [← h.asked r hr, ← List.length_pos_iff]
    exact Nat.lt_add_right_iff_pos.symm
  · obtain ⟨hreads, hasked⟩ := h.idle r hr
    simp [(hvalid.idle r hr).1, hreads, hasked]

/-- The last element of the window is from the push that the volumes have asked for last. -/
theorem Counts.origin_last (h : J.Counts data V) (hr : r ∈ V.readers)
    (hlast : (V.window r).getLast? = some e) : J.origin (data e) + 1 = J.asked r := by
  obtain ⟨w, hw⟩ := List.getLast?_eq_some_iff.mp hlast
  have hreads := h.reads r hr
  have hasked := h.asked r hr
  rw [hw, List.length_append, List.length_singleton] at hasked
  rw [FifoView.unread, hw, List.append_assoc, List.map_append, List.singleton_append, List.map_cons,
    ← List.append_assoc] at hreads
  have hget := congrArg (fun l : List Nat => l[(J.reads r).length + w.length]?) hreads
  simp only [List.getElem?_append, List.length_append, List.length_map, lt_self_iff_false, if_false,
    Nat.sub_self, List.getElem?_cons_zero] at hget
  have horigin := (List.getElem?_eq_some_iff.mp hget.symm).2
  rw [List.getElem_range] at horigin
  omega

end Journal

/-- A FIFO and the journal of its calls. -/
structure Journaled (κ δ ρ τ : Type) where
  fifo : FifoGeneric κ δ ρ τ
  journal : Journal δ ρ

namespace Journaled

def start (buffer : FifoBuffer κ δ) (task : ρ → τ) : Journaled κ δ ρ τ where
  fifo := FifoGeneric.construct buffer.data task buffer.items
  journal := Journal.init

def call (fuel : Nat) (s : Journaled κ δ ρ τ) (c : FifoCall δ ρ τ) :
    Outcome (Journaled κ δ ρ τ × FifoAnswer δ) := do
  let (t, a) ← s.fifo.call fuel c
  return ({ fifo := t, journal := s.journal.note s.fifo.task c a }, a)

/-- At most eight readers, all associated before the first push and none of which leaves. The volumes
of a reader sum up to at most the number of pushes. -/
def Legal (s : Journaled κ δ ρ τ) : FifoCall δ ρ τ → Prop
  | .associateReader r => s.journal.pushed = 0 ∧
      (r ∈ s.journal.readers ∨ s.journal.readers.length < 8)
  | .releaseReader _ => False
  | .synchronize t volume => ∀ r, s.journal.readerOf s.fifo.task t = some r →
      s.journal.asked r + volume ≤ s.journal.pushed
  | _ => True

/-- A reader that has read its whole window has released what it popped before the next one. -/
def Released (s : Journaled κ δ ρ τ) : FifoCall δ ρ τ → Prop
  | .synchronize t volume => ∀ r, s.journal.readerOf s.fifo.task t = some r → 0 < volume →
      (s.fifo.reader r).fifo_first = none → (s.fifo.reader r).allocated_elements = []
  | _ => True

variable {s t : Journaled κ δ ρ τ} {buffer : FifoBuffer κ δ} {task : ρ → τ} {V : FifoView κ ρ}
  {c : FifoCall δ ρ τ} {a : FifoAnswer δ} {l : List (FifoCall δ ρ τ × FifoAnswer δ)}

structure Follows (buffer : FifoBuffer κ δ) (s : Journaled κ δ ρ τ) (V : FifoView κ ρ) : Prop where
  keeps : Watched.Keeps buffer { fifo := s.fifo, view := V }
  data : s.fifo.data = buffer.data
  counts : s.journal.Counts buffer.data V

theorem follows_start (buffer : FifoBuffer κ δ) (task : ρ → τ) :
    Follows buffer (start buffer task) (FifoView.init buffer.items) := by
  refine ⟨Watched.keeps_start buffer task, construct_data buffer.data task buffer.distinct,
    rfl, fun _ => rfl, fun _ _ => ⟨rfl, rfl⟩, ?_, ?_⟩
  · intro r hr
    exact absurd hr List.not_mem_nil
  · intro r hr
    exact absurd hr List.not_mem_nil

private theorem Follows.legal (h : Follows buffer s V) (hlegal : s.Legal c) (hreleased : s.Released c) :
    Watched.Legal { fifo := s.fifo, view := V } c := by
  cases c with
  | associateReader r =>
      have hroom := hlegal.2
      rw [h.counts.readers] at hroom
      exact hroom
  | releaseReader r => exact hlegal
  | synchronize t volume =>
      intro r hreader
      have hreader' : s.journal.readerOf s.fifo.task t = some r := by
        rw [Journal.readerOf, h.counts.readers]
        exact hreader
      have hr : r ∈ V.readers := List.mem_of_find?_eq_some hreader
      have hpoints := h.keeps.consistent.points r
      refine ⟨?_, ?_⟩
      · have hasked := hlegal r hreader'
        have hlength := h.counts.length_behind hr
        show volume ≤ (V.behind r).length
        omega
      · intro hpos hwindow
        have hwindow : V.window r = [] := hwindow
        rw [← hpoints.elements]
        apply hreleased r hreader' hpos
        rw [hpoints.first, hwindow]
        rfl
  | allocate => trivial
  | release d => trivial
  | push d => trivial
  | pop => trivial
  | readerPop r => trivial
  | readerRelease r d => trivial
  | readerReleaseAll r => trivial

/-- Every legal call answers what the view answers, and the journal goes on to number its elements. -/
theorem Follows.answers (h : Follows buffer s V) (hlegal : s.Legal c ∧ s.Released c) :
    ∃ t, Returns (fun fuel => call fuel s c) (t, (V.call buffer.data s.fifo.task c).2) ∧
      t.journal = s.journal.note s.fifo.task c (V.call buffer.data s.fifo.task c).2 ∧
      s.fifo.SameSetup t.fifo ∧ Follows buffer t (V.call buffer.data s.fifo.task c).1 := by
  have hwatched := h.legal hlegal.1 hlegal.2
  obtain ⟨t, hret, hsetup, hkeeps⟩ := h.keeps.call hwatched
  rw [← h.data]
  refine ⟨⟨t, s.journal.note s.fifo.task c (V.call s.fifo.data s.fifo.task c).2⟩,
    hret.bind (returns_ok _), rfl, hsetup, hkeeps, hsetup.data.trans h.data, ?_⟩
  show (s.journal.note s.fifo.task c (V.call s.fifo.data s.fifo.task c).2).Counts buffer.data
    (V.call s.fifo.data s.fifo.task c).1
  rw [h.data]
  apply h.counts.call h.keeps.consistent.valid buffer.separate
  · rintro r rfl
    exact Or.inr hlegal.1.1
  · rintro r rfl
    exact hlegal.1
  · rintro t volume rfl r hreader
    rw [Journal.readerOf, h.counts.readers] at hreader
    exact (hwatched r hreader).1

private theorem Follows.step (h : Follows buffer s V) (hlegal : s.Legal c ∧ s.Released c) :
    ∃ a t, Calls (fun s c => s.Legal c ∧ s.Released c) call s (c, a) t ∧ ∃ W, Follows buffer t W := by
  obtain ⟨t, hret, _, _, hfollows⟩ := h.answers hlegal
  exact ⟨_, t, ⟨hlegal, hret⟩, _, hfollows⟩

/-- A pop gives the next push that has not been read, up to the given number of them. -/
def Pops (s : Journaled κ δ ρ τ) (r : ρ) (limit : Nat) (a : FifoAnswer δ) : Prop :=
  if (s.journal.reads r).length < limit ∧
      (s.fifo.reader r).allocated_elements.length < maximumFifoReaderLinks then
    ∃ d, a = .data (some d) ∧ s.journal.origin d = (s.journal.reads r).length
  else a = .data none

theorem Follows.pops (h : Follows buffer s V) (r : ρ) :
    s.Pops r (s.journal.asked r) (V.call buffer.data s.fifo.task (.readerPop r)).2 := by
  have hvalid : V.Valid := h.keeps.consistent.valid
  have hasked := h.counts.window_ne_nil_iff hvalid (r := r)
  rw [Pops, (h.keeps.consistent.points r).elements]
  cases hwindow : V.window r with
  | nil =>
      rw [if_neg fun hboth => hasked.mpr hboth.1 hwindow]
      simp [FifoView.call, hwindow]
  | cons e l =>
      have hr : r ∈ V.readers := by
        by_contra hr
        simp [(hvalid.idle r hr).1] at hwindow
      by_cases hlinks : (V.held r).length < maximumFifoReaderLinks
      · rw [if_pos ⟨hasked.mp (by simp [hwindow]), hlinks⟩]
        exact ⟨buffer.data e, by simp [FifoView.call, hwindow, hlinks], h.counts.origin_head hr hwindow⟩
      · rw [if_neg fun hboth => hlinks hboth.2]
        simp [FifoView.call, hwindow, hlinks]

/-- In every run in which the readers release in time, each reader pops a prefix of the pushes,
whatever is called next returns, and a pop gives the next push that the reader has been synchronized
by. -/
theorem run_delivers (buffer : FifoBuffer κ δ) (task : ρ → τ)
    (h : Run (Calls (fun s c => s.Legal c ∧ s.Released c) call) (start buffer task) l s) (r : ρ) :
    s.journal.reads r <+: List.range s.journal.pushed ∧
      (∀ c, s.Legal c → s.Released c →
        ∃ a t, Calls (fun s c => s.Legal c ∧ s.Released c) call s (c, a) t) ∧
      ∀ a t, Calls (fun s c => s.Legal c ∧ s.Released c) call s (.readerPop r, a) t →
        s.Pops r (s.journal.asked r) a := by
  have hinv : ∃ V, Follows buffer s V := by
    apply run_calls_invariant _ ⟨_, follows_start buffer task⟩ h
    intro t c ⟨V, hV⟩ hlegal
    exact hV.step hlegal
  obtain ⟨V, hV⟩ := hinv
  refine ⟨hV.counts.reads_prefix, ?_, ?_⟩
  · intro c hlegal hreleased
    obtain ⟨a, t, hcall, _⟩ := hV.step ⟨hlegal, hreleased⟩
    exact ⟨a, t, hcall⟩
  · intro a t hcall
    obtain ⟨u, hret, _⟩ := hV.answers hcall.1
    have hanswer : a = (V.call buffer.data s.fifo.task (.readerPop r)).2 :=
      congrArg Prod.snd (hcall.2.unique hret)
    rw [hanswer]
    exact hV.pops r

def oneReader : Journaled Nat Nat Nat Nat := start ⟨[0, 1], id, Watched.nodup_pair, fun _ _ h => h⟩ id

theorem legal_synchronize {r : ρ} {t' : τ} {volume : Nat}
    (hreader : s.journal.readerOf s.fifo.task t' = some r)
    (h : s.journal.asked r + volume ≤ s.journal.pushed) : s.Legal (.synchronize t' volume) := by
  intro a ha
  obtain rfl : r = a := Option.some.inj (hreader.symm.trans ha)
  exact h

theorem released_synchronize {r : ρ} {t' : τ} {volume : Nat}
    (hreader : s.journal.readerOf s.fifo.task t' = some r)
    (h : (s.fifo.reader r).allocated_elements = []) : s.Released (.synchronize t' volume) := by
  intro a ha _ _
  obtain rfl : r = a := Option.some.inj (hreader.symm.trans ha)
  exact h

/-- A reader that releases in time pops both pushes. -/
theorem run_delivers_both : ∃ s, Run (Calls (fun s c => s.Legal c ∧ s.Released c) call) oneReader
    [(.associateReader 0, .nothing), (.allocate, .data (some 1)), (.push 1, .pushed true),
      (.allocate, .data (some 0)), (.push 0, .pushed true), (.synchronize 0 1, .nothing),
      (.readerPop 0, .data (some 1)), (.readerRelease 0 1, .nothing), (.synchronize 0 1, .nothing),
      (.readerPop 0, .data (some 0))] s ∧
    s.journal.reads 0 = [0, 1] ∧ s.journal.reads 0 <+: List.range s.journal.pushed ∧
    ∀ a t, Calls (fun s c => s.Legal c ∧ s.Released c) call s (.readerPop 0, a) t → a = .data none := by
  have h₀ : Run (Calls (fun s c => s.Legal c ∧ s.Released c) call) oneReader [] oneReader := .start
  have h₁ := h₀.next_call 9 (.associateReader 0) ⟨⟨rfl, Or.inr (by decide)⟩, trivial⟩ fun fuel => rfl
  have h₂ := h₁.next_call 9 (.allocate) ⟨trivial, trivial⟩ fun fuel => rfl
  have h₃ := h₂.next_call 9 (.push 1) ⟨trivial, trivial⟩ fun fuel => rfl
  have h₄ := h₃.next_call 9 (.allocate) ⟨trivial, trivial⟩ fun fuel => rfl
  have h₅ := h₄.next_call 9 (.push 0) ⟨trivial, trivial⟩ fun fuel => rfl
  have h₆ := h₅.next_call 9 (.synchronize 0 1)
    ⟨legal_synchronize (r := 0) rfl (by decide), released_synchronize (r := 0) rfl rfl⟩
    fun fuel => rfl
  have h₇ := h₆.next_call 9 (.readerPop 0) ⟨trivial, trivial⟩ fun fuel => rfl
  have h₈ := h₇.next_call 9 (.readerRelease 0 1) ⟨trivial, trivial⟩ fun fuel => rfl
  have h₉ := h₈.next_call 9 (.synchronize 0 1)
    ⟨legal_synchronize (r := 0) rfl (by decide), released_synchronize (r := 0) rfl rfl⟩
    fun fuel => rfl
  have hrun := h₉.next_call 9 (.readerPop 0) ⟨trivial, trivial⟩ fun fuel => rfl
  obtain ⟨hreads, _, hpops⟩ := run_delivers _ _ hrun 0
  exact ⟨_, hrun, rfl, hreads, hpops⟩

/-- One that keeps what it popped pops it again when it is synchronized. -/
theorem reads_again : ∃ s, Run (Calls Legal call) oneReader
    [(.associateReader 0, .nothing), (.allocate, .data (some 1)), (.push 1, .pushed true),
      (.allocate, .data (some 0)), (.push 0, .pushed true), (.synchronize 0 1, .nothing),
      (.readerPop 0, .data (some 1)), (.synchronize 0 1, .nothing), (.readerPop 0, .data (some 1))] s ∧
    s.journal.reads 0 = [0, 0] ∧ ¬ s.journal.reads 0 <+: List.range s.journal.pushed := by
  have h₀ : Run (Calls Legal call) oneReader [] oneReader := .start
  have h₁ := h₀.next_call 9 (.associateReader 0) ⟨rfl, Or.inr (by decide)⟩ fun fuel => rfl
  have h₂ := h₁.next_call 9 (.allocate) trivial fun fuel => rfl
  have h₃ := h₂.next_call 9 (.push 1) trivial fun fuel => rfl
  have h₄ := h₃.next_call 9 (.allocate) trivial fun fuel => rfl
  have h₅ := h₄.next_call 9 (.push 0) trivial fun fuel => rfl
  have h₆ := h₅.next_call 9 (.synchronize 0 1)
    (legal_synchronize (r := 0) rfl (by decide)) fun fuel => rfl
  have h₇ := h₆.next_call 9 (.readerPop 0) trivial fun fuel => rfl
  have h₈ := h₇.next_call 9 (.synchronize 0 1)
    (legal_synchronize (r := 0) rfl (by decide)) fun fuel => rfl
  have hrun := h₈.next_call 9 (.readerPop 0) trivial fun fuel => rfl
  exact ⟨_, hrun, rfl, by decide⟩

end Journaled

end TaskingFramework
