import TaskingFramework.Fifo.Pipeline

/-!
# The input and the reader keep in step

The notifications that the input holds and the elements that the reader has not read come from the same
pushes. In every run of the task its reader gets the bunch of elements whose notifications the reset of
the input takes out behind the run.
-/

set_option linter.unusedSectionVars false

namespace TaskingFramework

open Foundation

namespace Journal

variable {κ δ ρ τ : Type} [DecidableEq κ] [DecidableEq δ] [DecidableEq ρ] [DecidableEq τ]
  {J : Journal δ ρ} {task : ρ → τ} {c : FifoCall δ ρ τ} {a : FifoAnswer δ}

private theorem note_asked (hc : ∀ t volume, c ≠ .synchronize t volume) :
    (J.note task c a).asked = J.asked := by
  unfold note
  split
  · rfl
  · split <;> rfl
  · exact absurd rfl (hc _ _)
  · rfl
  · rfl

private theorem pushed_note (hc : ∀ d, c ≠ .push d) : (J.note task c a).pushed = J.pushed := by
  unfold note
  split
  · exact absurd rfl (hc _)
  · split <;> rfl
  · split <;> rfl
  · rfl
  · rfl

private theorem pushed_le_note : J.pushed ≤ (J.note task c a).pushed := by
  unfold note
  split
  · exact Nat.le_succ _
  · split <;> exact Nat.le_refl _
  · split <;> exact Nat.le_refl _
  · exact Nat.le_refl _
  · exact Nat.le_refl _

end Journal

/-- The call changes what a reader holds. -/
def FifoCall.Takes {δ ρ τ : Type} : FifoCall δ ρ τ → Prop
  | .releaseReader _ | .readerPop _ | .readerRelease _ _ | .readerReleaseAll _ => True
  | .allocate | .release _ | .push _ | .pop | .associateReader _ | .synchronize _ _ => False

namespace FifoView

variable {κ δ ρ τ : Type} [DecidableEq κ] [DecidableEq δ] [DecidableEq ρ] [DecidableEq τ]
  {V : FifoView κ ρ} {data : κ → δ} {task : ρ → τ} {c : FifoCall δ ρ τ}

private theorem call_held (hc : ¬ c.Takes) : (V.call data task c).1.held = V.held := by
  cases c with
  | releaseReader r | readerPop r | readerRelease r d | readerReleaseAll r => exact absurd trivial hc
  | associateReader r =>
      simp only [call]
      split <;> rfl
  | allocate | release d | push d | pop | synchronize t volume =>
      simp only [call]
      split <;> rfl

private theorem call_readers_cases (hstay : ∀ r, c ≠ .releaseReader r) :
    (V.call data task c).1.readers = V.readers ∨
      ∃ r, c = .associateReader r ∧ (V.call data task c).1.readers = r :: V.readers := by
  by_cases hcome : ∃ r, c = .associateReader r
  · obtain ⟨r, rfl⟩ := hcome
    simp only [call]
    split
    · exact Or.inl rfl
    · exact Or.inr ⟨r, rfl, rfl⟩
  · exact Or.inl (call_readers (fun r hr => hcome ⟨r, hr⟩) hstay)

end FifoView

namespace Pipeline

variable {κ δ ρ τ σ ε γ ν : Type} [DecidableEq κ] [DecidableEq δ] [DecidableEq ρ] [DecidableEq τ]
  [DecidableEq σ] [DecidableEq ε] [DecidableEq γ] [DecidableEq ν] {L : Layout τ σ ε γ} {t : τ} {r : ρ}
  {k : Nat} {buffer : FifoBuffer κ δ} {s : Pipeline κ δ ρ τ σ ε γ ν} {V : FifoView κ ρ}
  {N : Nat → Nat} {X : Nat} {e : ε} {v : ν} {c : FifoCall δ ρ τ} {a : SystemAction τ ε ν}

/-- The pushes that have not notified the input yet. -/
def coming (s : Pipeline κ δ ρ τ σ ε γ ν) : Nat :=
  match s.m_fifo_mutex with
  | .pushed _ => 1
  | .free | .notified _ => 0

/-- The input has received `N 0` notifications and been reset `X` times. -/
structure InStep (L : Layout τ σ ε γ) (t : τ) (r : ρ) (k : Nat) (buffer : FifoBuffer κ δ)
    (s : Pipeline κ δ ρ τ σ ε γ ν) (V : FifoView κ ρ) (N : Nat → Nat) (X : Nat) : Prop where
  follows : Journaled.Follows buffer s.channel V
  reads : s.channel.fifo.task r = t
  only : ∀ a ∈ V.readers, a = r
  associated : s.channel.journal.pushed ≠ 0 → r ∈ V.readers
  apart : s.system.Apart L t
  phase : Phase 1 (fun _ => k) N X (s.system.view L t)
  arrived : N 0 + s.coming ≤ s.channel.journal.pushed
  asked : s.channel.journal.asked r = k * s.runs
  begun : ∀ e, s.system.executor e = .executing t → s.runs = X + 1
  ended : (∀ e, s.system.executor e ≠ .executing t) → s.runs = X ∧ V.held r = []
  volume : ∀ e n, s.volume e = some n → s.system.executor e = .fetched t ∧ n = k

private theorem InStep.use (h : InStep L t r k buffer s V N X)
    (hlegal : s.channel.Legal c ∧ s.channel.Released c)
    (hc : ∀ t volume, c ≠ .synchronize t volume) (hcome : ∀ a, c = .associateReader a → a = r)
    (hpush : ∀ d, c = .push d → r ∈ V.readers)
    (hheld : c.Takes → ∃ e, s.system.executor e = .executing t) :
    ∃ channel, Returns (fun fuel => s.use fuel c)
        ({ s with channel := channel }, (V.call buffer.data s.channel.fifo.task c).2) ∧
      InStep L t r k buffer { s with channel := channel }
        (V.call buffer.data s.channel.fifo.task c).1 N X ∧
      channel.journal = s.channel.journal.note s.channel.fifo.task c
        (V.call buffer.data s.channel.fifo.task c).2 := by
  obtain ⟨channel, hret, hjournal, hsetup, hfollows⟩ := h.follows.answers hlegal
  have hstay : ∀ a, c ≠ .releaseReader a := by
    rintro a rfl
    exact hlegal.1
  have hreaders : (V.call buffer.data s.channel.fifo.task c).1.readers = V.readers ∨
      ∃ a, c = .associateReader a ∧
        (V.call buffer.data s.channel.fifo.task c).1.readers = a :: V.readers :=
    FifoView.call_readers_cases hstay
  refine ⟨channel, hret.bind (returns_ok _), ⟨hfollows, (hsetup.task r).trans h.reads, ?_, ?_, h.apart,
    h.phase, ?_, ?_, h.begun, ?_, h.volume⟩, hjournal⟩
  · intro a ha
    rcases hreaders with heq | ⟨b, hb, heq⟩
    · exact h.only a (heq ▸ ha)
    · rw [heq] at ha
      rcases List.mem_cons.mp ha with rfl | ha
      · exact hcome a hb
      · exact h.only a ha
  · intro hpushed
    have hmem : r ∈ V.readers := by
      by_cases hpushes : ∃ d, c = .push d
      · obtain ⟨d, hd⟩ := hpushes
        exact hpush d hd
      · have hsame : channel.journal.pushed = s.channel.journal.pushed := by
          rw [hjournal]
          exact Journal.pushed_note fun d hd => hpushes ⟨d, hd⟩
        rw [hsame] at hpushed
        exact h.associated hpushed
    rcases hreaders with heq | ⟨b, _, heq⟩
    · exact heq ▸ hmem
    · exact heq ▸ List.mem_cons_of_mem b hmem
  · show N 0 + s.coming ≤ channel.journal.pushed
    rw [hjournal]
    exact Nat.le_trans h.arrived Journal.pushed_le_note
  · show channel.journal.asked r = k * s.runs
    rw [hjournal, Journal.note_asked hc]
    exact h.asked
  · intro hnone
    obtain ⟨hruns, hempty⟩ := h.ended hnone
    refine ⟨hruns, ?_⟩
    rw [FifoView.call_held fun htakes => ?_, hempty]
    obtain ⟨e, he⟩ := hheld htakes
    exact hnone e he

private theorem event_of_admits (h : s.Admits t r a) (i : Nat) : a.event t ≠ .notified i := by
  cases a with
  | notify c u j =>
      have hu : u ≠ t := h
      simp [SystemAction.event, hu]
  | executed f u =>
      by_cases hu : u = t <;> simp [SystemAction.event, hu]
  | check | activate | nextTask | synchronizeStart | finish | isExecuted | reset | leave =>
      simp [SystemAction.event]

private theorem InStep.unique (h : InStep L t r k buffer s V N X) {f : ε}
    (he : (s.system.executor e).stage t ≠ none) (hf : (s.system.executor f).stage t ≠ none) : e = f :=
  h.phase.exclusive.2 e f he hf

private theorem stage_executing (h : s.system.executor e = .executing t) :
    (s.system.executor e).stage t ≠ none := by
  simp [h, ExecutePc.stage]

private theorem stage_fetched (h : s.system.executor e = .fetched t) :
    (s.system.executor e).stage t ≠ none := by
  simp [h, ExecutePc.stage]

private theorem InStep.act (hL : L.Ungrouped t) (hk : 0 < k) (h : InStep L t r k buffer s V N X)
    {system : System τ σ ε γ ν} (hstep : System.Step L s.system a system) (hadmits : s.Admits t r a) :
    InStep L t r k buffer { s with system := system } V N
      (X + if a.event t = .executed then 1 else 0) := by
  have hview := System.step_view hL h.apart hstep
  have hphase := h.phase.step Nat.one_pos (fun _ _ => hk) hview
    fun i _ hi => absurd hi (event_of_admits hadmits i)
  have hN : (fun i => N i + if a.event t = .notified i then 1 else 0) = N := by
    funext i
    rw [if_neg (event_of_admits hadmits i), Nat.add_zero]
  rw [hN] at hphase
  have hstart : ∀ f, s.system.executor f = .fetched t → a ≠ .synchronizeStart f := by
    rintro f hf rfl
    exact hadmits hf
  have hbefore : ∀ f, system.executor f = .executing t → s.system.executor f = .executing t := by
    intro f hf
    rcases System.step_executing_of hstep hf with hexecuting | ⟨hact, hfetched⟩
    · exact hexecuting
    · exact absurd hact (hstart f hfetched)
  refine ⟨h.follows, h.reads, h.only, h.associated, System.apart_step hL h.apart hstep, hphase,
    h.arrived, h.asked, ?_, ?_, ?_⟩
  · intro f hf
    have hsilent : a.event t ≠ .executed := by
      intro hevent
      obtain ⟨e, rfl⟩ := System.event_executed hevent
      obtain ⟨he, hafter⟩ := System.executed_executor hstep
      obtain rfl := h.unique (stage_executing he) (stage_executing (hbefore f hf))
      exact L.finalizeExecution_ne_executing t t (hafter.symm.trans hf)
    rw [if_neg hsilent]
    exact h.begun f (hbefore f hf)
  · intro hnone
    by_cases hevent : a.event t = .executed
    · obtain ⟨e, rfl⟩ := System.event_executed hevent
      have he := (System.executed_executor hstep).1
      rw [if_pos hevent, ← (h.follows.keeps.consistent.points r).elements]
      exact ⟨h.begun e he, hadmits rfl⟩
    · rw [if_neg hevent]
      refine h.ended fun f hf => ?_
      rcases System.step_executing hstep hf with hafter | rfl
      · exact hnone f hafter
      · exact hevent (by simp [SystemAction.event])
  · intro f n hn
    obtain ⟨hf, rfl⟩ := h.volume f n hn
    rcases System.step_fetched hstep hf with hafter | hact
    · exact ⟨hafter, rfl⟩
    · exact absurd hact (hstart f hf)

private theorem InStep.notifyInput (hL : L.Ungrouped t) (hk : k < 2 ^ 32)
    (h : InStep L t r k buffer s V N X)
    {system : System τ σ ε γ ν} (hmutex : s.m_fifo_mutex = .pushed v)
    (hstep : System.Step L s.system (.notify v t 0) system) :
    ∃ N', InStep L t r k buffer { s with system := system, m_fifo_mutex := .notified v } V N' X := by
  have hview := System.step_view hL h.apart hstep
  have hevent : (SystemAction.notify v t 0 : SystemAction τ ε ν).event t = .notified 0 := by
    simp [SystemAction.event]
  rw [hevent] at hview
  obtain ⟨N', hphase, hN'⟩ := h.phase.step_notified hview hk
  have hexecutor := System.step_executor_eq hstep rfl
  have harrived := h.arrived
  rw [show s.coming = 1 by simp [coming, hmutex]] at harrived
  refine ⟨N', h.follows, h.reads, h.only, h.associated, System.apart_step hL h.apart hstep, hphase, ?_,
    h.asked, ?_, ?_, ?_⟩
  · show N' 0 + 0 ≤ s.channel.journal.pushed
    omega
  · show ∀ e, system.executor e = .executing t → s.runs = X + 1
    rw [hexecutor]
    exact h.begun
  · show (∀ e, system.executor e ≠ .executing t) → s.runs = X ∧ V.held r = []
    rw [hexecutor]
    exact h.ended
  · show ∀ e n, s.volume e = some n → system.executor e = .fetched t ∧ n = k
    rw [hexecutor]
    exact h.volume

private theorem InStep.setMutex (h : InStep L t r k buffer s V N X) (mutex : FifoMutex ν)
    (hN : N 0 + coming { s with m_fifo_mutex := mutex } ≤ s.channel.journal.pushed) :
    InStep L t r k buffer { s with m_fifo_mutex := mutex } V N X :=
  ⟨h.follows, h.reads, h.only, h.associated, h.apart, h.phase, hN, h.asked, h.begun, h.ended, h.volume⟩

private theorem InStep.getNotifications_eq (h : InStep L t r k buffer s V N X)
    (he : s.system.executor e = .fetched t) : s.getNotifications t = k ∧ k * (X + 1) ≤ N 0 := by
  have hstage : (s.system.view L t).stage e = some .fetched := by
    simp [System.view, he, ExecutePc.stage]
  obtain ⟨⟨m, hinputs, hm⟩, henough⟩ := h.phase.runs (Or.inl hstage)
  have hle : k * (X + 1) ≤ N 0 := henough 0 Nat.one_pos
  have hsum : m 0 + k * X = N 0 := hm 0 Nat.one_pos
  refine ⟨?_, hle⟩
  rw [getNotifications, show (s.system.task t).inputs = .synchronous 1 (fun _ => k) m from hinputs,
    InputArray.synchronous_getElem?, if_pos Nat.one_pos]
  rw [Nat.mul_succ] at hle
  simp only [Input.synchronous]
  omega

private theorem InStep.getNotifications (h : InStep L t r k buffer s V N X)
    (he : s.system.executor e = .fetched t) :
    InStep L t r k buffer
      { s with volume := Function.update s.volume e (some (s.getNotifications t)) } V N X := by
  refine ⟨h.follows, h.reads, h.only, h.associated, h.apart, h.phase, h.arrived, h.asked, h.begun,
    h.ended, ?_⟩
  intro f n hn
  have hn : Function.update s.volume e (some (s.getNotifications t)) f = some n := hn
  by_cases hfe : f = e
  · subst f
    rw [Function.update_self, Option.some.injEq] at hn
    exact ⟨he, hn ▸ (h.getNotifications_eq he).1⟩
  · rw [Function.update_of_ne hfe] at hn
    exact h.volume f n hn

private theorem InStep.synchronizeStart (hL : L.Ungrouped t) (hk : 0 < k)
    (h : InStep L t r k buffer s V N X) {system : System τ σ ε γ ν} (hvolume : s.volume e = some k)
    (hstep : System.Step L s.system (.synchronizeStart e) system) :
    ∃ channel W, Returns (fun fuel => s.use fuel (.synchronize t k))
        ({ s with channel := channel }, .nothing) ∧
      InStep L t r k buffer { s with
        system := system
        channel := channel
        volume := Function.update s.volume e none
        runs := s.runs + 1 } W N X ∧
      ∃ last, (channel.fifo.reader r).fifo_first ≠ none ∧
        (channel.fifo.reader r).fifo_last = some last ∧
        channel.journal.origin (buffer.data last) + 1 = k * (s.runs + 1) := by
  have he := (h.volume e k hvolume).1
  have hle := (h.getNotifications_eq he).2
  have hnone : ∀ f, s.system.executor f ≠ .executing t := by
    intro f hf
    obtain rfl := h.unique (stage_fetched he) (stage_executing hf)
    simp [he] at hf
  obtain ⟨hruns, hheld⟩ := h.ended hnone
  have harrived := h.arrived
  have hasked := h.asked
  rw [Nat.mul_succ, ← hruns] at hle
  have hr : r ∈ V.readers := h.associated (by omega)
  have hfind : V.readers.find? (fun a => s.channel.fifo.task a = t) = some r := by
    have hsome : (V.readers.find? fun a => s.channel.fifo.task a = t).isSome = true :=
      List.find?_isSome.mpr ⟨r, hr, by simpa using h.reads⟩
    obtain ⟨a, ha⟩ := Option.isSome_iff_exists.mp hsome
    rw [ha, h.only a (List.mem_of_find?_eq_some ha)]
  have hreader : s.channel.journal.readerOf s.channel.fifo.task t = some r := by
    rw [Journal.readerOf, h.follows.counts.readers]
    exact hfind
  have hreleased : (s.channel.fifo.reader r).allocated_elements = [] := by
    rw [(h.follows.keeps.consistent.points r).elements, hheld]
  have hlegal : s.channel.Legal (.synchronize t k) :=
    Journaled.legal_synchronize hreader (by omega)
  obtain ⟨channel, hret, hjournal, hsetup, hfollows⟩ :=
    h.follows.answers ⟨hlegal, Journaled.released_synchronize hreader hreleased⟩
  simp only [FifoView.call, hfind] at hret hjournal hfollows
  simp only [Journal.note, hreader] at hjournal
  have hasked' : channel.journal.asked r = k * (s.runs + 1) := by
    rw [hjournal]
    simp only [Function.update_self, hasked, Nat.mul_succ]
  have hpushed : channel.journal.pushed = s.channel.journal.pushed := by rw [hjournal]
  have hview := System.step_view hL h.apart hstep
  have hphase := h.phase.step Nat.one_pos (fun _ _ => hk) hview
    fun i _ hi => absurd hi (by simp [SystemAction.event])
  have hexecuting := System.started_executor hstep he
  refine ⟨channel, V.synchronize r k, hret.bind (returns_ok _), ⟨hfollows,
    (hsetup.task r).trans h.reads, h.only, fun _ => hr, System.apart_step hL h.apart hstep, hphase, ?_,
    hasked', ?_, ?_, ?_⟩, ?_⟩
  · show N 0 + s.coming ≤ channel.journal.pushed
    rw [hpushed]
    exact harrived
  · intro f _
    exact congrArg (· + 1) hruns
  · intro hafter
    exact absurd hexecuting (hafter e)
  · intro f n hn
    have hn : Function.update s.volume e none f = some n := hn
    by_cases hfe : f = e
    · subst f
      simp at hn
    · rw [Function.update_of_ne hfe] at hn
      exact absurd (h.unique (stage_fetched (h.volume f n hn).1) (stage_fetched he)) hfe
  · have hlength := h.follows.counts.length_behind hr
    have hpoints := hfollows.keeps.consistent.points r
    have hwindow : (V.synchronize r k).window r ≠ [] := by
      intro hnil
      simp only [FifoView.synchronize, Function.update_self, List.append_eq_nil_iff,
        List.take_eq_nil_iff] at hnil
      rcases hnil.2 with hzero | hbehind
      · omega
      · rw [hbehind, List.length_nil] at hlength
        omega
    have hlast := List.getLast?_eq_some_getLast hwindow
    refine ⟨((V.synchronize r k).window r).getLast hwindow, ?_, ?_, ?_⟩
    · rw [hpoints.first]
      exact fun hnil => hwindow (List.head?_eq_none_iff.mp hnil)
    · rw [hpoints.last hwindow, hlast]
    · rw [hfollows.counts.origin_last hr hlast, hasked']

private theorem act_eq {system : System τ σ ε γ ν} (h : System.Step L s.system a system) :
    s.act L a = { s with system := system } := by
  have hstep : s.system.step L a = some system := h
  rw [act, hstep, Option.getD_some]

private theorem exists_step (h : (s.system.step L a).isSome = true) :
    ∃ system, System.Step L s.system a system :=
  Option.isSome_iff_exists.mp h

/-- The reader may be popped up to the last element of the run that has begun last. -/
def EndsAtRun (r : ρ) (k : Nat) (buffer : FifoBuffer κ δ) (s : Pipeline κ δ ρ τ σ ε γ ν) : Prop :=
  ∃ last, (s.channel.fifo.reader r).fifo_first ≠ none ∧
    (s.channel.fifo.reader r).fifo_last = some last ∧
    s.channel.journal.origin (buffer.data last) + 1 = k * s.runs

private theorem InStep.calls (h : InStep L t r k buffer s V N X) {action : PipelineAction δ τ ε ν}
    (hlegal : s.Legal L t r action) (hcall : ∀ fuel, s.call L t r fuel action = s.use fuel c)
    (hc : s.channel.Legal c ∧ s.channel.Released c) (hsynchronize : ∀ t n, c ≠ .synchronize t n)
    (hcome : ∀ a, c = .associateReader a → a = r) (hpush : ∀ d, c ≠ .push d)
    (htakes : c.Takes → ∃ e, s.system.executor e = .executing t) :
    ∃ b u, Calls (Legal L t r) (call L t r) s (action, b) u ∧
      ∃ W N' Y, InStep L t r k buffer u W N' Y := by
  obtain ⟨channel, hret, hnext, _⟩ :=
    h.use hc hsynchronize hcome (fun d hd => absurd hd (hpush d)) htakes
  exact ⟨_, _, ⟨hlegal, hret.congr fun fuel => (hcall fuel).symm⟩, _, _, _, hnext⟩

private theorem InStep.push (h : InStep L t r k buffer s V N X) {d : δ}
    (hlegal : s.Legal L t r (.push v d)) :
    ∃ b u, Calls (Legal L t r) (call L t r) s (.push v d, b) u ∧
      ∃ W N' Y, InStep L t r k buffer u W N' Y := by
  obtain ⟨hmutex, hidle, hassociated⟩ := hlegal
  have hr : r ∈ V.readers := (h.follows.keeps.consistent.attached r).mp hassociated
  obtain ⟨channel, hret, hnext, hjournal⟩ :=
    h.use (c := .push d) ⟨trivial, trivial⟩ (by simp) (by simp) (fun _ _ => hr)
      (by simp [FifoCall.Takes])
  have harrived := h.arrived
  rw [show s.coming = 0 by simp [coming, hmutex]] at harrived
  refine ⟨_, _, ⟨⟨hmutex, hidle, hassociated⟩, hret.bind (returns_ok _)⟩, _, _, _,
    hnext.setMutex _ ?_⟩
  show N 0 + coming _ ≤ channel.journal.pushed
  rw [hjournal]
  cases hfind : V.allocated.find? fun e => buffer.data e = d with
  | none => simpa [FifoView.call, hfind, coming, Journal.note] using harrived
  | some e => simpa [FifoView.call, hfind, coming, Journal.note] using harrived

private theorem InStep.begins (hL : L.Ungrouped t) (hk : 0 < k) (h : InStep L t r k buffer s V N X)
    (hlegal : s.Legal L t r (.synchronizeStart e)) :
    ∃ b u, Calls (Legal L t r) (call L t r) s (.synchronizeStart e, b) u ∧
      (∃ W N' Y, InStep L t r k buffer u W N' Y) ∧ EndsAtRun r k buffer u ∧ u.runs = s.runs + 1 := by
  obtain ⟨n, hn⟩ := Option.isSome_iff_exists.mp hlegal.2.1
  obtain ⟨_, rfl⟩ := h.volume e n hn
  obtain ⟨system, hstep⟩ := exists_step hlegal.2.2
  obtain ⟨channel, W, hret, hnext, hends⟩ := h.synchronizeStart hL hk hn hstep
  refine ⟨.nothing, _, ⟨hlegal, ?_⟩, ⟨W, N, X, hnext⟩, hends, rfl⟩
  have hact : Pipeline.act L { s with channel := channel } (.synchronizeStart e) =
      { s with system := system, channel := channel } := act_eq hstep
  show Returns (fun fuel => s.call L t r fuel (.synchronizeStart e)) _
  simp only [call, hn, Option.getD_some]
  refine hret.bind ?_
  simp only [hact]
  exact returns_ok _

private theorem InStep.pops (h : InStep L t r k buffer s V N X) {b : FifoAnswer δ}
    {u : Pipeline κ δ ρ τ σ ε γ ν} (hcall : Calls (Legal L t r) (call L t r) s (.readerPop e, b) u) :
    s.channel.Pops r (k * s.runs) b := by
  obtain ⟨channel, hret, _⟩ := h.follows.answers (c := .readerPop r) ⟨trivial, trivial⟩
  have huse : Returns (fun fuel => s.call L t r fuel (.readerPop e))
      ({ s with channel := channel }, (V.call buffer.data s.channel.fifo.task (.readerPop r)).2) :=
    hret.bind (returns_ok _)
  have hanswer : b = (V.call buffer.data s.channel.fifo.task (.readerPop r)).2 :=
    congrArg Prod.snd (hcall.2.unique huse)
  rw [hanswer, ← h.asked]
  exact h.follows.pops r

private theorem InStep.step (hL : L.Ungrouped t) (hk : 0 < k) (hk' : k < 2 ^ 32)
    (h : InStep L t r k buffer s V N X) {action : PipelineAction δ τ ε ν}
    (hlegal : s.Legal L t r action) :
    ∃ b u, Calls (Legal L t r) (call L t r) s (action, b) u ∧
      ∃ W N' Y, InStep L t r k buffer u W N' Y := by
  cases action with
  | system a =>
      obtain ⟨system, hstep⟩ := exists_step hlegal.1
      refine ⟨.nothing, s.act L a, ⟨hlegal, returns_ok _⟩, ?_⟩
      rw [act_eq hstep]
      exact ⟨_, _, _, h.act hL hk hstep hlegal.2⟩
  | associateReader =>
      have hroom : s.channel.Legal (.associateReader r) := by
        refine ⟨hlegal, ?_⟩
        rw [h.follows.counts.readers]
        by_cases hr : r ∈ V.readers
        · exact Or.inl hr
        · have hnil : V.readers = [] :=
            List.eq_nil_iff_forall_not_mem.mpr fun a ha => hr (h.only a ha ▸ ha)
          simp [hnil]
      exact h.calls hlegal (fun _ => rfl) ⟨hroom, trivial⟩ (by simp) (by simp) (by simp)
        (by simp [FifoCall.Takes])
  | allocate =>
      exact h.calls (c := .allocate) hlegal (fun _ => rfl) ⟨trivial, trivial⟩ (by simp) (by simp)
        (by simp) (by simp [FifoCall.Takes])
  | release d =>
      exact h.calls (c := .release d) hlegal (fun _ => rfl) ⟨trivial, trivial⟩ (by simp) (by simp)
        (by simp) (by simp [FifoCall.Takes])
  | push v d => exact h.push hlegal
  | notifyInput v =>
      obtain ⟨system, hstep⟩ := exists_step hlegal.2
      refine ⟨.nothing, { s.act L (.notify v t 0) with m_fifo_mutex := .notified v },
        ⟨hlegal, returns_ok _⟩, ?_⟩
      rw [act_eq hstep]
      obtain ⟨N', hnext⟩ := h.notifyInput hL hk' hlegal.1 hstep
      exact ⟨_, _, _, hnext⟩
  | leave v =>
      refine ⟨.nothing, _, ⟨hlegal, returns_ok _⟩, ⟨_, _, _, h.setMutex .free ?_⟩⟩
      exact Nat.le_trans (Nat.le_add_right _ _) h.arrived
  | getNotifications e =>
      exact ⟨.nothing, _, ⟨hlegal, returns_ok _⟩, _, _, _, h.getNotifications hlegal⟩
  | synchronizeStart e =>
      obtain ⟨b, u, hcalls, hnext, _⟩ := h.begins hL hk hlegal
      exact ⟨b, u, hcalls, hnext⟩
  | readerPop e =>
      exact h.calls (c := .readerPop r) hlegal (fun _ => rfl) ⟨trivial, trivial⟩ (by simp) (by simp)
        (by simp) fun _ => ⟨e, hlegal⟩
  | readerRelease e d =>
      exact h.calls (c := .readerRelease r d) hlegal (fun _ => rfl) ⟨trivial, trivial⟩ (by simp)
        (by simp) (by simp) fun _ => ⟨e, hlegal⟩
  | readerReleaseAll e =>
      exact h.calls (c := .readerReleaseAll r) hlegal (fun _ => rfl) ⟨trivial, trivial⟩ (by simp)
        (by simp) (by simp) fun _ => ⟨e, hlegal⟩

private theorem inStep_start {inputs : τ → InputArray} {schedulers : List σ} {task : ρ → τ}
    (hL : L.Ungrouped t) (hk : 0 < k) (hinputs : inputs t = .configured 1 fun _ => k)
    (hstart : L.associatedScheduler t ∈ schedulers) (htask : task r = t) :
    InStep L t r k buffer
      (start L inputs schedulers buffer task : Pipeline κ δ ρ τ σ ε γ ν)
      (FifoView.init buffer.items) (fun _ => 0) 0 := by
  obtain ⟨hapart, hphase⟩ := System.run_phase (ε := ε) (ν := ν) hL Nat.one_pos (fun _ _ => hk) hinputs
    hstart .start (by simp [System.notifications])
  obtain ⟨hun, _⟩ := System.started_unnotified (L := L) (ε := ε) (ν := ν) (fun _ _ => hk) hinputs hstart
  have hidle : ∀ e, (start L inputs schedulers buffer task : Pipeline κ δ ρ τ σ ε γ
    ν).system.executor e ≠
      .executing t := by
    intro e he
    rw [show (start L inputs schedulers buffer task : Pipeline κ δ ρ τ σ ε γ ν).system.executor e =
      .idle
      from hun.executor e] at he
    simp at he
  refine ⟨Journaled.follows_start buffer task, ?_, by simp [FifoView.init], ?_, hapart, hphase,
    Nat.le_refl 0, rfl, fun e he => absurd he (hidle e), fun _ => ⟨rfl, rfl⟩, by simp [start]⟩
  · show (FifoGeneric.construct buffer.data task buffer.items).task r = t
    obtain ⟨next, hconstruct, _⟩ := construct_unused (ρ := ρ) (τ := τ) buffer.data task buffer.distinct
    rw [hconstruct]
    exact htask
  · intro hpushed
    exact absurd rfl hpushed

/-- In every run of the pushing threads and the task no assertion fails, every run of the task may
read up to the last of its bunches of pushed elements, and the task pops the elements in the order
of the pushes, without gap and as far as the bunches of its runs reach. -/
theorem run_inStep {inputs : τ → InputArray} {schedulers : List σ} {task : ρ → τ}
    {acts : List (PipelineAction δ τ ε ν × FifoAnswer δ)} (hL : L.Ungrouped t) (hk : 0 < k)
    (hk' : k < 2 ^ 32) (hinputs : inputs t = .configured 1 fun _ => k)
    (hstart : L.associatedScheduler t ∈ schedulers) (htask : task r = t)
    (h : Run (Calls (Legal L t r) (call L t r)) (start L inputs schedulers buffer task) acts s) :
    s.channel.journal.reads r <+: List.range s.channel.journal.pushed ∧
      (∀ action, s.Legal L t r action →
        ∃ b u, Calls (Legal L t r) (call L t r) s (action, b) u) ∧
      (∀ e b u, Calls (Legal L t r) (call L t r) s (.synchronizeStart e, b) u →
        u.runs = s.runs + 1 ∧ EndsAtRun r k buffer u) ∧
      ∀ e b u, Calls (Legal L t r) (call L t r) s (.readerPop e, b) u →
        s.channel.Pops r (k * s.runs) b := by
  have hinv : ∃ V N X, InStep L t r k buffer s V N X := by
    apply run_calls_invariant _ ⟨_, _, _, inStep_start hL hk hinputs hstart htask⟩ h
    rintro u action ⟨V, N, X, hu⟩ hlegal
    exact hu.step hL hk hk' hlegal
  obtain ⟨V, N, X, hs⟩ := hinv
  refine ⟨hs.follows.counts.reads_prefix, ?_, ?_, fun e b u => hs.pops⟩
  · intro action hlegal
    obtain ⟨b, u, hcalls, _⟩ := hs.step hL hk hk' hlegal
    exact ⟨b, u, hcalls⟩
  · intro e b u hcalls
    obtain ⟨b', u', hcalls', _, hends, hruns⟩ := hs.begins hL hk hcalls.1
    obtain ⟨_, rfl⟩ := hcalls.unique hcalls'
    exact ⟨hruns, hends⟩

def twoElements : FifoBuffer Nat Nat := ⟨[0, 1], id, Watched.nodup_pair, fun _ _ h => h⟩

def oneTask : Pipeline Nat Nat Unit Unit Unit Unit Unit Unit :=
  start .single (fun _ => .configured 1 fun _ => 2) [()] twoElements fun _ => ()

/-- The answers that the task has got from its pops. -/
def popped (acts : List (PipelineAction Nat Unit Unit Unit × FifoAnswer Nat)) : List (FifoAnswer Nat) :=
  (acts.filter fun i => i.1 = .readerPop ()).map Prod.snd

set_option maxRecDepth 2000 in
/-- Two runs of a task with threshold 2 on a FIFO with two elements. Each of them pops the elements
of its own pushes, and one pop more gives nothing. -/
theorem run_inStep_two : ∃ acts s,
    Run (Calls (Legal .single () ()) (call .single () ())) oneTask acts s ∧ s.runs = 2 ∧
      popped acts = [.data (some 1), .data (some 0), .data none, .data (some 0)] ∧
      s.channel.journal.reads () = [0, 1, 2] ∧ s.channel.journal.pushed = 4 ∧
      ∀ b u, Calls (Legal .single () ()) (call .single () ()) s (.readerPop (), b) u →
        ∃ d, b = .data (some d) ∧ s.channel.journal.origin d = 3 := by
  have h₀ : Run (Calls (Legal .single () ()) (call .single () ())) oneTask [] oneTask := .start
  have h₁ := h₀.next_call 9 .associateReader rfl fun fuel => rfl
  -- two pushes, the second of which activates the task
  have h₂ := h₁.next_call 9 .allocate rfl fun fuel => rfl
  have h₃ := h₂.next_call 9 (.push () 1) ⟨rfl, rfl, rfl⟩ fun fuel => rfl
  have h₄ := h₃.next_call 9 (.notifyInput ()) ⟨rfl, rfl⟩ fun fuel => rfl
  have h₅ := h₄.next_call 9 (.system (.check ())) ⟨rfl, trivial⟩ fun fuel => rfl
  have h₆ := h₅.next_call 9 (.leave ()) ⟨rfl, rfl⟩ fun fuel => rfl
  have h₇ := h₆.next_call 9 .allocate rfl fun fuel => rfl
  have h₈ := h₇.next_call 9 (.push () 0) ⟨rfl, rfl, rfl⟩ fun fuel => rfl
  have h₉ := h₈.next_call 9 (.notifyInput ()) ⟨rfl, rfl⟩ fun fuel => rfl
  have h₁₀ := h₉.next_call 9 (.system (.check ())) ⟨rfl, trivial⟩ fun fuel => rfl
  have h₁₁ := h₁₀.next_call 9 (.system (.activate ())) ⟨rfl, trivial⟩ fun fuel => rfl
  have h₁₂ := h₁₁.next_call 9 (.leave ()) ⟨rfl, rfl⟩ fun fuel => rfl
  -- the first run
  have h₁₃ := h₁₂.next_call 9 (.system (.nextTask () ())) ⟨rfl, trivial⟩ fun fuel => rfl
  have h₁₄ := h₁₃.next_call 9 (.getNotifications ()) rfl fun fuel => rfl
  have h₁₅ := h₁₄.next_call 9 (.synchronizeStart ()) ⟨rfl, rfl, rfl⟩ fun fuel => rfl
  have h₁₆ := h₁₅.next_call 9 (.readerPop ()) rfl fun fuel => rfl
  have h₁₇ := h₁₆.next_call 9 (.readerPop ()) rfl fun fuel => rfl
  have h₁₈ := h₁₇.next_call 9 (.readerRelease () 1) rfl fun fuel => rfl
  have h₁₉ := h₁₈.next_call 9 (.readerRelease () 0) rfl fun fuel => rfl
  have h₂₀ := h₁₉.next_call 9 (.readerPop ()) rfl fun fuel => rfl
  have h₂₁ := h₂₀.next_call 9 (.system (.executed () ())) ⟨rfl, fun _ => rfl⟩ fun fuel => rfl
  have h₂₂ := h₂₁.next_call 9 (.system (.reset ())) ⟨rfl, trivial⟩ fun fuel => rfl
  have h₂₃ := h₂₂.next_call 9 (.system (.reset ())) ⟨rfl, trivial⟩ fun fuel => rfl
  have h₂₄ := h₂₃.next_call 9 (.system (.reset ())) ⟨rfl, trivial⟩ fun fuel => rfl
  have h₂₅ := h₂₄.next_call 9 (.system (.leave ())) ⟨rfl, trivial⟩ fun fuel => rfl
  -- two more pushes
  have h₂₆ := h₂₅.next_call 9 .allocate rfl fun fuel => rfl
  have h₂₇ := h₂₆.next_call 9 (.push () 0) ⟨rfl, rfl, rfl⟩ fun fuel => rfl
  have h₂₈ := h₂₇.next_call 9 (.notifyInput ()) ⟨rfl, rfl⟩ fun fuel => rfl
  have h₂₉ := h₂₈.next_call 9 (.system (.check ())) ⟨rfl, trivial⟩ fun fuel => rfl
  have h₃₀ := h₂₉.next_call 9 (.leave ()) ⟨rfl, rfl⟩ fun fuel => rfl
  have h₃₁ := h₃₀.next_call 9 .allocate rfl fun fuel => rfl
  have h₃₂ := h₃₁.next_call 9 (.push () 1) ⟨rfl, rfl, rfl⟩ fun fuel => rfl
  have h₃₃ := h₃₂.next_call 9 (.notifyInput ()) ⟨rfl, rfl⟩ fun fuel => rfl
  have h₃₄ := h₃₃.next_call 9 (.system (.check ())) ⟨rfl, trivial⟩ fun fuel => rfl
  have h₃₅ := h₃₄.next_call 9 (.system (.activate ())) ⟨rfl, trivial⟩ fun fuel => rfl
  have h₃₆ := h₃₅.next_call 9 (.leave ()) ⟨rfl, rfl⟩ fun fuel => rfl
  -- the second run
  have h₃₇ := h₃₆.next_call 9 (.system (.nextTask () ())) ⟨rfl, trivial⟩ fun fuel => rfl
  have h₃₈ := h₃₇.next_call 9 (.getNotifications ()) rfl fun fuel => rfl
  have h₃₉ := h₃₈.next_call 9 (.synchronizeStart ()) ⟨rfl, rfl, rfl⟩ fun fuel => rfl
  have hrun := h₃₉.next_call 9 (.readerPop ()) rfl fun fuel => rfl
  have hL : Layout.single.Ungrouped () := ⟨rfl, fun _ => List.not_mem_nil⟩
  refine ⟨_, _, hrun, rfl, by decide +kernel, rfl, rfl, ?_⟩
  intro b u hcall
  have hpops := (run_inStep hL Nat.two_pos (by decide) rfl List.mem_cons_self rfl hrun).2.2.2
    () b u hcall
  rw [Journaled.Pops, if_pos ⟨(by decide : 3 < 2 * 2),
    (by decide : 1 < maximumFifoReaderLinks)⟩] at hpops
  exact hpops

end Pipeline

end TaskingFramework
