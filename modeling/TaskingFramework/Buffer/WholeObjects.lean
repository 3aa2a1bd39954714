import TaskingFramework.Buffer.Handover
import TaskingFramework.Task.BarrierRounds

/-!
# Whole objects

A reference is read word by word while the sender may be at work in the buffer. As long as fewer
than `bufferSize` objects wait whenever the sender starts to write, the element behind a reference
is not touched before the execution that has taken the reference ends.
-/

set_option linter.unusedSectionVars false

namespace TaskingFramework

open Foundation

namespace SlotBuffer

variable {bufferSize first m m' : Nat}

/-- The element that the `m`-th object is sent in. -/
def slot (bufferSize first m : Nat) : Nat := (first + m + (bufferSize - 1)) % bufferSize

private theorem slot_succ (h : 0 < bufferSize) :
    slot bufferSize first (m + 1) = (first + m) % bufferSize := by
  have hsum : first + (m + 1) + (bufferSize - 1) = first + m + bufferSize := by omega
  rw [slot, hsum, Nat.add_mod_right]

private theorem slot_ne (hm : m < m') (hm' : m' < m + bufferSize) :
    slot bufferSize first m ≠ slot bufferSize first m' := by
  intro heq
  have hmod : bufferSize ∣ m' - m := by
    have hdvd := Nat.dvd_of_mod_eq_zero (Nat.sub_mod_eq_zero_of_mod_eq heq.symm)
    rwa [show first + m' + (bufferSize - 1) - (first + m + (bufferSize - 1)) = m' - m by omega] at hdvd
  have := Nat.le_of_dvd (by omega) hmod
  omega

end SlotBuffer

namespace Handover

open SlotBuffer

variable {ω δ τ σ ε γ ν : Type} [DecidableEq ω] [DecidableEq τ] [DecidableEq σ] [DecidableEq ε]
  [DecidableEq γ] [DecidableEq ν]

/-- The notification between the switch and `notifyInput`. -/
def coming (s : Handover ω δ τ σ ε γ ν) : Nat :=
  match s.sender with
  | .switched => 1
  | .idle | .copying _ _ | .notified => 0

/-- The objects of the executions to come are whole, and so is the part of the next one that has
been copied. -/
structure Whole (L : Layout τ σ ε γ) (bufferSize first : Nat) (t : τ) (i n : Nat) (k : Nat → Nat)
    (s : Handover ω δ τ σ ε γ ν) : Prop where
  apart : s.system.Apart L t
  phase : ∃ N, Phase n k N s.executions (s.system.view L t) ∧ N i + s.coming ≤ s.sent
  backIndex : s.buffer.backIndex = slot bufferSize first (s.sent + 1)
  bounded : s.sent ≤ s.executions + bufferSize
  whole : ∀ m, s.executions < m → m ≤ s.sent → s.buffer.data (slot bufferSize first m) = s.object m
  copying : ∀ source words, s.sender = .copying source words →
    s.sent < s.executions + bufferSize ∧
      (∀ w ∉ words, s.buffer.data s.buffer.backIndex w = s.object (s.sent + 1) w) ∧
      (∀ w ∈ words, s.buffer.target source w = s.object (s.sent + 1) w) ∧
      (words ≠ [] → source ≠ .element s.buffer.backIndex)
  reading : ∀ e r, s.reference e = some r →
    s.system.executor e = .executing t ∧ s.executions < r.send ∧ r.send ≤ s.sent ∧
      r.index = slot bufferSize first r.send

variable {L : Layout τ σ ε γ} {bufferSize first : Nat} {t : τ} {i n : Nat} {k : Nat → Nat}
  {s s' : Handover ω δ τ σ ε γ ν} {e : ε} {v : ν} {words : List ω} {action : HandoverAction ω δ τ ε ν}

private theorem Whole.store (h : s.Whole L bufferSize first t i n k)
    (hfree : s.sent < s.executions + bufferSize) {m : Nat}
    (hm : s.executions < m) (hsent : m ≤ s.sent) (w : ω) (d : δ) :
    (s.store s.buffer.backIndex w d).buffer.data (slot bufferSize first m) = s.object m := by
  have hne : slot bufferSize first m ≠ s.buffer.backIndex := by
    rw [h.backIndex]
    exact slot_ne (by omega) (by omega)
  exact (Function.update_of_ne hne _ _).trans (h.whole m hm hsent)

private theorem Whole.begin {source : SendPointer (ω → δ)} (h : s.Whole L bufferSize first t i n k)
    (hsender : s.sender = .idle) (hfree : s.sent < s.executions + bufferSize)
    (hsource : words = [] ∧ source = .element s.buffer.backIndex ∨
      (∀ w, w ∈ words) ∧ source ≠ .element s.buffer.backIndex) :
    (s.begin source words).Whole L bufferSize first t i n k := by
  obtain ⟨N, hphase, hN⟩ := h.phase
  have hcoming : s.coming = 0 := by simp [coming, hsender]
  refine ⟨h.apart, ⟨N, hphase, ?_⟩, h.backIndex, h.bounded, ?_, ?_, h.reading⟩
  · rw [hcoming] at hN
    exact hN
  · intro m hm hsent
    have hne : m ≠ s.sent + 1 := Nat.ne_of_lt (Nat.lt_succ_of_le hsent)
    exact (h.whole m hm hsent).trans (Function.update_of_ne hne _ _).symm
  · intro source' words' hcopying
    obtain ⟨rfl, rfl⟩ : source = source' ∧ words = words' := by simpa [Handover.begin] using hcopying
    refine ⟨hfree, ?_, ?_, ?_⟩
    · intro w hw
      rcases hsource with ⟨_, rfl⟩ | ⟨hall, _⟩
      · simp [Handover.begin, target]
      · exact absurd (hall w) hw
    · intro w _
      simp only [Handover.begin, Function.update_self]
    · intro hwords
      rcases hsource with ⟨hnil, _⟩ | ⟨_, hne⟩
      · exact absurd hnil hwords
      · exact hne

private theorem Whole.copy {source : SendPointer (ω → δ)} {w : ω} {rest : List ω}
    (h : s.Whole L bufferSize first t i n k) (hsender : s.sender = .copying source (w :: rest)) :
    ({ s.store s.buffer.backIndex w (s.buffer.target source w) with sender := .copying source rest } :
      Handover ω δ τ σ ε γ ν).Whole L bufferSize first t i n k := by
  obtain ⟨N, hphase, hN⟩ := h.phase
  obtain ⟨hfree, hdone, hleft, hsource⟩ := h.copying _ _ hsender
  have hcoming : s.coming = 0 := by simp [coming, hsender]
  have hne := hsource (List.cons_ne_nil _ _)
  have htarget : (s.store s.buffer.backIndex w (s.buffer.target source w)).buffer.target source =
      s.buffer.target source := by
    cases source with
    | element index =>
        have hindex : index ≠ s.buffer.backIndex := fun heq => hne (congrArg _ heq)
        simp [Handover.store, target, hindex]
    | other value => rfl
  refine ⟨h.apart, ⟨N, hphase, ?_⟩, h.backIndex, h.bounded,
    fun m hm hsent => h.store hfree hm hsent _ _, ?_, h.reading⟩
  · rw [hcoming] at hN
    exact hN
  · intro source' words' hcopying
    obtain ⟨rfl, rfl⟩ : source = source' ∧ rest = words' := by simpa using hcopying
    refine ⟨hfree, ?_, ?_, fun _ => hne⟩
    · intro u hu
      have hback : (s.store s.buffer.backIndex w (s.buffer.target source w)).buffer.data
        s.buffer.backIndex u =
          Function.update (s.buffer.data s.buffer.backIndex) w (s.buffer.target source w) u := by
        simp [Handover.store]
      refine hback.trans ?_
      by_cases huw : u = w
      · subst u
        rw [Function.update_self]
        exact hleft w List.mem_cons_self
      · rw [Function.update_of_ne huw]
        exact hdone u (by simp [huw, hu])
    · intro u hu
      exact (congrFun htarget u).trans (hleft u (List.mem_cons_of_mem w hu))

private theorem Whole.switch {source : SendPointer (ω → δ)} (hb : 0 < bufferSize)
    (h : s.Whole L bufferSize first t i n k) (hsender : s.sender = .copying source []) :
    ({ s with buffer := s.buffer.switch bufferSize, sender := .switched, sent := s.sent + 1 } :
      Handover ω δ τ σ ε γ ν).Whole L bufferSize first t i n k := by
  obtain ⟨N, hphase, hN⟩ := h.phase
  obtain ⟨hfree, hdone, _, _⟩ := h.copying _ _ hsender
  have hcoming : s.coming = 0 := by simp [coming, hsender]
  refine ⟨h.apart, ⟨N, hphase, ?_⟩, ?_, ?_, ?_, by simp, ?_⟩
  · rw [hcoming] at hN
    exact Nat.succ_le_succ hN
  · show (s.buffer.backIndex + 1) % bufferSize = slot bufferSize first (s.sent + 1 + 1)
    rw [h.backIndex, slot_succ hb, slot_succ hb, Nat.mod_add_mod]
    rfl
  · show s.sent + 1 ≤ s.executions + bufferSize
    omega
  · intro m hm hsent
    rcases Nat.lt_or_eq_of_le (show m ≤ s.sent + 1 from hsent) with hlt | rfl
    · exact h.whole m hm (Nat.le_of_lt_succ hlt)
    · funext w
      rw [← h.backIndex]
      exact hdone w List.not_mem_nil
  · intro f r hr
    obtain ⟨hf, hlow, hhigh, hindex⟩ := h.reading f r hr
    exact ⟨hf, hlow, Nat.le_succ_of_le hhigh, hindex⟩

private theorem Whole.notify {system : System τ σ ε γ ν} (hL : L.Ungrouped t) (hk : k i < 2 ^ 32)
    (h : s.Whole L bufferSize first t i n k) (hsender : s.sender = .switched)
    (hstep : s.system.Step L (.notify v t i) system) :
    ({ s with system := system, sender := .notified } : Handover ω δ τ σ ε γ ν).Whole L bufferSize
        first t i n k := by
  obtain ⟨N, hphase, hN⟩ := h.phase
  have hview := System.step_view hL h.apart hstep
  simp only [SystemAction.event, if_true] at hview
  obtain ⟨N', hphase', hN'⟩ := hphase.step_notified hview hk
  have hcoming : s.coming = 1 := by simp [coming, hsender]
  have hexecutor := System.step_executor_eq hstep rfl
  refine ⟨System.apart_step hL h.apart hstep, ⟨N', hphase', ?_⟩, h.backIndex, h.bounded,
    h.whole, by simp, ?_⟩
  · rw [hcoming] at hN
    exact le_trans hN' hN
  · intro f r hr
    obtain ⟨hf, hread⟩ := h.reading f r hr
    exact ⟨(congrFun hexecutor f).trans hf, hread⟩

private theorem Whole.leave (h : s.Whole L bufferSize first t i n k) (hsender : s.sender = .notified) :
    ({ s with sender := .idle } : Handover ω δ τ σ ε γ ν).Whole L bufferSize first t i n k := by
  obtain ⟨N, hphase, hN⟩ := h.phase
  have hcoming : s.coming = 0 := by simp [coming, hsender]
  rw [hcoming] at hN
  exact ⟨h.apart, ⟨N, hphase, hN⟩, h.backIndex, h.bounded, h.whole, by simp, h.reading⟩

private theorem Whole.write {word : ω} {value : δ} (h : s.Whole L bufferSize first t i n k)
    (hsender : s.sender = .idle) (hfree : s.sent < s.executions + bufferSize) :
    (s.store s.buffer.backIndex word value).Whole L bufferSize first t i n k := by
  refine ⟨h.apart, h.phase, h.backIndex, h.bounded, fun m hm hsent => h.store hfree hm hsent _ _,
    ?_, h.reading⟩
  intro source words hcopying
  exact absurd (hsender.symm.trans hcopying) (by simp)

private theorem Whole.read (hb : 0 < bufferSize) (hi : i < n) (hone : k i = 1)
    (h : s.Whole L bufferSize first t i n k) (he : s.system.executor e = .executing t) :
    ({ s with reference := Function.update s.reference e (some ⟨s.buffer.validIndex bufferSize,
      s.sent⟩) } :
      Handover ω δ τ σ ε γ ν).Whole L bufferSize first t i n k := by
  obtain ⟨N, hphase, hN⟩ := h.phase
  have hstage : (s.system.view L t).stage e =
    some .executing := by simp [System.view, he, ExecutePc.stage]
  have hmore : k i * (s.executions + 1) ≤ N i := (hphase.runs (Or.inr hstage)).2 i hi
  rw [hone, Nat.one_mul] at hmore
  refine ⟨h.apart, h.phase, h.backIndex, h.bounded, h.whole, h.copying, ?_⟩
  intro f r hr
  by_cases hf : f = e
  · subst f
    obtain rfl : ⟨s.buffer.validIndex bufferSize, s.sent⟩ = r := by simpa using hr
    refine ⟨he, show s.executions < s.sent by omega, le_rfl, ?_⟩
    show (s.buffer.backIndex + (bufferSize - 1)) % bufferSize = slot bufferSize first s.sent
    rw [h.backIndex, slot_succ hb, Nat.mod_add_mod]
    rfl
  · have hr : Function.update s.reference e _ f = some r := hr
    rw [Function.update_of_ne hf] at hr
    exact h.reading f r hr

private theorem forget_eq_some {reference : ε → Option Reference} {a : SystemAction τ ε ν}
    {r : Reference}
    (h : forget reference a e = some r) : reference e = some r ∧ ∀ u, a ≠ .executed e u := by
  cases a with
  | executed f u =>
      by_cases hfe : e = f
      · subst f
        simp [forget] at h
      · simp only [forget, Function.update_of_ne hfe] at h
        exact ⟨h, by simpa using fun hf => absurd hf.symm hfe⟩
  | notify | check | activate | nextTask | synchronizeStart | finish | isExecuted | reset | leave =>
      exact ⟨h, by simp⟩

private theorem Whole.act {a : SystemAction τ ε ν} {system : System τ σ ε γ ν} (hL : L.Ungrouped t)
    (hi : i < n) (hk : ∀ j < n, 0 < k j ∧ k j < 2 ^ 32) (h : s.Whole L bufferSize first t i n k)
    (hnotify : ∀ w, a ≠ .notify w t i) (hstep : s.system.Step L a system) :
    ({ s with
        system := system
        reference := forget s.reference a
        executions := s.executions + if a.event t = .executed then 1 else 0 } :
      Handover ω δ τ σ ε γ ν).Whole L bufferSize first t i n k := by
  obtain ⟨N, hphase, hN⟩ := h.phase
  have hevent : a.event t ≠ .notified i := by
    intro hev
    obtain ⟨w, rfl⟩ := System.event_notified hev
    exact hnotify w rfl
  obtain ⟨N', hphase', hN'⟩ :=
    hphase.step_other (Nat.zero_lt_of_lt hi) hk (System.step_view hL h.apart hstep) hevent
  refine ⟨System.apart_step hL h.apart hstep, ⟨N', hphase', ?_⟩, h.backIndex, ?_, ?_, ?_, ?_⟩
  · rw [hN']
    exact hN
  · exact le_trans h.bounded (Nat.add_le_add_right (Nat.le_add_right _ _) _)
  · intro m hm hsent
    exact h.whole m (lt_of_le_of_lt (Nat.le_add_right _ _) hm) hsent
  · intro source words hsender
    obtain ⟨hfree, hcopied⟩ := h.copying source words hsender
    exact ⟨lt_of_lt_of_le hfree (Nat.add_le_add_right (Nat.le_add_right _ _) _), hcopied⟩
  · intro f r hr
    obtain ⟨hbefore, hact⟩ := forget_eq_some hr
    obtain ⟨hf, hread⟩ := h.reading f r hbefore
    have hafter : system.executor f = .executing t := by
      rcases System.step_executing hstep hf with hafter | hended
      · exact hafter
      · exact absurd hended (hact t)
    -- the execution that ends would be the one with the reference
    have hsilent : a.event t ≠ .executed := by
      intro hev
      obtain ⟨e, rfl⟩ := System.event_executed hev
      have he := (System.executed_executor hstep).1
      have hstage : ∀ g, s.system.executor g = .executing t → (s.system.view L t).stage g ≠ none := by
        intro g hg
        simp [System.view, hg, ExecutePc.stage]
      obtain rfl := hphase.exclusive.2 e f (hstage e he) (hstage f hf)
      exact hact t rfl
    refine ⟨hafter, ?_⟩
    simp only [hsilent, if_false, Nat.add_zero]
    exact hread

private theorem Whole.step (hL : L.Ungrouped t) (hb : 0 < bufferSize) (hwords : ∀ w, w ∈ words)
    (hi : i < n)
    (hk : ∀ j < n, 0 < k j ∧ k j < 2 ^ 32) (hone : k i = 1) (h : s.Whole L bufferSize first t i n k)
    (hkeeps : s.Keeps bufferSize action) (hstep : Step L bufferSize words v t i s action s') :
    s'.Whole L bufferSize first t i n k := by
  cases hstep with
  | send hsender _ => exact h.begin hsender hkeeps (Or.inr ⟨hwords, by simp⟩)
  | sendBack hsender _ => exact h.begin hsender hkeeps (Or.inl ⟨rfl, rfl⟩)
  | sendPointer hsender _ hargument => exact h.begin hsender hkeeps (Or.inr ⟨hwords, hargument⟩)
  | copy hsender => exact h.copy hsender
  | switch hsender => exact h.switch hb hsender
  | notify hsender hsystem => exact h.notify hL (hk i hi).2 hsender hsystem
  | leave hsender _ => exact h.leave hsender
  | getBuffer => exact ⟨h.apart, h.phase, h.backIndex, h.bounded, h.whole, h.copying, h.reading⟩
  | write hsender hpointer =>
      obtain ⟨hback, hfree⟩ := hkeeps
      obtain rfl := Option.some.inj (hpointer.symm.trans hback)
      exact h.write hsender hfree
  | read he => exact h.read hb hi hone he
  | load _ => exact h
  | act hnotify hsystem => exact h.act hL hi hk (fun w ha => (hnotify w t i ha).1 rfl) hsystem

private theorem whole_opened {buffer : SlotBuffer (ω → δ)} {inputs : τ → InputArray}
    {schedulers : List σ}
    (hfirst : buffer.backIndex < bufferSize) (hi : i < n) (hk : ∀ j < n, 0 < k j)
    (hinputs : inputs t = .configured n k) (hstart : L.associatedScheduler t ∈ schedulers) :
    (opened L bufferSize buffer inputs schedulers : Handover ω δ τ σ ε γ ν).Whole L bufferSize
      buffer.backIndex t i n
      k := by
  obtain ⟨hapart, hphase⟩ := System.phase_started (ε := ε) (ν := ν) hi hk hinputs hstart
  refine ⟨hapart, ⟨_, hphase, le_rfl⟩, ?_, Nat.zero_le _, ?_, by simp [opened], by simp [opened]⟩
  · show buffer.backIndex = slot bufferSize buffer.backIndex (0 + 1)
    rw [slot_succ (Nat.zero_lt_of_lt hfirst), Nat.add_zero, Nat.mod_eq_of_lt hfirst]
  · intro m hm hsent
    exact absurd (lt_of_lt_of_le hm hsent) (lt_irrefl _)

/-- In every run in which the sender starts to write only if fewer than `bufferSize` objects wait
for the end of their execution, whatever the threads and the other inputs do: every word that an
execution loads belongs to the object that had been sent last when the reference was taken, which no
execution before has been the one for, even if the sender has begun the next object in the meantime.
-/
theorem run_readsWhole {buffer : SlotBuffer (ω → δ)} {inputs : τ → InputArray} {schedulers : List σ}
    {acts : List (HandoverAction ω δ τ ε ν)} (hL : L.Ungrouped t)
    (hfirst : buffer.backIndex < bufferSize)
    (hwords : ∀ w, w ∈ words) (hi : i < n) (hk : ∀ j < n, 0 < k j ∧ k j < 2 ^ 32) (hone : k i = 1)
    (hinputs : inputs t = .configured n k) (hstart : L.associatedScheduler t ∈ schedulers)
    (hrun : Run (fun s action s' => Step L bufferSize words v t i s action s' ∧
      s.Keeps bufferSize action)
      (opened L bufferSize buffer inputs schedulers : Handover ω δ τ σ ε γ ν) acts s) :
    (∀ e r, s.reference e = some r →
      (∀ w d s', Step L bufferSize words v t i s (.load e w d) s' → d = s.object r.send w) ∧
      s.executions < r.send ∧ r.send ≤ s.sent) ∧
      s.executions ≤ s.sent ∧ s.sent ≤ s.executions + bufferSize := by
  have hb : 0 < bufferSize := Nat.zero_lt_of_lt hfirst
  have h : s.Whole L bufferSize buffer.backIndex t i n k := by
    apply hrun.invariant
    · exact whole_opened hfirst hi (fun j hj => (hk j hj).1) hinputs hstart
    · intro s action s' hs hstep
      exact hs.step hL hb hwords hi hk hone hstep.2 hstep.1
  refine ⟨?_, ?_, h.bounded⟩
  · intro e r hr
    obtain ⟨_, hlow, hhigh, hindex⟩ := h.reading e r hr
    refine ⟨?_, hlow, hhigh⟩
    intro w d s' hload
    cases hload with
    | load hr' =>
        obtain rfl := Option.some.inj (hr.symm.trans hr')
        rw [hindex, h.whole r.send hlow hhigh]
  · obtain ⟨N, hphase, hN⟩ := h.phase
    have hle := hphase.bunches_le hi
    rw [hone] at hle
    omega

/-- A double buffer of two words: an execution holds a reference while the sender has copied half of
the next object. -/
theorem run_readsWhole_double : ∃ (acts : List (HandoverAction Bool Nat Unit Unit Unit))
    (s : Handover Bool Nat Unit Unit Unit Unit Unit) (r : Reference),
    Run (fun s action s' => Step .single DoubleBuffer.bufferSize [false, true] () () 0 s action s' ∧
        s.Keeps DoubleBuffer.bufferSize action)
      (opened .single DoubleBuffer.bufferSize (DoubleBuffer.init fun _ => 0)
        (fun _ => .configured 1 fun _ => 1) [()])
      acts s ∧
    s.sender = .copying (.other fun _ => 9) [true] ∧ s.reference () = some r ∧
    ∀ w d s', Step .single DoubleBuffer.bufferSize [false, true] () () 0 s (.load () w d) s' →
        d = 7 := by
  let s₀ : Handover Bool Nat Unit Unit Unit Unit Unit :=
    opened .single DoubleBuffer.bufferSize (DoubleBuffer.init fun _ => 0)
      (fun _ => .configured 1 fun _ => 1) [()]
  have hsend : ∀ (s : Handover Bool Nat Unit Unit Unit Unit Unit) (value : Bool → Nat),
      s.sender = .idle → s.system.notifier () = .idle →
        Step .single DoubleBuffer.bufferSize [false, true] () () 0 s (.send value)
        (s.begin (.other value) [false, true]) := fun _ _ => .send
  have hopened : Run (fun s action s' => Step .single DoubleBuffer.bufferSize [false, true] ()
    () 0 s action s' ∧
      s.Keeps DoubleBuffer.bufferSize action) s₀ [] s₀ := .start
  have hsent := (((hopened.next ⟨hsend _ (fun _ => 7) rfl rfl, (by decide : 0 < 2)⟩).next
    ⟨.copy rfl, trivial⟩).next ⟨.copy rfl, trivial⟩).next ⟨.switch rfl, trivial⟩
  have hactivated := ((hsent.next ⟨.notify rfl rfl, trivial⟩).next
    ⟨.act (a := .check ()) (by simp) rfl, trivial⟩).next ⟨.act (a := .activate ()) (by simp) rfl,
      trivial⟩
  have hexecuted := ((hactivated.next ⟨.leave rfl rfl, trivial⟩).next
    ⟨.act (a := .nextTask () ()) (by simp) rfl, trivial⟩).next
    ⟨.act (a := .synchronizeStart ()) (by simp) rfl, trivial⟩
  have hread := ((hexecuted.next ⟨.read (e := ()) rfl, trivial⟩).next
    ⟨hsend _ (fun _ => 9) rfl rfl, (by decide : 1 < 2)⟩).next ⟨.copy rfl, trivial⟩
  have hwhole := run_readsWhole (t := ()) (n := 1) (k := fun _ => 1) ⟨rfl, by simp [Layout.single]⟩
    (by decide) (by decide) (by decide) (by decide) rfl rfl List.mem_cons_self hread
  refine ⟨_, _, ⟨1, 1⟩, hread, rfl, by decide, ?_⟩
  intro w d s' hload
  exact (hwhole.1 () ⟨1, 1⟩ (by decide)).1 w d s' hload

end Handover

end TaskingFramework
