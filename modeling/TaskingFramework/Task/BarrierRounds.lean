import TaskingFramework.Task.Barrier
import TaskingFramework.Foundation.Rest

/-!
# Rounds of a barrier

As long as the sources keep to their account, no push finds the barrier at zero and no announcement
is cut off by a reset: the barrier fires once in each round, its task is executed once for each
time, and nobody owes a push while it is.
-/

set_option linter.unusedSectionVars false

namespace TaskingFramework

open Foundation

section Before

variable {τ σ ε γ ν : Type*} [DecidableEq τ]

/-- The reset has not come to the channel of input `i` yet. -/
def ResetPc.BeforeChannel (i : Nat) (passed : Bool) : ResetPc → Prop
  | .enter => True
  | .input j => j < i ∨ j = i ∧ passed = false
  | .activate j => j < i
  | .finish => False

/-- The executor has executed the task and not come to the channel of input `i` yet. -/
def ExecutePc.BeforeChannel (t : τ) (i : Nat) (passed : Bool) : ExecutePc τ γ → Prop
  | .resetting u pc _ => u = t ∧ pc.BeforeChannel i passed
  | .idle | .fetched _ | .executing _ | .finishing _ _ | .checking _ _ | .leaving => False

variable {t u : τ} {i j : Nat} {passed : Bool} {pc : ExecutePc τ γ}

@[simp] theorem beforeChannel_resetting {p : ResetPc} {members : List τ} :
    (.resetting u p members : ExecutePc τ γ).BeforeChannel t i passed ↔
      u = t ∧ p.BeforeChannel i passed := Iff.rfl

@[simp] theorem beforeChannel_enter : ResetPc.enter.BeforeChannel i passed := trivial

@[simp] theorem beforeChannel_input :
    (ResetPc.input j).BeforeChannel i passed ↔ j < i ∨ j = i ∧ passed = false := Iff.rfl

@[simp] theorem beforeChannel_activate : (ResetPc.activate j).BeforeChannel i passed ↔ j < i := Iff.rfl

@[simp] theorem beforeChannel_finish : ¬ ResetPc.finish.BeforeChannel i passed := id

private theorem beforeChannel_nextInput {task : TaskImpl} (hi : i < task.inputs.inputs.length) :
    (task.nextInput j).BeforeChannel i false ↔ j ≤ i := by
  unfold TaskImpl.nextInput
  split
  · rw [beforeChannel_input, Nat.le_iff_lt_or_eq]
    simp
  · simp only [beforeChannel_finish, false_iff]
    omega

private theorem beforeChannel_behind {task : TaskImpl} (hi : i < task.inputs.inputs.length)
    {goes : Bool} :
    (if goes then .activate j else task.nextInput (j + 1) : ResetPc).BeforeChannel i false ↔ j < i := by
  cases goes with
  | true => rfl
  | false => exact beforeChannel_nextInput hi

private theorem beforeChannel_resetMembers {members : List τ} (h : t ∉ members) :
    ¬ (ExecutePc.resetMembers members : ExecutePc τ γ).BeforeChannel t i passed := by
  cases members with
  | nil => exact fun hbefore => hbefore
  | cons u members => exact fun hbefore => h (hbefore.1 ▸ List.mem_cons_self)

private theorem ExecutePc.BeforeChannel.stage_ne_none (h : pc.BeforeChannel t i passed) :
    pc.stage t ≠ none := by
  cases pc with
  | resetting u p members =>
      obtain ⟨rfl, _⟩ := h
      simp [ExecutePc.stage]
  | idle | fetched | executing | finishing | checking | leaving => exact fun _ => h

end Before

namespace System

variable {τ σ ε γ ν : Type*} [DecidableEq τ] [DecidableEq σ] [DecidableEq ε] [DecidableEq γ]
  [DecidableEq ν]
  {L : Layout τ σ ε γ} {t u : τ} {s s' : System τ σ ε γ ν} {a : SystemAction τ ε ν} {i : Nat}
  {passed : ε → Bool}

private theorem step_insideReset (h : Step L s a s') {e : ε} {pc : ResetPc} {members : List τ}
    (he : s.executor e = .resetting u pc members) :
    s'.executor e = .resetting u pc members ∨ a = .reset e := by
  rcases step_executor h e with heq | ⟨hact, _⟩
  · exact Or.inl (heq.trans he)
  · cases a <;> simp only [SystemAction.executor, Option.some.injEq, reduceCtorEq] at hact <;>
      subst hact <;> simp [Step, step, he] at h ⊢

private theorem before_setExecutor {r : System τ σ ε γ ν} {e : ε} {pc pc' : ExecutePc τ γ}
    (hr : r.executor = s.executor) (he : s.executor e = pc)
    (hother : ∀ f, f ≠ e → a.passed passed f = passed f ∧ a ≠ .executed f t)
    (hmove : pc'.BeforeChannel t i (a.passed passed e) ↔ pc.BeforeChannel t i (passed e) ∨
      a = .executed e t) (f : ε) :
    ((r.setExecutor e pc').executor f).BeforeChannel t i (a.passed passed f) ↔
      (s.executor f).BeforeChannel t i (passed f) ∨ a = .executed f t := by
  by_cases hf : f = e
  · subst f
    simpa [setExecutor, he] using hmove
  · obtain ⟨hpassed, hact⟩ := hother f hf
    simp [setExecutor, hr, hf, hpassed, hact]

private theorem beforeChannel_step (hL : L.Ungrouped t) (hs : s.Apart L t)
    (hi : i < (s.task t).inputs.inputs.length)
    (hreset : ∀ e members, a = .reset e → s.executor e = .resetting t (.input i) members →
      passed e = true)
    (h : Step L s a s') (f : ε) :
    (s'.executor f).BeforeChannel t i (a.passed passed f) ↔
      (s.executor f).BeforeChannel t i (passed f) ∨ a = .executed f t := by
  have hsame : ∀ {e f : ε}, f ≠ e → (SystemAction.reset e : SystemAction τ ε ν).passed passed f =
    passed f ∧
      (SystemAction.reset e : SystemAction τ ε ν) ≠ .executed f t := by
    intro e f hf
    exact ⟨Function.update_of_ne hf _ _, by simp⟩
  have hself : ∀ e, (SystemAction.reset e : SystemAction τ ε ν).passed passed e = false :=
    fun e => Function.update_self _ _ _
  cases step_acts h with
  | notify | check => simp [setTask, setNotifier, SystemAction.passed]
  | activate => simp [setNotifier, SystemAction.passed]
  | nextTask he | synchronizeStart he | finish he | leave he =>
      apply before_setExecutor rfl he (by simp [SystemAction.passed])
      simp [ExecutePc.BeforeChannel]
  | @isExecuted e group u members he =>
      apply before_setExecutor rfl he (by simp [SystemAction.passed])
      split <;> simp [ExecutePc.BeforeChannel]
  | areAllExecuted he =>
      apply before_setExecutor rfl he (by simp [SystemAction.passed])
      exact iff_of_false (beforeChannel_resetMembers (hL.taskList _))
        (by simp [ExecutePc.BeforeChannel])
  | @executed e u he =>
      apply before_setExecutor rfl he
      · intro f hf
        simp [SystemAction.passed, hf.symm]
      · by_cases hu : u = t
        · subst u
          simp [Layout.finalizeExecution, hL.group, ExecutePc.BeforeChannel, ResetPc.BeforeChannel]
        · cases hg : L.group u <;> simp [Layout.finalizeExecution, hg, ExecutePc.BeforeChannel, hu]
  | @resetEnter e u members he =>
      apply before_setExecutor rfl he fun f hf => hsame hf
      rw [hself]
      by_cases hu : u = t
      · subst u
        simp [beforeChannel_nextInput hi]
      · simp [hu]
  | @resetInput e u j members he =>
      apply before_setExecutor rfl he fun f hf => hsame hf
      rw [hself]
      by_cases hu : u = t
      · subst u
        rw [beforeChannel_resetting, beforeChannel_behind hi]
        by_cases hj : j = i
        · subst j
          simp [hreset e members rfl he]
        · simp [hj]
      · simp [hu]
  | @resetActivate e u j members he =>
      apply before_setExecutor activate_executor he fun f hf => hsame hf
      rw [hself]
      by_cases hu : u = t
      · subst u
        simp only [beforeChannel_resetting, beforeChannel_nextInput hi, Nat.succ_le_iff, true_and,
          beforeChannel_activate, reduceCtorEq, or_false]
      · simp [hu]
  | @resetFinish e u members he =>
      apply before_setExecutor resetFinish_executor he fun f hf => hsame hf
      exact iff_of_false (beforeChannel_resetMembers (hs.members e u _ _ he))
        (by simp [ExecutePc.BeforeChannel, ResetPc.BeforeChannel])

end System

namespace Gathering

variable {κ τ σ ε γ ν : Type*} [DecidableEq κ] [DecidableEq τ] [DecidableEq σ] [DecidableEq ε]
  [DecidableEq γ] [DecidableEq ν]

/-- The inputs that the thread inside `Channel::push` still has to notify. -/
def coming (s : Gathering κ τ σ ε γ ν) : Nat :=
  match s.protection with
  | none => 0
  | some p => p.2.length

/-- The task has been executed, and the barrier has not been reset behind it yet. -/
def Pending (t : τ) (i : Nat) (s : Gathering κ τ σ ε γ ν) : Prop :=
  ∃ e, (s.system.executor e).BeforeChannel t i (s.passed e)

/-- After `X` executions and `F` complete rounds. -/
structure Rounds [Fintype κ] (L : Layout τ σ ε γ) (t : τ) (i n : Nat) (k : Nat → Nat)
    (share : κ → Nat) (X F : Nat) (s : Gathering κ τ σ ε γ ν) : Prop where
  apart : s.system.Apart L t
  phase : ∃ N, Phase n k N X (s.system.view L t) ∧ N i + s.coming = F
  startValue : s.barrier.startValue = ∑ c, share c
  counter : s.barrier.counter = ∑ c, s.owed c
  complete : s.fired = true → s.barrier.counter = 0
  inside : ∀ v rest, s.protection = some (v, rest) → s.fired = true ∧ (rest = [(t, i)] ∨ rest = [])
  passed : ∀ e, s.passed e = true → ∃ members, s.system.executor e = .resetting t (.input i) members
  pending : s.Pending t i → F + 1 = X + s.fired.toNat
  settled : ¬ s.Pending t i → F = X + s.fired.toNat

variable [Fintype κ] {L : Layout τ σ ε γ} {t : τ} {i n : Nat} {k : Nat → Nat} {share : κ → Nat}
  {X F : Nat} {s s' : Gathering κ τ σ ε γ ν} {e f : ε} {v : ν} {c : κ} {delta : Nat}

private theorem pending_congr (hexecutor : s'.system.executor = s.system.executor)
    (hpassed : s'.passed = s.passed) :
    s'.Pending t i ↔ s.Pending t i := by
  rw [Pending, Pending, hexecutor, hpassed]

private theorem Rounds.owes (h : Rounds L t i n k share X F s) (hc : 0 < s.owed c) :
    0 < s.barrier.counter ∧ s.fired = false := by
  have hle : s.owed c ≤ s.barrier.counter := by
    rw [h.counter]
    exact Finset.single_le_sum (fun _ _ => Nat.zero_le _) (Finset.mem_univ c)
  have hpos : 0 < s.barrier.counter := by omega
  refine ⟨hpos, Bool.eq_false_iff.mpr fun hfired => ?_⟩
  have := h.complete hfired
  omega

private theorem Rounds.alone (h : Rounds L t i n k share X F s)
    (he : (s.system.executor e).stage t ≠ none)
    (hf : (s.system.executor f).stage t ≠ none) : f = e := by
  obtain ⟨N, hphase, _⟩ := h.phase
  exact hphase.exclusive.2 f e hf he

private theorem Rounds.rounds_le (h : Rounds L t i n k share X F s) : F ≤ X + 1 := by
  have hfired := Bool.toNat_le s.fired
  by_cases hp : s.Pending t i
  · have := h.pending hp
    omega
  · have := h.settled hp
    omega

private theorem Rounds.executions_le (h : Rounds L t i n k share X F s) (hi : i < n) (hk : k i = 1) :
    X ≤ F := by
  obtain ⟨N, hphase, hN⟩ := h.phase
  have hle := hphase.bunches_le hi
  rw [hk] at hle
  omega

private theorem Rounds.increase (h : Rounds L t i n k share X F s)
    (hkeeps : s.Keeps (.increase c delta)) :
    Rounds L t i n k share X F { s with
      barrier := s.barrier.increase delta
      owed := Function.update s.owed c (s.owed c + delta) } := by
  obtain ⟨hbound, hopen⟩ := hkeeps
  have hcounter : (s.barrier.increase delta).counter = s.barrier.counter + delta :=
    Nat.mod_eq_of_lt hbound
  have hfired : s.fired = false := by
    rcases hopen with hc | hfired
    · exact (h.owes hc).2
    · exact hfired
  refine ⟨h.apart, h.phase, h.startValue, ?_, ?_, h.inside, h.passed, h.pending, h.settled⟩
  · have hsum := sum_update (fun _ x => x) s.owed c (s.owed c + delta)
    simp only [hcounter, h.counter]
    omega
  · simp [hfired]

private theorem Rounds.push (h : Rounds L t i n k share X F s) (hfree : s.protection = none)
    (hkeeps : s.Keeps (.push v c s.barrier.push.2)) :
    Rounds L t i n k share X (F + s.barrier.push.2.toNat) { s with
      barrier := s.barrier.push.1
      protection := if s.barrier.push.2 then some (v, [(t, i)]) else none
      owed := Function.update s.owed c (s.owed c - 1)
      fired := s.fired || s.barrier.push.2 } := by
  obtain ⟨hpos, hfired⟩ := h.owes hkeeps
  have hpush : s.barrier.push = ({ s.barrier with counter := s.barrier.counter - 1 },
      s.barrier.counter - 1 == 0) :=
    if_pos hpos
  have hsum := sum_update (fun _ x => x) s.owed c (s.owed c - 1)
  have howed : 0 < s.owed c := hkeeps
  have hcounter : s.barrier.counter - 1 = ∑ x, Function.update s.owed c (s.owed c - 1) x := by
    have := h.counter
    omega
  obtain ⟨N, hphase, hN⟩ := h.phase
  have hcoming : s.coming = 0 := by simp [coming, hfree]
  rw [hpush, hfired, Bool.false_or]
  have hsettled := h.settled
  have hpending := h.pending
  rw [hfired, Bool.toNat_false, Nat.add_zero] at hsettled hpending
  cases hlast : s.barrier.counter - 1 == 0 with
  | true =>
      refine ⟨h.apart, ⟨N, hphase, ?_⟩, h.startValue, hcounter,
        fun _ => by simpa using hlast, ?_, h.passed, ?_, ?_⟩
      · simp only [coming, if_true, List.length_singleton, Bool.toNat_true]
        omega
      · intro w rest hw
        simp only [if_true, Option.some.injEq, Prod.mk.injEq] at hw
        exact ⟨rfl, Or.inl hw.2.symm⟩
      · intro hp
        have := hpending hp
        simp only [Bool.toNat_true]
        omega
      · intro hp
        have := hsettled hp
        simp only [Bool.toNat_true]
        omega
  | false =>
      refine ⟨h.apart, ⟨N, hphase, ?_⟩, h.startValue,
        hcounter, by simp, by simp, h.passed, hpending, hsettled⟩
      simp only [coming, Bool.false_eq_true, if_false, Bool.toNat_false]
      omega

private theorem Rounds.notify {u : τ} {j : Nat} {rest : List (τ × Nat)} {system : System τ σ ε γ ν}
    (hL : L.Ungrouped t)
    (hk : k i = 1) (h : Rounds L t i n k share X F s) (hv : s.protection = some (v, (u, j) :: rest))
    (hstep : s.system.Step L (.notify v u j) system) :
    Rounds L t i n k share X F { s with system := system, protection := some (v, rest) } := by
  obtain ⟨hfired, hrest⟩ := h.inside v _ hv
  obtain ⟨⟨rfl, rfl⟩, rfl⟩ : (u = t ∧ j = i) ∧ rest = [] := by simpa using hrest
  obtain ⟨N, hphase, hN⟩ := h.phase
  have hcoming : s.coming = 1 := by simp [coming, hv]
  have hview := System.step_view hL h.apart hstep
  have hexecutor := System.step_executor_eq hstep rfl
  have hpending : ({ s with system := system, protection := some (v, []) } : Gathering κ τ σ ε γ
    ν).Pending u j ↔
      s.Pending u j := pending_congr hexecutor rfl
  simp only [SystemAction.event, if_true] at hview
  have hnew : ∃ N', Phase n k N' X (system.view L u) ∧ N' j = N j + 1 := by
    generalize system.view L u = w at hview
    cases hview with
    | notify hc hx =>
        obtain ⟨N', c, hnew, _, hsum, hfits⟩ := hphase.notify_wraps hc hx (by omega)
        have hmissed := hphase.missed_le hx
        have hle := h.rounds_le
        rw [hk] at hmissed
        have hzero := hfits (by omega)
        exact ⟨N', hnew, by omega⟩
  obtain ⟨N', hphase', hN'⟩ := hnew
  refine ⟨System.apart_step hL h.apart hstep, ⟨N', hphase', ?_⟩, h.startValue, h.counter,
    h.complete, ?_, ?_, ?_, ?_⟩
  · simp only [coming, List.length_nil]
    omega
  · intro w rest hw
    simp only [Option.some.injEq, Prod.mk.injEq] at hw
    exact ⟨hfired, Or.inr hw.2.symm⟩
  · rw [hexecutor]
    exact h.passed
  · exact fun hp => h.pending (hpending.mp hp)
  · exact fun hp => h.settled fun hs => hp (hpending.mpr hs)

private theorem Rounds.leave (h : Rounds L t i n k share X F s) (hv : s.protection = some (v, [])) :
    Rounds L t i n k share X F { s with protection := none } := by
  obtain ⟨N, hphase, hN⟩ := h.phase
  have hcoming : s.coming = 0 := by simp [coming, hv]
  rw [hcoming] at hN
  exact ⟨h.apart, ⟨N, hphase, hN⟩, h.startValue, h.counter,
    h.complete, by simp, h.passed, h.pending, h.settled⟩

private theorem Rounds.resetChannel {u : τ} {j : Nat} {members : List τ} (hi : i < n) (hk : k i = 1)
    (h : Rounds L t i n k share X F s) (hassociated : (u, j) ∈ [(t, i)])
    (he : s.system.executor e = .resetting u (.input j) members) (hbefore : s.passed e = false)
    (hfree : s.protection = none) :
    s.fired = true ∧ Rounds L t i n k share X F { s with
      barrier := s.barrier.reset
      owed := share
      fired := false
      passed := Function.update s.passed e true } := by
  obtain ⟨rfl, rfl⟩ : u = t ∧ j = i := by simpa using hassociated
  have hpending : s.Pending u j := ⟨e, by simp [he, hbefore]⟩
  have hF := h.pending hpending
  have hle := h.executions_le hi hk
  have hfired : s.fired = true := by
    by_contra hnot
    rw [Bool.eq_false_iff.mpr hnot, Bool.toNat_false] at hF
    omega
  rw [hfired, Bool.toNat_true] at hF
  have hnone : ∀ f, ¬ (s.system.executor f).BeforeChannel u j (Function.update s.passed e true f) := by
    intro f hf
    have hstage : (s.system.executor e).stage u ≠ none := by simp [he, ExecutePc.stage]
    obtain rfl := h.alone hstage hf.stage_ne_none
    simp [he] at hf
  refine ⟨hfired, h.apart, h.phase, h.startValue, h.startValue, by simp, by simp [hfree], ?_, ?_, ?_⟩
  · intro f hf
    by_cases hfe : f = e
    · exact ⟨members, hfe ▸ he⟩
    · have hf : Function.update s.passed e true f = true := hf
      rw [Function.update_of_ne hfe] at hf
      exact h.passed f hf
  · rintro ⟨f, hf⟩
    exact absurd hf (hnone f)
  · intro _
    simp only [Bool.toNat_false]
    omega

private theorem Rounds.act {a : SystemAction τ ε ν} {system : System τ σ ε γ ν} (hL : L.Ungrouped t)
    (hi : i < n) (hk : ∀ j < n, 0 < k j ∧ k j < 2 ^ 32) (h : Rounds L t i n k share X F s)
    (hnotify : ∀ v, a ≠ .notify v t i)
    (hreset : ∀ e members, a = .reset e → s.system.executor e = .resetting t (.input i) members →
      s.passed e = true)
    (hstep : s.system.Step L a system) :
    Rounds L t i n k share (X + if a.event t = .executed then 1 else 0) F
      { s with system := system, passed := a.passed s.passed } := by
  obtain ⟨N, hphase, hN⟩ := h.phase
  have hevent : a.event t ≠ .notified i := by
    intro hev
    obtain ⟨v, rfl⟩ := System.event_notified hev
    exact hnotify v rfl
  obtain ⟨N', hphase', hN'⟩ :=
    hphase.step_other (Nat.zero_lt_of_lt hi) hk (System.step_view hL h.apart hstep) hevent
  have hlen : i < (s.system.task t).inputs.inputs.length := lt_of_lt_of_eq hi hphase.length.symm
  have hbefore := System.beforeChannel_step hL h.apart hlen hreset hstep
  refine ⟨System.apart_step hL h.apart hstep, ⟨N', hphase', ?_⟩, h.startValue, h.counter,
    h.complete, h.inside, ?_, ?_,
    ?_⟩
  · rw [hN']
    exact hN
  · intro e he
    have hp : s.passed e = true ∧ a ≠ .reset e := by
      cases a with
      | reset f =>
          by_cases hfe : e = f
          · subst f
            simp [SystemAction.passed] at he
          · simp only [SystemAction.passed, Function.update_of_ne hfe] at he
            exact ⟨he, by simpa using fun hf => hfe hf.symm⟩
      | notify | check | activate | nextTask | synchronizeStart | executed | finish | isExecuted
      | leave =>
          exact ⟨he, by simp⟩
    obtain ⟨members, hexecutor⟩ := h.passed e hp.1
    rcases System.step_insideReset hstep hexecutor with hafter | hact
    · exact ⟨members, hafter⟩
    · exact absurd hact hp.2
  · rintro ⟨f, hf⟩
    rcases (hbefore f).mp hf with hfront | rfl
    · have hsilent : a.event t ≠ .executed := by
        intro hev
        obtain ⟨e, rfl⟩ := System.event_executed hev
        have he := (System.executed_executor hstep).1
        have hstage : (s.system.executor e).stage t ≠ none := by simp [he, ExecutePc.stage]
        obtain rfl := h.alone hstage hfront.stage_ne_none
        simp [he, ExecutePc.BeforeChannel] at hfront
      rw [if_neg hsilent]
      exact h.pending ⟨f, hfront⟩
    · -- the execution ends, and nobody has been in front of the channel
      have he := (System.executed_executor hstep).1
      have hstage : (s.system.executor f).stage t ≠ none := by simp [he, ExecutePc.stage]
      have hnone : ¬ s.Pending t i := by
        rintro ⟨g, hg⟩
        obtain rfl := h.alone hstage hg.stage_ne_none
        simp [he, ExecutePc.BeforeChannel] at hg
      have hF := h.settled hnone
      simp only [SystemAction.event, if_true]
      omega
  · intro hnone
    have hsilent : a.event t ≠ .executed := by
      intro hev
      obtain ⟨e, rfl⟩ := System.event_executed hev
      exact hnone ⟨e, (hbefore e).mpr (Or.inr rfl)⟩
    rw [if_neg hsilent]
    exact h.settled fun hp => hnone (hp.imp fun f hf => (hbefore f).mpr (Or.inl hf))

/-- The complete rounds of a history. -/
def rounds (acts : List (GatheringAction κ τ ε ν)) : Nat := acts.countP GatheringAction.fires

/-- The executions of the task. -/
def executions (t : τ) (acts : List (GatheringAction κ τ ε ν)) : Nat :=
  System.executions t (acts.filterMap GatheringAction.system)

/-- Whether the action ends an execution of the task. -/
def executes (t : τ) : GatheringAction κ τ ε ν → Nat
  | .act a => if a.event t = .executed then 1 else 0
  | .increase _ _ | .push _ _ _ | .notify _ _ _ | .leave _ | .resetChannel _ => 0

variable {acts : List (GatheringAction κ τ ε ν)} {action : GatheringAction κ τ ε ν}

omit [Fintype κ] in
private theorem rounds_snoc : rounds (acts ++ [action]) = rounds acts + action.fires.toNat := by
  cases hfires : action.fires <;> simp [rounds, List.countP_append, hfires]

omit [Fintype κ] in
private theorem executions_snoc :
    executions t (acts ++ [action]) = executions t acts + executes t action := by
  have hsnoc : ∀ a : SystemAction τ ε ν, action.system = some a →
      executions t (acts ++ [action]) = executions t acts + if a.event t = .executed then 1 else 0 := by
    intro a ha
    rw [executions, List.filterMap_append, List.filterMap_cons_some ha, List.filterMap_nil,
      System.executions_snoc]
    rfl
  have hnone : action.system = none → executions t (acts ++ [action]) = executions t acts := by
    intro ha
    rw [executions, List.filterMap_append, List.filterMap_cons_none ha, List.filterMap_nil,
      List.append_nil]
    rfl
  cases action with
  | notify v u j =>
      rw [hsnoc _ rfl, if_neg]
      · rfl
      · by_cases hu : u = t <;> simp [SystemAction.event, hu]
  | act a => exact hsnoc a rfl
  | increase | push | leave | resetChannel => exact hnone rfl

private theorem Rounds.step (hL : L.Ungrouped t) (hi : i < n) (hk : ∀ j < n, 0 < k j ∧ k j < 2 ^ 32)
    (hone : k i = 1) (h : Rounds L t i n k share X F s) (hkeeps : s.Keeps action)
    (hstep : Step L [(t, i)] share s action s') :
    Rounds L t i n k share (X + executes t action) (F + action.fires.toNat) s' := by
  cases hstep with
  | increase _ => exact h.increase hkeeps
  | push hfree _ => exact h.push hfree hkeeps
  | notify hv hsystem => exact h.notify hL hone hv hsystem
  | leave hv _ => exact h.leave hv
  | resetChannel hassociated he hbefore hfree =>
      exact (h.resetChannel hi hone hassociated he hbefore hfree).2
  | act hnotify hreset hsystem =>
      have hmem : (t, i) ∈ [(t, i)] := List.mem_cons_self
      exact h.act hL hi hk (fun v ha => (hnotify v t i ha).1 hmem)
        (fun e members ha he => hreset e t i members ha he hmem) hsystem

private theorem rounds_opened {startValue : Nat} {inputs : τ → InputArray} {schedulers : List σ}
    (hi : i < n) (hk : ∀ j < n, 0 < k j) (hinputs : inputs t = .configured n k)
    (hstart : L.associatedScheduler t ∈ schedulers)
    (hshare : ∑ c, share c = startValue) :
    Rounds L t i n k share 0 0 (opened L startValue share inputs schedulers : Gathering κ τ σ ε γ
        ν) := by
  obtain ⟨hapart, hphase⟩ := System.phase_started (ε := ε) (ν := ν) hi hk hinputs hstart
  have hidle : ¬ (opened L startValue share inputs schedulers : Gathering κ τ σ ε γ ν).Pending t i := by
    rintro ⟨e, he⟩
    rw [opened, (System.started_unnotified hk hinputs hstart).1.executor] at he
    exact he
  exact ⟨hapart, ⟨_, hphase, rfl⟩, hshare.symm,
    hshare.symm, by simp [opened], by simp [opened], by simp [opened],
    fun hp => absurd hp hidle, fun _ => rfl⟩

/-- In every run in which the sources keep to the account, whatever the threads and the other inputs
do: the barrier counts the pushes that are owed, so that none is ignored, and no reset of it cuts
one off; it fires once for each execution of its task, nobody owes a push while the task is fetched
or executed, and when no thread has anything left to do, the last round has been executed unless
another input is not activated. -/
theorem run_rounds {startValue : Nat} {inputs : τ → InputArray} {schedulers : List σ}
    (hL : L.Ungrouped t) (hi : i < n)
    (hk : ∀ j < n, 0 < k j ∧ k j < 2 ^ 32) (hone : k i = 1) (hinputs : inputs t = .configured n k)
    (hstart : L.associatedScheduler t ∈ schedulers) (hshare : ∑ c, share c = startValue)
    (hrun : Run (fun s action s' => Step L [(t, i)] share s action s' ∧ s.Keeps action)
      (opened L startValue share inputs schedulers : Gathering κ τ σ ε γ ν) acts s) :
    s.barrier.counter = ∑ c, s.owed c ∧
      (∀ e s', Step L [(t, i)] share s (.resetChannel e) s' → ∀ c, s.owed c = 0) ∧
      executions t acts ≤ rounds acts ∧ rounds acts ≤ executions t acts + 1 ∧
      (∀ e, s.system.executor e = .fetched t ∨ s.system.executor e = .executing t →
        rounds acts = executions t acts + 1 ∧ ∀ c, s.owed c = 0) ∧
      (s.protection = none → s.system.Quiet L t → rounds acts = executions t acts ∨
        rounds acts = executions t acts + 1 ∧ ∃ j < n, j ≠ i ∧
          ∃ x, (s.system.task t).inputs.inputs[j]? = some x ∧ x.isActivated = false) := by
  have h : Rounds L t i n k share (executions t acts) (rounds acts) s := by
    apply hrun.invariant_history
      (I := fun acts s => Rounds L t i n k share (executions t acts) (rounds acts) s)
    · exact rounds_opened hi (fun j hj => (hk j hj).1) hinputs hstart hshare
    · intro acts s action s' hs hstep
      rw [executions_snoc, rounds_snoc]
      exact hs.step hL hi hk hone hstep.2 hstep.1
  have hnobody : s.fired = true → ∀ c, s.owed c = 0 := by
    intro hfired c
    have hzero := h.complete hfired
    rw [h.counter] at hzero
    exact Finset.sum_eq_zero_iff.mp hzero c (Finset.mem_univ c)
  obtain ⟨N, hphase, hN⟩ := h.phase
  refine ⟨h.counter, ?_, h.executions_le hi hone, h.rounds_le, ?_, ?_⟩
  · intro e s' hstep
    cases hstep with
    | resetChannel hassociated he hbefore hfree =>
        exact hnobody (h.resetChannel hi hone hassociated he hbefore hfree).1
  · intro e he
    have hstage : (s.system.view L t).stage e = some .fetched ∨
        (s.system.view L t).stage e = some .executing := by
      rcases he with he | he <;> simp [System.view, he, ExecutePc.stage]
    have hmore : k i * (executions t acts + 1) ≤ N i := (hphase.runs hstage).2 i hi
    rw [hone] at hmore
    have hle := h.rounds_le
    have hfired : s.fired = true := by
      by_contra hnot
      have hF := h.pending
      have hF' := h.settled
      rw [Bool.eq_false_iff.mpr hnot, Bool.toNat_false] at hF hF'
      by_cases hp : s.Pending t i
      · have := hF hp
        omega
      · have := hF' hp
        omega
    exact ⟨by omega, hnobody hfired⟩
  · intro hfree hquiet
    have hcoming : s.coming = 0 := by simp [coming, hfree]
    have hnone : ¬ s.Pending t i := by
      rintro ⟨e, he⟩
      exact he.stage_ne_none (hquiet.stage e)
    have hF := h.settled hnone
    cases hfired : s.fired with
    | false =>
        rw [hfired] at hF
        exact Or.inl hF
    | true =>
        rw [hfired, Bool.toNat_true] at hF
        obtain ⟨hcounted, hnot⟩ :=
          hphase.quiet (List.count_eq_zero_of_not_mem hquiet.queue) hquiet.stage hquiet.notice
        simp only [Enough, not_forall] at hnot
        obtain ⟨j, hj, hlt⟩ := hnot
        refine Or.inr ⟨hF, j, hj, ?_, ?_⟩
        · rintro rfl
          have hlt : ¬ k j * (executions t acts + 1) ≤ N j := hlt
          rw [hone] at hlt
          omega
        · have hlen : j < (s.system.task t).inputs.inputs.length :=
            lt_of_lt_of_eq hj hcounted.length.symm
          have hx := List.getElem?_eq_getElem hlen
          refine ⟨_, hx, Bool.eq_false_iff.mpr fun hact => hlt ?_⟩
          exact (hcounted.input_isActivated hx).mp hact

/-- Two sources with a push each, and one more announced: the third push fires, and the task is
executed. -/
theorem run_rounds_three : ∃ (acts : List (GatheringAction Bool Unit Unit Unit))
    (s : Gathering Bool Unit Unit Unit Unit Unit),
    Run (fun s action s' => Step .single [((), 0)] (fun _ => 1) s action s' ∧ s.Keeps action)
      (opened .single 2 (fun _ => 1) (fun _ => .configured 1 fun _ => 1) [()]) acts s ∧
    rounds acts = 1 ∧ executions () acts = 0 ∧ s.system.executor () = .executing () ∧
        ∀ c, s.owed c = 0 := by
  let s₀ : Gathering Bool Unit Unit Unit Unit Unit :=
    opened .single 2 (fun _ => 1) (fun _ => .configured 1 fun _ => 1) [()]
  have hincrease : Step .single [((), 0)] (fun _ => 1) s₀ (.increase true 1) _ := .increase rfl
  have hstart : Run (fun s action s' => Step .single [((), 0)] (fun _ => 1) s action s' ∧
    s.Keeps action)
      s₀ [] s₀ := .start
  have hannounced := hstart.next ⟨hincrease, by decide, Or.inr rfl⟩
  have hpushed := ((hannounced.next ⟨.push (v := ()) (c := true) rfl rfl, (by decide : 0 < 2)⟩).next
    ⟨.push (v := ()) (c := false) rfl rfl, (by decide : 0 < 1)⟩).next
    ⟨.push (v := ()) (c := true) rfl rfl, (by decide : 0 < 1)⟩
  have hnotified := hpushed.next ⟨.notify (v := ()) rfl rfl, trivial⟩
  have hactivated := (hnotified.next ⟨.act (a := .check ()) (by simp) (by simp) rfl, trivial⟩).next
    ⟨.act (a := .activate ()) (by simp) (by simp) rfl, trivial⟩
  have hexecuted := ((hactivated.next ⟨.leave (v := ()) rfl rfl, trivial⟩).next
    ⟨.act (a := .nextTask () ()) (by simp) (by simp) rfl, trivial⟩).next
    ⟨.act (a := .synchronizeStart ()) (by simp) (by simp) rfl, trivial⟩
  have hrounds := run_rounds (t := ()) (n := 1) (k := fun _ => 1) ⟨rfl, by simp [Layout.single]⟩
    (by decide) (by decide) rfl rfl List.mem_cons_self rfl hexecuted
  exact ⟨_, _, hexecuted, rfl, rfl, rfl, (hrounds.2.2.2.2.1 () (Or.inr rfl)).2⟩

end Gathering

end TaskingFramework
