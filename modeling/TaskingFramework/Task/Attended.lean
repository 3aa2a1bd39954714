import TaskingFramework.Task.Start
import Mathlib.Order.Basic
import Mathlib.Data.Set.Basic

/-!
# No activation is lost

A task may be activated by any monotone condition on its inputs, whether these are synchronous,
final or optional: it never waits activated with nobody on the way to `activate`. An input that gets
activated while the task is reset counts for the next run if the reset has passed it, and the last
thread to notify such an input asks again.
-/

set_option linter.unusedSectionVars false

namespace TaskingFramework

open Foundation

namespace Input

/-- What `configure` and `setSynchron` have set. -/
def configuration (x : Input) : Bool × Bool × Nat := (x.final, x.synchron, x.activationThreshold)

/-- An input that is not activated by itself once it is reset. -/
def Required (x : Input) : Prop := x.isFinal = true ∨ x.isOptional = false

theorem configuration_notify (x : Input) : x.notify.1.configuration = x.configuration := by
  unfold notify
  split <;> rfl

theorem configuration_reset (x : Input) : x.reset.1.configuration = x.configuration := by
  unfold reset
  split
  · split <;> rfl
  · rfl

private theorem isFinal_of_configuration {x y : Input} (h : x.configuration = y.configuration) :
    x.isFinal = y.isFinal := congrArg Prod.fst h

private theorem isOptional_of_configuration {x y : Input} (h : x.configuration = y.configuration) :
    x.isOptional = y.isOptional := congrArg (fun c => c.2.2 == 0) h

private theorem required_of_configuration {x y : Input} (h : x.configuration = y.configuration) :
    x.Required ↔ y.Required := by
  rw [Required, Required, isFinal_of_configuration h, isOptional_of_configuration h]

private theorem reset_isActivated {x : Input} (h : x.Required) (hreset : x.reset.2 = false) :
    x.reset.1.isActivated = false := by
  unfold reset at hreset ⊢
  split at hreset
  · rename_i hsynchron
    rw [if_pos hsynchron]
    split at hreset
    · simp at hreset
    · rename_i hmissed
      rw [if_neg hmissed]
      simp only [isActivated]
      split
      · rename_i hboth
        simp only [Bool.and_eq_true, beq_iff_eq] at hboth
        omega
      · simpa using hmissed
  · rename_i hsynchron
    rw [if_neg hsynchron]
    simp only [isActivated]
    split
    · simp
    · rename_i hnot
      simp only [Required, isFinal, isOptional, beq_eq_false_iff_ne, Bool.and_eq_true, beq_iff_eq,
        not_and] at h hnot
      simp only [decide_eq_false_iff_not, not_le]
      rcases h with hfinal | hthreshold
      · have hthreshold := hnot hfinal
        omega
      · omega

private theorem notify_isActivated {x : Input} (h : x.notify.2 = false) :
    x.notify.1.isActivated = x.isActivated := by
  unfold notify at h ⊢
  split at h
  · rename_i hboth
    rw [if_pos hboth]
    rfl
  · simp at h

end Input

namespace InputArray

/-- The required inputs that are activated. -/
def activated (a : InputArray) : Set Nat :=
  {i | ∃ x, a.inputs[i]? = some x ∧ x.Required ∧ x.isActivated = true}

/-- The same inputs up to their counters. -/
structure SameConfiguration (a b : InputArray) : Prop where
  condition : b.condition = a.condition
  configuration : b.inputs.map Input.configuration = a.inputs.map Input.configuration

/-- Whether the task is activated depends on the required inputs that are activated, more of them do not
hurt, and it is not activated without any. -/
structure DecidedBy (F : Set Nat → Prop) (a : InputArray) : Prop where
  isActivated_iff : ∀ b, SameConfiguration a b → (b.isActivated = true ↔ F b.activated)
  mono : ∀ ⦃S T⦄, S ⊆ T → F S → F T
  not_empty : ¬ F ∅

variable {a b : InputArray} {F : Set Nat → Prop} {i : Nat} {x y : Input}

theorem SameConfiguration.refl (a : InputArray) : SameConfiguration a a := ⟨rfl, rfl⟩

theorem SameConfiguration.symm (h : SameConfiguration a b) : SameConfiguration b a :=
  ⟨h.condition.symm, h.configuration.symm⟩

theorem SameConfiguration.getElem? (h : SameConfiguration a b) (hx : a.inputs[i]? = some x) :
    ∃ y, b.inputs[i]? = some y ∧ y.configuration = x.configuration := by
  have hmap := congrArg (fun l => l[i]?) h.configuration
  simp only [List.getElem?_map, hx, Option.map_some, Option.map_eq_some_iff] at hmap
  exact hmap

theorem SameConfiguration.set (h : SameConfiguration a b) (hx : b.inputs[i]? = some x)
    (hy : y.configuration = x.configuration) : SameConfiguration a (b.set i y) := by
  refine ⟨h.condition, ?_⟩
  rw [← h.configuration]
  apply List.ext_getElem?
  intro j
  simp only [InputArray.set, List.getElem?_map, List.getElem?_set]
  by_cases hij : i = j
  · subst j
    rcases List.getElem?_eq_some_iff.mp hx with ⟨hlt, rfl⟩
    simp [hlt, hy]
  · simp [hij]

private theorem activated_lt (h : i ∈ a.activated) : i < a.inputs.length := by
  rcases h with ⟨x, hx, _⟩
  exact (List.getElem?_eq_some_iff.mp hx).1

private theorem activated_set {j : Nat} (h : j ∈ (a.set i y).activated) :
    (j = i ∧ y.Required ∧ y.isActivated = true) ∨ (j ≠ i ∧ j ∈ a.activated) := by
  rcases h with ⟨z, hz, hrequired, hactivated⟩
  simp only [InputArray.set, List.getElem?_set] at hz
  by_cases hij : i = j
  · rw [if_pos hij] at hz
    split at hz
    · obtain rfl := Option.some.inj hz
      exact Or.inl ⟨hij.symm, hrequired, hactivated⟩
    · simp at hz
  · rw [if_neg hij] at hz
    exact Or.inr ⟨fun he => hij he.symm, z, hz, hrequired, hactivated⟩

/-- The condition on the activated inputs when there is no alternative one. -/
def byInputs (a : InputArray) (S : Set Nat) : Prop :=
  (∃ i ∈ S, ∃ x, a.inputs[i]? = some x ∧ x.isFinal = true) ∨
    ∀ i x, a.inputs[i]? = some x → x.isFinal = false → x.isOptional = false → i ∈ S

private theorem isActivated_iff_byInputs (hc : a.condition = none) (h : SameConfiguration a b) :
    b.isActivated = true ↔ a.byInputs b.activated := by
  rw [isActivated_iff (h.condition.trans hc)]
  constructor
  · rintro (⟨y, hy, hactivated, hfinal⟩ | hall)
    · rcases List.getElem?_of_mem hy with ⟨i, hi⟩
      rcases h.symm.getElem? hi with ⟨x, hx, hxy⟩
      refine Or.inl ⟨i, ⟨y, hi, Or.inl hfinal, hactivated⟩, x, hx, ?_⟩
      rw [Input.isFinal_of_configuration hxy, hfinal]
    · refine Or.inr fun i x hx hfinal hoptional => ?_
      rcases h.getElem? hx with ⟨y, hy, hxy⟩
      have hfinal : y.isFinal = false := (Input.isFinal_of_configuration hxy).trans hfinal
      have hoptional : y.isOptional = false := (Input.isOptional_of_configuration hxy).trans hoptional
      exact ⟨y, hy, Or.inr hoptional, hall y (List.mem_of_getElem? hy) hfinal hoptional⟩
  · rintro (⟨i, ⟨y, hy, _, hactivated⟩, x, hx, hfinal⟩ | hall)
    · rcases h.getElem? hx with ⟨z, hz, hxz⟩
      obtain rfl : y = z := Option.some.inj (hy.symm.trans hz)
      refine Or.inl ⟨y, List.mem_of_getElem? hy, hactivated, ?_⟩
      rw [Input.isFinal_of_configuration hxz, hfinal]
    · refine Or.inr fun y hy hfinal hoptional => ?_
      rcases List.getElem?_of_mem hy with ⟨i, hi⟩
      rcases h.symm.getElem? hi with ⟨x, hx, hxy⟩
      have hin := hall i x hx ((Input.isFinal_of_configuration hxy).trans hfinal)
        ((Input.isOptional_of_configuration hxy).trans hoptional)
      rcases hin with ⟨z, hz, _, hactivated⟩
      obtain rfl : y = z := Option.some.inj (hi.symm.trans hz)
      exact hactivated

/-- Without an alternative condition an input that is neither final nor optional has to be there. -/
theorem decidedBy_byInputs (hc : a.condition = none)
    (hplain : ∃ x ∈ a.inputs, x.isFinal = false ∧ x.isOptional = false) :
    DecidedBy a.byInputs a := by
  refine ⟨fun b hb => isActivated_iff_byInputs hc hb, ?_, ?_⟩
  · intro S T hST hS
    rcases hS with ⟨i, hi, hfinal⟩ | hall
    · exact Or.inl ⟨i, hST hi, hfinal⟩
    · exact Or.inr fun i x hx hfinal hoptional => hST (hall i x hx hfinal hoptional)
  · rcases hplain with ⟨x, hx, hfinal, hoptional⟩
    rcases List.getElem?_of_mem hx with ⟨i, hi⟩
    rintro (⟨j, hj, _⟩ | hall)
    · exact hj
    · exact hall i x hi hfinal hoptional

end InputArray

section View

variable {ε ν : Type*} [DecidableEq ε] [DecidableEq ν] {v w : TaskView ε ν} {event : TaskEvent}
  {e f : ε}

/-- A task outside a group waits, is queued, or is in the hands of one executor. -/
inductive Turns : TaskView ε ν → Prop where
  | stands {standing : Standing ε} {v : TaskView ε ν}
      (hstanding : standing = .fresh ∨ ∃ e, standing = .resetting e) (h : Stands standing v) : Turns v
  | entering {a : InputArray} {notice : ν → Option Notice} {e : ε} :
      Turns ⟨⟨.run, a⟩, 0, only e (.resetting .enter), notice⟩

private theorem Turns.step (h : Turns v) (hs : v.Step event w) : Turns w := by
  cases h with
  | stands hstanding h =>
      cases hs with
      | other => exact .stands hstanding h
      | notify _ _ => exact .stands hstanding h.notify
      | check _ _ => exact .stands hstanding (h.setNotice _)
      | activate _ => exact .stands hstanding (h.activate.setNotice _)
      | fetch _ hq => exact .stands hstanding (h.fetch hq)
      | start he => exact .stands hstanding (h.start he)
      | executed he =>
          cases h with
          | busy _ =>
              rcases only_eq_some.mp he with ⟨rfl, _⟩
              rw [TaskView.setStage, update_only]
              exact .entering
          | waiting | queued | executed | finished => simp [nobody] at he
          | entering | resetting => simp [only_eq_some] at he
      | resetEnter he => exact .stands hstanding (h.resetEnter he)
      | resetInput he => exact .stands hstanding (h.resetInput he)
      | resetActivate he => exact .stands hstanding (h.resetActivate he)
      | resetFinish he => exact .stands (Or.inl rfl) (h.resetFinish he).2
  | entering =>
      cases hs with
      | other | notify | check | activate => exact .entering
      | fetch _ hq => simp at hq
      | start he => simp [only_eq_some] at he
      | executed he => simp [only_eq_some] at he
      | resetEnter he =>
          rcases only_eq_some.mp he with ⟨rfl, _⟩
          rw [TaskView.setStage, TaskView.put, update_only]
          exact .stands (Or.inr ⟨_, rfl⟩) (.resetting (Or.inl rfl) (TaskImpl.nextInput_ne_enter _ _))
      | resetInput he => simp [only_eq_some] at he
      | resetActivate he => simp [only_eq_some] at he
      | resetFinish he => simp [only_eq_some] at he

private theorem Turns.exclusive (h : Turns v) :
    v.queued ≤ 1 ∧ ∀ e f, v.stage e ≠ none → v.stage f ≠ none → e = f := by
  have honly : ∀ (g : ε) (stage : Stage) e f, only g stage e ≠ none → only g stage f ≠ none →
      e = f := by
    intro g stage e f he hf
    rcases Option.ne_none_iff_exists'.mp he with ⟨_, he⟩
    rcases Option.ne_none_iff_exists'.mp hf with ⟨_, hf⟩
    exact (only_eq_some.mp he).1.trans (only_eq_some.mp hf).1.symm
  cases h with
  | stands _ h =>
      cases h with
      | waiting | queued | executed | finished => exact ⟨by simp, fun e f he => absurd rfl he⟩
      | busy | entering | resetting => exact ⟨by simp, honly _ _⟩
  | entering => exact ⟨by simp, honly _ _⟩

/-- A task that nobody has to do anything for waits. -/
theorem Turns.waits (h : Turns v) (hqueued : v.queued = 0) (hstage : ∀ e, v.stage e = none) :
    v.task.state = .wait := by
  have honly : ∀ (e : ε) (stage : Stage), only e stage e = some stage :=
    fun e stage => only_eq_some.mpr ⟨rfl, rfl⟩
  cases h with
  | stands hstanding h =>
      cases h with
      | waiting => rfl
      | queued => simp at hqueued
      | executed | finished => simp at hstanding
      | @busy _ _ e stage => exact absurd ((honly e stage).symm.trans (hstage e)) (by simp)
      | @entering _ _ e => exact absurd ((honly e _).symm.trans (hstage e)) (by simp)
      | @resetting _ _ e _ _ => exact absurd ((honly e _).symm.trans (hstage e)) (by simp)
  | @entering _ _ e => exact absurd ((honly e _).symm.trans (hstage e)) (by simp)

private theorem Turns.alone (h : Turns v) (he : v.stage e ≠ none) (hf : f ≠ e) : v.stage f = none := by
  by_contra hne
  exact hf (h.exclusive.2 f e hne he)

private theorem Turns.resetting {pc : ResetPc} (h : Turns v) (he : v.stage e = some (.resetting pc))
    (hpc : pc ≠ .enter) : v.task.state = .reset ∨ v.task.state = .pending := by
  cases h with
  | stands _ h =>
      cases h with
      | waiting | queued | executed | finished => simp [nobody] at he
      | busy hstage => rcases hstage with rfl | rfl <;> simp [only_eq_some] at he
      | entering =>
          exact absurd (Stage.resetting.inj (only_eq_some.mp he).2).symm hpc
      | resetting hstate _ => exact hstate
  | entering => exact absurd (Stage.resetting.inj (only_eq_some.mp he).2).symm hpc

/-- The reset has passed the section of input `i`. -/
def ResetPc.Passed : ResetPc → Nat → Prop
  | .enter, _ => False
  | .input k, i => i < k
  | .activate k, i => i ≤ k
  | .finish, _ => True

/-- The inputs whose threads have left the input mutex and not yet asked for the activation. -/
def TaskView.counted (v : TaskView ε ν) : Set Nat := {i | ∃ c, v.notice c = some (.counted i)}

/-- The activated inputs that no thread will ask for. -/
def TaskView.settled (v : TaskView ε ν) : Set Nat := v.task.inputs.activated \ v.counted

/-- The settled inputs do not activate the task if it waits. While it is reset, those the reset has
passed do not complete an activation. -/
structure Calm (F : Set Nat → Prop) (v : TaskView ε ν) : Prop where
  waiting : v.task.state = .wait → ¬ F v.settled
  resetting : ∀ e pc, v.stage e = some (.resetting pc) → v.task.state = .reset →
    (∃ i, pc = .activate i) ∨
    ∀ i ∈ v.settled, pc.Passed i → ¬ F v.settled

/-- An activation is either settled in vain or some thread is about to call `activate`. -/
def Attended (F : Set Nat → Prop) (v : TaskView ε ν) : Prop :=
  (∃ c, v.notice c = some .activating) ∨ Calm F v

section Steps

variable {F : Set Nat → Prop} {a : InputArray} {c : ν} {i : Nat} {x : Input} {notice : Option Notice}
  {standing : Standing ε}

private theorem Calm.mono (h : Calm F v) (hF : ∀ ⦃S T⦄, S ⊆ T → F S → F T)
    (hsettled : w.settled ⊆ v.settled)
    (hstate : w.task.state = v.task.state) (hstage : w.stage = v.stage) : Calm F w := by
  refine ⟨fun hwait hall => ?_, fun e pc he hreset => ?_⟩
  · exact h.waiting (hstate ▸ hwait) (hF hsettled hall)
  · refine (h.resetting e pc (hstage ▸ he) (hstate ▸ hreset)).imp_right fun hpassed i hi hi' hall => ?_
    exact hpassed i (hsettled hi) hi' (hF hsettled hall)

private theorem settled_notify (hx : v.task.inputs.inputs[i]? = some x) (hc : v.notice c = none) :
    ((v.put (v.task.setInput i x.notify.1, false)).setNotice c
      (if x.notify.2 then some (.counted i) else none)).settled ⊆ v.settled := by
  intro j hj
  rcases hj with ⟨hactivated, hcounted⟩
  have hold : j ∉ v.counted := by
    rintro ⟨d, hd⟩
    have hdc : d ≠ c := fun he => by simp [he, hc] at hd
    exact hcounted ⟨d, by simpa [TaskView.setNotice, TaskView.put, hdc] using hd⟩
  rcases InputArray.activated_set hactivated with ⟨rfl, hrequired, hon⟩ | ⟨_, hj⟩
  · cases hgoes : x.notify.2 with
    | true => exact absurd ⟨c, by simp [TaskView.setNotice, hgoes]⟩ hcounted
    | false =>
        rw [Input.notify_isActivated hgoes] at hon
        rw [Input.required_of_configuration (Input.configuration_notify x)] at hrequired
        exact ⟨⟨x, hx, hrequired, hon⟩, hold⟩
  · exact ⟨hj, hold⟩

private theorem settled_check (hc : v.notice c = some (.counted i))
    (hx : v.task.inputs.inputs[i]? = some x)
    (hnot : x.isActivated = false) : (v.setNotice c none).settled ⊆ v.settled := by
  intro j hj
  rcases hj with ⟨⟨y, hy, hrequired, hon⟩, hcounted⟩
  refine ⟨⟨y, hy, hrequired, hon⟩, ?_⟩
  rintro ⟨d, hd⟩
  by_cases hdc : d = c
  · subst d
    obtain rfl : i = j := by simpa [hc] using hd
    obtain rfl : y = x := Option.some.inj (hy.symm.trans hx)
    simp [hnot] at hon
  · exact hcounted ⟨d, by simpa [TaskView.setNotice, hdc] using hd⟩

private theorem calm_activate (hdecided : v.task.inputs.isActivated = true ↔ F v.task.inputs.activated)
    (hF : ∀ ⦃S T⦄, S ⊆ T → F S → F T) {v' : TaskView ε ν} (htask : v'.task = v.task.activate.1) :
    Calm F v' := by
  have hinputs : v'.task.inputs = v.task.inputs := by
    rw [htask, TaskImpl.activate]
    split <;> try split
    all_goals rfl
  have hnot : v'.task.state = .wait ∨ v'.task.state = .reset → ¬ F v'.settled := by
    intro hstate hall
    have hactivated := hdecided.mpr (hF (Set.sdiff_subset.trans (by rw [hinputs])) hall)
    rw [htask, TaskImpl.activate] at hstate
    cases hst : v.task.state <;> simp [hst, hactivated] at hstate
  exact ⟨fun hwait => hnot (Or.inl hwait),
    fun e pc _ hreset => Or.inr fun _ _ _ => hnot (Or.inr hreset)⟩

private theorem calm_setStage {pc : ResetPc} {u : TaskView ε ν} (hturns : Turns v)
    (he : v.stage e ≠ none) (hu : u.stage = v.stage) (hstate : u.task.state ≠ .wait)
    (h : u.task.state = .reset → (∃ i, pc = .activate i) ∨ ∀ i ∈ u.settled, pc.Passed i →
      ¬ F u.settled) :
    Calm F (u.setStage e (some (.resetting pc))) := by
  refine ⟨fun hwait => absurd hwait hstate, fun f pc' hf hreset => ?_⟩
  by_cases hfe : f = e
  · subst f
    obtain rfl : pc = pc' := by simpa [TaskView.setStage] using hf
    exact h hreset
  · simp [TaskView.setStage, hfe, hu, hturns.alone he hfe] at hf

private theorem Calm.setStage {stage : Stage} {u : TaskView ε ν} (h : Calm F v) (hu : u.stage = v.stage)
    (htask : u.task = v.task) (hnotice : u.notice = v.notice)
    (hstage : stage = .fetched ∨ stage = .executing ∨ stage = .resetting .enter) :
    Calm F (u.setStage e (some stage)) := by
  have hsettled : (u.setStage e (some stage)).settled = v.settled := by
    simp only [TaskView.settled, TaskView.counted, TaskView.setStage, htask, hnotice]
  refine ⟨fun hwait => ?_, fun f pc hf hreset => ?_⟩
  · rw [hsettled]
    exact h.waiting (htask ▸ hwait)
  · rw [hsettled]
    by_cases hfe : f = e
    · subst f
      have hpc : stage = .resetting pc := by simpa [TaskView.setStage] using hf
      rcases hstage with rfl | rfl | rfl
      · simp at hpc
      · simp at hpc
      · obtain rfl := Stage.resetting.inj hpc
        exact Or.inr fun _ _ hpassed => absurd hpassed id
    · exact h.resetting f pc (by simpa [TaskView.setStage, hfe, hu] using hf) (htask ▸ hreset)

private theorem passed_nextInput {task : TaskImpl} {k j : Nat} (h : (task.nextInput k).Passed j)
    (hj : j < task.inputs.inputs.length) : j < k := by
  unfold TaskImpl.nextInput at h
  split at h
  · exact h
  · omega

private theorem resetInput_state (task : TaskImpl) (i : Nat) :
    (task.resetInput i).1.state = task.state := by
  unfold TaskImpl.resetInput
  split <;> rfl

private theorem activated_resetInput {task : TaskImpl} {j : Nat} (hno : (task.resetInput i).2 = false)
    (hj : j ∈ (task.resetInput i).1.inputs.activated) : j ≠ i ∧ j ∈ task.inputs.activated := by
  unfold TaskImpl.resetInput at hno hj
  cases hx : task.inputs.inputs[i]? with
  | none =>
      simp only [hx] at hj
      refine ⟨fun he => ?_, hj⟩
      rcases hj with ⟨y, hy, _⟩
      rw [he, hx] at hy
      simp at hy
  | some x =>
      simp only [hx] at hno hj
      rcases InputArray.activated_set hj with ⟨_, hrequired, hon⟩ | hother
      · rw [Input.required_of_configuration (Input.configuration_reset x)] at hrequired
        simp [Input.reset_isActivated hrequired hno] at hon
      · exact hother

private theorem Attended.step (hdecided : InputArray.DecidedBy F a)
    (hsame : a.SameConfiguration v.task.inputs)
    (hturns : Turns v) (h : Attended F v) (hs : v.Step event w) : Attended F w := by
  have hiff := hdecided.isActivated_iff _ hsame
  cases hs with
  | other => exact h
  | @notify c i x hc hx =>
      refine h.imp ?_ fun hcalm => hcalm.mono hdecided.mono (settled_notify hx hc) rfl rfl
      rintro ⟨d, hd⟩
      have hdc : d ≠ c := fun he => by simp [he, hc] at hd
      exact ⟨d, by simpa [TaskView.setNotice, TaskView.put, hdc] using hd⟩
  | @check c i x hc hx =>
      cases hon : x.isActivated with
      | true => exact Or.inl ⟨c, by simp [TaskView.setNotice]⟩
      | false =>
          refine h.imp ?_ fun hcalm => hcalm.mono hdecided.mono (settled_check hc hx hon) rfl rfl
          rintro ⟨d, hd⟩
          have hdc : d ≠ c := fun he => by simp [he, hc] at hd
          exact ⟨d, by simpa [TaskView.setNotice, hdc] using hd⟩
  | activate _ => exact Or.inr (calm_activate hiff hdecided.mono rfl)
  | fetch _ _ => exact h.imp_right fun hcalm => hcalm.setStage rfl rfl rfl (Or.inl rfl)
  | start _ => exact h.imp_right fun hcalm => hcalm.setStage rfl rfl rfl (Or.inr (Or.inl rfl))
  | executed _ => exact h.imp_right fun hcalm => hcalm.setStage rfl rfl rfl (Or.inr (Or.inr rfl))
  | @resetEnter e he =>
      refine h.imp_right fun _ => calm_setStage hturns
        (by simp [he]) rfl (by simp [TaskView.put, TaskImpl.resetEnter]) ?_
      refine fun _ => Or.inr fun i hi hpassed => ?_
      exact absurd (passed_nextInput hpassed (InputArray.activated_lt hi.1)) (Nat.not_lt_zero i)
  | @resetInput e i he =>
      refine h.imp_right fun hcalm => ?_
      have hstate := hturns.resetting he (by simp)
      refine calm_setStage hturns (by simp [he]) rfl ?_ fun hreset => ?_
      · simp only [TaskView.put, resetInput_state]
        rcases hstate with hst | hst <;> simp [hst]
      · simp only [TaskView.put, resetInput_state] at hreset
        cases hgoes : (v.task.resetInput i).2 with
        | true => exact Or.inl ⟨i, by simp⟩
        | false =>
            have hsub : (v.put ((v.task.resetInput i).1, false)).settled ⊆ v.settled := fun j hj =>
              ⟨(activated_resetInput hgoes hj.1).2, hj.2⟩
            refine Or.inr fun j hj hpassed hall => ?_
            have hji := activated_resetInput hgoes hj.1
            have hlt := passed_nextInput (by simpa using hpassed) (InputArray.activated_lt hji.2)
            rcases hcalm.resetting e _ he hreset with ⟨k, hk⟩ | hbefore
            · simp at hk
            · exact hbefore j (hsub hj) (show j < i by omega) (hdecided.mono hsub hall)
  | resetActivate _ => exact h.imp_right fun _ => calm_activate hiff hdecided.mono rfl
  | @resetFinish e he =>
      refine h.imp_right fun hcalm => ⟨fun hwait => ?_, fun f pc hf => ?_⟩
      · have hinputs : (v.task.resetFinish).1.inputs = v.task.inputs := by
          unfold TaskImpl.resetFinish
          split <;> rfl
        have hsettled : ((v.put v.task.resetFinish).setStage e none).settled = v.settled := by
          simp only [TaskView.settled, TaskView.counted, TaskView.setStage, TaskView.put, hinputs]
        rw [hsettled]
        intro hall
        rcases hturns.resetting he (by simp) with hst | hst
        · rcases hcalm.resetting e _ he hst with ⟨k, hk⟩ | hbefore
          · simp at hk
          · rcases Set.eq_empty_or_nonempty v.settled with hempty | ⟨j, hj⟩
            · exact hdecided.not_empty (hempty ▸ hall)
            · exact hbefore j hj trivial hall
        · have hactivated := hiff.mpr (hdecided.mono Set.sdiff_subset hall)
          simp [TaskView.setStage, TaskView.put, TaskImpl.resetFinish, hst, hactivated] at hwait
      · by_cases hfe : f = e
        · simp [TaskView.setStage, hfe] at hf
        · simp [TaskView.setStage, TaskView.put, hfe, hturns.alone (by simp [he]) hfe] at hf

private theorem sameConfiguration_step (h : a.SameConfiguration v.task.inputs) (hs : v.Step event w) :
    a.SameConfiguration w.task.inputs := by
  have hactivate : v.task.activate.1.inputs = v.task.inputs := by
    rw [TaskImpl.activate]
    split <;> try split
    all_goals rfl
  cases hs with
  | other | check | fetch | start | executed | resetEnter => exact h
  | notify _ hx => exact h.set hx (Input.configuration_notify _)
  | activate | resetActivate => exact hactivate.symm ▸ h
  | @resetInput e i _ =>
      show a.SameConfiguration (v.task.resetInput i).1.inputs
      unfold TaskImpl.resetInput
      split
      · rename_i x hx
        exact h.set hx (Input.configuration_reset x)
      · exact h
  | resetFinish _ =>
      show a.SameConfiguration v.task.resetFinish.1.inputs
      unfold TaskImpl.resetFinish
      split <;> exact h

end Steps

end View

section Alone

variable {ε ν : Type*} [DecidableEq ν] {v : TaskView ε ν}

/-- The task while one thread resets it, without the executors. -/
def TaskView.alone (v : TaskView ε ν) (pc : Option ResetPc) : TaskView Unit ν where
  task := v.task
  queued := v.queued
  stage _ := pc.map .resetting
  notice := v.notice

private theorem TaskView.alone_put (r : TaskImpl × Bool) (pc pc' : Option ResetPc) :
    (v.put r).alone pc = ((v.alone pc').put r).setStage () (pc.map .resetting) := by
  simp only [alone, put, setStage, TaskView.mk.injEq, true_and, and_true]
  funext
  simp

/-- Steps of the task that none of its executions and notifications are among. -/
def TaskView.Silent : TaskView Unit ν → TaskView Unit ν → Prop :=
  Relation.ReflTransGen fun v w => v.Step .silent w

theorem inputs_activate (task : TaskImpl) : task.activate.1.inputs = task.inputs := by
  rw [TaskImpl.activate]
  split <;> try split
  all_goals rfl

end Alone

namespace System

variable {τ σ ε γ ν : Type*} [DecidableEq τ] [DecidableEq σ] [DecidableEq ε] [DecidableEq γ]
  [DecidableEq ν] {L : Layout τ σ ε γ} {t u : τ} {inputs : τ → InputArray} {schedulers : List σ}
  {acts : List (SystemAction τ ε ν)} {s : System τ σ ε γ ν} {F : Set Nat → Prop}

section Reset

/-- The body of the loop in `Task::reset`. -/
private def resetNext (L : Layout τ σ ε γ) (t : τ) (s : System τ σ ε γ ν) (i : Nat) :
    System τ σ ε γ ν :=
  if (s.resetInput t i).2 then (s.resetInput t i).1.activate L t else (s.resetInput t i).1

private theorem alone_resetNext (hrunning : s.running (L.associatedScheduler t) = true) {i : Nat}
    (hi : i < (s.task t).inputs.inputs.length) :
    ((s.view L t).alone (some ((s.task t).nextInput i))).Silent
      (((s.resetNext L t i).view L t).alone (some ((s.task t).nextInput (i + 1)))) := by
  have hpc : (s.task t).nextInput i = .input i := if_pos hi
  have hinput : ((s.view L t).alone (some (.input i))).Step .silent
      (((s.resetInput t i).1.view L t).alone (some (if ((s.task t).resetInput i).2 then .activate i
        else (s.task t).nextInput (i + 1)))) := by
    rw [System.resetInput, view_setTask_self, TaskView.alone_put _ _ (some (.input i))]
    exact .resetInput (e := ()) rfl
  rw [hpc, resetNext]
  cases hgoes : ((s.task t).resetInput i).2 with
  | false =>
      rw [hgoes] at hinput
      have hno : (s.resetInput t i).2 = false := hgoes
      rw [hno]
      exact .single hinput
  | true =>
      rw [hgoes] at hinput
      have hyes : (s.resetInput t i).2 = true := hgoes
      have hrunning' : (s.resetInput t i).1.running (L.associatedScheduler t) = true := hrunning
      rw [hyes]
      refine .tail (.single hinput) ?_
      have hnext : (s.task t).nextInput (i + 1) = ((s.resetInput t i).1.task t).nextInput (i + 1) := by
        simp [TaskImpl.nextInput, System.resetInput, setTask, TaskImpl.length_resetInput]
      rw [if_pos rfl, if_pos rfl, view_activate_self hrunning', hnext,
        TaskView.alone_put _ _ (some (.activate i))]
      exact .resetActivate (e := ()) rfl

private theorem Placed.resetNext (h : s.Placed L t) (i : Nat) : (s.resetNext L t i).Placed L t := by
  unfold System.resetNext
  split
  · exact (h.setTask _).activate
  · exact h.setTask _

private theorem length_resetNext (h : s.Placed L t) (i : Nat) :
    ((s.resetNext L t i).task t).inputs.inputs.length = (s.task t).inputs.inputs.length := by
  have hinput : ((s.resetInput t i).1.task t).inputs.inputs.length =
      (s.task t).inputs.inputs.length := by
    simp [System.resetInput, setTask, TaskImpl.length_resetInput]
  unfold resetNext
  split
  · have hview := view_activate_self (s := (s.resetInput t i).1) (t := t) (h.setTask _).running
    have htask : ((s.resetInput t i).1.activate L t).task t =
        ((s.resetInput t i).1.task t).activate.1 :=
      congrArg TaskView.task hview
    rw [htask, inputs_activate, hinput]
  · exact hinput

private theorem alone_reset (h : s.Placed L t) :
    ((s.view L t).alone (some .enter)).Silent (((s.reset L t).view L t).alone none) := by
  have hloop : ∀ k ≤ (s.task t).inputs.inputs.length,
      ∀ r, r = (List.range k).foldl (resetNext L t) (s.setTask t (s.task t).resetEnter) →
        r.Placed L t ∧ (r.task t).inputs.inputs.length = (s.task t).inputs.inputs.length ∧
        ((s.view L t).alone (some .enter)).Silent
          ((r.view L t).alone (some ((r.task t).nextInput k))) := by
    intro k
    induction k with
    | zero =>
        rintro _ r rfl
        refine ⟨h.setTask _, by simp [setTask, TaskImpl.resetEnter], .single ?_⟩
        have hnext : ((s.setTask t (s.task t).resetEnter).task t).nextInput 0 =
            (s.task t).nextInput 0 := by simp [setTask, TaskImpl.resetEnter, TaskImpl.nextInput]
        rw [List.range_zero, List.foldl_nil, hnext, view_setTask_self,
          TaskView.alone_put _ _ (some .enter)]
        exact .resetEnter (e := ()) rfl
    | succ k ih =>
        rintro hk r rfl
        rw [List.range_succ, List.foldl_append, List.foldl_cons, List.foldl_nil]
        rcases ih (by omega) _ rfl with ⟨hplaced, hlength, hsilent⟩
        have hstep := alone_resetNext hplaced.running (i := k) (by omega)
        have hnext : ((resetNext L t ((List.range k).foldl (resetNext L t)
            (s.setTask t (s.task t).resetEnter)) k).task t).nextInput (k + 1) =
              (((List.range k).foldl (resetNext L t)
                (s.setTask t (s.task t).resetEnter)).task t).nextInput (k + 1) := by
          simp only [TaskImpl.nextInput, length_resetNext hplaced]
        refine ⟨hplaced.resetNext k, (length_resetNext hplaced k).trans hlength, hsilent.trans ?_⟩
        rw [hnext]
        exact hstep
  rcases hloop _ le_rfl _ rfl with ⟨hplaced, hlength, hsilent⟩
  refine hsilent.tail ?_
  have hfinish : (((List.range (s.task t).inputs.inputs.length).foldl (resetNext L t)
      (s.setTask t (s.task t).resetEnter)).task t).nextInput (s.task t).inputs.inputs.length =
          .finish :=
    if_neg (by omega)
  show TaskView.Step _ .silent (TaskView.alone (((List.foldl (resetNext L t)
    (s.setTask t (s.task t).resetEnter)
    (List.range (s.task t).inputs.inputs.length)).resetFinish L t).view
      L t) none)
  rw [hfinish, view_resetFinish_self hplaced.running, TaskView.alone_put _ _ (some .finish)]
  exact .resetFinish (e := ()) rfl

private theorem view_reset_of_ne (hu : u ≠ t) : (s.reset L u).view L t = s.view L t := by
  rw [System.reset, view_resetFinish_of_ne hu]
  apply List.foldlRecOn (motive := fun r : System τ σ ε γ ν => r.view L t = s.view L t)
  · exact view_setTask_of_ne hu
  · intro r hr i _
    have hinput : (r.resetInput u i).1.view L t = s.view L t := (view_setTask_of_ne hu).trans hr
    by_cases hact : (r.resetInput u i).2 = true
    · simp only [hact, if_true]
      rw [view_activate_of_ne hu, hinput]
    · simp only [hact]
      exact hinput

private theorem view_resets_of_not_mem {l : List τ} (hl : t ∉ l) :
    (l.foldl (reset L) s).view L t = s.view L t := by
  apply List.foldlRecOn (motive := fun r : System τ σ ε γ ν => r.view L t = s.view L t)
  · rfl
  · intro r hr u hu
    have hut : u ≠ t := fun he => hl (he ▸ hu)
    rw [view_reset_of_ne hut, hr]

private theorem Unnotified.resets_others {task : TaskImpl} (h : s.Unnotified t task) {l : List τ}
    (hl : t ∉ l) :
    (l.foldl (reset L) s).Unnotified t task := by
  apply List.foldlRecOn (motive := fun r : System τ σ ε γ ν => r.Unnotified t task)
  · exact h
  · exact fun r hr u hu => hr.reset_of_ne fun hut => hl (hut ▸ hu)

end Reset

private theorem started_view (hassociated : (L.associatedTasks (L.associatedScheduler t)).Nodup)
    (hstart : L.associatedScheduler t ∈ schedulers) (hnodup : schedulers.Nodup) :
    ∃ r : System τ σ ε γ ν, r.Unnotified t ⟨.finish, inputs t⟩ ∧ r.Placed L t ∧
      (started L inputs schedulers : System τ σ ε γ ν).view L t = (r.reset L t).view L t := by
  have hother : ∀ scheduler, scheduler ≠ L.associatedScheduler t → t ∉ L.associatedTasks scheduler :=
    fun scheduler hne ht => hne ((L.mem_associatedTasks t scheduler).mp ht).symm
  rcases List.append_of_mem hstart with ⟨before, behind, rfl⟩
  rcases List.append_of_mem ((L.mem_associatedTasks t _).mpr rfl) with ⟨earlier, later, htasks⟩
  rw [htasks] at hassociated
  rw [List.nodup_append, List.nodup_cons] at hassociated hnodup
  have hearlier : t ∉ earlier := fun ht => hassociated.2.2 t ht t List.mem_cons_self rfl
  have hlater : t ∉ later := hassociated.2.1.1
  have hbefore : ∀ scheduler ∈ before, scheduler ≠ L.associatedScheduler t :=
    fun scheduler hs he => hnodup.2.2 scheduler hs _ List.mem_cons_self he
  have hbehind : ∀ scheduler ∈ behind, scheduler ≠ L.associatedScheduler t :=
    fun scheduler hs he => hnodup.2.1.1 (he ▸ hs)
  have hfirst : (before.foldl (fun s scheduler => s.start L true scheduler)
      (constructed inputs : System τ σ ε γ ν)).Unnotified t ⟨.finish, inputs t⟩ := by
    apply List.foldlRecOn (motive := fun r : System τ σ ε γ ν => r.Unnotified t ⟨.finish, inputs t⟩)
    · exact ⟨rfl, by simp [constructed], by simp [constructed], by simp [constructed]⟩
    · intro r hr scheduler hs
      have hbegin : ({ r with running := Function.update r.running scheduler true } :
          System τ σ ε γ ν).Unnotified t ⟨.finish, inputs t⟩ :=
        ⟨hr.task, hr.queue, hr.executor, hr.notifier⟩
      exact hbegin.resets_others (hother scheduler (hbefore scheduler hs))
  have hlast : ∀ r : System τ σ ε γ ν,
      (behind.foldl (fun s scheduler => s.start L true scheduler) r).view L t = r.view L t := by
    intro r
    apply List.foldlRecOn (motive := fun q : System τ σ ε γ ν => q.view L t = r.view L t)
    · rfl
    · intro q hq scheduler hs
      exact (view_resets_of_not_mem (hother scheduler (hbehind scheduler hs))).trans hq
  generalize hr : before.foldl (fun s scheduler => s.start L true scheduler)
    (constructed inputs : System τ σ ε γ ν) = r at hfirst
  have hbegin : ({ r with running := Function.update r.running (L.associatedScheduler t) true } :
      System τ σ ε γ ν).Unnotified t ⟨.finish, inputs t⟩ :=
    ⟨hfirst.task, hfirst.queue, hfirst.executor, hfirst.notifier⟩
  have hrun : ∀ (l : List τ) (q : System τ σ ε γ ν), (l.foldl (reset L) q).running = q.running := by
    intro l q
    apply List.foldlRecOn (motive := fun q' : System τ σ ε γ ν => q'.running = q.running)
    · rfl
    · exact fun q' hq' u _ => reset_running.trans hq'
  have hearliest := hbegin.resets_others (L := L) hearlier
  refine ⟨_, hearliest, hearliest.placed ?_, ?_⟩
  · rw [hrun]
    exact Function.update_self ..
  · rw [started, List.foldl_append, hr, List.foldl_cons, hlast, start, if_pos rfl, htasks,
      List.foldl_append, List.foldl_cons]
    exact view_resets_of_not_mem hlater

/-- What holds of the task in every run. -/
structure Served (L : Layout τ σ ε γ) (t : τ) (F : Set Nat → Prop) (a : InputArray)
    (s : System τ σ ε γ ν) : Prop where
  apart : s.Apart L t
  turns : Turns (s.view L t)
  configured : a.SameConfiguration (s.task t).inputs
  attended : Attended F (s.view L t)

theorem started_served (hassociated : (L.associatedTasks (L.associatedScheduler t)).Nodup)
    (hstart : L.associatedScheduler t ∈ schedulers) (hnodup : schedulers.Nodup)
    (hdecided : InputArray.DecidedBy F (inputs t)) :
    (started L inputs schedulers : System τ σ ε γ ν).Served L t F (inputs t) := by
  have hready : (started L inputs schedulers : System τ σ ε γ ν).Ready L t :=
    started_ready hassociated hstart hnodup
  have hreset : ∃ r : System τ σ ε γ ν, r.Unnotified t ⟨.finish, inputs t⟩ ∧ r.Placed L t ∧
      (started L inputs schedulers : System τ σ ε γ ν).view L t = (r.reset L t).view L t :=
    started_view hassociated hstart hnodup
  rcases hreset with ⟨r, hunnotified, hplaced, hview⟩
  have hsilent := alone_reset hplaced
  rw [hunnotified.view, ← hview] at hsilent
  generalize (started L inputs schedulers : System τ σ ε γ ν) = s at hready hsilent
  have hinv : ∀ w : TaskView Unit ν,
      (TaskView.alone (⟨⟨.finish, inputs t⟩, 0, nobody, fun _ => none⟩ : TaskView ε ν)
        (some .enter)).Silent w →
      Turns w ∧ (inputs t).SameConfiguration w.task.inputs ∧ Attended F w := by
    intro w hw
    induction hw with
    | refl =>
        have hstage : (fun _ : Unit => (some ResetPc.enter).map Stage.resetting) =
            only () (.resetting .enter) := by
          funext e
          simp [only]
        have hentering : Stands (.resetting ()) (TaskView.alone
            (⟨⟨.finish, inputs t⟩, 0, nobody, fun _ => none⟩ : TaskView ε ν) (some .enter)) := by
          rw [TaskView.alone, hstage]
          exact .entering
        refine ⟨.stands (Or.inr ⟨_, rfl⟩) hentering, .refl _,
          Or.inr ⟨fun hwait => ?_, fun e pc _ hreset => ?_⟩⟩
        · simp [TaskView.alone] at hwait
        · simp [TaskView.alone] at hreset
    | tail _ hs ih =>
        exact ⟨ih.1.step hs, sameConfiguration_step ih.2.1 hs, ih.2.2.step hdecided ih.2.1 ih.1 hs⟩
  rcases hinv _ hsilent with ⟨_, hsame, hattended⟩
  have hnobody : ∀ e, (s.executor e).stage t = none := fun e => by rw [hready.executor e]; rfl
  refine ⟨⟨hready.placed.running, ?_, ?_, hready.placed.elsewhere⟩,
    .stands (Or.inl rfl) hready.stands, hsame, ?_⟩
  · simp [hready.executor]
  · simp [hready.executor]
  · refine hattended.imp_right fun hcalm => ⟨hcalm.waiting, fun e pc he => ?_⟩
    simp [System.view, hnobody] at he

theorem Served.step {a : InputArray} {s' : System τ σ ε γ ν} {action : SystemAction τ ε ν}
    (hL : L.Ungrouped t) (hdecided : InputArray.DecidedBy F a) (h : s.Served L t F a)
    (hs : Step L s action s') : s'.Served L t F a := by
  have hview := step_view hL h.apart hs
  exact ⟨apart_step hL h.apart hs, h.turns.step hview, sameConfiguration_step h.configured hview,
    h.attended.step hdecided h.configured h.turns hview⟩

/-- A task that waits is not activated, unless a thread is on the way from its input to `activate`. -/
theorem Served.not_activated {a : InputArray} (hdecided : InputArray.DecidedBy F a)
    (h : s.Served L t F a)
    (hwait : (s.task t).state = .wait) (hnotice : ∀ c, (s.notifier c).notice t = none) :
    (s.task t).inputs.isActivated = false := by
  rcases h.attended with ⟨c, hc⟩ | hcalm
  · exact absurd ((hnotice c).symm.trans hc) (by simp)
  · have hcounted : (s.view L t).counted = ∅ := by
      rw [Set.eq_empty_iff_forall_notMem]
      rintro i ⟨c, hc⟩
      exact absurd ((hnotice c).symm.trans hc) (by simp)
    have hsettled : (s.view L t).settled = (s.task t).inputs.activated := by
      rw [TaskView.settled, hcounted, Set.sdiff_empty]
      rfl
    have hnot := hcalm.waiting hwait
    rw [hsettled, ← hdecided.isActivated_iff _ h.configured] at hnot
    exact Bool.eq_false_iff.mpr hnot

/-- Whatever kinds of inputs activate a task and whatever the order of the threads: the task is
queued once at most, executed by one executor at a time, and when it waits with no thread on the way
from its input to `activate`, its inputs do not activate it. -/
theorem run_attended (hL : L.Ungrouped t)
    (hassociated : (L.associatedTasks (L.associatedScheduler t)).Nodup)
    (hstart : L.associatedScheduler t ∈ schedulers) (hnodup : schedulers.Nodup)
    (hdecided : InputArray.DecidedBy F (inputs t))
    (hrun : Run (Step L) (started L inputs schedulers) acts s) :
    (∀ scheduler, (s.runQueue scheduler).count t ≤ 1) ∧
      (∀ e f, s.Executes e t → s.Executes f t → e = f) ∧
      ((s.task t).state = .wait → (∀ c, (s.notifier c).notice t = none) →
        (s.task t).inputs.isActivated = false) := by
  have hserved : s.Served L t F (inputs t) :=
    hrun.invariant (started_served hassociated hstart hnodup hdecided) fun _ _ _ h hs =>
      h.step hL hdecided hs
  refine ⟨fun scheduler => ?_, hserved.turns.exclusive.2, hserved.not_activated hdecided⟩
  by_cases hm : t ∈ s.runQueue scheduler
  · rw [hserved.apart.elsewhere scheduler hm]
    exact hserved.turns.exclusive.1
  · rw [List.count_eq_zero_of_not_mem hm]
    exact Nat.zero_le 1

/-- The final input starts the task, and the other one is notified once in the meantime. -/
theorem run_attended_final :
    ∃ (acts : List (SystemAction Unit Unit Unit)) (s : System Unit Unit Unit Unit Unit),
      Run (Step .single) (started .single
        (fun _ => ⟨[Input.init.configure 2 false, Input.init.configure 1 true], none⟩) [()]) acts s ∧
        executions () acts = 1 ∧ (s.task ()).inputs.isActivated = false := by
  have hrun : ∃ s, Run (Step .single) (started .single (fun _ => ⟨[Input.init.configure 2 false,
      Input.init.configure 1 true], none⟩) [()] : System Unit Unit Unit Unit Unit)
      [.notify () () 1, .check (), .activate (), .nextTask () (), .synchronizeStart (),
        .executed () (), .reset (), .reset (), .notify () () 0, .check (), .reset (), .reset (),
        .leave ()] s ∧ (s.task ()).state = .wait ∧ ∀ c, (s.notifier c).notice () = none :=
    ⟨_, run_foldlM.mpr rfl, rfl, fun _ => rfl⟩
  rcases hrun with ⟨s, hrun, hwait, hnotice⟩
  have hattended := run_attended (t := ()) ⟨rfl, by simp [Layout.single]⟩ (by simp [Layout.single])
    List.mem_cons_self (by simp) (InputArray.decidedBy_byInputs rfl
      ⟨_, List.mem_cons_self, rfl, rfl⟩) hrun
  exact ⟨_, s, hrun, rfl, hattended.2.2 hwait hnotice⟩

end System

end TaskingFramework
