import TaskingFramework.Task.Standing

/-!
# Notifications of a group member

What the inputs of a member hold behind the resets of the member: the notifications that arrived less a
bunch for each reset.
-/

set_option linter.unusedSectionVars false

namespace TaskingFramework

/-- The inputs of the member have received `E` notifications, and `R` resets are over. -/
inductive Holds {ε ν : Type*} (n : Nat) (k E : Nat → Nat) (R : Nat) : TaskView ε ν → Prop where
  | waiting {a : InputArray} {queued : Nat} {stage : ε → Option Stage} {notice : ν → Option Notice}
      (hc : Counted n k E (fun _ => R) a) : Holds n k E R ⟨⟨.wait, a⟩, queued, stage, notice⟩
  | activated {a : InputArray} {queued : Nat} {stage : ε → Option Stage}
      {notice : ν → Option Notice} {state : TaskState} (hstate : state = .run ∨ state = .finish)
      (hc : Counted n k E (fun _ => R) a) (henough : Enough n k E fun _ => R) :
      Holds n k E R ⟨⟨state, a⟩, queued, stage, notice⟩
  | resetting {a : InputArray} {queued : Nat} {stage : ε → Option Stage}
      {notice : ν → Option Notice} {state : TaskState} {q : Nat}
      (hstate : state = .reset ∨ state = .pending) (hq : q ≤ n)
      (hpc : ∀ e pc, stage e = some (.resetting pc) →
        pc = (if q < n then .input q else .finish) ∨ ∃ j, q = j + 1 ∧ pc = .activate j)
      (hc : Counted n k E (taken q R) a) (henough : Enough n k E fun _ => R) :
      Holds n k E R ⟨⟨state, a⟩, queued, stage, notice⟩

section Steps

variable {ε ν : Type*} [DecidableEq ε] [DecidableEq ν] {n : Nat} {k E : Nat → Nat} {R : Nat}
  {v w : TaskView ε ν} {standing : Standing ε} {event : TaskEvent} {e : ε} {c : ν} {i : Nat}
  {x : Input}

private theorem Holds.length (h : Holds n k E R v) : v.task.inputs.inputs.length = n := by
  cases h with
  | waiting hc => exact hc.length
  | activated _ hc _ => exact hc.length
  | resetting _ _ _ hc _ => exact hc.length

private theorem Holds.setNotice (h : Holds n k E R v) (notice : Option Notice) :
    Holds n k E R (v.setNotice c notice) := by
  cases h with
  | waiting hc => exact .waiting hc
  | activated hstate hc henough => exact .activated hstate hc henough
  | resetting hstate hq hpc hc henough => exact .resetting hstate hq hpc hc henough

private theorem Holds.setStage (h : Holds n k E R v) {stage : Option Stage}
    (hstage : ∀ pc, stage ≠ some (.resetting pc)) : Holds n k E R (v.setStage e stage) := by
  cases h with
  | waiting hc => exact .waiting hc
  | activated hstate hc henough => exact .activated hstate hc henough
  | resetting hstate hq hpc hc henough =>
      refine .resetting hstate hq (fun f pc hf => ?_) hc henough
      by_cases hfe : f = e
      · subst f
        rw [Function.update_self] at hf
        exact absurd hf (hstage pc)
      · rw [Function.update_of_ne hfe] at hf
        exact hpc f pc hf

private theorem Holds.setQueued (h : Holds n k E R v) (queued : Nat) :
    Holds n k E R { v with queued := queued } := by
  cases h with
  | waiting hc => exact .waiting hc
  | activated hstate hc henough => exact .activated hstate hc henough
  | resetting hstate hq hpc hc henough => exact .resetting hstate hq hpc hc henough

private theorem Holds.notify (h : Holds n k E R v) (hx : v.task.inputs.inputs[i]? = some x)
    (hk : k i < 2 ^ 32) :
    ∃ E' c, Holds n k E' R (v.put (v.task.setInput i x.notify.1, false)) ∧
      (∀ j, j ≠ i → E' j = E j) ∧ E' i + 2 ^ 32 * c = E i + 1 ∧
      (x.missedNotifications + 1 < 2 ^ 32 → c = 0) := by
  cases h with
  | waiting hc =>
      obtain ⟨E', c, hnew, hother, hsum, _, hfits⟩ := hc.notify_wraps hx hk
      exact ⟨E', c, .waiting hnew, hother, hsum, hfits⟩
  | activated hstate hc henough =>
      obtain ⟨E', c, hnew, hother, hsum, hmono, hfits⟩ := hc.notify_wraps hx hk
      exact ⟨E', c, .activated hstate hnew (hmono _ (fun _ => Nat.le_refl _) henough), hother, hsum,
        hfits⟩
  | @resetting a _ _ _ _ q hstate hq hpc hc henough =>
      obtain ⟨E', c, hnew, hother, hsum, hmono, hfits⟩ := hc.notify_wraps hx hk
      have hle : ∀ j, R ≤ taken q R j := by
        intro j
        unfold taken
        split <;> omega
      exact ⟨E', c, .resetting hstate hq hpc hnew (hmono _ hle henough), hother, hsum, hfits⟩

private theorem Holds.activate (hk : ∀ i < n, 0 < k i) (h : Holds n k E R v) :
    Holds n k E R (v.put v.task.activate) := by
  cases h with
  | @waiting a _ _ _ hc =>
      cases hact : a.isActivated with
      | true =>
          simp only [TaskImpl.activate, hact, if_true, TaskView.put]
          exact .activated (Or.inl rfl) hc ((hc.isActivated hk).mp hact)
      | false =>
          simp only [TaskImpl.activate, hact]
          exact .waiting hc
  | activated hstate hc henough =>
      rcases hstate with rfl | rfl
      · exact .activated (Or.inl rfl) hc henough
      · exact .activated (Or.inr rfl) hc henough
  | @resetting a _ _ _ _ _ hstate hq hpc hc henough =>
      rcases hstate with rfl | rfl
      · cases hact : a.isActivated with
        | true =>
            simp only [TaskImpl.activate, hact, if_true, TaskView.put]
            exact .resetting (Or.inr rfl) hq hpc hc henough
        | false =>
            simp only [TaskImpl.activate, hact]
            exact .resetting (Or.inl rfl) hq hpc hc henough
      · exact .resetting (Or.inr rfl) hq hpc hc henough

private theorem Holds.finish (h : Holds n k E R v) (hst : Stands .executed v) :
    Holds n k E R (v.put ({ v.task with state := .finish }, false)) := by
  cases hst with
  | executed =>
      cases h with
      | activated _ hc henough => exact .activated (Or.inr rfl) hc henough
      | resetting hstate => simp at hstate

private theorem Holds.enter (h : Holds n k E R v) (hst : Stands .finished v) :
    Holds n k E R (v.setStage e (some (.resetting .enter))) := by
  cases hst with
  | finished =>
      cases h with
      | activated hstate hc henough => exact .activated hstate hc henough
      | resetting hstate => simp at hstate

private theorem Holds.resetEnter (h : Holds n k E R v) (hst : Stands standing v)
    (he : v.stage e = some (.resetting .enter)) :
    Holds n k E R ((v.put (v.task.resetEnter, false)).setStage e
      (some (.resetting (v.task.nextInput 0)))) := by
  cases hst with
  | entering =>
      rcases only_eq_some.mp he with ⟨rfl, _⟩
      cases h with
      | activated _ hc henough =>
          rw [TaskView.setStage, TaskView.put, update_only, TaskImpl.nextInput, hc.length]
          refine .resetting (Or.inl rfl) (Nat.zero_le n) ?_
            (hc.congr (fun _ _ => rfl) (by simp [taken])) henough
          intro f pc hf
          rcases only_eq_some.mp hf with ⟨_, hpc⟩
          exact Or.inl (Stage.resetting.inj hpc).symm
      | resetting hstate => simp at hstate
  | busy hstage =>
      rcases only_eq_some.mp he with ⟨_, rfl⟩
      simp at hstage
  | waiting | queued | executed | finished => simp [nobody] at he
  | resetting _ hpc => exact absurd (Stage.resetting.inj (only_eq_some.mp he).2) hpc

private theorem Holds.inside {pc : ResetPc} (h : Holds n k E R v) (hst : Stands standing v)
    (he : v.stage e = some (.resetting pc)) (hpc : pc ≠ .enter) :
    ∃ q state a notice, (state = .reset ∨ state = .pending) ∧
      v = ⟨⟨state, a⟩, 0, only e (.resetting pc), notice⟩ ∧ q ≤ n ∧
      (pc = (if q < n then .input q else .finish) ∨ ∃ j, q = j + 1 ∧ pc = .activate j) ∧
      Counted n k E (taken q R) a ∧ Enough n k E fun _ => R := by
  cases hst with
  | @resetting a notice f state pc' hstate _ =>
      rcases only_eq_some.mp he with ⟨rfl, hpc'⟩
      obtain rfl := Stage.resetting.inj hpc'
      cases h with
      | resetting _ hq hpcs hc henough =>
          exact ⟨_, state, a, notice, hstate, rfl, hq, hpcs e pc' he, hc, henough⟩
      | waiting => simp at hstate
      | activated hrun => rcases hrun with rfl | rfl <;> simp at hstate
  | entering => exact absurd (Stage.resetting.inj (only_eq_some.mp he).2).symm hpc
  | busy hstage =>
      rcases only_eq_some.mp he with ⟨_, rfl⟩
      simp at hstage
  | waiting | queued | executed | finished => simp [nobody] at he

private theorem holds_only {a : InputArray} {queued q : Nat} {notice : ν → Option Notice}
    {state : TaskState} {pc : ResetPc} (hstate : state = .reset ∨ state = .pending) (hq : q ≤ n)
    (hpc : pc = (if q < n then .input q else .finish) ∨ ∃ j, q = j + 1 ∧ pc = .activate j)
    (hc : Counted n k E (taken q R) a) (henough : Enough n k E fun _ => R) :
    Holds n k E R (⟨⟨state, a⟩, queued, only e (.resetting pc), notice⟩ : TaskView ε ν) := by
  refine .resetting hstate hq (fun f pc' hf => ?_) hc henough
  rw [← Stage.resetting.inj (only_eq_some.mp hf).2]
  exact hpc

private theorem Holds.resetInput (h : Holds n k E R v) (hst : Stands standing v)
    (he : v.stage e = some (.resetting (.input i))) :
    Holds n k E R ((v.put ((v.task.resetInput i).1, false)).setStage e
      (some (.resetting (if (v.task.resetInput i).2 then .activate i
        else v.task.nextInput (i + 1))))) := by
  obtain ⟨q, state, a, notice, hstate, rfl, hq, hpc, hc, henough⟩ := h.inside hst he (by simp)
  rcases hpc with hpc | ⟨j, _, hpc⟩
  · by_cases hqn : q < n
    · rw [if_pos hqn, ResetPc.input.injEq] at hpc
      subst i
      obtain ⟨a', hinput, hnext⟩ := hc.resetInput henough hqn state
      simp only [hinput]
      rw [TaskView.setStage, TaskView.put, update_only, TaskImpl.nextInput, hc.length]
      apply holds_only hstate hqn _ hnext henough
      by_cases hflag : k q * (R + 2) ≤ E q
      · exact Or.inr ⟨q, rfl, by simp [hflag]⟩
      · exact Or.inl (by simp [hflag])
    · simp [hqn] at hpc
  · simp at hpc

private theorem Holds.resetActivate (h : Holds n k E R v) (hst : Stands standing v)
    (he : v.stage e = some (.resetting (.activate i))) :
    Holds n k E R ((v.put v.task.activate).setStage e
      (some (.resetting (v.task.nextInput (i + 1))))) := by
  obtain ⟨q, state, a, notice, hstate, rfl, hq, hpc, hc, henough⟩ := h.inside hst he (by simp)
  rcases hpc with hpc | ⟨j, rfl, hpc⟩
  · split at hpc <;> simp at hpc
  · rw [ResetPc.activate.injEq] at hpc
    subst j
    rw [TaskView.setStage, TaskView.put, update_only, TaskImpl.nextInput, hc.length]
    rcases hstate with rfl | rfl
    · cases hact : a.isActivated with
      | true =>
          simp only [TaskImpl.activate, hact, if_true]
          exact holds_only (Or.inr rfl) hq (Or.inl rfl) hc henough
      | false =>
          simp only [TaskImpl.activate, hact]
          exact holds_only (Or.inl rfl) hq (Or.inl rfl) hc henough
    · exact holds_only (Or.inr rfl) hq (Or.inl rfl) hc henough

private theorem Holds.resetFinish (hk : ∀ i < n, 0 < k i) (h : Holds n k E R v)
    (hst : Stands standing v) (he : v.stage e = some (.resetting .finish)) :
    Holds n k E (R + 1) ((v.put v.task.resetFinish).setStage e none) := by
  obtain ⟨q, state, a, notice, _, rfl, hq, hpc, hc, _⟩ := h.inside hst he (by simp)
  have hqn : q = n := by
    rcases hpc with hpc | ⟨j, _, hpc⟩
    · by_cases hlt : q < n
      · simp [hlt] at hpc
      · omega
    · simp at hpc
  subst q
  have hnext := hc.taken_all
  rw [TaskView.setStage, TaskView.put, update_only, update_nobody, TaskImpl.resetFinish]
  split
  · rename_i hact
    exact .activated (Or.inl rfl) hnext ((hnext.isActivated hk).mp hact.2)
  · exact .waiting hnext

private theorem Holds.step (hk : ∀ i < n, 0 < k i ∧ k i < 2 ^ 32) (h : Holds n k E R v)
    (hst : Stands standing v) (hs : v.Step event w) (hevent : event ≠ .executed)
    (hstage : ∀ e, v.stage e ≠ none → w.stage e ≠ none) :
    ∃ E', Holds n k E' R w ∧ ∀ i < n, ∃ lost,
      E' i + 2 ^ 32 * lost = E i + (if event = .notified i then 1 else 0) ∧
      ((∀ x, event = .notified i → v.task.inputs.inputs[i]? = some x →
        x.missedNotifications + 1 < 2 ^ 32) → lost = 0) := by
  have hpos : ∀ i < n, 0 < k i := fun i hi => (hk i hi).1
  have hsame : Holds n k E R w → event = .silent → ∃ E', Holds n k E' R w ∧ ∀ i < n, ∃ lost,
      E' i + 2 ^ 32 * lost = E i + (if event = .notified i then 1 else 0) ∧
      ((∀ x, event = .notified i → v.task.inputs.inputs[i]? = some x →
        x.missedNotifications + 1 < 2 ^ 32) → lost = 0) := by
    intro hw hsilent
    exact ⟨E, hw, fun i _ => ⟨0, by simp [hsilent], fun _ => rfl⟩⟩
  cases hs with
  | other => exact hsame h rfl
  | @notify _ i x _ hx =>
      have hi : i < n := h.length ▸ (List.getElem?_eq_some_iff.mp hx).1
      obtain ⟨E', c, hnew, hother, hsum, hfits⟩ := h.notify hx (hk i hi).2
      refine ⟨E', hnew.setNotice _, fun j _ => ?_⟩
      by_cases hji : j = i
      · subst j
        exact ⟨c, by simpa using hsum, fun hmissed => hfits (hmissed x rfl hx)⟩
      · have hij : i ≠ j := fun heq => hji heq.symm
        exact ⟨0, by simp [hother j hji, hij], fun _ => rfl⟩
  | check _ _ => exact hsame (h.setNotice _) rfl
  | activate _ => exact hsame ((h.activate hpos).setNotice _) rfl
  | fetch _ _ => exact hsame ((h.setQueued _).setStage (by simp)) rfl
  | start _ => exact hsame (h.setStage (by simp)) rfl
  | executed _ => exact absurd rfl hevent
  | resetEnter he => exact hsame (h.resetEnter hst he) rfl
  | resetInput he => exact hsame (h.resetInput hst he) rfl
  | resetActivate he => exact hsame (h.resetActivate hst he) rfl
  | @resetFinish e he => exact absurd (by simp [TaskView.setStage]) (hstage e (by simp [he]))

private theorem Holds.held (h : Holds n k E R v) (hst : Stands .fresh v) (hi : i < n) :
    ∃ x, v.task.inputs.inputs[i]? = some x ∧
      x.notifications + x.missedNotifications + k i * R = E i := by
  have hlen : i < v.task.inputs.inputs.length := by rw [h.length]; exact hi
  have hx := List.getElem?_eq_getElem hlen
  have hcounted : Counted n k E (fun _ => R) v.task.inputs := by
    cases h with
    | waiting hc => exact hc
    | activated _ hc _ => exact hc
    | resetting hstate =>
        rcases hstate with rfl | rfl
        · cases hst
        · cases hst
  obtain ⟨_, m, hsync, hm⟩ := hcounted.getElem? hx
  refine ⟨_, hx, ?_⟩
  rw [hsync, Input.notifications_add_missed]
  exact hm

/-- The inputs have received `N` notifications, and `C` counts the calls of `Task::reset`. Where `fits`
holds, the counter of missed notifications has not wrapped around. -/
def Tally (n : Nat) (k N : Nat → Nat) (C : Nat) (fits : Nat → Prop) (v : TaskView ε ν) : Prop :=
  ∃ E R, Holds n k E R v ∧ (C = R ∧ ¬ v.Resets ∨ C = R + 1 ∧ v.Resets) ∧
    ∀ i < n, (∃ lost, E i + 2 ^ 32 * lost = N i) ∧ (fits i → E i = N i)

section Tally

variable {N : Nat → Nat} {C : Nat} {fits fits' : Nat → Prop}

theorem Tally.step (hk : ∀ i < n, 0 < k i ∧ k i < 2 ^ 32) (h : Tally n k N C fits v)
    (hst : Stands standing v) (hs : v.Step event w) (hevent : event ≠ .executed)
    (hstage : ∀ e, v.stage e ≠ none → w.stage e ≠ none)
    (hfits : ∀ i, fits' i → fits i ∧ (event = .notified i → ∀ x,
      v.task.inputs.inputs[i]? = some x → x.missedNotifications + 1 < 2 ^ 32)) :
    Tally n k (fun i => N i + if event = .notified i then 1 else 0) C fits' w := by
  obtain ⟨E, R, hholds, hC, hN⟩ := h
  obtain ⟨E', hnew, hE'⟩ := hholds.step hk hst hs hevent hstage
  have hresets : w.Resets ↔ v.Resets := by
    rw [hst.resets_iff, (hst.step hs hevent hstage).resets_iff]
  rw [← hresets] at hC
  refine ⟨E', R, hnew, hC, fun i hi => ?_⟩
  obtain ⟨⟨lost, hlost⟩, hexact⟩ := hN i hi
  obtain ⟨lost', hsum, hzero⟩ := hE' i hi
  simp only
  refine ⟨⟨lost + lost', ?_⟩, fun hf => ?_⟩
  · rw [Nat.mul_add]
    omega
  · have hmissed : lost' = 0 := hzero fun x hx => (hfits i hf).2 hx x
    have hold := hexact (hfits i hf).1
    rw [hmissed] at hsum
    omega

theorem Tally.mono (h : Tally n k N C fits v) (hfits : ∀ i, fits' i → fits i) :
    Tally n k N C fits' v := by
  obtain ⟨E, R, hholds, hC, hN⟩ := h
  exact ⟨E, R, hholds, hC, fun i hi => ⟨(hN i hi).1, fun hf => (hN i hi).2 (hfits i hf)⟩⟩

theorem Tally.executed (h : Tally n k N C fits v) (hst : Stands standing v)
    (he : v.stage e = some .executing) : Tally n k N C fits (v.setStage e none) := by
  obtain ⟨E, R, hholds, hC, hN⟩ := h
  obtain ⟨rfl, hexecuted⟩ := hst.executing he
  have hbefore : ¬ v.Resets := by simp [hst.resets_iff]
  have hafter : ¬ (v.setStage e none).Resets := by simp [hexecuted.resets_iff]
  exact ⟨E, R, hholds.setStage (by simp), by simpa [hbefore, hafter] using hC, hN⟩

theorem Tally.finish (h : Tally n k N C fits v) (hst : Stands .executed v) :
    Tally n k N C fits (v.put ({ v.task with state := .finish }, false)) := by
  obtain ⟨E, R, hholds, hC, hN⟩ := h
  exact ⟨E, R, hholds.finish hst, hC, hN⟩

theorem Tally.enter (h : Tally n k N C fits v) (hst : Stands .finished v) :
    Tally n k N (C + 1) fits (v.setStage e (some (.resetting .enter))) := by
  obtain ⟨E, R, hholds, hC, hN⟩ := h
  have hbefore : ¬ v.Resets := by simp [hst.resets_iff]
  have hafter : (v.setStage e (some (.resetting .enter))).Resets :=
    ⟨e, .enter, by simp [TaskView.setStage]⟩
  have hR : C = R := by
    rcases hC with hC | hC
    · exact hC.1
    · exact absurd hC.2 hbefore
  exact ⟨E, R, hholds.enter hst, Or.inr ⟨by rw [hR], hafter⟩, hN⟩

theorem Tally.resetFinish (hk : ∀ i < n, 0 < k i) (h : Tally n k N C fits v)
    (hst : Stands standing v) (he : v.stage e = some (.resetting .finish)) :
    Tally n k N C fits ((v.put v.task.resetFinish).setStage e none) := by
  obtain ⟨E, R, hholds, hC, hN⟩ := h
  have hbefore : v.Resets := ⟨e, .finish, he⟩
  have hafter : ¬ ((v.put v.task.resetFinish).setStage e none).Resets := by
    simp [(hst.resetFinish he).2.resets_iff]
  have hR : C = R + 1 := by
    rcases hC with hC | hC
    · exact absurd hbefore hC.2
    · exact hC.1
  exact ⟨E, R + 1, hholds.resetFinish hk hst he, Or.inl ⟨hR, hafter⟩, hN⟩

theorem Tally.held (h : Tally n k N C fits v) (hst : Stands .fresh v) (hi : i < n) :
    ∃ x, v.task.inputs.inputs[i]? = some x ∧
      (∃ lost, x.notifications + x.missedNotifications + k i * C + 2 ^ 32 * lost = N i) ∧
      (fits i → x.notifications + x.missedNotifications + k i * C = N i) := by
  obtain ⟨E, R, hholds, hC, hN⟩ := h
  have hR : C = R := by
    rcases hC with hC | hC
    · exact hC.1
    · obtain ⟨e, he⟩ := hst.resets_iff.mp hC.2
      simp at he
  obtain ⟨x, hx, hheld⟩ := hholds.held hst hi
  obtain ⟨⟨lost, hlost⟩, hexact⟩ := hN i hi
  rw [← hR] at hheld
  exact ⟨x, hx, ⟨lost, by rw [hheld]; exact hlost⟩, fun hf => by rw [hheld]; exact hexact hf⟩

end Tally

end Steps

end TaskingFramework
