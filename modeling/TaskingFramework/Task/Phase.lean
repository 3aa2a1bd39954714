import TaskingFramework.Task.TaskView

/-!
# The rounds of a synchronous task

A task whose inputs are synchronous runs through rounds: it waits for its inputs, is queued,
executed and reset. `Phase` relates the state of the task to the numbers of notifications and
completed executions, and names the thread that carries a round on.
-/

set_option linter.unusedSectionVars false

namespace TaskingFramework

/-- The inputs have received `N` notifications and given `R` bunches of `k` to executions. -/
def Counted (n : Nat) (k N R : Nat → Nat) (a : InputArray) : Prop :=
  ∃ m, a = InputArray.synchronous n k m ∧ ∀ i < n, m i + k i * R i = N i

/-- Every input holds the notifications for one more execution. -/
def Enough (n : Nat) (k N R : Nat → Nat) : Prop :=
  ∀ i < n, k i * (R i + 1) ≤ N i

section Counting

variable {n : Nat} {k N R : Nat → Nat} {a : InputArray} {i : Nat} {x : Input}

private theorem bunch_le {k m r N : Nat} (h : m + k * r = N) : k * (r + 1) ≤ N ↔ k ≤ m := by
  rw [Nat.mul_succ]
  omega

theorem Counted.isActivated (h : Counted n k N R a) (hk : ∀ i < n, 0 < k i) :
    a.isActivated = true ↔ Enough n k N R := by
  rcases h with ⟨m, rfl, hm⟩
  rw [InputArray.synchronous_isActivated hk]
  constructor
  · intro h i hi
    exact (bunch_le (hm i hi)).mpr (h i hi)
  · intro h i hi
    exact (bunch_le (hm i hi)).mp (h i hi)

theorem Counted.length (h : Counted n k N R a) : a.inputs.length = n := by
  rcases h with ⟨m, rfl, _⟩
  exact InputArray.synchronous_length

theorem Counted.getElem? (h : Counted n k N R a) (hx : a.inputs[i]? = some x) :
    i < n ∧ ∃ m, x = Input.synchronous (k i) m ∧ m + k i * R i = N i := by
  rcases h with ⟨m, rfl, hm⟩
  rw [InputArray.synchronous_getElem?] at hx
  by_cases hi : i < n
  · rw [if_pos hi, Option.some.injEq] at hx
    exact ⟨hi, m i, hx.symm, hm i hi⟩
  · simp [hi] at hx

theorem Counted.input_isActivated (h : Counted n k N R a) (hx : a.inputs[i]? = some x) :
    x.isActivated = true ↔ k i * (R i + 1) ≤ N i := by
  rcases h.getElem? hx with ⟨_, m, rfl, hm⟩
  rw [Input.isActivated_synchronous, decide_eq_true_iff, bunch_le hm]

theorem Counted.congr {N' R' : Nat → Nat} (h : Counted n k N R a) (hN : ∀ i < n, N i = N' i)
    (hR : ∀ i < n, R i = R' i) : Counted n k N' R' a := by
  rcases h with ⟨m, rfl, hm⟩
  refine ⟨m, rfl, fun i hi => ?_⟩
  rw [← hN i hi, ← hR i hi]
  exact hm i hi

private theorem Counted.notify (h : Counted n k N R a) (hx : a.inputs[i]? = some x)
    (hN : i < n → N i + 1 < 2 ^ 32) :
    Counted n k (Function.update N i (N i + 1)) R (a.set i x.notify.1) ∧
      x.notify.2 = decide (N i < k i * (R i + 1)) := by
  rcases h with ⟨m, rfl, hm⟩
  rw [InputArray.synchronous_getElem?] at hx
  by_cases hi : i < n
  · rw [if_pos hi, Option.some.injEq] at hx
    subst x
    have hmi := hm i hi
    have hlt : N i < k i * (R i + 1) ↔ m i < k i := by
      have := bunch_le hmi
      omega
    have hbound := hN hi
    rw [Input.notify_synchronous (by omega)]
    refine ⟨⟨Function.update m i (m i + 1), InputArray.synchronous_set i _, ?_⟩, by simp [hlt]⟩
    intro j hj
    by_cases hij : j = i
    · subst j
      simp
      omega
    · simp [hij, hm j hj]
  · simp [hi] at hx

private theorem Counted.reset (h : Counted n k N R a) (hx : a.inputs[i]? = some x)
    (henough : k i * (R i + 1) ≤ N i) :
    Counted n k N (Function.update R i (R i + 1)) (a.set i x.reset.1) ∧
      x.reset.2 = decide (k i * (R i + 2) ≤ N i) := by
  rcases h with ⟨m, rfl, hm⟩
  rw [InputArray.synchronous_getElem?] at hx
  by_cases hi : i < n
  · rw [if_pos hi, Option.some.injEq] at hx
    subst x
    have hmi := hm i hi
    have hle : k i ≤ m i := (bunch_le hmi).mp henough
    have hnext : m i - k i + k i * (R i + 1) = N i := by
      rw [Nat.mul_succ]
      omega
    rw [Input.reset_synchronous]
    refine ⟨⟨Function.update m i (m i - k i), InputArray.synchronous_set i _, ?_⟩, ?_⟩
    · intro j hj
      by_cases hij : j = i
      · subst j
        simpa using hnext
      · simp [hij, hm j hj]
    · simp [bunch_le hnext]
  · simp [hi] at hx

private theorem Counted.notify_snd (h : Counted n k N R a) (hx : a.inputs[i]? = some x)
    (hk : k i < 2 ^ 32) :
    x.notify.2 = decide (N i < k i * (R i + 1)) := by
  obtain ⟨_, m, rfl, hm⟩ := h.getElem? hx
  obtain ⟨m', c, hnotify, _⟩ := Input.notify_wraps (m := m) hk
  have hlt : N i < k i * (R i + 1) ↔ m < k i := by
    have := bunch_le hm
    omega
  rw [hnotify]
  simp [hlt]

theorem Counted.notify_wraps (h : Counted n k N R a) (hx : a.inputs[i]? = some x)
    (hk : k i < 2 ^ 32) :
    ∃ N' c, Counted n k N' R (a.set i x.notify.1) ∧ (∀ j, j ≠ i → N' j = N j) ∧
      N' i + 2 ^ 32 * c = N i + 1 ∧
      (∀ R' : Nat → Nat, (∀ j, R' j ≤ R j) → Enough n k N R' → Enough n k N' R') ∧
      (x.missedNotifications + 1 < 2 ^ 32 → c = 0) := by
  rcases h with ⟨m, rfl, hm⟩
  rw [InputArray.synchronous_getElem?] at hx
  by_cases hi : i < n
  · rw [if_pos hi, Option.some.injEq] at hx
    subst x
    obtain ⟨m', c, hnotify, hsum, hle, hc⟩ := Input.notify_wraps (m := m i) hk
    have hmi := hm i hi
    refine ⟨Function.update N i (m' + k i * R i), c, ⟨Function.update m i m', ?_, ?_⟩, ?_, ?_, ?_, hc⟩
    · rw [hnotify, InputArray.synchronous_set]
    · intro j hj
      by_cases hij : j = i
      · subst j
        simp
      · simp [hij, hm j hj]
    · exact fun j hj => Function.update_of_ne hj _ _
    · rw [Function.update_self]
      omega
    · intro R' hR' henough j hj
      have hold := henough j hj
      by_cases hij : j = i
      · subst j
        rw [Function.update_self]
        rcases Nat.lt_or_ge (R' i) (R i) with hlt | hge
        · exact Nat.le_trans (Nat.mul_le_mul_left (k i) hlt) (Nat.le_add_left _ _)
        · have heq : R' i = R i := Nat.le_antisymm (hR' i) hge
          rw [heq, ← hmi, Nat.mul_succ] at hold
          rw [heq, Nat.mul_succ]
          have := hle (by omega)
          omega
      · rwa [Function.update_of_ne hij]
  · simp [hi] at hx

end Counting

/-- No executor deals with the task. -/
def nobody {ε : Type*} : ε → Option Stage := fun _ => none

/-- One executor deals with the task. -/
def only {ε : Type*} [DecidableEq ε] (e : ε) (stage : Stage) : ε → Option Stage :=
  Function.update nobody e (some stage)

/-- Bunches taken out of the inputs while the reset after execution `X + 1` has passed the first
`q` inputs. -/
def taken (q X : Nat) : Nat → Nat := fun i => if i < q then X + 1 else X

theorem Counted.resetInput {n q X : Nat} {k N : Nat → Nat} {a : InputArray}
    (hc : Counted n k N (taken q X) a)
    (henough : Enough n k N fun _ => X) (hq : q < n) (state : TaskState) :
    ∃ a', (⟨state, a⟩ : TaskImpl).resetInput q = (⟨state, a'⟩, decide (k q * (X + 2) ≤ N q)) ∧
      Counted n k N (taken (q + 1) X) a' := by
  have hlen : q < a.inputs.length := by rw [hc.length]; exact hq
  have hx : a.inputs[q]? = some a.inputs[q] := List.getElem?_eq_getElem hlen
  have htaken : taken q X q = X := by simp [taken]
  have hq1 : k q * (taken q X q + 1) ≤ N q := by
    rw [htaken]
    exact henough q hq
  have hnew := hc.reset hx hq1
  refine ⟨a.set q a.inputs[q].reset.1, ?_, ?_⟩
  · simp only [TaskImpl.resetInput, hx, hnew.2, htaken]
    rfl
  · apply hnew.1.congr (fun _ _ => rfl)
    intro j _
    by_cases hjq : j = q
    · subst j
      simp [taken]
    · have hlt : j < q + 1 ↔ j < q := by omega
      simp [taken, hjq, hlt]

theorem Counted.taken_all {n X : Nat} {k N : Nat → Nat} {a : InputArray}
    (hc : Counted n k N (taken n X) a) : Counted n k N (fun _ => X + 1) a := by
  apply hc.congr (fun _ _ => rfl)
  intro i hi
  simp [taken, hi]

/-- The phases of a round after `X` completed executions. The reset of `q` inputs is behind the
thread in phase `resetting`. -/
inductive Phase {ε ν : Type*} [DecidableEq ε] (n : Nat) (k N : Nat → Nat) :
    Nat → TaskView ε ν → Prop where
  | waiting {X : Nat} {a : InputArray} {notice : ν → Option Notice}
      (hc : Counted n k N (fun _ => X) a)
      (hserved : Enough n k N (fun _ => X) → ∃ c, notice c ≠ none) :
      Phase n k N X ⟨⟨.wait, a⟩, 0, nobody, notice⟩
  | queued {X : Nat} {a : InputArray} {notice : ν → Option Notice}
      (hc : Counted n k N (fun _ => X) a) (henough : Enough n k N fun _ => X) :
      Phase n k N X ⟨⟨.run, a⟩, 1, nobody, notice⟩
  | running {X : Nat} {a : InputArray} {notice : ν → Option Notice} {e : ε} {stage : Stage}
      (hstage : stage = .fetched ∨ stage = .executing)
      (hc : Counted n k N (fun _ => X) a) (henough : Enough n k N fun _ => X) :
      Phase n k N X ⟨⟨.run, a⟩, 0, only e stage, notice⟩
  | entering {X : Nat} {a : InputArray} {notice : ν → Option Notice} {e : ε}
      (hc : Counted n k N (fun _ => X) a) (henough : Enough n k N fun _ => X) :
      Phase n k N (X + 1) ⟨⟨.run, a⟩, 0, only e (.resetting .enter), notice⟩
  | resetting {X q : Nat} {a : InputArray} {notice : ν → Option Notice} {e : ε}
      {state : TaskState} {pc : ResetPc}
      (hstate : state = .reset ∨ state = .pending) (hq : q ≤ n)
      (hpc : pc = (if q < n then .input q else .finish) ∨ ∃ j, q = j + 1 ∧ pc = .activate j)
      (hc : Counted n k N (taken q X) a) (henough : Enough n k N fun _ => X)
      (hserved : state = .reset → (∀ j, pc ≠ .activate j) → 0 < q → Enough n k N (taken q X) →
        ∃ c, notice c ≠ none) :
      Phase n k N (X + 1) ⟨⟨state, a⟩, 0, only e (.resetting pc), notice⟩

section Steps

variable {ε ν : Type*} [DecidableEq ε] [DecidableEq ν] {n : Nat} {k N : Nat → Nat} {X : Nat}
  {v : TaskView ε ν} {e f : ε} {c : ν} {i : Nat} {x : Input}

theorem only_eq_some {stage stage' : Stage} :
    only e stage f = some stage' ↔ f = e ∧ stage = stage' := by
  by_cases h : f = e
  · simp [only, h]
  · simp [only, nobody, h]

theorem update_only {stage : Stage} {x : Option Stage} :
    Function.update (only e stage) e x = Function.update nobody e x := by
  simp [only]

theorem update_nobody : Function.update (nobody : ε → Option Stage) e none = nobody :=
  Function.update_eq_self e nobody

private theorem served_notify {R N' : Nat → Nat} {notice : ν → Option Notice} {goes : Bool}
    (hserved : Enough n k N R → ∃ d, notice d ≠ none) (hc : notice c = none)
    (hgoes : goes = decide (N i < k i * (R i + 1))) (hother : ∀ j, j ≠ i → N' j = N j)
    (h : Enough n k N' R) :
    ∃ d, Function.update notice c (if goes then some (.counted i) else none) d ≠ none := by
  by_cases hi : N i < k i * (R i + 1)
  · exact ⟨c, by simp [hgoes, hi]⟩
  · have hbefore : Enough n k N R := by
      intro j hj
      by_cases hji : j = i
      · subst j
        omega
      · rw [← hother j hji]
        exact h j hj
    rcases hserved hbefore with ⟨d, hd⟩
    have hdc : d ≠ c := fun he => hd (he ▸ hc)
    exact ⟨d, by simpa [hdc] using hd⟩

private theorem served_check {R : Nat → Nat} {notice : ν → Option Notice} {a : InputArray}
    (hcount : Counted n k N R a) (hx : a.inputs[i]? = some x) (h : Enough n k N R) :
    ∃ d, Function.update notice c (if x.isActivated then some .activating else none) d ≠ none := by
  have hact := (hcount.input_isActivated hx).mpr (h i (hcount.getElem? hx).1)
  exact ⟨c, by simp [hact]⟩

private theorem Enough.notify {R : Nat → Nat} (h : Enough n k N R) :
    Enough n k (Function.update N i (N i + 1)) R := by
  intro j hj
  have hj := h j hj
  by_cases hji : j = i
  · subst j
    rw [Function.update_self]
    omega
  · rwa [Function.update_of_ne hji]

private theorem Phase.notify (h : Phase n k N X v) (hc : v.notice c = none)
    (hx : v.task.inputs.inputs[i]? = some x) (hN : i < n → N i + 1 < 2 ^ 32) :
    Phase n k (Function.update N i (N i + 1)) X
      ((v.put (v.task.setInput i x.notify.1, false)).setNotice c
        (if x.notify.2 then some (.counted i) else none)) := by
  have hother : ∀ j, j ≠ i → Function.update N i (N i + 1) j = N j :=
    fun j hj => Function.update_of_ne hj _ _
  cases h with
  | waiting hcount hserved =>
      have hnew := hcount.notify hx hN
      exact .waiting hnew.1 (served_notify hserved hc hnew.2 hother)
  | queued hcount henough => exact .queued (hcount.notify hx hN).1 henough.notify
  | running hstage hcount henough => exact .running hstage (hcount.notify hx hN).1 henough.notify
  | entering hcount henough => exact .entering (hcount.notify hx hN).1 henough.notify
  | resetting hstate hq hpc hcount henough hserved =>
      have hnew := hcount.notify hx hN
      exact .resetting hstate hq hpc hnew.1 henough.notify fun hs hact hpos =>
        served_notify (hserved hs hact hpos) hc hnew.2 hother

theorem Phase.notify_wraps (h : Phase n k N X v) (hc : v.notice c = none)
    (hx : v.task.inputs.inputs[i]? = some x) (hk : k i < 2 ^ 32) :
    ∃ N' c', Phase n k N' X ((v.put (v.task.setInput i x.notify.1, false)).setNotice c
        (if x.notify.2 then some (.counted i) else none)) ∧ (∀ j, j ≠ i → N' j = N j) ∧
      N' i + 2 ^ 32 * c' = N i + 1 ∧ (x.missedNotifications + 1 < 2 ^ 32 → c' = 0) := by
  cases h with
  | waiting hcount hserved =>
      obtain ⟨N', c', hnew, hother, hsum, _, hfits⟩ := hcount.notify_wraps hx hk
      exact ⟨N', c', .waiting hnew (served_notify hserved hc (hcount.notify_snd hx hk) hother),
        hother, hsum,
        hfits⟩
  | queued hcount henough =>
      obtain ⟨N', c', hnew, hother, hsum, hmono, hfits⟩ := hcount.notify_wraps hx hk
      exact ⟨N', c', .queued hnew (hmono _ (fun _ => Nat.le_refl _) henough), hother, hsum, hfits⟩
  | running hstage hcount henough =>
      obtain ⟨N', c', hnew, hother, hsum, hmono, hfits⟩ := hcount.notify_wraps hx hk
      exact ⟨N', c', .running hstage hnew (hmono _ (fun _ => Nat.le_refl _) henough), hother, hsum,
        hfits⟩
  | entering hcount henough =>
      obtain ⟨N', c', hnew, hother, hsum, hmono, hfits⟩ := hcount.notify_wraps hx hk
      exact ⟨N', c', .entering hnew (hmono _ (fun _ => Nat.le_refl _) henough), hother, hsum, hfits⟩
  | @resetting X q _ _ _ _ _ hstate hq hpc hcount henough hserved =>
      obtain ⟨N', c', hnew, hother, hsum, hmono, hfits⟩ := hcount.notify_wraps hx hk
      have hle : ∀ j, X ≤ taken q X j := by
        intro j
        unfold taken
        split <;> omega
      refine ⟨N', c', .resetting hstate hq hpc hnew (hmono _ hle henough) ?_, hother, hsum, hfits⟩
      intro hs hact hpos
      exact served_notify (hserved hs hact hpos) hc (hcount.notify_snd hx hk) hother

private theorem Phase.check (h : Phase n k N X v) (hx : v.task.inputs.inputs[i]? = some x) :
    Phase n k N X (v.setNotice c (if x.isActivated then some .activating else none)) := by
  cases h with
  | waiting hcount _ => exact .waiting hcount (served_check hcount hx)
  | queued hcount henough => exact .queued hcount henough
  | running hstage hcount henough => exact .running hstage hcount henough
  | entering hcount henough => exact .entering hcount henough
  | resetting hstate hq hpc hcount henough _ =>
      exact .resetting hstate hq hpc hcount henough fun _ _ _ => served_check hcount hx

private theorem Phase.activate (hk : ∀ i < n, 0 < k i) (h : Phase n k N X v) :
    Phase n k N X ((v.put v.task.activate).setNotice c none) := by
  cases h with
  | @waiting _ a _ hcount _ =>
      have hiff := hcount.isActivated hk
      cases hact : a.isActivated with
      | true =>
          simp only [TaskImpl.activate, hact, if_true, TaskView.put]
          exact .queued hcount (hiff.mp hact)
      | false =>
          simp only [TaskImpl.activate, hact]
          exact .waiting hcount fun henough => absurd (hiff.mpr henough) (by simp [hact])
  | queued hcount henough => exact .queued hcount henough
  | running hstage hcount henough => exact .running hstage hcount henough
  | entering hcount henough => exact .entering hcount henough
  | @resetting _ _ a _ _ _ _ hstate hq hpc hcount henough _ =>
      have hiff := hcount.isActivated hk
      rcases hstate with rfl | rfl
      · cases hact : a.isActivated with
        | true =>
            simp only [TaskImpl.activate, hact, if_true, TaskView.put]
            exact .resetting (Or.inr rfl) hq hpc hcount henough (by simp)
        | false =>
            simp only [TaskImpl.activate, hact]
            exact .resetting (Or.inl rfl) hq hpc hcount henough fun _ _ _ hen =>
              absurd (hiff.mpr hen) (by simp [hact])
      · exact .resetting (Or.inr rfl) hq hpc hcount henough (by simp)

private theorem Phase.fetch (h : Phase n k N X v) (hq : 0 < v.queued) :
    Phase n k N X ({ v with queued := v.queued - 1 }.setStage e (some .fetched)) := by
  cases h with
  | queued hcount henough => exact .running (Or.inl rfl) hcount henough
  | waiting | running | entering | resetting => simp at hq

private theorem Phase.start (h : Phase n k N X v) (he : v.stage e = some .fetched) :
    Phase n k N X (v.setStage e (some .executing)) := by
  cases h with
  | waiting | queued => simp [nobody] at he
  | running _ hcount henough =>
      rcases only_eq_some.mp he with ⟨rfl, _⟩
      rw [TaskView.setStage, update_only]
      exact .running (Or.inr rfl) hcount henough
  | entering | resetting => simp [only_eq_some] at he

private theorem Phase.executed (h : Phase n k N X v) (he : v.stage e = some .executing) :
    Phase n k N (X + 1) (v.setStage e (some (.resetting .enter))) := by
  cases h with
  | waiting | queued => simp [nobody] at he
  | running _ hcount henough =>
      rcases only_eq_some.mp he with ⟨rfl, _⟩
      rw [TaskView.setStage, update_only]
      exact .entering hcount henough
  | entering | resetting => simp [only_eq_some] at he

private theorem Phase.resetEnter (h : Phase n k N X v) (he : v.stage e = some (.resetting .enter)) :
    Phase n k N X ((v.put (v.task.resetEnter, false)).setStage e
      (some (.resetting (v.task.nextInput 0)))) := by
  cases h with
  | waiting | queued => simp [nobody] at he
  | running hstage _ _ =>
      rcases only_eq_some.mp he with ⟨_, rfl⟩
      simp at hstage
  | entering hcount henough =>
      rcases only_eq_some.mp he with ⟨rfl, _⟩
      rw [TaskView.setStage, TaskView.put, update_only, TaskImpl.nextInput, hcount.length]
      refine .resetting (Or.inl rfl) (Nat.zero_le n) (Or.inl rfl) ?_ henough (by simp)
      exact hcount.congr (fun _ _ => rfl) (by simp [taken])
  | resetting _ _ hpc _ _ _ =>
      rcases only_eq_some.mp he with ⟨_, hpc'⟩
      rw [Stage.resetting.injEq] at hpc'
      subst hpc'
      rcases hpc with hpc | ⟨j, _, hpc⟩
      · split at hpc <;> simp at hpc
      · simp at hpc

private theorem Phase.resetInput (h : Phase n k N X v) (he : v.stage e = some (.resetting (.input i))) :
    Phase n k N X ((v.put ((v.task.resetInput i).1, false)).setStage e
      (some (.resetting (if (v.task.resetInput i).2 then .activate i
        else v.task.nextInput (i + 1))))) := by
  cases h with
  | waiting | queued => simp [nobody] at he
  | running hstage _ _ =>
      rcases only_eq_some.mp he with ⟨_, rfl⟩
      simp at hstage
  | entering => simp [only_eq_some] at he
  | @resetting X q a _ _ state _ hstate hq hpc hcount henough _ =>
      rcases only_eq_some.mp he with ⟨rfl, hpc'⟩
      rw [Stage.resetting.injEq] at hpc'
      subst hpc'
      rcases hpc with hpc | ⟨j, _, hpc⟩
      · by_cases hqn : q < n
        · rw [if_pos hqn, ResetPc.input.injEq] at hpc
          subst i
          obtain ⟨a', hinput, hnext⟩ := hcount.resetInput henough hqn state
          simp only [hinput]
          rw [TaskView.setStage, TaskView.put, update_only]
          by_cases hflag : k q * (X + 2) ≤ N q
          · simp only [hflag, decide_true, if_true]
            exact .resetting hstate hqn (Or.inr ⟨q, rfl, rfl⟩) hnext henough fun _ hact =>
              absurd rfl (hact q)
          · simp only [hflag, decide_false, TaskImpl.nextInput, hcount.length]
            refine .resetting hstate hqn (Or.inl rfl) hnext henough fun _ _ _ hen => ?_
            have hlast := hen q hqn
            simp [taken] at hlast
            exact absurd hlast hflag
        · simp [hqn] at hpc
      · simp at hpc

private theorem Phase.resetActivate (hk : ∀ i < n, 0 < k i) (h : Phase n k N X v)
    (he : v.stage e = some (.resetting (.activate i))) :
    Phase n k N X ((v.put v.task.activate).setStage e
      (some (.resetting (v.task.nextInput (i + 1))))) := by
  cases h with
  | waiting | queued => simp [nobody] at he
  | running hstage _ _ =>
      rcases only_eq_some.mp he with ⟨_, rfl⟩
      simp at hstage
  | entering => simp [only_eq_some] at he
  | @resetting X q a _ _ _ _ hstate hq hpc hcount henough _ =>
      rcases only_eq_some.mp he with ⟨rfl, hpc'⟩
      rw [Stage.resetting.injEq] at hpc'
      subst hpc'
      have hiff := hcount.isActivated hk
      rcases hpc with hpc | ⟨j, rfl, hpc⟩
      · split at hpc <;> simp at hpc
      · rw [ResetPc.activate.injEq] at hpc
        subst j
        rw [TaskView.setStage, TaskView.put, update_only, TaskImpl.nextInput, hcount.length]
        rcases hstate with rfl | rfl
        · cases hact : a.isActivated with
          | true =>
              simp only [TaskImpl.activate, hact, if_true]
              exact .resetting (Or.inr rfl) hq (Or.inl rfl) hcount henough (by simp)
          | false =>
              simp only [TaskImpl.activate, hact]
              exact .resetting (Or.inl rfl) hq (Or.inl rfl) hcount henough fun _ _ _ hen =>
                absurd (hiff.mpr hen) (by simp [hact])
        · exact .resetting (Or.inr rfl) hq (Or.inl rfl) hcount henough (by simp)

private theorem Phase.resetFinish (hn : 0 < n) (hk : ∀ i < n, 0 < k i) (h : Phase n k N X v)
    (he : v.stage e = some (.resetting .finish)) :
    Phase n k N X ((v.put v.task.resetFinish).setStage e none) := by
  cases h with
  | waiting | queued => simp [nobody] at he
  | running hstage _ _ =>
      rcases only_eq_some.mp he with ⟨_, rfl⟩
      simp at hstage
  | entering => simp [only_eq_some] at he
  | @resetting X q a _ _ _ _ hstate hq hpc hcount henough hserved =>
      rcases only_eq_some.mp he with ⟨rfl, hpc'⟩
      rw [Stage.resetting.injEq] at hpc'
      subst hpc'
      have hqn : q = n := by
        rcases hpc with hpc | ⟨j, _, hpc⟩
        · by_cases hqn : q < n
          · simp [hqn] at hpc
          · omega
        · simp at hpc
      subst q
      have hall : ∀ i < n, taken n X i = X + 1 := by
        intro i hi
        simp [taken, hi]
      have hnext := hcount.taken_all
      have hiff := hnext.isActivated hk
      rw [TaskView.setStage, TaskView.put, update_only, update_nobody]
      cases hact : a.isActivated with
      | true =>
          rcases hstate with rfl | rfl
          · simp only [TaskImpl.resetFinish, hact]
            refine .waiting hnext fun hen => hserved rfl (by simp) hn fun i hi => ?_
            rw [hall i hi]
            exact hen i hi
          · simp only [TaskImpl.resetFinish, hact]
            exact .queued hnext (hiff.mp hact)
      | false =>
          simp only [TaskImpl.resetFinish, hact, Bool.false_eq_true, and_false, if_false]
          exact .waiting hnext fun hen => absurd (hiff.mpr hen) (by simp [hact])

/-- One step of the view moves the round on. -/
theorem Phase.step {w : TaskView ε ν} {event : TaskEvent} (hn : 0 < n) (hk : ∀ i < n, 0 < k i)
    (h : Phase n k N X v) (hs : v.Step event w)
    (hN : ∀ i < n, event = .notified i → N i + 1 < 2 ^ 32) :
    Phase n k (fun i => N i + if event = .notified i then 1 else 0)
      (X + if event = .executed then 1 else 0) w := by
  cases hs with
  | other => exact h
  | @notify _ i _ hc hx =>
      have hN' : (fun j => N j + if TaskEvent.notified i = .notified j then 1 else 0) =
          Function.update N i (N i + 1) := by
        funext j
        by_cases hj : j = i
        · subst j
          simp
        · have hij : i ≠ j := fun he => hj he.symm
          simp [hj, hij]
      rw [hN']
      exact h.notify hc hx fun hi => hN i hi rfl
  | check _ hx => exact h.check hx
  | activate _ => exact h.activate hk
  | fetch _ hq => exact h.fetch hq
  | start he => exact h.start he
  | executed he => exact h.executed he
  | resetEnter he => exact h.resetEnter he
  | resetInput he => exact h.resetInput he
  | resetActivate he => exact h.resetActivate hk he
  | resetFinish he => exact h.resetFinish hn hk he

/-- A notification, without a bound on their number. -/
theorem Phase.step_notified {w : TaskView ε ν} (h : Phase n k N X v) (hs : v.Step (.notified i) w)
    (hk : k i < 2 ^ 32) : ∃ N', Phase n k N' X w ∧ N' i ≤ N i + 1 := by
  cases hs with
  | notify hc hx =>
      obtain ⟨N', c', hnew, _, hsum, _⟩ := h.notify_wraps hc hx hk
      exact ⟨N', hnew, by omega⟩

/-- In a phase the task is queued at most once and dealt with by at most one executor. -/
theorem Phase.exclusive (h : Phase n k N X v) :
    v.queued ≤ 1 ∧ ∀ e f, v.stage e ≠ none → v.stage f ≠ none → e = f := by
  have hone : ∀ (g : ε) (stage : Stage) (e : ε), only g stage e ≠ none → e = g := by
    intro g stage e he
    by_cases heg : e = g
    · exact heg
    · simp [only, nobody, heg] at he
  cases h with
  | waiting | queued => simp [nobody]
  | running | entering | resetting =>
      exact ⟨by simp, fun e f he hf => (hone _ _ e he).trans (hone _ _ f hf).symm⟩

/-- The inputs of a task that has been fetched and not been executed yet. -/
theorem Phase.runs (h : Phase n k N X v)
    (he : v.stage e = some .fetched ∨ v.stage e = some .executing) :
    Counted n k N (fun _ => X) v.task.inputs ∧ Enough n k N fun _ => X := by
  cases h with
  | waiting | queued => simp [nobody] at he
  | running _ hc henough => exact ⟨hc, henough⟩
  | entering | resetting => simp [only_eq_some] at he

/-- A task nobody has to do anything for has consumed all the bunches its inputs received. -/
theorem Phase.quiet (h : Phase n k N X v)
    (hqueue : v.queued = 0) (hstage : ∀ e, v.stage e = none) (hnotice : ∀ c, v.notice c = none) :
    Counted n k N (fun _ => X) v.task.inputs ∧ ¬ Enough n k N fun _ => X := by
  cases h with
  | waiting hc hserved =>
      refine ⟨hc, fun hen => ?_⟩
      rcases hserved hen with ⟨c, hc⟩
      exact hc (hnotice c)
  | queued => simp at hqueue
  | @running _ _ _ e => simpa [only] using hstage e
  | @entering _ _ _ e => simpa [only] using hstage e
  | @resetting _ _ _ _ e => simpa [only] using hstage e

end Steps

section Phases

variable {ε ν : Type*} [DecidableEq ε] [DecidableEq ν] {n X : Nat} {k N : Nat → Nat}
  {v w : TaskView ε ν} {i : Nat} {x : Input}

theorem Phase.length (h : Phase n k N X v) : v.task.inputs.inputs.length = n := by
  cases h with
  | waiting hc => exact hc.length
  | queued hc => exact hc.length
  | running _ hc => exact hc.length
  | entering hc => exact hc.length
  | resetting _ _ _ hc => exact hc.length

theorem Phase.bunches_le (h : Phase n k N X v) (hi : i < n) : k i * X ≤ N i := by
  have hwaiting : ∀ {a : InputArray}, Counted n k N (fun _ => X) a → k i * X ≤ N i := by
    intro a hc
    obtain ⟨m, _, hm⟩ := hc
    exact Nat.le_trans (Nat.le_add_left _ _) (Nat.le_of_eq (hm i hi))
  cases h with
  | waiting hc => exact hwaiting hc
  | queued hc => exact hwaiting hc
  | running _ hc => exact hwaiting hc
  | entering _ henough => exact henough i hi
  | resetting _ _ _ _ henough => exact henough i hi

/-- What an input has missed belongs to the executions that have not been completed. -/
theorem Phase.missed_le (h : Phase n k N X v) (hx : v.task.inputs.inputs[i]? = some x) :
    x.missedNotifications + k i * X ≤ N i + k i := by
  have hcounted : ∀ {R : Nat → Nat}, Counted n k N R v.task.inputs → X ≤ R i + 1 →
      x.missedNotifications + k i * X ≤ N i + k i := by
    intro R hc hR
    obtain ⟨_, m, rfl, hm⟩ := hc.getElem? hx
    have hsum := Input.notifications_add_missed (k := k i) (m := m)
    have hle := Nat.mul_le_mul_left (k i) hR
    rw [Nat.mul_succ] at hle
    omega
  cases h with
  | waiting hc => exact hcounted hc (Nat.le_succ X)
  | queued hc => exact hcounted hc (Nat.le_succ X)
  | running _ hc => exact hcounted hc (Nat.le_succ X)
  | entering hc => exact hcounted hc Nat.le.refl
  | resetting _ _ _ hc =>
      apply hcounted hc
      unfold taken
      split <;> omega

theorem Phase.step_other {event : TaskEvent} (hn : 0 < n) (hk : ∀ j < n, 0 < k j ∧ k j < 2 ^ 32)
    (h : Phase n k N X v) (hs : v.Step event w) (hevent : event ≠ .notified i) :
    ∃ N', Phase n k N' (X + if event = .executed then 1 else 0) w ∧ N' i = N i := by
  by_cases hnotified : ∃ j, event = .notified j
  · obtain ⟨j, rfl⟩ := hnotified
    have hji : i ≠ j := fun hij => hevent (hij ▸ rfl)
    cases hs with
    | notify hc hx =>
        have hj : j < n := h.length ▸ (List.getElem?_eq_some_iff.mp hx).1
        obtain ⟨N', _, hnew, hother, _⟩ := h.notify_wraps hc hx (hk j hj).2
        exact ⟨N', hnew, hother i hji⟩
  · have hnone : ∀ j, event ≠ .notified j := fun j hj => hnotified ⟨j, hj⟩
    have hnew := h.step hn (fun j hj => (hk j hj).1) hs fun j _ hj => absurd hj (hnone j)
    refine ⟨_, hnew, ?_⟩
    simp [hnone]

end Phases

end TaskingFramework
