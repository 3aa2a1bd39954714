import TaskingFramework.Task.Round
import TaskingFramework.Task.Start

/-!
# Groups run in rounds

A system whose group resets are orderly takes the steps of a round: from the start of the schedulers
on, the members of the group stand as the round says.
-/

set_option linter.unusedSectionVars false

namespace TaskingFramework

open Foundation

section Refinement

variable {τ ε ν : Type*} [DecidableEq τ] [DecidableEq ε] [DecidableEq ν]

/-- The view of the group shows this round. -/
structure GroupView.Shows (v : GroupView τ ε ν) (M : List τ) (q : Round τ ε) : Prop where
  member : ∀ t ∈ M, Stands (q.standing t) (v.member t)
  executor : v.executor = q.executor

variable {M : List τ} {v w : GroupView τ ε ν} {q : Round τ ε} {r : Nat} {X C : τ → Nat}
  {event : GroupEvent τ} {e : ε} {t : τ}

private theorem GroupView.Shows.update (h : v.Shows M q) {view : TaskView ε ν}
    {standing : Standing ε} {pc : Option (GroupPc τ)} (ht : t ∈ M → Stands standing view) :
    GroupView.Shows ⟨Function.update v.member t view, Function.update v.executor e pc⟩ M
      ⟨Function.update q.standing t standing, Function.update q.executor e pc⟩ := by
  refine ⟨fun u hu => ?_, by rw [h.executor]⟩
  by_cases hut : u = t
  · subst u
    simpa using ht hu
  · simpa [hut] using h.member u hu

/-- In an orderly group, the steps of the view are steps of the round. -/
theorem GroupView.Shows.step (h : v.Shows M q) (hordered : q.Ordered M r X C)
    (hs : v.Step M event w)
    (horderly : 0 < event.begun → (∀ u ∈ M, (v.member u).task.state = .finish) ∧
      ∀ f u us, v.executor f ≠ some (.resetting u us)) :
    ∃ q', q.Step M event q' ∧ w.Shows M q' := by
  cases hs with
  | own hmember hexecutor =>
      refine ⟨q, .own fun t ht => (hmember t ht).2.1, fun t ht => ?_, by rw [hexecutor, h.executor]⟩
      obtain ⟨hstep, hevent, hstage⟩ := hmember t ht
      exact (h.member t ht).step hstep hevent hstage
  | executed ht he hfree =>
      obtain ⟨hfresh, hexecuted⟩ := (h.member _ ht).executing he
      rw [h.executor] at hfree
      exact ⟨_, .executed ht hfresh hfree, h.update fun _ => hexecuted⟩
  | @finish e t he =>
      rw [h.executor] at he
      obtain ⟨ht, hexecuted⟩ := hordered.finishing e t he
      have hstands := h.member t ht
      rw [hexecuted] at hstands
      exact ⟨_, .finish he, h.update fun _ => hstands.finish⟩
  | @isExecuted e t rest he =>
      rw [h.executor] at he
      have ht : t ∈ M := (hordered.checking e _ he).subset List.mem_cons_self
      have hstands := h.member t ht
      have hstep : q.Step M .silent ⟨q.standing, Function.update q.executor e
          (if (v.member t).task.isExecuted then some (.checking rest) else none)⟩ := by
        apply Round.Step.isExecuted he
        · intro hanswer
          exact hstands.state_finish (by simpa [TaskImpl.isExecuted] using hanswer)
        · intro hanswer hfinished
          rw [hfinished] at hstands
          simp [TaskImpl.isExecuted, hstands.finish_state] at hanswer
      exact ⟨_, hstep, h.member, by rw [h.executor]⟩
  | @begins e t rest he hM =>
      rw [h.executor] at he
      obtain ⟨hall, hidle⟩ := horderly Nat.one_pos
      rw [h.executor] at hidle
      have hfinished : ∀ u ∈ M, q.standing u = .finished := by
        intro u hu
        rcases (h.member u hu).state_finish (hall u hu) with hst | ⟨f, hst⟩
        · exact hst
        · cases hordered.inRound with
          | resetting _ hf => exact absurd hf (hidle _ _ _)
          | collecting _ hmember =>
              rcases (hmember u hu).1 with ⟨_, hc⟩ | ⟨_, hc | hc⟩ <;> simp [hst] at hc
      refine ⟨_, .begins he hM hfinished hidle, h.update fun ht => ?_⟩
      have hstands := h.member t ht
      rw [hfinished t ht] at hstands
      exact hstands.enter
  | @next e t u rest he hne hstage =>
      rw [h.executor] at he
      obtain ⟨before, hM, _, _, ht, hrest⟩ := hordered.inRound.during he
      have htM : t ∈ M := by simp [hM]
      have huM : u ∈ M := by simp [hM]
      have hu := h.member u huM
      rw [(hrest u List.mem_cons_self).1] at hu
      refine ⟨_, .next he, fun w hw => ?_, by rw [h.executor]⟩
      by_cases hwu : w = u
      · subst w
        simpa using hu.enter
      · by_cases hwt : w = t
        · subst w
          simpa [hwu] using ((h.member t htM).resetFinish hstage).2
        · simpa [hwu, hwt] using h.member w hw
  | @last e t he hstage =>
      rw [h.executor] at he
      exact ⟨_, .last he, h.update fun ht => ((h.member t ht).resetFinish hstage).2⟩

end Refinement

section System

variable {τ σ ε γ ν : Type*} [DecidableEq τ] [DecidableEq σ] [DecidableEq ε] [DecidableEq γ]
  [DecidableEq ν] {L : Layout τ σ ε γ} {g : γ}

namespace Rounds

/-- The step begins a reset of the group only if all members have finished and no executor is resetting
them. -/
def Orderly (L : Layout τ σ ε γ) (g : γ) (r : Rounds τ σ ε γ ν) (a : SystemAction τ ε ν) : Prop :=
  r.system.beginsReset a = some g →
    (∀ t ∈ L.taskList g, (r.system.task t).state = .finish) ∧
    ∀ e t pc members, r.system.executor e = .resetting t pc members → L.group t ≠ some g

/-- The members have completed `X` executions. -/
structure InRound (L : Layout τ σ ε γ) (g : γ) (X : τ → Nat) (r : Rounds τ σ ε γ ν) : Prop where
  placed : ∀ t ∈ L.taskList g, r.system.Placed L t
  aligned : r.system.Aligned L g
  round : ∃ q, (r.system.groupView L g).Shows (L.taskList g) q ∧
    q.Ordered (L.taskList g) (r.resets g) X r.taskResets

variable {r r' : Rounds τ σ ε γ ν} {a : SystemAction τ ε ν} {X : τ → Nat}

/-- Where no executor has begun to work, the view shows the start of a round. -/
theorem shows_start {s : System τ σ ε γ ν} (hready : ∀ t ∈ L.taskList g, s.Ready L t)
    (hJ : L.Joined g) : s.Aligned L g ∧
      (s.groupView L g).Shows (L.taskList g) ⟨fun _ => .fresh, fun _ => none⟩ := by
  obtain ⟨t, ht⟩ := List.exists_mem_of_ne_nil _ hJ.nonempty
  have hidle := (hready t ht).executor
  refine ⟨⟨by simp [hidle], by simp [hidle], by simp [hidle]⟩, fun t ht => (hready t ht).stands, ?_⟩
  funext e
  simp [System.groupView, hidle e, ExecutePc.inGroup]

theorem inRound_start (hready : ∀ t ∈ L.taskList g, r.system.Ready L t) (hJ : L.Joined g)
    (hresets : r.resets g = 0) (htaskResets : ∀ t, r.taskResets t = 0) :
    r.InRound L g fun _ => 0 := by
  obtain ⟨haligned, hshows⟩ := shows_start hready hJ
  refine ⟨fun t ht => (hready t ht).placed, haligned, _, hshows, ?_⟩
  rw [hresets]
  exact Round.ordered_start hJ.nonempty (fun _ _ => rfl) fun t _ => htaskResets t

private theorem InRound.step (hJ : L.Joined g) (h : r.InRound L g X) (hs : Step L r a r')
    (horderly : r.Orderly L g a) :
    r'.InRound L g fun t => X t + if a.event t = .executed then 1 else 0 := by
  obtain ⟨hsystem, hresets, htaskResets⟩ := step_iff.mp hs
  obtain ⟨q, hshows, hordered⟩ := h.round
  obtain ⟨event, hstep, hlabels⟩ := System.step_group hJ h.placed h.aligned hsystem
  obtain ⟨q', hq', hshows'⟩ := hshows.step hordered hstep fun hbegun => by
    have hbegins : r.system.beginsReset a = some g := by
      by_contra hnot
      rw [← hlabels.begins, if_neg hnot] at hbegun
      exact Nat.lt_irrefl 0 hbegun
    obtain ⟨hall, hidle⟩ := horderly hbegins
    refine ⟨hall, fun f u us hf => ?_⟩
    obtain ⟨hu, pc, hpc⟩ := ExecutePc.inGroup_eq_resetting.mp hf
    exact hidle f u pc us hpc hu
  refine ⟨fun t ht => System.placed_step (h.placed t ht) hsystem,
    System.aligned_step hJ h.aligned hsystem, q', hshows', ?_⟩
  have hnew := hordered.step hJ.nodup hq'
  rw [hresets, bump_apply, hlabels.begins]
  apply hnew.congr
  · intro t ht
    rw [hlabels.events t ht]
  · intro t ht
    rw [htaskResets, bump_apply, hlabels.calls t ht]

/-- In a run of orderly steps from the start of the schedulers on, the group is in a round. -/
theorem run_inRound {r₀ : Rounds τ σ ε γ ν} {acts : List (SystemAction τ ε ν)} (hJ : L.Joined g)
    (hstart : r₀.InRound L g fun _ => 0)
    (hrun : Run (fun r a r' => Step L r a r' ∧ r.Orderly L g a) r₀ acts r) :
    r.InRound L g fun t => System.executions t acts := by
  apply hrun.invariant_history
    (I := fun acts (r : Rounds τ σ ε γ ν) => r.InRound L g fun t => System.executions t acts)
  · exact hstart
  · intro acts r a r' h hstep
    simp only [System.executions_snoc]
    exact h.step hJ hstep.1 hstep.2

/-- An executor is in `finalizeExecution` of the group and cannot leave it without a reset. -/
def Closing (L : Layout τ σ ε γ) (g : γ) (r : Rounds τ σ ε γ ν) : Prop :=
  (∃ e t, r.system.executor e = .finishing t g) ∨
    (∃ e rest, r.system.executor e = .checking g rest) ∧
      ∀ t ∈ L.taskList g, (r.system.task t).isExecuted = true

/-- When all members have been executed since the last reset, the group is about to be reset. -/
theorem InRound.closing (h : r.InRound L g X)
    (hall : ∀ t ∈ L.taskList g, X t = r.resets g + 1) : r.Closing L g := by
  obtain ⟨q, hshows, hordered⟩ := h.round
  cases hordered.inRound with
  | resetting hM _ _ _ ht _ =>
      have hX := hall _ (hM ▸ List.mem_append_right _ List.mem_cons_self)
      have := ht.2.1
      omega
  | collecting _ hmember hlast =>
      by_cases hfinishing : ∃ e t, r.system.executor e = .finishing t g
      · exact Or.inl hfinishing
      · right
        constructor
        · obtain ⟨e, ⟨t, he⟩ | ⟨rest, he⟩⟩ := hlast hall
          · rw [← hshows.executor] at he
            exact absurd ⟨e, t, ExecutePc.inGroup_eq_finishing.mp he⟩ hfinishing
          · rw [← hshows.executor] at he
            exact ⟨e, rest, ExecutePc.inGroup_eq_checking.mp he⟩
        · intro t ht
          have hstands := hshows.member t ht
          rcases (hmember t ht).1 with ⟨hX, _⟩ | ⟨_, hst | hst⟩
          · have := hall t ht
            omega
          · obtain ⟨e, he⟩ := hordered.finisher t ht hst
            rw [← hshows.executor] at he
            exact absurd ⟨e, t, ExecutePc.inGroup_eq_finishing.mp he⟩ hfinishing
          · rw [hst] at hstands
            have hstate : (r.system.task t).state = .finish := hstands.finish_state
            simp [TaskImpl.isExecuted, hstate]

/-- Between two resets of the group a member is executed at most once, and reset once. -/
theorem InRound.bounds (h : r.InRound L g X) {t : τ} (ht : t ∈ L.taskList g) :
    r.resets g ≤ X t ∧ X t ≤ r.resets g + 1 ∧ r.taskResets t ≤ r.resets g ∧
      r.resets g ≤ r.taskResets t + 1 := by
  obtain ⟨q, _, hordered⟩ := h.round
  have hcurrent : ∀ {X r : Nat} {st : Standing ε}, Round.Current r X st → r ≤ X ∧ X ≤ r + 1 := by
    intro X r st hcurrent
    rcases hcurrent with ⟨hX, _⟩ | ⟨hX, _⟩
    · omega
    · omega
  cases hordered.inRound with
  | collecting _ hmember _ =>
      have hX := hcurrent (hmember t ht).1
      have hC := (hmember t ht).2
      omega
  | @resetting _ u before rest hM _ _ hbefore hu hrest =>
      rw [hM] at ht
      rcases List.mem_append.mp ht with ht | ht
      · have hX := hcurrent (hbefore t ht).1
        have hC := (hbefore t ht).2
        omega
      · rcases List.mem_cons.mp ht with rfl | ht
        · have := hu.2
          omega
        · have := (hrest t ht).2
          omega

theorem InRound.taskResets (h : r.InRound L g X) {t : τ} (ht : t ∈ L.taskList g)
    (hidle : ∀ e u pc members, r.system.executor e = .resetting u pc members → L.group u ≠ some g) :
    r.taskResets t = r.resets g := by
  obtain ⟨q, hshows, hordered⟩ := h.round
  cases hordered.inRound with
  | collecting _ hmember _ => exact (hmember t ht).2
  | @resetting e u before rest hM he _ _ _ _ =>
      rw [← hshows.executor] at he
      obtain ⟨hu, pc, hpc⟩ := ExecutePc.inGroup_eq_resetting.mp he
      exact absurd hu (hidle e u pc rest hpc)

end Rounds

end System

end TaskingFramework
