import TaskingFramework.Task.Counts
import TaskingFramework.Task.Serial

/-!
# Rounds of a group with synchronous inputs

All members of the group belong to one scheduler. Whatever the order of the threads, the group is reset
as soon as all members have been executed since the last reset, and no notification gets lost that the
counters can hold.
-/

set_option linter.unusedSectionVars false

namespace TaskingFramework

open Foundation

section Tally

variable {τ ε ν : Type*} [DecidableEq τ] [DecidableEq ε] [DecidableEq ν]

/-- The members have `n` inputs with thresholds `k` that received `N` notifications. -/
def GroupView.Tallied (v : GroupView τ ε ν) (M : List τ) (n : τ → Nat) (k N : τ → Nat → Nat)
    (C : τ → Nat) (fits : τ → Nat → Prop) : Prop :=
  ∀ t ∈ M, Tally (n t) (k t) (N t) (C t) (fits t) (v.member t)

variable {M : List τ} {v w : GroupView τ ε ν} {q : Round τ ε} {r : Nat} {X C : τ → Nat}
  {n : τ → Nat} {k N : τ → Nat → Nat} {fits fits' : τ → Nat → Prop} {event : GroupEvent τ}

private theorem GroupView.Tallied.step (hk : ∀ t ∈ M, ∀ i < n t, 0 < k t i ∧ k t i < 2 ^ 32)
    (hshows : v.Shows M q) (hordered : q.Ordered M r X C)
    (hall : 0 < event.begun → ∀ u ∈ M, q.standing u = .finished) (h : v.Tallied M n k N C fits)
    (hs : v.Step M event w)
    (hfits : ∀ t i, fits' t i → fits t i ∧ (event.event t = .notified i → ∀ x,
      (v.member t).task.inputs.inputs[i]? = some x → x.missedNotifications + 1 < 2 ^ 32)) :
    w.Tallied M n k (fun t i => N t i + if event.event t = .notified i then 1 else 0)
      (fun t => C t + event.calls t) fits' := by
  have hmono : ∀ t ∈ M, Tally (n t) (k t) (N t) (C t) (fits' t) (v.member t) :=
    fun t ht => (h t ht).mono fun i hf => (hfits t i hf).1
  intro t ht
  cases hs with
  | own hmember _ =>
      obtain ⟨hstep, hevent, hstage⟩ := hmember t ht
      exact (h t ht).step (hk t ht) (hshows.member t ht) hstep hevent hstage (hfits t)
  | @executed e u hu he _ =>
      by_cases htu : t = u
      · subst t
        simpa [GroupEvent.event, GroupEvent.calls] using (hmono u ht).executed (hshows.member u ht) he
      · have hut : ¬ u = t := fun heq => htu heq.symm
        simpa [GroupEvent.event, GroupEvent.calls, htu, hut] using hmono t ht
  | @finish e u he =>
      by_cases htu : t = u
      · subst t
        have hst := hshows.member u ht
        rw [(hordered.finishing e u (hshows.executor ▸ he)).2] at hst
        simpa [GroupEvent.event, GroupEvent.calls] using (hmono u ht).finish hst
      · simpa [GroupEvent.event, GroupEvent.calls, htu] using hmono t ht
  | isExecuted _ => simpa [GroupEvent.event, GroupEvent.calls] using hmono t ht
  | @begins e u rest _ _ =>
      by_cases htu : t = u
      · subst t
        have hst := hshows.member u ht
        rw [hall Nat.one_pos u ht] at hst
        simpa [GroupEvent.event, GroupEvent.calls] using (hmono u ht).enter hst
      · have hut : ¬ u = t := fun heq => htu heq.symm
        simpa [GroupEvent.event, GroupEvent.calls, htu, hut] using hmono t ht
  | @next e u u' rest he hne hstage =>
      obtain ⟨_, _, _, _, _, hrest⟩ := hordered.inRound.during (hshows.executor ▸ he)
      by_cases htu' : t = u'
      · subst t
        have hst := hshows.member u' ht
        rw [(hrest u' List.mem_cons_self).1] at hst
        simpa [GroupEvent.event, GroupEvent.calls] using (hmono u' ht).enter hst
      · have hut' : ¬ u' = t := fun heq => htu' heq.symm
        by_cases htu : t = u
        · subst t
          have hpos : ∀ i < n u, 0 < k u i := fun i hi => (hk u ht i hi).1
          simpa [GroupEvent.event, GroupEvent.calls, htu', hut'] using
            (hmono u ht).resetFinish hpos (hshows.member u ht) hstage
        · simpa [GroupEvent.event, GroupEvent.calls, htu', hut', htu] using hmono t ht
  | @last e u he hstage =>
      by_cases htu : t = u
      · subst t
        have hpos : ∀ i < n u, 0 < k u i := fun i hi => (hk u ht i hi).1
        simpa [GroupEvent.event, GroupEvent.calls] using
          (hmono u ht).resetFinish hpos (hshows.member u ht) hstage
      · simpa [GroupEvent.event, GroupEvent.calls, htu] using hmono t ht

end Tally

section System

variable {τ σ ε γ ν : Type*} [DecidableEq τ] [DecidableEq σ] [DecidableEq ε] [DecidableEq γ]
  [DecidableEq ν] {L : Layout τ σ ε γ} {g : γ}

private theorem holdsMutex_of_inGroup {pc : ExecutePc τ γ} (h : pc.inGroup L g ≠ none) :
    pc.holdsMutex = true := by
  cases pc with
  | finishing | checking | resetting | leaving => rfl
  | idle | fetched | executing => simp [ExecutePc.inGroup] at h

private theorem executing_of_stage {pc : ExecutePc τ γ} {t : τ} (h : pc.stage t = some .executing) :
    pc = .executing t := by
  cases pc with
  | executing u =>
      by_cases hu : u = t
      · rw [hu]
      · simp [ExecutePc.stage, hu] at h
  | fetched u => by_cases hu : u = t <;> simp [ExecutePc.stage, hu] at h
  | resetting u _ _ => by_cases hu : u = t <;> simp [ExecutePc.stage, hu] at h
  | idle | finishing | checking | leaving => simp [ExecutePc.stage] at h

private theorem GroupView.Step.begins_work {M : List τ} {v w : GroupView τ ε ν} {event : GroupEvent τ}
    {f : ε} (h : v.Step M event w) (hf : w.executor f ≠ none) :
    v.executor f ≠ none ∨ ∃ t ∈ M, (v.member t).stage f = some .executing := by
  have hkeep : ∀ {e : ε} {pc pc' : Option (GroupPc τ)}, v.executor e = pc → pc ≠ none →
      Function.update v.executor e pc' f ≠ none → v.executor f ≠ none := by
    intro e pc pc' he hpc hf
    by_cases hfe : f = e
    · rw [hfe, he]
      exact hpc
    · rwa [Function.update_of_ne hfe] at hf
  cases h with
  | own _ hexecutor => exact Or.inl (hexecutor ▸ hf)
  | @executed e t ht he _ =>
      by_cases hfe : f = e
      · exact Or.inr ⟨t, ht, hfe ▸ he⟩
      · exact Or.inl (by simpa [hfe] using hf)
  | finish he => exact Or.inl (hkeep he (by simp) hf)
  | isExecuted he => exact Or.inl (hkeep he (by simp) hf)
  | begins he _ => exact Or.inl (hkeep he (by simp) hf)
  | next he _ _ => exact Or.inl (hkeep he (by simp) hf)
  | last he _ => exact Or.inl (hkeep he (by simp) hf)

namespace Rounds

/-- The step leaves the counter of missed notifications of this input in its range. -/
def Fits (t : τ) (i : Nat) (r : Rounds τ σ ε γ ν) (a : SystemAction τ ε ν) : Prop :=
  a.event t = .notified i → ∀ x, (r.system.task t).inputs.inputs[i]? = some x →
    x.missedNotifications + 1 < 2 ^ 32

/-- All members of the group belong to one scheduler and have synchronous inputs. -/
structure Served (L : Layout τ σ ε γ) (g : γ) (scheduler : σ) (n : τ → Nat) (k : τ → Nat → Nat)
    (X : τ → Nat) (N : τ → Nat → Nat) (fits : τ → Nat → Prop) (r : Rounds τ σ ε γ ν) : Prop where
  placed : ∀ t ∈ L.taskList g, r.system.Placed L t
  aligned : r.system.Aligned L g
  guarded : r.system.Guarded L
  atHome : ∀ t ∈ L.taskList g, r.system.Local L t
  scheduler : ∀ e, (r.system.groupView L g).executor e ≠ none → L.scheduler e = scheduler
  round : ∃ q, (r.system.groupView L g).Shows (L.taskList g) q ∧
    q.Ordered (L.taskList g) (r.resets g) X r.taskResets ∧ q.Alone (L.taskList g) (r.resets g) X
  tallied : (r.system.groupView L g).Tallied (L.taskList g) n k N r.taskResets fits

variable {scheduler : σ} {n : τ → Nat} {k N : τ → Nat → Nat} {X : τ → Nat}
  {fits fits' : τ → Nat → Prop} {r r' : Rounds τ σ ε γ ν} {a : SystemAction τ ε ν}

private theorem Served.inRound (h : r.Served L g scheduler n k X N fits) : r.InRound L g X := by
  obtain ⟨q, hshows, hordered, _⟩ := h.round
  exact ⟨h.placed, h.aligned, q, hshows, hordered⟩

private theorem event_of_resets_ne (hs : Step L r a r') (hne : r'.resets g ≠ r.resets g) (t : τ) :
    a.event t ≠ .executed := by
  rw [(step_iff.mp hs).2.1, bump_apply] at hne
  cases a with
  | executed e u => simp [System.beginsReset] at hne
  | notify _ u i => by_cases hu : u = t <;> simp [SystemAction.event, hu]
  | check | activate | nextTask | synchronizeStart | finish | isExecuted | reset | leave =>
      simp [SystemAction.event]

private theorem serial_of_guarded {s : System τ σ ε γ ν} (hguarded : s.Guarded L)
    (hscheduler : ∀ e, (s.groupView L g).executor e ≠ none → L.scheduler e = scheduler) {e f : ε}
    (he : (s.groupView L g).executor e ≠ none) (hf : (s.groupView L g).executor f ≠ none) :
    e = f := by
  have howner := hguarded e (holdsMutex_of_inGroup he)
  have howner' := hguarded f (holdsMutex_of_inGroup hf)
  rw [hscheduler e he] at howner
  rw [hscheduler f hf, howner] at howner'
  exact Option.some.inj howner'

private theorem Served.step (hJ : L.Joined g)
    (hone : ∀ t ∈ L.taskList g, L.associatedScheduler t = scheduler)
    (hk : ∀ t ∈ L.taskList g, ∀ i < n t, 0 < k t i ∧ k t i < 2 ^ 32)
    (h : r.Served L g scheduler n k X N fits) (hs : Step L r a r')
    (hfits : ∀ t i, fits' t i → fits t i ∧ r.Fits t i a) :
    r'.Served L g scheduler n k (fun t => X t + if a.event t = .executed then 1 else 0)
      (fun t i => N t i + if a.event t = .notified i then 1 else 0) fits' := by
  obtain ⟨hsystem, hresets, htaskResets⟩ := step_iff.mp hs
  obtain ⟨q, hshows, hordered, halone⟩ := h.round
  obtain ⟨event, hstep, hlabels⟩ := System.step_group hJ h.placed h.aligned hsystem
  have hguarded := System.guarded_step h.guarded hsystem
  have hscheduler : ∀ e, (r'.system.groupView L g).executor e ≠ none → L.scheduler e = scheduler := by
    intro e he
    rcases hstep.begins_work he with hold | ⟨t, ht, hexecuting⟩
    · exact h.scheduler e hold
    · rw [← hone t ht]
      exact h.atHome t ht e (Or.inr (executing_of_stage hexecuting))
  have hserial : q.Serial := by
    intro e f he hf
    rw [← hshows.executor] at he hf
    exact serial_of_guarded h.guarded h.scheduler he hf
  -- an executor that has checked all members finds them finished, and nobody else resets them
  have hbegun : 0 < event.begun → (∀ u ∈ L.taskList g, q.standing u = .finished) ∧
      ∀ f u us, (r.system.groupView L g).executor f ≠ some (.resetting u us) := by
    intro hpos
    have hview := hstep
    generalize r'.system.groupView L g = w at hview
    cases hview with
    | own | executed | finish | isExecuted | next | last => simp [GroupEvent.begun] at hpos
    | @begins e t rest he hM =>
        rw [hshows.executor] at he ⊢
        constructor
        · obtain ⟨before, hbefore, hfinished⟩ := halone.checked e [] he
          rw [List.append_nil] at hbefore
          exact fun u hu => hfinished u (hbefore ▸ hu)
        · intro f u us hf
          have hfe := hserial e f (by simp [he]) (by simp [hf])
          simp [← hfe, he] at hf
  obtain ⟨q', hq', hshows'⟩ := hshows.step hordered hstep fun hpos => by
    obtain ⟨hall, hidle⟩ := hbegun hpos
    refine ⟨fun u hu => ?_, hidle⟩
    have hst := hshows.member u hu
    rw [hall u hu] at hst
    exact hst.finish_state
  have hserial' : q'.Serial := by
    intro e f he hf
    rw [← hshows'.executor] at he hf
    exact serial_of_guarded hguarded hscheduler he hf
  have hX : ∀ t ∈ L.taskList g, (X t + if event.event t = .executed then 1 else 0) =
      X t + if a.event t = .executed then 1 else 0 :=
    fun t ht => by rw [hlabels.events t ht]
  have hC : ∀ t ∈ L.taskList g, r.taskResets t + event.calls t = r'.taskResets t :=
    fun t ht => by rw [htaskResets, bump_apply, hlabels.calls t ht]
  have hr : r'.resets g = r.resets g + event.begun := by rw [hresets, bump_apply, hlabels.begins]
  refine ⟨fun t ht => System.placed_step (h.placed t ht) hsystem,
    System.aligned_step hJ h.aligned hsystem, hguarded,
    fun t ht => System.local_step (h.placed t ht) (h.atHome t ht) hsystem, hscheduler,
    ⟨q', hshows', ?_, ?_⟩, ?_⟩
  · rw [hr]
    exact (hordered.step hJ.nodup hq').congr hX hC
  · rw [hr]
    exact (halone.step hordered hserial hserial' hq').congr hX
  · intro t ht
    have hnew : (r'.system.groupView L g).Tallied (L.taskList g) n k
        (fun u i => N u i + if event.event u = .notified i then 1 else 0)
        (fun u => r.taskResets u + event.calls u) (fun u i => u ∈ L.taskList g ∧ fits' u i) := by
      apply h.tallied.step hk hshows hordered (fun hpos => (hbegun hpos).1) hstep
      intro u i hf
      obtain ⟨hold, hnow⟩ := hfits u i hf.2
      refine ⟨hold, fun hevent => ?_⟩
      rw [← hlabels.events u hf.1] at hevent
      exact hnow hevent
    have ht' := hnew t ht
    simp only [hC t ht, ← hlabels.events t ht] at ht'
    exact ht'.mono fun i hf => ⟨ht, hf⟩

private theorem Served.reset_idle (h : r.Served L g scheduler n k X N fits) {e : ε} {t : τ}
    (he : r.system.executor e = .resetting t .finish []) (ht : L.group t = some g)
    (hs : Step L r (.reset e) r') (f : ε) : (r'.system.groupView L g).executor f = none := by
  have hsystem := (step_iff.mp hs).1
  simp only [System.Step, System.step, he, Option.some.injEq] at hsystem
  have hin : (r.system.groupView L g).executor e ≠ none := by
    simp [System.groupView, he, ExecutePc.inGroup, ht]
  rw [← hsystem]
  by_cases hfe : f = e
  · simp [System.groupView, System.setExecutor, hfe, ExecutePc.resetMembers, ExecutePc.inGroup]
  · by_contra hf
    have hbefore : (r.system.groupView L g).executor f ≠ none := by
      simpa [System.groupView, System.setExecutor, hfe] using hf
    exact hfe (serial_of_guarded h.guarded h.scheduler hbefore hin)

private theorem Served.just_reset (h : r.Served L g scheduler n k X N fits) {e : ε} {t : τ}
    (he : r.system.executor e = .resetting t .finish []) (ht : L.group t = some g)
    (hs : Step L r (.reset e) r') (h' : r'.Served L g scheduler n k X N fits) :
    ∀ u ∈ L.taskList g, X u = r'.resets g ∧ r'.taskResets u = r'.resets g ∧ ∀ i < n u, ∃ x,
      (r'.system.task u).inputs.inputs[i]? = some x ∧
      (∃ lost, x.notifications + x.missedNotifications + k u i * X u + 2 ^ 32 * lost = N u i) ∧
      (fits u i → x.notifications + x.missedNotifications + k u i * X u = N u i) := by
  intro u hu
  obtain ⟨q, hshows, _, halone⟩ := h.round
  obtain ⟨q', hshows', hordered', _⟩ := h'.round
  have hidle := h.reset_idle he ht hs
  have hX : X u = r.resets g := by
    apply halone.even e t [] _ u hu
    rw [← hshows.executor]
    simp [System.groupView, he, ExecutePc.inGroup, ht]
  have hr : r'.resets g = r.resets g := by
    rw [(step_iff.mp hs).2.1, bump_apply]
    simp [System.beginsReset]
  rw [← hr] at hX
  cases hordered'.inRound with
  | @resetting f _ _ _ _ hf =>
      rw [← hshows'.executor, hidle f] at hf
      simp at hf
  | collecting _ hmember _ =>
      obtain ⟨hcurrent, hC⟩ := hmember u hu
      have hfresh : q'.standing u = .fresh := by
        rcases hcurrent with ⟨_, hst⟩ | ⟨hnext, _⟩
        · exact hst
        · omega
      have hst := hshows'.member u hu
      rw [hfresh] at hst
      refine ⟨hX, hC, fun i hi => ?_⟩
      have hheld := (h'.tallied u hu).held hst hi
      rw [hC, ← hX] at hheld
      exact hheld

section Runs

variable {maxTasks : γ → Nat} {joins : List (γ × τ)} {inputs : τ → InputArray}
  {schedulers : List σ} {acts : List (SystemAction τ ε ν)}

private theorem run_served (hJ : L.Joined g)
    (hone : ∀ t ∈ L.taskList g, L.associatedScheduler t = scheduler)
    (hk : ∀ t ∈ L.taskList g, ∀ i < n t, 0 < k t i ∧ k t i < 2 ^ 32)
    (hinputs : ∀ t ∈ L.taskList g, inputs t = .configured (n t) (k t))
    (hstart : scheduler ∈ schedulers)
    (hrun : Run (Step L) (started L inputs schedulers) acts r) :
    r.Served L g scheduler n k (fun t => System.executions t acts)
      (fun t i => System.notifications t i acts)
      fun t i => Along (Step L) (started L inputs schedulers) (fun r a => r.Fits t i a) acts := by
  induction hrun with
  | start =>
      have hunnotified : ∀ t ∈ L.taskList g,
          (System.started L inputs schedulers : System τ σ ε γ ν).Unnotified t
            ⟨.wait, .synchronous (n t) (k t) fun _ => 0⟩ ∧
          (System.started L inputs schedulers : System τ σ ε γ ν).running
            (L.associatedScheduler t) = true := by
        intro t ht
        apply System.started_unnotified (fun i hi => (hk t ht i hi).1) (hinputs t ht)
        rw [hone t ht]
        exact hstart
      have hready : ∀ t ∈ L.taskList g,
          (System.started L inputs schedulers : System τ σ ε γ ν).Ready L t := by
        intro t ht
        obtain ⟨hun, hrunning⟩ := hunnotified t ht
        refine ⟨hun.placed hrunning, ?_, hun.executor⟩
        rw [hun.view]
        exact .waiting
      obtain ⟨haligned, hshows⟩ := shows_start hready hJ
      obtain ⟨t₀, ht₀⟩ := List.exists_mem_of_ne_nil _ hJ.nonempty
      have hidle := (hready t₀ ht₀).executor
      refine ⟨fun t ht => (hready t ht).placed, haligned, ?_, ?_, ?_, ⟨_, hshows, ?_, ?_⟩, ?_⟩
      · intro e he
        simp [started, hidle e, ExecutePc.holdsMutex] at he
      · intro t _ e he
        simp [started, hidle e] at he
      · intro e he
        rw [show (started L inputs schedulers : Rounds τ σ ε γ ν).system =
          System.started L inputs schedulers from rfl, hshows.executor] at he
        exact absurd rfl he
      · exact Round.ordered_start hJ.nonempty (fun _ _ => rfl) fun _ _ => rfl
      · exact ⟨by simp, by simp⟩
      · intro t ht
        have hview : ((System.started L inputs schedulers : System τ σ ε γ ν).groupView L g).member t =
            ⟨⟨.wait, .synchronous (n t) (k t) fun _ => 0⟩, 0, nobody, fun _ => none⟩ :=
          (hunnotified t ht).1.view
        refine ⟨fun _ => 0, 0, ?_, Or.inl ⟨rfl, ?_⟩, fun i _ => ⟨⟨0, rfl⟩, fun _ => rfl⟩⟩
        · show Holds (n t) (k t) (fun _ => 0) 0
            (((System.started L inputs schedulers : System τ σ ε γ ν).groupView L g).member t)
          rw [hview]
          exact .waiting ⟨fun _ => 0, rfl, by simp⟩
        · have hst := hshows.member t ht
          show ¬ (((System.started L inputs schedulers : System τ σ ε γ ν).groupView L g).member
            t).Resets
          rw [hst.resets_iff]
          simp
  | @next acts r a r' hrun hs ih =>
      simp only [System.executions_snoc, System.notifications_snoc]
      apply ih.step hJ hone hk hs
      intro t i hfits
      obtain ⟨hold, hnow⟩ := along_snoc.mp hfits
      exact ⟨hold, hnow r hrun⟩

/-- Notifications of the tasks' inputs may come in any order with the steps of the executors. An input
loses notifications only when its counter of missed ones wraps. -/
theorem run_groupRounds (hjoins : L.Joins maxTasks joins) (hg : Groups.Filled maxTasks joins g)
    (hone : ∀ t ∈ Groups.joinedTo g joins, L.associatedScheduler t = scheduler)
    (hk : ∀ t ∈ Groups.joinedTo g joins, ∀ i < n t, 0 < k t i ∧ k t i < 2 ^ 32)
    (hinputs : ∀ t ∈ Groups.joinedTo g joins, inputs t = .configured (n t) (k t))
    (hstart : scheduler ∈ schedulers)
    (hrun : Run (Step L) (started L inputs schedulers) acts r) :
    (∀ t ∈ Groups.joinedTo g joins,
        r.resets g ≤ System.executions t acts ∧ System.executions t acts ≤ r.resets g + 1) ∧
      (∀ t ∈ Groups.joinedTo g joins, ∀ u ∈ Groups.joinedTo g joins,
        System.executions t acts ≤ System.executions u acts + 1) ∧
      (∀ a r', Step L r a r' → r'.resets g ≠ r.resets g →
        ∀ t ∈ Groups.joinedTo g joins, System.executions t acts = r.resets g + 1) ∧
      ((∀ t ∈ Groups.joinedTo g joins, System.executions t acts = r.resets g + 1) →
        r.Closing L g) ∧
      ∀ e t r', r.system.executor e = .resetting t .finish [] → L.group t = some g →
        Step L r (.reset e) r' → ∀ u ∈ Groups.joinedTo g joins,
          System.executions u acts = r'.resets g ∧ r'.taskResets u = r'.resets g ∧
            ∀ i < n u, ∃ x, (r'.system.task u).inputs.inputs[i]? = some x ∧
              (∃ lost, x.notifications + x.missedNotifications + k u i * System.executions u acts +
                2 ^ 32 * lost = System.notifications u i acts) ∧
              (Along (Step L) (started L inputs schedulers) (fun r a => r.Fits u i a) acts →
                x.notifications + x.missedNotifications + k u i * System.executions u acts =
                  System.notifications u i acts) := by
  have hJ := hjoins.joined hg
  rw [← hjoins.taskList_filled hg] at hone hk hinputs ⊢
  have hserved := run_served hJ hone hk hinputs hstart hrun
  have hbounds : ∀ t ∈ L.taskList g,
      r.resets g ≤ System.executions t acts ∧ System.executions t acts ≤ r.resets g + 1 := by
    intro t ht
    have h := hserved.inRound.bounds ht
    exact ⟨h.1, h.2.1⟩
  refine ⟨hbounds, ?_, ?_, hserved.inRound.closing, ?_⟩
  · intro t ht u hu
    have htop := (hbounds t ht).2
    have hlow := (hbounds u hu).1
    omega
  · intro a r' hs hne t ht
    have hserved' := run_served hJ hone hk hinputs hstart (hrun.next hs)
    have hresets : r'.resets g = r.resets g + 1 := by
      rw [(step_iff.mp hs).2.1, bump_apply] at hne ⊢
      by_cases hbegins : r.system.beginsReset a = some g
      · rw [if_pos hbegins]
      · simp [hbegins] at hne
    have hlow := (hserved'.inRound.bounds ht).1
    have hquiet : a.event t ≠ .executed := event_of_resets_ne hs hne t
    rw [hresets, System.executions_snoc, if_neg hquiet] at hlow
    have htop := (hbounds t ht).2
    omega
  · intro e t r' he ht hs
    have hserved' := hserved.step hJ hone hk hs fun u i hfits => ⟨hfits, fun hevent => by
      simp [SystemAction.event] at hevent⟩
    simp only [SystemAction.event, reduceCtorEq, if_false, Nat.add_zero] at hserved'
    exact hserved.just_reset he ht hs hserved'

end Runs

end Rounds

end System

/-- A group of two tasks of one scheduler, which has two executors. -/
def Layout.duo : Layout Bool Unit Bool Unit where
  associatedScheduler _ := ()
  associatedTasks _ := [false, true]
  mem_associatedTasks := by simp
  scheduler _ := ()
  group _ := some ()
  taskList _ := [false, true]

private theorem Layout.duo_joins : Layout.duo.Joins (fun _ => 2) [((), false), ((), true)] := by
  refine ⟨?_, fun _ => rfl⟩
  funext t
  cases t <;> rfl

/-- A group of a single task. -/
def Layout.alone : Layout Unit Unit Unit Unit :=
  { Layout.single with
    group := fun _ => some ()
    taskList := fun _ => [()] }

namespace Rounds

/-- The first task is notified again while it is executed. -/
theorem run_groupRounds_duo :
    ∃ (acts : List (SystemAction Bool Bool Unit)) (r r' : Rounds Bool Unit Bool Unit Unit),
      Run (Step .duo) (started .duo (fun _ => .configured 1 fun _ => 1) [()]) acts r ∧
        Step .duo r (.reset true) r' ∧ r'.resets () = 1 ∧ System.notifications false 0 acts = 2 ∧
        ∀ t ∈ Groups.joinedTo () [((), false), ((), true)], System.executions t acts = 1 := by
  have hrun : ∃ r, Run (Step .duo)
      (started .duo (fun _ => .configured 1 fun _ => 1) [()] : Rounds Bool Unit Bool Unit Unit)
      [.notify () false 0, .check (), .activate (), .notify () true 0, .check (), .activate (),
        .nextTask false false, .nextTask true true, .synchronizeStart false, .synchronizeStart true,
        .notify () false 0, .executed false false, .finish false, .isExecuted false,
        .isExecuted false, .leave false, .executed true true, .finish true, .isExecuted true,
        .isExecuted true, .isExecuted true, .reset true, .reset true, .reset true, .reset true,
        .reset true, .reset true] r ∧ r.system.executor true = .resetting true .finish [] ∧
        ∃ r', Step .duo r (.reset true) r' ∧ r'.resets () = 1 :=
    ⟨_, run_foldlM.mpr rfl, rfl, _, rfl, rfl⟩
  obtain ⟨r, hrun, he, r', hs, hresets⟩ := hrun
  have hg : Groups.Filled (fun _ => 2) [((), false), ((), true)] () :=
    ⟨by decide, by decide, by decide⟩
  have hrounds := run_groupRounds Layout.duo_joins hg (by decide) (n := fun _ => 1)
    (k := fun _ _ => 1) (by decide) (fun _ _ => rfl) List.mem_cons_self hrun
  have hreset := hrounds.2.2.2.2 true true r' he rfl hs
  refine ⟨_, r, r', hrun, hs, hresets, rfl, fun t ht => ?_⟩
  rw [(hreset t ht).1, hresets]

/-- The task of the group waits in the run queue, and its input has missed notifications. -/
def queuedWith (missed : Nat) : Rounds Unit Unit Unit Unit Unit where
  system :=
    { task := fun _ => ⟨.run, ⟨[{ Input.synchronous 1 1 with missedNotifications := missed }], none⟩⟩
      running := fun _ => true
      runQueue := fun _ => [()]
      synchronizationMutex := fun _ => none
      executor := fun _ => .idle
      notifier := fun _ => .idle }
  resets := fun _ => 0
  taskResets := fun _ => 0

private theorem step_queuedWith (m : Nat) :
    Step .alone (queuedWith m) (.notify () () 0) (queuedWith ((m + 1) % 2 ^ 32)) := rfl

private theorem run_queuedWith (m : Nat) :
    Run (Step .alone) (queuedWith 0) (List.replicate m (.notify () () 0))
      (queuedWith (m % 2 ^ 32)) := by
  induction m with
  | zero => exact .start
  | succ m ih =>
      have hstep := step_queuedWith (m % 2 ^ 32)
      rw [Nat.mod_add_mod] at hstep
      rw [List.replicate_succ']
      exact ih.next hstep

/-- Many notifications between the activation of a task and its execution. -/
private def missing (m : Nat) : List (SystemAction Unit Unit Unit) :=
  [.notify () () 0, .check (), .activate ()] ++ List.replicate m (.notify () () 0) ++
    [.nextTask () (), .synchronizeStart (), .executed () (), .finish (), .isExecuted (),
      .isExecuted (), .reset (), .reset (), .reset ()]

private theorem executions_missing (m : Nat) : System.executions () (missing m) = 1 := by
  simp [missing, System.executions, List.countP_replicate, SystemAction.event]

private theorem notifications_missing (m : Nat) : System.notifications () 0 (missing m) = m + 1 := by
  simp [missing, System.notifications, List.countP_replicate, SystemAction.event]

/-- After `2 ^ 32` notifications of a task that waits for its execution, its input has forgotten all of
them: the group is reset, and nothing is left of the notifications that the execution has not used. -/
theorem missed_wraps :
    ∃ (acts : List (SystemAction Unit Unit Unit)) (r : Rounds Unit Unit Unit Unit Unit) (x : Input),
      Run (Step .alone) (started .alone (fun _ => .configured 1 fun _ => 1) [()]) acts r ∧
        r.resets () = 1 ∧ r.taskResets () = 1 ∧ r.system.executor () = .leaving ∧
        System.executions () acts = 1 ∧ System.notifications () 0 acts = 2 ^ 32 + 1 ∧
        (r.system.task ()).inputs.inputs[0]? = some x ∧
        x.notifications + x.missedNotifications = 0 := by
  have hfirst : Run (Step .alone) (started .alone (fun _ => .configured 1 fun _ => 1) [()])
      [.notify () () 0, .check (), .activate ()] (queuedWith 0) := run_foldlM.mpr rfl
  have hmissed := run_queuedWith (2 ^ 32)
  rw [Nat.mod_self] at hmissed
  have hround : ∃ r, Run (Step .alone) (queuedWith 0)
      [.nextTask () (), .synchronizeStart (), .executed () (), .finish (), .isExecuted (),
        .isExecuted (), .reset (), .reset (), .reset ()] r ∧ r.resets () = 1 ∧ r.taskResets () = 1 ∧
        r.system.executor () = .leaving ∧ ∃ x, (r.system.task ()).inputs.inputs[0]? = some x ∧
        x.notifications + x.missedNotifications = 0 :=
    ⟨_, run_foldlM.mpr rfl, rfl, rfl, rfl, _, rfl, rfl⟩
  obtain ⟨r, hround, hresets, htaskResets, he, x, hx, hheld⟩ := hround
  exact ⟨missing (2 ^ 32), r, x, (hfirst.append hmissed).append hround, hresets, htaskResets, he,
    executions_missing _, notifications_missing _, hx, hheld⟩

end Rounds

end TaskingFramework
