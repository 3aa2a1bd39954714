import TaskingFramework.Assembly.Timely
import TaskingFramework.Foundation.Rest

/-!
# Tasks on schedule

Each handling of an event reaches each input of its list once. So whenever the threads have nothing
left to do, a task has been executed as often as the plans of its events and the thresholds of its
inputs say, whatever the threads did in between.
-/

set_option linter.unusedSectionVars false

namespace TaskingFramework

open Foundation

section Left

variable {η τ : Type} [DecidableEq τ]

/-- The notifications of the input that the thread still has to do. -/
def HandlerPc.left (x : τ × Nat) : HandlerPc η τ → Nat
  | .pushing inputs => inputs.count x
  | .idle | .handling _ => 0

variable {x : τ × Nat}

@[simp] theorem left_idle : (HandlerPc.idle : HandlerPc η τ).left x = 0 := rfl

@[simp] theorem left_handling (e : η) : (HandlerPc.handling e : HandlerPc η τ).left x = 0 := rfl

@[simp] theorem left_pushing (inputs : List (τ × Nat)) :
    (HandlerPc.pushing inputs : HandlerPc η τ).left x = inputs.count x := rfl

end Left

namespace Assembly

open Planned

variable {η π θ τ σ ε γ ν : Type} [DecidableEq η] [DecidableEq π] [DecidableEq θ] [DecidableEq τ]
  [DecidableEq σ] [DecidableEq ε] [DecidableEq γ] [DecidableEq ν]
  {L : Layout τ σ ε γ} {associated : η → List (τ × Nat)} {s s' : Assembly η π θ τ σ ε γ ν}
  {action : AssemblyAction η τ ε ν} {acts : List (AssemblyAction η τ ε ν)} {q r : List η} {e : η}
  {v : ν} {t : τ} {i : Nat}

/-- The notifications of input `i` of the task that the actions have made. -/
def notified (t : τ) (i : Nat) (acts : List (AssemblyAction η τ ε ν)) : Nat :=
  System.notifications t i (acts.filterMap AssemblyAction.system)

/-- The executions of the task. -/
def executions (t : τ) (acts : List (AssemblyAction η τ ε ν)) : Nat :=
  System.executions t (acts.filterMap AssemblyAction.system)

/-- The input is associated with one event. -/
def SourceOf (associated : η → List (τ × Nat)) (t : τ) (i : Nat) (e : η) : Prop :=
  ∀ f, (associated f).count (t, i) = if f = e then 1 else 0

/-- Whether the action notifies the input. -/
def delivers (t : τ) (i : Nat) : AssemblyAction η τ ε ν → Nat
  | .notify _ u j => if (u, j) = (t, i) then 1 else 0
  | .act a => if a.event t = .notified i then 1 else 0
  | .configure _ | .advance _ | .readFirstPending _ _ | .handle _ _ | .pushed _ => 0

private theorem event_notify {u : τ} {j : Nat} :
    (SystemAction.notify v u j : SystemAction τ ε ν).event t = .notified i ↔ (u, j) = (t, i) := by
  by_cases hu : u = t
  · simp [SystemAction.event, hu]
  · simp [SystemAction.event, hu]

private theorem notified_snoc :
    notified t i (acts ++ [action]) = notified t i acts + delivers t i action := by
  have hsnoc : ∀ a : SystemAction τ ε ν, action.system = some a →
      notified t i (acts ++ [action]) =
        notified t i acts + if a.event t = .notified i then 1 else 0 := by
    intro a ha
    rw [notified, List.filterMap_append, List.filterMap_cons_some ha, List.filterMap_nil,
      System.notifications_snoc]
    rfl
  have hnone : action.system = none → notified t i (acts ++ [action]) = notified t i acts := by
    intro ha
    rw [notified, List.filterMap_append, List.filterMap_cons_none ha, List.filterMap_nil,
      List.append_nil]
    rfl
  cases action with
  | notify v u j =>
      rw [hsnoc _ rfl]
      simp only [event_notify]
      rfl
  | act a => exact hsnoc a rfl
  | configure | advance | readFirstPending | handle | pushed => exact hnone rfl

private theorem step_system (hstep : Step L associated s action s') :
    match action.system with
    | some a => s.system.Step L a s'.system
    | none => s.system = s'.system := by
  cases hstep with
  | configure | advance | readFirstPending | handle | pushed => rfl
  | notify _ hsystem => exact hsystem
  | act _ hsystem => exact hsystem

private theorem run_system {s₀ : Assembly η π θ τ σ ε γ ν} (h : Run (Step L associated) s₀ acts s) :
    Run (System.Step L) s₀.system (acts.filterMap AssemblyAction.system) s.system := by
  induction h with
  | start => exact .start
  | @next acts s action s' _ hstep ih =>
      have hsystem := step_system hstep
      rw [List.filterMap_append]
      cases haction : action.system with
      | none =>
          rw [haction] at hsystem
          rw [List.filterMap_cons_none haction, List.filterMap_nil, List.append_nil, ← hsystem]
          exact ih
      | some a =>
          rw [haction] at hsystem
          rw [List.filterMap_cons_some haction, List.filterMap_nil]
          exact ih.next hsystem

variable [Fintype ν]

private theorem left_step (hsource : SourceOf associated t i e) (h : s.Timely q r)
    (hstep : Step L associated s action s') :
    (∑ v, (s'.handler v).left (t, i)) + delivers t i action =
      (∑ v, (s.handler v).left (t, i)) + if handles action = some e then 1 else 0 := by
  have hupdate := fun v pc => sum_update (fun _ pc => HandlerPc.left (t, i) pc) s.handler v pc
  cases hstep with
  | configure | advance => rfl
  | @readFirstPending v f _ hv =>
      have hsum := hupdate v (.handling f)
      rw [hv] at hsum
      exact hsum
  | @handle v f events hv hnext hret =>
      obtain ⟨_, hfire, _⟩ := h.handle associated hv hnext hret
      have hsum := hupdate v (.pushing (associated f))
      rw [hv, left_handling, left_pushing, hsource f] at hsum
      simp only [hfire, if_true, handles, Option.some.injEq]
      exact hsum
  | @notify v u j rest _ hv =>
      have hsum := hupdate v (.pushing rest)
      rw [hv, left_pushing, left_pushing, List.count_cons] at hsum
      simp only [beq_iff_eq] at hsum
      simp only [delivers, setHandler, handles, reduceCtorEq, if_false]
      omega
  | @pushed v hv =>
      have hsum := hupdate v .idle
      rw [hv] at hsum
      exact hsum
  | @act a _ hfree =>
      -- the input belongs to the event
      have hno : a.event t ≠ .notified i := by
        intro hevent
        cases a with
        | notify v u j =>
            have hne := (hfree v u j rfl).2 e
            rw [event_notify.mp hevent] at hne
            have hcount := hsource e
            rw [if_pos rfl, List.count_eq_zero_of_not_mem hne] at hcount
            exact absurd hcount (by decide)
        | executed _ u =>
            by_cases hu : u = t
            · simp [SystemAction.event, hu] at hevent
            · simp [SystemAction.event, hu] at hevent
        | check | activate | nextTask | synchronizeStart | finish | isExecuted | reset | leave =>
            simp [SystemAction.event] at hevent
      simp [delivers, handles, hno]

/-- Every handling of the event notifies the input once, now or later. -/
theorem run_notified {s₀ : Assembly η π θ τ σ ε γ ν} (hsource : SourceOf associated t i e)
    (h₀ : s₀.Timely q r) (hidle : ∀ v, s₀.handler v = .idle) (hzero : s₀.planned.events.handlings e = 0)
    (h : Run (Step L associated) s₀ acts s) :
    (∃ q r, s.Timely q r) ∧
      notified t i acts + ∑ v, (s.handler v).left (t, i) = s.planned.events.handlings e := by
  apply h.invariant_history (I := fun acts s => (∃ q r, s.Timely q r) ∧
    notified t i acts + ∑ v, (s.handler v).left (t, i) = s.planned.events.handlings e)
  · refine ⟨⟨q, r, h₀⟩, ?_⟩
    simp [hidle, hzero, notified, System.notifications]
  · intro acts s action s' hinv hstep
    obtain ⟨⟨q, r, hs⟩, hcount⟩ := hinv
    obtain ⟨htimely, hhandlings⟩ := hs.step hstep
    have hleft := left_step hsource hs hstep
    refine ⟨htimely, ?_⟩
    rw [notified_snoc, hhandlings e]
    omega

/-- In every run, for a task with synchronous inputs that are associated with one configured event
each: when no event is pending and no thread has anything to do for it, the task has been executed
as often as the start times of its events that are over, in bunches of the thresholds of the inputs,
allow, and each input holds the notifications that are left over. -/
theorem run_onSchedule {t₀ n : Nat} {offsetTime : θ → Nat} {inputs : τ → InputArray}
    {schedulers : List σ}
    {k : Nat → Nat} {source : Nat → η} {p : Nat → Plan} (ht : t₀ < 2 ^ 63) (hL : L.Ungrouped t)
    (hn : 0 < n) (hk : ∀ i < n, 0 < k i) (hinputs : inputs t = .configured n k)
    (hstart : L.associatedScheduler t ∈ schedulers)
    (hsource : ∀ i < n, SourceOf associated t i (source i))
    (h : Run (Step L associated) (opened L t₀ offsetTime inputs schedulers) acts s)
    (hplan : ∀ i < n, s.planned.plan (source i) = some (p i))
    (hbound : ∀ i < n, (p i).handlings s.time < 2 ^ 32)
    (hidle : ∀ v, s.handler v = .idle) (hpending : s.planned.events.clock.isPending = false)
    (hquiet : s.system.Quiet L t) :
    IsLeast {x | ∃ i < n, x = (p i).handlings s.time / k i} (executions t acts) ∧
      ∀ i < n, ∃ x, (s.system.task t).inputs.inputs[i]? = some x ∧
        x.notifications + x.missedNotifications + k i * executions t acts = (p i).handlings s.time := by
  have hnotified : ∀ i < n, notified t i acts = (p i).handlings s.time := by
    intro i hi
    obtain ⟨⟨q, r, hs⟩, hcount⟩ := run_notified (hsource i hi) (timely_opened ht) (fun _ => rfl) rfl h
    have hsettled := hs.settled (fun v e hv => by simp [hidle] at hv) hpending (hplan i hi)
    simp only [hidle, left_idle, Finset.sum_const_zero, Nat.add_zero] at hcount
    rw [hcount, hsettled]
  have hN : ∀ i < n, System.notifications t i (acts.filterMap AssemblyAction.system) < 2 ^ 32 :=
    fun i hi => lt_of_eq_of_lt (hnotified i hi) (hbound i hi)
  obtain ⟨_, hphase⟩ := System.run_phase hL hn hk hinputs hstart (run_system h) hN
  obtain ⟨hcounted, hnot⟩ :=
    hphase.quiet (List.count_eq_zero_of_not_mem hquiet.queue) hquiet.stage hquiet.notice
  have hheld : ∀ i < n, ∃ x, (s.system.task t).inputs.inputs[i]? = some x ∧
      x.notifications + x.missedNotifications + k i * executions t acts = (p i).handlings s.time := by
    intro i hi
    have hlen : i < (s.system.task t).inputs.inputs.length := lt_of_lt_of_eq hi hcounted.length.symm
    have hx := List.getElem?_eq_getElem hlen
    obtain ⟨_, m, hsync, hm⟩ := hcounted.getElem? hx
    refine ⟨_, hx, ?_⟩
    rw [hsync, Input.notifications_add_missed, ← hnotified i hi]
    exact hm
  refine ⟨?_, hheld⟩
  have hset : {x | ∃ i < n, x = (p i).handlings s.time / k i} =
      {x | ∃ i < n, x = notified t i acts / k i} := by
    ext x
    constructor
    · rintro ⟨i, hi, rfl⟩
      exact ⟨i, hi, by rw [hnotified i hi]⟩
    · rintro ⟨i, hi, rfl⟩
      exact ⟨i, hi, by rw [hnotified i hi]⟩
  rw [hset]
  apply isLeast_bunches hk _ hnot
  intro i hi
  obtain ⟨x, _, hx⟩ := hheld i hi
  rw [← hnotified i hi] at hx
  exact le_trans (Nat.le_add_left _ _) (le_of_eq hx)

omit [Fintype ν] in
/-- Threads that do not touch the inputs of the events leave the rest alone. -/
theorem run_act {l : List (SystemAction τ ε ν)} {system : System τ σ ε γ ν}
    (h : Run (System.Step L) s.system l system) (hfree : ∀ a ∈ l, ∀ v t i, a ≠ .notify v t i) :
    Run (Step L associated) s (l.map .act) { s with system := system } := by
  induction h with
  | start => exact .start
  | @next l system a system' _ hstep ih =>
      rw [List.map_append]
      have hno := hfree a (List.mem_append_right _ List.mem_cons_self)
      have hbefore := ih fun b hb => hfree b (List.mem_append_left _ hb)
      exact hbefore.next (.act (fun v t i ha => absurd ha (hno v t i)) hstep)

/-- An event at 5, 15, .. is handled once at 5, and its task is executed once. -/
theorem run_onSchedule_once : ∃ (acts : List (AssemblyAction Unit Unit Unit Unit))
    (s : Assembly Unit Unit Unit Unit Unit Unit Unit Unit),
    Run (Step .single fun _ => [((), 0)])
      (opened .single 0 (fun _ => 0) (fun _ => .configured 1 fun _ => 1) [()]) acts s ∧
    s.time = 5 ∧ s.planned.plan () = some (.periodic 0 10 5) ∧ executions () acts = 1 ∧
    IsLeast {x | ∃ i < 1, x = (Plan.periodic 0 10 5).handlings s.time / 1} (executions () acts) := by
  let s₀ : Assembly Unit Unit Unit Unit Unit Unit Unit Unit :=
    opened .single 0 (fun _ => 0) (fun _ => .configured 1 fun _ => 1) [()]
  -- the event is configured, and time goes on
  obtain ⟨events₁, q₁, hret₁, hevent₁, hrep₁, hperm₁, htime₁, hact₁, _⟩ :=
    setPeriodicTiming_returns (s := s₀.planned.events) (e := ()) 10 5 (Clock.represents_empty 0)
      List.not_mem_nil (by decide) (by decide) (by decide)
  obtain rfl : q₁ = [()] := List.perm_singleton.mp hperm₁
  have hzero : events₁.clock.time = 0 := htime₁
  let clock₁ : Clock Unit := { events₁.clock with time := events₁.clock.time + 5 }
  have hnow₁ : clock₁.time = 5 := congrArg (· + 5) hzero
  have hstart : clock₁.nextActivation_ms () = 5 := (congrFun hact₁ ()).trans rfl
  -- it is read and handled
  obtain ⟨clock₂, hret₂, hrep₂, htime₂, hact₂, _⟩ :=
    Clock.readFirstPending_due (s := clock₁) (hrep₁.advance (Nat.le_add_right _ 5))
      (by rw [hstart, hnow₁])
  have hnow₂ : clock₂.time = 5 := htime₂.trans hnow₁
  have hstart₂ : clock₂.nextActivation_ms () = 5 := (congrFun hact₂ ()).trans hstart
  have hconfig : events₁.event () = ⟨true, true, 10, none⟩ := (congrFun hevent₁ ()).trans rfl
  have hperiod : (events₁.event ()).period_ms = 10 := congrArg EventImpl.period_ms hconfig
  have hnext : clock₂.nextActivation_ms () + (events₁.event ()).period_ms = 15 := by
    rw [hstart₂, hperiod]
  have hlt : clock₂.nextActivation_ms () + (events₁.event ()).period_ms < 2 ^ 63 := by
    rw [hnext]
    decide
  obtain ⟨events₃, q₃, hret₃, hevent₃, hrep₃, hperm₃, htime₃, hact₃, _⟩ :=
    Events.handle_periodical (s := { events₁ with clock := clock₂ }) (e := ()) hrep₂ List.not_mem_nil
      (by rw [hconfig]) (by rw [hconfig]) (by rw [hnow₂]; decide) hlt
  obtain rfl : q₃ = [()] := List.perm_singleton.mp hperm₃
  have hnow₃ : events₃.clock.time = 5 := htime₃.trans hnow₂
  have hstart₃ : events₃.clock.nextActivation_ms () = 15 := (congrFun hact₃ ()).trans hnext
  have hfire : events₃.shallFire () = true := shallFire_of_unscheduled (by rw [hevent₃, hconfig])
  have hpending : events₃.clock.isPending = false := by
    have hhead : events₃.clock.queueHead = some () := Chain.head hrep₃.chain
    rw [Clock.isPending, hhead]
    simp only [hstart₃, hnow₃]
    decide
  have hspan : events₁.clock.time + 5 < 2 ^ 63 := by
    rw [hzero]
    decide
  have hhandled : Run (Step .single fun _ => [((), 0)]) s₀ _ _ :=
    (((Run.start.next
      (.configure (c := .setPeriodicTiming () 10 5) (fun _ => by simp)
        ⟨⟨rfl, by decide, by decide⟩, hret₁.bind (returns_ok _)⟩)).next
      (.advance hspan)).next (.readFirstPending (v := ()) rfl rfl hret₂)).next
        (.handle (v := ()) rfl (fun _ => hlt) hret₃)
  rw [if_pos hfire] at hhandled
  -- the task is notified and executed
  have hnotified := hhandled.next (.notify (v := ()) rfl rfl)
  let l : List (SystemAction Unit Unit Unit) :=
    [.check (), .activate (), .nextTask () (), .synchronizeStart (),
    .executed () (), .reset (), .reset (), .reset (), .leave ()]
  have hexecuted := hnotified.append
    (run_act (L := .single) (l := l) (run_foldlM.mpr rfl) (by simp [l]))
  have hpushed := hexecuted.next (.pushed (v := ()) rfl rfl)
  have hsource : ∀ i < 1, SourceOf (fun _ : Unit => [((), 0)]) () i () := by
    intro i hi f
    obtain rfl : i = 0 := by omega
    simp
  have hone : (Plan.periodic 0 10 5).handlings events₃.clock.time < 2 ^ 32 := by
    rw [hnow₃]
    decide
  have hmin := run_onSchedule (t := ()) (n := 1) (k := fun _ => 1) (p := fun _ => .periodic 0 10 5)
    (by decide)
    ⟨rfl, by simp [Layout.single]⟩ (by decide) (by decide) rfl List.mem_cons_self hsource hpushed
      (fun _ _ => rfl)
    (fun _ _ => hone) (fun _ => rfl) hpending
    ⟨fun _ => rfl, fun _ => rfl, List.not_mem_nil⟩
  exact ⟨_, _, hpushed, hnow₃, rfl, rfl, hmin.1⟩

end Assembly

end TaskingFramework
