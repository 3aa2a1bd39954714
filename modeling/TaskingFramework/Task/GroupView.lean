import TaskingFramework.Task.Group
import TaskingFramework.Task.Standing

/-!
# One group of the system

What the threads do to the members of a group, and what the executors do for it. Every step of the
system is a step of this view.
-/

set_option linter.unusedSectionVars false

namespace TaskingFramework

inductive GroupPc (τ : Type*) where
  | finishing (task : τ)
  | checking (members : List τ)
  | resetting (task : τ) (members : List τ)
  deriving DecidableEq

structure GroupView (τ ε ν : Type*) where
  member : τ → TaskView ε ν
  executor : ε → Option (GroupPc τ)

/-- What counts in the history of the group. -/
inductive GroupEvent (τ : Type*) where
  | own (events : τ → TaskEvent) -- steps of the members' views
  | silent
  | executed (task : τ)
  | begins (task : τ)            -- the group begins its reset with this member
  | resets (task : τ)

namespace GroupEvent

variable {τ : Type*} [DecidableEq τ]

def event : GroupEvent τ → τ → TaskEvent
  | .own events, t => events t
  | .executed u, t => if u = t then .executed else .silent
  | .silent, _ | .begins _, _ | .resets _, _ => .silent

/-- Resets of the group that begin. -/
def begun : GroupEvent τ → Nat
  | .begins _ => 1
  | .own _ | .silent | .executed _ | .resets _ => 0

/-- Calls of `Task::reset` for the member. -/
def calls : GroupEvent τ → τ → Nat
  | .begins u, t | .resets u, t => if u = t then 1 else 0
  | .own _, _ | .silent, _ | .executed _, _ => 0

end GroupEvent

section View

variable {τ ε ν : Type*} [DecidableEq τ] [DecidableEq ε] [DecidableEq ν]

/-- The group has the members `M`. -/
inductive GroupView.Step (M : List τ) (v : GroupView τ ε ν) :
    GroupEvent τ → GroupView τ ε ν → Prop where
  | own {events : τ → TaskEvent} {w : GroupView τ ε ν}
      (hmember : ∀ t ∈ M, (v.member t).Step (events t) (w.member t) ∧ events t ≠ .executed ∧
        ∀ e, (v.member t).stage e ≠ none → (w.member t).stage e ≠ none)
      (hexecutor : w.executor = v.executor) : Step M v (.own events) w
  | executed {e : ε} {t : τ} (ht : t ∈ M) (he : (v.member t).stage e = some .executing)
      (hfree : v.executor e = none) :
      Step M v (.executed t) ⟨Function.update v.member t ((v.member t).setStage e none),
        Function.update v.executor e (some (.finishing t))⟩
  | finish {e : ε} {t : τ} (he : v.executor e = some (.finishing t)) :
      Step M v .silent
        ⟨Function.update v.member t
          ((v.member t).put ({ (v.member t).task with state := .finish }, false)),
        Function.update v.executor e (some (.checking M))⟩
  | isExecuted {e : ε} {t : τ} {rest : List τ} (he : v.executor e = some (.checking (t :: rest))) :
      Step M v .silent ⟨v.member, Function.update v.executor e
        (if (v.member t).task.isExecuted then some (.checking rest) else none)⟩
  | begins {e : ε} {t : τ} {rest : List τ} (he : v.executor e = some (.checking []))
      (hM : M = t :: rest) :
      Step M v (.begins t)
        ⟨Function.update v.member t ((v.member t).setStage e (some (.resetting .enter))),
        Function.update v.executor e (some (.resetting t rest))⟩
  | next {e : ε} {t u : τ} {rest : List τ} (he : v.executor e = some (.resetting t (u :: rest)))
      (hne : u ≠ t) (hstage : (v.member t).stage e = some (.resetting .finish)) :
      Step M v (.resets u)
        ⟨Function.update
          (Function.update v.member t (((v.member t).put (v.member t).task.resetFinish).setStage e
            none))
          u ((v.member u).setStage e (some (.resetting .enter))),
        Function.update v.executor e (some (.resetting u rest))⟩
  | last {e : ε} {t : τ} (he : v.executor e = some (.resetting t []))
      (hstage : (v.member t).stage e = some (.resetting .finish)) :
      Step M v .silent
        ⟨Function.update v.member t (((v.member t).put (v.member t).task.resetFinish).setStage e none),
        Function.update v.executor e none⟩

end View

section Projection

variable {τ σ ε γ ν : Type*} [DecidableEq τ] [DecidableEq σ] [DecidableEq ε] [DecidableEq γ]
  [DecidableEq ν]

def ExecutePc.inGroup (L : Layout τ σ ε γ) (g : γ) : ExecutePc τ γ → Option (GroupPc τ)
  | .finishing t group => if group = g then some (.finishing t) else none
  | .checking group members => if group = g then some (.checking members) else none
  | .resetting t _ members => if L.group t = some g then some (.resetting t members) else none
  | .idle | .fetched _ | .executing _ | .leaving => none

theorem ExecutePc.inGroup_eq_finishing {L : Layout τ σ ε γ} {g : γ} {pc : ExecutePc τ γ} {t : τ} :
    pc.inGroup L g = some (.finishing t) ↔ pc = .finishing t g := by
  cases pc with
  | finishing u group => by_cases h : group = g <;> simp [inGroup, h]
  | idle | fetched | executing | checking | resetting | leaving => simp [inGroup]

theorem ExecutePc.inGroup_eq_checking {L : Layout τ σ ε γ} {g : γ} {pc : ExecutePc τ γ}
    {members : List τ} : pc.inGroup L g = some (.checking members) ↔ pc = .checking g members := by
  cases pc with
  | checking group us => by_cases h : group = g <;> simp [inGroup, h]
  | idle | fetched | executing | finishing | resetting | leaving => simp [inGroup]

theorem ExecutePc.inGroup_eq_resetting {L : Layout τ σ ε γ} {g : γ} {pc : ExecutePc τ γ} {t : τ}
    {members : List τ} : pc.inGroup L g = some (.resetting t members) ↔
      L.group t = some g ∧ ∃ p, pc = .resetting t p members := by
  cases pc with
  | resetting u p us =>
      constructor
      · intro h
        simp only [inGroup, Option.ite_none_right_eq_some, Option.some.injEq,
          GroupPc.resetting.injEq] at h
        obtain ⟨hu, rfl, rfl⟩ := h
        exact ⟨hu, p, rfl⟩
      · intro h
        obtain ⟨ht, p', hpc⟩ := h
        rw [hpc, inGroup, if_pos ht]
  | idle | fetched | executing | finishing | checking | leaving => simp [inGroup]

namespace System

def groupView (L : Layout τ σ ε γ) (g : γ) (s : System τ σ ε γ ν) : GroupView τ ε ν where
  member t := s.view L t
  executor e := (s.executor e).inGroup L g

/-- The executors reset the members of a group in the order of its list. -/
structure Aligned (L : Layout τ σ ε γ) (g : γ) (s : System τ σ ε γ ν) : Prop where
  finishing : ∀ e t group, s.executor e = .finishing t group → L.group t = some group
  members : ∀ e t pc members, s.executor e = .resetting t pc members → L.group t = some g →
    t :: members <:+ L.taskList g
  others : ∀ e t pc members, s.executor e = .resetting t pc members → L.group t ≠ some g →
    ∀ u ∈ members, L.group u ≠ some g

variable {L : Layout τ σ ε γ} {g : γ} {s s' : System τ σ ε γ ν} {a : SystemAction τ ε ν} {t : τ}
  {e : ε}

private theorem others_of_taskList (hJ : L.Joined g) {group : γ} (hne : group ≠ g) :
    ∀ u ∈ L.taskList group, L.group u ≠ some g :=
  fun u hu hg => hne (hJ.others u ((hJ.group u).mpr hg) group hu)

theorem aligned_step (hJ : L.Joined g) (hs : s.Aligned L g) (h : Step L s a s') :
    s'.Aligned L g := by
  refine ⟨?_, ?_, ?_⟩
  · intro e t group he
    rcases step_executor h e with heq | ⟨_, hnext⟩
    · exact hs.finishing e t group (heq ▸ he)
    · rw [he] at hnext
      exact hnext.before_finishing.2
  · intro e t pc members he hg
    rcases step_executor h e with heq | ⟨_, hnext⟩
    · exact hs.members e t pc members (heq ▸ he) hg
    · rw [he] at hnext
      rcases hnext.before_resetting with ⟨_, hnone, _⟩ | ⟨group, hlist⟩ | ⟨p, hbefore⟩ | ⟨u, hbefore⟩
      · simp [hnone] at hg
      · have ht : t ∈ L.taskList group := hlist ▸ List.mem_cons_self
        have hsame := hJ.others t ((hJ.group t).mpr hg) group ht
        exact hsame ▸ hlist ▸ List.suffix_rfl
      · exact hs.members e t p members hbefore hg
      · by_cases hu : L.group u = some g
        · exact (List.suffix_cons u _).trans (hs.members e _ _ _ hbefore hu)
        · exact absurd hg (hs.others e _ _ _ hbefore hu t List.mem_cons_self)
  · intro e t pc members he hg
    rcases step_executor h e with heq | ⟨_, hnext⟩
    · exact hs.others e t pc members (heq ▸ he) hg
    · rw [he] at hnext
      rcases hnext.before_resetting with ⟨_, _, rfl⟩ | ⟨group, hlist⟩ | ⟨p, hbefore⟩ | ⟨u, hbefore⟩
      · exact fun u hu => absurd hu List.not_mem_nil
      · have hne : group ≠ g := by
          intro heq
          exact hg ((hJ.group t).mp (heq ▸ hlist ▸ List.mem_cons_self))
        intro u hu
        exact others_of_taskList hJ hne u (hlist ▸ List.mem_cons_of_mem t hu)
      · exact hs.others e t p members hbefore hg
      · by_cases hu : L.group u = some g
        · have hsuffix := hs.members e _ _ _ hbefore hu
          exact absurd ((hJ.group t).mp (hsuffix.subset (by simp))) hg
        · exact fun w hw => hs.others e _ _ _ hbefore hu w (List.mem_cons_of_mem t hw)

/-- The counts of a history agree with the event of the group. -/
structure Labels (L : Layout τ σ ε γ) (g : γ) (s s' : System τ σ ε γ ν) (a : SystemAction τ ε ν)
    (event : GroupEvent τ) : Prop where
  events : ∀ t ∈ L.taskList g, a.event t = event.event t
  begins : (if s.beginsReset a = some g then 1 else 0) = event.begun
  calls : ∀ t ∈ L.taskList g, (if s'.callsReset a = some t then 1 else 0) = event.calls t

private theorem step_own (hplaced : ∀ t ∈ L.taskList g, s.Placed L t) (h : Step L s a s')
    (hexecutor : ∀ f, (s'.executor f).inGroup L g = (s.executor f).inGroup L g)
    (hmoved : ∀ t ∈ L.taskList g, Moved L t s s' a → (s.view L t).Step (a.event t) (s'.view L t) ∧
      a.event t ≠ .executed ∧ ∀ e, (s.view L t).stage e ≠ none → (s'.view L t).stage e ≠ none)
    (hbegins : s.beginsReset a ≠ some g)
    (hresets : ∀ t ∈ L.taskList g, s'.callsReset a ≠ some t) :
    ∃ event, (s.groupView L g).Step (L.taskList g) event (s'.groupView L g) ∧
      Labels L g s s' a event := by
  refine ⟨.own fun t => a.event t, .own ?_ (funext hexecutor), fun _ _ => rfl, ?_, ?_⟩
  · exact fun t ht => hmoved t ht (step_moved (hplaced t ht) h)
  · simp [hbegins, GroupEvent.begun]
  · exact fun t ht => by simp [hresets t ht, GroupEvent.calls]

private theorem inGroup_resetMembers {l : List τ} (h : ∀ u ∈ l, L.group u ≠ some g) :
    (ExecutePc.resetMembers l : ExecutePc τ γ).inGroup L g = none := by
  cases l with
  | nil => rfl
  | cons u l => simp [ExecutePc.resetMembers, ExecutePc.inGroup, h u List.mem_cons_self]

private theorem setExecutor_inGroup {r : System τ σ ε γ ν} {pc pc' : ExecutePc τ γ}
    (he : s.executor e = pc) (hr : r.executor = s.executor)
    (hpc : pc'.inGroup L g = pc.inGroup L g) (f : ε) :
    ((r.setExecutor e pc').executor f).inGroup L g = (s.executor f).inGroup L g := by
  by_cases hf : f = e
  · subst f
    simp [setExecutor, he, hpc]
  · simp [setExecutor, hr, hf]

private theorem step_plain (hplaced : ∀ t ∈ L.taskList g, s.Placed L t) (h : Step L s a s')
    (hexecutor : ∀ f, (s'.executor f).inGroup L g = (s.executor f).inGroup L g)
    (hexecuted : ∀ e t, a ≠ .executed e t) (hfinish : ∀ e, a ≠ .finish e)
    (hcheck : ∀ e, a ≠ .isExecuted e) (hreset : ∀ e, a ≠ .reset e) :
    ∃ event, (s.groupView L g).Step (L.taskList g) event (s'.groupView L g) ∧
      Labels L g s s' a event := by
  apply step_own hplaced h hexecutor
  · intro t _ hm
    cases hm with
    | own hstep hevent hstage => exact ⟨hstep, hevent, hstage⟩
    | executed => exact absurd rfl (hexecuted _ _)
    | finish => exact absurd rfl (hfinish _)
    | begins => exact absurd rfl (hcheck _)
    | next | resetFinish => exact absurd rfl (hreset _)
  · cases a with
    | isExecuted e => exact absurd rfl (hcheck e)
    | notify | check | activate | nextTask | synchronizeStart | executed | finish | reset | leave =>
        simp [beginsReset]
  · cases a with
    | isExecuted e => exact absurd rfl (hcheck e)
    | executed e t => exact absurd rfl (hexecuted e t)
    | reset e => exact absurd rfl (hreset e)
    | notify | check | activate | nextTask | synchronizeStart | finish | leave => simp [callsReset]

private theorem groupView_eq {r : System τ σ ε γ ν} {pc : ExecutePc τ γ} {member : τ → TaskView ε ν}
    {groupPc : Option (GroupPc τ)} (hr : r.executor = s.executor)
    (hmember : ∀ u, (r.setExecutor e pc).view L u = member u) (hpc : pc.inGroup L g = groupPc) :
    (r.setExecutor e pc).groupView L g =
      ⟨member, Function.update (s.groupView L g).executor e groupPc⟩ := by
  have hexecutor : ∀ f, ((r.setExecutor e pc).executor f).inGroup L g =
      Function.update (s.groupView L g).executor e groupPc f := by
    intro f
    by_cases hf : f = e
    · subst f
      simp [setExecutor, hpc]
    · simp [setExecutor, hr, hf, groupView]
  exact congrArg₂ GroupView.mk (funext hmember) (funext hexecutor)

private theorem step_executed (hJ : L.Joined g) (hplaced : ∀ t ∈ L.taskList g, s.Placed L t)
    (he : s.executor e = .executing t) (h : Step L s (.executed e t) s')
    (hs' : s' = (s.setMutex (L.scheduler e) (some e)).setExecutor e (L.finalizeExecution t)) :
    ∃ event, (s.groupView L g).Step (L.taskList g) event (s'.groupView L g) ∧
      Labels L g s s' (.executed e t) event := by
  subst s'
  by_cases ht : L.group t = some g
  · have hmem : t ∈ L.taskList g := (hJ.group t).mpr ht
    have hfinalize : L.finalizeExecution t = .finishing t g := by
      simp [Layout.finalizeExecution, ht]
    have hview : ((s.setMutex (L.scheduler e) (some e)).setExecutor e
        (L.finalizeExecution t)).groupView L g =
        ⟨Function.update (s.groupView L g).member t (((s.groupView L g).member t).setStage e none),
          Function.update (s.groupView L g).executor e (some (.finishing t))⟩ := by
      apply groupView_eq rfl
      · intro u
        rw [hfinalize, view_setExecutor, view_setMutex, ExecutePc.stage]
        by_cases hu : u = t
        · subst u
          rw [Function.update_self]
          rfl
        · have hne : ¬ t = u := fun heq => hu heq.symm
          have hn : (s.executor e).stage u = none := by simp [he, ExecutePc.stage, hne]
          rw [Function.update_of_ne hu, setStage_view hn]
          rfl
      · simp [hfinalize, ExecutePc.inGroup]
    refine ⟨.executed t, ?_, ?_, ?_, ?_⟩
    · rw [hview]
      refine .executed hmem ?_ ?_
      · simp [groupView, view, he, ExecutePc.stage]
      · simp [groupView, he, ExecutePc.inGroup]
    · exact fun u _ => rfl
    · simp [beginsReset, GroupEvent.begun]
    · intro u _
      simp [callsReset, setExecutor, hfinalize, GroupEvent.calls]
  · have hnot : ∀ u ∈ L.taskList g, t ≠ u := fun u hu heq => ht (heq ▸ (hJ.group u).mp hu)
    apply step_own hplaced h
    · apply setExecutor_inGroup he rfl
      cases hg : L.group t with
      | none => simp [Layout.finalizeExecution, hg, ExecutePc.inGroup]
      | some g' =>
          rw [hg, Option.some.injEq] at ht
          simp [Layout.finalizeExecution, hg, ExecutePc.inGroup, ht]
    · intro u hu hm
      cases hm with
      | own hstep hevent hstage => exact ⟨hstep, hevent, hstage⟩
      | executed => exact absurd rfl (hnot _ hu)
    · simp [beginsReset]
    · intro u hu
      cases hg : L.group t with
      | none => simp [callsReset, setExecutor, Layout.finalizeExecution, hg, hnot u hu]
      | some g' => simp [callsReset, setExecutor, Layout.finalizeExecution, hg]

private theorem step_finish (hJ : L.Joined g) (hplaced : ∀ t ∈ L.taskList g, s.Placed L t)
    (haligned : s.Aligned L g) {group : γ} (he : s.executor e = .finishing t group)
    (h : Step L s (.finish e) s')
    (hs' : s' = (s.setTask t { s.task t with state := .finish }).setExecutor e
      (.checking group (L.taskList group))) :
    ∃ event, (s.groupView L g).Step (L.taskList g) event (s'.groupView L g) ∧
      Labels L g s s' (.finish e) event := by
  subst s'
  have hlabels : Labels L g s ((s.setTask t { s.task t with state := .finish }).setExecutor e
      (.checking group (L.taskList group))) (.finish e) .silent :=
    ⟨fun _ _ => rfl, by simp [beginsReset, GroupEvent.begun], by simp [callsReset, GroupEvent.calls]⟩
  by_cases hg : group = g
  · subst g
    have hview : ((s.setTask t { s.task t with state := .finish }).setExecutor e
        (.checking group (L.taskList group))).groupView L group =
        ⟨Function.update (s.groupView L group).member t (((s.groupView L group).member t).put
          ({ ((s.groupView L group).member t).task with state := .finish }, false)),
        Function.update (s.groupView L group).executor e (some (.checking (L.taskList group)))⟩ := by
      apply groupView_eq rfl
      · intro u
        have hn : ((s.setTask t { s.task t with state := .finish }).executor e).stage u = none := by
          show (s.executor e).stage u = none
          rw [he, ExecutePc.stage]
        rw [view_setExecutor, ExecutePc.stage, setStage_view hn]
        by_cases hu : u = t
        · subst u
          rw [view_setTask_self, Function.update_self]
          rfl
        · rw [Function.update_of_ne hu, view_setTask_of_ne fun heq => hu heq.symm]
          rfl
      · simp [ExecutePc.inGroup]
    refine ⟨.silent, ?_, hlabels⟩
    rw [hview]
    exact .finish (by simp [groupView, he, ExecutePc.inGroup])
  · apply step_own hplaced h
    · apply setExecutor_inGroup he rfl
      simp [ExecutePc.inGroup, hg]
    · intro u hu hm
      cases hm with
      | own hstep hevent hstage => exact ⟨hstep, hevent, hstage⟩
      | finish he' =>
          rw [he, ExecutePc.finishing.injEq] at he'
          have hu' := haligned.finishing e t group he
          rw [he'.1, (hJ.group u).mp hu] at hu'
          exact absurd (Option.some.inj hu').symm hg
    · simp [beginsReset]
    · simp [callsReset]

private theorem own_of_other_group (hJ : L.Joined g) {group : γ} {members : List τ}
    (hg : group ≠ g) (he : s.executor e = .checking group members) (ht : t ∈ L.taskList g)
    (hm : Moved L t s s' (.isExecuted e)) :
    (s.view L t).Step (SystemAction.event t (.isExecuted e : SystemAction τ ε ν)) (s'.view L t) ∧
      SystemAction.event t (.isExecuted e : SystemAction τ ε ν) ≠ .executed ∧
      ∀ f, (s.view L t).stage f ≠ none → (s'.view L t).stage f ≠ none := by
  cases hm with
  | own hstep hevent hstage => exact ⟨hstep, hevent, hstage⟩
  | begins he' hlist =>
      rw [he, ExecutePc.checking.injEq] at he'
      have hmem : t ∈ L.taskList group := by
        rw [he'.1, hlist]
        exact List.mem_cons_self
      exact absurd (hJ.others t ht group hmem) hg

private theorem step_isExecuted (hJ : L.Joined g) (hplaced : ∀ t ∈ L.taskList g, s.Placed L t)
    {group : γ} {rest : List τ} (he : s.executor e = .checking group (t :: rest))
    (h : Step L s (.isExecuted e) s')
    (hs' : s' = s.setExecutor e (if (s.task t).isExecuted then .checking group rest else .leaving)) :
    ∃ event, (s.groupView L g).Step (L.taskList g) event (s'.groupView L g) ∧
      Labels L g s s' (.isExecuted e) event := by
  subst s'
  by_cases hg : group = g
  · subst g
    have hview : (s.setExecutor e (if (s.task t).isExecuted then .checking group rest
        else .leaving)).groupView L group = ⟨(s.groupView L group).member,
        Function.update (s.groupView L group).executor e
          (if ((s.groupView L group).member t).task.isExecuted then some (.checking rest)
            else none)⟩ := by
      apply groupView_eq rfl
      · intro u
        rw [view_setExecutor]
        apply setStage_view
        cases (s.task t).isExecuted <;> simp [he, ExecutePc.stage]
      · have htask : ((s.groupView L group).member t).task = s.task t := rfl
        rw [htask]
        cases (s.task t).isExecuted <;> simp [ExecutePc.inGroup]
    refine ⟨.silent, ?_, ?_, ?_, ?_⟩
    · rw [hview]
      exact .isExecuted (by simp [groupView, he, ExecutePc.inGroup])
    · exact fun _ _ => rfl
    · simp [beginsReset, he, GroupEvent.begun]
    · cases (s.task t).isExecuted <;> simp [callsReset, setExecutor, GroupEvent.calls]
  · apply step_own hplaced h
    · apply setExecutor_inGroup he rfl
      cases (s.task t).isExecuted <;> simp [ExecutePc.inGroup, hg]
    · exact fun u hu hm => own_of_other_group hJ hg he hu hm
    · simp [beginsReset, he]
    · cases (s.task t).isExecuted <;> simp [callsReset, setExecutor]

private theorem step_areAllExecuted (hJ : L.Joined g)
    (hplaced : ∀ t ∈ L.taskList g, s.Placed L t) {group : γ}
    (he : s.executor e = .checking group []) (h : Step L s (.isExecuted e) s')
    (hs' : s' = s.setExecutor e (.resetMembers (L.taskList group))) :
    ∃ event, (s.groupView L g).Step (L.taskList g) event (s'.groupView L g) ∧
      Labels L g s s' (.isExecuted e) event := by
  subst s'
  by_cases hg : group = g
  · subst g
    cases hl : L.taskList group with
    | nil => exact absurd hl hJ.nonempty
    | cons t rest =>
        have ht : L.group t = some group := (hJ.group t).mp (hl ▸ List.mem_cons_self)
        have hview : (s.setExecutor e (.resetMembers (t :: rest))).groupView L group =
            ⟨Function.update (s.groupView L group).member t
              (((s.groupView L group).member t).setStage e (some (.resetting .enter))),
            Function.update (s.groupView L group).executor e (some (.resetting t rest))⟩ := by
          apply groupView_eq rfl
          · intro u
            rw [view_setExecutor, ExecutePc.resetMembers, ExecutePc.stage]
            by_cases hu : u = t
            · subst u
              rw [Function.update_self, if_pos rfl]
              rfl
            · have hne : ¬ t = u := fun heq => hu heq.symm
              have hn : (s.executor e).stage u = none := by rw [he, ExecutePc.stage]
              rw [Function.update_of_ne hu, if_neg hne, setStage_view hn]
              rfl
          · simp [ExecutePc.resetMembers, ExecutePc.inGroup, ht]
        refine ⟨.begins t, ?_, ?_, ?_, ?_⟩
        · rw [hview]
          exact .begins (by simp [groupView, he, ExecutePc.inGroup]) rfl
        · exact fun _ _ => rfl
        · simp [beginsReset, he, GroupEvent.begun]
        · intro u _
          simp [callsReset, setExecutor, ExecutePc.resetMembers, GroupEvent.calls]
  · have hnot := others_of_taskList hJ hg
    apply step_own hplaced h
    · apply setExecutor_inGroup he rfl
      rw [inGroup_resetMembers hnot]
      simp [ExecutePc.inGroup, hg]
    · exact fun u hu hm => own_of_other_group hJ hg he hu hm
    · simp [beginsReset, he, hg]
    · intro u hu
      cases hl : L.taskList group with
      | nil => simp [callsReset, setExecutor, ExecutePc.resetMembers]
      | cons w rest =>
          have hw := hnot w (hl ▸ List.mem_cons_self)
          have hne : w ≠ u := fun heq => hw (heq ▸ (hJ.group u).mp hu)
          simp [callsReset, setExecutor, ExecutePc.resetMembers, hne]

private theorem step_resetting {r : System τ σ ε γ ν} {pc pc' : ResetPc} {members : List τ}
    (hplaced : ∀ t ∈ L.taskList g, s.Placed L t) (he : s.executor e = .resetting t pc members)
    (hpc : pc ≠ .finish) (hpc' : pc' ≠ .enter) (hr : r.executor = s.executor)
    (h : Step L s (.reset e) (r.setExecutor e (.resetting t pc' members))) :
    ∃ event, (s.groupView L g).Step (L.taskList g) event
        ((r.setExecutor e (.resetting t pc' members)).groupView L g) ∧
      Labels L g s (r.setExecutor e (.resetting t pc' members)) (.reset e) event := by
  apply step_own hplaced h
  · exact setExecutor_inGroup he hr rfl
  · intro u _ hm
    cases hm with
    | own hstep hevent hstage => exact ⟨hstep, hevent, hstage⟩
    | next _ he' =>
        rw [he, ExecutePc.resetting.injEq] at he'
        exact absurd he'.2.1 hpc
    | resetFinish he' =>
        rw [he, ExecutePc.resetting.injEq] at he'
        exact absurd he'.2.1 hpc
  · simp [beginsReset]
  · intro u _
    cases pc' with
    | enter => exact absurd rfl hpc'
    | input | activate | finish => simp [callsReset, setExecutor]

private theorem step_resetMember (hJ : L.Joined g) (hplaced : ∀ t ∈ L.taskList g, s.Placed L t)
    (haligned : s.Aligned L g) {members : List τ} (ht : L.group t = some g)
    (he : s.executor e = .resetting t .finish members)
    (hs' : s' = (s.resetFinish L t).setExecutor e (.resetMembers members)) :
    ∃ event, (s.groupView L g).Step (L.taskList g) event (s'.groupView L g) ∧
      Labels L g s s' (.reset e) event := by
  subst s'
  have hsuffix := haligned.members e t _ members he ht
  have hmem : t ∈ L.taskList g := (hJ.group t).mpr ht
  have hst : ((s.groupView L g).member t).stage e = some (.resetting .finish) := by
    simp [groupView, view, he, ExecutePc.stage]
  have hreset : (s.resetFinish L t).view L t =
      ((s.groupView L g).member t).put ((s.groupView L g).member t).task.resetFinish :=
    view_resetFinish_self (hplaced t hmem).running
  have hothers : ∀ u, t ≠ u →
      ((s.resetFinish L t).view L u).setStage e none = (s.groupView L g).member u := by
    intro u hu
    have hn : (s.executor e).stage u = none := by simp [he, ExecutePc.stage, hu]
    rw [view_resetFinish_of_ne hu, setStage_view hn]
    rfl
  cases members with
  | nil =>
      have hview : ((s.resetFinish L t).setExecutor e (.resetMembers [])).groupView L g =
          ⟨Function.update (s.groupView L g).member t
            ((((s.groupView L g).member t).put
              ((s.groupView L g).member t).task.resetFinish).setStage e none),
          Function.update (s.groupView L g).executor e none⟩ := by
        apply groupView_eq resetFinish_executor
        · intro u
          rw [view_setExecutor, ExecutePc.resetMembers, ExecutePc.stage]
          by_cases hu : u = t
          · subst u
            rw [hreset, Function.update_self]
          · rw [Function.update_of_ne hu, hothers u fun heq => hu heq.symm]
        · rfl
      refine ⟨.silent, ?_, ?_, ?_, ?_⟩
      · rw [hview]
        exact .last (by simp [groupView, he, ExecutePc.inGroup, ht]) hst
      · exact fun _ _ => rfl
      · simp [beginsReset, GroupEvent.begun]
      · simp [callsReset, setExecutor, ExecutePc.resetMembers, GroupEvent.calls]
  | cons w rest =>
      have hnodup := hJ.nodup.sublist hsuffix.sublist
      have hne : w ≠ t := by
        intro heq
        exact (List.nodup_cons.mp hnodup).1 (heq ▸ List.mem_cons_self)
      have hw : L.group w = some g := (hJ.group w).mp (hsuffix.subset (by simp))
      have hview : ((s.resetFinish L t).setExecutor e (.resetMembers (w :: rest))).groupView L g =
          ⟨Function.update (Function.update (s.groupView L g).member t
            ((((s.groupView L g).member t).put
              ((s.groupView L g).member t).task.resetFinish).setStage e none))
            w (((s.groupView L g).member w).setStage e (some (.resetting .enter))),
          Function.update (s.groupView L g).executor e (some (.resetting w rest))⟩ := by
        apply groupView_eq resetFinish_executor
        · intro u
          rw [view_setExecutor, ExecutePc.resetMembers, ExecutePc.stage]
          by_cases hu : u = w
          · subst u
            rw [Function.update_self, if_pos rfl, view_resetFinish_of_ne fun heq => hne heq.symm]
            rfl
          · have hwu : ¬ w = u := fun heq => hu heq.symm
            rw [Function.update_of_ne hu, if_neg hwu]
            by_cases hut : u = t
            · subst u
              rw [hreset, Function.update_self]
            · rw [Function.update_of_ne hut, hothers u fun heq => hut heq.symm]
        · simp [ExecutePc.resetMembers, ExecutePc.inGroup, hw]
      refine ⟨.resets w, ?_, ?_, ?_, ?_⟩
      · rw [hview]
        exact .next (by simp [groupView, he, ExecutePc.inGroup, ht]) hne hst
      · exact fun _ _ => rfl
      · simp [beginsReset, GroupEvent.begun]
      · intro u _
        simp [callsReset, setExecutor, ExecutePc.resetMembers, GroupEvent.calls]

private theorem step_resetFinish (hJ : L.Joined g) (hplaced : ∀ t ∈ L.taskList g, s.Placed L t)
    (haligned : s.Aligned L g) {members : List τ} (he : s.executor e = .resetting t .finish members)
    (h : Step L s (.reset e) s')
    (hs' : s' = (s.resetFinish L t).setExecutor e (.resetMembers members)) :
    ∃ event, (s.groupView L g).Step (L.taskList g) event (s'.groupView L g) ∧
      Labels L g s s' (.reset e) event := by
  by_cases ht : L.group t = some g
  · exact step_resetMember hJ hplaced haligned ht he hs'
  · subst s'
    have hnot := haligned.others e t _ members he ht
    apply step_own hplaced h
    · apply setExecutor_inGroup he resetFinish_executor
      rw [inGroup_resetMembers hnot]
      simp [ExecutePc.inGroup, ht]
    · intro u hu hm
      have hug := (hJ.group u).mp hu
      cases hm with
      | own hstep hevent hstage => exact ⟨hstep, hevent, hstage⟩
      | next _ he' =>
          rw [he, ExecutePc.resetting.injEq] at he'
          exact absurd hug (hnot u (he'.2.2 ▸ List.mem_cons_self))
      | resetFinish he' =>
          rw [he, ExecutePc.resetting.injEq] at he'
          exact absurd (he'.1 ▸ hug) ht
    · simp [beginsReset]
    · intro u hu
      cases members with
      | nil => simp [callsReset, setExecutor, ExecutePc.resetMembers]
      | cons w rest =>
          have hne : w ≠ u :=
            fun heq => hnot w List.mem_cons_self (heq ▸ (hJ.group u).mp hu)
          simp [callsReset, setExecutor, ExecutePc.resetMembers, hne]

/-- Every step of the system is a step of the view of the group. -/
theorem step_group (hJ : L.Joined g) (hplaced : ∀ t ∈ L.taskList g, s.Placed L t)
    (haligned : s.Aligned L g) (h : Step L s a s') :
    ∃ event, (s.groupView L g).Step (L.taskList g) event (s'.groupView L g) ∧
      Labels L g s s' a event := by
  cases step_acts h with
  | notify | check =>
      exact step_plain hplaced h (fun _ => rfl) (by simp) (by simp) (by simp) (by simp)
  | activate =>
      refine step_plain hplaced h (fun f => ?_) (by simp) (by simp) (by simp) (by simp)
      rw [setNotifier, activate_executor]
  | nextTask he | synchronizeStart he | leave he =>
      exact step_plain hplaced h (setExecutor_inGroup he rfl rfl) (by simp) (by simp) (by simp)
        (by simp)
  | executed he => exact step_executed hJ hplaced he h rfl
  | finish he => exact step_finish hJ hplaced haligned he h rfl
  | isExecuted he => exact step_isExecuted hJ hplaced he h rfl
  | areAllExecuted he => exact step_areAllExecuted hJ hplaced he h rfl
  | resetEnter he =>
      exact step_resetting hplaced he (by simp) (TaskImpl.nextInput_ne_enter _ _) rfl h
  | resetInput he =>
      refine step_resetting hplaced he (by simp) ?_ rfl h
      split
      · simp
      · exact TaskImpl.nextInput_ne_enter _ _
  | resetActivate he =>
      exact step_resetting hplaced he (by simp) (TaskImpl.nextInput_ne_enter _ _) activate_executor h
  | resetFinish he => exact step_resetFinish hJ hplaced haligned he h rfl

end System

end Projection

end TaskingFramework
