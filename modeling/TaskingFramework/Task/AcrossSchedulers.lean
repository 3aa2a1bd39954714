import TaskingFramework.Task.GroupRun

/-!
# Groups across schedulers

The members of a group may be associated with different schedulers. Nothing serialises their
executors then, and two of them may reset the group in the same round. As long as a reset begins only
when all members have finished and nobody resets them, each round ends with one reset.
-/

set_option linter.unusedSectionVars false

namespace TaskingFramework

open Foundation

namespace Rounds

variable {τ σ ε γ ν : Type*} [DecidableEq τ] [DecidableEq σ] [DecidableEq ε] [DecidableEq γ]
  [DecidableEq ν] {L : Layout τ σ ε γ} {g : γ} {maxTasks : γ → Nat} {joins : List (γ × τ)}
  {inputs : τ → InputArray} {schedulers : List σ} {acts : List (SystemAction τ ε ν)}
  {r : Rounds τ σ ε γ ν}

private theorem started_inRound (hJ : L.Joined g)
    (hready : ∀ t ∈ L.taskList g, (System.started L inputs schedulers : System τ σ ε γ ν).Ready L t) :
    (started L inputs schedulers : Rounds τ σ ε γ ν).InRound L g fun _ => 0 :=
  inRound_start hready hJ rfl fun _ => rfl

/-- Members of any schedulers and with any inputs: each round of executions is followed by one reset of
the group, in which the reset of each member is called once. -/
theorem run_resetsOnce (hjoins : L.Joins maxTasks joins) (hg : Groups.Filled maxTasks joins g)
    (hassociated : ∀ t ∈ Groups.joinedTo g joins,
      (L.associatedTasks (L.associatedScheduler t)).Nodup)
    (hstart : ∀ t ∈ Groups.joinedTo g joins, L.associatedScheduler t ∈ schedulers)
    (hnodup : schedulers.Nodup)
    (hrun : Run (fun r a r' => Step L r a r' ∧ r.Orderly L g a) (started L inputs schedulers) acts r) :
    (∀ t ∈ Groups.joinedTo g joins,
        (r.resets g ≤ System.executions t acts ∧ System.executions t acts ≤ r.resets g + 1) ∧
        r.taskResets t ≤ r.resets g ∧ r.resets g ≤ r.taskResets t + 1) ∧
      ((∀ t ∈ Groups.joinedTo g joins, System.executions t acts = r.resets g + 1) →
        r.Closing L g) ∧
      ((∀ e u pc members, r.system.executor e = .resetting u pc members → L.group u ≠ some g) →
        ∀ t ∈ Groups.joinedTo g joins, r.taskResets t = r.resets g) := by
  have hJ := hjoins.joined hg
  rw [← hjoins.taskList_filled hg] at hassociated hstart ⊢
  have hround : r.InRound L g fun t => System.executions t acts := by
    apply run_inRound hJ _ hrun
    exact started_inRound hJ fun t ht =>
      System.started_ready (hassociated t ht) (hstart t ht) hnodup
  refine ⟨fun t ht => ?_, hround.closing, fun hidle t ht => hround.taskResets ht hidle⟩
  have hbounds := hround.bounds ht
  exact ⟨⟨hbounds.1, hbounds.2.1⟩, hbounds.2.2⟩

end Rounds

/-- A group of two tasks, each with a scheduler and an executor of its own. -/
def Layout.pair : Layout Bool Bool Bool Unit where
  associatedScheduler t := t
  associatedTasks scheduler := [scheduler]
  mem_associatedTasks := by simp
  scheduler e := e
  group _ := some ()
  taskList _ := [false, true]

private theorem Layout.pair_joins : Layout.pair.Joins (fun _ => 2) [((), false), ((), true)] := by
  refine ⟨?_, fun _ => rfl⟩
  funext t
  cases t <;> rfl

namespace Rounds

/-- One execution of the task up to the point where its executor sets `TASK_FINISH`. -/
def executionOf (t : Bool) : List (SystemAction Bool Bool Unit) :=
  [.notify () t 0, .check (), .activate (), .nextTask t t, .synchronizeStart t, .executed t t]

/-- The checks of both members by one executor. -/
def checksOf (e : Bool) : List (SystemAction Bool Bool Unit) := [.isExecuted e, .isExecuted e]

/-- The resets of both members by one executor. -/
def resetsOf (e : Bool) : List (SystemAction Bool Bool Unit) :=
  [.reset e, .reset e, .reset e, .reset e, .reset e, .reset e, .leave e]

private theorem run_quiet {L : Layout Bool Bool Bool Unit} {a : List (SystemAction Bool Bool Unit)}
    {r r' : Rounds Bool Bool Bool Unit Unit} (ha : ∀ e, .isExecuted e ∉ a)
    (h : a.foldlM (step L) r = some r') :
    Run (fun r a r' => Step L r a r' ∧ r.Orderly L () a) r a r' := by
  have hrun : Run (Step L) r a r' := run_foldlM.mpr h
  apply hrun.and
  intro r b hb hbegins
  cases b with
  | isExecuted e => exact absurd hb (ha e)
  | notify | check | activate | nextTask | synchronizeStart | executed | finish | reset | leave =>
      simp [System.beginsReset] at hbegins

private theorem run_one {L : Layout Bool Bool Bool Unit} {b : SystemAction Bool Bool Unit}
    {r r' : Rounds Bool Bool Bool Unit Unit} (h : r.step L b = some r') (hb : r.Orderly L () b) :
    Run (fun r a r' => Step L r a r' ∧ r.Orderly L () a) r [b] r' :=
  Run.start.next ⟨h, hb⟩

/-- A round in which the second member finishes behind the check of the first one. -/
theorem run_resetsOnce_pair :
    ∃ (acts : List (SystemAction Bool Bool Unit)) (r : Rounds Bool Bool Bool Unit Unit),
      Run (fun r a r' => Step .pair r a r' ∧ r.Orderly .pair () a)
        (started .pair (fun _ => .configured 1 fun _ => 1) [false, true]) acts r ∧
        r.resets () = 1 ∧ ∀ t ∈ Groups.joinedTo () [((), false), ((), true)], r.taskResets t = 1 := by
  have hfirst := run_quiet (L := .pair) (r := started .pair (fun _ => .configured 1 fun _ => 1)
    [false, true]) (a := executionOf false ++ [.finish false]) (by decide) rfl
  have hfinished := hfirst.append
    (run_one (b := .isExecuted false) rfl fun h => absurd h (by decide))
  have hleft := hfinished.append
    (run_one (b := .isExecuted false) rfl fun h => absurd h (by decide))
  have hsecond := hleft.append (run_quiet (a := .leave false :: executionOf true ++ [.finish true])
    (by decide) rfl)
  have hchecking := hsecond.append
    (run_one (b := .isExecuted true) rfl fun h => absurd h (by decide))
  have hchecked := hchecking.append
    (run_one (b := .isExecuted true) rfl fun h => absurd h (by decide))
  have hbegun := hchecked.append (run_one (b := .isExecuted true) rfl fun _ => ⟨by decide, by
    intro e u pc members he
    cases e <;> exact absurd he (by nofun)⟩)
  have hrun := hbegun.append (run_quiet (a := resetsOf true) (by decide) rfl)
  have hg : Groups.Filled (fun _ => 2) [((), false), ((), true)] () :=
    ⟨by decide, by decide, by decide⟩
  have honce := run_resetsOnce Layout.pair_joins hg (by decide) (by decide) (by decide) hrun
  refine ⟨_, _, hrun, rfl, fun t ht => ?_⟩
  exact honce.2.2 (by intro e u pc members he; cases e <;> exact absurd he (by nofun)) t ht

/-- Both executors find all members finished: the group is reset twice behind one execution of each
member. -/
theorem resets_twice :
    ∃ (acts : List (SystemAction Bool Bool Unit)) (r : Rounds Bool Bool Bool Unit Unit),
      Run (Step .pair) (started .pair (fun _ => .configured 1 fun _ => 1) [false, true]) acts r ∧
        (∀ t, System.executions t acts = 1) ∧ r.resets () = 2 ∧ ∀ t, r.taskResets t = 2 :=
  ⟨executionOf false ++ executionOf true ++ [.finish false, .finish true] ++ checksOf false ++
      checksOf true ++ [.isExecuted false, .isExecuted true] ++ resetsOf false ++ resetsOf true,
    _, run_foldlM.mpr rfl, by decide, by decide, by decide⟩

end Rounds

end TaskingFramework
