import TaskingFramework.Task.Executions

/-!
# Groups

Tasks join a group before they run. A group holds its tasks in an array of pointers, which its loops
read up to the first empty slot.
-/

set_option linter.unusedSectionVars false

namespace TaskingFramework

/-- The groups of a program while tasks join them. -/
structure Groups (τ γ : Type*) where
  taskList : γ → List (Option τ)
  group : τ → Option γ

namespace Groups

variable {τ γ : Type*} [DecidableEq τ] [DecidableEq γ]

def constructed (maxTasks : γ → Nat) : Groups τ γ where
  taskList g := List.replicate (maxTasks g) none
  group _ := none

/-- `Group::join`. A task that finds no free slot stays outside. -/
def join (s : Groups τ γ) (g : γ) (t : τ) : Groups τ γ :=
  match (s.taskList g).findIdx? Option.isNone with
  | some freeSlot =>
      { taskList := Function.update s.taskList g ((s.taskList g).set freeSlot (some t))
        group := Function.update s.group t (some g) }
  | none => s

def joined (maxTasks : γ → Nat) (joins : List (γ × τ)) : Groups τ γ :=
  joins.foldl (fun s call => s.join call.1 call.2) (constructed maxTasks)

/-- The tasks that the loops over a task list reach. -/
def reached : List (Option τ) → List τ
  | some t :: slots => t :: reached slots
  | none :: _ | [] => []

/-- The calls of `join` for one group. -/
def joinedTo (g : γ) (joins : List (γ × τ)) : List τ :=
  (joins.filter fun call => call.1 = g).map Prod.snd

variable {maxTasks : γ → Nat} {joins : List (γ × τ)} {g : γ} {t : τ}

private theorem mem_joinedTo : t ∈ joinedTo g joins ↔ (g, t) ∈ joins := by
  simp [joinedTo]

private theorem joinedTo_snoc (call : γ × τ) :
    joinedTo g (joins ++ [call]) =
      if call.1 = g then joinedTo g joins ++ [call.2] else joinedTo g joins := by
  by_cases h : call.1 = g <;> simp [joinedTo, h]

private theorem joined_snoc (call : γ × τ) :
    joined maxTasks (joins ++ [call]) = (joined maxTasks joins).join call.1 call.2 := by
  simp [joined]

private theorem reached_append (l : List τ) (m : Nat) :
    reached (l.map some ++ List.replicate m none) = l := by
  induction l with
  | nil => cases m <;> rfl
  | cons t l ih => simp [reached, ih]

private theorem findIdx?_slots (l : List τ) (m : Nat) :
    (l.map some ++ List.replicate m none).findIdx? Option.isNone =
      if 0 < m then some l.length else none := by
  induction l with
  | nil => cases m <;> simp [List.replicate_succ, List.findIdx?_cons]
  | cons t l ih =>
      rw [List.map_cons, List.cons_append, List.findIdx?_cons]
      simp only [Option.isNone_some, Bool.false_eq_true, if_false, ih, List.length_cons]
      cases m <;> simp

private theorem set_slots (l : List τ) (m : Nat) :
    (l.map some ++ List.replicate (m + 1) none).set l.length (some t) =
      (l ++ [t]).map some ++ List.replicate m none := by
  induction l with
  | nil => simp [List.replicate_succ]
  | cons u l ih => simpa using ih

private theorem joined_taskList (g : γ) :
    (joined maxTasks joins).taskList g =
      ((joinedTo g joins).take (maxTasks g)).map some ++
        List.replicate (maxTasks g - (joinedTo g joins).length) none := by
  induction joins using List.reverseRecOn with
  | nil => simp [joined, constructed, joinedTo]
  | append_singleton joins call ih =>
      rw [joined_snoc, joinedTo_snoc, join]
      by_cases hg : call.1 = g
      · rw [if_pos hg, hg, ih, findIdx?_slots]
        by_cases hfree : (joinedTo g joins).length < maxTasks g
        · have hpos : 0 < maxTasks g - (joinedTo g joins).length := by omega
          have htake : (joinedTo g joins).take (maxTasks g) = joinedTo g joins :=
            List.take_of_length_le (by omega)
          obtain ⟨m, hm⟩ : ∃ m, maxTasks g - (joinedTo g joins).length = m + 1 :=
            ⟨maxTasks g - (joinedTo g joins).length - 1, by omega⟩
          have hrest : maxTasks g - (joinedTo g joins ++ [call.2]).length = m := by
            rw [List.length_append, List.length_singleton]
            omega
          rw [if_pos hpos]
          simp only [Function.update_self, htake, hm, set_slots, hrest]
          rw [List.take_of_length_le (by rw [List.length_append, List.length_singleton]; omega)]
        · have hnot : ¬ 0 < maxTasks g - (joinedTo g joins).length := by omega
          have hnone : maxTasks g - (joinedTo g joins ++ [call.2]).length =
              maxTasks g - (joinedTo g joins).length := by
            rw [List.length_append, List.length_singleton]
            omega
          rw [if_neg hnot, hnone, List.take_append_of_le_length (by omega)]
          exact ih
      · rw [if_neg hg]
        split
        · rw [← ih]
          exact Function.update_of_ne (fun he => hg he.symm) _ _
        · exact ih

private theorem mem_of_joined_group (h : (joined maxTasks joins).group t = some g) :
    (g, t) ∈ joins := by
  induction joins using List.reverseRecOn with
  | nil => simp [joined, constructed] at h
  | append_singleton joins call ih =>
      rw [joined_snoc, join] at h
      split at h
      · by_cases ht : t = call.2
        · subst t
          simp only [Function.update_self, Option.some.injEq] at h
          simp [← h]
        · simp only [Function.update_of_ne ht] at h
          exact List.mem_append_left _ (ih h)
      · exact List.mem_append_left _ (ih h)

private theorem joined_group (hslots : (joinedTo g joins).length ≤ maxTasks g)
    (honce : (joins.map Prod.snd).count t = 1) (h : (g, t) ∈ joins) :
    (joined maxTasks joins).group t = some g := by
  induction joins using List.reverseRecOn with
  | nil => simp at h
  | append_singleton joins call ih =>
      rw [joined_snoc, join]
      rw [joinedTo_snoc] at hslots
      rw [List.map_append, List.count_append] at honce
      rcases List.mem_append.mp h with hm | hm
      · have hcount : 0 < (joins.map Prod.snd).count t :=
          List.count_pos_iff.mpr (List.mem_map.mpr ⟨(g, t), hm, rfl⟩)
        have hne : t ≠ call.2 := by
          intro he
          have hlast : (List.map Prod.snd [call]).count t = 1 := by simp [he]
          omega
        have hle : (joinedTo g joins).length ≤
            (if call.1 = g then joinedTo g joins ++ [call.2] else joinedTo g joins).length := by
          split <;> simp
        have hbefore : (joined maxTasks joins).group t = some g := by
          apply ih (hle.trans hslots) _ hm
          omega
        split
        · rw [← hbefore]
          exact Function.update_of_ne hne _ _
        · exact hbefore
      · obtain rfl := List.mem_singleton.mp hm
        simp only [if_true, List.length_append, List.length_singleton] at hslots
        have hpos : 0 < maxTasks g - (joinedTo g joins).length := by omega
        simp only [joined_taskList, List.take_of_length_le (by omega : (joinedTo g joins).length ≤
          maxTasks g), findIdx?_slots, if_pos hpos, Function.update_self]

private theorem group_unique {g' : γ} (honce : (joins.map Prod.snd).count t = 1)
    (h : (g, t) ∈ joins) (h' : (g', t) ∈ joins) : g' = g := by
  induction joins with
  | nil => simp at h
  | cons call joins ih =>
      rw [List.map_cons, List.count_cons] at honce
      have hcount : ∀ {f : γ}, (f, t) ∈ joins → 0 < (joins.map Prod.snd).count t :=
        fun hf => List.count_pos_iff.mpr (List.mem_map.mpr ⟨_, hf, rfl⟩)
      by_cases ht : call.2 = t
      · simp only [ht, beq_self_eq_true, if_true] at honce
        have hhead : ∀ {f : γ}, (f, t) ∈ call :: joins → (f, t) = call := by
          intro f hf
          rcases List.mem_cons.mp hf with he | hf
          · exact he
          · have := hcount hf
            omega
        exact congrArg Prod.fst ((hhead h').trans (hhead h).symm)
      · have hne : ∀ {f : γ}, (f, t) ∈ call :: joins → (f, t) ∈ joins := by
          intro f hf
          rcases List.mem_cons.mp hf with he | hf
          · exact absurd (congrArg Prod.snd he).symm ht
          · exact hf
        have hzero : (if (call.2 == t) = true then 1 else 0) = 0 := by simp [ht]
        rw [hzero, Nat.add_zero] at honce
        exact ih honce (hne h) (hne h')

/-- The group has slots for the tasks that join it, and each of them joins once. -/
structure Filled (maxTasks : γ → Nat) (joins : List (γ × τ)) (g : γ) : Prop where
  nonempty : joinedTo g joins ≠ []
  slots : (joinedTo g joins).length ≤ maxTasks g
  once : ∀ t ∈ joinedTo g joins, (joins.map Prod.snd).count t = 1

end Groups

namespace Layout

variable {τ σ ε γ : Type*} [DecidableEq τ] [DecidableEq γ]

/-- The groups of the layout are the result of these calls of `join`. -/
structure Joins (L : Layout τ σ ε γ) (maxTasks : γ → Nat) (joins : List (γ × τ)) : Prop where
  group : L.group = (Groups.joined maxTasks joins).group
  taskList : ∀ g, L.taskList g = Groups.reached ((Groups.joined maxTasks joins).taskList g)

/-- The members of the group know their group and are in no other one. -/
structure Joined (L : Layout τ σ ε γ) (g : γ) : Prop where
  group : ∀ t, t ∈ L.taskList g ↔ L.group t = some g
  others : ∀ t ∈ L.taskList g, ∀ g', t ∈ L.taskList g' → g' = g
  nodup : (L.taskList g).Nodup
  nonempty : L.taskList g ≠ []

variable {L : Layout τ σ ε γ} {maxTasks : γ → Nat} {joins : List (γ × τ)} {g : γ}

private theorem Joins.taskList_eq (h : L.Joins maxTasks joins) (g : γ) :
    L.taskList g = (Groups.joinedTo g joins).take (maxTasks g) := by
  rw [h.taskList, Groups.joined_taskList, Groups.reached_append]

theorem Joins.taskList_filled (h : L.Joins maxTasks joins) (hg : Groups.Filled maxTasks joins g) :
    L.taskList g = Groups.joinedTo g joins := by
  rw [h.taskList_eq, List.take_of_length_le hg.slots]

theorem Joins.joined (h : L.Joins maxTasks joins) (hg : Groups.Filled maxTasks joins g) :
    L.Joined g := by
  have hlist := h.taskList_filled hg
  refine ⟨?_, ?_, ?_, ?_⟩
  · intro t
    rw [hlist, h.group]
    constructor
    · intro ht
      exact Groups.joined_group hg.slots (hg.once t ht) (Groups.mem_joinedTo.mp ht)
    · exact fun ht => Groups.mem_joinedTo.mpr (Groups.mem_of_joined_group ht)
  · intro t ht g' ht'
    rw [hlist] at ht
    rw [h.taskList_eq] at ht'
    have hmem := Groups.mem_joinedTo.mp (List.mem_of_mem_take ht')
    exact Groups.group_unique (hg.once t ht) (Groups.mem_joinedTo.mp ht) hmem
  · rw [hlist, List.nodup_iff_count]
    intro t
    by_cases ht : t ∈ Groups.joinedTo g joins
    · rw [← hg.once t ht]
      exact (List.filter_sublist.map Prod.snd).count_le t
    · rw [List.count_eq_zero_of_not_mem ht]
      exact Nat.zero_le 1
  · rw [hlist]
    exact hg.nonempty

end Layout

section Resets

variable {τ σ ε γ ν : Type*} [DecidableEq τ] [DecidableEq σ] [DecidableEq ε] [DecidableEq γ]
  [DecidableEq ν]

namespace System

/-- The group that begins to reset its members in this step. -/
def beginsReset (s : System τ σ ε γ ν) : SystemAction τ ε ν → Option γ
  | .isExecuted e =>
      match s.executor e with
      | .checking group [] => some group
      | _ => none
  | _ => none

/-- The task whose `Task::reset` the step calls, read from the state behind the step. -/
def callsReset (s : System τ σ ε γ ν) : SystemAction τ ε ν → Option τ
  | .executed e _ | .isExecuted e | .reset e =>
      match s.executor e with
      | .resetting t .enter _ => some t
      | _ => none
  | _ => none

end System

/-- The system beside the numbers of resets that the groups have begun and of calls of
`Task::reset`. -/
structure Rounds (τ σ ε γ ν : Type*) where
  system : System τ σ ε γ ν
  resets : γ → Nat
  taskResets : τ → Nat

namespace Rounds

def bump {α : Type*} [DecidableEq α] (count : α → Nat) : Option α → α → Nat
  | none => count
  | some x => Function.update count x (count x + 1)

theorem bump_apply {α : Type*} [DecidableEq α] (count : α → Nat) (x : Option α) (y : α) :
    bump count x y = count y + if x = some y then 1 else 0 := by
  cases x with
  | none => rfl
  | some x =>
      by_cases h : y = x
      · subst y
        simp [bump]
      · have hne : x ≠ y := fun he => h he.symm
        simp [bump, h, hne]

def started (L : Layout τ σ ε γ) (inputs : τ → InputArray) (schedulers : List σ) :
    Rounds τ σ ε γ ν :=
  ⟨.started L inputs schedulers, fun _ => 0, fun _ => 0⟩

def step (L : Layout τ σ ε γ) (r : Rounds τ σ ε γ ν) (a : SystemAction τ ε ν) :
    Option (Rounds τ σ ε γ ν) :=
  (r.system.step L a).map fun s =>
    ⟨s, bump r.resets (r.system.beginsReset a), bump r.taskResets (s.callsReset a)⟩

def Step (L : Layout τ σ ε γ) (r : Rounds τ σ ε γ ν) (a : SystemAction τ ε ν)
    (r' : Rounds τ σ ε γ ν) : Prop :=
  r.step L a = some r'

theorem step_iff {L : Layout τ σ ε γ} {r r' : Rounds τ σ ε γ ν} {a : SystemAction τ ε ν} :
    Step L r a r' ↔ System.Step L r.system a r'.system ∧
      r'.resets = bump r.resets (r.system.beginsReset a) ∧
      r'.taskResets = bump r.taskResets (r'.system.callsReset a) := by
  unfold Step step System.Step
  rw [Option.map_eq_some_iff]
  constructor
  · intro h
    obtain ⟨s, hs, rfl⟩ := h
    exact ⟨hs, rfl, rfl⟩
  · intro h
    exact ⟨r'.system, h.1, by rw [← h.2.1, ← h.2.2]⟩

end Rounds

end Resets

end TaskingFramework
