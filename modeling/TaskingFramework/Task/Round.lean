import TaskingFramework.Task.GroupView

/-!
# Rounds of a group

A group in terms of where its members stand and what executors do for it. A round is orderly if a
reset begins only when all members have finished and no executor is resetting them. Then every member
is executed once between two resets.
-/

set_option linter.unusedSectionVars false

namespace TaskingFramework

structure Round (τ ε : Type*) where
  standing : τ → Standing ε
  executor : ε → Option (GroupPc τ)

namespace Round

variable {τ ε : Type*} [DecidableEq τ] [DecidableEq ε]

/-- The orderly steps of a group with the members `M`. -/
inductive Step (M : List τ) (q : Round τ ε) : GroupEvent τ → Round τ ε → Prop where
  | own {events : τ → TaskEvent} (hevents : ∀ t ∈ M, events t ≠ .executed) : Step M q (.own events) q
  | executed {e : ε} {t : τ} (ht : t ∈ M) (hstanding : q.standing t = .fresh)
      (hfree : q.executor e = none) :
      Step M q (.executed t) ⟨Function.update q.standing t .executed,
        Function.update q.executor e (some (.finishing t))⟩
  | finish {e : ε} {t : τ} (he : q.executor e = some (.finishing t)) :
      Step M q .silent ⟨Function.update q.standing t .finished,
        Function.update q.executor e (some (.checking M))⟩
  | isExecuted {e : ε} {t : τ} {rest : List τ} {answer : Bool}
      (he : q.executor e = some (.checking (t :: rest)))
      (htrue : answer = true → q.standing t = .finished ∨ ∃ f, q.standing t = .resetting f)
      (hfalse : answer = false → q.standing t ≠ .finished) :
      Step M q .silent ⟨q.standing, Function.update q.executor e
        (if answer then some (.checking rest) else none)⟩
  | begins {e : ε} {t : τ} {rest : List τ} (he : q.executor e = some (.checking []))
      (hM : M = t :: rest) (hall : ∀ u ∈ M, q.standing u = .finished)
      (hidle : ∀ f u us, q.executor f ≠ some (.resetting u us)) :
      Step M q (.begins t) ⟨Function.update q.standing t (.resetting e),
        Function.update q.executor e (some (.resetting t rest))⟩
  | next {e : ε} {t u : τ} {rest : List τ} (he : q.executor e = some (.resetting t (u :: rest))) :
      Step M q (.resets u)
        ⟨Function.update (Function.update q.standing t .fresh) u (.resetting e),
        Function.update q.executor e (some (.resetting u rest))⟩
  | last {e : ε} {t : τ} (he : q.executor e = some (.resetting t [])) :
      Step M q .silent ⟨Function.update q.standing t .fresh, Function.update q.executor e none⟩

/-- A member after the reset that `r` counts as the last one, with `X` executions. -/
def Current (r X : Nat) (standing : Standing ε) : Prop :=
  X = r ∧ standing = .fresh ∨ X = r + 1 ∧ (standing = .executed ∨ standing = .finished)

/-- The group has begun `r` resets, its members have completed `X` executions and seen `C` calls of
`Task::reset`. -/
inductive InRound (M : List τ) (r : Nat) (X C : τ → Nat) (q : Round τ ε) : Prop where
  | collecting (hidle : ∀ e t rest, q.executor e ≠ some (.resetting t rest))
      (hmember : ∀ t ∈ M, Current r (X t) (q.standing t) ∧ C t = r)
      (hlast : (∀ t ∈ M, X t = r + 1) → ∃ e, (∃ t, q.executor e = some (.finishing t)) ∨
        ∃ rest, q.executor e = some (.checking rest))
  | resetting {e : ε} {t : τ} {before rest : List τ} (hM : M = before ++ t :: rest)
      (he : q.executor e = some (.resetting t rest))
      (honly : ∀ f u us, q.executor f = some (.resetting u us) → f = e)
      (hbefore : ∀ u ∈ before, Current r (X u) (q.standing u) ∧ C u = r)
      (ht : q.standing t = .resetting e ∧ X t = r ∧ C t = r)
      (hrest : ∀ u ∈ rest, q.standing u = .finished ∧ X u = r ∧ C u + 1 = r)

structure Ordered (M : List τ) (r : Nat) (X C : τ → Nat) (q : Round τ ε) : Prop where
  inRound : q.InRound M r X C
  finishing : ∀ e t, q.executor e = some (.finishing t) → t ∈ M ∧ q.standing t = .executed
  finisher : ∀ t ∈ M, q.standing t = .executed → ∃ e, q.executor e = some (.finishing t)
  unique : ∀ e f t, q.executor e = some (.finishing t) → q.executor f = some (.finishing t) → e = f
  checking : ∀ e rest, q.executor e = some (.checking rest) → rest <:+ M

theorem Ordered.congr {M : List τ} {r : Nat} {X X' C C' : τ → Nat} {q : Round τ ε}
    (h : q.Ordered M r X C) (hX : ∀ t ∈ M, X t = X' t) (hC : ∀ t ∈ M, C t = C' t) :
    q.Ordered M r X' C' := by
  refine ⟨?_, h.finishing, h.finisher, h.unique, h.checking⟩
  cases h.inRound with
  | collecting hidle hmember hlast =>
      refine .collecting hidle (fun t ht => ?_) fun hall => hlast fun t ht => ?_
      · rw [← hX t ht, ← hC t ht]
        exact hmember t ht
      · rw [hX t ht]
        exact hall t ht
  | @resetting e t before rest hM he honly hbefore ht hrest =>
      refine .resetting hM he honly (fun u hu => ?_) ?_ fun u hu => ?_
      · have hu' : u ∈ M := hM ▸ List.mem_append_left _ hu
        rw [← hX u hu', ← hC u hu']
        exact hbefore u hu
      · have ht' : t ∈ M := hM ▸ List.mem_append_right _ List.mem_cons_self
        rw [← hX t ht', ← hC t ht']
        exact ht
      · have hu' : u ∈ M := hM ▸ List.mem_append_right _ (List.mem_cons_of_mem t hu)
        rw [← hX u hu', ← hC u hu']
        exact hrest u hu

theorem ordered_start {M : List τ} {r : Nat} {X C : τ → Nat} (hM : M ≠ []) (hX : ∀ t ∈ M, X t = r)
    (hC : ∀ t ∈ M, C t = r) : Ordered M r X C ⟨fun _ => .fresh, fun _ : ε => none⟩ := by
  refine ⟨.collecting (by simp) (fun t ht => ⟨Or.inl ⟨hX t ht, rfl⟩, hC t ht⟩) ?_, by simp, by simp,
    by simp, by simp⟩
  intro hall
  obtain ⟨t, ht⟩ := List.exists_mem_of_ne_nil M hM
  have hfirst := hX t ht
  have hlast := hall t ht
  omega

section Steps

variable {M : List τ} {r : Nat} {X C : τ → Nat} {q q' : Round τ ε} {event : GroupEvent τ} {e : ε}
  {t : τ}

private theorem executor_of_update {f : ε} {pc pc' : Option (GroupPc τ)} (hne : pc ≠ pc')
    (h : Function.update q.executor e pc f = pc') : q.executor f = pc' := by
  by_cases hf : f = e
  · subst f
    rw [Function.update_self] at h
    exact absurd h hne
  · rwa [Function.update_of_ne hf] at h

private theorem InRound.executed (h : q.InRound M r X C) (hstanding : q.standing t = .fresh)
    (hfree : q.executor e = none) :
    InRound M r (fun u => X u + if t = u then 1 else 0) C
      ⟨Function.update q.standing t .executed,
        Function.update q.executor e (some (.finishing t))⟩ := by
  have hcurrent : ∀ u, Current r (X u) (q.standing u) →
      Current r (X u + if t = u then 1 else 0) (Function.update q.standing t .executed u) := by
    intro u hu
    by_cases htu : t = u
    · subst u
      rw [if_pos rfl, Function.update_self]
      rcases hu with ⟨hX, _⟩ | ⟨_, hst⟩
      · exact Or.inr ⟨by omega, Or.inl rfl⟩
      · rw [hstanding] at hst
        simp at hst
    · rw [if_neg htu, Function.update_of_ne fun heq => htu heq.symm]
      exact hu
  have hsame : ∀ u, q.standing u ≠ .fresh → t ≠ u := fun u hu heq => hu (heq ▸ hstanding)
  have hpc := fun f u us => executor_of_update (q := q) (e := e) (f := f)
    (show some (.finishing t) ≠ some (.resetting u us) by simp)
  cases h with
  | collecting hidle hmember hlast =>
      refine .collecting (fun f u us hf => hidle f u us (hpc f u us hf)) ?_ fun _ => ?_
      · exact fun u hu => ⟨hcurrent u (hmember u hu).1, (hmember u hu).2⟩
      · exact ⟨e, Or.inl ⟨t, Function.update_self ..⟩⟩
  | @resetting e' t' before rest hM he honly hbefore ht hrest =>
      have hne : e' ≠ e := fun heq => by simp [← heq, he] at hfree
      refine .resetting hM ?_ (fun f u us hf => honly f u us (hpc f u us hf)) ?_ ?_ ?_
      · rw [← he]
        exact Function.update_of_ne hne _ _
      · exact fun u hu => ⟨hcurrent u (hbefore u hu).1, (hbefore u hu).2⟩
      · have htt : t ≠ t' := hsame t' (by simp [ht.1])
        simp only [if_neg htt, Function.update_of_ne htt.symm]
        exact ht
      · intro u hu
        have htu : t ≠ u := hsame u (by simp [(hrest u hu).1])
        simp only [if_neg htu, Function.update_of_ne htu.symm]
        exact hrest u hu

private theorem InRound.finish (h : q.InRound M r X C) (hstanding : q.standing t = .executed)
    (he : q.executor e = some (.finishing t)) :
    InRound M r X C ⟨Function.update q.standing t .finished,
      Function.update q.executor e (some (.checking M))⟩ := by
  have hcurrent : ∀ u, Current r (X u) (q.standing u) →
      Current r (X u) (Function.update q.standing t .finished u) := by
    intro u hu
    by_cases htu : u = t
    · subst u
      rw [Function.update_self]
      rcases hu with ⟨_, hst⟩ | ⟨hX, _⟩
      · rw [hstanding] at hst
        simp at hst
      · exact Or.inr ⟨hX, Or.inr rfl⟩
    · rw [Function.update_of_ne htu]
      exact hu
  have hsame : ∀ u, q.standing u ≠ .executed → u ≠ t := fun u hu heq => hu (heq ▸ hstanding)
  have hpc := fun f u us => executor_of_update (q := q) (e := e) (f := f)
    (show some (.checking M) ≠ some (.resetting u us) by simp)
  cases h with
  | collecting hidle hmember hlast =>
      refine .collecting (fun f u us hf => hidle f u us (hpc f u us hf)) ?_ fun _ => ?_
      · exact fun u hu => ⟨hcurrent u (hmember u hu).1, (hmember u hu).2⟩
      · exact ⟨e, Or.inr ⟨M, Function.update_self ..⟩⟩
  | @resetting e' t' before rest hM he' honly hbefore ht hrest =>
      have hne : e' ≠ e := fun heq => by simp [← heq, he'] at he
      refine .resetting hM ?_ (fun f u us hf => honly f u us (hpc f u us hf)) ?_ ?_ ?_
      · rw [← he']
        exact Function.update_of_ne hne _ _
      · exact fun u hu => ⟨hcurrent u (hbefore u hu).1, (hbefore u hu).2⟩
      · simp only [Function.update_of_ne (hsame t' (by simp [ht.1]))]
        exact ht
      · intro u hu
        simp only [Function.update_of_ne (hsame u (by simp [(hrest u hu).1]))]
        exact hrest u hu

private theorem InRound.isExecuted {rest : List τ} {answer : Bool} (h : q.Ordered M r X C)
    (he : q.executor e = some (.checking (t :: rest)))
    (hfalse : answer = false → q.standing t ≠ .finished) :
    InRound M r X C ⟨q.standing, Function.update q.executor e
      (if answer then some (.checking rest) else none)⟩ := by
  have hpc := fun f u us => executor_of_update (q := q) (e := e) (f := f)
    (show (if answer then some (.checking rest) else none) ≠ some (.resetting u us) by
      cases answer <;> simp)
  cases h.inRound with
  | collecting hidle hmember hlast =>
      refine .collecting (fun f u us hf => hidle f u us (hpc f u us hf)) hmember fun hall => ?_
      cases answer with
      | true => exact ⟨e, Or.inr ⟨rest, by simp⟩⟩
      | false =>
          have ht : t ∈ M := (h.checking e _ he).subset List.mem_cons_self
          have hexecuted : q.standing t = .executed := by
            rcases (hmember t ht).1 with ⟨hX, _⟩ | ⟨_, hst | hst⟩
            · have := hall t ht
              omega
            · exact hst
            · exact absurd hst (hfalse rfl)
          obtain ⟨f, hf⟩ := h.finisher t ht hexecuted
          have hne : f ≠ e := fun heq => by simp [heq, he] at hf
          exact ⟨f, Or.inl ⟨t, by simp [hne, hf]⟩⟩
  | @resetting e' t' before rest hM he' honly hbefore ht hrest =>
      have hne : e' ≠ e := fun heq => by simp [← heq, he'] at he
      refine .resetting hM ?_ (fun f u us hf => honly f u us (hpc f u us hf)) hbefore ht hrest
      rw [← he']
      exact Function.update_of_ne hne _ _

private theorem InRound.begins {rest : List τ} (hnodup : M.Nodup) (h : q.InRound M r X C)
    (hM : M = t :: rest) (hall : ∀ u ∈ M, q.standing u = .finished)
    (hidle : ∀ f u us, q.executor f ≠ some (.resetting u us)) :
    InRound M (r + 1) X (fun u => C u + if t = u then 1 else 0)
      ⟨Function.update q.standing t (.resetting e),
        Function.update q.executor e (some (.resetting t rest))⟩ := by
  cases h with
  | resetting _ he => exact absurd he (hidle _ _ _)
  | collecting _ hmember _ =>
      have hX : ∀ u ∈ M, X u = r + 1 := by
        intro u hu
        rcases (hmember u hu).1 with ⟨_, hst⟩ | ⟨hX, _⟩
        · rw [hall u hu] at hst
          simp at hst
        · exact hX
      have ht : t ∈ M := hM ▸ List.mem_cons_self
      refine .resetting (show M = [] ++ t :: rest from hM) (Function.update_self ..) ?_ (by simp) ?_ ?_
      · intro f u us hf
        by_cases hfe : f = e
        · exact hfe
        · simp only [Function.update_of_ne hfe] at hf
          exact absurd hf (hidle f u us)
      · simp [hX t ht, (hmember t ht).2]
      · intro u hu
        have hmem : u ∈ M := hM ▸ List.mem_cons_of_mem t hu
        have htu : t ≠ u := by
          intro heq
          rw [hM, List.nodup_cons] at hnodup
          exact hnodup.1 (heq ▸ hu)
        simp only [Function.update_of_ne htu.symm, if_neg htu]
        exact ⟨hall u hmem, hX u hmem, by rw [Nat.add_zero, (hmember u hmem).2]⟩

/-- The executor that resets the group, with the members in front of the current one. -/
theorem InRound.during {rest : List τ} (h : q.InRound M r X C)
    (he : q.executor e = some (.resetting t rest)) :
    ∃ before, M = before ++ t :: rest ∧
      (∀ f u us, q.executor f = some (.resetting u us) → f = e) ∧
      (∀ u ∈ before, Current r (X u) (q.standing u) ∧ C u = r) ∧
      (q.standing t = .resetting e ∧ X t = r ∧ C t = r) ∧
      ∀ u ∈ rest, q.standing u = .finished ∧ X u = r ∧ C u + 1 = r := by
  cases h with
  | collecting hidle => exact absurd he (hidle e t rest)
  | @resetting e' t' before rest' hM he' honly hbefore ht hrest =>
      obtain rfl := honly e t rest he
      rw [he, Option.some.injEq, GroupPc.resetting.injEq] at he'
      obtain ⟨rfl, rfl⟩ := he'
      exact ⟨before, hM, honly, hbefore, ht, hrest⟩

private theorem InRound.next {u : τ} {rest : List τ} (hnodup : M.Nodup) (h : q.InRound M r X C)
    (he : q.executor e = some (.resetting t (u :: rest))) :
    InRound M r X (fun w => C w + if u = w then 1 else 0)
      ⟨Function.update (Function.update q.standing t .fresh) u (.resetting e),
        Function.update q.executor e (some (.resetting u rest))⟩ := by
  obtain ⟨before, hM, honly, hbefore, ht, hrest⟩ := h.during he
  rw [hM] at hnodup
  have hapart := (List.nodup_append.mp hnodup).2.2
  have hbehind := List.nodup_cons.mp (List.nodup_append.mp hnodup).2.1
  have hne : u ≠ t := fun heq => hbehind.1 (heq ▸ List.mem_cons_self)
  have hu := hrest u List.mem_cons_self
  refine .resetting (show M = (before ++ [t]) ++ u :: rest by simp [hM])
    (Function.update_self ..) ?_ ?_ ?_ ?_
  · intro f w ws hf
    by_cases hfe : f = e
    · exact hfe
    · simp only [Function.update_of_ne hfe] at hf
      exact honly f w ws hf
  · intro w hw
    rcases List.mem_append.mp hw with hw | hw
    · have hwt : w ≠ t := hapart w hw t List.mem_cons_self
      have hwu : w ≠ u := hapart w hw u (List.mem_cons_of_mem t List.mem_cons_self)
      simp only [Function.update_of_ne hwu, Function.update_of_ne hwt, if_neg hwu.symm, Nat.add_zero]
      exact hbefore w hw
    · obtain rfl := List.mem_singleton.mp hw
      simp only [Function.update_of_ne hne.symm, Function.update_self, if_neg hne, Nat.add_zero]
      exact ⟨Or.inl ⟨ht.2.1, rfl⟩, ht.2.2⟩
  · simp only [Function.update_self, if_true]
    exact ⟨trivial, hu.2.1, hu.2.2⟩
  · intro w hw
    have hwt : w ≠ t := fun heq => hbehind.1 (heq ▸ List.mem_cons_of_mem u hw)
    have hwu : w ≠ u := fun heq => (List.nodup_cons.mp hbehind.2).1 (heq ▸ hw)
    simp only [Function.update_of_ne hwu, Function.update_of_ne hwt, if_neg hwu.symm, Nat.add_zero]
    exact hrest w (List.mem_cons_of_mem u hw)

private theorem InRound.last (hnodup : M.Nodup) (h : q.InRound M r X C)
    (he : q.executor e = some (.resetting t [])) :
    InRound M r X C ⟨Function.update q.standing t .fresh, Function.update q.executor e none⟩ := by
  obtain ⟨before, hM, honly, hbefore, ht, _⟩ := h.during he
  rw [hM] at hnodup
  have hapart := (List.nodup_append.mp hnodup).2.2
  refine .collecting ?_ ?_ fun hall => ?_
  · intro f w ws hf
    have hbefore := executor_of_update (by simp) hf
    rw [honly f w ws hbefore] at hf
    simp at hf
  · intro w hw
    rw [hM] at hw
    rcases List.mem_append.mp hw with hw | hw
    · have hwt : w ≠ t := hapart w hw t List.mem_cons_self
      simp only [Function.update_of_ne hwt]
      exact hbefore w hw
    · obtain rfl := List.mem_singleton.mp hw
      simp only [Function.update_self]
      exact ⟨Or.inl ⟨ht.2.1, rfl⟩, ht.2.2⟩
  · have hlast := hall t (hM ▸ List.mem_append_right _ List.mem_cons_self)
    have := ht.2.1
    omega

private theorem Ordered.advance {standing : τ → Standing ε} {pc : Option (GroupPc τ)} {r' : Nat}
    {X' C' : τ → Nat} (h : q.Ordered M r X C)
    (hround : InRound M r' X' C' ⟨standing, Function.update q.executor e pc⟩)
    (he : ∀ u, q.executor e ≠ some (.finishing u)) (hpc : ∀ u, pc ≠ some (.finishing u))
    (hstanding : ∀ u ∈ M, standing u = .executed ↔ q.standing u = .executed)
    (hchecking : ∀ rest, pc = some (.checking rest) → rest <:+ M) :
    Ordered M r' X' C' ⟨standing, Function.update q.executor e pc⟩ := by
  have hbefore : ∀ f u, Function.update q.executor e pc f = some (.finishing u) →
      q.executor f = some (.finishing u) := fun f u => executor_of_update (hpc u)
  refine ⟨hround, ?_, ?_, ?_, ?_⟩
  · intro f u hf
    have hold := h.finishing f u (hbefore f u hf)
    exact ⟨hold.1, (hstanding u hold.1).mpr hold.2⟩
  · intro u hu hst
    obtain ⟨f, hf⟩ := h.finisher u hu ((hstanding u hu).mp hst)
    have hne : f ≠ e := fun heq => he u (heq ▸ hf)
    exact ⟨f, by simp [hne, hf]⟩
  · exact fun f f' u hf hf' => h.unique f f' u (hbefore f u hf) (hbefore f' u hf')
  · intro f rest hf
    by_cases hfe : f = e
    · subst f
      exact hchecking rest (by simpa using hf)
    · exact h.checking f rest (by simpa [hfe] using hf)

private theorem Ordered.executed (h : q.Ordered M r X C) (ht : t ∈ M)
    (hstanding : q.standing t = .fresh) (hfree : q.executor e = none) :
    Ordered M r (fun u => X u + if t = u then 1 else 0) C
      ⟨Function.update q.standing t .executed,
        Function.update q.executor e (some (.finishing t))⟩ := by
  have hnone : ∀ f, q.executor f ≠ some (.finishing t) := by
    intro f hf
    have hst := (h.finishing f t hf).2
    rw [hstanding] at hst
    simp at hst
  refine ⟨h.inRound.executed hstanding hfree, ?_, ?_, ?_, ?_⟩
  · intro f u hf
    by_cases hfe : f = e
    · subst f
      simp only [Function.update_self, Option.some.injEq, GroupPc.finishing.injEq] at hf
      subst u
      exact ⟨ht, Function.update_self ..⟩
    · simp only [Function.update_of_ne hfe] at hf
      have hne : u ≠ t := fun heq => hnone f (heq ▸ hf)
      have hold := h.finishing f u hf
      exact ⟨hold.1, by simpa [hne] using hold.2⟩
  · intro u hu hst
    by_cases hut : u = t
    · exact ⟨e, by simp [hut]⟩
    · obtain ⟨f, hf⟩ := h.finisher u hu (by simpa [hut] using hst)
      have hne : f ≠ e := fun heq => by simp [heq, hfree] at hf
      exact ⟨f, by simp [hne, hf]⟩
  · intro f f' u hf hf'
    by_cases hut : u = t
    · subst u
      have honly : ∀ f, Function.update q.executor e (some (.finishing t)) f =
          some (.finishing t) → f = e := by
        intro f hf
        by_cases hfe : f = e
        · exact hfe
        · rw [Function.update_of_ne hfe] at hf
          exact absurd hf (hnone f)
      rw [honly f hf, honly f' hf']
    · have hne : ¬ t = u := fun heq => hut heq.symm
      have hold : ∀ f, Function.update q.executor e (some (.finishing t)) f =
          some (.finishing u) → q.executor f = some (.finishing u) :=
        fun f => executor_of_update (by simp [hne])
      exact h.unique f f' u (hold f hf) (hold f' hf')
  · exact fun f rest hf => h.checking f rest (executor_of_update (by simp) hf)

private theorem Ordered.finish (h : q.Ordered M r X C) (he : q.executor e = some (.finishing t)) :
    Ordered M r X C ⟨Function.update q.standing t .finished,
      Function.update q.executor e (some (.checking M))⟩ := by
  have hbefore : ∀ f u, Function.update q.executor e (some (.checking M)) f =
      some (.finishing u) → q.executor f = some (.finishing u) :=
    fun f u => executor_of_update (by simp)
  refine ⟨h.inRound.finish (h.finishing e t he).2 he, ?_, ?_, ?_, ?_⟩
  · intro f u hf
    have hold := h.finishing f u (hbefore f u hf)
    have hne : u ≠ t := by
      intro heq
      subst u
      have hfe := h.unique f e t (hbefore f t hf) he
      rw [hfe] at hf
      simp at hf
    exact ⟨hold.1, by simpa [hne] using hold.2⟩
  · intro u hu hst
    by_cases hut : u = t
    · simp [hut] at hst
    · obtain ⟨f, hf⟩ := h.finisher u hu (by simpa [hut] using hst)
      have hne : f ≠ e := by
        intro heq
        rw [heq, he] at hf
        exact hut (GroupPc.finishing.inj (Option.some.inj hf)).symm
      exact ⟨f, by simp [hne, hf]⟩
  · exact fun f f' u hf hf' => h.unique f f' u (hbefore f u hf) (hbefore f' u hf')
  · intro f rest hf
    by_cases hfe : f = e
    · subst f
      simp only [Function.update_self, Option.some.injEq, GroupPc.checking.injEq] at hf
      exact hf ▸ List.suffix_rfl
    · exact h.checking f rest (by simpa [hfe] using hf)

/-- An orderly step keeps the round in order. -/
theorem Ordered.step (hnodup : M.Nodup) (h : q.Ordered M r X C) (hs : q.Step M event q') :
    q'.Ordered M (r + event.begun) (fun u => X u + if event.event u = .executed then 1 else 0)
      (fun u => C u + event.calls u) := by
  cases hs with
  | own hevents =>
      apply h.congr
      · intro u hu
        rw [GroupEvent.event, if_neg (hevents u hu), Nat.add_zero]
      · exact fun u _ => rfl
  | @executed e t ht hstanding hfree =>
      apply (h.executed ht hstanding hfree).congr
      · intro u _
        by_cases htu : t = u <;> simp [GroupEvent.event, htu]
      · exact fun u _ => rfl
  | finish he => exact h.finish he
  | @isExecuted e t rest answer he _ hfalse =>
      have hsuffix : rest <:+ M := (List.suffix_cons t rest).trans (h.checking e _ he)
      have hnew := h.advance (InRound.isExecuted h he hfalse) (by simp [he])
        (by cases answer <;> simp) (fun u _ => Iff.rfl) fun us hus => by
          cases answer with
          | true =>
              simp only [if_true, Option.some.injEq, GroupPc.checking.injEq] at hus
              exact hus ▸ hsuffix
          | false => simp at hus
      exact hnew
  | @begins e t rest he hM hall hidle =>
      have hstanding : ∀ u ∈ M, Function.update q.standing t (.resetting e) u = .executed ↔
          q.standing u = .executed := by
        intro u hu
        by_cases hut : u = t
        · simp [hut, hall t (hut ▸ hu)]
        · simp [hut]
      have hround := InRound.begins (e := e) hnodup h.inRound hM hall hidle
      have hnew := h.advance hround (by simp [he]) (by simp) hstanding (by simp)
      exact hnew
  | @next e t u rest he =>
      obtain ⟨before, hM, _, _, ht, hrest⟩ := h.inRound.during he
      have hstanding : ∀ w ∈ M, Function.update (Function.update q.standing t .fresh) u
          (.resetting e) w = .executed ↔ q.standing w = .executed := by
        intro w _
        by_cases hwu : w = u
        · simp [hwu, (hrest u List.mem_cons_self).1]
        · by_cases hwt : w = t
          · subst w
            simp [hwu, ht.1]
          · simp [hwu, hwt]
      have hnew := h.advance (h.inRound.next hnodup he) (by simp [he]) (by simp) hstanding (by simp)
      exact hnew
  | @last e t he =>
      obtain ⟨before, hM, _, _, ht, _⟩ := h.inRound.during he
      have hstanding : ∀ w ∈ M, Function.update q.standing t .fresh w = .executed ↔
          q.standing w = .executed := by
        intro w _
        by_cases hwt : w = t
        · simp [hwt, ht.1]
        · simp [hwt]
      have hnew := h.advance (h.inRound.last hnodup he) (by simp [he]) (by simp) hstanding (by simp)
      exact hnew

end Steps

end Round

end TaskingFramework
