import TaskingFramework.Linux.LostWakeUp

/-!
# Waiting for the executors

`waitUntilEmpty` counts the wake-ups that it gets, one for each executor that is outside
`freeExecutors` when it begins. Its signaler remembers only one signal, so that the wake-ups of two
executors that enter `freeExecutors` before the waiting thread goes on are counted as one. The
waiting thread never returns early, and it is not left behind if it goes on between any two entries.
-/

namespace TaskingFramework.ExecutionModel

open Foundation

variable {n : Nat} {τ κ : Type*} {s t : ExecutionModel n τ κ}

/-- The executors outside `freeExecutors`. -/
def occupied (s : ExecutionModel n τ κ) : Nat := n - s.freeExecutors.length

/-- No executor leaves `freeExecutors` during the wait. -/
def KeepsFree (s : ExecutionModel n τ κ) : ExecutionAction n τ κ → Prop
  | .signal _ => s.waiter ≠ .outside → s.freeExecutors = []
  | _ => True

/-- An executor enters `freeExecutors` during the wait only if the waiting thread has gone on since
it was signalled before. -/
def Noticed (s : ExecutionModel n τ κ) : ExecutionAction n τ κ → Prop
  | .enlist _ => s.waiter ≠ .outside → s.emptySignal.signalled = false
  | _ => True

/-- The signals to the waiting thread that are not counted yet. -/
def underWay (s : ExecutionModel n τ κ) : Nat := if s.emptySignal.signalled then 1 else 0

/-- What holds of the wait in any run: no more wake-ups are counted than executors have entered. -/
structure Waits (s : ExecutionModel n τ κ) : Prop where
  parks : Parks s
  flagged : s.emptySignal.signalled = true → s.emptySignal.wakeUp = true
  idle : s.waiter = .outside → s.emptySignal.signalled = false
  waiting : ∀ k, s.waiter = .waiting k → 0 < k ∧ s.occupied + s.underWay ≤ k

/-- As many wake-ups are counted as executors have entered. -/
def Exact (s : ExecutionModel n τ κ) : Prop :=
  ∀ k, s.waiter = .waiting k → s.occupied + s.underWay = k

private theorem waits_init : Waits (init : ExecutionModel n τ κ) where
  parks := inv_init
  flagged := nofun
  idle _ := rfl
  waiting := nofun

private theorem exact_init : Exact (init : ExecutionModel n τ κ) := nofun

private theorem Parks.length_le (h : Parks s) : s.freeExecutors.length ≤ n := by
  have hle := h.free_nodup.length_le_card
  rwa [Fintype.card_fin] at hle

private theorem Parks.all_free_iff (h : Parks s) : (∀ e, e ∈ s.freeExecutors) ↔ s.occupied = 0 := by
  unfold occupied
  constructor
  · intro hall
    have hsub : List.finRange n ⊆ s.freeExecutors := fun e _ => hall e
    have hle := ((List.nodup_finRange n).subperm hsub).length_le
    rw [List.length_finRange] at hle
    omega
  · intro hnone e
    have hlength : s.freeExecutors.length = n := by
      have hle := h.length_le
      omega
    have hcard : s.freeExecutors.toFinset.card = Fintype.card (Fin n) := by
      rw [List.toFinset_card_of_nodup h.free_nodup, hlength, Fintype.card_fin]
    exact List.mem_toFinset.mp (Finset.eq_univ_of_card _ hcard ▸ Finset.mem_univ e)

private theorem occupied_of_eq (hfree : t.freeExecutors = s.freeExecutors) :
    t.occupied = s.occupied := by
  unfold occupied
  rw [hfree]

private theorem underWay_of_eq (hsignal : t.emptySignal = s.emptySignal) : t.underWay = s.underWay := by
  unfold underWay
  rw [hsignal]

private theorem Parks.occupied_cons {e : Fin n} (h : Parks t)
    (hfree : t.freeExecutors = e :: s.freeExecutors) :
    t.occupied + 1 = s.occupied := by
  have hle := h.length_le
  unfold occupied
  rw [hfree, List.length_cons] at *
  omega

private theorem Waits.counted (h : Waits s) (hsignalled : s.emptySignal.signalled = true) (k : Nat) :
    (if s.emptySignal.wakeUp then k - 1 else k) = k - 1 := by
  rw [h.flagged hsignalled, if_pos rfl]

variable [DecidableEq τ] [DecidableEq κ] {a : ExecutionAction n τ κ}

/-- What an action does to the wait. -/
inductive Notices (s t : ExecutionModel n τ κ) : ExecutionAction n τ κ → Prop where
  | same {a : ExecutionAction n τ κ} (hother : ¬ (a = .waitUntilEmpty ∨ a = .resumeWaiter))
      (hfree : t.freeExecutors = s.freeExecutors)
      (hwaiter : t.waiter = s.waiter) (hsignal : t.emptySignal = s.emptySignal) : Notices s t a
  | leave {c : κ ⊕ Fin n} {e : Fin n} {rest : List (Fin n)} (hfree : s.freeExecutors = e :: rest)
      (hwaiter : t.waiter = s.waiter) (hsignal : t.emptySignal = s.emptySignal) :
      Notices s t (.signal c)
  | enter {e : Fin n} (hfree : t.freeExecutors = e :: s.freeExecutors)
      (hwaiter : t.waiter = s.waiter)
      (hsignal : t.emptySignal = s.emptySignal.signal (s.waiter ≠ .outside)) :
      Notices s t (.enlist e)
  | begin (hfree : t.freeExecutors = s.freeExecutors) (hwaiter : s.waiter = .outside)
      (hwaits : t.waiter = if s.occupied = 0 then .outside else .waiting s.occupied)
      (hsignal : t.emptySignal = s.emptySignal) : Notices s t .waitUntilEmpty
  | resume {k : Nat} (hfree : t.freeExecutors = s.freeExecutors) (hwaiter : s.waiter = .waiting k)
      (hsignalled : s.emptySignal.signalled = true)
      (hwaits : t.waiter = if (if s.emptySignal.wakeUp then k - 1 else k) = 0 then .outside
        else .waiting (if s.emptySignal.wakeUp then k - 1 else k))
      (hsignal : t.emptySignal = ⟨false, false⟩) : Notices s t .resumeWaiter

private theorem notices_of_step (hstep : Step s a t) : Notices s t a := by
  cases step_acts hstep with
  | queue | request | drop | wakeUp | wait | resume | isPending | handled | nextTask | noTask
  | executed =>
      exact .same (by simp) rfl rfl rfl
  | choose _ hfree => exact .leave hfree rfl rfl
  | enlist => exact .enter rfl rfl rfl
  | waitUntilEmpty hwaiter => exact .begin rfl hwaiter rfl rfl
  | resumeWaiter hwaiter hsignalled => exact .resume rfl hwaiter hsignalled rfl rfl

private theorem Waits.step (h : Waits s) (hkeep : KeepsFree s a) (hstep : Step s a t) : Waits t := by
  have hparks := h.parks.step hstep
  cases notices_of_step hstep with
  | same hother hfree hwaiter hsignal =>
      refine ⟨hparks, ?_, ?_, ?_⟩
      · rw [hsignal]
        exact h.flagged
      · rw [hsignal, hwaiter]
        exact h.idle
      · rw [occupied_of_eq hfree, underWay_of_eq hsignal, hwaiter]
        exact h.waiting
  | leave hfree hwaiter hsignal =>
      have houtside : s.waiter = .outside := by
        by_contra hwaits
        simp [hkeep hwaits] at hfree
      refine ⟨hparks, ?_, ?_, ?_⟩
      · rw [hsignal]
        exact h.flagged
      · rw [hsignal, hwaiter]
        exact h.idle
      · rw [hwaiter, houtside]
        exact nofun
  | enter hfree hwaiter hsignal =>
      have hoccupied := hparks.occupied_cons hfree
      refine ⟨hparks, fun _ => by rw [hsignal]; rfl, ?_, ?_⟩
      · intro houtside
        rw [hwaiter] at houtside
        simp [hsignal, Signaler.signal, houtside, h.idle houtside]
      · intro k hk
        rw [hwaiter] at hk
        have hunderWay : t.underWay = 1 := by simp [underWay, hsignal, Signaler.signal, hk]
        have hbound := h.waiting k hk
        omega
  | begin hfree hwaiter hwaits hsignal =>
      have hnone : s.underWay = 0 := by simp [underWay, h.idle hwaiter]
      refine ⟨hparks, ?_, ?_, ?_⟩
      · rw [hsignal]
        exact h.flagged
      · rw [hsignal]
        exact fun _ => h.idle hwaiter
      · intro k hk
        rw [occupied_of_eq hfree, underWay_of_eq hsignal, hnone]
        rw [hwaits] at hk
        split at hk
        · simp at hk
        · simp only [WaiterPc.waiting.injEq] at hk
          omega
  | @resume k hfree hwaiter hsignalled hwaits hsignal =>
      have hnone : t.underWay = 0 := by simp [underWay, hsignal]
      have hone : s.underWay = 1 := by simp [underWay, hsignalled]
      have hbound := h.waiting k hwaiter
      rw [h.counted hsignalled] at hwaits
      refine ⟨hparks, by simp [hsignal], by simp [hsignal], ?_⟩
      intro m hm
      rw [occupied_of_eq hfree, hnone]
      rw [hwaits] at hm
      split at hm
      · simp at hm
      · simp only [WaiterPc.waiting.injEq] at hm
        omega

private theorem Exact.step (hexact : Exact s) (h : Waits s) (hkeep : KeepsFree s a)
    (hnoticed : Noticed s a) (hstep : Step s a t) : Exact t := by
  intro k hk
  cases notices_of_step hstep with
  | same hother hfree hwaiter hsignal =>
      rw [occupied_of_eq hfree, underWay_of_eq hsignal]
      exact hexact k (hwaiter ▸ hk)
  | leave hfree hwaiter hsignal =>
      rw [hwaiter] at hk
      simp [hkeep (by simp [hk])] at hfree
  | enter hfree hwaiter hsignal =>
      rw [hwaiter] at hk
      have hoccupied := (h.parks.step hstep).occupied_cons hfree
      have hunderWay : t.underWay = 1 := by simp [underWay, hsignal, Signaler.signal, hk]
      have hnone : s.underWay = 0 := by simp [underWay, hnoticed (by simp [hk])]
      have hcount := hexact k hk
      omega
  | begin hfree hwaiter hwaits hsignal =>
      have hnone : s.underWay = 0 := by simp [underWay, h.idle hwaiter]
      rw [occupied_of_eq hfree, underWay_of_eq hsignal, hnone]
      rw [hwaits] at hk
      split at hk
      · simp at hk
      · simpa using hk
  | @resume l hfree hwaiter hsignalled hwaits hsignal =>
      have hnone : t.underWay = 0 := by simp [underWay, hsignal]
      have hone : s.underWay = 1 := by simp [underWay, hsignalled]
      have hcount := hexact l hwaiter
      rw [h.counted hsignalled] at hwaits
      rw [occupied_of_eq hfree, hnone]
      rw [hwaits] at hk
      split at hk
      · simp at hk
      · simp only [WaiterPc.waiting.injEq] at hk
        omega

private theorem Waits.returns (h : Waits s) (hstep : Step s a t)
    (hcall : a = .waitUntilEmpty ∨ a = .resumeWaiter)
    (houtside : t.waiter = .outside) (e : Fin n) : e ∈ t.freeExecutors := by
  have hparks := h.parks.step hstep
  refine hparks.all_free_iff.mpr ?_ e
  cases notices_of_step hstep with
  | same hother => exact absurd hcall hother
  | leave | enter => simp at hcall
  | begin hfree hwaiter hwaits hsignal =>
      rw [occupied_of_eq hfree]
      by_contra hne
      simp [hwaits, hne] at houtside
  | @resume k hfree hwaiter hsignalled hwaits hsignal =>
      have hone : s.underWay = 1 := by simp [underWay, hsignalled]
      have hbound := h.waiting k hwaiter
      rw [occupied_of_eq hfree]
      rw [hwaits, h.counted hsignalled] at houtside
      split at houtside
      · omega
      · simp at houtside

/-- While no executor leaves `freeExecutors` during the wait and every wake-up is noticed before the
next one comes, `waitUntilEmpty` only returns with all executors in `freeExecutors`, and when all of
them are in it, the waiting thread is about to go on. -/
theorem run_waitUntilEmpty {acts : List (ExecutionAction n τ κ)}
    (h : Run (fun s a t => Step s a t ∧ KeepsFree s a ∧ Noticed s a) init acts s) :
    (∀ a t, Step s a t → a = .waitUntilEmpty ∨ a = .resumeWaiter → t.waiter = .outside →
      ∀ e, e ∈ t.freeExecutors) ∧
    ((∀ e, e ∈ s.freeExecutors) → s.waiter ≠ .outside →
      s.emptySignal.wakeUp = true ∧ s.emptySignal.signalled = true) := by
  have hrun : Waits s ∧ Exact s :=
    h.invariant (I := fun s => Waits s ∧ Exact s) ⟨waits_init, exact_init⟩ fun _ _ _ hw hs =>
      ⟨hw.1.step hs.2.1 hs.1, hw.2.step hw.1 hs.2.1 hs.2.2 hs.1⟩
  refine ⟨fun a t hstep hcall houtside => hrun.1.returns hstep hcall houtside, fun hall hwaits => ?_⟩
  cases hw : s.waiter with
  | outside => exact absurd hw hwaits
  | waiting k =>
      have hnone := hrun.1.parks.all_free_iff.mp hall
      have hpos := (hrun.1.waiting k hw).1
      have hcount := hrun.2 k hw
      have hsignalled : s.emptySignal.signalled = true := by
        by_contra hno
        have hnothing : s.underWay = 0 := if_neg hno
        omega
      exact ⟨hrun.1.flagged hsignalled, hsignalled⟩

/-- Two executors enter `freeExecutors`, and the waiting thread goes on in between. Behind the
second one it leaves the wait. -/
theorem run_waitUntilEmpty_two :
    ∃ (acts : List (ExecutionAction 2 Nat Unit)) (s t : ExecutionModel 2 Nat Unit),
      Run (fun s a t => Step s a t ∧ KeepsFree s a ∧ Noticed s a) init acts s ∧
        s.waiter = .waiting 1 ∧ s.emptySignal.wakeUp = true ∧ Step s .resumeWaiter t ∧
        t.waiter = .outside ∧ ∀ e, e ∈ t.freeExecutors := by
  have hstart : Run (fun (s : ExecutionModel 2 Nat Unit) a t =>
      s.step a = some t ∧ KeepsFree s a ∧ Noticed s a) init
      [.queue (.inl ()) 0, .signal (.inl ()), .wakeUp (.inl ()), .queue (.inl ()) 1, .signal (.inl ()),
        .wakeUp (.inl ())] _ :=
    (((((Run.start.next ⟨rfl, trivial, trivial⟩).next ⟨rfl, fun h => absurd rfl h, trivial⟩).next
      ⟨rfl, trivial, trivial⟩).next ⟨rfl, trivial, trivial⟩).next
      ⟨rfl, fun h => absurd rfl h, trivial⟩).next ⟨rfl, trivial, trivial⟩
  have hworked := hstart.append (m := [.resume 1, .resume 0, .waitUntilEmpty, .isPending 1 false,
    .nextTask 1 (some 0), .isPending 0 false, .nextTask 0 (some 1), .executed 1, .isPending 1 false,
    .nextTask 1 none]) (Run.and (run_foldlM.mpr rfl) (by simp [KeepsFree, Noticed]))
  have hfirst := hworked.next (i := ExecutionAction.enlist 1) ⟨rfl, trivial, fun _ => rfl⟩
  have hrun := hfirst.append (m := [.resumeWaiter, .executed 0, .isPending 0 false, .nextTask 0 none])
    (Run.and (run_foldlM.mpr rfl) (by simp [KeepsFree, Noticed]))
  have hboth := hrun.next (i := ExecutionAction.enlist 0) ⟨rfl, trivial, fun _ => rfl⟩
  obtain ⟨hreturns, hnoticed⟩ := run_waitUntilEmpty hboth
  exact ⟨_, _, _, hboth, rfl, (hnoticed (by decide) (by decide)).1, rfl, rfl,
    hreturns .resumeWaiter _ rfl (Or.inr rfl) rfl⟩

/-- Two executors enter `freeExecutors` before the waiting thread goes on: it counts one of them and
waits for ever. -/
theorem wakeUps_merged :
    ∃ (acts : List (ExecutionAction 2 Nat Unit)) (s : ExecutionModel 2 Nat Unit),
      Run (fun s a t => Step s a t ∧ KeepsFree s a) init acts s ∧ s.waiter = .waiting 1 ∧
        (∀ e, e ∈ s.freeExecutors) ∧ s.emptySignal.wakeUp = false ∧ s.runQueue = [] := by
  have hstart : Run (fun (s : ExecutionModel 2 Nat Unit) a t => s.step a = some t ∧ KeepsFree s a) init
      [.queue (.inl ()) 0, .signal (.inl ()), .wakeUp (.inl ()), .queue (.inl ()) 1, .signal (.inl ()),
        .wakeUp (.inl ())] _ :=
    (((((Run.start.next ⟨rfl, trivial⟩).next ⟨rfl, fun h => absurd rfl h⟩).next ⟨rfl, trivial⟩).next
      ⟨rfl, trivial⟩).next ⟨rfl, fun h => absurd rfl h⟩).next ⟨rfl, trivial⟩
  have hrun := hstart.append (m := [.resume 1, .resume 0, .waitUntilEmpty, .isPending 1 false,
    .nextTask 1 (some 0), .isPending 0 false, .nextTask 0 (some 1), .executed 1, .executed 0,
    .isPending 1 false, .isPending 0 false, .nextTask 1 none, .nextTask 0 none, .enlist 1, .enlist 0,
    .resumeWaiter]) (Run.and (run_foldlM.mpr rfl) (by simp [KeepsFree]))
  exact ⟨_, _, hrun, rfl, by decide, rfl, rfl⟩

end TaskingFramework.ExecutionModel
