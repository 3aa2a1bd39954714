import TaskingFramework.Linux.ExecutionModel
import Mathlib.Data.Fintype.Sum

/-!
# Requests to the executors

`signal` drops a request when it finds no executor in `freeExecutors`. That is harmless as long as
some executor will still call `nextTask`, but an executor whose `nextTask` has returned null and
that has not entered `freeExecutors` yet will not. The invariant below says that a queued task
always has an activating thread or such an executor behind it, for runs that never drop a request
while every executor stands in that window.
-/

namespace TaskingFramework.ExecutionModel

open Foundation

variable {n : Nat} {τ κ : Type*}

/-- An executor outside `freeExecutors` that has not been told yet that the run queue is empty. -/
def WillFetch (s : ExecutionModel n τ κ) (e : Fin n) : Prop :=
  e ∉ s.freeExecutors ∧ s.pc e ≠ .closing

/-- The executor is in `signaler.wait()` or about to enter it. -/
def Parked (s : ExecutionModel n τ κ) (e : Fin n) : Prop :=
  s.pc e = .waiting ∨ s.pc e = .enlisted

instance [DecidableEq τ] (s : ExecutionModel n τ κ) (e : Fin n) : Decidable (s.Parked e) :=
  inferInstanceAs (Decidable (s.pc e = .waiting ∨ s.pc e = .enlisted))

/-- A wake-up that is under way to an executor. -/
def Targeted (s : ExecutionModel n τ κ) (e : Fin n) : Prop :=
  (∃ c, s.caller c = .chosen e) ∨ (s.signaler e).wakeUp = true

structure Inv (s : ExecutionModel n τ κ) : Prop where
  free_nodup : s.freeExecutors.Nodup
  free_parked : ∀ e ∈ s.freeExecutors, s.Parked e
  free_not_targeted : ∀ e ∈ s.freeExecutors, ¬ s.Targeted e
  targeted_parked : ∀ e, s.Targeted e → s.Parked e
  parked_reached : ∀ e, s.Parked e → e ∈ s.freeExecutors ∨ s.Targeted e
  chosen_unique : ∀ c d e, s.caller c = .chosen e → s.caller d = .chosen e → c = d
  chosen_not_flagged : ∀ c e, s.caller c = .chosen e → (s.signaler e).wakeUp = false
  served : s.runQueue ≠ [] → (∃ c, s.caller c = .queued) ∨ ∃ e, s.WillFetch e

/-- The step does not drop the request of an activating thread while all executors have been told
that the run queue is empty and none is back in `freeExecutors`. -/
def Heard (s : ExecutionModel n τ κ) : ExecutionAction n τ κ → Prop
  | .signal c =>
      s.caller c = .queued → s.freeExecutors = [] → s.runQueue ≠ [] → ∃ e, s.pc e ≠ .closing
  | _ => True

theorem inv_init : Inv (init : ExecutionModel n τ κ) where
  free_nodup := List.nodup_reverse.mpr (List.nodup_finRange n)
  free_parked := by simp [Parked, init]
  free_not_targeted := by simp [Targeted, init]
  targeted_parked := by simp [Targeted, init]
  parked_reached := by simp [init]
  chosen_unique := by simp [init]
  chosen_not_flagged := by simp [init]
  served := by simp [init]

/-- What the invariant says about the executors, apart from the run queue. -/
def Parks (s : ExecutionModel n τ κ) : Prop := Inv { s with runQueue := [] }

section Preservation

variable {s t : ExecutionModel n τ κ} {e : Fin n}

theorem Inv.parks (h : Inv s) : Parks s :=
  ⟨h.1, h.2, h.3, h.4, h.5, h.6, h.7, fun hq => absurd rfl hq⟩

private theorem Parks.inv (h : Parks s)
    (hserved : s.runQueue ≠ [] → (∃ c, s.caller c = .queued) ∨ ∃ e, s.WillFetch e) : Inv s :=
  ⟨h.1, h.2, h.3, h.4, h.5, h.6, h.7, hserved⟩

private theorem Parks.not_free (h : Parks s) (hp : ¬ s.Parked e) : e ∉ s.freeExecutors :=
  fun hf => hp (h.free_parked e hf)

private theorem Parks.congr (h : Parks s) (hfree : t.freeExecutors = s.freeExecutors)
    (hpc : t.pc = s.pc)
    (hsignaler : t.signaler = s.signaler) (hcaller : t.caller = s.caller) : Parks t := by
  cases t
  cases hfree
  cases hpc
  cases hsignaler
  cases hcaller
  exact ⟨h.1, h.2, h.3, h.4, h.5, h.6, h.7, fun hq => absurd rfl hq⟩

private theorem Parks.setPc (h : Parks s) {pc : ExecutorPc τ}
    (hpark : s.Parked e ↔ pc = .waiting ∨ pc = .enlisted) : Parks (s.setPc e pc) := by
  have hparked : ∀ f, s.Parked f ↔ (s.setPc e pc).Parked f := by
    intro f
    by_cases hfe : f = e
    · subst f
      simpa [Parked, ExecutionModel.setPc] using hpark
    · simp [Parked, ExecutionModel.setPc, hfe]
  exact
    { free_nodup := h.free_nodup
      free_parked := fun f hf => (hparked f).mp (h.free_parked f hf)
      free_not_targeted := h.free_not_targeted
      targeted_parked := fun f hf => (hparked f).mp (h.targeted_parked f hf)
      parked_reached := fun f hf => h.parked_reached f ((hparked f).mpr hf)
      chosen_unique := h.chosen_unique
      chosen_not_flagged := h.chosen_not_flagged
      served := fun hq => absurd rfl hq }

private theorem willFetch_setPc {f : Fin n} {pc : ExecutorPc τ} (hpc : pc ≠ .closing)
    (hf : s.WillFetch f) :
    (s.setPc e pc).WillFetch f := by
  refine ⟨hf.1, ?_⟩
  by_cases hfe : f = e
  · simpa [ExecutionModel.setPc, hfe] using hpc
  · simpa [ExecutionModel.setPc, hfe] using hf.2

private theorem Parks.resume (h : Parks s) (hpc : s.pc e = .waiting) :
    Parks ((s.setSignaler e ⟨false, false⟩).setPc e
      (if (s.signaler e).wakeUp then .checking else .waiting)) := by
  have htarget : ∀ f,
      ((s.setSignaler e ⟨false, false⟩).setPc e
        (if (s.signaler e).wakeUp then .checking else .waiting)).Targeted f →
          s.Targeted f ∧ (f = e → (s.signaler e).wakeUp = false) := by
    intro f ht
    rcases ht with ⟨d, hd⟩ | ht
    · exact ⟨Or.inl ⟨d, hd⟩, fun he => he ▸ h.chosen_not_flagged d f hd⟩
    · by_cases hfe : f = e
      · simp [hfe, ExecutionModel.setPc, setSignaler] at ht
      · exact ⟨Or.inr (by simpa [ExecutionModel.setPc, setSignaler, hfe] using ht),
          fun he => absurd he hfe⟩
  have hstay : ∀ f, s.Parked f → (f = e → (s.signaler e).wakeUp = false) →
      ((s.setSignaler e ⟨false, false⟩).setPc e
        (if (s.signaler e).wakeUp then .checking else .waiting)).Parked f := by
    intro f hf hw
    by_cases hfe : f = e
    · simp [Parked, ExecutionModel.setPc, hfe, hw hfe]
    · simpa [Parked, ExecutionModel.setPc, setSignaler, hfe] using hf
  refine ⟨h.free_nodup, ?_, fun f hm ht => h.free_not_targeted f hm (htarget f ht).1, ?_, ?_,
    h.chosen_unique, ?_, fun hq => absurd rfl hq⟩
  · intro f hm
    refine hstay f (h.free_parked f hm) fun he => Bool.eq_false_iff.mpr fun hw => ?_
    exact h.free_not_targeted f hm (Or.inr (he ▸ hw))
  · intro f ht
    exact hstay f (h.targeted_parked f (htarget f ht).1) (htarget f ht).2
  · intro f hf
    have hbefore : s.Parked f ∧ (f = e → (s.signaler e).wakeUp = false) := by
      by_cases hfe : f = e
      · subst f
        cases hw : (s.signaler e).wakeUp with
        | true => simp [Parked, ExecutionModel.setPc, hw] at hf
        | false => exact ⟨Or.inl hpc, fun _ => rfl⟩
      · exact ⟨by simpa [Parked, ExecutionModel.setPc, setSignaler, hfe] using hf,
          fun he => absurd he hfe⟩
    rcases h.parked_reached f hbefore.1 with hm | ⟨d, hd⟩ | hw
    · exact Or.inl hm
    · exact Or.inr (Or.inl ⟨d, hd⟩)
    · have hfe : f ≠ e := fun he => by simp [he, hbefore.2 he] at hw
      exact Or.inr (Or.inr (by simpa [ExecutionModel.setPc, setSignaler, hfe] using hw))
  · intro d f hd
    by_cases hfe : f = e
    · simp [hfe, ExecutionModel.setPc, setSignaler]
    · simpa [ExecutionModel.setPc, setSignaler, hfe] using h.chosen_not_flagged d f hd

private theorem Parks.enlist (h : Parks s) (hpc : s.pc e = .closing) (empty : Signaler) :
    Parks { s.setPc e .enlisted with freeExecutors := e :: s.freeExecutors, emptySignal := empty } := by
  have hp : ¬ s.Parked e := by simp [Parked, hpc]
  have hstay : ∀ f, s.Parked f → (s.setPc e .enlisted).Parked f := by
    intro f hf
    have hfe : f ≠ e := fun he => hp (he ▸ hf)
    simpa [Parked, ExecutionModel.setPc, hfe] using hf
  refine ⟨List.nodup_cons.mpr ⟨h.not_free hp, h.free_nodup⟩, ?_, ?_,
    fun f ht => hstay f (h.targeted_parked f ht), ?_, h.chosen_unique, h.chosen_not_flagged,
    fun hq => absurd rfl hq⟩
  · intro f hm
    rcases List.mem_cons.mp hm with hfe | hm
    · exact Or.inr (by simp [ExecutionModel.setPc, hfe])
    · exact hstay f (h.free_parked f hm)
  · intro f hm ht
    rcases List.mem_cons.mp hm with hfe | hm
    · exact hp (hfe ▸ h.targeted_parked f ht)
    · exact h.free_not_targeted f hm ht
  · intro f hf
    by_cases hfe : f = e
    · exact Or.inl (hfe ▸ List.mem_cons_self)
    · have hf : s.Parked f := by simpa [Parked, ExecutionModel.setPc, hfe] using hf
      rcases h.parked_reached f hf with hm | ht
      · exact Or.inl (List.mem_cons_of_mem e hm)
      · exact Or.inr ht

variable [DecidableEq κ] {c : κ ⊕ Fin n}

private theorem targeted_setCaller {pc : CallerPc n} {f : Fin n} (hc : ∀ f, s.caller c ≠ .chosen f)
    (ht : s.Targeted f) : (s.setCaller c pc).Targeted f := by
  rcases ht with ⟨d, hd⟩ | hw
  · have hdc : d ≠ c := fun he => hc f (he ▸ hd)
    exact Or.inl ⟨d, by simpa [setCaller, hdc] using hd⟩
  · exact Or.inr hw

private theorem Parks.setCaller (h : Parks s) {pc : CallerPc n} (hc : ∀ f, s.caller c ≠ .chosen f)
    (hpc : ∀ f, pc ≠ .chosen f) : Parks (s.setCaller c pc) := by
  have hchosen : ∀ d f, (s.setCaller c pc).caller d = .chosen f → s.caller d = .chosen f := by
    intro d f hd
    by_cases hdc : d = c
    · subst d
      exact absurd (by simpa [ExecutionModel.setCaller] using hd) (hpc f)
    · simpa [ExecutionModel.setCaller, hdc] using hd
  have htarget : ∀ f, (s.setCaller c pc).Targeted f → s.Targeted f := by
    intro f hf
    rcases hf with ⟨d, hd⟩ | hf
    · exact Or.inl ⟨d, hchosen d f hd⟩
    · exact Or.inr hf
  exact
    { free_nodup := h.free_nodup
      free_parked := h.free_parked
      free_not_targeted := fun f hf ht => h.free_not_targeted f hf (htarget f ht)
      targeted_parked := fun f hf => h.targeted_parked f (htarget f hf)
      parked_reached := fun f hf => (h.parked_reached f hf).imp_right (targeted_setCaller hc)
      chosen_unique := fun d d' f hd hd' =>
        h.chosen_unique d d' f (hchosen d f hd) (hchosen d' f hd')
      chosen_not_flagged := fun d f hd => h.chosen_not_flagged d f (hchosen d f hd)
      served := fun hq => absurd rfl hq }

private theorem queued_setCaller {d : κ ⊕ Fin n} {pc : CallerPc n} (hc : s.caller c ≠ .queued)
    (hd : s.caller d = .queued) : (s.setCaller c pc).caller d = .queued := by
  have hdc : d ≠ c := fun he => hc (he ▸ hd)
  simpa [ExecutionModel.setCaller, hdc] using hd

private theorem Parks.choose (h : Parks s) {rest : List (Fin n)} (hc : ∀ f, s.caller c ≠ .chosen f)
    (hf : s.freeExecutors = e :: rest) :
    Parks { s.setCaller c (.chosen e) with freeExecutors := rest } := by
  have hnd : (e :: rest).Nodup := hf ▸ h.free_nodup
  have hfree : ∀ f ∈ rest, f ∈ s.freeExecutors := fun f hm => hf ▸ List.mem_cons_of_mem e hm
  have he : e ∈ s.freeExecutors := hf ▸ List.mem_cons_self
  have hnew : ∀ d f, (s.setCaller c (.chosen e)).caller d = .chosen f →
      (d = c ∧ f = e) ∨ (d ≠ c ∧ s.caller d = .chosen f) := by
    intro d f hd
    by_cases hdc : d = c
    · subst d
      exact Or.inl ⟨rfl, by simpa [ExecutionModel.setCaller, eq_comm] using hd⟩
    · exact Or.inr ⟨hdc, by simpa [ExecutionModel.setCaller, hdc] using hd⟩
  have hold : ∀ d, s.caller d ≠ .chosen e := fun d hd => h.free_not_targeted e he (Or.inl ⟨d, hd⟩)
  have htarget : ∀ f, (s.setCaller c (.chosen e)).Targeted f → f = e ∨ s.Targeted f := by
    intro f ht
    rcases ht with ⟨d, hd⟩ | ht
    · rcases hnew d f hd with ⟨_, hfe⟩ | ⟨_, hd⟩
      · exact Or.inl hfe
      · exact Or.inr (Or.inl ⟨d, hd⟩)
    · exact Or.inr (Or.inr ht)
  refine ⟨(List.nodup_cons.mp hnd).2, fun f hm => h.free_parked f (hfree f hm), ?_, ?_, ?_, ?_,
    ?_, fun hq => absurd rfl hq⟩
  · intro f hm ht
    rcases htarget f ht with hfe | ht
    · exact (List.nodup_cons.mp hnd).1 (hfe ▸ hm)
    · exact h.free_not_targeted f (hfree f hm) ht
  · intro f ht
    rcases htarget f ht with hfe | ht
    · exact hfe ▸ h.free_parked e he
    · exact h.targeted_parked f ht
  · intro f hp
    rcases h.parked_reached f hp with hm | ht
    · rcases List.mem_cons.mp (hf ▸ hm) with hfe | hm
      · exact Or.inr (Or.inl ⟨c, by simp [ExecutionModel.setCaller, hfe]⟩)
      · exact Or.inl hm
    · exact Or.inr (targeted_setCaller hc ht)
  · intro d d' f hd hd'
    rcases hnew d f hd with ⟨hdc, hfe⟩ | ⟨_, hd⟩ <;> rcases hnew d' f hd' with ⟨hdc', hfe'⟩ | ⟨_, hd'⟩
    · exact hdc.trans hdc'.symm
    · exact absurd (hfe ▸ hd') (hold d')
    · exact absurd (hfe' ▸ hd) (hold d)
    · exact h.chosen_unique d d' f hd hd'
  · intro d f hd
    rcases hnew d f hd with ⟨_, hfe⟩ | ⟨_, hd⟩
    · rw [hfe]
      exact Bool.eq_false_iff.mpr fun hw => h.free_not_targeted e he (Or.inr hw)
    · exact h.chosen_not_flagged d f hd

private theorem Parks.notify (h : Parks s) (hc : s.caller c = .chosen e) (waits : Bool) :
    Parks ((s.setSignaler e ((s.signaler e).signal waits)).setCaller c .idle) := by
  have htarget : ∀ f,
      ((s.setSignaler e ((s.signaler e).signal waits)).setCaller c .idle).Targeted f →
        s.Targeted f := by
    intro f ht
    rcases ht with ⟨d, hd⟩ | ht
    · by_cases hdc : d = c
      · simp [hdc, ExecutionModel.setCaller] at hd
      · exact Or.inl ⟨d, by simpa [ExecutionModel.setCaller, setSignaler, hdc] using hd⟩
    · by_cases hfe : f = e
      · exact Or.inl ⟨c, hfe ▸ hc⟩
      · exact Or.inr (by simpa [ExecutionModel.setCaller, setSignaler, hfe] using ht)
  refine ⟨h.free_nodup, h.free_parked, fun f hm ht => h.free_not_targeted f hm (htarget f ht),
    fun f ht => h.targeted_parked f (htarget f ht), ?_, ?_, ?_, fun hq => absurd rfl hq⟩
  · intro f hp
    rcases h.parked_reached f hp with hm | ⟨d, hd⟩ | hw
    · exact Or.inl hm
    · by_cases hfe : f = e
      · exact Or.inr (Or.inr (by simp [ExecutionModel.setCaller, setSignaler, Signaler.signal, hfe]))
      · have hdc : d ≠ c := fun he => hfe (by simpa [he, hc, eq_comm] using hd)
        exact Or.inr (Or.inl ⟨d, by simpa [ExecutionModel.setCaller, setSignaler, hdc] using hd⟩)
    · refine Or.inr (Or.inr ?_)
      by_cases hfe : f = e
      · simp [ExecutionModel.setCaller, setSignaler, Signaler.signal, hfe]
      · simpa [ExecutionModel.setCaller, setSignaler, hfe] using hw
  · intro d d' f hd hd'
    by_cases hdc : d = c
    · simp [hdc, ExecutionModel.setCaller] at hd
    by_cases hdc' : d' = c
    · simp [hdc', ExecutionModel.setCaller] at hd'
    simp only [ExecutionModel.setCaller, setSignaler, Function.update_of_ne hdc,
      Function.update_of_ne hdc'] at hd hd'
    exact h.chosen_unique d d' f hd hd'
  · intro d f hd
    by_cases hdc : d = c
    · simp [hdc, ExecutionModel.setCaller] at hd
    simp only [ExecutionModel.setCaller, setSignaler, Function.update_of_ne hdc] at hd
    have hfe : f ≠ e := fun he => hdc (h.chosen_unique d c e (he ▸ hd) hc)
    simpa [ExecutionModel.setCaller, setSignaler, hfe] using h.chosen_not_flagged d f hd

end Preservation

variable [DecidableEq τ] [DecidableEq κ]

section Steps

variable {s t : ExecutionModel n τ κ} {a : ExecutionAction n τ κ}

/-- The executors and the callers keep to the protocol in every step, heard or not. -/
theorem Parks.step (h : Parks s) (hstep : Step s a t) : Parks t := by
  cases step_acts hstep with
  | queue hc => exact (h.setCaller (by simp [hc]) (by simp)).congr rfl rfl rfl rfl
  | request hc => exact h.setCaller (by simp [hc]) (by simp)
  | choose hc hfree => exact h.choose (fun f hf => by simp [hf] at hc) hfree
  | drop hc _ => exact h.setCaller (fun f hf => by simp [hf] at hc) (by simp)
  | wakeUp hc _ => exact h.notify hc _
  | wait hpc => exact h.setPc (by simp [Parked, hpc])
  | resume hpc _ => exact h.resume hpc
  | @isPending e pending hpc =>
      exact h.setPc (iff_of_false (by simp [Parked, hpc]) (by cases pending <;> simp))
  | handled hpc _ => exact h.setPc (iff_of_false (by simp [Parked, hpc]) (by simp))
  | nextTask hpc _ =>
      exact (h.setPc (iff_of_false (by simp [Parked, hpc]) (by simp))).congr rfl rfl rfl rfl
  | noTask hpc _ => exact h.setPc (iff_of_false (by simp [Parked, hpc]) (by simp))
  | executed hpc _ => exact h.setPc (iff_of_false (by simp [Parked, hpc]) (by simp))
  | enlist hpc => exact h.enlist hpc _
  | waitUntilEmpty | resumeWaiter => exact h.congr rfl rfl rfl rfl

private theorem Inv.served_step (h : Inv s) (ha : Heard s a) (hstep : Step s a t)
    (hq : t.runQueue ≠ []) :
    (∃ c, t.caller c = .queued) ∨ ∃ e, t.WillFetch e := by
  have hfetches : ∀ {e : Fin n} {pc : ExecutorPc τ}, ¬ s.Parked e → pc ≠ .closing →
      (s.setPc e pc).WillFetch e := fun hp hpc =>
    ⟨h.parks.not_free hp, by simpa [setPc] using hpc⟩
  cases step_acts hstep with
  | @queue c task hc => exact Or.inl ⟨c, by simp [setCaller]⟩
  | request hc =>
      exact (h.served hq).imp_left fun ⟨d, hd⟩ => ⟨d, queued_setCaller (by simp [hc]) hd⟩
  | @choose c e rest hc hfree =>
      have hnodup := h.free_nodup
      rw [hfree] at hnodup
      refine Or.inr ⟨e, (List.nodup_cons.mp hnodup).1, ?_⟩
      rcases h.free_parked e (hfree ▸ List.mem_cons_self) with hp | hp <;> simp [setCaller, hp]
  | drop hc hfree =>
      rcases hc with hc | hc
      · rcases ha hc hfree hq with ⟨e, he⟩
        exact Or.inr ⟨e, by simp [setCaller, hfree], he⟩
      · exact (h.served hq).imp_left fun ⟨d, hd⟩ => ⟨d, queued_setCaller (by simp [hc]) hd⟩
  | wakeUp hc _ =>
      exact (h.served hq).imp_left fun ⟨d, hd⟩ => ⟨d, queued_setCaller (by simp [setSignaler, hc]) hd⟩
  | wait hpc =>
      exact (h.served hq).imp_right fun ⟨f, hf⟩ => ⟨f, willFetch_setPc (by simp) hf⟩
  | resume hpc _ =>
      refine (h.served hq).imp_right fun ⟨f, hf⟩ => ⟨f, ?_⟩
      exact willFetch_setPc (by split <;> simp) hf
  | @isPending e pending hpc =>
      exact Or.inr ⟨e, hfetches (by simp [Parked, hpc]) (by cases pending <;> simp)⟩
  | @handled e hpc _ => exact Or.inr ⟨e, hfetches (by simp [Parked, hpc]) (by simp)⟩
  | @nextTask e task hpc _ => exact Or.inr ⟨e, hfetches (by simp [Parked, hpc]) (by simp)⟩
  | noTask _ hnone => exact absurd hnone hq
  | @executed e task hpc _ => exact Or.inr ⟨e, hfetches (by simp [Parked, hpc]) (by simp)⟩
  | @enlist e hpc =>
      refine (h.served hq).imp_right fun ⟨f, hf⟩ => ⟨f, ?_⟩
      have hfe : f ≠ e := fun he => hf.2 (he ▸ hpc)
      exact ⟨by simpa [hfe] using hf.1, by simpa [setPc, hfe] using hf.2⟩
  | waitUntilEmpty | resumeWaiter => exact h.served hq

theorem inv_step (h : Inv s) (ha : Heard s a) (hstep : Step s a t) : Inv t :=
  (h.parks.step hstep).inv (h.served_step ha hstep)

end Steps

/-- In every run that hears every request, a queued task has an activating thread before its
`signal`, or an executor that will call `nextTask`. -/
theorem run_inv {acts : List (ExecutionAction n τ κ)} {s : ExecutionModel n τ κ}
    (h : Run (fun s a t => Step s a t ∧ Heard s a) init acts s) : Inv s :=
  h.invariant inv_init fun _ _ _ hi hs => inv_step hi hs.2 hs.1

/-- No wake-up is lost in a run that hears every request: when no activating thread stands between
`policy.queue` and the end of `signal`, every signal to an executor is consumed and the run queue
is not empty, some executor is neither parked nor about to park. -/
theorem no_lost_wakeUp {acts : List (ExecutionAction n τ κ)} {s : ExecutionModel n τ κ}
    (h : Run (fun s a t => Step s a t ∧ Heard s a) init acts s)
    (hidle : ∀ c, s.caller c = .idle) (hconsumed : ∀ e, (s.signaler e).wakeUp = false)
    (hq : s.runQueue ≠ []) : ∃ e, s.WillFetch e ∧ ¬ s.Parked e := by
  have hinv := run_inv h
  have hnot : ∀ e, ¬ s.Targeted e := by
    intro e ht
    rcases ht with ⟨c, hc⟩ | hw
    · simp [hidle c] at hc
    · simp [hconsumed e] at hw
  rcases hinv.served hq with ⟨c, hc⟩ | ⟨e, hfree, hpc⟩
  · simp [hidle c] at hc
  · refine ⟨e, ⟨hfree, hpc⟩, fun hp => ?_⟩
    rcases hinv.parked_reached e hp with hm | ht
    · exact hfree hm
    · exact hnot e ht

theorem no_lost_wakeUp_two :
    ∃ (acts : List (ExecutionAction 1 Nat Unit)) (s : ExecutionModel 1 Nat Unit),
      Run (fun s a t => Step s a t ∧ Heard s a) init acts s ∧ s.runQueue = [0, 1] ∧
        ∃ e, s.WillFetch e ∧ ¬ s.Parked e := by
  have hrun : Run (fun (s : ExecutionModel 1 Nat Unit) a t => s.step a = some t ∧ Heard s a) init
      [.queue (.inl ()) 0, .signal (.inl ()), .wakeUp (.inl ()), .resume 0, .queue (.inl ()) 1,
        .signal (.inl ())] _ :=
    (((((Run.start.next ⟨rfl, trivial⟩).next ⟨rfl, fun _ h => absurd h (by decide)⟩).next
      ⟨rfl, trivial⟩).next ⟨rfl, trivial⟩).next ⟨rfl, trivial⟩).next
        ⟨rfl, fun _ _ _ => ⟨0, by decide⟩⟩
  exact ⟨_, _, hrun, rfl, no_lost_wakeUp hrun (by decide) (by decide) (by decide)⟩

/-- One executor has been told that the run queue is empty when a second task is queued: the
request is dropped, the executor parks itself, and the task stays behind. -/
theorem request_dropped :
    ∃ (acts : List (ExecutionAction 1 Nat Unit)) (s : ExecutionModel 1 Nat Unit),
      Run Step init acts s ∧ (∀ c, s.caller c = .idle) ∧ (∀ e, (s.signaler e).wakeUp = false) ∧
        s.runQueue = [1] ∧ ∀ e, s.Parked e ∧ e ∈ s.freeExecutors :=
  ⟨[.queue (.inl ()) 0, .signal (.inl ()), .wakeUp (.inl ()), .resume 0, .isPending 0 false,
      .nextTask 0 (some 0), .executed 0, .isPending 0 false, .nextTask 0 none,
      .queue (.inl ()) 1, .signal (.inl ()), .enlist 0, .wait 0],
    _, run_foldlM.mpr rfl, by decide, by decide, by decide, by decide⟩

end TaskingFramework.ExecutionModel
