import TaskingFramework.Clock.Queue
import TaskingFramework.Foundation.Chain
import TaskingFramework.Foundation.DueQueue

/-!
# The links of the clock queue

`Linked s q` says that the clock `s` holds the events of `q` in this order. The `previous` pointers
of due events may be stale; the search of `enqueue` stops before it would follow one of them.
-/

set_option linter.unusedSectionVars false

namespace TaskingFramework.Clock

open Foundation

variable {ε : Type} {s : Clock ε} {q : List ε} {e : ε}

structure Linked (s : Clock ε) (q : List ε) : Prop where
  chain : Chain s.next s.queueHead q
  tail : s.queueTail = q.getLast?
  ordered : DueOrdered s.time s.nextActivation_ms q
  previous : ∀ e ∈ q, s.time < s.nextActivation_ms e →
    s.previous e = predecessor s.nextActivation_ms q e

theorem linked_empty (time : Nat) : (empty time : Clock ε).Linked [] :=
  ⟨rfl, rfl, dueOrdered_nil, by simp⟩

theorem Linked.advance (h : s.Linked q) {time : Nat} (ht : s.time ≤ time) :
    { s with time := time }.Linked q :=
  ⟨h.chain, h.tail, h.ordered.mono ht, fun e he hlt => h.previous e he (lt_of_le_of_lt ht hlt)⟩

variable [DecidableEq ε]

/-- `previous` corrected for some events. -/
def withPrevious (s : Clock ε) (l : List ε) (value : Option ε) : Clock ε :=
  { s with previous := fun e => if e ∈ l then value else s.previous e }

theorem correctPrevious_returns (value : Option ε) (continues : Clock ε → ε → Bool)
    (block : ε → Bool) {p : Option ε} {l : List ε} (hl : Chain s.next p l)
    (hblock : ∀ e ∈ l, continues s e = block e)
    (hc : ∀ (r : Clock ε) (a e : ε), e ≠ a → continues (r.setPrevious a value) e = continues r e) :
    Returns (fun fuel => correctPrevious value continues fuel p s)
      (s.withPrevious (l.takeWhile block) value) := by
  induction l generalizing p s with
  | nil =>
      have hp : p = none := hl
      subst p
      have hs : s.withPrevious (List.takeWhile block []) value = s := by simp [withPrevious]
      rw [hs]
      exact (returns_ok s).step fun _ => rfl
  | cons a l ih =>
      rcases hl with ⟨rfl, hl⟩
      have hall : Chain s.next (some a) (a :: l) := ⟨rfl, hl⟩
      have ha : a ∉ l := (List.nodup_cons.mp (Chain.nodup hall)).1
      have hhead : continues s a = block a := hblock a List.mem_cons_self
      cases hba : block a with
      | true =>
          have hne : ∀ e ∈ l, e ≠ a := fun e he heq => ha (heq ▸ he)
          have hrest := @ih (s.setPrevious a value) (s.next a) hl fun e he => by
            rw [hc s a e (hne e he)]
            exact hblock e (List.mem_cons_of_mem a he)
          have hs : s.withPrevious ((a :: l).takeWhile block) value =
              (s.setPrevious a value).withPrevious (l.takeWhile block) value := by
            simp only [withPrevious, setPrevious, List.takeWhile_cons_of_pos hba]
            congr 1
            funext e
            by_cases he : e = a
            · simp [he]
            · simp [he]
          rw [hs]
          exact hrest.step fun fuel => by simp [correctPrevious, hhead, hba]
      | false =>
          have hs : s.withPrevious ((a :: l).takeWhile block) value = s := by
            simp [withPrevious, hba]
          rw [hs]
          exact (returns_ok s).step fun fuel => by simp [correctPrevious, hhead, hba]

/-- The loop over a block of events with the same activation time. -/
theorem correctBlock_returns (value : Option ε) {p : Option ε} {l : List ε} (time : Nat)
    (hl : Chain s.next p l) :
    Returns
      (fun fuel => correctPrevious value (fun s e => decide (s.nextActivation_ms e = time)) fuel p s)
      (s.withPrevious (l.takeWhile fun e => decide (s.nextActivation_ms e = time)) value) :=
  correctPrevious_returns value _ _ hl (fun _ _ => rfl) fun _ _ _ _ => rfl

/-- The search of `enqueue` ends at the last event up to the given time. -/
theorem searchPrevious_returns (h : s.Linked q) {time : Nat} (ht : s.time < time) :
    Returns (fun fuel => searchPrevious s time fuel s.queueTail)
      (upTo s.nextActivation_ms time q).getLast? := by
  -- everything behind the part that is still to be searched is later
  have haux : ∀ (n : Nat) (l r : List ε), l.length = n → q = l ++ r →
      (∀ b ∈ r, time < s.nextActivation_ms b) →
      Returns (fun fuel => searchPrevious s time fuel l.getLast?)
        (upTo s.nextActivation_ms time q).getLast? := by
    intro n
    induction n using Nat.strong_induction_on with
    | _ n ih =>
        intro l r hn hq hr
        have hup : upTo s.nextActivation_ms time q = upTo s.nextActivation_ms time l := by
          rw [hq, upTo_append, upTo_eq_nil.mpr hr, List.append_nil]
        cases hlast : l.getLast? with
        | none =>
            rw [hup, List.getLast?_eq_none_iff.mp hlast]
            exact (returns_ok none).step fun _ => rfl
        | some p =>
            obtain ⟨m, rfl⟩ := List.getLast?_eq_some_iff.mp hlast
            have hpq : p ∈ q := by simp [hq]
            by_cases hp : time < s.nextActivation_ms p
            · have hpnow : s.time < s.nextActivation_ms p := lt_trans ht hp
              rcases h.ordered.split_before hpnow with ⟨r', hq', hr'⟩
              have hlen : (before s.nextActivation_ms (s.nextActivation_ms p) q).length < n := by
                have hpref : before s.nextActivation_ms (s.nextActivation_ms p) q <+: q :=
                  ⟨r', hq'.symm⟩
                have hpref' : m ++ [p] <+: q := ⟨r, hq.symm⟩
                rcases List.prefix_or_prefix_of_prefix hpref hpref' with hle | hle
                · have hne : before s.nextActivation_ms (s.nextActivation_ms p) q ≠ m ++ [p] := by
                    intro heq
                    have hmem : p ∈ before s.nextActivation_ms (s.nextActivation_ms p) q := by
                      simp [heq]
                    exact lt_irrefl _ (mem_before.mp hmem).2
                  have hlt := hle.length_le
                  have : (before s.nextActivation_ms (s.nextActivation_ms p) q).length ≠
                      (m ++ [p]).length := fun hl => hne (hle.eq_of_length hl)
                  omega
                · have hmem : p ∈ before s.nextActivation_ms (s.nextActivation_ms p) q :=
                    hle.subset (by simp)
                  exact absurd (mem_before.mp hmem).2 (lt_irrefl _)
              have hrest := ih _ hlen _ r' rfl hq' fun b hb => lt_of_lt_of_le hp (hr' b hb)
              refine hrest.step fun fuel => ?_
              simp only [searchPrevious, hp, if_true]
              rw [h.previous p hpq hpnow, predecessor]
            · have hall : upTo s.nextActivation_ms time (m ++ [p]) = m ++ [p] := by
                refine upTo_eq_self.mpr fun b hb => ?_
                have hord : DueOrdered s.time s.nextActivation_ms (m ++ [p]) :=
                  h.ordered.sublist (hq ▸ List.sublist_append_left _ r)
                rcases List.mem_append.mp hb with hb | hb
                · have hle := hord.due_or_le hb
                  omega
                · rw [List.mem_singleton.mp hb]
                  omega
              rw [hup, hall, hlast]
              exact (returns_ok (some p)).step fun fuel => by simp [searchPrevious, hp]
  rw [h.tail]
  exact haux q.length q [] rfl (by simp) (by simp)

end TaskingFramework.Clock
