import Mathlib.Data.List.Basic
import TaskingFramework.Foundation.Chain
import TaskingFramework.Foundation.Calls
import TaskingFramework.Task.Input

/-!
# Channels and their inputs

A channel threads its inputs through one link in each input, and the input stores its channel. A push
notifies the inputs of the list; the activation of their tasks is not needed here. The lists agree with
the stored channels as long as no input is associated that is still associated with another channel.
-/

set_option linter.unusedSectionVars false

namespace TaskingFramework

open Foundation

structure Channels (ι χ : Type) where
  m_channel : ι → Option χ
  channelNextInput : ι → Option ι
  m_inputs : χ → Option ι
  input : ι → Input

inductive ChannelCall (ι χ : Type) where
  | associate (input : ι) (channel : χ)
  | deassociate (input : ι)
  | configure (input : ι) (channel : χ) (activations : Nat) (final : Bool)
  | push (channel : χ)

inductive ChannelAnswer (ι : Type) where
  | nothing
  | associated (inputIsUnique : Bool)
  | notified (inputs : List ι)

namespace Channels

variable {ι χ : Type} [DecidableEq ι] [DecidableEq χ]

def init : Channels ι χ where
  m_channel := fun _ => none
  channelNextInput := fun _ => none
  m_inputs := fun _ => none
  input := fun _ => .init

def setNext (s : Channels ι χ) (x : ι) (next : Option ι) : Channels ι χ :=
  { s with channelNextInput := Function.update s.channelNextInput x next }

def setInputs (s : Channels ι χ) (c : χ) (inputs : Option ι) : Channels ι χ :=
  { s with m_inputs := Function.update s.m_inputs c inputs }

def setChannel (s : Channels ι χ) (x : ι) (channel : Option χ) : Channels ι χ :=
  { s with m_channel := Function.update s.m_channel x channel }

def setInput (s : Channels ι χ) (x : ι) (input : Input) : Channels ι χ :=
  { s with input := Function.update s.input x input }

/-- The loop of `associateTo`. -/
def searchInput (s : Channels ι χ) (x : ι) : Nat → Option ι → Outcome Bool
  | 0, _ => .error .outOfFuel
  | _ + 1, none => .ok false
  | fuel + 1, some search =>
      if x = search then .ok true else searchInput s x fuel (s.channelNextInput search)

def associateTo (fuel : Nat) (s : Channels ι χ) (c : χ) (x : ι) :
    Outcome (Channels ι χ × Bool) := do
  if ← s.searchInput x fuel (s.m_inputs c) then return (s, false)
  else return ((s.setNext x (s.m_inputs c)).setInputs c (some x), true)

/-- The loop of the `deassociate` of a channel. -/
def searchPrevious (s : Channels ι χ) (x : ι) : Nat → ι → Option ι → Outcome ι
  | 0, _, _ => .error .outOfFuel
  | _ + 1, previous, none => .ok previous
  | fuel + 1, previous, some search =>
      if x = search then .ok previous
      else searchPrevious s x fuel search (s.channelNextInput search)

/-- `deassociate` of a channel. -/
def deassociate (fuel : Nat) (s : Channels ι χ) (c : χ) (x : ι) : Outcome (Channels ι χ) := do
  if s.m_inputs c = some x then return s.setInputs c (s.channelNextInput x)
  else
    let head ← deref (s.m_inputs c)
    let previous ← s.searchPrevious x fuel head (s.channelNextInput head)
    if s.channelNextInput previous = some x then
      return s.setNext previous (s.channelNextInput x)
    else return s

/-- The loop of `push`, with the inputs that are notified. -/
def notifyInputs : Nat → Option ι → Channels ι χ → Outcome (Channels ι χ × List ι)
  | 0, _, _ => .error .outOfFuel
  | _ + 1, none, s => .ok (s, [])
  | fuel + 1, some x, s => do
      let s := s.setInput x (s.input x).notify.1
      let (s, inputs) ← notifyInputs fuel (s.channelNextInput x) s
      return (s, x :: inputs)

def push (fuel : Nat) (s : Channels ι χ) (c : χ) : Outcome (Channels ι χ × List ι) :=
  notifyInputs fuel (s.m_inputs c) s

/-- `associate` of an input. -/
def inputAssociate (fuel : Nat) (s : Channels ι χ) (x : ι) (c : χ) :
    Outcome (Channels ι χ × Bool) :=
  associateTo fuel (s.setChannel x (some c)) c x

/-- `deassociate` of an input. -/
def inputDeassociate (fuel : Nat) (s : Channels ι χ) (x : ι) : Outcome (Channels ι χ) :=
  match s.m_channel x with
  | none => .ok s
  | some c => do
      let s ← s.deassociate fuel c x
      return s.setChannel x none

/-- The first part of `configure`: an existing association is deleted. -/
def leave (fuel : Nat) (s : Channels ι χ) (x : ι) : Outcome (Channels ι χ) :=
  match s.m_channel x with
  | none => .ok s
  | some c => s.deassociate fuel c x

/-- `configure` of an input with a channel. -/
def inputConfigure (fuel : Nat) (s : Channels ι χ) (x : ι) (c : χ) (activations : Nat)
    (final : Bool) : Outcome (Channels ι χ) := do
  let s ← s.leave fuel x
  let s := s.setChannel x (some c)
  let s := s.setInput x ((s.input x).configure activations final)
  let (s, _) ← s.associateTo fuel c x
  return s

def call (fuel : Nat) (s : Channels ι χ) : ChannelCall ι χ → Outcome (Channels ι χ × ChannelAnswer ι)
  | .associate x c => do
      let (s, inputIsUnique) ← s.inputAssociate fuel x c
      return (s, .associated inputIsUnique)
  | .deassociate x => do
      let s ← s.inputDeassociate fuel x
      return (s, .nothing)
  | .configure x c activations final => do
      let s ← s.inputConfigure fuel x c activations final
      return (s, .nothing)
  | .push c => do
      let (s, inputs) ← s.push fuel c
      return (s, .notified inputs)

/-- The lists of the channels hold the inputs by their owners. -/
structure Threaded (s : Channels ι χ) (owner : ι → Option χ) (L : χ → List ι) : Prop where
  chain : ∀ c, Chain s.channelNextInput (s.m_inputs c) (L c)
  mem : ∀ c x, x ∈ L c ↔ owner x = some c

variable {s t : Channels ι χ} {owner : ι → Option χ} {L : χ → List ι} {c d : χ} {x y previous : ι}
  {l m : List ι} {p : Option ι}

private theorem threaded_init : Threaded (init : Channels ι χ) (fun _ => none) fun _ => [] :=
  ⟨fun _ => rfl, fun _ _ => by simp⟩

private theorem searchInput_returns (h : Chain s.channelNextInput p l) :
    Returns (s.searchInput x · p) (decide (x ∈ l)) := by
  induction l generalizing p with
  | nil =>
      obtain rfl : p = none := h
      exact (returns_ok _).step fun fuel => rfl
  | cons y l ih =>
      obtain ⟨rfl, hl⟩ := h
      by_cases hx : x = y
      · have hmem : decide (x ∈ y :: l) = true := by simp [hx]
        rw [hmem]
        exact (returns_ok _).step fun fuel => by simp only [searchInput, if_pos hx]
      · have hmem : decide (x ∈ y :: l) = decide (x ∈ l) := by simp [hx]
        rw [hmem]
        exact (ih hl).step fun fuel => by simp only [searchInput, if_neg hx]

private theorem Threaded.associateTo_again (h : Threaded s owner L) (hx : owner x = some c) :
    Returns (associateTo · s c x) (s, false) := by
  have hsearch := searchInput_returns (x := x) (h.chain c)
  rw [decide_eq_true ((h.mem c x).mpr hx)] at hsearch
  exact hsearch.bind (returns_ok _)

private theorem Threaded.associateTo_new (h : Threaded s owner L) (hx : owner x ≠ some c) :
    Returns (associateTo · s c x) ((s.setNext x (s.m_inputs c)).setInputs c (some x), true) := by
  have hsearch := searchInput_returns (x := x) (h.chain c)
  rw [decide_eq_false fun hmem => hx ((h.mem c x).mp hmem)] at hsearch
  exact hsearch.bind (returns_ok _)

private theorem Threaded.put (h : Threaded s owner L) (hx : owner x = none) :
    Threaded ((s.setNext x (s.m_inputs c)).setInputs c (some x)) (Function.update owner x (some c))
      (Function.update L c (x :: L c)) := by
  have hnot : ∀ d, x ∉ L d := by
    intro d hmem
    rw [h.mem, hx] at hmem
    exact Option.some_ne_none d hmem.symm
  constructor
  · intro d
    by_cases hd : d = c
    · subst hd
      simp only [setInputs, Function.update_self]
      exact (h.chain d).push (hnot d)
    · simp only [setInputs, Function.update_of_ne hd]
      exact (h.chain d).update (hnot d) _
  · intro d y
    by_cases hy : y = x
    · subst hy
      by_cases hd : d = c
      · simp [hd]
      · simp [hd, hnot d, Ne.symm hd]
    · by_cases hd : d = c
      · subst hd
        simp [hy, h.mem]
      · simp [hy, hd, h.mem]

private theorem searchPrevious_returns (h : Chain s.channelNextInput p (previous :: (m ++ x :: k)))
    (hx : x ∉ m) :
    ∃ n b, previous :: m = n ++ [b] ∧
      Returns (s.searchPrevious x · previous (s.channelNextInput previous)) b := by
  induction m generalizing p previous with
  | nil =>
      refine ⟨[], previous, rfl, (returns_ok _).step fun fuel => ?_⟩
      have hnext : s.channelNextInput previous = some x := h.2.1
      simp only [searchPrevious, hnext, if_true]
  | cons y m ih =>
      have hxy : x ≠ y := fun heq => hx (heq ▸ List.mem_cons_self)
      obtain ⟨n, b, hsplit, hret⟩ := ih h.2 fun hmem => hx (List.mem_cons_of_mem y hmem)
      refine ⟨previous :: n, b, by rw [hsplit]; rfl, hret.step fun fuel => ?_⟩
      have hnext : s.channelNextInput previous = some y := h.2.1
      simp only [searchPrevious, hnext, if_neg hxy]

private theorem Threaded.unlinkHead (h : Threaded s owner L) (hc : L c = x :: k) :
    Returns (deassociate · s c x) (s.setInputs c (s.channelNextInput x)) ∧
      ∀ d, Chain s.channelNextInput ((s.setInputs c (s.channelNextInput x)).m_inputs d)
        (Function.update L c k d) := by
  have hchain := h.chain c
  rw [hc] at hchain
  obtain ⟨hhead, hrest⟩ := hchain
  constructor
  · simp only [deassociate, hhead, if_true]
    exact returns_ok _
  · intro d
    by_cases hd : d = c
    · subst hd
      simpa [setInputs] using hrest
    · simpa [setInputs, hd] using h.chain d

private theorem Threaded.unlinkBehind (h : Threaded s owner L) (hc : L c = previous :: (m ++ x :: k))
    (hx : x ∉ previous :: m) :
    ∃ b, Returns (deassociate · s c x) (s.setNext b (s.channelNextInput x)) ∧
      ∀ d, Chain (s.setNext b (s.channelNextInput x)).channelNextInput (s.m_inputs d)
        (Function.update L c (previous :: (m ++ k)) d) := by
  have hchain := h.chain c
  rw [hc] at hchain
  have hhead : s.m_inputs c = some previous := hchain.1
  have hne : some previous ≠ some x := fun heq => hx (Option.some.inj heq ▸ List.mem_cons_self)
  obtain ⟨n, b, hsplit, hret⟩ :=
    searchPrevious_returns hchain fun hmem => hx (List.mem_cons_of_mem previous hmem)
  have hlist : ∀ r, previous :: (m ++ r) = n ++ b :: r := by
    intro r
    rw [← List.cons_append, hsplit]
    simp
  rw [hlist] at hchain
  have hnext : s.channelNextInput b = some x := hchain.next_eq
  refine ⟨b, ?_, ?_⟩
  · simp only [deassociate, hhead, if_neg hne, deref_some, ok_bind]
    apply hret.bind
    simp only [hnext, if_true]
    exact returns_ok _
  · intro d
    by_cases hd : d = c
    · subst hd
      rw [Function.update_self, hlist]
      exact hchain.bypass
    · rw [Function.update_of_ne hd]
      apply (h.chain d).update
      intro hb
      have hbc : b ∈ L c := by
        rw [hc, hlist]
        simp
      rw [h.mem] at hb hbc
      exact hd (Option.some.inj (hb.symm.trans hbc))

private theorem Threaded.deassociate (h : Threaded s owner L) (hx : owner x = some c) :
    ∃ t, Returns (deassociate · s c x) t ∧ t.m_channel = s.m_channel ∧ t.input = s.input ∧
      Threaded t (Function.update owner x none) (Function.update L c ((L c).erase x)) := by
  obtain ⟨m, k, hm, hc, herase⟩ := List.exists_erase_eq ((h.mem c x).mpr hx)
  have hnd := (h.chain c).nodup
  have hmem : ∀ d y, y ∈ Function.update L c ((L c).erase x) d ↔
      Function.update owner x none y = some d := by
    intro d y
    by_cases hd : d = c
    · subst hd
      rw [Function.update_self, hnd.mem_erase_iff, h.mem]
      by_cases hy : y = x <;> simp [hy]
    · rw [Function.update_of_ne hd, h.mem]
      by_cases hy : y = x
      · subst hy
        simpa [hx] using Ne.symm hd
      · simp [hy]
  rw [herase] at hmem ⊢
  cases m with
  | nil =>
      obtain ⟨hret, hchain⟩ := h.unlinkHead hc
      exact ⟨_, hret, rfl, rfl, hchain, hmem⟩
  | cons previous m =>
      obtain ⟨b, hret, hchain⟩ := h.unlinkBehind hc hm
      exact ⟨_, hret, rfl, rfl, hchain, hmem⟩

/-- The lists agree with the channels that the inputs store. -/
abbrev Listed (s : Channels ι χ) (L : χ → List ι) : Prop := Threaded s s.m_channel L

/-- A push of a channel notifies each input that stores the channel once, and no other one. -/
structure Reaches (s : Channels ι χ) (c : χ) (t : Channels ι χ) (inputs : List ι) : Prop where
  returns : Returns (push · s c) (t, inputs)
  once : inputs.Nodup
  mem : ∀ x, x ∈ inputs ↔ s.m_channel x = some c
  input : ∀ x, t.input x = if s.m_channel x = some c then (s.input x).notify.1 else s.input x

def Hears (s : Channels ι χ) : Prop := ∀ c, ∃ t inputs, s.Reaches c t inputs

/-- The input has no other channel when it is associated. -/
def Free (s : Channels ι χ) : ChannelCall ι χ → Prop
  | .associate x c => s.m_channel x = none ∨ s.m_channel x = some c
  | _ => True

private theorem notifyInputs_returns (h : Chain s.channelNextInput p l) :
    ∃ input, Returns (notifyInputs · p s) ({ s with input := input }, l) ∧
      ∀ x, input x = if x ∈ l then (s.input x).notify.1 else s.input x := by
  induction l generalizing p s with
  | nil =>
      obtain rfl : p = none := h
      exact ⟨s.input, (returns_ok _).step fun fuel => rfl, by simp⟩
  | cons y l ih =>
      have hy : y ∉ l := (List.nodup_cons.mp h.nodup).1
      obtain ⟨rfl, hl⟩ := h
      obtain ⟨input, hret, hinput⟩ := ih (s := s.setInput y (s.input y).notify.1) hl
      refine ⟨input, ?_, ?_⟩
      · have hbind : Returns (fun fuel => notifyInputs fuel (s.channelNextInput y)
            (s.setInput y (s.input y).notify.1) >>= fun r => .ok (r.1, y :: r.2))
            ({ s with input := input }, y :: l) := hret.bind (returns_ok _)
        exact hbind.step fun fuel => rfl
      · intro x
        rw [hinput]
        by_cases hx : x = y
        · subst hx
          simp [setInput, hy]
        · simp [setInput, hx]

private theorem Listed.hears (h : Listed s L) : s.Hears := by
  intro c
  obtain ⟨input, hret, hinput⟩ := notifyInputs_returns (h.chain c)
  refine ⟨_, L c, hret, (h.chain c).nodup, h.mem c, ?_⟩
  intro x
  show input x = _
  rw [hinput]
  simp only [h.mem]

private theorem Listed.associate_free (h : Listed s L) (hx : s.m_channel x = none) :
    ∃ t L', Returns (inputAssociate · s x c) (t, true) ∧ Listed t L' ∧
      ∀ y, y ≠ x → t.m_channel y = s.m_channel y := by
  have h' : Threaded (s.setChannel x (some c)) s.m_channel L := ⟨h.chain, h.mem⟩
  have hne : s.m_channel x ≠ some c := by simp [hx]
  have hput : Listed (((s.setChannel x (some c)).setNext x (s.m_inputs c)).setInputs c (some x))
      (Function.update L c (x :: L c)) := h'.put hx
  exact ⟨_, _, h'.associateTo_new hne, hput, fun y hy => Function.update_of_ne hy _ _⟩

private theorem Listed.associate_again (h : Listed s L) (hx : s.m_channel x = some c) :
    Returns (inputAssociate · s x c) (s, false) := by
  have hsame : s.setChannel x (some c) = s := by
    rw [setChannel, ← hx, Function.update_eq_self]
  unfold inputAssociate
  rw [hsame]
  exact h.associateTo_again hx

private theorem Listed.deassociate (h : Listed s L) :
    ∃ t L', Returns (inputDeassociate · s x) t ∧ Listed t L' ∧
      t.m_channel = Function.update s.m_channel x none := by
  cases hx : s.m_channel x with
  | none =>
      refine ⟨s, L, ?_, h, ?_⟩
      · simp only [inputDeassociate, hx]
        exact returns_ok _
      · rw [← hx, Function.update_eq_self]
  | some c =>
      obtain ⟨t, hret, hchannel, _, ht⟩ := Threaded.deassociate h hx
      have hupdate : (t.setChannel x none).m_channel = Function.update s.m_channel x none := by
        rw [← hchannel]
        rfl
      have ht' : Listed (t.setChannel x none) (Function.update L c ((L c).erase x)) := by
        rw [Listed, hupdate]
        exact ⟨ht.chain, ht.mem⟩
      refine ⟨t.setChannel x none, _, ?_, ht', hupdate⟩
      simp only [inputDeassociate, hx]
      exact hret.bind (returns_ok _)

private theorem Listed.leave (h : Listed s L) (x : ι) :
    ∃ t L', Returns (leave · s x) t ∧ t.m_channel = s.m_channel ∧
      Threaded t (Function.update s.m_channel x none) L' := by
  unfold Channels.leave
  cases hx : s.m_channel x with
  | none =>
      refine ⟨s, L, returns_ok _, rfl, ?_⟩
      rw [← hx, Function.update_eq_self]
      exact h
  | some c =>
      obtain ⟨t, hret, hchannel, _, ht⟩ := Threaded.deassociate h hx
      exact ⟨t, _, hret, hchannel, ht⟩

private theorem Listed.configure (h : Listed s L) (activations : Nat) (final : Bool) :
    ∃ t L', Returns (inputConfigure · s x c activations final) t ∧ Listed t L' ∧
      t.m_channel = Function.update s.m_channel x (some c) := by
  obtain ⟨u, L', hret, hchannel, hu⟩ := h.leave x
  let v := (u.setChannel x (some c)).setInput x ((u.input x).configure activations final)
  have hv : Threaded v (Function.update s.m_channel x none) L' := ⟨hu.chain, hu.mem⟩
  have hupdate : v.m_channel = Function.update s.m_channel x (some c) := by
    rw [← hchannel]
    rfl
  have hfree : Function.update s.m_channel x none x = none := Function.update_self _ _ _
  have hput := hv.put (c := c) hfree
  rw [Function.update_idem, ← hupdate] at hput
  refine ⟨_, _, hret.bind ?_, hput, hupdate⟩
  exact (hv.associateTo_new (by simp)).bind (returns_ok _)

private theorem mem_of_segment {next : ι → Option ι} (h : Segment next p m (some x))
    (hl : Chain next p l) :
    x ∈ l := by
  induction m generalizing p l with
  | nil =>
      obtain rfl : p = some x := h
      obtain ⟨k, rfl, _⟩ := hl.exists_cons
      exact List.mem_cons_self
  | cons y m ih =>
      obtain ⟨rfl, hm⟩ := h
      obtain ⟨k, rfl, hk⟩ := hl.exists_cons
      exact List.mem_cons_of_mem y (ih hm hk)

private theorem notifyInputs_chain {fuel : Nat} (h : notifyInputs fuel p s = .ok (t, l)) :
    Chain s.channelNextInput p l := by
  induction fuel generalizing p s t l with
  | zero => exact absurd h (by simp [notifyInputs])
  | succ fuel ih =>
      cases p with
      | none =>
          obtain rfl : ([] : List ι) = l := (Prod.mk.inj (Except.ok.inj h)).2
          rfl
      | some y =>
          let u := s.setInput y (s.input y).notify.1
          have hcall : notifyInputs (fuel + 1) (some y) s =
              notifyInputs fuel (u.channelNextInput y) u >>= fun r => .ok (r.1, y :: r.2) := rfl
          rw [hcall] at h
          cases hrest : notifyInputs fuel (u.channelNextInput y) u with
          | error e =>
              rw [hrest, error_bind] at h
              exact absurd h (by simp)
          | ok r =>
              obtain ⟨v, k⟩ := r
              rw [hrest, ok_bind] at h
              obtain ⟨rfl, rfl⟩ := Prod.mk.inj (Except.ok.inj h)
              have hchain := ih hrest
              exact ⟨rfl, hchain⟩

private theorem Listed.associate_taken (h : Listed s L) (hx : s.m_channel x = some d) (hd : d ≠ c) :
    ∃ t, Returns (inputAssociate · s x c) (t, true) ∧ ¬ t.Hears ∧
      ∀ y, y ≠ x → t.m_channel y = s.m_channel y := by
  have h' : Threaded (s.setChannel x (some c)) s.m_channel L := ⟨h.chain, h.mem⟩
  have hne : s.m_channel x ≠ some c := by simpa [hx] using hd
  refine ⟨_, h'.associateTo_new hne, ?_, fun y hy => Function.update_of_ne hy _ _⟩
  intro hhears
  obtain ⟨u, inputs, ⟨bound, hret⟩, _, hmem, _⟩ := hhears d
  obtain ⟨m, k, hm, hsplit, _⟩ := List.exists_erase_eq ((h.mem d x).mpr hx)
  have hsegment : Segment s.channelNextInput (s.m_inputs d) m (some x) := by
    have hchain := h.chain d
    rw [hsplit] at hchain
    exact hchain.prefix
  have hreach := mem_of_segment (hsegment.update hm (s.m_inputs c))
    (by simpa [setInputs, setNext, setChannel, hd] using notifyInputs_chain (hret bound le_rfl))
  rw [hmem] at hreach
  have hchannel : some c = some d := by simpa [setChannel, setNext, setInputs] using hreach
  exact hd (Option.some.inj hchannel).symm

/-- The input that a call is made on. -/
def subject : ChannelCall ι χ → Option ι
  | .associate x _ => some x
  | .deassociate x => some x
  | .configure x _ _ _ => some x
  | .push _ => none

private theorem Listed.call (h : Listed s L) (i : ChannelCall ι χ) :
    ∃ a t, Returns (Channels.call · s i) (t, a) ∧ (t.Hears ↔ s.Free i) ∧
      (s.Free i → ∃ L', Listed t L') ∧ ∀ x, subject i ≠ some x → t.m_channel x = s.m_channel x := by
  cases i with
  | associate x c =>
      cases hx : s.m_channel x with
      | none =>
          obtain ⟨t, L', hret, ht, hother⟩ := h.associate_free (c := c) hx
          refine ⟨.associated true, t, hret.bind (returns_ok _), ?_, fun _ => ⟨L', ht⟩, ?_⟩
          · exact ⟨fun _ => Or.inl hx, fun _ => ht.hears⟩
          · intro y hy
            exact hother y fun heq => hy (congrArg some heq.symm)
      | some d =>
          by_cases hd : d = c
          · subst hd
            have hret := h.associate_again hx
            exact ⟨.associated false, s, hret.bind (returns_ok _),
              ⟨fun _ => Or.inr hx, fun _ => h.hears⟩, fun _ => ⟨L, h⟩, fun _ _ => rfl⟩
          · obtain ⟨t, hret, hnot, hother⟩ := h.associate_taken hx hd
            have htaken : ¬ s.Free (.associate x c) := by simpa [Free, hx] using hd
            refine ⟨.associated true, t, hret.bind (returns_ok _), ?_,
              fun hfree => absurd hfree htaken, ?_⟩
            · exact ⟨fun hhears => absurd hhears hnot, fun hfree => absurd hfree htaken⟩
            · intro y hy
              exact hother y fun heq => hy (congrArg some heq.symm)
  | deassociate x =>
      obtain ⟨t, L', hret, ht, hchannel⟩ := h.deassociate (x := x)
      refine ⟨.nothing, t, hret.bind (returns_ok _), ⟨fun _ => trivial, fun _ => ht.hears⟩,
        fun _ => ⟨L', ht⟩, ?_⟩
      intro y hy
      rw [hchannel, Function.update_of_ne fun heq => hy (congrArg some heq.symm)]
  | configure x c activations final =>
      obtain ⟨t, L', hret, ht, hchannel⟩ := h.configure (x := x) (c := c) activations final
      refine ⟨.nothing, t, hret.bind (returns_ok _), ⟨fun _ => trivial, fun _ => ht.hears⟩,
        fun _ => ⟨L', ht⟩, ?_⟩
      intro y hy
      rw [hchannel, Function.update_of_ne fun heq => hy (congrArg some heq.symm)]
  | push c =>
      obtain ⟨input, hret, _⟩ := notifyInputs_returns (h.chain c)
      have ht : Listed { s with input := input } L := ⟨h.chain, h.mem⟩
      exact ⟨.notified (L c), { s with input := input }, Returns.bind hret (returns_ok _),
        ⟨fun _ => trivial, fun _ => ht.hears⟩, fun _ => ⟨L, ht⟩, fun _ _ => rfl⟩

/-- In every run in which no input is associated while it has another channel, each push notifies
exactly the inputs of its channel. A further call keeps this if and only if it meets the condition, and
never changes the channel of another input. -/
theorem run_hears {calls : List (ChannelCall ι χ × ChannelAnswer ι)}
    (h : Run (Calls Free call) init calls s) :
    s.Hears ∧ ∀ i, ∃ a t, Calls (fun _ _ => True) call s (i, a) t ∧ (t.Hears ↔ s.Free i) ∧
      ∀ x, subject i ≠ some x → t.m_channel x = s.m_channel x := by
  have hlisted : ∃ L, Listed s L := by
    apply run_calls_invariant (I := fun s => ∃ L, Listed s L) _ ⟨_, threaded_init⟩ h
    intro s i hs hfree
    obtain ⟨L, hL⟩ := hs
    obtain ⟨a, t, hret, _, ht, _⟩ := hL.call i
    exact ⟨a, t, ⟨hfree, hret⟩, ht hfree⟩
  obtain ⟨L, hL⟩ := hlisted
  refine ⟨hL.hears, ?_⟩
  intro i
  obtain ⟨a, t, hret, hhears, _, hother⟩ := hL.call i
  exact ⟨a, t, ⟨trivial, hret⟩, hhears, hother⟩

/-- Two inputs of one channel; the first one is configured for another channel and taken back. -/
theorem run_hears_twoChannels : ∃ s : Channels Nat Nat, Run (Calls Free call) init
    [(.associate 0 0, .associated true), (.associate 1 0, .associated true),
      (.configure 0 1 2 false, .nothing), (.push 1, .notified [0]), (.deassociate 0, .nothing),
      (.push 0, .notified [1])] s ∧ s.Hears := by
  have h₀ : Run (Calls Free call) (init : Channels Nat Nat) [] init := .start
  have h₁ := h₀.next_call 6 (.associate 0 0) (Or.inl rfl) fun fuel => rfl
  have h₂ := h₁.next_call 6 (.associate 1 0) (Or.inl rfl) fun fuel => rfl
  have h₃ := h₂.next_call 6 (.configure 0 1 2 false) trivial fun fuel => rfl
  have h₄ := h₃.next_call 6 (.push 1) trivial fun fuel => rfl
  have h₅ := h₄.next_call 6 (.deassociate 0) trivial fun fuel => rfl
  have hrun := h₅.next_call 6 (.push 0) trivial fun fuel => rfl
  exact ⟨_, hrun, (run_hears hrun).1⟩

/-- An input of channel 0 that is associated with channel 1 takes the inputs of channel 1 along, and
channel 0 notifies both. -/
theorem pushes_to_both : ∃ s : Channels Nat Nat, Run (Calls (fun _ _ => True) call) init
    [(.associate 0 0, .associated true), (.associate 1 1, .associated true),
      (.associate 0 1, .associated true), (.push 0, .notified [0, 1])] s ∧
    s.m_channel 0 = some 1 ∧ s.m_channel 1 = some 1 ∧ ¬ s.Hears := by
  have h₀ : Run (Calls (fun _ _ => True) call) (init : Channels Nat Nat) [] init := .start
  have h₁ := h₀.next_call 6 (.associate 0 0) trivial fun fuel => rfl
  have h₂ := h₁.next_call 6 (.associate 1 1) trivial fun fuel => rfl
  have h₃ := h₂.next_call 6 (.associate 0 1) trivial fun fuel => rfl
  have hrun := h₃.next_call 6 (.push 0) trivial fun fuel => rfl
  refine ⟨_, hrun, rfl, rfl, ?_⟩
  intro hhears
  obtain ⟨t, inputs, hreaches⟩ := hhears 0
  have hinputs : inputs = [0, 1] :=
    (Prod.mk.inj (hreaches.returns.unique (returns_of_add 6 fun fuel => rfl))).2
  have hmem := (hreaches.mem 0).mp (by rw [hinputs]; decide)
  exact absurd hmem (by decide)

end Channels

end TaskingFramework
