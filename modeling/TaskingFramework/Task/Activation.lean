import TaskingFramework.Task.InputArray

/-!
# Activation conditions

An array is to be activated when each of its inputs is activated or optional, or when the alternative
condition holds, and in both cases when a final input is activated. The loops of `isActivated` miss
this for final inputs that are not activated, and for a final input at the begin of the array.
-/

namespace TaskingFramework.InputArray

def AllActivated (l : List Input) : Prop := ∀ x ∈ l, x.isActivated = true ∨ x.isOptional = true

def FinalActivated (l : List Input) : Prop := ∃ x ∈ l, x.isFinal = true ∧ x.isActivated = true

/-- An input that is not activated, although its threshold asks for it. -/
def Missing (x : Input) : Prop := x.isActivated = false ∧ x.isOptional = false

variable {l : List Input}

private theorem allActivated_iff : AllActivated l ↔ ∀ x ∈ l, ¬ Missing x := by
  apply forall₂_congr
  intro x _
  cases hactivated : x.isActivated <;> cases hoptional : x.isOptional <;> simp [Missing, *]

private theorem isActivated_default :
    (⟨l, none⟩ : InputArray).isActivated = true ↔
      FinalActivated l ∨ ∀ x ∈ l, x.isFinal = false → ¬ Missing x := by
  rw [isActivated_iff rfl]
  apply or_congr
  · apply exists_congr
    intro x
    rw [and_comm (a := x.isActivated = true)]
  · apply forall₃_congr
    intro x _ _
    cases hactivated : x.isActivated <;> cases hoptional : x.isOptional <;> simp [Missing, *]

/-- Without an alternative condition an array is activated as documented, unless a final input with a
threshold is all that is missing. -/
theorem isActivated_default_iff (l : List Input) :
    ((⟨l, none⟩ : InputArray).isActivated = true ↔ AllActivated l ∨ FinalActivated l) ↔
      FinalActivated l ∨ (∃ x ∈ l, x.isFinal = false ∧ Missing x) ∨
        ∀ x ∈ l, x.isFinal = true → x.isOptional = true := by
  rw [isActivated_default, allActivated_iff]
  by_cases hfinal : FinalActivated l
  · simp [hfinal]
  · simp only [hfinal, false_or, or_false]
    constructor
    · intro h
      by_cases hmissing : ∃ x ∈ l, x.isFinal = false ∧ Missing x
      · exact Or.inl hmissing
      · right
        intro x hx hx'
        have hnot : ¬ Missing x := by
          apply h.mp _ x hx
          intro y hy hy' hmiss
          exact hmissing ⟨y, hy, hy', hmiss⟩
        have hactivated : x.isActivated = false :=
          Bool.eq_false_iff.mpr fun hactivated => hfinal ⟨x, hx, hx', hactivated⟩
        by_contra hoptional
        exact hnot ⟨hactivated, by simpa using hoptional⟩
    · intro h
      constructor
      · intro hall x hx hmiss
        rcases h with ⟨y, hy, hy', hmissing⟩ | hoptional
        · exact hall y hy hy' hmissing
        · cases hx' : x.isFinal with
          | false => exact hall x hx hx' hmiss
          | true => exact absurd ((hoptional x hx hx').symm.trans hmiss.2) (by simp)
      · exact fun hall x hx _ => hall x hx

/-- A single final input activates its array without any notification. -/
theorem isActivated_unnotified :
    ∃ l, (⟨l, none⟩ : InputArray).isActivated = true ∧ ¬ (AllActivated l ∨ FinalActivated l) := by
  refine ⟨[Input.init.configure 1 true], by decide, ?_⟩
  simp [AllActivated, FinalActivated, Input.init, Input.configure, Input.isActivated, Input.isOptional]

/-- With an alternative condition an array is activated as documented, unless the first input is the
only one that is final and activated. -/
theorem isActivated_condition_iff (l : List Input) (condition : List Input → Bool) :
    ((⟨l, some condition⟩ : InputArray).isActivated = true ↔
        condition l = true ∨ FinalActivated l) ↔
      condition l = true ∨ FinalActivated l.tail ∨
        ∀ x ∈ l.head?, ¬ (x.isFinal = true ∧ x.isActivated = true) := by
  have hcode : (⟨l, some condition⟩ : InputArray).isActivated = true ↔
      condition l = true ∨ FinalActivated l.tail := by
    rw [isActivated_condition rfl, List.drop_one]
    apply or_congr Iff.rfl
    apply exists_congr
    intro x
    rw [and_comm (a := x.isActivated = true)]
  rw [hcode]
  cases l with
  | nil => simp [FinalActivated]
  | cons x l =>
      have hall : FinalActivated (x :: l) ↔
          (x.isFinal = true ∧ x.isActivated = true) ∨ FinalActivated l := by
        simp [FinalActivated]
      rw [hall]
      by_cases hcondition : condition (x :: l) = true
      · simp [hcondition]
      · by_cases hlater : FinalActivated l
        · simp [hlater]
        · simp [hcondition, hlater]

/-- The first input is final and activated, but the array is not. -/
theorem not_isActivated_first :
    ∃ (l : List Input) (condition : List Input → Bool),
      (⟨l, some condition⟩ : InputArray).isActivated = false ∧ FinalActivated l :=
  ⟨[(Input.init.configure 1 true).notify.1], fun _ => false, by decide,
    _, List.mem_cons_self, by decide, by decide⟩

end TaskingFramework.InputArray
