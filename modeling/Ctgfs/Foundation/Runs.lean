import Mathlib.Data.List.Basic

/-!
# Finite runs of a labelled transition relation

A run records the labels of its steps in the order in which they are taken, so
that a property may speak of the past as well as of the state reached.  A
restriction on the steps of a run is a restriction of the relation itself.
-/

namespace Ctgfs.Foundation

universe u v

variable {State : Type u} {Label : Type v}

/-- `Run step start labels state`: the labels, taken in order from `start`,
can end in `state`. -/
inductive Run (step : State → Label → State → Prop) (start : State) :
    List Label → State → Prop where
  | refl : Run step start [] start
  | tail {labels state label next} :
      Run step start labels state → step state label next →
      Run step start (labels ++ [label]) next

/-- The steps of a relation that are taken in a state where they meet a
condition. -/
def Guarded (step : State → Label → State → Prop)
    (condition : State → Label → Prop) : State → Label → State → Prop :=
  fun state label next => condition state label ∧ step state label next

/-- The relation of a partial transition function. -/
def StepOf (step : State → Label → Option State) : State → Label → State → Prop :=
  fun state label next => step state label = some next

def exec (step : State → Label → Option State) : State → List Label → Option State
  | state, [] => some state
  | state, label :: labels => (step state label).bind fun next => exec step next labels

theorem exec_append (step : State → Label → Option State) (start : State)
    (before after : List Label) :
    exec step start (before ++ after) =
      (exec step start before).bind fun state => exec step state after := by
  induction before generalizing start with
  | nil => rfl
  | cons label before ih =>
      rw [List.cons_append, exec, exec, Option.bind_assoc]
      exact congrArg _ (funext ih)

theorem forall_split_concat {property : List Label → Label → List Label → Prop}
    {labels : List Label} {last : Label} :
    (∀ before label after, labels ++ [last] = before ++ label :: after →
        property before label after) ↔
      property labels last [] ∧ ∀ before label after, labels = before ++ label :: after →
        property before label (after ++ [last]) := by
  constructor
  · intro all
    refine ⟨all labels last [] rfl, fun before label after position => ?_⟩
    apply all
    rw [position, List.append_assoc, List.cons_append]
  · rintro ⟨atEnd, earlier⟩ before label after position
    rcases List.eq_nil_or_concat after with rfl | ⟨rest, final, rfl⟩
    · obtain ⟨rfl, same⟩ := List.append_inj' position rfl
      obtain rfl : last = label := by simpa using same
      exact atEnd
    · have shape : labels ++ [last] = (before ++ label :: rest) ++ [final] := by
        simpa using position
      obtain ⟨here, same⟩ := List.append_inj' shape rfl
      obtain rfl : last = final := by simpa using same
      rw [List.concat_eq_append]
      exact earlier before label rest here

namespace Run

variable {step : State → Label → State → Prop} {start state : State}
  {labels : List Label}

theorem history (Inv : List Label → State → Prop) (run : Run step start labels state)
    (initial : Inv [] start)
    (preserved : ∀ labels state label next, Inv labels state →
      step state label next → Inv (labels ++ [label]) next) :
    Inv labels state := by
  induction run with
  | refl => exact initial
  | tail _ taken ih => exact preserved _ _ _ _ ih taken

theorem invariant (Inv : State → Prop) (run : Run step start labels state)
    (initial : Inv start)
    (preserved : ∀ state label next, Inv state → step state label next → Inv next) :
    Inv state :=
  run.history (fun _ => Inv) initial fun _ => preserved

theorem mono {other : State → Label → State → Prop}
    (included : ∀ state label next, step state label next → other state label next)
    (run : Run step start labels state) : Run other start labels state := by
  induction run with
  | refl => exact .refl
  | tail _ taken ih =>
      exact ih.tail (included _ _ _ taken)

theorem trans {middle : State} {before after : List Label}
    (first : Run step start before middle) (second : Run step middle after state) :
    Run step start (before ++ after) state := by
  induction second with
  | refl => simpa using first
  | tail _ taken ih =>
      rw [← List.append_assoc]
      exact ih.tail taken

theorem project {Part : Type*} {Tag : Type*} {other : Part → Tag → Part → Prop}
    (view : State → Part) (tag : Label → Option Tag)
    (visible : ∀ state label next name, step state label next → tag label = some name →
      other (view state) name (view next))
    (silent : ∀ state label next, step state label next → tag label = none →
      view next = view state)
    (run : Run step start labels state) :
    Run other (view start) (labels.filterMap tag) (view state) := by
  induction run with
  | refl => exact .refl
  | @tail labels state label next _ taken ih =>
      rw [List.filterMap_append]
      cases tagged : tag label with
      | none =>
          simpa [tagged, silent state label next taken tagged] using ih
      | some name =>
          have last : [label].filterMap tag = [name] := by simp [tagged]
          rw [last]
          exact ih.tail (visible state label next name taken tagged)

/-- Every position of a run splits it into the run before, the step taken there
and the run after. -/
theorem split {before after : List Label} {label : Label}
    (run : Run step start labels state) (position : labels = before ++ label :: after) :
    ∃ middle next, Run step start before middle ∧ step middle label next ∧
      Run step next after state := by
  induction run generalizing after with
  | refl => simp at position
  | @tail labels state last next run taken ih =>
      rcases List.eq_nil_or_concat after with rfl | ⟨rest, final, rfl⟩
      · obtain ⟨rfl, same⟩ := List.append_inj' position rfl
        obtain rfl : last = label := by simpa using same
        exact ⟨_, _, run, taken, .refl⟩
      · have shape : labels ++ [last] = (before ++ label :: rest) ++ [final] := by
          simpa using position
        obtain ⟨rfl, same⟩ := List.append_inj' shape rfl
        obtain rfl : last = final := by simpa using same
        obtain ⟨middle, next, first, step, second⟩ := ih rfl
        rw [List.concat_eq_append]
        exact ⟨middle, next, first, step, second.tail taken⟩

end Run

theorem run_of_exec {step : State → Label → Option State} {labels : List Label}
    {start state : State} (executed : exec step start labels = some state) :
    Run (StepOf step) start labels state := by
  induction labels generalizing start with
  | nil =>
      obtain rfl : start = state := by simpa [exec] using executed
      exact .refl
  | cons label labels ih =>
      obtain ⟨next, taken, rest⟩ := Option.bind_eq_some_iff.mp executed
      exact (Run.refl.tail taken).trans (ih rest)

/-- An execution meets a condition at each of its steps. -/
def Meets (step : State → Label → Option State) (condition : State → Label → Prop) :
    State → List Label → Prop
  | _, [] => True
  | state, label :: labels =>
      condition state label ∧ ∀ next ∈ step state label, Meets step condition next labels

instance decidableMeets {step : State → Label → Option State}
    {condition : State → Label → Prop} [∀ state label, Decidable (condition state label)] :
    ∀ state labels, Decidable (Meets step condition state labels)
  | _, [] => .isTrue trivial
  | state, label :: labels =>
      match taken : step state label with
      | none => decidable_of_iff (condition state label) (by simp [Meets, taken])
      | some next =>
          have : Decidable (Meets step condition next labels) := decidableMeets next labels
          decidable_of_iff (condition state label ∧ Meets step condition next labels)
            (by simp [Meets, taken])

theorem isSome_exec {step : State → Label → Option State} {condition : State → Label → Prop}
    (runs : ∀ state label, (step state label).isSome ↔ condition state label) {labels : List Label}
    {start : State} : (exec step start labels).isSome ↔ Meets step condition start labels := by
  induction labels generalizing start with
  | nil => simp [exec, Meets]
  | cons label labels ih =>
      rw [exec, Meets, ← runs]
      cases step start label with
      | none => simp
      | some next => simp [ih]

theorem guarded_of_exec {step : State → Label → Option State} {condition : State → Label → Prop}
    {labels : List Label} {start state : State} (executed : exec step start labels = some state)
    (meets : Meets step condition start labels) :
    Run (Guarded (StepOf step) condition) start labels state := by
  induction labels generalizing start with
  | nil =>
      obtain rfl : start = state := by simpa [exec] using executed
      exact .refl
  | cons label labels ih =>
      obtain ⟨next, taken, rest⟩ := Option.bind_eq_some_iff.mp executed
      exact (Run.refl.tail ⟨meets.1, taken⟩).trans (ih rest (meets.2 next taken))

theorem meets_of_forall {step : State → Label → Option State} {condition : Label → Prop}
    {labels : List Label} (all : ∀ label ∈ labels, condition label) (start : State) :
    Meets step (fun _ => condition) start labels := by
  induction labels generalizing start with
  | nil => trivial
  | cons label labels ih =>
      obtain ⟨first, rest⟩ := List.forall_mem_cons.mp all
      exact ⟨first, fun next _ => ih rest next⟩

end Ctgfs.Foundation
