import Mathlib.Data.Option.Basic

/-!
# Runs of a transition function

Events act on a state one after another, and an event that is not enabled has no successor.  A
condition along a run speaks about every state of it together with the event that happens there.
-/

namespace Foundation

variable {State Event : Type} (step : State → Event → Option State)

/-- Take the events in order. -/
def run (state : State) : List Event → Option State
  | [] => some state
  | event :: events => (step state event).bind fun next => run next events

/-- Every step of a run meets a condition on the state before it. -/
def Along (condition : State → Event → Prop) (state : State) : List Event → Prop
  | [] => True
  | event :: events =>
    condition state event ∧ ∀ next, step state event = some next → Along condition next events

variable {step} {condition : State → Event → Prop} {state final : State} {events : List Event}
  {event : Event}

theorem run_cons_eq_some :
    run step state (event :: events) = some final ↔
      ∃ next, step state event = some next ∧ run step next events = some final := by
  rw [run, Option.bind_eq_some_iff]

variable {back : List Event}

theorem run_append_eq_some {front : List Event} :
    run step state (front ++ back) = some final ↔
      ∃ middle, run step state front = some middle ∧ run step middle back = some final := by
  induction front generalizing state with
  | nil => simp [run]
  | cons event front induction =>
    rw [List.cons_append, run_cons_eq_some]
    constructor
    · rintro ⟨next, stepped, rest⟩
      obtain ⟨middle, reached, last⟩ := induction.mp rest
      exact ⟨middle, run_cons_eq_some.mpr ⟨next, stepped, reached⟩, last⟩
    · rintro ⟨middle, reached, last⟩
      obtain ⟨next, stepped, rest⟩ := run_cons_eq_some.mp reached
      exact ⟨next, stepped, induction.mpr ⟨middle, rest, last⟩⟩

theorem Along.cons {next : State} (stepped : step state event = some next)
    (here : condition state event) (rest : Along step condition next events) :
    Along step condition state (event :: events) := by
  refine ⟨here, fun other also => ?_⟩
  rwa [← Option.some.inj (stepped.symm.trans also)]

theorem Along.append {front : List Event} {middle : State}
    (along : Along step condition state (front ++ back))
    (reached : run step state front = some middle) :
    Along step condition state front ∧ Along step condition middle back := by
  induction front generalizing state with
  | nil =>
    rw [run, Option.some.injEq] at reached
    subst reached
    exact ⟨trivial, along⟩
  | cons event front induction =>
    obtain ⟨next, stepped, rest⟩ := run_cons_eq_some.mp reached
    obtain ⟨inFront, inBack⟩ := induction (along.2 next stepped) rest
    exact ⟨.cons stepped along.1 inFront, inBack⟩

theorem along_of_forall {allowed : Event → Prop} (all : ∀ event ∈ events, allowed event) :
    Along step (fun _ event => allowed event) state events := by
  induction events generalizing state with
  | nil => trivial
  | cons event events induction =>
    rw [List.forall_mem_cons] at all
    exact ⟨all.1, fun next _ => induction all.2⟩

theorem Along.and {other : State → Event → Prop}
    (along : Along step condition state events) (also : Along step other state events) :
    Along step (fun state event => condition state event ∧ other state event) state events := by
  induction events generalizing state with
  | nil => trivial
  | cons event events induction =>
    exact ⟨⟨along.1, also.1⟩, fun next stepped =>
      induction (along.2 next stepped) (also.2 next stepped)⟩

theorem Along.forall {Index : Type} {conditions : Index → State → Event → Prop}
    (along : ∀ index, Along step (conditions index) state events) :
    Along step (fun state event => ∀ index, conditions index state event) state events := by
  induction events generalizing state with
  | nil => trivial
  | cons event events induction =>
    exact ⟨fun index => (along index).1, fun next stepped =>
      induction fun index => (along index).2 next stepped⟩

/-- A law that conditioned steps obey where an invariant holds which they keep. -/
theorem Along.of_invariant {law : State → Event → Prop} (invariant : State → Prop)
    (kept : ∀ {state event}, condition state event → invariant state →
      law state event ∧ ∀ next, step state event = some next → invariant next)
    (along : Along step condition state events) (start : invariant state) :
    Along step law state events := by
  induction events generalizing state with
  | nil => trivial
  | cons event events induction =>
    obtain ⟨here, still⟩ := kept along.1 start
    exact ⟨here, fun next stepped => induction (along.2 next stepped) (still next stepped)⟩

variable (invariant : State → Prop)

theorem invariant_run
    (kept : ∀ {state event next}, condition state event → step state event = some next →
      invariant state → invariant next)
    (along : Along step condition state events)
    (reached : run step state events = some final) (start : invariant state) :
    invariant final := by
  induction events generalizing state with
  | nil =>
    rw [run, Option.some.injEq] at reached
    rwa [← reached]
  | cons event events induction =>
    obtain ⟨next, stepped, rest⟩ := run_cons_eq_some.mp reached
    exact induction (along.2 next stepped) rest (kept along.1 stepped start)

theorem invariant_run_of_step
    (kept : ∀ {state event next}, step state event = some next → invariant state → invariant next)
    (reached : run step state events = some final) (start : invariant state) : invariant final := by
  have always : Along step (fun _ _ => True) state events := along_of_forall fun _ _ => trivial
  exact invariant_run invariant (fun _ => kept) always reached start

end Foundation
