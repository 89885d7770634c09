import Mathlib.Data.List.Basic
import Mathlib.Data.Option.Basic

/-!
# Loops that leave with a result

A loop body passes on a state or leaves with a result.  With a measure that every iteration makes
smaller, the loop is a function of its first state; its rules are stated for that function.
-/

namespace Foundation

variable {State Result : Type}

/-- How an iteration ends. -/
inductive Control (State Result : Type) where
  | next (state : State)
  | exit (result : Result)

/-- Iterate at most `fuel` times. -/
def loop (step : State → Control State Result) : Nat → State → Option Result
  | 0, _ => none
  | fuel + 1, state =>
    match step state with
    | .next following => loop step fuel following
    | .exit result => some result

/-- The states in which the first `fuel` iterations start. -/
def trace (step : State → Control State Result) : Nat → State → List State
  | 0, _ => []
  | fuel + 1, state =>
    state :: match step state with
      | .next following => trace step fuel following
      | .exit _ => []

variable {fuel : Nat} {state : State} {result : Result}

theorem loop_rule {step : State → Control State Result} (invariant : State → Prop)
    (post : Result → Prop)
    (kept : ∀ {state following}, step state = .next following → invariant state →
      invariant following)
    (left : ∀ {state result}, step state = .exit result → invariant state → post result)
    (start : invariant state) (ended : loop step fuel state = some result) : post result := by
  induction fuel generalizing state with
  | zero => cases ended
  | succ fuel induction =>
    rw [loop] at ended
    split at ended
    · rename_i stepped
      exact induction (kept stepped start) ended
    rename_i stepped
    cases ended
    exact left stepped start

section Rules

variable {step : State → Control State Result} {measure : State → Nat}
  (decreases : ∀ {state following}, step state = .next following →
    measure following < measure state)

include decreases in
theorem loop_isSome (enough : measure state < fuel) : (loop step fuel state).isSome = true := by
  induction fuel generalizing state with
  | zero => exact absurd enough (Nat.not_lt_zero _)
  | succ fuel induction =>
    rw [loop]
    cases stepped : step state with
    | next => exact induction (Nat.lt_of_lt_of_le (decreases stepped) (by omega))
    | exit => rfl

/-- The result of a loop whose iterations make the measure smaller. -/
def runLoop (state : State) : Result :=
  (loop step (measure state + 1) state).get (loop_isSome decreases (Nat.lt_succ_self _))

include decreases in
theorem enough_fuel {few many : Nat} (enoughFew : measure state < few)
    (enoughMany : measure state < many) :
    loop step few state = loop step many state ∧ trace step few state = trace step many state := by
  induction few generalizing many state with
  | zero => exact absurd enoughFew (Nat.not_lt_zero _)
  | succ few induction =>
    obtain ⟨_, rfl⟩ := Nat.exists_eq_add_one_of_ne_zero (Nat.ne_zero_of_lt enoughMany)
    rw [loop, loop, trace, trace]
    cases stepped : step state with
    | next =>
      have smaller := decreases stepped
      exact (induction (by omega) (by omega)).imp_right (congrArg (state :: ·))
    | exit => exact ⟨rfl, rfl⟩

theorem loop_eq_runLoop (enough : measure state < fuel) :
    loop step fuel state = some (runLoop decreases state) := by
  rw [(enough_fuel decreases enough (Nat.lt_succ_self _)).1, runLoop, Option.some_get]

include decreases in
theorem trace_next {following : State} (stepped : step state = .next following) :
    trace step (measure state + 1) state =
      state :: trace step (measure following + 1) following := by
  have smaller := decreases stepped
  rw [trace, stepped]
  exact congrArg (state :: ·) (enough_fuel decreases smaller (Nat.lt_succ_self _)).2

theorem runLoop_next {following : State} (stepped : step state = .next following) :
    runLoop decreases state = runLoop decreases following := by
  have smaller := decreases stepped
  have unfolded : loop step (measure state + 1) state = loop step (measure state) following := by
    rw [loop, stepped]
  rw [loop_eq_runLoop decreases (Nat.lt_succ_self _), loop_eq_runLoop decreases smaller] at unfolded
  exact Option.some.inj unfolded

theorem runLoop_exit (stepped : step state = .exit result) : runLoop decreases state = result := by
  have unfolded : loop step (measure state + 1) state = some result := by
    rw [loop, stepped]
  rw [loop_eq_runLoop decreases (Nat.lt_succ_self _)] at unfolded
  exact Option.some.inj unfolded

theorem trace_exit (stepped : step state = .exit result) :
    trace step (fuel + 1) state = [state] := by
  rw [trace, stepped]

theorem runLoop_rule (invariant : State → Prop) (post : Result → Prop)
    (kept : ∀ {state following}, step state = .next following → invariant state →
      invariant following)
    (left : ∀ {state result}, step state = .exit result → invariant state → post result)
    (start : invariant state) : post (runLoop decreases state) :=
  loop_rule invariant post kept left start (loop_eq_runLoop decreases (Nat.lt_succ_self _))

end Rules

variable {α β : Type}

/-- Visit the items in order; `none` is a fault, `some none` skips an item. -/
def scan (visit : α → Option (Option β)) : List α → Option (List β)
  | [] => some []
  | item :: rest =>
    match visit item with
    | none => none
    | some none => scan visit rest
    | some (some value) => (scan visit rest).map (value :: ·)

variable {visit : α → Option (Option β)} {values : List β} {item : α} {items : List α}

theorem scan_cons_eq_some :
    scan visit (item :: items) = some values ↔ ∃ outcome others,
      visit item = some outcome ∧ scan visit items = some others ∧
        outcome.toList ++ others = values := by
  rw [scan]
  cases visit item with
  | none => simp
  | some outcome =>
    cases outcome with
    | none | some => simp

variable (scanned : scan visit items = some values)

include scanned

theorem scan_visited : ∀ item ∈ items, (visit item).isSome := by
  induction items generalizing values with
  | nil => simp
  | cons item rest induction =>
    obtain ⟨_, _, visited, others, -⟩ := scan_cons_eq_some.mp scanned
    exact List.forall_mem_cons.mpr ⟨by simp [visited], induction others⟩

theorem scan_eq_filterMap : values = items.filterMap fun item => (visit item).join := by
  induction items generalizing values with
  | nil =>
    rw [scan, Option.some.injEq] at scanned
    exact scanned.symm
  | cons item rest induction =>
    obtain ⟨outcome, _, visited, others, rfl⟩ := scan_cons_eq_some.mp scanned
    rw [induction others, List.filterMap_cons, visited, Option.join_some]
    cases outcome with
    | none | some => rfl

theorem mem_of_scan {value : β} :
    value ∈ values ↔ ∃ item ∈ items, visit item = some (some value) := by
  simp [scan_eq_filterMap scanned, Option.join_eq_some_iff]

end Foundation
