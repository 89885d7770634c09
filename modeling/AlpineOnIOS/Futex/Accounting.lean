import AlpineOnIOS.Futex.Chains
import Mathlib.Data.Finset.Card

/-!
# Wakes and the waits they wake

`futex_wake` and `futex_requeue` return how many waiters they marked.  Each marked wait should
return 0.  `futex_wait` reports a timeout without a look at the mark, so the accounts are right for
runs in which no marked wait times out.
-/

namespace AlpineOnIOS.Futex

open Foundation List State

variable {Space : Type}

/-- The calls whose waiters have been marked. -/
def wokenCalls (state : State Space) : Finset Nat :=
  (Finset.range state.calls.length).filter fun id => (state.table.waiter id).woken = true

/-- How many waiters a call says it has woken. -/
def Call.counted : Call Space → Int
  | { action := .wake .., phase := .returned value, .. } => value
  | { action := .requeue .., phase := .returned value, .. } => value
  | _ => 0

/-- What a list of calls says together. -/
def countedBy : List (Call Space) → Int
  | [] => 0
  | call :: calls => call.counted + countedBy calls

/-- How many waiters all calls together say they have woken. -/
def State.counted (state : State Space) : Int := countedBy state.calls

/-- The phases of a wait that has given up the lock. -/
def Phase.isWaiting : Phase → Bool
  | .waiting _ _ => true
  | _ => false

variable {state : State Space}

theorem waiting_iff {id : Nat} :
    (state.phase id).any Phase.isWaiting = true ↔ Waiting state id := by
  rw [Waiting]
  cases state.phase id with
  | none => simp
  | some phase => cases phase <;> simp [Phase.isWaiting]

instance (state : State Space) (id : Nat) : Decidable (Waiting state id) :=
  decidable_of_iff _ waiting_iff

/-- The blocked waits that a wake looks for. -/
def queuedOn (state : State Space) (addr : UInt64) (bitset : UInt32) : Finset Nat :=
  (Finset.range state.calls.length).filter fun id =>
    Waiting state id ∧ wakes (state.table.waiter id) addr bitset = true

/-- No wait times out after it has been marked. -/
def NotLate (state : State Space) : Event Space → Prop
  | .call id .expire => (state.table.waiter id).woken = false
  | _ => True

/-- A wait that is blocked or has returned 0. -/
def Succeeds (state : State Space) (id : Nat) : Prop :=
  Waiting state id ∨ state.phase id = some (.returned 0)

/-- What the calls say adds up to the marked waits, which have returned nothing but 0. -/
structure Accounted (state : State Space) : Prop where
  waits : ∀ id, Waiting state id → IsWait state id
  marked : ∀ id, (state.table.waiter id).woken = true →
    IsWait state id ∧ Succeeds state id
  total : state.counted = (wokenCalls state).card

theorem accounted_start (memory : Space → Memory) : Accounted (start memory) :=
  { waits := by simp [Waiting, phase, start]
    marked := by simp [start, futexInit]
    total := rfl }

theorem countedBy_append (calls more : List (Call Space)) :
    countedBy (calls ++ more) = countedBy calls + countedBy more := by
  induction calls with
  | nil => simp [countedBy]
  | cons call calls induction => rw [cons_append, countedBy, countedBy, induction, Int.add_assoc]

variable {call : Call Space}

theorem countedBy_set {calls : List (Call Space)} {index : Nat}
    (found : calls[index]? = some call) (other : Call Space) :
    countedBy (calls.set index other) + call.counted = countedBy calls + other.counted := by
  induction calls generalizing index with
  | nil => cases found
  | cons first rest induction =>
    cases index with
    | zero =>
      obtain rfl : first = call := by simpa using found
      simp only [set_cons_zero, countedBy]
      omega
    | succ index =>
      have tail := @induction index (by simpa using found)
      simp only [set_cons_succ, countedBy]
      omega

section

variable (known : ∀ id, (state.table.waiter id).woken = true → id < state.calls.length)

include known

theorem mem_wokenCalls {id : Nat} :
    id ∈ wokenCalls state ↔ (state.table.waiter id).woken = true := by
  simpa [wokenCalls] using known id

theorem wokenCalls_eq_union {next : State Space} {marked : List Nat}
    (knownNext : ∀ id, (next.table.waiter id).woken = true → id < next.calls.length)
    (fresh : ∀ w ∈ marked, (state.table.waiter w).woken = false)
    (woken_iff : ∀ w, (next.table.waiter w).woken = true ↔
      (state.table.waiter w).woken = true ∨ w ∈ marked) :
    wokenCalls next = wokenCalls state ∪ marked.toFinset ∧
      Disjoint (wokenCalls state) marked.toFinset := by
  constructor
  · ext id
    rw [Finset.mem_union, mem_wokenCalls known, mem_wokenCalls knownNext, mem_toFinset, woken_iff]
  · rw [Finset.disjoint_left]
    intro id before new
    rw [mem_wokenCalls known, fresh id (mem_toFinset.mp new)] at before
    cases before

end

variable {val bitset : UInt32} {timeout : Option Timespec} {absTime : Bool}

theorem counted_wait {addr : UInt64}
    (action : call.action = .wait addr val bitset timeout absTime) : call.counted = 0 := by
  obtain ⟨_, _, _⟩ := call
  subst action
  rfl

theorem counted_pending (pending : call.phase = .pending) : call.counted = 0 := by
  obtain ⟨_, action, _⟩ := call
  subst pending
  cases action <;> rfl

theorem counted_enter (state : State Space) (space : Space) (action : Action) :
    ({ state with calls := state.calls ++ [{ space, action, phase := action.phase }] } :
      State Space).counted = state.counted := by
  have nothing : ({ space, action, phase := action.phase } : Call Space).counted = 0 := by
    cases action <;> rfl
  simp [counted, countedBy_append, countedBy, nothing]

section SetPhase

variable {id : Nat} {call : Call Space} (found : state.calls[id]? = some call) (table : Table)

include found

theorem counted_setPhase (phase : Phase) :
    ({ state with table }.setPhase id call phase).counted + call.counted =
      state.counted + { call with phase }.counted :=
  countedBy_set found _

theorem counted_setPhase_wait {addr : UInt64}
    (action : call.action = .wait addr val bitset timeout absTime) (phase : Phase) :
    ({ state with table }.setPhase id call phase).counted = state.counted := by
  have sum := counted_setPhase found table phase
  rwa [counted_wait action, counted_wait (by exact action), Int.add_zero, Int.add_zero] at sum

theorem counted_setPhase_returned (pending : call.phase = .pending) {value : Int}
    (counts : { call with phase := .returned value }.counted = value) :
    ({ state with table }.setPhase id call (.returned value)).counted = state.counted + value := by
  have sum := counted_setPhase found table (.returned value)
  rwa [counted_pending pending, counts, Int.add_zero] at sum

end SetPhase

section Step

variable {id : Nat}

theorem Succeeds.started (succeeds : Succeeds state id) : Started state id := by
  rcases succeeds with waiting | returned
  · exact started_of_waiting waiting
  · exact ⟨_, returned, by simp⟩

variable {other : Nat}

theorem Succeeds.ne_pending (succeeds : Succeeds state id)
    (found : state.calls[other]? = some call) (pending : call.phase = .pending) : id ≠ other := by
  rintro rfl
  exact not_started found pending succeeds.started

theorem Succeeds.setPhase (succeeds : Succeeds state id)
    (found : state.calls[other]? = some call) (different : id ≠ other) (table : Table)
    (phase : Phase) : Succeeds ({ state with table }.setPhase other call phase) id := by
  have same : ({ state with table }.setPhase other call phase).phase id = state.phase id := by
    rw [phase_setPhase (by exact found), if_neg different]
    rfl
  simpa only [Succeeds, Waiting, same] using succeeds

theorem Accounted.lt_length (accounted : Accounted state)
    (woken : (state.table.waiter id).woken = true) : id < state.calls.length := by
  obtain ⟨_, known, -⟩ := (accounted.marked id woken).2.started
  exact lt_length_of_phase known

theorem Accounted.unmarked (accounted : Accounted state)
    (found : state.calls[id]? = some call) (pending : call.phase = .pending) :
    (state.table.waiter id).woken = false := by
  rw [← Bool.not_eq_true]
  intro woken
  exact not_started found pending (accounted.marked id woken).2.started

variable [DecidableEq Space] {next : State Space} {event : Event Space}
  {chains chainsAfter : Fin 256 → List Nat}

theorem IsWait.step (isWait : IsWait state id) (stepped : step state event = some next)
    (inside : id < state.calls.length) : IsWait next id := by
  rw [IsWait, made_step stepped inside]
  exact isWait

/-- An event marks queued waiters that were not marked, and the calls say so. -/
theorem Outcome.marks (outcome : Outcome state chains event next chainsAfter)
    (accounted : Accounted state) :
    ∃ marked : List Nat, marked.Nodup ∧
      (∀ w ∈ marked, Queued chains w ∧ (state.table.waiter w).woken = false ∧
        ∀ id, event ≠ .call id .expire) ∧
      (∀ w, (next.table.waiter w).woken = true ↔ (state.table.waiter w).woken = true ∨ w ∈ marked) ∧
      next.counted = state.counted + marked.length := by
  cases outcome with
  | store => exact ⟨[], nodup_nil, by simp, by simp, by simp [counted]⟩
  | enter =>
    exact ⟨[], nodup_nil, by simp, by simp, by simp [counted_enter]⟩
  | @block id call found pending addr val bitset timeout absTime action =>
    refine ⟨[], nodup_nil, by simp, fun w => ?_, ?_⟩
    · by_cases same : w = id
      · subst same
        simp [setPhase, futexWaitEnter, accounted.unmarked found pending]
      · simp [setPhase, futexWaitEnter, same]
    · simpa using counted_setPhase_wait found _ action _
  | @wake id call found pending addr count bitset action marked chosen rearranged =>
    refine ⟨marked, rearranged.nodup, fun w member => ?_, rearranged.woken, ?_⟩
    · exact ⟨(rearranged.fresh w member).1, (rearranged.fresh w member).2, by simp⟩
    · exact counted_setPhase_returned found _ pending (by simp [Call.counted, action])
  | @requeue id call found pending source target wakeCount requeueLimit action table _ marked
      rearranged =>
      refine ⟨marked, rearranged.nodup, fun w member => ?_, rearranged.woken, ?_⟩
      · exact ⟨(rearranged.fresh w member).1, (rearranged.fresh w member).2, by simp⟩
      · exact counted_setPhase_returned found _ pending (by simp [Call.counted, action])
  | exhaust found pending action =>
    refine ⟨[], nodup_nil, by simp, by simp [setPhase], ?_⟩
    simpa using counted_setPhase_wait found state.table action _
  | again => exact ⟨[], nodup_nil, by simp, by simp, by simp⟩
  | @leave id call found h timed waiting progress ret leaves table _ sameWaiter represents
      members =>
      refine ⟨[], nodup_nil, by simp, by simp [setPhase, sameWaiter], ?_⟩
      obtain ⟨_, _, _, _, _, _, made⟩ := accounted.waits id ⟨h, timed, waiting ▸ phase_eq found⟩
      rw [made_eq found, Option.some.injEq, Prod.mk.injEq] at made
      simpa using counted_setPhase_wait found table made.2 _

theorem Outcome.succeeds (outcome : Outcome state chains event next chainsAfter)
    (succeeds : Succeeds state id) (inTime : event ≠ .call id .expire) : Succeeds next id := by
  cases outcome with
  | store | again => exact succeeds
  | enter =>
    exact succeeds.imp waiting_enter.mpr phase_enter_of_phase
  | block found pending | wake found pending | requeue found pending =>
    exact succeeds.setPhase found (succeeds.ne_pending found pending) _ _
  | exhaust found pending =>
    exact succeeds.setPhase found (succeeds.ne_pending found pending) state.table _
  | @leave other call found h timed waiting progress ret leaves table _ sameWaiter represents
      members =>
      by_cases same : id = other
      · subst same
        cases leaves with
        | woken =>
          right
          rw [phase_setPhase (by exact found), if_pos rfl]
        | timeout => exact absurd rfl inTime
      · exact succeeds.setPhase found same _ _

theorem Accounted.after (accounted : Accounted state) (live : Live state chains)
    (stepped : step state event = some next)
    (outcome : Outcome state chains event next chainsAfter) (notLate : NotLate state event) :
    Accounted next := by
  obtain ⟨_, nodup, fresh, woken_iff, counted⟩ := outcome.marks accounted
  have marks : ∀ id, (next.table.waiter id).woken = true → IsWait next id ∧ Succeeds next id := by
    intro id woken
    rcases (woken_iff id).mp woken with before | new
    · obtain ⟨isWait, succeeds⟩ := accounted.marked id before
      refine ⟨isWait.step stepped (accounted.lt_length before), outcome.succeeds succeeds ?_⟩
      rintro rfl
      rw [NotLate, before] at notLate
      cases notLate
    · obtain ⟨queued, -, inTime⟩ := fresh id new
      have waiting := live id queued
      exact ⟨(accounted.waits id waiting).step stepped (lt_length_of_waiting waiting),
        outcome.succeeds (.inl waiting) (inTime id)⟩
  refine ⟨fun id waiting => ?_, marks, ?_⟩
  · rcases outcome.waiting waiting with before | ⟨-, pending, isWait⟩
    · exact (accounted.waits id before).step stepped (lt_length_of_waiting before)
    · exact isWait.step stepped (lt_length_of_phase pending)
  · have knownNext : ∀ id, (next.table.waiter id).woken = true → id < next.calls.length := by
      intro id woken
      obtain ⟨_, known, -⟩ := (marks id woken).2.started
      exact lt_length_of_phase known
    obtain ⟨union, disjoint⟩ := wokenCalls_eq_union (fun _ => accounted.lt_length) knownNext
      (fun w member => (fresh w member).2.1) woken_iff
    rw [counted, accounted.total, union, Finset.card_union_of_disjoint disjoint,
      toFinset_card_of_nodup nodup, Int.natCast_add]

omit [DecidableEq Space] in
/-- The blocked waits that a wake looks for are those in the chain of the address. -/
theorem queuedOn_eq (consistent : Consistent state chains) (live : Live state chains)
    (addr : UInt64) (bitset : UInt32) :
    queuedOn state addr bitset =
      ((chains (futexHashFn addr)).filter
        fun w => wakes (state.table.waiter w) addr bitset).toFinset := by
  ext id
  rw [queuedOn, Finset.mem_filter, mem_toFinset, mem_filter, Finset.mem_range]
  constructor
  · rintro ⟨-, waiting, wanted⟩
    obtain ⟨bucket, member⟩ := consistent.queued id waiting
    have here := consistent.placed bucket id member
    have sameAddr : (state.table.waiter id).addr = addr := by
      simp only [wakes, Bool.and_eq_true, beq_iff_eq] at wanted
      exact wanted.1.1
    rw [sameAddr] at here
    exact ⟨here ▸ member, wanted⟩
  · rintro ⟨member, wanted⟩
    have waiting := live id ⟨_, member⟩
    exact ⟨lt_length_of_waiting waiting, waiting, wanted⟩

/-- A wake marks as many of the waits that it looks for as its count allows, and says so. -/
theorem Accounted.wake (accounted : Accounted state) (consistent : Consistent state chains)
    (live : Live state chains) {space : Space} {addr : UInt64} {count : Int} (nonneg : 0 ≤ count)
    (call : state.made id = some (space, .wake addr count bitset))
    (stepped : step state (.call id .perform) = some next) :
    next.phase id = some (.returned (min count (queuedOn state addr bitset).card)) ∧
      wokenCalls next \ wokenCalls state ⊆ queuedOn state addr bitset ∧
        ((wokenCalls next \ wokenCalls state).card : Int) =
          min count (queuedOn state addr bitset).card := by
  obtain ⟨_, outcome⟩ := consistent.outcome stepped
  have accountedNext := accounted.after live stepped outcome trivial
  cases outcome with
  | block found pending action | requeue found pending action =>
    simp [made_eq found, action] at call
  | leave found waits leaves => cases leaves
  | @wake _ _ found pending addr' count' bitset' action marked chosen rearranged =>
    rw [made_eq found, action] at call
    cases call
    have nodup := (consistent.represents.nodup (futexHashFn addr)).filter
      fun w => wakes (state.table.waiter w) addr bitset
    have cards : (marked.length : Int) = min count (queuedOn state addr bitset).card := by
      rw [queuedOn_eq consistent live, toFinset_card_of_nodup nodup, chosen, selected, length_take]
      omega
    obtain ⟨union, disjoint⟩ := wokenCalls_eq_union (fun _ => accounted.lt_length)
      (fun _ => accountedNext.lt_length) (fun w member => (rearranged.fresh w member).2)
      rearranged.woken
    rw [union, Finset.union_sdiff_cancel_left disjoint, toFinset_card_of_nodup rearranged.nodup,
      phase_setPhase (by exact found), if_pos rfl, cards]
    refine ⟨rfl, ?_, rfl⟩
    rw [queuedOn_eq consistent live, chosen]
    intro w member
    rw [mem_toFinset] at member ⊢
    exact mem_of_mem_take member

theorem Consistent.resume (consistent : Consistent state chains)
    (waiting : Waiting state id) (woken : (state.table.waiter id).woken = true) :
    ∃ next, step state (.call id .resume) = some next ∧ next.phase id = some (.returned 0) := by
  obtain ⟨h, _, known⟩ := waiting
  obtain ⟨call, found, phase⟩ := Option.map_eq_some_iff.mp known
  obtain ⟨table, _, finished, -⟩ := futexWaitLeave_spec consistent.represents id
    (Nat.lt_succ_of_le (consistent.length_le h))
  refine ⟨{ state with table }.setPhase id call (.returned 0), ?_, ?_⟩
  · simp [step, found, stepCall, phase, woken, leaveWait, finished]
  · rw [phase_setPhase (by exact found), if_pos rfl]

end Step

/-- Where no marked wait times out, wakes count exactly the waits that return 0. -/
theorem accounted_run [DecidableEq Space] (memory : Space → Memory) {events : List (Event Space)}
    {final : State Space} (reached : run step (.start memory) events = some final)
    (keeps : Along step KeepsBucket (.start memory) events)
    (inTime : Along step NotLate (.start memory) events) :
    final.counted = (wokenCalls final).card ∧
      (∀ id ∈ wokenCalls final, IsWait final id ∧
        (final.phase id = some (.returned 0) ∨
          ∃ next, step final (.call id .resume) = some next ∧ next.phase id = some (.returned 0))) ∧
      (∀ id, final.phase id = some (.returned (-110)) → id ∉ wokenCalls final) ∧
      ∀ id space addr count bitset next, 0 ≤ count →
        final.made id = some (space, .wake addr count bitset) →
          step final (.call id .perform) = some next →
            next.phase id = some (.returned (min count (queuedOn final addr bitset).card)) ∧
              wokenCalls next \ wokenCalls final ⊆ queuedOn final addr bitset ∧
                ((wokenCalls next \ wokenCalls final).card : Int) =
                  min count (queuedOn final addr bitset).card := by
  obtain ⟨chains, consistent, live, accounted⟩ :
      ∃ chains, Consistent final chains ∧ Live final chains ∧ Accounted final := by
    refine invariant_run
      (fun state => ∃ chains, Consistent state chains ∧ Live state chains ∧ Accounted state) ?_
      (keeps.and inTime) reached
      ⟨_, consistent_start memory, live_start memory, accounted_start memory⟩
    rintro state event next ⟨keeps, notLate⟩ stepped ⟨_, consistent, live, accounted⟩
    obtain ⟨chainsAfter, outcome⟩ := consistent.outcome stepped
    exact ⟨chainsAfter, consistent.after outcome, (live.after_iff consistent outcome).mpr keeps,
      accounted.after live stepped outcome notLate⟩
  have marked_iff : ∀ id, id ∈ wokenCalls final ↔ (final.table.waiter id).woken = true := fun id =>
    mem_wokenCalls fun _ => accounted.lt_length
  refine ⟨accounted.total, fun id member => ?_, fun id timedOut member => ?_, ?_⟩
  · have woken := (marked_iff id).mp member
    obtain ⟨isWait, waiting | returned⟩ := accounted.marked id woken
    · exact ⟨isWait, .inr (consistent.resume waiting woken)⟩
    · exact ⟨isWait, .inl returned⟩
  · obtain ⟨-, ⟨_, _, waiting⟩ | returned⟩ := accounted.marked id ((marked_iff id).mp member)
    · simp [timedOut] at waiting
    · simp [timedOut] at returned
  · intro id space addr count bitset next nonneg call stepped
    exact accounted.wake consistent live nonneg call stepped

/-- A wait with a timeout blocks and is marked. -/
def timedWait : List (Event Unit) :=
  [.enter () 0 0 0 8 0 0, .call 0 .perform, .enter () 0 1 1 0 0 0, .call 1 .perform]

def timedWaitEnd : State Unit := (run step (.start fun _ => .constant 0) timedWait).get rfl

theorem accounted_run_timedWait :
    0 ∈ wokenCalls timedWaitEnd ∧ timedWaitEnd.counted = 1 ∧
      timedWaitEnd.counted = (wokenCalls timedWaitEnd).card := by
  have reached : run step (.start fun _ => .constant 0) timedWait = some timedWaitEnd := rfl
  refine ⟨by decide, rfl, (accounted_run _ reached ?_ ?_).1⟩
  · exact .cons rfl trivial (.cons rfl trivial (.cons rfl trivial (.cons rfl trivial trivial)))
  · exact .cons rfl trivial (.cons rfl trivial (.cons rfl trivial (.cons rfl trivial trivial)))

/-- A wait whose time is over reports a timeout, although a wake has counted it. -/
theorem timedWait_expires :
    ∃ final, run step (.start fun _ => .constant 0) (timedWait ++ [.call 0 .expire]) = some final ∧
      final.phase 1 = some (.returned 1) ∧ final.counted = 1 ∧ 0 ∈ wokenCalls final ∧
        final.phase 0 = some (.returned (-110)) :=
  ⟨_, rfl, rfl, rfl, by decide, rfl⟩

end AlpineOnIOS.Futex
