import AlpineOnIOS.Futex.Table
import Mathlib.Data.List.Perm.Subperm

/-!
# The chains along a run

The chains are well formed, hold each waiter under its address, and hold every blocked wait.
Whether they hold nothing else depends on where a wait is when it returns.
-/

namespace AlpineOnIOS.Futex

open Foundation

variable {Space : Type}

/-- A wait that has given up the lock. -/
def Waiting (state : State Space) (id : Nat) : Prop :=
  ∃ h timed, state.phase id = some (.waiting h timed)

/-- A call of `futex_wait`. -/
def IsWait (state : State Space) (id : Nat) : Prop :=
  ∃ space addr val bitset timeout absTime,
    state.made id = some (space, .wait addr val bitset timeout absTime)

/-- A call that has taken the lock or returned. -/
def Started (state : State Space) (id : Nat) : Prop :=
  ∃ phase, state.phase id = some phase ∧ phase ≠ .pending

variable {state : State Space}

theorem lt_length_of_waiting {id : Nat} (waiting : Waiting state id) : id < state.calls.length := by
  obtain ⟨_, _, known⟩ := waiting
  exact lt_length_of_phase known

theorem started_of_waiting {id : Nat} (waiting : Waiting state id) : Started state id := by
  obtain ⟨_, _, known⟩ := waiting
  exact ⟨_, known, by simp⟩

/-- What holds of the chains in every reachable state. -/
structure Consistent (state : State Space) (chains : Fin 256 → List Nat) : Prop where
  represents : Represents state.table.links chains
  placed : Placed state.table chains
  queued : ∀ id, Waiting state id → Queued chains id
  started : ∀ id, Queued chains id → Started state id

/-- Only blocked waits are in the chains. -/
def Live (state : State Space) (chains : Fin 256 → List Nat) : Prop :=
  ∀ id, Queued chains id → Waiting state id

/-- The waiter of a blocked wait is in the chain in which the wait put it. -/
def InBucket (state : State Space) (id : Nat) : Prop :=
  ∀ h timed, state.phase id = some (.waiting h timed) →
    futexHashFn (state.table.waiter id).addr = h

/-- A wait returns only while its waiter is in the chain in which the wait put it. -/
def KeepsBucket (state : State Space) : Event Space → Prop
  | .call id .resume => (state.table.waiter id).woken = true → InBucket state id
  | .call id .expire => InBucket state id
  | _ => True

variable (memory : Space → Memory)

theorem consistent_start :
    Consistent (State.start memory) fun _ => [] :=
  { represents := represents_empty
    placed := by simp [Placed]
    queued := by simp [Waiting, State.phase, State.start]
    started := by simp [Queued] }

theorem live_start : Live (State.start memory) fun _ => [] := by
  simp [Live, Queued]

variable {chains : Fin 256 → List Nat}

theorem Consistent.length_le (consistent : Consistent state chains) (bucket : Fin 256) :
    (chains bucket).length ≤ state.calls.length := by
  have inRange : chains bucket ⊆ List.range state.calls.length := by
    intro id member
    obtain ⟨_, known, -⟩ := consistent.started id ⟨bucket, member⟩
    exact List.mem_range.mpr (lt_length_of_phase known)
  simpa using ((consistent.represents.nodup bucket).subperm inRange).length_le

theorem not_started {id : Nat} {call : Call Space} (found : state.calls[id]? = some call)
    (pending : call.phase = .pending) : ¬Started state id := by
  rintro ⟨_, known, notPending⟩
  rw [phase_eq found, pending, Option.some.injEq] at known
  exact notPending known.symm

theorem Consistent.not_queued (consistent : Consistent state chains) {id : Nat} {call : Call Space}
    (found : state.calls[id]? = some call) (pending : call.phase = .pending) :
    ¬Queued chains id := fun queued => not_started found pending (consistent.started id queued)

variable {other : Nat}

section Phases

theorem waiting_enter {space : Space} {action : Action} :
    Waiting { state with calls := state.calls ++ [{ space, action, phase := action.phase }] } other ↔
      Waiting state other := by
  constructor
  · rintro ⟨h, timed, known⟩
    rcases phase_enter known with old | ⟨-, new⟩
    · exact ⟨h, timed, old⟩
    · cases action <;> simp [Action.phase] at new
  · rintro ⟨h, timed, known⟩
    exact ⟨h, timed, phase_enter_of_phase known⟩

theorem Started.enter {call : Call Space} (started : Started state other) :
    Started { state with calls := state.calls ++ [call] } other := by
  obtain ⟨phase, known, notPending⟩ := started
  exact ⟨phase, phase_enter_of_phase known, notPending⟩

variable {id : Nat} {call : Call Space} (found : state.calls[id]? = some call)

include found

theorem waiting_setPhase_returned (ret : Int) :
    Waiting (state.setPhase id call (.returned ret)) other ↔ other ≠ id ∧ Waiting state other := by
  simp only [Waiting, phase_setPhase found]
  by_cases same : other = id
  · simp [same]
  · simp [same]

theorem waiting_setPhase_waiting (h : Fin 256) (timed : Bool) :
    Waiting (state.setPhase id call (.waiting h timed)) other ↔ other = id ∨ Waiting state other := by
  simp only [Waiting, phase_setPhase found]
  by_cases same : other = id
  · simp [same]
  · simp [same]

theorem started_setPhase {phase : Phase} (notPending : phase ≠ .pending) :
    Started (state.setPhase id call phase) other ↔ other = id ∨ Started state other := by
  simp only [Started, phase_setPhase found]
  by_cases same : other = id
  · simp [same, notPending]
  · simp [same]

end Phases

variable {chainsAfter : Fin 256 → List Nat}

section Step

theorem Consistent.enter (consistent : Consistent state chains) (space : Space) (action : Action) :
    Consistent { state with calls := state.calls ++ [{ space, action, phase := action.phase }] }
      chains :=
  { represents := consistent.represents
    placed := consistent.placed
    queued := fun id waiting => consistent.queued id (waiting_enter.mp waiting)
    started := fun id queued => (consistent.started id queued).enter }

variable {id : Nat} {call : Call Space} (found : state.calls[id]? = some call)

include found

theorem Consistent.block (consistent : Consistent state chains) (pending : call.phase = .pending)
    (addr : UInt64) (bitset : UInt32) (timed : Bool) :
    Consistent
      ({ state with table := futexWaitEnter state.table id addr bitset }.setPhase id call
        (.waiting (futexHashFn addr) timed))
      (Function.update chains (futexHashFn addr) (id :: chains (futexHashFn addr))) := by
  have outside : ∀ bucket, id ∉ chains bucket := fun bucket member =>
    consistent.not_queued found pending ⟨bucket, member⟩
  refine
    { represents := consistent.represents.push outside
      placed := fun bucket other member => ?_
      queued := fun other waiting => ?_
      started := fun other queued => ?_ }
  · rcases Represents.mem_push.mp member with ⟨rfl, rfl⟩ | inChain
    · simp [State.setPhase, futexWaitEnter]
    have different : other ≠ id := by
      rintro rfl
      exact outside bucket inChain
    simpa [State.setPhase, futexWaitEnter, different] using
      consistent.placed bucket other inChain
  · rw [waiting_setPhase_waiting (by exact found)] at waiting
    exact queued_push.mpr (waiting.imp_right (consistent.queued other))
  · rw [started_setPhase (by exact found) (by simp)]
    exact (queued_push.mp queued).imp_right (consistent.started other)

variable {table : Table} {marked : List Nat}

theorem Consistent.rearrange (consistent : Consistent state chains)
    (rearranged : Rearranged state.table chains marked table chainsAfter) (ret : Int) :
    Consistent ({ state with table }.setPhase id call (.returned ret)) chainsAfter := by
  refine
    { represents := rearranged.represents
      placed := rearranged.placed consistent.placed
      queued := fun other waiting => ?_
      started := fun other queued => ?_ }
  · rw [waiting_setPhase_returned (by exact found)] at waiting
    exact (rearranged.queued other).mpr (consistent.queued other waiting.2)
  · rw [started_setPhase (by exact found) (by simp)]
    exact .inr (consistent.started other ((rearranged.queued other).mp queued))

variable {h : Fin 256}

/-- A wait that returns takes its waiter out of the chain in which it put it. -/
theorem Consistent.leave (consistent : Consistent state chains)
    (sameWaiter : table.waiter = state.table.waiter)
    (represents : Represents table.links chainsAfter)
    (members : ∀ bucket other, other ∈ chainsAfter bucket ↔
      other ∈ chains bucket ∧ ¬(other = id ∧ bucket = h)) (ret : Int) :
    Consistent ({ state with table }.setPhase id call (.returned ret)) chainsAfter := by
  refine
    { represents
      placed := fun bucket other member => ?_
      queued := fun other waiting => ?_
      started := fun other queued => ?_ }
  · have inChain := ((members bucket other).mp member).1
    exact sameWaiter ▸ consistent.placed bucket other inChain
  · rw [waiting_setPhase_returned (by exact found)] at waiting
    obtain ⟨bucket, inChain⟩ := consistent.queued other waiting.2
    exact ⟨bucket, (members bucket other).mpr ⟨inChain, fun same => waiting.1 same.1⟩⟩
  · rw [started_setPhase (by exact found) (by simp)]
    obtain ⟨bucket, member⟩ := queued
    exact .inr (consistent.started other ⟨bucket, ((members bucket other).mp member).1⟩)

theorem Live.rearrange (live : Live state chains) (consistent : Consistent state chains)
    (pending : call.phase = .pending)
    (rearranged : Rearranged state.table chains marked table chainsAfter) (ret : Int) :
    Live ({ state with table }.setPhase id call (.returned ret)) chainsAfter := by
  intro other queued
  rw [rearranged.queued] at queued
  rw [waiting_setPhase_returned (by exact found)]
  refine ⟨?_, live other queued⟩
  rintro rfl
  exact consistent.not_queued found pending queued

variable {timed : Bool}

/-- A wait leaves nothing behind exactly if it returns from the chain in which it put its waiter. -/
theorem live_leave_iff (live : Live state chains) (consistent : Consistent state chains)
    (waiting : call.phase = .waiting h timed)
    (members : ∀ bucket other, other ∈ chainsAfter bucket ↔
      other ∈ chains bucket ∧ ¬(other = id ∧ bucket = h)) (ret : Int) :
    Live ({ state with table }.setPhase id call (.returned ret)) chainsAfter ↔
      futexHashFn (state.table.waiter id).addr = h := by
  constructor
  · intro liveAfter
    obtain ⟨bucket, inChain⟩ := consistent.queued id ⟨h, timed, waiting ▸ phase_eq found⟩
    rw [consistent.placed bucket id inChain]
    by_contra elsewhere
    have left := liveAfter id
      ⟨bucket, (members bucket id).mpr ⟨inChain, fun same => elsewhere same.2⟩⟩
    rw [waiting_setPhase_returned (by exact found)] at left
    exact left.1 rfl
  · rintro here other ⟨bucket, member⟩
    obtain ⟨inChain, kept⟩ := (members bucket other).mp member
    rw [waiting_setPhase_returned (by exact found)]
    refine ⟨?_, live other ⟨bucket, inChain⟩⟩
    rintro rfl
    exact kept ⟨rfl, (consistent.placed bucket other inChain).symm.trans here⟩

theorem keepsBucket_leave_iff (waiting : call.phase = .waiting h timed) {progress : Progress}
    {ret : Int} (leaves : Leaves state id progress timed ret) :
    KeepsBucket state (.call id progress) ↔ futexHashFn (state.table.waiter id).addr = h := by
  have inBucket_iff : InBucket state id ↔ futexHashFn (state.table.waiter id).addr = h := by
    simp [InBucket, phase_eq found, waiting]
  cases leaves with
  | woken marked => simp [KeepsBucket, marked, inBucket_iff]
  | timeout => exact inBucket_iff

end Step

/-- The outcomes of an event together with the chains after it. -/
inductive Outcome [DecidableEq Space] (state : State Space) (chains : Fin 256 → List Nat) :
    Event Space → State Space → (Fin 256 → List Nat) → Prop where
  | store (space : Space) (memory : Memory) :
      Outcome state chains (.store space memory)
        { state with memory := Function.update state.memory space memory } chains
  | enter (space : Space) (a0 a1 a2 a3 a4 a5 : UInt64) (action : Action)
      (checked : action = doFutex (state.memory space) a0 a1 a2 a3 a4 a5) :
      Outcome state chains (.enter space a0 a1 a2 a3 a4 a5)
        { state with calls := state.calls ++ [{ space, action, phase := action.phase }] } chains
  | block {id : Nat} {call : Call Space} (found : state.calls[id]? = some call)
      (pending : call.phase = .pending) {addr : UInt64} {val bitset : UInt32}
      {timeout : Option Timespec} {absTime : Bool}
      (action : call.action = .wait addr val bitset timeout absTime) :
      Outcome state chains (.call id .perform)
        ({ state with table := futexWaitEnter state.table id addr bitset }.setPhase id call
          (.waiting (futexHashFn addr) timeout.isSome))
        (Function.update chains (futexHashFn addr) (id :: chains (futexHashFn addr)))
  | wake {id : Nat} {call : Call Space} (found : state.calls[id]? = some call)
      (pending : call.phase = .pending) {addr : UInt64} {count : Int} {bitset : UInt32}
      (action : call.action = .wake addr count bitset) {marked : List Nat}
      (chosen : marked =
        selected state.table.waiter addr bitset count.toNat (chains (futexHashFn addr)))
      (rearranged : Rearranged state.table chains marked
        { state.table with waiter := markAll state.table.waiter marked } chains) :
      Outcome state chains (.call id .perform)
        ({ state with
            table := { state.table with waiter := markAll state.table.waiter marked } }.setPhase
          id call (.returned marked.length)) chains
  | requeue {id : Nat} {call : Call Space} (found : state.calls[id]? = some call)
      (pending : call.phase = .pending) {source target : UInt64} {wakeCount requeueLimit : Int}
      (action : call.action = .requeue source target wakeCount requeueLimit) {table : Table}
      {chainsAfter : Fin 256 → List Nat} {marked : List Nat}
      (rearranged : Rearranged state.table chains marked table chainsAfter) :
      Outcome state chains (.call id .perform)
        ({ state with table }.setPhase id call (.returned marked.length)) chainsAfter
  | exhaust {id : Nat} {call : Call Space} (found : state.calls[id]? = some call)
      (pending : call.phase = .pending) {addr : UInt64} {val bitset : UInt32}
      {timeout : Option Timespec} {absTime : Bool}
      (action : call.action = .wait addr val bitset timeout absTime) :
      Outcome state chains (.call id .exhaust) (state.setPhase id call (.returned (-12))) chains
  | again {id : Nat} (unmarked : (state.table.waiter id).woken = false) :
      Outcome state chains (.call id .resume) state chains
  | leave {id : Nat} {call : Call Space} (found : state.calls[id]? = some call) {h : Fin 256}
      {timed : Bool} (waiting : call.phase = .waiting h timed) {progress : Progress} {ret : Int}
      (leaves : Leaves state id progress timed ret) {table : Table}
      {chainsAfter : Fin 256 → List Nat} (sameWaiter : table.waiter = state.table.waiter)
      (represents : Represents table.links chainsAfter)
      (members : ∀ bucket other, other ∈ chainsAfter bucket ↔
        other ∈ chains bucket ∧ ¬(other = id ∧ bucket = h)) :
      Outcome state chains (.call id progress)
        ({ state with table }.setPhase id call (.returned ret)) chainsAfter

section Outcome

variable [DecidableEq Space] {next : State Space} {event : Event Space}

/-- Every operation finishes, and every event has one of the outcomes. -/
theorem Consistent.outcome (consistent : Consistent state chains)
    (stepped : step state event = some next) :
    ∃ chainsAfter, Outcome state chains event next chainsAfter := by
  have enough : ∀ bucket, (chains bucket).length < state.calls.length + 1 := fun bucket =>
    Nat.lt_succ_of_le (consistent.length_le bucket)
  cases stepped_of_step stepped with
  | store space memory => exact ⟨_, .store space memory⟩
  | enter space a0 a1 a2 a3 a4 a5 action checked =>
    exact ⟨_, .enter space a0 a1 a2 a3 a4 a5 action checked⟩
  | block found pending action => exact ⟨_, .block found pending action⟩
  | @wake id call found pending addr count bitset action table woken finished =>
    rw [futexWake_spec consistent.represents addr count bitset (enough _)] at finished
    cases finished
    obtain ⟨nodup, fresh⟩ := selected_fresh consistent.represents addr bitset count.toNat
    exact ⟨_, .wake found pending action rfl (rearranged_markAll consistent.represents nodup fresh)⟩
  | @requeue id call found pending source target wakeCount requeueLimit action table woken
      finished =>
      obtain ⟨_, chainsAfter, _, returned, rearranged⟩ :=
        futexRequeue_spec source target wakeCount requeueLimit consistent.represents
          (Nat.lt_succ_of_le (Nat.add_le_add_right (consistent.length_le _) _))
      cases returned.symm.trans finished
      exact ⟨chainsAfter, .requeue found pending action rearranged⟩
  | exhaust found pending action => exact ⟨_, .exhaust found pending action⟩
  | again unmarked => exact ⟨_, .again unmarked⟩
  | @leave id call found h timed waiting progress ret leaves table finished =>
    obtain ⟨_, chainsAfter, returned, sameWaiter, represents, members⟩ :=
      futexWaitLeave_spec consistent.represents id (enough h)
    cases returned.symm.trans finished
    exact ⟨chainsAfter, .leave found waiting leaves sameWaiter represents members⟩

theorem Consistent.after (consistent : Consistent state chains)
    (outcome : Outcome state chains event next chainsAfter) : Consistent next chainsAfter := by
  cases outcome with
  | store =>
    exact ⟨consistent.represents, consistent.placed, consistent.queued, consistent.started⟩
  | enter space a0 a1 a2 a3 a4 a5 action => exact consistent.enter space action
  | block found pending => exact consistent.block found pending _ _ _
  | wake found pending action chosen rearranged | requeue found pending action rearranged =>
    exact consistent.rearrange found rearranged _
  | exhaust found =>
    exact consistent.rearrange found (.refl consistent.represents) _
  | again => exact consistent
  | leave found waiting leaves sameWaiter represents members =>
    exact consistent.leave found sameWaiter represents members _

/-- An event leaves no waiter behind exactly if no wait returns from a chain to which it was
moved. -/
theorem Live.after_iff (live : Live state chains) (consistent : Consistent state chains)
    (outcome : Outcome state chains event next chainsAfter) :
    Live next chainsAfter ↔ KeepsBucket state event := by
  cases outcome with
  | store => exact iff_of_true live trivial
  | enter =>
    exact iff_of_true (fun id queued => waiting_enter.mpr (live id queued)) trivial
  | block found =>
    refine iff_of_true (fun other queued => ?_) trivial
    rw [waiting_setPhase_waiting (by exact found)]
    exact (queued_push.mp queued).imp_right (live other)
  | wake found pending action chosen rearranged | requeue found pending action rearranged =>
    exact iff_of_true (live.rearrange found consistent pending rearranged _) trivial
  | exhaust found pending =>
    have rearranged := Rearranged.refl consistent.represents
    exact iff_of_true (live.rearrange found consistent pending rearranged _) trivial
  | again unmarked => exact iff_of_true live (by simp [KeepsBucket, unmarked])
  | leave found waiting leaves sameWaiter represents members =>
    rw [live_leave_iff found live consistent waiting members,
      keepsBucket_leave_iff found waiting leaves]

/-- A wait that is blocked after an event was blocked before it, or took the lock. -/
theorem Outcome.waiting (outcome : Outcome state chains event next chainsAfter)
    (waiting : Waiting next other) :
    Waiting state other ∨
      (event = .call other .perform ∧ state.phase other = some .pending ∧ IsWait state other) := by
  cases outcome with
  | store | again => exact .inl waiting
  | enter => exact .inl (waiting_enter.mp waiting)
  | block found pending action =>
    rcases (waiting_setPhase_waiting (by exact found) _ _).mp waiting with rfl | before
    · exact .inr ⟨rfl, pending ▸ phase_eq found, _, _, _, _, _, _, action ▸ made_eq found⟩
    · exact .inl before
  | wake found | requeue found | leave found =>
    exact .inl ((waiting_setPhase_returned (by exact found) _).mp waiting).2
  | exhaust found =>
    exact .inl ((waiting_setPhase_returned found _).mp waiting).2

theorem Outcome.woken (outcome : Outcome state chains event next chainsAfter)
    (started : Started state other) (woken : (state.table.waiter other).woken = true) :
    (next.table.waiter other).woken = true := by
  cases outcome with
  | store | enter | exhaust | again => exact woken
  | @block id call found pending addr val bitset timeout absTime action =>
    have different : other ≠ id := by
      rintro rfl
      exact not_started found pending started
    simpa [State.setPhase, futexWaitEnter, different] using woken
  | wake found pending action chosen rearranged | requeue found pending action rearranged =>
    exact (rearranged.woken other).mpr (.inl woken)
  | leave found waits leaves sameWaiter => exact sameWaiter ▸ woken

end Outcome

/-- A queued waiter is queued once, by its address, and its wait has not returned. -/
def TableInvariant (state : State Space) : Prop :=
  ∃ chains : Fin 256 → List Nat, Represents state.table.links chains ∧
    ∀ bucket, ∀ w ∈ chains bucket,
      futexHashFn (state.table.waiter w).addr = bucket ∧ Waiting state w

theorem tableInvariant_iff_live {chains : Fin 256 → List Nat}
    (consistent : Consistent state chains) : TableInvariant state ↔ Live state chains := by
  constructor
  · rintro ⟨_, represents, members⟩ id ⟨bucket, member⟩
    rw [(consistent.represents.follows bucket).unique (represents.follows bucket)] at member
    exact (members bucket id member).2
  · intro live
    exact ⟨chains, consistent.represents, fun bucket w member =>
      ⟨consistent.placed bucket w member, live w ⟨bucket, member⟩⟩⟩

variable [DecidableEq Space] {final : State Space}

section

variable (start : ∃ chains, Consistent state chains ∧ Live state chains)

include start

/-- A run in which every wait returns from its own chain leaves nothing behind. -/
theorem live_run {events : List (Event Space)}
    (reached : run step state events = some final) (along : Along step KeepsBucket state events) :
    ∃ chains, Consistent final chains ∧ Live final chains := by
  refine invariant_run (fun state => ∃ chains, Consistent state chains ∧ Live state chains) ?_
    along reached start
  rintro state event next keeps stepped ⟨_, consistent, live⟩
  obtain ⟨chainsAfter, outcome⟩ := consistent.outcome stepped
  exact ⟨chainsAfter, consistent.after outcome, (live.after_iff consistent outcome).mpr keeps⟩

/-- If the invariant survives every event of a run, every wait returned from its own chain. -/
theorem along_keepsBucket {events : List (Event Space)}
    (reached : run step state events = some final)
    (invariant : ∀ front back middle, events = front ++ back →
      run step state front = some middle → TableInvariant middle) :
    Along step KeepsBucket state events := by
  induction events generalizing state with
  | nil => trivial
  | cons event events induction =>
    obtain ⟨_, consistent, live⟩ := start
    obtain ⟨next, stepped, rest⟩ := run_cons_eq_some.mp reached
    obtain ⟨chainsAfter, outcome⟩ := consistent.outcome stepped
    have after := consistent.after outcome
    have first : run step state [event] = some next := run_cons_eq_some.mpr ⟨next, stepped, rfl⟩
    have liveNext : Live next chainsAfter :=
      (tableInvariant_iff_live after).mp (invariant [event] events next rfl first)
    refine .cons stepped ((live.after_iff consistent outcome).mp liveNext) ?_
    refine induction ⟨chainsAfter, after, liveNext⟩ rest fun front back middle split went => ?_
    refine invariant (event :: front) back middle (by rw [split, List.cons_append]) ?_
    exact run_cons_eq_some.mpr ⟨next, stepped, went⟩

end

/-- The table keeps its invariant exactly if every wait returns from the chain it was put in. -/
theorem tableInvariant_run_iff (memory : Space → Memory) {events : List (Event Space)}
    {final : State Space} (reached : run step (.start memory) events = some final) :
    (∀ front back middle, events = front ++ back →
        run step (.start memory) front = some middle → TableInvariant middle) ↔
      Along step KeepsBucket (.start memory) events := by
  have start : ∃ chains, Consistent (State.start memory) chains ∧
      Live (State.start memory) chains :=
    ⟨_, consistent_start memory, live_start memory⟩
  constructor
  · exact along_keepsBucket start reached
  · rintro along front back middle rfl went
    obtain ⟨_, consistent, live⟩ := live_run start went (along.append went).1
    exact (tableInvariant_iff_live consistent).mpr live

/-- A wait at address 0 is woken there and returns. -/
def ordinaryWait : List (Event Unit) :=
  [.enter () 0 0 0 0 0 0, .call 0 .perform, .enter () 0 1 1 0 0 0, .call 1 .perform,
    .call 0 .resume]

theorem tableInvariant_run_ordinaryWait :
    (run step (.start fun _ => .constant 0) ordinaryWait).isSome = true ∧
      ∀ front back middle, ordinaryWait = front ++ back →
        run step (.start fun _ => .constant 0) front = some middle → TableInvariant middle := by
  refine ⟨rfl, (tableInvariant_run_iff (fun _ => .constant 0) rfl).mpr ?_⟩
  refine .cons rfl trivial (.cons rfl trivial (.cons rfl trivial (.cons rfl trivial
    (.cons rfl ?_ trivial))))
  intro _ h timed known
  cases known
  rfl

/-- A wait at address 0 is requeued to address 4, woken there, and returns. -/
def requeuedWait : List (Event Unit) :=
  [.enter () 0 0 0 0 0 0, .call 0 .perform, .enter () 0 3 0 1 4 0, .call 1 .perform,
    .enter () 4 1 1 0 0 0, .call 2 .perform, .call 0 .resume]

/-- The waiter of a wait that was requeued is still in the table after the wait has returned. -/
theorem requeuedWait_left_behind :
    ∃ final, run step (.start fun _ => .constant 0) requeuedWait = some final ∧
      final.phase 0 = some (.returned 0) ∧ final.table.links.head 1 = some 0 ∧
        ¬TableInvariant final := by
  refine ⟨_, rfl, by decide, by decide, ?_⟩
  rintro ⟨chains, represents, members⟩
  have follows := represents.follows 1
  cases chain : chains 1 with
  | nil =>
    rw [chain] at follows
    cases follows
  | cons =>
    rw [chain] at follows
    cases follows.1
    obtain ⟨_, _, known⟩ := (members 1 0 (by simp [chain])).2
    cases known

end AlpineOnIOS.Futex
