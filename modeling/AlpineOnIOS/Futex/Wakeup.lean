import AlpineOnIOS.Futex.Chains

/-!
# Wakeups that are not lost

A thread changes a futex word and wakes all waiters. `do_futex` compares the word before the lock
is taken and `futex_wait` does not compare it again, so a wait may block on a word that has
changed.
-/

namespace AlpineOnIOS.Futex

open Foundation

variable {Space : Type} (state : State Space)

/-- A wait that nothing has woken. -/
def Blocked (id : Nat) : Prop :=
  Waiting state id ∧ (state.table.waiter id).woken = false

/-- A wait takes the lock only while the word has the value that its check saw. -/
def Rechecked : Event Space → Prop
  | .call id .perform => ∀ space addr val bitset timeout absTime,
      state.made id = some (space, .wait addr val bitset timeout absTime) →
        (state.memory space).read32 addr = some val
  | _ => True

/-- No requeue takes the lock. -/
def NoRequeue : Event Space → Prop
  | .call id .perform => ∀ space source target wakeCount requeueLimit,
      state.made id ≠ some (space, .requeue source target wakeCount requeueLimit)
  | _ => True

/-- No store brings a value back to a word. -/
def NotRestored (space : Space) (addr : UInt64) (val : UInt32) : Event Space → Prop
  | .store other memory => other = space → memory.read32 addr ≠ some val
  | _ => True

/-- A thread stores a value other than `val`, and a wake of all waiters follows. -/
structure StoreThenWake [DecidableEq Space] (memory : Space → Memory) (space : Space)
    (addr : UInt64) (val bitset : UInt32) (final : State Space) where
  before : List (Event Space)
  stored : Memory
  middle : List (Event Space)
  changed : State Space
  toWake : run step (.start memory) (before ++ .store space stored :: middle) = some changed
  waker : Nat
  wakerSpace : Space
  count : Int
  call : changed.made waker = some (wakerSpace, .wake addr count bitset)
  unlimited : changed.calls.length ≤ count
  woken : State Space
  wakes : step changed (.call waker .perform) = some woken
  after : List (Event Space)
  toEnd : run step woken after = some final
  different : stored.read32 addr ≠ some val
  notRestored : ∀ event ∈ middle ++ after, NotRestored space addr val event
  noRequeue : Along step NoRequeue (.start memory)
    (before ++ .store space stored :: middle ++ .call waker .perform :: after)

/-- All events of the run. -/
def StoreThenWake.events [DecidableEq Space] {memory : Space → Memory} {space : Space}
    {addr : UInt64} {val bitset : UInt32} {final : State Space}
    (scenario : StoreThenWake memory space addr val bitset final) : List (Event Space) :=
  scenario.before ++ .store space scenario.stored :: scenario.middle ++
    .call scenario.waker .perform :: scenario.after

/-- Without a requeue every waiter keeps the address and the bitset of its wait. -/
def OwnAddress : Prop :=
  ∀ id space addr val bitset timeout absTime, Waiting state id →
    state.made id = some (space, .wait addr val bitset timeout absTime) →
      (state.table.waiter id).addr = addr ∧ (state.table.waiter id).bitset = bitset

/-- The word differs from the value, and every matching wait for the value has been woken. -/
def Settled (space : Space) (addr : UInt64) (val bitset : UInt32) (state : State Space) : Prop :=
  (state.memory space).read32 addr ≠ some val ∧
    ∀ id waitBitset timeout absTime,
      state.made id = some (space, .wait addr val waitBitset timeout absTime) →
        waitBitset &&& bitset ≠ 0 → Waiting state id → (state.table.waiter id).woken = true

variable [DecidableEq Space] {state next : State Space} {event : Event Space}
  {chains chainsAfter : Fin 256 → List Nat}

theorem OwnAddress.after (own : OwnAddress state) (stepped : step state event = some next)
    (outcome : Outcome state chains event next chainsAfter) (noRequeue : NoRequeue state event) :
    OwnAddress next := by
  intro id space addr val bitset timeout absTime waiting made
  have old : Waiting state id → (state.table.waiter id).addr = addr ∧
      (state.table.waiter id).bitset = bitset := fun before =>
    own id space addr val bitset timeout absTime before
      (made_step stepped (lt_length_of_waiting before) ▸ made)
  cases outcome with
  | store | again => exact old waiting
  | enter => exact old (waiting_enter.mp waiting)
  | @block blocking call found pending addr' val' bitset' timeout' absTime' action =>
    by_cases same : id = blocking
    · subst same
      rw [made_setPhase (by exact found), made_eq (by exact found), action] at made
      cases made
      simp [State.setPhase, futexWaitEnter]
    · have before := ((waiting_setPhase_waiting (by exact found) _ _).mp waiting).resolve_left same
      simpa [State.setPhase, futexWaitEnter, same] using old before
  | wake found =>
    have before := ((waiting_setPhase_returned (by exact found) _).mp waiting).2
    simpa [State.setPhase] using old before
  | requeue found pending action =>
    exact absurd (made_eq found) (action ▸ noRequeue _ _ _ _ _)
  | exhaust found => exact old ((waiting_setPhase_returned found _).mp waiting).2
  | leave found waits leaves sameWaiter =>
    have before := ((waiting_setPhase_returned (by exact found) _).mp waiting).2
    exact sameWaiter ▸ old before

variable {space : Space} {val : UInt32}

theorem word_after {addr : UInt64} (different : (state.memory space).read32 addr ≠ some val)
    (stepped : step state event = some next) (notRestored : NotRestored space addr val event) :
    (next.memory space).read32 addr ≠ some val := by
  cases stepped_of_step stepped with
  | store other =>
    by_cases same : other = space
    · subst same
      simpa using notRestored rfl
    · simpa [Ne.symm same] using different
  | enter | block | wake | requeue | exhaust | again | leave => exact different

variable {bitset : UInt32} {addr : UInt64}

theorem settled_wake (consistent : Consistent state chains) (own : OwnAddress state)
    (different : (state.memory space).read32 addr ≠ some val) {waker : Nat} {wakerSpace : Space}
    {count : Int} (call : state.made waker = some (wakerSpace, .wake addr count bitset))
    (unlimited : state.calls.length ≤ count)
    (stepped : step state (.call waker .perform) = some next) :
    Settled space addr val bitset next := by
  refine ⟨word_after different stepped trivial, ?_⟩
  intro id waitBitset timeout absTime made matching waiting
  obtain ⟨_, outcome⟩ := consistent.outcome stepped
  cases outcome with
  | block found pending action | requeue found pending action =>
    simp [made_eq found, action] at call
  | leave found waits leaves => cases leaves
  | @wake _ _ found pending addr' count' bitset' action marked chosen rearranged =>
    rw [made_eq found, action] at call
    cases call
    rw [made_setPhase (by exact found)] at made
    have before : Waiting state id := ((waiting_setPhase_returned (by exact found) _).mp waiting).2
    obtain ⟨sameAddr, sameBitset⟩ := own id _ _ _ _ _ _ before made
    refine (rearranged.woken id).mpr ?_
    cases woken : (state.table.waiter id).woken with
    | true => exact .inl rfl
    | false =>
      right
      have wanted : wakes (state.table.waiter id) addr bitset = true := by
        simp [wakes, sameAddr, sameBitset, woken, matching]
      obtain ⟨bucket, member⟩ := consistent.queued id before
      have here := consistent.placed bucket id member
      rw [sameAddr] at here
      rw [← here] at member
      have short : (chains (futexHashFn addr)).length ≤ count.toNat := by
        have bounded := consistent.length_le (futexHashFn addr)
        omega
      rw [chosen, selected, List.take_of_length_le (Nat.le_trans (List.length_filter_le _ _) short)]
      exact List.mem_filter.mpr ⟨member, wanted⟩

/-- No wait for the value blocks once the word has changed, if it compares again. -/
theorem Settled.after (settled : Settled space addr val bitset state)
    (stepped : step state event = some next) (outcome : Outcome state chains event next chainsAfter)
    (notRestored : NotRestored space addr val event) (rechecked : Rechecked state event) :
    Settled space addr val bitset next := by
  refine ⟨word_after settled.1 stepped notRestored, ?_⟩
  intro id waitBitset timeout absTime made matching waiting
  rcases outcome.waiting waiting with before | ⟨rfl, pending, -⟩
  · rw [made_step stepped (lt_length_of_waiting before)] at made
    exact outcome.woken (started_of_waiting before)
      (settled.2 id waitBitset timeout absTime made matching before)
  · rw [made_step stepped (lt_length_of_phase pending)] at made
    exact absurd (rechecked _ _ _ _ _ _ made) settled.1

variable {memory : Space → Memory} {final : State Space}
  (scenario : StoreThenWake memory space addr val bitset final)

theorem StoreThenWake.ownAddress :
    (∃ chains, Consistent scenario.changed chains) ∧ OwnAddress scenario.changed := by
  have noRequeue := (scenario.noRequeue.append scenario.toWake).1
  refine invariant_run (fun state => (∃ chains, Consistent state chains) ∧ OwnAddress state) ?_
    noRequeue scenario.toWake ⟨⟨_, consistent_start memory⟩, ?_⟩
  · rintro state event next allowed stepped ⟨⟨_, consistent⟩, own⟩
    obtain ⟨chainsAfter, outcome⟩ := consistent.outcome stepped
    exact ⟨⟨chainsAfter, consistent.after outcome⟩, own.after stepped outcome allowed⟩
  · intro id _ _ _ _ _ _ waiting
    exact absurd (lt_length_of_waiting waiting) (Nat.not_lt_zero _)

theorem StoreThenWake.word_changed : (scenario.changed.memory space).read32 addr ≠ some val := by
  obtain ⟨_, -, rest⟩ := run_append_eq_some.mp scenario.toWake
  obtain ⟨_, stepped, rest⟩ := run_cons_eq_some.mp rest
  have kept : ∀ event ∈ scenario.middle, NotRestored space addr val event := fun event member =>
    scenario.notRestored event (List.mem_append_left _ member)
  refine invariant_run (fun state => (state.memory space).read32 addr ≠ some val) ?_
    (along_of_forall kept) rest ?_
  · intro state event next notRestored stepped different
    exact word_after different stepped notRestored
  · rw [← Option.some.inj stepped]
    simpa using scenario.different

/-- If no wait takes the lock after its word has changed, none is left blocked on the old value. -/
theorem storeThenWake_not_blocked (scenario : StoreThenWake memory space addr val bitset final)
    (rechecked : Along step Rechecked (.start memory) scenario.events) {id : Nat}
    {waitBitset : UInt32} {timeout : Option Timespec} {absTime : Bool}
    (waits : final.made id = some (space, .wait addr val waitBitset timeout absTime))
    (matching : waitBitset &&& bitset ≠ 0) : ¬Blocked final id := by
  obtain ⟨⟨chains, consistent⟩, own⟩ := scenario.ownAddress
  have settled := settled_wake consistent own scenario.word_changed scenario.call
    scenario.unlimited scenario.wakes
  obtain ⟨chainsAfter, outcome⟩ := consistent.outcome scenario.wakes
  have recheckedAfter := (rechecked.append scenario.toWake).2.2 _ scenario.wakes
  have kept : ∀ event ∈ scenario.after, NotRestored space addr val event := fun event member =>
    scenario.notRestored event (List.mem_append_right _ member)
  have atEnd : (∃ chains, Consistent final chains) ∧ Settled space addr val bitset final := by
    refine invariant_run
      (fun state => (∃ chains, Consistent state chains) ∧ Settled space addr val bitset state) ?_
      (recheckedAfter.and (along_of_forall kept)) scenario.toEnd
      ⟨⟨chainsAfter, consistent.after outcome⟩, settled⟩
    rintro state event next ⟨again, notRestored⟩ stepped ⟨⟨_, consistent⟩, settled⟩
    obtain ⟨chainsAfter, outcome⟩ := consistent.outcome stepped
    exact ⟨⟨chainsAfter, consistent.after outcome⟩, settled.after stepped outcome notRestored again⟩
  rintro ⟨waiting, unmarked⟩
  have woken := atEnd.2.2 id waitBitset timeout absTime waits matching waiting
  rw [unmarked] at woken
  cases woken

/-- A thread waits for the value 0 at address 0. -/
def enterWait : Event Unit := .enter () 0 0 0 0 0 0

/-- A thread wakes up to two waiters at address 0. -/
def enterWake : Event Unit := .enter () 0 1 2 0 0 0

/-- The wait blocks before the word is changed and the wake follows. -/
def wokenWaitEnd : State Unit :=
  (run step (.start fun _ => .constant 0)
    [enterWait, .call 0 .perform, .store () (.constant 1), enterWake, .call 1 .perform]).get rfl

def wokenWait : StoreThenWake (fun _ => .constant 0) () 0 0 0xFFFFFFFF wokenWaitEnd where
  before := [enterWait, .call 0 .perform]
  stored := .constant 1
  middle := [enterWake]
  changed := _
  toWake := rfl
  waker := 1
  wakerSpace := ()
  count := 2
  call := rfl
  unlimited := by decide
  woken := _
  wakes := rfl
  after := []
  toEnd := rfl
  different := by decide
  notRestored := by simp [NotRestored, enterWake]
  noRequeue := by
    refine .cons rfl trivial (.cons rfl ?_ (.cons rfl trivial (.cons rfl trivial
      (.cons rfl ?_ trivial))))
    · rintro space source target wakeCount requeueLimit made
      cases made
    · rintro space source target wakeCount requeueLimit made
      cases made

theorem wokenWait_not_blocked : Waiting wokenWaitEnd 0 ∧ ¬Blocked wokenWaitEnd 0 := by
  have waits : wokenWaitEnd.made 0 = some ((), .wait 0 0 0xFFFFFFFF none false) := rfl
  refine ⟨⟨0, false, rfl⟩, storeThenWake_not_blocked wokenWait ?_ waits (by decide)⟩
  refine .cons rfl trivial (.cons rfl ?_ (.cons rfl trivial (.cons rfl trivial
    (.cons rfl ?_ trivial))))
  · rintro space addr val bitset timeout absTime made
    cases made
    rfl
  · rintro space addr val bitset timeout absTime made
    cases made

/-- The wait compares the word, the word is changed, the wake finds no waiter, and the wait
blocks. -/
def lostWaitEnd : State Unit :=
  (run step (.start fun _ => .constant 0)
    [enterWait, .store () (.constant 1), enterWake, .call 1 .perform, .call 0 .perform]).get rfl

def lostWait : StoreThenWake (fun _ => .constant 0) () 0 0 0xFFFFFFFF lostWaitEnd where
  before := [enterWait]
  stored := .constant 1
  middle := [enterWake]
  changed := _
  toWake := rfl
  waker := 1
  wakerSpace := ()
  count := 2
  call := rfl
  unlimited := by decide
  woken := _
  wakes := rfl
  after := [.call 0 .perform]
  toEnd := rfl
  different := by decide
  notRestored := by simp [NotRestored, enterWake]
  noRequeue := by
    refine .cons rfl trivial (.cons rfl trivial (.cons rfl trivial (.cons rfl ?_
      (.cons rfl ?_ trivial))))
    · rintro space source target wakeCount requeueLimit made
      cases made
    · rintro space source target wakeCount requeueLimit made
      cases made

/-- A wait whose word changes between the comparison and the lock blocks after the wake. -/
theorem lostWait_blocked :
    Nonempty (StoreThenWake (fun _ => .constant 0) () 0 0 0xFFFFFFFF lostWaitEnd) ∧
      lostWaitEnd.made 0 = some ((), .wait 0 0 0xFFFFFFFF none false) ∧
        (lostWaitEnd.memory ()).read32 0 = some 1 ∧ Blocked lostWaitEnd 0 :=
  ⟨⟨lostWait⟩, rfl, rfl, ⟨0, false, rfl⟩, rfl⟩

end AlpineOnIOS.Futex
