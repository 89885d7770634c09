import AlpineOnIOS.Foundation.Runs

/-!
# Timers

A timer has one time only, after which its thread writes to a pipe again and again.
`do_timerfd_settime` waits for the old thread, but two calls at once can leave it behind.
-/

namespace AlpineOnIOS.Timerfd

open Foundation

/-- A `struct itimerspec` in nanoseconds, zero where it cannot be read. -/
structure Setting where
  interval : Int
  value : Int
  deriving DecidableEq

/-- Where a thread is: in front of its first check, in `nanosleep`, or in front of `write`. -/
inductive Pc where
  | check
  | asleep (ns : Int)
  | fire (ns : Int)
  deriving DecidableEq

/-- A timer, its threads, the calls that wait for one, the last setting and its expirations. -/
structure State where
  running : Bool := false
  intervalNs : Int := 0
  thread : Nat := 0
  threads : Nat → Option Pc := fun _ => none
  joining : List (Nat × Setting) := []
  setting : Setting := ⟨0, 0⟩
  fired : Nat := 0

inductive Event where
  | settime (setting : Setting)
  | joined (thread : Nat) (setting : Setting)
  | tick (thread : Nat)

variable (state : State)

/-- The end of `do_timerfd_settime`, under the lock. -/
def arm (setting : Setting) : State :=
  let ns := if setting.interval = 0 ∧ 0 < setting.value then setting.value else setting.interval
  let state := { state with intervalNs := ns, setting, fired := 0 }
  if 0 < ns then
    { state with
      running := true
      thread := state.thread + 1
      threads := Function.update state.threads (state.thread + 1) (some .check) }
  else state

/-- A stretch of a call or of a thread. -/
def step : Event → Option State
  | .settime setting =>
    if state.running then
      some { state with running := false, joining := (state.thread, setting) :: state.joining }
    else some (arm state setting)
  | .joined thread setting =>
    if (thread, setting) ∈ state.joining ∧ state.threads thread = none then
      some (arm { state with joining := state.joining.erase (thread, setting) } setting)
    else none
  | .tick thread =>
    let goesTo (pc : Option Pc) := { state with threads := Function.update state.threads thread pc }
    match state.threads thread with
    | none => none
    | some .check =>
      some (goesTo (if state.running ∧ 0 < state.intervalNs then some (.asleep state.intervalNs)
        else none))
    | some (.asleep ns) => some (goesTo (if state.running then some (.fire ns) else none))
    | some (.fire _) => some { goesTo (some .check) with fired := state.fired + 1 }

/-- Only the last setting expires, after its value and then after its interval. -/
def Lawful : Event → Prop
  | .tick thread => ∀ ns, state.threads thread = some (.fire ns) →
    thread = state.thread ∧ state.setting.value ≠ 0 ∧
      (state.setting.interval = 0 → state.fired = 0) ∧
        ns = if state.fired = 0 then state.setting.value else state.setting.interval
  | _ => True

/-- Calls come one after another, with equal times. -/
def Careful : Event → Prop
  | .settime setting => state.joining = [] ∧ setting.interval = setting.value
  | _ => True

variable {state next : State} {setting : Setting}

/-- The time that a thread sleeps or has slept. -/
def Pc.sleeps : Pc → Option Int
  | .check => none
  | .asleep ns | .fire ns => some ns

/-- Only the last thread is there, and its time is both times of the setting. -/
structure Single (state : State) : Prop where
  last : ∀ thread pc, state.threads thread = some pc → thread = state.thread ∧
    0 < state.setting.value ∧ state.intervalNs = state.setting.value ∧
      state.setting.interval = state.setting.value ∧ ∀ ns ∈ pc.sleeps, ns = state.setting.value
  stopped : state.running = false → state.joining = [] → ∀ thread, state.threads thread = none
  joins : state.joining = [] ∨ ∃ setting : Setting, setting.interval = setting.value ∧
    state.joining = [(state.thread, setting)] ∧ state.running = false

theorem Single.arm (idle : ∀ thread, state.threads thread = none) (alone : state.joining = [])
    (equal : setting.interval = setting.value) :
    Single (arm state setting) := by
  have time : (if setting.interval = 0 ∧ 0 < setting.value then setting.value
      else setting.interval) = setting.value := by
    split <;> omega
  simp only [Timerfd.arm, time]
  split
  · refine ⟨fun thread pc found => ?_, nofun, .inl alone⟩
    by_cases new : thread = state.thread + 1
    · simp only [new, Function.update_self, Option.some.injEq] at found
      subst found
      exact ⟨new, ‹_›, rfl, equal, nofun⟩
    · simp [new, idle] at found
  · exact ⟨by simp [idle], fun _ _ => idle, .inl alone⟩

theorem Single.step {event : Event} (single : Single state) (careful : Careful state event)
    (stepped : step state event = some next) : Single next := by
  cases event with
  | settime setting =>
    rw [Timerfd.step] at stepped
    split at stepped
    · cases stepped
      refine ⟨single.last, nofun, .inr ⟨setting, careful.2, ?_, rfl⟩⟩
      rw [careful.1]
    · cases stepped
      have stopped : state.running = false := by simp_all
      exact .arm (single.stopped stopped careful.1) careful.1 careful.2
  | joined thread setting =>
    simp only [Timerfd.step, Option.ite_none_right_eq_some] at stepped
    obtain ⟨⟨waits, ended⟩, same⟩ := stepped
    cases same
    rcases single.joins with none | ⟨_, equal, one, -⟩
    · simp [none] at waits
    rw [one, List.mem_singleton] at waits
    cases waits
    refine .arm (fun thread => ?_) (by simp [one]) equal
    by_contra alive
    obtain ⟨pc, found⟩ := Option.ne_none_iff_exists'.mp alive
    rw [(single.last thread pc found).1, ended] at found
    cases found
  | tick thread =>
    have moved : ∀ {pc}, state.threads thread = some pc → ∀ {pc' : Option Pc},
        (∀ new ∈ pc', ∀ ns ∈ new.sleeps, ns = state.setting.value) → ∀ fired,
        Single { state with threads := Function.update state.threads thread pc', fired } := by
      intro pc found pc' sleeps fired
      obtain ⟨rfl, positive, same, equal, -⟩ := single.last thread pc found
      refine ⟨fun other new there => ?_, fun stopped alone => ?_, single.joins⟩
      · by_cases here : other = state.thread
        · simp only [here, Function.update_self] at there
          exact ⟨here, positive, same, equal, sleeps new there⟩
        · simp only [Function.update_of_ne here] at there
          exact single.last other new there
      · simp [single.stopped stopped alone] at found
    simp only [Timerfd.step] at stepped
    split at stepped
    · cases stepped
    · rename_i found
      cases stepped
      refine moved found (fun new member ns slept => ?_) state.fired
      split at member <;> cases member
      cases slept
      exact (single.last thread _ found).2.2.1
    · rename_i found
      cases stepped
      refine moved found (fun new member => ?_) state.fired
      split at member <;> cases member
      exact (single.last thread _ found).2.2.2.2
    · rename_i found
      cases stepped
      refine moved found (fun new member => ?_) _
      cases member
      exact nofun

end AlpineOnIOS.Timerfd
