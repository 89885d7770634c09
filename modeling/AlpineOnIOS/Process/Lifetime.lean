import AlpineOnIOS.Process.TableInvariant

/-!
# The life of an entry

Between its creation and its removal an entry goes through phases.  The number of its deaths and of
the notices to its parent is known in each of them from the signals that have terminated it.  If
there are none, so is what its parent has been told.
-/

namespace AlpineOnIOS.Process

open Foundation Process.System

variable {system next : System} {event : Event}

theorem laws_step (law : Nat → Proc → Prop)
    (kept : ∀ {pid proc proc'}, Moves system event pid proc proc' → law pid proc → law pid proc')
    (tabled : Tabled system) (steps : system.step event = some next)
    (laws : ∀ pid, law pid (system.proc pid)) (pid : Nat) : law pid (next.proc pid) := by
  have moves := (transition_of_step steps).moves tabled pid
  generalize next.proc pid = last at moves
  induction moves with
  | refl => exact laws pid
  | tail _ move induction => exact kept move induction

/-- How far a thread has come. -/
inductive Phase where
  /-- It can still make calls. -/
  | alive
  /-- A signal has terminated it, and it is not yet a zombie. -/
  | struck
  /-- It is in the `proc_exit` of `sig_deliver`, and has become a zombie. -/
  | fallen
  /-- It is on its way to `proc_run_exit`, or back to guest code. -/
  | leaving
  /-- It is in the `proc_exit` of `proc_run_exit`, and not yet a zombie by it. -/
  | ending
  /-- It has become a zombie there. -/
  | ended
  /-- It has notified its parent. -/
  | finished
  | gone
  deriving DecidableEq

@[simp] def exitPhase (signalled : Bool) : ExitPlace → Phase
  | .status | .zombie => if signalled then .struck else .ending
  | _ => if signalled then .fallen else .ended

def phase : Pc → Phase
  | .exiting signalled _ place => exitPhase signalled place
  | .leave | .runExit => .leaving
  | .linger | .destroy => .finished
  | .gone => .gone
  | _ => .alive

variable {order : List Nat}

theorem Walks.phase_eq {before after : Pc} (walks : Walks order before after) :
    phase after = phase before ∨ before = .destroy ∧ after = .gone := by
  cases walks with
  | lock locks =>
    cases locks with
    | adopt signalled => cases signalled <;> exact .inl rfl
    | _ => exact .inl rfl
  | adopt signalled | adopted signalled | search signalled | signal signalled =>
    cases signalled <;> exact .inl rfl
  | destroy => exact .inr ⟨rfl, rfl⟩
  | _ => exact .inl rfl

@[simp] theorem woken_phase (proc : Proc) : phase proc.woken.pc = phase proc.pc := by
  unfold Proc.woken
  split
  · rename_i place
    rw [place]
    rfl
  · rfl

/-- The places of `proc_exit` that only the main thread reaches. -/
def leading : Pc → Bool
  | .exiting _ _ .status | .exiting _ _ .zombie | .exiting _ _ .release => false
  | .exiting _ _ _ => true
  | _ => false

/-- Only a main thread reparents children and signals a parent. -/
def MainThread (pid : Nat) (proc : Proc) : Prop := leading proc.pc = true → proc.tgid = pid

theorem Walks.leading_of {before after : Pc} (walks : Walks order before after)
    (leads : leading after = true) : leading before = true := by
  cases walks with
  | lock locks => cases locks <;> simp_all [leading]
  | pass _ again => cases again <;> simp_all [leading]
  | _ => simp_all [leading]

@[simp] theorem woken_leading (proc : Proc) : leading proc.woken.pc = leading proc.pc := by
  unfold Proc.woken
  split
  · rename_i place
    rw [place]
    rfl
  · rfl

@[simp] theorem adopt_tgid (proc : Proc) (parent : Nat) : (proc.adopt parent).tgid = proc.tgid := by
  unfold Proc.adopt
  dsimp only
  split
  · rfl
  · split <;> rfl

@[simp] theorem woken_tgid (proc : Proc) : proc.woken.tgid = proc.tgid := by
  unfold Proc.woken
  split <;> rfl

variable {proc proc' : Proc} {pid : Nat}

theorem MainThread.move (leads : MainThread pid proc)
    (move : Moves system event pid proc proc') : MainThread pid proc' := by
  cases move with
  | own action acts same own =>
    cases own
    case releaseThread granted signalled status place thread =>
      cases signalled <;> simp [MainThread, leading, Proc.afterExit]
    all_goals simp_all [MainThread, leading, Proc.doExit]
  | walked action acts walks =>
    exact fun after => leads (walks.leading_of after)
  | begun parent forks => cases forks <;> simp [MainThread, leading, begun]
  | adopted | woken => simpa [MainThread] using leads
  | noticed action acts signalled =>
    cases signalled <;> simp [MainThread, leading, Proc.noticed, Proc.afterExit]
  | pending | halted | reaped => exact leads
  | _ => simp [MainThread, leading, spawned, forked, cloned, Proc.doExit, Proc.waited]

/-- The deaths and the notices of an entry in a phase, from the signals that have terminated it. -/
def Counted (pid : Nat) (proc : Proc) (phase : Phase) : Prop :=
  let kills := proc.history.kills.length
  let notices count := proc.history.notices = if proc.tgid = pid then count else 0
  match phase with
  | .alive => kills = 0 ∧ proc.history.deaths = 0 ∧ notices 0
  | .struck => kills = 1 ∧ proc.history.deaths = 0 ∧ notices 0
  | .fallen => kills = 1 ∧ proc.history.deaths = 1 ∧ notices 0 ∧ proc.running = false
  | .leaving =>
    proc.history.deaths = kills ∧ notices kills ∧ (kills = 0 ∨ proc.running = false)
  | .ending => proc.history.deaths = kills ∧ notices kills
  | .ended => proc.history.deaths = kills + 1 ∧ notices kills
  | .finished => proc.history.deaths = kills + 1 ∧ notices (kills + 1)
  | .gone =>
    proc.history.deaths = 0 ∧ proc.history.notices = 0 ∨
      proc.history.deaths = kills + 1 ∧ notices (kills + 1)

variable {fatal : Prop} {action : Action}

theorem Counted.own (counted : Counted pid proc (phase proc.pc))
    (own : Own fatal pid proc action proc') :
    Counted pid proc' (phase proc'.pc) := by
  cases own
  case status granted signalled _ _ | zombie granted signalled _ _ | find granted signalled _ _
      | releaseThread granted signalled _ _ _ | release granted signalled _ _ _ =>
    cases signalled <;> simp_all [Counted, phase, Proc.afterExit]
  all_goals simp_all [Counted, phase, Proc.doExit]

theorem Counted.move (counted : Counted pid proc (phase proc.pc)) (leads : MainThread pid proc)
    (move : Moves system event pid proc proc') :
    Counted pid proc' (phase proc'.pc) := by
  cases move with
  | spawned | forked | cloned => simp [Counted, phase, spawned, forked, cloned, blank]
  | begun parent forks =>
    cases forks <;> simp_all [Counted, phase, begun]
  | dropped => simp_all [Counted, phase]
  | pending => exact counted
  | halted =>
    revert counted
    unfold Counted
    dsimp only
    split <;> simp_all
  | own action acts same own => exact counted.own own
  | exitGroup => simp_all [Counted, phase, Proc.doExit]
  | walked action acts walks =>
    rcases walks.phase_eq with same | ⟨_, _⟩
    · rw [same]
      exact counted
    · simp_all [Counted, phase]
  | waited => simp_all [Counted, phase, Proc.waited]
  | noticed action acts signalled status place exits last =>
    rcases last with ⟨_, rfl⟩ | ⟨_, rfl⟩ <;> cases signalled <;>
      simp_all [Counted, phase, MainThread, leading, Proc.noticed, Proc.afterExit]
  | woken =>
    rw [woken_phase]
    unfold Proc.woken
    split <;> exact counted
  | reaped =>
    unfold Proc.reap
    split <;> exact counted
  | adopted =>
    unfold Proc.adopt
    dsimp only
    split
    · exact counted
    split <;> exact counted

/-- Nobody has seen the end of the process. -/
def Untouched (proc : Proc) : Prop :=
  (proc.state = .running ∨ proc.state = .stopped) ∧ proc.collected = false ∧
    proc.history.reports = [] ∧ proc.history.discarded = none ∧ proc.history.faulted = false

/-- Collected with its status, with one that could not be written, or by the exit of its parent. -/
inductive Collected (exitStatus : UInt32) : List Report → Bool → Option Nat → Prop where
  | reported (report : Report) (status : report.status = exitStatus)
      (parent : report.caller = report.parent) : Collected exitStatus [report] false none
  | faulted : Collected exitStatus [] true none
  | discarded (parent : Nat) : Collected exitStatus [] false (some parent)

theorem Collected.status {exitStatus : UInt32} {reports : List Report} {faulted : Bool}
    {discarded : Option Nat} (collected : Collected exitStatus reports faulted discarded) :
    ∀ report ∈ reports, report.status = exitStatus := by
  cases collected with
  | reported report status =>
    intro other among
    rw [List.mem_singleton.mp among]
    exact status
  | faulted | discarded => exact fun _ absent => absurd absent List.not_mem_nil

/-- The process is a zombie that waits for its parent. -/
def Unclaimed (proc : Proc) : Prop :=
  proc.state = .zombie ∧ proc.collected = false ∧
    proc.history.reports = [] ∧ proc.history.discarded = none ∧ proc.history.faulted = false

/-- The process is no zombie any more. -/
def Claimed (proc : Proc) : Prop :=
  proc.state = .dead ∧ proc.collected = true ∧
    Collected proc.exitStatus proc.history.reports proc.history.faulted proc.history.discarded

/-- The process has come to its end. -/
def Settled (proc : Proc) : Prop := Unclaimed proc ∨ Claimed proc

/-- After a call of `exit` the thread is to stop, with the status of the call. -/
def Quits (proc : Proc) : Prop :=
  ∀ word, proc.history.exitCall = some word → proc.running = false ∧ proc.exitCode = word

/-- `proc_run_exit` is called with the status of a call of `exit`. -/
def Stamps (proc : Proc) : Prop :=
  ∃ status place, proc.pc = .exiting false status place ∧
    (∀ word, proc.history.exitCall = some word → status = word) ∧
      (place = .zombie → proc.exitStatus = status)

/-- The exit status is the one of a call of `exit`. -/
def Tells (proc : Proc) : Prop :=
  ∀ word, proc.history.exitCall = some word → proc.exitStatus = word

/-- The life of an entry that no signal has terminated. -/
def Life (proc : Proc) (phase : Phase) : Prop :=
  match phase with
  | .alive =>
    Untouched proc ∧ Quits proc ∧ (proc.history.exitCall ≠ none → proc.pc = .deliver)
  | .struck | .fallen => True
  | .leaving => proc.history.kills = [] → Untouched proc ∧ Quits proc
  | .ending => proc.history.kills = [] → Untouched proc ∧ Stamps proc
  | .ended | .finished => proc.history.kills = [] → Settled proc ∧ Tells proc
  | .gone =>
    proc.history.kills = [] →
      proc.history.deaths = 0 ∧ proc.history.reports = [] ∧ proc.state ≠ .zombie ∨
        proc.history.deaths = 1 ∧ Settled proc ∧ Tells proc

section

variable (life : Life proc (phase proc.pc))

include life

theorem Life.alive (alive : phase proc.pc = .alive) :
    Untouched proc ∧ Quits proc ∧ (proc.history.exitCall ≠ none → proc.pc = .deliver) := by
  rw [alive] at life
  exact life

theorem Life.exitCall_eq_none (alive : phase proc.pc = .alive)
    (busy : proc.pc ≠ .deliver) : proc.history.exitCall = none := by
  by_contra exited
  exact busy ((life.alive alive).2.2 exited)

theorem Life.goes_on (alive : phase proc.pc = .alive)
    (busy : proc.pc ≠ .deliver) (pc : Pc) (after : phase pc = .alive) :
    Life { proc with pc := pc } (phase pc) := by
  rw [after]
  have unexited := life.exitCall_eq_none alive busy
  exact ⟨(life.alive alive).1, (life.alive alive).2.1, fun exited => absurd unexited exited⟩

theorem Life.doExit (place : proc.pc = .user) (code : UInt64) :
    Life (proc.doExit code) (phase (proc.doExit code).pc) := by
  refine ⟨(life.alive (by rw [place]; rfl)).1, fun word exited => ⟨rfl, ?_⟩, fun _ => rfl⟩
  rw [Proc.doExit, Option.some.injEq] at exited
  exact exited

theorem Life.own (counted : Counted pid proc (phase proc.pc))
    (own : Own fatal pid proc action proc') :
    Life proc' (phase proc'.pc) := by
  cases own with
  | enter granted place => exact life.goes_on (by rw [place]; rfl) (by simp [place]) .user rfl
  | unfit granted place =>
    have alive : phase proc.pc = .alive := by rw [place]; rfl
    have unexited := life.exitCall_eq_none alive (by simp [place])
    refine fun _ => ⟨(life.alive alive).1, 1, .status, rfl, fun word exited => ?_, by simp⟩
    exact absurd exited (by simp [unexited])
  | exec sighand place =>
    have alive : phase proc.pc = .alive := by rw [place]; rfl
    have unexited := life.exitCall_eq_none alive (by simp [place])
    refine ⟨(life.alive alive).1, fun word exited => ?_, fun _ => rfl⟩
    exact absurd exited (by simp [unexited])
  | exit code place => exact life.doExit place code
  | wait call place | wake call place =>
    exact life.goes_on (by rw [place]; rfl) (by simp [place]) _ rfl
  | other call blocked pgid sid place | resume granted child place =>
    exact life.goes_on (by rw [place]; rfl) (by simp [place]) .deliver rfl
  | fault place =>
    have alive : phase proc.pc = .alive := by rw [place]; rfl
    have unexited := life.exitCall_eq_none alive (by simp [place])
    refine fun _ => ⟨(life.alive alive).1, fun word exited => ?_⟩
    exact absurd exited (by simp [unexited])
  | delivered granted pending blocked place =>
    obtain ⟨untouched, quits, -⟩ := life.alive (by rw [place]; rfl)
    exact fun _ => ⟨untouched, quits⟩
  | continued granted pending place =>
    obtain ⟨untouched, quits, -⟩ := life.alive (by rw [place]; rfl)
    exact fun _ => ⟨⟨.inl rfl, untouched.2⟩, quits⟩
  | stopped granted pending place =>
    obtain ⟨untouched, quits, -⟩ := life.alive (by rw [place]; rfl)
    exact fun _ => ⟨⟨.inr rfl, untouched.2⟩, quits⟩
  | killed => exact trivial
  | returned granted place running =>
    rw [place] at life counted
    have unharmed : proc.history.kills = [] := by
      rcases counted.2.2 with none | halted
      · exact List.eq_nil_of_length_eq_zero none
      · rw [running] at halted
        cases halted
    obtain ⟨untouched, quits⟩ := life unharmed
    refine ⟨untouched, quits, fun exited => ?_⟩
    obtain ⟨word, exited⟩ := Option.ne_none_iff_exists'.mp exited
    have halted := (quits word exited).1
    rw [running] at halted
    cases halted
  | left granted place | collected granted place | expire place =>
    rw [place] at life
    exact life
  | runExit granted place =>
    rw [place] at life
    intro unharmed
    obtain ⟨untouched, quits⟩ := life unharmed
    exact ⟨untouched, proc.exitCode, .status, rfl, fun word exited => (quits word exited).2,
      by simp⟩
  | status granted signalled status place =>
    cases signalled with
    | true => exact trivial
    | false =>
      rw [place] at life
      intro unharmed
      obtain ⟨untouched, _, _, place_eq, told, -⟩ := life unharmed
      rw [place] at place_eq
      cases place_eq
      exact ⟨untouched, status, .zombie, rfl, told, fun _ => rfl⟩
  | zombie granted signalled status place =>
    cases signalled with
    | true => exact trivial
    | false =>
      rw [place] at life
      intro unharmed
      obtain ⟨untouched, _, _, place_eq, told, stamped⟩ := life unharmed
      rw [place] at place_eq
      cases place_eq
      exact ⟨.inl ⟨rfl, untouched.2⟩, fun word exited => (stamped rfl).trans (told word exited)⟩
  | releaseThread granted signalled status place =>
    rw [place] at life counted
    cases signalled with
    | true =>
      intro unharmed
      exact absurd (unharmed ▸ counted.1 : List.length [] = 1) (by decide)
    | false => exact life
  | release granted signalled status place | find granted signalled status place =>
    rw [place] at life
    cases signalled with
    | true => exact trivial
    | false => exact life
  | lockOwn granted call place | sleep granted call place | woken granted call place =>
    exact life.goes_on (by rw [place]; rfl) (by simp [place]) _ rfl

end

variable {caller : Nat}

theorem Settled.reap {call : WaitCall} (settled : Settled proc) (zombie : proc.state = .zombie)
    (child : proc.ppid = caller) :
    Settled (proc.reap caller call) := by
  rcases settled with ⟨-, -, unreported, kept, written⟩ | ⟨dead, -⟩
  · refine .inr ⟨rfl, rfl, ?_⟩
    unfold Proc.reap
    split
    · rw [unreported, kept]
      exact .faulted
    · rw [unreported, kept, written]
      exact .reported _ rfl child.symm
  · rw [zombie] at dead
    cases dead

theorem Settled.adopt (settled : Settled proc) (parent : Nat) : Settled (proc.adopt parent) := by
  unfold Proc.adopt
  dsimp only
  split
  · exact settled
  split
  · rename_i zombie
    rcases settled with ⟨-, -, unreported, _, written⟩ | ⟨dead, -⟩
    · refine .inr ⟨rfl, rfl, ?_⟩
      rw [unreported, written]
      exact .discarded parent
    · rw [zombie] at dead
      cases dead
  · exact settled

theorem adopt_of_ne_zombie (parent : Nat) (alive : proc.state ≠ .zombie) :
    ∃ ppid guardian, proc.adopt parent =
      { proc with ppid := ppid, history := { proc.history with guardian := guardian } } := by
  unfold Proc.adopt
  dsimp only
  rw [if_neg alive]
  split
  · exact ⟨proc.ppid, _, rfl⟩
  · exact ⟨1, _, rfl⟩

theorem Untouched.ne_zombie (untouched : Untouched proc) : proc.state ≠ .zombie := by
  rcases untouched.1 with state | state <;> rw [state] <;> decide

theorem Life.of_zombie {phase : Phase} (life : Life proc phase) (zombie : proc.state = .zombie)
    (kills : proc'.history.kills = proc.history.kills)
    (deaths : proc'.history.deaths = proc.history.deaths)
    (settles : Settled proc ∧ Tells proc → Settled proc' ∧ Tells proc') : Life proc' phase := by
  have touched (untouched : Untouched proc) : False := untouched.ne_zombie zombie
  cases phase with
  | alive => exact (touched life.1).elim
  | struck | fallen => exact trivial
  | leaving | ending => exact fun unharmed => (touched (life (kills.symm.trans unharmed)).1).elim
  | ended | finished => exact fun unharmed => settles (life (kills.symm.trans unharmed))
  | gone =>
    intro unharmed
    rcases life (kills.symm.trans unharmed) with ⟨-, -, alive⟩ | ⟨once, ended⟩
    · exact absurd zombie alive
    · exact .inr ⟨deaths.trans once, settles ended⟩

theorem adopt_kept (proc : Proc) (parent : Nat) :
    (proc.adopt parent).exitStatus = proc.exitStatus ∧
      (proc.adopt parent).history.kills = proc.history.kills ∧
        (proc.adopt parent).history.deaths = proc.history.deaths ∧
          (proc.adopt parent).history.exitCall = proc.history.exitCall := by
  unfold Proc.adopt
  dsimp only
  split
  · exact ⟨rfl, rfl, rfl, rfl⟩
  · split <;> exact ⟨rfl, rfl, rfl, rfl⟩

theorem reap_kept (proc : Proc) (caller : Nat) (call : WaitCall) :
    (proc.reap caller call).history.kills = proc.history.kills ∧
      (proc.reap caller call).history.deaths = proc.history.deaths ∧
        (proc.reap caller call).history.exitCall = proc.history.exitCall := by
  unfold Proc.reap
  split <;> exact ⟨rfl, rfl, rfl⟩

section

variable (life : Life proc (phase proc.pc))

include life

theorem Life.adopt (parent : Nat) :
    Life (proc.adopt parent) (phase proc.pc) := by
  by_cases zombie : proc.state = .zombie
  · obtain ⟨status, kills, deaths, exitCall⟩ := adopt_kept proc parent
    refine life.of_zombie zombie kills deaths fun ⟨settled, tells⟩ => ⟨settled.adopt parent, ?_⟩
    rw [Tells, status, exitCall]
    exact tells
  · obtain ⟨_, _, adopted⟩ := adopt_of_ne_zombie parent zombie
    rw [adopted]
    exact life

theorem Life.reap {call : WaitCall}
    (zombie : proc.state = .zombie) (child : proc.ppid = caller) :
    Life (proc.reap caller call) (phase proc.pc) := by
  obtain ⟨kills, deaths, exitCall⟩ := reap_kept proc caller call
  refine life.of_zombie zombie kills deaths fun ⟨settled, tells⟩ =>
    ⟨settled.reap zombie child, ?_⟩
  rw [Tells, exitCall]
  exact tells

theorem Life.halted :
    Life { proc with running := false } (phase proc.pc) := by
  have quits (before : Quits proc) : Quits { proc with running := false } :=
    fun word exited => ⟨rfl, (before word exited).2⟩
  generalize phase proc.pc = phase at life
  cases phase with
  | alive => exact ⟨life.1, quits life.2.1, life.2.2⟩
  | leaving => exact fun unharmed => ⟨(life unharmed).1, quits (life unharmed).2⟩
  | _ => exact life

omit life in
theorem Walks.ne_deliver {before after : Pc} (walks : Walks order before after) :
    before ≠ .deliver ∧ phase before ≠ .ending := by
  cases walks with
  | lock locks =>
    cases locks with
    | adopt signalled => cases signalled <;> simp [phase]
    | _ => simp [phase]
  | adopt signalled | adopted signalled | search signalled | signal signalled =>
    cases signalled <;> simp [phase]
  | _ => simp [phase]

theorem Life.walk {pc : Pc}
    (counted : Counted pid proc (phase proc.pc)) (walks : Walks order proc.pc pc) :
    Life { proc with pc := pc } (phase pc) := by
  rcases walks.phase_eq with same | ⟨before, after⟩
  · cases phase_eq : phase proc.pc with
    | alive => exact life.goes_on phase_eq walks.ne_deliver.1 pc (same.trans phase_eq)
    | ending => exact absurd phase_eq walks.ne_deliver.2
    | _ =>
      rw [phase_eq] at life
      rw [same, phase_eq]
      exact life
  · rw [before] at life counted
    rw [after]
    refine fun unharmed => .inr ⟨counted.1.trans ?_, life unharmed⟩
    rw [show proc.history.kills = [] from unharmed]
    rfl

theorem Life.move (counted : Counted pid proc (phase proc.pc))
    (move : Moves system event pid proc proc') : Life proc' (phase proc'.pc) := by
  cases move with
  | spawned | forked | cloned =>
    exact ⟨⟨.inl rfl, rfl, rfl, rfl, rfl⟩, by simp [Quits, spawned, forked, cloned, blank],
      by simp [spawned, forked, cloned, blank]⟩
  | begun parent forks unborn =>
    have alive : phase proc.pc = .alive := by rw [unborn]; rfl
    have unexited := life.exitCall_eq_none alive (by simp [unborn])
    cases forks <;>
      exact ⟨(life.alive alive).1, by simp [Quits, begun, unexited],
        by simp [begun, unexited]⟩
  | dropped unborn =>
    have untouched := (life.alive (by rw [unborn]; rfl)).1
    rw [unborn] at counted
    exact fun _ => .inl ⟨counted.2.1, untouched.2.2.1, untouched.ne_zombie⟩
  | pending => exact life
  | halted => exact life.halted
  | own action acts same own => exact life.own counted own
  | exitGroup code acts place => exact life.doExit place code
  | walked action acts walks => exact life.walk counted walks
  | waited action acts call place result stray waits =>
    have alive : phase proc.pc = .alive := by rw [waits]; rfl
    exact life.goes_on alive (by simp [waits]) .deliver rfl
  | noticed action acts signalled status place exits last =>
    rw [exits] at life counted
    rcases last with ⟨_, rfl⟩ | ⟨_, rfl⟩ <;> cases signalled with
    | true =>
      intro unharmed
      exact absurd (unharmed ▸ counted.1 : List.length [] = 1) (by decide)
    | false => exact life
  | woken =>
    unfold Proc.woken
    split
    · rename_i place
      exact life.goes_on (by rw [place]; rfl) (by simp [place]) _ rfl
    · exact life
  | reaped caller call again rest found waits same zombie child => exact life.reap zombie child
  | adopted parent =>
    rw [adopt_pc]
    exact life.adopt parent

end

/-- What holds of every entry in every run. -/
structure Record (pid : Nat) (proc : Proc) : Prop where
  mainThread : MainThread pid proc
  counted : Counted pid proc (phase proc.pc)
  life : Life proc (phase proc.pc)

theorem Record.blank (pid : Nat) : Record pid blank where
  mainThread := by simp [MainThread, leading, Process.blank]
  counted := .inl ⟨rfl, rfl⟩
  life _ := .inl ⟨rfl, rfl, by decide⟩

theorem Record.unharmed (record : Record pid proc) (unharmed : proc.history.kills = []) :
    proc.history.deaths = 0 ∧ proc.history.reports = [] ∨
      proc.history.deaths = 1 ∧ Settled proc ∧ Tells proc := by
  have life := record.life
  have counted := record.counted
  have none : proc.history.kills.length = 0 := by rw [unharmed, List.length_nil]
  generalize phase proc.pc = phase at life counted
  cases phase with
  | alive => exact .inl ⟨counted.2.1, life.1.2.2.1⟩
  | struck | fallen => exact absurd (unharmed ▸ counted.1 : List.length [] = 1) (by decide)
  | leaving | ending => exact .inl ⟨counted.1.trans none, (life unharmed).1.2.2.1⟩
  | ended | finished => exact .inr ⟨counted.1.trans (congrArg Nat.succ none), life unharmed⟩
  | gone => exact (life unharmed).imp_left fun unborn => ⟨unborn.1, unborn.2.1⟩

theorem Record.move (record : Record pid proc)
    (move : Moves system event pid proc proc') : Record pid proc' where
  mainThread := record.mainThread.move move
  counted := record.counted.move record.mainThread move
  life := record.life.move record.counted move

variable {events : List Event}

/-- The table is in order, and so is what each entry has been through. -/
def Recorded (system : System) : Prop := Tabled system ∧ ∀ pid, Record pid (system.proc pid)

theorem Recorded.start : Recorded .start := ⟨.start, fun pid => .blank pid⟩

theorem Recorded.step (recorded : Recorded system) (steps : system.step event = some next) :
    Recorded next :=
  ⟨recorded.1.shift (transition_of_step steps).shift,
    laws_step Record (fun move record => record.move move) recorded.1 steps recorded.2⟩

/-- An invariant of the steps between recorded systems. -/
theorem records_rule (invariant : System → Prop)
    (kept : ∀ {system event next}, Recorded system → system.step event = some next →
      invariant system → invariant next)
    {first : System} (recorded : Recorded first) (start : invariant first)
    (reached : run step first events = some system) : Recorded system ∧ invariant system :=
  invariant_run_of_step (fun system => Recorded system ∧ invariant system)
    (fun steps both => ⟨both.1.step steps, kept both.1 steps both.2⟩) reached ⟨recorded, start⟩

theorem records_run (reached : run step .start events = some system) : Recorded system :=
  invariant_run_of_step Recorded (fun steps recorded => recorded.step steps) reached .start

/-- No delivery of this event terminates the process. -/
def Unharmed (pid : Nat) (system : System) (event : Event) : Prop :=
  ∀ granted, event = .act pid (.advance granted) → (system.proc pid).pc = .deliver →
    ¬system.Fatal pid

theorem kills_of_fatal {granted : Bool}
    (steps : system.step (.act pid (.advance granted)) = some next)
    (place : (system.proc pid).pc = .deliver) (fatal : system.Fatal pid) :
    (next.proc pid).history.kills ≠ [] := by
  obtain ⟨_, delivers, action, minded, goes, moves⟩ := fatal
  have listed : pid ∈ system.order := by
    by_contra missing
    simp [step, missing] at steps
  have next_eq : next = system.sigDeliver pid granted := by
    simpa [step, listed, act, advance, place] using steps.symm
  simp [next_eq, sigDeliver, delivers, action, minded, goes, moves]

section

variable (move : Moves system event pid proc proc')

include move

/-- A move keeps the history, starts one, or is a step of the thread itself. -/
theorem Moves.history :
    (proc'.history.kills = proc.history.kills ∧ proc'.history.deaths = proc.history.deaths ∧
        proc'.history.exitCall = proc.history.exitCall) ∨
      (pid = system.fresh ∧ proc'.history.kills = [] ∧ proc'.history.deaths = 0) ∨
      ∃ action, event = .act pid action ∧
        (proc = system.proc pid ∧ Own (system.Fatal pid) pid proc action proc' ∨
          proc.pc = .user ∧ ∃ code, proc' = proc.doExit code) := by
  cases move with
  | spawned sighand new | forked caller sighand new | cloned caller sighand thread share new =>
    exact .inr (.inl ⟨new, rfl, rfl⟩)
  | begun parent forks => cases forks <;> exact .inl ⟨rfl, rfl, rfl⟩
  | own action acts same own => exact .inr (.inr ⟨action, acts, .inl ⟨same, own⟩⟩)
  | exitGroup code acts place => exact .inr (.inr ⟨_, acts, .inr ⟨place, code, rfl⟩⟩)
  | woken =>
    left
    unfold Proc.woken
    split <;> exact ⟨rfl, rfl, rfl⟩
  | reaped caller call => exact .inl (reap_kept proc caller call)
  | adopted parent => exact .inl (adopt_kept proc parent).2
  | _ => exact .inl ⟨rfl, rfl, rfl⟩

theorem Moves.kills :
    proc'.history.kills = proc.history.kills ∨ pid = system.fresh ∧ proc'.history.kills = [] ∨
      ∃ granted, event = .act pid (.advance granted) ∧
        (system.proc pid).pc = .deliver ∧ system.Fatal pid := by
  rcases move.history with ⟨same, -⟩ | ⟨new, none, -⟩ | ⟨_, acts, ⟨same, own⟩ | ⟨-, _, rfl⟩⟩
  · exact .inl same
  · exact .inr (.inl ⟨new, none⟩)
  · cases own with
    | killed granted pending sig place deadly =>
      exact .inr (.inr ⟨granted, acts, same ▸ place, deadly⟩)
    | _ => exact .inl rfl
  · exact .inl rfl

omit move in
theorem MovesTo.kills (moves : MovesTo system event pid proc proc')
    (unharmed : Unharmed pid system event) :
    proc'.history.kills = proc.history.kills ∨ pid = system.fresh ∧ proc'.history.kills = [] := by
  induction moves with
  | refl => exact .inl rfl
  | tail _ move induction =>
    rcases move.kills with same | new | ⟨granted, acts, place, fatal⟩
    · rw [same]
      exact induction
    · exact .inr new
    · exact absurd fatal (unharmed granted acts place)

theorem Moves.idle
    (idle : ∀ action, event ≠ .act pid action) :
    proc'.history.kills = proc.history.kills ∧ proc'.history.deaths = proc.history.deaths ∨
      pid = system.fresh ∧ proc'.history.kills = [] ∧ proc'.history.deaths = 0 := by
  rcases move.history with ⟨kills, deaths, -⟩ | fresh | ⟨action, acts, -⟩
  · exact .inl ⟨kills, deaths⟩
  · exact .inr fresh
  · exact absurd acts (idle action)

end

/-- Numbers that are not in use have no history. -/
def Unmarked (system : System) : Prop :=
  ∀ pid, system.pidCounter < pid →
    (system.proc pid).history.kills = [] ∧ (system.proc pid).history.deaths = 0

theorem Unmarked.start : Unmarked .start := fun _ _ => ⟨rfl, rfl⟩

theorem Unmarked.step (unmarked : Unmarked system) (tabled : Tabled system)
    (steps : system.step event = some next) : Unmarked next := by
  intro pid unused
  have before :=
    Nat.lt_of_le_of_lt (transition_of_step steps).shift.pidCounter_le unused
  have idle : ∀ action, event ≠ .act pid action := by
    rintro action rfl
    have listed := (transition_of_step steps).listed_of_act
    exact absurd (tabled.bounded pid listed) (Nat.not_le.mpr before)
  have moves := (transition_of_step steps).moves tabled pid
  have start := unmarked pid before
  generalize next.proc pid = last at moves
  induction moves with
  | refl => exact start
  | tail _ move induction =>
    rcases move.idle idle with ⟨kills, deaths⟩ | ⟨-, new⟩
    · rw [kills, deaths]
      exact induction
    · exact new

theorem unmarked_run (reached : run step .start events = some system) : Unmarked system :=
  (records_rule Unmarked (fun recorded steps unmarked => unmarked.step recorded.1 steps) .start
    .start reached).2

theorem kills_step (unmarked : Unmarked system) (tabled : Tabled system)
    (steps : system.step event = some next) :
    (next.proc pid).history.kills = [] ↔
      (system.proc pid).history.kills = [] ∧ Unharmed pid system event := by
  constructor
  · intro unkilled
    have unharmed : Unharmed pid system event := by
      rintro granted rfl place fatal
      exact kills_of_fatal steps place fatal unkilled
    refine ⟨?_, unharmed⟩
    rcases ((transition_of_step steps).moves tabled pid).kills unharmed with
      same | ⟨new, -⟩
    · rw [← same]
      exact unkilled
    · exact (unmarked pid (new ▸ Nat.lt_succ_self _)).1
  · rintro ⟨unkilled, unharmed⟩
    rcases ((transition_of_step steps).moves tabled pid).kills unharmed with
      same | ⟨-, new⟩
    · rw [same]
      exact unkilled
    · exact new

/-- No signal has terminated a process exactly if no delivery of the run has. -/
theorem kills_run (unmarked : Unmarked system)
    (tabled : Tabled system) (reached : run step system events = some next) :
    (next.proc pid).history.kills = [] ↔
      (system.proc pid).history.kills = [] ∧ Along step (Unharmed pid) system events := by
  induction events generalizing system with
  | nil =>
    rw [run, Option.some.injEq] at reached
    subst reached
    exact ⟨fun unkilled => ⟨unkilled, trivial⟩, fun both => both.1⟩
  | cons event events induction =>
    obtain ⟨middle, steps, rest⟩ := run_cons_eq_some.mp reached
    have tabled' := tabled.shift (transition_of_step steps).shift
    rw [induction (unmarked.step tabled steps) tabled' rest, kills_step unmarked tabled steps,
      and_assoc]
    refine and_congr_right fun _ => ⟨fun both => .cons steps both.1 both.2, fun along => ?_⟩
    exact ⟨along.1, along.2 middle steps⟩

/-- A thread takes its next steps. -/
def goesOn (pid count : Nat) : List Event := List.replicate count (.act pid (.advance true))

/-- Process 1 has a child, which has started a program of its own; both are in guest code. -/
def family : List Event :=
  .spawn :: goesOn 1 1 ++ .act 1 .fork :: goesOn 1 2 ++ goesOn 2 1 ++
    .act 2 (.call .exec) :: goesOn 2 2 ++ goesOn 1 3

/-- `wait4` for any child. -/
def waitAny : WaitCall := { pid := -1, noHang := false, status := .writable }

/-- A thread in a loop under `proc_lock` is alone there and can go on, and the list stays. -/
theorem order_kept_of_holds (reached : run step .start events = some system)
    (holds : Holds (system.proc pid).pc = true) :
    (∀ other, Holds (system.proc other).pc = true → other = pid) ∧
      (∀ granted, (system.step (.act pid (.advance granted))).isSome = true) ∧
        ∀ event next, system.step event = some next → next.order = system.order := by
  have tabled := (records_run reached).1
  have locked := (tabled.holder pid).mpr holds
  refine ⟨fun other also => ?_, fun granted => ?_, fun event next steps => ?_⟩
  · exact Option.some.inj (((tabled.holder other).mpr also).symm.trans locked)
  · have special := Holds.special holds
    have listed := tabled.listed pid special.2.1 special.1
    generalize place : (system.proc pid).pc = pc at holds
    unfold Holds at holds
    split at holds
    · simp [step, act, System.advance, listed, place]
    · simp [step, act, System.advance, listed, place]
    · rename_i rest
      cases rest <;> simp [step, act, System.advance, listed, place]
    · cases holds
  · cases transition_of_step steps with
    | exitGroup => rfl
    | _ => simp_all

theorem order_kept_of_scan : ∃ system : System, system.procLock = some 1 ∧
    ∀ event next, system.step event = some next → next.order = system.order := by
  have reached : run step .start [.spawn, .act 1 (.advance true), .act 1 (.call (.wait waitAny)),
      .act 1 (.advance true)] = some _ := rfl
  exact ⟨_, by rfl, (@order_kept_of_holds _ 1 _ reached rfl).2.2⟩

end AlpineOnIOS.Process
