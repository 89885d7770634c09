import AlpineOnIOS.Process.Wakeup

/-!
# One death, one status

A process that nobody kills dies once. If the default action of a signal terminates it,
`proc_exit` runs twice. `proc_exit_group` makes the other threads of a group stop, but only the
caller keeps the status, and `proc_wait` takes every thread for a child.
-/

namespace AlpineOnIOS.Process

open Foundation Process.System

variable {system : System} {events : List Event} {pid : Nat} {proc : Proc}

/-- The process has gone through all of `proc_run_exit` but the wait for its parent. -/
def Ended (proc : Proc) : Prop :=
  phase proc.pc = .finished ∨ phase proc.pc = .gone ∧ 0 < proc.history.deaths

/-- One death and one notice, reported by the signals that terminated it or by its status. -/
structure OneDeath (pid : Nat) (proc : Proc) : Prop where
  atMost : proc.history.deaths ≤ 1 ∧ proc.history.notices ≤ 1
  atEnd : Ended proc → proc.history.deaths = 1 ∧ (proc.tgid = pid → proc.history.notices = 1)
  killed : ∀ sig ∈ proc.history.kills, ∀ report ∈ proc.history.reports,
    report.status &&& 0x7f = .ofNat sig
  exited : ∀ word, proc.history.exitCall = some word →
    ∀ report ∈ proc.history.reports, report.status = word

theorem Counted.atMost {phase : Phase} (counted : Counted pid proc phase)
    (unharmed : proc.history.kills = []) :
    proc.history.deaths ≤ 1 ∧ proc.history.notices ≤ 1 := by
  cases phase <;> simp only [Counted, unharmed, List.length_nil] at counted <;> grind

theorem Record.deaths_of_ended (record : Record pid proc) (ended : Ended proc) :
    proc.history.deaths = proc.history.kills.length + 1 ∧
      proc.history.notices =
        if proc.tgid = pid then proc.history.kills.length + 1 else 0 := by
  have counted := record.counted
  rcases ended with finished | ⟨gone, dead⟩
  · rw [finished] at counted
    exact counted
  rw [gone] at counted
  rcases counted with ⟨unborn, -⟩ | counted
  · exact absurd unborn (Nat.ne_of_gt dead)
  · exact counted

theorem Settled.status (settled : Settled proc) :
    ∀ report ∈ proc.history.reports, report.status = proc.exitStatus := by
  rcases settled with ⟨-, -, unreported, -⟩ | ⟨-, -, how⟩
  · rw [unreported]
    exact fun _ absent => absurd absent List.not_mem_nil
  · exact how.status

theorem Record.exited (record : Record pid proc) (unharmed : proc.history.kills = [])
    (word : UInt32) (exited : proc.history.exitCall = some word) :
    ∀ report ∈ proc.history.reports, report.status = word := by
  rcases record.unharmed unharmed with ⟨-, unreported⟩ | ⟨-, settled, tells⟩
  · rw [unreported]
    exact fun _ absent => absurd absent List.not_mem_nil
  · exact fun report among => (settled.status report among).trans (tells word exited)

/-- A process dies once as long as no delivery terminates it, and twice otherwise. -/
theorem one_death_iff (reached : run step .start events = some system) (pid : Nat) :
    (Along step (Unharmed pid) .start events → OneDeath pid (system.proc pid)) ∧
      (Ended (system.proc pid) → OneDeath pid (system.proc pid) →
        Along step (Unharmed pid) .start events) := by
  have record := (records_run reached).2 pid
  have kills : (system.proc pid).history.kills = [] ↔ Along step (Unharmed pid) .start events :=
    (kills_run .start .start reached).trans (and_iff_right rfl)
  constructor
  · intro along
    have unharmed := kills.mpr along
    refine ⟨record.counted.atMost unharmed, fun ended => ?_, ?_, record.exited unharmed⟩
    · obtain ⟨deaths, notices⟩ := record.deaths_of_ended ended
      rw [unharmed] at deaths notices
      exact ⟨deaths, fun leader => notices.trans (if_pos leader)⟩
    · rw [unharmed]
      exact fun _ absent => absurd absent List.not_mem_nil
  · intro ended once
    have deaths := (record.deaths_of_ended ended).1
    rw [(once.atEnd ended).1] at deaths
    exact kills.mp (List.eq_nil_of_length_eq_zero (Nat.succ.inj deaths).symm)

/-- The child exits with code 3, and its parent waits for it. -/
theorem one_death_sample :
    ∃ system, run step .start
        (family ++ .act 2 (.call (.exit 3)) :: goesOn 2 14 ++ .act 1 (.call (.wait waitAny)) ::
          goesOn 1 2) = some system ∧
      Ended (system.proc 2) ∧ OneDeath 2 (system.proc 2) ∧
        (system.proc 2).history.reports = [⟨1, 1, 0x300⟩] := by
  have seen : (run step .start
      (family ++ .act 2 (.call (.exit 3)) :: goesOn 2 14 ++ .act 1 (.call (.wait waitAny)) ::
        goesOn 1 2)).map
          (fun system => ((system.proc 2).pc, (system.proc 2).history.kills,
            (system.proc 2).history.reports)) =
        some (.linger, [], [⟨1, 1, 0x300⟩]) := by
    decide +kernel
  obtain ⟨system, reached, at_end⟩ := Option.map_eq_some_iff.mp seen
  simp only [Prod.mk.injEq] at at_end
  obtain ⟨place, unharmed, reports⟩ := at_end
  have along := ((kills_run .start .start reached).mp unharmed).2
  exact ⟨system, reached, .inl (by rw [place]; rfl), (one_death_iff reached 2).1 along, reports⟩

/-- A child that `SIGTERM` terminates is reported twice. -/
theorem killed_process_dies_twice :
    ((run step .start
        (family ++ .send 2 15 :: .act 2 (.call .other) :: goesOn 2 3 ++
          .act 1 (.call (.wait waitAny)) :: goesOn 1 4 ++ goesOn 2 13 ++
            .act 1 (.call (.wait waitAny)) :: goesOn 1 2)).map
        fun system => ((system.proc 2).history.kills, (system.proc 2).history.deaths,
          (system.proc 2).history.reports, (system.proc 1).history.results)) =
      some ([15], 2, [⟨1, 1, 0⟩, ⟨1, 1, 15⟩], [2, 2]) ∧
    ((run step .start
        (family ++ .send 2 15 :: .act 2 (.call (.exit 3)) :: goesOn 2 3 ++
          .act 1 (.call (.wait waitAny)) :: goesOn 1 2)).map
        fun system => ((system.proc 2).history.exitCall, (system.proc 2).history.reports)) =
      some (some 0x300, [⟨1, 1, 15⟩]) := by
  decide +kernel

variable {next : System} {event : Event} {other : Nat} {proc' : Proc}

theorem Moves.exitCall (move : Moves system event pid proc proc') :
    proc'.history.exitCall = proc.history.exitCall ∨ pid = system.fresh ∨ proc.pc = .user := by
  rcases move.history with ⟨-, -, same⟩ | ⟨new, -⟩ | ⟨_, _, ⟨-, own⟩ | ⟨place, -⟩⟩
  · exact .inl same
  · exact .inr (.inl new)
  · cases own with
    | exit code place => exact .inr (.inr place)
    | _ => exact .inl rfl
  · exact .inr (.inr place)

/-- A new entry is in its own group, or in the group of a thread in guest code. -/
structure Created (system : System) (pid tgid : Nat) : Prop where
  new : pid = system.fresh
  group : tgid = pid ∨
    ∃ caller, (system.proc caller).pc = .user ∧ (system.proc caller).tgid = tgid

variable {caller : Nat}

theorem Created.cloned (new : pid = system.fresh) (place : (system.proc caller).pc = .user)
    (thread : Bool) :
    Created system pid (if thread then (system.proc caller).tgid else pid) := by
  cases thread with
  | true => exact ⟨new, .inr ⟨caller, place, rfl⟩⟩
  | false => exact ⟨new, .inl rfl⟩

theorem Moves.tgid (move : Moves system event pid proc proc') :
    proc'.tgid = proc.tgid ∨ Created system pid proc'.tgid := by
  cases move with
  | spawned sighand new | forked caller sighand new => exact .inr ⟨new, .inl rfl⟩
  | cloned caller sighand thread share new acts place => exact .inr (.cloned new place thread)
  | begun parent forks => cases forks <;> exact .inl rfl
  | own action acts same own => exact .inl own.family.2
  | woken => exact .inl (woken_tgid proc)
  | adopted parent => exact .inl (adopt_tgid proc parent)
  | _ => exact .inl rfl

/-- The thread is over, and its parent has no status to collect. -/
def Done (proc : Proc) : Prop :=
  proc.pc = .gone ∨ phase proc.pc = .finished ∧ proc.state ≠ .zombie

theorem Done.ne_user (done : Done proc) : proc.pc ≠ .user := by
  rintro place
  rcases done with gone | ⟨finished, -⟩
  · rw [place] at gone
    cases gone
  · rw [place] at finished
    cases finished

theorem Done.phase_eq (done : Done proc) : phase proc.pc = .finished ∨ phase proc.pc = .gone := by
  rcases done with gone | ⟨finished, -⟩
  · exact .inr (by rw [gone]; rfl)
  · exact .inl finished

theorem linger_or_destroy {pc : Pc} (finished : phase pc = .finished) :
    pc = .linger ∨ pc = .destroy := by
  cases pc with
  | linger => exact .inl rfl
  | destroy => exact .inr rfl
  | exiting signalled status place => cases place <;> cases signalled <;> cases finished
  | _ => cases finished

variable {fatal : Prop} {action : Action}

theorem Own.place_of_finished (own : Own fatal pid proc action proc')
    (finished : phase proc.pc = .finished) :
    proc.pc = .linger := by
  rcases linger_or_destroy finished with place | place
  · exact place
  · cases own <;> simp_all

theorem Scanned.mem_order {child : Nat} {call : WaitCall} {again : Bool} {rest : List Nat}
    {found : Bool} (scanned : Scanned system) (place : (system.proc caller).pc =
      .waiting call (scanPlace again (child :: rest) found)) :
    child ∈ system.order := by
  obtain ⟨visited, order, -⟩ := scanned.seen place
  rw [order]
  exact List.mem_append_right visited List.mem_cons_self

theorem Done.own (done : Done proc) (own : Own fatal pid proc action proc') :
    Done proc' ∧ proc'.history.reports = proc.history.reports := by
  rcases done with gone | ⟨finished, settled⟩
  · exact absurd gone (Plain.special own.plain.1).2.1
  have place := own.place_of_finished finished
  cases own with
  | collected | expire => exact ⟨.inr ⟨rfl, settled⟩, rfl⟩
  | _ => simp_all

theorem Done.adopt (done : Done proc) (parent : Nat) :
    Done (proc.adopt parent) ∧ (proc.adopt parent).history.reports = proc.history.reports := by
  have reports : (proc.adopt parent).history.reports = proc.history.reports := by
    unfold Proc.adopt
    dsimp only
    split
    · rfl
    · split <;> rfl
  refine ⟨?_, reports⟩
  rcases done with gone | ⟨finished, settled⟩
  · exact .inl ((adopt_pc proc parent).trans gone)
  obtain ⟨_, _, adopted⟩ := adopt_of_ne_zombie parent settled
  rw [adopted]
  exact .inr ⟨finished, settled⟩

theorem Done.move (done : Done proc) (tabled : Tabled system) (scanned : Scanned system)
    (move : Moves system event pid proc proc') :
    Done proc' ∧ proc'.history.reports = proc.history.reports ∨ Created system pid proc'.tgid := by
  have here := done.phase_eq
  cases move with
  | spawned sighand new | forked caller sighand new => exact .inr ⟨new, .inl rfl⟩
  | cloned caller sighand thread share new acts place => exact .inr (.cloned new place thread)
  | begun parent forks unborn | dropped unborn =>
    rw [unborn] at here
    rcases here with same | same <;> cases same
  | pending | halted => exact .inl ⟨done, rfl⟩
  | own action acts same own => exact .inl (done.own own)
  | exitGroup code acts place => exact absurd place done.ne_user
  | walked action acts walks =>
    rcases done with gone | ⟨finished, settled⟩
    · rw [gone] at walks
      cases walks with
      | lock locks => cases locks
    · rcases walks.phase_eq with same | ⟨-, after⟩
      · exact .inl ⟨.inr ⟨same.trans finished, settled⟩, rfl⟩
      · exact .inl ⟨.inl after, rfl⟩
  | waited action acts call place result stray waits =>
    rw [waits] at here
    rcases here with same | same <;> cases same
  | noticed action acts signalled status place exits last =>
    rw [exits] at here
    rcases last with ⟨_, rfl⟩ | ⟨_, rfl⟩ <;> cases signalled <;>
      rcases here with same | same <;> cases same
  | woken =>
    unfold Proc.woken
    split
    · rename_i place
      rw [place] at here
      rcases here with same | same <;> cases same
    · exact .inl ⟨done, rfl⟩
  | reaped caller call again rest found waits same zombie =>
    rcases done with gone | ⟨-, settled⟩
    · exact absurd (same ▸ gone) (tabled.present pid (scanned.mem_order waits))
    · exact absurd zombie settled
  | adopted parent => exact .inl (done.adopt parent)

/-- The main thread has called `exit`, and the other threads are done since the state `before`. -/
structure Closing (before : System) (pid : Nat) (word : UInt32) (system : System) : Prop where
  known : pid ≤ system.pidCounter
  main : (system.proc pid).tgid = pid
  exited : (system.proc pid).history.exitCall = some word
  others : ∀ other, other ≠ pid → (system.proc other).tgid = pid →
    Done (system.proc other) ∧
      (system.proc other).history.reports = (before.proc other).history.reports

variable {before : System} {word : UInt32}

section

variable (closing : Closing before pid word system)

include closing

theorem Closing.ne_user
    (records : ∀ pid, Record pid (system.proc pid)) (member : (system.proc other).tgid = pid) :
    (system.proc other).pc ≠ .user := by
  intro place
  by_cases same : other = pid
  · have life := (records other).life
    have unexited := life.exitCall_eq_none (by rw [place]; rfl) (by simp [place])
    rw [same, closing.exited] at unexited
    cases unexited
  · exact (closing.others other same member).1.ne_user place

theorem Closing.not_created (records : ∀ pid, Record pid (system.proc pid)) (ne : other ≠ pid) :
    ¬Created system other pid := by
  rintro ⟨_, same | ⟨_, place, group⟩⟩
  · exact ne same.symm
  · exact closing.ne_user records group place

theorem Closing.step (recorded : Recorded system) (scanned : Scanned system)
    (steps : system.step event = some next) : Closing before pid word next := by
  have known : pid ≠ system.fresh := Nat.ne_of_lt (Nat.lt_succ_of_le closing.known)
  have laws := laws_step
    (fun other proc => Record other proc ∧
      (other = pid → proc.tgid = pid ∧ proc.history.exitCall = some word) ∧
        (other ≠ pid → proc.tgid = pid →
          Done proc ∧ proc.history.reports = (before.proc other).history.reports))
    (fun {other proc proc'} move law => ?_) recorded.1 steps
    (fun other => ⟨recorded.2 other, ?_, closing.others other⟩)
  · exact ⟨Nat.le_trans closing.known (transition_of_step steps).shift.pidCounter_le,
      ((laws pid).2.1 rfl).1, ((laws pid).2.1 rfl).2, fun other => (laws other).2.2⟩
  · obtain ⟨record, mine, others⟩ := law
    refine ⟨record.move move, ?_, fun ne member => ?_⟩
    · rintro rfl
      obtain ⟨main, exited⟩ := mine rfl
      constructor
      · rcases move.tgid with same | created
        · exact same.trans main
        · exact absurd created.new known
      · rcases move.exitCall with same | new | place
        · exact same.trans exited
        · exact absurd new known
        have unexited := record.life.exitCall_eq_none (by rw [place]; rfl) (by simp [place])
        rw [exited] at unexited
        cases unexited
    · have old : ¬Created system other proc'.tgid := by
        rw [member]
        exact closing.not_created recorded.2 ne
      have same := move.tgid.resolve_right old
      obtain ⟨done, reports⟩ := others ne (same.symm.trans member)
      obtain ⟨done', reports'⟩ := (done.move recorded.1 scanned move).resolve_right old
      exact ⟨done', reports'.trans reports⟩
  · rintro rfl
    exact ⟨closing.main, closing.exited⟩

end

/-- The main thread of a group, when every other thread of the group is done. -/
structure LastThread (system : System) (pid : Nat) : Prop where
  main : (system.proc pid).tgid = pid
  alone : ∀ other, other ≠ pid → (system.proc other).tgid = pid → Done (system.proc other)

variable {code : UInt64}

theorem exitGroup_of_step (steps : system.step (.act pid (.exitGroup code)) = some next) :
    (system.proc pid).pc = .user ∧ next = system.exitGroup pid code := by
  have listed := (transition_of_step steps).listed_of_act
  simp only [step, listed, if_true, act] at steps
  split at steps
  · rename_i fits
    exact ⟨fits.1, (Option.some.inj steps).symm⟩
  · cases steps

theorem Closing.of_step (tabled : Tabled system)
    (steps : system.step (.act pid (.exitGroup code)) = some next) (last : LastThread system pid) :
    Closing system pid (exitWord code) next := by
  have transition := transition_of_step steps
  have listed := transition.listed_of_act
  have next_eq := (exitGroup_of_step steps).2
  have own : next.proc pid = (system.proc pid).doExit code := by
    rw [next_eq, exitGroup]
    exact if_pos rfl
  refine ⟨?_, ?_, ?_, fun other ne member => ?_⟩
  · exact Nat.le_trans (tabled.bounded pid listed) transition.shift.pidCounter_le
  · rw [own]
    exact last.main
  · rw [own]
    rfl
  · have rest : next.proc other =
        if other ∈ system.order ∧ (system.proc other).tgid = (system.proc pid).tgid then
          { system.proc other with running := false }
        else system.proc other := by
      rw [next_eq, exitGroup]
      exact if_neg ne
    rw [rest] at member ⊢
    split at member
    · rename_i inside
      rw [if_pos inside]
      exact ⟨last.alone other ne member, rfl⟩
    · rename_i outside
      rw [if_neg outside]
      exact ⟨last.alone other ne member, rfl⟩

/-- Of a process parents are told the status of `exit_group`, and nothing of its other threads. -/
structure GroupStatus (before final : System) (pid : Nat) (word : UInt32) : Prop where
  status : ∀ report ∈ (final.proc pid).history.reports, report.status = word
  threads : ∀ other, other ≠ pid → (final.proc other).tgid = pid →
    (final.proc other).history.reports = (before.proc other).history.reports

/-- `exit_group` by the last thread of a group tells its parent the status and nothing else. -/
theorem exit_group_status {after final : System} {code : UInt64} {later : List Event}
    (reached : run step .start events = some before)
    (exits : before.step (.act pid (.exitGroup code)) = some after) (last : LastThread before pid)
    (goes_on : run step after later = some final)
    (unharmed : Along step (Unharmed pid) after later) :
    GroupStatus before final pid (exitWord code) := by
  have reached' : run step .start (events ++ [.act pid (.exitGroup code)]) = some after :=
    run_append_eq_some.mpr ⟨before, reached, run_cons_eq_some.mpr ⟨after, exits, rfl⟩⟩
  have records := records_run reached'
  have closing := Closing.of_step (records_run reached).1 exits last
  have kept := records_rule
    (fun system => Scanned system ∧ Closing before pid (exitWord code) system)
    (fun {state event next} recorded steps kept => ?_) records ⟨scanned_run reached', closing⟩ goes_on
  · obtain ⟨⟨-, records'⟩, -, closed⟩ := kept
    have alive : (before.proc pid).history.kills = [] := by
      have counted := ((records_run reached).2 pid).counted
      rw [(exitGroup_of_step exits).1] at counted
      exact List.eq_nil_of_length_eq_zero counted.1
    have along : Along step (Unharmed pid) before (.act pid (.exitGroup code) :: later) :=
      .cons exits (fun granted acts => by cases acts) unharmed
    have unkilled := (kills_run (unmarked_run reached) (records_run reached).1
      (run_cons_eq_some.mpr ⟨after, exits, goes_on⟩)).mpr ⟨alive, along⟩
    exact ⟨(records' pid).exited unkilled _ closed.exited,
      fun other ne member => (closed.others other ne member).2⟩
  · exact ⟨kept.1.step recorded.1 (transition_of_step steps),
      kept.2.step recorded kept.1 steps⟩

theorem family_last (reached : run step .start family = some system) : LastThread system 2 := by
  have seen : (run step .start family).map
      (fun system => (system.pidCounter, (system.proc 0).tgid, (system.proc 1).tgid,
        (system.proc 2).tgid)) = some (2, 0, 1, 2) := by
    decide +kernel
  rw [reached, Option.map_some, Option.some.injEq, Prod.mk.injEq, Prod.mk.injEq,
    Prod.mk.injEq] at seen
  obtain ⟨counter, none, first, second⟩ := seen
  refine ⟨second, fun other ne member => .inl ?_⟩
  obtain rfl | rfl | rfl | beyond : other = 0 ∨ other = 1 ∨ other = 2 ∨ 2 < other := by omega
  · exact absurd (none.symm.trans member) (by decide)
  · exact absurd (first.symm.trans member) (by decide)
  · exact absurd rfl ne
  · exact (records_run reached).1.unused other (counter ▸ beyond)

/-- The child calls `exit_group` with code 3, and its parent waits for it. -/
theorem exit_group_status_sample :
    ∃ before final, run step .start family = some before ∧ LastThread before 2 ∧
      run step before (.act 2 (.exitGroup 3) :: goesOn 2 14 ++
        .act 1 (.call (.wait waitAny)) :: goesOn 1 2) = some final ∧
      GroupStatus before final 2 0x300 ∧ (final.proc 2).history.reports = [⟨1, 1, 0x300⟩] := by
  have seen : (run step .start (family ++ (.act 2 (.exitGroup 3) :: goesOn 2 14 ++
      .act 1 (.call (.wait waitAny)) :: goesOn 1 2))).map
        (fun system => ((system.proc 2).history.kills, (system.proc 2).history.reports)) =
      some ([], [⟨1, 1, 0x300⟩]) := by
    decide +kernel
  obtain ⟨final, reached, at_end⟩ := Option.map_eq_some_iff.mp seen
  obtain ⟨before, reached, rest⟩ := run_append_eq_some.mp reached
  obtain ⟨after, exits, goes_on⟩ := run_cons_eq_some.mp rest
  have last := family_last reached
  have along := ((kills_run (unmarked_run reached) (records_run reached).1 rest).mp
    (congrArg Prod.fst at_end)).2
  exact ⟨before, final, reached, last, rest,
    exit_group_status reached exits last goes_on (along.2 after exits), congrArg Prod.snd at_end⟩

/-- The main thread of process 2 has started another thread; both are in guest code. -/
def threads : List Event :=
  family ++ .act 2 (.clone true true) :: goesOn 2 4 ++ goesOn 3 1

/-- The status of another thread's `exit_group` is lost, and threads are reported as children. -/
theorem exit_group_reports_threads :
    ((run step .start
        (threads ++ .act 3 (.exitGroup 3) :: goesOn 3 6 ++ .act 2 (.call .other) :: goesOn 2 15 ++
          .act 1 (.call (.wait waitAny)) :: goesOn 1 4 ++ .act 1 (.call (.wait waitAny)) ::
            goesOn 1 3)).map
        fun system => ((system.proc 2).history.reports, (system.proc 3).tgid,
          (system.proc 3).history.reports, (system.proc 1).history.results)) =
      some ([⟨1, 1, 0⟩], 2, [⟨1, 1, 0x300⟩], [2, 3]) ∧
    ((run step .start
        (threads ++ .act 2 (.exitGroup 3) :: goesOn 2 15 ++ .act 3 (.call .other) :: goesOn 3 6 ++
          .act 1 (.call (.wait waitAny)) :: goesOn 1 4 ++ .act 1 (.call (.wait waitAny)) ::
            goesOn 1 3)).map
        fun system => ((system.proc 2).history.reports, (system.proc 3).tgid,
          (system.proc 3).history.reports, (system.proc 1).history.results)) =
      some ([⟨1, 1, 0x300⟩], 2, [⟨1, 1, 0⟩], [2, 3]) ∧
    ((run step .start
        (family ++ .send 2 15 :: .act 2 (.exitGroup 3) :: goesOn 2 3 ++
          .act 1 (.call (.wait waitAny)) :: goesOn 1 2)).map
        fun system => ((system.proc 2).history.exitCall, (system.proc 2).history.reports)) =
      some (some 0x300, [⟨1, 1, 15⟩]) := by
  decide +kernel

end AlpineOnIOS.Process
