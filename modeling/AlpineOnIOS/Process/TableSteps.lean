import AlpineOnIOS.Process.Table

/-!
# The steps of the process table

A step of the table changes one entry on its own, or the entries of a thread and of a child or a
parent.  The relations here list these changes once; what a run preserves is shown over them.
-/

namespace AlpineOnIOS.Process

open Foundation Process.System

/-- The default action of a signal terminates. -/
def Terminates (sig : Nat) : Prop :=
  sigDefaultIgnore sig = false ∧ sig ≠ sigCont ∧ sigDefaultStop sig = false
  deriving Decidable

/-- The next delivery to a process terminates it. -/
def System.Fatal (system : System) (pid : Nat) : Prop :=
  ∃ sig, (system.proc pid).deliverable = some sig ∧
    system.sighands (system.proc pid).sighand sig = .dfl ∧ Terminates sig

/-- What a thread does to its own entry when it needs no other. -/
inductive Own (fatal : Prop) (pid : Nat) (proc : Proc) : Action → Proc → Prop where
  | enter (granted : Bool) (place : proc.pc = .enter) :
      Own fatal pid proc (.advance granted) { proc with pc := .user }
  | unfit (granted : Bool) (place : proc.pc = .enter) :
      Own fatal pid proc (.advance granted) { proc with pc := .exiting false 1 .status }
  | exec (sighand : Nat) (place : proc.pc = .user) :
      Own fatal pid proc (.call .exec)
        { proc with
          running := true, exitCode := 0, vforkDone := true, sighand := sighand, pc := .deliver }
  | exit (code : UInt64) (place : proc.pc = .user) :
      Own fatal pid proc (.call (.exit code)) (proc.doExit code)
  | wait (call : WaitCall) (place : proc.pc = .user) :
      Own fatal pid proc (.call (.wait call)) { proc with pc := .waiting call .start }
  | other (call : Call) (blocked : UInt64) (pgid sid : Int) (place : proc.pc = .user) :
      Own fatal pid proc (.call call)
        { proc with sigBlocked := blocked, pgid := pgid, sid := sid, pc := .deliver }
  | fault (place : proc.pc = .user) :
      Own fatal pid proc .fault { proc with running := false, pc := .runExit }
  | delivered (granted : Bool) (pending blocked : UInt64) (place : proc.pc = .deliver)
      (calm : ¬fatal) :
      Own fatal pid proc (.advance granted)
        { proc with sigPending := pending, sigBlocked := blocked, pc := .leave }
  | continued (granted : Bool) (pending : UInt64) (place : proc.pc = .deliver) (calm : ¬fatal) :
      Own fatal pid proc (.advance granted)
        { proc with sigPending := pending, state := .running, pc := .leave }
  | stopped (granted : Bool) (pending : UInt64) (place : proc.pc = .deliver) (calm : ¬fatal) :
      Own fatal pid proc (.advance granted)
        { proc with sigPending := pending, state := .stopped, pc := .leave }
  | killed (granted : Bool) (pending : UInt64) (sig : Nat) (place : proc.pc = .deliver)
      (deadly : fatal) :
      Own fatal pid proc (.advance granted)
        { proc with
          sigPending := pending
          pc := .exiting true (.ofNat sig &&& 0x7f) .status
          history := { proc.history with kills := sig :: proc.history.kills } }
  | resume (granted : Bool) (child : Nat) (place : proc.pc = .forking child) :
      Own fatal pid proc (.advance granted) { proc with pc := .deliver }
  | returned (granted : Bool) (place : proc.pc = .leave) (running : proc.running = true) :
      Own fatal pid proc (.advance granted) { proc with pc := .user }
  | left (granted : Bool) (place : proc.pc = .leave) (halted : proc.running = false) :
      Own fatal pid proc (.advance granted) { proc with pc := .runExit }
  | runExit (granted : Bool) (place : proc.pc = .runExit) :
      Own fatal pid proc (.advance granted) { proc with pc := .exiting false proc.exitCode .status }
  | status (granted signalled : Bool) (status : UInt32)
      (place : proc.pc = .exiting signalled status .status) :
      Own fatal pid proc (.advance granted)
        { proc with exitStatus := status, pc := .exiting signalled status .zombie }
  | zombie (granted signalled : Bool) (status : UInt32)
      (place : proc.pc = .exiting signalled status .zombie) :
      Own fatal pid proc (.advance granted)
        { proc with
          state := .zombie
          running := false
          pc := .exiting signalled status .release
          history := { proc.history with deaths := proc.history.deaths + 1 } }
  | releaseThread (granted signalled : Bool) (status : UInt32)
      (place : proc.pc = .exiting signalled status .release) (thread : proc.tgid ≠ pid) :
      Own fatal pid proc (.advance granted)
        { proc with vforkDone := true, pc := Proc.afterExit signalled }
  | release (granted signalled : Bool) (status : UInt32)
      (place : proc.pc = .exiting signalled status .release) (leader : proc.tgid = pid) :
      Own fatal pid proc (.advance granted)
        { proc with vforkDone := true, pc := .exiting signalled status .reparent }
  | find (granted signalled : Bool) (status : UInt32)
      (place : proc.pc = .exiting signalled status .find) :
      Own fatal pid proc (.advance granted)
        { proc with pc := .exiting signalled status (.search proc.ppid) }
  | lockOwn (granted : Bool) (call : WaitCall) (place : proc.pc = .waiting call .lockOwn) :
      Own fatal pid proc (.advance granted) { proc with pc := .waiting call .lockTable }
  | sleep (granted : Bool) (call : WaitCall) (place : proc.pc = .waiting call .sleep) :
      Own fatal pid proc (.advance granted) { proc with pc := .waiting call .asleep }
  | woken (granted : Bool) (call : WaitCall) (place : proc.pc = .waiting call .woken) :
      Own fatal pid proc (.advance granted) { proc with pc := .waiting call .start }
  | wake (call : WaitCall) (place : proc.pc = .waiting call .asleep) :
      Own fatal pid proc .wake { proc with pc := .waiting call .woken }
  | collected (granted : Bool) (place : proc.pc = .linger) (collected : proc.collected = true) :
      Own fatal pid proc (.advance granted) { proc with pc := .destroy }
  | expire (place : proc.pc = .linger) (uncollected : proc.collected = false) :
      Own fatal pid proc .expire { proc with pc := .destroy }

/-- The places at which a thread takes `proc_lock` and keeps it, and what it does then. -/
inductive Locks (order : List Nat) : Pc → Pc → Prop where
  | scan (call : WaitCall) :
      Locks order (.waiting call .start) (.waiting call (.scan order false))
  | rescan (call : WaitCall) :
      Locks order (.waiting call .lockTable) (.waiting call (.rescan order false))
  | adopt (signalled : Bool) (status : UInt32) :
      Locks order (.exiting signalled status .reparent)
        (.exiting signalled status (.adopting order))

/-- The steps of the system.  The tables of signal actions are left open where they change. -/
inductive Transition (system : System) : Event → System → Prop where
  | spawn (tables : Nat → Nat → SigAction) (counter : Nat) (free : system.procLock = none) :
      Transition system .spawn
        { system.allocate (spawned system.fresh system.sighandCounter) with
          order := system.fresh :: system.order
          sighands := tables
          sighandCounter := counter }
  | send (target sig : Nat) (listed : target ∈ system.order) :
      Transition system (.send target sig)
        (system.set target
          { system.proc target with
            sigPending := (system.proc target).sigPending ||| sigmask sig })
  | own (pid : Nat) (action : Action) (proc : Proc) (tables : Nat → Nat → SigAction) (counter : Nat)
      (listed : pid ∈ system.order)
      (own : Own (system.Fatal pid) pid (system.proc pid) action proc) :
      Transition system (.act pid action)
        { system.set pid proc with sighands := tables, sighandCounter := counter }
  | fork (pid sighand : Nat) (tables : Nat → Nat → SigAction) (counter : Nat)
      (listed : pid ∈ system.order) (free : system.procLock = none)
      (place : (system.proc pid).pc = .user) :
      Transition system (.act pid .fork)
        { (system.allocate (forked pid (system.proc pid) system.fresh sighand)).set pid
            { system.proc pid with pc := .creating true system.fresh .add } with
          sighands := tables
          sighandCounter := counter }
  | clone (pid : Nat) (thread share : Bool) (sighand : Nat) (tables : Nat → Nat → SigAction)
      (counter : Nat) (listed : pid ∈ system.order) (free : system.procLock = none)
      (place : (system.proc pid).pc = .user) :
      Transition system (.act pid (.clone thread share))
        { (system.allocate (cloned thread (system.proc pid) system.fresh sighand)).set pid
            { system.proc pid with pc := .creating false system.fresh .add } with
          sighands := tables
          sighandCounter := counter }
  | enlist (pid child : Nat) (granted forks : Bool) (listed : pid ∈ system.order)
      (free : system.procLock = none)
      (place : (system.proc pid).pc = .creating forks child .add) :
      Transition system (.act pid (.advance granted))
        { system.set pid { system.proc pid with pc := .creating forks child .start } with
          order := child :: system.order }
  | begin (pid child : Nat) (granted forks : Bool) (listed : pid ∈ system.order)
      (place : (system.proc pid).pc = .creating forks child .start) :
      Transition system (.act pid (.advance granted))
        ((system.set child (System.begun (system.proc pid) (system.proc child) forks)).set pid
          { system.proc pid with pc := if forks then .forking child else .deliver })
  | failAdd (pid child : Nat) (forks : Bool) (listed : pid ∈ system.order)
      (place : (system.proc pid).pc = .creating forks child .add) :
      Transition system (.act pid .fail)
        ((system.set child { system.proc child with pc := .gone }).set pid
          { system.proc pid with pc := .deliver })
  | failStart (pid child : Nat) (forks : Bool) (listed : pid ∈ system.order)
      (free : system.procLock = none)
      (place : (system.proc pid).pc = .creating forks child .start) :
      Transition system (.act pid .fail)
        { (system.set child { system.proc child with pc := .gone }).set pid
            { system.proc pid with pc := .deliver } with
          order := system.order.erase child }
  | exitGroup (pid : Nat) (code : UInt64) (listed : pid ∈ system.order)
      (place : (system.proc pid).pc = .user) :
      Transition system (.act pid (.exitGroup code)) (system.exitGroup pid code)
  | lock (pid : Nat) (granted : Bool) (next : Pc) (listed : pid ∈ system.order)
      (free : system.procLock = none) (locks : Locks system.order (system.proc pid).pc next) :
      Transition system (.act pid (.advance granted))
        { system.set pid { system.proc pid with pc := next } with procLock := some pid }
  | pass (pid : Nat) (granted : Bool) (call : WaitCall) (again : Bool) (child : Nat)
      (rest : List Nat) (found : Bool) (listed : pid ∈ system.order)
      (place : (system.proc pid).pc =
        .waiting call (System.scanPlace again (child :: rest) found))
      (passed : system.selects pid call child = true → (system.proc child).state ≠ .zombie) :
      Transition system (.act pid (.advance granted))
        (system.set pid
          { system.proc pid with
            pc := .waiting call
              (System.scanPlace again rest (found || system.selects pid call child)) })
  | reap (pid : Nat) (granted : Bool) (call : WaitCall) (again : Bool) (child : Nat)
      (rest : List Nat) (found : Bool) (listed : pid ∈ system.order)
      (place : (system.proc pid).pc =
        .waiting call (System.scanPlace again (child :: rest) found))
      (selected : system.selects pid call child = true)
      (zombie : (system.proc child).state = .zombie) (reaped : System)
      (reaped_eq : reaped = system.set child ((system.proc child).reap pid call)) :
      Transition system (.act pid (.advance granted))
        { reaped.set pid
            ((reaped.proc pid).waited (if call.status = .unwritable then -14 else child) false) with
          procLock := none }
  | conclude (pid : Nat) (granted : Bool) (call : WaitCall) (again found : Bool)
      (listed : pid ∈ system.order)
      (place : (system.proc pid).pc = .waiting call (System.scanPlace again [] found)) :
      Transition system (.act pid (.advance granted))
        { system.set pid (System.scanEnd (system.proc pid) call again found) with
          procLock := none }
  | adopt (pid : Nat) (granted signalled : Bool) (status : UInt32) (child : Nat) (rest : List Nat)
      (listed : pid ∈ system.order)
      (place : (system.proc pid).pc = .exiting signalled status (.adopting (child :: rest)))
      (adopted : System)
      (adopted_eq : adopted = system.set child ((system.proc child).adopt pid)) :
      Transition system (.act pid (.advance granted))
        (adopted.set pid { adopted.proc pid with pc := .exiting signalled status (.adopting rest) })
  | adopted (pid : Nat) (granted signalled : Bool) (status : UInt32)
      (listed : pid ∈ system.order)
      (place : (system.proc pid).pc = .exiting signalled status (.adopting [])) :
      Transition system (.act pid (.advance granted))
        { system.set pid { system.proc pid with pc := .exiting signalled status .find } with
          procLock := none }
  | search (pid : Nat) (granted signalled : Bool) (status : UInt32) (parent : Nat)
      (listed : pid ∈ system.order) (free : system.procLock = none)
      (place : (system.proc pid).pc = .exiting signalled status (.search parent))
      (found : parent ∈ system.order) :
      Transition system (.act pid (.advance granted))
        (system.set pid { system.proc pid with pc := .exiting signalled status (.signal parent) })
  | orphan (pid : Nat) (granted signalled : Bool) (status : UInt32) (parent : Nat)
      (listed : pid ∈ system.order) (free : system.procLock = none)
      (place : (system.proc pid).pc = .exiting signalled status (.search parent))
      (missing : parent ∉ system.order) :
      Transition system (.act pid (.advance granted))
        (system.set pid ((system.proc pid).noticed signalled))
  | signal (pid : Nat) (granted signalled : Bool) (status : UInt32) (parent : Nat)
      (listed : pid ∈ system.order)
      (place : (system.proc pid).pc = .exiting signalled status (.signal parent)) (sent : System)
      (sent_eq : sent = system.set parent
        { system.proc parent with
          sigPending := (system.proc parent).sigPending ||| sigmask sigChld }) :
      Transition system (.act pid (.advance granted))
        (sent.set pid { sent.proc pid with pc := .exiting signalled status (.broadcast parent) })
  | broadcast (pid : Nat) (granted signalled : Bool) (status : UInt32) (parent : Nat)
      (listed : pid ∈ system.order)
      (place : (system.proc pid).pc = .exiting signalled status (.broadcast parent))
      (unlocked : (system.proc parent).locked = false) (woken : System)
      (woken_eq : woken = system.set parent (system.proc parent).woken) :
      Transition system (.act pid (.advance granted))
        (woken.set pid ((woken.proc pid).noticed signalled))
  | destroy (pid : Nat) (granted : Bool) (listed : pid ∈ system.order)
      (free : system.procLock = none) (place : (system.proc pid).pc = .destroy) :
      Transition system (.act pid (.advance granted))
        { system.set pid { system.proc pid with pc := .gone } with
          order := system.order.erase pid }

variable {system : System} {pid : Nat} {action : Action}

theorem Transition.listed_of_act {next : System}
    (transition : Transition system (.act pid action) next) : pid ∈ system.order := by
  cases transition <;> assumption

namespace System

variable {next : System} {granted : Bool} {proc : Proc}

theorem own_of_advance {fatal : Prop} {proc' : Proc}
    (advances : proc.advance pid granted = some proc') :
    Own fatal pid proc (.advance granted) proc' := by
  unfold Proc.advance at advances
  split at advances <;> rename_i place <;> try cases advances
  · split
    · exact .enter granted place
    · exact .unfit granted place
  · split
    · rename_i running
      exact .returned granted place running
    · rename_i halted
      exact .left granted place (by simpa using halted)
  · exact .runExit granted place
  · exact .status granted _ _ place
  · exact .zombie granted _ _ place
  · split
    · rename_i thread
      exact .releaseThread granted _ _ place thread
    · rename_i leader
      exact .release granted _ _ place (by simpa using leader)
  · exact .find granted _ _ place
  · exact .lockOwn granted _ place
  · exact .sleep granted _ place
  · exact .woken granted _ place

theorem transition_set (listed : pid ∈ system.order)
    (own : Own (system.Fatal pid) pid (system.proc pid) action proc) :
    Transition system (.act pid action) (system.set pid proc) :=
  .own pid action proc system.sighands system.sighandCounter listed own

theorem transition_sigDeliver (granted : Bool) (listed : pid ∈ system.order)
    (place : (system.proc pid).pc = .deliver) :
    Transition system (.act pid (.advance granted)) (system.sigDeliver pid granted) := by
  -- the delivery is calm unless the default action of this very signal terminates
  have calm_of {sig : Nat} (delivers : (system.proc pid).deliverable = some sig)
      (mild : system.sighands (system.proc pid).sighand sig = .dfl → ¬Terminates sig) :
      ¬system.Fatal pid := by
    rintro ⟨_, delivers', action, terminates⟩
    rw [delivers] at delivers'
    cases delivers'
    exact mild action terminates
  unfold sigDeliver
  split
  · rename_i quiet
    refine transition_set listed (.delivered granted _ (system.proc pid).sigBlocked place ?_)
    rintro ⟨_, delivers, -⟩
    rw [quiet] at delivers
    cases delivers
  rename_i sig delivers
  dsimp only
  split
  · rename_i action
    exact transition_set listed (.delivered granted _ (system.proc pid).sigBlocked place
      (calm_of delivers (by simp [action])))
  · rename_i action
    split
    · rename_i ignored
      exact transition_set listed (.delivered granted _ (system.proc pid).sigBlocked place
        (calm_of delivers (by simp [Terminates, ignored])))
    rename_i minded
    split
    · rename_i continues
      exact transition_set listed (.continued granted _ place
        (calm_of delivers (by simp [Terminates, continues])))
    rename_i goes
    split
    · rename_i stops
      exact transition_set listed (.stopped granted _ place
        (calm_of delivers (by simp [Terminates, stops])))
    · rename_i moves
      exact transition_set listed (.killed granted _ sig place
        ⟨sig, delivers, action, by simpa using minded, goes, by simpa using moves⟩)
  · rename_i action
    have calm := calm_of delivers (by simp [action])
    split
    · exact .own pid _ _ _ system.sighandCounter listed (.delivered granted _ _ place calm)
    · exact transition_set listed (.delivered granted _ (system.proc pid).sigBlocked place calm)

theorem transition_call (call : Call) (listed : pid ∈ system.order)
    (place : (system.proc pid).pc = .user) :
    Transition system (.act pid (.call call)) (system.call pid call) := by
  have other (blocked : UInt64) (pgid sid : Int) (tables : Nat → Nat → SigAction) :
      Transition system (.act pid (.call call))
        { system.set pid
            { system.proc pid with
              sigBlocked := blocked, pgid := pgid, sid := sid, pc := .deliver } with
          sighands := tables, sighandCounter := system.sighandCounter } :=
    .own pid _ _ tables system.sighandCounter listed (.other call blocked pgid sid place)
  cases call with
  | exec => exact .own pid _ _ _ (system.sighandCounter + 1) listed (.exec _ place)
  | exit code => exact transition_set listed (.exit code place)
  | wait call => exact transition_set listed (.wait call place)
  | sigaction => exact other _ _ _ _
  | sigprocmask | sigreturn | setpgid | other => exact other _ _ _ system.sighands
  | setsid =>
    unfold call
    dsimp only
    split
    · exact other _ _ _ system.sighands
    · exact other _ _ _ system.sighands

theorem transition_scanRound (granted : Bool) (call : WaitCall) (again : Bool) (rest : List Nat)
    (found : Bool) (listed : pid ∈ system.order)
    (place : (system.proc pid).pc = .waiting call (scanPlace again rest found)) :
    Transition system (.act pid (.advance granted))
      (system.scanRound pid call again rest found) := by
  cases rest with
  | nil => exact .conclude pid granted call again found listed place
  | cons child rest =>
    unfold scanRound
    dsimp only
    split
    · rename_i selected
      split
      · rename_i zombie
        exact .reap pid granted call again child rest found listed place selected zombie _ rfl
      rename_i alive
      have passed := Transition.pass pid granted call again child rest found listed place
        (fun _ => alive)
      rw [selected, Bool.or_true] at passed
      exact passed
    · rename_i skipped
      have skipped_eq : system.selects pid call child = false := by simpa using skipped
      have passed := Transition.pass pid granted call again child rest found listed place
        (fun selected => absurd selected skipped)
      rw [skipped_eq, Bool.or_false] at passed
      exact passed

section

variable (listed : pid ∈ system.order)

include listed

theorem transition_own_advance
    (advances : ((system.proc pid).advance pid granted).map (system.set pid) = some next) :
    Transition system (.act pid (.advance granted)) next := by
  obtain ⟨_, moves, rfl⟩ := Option.map_eq_some_iff.mp advances
  exact transition_set listed (own_of_advance moves)

theorem transition_wait {call : WaitCall} {place : WaitPlace}
    (waits : (system.proc pid).pc = .waiting call place)
    (advances : system.advance pid granted = some next) :
    Transition system (.act pid (.advance granted)) next := by
  unfold advance at advances
  dsimp only at advances
  rw [waits] at advances
  cases place with
  | start =>
    obtain ⟨free, ⟨⟩⟩ := Option.ite_none_right_eq_some.mp advances
    exact .lock pid granted _ listed free (waits ▸ .scan _)
  | lockTable =>
    obtain ⟨free, ⟨⟩⟩ := Option.ite_none_right_eq_some.mp advances
    exact .lock pid granted _ listed free (waits ▸ .rescan _)
  | scan =>
    cases advances
    exact transition_scanRound granted _ false _ _ listed waits
  | rescan =>
    cases advances
    exact transition_scanRound granted _ true _ _ listed waits
  | _ => exact transition_own_advance listed advances

theorem transition_exit {signalled : Bool} {status : UInt32} {place : ExitPlace}
    (exits : (system.proc pid).pc = .exiting signalled status place)
    (advances : system.advance pid granted = some next) :
    Transition system (.act pid (.advance granted)) next := by
  unfold advance at advances
  dsimp only at advances
  rw [exits] at advances
  cases place with
  | reparent =>
    obtain ⟨free, ⟨⟩⟩ := Option.ite_none_right_eq_some.mp advances
    exact .lock pid granted _ listed free (exits ▸ .adopt _ _)
  | adopting rest =>
    cases rest with
    | nil =>
      cases advances
      exact .adopted pid granted _ _ listed exits
    | cons =>
      cases advances
      exact .adopt pid granted _ _ _ _ listed exits _ rfl
  | search =>
    dsimp only at advances
    split at advances
    · rename_i free
      split at advances <;> cases advances
      · rename_i found
        exact .search pid granted _ _ _ listed free exits found
      · rename_i missing
        exact .orphan pid granted _ _ _ listed free exits missing
    · cases advances
  | signal =>
    cases advances
    exact .signal pid granted _ _ _ listed exits _ rfl
  | broadcast =>
    obtain ⟨unlocked, ⟨⟩⟩ := Option.ite_none_left_eq_some.mp advances
    exact .broadcast pid granted _ _ _ listed exits (by simpa using unlocked) _ rfl
  | _ => exact transition_own_advance listed advances

theorem transition_advance (advances : system.advance pid granted = some next) :
    Transition system (.act pid (.advance granted)) next := by
  have steps := advances
  unfold advance at advances
  dsimp only at advances
  generalize here : (system.proc pid).pc = pc at advances
  cases pc with
  | waiting => exact transition_wait listed here steps
  | exiting => exact transition_exit listed here steps
  | creating forks child place =>
    cases place with
    | add =>
      obtain ⟨free, ⟨⟩⟩ := Option.ite_none_right_eq_some.mp advances
      exact .enlist pid _ granted _ listed free here
    | start =>
      cases advances
      exact .begin pid _ granted _ listed here
  | forking =>
    dsimp only at advances
    split at advances <;> cases advances
    exact transition_set listed (.resume granted _ here)
  | deliver =>
    cases advances
    exact transition_sigDeliver granted listed here
  | linger =>
    obtain ⟨collected, ⟨⟩⟩ := Option.ite_none_right_eq_some.mp advances
    exact transition_set listed (.collected granted here collected.2)
  | destroy =>
    obtain ⟨free, ⟨⟩⟩ := Option.ite_none_right_eq_some.mp advances
    exact .destroy pid granted listed free here
  | _ => exact transition_own_advance listed advances

theorem transition_act (acts : system.act pid action = some next) :
    Transition system (.act pid action) next := by
  cases action with
  | fork =>
    obtain ⟨ready, ⟨⟩⟩ := Option.ite_none_right_eq_some.mp acts
    exact .fork pid _ _ _ listed ready.2 ready.1
  | clone thread shareSighand =>
    simp only [act] at acts
    split at acts
    · rename_i ready
      split at acts <;> cases acts
      · exact .clone pid thread shareSighand _ system.sighands system.sighandCounter listed
          ready.2 ready.1
      · exact .clone pid thread shareSighand _ _ _ listed ready.2 ready.1
    · cases acts
  | exitGroup code =>
    obtain ⟨ready, ⟨⟩⟩ := Option.ite_none_right_eq_some.mp acts
    exact .exitGroup pid code listed ready.1
  | call call =>
    obtain ⟨place, ⟨⟩⟩ := Option.ite_none_right_eq_some.mp acts
    exact transition_call call listed place
  | fault =>
    obtain ⟨place, ⟨⟩⟩ := Option.ite_none_right_eq_some.mp acts
    exact transition_set listed (.fault place)
  | advance => exact transition_advance listed acts
  | fail =>
    simp only [act] at acts
    split at acts
    · rename_i place
      cases acts
      exact .failAdd pid _ _ listed place
    · rename_i place
      split at acts <;> cases acts
      rename_i free
      exact .failStart pid _ _ listed free place
    · cases acts
  | expire =>
    obtain ⟨ready, ⟨⟩⟩ := Option.ite_none_right_eq_some.mp acts
    exact transition_set listed (.expire ready.1 ready.2.2)
  | wake =>
    simp only [act] at acts
    split at acts <;> cases acts
    rename_i place
    exact transition_set listed (.wake _ place)

end

theorem transition_of_step {event : Event} (steps : system.step event = some next) :
    Transition system event next := by
  cases event with
  | spawn =>
    simp only [step] at steps
    split at steps <;> cases steps
    rename_i free
    exact .spawn _ _ free
  | send target sig =>
    simp only [step] at steps
    split at steps <;> cases steps
    rename_i ready
    exact .send target sig ready.1
  | act =>
    simp only [step] at steps
    split at steps
    · rename_i listed
      exact transition_act listed steps
    · cases steps

end System

end AlpineOnIOS.Process
