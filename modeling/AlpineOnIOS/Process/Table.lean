import AlpineOnIOS.Foundation.Runs

/-!
# The process table and its threads

The threads share `proc_list` under `proc_lock`, but a thread sets its own state outside of that
lock. A step is what one thread does between two points at which others can see it. The history of
an entry is not kept by the program.
-/

namespace AlpineOnIOS.Process

open Foundation

/-- `PROC_RUNNING`, `PROC_STOPPED`, `PROC_ZOMBIE` and `PROC_DEAD`. -/
inductive ProcState where
  | running
  | stopped
  | zombie
  | dead
  deriving DecidableEq

/-- `struct emu_sigaction` without the addresses. -/
inductive SigAction where
  | dfl
  | ign
  | handler (mask : UInt64) (noDefer resetHand : Bool)
  deriving DecidableEq

/-- The status pointer of `wait4`: zero, or an address that can or cannot be written to. -/
inductive StatusPointer where
  | null
  | writable
  | unwritable
  deriving DecidableEq

/-- The arguments of `wait4`. -/
structure WaitCall where
  pid : Int
  noHang : Bool
  status : StatusPointer
  deriving DecidableEq

/-- Where a thread is in `proc_wait`: the scans have entries before them. -/
inductive WaitPlace where
  | start
  | scan (rest : List Nat) (found : Bool)
  | lockOwn
  | lockTable
  | rescan (rest : List Nat) (found : Bool)
  | sleep
  | asleep
  | woken
  deriving DecidableEq

/-- Where a thread is in `proc_exit`.  The loop over the children has the entries before it. -/
inductive ExitPlace where
  | status
  | zombie
  | release
  | reparent
  | adopting (rest : List Nat)
  | find
  | search (parent : Nat)
  | signal (parent : Nat)
  | broadcast (parent : Nat)
  deriving DecidableEq

/-- Where a thread is in the creation of another. -/
inductive CreatePlace where
  | add
  | start
  deriving DecidableEq

/-- Where a thread is: before its start, in guest code, in a call, in the trap, or behind it. -/
inductive Pc where
  | unborn
  | enter
  | user
  | creating (forks : Bool) (child : Nat) (place : CreatePlace)
  | forking (child : Nat)
  | waiting (call : WaitCall) (place : WaitPlace)
  | deliver
  | exiting (signalled : Bool) (status : UInt32) (place : ExitPlace)
  | leave
  | runExit
  | linger
  | destroy
  | gone
  deriving DecidableEq

/-- A status that a call of `wait4` has returned: the caller, and the entry's parent and status. -/
structure Report where
  caller : Nat
  parent : Nat
  status : UInt32
  deriving DecidableEq

/-- What has happened to an entry. -/
structure History where
  /-- The status of a call of `exit` or `exit_group`. -/
  exitCall : Option UInt32 := none
  /-- The signals whose default action has terminated it. -/
  kills : List Nat := []
  /-- How often it has become a zombie. -/
  deaths : Nat := 0
  /-- How often it has gone through the notification of a parent. -/
  notices : Nat := 0
  /-- The calls that have returned its status. -/
  reports : List Report := []
  /-- It was reaped by a call that could not write the status. -/
  faulted : Bool := false
  /-- The exiting parent that has collected it. -/
  discarded : Option Nat := none
  /-- The results of its own calls of `wait4`. -/
  results : List Int := []
  /-- How often one of these calls has written a status word without a child. -/
  strayWords : Nat := 0
  /-- The process that has created it, or has inherited it. -/
  guardian : Nat := 0

/-- The fields of `emu_process_t`; `sighand` is the number of a table that threads can share. -/
structure Proc where
  ppid : Nat
  tgid : Nat
  pgid : Int
  sid : Int
  state : ProcState
  exitStatus : UInt32
  collected : Bool
  running : Bool
  exitCode : UInt32
  vforkDone : Bool
  sigPending : UInt64
  sigBlocked : UInt64
  sighand : Nat
  pc : Pc
  history : History

variable (sig : Nat)

def sigmask : UInt64 := 1 <<< UInt64.ofNat (sig - 1)

def sigKill : Nat := 9

def sigChld : Nat := 17

def sigCont : Nat := 18

def sigStop : Nat := 19

def uncatchable : UInt64 := sigmask sigKill ||| sigmask sigStop

/-- `sig_default_ignore`, for `SIGCHLD`, `SIGURG` and `SIGWINCH`. -/
def sigDefaultIgnore : Bool := sig = sigChld || sig = 23 || sig = 28

/-- `sig_default_stop`, for `SIGSTOP`, `SIGTSTP`, `SIGTTIN` and `SIGTTOU`. -/
def sigDefaultStop : Bool := sig = sigStop || sig = 20 || sig = 21 || sig = 22

def exitWord (code : UInt64) : UInt32 := (code.toUInt32 &&& 0xff) <<< 8

namespace Proc

variable (proc : Proc)

/-- The first signal that is pending and not blocked. -/
def deliverable : Option Nat :=
  (List.range' 1 63).find? fun sig => proc.sigPending &&& ~~~proc.sigBlocked &&& sigmask sig ≠ 0

def doExit (code : UInt64) : Proc :=
  { proc with
    exitCode := exitWord code
    running := false
    pc := .deliver
    history := { proc.history with exitCall := some (exitWord code) } }

/-- Where `proc_exit` returns to. -/
def afterExit (signalled : Bool) : Pc := if signalled then .leave else .linger

/-- The end of `proc_exit` for the main thread. -/
def noticed (signalled : Bool) : Proc :=
  { proc with
    pc := afterExit signalled
    history := { proc.history with notices := proc.history.notices + 1 } }

/-- The entry of a child that a parent has waited for. -/
def reap (caller : Nat) (call : WaitCall) : Proc :=
  { proc with
    state := .dead
    collected := true
    history :=
      if call.status = .unwritable then { proc.history with faulted := true }
      else
        { proc.history with
          reports := ⟨caller, proc.ppid, proc.exitStatus⟩ :: proc.history.reports } }

/-- The entry of a child in the loop of an exiting parent. -/
def adopt (parent : Nat) : Proc :=
  let guardian := if proc.history.guardian = parent then 1 else proc.history.guardian
  if proc.ppid ≠ parent then { proc with history := { proc.history with guardian := guardian } }
  else if proc.state = .zombie then
    { proc with
      ppid := 1
      state := .dead
      collected := true
      history := { proc.history with discarded := some parent, guardian := guardian } }
  else { proc with ppid := 1, history := { proc.history with guardian := guardian } }

/-- The entry of a process when its condition variable is signalled. -/
def woken : Proc :=
  match proc.pc with
  | .waiting call .asleep => { proc with pc := .waiting call .woken }
  | _ => proc

/-- The return of `wait4`, with a status word that was never set if `stray`. -/
def waited (result : Int) (stray : Bool) : Proc :=
  { proc with
    pc := .deliver
    history :=
      { proc.history with
        results := result :: proc.history.results
        strayWords := if stray then proc.history.strayWords + 1 else proc.history.strayWords } }

/-- The own lock is held between the two locks of `proc_wait` and the sleep. -/
def locked : Bool :=
  match proc.pc with
  | .waiting _ .lockTable | .waiting _ (.rescan _ _) | .waiting _ .sleep => true
  | _ => false

/-- A step that needs nothing but the own entry.  `granted` says whether the code is mapped. -/
def advance (pid : Nat) (granted : Bool) : Option Proc :=
  match proc.pc with
  | .enter => some { proc with pc := if granted then .user else .exiting false 1 .status }
  | .leave => some { proc with pc := if proc.running then .user else .runExit }
  | .runExit => some { proc with pc := .exiting false proc.exitCode .status }
  | .exiting signalled status .status =>
    some { proc with exitStatus := status, pc := .exiting signalled status .zombie }
  | .exiting signalled status .zombie =>
    some { proc with
      state := .zombie
      running := false
      pc := .exiting signalled status .release
      history := { proc.history with deaths := proc.history.deaths + 1 } }
  | .exiting signalled status .release =>
    -- `is_thread`: only the main thread reparents children and signals a parent
    some { proc with
      vforkDone := true
      pc := if proc.tgid ≠ pid then afterExit signalled else .exiting signalled status .reparent }
  | .exiting signalled status .find =>
    some { proc with pc := .exiting signalled status (.search proc.ppid) }
  | .waiting call .lockOwn => some { proc with pc := .waiting call .lockTable }
  | .waiting call .sleep => some { proc with pc := .waiting call .asleep }
  | .waiting call .woken => some { proc with pc := .waiting call .start }
  | _ => none

end Proc

/-- An entry that is not in use. -/
def blank : Proc :=
  { ppid := 0, tgid := 0, pgid := 0, sid := 0, state := .dead, exitStatus := 0, collected := true,
    running := false, exitCode := 0, vforkDone := false, sigPending := 0, sigBlocked := 0,
    sighand := 0, pc := .gone, history := {} }

/-- The entry of a new session, after `proc_create` and `proc_execve`. -/
def spawned (pid sighand : Nat) : Proc :=
  { blank with
    tgid := pid, pgid := pid, sid := pid, state := .running, collected := false, running := true
    vforkDone := true, sighand := sighand, pc := .enter }

/-- The entry that `proc_create` makes for a fork of `caller`. -/
def forked (caller : Nat) (parent : Proc) (pid sighand : Nat) : Proc :=
  { blank with
    ppid := caller, tgid := pid, pgid := parent.pgid, sid := parent.sid, state := .running
    collected := false, sigBlocked := parent.sigBlocked, sighand := sighand, pc := .unborn
    history := { guardian := parent.tgid } }

/-- The entry that `do_clone` makes with `CLONE_VM`.  Its parent is the parent of the caller. -/
def cloned (thread : Bool) (parent : Proc) (pid sighand : Nat) : Proc :=
  { blank with
    ppid := parent.ppid, tgid := if thread then parent.tgid else pid, pgid := parent.pgid
    sid := parent.sid, state := .running, collected := false, running := true
    exitCode := parent.exitCode, sigBlocked := parent.sigBlocked, sighand := sighand, pc := .unborn
    history := { guardian := parent.tgid } }

/-- The list, the entries by number, the counter, the lock, and the tables of signal actions. -/
structure System where
  order : List Nat
  proc : Nat → Proc
  pidCounter : Nat
  procLock : Option Nat
  sighands : Nat → Nat → SigAction
  sighandCounter : Nat

/-- A system call that touches nothing but the entry and the signal actions of its caller. -/
inductive Call where
  /-- An `execve` that succeeds. -/
  | exec
  | exit (code : UInt64)
  | wait (call : WaitCall)
  | sigaction (sig : Nat) (action : SigAction)
  | sigprocmask (mask : UInt64)
  | sigreturn (mask : UInt64)
  | setpgid (target group : Int)
  | setsid
  | other

/-- What a thread does. -/
inductive Action where
  | fork
  | clone (thread shareSighand : Bool)
  | exitGroup (code : UInt64)
  | call (call : Call)
  /-- An unexpected `brk` instruction. -/
  | fault
  /-- The next step of what it is doing. -/
  | advance (granted : Bool)
  /-- A creation that fails. -/
  | fail
  /-- The two seconds of `proc_run_exit` are over. -/
  | expire
  /-- The condition variable of `proc_wait` returns without a signal. -/
  | wake

/-- What happens next: a new session, a signal, or a step of a thread. -/
inductive Event where
  | spawn
  | send (target sig : Nat)
  | act (pid : Nat) (action : Action)

namespace System

/-- The table before the first session. -/
def start : System :=
  { order := [], proc := fun _ => blank, pidCounter := 0, procLock := none
    sighands := fun _ _ => .dfl, sighandCounter := 0 }

variable (system : System) (pid : Nat) (proc : Proc)

/-- Change one entry. -/
def set : System :=
  { system with proc := Function.update system.proc pid proc }

@[simp] theorem set_order : (system.set pid proc).order = system.order := rfl

@[simp] theorem set_pidCounter : (system.set pid proc).pidCounter = system.pidCounter := rfl

@[simp] theorem set_proc (other : Nat) :
    (system.set pid proc).proc other = if other = pid then proc else system.proc other :=
  Function.update_apply system.proc pid proc other

/-- The next process number. -/
def fresh : Nat := system.pidCounter + 1

/-- `sighand_create`, with the contents that it is given. -/
def newSighand (actions : Nat → SigAction) : System :=
  { system with
    sighands := Function.update system.sighands system.sighandCounter actions
    sighandCounter := system.sighandCounter + 1 }

/-- A new entry under the next process number. -/
def allocate : System :=
  { system.set system.fresh proc with pidCounter := system.fresh }

@[simp] theorem allocate_proc (other : Nat) :
    (system.allocate proc).proc other = if other = system.fresh then proc else system.proc other :=
  set_proc system system.fresh proc other

/-- `sig_deliver`, in the trap handler.  `granted` says whether the frame of a handler fits. -/
def sigDeliver (granted : Bool) : System :=
  match (system.proc pid).deliverable with
  | none => system.set pid { system.proc pid with pc := .leave }
  | some sig =>
    let proc :=
      { system.proc pid with
        sigPending := (system.proc pid).sigPending &&& ~~~sigmask sig
        pc := .leave }
    match system.sighands proc.sighand sig with
    | .ign => system.set pid proc
    | .dfl =>
      if sigDefaultIgnore sig then system.set pid proc
      else if sig = sigCont then system.set pid { proc with state := .running }
      else if sigDefaultStop sig then system.set pid { proc with state := .stopped }
      else
        system.set pid
          { proc with
            pc := .exiting true (.ofNat sig &&& 0x7f) .status
            history := { proc.history with kills := sig :: proc.history.kills } }
    | .handler mask noDefer resetHand =>
      if granted then
        { system.set pid
            { proc with
              sigBlocked :=
                (proc.sigBlocked ||| mask ||| if noDefer then 0 else sigmask sig) &&&
                  ~~~uncatchable } with
          sighands :=
            if resetHand then
              Function.update system.sighands proc.sighand
                (Function.update (system.sighands proc.sighand) sig .dfl)
            else system.sighands }
      else system.set pid proc

/-- A call of a thread, which is followed by the delivery of signals. -/
def call : Call → System
  | .exec =>
    let proc := system.proc pid
    let actions sig :=
      if system.sighands proc.sighand sig = .ign then SigAction.ign else .dfl
    (system.newSighand actions).set pid
      { proc with
        running := true
        exitCode := 0
        vforkDone := true
        sighand := system.sighandCounter
        pc := .deliver }
  | .exit code => system.set pid ((system.proc pid).doExit code)
  | .wait call => system.set pid { system.proc pid with pc := .waiting call .start }
  | .sigaction sig action =>
    let proc := system.proc pid
    { system.set pid { proc with pc := .deliver } with
      sighands :=
        if 1 ≤ sig ∧ sig < 64 ∧ sig ≠ sigKill ∧ sig ≠ sigStop then
          Function.update system.sighands proc.sighand
            (Function.update (system.sighands proc.sighand) sig action)
        else system.sighands }
  | .sigprocmask mask =>
    system.set pid { system.proc pid with sigBlocked := mask &&& ~~~uncatchable, pc := .deliver }
  | .sigreturn mask => system.set pid { system.proc pid with sigBlocked := mask, pc := .deliver }
  | .setpgid target group =>
    let pgid : Int :=
      if target = 0 ∨ target = pid then if group = 0 then pid else group
      else (system.proc pid).pgid
    system.set pid { system.proc pid with pgid := pgid, pc := .deliver }
  | .setsid =>
    let proc := system.proc pid
    if proc.sid = pid then system.set pid { proc with pc := .deliver }
    else system.set pid { proc with sid := pid, pgid := pid, pc := .deliver }
  | .other => system.set pid { system.proc pid with pc := .deliver }

/-- The test of `proc_wait` for a child. -/
def selects (caller : Nat) (call : WaitCall) (child : Nat) : Bool :=
  (system.proc child).ppid = caller && (call.pid ≤ 0 || call.pid = child)

/-- The first loop of `proc_wait` or the one under the own lock. -/
def scanPlace (again : Bool) (rest : List Nat) (found : Bool) : WaitPlace :=
  if again then .rescan rest found else .scan rest found

/-- The end of a loop of `proc_wait` without a zombie; `do_wait4` writes `status` in any case. -/
def scanEnd (call : WaitCall) (again found : Bool) : Proc :=
  if found = false then proc.waited (-10) false
  else if again then { proc with pc := .waiting call .sleep }
  else if call.noHang then
    match call.status with
    | .null => proc.waited 0 false
    | .writable => proc.waited 0 true
    | .unwritable => proc.waited (-14) false
  else { proc with pc := .waiting call .lockOwn }

/-- One round of a loop of `proc_wait`, or its end. -/
def scanRound (call : WaitCall) (again : Bool) (rest : List Nat)
    (found : Bool) : System :=
  match rest with
  | [] =>
    { system.set pid (scanEnd (system.proc pid) call again found) with procLock := none }
  | child :: rest =>
    if system.selects pid call child then
      if (system.proc child).state = .zombie then
        let reaped := system.set child ((system.proc child).reap pid call)
        let result : Int := if call.status = .unwritable then -14 else child
        { reaped.set pid ((reaped.proc pid).waited result false) with procLock := none }
      else system.set pid { system.proc pid with pc := .waiting call (scanPlace again rest true) }
    else system.set pid { system.proc pid with pc := .waiting call (scanPlace again rest found) }

/-- `proc_exit_group` and `do_exit`. -/
def exitGroup (code : UInt64) : System :=
  { system with
    proc := fun other =>
      if other = pid then (system.proc pid).doExit code
      else if other ∈ system.order ∧ (system.proc other).tgid = (system.proc pid).tgid then
        { system.proc other with running := false }
      else system.proc other }

/-- The thread of a new entry.  After a fork it has the CPU state of its parent. -/
def begun (parent child : Proc) (forks : Bool) : Proc :=
  if forks then
    { child with exitCode := parent.exitCode, running := true, vforkDone := false, pc := .enter }
  else { child with pc := .enter }

/-- The next step of a thread. -/
def advance (granted : Bool) : Option System :=
  let proc := system.proc pid
  match proc.pc with
  | .creating forks child .add =>
    if system.procLock = none then
      some { system.set pid { proc with pc := .creating forks child .start } with
        order := child :: system.order }
    else none
  | .creating forks child .start =>
    some ((system.set child (begun proc (system.proc child) forks)).set pid
      { proc with pc := if forks then .forking child else .deliver })
  | .forking child =>
    if (system.proc child).vforkDone then some (system.set pid { proc with pc := .deliver })
    else none
  | .deliver => some (system.sigDeliver pid granted)
  | .waiting call .start =>
    if system.procLock = none then
      some { system.set pid { proc with pc := .waiting call (.scan system.order false) } with
        procLock := some pid }
    else none
  | .waiting call .lockTable =>
    if system.procLock = none then
      some { system.set pid { proc with pc := .waiting call (.rescan system.order false) } with
        procLock := some pid }
    else none
  | .waiting call (.scan rest found) => some (system.scanRound pid call false rest found)
  | .waiting call (.rescan rest found) => some (system.scanRound pid call true rest found)
  | .exiting signalled status .reparent =>
    if system.procLock = none then
      some { system.set pid { proc with pc := .exiting signalled status (.adopting system.order) }
        with procLock := some pid }
    else none
  | .exiting signalled status (.adopting (child :: rest)) =>
    let adopted := system.set child ((system.proc child).adopt pid)
    some (adopted.set pid
      { adopted.proc pid with pc := .exiting signalled status (.adopting rest) })
  | .exiting signalled status (.adopting []) =>
    some { system.set pid { proc with pc := .exiting signalled status .find } with
      procLock := none }
  | .exiting signalled status (.search parent) =>
    if system.procLock = none then
      if parent ∈ system.order then
        some (system.set pid { proc with pc := .exiting signalled status (.signal parent) })
      else some (system.set pid (proc.noticed signalled))
    else none
  | .exiting signalled status (.signal parent) =>
    let sent :=
      system.set parent
        { system.proc parent with
          sigPending := (system.proc parent).sigPending ||| sigmask sigChld }
    some (sent.set pid
      { sent.proc pid with pc := .exiting signalled status (.broadcast parent) })
  | .exiting signalled _ (.broadcast parent) =>
    if (system.proc parent).locked then none
    else
      let woken := system.set parent (system.proc parent).woken
      some (woken.set pid ((woken.proc pid).noticed signalled))
  | .linger =>
    if system.procLock = none ∧ proc.collected then
      some (system.set pid { proc with pc := .destroy })
    else none
  | .destroy =>
    if system.procLock = none then
      some { system.set pid { proc with pc := .gone } with order := system.order.erase pid }
    else none
  | _ => (proc.advance pid granted).map (system.set pid)

/-- What a thread of the table does. -/
def act : Action → Option System
  | .fork =>
    if (system.proc pid).pc = .user ∧ system.procLock = none then
      let proc := system.proc pid
      some (((system.allocate (forked pid proc system.fresh system.sighandCounter)).newSighand
        (system.sighands proc.sighand)).set pid
          { proc with pc := .creating true system.fresh .add })
    else none
  | .clone thread shareSighand =>
    if (system.proc pid).pc = .user ∧ system.procLock = none then
      let proc := system.proc pid
      let own := { proc with pc := Pc.creating false system.fresh .add }
      if shareSighand ∨ thread then
        some ((system.allocate (cloned thread proc system.fresh proc.sighand)).set pid own)
      else
        some (((system.allocate
          (cloned thread proc system.fresh system.sighandCounter)).newSighand
            (system.sighands proc.sighand)).set pid own)
    else none
  | .exitGroup code =>
    if (system.proc pid).pc = .user ∧ system.procLock = none then
      some (system.exitGroup pid code)
    else none
  | .call call => if (system.proc pid).pc = .user then some (system.call pid call) else none
  | .fault =>
    if (system.proc pid).pc = .user then
      some (system.set pid { system.proc pid with running := false, pc := .runExit })
    else none
  | .advance granted => system.advance pid granted
  | .fail =>
    match (system.proc pid).pc with
    | .creating _ child .add =>
      some ((system.set child { system.proc child with pc := .gone }).set pid
        { system.proc pid with pc := .deliver })
    | .creating _ child .start =>
      if system.procLock = none then
        some { (system.set child { system.proc child with pc := .gone }).set pid
            { system.proc pid with pc := .deliver } with
          order := system.order.erase child }
      else none
    | _ => none
  | .expire =>
    if (system.proc pid).pc = .linger ∧ system.procLock = none ∧
        (system.proc pid).collected = false then
      some (system.set pid { system.proc pid with pc := .destroy })
    else none
  | .wake =>
    match (system.proc pid).pc with
    | .waiting call .asleep =>
      some (system.set pid { system.proc pid with pc := .waiting call .woken })
    | _ => none

def step : Event → Option System
  | .spawn =>
    if system.procLock = none then
      some { (system.allocate (spawned system.fresh system.sighandCounter)).newSighand
          (fun _ => .dfl) with
        order := system.fresh :: system.order }
    else none
  | .send target sig =>
    if target ∈ system.order ∧ 1 ≤ sig ∧ sig < 64 then
      some (system.set target
        { system.proc target with
          sigPending := (system.proc target).sigPending ||| sigmask sig })
    else none
  | .act pid action => if pid ∈ system.order then system.act pid action else none

end System

end AlpineOnIOS.Process
