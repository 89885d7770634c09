import AlpineOnIOS.AddressSpace.Access
import AlpineOnIOS.Native.Trap

/-!
# Sending and delivering signals

`sig_deliver` takes the lowest signal that is pending and not blocked, clears it, and then acts on
it. To enter a handler it saves the registers and the mask in a frame on the guest stack, from
which `rt_sigreturn` takes them back. `do_kill` signals one process by its number.
-/

namespace AlpineOnIOS.Signal

open Foundation AddressSpace List

def nsig : Nat := 64

def sigmask (sig : Nat) : UInt64 := 1 <<< UInt64.ofNat (sig - 1)

def sigkill : Nat := 9

def sigstop : Nat := 19

def uncatchable : UInt64 := sigmask sigkill ||| sigmask sigstop

def saRestorer : UInt64 := 0x04000000

def saOnstack : UInt64 := 0x08000000

def saNodefer : UInt64 := 0x40000000

def saResethand : UInt64 := 0x80000000

/-- `struct emu_sigaction`, with zero for `EMU_SIG_DFL` and one for `EMU_SIG_IGN` as handlers. -/
structure Sigaction where
  handler : UInt64
  flags : UInt64
  restorer : UInt64
  mask : UInt64

/-- What signals need of a process beside its general registers. -/
structure World where
  v : Fin 32 → BitVec 128
  fpcr : UInt32
  fpsr : UInt32
  blocked : UInt64
  pending : UInt64
  actions : Nat → Sigaction
  space : Space
  host : HostMemory
  altstack : UInt64
  altstackSize : UInt64
  stopped : Bool
  exited : Option Nat

abbrev Proc := Native.Process World

variable (proc : Proc)

/-- `sig_procmask` with a set, where `how` is one of the three known values. -/
def sigProcmask (how : Fin 3) (set : UInt64) : Proc :=
  let blocked :=
    match how with
    | 0 => proc.world.blocked ||| set
    | 1 => proc.world.blocked &&& ~~~set
    | 2 => set
  { proc with world := { proc.world with blocked := blocked &&& ~~~uncatchable } }

/-- `sig_send`, which refuses other numbers. -/
def sigSend (sig : Nat) : Proc :=
  if 1 ≤ sig ∧ sig < nsig then
    { proc with world.pending := proc.world.pending ||| sigmask sig }
  else proc

def sigPending : UInt64 := proc.world.pending &&& ~~~proc.world.blocked

/-- The lowest signal in a word. -/
def lowest (word : UInt64) : Option Nat :=
  ((List.range (nsig - 1)).map (· + 1)).find? fun sig => word &&& sigmask sig ≠ 0

def sigDefaultIgnore (sig : Nat) : Bool := sig = 17 || sig = 23 || sig = 28

def sigDefaultStop (sig : Nat) : Bool := sig = sigstop || sig = 20 || sig = 21 || sig = 22

/-- A field of the frame: where it lies, and how it is taken from a process and put back. -/
structure Field where
  offset : Nat
  size : Nat
  get : Proc → Nat
  set : Nat → Proc → Proc

def frameFields : List Field :=
  (List.finRange 31).map (fun i =>
    ⟨8 * i, 8, fun proc => (proc.cpu.x i).toNat, fun value proc =>
      { proc with cpu.x := Function.update proc.cpu.x i (.ofNat value) }⟩) ++
  [⟨248, 8, fun proc => proc.cpu.sp.toNat, fun value proc => { proc with cpu.sp := .ofNat value }⟩,
    ⟨256, 8, fun proc => proc.cpu.pc.toNat, fun value proc => { proc with cpu.pc := .ofNat value }⟩,
    ⟨264, 4, fun proc => proc.cpu.nzcv.toNat, fun value proc =>
      { proc with cpu.nzcv := .ofNat value }⟩,
    ⟨268, 8, fun proc => proc.world.blocked.toNat, fun value proc =>
      { proc with world.blocked := .ofNat value }⟩] ++
  (List.finRange 32).map (fun i =>
    ⟨280 + 16 * i, 16, fun proc => (proc.world.v i).toNat, fun value proc =>
      { proc with world.v := Function.update proc.world.v i (.ofNat 128 value) }⟩) ++
  [⟨792, 4, fun proc => proc.world.fpcr.toNat, fun value proc =>
      { proc with world.fpcr := .ofNat value }⟩,
    ⟨796, 4, fun proc => proc.world.fpsr.toNat, fun value proc =>
      { proc with world.fpsr := .ofNat value }⟩]

def sigframeSize : Nat := 800

def frameAddr (sp : UInt64) : UInt64 := alignDown (sp - 800) 16

/-- The store of a field, whose result nobody looks at. -/
def saveField (frame : UInt64) (host : HostMemory) (field : Field) : HostMemory :=
  (copyBytes proc.world.space host (frame + .ofNat field.offset)
    (leBytes field.size (field.get proc))).getD host

/-- The loads of `do_rt_sigreturn`, which stop at the first failure with what was restored. -/
def restoreFields (frame : UInt64) : List Field → Proc → Bool × Proc
  | [], proc => (true, proc)
  | field :: rest, proc =>
    match memReadBytes proc.world.space proc.world.host (frame + .ofNat field.offset)
        (.ofNat field.size) with
    | none => (false, proc)
    | some bytes => restoreFields frame rest (field.set (leNat bytes) proc)

def reg (n : Nat) : UInt64 := if inside : n < 31 then proc.cpu.x ⟨n, inside⟩ else 0

def setX0 (value : UInt64) : Proc :=
  { proc with cpu.x := fun index => if index.val = 0 then value else proc.cpu.x index }

def doRtSigreturn : UInt64 × Proc :=
  let (completed, proc) := restoreFields proc.cpu.sp frameFields proc
  (if completed then reg proc 0 else -14, proc)

/-- `sys_handle` for `SYS_RT_SIGRETURN`. -/
def sysRtSigreturn : Proc :=
  let (ret, proc) := doRtSigreturn proc
  setX0 proc ret

/-- What `sig_deliver` does with a signal that it has cleared. -/
inductive Deed where
  | ignored
  | continued
  | stopped
  | killed
  | entered
  | skipped
  deriving DecidableEq

/-- The registers at the start of a handler, and the mask during it. -/
def enterHandler (sig : Nat) (sa : Sigaction) : Proc :=
  let frame := frameAddr proc.cpu.sp
  let host := frameFields.foldl (saveField proc frame) proc.world.host
  let link := if sa.flags &&& saRestorer ≠ 0 then sa.restorer else 0
  let masked := proc.world.blocked ||| sa.mask
  let masked := if sa.flags &&& saNodefer = 0 then masked ||| sigmask sig else masked
  let actions := fun other =>
    if sa.flags &&& saResethand ≠ 0 ∧ other = sig then
      { proc.world.actions sig with handler := 0 }
    else proc.world.actions other
  { cpu :=
      { proc.cpu with
        sp := frame
        pc := sa.handler
        x := fun index =>
          if index.val = 0 then .ofNat sig else if index.val = 30 then link else proc.cpu.x index }
    world := { proc.world with host, blocked := masked &&& ~~~uncatchable, actions } }

/-- The end of `sig_deliver`, with its copy of the action. -/
def act (sig : Nat) (sa : Sigaction) : Deed × Proc :=
  if sa.handler = 1 then (.ignored, proc)
  else if sa.handler = 0 then
    if sigDefaultIgnore sig then (.ignored, proc)
    else if sig = 18 then (.continued, { proc with world.stopped := false })
    else if sigDefaultStop sig then (.stopped, { proc with world.stopped := true })
    else (.killed, { cpu := { proc.cpu with running := false },
                     world := { proc.world with exited := some (sig % 128) } })
  else if memTranslate proc.world.space (frameAddr proc.cpu.sp) 800 memProtWrite = none then
    (.skipped, proc)
  else (.entered, enterHandler proc sig sa)

/-- The pending word without a signal. -/
def clearSignal (sig : Nat) : Proc :=
  { proc with world.pending := proc.world.pending &&& ~~~sigmask sig }

/-- `sig_deliver` with what it does, if anything. -/
def deliver : Option (Nat × Deed) × Proc :=
  match lowest (sigPending proc) with
  | none => (none, proc)
  | some sig =>
    let (deed, proc) := act (clearSignal proc sig) sig (proc.world.actions sig)
    (some (sig, deed), proc)

def sigDeliver : Proc := (deliver proc).2

/-- What the calls look at in an entry of the process table. -/
structure Entry where
  pid : Int
  pgid : Int
  tgid : Int
  pending : UInt64
  deriving DecidableEq

def Entry.send (entry : Entry) (sig : Nat) : Entry :=
  { entry with pending := entry.pending ||| sigmask sig }

/-- Send a signal to some entries. -/
def sendTo (table : List Entry) (sig : Nat) (target : Entry → Bool) : List Entry :=
  table.map fun entry => if target entry then entry.send sig else entry

/-- `sig_send` with its result, to the entry with a number. -/
def sendPid (table : List Entry) (pid : Int) (sig : Nat) : Int × List Entry :=
  if sig < 1 ∨ nsig ≤ sig then (-22, table) else (0, sendTo table sig fun entry => entry.pid = pid)

def procFind (table : List Entry) (pid : Int) : Option Entry := table.find? fun entry => entry.pid = pid

def doKill (table : List Entry) (caller : Entry) (pid : Int) (sig : Nat) : Int × List Entry :=
  if sig = 0 then
    if 0 < pid ∧ procFind table pid = none then (-3, table) else (0, table)
  else if 0 < pid then
    match procFind table pid with
    | none => (-3, table)
    | some target => sendPid table target.pid sig
  else sendPid table caller.pid sig

def doTkill (table : List Entry) (tid : Int) (sig : Nat) : Int × List Entry :=
  match procFind table tid with
  | none => (-3, table)
  | some target => sendPid table target.pid sig

def doTgkill (table : List Entry) (_tgid tid : Int) (sig : Nat) : Int × List Entry :=
  doTkill table tid sig

/-- The processes that `kill` designates. -/
def designated (caller : Entry) (pid : Int) (entry : Entry) : Bool :=
  if 0 < pid then entry.pid = pid
  else if pid = 0 then entry.pgid = caller.pgid
  else if pid = -1 then entry.pid ≠ caller.pid ∧ entry.pid ≠ 1
  else entry.pgid = -pid

/-- A signal for some processes, or only the question whether there are any. -/
def signalled (table : List Entry) (target : Entry → Bool) (sig : Nat) : Int × List Entry :=
  (if table.any target then 0 else -3, if sig = 0 then table else sendTo table sig target)

variable {table : List Entry} {caller : Entry} {sig : Nat}

theorem sendTo_eq_iff {first second : Entry → Bool} :
    sendTo table sig first = sendTo table sig second ↔
      ∀ entry ∈ table, (first entry = second entry) ∨ entry.pending ||| sigmask sig = entry.pending := by
  rw [sendTo, sendTo, map_inj_left]
  refine forall₂_congr fun entry _ => ?_
  have same : entry.send sig = entry ↔ entry.pending ||| sigmask sig = entry.pending :=
    ⟨fun sent => congrArg Entry.pending sent, fun kept => by rw [Entry.send, kept]⟩
  cases first entry <;> cases second entry <;> simp [same, eq_comm (a := entry)]

variable {target : Entry → Bool}

theorem sendTo_of_any_eq_false (none : table.any target = false) :
    sendTo table sig target = table := by
  rw [any_eq_false] at none
  exact (map_congr_left fun entry member => if_neg (none entry member)).trans (map_id table)

variable {pid : Int}

/-- Sending to one process does what it should exactly if the others need not be sent to. -/
theorem sendPid_eq_signalled_iff :
    sendPid table pid sig = signalled table target sig ↔
      (1 ≤ sig ∧ sig < nsig) ∧ table.any target = true ∧ ∀ entry ∈ table,
        decide (entry.pid = pid) = target entry ∨ entry.pending ||| sigmask sig = entry.pending := by
  rw [sendPid, signalled]
  by_cases valid : 1 ≤ sig ∧ sig < nsig
  · have positive : sig ≠ 0 := by omega
    rw [if_neg (show ¬(sig < 1 ∨ nsig ≤ sig) by omega), if_neg positive, Prod.mk.injEq,
      sendTo_eq_iff, and_iff_right valid]
    refine and_congr_left fun _ => ?_
    cases table.any target <;> decide
  · refine iff_of_false (fun same => ?_) fun right => valid right.1
    rw [if_pos (show sig < 1 ∨ nsig ≤ sig by omega)] at same
    have result := congrArg Prod.fst same
    split at result <;> cases result

theorem signalled_of_absent (absent : table.any target = false) :
    signalled table target sig = (-3, table) := by
  rw [signalled, absent, sendTo_of_any_eq_false absent, ite_self]
  rfl

theorem any_of_procFind {found : Entry} (there : procFind table pid = some found) :
    found.pid = pid ∧ (table.any fun entry => entry.pid = pid) = true := by
  have number : decide (found.pid = pid) = true :=
    find?_some (p := fun entry : Entry => decide (entry.pid = pid)) there
  exact ⟨of_decide_eq_true number, any_eq_true.mpr ⟨found, mem_of_find?_eq_some there, number⟩⟩

variable {tid : Int}

theorem doTkill_eq_signalled_iff (only : ∀ entry, target entry = true → entry.pid = tid) :
    doTkill table tid sig = signalled table target sig ↔
      ∀ found, procFind table tid = some found →
        (1 ≤ sig ∧ sig < nsig) ∧ table.any target = true ∧ ∀ entry ∈ table,
          decide (entry.pid = tid) = target entry ∨
            entry.pending ||| sigmask sig = entry.pending := by
  rw [doTkill]
  cases there : procFind table tid with
  | none =>
    have absent : table.any target = false := any_eq_false.mpr fun entry member hit =>
      find?_eq_none.mp there entry member (decide_eq_true (only entry hit))
    rw [signalled_of_absent absent]
    exact iff_of_true rfl fun _ => nofun
  | some found =>
    dsimp only
    rw [(any_of_procFind there).1, sendPid_eq_signalled_iff]
    exact ⟨fun right _ _ => right, fun right => right found rfl⟩

theorem doTkill_pid_iff :
    doTkill table tid sig = signalled table (fun entry => entry.pid = tid) sig ↔
      ((procFind table tid).isSome = true → 1 ≤ sig ∧ sig < nsig) := by
  rw [doTkill_eq_signalled_iff fun _ hit => of_decide_eq_true hit, Option.isSome_iff_exists]
  constructor
  · rintro right ⟨found, there⟩
    exact (right found there).1
  · exact fun valid found there =>
      ⟨valid ⟨found, there⟩, (any_of_procFind there).2, fun _ _ => .inl rfl⟩

/-- The number is found and the signal is below 64, or the caller is all that is designated. -/
def KillFits (table : List Entry) (caller : Entry) (pid : Int) (sig : Nat) : Prop :=
  if 0 < pid then (procFind table pid).isSome = true → sig < nsig
  else
    table.any (designated caller pid) = true ∧ sig < nsig ∧ (sig ≠ 0 → ∀ entry ∈ table,
      decide (entry.pid = caller.pid) = designated caller pid entry ∨
        entry.pending ||| sigmask sig = entry.pending)

theorem doKill_eq_signalled_iff (pid : Int) :
    doKill table caller pid sig = signalled table (designated caller pid) sig ↔
      KillFits table caller pid sig := by
  rw [doKill, KillFits]
  by_cases single : 0 < pid
  · have one : designated caller pid = fun entry => decide (entry.pid = pid) :=
      funext fun entry => if_pos single
    rw [if_pos single, if_pos single, one]
    by_cases zero : sig = 0
    · subst zero
      rw [if_pos rfl]
      refine iff_of_true ?_ fun _ => by decide
      cases there : procFind table pid with
      | none =>
        have absent : (table.any fun entry => entry.pid = pid) = false :=
          any_eq_false.mpr fun entry member => find?_eq_none.mp there entry member
        rw [if_pos ⟨single, rfl⟩, signalled_of_absent absent]
      | some =>
        rw [if_neg fun none => nomatch none.2]
        exact congrArg (·, table) (if_pos (any_of_procFind there).2).symm
    · rw [if_neg zero]
      refine doTkill_pid_iff.trans (imp_congr_right fun _ => ?_)
      exact and_iff_right (Nat.one_le_iff_ne_zero.mpr zero)
  · rw [if_neg single, if_neg single]
    by_cases zero : sig = 0
    · subst zero
      rw [if_pos rfl, if_neg fun both => single both.1, signalled, if_pos rfl]
      cases table.any (designated caller pid) <;> simp [nsig]
    · rw [if_neg zero, sendPid_eq_signalled_iff]
      constructor
      · exact fun right => ⟨right.2.1, right.1.2, fun _ => right.2.2⟩
      · exact fun right => ⟨⟨Nat.one_le_iff_ne_zero.mpr zero, right.2.1⟩, right.1, right.2.2 zero⟩

/-- Two processes in one group. -/
def twoProcesses : List Entry := [⟨2, 2, 2, 0⟩, ⟨3, 2, 3, 0⟩]

end AlpineOnIOS.Signal
