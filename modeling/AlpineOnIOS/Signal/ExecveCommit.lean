import AlpineOnIOS.Signal.RoundTrip

/-!
# What `execve` keeps of the old image

`proc_execve` prepares the new image and then commits to it. The alternate signal stack and the
pointer of `set_tid_address` are addresses of the old image, but survive.
-/

namespace AlpineOnIOS.Signal

open Foundation AddressSpace

/-- The part of `fd_entry_t` that `execve` looks at. -/
structure Descriptor where
  realFd : Int
  cloexec : Bool
  deriving DecidableEq

/-- `emu_process_t`, with its working directory, its numbers and all else as the last component. -/
structure Task (Rest : Type) where
  proc : Proc
  clearChildTid : UInt64
  fds : List (Option Descriptor)
  rest : Rest

/-- The new address space with the entry point and the initial stack pointer. -/
structure Image where
  space : Space
  host : HostMemory
  entry : UInt64
  sp : UInt64

/-- What the calls before the commit return, and the image that they make. -/
structure Attempt where
  resolved : Bool
  sighand : Bool
  created : Bool
  aotEnabled : Bool
  loaded : Bool
  interp : Option (Bool × Bool)
  heap : Bool × Bool
  stack : Bool × Bool
  image : Image

/-- The exits of `proc_execve` before the commit. -/
def prepare (attempt : Attempt) : Except Int Image :=
  if attempt.resolved = false then .error (-2)
  else if attempt.sighand = false ∨ attempt.created = false then .error (-12)
  else if attempt.aotEnabled = false ∨ attempt.loaded = false then .error (-8)
  else
    match attempt.interp with
    | some (false, _) => .error (-2)
    | some (true, false) => .error (-8)
    | _ =>
      if attempt.heap ≠ (true, true) ∨ attempt.stack ≠ (true, true) ∨ attempt.image.sp = 0 then
        .error (-12)
      else .ok attempt.image

variable {Rest : Type} (task : Task Rest)

/-- The commit of `proc_execve`. -/
def commit (image : Image) : Task Rest :=
  { task with
    proc :=
      { cpu := { x := fun _ => 0, sp := image.sp, pc := image.entry, nzcv := 0, tpidrEl0 := 0,
                 running := true }
        world :=
          { task.proc.world with
            v := fun _ => 0, fpcr := 0, fpsr := 0, space := image.space, host := image.host
            actions := fun sig =>
              ⟨if (task.proc.world.actions sig).handler = 1 then 1 else 0, 0, 0, 0⟩ } }
    fds := task.fds.map fun slot => slot.filter fun fd => !fd.cloexec }

def procExecve (attempt : Attempt) : Int × Task Rest :=
  match prepare attempt with
  | .error error => (error, task)
  | .ok image => (0, commit task image)

/-- The memory behind `proc_exit`. -/
def procExit : HostMemory :=
  if task.clearChildTid = 0 then task.proc.world.host
  else
    (copyBytes task.proc.world.space task.proc.world.host task.clearChildTid (leBytes 4 0)).getD
      task.proc.world.host

/-- Behind a successful `execve` no address of the old image is left. -/
structure Renewed (before after : Task Rest) (image : Image) : Prop where
  memory : after.proc.world.space = image.space ∧ after.proc.world.host = image.host
  handlers : ∀ sig, (after.proc.world.actions sig).handler =
    if (before.proc.world.actions sig).handler = 1 then 1 else 0
  masks : after.proc.world.pending = before.proc.world.pending ∧
    after.proc.world.blocked = before.proc.world.blocked
  rest : after.rest = before.rest
  fds : ∀ fd : Nat, after.fds[fd]? =
    before.fds[fd]?.map fun slot => slot.filter fun entry => !entry.cloexec
  altstack : after.proc.world.altstack = 0
  clearChildTid : after.clearChildTid = 0
  exit : procExit after = after.proc.world.host

/-- A call either fails and changes nothing, or renews the task. -/
def Atomic (attempt : Attempt) : Prop :=
  match prepare attempt with
  | .error error => procExecve task attempt = (error, task)
  | .ok image =>
    (procExecve task attempt).1 = 0 ∧ Renewed task (procExecve task attempt).2 image

/-- `execve` is atomic, and forgets the old image exactly if there was nothing to forget. -/
theorem execve_atomic_iff (task : Task Rest) (attempt : Attempt) :
    Atomic task attempt ↔ ((prepare attempt).isOk = true →
      task.proc.world.altstack = 0 ∧ task.clearChildTid = 0) := by
  rw [Atomic, procExecve]
  cases prepare attempt with
  | error => exact iff_of_true rfl fun ok => Bool.noConfusion ok
  | ok =>
    constructor
    · exact fun renewed _ => ⟨renewed.2.altstack, renewed.2.clearChildTid⟩
    · intro forgotten
      obtain ⟨altstack, clearChildTid⟩ := forgotten rfl
      exact ⟨rfl, ⟨rfl, rfl⟩, fun _ => rfl, ⟨rfl, rfl⟩, rfl, fun fd => List.getElem?_map ..,
        altstack, clearChildTid, if_pos clearChildTid⟩

/-- A thread that has called `set_tid_address(0x10010)` loads an image with data there. -/
def renewedMemory : Task Unit :=
  let fresh := interrupted 0 0
  (procExecve ⟨fresh, 0x10010, [some ⟨5, true⟩], ()⟩
    { resolved := true, sighand := true, created := true, aotEnabled := true, loaded := true
      interp := none, heap := (true, true), stack := (true, true)
      image := ⟨fresh.world.space, { fresh.world.host with page := fun _ => some 0xFF }, 0x400000,
        0x10800⟩ }).2

/-- The exit of the new program clears four bytes of its data. -/
theorem exit_writes_into_new_image :
    renewedMemory.fds = [none] ∧ renewedMemory.clearChildTid = 0x10010 ∧
      renewedMemory.proc.world.host.page 0x10010 = some 0xFF ∧
      (procExit renewedMemory).page 0x10010 = some 0 := by
  decide +kernel

end AlpineOnIOS.Signal
