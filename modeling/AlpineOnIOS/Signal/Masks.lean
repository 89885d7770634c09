import AlpineOnIOS.Signal.RoundTrip

/-!
# Masks and signals on their way

Every path that changes a mask takes `SIGKILL` and `SIGSTOP` out of it, except for `rt_sigreturn`,
which believes the frame. A ghost word records the signals that were sent and not yet taken up.
-/

namespace AlpineOnIOS.Signal

open Foundation AddressSpace

variable (proc : Proc)

/-- `sig_action` with an action. -/
def sigAction (sig : Nat) (sa : Sigaction) : Proc :=
  if sig < 1 ∨ nsig ≤ sig ∨ sig = sigkill ∨ sig = sigstop then proc
  else
    { proc with
      world.actions := fun other => if other = sig then sa else proc.world.actions other }

/-- What may happen to one process. -/
inductive Change where
  | procmask (how : Fin 3) (set : UInt64)
  | action (sig : Nat) (sa : Sigaction)
  | send (sig : Nat)
  | deliver
  | sigreturn
  | guest (cpu : Native.CpuState) (space : Space) (host : HostMemory)
  | execve (cpu : Native.CpuState) (space : Space) (host : HostMemory)

/-- Guest code may write anything; `execve` keeps the mask and the ignored signals. -/
def Change.apply : Change → Proc
  | procmask how set => sigProcmask proc how set
  | action sig sa => sigAction proc sig sa
  | send sig => sigSend proc sig
  | deliver => sigDeliver proc
  | sigreturn => sysRtSigreturn proc
  | guest cpu space host => { cpu, world := { proc.world with space, host } }
  | execve cpu space host =>
    let actions := fun sig => ⟨if (proc.world.actions sig).handler = 1 then 1 else 0, 0, 0, 0⟩
    { cpu, world := { proc.world with space, host, actions } }

/-- A change of one process, or a new process by `fork` or `clone`. -/
inductive MaskEvent where
  | change (index : Nat) (change : Change)
  | fork (index : Nat) (cpu : Native.CpuState) (space : Space) (host : HostMemory)

variable (procs : List Proc)

/-- One event.  A new process has the mask and the actions of the old one, and nothing pending. -/
def maskStep : MaskEvent → Option (List Proc)
  | .change index change => some (procs.modify index change.apply)
  | .fork index cpu space host =>
    procs[index]?.map fun parent =>
      procs ++ [{ cpu, world := { parent.world with space, host, pending := 0 } }]

/-- The mask that `rt_sigreturn` finds, if it gets there. -/
def frameMask : Option UInt64 :=
  (memReadBytes proc.world.space proc.world.host (proc.cpu.sp + 268) 8).map (.ofNat <| leNat ·)

def Careful : MaskEvent → Prop
  | .change index .sigreturn =>
    ∀ proc, procs[index]? = some proc → ∀ mask, frameMask proc = some mask →
      mask &&& uncatchable = 0
  | .change index .deliver =>
    ∀ proc, procs[index]? = some proc → proc.world.pending &&& sigmask sigkill ≠ 0 →
      ∀ sig, 1 ≤ sig → sig < sigkill → sigPending proc &&& sigmask sig = 0
  | _ => True

/-- Nothing is blocked that must not be. -/
def Unblocked : Prop := ∀ proc ∈ procs, proc.world.blocked &&& uncatchable = 0

/-- The masks are right, and a delivery acts on `SIGKILL`. -/
def ActsOnKill (event : MaskEvent) : Prop :=
  Unblocked procs ∧ ∀ index proc, event = .change index .deliver → procs[index]? = some proc →
    proc.world.pending &&& sigmask sigkill ≠ 0 → (deliver proc).1 = some (sigkill, .killed)

variable {proc}

/-- A process in order: nothing blocked that must not be, and `SIGKILL` has its default action. -/
structure Safe (proc : Proc) : Prop where
  mask : proc.world.blocked &&& uncatchable = 0
  action : (proc.world.actions sigkill).handler = 0

theorem and_not_uncatchable (word : UInt64) : (word &&& ~~~uncatchable) &&& uncatchable = 0 := by
  rw [UInt64.and_assoc, UInt64.not_and_self, UInt64.and_zero]

theorem not_and_of_and_eq_zero {word mask : UInt64} (clear : word &&& mask = 0) :
    ~~~word &&& mask = mask := by
  apply UInt64.eq_of_toBitVec_eq
  ext index inside
  have bit := congrArg (fun word : UInt64 => word.toBitVec[index]) clear
  simp only [UInt64.toBitVec_and, UInt64.toBitVec_not, UInt64.toBitVec_zero, BitVec.getElem_and,
    BitVec.getElem_not, BitVec.getElem_zero] at bit ⊢
  grind

theorem Safe.sigDeliver (safe : Safe proc) : Safe (sigDeliver proc) := by
  by_cases enters : ∃ sig, Enters proc sig
  · obtain ⟨_, enters⟩ := enters
    rw [enters.eq.1]
    refine ⟨and_not_uncatchable _, ?_⟩
    simp only [enterHandler]
    split
    · rfl
    · exact safe.action
  · obtain ⟨_, _, _, _, same⟩ := sigDeliver_of_not_enters (not_exists.mp enters)
    rw [same]
    exact ⟨safe.mask, safe.action⟩

theorem mask_restoreFields {fields : List Field} (lawful : ∀ field ∈ fields, field.Lawful)
    (frame : UInt64) (proc : Proc) :
    (restoreFields frame fields proc).2.world.actions = proc.world.actions ∧
      ((restoreFields frame fields proc).2.world.blocked = proc.world.blocked ∨
        ∃ bytes, memReadBytes proc.world.space proc.world.host (frame + 268) 8 = some bytes ∧
          (restoreFields frame fields proc).2.world.blocked = .ofNat (leNat bytes)) := by
  induction fields generalizing proc with
  | nil => exact ⟨rfl, .inl rfl⟩
  | cons field rest induction =>
    obtain ⟨law, laws⟩ := List.forall_mem_cons.mp lawful
    rw [restoreFields]
    split
    · exact ⟨rfl, .inl rfl⟩
    rename_i bytes read
    obtain ⟨actions, mask⟩ := induction laws (field.set (leNat bytes) proc)
    obtain ⟨space, host⟩ := law.memory (leNat bytes) proc
    rw [space, host] at mask
    refine ⟨actions.trans (law.actions _ _), ?_⟩
    rcases mask with kept | found
    · rcases law.blocked (leNat bytes) proc with same | ⟨offset, size, set⟩
      · exact .inl (kept.trans same)
      · rw [offset, size] at read
        exact .inr ⟨bytes, read, kept.trans set⟩
    · exact .inr found

theorem Safe.sysRtSigreturn (safe : Safe proc)
    (clean : ∀ mask, frameMask proc = some mask → mask &&& uncatchable = 0) :
    Safe (sysRtSigreturn proc) := by
  obtain ⟨actions, mask⟩ := mask_restoreFields (fun _ => lawful_of_mem) proc.cpu.sp proc
  refine ⟨?_, (congrArg (fun table : Nat → Sigaction => (table sigkill).handler) actions).trans
    safe.action⟩
  rcases mask with kept | ⟨_, read, set⟩
  · exact (congrArg (· &&& uncatchable) kept).trans safe.mask
  refine (congrArg (· &&& uncatchable) set).trans (clean _ ?_)
  rw [frameMask, read]
  rfl

theorem Safe.apply {change : Change} (safe : Safe proc)
    (clean : change = .sigreturn → ∀ mask, frameMask proc = some mask → mask &&& uncatchable = 0) :
    Safe (change.apply proc) := by
  cases change with
  | procmask => exact ⟨and_not_uncatchable _, safe.action⟩
  | action sig =>
    rw [Change.apply, sigAction]
    split
    · exact safe
    rename_i allowed
    have other : sigkill ≠ sig := fun same => allowed (.inr (.inr (.inl same.symm)))
    exact ⟨safe.mask, (congrArg Sigaction.handler (if_neg other)).trans safe.action⟩
  | send =>
    rw [Change.apply, sigSend]
    split
    · exact ⟨safe.mask, safe.action⟩
    · exact safe
  | deliver => exact safe.sigDeliver
  | sigreturn => exact safe.sysRtSigreturn (clean rfl)
  | guest => exact ⟨safe.mask, safe.action⟩
  | execve =>
    refine ⟨safe.mask, if_neg ?_⟩
    rw [safe.action]
    decide

theorem deliver_sigkill (safe : Safe proc) (sent : proc.world.pending &&& sigmask sigkill ≠ 0)
    (lower : ∀ sig, 1 ≤ sig → sig < sigkill → sigPending proc &&& sigmask sig = 0) :
    (deliver proc).1 = some (sigkill, .killed) := by
  have clear : proc.world.blocked &&& sigmask sigkill = 0 := by
    rw [show sigmask sigkill = uncatchable &&& sigmask sigkill by decide, ← UInt64.and_assoc,
      safe.mask, UInt64.zero_and]
  have kept := not_and_of_and_eq_zero clear
  have first : lowest (sigPending proc) = some sigkill := by
    have found : (List.range (nsig - 1)).find?
        ((fun sig => decide (sigPending proc &&& sigmask sig ≠ 0)) ∘ (· + 1)) = some 8 := by
      refine List.find?_range_eq_some.mpr ⟨decide_eq_true ?_, by decide, fun sig below => ?_⟩
      · rw [sigPending, UInt64.and_assoc]
        exact kept.symm ▸ sent
      · have none := lower (sig + 1) (Nat.succ_pos sig) (Nat.succ_lt_succ below)
        simp [none]
    rw [lowest, List.find?_map, found]
    rfl
  rw [deliver, first]
  simp only [act, safe.action]
  rfl

variable {procs} {events : List MaskEvent}

theorem safe_maskStep {event : MaskEvent} {next : List Proc} (careful : Careful procs event)
    (stepped : maskStep procs event = some next) (safe : ∀ proc ∈ procs, Safe proc) :
    ∀ proc ∈ next, Safe proc := by
  cases event with
  | change index change =>
    cases stepped
    intro proc member
    obtain ⟨_, found⟩ := List.mem_iff_getElem?.mp member
    rw [List.getElem?_modify] at found
    obtain ⟨old, there, rfl⟩ := Option.map_eq_some_iff.mp found
    have before := safe old (List.mem_of_getElem? there)
    split
    · rename_i here
      refine before.apply fun returns => ?_
      subst returns here
      exact careful old there
    · exact before
  | fork =>
    obtain ⟨parent, found, rfl⟩ := Option.map_eq_some_iff.mp stepped
    intro proc member
    rcases List.mem_append.mp member with old | new
    · exact safe proc old
    have before := safe parent (List.mem_of_getElem? found)
    rw [List.mem_singleton.mp new]
    exact ⟨before.mask, before.action⟩

/-- Where frames keep a clean mask and `SIGKILL` never waits, `SIGKILL` is acted on. -/
theorem kill_acted_on_of_careful (safe : ∀ proc ∈ procs, Safe proc)
    (along : Along maskStep Careful procs events) :
    Along maskStep ActsOnKill procs events ∧
      ∀ final, run maskStep procs events = some final → Unblocked final := by
  constructor
  · refine along.of_invariant (fun procs => ∀ proc ∈ procs, Safe proc) (fun careful safe =>
      ⟨⟨fun proc member => (safe proc member).mask, ?_⟩,
        fun next stepped => safe_maskStep careful stepped safe⟩) safe
    rintro index proc rfl found sent
    exact deliver_sigkill (safe proc (List.mem_of_getElem? found)) sent (careful proc found sent)
  · intro final reached proc member
    have last := invariant_run (fun procs => ∀ proc ∈ procs, Safe proc)
      (fun careful stepped safe => safe_maskStep careful stepped safe) along reached safe
    exact (last proc member).mask

/-- A process that returns from a signal with whatever lies on its stack. -/
def returning (byte : UInt8) : Proc :=
  { interrupted 0 0 with
    cpu.sp := 0x10000
    world := { (interrupted 0 0).world with
      host.page := fun _ => some byte, actions := fun _ => ⟨0, 0, 0, 0⟩, pending := 0 } }

theorem kill_acted_on_after_return :
    Along maskStep ActsOnKill [returning 0]
        [.change 0 .sigreturn, .change 0 (.send sigkill), .change 0 .deliver] ∧
      ∀ final, run maskStep [returning 0]
        [.change 0 .sigreturn, .change 0 (.send sigkill), .change 0 .deliver] = some final →
          Unblocked final := by
  refine kill_acted_on_of_careful (List.forall_mem_singleton.mpr ⟨by decide, rfl⟩)
    (.cons rfl ?_ (.cons rfl trivial (.cons rfl ?_ trivial)))
  · rintro proc ⟨⟩ mask found
    have zero : frameMask (returning 0) = some 0 := by decide +kernel
    cases zero.symm.trans found
    decide
  · rintro proc ⟨⟩ - sig low high
    have none : ∀ sig : Fin 9, 1 ≤ sig.val → sigPending (Change.apply
        (Change.apply (returning 0) .sigreturn) (.send sigkill)) &&& sigmask sig = 0 := by
      decide +kernel
    exact none ⟨sig, high⟩ low

theorem sigkill_blocked_by_frame :
    ∃ final, run maskStep [returning 1] [.change 0 .sigreturn, .change 0 (.send sigkill)] =
        some [final] ∧ final.world.blocked = 0x0101010101010101 ∧ (deliver final).1 = none :=
  ⟨_, rfl, by decide +kernel, by decide +kernel⟩

/-- How far the current delivery is. -/
inductive Phase where
  | idle
  | chosen (sig : Nat)
  | cleared (sig : Nat)
  | copied (sig : Nat) (sa : Sigaction)

/-- A process with its delivery and the signals it is owed. -/
structure Receiver where
  proc : Proc
  phase : Phase
  owed : UInt64

/-- What senders, other threads, the process itself and its delivery do. -/
inductive DeliveryEvent where
  | send (sig : Nat)
  | action (sig : Nat) (sa : Sigaction)
  | guest (next : Proc)
  | load
  | clear
  | copy
  | finish

variable (state : Receiver) (event : DeliveryEvent)

/-- One event.  Between deliveries the process does anything but change its pending word. -/
def receive : Option Receiver :=
  match event, state.phase with
  | .send sig, _ =>
    if 1 ≤ sig ∧ sig < nsig then
      some { state with proc := sigSend state.proc sig, owed := state.owed ||| sigmask sig }
    else none
  | .action sig sa, _ =>
    some { state with
      proc.world.actions := fun other =>
        if other = sig then sa else state.proc.world.actions other }
  | .guest next, .idle =>
    some { state with
      proc := { next with world := { next.world with pending := state.proc.world.pending } } }
  | .load, .idle =>
    some { state with phase := (lowest (sigPending state.proc)).elim .idle .chosen }
  | .clear, .chosen sig =>
    some
      { proc := clearSignal state.proc sig, phase := .cleared sig
        owed := state.owed &&& ~~~sigmask sig }
  | .copy, .cleared sig => some { state with phase := .copied sig (state.proc.world.actions sig) }
  | .finish, .copied sig sa =>
    some
      { proc := (act state.proc sig sa).2, phase := .idle
        -- Nothing was done about a signal that is skipped.
        owed := if (act state.proc sig sa).1 = .skipped then state.owed ||| sigmask sig
          else state.owed }
  | _, _ => none

/-- Every frame that is needed can be pushed. -/
def FrameFits : Prop :=
  ∀ sig sa, event = .finish → state.phase = .copied sig sa → sa.handler ≠ 0 → sa.handler ≠ 1 →
    memTranslate state.proc.world.space (frameAddr state.proc.cpu.sp) 800 memProtWrite ≠ none

def handlerMask (blocked : UInt64) (sig : Nat) (sa : Sigaction) : UInt64 :=
  (blocked ||| sa.mask ||| if sa.flags &&& saNodefer = 0 then sigmask sig else 0) &&& ~~~uncatchable

/-- An owed signal is pending, and a delivery ends with its action under the right mask. -/
def Accounted : Prop :=
  state.owed &&& ~~~state.proc.world.pending = 0 ∧
    ∀ sig sa, event = .finish → state.phase = .copied sig sa →
      (act state.proc sig sa).1 ≠ .skipped ∧
      ((act state.proc sig sa).1 = .entered →
        (act state.proc sig sa).2.world.blocked = handlerMask state.proc.world.blocked sig sa)

variable {sig : Nat} {sa : Sigaction}

theorem pending_act : (act proc sig sa).2.world.pending = proc.world.pending := by
  unfold act
  split_ifs <;> rfl

theorem act_eq_skipped_iff : (act proc sig sa).1 = .skipped ↔
    sa.handler ≠ 1 ∧ sa.handler ≠ 0 ∧
      memTranslate proc.world.space (frameAddr proc.cpu.sp) 800 memProtWrite = none := by
  rw [act]
  by_cases ignored : sa.handler = 1
  · simp [ignored]
  by_cases default : sa.handler = 0
  · rw [if_neg ignored, if_pos default]
    split_ifs <;> simp [default]
  · rw [if_neg ignored, if_neg default]
    split_ifs with unwritable <;> simp [ignored, default, unwritable]

theorem blocked_of_entered (entered : (act proc sig sa).1 = .entered) :
    (act proc sig sa).2.world.blocked = handlerMask proc.world.blocked sig sa := by
  rw [(act_of_entered entered).1, handlerMask]
  simp only [enterHandler]
  split
  · rfl
  · rw [UInt64.or_zero]

theorem owed_receive {state next : Receiver} {event : DeliveryEvent} (fits : FrameFits state event)
    (stepped : receive state event = some next) (owed : state.owed = state.proc.world.pending) :
    next.owed = next.proc.world.pending := by
  unfold receive at stepped
  split at stepped
  · rename_i sig phase
    split at stepped
    · rename_i valid
      cases stepped
      rw [sigSend, if_pos valid, owed]
    · cases stepped
  · cases stepped
    exact owed
  · cases stepped
    exact owed
  · cases stepped
    exact owed
  · cases stepped
    rw [owed]
    rfl
  · cases stepped
    exact owed
  · rename_i sig sa phase
    cases stepped
    have done : (act state.proc sig sa).1 ≠ .skipped := fun skipped => by
      obtain ⟨caught, handled, unwritable⟩ := act_eq_skipped_iff.mp skipped
      exact fits sig sa rfl phase handled caught unwritable
    rw [if_neg done, pending_act, owed]
  · cases stepped

def doRtSigpending (proc : Proc) (a0 : UInt64) : Int × Proc :=
  if a0 = 0 then (0, proc)
  else
    match copyBytes proc.world.space proc.world.host a0 (leBytes 8 (sigPending proc).toNat) with
    | none => (-14, proc)
    | some host => (0, { proc with world.host := host })

theorem leBytes_eight_inj {first second : UInt64} :
    leBytes 8 first.toNat = leBytes 8 second.toNat ↔ first = second := by
  refine ⟨fun same => UInt64.toNat_inj.mp ?_, fun same => by rw [same]⟩
  have numbers := congrArg leNat same
  rwa [leNat_leBytes, leNat_leBytes, Nat.mod_eq_of_lt (show _ < 256 ^ 8 from first.toNat_lt),
    Nat.mod_eq_of_lt (show _ < 256 ^ 8 from second.toNat_lt)] at numbers

theorem unblocked_eq_blocked_iff {pending owed blocked : UInt64} :
    pending &&& ~~~blocked = owed &&& blocked ↔
      pending &&& ~~~blocked = 0 ∧ owed &&& blocked = 0 := by
  constructor
  · intro same
    have empty : pending &&& ~~~blocked = 0 := by
      calc pending &&& ~~~blocked
          = (pending &&& ~~~blocked) &&& ~~~blocked := by rw [UInt64.and_assoc, UInt64.and_self]
        _ = (owed &&& blocked) &&& ~~~blocked := by rw [same]
        _ = 0 := by rw [UInt64.and_assoc, UInt64.and_not_self, UInt64.and_zero]
    exact ⟨empty, same ▸ empty⟩
  · rintro ⟨first, second⟩
    rw [first, second]

/-- `rt_sigpending` is right exactly if no signal is pending, and owes no blocked signal. -/
theorem rt_sigpending_exact_iff (proc : Proc) (events : List DeliveryEvent) :
    ∀ final, run receive ⟨proc, .idle, proc.world.pending⟩ events = some final → Sane final.proc →
      ∀ a0 after, a0 ≠ 0 → doRtSigpending final.proc a0 = (0, after) →
        (Placed (memoryOf after) a0 (leBytes 8 (final.owed &&& final.proc.world.blocked).toNat) ↔
          final.proc.world.pending &&& ~~~final.proc.world.blocked = 0 ∧
            final.owed &&& final.proc.world.blocked = 0) := by
  intro final _ sane a0 after asked answered
  rw [doRtSigpending, if_neg asked] at answered
  split at answered
  · cases answered
  rename_i copied
  cases answered
  have nonempty : leBytes 8 (sigPending final.proc).toNat ≠ [] :=
    List.ne_nil_of_length_pos (by rw [length_leBytes]; decide)
  have short : (leBytes 8 (sigPending final.proc).toNat).length < 2 ^ 64 := by
    rw [length_leBytes]
    decide
  have placed := (wrote_of_copyBytes nonempty short sane.ordered sane.backing copied).1.placed
  rw [← unblocked_eq_blocked_iff]
  constructor
  · intro right
    exact leBytes_eight_inj.mp (placed.unique right (by rw [length_leBytes, length_leBytes]))
  · intro same
    rw [← same]
    exact placed

theorem rt_sigpending_interrupted :
    ∃ after, doRtSigpending (interrupted 0 0) 0x10000 = (0, after) ∧
      (Placed (memoryOf after) 0x10000 (leBytes 8 (sigmask 10 &&& 0).toNat) ↔
        sigmask 10 &&& ~~~0 = 0 ∧ sigmask 10 &&& 0 = 0) :=
  ⟨_, rfl, rt_sigpending_exact_iff (interrupted 0 0) [] _ rfl (sane_interrupted 0 0) 0x10000 _
    (by decide) rfl⟩

/-- A blocked signal that was sent is not reported, and one that is not blocked is. -/
theorem rt_sigpending_inverted :
    ∃ final after,
      run receive ⟨interrupted 0 0, .idle, sigmask 10⟩
        [.guest (sigProcmask (interrupted 0 0) 0 (sigmask 12)), .send 12] = some final ∧
      doRtSigpending final.proc 0x10000 = (0, after) ∧
      final.owed &&& final.proc.world.blocked = sigmask 12 ∧
      memReadBytes after.world.space after.world.host 0x10000 8 =
        some (leBytes 8 (sigmask 10).toNat) :=
  ⟨_, _, rfl, rfl, by decide +kernel, by decide +kernel⟩

end AlpineOnIOS.Signal
