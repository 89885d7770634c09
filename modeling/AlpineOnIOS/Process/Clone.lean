import AlpineOnIOS.Native.Trap
import AlpineOnIOS.Process.Fork

/-!
# The arguments of `clone`

Without `CLONE_VM`, `do_clone` calls `proc_fork`, which returns when the child has started another
program or is gone. Only then the arguments are applied to the entry with the child's number.
-/

namespace AlpineOnIOS.Process

open Foundation Foundation.HostMemory AddressSpace Option

def cloneVm : UInt64 := 0x00000100

def cloneThread : UInt64 := 0x00010000

def cloneSettls : UInt64 := 0x00080000

def cloneParentSettid : UInt64 := 0x00100000

def cloneChildCleartid : UInt64 := 0x00200000

def cloneChildSettid : UInt64 := 0x01000000

/-- The arguments of a call of `do_clone` without `CLONE_VM`. -/
structure CloneArgs where
  flags : UInt64
  separate : flags &&& cloneVm = 0
  newsp : UInt64
  parentTidptr : UInt64
  tls : UInt64
  childTidptr : UInt64

namespace CloneArgs

variable (args : CloneArgs)

/-- The test `flags & flag`. -/
def has (flag : UInt64) : Bool := args.flags &&& flag ≠ 0

/-- The word for the number of the child, in its own memory. -/
def setsChild : Bool := args.has cloneChildSettid && args.childTidptr ≠ 0

/-- The word that is cleared when the child exits. -/
def clearsChild : Bool := args.has cloneChildCleartid && args.childTidptr ≠ 0

/-- The word for the number of the child, in the memory of the caller. -/
def setsParent : Bool := args.has cloneParentSettid && args.parentTidptr ≠ 0

end CloneArgs

/-- The fields of `emu_process_t` that `do_clone` sets in a child. -/
structure Task where
  cpu : Native.CpuState
  clearChildTid : UInt64
  mem : Space

/-- The stores of a child while `proc_fork` waits, and its entry if there still is one. -/
structure Childhood where
  writes : List HostWrite
  left : Option Task

/-- The result, the child at its first instruction, and its entry before and after later changes. -/
structure CloneOutcome where
  result : Int
  started : Option (Task × HostMemory)
  changed : Option ((Task × HostMemory) × (Task × HostMemory))

/-- The registers of a new child: those of the caller, with zero as the result of the call. -/
def childCpu (cpu : Native.CpuState) : Native.CpuState :=
  { cpu with x := fun index => if index.val = 0 then 0 else cpu.x index, running := true }

variable (wanted : Bool)

/-- A best effort `mem_write32` of the number of a child. -/
def putTid (space : Space) (host : HostMemory) (addr : UInt64) (tid : Nat) :
    HostMemory :=
  if wanted then (memWrite32 space host addr (.ofNat tid)).getD host else host

variable (args : CloneArgs)

/-- The stack, the thread pointer and the two words of a child. -/
def setupChild (tid : Nat) (task : Task) (host : HostMemory) :
    Task × HostMemory :=
  let sp := if args.newsp ≠ 0 then args.newsp else task.cpu.sp
  let tls := if args.has cloneSettls then args.tls else task.cpu.tpidrEl0
  let clear := if args.clearsChild then args.childTidptr else task.clearChildTid
  ({ task with cpu := { task.cpu with sp, tpidrEl0 := tls }, clearChildTid := clear },
    putTid args.setsChild task.mem host args.childTidptr tid)

/-- `proc_fork` up to the start of the child. -/
def forkStart (parent : Space) (host : HostMemory) : Option (Space × List Saved × HostMemory) :=
  match host.request with
  | (false, _) => none
  | (true, host) =>
    match memSpaceClone parent host with
    | (none, _) => none
    | (some space, host) =>
      let (saved, host) := saveRegions host 0 parent.regions
      match host.request with
      | (false, _) => none
      | (true, host) => some (space, saved, host)

/-- `proc_fork` starts the child and restores the saved regions when it is done. -/
theorem procFork_eq_forkStart (parent : Space) (host : HostMemory) (child : List HostWrite) :
    procFork parent host child =
      (forkStart parent host).map fun start =>
        (start.1, restoreRegions (writeAll start.2.2 child) start.2.1) := by
  unfold procFork forkStart
  rcases host.request with ⟨_ | _, asked⟩
  · rfl
  dsimp only
  rcases memSpaceClone parent asked with ⟨_ | _, cloned⟩
  · rfl
  · dsimp only
    rcases (saveRegions cloned 0 parent.regions).2.request with ⟨_ | _, _⟩ <;> rfl

variable (parent : Task) (host : HostMemory)

/-- The way of `do_clone` without `CLONE_VM`. -/
def cloneFork (tid : Nat)
    (child : Childhood) : CloneOutcome :=
  match forkStart parent.mem host with
  | none => { result := -12, started := none, changed := none }
  | some (space, saved, host) =>
    let start : Task := { cpu := childCpu parent.cpu, clearChildTid := 0, mem := space }
    let returned := restoreRegions (writeAll host child.writes) saved
    match child.left with
    | none => { result := -12, started := some (start, host), changed := none }
    | some task =>
      { result := tid
        started := some (start, host)
        changed := some ((task, returned), setupChild args tid task returned) }

/-- The way of `do_clone` with `CLONE_VM`, for a thread, which shares everything. -/
def cloneShared (tid : Nat) :
    CloneOutcome :=
  match host.request with
  | (false, _) => { result := -12, started := none, changed := none }
  | (true, host) =>
    let task : Task := { cpu := childCpu parent.cpu, clearChildTid := 0, mem := parent.mem }
    let (task, host) := setupChild args tid task host
    let host := putTid args.setsParent parent.mem host args.parentTidptr tid
    match host.request with
    | (false, _) => { result := -12, started := none, changed := none }
    | (true, host) => { result := tid, started := some (task, host), changed := none }

/-- `do_clone`, where `CLONE_THREAD` implies `CLONE_VM`. -/
def doClone (tid : Nat)
    (child : Childhood) : CloneOutcome :=
  if args.has cloneThread then cloneShared args parent host tid
  else cloneFork args parent host tid child

/-- The word of four bytes at an address, if the guest may write there, has this value. -/
def HasWord (space : Space) (host : HostMemory) (addr : UInt64) (tid : Nat) : Prop :=
  ∀ pointer, memTranslate space addr 4 memProtWrite = some pointer → ∀ index < 4, ∀ byte,
    host.load (pointer.add index) = some byte →
      byte = wordByte (UInt32.ofNat tid).toUInt64 index

/-- The child starts as it is asked for, is not changed afterwards, and its number is returned. -/
structure TakesEffect (args : CloneArgs) (parent : Task) (tid : Nat) (outcome : CloneOutcome) :
    Prop where
  stack : ∀ start, outcome.started = some start →
    start.1.cpu.sp = if args.newsp ≠ 0 then args.newsp else parent.cpu.sp
  tls : ∀ start, outcome.started = some start →
    start.1.cpu.tpidrEl0 = if args.has cloneSettls then args.tls else parent.cpu.tpidrEl0
  word : ∀ start, outcome.started = some start → args.setsChild = true →
    HasWord start.1.mem start.2 args.childTidptr tid
  unchanged : ∀ before after, outcome.changed = some (before, after) →
    after.1 = before.1 ∧ ∀ pointer, after.2.load pointer = before.2.load pointer
  result : outcome.started.isSome = true → outcome.result = tid

/-- The arguments ask for nothing but what a processor and a memory have already. -/
structure Matches (args : CloneArgs) (tid : Nat) (cpu : Native.CpuState) (mem : Space)
    (host : HostMemory) : Prop where
  stack : args.newsp ≠ 0 → args.newsp = cpu.sp
  tls : args.has cloneSettls = true → args.tls = cpu.tpidrEl0
  word : args.setsChild = true → HasWord mem host args.childTidptr tid

/-- The word for the caller does not overlap the one for the child with other bytes. -/
def Agree (space : Space) (host : HostMemory) (tid : Nat) : Prop :=
  ∀ own other, memTranslate space args.childTidptr 4 memProtWrite = some own →
    memTranslate space args.parentTidptr 4 memProtWrite = some other →
    ∀ index < 4, ∀ index' < 4, own.add index = other.add index' →
      (host.load (own.add index)).isSome = true →
        wordByte (UInt32.ofNat tid).toUInt64 index = wordByte (UInt32.ofNat tid).toUInt64 index'

/-- The caller and the entry of the child have already what the arguments ask for. -/
def Harmless (tid : Nat)
    (child : Childhood) : Prop :=
  if args.has cloneThread then
    host.grants host.clock = true → host.grants (host.clock + 1) = true →
      args.setsChild = true → args.setsParent = true → Agree args parent.mem host tid
  else
    ∀ space returned, procFork parent.mem host child.writes = some (space, returned) →
      Matches args tid parent.cpu parent.mem host ∧
        ∃ task, child.left = some task ∧ Matches args tid task.cpu task.mem returned ∧
          (args.clearsChild = true → args.childTidptr = task.clearChildTid)

variable {host} {space : Space} {tid : Nat} {after : HostMemory} {addr : UInt64}

theorem HasWord.congr {space' : Space}
    (translates : memTranslate space' addr 4 memProtWrite = memTranslate space addr 4 memProtWrite)
    (loads : ∀ pointer, after.load pointer = host.load pointer) :
    HasWord space' after addr tid ↔ HasWord space host addr tid := by
  unfold HasWord
  rw [translates]
  simp only [loads]

theorem putTid_eq_store {pointer : Pointer} (wanted : Bool) (asked : wanted = true)
    (found : memTranslate space addr 4 memProtWrite = some pointer) :
    putTid wanted space host addr tid =
      host.store pointer 4 (wordByte (UInt32.ofNat tid).toUInt64) := by
  rw [putTid, if_pos asked, memWrite32, memWriteBytes, found]
  rfl

theorem putTid_eq_self (skipped : wanted = true → memTranslate space addr 4 memProtWrite = none) :
    putTid wanted space host addr tid = host := by
  unfold putTid
  split
  · rename_i asked
    rw [memWrite32, memWriteBytes, skipped asked]
    rfl
  · rfl

theorem load_putTid_iff :
    (∀ pointer, (putTid wanted space host addr tid).load pointer = host.load pointer) ↔
      (wanted = true → HasWord space host addr tid) := by
  by_cases asked : wanted = true
  · cases found : memTranslate space addr 4 memProtWrite with
    | none =>
      rw [putTid_eq_self wanted fun _ => found]
      refine iff_of_true (fun _ => rfl) fun _ pointer here => ?_
      rw [found] at here
      cases here
    | some target =>
      rw [putTid_eq_store wanted asked found]
      constructor
      · intro same _ pointer here index inside byte loaded
        rw [found, some.injEq] at here
        subst here
        have stored := same (target.add index)
        rw [load_store_add host target _ inside, loaded, map_some, some.injEq] at stored
        exact stored.symm
      · intro word pointer
        rcases load_store host target 4 (wordByte (UInt32.ofNat tid).toUInt64) pointer with
          ⟨index, inside, rfl, written⟩ | ⟨-, kept⟩
        · rw [written]
          cases loaded : host.load (target.add index) with
          | none => rfl
          | some byte => rw [map_some, word asked target found index inside byte loaded]
        · exact kept
  · rw [putTid_eq_self wanted fun here => absurd here asked]
    exact iff_of_true (fun _ => rfl) fun here => absurd here asked

theorem hasWord_putTid (asked : wanted = true) :
    HasWord space (putTid wanted space host addr tid) addr tid := by
  intro pointer found index inside byte loaded
  rw [putTid_eq_store wanted asked found, load_store_add host pointer _ inside,
    map_eq_some_iff] at loaded
  obtain ⟨_, _, same⟩ := loaded
  exact same.symm

theorem putTid_grants :
    (putTid wanted space host addr tid).grants = host.grants ∧
      (putTid wanted space host addr tid).clock = host.clock := by
  cases wanted with
  | false => exact ⟨rfl, rfl⟩
  | true =>
    cases found : memTranslate space addr 4 memProtWrite with
    | none =>
      rw [putTid_eq_self true fun _ => found]
      exact ⟨rfl, rfl⟩
    | some pointer =>
      rw [putTid_eq_store true rfl found]
      cases pointer <;> exact ⟨rfl, rfl⟩

/-- A second store leaves the word of the first one, except for bytes that are written twice. -/
theorem hasWord_putTid_putTid {own other : UInt64} (first second : Bool) (asked : first = true)
    (again : second = true) :
    HasWord space (putTid second space (putTid first space host own tid) other tid) own tid ↔
      ∀ target target', memTranslate space own 4 memProtWrite = some target →
        memTranslate space other 4 memProtWrite = some target' →
        ∀ index < 4, ∀ index' < 4, target.add index = target'.add index' →
          (host.load (target.add index)).isSome = true →
            wordByte (UInt32.ofNat tid).toUInt64 index =
              wordByte (UInt32.ofNat tid).toUInt64 index' := by
  constructor
  · intro word target target' found found' index inside index' inside' same present
    obtain ⟨_, loaded⟩ := isSome_iff_exists.mp present
    refine (word target found index inside _ ?_).symm
    rw [putTid_eq_store second again found', same, load_store_add _ target' _ inside', ← same,
      putTid_eq_store first asked found, load_store_add host target _ inside, loaded]
    rfl
  · intro agree target found index inside byte loaded
    have written : ∀ byte, (putTid first space host own tid).load (target.add index) = some byte →
        byte = wordByte (UInt32.ofNat tid).toUInt64 index :=
      hasWord_putTid first asked target found index inside
    cases found' : memTranslate space other 4 memProtWrite with
    | none =>
      rw [putTid_eq_self second fun _ => found'] at loaded
      exact written byte loaded
    | some target' =>
      rw [putTid_eq_store second again found'] at loaded
      rcases load_store (putTid first space host own tid) target' 4
        (wordByte (UInt32.ofNat tid).toUInt64) (target.add index) with
          ⟨index', inside', same, stored⟩ | ⟨-, kept⟩
      · rw [stored, putTid_eq_store first asked found, load_store_add host target _ inside,
          map_map, map_eq_some_iff] at loaded
        obtain ⟨_, present, rfl⟩ := loaded
        exact (agree target target' found found' index inside index' inside' same
          (by rw [present]; rfl)).symm
      · rw [kept] at loaded
        exact written byte loaded

variable {parent : Space}

theorem sameBytes_request {granted : Bool} (asks : host.request = (granted, after)) :
    SameBytes host after := by
  cases asks
  exact ⟨rfl, rfl⟩

theorem cloneRegions_of_finished {regions copies : List Region}
    (clones : cloneRegions host regions = (true, copies, after)) :
    copies = regions.map lent ∧ SameBytes host after := by
  induction regions generalizing host copies after with
  | nil =>
    cases clones
    exact ⟨rfl, rfl, rfl⟩
  | cons region rest induction =>
    rw [cloneRegions] at clones
    split at clones
    · cases clones
    rename_i asked asks
    rcases more : cloneRegions asked rest with ⟨_, _, _⟩
    rw [more] at clones
    cases clones
    obtain ⟨rfl, same⟩ := induction more
    exact ⟨rfl, (sameBytes_request asks).trans same⟩

theorem sameBytes_saveRegions (regions : List Region) (nsaved : Nat) :
    SameBytes host (saveRegions host nsaved regions).2 := by
  induction regions generalizing host nsaved with
  | nil => exact ⟨rfl, rfl⟩
  | cons region rest induction =>
    rw [saveRegions]
    split
    · exact induction nsaved
    split
    · exact ⟨rfl, rfl⟩
    · exact (sameBytes_asked host).trans (induction (nsaved + 1))

theorem forkStart_eq_some {saved : List Saved}
    (starts : forkStart parent host = some (space, saved, after)) :
    space.regions = parent.regions.map lent ∧ SameBytes host after := by
  unfold forkStart at starts
  split at starts
  · cases starts
  rename_i asks
  split at starts
  · cases starts
  rename_i cloned clones
  split at starts
  rename_i saves
  split at starts
  · cases starts
  rename_i asks'
  cases starts
  have stored : SameBytes cloned (saveRegions cloned 0 parent.regions).2 :=
    sameBytes_saveRegions parent.regions 0
  rw [saves] at stored
  unfold memSpaceClone at clones
  split at clones
  · cases clones
  rename_i between between_eq
  rcases copies : cloneRegions between parent.regions with ⟨_, _, _⟩
  rw [copies] at clones
  dsimp only at clones
  split at clones
  · rename_i done
    cases clones
    subst done
    obtain ⟨rfl, same⟩ := cloneRegions_of_finished copies
    refine ⟨rfl, ?_⟩
    exact ((((sameBytes_request asks).trans (sameBytes_request between_eq)).trans
      same).trans stored).trans (sameBytes_request asks')
  · cases clones

theorem memTranslate_of_lent (lends : space.regions = parent.regions.map lent)
    (addr size : UInt64) (prot : UInt32) :
    memTranslate space addr size prot = memTranslate parent addr size prot := by
  have test : (fun region : Region => decide (region.Holds addr size)) ∘ lent =
      fun region => decide (region.Holds addr size) := rfl
  unfold memTranslate
  rw [lends, List.find?_map, test]
  cases parent.regions.find? fun region => region.Holds addr size <;> rfl

variable {args} {parent : Task} {child : Childhood}

theorem if_ne_zero_eq_iff {asked own : UInt64} :
    (if asked ≠ 0 then asked else own) = own ↔ (asked ≠ 0 → asked = own) := by
  split
  · rename_i nonzero
    exact ⟨fun same _ => same, fun same => same nonzero⟩
  · rename_i zero
    exact iff_of_true rfl fun nonzero => absurd nonzero zero

theorem if_eq_self_iff {wanted : Bool} {asked own : UInt64} :
    (if wanted then asked else own) = own ↔ (wanted = true → asked = own) := by
  cases wanted <;> simp

/-- The setup leaves an entry and its memory as they are exactly if nothing new is asked for. -/
theorem setupChild_eq_iff (task : Task) :
    ((setupChild args tid task host).1 = task ∧
        ∀ pointer, (setupChild args tid task host).2.load pointer = host.load pointer) ↔
      Matches args tid task.cpu task.mem host ∧
        (args.clearsChild = true → args.childTidptr = task.clearChildTid) := by
  have entry : (setupChild args tid task host).1 = task ↔
      (args.newsp ≠ 0 → args.newsp = task.cpu.sp) ∧
        (args.has cloneSettls = true → args.tls = task.cpu.tpidrEl0) ∧
          (args.clearsChild = true → args.childTidptr = task.clearChildTid) := by
    rw [← if_ne_zero_eq_iff, ← if_eq_self_iff, ← if_eq_self_iff]
    constructor
    · intro same
      have cpu := congrArg Task.cpu same
      exact ⟨congrArg Native.CpuState.sp cpu, congrArg Native.CpuState.tpidrEl0 cpu,
        congrArg Task.clearChildTid same⟩
    · rintro ⟨stack, tls, clear⟩
      simp only [setupChild, stack, tls, clear]
  have memory : (∀ pointer, (setupChild args tid task host).2.load pointer = host.load pointer) ↔
      (args.setsChild = true → HasWord task.mem host args.childTidptr tid) :=
    load_putTid_iff args.setsChild
  rw [entry]
  constructor
  · rintro ⟨⟨stack, tls, clear⟩, same⟩
    exact ⟨⟨stack, tls, memory.mp same⟩, clear⟩
  · rintro ⟨⟨stack, tls, word⟩, clear⟩
    exact ⟨⟨stack, tls, clear⟩, memory.mpr word⟩

theorem cloneFork_takesEffect_iff :
    TakesEffect args parent tid (cloneFork args parent host tid child) ↔
      ∀ space returned, procFork parent.mem host child.writes = some (space, returned) →
        Matches args tid parent.cpu parent.mem host ∧
          ∃ task, child.left = some task ∧ Matches args tid task.cpu task.mem returned ∧
            (args.clearsChild = true → args.childTidptr = task.clearChildTid) := by
  rw [procFork_eq_forkStart]
  unfold cloneFork
  cases starts : forkStart parent.mem host with
  | none =>
    refine iff_of_true ⟨?_, ?_, ?_, ?_, ?_⟩ ?_
    all_goals simp
  | some start =>
    obtain ⟨space, _, after⟩ := start
    obtain ⟨lends, same⟩ := forkStart_eq_some starts
    have word : HasWord space after args.childTidptr tid ↔
        HasWord parent.mem host args.childTidptr tid :=
      HasWord.congr (memTranslate_of_lent lends _ _ _) same.load_eq
    simp only [map_some, some.injEq, Prod.mk.injEq]
    cases found : child.left with
    | none =>
      refine iff_of_false (fun effect => ?_) fun harmless => ?_
      · have result := effect.result rfl
        simp at result
      · obtain ⟨-, _, absent, -⟩ := harmless _ _ ⟨rfl, rfl⟩
        cases absent
    | some task =>
      constructor
      · rintro effect _ _ ⟨rfl, rfl⟩
        have kept := (setupChild_eq_iff task).mp (effect.unchanged _ _ rfl)
        refine ⟨⟨?_, ?_, fun asked => word.mp (effect.word _ rfl asked)⟩, task, rfl, kept⟩
        · exact if_ne_zero_eq_iff.mp (effect.stack _ rfl).symm
        · exact if_eq_self_iff.mp (effect.tls _ rfl).symm
      · intro harmless
        obtain ⟨begins, _, here, ends⟩ := harmless _ _ ⟨rfl, rfl⟩
        cases here
        have kept := (setupChild_eq_iff task).mpr ends
        constructor
        · rintro _ ⟨⟩
          exact (if_ne_zero_eq_iff.mpr begins.stack).symm
        · rintro _ ⟨⟩
          exact (if_eq_self_iff.mpr begins.tls).symm
        · rintro _ ⟨⟩ asked
          exact word.mpr (begins.word asked)
        · rintro _ _ ⟨⟩
          exact kept
        · exact fun _ => rfl

theorem takesEffect_failed {result : Int} :
    TakesEffect args parent tid { result, started := none, changed := none } := by
  constructor
  · rintro _ ⟨⟩
  · rintro _ ⟨⟩
  · rintro _ ⟨⟩
  · rintro _ _ ⟨⟩
  · rintro ⟨⟩

theorem cloneShared_takesEffect_iff :
    TakesEffect args parent tid (cloneShared args parent host tid) ↔
      (host.grants host.clock = true → host.grants (host.clock + 1) = true →
        args.setsChild = true → args.setsParent = true → Agree args parent.mem host tid) := by
  unfold cloneShared
  rw [show host.request = (host.grants host.clock, host.asked) from rfl]
  cases granted : host.grants host.clock with
  | false =>
    refine iff_of_true takesEffect_failed fun impossible => ?_
    cases impossible
  | true =>
    dsimp only [setupChild]
    generalize settled : putTid args.setsParent parent.mem
      (putTid args.setsChild parent.mem host.asked args.childTidptr tid) args.parentTidptr tid =
        last
    have counted : last.request.1 = host.grants (host.clock + 1) := by
      rw [← settled, HostMemory.request, (putTid_grants _).1, (putTid_grants _).2,
        (putTid_grants _).1, (putTid_grants _).2]
      rfl
    rcases asks : last.request with ⟨_, final⟩
    rw [asks] at counted
    subst counted
    cases again : host.grants (host.clock + 1) with
    | false =>
      refine iff_of_true takesEffect_failed fun _ impossible => ?_
      cases impossible
    | true =>
      have word : (args.setsChild = true → HasWord parent.mem final args.childTidptr tid) ↔
          (args.setsChild = true → args.setsParent = true → Agree args parent.mem host tid) := by
        refine imp_congr_right fun asked => ?_
        rw [HasWord.congr rfl (sameBytes_request asks).load_eq, ← settled]
        by_cases both : args.setsParent = true
        · rw [hasWord_putTid_putTid args.setsChild args.setsParent asked both]
          exact ⟨fun agree _ => agree, fun agree => agree both⟩
        · rw [putTid_eq_self args.setsParent fun here => absurd here both]
          exact iff_of_true (hasWord_putTid args.setsChild asked) fun here => absurd here both
      constructor
      · intro effect _ _
        exact word.mp (effect.word _ rfl)
      · intro agree
        constructor
        · rintro _ ⟨⟩
          rfl
        · rintro _ ⟨⟩
          rfl
        · rintro _ ⟨⟩
          exact word.mpr (agree rfl rfl)
        · rintro _ _ ⟨⟩
        · exact fun _ => rfl

/-- The arguments of `clone` take effect in time exactly if they ask for nothing new. -/
theorem clone_takes_effect_iff (args : CloneArgs) (parent : Task) (host : HostMemory) (tid : Nat)
    (child : Childhood) :
    TakesEffect args parent tid (doClone args parent host tid child) ↔
      Harmless args parent host tid child := by
  unfold doClone Harmless
  split
  · exact cloneShared_takesEffect_iff
  · exact cloneFork_takesEffect_iff

/-- A processor in guest code with a stack. -/
def cpuAt (sp : UInt64) : Native.CpuState :=
  { x := fun _ => 0, sp, pc := 0x4000, nzcv := 0, tpidrEl0 := 0, running := true }

/-- A caller with one writable page. -/
def cloneCaller : Task := { cpu := cpuAt 0x10800, clearChildTid := 0, mem := forkSpace 1 }

/-- The entry of a child that has started another program, with memory of its own. -/
def otherImage : Task :=
  { cpu := cpuAt 0x20800
    clearChildTid := 0
    mem :=
      { memSpaceCreate with
        aotMode := true
        regions := (forkSpace 1).regions.map fun region =>
          { region with host := .direct 0x20000 } } }

/-- The stack and the words go to the program that the child has started, not to the child. -/
theorem clone_changes_other_image :
    (doClone ⟨0x11, by decide, 0x10400, 0, 0, 0⟩ cloneCaller forkHost 2
        ⟨[], some otherImage⟩).started.map (fun start => start.1.cpu.sp) = some 0x10800 ∧
      (doClone ⟨0x11, by decide, 0x10400, 0, 0, 0⟩ cloneCaller forkHost 2
        ⟨[], some otherImage⟩).changed.map
          (fun change => (change.1.1.cpu.sp, change.2.1.cpu.sp)) = some (0x20800, 0x10400) ∧
      (doClone ⟨0x01200011, by decide, 0, 0, 0, 0x10010⟩ cloneCaller forkHost 2
        ⟨[], some otherImage⟩).changed.map
          (fun change => (change.2.1.clearChildTid, change.1.1.mem.map change.1.2 0x10010,
            change.2.1.mem.map change.2.2 0x10010)) = some (0x10010, some (3, 7), some (3, 2)) ∧
      (doClone ⟨0x11, by decide, 0, 0, 0, 0⟩ cloneCaller forkHost 2 ⟨[], none⟩).result = -12 ∧
      (doClone ⟨0x11, by decide, 0, 0, 0, 0⟩ cloneCaller forkHost 2
        ⟨[], none⟩).started.isSome = true := by
  decide +kernel

end AlpineOnIOS.Process
