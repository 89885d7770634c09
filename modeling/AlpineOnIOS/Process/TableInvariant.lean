import AlpineOnIOS.Process.TableSteps
import Mathlib.Logic.Relation

/-!
# What every process table keeps

The order, the lock and the kinds of the places of the threads have an invariant of their own.  With
it, a step of the table is for each entry a few moves of that entry, and what concerns one entry at
a time is shown over the moves.
-/

namespace AlpineOnIOS.Process

open Foundation Process.System Proc

/-- A thread at this place holds `proc_lock`. -/
def Holds : Pc → Bool
  | .waiting _ (.scan _ _) | .waiting _ (.rescan _ _) | .exiting _ _ (.adopting _) => true
  | _ => false

/-- A thread at this place is in the table, holds no table lock and creates no other. -/
def Plain : Pc → Bool
  | .unborn | .creating _ _ _ | .gone => false
  | pc => !Holds pc

variable {pc : Pc}

@[grind →] theorem Plain.special (plain : Plain pc = true) :
    pc ≠ .unborn ∧ pc ≠ .gone ∧ (∀ forks child place, pc ≠ .creating forks child place) ∧
      Holds pc = false := by
  refine ⟨?_, ?_, ?_, ?_⟩
  · rintro rfl
    cases plain
  · rintro rfl
    cases plain
  · rintro forks child place rfl
    cases plain
  · unfold Plain at plain
    split at plain <;> simp_all

@[grind →] theorem Holds.special (holds : Holds pc = true) :
    pc ≠ .unborn ∧ pc ≠ .gone ∧ (∀ forks child place, pc ≠ .creating forks child place) := by
  refine ⟨?_, ?_, ?_⟩
  · rintro rfl
    cases holds
  · rintro rfl
    cases holds
  · rintro forks child place rfl
    cases holds

@[simp, grind =] theorem holds_creating (forks : Bool) (child : Nat) (place : CreatePlace) :
    Holds (.creating forks child place) = false := rfl

@[simp, grind =] theorem holds_unborn : Holds .unborn = false := rfl

@[simp, grind =] theorem holds_gone : Holds .gone = false := rfl

/-- Two places of one kind. -/
def SameKind (before after : Pc) : Prop :=
  after = before ∨ (Plain before = true ∧ Plain after = true) ∨
    (Holds before = true ∧ Holds after = true)

/-- What the steps do to the table: its order, its lock, and the kinds of the places. -/
inductive Shift (system next : System) : Prop where
  | quiet (order : next.order = system.order) (lock : next.procLock = system.procLock)
      (counter : next.pidCounter = system.pidCounter)
      (kinds : ∀ pid, SameKind (system.proc pid).pc (next.proc pid).pc)
  | acquire (pid : Nat) (order : next.order = system.order) (free : system.procLock = none)
      (lock : next.procLock = some pid) (counter : next.pidCounter = system.pidCounter)
      (before : Plain (system.proc pid).pc = true) (after : Holds (next.proc pid).pc = true)
      (others : ∀ other, other ≠ pid → (next.proc other).pc = (system.proc other).pc)
  | release (pid : Nat) (order : next.order = system.order) (lock : next.procLock = none)
      (counter : next.pidCounter = system.pidCounter)
      (before : Holds (system.proc pid).pc = true) (after : Plain (next.proc pid).pc = true)
      (others : ∀ other, other ≠ pid → (next.proc other).pc = (system.proc other).pc)
  | spawn (order : next.order = system.fresh :: system.order) (lock : next.procLock = none)
      (free : system.procLock = none) (counter : next.pidCounter = system.fresh)
      (after : Plain (next.proc system.fresh).pc = true)
      (others : ∀ other, other ≠ system.fresh → (next.proc other).pc = (system.proc other).pc)
  | create (pid : Nat) (forks : Bool) (order : next.order = system.order)
      (listed : pid ∈ system.order)
      (lock : next.procLock = system.procLock) (counter : next.pidCounter = system.fresh)
      (before : Plain (system.proc pid).pc = true)
      (after : (next.proc pid).pc = .creating forks system.fresh .add)
      (child : pid ≠ system.fresh → (next.proc system.fresh).pc = .unborn)
      (others : ∀ other, other ≠ pid → other ≠ system.fresh →
        (next.proc other).pc = (system.proc other).pc)
  | enlist (pid child : Nat) (forks : Bool) (order : next.order = child :: system.order)
      (lock : next.procLock = system.procLock) (counter : next.pidCounter = system.pidCounter)
      (before : (system.proc pid).pc = .creating forks child .add)
      (after : (next.proc pid).pc = .creating forks child .start)
      (others : ∀ other, other ≠ pid → (next.proc other).pc = (system.proc other).pc)
  | begin (pid child : Nat) (forks : Bool) (order : next.order = system.order)
      (lock : next.procLock = system.procLock) (counter : next.pidCounter = system.pidCounter)
      (before : (system.proc pid).pc = .creating forks child .start)
      (after : Plain (next.proc pid).pc = true)
      (begun : pid ≠ child → Plain (next.proc child).pc = true)
      (others : ∀ other, other ≠ pid → other ≠ child →
        (next.proc other).pc = (system.proc other).pc)
  | fail (pid child : Nat) (forks : Bool) (place : CreatePlace)
      (order : next.order = if place = .start then system.order.erase child else system.order)
      (lock : next.procLock = system.procLock) (counter : next.pidCounter = system.pidCounter)
      (before : (system.proc pid).pc = .creating forks child place)
      (after : Plain (next.proc pid).pc = true)
      (gone : pid ≠ child → (next.proc child).pc = .gone)
      (others : ∀ other, other ≠ pid → other ≠ child →
        (next.proc other).pc = (system.proc other).pc)
  | destroy (pid : Nat) (order : next.order = system.order.erase pid)
      (lock : next.procLock = system.procLock) (counter : next.pidCounter = system.pidCounter)
      (before : Plain (system.proc pid).pc = true) (after : (next.proc pid).pc = .gone)
      (others : ∀ other, other ≠ pid → (next.proc other).pc = (system.proc other).pc)

theorem plain_afterExit (signalled : Bool) : Plain (afterExit signalled) = true := by
  cases signalled <;> rfl

variable {pid : Nat} {proc : Proc} {action : Action}

theorem Own.plain {fatal : Prop} {proc' : Proc} (own : Own fatal pid proc action proc') :
    Plain proc.pc = true ∧ Plain proc'.pc = true := by
  cases own
  case releaseThread granted signalled status place thread =>
    rw [place]
    exact ⟨rfl, plain_afterExit signalled⟩
  all_goals simp_all [Plain, Holds, doExit]

variable {order : List Nat}

theorem Locks.plain {before after : Pc} (locks : Locks order before after) :
    Plain before = true := by
  cases locks <;> rfl

theorem Locks.holds {before after : Pc} (locks : Locks order before after) :
    Holds after = true := by
  cases locks <;> rfl

theorem holds_scanPlace (call : WaitCall) (again : Bool) (rest : List Nat) (found : Bool) :
    Holds (.waiting call (scanPlace again rest found)) = true := by
  cases again <;> rfl

theorem plain_scanEnd (proc : Proc) (call : WaitCall) (again found : Bool) :
    Plain (scanEnd proc call again found).pc = true := by
  unfold scanEnd
  split
  · rfl
  split
  · rfl
  split
  · split <;> rfl
  · rfl

@[simp] theorem adopt_pc (proc : Proc) (parent : Nat) : (proc.adopt parent).pc = proc.pc := by
  unfold adopt
  dsimp only
  split
  · rfl
  · split <;> rfl

@[simp] theorem begun_pc (parent child : Proc) (forks : Bool) :
    (begun parent child forks).pc = .enter := by
  cases forks <;> rfl

theorem sameKind_woken (proc : Proc) : SameKind proc.pc proc.woken.pc := by
  unfold woken
  split
  · rename_i place
    rw [place]
    exact .inr (.inl ⟨rfl, rfl⟩)
  · exact .inl rfl

variable {system next : System} {event : Event}

theorem Shift.quiet_set {tables : Nat → Nat → SigAction} {counter : Nat}
    (kind : SameKind (system.proc pid).pc proc.pc) :
    Shift system { system.set pid proc with sighands := tables, sighandCounter := counter } := by
  refine .quiet rfl rfl rfl fun other => ?_
  rw [set_proc]
  split
  · rename_i same
    subst same
    exact kind
  · exact .inl rfl

/-- One entry changes and then another, which may be the same. -/
theorem Shift.quiet_set_set {between : System} {target : Nat} {changed : Proc}
    (between_eq : between = system.set target changed)
    (first : SameKind (system.proc target).pc changed.pc)
    (second : SameKind (system.proc pid).pc proc.pc) : Shift system (between.set pid proc) := by
  subst between_eq
  refine .quiet rfl rfl rfl fun other => ?_
  rw [set_proc]
  split
  · rename_i same
    subst same
    exact second
  rw [set_proc]
  split
  · rename_i same
    subst same
    exact first
  · exact .inl rfl

theorem pc_of_set {between : System} {target : Nat} {changed : Proc}
    (between_eq : between = system.set target changed)
    (same : changed.pc = (system.proc target).pc) :
    (between.proc pid).pc = (system.proc pid).pc := by
  rw [between_eq, set_proc]
  split
  · rename_i hit
    rw [hit, same]
  · rfl

theorem Shift.pidCounter_le (shift : Shift system next) : system.pidCounter ≤ next.pidCounter := by
  have grown : system.pidCounter ≤ system.fresh := Nat.le_succ _
  cases shift with
  | spawn order lock free counter | create pid forks order listed lock counter =>
    exact counter ▸ grown
  | quiet order lock counter | acquire pid order free lock counter
  | release pid order lock counter | enlist pid child forks order lock counter
  | begin pid child forks order lock counter | fail pid child forks place order lock counter
  | destroy pid order lock counter => exact Nat.le_of_eq counter.symm

theorem Transition.shift (transition : Transition system event next) : Shift system next := by
  cases transition with
  | spawn tables counter free =>
    exact .spawn rfl free free rfl (by simp [spawned, Plain, Holds]) (fun other ne => by simp [ne])
  | send => exact .quiet_set (.inl rfl)
  | own pid action proc tables counter listed own => exact .quiet_set (.inr (.inl own.plain))
  | fork pid sighand tables counter listed free place =>
    refine .create pid true rfl listed rfl rfl (by simp [place, Plain, Holds]) (by simp)
      (fun ne => ?_) (fun other ne ne' => by simp [ne, ne'])
    simp [ne.symm, forked]
  | clone pid thread share sighand tables counter listed free place =>
    refine .create pid false rfl listed rfl rfl (by simp [place, Plain, Holds]) (by simp)
      (fun ne => ?_) (fun other ne ne' => by simp [ne, ne'])
    simp [ne.symm, cloned]
  | enlist pid child granted forks listed free place =>
    exact .enlist pid child forks rfl rfl rfl place (by simp) (fun other ne => by simp [ne])
  | begin pid child granted forks listed place =>
    refine .begin pid child forks rfl rfl rfl place ?_ (fun ne => ?_)
      (fun other ne ne' => by simp [ne, ne'])
    · cases forks <;> simp [Plain, Holds]
    · simp [ne.symm, Plain, Holds]
  | failAdd pid child forks listed place =>
    exact .fail pid child forks .add rfl rfl rfl place (by simp [Plain, Holds])
      (fun ne => by simp [ne.symm]) (fun other ne ne' => by simp [ne, ne'])
  | failStart pid child forks listed free place =>
    exact .fail pid child forks .start rfl rfl rfl place (by simp [Plain, Holds])
      (fun ne => by simp [ne.symm]) (fun other ne ne' => by simp [ne, ne'])
  | exitGroup pid code listed place =>
    refine .quiet rfl rfl rfl fun other => ?_
    unfold System.exitGroup
    dsimp only
    split
    · rename_i same
      subst same
      exact .inr (.inl (by simp [place, Plain, Holds, doExit]))
    · split <;> exact .inl rfl
  | lock pid granted after listed free locks =>
    refine .acquire pid rfl free rfl rfl ?_ ?_ (fun other ne => by simp [ne])
    · exact locks.plain
    · simp only [set_proc, if_true]
      exact locks.holds
  | pass pid granted call again child rest found listed place =>
    refine .quiet_set (.inr (.inr ⟨?_, holds_scanPlace _ _ _ _⟩))
    rw [place]
    exact holds_scanPlace _ _ _ _
  | reap pid granted call again child rest found listed place selected zombie reaped reaped_eq =>
    refine .release pid (by simp [reaped_eq]) rfl (by simp [reaped_eq]) ?_ ?_ (fun other ne => ?_)
    · rw [place]
      exact holds_scanPlace _ _ _ _
    · simp [waited, Plain, Holds]
    · rw [set_proc, if_neg ne]
      exact pc_of_set reaped_eq rfl
  | conclude pid granted call again found listed place =>
    refine .release pid rfl rfl rfl ?_ ?_ (fun other ne => by simp [ne])
    · rw [place]
      exact holds_scanPlace _ _ _ _
    · simp [plain_scanEnd]
  | adopt pid granted signalled status child rest listed place adopted adopted_eq =>
    refine .quiet_set_set adopted_eq (.inl (adopt_pc _ _)) ?_
    rw [place]
    exact .inr (.inr ⟨rfl, rfl⟩)
  | adopted pid granted signalled status listed place =>
    refine .release pid rfl rfl rfl ?_ ?_ (fun other ne => by simp [ne])
    · rw [place]
      rfl
    · simp [Plain, Holds]
  | search pid granted signalled status parent listed free place =>
    exact .quiet_set (.inr (.inl (by simp [place, Plain, Holds])))
  | orphan pid granted signalled status parent listed free place =>
    refine .quiet_set (.inr (.inl ⟨?_, plain_afterExit signalled⟩))
    simp [place, Plain, Holds]
  | signal pid granted signalled status parent listed place sent sent_eq =>
    refine .quiet_set_set sent_eq (.inl rfl) ?_
    rw [place]
    exact .inr (.inl ⟨rfl, rfl⟩)
  | broadcast pid granted signalled status parent listed place unlocked woken woken_eq =>
    refine .quiet_set_set woken_eq (sameKind_woken _) ?_
    rw [place]
    exact .inr (.inl ⟨rfl, plain_afterExit signalled⟩)
  | destroy pid granted listed free place =>
    exact .destroy pid rfl rfl rfl (by simp [place, Plain, Holds]) (by simp)
      (fun other ne => by simp [ne])

/-- Live entries are listed, a thread in a loop has the lock, and one thread creates another. -/
structure Tabled (system : System) : Prop where
  nodup : system.order.Nodup
  bounded : ∀ pid ∈ system.order, pid ≤ system.pidCounter
  unused : ∀ pid, system.pidCounter < pid → (system.proc pid).pc = .gone
  present : ∀ pid ∈ system.order, (system.proc pid).pc ≠ .gone
  listed : ∀ pid, (system.proc pid).pc ≠ .gone → (system.proc pid).pc ≠ .unborn →
    pid ∈ system.order
  unborn : ∀ pid forks child place, (system.proc pid).pc = .creating forks child place →
    (system.proc child).pc = .unborn ∧ child ≤ system.pidCounter ∧
      (child ∈ system.order ↔ place = .start)
  creator : ∀ pid pid' forks forks' child place place',
    (system.proc pid).pc = .creating forks child place →
    (system.proc pid').pc = .creating forks' child place' → pid = pid'
  holder : ∀ pid, system.procLock = some pid ↔ Holds (system.proc pid).pc = true

theorem Tabled.start : Tabled start where
  nodup := .nil
  bounded pid listed := by simp [System.start] at listed
  unused pid _ := rfl
  present pid listed := by simp [System.start] at listed
  listed pid live := by simp [System.start, blank] at live
  unborn pid forks child place creates := by simp [System.start, blank] at creates
  creator pid pid' forks forks' child place place' creates := by
    simp [System.start, blank] at creates
  holder pid := by simp [System.start, blank, Holds]

section

variable (tabled : Tabled system)

include tabled

theorem Tabled.shift_unused (shift : Shift system next) :
    ∀ pid, next.pidCounter < pid → (next.proc pid).pc = .gone := by
  have unused := tabled.unused
  have unborn := tabled.unborn
  cases shift <;> grind [fresh, SameKind]

theorem Tabled.shift_present (shift : Shift system next) :
    ∀ pid ∈ next.order, (next.proc pid).pc ≠ .gone := by
  have nodup := tabled.nodup
  have present := tabled.present
  have unborn := tabled.unborn
  cases shift <;> grind [fresh, SameKind]

theorem Tabled.shift_holder (shift : Shift system next) :
    ∀ pid, next.procLock = some pid ↔ Holds (next.proc pid).pc = true := by
  have holder := tabled.holder
  have unborn := tabled.unborn
  have unused := tabled.unused
  cases shift <;> grind [fresh, SameKind]

theorem Tabled.shift (shift : Shift system next) : Tabled next where
  nodup := by
    have nodup := tabled.nodup
    have bounded := tabled.bounded
    have unborn := tabled.unborn
    cases shift <;> grind [fresh, SameKind]
  bounded := by
    have bounded := tabled.bounded
    have unborn := tabled.unborn
    cases shift <;> grind [fresh, SameKind]
  unused := tabled.shift_unused shift
  present := tabled.shift_present shift
  listed := by
    have listed := tabled.listed
    have unborn := tabled.unborn
    cases shift <;> grind [fresh, SameKind]
  unborn := by
    have unborn := tabled.unborn
    have bounded := tabled.bounded
    have creator := tabled.creator
    cases shift <;> grind [fresh, SameKind]
  creator := by
    have creator := tabled.creator
    have unborn := tabled.unborn
    cases shift <;> grind [fresh, SameKind]
  holder := tabled.shift_holder shift

theorem Tabled.ne_fresh (listed : pid ∈ system.order) : pid ≠ system.fresh :=
  Nat.ne_of_lt (Nat.lt_succ_of_le (tabled.bounded pid listed))

theorem Tabled.ne_child {child : Nat} {forks : Bool} {place : CreatePlace}
    (creates : (system.proc pid).pc = .creating forks child place) :
    pid ≠ child := by
  rintro rfl
  have unborn := (tabled.unborn _ _ _ _ creates).1
  rw [creates] at unborn
  cases unborn

end

/-- The moves of a thread between its places. -/
inductive Walks (order : List Nat) : Pc → Pc → Prop where
  | create (forks : Bool) (child : Nat) : Walks order .user (.creating forks child .add)
  | enlist (forks : Bool) (child : Nat) :
      Walks order (.creating forks child .add) (.creating forks child .start)
  | fork (child : Nat) : Walks order (.creating true child .start) (.forking child)
  | created (forks : Bool) (child : Nat) (place : CreatePlace) :
      Walks order (.creating forks child place) .deliver
  | lock {before after : Pc} (locks : Locks order before after) : Walks order before after
  | pass (call : WaitCall) (again : Bool) (child : Nat) (rest : List Nat) (found found' : Bool) :
      Walks order (.waiting call (System.scanPlace again (child :: rest) found))
        (.waiting call (System.scanPlace again rest found'))
  | lockOwn (call : WaitCall) (found : Bool) :
      Walks order (.waiting call (.scan [] found)) (.waiting call .lockOwn)
  | sleep (call : WaitCall) (found : Bool) :
      Walks order (.waiting call (.rescan [] found)) (.waiting call .sleep)
  | adopt (signalled : Bool) (status : UInt32) (child : Nat) (rest : List Nat) :
      Walks order (.exiting signalled status (.adopting (child :: rest)))
        (.exiting signalled status (.adopting rest))
  | adopted (signalled : Bool) (status : UInt32) :
      Walks order (.exiting signalled status (.adopting [])) (.exiting signalled status .find)
  | search (signalled : Bool) (status : UInt32) (parent : Nat) :
      Walks order (.exiting signalled status (.search parent))
        (.exiting signalled status (.signal parent))
  | signal (signalled : Bool) (status : UInt32) (parent : Nat) :
      Walks order (.exiting signalled status (.signal parent))
        (.exiting signalled status (.broadcast parent))
  | destroy : Walks order .destroy .gone

/-- What a step does to the entry of `pid`. -/
inductive Moves (system : System) (event : Event) (pid : Nat) (proc : Proc) : Proc → Prop where
  | spawned (sighand : Nat) (new : pid = system.fresh) :
      Moves system event pid proc (spawned pid sighand)
  | forked (caller sighand : Nat) (new : pid = system.fresh)
      (place : (system.proc caller).pc = .user) :
      Moves system event pid proc (forked caller (system.proc caller) pid sighand)
  | cloned (caller sighand : Nat) (thread share : Bool) (new : pid = system.fresh)
      (clones : event = .act caller (.clone thread share))
      (place : (system.proc caller).pc = .user) :
      Moves system event pid proc (cloned thread (system.proc caller) pid sighand)
  | begun (parent : Proc) (forks : Bool) (unborn : proc.pc = .unborn) :
      Moves system event pid proc (System.begun parent proc forks)
  | dropped (unborn : proc.pc = .unborn) : Moves system event pid proc { proc with pc := .gone }
  | pending (mask : UInt64) : Moves system event pid proc { proc with sigPending := mask }
  | halted : Moves system event pid proc { proc with running := false }
  | own (action : Action) (acts : event = .act pid action) (same : proc = system.proc pid)
      {proc' : Proc} (own : Own (system.Fatal pid) pid proc action proc') :
      Moves system event pid proc proc'
  | exitGroup (code : UInt64) (acts : event = .act pid (.exitGroup code))
      (place : proc.pc = .user) : Moves system event pid proc (proc.doExit code)
  | walked (action : Action) (acts : event = .act pid action) {pc : Pc}
      (walks : Walks system.order proc.pc pc) :
      Moves system event pid proc { proc with pc := pc }
  | waited (action : Action) (acts : event = .act pid action) (call : WaitCall)
      (place : WaitPlace) (result : Int) (stray : Bool)
      (waits : proc.pc = .waiting call place)
      (hasty : stray = true → call.noHang = true ∧ call.status = .writable) :
      Moves system event pid proc (proc.waited result stray)
  | noticed (action : Action) (acts : event = .act pid action) (signalled : Bool)
      (status : UInt32) (place : ExitPlace)
      (exits : proc.pc = .exiting signalled status place)
      (last : (∃ parent, place = .search parent) ∨ ∃ parent, place = .broadcast parent) :
      Moves system event pid proc (proc.noticed signalled)
  | woken : Moves system event pid proc proc.woken
  | reaped (caller : Nat) (call : WaitCall) (again : Bool) (rest : List Nat) (found : Bool)
      (waits : (system.proc caller).pc =
        .waiting call (System.scanPlace again (pid :: rest) found))
      (same : proc = system.proc pid) (zombie : proc.state = .zombie)
      (child : proc.ppid = caller) :
      Moves system event pid proc (proc.reap caller call)
  | adopted (parent : Nat) (signalled : Bool) (status : UInt32) (rest : List Nat)
      (exits : (system.proc parent).pc = .exiting signalled status (.adopting rest)) :
      Moves system event pid proc (proc.adopt parent)

/-- The moves of an entry in one step. -/
abbrev MovesTo (system : System) (event : Event) (pid : Nat) : Proc → Proc → Prop :=
  Relation.ReflTransGen (Moves system event pid)

variable {target : Nat}

theorem MovesTo.set (moves : Moves system event target (system.proc target) proc) :
    MovesTo system event pid (system.proc pid) ((system.set target proc).proc pid) := by
  rw [set_proc]
  split
  · rename_i same
    subst same
    exact .single moves
  · exact .refl

variable {changed : Proc}

/-- A step that changes one entry and then another, which may be the same. -/
theorem MovesTo.set_set {actor : Nat} {between : System}
    (between_eq : between = system.set target changed)
    (moves : Moves system event target (system.proc target) changed)
    (acts : Moves system event actor (between.proc actor) proc) :
    MovesTo system event pid (system.proc pid) ((between.set actor proc).proc pid) := by
  have first (other : Nat) :
      MovesTo system event other (system.proc other) (between.proc other) := by
    rw [between_eq]
    exact .set moves
  rw [set_proc]
  split
  · rename_i same
    subst same
    exact (first pid).tail acts
  · exact first pid

theorem MovesTo.set_other {actor : Nat} (ne : actor ≠ target)
    (moves : Moves system event target (system.proc target) changed)
    (acts : Moves system event actor (system.proc actor) proc) :
    MovesTo system event pid (system.proc pid)
      (((system.set target changed).set actor proc).proc pid) := by
  refine .set_set rfl moves ?_
  rwa [set_proc, if_neg ne]

theorem moves_scanEnd {call : WaitCall} {again found : Bool} (acts : event = .act pid action)
    (place : proc.pc = .waiting call (scanPlace again [] found)) :
    Moves system event pid proc (scanEnd proc call again found) := by
  unfold scanEnd
  split
  · exact .waited action acts call _ _ _ place (by simp)
  split
  · rename_i again_eq
    rw [again_eq] at place
    exact .walked action acts (place ▸ .sleep call found)
  rename_i first
  split
  · rename_i noHang
    split
    · exact .waited action acts call _ _ _ place (by simp)
    · rename_i writable
      exact .waited action acts call _ _ _ place (fun _ => ⟨noHang, writable⟩)
    · exact .waited action acts call _ _ _ place (by simp)
  · rw [Bool.not_eq_true] at first
    rw [first] at place
    exact .walked action acts (place ▸ .lockOwn call found)

theorem Transition.moves (tabled : Tabled system) (transition : Transition system event next)
    (pid : Nat) : MovesTo system event pid (system.proc pid) (next.proc pid) := by
  cases transition with
  | spawn =>
    simp only [allocate_proc]
    split
    · rename_i new
      subst new
      exact .single (.spawned _ rfl)
    · exact .refl
  | send => exact .set (.pending _)
  | own actor action proc tables counter listed own => exact .set (.own action rfl rfl own)
  | fork caller sighand tables counter listed free place =>
    exact .set_other (tabled.ne_fresh listed) (.forked caller sighand rfl place)
      (.walked _ rfl (place ▸ .create true system.fresh))
  | clone caller thread share sighand tables counter listed free place =>
    exact .set_other (tabled.ne_fresh listed) (.cloned caller sighand thread share rfl rfl place)
      (.walked _ rfl (place ▸ .create false system.fresh))
  | enlist actor child granted forks listed free place =>
    exact .set (.walked _ rfl (place ▸ .enlist forks child))
  | begin actor child granted forks listed place =>
    refine .set_other (tabled.ne_child place) (.begun _ forks (tabled.unborn _ _ _ _ place).1)
      (.walked _ rfl ?_)
    rw [place]
    cases forks with
    | true => exact .fork child
    | false => exact .created false child .start
  | failAdd actor child forks listed place =>
    exact .set_other (tabled.ne_child place) (.dropped (tabled.unborn _ _ _ _ place).1)
      (.walked _ rfl (place ▸ .created forks child .add))
  | failStart actor child forks listed free place =>
    exact .set_other (tabled.ne_child place) (.dropped (tabled.unborn _ _ _ _ place).1)
      (.walked _ rfl (place ▸ .created forks child .start))
  | exitGroup actor code listed place =>
    unfold System.exitGroup
    dsimp only
    split
    · rename_i same
      subst same
      exact .single (.exitGroup code rfl place)
    · split
      · exact .single .halted
      · exact .refl
  | lock actor granted after listed free locks => exact .set (.walked _ rfl (.lock locks))
  | pass actor granted call again child rest found listed place =>
    exact .set (.walked _ rfl (place ▸ .pass call again child rest found _))
  | reap actor granted call again child rest found listed place selected zombie reaped reaped_eq =>
    have parent : (system.proc child).ppid = actor := by
      simp only [selects, Bool.and_eq_true, decide_eq_true_eq] at selected
      exact selected.1
    refine .set_set reaped_eq (.reaped actor call again rest found place rfl zombie parent) ?_
    refine .waited _ rfl call (scanPlace again (child :: rest) found) _ _ ?_ (by simp)
    exact (pc_of_set reaped_eq rfl).trans place
  | conclude actor granted call again found listed place => exact .set (moves_scanEnd rfl place)
  | adopt actor granted signalled status child rest listed place adopted adopted_eq =>
    refine .set_set adopted_eq (.adopted actor signalled status _ place) (.walked _ rfl ?_)
    rw [pc_of_set adopted_eq (adopt_pc _ _), place]
    exact .adopt signalled status child rest
  | adopted actor granted signalled status listed place =>
    exact .set (.walked _ rfl (place ▸ .adopted signalled status))
  | search actor granted signalled status parent listed free place =>
    exact .set (.walked _ rfl (place ▸ .search signalled status parent))
  | orphan actor granted signalled status parent listed free place =>
    exact .set (.noticed _ rfl signalled status _ place (.inl ⟨parent, rfl⟩))
  | signal actor granted signalled status parent listed place sent sent_eq =>
    refine .set_set sent_eq (.pending _) (.walked _ rfl ?_)
    rw [pc_of_set sent_eq rfl, place]
    exact .signal signalled status parent
  | broadcast actor granted signalled status parent listed place unlocked woken woken_eq =>
    refine .set_set woken_eq .woken (.noticed _ rfl signalled status _ ?_ (.inr ⟨parent, rfl⟩))
    rw [woken_eq, set_proc]
    split
    · rename_i same
      have awake : (system.proc actor).woken = system.proc actor := by
        simp [Proc.woken, place]
      rw [← same, awake, place]
      rw [same]
    · exact place
  | destroy actor granted listed free place => exact .set (.walked _ rfl (place ▸ .destroy))

end AlpineOnIOS.Process
