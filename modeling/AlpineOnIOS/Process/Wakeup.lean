import AlpineOnIOS.Process.Lifetime

/-!
# Sleeping parents and the children they wait for

A parent that goes to sleep in `proc_wait` has looked at all its children under its own lock, and
a child that has become a zombie since is still to signal it. `proc_wait` takes every entry whose
parent field is the number of the calling thread.
-/

namespace AlpineOnIOS.Process

open Foundation Process.System Proc List

variable {system next : System} {event : Event} {pid caller child : Nat} {proc proc' : Proc}

theorem Record.ne_zombie_of_alive (record : Record pid proc) (alive : phase proc.pc = .alive) :
    proc.state ≠ .zombie :=
  (record.life.alive alive).1.ne_zombie

/-- What the scan of a parent and the exit of a child look at. -/
structure SameFace (before after : Proc) : Prop where
  state : after.state = before.state
  ppid : after.ppid = before.ppid
  tgid : after.tgid = before.tgid
  pc : after.pc = before.pc

theorem SameFace.refl (proc : Proc) : SameFace proc proc := ⟨rfl, rfl, rfl, rfl⟩

theorem SameFace.trans {first second third : Proc} (front : SameFace first second)
    (back : SameFace second third) : SameFace first third :=
  ⟨back.state.trans front.state, back.ppid.trans front.ppid, back.tgid.trans front.tgid,
    back.pc.trans front.pc⟩

theorem adopt_face (parent : Nat) (zombie : (proc.adopt parent).state = .zombie) :
    SameFace proc (proc.adopt parent) := by
  unfold adopt at zombie ⊢
  dsimp only at zombie ⊢
  split at zombie
  · rename_i other
    rw [if_pos other]
    exact ⟨rfl, rfl, rfl, rfl⟩
  · split at zombie
    · cases zombie
    · rename_i alive
      exact absurd zombie alive

theorem woken_family (proc : Proc) :
    proc.woken.state = proc.state ∧ proc.woken.ppid = proc.ppid ∧ proc.woken.tgid = proc.tgid := by
  unfold woken
  split <;> exact ⟨rfl, rfl, rfl⟩

theorem scanEnd_family (proc : Proc) (call : WaitCall) (again found : Bool) :
    (scanEnd proc call again found).state = proc.state ∧
      (scanEnd proc call again found).ppid = proc.ppid ∧
        (scanEnd proc call again found).tgid = proc.tgid := by
  unfold scanEnd
  split
  · exact ⟨rfl, rfl, rfl⟩
  split
  · exact ⟨rfl, rfl, rfl⟩
  split
  · split <;> exact ⟨rfl, rfl, rfl⟩
  · exact ⟨rfl, rfl, rfl⟩

theorem Moves.face (move : Moves system event pid proc proc') (record : Record pid proc)
    (idle : ∀ action, event ≠ .act pid action) (zombie : proc'.state = .zombie) :
    SameFace proc proc' := by
  cases move with
  | spawned | forked | cloned | reaped => cases zombie
  | begun parent forks unborn =>
    have alive := record.ne_zombie_of_alive (by rw [unborn]; rfl)
    cases forks <;> exact absurd zombie alive
  | dropped unborn =>
    exact absurd zombie (record.ne_zombie_of_alive (by rw [unborn]; rfl))
  | pending | halted => exact ⟨rfl, rfl, rfl, rfl⟩
  | own action acts | walked action acts | waited action acts | noticed action acts =>
    exact absurd acts (idle action)
  | exitGroup code acts => exact absurd acts (idle _)
  | woken =>
    unfold Proc.woken at zombie ⊢
    split at zombie
    · rename_i place
      exact absurd zombie (record.ne_zombie_of_alive (by rw [place]; rfl))
    · exact .refl proc
  | adopted parent => exact adopt_face parent zombie

theorem MovesTo.face (moves : MovesTo system event pid proc proc') (record : Record pid proc)
    (idle : ∀ action, event ≠ .act pid action) (zombie : proc'.state = .zombie) :
    SameFace proc proc' := by
  induction moves using Relation.ReflTransGen.head_induction_on with
  | refl => exact .refl proc'
  | head move _ induction =>
    have later := induction (record.move move)
    exact (move.face record idle (later.state ▸ zombie)).trans later

variable {call : WaitCall} {place : WaitPlace}

/-- Only its own thread brings a process to a place of `proc_wait`, except that it can be woken. -/
theorem Moves.waiting
    (move : Moves system event pid proc proc') (idle : ∀ action, event ≠ .act pid action)
    (waits : proc'.pc = .waiting call place) (unwoken : place ≠ .woken) :
    proc.pc = .waiting call place := by
  cases move with
  | spawned | forked | cloned | dropped => cases waits
  | begun =>
    rw [begun_pc] at waits
    cases waits
  | pending | halted | reaped => exact waits
  | own action acts | walked action acts | waited action acts | noticed action acts =>
    exact absurd acts (idle action)
  | exitGroup code acts => exact absurd acts (idle _)
  | woken =>
    unfold Proc.woken at waits
    split at waits
    · cases waits
      exact absurd rfl unwoken
    · exact waits
  | adopted =>
    rw [adopt_pc] at waits
    exact waits

theorem MovesTo.waiting
    (moves : MovesTo system event pid proc proc') (idle : ∀ action, event ≠ .act pid action)
    (waits : proc'.pc = .waiting call place) (unwoken : place ≠ .woken) :
    proc.pc = .waiting call place := by
  induction moves with
  | refl => exact waits
  | tail _ move induction => exact induction (move.waiting idle waits unwoken)

/-- A zombie at this place is still to broadcast the condition variable of its parent. -/
def Noticing (parent : Nat) : Pc → Prop
  | .exiting _ _ .release | .exiting _ _ .reparent | .exiting _ _ (.adopting _)
  | .exiting _ _ .find => True
  | .exiting _ _ (.search found) | .exiting _ _ (.signal found)
  | .exiting _ _ (.broadcast found) => found = parent
  | _ => False

/-- The places of a zombie before it needs `proc_lock`. -/
def early : Pc → Bool
  | .exiting _ _ .release | .exiting _ _ .reparent => true
  | _ => false

theorem noticing_of_early {pc : Pc} (fresh : early pc = true) : Noticing caller pc := by
  unfold early at fresh
  split at fresh
  · trivial
  · trivial
  · cases fresh

/-- A child that a call of `wait4` looks for, and could have. -/
structure Awaits (system : System) (caller : Nat) (call : WaitCall) (child : Nat) : Prop where
  listed : child ∈ system.order
  main : (system.proc child).tgid = child
  selected : system.selects caller call child = true
  zombie : (system.proc child).state = .zombie

/-- The zombies that a scan has passed are early, and those of a sleeping parent will wake it. -/
structure Watched (system : System) : Prop where
  passed : ∀ {caller call again rest found child},
    (system.proc caller).pc = .waiting call (System.scanPlace again rest found) →
    Awaits system caller call child → child ∉ rest → early (system.proc child).pc = true
  asleep : ∀ {caller call place child}, (system.proc caller).pc = .waiting call place →
    place = .sleep ∨ place = .asleep → Awaits system caller call child →
    Noticing caller (system.proc child).pc

variable {again found : Bool} {rest : List Nat}

theorem scanPlace_inj {again' : Bool} {rest' : List Nat} {found' : Bool}
    (same : scanPlace again rest found = scanPlace again' rest' found') :
    again = again' ∧ rest = rest' ∧ found = found' := by
  cases again <;> cases again' <;> cases same <;> exact ⟨rfl, rfl, rfl⟩

variable {order : List Nat}

theorem Locks.scan_eq {before : Pc}
    (locks : Locks order before (.waiting call (scanPlace again rest found))) :
    rest = order ∧ found = false := by
  generalize after_eq : Pc.waiting call (scanPlace again rest found) = after at locks
  cases locks with
  | scan =>
    cases again with
    | true => cases after_eq
    | false =>
      cases after_eq
      exact ⟨rfl, rfl⟩
  | rescan =>
    cases again with
    | true =>
      cases after_eq
      exact ⟨rfl, rfl⟩
    | false => cases after_eq
  | adopt => cases after_eq

/-- How a thread comes to a place of a scan: it begins, or passes an entry. -/
inductive Scans (system : System) (caller : Nat) (call : WaitCall) (again : Bool) :
    List Nat → Bool → Prop where
  | begins : Scans system caller call again system.order false
  | passes (head : Nat) (rest : List Nat) (found : Bool)
      (place : (system.proc caller).pc =
        .waiting call (System.scanPlace again (head :: rest) found))
      (passed : system.selects caller call head = true → (system.proc head).state ≠ .zombie) :
      Scans system caller call again rest (found || system.selects caller call head)

variable {action : Action}

theorem Transition.scans (transition : Transition system (.act caller action) next)
    (place : (next.proc caller).pc = .waiting call (scanPlace again rest found)) :
    next.order = system.order ∧
      (∀ child, (next.proc child).ppid = (system.proc child).ppid) ∧
        Scans system caller call again rest found := by
  have holds : Holds (next.proc caller).pc = true := by
    rw [place]
    exact holds_scanPlace call again rest found
  have ppid (pc : Pc) (child : Nat) :
      ((system.set caller { system.proc caller with pc := pc }).proc child).ppid =
        (system.proc child).ppid := by
    rw [set_proc]
    split
    · rename_i same
      rw [same]
    · rfl
  cases transition with
  | own pid action proc tables counter listed own =>
    have plain := (Plain.special own.plain.2).2.2.2
    simp [plain] at holds
  | lock pid granted after listed free locks =>
    simp only [set_proc, if_true] at place
    rw [place] at locks
    obtain ⟨rfl, rfl⟩ := locks.scan_eq
    exact ⟨rfl, ppid after, .begins⟩
  | pass pid granted call' again' head rest' found' listed place' passed =>
    simp only [set_proc, if_true, Pc.waiting.injEq] at place
    obtain ⟨rfl, same⟩ := place
    obtain ⟨rfl, rfl, rfl⟩ := scanPlace_inj same
    exact ⟨rfl, ppid _, .passes head rest' found' place' passed⟩
  | conclude pid granted call' again' found' =>
    have plain :=
      (Plain.special (plain_scanEnd (system.proc caller) call' again' found')).2.2.2
    simp [plain] at holds
  | begin pid child granted forks => cases forks <;> simp [Holds] at holds
  | orphan pid granted signalled | broadcast pid granted signalled =>
    cases signalled <;> simp [Holds, noticed, afterExit] at holds
  | _ => simp_all [waited, System.exitGroup, doExit]

theorem Transition.sleeping (transition : Transition system (.act caller action) next)
    (waits : (next.proc caller).pc = .waiting call place)
    (sleeps : place = .sleep ∨ place = .asleep) :
    next.order = system.order ∧ ((system.proc caller).pc = .waiting call .sleep ∨
      ∃ again found, (system.proc caller).pc = .waiting call (scanPlace again [] found)) := by
  cases transition with
  | own pid action proc tables counter listed own =>
    simp only [set_proc, if_true] at waits
    cases own
    case sleep granted call' before =>
      cases waits
      exact ⟨rfl, .inl before⟩
    case releaseThread granted signalled status before thread =>
      cases signalled <;> cases waits
    all_goals cases waits <;> rcases sleeps with same | same <;> cases same
  | lock pid granted after listed free locks =>
    simp only [set_proc, if_true] at waits
    have holds := locks.holds
    rw [waits] at holds
    rcases sleeps with rfl | rfl <;> cases holds
  | pass pid granted call' again' =>
    simp only [set_proc, if_true, Pc.waiting.injEq] at waits
    obtain ⟨-, rfl⟩ := waits
    cases again' <;> rcases sleeps with same | same <;> cases same
  | conclude pid granted call' again' found' listed place' =>
    refine ⟨rfl, .inr ⟨again', found', ?_⟩⟩
    simp only [set_proc, if_true, scanEnd] at waits
    split at waits
    · cases waits
    split at waits
    · cases waits
      exact place'
    split at waits
    · split at waits <;> cases waits
    · cases waits
      rcases sleeps with same | same <;> cases same
  | begin pid child granted forks => cases forks <;> simp at waits
  | orphan pid granted signalled | broadcast pid granted signalled =>
    cases signalled <;> simp [noticed, afterExit] at waits
  | _ => simp_all [waited, System.exitGroup, doExit]

variable {fatal : Prop}

section

variable (own : Own fatal pid proc action proc')

include own

theorem Own.family : proc'.ppid = proc.ppid ∧ proc'.tgid = proc.tgid := by
  cases own <;> exact ⟨rfl, rfl⟩

theorem Own.zombie_or (zombie : proc'.state = .zombie) :
    early proc'.pc = true ∨ proc.state = .zombie := by
  cases own
  case zombie => exact .inl rfl
  case continued => cases zombie
  case stopped => cases zombie
  all_goals exact .inr zombie

theorem Own.early
    (main : proc.tgid = pid) (fresh : early proc.pc = true) : early proc'.pc = true := by
  cases own
  case release => rfl
  case releaseThread granted signalled status place thread => exact absurd main thread
  all_goals simp_all [Process.early]

theorem Own.noticing (main : proc.tgid = pid) (notices : Noticing proc.ppid proc.pc) :
    Noticing proc.ppid proc'.pc := by
  cases own
  case release => trivial
  case releaseThread granted signalled status place thread => exact absurd main thread
  case find => rfl
  all_goals simp_all [Noticing]

end

section

variable (transition : Transition system (.act child action) next)

include transition

/-- A thread whose entry is a zombie has just made it one, or it was one. -/
theorem Transition.zombie_acts
    (zombie : (next.proc child).state = .zombie) :
    early (next.proc child).pc = true ∨ ((system.proc child).state = .zombie ∧
      (next.proc child).ppid = (system.proc child).ppid ∧
        (next.proc child).tgid = (system.proc child).tgid) := by
  cases transition with
  | own pid action proc tables counter listed own =>
    simp only [set_proc, if_true] at zombie ⊢
    exact (own.zombie_or zombie).imp_right fun before => ⟨before, own.family⟩
  | reap pid granted call again head rest found listed place selected zombie' reaped reaped_eq =>
    right
    simp only [set_proc, if_true, reaped_eq, waited] at zombie ⊢
    split at zombie
    · cases zombie
    · rename_i other
      simp [other, zombie]
  | conclude pid granted call again found =>
    obtain ⟨state, family⟩ := scanEnd_family (system.proc child) call again found
    simp only [set_proc, if_true] at zombie ⊢
    exact .inr ⟨state ▸ zombie, family⟩
  | adopt pid granted signalled status head rest listed place adopted adopted_eq =>
    right
    simp only [set_proc, if_true, adopted_eq] at zombie ⊢
    split at zombie
    · rename_i same
      subst same
      have face := adopt_face child zombie
      rw [if_pos rfl]
      exact ⟨face.state ▸ zombie, face.ppid, face.tgid⟩
    · rename_i other
      simp [other, zombie]
  | signal pid granted signalled status parent listed place sent sent_eq =>
    right
    simp only [set_proc, if_true, sent_eq] at zombie ⊢
    split at zombie
    · rename_i same
      simp [same] at zombie ⊢
      exact zombie
    · rename_i other
      simp [other, zombie]
  | broadcast pid granted signalled status parent listed place unlocked woken woken_eq =>
    obtain ⟨state, family⟩ := woken_family (system.proc child)
    simp only [set_proc, if_true, woken_eq, noticed] at zombie ⊢
    split at zombie
    · rename_i same
      subst same
      rw [if_pos rfl]
      exact .inr ⟨state ▸ zombie, family⟩
    · rename_i other
      simp [other, zombie]
  | _ => simp_all [System.exitGroup, doExit, noticed]

theorem Transition.early_of_locked
    (tabled : Tabled system) (other : caller ≠ child) (locked : system.procLock = some caller)
    (main : (system.proc child).tgid = child) (fresh : early (system.proc child).pc = true) :
    early (next.proc child).pc = true := by
  have unheld : Holds (system.proc child).pc = false := by
    by_contra held
    have mine := (tabled.holder child).mpr (by simpa using held)
    rw [locked] at mine
    exact other (Option.some.inj mine)
  cases transition with
  | own pid action proc tables counter listed own =>
    simp only [set_proc, if_true]
    exact own.early main fresh
  | _ => simp_all [early, scanPlace]

omit transition in
theorem Locks.noticing {before after : Pc} (locks : Locks order before after)
    (notices : Noticing caller before) : Noticing caller after := by
  cases locks with
  | scan | rescan => exact notices
  | adopt => trivial

/-- The thread of a zombie comes nearer to the parent that sleeps, until it wakes it. -/
theorem Transition.noticing
    (other : caller ≠ child) (listed : caller ∈ system.order)
    (main : (system.proc child).tgid = child) (parent : (system.proc child).ppid = caller)
    (notices : Noticing caller (system.proc child).pc) :
    Noticing caller (next.proc child).pc ∨ ((system.proc caller).locked = false ∧
      (next.proc caller).pc = (system.proc caller).woken.pc) := by
  cases transition with
  | own pid action proc tables counter listed own =>
    simp only [set_proc, if_true]
    subst parent
    exact .inl (own.noticing main notices)
  | lock pid granted after listed free locks =>
    simp only [set_proc, if_true]
    exact .inl (locks.noticing notices)
  | pass pid granted call again head rest found listed place
  | reap pid granted call again head rest found listed place
  | conclude pid granted call again found listed place =>
    rw [place] at notices
    exact notices.elim
  | broadcast pid granted signalled status found listed place unlocked woken woken_eq =>
    rw [place] at notices
    have found_eq : found = caller := notices
    subst found_eq
    exact .inr ⟨unlocked, by simp [woken_eq, other]⟩
  | _ => simp_all [Noticing]

end

theorem Transition.listed_before (transition : Transition system event next)
    (tabled : Tabled system) (tabled' : Tabled next) (record : Record child (system.proc child))
    (listed : child ∈ next.order) (zombie : (next.proc child).state = .zombie) :
    child ∈ system.order := by
  by_cases acts : ∃ action, event = .act child action
  · obtain ⟨_, rfl⟩ := acts
    exact transition.listed_of_act
  have idle : ∀ action, event ≠ .act child action := fun action same => acts ⟨action, same⟩
  have face := (transition.moves tabled child).face record idle zombie
  have dead : phase (system.proc child).pc ≠ .alive := fun alive =>
    record.ne_zombie_of_alive alive (face.state ▸ zombie)
  refine tabled.listed child ?_ ?_
  · rw [← face.pc]
    exact tabled'.present child listed
  · intro unborn
    rw [unborn] at dead
    exact dead rfl

/-- A child that a parent waits for was there before, if it was a zombie. -/
theorem Awaits.before (awaits : Awaits next caller call child)
    (listed : child ∈ system.order) (zombie : (system.proc child).state = .zombie)
    (ppid : (next.proc child).ppid = (system.proc child).ppid)
    (tgid : (next.proc child).tgid = (system.proc child).tgid) :
    Awaits system caller call child where
  listed := listed
  main := tgid.symm.trans awaits.main
  selected := by
    have selected := awaits.selected
    rw [selects, ppid] at selected
    exact selected
  zombie := zombie

theorem Awaits.ppid_eq (awaits : Awaits system caller call child) :
    (system.proc child).ppid = caller := by
  have selected := awaits.selected
  simp only [selects, Bool.and_eq_true, decide_eq_true_eq] at selected
  exact selected.1

/-- Before a step the child has just died, it acts, or nothing has happened to it. -/
inductive Before (system next : System) (event : Event) (caller : Nat) (call : WaitCall)
    (child : Nat) : Prop where
  | fresh (early : early (next.proc child).pc = true)
  | acts (action : Action) (event_eq : event = .act child action)
      (awaits : Awaits system caller call child)
  | idle (same : (next.proc child).pc = (system.proc child).pc)
      (awaits : Awaits system caller call child)

theorem Awaits.ne (records : ∀ pid, Record pid (system.proc pid))
    (waits : (system.proc caller).pc = .waiting call place)
    (awaits : Awaits system caller call child) : caller ≠ child := by
  rintro rfl
  exact (records caller).ne_zombie_of_alive (by rw [waits]; rfl) awaits.zombie

section Steps

variable (tabled : Tabled system) (records : ∀ pid, Record pid (system.proc pid))
  (transition : Transition system event next)

include tabled records transition

theorem Awaits.cases (awaits : Awaits next caller call child) :
    Before system next event caller call child := by
  have listed := transition.listed_before tabled (tabled.shift transition.shift) (records child)
    awaits.listed awaits.zombie
  by_cases acts : ∃ action, event = .act child action
  · obtain ⟨action, rfl⟩ := acts
    rcases transition.zombie_acts awaits.zombie with fresh | ⟨zombie, ppid, tgid⟩
    · exact .fresh fresh
    · exact .acts action rfl (awaits.before listed zombie ppid tgid)
  · have idle : ∀ action, event ≠ .act child action := fun action same => acts ⟨action, same⟩
    have face := (transition.moves tabled child).face (records child) idle awaits.zombie
    exact .idle face.pc
      (awaits.before listed (face.state.symm.trans awaits.zombie) face.ppid face.tgid)

theorem Watched.passed_step (watched : Watched system)
    (place : (next.proc caller).pc = .waiting call (scanPlace again rest found))
    (awaits : Awaits next caller call child) (ne : caller ≠ child) (unpassed : child ∉ rest) :
    early (next.proc child).pc = true := by
  by_cases acts : ∃ action, event = .act caller action
  · obtain ⟨_, rfl⟩ := acts
    cases awaits.cases tabled records transition with
    | fresh early => exact early
    | acts other event_eq => exact absurd (Event.act.inj event_eq).1 ne
    | idle same before =>
      rw [same]
      obtain ⟨-, -, scans⟩ := transition.scans place
      cases scans with
      | begins => exact absurd before.listed unpassed
      | passes head _ found' place' passed =>
        refine watched.passed place' before fun among => ?_
        rcases List.mem_cons.mp among with rfl | later
        · exact passed before.selected before.zombie
        · exact unpassed later
  · have idle : ∀ action, event ≠ .act caller action := fun action same => acts ⟨action, same⟩
    have place' := (transition.moves tabled caller).waiting idle place
      (by cases again <;> simp [scanPlace])
    have locked : system.procLock = some caller :=
      (tabled.holder caller).mpr (by rw [place']; exact holds_scanPlace _ _ _ _)
    cases awaits.cases tabled records transition with
    | fresh early => exact early
    | acts action event_eq before =>
      subst event_eq
      exact transition.early_of_locked tabled ne locked before.main
        (watched.passed place' before unpassed)
    | idle same before =>
      rw [same]
      exact watched.passed place' before unpassed

theorem Watched.asleep_step (watched : Watched system)
    (waits : (next.proc caller).pc = .waiting call place)
    (sleeps : place = .sleep ∨ place = .asleep) (awaits : Awaits next caller call child)
    (ne : caller ≠ child) : Noticing caller (next.proc child).pc := by
  by_cases acts : ∃ action, event = .act caller action
  · obtain ⟨_, rfl⟩ := acts
    cases awaits.cases tabled records transition with
    | fresh early => exact noticing_of_early early
    | acts other event_eq => exact absurd (Event.act.inj event_eq).1 ne
    | idle same before =>
      rw [same]
      obtain ⟨-, still | ⟨_, _, ends⟩⟩ := transition.sleeping waits sleeps
      · exact watched.asleep still (.inl rfl) before
      · exact noticing_of_early (watched.passed ends before List.not_mem_nil)
  have idle : ∀ action, event ≠ .act caller action := fun action same => acts ⟨action, same⟩
  have waits' := (transition.moves tabled caller).waiting idle waits
    (by rcases sleeps with rfl | rfl <;> simp)
  cases awaits.cases tabled records transition with
  | fresh early => exact noticing_of_early early
  | acts action event_eq before =>
    subst event_eq
    have listed : caller ∈ system.order :=
      tabled.listed caller (by simp [waits']) (by simp [waits'])
    have notices := watched.asleep waits' sleeps before
    rcases transition.noticing ne listed before.main before.ppid_eq notices with
      still | ⟨unlocked, woken⟩
    · exact still
    -- a parent that sleeps holds its lock, and one that is asleep is woken now
    rcases sleeps with rfl | rfl
    · simp [locked, waits'] at unlocked
    · simp [Proc.woken, waits', waits] at woken
  | idle same before =>
    rw [same]
    exact watched.asleep waits' sleeps before

end Steps

theorem Watched.step (watched : Watched system) (recorded : Recorded system)
    (steps : system.step event = some next) : Watched next := by
  have transition := transition_of_step steps
  obtain ⟨-, records'⟩ := recorded.step steps
  obtain ⟨tabled, records⟩ := recorded
  constructor
  · intro caller call again rest found child place awaits unpassed
    exact watched.passed_step tabled records transition place awaits (awaits.ne records' place)
      unpassed
  · intro caller call place child waits sleeps awaits
    exact watched.asleep_step tabled records transition waits sleeps awaits
      (awaits.ne records' waits)

theorem Watched.start : Watched .start where
  passed place := by simp [System.start, blank] at place
  asleep waits := by simp [System.start, blank] at waits

theorem watched_run {events : List Event} (reached : run step .start events = some system) :
    Watched system :=
  (records_rule Watched (fun recorded steps watched => watched.step recorded steps) .start .start
    reached).2

variable {system next : System} {event : Event} {events : List Event} {pid caller : Nat}
  {proc proc' : Proc}

/-- A clone with `CLONE_VM`, which makes a thread or a process that shares the memory. -/
def clones : Event → Bool
  | .act _ (.clone _ _) => true
  | _ => false

/-- A process of its own, whose parent field is the process that has created or inherited it. -/
def Parented (pid : Nat) (proc : Proc) : Prop :=
  proc.pc ≠ .gone → proc.tgid = pid ∧ proc.ppid = proc.history.guardian

theorem Parented.adopt (parented : Parented pid proc) (parent : Nat) :
    Parented pid (proc.adopt parent) := by
  intro live
  rw [adopt_pc] at live
  obtain ⟨main, ppid⟩ := parented live
  refine ⟨(adopt_tgid proc parent).trans main, ?_⟩
  unfold Proc.adopt
  dsimp only
  rw [← ppid]
  split
  · rfl
  · rename_i mine
    split <;> simp_all

theorem Parented.move (single : clones event = false)
    (parents : ∀ pid, Parented pid (system.proc pid)) (parented : Parented pid proc)
    (move : Moves system event pid proc proc') : Parented pid proc' := by
  cases move with
  | spawned => exact fun _ => ⟨rfl, rfl⟩
  | forked caller sighand new place =>
    exact fun _ => ⟨rfl, (parents caller (by simp [place])).1.symm⟩
  | cloned caller sighand thread share new acts =>
    rw [acts] at single
    cases single
  | begun parent forks unborn =>
    intro _
    have same := parented (by simp [unborn])
    cases forks <;> exact same
  | dropped => exact fun live => absurd rfl live
  | pending | halted => exact parented
  | own action acts same own =>
    intro _
    have before := (Plain.special own.plain.1).2.1
    cases own <;> exact parented before
  | exitGroup code acts place => exact fun _ => parented (by simp [place])
  | walked action acts walks =>
    intro _
    refine parented fun gone => ?_
    rw [gone] at walks
    cases walks with
    | lock locks => cases locks
  | waited action acts call place result stray waits =>
    exact fun _ => parented (by simp [waits])
  | noticed action acts signalled status place exits =>
    exact fun _ => parented (by simp [exits])
  | woken =>
    unfold Proc.woken
    split
    · rename_i place
      exact fun _ => parented (by simp [place])
    · exact parented
  | reaped caller call again rest found waits same =>
    intro live
    have same := parented live
    unfold Proc.reap
    split <;> exact same
  | adopted parent => exact parented.adopt parent

/-- Without clones every entry has the parent that has made or inherited it. -/
theorem parented_run (reached : run step .start events = some system)
    (single : Along step (fun _ event => clones event = false) .start events) (pid : Nat) :
    Parented pid (system.proc pid) := by
  have kept := invariant_run (fun system => Tabled system ∧ ∀ pid, Parented pid (system.proc pid))
    (fun {state event next} single steps kept => ?_)
    single reached ⟨.start, fun pid live => absurd rfl live⟩
  · exact kept.2 pid
  · exact ⟨kept.1.shift (transition_of_step steps).shift,
      laws_step Parented (fun move parented => parented.move single kept.2 move) kept.1 steps
        kept.2⟩

/-- What a scan has seen: the entries before the rest, and whether one of them was selected. -/
structure Scanned (system : System) : Prop where
  seen : ∀ {caller call again rest found},
    (system.proc caller).pc = .waiting call (System.scanPlace again rest found) →
      ∃ visited, system.order = visited ++ rest ∧
        found = visited.any (system.selects caller call)

theorem Moves.ppid (move : Moves system event pid proc proc') :
    proc'.ppid = proc.ppid ∨ pid = system.fresh ∨
      ∃ parent, Holds (system.proc parent).pc = true ∧
        ∀ call place, (system.proc parent).pc ≠ .waiting call place := by
  cases move with
  | spawned sighand new | forked caller sighand new | cloned caller sighand thread share new =>
    exact .inr (.inl new)
  | begun parent forks => cases forks <;> exact .inl rfl
  | own action acts same own => exact .inl own.family.1
  | woken => exact .inl (woken_family proc).2.1
  | adopted parent signalled status rest exits =>
    exact .inr (.inr ⟨parent, by rw [exits]; rfl, by simp [exits]⟩)
  | _ => exact .inl rfl

variable {call : WaitCall} {again found : Bool} {rest : List Nat}

/-- While a parent scans, the table and the parents of its entries do not change. -/
theorem Transition.kept_of_scan (transition : Transition system event next) (tabled : Tabled system)
    (place : (system.proc caller).pc = .waiting call (scanPlace again rest found))
    (idle : ∀ action, event ≠ .act caller action) :
    next.order = system.order ∧
      ∀ child ∈ system.order, (next.proc child).ppid = (system.proc child).ppid := by
  have locked : system.procLock = some caller :=
    (tabled.holder caller).mpr (by rw [place]; exact holds_scanPlace _ _ _ _)
  constructor
  · cases transition with
    | exitGroup => rfl
    | _ => simp_all
  · intro child listed
    have moves := transition.moves tabled child
    generalize next.proc child = last at moves
    induction moves with
    | refl => rfl
    | tail _ move induction =>
      rcases move.ppid with same | new | ⟨parent, holds, elsewhere⟩
      · rw [same]
        exact induction
      · exact absurd new (tabled.ne_fresh listed)
      have mine := (tabled.holder parent).mpr holds
      rw [locked, Option.some.injEq] at mine
      exact absurd (mine ▸ place) (elsewhere _ _)

theorem selects_congr {child : Nat} (same : (next.proc child).ppid = (system.proc child).ppid) :
    next.selects caller call child = system.selects caller call child := by
  rw [selects, selects, same]

theorem Scanned.step (scanned : Scanned system) (tabled : Tabled system)
    (transition : Transition system event next) : Scanned next := by
  constructor
  intro caller call again rest found place
  by_cases acts : ∃ action, event = .act caller action
  · obtain ⟨_, rfl⟩ := acts
    obtain ⟨order, ppid, scans⟩ := transition.scans place
    have same : next.selects caller call = system.selects caller call :=
      funext fun child => selects_congr (ppid child)
    rw [order, same]
    cases scans with
    | begins => exact ⟨[], rfl, rfl⟩
    | passes head _ found' place' =>
      obtain ⟨visited, order', found_eq⟩ := scanned.seen place'
      refine ⟨visited ++ [head], ?_, ?_⟩
      · rw [order', append_assoc, singleton_append]
      · rw [found_eq, any_append, any_cons, any_nil, Bool.or_false]
  · have idle : ∀ action, event ≠ .act caller action := fun action same => acts ⟨action, same⟩
    have place' := (transition.moves tabled caller).waiting idle place
      (by cases again <;> simp [scanPlace])
    obtain ⟨order, ppid⟩ := transition.kept_of_scan tabled place' idle
    obtain ⟨visited, order', found_eq⟩ := scanned.seen place'
    refine ⟨visited, order.trans order', found_eq.trans ?_⟩
    rw [Bool.eq_iff_iff, any_eq_true, any_eq_true]
    refine exists_congr fun child => and_congr_right fun among => ?_
    have listed : child ∈ system.order := order' ▸ mem_append_left rest among
    rw [selects_congr (ppid child listed)]

theorem scanned_run (reached : run step .start events = some system) : Scanned system :=
  (records_rule Scanned
    (fun recorded steps scanned => scanned.step recorded.1 (transition_of_step steps)) .start
    ⟨fun place => by simp [start, blank] at place⟩ reached).2

theorem step_scan (listed : caller ∈ system.order)
    (place : (system.proc caller).pc = .waiting call (scanPlace again rest found))
    (granted : Bool) :
    system.step (.act caller (.advance granted)) =
      some (system.scanRound caller call again rest found) := by
  cases again <;>
    simp [step, act, System.advance, scanPlace, listed, place]

theorem Scanned.at_end (scanned : Scanned system)
    (place : (system.proc caller).pc = .waiting call (scanPlace again [] found)) :
    found = system.order.any (system.selects caller call) := by
  obtain ⟨_, order, found_eq⟩ := scanned.seen place
  rw [append_nil] at order
  rw [order]
  exact found_eq

theorem results_scanRound :
    ((system.scanRound caller call again rest found).proc caller).history.results =
        -10 :: (system.proc caller).history.results ↔ rest = [] ∧ found = false := by
  cases rest with
  | nil =>
    simp only [scanRound, set_proc, if_true, scanEnd]
    split
    · rename_i none
      simp [Proc.waited, none]
    rename_i some
    split
    · simp [some]
    split
    · split <;> simp [Proc.waited, some]
    · simp [some]
  | cons =>
    refine iff_of_false (fun returned => ?_) (by simp)
    unfold scanRound at returned
    dsimp only at returned
    split at returned
    · split at returned
      · simp only [set_proc, if_true, Proc.waited] at returned
        have result := (cons.inj returned).1
        split at result <;> omega
      · simp at returned
    · simp at returned

/-- The entries that the loops of `proc_wait` take. -/
def Considered (system : System) (caller : Nat) (call : WaitCall) (child : Nat) : Prop :=
  child ∈ system.order ∧ system.selects caller call child = true

/-- The unreaped children of the caller's process, by process number or process group. -/
structure Waitable (system : System) (caller : Nat) (call : WaitCall) (child : Nat) : Prop where
  listed : child ∈ system.order
  process : (system.proc child).tgid = child
  unreaped : (system.proc child).state ≠ .dead
  parent : (system.proc child).history.guardian = (system.proc caller).tgid
  number : 0 < call.pid → call.pid = child
  ownGroup : call.pid = 0 → (system.proc child).pgid = (system.proc caller).pgid
  group : call.pid < -1 → (system.proc child).pgid = -call.pid

/-- The entries asked for are not reaped, and in the process group that is asked for. -/
def Regular (system : System) (caller : Nat) (call : WaitCall) : Prop :=
  ∀ child ∈ system.order, (system.proc child).ppid = caller →
    call.pid ≤ 0 ∨ call.pid = child →
      (system.proc child).state ≠ .dead ∧
        (call.pid = 0 → (system.proc child).pgid = (system.proc caller).pgid) ∧
          (call.pid < -1 → (system.proc child).pgid = -call.pid)

theorem considered_iff {child : Nat} :
    Considered system caller call child ↔
      child ∈ system.order ∧ (system.proc child).ppid = caller ∧
        (call.pid ≤ 0 ∨ call.pid = child) := by
  simp [Considered, selects]

end AlpineOnIOS.Process
