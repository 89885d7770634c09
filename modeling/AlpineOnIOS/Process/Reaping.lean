import AlpineOnIOS.Process.Wakeup

/-!
# Waiting exactly once

In an orderly run every exited child is a zombie in the table until its parent has got its status,
once.
-/

namespace AlpineOnIOS.Process

open Foundation Process.System

variable {system next : System} {event : Event} {events : List Event} {pid caller : Nat}
  {proc proc' : Proc}

/-- A call of `wait4` that can write a status, and does not if it need not wait. -/
def WaitCall.Sound (call : WaitCall) : Prop :=
  call.status ≠ .unwritable ∧ (call.noHang = true → call.status = .null)
  deriving Decidable

/-- No clone with `CLONE_VM`, no wait that times out, and only sound calls of `wait4`. -/
def orderly : Event → Bool
  | .act _ .expire | .act _ (.clone _ _) => false
  | .act _ (.call (.wait call)) => decide call.Sound
  | _ => true

/-- An orderly event that terminates nobody. -/
def Orderly (system : System) (event : Event) : Prop :=
  orderly event = true ∧ ∀ pid, Unharmed pid system event

/-- What an entry keeps in an orderly run. -/
structure Tidy (proc : Proc) : Prop where
  unharmed : proc.history.kills = []
  sound : ∀ call place, proc.pc = .waiting call place → call.Sound
  words : proc.history.strayWords = 0
  written : proc.history.faulted = false
  collected : proc.pc = .destroy ∨ proc.pc = .gone ∧ 0 < proc.history.deaths →
    proc.collected = true

variable {pc : Pc}

theorem Tidy.goes (tidy : Tidy proc) (sound : ∀ call place, pc = .waiting call place → call.Sound)
    (here : pc ≠ .destroy ∧ pc ≠ .gone) : Tidy { proc with pc := pc } :=
  ⟨tidy.unharmed, sound, tidy.words, tidy.written, fun ends =>
    ends.elim (fun destroy => absurd destroy here.1) fun gone => absurd gone.1 here.2⟩

variable {call : WaitCall}

theorem Tidy.waits_on (tidy : Tidy proc) {place place' : WaitPlace}
    (waits : proc.pc = .waiting call place) : Tidy { proc with pc := .waiting call place' } := by
  refine tidy.goes (fun _ _ same => ?_) (by simp)
  cases same
  exact tidy.sound _ _ waits

theorem Tidy.own {fatal : Prop} {action : Action} (tidy : Tidy proc)
    (calm : ∀ granted, action = .advance granted → proc.pc = .deliver → ¬fatal)
    (orderly : orderly (.act pid action) = true) (own : Own fatal pid proc action proc') :
    Tidy proc' := by
  obtain ⟨unharmed, _, words, written, collected⟩ := id tidy
  cases own
  case killed granted pending sig place deadly => exact absurd deadly (calm granted rfl place)
  case expire => cases orderly
  case wait call place =>
    refine tidy.goes (fun call' place' waits => ?_) (by simp)
    cases waits
    exact of_decide_eq_true orderly
  case collected granted place collected =>
    exact ⟨unharmed, by simp, words, written, fun _ => collected⟩
  case releaseThread granted signalled status place thread =>
    cases signalled <;> exact ⟨unharmed, by simp [Proc.afterExit], words, written,
      by simp [Proc.afterExit]⟩
  case lockOwn granted call place => exact tidy.waits_on place
  case sleep granted call place => exact tidy.waits_on place
  case woken granted call place => exact tidy.waits_on place
  case wake call place => exact tidy.waits_on place
  all_goals exact ⟨unharmed, by simp [Proc.doExit], words, written, by simp [Proc.doExit]⟩

theorem Tidy.walk {order : List Nat} (tidy : Tidy proc) (walks : Walks order proc.pc pc) :
    Tidy { proc with pc := pc } := by
  generalize place : proc.pc = before at walks
  cases walks with
  | lock locks =>
    cases locks with
    | scan | rescan => exact tidy.waits_on place
    | adopt => exact tidy.goes (by simp) (by simp)
  | pass | lockOwn | sleep => exact tidy.waits_on place
  | destroy =>
    exact ⟨tidy.unharmed, by simp, tidy.words, tidy.written, fun _ => tidy.collected (.inl place)⟩
  | _ => exact tidy.goes (by simp) (by simp)

theorem Tidy.move (orderly : orderly event = true) (unharmed : Unharmed pid system event)
    (tidies : ∀ pid, Tidy (system.proc pid)) (record : Record pid proc) (tidy : Tidy proc)
    (move : Moves system event pid proc proc') : Tidy proc' := by
  cases move with
  | spawned => exact ⟨rfl, by simp [spawned], rfl, rfl, by simp [spawned]⟩
  | forked => exact ⟨rfl, by simp [forked], rfl, rfl, by simp [forked]⟩
  | cloned caller sighand thread share new acts =>
    rw [acts] at orderly
    cases orderly
  | begun parent forks =>
    cases forks <;> exact ⟨tidy.unharmed, by simp [begun], tidy.words, tidy.written,
      by simp [begun]⟩
  | dropped unborn =>
    have counted := record.counted
    rw [unborn] at counted
    refine ⟨tidy.unharmed, by simp, tidy.words, tidy.written, fun ends => ?_⟩
    have deaths : proc.history.deaths = 0 := counted.2.1
    simp [deaths] at ends
  | pending | halted => exact ⟨tidy.unharmed, tidy.sound, tidy.words, tidy.written, tidy.collected⟩
  | own action acts same own =>
    subst acts
    refine tidy.own (fun granted advances place => ?_) orderly own
    exact unharmed granted (advances ▸ rfl) (same ▸ place)
  | exitGroup =>
    exact ⟨tidy.unharmed, by simp [Proc.doExit], tidy.words, tidy.written, by simp [Proc.doExit]⟩
  | walked action acts walks => exact tidy.walk walks
  | waited action acts call place result stray waits hasty =>
    have calm : stray = false := by
      by_contra written
      obtain ⟨noHang, writable⟩ := hasty (by simpa using written)
      have null := (tidy.sound call place waits).2 noHang
      rw [writable] at null
      cases null
    subst calm
    exact ⟨tidy.unharmed, by simp [Proc.waited], tidy.words, tidy.written, by simp [Proc.waited]⟩
  | noticed action acts signalled =>
    cases signalled <;> exact ⟨tidy.unharmed, by simp [Proc.noticed, Proc.afterExit], tidy.words,
      tidy.written, by simp [Proc.noticed, Proc.afterExit]⟩
  | woken =>
    unfold Proc.woken
    split
    · rename_i place
      exact tidy.waits_on place
    · exact tidy
  | reaped caller call again rest found waits =>
    have writable := ((tidies caller).sound call _ waits).1
    unfold Proc.reap
    rw [if_neg writable]
    exact ⟨tidy.unharmed, tidy.sound, tidy.words, tidy.written, fun _ => rfl⟩
  | adopted =>
    unfold Proc.adopt
    dsimp only
    split
    · exact ⟨tidy.unharmed, tidy.sound, tidy.words, tidy.written, tidy.collected⟩
    split
    · exact ⟨tidy.unharmed, tidy.sound, tidy.words, tidy.written, fun _ => rfl⟩
    · exact ⟨tidy.unharmed, tidy.sound, tidy.words, tidy.written, tidy.collected⟩

/-- A process that was collected by the exit of its parent had a parent that has died. -/
def Orphaned (system : System) : Prop :=
  ∀ pid parent, (system.proc pid).history.discarded = some parent →
    0 < (system.proc parent).history.deaths

theorem Moves.discarded (move : Moves system event pid proc proc')
    (records : ∀ pid, Record pid (system.proc pid)) {parent : Nat}
    (discarded : proc'.history.discarded = some parent) :
    proc.history.discarded = some parent ∨ 0 < (system.proc parent).history.deaths := by
  cases move with
  | spawned | forked | cloned => cases discarded
  | begun parent' forks => cases forks <;> exact .inl discarded
  | own action acts same own => cases own <;> exact .inl discarded
  | woken =>
    left
    unfold Proc.woken at discarded
    split at discarded <;> exact discarded
  | reaped =>
    left
    unfold Proc.reap at discarded
    split at discarded <;> exact discarded
  | adopted exiting signalled status rest exits =>
    unfold Proc.adopt at discarded
    dsimp only at discarded
    split at discarded
    · exact .inl discarded
    split at discarded
    · right
      cases discarded
      have counted := (records parent).counted
      rw [exits] at counted
      cases signalled with
      | true => exact counted.2.1 ▸ Nat.one_pos
      | false => exact counted.1 ▸ Nat.succ_pos _
    · exact .inl discarded
  | _ => exact .inl discarded

theorem Moves.deaths_le (move : Moves system event pid proc proc') :
    proc.history.deaths ≤ proc'.history.deaths ∨ pid = system.fresh := by
  rcases move.history with ⟨-, same, -⟩ | ⟨new, -⟩ | ⟨_, _, ⟨-, own⟩ | ⟨-, _, rfl⟩⟩
  · exact .inl (Nat.le_of_eq same.symm)
  · exact .inr new
  · left
    cases own with
    | zombie => exact Nat.le_succ _
    | _ => exact Nat.le_refl _
  · exact .inl (Nat.le_refl _)

theorem Orphaned.step (orphaned : Orphaned system) (tabled : Tabled system)
    (records : ∀ pid, Record pid (system.proc pid)) (unmarked : Unmarked system)
    (steps : system.step event = some next) : Orphaned next := by
  intro pid parent discarded
  have transition := transition_of_step steps
  have dead : 0 < (system.proc parent).history.deaths := by
    have moves := transition.moves tabled pid
    generalize next.proc pid = last at moves discarded
    induction moves with
    | refl => exact orphaned pid parent discarded
    | tail _ move induction =>
      rcases move.discarded records discarded with before | dead
      · exact induction before
      · exact dead
  have moves := transition.moves tabled parent
  generalize next.proc parent = last at moves
  induction moves with
  | refl => exact dead
  | tail _ move induction =>
    rcases move.deaths_le with grown | new
    · exact Nat.lt_of_lt_of_le induction grown
    have unused := (unmarked parent (new ▸ Nat.lt_succ_self _)).2
    rw [unused] at dead
    cases dead

/-- What holds in every orderly run. -/
structure Ordered (system : System) : Prop where
  tabled : Tabled system
  records : ∀ pid, Record pid (system.proc pid)
  tidies : ∀ pid, Tidy (system.proc pid)
  unmarked : Unmarked system
  orphaned : Orphaned system

theorem Ordered.start : Ordered .start where
  tabled := .start
  records pid := .blank pid
  tidies pid := ⟨rfl, by simp [System.start, blank], rfl, rfl, by simp [System.start, blank]⟩
  unmarked := .start
  orphaned pid parent discarded := by simp [System.start, blank] at discarded

theorem Ordered.step (ordered : Ordered system) (orderly : Orderly system event)
    (steps : system.step event = some next) : Ordered next := by
  obtain ⟨tabled, records, tidies, unmarked, orphaned⟩ := ordered
  have both := laws_step (fun pid proc => Record pid proc ∧ Tidy proc)
    (fun move kept => ⟨kept.1.move move, kept.2.move orderly.1 (orderly.2 _) tidies kept.1 move⟩)
    tabled steps (fun pid => ⟨records pid, tidies pid⟩)
  exact ⟨tabled.shift (transition_of_step steps).shift, fun pid => (both pid).1,
    fun pid => (both pid).2, unmarked.step tabled steps,
    orphaned.step tabled records unmarked steps⟩

/-- A call of `wait4` has returned the status of a zombie that was there before it. -/
structure Reaps (system : System) (caller : Nat) (call : WaitCall) (result : System)
    (child : Nat) : Prop where
  listed : child ∈ system.order
  selected : system.selects caller call child = true
  zombie : (system.proc child).state = .zombie
  reported : (result.proc child).history.reports =
    ⟨caller, caller, (system.proc child).exitStatus⟩ :: (system.proc child).history.reports
  returned : (result.proc caller).history.results =
    (child : Int) :: (system.proc caller).history.results

/-- Two systems that differ in no more than the lock and the places of the threads. -/
structure Resembles (system other : System) : Prop where
  order : other.order = system.order
  state : ∀ pid, (other.proc pid).state = (system.proc pid).state
  ppid : ∀ pid, (other.proc pid).ppid = (system.proc pid).ppid
  exitStatus : ∀ pid, (other.proc pid).exitStatus = (system.proc pid).exitStatus
  history : ∀ pid, (other.proc pid).history = (system.proc pid).history

theorem resembles_set (system : System) (pid : Nat) (pc : Pc) (lock : Option Nat) :
    Resembles system
      { system.set pid { system.proc pid with pc := pc } with procLock := lock } := by
  have kept (other : Nat) : ∃ pc', (system.set pid { system.proc pid with pc := pc }).proc other =
      { system.proc other with pc := pc' } := by
    rw [set_proc]
    split
    · rename_i same
      exact ⟨pc, by rw [same]⟩
    · exact ⟨_, rfl⟩
  constructor
  · rfl
  all_goals
    intro other
    obtain ⟨_, same⟩ := kept other
    simp only [same]

theorem Reaps.of_resembles {between result : System} {child : Nat}
    (resembles : Resembles system between) (reaps : Reaps between caller call result child) :
    Reaps system caller call result child := by
  obtain ⟨listed, selected, zombie, reported, returned⟩ := reaps
  refine ⟨resembles.order ▸ listed, ?_, (resembles.state child).symm.trans zombie, ?_, ?_⟩
  · rw [← selected]
    exact (selects_congr (resembles.ppid child)).symm
  · rw [reported, resembles.exitStatus, resembles.history]
  · rw [returned, resembles.history]

variable {again found : Bool} {rest : List Nat}

theorem scanRound_of_miss {head : Nat}
    (miss : ¬(system.selects caller call head = true ∧ (system.proc head).state = .zombie)) :
    Resembles system (system.scanRound caller call again (head :: rest) found) ∧
      ∃ found', ((system.scanRound caller call again (head :: rest) found).proc caller).pc =
        .waiting call (scanPlace again rest found') := by
  have moved (found' : Bool) := resembles_set system caller
    (.waiting call (scanPlace again rest found')) system.procLock
  unfold scanRound
  dsimp only
  split
  · rename_i chosen
    rw [if_neg fun dead => miss ⟨chosen, dead⟩]
    exact ⟨moved true, true, by simp⟩
  · exact ⟨moved found, found, by simp⟩

theorem scan_reaps {child : Nat} (listed : caller ∈ system.order)
    (writable : call.status ≠ .unwritable) (alive : (system.proc caller).state ≠ .zombie)
    (place : (system.proc caller).pc = .waiting call (scanPlace again rest found))
    (within : ∀ entry ∈ rest, entry ∈ system.order) (among : child ∈ rest)
    (selected : system.selects caller call child = true)
    (zombie : (system.proc child).state = .zombie) :
    ∃ count result reaped, run step system (goesOn caller count) = some result ∧
      Reaps system caller call result reaped := by
  induction rest generalizing system found with
  | nil => cases among
  | cons head rest induction =>
    have steps := step_scan listed place true
    by_cases hit : system.selects caller call head = true ∧ (system.proc head).state = .zombie
    · obtain ⟨chosen, dead⟩ := hit
      have other : caller ≠ head := by
        rintro rfl
        exact alive dead
      have parent : (system.proc head).ppid = caller := by
        simp only [selects, Bool.and_eq_true, decide_eq_true_eq] at chosen
        exact chosen.1
      refine ⟨1, _, head, run_cons_eq_some.mpr ⟨_, steps, rfl⟩, within head (by simp), chosen,
        dead, ?_, ?_⟩
      · simp [scanRound, chosen, dead, other.symm, Proc.reap, writable, parent]
      · simp [scanRound, chosen, dead, other, Proc.waited, writable]
    have later : child ∈ rest := by
      rcases List.mem_cons.mp among with rfl | later
      · exact absurd ⟨selected, zombie⟩ hit
      · exact later
    obtain ⟨resembles, _, place'⟩ :
        Resembles system (system.scanRound caller call again (head :: rest) found) ∧ _ :=
      scanRound_of_miss hit
    obtain ⟨count, result, reaped, reached, reaps⟩ := induction (resembles.order ▸ listed)
      (fun dead => alive ((resembles.state caller).symm.trans dead)) place'
      (fun entry here => resembles.order ▸ within entry (List.mem_cons_of_mem head here)) later
      ((selects_congr (resembles.ppid child)).trans selected)
      ((resembles.state child).trans zombie)
    exact ⟨count + 1, result, reaped, run_cons_eq_some.mpr ⟨_, steps, reached⟩,
      reaps.of_resembles resembles⟩

/-- A call of `wait4` that begins when there is a zombie for it returns with one. -/
theorem wait_reaps {child : Nat} (tabled : Tabled system)
    (record : Record caller (system.proc caller)) (writable : call.status ≠ .unwritable)
    (place : (system.proc caller).pc = .waiting call .start) (free : system.procLock = none)
    (awaits : Awaits system caller call child) :
    ∃ count result reaped, run step system (goesOn caller count) = some result ∧
      Reaps system caller call result reaped := by
  have listed : caller ∈ system.order := tabled.listed caller (by simp [place]) (by simp [place])
  have alive := record.ne_zombie_of_alive (by rw [place]; rfl)
  have resembles := resembles_set system caller (.waiting call (.scan system.order false))
    (some caller)
  have steps : system.step (.act caller (.advance true)) =
      some { system.set caller { system.proc caller with
        pc := .waiting call (.scan system.order false) } with procLock := some caller } := by
    simp [step, act, advance, listed, place, free]
  obtain ⟨between, between_eq⟩ : ∃ between, between = { system.set caller { system.proc caller with
        pc := .waiting call (.scan system.order false) } with procLock := some caller } := ⟨_, rfl⟩
  have place' : (between.proc caller).pc = .waiting call (scanPlace false between.order false) := by
    simp [between_eq, scanPlace]
  rw [← between_eq] at steps resembles
  obtain ⟨count, result, reaped, reached, reaps⟩ := scan_reaps (resembles.order ▸ listed) writable
    (fun dead => alive ((resembles.state caller).symm.trans dead)) place' (fun _ here => here)
    (resembles.order ▸ awaits.listed)
    ((selects_congr (resembles.ppid child)).trans awaits.selected)
    ((resembles.state child).trans awaits.zombie)
  exact ⟨count + 1, result, reaped, run_cons_eq_some.mpr ⟨_, steps, reached⟩,
    reaps.of_resembles resembles⟩

/-- A process that has exited is a zombie, was reported once, or has outlived its parent. -/
inductive Fate (system : System) (pid : Nat) : Prop where
  | zombie (unclaimed : Unclaimed (system.proc pid)) (listed : pid ∈ system.order)
  | reported (parent : Nat) (reports : (system.proc pid).history.reports =
      [⟨parent, parent, (system.proc pid).exitStatus⟩])
  | discarded (parent : Nat) (unreported : (system.proc pid).history.reports = [])
      (dead : 0 < (system.proc parent).history.deaths)

/-- A status is there until its parent has got it once, and no other word is written. -/
structure ExactlyOnce (system : System) : Prop where
  ended : ∀ pid, 0 < (system.proc pid).history.deaths → Fate system pid
  unreported : ∀ pid, (system.proc pid).history.deaths = 0 →
    (system.proc pid).history.reports = []
  parents : ∀ pid ∈ system.order, (system.proc pid).tgid = pid ∧
    (system.proc pid).ppid = (system.proc pid).history.guardian
  prompt : ∀ caller call child, (system.proc caller).pc = .waiting call .start →
    system.procLock = none → Awaits system caller call child →
    ∃ count result reaped, run System.step system (goesOn caller count) = some result ∧
      Reaps system caller call result reaped
  missed : ∀ caller call again found child,
    (system.proc caller).pc = .waiting call (System.scanPlace again [] found) →
    Awaits system caller call child → early (system.proc child).pc = true
  awake : ∀ caller call place child, (system.proc caller).pc = .waiting call place →
    place = .sleep ∨ place = .asleep → Awaits system caller call child →
    Noticing caller (system.proc child).pc
  words : ∀ pid, (system.proc pid).history.strayWords = 0

theorem Collected.fate {exitStatus : UInt32} {reports : List Report} {faulted : Bool}
    {discarded : Option Nat} (collected : Collected exitStatus reports faulted discarded)
    (written : faulted = false) :
    (∃ parent, reports = [⟨parent, parent, exitStatus⟩]) ∨
      ∃ parent, reports = [] ∧ discarded = some parent := by
  cases collected with
  | reported report status parent =>
    obtain ⟨caller, _, _⟩ := report
    dsimp only at status parent
    subst status parent
    exact .inl ⟨caller, rfl⟩
  | faulted => cases written
  | discarded parent => exact .inr ⟨parent, rfl, rfl⟩

theorem Ordered.fate (ordered : Ordered system) (dead : 0 < (system.proc pid).history.deaths) :
    Fate system pid := by
  have tidy := ordered.tidies pid
  have record := ordered.records pid
  rcases record.unharmed tidy.unharmed with ⟨unborn, -⟩ | ⟨-, unclaimed | ⟨-, -, how⟩, -⟩
  · exact absurd unborn (Nat.ne_of_gt dead)
  · refine .zombie unclaimed (ordered.tabled.listed pid (fun gone => ?_) fun unborn => ?_)
    · have collected := tidy.collected (.inr ⟨gone, dead⟩)
      rw [unclaimed.2.1] at collected
      cases collected
    · have counted := record.counted
      rw [unborn] at counted
      exact absurd counted.2.1 (Nat.ne_of_gt dead)
  · rcases how.fate tidy.written with ⟨parent, reports⟩ | ⟨parent, unreported, discarded⟩
    · exact .reported parent reports
    · exact .discarded parent unreported (ordered.orphaned pid parent discarded)

theorem Ordered.unreported (ordered : Ordered system)
    (alive : (system.proc pid).history.deaths = 0) : (system.proc pid).history.reports = [] := by
  rcases (ordered.records pid).unharmed (ordered.tidies pid).unharmed with
    ⟨-, unreported⟩ | ⟨once, -⟩
  · exact unreported
  · rw [alive] at once
    cases once

theorem clones_eq_false_of_orderly (sound : orderly event = true) : clones event = false := by
  unfold clones
  split
  · cases sound
  · rfl

/-- A parent waits for a child that has exited with code 3. -/
def waited : List Event :=
  family ++ .act 2 (.call (.exit 3)) :: goesOn 2 14 ++ .act 1 (.call (.wait waitAny)) :: goesOn 1 2

end AlpineOnIOS.Process
