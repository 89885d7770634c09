import AlpineOnIOS.Foundation.Runs
import AlpineOnIOS.SysFile.Process

/-!
# Private objects of descriptors

`do_timerfd_settime` takes whatever object an entry has for a timer.  The other calls look at the
type first, or use the function that was stored with the object.
-/

namespace AlpineOnIOS.PrivateState

open Foundation SysFile

/-- The structures that `private` can point to. -/
inductive Kind where
  | epoll | eventfd | timerfd
  deriving DecidableEq

/-- The fields `type`, `private` and `close_fn` of an entry. -/
structure Entry where
  type : FdType := .none
  object : Option Kind := none
  closeFn : Option Kind := none

/-- What a call opens. -/
inductive Creation where
  | plain (type : FdType)
  | epoll | eventfd | timerfd

def Creation.entry : Creation → Entry
  | .plain type => { type }
  | .epoll => { type := .epoll, object := some .epoll }
  | .eventfd => ⟨.event, some .eventfd, some .eventfd⟩
  | .timerfd => ⟨.pipe, some .timerfd, some .timerfd⟩

variable (table : Nat → Entry)

def fdAlloc (minfd : Nat) : Option Nat :=
  (List.range' minfd (maxFds - minfd)).find? fun fd => (table fd).type = .none

/-- `fd_close`; the fields of an entry that is not in use are zero. -/
def fdClose (fd : Nat) : Nat → Entry := Function.update table fd {}

/-- The calls that use an object; memory that `do_timerfd_settime` needs can be invalid. -/
inductive Use where
  | epollCtl
  | epollPwait
  | timerfdSettime (valid : Bool)
  | close

/-- Calls, with the success of the host's `dup`; a run goes on in the child after `fork`. -/
inductive Event where
  | create (creation : Creation)
  | dup (fd minfd : Nat) (host : Bool)
  | dup3 (oldfd newfd : Nat) (host : Bool)
  | fork (host : Nat → Bool)
  | use (fd : Nat) (use : Use)

def step : Event → Option (Nat → Entry)
  | .create creation =>
    some ((fdAlloc table 0).elim table fun fd => Function.update table fd creation.entry)
  | .dup fd minfd host =>
    if (table fd).type = .none ∨ ¬host then some table
    else
      some ((fdAlloc table minfd).elim table fun newfd =>
        Function.update table newfd { type := (table fd).type })
  | .dup3 oldfd newfd host =>
    if oldfd = newfd ∨ (table oldfd).type = .none ∨ maxFds ≤ newfd ∨ ¬host then some table
    else some (Function.update (fdClose table newfd) newfd { type := (table oldfd).type })
  | .fork host =>
    some fun fd =>
      if (table fd).type = .none then {}
      else { type := if host fd then (table fd).type else .none }
  | .use fd .close => some (fdClose table fd)
  | .use .. => some table

/-- The kind as which a call uses the object of an entry. -/
def usedAs (entry : Entry) : Use → Option Kind
  | .epollCtl | .epollPwait =>
    if entry.type = .epoll ∧ entry.object ≠ none then some .epoll else none
  | .timerfdSettime valid =>
    if entry.type ≠ .none ∧ entry.object ≠ none ∧ valid then some .timerfd else none
  | .close => if entry.type = .none then none else entry.closeFn

/-- An object is used as what it was made. -/
def Typed : Event → Prop
  | .use fd use => ∀ kind ∈ usedAs (table fd) use, (table fd).object = some kind
  | _ => True

/-- No time is set for an `FD_EPOLL` or `FD_EVENT` entry with an object. -/
def Careful : Event → Prop
  | .use fd (.timerfdSettime true) =>
    (table fd).type = .epoll ∨ (table fd).type = .event → (table fd).object = none
  | _ => True

/-- Every entry is as a call has made it, perhaps without its object. -/
def Sound : Prop := ∀ fd, ∃ creation : Creation, table fd = creation.entry

variable {table next : Nat → Entry} {event : Event}

theorem Sound.update (sound : Sound table) (fd : Nat) (creation : Creation) :
    Sound (Function.update table fd creation.entry) := by
  intro other
  by_cases same : other = fd
  · exact ⟨creation, by rw [same, Function.update_self]⟩
  · rw [Function.update_of_ne same]
    exact sound other

theorem Sound.fdClose (sound : Sound table) (fd : Nat) : Sound (fdClose table fd) :=
  sound.update fd (.plain .none)

theorem Sound.step (sound : Sound table) (stepped : step table event = some next) : Sound next := by
  cases event with
  | create creation =>
    obtain rfl := Option.some.inj stepped
    cases fdAlloc table 0 with
    | none => exact sound
    | some fd => exact sound.update fd creation
  | dup fd minfd host =>
    simp only [PrivateState.step] at stepped
    split at stepped <;> obtain rfl := Option.some.inj stepped
    · exact sound
    · cases fdAlloc table minfd with
      | none => exact sound
      | some newfd => exact sound.update newfd (.plain _)
  | dup3 oldfd newfd host =>
    simp only [PrivateState.step] at stepped
    split at stepped <;> obtain rfl := Option.some.inj stepped
    · exact sound
    · exact (sound.fdClose newfd).update newfd (.plain _)
  | fork host =>
    obtain rfl := Option.some.inj stepped
    intro fd
    dsimp only
    split
    · exact ⟨.plain .none, rfl⟩
    · exact ⟨.plain _, rfl⟩
  | use fd use =>
    cases use with
    | close =>
      obtain rfl := Option.some.inj stepped
      exact sound.fdClose fd
    | _ => exact Option.some.inj stepped ▸ sound

theorem Sound.typed_iff (sound : Sound table) : Typed table event ↔ Careful table event := by
  cases event with
  | use fd use =>
    obtain ⟨creation, made⟩ := sound fd
    cases use with
    | timerfdSettime valid =>
      cases valid <;> cases creation <;> simp [Typed, Careful, usedAs, made, Creation.entry]
    | _ => cases creation <;> simp [Typed, Careful, usedAs, made, Creation.entry]
  | _ => exact .rfl

/-- Objects are used as what they are exactly if no time is set for an epoll or event object. -/
theorem objects_typed_iff (events : List Event) :
    Along step Typed (fun _ => {}) events ↔ Along step Careful (fun _ => {}) events := by
  have start : Sound fun _ => {} := fun _ => ⟨.plain .none, rfl⟩
  constructor
  · refine fun typed => typed.of_invariant Sound (fun here sound => ?_) start
    exact ⟨sound.typed_iff.mp here, fun _ => sound.step⟩
  · refine fun careful => careful.of_invariant Sound (fun here sound => ?_) start
    exact ⟨sound.typed_iff.mpr here, fun _ => sound.step⟩

theorem eventfd_used_as_timer : ¬∀ events, Along step Typed (fun _ => {}) events := by
  intro all
  have typed := ((all [.create .eventfd, .use 0 (.timerfdSettime true)]).2 _ rfl).1 .timerfd rfl
  exact absurd typed (by decide)

/-- The entries of a descriptor and of a duplicate, and whether the pipe's other end is closed. -/
structure Pair where
  entry : Bool → Entry
  flags : Bool → UInt32
  ended : Bool := false

/-- The duplicate gets the type and the flags. -/
def duplicated (creation : Creation) (flags : UInt32) : Pair where
  entry original := if original then creation.entry else { type := creation.entry.type }
  flags _ := flags

/-- `F_GETFL`, `F_SETFL`, a call that uses the object, or one that goes to the host. -/
inductive Operation where
  | getFlags
  | setFlags (flags : UInt32)
  | use (use : Use)
  | host

inductive Reply where
  | badFd | invalid | done
  | flags (flags : UInt32)
  | host (ended : Bool)
  deriving DecidableEq

def reply (entry : Entry) (flags : UInt32) (ended : Bool) (operation : Operation) : Reply :=
  if entry.type = .none then .badFd
  else
    match operation with
    | .getFlags => .flags flags
    | .setFlags _ | .use .close => .done
    | .use (.timerfdSettime valid) =>
      if (usedAs entry (.timerfdSettime valid)).isSome then .done else .invalid
    | .use use => if (usedAs entry use).isSome then .done else .badFd
    | .host => .host ended

def perform (pair : Pair) (name : Bool) : Operation → Pair
  | .setFlags flags => { pair with flags := Function.update pair.flags name flags }
  | .use .close =>
    { pair with
      entry := Function.update pair.entry name {}
      ended := pair.ended || (pair.entry name).closeFn.isSome }
  | _ => pair

def replies (pair : Pair) : List (Bool × Operation) → List Reply
  | [] => []
  | (name, operation) :: rest =>
    reply (pair.entry name) (pair.flags name) pair.ended operation ::
      replies (perform pair name operation) rest

/-- Operations that neither close a descriptor nor set its flags. -/
def Operation.Keeps : Operation → Prop
  | .setFlags _ | .use .close => False
  | _ => True

def renamed (name : Bool) (uses : List (Bool × Operation)) : List (Bool × Operation) :=
  uses.map fun use => (name, use.2)

/-- It does not matter which descriptor is used, and whether the other one is closed. -/
def Interchangeable (pair : Pair) : Prop :=
  ∀ uses name, (∀ use ∈ uses, use.2.Keeps) →
    replies pair uses = replies pair (renamed name uses) ∧
      replies (perform pair (!name) (.use .close)) (renamed name uses) =
        replies pair (renamed name uses)

variable {pair : Pair} {uses : List (Bool × Operation)}

theorem replies_eq (keep : ∀ use ∈ uses, use.2.Keeps) :
    replies pair uses =
      uses.map fun use => reply (pair.entry use.1) (pair.flags use.1) pair.ended use.2 := by
  induction uses with
  | nil => rfl
  | cons use uses induction =>
    rw [List.forall_mem_cons] at keep
    have kept : perform pair use.1 use.2 = pair := by
      unfold perform
      split <;> simp_all [Operation.Keeps]
    rw [replies, kept, induction keep.2, List.map_cons]

theorem replies_renamed (keep : ∀ use ∈ uses, use.2.Keeps) (name : Bool) :
    replies pair (renamed name uses) =
      uses.map fun use => reply (pair.entry name) (pair.flags name) pair.ended use.2 := by
  have keeps : ∀ use ∈ renamed name uses, use.2.Keeps := List.forall_mem_map.mpr keep
  rw [replies_eq keeps, renamed, List.map_map]
  rfl

end AlpineOnIOS.PrivateState
