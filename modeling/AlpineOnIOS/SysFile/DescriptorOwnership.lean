import AlpineOnIOS.Foundation.Runs
import Mathlib.Data.List.Nodup
import Mathlib.Data.List.Perm.Basic

/-!
# The owners of host descriptors

Every host descriptor and every private object of an entry is acquired by one call and released by
another. What the host has handed out is what the entries and local variables hold, each thing
once.
-/

namespace AlpineOnIOS.Descriptors

open Foundation List

/-- A host descriptor, or a private object on the heap. -/
inductive Resource where
  | fd (number : Nat)
  | object (id : Nat)
  deriving DecidableEq

/-- `fd_entry_t` in use; a private object keeps the write end of its pipe. -/
structure Entry where
  realFd : Nat
  cloexec : Bool
  priv : Option (Nat × Nat)

/-- What `fd_close` gives back, in its order. -/
def Entry.resources (entry : Entry) : List Resource :=
  .fd entry.realFd :: entry.priv.toList.flatMap fun (id, writeEnd) => [.fd writeEnd, .object id]

/-- All entries, reserved slots and reference counts, and what the host has handed out. -/
structure Tables where
  entries : List ((Nat × Nat) × Entry)
  reserved : List (Nat × Nat)
  refcount : Nat → Nat
  handedOut : List Resource
  faults : Nat

variable (tables : Tables) (resource : Resource)

/-- The host never hands out what is in use. -/
def acquire : Option Tables :=
  if resource ∈ tables.handedOut then none
  else some { tables with handedOut := resource :: tables.handedOut }

/-- What the entries hold. -/
def held : List Resource := tables.entries.flatMap (·.2.resources)

/-- `close` or `free`.  It must be of something in use that no entry refers to any more. -/
def giveBack : Tables :=
  if resource ∈ tables.handedOut ∧ resource ∉ held tables then
    { tables with handedOut := tables.handedOut.erase resource }
  else { tables with faults := tables.faults + 1 }

/-- Close entries as `fd_close`, `fd_close_cloexec` and `fd_table_release` do. -/
def closeWhere (property : (Nat × Nat) × Entry → Bool) : Tables :=
  ((tables.entries.filter property).flatMap (·.2.resources)).foldl giveBack
    { tables with entries := tables.entries.filter fun slot => !property slot }

variable (key : Nat × Nat)

def fdClose : Tables :=
  closeWhere { tables with reserved := tables.reserved.filter (· ≠ key) } fun slot => slot.1 = key

def fdGet : Option Entry :=
  (tables.entries.find? fun slot => slot.1 = key).map Prod.snd

def maxFds : Nat := 1024

/-- The slot that `fd_alloc` and `fd_alloc_init` find. -/
def freeSlot (table minfd : Nat) : Option (Nat × Nat) :=
  (((List.range maxFds).drop minfd).map (table, ·)).find? fun key =>
    tables.entries.all (·.1 ≠ key) && key ∉ tables.reserved

/-- A slot gets an entry. -/
def putEntry (entry : Entry) : Tables :=
  { tables with
    entries := (key, entry) :: tables.entries.filter (·.1 ≠ key)
    reserved := tables.reserved.filter (· ≠ key) }

/-- A call with the answers of the host, and whether the results could be copied to the guest. -/
inductive Call where
  | install (table : Nat) (answer : Option Nat) (cloexec copied : Bool)
  | pair (table : Nat) (answer : Option (Nat × Nat)) (cloexec copied : Bool)
  | event (table : Nat) (object : Option Nat) (answer : Option (Nat × Nat)) (cloexec : Bool)
  | dup (table fd minfd : Nat) (answer : Option Nat) (cloexec : Bool)
  | dup3 (table old new : Nat) (answer : Option Nat) (cloexec : Bool)
  | close (table fd : Nat)
  | closeOnExec (table : Nat)
  | clone (table fresh : Nat) (answers : List (Option Nat))
  | share (table : Nat)
  | release (table : Nat)

/-- The loop of `fd_table_clone`, with an answer to each `dup`.  It fills a table without entries. -/
def cloneEntries (fresh : Nat) :
    List ((Nat × Nat) × Entry) → List (Option Nat) → Tables → Option Tables
  | [], _, tables => some tables
  | _ :: _, [], _ => none
  | _ :: rest, none :: answers, tables => cloneEntries fresh rest answers tables
  | (key, entry) :: rest, some number :: answers, tables =>
    (acquire tables (.fd number)).bind fun tables =>
      cloneEntries fresh rest answers
        { tables with
          entries := ((fresh, key.2), ⟨number, entry.cloexec, none⟩) :: tables.entries }

def perform : Call → Option Tables
  -- `do_accept`, and `do_openat` and `do_socket`, which copy nothing
  | .install table answer cloexec copied =>
    match answer with
    | none => some tables
    | some number =>
      (acquire tables (.fd number)).map fun tables =>
        match freeSlot tables table 0 with
        | none => giveBack tables (.fd number)
        | some key =>
          let tables := putEntry tables key ⟨number, cloexec, none⟩
          if copied then tables else fdClose tables key
  -- `do_pipe2`, `do_socketpair`
  | .pair table answer cloexec copied =>
    match answer with
    | none => some tables
    | some (first, second) =>
      (acquire tables (.fd first)).bind fun tables =>
        (acquire tables (.fd second)).map fun tables =>
          match freeSlot tables table 0 with
          | none => giveBack (giveBack tables (.fd first)) (.fd second)
          | some key =>
            let tables := putEntry tables key ⟨first, cloexec, none⟩
            match freeSlot tables table 0 with
            | none => giveBack (fdClose tables key) (.fd second)
            | some other =>
              let tables := putEntry tables other ⟨second, cloexec, none⟩
              if copied then tables else fdClose (fdClose tables key) other
  -- `do_eventfd2`, `do_timerfd_create`
  | .event table object answer cloexec =>
    match object with
    | none => some tables
    | some id =>
      (acquire tables (.object id)).bind fun tables =>
        match answer with
        | none => some (giveBack tables (.object id))
        | some (readEnd, writeEnd) =>
          (acquire tables (.fd readEnd)).bind fun tables =>
            (acquire tables (.fd writeEnd)).map fun tables =>
              match freeSlot tables table 0 with
              | none =>
                giveBack (giveBack (giveBack tables (.fd readEnd)) (.fd writeEnd)) (.object id)
              | some key => putEntry tables key ⟨readEnd, cloexec, some (id, writeEnd)⟩
  -- `do_dup`, `F_DUPFD`
  | .dup table fd minfd answer cloexec =>
    match fdGet tables (table, fd), freeSlot tables table minfd with
    | some _, some key =>
      let tables := { tables with reserved := key :: tables.reserved }
      match answer with
      | none => some (fdClose tables key)
      | some number =>
        (acquire tables (.fd number)).map fun tables =>
          putEntry tables key ⟨number, cloexec, none⟩
    | _, _ => some tables
  | .dup3 table old new answer cloexec =>
    match fdGet tables (table, old), answer with
    | some _, some number =>
      if old = new ∨ maxFds ≤ new then some tables
      else
        (acquire tables (.fd number)).map fun tables =>
          putEntry (fdClose tables (table, new)) (table, new) ⟨number, cloexec, none⟩
    | _, _ => some tables
  | .close table fd => some (fdClose tables (table, fd))
  | .closeOnExec table => some (closeWhere tables fun slot => slot.1.1 = table && slot.2.cloexec)
  | .clone table fresh answers =>
    if tables.refcount fresh = 0 ∧ tables.entries.all (·.1.1 ≠ fresh) then
      cloneEntries fresh (tables.entries.filter (·.1.1 = table)) answers
        { tables with refcount := Function.update tables.refcount fresh 1 }
    else none
  | .share table =>
    some { tables with
      refcount := Function.update tables.refcount table (tables.refcount table + 1) }
  | .release table =>
    let left := tables.refcount table - 1
    let tables := { tables with refcount := Function.update tables.refcount table left }
    if 0 < left then some tables else some (closeWhere tables (·.1.1 = table))

/-- What was handed out is held once, by an entry or a variable, and given back rightly. -/
structure Balanced (hand : List Resource) (reserved : List (Nat × Nat)) (tables : Tables) :
    Prop where
  account : (hand ++ held tables).Perm tables.handedOut
  distinct : tables.handedOut.Nodup
  faults : tables.faults = 0
  slots : tables.reserved = reserved

variable {tables resource key} {next : Tables} {hand : List Resource} {reserved : List (Nat × Nat)}

section

variable (balanced : Balanced hand reserved tables)

include balanced

theorem Balanced.perm {other : List Resource}
    (same : hand.Perm other) : Balanced other reserved tables :=
  { balanced with account := (same.symm.append_right _).trans balanced.account }

theorem Balanced.recount (refcount : Nat → Nat) : Balanced hand reserved { tables with refcount } :=
  ⟨balanced.account, balanced.distinct, balanced.faults, balanced.slots⟩

theorem Balanced.acquire (acquired : acquire tables resource = some next) :
    Balanced (resource :: hand) reserved next ∧ next.entries = tables.entries := by
  rw [Descriptors.acquire] at acquired
  split at acquired
  · cases acquired
  rename_i fresh
  cases acquired
  exact ⟨{ balanced with
    account := balanced.account.cons resource
    distinct := nodup_cons.mpr ⟨fresh, balanced.distinct⟩ }, rfl⟩

end

theorem Balanced.giveBack (balanced : Balanced (resource :: hand) reserved tables) :
    Balanced hand reserved (giveBack tables resource) ∧
      (giveBack tables resource).entries = tables.entries := by
  obtain ⟨present, account⟩ := cons_perm_iff_perm_erase.mp balanced.account
  have released : resource ∉ held tables := fun still =>
    (nodup_cons.mp (balanced.account.nodup_iff.mpr balanced.distinct)).1
      (mem_append_right hand still)
  rw [Descriptors.giveBack, if_pos ⟨present, released⟩]
  exact ⟨{ balanced with account, distinct := balanced.distinct.erase resource }, rfl⟩

theorem Balanced.giveBackAll {resources : List Resource}
    (balanced : Balanced (resources ++ hand) reserved tables) :
    Balanced hand reserved (resources.foldl Descriptors.giveBack tables) ∧
      (resources.foldl Descriptors.giveBack tables).entries = tables.entries := by
  induction resources generalizing tables with
  | nil => exact ⟨balanced, rfl⟩
  | cons resource rest induction =>
    obtain ⟨given, same⟩ := balanced.giveBack
    obtain ⟨all, still⟩ := induction given
    exact ⟨all, still.trans same⟩

/-- What the closed entries held is in hand once they are taken out, and all of it goes back. -/
theorem Balanced.closeWhere (balanced : Balanced hand reserved tables)
    (property : (Nat × Nat) × Entry → Bool) :
    Balanced hand reserved (closeWhere tables property) ∧ (closeWhere tables property).entries =
      tables.entries.filter fun slot => !property slot := by
  have parts := (filter_append_perm property tables.entries).flatMap_right (·.2.resources)
  rw [flatMap_append] at parts
  have opened : Balanced ((tables.entries.filter property).flatMap (·.2.resources) ++ hand) reserved
      { tables with entries := tables.entries.filter fun slot => !property slot } := by
    refine { balanced with account := List.Perm.trans ?_ balanced.account }
    rw [append_assoc]
    exact (perm_append_comm_assoc _ _ _).trans (parts.append_left hand)
  exact opened.giveBackAll

theorem Balanced.fdClose (balanced : Balanced hand reserved tables) (key : Nat × Nat) :
    Balanced hand (reserved.filter (· ≠ key)) (fdClose tables key) ∧
      ∀ slot ∈ (fdClose tables key).entries, slot.1 ≠ key := by
  have cleared : Balanced hand (reserved.filter (· ≠ key))
      { tables with reserved := tables.reserved.filter (· ≠ key) } :=
    ⟨balanced.account, balanced.distinct, balanced.faults, by rw [balanced.slots]⟩
  obtain ⟨closed, entries⟩ := cleared.closeWhere fun slot => slot.1 = key
  refine ⟨closed, fun slot member same => ?_⟩
  rw [Descriptors.fdClose, entries] at member
  simp [same] at member

theorem Balanced.putEntry (entry : Entry)
    (balanced : Balanced (entry.resources ++ hand) reserved tables)
    (free : ∀ slot ∈ tables.entries, slot.1 ≠ key) :
    Balanced hand (reserved.filter (· ≠ key)) (putEntry tables key entry) := by
  refine ⟨List.Perm.trans ?_ balanced.account, balanced.distinct, balanced.faults, by
    rw [Descriptors.putEntry, balanced.slots]⟩
  rw [held, Descriptors.putEntry, filter_eq_self.mpr (by simpa using free),
    flatMap_cons, append_assoc]
  exact perm_append_comm_assoc _ _ _

theorem ne_of_freeSlot {table minfd : Nat} (found : freeSlot tables table minfd = some key) :
    ∀ slot ∈ tables.entries, slot.1 ≠ key := by
  have all := find?_some found
  rw [Bool.and_eq_true, all_eq_true] at all
  simpa using all.1

theorem balanced_cloneEntries {fresh : Nat} {slots : List ((Nat × Nat) × Entry)}
    {answers : List (Option Nat)} (balanced : Balanced [] [] tables)
    (cloned : cloneEntries fresh slots answers tables = some next) : Balanced [] [] next := by
  fun_induction cloneEntries fresh slots answers tables with
  | case1 => cases cloned; exact balanced
  | case2 => cases cloned
  | case3 slot rest answers tables induction => exact induction balanced cloned
  | case4 key entry rest number answers tables induction =>
    obtain ⟨middle, acquired, placed⟩ := Option.bind_eq_some_iff.mp cloned
    obtain ⟨inHand, -⟩ := balanced.acquire acquired
    exact induction middle ⟨inHand.account, inHand.distinct, inHand.faults, inHand.slots⟩ placed

theorem balanced_perform {call : Call} (balanced : Balanced [] [] tables)
    (performed : perform tables call = some next) : Balanced [] [] next := by
  cases call with
  | install table answer cloexec =>
    rcases answer with _ | number
    · cases performed; exact balanced
    obtain ⟨_, acquired, rfl⟩ := Option.map_eq_some_iff.mp performed
    have inHand := (balanced.acquire acquired).1
    split
    · exact inHand.giveBack.1
    rename_i found
    have placed := inHand.putEntry ⟨number, cloexec, none⟩ (ne_of_freeSlot found)
    split
    · exact placed
    · exact (placed.fdClose _).1
  | pair table answer cloexec =>
    rcases answer with _ | ⟨first, second⟩
    · cases performed; exact balanced
    obtain ⟨_, acquired, performed⟩ := Option.bind_eq_some_iff.mp performed
    obtain ⟨both, acquiredToo, rfl⟩ := Option.map_eq_some_iff.mp performed
    have inHand := (((balanced.acquire acquired).1.acquire acquiredToo).1).perm (.swap ..)
    split
    · exact inHand.giveBack.1.giveBack.1
    rename_i found
    have placed := inHand.putEntry ⟨first, cloexec, none⟩ (ne_of_freeSlot found)
    dsimp only
    split
    · exact (placed.fdClose _).1.giveBack.1
    rename_i foundToo
    have both := placed.putEntry ⟨second, cloexec, none⟩ (ne_of_freeSlot foundToo)
    split
    · exact both
    · exact ((both.fdClose _).1.fdClose _).1
  | event table object answer cloexec =>
    rcases object with _ | id
    · cases performed; exact balanced
    obtain ⟨_, acquired, performed⟩ := Option.bind_eq_some_iff.mp performed
    have inHand := (balanced.acquire acquired).1
    rcases answer with _ | ⟨readEnd, writeEnd⟩
    · cases performed; exact inHand.giveBack.1
    obtain ⟨_, acquiredRead, performed⟩ := Option.bind_eq_some_iff.mp performed
    obtain ⟨_, acquiredWrite, rfl⟩ := Option.map_eq_some_iff.mp performed
    have all := (((inHand.acquire acquiredRead).1.acquire acquiredWrite).1).perm (.swap ..)
    split
    · exact all.giveBack.1.giveBack.1.giveBack.1
    · rename_i found
      exact all.putEntry ⟨readEnd, cloexec, some (id, writeEnd)⟩ (ne_of_freeSlot found)
  | dup table fd minfd answer cloexec =>
    rw [perform] at performed
    split at performed
    · rename_i key present found
      have waiting : Balanced [] [key] { tables with reserved := key :: tables.reserved } :=
        ⟨balanced.account, balanced.distinct, balanced.faults, by rw [balanced.slots]⟩
      have filled : [key].filter (· ≠ key) = [] := by simp
      rcases answer with _ | number
      · cases performed
        exact filled ▸ (waiting.fdClose key).1
      obtain ⟨_, acquired, rfl⟩ := Option.map_eq_some_iff.mp performed
      obtain ⟨inHand, same⟩ := waiting.acquire acquired
      have free := ne_of_freeSlot found
      exact filled ▸ inHand.putEntry ⟨number, cloexec, none⟩ fun slot member =>
        free slot (same ▸ member)
    · cases performed; exact balanced
  | dup3 table old new answer cloexec =>
    simp only [perform] at performed
    split at performed
    · split at performed
      · cases performed; exact balanced
      obtain ⟨_, acquired, rfl⟩ := Option.map_eq_some_iff.mp performed
      obtain ⟨closed, away⟩ := (balanced.acquire acquired).1.fdClose (table, new)
      exact closed.putEntry ⟨_, cloexec, none⟩ away
    · cases performed; exact balanced
  | close =>
    cases performed
    exact (balanced.fdClose _).1
  | closeOnExec =>
    cases performed
    exact (balanced.closeWhere _).1
  | clone =>
    rw [perform] at performed
    split at performed
    · exact balanced_cloneEntries (balanced.recount _) performed
    · cases performed
  | share =>
    cases performed
    exact balanced.recount _
  | release =>
    rw [perform] at performed
    split at performed
    · cases performed
      exact balanced.recount _
    · cases performed
      exact ((balanced.recount _).closeWhere _).1

/-- Each host descriptor and private object has one entry and is given back once. -/
theorem descriptors_owned {start final : Tables} {calls : List Call}
    (balanced : Balanced [] [] start) (ran : run perform start calls = some final) :
    Balanced [] [] final :=
  invariant_run_of_step (Balanced [] [])
    (fun performed balanced => balanced_perform balanced performed) ran balanced

/-- A first table without entries. -/
def noEntries : Tables := ⟨[], [], fun table => if table = 0 then 1 else 0, [], 0⟩

/-- A pipe and a timer, a fork, and an exit before the child. -/
def forking : List Call :=
  [.install 0 (some 5) false true, .pair 0 (some (6, 7)) false true,
    .event 0 (some 1) (some (8, 9)) true, .dup 0 1 10 (some 10) false,
    .dup3 0 10 0 (some 11) false, .close 0 10,
    .clone 0 1 [some 12, some 13, none, some 14], .closeOnExec 1, .release 0]

theorem descriptors_owned_forking : ∃ final, run perform noEntries forking = some final ∧
    final.handedOut = [.fd 14, .fd 12] ∧ Balanced [] [] final := by
  have ends : (run perform noEntries forking).map (·.handedOut) = some [.fd 14, .fd 12] := by
    decide +kernel
  obtain ⟨final, ran, handed⟩ := Option.map_eq_some_iff.mp ends
  have empty : Balanced [] [] noEntries := ⟨.nil, nodup_nil, rfl, rfl⟩
  exact ⟨final, ran, handed, descriptors_owned empty ran⟩

end AlpineOnIOS.Descriptors
