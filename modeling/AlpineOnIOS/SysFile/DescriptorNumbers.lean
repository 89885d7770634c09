import AlpineOnIOS.Foundation.Runs
import AlpineOnIOS.SysFile.Process
import Mathlib.Data.List.Nodup

/-!
# Numbers of descriptors

Threads share a table.  `fd_alloc_init` finds and fills an entry under the lock, but most calls
reserve an entry or, in `do_dup3`, close it first, and fill it later without the lock.
-/

namespace AlpineOnIOS.DescriptorNumbers

open Foundation SysFile

/-- An entry of type `FD_NONE`, as `fd_alloc` leaves it, or as a call has installed it. -/
inductive Entry where
  | none | reserved | installed
  deriving DecidableEq

/-- The table, and the entries that calls are about to fill. -/
structure Table where
  fds : Nat → Entry := fun _ => .none
  filling : List Nat := []

variable (table : Table)

/-- The entry that `fd_alloc_init` finds. -/
def free (minfd : Nat) : Option Nat :=
  (List.range' minfd (maxFds - minfd)).find? fun fd => table.fds fd = .none

def set (fd : Nat) (entry : Entry) : Table :=
  { table with fds := Function.update table.fds fd entry }

/-- The accesses of the threads to the table, one at a time. -/
inductive Event where
  | allocInit
  | alloc (minfd : Nat)
  | dup3 (newfd : Nat)
  | fill (fd : Nat)
  | abandon (fd : Nat)
  | close (fd : Nat)

def step : Event → Option Table
  | .allocInit => (free table 0).map (set table · .installed)
  | .alloc minfd =>
    (free table minfd).map fun fd => { set table fd .reserved with filling := fd :: table.filling }
  | .dup3 newfd => some { set table newfd .none with filling := newfd :: table.filling }
  | .fill fd =>
    if fd ∈ table.filling then
      some { set table fd .installed with filling := table.filling.erase fd }
    else none
  | .abandon fd =>
    if fd ∈ table.filling then
      some { set table fd .none with filling := table.filling.erase fd }
    else none
  | .close fd => some (set table fd .none)

/-- What is given out, written or taken back is not what another call has installed. -/
def Once : Event → Prop
  | .allocInit => ∀ fd ∈ free table 0, table.fds fd ≠ .installed
  | .alloc minfd => ∀ fd ∈ free table minfd, table.fds fd ≠ .installed
  | .fill fd | .abandon fd => fd ∈ table.filling → table.fds fd ≠ .installed
  | _ => True

/-- No call takes or closes an entry that another call is about to fill. -/
def Careful : Event → Prop
  | .allocInit => ∀ fd ∈ free table 0, fd ∉ table.filling
  | .alloc minfd => ∀ fd ∈ free table minfd, fd ∉ table.filling
  | .dup3 fd | .close fd => fd ∉ table.filling
  | _ => True

structure Sound (table : Table) : Prop where
  nodup : table.filling.Nodup
  filling : ∀ fd ∈ table.filling, table.fds fd ≠ .installed

variable {table next : Table} {event : Event} {fd minfd : Nat} {entry : Entry}

theorem free_ne (found : fd ∈ free table minfd) : table.fds fd ≠ .installed := by
  have unused := List.find?_some found
  intro installed
  simp [installed] at unused

section

variable (sound : Sound table)

include sound

theorem Sound.once : Once table event := by
  cases event with
  | allocInit | alloc => exact fun _ => free_ne
  | fill fd | abandon fd => exact sound.filling fd
  | dup3 | close => trivial

theorem Sound.set (other : fd ∉ table.filling) (entry : Entry) :
    Sound (set table fd entry) := by
  refine ⟨sound.nodup, fun one member => ?_⟩
  have different : one ≠ fd := fun same => other (same ▸ member)
  simpa [DescriptorNumbers.set, different] using sound.filling one member

theorem Sound.begin (other : fd ∉ table.filling) (new : entry ≠ .installed) :
    Sound { DescriptorNumbers.set table fd entry with filling := fd :: table.filling } := by
  refine ⟨List.nodup_cons.mpr ⟨other, sound.nodup⟩, List.forall_mem_cons.mpr ⟨?_, ?_⟩⟩
  · simpa [DescriptorNumbers.set] using new
  · exact (sound.set other entry).filling

theorem Sound.finish (fd : Nat) (entry : Entry) :
    Sound { DescriptorNumbers.set table fd entry with filling := table.filling.erase fd } := by
  have erased : Sound { table with filling := table.filling.erase fd } :=
    ⟨sound.nodup.erase fd, fun one member => sound.filling one (List.mem_of_mem_erase member)⟩
  exact erased.set (fun member => (sound.nodup.mem_erase_iff.mp member).1 rfl) entry

theorem Sound.step (careful : Careful table event)
    (stepped : step table event = some next) : Sound next := by
  cases event with
  | allocInit =>
    obtain ⟨fd, found, rfl⟩ := Option.map_eq_some_iff.mp stepped
    exact sound.set (careful fd found) _
  | alloc minfd =>
    obtain ⟨fd, found, rfl⟩ := Option.map_eq_some_iff.mp stepped
    exact sound.begin (careful fd found) nofun
  | dup3 newfd => exact Option.some.inj stepped ▸ sound.begin careful nofun
  | fill fd | abandon fd =>
    obtain ⟨-, stepped⟩ := Option.ite_none_right_eq_some.mp stepped
    exact Option.some.inj stepped ▸ sound.finish fd _
  | close fd => exact Option.some.inj stepped ▸ sound.set careful _

end

end AlpineOnIOS.DescriptorNumbers
