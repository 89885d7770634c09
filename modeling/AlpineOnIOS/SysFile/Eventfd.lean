import Mathlib.Data.List.Basic

/-!
# The counter of an eventfd

`do_eventfd2` keeps a counter as records in a pipe, and gives the guest the read end of it.  A guest
write goes to that end as well, and is refused by the host; a read takes the first record, also from
a semaphore.
-/

namespace AlpineOnIOS.Eventfd

open List

/-- A read or a write of eight bytes. -/
inductive Operation where
  | read
  | write (value : UInt64)

/-- The value read, success of a write, `EBADF`, or nothing to read. -/
inductive Outcome where
  | value (counter : Nat)
  | written
  | badFd
  | empty
  deriving DecidableEq

/-- What is in the pipe after `do_eventfd2`. -/
def doEventfd2 (a0 : UInt64) : List UInt64 := if 0 < a0 then [a0] else []

/-- `do_read` and `do_write` on the read end of the pipe. -/
def perform (pipe : List UInt64) : Operation → Outcome × List UInt64
  | .write _ => (.badFd, pipe)
  | .read =>
    match pipe with
    | record :: pipe => (.value record.toNat, pipe)
    | [] => (.empty, [])

/-- The counter that the pipe stands for. -/
def count (semaphore : Bool) (counter : Nat) : Operation → Outcome × Nat
  | .write value => (.written, counter + value.toNat)
  | .read =>
    if counter = 0 then (.empty, 0)
    else
      let taken := if semaphore then 1 else counter
      (.value taken, counter - taken)

/-- The results of a sequence of operations. -/
def outcomes {State : Type} (perform : State → Operation → Outcome × State) (state : State) :
    List Operation → List Outcome
  | [] => []
  | operation :: rest =>
    (perform state operation).1 :: outcomes perform (perform state operation).2 rest

variable {pipe : List UInt64} {counter : Nat} {semaphore : Bool} {operations : List Operation}

theorem reads_of_outcomes_eq
    (same : outcomes perform pipe operations = outcomes (count semaphore) counter operations) :
    ∀ operation ∈ operations, operation = .read := by
  induction operations generalizing pipe counter with
  | nil => simp
  | cons operation rest induction =>
    obtain ⟨first, others⟩ := cons.inj same
    refine forall_mem_cons.mpr ⟨?_, induction others⟩
    cases operation with
    | read => rfl
    | write value => cases first

/-- A pipe with one record for a counter that a semaphore does not count down. -/
theorem outcomes_eq_of_reads (single : semaphore = true → counter ≤ 1)
    (stands : pipe.map UInt64.toNat = if counter = 0 then [] else [counter])
    (reads : ∀ operation ∈ operations, operation = .read) :
    outcomes perform pipe operations = outcomes (count semaphore) counter operations := by
  induction operations generalizing pipe counter with
  | nil => rfl
  | cons operation rest induction =>
    obtain ⟨rfl, others⟩ := forall_mem_cons.mp reads
    by_cases zero : counter = 0
    · subst zero
      rw [if_pos rfl, map_eq_nil_iff] at stands
      subst stands
      exact congrArg _ (induction single rfl others)
    rw [if_neg zero, map_eq_singleton_iff] at stands
    obtain ⟨_, rfl, value⟩ := stands
    have taken : (if semaphore = true then 1 else counter) = counter := by
      split
      · rename_i shared
        have := single shared
        omega
      · rfl
    simp only [outcomes, perform, count, if_neg zero, taken, value, Nat.sub_self]
    exact congrArg _ (induction (fun _ => Nat.zero_le 1) rfl others)

/-- The pipe is a counter exactly if the guest never writes, nor reads a semaphore above one. -/
theorem eventfd_counts_iff (a0 : UInt64) (semaphore : Bool) (operations : List Operation) :
    outcomes perform (doEventfd2 a0) operations = outcomes (count semaphore) a0.toNat operations ↔
      (∀ operation ∈ operations, operation = .read) ∧
        (semaphore = true → 1 < a0.toNat → operations = []) := by
  have record : (doEventfd2 a0).map UInt64.toNat =
      if a0.toNat = 0 then [] else [a0.toNat] := by
    simp only [doEventfd2, UInt64.lt_iff_toNat_lt, UInt64.toNat_zero]
    by_cases zero : a0.toNat = 0
    · simp [zero]
    · simp [zero, Nat.pos_of_ne_zero zero]
  constructor
  · intro same
    have reads := reads_of_outcomes_eq same
    refine ⟨reads, fun shared large => ?_⟩
    cases operations with
    | nil => rfl
    | cons operation rest =>
      obtain ⟨rfl, -⟩ := forall_mem_cons.mp reads
      have nonzero : a0.toNat ≠ 0 := by omega
      rw [if_neg nonzero, map_eq_singleton_iff] at record
      obtain ⟨_, only, _⟩ := record
      have first := (cons.inj same).1
      simp only [only, perform, count, if_neg nonzero, shared, if_true, Outcome.value.injEq]
        at first
      omega
  · rintro ⟨reads, empty⟩
    by_cases large : semaphore = true ∧ 1 < a0.toNat
    · rw [empty large.1 large.2]
      rfl
    · exact outcomes_eq_of_reads (fun shared => Nat.not_lt.mp fun more => large ⟨shared, more⟩)
        record reads

/-- A write to a new eventfd fails with `EBADF`, and a semaphore of two gives both at once. -/
theorem eventfd_write_refused :
    outcomes perform (doEventfd2 0) [.write 1, .read] = [.badFd, .empty] ∧
      outcomes (count false) 0 [.write 1, .read] = [.written, .value 1] ∧
      outcomes perform (doEventfd2 2) [.read, .read] = [.value 2, .empty] ∧
      outcomes (count true) 2 [.read, .read] = [.value 1, .value 1] := by
  decide

end AlpineOnIOS.Eventfd
