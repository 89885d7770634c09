import Mathlib.Data.List.Basic

/-!
# The memory of a host

A host hands out blocks and maps pages.  Which requests it grants, and where it places pages of its
own choice, is left open: both are functions of the number of requests so far.  All calls are
recorded, since a wrong release has no other effect here.
-/

namespace Foundation

/-- A pointer into a block of the allocator, or to an address that is mapped directly. -/
inductive Pointer where
  | block (id offset : Nat)
  | direct (address : Nat)
  deriving DecidableEq

/-- Pointer arithmetic. -/
def Pointer.add : Pointer → Nat → Pointer
  | .block id offset, count => .block id (offset + count)
  | .direct address, count => .direct (address + count)

@[simp]
theorem Pointer.add_zero (pointer : Pointer) : pointer.add 0 = pointer := by
  cases pointer <;> rfl

structure Block where
  size : Nat
  byte : Nat → UInt8

/-- A call that changes what a host has handed out. -/
inductive HostCall where
  | calloc (pointer : Pointer) (size : Nat)
  | free (pointer : Pointer)
  | realloc (old new : Pointer) (size : Nat)
  | map (address size : Nat)
  | mapFixed (address size : Nat)
  | unmap (pointer : Pointer) (size : Nat)
  | protect (pointer : Pointer) (size : Nat) (prot : UInt32)
  deriving DecidableEq

/-- Blocks and pages, the number of requests, the answers to them, and the calls, the last one first. -/
structure HostMemory where
  block : Nat → Option Block
  page : Nat → Option UInt8
  clock : Nat
  grants : Nat → Bool
  place : Nat → Nat
  calls : List HostCall

namespace HostMemory

variable (host : HostMemory)

/-- The byte that a pointer leads to. -/
def load : Pointer → Option UInt8
  | .block id offset =>
    (host.block id).bind fun block => if offset < block.size then some (block.byte offset) else none
  | .direct address => host.page address

/-- Write bytes where there is something to write to. -/
def store (target : Pointer) (size : Nat) (value : Nat → UInt8) : HostMemory :=
  match target with
  | .block id offset =>
    { host with
      block := fun other =>
        if other = id then
          (host.block id).map fun block =>
            { block with
              byte := fun index =>
                if offset ≤ index ∧ index < offset + size then value (index - offset)
                else block.byte index }
        else host.block other }
  | .direct address =>
    { host with
      page := fun other =>
        if address ≤ other ∧ other < address + size then
          (host.page other).map fun _ => value (other - address)
        else host.page other }

def copy (target source : Pointer) (size : Nat) : HostMemory :=
  host.store target size fun index => (host.load (source.add index)).getD 0

/-- A request whose result is not looked into: whether it is granted. -/
def request : Bool × HostMemory :=
  (host.grants host.clock, { host with clock := host.clock + 1 })

def calloc (size : Nat) : Option Pointer × HostMemory :=
  if host.grants host.clock then
    (some (.block host.clock 0),
      { host with
        block := fun other =>
          if other = host.clock then some { size, byte := fun _ => 0 } else host.block other
        clock := host.clock + 1
        calls := .calloc (.block host.clock 0) size :: host.calls })
  else (none, { host with clock := host.clock + 1 })

/-- The blocks after the release of a pointer, which has no effect inside a block. -/
def released : Pointer → Nat → Option Block
  | .block id 0, other => if other = id then none else host.block other
  | _, other => host.block other

variable (pointer : Pointer)

def free : HostMemory :=
  { host with block := host.released pointer, calls := .free pointer :: host.calls }

def realloc (old : Pointer) (size : Nat) : Option Pointer × HostMemory :=
  if host.grants host.clock then
    (some (.block host.clock 0),
      { host with
        block := fun other =>
          if other = host.clock then
            some { size, byte := fun index => (host.load (old.add index)).getD 0 }
          else host.released old other
        clock := host.clock + 1
        calls := .realloc old (.block host.clock 0) size :: host.calls })
  else (none, { host with clock := host.clock + 1 })

/-- Zero pages over a range. -/
def zeroed (address size : Nat) (other : Nat) : Option UInt8 :=
  if address ≤ other ∧ other < address + size then some 0 else host.page other

/-- `mmap` of zero pages where the host likes. -/
def mapAny (size : Nat) : Option Nat × HostMemory :=
  if host.grants host.clock then
    (some (host.place host.clock),
      { host with
        page := host.zeroed (host.place host.clock) size
        clock := host.clock + 1
        calls := .map (host.place host.clock) size :: host.calls })
  else (none, { host with clock := host.clock + 1 })

/-- `mmap` of zero pages with `MAP_FIXED`. -/
def mapFixed (address size : Nat) : Bool × HostMemory :=
  if host.grants host.clock then
    (true,
      { host with
        page := host.zeroed address size
        clock := host.clock + 1
        calls := .mapFixed address size :: host.calls })
  else (false, { host with clock := host.clock + 1 })

/-- The pages after a range was unmapped. -/
def unmapped : Pointer → Nat → Nat → Option UInt8
  | .direct address, size, other =>
    if address ≤ other ∧ other < address + size then none else host.page other
  | .block _ _, _, other => host.page other

def unmap (size : Nat) : HostMemory :=
  { host with page := host.unmapped pointer size, calls := .unmap pointer size :: host.calls }

def protect (size : Nat) (prot : UInt32) : HostMemory :=
  { host with calls := .protect pointer size prot :: host.calls }

/-- Every request is granted. -/
def Generous : Prop := ∀ request, host.grants request = true

/-- A host after some calls: the answers to come are settled, and requests are only added. -/
structure Later (before after : HostMemory) : Prop where
  grants : after.grants = before.grants
  place : after.place = before.place
  clock : before.clock ≤ after.clock

namespace Later

variable {first second third : HostMemory}

@[refl]
theorem refl (host : HostMemory) : Later host host := ⟨rfl, rfl, Nat.le_refl _⟩

theorem trans (early : Later first second) (late : Later second third) : Later first third :=
  ⟨late.grants.trans early.grants, late.place.trans early.place, Nat.le_trans early.clock late.clock⟩

theorem generous (later : Later first second) (generous : first.Generous) : second.Generous := by
  intro request
  rw [later.grants]
  exact generous request

theorem of_eq {Answer : Type} {answer : Answer} {returned : Answer × HostMemory}
    (later : Later first returned.2) (called : returned = (answer, second)) :
    Later first second := by
  rw [called] at later
  exact later

end Later

section Calls

variable (host : HostMemory)

theorem later_request : Later host host.request.2 := ⟨rfl, rfl, Nat.le_succ _⟩

theorem later_store (target : Pointer) (size : Nat) (value : Nat → UInt8) :
    Later host (host.store target size value) := by
  cases target <;> exact ⟨rfl, rfl, Nat.le_refl _⟩

theorem later_copy (target source : Pointer) (size : Nat) :
    Later host (host.copy target source size) :=
  later_store host target size _

variable (size : Nat)

theorem later_calloc : Later host (host.calloc size).2 := by
  rw [calloc]
  split <;> exact ⟨rfl, rfl, Nat.le_succ _⟩

variable (pointer : Pointer)

theorem later_free : Later host (host.free pointer) :=
  ⟨rfl, rfl, Nat.le_refl _⟩

theorem later_realloc (old : Pointer) (size : Nat) : Later host (host.realloc old size).2 := by
  rw [realloc]
  split <;> exact ⟨rfl, rfl, Nat.le_succ _⟩

theorem later_mapFixed (address size : Nat) : Later host (host.mapFixed address size).2 := by
  rw [mapFixed]
  split <;> exact ⟨rfl, rfl, Nat.le_succ _⟩

theorem later_mapAny : Later host (host.mapAny size).2 := by
  rw [mapAny]
  split <;> exact ⟨rfl, rfl, Nat.le_succ _⟩

theorem later_unmap (pointer : Pointer) (size : Nat) : Later host (host.unmap pointer size) :=
  ⟨rfl, rfl, Nat.le_refl _⟩

theorem later_protect (pointer : Pointer) (size : Nat) (prot : UInt32) : Later host (host.protect pointer size prot) :=
  ⟨rfl, rfl, Nat.le_refl _⟩

end Calls

variable {host} {after : HostMemory}

/-- The host after one more request. -/
def asked (host : HostMemory) : HostMemory := { host with clock := host.clock + 1 }

/-- The host after a block was allocated and filled from a source. -/
def copied (host : HostMemory) (source : Pointer) (size : Nat) : HostMemory :=
  (host.calloc size).2.copy (.block host.clock 0) source size

/-- The host after a block was reallocated with zeros behind what it had. -/
def extended (host : HostMemory) (id size grow : Nat) : HostMemory :=
  (host.realloc (.block id 0) (size + grow)).2.store (.block host.clock size) grow fun _ => 0

theorem later_asked (host : HostMemory) : Later host host.asked := host.later_request

theorem later_copied (host : HostMemory) (source : Pointer) (size : Nat) :
    Later host (host.copied source size) :=
  (host.later_calloc size).trans (later_copy _ _ _ _)

theorem later_extended (host : HostMemory) (id size grow : Nat) :
    Later host (host.extended id size grow) :=
  (host.later_realloc _ _).trans (later_store _ _ _ _)

section

variable (generous : host.Generous)

include generous

theorem Generous.request_eq : host.request = (true, host.asked) := by
  rw [request, generous, asked]

theorem Generous.calloc_eq (size : Nat) :
    host.calloc size = (some (.block host.clock 0), (host.calloc size).2) := by
  rw [calloc, generous]
  rfl

theorem Generous.realloc_eq (old : Pointer) (size : Nat) :
    host.realloc old size = (some (.block host.clock 0), (host.realloc old size).2) := by
  rw [realloc, generous]
  rfl

theorem Generous.mapFixed_eq (address size : Nat) :
    host.mapFixed address size = (true, (host.mapFixed address size).2) := by
  rw [mapFixed, generous]
  rfl

theorem Generous.mapAny_eq (size : Nat) :
    host.mapAny size = (some (host.place host.clock), (host.mapAny size).2) := by
  rw [mapAny, generous]
  rfl

end

/-- A call that is refused only if memory can run out, and else gives a value of some shape. -/
def Attempts {ι α : Type} (host : HostMemory) (result : α × HostMemory) (refusal : α)
    (shape : ι → α) : Prop :=
  ∃ after, Later host after ∧
    (¬host.Generous ∧ result = (refusal, after) ∨ ∃ index, result = (shape index, after))

namespace Attempts

variable {ι α : Type} {middle : HostMemory} {result : α × HostMemory} {refusal : α} {shape : ι → α}

theorem later (attempts : Attempts host result refusal shape) : Later host result.2 := by
  obtain ⟨_, later, ⟨-, rfl⟩ | ⟨_, rfl⟩⟩ := attempts
  all_goals exact later

theorem granted (attempts : Attempts host result refusal shape) (generous : host.Generous) :
    ∃ index after, result = (shape index, after) := by
  obtain ⟨after, -, ⟨refused, -⟩ | ⟨index, made⟩⟩ := attempts
  · exact absurd generous refused
  · exact ⟨index, after, made⟩

theorem of_later (early : Later host middle) (attempts : Attempts middle result refusal shape) :
    Attempts host result refusal shape := by
  obtain ⟨after, later, outcome⟩ := attempts
  exact ⟨after, early.trans later, outcome.imp_left (.imp_left (mt early.generous))⟩

end Attempts

theorem request_cases (host : HostMemory) :
    Attempts host host.request false fun _ : Unit => true := by
  cases answer : host.request.1 with
  | false =>
    refine ⟨_, host.later_request, .inl ⟨fun generous => ?_, Prod.ext answer rfl⟩⟩
    rw [generous.request_eq] at answer
    cases answer
  | true => exact ⟨_, host.later_request, .inr ⟨(), Prod.ext answer rfl⟩⟩

variable {pointer} {size : Nat}

theorem calloc_eq_some (called : host.calloc size = (some pointer, after)) :
    pointer = .block host.clock 0 ∧ after.calls = .calloc pointer size :: host.calls ∧
      after.clock = host.clock + 1 := by
  rw [calloc] at called
  split at called
  · cases called
    exact ⟨rfl, rfl, rfl⟩
  · cases called

theorem calloc_eq_none (called : host.calloc size = (none, after)) : after = host.asked := by
  rw [calloc] at called
  split at called
  · cases called
  · cases called
    rfl

variable {old : Pointer}

theorem realloc_eq_some (called : host.realloc old size = (some pointer, after)) :
    pointer = .block host.clock 0 ∧ after.calls = .realloc old pointer size :: host.calls ∧
      after.clock = host.clock + 1 := by
  rw [realloc] at called
  split at called
  · cases called
    exact ⟨rfl, rfl, rfl⟩
  · cases called

theorem realloc_eq_none (called : host.realloc old size = (none, after)) : after = host.asked := by
  rw [realloc] at called
  split at called
  · cases called
  · cases called
    rfl

variable {address : Nat}

theorem mapAny_eq_some (called : host.mapAny size = (some address, after)) :
    address = host.place host.clock ∧ after.calls = .map address size :: host.calls ∧
      after.clock = host.clock + 1 := by
  rw [mapAny] at called
  split at called
  · cases called
    exact ⟨rfl, rfl, rfl⟩
  · cases called

theorem mapFixed_eq_true (called : host.mapFixed address size = (true, after)) :
    after.calls = .mapFixed address size :: host.calls ∧ after.clock = host.clock + 1 := by
  rw [mapFixed] at called
  split at called
  · cases called
    exact ⟨rfl, rfl⟩
  · cases called

theorem calls_store (host : HostMemory) (target : Pointer) (size : Nat) (value : Nat → UInt8) :
    (host.store target size value).calls = host.calls ∧
      (host.store target size value).clock = host.clock := by
  cases target <;> exact ⟨rfl, rfl⟩

theorem load_block (host : HostMemory) (id offset : Nat) :
    host.load (.block id offset) =
      (host.block id).bind fun block =>
        if offset < block.size then some (block.byte offset) else none :=
  rfl

theorem load_congr {id : Nat} (same : after.block id = host.block id) (offset : Nat) :
    after.load (.block id offset) = host.load (.block id offset) := by
  rw [load_block, load_block, same]

theorem Generous.block_extended_self (generous : host.Generous) (id size grow : Nat) :
    (host.extended id size grow).block host.clock =
      some
        { size := size + grow
          byte := fun index =>
            if size ≤ index ∧ index < size + grow then 0
            else (host.load (.block id index)).getD 0 } := by
  simp [extended, realloc, generous host.clock, store, Pointer.add]

variable {other : Nat}

theorem Generous.block_extended_of_ne (generous : host.Generous) {id : Nat}
    (old : other ≠ host.clock) (different : other ≠ id) (size grow : Nat) :
    (host.extended id size grow).block other = host.block other := by
  simp [extended, realloc, generous host.clock, store, old, released, different]

theorem Generous.clock_extended (generous : host.Generous) (id size grow : Nat) :
    (host.extended id size grow).clock = host.clock + 1 := by
  simp [extended, realloc, generous host.clock, store]

theorem page_copy_self (host : HostMemory) (address size : Nat) :
    (host.copy (.direct address) (.direct address) size).page = host.page := by
  funext other
  simp only [copy, store, Pointer.add, load]
  split
  · rename_i inside
    rw [Nat.add_sub_cancel' inside.1]
    cases host.page other <;> rfl
  · rfl

theorem block_store_self (host : HostMemory) (id size : Nat) (value : Nat → UInt8) :
    (host.store (.block id 0) size value).block id =
      (host.block id).map fun block =>
        { block with byte := fun index => if index < size then value index else block.byte index } := by
  simp [store]

theorem size_block_store (host : HostMemory) (target : Pointer) (size : Nat) (value : Nat → UInt8)
    {id : Nat} {block : Block} (held : host.block id = some block) :
    ∃ written, (host.store target size value).block id = some written ∧
      written.size = block.size := by
  cases target with
  | direct => exact ⟨block, held, rfl⟩
  | block other offset =>
    by_cases same : id = other
    · subst same
      refine ⟨{ block with
        byte := fun index =>
          if offset ≤ index ∧ index < offset + size then value (index - offset)
          else block.byte index }, ?_, rfl⟩
      simp only [store, if_true, held, Option.map_some]
    · refine ⟨block, ?_, rfl⟩
      simp only [store, if_neg same, held]

theorem block_store_of_ne (host : HostMemory) {id : Nat} (different : other ≠ id)
    (offset size : Nat) (value : Nat → UInt8) :
    (host.store (.block id offset) size value).block other = host.block other :=
  if_neg different

theorem Pointer.add_add (pointer : Pointer) (first second : Nat) :
    (pointer.add first).add second = pointer.add (first + second) := by
  cases pointer <;> simp [Pointer.add, Nat.add_assoc]

theorem load_store_add (host : HostMemory) (target : Pointer) {index : Nat}
    (value : Nat → UInt8) (inside : index < size) :
    (host.store target size value).load (target.add index) =
      (host.load (target.add index)).map fun _ => value index := by
  cases target with
  | block id =>
    simp only [Pointer.add, load_block, store, if_true]
    cases host.block id with
    | none => rfl
    | some =>
      simp only [Option.map_some, Option.bind_some]
      split
      · simp [inside]
      · rfl
  | direct => simp [Pointer.add, load, store, inside]

theorem load_store_of_ne (host : HostMemory) (target : Pointer) (value : Nat → UInt8)
    (apart : ∀ index < size, pointer ≠ target.add index) :
    (host.store target size value).load pointer = host.load pointer := by
  cases target with
  | block id offset =>
    cases pointer with
    | direct => rfl
    | block other position =>
      by_cases same : other = id
      · subst same
        have outside : ¬(offset ≤ position ∧ position < offset + size) := by
          intro within
          refine apart (position - offset) (by omega) ?_
          rw [Pointer.add, show offset + (position - offset) = position by omega]
        simp only [load_block, store, if_true]
        cases host.block other with
        | none => rfl
        | some => simp [outside]
      · rw [load_block, block_store_of_ne host same, load_block]
  | direct address =>
    cases pointer with
    | block => rfl
    | direct other =>
      have outside : ¬(address ≤ other ∧ other < address + size) := by
        intro within
        refine apart (other - address) (by omega) ?_
        rw [Pointer.add, show address + (other - address) = other by omega]
      simp [load, store, outside]

section Granted

variable (generous : host.Generous)

include generous

theorem Generous.block_calloc (size id : Nat) :
    (host.calloc size).2.block id =
      if id = host.clock then some { size, byte := fun _ => 0 } else host.block id := by
  rw [calloc, generous]
  rfl

theorem Generous.clock_calloc (size : Nat) : (host.calloc size).2.clock = host.clock + 1 := by
  rw [calloc, generous]
  rfl

theorem Generous.block_copied {id : Nat} (old : id ≠ host.clock) (source : Pointer) (size : Nat) :
    (host.copied source size).block id = host.block id := by
  have same := generous.block_calloc size id
  rw [if_neg old] at same
  rw [copied, copy, store, ← same]
  exact if_neg old

theorem Generous.clock_copied (source : Pointer) (size : Nat) :
    (host.copied source size).clock = host.clock + 1 :=
  generous.clock_calloc size

theorem Generous.block_copied_self {id : Nat} (old : id ≠ host.clock) (offset size : Nat) :
    (host.copied (.block id offset) size).block host.clock =
      some { size, byte := fun index =>
        if index < size then (host.load (.block id (offset + index))).getD 0 else 0 } := by
  have fresh := generous.block_calloc size host.clock
  have same := generous.block_calloc size id
  rw [if_neg old] at same
  rw [copied, copy, store, fresh]
  simp only [if_true, Option.map_some, Nat.zero_le, true_and, Nat.zero_add, Nat.sub_zero,
    Pointer.add, load_congr same]

end Granted

theorem load_store (host : HostMemory) (target : Pointer) (size : Nat) (value : Nat → UInt8)
    (pointer : Pointer) :
    (∃ index < size, pointer = target.add index ∧
      (host.store target size value).load pointer = (host.load pointer).map fun _ => value index) ∨
    (∀ index < size, pointer ≠ target.add index) ∧
      (host.store target size value).load pointer = host.load pointer := by
  by_cases reached : ∃ index < size, pointer = target.add index
  · obtain ⟨index, inside, rfl⟩ := reached
    exact .inl ⟨index, inside, rfl, load_store_add host target value inside⟩
  have apart : ∀ index < size, pointer ≠ target.add index := fun index inside same =>
    reached ⟨index, inside, same⟩
  exact .inr ⟨apart, load_store_of_ne host target value apart⟩

theorem isSome_load_store (host : HostMemory) (target : Pointer) (size : Nat)
    (value : Nat → UInt8) (pointer : Pointer) :
    ((host.store target size value).load pointer).isSome = (host.load pointer).isSome := by
  rcases load_store host target size value pointer with ⟨_, -, -, written⟩ | ⟨-, same⟩
  · rw [written, Option.isSome_map]
  · rw [same]

end HostMemory

end Foundation
