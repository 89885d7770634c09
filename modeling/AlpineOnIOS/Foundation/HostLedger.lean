import AlpineOnIOS.Foundation.HostMemory
import Mathlib.Data.List.Perm.Basic
import Mathlib.Data.List.Pairwise

/-!
# A ledger of host memory

A caller may release what it has obtained itself, by the function that matches, from the start of
it, and map pages that are not in the ledger. Holders are the places that keep a pointer, and a
tidy ledger backs all of them.
-/

namespace Foundation

/-- How memory was obtained.  Lent memory is released by somebody else. -/
inductive MemorySource where
  | allocator
  | pages
  | lent
  deriving DecidableEq

structure Extent where
  start : Pointer
  size : Nat
  deriving DecidableEq

variable {pointer : Pointer} {offset : Nat}

namespace Extent

variable (extent : Extent)

/-- A pointer leads into a range.  Blocks are taken as a whole. -/
def Contains (pointer : Pointer) : Prop :=
  match extent.start, pointer with
  | .block id _, .block other _ => id = other
  | .direct first, .direct address => first ≤ address ∧ address < first + extent.size
  | _, _ => False

/-- A range lies in another one. -/
def Within (part whole : Extent) : Prop :=
  match part.start, whole.start with
  | .block id _, .block other _ => id = other
  | .direct first, .direct lower => lower ≤ first ∧ first + part.size ≤ lower + whole.size
  | _, _ => False

/-- Two ranges have no pointer in common. -/
def Apart (first second : Extent) : Prop :=
  ∀ pointer, first.Contains pointer → ¬second.Contains pointer

/-- A range of pages, given by its address and its size. -/
def ofPages (pages : Nat × Nat) : Extent := ⟨.direct pages.1, pages.2⟩

variable {first second third part whole : Extent}

theorem Within.refl : extent.Within extent := by
  obtain ⟨start, _⟩ := extent
  cases start with
  | block => rfl
  | direct => exact ⟨Nat.le_refl _, Nat.le_refl _⟩

theorem Within.trans (inner : first.Within second) (outer : second.Within third) :
    first.Within third := by
  obtain ⟨start, _⟩ := first
  obtain ⟨middle, _⟩ := second
  obtain ⟨last, _⟩ := third
  cases start <;> cases middle <;> cases last <;> simp only [Within] at *
  · rw [inner, outer]
  · omega

theorem within_add {start : Pointer} {count size wholeSize : Nat}
    (fits : count + size ≤ wholeSize) : Within ⟨start.add count, size⟩ ⟨start, wholeSize⟩ := by
  cases start with
  | block => rfl
  | direct address =>
    refine ⟨Nat.le_add_right _ _, ?_⟩
    change address + count + size ≤ address + wholeSize
    omega

theorem contains_start {size : Nat} (positive : 0 < size) (start : Pointer) :
    Contains ⟨start, size⟩ start := by
  cases start with
  | block => rfl
  | direct => exact ⟨Nat.le_refl _, Nat.lt_add_of_pos_right positive⟩

theorem Contains.of_within (contains : part.Contains pointer) (within : part.Within whole) :
    whole.Contains pointer := by
  obtain ⟨start, _⟩ := part
  obtain ⟨lower, _⟩ := whole
  cases start <;> cases lower <;> cases pointer <;> simp only [Within, Contains] at *
  · rw [← within, contains]
  · omega

theorem Within.contains_of_block {id : Nat} (within : part.Within whole)
    (block : whole.start = .block id offset) (same : first.start = whole.start) :
    first.Contains part.start := by
  obtain ⟨start, _⟩ := part
  obtain ⟨_, _⟩ := whole
  obtain ⟨_, _⟩ := first
  subst block same
  cases start with
  | block => exact within.symm
  | direct => exact within.elim

theorem Apart.symm (apart : first.Apart second) : second.Apart first :=
  fun pointer inSecond inFirst => apart pointer inFirst inSecond

theorem Apart.mono (apart : second.Apart third) (within : first.Within second) :
    first.Apart third :=
  fun pointer inFirst => apart pointer (inFirst.of_within within)

theorem apart_ofPages_of_block {id : Nat} (block : first.start = .block id offset)
    (pages : Nat × Nat) : first.Apart (ofPages pages) := by
  intro pointer inBlock
  obtain ⟨_, _⟩ := first
  subst block
  cases pointer with
  | block => exact not_false
  | direct => exact inBlock.elim

theorem apart_ofPages_empty : extent.Apart (ofPages (0, 0)) := by
  intro pointer _
  cases pointer with
  | block => exact not_false
  | direct => simp [ofPages, Contains]

end Extent

/-- Memory that somebody has obtained. -/
structure Allocation where
  owner : Nat
  source : MemorySource
  extent : Extent
  deriving DecidableEq

/-- Memory that starts at a pointer of its owner is no longer the owner's to release. -/
def Allocation.lend (owner : Nat) (start : Pointer) (allocation : Allocation) : Allocation :=
  if allocation.owner = owner ∧ allocation.extent.start = start then
    { allocation with source := .lent }
  else allocation

@[simp]
theorem Allocation.extent_lend (owner : Nat) (start : Pointer) (allocation : Allocation) :
    (allocation.lend owner start).extent = allocation.extent := by
  rw [Allocation.lend]
  split <;> rfl

/-- The memory that was obtained and has not been released. -/
abbrev Ledger := List Allocation

namespace Ledger

/-- Take out what a call releases. -/
def without (ledger : Ledger) (released : Allocation → Bool) : Ledger :=
  ledger.filter fun allocation => !released allocation

variable (owner : Nat)

def record (ledger : Ledger) : HostCall → Ledger
  | .calloc pointer size => ⟨owner, .allocator, ⟨pointer, size⟩⟩ :: ledger
  | .free pointer =>
    ledger.without fun allocation =>
      allocation.source = .allocator ∧ allocation.extent.start = pointer
  | .realloc old new size =>
    ⟨owner, .allocator, ⟨new, size⟩⟩ :: ledger.without fun allocation =>
      allocation.source = .allocator ∧ allocation.extent.start = old
  | .map address size => ⟨owner, .pages, ⟨.direct address, size⟩⟩ :: ledger
  | .mapFixed address size => ⟨owner, .pages, ⟨.direct address, size⟩⟩ :: ledger
  | .unmap pointer size =>
    ledger.without fun allocation =>
      allocation.source = .pages ∧ allocation.extent = ⟨pointer, size⟩
  | .protect _ _ _ => ledger

/-- An owner releases what it has obtained, properly, and maps pages where there are none. -/
def Permits (ledger : Ledger) : HostCall → Prop
  | .free pointer => ∃ size, ⟨owner, .allocator, ⟨pointer, size⟩⟩ ∈ ledger
  | .realloc old _ _ => ∃ size, ⟨owner, .allocator, ⟨old, size⟩⟩ ∈ ledger
  | .unmap pointer size => ⟨owner, .pages, ⟨pointer, size⟩⟩ ∈ ledger
  | .mapFixed address size =>
    ∀ allocation ∈ ledger, allocation.extent.Apart ⟨.direct address, size⟩
  | _ => True

/-- The ledger after some calls, the last one first. -/
def recordAll (owner : Nat) (ledger : Ledger) : List HostCall → Ledger
  | [] => ledger
  | call :: earlier => record owner (recordAll owner ledger earlier) call

/-- Every call is permitted at its time. -/
def PermitsAll (owner : Nat) (ledger : Ledger) : List HostCall → Prop
  | [] => True
  | call :: earlier =>
    Permits owner (recordAll owner ledger earlier) call ∧ PermitsAll owner ledger earlier

/-- Register memory as lent. -/
def lend (start : Pointer) (ledger : Ledger) : Ledger :=
  ledger.map (Allocation.lend owner start)

end Ledger

/-- A place that keeps a pointer to memory, and the call by which it gives it back if it does. -/
structure Holder where
  owner : Nat
  extent : Extent
  release : Option HostCall

/-- A call that releases a range. -/
def HostCall.Releases (extent : Extent) (call : HostCall) : Prop :=
  call = .free extent.start ∨ call = .unmap extent.start extent.size

/-- The allocator has handed out a block of which a request so far is the number. -/
def Allocation.Known (clock : Nat) (allocation : Allocation) : Prop :=
  match allocation.extent.start with
  | .block id _ => id < clock
  | .direct _ => allocation.source ≠ .allocator

variable {allocation : Allocation} {clock : Nat}

theorem Allocation.Known.mono {later : Nat} (known : allocation.Known clock)
    (time : clock ≤ later) : allocation.Known later := by
  simp only [Allocation.Known] at known ⊢
  split
  · rename_i start
    rw [start] at known
    exact Nat.lt_of_lt_of_le known time
  · rename_i start
    rw [start] at known
    exact known

theorem Allocation.Known.exists_block (known : allocation.Known clock)
    (source : allocation.source = .allocator) :
    ∃ id offset, allocation.extent.start = .block id offset ∧ id < clock := by
  rw [Known] at known
  split at known
  · rename_i id offset start
    exact ⟨id, offset, start, known⟩
  · exact absurd source known

theorem Allocation.Known.apart_next (known : allocation.Known clock) (offset size : Nat) :
    allocation.extent.Apart ⟨.block clock offset, size⟩ := by
  intro pointer inOld inNew
  obtain ⟨_, _, start, _⟩ := allocation
  cases start with
  | block id =>
    cases pointer with
    | block other =>
      have same : id = other := inOld
      have next : clock = other := inNew
      exact Nat.lt_irrefl _ (next ▸ same ▸ known)
    | direct => exact inOld
  | direct =>
    cases pointer with
    | block => exact inOld
    | direct => exact inNew

theorem Ledger.Permits.mono {owner : Nat} {ledger other : Ledger} {extent : Extent}
    {call : HostCall} (allowed : ledger.Permits owner call) (matching : call.Releases extent)
    (keeps : ∀ allocation ∈ ledger, allocation.owner = owner →
      allocation.extent.start = extent.start → allocation ∈ other) : other.Permits owner call := by
  rcases matching with rfl | rfl
  · obtain ⟨size, inLedger⟩ := allowed
    exact ⟨size, keeps _ inLedger rfl rfl⟩
  · exact keeps _ allowed rfl rfl

/-- Two holders of one owner of which one gives its memory back have nothing in common. -/
def Holder.Exclusive (first second : Holder) : Prop :=
  first.owner = second.owner → first.release.isSome = true ∨ second.release.isSome = true →
    first.extent.Apart second.extent

/-- The ledger backs all holders and what they will give back, and has nothing in the zone. -/
structure Tidy (zone : Nat × Nat) (ledger : Ledger) (clock : Nat) (holders : List Holder) :
    Prop where
  known : ∀ allocation ∈ ledger, allocation.Known clock
  clear : ∀ allocation ∈ ledger, allocation.extent.Apart (.ofPages zone)
  solid : ∀ holder ∈ holders, holder.extent.Contains holder.extent.start
  backed : ∀ holder ∈ holders, ∃ allocation ∈ ledger, holder.extent.Within allocation.extent
  permitted : ∀ holder ∈ holders, ∀ call, holder.release = some call →
    call.Releases holder.extent ∧ ledger.Permits holder.owner call
  exclusive : holders.Pairwise Holder.Exclusive

variable {zone : Nat × Nat} {ledger : Ledger} {other : Holder} {address : Nat}

namespace Tidy

variable {later : Nat} {holder : Holder} {holders others : List Holder}

theorem exclusive_symm {first second : Holder} (exclusive : first.Exclusive second) :
    second.Exclusive first :=
  fun same releases => (exclusive same.symm releases.symm).symm

section

variable (tidy : Tidy zone ledger clock holders)

include tidy

theorem perm (permuted : holders.Perm others) : Tidy zone ledger clock others :=
  ⟨tidy.known, tidy.clear, fun holder member => tidy.solid holder (permuted.mem_iff.mpr member),
    fun holder member => tidy.backed holder (permuted.mem_iff.mpr member),
    fun holder member => tidy.permitted holder (permuted.mem_iff.mpr member),
    (permuted.pairwise_iff exclusive_symm).mp tidy.exclusive⟩

theorem sublist (fewer : others.Sublist holders) : Tidy zone ledger clock others :=
  ⟨tidy.known, tidy.clear, fun holder member => tidy.solid holder (fewer.mem member),
    fun holder member => tidy.backed holder (fewer.mem member),
    fun holder member => tidy.permitted holder (fewer.mem member),
    tidy.exclusive.sublist fewer⟩

theorem forget : Tidy (0, 0) ledger clock holders :=
  { tidy with clear := fun allocation _ => allocation.extent.apart_ofPages_empty }

theorem advance (time : clock ≤ later) : Tidy zone ledger later holders :=
  { tidy with known := fun allocation member => (tidy.known allocation member).mono time }

end

theorem cons_iff : Tidy zone ledger clock (holder :: holders) ↔
    Tidy zone ledger clock holders ∧ (∀ other ∈ holders, holder.Exclusive other) ∧
      holder.extent.Contains holder.extent.start ∧
      (∃ allocation ∈ ledger, holder.extent.Within allocation.extent) ∧
      ∀ call, holder.release = some call →
        call.Releases holder.extent ∧ ledger.Permits holder.owner call := by
  constructor
  · rintro ⟨known, clear, solid, backed, permitted, exclusive⟩
    rw [List.forall_mem_cons] at solid backed permitted
    rw [List.pairwise_cons] at exclusive
    exact ⟨⟨known, clear, solid.2, backed.2, permitted.2, exclusive.2⟩, exclusive.1, solid.1,
      backed.1, permitted.1⟩
  · rintro ⟨⟨known, clear, solid, backed, permitted, exclusive⟩, apart, mine, support, allowed⟩
    exact ⟨known, clear, List.forall_mem_cons.mpr ⟨mine, solid⟩,
      List.forall_mem_cons.mpr ⟨support, backed⟩, List.forall_mem_cons.mpr ⟨allowed, permitted⟩,
      List.pairwise_cons.mpr ⟨apart, exclusive⟩⟩

/-- A holder takes a part of another one's memory, with its start if it gives the memory back. -/
theorem trade (tidy : Tidy zone ledger clock (holder :: holders))
    (owner : other.owner = holder.owner)
    (part : other.extent.Within holder.extent)
    (solid : other.extent.Contains other.extent.start)
    (releases : ∀ call, other.release = some call →
      holder.release = some call ∧ call.Releases other.extent) :
    Tidy zone ledger clock (other :: holders) := by
  obtain ⟨rest, apart, _, ⟨allocation, member, within⟩, allowed⟩ := cons_iff.mp tidy
  refine cons_iff.mpr ⟨rest, fun third inHolders same gives => ?_, solid,
    ⟨allocation, member, part.trans within⟩, fun call released => ?_⟩
  · refine (apart third inHolders (owner.symm.trans same) ?_).mono part
    refine gives.imp_left fun mine => ?_
    obtain ⟨call, released⟩ := Option.isSome_iff_exists.mp mine
    rw [(releases call released).1]
    rfl
  · obtain ⟨before, still⟩ := releases call released
    exact ⟨still, owner ▸ (allowed call before).2⟩

section

variable (tidy : Tidy zone ledger clock holders)

include tidy

theorem add (time : clock ≤ later) (known : allocation.Known later)
    (clear : allocation.extent.Apart (.ofPages zone))
    (apart : ∀ earlier ∈ ledger, earlier.extent.Apart allocation.extent)
    (within : holder.extent.Within allocation.extent)
    (solid : holder.extent.Contains holder.extent.start)
    (releases : ∀ call, holder.release = some call →
      call.Releases holder.extent ∧ Ledger.Permits holder.owner (allocation :: ledger) call) :
    Tidy zone (allocation :: ledger) later (holder :: holders) := by
  have before := tidy.advance time
  refine cons_iff.mpr ⟨⟨List.forall_mem_cons.mpr ⟨known, before.known⟩,
    List.forall_mem_cons.mpr ⟨clear, before.clear⟩, before.solid, fun other member => ?_,
    fun other member call released => ?_, before.exclusive⟩, fun other member _ _ => ?_, solid,
    ⟨allocation, List.mem_cons_self, within⟩, releases⟩
  · obtain ⟨support, inLedger, part⟩ := before.backed other member
    exact ⟨support, List.mem_cons_of_mem _ inLedger, part⟩
  · obtain ⟨matching, allowed⟩ := before.permitted other member call released
    exact ⟨matching, allowed.mono matching fun _ inLedger _ _ => List.mem_cons_of_mem _ inLedger⟩
  · obtain ⟨support, inLedger, part⟩ := before.backed other member
    exact ((apart support inLedger).mono part).symm.mono within

theorem not_contains_next {size : Nat} :
    ∀ other ∈ holders, ¬Extent.Contains ⟨.block clock offset, size⟩ other.extent.start := by
  intro other member contains
  obtain ⟨support, inLedger, part⟩ := tidy.backed other member
  exact (tidy.known support inLedger).apart_next offset size _
    ((tidy.solid other member).of_within part) contains

theorem addBlock (size : Nat) (start : holder.extent.start = .block clock 0)
    (releases : ∀ call, holder.release = some call → call = .free (.block clock 0)) :
    Tidy zone (⟨holder.owner, .allocator, ⟨.block clock 0, size⟩⟩ :: ledger) (clock + 1)
      (holder :: holders) := by
  obtain ⟨_, ⟨_, _⟩, _⟩ := holder
  subst start
  refine tidy.add (Nat.le_succ _) (Nat.lt_succ_self _) (Extent.apart_ofPages_of_block rfl zone)
    (fun earlier member => (tidy.known earlier member).apart_next 0 size) rfl rfl
    fun call gives => ?_
  cases releases call gives
  exact ⟨.inl rfl, size, List.mem_cons_self⟩

theorem addPages {size : Nat}
    (apart : ∀ earlier ∈ ledger, earlier.extent.Apart (.ofPages (address, size)))
    (extent : holder.extent = .ofPages (address, size)) (positive : 0 < size)
    (releases : ∀ call, holder.release = some call → call = .unmap (.direct address) size) :
    Tidy (0, 0) (⟨holder.owner, .pages, .ofPages (address, size)⟩ :: ledger) (clock + 1)
      (holder :: holders) := by
  obtain ⟨_, _, _⟩ := holder
  subst extent
  refine tidy.forget.add (Nat.le_succ _) MemorySource.noConfusion (Extent.apart_ofPages_empty _)
    apart (.refl _) ⟨Nat.le_refl _, Nat.lt_add_of_pos_right positive⟩ fun call gives => ?_
  cases releases call gives
  exact ⟨.inr rfl, List.mem_cons_self⟩

/-- New owners that keep the memory of others without giving it back. -/
theorem share {borrowed : List Holder} (keeps : ∀ borrower ∈ borrowed, borrower.release = none)
    (stranger : ∀ borrower ∈ borrowed, ∀ other ∈ holders, borrower.owner ≠ other.owner)
    (lent : ∀ borrower ∈ borrowed, ∃ other ∈ holders, borrower.extent = other.extent) :
    Tidy zone ledger clock (borrowed ++ holders) := by
  induction borrowed with
  | nil => exact tidy
  | cons borrower borrowed induction =>
    rw [List.forall_mem_cons] at keeps stranger lent
    obtain ⟨other, member, same⟩ := lent.1
    refine cons_iff.mpr ⟨induction keeps.2 stranger.2 lent.2, fun third inRest owner gives => ?_,
      same ▸ tidy.solid other member, same ▸ tidy.backed other member, fun call gives => ?_⟩
    · cases List.mem_append.mp inRest with
      | inl also =>
        rw [keeps.1, keeps.2 third also] at gives
        exact absurd gives (by simp)
      | inr old => exact absurd owner (stranger.1 third old)
    · rw [keeps.1] at gives
      cases gives

theorem without {released : Allocation → Bool}
    (unheld : ∀ allocation ∈ ledger, released allocation = true → ∀ other ∈ holders,
      ¬other.extent.Within allocation.extent ∧ allocation.extent.start ≠ other.extent.start) :
    Tidy zone (ledger.without released) clock holders := by
  have stays : ∀ allocation ∈ ledger.without released, allocation ∈ ledger :=
    fun allocation member => (List.mem_filter.mp member).1
  refine ⟨fun allocation member => tidy.known allocation (stays allocation member),
    fun allocation member => tidy.clear allocation (stays allocation member), tidy.solid,
    fun other member => ?_, fun other member call gives => ?_, tidy.exclusive⟩
  · obtain ⟨support, inLedger, part⟩ := tidy.backed other member
    refine ⟨support, List.mem_filter.mpr ⟨inLedger, ?_⟩, part⟩
    rw [Bool.not_eq_true', ← Bool.not_eq_true]
    exact fun gone => (unheld support inLedger gone other member).1 part
  · obtain ⟨matching, allowed⟩ := tidy.permitted other member call gives
    refine ⟨matching, allowed.mono matching fun allocation inLedger _ same => ?_⟩
    refine List.mem_filter.mpr ⟨inLedger, ?_⟩
    rw [Bool.not_eq_true', ← Bool.not_eq_true]
    exact fun gone => (unheld allocation inLedger gone other member).2 same

end

/-- A holder gives its memory back, to which nobody else has a pointer. -/
theorem release (tidy : Tidy zone ledger clock (holder :: holders)) {call : HostCall}
    (releases : holder.release = some call)
    (loose : ∀ other ∈ holders, other.owner ≠ holder.owner →
      ¬holder.extent.Contains other.extent.start) :
    ledger.Permits holder.owner call ∧
      Tidy zone (ledger.record holder.owner call) clock holders := by
  obtain ⟨rest, apart, solid, _, allowed⟩ := cons_iff.mp tidy
  obtain ⟨matching, permitted⟩ := allowed call releases
  have alone : ∀ other ∈ holders, ¬holder.extent.Contains other.extent.start := by
    intro other member
    by_cases same : holder.owner = other.owner
    · intro contains
      exact apart other member same (.inl (by rw [releases]; rfl)) _ contains
        (rest.solid other member)
    · exact loose other member (Ne.symm same)
  have different : ∀ other ∈ holders, holder.extent.start ≠ other.extent.start :=
    fun other member same => alone other member (same ▸ solid)
  rcases matching with rfl | rfl
  · refine ⟨permitted, rest.without fun allocation inLedger gone other member => ?_⟩
    obtain ⟨source, start⟩ := of_decide_eq_true gone
    refine ⟨fun part => alone other member ?_, start ▸ different other member⟩
    obtain ⟨_, _, block, _⟩ := (tidy.known allocation inLedger).exists_block source
    exact part.contains_of_block block start.symm
  · refine ⟨permitted, rest.without fun allocation inLedger gone other member => ?_⟩
    obtain ⟨_, same⟩ := of_decide_eq_true gone
    rw [same]
    exact ⟨fun part => alone other member ((rest.solid other member).of_within part),
      different other member⟩

theorem lend (tidy : Tidy zone ledger clock (holder :: holders)) (keeps : holder.release = none) :
    Tidy zone (ledger.lend holder.owner holder.extent.start) clock (holder :: holders) := by
  obtain ⟨rest, apart, solid, _, _⟩ := cons_iff.mp tidy
  refine ⟨?_, ?_, tidy.solid, fun other member => ?_, fun other member call gives => ?_,
    tidy.exclusive⟩
  · rw [Ledger.lend, List.forall_mem_map]
    intro allocation inLedger
    have known := tidy.known allocation inLedger
    rw [Allocation.Known] at known ⊢
    rw [Allocation.extent_lend]
    split
    · rename_i start
      rw [start] at known
      exact known
    rename_i start
    rw [start] at known
    rw [Allocation.lend]
    split
    · exact MemorySource.noConfusion
    · exact known
  · rw [Ledger.lend, List.forall_mem_map]
    intro allocation inLedger
    rw [Allocation.extent_lend]
    exact tidy.clear allocation inLedger
  · obtain ⟨_, inLedger, _⟩ := tidy.backed other member
    refine ⟨_, List.mem_map_of_mem inLedger, ?_⟩
    rwa [Allocation.extent_lend]
  · obtain ⟨matching, allowed⟩ := tidy.permitted other member call gives
    have inHolders : other ∈ holders := by
      refine (List.mem_cons.mp member).resolve_left fun same => ?_
      rw [same, keeps] at gives
      cases gives
    refine ⟨matching, allowed.mono matching fun allocation inLedger owner start => ?_⟩
    -- an entry that is marked would belong to two holders
    refine List.mem_map.mpr ⟨allocation, inLedger, if_neg fun marked => ?_⟩
    have common := apart other inHolders (marked.1.symm.trans owner)
      (.inr (by rw [gives]; rfl)) _ solid
    rw [← marked.2, start] at common
    exact common (rest.solid other inHolders)

end Tidy

/-- A session of one owner: its calls are permitted, and the ledger after them is tidy. -/
structure Session (zone : Nat × Nat) (owner : Nat) (ledger : Ledger) (host : HostMemory)
    (holders : List Holder) : Prop where
  permitted : ledger.PermitsAll owner host.calls
  tidy : Tidy zone (ledger.recordAll owner host.calls) host.clock holders

namespace Session

open HostMemory

variable {owner : Nat} {host after : HostMemory} {holder : Holder} {holders others : List Holder}

section

variable (session : Session zone owner ledger host holders)

include session

theorem perm (permuted : holders.Perm others) : Session zone owner ledger host others :=
  ⟨session.permitted, session.tidy.perm permuted⟩

theorem sublist (fewer : others.Sublist holders) : Session zone owner ledger host others :=
  ⟨session.permitted, session.tidy.sublist fewer⟩

theorem forget : Session (0, 0) owner ledger host holders :=
  ⟨session.permitted, session.tidy.forget⟩

theorem congr (calls : after.calls = host.calls)
    (time : host.clock ≤ after.clock) : Session zone owner ledger after holders := by
  obtain ⟨permitted, tidy⟩ := session
  rw [← calls] at permitted tidy
  exact ⟨permitted, tidy.advance time⟩

end

section

variable (session : Session zone owner ledger host (holder :: holders))

include session

theorem release {call : HostCall} (mine : holder.owner = owner)
    (releases : holder.release = some call)
    (loose : ∀ other ∈ holders, other.owner ≠ owner → ¬holder.extent.Contains other.extent.start)
    (calls : after.calls = call :: host.calls) (clock : after.clock = host.clock) :
    Session zone owner ledger after holders := by
  subst mine
  obtain ⟨allowed, tidy⟩ := session.tidy.release releases loose
  constructor
  · rw [calls]
    exact ⟨allowed, session.permitted⟩
  · rw [calls, clock]
    exact tidy

end

theorem calloc (session : Session zone owner ledger host holders) {size : Nat}
    (called : host.calloc size = (some pointer, after)) (mine : holder.owner = owner)
    (start : holder.extent.start = pointer)
    (releases : ∀ call, holder.release = some call → call = .free pointer) :
    Session zone owner ledger after (holder :: holders) := by
  obtain ⟨rfl, calls, clock⟩ := calloc_eq_some called
  subst mine
  constructor
  · rw [calls]
    exact ⟨trivial, session.permitted⟩
  · rw [calls, clock]
    exact session.tidy.addBlock size start releases

theorem realloc (session : Session zone owner ledger host (holder :: holders)) {size : Nat}
    (called : host.realloc holder.extent.start size = (some pointer, after))
    (mine : holder.owner = owner) (releases : holder.release = some (.free holder.extent.start))
    (loose : ∀ other ∈ holders, other.owner ≠ owner → ¬holder.extent.Contains other.extent.start)
    (also : other.owner = owner) (start : other.extent.start = pointer)
    (gives : ∀ call, other.release = some call → call = .free pointer) :
    Session zone owner ledger after (other :: holders) := by
  obtain ⟨rfl, calls, clock⟩ := realloc_eq_some called
  subst mine
  obtain ⟨allowed, tidy⟩ := session.tidy.release releases loose
  constructor
  · rw [calls]
    exact ⟨allowed, session.permitted⟩
  · have added := tidy.addBlock size start gives
    rw [also] at added
    rw [calls, clock]
    exact added

/-- Pages come from either call, where none of the ledger are. -/
theorem mapPages (session : Session zone owner ledger host holders) {size : Nat} {call : HostCall}
    (calls : after.calls = call :: host.calls) (clock : after.clock = host.clock + 1)
    (either : call = .map address size ∨ call = .mapFixed address size)
    (apart : ∀ earlier ∈ ledger.recordAll owner host.calls,
      earlier.extent.Apart (.ofPages (address, size))) (mine : holder.owner = owner)
    (extent : holder.extent = .ofPages (address, size)) (positive : 0 < size)
    (releases : ∀ call, holder.release = some call → call = .unmap (.direct address) size) :
    Session (0, 0) owner ledger after (holder :: holders) := by
  subst mine
  have added := session.tidy.addPages apart extent positive releases
  constructor
  · rw [calls]
    rcases either with rfl | rfl
    · exact ⟨trivial, session.permitted⟩
    · exact ⟨apart, session.permitted⟩
  · rw [calls, clock]
    rcases either with rfl | rfl <;> exact added

end Session

end Foundation
