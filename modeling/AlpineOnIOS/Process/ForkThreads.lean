import AlpineOnIOS.Process.Fork

/-!
# Fork beside other threads

The other threads of a process run on while one of its threads is in `proc_fork`. A store that
comes between the two copies of its byte is lost.
-/

namespace AlpineOnIOS.Process

open Foundation Foundation.HostMemory AddressSpace List

/-- What happens to the shared bytes while a thread is in `proc_fork`. -/
inductive ForkEvent where
  | save (slot : Nat)
  | restore (slot : Nat)
  | child (target : Pointer) (value : UInt8)
  | sibling (thread : Nat) (target : Pointer) (value : UInt8)

/-- The bytes of the saved regions, in the order of the loops. -/
def savedBytes (parent : Space) : List Pointer :=
  ((writableRegions parent).take 64).flatMap fun region =>
    (List.range region.size.toNat).map region.host.add

/-- The host and the backups, by slot. -/
structure ForkMemory where
  host : HostMemory
  backup : Nat → UInt8

namespace ForkMemory

/-- The memory after a store of one byte. -/
def store (memory : ForkMemory) (target : Pointer) (value : UInt8) : ForkMemory :=
  { memory with host := memory.host.store target 1 fun _ => value }

variable (slots : List Pointer)

/-- The memory after an event. -/
def step (memory : ForkMemory) : ForkEvent → ForkMemory
  | .save slot =>
    match slots[slot]? with
    | none => memory
    | some source =>
      { memory with
        backup := Function.update memory.backup slot ((memory.host.load source).getD 0) }
  | .restore slot =>
    match slots[slot]? with
    | none => memory
    | some target => memory.store target (memory.backup slot)
  | .child target value => memory.store target value
  | .sibling _ target value => memory.store target value

/-- The memory after some events. -/
def run (memory : ForkMemory) (events : List ForkEvent) : ForkMemory :=
  events.foldl (step slots) memory

end ForkMemory

namespace ForkEvent

def savedSlot : ForkEvent → Option Nat
  | .save slot => some slot
  | _ => none

def restoredSlot : ForkEvent → Option Nat
  | .restore slot => some slot
  | _ => none

/-- The forking thread saves, lets the child run, and restores; the siblings have no order. -/
def phase : ForkEvent → Option Nat
  | .save _ => some 0
  | .child _ _ => some 1
  | .restore _ => some 2
  | .sibling _ _ _ => none

/-- An event may come behind another one. -/
def Precedes (first second : ForkEvent) : Prop :=
  ∀ early late, first.phase = some early → second.phase = some late → early ≤ late

/-- An event can change a byte. -/
def Touches (slots : List Pointer) (target : Pointer) : ForkEvent → Prop
  | .save _ => False
  | .restore slot => slots[slot]? = some target
  | .child other _ => other = target
  | .sibling _ other _ => other = target

end ForkEvent

/-- An interleaving of one `proc_fork` with its child and the sibling threads. -/
structure ForkRun (slots : List Pointer) (events : List ForkEvent) : Prop where
  saves : events.filterMap ForkEvent.savedSlot = List.range slots.length
  restores : events.filterMap ForkEvent.restoredSlot = List.range slots.length
  order : events.Pairwise ForkEvent.Precedes

variable {slots : List Pointer} {memory : ForkMemory} {target : Pointer} {slot : Nat}
  {events : List ForkEvent}

theorem run_append (front back : List ForkEvent) :
    memory.run slots (front ++ back) = (memory.run slots front).run slots back :=
  foldl_append

theorem run_cons (event : ForkEvent) (events : List ForkEvent) :
    memory.run slots (event :: events) = (memory.step slots event).run slots events := rfl

theorem load_store_self (memory : ForkMemory) (target : Pointer) (value : UInt8) :
    (memory.store target value).host.load target =
      (memory.host.load target).map fun _ => value := by
  have written := load_store_add memory.host target (fun _ => value) Nat.zero_lt_one
  rwa [Pointer.add_zero] at written

theorem load_store_other (memory : ForkMemory) {other : Pointer} (different : target ≠ other)
    (value : UInt8) : (memory.store other value).host.load target = memory.host.load target := by
  refine load_store_of_ne memory.host other _ fun index inside => ?_
  obtain rfl : index = 0 := by omega
  rwa [Pointer.add_zero]

theorem load_step_of_not_touches {event : ForkEvent} (apart : ¬event.Touches slots target) :
    (memory.step slots event).host.load target = memory.host.load target := by
  cases event with
  | save =>
    rw [ForkMemory.step]
    split <;> rfl
  | restore =>
    rw [ForkMemory.step]
    split
    · rfl
    rename_i found
    refine load_store_other memory ?_ _
    rintro rfl
    exact apart found
  | child other value | sibling thread other value =>
    exact load_store_other memory (fun same => apart same.symm) value

theorem isSome_load_step (event : ForkEvent) :
    ((memory.step slots event).host.load target).isSome = (memory.host.load target).isSome := by
  cases event with
  | save =>
    rw [ForkMemory.step]
    split <;> rfl
  | restore =>
    rw [ForkMemory.step]
    split
    · rfl
    · exact isSome_load_store _ _ _ _ _
  | child | sibling => exact isSome_load_store _ _ _ _ _

theorem exists_load_run (present : (memory.host.load target).isSome = true)
    (events : List ForkEvent) : ∃ byte, (memory.run slots events).host.load target = some byte := by
  induction events generalizing memory with
  | nil => exact Option.isSome_iff_exists.mp present
  | cons event events induction => exact induction ((isSome_load_step event).trans present)

theorem load_run_of_not_touches (apart : ∀ event ∈ events, ¬event.Touches slots target) :
    (memory.run slots events).host.load target = memory.host.load target := by
  induction events generalizing memory with
  | nil => rfl
  | cons event events induction =>
    rw [forall_mem_cons] at apart
    rw [run_cons, induction apart.2, load_step_of_not_touches apart.1]

theorem backup_run (unsaved : .save slot ∉ events) :
    (memory.run slots events).backup slot = memory.backup slot := by
  induction events generalizing memory with
  | nil => rfl
  | cons event events induction =>
    rw [mem_cons, not_or] at unsaved
    rw [run_cons, induction unsaved.2]
    cases event with
    | save other =>
      have different : slot ≠ other := fun same => unsaved.1 (congrArg ForkEvent.save same)
      rw [ForkMemory.step]
      split
      · rfl
      · exact Function.update_of_ne different _ _
    | restore =>
      rw [ForkMemory.step]
      split <;> rfl
    | child | sibling => rfl

variable {before after : List ForkEvent}

theorem slot_unique {other : Nat} (distinct : slots.Nodup) (found : slots[slot]? = some target)
    (also : slots[other]? = some target) : slot = other :=
  (List.getElem?_inj (List.getElem?_eq_some_iff.mp found).1 distinct).mp (found.trans also.symm)

theorem exists_of_slots {kind : ForkEvent → Option Nat}
    (all : events.filterMap kind = range slots.length) (found : slots[slot]? = some target) :
    ∃ event ∈ events, kind event = some slot :=
  mem_filterMap.mp (all ▸ mem_range.mpr (List.getElem?_eq_some_iff.mp found).1)

theorem ForkRun.save_mem (run : ForkRun slots events) (found : slots[slot]? = some target) :
    .save slot ∈ events := by
  obtain ⟨event, inEvents, saved⟩ := exists_of_slots run.saves found
  cases event with
  | save =>
    cases saved
    exact inEvents
  | _ => cases saved

theorem ForkRun.restore_mem (run : ForkRun slots events) (found : slots[slot]? = some target) :
    .restore slot ∈ events := by
  obtain ⟨event, inEvents, restored⟩ := exists_of_slots run.restores found
  cases event with
  | restore =>
    cases restored
    exact inEvents
  | _ => cases restored

theorem ForkRun.precedes (run : ForkRun slots (before ++ first :: after)) {second : ForkEvent}
    (member : second ∈ after) : first.Precedes second :=
  (pairwise_cons.mp (pairwise_append.mp run.order).2.1).1 second member

theorem ForkRun.save_not_mem (run : ForkRun slots (before ++ .save slot :: after)) :
    .save slot ∉ after := by
  intro again
  have distinct : ((before ++ .save slot :: after).filterMap ForkEvent.savedSlot).Nodup := by
    rw [run.saves]
    exact nodup_range
  rw [filterMap_append] at distinct
  have tail : (slot :: after.filterMap ForkEvent.savedSlot).Nodup :=
    (nodup_append.mp distinct).2.1
  exact (nodup_cons.mp tail).1 (mem_filterMap.mpr ⟨_, again, rfl⟩)

theorem ForkRun.backup_eq (run : ForkRun slots (before ++ .save slot :: after))
    (found : slots[slot]? = some target) (memory : ForkMemory) :
    (memory.run slots (before ++ .save slot :: after)).backup slot =
      ((memory.run slots before).host.load target).getD 0 := by
  rw [run_append, run_cons, backup_run run.save_not_mem, ForkMemory.step, found]
  exact Function.update_self _ _ _

/-- Behind its restoration a saved byte has the value of its backup, if no sibling stores to it. -/
theorem ForkRun.load_of_restore (run : ForkRun slots (before ++ .restore slot :: after))
    (distinct : slots.Nodup) (found : slots[slot]? = some target)
    (unstored : ∀ thread value, .sibling thread target value ∉ after)
    (present : (memory.host.load target).isSome = true) :
    (memory.run slots (before ++ .restore slot :: after)).host.load target =
      some ((memory.run slots (before ++ .restore slot :: after)).backup slot) := by
  have unsaved : ∀ other, .save other ∉ after := by
    intro other member
    exact absurd (run.precedes member 2 0 rfl rfl) (by decide)
  have childless : ∀ other value, .child other value ∉ after := by
    intro other value member
    exact absurd (run.precedes member 2 1 rfl rfl) (by decide)
  have still : ∀ events : List ForkEvent, (∀ event ∈ events, event ∈ after) →
      ∀ memory : ForkMemory, memory.host.load target = some (memory.backup slot) →
      (memory.run slots events).host.load target =
        some ((memory.run slots events).backup slot) := by
    intro events
    induction events with
    | nil => exact fun _ _ held => held
    | cons event events induction =>
      intro within memory held
      rw [forall_mem_cons] at within
      rw [run_cons]
      refine induction within.2 _ ?_
      cases event with
      | save other => exact absurd within.1 (unsaved other)
      | child other value => exact absurd within.1 (childless other value)
      | sibling thread other value =>
        have different : target ≠ other := by
          rintro rfl
          exact unstored thread value within.1
        exact (load_store_other memory different value).trans held
      | restore =>
        rw [ForkMemory.step]
        split
        · exact held
        rename_i reached found'
        by_cases same : target = reached
        · subst same
          obtain rfl := slot_unique distinct found found'
          rw [load_store_self, held]
          rfl
        · exact (load_store_other memory same _).trans held
  rw [run_append, run_cons]
  refine still after (fun _ member => member) _ ?_
  obtain ⟨_, loaded⟩ := exists_load_run present before
  rw [ForkMemory.step, found]
  rw [load_store_self, loaded]
  rfl

/-- A store is undone: its byte gets another value back that it had when it was saved. -/
def Undone (slots : List Pointer) (memory : ForkMemory) (events after : List ForkEvent)
    (target : Pointer) (value : UInt8) : Prop :=
  ∃ slot, slots[slot]? = some target ∧ .restore slot ∈ after ∧
    ∃ early late, events = early ++ .save slot :: late ∧
      (memory.run slots early).host.load target ≠ some value

/-- A store is overrun: its byte is not saved, and the child stores another value to it. -/
def Overrun (slots : List Pointer) (after : List ForkEvent) (target : Pointer) (value : UInt8) :
    Prop :=
  target ∉ slots ∧ ∃ early late other, after = early ++ .child target other :: late ∧
    (∀ last, .child target last ∉ late) ∧ other ≠ value

theorem exists_last {Item : Type} {condition : Item → Prop} {items : List Item}
    (some : ∃ item ∈ items, condition item) :
    ∃ front item back, items = front ++ item :: back ∧ condition item ∧
      ∀ other ∈ back, ¬condition other := by
  induction items with
  | nil =>
    obtain ⟨_, member, -⟩ := some
    exact absurd member not_mem_nil
  | cons first rest induction =>
    by_cases later : ∃ item ∈ rest, condition item
    · obtain ⟨front, item, back, rfl, met, last⟩ := induction later
      exact ⟨first :: front, item, back, rfl, met, last⟩
    obtain ⟨item, member, met⟩ := some
    have none : ∀ other ∈ rest, ¬condition other := fun other inRest held =>
      later ⟨other, inRest, held⟩
    rcases mem_cons.mp member with rfl | inRest
    · exact ⟨[], item, rest, rfl, met, none⟩
    · exact absurd met (none item inRest)

variable {thread : Nat} {value : UInt8}

theorem ForkRun.visible_of_restored
    (run : ForkRun slots (before ++ .sibling thread target value :: after))
    (distinct : slots.Nodup) (present : (memory.host.load target).isSome = true)
    (unstored : ∀ other byte, .sibling other target byte ∉ after)
    (found : slots[slot]? = some target) (restored : .restore slot ∈ after) :
    (memory.run slots (before ++ .sibling thread target value :: after)).host.load target =
        some value ↔
      ¬Undone slots memory (before ++ .sibling thread target value :: after) after target
        value := by
  obtain ⟨first, rest, rfl⟩ := append_of_mem restored
  have shown := run
  rw [show before ++ .sibling thread target value :: (first ++ .restore slot :: rest) =
    (before ++ .sibling thread target value :: first) ++ .restore slot :: rest by simp] at shown
  have final := shown.load_of_restore distinct found
    (fun other byte member => unstored other byte (by simp [member])) present
  rw [append_assoc, cons_append] at final
  rw [final, Option.some.injEq]
  -- the byte was saved once
  have unique : ∀ early late, before ++ .sibling thread target value ::
      (first ++ .restore slot :: rest) = early ++ .save slot :: late →
      (memory.run slots (before ++ .sibling thread target value ::
        (first ++ .restore slot :: rest))).backup slot =
        ((memory.run slots early).host.load target).getD 0 := by
    intro early late split
    rw [split] at run ⊢
    exact run.backup_eq found memory
  have shows : ∀ early : List ForkEvent, (memory.run slots early).host.load target =
      some (((memory.run slots early).host.load target).getD 0) := by
    intro early
    obtain ⟨_, loaded⟩ := exists_load_run present early
    rw [loaded, Option.getD_some]
  constructor
  · rintro same ⟨_, found', -, early, late, split, changed⟩
    obtain rfl := slot_unique distinct found found'
    rw [shows early, ← unique early late split, same] at changed
    exact changed rfl
  · intro kept
    obtain ⟨early, late, split⟩ := append_of_mem (run.save_mem found)
    by_contra different
    refine kept ⟨slot, found, restored, early, late, split, ?_⟩
    rw [shows early, ← unique early late split]
    exact fun same => different (Option.some.inj same)

theorem not_touches (unrestored : ∀ slot, slots[slot]? = some target → .restore slot ∉ events)
    (childless : ∀ byte, .child target byte ∉ events)
    (unstored : ∀ thread byte, .sibling thread target byte ∉ events) :
    ∀ event ∈ events, ¬event.Touches slots target := by
  intro event member touches
  cases event with
  | save => exact touches
  | restore => exact unrestored _ touches member
  | child =>
    cases touches
    exact childless _ member
  | sibling =>
    cases touches
    exact unstored _ _ member

/-- A last store of the siblings to a byte is visible exactly if neither undone nor overrun. -/
theorem ForkRun.visible_iff (run : ForkRun slots (before ++ .sibling thread target value :: after))
    (distinct : slots.Nodup) (present : (memory.host.load target).isSome = true)
    (unstored : ∀ other byte, .sibling other target byte ∉ after) :
    (memory.run slots (before ++ .sibling thread target value :: after)).host.load target =
        some value ↔
      ¬Undone slots memory (before ++ .sibling thread target value :: after) after target value ∧
        ¬Overrun slots after target value := by
  have stored : ((memory.run slots before).step slots (.sibling thread target value)).host.load
      target = some value := by
    obtain ⟨_, loaded⟩ := exists_load_run present before
    exact (load_store_self _ target value).trans (by rw [loaded]; rfl)
  by_cases saved : target ∈ slots
  · have safe : ¬Overrun slots after target value := fun overrun => overrun.1 saved
    obtain ⟨slot, found⟩ := mem_iff_getElem?.mp saved
    by_cases restored : .restore slot ∈ after
    · rw [run.visible_of_restored distinct present unstored found restored]
      exact (and_iff_left safe).symm
    -- the byte is restored before, and the child is gone
    have earlier : .restore slot ∈ before := by
      rcases mem_append.mp (run.restore_mem found) with early | late
      · exact early
      rcases mem_cons.mp late with same | late
      · cases same
      · exact absurd late restored
    have unrestored : ∀ other, slots[other]? = some target → .restore other ∉ after :=
      fun other found' => slot_unique distinct found found' ▸ restored
    have quiet : ∀ event ∈ after, ¬event.Touches slots target := by
      refine not_touches unrestored (fun byte member => ?_) unstored
      have order := (pairwise_append.mp run.order).2.2 _ earlier _ (mem_cons_of_mem _ member)
      exact absurd (order 2 1 rfl rfl) (by decide)
    have visible : (memory.run slots
        (before ++ .sibling thread target value :: after)).host.load target = some value := by
      rw [run_append, run_cons, load_run_of_not_touches quiet, stored]
    refine iff_of_true visible ⟨?_, safe⟩
    rintro ⟨_, found', late, -⟩
    exact unrestored _ found' late
  · have kept : ¬Undone slots memory (before ++ .sibling thread target value :: after) after target
        value := fun ⟨slot, found, _⟩ => saved (mem_of_getElem? found)
    -- only the child stores to the byte
    have unrestored : ∀ events : List ForkEvent, ∀ slot, slots[slot]? = some target →
        .restore slot ∉ events := fun _ _ found => absurd (mem_of_getElem? found) saved
    have last : ∀ early late other, after = early ++ .child target other :: late →
        (∀ byte, .child target byte ∉ late) →
        (memory.run slots (before ++ .sibling thread target value :: after)).host.load target =
          some other := by
      rintro early late other rfl childless
      obtain ⟨_, loaded⟩ := exists_load_run (Option.isSome_of_mem stored) early
      rw [run_append, run_cons, run_append, run_cons,
        load_run_of_not_touches (not_touches (unrestored late) childless fun thread byte member =>
          unstored thread byte (by simp [member]))]
      exact (load_store_self _ target other).trans (by rw [loaded]; rfl)
    constructor
    · intro visible
      refine ⟨kept, fun ⟨_, early, late, other, split, childless, different⟩ => different ?_⟩
      rw [last early late other split childless] at visible
      exact Option.some.inj visible
    · rintro ⟨-, safe⟩
      by_cases child : ∃ event ∈ after, ∃ byte, event = .child target byte
      · obtain ⟨early, _, late, split, ⟨other, rfl⟩, childless⟩ := exists_last child
        have none : ∀ byte, .child target byte ∉ late := fun byte member =>
          childless _ member ⟨byte, rfl⟩
        rw [last early late other split none]
        by_contra different
        exact safe ⟨saved, early, late, other, split, none, fun same => different (by rw [same])⟩
      · have quiet := not_touches (unrestored after)
          (fun byte member => child ⟨_, member, byte, rfl⟩) unstored
        rw [run_append, run_cons, load_run_of_not_touches quiet, stored]

variable {parent : Space} {host : HostMemory}

theorem savedBytes_nodup (ordered : Ordered parent.regions)
    (backing : Backing host parent.regions) : (savedBytes parent).Nodup := by
  have within : ∀ region ∈ (writableRegions parent).take 64, region ∈ parent.regions :=
    fun region member => (mem_writableRegions.mp (mem_of_mem_take member)).1
  rw [savedBytes, nodup_flatMap]
  refine ⟨fun region member => ?_, ?_⟩
  · refine nodup_range.map_on fun first inFirst second inSecond same => ?_
    rw [mem_range] at inFirst inSecond
    have stop : region.stop = region.start + region.size.toNat := rfl
    have addresses := backing.separate region (within region member) region (within region member)
      (region.start + first) (region.start + second) (by omega) (by omega) (by omega) (by omega)
      (by rw [Nat.add_sub_cancel_left, Nat.add_sub_cancel_left, same])
    omega
  · refine (writableRegions_nodup ordered).take.imp_of_mem ?_
    intro region other member also different
    refine disjoint_left.mpr fun pointer here there => ?_
    rw [mem_map] at here there
    obtain ⟨first, inFirst, rfl⟩ := here
    obtain ⟨second, inSecond, same⟩ := there
    rw [mem_range] at inFirst inSecond
    exact not_leads_of_ne ordered backing (within region member) (within other also) different
      ⟨first, inFirst, rfl⟩ ⟨second, inSecond, same.symm⟩

/-- A store of a sibling is visible exactly if it is neither undone nor overrun. -/
theorem fork_keeps_sibling_store_iff (ordered : Ordered parent.regions)
    (backing : Backing host parent.regions) (run : ForkRun (savedBytes parent) events)
    {before after : List ForkEvent} {thread : Nat} {target : Pointer} {value : UInt8}
    (split : events = before ++ .sibling thread target value :: after)
    (writable : ∃ region ∈ parent.regions, Writable region ∧ Leads region target)
    (unstored : ∀ other byte, .sibling other target byte ∉ after) (backup : Nat → UInt8) :
    ((ForkMemory.mk host backup).run (savedBytes parent) events).host.load target = some value ↔
      ¬Undone (savedBytes parent) (.mk host backup) events after target value ∧
        ¬Overrun (savedBytes parent) after target value := by
  subst split
  obtain ⟨region, member, -, index, _, rfl⟩ := writable
  have stop : region.stop = region.start + region.size.toNat := rfl
  have byte := backing.loads region member (region.start + index) (by omega) (by omega)
  rw [Region.byteAt, if_pos ⟨by omega, by omega⟩, Nat.add_sub_cancel_left] at byte
  exact run.visible_iff (savedBytes_nodup ordered backing) byte unstored

variable {middle : List ForkEvent}

/-- A run in which everything else happens between the two loops. -/
def around (slots : List Pointer) (middle : List ForkEvent) : List ForkEvent :=
  (List.range slots.length).map .save ++ (middle ++ (List.range slots.length).map .restore)

/-- The events of the forking thread and its child among some events belong to one phase. -/
def InPhase (phase : Nat) (events : List ForkEvent) : Prop :=
  ∀ event ∈ events, ∀ other, event.phase = some other → other = phase

theorem InPhase.precedes {low high : Nat} {front back : List ForkEvent} (first : InPhase low front)
    (second : InPhase high back) (le : low ≤ high) :
    ∀ early ∈ front, ∀ late ∈ back, early.Precedes late := by
  intro early inFront late inBack phase other foundEarly foundLate
  rw [first early inFront phase foundEarly, second late inBack other foundLate]
  exact le

theorem InPhase.pairwise {phase : Nat} (same : InPhase phase events) :
    events.Pairwise ForkEvent.Precedes :=
  pairwise_of_forall_mem_list (same.precedes same (Nat.le_refl _))

theorem inPhase_map {phase : Nat} {make : Nat → ForkEvent}
    (all : ∀ slot, (make slot).phase = some phase) (slots : List Nat) :
    InPhase phase (slots.map make) := by
  intro event member other found
  obtain ⟨slot, -, rfl⟩ := mem_map.mp member
  exact Option.some.inj (found.symm.trans (all slot))

theorem filterMap_savedSlot {phase : Nat} (same : InPhase phase events)
    (later : phase ≠ 0) : events.filterMap ForkEvent.savedSlot = [] := by
  refine filterMap_eq_nil_iff.mpr fun event member => ?_
  cases event with
  | save => exact absurd (same _ member 0 rfl).symm later
  | _ => rfl

theorem filterMap_restoredSlot {phase : Nat} (same : InPhase phase events) (earlier : phase ≠ 2) :
    events.filterMap ForkEvent.restoredSlot = [] := by
  refine filterMap_eq_nil_iff.mpr fun event member => ?_
  cases event with
  | restore => exact absurd (same _ member 2 rfl).symm earlier
  | _ => rfl

theorem forkRun_around (slots : List Pointer) (between : InPhase 1 middle) :
    ForkRun slots (around slots middle) := by
  have saves : InPhase 0 ((range slots.length).map .save) := inPhase_map (fun _ => rfl) _
  have restores : InPhase 2 ((range slots.length).map .restore) := inPhase_map (fun _ => rfl) _
  refine ⟨?_, ?_, ?_⟩
  · rw [around, filterMap_append, filterMap_append,
      filterMap_savedSlot between (by decide), filterMap_savedSlot restores (by decide),
      append_nil, append_nil, filterMap_map]
    exact filterMap_some
  · rw [around, filterMap_append, filterMap_append,
      filterMap_restoredSlot between (by decide), filterMap_restoredSlot saves (by decide),
      nil_append, nil_append, filterMap_map]
    exact filterMap_some
  · rw [around, pairwise_append, pairwise_append]
    refine ⟨saves.pairwise, ⟨between.pairwise, restores.pairwise,
      between.precedes restores (by decide)⟩, fun early inFront late inBack => ?_⟩
    rcases mem_append.mp inBack with inMiddle | last
    · exact saves.precedes between (by decide) early inFront late inMiddle
    · exact saves.precedes restores (by decide) early inFront late last

theorem ForkRun.concat_sibling (run : ForkRun slots events)
    (thread : Nat) (target : Pointer) (value : UInt8) :
    ForkRun slots (events ++ [.sibling thread target value]) := by
  refine ⟨?_, ?_, ?_⟩
  · rw [filterMap_append, run.saves]
    exact append_nil _
  · rw [filterMap_append, run.restores]
    exact append_nil _
  · refine pairwise_append.mpr ⟨run.order, pairwise_singleton _ _, ?_⟩
    intro early _ late inLast phase other _ found
    rw [mem_singleton] at inLast
    rw [inLast] at found
    cases found

/-- Whatever comes between the loops, a saved byte gets its old value back. -/
theorem load_around (between : InPhase 1 middle) (distinct : slots.Nodup)
    (found : slots[slot]? = some target) (present : (memory.host.load target).isSome = true) :
    (memory.run slots (around slots middle)).host.load target = memory.host.load target := by
  have run := forkRun_around slots between
  have inRange : slot ∈ range slots.length :=
    List.mem_range.mpr (List.getElem?_eq_some_iff.mp found).1
  obtain ⟨early, late, split⟩ := append_of_mem inRange
  have saved : around slots middle = early.map ForkEvent.save ++ .save slot ::
      (late.map .save ++ (middle ++ (range slots.length).map .restore)) := by
    rw [around]
    nth_rewrite 1 [split]
    simp
  have restored : around slots middle =
      ((range slots.length).map ForkEvent.save ++ (middle ++ early.map .restore)) ++
        .restore slot :: late.map .restore := by
    rw [around]
    nth_rewrite 2 [split]
    simp
  have quiet : ∀ event ∈ early.map ForkEvent.save, ¬event.Touches slots target := by
    intro event member
    obtain ⟨_, -, rfl⟩ := mem_map.mp member
    exact id
  have backup := (saved ▸ run).backup_eq found memory
  rw [load_run_of_not_touches quiet, ← saved] at backup
  have final := (restored ▸ run).load_of_restore distinct found
    (fun thread value member => by
      obtain ⟨_, -, same⟩ := mem_map.mp member
      cases same) present
  rw [← restored, backup] at final
  obtain ⟨_, loaded⟩ := Option.isSome_iff_exists.mp present
  rw [final, loaded, Option.getD_some]

theorem ordered_forkSpace : Ordered (forkSpace 1).regions := .singleton ⟨by decide, by decide⟩

theorem backing_forkSpace : Backing forkHost (forkSpace 1).regions :=
  NativeSound.backing ⟨rfl, fun _ => rfl, ordered_forkSpace, forall_mem_singleton.2 rfl,
    fun _ _ _ _ _ => rfl⟩

/-- A store behind the second loop is visible. -/
theorem fork_keeps_late_sibling_store :
    ((ForkMemory.mk forkHost fun _ => 0).run (savedBytes (forkSpace 1))
      (around (savedBytes (forkSpace 1)) [] ++ [.sibling 1 (.direct 0x10000) 9])).host.load
        (.direct 0x10000) = some 9 := by
  have nothing : InPhase 1 [] := fun _ absent => absurd absent not_mem_nil
  have run := (forkRun_around (savedBytes (forkSpace 1)) nothing).concat_sibling 1
    (.direct 0x10000) 9
  refine (fork_keeps_sibling_store_iff ordered_forkSpace backing_forkSpace run rfl
    ⟨_, mem_cons_self, rfl, 0, by decide, rfl⟩ (fun _ _ => not_mem_nil) fun _ => 0).mpr ⟨?_, ?_⟩
  · rintro ⟨_, -, absent, -⟩
    exact absurd absent not_mem_nil
  · rintro ⟨-, _, _, _, split, -⟩
    exact absurd split (by simp)

/-- A store between the loops is lost: the byte is 7 again. -/
theorem fork_loses_sibling_store :
    ForkRun (savedBytes (forkSpace 1))
        (around (savedBytes (forkSpace 1)) [.sibling 1 (.direct 0x10000) 9]) ∧
      ((ForkMemory.mk forkHost fun _ => 0).run (savedBytes (forkSpace 1))
        (around (savedBytes (forkSpace 1)) [.sibling 1 (.direct 0x10000) 9])).host.load
          (.direct 0x10000) = some 7 := by
  have between : InPhase 1 [.sibling 1 (.direct 0x10000) 9] := by
    intro event member other found
    rw [mem_singleton] at member
    rw [member] at found
    cases found
  have first : (savedBytes (forkSpace 1))[0]? = some (.direct 0x10000) := by decide +kernel
  refine ⟨forkRun_around _ between, ?_⟩
  exact load_around between (savedBytes_nodup ordered_forkSpace backing_forkSpace) first rfl

end AlpineOnIOS.Process
