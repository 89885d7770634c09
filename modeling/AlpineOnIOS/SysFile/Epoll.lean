import AlpineOnIOS.Foundation.Runs
import Mathlib.Data.List.Nodup

/-!
# Interest lists

An entry of an interest list keeps the host descriptor that its number had when it was added, and
neither `fd_close` nor `do_dup3` knows the list.  `do_epoll_pwait` polls all entries anew and never
looks at `EPOLLONESHOT` and `EPOLLET`.
-/

namespace AlpineOnIOS.Epoll

open Foundation List

/-- A number with its host descriptor and the file that it designates. -/
structure Slot where
  fd : Nat
  realFd : Nat
  file : Nat
  deriving DecidableEq

/-- A `struct epoll_entry`, with `fd` and `real_fd` in the slot. -/
structure Entry where
  slot : Slot
  events : UInt32
  data : UInt64
  deriving DecidableEq

/-- The data last registered for a number, and whether it has been reported since then. -/
structure Registration where
  data : UInt64 := 0
  reported : Bool := false
  idle : Bool := false

/-- The table with one list, whose own number is never ready and left out. -/
structure State where
  table : List Slot := []
  files : Nat := 0
  entries : List Entry := []
  history : Nat → Registration := fun _ => {}

inductive Op where
  | add
  | mod
  | del
  | other
  deriving DecidableEq

/-- The loop over the entries that acts on the first one of a number and those behind it. -/
def atFirst (tfd : Nat) (act : Entry → List Entry → List Entry) : List Entry → Option (List Entry)
  | [] => none
  | entry :: rest =>
    if entry.slot.fd = tfd then some (act entry rest)
    else (atFirst tfd act rest).map (entry :: ·)

/-- The result and the state after a call, with the words at `a3` if they can be read. -/
def doEpollCtl (state : State) (op : Op) (tfd : Nat) (event : Option (UInt32 × UInt64)) :
    Int × State :=
  match state.table.find? (·.fd = tfd), if op = .del then some (0, 0) else event with
  | none, _ => (-9, state)
  | some _, none => (-14, state)
  | some slot, some (events, data) =>
    let history := Function.update state.history tfd { data }
    match op with
    | .add =>
      if 256 ≤ state.entries.length then (-12, state)
      else if ∃ entry ∈ state.entries, entry.slot.fd = tfd then (-17, state)
      else (0, { state with entries := state.entries ++ [{ slot, events, data }], history })
    | .mod =>
      match atFirst tfd (fun entry rest => { entry with events, data } :: rest) state.entries with
      | none => (-2, state)
      | some entries => (0, { state with entries, history })
    | .del =>
      -- the last entry takes the place
      match atFirst tfd (fun _ rest => rest.getLast?.toList ++ rest.dropLast) state.entries with
      | none => (-2, state)
      | some entries => (0, { state with entries })
    | .other => (-22, state)

/-- The entries that `do_epoll_pwait` reports, by what `poll` finds. -/
def reports (state : State) (maxevents : Nat) (ready : Entry → Bool) : List Entry :=
  (state.entries.filter ready).take maxevents

def fdClose (table : List Slot) (fd : Nat) : List Slot := table.filter (·.fd ≠ fd)

/-- A number gets a host descriptor, which the host takes from those not in use. -/
def install (state : State) (slot : Slot) : Option State :=
  if slot.realFd ∈ state.table.map Slot.realFd then none
  else some { state with table := slot :: fdClose state.table slot.fd, files := state.files + 1 }

inductive Event where
  | ctl (op : Op) (tfd : Nat) (event : Option (UInt32 × UInt64))
  | openat (fd realFd : Nat)
  | close (fd : Nat)
  | dup3 (oldfd newfd dupfd : Nat)
  | pwait (maxevents : Nat) (ready : Entry → Bool)
  | arrive (fd : Nat)

/-- A call, or new readiness. -/
def step (state : State) : Event → Option State
  | .ctl op tfd event => some (doEpollCtl state op tfd event).2
  | .openat fd realFd =>
    if fd ∈ state.table.map Slot.fd then none else install state ⟨fd, realFd, state.files⟩
  | .close fd => some { state with table := fdClose state.table fd }
  | .dup3 oldfd newfd dupfd =>
    match state.table.find? (·.fd = oldfd) with
    | none => some state
    | some slot => if oldfd = newfd then some state else install state ⟨newfd, dupfd, slot.file⟩
  | .pwait maxevents ready => some { state with
      history := fun fd =>
        if ∃ entry ∈ reports state maxevents ready, entry.slot.fd = fd then
          { state.history fd with reported := true, idle := true }
        else state.history fd }
  | .arrive fd => some { state with
      history := Function.update state.history fd { state.history fd with idle := false } }

variable {state next : State} {tfd : Nat} {entries changed rest : List Entry} {events : UInt32}
  {data : UInt64} {slot : Slot} {event : Event}

theorem perm_of_atFirst {act : Entry → List Entry → List Entry} (made : Entry → List Entry)
    (changes : atFirst tfd act entries = some changed)
    (acts : ∀ entry rest, (act entry rest).Perm (made entry ++ rest)) :
    ∃ entry rest, entry.slot.fd = tfd ∧ entries.Perm (entry :: rest) ∧
      changed.Perm (made entry ++ rest) := by
  induction entries generalizing changed with
  | nil => cases changes
  | cons first others induction =>
    rw [atFirst] at changes
    split at changes
    · cases changes
      exact ⟨first, others, ‹_›, .refl _, acts first others⟩
    obtain ⟨later, deeper, rfl⟩ := Option.map_eq_some_iff.mp changes
    obtain ⟨entry, rest, same, before, after⟩ := induction deeper
    exact ⟨entry, first :: rest, same, (before.cons _).trans (.swap ..),
      (after.cons _).trans perm_middle.symm⟩

/-- One entry for a number at most, with current data, and one number for a host descriptor. -/
structure Sound (state : State) : Prop where
  distinct : (state.entries.map (·.slot.fd)).Nodup
  data : ∀ entry ∈ state.entries, (state.history entry.slot.fd).data = entry.data
  apart : (state.table.map Slot.realFd).Nodup

theorem Sound.register (sound : Sound state) (old : rest ⊆ state.entries)
    (distinct : (slot.fd :: rest.map (·.slot.fd)).Nodup)
    (after : changed.Perm ({ slot, events, data } :: rest)) :
    Sound { state with
      entries := changed, history := Function.update state.history slot.fd { data } } := by
  refine ⟨(after.map _).nodup_iff.mpr distinct, fun entry member => ?_, sound.apart⟩
  rcases mem_cons.mp (after.mem_iff.mp member) with rfl | inRest
  · simp
  have other : entry.slot.fd ≠ slot.fd := fun same =>
    (nodup_cons.mp distinct).1 (mem_map.mpr ⟨entry, inRest, same⟩)
  simpa [other] using sound.data entry (old inRest)

/-- The entries after a call are old ones and one with the words of the call. -/
theorem Sound.ctl {op : Op} {event : Option (UInt32 × UInt64)} {property : Entry → Prop}
    (sound : Sound state) (old : ∀ entry ∈ state.entries, property entry)
    (new : ∀ slot events data, event = some (events, data) →
      slot ∈ state.table ∨ slot ∈ state.entries.map Entry.slot → property ⟨slot, events, data⟩) :
    Sound (doEpollCtl state op tfd event).2 ∧
      ∀ entry ∈ (doEpollCtl state op tfd event).2.entries, property entry := by
  rw [doEpollCtl]
  split
  · exact ⟨sound, old⟩
  · exact ⟨sound, old⟩
  rename_i slot events data found words
  obtain rfl : slot.fd = tfd := by simpa using find?_some found
  cases op with
  | add =>
    dsimp only
    split_ifs with full present
    · exact ⟨sound, old⟩
    · exact ⟨sound, old⟩
    have after := perm_append_singleton (⟨slot, events, data⟩ : Entry) state.entries
    refine ⟨sound.register (List.Subset.refl _) ?_ after, ?_⟩
    · simpa [sound.distinct] using present
    · rw [forall_mem_append, forall_mem_singleton]
      exact ⟨old, new slot events data words (.inl (mem_of_find?_eq_some found))⟩
  | mod =>
    dsimp only
    split
    · exact ⟨sound, old⟩
    obtain ⟨entry, rest, same, before, after⟩ :=
      perm_of_atFirst (fun entry => [{ entry with events, data }]) ‹_› fun _ _ => .refl _
    have listed : entry :: rest ⊆ state.entries := before.symm.subset
    have others := subset_of_cons_subset listed
    rw [← same]
    refine ⟨sound.register others ((before.map _).nodup_iff.mp sound.distinct) after,
      fun other member => ?_⟩
    rcases mem_cons.mp (after.mem_iff.mp member) with rfl | inRest
    · exact new _ _ _ words (.inr (mem_map_of_mem (listed mem_cons_self)))
    · exact old other (others inRest)
  | del =>
    dsimp only
    split
    · exact ⟨sound, old⟩
    obtain ⟨entry, rest, -, before, after⟩ := perm_of_atFirst (fun _ => []) ‹_›
      fun _ rest => by
        rcases rest.eq_nil_or_concat' with rfl | ⟨_, _, rfl⟩
        · exact .nil
        · simpa using (perm_append_singleton _ _).symm
    have kept := List.Subset.trans after.subset (subset_of_cons_subset before.symm.subset)
    have distinct := ((before.map _).nodup_iff.mp sound.distinct).of_cons
    exact ⟨⟨(after.map _).nodup_iff.mpr distinct, fun other member => sound.data other
      (kept member), sound.apart⟩, fun other member => old other (kept member)⟩
  | other => exact ⟨sound, old⟩

theorem Sound.installed (sound : Sound state) (installed : install state slot = some next) :
    Sound next := by
  rw [install, Option.ite_none_left_eq_some] at installed
  obtain ⟨unused, same⟩ := installed
  cases same
  have closed := filter_sublist (p := (·.fd ≠ slot.fd)) (l := state.table)
  exact ⟨sound.distinct, sound.data, nodup_cons.mpr
    ⟨fun member => unused ((closed.map _).subset member), sound.apart.sublist (closed.map _)⟩⟩

theorem table_doEpollCtl (op : Op) (event : Option (UInt32 × UInt64)) :
    (doEpollCtl state op tfd event).2.table = state.table := by
  simp only [doEpollCtl]
  repeat' split
  all_goals rfl

theorem entries_install (installed : install state slot = some next) :
    next.entries = state.entries := by
  rw [install, Option.ite_none_left_eq_some] at installed
  cases installed.2
  rfl

/-- The entries after a step are old ones and one with the words of a call. -/
theorem Sound.after {property : Entry → Prop} (sound : Sound state)
    (stepped : step state event = some next) (old : ∀ entry ∈ state.entries, property entry)
    (new : ∀ op tfd slot events data, event = .ctl op tfd (some (events, data)) →
      slot ∈ state.table ∨ slot ∈ state.entries.map Entry.slot → property ⟨slot, events, data⟩) :
    Sound next ∧ ∀ entry ∈ next.entries, property entry := by
  have installs : ∀ {slot : Slot}, install state slot = some next →
      Sound next ∧ ∀ entry ∈ next.entries, property entry := fun installed =>
    ⟨sound.installed installed, by rwa [entries_install installed]⟩
  cases event with
  | ctl op tfd words =>
    cases stepped
    refine sound.ctl old fun slot events data same => new op tfd slot events data ?_
    rw [same]
  | openat fd realFd =>
    rw [step, Option.ite_none_left_eq_some] at stepped
    exact installs stepped.2
  | close fd =>
    cases stepped
    exact ⟨⟨sound.distinct, sound.data, sound.apart.sublist (filter_sublist.map _)⟩, old⟩
  | dup3 oldfd newfd dupfd =>
    rw [step] at stepped
    split at stepped
    · cases stepped
      exact ⟨sound, old⟩
    split at stepped
    · cases stepped
      exact ⟨sound, old⟩
    · exact installs stepped
  | pwait maxevents ready =>
    cases stepped
    refine ⟨⟨sound.distinct, fun entry member => ?_, sound.apart⟩, old⟩
    dsimp only
    split <;> exact sound.data entry member
  | arrive fd =>
    cases stepped
    refine ⟨⟨sound.distinct, fun entry member => ?_, sound.apart⟩, old⟩
    by_cases same : entry.slot.fd = fd <;> simpa [same] using sound.data entry member

/-- Each entry is for the file of its number, and polls no other file's host descriptor. -/
structure Tracked (state : State) : Prop where
  current : ∀ entry ∈ state.entries, entry.slot ∈ state.table
  distinct : (state.entries.map (·.slot.fd)).Nodup
  polled : ∀ entry ∈ state.entries, ∀ slot ∈ state.table, slot.realFd = entry.slot.realFd →
    slot.file = entry.slot.file

/-- No number of the list is closed or replaced. -/
def Careful (state : State) : Event → Prop
  | .close fd | .dup3 _ fd _ => ∀ entry ∈ state.entries, entry.slot.fd ≠ fd
  | _ => True

theorem mem_table_of_careful (careful : Careful state event)
    (stepped : step state event = some next)
    (current : ∀ entry ∈ state.entries, entry.slot ∈ state.table) :
    ∀ entry ∈ state.entries, entry.slot ∈ next.table := by
  have installs : ∀ {slot : Slot}, (∀ entry ∈ state.entries, entry.slot.fd ≠ slot.fd) →
      install state slot = some next → ∀ entry ∈ state.entries, entry.slot ∈ next.table := by
    intro slot other installed entry member
    rw [install, Option.ite_none_left_eq_some] at installed
    cases installed.2
    simp [fdClose, current entry member, other entry member]
  cases event with
  | ctl op tfd event =>
    cases stepped
    rwa [table_doEpollCtl]
  | openat fd realFd =>
    rw [step, Option.ite_none_left_eq_some] at stepped
    refine installs (fun entry member same => stepped.1 ?_) stepped.2
    exact mem_map.mpr ⟨_, current entry member, same⟩
  | close fd =>
    cases stepped
    exact fun entry member => by simp [fdClose, current entry member, careful entry member]
  | dup3 oldfd newfd dupfd =>
    rw [step] at stepped
    split at stepped
    · cases stepped
      exact current
    split at stepped
    · cases stepped
      exact current
    · refine installs ?_ stepped
      exact careful
  | pwait | arrive =>
    cases stepped
    exact current

/-- As long as no number of the list is closed or replaced, the list tracks the files. -/
theorem interest_tracked {events : List Event} (careful : Along step Careful {} events) :
    Along step (fun state event => ∀ next, step state event = some next → Tracked next) {}
      events := by
  refine .of_invariant (fun state => Sound state ∧ ∀ entry ∈ state.entries,
    entry.slot ∈ state.table) ?_ careful ⟨⟨.nil, nofun, .nil⟩, nofun⟩
  rintro state event careful ⟨sound, current⟩
  have kept : ∀ next, step state event = some next → Sound next ∧ ∀ entry ∈ next.entries,
      entry.slot ∈ next.table := by
    intro next stepped
    refine sound.after stepped (mem_table_of_careful careful stepped current) ?_
    rintro op tfd slot events data rfl known
    cases stepped
    rw [table_doEpollCtl]
    rcases known with inTable | listed
    · exact inTable
    · obtain ⟨entry, member, rfl⟩ := mem_map.mp listed
      exact current entry member
  refine ⟨fun next stepped => ?_, kept⟩
  obtain ⟨after, still⟩ := kept next stepped
  refine ⟨still, after.distinct, fun entry member slot inTable same => ?_⟩
  rw [inj_on_of_nodup_map after.apart inTable (still entry member) same]

theorem interest_tracked_sample :
    Along step (fun state event => ∀ next, step state event = some next → Tracked next) {}
      [.openat 0 7, .ctl .add 0 (some (1, 5)), .ctl .del 0 none, .close 0] :=
  interest_tracked (.cons rfl trivial (.cons rfl trivial (.cons rfl trivial (.cons rfl nofun
    trivial))))

/-- The entry of a closed number stays and polls a host descriptor that belongs to another file. -/
theorem interest_outlives_close :
    ∃ state, run step {} [.openat 0 7, .ctl .add 0 (some (1, 5)), .close 0, .openat 0 8,
      .openat 1 7] = some state ∧ ¬Tracked state := by
  refine ⟨_, rfl, fun tracked => ?_⟩
  have same := tracked.polled ⟨⟨0, 7, 0⟩, 1, 5⟩ (by decide) ⟨1, 7, 2⟩ (by decide) rfl
  exact absurd same (by decide)

def epollOneshot : UInt32 := 0x40000000

def epollEt : UInt32 := 0x80000000

/-- A report has current data, comes once if it should, and with `EPOLLET` for new readiness. -/
def Lawful (state : State) : Event → Prop
  | .pwait maxevents ready => ∀ entry ∈ reports state maxevents ready,
    let registration := state.history entry.slot.fd
    entry.data = registration.data ∧
      (entry.events &&& epollOneshot ≠ 0 → registration.reported = false) ∧
      (entry.events &&& epollEt ≠ 0 → registration.idle = false)
  | _ => True

/-- A call registers neither `EPOLLONESHOT` nor `EPOLLET`. -/
def Plain : Event → Prop
  | .ctl _ _ (some (events, _)) => events &&& epollOneshot = 0 ∧ events &&& epollEt = 0
  | _ => True

/-- Without `EPOLLONESHOT` and `EPOLLET` every report is lawful. -/
theorem reports_lawful {events : List Event} (plain : ∀ event ∈ events, Plain event) :
    Along step Lawful {} events := by
  refine .of_invariant (fun state => Sound state ∧ ∀ entry ∈ state.entries,
    entry.events &&& epollOneshot = 0 ∧ entry.events &&& epollEt = 0) ?_ (along_of_forall plain)
    ⟨⟨.nil, nofun, .nil⟩, nofun⟩
  rintro state event plain ⟨sound, flags⟩
  refine ⟨?_, fun next stepped => sound.after stepped flags ?_⟩
  · cases event with
    | pwait maxevents ready =>
      intro entry member
      have listed := (mem_filter.mp (mem_of_mem_take member)).1
      exact ⟨(sound.data entry listed).symm, absurd (flags entry listed).1,
        absurd (flags entry listed).2⟩
    | _ => trivial
  · rintro op tfd slot events data rfl -
    exact plain

theorem reports_lawful_sample :
    Along step Lawful {} [.openat 0 7, .ctl .add 0 (some (1, 5)), .pwait 1 fun _ => true] :=
  reports_lawful (by simpa [Plain] using by decide)

/-- An entry with `EPOLLONESHOT` is reported again. -/
theorem oneshot_reported_twice :
    ∃ state, run step {} [.openat 0 7, .ctl .add 0 (some (0x40000001, 5)), .pwait 1 fun _ => true] =
      some state ∧ ¬Lawful state (.pwait 1 fun _ => true) := by
  refine ⟨_, rfl, fun lawful => ?_⟩
  have again := (lawful ⟨⟨0, 7, 0⟩, 0x40000001, 5⟩ (by decide)).2.1 (by decide)
  exact absurd again (by decide)

end AlpineOnIOS.Epoll
