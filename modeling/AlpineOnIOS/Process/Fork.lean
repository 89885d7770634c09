import AlpineOnIOS.AddressSpace.NativeSpace

/-!
# Fork over shared pages

A forked child runs on the host pages of its parent. `proc_fork` saves at most 64 writable regions
before the child starts and copies them back when it has a space of its own or is gone.
-/

namespace AlpineOnIOS.Process

open Foundation Foundation.HostMemory AddressSpace List Option Region

/-- An entry of `saved`, without a backup if there was no memory for it. -/
structure Saved where
  host : Pointer
  backup : Option (Nat → UInt8)
  size : Nat

/-- The bytes that a backup takes from a pointer on. -/
def backupOf (host : HostMemory) (source : Pointer) (index : Nat) : UInt8 :=
  (host.load (source.add index)).getD 0

/-- The loop of `proc_fork` that saves the writable regions, with some entries made. -/
def saveRegions (host : HostMemory) (nsaved : Nat) : List Region → List Saved × HostMemory
  | [] => ([], host)
  | region :: rest =>
    if !hasBit region.prot memProtWrite then saveRegions host nsaved rest
    else if nsaved ≥ 64 then ([], host)
    else
      let (granted, host) := host.request
      let backup := if granted then some (backupOf host region.host) else none
      let (saved, host) := saveRegions host (nsaved + 1) rest
      ({ host := region.host, backup, size := region.size.toNat } :: saved, host)

/-- The loop of `proc_fork` that copies the backups back. -/
def restoreRegions (host : HostMemory) : List Saved → HostMemory
  | [] => host
  | entry :: rest =>
    match entry.backup with
    | none => restoreRegions host rest
    | some backup => restoreRegions (host.store entry.host entry.size backup) rest

/-- A write to host memory. -/
structure HostWrite where
  target : Pointer
  size : Nat
  value : Nat → UInt8

def writeAll (host : HostMemory) (writes : List HostWrite) : HostMemory :=
  writes.foldl (fun host write => host.store write.target write.size write.value) host

/-- The space of the child and the host when `proc_fork` returns; `none` for `-ENOMEM`. -/
def procFork (parent : Space) (host : HostMemory) (child : List HostWrite) :
    Option (Space × HostMemory) :=
  match host.request with
  | (false, _) => none
  | (true, host) =>
    match memSpaceClone parent host with
    | (none, _) => none
    | (some space, host) =>
      let (saved, host) := saveRegions host 0 parent.regions
      match host.request with
      | (false, _) => none
      | (true, host) => some (space, restoreRegions (writeAll host child) saved)

variable (region : Region)

/-- A region that the guest may write to. -/
def Writable : Prop := hasBit region.prot memProtWrite = true
  deriving Decidable

/-- The regions that a fork should save. -/
def writableRegions (space : Space) : List Region :=
  space.regions.filter fun region => Writable region

variable {host : HostMemory} {regions : List Region} {after : HostMemory}

def SameBytes (host after : HostMemory) : Prop :=
  after.block = host.block ∧ after.page = host.page

theorem SameBytes.load_eq (same : SameBytes host after) (pointer : Pointer) :
    after.load pointer = host.load pointer := by
  cases pointer with
  | block => rw [load, load, same.1]
  | direct => rw [load, load, same.2]

theorem SameBytes.store (same : SameBytes host after) (target : Pointer) (size : Nat)
    (value : Nat → UInt8) :
    SameBytes (host.store target size value) (after.store target size value) := by
  cases target with
  | block =>
    refine ⟨?_, same.2⟩
    funext other
    simp only [HostMemory.store, same.1]
  | direct =>
    refine ⟨same.1, ?_⟩
    funext other
    simp only [HostMemory.store, same.2]

theorem SameBytes.writeAll (same : SameBytes host after) (writes : List HostWrite) :
    SameBytes (Process.writeAll host writes) (Process.writeAll after writes) := by
  induction writes generalizing host after with
  | nil => exact same
  | cons write writes induction => exact induction (same.store _ _ _)

theorem SameBytes.trans {last : HostMemory} (first : SameBytes host after)
    (second : SameBytes after last) : SameBytes host last :=
  ⟨second.1.trans first.1, second.2.trans first.2⟩

theorem sameBytes_asked (host : HostMemory) : SameBytes host host.asked := ⟨rfl, rfl⟩

theorem isSome_load_writeAll (host : HostMemory) (writes : List HostWrite) (pointer : Pointer) :
    ((writeAll host writes).load pointer).isSome = (host.load pointer).isSome := by
  induction writes generalizing host with
  | nil => rfl
  | cons write writes induction =>
    rw [writeAll, foldl_cons, ← writeAll, induction, isSome_load_store]

/-- The entry that a region gets. -/
def entryOf (host : HostMemory) (region : Region) : Saved :=
  { host := region.host, backup := some (backupOf host region.host), size := region.size.toNat }

theorem backupOf_congr (same : SameBytes host after) (source : Pointer) :
    backupOf after source = backupOf host source := by
  funext index
  rw [backupOf, backupOf, same.load_eq]

/-- With memory for every backup, the first writable regions are saved until the table is full. -/
theorem saveRegions_eq (generous : host.Generous) (nsaved : Nat) :
    ∃ after, saveRegions host nsaved regions =
        (((regions.filter fun region => Writable region).take (64 - nsaved)).map (entryOf host),
          after) ∧ SameBytes host after ∧ after.Generous := by
  induction regions generalizing host nsaved with
  | nil =>
    refine ⟨host, ?_, ⟨rfl, rfl⟩, generous⟩
    rw [saveRegions, filter_nil, take_nil, map_nil]
  | cons region rest induction =>
    rw [saveRegions]
    by_cases writable : Writable region
    · rw [filter_cons_of_pos (by simpa using writable), writable, Bool.not_true,
        if_neg Bool.false_ne_true]
      split
      · rename_i full
        refine ⟨host, ?_, ⟨rfl, rfl⟩, generous⟩
        rw [Nat.sub_eq_zero_of_le full, take_zero, map_nil]
      rename_i room
      obtain ⟨after, saved, same, still⟩ :=
        induction (host.later_asked.generous generous) (nsaved + 1)
      refine ⟨after, ?_, (sameBytes_asked host).trans same, still⟩
      have entries : entryOf host.asked = entryOf host := by
        funext other
        rw [entryOf, entryOf, backupOf_congr (sameBytes_asked host)]
      rw [generous.request_eq]
      simp only [saved, entries, if_true]
      rw [show 64 - nsaved = 64 - (nsaved + 1) + 1 by omega, take_succ_cons, map_cons,
        backupOf_congr (sameBytes_asked host)]
      rfl
    · have readOnly : hasBit region.prot memProtWrite = false := by
        simpa [Writable] using writable
      rw [filter_cons_of_neg (by simpa using writable), readOnly, Bool.not_false, if_pos rfl]
      exact induction generous nsaved

/-- The region that a clone gets for a region. -/
def lent : Region := { region with flags := region.flags ||| memMapExternal }

theorem cloneRegions_granted (generous : host.Generous) (regions : List Region) :
    ∃ after, cloneRegions host regions = (true, regions.map lent, after) ∧ SameBytes host after ∧
      after.Generous := by
  induction regions generalizing host with
  | nil => exact ⟨host, rfl, ⟨rfl, rfl⟩, generous⟩
  | cons region rest induction =>
    obtain ⟨after, cloned, same, still⟩ := induction (host.later_asked.generous generous)
    refine ⟨after, ?_, (sameBytes_asked host).trans same, still⟩
    rw [cloneRegions, generous.request_eq]
    simp only [cloned]
    rfl

theorem memSpaceClone_granted (generous : host.Generous) (space : Space) :
    ∃ after, memSpaceClone space host =
        (some { space with regions := space.regions.map lent, refcount := 1 }, after) ∧
      SameBytes host after ∧ after.Generous := by
  obtain ⟨after, cloned, same, still⟩ :=
    cloneRegions_granted (host.later_asked.generous generous) space.regions
  refine ⟨after, ?_, (sameBytes_asked host).trans same, still⟩
  rw [memSpaceClone, generous.request_eq]
  simp only [cloned, if_true]

/-- A pointer leads into a region. -/
def Leads (pointer : Pointer) : Prop :=
  ∃ index < region.size.toNat, pointer = region.host.add index

theorem load_restoreRegions (origin : HostMemory) (saved : List Region) (pointer : Pointer)
    (present : (host.load pointer).isSome = (origin.load pointer).isSome) :
    ((∃ region ∈ saved, Leads region pointer) →
        (restoreRegions host (saved.map (entryOf origin))).load pointer = origin.load pointer) ∧
      ((∀ region ∈ saved, ¬Leads region pointer) →
        (restoreRegions host (saved.map (entryOf origin))).load pointer = host.load pointer) := by
  induction saved generalizing host with
  | nil => exact ⟨fun ⟨_, member, _⟩ => absurd member not_mem_nil, fun _ => rfl⟩
  | cons region rest induction =>
    have stored := isSome_load_store host region.host region.size.toNat
      (backupOf origin region.host) pointer
    obtain ⟨covered, uncovered⟩ := induction (stored.trans present)
    rw [map_cons, restoreRegions, entryOf]
    by_cases later : ∃ other ∈ rest, Leads other pointer
    · refine ⟨fun _ => covered later, fun none => ?_⟩
      obtain ⟨other, member, leads⟩ := later
      exact absurd leads (none other (mem_cons_of_mem _ member))
    have last : ∀ other ∈ rest, ¬Leads other pointer := fun other member leads =>
      later ⟨other, member, leads⟩
    rcases load_store host region.host region.size.toNat (backupOf origin region.host) pointer
      with ⟨index, inside, rfl, written⟩ | ⟨apart, same⟩
    · refine ⟨fun _ => ?_, fun none => ?_⟩
      · refine (uncovered last).trans (written.trans ?_)
        -- the backup has the byte that was there
        cases byte : origin.load (region.host.add index) with
        | none =>
          rw [byte, isSome_none, isSome_eq_false_iff, isNone_iff_eq_none] at present
          rw [present, map_none]
        | some =>
          rw [byte, isSome_some] at present
          obtain ⟨_, loaded⟩ := isSome_iff_exists.mp present
          rw [loaded, map_some, backupOf, byte, getD_some]
      · exact absurd ⟨index, inside, rfl⟩ (none region mem_cons_self)
    · refine ⟨fun ⟨other, member, leads⟩ => ?_, fun _ => (uncovered last).trans same⟩
      rcases mem_cons.mp member with rfl | old
      · obtain ⟨index, inside, reached⟩ := leads
        exact absurd reached (apart index inside)
      · exact absurd leads (last other old)

variable {parent : Space}

theorem procFork_granted (generous : host.Generous) (parent : Space) (child : List HostWrite) :
    ∃ after, procFork parent host child =
        some ({ parent with regions := parent.regions.map lent, refcount := 1 },
          restoreRegions after (((writableRegions parent).take 64).map (entryOf host))) ∧
      SameBytes (writeAll host child) after := by
  obtain ⟨cloned, clones, sameCloned, grantsCloned⟩ :=
    memSpaceClone_granted (host.later_asked.generous generous) parent
  obtain ⟨stored, saves, sameStored, grantsStored⟩ :
      ∃ after, saveRegions cloned 0 parent.regions = (_, after) ∧ _ :=
    saveRegions_eq grantsCloned 0
  have same : SameBytes host cloned := (sameBytes_asked host).trans sameCloned
  have entries : entryOf cloned = entryOf host := by
    funext region
    rw [entryOf, entryOf, backupOf_congr same]
  refine ⟨writeAll stored.asked child, ?_,
    ((same.trans sameStored).trans (sameBytes_asked stored)).writeAll child⟩
  rw [procFork, generous.request_eq]
  simp only [clones, saves, grantsStored.request_eq, entries]
  rfl

/-- The bytes of a region are the same on two hosts. -/
def KeepsRegion (host after : HostMemory) (region : Region) : Prop :=
  ∀ address, region.start ≤ address → address < region.stop →
    region.byteAt after address = region.byteAt host address

variable {region}

theorem keepsRegion_iff :
    KeepsRegion host after region ↔
      ∀ pointer, Leads region pointer → after.load pointer = host.load pointer := by
  have stop : region.stop = region.start + region.size.toNat := rfl
  constructor
  · rintro keeps pointer ⟨index, _, rfl⟩
    have kept := keeps (region.start + index) (by omega) (by omega)
    rwa [byteAt, byteAt, if_pos ⟨by omega, by omega⟩, if_pos ⟨by omega, by omega⟩,
      Nat.add_sub_cancel_left] at kept
  · intro keeps address lower upper
    rw [byteAt, byteAt, if_pos ⟨lower, upper⟩, if_pos ⟨lower, upper⟩]
    exact keeps _ ⟨address - region.start, by omega, rfl⟩

theorem not_leads_of_ne (ordered : Ordered parent.regions) (backing : Backing host parent.regions)
    {other : Region} (member : region ∈ parent.regions) (also : other ∈ parent.regions)
    (different : region ≠ other) {pointer : Pointer} (leads : Leads region pointer) :
    ¬Leads other pointer := by
  rintro ⟨second, _, sameOther⟩
  obtain ⟨first, _, same⟩ := leads
  have stop : region.stop = region.start + region.size.toNat := rfl
  have stopOther : other.stop = other.start + other.size.toNat := rfl
  have addresses := backing.separate region member other also (region.start + first)
    (other.start + second) (by omega) (by omega) (by omega) (by omega)
    (by rw [Nat.add_sub_cancel_left, Nat.add_sub_cancel_left, ← same, ← sameOther])
  exact different (ordered.eq_of_mem member also (Nat.le_add_right _ first) (by omega)
    (addresses ▸ Nat.le_add_right _ second) (by omega))

theorem mem_writableRegions :
    region ∈ writableRegions parent ↔ region ∈ parent.regions ∧ Writable region := by
  rw [writableRegions, mem_filter, decide_eq_true_iff]

theorem writableRegions_nodup (ordered : Ordered parent.regions) :
    (writableRegions parent).Nodup := by
  have distinct : parent.regions.Nodup := by
    refine ordered.apart.imp_of_mem fun inFirst _ apart => ?_
    rintro rfl
    have positive := (ordered.fits _ inFirst).1
    rw [stop, start] at apart
    omega
  exact distinct.filter _

/-- The first 64 writable regions are as before the call, the others as the child leaves them. -/
theorem load_procFork (ordered : Ordered parent.regions) (backing : Backing host parent.regions)
    (generous : host.Generous) (child : List HostWrite) :
    ∃ space after, procFork parent host child = some (space, after) ∧
      (∀ region ∈ (writableRegions parent).take 64, KeepsRegion host after region) ∧
      ∀ region ∈ (writableRegions parent).drop 64,
        (KeepsRegion host after region ↔ KeepsRegion host (writeAll host child) region) := by
  obtain ⟨written, forked, same⟩ := procFork_granted generous parent child
  have present : ∀ pointer, (written.load pointer).isSome = (host.load pointer).isSome := by
    intro pointer
    rw [same.load_eq, isSome_load_writeAll]
  refine ⟨_, _, forked, fun region member => ?_, fun region member => ?_⟩
  · refine keepsRegion_iff.mpr fun pointer leads => ?_
    exact (load_restoreRegions host _ pointer (present pointer)).1 ⟨region, member, leads⟩
  · -- the saved regions are others
    have unsaved : ∀ other ∈ (writableRegions parent).take 64, ∀ pointer, Leads region pointer →
        ¬Leads other pointer := by
      intro other saved pointer leads
      refine not_leads_of_ne ordered backing (mem_writableRegions.mp (mem_of_mem_drop member)).1
        (mem_writableRegions.mp (mem_of_mem_take saved)).1 ?_ leads
      rintro rfl
      exact disjoint_take_drop (writableRegions_nodup ordered) (Nat.le_refl 64) saved member
    have untouched : ∀ pointer, Leads region pointer →
        (restoreRegions written (((writableRegions parent).take 64).map (entryOf host))).load
          pointer = (writeAll host child).load pointer := fun pointer leads =>
      ((load_restoreRegions host _ pointer (present pointer)).2 fun other saved =>
        unsaved other saved pointer leads).trans (same.load_eq pointer)
    rw [keepsRegion_iff, keepsRegion_iff]
    constructor
    · intro keeps pointer leads
      exact (untouched pointer leads).symm.trans (keeps pointer leads)
    · intro keeps pointer leads
      exact (untouched pointer leads).trans (keeps pointer leads)

/-- A child that writes another byte at the beginning of a region. -/
def spoil (host : HostMemory) (region : Region) : List HostWrite :=
  [{ target := region.host, size := 1, value := fun index => backupOf host region.host index + 1 }]

theorem not_keepsRegion_spoil (backing : Backing host parent.regions)
    (member : region ∈ parent.regions) (fits : region.Fits) :
    ¬KeepsRegion host (writeAll host (spoil host region)) region := by
  intro keeps
  have leads : Leads region (region.host.add 0) := ⟨0, fits.1, rfl⟩
  have nonempty : region.start < region.stop := Nat.lt_add_of_pos_right fits.1
  have kept := keepsRegion_iff.mp keeps _ leads
  have present := backing.loads region member region.start (Nat.le_refl _) nonempty
  rw [byteAt, if_pos ⟨Nat.le_refl _, nonempty⟩, Nat.sub_self] at present
  obtain ⟨byte, loaded⟩ := isSome_iff_exists.mp present
  have saved : backupOf host region.host 0 = byte := by
    rw [backupOf, loaded, getD_some]
  rw [writeAll, spoil, foldl_cons, foldl_nil,
    load_store_add host region.host _ Nat.zero_lt_one, loaded, map_some,
    some.injEq] at kept
  simp only [saved] at kept
  exact absurd kept (by simp)

/-- A fork gives every byte back exactly if the child leaves the regions behind the 64th alone. -/
theorem fork_transparent_iff (ordered : Ordered parent.regions)
    (backing : Backing host parent.regions) (generous : host.Generous) :
    (∀ child, ∃ space after, procFork parent host child = some (space, after) ∧
      ((∀ region ∈ parent.regions, Writable region → KeepsRegion host after region) ↔
        ∀ region ∈ (writableRegions parent).drop 64,
          KeepsRegion host (writeAll host child) region)) ∧
    ((∀ child space after, procFork parent host child = some (space, after) →
        ∀ region ∈ parent.regions, Writable region → KeepsRegion host after region) ↔
      (writableRegions parent).length ≤ 64) := by
  have exact : ∀ child, ∃ space after, procFork parent host child = some (space, after) ∧
      ((∀ region ∈ parent.regions, Writable region → KeepsRegion host after region) ↔
        ∀ region ∈ (writableRegions parent).drop 64,
          KeepsRegion host (writeAll host child) region) := by
    intro child
    obtain ⟨space, after, forked, saved, unsaved⟩ := load_procFork ordered backing generous child
    refine ⟨space, after, forked, fun keeps region member => ?_,
      fun keeps region member writable => ?_⟩
    · obtain ⟨inRegions, writable⟩ := mem_writableRegions.mp (mem_of_mem_drop member)
      exact (unsaved region member).mp (keeps region inRegions writable)
    · have listed := mem_writableRegions.mpr ⟨member, writable⟩
      rw [← take_append_drop 64 (writableRegions parent), mem_append] at listed
      rcases listed with early | late
      · exact saved region early
      · exact (unsaved region late).mpr (keeps region late)
  refine ⟨exact, fun always => ?_, fun few child space after forked => ?_⟩
  · by_contra many
    have nonempty : (writableRegions parent).drop 64 ≠ [] := by
      rw [Ne, drop_eq_nil_iff]
      exact many
    obtain ⟨region, member⟩ := exists_mem_of_ne_nil _ nonempty
    obtain ⟨inRegions, _⟩ := mem_writableRegions.mp (mem_of_mem_drop member)
    obtain ⟨space, after, forked, iff⟩ := exact (spoil host region)
    exact not_keepsRegion_spoil backing inRegions (ordered.fits region inRegions)
      (iff.mp (always _ space after forked) region member)
  · obtain ⟨_, _, forked', iff⟩ := exact child
    rw [forked', some.injEq, Prod.mk.injEq] at forked
    obtain ⟨-, rfl⟩ := forked
    rw [drop_eq_nil_of_le few] at iff
    exact iff.mpr fun region absent => absurd absent not_mem_nil

/-- A native space with some writable regions of one page each. -/
def forkSpace (count : Nat) : Space :=
  { memSpaceCreate with
    aotMode := true
    regions := (List.range count).map fun index =>
      { base := 0x10000 + 0x2000 * .ofNat index, size := 0x1000, prot := 3, flags := 0x22
        host := .direct (0x10000 + 0x2000 * index) } }

/-- A host with sevens on all pages. -/
def forkHost : HostMemory := { plainHost with page := fun _ => some 7 }

/-- A child that writes to the only region. -/
theorem fork_transparent_sample :
    ∃ space after, procFork (forkSpace 1) forkHost
        [{ target := .direct 0x10000, size := 0x1000, value := fun _ => 9 }] = some (space, after) ∧
      ∀ region ∈ (forkSpace 1).regions, Writable region → KeepsRegion forkHost after region := by
  have ordered : Ordered (forkSpace 1).regions := .singleton ⟨by decide, by decide⟩
  have native : NativeSound (forkSpace 1) forkHost :=
    ⟨rfl, fun _ => rfl, ordered, forall_mem_singleton.2 rfl, fun _ _ _ _ _ => rfl⟩
  obtain ⟨space, after, forked, iff⟩ := (fork_transparent_iff ordered native.backing fun _ => rfl).1
    [{ target := .direct 0x10000, size := 0x1000, value := fun _ => 9 }]
  refine ⟨space, after, forked, iff.mpr fun region absent => ?_⟩
  exact absurd absent not_mem_nil

/-- With 65 writable regions, a byte that the child writes to the last one stays. -/
theorem fork_forgets_last_region :
    (procFork (forkSpace 65) forkHost
        [{ target := .direct 0x90000, size := 1, value := fun _ => 9 }]).map
        (fun result =>
          ((forkSpace 65).map result.2 0x90000, (forkSpace 65).map result.2 0x90001)) =
      some (some (3, 9), some (3, 7)) := by
  decide +kernel

end AlpineOnIOS.Process
