import AlpineOnIOS.AddressSpace.Placement
import AlpineOnIOS.Foundation.Memory
import Mathlib.Data.List.Nodup
import Mathlib.Data.List.Pairwise

/-!
# Access to guest memory

All reads, writes and copies go through `mem_translate`, which looks for one region that holds the
whole range. An access therefore depends on how the range is split into regions.
-/

namespace AlpineOnIOS.AddressSpace

open Foundation Foundation.HostMemory List Option Region Pointer

/-- The bytes that a `memcpy` takes from a pointer. -/
def loadBytes (host : HostMemory) (pointer : Pointer) (size : Nat) : List UInt8 :=
  (List.range size).map fun index => (host.load (pointer.add index)).getD 0

variable (space : Space)

/-- The reading functions, which differ in the size. -/
def memReadBytes (host : HostMemory) (addr size : UInt64) : Option (List UInt8) :=
  (memTranslate space addr size memProtRead).map fun pointer => loadBytes host pointer size.toNat

def memRead8 (host : HostMemory) (addr : UInt64) : Option (List UInt8) :=
  memReadBytes space host addr 1

def memRead16 (host : HostMemory) (addr : UInt64) : Option (List UInt8) :=
  memReadBytes space host addr 2

def memRead32 (host : HostMemory) (addr : UInt64) : Option (List UInt8) :=
  memReadBytes space host addr 4

def memRead64 (host : HostMemory) (addr : UInt64) : Option (List UInt8) :=
  memReadBytes space host addr 8

/-- The writing functions, which differ in the size. -/
def memWriteBytes (host : HostMemory) (addr size : UInt64)
    (source : Nat → UInt8) : Option HostMemory :=
  (memTranslate space addr size memProtWrite).map fun pointer =>
    host.store pointer size.toNat source

/-- The bytes of a word in memory, the lowest first. -/
def wordByte (value : UInt64) (index : Nat) : UInt8 := (value >>> (8 * .ofNat index)).toUInt8

def memWrite8 (host : HostMemory) (addr : UInt64) (value : UInt8) :
    Option HostMemory :=
  memWriteBytes space host addr 1 (wordByte value.toUInt64)

def memWrite16 (host : HostMemory) (addr : UInt64) (value : UInt16) :
    Option HostMemory :=
  memWriteBytes space host addr 2 (wordByte value.toUInt64)

def memWrite32 (host : HostMemory) (addr : UInt64) (value : UInt32) :
    Option HostMemory :=
  memWriteBytes space host addr 4 (wordByte value.toUInt64)

def memWrite64 (host : HostMemory) (addr : UInt64) (value : UInt64) :
    Option HostMemory :=
  memWriteBytes space host addr 8 (wordByte value)

def memCopyTo (host : HostMemory) (addr : UInt64) (source : Nat → UInt8)
    (size : UInt64) : Option HostMemory :=
  if size = 0 then some host else memWriteBytes space host addr size source

def memCopyFrom (host : HostMemory) (addr size : UInt64) : Option (List UInt8) :=
  if size = 0 then some [] else memReadBytes space host addr size

inductive Access where
  | read8 (addr : UInt64)
  | read16 (addr : UInt64)
  | read32 (addr : UInt64)
  | read64 (addr : UInt64)
  | copyFrom (addr size : UInt64)
  | write8 (addr : UInt64) (value : UInt8)
  | write16 (addr : UInt64) (value : UInt16)
  | write32 (addr : UInt64) (value : UInt32)
  | write64 (addr : UInt64) (value : UInt64)
  | copyTo (addr : UInt64) (source : Nat → UInt8) (size : UInt64)

namespace Access

/-- What an access reads, and the host after it. -/
def run (space : Space) (host : HostMemory) : Access → Option (List UInt8 × HostMemory)
  | .read8 addr => (memRead8 space host addr).map (·, host)
  | .read16 addr => (memRead16 space host addr).map (·, host)
  | .read32 addr => (memRead32 space host addr).map (·, host)
  | .read64 addr => (memRead64 space host addr).map (·, host)
  | .copyFrom addr size => (memCopyFrom space host addr size).map (·, host)
  | .write8 addr value => (memWrite8 space host addr value).map ([], ·)
  | .write16 addr value => (memWrite16 space host addr value).map ([], ·)
  | .write32 addr value => (memWrite32 space host addr value).map ([], ·)
  | .write64 addr value => (memWrite64 space host addr value).map ([], ·)
  | .copyTo addr source size => (memCopyTo space host addr source size).map ([], ·)

def addr : Access → UInt64
  | .read8 addr | .read16 addr | .read32 addr | .read64 addr | .copyFrom addr _
  | .write8 addr _ | .write16 addr _ | .write32 addr _ | .write64 addr _ | .copyTo addr _ _ => addr

def size : Access → UInt64
  | .read8 _ | .write8 _ _ => 1
  | .read16 _ | .write16 _ _ => 2
  | .read32 _ | .write32 _ _ => 4
  | .read64 _ | .write64 _ _ => 8
  | .copyFrom _ size | .copyTo _ _ size => size

def source : Access → Option (Nat → UInt8)
  | .read8 _ | .read16 _ | .read32 _ | .read64 _ | .copyFrom _ _ => none
  | .write8 _ value => some (wordByte value.toUInt64)
  | .write16 _ value => some (wordByte value.toUInt64)
  | .write32 _ value => some (wordByte value.toUInt64)
  | .write64 _ value => some (wordByte value)
  | .copyTo _ source _ => some source

variable (access : Access)

/-- The protection that an access needs. -/
def prot : UInt32 := if access.source.isNone then memProtRead else memProtWrite

/-- What an access does at the pointer of its range. -/
def effect (host : HostMemory) (pointer : Pointer) : List UInt8 × HostMemory :=
  match access.source with
  | none => (loadBytes host pointer access.size.toNat, host)
  | some source => ([], host.store pointer access.size.toNat source)

theorem run_eq (space : Space) (host : HostMemory) :
    access.run space host =
      if access.size = 0 then some ([], host)
      else (memTranslate space access.addr access.size access.prot).map (access.effect host) := by
  cases access with
  | copyFrom addr size =>
    by_cases zero : size = 0
    · simp [run, memCopyFrom, Access.size, zero]
    rw [if_neg (show (copyFrom addr size).size ≠ 0 from zero)]
    simp only [run, memCopyFrom, memReadBytes, if_neg zero, Option.map_map]
    rfl
  | copyTo addr source size =>
    by_cases zero : size = 0
    · simp [run, memCopyTo, Access.size, zero]
    rw [if_neg (show (copyTo addr source size).size ≠ 0 from zero)]
    simp only [run, memCopyTo, memWriteBytes, if_neg zero, Option.map_map]
    rfl
  | _ => exact map_map ..

/-- An address lies in the range of an access. -/
def Touches (address : Nat) : Prop :=
  access.addr.toNat ≤ address ∧ address < access.addr.toNat + access.size.toNat
  deriving Decidable

end Access

/-- An address is mapped with a protection. -/
def Permits (regions : List Region) (prot : UInt32) (address : Nat) : Prop :=
  ∃ region ∈ regions, region.start ≤ address ∧ address < region.stop ∧ region.prot &&& prot = prot

/-- The addresses of the regions lead to host bytes, each to one of its own. -/
structure Backing (host : HostMemory) (regions : List Region) : Prop where
  loads : ∀ region ∈ regions, ∀ address, region.start ≤ address → address < region.stop →
    (region.byteAt host address).isSome = true
  separate : ∀ first ∈ regions, ∀ second ∈ regions, ∀ address other,
    first.start ≤ address → address < first.stop → second.start ≤ other → other < second.stop →
    first.host.add (address - first.start) = second.host.add (other - second.start) →
    address = other

variable {space} {host : HostMemory}

theorem Sound.backing (sound : Sound space host) : Backing host space.regions := by
  refine ⟨fun region member address lower upper => ?_,
    fun first inFirst second inSecond address other lower upper lowerOther upperOther same => ?_⟩
  · obtain ⟨_, _, block, pointer, _, held, _⟩ := sound.owned.owns region member
    have ends : region.stop = region.start + region.size.toNat := rfl
    have inside : address - region.start < block.size := by omega
    rw [byteAt, if_pos ⟨lower, upper⟩, pointer, add, Nat.zero_add, load_block, held]
    simp [inside]
  · obtain ⟨_, _, _, pointer, _⟩ := sound.owned.owns first inFirst
    obtain ⟨_, _, _, otherPointer, _⟩ := sound.owned.owns second inSecond
    rw [pointer, otherPointer, add, add, block.injEq] at same
    have sameRegion : first = second :=
      inj_on_of_nodup_map sound.owned.apart inFirst inSecond (by rw [pointer, otherPointer, same.1])
    subst sameRegion
    omega

/-- An access succeeds exactly if its bytes are mapped for it, and touches these bytes only. -/
structure Access.Lawful (access : Access) (space : Space) (host : HostMemory) : Prop where
  succeeds : (access.run space host).isSome = true ↔
    ∀ address, access.Touches address → Permits space.regions access.prot address
  reads : ∀ bytes after, access.run space host = some (bytes, after) → access.source = none →
    after = host ∧ bytes.length = access.size.toNat ∧
      ∀ index, index < access.size.toNat →
        (view host space.regions (access.addr.toNat + index)).map Prod.snd = bytes[index]?
  writes : ∀ bytes after source, access.run space host = some (bytes, after) →
    access.source = some source → ∀ address, view after space.regions address =
      if access.Touches address then
        (view host space.regions address).map fun entry =>
          (entry.1, source (address - access.addr.toNat))
      else view host space.regions address

variable {addr size : UInt64} {prot : UInt32} {region : Region}

theorem holds_iff :
    region.Holds addr size ↔ region.start ≤ addr.toNat ∧ addr.toNat + size.toNat ≤ region.stop := by
  rw [Region.Holds, ge_iff_le, UInt64.le_iff_toNat_le, UInt64.le_iff_toNat_le, UInt64.le_iff_toNat_le]
  have ends : region.stop = region.start + region.size.toNat := rfl
  constructor
  · rintro ⟨lower, small, upper⟩
    rw [UInt64.toNat_sub_of_le _ _ (UInt64.le_iff_toNat_le.mpr lower),
      UInt64.toNat_sub_of_le _ _ (UInt64.le_iff_toNat_le.mpr small), toNat_base] at upper
    rw [toNat_base] at lower
    omega
  · rintro ⟨lower, _⟩
    have small : size.toNat ≤ region.size.toNat := by omega
    refine ⟨lower, small, ?_⟩
    rw [UInt64.toNat_sub_of_le _ _ (UInt64.le_iff_toNat_le.mpr lower),
      UInt64.toNat_sub_of_le _ _ (UInt64.le_iff_toNat_le.mpr small), toNat_base]
    omega

variable {regions : List Region} {address : Nat}

theorem Ordered.eq_of_mem (ordered : Ordered regions) {first second : Region}
    (inFirst : first ∈ regions) (inSecond : second ∈ regions) (lower : first.start ≤ address)
    (upper : address < first.stop) (lowerOther : second.start ≤ address)
    (upperOther : address < second.stop) : first = second := by
  by_contra different
  have symmetric : Std.Symm fun first second : Region =>
      first.stop ≤ second.start ∨ second.stop ≤ first.start := ⟨fun _ _ => Or.symm⟩
  have apart := ordered.disjoint.forall inFirst inSecond different
  omega

theorem memTranslate_eq_some_iff (ordered : Ordered space.regions) (nonzero : size ≠ 0)
    (noWrap : addr.toNat + size.toNat ≤ 2 ^ 64) {pointer : Pointer} :
    memTranslate space addr size prot = some pointer ↔
      ∃ region ∈ space.regions, region.start ≤ addr.toNat ∧
        addr.toNat + size.toNat ≤ region.stop ∧ region.prot &&& prot = prot ∧
        pointer = region.host.add (addr.toNat - region.start) := by
  have positive : 0 < size.toNat :=
    Nat.pos_of_ne_zero fun zero => nonzero (UInt64.toNat_inj.mp zero)
  have offset {region : Region} (lower : region.start ≤ addr.toNat) :
      (addr - region.base).toNat = addr.toNat - region.start :=
    UInt64.toNat_sub_of_le _ _ (UInt64.le_iff_toNat_le.mpr lower)
  rw [memTranslate]
  constructor
  · intro translated
    split at translated
    · cases translated
    split at translated
    · cases translated
    rename_i region found
    split at translated
    · cases translated
    rename_i permitted
    cases translated
    have holds := find?_some found
    rw [decide_eq_true_eq, holds_iff] at holds
    exact ⟨region, mem_of_find?_eq_some found, holds.1, holds.2, not_not.mp permitted,
      by rw [offset holds.1]⟩
  · rintro ⟨region, member, lower, upper, permitted, rfl⟩
    have bound := (ordered.fits region member).2
    have forward : ¬(size ≠ 0 ∧ addr + size < addr) := by
      rintro ⟨_, wraps⟩
      rw [UInt64.lt_iff_toNat_lt, UInt64.toNat_add, Nat.mod_eq_of_lt (by omega)] at wraps
      omega
    have found : space.regions.find? (·.Holds addr size) = some region := by
      cases search : space.regions.find? (·.Holds addr size) with
      | none =>
        have absent := find?_eq_none.mp search region member
        rw [decide_eq_true_eq, holds_iff] at absent
        exact absurd ⟨lower, upper⟩ absent
      | some =>
        have holds := find?_some search
        rw [decide_eq_true_eq, holds_iff] at holds
        rw [ordered.eq_of_mem (mem_of_find?_eq_some search) member holds.1 (by omega) lower
          (by omega)]
    rw [if_neg forward, found]
    simp only [permitted, ne_eq, not_true_eq_false, if_false, offset lower]

theorem view_of_mem (ordered : Ordered regions) (member : region ∈ regions)
    (lower : region.start ≤ address) (upper : address < region.stop) :
    view host regions address =
      (region.byteAt host address).map fun byte => (region.prot, byte) := by
  have others : ∀ other ∈ regions, other ≠ region → other.byteAt host address = none := by
    intro other inRegions different
    refine byteAt_eq_none fun inside => different ?_
    exact ordered.eq_of_mem inRegions member inside.1 inside.2 lower upper
  induction regions with
  | nil => exact absurd member not_mem_nil
  | cons first rest induction =>
    rw [forall_mem_cons] at others
    rw [view_cons]
    by_cases same : first = region
    · subst same
      cases here : first.byteAt host address with
      | some => rfl
      | none =>
        rw [map_none, none_or, view, findSome?_eq_none_iff]
        intro other inRest
        by_cases again : other = first
        · rw [again, here, map_none]
        · rw [others.2 other inRest again, map_none]
    · have inRest : region ∈ rest := (mem_cons.mp member).resolve_left (Ne.symm same)
      rw [others.1 same, map_none, none_or]
      exact induction (Ordered.cons_iff.mp ordered).2.2 inRest others.2

theorem view_eq_none
    (unmapped : ∀ region ∈ regions, ¬(region.start ≤ address ∧ address < region.stop)) :
    view host regions address = none := by
  rw [view, findSome?_eq_none_iff]
  intro region member
  rw [byteAt_eq_none (unmapped region member), map_none]

namespace Access

variable {access : Access} {bytes : List UInt8} {after : HostMemory}

section

variable (ordered : Ordered space.regions)

include ordered

theorem exists_region_of_run
    (noWrap : access.addr.toNat + access.size.toNat ≤ 2 ^ 64) (nonzero : access.size ≠ 0)
    (ran : access.run space host = some (bytes, after)) :
    ∃ region ∈ space.regions, region.start ≤ access.addr.toNat ∧
      access.addr.toNat + access.size.toNat ≤ region.stop ∧
      region.prot &&& access.prot = access.prot ∧
      (bytes, after) = access.effect host (region.host.add (access.addr.toNat - region.start)) := by
  rw [run_eq, if_neg nonzero, map_eq_some_iff] at ran
  obtain ⟨_, translated, result⟩ := ran
  obtain ⟨region, member, lower, upper, permitted, rfl⟩ :=
    (memTranslate_eq_some_iff ordered nonzero noWrap).mp translated
  exact ⟨region, member, lower, upper, permitted, result.symm⟩

theorem reads_of_run (backing : Backing host space.regions)
    (noWrap : access.addr.toNat + access.size.toNat ≤ 2 ^ 64)
    (ran : access.run space host = some (bytes, after)) (reading : access.source = none) :
    after = host ∧ bytes.length = access.size.toNat ∧
      ∀ index, index < access.size.toNat →
        (view host space.regions (access.addr.toNat + index)).map Prod.snd = bytes[index]? := by
  by_cases zero : access.size = 0
  · rw [run_eq, if_pos zero, some.injEq, Prod.mk.injEq] at ran
    rw [zero, ← ran.1, ← ran.2]
    exact ⟨rfl, rfl, fun index inside => absurd inside (Nat.not_lt_zero _)⟩
  obtain ⟨region, member, _, _, _, result⟩ :=
    exists_region_of_run ordered noWrap zero ran
  rw [effect, reading, Prod.mk.injEq] at result
  obtain ⟨rfl, rfl⟩ := result
  refine ⟨rfl, by simp [loadBytes], fun index inside => ?_⟩
  have first : region.start ≤ access.addr.toNat + index := by omega
  have last : access.addr.toNat + index < region.stop := by omega
  have loaded := backing.loads region member _ first last
  rw [view_of_mem ordered member first last]
  rw [byteAt, if_pos ⟨first, last⟩] at loaded ⊢
  obtain ⟨_, held⟩ := isSome_iff_exists.mp loaded
  rw [held]
  simp only [loadBytes, getElem?_map, getElem?_range inside, map_some, add_add]
  rw [show access.addr.toNat - region.start + index = access.addr.toNat + index - region.start by
    omega, held]
  rfl

theorem writes_of_run (backing : Backing host space.regions)
    (noWrap : access.addr.toNat + access.size.toNat ≤ 2 ^ 64) {source : Nat → UInt8}
    (ran : access.run space host = some (bytes, after)) (writing : access.source = some source)
    (address : Nat) :
    view after space.regions address =
      if access.Touches address then
        (view host space.regions address).map fun entry =>
          (entry.1, source (address - access.addr.toNat))
      else view host space.regions address := by
  by_cases zero : access.size = 0
  · have untouched : ¬access.Touches address := by
      rw [Touches, zero]
      intro inside
      have : (0 : UInt64).toNat = 0 := rfl
      omega
    rw [run_eq, if_pos zero, some.injEq, Prod.mk.injEq] at ran
    rw [if_neg untouched, ran.2]
  obtain ⟨region, member, _, _, _, result⟩ := exists_region_of_run ordered noWrap zero ran
  rw [effect, writing, Prod.mk.injEq] at result
  obtain ⟨rfl, rfl⟩ := result
  by_cases mapped : ∃ other ∈ space.regions, other.start ≤ address ∧ address < other.stop
  · obtain ⟨other, inRegions, first, last⟩ := mapped
    have here : other.start ≤ address ∧ address < other.stop := ⟨first, last⟩
    rw [view_of_mem ordered inRegions first last, view_of_mem ordered inRegions first last,
      byteAt, byteAt, if_pos here, if_pos here]
    split
    · rename_i touched
      obtain ⟨_, _⟩ := touched
      have same := ordered.eq_of_mem inRegions member first last (by omega) (by omega)
      subst same
      have inside : address - access.addr.toNat < access.size.toNat := by omega
      have stored := host.load_store_add (other.host.add (access.addr.toNat - other.start)) source
        inside
      rw [add_add, show access.addr.toNat - other.start + (address - access.addr.toNat) =
        address - other.start by omega] at stored
      rw [stored, Option.map_map, Option.map_map]
      rfl
    · rename_i untouched
      rw [load_store_of_ne]
      intro index inside same
      rw [add_add, show access.addr.toNat - region.start + index =
        access.addr.toNat + index - region.start by omega] at same
      have equal := backing.separate other inRegions region member address _ first last (by omega)
        (by omega) same
      exact untouched ⟨by omega, by omega⟩
  · have unmapped : ∀ other ∈ space.regions, ¬(other.start ≤ address ∧ address < other.stop) :=
      fun other inRegions inside => mapped ⟨other, inRegions, inside⟩
    rw [view_eq_none unmapped, view_eq_none unmapped]
    split <;> rfl

omit ordered in
def InOneRegion (access : Access) (regions : List Region) : Prop :=
  access.size = 0 ∨ ∃ region ∈ regions, region.start ≤ access.addr.toNat ∧
    access.addr.toNat + access.size.toNat ≤ region.stop

theorem run_isSome
    (noWrap : access.addr.toNat + access.size.toNat ≤ 2 ^ 64)
    (permits : ∀ address, access.Touches address → Permits space.regions access.prot address)
    (one : access.InOneRegion space.regions) : (access.run space host).isSome = true := by
  by_cases zero : access.size = 0
  · rw [run_eq, if_pos zero]
    rfl
  obtain ⟨region, member, lower, upper⟩ := one.resolve_left zero
  have positive : 0 < access.size.toNat :=
    Nat.pos_of_ne_zero fun none => zero (UInt64.toNat_inj.mp none)
  obtain ⟨_, inRegions, first, last, permitted⟩ :=
    permits access.addr.toNat ⟨Nat.le_refl _, by omega⟩
  rw [ordered.eq_of_mem inRegions member first last lower (by omega)] at permitted
  rw [run_eq, if_neg zero, (memTranslate_eq_some_iff ordered zero noWrap).mpr
    ⟨region, member, lower, upper, permitted, rfl⟩]
  rfl

end

/-- An access is lawful exactly if its range, when mapped as needed, is not split. -/
theorem lawful_iff (access : Access) (ordered : Ordered space.regions)
    (backing : Backing host space.regions)
    (noWrap : access.addr.toNat + access.size.toNat ≤ 2 ^ 64) :
    access.Lawful space host ↔
      ((∀ address, access.Touches address → Permits space.regions access.prot address) →
        access.InOneRegion space.regions) := by
  constructor
  · intro lawful permits
    by_cases zero : access.size = 0
    · exact .inl zero
    obtain ⟨⟨_, _⟩, ran⟩ := isSome_iff_exists.mp (lawful.succeeds.mpr permits)
    obtain ⟨region, member, lower, upper, _⟩ := exists_region_of_run ordered noWrap zero ran
    exact .inr ⟨region, member, lower, upper⟩
  · intro unsplit
    refine ⟨⟨fun ran address touched => ?_, fun permits =>
      run_isSome ordered noWrap permits (unsplit permits)⟩,
      fun _ _ => reads_of_run ordered backing noWrap,
      fun _ _ _ => writes_of_run ordered backing noWrap⟩
    obtain ⟨_, ends⟩ := touched
    have nonzero : access.size ≠ 0 := by
      intro zero
      rw [zero] at ends
      have : (0 : UInt64).toNat = 0 := rfl
      omega
    obtain ⟨⟨_, _⟩, ran⟩ := isSome_iff_exists.mp ran
    obtain ⟨region, member, _, _, permitted, _⟩ :=
      exists_region_of_run ordered noWrap nonzero ran
    exact ⟨region, member, by omega, by omega, permitted⟩

/-- Two pages, the second of which is read-only. -/
def splitRequests : List Request :=
  [.mmap 0x10000 0x2000 3 0x32 none, .mprotect 0x11000 0x1000 1]

theorem along_splitRequests : Along advance Allowed (memSpaceCreate, plainHost) splitRequests := by
  refine ⟨fun _ => ⟨by decide, ?_⟩, fun _ _ => ⟨⟨by decide, fun _ _ _ _ => by decide⟩,
    fun _ _ => trivial⟩⟩
  rw [if_pos (by decide)]
  decide

/-- A read in the first page is lawful. -/
theorem lawful_first_page :
    ∃ answers machine, serveAll (memSpaceCreate, plainHost) splitRequests = some (answers, machine) ∧
      Ordered machine.1.regions ∧ Backing machine.2 machine.1.regions ∧
      (Access.read64 0x10000).Lawful machine.1 machine.2 := by
  have start := sound_memSpaceCreate generous_plainHost
  obtain ⟨answers, machine, served, sound, _⟩ := start.serveAll along_splitRequests
  refine ⟨answers, machine, served, sound.wellFormed.ordered, sound.backing,
    (lawful_iff _ sound.wellFormed.ordered sound.backing (by decide)).mpr fun _ => .inr ?_⟩
  have spans : (serveAll (memSpaceCreate, plainHost) splitRequests).map
      (fun served => served.2.1.regions.map fun region => (region.start, region.stop)) =
      some [(0x10000, 0x11000), (0x11000, 0x12000)] := by
    decide +kernel
  rw [served, map_some, some.injEq] at spans
  have first : (0x10000, 0x11000) ∈ machine.1.regions.map fun region => (region.start, region.stop) :=
    spans ▸ mem_cons_self
  obtain ⟨region, member, span⟩ := mem_map.mp first
  rw [Prod.mk.injEq] at span
  exact ⟨region, member, span.1.le, span.2 ▸ (by decide : (0x10000 : UInt64).toNat + 8 ≤ 0x11000)⟩

/-- Eight bytes of which each can be read cannot be read together. -/
theorem read_across_split_fails :
    (serveAll (memSpaceCreate, plainHost) splitRequests).map (fun served =>
      ((range 8).map fun index =>
          ((Access.read8 (0x10FFC + .ofNat index)).run served.2.1 served.2.2).isSome,
        ((Access.read64 0x10FFC).run served.2.1 served.2.2).isSome)) =
      some (replicate 8 true, false) := by
  decide +kernel

end Access

open UInt64

variable (space)

/-- The bytes of the regions at their guest addresses. -/
def guestBytes (host : HostMemory) : ByteMap := fun address =>
  (view host space.regions address.toNat).map Prod.snd

/-- One writable region holds a range. -/
def WritableRange (addr : UInt64) (size : Nat) : Prop :=
  ∃ region ∈ space.regions, region.start ≤ addr.toNat ∧ addr.toNat + size ≤ region.stop ∧
    region.prot &&& memProtWrite = memProtWrite
  deriving Decidable

/-- `mem_copy_to` of a list of bytes. -/
def copyBytes (host : HostMemory) (addr : UInt64) (bytes : List UInt8) :
    Option HostMemory :=
  memCopyTo space host addr (bytes.getD · 0) (.ofNat bytes.length)

variable {space} {after : HostMemory}

theorem Backing.congr (backing : Backing host regions)
    (same : ∀ pointer, (after.load pointer).isSome = (host.load pointer).isSome) :
    Backing after regions := by
  refine ⟨fun region member address lower upper => ?_, backing.separate⟩
  have loaded := backing.loads region member address lower upper
  rw [Region.byteAt, if_pos ⟨lower, upper⟩] at loaded ⊢
  rw [same, loaded]

variable {bytes : List UInt8}

section Writing

variable {addr : UInt64}

theorem ofNat_length_ne_zero (nonempty : bytes ≠ []) (small : bytes.length < 2 ^ 64) :
    ofNat bytes.length ≠ 0 := by
  intro zero
  have length := congrArg toNat zero
  rw [toNat_ofNat', Nat.mod_eq_of_lt small] at length
  exact nonempty (List.length_eq_zero_iff.mp length)

theorem toNat_add_lt_of_memTranslate {size : UInt64} {prot : UInt32} {pointer : Pointer}
    (nonzero : size ≠ 0) (translated : memTranslate space addr size prot = some pointer) :
    addr.toNat + size.toNat < 2 ^ 64 := by
  rw [memTranslate] at translated
  split at translated
  · cases translated
  rename_i forward
  have notBelow : ¬addr + size < addr := fun below => forward ⟨nonzero, below⟩
  rw [UInt64.lt_iff_toNat_lt, UInt64.toNat_add] at notBelow
  have second := size.toNat_lt
  omega

theorem isSome_memWriteBytes (ordered : Ordered space.regions) {size : UInt64} (nonzero : size ≠ 0)
    (source : Nat → UInt8) :
    (memWriteBytes space host addr size source).isSome = true ↔
      WritableRange space addr size.toNat := by
  rw [memWriteBytes, isSome_map, isSome_iff_exists]
  constructor
  · rintro ⟨_, translated⟩
    have noWrap := toNat_add_lt_of_memTranslate nonzero translated
    obtain ⟨region, member, lower, upper, permitted, -⟩ :=
      (memTranslate_eq_some_iff ordered nonzero noWrap.le).mp translated
    exact ⟨region, member, lower, upper, permitted⟩
  · rintro ⟨region, member, lower, upper, permitted⟩
    have bound := (ordered.fits region member).2
    exact ⟨_, (memTranslate_eq_some_iff ordered nonzero (by omega)).mpr
      ⟨region, member, lower, upper, permitted, rfl⟩⟩

theorem wrote_of_memWriteBytes (ordered : Ordered space.regions)
    (backing : Backing host space.regions) {size : UInt64} (nonzero : size ≠ 0)
    {source : Nat → UInt8} (sized : bytes.length = size.toNat)
    (given : ∀ index byte, bytes[index]? = some byte → source index = byte)
    (written : memWriteBytes space host addr size source = some after) :
    Wrote (guestBytes space host) (guestBytes space after) addr bytes ∧
      Backing after space.regions := by
  obtain ⟨_, translated, stored⟩ := map_eq_some_iff.mp written
  have noWrap := toNat_add_lt_of_memTranslate nonzero translated
  have inRange : (Access.copyTo addr source size).addr.toNat + size.toNat ≤ 2 ^ 64 := noWrap.le
  have ran : (Access.copyTo addr source size).run space host = some ([], after) := by
    rw [Access.run, memCopyTo, if_neg nonzero, written]
    rfl
  have shows := Access.writes_of_run ordered backing inRange ran rfl
  have place {index : Nat} (inside : index < size.toNat) :
      (addr + .ofNat index).toNat = addr.toNat + index := by
    rw [UInt64.toNat_add, UInt64.toNat_ofNat', Nat.mod_eq_of_lt (show index < 2 ^ 64 by omega),
      Nat.mod_eq_of_lt (show addr.toNat + index < 2 ^ 64 by omega)]
  refine ⟨⟨fun index byte here => ?_, fun address outside => ?_⟩, ?_⟩
  · obtain ⟨inside, -⟩ := List.getElem?_eq_some_iff.mp here
    rw [sized] at inside
    obtain ⟨region, member, _, _, -⟩ :=
      (isSome_memWriteBytes ordered nonzero source).mp (isSome_of_mem written)
    have first : region.start ≤ addr.toNat + index := by omega
    have last : addr.toNat + index < region.stop := by omega
    have loaded := backing.loads region member _ first last
    obtain ⟨_, held⟩ := isSome_iff_exists.mp loaded
    have touched : (Access.copyTo addr source size).Touches (addr.toNat + index) :=
      ⟨Nat.le_add_right _ _, by simp only [Access.addr, Access.size]; omega⟩
    rw [guestBytes, place inside, shows, if_pos touched, view_of_mem ordered member first last,
      held]
    simp [Access.addr, given index byte here]
  · have untouched : ¬(Access.copyTo addr source size).Touches address.toNat := by
      rintro ⟨lower, upper⟩
      simp only [Access.addr, Access.size] at lower upper
      have inside : address.toNat - addr.toNat < size.toNat := by omega
      refine outside _ (sized ▸ inside) (UInt64.toNat_inj.mp ?_)
      rw [place inside]
      omega
    rw [guestBytes, guestBytes, shows, if_neg untouched]
  · rw [← stored]
    exact backing.congr (isSome_load_store _ _ _ _)

variable (nonempty : bytes ≠ []) (small : bytes.length < 2 ^ 64)

include nonempty small in
theorem isSome_copyBytes (ordered : Ordered space.regions) :
    (copyBytes space host addr bytes).isSome = true ↔ WritableRange space addr bytes.length := by
  have nonzero := ofNat_length_ne_zero nonempty small
  rw [copyBytes, memCopyTo, if_neg nonzero, isSome_memWriteBytes ordered nonzero,
    toNat_ofNat', Nat.mod_eq_of_lt small]

include nonempty small in
theorem wrote_of_copyBytes (ordered : Ordered space.regions) (backing : Backing host space.regions)
    (copied : copyBytes space host addr bytes = some after) :
    Wrote (guestBytes space host) (guestBytes space after) addr bytes ∧
      Backing after space.regions := by
  have nonzero := ofNat_length_ne_zero nonempty small
  rw [copyBytes, memCopyTo, if_neg nonzero] at copied
  refine wrote_of_memWriteBytes ordered backing nonzero ?_ (fun index byte here => ?_) copied
  · rw [toNat_ofNat', Nat.mod_eq_of_lt small]
  · rw [List.getD_eq_getElem?_getD, here]
    rfl

end Writing

theorem placed_of_memReadBytes {addr size : UInt64} (ordered : Ordered space.regions)
    (backing : Backing host space.regions) (nonzero : size ≠ 0)
    (read : memReadBytes space host addr size = some bytes) :
    Placed (guestBytes space host) addr bytes ∧ bytes.length = size.toNat := by
  obtain ⟨_, translated, -⟩ := map_eq_some_iff.mp read
  have noWrap := toNat_add_lt_of_memTranslate nonzero translated
  have ran : (Access.copyFrom addr size).run space host = some (bytes, host) := by
    rw [Access.run, memCopyFrom, if_neg nonzero, read]
    rfl
  have inRange : (Access.copyFrom addr size).addr.toNat + size.toNat ≤ 2 ^ 64 := noWrap.le
  obtain ⟨-, sized, shows⟩ := Access.reads_of_run ordered backing inRange ran rfl
  refine ⟨fun index byte here => ?_, sized⟩
  obtain ⟨inside, -⟩ := List.getElem?_eq_some_iff.mp here
  rw [sized] at inside
  change index < size.toNat at inside
  rw [guestBytes, UInt64.toNat_add, UInt64.toNat_ofNat',
    Nat.mod_eq_of_lt (show index < 2 ^ 64 by omega),
    Nat.mod_eq_of_lt (show addr.toNat + index < 2 ^ 64 by omega), ← here]
  exact shows index inside

end AlpineOnIOS.AddressSpace
