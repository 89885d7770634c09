import AlpineOnIOS.AddressSpace.Placement

/-!
# Region lists under arbitrary requests

In both modes the region list stays in order as long as every range ends below `2 ^ 64`.  What the
host chooses itself in native mode is assumed to be free and below `2 ^ 64` too.
-/

namespace AlpineOnIOS.AddressSpace

open Foundation Foundation.HostMemory UInt64

section Operations

variable {space : Space} {host : HostMemory} {addr size : UInt64} {prot flags : UInt32}

/-- The rounded range of a request ends below `2 ^ 64`. -/
def RangeFits (addr size : UInt64) : Prop := (pageAlignDown addr).toNat + pages size < 2 ^ 64

/-- Where the host puts the next mapping of its own choice, one request behind the node of it. -/
def nextPlace (host : HostMemory) : Nat := host.place (host.clock + 1)

theorem Ordered.unmapRange {regions : List Region} (ordered : Ordered regions) (native : Bool)
    (generous : host.Generous) (forward : addr.toNat ≤ (addr + size).toNat) :
    Ordered (AddressSpace.unmapRange native host regions addr size).1 ∧
      Vacant (AddressSpace.unmapRange native host regions addr size).1 addr.toNat
        (addr + size).toNat ∧
      Later host (AddressSpace.unmapRange native host regions addr size).2 := by
  rw [unmapRange_eq ordered fun _ => forward]
  exact ⟨ordered_rebuild ordered (fun _ region member =>
      tiles_unmapPieces (ordered.fits region member) fun _ => forward) host,
    vacant_rebuild_unmapPieces ordered generous, later_rebuild (fun _ _ => later_unmapPieces) host⟩

theorem ordered_memMunmap (ordered : Ordered space.regions) (generous : host.Generous)
    (fits : RangeFits addr size) :
    Ordered (memMunmap space host addr size).1.regions ∧
      Later host (memMunmap space host addr size).2 := by
  have ends := toNat_add_pageAlignUp fits
  have forward : (pageAlignDown addr).toNat ≤ (pageAlignDown addr + pageAlignUp size).toNat := by
    omega
  obtain ⟨still, _, later⟩ := ordered.unmapRange space.aotMode generous forward
  exact ⟨still, later⟩

variable (prot) in
theorem ordered_memMprotect (ordered : Ordered space.regions) (generous : host.Generous)
    (fits : RangeFits addr size)
    (nonempty : ∀ region ∈ space.regions, region.start < (pageAlignDown addr).toNat →
      (pageAlignDown addr).toNat < region.stop → size ≠ 0) :
    Ordered (memMprotect space host addr size prot).1.regions ∧
      Later host (memMprotect space host addr size prot).2 := by
  have forward := forward_of_nonempty fits nonempty
  rw [memMprotect_eq ordered generous forward]
  exact ⟨ordered_rebuild ordered (fun _ region member =>
      tiles_protectPieces (ordered.fits region member) (forward region member)) host,
    later_rebuild (fun _ _ => later_protectPieces) host⟩

variable {content : Option (List UInt8)}

/-- The address at which a mapping appears: the host's choice in native mode without `MAP_FIXED`. -/
def mappedBase (space : Space) (host : HostMemory) (flags : UInt32) (addr : UInt64) : UInt64 :=
  if space.aotMode && !hasBit flags memMapFixed then .ofNat (nextPlace host) else addr

variable (space prot content) in
theorem ordered_placeMapping (ordered : Ordered space.regions) (generous : host.Generous)
    (nonzero : size ≠ 0)
    (small : (mappedBase space host flags addr).toNat + pages size < 2 ^ 64)
    (vacant : Vacant space.regions (mappedBase space host flags addr).toNat
      ((mappedBase space host flags addr).toNat + pages size)) :
    ∃ next after, placeMapping space host addr size prot flags content =
      (mappedBase space host flags addr, next, after) ∧ Ordered next.regions ∧ Later host after := by
  have sized := toNat_pageAlignUp_eq_pages (show pages size < 2 ^ 64 by omega)
  obtain ⟨buffer, after, later, mapped⟩ := mapBuffer_eq space.aotMode (hasBit flags memMapFixed)
    host.asked addr (pageAlignUp size)
  rw [if_pos (host.later_asked.generous generous _)] at mapped
  let region : Region :=
    { base := mappedBase space host flags addr, size := pageAlignUp size, prot, flags,
      host := buffer }
  have ends : region.stop = (mappedBase space host flags addr).toNat + pages size :=
    congrArg ((mappedBase space host flags addr).toNat + ·) sized
  refine ⟨{ space with
      regions := regionInsert region space.regions
      mmapNext := if space.aotMode && !hasBit flags memMapFixed then
        mappedBase space host flags addr + pageAlignUp size else space.mmapNext },
    readContent after buffer size (pageAlignUp size) flags content, ?_, ?_, ?_⟩
  · rw [placeMapping, generous.request_eq]
    simp only [mapped]
    rfl
  · exact ordered_regionInsert ordered ⟨sized ▸ pages_pos nonzero, ends ▸ small⟩ (ends ▸ vacant)
  · exact (host.later_asked.trans later).trans (later_readContent buffer)

/-- What the host chooses in native mode is free and ends below `2 ^ 64`. -/
def PlaceFits (space : Space) (host : HostMemory) (size : UInt64) : Prop :=
  space.aotMode = true → nextPlace host + pages size < 2 ^ 64 ∧
    Vacant space.regions (nextPlace host) (nextPlace host + pages size)

theorem toNat_ofNat_nextPlace (small : nextPlace host + pages size < 2 ^ 64) :
    (ofNat (nextPlace host)).toNat = nextPlace host := by
  rw [toNat_ofNat', Nat.mod_eq_of_lt (by omega)]

/-- The condition on `mem_mmap`: the range fits, or there is room for it. -/
def MapFits (space : Space) (host : HostMemory) (addr size : UInt64) (flags : UInt32) : Prop :=
  if hasBit flags memMapFixed then RangeFits addr size
  else PlaceFits space host size ∧
    Room space.regions (pageAlignUp (if addr = 0 then space.mmapNext else addr)).toNat (pages size)

variable (prot content) in
theorem ordered_memMmap (ordered : Ordered space.regions) (generous : host.Generous)
    (nonzero : size ≠ 0) (fits : MapFits space host addr size flags) :
    ∃ answer next after, memMmap space host addr size prot flags content =
      some (answer, next, after) ∧ Ordered next.regions ∧ Later host after := by
  rw [MapFits] at fits
  cases fixed : hasBit flags memMapFixed with
  | true =>
    rw [fixed, if_pos rfl] at fits
    have ends := toNat_add_pageAlignUp fits
    have forward : (pageAlignDown addr).toNat ≤ (pageAlignDown addr + pageAlignUp size).toNat := by
      omega
    obtain ⟨cleared, vacant, later⟩ := ordered.unmapRange space.aotMode generous forward
    rw [ends] at vacant
    have placed (space : Space) (host : HostMemory) :
        mappedBase space host flags (pageAlignDown addr) = pageAlignDown addr := by
      simp [mappedBase, fixed]
    obtain ⟨next, after, mapped, still, last⟩ := ordered_placeMapping
      { space with regions := _ } prot content cleared (later.generous generous) nonzero
      (by rw [placed]; exact fits) (by rw [placed]; exact vacant)
    simp only [memMmap, if_neg nonzero, fixed, if_true]
    exact ⟨_, next, after, congrArg some mapped, still, later.trans last⟩
  | false =>
    rw [fixed, if_neg Bool.false_ne_true] at fits
    obtain ⟨placed, room⟩ := fits
    obtain ⟨found, hint, -, chosen, -, small, vacant⟩ := chooseGap_of_room ordered.fits room
    have free : (mappedBase { space with mmapNext := hint } host flags found).toNat + pages size <
          2 ^ 64 ∧
        Vacant space.regions (mappedBase { space with mmapNext := hint } host flags found).toNat
          ((mappedBase { space with mmapNext := hint } host flags found).toNat + pages size) := by
      rw [mappedBase, fixed]
      cases native : space.aotMode with
      | true =>
        obtain ⟨below, apart⟩ := placed native
        simp only [Bool.not_false, Bool.and_true, if_true]
        rw [toNat_ofNat_nextPlace below]
        exact ⟨below, apart⟩
      | false => exact ⟨small, vacant⟩
    obtain ⟨next, after, mapped, still, last⟩ := ordered_placeMapping
      { space with mmapNext := hint } prot content ordered generous nonzero free.1 free.2
    simp only [memMmap, if_neg nonzero, fixed, Bool.false_eq_true, if_false, chosen,
      Option.map_some]
    exact ⟨_, next, after, congrArg some mapped, still, last⟩

variable (space host) in
theorem later_copyMoved (oldAddr newAddr oldSize : UInt64) :
    Later host (copyMoved space host oldAddr newAddr oldSize) := by
  rw [copyMoved]
  split
  · exact .refl _
  split
  · exact .refl _
  · exact host.later_copy _ _ _

/-- The old range does not wrap around, and the call made has a range that fits or room. -/
def MremapFits (space : Space) (host : HostMemory) (oldAddr oldSize newSize flags : UInt64) : Prop :=
  oldAddr.toNat + oldSize.toNat < 2 ^ 64 ∧
    if newSize < oldSize then RangeFits (oldAddr + newSize) (oldSize - newSize)
    else if oldSize < newSize then
      if flags &&& 1 = 0 then RangeFits (oldAddr + oldSize) (newSize - oldSize)
      else RangeFits oldAddr oldSize ∧ PlaceFits space host newSize ∧
        Room space.regions (pageAlignUp space.mmapNext).toNat (pages newSize)
    else True

theorem sub_ne_zero_of_lt {first second : UInt64} (less : first < second) : second - first ≠ 0 := by
  intro zero
  have size := congrArg toNat zero
  rw [UInt64.toNat_sub_of_le _ _ (UInt64.le_of_lt less)] at size
  exact Nat.sub_ne_zero_of_lt (lt_iff_toNat_lt.mp less) size

theorem ordered_doMremap {oldAddr oldSize newSize flags : UInt64} (ordered : Ordered space.regions)
    (generous : host.Generous) (nonzero : newSize ≠ 0)
    (fits : MremapFits space host oldAddr oldSize newSize flags) :
    ∃ answer next after, doMremap space host oldAddr oldSize newSize flags =
      some (answer, next, after) ∧ Ordered next.regions ∧ Later host after := by
  obtain ⟨_, fits⟩ := fits
  rw [doMremap, if_neg nonzero]
  split
  · split
    · rename_i shrinks
      rw [if_pos shrinks] at fits
      obtain ⟨still, later⟩ := ordered_memMunmap ordered generous fits
      exact ⟨_, _, _, rfl, still, later⟩
    · exact ⟨_, _, _, rfl, ordered, .refl _⟩
  rename_i notSmaller
  have larger : oldSize < newSize := UInt64.not_le.mp notSmaller
  have notShrinks : ¬newSize < oldSize := fun smaller => notSmaller (UInt64.le_of_lt smaller)
  have difference : newSize - oldSize ≠ 0 := sub_ne_zero_of_lt larger
  rw [if_neg notShrinks, if_pos larger] at fits
  split
  · rename_i stays
    rw [if_pos stays] at fits
    have mapFits : MapFits space host (oldAddr + oldSize) (newSize - oldSize)
        (memMapPrivate ||| memMapFixed ||| memMapAnonymous) := fits
    obtain ⟨_, next, after, mapped, still, later⟩ :=
      ordered_memMmap _ none ordered generous difference mapFits
    rw [mapped, Option.map_some]
    simp only
    split
    · exact ⟨_, next, after, rfl, still, later⟩
    · exact ⟨_, next, after, rfl, still, later⟩
  rename_i moves
  rw [if_neg moves] at fits
  have mapFits : MapFits space host 0 newSize (memMapPrivate ||| memMapAnonymous) := fits.2
  obtain ⟨answer, next, after, mapped, still, later⟩ :=
    ordered_memMmap _ none ordered generous nonzero mapFits
  rw [mapped, Option.map_some]
  simp only
  split
  · exact ⟨_, next, after, rfl, still, later⟩
  have copied := later_copyMoved next after oldAddr answer oldSize
  obtain ⟨last, unmapped⟩ :=
    ordered_memMunmap still ((later.trans copied).generous generous) fits.1
  exact ⟨_, _, _, rfl, last, (later.trans copied).trans unmapped⟩

end Operations

/-- A call of the guest that changes mappings. -/
inductive MapCall where
  | mapping (request : Request)
  | mremap (oldAddr oldSize newSize flags : UInt64)

def perform (machine : Machine) : MapCall → Option Machine
  | .mapping request => advance machine request
  | .mremap oldAddr oldSize newSize flags =>
    (doMremap machine.1 machine.2 oldAddr oldSize newSize flags).map Prod.snd

def Fitting (machine : Machine) : MapCall → Prop
  | .mapping (.mmap addr size _ flags _) =>
    size ≠ 0 → MapFits machine.1 machine.2 addr size flags
  | .mapping (.munmap addr size) => RangeFits addr size
  | .mapping (.mprotect addr size _) =>
    RangeFits addr size ∧ ∀ region ∈ machine.1.regions,
      region.start < (pageAlignDown addr).toNat → (pageAlignDown addr).toNat < region.stop →
      size ≠ 0
  | .mremap oldAddr oldSize newSize flags =>
    newSize ≠ 0 → MremapFits machine.1 machine.2 oldAddr oldSize newSize flags

theorem ordered_perform {machine : Machine} {call : MapCall} (ordered : Ordered machine.1.regions)
    (generous : machine.2.Generous) (fitting : Fitting machine call) :
    ∃ next, perform machine call = some next ∧ Ordered next.1.regions ∧ next.2.Generous := by
  cases call with
  | mapping request =>
    cases request with
    | mmap addr size prot flags content =>
      by_cases zero : size = 0
      · exact ⟨machine, by simp [perform, advance, serve, memMmap, zero], ordered, generous⟩
      obtain ⟨_, next, after, mapped, still, later⟩ :=
        ordered_memMmap prot content ordered generous zero (fitting zero)
      exact ⟨(next, after), by rw [perform, advance, serve, mapped, Option.map_some], still,
        later.generous generous⟩
    | munmap =>
      obtain ⟨still, later⟩ := ordered_memMunmap ordered generous fitting
      exact ⟨_, rfl, still, later.generous generous⟩
    | mprotect addr size prot =>
      obtain ⟨still, later⟩ := ordered_memMprotect prot ordered generous fitting.1 fitting.2
      exact ⟨_, rfl, still, later.generous generous⟩
  | mremap oldAddr oldSize newSize =>
    by_cases zero : newSize = 0
    · exact ⟨machine, by simp [perform, doMremap, zero], ordered, generous⟩
    obtain ⟨_, next, after, moved, still, later⟩ :=
      ordered_doMremap ordered generous zero (fitting zero)
    exact ⟨(next, after), by rw [perform, moved, Option.map_some], still, later.generous generous⟩

/-- Calls that fit keep the regions non-empty, within the address range and apart. -/
theorem regions_apart_of_fitting {machine : Machine} {calls : List MapCall}
    (ordered : Ordered machine.1.regions) (generous : machine.2.Generous)
    (along : Along perform Fitting machine calls) :
    ∃ final, run perform machine calls = some final ∧
      (∀ region ∈ final.1.regions, 0 < region.size.toNat ∧
        region.base.toNat + region.size.toNat ≤ 2 ^ 64) ∧
      final.1.regions.Pairwise fun first second =>
        first.stop ≤ second.start ∨ second.stop ≤ first.start := by
  induction calls generalizing machine with
  | nil =>
    exact ⟨machine, rfl, fun region member =>
      ⟨(ordered.fits region member).1, (ordered.fits region member).2.le⟩, ordered.disjoint⟩
  | cons call calls induction =>
    obtain ⟨next, stepped, still, stays⟩ := ordered_perform ordered generous along.1
    obtain ⟨final, reached, holds⟩ := induction still stays (along.2 next stepped)
    exact ⟨final, run_cons_eq_some.mpr ⟨next, stepped, reached⟩, holds⟩

/-- A mapping with a protected page in the middle that is then shortened. -/
def sampleCalls : List MapCall :=
  [.mapping (.mmap 0 0x3000 3 0x22 none), .mapping (.mprotect 0x7F0000001000 0x1000 1),
    .mremap 0x7F0000000000 0x3000 0x2000 0]

theorem regions_apart_sample :
    Ordered memSpaceCreate.regions ∧ plainHost.Generous ∧
      Along perform Fitting (memSpaceCreate, plainHost) sampleCalls ∧
      ∃ final, run perform (memSpaceCreate, plainHost) sampleCalls = some final ∧
        (∀ region ∈ final.1.regions, 0 < region.size.toNat ∧
          region.base.toNat + region.size.toNat ≤ 2 ^ 64) ∧
        final.1.regions.Pairwise fun first second =>
          first.stop ≤ second.start ∨ second.stop ≤ first.start := by
  have along : Along perform Fitting (memSpaceCreate, plainHost) sampleCalls := by
    refine ⟨fun _ => ?_, fun _ _ => ⟨⟨by unfold RangeFits; decide, fun _ _ _ _ => by decide⟩,
      fun _ _ => ⟨fun _ => ?_, fun _ _ => trivial⟩⟩⟩
    · refine ⟨fun native => ?_, 0x7F0000000000, by decide, by decide, by decide, ?_⟩
      · exact absurd native Bool.false_ne_true
      · exact fun _ absent => absurd absent List.not_mem_nil
    · refine ⟨by decide, ?_⟩
      rw [if_pos (by decide), RangeFits]
      decide
  exact ⟨.nil, generous_plainHost, along, regions_apart_of_fitting .nil generous_plainHost along⟩

/-- A length rounds to zero, a mapping runs over the end, and a range takes away pages behind it. -/
theorem perform_wraps_around :
    (run perform (memSpaceCreate, plainHost)
        [.mapping (.mmap 0x10000 0xFFFFFFFFFFFFFFFF 3 0x32 none)]).map
      (fun machine => machine.1.regions.map fun region => (region.base, region.size)) =
      some [(0x10000, 0)] ∧
    (run perform (memSpaceCreate, plainHost)
        [.mapping (.mmap 0xFFFFFFFFFFFFF000 0x2000 3 0x32 none)]).map
      (fun machine => machine.1.regions.map fun region => (region.base, region.size)) =
      some [(0xFFFFFFFFFFFFF000, 0x2000)] ∧
    (run perform (memSpaceCreate, plainHost)
        [.mapping (.mmap 0x1000 0x1000 3 0x32 none), .mremap 0xFFFFFFFFFFFFF000 0x3000 0x2000 0]).map
      (fun machine => machine.1.regions.map fun region => (region.base, region.size)) =
      some [] := by
  decide +kernel

end AlpineOnIOS.AddressSpace
