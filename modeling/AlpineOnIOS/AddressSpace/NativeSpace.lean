import AlpineOnIOS.AddressSpace.Access
import AlpineOnIOS.AddressSpace.NativeUnmap
import AlpineOnIOS.AddressSpace.WrapAround

/-!
# Spaces in both modes

The mapping operations of a native space act on the map from addresses to protections and bytes
like those of an interpreted one, with one difference: a range that is taken out of the middle of a
region zeroes what the region has behind it.
-/

namespace AlpineOnIOS.AddressSpace

open Foundation Foundation.HostMemory PageMap AddressSpace

/-- A native space whose regions lie at their own addresses on pages of the host. -/
structure NativeSound (space : Space) (host : HostMemory) : Prop where
  native : space.aotMode = true
  generous : host.Generous
  ordered : Ordered space.regions
  identical : Identical space.regions
  paged : ∀ region ∈ space.regions, ∀ address, region.start ≤ address → address < region.stop →
    (host.page address).isSome = true

/-- Behind a range, in a region in the middle of which the range lies. -/
def Spanned (regions : List Region) (lower upper address : Nat) : Prop :=
  ∃ region ∈ regions, region.start < lower ∧ upper ≤ address ∧ address < region.stop
  deriving Decidable

/-- The bytes of a native space that the removal of a range zeroes. -/
def Torn (space : Space) (lower upper address : Nat) : Prop :=
  space.aotMode = true ∧ Spanned space.regions lower upper address
  deriving Decidable

/-- Zeros at some addresses that are mapped. -/
def PageMap.wipe (map : PageMap) (gone : Nat → Prop) [DecidablePred gone] : PageMap :=
  fun address =>
    if gone address then (map address).map fun entry => (entry.1, 0) else map address

theorem wipe_congr {map : PageMap} {first second : Nat → Prop} [DecidablePred first]
    [DecidablePred second] (same : ∀ address, first address ↔ second address) :
    map.wipe first = map.wipe second := by
  funext address
  rw [wipe, wipe]
  by_cases gone : first address
  · rw [if_pos gone, if_pos ((same address).mp gone)]
  · rw [if_neg gone, if_neg fun other => gone ((same address).mpr other)]

variable {space : Space} {host : HostMemory} {flags : UInt32}

namespace NativeSound

variable {addr size : UInt64} {prot : UInt32}

theorem backing (sound : NativeSound space host) : Backing host space.regions := by
  refine ⟨fun region member address lower upper => ?_,
    fun first inFirst second inSecond address other lower upper lowerOther upperOther same => ?_⟩
  · rw [Region.byteAt, if_pos ⟨lower, upper⟩, sound.identical region member, Pointer.add, load,
      Nat.add_sub_cancel' lower]
    exact sound.paged region member address lower upper
  · rw [sound.identical first inFirst, sound.identical second inSecond, Pointer.add, Pointer.add,
      Pointer.direct.injEq] at same
    omega

theorem wiped_iff (generous : host.Generous) {regions : List Region} {lower upper address : Nat} :
    Wiped host regions lower upper address ↔ Spanned regions lower upper address := by
  rw [Wiped, generous, generous]
  simp only [true_and]
  rfl

variable (sound : NativeSound space host)

include sound

theorem unmapRange {finish : UInt64} (ends : addr + size = finish)
    (sum : addr.toNat + size.toNat = finish.toNat) :
    ∃ regions after, unmapRange true host space.regions addr size = (regions, after) ∧
      NativeSound { space with regions } after ∧
      view after regions = ((space.map host).wipe
        (Spanned space.regions addr.toNat finish.toNat)).unmap addr.toNat finish.toNat ∧
      Vacant regions addr.toNat finish.toNat := by
  have bound := finish.toNat_lt
  have outside : Outside addr.toNat (addr.toNat + size.toNat) host space.regions
      (AddressSpace.unmapRange true host space.regions addr size).2
      (AddressSpace.unmapRange true host space.regions addr size).1 :=
    outside_unmapRange sound.ordered sound.identical (by omega)
  obtain ⟨ordered, vacant, later⟩ :=
    sound.ordered.unmapRange true sound.generous (by rw [ends]; omega)
  rw [ends] at vacant
  rw [sum] at outside
  generalize AddressSpace.unmapRange true host space.regions addr size = result at *
  obtain ⟨regions, after⟩ := result
  -- a page outside the range is there before and after
  have pages : ∀ address, ¬(addr.toNat ≤ address ∧ address < finish.toNat) →
      (host.page address).isSome = true → (after.page address).isSome = true := by
    intro address apart present
    by_cases wiped : Wiped host space.regions addr.toNat finish.toNat address
    · rw [outside.wiped address wiped]
      rfl
    · rw [outside.kept address apart wiped]
      exact present
  have mapped : ∀ address prot, protAt space.regions address = some prot →
      (host.page address).isSome = true := by
    intro address prot found
    obtain ⟨region, member, inside⟩ := List.exists_of_findSome?_eq_some found
    split at inside
    · rename_i here
      exact sound.paged region member address here.1 here.2
    · cases inside
  refine ⟨regions, after, rfl, ⟨sound.native, later.generous sound.generous, ordered,
    outside.identical, fun region member address lower upper => ?_⟩, ?_, vacant⟩
  · have apart : ¬(addr.toNat ≤ address ∧ address < finish.toNat) := by
      have free := vacant region member
      omega
    obtain ⟨prot, found⟩ := protAt_isSome member lower upper
    rw [outside.layout address apart] at found
    exact pages address apart (mapped address prot found)
  · funext address
    by_cases inside : addr.toNat ≤ address ∧ address < finish.toNat
    · rw [PageMap.unmap, if_pos inside]
      exact view_eq_none_of_vacant vacant inside.1 inside.2
    rw [PageMap.unmap, if_neg inside, view_of_identical outside.identical,
      outside.layout address inside, wipe, Space.map, view_of_identical sound.identical]
    by_cases wiped : Spanned space.regions addr.toNat finish.toNat address
    · rw [if_pos wiped, outside.wiped address ((wiped_iff sound.generous).mpr wiped)]
      cases found : protAt space.regions address with
      | none => cases host.page address <;> rfl
      | some prot =>
        obtain ⟨_, present⟩ := Option.isSome_iff_exists.mp (mapped address prot found)
        rw [present]
        rfl
    · rw [if_neg wiped, outside.kept address inside fun gone =>
        wiped ((wiped_iff sound.generous).mp gone)]

theorem store (target : Pointer) (count : Nat)
    (value : Nat → UInt8) : NativeSound space (host.store target count value) := by
  refine ⟨sound.native, (host.later_store target count value).generous sound.generous,
    sound.ordered, sound.identical, fun region member address lower upper => ?_⟩
  have present := sound.paged region member address lower upper
  cases target with
  | block => exact present
  | direct =>
    simp only [HostMemory.store]
    split
    · rwa [Option.isSome_map]
    · exact present

theorem place {after : HostMemory} {fresh : Region}
    (later : Later host after) (direct : fresh.host = .direct fresh.start) (fits : fresh.Fits)
    (page : after.page = host.zeroed fresh.start fresh.size.toNat)
    (vacant : Vacant space.regions fresh.start fresh.stop) :
    NativeSound { space with regions := regionInsert fresh space.regions } after ∧
      view after (regionInsert fresh space.regions) =
        (space.map host).install fresh.start fresh.stop fresh.prot fun _ => 0 := by
  have others : ∀ address, ¬(fresh.start ≤ address ∧ address < fresh.stop) →
      after.page address = host.page address := fun address apart => by
    rw [page]
    exact if_neg apart
  have zero : ∀ address, fresh.start ≤ address ∧ address < fresh.stop →
      after.page address = some 0 := fun address inside => by
    rw [page]
    exact if_pos inside
  have identical : Identical (regionInsert fresh space.regions) := by
    intro region member
    rcases List.mem_cons.1 ((regionInsert_perm _ _).mem_iff.1 member) with rfl | old
    · exact direct
    · exact sound.identical region old
  refine ⟨⟨sound.native, later.generous sound.generous,
    ordered_regionInsert sound.ordered fits vacant, identical,
    fun region member address lower upper => ?_⟩, ?_⟩
  · rcases List.mem_cons.1 ((regionInsert_perm _ _).mem_iff.1 member) with rfl | old
    · rw [zero address ⟨lower, upper⟩]
      rfl
    have apart := vacant region old
    rw [others address (by omega)]
    exact sound.paged region old address lower upper
  · funext address
    rw [view_regionInsert vacant, view_singleton, install, Region.byteAt]
    by_cases inside : fresh.start ≤ address ∧ address < fresh.stop
    · rw [if_pos inside, if_pos inside, direct, Pointer.add, load,
        Nat.add_sub_cancel' inside.1, zero address inside]
      rfl
    · rw [if_neg inside, if_neg inside, Option.map_none, Option.none_or,
        view_of_identical sound.identical, others address inside, Space.map,
        view_of_identical sound.identical]

/-- The part of `mem_mmap` behind the choice of the address, in a free place. -/
theorem placeMapping (nonzero : size ≠ 0) {base : UInt64}
    (starts : if hasBit flags memMapFixed then addr = base else nextPlace host = base.toNat)
    (small : base.toNat + pages size < 2 ^ 64)
    (vacant : Vacant space.regions base.toNat (base.toNat + pages size)) :
    ∃ next after, placeMapping space host addr size prot flags none =
        (base, next, after) ∧ NativeSound next after ∧
      Inserted space next prot base.toNat (base.toNat + pages size) ∧
      next.map after =
        (space.map host).install base.toNat (base.toNat + pages size) prot fun _ => 0 := by
  have sized := toNat_pageAlignUp_eq_pages (show pages size < 2 ^ 64 by omega)
  let region : Region :=
    { base, size := pageAlignUp size, prot, flags, host := .direct base.toNat }
  have ends : region.stop = base.toNat + pages size := congrArg (base.toNat + ·) sized
  have fits : region.Fits := ⟨sized ▸ pages_pos nonzero, ends ▸ small⟩
  have asked : NativeSound space host.asked :=
    ⟨sound.native, host.later_asked.generous sound.generous, sound.ordered, sound.identical,
      sound.paged⟩
  obtain ⟨after, mapped, later, page⟩ : ∃ after,
      mapBuffer true (hasBit flags memMapFixed) host.asked addr (pageAlignUp size) =
        (some (base, .direct base.toNat), after) ∧ Later host.asked after ∧
      after.page = host.asked.zeroed base.toNat (pageAlignUp size).toNat := by
    rw [mapBuffer]
    cases fixed : hasBit flags memMapFixed with
    | true =>
      rw [fixed, if_pos rfl] at starts
      subst starts
      simp only [Bool.not_true, Bool.and_false, Bool.false_eq_true, if_false, if_true]
      rw [asked.generous.mapFixed_eq]
      refine ⟨_, rfl, later_mapFixed _ _ _, ?_⟩
      rw [mapFixed, asked.generous, if_pos rfl]
    | false =>
      rw [fixed, if_neg Bool.false_ne_true] at starts
      have place : host.asked.place host.asked.clock = base.toNat := starts
      simp only [Bool.not_false, Bool.and_true, if_true]
      rw [asked.generous.mapAny_eq, place]
      simp only [UInt64.ofNat_toNat]
      refine ⟨_, rfl, later_mapAny _ _, ?_⟩
      rw [mapAny, asked.generous, if_pos rfl, place]
  obtain ⟨placed, shows⟩ : NativeSound { space with regions := regionInsert region _ } after ∧ _ :=
    asked.place later rfl fits page (ends ▸ vacant)
  refine ⟨{ space with
      regions := regionInsert region space.regions
      mmapNext := if space.aotMode && !hasBit flags memMapFixed then
        base + pageAlignUp size else space.mmapNext }, after, ?_,
    ⟨placed.native, placed.generous, placed.ordered, placed.identical, placed.paged⟩,
    ⟨region, rfl, rfl, ends, rfl⟩, ?_⟩
  · rw [AddressSpace.placeMapping, sound.generous.request_eq]
    simp only [sound.native, mapped]
    rfl
  · rw [Space.map, shows, ends]
    rfl

theorem unmapPages (small : RangeFits addr size) :
    ∃ regions after, AddressSpace.unmapRange space.aotMode host space.regions (pageAlignDown addr)
        (pageAlignUp size) = (regions, after) ∧ NativeSound { space with regions } after ∧
      view after regions = ((space.map host).wipe (Torn space (pageAlignDown addr).toNat
        ((pageAlignDown addr).toNat + pages size))).unmap (pageAlignDown addr).toNat
          ((pageAlignDown addr).toNat + pages size) ∧
      Vacant regions (pageAlignDown addr).toNat ((pageAlignDown addr).toNat + pages size) := by
  have ends := toNat_add_pageAlignUp small
  have sized : (pageAlignUp size).toNat = pages size :=
    toNat_pageAlignUp_eq_pages (Nat.lt_of_le_of_lt (Nat.le_add_left _ _) small)
  have sum : (pageAlignDown addr).toNat + (pageAlignUp size).toNat =
      (pageAlignDown addr + pageAlignUp size).toNat := by rw [ends, sized]
  obtain ⟨regions, after, unmapped, still, shows, vacant⟩ := sound.unmapRange rfl sum
  rw [ends] at shows vacant
  rw [← sound.native] at unmapped
  refine ⟨regions, after, unmapped, still, shows.trans ?_, vacant⟩
  exact congrArg (fun map : PageMap => map.unmap _ _)
    (wipe_congr fun _ => ⟨fun spanned => ⟨sound.native, spanned⟩, And.right⟩)

end NativeSound

/-- A space in either mode whose regions are as the mapping operations leave them. -/
inductive Coherent (space : Space) (host : HostMemory) : Prop
  | interpreted (sound : Sound space host)
  | native (sound : NativeSound space host)

/-- A space in either mode on a host that may refuse requests. -/
inductive Laid (space : Space) (host : HostMemory) : Prop
  | interpreted (mode : space.aotMode = false) (wellFormed : WellFormed space.regions)
      (owned : Owned host space.regions)
  | native (mode : space.aotMode = true) (ordered : Ordered space.regions)
      (identical : Identical space.regions)
      (paged : ∀ region ∈ space.regions, ∀ address, region.start ≤ address →
        address < region.stop → (host.page address).isSome = true)

/-- Where a mapping without `MAP_FIXED` comes to lie. -/
def chosenPlace (space : Space) (host : HostMemory) (addr size : UInt64) : Option UInt64 :=
  (findGap space.regions (pageAlignUp size)
    (pageAlignUp (if addr = 0 then space.mmapNext else addr))).map fun gap =>
      if space.aotMode then .ofNat (nextPlace host) else gap

theorem Sound.wipe_torn (sound : Sound space host) (map : PageMap) (lower upper : Nat) :
    map.wipe (Torn space lower upper) = map := by
  funext address
  exact if_neg fun torn => Bool.false_ne_true (sound.interpreted.symm.trans torn.1)

theorem Sound.store (sound : Sound space host) (target : Pointer) (size : Nat)
    (value : Nat → UInt8) : Sound space (host.store target size value) := by
  have later := host.later_store target size value
  refine ⟨sound.interpreted, later.generous sound.generous, sound.wellFormed,
    ⟨fun region member => ?_, sound.owned.apart⟩⟩
  obtain ⟨internal, id, _, pointer, old, held, large⟩ := sound.owned.owns region member
  obtain ⟨written, stored, same⟩ := host.size_block_store target size value held
  exact ⟨internal, id, written, pointer, Nat.lt_of_lt_of_le old later.clock, stored, same ▸ large⟩

theorem Laid.ordered (laid : Laid space host) : Ordered space.regions := by
  cases laid with
  | interpreted _ wellFormed => exact wellFormed.ordered
  | native _ ordered => exact ordered

theorem Laid.coherent (laid : Laid space host) (generous : host.Generous) :
    Coherent space host := by
  cases laid with
  | interpreted mode wellFormed owned => exact .interpreted ⟨mode, generous, wellFormed, owned⟩
  | native mode ordered identical paged => exact .native ⟨mode, generous, ordered, identical, paged⟩

namespace Coherent

variable {addr size : UInt64} {prot : UInt32} (coherent : Coherent space host)

include coherent

theorem ordered : Ordered space.regions := by
  cases coherent with
  | interpreted sound => exact sound.wellFormed.ordered
  | native sound => exact sound.ordered

theorem backing : Backing host space.regions := by
  cases coherent with
  | interpreted sound | native sound => exact sound.backing

theorem store (target : Pointer) (count : Nat)
    (value : Nat → UInt8) : Coherent space (host.store target count value) := by
  cases coherent with
  | interpreted sound => exact .interpreted (sound.store target count value)
  | native sound => exact .native (sound.store target count value)

theorem memMunmap (small : RangeFits addr size) :
    ∃ next after, memMunmap space host addr size = (next, after) ∧ Coherent next after ∧
      next.map after = ((space.map host).wipe (Torn space (pageAlignDown addr).toNat
        ((pageAlignDown addr).toNat + pages size))).unmap (pageAlignDown addr).toNat
          ((pageAlignDown addr).toNat + pages size) := by
  cases coherent with
  | interpreted sound =>
    obtain ⟨next, after, unmapped, still, shows⟩ := sound.memMunmap small
    rw [sound.wipe_torn]
    exact ⟨next, after, unmapped, .interpreted still, shows⟩
  | native sound =>
    obtain ⟨regions, after, unmapped, still, shows, -⟩ := sound.unmapPages small
    refine ⟨{ space with regions }, after, ?_, .native still, shows⟩
    rw [AddressSpace.memMunmap, unmapped]

theorem memMmap_fixed
    (fixed : hasBit flags memMapFixed = true) (internal : hasBit flags memMapExternal = false)
    (nonzero : size ≠ 0) (small : RangeFits addr size) :
    ∃ next after, memMmap space host addr size prot flags none =
        some (pageAlignDown addr, next, after) ∧ Coherent next after ∧
      next.map after = ((space.map host).wipe (Torn space (pageAlignDown addr).toNat
        ((pageAlignDown addr).toNat + pages size))).install (pageAlignDown addr).toNat
          ((pageAlignDown addr).toNat + pages size) prot fun _ => 0 := by
  cases coherent with
  | interpreted sound =>
    obtain ⟨next, after, mapped, still, shows⟩ : ∃ next after,
        memMmap space host addr size prot flags none = some (_, next, after) ∧ _ :=
      sound.memMmap_fixed fixed internal nonzero small
    rw [sound.wipe_torn]
    exact ⟨next, after, mapped, .interpreted still, shows⟩
  | native sound =>
    obtain ⟨_, middle, unmapped, cleared, shows, vacant⟩ := sound.unmapPages small
    obtain ⟨next, after, placed, still, -, installed⟩ : ∃ next after,
        placeMapping _ middle (pageAlignDown addr) size prot flags none =
          (pageAlignDown addr, next, after) ∧ _ :=
      cleared.placeMapping nonzero (by rw [fixed, if_pos rfl]) small vacant
    refine ⟨next, after, ?_, .native still, installed.trans ?_⟩
    · simp only [memMmap, if_neg nonzero, if_pos fixed, unmapped, placed]
    · funext address
      rw [Space.map, shows, PageMap.install, PageMap.install, PageMap.unmap]
      split <;> rfl

theorem memMmap_chosen
    (free : hasBit flags memMapFixed = false) (internal : hasBit flags memMapExternal = false)
    (nonzero : size ≠ 0) (places : PlaceFits space host size)
    (room : Room space.regions (pageAlignUp (if addr = 0 then space.mmapNext else addr)).toNat
      (pages size)) :
    ∃ found next after, chosenPlace space host addr size = some found ∧
      memMmap space host addr size prot flags none = some (found, next, after) ∧
      Coherent next after ∧ next.aotMode = space.aotMode ∧
      found.toNat + pages size < 2 ^ 64 ∧
      Vacant space.regions found.toNat (found.toNat + pages size) ∧
      Inserted space next prot found.toNat (found.toNat + pages size) ∧
      next.map after =
        (space.map host).install found.toNat (found.toNat + pages size) prot fun _ => 0 := by
  have positive := pages_pos nonzero
  cases coherent with
  | interpreted sound =>
    obtain ⟨found, next, after, mapped, still, search, small, vacant, fresh, shows⟩ :
        ∃ found next after, memMmap space host addr size prot flags none =
          some (found, next, after) ∧ _ :=
      sound.memMmap_chosen free internal nonzero room
    refine ⟨found, next, after, ?_, mapped, .interpreted still,
      still.interpreted.trans sound.interpreted.symm, small, vacant, fresh, shows⟩
    rw [chosenPlace, search, sound.interpreted]
    rfl
  | native sound =>
    obtain ⟨below, apart⟩ := places sound.native
    have place := toNat_ofNat_nextPlace below
    rw [← place] at below apart
    obtain ⟨gap, hint, search, chosen, -⟩ := chooseGap_of_room sound.ordered.fits room
    have hinted : NativeSound { space with mmapNext := hint } host :=
      ⟨sound.native, sound.generous, sound.ordered, sound.identical, sound.paged⟩
    obtain ⟨next, after, placed, still, fresh, shows⟩ : ∃ next after, placeMapping
        _ host gap size prot flags none = (.ofNat (nextPlace host), next, after) ∧ _ :=
      hinted.placeMapping nonzero
        (by rw [free, if_neg Bool.false_ne_true]; exact place.symm) below apart
    refine ⟨_, next, after, ?_, ?_, .native still, still.native.trans sound.native.symm, below,
      apart, fresh, shows⟩
    · rw [chosenPlace, search, sound.native]
      rfl
    · simp only [memMmap, if_neg nonzero, free, Bool.false_eq_true, if_false, chosen,
        Option.map_some, placed]

end Coherent

end AlpineOnIOS.AddressSpace
