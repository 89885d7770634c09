import AlpineOnIOS.AddressSpace.NativeSpace

/-!
# Resizing a mapping

`do_mremap` cuts the tail off, maps fresh pages over what follows, or copies to a new place. The
borders are rounded down, what follows is not looked at, and the copy needs a single region.
-/

namespace AlpineOnIOS.AddressSpace

open Foundation Foundation.HostMemory Option UInt64 PageMap

/-- A byte that the guest can read. -/
def PageMap.Reads (map : PageMap) (address : Nat) (byte : UInt8) : Prop :=
  ∃ prot, map address = some (prot, byte) ∧ prot &&& memProtRead = memProtRead

/-- The pages that a range touches. -/
def InPages (addr size : UInt64) (address : Nat) : Prop :=
  addr.toNat ≤ address ∧ address < addr.toNat + pages size
  deriving Decidable

theorem unmap_pages (map : PageMap) (addr size : UInt64) (address : Nat) :
    map.unmap addr.toNat (addr.toNat + pages size) address =
      if InPages addr size address then none else map address := rfl

theorem install_pages (map : PageMap) (addr size : UInt64) (prot : UInt32) (byte : Nat → UInt8)
    (address : Nat) :
    map.install addr.toNat (addr.toNat + pages size) prot byte address =
      if InPages addr size address then some (prot, byte (address - addr.toNat))
      else map address := rfl

/-- The common bytes are read at the new address, and nothing changes outside both ranges. -/
structure Remapped (before after : PageMap) (oldAddr oldSize newAddr newSize : UInt64) :
    Prop where
  content : ∀ index, index < min oldSize.toNat newSize.toNat → ∀ byte,
    before.Reads (oldAddr.toNat + index) byte → after.Reads (newAddr.toNat + index) byte
  mappings : ∀ address, ¬InPages oldAddr oldSize address → ∀ entry,
    before address = some entry → after address = some entry
  frame : ∀ address, ¬InPages oldAddr oldSize address → ¬InPages newAddr newSize address →
    after address = before address

/-- The pages that a mapping of `do_mremap` gets. -/
def readWrite : UInt32 := memProtRead ||| memProtWrite

variable {oldAddr oldSize newAddr newSize : UInt64} {address : Nat} {map : PageMap}

theorem Remapped.refl (map : PageMap) (oldAddr size : UInt64) :
    Remapped map map oldAddr size oldAddr size :=
  ⟨fun _ _ _ reads => reads, fun _ _ _ seen => seen, fun _ _ _ => rfl⟩

/-- The page of the new end is not readable in front of the end. -/
def KeepsShrunk (map : PageMap) (oldAddr newSize : UInt64) : Prop :=
  ∀ index, newSize.toNat / 4096 * 4096 ≤ index → index < newSize.toNat →
    ∀ byte, ¬map.Reads (oldAddr.toNat + index) byte

variable {lower upper : Nat}

theorem remapped_shrunk_iff (smaller : newSize.toNat < oldSize.toNat)
    (starts : lower = oldAddr.toNat + newSize.toNat / 4096 * 4096)
    (ends : upper = lower + pages (oldSize - newSize)) :
    Remapped map (map.unmap lower upper) oldAddr oldSize oldAddr newSize ↔
      KeepsShrunk map oldAddr newSize := by
  rw [pages, UInt64.toNat_sub_of_le _ _ (UInt64.le_iff_toNat_le.mpr (Nat.le_of_lt smaller))] at ends
  constructor
  · intro remapped index first last byte reads
    obtain ⟨_, seen, -⟩ := remapped.content index (by omega) byte reads
    rw [PageMap.unmap, if_pos (by omega)] at seen
    cases seen
  · intro keeps
    have inside : ∀ address, lower ≤ address ∧ address < upper →
        InPages oldAddr oldSize address := by
      intro address cut
      rw [InPages, pages]
      omega
    refine ⟨fun index short byte reads => ?_, fun address apart entry seen => ?_,
      fun address apart _ => ?_⟩
    · have kept : ¬(lower ≤ oldAddr.toNat + index ∧ oldAddr.toNat + index < upper) := fun cut =>
        keeps index (by omega) (by omega) byte reads
      obtain ⟨prot, seen, readable⟩ := reads
      exact ⟨prot, by rw [PageMap.unmap, if_neg kept, seen], readable⟩
    · rw [PageMap.unmap, if_neg fun cut => apart (inside address cut), seen]
    · rw [PageMap.unmap, if_neg fun cut => apart (inside address cut)]

/-- The page of the old end is zero in front of it if readable, and nothing in the way is lost. -/
def KeepsGrown (map : PageMap) (oldAddr oldSize newSize : UInt64) : Prop :=
  (∀ index, oldSize.toNat / 4096 * 4096 ≤ index → index < oldSize.toNat →
    ∀ byte, map.Reads (oldAddr.toNat + index) byte → byte = 0) ∧
  ∀ address, oldAddr.toNat + pages oldSize ≤ address →
    address < oldAddr.toNat + oldSize.toNat / 4096 * 4096 + pages (newSize - oldSize) →
    ∀ entry, map address = some entry → entry = (readWrite, 0)

theorem reads_zero (seen : map address = some (readWrite, 0)) (byte : UInt8) :
    map.Reads address byte ↔ byte = 0 := by
  constructor
  · rintro ⟨_, same, -⟩
    rw [seen] at same
    cases same
    rfl
  · rintro rfl
    exact ⟨readWrite, seen, by decide⟩

theorem remapped_grown_iff (larger : oldSize.toNat < newSize.toNat)
    (starts : lower = oldAddr.toNat + oldSize.toNat / 4096 * 4096)
    (ends : upper = lower + pages (newSize - oldSize)) :
    Remapped map (map.install lower upper readWrite fun _ => 0) oldAddr oldSize oldAddr newSize ↔
      KeepsGrown map oldAddr oldSize newSize := by
  have length : pages (newSize - oldSize) =
      (newSize.toNat - oldSize.toNat + 4095) / 4096 * 4096 := by
    rw [pages, UInt64.toNat_sub_of_le _ _ (UInt64.le_iff_toNat_le.mpr (Nat.le_of_lt larger))]
  have fresh : ∀ address, lower ≤ address ∧ address < upper →
      map.install lower upper readWrite (fun _ => 0) address = some (readWrite, 0) :=
    fun address inside => by rw [install, if_pos inside]
  have others : ∀ address, ¬(lower ≤ address ∧ address < upper) →
      map.install lower upper readWrite (fun _ => 0) address = map address :=
    fun address outside => by rw [install, if_neg outside]
  constructor
  · intro remapped
    refine ⟨fun index first last byte reads => ?_, fun address first last entry seen => ?_⟩
    · have read := remapped.content index (by omega) byte reads
      rwa [reads_zero (fresh _ (by omega))] at read
    · have apart : ¬InPages oldAddr oldSize address := by
        rw [InPages]
        omega
      have kept := remapped.mappings address apart entry seen
      rw [fresh address (by rw [pages] at first; omega)] at kept
      exact (some.inj kept).symm
  · rintro ⟨zero, free⟩
    refine ⟨fun index short byte reads => ?_, fun address apart entry seen => ?_,
      fun address apart outside => others address fun inside => ?_⟩
    · by_cases inside : lower ≤ oldAddr.toNat + index ∧ oldAddr.toNat + index < upper
      · rw [reads_zero (fresh _ inside)]
        exact zero index (by omega) (by omega) byte reads
      · obtain ⟨prot, seen, readable⟩ := reads
        exact ⟨prot, (others _ inside).trans seen, readable⟩
    · by_cases inside : lower ≤ address ∧ address < upper
      · rw [InPages, pages] at apart
        rw [fresh address inside, free address (by rw [pages]; omega) (by omega) entry seen]
      · rw [others address inside, seen]
    · rw [InPages, pages] at outside
      omega

/-- The byte that a map shows, or zero. -/
def PageMap.byteOf (map : PageMap) (address : Nat) : UInt8 := ((map address).map Prod.snd).getD 0

theorem PageMap.Reads.byteOf_eq {byte : UInt8} (reads : map.Reads address byte) :
    map.byteOf address = byte := by
  obtain ⟨_, seen, -⟩ := reads
  rw [byteOf, seen]
  rfl

/-- The contract for a move to free pages by the bytes that get there. -/
theorem remapped_moved_iff (larger : oldSize.toNat < newSize.toNat) {source : Nat → UInt8}
    (free : ∀ address, InPages newAddr newSize address → map address = none) :
    Remapped map
        ((map.install newAddr.toNat (newAddr.toNat + pages newSize) readWrite source).unmap
          oldAddr.toNat (oldAddr.toNat + pages oldSize)) oldAddr oldSize newAddr newSize ↔
      ∀ index, index < oldSize.toNat → ∀ byte, map.Reads (oldAddr.toNat + index) byte →
        source index = byte ∧ ¬InPages oldAddr oldSize (newAddr.toNat + index) := by
  have room := toNat_le_pages newSize
  have shown : ∀ index, index < oldSize.toNat →
      (map.install newAddr.toNat (newAddr.toNat + pages newSize) readWrite source).unmap
          oldAddr.toNat (oldAddr.toNat + pages oldSize) (newAddr.toNat + index) =
        if InPages oldAddr oldSize (newAddr.toNat + index) then none
        else some (readWrite, source index) := by
    intro index short
    have inside : InPages newAddr newSize (newAddr.toNat + index) := ⟨by omega, by omega⟩
    rw [unmap_pages, install_pages, if_pos inside, Nat.add_sub_cancel_left]
  constructor
  · intro remapped index short byte reads
    obtain ⟨_, seen, -⟩ := remapped.content index (by omega) byte reads
    rw [shown index short] at seen
    split at seen
    · cases seen
    rename_i apart
    cases seen
    exact ⟨rfl, apart⟩
  · intro keeps
    refine ⟨fun index short byte reads => ?_, fun address apart entry seen => ?_,
      fun address apart outside => ?_⟩
    · obtain ⟨same, apart⟩ := keeps index (by omega) byte reads
      refine ⟨readWrite, ?_, by decide⟩
      rw [shown index (by omega), if_neg apart, same]
    · have outside : ¬InPages newAddr newSize address := fun inside => by
        rw [free address inside] at seen
        cases seen
      rw [unmap_pages, if_neg apart, install_pages, if_neg outside, seen]
    · rw [unmap_pages, if_neg apart, install_pages, if_neg outside]

variable {gone : Nat → Prop}

theorem wipe_eq [DecidablePred gone]
    (zero : gone address → ∀ entry, map address = some entry → entry.2 = 0) :
    map.wipe gone address = map address := by
  rw [wipe]
  split
  · rename_i wiped
    cases seen : map address with
    | none => rfl
    | some entry => rw [map_some, ← zero wiped entry seen]
  · rfl

theorem unmap_wipe (gone : Nat → Prop) [DecidablePred gone] (lower upper : Nat) :
    (map.wipe gone).unmap lower upper = (map.unmap lower upper).wipe gone := by
  funext address
  simp only [PageMap.unmap, PageMap.wipe]
  split
  · split <;> rfl
  · rfl

theorem install_wipe [DecidablePred gone]
    (behind : ∀ address, gone address → upper ≤ address) (prot : UInt32) (byte : Nat → UInt8) :
    (map.wipe gone).install lower upper prot byte =
      (map.install lower upper prot byte).wipe gone := by
  funext address
  by_cases inside : lower ≤ address ∧ address < upper
  · rw [wipe, if_neg fun wiped => Nat.not_lt.mpr (behind address wiped) inside.2,
      install, install, if_pos inside, if_pos inside]
  · rw [install, if_neg inside, wipe, wipe, install, if_neg inside]

/-- The contract after some addresses were zeroed that are as they were or newly mapped. -/
theorem remapped_wiped_iff {after : PageMap} [DecidablePred gone]
    (harmless : ∀ index, index < min oldSize.toNat newSize.toNat → gone (newAddr.toNat + index) →
      ∀ entry, after (newAddr.toNat + index) = some entry → entry.2 = 0)
    (untouched : ∀ address, gone address → ¬InPages oldAddr oldSize address →
      after address = map address ∨ map address = none ∧ InPages newAddr newSize address) :
    Remapped map (after.wipe gone) oldAddr oldSize newAddr newSize ↔
      Remapped map after oldAddr oldSize newAddr newSize ∧
        ∀ address, gone address → ¬InPages oldAddr oldSize address →
          ∀ entry, map address = some entry → entry.2 = 0 := by
  have content : ∀ index, index < min oldSize.toNat newSize.toNat →
      after.wipe gone (newAddr.toNat + index) = after (newAddr.toNat + index) :=
    fun index short => wipe_eq (harmless index short)
  have apart : ∀ address, gone address → ¬InPages oldAddr oldSize address → ∀ entry,
      map address = some entry → after address = some entry := by
    intro address wiped outside entry seen
    rcases untouched address wiped outside with same | ⟨free, -⟩
    · rw [same, seen]
    · rw [free] at seen
      cases seen
  constructor
  · intro remapped
    have zero : ∀ address, gone address → ¬InPages oldAddr oldSize address →
        ∀ entry, map address = some entry → entry.2 = 0 := by
      intro address wiped outside entry seen
      have kept := remapped.mappings address outside entry seen
      rw [wipe, if_pos wiped, apart address wiped outside entry seen, map_some, some.injEq] at kept
      rw [← kept]
    refine ⟨⟨fun index short byte reads => ?_, fun address outside entry seen => ?_,
      fun address outside beyond => ?_⟩, zero⟩
    · obtain ⟨prot, seen, readable⟩ := remapped.content index short byte reads
      exact ⟨prot, (content index short).symm.trans seen, readable⟩
    · by_cases wiped : gone address
      · exact apart address wiped outside entry seen
      · have kept := remapped.mappings address outside entry seen
        rwa [wipe, if_neg wiped] at kept
    · by_cases wiped : gone address
      · exact (untouched address wiped outside).resolve_right fun fresh => beyond fresh.2
      · have kept := remapped.frame address outside beyond
        rwa [wipe, if_neg wiped] at kept
  · rintro ⟨remapped, zero⟩
    refine ⟨fun index short byte reads => ?_, fun address outside entry seen => ?_,
      fun address outside beyond => ?_⟩
    · obtain ⟨prot, seen, readable⟩ := remapped.content index short byte reads
      exact ⟨prot, (content index short).trans seen, readable⟩
    · have kept := remapped.mappings address outside entry seen
      rw [wipe_eq fun wiped other shown => ?_, kept]
      rw [kept] at shown
      cases shown
      exact zero address wiped outside entry seen
    · have kept := remapped.frame address outside beyond
      rw [wipe_eq fun wiped entry shown => ?_, kept]
      rw [kept] at shown
      exact zero address wiped outside entry shown

variable {space : Space} {host : HostMemory}

/-- A range in one region with a protection. -/
def Held (regions : List Region) (addr size : UInt64) (prot : UInt32) : Prop :=
  ∃ region ∈ regions, region.start ≤ addr.toNat ∧ addr.toNat + size.toNat ≤ region.stop ∧
    region.prot &&& prot = prot

theorem Coherent.copyMoved_held (coherent : Coherent space host) (nonzero : oldSize ≠ 0)
    (oldFits : oldAddr.toNat + oldSize.toNat ≤ 2 ^ 64)
    (newFits : newAddr.toNat + oldSize.toNat ≤ 2 ^ 64)
    (readable : Held space.regions oldAddr oldSize memProtRead)
    (writable : Held space.regions newAddr oldSize memProtWrite) :
    Coherent space (copyMoved space host oldAddr newAddr oldSize) ∧
      ∀ address, view (copyMoved space host oldAddr newAddr oldSize) space.regions address =
        if newAddr.toNat ≤ address ∧ address < newAddr.toNat + oldSize.toNat then
          (view host space.regions address).map fun entry =>
            (entry.1, (space.map host).byteOf (oldAddr.toNat + (address - newAddr.toNat)))
        else view host space.regions address := by
  have ordered := coherent.ordered
  obtain ⟨source, inRegions, lower, upper, permitted⟩ := readable
  obtain ⟨target, inTargets, first, last, allowed⟩ := writable
  have fromOld : memTranslate space oldAddr oldSize memProtRead =
      some (source.host.add (oldAddr.toNat - source.start)) :=
    (memTranslate_eq_some_iff ordered nonzero oldFits).mpr
      ⟨source, inRegions, lower, upper, permitted, rfl⟩
  have toNew : memTranslate space newAddr oldSize memProtWrite =
      some (target.host.add (newAddr.toNat - target.start)) :=
    (memTranslate_eq_some_iff ordered nonzero newFits).mpr
      ⟨target, inTargets, first, last, allowed, rfl⟩
  have copied : copyMoved space host oldAddr newAddr oldSize =
      host.copy (target.host.add (newAddr.toNat - target.start))
        (source.host.add (oldAddr.toNat - source.start)) oldSize.toNat := by
    rw [copyMoved, fromOld, toNew]
  refine ⟨copied ▸ coherent.store _ _ _, fun address => ?_⟩
  let access : Access := .copyTo newAddr
    (fun index => (host.load ((source.host.add (oldAddr.toNat - source.start)).add index)).getD 0)
    oldSize
  have ran : access.run space host = some ([], copyMoved space host oldAddr newAddr oldSize) := by
    rw [copied]
    simp only [access, Access.run, memCopyTo, if_neg nonzero, memWriteBytes, toNew, map_some]
    rfl
  have noWrap : access.addr.toNat + access.size.toNat ≤ 2 ^ 64 := newFits
  have written := Access.writes_of_run ordered coherent.backing noWrap ran rfl address
  by_cases touched : newAddr.toNat ≤ address ∧ address < newAddr.toNat + oldSize.toNat
  · rw [if_pos touched, written, if_pos (show access.Touches address from touched)]
    -- the byte of the source is the one that the map shows there
    have starts : source.start ≤ oldAddr.toNat + (address - newAddr.toNat) := by omega
    have stops : oldAddr.toNat + (address - newAddr.toNat) < source.stop := by omega
    have shown : (space.map host).byteOf (oldAddr.toNat + (address - newAddr.toNat)) =
        (host.load ((source.host.add (oldAddr.toNat - source.start)).add
          (address - newAddr.toNat))).getD 0 := by
      rw [byteOf, Space.map, view_of_mem ordered inRegions starts stops, Region.byteAt,
        if_pos ⟨starts, stops⟩, Pointer.add_add, map_map,
        show oldAddr.toNat - source.start + (address - newAddr.toNat) =
          oldAddr.toNat + (address - newAddr.toNat) - source.start by omega]
      cases host.load (source.host.add
        (oldAddr.toNat + (address - newAddr.toNat) - source.start)) <;> rfl
    rw [shown]
    rfl
  · rw [if_neg touched, written, if_neg (show ¬access.Touches address from touched)]

theorem copyMoved_unheld (ordered : Ordered space.regions) (nonzero : oldSize ≠ 0)
    (oldFits : oldAddr.toNat + oldSize.toNat ≤ 2 ^ 64)
    (unreadable : ¬Held space.regions oldAddr oldSize memProtRead) :
    copyMoved space host oldAddr newAddr oldSize = host := by
  rw [copyMoved]
  cases found : memTranslate space oldAddr oldSize memProtRead with
  | none => rfl
  | some =>
    obtain ⟨region, member, lower, upper, permitted, -⟩ :=
      (memTranslate_eq_some_iff ordered nonzero oldFits).mp found
    exact absurd ⟨region, member, lower, upper, permitted⟩ unreadable

theorem Coherent.copyMoved_empty (coherent : Coherent space host) :
    Coherent space (copyMoved space host oldAddr newAddr 0) ∧
      view (copyMoved space host oldAddr newAddr 0) space.regions = view host space.regions := by
  rw [copyMoved]
  split
  · exact ⟨coherent, rfl⟩
  split
  · exact ⟨coherent, rfl⟩
  refine ⟨coherent.store _ _ _, Unchanged.view_eq fun region member address => ?_⟩
  rw [Region.byteAt, Region.byteAt, HostMemory.copy, UInt64.toNat_zero,
    load_store_of_ne _ _ _ fun index short => absurd short (Nat.not_lt_zero _)]

variable {flags found : UInt64} {regions : List Region}

section Calls

theorem mem_of_inserted {next : Space} {fresh : Region}
    (regions : next.regions = regionInsert fresh space.regions) (region : Region) :
    region ∈ next.regions ↔ region = fresh ∨ region ∈ space.regions := by
  rw [regions, (regionInsert_perm _ _).mem_iff, List.mem_cons]

theorem Coherent.copyMoved_fresh {next : Space} {middle : HostMemory}
    (placed : Coherent next middle)
    (inserted : Inserted space next readWrite found.toNat (found.toNat + pages newSize))
    (larger : oldSize.toNat < newSize.toNat) (small : found.toNat + pages newSize < 2 ^ 64)
    (vacant : Vacant space.regions found.toNat (found.toNat + pages newSize))
    (oldFits : oldAddr.toNat + oldSize.toNat ≤ 2 ^ 64)
    (shows : next.map middle = (space.map host).install found.toNat
      (found.toNat + pages newSize) readWrite fun _ => 0) :
    Coherent next (copyMoved next middle oldAddr found oldSize) ∧
      ∃ source, next.map (copyMoved next middle oldAddr found oldSize) =
          (space.map host).install found.toNat (found.toNat + pages newSize) readWrite source ∧
        (Held space.regions oldAddr oldSize memProtRead → ∀ index, index < oldSize.toNat →
          source index = (space.map host).byteOf (oldAddr.toNat + index)) ∧
        (¬Held space.regions oldAddr oldSize memProtRead → ∀ index, index < oldSize.toNat →
          source index = 0) := by
  have room := toNat_le_pages newSize
  obtain ⟨fresh, regions, start, _, prot⟩ := inserted
  have members := mem_of_inserted regions
  by_cases empty : oldSize = 0
  · subst empty
    obtain ⟨still, same⟩ : Coherent next (copyMoved next middle oldAddr found 0) ∧ _ :=
      placed.copyMoved_empty
    exact ⟨still, fun _ => 0, same.trans shows,
      fun _ index short => absurd short (Nat.not_lt_zero _), fun _ _ _ => rfl⟩
  have writable : Held next.regions found oldSize memProtWrite := by
    refine ⟨fresh, (members _).mpr (.inl rfl), Nat.le_of_eq start, by omega, ?_⟩
    rw [prot]
    decide
  by_cases readable : Held next.regions oldAddr oldSize memProtRead
  · obtain ⟨still, shown⟩ :=
      placed.copyMoved_held empty oldFits (by omega) readable writable
    refine ⟨still, fun index => if index < oldSize.toNat then
      (next.map middle).byteOf (oldAddr.toNat + index) else 0, ?_, fun held index short => ?_,
      fun unheld index short => ?_⟩
    · funext address
      rw [Space.map, shown, ← Space.map, shows, install_pages, install_pages]
      by_cases inside : InPages found newSize address
      · rw [if_pos inside, if_pos inside, map_some]
        obtain ⟨first, -⟩ := inside
        by_cases near : address < found.toNat + oldSize.toNat
        · rw [if_pos ⟨first, near⟩, if_pos (by omega)]
        · rw [if_neg (by omega), if_neg (by omega)]
      · rw [if_neg inside, if_neg inside, if_neg fun touched =>
          inside ⟨touched.1, by omega⟩]
    · -- the old range is mapped, and thus not where the new pages are
      obtain ⟨region, member, _, _, -⟩ := held
      have apart := vacant region member
      simp only [if_pos short]
      rw [byteOf, byteOf, shows, install_pages,
        if_neg fun inside => by rw [InPages] at inside; omega]
    · obtain ⟨region, member, lower, upper, permitted⟩ := readable
      rcases (members region).mp member with rfl | old
      · simp only [if_pos short]
        rw [byteOf, shows, install_pages, if_pos ⟨by omega, by omega⟩]
        rfl
      · exact absurd ⟨region, old, lower, upper, permitted⟩ unheld
  · have nothing : copyMoved next middle oldAddr found oldSize = middle :=
      copyMoved_unheld placed.ordered empty oldFits readable
    rw [nothing]
    refine ⟨placed, fun _ => 0, shows, fun held => absurd (held.imp fun region both => ?_) readable,
      fun _ _ _ => rfl⟩
    exact ⟨(members region).mpr (.inr both.1), both.2⟩

/-- What a native space has behind pages taken out of a region is zero, but for the old range. -/
def KeepsTails (space : Space) (host : HostMemory) (oldAddr oldSize start size : UInt64) : Prop :=
  ∀ address, Torn space start.toNat (start.toNat + pages size) address →
    ¬InPages oldAddr oldSize address → ∀ entry, space.map host address = some entry → entry.2 = 0

/-- The page in which a range ends. -/
def tailStart (addr size : UInt64) : UInt64 := pageAlignDown (addr + size)

variable (coherent : Coherent space host) (aligned : 4096 ∣ oldAddr.toNat) (nonzero : newSize ≠ 0)

theorem toNat_tailStart {size : UInt64} (aligned : 4096 ∣ oldAddr.toNat)
    (noWrap : oldAddr.toNat + size.toNat < 2 ^ 64) :
    (tailStart oldAddr size).toNat = oldAddr.toNat + size.toNat / 4096 * 4096 := by
  rw [tailStart, toNat_pageAlignDown, UInt64.toNat_add, Nat.mod_eq_of_lt noWrap]
  omega

theorem toNat_lt_pages_sub {size other : UInt64} (less : size < other) :
    size.toNat < size.toNat / 4096 * 4096 + pages (other - size) := by
  have positive := pages_pos (sub_ne_zero_of_lt less)
  have whole := dvd_pages (other - size)
  omega

include coherent aligned nonzero

theorem Coherent.doMremap_shrinks (smaller : newSize < oldSize)
    (fits : MremapFits space host oldAddr oldSize newSize flags) :
    ∃ next after, doMremap space host oldAddr oldSize newSize flags =
        some (oldAddr, next, after) ∧ Coherent next after ∧
      (Remapped (space.map host) (next.map after) oldAddr oldSize oldAddr newSize ↔
        KeepsShrunk (space.map host) oldAddr newSize ∧
        KeepsTails space host oldAddr oldSize (tailStart oldAddr newSize) (oldSize - newSize)) := by
  obtain ⟨_, range⟩ := fits
  rw [if_pos smaller] at range
  have less := lt_iff_toNat_lt.mp smaller
  have starts : (tailStart oldAddr newSize).toNat =
      oldAddr.toNat + newSize.toNat / 4096 * 4096 := toNat_tailStart aligned (by omega)
  have beyond := toNat_lt_pages_sub smaller
  obtain ⟨next, after, unmapped, still, shows⟩ := coherent.memMunmap range
  rw [← tailStart] at shows
  refine ⟨next, after, ?_, still, ?_⟩
  · rw [doMremap, if_neg nonzero, if_pos (UInt64.le_of_lt smaller), if_pos smaller, unmapped]
  · rw [shows, unmap_wipe, remapped_wiped_iff, remapped_shrunk_iff less starts rfl]
    · rfl
    · rintro index short ⟨-, _, -, -, _, -⟩
      omega
    · rintro address ⟨-, _, -, -, behind, -⟩ -
      exact .inl (if_neg fun inside => Nat.not_lt.mpr behind inside.2)

theorem Coherent.doMremap_grows (larger : oldSize < newSize) (stays : flags &&& 1 = 0)
    (fits : MremapFits space host oldAddr oldSize newSize flags) :
    ∃ next after, doMremap space host oldAddr oldSize newSize flags =
        some (oldAddr, next, after) ∧ Coherent next after ∧
      (Remapped (space.map host) (next.map after) oldAddr oldSize oldAddr newSize ↔
        KeepsGrown (space.map host) oldAddr oldSize newSize ∧
        KeepsTails space host oldAddr oldSize (tailStart oldAddr oldSize) (newSize - oldSize)) := by
  obtain ⟨noWrap, range⟩ := fits
  have less := lt_iff_toNat_lt.mp larger
  rw [if_neg (UInt64.not_lt.mpr (UInt64.le_of_lt larger)), if_pos larger, if_pos stays] at range
  have starts := toNat_tailStart aligned noWrap
  have beyond := toNat_lt_pages_sub larger
  have difference : newSize - oldSize ≠ 0 := sub_ne_zero_of_lt larger
  have fixed : hasBit (memMapPrivate ||| memMapFixed ||| memMapAnonymous) memMapFixed = true := by
    decide
  obtain ⟨next, after, mapped, still, shows⟩ : ∃ next after, memMmap space host
      (oldAddr + oldSize) (newSize - oldSize) readWrite _ none = some (_, next, after) ∧ _ :=
    coherent.memMmap_fixed fixed (by decide) difference range
  have placed : pageAlignDown (oldAddr + oldSize) ≠ mapFailed :=
    ne_mapFailed_of_dvd (dvd_pageAlignDown _)
  have torn : ∀ address, Torn space (tailStart oldAddr oldSize).toNat
      ((tailStart oldAddr oldSize).toNat + pages (newSize - oldSize)) address →
      (tailStart oldAddr oldSize).toNat + pages (newSize - oldSize) ≤ address := by
    rintro address ⟨-, _, -, -, behind, -⟩
    exact behind
  refine ⟨next, after, ?_, still, ?_⟩
  · rw [doMremap, if_neg nonzero, if_neg (UInt64.not_le.mpr larger), if_pos stays]
    rw [readWrite] at mapped
    rw [mapped, map_some]
    simp only [if_neg placed]
  · rw [shows, ← tailStart, install_wipe torn, remapped_wiped_iff,
      remapped_grown_iff less starts rfl]
    · rfl
    · intro index short wiped
      have behind := torn _ wiped
      omega
    · intro address wiped _
      exact .inl (if_neg fun inside => Nat.not_lt.mpr (torn address wiped) inside.2)

/-- The old range is zero or in one readable region, and does not come to lie in the old pages. -/
def KeepsMoved (space : Space) (host : HostMemory) (oldAddr oldSize newSize : UInt64) : Prop :=
  ∀ index, index < oldSize.toNat → ∀ byte,
    (space.map host).Reads (oldAddr.toNat + index) byte →
      (Held space.regions oldAddr oldSize memProtRead ∨ byte = 0) ∧
        ∀ found, chosenPlace space host 0 newSize = some found →
          ¬InPages oldAddr oldSize (found.toNat + index)

theorem Coherent.doMremap_moves (larger : oldSize < newSize) (moves : flags &&& 1 ≠ 0)
    (fits : MremapFits space host oldAddr oldSize newSize flags) :
    ∃ found next after, doMremap space host oldAddr oldSize newSize flags =
        some (found, next, after) ∧ Coherent next after ∧
      (Remapped (space.map host) (next.map after) oldAddr oldSize found newSize ↔
        KeepsMoved space host oldAddr oldSize newSize ∧
        KeepsTails space host oldAddr oldSize oldAddr oldSize) := by
  obtain ⟨noWrap, range⟩ := fits
  have less := lt_iff_toNat_lt.mp larger
  rw [if_neg (UInt64.not_lt.mpr (UInt64.le_of_lt larger)), if_pos larger, if_neg moves] at range
  obtain ⟨oldRange, places, room⟩ := range
  have whole := pageAlignDown_eq aligned
  have free : hasBit (memMapPrivate ||| memMapAnonymous) memMapFixed = false := by decide
  obtain ⟨found, next, middle, chosen, mapped, placed, mode, small, vacant, inserted,
      shows⟩ : ∃ found next middle, chosenPlace space host 0 newSize = some found ∧
      memMmap space host 0 newSize readWrite _ none = some (found, next, middle) ∧ _ :=
    coherent.memMmap_chosen free (by decide) nonzero places room
  have positive := pages_pos nonzero
  have succeeded : found ≠ mapFailed := by
    rintro rfl
    have top : mapFailed.toNat = 2 ^ 64 - 1 := rfl
    omega
  obtain ⟨copied, _, moved, fromHeld, fromNothing⟩ := placed.copyMoved_fresh inserted less
    small vacant (Nat.le_of_lt noWrap) shows
  obtain ⟨last, after, unmapped, still, final⟩ := copied.memMunmap oldRange
  rw [moved, whole, unmap_wipe] at final
  refine ⟨found, last, after, ?_, still, ?_⟩
  · rw [doMremap, if_neg nonzero, if_neg (UInt64.not_le.mpr larger), if_neg moves]
    rw [readWrite] at mapped
    rw [mapped, map_some]
    simp only [if_neg succeeded, unmapped]
  have unmappedThere : ∀ address, InPages found newSize address →
      space.map host address = none := fun address inside =>
    view_eq_none_of_vacant vacant inside.1 inside.2
  obtain ⟨_, regions, _, _, -⟩ := inserted
  have members := mem_of_inserted regions
  rw [final, remapped_wiped_iff, remapped_moved_iff less unmappedThere]
  · refine and_congr ⟨fun keeps index short byte reads => ?_,
      fun keeps index short byte reads => ?_⟩
      ⟨fun zero address torn outside entry seen => ?_,
        fun zero address torn outside entry seen => ?_⟩
    · obtain ⟨same, apart⟩ := keeps index short byte reads
      refine ⟨?_, fun place search => ?_⟩
      · by_cases held : Held space.regions oldAddr oldSize memProtRead
        · exact .inl held
        · exact .inr (same.symm.trans (fromNothing held index short))
      · cases chosen.symm.trans search
        exact apart
    · obtain ⟨same, apart⟩ := keeps index short byte reads
      refine ⟨?_, apart found chosen⟩
      by_cases held : Held space.regions oldAddr oldSize memProtRead
      · exact (fromHeld held index short).trans reads.byteOf_eq
      · exact (fromNothing held index short).trans (same.resolve_left held).symm
    · obtain ⟨native, region, member, rest⟩ := torn
      exact zero address ⟨mode.trans native, region, (members region).mpr (.inr member), rest⟩
        outside entry seen
    · -- the new region shows nothing that was mapped before
      obtain ⟨native, region, member, starts, behind, stops⟩ := torn
      rcases (members region).mp member with rfl | old
      · have inside : InPages found newSize address :=
          ⟨by omega, by omega⟩
        rw [unmappedThere address inside] at seen
        cases seen
      · exact zero address ⟨mode.symm.trans native, region, old, starts, behind, stops⟩ outside
          entry seen
  · intro index short torn entry seen
    have room := toNat_le_pages newSize
    by_cases held : Held space.regions oldAddr oldSize memProtRead
    · -- neither the new region nor an old one goes around the old range and meets the new one
      obtain ⟨region, member, _, _, -⟩ := held
      obtain ⟨-, other, inNext, _, _, _⟩ := torn
      have apart := vacant region member
      rcases (members other).mp inNext with rfl | old
      · omega
      · have clear := vacant other old
        omega
    · rw [unmap_pages] at seen
      split at seen
      · cases seen
      rw [install_pages, if_pos ⟨by omega, by omega⟩, Nat.add_sub_cancel_left] at seen
      cases seen
      exact fromNothing held index (by omega)
  · intro address _ outside
    by_cases inside : InPages found newSize address
    · exact .inr ⟨unmappedThere address inside, inside⟩
    · rw [unmap_pages, if_neg outside, install_pages, if_neg inside]
      exact .inl rfl

end Calls

variable {content : Option (List UInt8)} {answer : UInt64}

section Failures

variable {next : Space} {after : HostMemory} {addr size : UInt64} {prot flags : UInt32}

/-- A mapping comes to its address, or fails and leaves the regions and the bytes as they are. -/
theorem placeMapping_cases
    (placed : placeMapping space host addr size prot flags content = (answer, next, after)) :
    answer = mappedBase space host flags addr ∨
      (answer = mapFailed ∧ next = space ∧ ∀ regions, view after regions = view host regions) := by
  simp only [placeMapping, request] at placed
  split at placed
  · rename_i granted
    obtain ⟨-, rfl⟩ := Prod.mk.inj granted
    cases placed
    exact .inr ⟨rfl, rfl, fun _ => rfl⟩
  rename_i granted
  obtain ⟨-, rfl⟩ := Prod.mk.inj granted
  obtain ⟨buffer, late, -, mapped⟩ := mapBuffer_eq space.aotMode (hasBit flags memMapFixed)
    { host with clock := host.clock + 1 } addr (pageAlignUp size)
  split at mapped
  · rw [mapped] at placed
    exact .inl (Prod.mk.inj placed).1.symm
  rw [mapped] at placed
  cases placed
  exact .inr ⟨rfl, rfl, fun _ => rfl⟩

/-- What a range has covered as a whole is gone, whatever the host grants. -/
theorem view_unmapRange_covered {native : Bool} {region : Region} {finish : UInt64}
    (ordered : Ordered regions) (ends : addr + size = finish)
    (forward : addr.toNat ≤ finish.toNat) (member : region ∈ regions)
    (lower : addr.toNat ≤ region.start) (upper : region.stop ≤ finish.toNat)
    (first : region.start ≤ address) (last : address < region.stop) (after : HostMemory) :
    view after (unmapRange native host regions addr size).1 address = none := by
  subst ends
  rw [unmapRange_eq ordered fun _ => forward]
  refine view_eq_none fun piece inPieces inside => ?_
  obtain ⟨origin, inRegions, earlier, -, made⟩ :=
    exists_of_mem_rebuild (fun _ => True) (fun _ _ => trivial) trivial inPieces
  have tiles : Tiles origin (unmapPieces native addr (addr + size) earlier origin).1 :=
    tiles_unmapPieces (ordered.fits origin inRegions) fun _ => forward
  obtain ⟨_, _⟩ := tiles.within piece made
  obtain rfl := ordered.eq_of_mem member inRegions first last (by omega) (by omega)
  have cut : CutCase native addr (addr + size) earlier region _ :=
    cutRegion_cases (ordered.fits region member)
  rw [unmapPieces] at made
  generalize cutRegion native addr (addr + size) earlier region = result at cut made
  cases cut with
  | apart | around | atEnd | atStart => omega
  | covered => exact absurd made List.not_mem_nil

end Failures

/-- The result of a call is an error. -/
def MremapFails (answer : UInt64) : Prop := answer = 0 - 22 ∨ answer = 0 - 12

theorem not_mremapFails (aligned : 4096 ∣ answer.toNat) : ¬MremapFails answer := by
  rintro (rfl | rfl)
  · exact absurd aligned (by decide)
  · exact absurd aligned (by decide)

/-- Nothing is mapped where a call that must not move maps. -/
def GrowthVacant (space : Space) (oldAddr oldSize newSize flags : UInt64) : Prop :=
  oldSize < newSize → flags &&& 1 = 0 →
    Vacant space.regions (tailStart oldAddr oldSize).toNat
      ((tailStart oldAddr oldSize).toNat + pages (newSize - oldSize))

/-- A region lies in the range that a call which must not move maps over. -/
def LiesInGrowth (region : Region) (oldAddr oldSize newSize : UInt64) : Prop :=
  (tailStart oldAddr oldSize).toNat ≤ region.start ∧
    region.stop ≤ (tailStart oldAddr oldSize).toNat + pages (newSize - oldSize)

variable {next : Space} {after : HostMemory}

/-- A mapping that the space places itself gets an address that is no error, or changes nothing. -/
theorem memMmap_chosen_cases {addr size : UInt64} {prot mapFlags : UInt32}
    (places : PlaceFits space host size) (free : hasBit mapFlags memMapFixed = false)
    (mapped : memMmap space host addr size prot mapFlags content = some (found, next, after)) :
    (¬MremapFails found ∧ found ≠ mapFailed) ∨
      (found = mapFailed ∧ next.map after = space.map host) := by
  rw [memMmap] at mapped
  split at mapped
  · cases mapped
    exact .inr ⟨rfl, rfl⟩
  rename_i nonzero
  rw [free, if_neg Bool.false_ne_true] at mapped
  obtain ⟨⟨_, _⟩, chosen, placed⟩ := map_eq_some_iff.mp mapped
  obtain ⟨_, rfl⟩ := chooseGap_eq_some chosen
  rcases placeMapping_cases placed with rfl | ⟨rfl, rfl, same⟩
  · refine .inl ?_
    rw [mappedBase, free]
    cases native : space.aotMode with
    | false =>
      have whole := dvd_of_chooseGap chosen
      exact ⟨not_mremapFails whole, ne_mapFailed_of_dvd whole⟩
    | true =>
      -- the last page of the address range is left free
      obtain ⟨below, -⟩ := places native
      have positive := pages_pos nonzero
      have whole := dvd_pages size
      have place := toNat_ofNat_nextPlace below
      have low : (ofNat (nextPlace host)).toNat < 2 ^ 64 - 4095 := by omega
      simp only [Bool.not_false, Bool.and_true, if_true]
      refine ⟨?_, fun top => ?_⟩
      · rintro (invalid | full)
        · rw [invalid] at low
          exact absurd low (by decide)
        · rw [full] at low
          exact absurd low (by decide)
      · rw [top] at low
        exact absurd low (by decide)
  · exact .inr ⟨rfl, same _⟩

/-- A call that fails takes away what lies where it would map. -/
theorem doMremap_failed (ordered : Ordered space.regions) (aligned : 4096 ∣ oldAddr.toNat)
    (fits : MremapFits space host oldAddr oldSize newSize flags)
    (returned : doMremap space host oldAddr oldSize newSize flags = some (answer, next, after))
    (failed : MremapFails answer) :
    (GrowthVacant space oldAddr oldSize newSize flags → next.map after = space.map host) ∧
      (newSize ≠ 0 → flags &&& 1 = 0 → ∀ region ∈ space.regions,
        LiesInGrowth region oldAddr oldSize newSize → ∀ address, region.start ≤ address →
          address < region.stop → next.map after address = none) := by
  rw [doMremap] at returned
  split at returned
  · rename_i zero
    cases returned
    exact ⟨fun _ => rfl, fun nonzero => absurd zero nonzero⟩
  split at returned
  · split at returned
    · cases returned
      exact absurd failed (not_mremapFails aligned)
    · cases returned
      exact absurd failed (not_mremapFails aligned)
  rename_i notSmaller
  have larger : oldSize < newSize := UInt64.not_le.mp notSmaller
  obtain ⟨-, range⟩ := fits
  rw [if_neg (UInt64.not_lt.mpr (UInt64.le_of_lt larger)), if_pos larger] at range
  split at returned
  · rename_i stays
    rw [if_pos stays] at range
    have ends : (tailStart oldAddr oldSize + pageAlignUp (newSize - oldSize)).toNat =
        (tailStart oldAddr oldSize).toNat + pages (newSize - oldSize) :=
      toNat_add_pageAlignUp range
    have forward : (tailStart oldAddr oldSize).toNat ≤
        (tailStart oldAddr oldSize + pageAlignUp (newSize - oldSize)).toNat := by omega
    have difference : newSize - oldSize ≠ 0 := sub_ne_zero_of_lt larger
    obtain ⟨⟨_, _, _⟩, mapped, result⟩ := map_eq_some_iff.mp returned
    simp only at result
    have fixed : hasBit (memMapPrivate ||| memMapFixed ||| memMapAnonymous) memMapFixed = true := by
      decide
    obtain ⟨⟨regions, cleared⟩, unmapped⟩ : ∃ pair, unmapRange space.aotMode host space.regions
        (tailStart oldAddr oldSize) (pageAlignUp (newSize - oldSize)) = pair := ⟨_, rfl⟩
    have placed : memMmap space host (oldAddr + oldSize) (newSize - oldSize)
        (memProtRead ||| memProtWrite) (memMapPrivate ||| memMapFixed ||| memMapAnonymous) none =
        some (placeMapping { space with regions } cleared (tailStart oldAddr oldSize)
          (newSize - oldSize) (memProtRead ||| memProtWrite)
          (memMapPrivate ||| memMapFixed ||| memMapAnonymous) none) := by
      rw [memMmap, if_neg difference, if_pos fixed, ← tailStart]
      simp only [unmapped]
    rw [placed, some.injEq] at mapped
    have succeeds : mappedBase { space with regions } cleared
        (memMapPrivate ||| memMapFixed ||| memMapAnonymous) (tailStart oldAddr oldSize) ≠
          mapFailed := by
      rw [mappedBase, fixed, Bool.not_true, Bool.and_false, if_neg Bool.false_ne_true]
      exact ne_mapFailed_of_dvd (dvd_pageAlignDown _)
    rcases placeMapping_cases mapped with rfl | ⟨rfl, rfl, same⟩
    · rw [if_neg succeeds] at result
      cases result
      exact absurd failed (not_mremapFails aligned)
    cases result
    refine ⟨fun vacant => ?_, fun _ _ region member inside address first last => ?_⟩
    · have apart := vacant larger stays
      rw [← ends] at apart
      rw [unmapRange_eq ordered fun _ => forward, rebuild_of_apart ordered.fits apart,
        Prod.mk.injEq] at unmapped
      rw [Space.map, same, ← unmapped.1, ← unmapped.2]
      rfl
    · have gone : view after (unmapRange space.aotMode host space.regions _ _).1 address = none :=
        view_unmapRange_covered ordered rfl forward member inside.1
          (Nat.le_trans inside.2 (Nat.le_of_eq ends.symm)) first last after
      rwa [unmapped] at gone
  · rename_i moves
    refine ⟨fun _ => ?_, fun _ stays => absurd stays moves⟩
    obtain ⟨⟨_, _, _⟩, mapped, result⟩ := map_eq_some_iff.mp returned
    simp only at result
    have free : hasBit (memMapPrivate ||| memMapAnonymous) memMapFixed = false := by decide
    rw [if_neg moves] at range
    rcases memMmap_chosen_cases range.2.1 free mapped with ⟨noError, succeeds⟩ | ⟨rfl, same⟩
    · rw [if_neg succeeds] at result
      cases result
      exact absurd failed noError
    · cases result
      exact same

/-- The condition on a call by the way it takes. -/
def KeepsMapped (space : Space) (host : HostMemory) (oldAddr oldSize newSize flags : UInt64) :
    Prop :=
  if newSize ≤ oldSize then
    newSize < oldSize → KeepsShrunk (space.map host) oldAddr newSize ∧
      KeepsTails space host oldAddr oldSize (tailStart oldAddr newSize) (oldSize - newSize)
  else if flags &&& 1 = 0 then
    KeepsGrown (space.map host) oldAddr oldSize newSize ∧
      KeepsTails space host oldAddr oldSize (tailStart oldAddr oldSize) (newSize - oldSize)
  else
    KeepsMoved space host oldAddr oldSize newSize ∧
      KeepsTails space host oldAddr oldSize oldAddr oldSize

/-- A call keeps the contract exactly if no byte to be kept is cut off, met or zeroed. -/
theorem mremap_contract_iff (laid : Laid space host) (aligned : 4096 ∣ oldAddr.toNat)
    (fits : MremapFits space host oldAddr oldSize newSize flags) :
    (host.Generous → newSize ≠ 0 → ∃ answer next after,
      doMremap space host oldAddr oldSize newSize flags = some (answer, next, after) ∧
      Coherent next after ∧
      (Remapped (space.map host) (next.map after) oldAddr oldSize answer newSize ↔
        KeepsMapped space host oldAddr oldSize newSize flags)) ∧
    ∀ answer next after,
      doMremap space host oldAddr oldSize newSize flags = some (answer, next, after) →
      MremapFails answer →
      (GrowthVacant space oldAddr oldSize newSize flags → next.map after = space.map host) ∧
      (newSize ≠ 0 → flags &&& 1 = 0 → ∀ region ∈ space.regions,
        LiesInGrowth region oldAddr oldSize newSize → ∀ address, region.start ≤ address →
          address < region.stop → next.map after address = none) := by
  refine ⟨fun generous nonzero => ?_, fun answer next after returned failed =>
    doMremap_failed laid.ordered aligned fits returned failed⟩
  have coherent := laid.coherent generous
  rw [KeepsMapped]
  split
  · rename_i notLarger
    by_cases smaller : newSize < oldSize
    · obtain ⟨next, after, returned, still, iff⟩ :=
        coherent.doMremap_shrinks aligned nonzero smaller fits
      refine ⟨oldAddr, next, after, returned, still, iff.trans ?_⟩
      exact ⟨fun keeps _ => keeps, fun keeps => keeps smaller⟩
    · obtain rfl := UInt64.le_antisymm notLarger (UInt64.not_lt.mp smaller)
      refine ⟨oldAddr, space, host, ?_, coherent, iff_of_true (.refl _ _ _) fun less =>
        absurd less smaller⟩
      rw [doMremap, if_neg nonzero, if_pos notLarger, if_neg smaller]
  · rename_i notSmaller
    have larger : oldSize < newSize := UInt64.not_le.mp notSmaller
    split
    · rename_i stays
      obtain ⟨next, after, returned, still, iff⟩ :=
        coherent.doMremap_grows aligned nonzero larger stays fits
      exact ⟨oldAddr, next, after, returned, still, iff⟩
    · rename_i moves
      exact coherent.doMremap_moves aligned nonzero larger moves fits

/-- An interpreted space with one region for each base and size. -/
def blocksSpace (extents : List (UInt64 × UInt64 × UInt32)) : Space :=
  { memSpaceCreate with
    regions := (extents.zipIdx).map fun (extent, id) =>
      { base := extent.1, size := extent.2.1, prot := extent.2.2, flags := 0x22
        host := .block id 0 } }

/-- A host with some blocks full of sevens that refuses everything from some request on. -/
def sevensHost (blocks refusesFrom : Nat) : HostMemory :=
  { plainHost with
    block := fun id => if id < blocks then some { size := 0x3000, byte := fun _ => 7 } else none
    clock := blocks
    grants := fun request => request < refusesFrom }

/-- A cut at the border of a page keeps the first page. -/
theorem mremap_contract_sample :
    ∃ answer next after,
      doMremap (blocksSpace [(0x10000, 0x3000, 3)]) { sevensHost 1 0 with grants := fun _ => true }
        0x10000 0x3000 0x1000 0 = some (answer, next, after) ∧
      Remapped ((blocksSpace [(0x10000, 0x3000, 3)]).map
        { sevensHost 1 0 with grants := fun _ => true }) (next.map after) 0x10000 0x3000 answer
        0x1000 := by
  have wellFormed : WellFormed (blocksSpace [(0x10000, 0x3000, 3)]).regions :=
    ⟨.singleton ⟨by decide, by decide⟩, List.forall_mem_singleton.2 ⟨by decide, by decide⟩⟩
  have owned : Owned { sevensHost 1 0 with grants := fun _ => true }
      (blocksSpace [(0x10000, 0x3000, 3)]).regions :=
    ⟨List.forall_mem_singleton.2 ⟨by decide, 0, _, rfl, by decide, rfl, by decide⟩,
      List.nodup_singleton _⟩
  have fits : MremapFits (blocksSpace [(0x10000, 0x3000, 3)])
      { sevensHost 1 0 with grants := fun _ => true } 0x10000 0x3000 0x1000 0 := by
    refine ⟨by decide, ?_⟩
    rw [if_pos (by decide)]
    show (_ : Nat) < _
    decide
  obtain ⟨answer, next, after, returned, -, contract⟩ := (mremap_contract_iff
    (.interpreted rfl wellFormed owned) (by decide) fits).1 (fun _ => rfl) (by decide)
  refine ⟨answer, next, after, returned, contract.mpr ?_⟩
  rw [KeepsMapped, if_pos (by decide)]
  intro _
  refine ⟨fun index first last => absurd last (Nat.not_lt.mpr first), ?_⟩
  rintro address ⟨native, -⟩
  exact absurd native Bool.false_ne_true

/-- A native space with a region of four pages. -/
def pagesSpace : Space :=
  { memSpaceCreate with
    aotMode := true
    regions := [{ base := 0x10000, size := 0x4000, prot := 3, flags := 0x22
                  host := .direct 0x10000 }] }

/-- The five ways in which the contract is broken. -/
theorem mremap_breaks_contract :
    (doMremap (blocksSpace [(0x10000, 0x3000, 3)]) (sevensHost 1 9) 0x10000 0x3000 0x1001 0).map
        (fun result => (result.1, result.2.1.map result.2.2 0x11000)) = some (0x10000, none) ∧
    (doMremap (blocksSpace [(0x10000, 0x1000, 3), (0x11000, 0x1000, 3)]) (sevensHost 2 9)
        0x10000 0x1000 0x2000 0).map
        (fun result => (result.1, result.2.1.map result.2.2 0x11000)) =
      some (0x10000, some (3, 0)) ∧
    (doMremap (blocksSpace [(0x10000, 0x1000, 3), (0x11000, 0x1000, 1)]) (sevensHost 2 9)
        0x10000 0x2000 0x3000 1).map
        (fun result => (result.1, result.2.1.map result.2.2 0x7F0000000000)) =
      some (0x7F0000000000, some (3, 0)) ∧
    (doMremap (blocksSpace [(0x10000, 0x1000, 3), (0x11000, 0x1000, 3)]) (sevensHost 2 0)
        0x10000 0x1000 0x2000 0).map
        (fun result => (result.1, result.2.1.map result.2.2 0x11000)) =
      some (0 - 12, none) ∧
    (doMremap pagesSpace { sevensHost 0 9 with page := fun _ => some 7 } 0x10000 0x2000 0x1000
        0).map (fun result => (result.1, result.2.1.map result.2.2 0x12000)) =
      some (0x10000, some (3, 0)) := by
  refine ⟨by decide +kernel, by decide +kernel, by decide +kernel, by decide +kernel, ?_⟩
  decide +kernel

end AlpineOnIOS.AddressSpace
