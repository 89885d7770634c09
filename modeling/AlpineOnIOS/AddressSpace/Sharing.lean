import AlpineOnIOS.AddressSpace.Holding
import AlpineOnIOS.AddressSpace.Placement

/-!
# Spaces that share host memory

A clone has the regions of its parent as external ones, on the same buffers. A ledger, which is no
part of the program, says which space has obtained which memory, and every allowed step is
permitted by it.
-/

namespace AlpineOnIOS.AddressSpace

open Foundation Foundation.HostMemory List Bool Region

/-- Spaces by number, the host, and the memory that the spaces have obtained from it. -/
structure System where
  ids : List Nat
  space : Nat → Space
  host : HostMemory
  ledger : Ledger

/-- A call for a space. -/
inductive SpaceCall where
  | create (native : Bool)
  | mmap (addr size : UInt64) (prot flags : UInt32) (content : Option (List UInt8))
  | mmapHost (addr size : UInt64) (prot : UInt32) (buffer : Pointer) (flags : UInt32)
  | munmap (addr size : UInt64)
  | mprotect (addr size : UInt64) (prot : UInt32)
  | brk (addr : UInt64)
  | clone (target : Nat)
  | ref
  | destroy

/-- How a buffer that a caller provides is released. -/
def bufferSource (native : Bool) (flags : UInt32) : MemorySource :=
  if hasBit flags memMapExternal then .lent
  else if hasBit flags memMapCalloc then .allocator
  else if native then .pages
  else .allocator

namespace System

def start (host : HostMemory) : System :=
  { ids := [], space := fun _ => memSpaceCreate, host, ledger := [] }

variable (system : System)

/-- The host at the beginning of a call, which records the calls to it anew. -/
def quiet : HostMemory := { system.host with calls := [] }

variable (id : Nat) (space : Space)

/-- The system after a space has made its calls to the host. -/
def become (host : HostMemory) : System :=
  { system with
    space := Function.update system.space id space
    host
    ledger := system.ledger.recordAll id host.calls }

/-- The memory of the newest mapping is registered as external. -/
def lendNewest : System :=
  match system.ledger with
  | [] => system
  | newest :: _ => { system with ledger := system.ledger.lend id newest.extent.start }

/-- A buffer that a caller provides. -/
def provide (flags : UInt32) (extent : Extent) : System :=
  { system with
    ledger := ⟨id, bufferSource (system.space id).aotMode flags, extent⟩ :: system.ledger }

def call : SpaceCall → Option System
  | .create _ => none
  | .mmap addr size prot flags content =>
    (memMmap space system.quiet addr size prot flags content).map fun (ret, space, host) =>
      if ret ≠ mapFailed ∧ hasBit flags memMapExternal then
        (system.become id space host).lendNewest id
      else system.become id space host
  | .mmapHost addr size prot buffer flags =>
    (memMmapHost space system.quiet addr size prot buffer flags).map fun (ret, space, host) =>
      if ret = mapFailed then system.become id space host
      else (system.become id space host).provide id flags ⟨buffer, (pageAlignUp size).toNat⟩
  | .munmap addr size =>
    let (space, host) := memMunmap space system.quiet addr size
    some (system.become id space host)
  | .mprotect addr size prot =>
    let (space, host) := memMprotect space system.quiet addr size prot
    some (system.become id space host)
  | .brk addr =>
    let (_, space, host) := memBrk space system.quiet addr
    some (system.become id space host)
  | .clone target =>
    if target ∈ system.ids then none
    else
      match memSpaceClone space system.quiet with
      | (none, host) =>
        some { system with host, ledger := system.ledger.recordAll target host.calls }
      | (some dst, host) =>
        some { system.become target dst host with ids := target :: system.ids }
  | .ref => some (system.become id (memSpaceRef space) system.quiet)
  | .destroy =>
    match memSpaceDestroy space system.quiet with
    | (some space, host) => some (system.become id space host)
    | (none, host) => some { system.become id space host with ids := system.ids.erase id }

def step : Nat × SpaceCall → Option System
  | (id, .create native) =>
    if id ∈ system.ids then none
    else
      some { system.become id { memSpaceCreate with aotMode := native } system.quiet with
        ids := id :: system.ids }
  | (id, call) => if id ∈ system.ids then system.call id (system.space id) call else none

/-- The space that makes the calls to the host. -/
def actor : Nat × SpaceCall → Nat
  | (_, .clone target) => target
  | (id, _) => id

/-- The regions of a space as holders. -/
def holdersOf : List Holder :=
  (system.space id).regions.map (Region.holder id (system.space id).aotMode)

def holders : List Holder := system.ids.flatMap system.holdersOf

/-- The regions of all spaces but one. -/
def others : List Holder :=
  (system.ids.erase id).flatMap system.holdersOf

/-- All calls of a step are permitted, and every region lies in memory that is not released. -/
def Law (event : Nat × SpaceCall) : Prop :=
  ∀ next, system.step event = some next →
    system.ledger.PermitsAll (actor event) next.host.calls ∧
      ∀ id ∈ next.ids, ∀ region ∈ (next.space id).regions,
        ∃ allocation ∈ next.ledger, region.extent.Within allocation.extent

/-- Distinct spaces, and a tidy ledger for all of their regions. -/
structure Neat (system : System) : Prop where
  distinct : system.ids.Nodup
  tidy : Tidy (0, 0) system.ledger system.host.clock system.holders

variable {system id space} {host : HostMemory}

theorem perm_holders (member : id ∈ system.ids) :
    system.holders.Perm (system.holdersOf id ++ system.others id) :=
  (List.perm_cons_erase member).flatMap_right system.holdersOf

theorem others_become (distinct : system.ids.Nodup) (space : Space) (host : HostMemory) :
    (system.become id space host).others id = system.others id := by
  refine List.flatMap_congr fun other member => ?_
  have different : other ≠ id := (distinct.mem_erase_iff.mp member).1
  simp only [holdersOf, become, Function.update_of_ne different]

theorem holdersOf_become (space : Space) (host : HostMemory) :
    (system.become id space host).holdersOf id =
      space.regions.map (Region.holder id space.aotMode) := by
  simp [holdersOf, become]

theorem Neat.backed (neat : Neat system) :
    ∀ id ∈ system.ids, ∀ region ∈ (system.space id).regions,
      ∃ allocation ∈ system.ledger, region.extent.Within allocation.extent := by
  intro id member region inRegions
  exact neat.tidy.backed (region.holder id (system.space id).aotMode)
    (List.mem_flatMap.mpr ⟨id, member, List.mem_map_of_mem inRegions⟩)

theorem Neat.session (neat : Neat system) (member : id ∈ system.ids) {zone : Nat × Nat}
    (clear : ∀ allocation ∈ system.ledger, allocation.extent.Apart (.ofPages zone)) :
    Session zone id system.ledger system.quiet
      ((system.space id).regions.map (Region.holder id (system.space id).aotMode) ++
        system.others id) :=
  ⟨trivial, { neat.tidy.perm (perm_holders member) with clear }⟩

theorem Neat.become (neat : Neat system) (member : id ∈ system.ids) {ledger : Ledger}
    (tidy : Tidy (0, 0) ledger host.clock
      (space.regions.map (Region.holder id space.aotMode) ++ system.others id)) :
    Neat { system.become id space host with ledger } := by
  refine ⟨neat.distinct, tidy.perm ?_⟩
  have split : (system.become id space host).holders.Perm _ := perm_holders member
  rw [holdersOf_become, others_become neat.distinct] at split
  exact split.symm

end System

variable {host : HostMemory} {space : Space} {flags : UInt32} {content : Option (List UInt8)}
  {buffer : Pointer} {zone : Nat × Nat} {owner : Nat} {ledger : Ledger} {after : HostMemory}
  {rest : List Holder} {next : Space} {addr size ret : UInt64} {prot : UInt32} {native : Bool}
  {regions : List Region} {region : Region}

theorem session_regionInsert
    (session : Session zone owner ledger host
      (region.holder owner native :: (regions.map (holder owner native) ++ rest))) :
    Session zone owner ledger host
      ((regionInsert region regions).map (holder owner native) ++ rest) :=
  session.perm (((regionInsert_perm region regions).symm.map _).append_right rest)

theorem giveBack_of_release {call : HostCall}
    (plain : native = true → hasBit region.flags memMapCalloc = false)
    (gives : (region.holder owner native).release = some call) :
    call = if native then .unmap region.host region.size.toNat else .free region.host := by
  simp only [holder] at gives
  split at gives
  · cases gives
  cases gives
  cases native with
  | true => simp [giveBack, plain rfl]
  | false => simp

variable {fixed : Bool} {alignedSize found : UInt64}

theorem session_mapBuffer {holders : List Holder} (session : Session zone owner ledger host holders)
    (zoned : native = true → fixed = true → zone = (addr.toNat, alignedSize.toNat))
    (chosen : native = true → fixed = false → ∀ allocation ∈ ledger.recordAll owner host.calls,
      allocation.extent.Apart (.ofPages (host.place host.clock, alignedSize.toNat)))
    (positive : native = true → 0 < alignedSize.toNat)
    (mapped : mapBuffer native fixed host addr alignedSize = (some (found, buffer), after))
    (plain : native = true → hasBit region.flags memMapCalloc = false)
    (sized : region.size = alignedSize) (buffered : region.host = buffer) :
    Session (0, 0) owner ledger after (region.holder owner native :: holders) ∧
      ∃ newest older, ledger.recordAll owner after.calls = newest :: older ∧
        newest.extent.start = buffer := by
  have releases : ∀ call, (region.holder owner native).release = some call → _ :=
    fun call gives => giveBack_of_release plain gives
  rw [mapBuffer] at mapped
  cases native with
  | false =>
    simp only [Bool.false_and, Bool.false_eq_true, if_false] at mapped releases
    split at mapped
    · cases mapped
    rename_i called
    cases mapped
    exact ⟨session.forget.calloc called rfl buffered (buffered ▸ releases), _, _,
      by rw [(calloc_eq_some called).2.1]; rfl, rfl⟩
  | true =>
    cases fixed with
    | false =>
      simp only [Bool.not_false, Bool.and_self, if_true] at mapped releases
      split at mapped
      · cases mapped
      rename_i called
      cases mapped
      rw [buffered, sized] at releases
      obtain ⟨rfl, calls, clock⟩ := mapAny_eq_some called
      refine ⟨session.mapPages calls clock (.inl rfl) (chosen rfl rfl) rfl ?_ (positive rfl)
        releases, _, _, by rw [calls]; rfl, rfl⟩
      rw [holder, extent, buffered, sized, Extent.ofPages]
    | true =>
      simp only [Bool.not_true, Bool.and_false, Bool.false_eq_true, if_false, if_true]
        at mapped releases
      split at mapped
      · cases mapped
      rename_i called
      cases mapped
      rw [buffered, sized] at releases
      rw [zoned rfl rfl] at session
      obtain ⟨calls, clock⟩ := mapFixed_eq_true called
      refine ⟨session.mapPages calls clock (.inr rfl) session.tidy.clear rfl ?_ (positive rfl)
        releases, _, _, by rw [calls]; rfl, rfl⟩
      rw [holder, extent, buffered, sized, Extent.ofPages]

theorem calls_readContent (host : HostMemory) (buffer : Pointer) (size alignedSize : UInt64)
    (flags : UInt32) (content : Option (List UInt8)) :
    (readContent host buffer size alignedSize flags content).calls = host.calls ∧
      (readContent host buffer size alignedSize flags content).clock = host.clock := by
  cases content with
  | none => exact ⟨rfl, rfl⟩
  | some =>
    rw [readContent]
    split
    · exact ⟨rfl, rfl⟩
    · exact calls_store _ _ _ _

/-- A mapping leaves a session of the same mode, with external memory at the head of the ledger. -/
structure Mapped (owner : Nat) (ledger : Ledger) (rest : List Holder) (space : Space)
    (flags : UInt32) (ret : UInt64) (next : Space) (after : HostMemory) : Prop where
  mode : next.aotMode = space.aotMode
  session : Session (0, 0) owner ledger after
    (next.regions.map (Region.holder owner next.aotMode) ++ rest)
  lends : ret ≠ mapFailed → hasBit flags memMapExternal = true →
    ∃ newest older, ledger.recordAll owner after.calls = newest :: older ∧
      Tidy (0, 0) (Ledger.lend owner newest.extent.start (newest :: older)) after.clock
        (next.regions.map (Region.holder owner next.aotMode) ++ rest)

theorem mapped_placeMapping
    (session : Session zone owner ledger host
      (space.regions.map (holder owner space.aotMode) ++ rest))
    (zoned : space.aotMode = true → hasBit flags memMapFixed = true →
      zone = (addr.toNat, (pageAlignUp size).toNat))
    (chosen : space.aotMode = true → hasBit flags memMapFixed = false →
      ∀ allocation ∈ ledger.recordAll owner host.calls,
        allocation.extent.Apart (.ofPages (host.place (host.clock + 1), (pageAlignUp size).toNat)))
    (plain : space.aotMode = true →
      hasBit flags memMapCalloc = false ∧ 0 < (pageAlignUp size).toNat)
    (placed : placeMapping space host addr size prot flags content = (ret, next, after)) :
    Mapped owner ledger rest space flags ret next after := by
  have asked : Session zone owner ledger host.asked _ := session.congr rfl (Nat.le_succ _)
  rw [placeMapping] at placed
  cases granted : host.grants host.clock with
  | false =>
    simp only [request, granted] at placed
    cases placed
    exact ⟨rfl, asked.forget, fun succeeded => absurd rfl succeeded⟩
  | true =>
    simp only [request, granted] at placed
    split at placed
    · rename_i mapped
      cases placed
      obtain ⟨_, _, -, outcome⟩ := mapBuffer_eq space.aotMode (hasBit flags memMapFixed) host.asked
        addr (pageAlignUp size)
      split at outcome
      · cases mapped.symm.trans outcome
      cases mapped.symm.trans outcome
      have again : Session zone owner ledger host.asked.asked _ := asked.congr rfl (Nat.le_succ _)
      exact ⟨rfl, again.forget, fun succeeded => absurd rfl succeeded⟩
    rename_i buffer middle mapped
    cases placed
    let region : Region := ⟨ret, pageAlignUp size, prot, flags, buffer⟩
    obtain ⟨made, newest, older, head, start⟩ :
        Session (0, 0) owner ledger middle (region.holder owner space.aotMode :: _) ∧ _ :=
      session_mapBuffer asked zoned chosen (fun native => (plain native).2) mapped
        (fun native => (plain native).1) rfl rfl
    obtain ⟨calls, clock⟩ :=
      calls_readContent middle buffer size (pageAlignUp size) flags content
    refine ⟨rfl, (session_regionInsert made).congr calls clock.ge, fun _ external => ?_⟩
    rw [calls, clock]
    have keeps : (region.holder owner space.aotMode).release = none := if_pos external
    have lent := made.tidy.lend keeps
    refine ⟨newest, older, head, ?_⟩
    rw [start, ← head]
    exact lent.perm (((regionInsert_perm region space.regions).symm.map _).append_right rest)

/-- Where the pages of a mapping in native mode come to lie. -/
def mapPlace (host : HostMemory) (addr : UInt64) (flags : UInt32) : Nat :=
  if hasBit flags memMapFixed then (pageAlignDown addr).toNat else host.place (host.clock + 1)

/-- A fixed mapping replaces what may be touched, native pages lie outside the ledger. -/
def Space.MayMap (space : Space) (owner : Nat) (ledger : Ledger) (rest : List Holder)
    (host : HostMemory) (addr size : UInt64) (flags : UInt32) : Prop :=
  size ≠ 0 →
    (hasBit flags memMapFixed = true → ∀ region ∈ space.regions,
      region.Touchable owner space.aotMode (pageAlignDown addr)
        (pageAlignDown addr + pageAlignUp size) rest) ∧
    (space.aotMode = true → hasBit flags memMapCalloc = false ∧ 0 < (pageAlignUp size).toNat ∧
      ∀ allocation ∈ ledger,
        allocation.extent.Apart (.ofPages (mapPlace host addr flags, (pageAlignUp size).toNat)))

theorem mapped_memMmap
    (begins : ∀ zone, (∀ allocation ∈ ledger, allocation.extent.Apart (.ofPages zone)) →
      Session zone owner ledger host (space.regions.map (holder owner space.aotMode) ++ rest))
    (quiet : host.calls = []) (may : space.MayMap owner ledger rest host addr size flags)
    (mapped : memMmap space host addr size prot flags content = some (ret, next, after)) :
    Mapped owner ledger rest space flags ret next after := by
  have session := begins (0, 0) fun allocation _ => allocation.extent.apart_ofPages_empty
  rw [memMmap] at mapped
  split at mapped
  · cases mapped
    exact ⟨rfl, session, fun succeeded => absurd rfl succeeded⟩
  rename_i positive
  obtain ⟨touchable, pages⟩ := may positive
  have plain : space.aotMode = true →
      hasBit flags memMapCalloc = false ∧ 0 < (pageAlignUp size).toNat :=
    fun native => ⟨(pages native).1, (pages native).2.1⟩
  split at mapped
  · rename_i fixed
    -- the range of the mapping is free in native mode, before and after the release of regions
    have zoned : ∃ zone, (space.aotMode = true →
          zone = ((pageAlignDown addr).toNat, (pageAlignUp size).toNat)) ∧
        ∀ allocation ∈ ledger, allocation.extent.Apart (.ofPages zone) := by
      cases native : space.aotMode with
      | false =>
        exact ⟨(0, 0), fun native => absurd native false_ne_true,
          fun allocation _ => allocation.extent.apart_ofPages_empty⟩
      | true =>
        have clear := (pages native).2.2
        rw [mapPlace, if_pos fixed] at clear
        exact ⟨_, fun _ => rfl, clear⟩
    obtain ⟨zone, isRange, clear⟩ := zoned
    have unmapped := session_unmapRange (begins zone clear) (touchable fixed)
    let emptied : Space :=
      { space with
        regions := (unmapRange space.aotMode host space.regions (pageAlignDown addr)
          (pageAlignUp size)).1 }
    have placed : Mapped owner ledger rest emptied flags ret next after :=
      mapped_placeMapping unmapped (fun native _ => isRange native)
        (fun _ free => absurd fixed (ne_true_of_eq_false free)) plain (Option.some.inj mapped)
    exact ⟨placed.mode, placed.session, placed.lends⟩
  · rename_i free
    obtain ⟨⟨_, _⟩, chosen, placed⟩ := Option.map_eq_some_iff.1 mapped
    obtain ⟨hint, rfl⟩ := chooseGap_eq_some chosen
    have clear : space.aotMode = true → ∀ allocation ∈ ledger.recordAll owner host.calls,
        allocation.extent.Apart
          (.ofPages (host.place (host.clock + 1), (pageAlignUp size).toNat)) := by
      intro native
      have clear := (pages native).2.2
      rw [quiet]
      rwa [mapPlace, if_neg free] at clear
    have outcome : Mapped owner ledger rest { space with mmapNext := hint } flags ret next after :=
      mapped_placeMapping session (fun _ fixed => absurd fixed free)
        (fun native _ => clear native) plain placed
    exact ⟨outcome.mode, outcome.session, outcome.lends⟩

/-- A buffer that a caller may hand to `mem_mmap_host`: it is not in the ledger yet. -/
def Space.MayRegister (space : Space) (owner : Nat) (ledger : Ledger) (host : HostMemory)
    (size : UInt64) (buffer : Pointer) (flags : UInt32) : Prop :=
  size ≠ 0 → 0 < (pageAlignUp size).toNat ∧
    Allocation.Known host.clock
      ⟨owner, bufferSource space.aotMode flags, ⟨buffer, (pageAlignUp size).toNat⟩⟩ ∧
    ∀ allocation ∈ ledger, allocation.extent.Apart ⟨buffer, (pageAlignUp size).toNat⟩

theorem permits_provided {call : HostCall} (flagged : region.flags = memMapPrivate ||| flags)
    (gives : (region.holder owner native).release = some call) :
    call.Releases region.extent ∧
      Ledger.Permits owner (⟨owner, bufferSource native flags, region.extent⟩ :: ledger) call := by
  have external : region.external = hasBit flags memMapExternal := by
    rw [external, flagged, hasBit_or]
    rfl
  have calloc : hasBit region.flags memMapCalloc = hasBit flags memMapCalloc := by
    rw [flagged, hasBit_or]
    rfl
  simp only [holder, external] at gives
  split at gives
  · cases gives
  rename_i mine
  cases gives
  rw [bufferSource, if_neg mine, giveBack, calloc]
  split
  · exact ⟨.inl rfl, _, mem_cons_self⟩
  split
  · exact ⟨.inr rfl, mem_cons_self⟩
  · exact ⟨.inl rfl, _, mem_cons_self⟩

theorem registered_memMmapHost
    (session : Session (0, 0) owner ledger host
      (space.regions.map (holder owner space.aotMode) ++ rest))
    (quiet : host.calls = []) (may : space.MayRegister owner ledger host size buffer flags)
    (mapped : memMmapHost space host addr size prot buffer flags = some (ret, next, after)) :
    next.aotMode = space.aotMode ∧ after.calls = [] ∧
      Tidy (0, 0)
        (if ret = mapFailed then ledger
          else
            ⟨owner, bufferSource space.aotMode flags, ⟨buffer, (pageAlignUp size).toNat⟩⟩ :: ledger)
        after.clock (next.regions.map (holder owner next.aotMode) ++ rest) := by
  have tidy : Tidy (0, 0) ledger host.clock _ := quiet ▸ session.tidy
  rw [memMmapHost] at mapped
  split at mapped
  · cases mapped
    exact ⟨rfl, quiet, tidy⟩
  rename_i nonzero
  obtain ⟨positive, known, apart⟩ := may nonzero
  obtain ⟨⟨_, _⟩, chosen, placed⟩ := Option.map_eq_some_iff.1 mapped
  have succeeds := ne_mapFailed_of_chooseGap chosen
  obtain ⟨_, rfl⟩ := chooseGap_eq_some chosen
  cases granted : host.grants host.clock with
  | false =>
    simp only [request, granted] at placed
    cases placed
    exact ⟨rfl, quiet, tidy.advance (Nat.le_succ _)⟩
  | true =>
    simp only [request, granted] at placed
    cases placed
    rw [if_neg succeeds]
    let region : Region := ⟨ret, pageAlignUp size, prot, memMapPrivate ||| flags, buffer⟩
    have added : Tidy (0, 0) _ (host.clock + 1) (region.holder owner space.aotMode :: _) :=
      tidy.add (Nat.le_succ _) (known.mono (Nat.le_succ _)) (Extent.apart_ofPages_empty _)
        apart (.refl _) (Extent.contains_start positive buffer)
        fun call gives => permits_provided rfl gives
    exact ⟨rfl, quiet,
      added.perm (((regionInsert_perm region space.regions).symm.map _).append_right rest)⟩

/-- `mem_brk` enlarges a buffer of its own that is loose, and takes away what may be touched. -/
def Space.MayMoveBreak (space : Space) (owner : Nat) (rest : List Holder) (addr : UInt64) : Prop :=
  addr ≠ 0 → addr ≥ space.brkBase →
    (pageAlignUp addr > space.brkCurrent → space.aotMode = false →
      ∀ region, space.regions.find? (endsAtBreak space) = some region →
        region.external = false ∧ region.Loose owner rest) ∧
    (pageAlignUp addr ≤ space.brkCurrent → ∀ region ∈ space.regions,
      region.Touchable owner space.aotMode (pageAlignUp addr)
        (pageAlignUp addr + (pageAlignUp space.brkCurrent - pageAlignUp addr)) rest)

section

variable (session : Session zone owner ledger host (space.regions.map (holder owner space.aotMode) ++ rest))

include session

theorem session_growHeap {newBrk : UInt64}
    (mine : space.aotMode = false →
      ∀ region, space.regions.find? (endsAtBreak space) = some region →
        region.external = false ∧ region.Loose owner rest) :
    Session zone owner ledger (growHeap space host newBrk).2
      (((growHeap space host newBrk).1.getD space.regions).map
        (holder owner space.aotMode) ++ rest) := by
  rw [growHeap]
  split
  · rename_i region search
    split
    · rename_i interpreted
      rw [not_eq_true'] at interpreted
      obtain ⟨own, loose⟩ := mine interpreted region search
      obtain ⟨meets, front, back, divided, before⟩ := find?_eq_some_iff_append.mp search
      have asked : Session zone owner ledger host.asked _ := session.congr rfl (Nat.le_succ _)
      split
      · rename_i called
        exact realloc_eq_none called ▸ asked
      rename_i buffer middle called
      rw [interpreted] at session ⊢
      rw [divided] at session ⊢
      have here := session.perm (perm_here front back region)
      have releases : (region.holder owner false).release = some (.free region.host) := by
        simp [holder, own]
      let grow := newBrk - pageAlignUp space.brkCurrent
      let larger : Region := { region with host := buffer, size := region.size + grow }
      have grown : Session zone owner ledger middle (larger.holder owner false :: _) :=
        here.realloc called rfl releases (loose.append false (front ++ back)) rfl rfl
          fun call => giveBack_of_release fun native => absurd native false_ne_true
      have stored := calls_store middle (buffer.add region.size.toNat) grow.toNat fun _ => 0
      simp only [Option.getD_some]
      rw [replaceFirst_append (fun other inFront => by simpa using before other inFront) meets]
      exact (grown.congr stored.1 stored.2.ge).perm (perm_here front back larger).symm
    · split
      · exact session
      · exact session
  · split
    · rename_i refused
      exact session_request session refused
    rename_i granted
    have asked := session_request session granted
    split
    · exact asked
    rename_i interpreted
    rw [not_eq_true] at interpreted
    simp only
    split
    · rename_i called
      exact calloc_eq_none called ▸ asked.congr rfl (Nat.le_succ _)
    rename_i called
    rw [interpreted] at asked ⊢
    exact session_regionInsert
      (asked.calloc called rfl rfl fun call =>
        giveBack_of_release fun native => absurd native false_ne_true)

theorem session_memBrk
    (may : space.MayMoveBreak owner rest addr)
    (moved : memBrk space host addr = (ret, next, after)) :
    next.aotMode = space.aotMode ∧
      Session zone owner ledger after (next.regions.map (holder owner next.aotMode) ++ rest) := by
  rw [memBrk] at moved
  split at moved
  · cases moved
    exact ⟨rfl, session⟩
  rename_i nonzero
  split at moved
  · cases moved
    exact ⟨rfl, session⟩
  rename_i above
  obtain ⟨grows, shrinks⟩ := may nonzero (UInt64.not_lt.mp above)
  simp only at moved
  split at moved
  · rename_i larger
    split at moved
    · have grown : Session zone owner ledger (growHeap space host (pageAlignUp addr)).2 _ :=
        session_growHeap session (grows larger)
      split at moved
      · rename_i failed
        rw [failed] at grown
        cases moved
        exact ⟨rfl, grown⟩
      · rename_i succeeded
        rw [succeeded] at grown
        cases moved
        exact ⟨rfl, grown⟩
    · cases moved
      exact ⟨rfl, session⟩
  · rename_i smaller
    split at moved
    · cases moved
      exact ⟨rfl, session_unmapRange session (shrinks (UInt64.not_lt.mp smaller))⟩
    · cases moved
      exact ⟨rfl, session⟩

end

theorem session_foldl_regionFreeHost
    (session : Session zone owner ledger host (regions.map (holder owner native) ++ rest))
    (loose : ∀ region ∈ regions, region.external = false → region.Loose owner rest) :
    Session zone owner ledger (regions.foldl (regionFreeHost native) host) rest := by
  induction regions generalizing host with
  | nil => exact session
  | cons region regions induction =>
    rw [forall_mem_cons] at loose
    have freed := session_regionFreeHost session fun mine => (loose.1 mine).append native regions
    exact induction freed loose.2

/-- A region of a clone. -/
def Region.lentCopy (region : Region) : Region :=
  { region with flags := region.flags ||| memMapExternal }

theorem external_lentCopy (region : Region) : region.lentCopy.external = true := by
  rw [external, lentCopy, hasBit_or, or_eq_true]
  exact .inr (by decide)

theorem foldl_regionFreeHost_external (external : ∀ region ∈ regions, region.external = true) :
    regions.foldl (regionFreeHost native) host = host := by
  induction regions with
  | nil => rfl
  | cons region regions induction =>
    rw [forall_mem_cons] at external
    rw [foldl_cons, regionFreeHost, if_pos external.1, induction external.2]

theorem cloneRegions_eq {copies : List Region} {finished : Bool}
    (cloned : cloneRegions host regions = (finished, copies, after)) :
    after.calls = host.calls ∧ host.clock ≤ after.clock ∧
      (∀ region ∈ copies, region.external = true) ∧
      (finished = true → copies = regions.map lentCopy) := by
  induction regions generalizing host finished copies with
  | nil =>
    cases cloned
    exact ⟨rfl, Nat.le_refl _, fun _ absent => absurd absent not_mem_nil, fun _ => rfl⟩
  | cons region regions induction =>
    rw [cloneRegions] at cloned
    split at cloned
    · rename_i asked
      obtain ⟨-, rfl⟩ := Prod.mk.inj asked
      cases cloned
      exact ⟨rfl, Nat.le_succ _, fun _ absent => absurd absent not_mem_nil, nofun⟩
    rename_i asked
    obtain ⟨-, rfl⟩ := Prod.mk.inj asked
    generalize result : cloneRegions _ regions = rest at cloned
    obtain ⟨done, _, _⟩ := rest
    cases cloned
    obtain ⟨calls, clock, external, complete⟩ := induction result
    refine ⟨calls, (Nat.le_succ _).trans clock,
      forall_mem_cons.mpr ⟨external_lentCopy region, external⟩, fun done => ?_⟩
    rw [complete done]
    rfl

/-- `mem_space_clone` makes no call that is recorded, also where it fails in the middle. -/
theorem memSpaceClone_eq {clone : Option Space}
    (cloned : memSpaceClone space host = (clone, after)) :
    after.calls = host.calls ∧ host.clock ≤ after.clock ∧
      ∀ dst, clone = some dst →
        dst.aotMode = space.aotMode ∧ dst.regions = space.regions.map lentCopy := by
  rw [memSpaceClone] at cloned
  split at cloned
  · rename_i asked
    obtain ⟨-, rfl⟩ := Prod.mk.inj asked
    cases cloned
    exact ⟨rfl, Nat.le_succ _, nofun⟩
  rename_i asked
  obtain ⟨-, rfl⟩ := Prod.mk.inj asked
  generalize result : cloneRegions _ space.regions = copied at cloned
  obtain ⟨finished, _, _⟩ := copied
  obtain ⟨calls, clock, external, complete⟩ := cloneRegions_eq result
  cases finished with
  | true =>
    cases cloned
    refine ⟨calls, (Nat.le_succ _).trans clock, fun dst same => ?_⟩
    cases same
    exact ⟨rfl, complete rfl⟩
  | false =>
    simp only [false_eq_true, if_false, memSpaceDestroy] at cloned
    rw [if_neg (by decide), foldl_regionFreeHost_external external] at cloned
    cases cloned
    exact ⟨calls, (Nat.le_succ _).trans clock, nofun⟩

namespace System

/-- What a step may be asked to do. -/
def Allowed (system : System) : Nat × SpaceCall → Prop
  | (id, .mmap addr size _ flags _) =>
    (system.space id).MayMap id system.ledger (system.others id) system.host addr size flags
  | (id, .mmapHost _ size _ buffer flags) =>
    (system.space id).MayRegister id system.ledger system.host size buffer flags
  | (id, .munmap addr size) =>
    ∀ region ∈ (system.space id).regions,
      region.Touchable id (system.space id).aotMode (pageAlignDown addr)
        (pageAlignDown addr + pageAlignUp size) (system.others id)
  | (id, .mprotect addr size _) =>
    ∀ region ∈ (system.space id).regions,
      region.Protectable id (system.space id).aotMode (pageAlignDown addr)
        (pageAlignDown addr + pageAlignUp size) (system.others id)
  | (id, .brk addr) => (system.space id).MayMoveBreak id (system.others id) addr
  | (id, .destroy) =>
    (system.space id).refcount ≤ 1 → ∀ region ∈ (system.space id).regions,
      region.external = false → region.Loose id (system.others id)
  | _ => True

/-- A step whose calls are permitted and which leaves a neat system. -/
structure Proper (system : System) (owner : Nat) (next : System) : Prop where
  permitted : system.ledger.PermitsAll owner next.host.calls
  neat : Neat next

variable {system next : System} {id : Nat}

section

variable (neat : Neat system)

include neat

theorem Neat.proper (member : id ∈ system.ids)
    (session : Session (0, 0) id system.ledger host
      (space.regions.map (holder id space.aotMode) ++ system.others id)) :
    Proper system id (system.become id space host) :=
  ⟨session.permitted, neat.become member session.tidy⟩

theorem Neat.begins (member : id ∈ system.ids) :
    Session (0, 0) id system.ledger system.quiet
      ((system.space id).regions.map (holder id (system.space id).aotMode) ++ system.others id) :=
  neat.session member fun allocation _ => allocation.extent.apart_ofPages_empty

omit neat in
theorem owner_mem_ids {holder : Holder} (member : holder ∈ system.holders) :
    holder.owner ∈ system.ids := by
  obtain ⟨_, isSpace, inSpace⟩ := mem_flatMap.mp member
  obtain ⟨_, -, rfl⟩ := mem_map.mp inSpace
  exact isSpace

omit neat in
theorem holders_become_cons (new : id ∉ system.ids) (space : Space) (host : HostMemory) :
    System.holders { system.become id space host with ids := id :: system.ids } =
      space.regions.map (holder id space.aotMode) ++ system.holders := by
  rw [holders, flatMap_cons]
  refine congrArg₂ _ (holdersOf_become space host) (flatMap_congr fun other member => ?_)
  have different : other ≠ id := fun same => new (same ▸ member)
  simp only [holdersOf, become, Function.update_of_ne different]

section

variable (member : id ∈ system.ids)

include member

theorem proper_mmap
    (allowed : system.Allowed (id, .mmap addr size prot flags content))
    (stepped : system.call id (system.space id) (.mmap addr size prot flags content) = some next) :
    Proper system id next := by
  obtain ⟨⟨_, space, host⟩, mapped, answered⟩ := Option.map_eq_some_iff.1 stepped
  have outcome := mapped_memMmap (fun zone clear => neat.session member clear) rfl allowed mapped
  simp only at answered
  split at answered
  · rename_i lends
    obtain ⟨newest, older, head, tidy⟩ := outcome.lends lends.1 lends.2
    have ledger : (system.become id space host).ledger = newest :: older := head
    rw [lendNewest, ledger] at answered
    cases answered
    exact ⟨outcome.session.permitted, neat.become member tidy⟩
  · cases answered
    exact neat.proper member outcome.session

theorem proper_mmapHost
     (allowed : system.Allowed (id, .mmapHost addr size prot buffer flags))
    (stepped : system.call id (system.space id) (.mmapHost addr size prot buffer flags) =
      some next) : Proper system id next := by
  obtain ⟨⟨_, _, host⟩, mapped, answered⟩ := Option.map_eq_some_iff.1 stepped
  obtain ⟨mode, quiet, tidy⟩ := registered_memMmapHost (neat.begins member) rfl allowed mapped
  have permitted : system.ledger.PermitsAll id host.calls := by
    rw [quiet]
    trivial
  simp only at answered
  split at answered
  · rename_i failed
    rw [if_pos failed] at tidy
    cases answered
    refine ⟨permitted, neat.become member ?_⟩
    rw [quiet]
    exact tidy
  rename_i succeeded
  rw [if_neg succeeded] at tidy
  cases answered
  refine ⟨permitted, neat.become member ?_⟩
  simp only [become, Function.update_self]
  rw [quiet, mode]
  rw [mode] at tidy
  exact tidy

theorem proper_clone {target : Nat}
    (stepped : system.call id (system.space id) (.clone target) = some next) :
    Proper system target next := by
  rw [call] at stepped
  split at stepped
  · cases stepped
  rename_i new
  split at stepped
  · rename_i cloned
    obtain ⟨calls, clock, -⟩ := memSpaceClone_eq cloned
    cases stepped
    refine ⟨?_, neat.distinct, ?_⟩
    · rw [calls]
      trivial
    · rw [calls]
      exact neat.tidy.advance clock
  rename_i dst host cloned
  obtain ⟨calls, clock, copied⟩ := memSpaceClone_eq cloned
  obtain ⟨mode, regions⟩ := copied dst rfl
  cases stepped
  refine ⟨?_, nodup_cons.mpr ⟨new, neat.distinct⟩, ?_⟩
  · rw [become, calls]
    trivial
  · rw [holders_become_cons new, become, calls, regions, mode, map_map]
    refine (neat.tidy.advance clock).share ?_ ?_ ?_
    · rw [forall_mem_map]
      intro region inRegions
      exact if_pos (external_lentCopy region)
    · rw [forall_mem_map]
      intro region inRegions other inHolders same
      have known := owner_mem_ids inHolders
      rw [← same] at known
      exact new known
    · rw [forall_mem_map]
      intro region inRegions
      exact ⟨_, mem_flatMap.mpr ⟨id, member, mem_map_of_mem inRegions⟩, rfl⟩

theorem proper_destroy
    (allowed : system.Allowed (id, .destroy))
    (stepped : system.call id (system.space id) .destroy = some next) :
    Proper system id next := by
  rw [call] at stepped
  split at stepped
  · rename_i destroyed
    cases stepped
    rw [memSpaceDestroy] at destroyed
    split at destroyed
    · cases destroyed
      exact neat.proper member (neat.begins member)
    · cases destroyed
  rename_i destroyed
  cases stepped
  rw [memSpaceDestroy] at destroyed
  split at destroyed
  · cases destroyed
  rename_i last
  cases destroyed
  have freed := session_foldl_regionFreeHost (neat.begins member) (allowed (by omega))
  refine ⟨freed.permitted, neat.distinct.erase id, freed.tidy.perm (.of_eq ?_)⟩
  exact (others_become neat.distinct (system.space id) system.quiet).symm

theorem proper_call {call : SpaceCall}
    (allowed : system.Allowed (id, call))
    (called : system.call id (system.space id) call = some next) :
    Proper system (actor (id, call)) next := by
  cases call with
  | create => cases called
  | mmap => exact proper_mmap neat member allowed called
  | mmapHost => exact proper_mmapHost neat member allowed called
  | munmap =>
    cases called
    exact neat.proper member (session_unmapRange (neat.begins member) allowed)
  | mprotect =>
    cases called
    exact neat.proper member (session_memMprotect (neat.begins member) allowed)
  | brk addr =>
    generalize moved : memBrk (system.space id) system.quiet addr = outcome at called
    obtain ⟨_, _, _⟩ := outcome
    rw [System.call, moved] at called
    cases called
    exact neat.proper member (session_memBrk (neat.begins member) allowed moved).2
  | clone => exact proper_clone neat member called
  | ref =>
    cases called
    exact neat.proper member (neat.begins member)
  | destroy => exact proper_destroy neat member allowed called

end

theorem proper_step {event : Nat × SpaceCall} (allowed : system.Allowed event)
    (stepped : system.step event = some next) : Proper system (actor event) next := by
  obtain ⟨id, call⟩ := event
  cases call with
  | create =>
    rw [step] at stepped
    split at stepped
    · cases stepped
    rename_i new
    cases stepped
    refine ⟨trivial, nodup_cons.mpr ⟨new, neat.distinct⟩, ?_⟩
    rw [holders_become_cons new]
    exact neat.tidy
  | _ =>
    obtain ⟨member, called⟩ := Option.ite_none_right_eq_some.mp stepped
    exact proper_call neat member allowed called

end

theorem neat_start (host : HostMemory) : Neat (start host) :=
  ⟨nodup_nil, fun _ absent => absurd absent not_mem_nil,
    fun _ absent => absurd absent not_mem_nil, fun _ absent => absurd absent not_mem_nil,
    fun _ absent => absurd absent not_mem_nil, fun _ absent => absurd absent not_mem_nil,
    List.Pairwise.nil⟩

/-- In a run of allowed steps every space releases only its own memory, once and properly. -/
theorem spaces_release_own_memory {host : HostMemory} {events : List (Nat × SpaceCall)}
    (along : Along step Allowed (start host) events) : Along step Law (start host) events := by
  refine along.of_invariant Neat (fun {system event} allowed neat => ?_) (neat_start host)
  refine ⟨fun next stepped => ?_, fun next stepped => (proper_step neat allowed stepped).neat⟩
  have proper := proper_step neat allowed stepped
  exact ⟨proper.permitted, proper.neat.backed⟩

/-- A space maps two pages, protects one of them and is cloned; the clone is destroyed. -/
def sampleEvents : List (Nat × SpaceCall) :=
  [(0, .create false), (0, .mmap 0x10000 0x2000 3 0x32 none), (0, .mprotect 0x10000 0x1000 1),
    (0, .clone 1), (1, .destroy)]

theorem spaces_release_own_memory_sample :
    Along step Allowed (start plainHost) sampleEvents ∧
      Along step Law (start plainHost) sampleEvents := by
  have along : Along step Allowed (start plainHost) sampleEvents := by
    refine ⟨trivial, fun created first => ?_⟩
    obtain rfl := Option.some.inj first
    refine ⟨fun _ => ⟨fun _ _ absent => absurd absent not_mem_nil, nofun⟩, fun mapped second => ?_⟩
    obtain rfl := Option.some.inj second
    refine ⟨fun region member => .inr (.inr ⟨rfl, ?_, fun _ absent => absurd absent ?_⟩),
      fun changed third => ?_⟩
    · exact eq_of_mem_singleton member ▸ rfl
    · exact not_mem_nil
    · obtain rfl := Option.some.inj third
      refine ⟨trivial, fun cloned fourth => ?_⟩
      obtain rfl := Option.some.inj fourth
      refine ⟨fun _ region member mine => absurd mine (ne_false_iff.mpr ?_), fun _ _ => trivial⟩
      -- the copies that the clone has are external
      revert region
      decide +kernel
  exact ⟨along, spaces_release_own_memory along⟩

/-- A space and its clone with a mapping of two pages. -/
def sharedEvents : List (Nat × SpaceCall) :=
  [(0, .create false), (0, .mmap 0x10000 0x2000 3 0x32 none), (0, .clone 1)]

/-- A clone that protects one page of a mapping frees the buffer of its parent. -/
theorem clone_frees_parent_memory :
    (run step (start plainHost) sharedEvents).map System.ledger =
        some [⟨0, .allocator, ⟨.block 1 0, 0x2000⟩⟩] ∧
      ((run step (start plainHost) (sharedEvents ++ [(1, .mprotect 0x10000 0x1000 1)])).map
          fun system => system.host.calls) =
        some [.free (.block 1 0), .calloc (.block 6 0) 0x1000, .calloc (.block 5 0) 0x1000] ∧
      ¬Along step Law (start plainHost) (sharedEvents ++ [(1, .mprotect 0x10000 0x1000 1)]) := by
  have before : (run step (start plainHost) sharedEvents).map System.ledger =
      some [⟨0, .allocator, ⟨.block 1 0, 0x2000⟩⟩] := by
    decide +kernel
  have calls : ((run step (start plainHost) (sharedEvents ++ [(1, .mprotect 0x10000 0x1000 1)])).map
          fun system => system.host.calls) =
        some [.free (.block 1 0), .calloc (.block 6 0) 0x1000, .calloc (.block 5 0) 0x1000] := by
    decide +kernel
  refine ⟨before, calls, fun along => ?_⟩
  obtain ⟨final, reached, calls⟩ := Option.map_eq_some_iff.1 calls
  obtain ⟨_, shared, last⟩ := run_append_eq_some.mp reached
  obtain ⟨_, stepped, ended⟩ := run_cons_eq_some.mp last
  cases ended
  rw [shared, Option.map_some, Option.some.injEq] at before
  have lawful := ((along.append shared).2.1 final stepped).1
  rw [before, calls] at lawful
  obtain ⟨_, member⟩ := lawful.1
  simp [Ledger.recordAll, Ledger.record, actor] at member

end System

end AlpineOnIOS.AddressSpace
