import AlpineOnIOS.AddressSpace.Access
import AlpineOnIOS.AddressSpace.Holding
import AlpineOnIOS.AddressSpace.WrapAround

/-!
# The translation cache of the interpreter

`cpu_mem_ptr` and its relatives keep the host address of a page. On well-formed regions the cache
answers like `mem_translate`, and no call that changes mappings flushes it.
-/

namespace AlpineOnIOS.AddressSpace

open Foundation Foundation.HostMemory List Access

/-- The entry of a cache, with the first host byte of a page. -/
structure TlbEntry where
  tag : UInt64
  host : Pointer
  prot : UInt32

/-- The cache of a processor by index, of which the first sixteen are used. -/
abbrev Tlb := Nat → TlbEntry

def cpuTlbFlush (tlb : Tlb) : Tlb := fun index => { tlb index with tag := ~~~0 }

def tlbPage (addr : UInt64) : UInt64 := addr &&& ~~~(0x1000 - 1)

def tlbIndex (page : UInt64) : Nat := ((page >>> 12) &&& (16 - 1)).toNat

/-- A pointer that is moved back. -/
def movedBack (pointer : Pointer) (count : Nat) : Pointer :=
  match pointer with
  | .block id offset => .block id (offset - count)
  | .direct address => .direct (address - count)

variable (tlb : Tlb) (addr size : UInt64) (prot : UInt32)

def cpuTlbLookup : Option Pointer :=
  let page := tlbPage addr
  let e := tlb (tlbIndex page)
  if tlbPage (addr + size - 1) ≠ page then none
  else if e.tag = page ∧ e.prot &&& prot = prot then some (e.host.add (addr - page).toNat)
  else none

def cpuTlbInsert (host : Pointer) : Tlb :=
  let page := tlbPage addr
  Function.update tlb (tlbIndex page)
    { tag := page, host := movedBack host (addr - page).toNat, prot }

/-- The pointer of a range, and the cache after it was asked for. -/
def cpuMemPtr (space : Space) : Option Pointer × Tlb :=
  match cpuTlbLookup tlb addr size prot with
  | some pointer => (some pointer, tlb)
  | none =>
    match memTranslate space addr size prot with
    | some pointer => (some pointer, cpuTlbInsert tlb addr prot pointer)
    | none => (none, tlb)

/-- An access of the interpreter, and the cache after it. -/
def Access.cached (access : Access) (tlb : Tlb) (space : Space) (host : HostMemory) :
    Option (List UInt8 × HostMemory) × Tlb :=
  let result := cpuMemPtr tlb access.addr access.size access.prot space
  (result.1.map (access.effect host), result.2)

/-- The interpreter asks for one byte at least and for a page at most. -/
def Access.Sized (access : Access) : Prop :=
  access.size ≠ 0 ∧ access.size.toNat ≤ 4096

/-- An entry is for a page of a region, with no more than the protection of the region. -/
def TlbEntry.Of (entry : TlbEntry) (region : Region) : Prop :=
  region.start ≤ entry.tag.toNat ∧ entry.tag.toNat + 4096 ≤ region.stop ∧
    region.prot &&& entry.prot = entry.prot ∧
    entry.host = region.host.add (entry.tag.toNat - region.start)

/-- Every entry of a cache is unused or for a page of one of the regions. -/
def Cached (regions : List Region) (tlb : Tlb) : Prop :=
  ∀ index, (tlb index).tag = ~~~0 ∨ ∃ region ∈ regions, (tlb index).Of region

variable {tlb addr size prot} {space : Space} {pointer : Pointer}

theorem toNat_tlbPage (addr : UInt64) : (tlbPage addr).toNat = addr.toNat / 4096 * 4096 :=
  toNat_and_compl (show (0x1000 : UInt64).toNat = 2 ^ 12 from rfl)

theorem toNat_sub_tlbPage (addr : UInt64) :
    (addr - tlbPage addr).toNat = addr.toNat - addr.toNat / 4096 * 4096 := by
  rw [UInt64.toNat_sub_of_le _ _ (UInt64.le_iff_toNat_le.mpr (by rw [toNat_tlbPage]; omega)),
    toNat_tlbPage]

theorem cached_cpuTlbFlush (regions : List Region) : Cached regions (cpuTlbFlush tlb) :=
  fun _ => .inl rfl

/-- A hit is what `mem_translate` finds. -/
theorem memTranslate_of_cpuTlbLookup (ordered : Ordered space.regions)
    (cached : Cached space.regions tlb) (nonzero : size ≠ 0) (small : size.toNat ≤ 4096)
    (hit : cpuTlbLookup tlb addr size prot = some pointer) :
    memTranslate space addr size prot = some pointer := by
  simp only [cpuTlbLookup] at hit
  split at hit
  · cases hit
  rename_i samePage
  split at hit
  · rename_i found
    cases hit
    have page := toNat_tlbPage addr
    have last := congrArg UInt64.toNat (not_not.mp samePage)
    rw [toNat_tlbPage, page, UInt64.toNat_sub, UInt64.toNat_add, UInt64.toNat_one] at last
    have below := addr.toNat_lt
    obtain unused | ⟨region, member, lower, upper, permitted, host⟩ :=
      cached (tlbIndex (tlbPage addr))
    · have top := congrArg UInt64.toNat (found.1.symm.trans unused)
      rw [page, show (~~~0 : UInt64).toNat = 2 ^ 64 - 1 from rfl] at top
      omega
    rw [found.1, page] at lower upper host
    have bound := (ordered.fits region member).2
    have positive : size.toNat ≠ 0 := fun zero => nonzero (UInt64.toNat_inj.mp zero)
    refine (memTranslate_eq_some_iff ordered nonzero (by omega)).mpr
      ⟨region, member, by omega, by omega, ?_, ?_⟩
    · rw [← found.2, ← UInt32.and_assoc, permitted]
    · rw [host, toNat_sub_tlbPage, Pointer.add_add]
      congr 1
      omega
  · cases hit

theorem cached_cpuTlbInsert (wellFormed : WellFormed space.regions)
    (cached : Cached space.regions tlb) (nonzero : size ≠ 0)
    (translated : memTranslate space addr size prot = some pointer) :
    Cached space.regions (cpuTlbInsert tlb addr prot pointer) := by
  intro index
  rw [cpuTlbInsert, Function.update_apply]
  split
  · have noWrap := toNat_add_lt_of_memTranslate nonzero translated
    obtain ⟨region, member, lower, upper, permitted, rfl⟩ :=
      (memTranslate_eq_some_iff wellFormed.ordered nonzero noWrap.le).mp translated
    obtain ⟨first, last⟩ := wellFormed.aligned region member
    have page := toNat_tlbPage addr
    have positive : size.toNat ≠ 0 := fun zero => nonzero (UInt64.toNat_inj.mp zero)
    refine .inr ⟨region, member, ?_, ?_, permitted, ?_⟩
    · rw [page]
      omega
    · rw [page]
      omega
    · simp only [toNat_sub_tlbPage, page]
      cases region.host with
      | block => simp only [movedBack, Pointer.add, Pointer.block.injEq, true_and]; omega
      | direct => simp only [movedBack, Pointer.add, Pointer.direct.injEq]; omega
  · exact cached index

/-- A cached access does what the access does, and leaves a cache of the same regions. -/
theorem Access.cached_eq (wellFormed : WellFormed space.regions) {access : Access}
    (sized : access.Sized) (cached : Cached space.regions tlb) (host : HostMemory) :
    (access.cached tlb space host).1 = access.run space host ∧
      Cached space.regions (access.cached tlb space host).2 := by
  rw [Access.run_eq, if_neg sized.1, Access.cached, cpuMemPtr]
  split
  · rename_i hit
    rw [memTranslate_of_cpuTlbLookup wellFormed.ordered cached sized.1 sized.2 hit]
    exact ⟨rfl, cached⟩
  split
  · rename_i translated
    rw [translated]
    exact ⟨rfl, cached_cpuTlbInsert wellFormed cached sized.1 translated⟩
  · rename_i missing
    rw [missing]
    exact ⟨rfl, cached⟩

/-- What accesses return one after another, and the host after them. -/
def Access.runAll (space : Space) (host : HostMemory) :
    List Access → List (Option (List UInt8)) × HostMemory
  | [] => ([], host)
  | access :: rest =>
    let result := access.run space host
    let (values, host) := runAll space ((result.map Prod.snd).getD host) rest
    (result.map Prod.fst :: values, host)

/-- What cached accesses return one after another, and the host after them. -/
def Access.cachedAll (space : Space) (tlb : Tlb) (host : HostMemory) :
    List Access → List (Option (List UInt8)) × HostMemory
  | [] => ([], host)
  | access :: rest =>
    let (result, tlb) := access.cached tlb space host
    let (values, host) := cachedAll space tlb ((result.map Prod.snd).getD host) rest
    (result.map Prod.fst :: values, host)

theorem Access.cachedAll_eq (wellFormed : WellFormed space.regions) {accesses : List Access}
    (sized : ∀ access ∈ accesses, access.Sized) (cached : Cached space.regions tlb)
    (host : HostMemory) : cachedAll space tlb host accesses = runAll space host accesses := by
  induction accesses generalizing tlb host with
  | nil => rfl
  | cons access rest induction =>
    rw [forall_mem_cons] at sized
    obtain ⟨same, still⟩ := cached_eq wellFormed sized.1 cached host
    simp only [cachedAll, runAll]
    rw [same, induction sized.2 still]

/-- An interpreted space with one page. -/
def onePage (base : UInt64) : Space :=
  { memSpaceCreate with
    regions := [{ base, size := 0x1000, prot := 3, flags := 0, host := .block 0 0 }] }

def emptyTlb : Tlb := cpuTlbFlush fun _ => ⟨0, .direct 0, 0⟩

theorem wellFormed_onePage : WellFormed (onePage 0x10000).regions :=
  ⟨⟨forall_mem_singleton.mpr ⟨by decide, by decide⟩, pairwise_singleton _ _⟩,
    forall_mem_singleton.mpr ⟨by decide, by decide⟩⟩

/-- On well-formed regions a flushed cache changes nothing. -/
theorem cached_accesses_refine (wellFormed : WellFormed space.regions) (tlb : Tlb)
    (host : HostMemory) {accesses : List Access} (sized : ∀ access ∈ accesses, access.Sized) :
    cachedAll space (cpuTlbFlush tlb) host accesses = runAll space host accesses :=
  cachedAll_eq wellFormed sized (cached_cpuTlbFlush _) host

theorem cached_accesses_page :
    cachedAll (onePage 0x10000) emptyTlb plainHost [.read64 0x10FF8, .read16 0x10FFF] =
      runAll (onePage 0x10000) plainHost [.read64 0x10FF8, .read16 0x10FFF] :=
  cached_accesses_refine wellFormed_onePage _ _ (by simp [Access.Sized, size])

/-- The last byte of the address space is read through the cache only. -/
theorem cached_reads_top :
    (cachedAll (onePage 0xFFFFFFFFFFFFF000) emptyTlb plainHost
        [.read8 0xFFFFFFFFFFFFF000, .read8 0xFFFFFFFFFFFFFFFF]).1.map Option.isSome =
      [true, true] ∧
    (runAll (onePage 0xFFFFFFFFFFFFF000) plainHost
        [.read8 0xFFFFFFFFFFFFF000, .read8 0xFFFFFFFFFFFFFFFF]).1.map Option.isSome =
      [true, false] := by
  decide +kernel

section Spared

variable {region : Region} {regions : List Region} {host : HostMemory}

theorem mem_unmapRange (native : Bool) (host : HostMemory) (member : region ∈ regions)
    (spared : region.Skipped addr (addr + size)) :
    region ∈ (unmapRange native host regions addr size).1 := by
  refine unmapRange_rule (fun regions _ => region ∈ regions)
    (fun permuted => permuted.mem_iff.mp) member (fun _ _ => trivial) (fun _ _ => trivial)
    fun {other others host} _ holds => ?_
  refine mem_append.mpr ((mem_cons.mp holds).imp_left ?_)
  rintro rfl
  rw [unmapPieces, cutRegion, if_pos spared]
  exact mem_singleton_self _

theorem mem_replaceFirst {test : Region → Bool} (change : Region → Region)
    (member : region ∈ regions) (fails : test region = false) :
    region ∈ replaceFirst test change regions := by
  induction regions with
  | nil => exact member
  | cons other rest induction =>
    rw [replaceFirst]
    split
    all_goals grind

variable (member : region ∈ space.regions)

include member

theorem mem_memMprotect (host : HostMemory)
    (spared : region.Skipped (pageAlignDown addr) (pageAlignDown addr + pageAlignUp size)) :
    region ∈ (memMprotect space host addr size prot).1.regions := by
  refine memMprotect_rule (fun regions _ => region ∈ regions)
    (fun permuted => permuted.mem_iff.mp) member (fun _ _ => trivial) rfl (fun _ _ => trivial)
    fun {other others host} _ holds => ?_
  split
  · exact holds
  rename_i cut
  refine mem_append.mpr ((mem_cons.mp holds).imp_left ?_)
  rintro rfl
  rw [protectRegion, if_pos spared] at cut
  cases cut
  exact mem_singleton_self _

theorem mem_placeMapping (host : HostMemory) (flags : UInt32) (content : Option (List UInt8)) :
    region ∈ (placeMapping space host addr size prot flags content).2.1.regions := by
  simp only [placeMapping]
  split
  · exact member
  split
  · exact member
  · exact (regionInsert_perm _ _).mem_iff.mpr (mem_cons_of_mem _ member)

theorem mem_memMmap {flags : UInt32} {content : Option (List UInt8)} {outcome : Outcome}
    (spared : hasBit flags memMapFixed →
      region.Skipped (pageAlignDown addr) (pageAlignDown addr + pageAlignUp size))
    (mapped : memMmap space host addr size prot flags content = some outcome) :
    region ∈ outcome.2.1.regions := by
  rw [memMmap] at mapped
  split at mapped
  · cases mapped
    exact member
  split at mapped
  · rename_i fixed
    cases mapped
    exact mem_placeMapping (mem_unmapRange _ host member (spared fixed)) _ _ _
  · obtain ⟨⟨start, hinted⟩, chosen, rfl⟩ := Option.map_eq_some_iff.mp mapped
    obtain ⟨_, _, found⟩ := Option.map_eq_some_iff.mp chosen
    cases found
    refine mem_placeMapping ?_ _ _ _
    split <;> exact member

theorem mem_growHeap {after : HostMemory} {newBrk : UInt64} {grown : List Region}
    (apart : endsAtBreak space region = false)
    (grew : growHeap space host newBrk = (some grown, after)) : region ∈ grown := by
  have inserted (other : Region) : region ∈ regionInsert other space.regions :=
    (regionInsert_perm _ _).mem_iff.mpr (mem_cons_of_mem _ member)
  simp only [growHeap] at grew
  repeat' split at grew
  all_goals cases grew
  · exact mem_replaceFirst _ member apart
  · exact member
  · exact inserted _

theorem mem_memBrk (host : HostMemory)
    (spared : region.Skipped (pageAlignUp addr) (pageAlignUp space.brkCurrent))
    (apart : endsAtBreak space region = false) : region ∈ (memBrk space host addr).2.1.regions := by
  rw [memBrk]
  split
  · exact member
  split
  · exact member
  dsimp only
  split
  · split
    · split
      · exact member
      · rename_i grew
        exact mem_growHeap member apart grew
    · exact member
  split
  · refine mem_unmapRange _ _ member ?_
    rw [UInt64.add_comm, UInt64.sub_add_cancel]
    exact spared
  · exact member

end Spared

/-- The ranges that a call of the guest takes away or changes, before they are rounded. -/
def touched : MapCall → List (UInt64 × UInt64)
  | .mapping (.mmap addr size _ flags _) => if hasBit flags memMapFixed then [(addr, size)] else []
  | .mapping (.munmap addr size) | .mapping (.mprotect addr size _) => [(addr, size)]
  | .mremap oldAddr oldSize newSize _ => [(oldAddr + newSize, oldSize - newSize),
      (oldAddr + oldSize, newSize - oldSize), (oldAddr, oldSize)]

/-- A call does not touch a region. -/
def Spares (region : Region) (call : MapCall) : Prop :=
  ∀ range ∈ touched call,
    region.Skipped (pageAlignDown range.1) (pageAlignDown range.1 + pageAlignUp range.2)

theorem mem_perform {region : Region} {machine next : Machine} {call : MapCall}
    (member : region ∈ machine.1.regions) (spared : Spares region call)
    (performed : perform machine call = some next) :
    region ∈ next.1.regions := by
  cases call with
  | mapping request =>
    obtain ⟨_, served, rfl⟩ := Option.map_eq_some_iff.mp performed
    cases request with
    | mmap addr size =>
      refine mem_memMmap member (fun fixed => spared (addr, size) ?_) served
      simp [touched, fixed]
    | munmap =>
      cases served
      exact mem_unmapRange _ _ member (spared _ mem_cons_self)
    | mprotect =>
      cases served
      exact mem_memMprotect member _ (spared _ mem_cons_self)
  | mremap oldAddr oldSize newSize flags =>
    obtain ⟨_, moved, rfl⟩ := Option.map_eq_some_iff.mp performed
    simp only [Spares, touched, forall_mem_cons] at spared
    obtain ⟨tail, extra, old, -⟩ := spared
    rw [doMremap] at moved
    split at moved
    · cases moved
      exact member
    split at moved
    · split at moved
      · cases moved
        exact mem_unmapRange _ _ member tail
      · cases moved
        exact member
    split at moved
    · obtain ⟨_, mapped, rfl⟩ := Option.map_eq_some_iff.mp moved
      have there := mem_memMmap member (fun _ => extra) mapped
      dsimp only
      split <;> exact there
    · obtain ⟨_, mapped, rfl⟩ := Option.map_eq_some_iff.mp moved
      have there := mem_memMmap member (fun fixed => absurd fixed (by decide)) mapped
      dsimp only
      split
      · exact there
      · exact mem_unmapRange _ _ there old

/-- The caches of the processors of a process, and its memory. -/
structure Interpreter where
  tlb : Nat → Tlb
  machine : Machine

/-- A fetch or an access by a processor, or a call that changes mappings. -/
inductive Event where
  | fetch (cpu : Nat) (pc : UInt64)
  | access (cpu : Nat) (access : Access)
  | call (call : MapCall)
  | brk (addr : UInt64)

namespace Interpreter

variable (state : Interpreter)

/-- What a processor gets from an access, and its cache after it. -/
def fast (cpu : Nat) (access : Access) : Option (List UInt8 × HostMemory) × Tlb :=
  access.cached (state.tlb cpu) state.machine.1 state.machine.2

def touch (cpu : Nat) (access : Access) : Interpreter :=
  { tlb := Function.update state.tlb cpu (state.fast cpu access).2
    machine := (state.machine.1,
      ((state.fast cpu access).1.map Prod.snd).getD state.machine.2) }

/-- The state after an event; none of the calls touches a cache. -/
def step : Event → Option Interpreter
  | .fetch cpu pc => some (state.touch cpu (.read32 pc))
  | .access cpu access => some (state.touch cpu access)
  | .call call => (perform state.machine call).map fun machine => { state with machine }
  | .brk addr =>
    some { state with machine := (memBrk state.machine.1 state.machine.2 addr).2 }

/-- `MEM_PROT_EXEC`, which a fetch does not ask for. -/
def memProtExec : UInt32 := 4

/-- An access does what the mappings in force say, and a fetch is from executable memory. -/
def Lawful : Event → Prop
  | .fetch cpu pc =>
    (state.fast cpu (.read32 pc)).1 = (read32 pc).run state.machine.1 state.machine.2 ∧
      ((state.fast cpu (.read32 pc)).1.isSome →
        (memTranslate state.machine.1 pc 4 memProtExec).isSome)
  | .access cpu access =>
    (state.fast cpu access).1 = access.run state.machine.1 state.machine.2
  | _ => True

/-- Regions are well formed at an access, and calls touch no region with a cached page. -/
def Careful : Event → Prop
  | .fetch _ pc => WellFormed state.machine.1.regions ∧
      ((memTranslate state.machine.1 pc 4 memProtRead).isSome →
        (memTranslate state.machine.1 pc 4 memProtExec).isSome)
  | .access _ access => WellFormed state.machine.1.regions ∧ access.Sized
  | .call call => ∀ cpu index, ∀ region ∈ state.machine.1.regions,
      (state.tlb cpu index).Of region → Spares region call
  | .brk addr => ∀ cpu index, ∀ region ∈ state.machine.1.regions,
      (state.tlb cpu index).Of region →
        region.Skipped (pageAlignUp addr) (pageAlignUp state.machine.1.brkCurrent) ∧
          endsAtBreak state.machine.1 region = false

/-- All caches are caches of the regions. -/
def Current : Prop := ∀ cpu, Cached state.machine.1.regions (state.tlb cpu)

variable {state}

theorem lawful_access (current : state.Current) (wellFormed : WellFormed state.machine.1.regions)
    {access : Access} (sized : access.Sized) (cpu : Nat) :
    (state.fast cpu access).1 = access.run state.machine.1 state.machine.2 ∧
      (state.touch cpu access).Current := by
  obtain ⟨same, still⟩ := cached_eq wellFormed sized (current cpu) state.machine.2
  refine ⟨same, fun other => ?_⟩
  simp only [touch, Function.update_apply]
  split
  · exact still
  · exact current other

/-- Cached pages stay cached in regions that stay. -/
theorem Current.mono (current : state.Current) {machine : Machine}
    (kept : ∀ cpu index, ∀ region ∈ state.machine.1.regions,
      (state.tlb cpu index).Of region → region ∈ machine.1.regions) :
    ({ state with machine } : Interpreter).Current := by
  intro cpu index
  refine (current cpu index).imp_right ?_
  rintro ⟨region, member, fits⟩
  exact ⟨region, kept cpu index region member fits, fits⟩

/-- In a careful run every access and every fetch obeys the mappings in force. -/
theorem no_stale_translations {events : List Event} (current : state.Current)
    (careful : Along step Careful state events) : Along step Lawful state events := by
  refine careful.of_invariant Current (fun {state event} careful current => ?_) current
  cases event with
  | fetch cpu pc =>
    have sized : (read32 pc).Sized := ⟨by simp [size], Nat.le_add_left 4 4092⟩
    obtain ⟨same, still⟩ := lawful_access current careful.1 sized cpu
    refine ⟨⟨same, fun fetched => careful.2 ?_⟩, fun next stepped => ?_⟩
    · rw [same] at fetched
      simpa [Access.run, memRead32, memReadBytes] using fetched
    · cases stepped
      exact still
  | access cpu access =>
    obtain ⟨same, still⟩ := lawful_access current careful.1 careful.2 cpu
    refine ⟨same, fun next stepped => ?_⟩
    cases stepped
    exact still
  | call call =>
    refine ⟨trivial, fun next stepped => ?_⟩
    obtain ⟨_, performed, rfl⟩ := Option.map_eq_some_iff.mp stepped
    exact current.mono fun cpu index region member fits =>
      mem_perform member (careful cpu index region member fits) performed
  | brk addr =>
    refine ⟨trivial, fun next stepped => ?_⟩
    cases stepped
    exact current.mono fun cpu index region member fits =>
      mem_memBrk member _ (careful cpu index region member fits).1
        (careful cpu index region member fits).2

/-- A process with one page. -/
def sample : Interpreter := ⟨fun _ => emptyTlb, onePage 0x10000, plainHost⟩

/-- A byte is read before and after a page is unmapped. -/
def aroundUnmap (addr : UInt64) : List Event :=
  [.access 0 (.read8 0x10000), .call (.mapping (.munmap addr 0x1000)), .access 0 (.read8 0x10000)]

theorem no_stale_translations_sample : Along step Lawful sample (aroundUnmap 0x20000) := by
  refine no_stale_translations (fun cpu => cached_cpuTlbFlush _)
    (.cons rfl ⟨wellFormed_onePage, by decide, by decide⟩ (.cons rfl ?_ (.cons rfl ?_ trivial)))
  · intro cpu index region member _
    rw [mem_singleton.mp member]
    exact forall_mem_singleton.mpr (by decide)
  · exact ⟨wellFormed_onePage, by decide, by decide⟩

/-- A page that was unmapped is still read. -/
theorem unmapped_page_read : ¬Along step Lawful sample (aroundUnmap 0x10000) := by
  intro lawful
  have stale := congrArg Option.isSome ((lawful.2 _ rfl).2 _ rfl).1
  exact absurd stale (by decide +kernel)

end Interpreter

end AlpineOnIOS.AddressSpace
