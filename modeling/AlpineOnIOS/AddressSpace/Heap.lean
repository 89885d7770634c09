import AlpineOnIOS.AddressSpace.Placement

/-!
# The heap

`mem_brk` prolongs the first region that ends at the break, or lays a new one over the whole heap,
without a look at the regions around it. In a native program the break never passes its page.
-/

namespace AlpineOnIOS.AddressSpace

open Foundation Foundation.HostMemory List UInt64 Region PageMap Option

/-- A region with more room in a block of its own. -/
def Region.prolong (region : Region) (id : Nat) (grow : UInt64) : Region :=
  { region with host := .block id 0, size := region.size + grow }

variable {host : HostMemory} {region : Region} {others : List Region} {grow : UInt64}

theorem stop_prolong (small : region.stop + grow.toNat < 2 ^ 64) (id : Nat) :
    (region.prolong id grow).stop = region.stop + grow.toNat ∧
      (region.size + grow).toNat = region.size.toNat + grow.toNat := by
  have ends : region.stop = region.start + region.size.toNat := rfl
  have sum : (region.size + grow).toNat = region.size.toNat + grow.toNat := by
    rw [UInt64.toNat_add, Nat.mod_eq_of_lt (by omega)]
  refine ⟨?_, sum⟩
  rw [stop, prolong, sum, stop, Nat.add_assoc]

theorem Owned.extended (owned : Owned host (region :: others)) (generous : host.Generous)
    (small : region.stop + grow.toNat < 2 ^ 64) :
    ∃ id, region.host = .block id 0 ∧
      Owned (host.extended id region.size.toNat grow.toNat)
        (region.prolong host.clock grow :: others) ∧
      Unchanged host (host.extended id region.size.toNat grow.toNat) others ∧
      ∀ address,
        (region.prolong host.clock grow).byteAt (host.extended id region.size.toNat grow.toNat)
            address =
          if region.stop ≤ address ∧ address < region.stop + grow.toNat then some 0
          else region.byteAt host address := by
  obtain ⟨⟨internal, id, _, pointer, _, held, _⟩, different, rest⟩ :=
    Owned.cons_iff.mp owned
  obtain ⟨stops, sum⟩ := stop_prolong small host.clock
  have filled := generous.block_extended_self id region.size.toNat grow.toNat
  have clock := generous.clock_extended id region.size.toNat grow.toNat
  obtain ⟨restOwned, unchanged⟩ :
      Owned (host.extended id region.size.toNat grow.toNat) others ∧
        Unchanged host (host.extended id region.size.toNat grow.toNat) others :=
    rest.congr (by omega) fun other member otherId otherPointer otherOld =>
      generous.block_extended_of_ne otherOld.ne (fun same =>
        different other member (by rw [pointer, otherPointer, same]))
        region.size.toNat grow.toNat
  refine ⟨id, pointer, Owned.cons_iff.mpr
    ⟨⟨internal, host.clock, _, rfl, by omega, filled, sum.le⟩, ?_, restOwned⟩,
    unchanged, fun address => ?_⟩
  · intro other member same
    obtain ⟨_, _, _, otherPointer, _, _⟩ := rest.owns other member
    rw [otherPointer, prolong, Pointer.block.injEq] at same
    omega
  · have ends : region.stop = region.start + region.size.toNat := rfl
    have starts : (region.prolong host.clock grow).start = region.start := rfl
    rw [byteAt, stops, starts, byteAt, pointer]
    simp only [prolong, Pointer.add, Nat.zero_add, load_block, filled, held, bind_some]
    by_cases behind : region.stop ≤ address ∧ address < region.stop + grow.toNat
    · rw [if_pos (by omega), if_pos (by omega), if_pos (by omega), if_pos behind]
    rw [if_neg behind]
    by_cases inside : region.start ≤ address ∧ address < region.stop
    · rw [if_pos (by omega), if_pos (by omega), if_neg (by omega), if_pos inside, if_pos (by omega)]
      rfl
    · rw [if_neg (by omega), if_neg inside]

variable {space : Space} {newBrk : UInt64}

theorem WellFormed.prolong {front back : List Region} {larger : Region}
    (wellFormed : WellFormed (front ++ region :: back)) (starts : larger.start = region.start)
    (fits : larger.Fits) (aligned : 4096 ∣ larger.stop)
    (vacant : Vacant (front ++ region :: back) region.stop larger.stop) :
    WellFormed (front ++ larger :: back) := by
  obtain ⟨⟨allFit, apart⟩, allAligned⟩ := wellFormed
  rw [forall_mem_append, forall_mem_cons] at allFit allAligned
  rw [pairwise_append, pairwise_cons] at apart
  obtain ⟨inFront, ⟨behind, inBack⟩, between⟩ := apart
  refine ⟨⟨forall_mem_append.mpr ⟨allFit.1, forall_mem_cons.mpr ⟨fits, allFit.2.2⟩⟩, ?_⟩,
    forall_mem_append.mpr ⟨allAligned.1, forall_mem_cons.mpr
      ⟨⟨starts ▸ allAligned.2.1.1, aligned⟩, allAligned.2.2⟩⟩⟩
  rw [pairwise_append, pairwise_cons]
  refine ⟨inFront, ⟨fun other member => ?_, inBack⟩, fun earlier member other later => ?_⟩
  · have free := vacant other (mem_append_right _ (mem_cons_of_mem _ member))
    have := behind other member
    have := (allFit.2.2 other member).start_lt
    omega
  · cases mem_cons.mp later with
    | inl same =>
      rw [same, starts]
      exact between earlier member region mem_cons_self
    | inr old => exact between earlier member other (mem_cons_of_mem _ old)

theorem stop_of_endsAtBreak (fits : region.Fits) (small : pages space.brkCurrent < 2 ^ 64)
    (meets : endsAtBreak space region = true) :
    region.stop = pages space.brkCurrent ∧ space.brkBase.toNat ≤ region.start := by
  obtain ⟨rend, above⟩ := decide_eq_true_eq.mp meets
  refine ⟨?_, le_iff_toNat_le.mp above⟩
  rw [← fits.toNat_rend, rend, toNat_pageAlignUp_eq_pages small]

theorem Sound.growHeap_extend (sound : Sound space host)
    (search : space.regions.find? (endsAtBreak space) = some region)
    (small : pages space.brkCurrent < 2 ^ 64) (grows : pages space.brkCurrent < newBrk.toNat)
    (aligned : 4096 ∣ newBrk.toNat)
    (vacant : Vacant space.regions (pages space.brkCurrent) newBrk.toNat) :
    ∃ regions after, growHeap space host newBrk = (some regions, after) ∧
      Sound { space with regions } after ∧
      view after regions =
        (space.map host).install (pages space.brkCurrent) newBrk.toNat region.prot fun _ => 0 := by
  obtain ⟨meets, front, back, split, before⟩ := find?_eq_some_iff_append.mp search
  have member : region ∈ space.regions := mem_of_find?_eq_some search
  have fits := sound.wellFormed.ordered.fits region member
  have aligns := toNat_pageAlignUp_eq_pages small
  have ends := (stop_of_endsAtBreak fits small meets).1
  have grown : (newBrk - pageAlignUp space.brkCurrent).toNat =
      newBrk.toNat - pages space.brkCurrent := by
    rw [UInt64.toNat_sub_of_le _ _ (UInt64.le_iff_toNat_le.mpr (by omega)), aligns]
  have bound := newBrk.toNat_lt
  have room : region.stop + (newBrk - pageAlignUp space.brkCurrent).toNat < 2 ^ 64 := by omega
  have owned : Owned host (region :: (front ++ back)) :=
    sound.owned.perm (split ▸ perm_middle)
  obtain ⟨id, pointer, still, unchanged, bytes⟩ := owned.extended sound.generous room
  obtain ⟨_, sum⟩ := stop_prolong room host.clock
  refine ⟨front ++ region.prolong host.clock (newBrk - pageAlignUp space.brkCurrent) :: back,
    host.extended id region.size.toNat (newBrk - pageAlignUp space.brkCurrent).toNat, ?_,
    ⟨sound.interpreted, (host.later_extended _ _ _).generous sound.generous, ?_, ?_⟩, ?_⟩
  · rw [growHeap, search, sound.interpreted]
    simp only [Bool.not_false, if_true]
    rw [pointer, sum, sound.generous.realloc_eq]
    simp only
    rw [split, replaceFirst_append (fun other inFront => by simpa using before other inFront) meets]
    simp only [Pointer.add, Nat.zero_add]
    rfl
  · rw [split] at vacant
    have wellFormed := sound.wellFormed
    rw [split] at wellFormed
    have nonempty : 0 < (region.size + (newBrk - pageAlignUp space.brkCurrent)).toNat := by omega
    have last : (region.prolong host.clock (newBrk - pageAlignUp space.brkCurrent)).stop =
      newBrk.toNat := by omega
    exact wellFormed.prolong rfl ⟨nonempty, by omega⟩ (last ▸ aligned) (by rwa [last, ends])
  · exact still.perm perm_middle.symm
  · funext address
    have frontSame := (unchanged.mono (subset_append_left front back)).view_eq
    have backSame := (unchanged.mono (subset_append_right front back)).view_eq
    rw [view_append, view_cons, bytes, frontSame, backSame, install, Space.map, split,
      view_append, view_cons, ends, grown, Nat.add_sub_cancel' grows.le]
    by_cases inside : pages space.brkCurrent ≤ address ∧ address < newBrk.toNat
    · have free : Vacant front (pages space.brkCurrent) newBrk.toNat := fun other inFront =>
        vacant other (split ▸ mem_append_left _ inFront)
      rw [if_pos inside, if_pos inside, view_eq_none_of_vacant free inside.1 inside.2]
      rfl
    · rw [if_neg inside, if_neg inside]
      rfl

theorem Sound.growHeap_new (sound : Sound space host)
    (search : space.regions.find? (endsAtBreak space) = none)
    (grows : space.brkBase.toNat < newBrk.toNat) (baseAligned : 4096 ∣ space.brkBase.toNat)
    (aligned : 4096 ∣ newBrk.toNat)
    (vacant : Vacant space.regions space.brkBase.toNat newBrk.toNat) :
    ∃ regions after, growHeap space host newBrk = (some regions, after) ∧
      Sound { space with regions } after ∧
      view after regions =
        (space.map host).install space.brkBase.toNat newBrk.toNat (memProtRead ||| memProtWrite)
          fun _ => 0 := by
  have sized : (newBrk - space.brkBase).toNat = newBrk.toNat - space.brkBase.toNat :=
    UInt64.toNat_sub_of_le _ _ (UInt64.le_iff_toNat_le.mpr grows.le)
  have granted := host.later_asked.generous sound.generous
  obtain ⟨ownedAsked, unchangedAsked⟩ := sound.owned.asked
  let region : Region :=
    slice space.brkBase newBrk (memProtRead ||| memProtWrite) (memMapPrivate ||| memMapAnonymous)
      (.block host.asked.clock 0)
  have internal : region.external = false :=
    show hasBit (memMapPrivate ||| memMapAnonymous) memMapExternal = false by decide
  have starts : region.start = space.brkBase.toNat := rfl
  have ends : region.stop = newBrk.toNat := stop_slice grows.le _ _ _
  have fits : region.Fits := ⟨by change 0 < (newBrk - space.brkBase).toNat; omega, by
    rw [ends]
    exact newBrk.toNat_lt⟩
  obtain ⟨owned, unchanged, bytes⟩ :=
    ownedAsked.fresh region 0 none granted rfl internal (Nat.le_refl _)
  simp only [readContent] at owned unchanged bytes
  rw [← starts, ← ends] at vacant
  refine ⟨regionInsert region space.regions, (host.asked.calloc region.size.toNat).2, ?_,
    ⟨sound.interpreted, (host.later_asked.trans (host.asked.later_calloc _)).generous
      sound.generous, ?_, ?_⟩, ?_⟩
  · rw [growHeap, search, sound.generous.request_eq, sound.interpreted]
    simp only [Bool.false_eq_true, if_false]
    rw [granted.calloc_eq]
    rfl
  · exact sound.wellFormed.regionInsert fits ⟨starts ▸ baseAligned, ends ▸ aligned⟩ vacant
  · exact owned.perm (regionInsert_perm region space.regions).symm
  · funext address
    rw [view_regionInsert vacant, view_singleton, bytes, starts, ends,
      (unchangedAsked.trans unchanged).view_eq, install]
    split
    · rfl
    · rfl

/-- A sound space whose heap starts on a page and does not reach the last one. -/
structure HeapSound (machine : Machine) : Prop where
  sound : Sound machine.1 machine.2
  aligned : 4096 ∣ machine.1.brkBase.toNat
  above : machine.1.brkBase.toNat ≤ machine.1.brkCurrent.toNat
  small : pages machine.1.brkCurrent < 2 ^ 64

/-- What a change of the break leaves alone and shows, counted up to the two breaks. -/
structure BrkFrame (machine : Machine) (addr answer : UInt64) (next : Machine) : Prop where
  apart : Ordered next.1.regions
  outside : ∀ address, ¬(machine.1.brkBase.toNat ≤ address ∧
      address < max machine.1.brkCurrent.toNat next.1.brkCurrent.toNat) →
    ∀ entry, machine.1.map machine.2 address = some entry →
      next.1.map next.2 address = some entry
  below : ∀ address, address < machine.1.brkCurrent.toNat → address < next.1.brkCurrent.toNat →
    ∀ entry, machine.1.map machine.2 address = some entry →
      next.1.map next.2 address = some entry
  exposed : ∀ address, machine.1.brkCurrent.toNat ≤ address → address < next.1.brkCurrent.toNat →
    ∃ prot, next.1.map next.2 address = some (prot, 0)
  refused : pages machine.1.brkCurrent < pages addr →
    ¬Vacant machine.1.regions (pages machine.1.brkCurrent) (pages addr) →
    answer = machine.1.brkCurrent ∧ next.1.brkCurrent = machine.1.brkCurrent

/-- The bytes between the break and the end of its page are zero as far as the new break reaches. -/
def ZeroAhead (machine : Machine) (addr : UInt64) : Prop :=
  ∀ address, machine.1.brkCurrent.toNat ≤ address → address < addr.toNat →
    address < pages machine.1.brkCurrent → ∃ prot, machine.1.map machine.2 address = some (prot, 0)

/-- The break can be rounded, gives up whole pages only, and grows from the heap into free pages. -/
def BrkFits (machine : Machine) (addr : UInt64) : Prop :=
  addr ≠ 0 → machine.1.brkBase ≤ addr →
    pages addr < 2 ^ 64 ∧
    (pages addr < pages machine.1.brkCurrent →
      ∀ address, machine.1.brkCurrent.toNat ≤ address → address < pages machine.1.brkCurrent →
        machine.1.map machine.2 address = none) ∧
    (pages addr = pages machine.1.brkCurrent → ZeroAhead machine addr) ∧
    (pages machine.1.brkCurrent < pages addr →
      Vacant machine.1.regions machine.1.brkBase.toNat (pages addr) ∨
        Vacant machine.1.regions (pages machine.1.brkCurrent) (pages addr) ∧
          ZeroAhead machine addr ∧ ∃ region ∈ machine.1.regions, endsAtBreak machine.1 region = true)

variable {regions : List Region} {after : HostMemory} {addr : UInt64}

theorem pages_le_pages {first second : UInt64} :
    pages first ≤ pages second ↔ first.toNat ≤ pages second := by
  rw [pages, pages]
  omega

theorem memBrk_within (nonzero : addr ≠ 0) (inside : space.brkBase ≤ addr)
    (small : pages space.brkCurrent < 2 ^ 64) (same : pages addr = pages space.brkCurrent) :
    memBrk space host addr = (addr, { space with brkCurrent := addr }, host) := by
  have words : pageAlignUp addr = pageAlignUp space.brkCurrent := by
    rw [← UInt64.toNat_inj, toNat_pageAlignUp_eq_pages small,
      toNat_pageAlignUp_eq_pages (by omega), same]
  rw [memBrk, if_neg nonzero, if_neg (UInt64.not_lt.mpr inside), words]
  simp

theorem memBrk_shrink (nonzero : addr ≠ 0) (inside : space.brkBase ≤ addr)
    (small : pages space.brkCurrent < 2 ^ 64) (less : pages addr < pages space.brkCurrent)
    (unmapped : unmapRange space.aotMode host space.regions (pageAlignUp addr)
      (pageAlignUp space.brkCurrent - pageAlignUp addr) = (regions, after)) :
    memBrk space host addr = (addr, { space with regions, brkCurrent := addr }, after) := by
  have oldPages := toNat_pageAlignUp_eq_pages small
  have newPages := toNat_pageAlignUp_eq_pages (show pages addr < 2 ^ 64 by omega)
  have below : ¬pageAlignUp addr > space.brkCurrent := by
    rw [gt_iff_lt, lt_iff_toNat_lt, newPages]
    intro above
    have := pages_le_pages.mpr above.le
    omega
  have lower : pageAlignUp addr < pageAlignUp space.brkCurrent := by
    rw [lt_iff_toNat_lt, newPages, oldPages]
    exact less
  simp only [memBrk, if_neg nonzero, if_neg (UInt64.not_lt.mpr inside), if_neg below, if_pos lower,
    unmapped]

theorem memBrk_grow (nonzero : addr ≠ 0) (inside : space.brkBase ≤ addr)
    (small : pages addr < 2 ^ 64) (more : pages space.brkCurrent < pages addr)
    (grown : growHeap space host (pageAlignUp addr) = (some regions, after)) :
    memBrk space host addr = (addr, { space with regions, brkCurrent := addr }, after) := by
  have oldPages := toNat_pageAlignUp_eq_pages (show pages space.brkCurrent < 2 ^ 64 by omega)
  have newPages := toNat_pageAlignUp_eq_pages small
  have above : pageAlignUp addr > space.brkCurrent := by
    have := toNat_le_pages space.brkCurrent
    rw [gt_iff_lt, lt_iff_toNat_lt]
    omega
  have wide : pageAlignUp addr - pageAlignUp space.brkCurrent > 0 := by
    rw [gt_iff_lt, lt_iff_toNat_lt,
      UInt64.toNat_sub_of_le _ _ (UInt64.le_iff_toNat_le.mpr (by omega)), UInt64.toNat_zero]
    omega
  simp [memBrk, if_neg nonzero, if_neg (UInt64.not_lt.mpr inside), if_pos above, if_pos wide, grown]

variable {machine : Machine}

theorem HeapSound.next (heap : HeapSound machine) (sound : Sound { machine.1 with regions } after)
    (inside : machine.1.brkBase ≤ addr) (small : pages addr < 2 ^ 64) :
    HeapSound ({ machine.1 with regions, brkCurrent := addr }, after) :=
  ⟨⟨sound.interpreted, sound.generous, sound.wellFormed, sound.owned⟩, heap.aligned,
    le_iff_toNat_le.mp inside, small⟩

theorem BrkFrame.of_within (ordered : Ordered machine.1.regions)
    (same : pages addr = pages machine.1.brkCurrent) (zero : ZeroAhead machine addr) :
    BrkFrame machine addr addr ({ machine.1 with brkCurrent := addr }, machine.2) := by
  refine ⟨ordered, fun _ _ _ seen => seen, fun _ _ _ _ seen => seen,
    fun address lower upper => ?_, by omega⟩
  have := toNat_le_pages addr
  exact zero address lower upper (by simp only at upper; omega)

theorem BrkFrame.of_unmap (ordered : Ordered regions) (inside : machine.1.brkBase ≤ addr)
    (less : pages addr < pages machine.1.brkCurrent)
    (nothing : ∀ address, machine.1.brkCurrent.toNat ≤ address →
      address < pages machine.1.brkCurrent → machine.1.map machine.2 address = none)
    (shows : view after regions =
      (machine.1.map machine.2).unmap (pages addr) (pages machine.1.brkCurrent)) :
    BrkFrame machine addr addr ({ machine.1 with regions, brkCurrent := addr }, after) := by
  have lower : machine.1.brkBase.toNat ≤ addr.toNat := le_iff_toNat_le.mp inside
  have rounded := toNat_le_pages addr
  have below : pages addr < machine.1.brkCurrent.toNat :=
    Nat.lt_of_not_le (pages_le_pages.not.mp (Nat.not_le.mpr less))
  refine ⟨ordered, fun address apart entry seen => ?_, fun address old new entry seen => ?_,
    fun address old new => ?_, by omega⟩
  · rw [Space.map, shows, PageMap.unmap, if_neg, seen]
    intro given
    simp only at apart
    rw [nothing address (by omega) given.2] at seen
    cases seen
  · simp only at new
    rw [Space.map, shows, PageMap.unmap, if_neg (by omega), seen]
  · simp only at new
    omega

theorem BrkFrame.of_install {lower : Nat} {prot : UInt32} (ordered : Ordered regions)
    (reaches : lower ≤ pages machine.1.brkCurrent)
    (vacant : Vacant machine.1.regions lower (pages addr))
    (ahead : ∀ address, machine.1.brkCurrent.toNat ≤ address → address < lower →
      ∃ prot, machine.1.map machine.2 address = some (prot, 0))
    (shows : view after regions =
      (machine.1.map machine.2).install lower (pages addr) prot fun _ => 0) :
    BrkFrame machine addr addr ({ machine.1 with regions, brkCurrent := addr }, after) := by
  have keeps : ∀ address entry, machine.1.map machine.2 address = some entry →
      view after regions address = some entry := by
    intro address entry seen
    rw [shows, install, if_neg, seen]
    intro added
    rw [Space.map, view_eq_none_of_vacant vacant added.1 added.2] at seen
    cases seen
  have rounded := toNat_le_pages addr
  refine ⟨ordered, fun address _ => keeps address, fun address _ _ => keeps address,
    fun address old new => ?_, fun _ occupied => absurd (fun region member => ?_) occupied⟩
  · simp only at new
    rw [Space.map, shows, install]
    split
    · exact ⟨prot, rfl⟩
    · exact ahead address old (by omega)
  · have := vacant region member
    omega

/-- A request that meets the condition obeys the law, and the heap stays sound. -/
theorem HeapSound.memBrk (heap : HeapSound machine) (fits : BrkFits machine addr) :
    HeapSound (memBrk machine.1 machine.2 addr).2 ∧
      BrkFrame machine addr (AddressSpace.memBrk machine.1 machine.2 addr).1
        (AddressSpace.memBrk machine.1 machine.2 addr).2 := by
  have unmoved : HeapSound (machine.1, machine.2) ∧
      BrkFrame machine addr machine.1.brkCurrent (machine.1, machine.2) :=
    ⟨heap, heap.sound.wellFormed.ordered, fun _ _ _ seen => seen, fun _ _ _ _ seen => seen,
      fun _ lower upper => absurd lower (Nat.not_le.mpr upper), fun _ _ => ⟨rfl, rfl⟩⟩
  by_cases zero : addr = 0
  · rw [AddressSpace.memBrk, if_pos zero]
    exact unmoved
  by_cases low : addr < machine.1.brkBase
  · rw [AddressSpace.memBrk, if_neg zero, if_pos low]
    exact unmoved
  have inside := UInt64.not_lt.mp low
  obtain ⟨small, shrinks, stays, grows⟩ := fits zero inside
  have oldPages := toNat_pageAlignUp_eq_pages heap.small
  have newPages := toNat_pageAlignUp_eq_pages small
  obtain less | same | more := Nat.lt_trichotomy (pages addr) (pages machine.1.brkCurrent)
  · obtain ⟨_, _, unmapped, still, shows, _⟩ := heap.sound.unmapRange
      (show pageAlignUp addr + (pageAlignUp machine.1.brkCurrent - pageAlignUp addr) =
        pageAlignUp machine.1.brkCurrent by grind)
      (by omega) (dvd_pageAlignUp addr) (dvd_pageAlignUp _)
    rw [← heap.sound.interpreted] at unmapped
    rw [memBrk_shrink zero inside heap.small less unmapped]
    rw [newPages, oldPages] at shows
    exact ⟨heap.next still inside small,
      .of_unmap still.wellFormed.ordered inside less (shrinks less) shows⟩
  · rw [memBrk_within zero inside heap.small same]
    exact ⟨heap.next heap.sound inside small,
      .of_within heap.sound.wellFormed.ordered same (stays same)⟩
  have lower := toNat_le_pages machine.1.brkCurrent
  have above := heap.above
  cases search : machine.1.regions.find? (endsAtBreak machine.1) with
  | some region =>
    have vacant : Vacant machine.1.regions (pages machine.1.brkCurrent) (pages addr) ∧
        ZeroAhead machine addr := by
      refine (grows more).elim (fun free => ?_) fun free => ⟨free.1, free.2.1⟩
      have member := mem_of_find?_eq_some search
      have fits := heap.sound.wellFormed.ordered.fits region member
      obtain ⟨_, _⟩ := stop_of_endsAtBreak fits heap.small (find?_some search)
      have apart := free region member
      have := fits.start_lt
      omega
    rw [← newPages] at vacant
    obtain ⟨_, _, grown, still, shows⟩ := heap.sound.growHeap_extend search heap.small
      (by omega) (dvd_pageAlignUp addr) vacant.1
    rw [memBrk_grow zero inside small more grown]
    rw [newPages] at shows vacant
    have reaches : pages machine.1.brkCurrent < addr.toNat :=
      Nat.lt_of_not_le (pages_le_pages.not.mp (Nat.not_le.mpr more))
    exact ⟨heap.next still inside small, .of_install still.wellFormed.ordered (Nat.le_refl _)
      vacant.1 (fun address old new => vacant.2 address old (by omega) new) shows⟩
  | none =>
    have vacant : Vacant machine.1.regions machine.1.brkBase.toNat (pages addr) := by
      refine (grows more).elim id fun ⟨_, _, region, member, ends⟩ => ?_
      exact absurd ends (find?_eq_none.mp search region member)
    rw [← newPages] at vacant
    obtain ⟨_, _, grown, still, shows⟩ := heap.sound.growHeap_new search
      (by omega) heap.aligned (dvd_pageAlignUp addr) vacant
    rw [memBrk_grow zero inside small more grown]
    rw [newPages] at shows vacant
    exact ⟨heap.next still inside small, .of_install still.wellFormed.ordered (by omega)
      vacant (fun address old new => by omega) shows⟩

/-- A request of the guest that changes its memory. -/
inductive HeapRequest where
  | mapping (request : Request)
  | brk (addr : UInt64)

def heapAdvance (machine : Machine) : HeapRequest → Option Machine
  | .mapping request => advance machine request
  | .brk addr => some (memBrk machine.1 machine.2 addr).2

def HeapAllowed (machine : Machine) : HeapRequest → Prop
  | .mapping request => Allowed machine request
  | .brk addr => BrkFits machine addr

/-- What every request has to do: the regions stay apart, and a new break disturbs nothing. -/
def HeapLaw (machine : Machine) : HeapRequest → Prop
  | .mapping request => ∃ next, advance machine request = some next ∧ Ordered next.1.regions
  | .brk addr =>
    BrkFrame machine addr (memBrk machine.1 machine.2 addr).1 (memBrk machine.1 machine.2 addr).2

variable {next : Machine} {answer : UInt64}

theorem brk_placeMapping {size : UInt64} {prot flags : UInt32} {content : Option (List UInt8)}
    (placed : placeMapping space host addr size prot flags content = (answer, next)) :
    next.1.brkBase = space.brkBase ∧ next.1.brkCurrent = space.brkCurrent := by
  rw [placeMapping] at placed
  split at placed
  · cases placed
    exact ⟨rfl, rfl⟩
  split at placed
  · cases placed
    exact ⟨rfl, rfl⟩
  · cases placed
    exact ⟨rfl, rfl⟩

theorem brk_serve {request : Request} (served : serve machine request = some (answer, next)) :
    next.1.brkBase = machine.1.brkBase ∧ next.1.brkCurrent = machine.1.brkCurrent := by
  cases request with
  | mmap =>
    rw [serve, memMmap] at served
    split at served
    · cases served
      exact ⟨rfl, rfl⟩
    split at served
    · have unmoved := brk_placeMapping (some.inj served)
      exact unmoved
    obtain ⟨⟨_, _⟩, chosen, placed⟩ := map_eq_some_iff.mp served
    obtain ⟨_, rfl⟩ := chooseGap_eq_some chosen
    have unmoved := brk_placeMapping placed
    exact unmoved
  | munmap | mprotect =>
    cases served
    exact ⟨rfl, rfl⟩

theorem HeapSound.advance {request : Request} (heap : HeapSound machine)
    (allowed : Allowed machine request) :
    ∃ next, advance machine request = some next ∧ HeapSound next := by
  obtain ⟨_, next, served, sound, _⟩ := heap.sound.serve allowed
  obtain ⟨base, current⟩ := brk_serve served
  refine ⟨next, by rw [AddressSpace.advance, served, map_some], sound, ?_, ?_, ?_⟩
  · exact base ▸ heap.aligned
  · rw [base, current]
    exact heap.above
  · exact current ▸ heap.small

/-- In every run whose requests meet the condition, all of them obey the law. -/
theorem heap_lawful {requests : List HeapRequest} (heap : HeapSound machine)
    (along : Along heapAdvance HeapAllowed machine requests) :
    Along heapAdvance HeapLaw machine requests := by
  refine along.of_invariant HeapSound (fun {machine request} allowed heap => ?_) heap
  cases request with
  | mapping =>
    obtain ⟨next, advanced, still⟩ := heap.advance allowed
    refine ⟨⟨next, advanced, still.sound.wellFormed.ordered⟩, fun other also => ?_⟩
    rw [heapAdvance, advanced, some.injEq] at also
    exact also ▸ still
  | brk =>
    obtain ⟨still, frame⟩ := heap.memBrk allowed
    refine ⟨frame, fun other also => ?_⟩
    rw [heapAdvance, some.injEq] at also
    exact also ▸ still

/-- A machine whose heap starts behind a mapped page. -/
def heapMachine : Machine :=
  ({ memSpaceCreate with brkBase := 0x20000, brkCurrent := 0x20000 }, plainHost)

theorem heapSound_heapMachine : HeapSound heapMachine :=
  ⟨⟨rfl, generous_plainHost, .nil, fun _ absent => absurd absent not_mem_nil, nodup_nil⟩,
    by decide, by decide, by decide⟩

/-- A heap of one page is laid out, and a mapping is placed behind it. -/
def heapRequests : List HeapRequest :=
  [.brk 0x20800, .mapping (.mmap 0x30000 0x1000 3 0x32 none)]

theorem heap_lawful_sample :
    HeapSound heapMachine ∧ Along heapAdvance HeapAllowed heapMachine heapRequests ∧
      Along heapAdvance HeapLaw heapMachine heapRequests := by
  have along : Along heapAdvance HeapAllowed heapMachine heapRequests := by
    refine ⟨fun _ _ => ⟨by decide, fun less => absurd less (by decide),
      fun same => absurd same (by decide), fun _ => .inl ?_⟩,
      fun _ _ => ⟨fun _ => ⟨by decide, ?_⟩, fun _ _ => trivial⟩⟩
    · exact fun _ absent => absurd absent not_mem_nil
    · show (_ : Nat) < _
      decide
  exact ⟨heapSound_heapMachine, along, heap_lawful heapSound_heapMachine along⟩

/-- A growth runs into a mapping behind the heap: it succeeds, and two regions overlap. -/
theorem heap_runs_into_mapping :
    (run heapAdvance heapMachine
        [.brk 0x21000, .mapping (.mmap 0x22000 0x1000 3 0x32 none), .brk 0x23000]).map
      (fun machine => (machine.1.brkCurrent,
        machine.1.regions.map fun region => (region.base, region.size))) =
      some (0x23000, [(0x20000, 0x3000), (0x22000, 0x1000)]) := by
  decide +kernel

/-- The size of the heap that `proc_execve` allocates. -/
def heapSize : UInt64 := 32 * 1024 * 1024

def aotStackSize : UInt64 := 1024 * 1024

variable (space : Space) (host : HostMemory)

/-- The registration of memory that the host has placed, which appears at its own address. -/
def registerMapping (size : UInt64) (address : Nat) :
    Option (Space × HostMemory) :=
  (memMmapHost space host (.ofNat address) size (memProtRead ||| memProtWrite) (.direct address)
    memMapSkipMprotect).bind fun (ret, space, host) =>
    if ret = mapFailed then none else some (space, host)

/-- How `proc_execve` gives a loaded image its heap and its stack; `none` if it fails. -/
def execveMemory (newmem : Space) (host : HostMemory) (hostPage : UInt64) :
    Option (Space × HostMemory) :=
  match host.mapAny heapSize.toNat with
  | (none, _) => none
  | (some heap, host) =>
    (registerMapping { newmem with brkBase := .ofNat heap, brkCurrent := .ofNat heap } host
      heapSize heap).bind fun (newmem, host) =>
      match host.mapAny aotStackSize.toNat with
      | (none, _) => none
      | (some stack, host) =>
        (registerMapping newmem host aotStackSize stack).map fun (newmem, host) =>
          ({ newmem with mmapNext := alignUp (.ofNat stack + aotStackSize) hostPage }, host)

/-- A sequence of `brk` requests. -/
def brkAll (requests : List UInt64) : Space × HostMemory :=
  requests.foldl (fun state addr => (memBrk state.1 state.2 addr).2) (space, host)

def AllSucceed (space : Space) (host : HostMemory) : List UInt64 → Prop
  | [] => True
  | addr :: rest =>
    (memBrk space host addr).1 = addr ∧ (memBrk space host addr).2.1.brkCurrent = addr ∧
      AllSucceed (memBrk space host addr).2.1 (memBrk space host addr).2.2 rest

/-- The range for which the heap was allocated. -/
def InHeap (addr : UInt64) : Prop :=
  space.brkBase.toNat ≤ addr.toNat ∧ addr.toNat ≤ space.brkBase.toNat + heapSize.toNat
  deriving Decidable

/-- The host places the heap on whole pages below `2 ^ 64`. -/
def PlacesHeap : Prop :=
  4096 ∣ host.place host.clock ∧ host.place host.clock + heapSize.toNat < 2 ^ 64
  deriving Decidable

/-- A native program whose break stands at the start of its heap. -/
structure HeapStart (space : Space) : Prop where
  native : space.aotMode = true
  unmoved : space.brkCurrent = space.brkBase
  aligned : 4096 ∣ space.brkBase.toNat
  small : space.brkBase.toNat + heapSize.toNat < 2 ^ 64

variable {space host} {newmem next : Space}

theorem memMmapHost_eq_some {addr size ret : UInt64} {prot mapFlags : UInt32} {hostBuf : Pointer}
    (mapped : memMmapHost space host addr size prot hostBuf mapFlags = some (ret, next, after)) :
    ∃ regions hint, next = { space with regions, mmapNext := hint } := by
  rw [memMmapHost] at mapped
  split at mapped
  · cases mapped
    exact ⟨space.regions, space.mmapNext, rfl⟩
  obtain ⟨⟨_, _⟩, chosen, placed⟩ := map_eq_some_iff.1 mapped
  obtain ⟨hint, rfl⟩ := chooseGap_eq_some chosen
  cases asked : host.request with
  | mk granted =>
    cases granted with
    | false =>
      simp only [asked, Prod.mk.injEq] at placed
      exact ⟨space.regions, hint, placed.2.1.symm⟩
    | true =>
      simp only [asked, Prod.mk.injEq] at placed
      exact ⟨_, hint, placed.2.1.symm⟩

theorem registerMapping_eq_some {size : UInt64} {address : Nat}
    (registered : registerMapping space host size address = some (next, after)) :
    ∃ regions hint, next = { space with regions, mmapNext := hint } := by
  obtain ⟨⟨ret, mappedSpace, final⟩, mapped, registered⟩ := bind_eq_some_iff.1 registered
  change (if ret = mapFailed then none else some (mappedSpace, final)) = _ at registered
  split at registered
  · cases registered
  · cases registered
    exact memMmapHost_eq_some mapped

variable {hostPage : UInt64}

/-- The heap and the stack are registered, and the break is at the start of the heap. -/
theorem execveMemory_eq_some (executed : execveMemory newmem host hostPage = some (space, after)) :
    ∃ regions hint, space =
      { newmem with
        regions
        mmapNext := hint
        brkBase := .ofNat (host.place host.clock)
        brkCurrent := .ofNat (host.place host.clock) } := by
  by_cases granted : host.grants host.clock
  · simp only [execveMemory, mapAny, granted, if_true] at executed
    obtain ⟨⟨_, heapHost⟩, heap, executed⟩ := bind_eq_some_iff.1 executed
    obtain ⟨regions, hint, rfl⟩ := registerMapping_eq_some heap
    by_cases stackGranted : heapHost.grants heapHost.clock
    · simp only [stackGranted, if_true] at executed
      obtain ⟨⟨_, _⟩, stack, executed⟩ := map_eq_some_iff.1 executed
      obtain ⟨regions, _, rfl⟩ := registerMapping_eq_some stack
      cases executed
      exact ⟨regions, _, rfl⟩
    · simp only [stackGranted, Bool.false_eq_true, if_false, reduceCtorEq] at executed
  · simp only [execveMemory, mapAny, granted, Bool.false_eq_true, if_false, reduceCtorEq]
      at executed

theorem heapStart_execveMemory (native : newmem.aotMode = true) (placed : PlacesHeap host)
    (executed : execveMemory newmem host hostPage = some (space, after)) : HeapStart space := by
  obtain ⟨_, _, rfl⟩ := execveMemory_eq_some executed
  have word : (ofNat (host.place host.clock)).toNat = host.place host.clock := by
    have small := placed.2
    rw [toNat_ofNat', Nat.mod_eq_of_lt (by omega)]
  exact
    { native := native
      unmoved := rfl
      aligned := by
        rw [word]
        exact placed.1
      small := by
        rw [word]
        exact placed.2 }

theorem growHeap_native (native : space.aotMode = true) (host : HostMemory) {newBrk : UInt64}
    (grows : pageAlignUp space.brkCurrent < newBrk) :
    (growHeap space host newBrk).1 = none := by
  simp only [growHeap, native]
  cases search : space.regions.find? (endsAtBreak space) with
  | none =>
    cases host.request with
    | mk granted => cases granted <;> rfl
  | some =>
    have ends := find?_some search
    simp only [endsAtBreak, decide_eq_true_eq] at ends
    simp only [ends.1]
    exact congrArg Prod.fst (if_pos grows)

namespace HeapStart

variable {addr : UInt64}

section

variable (start : HeapStart space)

include start

theorem pageAlignUp_eq : pageAlignUp space.brkBase = space.brkBase := by
  have bounds := toNat_pageAlignUp_le start.aligned (Nat.le_refl _)
    (Nat.lt_of_le_of_lt (Nat.le_add_right _ _) start.small)
  exact UInt64.toNat_inj.1 (Nat.le_antisymm bounds.2 bounds.1)

theorem memBrk_base (host : HostMemory) :
    memBrk space host space.brkBase = (space.brkBase, space, host) := by
  have same : { space with brkCurrent := space.brkBase } = space :=
    congrArg (fun brk => { space with brkCurrent := brk }) start.unmoved.symm
  simp only [memBrk, start.unmoved, start.pageAlignUp_eq, same, gt_iff_lt,
    UInt64.lt_irrefl, if_false, ite_self]

/-- Every other request in the heap is refused: the break does not move, and no region changes. -/
theorem memBrk_above (host : HostMemory) (inside : InHeap space addr)
    (above : addr ≠ space.brkBase) :
    ∃ after, memBrk space host addr = (space.brkBase, space, after) := by
  have strict : space.brkBase.toNat < addr.toNat :=
    Nat.lt_of_le_of_ne inside.1 fun same => above (UInt64.toNat_inj.1 same.symm)
  have bounds := toNat_pageAlignUp_le
    (Nat.dvd_add start.aligned (by decide : 4096 ∣ heapSize.toNat)) inside.2 start.small
  have grows := lt_iff_toNat_lt.2 (Nat.lt_of_lt_of_le strict bounds.1)
  have positive : ¬addr = 0 := by
    rintro rfl
    exact absurd strict (Nat.not_lt_zero _)
  have reaches : ¬addr < space.brkBase := by
    rw [lt_iff_toNat_lt]
    exact Nat.not_lt.2 inside.1
  have widens : pageAlignUp addr - space.brkBase > 0 := by
    rw [gt_iff_lt, UInt64.lt_iff_toNat_lt, UInt64.toNat_sub_of_le _ _ (UInt64.le_of_lt grows),
      UInt64.toNat_zero]
    exact Nat.sub_pos_of_lt (lt_iff_toNat_lt.1 grows)
  have refused : (growHeap space host (pageAlignUp addr)).1 = none := by
    apply growHeap_native start.native
    rw [start.unmoved, start.pageAlignUp_eq]
    exact grows
  cases answer : growHeap space host (pageAlignUp addr) with
  | mk regions after =>
    rw [answer] at refused
    cases refused
    refine ⟨after, ?_⟩
    simp only [memBrk, positive, reaches, start.pageAlignUp_eq, start.unmoved, grows, widens,
      answer, if_true, if_false]

/-- One request leaves the space as it is, and succeeds exactly for the start of the heap. -/
theorem memBrk_spec (host : HostMemory) (inside : InHeap space addr) :
    (memBrk space host addr).2.1 = space ∧
      ((memBrk space host addr).1 = addr ↔ addr = space.brkBase) := by
  by_cases base : addr = space.brkBase
  · subst base
    rw [start.memBrk_base]
    exact ⟨rfl, Iff.rfl⟩
  · obtain ⟨_, answer⟩ := start.memBrk_above host inside base
    rw [answer]
    exact ⟨rfl, eq_comm⟩

end

end HeapStart

variable {requests : List UInt64}

theorem HeapStart.brkAll_eq (start : HeapStart space)
    (inside : ∀ addr ∈ requests, InHeap space addr) (host : HostMemory) :
    (brkAll space host requests).1 = space := by
  induction requests generalizing host with
  | nil => rfl
  | cons addr rest induction =>
    have first := (start.memBrk_spec host (inside addr mem_cons_self)).1
    have later := induction (fun other member => inside other (mem_cons_of_mem addr member))
      (memBrk space host addr).2.2
    have state : (memBrk space host addr).2 = (space, (memBrk space host addr).2.2) :=
      Prod.ext first rfl
    rw [brkAll, foldl_cons, state]
    exact later

theorem HeapStart.allSucceed_iff (start : HeapStart space)
    (inside : ∀ addr ∈ requests, InHeap space addr) (host : HostMemory) :
    AllSucceed space host requests ↔ ∀ addr ∈ requests, addr = space.brkBase := by
  induction requests generalizing host with
  | nil => exact ⟨fun _ _ absent => absurd absent not_mem_nil, fun _ => trivial⟩
  | cons addr rest induction =>
    have first := start.memBrk_spec host (inside addr mem_cons_self)
    have later := induction (fun other member => inside other (mem_cons_of_mem addr member))
    rw [AllSucceed, first.1, first.2, later, forall_mem_cons, start.unmoved]
    exact ⟨fun ⟨base, _, rest⟩ => ⟨base, rest⟩, fun ⟨base, rest⟩ => ⟨base, base.symm, rest⟩⟩

/-- Of the requests in the allocated heap those for its first address succeed and no other. -/
theorem brk_after_execve {newmem space : Space} {host after : HostMemory} {hostPage : UInt64}
    (native : newmem.aotMode = true) (placed : PlacesHeap host)
    (executed : execveMemory newmem host hostPage = some (space, after)) {requests : List UInt64}
    (inside : ∀ addr ∈ requests, InHeap space addr) :
    (AllSucceed space after requests ↔ ∀ addr ∈ requests, addr = space.brkBase) ∧
      (brkAll space after requests).1.regions = space.regions := by
  have start := heapStart_execveMemory native placed executed
  exact ⟨start.allSucceed_iff inside after, congrArg Space.regions (start.brkAll_eq inside after)⟩

/-- A native program with no image. -/
def emptyImage : Space :=
  { memSpaceCreate with aotMode := true }

/-- The space of `emptyImage` after `proc_execve`: the stack behind the heap. -/
def startedImage : Space :=
  { emptyImage with
    regions :=
      [{ base := 0x100000000, size := heapSize, prot := 3, flags := 0x202,
          host := .direct 0x100000000 },
        { base := 0x120000000, size := aotStackSize, prot := 3, flags := 0x202,
          host := .direct 0x120000000 }]
    brkBase := 0x100000000
    brkCurrent := 0x100000000
    mmapNext := 0x120100000 }

theorem execveMemory_emptyImage :
    ∃ after, execveMemory emptyImage plainHost 0x4000 = some (startedImage, after) :=
  ⟨_, rfl⟩

theorem brk_after_execve_base :
    emptyImage.aotMode = true ∧ PlacesHeap plainHost ∧
      ∃ after, execveMemory emptyImage plainHost 0x4000 = some (startedImage, after) ∧
        (AllSucceed startedImage after [0x100000000] ↔
            ∀ addr ∈ [0x100000000], addr = startedImage.brkBase) ∧
          (brkAll startedImage after [0x100000000]).1.regions = startedImage.regions := by
  have placed : PlacesHeap plainHost := by decide
  obtain ⟨after, executed⟩ := execveMemory_emptyImage
  refine ⟨rfl, placed, after, executed, brk_after_execve rfl placed executed ?_⟩
  simp only [mem_singleton, forall_eq]
  decide

/-- The first page of the heap is refused, and the break stays where it is. -/
theorem brk_after_execve_refused :
    (execveMemory emptyImage plainHost 0x4000).map (fun (space, after) =>
        (decide (InHeap space 0x100001000), (memBrk space after 0x100001000).1,
          (memBrk space after 0x100001000).2.1.brkCurrent)) =
      some (true, 0x100000000, 0x100000000) := by
  decide +kernel

end AlpineOnIOS.AddressSpace
