import AlpineOnIOS.AddressSpace.Buffers
import AlpineOnIOS.Foundation.Runs

/-!
# Mapping operations against a map of addresses

The search for a gap finds the lowest free place from its first address on, if there is one. The
mapping operations of an interpreted space agree with those on the map from addresses to
protections and bytes, for requests that are allowed.
-/

namespace AlpineOnIOS.AddressSpace

open Foundation Foundation.HostMemory List AddressSpace

variable (addr : UInt64)

theorem toNat_pageAlignDown : (pageAlignDown addr).toNat = addr.toNat / 4096 * 4096 :=
  toNat_alignDown (show pageSize.toNat = 2 ^ 12 from rfl)

theorem toNat_pageAlignUp : (pageAlignUp addr).toNat = (addr.toNat + 4095) % 2 ^ 64 / 4096 * 4096 :=
  toNat_alignUp (show pageSize.toNat = 2 ^ 12 from rfl)

theorem dvd_pageAlignDown : 4096 ∣ (pageAlignDown addr).toNat := by
  rw [toNat_pageAlignDown]
  exact Nat.dvd_mul_left _ _

theorem dvd_pageAlignUp : 4096 ∣ (pageAlignUp addr).toNat := by
  rw [toNat_pageAlignUp]
  exact Nat.dvd_mul_left _ _

theorem toNat_pageAlignUp_le {addr : UInt64} {bound : Nat} (aligned : 4096 ∣ bound)
    (below : addr.toNat ≤ bound) (small : bound < 2 ^ 64) :
    addr.toNat ≤ (pageAlignUp addr).toNat ∧ (pageAlignUp addr).toNat ≤ bound := by
  obtain ⟨_, rfl⟩ := aligned
  have fits : addr.toNat + 4095 < 2 ^ 64 := by omega
  rw [toNat_pageAlignUp, Nat.mod_eq_of_lt fits]
  omega

/-- A region of whole pages. -/
def Region.Aligned (region : Region) : Prop := 4096 ∣ region.start ∧ 4096 ∣ region.stop

variable (regions : List Region)

/-- A range meets none of the regions. -/
def Vacant (lower upper : Nat) : Prop :=
  ∀ region ∈ regions, region.stop ≤ lower ∨ upper ≤ region.start

/-- There is a page-aligned place for a mapping at some address or above it. -/
def Room (start size : Nat) : Prop :=
  ∃ gap, start ≤ gap ∧ 4096 ∣ gap ∧ gap + size < 2 ^ 64 ∧ Vacant regions gap (gap + size)

variable {regions addr} {found : UInt64} {alignedSize : UInt64} {gap : Nat} {cur : Region}

theorem conflict_iff (fits : cur.Fits) (small : addr.toNat + alignedSize.toNat < 2 ^ 64) :
    (addr < cur.rend ∧ addr + alignedSize > cur.base) ↔
      addr.toNat < cur.stop ∧ cur.start < addr.toNat + alignedSize.toNat := by
  rw [UInt64.lt_iff_toNat_lt, fits.toNat_rend, gt_iff_lt, UInt64.lt_iff_toNat_lt, UInt64.toNat_add,
    Nat.mod_eq_of_lt small, Region.toNat_base]

section

variable (fits : ∀ region ∈ regions, region.Fits)

include fits

theorem gapStep_eq_next {following : UInt64}
    (below : addr.toNat ≤ gap) (aligned : 4096 ∣ gap) (small : gap + alignedSize.toNat < 2 ^ 64)
    (vacant : Vacant regions gap (gap + alignedSize.toNat))
    (stepped : gapStep regions alignedSize addr = .next following) :
    ∃ cur ∈ regions, addr.toNat < cur.stop ∧ cur.stop ≤ following.toNat ∧ following.toNat ≤ gap ∧
      4096 ∣ following.toNat := by
  rw [gapStep] at stepped
  split at stepped
  · rename_i cur found
    cases stepped
    have member := mem_of_find?_eq_some found
    have conflict := find?_some found
    rw [decide_eq_true_eq, conflict_iff (fits cur member) (by omega)] at conflict
    have stops : cur.stop ≤ gap := by
      have := vacant cur member
      omega
    have ends := (fits cur member).toNat_rend
    obtain ⟨lower, upper⟩ := toNat_pageAlignUp_le aligned (ends.trans_le stops) (by omega)
    exact ⟨cur, member, conflict.1, ends ▸ lower, upper, dvd_pageAlignUp _⟩
  · cases stepped

theorem gapStep_eq_exit
    (small : addr.toNat + alignedSize.toNat < 2 ^ 64)
    (stepped : gapStep regions alignedSize addr = .exit found) :
    found = addr ∧ Vacant regions addr.toNat (addr.toNat + alignedSize.toNat) := by
  rw [gapStep] at stepped
  split at stepped
  · cases stepped
  rename_i free
  cases stepped
  refine ⟨rfl, fun region member => ?_⟩
  have apart := find?_eq_none.mp free region member
  rw [decide_eq_true_eq, conflict_iff (fits region member) small] at apart
  omega

omit fits in
theorem countP_lt_of_passed {low high : Nat} (member : cur ∈ regions) (ahead : low < cur.stop)
    (passed : cur.stop ≤ high) :
    regions.countP (fun region => high < region.stop) <
      regions.countP (fun region => low < region.stop) := by
  obtain ⟨front, back, rfl⟩ := append_of_mem member
  have fewer (some : List Region) : some.countP (fun region => high < region.stop) ≤
      some.countP (fun region => low < region.stop) := by
    refine countP_mono_left fun region _ beyond => ?_
    rw [decide_eq_true_eq] at beyond ⊢
    omega
  have inFront := fewer front
  have inBack := fewer back
  rw [countP_append, countP_append, countP_cons_of_neg, countP_cons_of_pos]
  · omega
  · simpa using ahead
  · simpa using passed

theorem findGap_of_room (startAligned : 4096 ∣ addr.toNat)
    (room : Room regions addr.toNat alignedSize.toNat) :
    ∃ found, findGap regions alignedSize addr = some found ∧ 4096 ∣ found.toNat ∧
      found.toNat + alignedSize.toNat < 2 ^ 64 ∧
      Vacant regions found.toNat (found.toNat + alignedSize.toNat) := by
  obtain ⟨gap, below, aligned, small, vacant⟩ := room
  -- every round passes the region that was in the way for good
  have general : ∀ fuel (addr : UInt64), addr.toNat ≤ gap → 4096 ∣ addr.toNat →
      regions.countP (fun region => addr.toNat < region.stop) < fuel →
      ∃ found, loop (gapStep regions alignedSize) fuel addr = some found ∧ 4096 ∣ found.toNat ∧
        found.toNat + alignedSize.toNat < 2 ^ 64 ∧
        Vacant regions found.toNat (found.toNat + alignedSize.toNat) := by
    intro fuel
    induction fuel with
    | zero => exact fun _ _ _ impossible => absurd impossible (Nat.not_lt_zero _)
    | succ fuel induction =>
      intro addr below startAligned enough
      rw [loop]
      cases stepped : gapStep regions alignedSize addr with
      | exit found =>
        obtain ⟨rfl, free⟩ := gapStep_eq_exit fits (by omega) stepped
        exact ⟨found, rfl, startAligned, by omega, free⟩
      | next following =>
        obtain ⟨_, member, ahead, passed, bounded, again⟩ :=
          gapStep_eq_next fits below aligned small vacant stepped
        exact induction following bounded again
          (Nat.lt_of_lt_of_le (countP_lt_of_passed member ahead passed) (Nat.le_of_lt_succ enough))
  exact general _ addr below startAligned (Nat.lt_succ_of_le countP_le_length)

end

variable {size : UInt64} {space : Space}

variable {next : Space}

section

variable (chosen : chooseGap space addr size = some (found, next))

include chosen

theorem chooseGap_eq_some :
    ∃ hint, next = { space with mmapNext := hint } := by
  obtain ⟨_, -, located⟩ := Option.map_eq_some_iff.1 chosen
  rw [Prod.mk.injEq] at located
  rw [← located.2]
  split
  · exact ⟨_, rfl⟩
  · exact ⟨space.mmapNext, rfl⟩

theorem dvd_of_chooseGap : 4096 ∣ found.toNat := by
  obtain ⟨_, search, located⟩ := Option.map_eq_some_iff.1 chosen
  rw [← (Prod.mk.inj located).1]
  refine loop_rule (fun addr : UInt64 => 4096 ∣ addr.toNat) (fun addr => 4096 ∣ addr.toNat)
    (fun {state following} stepped _ => ?_) (fun {state result} stepped start => ?_)
    (dvd_pageAlignUp _) search
  · rw [gapStep] at stepped
    split at stepped
    · cases stepped
      exact dvd_pageAlignUp _
    · cases stepped
  · rw [gapStep] at stepped
    split at stepped
    · cases stepped
    · cases stepped
      exact start

omit chosen in
theorem ne_mapFailed_of_dvd (aligned : 4096 ∣ addr.toNat) : addr ≠ mapFailed := by
  rintro rfl
  exact absurd aligned (by decide)

theorem ne_mapFailed_of_chooseGap : found ≠ mapFailed :=
  ne_mapFailed_of_dvd (dvd_of_chooseGap chosen)

end

variable {region : Region}

theorem replaceFirst_append {test : Region → Bool} {change : Region → Region}
    {front back : List Region} (before : ∀ other ∈ front, test other = false)
    (meets : test region = true) :
    replaceFirst test change (front ++ region :: back) = front ++ change region :: back := by
  induction front with
  | nil => rw [nil_append, replaceFirst, if_pos meets, nil_append]
  | cons other rest induction =>
    rw [forall_mem_cons] at before
    rw [cons_append, replaceFirst, before.1, induction before.2]
    rfl

/-- Regions of whole pages in order. -/
structure WellFormed (regions : List Region) : Prop where
  ordered : Ordered regions
  aligned : ∀ region ∈ regions, region.Aligned

variable {native : Bool} {host : HostMemory} {finish : UInt64}

namespace WellFormed

variable {prot : UInt32}

theorem nil : WellFormed [] := ⟨.nil, fun _ absent => absurd absent not_mem_nil⟩

theorem regionInsert (wellFormed : WellFormed regions) (fits : region.Fits)
    (aligned : region.Aligned) (vacant : Vacant regions region.start region.stop) :
    WellFormed (regionInsert region regions) := by
  refine ⟨ordered_regionInsert wellFormed.ordered fits vacant, fun other member => ?_⟩
  cases mem_cons.mp ((regionInsert_perm region regions).mem_iff.mp member) with
  | inl same => exact same ▸ aligned
  | inr old => exact wellFormed.aligned other old

theorem rebuild {pieces : HostMemory → Region → List Region × HostMemory}
    (wellFormed : WellFormed regions)
    (slices : ∀ host, ∀ region ∈ regions, 4096 ∣ region.start → 4096 ∣ region.stop →
      Slices (4096 ∣ ·) region (pieces host region).1) :
    WellFormed (AddressSpace.rebuild pieces host regions).1 := by
  have all (host : HostMemory) (region : Region) (member : region ∈ regions) :
      Slices (4096 ∣ ·) region (pieces host region).1 := by
    obtain ⟨start, stop⟩ := wellFormed.aligned region member
    exact slices host region member start stop
  refine ⟨ordered_rebuild wellFormed.ordered (fun host region member =>
    (all host region member).toTiles) host, fun piece member => ?_⟩
  obtain ⟨region, inRegions, _, _, made⟩ :=
    exists_of_mem_rebuild (fun _ => True) (fun _ _ => trivial) trivial member
  exact (all _ region inRegions).marked piece made

end WellFormed

theorem vacant_rebuild_unmapPieces (ordered : Ordered regions) (generous : host.Generous) :
    Vacant (rebuild (unmapPieces native addr finish) host regions).1 addr.toNat finish.toNat := by
  intro piece member
  obtain ⟨region, inRegions, _, still, made⟩ :=
    exists_of_mem_rebuild Generous (fun _ generous => later_unmapPieces.generous generous) generous
      member
  exact avoids_unmapPieces still (ordered.fits region inRegions) piece made

/-- The number of bytes in the pages that a length touches. -/
def pages (size : UInt64) : Nat := (size.toNat + 4095) / 4096 * 4096

theorem dvd_pages (size : UInt64) : 4096 ∣ pages size := Nat.dvd_mul_left _ _

theorem toNat_le_pages (size : UInt64) : size.toNat ≤ pages size := by
  rw [pages]
  omega

theorem pages_pos (nonzero : size ≠ 0) : 0 < pages size := by
  have positive : size.toNat ≠ 0 := fun zero => nonzero (UInt64.toNat_inj.mp zero)
  rw [pages]
  omega

theorem toNat_pageAlignUp_eq_pages (small : pages size < 2 ^ 64) :
    (pageAlignUp size).toNat = pages size := by
  rw [pages] at small ⊢
  rw [toNat_pageAlignUp, Nat.mod_eq_of_lt (by omega)]

theorem toNat_add_pageAlignUp (small : addr.toNat + pages size < 2 ^ 64) :
    (addr + pageAlignUp size).toNat = addr.toNat + pages size := by
  rw [UInt64.toNat_add, toNat_pageAlignUp_eq_pages (by omega), Nat.mod_eq_of_lt small]

theorem chooseGap_of_room (fits : ∀ region ∈ space.regions, region.Fits)
    (room : Room space.regions (pageAlignUp (if addr = 0 then space.mmapNext else addr)).toNat
      (pages size)) :
    ∃ found hint, findGap space.regions (pageAlignUp size)
        (pageAlignUp (if addr = 0 then space.mmapNext else addr)) = some found ∧
      chooseGap space addr (pageAlignUp size) = some (found, { space with mmapNext := hint }) ∧
      4096 ∣ found.toNat ∧ found.toNat + pages size < 2 ^ 64 ∧
      Vacant space.regions found.toNat (found.toNat + pages size) := by
  have sized : (pageAlignUp size).toNat = pages size := by
    obtain ⟨_, _, _, _, _⟩ := room
    exact toNat_pageAlignUp_eq_pages (by omega)
  rw [← sized] at room ⊢
  obtain ⟨found, search, free⟩ := findGap_of_room fits (dvd_pageAlignUp _) room
  suffices ∃ hint, chooseGap space addr (pageAlignUp size) =
      some (found, { space with mmapNext := hint }) from
    this.elim fun hint chosen => ⟨found, hint, search, chosen, free⟩
  simp only [chooseGap, search, Option.map_some]
  split
  · exact ⟨_, rfl⟩
  · exact ⟨space.mmapNext, rfl⟩

theorem forward_of_nonempty (small : (pageAlignDown addr).toNat + pages size < 2 ^ 64)
    (nonempty : ∀ region ∈ space.regions, region.start < (pageAlignDown addr).toNat →
      (pageAlignDown addr).toNat < region.stop → size ≠ 0) :
    ∀ region ∈ space.regions, region.start < (pageAlignDown addr).toNat →
      (pageAlignDown addr).toNat < region.stop →
      (pageAlignDown addr).toNat < (pageAlignDown addr + pageAlignUp size).toNat := by
  intro region member lower upper
  have := pages_pos (nonempty region member lower upper)
  rw [toNat_add_pageAlignUp small]
  omega

/-- An interpreted space whose regions are in order and own their buffers. -/
structure Sound (space : Space) (host : HostMemory) : Prop where
  interpreted : space.aotMode = false
  generous : host.Generous
  wellFormed : WellFormed space.regions
  owned : Owned host space.regions

/-- A region is added to a space. -/
def Inserted (space next : Space) (prot : UInt32) (lower upper : Nat) : Prop :=
  ∃ region, next.regions = regionInsert region space.regions ∧ region.start = lower ∧
    region.stop = upper ∧ region.prot = prot

/-- What the guest sees. -/
def Space.map (space : Space) (host : HostMemory) : PageMap := view host space.regions

section Operations

variable {space : Space} {addr size : UInt64} {prot flags : UInt32}

theorem Sound.rebuild (sound : Sound space host)
    {pieces : HostMemory → Region → List Region × HostMemory} {change : PageMap → PageMap}
    (additive : PageMap.Additive change)
    (later : ∀ host region, Later host (pieces host region).2)
    (acts : ∀ host, host.Generous → ∀ region ∈ space.regions, ∀ others,
      Owned host (region :: others) →
      Acts change others host [region] (pieces host region).2 (pieces host region).1)
    (wellFormed : WellFormed (rebuild pieces host space.regions).1) :
    Sound { space with regions := (rebuild pieces host space.regions).1 }
        (rebuild pieces host space.regions).2 ∧
      view (rebuild pieces host space.regions).2
        (rebuild pieces host space.regions).1 = change (space.map host) := by
  have whole : Owned host (space.regions ++ []) := (List.append_nil _).symm ▸ sound.owned
  have all := acts_rebuild additive later acts sound.generous whole
  exact ⟨⟨sound.interpreted, (later_rebuild later host).generous sound.generous, wellFormed,
    by simpa using all.owned⟩, all.shows⟩

theorem Sound.unmapRange (sound : Sound space host) {finish : UInt64} (ends : addr + size = finish)
    (forward : addr.toNat ≤ finish.toNat) (addrAligned : 4096 ∣ addr.toNat)
    (finishAligned : 4096 ∣ finish.toNat) :
    ∃ regions after, unmapRange false host space.regions addr size = (regions, after) ∧
      Sound { space with regions } after ∧
      view after regions = (space.map host).unmap addr.toNat finish.toNat ∧
      Vacant regions addr.toNat finish.toNat := by
  subst ends
  have ordered := sound.wellFormed.ordered
  obtain ⟨still, shows⟩ := sound.rebuild (PageMap.additive_unmap addr.toNat (addr + size).toNat)
    (fun _ _ => later_unmapPieces)
    (fun _ generous region member _ owned =>
      acts_unmapPieces generous (ordered.fits region member) owned)
    (sound.wellFormed.rebuild fun _ region member start stop => slices_unmapPieces
      (ordered.fits region member) (fun _ => forward) start stop addrAligned finishAligned)
  exact ⟨_, _, unmapRange_eq ordered fun _ => forward, still, shows,
    vacant_rebuild_unmapPieces ordered sound.generous⟩

theorem Sound.memMunmap (sound : Sound space host)
    (small : (pageAlignDown addr).toNat + pages size < 2 ^ 64) :
    ∃ next after, memMunmap space host addr size = (next, after) ∧ Sound next after ∧
      next.map after = (space.map host).unmap (pageAlignDown addr).toNat
        ((pageAlignDown addr).toNat + pages size) := by
  have ends := toNat_add_pageAlignUp small
  obtain ⟨_, after, unmapped, still, shows, _⟩ := sound.unmapRange rfl
    (by omega) (dvd_pageAlignDown addr) (ends ▸ Nat.dvd_add (dvd_pageAlignDown addr) (dvd_pages size))
  refine ⟨_, after, ?_, still, ends ▸ shows⟩
  rw [AddressSpace.memMunmap, sound.interpreted, unmapped]

variable (prot) in
theorem Sound.memMprotect (sound : Sound space host)
    (small : (pageAlignDown addr).toNat + pages size < 2 ^ 64)
    (nonempty : ∀ region ∈ space.regions, region.start < (pageAlignDown addr).toNat →
      (pageAlignDown addr).toNat < region.stop → size ≠ 0) :
    ∃ next after, memMprotect space host addr size prot = (next, after) ∧ Sound next after ∧
      next.map after = (space.map host).protect (pageAlignDown addr).toNat
        ((pageAlignDown addr).toNat + pages size) prot := by
  have ends := toNat_add_pageAlignUp small
  have ordered := sound.wellFormed.ordered
  have forward := forward_of_nonempty small nonempty
  obtain ⟨still, shows⟩ := sound.rebuild
    (PageMap.additive_protect (pageAlignDown addr).toNat (pageAlignDown addr + pageAlignUp size).toNat
      prot)
    (fun _ _ => later_protectPieces)
    (fun _ generous region member _ owned =>
      acts_protectPieces generous (ordered.fits region member) (forward region member) owned)
    (sound.wellFormed.rebuild fun _ region member start stop => slices_protectPieces
      (ordered.fits region member) (forward region member) start stop (dvd_pageAlignDown addr)
      (ends ▸ Nat.dvd_add (dvd_pageAlignDown addr) (dvd_pages size)))
  rw [ends] at shows
  refine ⟨_, _, ?_, still, shows⟩
  rw [memMprotect_eq ordered sound.generous forward, sound.interpreted]

variable (prot) in
theorem Sound.placeMapping (sound : Sound space host) (content : Option (List UInt8))
    (internal : hasBit flags memMapExternal = false) (nonzero : size ≠ 0)
    (addrAligned : 4096 ∣ addr.toNat) (small : addr.toNat + pages size < 2 ^ 64)
    (vacant : Vacant space.regions addr.toNat (addr.toNat + pages size)) :
    ∃ next after, placeMapping space host addr size prot flags content = (addr, next, after) ∧
      Sound next after ∧ Inserted space next prot addr.toNat (addr.toNat + pages size) ∧
      next.map after = (space.map host).install addr.toNat (addr.toNat + pages size) prot
        (contentByte size flags content) := by
  have sized := toNat_pageAlignUp_eq_pages (show pages size < 2 ^ 64 by omega)
  have granted := host.later_asked.generous sound.generous
  obtain ⟨ownedAsked, unchangedAsked⟩ := sound.owned.asked
  let region : Region :=
    { base := addr, size := pageAlignUp size, prot, flags, host := .block host.asked.clock 0 }
  have starts : region.start = addr.toNat := rfl
  have ends : region.stop = addr.toNat + pages size := congrArg (addr.toNat + ·) sized
  have fits : region.Fits := ⟨sized ▸ pages_pos nonzero, ends ▸ small⟩
  obtain ⟨owned, unchanged, bytes⟩ :=
    ownedAsked.fresh region flags content granted rfl internal (sized ▸ toNat_le_pages size)
  have later : Later host (readContent (host.asked.calloc region.size.toNat).2
      (.block host.asked.clock 0) size region.size flags content) :=
    (host.later_asked.trans (host.asked.later_calloc _)).trans (later_readContent _)
  rw [← ends, ← starts] at vacant
  refine ⟨{ space with regions := regionInsert region space.regions }, _, ?_,
    ⟨sound.interpreted, later.generous sound.generous, ?_, ?_⟩, ⟨region, rfl, rfl, ends, rfl⟩, ?_⟩
  · rw [AddressSpace.placeMapping, sound.generous.request_eq]
    simp only [mapBuffer, sound.interpreted, Bool.false_and, Bool.false_eq_true, if_false]
    rw [granted.calloc_eq]
  · exact sound.wellFormed.regionInsert fits
      ⟨addrAligned, ends ▸ Nat.dvd_add addrAligned (dvd_pages size)⟩ vacant
  · exact owned.perm (regionInsert_perm region space.regions).symm
  · funext address
    rw [Space.map, view_regionInsert vacant, view_singleton, bytes, starts, ends,
      (unchangedAsked.trans unchanged).view_eq, PageMap.install]
    split
    · rfl
    · rfl

variable {content : Option (List UInt8)}

theorem Sound.memMmap_fixed (sound : Sound space host) (fixed : hasBit flags memMapFixed = true)
    (internal : hasBit flags memMapExternal = false) (nonzero : size ≠ 0)
    (small : (pageAlignDown addr).toNat + pages size < 2 ^ 64) :
    ∃ next after, memMmap space host addr size prot flags content =
        some (pageAlignDown addr, next, after) ∧ Sound next after ∧
      next.map after = (space.map host).install (pageAlignDown addr).toNat
        ((pageAlignDown addr).toNat + pages size) prot (contentByte size flags content) := by
  have ends := toNat_add_pageAlignUp small
  obtain ⟨_, _, unmapped, cleared, shows, vacant⟩ := sound.unmapRange rfl
    (by omega) (dvd_pageAlignDown addr) (ends ▸ Nat.dvd_add (dvd_pageAlignDown addr) (dvd_pages size))
  rw [ends] at shows vacant
  obtain ⟨next, after, placed, still, -, installed⟩ :=
    cleared.placeMapping prot content internal nonzero (dvd_pageAlignDown addr) small vacant
  rw [← sound.interpreted] at unmapped
  refine ⟨next, after, ?_, still, installed.trans ?_⟩
  · simp only [memMmap, if_neg nonzero, if_pos fixed, unmapped, placed]
  · funext address
    rw [Space.map, shows, PageMap.install, PageMap.install, PageMap.unmap]
    split <;> rfl

theorem Sound.memMmap_chosen (sound : Sound space host) (free : hasBit flags memMapFixed = false)
    (internal : hasBit flags memMapExternal = false) (nonzero : size ≠ 0)
    (room : Room space.regions (pageAlignUp (if addr = 0 then space.mmapNext else addr)).toNat
      (pages size)) :
    ∃ found next after, memMmap space host addr size prot flags content =
        some (found, next, after) ∧ Sound next after ∧
      findGap space.regions (pageAlignUp size)
        (pageAlignUp (if addr = 0 then space.mmapNext else addr)) = some found ∧
      found.toNat + pages size < 2 ^ 64 ∧
      Vacant space.regions found.toNat (found.toNat + pages size) ∧
      Inserted space next prot found.toNat (found.toNat + pages size) ∧
      next.map after = (space.map host).install found.toNat (found.toNat + pages size) prot
        (contentByte size flags content) := by
  obtain ⟨found, hint, search, chosen, aligned, small, vacant⟩ :=
    chooseGap_of_room sound.wellFormed.ordered.fits room
  have moved : Sound { space with mmapNext := hint } host :=
    ⟨sound.interpreted, sound.generous, sound.wellFormed, sound.owned⟩
  obtain ⟨next, after, placed, still, fresh, installed⟩ :=
    moved.placeMapping prot content internal nonzero aligned small vacant
  refine ⟨found, next, after, ?_, still, search, small, vacant, fresh, installed⟩
  simp only [memMmap, if_neg nonzero, free, Bool.false_eq_true, if_false, chosen, Option.map_some,
    placed]

end Operations

/-- A mapping operation of the guest. -/
inductive Request where
  | mmap (addr size : UInt64) (prot flags : UInt32) (content : Option (List UInt8))
  | munmap (addr size : UInt64)
  | mprotect (addr size : UInt64) (prot : UInt32)

/-- A space and the host that it lives on. -/
abbrev Machine := Space × HostMemory

variable (machine : Machine)

/-- The answer to a request and the machine after it. -/
def serve : Request → Option (UInt64 × Machine)
  | .mmap addr size prot flags content =>
    memMmap machine.1 machine.2 addr size prot flags content
  | .munmap addr size => some (0, memMunmap machine.1 machine.2 addr size)
  | .mprotect addr size prot => some (0, memMprotect machine.1 machine.2 addr size prot)

def advance (request : Request) : Option Machine :=
  (serve machine request).map Prod.snd

/-- The answers to a sequence of requests and the machine after it. -/
def serveAll (machine : Machine) : List Request → Option (List UInt64 × Machine)
  | [] => some ([], machine)
  | request :: requests =>
    (serve machine request).bind fun served =>
      (serveAll served.2 requests).map fun rest => (served.1 :: rest.1, rest.2)

/-- The effect of a request on a map, given the answer. -/
inductive PageMap.Answers (map : PageMap) : Request → UInt64 → PageMap → Prop
  | nothing (addr : UInt64) (prot flags : UInt32) (content : Option (List UInt8)) :
      Answers map (.mmap addr 0 prot flags content) mapFailed map
  | fixed {size : UInt64} {flags : UInt32} (addr : UInt64) (prot : UInt32)
      (content : Option (List UInt8)) (nonzero : size ≠ 0)
      (fixed : hasBit flags memMapFixed = true) :
      Answers map (.mmap addr size prot flags content) (pageAlignDown addr)
        (map.install (pageAlignDown addr).toNat ((pageAlignDown addr).toNat + pages size) prot
          (contentByte size flags content))
  | chosen {size found : UInt64} {flags : UInt32} (addr : UInt64) (prot : UInt32)
      (content : Option (List UInt8)) (nonzero : size ≠ 0)
      (free : hasBit flags memMapFixed = false)
      (unmapped : ∀ address, found.toNat ≤ address → address < found.toNat + pages size →
        map address = none) :
      Answers map (.mmap addr size prot flags content) found
        (map.install found.toNat (found.toNat + pages size) prot (contentByte size flags content))
  | munmap (addr size : UInt64) :
      Answers map (.munmap addr size) 0
        (map.unmap (pageAlignDown addr).toNat ((pageAlignDown addr).toNat + pages size))
  | mprotect (addr size : UInt64) (prot : UInt32) :
      Answers map (.mprotect addr size prot) 0
        (map.protect (pageAlignDown addr).toNat ((pageAlignDown addr).toNat + pages size) prot)

/-- The effect of a sequence of requests on a map, given the answers. -/
inductive PageMap.AnswersAll : PageMap → List Request → List UInt64 → PageMap → Prop
  | nil (map : PageMap) : AnswersAll map [] [] map
  | cons {map middle last : PageMap} {request : Request} {requests : List Request}
      {answer : UInt64} {answers : List UInt64} (first : map.Answers request answer middle)
      (rest : AnswersAll middle requests answers last) :
      AnswersAll map (request :: requests) (answer :: answers) last

/-- Ranges end below `2 ^ 64`, a mapping has room, and the buffer is left to the space. -/
def Allowed : Request → Prop
  | .mmap addr size _ flags _ =>
    size ≠ 0 → hasBit flags memMapExternal = false ∧
      if hasBit flags memMapFixed then (pageAlignDown addr).toNat + pages size < 2 ^ 64
      else Room machine.1.regions
        (pageAlignUp (if addr = 0 then machine.1.mmapNext else addr)).toNat (pages size)
  | .munmap addr size => (pageAlignDown addr).toNat + pages size < 2 ^ 64
  | .mprotect addr size _ =>
    (pageAlignDown addr).toNat + pages size < 2 ^ 64 ∧
      ∀ region ∈ machine.1.regions, region.start < (pageAlignDown addr).toNat →
        (pageAlignDown addr).toNat < region.stop → size ≠ 0

theorem view_eq_none_of_vacant {regions : List Region} {lower upper address : Nat}
    (vacant : Vacant regions lower upper) (first : lower ≤ address) (last : address < upper) :
    view host regions address = none := by
  rw [view, List.findSome?_eq_none_iff]
  intro region member
  have apart := vacant region member
  rw [byteAt_eq_none (by omega)]
  rfl

variable {machine}

theorem Sound.serve {request : Request} (sound : Sound machine.1 machine.2)
    (allowed : Allowed machine request) :
    ∃ answer next, serve machine request = some (answer, next) ∧ Sound next.1 next.2 ∧
      (machine.1.map machine.2).Answers request answer (next.1.map next.2) := by
  cases request with
  | mmap addr size prot flags content =>
    by_cases zero : size = 0
    · subst zero
      exact ⟨mapFailed, machine, by simp [AddressSpace.serve, memMmap], sound,
        .nothing addr prot flags content⟩
    obtain ⟨internal, placed⟩ := allowed zero
    cases fixed : hasBit flags memMapFixed with
    | true =>
      rw [fixed, if_pos rfl] at placed
      obtain ⟨next, after, served, still, shows⟩ :=
        sound.memMmap_fixed fixed internal zero placed
      exact ⟨_, (next, after), served, still, shows ▸ .fixed addr prot content zero fixed⟩
    | false =>
      rw [fixed, if_neg Bool.false_ne_true] at placed
      obtain ⟨found, next, after, served, still, -, -, vacant, -, shows⟩ :=
        sound.memMmap_chosen fixed internal zero placed
      exact ⟨found, (next, after), served, still, shows ▸ .chosen addr prot content zero fixed
        fun address first last => view_eq_none_of_vacant vacant first last⟩
  | munmap addr size =>
    obtain ⟨next, after, served, still, shows⟩ := sound.memMunmap allowed
    exact ⟨0, (next, after), by rw [AddressSpace.serve, served], still, shows ▸ .munmap addr size⟩
  | mprotect addr size prot =>
    obtain ⟨next, after, served, still, shows⟩ := sound.memMprotect prot allowed.1 allowed.2
    exact ⟨0, (next, after), by rw [AddressSpace.serve, served], still,
      shows ▸ .mprotect addr size prot⟩

theorem Sound.serveAll {requests : List Request} (sound : Sound machine.1 machine.2)
    (along : Along advance Allowed machine requests) :
    ∃ answers final, serveAll machine requests = some (answers, final) ∧ Sound final.1 final.2 ∧
      PageMap.AnswersAll (machine.1.map machine.2) requests answers (final.1.map final.2) := by
  induction requests generalizing machine with
  | nil => exact ⟨[], machine, rfl, sound, .nil _⟩
  | cons request requests induction =>
    obtain ⟨answer, next, served, still, first⟩ := sound.serve along.1
    have stepped : advance machine request = some next := by rw [advance, served, Option.map_some]
    obtain ⟨answers, final, rest, last, others⟩ := induction still (along.2 next stepped)
    refine ⟨answer :: answers, final, ?_, last, .cons first others⟩
    rw [serveAll, served, Option.bind_some, rest, Option.map_some]

theorem sound_memSpaceCreate (generous : host.Generous) : Sound memSpaceCreate host :=
  ⟨rfl, generous, .nil, fun _ absent => absurd absent List.not_mem_nil, List.nodup_nil⟩

/-- Mapping operations on a fresh interpreted space refine the operations on a map. -/
theorem serveAll_refines {host : HostMemory} {requests : List Request} (generous : host.Generous)
    (along : Along advance Allowed (memSpaceCreate, host) requests) :
    ∃ answers final, serveAll (memSpaceCreate, host) requests = some (answers, final) ∧
      WellFormed final.1.regions ∧
      PageMap.AnswersAll (fun _ => none) requests answers (final.1.map final.2) := by
  have start := sound_memSpaceCreate generous
  obtain ⟨answers, final, served, sound, refines⟩ := start.serveAll along
  exact ⟨answers, final, served, sound.wellFormed, refines⟩

/-- A host that grants everything and has handed out nothing. -/
def plainHost : HostMemory :=
  { block := fun _ => none, page := fun _ => none, clock := 0, grants := fun _ => true,
    place := fun request => 0x100000000 + 0x10000000 * request, calls := [] }

theorem generous_plainHost : plainHost.Generous := fun _ => rfl

/-- A mapping of three pages with a protected page in the middle, of which the last is taken away. -/
def sampleRequests : List Request :=
  [.mmap 0 0x3000 3 0x22 none, .mprotect 0x7F0000001000 0x1000 1, .munmap 0x7F0000002000 0x1000]

theorem serveAll_refines_sample :
    plainHost.Generous ∧ Along advance Allowed (memSpaceCreate, plainHost) sampleRequests ∧
      ∃ answers final, serveAll (memSpaceCreate, plainHost) sampleRequests = some (answers, final) ∧
        WellFormed final.1.regions ∧
        PageMap.AnswersAll (fun _ => none) sampleRequests answers (final.1.map final.2) := by
  have along : Along advance Allowed (memSpaceCreate, plainHost) sampleRequests := by
    refine ⟨fun _ => ⟨by decide, 0x7F0000000000, by decide, by decide, by decide, ?_⟩,
      fun _ _ => ⟨⟨by decide, fun _ _ _ _ => by decide⟩, fun _ _ => ⟨?_, fun _ _ => trivial⟩⟩⟩
    · exact fun _ absent => absurd absent List.not_mem_nil
    · show (_ : Nat) < _
      decide
  exact ⟨generous_plainHost, along, serveAll_refines generous_plainHost along⟩

/-- An empty protection change leaves an empty region, and a search runs over the end. -/
theorem serveAll_breaks_regions :
    (serveAll (memSpaceCreate, plainHost)
        [.mmap 0x10000 0x2000 3 0x32 none, .mprotect 0x11000 0 1]).map
      (fun served => served.2.1.regions.map fun region => (region.base, region.size)) =
      some [(0x10000, 0x1000), (0x11000, 0), (0x11000, 0x1000)] ∧
    (serveAll (memSpaceCreate, plainHost)
        [.mmap 0xFFFFFFFFFFFFD000 0x2000 3 0x32 none, .mmap 0xFFFFFFFFFFFFD000 0x2000 3 0x22 none]).map
      (fun served => served.2.1.regions.map fun region => (region.base, region.size)) =
      some [(0xFFFFFFFFFFFFD000, 0x2000), (0xFFFFFFFFFFFFF000, 0x2000)] := by
  decide +kernel

end AlpineOnIOS.AddressSpace
