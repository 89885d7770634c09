import AlpineOnIOS.AddressSpace.Placement

/-!
# Unmapping in native mode

In native mode a region lies at its own address. When a range is taken out of the middle of a
region, `unmap_range` maps zero pages over the tail and only then copies the tail.
-/

namespace AlpineOnIOS.AddressSpace

open Foundation Foundation.HostMemory List Region

variable (regions : List Region)

/-- Guest and host addresses coincide. -/
def Identical : Prop :=
  ∀ region ∈ regions, region.host = .direct region.start

/-- The protection of an address. -/
def protAt (address : Nat) : Option UInt32 :=
  regions.findSome? fun region =>
    if region.start ≤ address ∧ address < region.stop then some region.prot else none

/-- Every mapped byte outside a range keeps its value, and its protection. -/
def KeepsOutside (lower upper : Nat) (before after : PageMap) : Prop :=
  ∀ address, ¬(lower ≤ address ∧ address < upper) → ∀ entry, before address = some entry →
    after address = some entry

/-- A region goes on behind the range, and the host grants the node and the pages of its tail. -/
def Wiped (host : HostMemory) (regions : List Region) (lower upper address : Nat) : Prop :=
  host.grants host.clock = true ∧ host.grants (host.clock + 1) = true ∧
    ∃ region ∈ regions, region.start < lower ∧ upper ≤ address ∧ address < region.stop

variable {regions} {host : HostMemory} {region : Region}

theorem protAt_cons (region : Region) (rest : List Region) (address : Nat) :
    protAt (region :: rest) address =
      (if region.start ≤ address ∧ address < region.stop then some region.prot else none).or
        (protAt rest address) := by
  rw [protAt, findSome?_cons]
  split
  · rename_i found
    rw [found]
    rfl
  · rename_i missing
    rw [missing]
    rfl

theorem protAt_append (front back : List Region) (address : Nat) :
    protAt (front ++ back) address = (protAt front address).or (protAt back address) :=
  findSome?_append

theorem protAt_eq_some_iff {prot : UInt32} (same : ∀ region ∈ regions, region.prot = prot)
    (address : Nat) :
    protAt regions address =
      if ∃ region ∈ regions, region.start ≤ address ∧ address < region.stop then some prot
      else none := by
  induction regions with
  | nil => simp [protAt]
  | cons region rest induction =>
    obtain ⟨mine, others⟩ := forall_mem_cons.1 same
    rw [protAt_cons, induction others, mine]
    simp only [exists_mem_cons_iff]
    by_cases inside : region.start ≤ address ∧ address < region.stop
    · simp only [inside, and_self, if_true, Option.some_or, true_or]
    · simp only [inside, if_false, Option.none_or, false_or]

theorem view_of_identical (identical : Identical regions) (address : Nat) :
    view host regions address =
      (host.page address).bind fun byte =>
        (protAt regions address).map fun prot => (prot, byte) := by
  induction regions with
  | nil => cases host.page address <;> rfl
  | cons region rest induction =>
    obtain ⟨direct, others⟩ := forall_mem_cons.1 identical
    rw [view_cons, induction others, protAt_cons, byteAt]
    split
    · rename_i inside
      rw [direct, Pointer.add, load, Nat.add_sub_cancel' inside.1]
      cases host.page address <;> rfl
    · rfl

theorem protAt_regionInsert {address : Nat}
    (outside : ¬(region.start ≤ address ∧ address < region.stop)) :
    protAt (regionInsert region regions) address = protAt regions address := by
  induction regions with
  | nil => rw [regionInsert, protAt_cons, if_neg outside, Option.none_or]
  | cons other rest induction =>
    rw [regionInsert]
    split
    · rw [protAt_cons, if_neg outside, Option.none_or]
    · rw [protAt_cons, induction, protAt_cons other]

/-- Outside a range the layout stays, and all bytes but those which are wiped. -/
structure Outside (lower upper : Nat) (host : HostMemory) (regions : List Region)
    (after : HostMemory) (pieces : List Region) : Prop where
  identical : Identical pieces
  layout : ∀ address, ¬(lower ≤ address ∧ address < upper) →
    protAt pieces address = protAt regions address
  wiped : ∀ address, Wiped host regions lower upper address → after.page address = some 0
  kept : ∀ address, ¬(lower ≤ address ∧ address < upper) →
    ¬Wiped host regions lower upper address → after.page address = host.page address

section Cutting

variable {addr finish : UInt64} {host : HostMemory} {region : Region}

variable (addr) in
/-- The tail of a region in the middle of which a range lies is full of zeros. -/
theorem splitRegion_native (fits : region.Fits) (direct : region.host = .direct region.start)
    (inside : region.start ≤ finish.toNat) (upper : finish.toNat ≤ region.stop)
    (node : host.grants host.clock = true) (pages : host.grants (host.clock + 1) = true) :
    ∃ after, splitRegion true host region addr finish =
        (.split { region with size := addr - region.base }
          { base := finish, size := region.rend - finish, prot := region.prot,
            flags := region.flags &&& ~~~memMapExternal, host := .direct finish.toNat }, after) ∧
      ∀ address, after.page address =
        if finish.toNat ≤ address ∧ address < region.stop then some 0 else host.page address := by
  have source : region.host.add (finish - region.base).toNat = .direct finish.toNat := by
    rw [direct, Pointer.add, start, toNat_add_toNat_sub inside]
  simp only [splitRegion, request, node, tailBuffer, mapFixed, pages, if_true, source]
  refine ⟨_, rfl, fun address => ?_⟩
  rw [page_copy_self]
  simp only [zeroed, stop_rest fits upper]

variable (addr finish region) in
theorem splitRegion_refused (refused : ¬(host.grants host.clock = true ∧
      host.grants (host.clock + 1) = true)) :
    ∃ after, splitRegion true host region addr finish = (.keep region, after) ∧
      after.page = host.page := by
  cases node : host.grants host.clock with
  | false =>
    simp only [splitRegion, request, node]
    exact ⟨_, rfl, rfl⟩
  | true =>
    have pages : host.grants (host.clock + 1) = false := by
      rw [← Bool.not_eq_true]
      exact fun granted => refused ⟨node, granted⟩
    simp only [splitRegion, request, node, tailBuffer, mapFixed, pages, if_true,
      Bool.false_eq_true, if_false]
    exact ⟨_, rfl, rfl⟩

theorem trimStart_native (direct : region.host = .direct region.start)
    (inside : region.start ≤ finish.toNat) :
    trimStart true host region finish =
      (.keep { region with
        base := finish
        size := region.rend - finish
        host := .direct finish.toNat }, host) := by
  have moved : region.host.add (finish - region.base).toNat = .direct finish.toNat := by
    rw [direct, Pointer.add, start, toNat_add_toNat_sub inside]
  simp only [trimStart, size_sub_trim, moved, if_true, ite_self]

theorem page_regionFreeHost (direct : region.host = .direct region.start) {address : Nat}
    (outside : ¬(region.start ≤ address ∧ address < region.stop)) :
    (regionFreeHost true host region).page address = host.page address := by
  rw [regionFreeHost]
  split
  · rfl
  split
  · rfl
  · rw [if_pos rfl, unmap, direct]
    exact if_neg outside

theorem clock_regionFreeHost (native : Bool) :
    (regionFreeHost native host region).clock = host.clock ∧
      (regionFreeHost native host region).grants = host.grants := by
  rw [regionFreeHost]
  split
  · exact ⟨rfl, rfl⟩
  split
  · exact ⟨rfl, rfl⟩
  · split <;> exact ⟨rfl, rfl⟩

theorem protAt_of_pieces {pieces : List Region} {address : Nat}
    (same : ∀ piece ∈ pieces, piece.prot = region.prot)
    (covers : (∃ piece ∈ pieces, piece.start ≤ address ∧ address < piece.stop) ↔
      region.start ≤ address ∧ address < region.stop) :
    protAt pieces address = protAt [region] address := by
  rw [protAt_eq_some_iff same, protAt_cons]
  simp [covers, protAt]

theorem wiped_singleton {lower upper address : Nat} :
    Wiped host [region] lower upper address ↔
      (host.grants host.clock = true ∧ host.grants (host.clock + 1) = true) ∧
        region.start < lower ∧ upper ≤ address ∧ address < region.stop := by
  simp only [Wiped, mem_singleton, exists_eq_left, and_assoc]

theorem outside_unmapPieces (fits : region.Fits) (direct : region.host = .direct region.start)
    (forward : addr.toNat ≤ finish.toNat) :
    Outside addr.toNat finish.toNat host [region] (unmapPieces true addr finish host region).2
      (unmapPieces true addr finish host region).1 := by
  have cut : CutCase true addr finish host region _ := cutRegion_cases fits
  rw [unmapPieces]
  generalize cutRegion true addr finish host region = result at cut
  cases cut with
  | apart =>
    refine ⟨by simpa [Identical] using direct, fun _ _ => rfl, fun address wiped => ?_,
      fun _ _ _ => rfl⟩
    have := wiped_singleton.1 wiped
    omega
  | covered =>
    refine ⟨by simp [Identical], fun address outside => protAt_of_pieces (by simp) ?_,
      fun address wiped => ?_, fun address outside _ => ?_⟩
    · simp only [not_mem_nil, false_and, exists_false, false_iff]
      omega
    · have := wiped_singleton.1 wiped
      omega
    · exact page_regionFreeHost direct (by omega)
  | around lower upper addrInside finishInside =>
    by_cases granted : host.grants host.clock = true ∧ host.grants (host.clock + 1) = true
    · obtain ⟨_, split, page⟩ := splitRegion_native addr fits direct
        finishInside.le upper.le granted.1 granted.2
      rw [split]
      have front := toNat_add_toNat_sub lower.le
      have tail := stop_rest fits upper.le
      refine ⟨?_, fun address outside => protAt_of_pieces (by simp) ?_,
        fun address wiped => ?_, fun address outside unwiped => ?_⟩
      · simpa [Identical, start] using direct
      · simp only [exists_mem_cons_iff, not_mem_nil, false_and, exists_false, or_false,
          start, stop] at *
        omega
      · have := wiped_singleton.1 wiped
        rw [page, if_pos this.2.2]
      · rw [wiped_singleton] at unwiped
        rw [page, if_neg fun inside => unwiped ⟨granted, lower, inside⟩]
    · obtain ⟨_, kept, page⟩ := splitRegion_refused addr finish region granted
      rw [kept]
      exact ⟨by simpa [Identical] using direct, fun _ _ => rfl,
        fun address wiped => absurd (wiped_singleton.1 wiped).1 granted,
        fun address _ _ => congrFun page address⟩
  | atEnd lower =>
    have front : region.start + (addr - region.base).toNat = addr.toNat :=
      toNat_add_toNat_sub lower.le
    refine ⟨by simpa [Identical, start] using direct,
      fun address outside => protAt_of_pieces (by simp) ?_, fun address wiped => ?_,
      fun _ _ _ => rfl⟩
    · simp only [mem_singleton, exists_eq_left, start, stop] at *
      omega
    · have := wiped_singleton.1 wiped
      omega
  | atStart lower inside upper =>
    rw [trimStart_native direct inside.le]
    have tail := stop_rest fits upper.le
    refine ⟨by simp [Identical, start],
      fun address outside => protAt_of_pieces (by simp) ?_, fun address wiped => ?_,
      fun _ _ _ => rfl⟩
    · simp only [mem_singleton, exists_eq_left, start, stop] at *
      omega
    · have := wiped_singleton.1 wiped
      omega

theorem clock_unmapPieces (fits : region.Fits)
    (ending : ¬(region.start < addr.toNat ∧ finish.toNat < region.stop)) :
    (unmapPieces true addr finish host region).2.clock = host.clock ∧
      (unmapPieces true addr finish host region).2.grants = host.grants := by
  have cut : CutCase true addr finish host region _ := cutRegion_cases fits
  rw [unmapPieces]
  generalize cutRegion true addr finish host region = result at cut
  cases cut with
  | apart | atEnd => exact ⟨rfl, rfl⟩
  | covered => exact clock_regionFreeHost true
  | around lower upper => exact absurd ⟨lower, upper⟩ ending
  | atStart =>
    simp only [trimStart, if_true, ite_self, and_self]

end Cutting

variable {addr finish : UInt64}

theorem wiped_cons {lower upper address : Nat} :
    Wiped host (region :: regions) lower upper address ↔
      Wiped host [region] lower upper address ∨ Wiped host regions lower upper address := by
  simp only [Wiped, exists_mem_cons_iff, not_mem_nil, false_and, exists_false, or_false,
    ← and_or_left]

theorem rebuild_of_apart {native : Bool} (fits : ∀ region ∈ regions, region.Fits)
    (apart : ∀ region ∈ regions, region.stop ≤ addr.toNat ∨ finish.toNat ≤ region.start) :
    rebuild (unmapPieces native addr finish) host regions = (regions, host) := by
  induction regions with
  | nil => rfl
  | cons region rest induction =>
    rw [forall_mem_cons] at fits apart
    rw [rebuild, unmapPieces, cutRegion, if_pos (fits.1.skipped_iff.2 apart.1)]
    simp only [induction fits.2 apart.2]
    rfl

/-- At most one region of a list in order goes on behind the range, and it asks for memory first. -/
theorem outside_rebuild (ordered : Ordered regions) (identical : Identical regions)
    (forward : addr.toNat ≤ finish.toNat) :
    Outside addr.toNat finish.toNat host regions
      (rebuild (unmapPieces true addr finish) host regions).2
      (rebuild (unmapPieces true addr finish) host regions).1 := by
  induction regions generalizing host with
  | nil =>
    refine ⟨identical, fun _ _ => rfl, ?_, fun _ _ _ => rfl⟩
    rintro address ⟨_, _, _, absent, _⟩
    exact absurd absent not_mem_nil
  | cons region rest induction =>
    obtain ⟨fits, behind, inOrder⟩ := Ordered.cons_iff.1 ordered
    obtain ⟨direct, others⟩ := forall_mem_cons.1 identical
    have mine : Outside _ _ host [region] _ _ := outside_unmapPieces fits direct forward
    by_cases spans : region.start < addr.toNat ∧ finish.toNat < region.stop
    · have untouched : rebuild (unmapPieces true addr finish)
          (unmapPieces true addr finish host region).2 rest =
            (rest, (unmapPieces true addr finish host region).2) :=
        rebuild_of_apart inOrder.fits fun other member =>
          .inr (spans.2.le.trans (behind other member))
      have onlyMine : ∀ address, Wiped host (region :: rest) addr.toNat finish.toNat address ↔
          Wiped host [region] addr.toNat finish.toNat address := by
        intro address
        rw [wiped_cons, or_iff_left]
        rintro ⟨_, _, other, member, _, _⟩
        have := behind other member
        omega
      have whole : rebuild (unmapPieces true addr finish) host (region :: rest) =
          ((unmapPieces true addr finish host region).1 ++ rest,
            (unmapPieces true addr finish host region).2) := by
        simp only [rebuild, untouched]
      rw [whole]
      refine ⟨forall_mem_append.2 ⟨mine.identical, others⟩, fun address outside => ?_,
        fun address wiped => mine.wiped address ((onlyMine address).1 wiped),
        fun address outside unwiped =>
          mine.kept address outside fun wiped => unwiped ((onlyMine address).2 wiped)⟩
      rw [protAt_append, mine.layout address outside, ← protAt_append]
      rfl
    · obtain ⟨clock, grants⟩ : (unmapPieces true addr finish host region).2.clock = host.clock ∧
          (unmapPieces true addr finish host region).2.grants = host.grants :=
        clock_unmapPieces fits spans
      have theirs : Outside _ _ (unmapPieces true addr finish host region).2 rest _ _ :=
        induction inOrder others
      have notMine : ∀ address, ¬Wiped host [region] addr.toNat finish.toNat address := by
        intro address wiped
        have := wiped_singleton.1 wiped
        omega
      have onlyTheirs : ∀ address, Wiped host (region :: rest) addr.toNat finish.toNat address ↔
          Wiped (unmapPieces true addr finish host region).2 rest addr.toNat finish.toNat
            address := by
        intro address
        rw [wiped_cons, or_iff_right (notMine address), Wiped, Wiped, clock, grants]
      refine ⟨forall_mem_append.2 ⟨mine.identical, theirs.identical⟩, fun address outside => ?_,
        fun address wiped => theirs.wiped address ((onlyTheirs address).1 wiped),
        fun address outside unwiped => ?_⟩
      · rw [rebuild, protAt_append, mine.layout address outside, theirs.layout address outside,
          ← protAt_append]
        rfl
      · rw [onlyTheirs] at unwiped
        rw [rebuild, theirs.kept address outside unwiped,
          mine.kept address outside (notMine address)]

variable {size : UInt64}

/-- What `unmap_range` leaves of a list in order, for a range of the address space. -/
theorem outside_unmapRange (ordered : Ordered regions) (identical : Identical regions)
    (range : addr.toNat + size.toNat ≤ 2 ^ 64) :
    Outside addr.toNat (addr.toNat + size.toNat) host regions
      (unmapRange true host regions addr size).2 (unmapRange true host regions addr size).1 := by
  have sum : (addr + size).toNat = addr.toNat + size.toNat ∨
      addr.toNat + size.toNat = 2 ^ 64 ∧ (addr + size).toNat = 0 := by
    rw [UInt64.toNat_add]
    omega
  rw [unmapRange_eq ordered (by omega)]
  cases sum with
  | inl ends =>
    rw [← ends]
    exact outside_rebuild ordered identical (by omega)
  | inr =>
    rw [rebuild_of_apart ordered.fits fun region _ => .inr (by omega)]
    refine ⟨identical, fun _ _ => rfl, ?_, fun _ _ _ => rfl⟩
    rintro address ⟨_, _, region, member, _, _, _⟩
    have := (ordered.fits region member).2
    omega

/-- A region that goes on behind a range has zeros there, or the host refuses its tail. -/
def TailsZero (host : HostMemory) (regions : List Region) (lower upper : Nat) : Prop :=
  ∀ address, Wiped host regions lower upper address → ∀ byte, host.page address = some byte →
    byte = 0

variable {lower upper : Nat} {after : HostMemory} {pieces : List Region}

theorem protAt_isSome {address : Nat} (member : region ∈ regions)
    (start : region.start ≤ address) (stop : address < region.stop) :
    ∃ prot, protAt regions address = some prot := by
  rw [← Option.isSome_iff_exists, protAt, findSome?_isSome_iff]
  exact ⟨region, member, by rw [if_pos ⟨start, stop⟩]; rfl⟩

theorem Outside.trans {final : HostMemory} {others : List Region}
    (outside : Outside lower upper host regions after pieces) (identical : Identical others)
    (layout : ∀ address, ¬(lower ≤ address ∧ address < upper) →
      protAt others address = protAt pieces address)
    (page : ∀ address, ¬(lower ≤ address ∧ address < upper) →
      final.page address = after.page address) :
    Outside lower upper host regions final others := by
  refine ⟨identical,
    fun address apart => (layout address apart).trans (outside.layout address apart),
    fun address wiped => ?_, fun address apart unwiped =>
      (page address apart).trans (outside.kept address apart unwiped)⟩
  obtain ⟨_, _, _, _, _, _, _⟩ := id wiped
  rw [page address (by omega), outside.wiped address wiped]

theorem Outside.keeps_iff (outside : Outside lower upper host regions after pieces)
    (identical : Identical regions) (forward : lower ≤ upper) :
    KeepsOutside lower upper (view host regions) (view after pieces) ↔
      TailsZero host regions lower upper := by
  constructor
  · rintro keeps address wiped byte stood
    obtain ⟨_, _, _, member, _, _, inside⟩ := id wiped
    have apart : ¬(lower ≤ address ∧ address < upper) := by omega
    obtain ⟨prot, mapped⟩ := protAt_isSome member (by omega) inside
    have same := keeps address apart (prot, byte) (by
      rw [view_of_identical identical, stood, mapped]
      rfl)
    rw [view_of_identical outside.identical, outside.wiped address wiped,
      outside.layout address apart, mapped] at same
    exact (congrArg Prod.snd (Option.some.inj same)).symm
  · rintro zero address apart entry seen
    rw [view_of_identical identical] at seen
    rw [view_of_identical outside.identical, outside.layout address apart]
    by_cases wiped : Wiped host regions lower upper address
    · obtain ⟨byte, stood, mapped⟩ := Option.bind_eq_some_iff.1 seen
      rw [zero address wiped byte stood] at mapped
      rw [outside.wiped address wiped]
      exact mapped
    · rw [outside.kept address apart wiped]
      exact seen

section Mapping

variable {space : Space} {host after : HostMemory} {addr size : UInt64} {prot flags : UInt32}
  {content : Option (List UInt8)}

theorem page_readContent {buffer address : Nat} {alignedSize : UInt64}
    (outside : ¬(buffer ≤ address ∧ address < buffer + alignedSize.toNat)) :
    (readContent host (.direct buffer) size alignedSize flags content).page address =
      host.page address := by
  cases content with
  | none => rfl
  | some =>
    rw [readContent]
    split
    · rfl
    refine if_neg ?_
    have bound : (if size > alignedSize then alignedSize else size).toNat ≤ alignedSize.toNat := by
      split
      · exact Nat.le_refl _
      · rename_i short
        exact UInt64.le_iff_toNat_le.1 (UInt64.not_lt.1 short)
    rw [length_take]
    omega

variable (space prot content) in
/-- A fixed mapping in native mode changes nothing outside its range. -/
theorem Outside.placeMapping (outside : Outside lower upper host regions after space.regions)
    (native : space.aotMode = true) (fixed : hasBit flags memMapFixed = true)
    (first : addr.toNat = lower) (last : addr.toNat + (pageAlignUp size).toNat = upper) :
    Outside lower upper host regions
      (AddressSpace.placeMapping space after addr size prot flags content).2.2
      (AddressSpace.placeMapping space after addr size prot flags content).2.1.regions := by
  subst first last
  rw [AddressSpace.placeMapping]
  simp only [mapBuffer, native, fixed, Bool.not_true, Bool.and_false, Bool.false_eq_true, if_false,
    if_true]
  cases node : after.grants after.clock with
  | false =>
    simp only [request, node]
    exact outside.trans outside.identical (fun _ _ => rfl) fun _ _ => rfl
  | true =>
    cases pages : after.grants (after.clock + 1) with
    | false =>
      simp only [request, node, mapFixed, pages, Bool.false_eq_true, if_false]
      exact outside.trans outside.identical (fun _ _ => rfl) fun _ _ => rfl
    | true =>
      simp only [request, node, mapFixed, pages, if_true]
      refine outside.trans ?_ (fun address apart => protAt_regionInsert apart)
        fun address apart => ?_
      · intro region member
        cases mem_cons.1 ((regionInsert_perm _ _).mem_iff.1 member) with
        | inl new =>
          rw [new]
          rfl
        | inr old => exact outside.identical region old
      · rw [page_readContent apart]
        exact if_neg apart

end Mapping

theorem pageAlignDown_eq (aligned : 4096 ∣ addr.toNat) : pageAlignDown addr = addr := by
  rw [← UInt64.toNat_inj, toNat_pageAlignDown, Nat.div_mul_cancel aligned]

theorem pageAlignUp_eq (aligned : 4096 ∣ size.toNat) : pageAlignUp size = size := by
  have bounds := toNat_pageAlignUp_le aligned (Nat.le_refl _) size.toNat_lt
  exact UInt64.toNat_inj.1 (Nat.le_antisymm bounds.2 bounds.1)

/-- Unmapping keeps the bytes outside its range exactly if a region has only zeros behind it. -/
theorem native_unmap_keeps_iff {space : Space} (host : HostMemory) {addr size : UInt64}
    (native : space.aotMode = true) (ordered : Ordered space.regions)
    (identical : Identical space.regions) (addrAligned : 4096 ∣ addr.toNat)
    (sizeAligned : 4096 ∣ size.toNat) (range : addr.toNat + size.toNat ≤ 2 ^ 64) :
    (KeepsOutside addr.toNat (addr.toNat + size.toNat) (space.map host)
        ((memMunmap space host addr size).1.map (memMunmap space host addr size).2) ↔
      TailsZero host space.regions addr.toNat (addr.toNat + size.toNat)) ∧
    ∀ prot flags content, hasBit flags memMapFixed = true →
      ∃ answer next after,
        memMmap space host addr size prot flags content = some (answer, next, after) ∧
        (KeepsOutside addr.toNat (addr.toNat + size.toNat) (space.map host) (next.map after) ↔
          size = 0 ∨ TailsZero host space.regions addr.toNat (addr.toNat + size.toNat)) := by
  have outside : Outside addr.toNat (addr.toNat + size.toNat) host space.regions _ _ :=
    outside_unmapRange ordered identical range
  refine ⟨?_, fun prot flags content fixed => ?_⟩
  · rw [memMunmap, pageAlignDown_eq addrAligned, pageAlignUp_eq sizeAligned, native]
    exact outside.keeps_iff identical (Nat.le_add_right _ _)
  · by_cases empty : size = 0
    · refine ⟨mapFailed, space, host, if_pos empty, ?_⟩
      simp only [empty, true_or, iff_true]
      exact fun _ _ _ seen => seen
    have mapped : memMmap space host addr size prot flags content =
        some (placeMapping
          { space with regions := (unmapRange true host space.regions addr size).1 }
          (unmapRange true host space.regions addr size).2 addr size prot flags content) := by
      rw [memMmap, if_neg empty, if_pos fixed, pageAlignDown_eq addrAligned,
        pageAlignUp_eq sizeAligned, native]
    have placed := outside.placeMapping
      { space with regions := (unmapRange true host space.regions addr size).1 } prot content
      native fixed rfl (by rw [pageAlignUp_eq sizeAligned])
    refine ⟨_, _, _, mapped, ?_⟩
    rw [or_iff_right empty]
    exact placed.keeps_iff identical (Nat.le_add_right _ _)

/-- A native program with a mapping of three pages. -/
def threePages : Space :=
  { memSpaceCreate with
    regions := [{ base := 0x100000000, size := 0x3000, prot := 3, flags := 0x22,
                  host := .direct 0x100000000 }]
    aotMode := true }

/-- A host whose pages are full of sevens. -/
def fullHost : HostMemory :=
  { plainHost with page := fun _ => some 7 }

theorem identical_threePages : Ordered threePages.regions ∧ Identical threePages.regions :=
  ⟨.singleton ⟨by decide, by decide⟩, forall_mem_singleton.2 rfl⟩

/-- The last page can be taken away: no region goes on behind it. -/
theorem native_unmap_last_page :
    threePages.aotMode = true ∧ Ordered threePages.regions ∧ Identical threePages.regions ∧
      KeepsOutside 0x100002000 0x100003000 (threePages.map fullHost)
        ((memMunmap threePages fullHost 0x100002000 0x1000).1.map
          (memMunmap threePages fullHost 0x100002000 0x1000).2) := by
  obtain ⟨ordered, identical⟩ := identical_threePages
  have addrAligned : 4096 ∣ (0x100002000 : UInt64).toNat := by decide
  have sizeAligned : 4096 ∣ (0x1000 : UInt64).toNat := by decide
  refine ⟨rfl, ordered, identical, (native_unmap_keeps_iff fullHost rfl ordered identical
    addrAligned sizeAligned (by decide)).1.2 ?_⟩
  rintro address ⟨_, _, _, member, _, behind, inside⟩
  cases mem_singleton.1 member
  exact absurd inside (Nat.not_lt.2 behind)

/-- The first byte behind an unmapped page in the middle is lost. -/
theorem native_unmap_middle_page :
    threePages.map fullHost 0x100002000 = some (3, 7) ∧
      (memMunmap threePages fullHost 0x100001000 0x1000).1.map
        (memMunmap threePages fullHost 0x100001000 0x1000).2 0x100002000 = some (3, 0) := by
  decide +kernel

end AlpineOnIOS.AddressSpace
