import AlpineOnIOS.AddressSpace.Layout

/-!
# The bytes of an interpreted address space

In interpreter mode every region owns a block.  A change of one region exchanges it for pieces with
blocks of their own, and all other regions keep their bytes; the map from addresses to protections
and bytes changes pointwise.
-/

namespace AlpineOnIOS.AddressSpace

open Foundation Foundation.HostMemory List Option Region Pointer

/-- What a guest sees: the protection and the byte of every mapped address. -/
abbrev PageMap := Nat → Option (UInt32 × UInt8)

namespace PageMap

variable (map : PageMap) (lower : Nat) (upper : Nat)

/-- Take a range away. -/
def unmap : PageMap :=
  fun address => if lower ≤ address ∧ address < upper then none else map address

variable (prot : UInt32)

/-- Change the protection of what is mapped in a range. -/
def protect : PageMap :=
  fun address =>
    if lower ≤ address ∧ address < upper then (map address).map fun entry => (prot, entry.2)
    else map address

/-- Map a range anew. -/
def install (byte : Nat → UInt8) : PageMap :=
  fun address =>
    if lower ≤ address ∧ address < upper then some (prot, byte (address - lower)) else map address

/-- A change that treats the layers of a map one by one. -/
structure Additive (change : PageMap → PageMap) : Prop where
  none : change (fun _ => none) = fun _ => none
  or : ∀ first second, change (fun address => (first address).or (second address)) =
    fun address => (change first address).or (change second address)

theorem additive_unmap : Additive fun map => map.unmap lower upper := by
  refine ⟨?_, fun first second => ?_⟩ <;> funext address <;> simp only [unmap] <;> split <;> rfl

theorem additive_protect : Additive fun map => map.protect lower upper prot := by
  refine ⟨?_, fun first second => ?_⟩ <;> funext address <;> simp only [protect] <;> split
  · rfl
  · rfl
  · cases first address <;> rfl
  · rfl

end PageMap

variable (host : HostMemory)

def Region.byteAt (region : Region) (address : Nat) : Option UInt8 :=
  if region.start ≤ address ∧ address < region.stop then
    host.load (region.host.add (address - region.start))
  else none

/-- The map that a region list denotes. -/
def view (regions : List Region) : PageMap :=
  fun address =>
    regions.findSome? fun region => (region.byteAt host address).map fun byte => (region.prot, byte)

@[simp]
theorem view_nil (address : Nat) : view host [] address = none := rfl

theorem view_cons (region : Region) (rest : List Region) (address : Nat) :
    view host (region :: rest) address =
      ((region.byteAt host address).map fun byte => (region.prot, byte)).or
        (view host rest address) := by
  rw [view, findSome?_cons]
  cases region.byteAt host address <;> rfl

theorem view_append (front back : List Region) (address : Nat) :
    view host (front ++ back) address = (view host front address).or (view host back address) :=
  findSome?_append

/-- All bytes of some regions are the same in two hosts. -/
def Unchanged (after : HostMemory) (regions : List Region) : Prop :=
  ∀ region ∈ regions, ∀ address, region.byteAt after address = region.byteAt host address

variable {regions : List Region} {region : Region}

namespace Unchanged

variable {first second third : HostMemory}

theorem refl (host : HostMemory) (regions : List Region) : Unchanged host host regions :=
  fun _ _ _ => rfl

theorem trans (early : Unchanged first second regions) (late : Unchanged second third regions) :
    Unchanged first third regions :=
  fun region member address => (late region member address).trans (early region member address)

variable (unchanged : Unchanged first second regions)

include unchanged

theorem mono {fewer : List Region} (fewerIn : fewer ⊆ regions) : Unchanged first second fewer :=
  fun region member => unchanged region (fewerIn member)

theorem one (member : region ∈ regions) : Unchanged first second [region] :=
  forall_mem_singleton.mpr (unchanged region member)

theorem view_eq : view second regions = view first regions := by
  funext address
  induction regions with
  | nil => rfl
  | cons region rest induction =>
    rw [view_cons, view_cons, unchanged region mem_cons_self,
      induction (unchanged.mono (subset_cons_self _ _))]

end Unchanged

/-- A region that starts a block which is large enough for it, and releases it. -/
def Owns (host : HostMemory) (region : Region) : Prop :=
  region.external = false ∧ ∃ id block, region.host = .block id 0 ∧ id < host.clock ∧
    host.block id = some block ∧ region.size.toNat ≤ block.size

/-- Regions with a block each. -/
structure Owned (host : HostMemory) (regions : List Region) : Prop where
  owns : ∀ region ∈ regions, Owns host region
  apart : (regions.map Region.host).Nodup

variable {host}

namespace Owned

variable {after : HostMemory} {others : List Region}

theorem perm (owned : Owned host regions) (permuted : regions.Perm others) : Owned host others :=
  ⟨fun region member => owned.owns region (permuted.mem_iff.mpr member),
    (permuted.map _).nodup_iff.mp owned.apart⟩

theorem cons_iff : Owned host (region :: regions) ↔
    Owns host region ∧ (∀ other ∈ regions, region.host ≠ other.host) ∧ Owned host regions := by
  constructor
  · rintro ⟨owns, apart⟩
    rw [forall_mem_cons] at owns
    rw [map_cons, nodup_cons] at apart
    exact ⟨owns.1, fun other member same => apart.1 (mem_map.mpr ⟨other, member, same.symm⟩),
      owns.2, apart.2⟩
  · rintro ⟨owns, different, owned⟩
    refine ⟨forall_mem_cons.mpr ⟨owns, owned.owns⟩, ?_⟩
    rw [map_cons, nodup_cons]
    refine ⟨fun member => ?_, owned.apart⟩
    obtain ⟨other, inRegions, same⟩ := mem_map.mp member
    exact different other inRegions same.symm

theorem congr (owned : Owned host regions) (clock : host.clock ≤ after.clock)
    (same : ∀ region ∈ regions, ∀ id, region.host = .block id 0 → id < host.clock →
      after.block id = host.block id) :
    Owned after regions ∧ Unchanged host after regions := by
  refine ⟨⟨fun region member => ?_, owned.apart⟩, fun region member address => ?_⟩
  · obtain ⟨internal, id, block, pointer, old, held, large⟩ := owned.owns region member
    exact ⟨internal, id, block, pointer, Nat.lt_of_lt_of_le old clock,
      (same region member id pointer old).trans held, large⟩
  · obtain ⟨_, id, _, pointer, old, _, _⟩ := owned.owns region member
    rw [byteAt, byteAt, pointer, add, load_congr (same region member id pointer old)]

theorem asked (owned : Owned host regions) :
    Owned host.asked regions ∧ Unchanged host host.asked regions :=
  owned.congr (Nat.le_succ _) fun _ _ _ _ _ => rfl

theorem free (owned : Owned host (region :: regions)) :
    Owned (host.free region.host) regions ∧ Unchanged host (host.free region.host) regions := by
  obtain ⟨⟨_, id, _, pointer, _, _, _⟩, different, rest⟩ := cons_iff.mp owned
  refine rest.congr (Nat.le_refl _) fun other member otherId otherPointer _ => ?_
  have apart : otherId ≠ id := by
    rintro rfl
    exact different other member (pointer.trans otherPointer.symm)
  rw [pointer]
  exact if_neg apart

theorem shorten (owned : Owned host (region :: regions)) {shorter : Region}
    (buffer : shorter.host = region.host) (internal : shorter.external = false)
    (size : shorter.size.toNat ≤ region.size.toNat) : Owned host (shorter :: regions) := by
  obtain ⟨⟨_, id, block, pointer, old, held, large⟩, different, rest⟩ := cons_iff.mp owned
  exact cons_iff.mpr ⟨⟨internal, id, block, buffer.trans pointer, old, held, size.trans large⟩,
    buffer ▸ different, rest⟩

end Owned

/-- A piece shows the bytes that a region had at its addresses. -/
def Copies (host : HostMemory) (region : Region) (after : HostMemory) (piece : Region) : Prop :=
  ∀ address, piece.byteAt after address =
    if piece.start ≤ address ∧ address < piece.stop then region.byteAt host address else none

variable (lower : UInt64) (upper : UInt64) (prot : UInt32) (flags : UInt32) (buffer : Pointer)

/-- The region between two addresses. -/
def slice : Region :=
  { base := lower, size := upper - lower, prot, flags, host := buffer }

@[simp]
theorem start_slice : (slice lower upper prot flags buffer).start = lower.toNat :=
  rfl

theorem base_slice : (slice lower upper prot flags buffer).base = lower :=
  rfl

@[simp]
theorem host_slice : (slice lower upper prot flags buffer).host = buffer :=
  rfl

@[simp]
theorem prot_slice : (slice lower upper prot flags buffer).prot = prot :=
  rfl

variable {lower upper}

theorem stop_slice (below : lower.toNat ≤ upper.toNat) (prot flags : UInt32) (buffer : Pointer) :
    (slice lower upper prot flags buffer).stop = upper.toNat :=
  toNat_add_toNat_sub below

variable {flags}

theorem Owned.copied (owned : Owned host regions) (generous : host.Generous)
    (member : region ∈ regions) (first : region.start ≤ lower.toNat)
    (below : lower.toNat ≤ upper.toNat) (last : upper.toNat ≤ region.stop) (prot : UInt32)
    (internal : hasBit flags memMapExternal = false) :
    let piece := slice lower upper prot flags (.block host.clock 0)
    let after := host.copied (region.host.add (lower - region.base).toNat) (upper - lower).toNat
    Owned after (piece :: regions) ∧ Unchanged host after regions ∧
      Copies host region after piece := by
  intro piece after
  obtain ⟨_, id, block, pointer, old, held, _⟩ := owned.owns region member
  have offset : region.start + (lower - region.base).toNat = lower.toNat :=
    toNat_add_toNat_sub first
  have length := toNat_add_toNat_sub below
  obtain ⟨rest, unchanged⟩ : Owned after regions ∧ Unchanged host after regions := by
    refine owned.congr ?_ fun _ _ other _ otherOld => generous.block_copied otherOld.ne _ _
    rw [generous.clock_copied]
    exact Nat.le_succ _
  have filled := generous.block_copied_self old.ne (lower - region.base).toNat (upper - lower).toNat
  have source : region.host.add (lower - region.base).toNat =
      .block id (lower - region.base).toNat := by
    rw [pointer, add, Nat.zero_add]
  rw [← source] at filled
  refine ⟨Owned.cons_iff.mpr ⟨⟨internal, host.clock, _, rfl, ?_, filled, Nat.le_refl _⟩, ?_, rest⟩,
    unchanged, fun address => ?_⟩
  · rw [generous.clock_copied]
    exact Nat.lt_succ_self _
  · intro other inRegions same
    obtain ⟨_, _, _, otherPointer, _, _⟩ := owned.owns other inRegions
    rw [otherPointer, host_slice, Pointer.block.injEq] at same
    omega
  · rw [byteAt, stop_slice below]
    split
    · rename_i inPiece
      rw [start_slice] at inPiece
      have ends : region.stop = region.start + region.size.toNat := rfl
      have inside : address - lower.toNat < (upper - lower).toNat := by omega
      have within : address - region.start < block.size := by omega
      rw [byteAt, if_pos (by omega), pointer, start_slice, host_slice, add, add, load_block, filled]
      simp only [bind_some, Nat.zero_add, inside, if_true, load_block, held]
      rw [show (lower - region.base).toNat + (address - lower.toNat) =
        address - region.start by omega, if_pos within]
      rfl
    · rfl

namespace Copies

variable {middle after : HostMemory} {piece : Region}

theorem later (copies : Copies host region middle piece)
    (unchanged : Unchanged middle after [piece]) : Copies host region after piece :=
  fun address => (unchanged piece mem_cons_self address).trans (copies address)

theorem earlier (unchanged : Unchanged host middle [region]) (copies : Copies middle region after piece) :
    Copies host region after piece := by
  intro address
  rw [copies address, unchanged region mem_cons_self address]

theorem view_cons (copies : Copies host region after piece) (rest : List Region) (address : Nat) :
    view after (piece :: rest) address =
      (if piece.start ≤ address ∧ address < piece.stop then
        (region.byteAt host address).map fun byte => (piece.prot, byte) else none).or
        (view after rest address) := by
  rw [AddressSpace.view_cons, copies address]
  split <;> rfl

theorem of_shorter (based : piece.base = region.base) (buffer : piece.host = region.host)
    (size : piece.size.toNat ≤ region.size.toNat) : Copies host region host piece := by
  intro address
  have starts : piece.start = region.start := congrArg UInt64.toNat based
  have ends : piece.stop = region.start + piece.size.toNat := by rw [stop, based, start]
  have last : region.stop = region.start + region.size.toNat := rfl
  rw [byteAt, byteAt, buffer, starts]
  split
  · rw [if_pos (by omega)]
  · rfl

end Copies

/-- Regions are exchanged for others, which changes what they show and nothing else. -/
structure Acts (change : PageMap → PageMap) (others : List Region) (host : HostMemory)
    (old : List Region) (after : HostMemory) (new : List Region) : Prop where
  owned : Owned after (new ++ others)
  unchanged : Unchanged host after others
  shows : view after new = change (view host old)

variable {change : PageMap → PageMap} {after : HostMemory} {others : List Region}
    {pieces : HostMemory → Region → List Region × HostMemory}

theorem acts_rebuild (additive : PageMap.Additive change)
    (later : ∀ host region, Later host (pieces host region).2)
    (acts : ∀ host, host.Generous → ∀ region ∈ regions, ∀ others, Owned host (region :: others) →
      Acts change others host [region] (pieces host region).2 (pieces host region).1)
    (generous : host.Generous) (owned : Owned host (regions ++ others)) :
    Acts change others host regions (rebuild pieces host regions).2
      (rebuild pieces host regions).1 := by
  induction regions generalizing host others with
  | nil => exact ⟨owned, .refl _ _, additive.none.symm⟩
  | cons region rest induction =>
    have first := acts host generous region mem_cons_self (rest ++ others) owned
    have second := induction
      (fun host generous region member =>
        acts host generous region (mem_cons_of_mem _ member))
      ((later host region).generous generous) (first.owned.perm (perm_append_comm_assoc _ _ _))
    rw [rebuild]
    refine ⟨?_, ?_, ?_⟩
    · rw [append_assoc]
      exact second.owned.perm (perm_append_comm_assoc _ _ _)
    · exact (first.unchanged.mono (subset_append_right _ _)).trans
        (second.unchanged.mono (subset_append_right _ _))
    · have mine := (second.unchanged.mono (subset_append_left _ _)).view_eq.trans first.shows
      have theirs := second.shows
      rw [(first.unchanged.mono (subset_append_left _ _)).view_eq] at theirs
      have split : view host (region :: rest) =
          fun address => (view host [region] address).or (view host rest address) :=
        funext (view_append host [region] rest)
      rw [split, additive.or, ← mine, ← theirs]
      exact funext (view_append _ _ _)

section Interpreted

variable {addr finish : UInt64} {prot : UInt32}

theorem view_singleton (host : HostMemory) (region : Region) (address : Nat) :
    view host [region] address =
      (region.byteAt host address).map fun byte => (region.prot, byte) := by
  rw [view_cons, view_nil, or_none]

variable {address : Nat}

theorem byteAt_eq_none (outside : ¬(region.start ≤ address ∧ address < region.stop)) :
    region.byteAt host address = none :=
  if_neg outside

section Shows

variable {after : HostMemory} {pieces : List Region}
  (copies : ∀ piece ∈ pieces, Copies host region after piece)

include copies

/-- The pieces of a region show its bytes at the addresses that they cover. -/
theorem view_of_copies
    (same : ∀ piece ∈ pieces, piece.start ≤ address → address < piece.stop → piece.prot = prot) :
    view after pieces address =
      if ∃ piece ∈ pieces, piece.start ≤ address ∧ address < piece.stop then
        (region.byteAt host address).map fun byte => (prot, byte)
      else none := by
  induction pieces with
  | nil => simp
  | cons piece rest induction =>
    rw [forall_mem_cons] at copies same
    rw [copies.1.view_cons, induction copies.2 same.2]
    by_cases here : piece.start ≤ address ∧ address < piece.stop
    · have found : ∃ other ∈ piece :: rest, other.start ≤ address ∧ address < other.stop :=
        ⟨piece, mem_cons_self, here⟩
      rw [if_pos here, if_pos found, same.1 here.1 here.2]
      split
      · exact or_self
      · exact or_none
    · rw [if_neg here, none_or]
      simp [here]

variable {lower upper : Nat}

theorem shows_unmap (same : ∀ piece ∈ pieces, piece.prot = region.prot)
    (covers : ∀ address, region.start ≤ address → address < region.stop →
      ((∃ piece ∈ pieces, piece.start ≤ address ∧ address < piece.stop) ↔
        ¬(lower ≤ address ∧ address < upper))) :
    view after pieces = (view host [region]).unmap lower upper := by
  funext address
  rw [view_of_copies copies fun piece member _ _ => same piece member, PageMap.unmap, view_singleton]
  by_cases inside : region.start ≤ address ∧ address < region.stop
  · simp only [covers address inside.1 inside.2, ite_not]
  · simp [byteAt_eq_none inside]

theorem shows_protect
    (changed : ∀ piece ∈ pieces, ∀ address, piece.start ≤ address → address < piece.stop →
      piece.prot = if lower ≤ address ∧ address < upper then prot else region.prot)
    (covers : ∀ address, region.start ≤ address → address < region.stop →
      ∃ piece ∈ pieces, piece.start ≤ address ∧ address < piece.stop) :
    view after pieces = (view host [region]).protect lower upper prot := by
  funext address
  rw [view_of_copies copies fun piece member => changed piece member address, PageMap.protect,
    view_singleton]
  by_cases inside : region.start ≤ address ∧ address < region.stop
  · rw [if_pos (covers address inside.1 inside.2)]
    cases region.byteAt host address <;> split <;> rfl
  · simp [byteAt_eq_none inside]

end Shows

theorem size_front (lower : region.start ≤ addr.toNat) (upper : addr.toNat ≤ region.stop) :
    (addr - region.base).toNat ≤ region.size.toNat := by
  have ends : region.start + (addr - region.base).toNat = addr.toNat := toNat_add_toNat_sub lower
  have last : region.stop = region.start + region.size.toNat := rfl
  omega

theorem external_clear (flags : UInt32) :
    hasBit (flags &&& ~~~memMapExternal) memMapExternal = false := by
  rw [hasBit, UInt32.and_assoc]
  simp

theorem splitRegion_eq (generous : host.Generous) :
    splitRegion false host region addr finish =
      (.split (slice region.base addr region.prot region.flags region.host)
        (slice finish region.rend region.prot (region.flags &&& ~~~memMapExternal)
          (.block host.asked.clock 0)),
        host.asked.copied (region.host.add (finish - region.base).toNat)
          (region.rend - finish).toNat) := by
  rw [splitRegion, generous.request_eq]
  simp only [tailBuffer, copyOut_eq (host.later_asked.generous generous)]
  rfl

theorem trimStart_eq (generous : host.Generous) (internal : region.external = false) :
    trimStart false host region finish =
      (.keep (slice finish region.rend region.prot region.flags (.block host.clock 0)),
        (host.copied (region.host.add (finish - region.base).toNat)
          (region.rend - finish).toNat).free region.host) := by
  rw [trimStart, size_sub_trim, internal, copyOut_eq generous]
  rfl

/-- Pieces with bytes of a region, while `kept` is what is still there of the region itself. -/
structure Carved (host : HostMemory) (region : Region) (others : List Region)
    (after : HostMemory) (kept pieces : List Region) : Prop where
  generous : after.Generous
  owned : Owned after (kept ++ (pieces ++ others))
  unchanged : Unchanged host after (kept ++ others)
  copies : ∀ piece ∈ pieces, Copies host region after piece

namespace Carved

variable {middle after : HostMemory} {pieces kept : List Region}

theorem start (owned : Owned host (region :: others)) (generous : host.Generous) :
    Carved host region others host [region] [] :=
  ⟨generous, owned, .refl _ _, by simp⟩

theorem acts (carved : Carved host region others after [] pieces)
    (shows : (∀ piece ∈ pieces, Copies host region after piece) →
      view after pieces = change (view host [region])) :
    Acts change others host [region] after pieces :=
  ⟨carved.owned, carved.unchanged, shows carved.copies⟩

theorem perm (carved : Carved host region others after kept pieces) {same : List Region}
    (permuted : pieces.Perm same) : Carved host region others after kept same :=
  ⟨carved.generous, carved.owned.perm ((permuted.append_right others).append_left kept),
    carved.unchanged, fun piece member => carved.copies piece (permuted.mem_iff.mpr member)⟩

variable (carved : Carved host region others middle [region] pieces)

include carved

theorem internal : region.external = false := (carved.owned.owns region mem_cons_self).1

theorem move (later : Later middle after) (fewer : kept ⊆ [region])
    (moved : Owned after (kept ++ (pieces ++ others)) ∧
      Unchanged middle after (kept ++ (pieces ++ others))) :
    Carved host region others after kept pieces := by
  refine ⟨later.generous carved.generous, moved.1, ?_, fun piece member => ?_⟩
  · refine (carved.unchanged.mono (append_subset.mpr ⟨?_, ?_⟩)).trans (moved.2.mono ?_)
    · exact fun piece member => mem_append_left _ (fewer member)
    · exact subset_append_right _ _
    · exact append_subset.mpr ⟨subset_append_left _ _, by simp⟩
  · exact (carved.copies piece member).later (moved.2.one (by simp [member]))

theorem asked : Carved host region others middle.asked [region] pieces :=
  carved.move middle.later_asked (Subset.refl _) carved.owned.asked

theorem freed : Carved host region others (middle.free region.host) [] pieces :=
  carved.move (middle.later_free _) (nil_subset _) carved.owned.free

/-- The region itself becomes the first piece. -/
theorem shortened (piece : Region) (based : piece.base = region.base)
    (buffer : piece.host = region.host) (flags : piece.flags = region.flags)
    (size : piece.size.toNat ≤ region.size.toNat) :
    Carved host region others middle [] (piece :: pieces) :=
  ⟨carved.generous, carved.owned.shorten buffer (by rw [external, flags]; exact carved.internal) size,
    carved.unchanged.mono (subset_cons_self _ _),
    forall_mem_cons.mpr ⟨.earlier (carved.unchanged.one mem_cons_self) (.of_shorter based buffer size),
      carved.copies⟩⟩

section

variable (first : region.start ≤ lower.toNat) (below : lower.toNat ≤ upper.toNat)
  (last : upper.toNat ≤ region.stop) (prot : UInt32)

include first below last

theorem copied (internal : hasBit flags memMapExternal = false) :
    Carved host region others
      (middle.copied (region.host.add (lower - region.base).toNat) (upper - lower).toNat) [region]
      (slice lower upper prot flags (.block middle.clock 0) :: pieces) := by
  obtain ⟨more, unchanged, copies⟩ :=
    carved.owned.copied carved.generous mem_cons_self first below last prot internal
  have moved := carved.move (middle.later_copied _ _) (Subset.refl _)
    ⟨(Owned.cons_iff.mp more).2.2, unchanged⟩
  exact ⟨moved.generous, more.perm (.swap ..), moved.unchanged,
    forall_mem_cons.mpr ⟨.earlier (carved.unchanged.one mem_cons_self) copies, moved.copies⟩⟩

theorem pieceBuffer : ∃ buffer after,
    pieceBuffer false middle region { region with base := lower, size := upper - lower, prot } =
      (some (slice lower upper prot region.flags buffer), after) ∧
    Carved host region others after [region]
      (slice lower upper prot region.flags buffer :: pieces) := by
  refine ⟨_, _, ?_, carved.copied first below last prot carved.internal⟩
  rw [AddressSpace.pieceBuffer, copyOut_eq carved.generous]
  rfl

end

theorem shrinkBuffer (first : region.start ≤ upper.toNat) (last : upper.toNat ≤ region.stop)
    (prot : UInt32) :
    ∃ buffer after, shrinkBuffer false middle region (upper - region.base) = (buffer, after) ∧
      Carved host region others after []
        (slice region.base upper prot region.flags buffer :: pieces) := by
  refine ⟨_, _, ?_, (carved.copied (Nat.le_refl _) first last prot carved.internal).freed⟩
  rw [AddressSpace.shrinkBuffer, copyOut_eq carved.generous]
  simp

end Carved

theorem acts_unmapPieces (generous : host.Generous) (fits : region.Fits)
    (owned : Owned host (region :: others)) :
    Acts (fun map => map.unmap addr.toNat finish.toNat) others host [region]
      (unmapPieces false addr finish host region).2
      (unmapPieces false addr finish host region).1 := by
  have carved := Carved.start owned generous
  have ends := fits.toNat_rend
  have cut : CutCase false addr finish host region _ := cutRegion_cases fits
  rw [unmapPieces]
  generalize cutRegion false addr finish host region = result at cut
  cases cut with
  | apart =>
    refine (carved.shortened region rfl rfl rfl (Nat.le_refl _)).acts fun copies =>
      shows_unmap copies (by simp) fun address _ _ => ?_
    simp only [mem_singleton, exists_eq_left]
    omega
  | covered =>
    have freed : regionFreeHost false host region = host.free region.host := by
      simp [regionFreeHost, carved.internal]
    rw [freed]
    refine carved.freed.acts fun copies => shows_unmap copies (by simp) fun address _ _ => ?_
    simp only [not_mem_nil, false_and, exists_false, false_iff, not_not]
    omega
  | around lower upper addrInside finishInside =>
    have frontStop := stop_slice lower.le region.prot region.flags region.host
    have tailStop := stop_slice (ends ▸ upper.le) region.prot
      (region.flags &&& ~~~memMapExternal) (.block host.asked.clock 0)
    rw [splitRegion_eq generous]
    refine ((carved.asked.copied finishInside.le (ends ▸ upper.le) ends.le region.prot
      (external_clear region.flags)).shortened (slice region.base addr region.prot region.flags
        region.host) rfl rfl rfl (size_front lower.le addrInside.le)).acts fun copies =>
      shows_unmap copies (by simp) fun address _ _ => ?_
    simp only [mem_cons, not_mem_nil, or_false, exists_eq_or_imp, exists_eq_left,
      start_slice, frontStop, tailStop, ends, toNat_base]
    omega
  | atEnd lower inside =>
    have frontStop := stop_slice lower.le region.prot region.flags region.host
    refine (carved.shortened (slice region.base addr region.prot region.flags region.host) rfl rfl
      rfl (size_front lower.le inside.le)).acts fun copies => shows_unmap copies (by simp) fun address _ _ => ?_
    simp only [mem_singleton, exists_eq_left, start_slice, frontStop, toNat_base]
    omega
  | atStart lower inside upper =>
    have tailStop := stop_slice (ends ▸ upper.le) region.prot region.flags (.block host.clock 0)
    rw [trimStart_eq generous carved.internal]
    refine (carved.copied inside.le (ends ▸ upper.le) ends.le region.prot
      carved.internal).freed.acts fun copies =>
      shows_unmap copies (by simp) fun address _ _ => ?_
    simp only [mem_singleton, exists_eq_left, start_slice, tailStop, ends]
    omega

theorem acts_protectInside (owned : Owned host (region :: others)) (generous : host.Generous)
    (fits : region.Fits) (lower : region.start < addr.toNat) (upper : addr.toNat < region.stop)
    (forward : addr.toNat < finish.toNat) :
    ∃ left ahead after,
      protectInside false prot host region addr (region.overlapEnd finish) =
        (some (left, ahead), after) ∧
      Acts (fun map => map.protect addr.toNat finish.toNat prot) others host [region] after
        (left ++ ahead) := by
  have ends := fits.toNat_rend
  have last : (region.overlapEnd finish).toNat = min finish.toNat region.stop :=
    fits.toNat_overlapEnd
  have below : addr.toNat ≤ (region.overlapEnd finish).toNat := by omega
  have within : (region.overlapEnd finish).toNat ≤ region.stop := by omega
  obtain ⟨_, _, made, carved⟩ :=
    (Carved.start owned generous).asked.pieceBuffer lower.le below within prot
  rw [protectInside, generous.request_eq]
  simp only [made]
  have frontStop (buffer : Pointer) :=
    stop_slice lower.le region.prot region.flags buffer
  have middleStop (buffer : Pointer) := stop_slice below prot region.flags buffer
  split
  · rename_i beyond
    have tailStop (buffer : Pointer) :=
      stop_slice (UInt64.lt_iff_toNat_lt.mp beyond).le region.prot region.flags buffer
    obtain ⟨_, _, tailMade, both⟩ := carved.asked.pieceBuffer (lower.le.trans below)
      (UInt64.lt_iff_toNat_lt.mp beyond).le ends.le region.prot
    obtain ⟨_, _, shrunk, all⟩ := both.shrinkBuffer lower.le upper.le region.prot
    rw [carved.generous.request_eq]
    simp only [tailMade, finishInside, base_slice, shrunk]
    refine ⟨_, _, _, rfl, (all.perm ((List.Perm.swap _ _ _).cons _)).acts fun copies =>
      shows_protect copies ?_ fun address _ _ => ?_⟩
    · simp only [forall_mem_cons, start_slice, prot_slice, frontStop, middleStop, tailStop]
      refine ⟨fun address _ _ => ?_, fun address _ _ => ?_, fun address _ _ => ?_, by simp⟩
      · rw [if_neg (by omega)]
      · rw [if_pos (by omega)]
      · rw [if_neg (by omega)]
    · simp only [mem_cons, not_mem_nil, or_false, exists_eq_or_imp, exists_eq_left,
        start_slice, frontStop, middleStop, tailStop, toNat_base]
      omega
  · rename_i notBeyond
    have atEnd : (region.overlapEnd finish).toNat = region.stop := by
      rw [UInt64.lt_iff_toNat_lt, ends] at notBeyond
      omega
    obtain ⟨_, _, shrunk, all⟩ := carved.shrinkBuffer lower.le upper.le region.prot
    simp only [finishInside, base_slice, shrunk]
    refine ⟨_, _, _, rfl, all.acts fun copies =>
      shows_protect copies ?_ fun address _ _ => ?_⟩
    · simp only [forall_mem_cons, start_slice, prot_slice, frontStop, middleStop]
      refine ⟨fun address _ _ => ?_, fun address _ _ => ?_, by simp⟩
      · rw [if_neg (by omega)]
      · rw [if_pos (by omega)]
    · simp only [mem_cons, not_mem_nil, or_false, exists_eq_or_imp, exists_eq_left,
        start_slice, frontStop, middleStop, toNat_base]
      omega

theorem acts_protectStart (owned : Owned host (region :: others)) (generous : host.Generous)
    (fits : region.Fits) (lower : addr.toNat ≤ region.start) (inside : region.start < finish.toNat)
    (upper : finish.toNat < region.stop) :
    ∃ left after, protectStart false prot host region finish = (some (left, []), after) ∧
      Acts (fun map => map.protect addr.toNat finish.toNat prot) others host [region] after left := by
  have ends := fits.toNat_rend
  obtain ⟨second, _, made, carved⟩ := (Carved.start owned generous).asked.pieceBuffer inside.le
    (ends ▸ upper.le) ends.le region.prot
  obtain ⟨first, after, shrunk, both⟩ := carved.shrinkBuffer inside.le upper.le prot
  have frontStop := stop_slice inside.le prot region.flags first
  have tailStop := stop_slice (ends ▸ upper.le) region.prot region.flags second
  refine ⟨_, after, ?_, both.acts fun copies => shows_protect copies ?_ fun address _ _ => ?_⟩
  · rw [protectStart, generous.request_eq]
    simp only [made, shrunk]
    rfl
  · simp only [forall_mem_cons, start_slice, prot_slice, frontStop, tailStop, toNat_base]
    refine ⟨fun address _ _ => ?_, fun address _ _ => ?_, by simp⟩
    · rw [if_pos (by omega)]
    · rw [if_neg (by omega)]
  · simp only [mem_cons, not_mem_nil, or_false, exists_eq_or_imp, exists_eq_left,
      start_slice, frontStop, tailStop, ends, toNat_base]
    omega

theorem acts_protectPieces (generous : host.Generous) (fits : region.Fits)
    (forward : region.start < addr.toNat → addr.toNat < region.stop → addr.toNat < finish.toNat)
    (owned : Owned host (region :: others)) :
    Acts (fun map => map.protect addr.toNat finish.toNat prot) others host [region]
      (protectPieces false addr finish prot host region).2
      (protectPieces false addr finish prot host region).1 := by
  have carved := Carved.start owned generous
  have changed : ProtectCase false addr finish prot host region _ := protectRegion_cases fits
  rw [protectPieces]
  generalize protectRegion false addr finish prot host region = result at changed
  cases changed with
  | apart =>
    refine (carved.shortened region rfl rfl rfl (Nat.le_refl _)).acts fun copies =>
      shows_protect copies ?_ fun address lower upper => ⟨region, mem_cons_self, lower, upper⟩
    refine forall_mem_singleton.mpr fun address _ _ => ?_
    rw [if_neg (by omega)]
  | covered lower upper =>
    refine (carved.shortened { region with prot } rfl rfl rfl (Nat.le_refl _)).acts fun copies =>
      shows_protect copies ?_ fun address first last => ⟨_, mem_cons_self, first, last⟩
    refine forall_mem_singleton.mpr fun address first last => ?_
    exact (if_pos ⟨lower.trans first, Nat.lt_of_lt_of_le last upper⟩).symm
  | inside lower upper =>
    obtain ⟨_, _, _, split, acts⟩ :=
      acts_protectInside owned generous fits lower upper (forward lower upper)
    rw [split]
    exact acts
  | atStart lower inside upper =>
    obtain ⟨_, _, split, acts⟩ := acts_protectStart owned generous fits lower inside upper
    rw [split]
    simpa only [append_nil] using acts

theorem view_regionInsert
    (vacant : ∀ other ∈ regions, other.stop ≤ region.start ∨ region.stop ≤ other.start)
    (address : Nat) :
    view host (regionInsert region regions) address =
      (view host [region] address).or (view host regions address) := by
  induction regions with
  | nil => simp [regionInsert]
  | cons other rest induction =>
    rw [forall_mem_cons] at vacant
    rw [regionInsert]
    split
    · exact view_append host [region] (other :: rest) address
    rw [view_cons, induction vacant.2, view_cons host other rest, view_singleton]
    by_cases inside : region.start ≤ address ∧ address < region.stop
    · have outside : other.byteAt host address = none := byteAt_eq_none (by omega)
      rw [outside]
      rfl
    · rw [byteAt_eq_none inside]
      rfl

/-- The bytes of a fresh mapping: those of the file, and zero behind them. -/
def contentByte (size : UInt64) (flags : UInt32) (content : Option (List UInt8)) (index : Nat) :
    UInt8 :=
  match content with
  | none => 0
  | some bytes => if hasBit flags memMapAnonymous then 0 else (bytes.take size.toNat).getD index 0

variable {size alignedSize : UInt64} {content : Option (List UInt8)}

theorem later_readContent (buffer : Pointer) :
    Later host (readContent host buffer size alignedSize flags content) := by
  cases content with
  | none => exact .refl _
  | some =>
    simp only [readContent]
    split
    · exact .refl _
    · exact host.later_store _ _ _

theorem block_readContent_of_ne {id other : Nat} (different : other ≠ id) :
    (readContent host (.block id 0) size alignedSize flags content).block other =
      host.block other := by
  cases content with
  | none => rfl
  | some =>
    simp only [readContent]
    split
    · rfl
    · exact block_store_of_ne host different _ _ _

theorem block_readContent_self {id blockSize : Nat} (short : size.toNat ≤ alignedSize.toNat)
    (zero : host.block id = some { size := blockSize, byte := fun _ => 0 }) :
    (readContent host (.block id 0) size alignedSize flags content).block id =
      some { size := blockSize, byte := contentByte size flags content } := by
  have notLarger : ¬size > alignedSize :=
    UInt64.not_lt.mpr (UInt64.le_iff_toNat_le.mpr short)
  cases content with
  | none => exact zero
  | some bytes =>
    simp only [readContent, if_neg notLarger]
    split
    · rename_i anonymous
      have none : contentByte size flags (some bytes) = fun _ => 0 :=
        funext fun index => if_pos anonymous
      rw [zero, none]
    rename_i backed
    have read : contentByte size flags (some bytes) = ((bytes.take size.toNat).getD · 0) :=
      funext fun index => if_neg backed
    rw [block_store_self, zero, read]
    simp only [map_some, some.injEq, Block.mk.injEq, true_and]
    funext index
    split
    · rfl
    · rename_i beyond
      rw [getD_eq_default _ _ (Nat.le_of_not_lt beyond)]

variable (region flags content) in
theorem Owned.fresh (owned : Owned host regions) (generous : host.Generous)
    (buffer : region.host = .block host.clock 0) (internal : region.external = false)
    (short : size.toNat ≤ region.size.toNat) :
    let after := readContent (host.calloc region.size.toNat).2 (.block host.clock 0) size region.size
      flags content
    Owned after (region :: regions) ∧ Unchanged host after regions ∧
      ∀ address, region.byteAt after address =
        if region.start ≤ address ∧ address < region.stop then
          some (contentByte size flags content (address - region.start))
        else none := by
  intro after
  have zero := generous.block_calloc region.size.toNat host.clock
  rw [if_pos rfl] at zero
  have filled : after.block host.clock = _ := block_readContent_self short zero
  have clock : host.clock + 1 ≤ after.clock := by
    have later : Later (host.calloc region.size.toNat).2 after := later_readContent _
    exact generous.clock_calloc region.size.toNat ▸ later.clock
  obtain ⟨rest, unchanged⟩ : Owned after regions ∧ Unchanged host after regions := by
    refine owned.congr (by omega) fun _ _ other _ old => ?_
    rw [block_readContent_of_ne old.ne, generous.block_calloc, if_neg old.ne]
  refine ⟨Owned.cons_iff.mpr ⟨⟨internal, host.clock, _, buffer, by omega, filled, Nat.le_refl _⟩, ?_,
    rest⟩, unchanged, fun address => ?_⟩
  · intro other member same
    obtain ⟨_, _, _, otherPointer, _, _⟩ := owned.owns other member
    rw [buffer, otherPointer, block.injEq] at same
    omega
  · rw [byteAt]
    split
    · have ends : region.stop = region.start + region.size.toNat := rfl
      have inside : address - region.start < region.size.toNat := by omega
      rw [buffer, add, Nat.zero_add, load_block, filled]
      simp only [bind_some, inside, if_true]
    · rfl

end Interpreted

end AlpineOnIOS.AddressSpace
