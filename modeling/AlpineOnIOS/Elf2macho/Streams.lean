import AlpineOnIOS.Elf2macho.Dynamic

/-!
# Reading the streams back

The loader runs the bind and rebase streams as opcode programs.  Running what the converter wrote
gives back the bind sites, all with library ordinal 1 and addend 0, and the rebased slots in
increasing order.
-/

namespace AlpineOnIOS.Elf2macho

open Foundation List Dyld BindSite

theorem decode_writeUleb_append (value : Nat) (rest : List UInt8) :
    Uleb.decode (writeUleb value ++ rest) = some (value, rest) := by
  rw [writeUleb_eq, Uleb.decode_encode_append]

variable {segIdx : UInt8}

theorem segment_opcodes (index : segIdx = 0 ∨ segIdx = 1) :
    ((0x70 ||| (segIdx &&& 0xf)) &&& 0xf0).toNat = 0x70 ∧
      ((0x70 ||| (segIdx &&& 0xf)) &&& 0x0f).toNat = segIdx.toNat ∧
        ((0x20 ||| (segIdx &&& 0xf)) &&& 0xf0).toNat = 0x20 ∧
          ((0x20 ||| (segIdx &&& 0xf)) &&& 0x0f).toNat = segIdx.toNat := by
  rcases index with rfl | rfl <;> decide

/-- The bind that the loader performs for a site. -/
def BindSite.bind (segIdx : UInt8) (site : BindSite) : Dyld.Bind :=
  { ordinal := 1
    symbol := site.symbol
    weakImport := site.weak
    slot := { segment := segIdx.toNat, offset := site.segOff.toNat }
    addend := 0 }

variable {state : Dyld.BindState}

/-- The opcodes of one site, run with library ordinal 1 and addend 0. -/
theorem bindRecords_encode (index : segIdx = 0 ∨ segIdx = 1) (fuel : Nat)
    (ordinal : state.ordinal = 1) (addend : state.addend = 0) (site : BindSite)
    (rest : List UInt8) :
    ∃ next : Dyld.BindState, next.ordinal = 1 ∧ next.addend = 0 ∧
      bindRecords (fuel + 3) state (site.encode segIdx ++ rest) =
        site.bind segIdx :: bindRecords fuel next rest := by
  refine ⟨{ state with
    symbol := site.symbol, weakImport := site.weak,
    slot := { segment := segIdx.toNat, offset := site.segOff.toNat + 8 } }, ordinal, addend, ?_⟩
  have flags : ((0x40 ||| if site.weak then 1 else 0 : UInt8) &&& 0xf0).toNat = 0x40 ∧
      decide (((0x40 ||| if site.weak then 1 else 0 : UInt8) &&& 0x0f).toNat % 2 = 1) =
        site.weak := by
    cases site.weak <;> decide
  obtain ⟨segment, operand, -⟩ := segment_opcodes index
  rw [encode, cons_append, append_assoc, cons_append, append_assoc, bindRecords]
  simp only [flags, CString.parse_stored_append]
  rw [cons_append, bindRecords]
  simp only [segment, operand, decode_writeUleb_append]
  rw [singleton_append, bindRecords, BindSite.bind, ordinal, addend]
  rfl

theorem length_encode_site (segIdx : UInt8) (site : BindSite) :
    3 ≤ (site.encode segIdx).length := by
  rw [encode]
  simp only [length_append, length_cons, CString.length_stored]
  omega

variable {fuel : Nat}

theorem bindRecords_sites (index : segIdx = 0 ∨ segIdx = 1) (sites : List BindSite)
    (ordinal : state.ordinal = 1) (addend : state.addend = 0)
    (enough : (sites.flatMap (encode segIdx)).length ≤ fuel) :
    bindRecords fuel state (sites.flatMap (encode segIdx) ++ [0x00]) =
      sites.map (bind segIdx) := by
  induction sites generalizing fuel state with
  | nil => cases fuel <;> rfl
  | cons site rest induction =>
    have longer := length_encode_site segIdx site
    rw [flatMap_cons, length_append] at enough
    obtain ⟨fuel, rfl⟩ : ∃ less, fuel = less + 3 := ⟨fuel - 3, by omega⟩
    obtain ⟨_, next_ordinal, next_addend, step⟩ :=
      bindRecords_encode index fuel ordinal addend site
        (rest.flatMap (encode segIdx) ++ [0x00])
    rw [flatMap_cons, append_assoc, step, map_cons, induction next_ordinal next_addend (by omega)]

theorem decodeBinds_encodeBinds (index : segIdx = 0 ∨ segIdx = 1) (sites : List BindSite) :
    decodeBinds (encodeBinds segIdx sites) = sites.map (bind segIdx) := by
  rw [decodeBinds, encodeBinds]
  simp only [length_append, length_cons, cons_append]
  exact bindRecords_sites index sites rfl rfl (by omega)

/-- An offset that is not in front of the segment of the stream. -/
def inSegment (segVmaddr shift offset : UInt64) : Bool := !decide (offset + shift < segVmaddr)

/-- The slot that the loader should rebase for an offset. -/
def rebaseSlot (segIdx : UInt8) (segVmaddr shift offset : UInt64) : Dyld.Slot :=
  { segment := segIdx.toNat, offset := (offset + shift - segVmaddr).toNat }

/-- Offsets whose slots come in order, do not overlap and end inside the address range. -/
def Spaced (segVmaddr shift : UInt64) (offsets : List UInt64) : Prop :=
  ((offsets.filter (inSegment segVmaddr shift)).Pairwise fun earlier later =>
      (earlier + shift - segVmaddr).toNat + 8 ≤ (later + shift - segVmaddr).toNat) ∧
    ∀ offset ∈ offsets.filter (inSegment segVmaddr shift),
      (offset + shift - segVmaddr).toNat + 8 < 2 ^ 64

theorem rebaseSlots_done (fuel : Nat) (slot : Dyld.Slot) : rebaseSlots fuel slot [0x00] = [] := by
  cases fuel <;> rfl

theorem rebaseSlots_set (index : segIdx = 0 ∨ segIdx = 1) (fuel : Nat)
    (slot : Dyld.Slot) (value : Nat) (rest : List UInt8) :
    rebaseSlots (fuel + 1) slot ((0x20 ||| (segIdx &&& 0xf)) :: writeUleb value ++ rest) =
      rebaseSlots fuel { segment := segIdx.toNat, offset := value } rest := by
  obtain ⟨-, -, segment, operand⟩ := segment_opcodes index
  rw [cons_append, rebaseSlots]
  simp only [segment, operand, decode_writeUleb_append]

theorem rebaseSlots_skip (fuel : Nat) (slot : Dyld.Slot) (distance : Nat) (rest : List UInt8) :
    rebaseSlots (fuel + 1) slot (0x30 :: writeUleb distance ++ rest) =
      rebaseSlots fuel { slot with offset := slot.offset + distance } rest := by
  have opcode : ((0x30 : UInt8) &&& 0xf0).toNat = 0x30 := rfl
  rw [cons_append, rebaseSlots]
  simp only [opcode, decode_writeUleb_append]

variable {segVmaddr shift : UInt64}

/-- The emission loop from a cursor on.  The cursor of the loader is the one of the loop. -/
theorem rebaseSlots_rebaseLoop (index : segIdx = 0 ∨ segIdx = 1) (offsets : List UInt64)
    {cursor : Option UInt64} {slot : Dyld.Slot} (spaced : Spaced segVmaddr shift offsets)
    (enough : (rebaseLoop segIdx segVmaddr shift cursor offsets).length ≤ fuel)
    (placed : ∀ current, cursor = some current →
      slot = { segment := segIdx.toNat, offset := current.toNat } ∧
        ∀ offset ∈ offsets.filter (inSegment segVmaddr shift),
          current.toNat ≤ (offset + shift - segVmaddr).toNat) :
    rebaseSlots fuel slot (rebaseLoop segIdx segVmaddr shift cursor offsets ++ [0x00]) =
      (offsets.filter (inSegment segVmaddr shift)).map (rebaseSlot segIdx segVmaddr shift) := by
  induction offsets generalizing fuel cursor slot with
  | nil => exact rebaseSlots_done fuel slot
  | cons offset rest induction =>
    rw [rebaseLoop] at enough ⊢
    by_cases before : offset + shift < segVmaddr
    · have skipped : (offset :: rest).filter (inSegment segVmaddr shift) =
          rest.filter (inSegment segVmaddr shift) :=
        filter_cons_of_neg (by simp [inSegment, before])
      simp only [if_pos before] at enough ⊢
      rw [Spaced, skipped] at spaced
      rw [skipped] at placed ⊢
      exact induction spaced enough placed
    have kept : (offset :: rest).filter (inSegment segVmaddr shift) =
        offset :: rest.filter (inSegment segVmaddr shift) :=
      filter_cons_of_pos (by simp [inSegment, before])
    simp only [if_neg before] at enough ⊢
    rw [Spaced, kept, pairwise_cons, forall_mem_cons] at spaced
    obtain ⟨⟨later, pairs⟩, here, ends⟩ := spaced
    rw [kept, map_cons]
    have next : (offset + shift - segVmaddr + 8).toNat =
        (offset + shift - segVmaddr).toNat + 8 := by
      rw [UInt64.toNat_add]
      exact Nat.mod_eq_of_lt here
    have tail : ∀ {fuel : Nat},
        (rebaseLoop segIdx segVmaddr shift (some (offset + shift - segVmaddr + 8)) rest).length ≤
          fuel →
        rebaseSlots (fuel + 1) (rebaseSlot segIdx segVmaddr shift offset)
          (0x60 :: writeUleb 1 ++ (rebaseLoop segIdx segVmaddr shift
            (some (offset + shift - segVmaddr + 8)) rest ++ [0x00])) =
          rebaseSlot segIdx segVmaddr shift offset ::
            (rest.filter (inSegment segVmaddr shift)).map (rebaseSlot segIdx segVmaddr shift) := by
      intro fuel enough
      rw [cons_append, rebaseSlots]
      simp only [decode_writeUleb_append]
      refine congrArg (cons _) (induction ⟨pairs, ends⟩ enough ?_)
      rintro current same
      obtain rfl := Option.some.inj same
      rw [next]
      exact ⟨rfl, later⟩
    cases cursor with
    | none =>
      simp only [length_append, length_cons] at enough
      obtain ⟨fuel, rfl⟩ : ∃ less, fuel = less + 2 := ⟨fuel - 2, by omega⟩
      rw [append_assoc, append_assoc, rebaseSlots_set index]
      exact tail (by omega)
    | some current =>
      obtain ⟨rfl, reached⟩ := placed current rfl
      have reached := reached offset (kept ▸ mem_cons_self)
      by_cases ahead : offset + shift - segVmaddr > current
      · simp only [if_pos ahead, length_append, length_cons] at enough ⊢
        obtain ⟨fuel, rfl⟩ : ∃ less, fuel = less + 2 := ⟨fuel - 2, by omega⟩
        have moved : current.toNat + (offset + shift - segVmaddr - current).toNat =
            (offset + shift - segVmaddr).toNat := by
          rw [UInt64.toNat_sub_of_le _ _ (UInt64.le_iff_toNat_le.mpr reached)]
          omega
        rw [append_assoc, append_assoc, rebaseSlots_skip, moved]
        exact tail (by omega)
      · have same : offset + shift - segVmaddr = current := by
          rw [gt_iff_lt, UInt64.lt_iff_toNat_lt] at ahead
          exact UInt64.toNat.inj (by omega)
        simp only [if_neg ahead, length_append, length_cons] at enough ⊢
        obtain ⟨fuel, rfl⟩ : ∃ less, fuel = less + 1 := ⟨fuel - 1, by omega⟩
        rw [← same] at enough ⊢
        simp only [append_assoc]
        exact tail (by omega)

variable {offsets : List UInt64}

theorem decodeRebases_encodeRebases (index : segIdx = 0 ∨ segIdx = 1)
    (spaced : Spaced segVmaddr shift (sortedOffsets offsets)) :
    decodeRebases (encodeRebases segIdx segVmaddr shift offsets) =
      ((sortedOffsets offsets).filter (inSegment segVmaddr shift)).map
        (rebaseSlot segIdx segVmaddr shift) := by
  rw [decodeRebases, encodeRebases]
  split
  · rename_i nothing
    rw [nothing]
    rfl
  · simp only [length_append, length_cons, cons_append]
    exact rebaseSlots_rebaseLoop index (sortedOffsets offsets) spaced (by omega)
      (fun current none => nomatch none)

/-- Dropping repetitions from a sorted list keeps its members and makes it strictly sorted. -/
theorem dropDuplicates_spec (kept : Option UInt64) (items : List UInt64)
    (sorted : items.Pairwise (· ≤ ·))
    (above : ∀ last, kept = some last → ∀ item ∈ items, last ≤ item) :
    (dropDuplicates kept items).Pairwise (· < ·) ∧
      ∀ item, item ∈ dropDuplicates kept items ↔ item ∈ items ∧ kept ≠ some item := by
  induction items generalizing kept with
  | nil => simp [dropDuplicates]
  | cons first rest induction =>
    rw [pairwise_cons] at sorted
    rw [dropDuplicates]
    by_cases repeated : kept = some first
    · obtain ⟨strict, members⟩ := induction kept sorted.2 fun last same item member =>
        above last same item (mem_cons_of_mem _ member)
      rw [if_pos repeated]
      refine ⟨strict, fun item => ?_⟩
      rw [members, mem_cons]
      constructor
      · exact fun both => ⟨Or.inr both.1, both.2⟩
      · rintro ⟨rfl | member, different⟩
        · exact absurd repeated different
        · exact ⟨member, different⟩
    obtain ⟨strict, members⟩ := induction (some first) sorted.2 fun last same item member =>
      Option.some.inj same ▸ sorted.1 item member
    rw [if_neg repeated]
    constructor
    · rw [pairwise_cons]
      refine ⟨fun item member => ?_, strict⟩
      obtain ⟨member, different⟩ := (members item).mp member
      exact UInt64.lt_of_le_of_ne (sorted.1 item member) fun same => different (congrArg some same)
    · intro item
      rw [mem_cons, members, mem_cons]
      constructor
      · rintro (rfl | ⟨member, _⟩)
        · exact ⟨Or.inl rfl, repeated⟩
        · refine ⟨Or.inr member, ?_⟩
          rintro rfl
          have same := UInt64.le_antisymm (above item rfl first mem_cons_self)
            (sorted.1 item member)
          exact repeated (congrArg some same)
      · rintro ⟨rfl | member, _⟩
        · exact Or.inl rfl
        · by_cases same : item = first
          · exact Or.inl same
          · exact Or.inr ⟨member, fun equal => same (Option.some.inj equal).symm⟩

/-- The emission order is strictly increasing and lists exactly the collected offsets. -/
theorem sortedOffsets_spec (offsets : List UInt64) :
    (sortedOffsets offsets).Pairwise (· < ·) ∧
      ∀ offset, offset ∈ sortedOffsets offsets ↔ offset ∈ offsets := by
  have sorted : (ExchangeSort.sort (fun left right : UInt64 => decide (left < right))
      offsets).Pairwise (· ≤ ·) := by
    refine (ExchangeSort.sort_sorted (fun left right : UInt64 => decide (left < right))
      ?_ ?_ ?_ offsets).imp ?_
    · exact fun word => by simp
    · exact fun left right less => by simpa using UInt64.le_of_lt (of_decide_eq_true less)
    · intro first second third
      simpa using fun le le' => UInt64.le_trans le le'
    · exact fun order => by simpa using order
  obtain ⟨strict, members⟩ := dropDuplicates_spec none _ sorted (fun last none => nomatch none)
  refine ⟨strict, fun offset => ?_⟩
  rw [sortedOffsets, members, (ExchangeSort.sort_perm _ offsets).mem_iff]
  simp

/-- The place of a slot in whole numbers: an offset that wraps around lies in front of the
segment. -/
theorem toNat_segOff {offset : UInt64} (shift_le : shift.toNat ≤ segVmaddr.toNat)
    (kept : ¬offset + shift < segVmaddr) :
    (offset + shift).toNat = offset.toNat + shift.toNat ∧
      segVmaddr.toNat ≤ offset.toNat + shift.toNat ∧
        (offset + shift - segVmaddr).toNat = offset.toNat + shift.toNat - segVmaddr.toNat := by
  have le := UInt64.not_lt.mp kept
  have difference := UInt64.toNat_sub_of_le _ _ le
  have sum := UInt64.toNat_add offset shift
  have bound := offset.toNat_lt
  rw [UInt64.le_iff_toNat_le] at le
  omega

theorem spaced_of_aligned (shift_le : shift.toNat ≤ segVmaddr.toNat)
    (positive : 0 < segVmaddr.toNat) (shift_aligned : shift.toNat % 8 = 0)
    (aligned : ∀ offset ∈ offsets, offset.toNat % 8 = 0) (increasing : offsets.Pairwise (· < ·)) :
    Spaced segVmaddr shift offsets := by
  have inside : ∀ offset ∈ offsets.filter (inSegment segVmaddr shift),
      offset.toNat % 8 = 0 ∧ ¬offset + shift < segVmaddr := by
    intro offset member
    obtain ⟨member, kept⟩ := mem_filter.mp member
    exact ⟨aligned offset member, by simpa [inSegment] using kept⟩
  constructor
  · refine (increasing.filter _).imp_of_mem ?_
    intro earlier later earlier_in later_in less
    obtain ⟨_, earlier_kept⟩ := inside earlier earlier_in
    obtain ⟨_, later_kept⟩ := inside later later_in
    obtain ⟨-, _, _⟩ := toNat_segOff shift_le earlier_kept
    obtain ⟨-, _, _⟩ := toNat_segOff shift_le later_kept
    rw [UInt64.lt_iff_toNat_lt] at less
    omega
  · intro offset member
    obtain ⟨_, kept⟩ := inside offset member
    obtain ⟨_, _, _⟩ := toNat_segOff shift_le kept
    have bound := (offset + shift).toNat_lt
    omega

end AlpineOnIOS.Elf2macho
