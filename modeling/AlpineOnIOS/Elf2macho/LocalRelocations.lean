import AlpineOnIOS.Elf2macho.Fixups

/-!
# Local relocations

The value of a local relocation is written into the file and the slide is added by the rebase
stream, and both choose the relocations on their own. They agree up to relative relocations of
`DT_JMPREL`, symbols outside of sections, and imported names.
-/

namespace AlpineOnIOS.Elf2macho

open Foundation List UInt64 Dyld

/-- The first reserved section index; symbols of these are not relative to a section. -/
def shnLoreserve : UInt16 := 0xff00

/-- The addend of a local relocation, or the value of its symbol plus the addend. -/
def LocalValue (elf : Buffer) (dyn : DynamicInfo) (rela : Elf64Rela) (value : UInt64) : Prop :=
  (rela.isRelative = true ∧ value = rela.rAddend) ∨
    (rela.isSymbolic = true ∧ rela.rSym ≠ 0 ∧
      ∃ sym, dyn.symbol elf rela.rSym = some sym ∧ sym.stShndx ≠ 0 ∧
        sym.stShndx < shnLoreserve ∧ value = sym.stValue + rela.rAddend)

/-- The slot of the relocation lies in the file part of `__DATA`. -/
def InFilePart (parsed : Parsed) (rela : Elf64Rela) : Prop :=
  ∃ segment, parsed.data = some segment ∧
    dataStart parsed.text segment ≤ slotVmaddr parsed.text rela ∧
      slotVmaddr parsed.text rela + 8 ≤ dataFileEnd parsed.text segment

/-- The mapped image after the rebases and the binds. -/
def fixedUp (dylib : Dylib) (slide : UInt64) (resolve : Dyld.Bind → UInt64) : Memory :=
  Dyld.applyBinds dylib.ranges resolve (Dyld.decodeBinds dylib.binds)
    (Dyld.applyRebases dylib.ranges slide (Dyld.decodeRebases dylib.rebases)
      fun address => (Dyld.mapImage dylib.ranges dylib.file address).getD 0)

/-- All local relocations of the file part are resolved, and other unbound slots are left alone. -/
structure LocalsResolved (elf : Buffer) (parsed : Parsed) (dyn : DynamicInfo) (dylib : Dylib) :
    Prop where
  resolved : ∀ rela ∈ dyn.relocations, ∀ value, LocalValue elf dyn rela value →
    InFilePart parsed rela → ∀ slide resolve,
      (fixedUp dylib slide resolve).loadWord (slotVmaddr parsed.text rela) =
        slide + dylib.shift + value
  untouched : ∀ segment, parsed.data = some segment → ∀ address, address % 8 = 0 →
    dataStart parsed.text segment ≤ address → address + 8 ≤ dataEnd parsed.text segment →
      (∀ rela ∈ dyn.relocations, ∀ value, LocalValue elf dyn rela value →
        InFilePart parsed rela → slotVmaddr parsed.text rela ≠ address) →
      (∀ bind ∈ Dyld.decodeBinds dylib.binds,
        Dyld.slotAddress dylib.ranges bind.slot ≠ some address) →
      (∀ slide memory,
        (Dyld.applyRebases dylib.ranges slide (Dyld.decodeRebases dylib.rebases) memory).loadWord
          address = memory.loadWord address) ∧
        (address + 8 ≤ dataFileEnd parsed.text segment → ∀ index < 8,
          dylib.file.byte (address + index) =
            plainByte elf parsed.text parsed.data (address + index))

/-- The relocation is one that `build_rebases` collects. -/
def Rebased (elf : Buffer) (dyn : DynamicInfo) (rela : Elf64Rela) : Prop :=
  (rela ∈ dyn.rela.getD [] ∧ rela.isRelative = true) ∨
    (rela.isSymbolic = true ∧ rela.rSym ≠ 0 ∧
      ∃ sym, dyn.symbol elf rela.rSym = some sym ∧ sym.stShndx ≠ 0)

/-- What is rebased is local or bound, and what is local is neither missed nor imported. -/
structure SelectionsAgree (elf : Buffer) (parsed : Parsed) (dyn : DynamicInfo) : Prop where
  relative : ∀ rela ∈ dyn.jmprel.getD [], rela.isRelative = true → ¬InFilePart parsed rela
  unbound : ∀ rela ∈ dyn.relocations, ∀ value, LocalValue elf dyn rela value →
    InFilePart parsed rela → ∀ name, ¬Bindable elf dyn rela name
  rebased : ∀ rela ∈ dyn.relocations, Rebased elf dyn rela → InData parsed rela →
    ((∃ value, LocalValue elf dyn rela value) ∧ InFilePart parsed rela) ∨
      ∃ name, Bindable elf dyn rela name

/-- The slots of the relocations are aligned and pairwise distinct. -/
structure AlignedSlots (dyn : DynamicInfo) : Prop where
  aligned : ∀ rela ∈ dyn.relocations, rela.rOffset.toNat % 8 = 0
  distinct : (dyn.relocations.map Elf64Rela.rOffset).Nodup

theorem shiftOf_aligned (text : Elf64Phdr) : (shiftOf text).toNat % 8 = 0 := by
  rw [toNat_shiftOf]
  split <;> rfl

variable {dyn : DynamicInfo} {rela other : Elf64Rela} {text : Elf64Phdr} {address : Nat}

namespace AlignedSlots

theorem slot_aligned (slots : AlignedSlots dyn) (text : Elf64Phdr)
    (member : rela ∈ dyn.relocations) : slotVmaddr text rela % 8 = 0 := by
  have offset := slots.aligned rela member
  have shift := shiftOf_aligned text
  rw [slotVmaddr]
  omega

theorem eq_of_slot (slots : AlignedSlots dyn) (member : rela ∈ dyn.relocations)
    (other_member : other ∈ dyn.relocations) (same : slotVmaddr text other = slotVmaddr text rela) :
    other = rela := by
  refine inj_on_of_nodup_map slots.distinct other_member member ?_
  rw [slotVmaddr, slotVmaddr] at same
  exact toNat.inj (by omega)

theorem meets_iff (slots : AlignedSlots dyn) (member : rela ∈ dyn.relocations)
    (aligned : address % 8 = 0) :
    meets address (some (slotVmaddr text rela)) = true ↔ slotVmaddr text rela = address := by
  have slot := slots.slot_aligned text member
  rw [meets_some]
  omega

end AlignedSlots

theorem filter_eq_singleton {α : Type} {items : List α} {item : α} {accept : α → Bool}
    (nodup : items.Nodup) (member : item ∈ items)
    (only : ∀ other ∈ items, accept other = true ↔ other = item) :
    items.filter accept = [item] := by
  refine perm_singleton.mp ?_
  rw [perm_ext_iff_of_nodup (nodup.filter _) (nodup_singleton item)]
  intro other
  rw [mem_filter, mem_singleton]
  constructor
  · exact fun both => (only other both.1).mp both.2
  · rintro rfl
    exact ⟨member, (only other member).mpr rfl⟩

variable {elf : Buffer} {parsed : Parsed} {segment : Elf64Phdr} {layout : Layout} {dylib : Dylib}
  {phdrs : List Elf64Phdr}

section Rebases

theorem definedOffset_eq_some {offset : UInt64}
    (dynamic : parseDynamic elf phdrs = some (some dyn)) (member : rela ∈ dyn.relocations) :
    definedOffset elf dyn rela = some (some offset) ↔
      (rela.isSymbolic = true ∧ rela.rSym ≠ 0 ∧
        ∃ sym, dyn.symbol elf rela.rSym = some sym ∧ sym.stShndx ≠ 0) ∧ rela.rOffset = offset := by
  simp only [definedOffset, Option.bind_eq_bind]
  by_cases symbolic : rela.isSymbolic = true
  · by_cases zero : rela.rSym = 0
    · simp [symbolic, zero]
    have counted := (reached_iff dynamic rela.rSym).mp
      ⟨Nat.pos_of_ne_zero zero, rela, member, Nat.le_refl _⟩
    have visited : ¬(rela.rSym = 0 ∨ rela.rSym ≥ dyn.nsyms) := by omega
    simp only [symbolic, Bool.true_eq_false, if_false, if_neg visited, true_and]
    cases read : dyn.symbol elf rela.rSym with
    | none => simp
    | some sym =>
      by_cases undefined : sym.stShndx = 0
      · simp [undefined]
      · simp [undefined, zero]
  · simp [symbolic]

theorem mem_rebaseOffsets {offsets : List UInt64}
    (dynamic : parseDynamic elf phdrs = some (some dyn))
    (collected : rebaseOffsets elf dyn = some offsets) (offset : UInt64) :
    offset ∈ offsets ↔ ∃ rela ∈ dyn.relocations, Rebased elf dyn rela ∧ rela.rOffset = offset := by
  simp only [rebaseOffsets, Option.bind_eq_bind, Option.bind_eq_some_iff] at collected
  obtain ⟨_, scanned, result⟩ := collected
  obtain rfl := Option.some.inj result
  rw [mem_append, mem_of_scan scanned, mem_map]
  constructor
  · rintro (⟨rela, filtered, same⟩ | ⟨rela, member, visited⟩)
    · obtain ⟨member, relative⟩ := mem_filter.mp filtered
      exact ⟨rela, mem_append_left _ member, Or.inl ⟨member, relative⟩, same⟩
    · obtain ⟨symbolic, same⟩ := (definedOffset_eq_some dynamic member).mp visited
      exact ⟨rela, member, Or.inr symbolic, same⟩
  · rintro ⟨rela, member, ⟨listed, relative⟩ | symbolic, same⟩
    · exact Or.inl ⟨rela, mem_filter.mpr ⟨listed, relative⟩, same⟩
    · exact Or.inr ⟨rela, member, (definedOffset_eq_some dynamic member).mpr ⟨symbolic, same⟩⟩

variable (facts : FixupFacts elf parsed dyn segment layout dylib) (slots : AlignedSlots dyn)

include facts slots

theorem decodeRebases_eq :
    ∃ kept : List UInt64, kept.Nodup ∧
      (∀ offset, offset ∈ kept ↔ (∃ rela ∈ dyn.relocations, Rebased elf dyn rela ∧
        rela.rOffset = offset) ∧ ¬offset + layout.shift < layout.dataSegVmaddr) ∧
      decodeRebases dylib.rebases = kept.map (rebaseSlot 1 layout.dataSegVmaddr layout.shift) := by
  have built := facts.rebases
  simp only [buildRebases, Option.map_eq_some_iff] at built
  obtain ⟨offsets, collected, encoded⟩ := built
  have members := mem_rebaseOffsets facts.dynamic collected
  obtain ⟨increasing, sorted_members⟩ := sortedOffsets_spec offsets
  have aligned : ∀ offset ∈ sortedOffsets offsets, offset.toNat % 8 = 0 := by
    intro offset member
    obtain ⟨rela, listed, -, rfl⟩ := (members offset).mp ((sorted_members offset).mp member)
    exact slots.aligned rela listed
  have spaced := spaced_of_aligned facts.shift_le (by have := facts.positive; omega)
    (by rw [facts.shift]; exact shiftOf_aligned parsed.text) aligned increasing
  refine ⟨(sortedOffsets offsets).filter (inSegment layout.dataSegVmaddr layout.shift), ?_, ?_, ?_⟩
  · refine (increasing.filter _).imp ?_
    intro left right less same
    rw [lt_iff_toNat_lt, same] at less
    omega
  · intro offset
    rw [mem_filter, sorted_members, members]
    simp [inSegment]
  · rw [← encoded, decodeRebases_encodeRebases (Or.inr rfl) spaced]

/-- A rebased slot meets an aligned word only if it is the slot of its relocation. -/
theorem meets_rebaseSlot (member : rela ∈ dyn.relocations)
    (inside : ¬rela.rOffset + layout.shift < layout.dataSegVmaddr) (aligned : address % 8 = 0) :
    meets address (slotAddress dylib.ranges
        (rebaseSlot 1 layout.dataSegVmaddr layout.shift rela.rOffset)) = true ↔
      slotVmaddr parsed.text rela = address := by
  have placed : slotAddress dylib.ranges
      (rebaseSlot 1 layout.dataSegVmaddr layout.shift rela.rOffset) =
        some (slotVmaddr parsed.text rela) := facts.slotAddress_eq inside
  rw [placed, slots.meets_iff member aligned]

theorem filter_decodeRebases (member : rela ∈ dyn.relocations) (rebased : Rebased elf dyn rela)
    (inside : ¬rela.rOffset + layout.shift < layout.dataSegVmaddr) :
    ((decodeRebases dylib.rebases).filter fun slot =>
        meets (slotVmaddr parsed.text rela) (slotAddress dylib.ranges slot)) =
      [rebaseSlot 1 layout.dataSegVmaddr layout.shift rela.rOffset] := by
  obtain ⟨kept, nodup, members, decoded⟩ := decodeRebases_eq facts slots
  have listed : rela.rOffset ∈ kept :=
    (members rela.rOffset).mpr ⟨⟨rela, member, rebased, rfl⟩, inside⟩
  have only : kept.filter ((fun slot => meets (slotVmaddr parsed.text rela)
      (slotAddress dylib.ranges slot)) ∘ rebaseSlot 1 layout.dataSegVmaddr layout.shift) =
        [rela.rOffset] := by
    refine filter_eq_singleton nodup listed ?_
    intro offset other_listed
    obtain ⟨⟨_, other_member, -, rfl⟩, other_inside⟩ := (members offset).mp other_listed
    rw [Function.comp_apply, meets_rebaseSlot facts slots other_member other_inside
      (slots.slot_aligned parsed.text member)]
    constructor
    · intro same
      rw [slots.eq_of_slot member other_member same]
    · intro same
      rw [slotVmaddr, slotVmaddr, same]
  rw [decoded, filter_map, only, map_singleton]

/-- An aligned word that is the slot of no rebased relocation is not rebased. -/
theorem decodeRebases_apart (aligned : address % 8 = 0)
    (free : ∀ rela ∈ dyn.relocations, Rebased elf dyn rela → slotVmaddr parsed.text rela ≠ address) :
    ∀ slot ∈ decodeRebases dylib.rebases,
      meets address (slotAddress dylib.ranges slot) = false := by
  obtain ⟨_, -, members, decoded⟩ := decodeRebases_eq facts slots
  intro slot listed
  rw [decoded, mem_map] at listed
  obtain ⟨offset, listed, rfl⟩ := listed
  obtain ⟨⟨rela, member, rebased, rfl⟩, inside⟩ := (members offset).mp listed
  rw [Bool.eq_false_iff]
  intro met
  exact free rela member rebased ((meets_rebaseSlot facts slots member inside aligned).mp met)

theorem applyRebases_once (member : rela ∈ dyn.relocations) (rebased : Rebased elf dyn rela)
    (inside : ¬rela.rOffset + layout.shift < layout.dataSegVmaddr) (slide : UInt64)
    (memory : Memory) :
    (applyRebases dylib.ranges slide (decodeRebases dylib.rebases) memory).loadWord
        (slotVmaddr parsed.text rela) = memory.loadWord (slotVmaddr parsed.text rela) + slide := by
  rw [applyRebases_eq, loadWord_updateWords_once memory
    (filter_decodeRebases facts slots member rebased inside) (facts.slotAddress_eq inside)]

theorem applyRebases_apart (aligned : address % 8 = 0)
    (free : ∀ rela ∈ dyn.relocations, Rebased elf dyn rela → slotVmaddr parsed.text rela ≠ address)
    (slide : UInt64) (memory : Memory) :
    (applyRebases dylib.ranges slide (decodeRebases dylib.rebases) memory).loadWord
        address = memory.loadWord address := by
  rw [applyRebases_eq, loadWord_updateWords_apart memory
    (decodeRebases_apart facts slots aligned free)]

end Rebases

theorem applyBinds_once (facts : FixupFacts elf parsed dyn segment layout dylib)
    (slots : AlignedSlots dyn) {name : CString} (member : rela ∈ dyn.relocations)
    (bindable : Bindable elf dyn rela name)
    (behind : dataStart parsed.text segment ≤ slotVmaddr parsed.text rela)
    (small : slotVmaddr parsed.text rela + 8 ≤ 2 ^ 64) :
    ∃ bind, ∀ resolve memory,
      (applyBinds dylib.ranges resolve (decodeBinds dylib.binds) memory).loadWord
        (slotVmaddr parsed.text rela) = resolve bind := by
  obtain ⟨bind, made, binds⟩ := facts.bindOf_of_bindable bindable member behind (by omega)
  obtain ⟨before, after, split⟩ := append_of_mem member
  have others : ∀ other ∈ before ++ after, other ∈ dyn.relocations ∧ other ≠ rela := by
    have nodup := slots.distinct.of_map
    rw [split, nodup_middle, nodup_cons] at nodup
    intro other listed
    refine ⟨?_, fun same => nodup.1 (same ▸ listed)⟩
    rw [split]
    rcases mem_append.mp listed with earlier | later
    · exact mem_append_left _ earlier
    · exact mem_append_right _ (mem_cons_of_mem _ later)
  have once := (filter_decodeBinds facts split made binds small bind).mpr ⟨rfl, by
    intro other listed otherName _ _
    obtain ⟨other_member, different⟩ := others other listed
    rw [Bool.eq_false_iff]
    intro met
    rw [slots.meets_iff other_member (slots.slot_aligned parsed.text member)] at met
    exact different (slots.eq_of_slot member other_member met)⟩
  refine ⟨bind, fun resolve memory => ?_⟩
  rw [applyBinds_eq, loadWord_updateWords_once memory once binds.address]

/-- An aligned word that is the slot of no bindable relocation keeps its value. -/
theorem applyBinds_apart (facts : FixupFacts elf parsed dyn segment layout dylib)
    (slots : AlignedSlots dyn) (aligned : address % 8 = 0)
    (free : ∀ rela ∈ dyn.relocations, ∀ name, Bindable elf dyn rela name →
      slotVmaddr parsed.text rela ≠ address) (resolve : Dyld.Bind → UInt64) (memory : Memory) :
    (applyBinds dylib.ranges resolve (decodeBinds dylib.binds) memory).loadWord address =
      memory.loadWord address := by
  rw [applyBinds_eq, loadWord_updateWords_apart]
  intro bind listed
  rw [facts.decodeBinds_eq, mem_filterMap] at listed
  obtain ⟨rela, member, made⟩ := listed
  obtain ⟨name, bindable, -, binds⟩ := facts.bindable_of_bindOf made
  rw [binds.address, Bool.eq_false_iff]
  intro met
  exact free rela member name bindable ((slots.meets_iff member aligned).mp met)

variable {value : UInt64} {path : CString} {platform : UInt32} {linkedit : Linkedit}

/-- The file part of `__DATA` is mapped from the file at its own offset. -/
theorem mapImage_filePart (stages : Converted path platform elf parsed layout linkedit dylib)
    (plan : LayoutFacts parsed.text parsed.data layout) (data : parsed.data = some segment)
    (behind : dataStart parsed.text segment ≤ address)
    (ends : address < dataFileEnd parsed.text segment) :
    mapImage dylib.ranges dylib.file address = some (dylib.file.byte address) := by
  obtain ⟨fileoff, _, -, file_end, -⟩ := plan.withData segment data
  have linkedit_off := plan.linkedit
  rw [fileoff, file_end, ← dataFileEnd] at linkedit_off
  have covers : (dataRange parsed.text segment).Covers address := by
    have memory : dataFileEnd parsed.text segment ≤ dataEnd parsed.text segment :=
      Nat.le_max_right _ _
    simp only [Dyld.Segment.Covers, dataRange]
    omega
  have uncovered : ¬(linkeditCommand layout (linkedit.size parsed.sb)).range.Covers address := by
    simp only [Dyld.Segment.Covers, SegmentCommand.range, linkeditCommand]
    omega
  rw [ranges_eq stages, segmentCommands, data]
  simp only [Option.toList_some, map_cons, map_nil, cons_append, nil_append,
    mapImage, foldl_cons, foldl_nil, dataCommand_range plan data, if_pos covers,
    if_neg uncovered, Option.some.injEq]
  have inside : address - dataStart parsed.text segment <
      dataFileEnd parsed.text segment - dataStart parsed.text segment := by omega
  simp only [Dyld.Segment.byteAt, dataRange, if_pos inside, Nat.add_sub_cancel' behind]

theorem not_symbolic_of_relative (relative : rela.isRelative = true) : rela.isSymbolic = false := by
  have same : rela.rType = rAarch64Relative := by simpa [Elf64Rela.isRelative] using relative
  rw [Elf64Rela.isSymbolic, same]
  decide

theorem selfRelocValue_eq_some {shift : UInt64}
    (dynamic : parseDynamic elf phdrs = some (some dyn)) (member : rela ∈ dyn.relocations) :
    selfRelocValue elf dyn shift rela = some (some value) ↔
      (rela.isRelative = true ∧ value = rela.rAddend + shift) ∨
        (rela.isSymbolic = true ∧ rela.rSym ≠ 0 ∧
          ∃ sym, dyn.symbol elf rela.rSym = some sym ∧ sym.stShndx ≠ 0 ∧
            value = sym.stValue + rela.rAddend + shift) := by
  simp only [selfRelocValue, Option.bind_eq_bind]
  by_cases relative : rela.isRelative = true
  · have plain := not_symbolic_of_relative relative
    simp [relative, plain, eq_comm]
  by_cases symbolic : rela.isSymbolic = true
  · by_cases zero : rela.rSym = 0
    · simp [relative, symbolic, zero]
    have counted := (reached_iff dynamic rela.rSym).mp
      ⟨Nat.pos_of_ne_zero zero, rela, member, Nat.le_refl _⟩
    have visited : ¬(rela.rSym = 0 ∨ rela.rSym ≥ dyn.nsyms) := by omega
    cases read : dyn.symbol elf rela.rSym with
    | none => simp [relative, symbolic, visited]
    | some sym =>
      have table : dyn.symtab ≠ none := by
        intro missing
        simp [DynamicInfo.symbol, missing] at read
      by_cases undefined : sym.stShndx = 0
      · simp [relative, symbolic, visited, table, undefined]
      · simp [relative, symbolic, Nat.not_le.mpr counted.2, table, undefined, zero, eq_comm]
  · simp [relative, symbolic]

theorem LocalValue.selfRelocValue (isLocal : LocalValue elf dyn rela value)
    (dynamic : parseDynamic elf phdrs = some (some dyn)) (member : rela ∈ dyn.relocations)
    (shift : UInt64) : selfRelocValue elf dyn shift rela = some (some (value + shift)) := by
  rw [selfRelocValue_eq_some dynamic member]
  rcases isLocal with ⟨relative, rfl⟩ | ⟨symbolic, nonzero, sym, read, defined, -, rfl⟩
  · exact Or.inl ⟨relative, rfl⟩
  · exact Or.inr ⟨symbolic, nonzero, sym, read, defined, rfl⟩

theorem slotPlace_apart (slots : AlignedSlots dyn) (member : rela ∈ dyn.relocations)
    (other_member : other ∈ dyn.relocations) (different : other ≠ rela) :
    slotPlace (shiftOf text) other + 8 ≤ slotPlace (shiftOf text) rela ∨
      slotPlace (shiftOf text) rela + 8 ≤ slotPlace (shiftOf text) other := by
  have offsets : other.rOffset.toNat ≠ rela.rOffset.toNat := fun same =>
    different (inj_on_of_nodup_map slots.distinct other_member member (toNat.inj same))
  have aligned := slots.aligned rela member
  have other_aligned := slots.aligned other other_member
  have bound := rela.rOffset.toNat_lt
  have other_bound := other.rOffset.toNat_lt
  rw [slotPlace, slotPlace, UInt64.toNat_add, UInt64.toNat_add]
  omega

/-- A slot of the file that meets an aligned word behind the first page is that word. -/
theorem slotVmaddr_of_slotPlace (slots : AlignedSlots dyn) (member : rela ∈ dyn.relocations)
    {start : Nat} (page : 0x4000 ≤ start) (behind : start ≤ address) (aligned : address % 8 = 0)
    (lower : slotPlace (shiftOf text) rela < address + 8)
    (upper : address < slotPlace (shiftOf text) rela + 8) : slotVmaddr text rela = address := by
  have offset := slots.aligned rela member
  have shift := shiftOf_aligned text
  have shift_le := shiftOf_le text
  have bound := rela.rOffset.toNat_lt
  rw [slotPlace, UInt64.toNat_add] at lower upper
  rw [slotVmaddr]
  omega

/-- What the file part of `__DATA` holds once the library is written. -/
structure FilePart (elf : Buffer) (parsed : Parsed) (dyn : DynamicInfo) (segment : Elf64Phdr)
    (layout : Layout) (dylib : Dylib) : Prop where
  written : ∀ rela ∈ dyn.relocations, ∀ value, LocalValue elf dyn rela value →
    dataStart parsed.text segment ≤ slotVmaddr parsed.text rela →
      slotVmaddr parsed.text rela + 8 ≤ dataFileEnd parsed.text segment →
        dylib.file.byte.loadWord (slotVmaddr parsed.text rela) = value + layout.shift
  plain : ∀ position, dataStart parsed.text segment ≤ position →
    position < dataFileEnd parsed.text segment → ¬RewrittenAt elf parsed position →
      dylib.file.byte position = plainByte elf parsed.text parsed.data position
  image : ∀ address, dataStart parsed.text segment ≤ address →
    address < dataFileEnd parsed.text segment →
      Dyld.mapImage dylib.ranges dylib.file address = some (dylib.file.byte address)

theorem writeSegments_prewrite {total : UInt64} {copied : Buffer}
    (data : parsed.data = some segment) (dynamic : parsed.dyn = some dyn)
    (written : writeSegments elf parsed layout total = some copied) :
    ∃ full, applySelfRelocValues elf dyn total layout.dataSegFileoff layout.dataSegFilesize
      layout.shift full = some copied := by
  simp only [writeSegments, data, dynamic, Option.bind_eq_bind, Option.bind_eq_some_iff] at written
  obtain ⟨_, _, full, _, applied⟩ := written
  exact ⟨full, applied⟩

/-- The value of a local relocation of the file part passes the bounds of the writing loop. -/
theorem LocalValue.prewrites (isLocal : LocalValue elf dyn rela value)
    (facts : FixupFacts elf parsed dyn segment layout dylib)
    (plan : LayoutFacts parsed.text parsed.data layout) (data : parsed.data = some segment)
    (small : layout.linkeditOff.toNat + linkedit.size parsed.sb ≤ 2 ^ 32)
    (member : rela ∈ dyn.relocations)
    (behind : dataStart parsed.text segment ≤ slotVmaddr parsed.text rela)
    (ends : slotVmaddr parsed.text rela + 8 ≤ dataFileEnd parsed.text segment) :
    slotPlace layout.shift rela = slotVmaddr parsed.text rela ∧
      Prewrites elf dyn (totalSz parsed layout linkedit) layout.dataSegFileoff
        layout.dataSegFilesize layout.shift rela (value + layout.shift) := by
  obtain ⟨fileoff, page, -, file_end, -⟩ := plan.withData segment data
  have linkedit_off := plan.linkedit
  rw [fileoff, file_end, ← dataFileEnd] at linkedit_off
  rw [← dataFileEnd] at file_end
  have place : slotPlace layout.shift rela = slotVmaddr parsed.text rela := by
    rw [slotPlace, slotVmaddr, facts.shift]
    refine toNat_add_small ?_
    rw [slotVmaddr] at ends
    omega
  have next : (rela.rOffset + layout.shift + 8).toNat = slotVmaddr parsed.text rela + 8 := by
    rw [← place, slotPlace]
    refine toNat_add_small ?_
    rw [slotPlace] at place
    rw [place]
    change slotVmaddr parsed.text rela + 8 < 2 ^ 64
    omega
  refine ⟨place, isLocal.selfRelocValue facts.dynamic member layout.shift, ?_, ?_, ?_⟩
  · rw [le_iff_toNat_le, fileoff, page, ← slotPlace, place]
    exact behind
  · rw [le_iff_toNat_le, next, fileoff, toNat_add_small (by omega), file_end]
    exact ends
  · have size : (ofNat (linkedit.size parsed.sb)).toNat = linkedit.size parsed.sb := by
      rw [toNat_ofNat']
      exact Nat.mod_eq_of_lt (by omega)
    rw [le_iff_toNat_le, next, totalSz, toNat_add_small (by omega), size]
    omega

theorem filePart (stages : Converted path platform elf parsed layout linkedit dylib)
    (facts : FixupFacts elf parsed dyn segment layout dylib)
    (plan : LayoutFacts parsed.text parsed.data layout) (dynamic : parsed.dyn = some dyn)
    (data : parsed.data = some segment) (text_addressable : parsed.text.Addressable)
    (data_addressable : ∀ segment, parsed.data = some segment → segment.Addressable)
    (small : layout.linkeditOff.toNat + linkedit.size parsed.sb ≤ 2 ^ 32)
    (slots : AlignedSlots dyn) : FilePart elf parsed dyn segment layout dylib := by
  obtain ⟨copied, written, same⟩ := file_byte stages small
  obtain ⟨fileoff, page, -, file_end, -⟩ := plan.withData segment data
  have linkedit_off := plan.linkedit
  have positive := facts.positive
  rw [fileoff, file_end, ← dataFileEnd] at linkedit_off
  rw [← dataStart] at page
  refine ⟨?_, ?_, fun address => mapImage_filePart stages plan data⟩
  · intro rela member value isLocal behind ends
    obtain ⟨_, applied⟩ := writeSegments_prewrite data dynamic written
    obtain ⟨place, prewrites⟩ := isLocal.prewrites facts plan data small member behind ends
    have kept : dylib.file.byte.loadWord (slotVmaddr parsed.text rela) =
        copied.byte.loadWord (slotVmaddr parsed.text rela) := by
      rw [Memory.loadWord, Memory.loadWord]
      congr 2
      refine Memory.load_congr fun index inside => same _ ?_ ?_
      · omega
      · omega
    rw [kept, ← place]
    refine foldlM_prewrite_written prewrites ?_ applied (Or.inl member)
    intro other other_member different
    rw [facts.shift]
    exact slotPlace_apart slots member other_member different
  · intro position behind ends untouched
    rw [same position (by omega) (by omega)]
    exact writeSegments_byte plan text_addressable data_addressable written (Or.inr untouched)

section Agreement

theorem FilePart.imageWord (part : FilePart elf parsed dyn segment layout dylib)
    (behind : dataStart parsed.text segment ≤ address)
    (ends : address + 8 ≤ dataFileEnd parsed.text segment) :
    Memory.loadWord (fun address => (mapImage dylib.ranges dylib.file address).getD 0)
      address = dylib.file.byte.loadWord address := by
  rw [Memory.loadWord, Memory.loadWord]
  congr 2
  refine Memory.load_congr fun index inside => ?_
  rw [part.image (address + index) (by omega) (by omega), Option.getD_some]

theorem LocalValue.rebased (isLocal : LocalValue elf dyn rela value)
    (member : rela ∈ dyn.relocations)
    (not_plt : rela ∈ dyn.jmprel.getD [] → rela.isRelative = false) : Rebased elf dyn rela := by
  rcases isLocal with ⟨relative, -⟩ | ⟨symbolic, nonzero, sym, read, defined, -⟩
  · rcases mem_append.mp member with listed | plt
    · exact Or.inl ⟨listed, relative⟩
    · rw [not_plt plt] at relative
      cases relative
  · exact Or.inr ⟨symbolic, nonzero, sym, read, defined⟩

/-- If the selections agree, every local relocation is resolved and nothing else is touched. -/
theorem SelectionsAgree.localsResolved (agree : SelectionsAgree elf parsed dyn)
    (facts : FixupFacts elf parsed dyn segment layout dylib)
    (part : FilePart elf parsed dyn segment layout dylib) (slots : AlignedSlots dyn)
    (dynamic : parsed.dyn = some dyn) (data : parsed.data = some segment)
    (addressable : segment.Addressable) (shift : dylib.shift = layout.shift) :
    LocalsResolved elf parsed dyn dylib := by
  have small := dataEnd_small parsed.text addressable
  have file_le : dataFileEnd parsed.text segment ≤ dataEnd parsed.text segment :=
    Nat.le_max_right _ _
  constructor
  · rintro rela member value isLocal ⟨other, other_data, behind, ends⟩ slide resolve
    obtain rfl : segment = other := Option.some.inj (data.symm.trans other_data)
    have inFilePart : InFilePart parsed rela := ⟨segment, data, behind, ends⟩
    have rebased := isLocal.rebased member fun plt =>
      Bool.eq_false_iff.mpr fun relative => agree.relative rela plt relative inFilePart
    have inside := facts.inside_iff.mpr ⟨behind, by omega⟩
    have unbound : ∀ other ∈ dyn.relocations, ∀ name, Bindable elf dyn other name →
        slotVmaddr parsed.text other ≠ slotVmaddr parsed.text rela := by
      intro other other_member name bindable same
      obtain rfl := slots.eq_of_slot member other_member same
      exact agree.unbound other member value isLocal inFilePart name bindable
    rw [fixedUp, applyBinds_apart facts slots (slots.slot_aligned parsed.text member) unbound,
      applyRebases_once facts slots member rebased inside, part.imageWord behind ends,
      part.written rela member value isLocal behind ends, shift, UInt64.add_comm,
      UInt64.add_comm value, UInt64.add_assoc]
  · rintro other other_data address aligned behind ends unused unbound
    obtain rfl : segment = other := Option.some.inj (data.symm.trans other_data)
    have free : ∀ rela ∈ dyn.relocations, Rebased elf dyn rela →
        slotVmaddr parsed.text rela ≠ address := by
      rintro rela member rebased rfl
      rcases agree.rebased rela member rebased ⟨segment, data, behind, ends⟩ with
        ⟨⟨value, isLocal⟩, inFilePart⟩ | ⟨name, bindable⟩
      · exact unused rela member value isLocal inFilePart rfl
      obtain ⟨bind, made, binds⟩ :=
        facts.bindOf_of_bindable bindable member behind (by omega)
      refine unbound bind ?_ binds.address
      rw [facts.decodeBinds_eq]
      exact mem_filterMap.mpr ⟨rela, member, made⟩
    refine ⟨applyRebases_apart facts slots aligned free, ?_⟩
    intro file_ends index inside
    refine part.plain _ (by omega) (by omega) ?_
    rintro ⟨otherDyn, other_dynamic, rela, member, _, computed, _, _⟩
    obtain rfl : dyn = otherDyn := Option.some.inj (dynamic.symm.trans other_dynamic)
    have same : slotVmaddr parsed.text rela = address := by
      refine slotVmaddr_of_slotPlace slots member (facts.page ▸ facts.positive) behind aligned ?_ ?_
      · omega
      · omega
    rcases (selfRelocValue_eq_some facts.dynamic member).mp computed with
      ⟨relative, -⟩ | ⟨symbolic, nonzero, sym, read, defined, -⟩
    · refine unused rela member rela.rAddend (Or.inl ⟨relative, rfl⟩) ⟨segment, data, ?_⟩ same
      rw [same]
      exact ⟨behind, file_ends⟩
    · exact free rela member (Or.inr ⟨symbolic, nonzero, sym, read, defined⟩) same

variable (resolved : LocalsResolved elf parsed dyn dylib)

include resolved

/-- The resolved word depends on the slide, so the slide has to reach the slot. -/
theorem LocalsResolved.slides (member : rela ∈ dyn.relocations)
    (isLocal : LocalValue elf dyn rela value) (inFilePart : InFilePart parsed rela)
    (resolve : Dyld.Bind → UInt64) :
    (fixedUp dylib 0 resolve).loadWord (slotVmaddr parsed.text rela) ≠
      (fixedUp dylib 1 resolve).loadWord (slotVmaddr parsed.text rela) := by
  intro same
  rw [resolved.resolved rela member value isLocal inFilePart,
    resolved.resolved rela member value isLocal inFilePart, UInt64.add_assoc,
    UInt64.add_assoc] at same
  exact absurd ((UInt64.add_left_inj _).mp same) (by decide)

variable (facts : FixupFacts elf parsed dyn segment layout dylib)

include facts

/-- A relative relocation of `DT_JMPREL` is neither rebased nor bound, so no slide reaches it. -/
theorem LocalsResolved.relative (slots : AlignedSlots dyn)
    (plt : rela ∈ dyn.jmprel.getD []) (relative : rela.isRelative = true) :
    ¬InFilePart parsed rela := by
  intro inFilePart
  have member : rela ∈ dyn.relocations := mem_append_right _ plt
  have plain := not_symbolic_of_relative relative
  have unbased : ∀ other ∈ dyn.relocations, Rebased elf dyn other →
      slotVmaddr parsed.text other ≠ slotVmaddr parsed.text rela := by
    intro other other_member rebased same
    obtain rfl := slots.eq_of_slot member other_member same
    rcases rebased with ⟨listed, -⟩ | ⟨symbolic, -⟩
    · have nodup := slots.distinct.of_map
      exact (nodup_append.mp nodup).2.2 other listed other plt rfl
    · rw [plain] at symbolic
      cases symbolic
  have unbound : ∀ other ∈ dyn.relocations, ∀ name, Bindable elf dyn other name →
      slotVmaddr parsed.text other ≠ slotVmaddr parsed.text rela := by
    rintro other other_member name ⟨symbolic, -⟩ same
    obtain rfl := slots.eq_of_slot member other_member same
    rw [plain] at symbolic
    cases symbolic
  have aligned := slots.slot_aligned parsed.text member
  refine resolved.slides member (Or.inl ⟨relative, rfl⟩) inFilePart (fun _ => 0) ?_
  rw [fixedUp, fixedUp, applyBinds_apart facts slots aligned unbound,
    applyBinds_apart facts slots aligned unbound, applyRebases_apart facts slots aligned unbased,
    applyRebases_apart facts slots aligned unbased]

/-- A slot that is rebased is resolved or bound, or else the rebase touches it. -/
theorem LocalsResolved.rebased (slots : AlignedSlots dyn)
    (data : parsed.data = some segment) (small : dataEnd parsed.text segment < 2 ^ 64)
    (member : rela ∈ dyn.relocations) (rebased : Rebased elf dyn rela)
    (behind : dataStart parsed.text segment ≤ slotVmaddr parsed.text rela)
    (ends : slotVmaddr parsed.text rela + 8 ≤ dataEnd parsed.text segment) :
    ((∃ value, LocalValue elf dyn rela value) ∧ InFilePart parsed rela) ∨
      ∃ name, Bindable elf dyn rela name := by
  by_contra neither
  rw [not_or, not_and, not_exists] at neither
  obtain ⟨not_local, not_bindable⟩ := neither
  have unused : ∀ other ∈ dyn.relocations, ∀ value, LocalValue elf dyn other value →
      InFilePart parsed other → slotVmaddr parsed.text other ≠ slotVmaddr parsed.text rela := by
    intro other other_member value isLocal inFilePart same
    obtain rfl := slots.eq_of_slot member other_member same
    exact not_local ⟨value, isLocal⟩ inFilePart
  have unbound : ∀ bind ∈ decodeBinds dylib.binds,
      slotAddress dylib.ranges bind.slot ≠ some (slotVmaddr parsed.text rela) := by
    intro bind listed placed
    rw [facts.decodeBinds_eq, mem_filterMap] at listed
    obtain ⟨_, other_member, made⟩ := listed
    obtain ⟨name, bindable, -, binds⟩ := facts.bindable_of_bindOf made
    obtain rfl := slots.eq_of_slot member other_member
      (Option.some.inj (binds.address.symm.trans placed))
    exact not_bindable name bindable
  have kept := (resolved.untouched segment data _ (slots.slot_aligned parsed.text member) behind
    ends unused unbound).1 1 (fun _ => 0)
  rw [applyRebases_once facts slots member rebased
    (facts.inside_iff.mpr ⟨behind, by omega⟩)] at kept
  simp at kept

/-- If every local relocation is resolved and nothing else is touched, the selections agree. -/
theorem LocalsResolved.selectionsAgree (slots : AlignedSlots dyn)
    (data : parsed.data = some segment) (addressable : segment.Addressable) :
    SelectionsAgree elf parsed dyn := by
  have small := dataEnd_small parsed.text addressable
  have file_le : dataFileEnd parsed.text segment ≤ dataEnd parsed.text segment :=
    Nat.le_max_right _ _
  refine ⟨fun rela plt relative => resolved.relative facts slots plt relative, ?_, ?_⟩
  · intro rela member value isLocal inFilePart name bindable
    have slide := resolved.slides member isLocal inFilePart (fun _ => 0)
    obtain ⟨other, other_data, behind, _⟩ := inFilePart
    obtain rfl : segment = other := Option.some.inj (data.symm.trans other_data)
    obtain ⟨_, word⟩ := applyBinds_once facts slots member bindable behind (by omega)
    rw [fixedUp, fixedUp, word, word] at slide
    exact slide rfl
  · rintro rela member rebased ⟨other, other_data, behind, ends⟩
    obtain rfl : segment = other := Option.some.inj (data.symm.trans other_data)
    exact resolved.rebased facts slots data (by omega) member rebased behind ends

end Agreement

/-- Local relocations are resolved once and nothing else changes exactly if the selections agree. -/
theorem convert_locals_iff {path : CString} {platform : UInt32} {elf : Buffer} {parsed : Parsed}
    {dyn : DynamicInfo} {dylib : Dylib} (converted : convert path platform elf = .ok dylib)
    (parse : parseElf elf = .ok parsed) (dynamic : parsed.dyn = some dyn)
    (text_addressable : parsed.text.Addressable)
    (data_addressable : ∀ segment, parsed.data = some segment → segment.Addressable)
    (small : OutputSmall elf parsed) (slots : AlignedSlots dyn) :
    LocalsResolved elf parsed dyn dylib ↔ SelectionsAgree elf parsed dyn := by
  obtain ⟨layout, linkedit, stages⟩ := convert_eq_ok converted parse
  have plan := planLayout_facts text_addressable data_addressable stages.plan
  cases data : parsed.data with
  | none =>
    have no_part : ∀ rela, ¬InFilePart parsed rela := by
      rintro rela ⟨_, some_data, -⟩
      simp [data] at some_data
    constructor
    · intro _
      refine ⟨fun rela _ _ => no_part rela, fun rela _ _ _ part => absurd part (no_part rela), ?_⟩
      rintro rela _ _ ⟨_, some_data, -⟩
      simp [data] at some_data
    · intro _
      refine ⟨fun rela _ _ _ part => absurd part (no_part rela), ?_⟩
      intro segment some_data
      simp [data] at some_data
  | some segment =>
    have facts := fixupFacts stages plan dynamic data
    have addressable := data_addressable segment data
    obtain ⟨-, -, fields⟩ := emit_eq_some stages.emitted
    have shift : dylib.shift = layout.shift := by rw [fields]
    constructor
    · exact fun resolved => resolved.selectionsAgree facts slots data addressable
    · intro agree
      have part := filePart stages facts plan dynamic data text_addressable data_addressable
        (small layout linkedit stages.plan stages.tables) slots
      exact agree.localsResolved facts part slots dynamic data addressable shift

/-- An `R_AARCH64_RELATIVE` in the first word of the data. -/
def relativeToCode : Elf64Rela := { rOffset := 0x4400, rInfo := 0x403, rAddend := 0x100 }

/-- A library with one relative relocation, in a table that the dynamic section names by `tags`. -/
def relocatedElf (tags : List (Nat × Nat)) : Buffer :=
  elfWithSegments 0x600
    (twoSegments 0x10 ++
      [{ pType := ptDynamic, pFlags := 4, pOffset := 0x200, pVaddr := 0x200, pFilesz := 0x30,
         pMemsz := 0x30 }])
    [dynPart 0x200 tags, relativeToCode.part 0x380]

/-- What `parse_dynamic` makes of it. -/
def relocatedDyn (rela jmprel : Option (List Elf64Rela)) (relasz pltrelsz : UInt64) : DynamicInfo :=
  { needed := []
    strtab := none
    strsz := 0
    symtab := none
    nsyms := 1
    rela
    relasz
    jmprel
    pltrelsz }

/-- A relative relocation of `DT_RELA` is resolved. -/
theorem convert_locals_relative :
    ∃ parsed dylib, convert [] 2 (relocatedElf [(7, 0x380), (8, 24)]) = .ok dylib ∧
      parseElf (relocatedElf [(7, 0x380), (8, 24)]) = .ok parsed ∧
        parsed.dyn = some (relocatedDyn (some [relativeToCode]) none 24 0) ∧
          InFilePart parsed relativeToCode ∧
            LocalsResolved (relocatedElf [(7, 0x380), (8, 24)]) parsed
              (relocatedDyn (some [relativeToCode]) none 24 0) dylib := by
  obtain ⟨dylib, converted, ranges⟩ := exists_of_view
    (show (convert [] 2 (relocatedElf [(7, 0x380), (8, 24)])).toOption.map
      (fun dylib => decide (∀ segment ∈ dylib.ranges,
        segment.fileoff + segment.filesize ≤ 2 ^ 32)) = some true by decide +kernel)
  obtain ⟨parsed, parse, seen⟩ := exists_of_view
    (show (parseElf (relocatedElf [(7, 0x380), (8, 24)])).toOption.map
      (fun parsed => (parsed.dyn, parsed.text, parsed.data)) =
        some (some (relocatedDyn (some [relativeToCode]) none 24 0),
          (twoSegments 0x10).head (by decide), (twoSegments 0x10)[1]?) by decide +kernel)
  obtain ⟨dynamic, text, data⟩ := by simpa only [Prod.mk.injEq] using seen
  have inFilePart : InFilePart parsed relativeToCode := by
    refine ⟨_, data, ?_⟩
    rw [text]
    decide
  refine ⟨parsed, dylib, converted, parse, dynamic, inFilePart,
    (convert_locals_iff converted parse dynamic ?_ ?_ ?_ ?_).mpr ?_⟩
  · rw [text]
    decide
  · intro segment same
    obtain rfl := Option.some.inj (data.symm.trans same)
    decide
  · exact outputSmall_of_ranges converted parse (of_decide_eq_true ranges)
  · exact ⟨by decide, by decide⟩
  · refine ⟨by simp [relocatedDyn], ?_, ?_⟩
    · rintro rela member _ _ _ name ⟨symbolic, -⟩
      obtain rfl := mem_singleton.mp member
      exact absurd symbolic (by decide)
    · intro rela member _ _
      obtain rfl := mem_singleton.mp member
      exact Or.inl ⟨⟨0x100, Or.inl ⟨by decide, rfl⟩⟩, inFilePart⟩

/-- A relative relocation of `DT_JMPREL` is written into the file but never rebased. -/
theorem convert_locals_unslid :
    ∃ parsed dylib, convert [] 2 (relocatedElf [(23, 0x380), (2, 24)]) = .ok dylib ∧
      parseElf (relocatedElf [(23, 0x380), (2, 24)]) = .ok parsed ∧
        parsed.dyn = some (relocatedDyn none (some [relativeToCode]) 0 24) ∧
          AlignedSlots (relocatedDyn none (some [relativeToCode]) 0 24) ∧
            ¬LocalsResolved (relocatedElf [(23, 0x380), (2, 24)]) parsed
              (relocatedDyn none (some [relativeToCode]) 0 24) dylib := by
  obtain ⟨dylib, converted, seen⟩ := exists_of_view
    (show (convert [] 2 (relocatedElf [(23, 0x380), (2, 24)])).toOption.map
      (fun dylib => (dylib.shift, (fixedUp dylib 1 (fun _ => 0)).loadWord 0x8400)) =
        some (0x4000, 0x4100) by decide +kernel)
  obtain ⟨shift, word⟩ := by simpa only [Prod.mk.injEq] using seen
  obtain ⟨parsed, parse, seen⟩ := exists_of_view
    (show (parseElf (relocatedElf [(23, 0x380), (2, 24)])).toOption.map
      (fun parsed => (parsed.dyn, parsed.text, parsed.data)) =
        some (some (relocatedDyn none (some [relativeToCode]) 0 24),
          (twoSegments 0x10).head (by decide), (twoSegments 0x10)[1]?) by decide +kernel)
  obtain ⟨dynamic, text, data⟩ := by simpa only [Prod.mk.injEq] using seen
  refine ⟨parsed, dylib, converted, parse, dynamic, ⟨by decide, by decide⟩, fun resolved => ?_⟩
  have slot : slotVmaddr parsed.text relativeToCode = 0x8400 := by
    rw [text]
    decide
  have slid := resolved.resolved relativeToCode (by decide) 0x100 (Or.inl ⟨by decide, rfl⟩)
    ⟨_, data, by rw [text]; decide⟩ 1 (fun _ => 0)
  rw [slot, word, shift] at slid
  exact absurd slid (by decide)

end AlpineOnIOS.Elf2macho
