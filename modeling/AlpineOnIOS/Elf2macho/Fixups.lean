import AlpineOnIOS.Elf2macho.SegmentRanges
import AlpineOnIOS.Elf2macho.Streams

/-!
# The fixups of a converted library

The streams are read as updates of words at addresses, and the relocations that get a bind by the
symbols of the ELF. The bind stream asks the first needed library only and never sets an addend.
-/

namespace AlpineOnIOS.Elf2macho

open Foundation List Dyld

variable (text : Elf64Phdr)

/-- The address of a relocation's slot in the output. -/
def slotVmaddr (rela : Elf64Rela) : Nat :=
  rela.rOffset.toNat + (shiftOf text).toNat

variable (segment : Elf64Phdr)

/-- The page where `__DATA` starts. -/
def dataStart : Nat := roundDown (outStart text segment)

def dataFileEnd : Nat :=
  roundUp (outStart text segment + segment.pFilesz.toNat)

def dataEnd : Nat :=
  max (roundUp (outStart text segment + segment.pMemsz.toNat)) (dataFileEnd text segment)

def dataRange : Dyld.Segment :=
  { vmaddr := dataStart text segment
    vmsize := dataEnd text segment - dataStart text segment
    fileoff := dataStart text segment
    filesize := dataFileEnd text segment - dataStart text segment }

variable {segment} {parsed : Parsed} {layout : Layout}

theorem dataCommand_range (facts : LayoutFacts parsed.text parsed.data layout)
    (data : parsed.data = some segment) :
    (dataCommand layout segment).range = dataRange parsed.text segment := by
  obtain ⟨fileoff, page, -, file_end, memory_end⟩ := facts.withData segment data
  rw [← dataFileEnd] at file_end memory_end
  rw [← dataEnd] at memory_end
  rw [← dataStart] at page
  simp only [SegmentCommand.range, dataCommand, dataRange, fileoff, page, Dyld.Segment.mk.injEq,
    true_and]
  omega

def InData (parsed : Parsed) (rela : Elf64Rela) : Prop :=
  ∃ segment, parsed.data = some segment ∧
    dataStart parsed.text segment ≤ slotVmaddr parsed.text rela ∧
      slotVmaddr parsed.text rela + 8 ≤ dataEnd parsed.text segment

variable (segments : List Dyld.Segment)

theorem applyBinds_eq (resolve : Dyld.Bind → UInt64) (binds : List Dyld.Bind) (memory : Memory) :
    applyBinds segments resolve binds memory =
      updateWords (fun bind => slotAddress segments bind.slot) (fun bind _ => resolve bind)
        binds memory :=
  rfl

theorem applyRebases_eq (slide : UInt64) (slots : List Dyld.Slot) (memory : Memory) :
    applyRebases segments slide slots memory =
      updateWords (slotAddress segments) (fun _ word => word + slide) slots memory :=
  rfl

/-- Symbol `index` is an undefined global or weak symbol with this name, which is unversioned. -/
def Importable (elf : Buffer) (dyn : DynamicInfo) (index : Nat) (name : CString) : Prop :=
  ∃ sym, NamedSymbol elf dyn index sym name ∧ sym.isGlobal = true ∧ sym.stShndx = 0 ∧
    name ≠ [] ∧ atSign ∉ name

/-- A symbolic relocation against a symbol with the name of an importable one. -/
def Bindable (elf : Buffer) (dyn : DynamicInfo) (rela : Elf64Rela) (name : CString) : Prop :=
  rela.isSymbolic = true ∧ rela.rSym ≠ 0 ∧ (∃ sym, NamedSymbol elf dyn rela.rSym sym name) ∧
    ∃ index, Reached dyn index ∧ Importable elf dyn index name

/-- The entry that the second pass of `build_symtab` makes of a symbol. -/
def undefinedSymbol (sym : Elf64Sym) (name : CString) : MachSymbol :=
  let weak : Bool := sym.stBind = stbWeak
  { name
    vaddr := 0
    type := nUndf ||| nExt
    sect := 0
    desc := if weak then 0x0100 ||| nWeakRef else 0x0100
    weak }

variable {dyn : DynamicInfo} {elf : Buffer} {index : Nat} {sym : Elf64Sym}

variable {name : CString}

theorem importable_iff :
    Importable elf dyn index name ↔
      ∃ symbol, undefSymbol elf dyn index = some (some symbol) ∧ symbol.name = name := by
  constructor
  · rintro ⟨sym, ⟨read, named⟩, global, undefined, nonempty, unversioned⟩
    have usable := usableName_eq_some.mpr ⟨named, nonempty, unversioned⟩
    exact ⟨undefinedSymbol sym name,
      by simp [undefSymbol, undefinedSymbol, read, global, undefined, usable], rfl⟩
  · rintro ⟨_, visited, rfl⟩
    obtain ⟨sym, read, visited⟩ := Option.bind_eq_some_iff.mp visited
    split at visited
    · simp at visited
    rename_i global
    split at visited
    · simp at visited
    rename_i undefined
    obtain ⟨_, usable, visited⟩ := Option.bind_eq_some_iff.mp visited
    obtain ⟨_, rfl, rfl⟩ := Option.map_eq_some_iff.mp (Option.some.inj visited)
    obtain ⟨named, valid⟩ := usableName_eq_some.mp usable
    exact ⟨sym, ⟨read, named⟩, by simpa using global, by simpa using undefined, valid⟩

variable {rela : Elf64Rela} {phdrs : List Elf64Phdr} {ranges : SectionRanges} {sb : SymtabBuilder}

/-- The undefined symbols of the table have the names of the reached importable symbols. -/
theorem mem_undefs_iff (parsed : parseDynamic elf phdrs = some (some dyn))
    (built : buildSymtab elf dyn ranges = some sb) :
    (∃ undef ∈ sb.undefs, undef.name = name) ↔
      ∃ index, Reached dyn index ∧ Importable elf dyn index name := by
  by_cases present : (dyn.symtab ≠ none ∧ dyn.strtab ≠ none) ∧ dyn.nsyms ≠ 0
  · obtain ⟨_, undefs, -, scanned, rfl⟩ := buildSymtab_eq_some built present.1 present.2
    have names : ∀ strtab, (∃ undef ∈ (addNames undefs strtab).1, undef.name = name) ↔
        ∃ undef ∈ undefs, undef.name = name := by
      intro strtab
      rw [← mem_map, ← mem_map, map_addNames MachSymbol.name (fun _ _ => rfl)]
    rw [names]
    simp only [reached_iff parsed, ← mem_symbolIndices, importable_iff]
    constructor
    · rintro ⟨undef, member, named⟩
      obtain ⟨index, counted, visited⟩ := (mem_of_scan scanned).mp member
      exact ⟨index, counted, undef, visited, named⟩
    · rintro ⟨index, counted, undef, visited, named⟩
      exact ⟨undef, (mem_of_scan scanned).mpr ⟨index, counted, visited⟩, named⟩
  · have missing : dyn.symtab = none ∨ dyn.strtab = none ∨ dyn.nsyms = 0 := by
      simpa only [not_and_or, not_not, or_assoc] using present
    rw [buildSymtab, if_pos missing, Option.pure_def, Option.some.injEq] at built
    subst built
    constructor
    · simp
    · rintro ⟨index, reached, _, named, -⟩
      have counted := (reached_iff parsed index).mp reached
      exact absurd ⟨named.tables, by omega⟩ present

/-- A search that finds an undefined symbol found one with the name of the symbol asked for. -/
theorem findUndefByElfSym_eq_some {undef : MachSymbol}
    (found : findUndefByElfSym elf dyn sb index = some (some undef)) :
    index ≠ 0 ∧ undef ∈ sb.undefs ∧ ∃ sym, NamedSymbol elf dyn index sym undef.name := by
  simp only [findUndefByElfSym, Option.bind_eq_bind] at found
  split at found
  · simp at found
  rename_i counted
  simp only [Option.bind_eq_some_iff] at found
  obtain ⟨sym, read, outcome, named, found⟩ := found
  cases outcome with
  | none => simp at found
  | some name =>
    simp only at found
    split at found
    · simp at found
    have found := Option.some.inj found
    have same : undef.name = name := by simpa using find?_some found
    exact ⟨fun zero => counted (Or.inl zero), mem_of_find?_eq_some found, sym, read, same ▸ named⟩

theorem findUndefByElfSym_of_mem (counted : 0 < index ∧ index < dyn.nsyms)
    (named : NamedSymbol elf dyn index sym name) (nonempty : name ≠ [])
    (present : ∃ undef ∈ sb.undefs, undef.name = name) :
    ∃ undef, findUndefByElfSym elf dyn sb index = some (some undef) ∧ undef.name = name := by
  obtain ⟨undef, member, same⟩ := present
  have found : (sb.undefs.find? fun undef => undef.name = name).isSome := by
    rw [find?_isSome]
    exact ⟨undef, member, by simpa using same⟩
  obtain ⟨first, found⟩ := Option.isSome_iff_exists.mp found
  refine ⟨first, ?_, by simpa using find?_some found⟩
  rw [findUndefByElfSym, if_neg (by omega), named.1]
  simp only [Option.bind_eq_bind, Option.bind_some, named.2, if_neg nonempty]
  exact congrArg some found

/-- A relocation that gets a bind is bindable, and its bind names its symbol. -/
theorem bindable_of_bindSite (parsed : parseDynamic elf phdrs = some (some dyn))
    (built : buildSymtab elf dyn ranges = some sb) {segVmaddr shift : UInt64} {site : BindSite}
    (bound : bindSite elf dyn sb segVmaddr shift rela = some (some site)) :
    ∃ name, Bindable elf dyn rela name ∧ site.symbol = machName name ∧
      ¬rela.rOffset + shift < segVmaddr ∧ site.segOff = rela.rOffset + shift - segVmaddr := by
  simp only [bindSite, Option.bind_eq_bind] at bound
  split at bound
  · simp at bound
  rename_i symbolic
  simp only [Option.bind_eq_some_iff] at bound
  obtain ⟨outcome, found, bound⟩ := bound
  cases outcome with
  | none => simp at bound
  | some undef =>
    simp only at bound
    split at bound
    · simp at bound
    rename_i inside
    obtain rfl := Option.some.inj (Option.some.inj bound)
    obtain ⟨nonzero, member, named⟩ := findUndefByElfSym_eq_some found
    have imported := (mem_undefs_iff parsed built).mp ⟨undef, member, rfl⟩
    exact ⟨undef.name, ⟨by simpa using symbolic, nonzero, named, imported⟩, rfl, inside, rfl⟩

/-- A bindable relocation whose slot does not lie in front of the segment gets a bind. -/
theorem Bindable.bindSite (bindable : Bindable elf dyn rela name)
    (parsed : parseDynamic elf phdrs = some (some dyn))
    (built : buildSymtab elf dyn ranges = some sb) (member : rela ∈ dyn.relocations)
    {segVmaddr shift : UInt64} (inside : ¬rela.rOffset + shift < segVmaddr) :
    ∃ weak, bindSite elf dyn sb segVmaddr shift rela =
      some (some ⟨machName name, weak, rela.rOffset + shift - segVmaddr⟩) := by
  obtain ⟨symbolic, nonzero, ⟨_, named⟩, imported⟩ := bindable
  have nonempty : name ≠ [] := by
    obtain ⟨_, -, _, -, -, -, nonempty, -⟩ := imported
    exact nonempty
  have counted := (reached_iff parsed rela.rSym).mp
    ⟨Nat.pos_of_ne_zero nonzero, rela, member, Nat.le_refl _⟩
  obtain ⟨undef, found, same⟩ := findUndefByElfSym_of_mem counted named nonempty
    ((mem_undefs_iff parsed built).mpr imported)
  refine ⟨undef.weak, ?_⟩
  rw [Elf2macho.bindSite, if_neg (by simp [symbolic]), found, ← same]
  simp only [Option.bind_eq_bind, Option.bind_some, if_neg inside]
  rfl

/-- What the fixups of a library with data rest on. -/
structure FixupFacts (elf : Buffer) (parsed : Parsed) (dyn : DynamicInfo) (segment : Elf64Phdr)
    (layout : Layout) (dylib : Dylib) : Prop where
  dynamic : parseDynamic elf parsed.phdrs = some (some dyn)
  symbols : buildSymtab elf dyn (sectionRanges parsed.text parsed.data) = some parsed.sb
  binds : buildBinds elf dyn parsed.sb 1 layout.dataSegVmaddr layout.shift = some dylib.binds
  rebases : buildRebases elf dyn 1 layout.dataSegVmaddr layout.shift = some dylib.rebases
  ranges : dylib.ranges[1]? = some (dataRange parsed.text segment)
  shift : layout.shift = shiftOf parsed.text
  page : layout.dataSegVmaddr.toNat = dataStart parsed.text segment
  positive : 0x4000 ≤ layout.dataSegVmaddr.toNat

variable {dylib : Dylib}

theorem fixupFacts {path : CString} {platform : UInt32} {linkedit : Linkedit}
    (stages : Converted path platform elf parsed layout linkedit dylib)
    (plan : LayoutFacts parsed.text parsed.data layout) (dynamic : parsed.dyn = some dyn)
    (data : parsed.data = some segment) : FixupFacts elf parsed dyn segment layout dylib := by
  have source := parseElf_eq_ok stages.parse
  have tables := source.dynamic
  have built := source.symbols
  have streams := stages.tables
  rw [dynamic] at tables
  rw [dynamic, symtabOf] at built
  simp only [buildLinkedit, dynamic, segIdx, segVmaddr, data, Option.isSome_some, if_true,
    Option.bind_eq_bind, Option.bind_eq_some_iff] at streams
  obtain ⟨_, binds_built, _, rebases_built, _, -, result⟩ := streams
  obtain rfl := Option.some.inj result
  obtain ⟨-, -, fields⟩ := emit_eq_some stages.emitted
  obtain ⟨-, page, _, -⟩ := plan.withData segment data
  refine ⟨tables, built, ?_, ?_, ?_, plan.shift, page, ?_⟩
  · rw [fields, binds_built]
  · rw [fields, rebases_built]
  · rw [ranges_eq stages, segmentCommands, data]
    exact congrArg some (dataCommand_range plan data)
  · have first_page := page_le_outStart parsed.text
    have text_end := plan.textFile
    rw [roundUp] at text_end
    omega

/-- The bind that the loader performs for a relocation, if there is one. -/
def bindOf (elf : Buffer) (parsed : Parsed) (dyn : DynamicInfo) (layout : Layout)
    (rela : Elf64Rela) : Option Dyld.Bind :=
  (bindSite elf dyn parsed.sb layout.dataSegVmaddr layout.shift rela).join.map (BindSite.bind 1)

/-- A bind of `name` in the first library, without an addend, at an address. -/
structure BindsAt (dylib : Dylib) (address : Nat) (name : CString) (bind : Dyld.Bind) : Prop where
  symbol : bind.symbol = machName name
  ordinal : bind.ordinal = 1
  addend : bind.addend = 0
  address : Dyld.slotAddress dylib.ranges bind.slot = some address

namespace FixupFacts

theorem shift_le (facts : FixupFacts elf parsed dyn segment layout dylib) :
    layout.shift.toNat ≤ layout.dataSegVmaddr.toNat := by
  have small := shiftOf_le parsed.text
  have positive := facts.positive
  rw [facts.shift]
  omega

variable (facts : FixupFacts elf parsed dyn segment layout dylib)

include facts

theorem slotAddress_eq (inside : ¬rela.rOffset + layout.shift < layout.dataSegVmaddr) :
    slotAddress dylib.ranges ⟨1, (rela.rOffset + layout.shift - layout.dataSegVmaddr).toNat⟩ =
      some (slotVmaddr parsed.text rela) := by
  obtain ⟨-, _, difference⟩ := toNat_segOff facts.shift_le inside
  rw [slotAddress, facts.ranges, Option.map_some, difference, slotVmaddr, ← facts.shift]
  congr 1
  have page := facts.page
  simp only [dataRange]
  omega

/-- A slot that is not in front of `__DATA`; an address that wraps around is in front of it. -/
theorem inside_iff :
    ¬rela.rOffset + layout.shift < layout.dataSegVmaddr ↔
      dataStart parsed.text segment ≤ slotVmaddr parsed.text rela ∧
        slotVmaddr parsed.text rela < 2 ^ 64 := by
  rw [slotVmaddr, ← facts.shift, ← facts.page]
  constructor
  · intro inside
    obtain ⟨_, _, -⟩ := toNat_segOff facts.shift_le inside
    have bound := (rela.rOffset + layout.shift).toNat_lt
    omega
  · rintro ⟨_, small⟩
    rw [UInt64.lt_iff_toNat_lt, toNat_add_small small]
    omega

theorem decodeBinds_eq :
    decodeBinds dylib.binds = dyn.relocations.filterMap (bindOf elf parsed dyn layout) := by
  have tables : ∀ (table : Option (List Elf64Rela)) (size : UInt64) {relas : List Elf64Rela},
      bindTable table size = some relas → relas = table.getD [] := by
    intro table size relas walked
    cases table with
    | none =>
      rw [bindTable] at walked
      split at walked
      · exact (Option.some.inj walked).symm
      · cases walked
    | some => exact (Option.some.inj walked).symm
  have built := facts.binds
  simp only [buildBinds, bindSites, Option.map_eq_some_iff, Option.bind_eq_bind,
    Option.bind_eq_some_iff] at built
  obtain ⟨_, ⟨_, rela_walked, _, jmprel_walked, scanned⟩, encoded⟩ := built
  rw [← encoded, decodeBinds_encodeBinds (Or.inr rfl), scan_eq_filterMap scanned,
    map_filterMap, tables _ _ rela_walked, tables _ _ jmprel_walked]
  rfl

/-- A bindable relocation behind the start of `__DATA` has its bind in the stream. -/
theorem bindOf_of_bindable (bindable : Bindable elf dyn rela name) (member : rela ∈ dyn.relocations)
    (behind : dataStart parsed.text segment ≤ slotVmaddr parsed.text rela)
    (small : slotVmaddr parsed.text rela < 2 ^ 64) :
    ∃ bind, bindOf elf parsed dyn layout rela = some bind ∧
      BindsAt dylib (slotVmaddr parsed.text rela) name bind := by
  have inside := facts.inside_iff.mpr ⟨behind, small⟩
  obtain ⟨_, site⟩ := bindable.bindSite facts.dynamic facts.symbols member inside
  refine ⟨_, by rw [bindOf, site, Option.join_some, Option.map_some], rfl, rfl, rfl, ?_⟩
  exact facts.slotAddress_eq inside

/-- Every bind of the stream belongs to a bindable relocation behind the start of `__DATA`. -/
theorem bindable_of_bindOf
    {bind : Dyld.Bind} (made : bindOf elf parsed dyn layout rela = some bind) :
    ∃ name, Bindable elf dyn rela name ∧
      dataStart parsed.text segment ≤ slotVmaddr parsed.text rela ∧
        BindsAt dylib (slotVmaddr parsed.text rela) name bind := by
  simp only [bindOf, Option.map_eq_some_iff, Option.join_eq_some_iff] at made
  obtain ⟨_, bound, rfl⟩ := made
  obtain ⟨name, bindable, symbol, inside, segOff⟩ :=
    bindable_of_bindSite facts.dynamic facts.symbols bound
  refine ⟨name, bindable, (facts.inside_iff.mp inside).1, symbol, rfl, rfl, ?_⟩
  rw [BindSite.bind, segOff]
  exact facts.slotAddress_eq inside

end FixupFacts

/-- No bind of some relocations meets an address exactly if the slot of none that is bindable
does. -/
theorem filter_bindOf_eq_nil (facts : FixupFacts elf parsed dyn segment layout dylib)
    {items : List Elf64Rela} (subset : ∀ rela ∈ items, rela ∈ dyn.relocations) {address : Nat}
    (small : address + 8 ≤ 2 ^ 64) :
    ((items.filterMap (bindOf elf parsed dyn layout)).filter
        fun bind => meets address (slotAddress dylib.ranges bind.slot)) = [] ↔
      ∀ other ∈ items, ∀ otherName, Bindable elf dyn other otherName →
        dataStart parsed.text segment ≤ slotVmaddr parsed.text other →
          meets address (some (slotVmaddr parsed.text other)) = false := by
  simp only [filter_eq_nil_iff, mem_filterMap, Bool.not_eq_true]
  constructor
  · intro quiet other member otherName bindable behind
    by_contra met
    have close := meets_some.mp (Bool.not_eq_false _ ▸ met)
    obtain ⟨bind, made, binds⟩ :=
      facts.bindOf_of_bindable bindable (subset other member) behind (by omega)
    have apart := quiet bind ⟨other, member, made⟩
    rw [binds.address] at apart
    exact met apart
  · rintro quiet bind ⟨other, member, made⟩
    obtain ⟨otherName, bindable, behind, binds⟩ := facts.bindable_of_bindOf made
    rw [binds.address]
    exact quiet other member otherName bindable behind

/-- A bind is the only one of its slot exactly if no other bindable relocation meets the slot. -/
theorem filter_decodeBinds (facts : FixupFacts elf parsed dyn segment layout dylib)
    {before after : List Elf64Rela} {bind : Dyld.Bind}
    (split : dyn.relocations = before ++ rela :: after)
    (made : bindOf elf parsed dyn layout rela = some bind)
    (binds : BindsAt dylib (slotVmaddr parsed.text rela) name bind)
    (small : slotVmaddr parsed.text rela + 8 ≤ 2 ^ 64) (only : Dyld.Bind) :
    ((decodeBinds dylib.binds).filter fun bind =>
        meets (slotVmaddr parsed.text rela) (slotAddress dylib.ranges bind.slot)) = [only] ↔
      only = bind ∧ ∀ other ∈ before ++ after, ∀ otherName, Bindable elf dyn other otherName →
        dataStart parsed.text segment ≤ slotVmaddr parsed.text other →
          meets (slotVmaddr parsed.text rela) (some (slotVmaddr parsed.text other)) = false := by
  have subset : ∀ other ∈ before ++ after, other ∈ dyn.relocations := by
    intro other member
    rw [split]
    rcases mem_append.mp member with earlier | later
    · exact mem_append_left _ earlier
    · exact mem_append_right _ (mem_cons_of_mem _ later)
  have own : meets (slotVmaddr parsed.text rela) (slotAddress dylib.ranges bind.slot) = true := by
    rw [binds.address, meets_some]
    omega
  rw [← filter_bindOf_eq_nil facts subset small, facts.decodeBinds_eq, split, filterMap_append,
    filterMap_cons_some made, filter_append, filter_cons_of_pos (by exact own),
    filterMap_append, filter_append, append_eq_nil_iff, append_eq_singleton_iff]
  simp only [cons.injEq, reduceCtorEq, and_false, or_false]
  constructor
  · rintro ⟨quiet_before, rfl, quiet_after⟩
    exact ⟨rfl, quiet_before, quiet_after⟩
  · rintro ⟨rfl, quiet_before, quiet_after⟩
    exact ⟨quiet_before, rfl, quiet_after⟩

theorem dataEnd_small (text : Elf64Phdr) (addressable : segment.Addressable) :
    dataEnd text segment ≤ 2 ^ 63 + 0x8000 := by
  obtain ⟨_, _⟩ := addressable
  have shift := shiftOf_le text
  rw [dataEnd, dataFileEnd, roundUp, roundUp, outStart]
  omega

open Option CString

/-- The relocation is of a symbolic type and against an undefined named global or weak symbol. -/
def Imports (elf : Buffer) (dyn : DynamicInfo) (rela : Elf64Rela) (name : CString) : Prop :=
  rela.isSymbolic = true ∧ rela.rSym ≠ 0 ∧
    ∃ sym, NamedSymbol elf dyn rela.rSym sym name ∧ sym.isGlobal = true ∧ sym.stShndx = 0 ∧
      name ≠ []

/-- One bind meets the slot, which then holds the address of the symbol plus the addend. -/
structure ImportBound (dylib : Dylib) (address : Nat) (name : CString) (addend : UInt64) :
    Prop where
  bind : ∃ bind,
    (Dyld.decodeBinds dylib.binds).filter
        (fun bind => meets address (Dyld.slotAddress dylib.ranges bind.slot)) = [bind] ∧
      Dyld.slotAddress dylib.ranges bind.slot = some address ∧ bind.symbol = underscore :: name
  value : ∀ libraries : List Dyld.Library, libraries.length = dylib.dylibs.length →
    (∃ library ∈ libraries, library (underscore :: name) ≠ none) →
      ∀ memory, ∃ library ∈ libraries, ∃ symbol, library (underscore :: name) = some symbol ∧
        (Dyld.applyBinds dylib.ranges (Dyld.resolveIn libraries) (Dyld.decodeBinds dylib.binds)
          memory).loadWord address = symbol + addend

/-- A short unversioned name, a slot of its own, one library at most, and then no addend. -/
structure Expressible (elf : Buffer) (parsed : Parsed) (dyn : DynamicInfo) (rela : Elf64Rela)
    (name : CString) : Prop where
  short : name.length ≤ 254
  unversioned : atSign ∉ name
  alone : ∃ before after, dyn.relocations = before ++ rela :: after ∧
    ∀ other ∈ before ++ after, ∀ otherName, Bindable elf dyn other otherName →
      ∀ segment, parsed.data = some segment →
        dataStart parsed.text segment ≤ slotVmaddr parsed.text other →
          meets (slotVmaddr parsed.text rela) (some (slotVmaddr parsed.text other)) = false
  library : dyn.needed.length ≤ 1
  addend : dyn.needed.length = 1 → rela.rAddend = 0

theorem Imports.bindable (imports : Imports elf dyn rela name) (member : rela ∈ dyn.relocations)
    (unversioned : atSign ∉ name) : Bindable elf dyn rela name := by
  obtain ⟨symbolic, nonzero, sym, named, global, undefined, nonempty⟩ := imports
  refine ⟨symbolic, nonzero, ⟨sym, named⟩, rela.rSym, ?_, sym, named, global, undefined,
    nonempty, unversioned⟩
  exact ⟨Nat.pos_of_ne_zero nonzero, rela, member, Nat.le_refl _⟩

theorem length_loadDylibNames {phdrs : List Elf64Phdr} {dylibs : List CString}
    (parsed : parseDynamic elf phdrs = some (some dyn)) (strings : dyn.strtab ≠ none)
    (names : loadDylibNames elf (some dyn) = some dylibs) :
    dylibs.length = dyn.needed.length := by
  have placed : ∀ place ∈ dyn.needed, place ≠ none := by
    rw [parseDynamic] at parsed
    split at parsed
    · simp at parsed
    simp only [bind_eq_bind, bind_eq_some_iff] at parsed
    obtain ⟨_, _, _, _, _, _, result⟩ := parsed
    obtain rfl := some.inj (some.inj result)
    intro place member missing
    obtain ⟨_, _, rfl⟩ := mem_map.mp member
    exact strings (map_eq_none_iff.mp missing)
  rw [loadDylibNames, elim_some] at names
  have visited := scan_visited names
  rw [scan_eq_filterMap names, filterMap_length_eq_length]
  intro place member
  cases place with
  | none => exact absurd rfl (placed none member)
  | some =>
    obtain ⟨_, found⟩ := isSome_iff_exists.mp (visited _ member)
    obtain ⟨_, _, rfl⟩ := map_eq_some_iff.mp found
    rw [found]
    rfl

theorem resolveIn_bindsAt {address : Nat} {bind : Dyld.Bind}
    (binds : BindsAt dylib address name bind) (libraries : List Dyld.Library) :
    resolveIn libraries bind =
      ((libraries.head?.bind fun library => library (machName name)).getD 0) := by
  rw [resolveIn, binds.ordinal, binds.addend, binds.symbol, Nat.sub_self,
    ← head?_eq_getElem?, UInt64.add_zero]

theorem Expressible.importBound (facts : FixupFacts elf parsed dyn segment layout dylib)
    (data : parsed.data = some segment) (addressable : segment.Addressable)
    (names : loadDylibNames elf (some dyn) = some dylib.dylibs)
    (expressible : Expressible elf parsed dyn rela name) (imports : Imports elf dyn rela name)
    (behind : dataStart parsed.text segment ≤ slotVmaddr parsed.text rela)
    (ends : slotVmaddr parsed.text rela + 8 ≤ dataEnd parsed.text segment) :
    ImportBound dylib (slotVmaddr parsed.text rela) name rela.rAddend := by
  have small := dataEnd_small parsed.text addressable
  obtain ⟨_, _, split, alone⟩ := expressible.alone
  have member : rela ∈ dyn.relocations := by
    rw [split]
    exact mem_append_right _ mem_cons_self
  have count := length_loadDylibNames facts.dynamic
    (by obtain ⟨-, -, sym, named, -⟩ := imports; exact named.tables.2) names
  obtain ⟨bind, made, binds⟩ := facts.bindOf_of_bindable
    (imports.bindable member expressible.unversioned) member behind (by omega)
  have once := (filter_decodeBinds facts split made binds (by omega) bind).mpr
    ⟨rfl, fun other inside otherName bindable => alone other inside otherName bindable segment data⟩
  have symbol : bind.symbol = underscore :: name := by
    rw [binds.symbol, machName, take_of_length_le expressible.short]
  refine ⟨⟨bind, once, binds.address, symbol⟩, ?_⟩
  rintro libraries length ⟨library, inside, defines⟩ memory
  have single : libraries = [library] := by
    have one : libraries.length = 1 := by
      have := length_pos_of_mem inside
      have := expressible.library
      omega
    obtain ⟨_, rfl⟩ := length_eq_one_iff.mp one
    rw [mem_singleton.mp inside]
  obtain ⟨address, found⟩ := ne_none_iff_exists'.mp defines
  refine ⟨library, inside, address, found, ?_⟩
  have no_addend : rela.rAddend = 0 := by
    apply expressible.addend
    rw [← count, ← length, single]
    rfl
  rw [applyBinds_eq, loadWord_updateWords_once memory once binds.address, resolveIn_bindsAt binds, single,
    head?_cons, bind_some, ← binds.symbol, symbol, found, no_addend, getD_some,
    UInt64.add_zero]

theorem ImportBound.expressible (facts : FixupFacts elf parsed dyn segment layout dylib)
    (data : parsed.data = some segment) (addressable : segment.Addressable)
    (names : loadDylibNames elf (some dyn) = some dylib.dylibs) (member : rela ∈ dyn.relocations)
    (bound : ImportBound dylib (slotVmaddr parsed.text rela) name rela.rAddend)
    (imports : Imports elf dyn rela name)
    (behind : dataStart parsed.text segment ≤ slotVmaddr parsed.text rela)
    (ends : slotVmaddr parsed.text rela + 8 ≤ dataEnd parsed.text segment) :
    Expressible elf parsed dyn rela name := by
  have small := dataEnd_small parsed.text addressable
  obtain ⟨only, filtered, here, symbol⟩ := bound.bind
  have named : name.length ≤ 254 ∧ atSign ∉ name := by
    have listed : only ∈ decodeBinds dylib.binds :=
      mem_of_mem_filter (filtered ▸ mem_singleton_self only)
    rw [facts.decodeBinds_eq, mem_filterMap] at listed
    obtain ⟨_, -, made⟩ := listed
    obtain ⟨longName, ⟨-, -, -, _, -, _, -, -, -, -, unversioned⟩, -, binds⟩ :=
      facts.bindable_of_bindOf made
    obtain rfl : longName.take 254 = name := (cons.inj (binds.symbol.symm.trans symbol)).2
    rw [length_take]
    exact ⟨Nat.min_le_left _ _, fun inside => unversioned (mem_of_mem_take inside)⟩
  obtain ⟨before, after, split⟩ := append_of_mem member
  obtain ⟨_, made, binds⟩ := facts.bindOf_of_bindable (imports.bindable member named.2)
    member behind (by omega)
  obtain ⟨rfl, alone⟩ := (filter_decodeBinds facts split made binds (by omega) only).mp filtered
  have count := length_loadDylibNames facts.dynamic
    (by obtain ⟨-, -, sym, named, -⟩ := imports; exact named.tables.2) names
  have word : ∀ libraries memory, (applyBinds dylib.ranges (resolveIn libraries)
      (decodeBinds dylib.binds) memory).loadWord (slotVmaddr parsed.text rela) =
        (libraries.head?.bind fun library => library (machName name)).getD 0 := by
    intro libraries memory
    rw [applyBinds_eq, loadWord_updateWords_once memory filtered here, resolveIn_bindsAt binds]
  refine ⟨named.1, named.2, ⟨before, after, split, ?_⟩, ?_, ?_⟩
  · intro other inside otherName bindable otherSegment otherData
    obtain rfl : segment = otherSegment := some.inj (data.symm.trans otherData)
    exact alone other inside otherName bindable
  · -- Let only the last library define the symbol, at an address for which zero is wrong.
    by_contra more
    obtain ⟨others, length⟩ : ∃ others, dyn.needed.length = others + 1 + 1 :=
      ⟨dyn.needed.length - 2, by omega⟩
    obtain ⟨_, inside, _, found, value⟩ := bound.value
      (replicate (others + 1) (fun _ => none) ++ [fun _ => some (1 - rela.rAddend)])
      (by rw [count, length, length_append, length_replicate, length_singleton])
      ⟨_, mem_append_right _ (mem_singleton_self _), by simp⟩ (fun _ => 0)
    rw [word, replicate_succ, cons_append, head?_cons, bind_some, getD_none] at value
    rcases mem_append.mp inside with silent | last
    · rw [eq_of_mem_replicate silent] at found
      cases found
    rw [mem_singleton.mp last, some.injEq] at found
    rw [← found, UInt64.sub_add_cancel] at value
    exact absurd value (by decide)
  · intro one
    obtain ⟨_, inside, _, found, value⟩ := bound.value [fun _ => some 0]
      (by rw [count, one, length_singleton]) ⟨_, mem_singleton_self _, by simp⟩
      (fun _ => 0)
    rw [mem_singleton.mp inside, some.injEq] at found
    rw [word, ← found, UInt64.zero_add] at value
    exact value.symm

/-- Every import in `__DATA` is bound as it should be exactly if it is expressible. -/
theorem convert_imports_iff {path : CString} {platform : UInt32} {elf : Buffer} {parsed : Parsed}
    {dyn : DynamicInfo} {dylib : Dylib} (converted : convert path platform elf = .ok dylib)
    (parse : parseElf elf = .ok parsed) (dynamic : parsed.dyn = some dyn)
    (text_addressable : parsed.text.Addressable)
    (data_addressable : ∀ segment, parsed.data = some segment → segment.Addressable) :
    (∀ rela ∈ dyn.relocations, ∀ name, Imports elf dyn rela name → InData parsed rela →
        ImportBound dylib (slotVmaddr parsed.text rela) name rela.rAddend) ↔
      ∀ rela ∈ dyn.relocations, ∀ name, Imports elf dyn rela name → InData parsed rela →
        Expressible elf parsed dyn rela name := by
  obtain ⟨_, _, stages⟩ := convert_eq_ok converted parse
  have plan := planLayout_facts text_addressable data_addressable stages.plan
  obtain ⟨names, -, -⟩ := emit_eq_some stages.emitted
  rw [dynamic] at names
  constructor
  · rintro bound rela member name imports ⟨segment, data, behind, ends⟩
    exact (bound rela member name imports ⟨segment, data, behind, ends⟩).expressible
      (fixupFacts stages plan dynamic data) data (data_addressable segment data) names member
      imports behind ends
  · rintro expressible rela member name imports ⟨segment, data, behind, ends⟩
    exact (expressible rela member name imports ⟨segment, data, behind, ends⟩).importBound
      (fixupFacts stages plan dynamic data) data (data_addressable segment data) names imports
      behind ends

/-- The code and the data of a small library. -/
def importingText : Elf64Phdr :=
  { pType := ptLoad, pFlags := 5, pOffset := 0, pVaddr := 0, pFilesz := 0x400, pMemsz := 0x400 }

def importingData : Elf64Phdr :=
  { pType := ptLoad, pFlags := 6, pOffset := 0x400, pVaddr := 0x4400, pFilesz := 0x10,
    pMemsz := 0x10 }

/-- A library with one relocation against the undefined symbol `f` and some needed libraries. -/
def importingElf (needed : List Nat) (rela : Elf64Rela) : Buffer :=
  elfWithSegments 0x600
    [importingText, importingData,
      { pType := ptDynamic, pFlags := 4, pOffset := 0x200, pVaddr := 0x200, pFilesz := 0x80,
        pMemsz := 0x80 }]
    [dynPart 0x200 (needed.map (fun off => (1, off)) ++
        [(5, 0x300), (10, 0x10), (6, 0x320), (7, 0x380), (8, 24)]),
      { offset := 0x301, width := 5, value := joinFields [(2, 0x66), (2, 0x61), (1, 0x62)] },
      Elf64Sym.part { stName := 1, stInfo := 0x10, stShndx := 0, stValue := 0 } 0x338,
      rela.part 0x380]

/-- What `parse_dynamic` makes of it. -/
def importingDyn (needed : List Nat) (rela : Elf64Rela) : DynamicInfo :=
  { needed := needed.map fun off => some (0x300 + off)
    strtab := some 0x300
    strsz := 0x10
    symtab := some 0x320
    nsyms := 2
    rela := some [rela]
    relasz := 24
    jmprel := none
    pltrelsz := 0 }

/-- An `R_AARCH64_GLOB_DAT` against symbol 1 in the first word of the data. -/
def globDatOfSymbolOne : Elf64Rela := { rOffset := 0x4400, rInfo := 0x100000401, rAddend := 0 }

variable {needed : List Nat}

theorem importingElf_imports (count : needed = [3] ∨ needed = [3, 5]) :
    Imports (importingElf needed globDatOfSymbolOne) (importingDyn needed globDatOfSymbolOne)
      globDatOfSymbolOne (ofLiteral "f") := by
  refine ⟨by decide, by decide, { stName := 1, stInfo := 0x10, stShndx := 0, stValue := 0 },
    ?_, by decide, rfl, by decide⟩
  rcases count with rfl | rfl
  · exact ⟨by decide +kernel, by decide +kernel⟩
  · exact ⟨by decide +kernel, by decide +kernel⟩

theorem importingElf_parse (count : needed = [3] ∨ needed = [3, 5]) :
    ∃ parsed, parseElf (importingElf needed globDatOfSymbolOne) = .ok parsed ∧
      (parsed.dyn, parsed.text, parsed.data) =
        (some (importingDyn needed globDatOfSymbolOne), importingText, some importingData) := by
  refine exists_of_view (show (parseElf _).toOption.map
    (fun parsed => (parsed.dyn, parsed.text, parsed.data)) = some _ from ?_)
  rcases count with rfl | rfl
  · decide +kernel
  · decide +kernel

/-- With one needed library the slot gets the address of the symbol. -/
theorem convert_imports_one_library :
    ∃ parsed dylib, convert [] 2 (importingElf [3] globDatOfSymbolOne) = .ok dylib ∧
      parseElf (importingElf [3] globDatOfSymbolOne) = .ok parsed ∧
        parsed.dyn = some (importingDyn [3] globDatOfSymbolOne) ∧
          Imports (importingElf [3] globDatOfSymbolOne) (importingDyn [3] globDatOfSymbolOne)
              globDatOfSymbolOne (ofLiteral "f") ∧
            ImportBound dylib (slotVmaddr parsed.text globDatOfSymbolOne) (ofLiteral "f")
              globDatOfSymbolOne.rAddend := by
  obtain ⟨dylib, converted, -⟩ := exists_of_view
    (show (convert [] 2 (importingElf [3] globDatOfSymbolOne)).toOption.map (fun _ => ()) =
      some () by decide +kernel)
  obtain ⟨parsed, parse, seen⟩ := importingElf_parse (Or.inl rfl)
  obtain ⟨dynamic, text, data⟩ := by simpa only [Prod.mk.injEq] using seen
  have imports := importingElf_imports (Or.inl rfl)
  have inData : InData parsed globDatOfSymbolOne := by
    refine ⟨importingData, data, ?_⟩
    rw [text]
    decide
  refine ⟨parsed, dylib, converted, parse, dynamic, imports,
    (convert_imports_iff converted parse dynamic ?_ ?_).mpr ?_ _ (mem_singleton_self _) _
      imports inData⟩
  · rw [text]
    decide
  · intro segment same
    obtain rfl := some.inj (data.symm.trans same)
    decide
  · rintro rela member name ⟨-, -, sym, named, -⟩ -
    obtain rfl := mem_singleton.mp member
    obtain ⟨-, -, other, otherNamed, -⟩ := imports
    obtain rfl : sym = other := some.inj (named.1.symm.trans otherNamed.1)
    obtain rfl : name = ofLiteral "f" :=
      some.inj (some.inj (named.2.symm.trans otherNamed.2))
    exact ⟨by decide, by decide, ⟨[], [], rfl, by simp⟩, by decide, fun _ => rfl⟩

/-- With two needed libraries only the first one is asked, so a symbol of the second one is
lost. -/
theorem convert_imports_lost :
    ∃ parsed dylib, convert [] 2 (importingElf [3, 5] globDatOfSymbolOne) = .ok dylib ∧
      parseElf (importingElf [3, 5] globDatOfSymbolOne) = .ok parsed ∧
        parsed.dyn = some (importingDyn [3, 5] globDatOfSymbolOne) ∧
          Imports (importingElf [3, 5] globDatOfSymbolOne) (importingDyn [3, 5] globDatOfSymbolOne)
              globDatOfSymbolOne (ofLiteral "f") ∧
            InData parsed globDatOfSymbolOne ∧
              ¬ImportBound dylib (slotVmaddr parsed.text globDatOfSymbolOne)
                (ofLiteral "f") globDatOfSymbolOne.rAddend := by
  obtain ⟨dylib, converted, seen⟩ := exists_of_view
    (show (convert [] 2 (importingElf [3, 5] globDatOfSymbolOne)).toOption.map
      (fun dylib => (decodeBinds dylib.binds, dylib.ranges, dylib.dylibs.length)) =
        some ([⟨1, ofLiteral "_f", false, ⟨1, 0x400⟩, 0⟩],
          [⟨0, 0x8000, 0, 0x8000⟩, ⟨0x8000, 0x4000, 0x8000, 0x4000⟩,
            ⟨0xc000, 0x4000, 0xc000, 48⟩], 2) by decide +kernel)
  obtain ⟨binds, ranges, count⟩ := by simpa only [Prod.mk.injEq] using seen
  obtain ⟨parsed, parse, seen⟩ := importingElf_parse (Or.inr rfl)
  obtain ⟨dynamic, text, data⟩ := by simpa only [Prod.mk.injEq] using seen
  refine ⟨parsed, dylib, converted, parse, dynamic, importingElf_imports (Or.inr rfl),
    ⟨importingData, data, ?_⟩, ?_⟩
  · rw [text]
    decide
  · intro bound
    obtain ⟨_, inside, _, found, value⟩ := bound.value
      [fun _ => none, fun _ => some 0x1000] count.symm
      ⟨_, mem_cons_of_mem _ (mem_singleton_self _), by simp⟩ (fun _ => 0)
    rw [binds, ranges, text] at value
    have zero : (applyBinds
        [⟨0, 0x8000, 0, 0x8000⟩, ⟨0x8000, 0x4000, 0x8000, 0x4000⟩, ⟨0xc000, 0x4000, 0xc000, 48⟩]
        (resolveIn [fun _ => none, fun _ => some 0x1000])
        [⟨1, ofLiteral "_f", false, ⟨1, 0x400⟩, 0⟩] (fun _ => 0)).loadWord
          (slotVmaddr importingText globDatOfSymbolOne) = 0 := by decide +kernel
    rw [zero] at value
    rcases mem_pair.mp inside with rfl | rfl
    · cases found
    · obtain rfl := some.inj found
      exact absurd value (by decide)

end AlpineOnIOS.Elf2macho
