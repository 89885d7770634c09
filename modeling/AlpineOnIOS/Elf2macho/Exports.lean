import AlpineOnIOS.Elf2macho.Layout

/-!
# Exported symbols

A defined global symbol should be found in the symbol table and in the export trie. The converter
visits the symbols up to the highest index that a relocation uses, and cuts their names.
-/

namespace AlpineOnIOS.Elf2macho

open Foundation List CString

/-- A named, unversioned, defined global or weak symbol, neither a section nor a file. -/
def Exportable (elf : Buffer) (dyn : DynamicInfo) (index : Nat) (name : CString)
    (value : UInt64) : Prop :=
  ∃ sym, NamedSymbol elf dyn index sym name ∧ sym.isGlobal = true ∧ sym.stShndx ≠ 0 ∧
    ¬(sym.stType = sttSection ∨ sym.stType = sttFile) ∧ name ≠ [] ∧ atSign ∉ name ∧
      sym.stValue = value

/-- A name is defined in the symbol table and exported by the trie, both at the shifted value. -/
structure Exported (dylib : Dylib) (name : CString) (value : UInt64) : Prop where
  symbol : ∃ symbol ∈ dylib.symbols.exts ++ dylib.symbols.undefs,
    dylib.symbols.nameAt symbol = some (underscore :: name) ∧ symbol.type = nSect ||| nExt ∧
      symbol.nValue dylib.shift = value + dylib.shift
  lookup : Dyld.trieLookup dylib.exportTrie (underscore :: name) =
    some (value + dylib.shift).toNat

/-- The last reached symbol whose name starts with these at most 254 bytes has this value. -/
def LastReached (elf : Buffer) (dyn : DynamicInfo) (name : CString) (value : UInt64) : Prop :=
  ∃ index, Reached dyn index ∧
    (∃ longName, Exportable elf dyn index longName value ∧ longName.take 254 = name) ∧
      ∀ later, index < later → Reached dyn later →
        ∀ laterName laterValue, Exportable elf dyn later laterName laterValue →
          laterName.take 254 ≠ name

variable (ranges : SectionRanges)

/-- The entry that the first pass of `build_symtab` makes of a symbol. -/
def definedSymbol (sym : Elf64Sym) (name : CString) : MachSymbol :=
  { name
    vaddr := sym.stValue
    type := nSect ||| nExt
    sect := ranges.sect sym
    desc := 0
    weak := false }

variable {dyn : DynamicInfo} {elf : Buffer} {index : Nat}

variable {name : CString} {value : UInt64}

theorem Exportable.extSymbol (exportable : Exportable elf dyn index name value)
    (ranges : SectionRanges) :
    ∃ sym, sym.stValue = value ∧
      extSymbol elf dyn ranges index = some (some (definedSymbol ranges sym name)) := by
  obtain ⟨sym, ⟨read, named⟩, global, defined, plain, nonempty, unversioned, valued⟩ := exportable
  have usable := usableName_eq_some.mpr ⟨named, nonempty, unversioned⟩
  exact ⟨sym, valued,
    by simp [Elf2macho.extSymbol, definedSymbol, read, global, defined, plain, usable]⟩

variable {ranges}

theorem exportable_of_extSymbol {symbol : MachSymbol}
    (visited : extSymbol elf dyn ranges index = some (some symbol)) :
    Exportable elf dyn index symbol.name symbol.vaddr := by
  obtain ⟨sym, read, visited⟩ := Option.bind_eq_some_iff.mp visited
  split_ifs at visited with isLocal undefined special
  iterate 3 simp at visited
  obtain ⟨_, usable, visited⟩ := Option.bind_eq_some_iff.mp visited
  obtain ⟨_, rfl, rfl⟩ := Option.map_eq_some_iff.mp (Option.some.inj visited)
  obtain ⟨named, nonempty, unversioned⟩ := usableName_eq_some.mp usable
  exact ⟨sym, ⟨read, named⟩, by simpa using isLocal, undefined, special, nonempty, unversioned, rfl⟩

/-- The defined symbols that the first pass of `build_symtab` collects. -/
def definedSymbols (elf : Buffer) (dyn : DynamicInfo) (ranges : SectionRanges) :
    List MachSymbol :=
  (symbolIndices dyn).filterMap fun index => (extSymbol elf dyn ranges index).join

variable {sb : SymtabBuilder}

/-- The defined symbols of a built table are those of the first pass, named by its strings. -/
theorem buildSymtab_exts (built : buildSymtab elf dyn ranges = some sb)
    (present : dyn.symtab ≠ none ∧ dyn.strtab ≠ none) (counted : dyn.nsyms ≠ 0) :
    (∀ {β : Type} (view : MachSymbol → β),
        (∀ symbol strx, view { symbol with strx } = view symbol) →
          sb.exts.map view = (definedSymbols elf dyn ranges).map view) ∧
      ∀ symbol ∈ sb.exts, sb.nameAt symbol = some (machName symbol.name) := by
  obtain ⟨exts, undefs, scanned, -, rfl⟩ := buildSymtab_eq_some built present counted
  constructor
  · intro β view blind
    rw [map_addNames view blind, scan_eq_filterMap scanned, definedSymbols]
  · intro symbol member
    obtain ⟨_, length, pointed⟩ := (addNames_pointed exts [0]).2 symbol member
    obtain ⟨_, whole⟩ := pointed.trans (addNames_pointed undefs (addNames exts [0]).2).1
    rw [SymtabBuilder.nameAt, ← whole, append_assoc, ← length, drop_left,
      parse_stored_append, Option.map_some]

theorem lastInsertion_indices (entry : Nat → Option (CString × Nat)) (count : Nat)
    (name : CString) (offset : Nat) :
    lastInsertion (((range count).map (· + 1)).filterMap entry) name = some offset ↔
      ∃ index, 0 < index ∧ index ≤ count ∧ entry index = some (name, offset) ∧
        ∀ later, index < later → later ≤ count →
          ∀ other, entry later = some other → other.1 ≠ name := by
  induction count with
  | zero =>
    constructor
    · simp [lastInsertion]
    · rintro ⟨_, _, _, -⟩
      omega
  | succ count induction =>
    rw [range_succ, map_append, filterMap_append, map_singleton]
    by_cases newest : ∃ last, entry (count + 1) = some (name, last)
    · obtain ⟨_, found⟩ := newest
      simp only [filterMap_cons, found, filterMap_nil, lastInsertion_concat, if_true,
        Option.some.injEq]
      constructor
      · rintro rfl
        exact ⟨count + 1, by omega, le_refl _, found, fun later above bound => by omega⟩
      · rintro ⟨index, -, _, here, unique⟩
        have last_index : index = count + 1 := by
          by_contra earlier
          exact unique (count + 1) (by omega) (le_refl _) _ found rfl
        rw [last_index, found] at here
        simpa using here
    have same : lastInsertion (((range count).map (· + 1)).filterMap entry ++
        [count + 1].filterMap entry) name =
          lastInsertion (((range count).map (· + 1)).filterMap entry) name := by
      cases found : entry (count + 1) with
      | none => simp [found]
      | some other =>
        have different : name ≠ other.1 := by
          rintro rfl
          exact newest ⟨other.2, found⟩
        simp only [filterMap_cons, found, filterMap_nil, lastInsertion_concat, if_neg different]
    rw [same, induction]
    constructor
    · rintro ⟨index, positive, _, here, unique⟩
      refine ⟨index, positive, by omega, here, ?_⟩
      intro later above later_bound other found same_name
      rcases Nat.lt_or_ge count later with beyond | within
      · obtain rfl : later = count + 1 := by omega
        exact newest ⟨other.2, by rw [found, ← same_name]⟩
      · exact unique later above within other found same_name
    · rintro ⟨index, positive, _, here, unique⟩
      have within : index ≠ count + 1 := by
        rintro rfl
        exact newest ⟨offset, here⟩
      exact ⟨index, positive, by omega, here,
        fun later above later_bound => unique later above (by omega)⟩

/-- The trie entry of a symbol, if the first pass takes it. -/
def trieEntry (elf : Buffer) (dyn : DynamicInfo) (ranges : SectionRanges) (shift : UInt64)
    (index : Nat) : Option (CString × Nat) :=
  (extSymbol elf dyn ranges index).join.map fun symbol =>
    (machName symbol.name, (symbol.vaddr + shift).toNat)

variable {key : CString}

theorem trieEntry_eq_some {shift : UInt64} {offset : Nat} :
    trieEntry elf dyn ranges shift index = some (key, offset) ↔
      ∃ name value, Exportable elf dyn index name value ∧ machName name = key ∧
        (value + shift).toNat = offset := by
  simp only [trieEntry, Option.map_eq_some_iff, Option.join_eq_some_iff, Prod.mk.injEq]
  constructor
  · rintro ⟨symbol, visited, named, placed⟩
    exact ⟨symbol.name, symbol.vaddr, exportable_of_extSymbol visited, named, placed⟩
  · rintro ⟨_, _, exportable, named, placed⟩
    obtain ⟨_, rfl, visited⟩ := exportable.extSymbol ranges
    exact ⟨_, visited, named, placed⟩

theorem machName_eq_cons : machName name = underscore :: key ↔ name.take 254 = key := by
  simp [machName]

variable {shift : UInt64}

theorem trieEntry_named_iff :
    trieEntry elf dyn ranges shift index = some (underscore :: name, (value + shift).toNat) ↔
      ∃ longName, Exportable elf dyn index longName value ∧ longName.take 254 = name := by
  rw [trieEntry_eq_some]
  constructor
  · rintro ⟨longName, other, exportable, named, same⟩
    obtain rfl : other = value := by
      simpa using UInt64.toNat.inj same
    exact ⟨longName, exportable, machName_eq_cons.mp named⟩
  · rintro ⟨longName, exportable, cut⟩
    exact ⟨longName, value, exportable, machName_eq_cons.mpr cut, rfl⟩

theorem trieEntry_unnamed_iff :
    (∀ other, trieEntry elf dyn ranges shift index = some other → other.1 ≠ underscore :: name) ↔
      ∀ longName value, Exportable elf dyn index longName value → longName.take 254 ≠ name := by
  constructor
  · intro avoided longName value exportable cut
    exact avoided _ (trieEntry_eq_some.mpr ⟨_, _, exportable, machName_eq_cons.mpr cut, rfl⟩) rfl
  · rintro avoided ⟨_, _⟩ entry same
    obtain ⟨longName, value, exportable, named, -⟩ := trieEntry_eq_some.mp entry
    exact avoided longName value exportable (machName_eq_cons.mp (named.trans same))

variable {phdrs : List Elf64Phdr}

/-- The last entry of a name is the one of the last reached symbol with the name. -/
theorem lastInsertion_exportEntries (shift : UInt64) (name : CString) (value : UInt64)
    (parsed : parseDynamic elf phdrs = some (some dyn))
    (built : buildSymtab elf dyn ranges = some sb) :
    lastInsertion (exportEntries sb shift) (underscore :: name) = some (value + shift).toNat ↔
      LastReached elf dyn name value := by
  have reached : ∀ index, Reached dyn index ↔ 0 < index ∧ index ≤ dyn.nsyms - 1 := by
    intro index
    rw [reached_iff parsed]
    omega
  by_cases present : (dyn.symtab ≠ none ∧ dyn.strtab ≠ none) ∧ dyn.nsyms ≠ 0
  · have entries : exportEntries sb shift =
        ((range (dyn.nsyms - 1)).map (· + 1)).filterMap (trieEntry elf dyn ranges shift) := by
      rw [exportEntries, (buildSymtab_exts built present.1 present.2).1 _ (fun _ _ => rfl),
        definedSymbols, symbolIndices, map_filterMap]
      rfl
    rw [entries, lastInsertion_indices, LastReached]
    simp only [trieEntry_named_iff, trieEntry_unnamed_iff, reached, and_assoc]
    constructor
    · rintro ⟨index, positive, bound, exportable, unique⟩
      exact ⟨index, positive, bound, exportable,
        fun later above reached => unique later above reached.2⟩
    · rintro ⟨index, positive, bound, exportable, unique⟩
      exact ⟨index, positive, bound, exportable,
        fun later above later_bound => unique later above ⟨by omega, later_bound⟩⟩
  · have missing : dyn.symtab = none ∨ dyn.strtab = none ∨ dyn.nsyms = 0 := by
      simpa only [not_and_or, not_not, or_assoc] using present
    rw [buildSymtab, if_pos missing, Option.pure_def, Option.some.injEq] at built
    subst built
    constructor
    · simp [exportEntries, lastInsertion]
    · rintro ⟨index, here, ⟨_, ⟨_, named, -⟩, -⟩, -⟩
      have counted := (reached_iff parsed index).mp here
      exact absurd ⟨named.tables, by omega⟩ present

theorem exportTrieOf_lookup {trie : List UInt8}
    (settled : (exportSizing (exportEntries sb shift)).settled = true)
    (built : exportTrieOf sb shift = some trie) (char : CChar) (name : CString) :
    Dyld.trieLookup trie (char :: name) = lastInsertion (exportEntries sb shift) (char :: name) := by
  rw [exportTrieOf] at built
  split at built
  · rename_i none_defined
    obtain rfl := Option.some.inj built
    rw [exportEntries, none_defined]
    rfl
  · obtain ⟨_, encodes, -, lookup⟩ := encodeExports_lookup _ settled
    rw [buildExportTrie, encodes] at built
    obtain rfl := Option.some.inj built
    exact lookup _

/-- The symbol behind the last entry of a name is in the symbol table. -/
theorem LastReached.symbol (last : LastReached elf dyn name value)
    (parsed : parseDynamic elf phdrs = some (some dyn))
    (built : buildSymtab elf dyn ranges = some sb) (shift : UInt64) :
    ∃ symbol ∈ sb.exts, sb.nameAt symbol = some (underscore :: name) ∧
      symbol.type = nSect ||| nExt ∧ symbol.nValue shift = value + shift := by
  obtain ⟨index, reached, ⟨longName, exportable, cut⟩, -⟩ := last
  have counted := (reached_iff parsed index).mp reached
  obtain ⟨views, named⟩ : _ ∧ _ := by
    obtain ⟨_, named, -⟩ := exportable
    exact buildSymtab_exts built named.tables (by omega)
  obtain ⟨sym, valued, visited⟩ := exportable.extSymbol ranges
  have defined : definedSymbol ranges sym longName ∈ definedSymbols elf dyn ranges := by
    rw [definedSymbols, mem_filterMap]
    exact ⟨index, mem_symbolIndices.mpr counted, by rw [visited, Option.join_some]⟩
  have viewed : (longName, sym.stValue, nSect ||| nExt) ∈
      sb.exts.map fun symbol => (symbol.name, symbol.vaddr, symbol.type) := by
    rw [views (fun symbol => (symbol.name, symbol.vaddr, symbol.type)) (fun _ _ => rfl)]
    exact mem_map.mpr ⟨_, defined, rfl⟩
  obtain ⟨symbol, member, same⟩ := mem_map.mp viewed
  simp only [Prod.mk.injEq] at same
  obtain ⟨same_name, same_value, same_type⟩ := same
  refine ⟨symbol, member, ?_, same_type, ?_⟩
  · rw [named symbol member, same_name, machName_eq_cons.mpr cut]
  · rw [MachSymbol.nValue, same_type, same_value, valued, if_pos (by decide)]

/-- All exportable symbols are exported exactly if each is the last reached one of its name. -/
theorem convert_exports_iff {path : CString} {platform : UInt32} {elf : Buffer} {parsed : Parsed}
    {dyn : DynamicInfo} {dylib : Dylib} (count : Nat)
    (converted : convert path platform elf = .ok dylib) (parse : parseElf elf = .ok parsed)
    (dynamic : parsed.dyn = some dyn)
    (settled : (exportSizing (exportEntries parsed.sb dylib.shift)).settled = true) :
    (∀ index < count, ∀ name value, Exportable elf dyn index name value →
        Exported dylib name value) ↔
      ∀ index < count, ∀ name value, Exportable elf dyn index name value →
        LastReached elf dyn name value := by
  obtain ⟨layout, _, stages⟩ := convert_eq_ok converted parse
  have source := parseElf_eq_ok parse
  have tables := source.dynamic
  have built := source.symbols
  have streams := stages.tables
  rw [dynamic] at tables
  rw [dynamic, symtabOf] at built
  simp only [buildLinkedit, dynamic, Option.bind_eq_bind, Option.bind_eq_some_iff] at streams
  obtain ⟨_, -, _, -, _, trie_built, result⟩ := streams
  obtain rfl := Option.some.inj result
  obtain ⟨-, -, fields⟩ := emit_eq_some stages.emitted
  rw [fields] at settled ⊢
  have lookup := fun name value =>
    (exportTrieOf_lookup settled trie_built underscore name).symm ▸
      lastInsertion_exportEntries layout.shift name value tables built
  constructor
  · intro exported index bound name value exportable
    exact (lookup name value).mp (exported index bound name value exportable).lookup
  · intro last index bound name value exportable
    have reached := last index bound name value exportable
    obtain ⟨symbol, member, facts⟩ := reached.symbol tables built layout.shift
    exact ⟨⟨symbol, mem_append_left _ member, facts⟩, (lookup name value).mpr reached⟩

variable (relas : List Elf64Rela)

/-- A library that exports the function `f`, with the given relocations. -/
def exportingElf : Buffer :=
  elfWithSegments 0x600
    [{ pType := ptLoad, pFlags := 5, pOffset := 0, pVaddr := 0, pFilesz := 0x600,
       pMemsz := 0x600 },
      { pType := ptDynamic, pFlags := 4, pOffset := 0x400, pVaddr := 0x400, pFilesz := 0x60,
        pMemsz := 0x60 }]
    (dynPart 0x400 [(5, 0x500), (10, 0x10), (6, 0x480), (7, 0x520), (8, 24 * relas.length)] ::
      Elf64Sym.part { stName := 1, stInfo := 0x12, stShndx := 1, stValue := 0x300 } 0x498 ::
        { offset := 0x501, width := 1, value := 0x66 } ::
          tableParts Elf64Rela.part 24 0x520 relas)

/-- What `parse_dynamic` makes of it, for a symbol count. -/
def exportingDyn (nsyms : Nat) : DynamicInfo :=
  { needed := []
    strtab := some 0x500
    strsz := 0x10
    symtab := some 0x480
    nsyms
    rela := some relas
    relasz := UInt64.ofNat (24 * relas.length)
    jmprel := none
    pltrelsz := 0 }

/-- An `R_AARCH64_ABS64` against symbol 1. -/
def useOfSymbolOne : Elf64Rela := { rOffset := 0x10, rInfo := 0x100000101, rAddend := 0 }

theorem exportingElf_only (bound : index < 2)
    (exportable : Exportable (exportingElf [useOfSymbolOne]) (exportingDyn [useOfSymbolOne] 2)
      index name value) :
    index = 1 ∧ name = ofLiteral "f" := by
  obtain ⟨_, ⟨read, named⟩, global, -⟩ := exportable
  have symbols : (exportingDyn [useOfSymbolOne] 2).symbol (exportingElf [useOfSymbolOne]) 0 =
        some { stName := 0, stInfo := 0, stShndx := 0, stValue := 0 } ∧
      (exportingDyn [useOfSymbolOne] 2).symbol (exportingElf [useOfSymbolOne]) 1 =
        some { stName := 1, stInfo := 0x12, stShndx := 1, stValue := 0x300 } ∧
      (exportingDyn [useOfSymbolOne] 2).symbolName (exportingElf [useOfSymbolOne])
          { stName := 1, stInfo := 0x12, stShndx := 1, stValue := 0x300 } =
        some (some (ofLiteral "f")) := by decide +kernel
  match index, bound with
  | 0, _ =>
    obtain rfl := Option.some.inj (symbols.1.symm.trans read)
    exact absurd global (by decide)
  | 1, _ =>
    obtain rfl := Option.some.inj (symbols.2.1.symm.trans read)
    exact ⟨rfl, Option.some.inj (Option.some.inj (named.symm.trans symbols.2.2))⟩

/-- The exportable symbol is used by a relocation, and it is exported. -/
theorem convert_exports_used :
    ∃ parsed dylib, convert [] 2 (exportingElf [useOfSymbolOne]) = .ok dylib ∧
      parseElf (exportingElf [useOfSymbolOne]) = .ok parsed ∧
        parsed.dyn = some (exportingDyn [useOfSymbolOne] 2) ∧
          (exportSizing (exportEntries parsed.sb dylib.shift)).settled = true ∧
            Exportable (exportingElf [useOfSymbolOne]) (exportingDyn [useOfSymbolOne] 2) 1
                (ofLiteral "f") 0x300 ∧
              Exported dylib (ofLiteral "f") 0x300 := by
  obtain ⟨dylib, converted, shift⟩ := exists_of_view
    (show (convert [] 2 (exportingElf [useOfSymbolOne])).toOption.map Dylib.shift = some 0x4000 by
      decide +kernel)
  obtain ⟨parsed, parse, seen⟩ := exists_of_view
    (show (parseElf (exportingElf [useOfSymbolOne])).toOption.map
      (fun parsed => (parsed.dyn, exportEntries parsed.sb 0x4000)) =
        some (some (exportingDyn [useOfSymbolOne] 2), [(ofLiteral "_f", 0x4300)]) by
          decide +kernel)
  obtain ⟨dynamic, entries⟩ := by simpa only [Prod.mk.injEq] using seen
  have settled : (exportSizing (exportEntries parsed.sb dylib.shift)).settled = true := by
    rw [shift, entries]
    decide +kernel
  have exportable : Exportable (exportingElf [useOfSymbolOne]) (exportingDyn [useOfSymbolOne] 2) 1
      (ofLiteral "f") 0x300 :=
    ⟨{ stName := 1, stInfo := 0x12, stShndx := 1, stValue := 0x300 },
      ⟨by decide +kernel, by decide +kernel⟩, by decide⟩
  refine ⟨parsed, dylib, converted, parse, dynamic, settled, exportable,
    (convert_exports_iff 2 converted parse dynamic settled).mpr ?_ 1 Nat.one_lt_two _ _ exportable⟩
  intro index bound name value exportable
  obtain ⟨rfl, rfl⟩ := exportingElf_only bound exportable
  refine ⟨1, ⟨Nat.one_pos, useOfSymbolOne, mem_singleton_self _, by decide⟩,
    ⟨_, exportable, by decide⟩, ?_⟩
  rintro later above ⟨-, _, member, _⟩
  obtain rfl := mem_singleton.mp member
  have index_one : useOfSymbolOne.rSym = 1 := by decide
  omega

/-- Without a relocation the same symbol is not exported. -/
theorem convert_loses_unused_export :
    ∃ parsed dylib, convert [] 2 (exportingElf []) = .ok dylib ∧
      parseElf (exportingElf []) = .ok parsed ∧ parsed.dyn = some (exportingDyn [] 1) ∧
        Exportable (exportingElf []) (exportingDyn [] 1) 1 (ofLiteral "f") 0x300 ∧
          ¬Exported dylib (ofLiteral "f") 0x300 := by
  obtain ⟨dylib, converted, trie⟩ := exists_of_view
    (show (convert [] 2 (exportingElf [])).toOption.map Dylib.exportTrie = some [] by
      decide +kernel)
  obtain ⟨parsed, parse, dynamic⟩ := exists_of_view
    (show (parseElf (exportingElf [])).toOption.map Parsed.dyn =
      some (some (exportingDyn [] 1)) by decide +kernel)
  refine ⟨parsed, dylib, converted, parse, dynamic, ?_, ?_⟩
  · exact ⟨{ stName := 1, stInfo := 0x12, stShndx := 1, stValue := 0x300 },
      ⟨by decide +kernel, by decide +kernel⟩, by decide⟩
  · rintro ⟨-, lookup⟩
    rw [trie] at lookup
    cases lookup

end AlpineOnIOS.Elf2macho
