import AlpineOnIOS.Elf2macho.TrieEncoding
import AlpineOnIOS.Foundation.Loop
import Mathlib.Order.MinMax

/-!
# The dynamic section, the symbol table and the relocations

`parse_dynamic` turns the addresses of the `PT_DYNAMIC` entries into places of the file and
guesses the number of symbols from the relocations. `build_symtab` lists the global symbols under
names cut to 254 bytes. Each walk over the relocations makes its own choice of entries.
-/

namespace AlpineOnIOS.Elf2macho

open Foundation List

variable (phdrs : List Elf64Phdr)

def elfVaddrToPtr (vaddr : UInt64) : Option Nat :=
  (phdrs.find? fun phdr => phdr.pType = ptLoad ∧ phdr.pVaddr ≤ vaddr ∧
    vaddr < phdr.pVaddr + phdr.pFilesz).map fun phdr =>
      (phdr.pOffset + (vaddr - phdr.pVaddr)).toNat

def maxNeeded : Nat := 16

/-- `sizeof(Elf64_Rela)`, which is also `sizeof(Elf64_Sym)`. -/
def entrySize : Nat := 24

/-- The tags of the dynamic section that the converter reads back. -/
inductive DynTag where
  | needed
  | pltrelsz
  | strtab
  | symtab
  | rela
  | relasz
  | strsz
  | jmprel
  deriving DecidableEq

/-- The `switch` of `parse_dynamic`; the other tags fill fields that are not used. -/
def DynTag.ofTag (tag : UInt64) : Option DynTag :=
  if tag = 1 then some .needed
  else if tag = 2 then some .pltrelsz
  else if tag = 5 then some .strtab
  else if tag = 6 then some .symtab
  else if tag = 7 then some .rela
  else if tag = 8 then some .relasz
  else if tag = 10 then some .strsz
  else if tag = 23 then some .jmprel
  else none

/-- The part of `struct dynamic_info` that the tag loop fills. -/
structure DynamicTags where
  neededOff : List UInt64 := []
  strtab : Option Nat := none
  strsz : UInt64 := 0
  symtab : Option Nat := none
  rela : Option Nat := none
  relasz : UInt64 := 0
  jmprel : Option Nat := none
  pltrelsz : UInt64 := 0

/-- One round of the tag loop. -/
def DynamicTags.record (tags : DynamicTags) (d : Elf64Dyn) :
    DynamicTags :=
  match DynTag.ofTag d.dTag with
  | some .needed =>
    if tags.neededOff.length < maxNeeded then
      { tags with neededOff := tags.neededOff ++ [d.dVal] }
    else
      tags
  | some .strtab => { tags with strtab := elfVaddrToPtr phdrs d.dVal }
  | some .strsz => { tags with strsz := d.dVal }
  | some .symtab => { tags with symtab := elfVaddrToPtr phdrs d.dVal }
  | some .rela => { tags with rela := elfVaddrToPtr phdrs d.dVal }
  | some .relasz => { tags with relasz := d.dVal }
  | some .jmprel => { tags with jmprel := elfVaddrToPtr phdrs d.dVal }
  | some .pltrelsz => { tags with pltrelsz := d.dVal }
  | none => tags

/-- The tag loop up to `DT_NULL`; without one it leaves the file within `elf.size` rounds. -/
def dynamicLoop (elf : Buffer) (phdrs : List Elf64Phdr) :
    Nat → Nat → DynamicTags → Option DynamicTags
  | 0, _, _ => none
  | fuel + 1, offset, tags => do
      let d ← readDyn elf offset
      if d.dTag = 0 then some tags
      else dynamicLoop elf phdrs fuel (offset + 16) (tags.record phdrs d)

/-- The entries of a table of `size` bytes at a place of the file. -/
def readRelas (elf : Buffer) (place : Nat) (size : UInt64) : Option (List Elf64Rela) :=
  (List.range (size.toNat / entrySize)).mapM fun index => readRela elf (place + entrySize * index)

/-- `struct dynamic_info` as far as the converter uses it, the relocation tables read out. -/
structure DynamicInfo where
  /-- Places of the names of the needed libraries. -/
  needed : List (Option Nat)
  strtab : Option Nat
  strsz : UInt64
  symtab : Option Nat
  nsyms : Nat
  rela : Option (List Elf64Rela)
  relasz : UInt64
  jmprel : Option (List Elf64Rela)
  pltrelsz : UInt64
  deriving DecidableEq

/-- The highest symbol index of a table, at least `maxSym`. -/
def highestSymbol (maxSym : Nat) (relas : List Elf64Rela) : Nat :=
  relas.foldl (fun maxSym rela => if rela.rSym > maxSym then rela.rSym else maxSym) maxSym

/-- `parse_dynamic`.  The outer `none` is a fault, the inner one the result `-1`. -/
def parseDynamic (elf : Buffer) (phdrs : List Elf64Phdr) : Option (Option DynamicInfo) :=
  match phdrs.find? fun phdr => phdr.pType = ptDynamic with
  | none => some none
  | some pdyn => do
      let tags ← dynamicLoop elf phdrs (elf.size + 1) pdyn.pOffset.toNat {}
      let rela ← tags.rela.mapM fun place => readRelas elf place tags.relasz
      let jmprel ← tags.jmprel.mapM fun place => readRelas elf place tags.pltrelsz
      let maxSym := highestSymbol (highestSymbol 0 (rela.getD [])) (jmprel.getD [])
      return some
        { needed := tags.neededOff.map fun off => tags.strtab.map (· + off.toNat)
          strtab := tags.strtab
          strsz := tags.strsz
          symtab := tags.symtab
          nsyms := maxSym + 1
          rela
          relasz := tags.relasz
          jmprel
          pltrelsz := tags.pltrelsz }

namespace DynamicInfo

/-- `dyn->symtab[index]`; a missing table is a fault. -/
def symbol (elf : Buffer) (dyn : DynamicInfo) (index : Nat) : Option Elf64Sym :=
  dyn.symtab.bind fun place => readSym elf (place + entrySize * index)

/-- The entries that a loop over the non-`NULL` tables visits, `DT_RELA` first. -/
def relocations (dyn : DynamicInfo) : List Elf64Rela := dyn.rela.getD [] ++ dyn.jmprel.getD []

/-- The name of a symbol: a fault, no name inside the string table, or the string. -/
def symbolName (elf : Buffer) (dyn : DynamicInfo) (sym : Elf64Sym) : Option (Option CString) :=
  if sym.stName.toUInt64 ≥ dyn.strsz then
    some none
  else
    (dyn.strtab.bind fun place => elf.string? (place + sym.stName.toNat)).map some

end DynamicInfo

theorem le_highestSymbol_iff (index maxSym : Nat) (relas : List Elf64Rela) :
    index ≤ highestSymbol maxSym relas ↔ index ≤ maxSym ∨ ∃ rela ∈ relas, index ≤ rela.rSym := by
  induction relas generalizing maxSym with
  | nil => simp [highestSymbol]
  | cons rela rest induction =>
    have larger : (if rela.rSym > maxSym then rela.rSym else maxSym) = max maxSym rela.rSym := by
      split <;> omega
    rw [highestSymbol, List.foldl_cons, ← highestSymbol, induction, larger, le_max_iff,
      List.exists_mem_cons_iff, or_assoc]

/-- A symbol other than zero is in the table exactly if a relocation uses it or a later one. -/
theorem lt_nsyms_iff {elf : Buffer} {phdrs : List Elf64Phdr} {dyn : DynamicInfo}
    (parsed : parseDynamic elf phdrs = some (some dyn)) {index : Nat} (positive : 0 < index) :
    index < dyn.nsyms ↔ ∃ rela ∈ dyn.relocations, index ≤ rela.rSym := by
  rw [parseDynamic] at parsed
  split at parsed
  · simp at parsed
  simp only [Option.bind_eq_bind, Option.bind_eq_some_iff] at parsed
  obtain ⟨_, _, _, _, _, _, result⟩ := parsed
  obtain rfl := Option.some.inj (Option.some.inj result)
  simp only [DynamicInfo.relocations, Nat.lt_succ_iff, le_highestSymbol_iff, List.mem_append,
    or_and_right, exists_or, or_assoc]
  exact or_iff_right (by omega)

def nUndf : UInt8 := 0x0
def nSect : UInt8 := 0xe
def nExt : UInt8 := 0x01
def nWeakRef : UInt16 := 0x0040

structure MachSymbol where
  name : CString
  vaddr : UInt64
  type : UInt8
  sect : UInt8
  desc : UInt16
  weak : Bool
  strx : Nat := 0
  deriving DecidableEq

/-- `struct symtab_builder`: defined symbols, undefined symbols and the string table. -/
structure SymtabBuilder where
  exts : List MachSymbol := []
  undefs : List MachSymbol := []
  strtab : List UInt8 := []

/-- The characters that the name code tests for. -/
def underscore : CChar := ⟨0x5f, by decide⟩

def atSign : CChar := ⟨0x40, by decide⟩

def isVersionedSym (name : CString) : Bool := name.contains atSign

/-- A name in its 256-byte buffer: an underscore and at most 254 bytes of the name. -/
def machName (name : CString) : CString := underscore :: name.take 254

/-- Address ranges of the two segments in the ELF, which decide the section of a symbol. -/
structure SectionRanges where
  textLo : UInt64
  textHi : UInt64
  dataLo : UInt64
  dataHi : UInt64

/-- Section number of a defined symbol. -/
def SectionRanges.sect (ranges : SectionRanges) (sym : Elf64Sym) : UInt8 :=
  if ranges.textLo ≤ sym.stValue ∧ sym.stValue < ranges.textHi then 1
  else if ranges.dataLo ≤ sym.stValue ∧ sym.stValue < ranges.dataHi then 2
  else if sym.stType = sttFunc then 1
  else 2

/-- `bind != STB_GLOBAL && bind != STB_WEAK`, negated. -/
def Elf64Sym.isGlobal (sym : Elf64Sym) : Bool := sym.stBind = stbGlobal || sym.stBind = stbWeak

/-- The name checks at the end of both passes of `build_symtab`. -/
def usableName (elf : Buffer) (dyn : DynamicInfo) (sym : Elf64Sym) : Option (Option CString) := do
  match ← dyn.symbolName elf sym with
  | none => return none
  | some name => return if name = [] ∨ isVersionedSym name = true then none else some name

/-- One round of the first pass of `build_symtab`. -/
def extSymbol (elf : Buffer) (dyn : DynamicInfo) (ranges : SectionRanges) (index : Nat) :
    Option (Option MachSymbol) := do
  let sym ← dyn.symbol elf index
  if sym.isGlobal = false then return none
  if sym.stShndx = 0 then return none
  if sym.stType = sttSection ∨ sym.stType = sttFile then return none
  let name ← usableName elf dyn sym
  return name.map fun name =>
    { name
      vaddr := sym.stValue
      type := nSect ||| nExt
      sect := ranges.sect sym
      desc := 0
      weak := false }

/-- One round of the second pass of `build_symtab`. -/
def undefSymbol (elf : Buffer) (dyn : DynamicInfo) (index : Nat) : Option (Option MachSymbol) := do
  let sym ← dyn.symbol elf index
  if sym.isGlobal = false then return none
  if sym.stShndx ≠ 0 then return none
  let name ← usableName elf dyn sym
  let weak : Bool := sym.stBind = stbWeak
  return name.map fun name =>
    { name
      vaddr := 0
      type := nUndf ||| nExt
      sect := 0
      desc := if weak then 0x0100 ||| nWeakRef else 0x0100
      weak }

/-- `strtab_add` for every symbol of a list: the symbols with their offsets, and the table. -/
def addNames : List MachSymbol → List UInt8 → List MachSymbol × List UInt8
  | [], strtab => ([], strtab)
  | sym :: rest, strtab =>
    let others := addNames rest (strtab ++ CString.stored (machName sym.name))
    ({ sym with strx := strtab.length } :: others.1, others.2)

/-- The loop bounds of both passes: every symbol index but zero. -/
def symbolIndices (dyn : DynamicInfo) : List Nat := (List.range (dyn.nsyms - 1)).map (· + 1)

def buildSymtab (elf : Buffer) (dyn : DynamicInfo) (ranges : SectionRanges) :
    Option SymtabBuilder := do
  if dyn.symtab = none ∨ dyn.strtab = none ∨ dyn.nsyms = 0 then return {}
  let exts ← scan (extSymbol elf dyn ranges) (symbolIndices dyn)
  let undefs ← scan (undefSymbol elf dyn) (symbolIndices dyn)
  let namedExts := addNames exts [0]
  let namedUndefs := addNames undefs namedExts.2
  return { exts := namedExts.1, undefs := namedUndefs.1, strtab := namedUndefs.2 }

variable (sb : SymtabBuilder)

/-- The names and offsets that `build_export_trie` inserts. -/
def exportEntries (shift : UInt64) : List (CString × Nat) :=
  sb.exts.map fun sym => (machName sym.name, (sym.vaddr + shift).toNat)

def buildExportTrie (shift : UInt64) : Option (List UInt8) :=
  encodeExports (exportEntries sb shift)

/-- `n_value` of a symbol table entry. -/
def MachSymbol.nValue (sym : MachSymbol) (shift : UInt64) : UInt64 :=
  sym.vaddr + if sym.type &&& nSect ≠ 0 then shift else 0

/-- The bytes of an `nlist_64`. -/
def MachSymbol.encode (sym : MachSymbol) (shift : UInt64) : List UInt8 :=
  leBytes 4 sym.strx ++ [sym.type, sym.sect] ++ leBytes 2 sym.desc.toNat ++
    leBytes 8 (sym.nValue shift).toNat

/-- Some relocation uses this symbol or a later one, and the symbol is not the null symbol. -/
def Reached (dyn : DynamicInfo) (index : Nat) : Prop :=
  0 < index ∧ ∃ rela ∈ dyn.relocations, index ≤ rela.rSym

variable {dyn : DynamicInfo} {elf : Buffer}

theorem reached_iff {phdrs : List Elf64Phdr}
    (parsed : parseDynamic elf phdrs = some (some dyn)) (index : Nat) :
    Reached dyn index ↔ 0 < index ∧ index < dyn.nsyms := by
  constructor
  · rintro ⟨positive, used⟩
    exact ⟨positive, (lt_nsyms_iff parsed positive).mpr used⟩
  · rintro ⟨positive, counted⟩
    exact ⟨positive, (lt_nsyms_iff parsed positive).mp counted⟩

variable {index : Nat}

theorem mem_symbolIndices : index ∈ symbolIndices dyn ↔ 0 < index ∧ index < dyn.nsyms := by
  rw [symbolIndices, mem_map]
  constructor
  · rintro ⟨_, member, rfl⟩
    rw [mem_range] at member
    omega
  · rintro ⟨_, _⟩
    exact ⟨index - 1, mem_range.mpr (by omega), by omega⟩

/-- The symbol at an index has this name. -/
def NamedSymbol (elf : Buffer) (dyn : DynamicInfo) (index : Nat) (sym : Elf64Sym)
    (name : CString) : Prop :=
  dyn.symbol elf index = some sym ∧ dyn.symbolName elf sym = some (some name)

variable {sym : Elf64Sym} {name : CString}

theorem NamedSymbol.tables (named : NamedSymbol elf dyn index sym name) :
    dyn.symtab ≠ none ∧ dyn.strtab ≠ none := by
  obtain ⟨read, named⟩ := named
  constructor
  · intro missing
    simp [DynamicInfo.symbol, missing] at read
  · intro missing
    rw [DynamicInfo.symbolName, missing] at named
    split at named <;> simp at named

theorem usableName_eq_some :
    usableName elf dyn sym = some (some name) ↔
      dyn.symbolName elf sym = some (some name) ∧ name ≠ [] ∧ atSign ∉ name := by
  rw [usableName]
  cases found : dyn.symbolName elf sym with
  | none => simp
  | some outcome =>
    cases outcome with
    | none => simp
    | some other =>
      by_cases usable : other = [] ∨ isVersionedSym other = true
      · simp only [Option.bind_eq_bind, Option.bind_some, if_pos usable]
        simp only [isVersionedSym, contains_iff_mem] at usable
        constructor
        · simp
        · rintro ⟨same, named, unversioned⟩
          obtain rfl : other = name := by simpa using same
          exact absurd usable (not_or.mpr ⟨named, unversioned⟩)
      simp only [Option.bind_eq_bind, Option.bind_some, if_neg usable]
      simp only [isVersionedSym, contains_iff_mem, not_or] at usable
      constructor
      · intro same
        obtain rfl : other = name := by simpa using same
        exact ⟨rfl, usable⟩
      · rintro ⟨same, -⟩
        simpa using same

theorem map_addNames {β : Type} (view : MachSymbol → β)
    (blind : ∀ symbol strx, view { symbol with strx } = view symbol)
    (symbols : List MachSymbol) (strtab : List UInt8) :
    (addNames symbols strtab).1.map view = symbols.map view := by
  induction symbols generalizing strtab with
  | nil => rfl
  | cons symbol rest induction => simp only [addNames, map_cons, induction, blind]

/-- Adding names extends the string table, and every symbol points to its own name in it. -/
theorem addNames_pointed (symbols : List MachSymbol) (strtab : List UInt8) :
    strtab <+: (addNames symbols strtab).2 ∧
      ∀ symbol ∈ (addNames symbols strtab).1, ∃ before,
        before.length = symbol.strx ∧
          before ++ CString.stored (machName symbol.name) <+: (addNames symbols strtab).2 := by
  induction symbols generalizing strtab with
  | nil => simp [addNames]
  | cons symbol rest induction =>
    obtain ⟨grown, pointed⟩ := induction (strtab ++ CString.stored (machName symbol.name))
    refine ⟨(prefix_append _ _).trans grown, ?_⟩
    rw [addNames, forall_mem_cons]
    exact ⟨⟨strtab, rfl, grown⟩, pointed⟩

/-- The string that a symbol table entry points to. -/
def SymtabBuilder.nameAt (symbol : MachSymbol) : Option CString :=
  (CString.parse (sb.strtab.drop symbol.strx)).map Prod.fst

theorem buildSymtab_eq_some {ranges : SectionRanges}
    {sb : SymtabBuilder} (built : buildSymtab elf dyn ranges = some sb)
    (present : dyn.symtab ≠ none ∧ dyn.strtab ≠ none) (counted : dyn.nsyms ≠ 0) :
    ∃ exts undefs, scan (extSymbol elf dyn ranges) (symbolIndices dyn) = some exts ∧
      scan (undefSymbol elf dyn) (symbolIndices dyn) = some undefs ∧
        sb = { exts := (addNames exts [0]).1, undefs := (addNames undefs (addNames exts [0]).2).1,
               strtab := (addNames undefs (addNames exts [0]).2).2 } := by
  have complete : ¬(dyn.symtab = none ∨ dyn.strtab = none ∨ dyn.nsyms = 0) := by
    rintro (missing | missing | missing)
    · exact present.1 missing
    · exact present.2 missing
    · exact counted missing
  simp only [buildSymtab, if_neg complete, Option.bind_eq_bind, Option.bind_eq_some_iff] at built
  obtain ⟨exts, exts_scanned, undefs, undefs_scanned, result⟩ := built
  exact ⟨exts, undefs, exts_scanned, undefs_scanned, (Option.some.inj result).symm⟩

/-- The three relocation types against a symbol. -/
def Elf64Rela.isSymbolic (rela : Elf64Rela) : Bool :=
  rela.rType = rAarch64GlobDat || rela.rType = rAarch64JumpSlot || rela.rType = rAarch64Abs64

def Elf64Rela.isRelative (rela : Elf64Rela) : Bool := rela.rType = rAarch64Relative

variable (elf : Buffer) (dyn : DynamicInfo) (sb : SymtabBuilder)

def findUndefByElfSym (index : Nat) :
    Option (Option MachSymbol) := do
  if index = 0 ∨ index ≥ dyn.nsyms then return none
  let sym ← dyn.symbol elf index
  match ← dyn.symbolName elf sym with
  | none => return none
  | some name =>
    if name = [] then return none
    return sb.undefs.find? fun undef => undef.name = name

/-- What `build_binds` emits for one relocation. -/
structure BindSite where
  symbol : CString
  weak : Bool
  segOff : UInt64
  deriving DecidableEq

/-- One round of the loop of `build_binds`. -/
def bindSite (segVmaddr shift : UInt64)
    (rela : Elf64Rela) : Option (Option BindSite) := do
  if rela.isSymbolic = false then return none
  match ← findUndefByElfSym elf dyn sb rela.rSym with
  | none => return none
  | some undef =>
    let target := rela.rOffset + shift
    if target < segVmaddr then return none
    return some
      { symbol := machName undef.name, weak := undef.weak, segOff := target - segVmaddr }

/-- A table as `build_binds` walks it: a missing one with a size is read through `NULL`. -/
def bindTable (table : Option (List Elf64Rela)) (size : UInt64) : Option (List Elf64Rela) :=
  match table with
  | some relas => some relas
  | none => if size.toNat / entrySize = 0 then some [] else none

variable (segIdx : UInt8)

/-- The opcodes of one bind. -/
def BindSite.encode (site : BindSite) : List UInt8 :=
  (0x40 ||| if site.weak then 1 else 0) :: CString.stored site.symbol ++
    (0x70 ||| (segIdx &&& 0xf)) :: writeUleb site.segOff.toNat ++ [0x90]

/-- The whole stream for the bind sites: pointer type and library ordinal 1 first. -/
def encodeBinds (sites : List BindSite) : List UInt8 :=
  0x51 :: 0x11 :: sites.flatMap (BindSite.encode segIdx) ++ [0x00]

/-- The bind sites of both tables. -/
def bindSites
    (segVmaddr shift : UInt64) : Option (List BindSite) := do
  let rela ← bindTable dyn.rela dyn.relasz
  let jmprel ← bindTable dyn.jmprel dyn.pltrelsz
  scan (bindSite elf dyn sb segVmaddr shift) (rela ++ jmprel)

def buildBinds (segIdx : UInt8)
    (segVmaddr shift : UInt64) : Option (List UInt8) :=
  (bindSites elf dyn sb segVmaddr shift).map (encodeBinds segIdx)

/-- The second collection loop of `build_rebases`: relocations against defined symbols. -/
def definedOffset (rela : Elf64Rela) :
    Option (Option UInt64) := do
  if rela.isSymbolic = false then return none
  if rela.rSym = 0 ∨ rela.rSym ≥ dyn.nsyms then return none
  let sym ← dyn.symbol elf rela.rSym
  if sym.stShndx = 0 then return none
  return some rela.rOffset

/-- All offsets that `build_rebases` collects: `R_AARCH64_RELATIVE` from `DT_RELA` only. -/
def rebaseOffsets : Option (List UInt64) := do
  let relative := ((dyn.rela.getD []).filter Elf64Rela.isRelative).map Elf64Rela.rOffset
  let defined ← scan (definedOffset elf dyn) dyn.relocations
  return relative ++ defined

/-- The loop that drops an offset equal to the one kept before it. -/
def dropDuplicates : Option UInt64 → List UInt64 → List UInt64
  | _, [] => []
  | kept, offset :: rest =>
    if kept = some offset then dropDuplicates kept rest
    else offset :: dropDuplicates (some offset) rest

/-- The emission loop of `build_rebases`.  The cursor is `none` until the segment is set. -/
def rebaseLoop (segIdx : UInt8) (segVmaddr shift : UInt64) :
    Option UInt64 → List UInt64 → List UInt8
  | _, [] => []
  | cursor, offset :: rest =>
    let target := offset + shift
    if target < segVmaddr then
      rebaseLoop segIdx segVmaddr shift cursor rest
    else
      let segOff := target - segVmaddr
      match cursor with
      | none =>
        (0x20 ||| (segIdx &&& 0xf)) :: writeUleb segOff.toNat ++ 0x60 :: writeUleb 1 ++
          rebaseLoop segIdx segVmaddr shift (some (segOff + 8)) rest
      | some curOff =>
        if segOff > curOff then
          0x30 :: writeUleb (segOff - curOff).toNat ++ 0x60 :: writeUleb 1 ++
            rebaseLoop segIdx segVmaddr shift (some (segOff + 8)) rest
        else
          0x60 :: writeUleb 1 ++
            rebaseLoop segIdx segVmaddr shift (some (curOff + 8)) rest

/-- The offsets in emission order. -/
def sortedOffsets (offsets : List UInt64) : List UInt64 :=
  dropDuplicates none (ExchangeSort.sort (fun left right => decide (left < right)) offsets)

/-- The stream for the collected offsets. -/
def encodeRebases (segVmaddr shift : UInt64) (offsets : List UInt64) :
    List UInt8 :=
  if offsets = [] then [0x00]
  else 0x11 :: rebaseLoop segIdx segVmaddr shift none (sortedOffsets offsets) ++ [0x00]

def buildRebases (segVmaddr shift : UInt64) :
    Option (List UInt8) :=
  (rebaseOffsets elf dyn).map (encodeRebases segIdx segVmaddr shift)

/-- The value that `apply_self_reloc_values` computes for an entry. -/
def selfRelocValue (shift : UInt64) (rela : Elf64Rela) :
    Option (Option UInt64) := do
  if rela.isRelative then return some (rela.rAddend + shift)
  if rela.isSymbolic = false then return none
  if dyn.symtab = none then return none
  if rela.rSym = 0 ∨ rela.rSym ≥ dyn.nsyms then return none
  let sym ← dyn.symbol elf rela.rSym
  if sym.stShndx = 0 then return none
  return some (sym.stValue + rela.rAddend + shift)

/-- One round of `apply_self_reloc_values`. -/
def applySelfRelocValue (outSize dataSegFileoff dataSegFilesize
    shift : UInt64) (out : Buffer) (rela : Elf64Rela) : Option Buffer := do
  match ← selfRelocValue elf dyn shift rela with
  | none => return out
  | some value =>
    let fileOff := rela.rOffset + shift
    if fileOff < dataSegFileoff then return out
    if fileOff + 8 > dataSegFileoff + dataSegFilesize then return out
    if fileOff + 8 > outSize then return out
    out.write? fileOff.toNat (leBytes 8 value.toNat)

def applySelfRelocValues (outSize dataSegFileoff
    dataSegFilesize shift : UInt64) (out : Buffer) : Option Buffer :=
  dyn.relocations.foldlM
    (applySelfRelocValue elf dyn outSize dataSegFileoff dataSegFilesize shift) out

end AlpineOnIOS.Elf2macho
