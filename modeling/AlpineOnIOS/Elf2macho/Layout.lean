import AlpineOnIOS.Elf2macho.Dynamic

/-!
# Layout and conversion

The converter keeps one executable and one writable `PT_LOAD` segment, moves them up by one page
if the code starts in the first page, and places `__LINKEDIT` behind them. Allocation and file
access are assumed to succeed.
-/

namespace AlpineOnIOS.Elf2macho

open Foundation CString

/-- The outcomes of the converter that are not a file. -/
inductive Failure where
  /-- The file is "not an AArch64 ELF". -/
  | notAarch64
  /-- The file is "not ET_DYN (PIE required)". -/
  | notDyn
  /-- There is "no executable PT_LOAD segment". -/
  | noText
  /-- The "data overlaps text segment". -/
  | overlap
  /-- The "header too large" message. -/
  | headerTooLarge
  /-- An access outside an object; the program has no defined behaviour. -/
  | fault
  deriving DecidableEq

/-- A memory access that may fault. -/
def orFault {α : Type} (access : Option α) : Except Failure α := access.elim (.error .fault) .ok

/-- The two segments that are carried over. -/
structure Selection where
  text : Option Elf64Phdr := none
  data : Option Elf64Phdr := none

/-- One round of the selection loop. -/
def Selection.step (selection : Selection) (phdr : Elf64Phdr) : Selection :=
  if phdr.pType ≠ ptLoad then
    selection
  else if phdr.pFlags &&& pfX ≠ 0 ∧ selection.text = none then
    { selection with text := some phdr }
  else if phdr.pFlags &&& pfW ≠ 0 ∧ selection.data = none then
    { selection with data := some phdr }
  else
    selection

/-- The selection loop of `main`. -/
def selectSegments (phdrs : List Elf64Phdr) : Selection := phdrs.foldl Selection.step {}

/-- The offsets and sizes of `main`; without data the `dataSeg` fields are an empty place. -/
structure Layout where
  shift : UInt64
  textSegFilesize : UInt64
  textSegVmsize : UInt64
  dataSegFileoff : UInt64
  dataSegVmaddr : UInt64
  dataSegFilesize : UInt64
  dataSegVmsize : UInt64
  linkeditOff : UInt64

variable (text : Elf64Phdr)

/-- One page if the code starts in the first page, so that the Mach-O header fits in front. -/
def shiftOf : UInt64 :=
  if alignDown text.pVaddr pageSz = 0 then pageSz else 0

/-- The text part of the layout, with an empty data part. -/
def textLayout : Layout :=
  let shift := shiftOf text
  let textSegFilesize := alignUp (shift + text.pVaddr + text.pFilesz) pageSz
  let rounded := alignUp (shift + text.pVaddr + text.pMemsz) pageSz
  let textSegVmsize := if rounded < textSegFilesize then textSegFilesize else rounded
  { shift
    textSegFilesize
    textSegVmsize
    dataSegFileoff := textSegFilesize
    dataSegVmaddr := textSegVmsize
    dataSegFilesize := 0
    dataSegVmsize := 0
    linkeditOff := 0 }

/-- Add the data segment behind the text. -/
def Layout.withData (layout : Layout) (data : Elf64Phdr) : Except Failure Layout :=
  let dataPos := layout.shift + data.pVaddr
  let dataSegVmaddr := alignDown dataPos pageSz
  if dataSegVmaddr < layout.textSegFilesize then
    .error .overlap
  else
    let dataSegFilesize := alignUp (dataPos - dataSegVmaddr + data.pFilesz) pageSz
    let rounded := alignUp (dataPos - dataSegVmaddr + data.pMemsz) pageSz
    let dataSegVmsize := if rounded < dataSegFilesize then dataSegFilesize else rounded
    .ok { layout with dataSegFileoff := dataSegVmaddr, dataSegVmaddr, dataSegFilesize, dataSegVmsize }

/-- Place `__LINKEDIT` behind the file parts. -/
def Layout.withLinkedit (layout : Layout) : Layout :=
  let behind := layout.dataSegFileoff + layout.dataSegFilesize
  let linkeditOff := if behind < layout.textSegFilesize then layout.textSegFilesize else behind
  { layout with linkeditOff := alignUp linkeditOff pageSz }

variable (data : Option Elf64Phdr)

/-- The layout of the segments that are carried over. -/
def segmentLayout : Except Failure Layout :=
  match data with
  | none => .ok (textLayout text)
  | some data => (textLayout text).withData data

/-- The layout of `main`. -/
def planLayout : Except Failure Layout := do
  let layout ← segmentLayout text data
  return layout.withLinkedit

/-- The header size that `main` checks against the first page. -/
def hdrSize (hasData : Bool) : Nat :=
  32 + (72 + 80) + (if hasData then 72 + 80 else 0) + 72 + 24 + 32 + 24 + 24 + 24 + 80 + 16 + 16

/-- The fields of `section_64` that are set. -/
structure MachSection where
  sectname : CString
  segname : CString
  addr : UInt64
  size : UInt64
  align : Nat

/-- The fields of `segment_command_64` that are set. -/
structure SegmentCommand where
  segname : CString
  vmaddr : Nat
  vmsize : Nat
  fileoff : Nat
  filesize : Nat
  maxprot : Nat
  initprot : Nat
  sect : Option MachSection := none

/-- The load commands of the output. -/
inductive LoadCommand where
  | segment (command : SegmentCommand)
  | idDylib (name : CString)
  | buildVersion (platform : UInt32)
  | uuid (entry : UInt64)
  | loadDylib (name : CString)
  | rpath (path : CString)
  | dyldInfoOnly (rebaseOff rebaseSize bindOff bindSize exportOff exportSize : Nat)
  | symtab (symoff nsyms stroff strsize : Nat)
  | dysymtab (iextdefsym nextdefsym iundefsym nundefsym : Nat)
  | dyldExportsTrie (dataoff datasize : Nat)
  | codeSignature (dataoff datasize : Nat)

/-- `ALIGN_UP` on sizes. -/
def alignSize (size unit : Nat) : Nat := (size + (unit - 1)) / unit * unit

/-- A fixed-width field of 32-bit words. -/
def words (values : List Nat) : List UInt8 := values.flatMap (leBytes 4)

/-- A name in a field of sixteen bytes. -/
def nameField (name : CString) : List UInt8 :=
  (chars name ++ List.replicate 16 0).take 16

/-- A command that ends in a string, padded to eight bytes. -/
def stringCommand (cmd : Nat) (fields : List Nat) (text : CString) : List UInt8 :=
  let fixed := 8 + 4 * fields.length
  let cmdsize := alignSize (fixed + (text.length + 1)) 8
  words [cmd, cmdsize] ++ words fields ++ stored text ++
    List.replicate (cmdsize - fixed - (text.length + 1)) 0

def MachSection.encode (sect : MachSection) : List UInt8 :=
  nameField sect.sectname ++ nameField sect.segname ++ leBytes 8 sect.addr.toNat ++
    leBytes 8 sect.size.toNat ++ words [sect.addr.toNat, sect.align, 0, 0, 0, 0, 0, 0]

def SegmentCommand.encode (command : SegmentCommand) : List UInt8 :=
  words [0x19, 72 + if command.sect.isSome then 80 else 0] ++ nameField command.segname ++
    leBytes 8 command.vmaddr ++ leBytes 8 command.vmsize ++ leBytes 8 command.fileoff ++
      leBytes 8 command.filesize ++
        words [command.maxprot, command.initprot, if command.sect.isSome then 1 else 0, 0] ++
          command.sect.elim [] MachSection.encode

/-- The UUID: the entry point with the version and variant bits forced. -/
def uuidBytes (entry : UInt64) : List UInt8 :=
  let raw := leBytes 8 entry.toNat ++ List.replicate 8 0
  (raw.modify 6 fun byte => (byte &&& 0x0f) ||| 0x40).modify 8 fun byte => (byte &&& 0x3f) ||| 0x80

/-- The bytes that `main` writes for a command. -/
def LoadCommand.encode : LoadCommand → List UInt8
  | .segment command => command.encode
  | .idDylib name => stringCommand 0x0d [24, 1, 0x00010000, 0x00010000] name
  | .buildVersion platform => words [0x32, 24, platform.toNat, 0x000f0000, 0x000f0000, 0]
  | .uuid entry => words [0x1b, 24] ++ uuidBytes entry
  | .loadDylib name => stringCommand 0x0c [24, 1, 0x00010000, 0x00010000] name
  | .rpath path => stringCommand 0x8000001c [12] path
  | .dyldInfoOnly rebaseOff rebaseSize bindOff bindSize exportOff exportSize =>
    words [0x80000022, 48, rebaseOff, rebaseSize, bindOff, bindSize, 0, 0, 0, 0, exportOff,
      exportSize]
  | .symtab symoff nsyms stroff strsize => words [0x02, 24, symoff, nsyms, stroff, strsize]
  | .dysymtab iextdefsym nextdefsym iundefsym nundefsym =>
    words [0x0b, 80, 0, 0, iextdefsym, nextdefsym, iundefsym, nundefsym, 0, 0, 0, 0, 0, 0, 0, 0,
      0, 0, 0, 0]
  | .dyldExportsTrie dataoff datasize => words [0x80000033, 16, dataoff, datasize]
  | .codeSignature dataoff datasize => words [0x1d, 16, dataoff, datasize]

/-- The `snprintf` of a library name into 256 bytes. -/
def dylibName (base : CString) : CString :=
  (ofLiteral "@rpath/" ++ base ++ ofLiteral ".dylib").take 255

/-- The part of a path behind its last slash. -/
def baseName (path : CString) : CString :=
  (path.reverse.takeWhile fun char => char.val ≠ 0x2f).reverse

def rpathStrs : List CString :=
  [ofLiteral "@loader_path", ofLiteral "@loader_path/../lib",
    ofLiteral "@loader_path/../../lib", ofLiteral "@loader_path/../usr/lib",
    ofLiteral "@loader_path/../../usr/lib"]

def machHeader (ncmds sizeofcmds : Nat) : List UInt8 :=
  words [0xfeedfacf, 0x0100000c, 0, 6, ncmds, sizeofcmds, 0x4 ||| 0x80 ||| 0x200000, 0]

/-- What `main` knows about the ELF before it plans the output. -/
structure Parsed where
  ehdr : Elf64Ehdr
  phdrs : List Elf64Phdr
  text : Elf64Phdr
  data : Option Elf64Phdr
  dyn : Option DynamicInfo
  sb : SymtabBuilder

variable (elf : Buffer)

/-- The program header table. -/
def readPhdrs (ehdr : Elf64Ehdr) : Option (List Elf64Phdr) :=
  (List.range ehdr.ePhnum.toNat).mapM fun index => readPhdr elf (ehdr.ePhoff.toNat + 56 * index)

/-- The address ranges that `main` hands to `build_symtab`. -/
def sectionRanges (text : Elf64Phdr) (data : Option Elf64Phdr) : SectionRanges :=
  { textLo := text.pVaddr
    textHi := text.pVaddr + text.pMemsz
    dataLo := data.elim 0 Elf64Phdr.pVaddr
    dataHi := data.elim 0 fun data => data.pVaddr + data.pMemsz }

/-- The validation of the file header. -/
def validateEhdr (ehdr : Elf64Ehdr) : Except Failure Unit :=
  if ehdr.eIdent.take 4 ≠ [0x7f, 0x45, 0x4c, 0x46] ∨ ehdr.eIdent.getD 4 0 ≠ elfClass64 ∨
      ehdr.eMachine ≠ emAarch64 then
    .error .notAarch64
  else if ehdr.eType ≠ etDyn then
    .error .notDyn
  else
    .ok ()

/-- The symbol table, which is empty without a dynamic section. -/
def symtabOf (dyn : Option DynamicInfo) (ranges : SectionRanges) :
    Option SymtabBuilder :=
  match dyn with
  | none => some {}
  | some dyn => buildSymtab elf dyn ranges

/-- Validation, segment selection and the dynamic section. -/
def parseElf : Except Failure Parsed := do
  let ehdr ← orFault (readEhdr elf)
  validateEhdr ehdr
  let phdrs ← orFault (readPhdrs elf ehdr)
  let text ← (selectSegments phdrs).text.elim (.error .noText) .ok
  let data := (selectSegments phdrs).data
  let dyn ← orFault (parseDynamic elf phdrs)
  let sb ← orFault (symtabOf elf dyn (sectionRanges text data))
  return { ehdr, phdrs, text, data, dyn, sb }

/-- The tables that go into `__LINKEDIT`. -/
structure Linkedit where
  rebases : List UInt8 := []
  binds : List UInt8 := []
  exportTrie : List UInt8 := []

variable (parsed : Parsed)

/-- Index of the segment that the streams refer to: `__DATA`, else `__TEXT`. -/
def segIdx : UInt8 := if parsed.data.isSome then 1 else 0

def segVmaddr (layout : Layout) : UInt64 :=
  if parsed.data.isSome then layout.dataSegVmaddr else 0

/-- The export trie, which only libraries with exports have. -/
def exportTrieOf (sb : SymtabBuilder) (shift : UInt64) : Option (List UInt8) :=
  if sb.exts = [] then some [] else buildExportTrie sb shift

/-- Build the streams and the export trie. -/
def buildLinkedit (layout : Layout) : Option Linkedit :=
  match parsed.dyn with
  | none => some {}
  | some dyn => do
      let binds ← buildBinds elf dyn parsed.sb (segIdx parsed) (segVmaddr parsed layout) layout.shift
      let rebases ← buildRebases elf dyn (segIdx parsed) (segVmaddr parsed layout) layout.shift
      let exportTrie ← exportTrieOf parsed.sb layout.shift
      return { rebases, binds, exportTrie }

namespace Linkedit

variable (linkedit : Linkedit)

def bindOff : Nat := alignSize linkedit.rebases.length 8

def exportOff : Nat := linkedit.bindOff + alignSize linkedit.binds.length 8

def symtabOff : Nat :=
  linkedit.exportOff + alignSize linkedit.exportTrie.length 8

variable (sb : SymtabBuilder)

def strtabOff : Nat :=
  linkedit.symtabOff + (sb.exts.length + sb.undefs.length) * 16

def strtabSize : Nat :=
  if alignSize sb.strtab.length 8 = 0 then 8 else alignSize sb.strtab.length 8

/-- `le_codesig_off`, which is also `linkedit_sz`. -/
def size : Nat :=
  alignSize (linkedit.strtabOff sb + strtabSize sb) 16

end Linkedit

variable (layout : Layout)

/-- The file offset of a place in `__LINKEDIT`, cut to 32 bits. -/
def absOff (off : Nat) : Nat := (layout.linkeditOff.toNat + off) % 2 ^ 32

/-- The names in the `LC_LOAD_DYLIB` commands. -/
def loadDylibNames (elf : Buffer) (dyn : Option DynamicInfo) : Option (List CString) :=
  scan (fun place : Option Nat =>
      match place with
      | none => some none
      | some place => (elf.string? place).map fun name => some (dylibName name))
    (dyn.elim [] DynamicInfo.needed)

def textCommand (text : Elf64Phdr) (layout : Layout) : SegmentCommand :=
  { segname := ofLiteral "__TEXT"
    vmaddr := 0
    vmsize := layout.textSegVmsize.toNat
    fileoff := 0
    filesize := layout.textSegFilesize.toNat
    maxprot := 7
    initprot := 5
    sect := some
      { sectname := ofLiteral "__text"
        segname := ofLiteral "__TEXT"
        addr := layout.shift + text.pVaddr
        size := text.pFilesz
        align := 2 } }

def dataCommand (data : Elf64Phdr) : SegmentCommand :=
  { segname := ofLiteral "__DATA"
    vmaddr := layout.dataSegVmaddr.toNat
    vmsize := layout.dataSegVmsize.toNat
    fileoff := layout.dataSegFileoff.toNat
    filesize := layout.dataSegFilesize.toNat
    maxprot := 3
    initprot := 3
    sect := some
      { sectname := ofLiteral "__data"
        segname := ofLiteral "__DATA"
        addr := layout.shift + data.pVaddr
        size := data.pFilesz
        align := 3 } }

def linkeditCommand (size : Nat) : SegmentCommand :=
  { segname := ofLiteral "__LINKEDIT"
    vmaddr := layout.linkeditOff.toNat
    vmsize := alignSize size 0x4000
    fileoff := layout.linkeditOff.toNat
    filesize := size
    maxprot := 1
    initprot := 1 }

/-- The segment commands, in the order of their indices. -/
def segmentCommands (parsed : Parsed) (layout : Layout) (linkedit : Linkedit) :
    List SegmentCommand :=
  textCommand parsed.text layout :: parsed.data.toList.map (dataCommand layout) ++
    [linkeditCommand layout (linkedit.size parsed.sb)]

/-- The commands that are written before the contents of `__LINKEDIT`. -/
def firstCommands (path : CString) (platform : UInt32) (parsed : Parsed) (layout : Layout)
    (linkedit : Linkedit) (dylibs : List CString) : List LoadCommand :=
  (segmentCommands parsed layout linkedit).map .segment ++
    [.idDylib (dylibName (baseName path)), .buildVersion platform, .uuid parsed.ehdr.eEntry] ++
      dylibs.map .loadDylib ++ if dylibs = [] then [] else rpathStrs.map .rpath

/-- A file offset, or zero for an empty table. -/
def offsetOfTable (table : List UInt8) (off : Nat) : Nat := if table.length > 0 then off else 0

/-- The commands that are written after the contents of `__LINKEDIT`. -/
def lastCommands (parsed : Parsed) (layout : Layout) (linkedit : Linkedit) : List LoadCommand :=
  let nsyms := parsed.sb.exts.length + parsed.sb.undefs.length
  let exportOff := offsetOfTable linkedit.exportTrie (absOff layout linkedit.exportOff)
  [.dyldInfoOnly (offsetOfTable linkedit.rebases (absOff layout 0)) linkedit.rebases.length
      (offsetOfTable linkedit.binds (absOff layout linkedit.bindOff)) linkedit.binds.length
      exportOff linkedit.exportTrie.length,
    .symtab (if nsyms > 0 then absOff layout linkedit.symtabOff else 0) nsyms
      (absOff layout (linkedit.strtabOff parsed.sb))
      (if parsed.sb.strtab.length > 0 then parsed.sb.strtab.length else 1),
    .dysymtab 0 parsed.sb.exts.length parsed.sb.exts.length parsed.sb.undefs.length,
    .dyldExportsTrie exportOff linkedit.exportTrie.length,
    .codeSignature (absOff layout (linkedit.size parsed.sb)) 0]

variable (hasData : Bool)

def sizeofcmds (idName : CString) (dylibs : List CString) : Nat :=
  (72 + 80) + (if hasData then 72 + 80 else 0) + 72 + alignSize (24 + (idName.length + 1)) 8 +
    24 + 24 + 48 + 24 + 80 + 16 + 16 +
      (dylibs.map fun name => alignSize (24 + (name.length + 1)) 8).sum +
        if dylibs = [] then 0
        else (rpathStrs.map fun path => alignSize (12 + (path.length + 1)) 8).sum

def ncmds (dylibs : List CString) : Nat :=
  1 + (if hasData then 1 else 0) + 1 + 8 + dylibs.length +
    if dylibs = [] then 0 else rpathStrs.length

/-- `memcpy` of a segment's file bytes, skipped when they are not inside the ELF. -/
def copySegment (elf out : Buffer) (off : UInt64) (phdr : Elf64Phdr) : Option Buffer :=
  if (phdr.pOffset + phdr.pFilesz).toNat ≤ elf.size then
    out.copy? off.toNat elf phdr.pOffset.toNat phdr.pFilesz.toNat
  else
    some out

/-- The segments in the output, with the pre-written relocation values. -/
def writeSegments (elf : Buffer) (parsed : Parsed) (layout : Layout) (totalSz : UInt64) :
    Option Buffer := do
  let out ← copySegment elf (Buffer.zeros totalSz.toNat) (layout.shift + parsed.text.pVaddr)
    parsed.text
  match parsed.data with
  | none => return out
  | some data =>
    let out ← copySegment elf out
      (layout.dataSegFileoff + (layout.shift + data.pVaddr - layout.dataSegVmaddr)) data
    match parsed.dyn with
    | none => return out
    | some dyn =>
      applySelfRelocValues elf dyn totalSz layout.dataSegFileoff layout.dataSegFilesize
        layout.shift out

/-- The contents of `__LINKEDIT`. -/
def writeLinkedit (parsed : Parsed) (layout : Layout) (linkedit : Linkedit) (out : Buffer) :
    Option Buffer := do
  let out ← out.write? (absOff layout 0) linkedit.rebases
  let out ← out.write? (absOff layout linkedit.bindOff) linkedit.binds
  let out ← out.write? (absOff layout linkedit.exportOff) linkedit.exportTrie
  let out ← out.write? (absOff layout linkedit.symtabOff)
    ((parsed.sb.exts ++ parsed.sb.undefs).flatMap fun sym => sym.encode layout.shift)
  out.write? (absOff layout (linkedit.strtabOff parsed.sb)) parsed.sb.strtab

/-- The emitted file together with the records that were encoded into it. -/
structure Dylib where
  file : Buffer
  segments : List SegmentCommand
  dylibs : List CString
  rebases : List UInt8
  binds : List UInt8
  exportTrie : List UInt8
  symbols : SymtabBuilder
  shift : UInt64

/-- The output part of `main`. -/
def emit (path : CString) (platform : UInt32) (elf : Buffer) (parsed : Parsed) (layout : Layout)
    (linkedit : Linkedit) : Option Dylib := do
  let totalSz := layout.linkeditOff + UInt64.ofNat (linkedit.size parsed.sb)
  let dylibs ← loadDylibNames elf parsed.dyn
  let hasData := parsed.data.isSome
  let header := machHeader (ncmds hasData dylibs)
    (sizeofcmds hasData (dylibName (baseName path)) dylibs)
  let first := header ++
    (firstCommands path platform parsed layout linkedit dylibs).flatMap LoadCommand.encode
  let out ← writeSegments elf parsed layout totalSz
  let out ← out.write? 0 first
  let out ← writeLinkedit parsed layout linkedit out
  let file ← out.write? first.length
    ((lastCommands parsed layout linkedit).flatMap LoadCommand.encode)
  return {
    file
    segments := segmentCommands parsed layout linkedit
    dylibs
    rebases := linkedit.rebases
    binds := linkedit.binds
    exportTrie := linkedit.exportTrie
    symbols := parsed.sb
    shift := layout.shift }

/-- The header check of `main`. -/
def checkHdrSize : Except Failure Unit :=
  if hdrSize hasData > pageSz.toNat then .error .headerTooLarge else .ok ()

/-- `main` without its file access. -/
def convert (path : CString) (platform : UInt32) (elf : Buffer) : Except Failure Dylib := do
  let parsed ← parseElf elf
  let layout ← planLayout parsed.text parsed.data
  checkHdrSize parsed.data.isSome
  let linkedit ← orFault (buildLinkedit elf parsed layout)
  orFault (emit path platform elf parsed layout linkedit)

variable {α : Type}

theorem bind_eq_ok {ε β : Type} {first : Except ε α} {next : α → Except ε β} {result : β} :
    (first >>= next) = .ok result ↔ ∃ value, first = .ok value ∧ next value = .ok result := by
  cases first with
  | error | ok => simp [bind, Except.bind]

theorem orFault_eq_ok {access : Option α} {value : α} :
    orFault access = .ok value ↔ access = some value := by
  cases access <;> simp [orFault]

theorem exists_of_view {ε β : Type} {result : Except ε α} {view : α → β} {seen : β}
    (evaluated : result.toOption.map view = some seen) :
    ∃ value, result = .ok value ∧ view value = seen := by
  cases result with
  | error => simp [Except.toOption] at evaluated
  | ok value => exact ⟨value, rfl, Option.some.inj evaluated⟩

/-- All stages of a successful run of `main`. -/
structure Converted (path : CString) (platform : UInt32) (elf : Buffer) (parsed : Parsed)
    (layout : Layout) (linkedit : Linkedit) (dylib : Dylib) : Prop where
  parse : parseElf elf = .ok parsed
  plan : planLayout parsed.text parsed.data = .ok layout
  tables : buildLinkedit elf parsed layout = some linkedit
  emitted : emit path platform elf parsed layout linkedit = some dylib

variable {elf parsed} {path : CString} {platform : UInt32} {dylib : Dylib}

theorem convert_eq_ok (converted : convert path platform elf = .ok dylib)
    (parse : parseElf elf = .ok parsed) :
    ∃ layout linkedit, Converted path platform elf parsed layout linkedit dylib := by
  simp only [convert, bind_eq_ok, orFault_eq_ok, parse, Except.ok.injEq, exists_eq_left']
    at converted
  obtain ⟨layout, plan, _, _, linkedit, tables, emitted⟩ := converted
  exact ⟨layout, linkedit, parse, plan, tables, emitted⟩

/-- Where the fields of a parsed ELF come from. -/
structure ParsedFrom (elf : Buffer) (parsed : Parsed) : Prop where
  header : readEhdr elf = some parsed.ehdr
  table : readPhdrs elf parsed.ehdr = some parsed.phdrs
  text : (selectSegments parsed.phdrs).text = some parsed.text
  data : (selectSegments parsed.phdrs).data = parsed.data
  dynamic : parseDynamic elf parsed.phdrs = some parsed.dyn
  symbols : symtabOf elf parsed.dyn (sectionRanges parsed.text parsed.data) = some parsed.sb

theorem parseElf_eq_ok (parse : parseElf elf = .ok parsed) : ParsedFrom elf parsed := by
  simp only [parseElf, bind_eq_ok, orFault_eq_ok] at parse
  obtain ⟨_, header, _, _, phdrs, table, _, selected, _, dynamic, _, symbols, result⟩ :=
    parse
  obtain rfl := Except.ok.inj result
  refine ⟨header, table, ?_, rfl, dynamic, symbols⟩
  cases found : (selectSegments phdrs).text with
  | none => simp [found] at selected
  | some =>
    rw [found] at selected
    exact congrArg some (Except.ok.inj selected)

/-- The header and the commands in front of the contents of `__LINKEDIT`. -/
def firstBytes (path : CString) (platform : UInt32) (parsed : Parsed) (layout : Layout)
    (linkedit : Linkedit) (dylibs : List CString) : List UInt8 :=
  machHeader (ncmds parsed.data.isSome dylibs)
      (sizeofcmds parsed.data.isSome (dylibName (baseName path)) dylibs) ++
    (firstCommands path platform parsed layout linkedit dylibs).flatMap LoadCommand.encode

/-- The commands behind the contents of `__LINKEDIT`. -/
def lastBytes (parsed : Parsed) (layout : Layout) (linkedit : Linkedit) : List UInt8 :=
  (lastCommands parsed layout linkedit).flatMap LoadCommand.encode

def totalSz (parsed : Parsed) (layout : Layout) (linkedit : Linkedit) : UInt64 :=
  layout.linkeditOff + UInt64.ofNat (linkedit.size parsed.sb)

/-- The writes that make up the output file, in order. -/
structure Written (path : CString) (platform : UInt32) (elf : Buffer) (parsed : Parsed)
    (layout : Layout) (linkedit : Linkedit) (dylibs : List CString) (file : Buffer) where
  copied : Buffer
  headed : Buffer
  linked : Buffer
  segments : writeSegments elf parsed layout (totalSz parsed layout linkedit) = some copied
  header : copied.write? 0 (firstBytes path platform parsed layout linkedit dylibs) = some headed
  tables : writeLinkedit parsed layout linkedit headed = some linked
  commands : linked.write? (firstBytes path platform parsed layout linkedit dylibs).length
    (lastBytes parsed layout linkedit) = some file

variable {layout} {linkedit : Linkedit}

theorem emit_eq_some (emitted : emit path platform elf parsed layout linkedit = some dylib) :
    loadDylibNames elf parsed.dyn = some dylib.dylibs ∧
      Nonempty (Written path platform elf parsed layout linkedit dylib.dylibs dylib.file) ∧
        dylib = { file := dylib.file, segments := segmentCommands parsed layout linkedit,
                  dylibs := dylib.dylibs, rebases := linkedit.rebases, binds := linkedit.binds,
                  exportTrie := linkedit.exportTrie, symbols := parsed.sb,
                  shift := layout.shift } := by
  simp only [emit, Option.bind_eq_bind, Option.bind_eq_some_iff] at emitted
  obtain ⟨_, names, copied, segments, headed, header, linked, tables, _, commands,
    result⟩ := emitted
  obtain rfl := Option.some.inj result
  exact ⟨names, ⟨copied, headed, linked, segments, header, tables, commands⟩, rfl⟩

/-- The planned output ends below 4 GiB, so that the 32-bit offsets of its tables are not cut. -/
def OutputSmall (elf : Buffer) (parsed : Parsed) : Prop :=
  ∀ layout linkedit, planLayout parsed.text parsed.data = .ok layout →
    buildLinkedit elf parsed layout = some linkedit →
      layout.linkeditOff.toNat + linkedit.size parsed.sb ≤ 2 ^ 32

/-- The ranges of a segment command. -/
def SegmentCommand.range (command : SegmentCommand) : Dyld.Segment :=
  { vmaddr := command.vmaddr
    vmsize := command.vmsize
    fileoff := command.fileoff
    filesize := command.filesize }

/-- The segments of the output as the loader sees them. -/
def Dylib.ranges (dylib : Dylib) : List Dyld.Segment := dylib.segments.map SegmentCommand.range

theorem ranges_eq (stages : Converted path platform elf parsed layout linkedit dylib) :
    dylib.ranges = (segmentCommands parsed layout linkedit).map SegmentCommand.range := by
  obtain ⟨_, _, result⟩ := emit_eq_some stages.emitted
  rw [Dylib.ranges, result]

theorem outputSmall_of_ranges (converted : convert path platform elf = .ok dylib)
    (parse : parseElf elf = .ok parsed)
    (bound : ∀ segment ∈ dylib.ranges, segment.fileoff + segment.filesize ≤ 2 ^ 32) :
    OutputSmall elf parsed := by
  obtain ⟨layout, linkedit, stages⟩ := convert_eq_ok converted parse
  intro otherLayout otherLinkedit plan tables
  obtain rfl : layout = otherLayout := Except.ok.inj (stages.plan.symm.trans plan)
  obtain rfl : linkedit = otherLinkedit := Option.some.inj (stages.tables.symm.trans tables)
  exact bound (linkeditCommand layout (linkedit.size parsed.sb)).range
    (by simp [ranges_eq stages, segmentCommands])

end AlpineOnIOS.Elf2macho
