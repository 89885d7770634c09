import AlpineOnIOS.Elf2macho.Layout

/-!
# Segments of the output file

In whole numbers the layout is rounding to pages. The file ranges of the segments never meet. The
address ranges meet when the text reaches the page of the data, or the last segment the place of
`__LINKEDIT`.
-/

namespace AlpineOnIOS.Elf2macho

open Foundation SegmentCommand

def roundUp (value : Nat) : Nat := (value + 0x3fff) / 0x4000 * 0x4000

def roundDown (value : Nat) : Nat := value / 0x4000 * 0x4000

/-- A segment that ends in the lower half of the address range, so that no sum wraps around. -/
def Elf64Phdr.Addressable (phdr : Elf64Phdr) : Prop :=
  phdr.pVaddr.toNat + phdr.pMemsz.toNat ≤ 2 ^ 63 ∧ phdr.pVaddr.toNat + phdr.pFilesz.toNat ≤ 2 ^ 63
  deriving Decidable

theorem toNat_pageSz : pageSz.toNat = 2 ^ 14 := rfl

theorem toNat_alignUp_page {word : UInt64} (small : word.toNat + 0x3fff < 2 ^ 64) :
    (alignUp word pageSz).toNat = roundUp word.toNat := by
  rw [toNat_alignUp toNat_pageSz, toNat_pageSz, roundUp]
  have whole : (word.toNat + (2 ^ 14 - 1)) % 2 ^ 64 = word.toNat + 0x3fff := by omega
  rw [whole]
  rfl

theorem toNat_alignDown_page (word : UInt64) :
    (alignDown word pageSz).toNat = roundDown word.toNat := by
  rw [toNat_alignDown toNat_pageSz, toNat_pageSz]
  rfl

theorem toNat_add_small {left right : UInt64} (small : left.toNat + right.toNat < 2 ^ 64) :
    (left + right).toNat = left.toNat + right.toNat := by
  rw [UInt64.toNat_add]
  exact Nat.mod_eq_of_lt small

theorem toNat_atLeast (rounded filesize : UInt64) :
    (if rounded < filesize then filesize else rounded).toNat =
      max rounded.toNat filesize.toNat := by
  split
  · rename_i shorter
    rw [UInt64.lt_iff_toNat_lt] at shorter
    omega
  · rename_i longer
    rw [UInt64.lt_iff_toNat_lt] at longer
    omega

theorem toNat_shiftOf (text : Elf64Phdr) :
    (shiftOf text).toNat = if text.pVaddr.toNat < 0x4000 then 0x4000 else 0 := by
  have first_page : alignDown text.pVaddr pageSz = 0 ↔ text.pVaddr.toNat < 0x4000 := by
    rw [← UInt64.toNat_inj, toNat_alignDown_page, roundDown]
    change _ = 0 ↔ _
    omega
  simp only [shiftOf, first_page]
  split <;> rfl

/-- Where a segment of the ELF starts in the output. -/
def outStart (text phdr : Elf64Phdr) : Nat := (shiftOf text).toNat + phdr.pVaddr.toNat

/-- The layout in whole numbers. -/
structure LayoutFacts (text : Elf64Phdr) (data : Option Elf64Phdr) (layout : Layout) : Prop where
  shift : layout.shift = shiftOf text
  textFile : layout.textSegFilesize.toNat = roundUp (outStart text text + text.pFilesz.toNat)
  textMemory : layout.textSegVmsize.toNat =
    max (roundUp (outStart text text + text.pMemsz.toNat)) layout.textSegFilesize.toNat
  linkedit : layout.linkeditOff.toNat =
    layout.dataSegFileoff.toNat + layout.dataSegFilesize.toNat
  noData : data = none → layout.dataSegFileoff = layout.textSegFilesize ∧ layout.dataSegFilesize = 0
  withData : ∀ segment, data = some segment →
    layout.dataSegFileoff = layout.dataSegVmaddr ∧
      layout.dataSegVmaddr.toNat = roundDown (outStart text segment) ∧
        layout.textSegFilesize.toNat ≤ layout.dataSegVmaddr.toNat ∧
          layout.dataSegVmaddr.toNat + layout.dataSegFilesize.toNat =
              roundUp (outStart text segment + segment.pFilesz.toNat) ∧
            layout.dataSegVmaddr.toNat + layout.dataSegVmsize.toNat =
              max (roundUp (outStart text segment + segment.pMemsz.toNat))
                (roundUp (outStart text segment + segment.pFilesz.toNat))

variable {layout : Layout} {text : Elf64Phdr} {data : Option Elf64Phdr}

theorem shiftOf_le (text : Elf64Phdr) : (shiftOf text).toNat ≤ 0x4000 := by
  rw [toNat_shiftOf]
  split <;> omega

/-- A sum of an output address and a size of an addressable segment does not wrap around. -/
theorem toNat_outEnd {phdr : Elf64Phdr} {size : UInt64}
    (ends : phdr.pVaddr.toNat + size.toNat ≤ 2 ^ 63) :
    (shiftOf text + phdr.pVaddr + size).toNat = outStart text phdr + size.toNat := by
  have shift_le := shiftOf_le text
  have start : (shiftOf text + phdr.pVaddr).toNat = outStart text phdr :=
    toNat_add_small (by omega)
  rw [toNat_add_small (by rw [start, outStart]; omega), start]

theorem textLayout_facts (addressable : text.Addressable) :
    (textLayout text).shift = shiftOf text ∧
      (textLayout text).textSegFilesize.toNat = roundUp (outStart text text + text.pFilesz.toNat) ∧
        (textLayout text).textSegVmsize.toNat =
          max (roundUp (outStart text text + text.pMemsz.toNat))
            (textLayout text).textSegFilesize.toNat := by
  obtain ⟨memory_ends, file_ends⟩ := addressable
  have shift_le := shiftOf_le text
  have file_size : (alignUp (shiftOf text + text.pVaddr + text.pFilesz) pageSz).toNat =
      roundUp (outStart text text + text.pFilesz.toNat) := by
    rw [toNat_alignUp_page (by rw [toNat_outEnd file_ends, outStart]; omega),
      toNat_outEnd file_ends]
  have memory_size : (alignUp (shiftOf text + text.pVaddr + text.pMemsz) pageSz).toNat =
      roundUp (outStart text text + text.pMemsz.toNat) := by
    rw [toNat_alignUp_page (by rw [toNat_outEnd memory_ends, outStart]; omega),
      toNat_outEnd memory_ends]
  refine ⟨rfl, file_size, ?_⟩
  simp only [textLayout]
  rw [toNat_atLeast, memory_size]

theorem withData_facts {segment : Elf64Phdr} (addressable : segment.Addressable)
    (placed : (textLayout text).withData segment = .ok layout) :
    ∃ vmaddr filesize vmsize : UInt64,
      layout = { textLayout text with
                  dataSegFileoff := vmaddr, dataSegVmaddr := vmaddr, dataSegFilesize := filesize,
                  dataSegVmsize := vmsize } ∧
        vmaddr.toNat = roundDown (outStart text segment) ∧
          (textLayout text).textSegFilesize.toNat ≤ vmaddr.toNat ∧
            vmaddr.toNat + filesize.toNat =
                roundUp (outStart text segment + segment.pFilesz.toNat) ∧
              vmaddr.toNat + vmsize.toNat =
                max (roundUp (outStart text segment + segment.pMemsz.toNat))
                  (roundUp (outStart text segment + segment.pFilesz.toNat)) := by
  obtain ⟨_, _⟩ := addressable
  have shift_le := shiftOf_le text
  have start : (shiftOf text + segment.pVaddr).toNat = outStart text segment :=
    toNat_add_small (by omega)
  have start_bound : outStart text segment + segment.pMemsz.toNat ≤ 2 ^ 63 + 0x4000 ∧
      outStart text segment + segment.pFilesz.toNat ≤ 2 ^ 63 + 0x4000 := by
    simp only [outStart]
    omega
  have page : (alignDown (shiftOf text + segment.pVaddr) pageSz).toNat =
      roundDown (outStart text segment) := by
    rw [toNat_alignDown_page, start]
  have inside : (shiftOf text + segment.pVaddr -
      alignDown (shiftOf text + segment.pVaddr) pageSz).toNat =
        outStart text segment - roundDown (outStart text segment) := by
    rw [UInt64.toNat_sub_of_le _ _ (by rw [UInt64.le_iff_toNat_le, page, start, roundDown]; omega),
      start, page]
  have rounded : ∀ size : UInt64, outStart text segment + size.toNat ≤ 2 ^ 63 + 0x4000 →
      roundDown (outStart text segment) + (alignUp (shiftOf text + segment.pVaddr -
        alignDown (shiftOf text + segment.pVaddr) pageSz + size) pageSz).toNat =
          roundUp (outStart text segment + size.toNat) := by
    intro size bound
    have sum : (shiftOf text + segment.pVaddr -
        alignDown (shiftOf text + segment.pVaddr) pageSz + size).toNat =
          outStart text segment - roundDown (outStart text segment) + size.toNat := by
      rw [toNat_add_small (by rw [inside]; omega), inside]
    rw [toNat_alignUp_page (by rw [sum]; omega), sum, roundUp, roundUp, roundDown]
    omega
  have shifted : (textLayout text).shift = shiftOf text := rfl
  simp only [Layout.withData, shifted] at placed
  split at placed
  · cases placed
  rename_i behind
  refine ⟨_, _, _, (Except.ok.inj placed).symm, page, Nat.le_of_not_lt behind, ?_, ?_⟩
  · rw [page, rounded _ start_bound.2]
  · rw [toNat_atLeast, page, ← Nat.add_max_add_left, rounded _ start_bound.1,
      rounded _ start_bound.2]

theorem withLinkedit_off (base : Layout)
    (behind : base.textSegFilesize.toNat ≤ base.dataSegFileoff.toNat + base.dataSegFilesize.toNat)
    (small : base.dataSegFileoff.toNat + base.dataSegFilesize.toNat + 0x3fff < 2 ^ 64)
    (aligned : (base.dataSegFileoff.toNat + base.dataSegFilesize.toNat) % 0x4000 = 0) :
    base.withLinkedit.linkeditOff.toNat =
      base.dataSegFileoff.toNat + base.dataSegFilesize.toNat := by
  have sum : (base.dataSegFileoff + base.dataSegFilesize).toNat =
      base.dataSegFileoff.toNat + base.dataSegFilesize.toNat := toNat_add_small (by omega)
  have kept : ¬base.dataSegFileoff + base.dataSegFilesize < base.textSegFilesize := by
    rw [UInt64.lt_iff_toNat_lt]
    omega
  simp only [Layout.withLinkedit, if_neg kept]
  rw [toNat_alignUp_page (by omega), sum, roundUp]
  omega

theorem planLayout_facts (text_addressable : text.Addressable)
    (data_addressable : ∀ segment, data = some segment → segment.Addressable)
    (plan : planLayout text data = .ok layout) : LayoutFacts text data layout := by
  obtain ⟨shift, file_size, memory_size⟩ := textLayout_facts text_addressable
  rw [planLayout, bind_eq_ok] at plan
  obtain ⟨_, placed, result⟩ := plan
  obtain rfl := Except.ok.inj result
  have shift_le := shiftOf_le text
  cases data with
  | none =>
    obtain rfl := Except.ok.inj placed
    obtain ⟨_, _⟩ := text_addressable
    have off := withLinkedit_off (textLayout text) (Nat.le_of_eq (Nat.add_zero _).symm)
      (by change (textLayout text).textSegFilesize.toNat + 0 + 0x3fff < _
          rw [file_size, roundUp, outStart]
          omega)
      (by change ((textLayout text).textSegFilesize.toNat + 0) % _ = _
          rw [file_size, roundUp]
          omega)
    exact ⟨shift, file_size, memory_size, off, fun _ => ⟨rfl, rfl⟩, by simp⟩
  | some segment =>
    have addressable := data_addressable segment rfl
    obtain ⟨vmaddr, filesize, vmsize, rfl, start, behind, file_end, memory_end⟩ :=
      withData_facts addressable placed
    obtain ⟨_, _⟩ := addressable
    have off := withLinkedit_off
      { textLayout text with
        dataSegFileoff := vmaddr, dataSegVmaddr := vmaddr, dataSegFilesize := filesize,
        dataSegVmsize := vmsize }
      (Nat.le_trans behind (Nat.le_add_right _ _))
      (by simp only
          rw [file_end, roundUp, outStart]
          omega)
      (by simp only
          rw [file_end, roundUp]
          omega)
    refine ⟨shift, file_size, memory_size, off, by simp, ?_⟩
    intro other same
    obtain rfl := Option.some.inj same
    exact ⟨rfl, start, behind, file_end, memory_end⟩

/-- No address and no file position belongs to two segments. -/
def RangesDisjoint (segments : List Dyld.Segment) : Prop :=
  segments.Pairwise fun left right =>
    (∀ address, ¬(left.Covers address ∧ right.Covers address)) ∧
      ∀ position, ¬(left.CoversFile position ∧ right.CoversFile position)

/-- Text ends before the page of the data, and the last segment in the page of its file part. -/
def SegmentsFit (text : Elf64Phdr) : Option Elf64Phdr → Prop
  | none => roundUp (outStart text text + text.pMemsz.toNat) ≤
      roundUp (outStart text text + text.pFilesz.toNat)
  | some data =>
    roundUp (outStart text text + text.pMemsz.toNat) ≤ roundDown (outStart text data) ∧
      roundUp (outStart text data + data.pMemsz.toNat) ≤
        roundUp (outStart text data + data.pFilesz.toNat)

instance (text : Elf64Phdr) (data : Option Elf64Phdr) : Decidable (SegmentsFit text data) :=
  match data with
  | none => Nat.decLe _ _
  | some _ => instDecidableAnd

theorem ranges_apart_iff {left right leftSize rightSize : Nat} :
    (∀ position, ¬((left ≤ position ∧ position < left + leftSize) ∧
        right ≤ position ∧ position < right + rightSize)) ↔
      leftSize = 0 ∨ rightSize = 0 ∨ left + leftSize ≤ right ∨ right + rightSize ≤ left := by
  constructor
  · intro apart
    have at_left := apart left
    have at_right := apart right
    omega
  · intro apart position
    omega

theorem apart_iff {left right : Dyld.Segment} :
    ((∀ address, ¬(left.Covers address ∧ right.Covers address)) ∧
        ∀ position, ¬(left.CoversFile position ∧ right.CoversFile position)) ↔
      (left.vmsize = 0 ∨ right.vmsize = 0 ∨ left.vmaddr + left.vmsize ≤ right.vmaddr ∨
          right.vmaddr + right.vmsize ≤ left.vmaddr) ∧
        (left.filesize = 0 ∨ right.filesize = 0 ∨ left.fileoff + left.filesize ≤ right.fileoff ∨
          right.fileoff + right.filesize ≤ left.fileoff) :=
  and_congr ranges_apart_iff ranges_apart_iff

theorem linkedit_size_pos (linkedit : Linkedit) (sb : SymtabBuilder) : 0 < linkedit.size sb := by
  have strtab_pos : 0 < Linkedit.strtabSize sb := by
    rw [Linkedit.strtabSize]
    split <;> omega
  rw [Linkedit.size, alignSize]
  omega

theorem page_le_outStart (text : Elf64Phdr) : 0x4000 ≤ outStart text text := by
  rw [outStart, toNat_shiftOf]
  split <;> omega

variable {textMemory textFile linkeditMemory linkeditFile : Nat}

theorem rangesDisjoint_pair (text_pos : 0 < textMemory) (linkedit_pos : 0 < linkeditMemory) :
    RangesDisjoint [⟨0, textMemory, 0, textFile⟩,
        ⟨textFile, linkeditMemory, textFile, linkeditFile⟩] ↔ textMemory ≤ textFile := by
  rw [RangesDisjoint, List.pairwise_pair, apart_iff]
  simp only
  omega

theorem rangesDisjoint_triple {dataAddr dataMemory dataFile : Nat} (text_pos : 0 < textMemory)
    (linkedit_pos : 0 < linkeditMemory) (text_behind : textFile ≤ dataAddr)
    (data_le : dataFile ≤ dataMemory) :
    RangesDisjoint [⟨0, textMemory, 0, textFile⟩, ⟨dataAddr, dataMemory, dataAddr, dataFile⟩,
        ⟨dataAddr + dataFile, linkeditMemory, dataAddr + dataFile, linkeditFile⟩] ↔
      textMemory ≤ dataAddr ∧ dataMemory ≤ dataFile := by
  rw [RangesDisjoint, List.pairwise_cons, List.pairwise_pair, apart_iff]
  simp only [List.mem_cons, List.not_mem_nil, or_false, forall_eq_or_imp, forall_eq, apart_iff]
  constructor
  · rintro ⟨⟨⟨_, -⟩, _, -⟩, _, -⟩
    exact ⟨by omega, by omega⟩
  · rintro ⟨_, _⟩
    exact ⟨⟨⟨by omega, by omega⟩, by omega, by omega⟩, by omega, by omega⟩

/-- The ranges that the converter emits, over the layout in whole numbers. -/
theorem segmentCommands_disjoint_iff {parsed : Parsed} {linkedit : Linkedit}
    (facts : LayoutFacts parsed.text parsed.data layout) :
    RangesDisjoint ((segmentCommands parsed layout linkedit).map range) ↔
      SegmentsFit parsed.text parsed.data := by
  have linkedit_pages : 0 < alignSize (linkedit.size parsed.sb) 0x4000 := by
    have linkedit_pos := linkedit_size_pos linkedit parsed.sb
    rw [alignSize]
    omega
  have text_pos : 0 < layout.textSegVmsize.toNat := by
    have first := page_le_outStart parsed.text
    rw [facts.textMemory, facts.textFile]
    refine Nat.lt_of_lt_of_le ?_ (Nat.le_max_right _ _)
    rw [roundUp]
    omega
  have text_fits : ∀ bound, layout.textSegFilesize.toNat ≤ bound →
      (layout.textSegVmsize.toNat ≤ bound ↔
        roundUp (outStart parsed.text parsed.text + parsed.text.pMemsz.toNat) ≤ bound) := by
    intro bound file_le
    rw [facts.textMemory, Nat.max_le]
    exact and_iff_left file_le
  have off := facts.linkedit
  cases data : parsed.data with
  | none =>
    obtain ⟨fileoff, filesize⟩ := facts.noData data
    have segments : (segmentCommands parsed layout linkedit).map range =
        [(textCommand parsed.text layout).range,
          (linkeditCommand layout (linkedit.size parsed.sb)).range] := by
      simp [segmentCommands, data]
    rw [fileoff, filesize, UInt64.toNat_zero, Nat.add_zero] at off
    simp only [segments, range, textCommand, linkeditCommand, off]
    rw [rangesDisjoint_pair text_pos linkedit_pages, text_fits _ (Nat.le_refl _), SegmentsFit,
      facts.textFile]
  | some segment =>
    obtain ⟨fileoff, vmaddr, behind, file_end, memory_end⟩ := facts.withData segment data
    have segments : (segmentCommands parsed layout linkedit).map range =
        [(textCommand parsed.text layout).range, (dataCommand layout segment).range,
          (linkeditCommand layout (linkedit.size parsed.sb)).range] := by
      simp [segmentCommands, data]
    have data_le : layout.dataSegFilesize.toNat ≤ layout.dataSegVmsize.toNat := by
      apply Nat.le_of_add_le_add_left
      rw [file_end, memory_end]
      exact Nat.le_max_right _ _
    have data_fits : layout.dataSegVmsize.toNat ≤ layout.dataSegFilesize.toNat ↔
        roundUp (outStart parsed.text segment + segment.pMemsz.toNat) ≤
          roundUp (outStart parsed.text segment + segment.pFilesz.toNat) := by
      rw [← Nat.add_le_add_iff_left, memory_end, file_end, Nat.max_le]
      exact and_iff_left (Nat.le_refl _)
    simp only [segments, range, textCommand, dataCommand, linkeditCommand, off,
      fileoff]
    rw [rangesDisjoint_triple text_pos linkedit_pages behind data_le, text_fits _ behind,
      data_fits, SegmentsFit, vmaddr]

/-- The emitted segments are disjoint, in memory and in the file, exactly if they fit. -/
theorem convert_rangesDisjoint_iff {path : CString} {platform : UInt32} {elf : Buffer}
    {dylib : Dylib} {parsed : Parsed} (converted : convert path platform elf = .ok dylib)
    (parse : parseElf elf = .ok parsed) (text_addressable : parsed.text.Addressable)
    (data_addressable : ∀ segment, parsed.data = some segment → segment.Addressable) :
    RangesDisjoint dylib.ranges ↔ SegmentsFit parsed.text parsed.data := by
  obtain ⟨_, _, stages⟩ := convert_eq_ok converted parse
  obtain ⟨_, _, result⟩ := emit_eq_some stages.emitted
  rw [Dylib.ranges, result]
  exact segmentCommands_disjoint_iff
    (planLayout_facts text_addressable data_addressable stages.plan)

/-- Code in the first page of the ELF and initialised data in the second. -/
def twoSegments (dataMemsz : UInt64) : List Elf64Phdr :=
  [{ pType := ptLoad, pFlags := 5, pOffset := 0, pVaddr := 0, pFilesz := 0x400, pMemsz := 0x400 },
    { pType := ptLoad, pFlags := 6, pOffset := 0x400, pVaddr := 0x4400, pFilesz := 0x10,
      pMemsz := dataMemsz }]

/-- With a small `.bss` the segments are disjoint. -/
theorem convert_rangesDisjoint_small :
    ∃ dylib, convert [] 2 (elfWithSegments 0x500 (twoSegments 0x20) []) = .ok dylib ∧
      RangesDisjoint dylib.ranges := by
  obtain ⟨dylib, converted, -⟩ := exists_of_view
    (show (convert [] 2 (elfWithSegments 0x500 (twoSegments 0x20) [])).toOption.map
      (fun _ => ()) = some () by decide +kernel)
  obtain ⟨parsed, parse, carried⟩ := exists_of_view
    (show (parseElf (elfWithSegments 0x500 (twoSegments 0x20) [])).toOption.map
      (fun parsed => (parsed.text, parsed.data)) =
        some ((twoSegments 0x20).head (by decide), (twoSegments 0x20)[1]?) by decide +kernel)
  obtain ⟨text, data⟩ := Prod.mk.inj carried
  refine ⟨dylib, converted, (convert_rangesDisjoint_iff converted parse ?_ ?_).mpr ?_⟩
  · rw [text]
    decide
  · rw [data]
    decide
  · rw [text, data]
    decide

/-- A `.bss` of several pages reaches into `__LINKEDIT`. -/
theorem convert_ranges_overlap :
    ∃ dylib, convert [] 2 (elfWithSegments 0x500 (twoSegments 0x9000) []) = .ok dylib ∧
      ¬RangesDisjoint dylib.ranges := by
  obtain ⟨dylib, converted, ranges⟩ := exists_of_view
    (show (convert [] 2 (elfWithSegments 0x500 (twoSegments 0x9000) [])).toOption.map
      Dylib.ranges = some [⟨0, 0x8000, 0, 0x8000⟩, ⟨0x8000, 0xc000, 0x8000, 0x4000⟩,
        ⟨0xc000, 0x4000, 0xc000, 16⟩] by decide +kernel)
  refine ⟨dylib, converted, ?_⟩
  rw [ranges, rangesDisjoint_triple (by decide) (by decide) (by decide) (by decide)]
  decide

open List Option

@[simp]
theorem length_words (values : List Nat) : (words values).length = 4 * values.length := by
  induction values with
  | nil => rfl
  | cons value rest induction =>
    simp only [words, flatMap_cons, length_append, length_leBytes, length_cons]
    rw [← words, induction]
    omega

@[simp]
theorem length_nameField (name : CString) : (nameField name).length = 16 := by
  simp [nameField]

theorem le_alignSize (size : Nat) {unit : Nat} (unit_pos : 0 < unit) :
    size ≤ alignSize size unit := by
  have quotient := Nat.div_add_mod (size + (unit - 1)) unit
  have remainder := Nat.mod_lt (size + (unit - 1)) unit_pos
  rw [alignSize, Nat.mul_comm]
  omega

theorem length_stringCommand (cmd : Nat) (fields : List Nat) (text : CString) :
    (stringCommand cmd fields text).length =
      alignSize (8 + 4 * fields.length + (text.length + 1)) 8 := by
  have fits := le_alignSize (8 + 4 * fields.length + (text.length + 1)) (show 0 < 8 by decide)
  simp only [stringCommand, length_append, length_words, length_cons, length_nil,
    CString.length_stored, length_replicate]
  omega

theorem length_sectionEncode (sect : MachSection) : sect.encode.length = 80 := by
  simp [MachSection.encode]

theorem length_segmentEncode (command : SegmentCommand) :
    command.encode.length = 72 + if command.sect.isSome then 80 else 0 := by
  cases found : command.sect with
  | none => simp [SegmentCommand.encode, found]
  | some => simp [SegmentCommand.encode, found, length_sectionEncode]

@[simp]
theorem length_uuidBytes (entry : UInt64) : (uuidBytes entry).length = 16 := by
  simp [uuidBytes]

theorem length_commands (path : CString) (platform : UInt32) (parsed : Parsed) (layout : Layout)
    (linkedit : Linkedit) (dylibs : List CString) :
    (firstBytes path platform parsed layout linkedit dylibs).length +
        (lastBytes parsed layout linkedit).length =
      32 + sizeofcmds parsed.data.isSome (dylibName (baseName path)) dylibs := by
  have segments : (((segmentCommands parsed layout linkedit).map LoadCommand.segment).flatMap
      LoadCommand.encode).length =
        (72 + 80) + (if parsed.data.isSome then 72 + 80 else 0) + 72 := by
    cases data : parsed.data with
    | none =>
      simp [segmentCommands, data, LoadCommand.encode, length_segmentEncode, textCommand,
        linkeditCommand]
    | some =>
      simp [segmentCommands, data, LoadCommand.encode, length_segmentEncode, textCommand,
        dataCommand, linkeditCommand]
  have libraries : ((dylibs.map LoadCommand.loadDylib).flatMap LoadCommand.encode).length =
      (dylibs.map fun name => alignSize (24 + (name.length + 1)) 8).sum := by
    simp [length_flatMap, LoadCommand.encode, length_stringCommand, Function.comp_def]
  have paths : ((if dylibs = [] then [] else rpathStrs.map LoadCommand.rpath).flatMap
      LoadCommand.encode).length =
        if dylibs = [] then 0
        else (rpathStrs.map fun path => alignSize (12 + (path.length + 1)) 8).sum := by
    split
    · rfl
    · simp [length_flatMap, LoadCommand.encode, length_stringCommand, Function.comp_def]
  have last : (lastBytes parsed layout linkedit).length = 48 + 24 + 80 + 16 + 16 := by
    simp [lastBytes, lastCommands, LoadCommand.encode]
  rw [last, firstBytes, firstCommands, flatMap_append, flatMap_append,
    flatMap_append, length_append, length_append, length_append,
    length_append, segments, libraries, paths]
  simp only [machHeader, length_words, flatMap_cons, flatMap_nil, length_append,
    LoadCommand.encode, length_stringCommand, length_uuidBytes, length_cons, length_nil,
    sizeofcmds, Nat.reduceAdd, Nat.reduceMul]
  omega

theorem length_dylibName_le (base : CString) : (dylibName base).length ≤ 255 := by
  rw [dylibName, length_take]
  exact Nat.min_le_left _ _

variable {elf : Buffer} {phdrs : List Elf64Phdr} {offset : Nat}

theorem length_neededOff_le {fuel : Nat} {tags result : DynamicTags}
    (start : tags.neededOff.length ≤ maxNeeded)
    (walked : dynamicLoop elf phdrs fuel offset tags = some result) :
    result.neededOff.length ≤ maxNeeded := by
  induction fuel generalizing offset tags with
  | zero => simp [dynamicLoop] at walked
  | succ fuel induction =>
    simp only [dynamicLoop, bind_eq_bind, bind_eq_some_iff] at walked
    obtain ⟨_, _, walked⟩ := walked
    split at walked
    · obtain rfl := some.inj walked
      exact start
    refine induction ?_ walked
    rw [DynamicTags.record]
    split
    · split
      · rename_i room
        rw [length_append]
        exact room
      · exact start
    all_goals exact start

variable {dyn : DynamicInfo}

theorem length_needed_le (parsed : parseDynamic elf phdrs = some (some dyn)) :
    dyn.needed.length ≤ maxNeeded := by
  rw [parseDynamic] at parsed
  split at parsed
  · simp at parsed
  simp only [bind_eq_bind, bind_eq_some_iff] at parsed
  obtain ⟨_, walked, _, _, _, _, result⟩ := parsed
  obtain rfl := some.inj (some.inj result)
  rw [length_map]
  exact length_neededOff_le (Nat.zero_le _) walked

variable {dylibs : List CString}

theorem loadDylibNames_bounds {dyn : Option DynamicInfo}
    (parsed : parseDynamic elf phdrs = some dyn) (names : loadDylibNames elf dyn = some dylibs) :
    dylibs.length ≤ maxNeeded ∧ ∀ name ∈ dylibs, name.length ≤ 255 := by
  constructor
  · rw [scan_eq_filterMap names]
    refine Nat.le_trans (length_filterMap_le _ _) ?_
    cases dyn with
    | none => exact Nat.zero_le _
    | some => exact length_needed_le parsed
  · intro name member
    obtain ⟨place, _, visited⟩ := (mem_of_scan names).mp member
    cases place with
    | none => simp at visited
    | some =>
      simp only [map_eq_some_iff, some.injEq] at visited
      obtain ⟨base, _, rfl⟩ := visited
      exact length_dylibName_le base

theorem alignSize_eight_le {size bound : Nat} (le : size ≤ bound) :
    alignSize size 8 ≤ bound + 7 := by
  rw [alignSize]
  omega

theorem sizeofcmds_le (hasData : Bool) {idName : CString} (id_le : idName.length ≤ 255)
    (count : dylibs.length ≤ maxNeeded) (names_le : ∀ name ∈ dylibs, name.length ≤ 255) :
    32 + sizeofcmds hasData idName dylibs ≤ 0x4000 := by
  have libraries : (dylibs.map fun name => alignSize (24 + (name.length + 1)) 8).sum ≤
      dylibs.length * 287 := by
    clear count
    induction dylibs with
    | nil => exact Nat.le_refl _
    | cons name rest induction =>
      rw [forall_mem_cons] at names_le
      have first := alignSize_eight_le (show 24 + (name.length + 1) ≤ 280 by omega)
      have others := induction names_le.2
      rw [map_cons, sum_cons, length_cons]
      omega
  rw [maxNeeded] at count
  have id_size := alignSize_eight_le (show 24 + (idName.length + 1) ≤ 280 by omega)
  have paths : (rpathStrs.map fun path => alignSize (12 + (path.length + 1)) 8).sum = 184 := by
    decide +kernel
  rw [sizeofcmds, paths]
  split <;> split <;> omega

variable {out : Buffer} {outSize fileoff filesize shift : UInt64}

/-- The converter writes `value` into the slot of an entry. -/
structure Prewrites (elf : Buffer) (dyn : DynamicInfo) (outSize fileoff filesize shift : UInt64)
    (rela : Elf64Rela) (value : UInt64) : Prop where
  computed : selfRelocValue elf dyn shift rela = some (some value)
  lower : fileoff ≤ rela.rOffset + shift
  upper : rela.rOffset + shift + 8 ≤ fileoff + filesize
  inside : rela.rOffset + shift + 8 ≤ outSize

def slotPlace (shift : UInt64) (rela : Elf64Rela) : Nat := (rela.rOffset + shift).toNat

variable {after : Buffer} {rela : Elf64Rela}

/-- One round either leaves the output alone or writes the value of the entry. -/
theorem applySelfRelocValue_cases
    (applied : applySelfRelocValue elf dyn outSize fileoff filesize shift out rela = some after) :
    (after = out ∧ ∀ value, ¬Prewrites elf dyn outSize fileoff filesize shift rela value) ∨
      ∃ value, Prewrites elf dyn outSize fileoff filesize shift rela value ∧
        after.size = out.size ∧ after.byte = out.byte.storeWord (slotPlace shift rela) value := by
  simp only [applySelfRelocValue, bind_eq_bind, bind_eq_some_iff] at applied
  obtain ⟨computed, value_eq, applied⟩ := applied
  cases computed with
  | none =>
    refine Or.inl ⟨(some.inj applied).symm, ?_⟩
    intro value writes
    rw [writes.computed] at value_eq
    cases value_eq
  | some value =>
    simp only at applied
    split at applied
    · rename_i below
      refine Or.inl ⟨(some.inj applied).symm, fun other writes => ?_⟩
      exact absurd writes.lower (UInt64.not_le.mpr below)
    rename_i lower
    split at applied
    · rename_i above
      refine Or.inl ⟨(some.inj applied).symm, fun other writes => ?_⟩
      exact absurd writes.upper (UInt64.not_le.mpr above)
    rename_i upper
    split at applied
    · rename_i outside
      refine Or.inl ⟨(some.inj applied).symm, fun other writes => ?_⟩
      exact absurd writes.inside (UInt64.not_le.mpr outside)
    · rename_i inside
      obtain ⟨_, size, byte⟩ := Buffer.write?_eq_some applied
      exact Or.inr ⟨value, ⟨value_eq, UInt64.not_lt.mp lower, UInt64.not_lt.mp upper,
        UInt64.not_lt.mp inside⟩, size, byte⟩

variable {relas : List Elf64Rela}

theorem foldlM_prewrite_untouched
    (applied : relas.foldlM (applySelfRelocValue elf dyn outSize fileoff filesize shift) out =
      some after) :
    after.size = out.size ∧ ∀ position,
      (∀ rela ∈ relas, ∀ value, Prewrites elf dyn outSize fileoff filesize shift rela value →
        position < slotPlace shift rela ∨ slotPlace shift rela + 8 ≤ position) →
      after.byte position = out.byte position := by
  induction relas generalizing out with
  | nil =>
    obtain rfl := some.inj applied
    exact ⟨rfl, fun _ _ => rfl⟩
  | cons rela rest induction =>
    simp only [foldlM_cons, bind_eq_bind, bind_eq_some_iff] at applied
    obtain ⟨_, first, others⟩ := applied
    obtain ⟨size, untouched⟩ := induction others
    rcases applySelfRelocValue_cases first with ⟨rfl, -⟩ | ⟨value, writes, first_size, first_byte⟩
    · refine ⟨size, fun position apart => untouched position ?_⟩
      exact fun other member => apart other (mem_cons_of_mem _ member)
    refine ⟨size.trans first_size, fun position apart => ?_⟩
    rw [untouched position fun other member => apart other (mem_cons_of_mem _ member), first_byte]
    rcases apart rela mem_cons_self value writes with below | above
    · exact Memory.store_of_lt _ below
    · exact Memory.store_of_le _ (by simpa using above)

theorem foldlM_prewrite_written {value : UInt64}
    (writes : Prewrites elf dyn outSize fileoff filesize shift rela value)
    (apart : ∀ other ∈ relas, other ≠ rela →
      slotPlace shift other + 8 ≤ slotPlace shift rela ∨
        slotPlace shift rela + 8 ≤ slotPlace shift other)
    (applied : relas.foldlM (applySelfRelocValue elf dyn outSize fileoff filesize shift) out =
      some after) (reached : rela ∈ relas ∨ out.byte.loadWord (slotPlace shift rela) = value) :
    after.byte.loadWord (slotPlace shift rela) = value := by
  induction relas generalizing out with
  | nil =>
    obtain rfl := some.inj applied
    simpa using reached
  | cons first rest induction =>
    simp only [foldlM_cons, bind_eq_bind, bind_eq_some_iff] at applied
    obtain ⟨middle, step, others⟩ := applied
    refine induction (fun other member => apart other (mem_cons_of_mem _ member)) others ?_
    by_cases same : first = rela
    · subst same
      refine Or.inr ?_
      rcases applySelfRelocValue_cases step with ⟨_, silent⟩ | ⟨other, other_writes, _, byte⟩
      · exact absurd writes (silent value)
      obtain rfl : other = value := by
        have equal := other_writes.computed.symm.trans writes.computed
        simpa using equal
      rw [byte, Memory.loadWord_storeWord_same]
    have kept : middle.byte.loadWord (slotPlace shift rela) =
        out.byte.loadWord (slotPlace shift rela) := by
      rcases applySelfRelocValue_cases step with ⟨rfl, _⟩ | ⟨_, _, _, byte⟩
      · rfl
      rw [byte, Memory.loadWord_storeWord_disjoint]
      have disjoint := apart first mem_cons_self same
      omega
    rw [kept]
    rcases reached with member | holds
    · rcases mem_cons.mp member with equal | member
      · exact absurd equal.symm same
      · exact Or.inl member
    · exact Or.inr holds

/-- The bytes of a segment are inside the ELF. -/
def InFile (elf : Buffer) (phdr : Elf64Phdr) : Prop :=
  phdr.pOffset.toNat + phdr.pFilesz.toNat ≤ elf.size
  deriving Decidable

/-- The byte that a carried segment contributes at a place of the output. -/
def carriedByte (elf : Buffer) (text phdr : Elf64Phdr) (position : Nat) : Option UInt8 :=
  if InFile elf phdr ∧ outStart text phdr ≤ position ∧
      position < outStart text phdr + phdr.pFilesz.toNat then
    some (elf.byte (phdr.pOffset.toNat + (position - outStart text phdr)))
  else
    none

/-- The output at a place that no relocation touches. -/
def plainByte (elf : Buffer) (text : Elf64Phdr) (data : Option Elf64Phdr) (position : Nat) :
    UInt8 :=
  ((data.bind fun segment => carriedByte elf text segment position).or
    (carriedByte elf text text position)).getD 0

theorem copySegment_byte {off : UInt64} {text phdr : Elf64Phdr}
    (start : off.toNat = outStart text phdr) (copied : copySegment elf out off phdr = some after) :
    after.size = out.size ∧ ∀ position,
      after.byte position = (carriedByte elf text phdr position).getD (out.byte position) := by
  rw [copySegment] at copied
  split at copied
  · simp only [Buffer.copy?] at copied
    split at copied
    · rename_i fits
      cases copied
      refine ⟨rfl, fun position => ?_⟩
      simp only [start, carriedByte, InFile, fits.2, true_and]
      split <;> rfl
    · cases copied
  rename_i outside
  have not_inFile : ¬InFile elf phdr := by
    intro inFile
    exact outside (Nat.le_trans (Nat.mod_le _ _) inFile)
  obtain rfl := some.inj copied
  refine ⟨rfl, fun position => ?_⟩
  rw [carriedByte, if_neg fun both => not_inFile both.1, getD_none]

variable {parsed : Parsed} {position : Nat}

section Segments

variable {total : UInt64} {copied : Buffer}

/-- Some pre-written value covers a place of the output. -/
def RewrittenAt (elf : Buffer) (parsed : Parsed) (position : Nat) : Prop :=
  ∃ dyn, parsed.dyn = some dyn ∧ ∃ rela ∈ dyn.relocations, ∃ value,
    selfRelocValue elf dyn (shiftOf parsed.text) rela = some (some value) ∧
      slotPlace (shiftOf parsed.text) rela ≤ position ∧
        position < slotPlace (shiftOf parsed.text) rela + 8

variable (facts : LayoutFacts parsed.text parsed.data layout)

include facts

theorem dataOff_eq {segment : Elf64Phdr}
    (addressable : segment.Addressable) (data : parsed.data = some segment) :
    (layout.dataSegFileoff + (layout.shift + segment.pVaddr - layout.dataSegVmaddr)).toNat =
      outStart parsed.text segment := by
  obtain ⟨fileoff, -⟩ := facts.withData segment data
  have shift_le := shiftOf_le parsed.text
  have ends := addressable.1
  rw [fileoff, UInt64.add_comm, UInt64.sub_add_cancel, facts.shift]
  exact toNat_add_small (by omega)

theorem textOff_eq (addressable : parsed.text.Addressable) :
    (layout.shift + parsed.text.pVaddr).toNat = outStart parsed.text parsed.text := by
  have shift_le := shiftOf_le parsed.text
  have ends := addressable.1
  rw [facts.shift]
  exact toNat_add_small (by omega)

/-- Away from the pre-written slots the output holds the carried bytes and zeros. -/
theorem writeSegments_byte (text_addressable : parsed.text.Addressable)
    (data_addressable : ∀ segment, parsed.data = some segment → segment.Addressable)
    (written : writeSegments elf parsed layout total = some copied)
    (untouched : position < layout.dataSegFileoff.toNat ∨ ¬RewrittenAt elf parsed position) :
    copied.byte position = plainByte elf parsed.text parsed.data position := by
  simp only [writeSegments, bind_eq_bind, bind_eq_some_iff] at written
  obtain ⟨_, text_copied, written⟩ := written
  obtain ⟨_, text_byte⟩ := copySegment_byte (textOff_eq facts text_addressable) text_copied
  cases data : parsed.data with
  | none =>
    rw [data] at written
    obtain rfl := some.inj written
    rw [text_byte]
    rfl
  | some segment =>
    simp only [data, bind_eq_some_iff] at written
    obtain ⟨full, data_copied, written⟩ := written
    obtain ⟨_, data_byte⟩ := copySegment_byte
      (dataOff_eq facts (data_addressable segment data) data) data_copied
    have full_byte : full.byte position = plainByte elf parsed.text (some segment) position := by
      rw [data_byte, text_byte, plainByte, bind_some]
      cases carriedByte elf parsed.text segment position <;> rfl
    rw [← full_byte]
    cases dynamic : parsed.dyn with
    | none =>
      rw [dynamic] at written
      obtain rfl := some.inj written
      rfl
    | some dyn =>
      rw [dynamic] at written
      refine (foldlM_prewrite_untouched written).2 position ?_
      intro rela member value writes
      rcases untouched with below | silent
      · have lower := writes.lower
        exact Or.inl (Nat.lt_of_lt_of_le below lower)
      by_contra inside
      rw [facts.shift] at writes inside
      exact silent ⟨dyn, dynamic, rela, member, value, writes.computed, by omega, by omega⟩

end Segments

variable {buffer : Buffer} {bytes : List UInt8}

theorem write?_byte_of_lt (written : buffer.write? offset bytes = some after)
    (below : position < offset) :
    after.byte position = buffer.byte position := by
  obtain ⟨_, _, byte⟩ := Buffer.write?_eq_some written
  rw [byte]
  exact Memory.store_of_lt _ below

theorem write?_byte_of_le (written : buffer.write? offset bytes = some after)
    (above : offset + bytes.length ≤ position) : after.byte position = buffer.byte position := by
  obtain ⟨_, _, byte⟩ := Buffer.write?_eq_some written
  rw [byte]
  exact Memory.store_of_le _ above

theorem strtabOff_lt_size (linkedit : Linkedit) (sb : SymtabBuilder) :
    linkedit.strtabOff sb < linkedit.size sb := by
  have strtab_pos : 0 < Linkedit.strtabSize sb := by
    rw [Linkedit.strtabSize]
    split <;> omega
  have rounded := le_alignSize (linkedit.strtabOff sb + Linkedit.strtabSize sb)
    (show 0 < 16 by decide)
  rw [Linkedit.size]
  omega

variable {linkedit : Linkedit}

theorem writeLinkedit_byte (small : layout.linkeditOff.toNat + linkedit.size parsed.sb ≤ 2 ^ 32)
    (written : writeLinkedit parsed layout linkedit out = some after)
    (below : position < layout.linkeditOff.toNat) :
    after.byte position = out.byte position := by
  have strtab_lt := strtabOff_lt_size linkedit parsed.sb
  have behind : ∀ off ≤ linkedit.strtabOff parsed.sb, position < absOff layout off := by
    intro off le
    rw [absOff, Nat.mod_eq_of_lt (by omega)]
    omega
  have symtab_le : linkedit.symtabOff ≤ linkedit.strtabOff parsed.sb := Nat.le_add_right _ _
  have export_le : linkedit.exportOff ≤ linkedit.symtabOff := Nat.le_add_right _ _
  have bind_le : linkedit.bindOff ≤ linkedit.exportOff := Nat.le_add_right _ _
  simp only [writeLinkedit, bind_eq_bind, bind_eq_some_iff] at written
  obtain ⟨_, rebases, _, binds, _, exports, _, symbols, strings⟩ := written
  rw [write?_byte_of_lt strings (behind _ (Nat.le_refl _)),
    write?_byte_of_lt symbols (behind _ symtab_le),
    write?_byte_of_lt exports (behind _ (Nat.le_trans export_le symtab_le)),
    write?_byte_of_lt binds (behind _ (Nat.le_trans bind_le (Nat.le_trans export_le symtab_le))),
    write?_byte_of_lt rebases (behind _ (Nat.zero_le _))]

/-- Between the first page and `__LINKEDIT` the file holds the segments. -/
theorem file_byte {path : CString} {platform : UInt32} {dylib : Dylib}
    (stages : Converted path platform elf parsed layout linkedit dylib)
    (small : layout.linkeditOff.toNat + linkedit.size parsed.sb ≤ 2 ^ 32) :
    ∃ copied, writeSegments elf parsed layout (totalSz parsed layout linkedit) = some copied ∧
      ∀ position, 0x4000 ≤ position → position < layout.linkeditOff.toNat →
        dylib.file.byte position = copied.byte position := by
  obtain ⟨names, ⟨written⟩, _⟩ := emit_eq_some stages.emitted
  have parsedFrom := parseElf_eq_ok stages.parse
  obtain ⟨count, names_le⟩ := loadDylibNames_bounds parsedFrom.dynamic names
  have header := length_commands path platform parsed layout linkedit dylib.dylibs
  have fits := sizeofcmds_le parsed.data.isSome (length_dylibName_le (baseName path)) count names_le
  refine ⟨written.copied, written.segments, fun position page below => ?_⟩
  rw [write?_byte_of_le written.commands (by omega), writeLinkedit_byte small written.tables below,
    write?_byte_of_le written.header (by omega)]

end AlpineOnIOS.Elf2macho
