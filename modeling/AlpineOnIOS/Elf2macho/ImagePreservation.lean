import AlpineOnIOS.Elf2macho.SegmentRanges

/-!
# The ELF image behind the Mach-O file

The loader maps the segments of the Mach-O file, and `elf_load` reads the ELF image at a base for
which it looks for the executable segment itself. Every byte of a carried segment is found there,
unless a relocation rewrites it.
-/

namespace AlpineOnIOS.Emu

open Foundation Elf2macho

def iosPage : UInt64 := 0x4000

/-- The test of the search loop for the executable segment. -/
def isExecutable (phdr : Elf64Phdr) : Bool := phdr.pType = ptLoad && phdr.pFlags &&& pfX ≠ 0

variable (phdrs : List Elf64Phdr)

/-- `tvp`: the page of the first executable segment, zero if there is none. -/
def textPage : UInt64 :=
  (phdrs.find? isExecutable).elim 0 fun phdr => alignDown phdr.pVaddr iosPage

/-- `shift` of `elf_load`. -/
def aotShift : UInt64 := if textPage phdrs = 0 then iosPage else 0

/-- `base` of `elf_load` for an image that the loader placed at `imgAddr`. -/
def aotBase (imgAddr : Nat) (phdrs : List Elf64Phdr) : Nat := imgAddr + (aotShift phdrs).toNat

theorem foldl_step_text (selection : Selection) :
    (phdrs.foldl Selection.step selection).text = selection.text.or (phdrs.find? isExecutable) := by
  induction phdrs generalizing selection with
  | nil => simp
  | cons phdr rest induction =>
    have stepped : (selection.step phdr).text =
        selection.text.or (if isExecutable phdr then some phdr else none) := by
      obtain ⟨text, _⟩ := selection
      rw [Selection.step, isExecutable]
      by_cases load : phdr.pType = ptLoad
      · cases text with
        | none =>
          by_cases executable : phdr.pFlags &&& pfX = 0
          · simp only [load, executable, ne_eq, not_true_eq_false, false_and, if_false]
            split <;> simp
          · simp [load, executable]
        | some =>
          simp only [load, ne_eq, not_true_eq_false, if_false, reduceCtorEq, and_false]
          split <;> simp
      · simp [load]
    rw [List.foldl_cons, induction, stepped, List.find?_cons]
    cases isExecutable phdr <;> cases selection.text <;> simp

theorem aotShift_eq {phdrs : List Elf64Phdr} {text : Elf64Phdr}
    (selected : (selectSegments phdrs).text = some text) : aotShift phdrs = shiftOf text := by
  rw [selectSegments, foldl_step_text] at selected
  have found : phdrs.find? isExecutable = some text := by simpa using selected
  rw [aotShift, textPage, found]
  rfl

end AlpineOnIOS.Emu

namespace AlpineOnIOS.Elf2macho

open Foundation Option Dyld

/-- Every byte of every `PT_LOAD` segment is found at the base of `elf_load`. -/
def ImagePreserved (imgAddr : Nat) (elf : Buffer) (parsed : Parsed) (dylib : Dylib) : Prop :=
  ∀ phdr ∈ parsed.phdrs, phdr.pType = ptLoad →
    (∀ index < phdr.pFilesz.toNat,
      ¬RewrittenAt elf parsed ((Emu.aotShift parsed.phdrs).toNat + phdr.pVaddr.toNat + index) →
        Dyld.loadedByte imgAddr dylib.ranges dylib.file
          (Emu.aotBase imgAddr parsed.phdrs + phdr.pVaddr.toNat + index) =
            some (elf.byte (phdr.pOffset.toNat + index))) ∧
      ∀ index, phdr.pFilesz.toNat ≤ index → index < phdr.pMemsz.toNat →
        Dyld.loadedByte imgAddr dylib.ranges dylib.file
          (Emu.aotBase imgAddr parsed.phdrs + phdr.pVaddr.toNat + index) = some 0

/-- A `PT_LOAD` entry whose file bytes are in the file and whose memory holds them. -/
structure WellFormedLoad (elf : Buffer) (phdr : Elf64Phdr) : Prop where
  inFile : InFile elf phdr
  fileInMemory : phdr.pFilesz.toNat ≤ phdr.pMemsz.toNat
  addressable : phdr.Addressable

/-- The two segments that the converter carries over are all that have memory. -/
def AllCarried (parsed : Parsed) : Prop :=
  ∀ phdr ∈ parsed.phdrs, phdr.pType = ptLoad → 0 < phdr.pMemsz.toNat →
    phdr = parsed.text ∨ parsed.data = some phdr

/-- No relocation that the converter rewrites lies in memory without file bytes. -/
def ZerosKept (elf : Buffer) (parsed : Parsed) : Prop :=
  ∀ phdr ∈ parsed.phdrs, phdr.pType = ptLoad →
    ∀ index, phdr.pFilesz.toNat ≤ index → index < phdr.pMemsz.toNat →
      ¬RewrittenAt elf parsed (outStart parsed.text phdr + index)

variable {phdrs : List Elf64Phdr}

theorem foldl_step_member (loads : Elf64Phdr → Prop) {selection : Selection}
    (start : ∀ phdr, selection.text = some phdr ∨ selection.data = some phdr → loads phdr)
    (each : ∀ phdr ∈ phdrs, phdr.pType = ptLoad → loads phdr) :
    ∀ phdr, (phdrs.foldl Selection.step selection).text = some phdr ∨
      (phdrs.foldl Selection.step selection).data = some phdr → loads phdr := by
  induction phdrs generalizing selection with
  | nil => exact start
  | cons phdr rest induction =>
    rw [List.forall_mem_cons] at each
    rw [List.foldl_cons]
    refine induction ?_ each.2
    intro other selected
    rw [Selection.step] at selected
    split at selected
    · exact start other selected
    rename_i load
    have this_loads := each.1 (not_not.mp load)
    split at selected
    · rcases selected with text | data
      · exact some.inj text ▸ this_loads
      · exact start other (Or.inr data)
    split at selected
    · rcases selected with text | data
      · exact start other (Or.inl text)
      · exact some.inj data ▸ this_loads
    · exact start other selected

variable {phdr : Elf64Phdr}

theorem selected_load (selected : (selectSegments phdrs).text = some phdr ∨
      (selectSegments phdrs).data = some phdr) : phdr ∈ phdrs ∧ phdr.pType = ptLoad := by
  refine foldl_step_member (fun phdr => phdr ∈ phdrs ∧ phdr.pType = ptLoad) ?_ ?_ phdr selected
  · intro other none
    simp at none
  · exact fun other member load => ⟨member, load⟩

variable {elf : Buffer} {path : CString} {platform : UInt32} {parsed : Parsed} {layout : Layout}
  {linkedit : Linkedit} {dylib : Dylib} {index : Nat}

theorem lt_roundUp (start : Nat) {size : Nat} (inside : index < size) :
    start + index < roundUp (start + size) := by
  rw [roundUp]
  omega

theorem le_roundUp (value : Nat) : value ≤ roundUp value := by
  rw [roundUp]
  omega

theorem roundDown_le (value : Nat) : roundDown value ≤ value := by
  rw [roundDown]
  omega

/-- What the image theorems need to know about a conversion. -/
structure ImageFacts (path : CString) (platform : UInt32) (elf : Buffer) (parsed : Parsed)
    (layout : Layout) (linkedit : Linkedit) (dylib : Dylib) : Prop where
  stages : Converted path platform elf parsed layout linkedit dylib
  plan : LayoutFacts parsed.text parsed.data layout
  text : WellFormedLoad elf parsed.text
  data : ∀ segment, parsed.data = some segment → WellFormedLoad elf segment
  small : layout.linkeditOff.toNat + linkedit.size parsed.sb ≤ 2 ^ 32
  fits : SegmentsFit parsed.text parsed.data

namespace ImageFacts

variable (facts : ImageFacts path platform elf parsed layout linkedit dylib)

include facts

theorem textFile_le : layout.textSegFilesize.toNat ≤ layout.dataSegFileoff.toNat := by
  cases data : parsed.data with
  | none =>
    rw [(facts.plan.noData data).1]
  | some segment =>
    obtain ⟨fileoff, _, behind, _⟩ := facts.plan.withData segment data
    rw [fileoff]
    exact behind

theorem fileoff_le : layout.dataSegFileoff.toNat ≤ layout.linkeditOff.toNat := by
  rw [facts.plan.linkedit]
  exact Nat.le_add_right _ _

/-- An address of a segment whose file offset is its address shows the file at that place. -/
theorem mapped {segment : Dyld.Segment} (member : segment ∈ dylib.ranges)
    (identity : segment.fileoff = segment.vmaddr) {address : Nat}
    (covers : segment.Covers address) :
    mapImage dylib.ranges dylib.file address =
      some (if address < segment.vmaddr + segment.filesize then dylib.file.byte address else 0) := by
  have disjoint : RangesDisjoint dylib.ranges := by
    rw [ranges_eq facts.stages]
    exact (segmentCommands_disjoint_iff facts.plan).mpr facts.fits
  have start := covers.1
  rw [mapImage_of_disjoint (disjoint.imp fun pair => pair.1) member covers,
    Dyld.Segment.byteAt, identity, Nat.add_sub_cancel' start]
  congr 1
  exact if_congr (by omega) rfl rfl

variable {position : Nat}

theorem plain (page : 0x4000 ≤ position) (below : position < layout.linkeditOff.toNat)
    (untouched : position < layout.dataSegFileoff.toNat ∨ ¬RewrittenAt elf parsed position) :
    dylib.file.byte position = plainByte elf parsed.text parsed.data position := by
  obtain ⟨_, written, same⟩ := file_byte facts.stages facts.small
  rw [same position page below]
  exact writeSegments_byte facts.plan facts.text.addressable
    (fun segment data => (facts.data segment data).addressable) written untouched

theorem textByte_none (behind : layout.textSegFilesize.toNat ≤ position) :
    carriedByte elf parsed.text parsed.text position = none := by
  have ends := le_roundUp (outStart parsed.text parsed.text + parsed.text.pFilesz.toNat)
  rw [← facts.plan.textFile] at ends
  rw [carriedByte, if_neg (by omega)]

theorem dataByte_none (below : position < layout.dataSegFileoff.toNat) :
    (parsed.data.bind fun segment => carriedByte elf parsed.text segment position) = none := by
  cases data : parsed.data with
  | none => rfl
  | some segment =>
    obtain ⟨fileoff, page, _⟩ := facts.plan.withData segment data
    have start := roundDown_le (outStart parsed.text segment)
    rw [← page, ← fileoff] at start
    rw [bind_some, carriedByte, if_neg (by omega)]

theorem text_image (inside : index < parsed.text.pMemsz.toNat) :
    mapImage dylib.ranges dylib.file (outStart parsed.text parsed.text + index) =
      some ((carriedByte elf parsed.text parsed.text
        (outStart parsed.text parsed.text + index)).getD 0) := by
  have first_page := page_le_outStart parsed.text
  have memory := lt_roundUp (outStart parsed.text parsed.text) inside
  have covered : outStart parsed.text parsed.text + index < layout.textSegVmsize.toNat := by
    rw [facts.plan.textMemory]
    exact Nat.lt_of_lt_of_le memory (Nat.le_max_left _ _)
  have member : (textCommand parsed.text layout).range ∈ dylib.ranges := by
    simp [ranges_eq facts.stages, segmentCommands]
  rw [facts.mapped member rfl ⟨Nat.zero_le _, by simpa [SegmentCommand.range, textCommand]⟩]
  simp only [SegmentCommand.range, textCommand, Nat.zero_add]
  split
  · rename_i in_file
    have before_data := Nat.lt_of_lt_of_le in_file facts.textFile_le
    rw [facts.plain (by omega) (Nat.lt_of_lt_of_le before_data facts.fileoff_le)
      (Or.inl before_data), plainByte, facts.dataByte_none before_data, none_or]
  · rename_i behind
    rw [facts.textByte_none (Nat.le_of_not_lt behind), getD_none]

theorem data_image {segment : Elf64Phdr} (data : parsed.data = some segment)
    (inside : index < segment.pMemsz.toNat)
    (untouched : ¬RewrittenAt elf parsed (outStart parsed.text segment + index)) :
    mapImage dylib.ranges dylib.file (outStart parsed.text segment + index) =
      some ((carriedByte elf parsed.text segment
        (outStart parsed.text segment + index)).getD 0) := by
  obtain ⟨fileoff, page, _, file_end, memory_end⟩ := facts.plan.withData segment data
  have start := roundDown_le (outStart parsed.text segment)
  have memory := lt_roundUp (outStart parsed.text segment) inside
  have fits := facts.fits
  rw [data, SegmentsFit] at fits
  have linkedit := facts.plan.linkedit
  rw [fileoff, file_end] at linkedit
  have first_page := page_le_outStart parsed.text
  have text_end := le_roundUp (outStart parsed.text parsed.text + parsed.text.pFilesz.toNat)
  rw [← facts.plan.textFile] at text_end
  have member : (dataCommand layout segment).range ∈ dylib.ranges := by
    simp [ranges_eq facts.stages, segmentCommands, data]
  have covered : outStart parsed.text segment + index <
      layout.dataSegVmaddr.toNat + layout.dataSegVmsize.toNat := by
    rw [memory_end]
    exact Nat.lt_of_lt_of_le memory (Nat.le_max_left _ _)
  rw [← page] at start
  have identity : (dataCommand layout segment).range.fileoff =
      (dataCommand layout segment).range.vmaddr := by
    simp [SegmentCommand.range, dataCommand, fileoff]
  rw [facts.mapped member identity ⟨Nat.le_trans start (Nat.le_add_right _ _), covered⟩]
  have in_file : outStart parsed.text segment + index <
      (dataCommand layout segment).range.vmaddr + (dataCommand layout segment).range.filesize := by
    simp only [SegmentCommand.range, dataCommand, file_end]
    exact Nat.lt_of_lt_of_le memory fits.2
  have before_linkedit : outStart parsed.text segment + index < layout.linkeditOff.toNat := by
    rw [linkedit]
    exact Nat.lt_of_lt_of_le memory fits.2
  rw [if_pos in_file, facts.plain (by omega) before_linkedit (Or.inr untouched), plainByte, data,
    bind_some, facts.textByte_none (by omega), or_none]

end ImageFacts

/-- Inside its file part a carried segment contributes its file bytes, behind it nothing. -/
theorem carriedByte_outStart (inFile : InFile elf phdr) (text : Elf64Phdr) (index : Nat) :
    carriedByte elf text phdr (outStart text phdr + index) =
      if index < phdr.pFilesz.toNat then some (elf.byte (phdr.pOffset.toNat + index)) else none := by
  rw [carriedByte, Nat.add_sub_cancel_left]
  refine if_congr ⟨fun both => by omega, fun inside => ⟨inFile, by omega, by omega⟩⟩ rfl rfl

/-- Code, read-only data and data, each in its own page. -/
def threeSegments : List Elf64Phdr :=
  [{ pType := ptLoad, pFlags := 5, pOffset := 0, pVaddr := 0, pFilesz := 0x400, pMemsz := 0x400 },
    { pType := ptLoad, pFlags := 4, pOffset := 0x400, pVaddr := 0x4400, pFilesz := 0x10,
      pMemsz := 0x10 },
    { pType := ptLoad, pFlags := 6, pOffset := 0x410, pVaddr := 0x8410, pFilesz := 0x10,
      pMemsz := 0x10 }]

end AlpineOnIOS.Elf2macho
