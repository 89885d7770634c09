import AlpineOnIOS.Foundation.Align
import AlpineOnIOS.Foundation.Memory
import AlpineOnIOS.Foundation.Uleb

/-!
# ELF records and Mach-O number encodings of `elf2macho`

The ELF records keep the fields that the converter reads, at their source widths.  Reading a record
outside the loaded file is `none`; the C program would read outside its buffer there.
-/

namespace AlpineOnIOS.Elf2macho

open Foundation

def elfClass64 : UInt8 := 2
def emAarch64 : UInt16 := 183
def etDyn : UInt16 := 3
def ptLoad : UInt32 := 1
def ptDynamic : UInt32 := 2
def pfX : UInt32 := 1
def pfW : UInt32 := 2

def rAarch64Abs64 : UInt32 := 257
def rAarch64GlobDat : UInt32 := 1025
def rAarch64JumpSlot : UInt32 := 1026
def rAarch64Relative : UInt32 := 1027

def stbGlobal : UInt8 := 1
def stbWeak : UInt8 := 2
def sttFunc : UInt8 := 2
def sttSection : UInt8 := 3
def sttFile : UInt8 := 4

/-- `PAGE_SZ`: the 16K page of arm64 iOS. -/
def pageSz : UInt64 := 0x4000

/-- The fields of `Elf64_Ehdr` that are read. -/
structure Elf64Ehdr where
  eIdent : List UInt8
  eType : UInt16
  eMachine : UInt16
  eEntry : UInt64
  ePhoff : UInt64
  ePhnum : UInt16

/-- The fields of `Elf64_Phdr` that are read. -/
structure Elf64Phdr where
  pType : UInt32
  pFlags : UInt32
  pOffset : UInt64
  pVaddr : UInt64
  pFilesz : UInt64
  pMemsz : UInt64
  deriving DecidableEq

structure Elf64Dyn where
  dTag : UInt64
  dVal : UInt64

/-- `Elf64_Rela`; the signed addend is kept as its 64-bit pattern. -/
structure Elf64Rela where
  rOffset : UInt64
  rInfo : UInt64
  rAddend : UInt64
  deriving DecidableEq

/-- The fields of `Elf64_Sym` that are read. -/
structure Elf64Sym where
  stName : UInt32
  stInfo : UInt8
  stShndx : UInt16
  stValue : UInt64
  deriving DecidableEq

variable (rela : Elf64Rela)

def Elf64Rela.rSym : Nat := (rela.rInfo >>> 32).toNat

def Elf64Rela.rType : UInt32 := rela.rInfo.toUInt32

variable (sym : Elf64Sym)

def Elf64Sym.stBind : UInt8 := sym.stInfo >>> 4

def Elf64Sym.stType : UInt8 := sym.stInfo &&& 0xf

variable (elf : Buffer) (offset : Nat)

def readU16 : Option UInt16 :=
  (elf.word? 2 offset).map UInt16.ofNat

def readU32 : Option UInt32 :=
  (elf.word? 4 offset).map UInt32.ofNat

def readU64 : Option UInt64 :=
  (elf.word? 8 offset).map UInt64.ofNat

def readEhdr : Option Elf64Ehdr := do
  let eType ← readU16 elf 16
  let eMachine ← readU16 elf 18
  let eEntry ← readU64 elf 24
  let ePhoff ← readU64 elf 32
  let ePhnum ← readU16 elf 56
  return { eIdent := elf.byte.load 0 16, eType, eMachine, eEntry, ePhoff, ePhnum }

def readPhdr : Option Elf64Phdr := do
  let pType ← readU32 elf offset
  let pFlags ← readU32 elf (offset + 4)
  let pOffset ← readU64 elf (offset + 8)
  let pVaddr ← readU64 elf (offset + 16)
  let pFilesz ← readU64 elf (offset + 32)
  let pMemsz ← readU64 elf (offset + 40)
  return { pType, pFlags, pOffset, pVaddr, pFilesz, pMemsz }

def readDyn : Option Elf64Dyn := do
  let dTag ← readU64 elf offset
  let dVal ← readU64 elf (offset + 8)
  return { dTag, dVal }

def readRela : Option Elf64Rela := do
  let rOffset ← readU64 elf offset
  let rInfo ← readU64 elf (offset + 8)
  let rAddend ← readU64 elf (offset + 16)
  return { rOffset, rInfo, rAddend }

def readSym : Option Elf64Sym := do
  let stName ← readU32 elf offset
  let stInfo ← (elf.word? 1 (offset + 4)).map UInt8.ofNat
  let stShndx ← readU16 elf (offset + 6)
  let stValue ← readU64 elf (offset + 8)
  return { stName, stInfo, stShndx, stValue }

/-- The loop of `write_uleb`; a round shifts seven bits out, so `fuel = v` rounds are enough. -/
def writeUlebLoop : Nat → Nat → List UInt8
  | 0, v => [UInt8.ofNat (v &&& 0x7f)]
  | fuel + 1, v =>
    if v >>> 7 ≠ 0 then
      (UInt8.ofNat (v &&& 0x7f) ||| 0x80) :: writeUlebLoop fuel (v >>> 7)
    else
      [UInt8.ofNat (v &&& 0x7f)]

variable (v : Nat)

/-- `write_uleb`: the bytes written for a value. -/
def writeUleb : List UInt8 := writeUlebLoop v v

def ulebSizeLoop : Nat → Nat → Nat
  | 0, _ => 1
  | fuel + 1, v => if v >>> 7 ≠ 0 then 1 + ulebSizeLoop fuel (v >>> 7) else 1

/-- `uleb_size`: the number of bytes written for a value. -/
def ulebSize : Nat := ulebSizeLoop v v

theorem continued_digit (digit : Nat) (small : digit < 128) :
    UInt8.ofNat digit ||| 0x80 = UInt8.ofNat (digit + 128) := by
  have table : ∀ index : Fin 128,
      UInt8.ofNat index.val ||| 0x80 = UInt8.ofNat (index.val + 128) := by decide
  exact table ⟨digit, small⟩

theorem writeUlebLoop_eq (fuel v : Nat) : writeUlebLoop fuel v = Uleb.encodeFuel fuel v := by
  have low : ∀ v : Nat, v &&& 0x7f = v % 128 := fun v => Nat.and_two_pow_sub_one_eq_mod v 7
  have high : ∀ v : Nat, v >>> 7 = v / 128 := fun v => Nat.shiftRight_eq_div_pow v 7
  induction fuel generalizing v with
  | zero => simp only [writeUlebLoop, Uleb.encodeFuel, low]
  | succ fuel induction =>
    simp only [writeUlebLoop, Uleb.encodeFuel, low, high, induction,
      continued_digit (v % 128) (by omega)]
    by_cases last : v / 128 = 0
    · simp [last]
    · simp [last]

theorem writeUleb_eq : writeUleb v = Uleb.encode v := writeUlebLoop_eq v v

theorem ulebSizeLoop_eq (fuel v : Nat) : ulebSizeLoop fuel v = (writeUlebLoop fuel v).length := by
  induction fuel generalizing v with
  | zero => rfl
  | succ fuel induction =>
    simp only [ulebSizeLoop, writeUlebLoop, induction]
    split <;> simp [Nat.add_comm]

theorem ulebSize_eq : ulebSize v = Uleb.size v := by
  rw [ulebSize, ulebSizeLoop_eq, writeUlebLoop_eq, Uleb.size, Uleb.encode]

/-- A little-endian number of `width` bytes at an offset of a file. -/
structure Part where
  offset : Nat
  width : Nat
  value : Nat

/-- A file of `size` bytes with the given parts, zero elsewhere. -/
def elfFile (size : Nat) (parts : List Part) : Buffer :=
  { size
    byte := fun position =>
      match parts.find? fun part =>
          decide (part.offset ≤ position) && decide (position < part.offset + part.width) with
      | none => 0
      | some part => UInt8.ofNat (part.value / 256 ^ (position - part.offset) % 256) }

/-- Join fields, given with their widths in bytes, to one number. -/
def joinFields : List (Nat × Nat) → Nat
  | [] => 0
  | (width, value) :: rest => value + 256 ^ width * joinFields rest

/-- A file header for an AArch64 shared object with its program headers right behind it. -/
def ehdrPart (phnum : Nat) : Part :=
  { offset := 0
    width := 64
    value := joinFields [(4, 0x464c457f), (4, 0x010102), (8, 0), (2, 3), (2, 183), (4, 1),
      (8, 0x200), (8, 64), (8, 0), (4, 0), (2, 64), (2, 56), (2, phnum)] }

def Elf64Phdr.part (phdr : Elf64Phdr) (offset : Nat) : Part :=
  { offset
    width := 56
    value := joinFields [(4, phdr.pType.toNat), (4, phdr.pFlags.toNat), (8, phdr.pOffset.toNat),
      (8, phdr.pVaddr.toNat), (8, phdr.pVaddr.toNat), (8, phdr.pFilesz.toNat),
      (8, phdr.pMemsz.toNat), (8, 0x4000)] }

def dynPart (entries : List (Nat × Nat)) : Part :=
  { offset
    width := 16 * entries.length + 16
    value := joinFields (entries.flatMap fun entry => [(8, entry.1), (8, entry.2)]) }

def Elf64Rela.part (offset : Nat) : Part :=
  { offset
    width := 24
    value := joinFields [(8, rela.rOffset.toNat), (8, rela.rInfo.toNat), (8, rela.rAddend.toNat)] }

def Elf64Sym.part (offset : Nat) : Part :=
  { offset
    width := 24
    value := joinFields [(4, sym.stName.toNat), (1, sym.stInfo.toNat), (1, 0),
      (2, sym.stShndx.toNat), (8, sym.stValue.toNat), (8, 0)] }

/-- Records of equal width one behind the other. -/
def tableParts {α : Type} (part : α → Nat → Part) (width : Nat) : Nat → List α → List Part
  | _, [] => []
  | offset, record :: rest => part record offset :: tableParts part width (offset + width) rest

/-- A file that starts with its header and its program headers. -/
def elfWithSegments (size : Nat) (phdrs : List Elf64Phdr) (parts : List Part) : Buffer :=
  elfFile size (ehdrPart phdrs.length :: tableParts Elf64Phdr.part 56 64 phdrs ++ parts)

end AlpineOnIOS.Elf2macho
