import AlpineOnIOS.Foundation.Memory
import AlpineOnIOS.Foundation.Uleb

/-!
# Mapping and fixing up an image as the dynamic loader does it

Segments are mapped in order, file bytes first and zeros up to the memory size. The rebase stream
then adds the slide to pointers, and the bind stream stores the addresses of imported symbols.
-/

namespace AlpineOnIOS.Dyld

open Foundation

/-- The ranges of a segment command. -/
structure Segment where
  vmaddr : Nat
  vmsize : Nat
  fileoff : Nat
  filesize : Nat
  deriving DecidableEq

namespace Segment

variable (segment : Segment)

def Covers (address : Nat) : Prop :=
  segment.vmaddr ≤ address ∧ address < segment.vmaddr + segment.vmsize
  deriving Decidable

def CoversFile (position : Nat) : Prop :=
  segment.fileoff ≤ position ∧ position < segment.fileoff + segment.filesize
  deriving Decidable

/-- The byte that a segment maps at one of its addresses. -/
def byteAt (file : Buffer) (address : Nat) : UInt8 :=
  if address - segment.vmaddr < segment.filesize then
    file.byte (segment.fileoff + (address - segment.vmaddr))
  else
    0

end Segment

/-- The mapped image; a later segment replaces what an earlier one mapped. -/
def mapImage (segments : List Segment) (file : Buffer) (address : Nat) : Option UInt8 :=
  segments.foldl
    (fun mapped segment =>
      if segment.Covers address then some (segment.byteAt file address) else mapped) none

variable {segments : List Segment} {file : Buffer} {address : Nat}

theorem foldl_map_of_uncovered (uncovered : ∀ segment ∈ segments, ¬segment.Covers address)
    (mapped : Option UInt8) :
    segments.foldl
      (fun mapped segment =>
        if segment.Covers address then some (segment.byteAt file address) else mapped) mapped =
      mapped := by
  induction segments with
  | nil => rfl
  | cons segment rest induction =>
    rw [List.forall_mem_cons] at uncovered
    rw [List.foldl_cons, if_neg uncovered.1]
    exact induction uncovered.2

/-- In an image of disjoint segments every address shows the byte of its own segment. -/
theorem mapImage_of_disjoint {segment : Segment} (disjoint : segments.Pairwise fun left right =>
      ∀ address, ¬(left.Covers address ∧ right.Covers address)) (member : segment ∈ segments)
    (covers : segment.Covers address) :
    mapImage segments file address = some (segment.byteAt file address) := by
  rw [mapImage]
  generalize (none : Option UInt8) = mapped
  induction segments generalizing mapped with
  | nil => cases member
  | cons first rest induction =>
    rw [List.pairwise_cons] at disjoint
    rw [List.foldl_cons]
    rcases List.mem_cons.mp member with rfl | member
    · rw [if_pos covers]
      exact foldl_map_of_uncovered
        (fun other inside both => disjoint.1 other inside address ⟨covers, both⟩) _
    · exact induction disjoint.2 member _

/-- The image at an absolute address, once it is loaded at `imageBase`. -/
def loadedByte (imageBase : Nat) (segments : List Segment) (file : Buffer) (address : Nat) :
    Option UInt8 :=
  if imageBase ≤ address then mapImage segments file (address - imageBase) else none

/-- A place in a segment. -/
structure Slot where
  segment : Nat
  offset : Nat
  deriving DecidableEq

/-- The slots of `times` consecutive pointers. -/
def Slot.run (slot : Slot) (times : Nat) : List Slot :=
  (List.range times).map fun index => { slot with offset := slot.offset + 8 * index }

/-- The slots that a rebase stream visits; an opcode that is never written ends the walk. -/
def rebaseSlots : Nat → Slot → List UInt8 → List Slot
  | 0, _, _ => []
  | _, _, [] => []
  | fuel + 1, cursor, byte :: rest =>
    let immediate := (byte &&& 0x0f).toNat
    match (byte &&& 0xf0).toNat with
    | 0x10 => rebaseSlots fuel cursor rest
    | 0x20 =>
      match Uleb.decode rest with
      | none => []
      | some (offset, rest) => rebaseSlots fuel { segment := immediate, offset } rest
    | 0x30 =>
      match Uleb.decode rest with
      | none => []
      | some (skip, rest) =>
        rebaseSlots fuel { cursor with offset := cursor.offset + skip } rest
    | 0x50 =>
      cursor.run immediate ++
        rebaseSlots fuel { cursor with offset := cursor.offset + 8 * immediate } rest
    | 0x60 =>
      match Uleb.decode rest with
      | none => []
      | some (times, rest) =>
        cursor.run times ++
          rebaseSlots fuel { cursor with offset := cursor.offset + 8 * times } rest
    | _ => []

variable (stream : List UInt8)

def decodeRebases : List Slot :=
  rebaseSlots stream.length { segment := 0, offset := 0 } stream

/-- The registers of the bind machine. -/
structure BindState where
  ordinal : Nat := 0
  symbol : CString := []
  weakImport : Bool := false
  slot : Slot := { segment := 0, offset := 0 }
  addend : UInt64 := 0

/-- A bind that the stream asks for. -/
structure Bind where
  ordinal : Nat
  symbol : CString
  weakImport : Bool
  slot : Slot
  addend : UInt64
  deriving DecidableEq

/-- Read a signed LEB128 number as a 64-bit pattern. -/
def decodeSleb (place : Nat) : List UInt8 → Option (UInt64 × List UInt8)
  | [] => none
  | byte :: rest =>
    let digit := UInt64.ofNat ((byte &&& 0x7f).toNat * place)
    if byte &&& 0x80 ≠ 0 then
      (decodeSleb (place * 128) rest).map fun parsed => (digit + parsed.1, parsed.2)
    else if byte &&& 0x40 ≠ 0 then
      some (digit - UInt64.ofNat (place * 128), rest)
    else
      some (digit, rest)

/-- The binds that a stream asks for, from a state of the registers on. -/
def bindRecords : Nat → BindState → List UInt8 → List Bind
  | 0, _, _ => []
  | _, _, [] => []
  | fuel + 1, state, byte :: rest =>
    let immediate := (byte &&& 0x0f).toNat
    match (byte &&& 0xf0).toNat with
    | 0x10 => bindRecords fuel { state with ordinal := immediate } rest
    | 0x40 =>
      match CString.parse rest with
      | none => []
      | some (symbol, rest) =>
        bindRecords fuel { state with symbol, weakImport := immediate % 2 = 1 } rest
    | 0x50 => bindRecords fuel state rest
    | 0x60 =>
      match decodeSleb 1 rest with
      | none => []
      | some (addend, rest) => bindRecords fuel { state with addend } rest
    | 0x70 =>
      match Uleb.decode rest with
      | none => []
      | some (offset, rest) =>
        bindRecords fuel { state with slot := { segment := immediate, offset } } rest
    | 0x80 =>
      match Uleb.decode rest with
      | none => []
      | some (skip, rest) =>
        bindRecords fuel
          { state with slot := { state.slot with offset := state.slot.offset + skip } } rest
    | 0x90 =>
      { ordinal := state.ordinal
        symbol := state.symbol
        weakImport := state.weakImport
        slot := state.slot
        addend := state.addend } ::
        bindRecords fuel
          { state with slot := { state.slot with offset := state.slot.offset + 8 } } rest
    | _ => []

def decodeBinds : List Bind := bindRecords stream.length {} stream

/-- The address of a slot; a slot of no segment is left alone. -/
def slotAddress (segments : List Segment) (slot : Slot) : Option Nat :=
  segments[slot.segment]?.map fun segment => segment.vmaddr + slot.offset

def updateSlot (segments : List Segment) (slot : Slot) (update : UInt64 → UInt64)
    (memory : Memory) : Memory :=
  match slotAddress segments slot with
  | none => memory
  | some address => memory.storeWord address (update (memory.loadWord address))

/-- Add the slide to every rebased slot. -/
def applyRebases (segments : List Segment) (slide : UInt64) (slots : List Slot)
    (memory : Memory) : Memory :=
  slots.foldl (fun memory slot => updateSlot segments slot (· + slide) memory) memory

/-- Store the resolved value of every bind. -/
def applyBinds (segments : List Segment) (resolve : Bind → UInt64) (binds : List Bind)
    (memory : Memory) : Memory :=
  binds.foldl (fun memory bind => updateSlot segments bind.slot (fun _ => resolve bind) memory)
    memory

/-- A library as the loader sees it: the addresses of the symbols it exports. -/
abbrev Library := CString → Option UInt64

/-- The symbol in the library of the ordinal, zero if it is missing, plus the addend. -/
def resolveIn (libraries : List Library) (bind : Bind) : UInt64 :=
  ((libraries[bind.ordinal - 1]?.bind fun library => library bind.symbol).getD 0) + bind.addend

/-- Scan the child records for the first edge that the name follows; the offset zero is no child. -/
def selectChild : Nat → List UInt8 → CString → Option (Nat × CString)
  | 0, _, _ => none
  | count + 1, records, name => do
      let (edge, afterEdge) ← CString.parse records
      let (nodeOffset, afterOffset) ← Uleb.decode afterEdge
      if edge <+: name then
        if nodeOffset = 0 then none else some (nodeOffset, name.drop edge.length)
      else
        selectChild count afterOffset name

/-- The address in regular terminal information; re-exports and stubs carry other flags. -/
def terminalAddress (information : List UInt8) : Option Nat := do
  let (flags, afterFlags) ← Uleb.decode information
  let (address, _) ← Uleb.decode afterFlags
  if flags = 0 then some address else none

/-- Walk at most `fuel` nodes of the trie from a node offset. -/
def trieWalk (trie : List UInt8) : Nat → Nat → CString → Option Nat
  | 0, _, _ => none
  | fuel + 1, offset, name => do
      let (terminalSize, afterSize) ← Uleb.decode (trie.drop offset)
      if name = [] ∧ terminalSize ≠ 0 then
        terminalAddress afterSize
      else
        match afterSize.drop terminalSize with
        | [] => none
        | count :: records => do
            let (nodeOffset, rest) ← selectChild count.toNat records name
            trieWalk trie fuel nodeOffset rest

/-- Look a name up from the root.  Every step consumes a character of the name. -/
def trieLookup (trie : List UInt8) (name : CString) : Option Nat :=
  trieWalk trie (name.length + 1) 0 name

end AlpineOnIOS.Dyld
