import Mathlib.Algebra.Group.Nat.Defs
import Mathlib.Data.List.Basic

/-!
# Byte memories, little-endian words and sized buffers

A memory is a total function from addresses to bytes. A buffer is a memory with the number of
bytes that belong to it; an access outside is `none`. C strings are lists of nonzero bytes.
-/

namespace Foundation

open List

/-- A character of a C string: any byte but the terminator. -/
abbrev CChar := { byte : UInt8 // byte ≠ 0 }

/-- The characters of a C string in front of its terminator. -/
abbrev CString := List CChar

namespace CString

variable (text : CString)

/-- The characters of a string as plain bytes, without the terminator. -/
def chars : List UInt8 := text.map Subtype.val

/-- The stored form of a string, terminator included. -/
def stored : List UInt8 := chars text ++ [0]

@[simp]
theorem length_chars : (chars text).length = text.length := by
  simp [chars]

@[simp]
theorem length_stored : (stored text).length = text.length + 1 := by
  simp [stored]

@[simp]
theorem stored_cons (char : CChar) (text : CString) :
    stored (char :: text) = char.val :: stored text := rfl

/-- Split a byte list at its first terminator. -/
def parse : List UInt8 → Option (CString × List UInt8)
  | [] => none
  | byte :: rest =>
    if nonzero : byte ≠ 0 then
      (parse rest).map fun parsed => (⟨byte, nonzero⟩ :: parsed.1, parsed.2)
    else
      some ([], rest)

theorem parse_stored_append (rest : List UInt8) :
    parse (stored text ++ rest) = some (text, rest) := by
  induction text with
  | nil => simp [stored, chars, parse]
  | cons char text induction =>
    rw [stored_cons, cons_append, parse, dif_pos char.property, induction]
    rfl

/-- The bytes of an ASCII literal, any zero byte left out. -/
def ofLiteral (literal : String) : CString :=
  (literal.toList.map fun char => UInt8.ofNat char.toNat).filterMap fun byte =>
    if nonzero : byte ≠ 0 then some ⟨byte, nonzero⟩ else none

end CString

/-- Value of a byte list, least significant byte first. -/
def leNat : List UInt8 → Nat
  | [] => 0
  | byte :: rest => byte.toNat + 256 * leNat rest

/-- The `width` low bytes of a number, least significant byte first. -/
def leBytes : Nat → Nat → List UInt8
  | 0, _ => []
  | width + 1, value => UInt8.ofNat (value % 256) :: leBytes width (value / 256)

@[simp]
theorem length_leBytes (width value : Nat) : (leBytes width value).length = width := by
  induction width generalizing value with
  | zero => rfl
  | succ width induction => simp [leBytes, induction]

theorem leNat_leBytes (width value : Nat) : leNat (leBytes width value) = value % 256 ^ width := by
  induction width generalizing value with
  | zero => simp [leBytes, leNat, Nat.mod_one]
  | succ width induction =>
    have low : (UInt8.ofNat (value % 256)).toNat = value % 256 := by
      rw [UInt8.toNat_ofNat']
      omega
    rw [leBytes, leNat, low, induction, Nat.pow_succ, Nat.mul_comm (256 ^ width) 256, Nat.mod_mul]

/-- A byte for every address. -/
abbrev Memory := Nat → UInt8

variable {bytes : List UInt8} {length : Nat}

namespace Memory

variable (memory : Memory)

/-- The `length` bytes stored from an address on. -/
def load (address length : Nat) : List UInt8 :=
  (List.range length).map fun index => memory (address + index)

/-- Overwrite consecutive bytes from an address on. -/
def store (address : Nat) (bytes : List UInt8) : Memory := fun position =>
  if address ≤ position ∧ position < address + bytes.length then
    bytes.getD (position - address) 0
  else
    memory position

@[simp]
theorem length_load (address length : Nat) : (memory.load address length).length = length := by
  simp [load]

variable {address position : Nat}

theorem store_of_lt
    (below : position < address) : memory.store address bytes position = memory position := by
  simp only [store]
  rw [if_neg (by omega)]

theorem store_of_le (above : address + bytes.length ≤ position) :
    memory.store address bytes position = memory position := by
  simp only [store]
  rw [if_neg (by omega)]

theorem load_congr {left right : Memory}
    (agree : ∀ index < length, left (address + index) = right (address + index)) :
    left.load address length = right.load address length := by
  apply map_congr_left
  intro index member
  exact agree index (mem_range.mp member)

theorem load_store_same (address : Nat) (bytes : List UInt8) :
    (memory.store address bytes).load address bytes.length = bytes := by
  apply ext_getElem
  · simp
  · intro index _ inside
    simp only [load, getElem_map, getElem_range, store]
    rw [if_pos (by omega), Nat.add_sub_cancel_left]
    simp [inside]

theorem load_store_disjoint
    (disjoint : position + length ≤ address ∨ address + bytes.length ≤ position) :
    (memory.store address bytes).load position length = memory.load position length := by
  apply load_congr
  intro index inside
  rcases disjoint with below | above
  · exact store_of_lt memory (by omega)
  · exact store_of_le memory (by omega)

/-- The 64-bit word at an address. -/
def loadWord (address : Nat) : UInt64 :=
  UInt64.ofNat (leNat (memory.load address 8))

/-- Overwrite the 64-bit word at an address. -/
def storeWord (address : Nat) (word : UInt64) : Memory :=
  memory.store address (leBytes 8 word.toNat)

theorem loadWord_storeWord_same (address : Nat) (word : UInt64) :
    (memory.storeWord address word).loadWord address = word := by
  have whole : (memory.storeWord address word).load address 8 = leBytes 8 word.toNat := by
    simpa [storeWord] using load_store_same memory address (leBytes 8 word.toNat)
  have bound := word.toNat_lt
  rw [loadWord, whole, leNat_leBytes, Nat.mod_eq_of_lt (by simpa using bound), UInt64.ofNat_toNat]

theorem loadWord_storeWord_disjoint (word : UInt64)
    (disjoint : position + 8 ≤ address ∨ address + 8 ≤ position) :
    (memory.storeWord address word).loadWord position = memory.loadWord position := by
  rw [loadWord, loadWord, storeWord, load_store_disjoint]
  simpa using disjoint

end Memory

/-- A memory of which only the first `size` bytes belong to the object. -/
structure Buffer where
  /-- Number of bytes of the object. -/
  size : Nat
  /-- Contents; the bytes from `size` on are never reached by the operations below. -/
  byte : Memory

namespace Buffer

/-- A buffer of zero bytes. -/
def zeros (size : Nat) : Buffer := { size, byte := fun _ => 0 }

variable (buffer : Buffer)

/-- The little-endian word of `width` bytes at an offset. -/
def word? (width offset : Nat) : Option Nat :=
  if offset + width ≤ buffer.size then some (leNat (buffer.byte.load offset width)) else none

/-- Characters from `offset` to the first terminator among the next `fuel` bytes. -/
def stringFrom (buffer : Buffer) : Nat → Nat → Option CString
  | 0, _ => none
  | fuel + 1, offset =>
    if nonzero : buffer.byte offset ≠ 0 then
      (stringFrom buffer fuel (offset + 1)).map fun text => ⟨buffer.byte offset, nonzero⟩ :: text
    else
      some []

/-- The terminated string at an offset. -/
def string? (offset : Nat) : Option CString :=
  buffer.stringFrom (buffer.size - offset) offset

/-- Write a byte list into a buffer. -/
def write? (offset : Nat) (bytes : List UInt8) : Option Buffer :=
  if offset + bytes.length ≤ buffer.size then
    some { buffer with byte := buffer.byte.store offset bytes }
  else
    none

/-- Copy `length` bytes of another buffer. -/
def copy? (target : Buffer) (targetOffset : Nat) (source : Buffer) (sourceOffset length : Nat) :
    Option Buffer :=
  if targetOffset + length ≤ target.size ∧ sourceOffset + length ≤ source.size then
    some
      { target with
        byte := fun position =>
          if targetOffset ≤ position ∧ position < targetOffset + length then
            source.byte (sourceOffset + (position - targetOffset))
          else
            target.byte position }
  else
    none

theorem write?_eq_some {buffer after : Buffer} {offset : Nat}
    (written : buffer.write? offset bytes = some after) :
    offset + bytes.length ≤ buffer.size ∧ after.size = buffer.size ∧
      after.byte = buffer.byte.store offset bytes := by
  simp only [write?] at written
  split at written
  · rename_i fits
    obtain rfl := Option.some.inj written
    exact ⟨fits, rfl, rfl⟩
  · cases written

end Buffer

/-- A byte, or nothing, for every address. -/
abbrev ByteMap := UInt64 → Option UInt8

/-- The bytes of a list stand in memory from an address on. -/
def Placed (memory : ByteMap) (addr : UInt64) (bytes : List UInt8) : Prop :=
  ∀ index byte, bytes[index]? = some byte → memory (addr + .ofNat index) = some byte

/-- A write of a list of bytes. -/
structure Wrote (before after : ByteMap) (addr : UInt64) (bytes : List UInt8) : Prop where
  placed : Placed after addr bytes
  kept : ∀ address, (∀ index < bytes.length, address ≠ addr + .ofNat index) →
    after address = before address

/-- Two ranges have no address in common. -/
def Apart (addr : UInt64) (size : Nat) (other : UInt64) (size' : Nat) : Prop :=
  ∀ index < size, ∀ index' < size', addr + .ofNat index ≠ other + .ofNat index'

variable {before after : ByteMap} {addr other : UInt64} {more : List UInt8}

section

variable (placed : Placed before addr bytes)

include placed

theorem Placed.congr
    (same : ∀ index < bytes.length, after (addr + .ofNat index) = before (addr + .ofNat index)) :
    Placed after addr bytes := by
  intro index byte here
  obtain ⟨inside, -⟩ := List.getElem?_eq_some_iff.mp here
  rw [same index inside]
  exact placed index byte here

theorem Placed.of_wrote (wrote : Wrote before after other more)
    (apart : Apart addr bytes.length other more.length) : Placed after addr bytes :=
  placed.congr fun index inside => wrote.kept _ (apart index inside)

theorem Placed.unique (again : Placed before addr more)
    (sized : bytes.length = more.length) : bytes = more := by
  apply ext_getElem sized
  intro index inside inside'
  have first := placed index _ (getElem?_eq_getElem inside)
  rw [again index _ (getElem?_eq_getElem inside')] at first
  exact (Option.some.inj first).symm

end

theorem add_ofNat_add (addr : UInt64) (count index : Nat) :
    addr + .ofNat (count + index) = addr + .ofNat count + .ofNat index := by
  rw [UInt64.ofNat_add, UInt64.add_assoc]

theorem add_ofNat_ne {index index' : Nat} (different : index ≠ index') (inside : index < 2 ^ 64)
    (inside' : index' < 2 ^ 64) : addr + .ofNat index ≠ addr + .ofNat index' := by
  intro same
  have equal := congrArg UInt64.toNat ((UInt64.add_right_inj addr).mp same)
  rw [UInt64.toNat_ofNat', UInt64.toNat_ofNat', Nat.mod_eq_of_lt inside,
    Nat.mod_eq_of_lt inside'] at equal
  exact different equal

/-- Update the word at a place; without a place nothing happens. -/
def updateWord (memory : Memory) (place : Option Nat) (update : UInt64 → UInt64) : Memory :=
  match place with
  | none => memory
  | some address => memory.storeWord address (update (memory.loadWord address))

/-- Update the words of all items in order. -/
def updateWords {α : Type} (place : α → Option Nat) (update : α → UInt64 → UInt64)
    (items : List α) (memory : Memory) : Memory :=
  items.foldl (fun memory item => updateWord memory (place item) (update item)) memory

/-- The word at a place has a byte in common with the word at `address`. -/
def meets (address : Nat) (place : Option Nat) : Bool :=
  place.any fun other => decide (other < address + 8) && decide (address < other + 8)

variable {address : Nat}

theorem meets_some {other : Nat} :
    meets address (some other) = true ↔ other < address + 8 ∧ address < other + 8 := by
  simp [meets]

variable {α : Type} {place : α → Option Nat} {update : α → UInt64 → UInt64}

theorem loadWord_updateWord_apart {target : Option Nat} (memory : Memory)
    (change : UInt64 → UInt64) (apart : meets address target = false) :
    (updateWord memory target change).loadWord address = memory.loadWord address := by
  cases target with
  | none => rfl
  | some other =>
    refine Memory.loadWord_storeWord_disjoint memory _ ?_
    have separate : ¬(other < address + 8 ∧ address < other + 8) := by
      rw [← meets_some, apart]
      exact Bool.false_ne_true
    omega

variable {items : List α}

theorem loadWord_updateWords_apart (memory : Memory)
    (apart : ∀ item ∈ items, meets address (place item) = false) :
    (updateWords place update items memory).loadWord address = memory.loadWord address := by
  induction items generalizing memory with
  | nil => rfl
  | cons item rest induction =>
    rw [forall_mem_cons] at apart
    rw [updateWords, foldl_cons, ← updateWords, induction _ apart.2,
      loadWord_updateWord_apart memory _ apart.1]

theorem loadWord_updateWords_once {item : α} (memory : Memory)
    (once : items.filter (fun other => meets address (place other)) = [item])
    (here : place item = some address) :
    (updateWords place update items memory).loadWord address =
      update item (memory.loadWord address) := by
  induction items generalizing memory with
  | nil => simp at once
  | cons first rest induction =>
    rw [updateWords, foldl_cons, ← updateWords]
    cases met : meets address (place first) with
    | false =>
      rw [filter_cons_of_neg (by simp [met])] at once
      rw [induction _ once, loadWord_updateWord_apart memory _ met]
    | true =>
      rw [filter_cons_of_pos (by exact met)] at once
      obtain ⟨rfl, none_left⟩ := cons.inj once
      have apart : ∀ other ∈ rest, meets address (place other) = false := by
        intro other member
        have unmet := filter_eq_nil_iff.mp none_left other member
        simpa using unmet
      rw [loadWord_updateWords_apart _ apart, here, updateWord, Memory.loadWord_storeWord_same]

end Foundation
