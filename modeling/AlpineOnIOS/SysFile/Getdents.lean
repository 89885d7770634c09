import Mathlib.Data.List.Perm.Basic

/-!
# Reading directories

On a host other than Linux `do_getdents64` opens a stream on a duplicate of the descriptor, which
shares its position.  The entry that does not fit in the buffer any more has been read from the
stream by then, and no later call sees it.
-/

namespace AlpineOnIOS.Getdents

open List

/-- An entry that `readdir` returns. -/
structure Dirent where
  ino : UInt64
  name : List UInt8
  deriving DecidableEq

/-- The length of a record with its padded name, which fits in 16 bits. -/
def reclen (entry : Dirent) : Nat := (8 + 8 + 2 + 1 + entry.name.length + 1 + 7) / 8 * 8

/-- The loop of `do_getdents64`: the records with positions, and what is left of the stream. -/
def readdirLoop (pos stop : Nat) : List Dirent → List (Nat × Dirent) × List Dirent
  | [] => ([], [])
  | entry :: stream =>
    if pos + reclen entry > stop then ([], stream)
    else
      let (records, left) := readdirLoop (pos + reclen entry) stop stream
      ((pos, entry) :: records, left)

/-- One call after another, each with the address and the size of its buffer. -/
def doGetdents64 : List (Nat × Nat) → List Dirent → List (List (Nat × Dirent))
  | [], _ => []
  | (a1, a2) :: calls, stream =>
    let (records, left) := readdirLoop a1 (a1 + a2) stream
    records :: doGetdents64 calls left

/-- Records that stand one behind the other. -/
def Tiles (start : Nat) : List (Nat × Dirent) → Nat → Prop
  | [], stop => start = stop
  | (pos, entry) :: records, stop => pos = start ∧ Tiles (start + reclen entry) records stop

/-- The bytes that some entries need. -/
def size (entries : List Dirent) : Nat := entries.foldr (reclen · + ·) 0

theorem tiles_readdirLoop {pos stop : Nat} (inside : pos ≤ stop) (stream : List Dirent) :
    ∃ last ≤ stop, Tiles pos (readdirLoop pos stop stream).1 last := by
  induction stream generalizing pos with
  | nil => exact ⟨pos, inside, rfl⟩
  | cons entry stream induction =>
    rw [readdirLoop]
    split
    · exact ⟨pos, inside, rfl⟩
    · obtain ⟨last, ends, tiles⟩ := induction (Nat.not_lt.mp ‹_›)
      exact ⟨last, ends, rfl, tiles⟩

theorem readdirLoop_of_fits {pos stop : Nat} {stream : List Dirent}
    (fits : pos + size stream ≤ stop) :
    (readdirLoop pos stop stream).1.map Prod.snd = stream ∧
      (readdirLoop pos stop stream).2 = [] := by
  induction stream generalizing pos with
  | nil => exact ⟨rfl, rfl⟩
  | cons entry stream induction =>
    have whole : size (entry :: stream) = reclen entry + size stream := rfl
    obtain ⟨all, none⟩ := induction (show pos + reclen entry + size stream ≤ stop by omega)
    rw [readdirLoop, if_neg (by omega)]
    exact ⟨congrArg _ all, none⟩

/-- Without room for the whole stream an entry is neither returned nor left. -/
theorem length_readdirLoop {pos stop : Nat} (inside : pos ≤ stop) (stream : List Dirent) :
    (readdirLoop pos stop stream).1.length + (readdirLoop pos stop stream).2.length ≤
        stream.length ∧
      (stop < pos + size stream → (readdirLoop pos stop stream).1.length +
        (readdirLoop pos stop stream).2.length < stream.length) := by
  induction stream generalizing pos with
  | nil => exact ⟨Nat.le_refl _, fun full => absurd full (Nat.not_lt.mpr inside)⟩
  | cons entry stream induction =>
    have whole : size (entry :: stream) = reclen entry + size stream := rfl
    rw [readdirLoop]
    split
    · simp
    obtain ⟨_, lost⟩ := induction (Nat.not_lt.mp ‹_›)
    simp only [length_cons]
    exact ⟨by omega, fun full => by have := lost (by omega); omega⟩

theorem length_doGetdents64_le (calls : List (Nat × Nat)) (stream : List Dirent) :
    (doGetdents64 calls stream).flatten.length ≤ stream.length := by
  induction calls generalizing stream with
  | nil => exact Nat.zero_le _
  | cons call calls induction =>
    obtain ⟨a1, a2⟩ := call
    have first := (length_readdirLoop (Nat.le_add_right a1 a2) stream).1
    have later := induction (readdirLoop a1 (a1 + a2) stream).2
    rw [doGetdents64, flatten_cons, length_append]
    omega

/-- All calls return every entry once exactly if the first buffer has room for all of them. -/
theorem getdents_complete_iff (directory : List Dirent) (a1 a2 : Nat) (calls : List (Nat × Nat)) :
    List.Forall₂ (fun call records => ∃ last ≤ call.1 + call.2, Tiles call.1 records last)
        ((a1, a2) :: calls) (doGetdents64 ((a1, a2) :: calls) directory) ∧
      (((doGetdents64 ((a1, a2) :: calls) directory).flatten.map Prod.snd).Perm directory ↔
        size directory ≤ a2) := by
  constructor
  · -- by induction on the calls, for any stream
    generalize (a1, a2) :: calls = calls
    induction calls generalizing directory with
    | nil => exact .nil
    | cons call calls induction =>
      exact .cons (tiles_readdirLoop (Nat.le_add_right call.1 call.2) directory) (induction _)
  have later := length_doGetdents64_le calls (readdirLoop a1 (a1 + a2) directory).2
  rw [doGetdents64, flatten_cons, map_append]
  constructor
  · intro complete
    have lost := (length_readdirLoop (Nat.le_add_right a1 a2) directory).2
    have total := complete.length_eq
    rw [length_append, length_map, length_map] at total
    omega
  · intro fits
    obtain ⟨all, none⟩ := readdirLoop_of_fits (Nat.add_le_add_left fits a1)
    rw [none, length_nil, Nat.le_zero, length_eq_zero_iff] at later
    rw [all, none, later, map_nil, append_nil]

theorem getdents_loses_entry :
    doGetdents64 [(0, 24), (0, 24), (0, 24)] [⟨1, [97]⟩, ⟨2, [98]⟩] =
      [[(0, ⟨1, [97]⟩)], [], []] := by
  decide

end AlpineOnIOS.Getdents
