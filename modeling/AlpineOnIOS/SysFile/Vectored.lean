import Mathlib.Data.List.Basic

/-!
# Transfers of several buffers

`do_readv`, `do_writev` and `do_sendmsg` make a host call for each buffer of a list, and return
`EFAULT` for a bad element also when bytes have been moved before.
-/

namespace AlpineOnIOS.Vectored

open List

/-- What the loop finds when it comes to an element: no access, or the cells of a buffer. -/
inductive Piece (Cell : Type) where
  | fault
  | buffer (cells : List Cell)

variable {Cell : Type}

def Piece.cells : Piece Cell → List Cell
  | .fault => []
  | .buffer cells => cells

variable (pieces : List (Piece Cell))

/-- The cells of all buffers. -/
def whole : List Cell := pieces.flatMap Piece.cells

/-- The loop with a total: the result, and what each host call moves as the host answers. -/
def transfer (answers : Nat → Except Nat Nat) :
    List (Piece Cell) → Nat → Nat → Int × List (List Cell)
  | [], _, total => (total, [])
  | .fault :: _, _, _ => (-14, [])
  | .buffer [] :: pieces, calls, total => transfer answers pieces calls total
  | .buffer (cell :: cells) :: pieces, calls, total =>
    match answers calls with
    | .error errno => (if 0 < total then total else -errno, [])
    | .ok missing =>
      let moved := (cell :: cells).take (cells.length + 1 - missing)
      if moved.length < cells.length + 1 then (↑(total + moved.length), [moved])
      else
        let (result, others) := transfer answers pieces (calls + 1) (total + moved.length)
        (result, moved :: others)

/-- The calls, with what they find: an entry or a socket at the number, a readable header. -/
inductive Call where
  | readv (present : Bool)
  | writev (present : Bool)
  | sendmsg (socket header : Bool)

/-- The error of the checks in front of the loop. -/
def Call.refused (count : Nat) : Call → Option Nat
  | readv present | writev present =>
    if 1024 < count then some 22 else if present then none else some 9
  | sendmsg socket header =>
    if !socket then some 88 else if !header then some 14
    else if 1024 < count then some 22 else none

def Call.perform (call : Call) (answers : Nat → Except Nat Nat) (pieces : List (Piece Cell)) :
    Int × List (List Cell) :=
  match call.refused pieces.length with
  | some errno => (-errno, [])
  | none => transfer answers pieces 0 0

/-- The result counts what was moved, which are the first cells of the buffers. -/
structure Accounted (cells : List Cell) (outcome : Int × List (List Cell)) : Prop where
  moved : outcome.2.flatten = cells.take outcome.1.toNat
  counted : 0 ≤ outcome.1 → outcome.1 = outcome.2.flatten.length

/-- No element without access stands behind a buffer with cells. -/
def Untorn : List (Piece Cell) → Prop
  | [] => True
  | .fault :: _ => True
  | .buffer [] :: pieces => Untorn pieces
  | .buffer (_ :: _) :: pieces => .fault ∉ pieces

variable {pieces}

/-- With access to everything, an error is returned only for the first host call. -/
theorem transfer_of_access (answers : Nat → Except Nat Nat) (calls total : Nat)
    (access : .fault ∉ pieces) :
    (transfer answers pieces calls total).2.flatten <+: whole pieces ∧
      ((transfer answers pieces calls total).1 =
          total + (transfer answers pieces calls total).2.flatten.length ∨
        total = 0 ∧ (transfer answers pieces calls total).1 ≤ 0 ∧
          (transfer answers pieces calls total).2 = []) := by
  fun_induction transfer answers pieces calls total with
  | case1 => simp
  | case2 => simp at access
  | case3 pieces calls total induction => exact induction (by simpa using access)
  | case4 cell cells pieces calls total =>
    refine ⟨ nil_prefix, ?_⟩
    split
    · simp
    · exact .inr ⟨by omega, by simp, rfl⟩
  | case5 =>
    refine ⟨?_, .inl (by simp)⟩
    rw [flatten_singleton]
    exact ( take_prefix _ _).trans (prefix_append _ _)
  | case6 cell cells pieces calls total missing answer moved full result others rest induction =>
    obtain ⟨front, counted⟩ := induction (by simpa using access)
    rw [rest] at front counted
    have all : moved = cell :: cells :=
      take_of_length_le (by simp [moved] at full ⊢; omega)
    rw [flatten_cons, all]
    refine ⟨(prefix_append_right_inj _).mpr front, .inl ?_⟩
    rcases counted with counted | ⟨_, -⟩
    · rw [length_append]
      simp only [all] at counted ⊢
      omega
    · omega

theorem Accounted.of_access {answers : Nat → Except Nat Nat} (access : .fault ∉ pieces) :
    Accounted (whole pieces) (transfer answers pieces 0 0) := by
  obtain ⟨front, counted | ⟨-, negative, none⟩⟩ := transfer_of_access answers 0 0 access
  · refine ⟨?_, fun _ => by simpa using counted⟩
    rw [counted, Int.natCast_zero, Int.zero_add, Int.toNat_natCast]
    exact prefix_iff_eq_take.mp front
  refine ⟨?_, fun positive => ?_⟩
  · rw [none, Int.toNat_of_nonpos negative]
    rfl
  · rw [none, Int.le_antisymm negative positive]
    rfl

/-- A host that moves everything brings the loop to the element without access. -/
theorem transfer_of_fault {calls total : Nat} (fault : .fault ∈ pieces) :
    (transfer (fun _ => .ok 0) pieces calls total).1 = -14 := by
  induction pieces generalizing calls total with
  | nil => cases fault
  | cons piece pieces induction =>
    rcases piece with _ | _ | ⟨_, _⟩
    · rfl
    · exact induction (by simpa using fault)
    · simp [transfer, induction (show .fault ∈ pieces by simpa using fault)]

/-- The account is kept exactly if no element without access stands behind one with cells. -/
theorem transfer_accounted_iff (pieces : List (Piece Cell)) :
    (∀ answers, Accounted (whole pieces) (transfer answers pieces 0 0)) ↔ Untorn pieces := by
  induction pieces with
  | nil => exact iff_of_true (fun _ => ⟨rfl, fun _ => rfl⟩) trivial
  | cons piece pieces induction =>
    rcases piece with _ | _ | ⟨_, _⟩
    · exact iff_of_true (fun _ => ⟨rfl, fun positive => by cases positive⟩) trivial
    · exact induction
    refine ⟨fun accounted fault => ?_, fun access answers => ?_⟩
    · have torn := (accounted fun _ => .ok 0).moved
      rw [transfer_of_fault (mem_cons_of_mem _ fault)] at torn
      simp [transfer] at torn
    · exact .of_access fun fault => access ((mem_cons.mp fault).resolve_left nofun)

theorem vectored_accounted_iff (call : Call) (pieces : List (Piece Cell)) :
    (∀ answers, Accounted (whole pieces) (call.perform answers pieces)) ↔
      call.refused pieces.length ≠ none ∨ Untorn pieces := by
  simp only [Call.perform]
  cases call.refused pieces.length with
  | none => simp [transfer_accounted_iff]
  | some errno =>
    refine iff_of_true (fun _ => ⟨by simp, fun (positive : 0 ≤ -(errno : Int)) => ?_⟩) (.inl nofun)
    simp; omega

/-- A second buffer without access hides the bytes of the first. -/
theorem vectored_fault_hides_progress :
    (Call.writev true).perform (fun _ => .ok 0) [.buffer [1, 2, 3], .fault] =
      (-14, [[1, 2, 3]]) := by
  decide

/-- The answers on a socket that takes a message as a whole, or refuses it with an error. -/
def datagrams (refuses : Nat → Option Nat) (calls : Nat) : Except Nat Nat :=
  match refuses calls with
  | some errno => .error (errno + 1)
  | none => .ok 0

/-- `send` has no address: the host gets these messages with no destination. -/
def messages {Address : Type} (outcome : Int × List (List Cell)) :
    List (Option Address × List Cell) := outcome.2.map (none, ·)

/-- One message with everything goes to the address, or the call fails and sends nothing. -/
def OneMessage {Address : Type} (name : Option Address) (pieces : List (Piece Cell))
    (outcome : Int × List (List Cell)) : Prop :=
  messages outcome = [(name, whole pieces)] ∧ 0 ≤ outcome.1 ∨ outcome.2 = [] ∧ outcome.1 < 0

/-- Nothing but empty buffers is in front of an element without access. -/
def Barred : List (Piece Cell) → Prop
  | [] => False
  | .fault :: _ => True
  | .buffer [] :: pieces => Barred pieces
  | .buffer (_ :: _) :: _ => False

section

variable {Address : Type} (name : Option Address) (refuses : Nat → Option Nat)
  (several : 1 < (pieces.filter fun piece => piece.cells.length ≠ 0).length)

include several

theorem transfer_one_message_iff :
    OneMessage name pieces (transfer (datagrams refuses) pieces 0 0) ↔
      refuses 0 ≠ none ∨ Barred pieces := by
  induction pieces with
  | nil => simp at several
  | cons piece pieces induction =>
    rcases piece with _ | _ | ⟨_, _⟩
    · exact iff_of_true (.inr ⟨rfl, by simp [transfer]⟩) (.inr trivial)
    · exact induction several
    cases first : refuses 0 with
    | some errno =>
      refine iff_of_true (.inr ?_) (.inl nofun)
      simp only [transfer, datagrams, first, Nat.lt_irrefl, if_false, true_and]
      omega
    | none =>
      simp only [OneMessage, messages, transfer, datagrams, first, Barred]
      have more : whole pieces ≠ [] := by
        intro empty
        rw [whole, flatMap_eq_nil_iff] at empty
        rw [filter_cons_of_pos (by simp [Piece.cells]), filter_eq_nil_iff.mpr (by
          intro piece member; simp [empty piece member])] at several
        simp at several
      simp [whole, Piece.cells] at more ⊢
      grind

/-- `sendmsg` sends one message or none exactly if it sends nothing. -/
theorem sendmsg_one_message_iff (socket header : Bool) :
    OneMessage name pieces ((Call.sendmsg socket header).perform (datagrams refuses) pieces) ↔
      (Call.sendmsg socket header).refused pieces.length ≠ none ∨
        refuses 0 ≠ none ∨ Barred pieces := by
  rw [Call.perform]
  cases refused : (Call.sendmsg socket header).refused pieces.length with
  | none => simpa using transfer_one_message_iff name refuses several
  | some errno =>
    have positive : 0 < errno := by
      unfold Call.refused at refused
      grind
    exact iff_of_true (.inr ⟨rfl, by simpa⟩) (.inl nofun)

end

theorem sendmsg_one_message_iff_refused :
    OneMessage (some 1) [.buffer [1, 2], .buffer [3]] ((Call.sendmsg true true).perform
      (datagrams fun _ => some 31) [.buffer [1, 2], .buffer [3]]) :=
  (sendmsg_one_message_iff (some 1) _ (by decide) true true).mpr (.inr (.inl nofun))

/-- Two datagrams are sent for two buffers, and not to the address of the call. -/
theorem sendmsg_splits_message :
    messages ((Call.sendmsg true true).perform (datagrams fun _ => none)
        [.buffer [1, 2], .buffer [3]]) =
      [((none : Option Nat), [1, 2]), (none, [3])] := by
  decide

end AlpineOnIOS.Vectored
