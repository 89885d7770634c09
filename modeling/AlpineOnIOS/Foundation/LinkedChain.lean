import Mathlib.Data.List.Nodup

/-!
# Buckets of singly linked nodes

A table of buckets heads chains of nodes that are linked through one field.  A cursor is the address
of a link, so that the node behind it can be taken out by one write.  `Represents` ties the links to
the lists of nodes that the buckets hold.
-/

namespace Foundation

open List Function

variable {Bucket Node : Type}

/-- The links of a table: the head of each bucket and the successor of each node. -/
structure Links (Bucket Node : Type) where
  head : Bucket → Option Node
  next : Node → Option Node

/-- The address of a link. -/
inductive Cursor (Bucket Node : Type) where
  | head (bucket : Bucket)
  | after (node : Node)

/-- The nodes found by following successors from a pointer to the end. -/
def Follows (next : Node → Option Node) : Option Node → List Node → Prop
  | pointer, [] => pointer = none
  | pointer, node :: rest => pointer = some node ∧ Follows next (next node) rest

/-- The link behind the given first nodes of a bucket. -/
def Cursor.behind (bucket : Bucket) (before : List Node) : Cursor Bucket Node :=
  match before.getLast? with
  | none => .head bucket
  | some node => .after node

/-- The buckets hold the given lists of nodes, and no node occurs twice. -/
structure Represents (links : Links Bucket Node) (chains : Bucket → List Node) : Prop where
  follows : ∀ bucket, Follows links.next (links.head bucket) (chains bucket)
  nodup : ∀ bucket, (chains bucket).Nodup
  apart : ∀ {first second node}, node ∈ chains first → node ∈ chains second → first = second

namespace Cursor

@[simp]
theorem behind_nil (bucket : Bucket) : behind bucket ([] : List Node) = .head bucket := rfl

@[simp]
theorem behind_concat (bucket : Bucket) (before : List Node) (node : Node) :
    behind bucket (before ++ [node]) = .after node := by
  simp [behind]

theorem behind_cons (bucket : Bucket) (node : Node) {before : List Node} (nonempty : before ≠ []) :
    behind bucket (node :: before) = behind bucket before := by
  obtain ⟨_, _, rfl⟩ := (eq_nil_or_concat' before).resolve_left nonempty
  rw [← cons_append, behind_concat, behind_concat]

end Cursor

/-- The links of a table without nodes. -/
def Links.empty : Links Bucket Node := { head := fun _ => none, next := fun _ => none }

theorem represents_empty : Represents (Links.empty : Links Bucket Node) fun _ => [] :=
  { follows := fun _ => rfl
    nodup := fun _ => nodup_nil
    apart := by simp }

namespace Links

/-- The pointer stored in a link. -/
def read (links : Links Bucket Node) : Cursor Bucket Node → Option Node
  | .head bucket => links.head bucket
  | .after node => links.next node

variable [DecidableEq Bucket] [DecidableEq Node]

/-- Store a pointer in a link. -/
def write (links : Links Bucket Node) (cursor : Cursor Bucket Node) (pointer : Option Node) :
    Links Bucket Node :=
  match cursor with
  | .head bucket => { links with head := Function.update links.head bucket pointer }
  | .after node => { links with next := Function.update links.next node pointer }

/-- Put a node in front of a bucket. -/
def push (links : Links Bucket Node) (bucket : Bucket) (node : Node) : Links Bucket Node :=
  (links.write (.after node) (links.head bucket)).write (.head bucket) (some node)

end Links

variable {rest : List Node}

section Follows

variable {next : Node → Option Node} {pointer : Option Node} {last : Node}

theorem Follows.split {before : List Node}
    (follows : Follows next pointer (before ++ last :: rest)) : Follows next (next last) rest := by
  induction before generalizing pointer with
  | nil => exact follows.2
  | cons node before induction => exact induction follows.2

variable {nodes : List Node}

theorem Follows.head_eq (follows : Follows next pointer nodes) : pointer = nodes.head? := by
  cases nodes with
  | nil => exact follows
  | cons => exact follows.1

theorem Follows.unique {others : List Node} (first : Follows next pointer nodes)
    (second : Follows next pointer others) : nodes = others := by
  induction nodes generalizing pointer others with
  | nil =>
    obtain rfl : pointer = none := first
    cases others with
    | nil => rfl
    | cons => cases second.1
  | cons node nodes induction =>
    obtain ⟨rfl, firstRest⟩ := first
    cases others with
    | nil => cases second
    | cons =>
      obtain ⟨same, secondRest⟩ := second
      cases same
      rw [induction firstRest secondRest]

variable [DecidableEq Node]

theorem Follows.update {node : Node} (follows : Follows next pointer nodes)
    (outside : node ∉ nodes) (target : Option Node) :
    Follows (update next node target) pointer nodes := by
  induction nodes generalizing pointer with
  | nil => exact follows
  | cons first rest induction =>
    rw [mem_cons, not_or] at outside
    refine ⟨follows.1, ?_⟩
    rw [update_of_ne (Ne.symm outside.1)]
    exact induction follows.2 outside.2

/-- Redirecting a node to its second successor takes the first one out. -/
theorem Follows.splice {front : List Node} {node : Node}
    (follows : Follows next pointer (front ++ last :: node :: rest))
    (nodup : (front ++ last :: node :: rest).Nodup) :
    Follows (Function.update next last (next node)) pointer (front ++ last :: rest) := by
  induction front generalizing pointer with
  | nil =>
    refine ⟨follows.1, ?_⟩
    rw [update_self]
    have outside : last ∉ rest := fun member =>
      (nodup_cons.mp nodup).1 (mem_cons_of_mem node member)
    exact Follows.update follows.2.2 outside _
  | cons first front induction =>
    rw [cons_append, nodup_cons] at nodup
    refine ⟨follows.1, ?_⟩
    have different : first ≠ last := by
      rintro rfl
      exact nodup.1 (by simp)
    rw [update_of_ne different]
    exact induction follows.2 nodup.2

end Follows

namespace Represents

variable {links : Links Bucket Node} {chains : Bucket → List Node} {bucket : Bucket}
  {before : List Node}

theorem read_behind (represents : Represents links chains)
    (chain : chains bucket = before ++ rest) :
    links.read (.behind bucket before) = rest.head? := by
  have follows := represents.follows bucket
  rw [chain] at follows
  rcases eq_nil_or_concat' before with rfl | ⟨_, _, rfl⟩
  · exact follows.head_eq
  rw [Cursor.behind_concat]
  rw [append_assoc] at follows
  exact follows.split.head_eq

variable [DecidableEq Bucket] {node member : Node} {other : Bucket}

theorem mem_remove (represents : Represents links chains)
    (chain : chains bucket = before ++ node :: rest) :
    member ∈ update chains bucket (before ++ rest) other ↔
      member ≠ node ∧ member ∈ chains other := by
  by_cases same : other = bucket
  · subst same
    have nodup := represents.nodup other
    rw [chain, nodup_middle, nodup_cons] at nodup
    rw [update_self, chain, mem_append, mem_append, mem_cons]
    have different : member ∈ before ∨ member ∈ rest → member ≠ node := by
      rintro inside rfl
      exact nodup.1 (mem_append.mpr inside)
    constructor
    · intro inside
      exact ⟨different inside, inside.imp_right .inr⟩
    · rintro ⟨isOther, inside⟩
      exact inside.imp_right fun found => found.resolve_left isOther
  · rw [update_of_ne same, iff_and_self]
    rintro inside rfl
    exact same (represents.apart inside (by simp [chain]))

theorem mem_push :
    member ∈ update chains bucket (node :: chains bucket) other ↔
      (member = node ∧ other = bucket) ∨ member ∈ chains other := by
  by_cases same : other = bucket
  · subst same
    simp
  · simp [same]

variable [DecidableEq Node]

/-- Writing the successor of a node to the link that points to it takes the node out. -/
theorem remove (represents : Represents links chains)
    (chain : chains bucket = before ++ node :: rest) :
    Represents (links.write (.behind bucket before) (links.next node))
      (update chains bucket (before ++ rest)) := by
  have follows := represents.follows bucket
  have nodup := represents.nodup bucket
  rw [chain] at follows nodup
  refine ⟨fun other => ?_, fun other => ?_, fun first second => represents.apart
    ((represents.mem_remove chain).mp first).2 ((represents.mem_remove chain).mp second).2⟩
  · rcases eq_nil_or_concat' before with rfl | ⟨_, _, rfl⟩
    · rw [Cursor.behind_nil]
      by_cases same : other = bucket
      · subst same
        simpa [Links.write] using follows.2
      · simpa [Links.write, same] using represents.follows other
    rw [Cursor.behind_concat]
    rw [append_assoc] at follows nodup
    by_cases same : other = bucket
    · subst same
      simpa [Links.write] using follows.splice nodup
    simp only [Links.write, update_of_ne same]
    refine (represents.follows other).update (fun member => same ?_) _
    exact represents.apart member (by simp [chain])
  · by_cases same : other = bucket
    · subst same
      rw [update_self]
      exact nodup.sublist (List.Sublist.append_left (sublist_cons_self node rest) before)
    · rw [update_of_ne same]
      exact represents.nodup other

theorem push (represents : Represents links chains) (outside : ∀ bucket, node ∉ chains bucket) :
    Represents (links.push bucket node) (update chains bucket (node :: chains bucket)) := by
  refine ⟨fun other => ?_, fun other => ?_, fun first second => ?_⟩
  · by_cases same : other = bucket
    · subst same
      simp only [Links.push, Links.write, update_self]
      refine ⟨rfl, ?_⟩
      rw [update_self]
      exact (represents.follows other).update (outside other) _
    · simp only [Links.push, Links.write, update_of_ne same]
      exact (represents.follows other).update (outside other) _
  · by_cases same : other = bucket
    · subst same
      rw [update_self]
      exact nodup_cons.mpr ⟨outside other, represents.nodup other⟩
    · rw [update_of_ne same]
      exact represents.nodup other
  · rcases mem_push.mp first with ⟨rfl, rfl⟩ | inFirst
    · rcases mem_push.mp second with ⟨-, rfl⟩ | inSecond
      · rfl
      · exact absurd inSecond (outside _)
    · rcases mem_push.mp second with ⟨rfl, -⟩ | inSecond
      · exact absurd inFirst (outside _)
      · exact represents.apart inFirst inSecond

end Represents
end Foundation
