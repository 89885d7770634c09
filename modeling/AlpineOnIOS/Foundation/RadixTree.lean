import Mathlib.Data.List.Perm.Basic
import Mathlib.Data.List.Nodup

/-!
# Radix trees

A node carries the word on the edge from its parent, a payload and its children. In a proper tree
no edge is empty and the edges below one node start with different symbols, so at most one child
matches a key.
-/

namespace Foundation

open List

/-- A tree whose edges are labelled by words; each node stores the edge that leads to it. -/
inductive RadixNode (α π : Type) where
  | node (edge : List α) (payload : π) (children : List (RadixNode α π))

namespace RadixNode

variable {α π β : Type}

/-- Word on the edge from the parent. -/
def edge : RadixNode α π → List α
  | .node edge _ _ => edge

/-- Data stored at the node. -/
def payload : RadixNode α π → π
  | .node _ payload _ => payload

/-- Nodes directly below. -/
def children : RadixNode α π → List (RadixNode α π)
  | .node _ _ children => children

/-- The same node hanging from another edge. -/
def withEdge (edge : List α) : RadixNode α π → RadixNode α π
  | .node _ payload children => .node edge payload children

@[simp] theorem edge_node (edge : List α) (payload : π) (children : List (RadixNode α π)) :
    (node edge payload children).edge = edge := rfl

@[simp] theorem payload_node (edge : List α) (payload : π) (children : List (RadixNode α π)) :
    (node edge payload children).payload = payload := rfl

@[simp] theorem children_node (edge : List α) (payload : π) (children : List (RadixNode α π)) :
    (node edge payload children).children = children := rfl

@[simp] theorem edge_withEdge (edge : List α) (tree : RadixNode α π) :
    (tree.withEdge edge).edge = edge := by
  cases tree
  rfl

@[elab_as_elim]
theorem childInduction {motive : RadixNode α π → Prop}
    (step : ∀ edge payload children, (∀ child ∈ children, motive child) →
      motive (.node edge payload children))
    (tree : RadixNode α π) : motive tree :=
  match tree with
  | .node edge payload children =>
    step edge payload children fun child _ => childInduction step child
termination_by sizeOf tree
decreasing_by
  have smaller := List.sizeOf_lt_of_mem ‹child ∈ children›
  simp only [node.sizeOf_spec]
  omega

/-- Every edge below is nonempty and sibling edges start with different symbols. -/
inductive Proper : RadixNode α π → Prop
  | node {edge : List α} {payload : π} {children : List (RadixNode α π)}
      (nonempty : ∀ child ∈ children, child.edge ≠ [])
      (apart : (children.map fun child => child.edge.head?).Nodup)
      (below : ∀ child ∈ children, Proper child) : Proper (.node edge payload children)

section Find

variable [DecidableEq α] (value : π → Option β)

mutual

/-- Follow a key below a node and read the payload where it ends. -/
def find : RadixNode α π → List α → Option β
  | .node _ payload children, key => if key = [] then value payload else findAmong children key

/-- Follow a key into the first node whose edge is a prefix of it. -/
def findAmong : List (RadixNode α π) → List α → Option β
  | [], _ => none
  | child :: rest, key =>
    if child.edge <+: key then find child (key.drop child.edge.length) else findAmong rest key

end

variable (tree : RadixNode α π)

@[simp]
theorem find_nil : tree.find value [] = value tree.payload := by
  cases tree
  simp [find]

variable {key : List α}

theorem find_of_ne_nil (nonempty : key ≠ []) :
    tree.find value key = findAmong value tree.children key := by
  cases tree
  simp [find, nonempty]

@[simp]
theorem find_withEdge (edge key : List α) :
    (tree.withEdge edge).find value key = tree.find value key := by
  cases tree
  simp [withEdge, find]

variable {child : RadixNode α π} {rest : List (RadixNode α π)}

theorem findAmong_cons_of_follows (follows : child.edge <+: key) :
    findAmong value (child :: rest) key = child.find value (key.drop child.edge.length) := by
  rw [findAmong, if_pos follows]

theorem findAmong_cons_of_departs (departs : ¬child.edge <+: key) :
    findAmong value (child :: rest) key = findAmong value rest key := by
  rw [findAmong, if_neg departs]

omit [DecidableEq α] in
theorem head?_eq_of_follows {edge : List α} (nonempty : edge ≠ []) (follows : edge <+: key) :
    edge.head? = key.head? := by
  obtain ⟨_, rfl⟩ := follows
  cases edge with
  | nil => exact absurd rfl nonempty
  | cons => rfl

theorem findAmong_eq_none {children : List (RadixNode α π)}
    (nonempty : ∀ child ∈ children, child.edge ≠ [])
    (elsewhere : ∀ child ∈ children, child.edge.head? ≠ key.head?) :
    findAmong value children key = none := by
  induction children with
  | nil => rw [findAmong]
  | cons child rest induction =>
    have departs : ¬child.edge <+: key := fun follows =>
      elsewhere child mem_cons_self (head?_eq_of_follows (nonempty child mem_cons_self) follows)
    rw [findAmong_cons_of_departs value departs]
    exact induction (fun other member => nonempty other (mem_cons_of_mem _ member))
      (fun other member => elsewhere other (mem_cons_of_mem _ member))

/-- Among edges with distinct first symbols, only the child with the key's first symbol counts. -/
theorem findAmong_eq_of_mem {children : List (RadixNode α π)}
    (nonempty : ∀ child ∈ children, child.edge ≠ [])
    (apart : (children.map fun child => child.edge.head?).Nodup) (member : child ∈ children)
    (same : child.edge.head? = key.head?) :
    findAmong value children key =
      if child.edge <+: key then child.find value (key.drop child.edge.length) else none := by
  induction children with
  | nil => cases member
  | cons first rest induction =>
    rw [map_cons, nodup_cons] at apart
    have restNonempty : ∀ child ∈ rest, child.edge ≠ [] := fun other member =>
      nonempty other (mem_cons_of_mem _ member)
    rcases mem_cons.mp member with rfl | member
    · by_cases follows : child.edge <+: key
      · rw [findAmong_cons_of_follows value follows, if_pos follows]
      rw [findAmong_cons_of_departs value follows, if_neg follows]
      apply findAmong_eq_none value restNonempty
      intro other otherMember otherSame
      apply apart.1
      rw [same, ← otherSame]
      exact mem_map_of_mem otherMember
    · have departs : ¬first.edge <+: key := by
        intro follows
        apply apart.1
        rw [head?_eq_of_follows (nonempty first mem_cons_self) follows, ← same]
        exact mem_map_of_mem member
      rw [findAmong_cons_of_departs value departs]
      exact induction restNonempty apart.2 member

theorem findAmong_skip {before after : List (RadixNode α π)}
    (nonempty : child.edge ≠ []) (elsewhere : child.edge.head? ≠ key.head?) :
    findAmong value (before ++ child :: after) key = findAmong value (before ++ after) key := by
  induction before with
  | nil =>
    exact findAmong_cons_of_departs value fun follows =>
      elsewhere (head?_eq_of_follows nonempty follows)
  | cons first before induction =>
    rw [cons_append, cons_append, findAmong, findAmong, induction]

variable {left right : List (RadixNode α π)}

/-- Reordering the children of a proper node does not change what is found. -/
theorem findAmong_perm (perm : left.Perm right) (nonempty : ∀ child ∈ left, child.edge ≠ [])
    (apart : (left.map fun child => child.edge.head?).Nodup) (key : List α) :
    findAmong value left key = findAmong value right key := by
  have rightNonempty : ∀ child ∈ right, child.edge ≠ [] := fun child member =>
    nonempty child (perm.mem_iff.mpr member)
  have rightApart : (right.map fun child => child.edge.head?).Nodup :=
    (perm.map _).nodup_iff.mp apart
  by_cases started : ∃ child ∈ left, child.edge.head? = key.head?
  · obtain ⟨_, member, same⟩ := started
    rw [findAmong_eq_of_mem value nonempty apart member same,
      findAmong_eq_of_mem value rightNonempty rightApart (perm.mem_iff.mp member) same]
  have elsewhere : ∀ child ∈ left, child.edge.head? ≠ key.head? := fun child member same =>
    started ⟨child, member, same⟩
  rw [findAmong_eq_none value nonempty elsewhere,
    findAmong_eq_none value rightNonempty fun child member =>
      elsewhere child (perm.mem_iff.mpr member)]

theorem findAmong_congr (edges : left.map edge = right.map edge)
    (answers : left.map (fun child => child.find value) = right.map fun child => child.find value)
    (key : List α) : findAmong value left key = findAmong value right key := by
  induction left generalizing right with
  | nil =>
    obtain rfl : right = [] := by simpa using edges.symm
    rfl
  | cons first rest induction =>
    cases right with
    | nil => simp at edges
    | cons =>
      simp only [map_cons, cons.injEq] at edges answers
      rw [findAmong, findAmong, edges.1, answers.1, induction edges.2 answers.2]

end Find

end RadixNode
end Foundation
