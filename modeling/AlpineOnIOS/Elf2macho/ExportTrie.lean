import AlpineOnIOS.Foundation.ExchangeSort
import AlpineOnIOS.Foundation.RadixTree
import AlpineOnIOS.Elf2macho.Format
import Mathlib.Data.List.Induction

/-!
# The export trie of `elf2macho`

The trie is built by inserting names one at a time, splitting edges where names part, and sorted by
edge afterwards.  Insertion is an update of the name-to-offset map that the trie represents, and
sorting does not change that map.
-/

namespace AlpineOnIOS.Elf2macho

open Foundation RadixNode List

/-- The fields of `struct trie_node` besides its edge and its children. -/
structure TriePayload where
  isTerminal : Bool
  symOffset : Nat
  fileOffset : Nat
  deriving DecidableEq

/-- `struct trie_node`; the root has an empty edge. -/
abbrev TrieNode := RadixNode CChar TriePayload

/-- `trie_new`: a node as `calloc` leaves it. -/
def trieNew (edge : CString) (children : List TrieNode) : TrieNode :=
  .node edge { isTerminal := false, symOffset := 0, fileOffset := 0 } children

/-- Length of the longest common prefix, the inner `while` of `trie_insert`. -/
def commonLength : CString → CString → Nat
  | e :: edge, p :: name => if e = p then commonLength edge name + 1 else 0
  | _, _ => 0

/-- The last two statements of `trie_insert`. -/
def markTerminal (symOff : Nat) : TrieNode → TrieNode
  | .node edge payload children =>
    .node edge { payload with isTerminal := true, symOffset := symOff } children

/-- The matched child of a round of `trie_insert`: descend along the whole edge, or split it. -/
def advance (descend : TrieNode → CString → TrieNode) (p : CString) (c : TrieNode) : TrieNode :=
  let common := commonLength c.edge p
  if common = c.edge.length then
    descend c (p.drop common)
  else
    descend (trieNew (c.edge.take common) [c.withEdge (c.edge.drop common)]) (p.drop common)

/-- One round of `trie_insert`, which goes on with `descend` in the selected child. -/
def insertAmong (descend : TrieNode → CString → TrieNode) (p : CString) :
    List TrieNode → List TrieNode
  | [] => [descend (trieNew p []) []]
  | c :: rest =>
    if c.edge.head? ≠ p.head? then
      c :: insertAmong descend p rest
    else
      advance descend p c :: rest

/-- The loop of `trie_insert`.  Every round consumes at least one character of the name. -/
def trieInsertLoop (symOff : Nat) : Nat → TrieNode → CString → TrieNode
  | _, current, [] => markTerminal symOff current
  | 0, current, _ :: _ => current
  | fuel + 1, .node edge payload children, p :: name =>
    .node edge payload (insertAmong (trieInsertLoop symOff fuel) (p :: name) children)

def trieInsert (root : TrieNode) (name : CString) (symOff : Nat) : TrieNode :=
  trieInsertLoop symOff name.length root name

/-- `strcmp(left, right) < 0`. -/
def strcmpLess : CString → CString → Bool
  | [], [] => false
  | [], _ :: _ => true
  | _ :: _, [] => false
  | left :: lefts, right :: rights =>
    if left.val < right.val then true
    else if right.val < left.val then false
    else strcmpLess lefts rights

mutual

/-- `trie_sort_children`; the edges that it compares are not touched by the recursive calls. -/
def trieSortChildren : TrieNode → TrieNode
  | .node edge payload children =>
    .node edge payload
      (ExchangeSort.sort (fun left right => strcmpLess left.edge right.edge)
        (trieSortEach children))

/-- The recursive calls of `trie_sort_children`. -/
def trieSortEach : List TrieNode → List TrieNode
  | [] => []
  | child :: rest => trieSortChildren child :: trieSortEach rest

end

/-- The exported offset a node stands for. -/
def TriePayload.symbol (payload : TriePayload) : Option Nat :=
  if payload.isTerminal then some payload.symOffset else none

/-- The offset that the trie below a node holds for a name. -/
def exported (node : TrieNode) (name : CString) : Option Nat := node.find TriePayload.symbol name

/-- No file offset has been assigned yet. -/
inductive Fresh : TrieNode → Prop
  | node {edge : CString} {payload : TriePayload} {children : List TrieNode}
      (unplaced : payload.fileOffset = 0) (below : ∀ child ∈ children, Fresh child) :
      Fresh (.node edge payload children)

variable (edge : CString) (name : CString)

theorem commonLength_le_edge : commonLength edge name ≤ edge.length := by
  induction edge generalizing name with
  | nil => simp [commonLength]
  | cons e edge induction =>
    cases name with
    | nil => simp [commonLength]
    | cons p name =>
      simp only [commonLength]
      split
      · simpa using induction name
      · simp

theorem take_commonLength :
    edge.take (commonLength edge name) = name.take (commonLength edge name) := by
  induction edge generalizing name with
  | nil => simp [commonLength]
  | cons e edge induction =>
    cases name with
    | nil => simp [commonLength]
    | cons p name =>
      simp only [commonLength]
      split
      · rename_i same
        simp [same, induction name]
      · simp

theorem take_commonLength_follows : edge.take (commonLength edge name) <+: name := by
  rw [take_commonLength]
  exact take_prefix _ _

variable {name}

theorem commonLength_pos {edge : CString} (nonempty : edge ≠ []) (same : edge.head? = name.head?) :
    0 < commonLength edge name := by
  cases edge with
  | nil => exact absurd rfl nonempty
  | cons e =>
    cases name with
    | nil => simp at same
    | cons p =>
      obtain rfl : e = p := by simpa using same
      simp [commonLength]

theorem follows_of_commonLength_eq {edge : CString} (whole : commonLength edge name = edge.length) :
    edge <+: name := by
  have follows := take_commonLength_follows edge name
  rwa [whole, take_length] at follows

variable (symOff : Nat)

@[simp]
theorem edge_markTerminal (node : TrieNode) : (markTerminal symOff node).edge = node.edge := by
  cases node
  rfl

theorem exported_markTerminal (node : TrieNode) (name : CString) :
    exported (markTerminal symOff node) name =
      if name = [] then some symOff else exported node name := by
  cases node with
  | node =>
    by_cases root : name = []
    · simp [exported, markTerminal, root, TriePayload.symbol]
    · simp [exported, markTerminal, find, root]

/-- What a round of insertion expects of the rounds after it. -/
structure Inserts (symOff : Nat) (name : CString) (before after : TrieNode) : Prop where
  /-- The edge to the node stays. -/
  edge : after.edge = before.edge
  /-- Edges below stay nonempty and apart. -/
  proper : after.Proper
  /-- New nodes have no offset yet. -/
  fresh : Fresh before → Fresh after
  /-- Exactly the inserted name changes. -/
  find : ∀ key, exported after key = if key = name then some symOff else exported before key

theorem inserts_markTerminal {node : TrieNode} (proper : node.Proper) :
    Inserts symOff [] node (markTerminal symOff node) where
  edge := edge_markTerminal symOff node
  proper := by
    cases proper with
    | node nonempty apart below => exact .node nonempty apart below
  fresh := by
    intro fresh
    cases fresh with
    | node unplaced below => exact .node unplaced below
  find := exported_markTerminal symOff node

variable {c : TrieNode} {common : Nat}

theorem proper_split (proper : c.Proper) (short : common < c.edge.length) :
    (trieNew (c.edge.take common) [c.withEdge (c.edge.drop common)]).Proper := by
  refine .node ?_ (by simp) ?_
  · intro child member
    obtain rfl := mem_singleton.mp member
    simp only [edge_withEdge, ne_eq, drop_eq_nil_iff]
    omega
  · intro child member
    obtain rfl := mem_singleton.mp member
    cases proper with
    | node nonempty apart below => exact .node nonempty apart below

theorem fresh_split (fresh : Fresh c) (common : Nat) :
    Fresh (trieNew (c.edge.take common) [c.withEdge (c.edge.drop common)]) := by
  refine .node rfl ?_
  intro child member
  obtain rfl := mem_singleton.mp member
  cases fresh with
  | node unplaced below => exact .node unplaced below

/-- Below a split, a name is found when it goes on with the rest of the old edge. -/
theorem exported_split (c : TrieNode) (short : common < c.edge.length) (key : CString) :
    exported (trieNew (c.edge.take common) [c.withEdge (c.edge.drop common)]) key =
      if c.edge.drop common <+: key then exported c (key.drop (c.edge.length - common))
      else none := by
  by_cases root : key = []
  · have remainder : c.edge.drop common ≠ [] := by
      simp only [ne_eq, drop_eq_nil_iff]
      omega
    rw [if_neg (by simpa [root] using remainder), root]
    simp [exported, trieNew, TriePayload.symbol]
  · rw [exported, find_of_ne_nil _ _ root]
    simp only [trieNew, children_node]
    rw [findAmong, edge_withEdge, find_withEdge, length_drop, findAmong]
    rfl

/-- What is found through one child. -/
def exportedThrough (c : TrieNode) (key : CString) : Option Nat :=
  if c.edge <+: key then exported c (key.drop c.edge.length) else none

theorem exportedThrough_split (short : common < c.edge.length) (key : CString) :
    exportedThrough (trieNew (c.edge.take common) [c.withEdge (c.edge.drop common)]) key =
      exportedThrough c key := by
  have taken : (c.edge.take common).length = common := by
    rw [length_take]
    omega
  have whole : c.edge = c.edge.take common ++ c.edge.drop common :=
    (take_append_drop common c.edge).symm
  have total : c.edge.length = common + (c.edge.length - common) := by omega
  rw [exportedThrough, exportedThrough, exported_split c short]
  simp only [trieNew, edge_node, taken]
  by_cases follows : c.edge.take common <+: key
  · obtain ⟨tail, rfl⟩ := follows
    have goes_on : c.edge <+: c.edge.take common ++ tail ↔ c.edge.drop common <+: tail := by
      nth_rewrite 1 [whole]
      exact prefix_append_right_inj _
    have dropped : (c.edge.take common ++ tail).drop common = tail := by
      rw [drop_append_of_le_length (by omega), drop_eq_nil_of_le (by omega), nil_append]
    have dropped_all : (c.edge.take common ++ tail).drop c.edge.length =
        tail.drop (c.edge.length - common) := by
      rw [total, ← drop_drop, dropped, ← total]
    rw [if_pos (prefix_append _ _), dropped, dropped_all, if_congr goes_on rfl rfl]
  · rw [if_neg follows, if_neg]
    intro runs
    exact follows ((List.take_prefix common c.edge).trans runs)

section Round

variable {symOff : Nat} {p : CString} {descend : TrieNode → CString → TrieNode}

/-- The scan either appends a new child or advances the first child with the name's first
character. -/
theorem insertAmong_cases (children : List TrieNode) :
    (∀ c ∈ children, c.edge.head? ≠ p.head?) ∧
        insertAmong descend p children = children ++ [descend (trieNew p []) []] ∨
      ∃ before c after, children = before ++ c :: after ∧ c.edge.head? = p.head? ∧
        insertAmong descend p children = before ++ advance descend p c :: after := by
  induction children with
  | nil => exact Or.inl ⟨by simp, rfl⟩
  | cons c rest induction =>
    by_cases same : c.edge.head? = p.head?
    · refine Or.inr ⟨[], c, rest, rfl, same, ?_⟩
      simp [insertAmong, same]
    have scanned : insertAmong descend p (c :: rest) = c :: insertAmong descend p rest := by
      simp [insertAmong, same]
    rcases induction with ⟨elsewhere, appended⟩ | ⟨before, d, after, rfl, found, advanced⟩
    · refine Or.inl ⟨?_, by rw [scanned, appended, cons_append]⟩
      intro d member
      rcases mem_cons.mp member with rfl | member
      · exact same
      · exact elsewhere d member
    · refine Or.inr ⟨c :: before, d, after, rfl, found, ?_⟩
      rw [scanned, advanced, cons_append]

/-- Two proper lists of siblings that differ in one child answer alike for other keys. -/
theorem findAmong_update {children before after : List TrieNode} {key : CString}
    (same : c.edge.head? = p.head?) (nonempty : c.edge ≠ [])
    (split : children = before ++ c :: after) (elsewhere : key.head? ≠ p.head?) :
    findAmong TriePayload.symbol children key =
      findAmong TriePayload.symbol (before ++ after) key := by
  rw [split]
  apply findAmong_skip _ nonempty
  rw [same]
  exact Ne.symm elsewhere

/-- What a round leaves of the children. -/
structure InsertsAmong (symOff : Nat) (p : CString) (before after : List TrieNode) : Prop where
  nonempty : ∀ c ∈ after, c.edge ≠ []
  apart : (after.map fun c => c.edge.head?).Nodup
  proper : ∀ c ∈ after, c.Proper
  fresh : (∀ c ∈ before, Fresh c) → ∀ c ∈ after, Fresh c
  find : ∀ key, findAmong TriePayload.symbol after key =
    if key = p then some symOff else findAmong TriePayload.symbol before key

variable (descends : ∀ current rest, rest.length < p.length → current.Proper →
    Inserts symOff rest current (descend current rest))

include descends

/-- Descending along an edge that the name follows inserts the name below it. -/
theorem descend_spec {d : TrieNode} (nonempty : d.edge ≠ []) (proper : d.Proper)
    (follows : d.edge <+: p) :
    (descend d (p.drop d.edge.length)).edge = d.edge ∧
      (descend d (p.drop d.edge.length)).Proper ∧
        (Fresh d → Fresh (descend d (p.drop d.edge.length))) ∧
          ∀ key, exportedThrough (descend d (p.drop d.edge.length)) key =
            if key = p then some symOff else exportedThrough d key := by
  obtain ⟨rest, rfl⟩ := follows
  have edge_pos := length_pos_iff.mpr nonempty
  have dropped : (d.edge ++ rest).drop d.edge.length = rest := drop_left
  have inserted := descends d rest (by simp only [length_append]; omega) proper
  rw [dropped]
  refine ⟨inserted.edge, inserted.proper, inserted.fresh, ?_⟩
  intro key
  rw [exportedThrough, exportedThrough, inserted.edge]
  by_cases runs : d.edge <+: key
  · obtain ⟨_, rfl⟩ := runs
    rw [if_pos (prefix_append _ _), if_pos (prefix_append _ _), drop_left, inserted.find]
    simp only [append_cancel_left_eq]
  · have differs : key ≠ d.edge ++ rest := by
      rintro rfl
      exact runs (prefix_append _ _)
    rw [if_neg runs, if_neg runs, if_neg differs]

theorem advance_spec (nonempty : c.edge ≠ []) (proper : c.Proper) (same : c.edge.head? = p.head?) :
    (advance descend p c).edge ≠ [] ∧ (advance descend p c).edge.head? = p.head? ∧
      (advance descend p c).Proper ∧ (Fresh c → Fresh (advance descend p c)) ∧
        ∀ key, exportedThrough (advance descend p c) key =
          if key = p then some symOff else exportedThrough c key := by
  have common_pos := commonLength_pos nonempty same
  by_cases whole : commonLength c.edge p = c.edge.length
  · obtain ⟨edge_eq, inserted, fresh, find⟩ :=
      descend_spec descends nonempty proper (follows_of_commonLength_eq whole)
    have advanced : advance descend p c = descend c (p.drop c.edge.length) := by
      simp [advance, whole]
    rw [advanced, edge_eq]
    exact ⟨nonempty, same, inserted, fresh, find⟩
  have short := Nat.lt_of_le_of_ne (commonLength_le_edge c.edge p) whole
  have taken : (c.edge.take (commonLength c.edge p)).length = commonLength c.edge p := by
    rw [length_take]
    omega
  have taken_ne : c.edge.take (commonLength c.edge p) ≠ [] := by
    intro none
    rw [none] at taken
    simp at taken
    omega
  obtain ⟨edge_eq, inserted, fresh, find⟩ :=
    descend_spec (d := trieNew (c.edge.take (commonLength c.edge p))
        [c.withEdge (c.edge.drop (commonLength c.edge p))]) descends taken_ne
      (proper_split proper short) (take_commonLength_follows c.edge p)
  simp only [trieNew, edge_node, taken] at edge_eq inserted fresh find
  simp only [advance, if_neg whole, trieNew, edge_eq]
  refine ⟨taken_ne, ?_, inserted, fun old => fresh (fresh_split old _), ?_⟩
  · rw [← same, head?_take, if_neg (by omega)]
  · intro key
    rw [find key]
    exact congrArg _ (exportedThrough_split short key)

theorem insertAmong_append {children : List TrieNode} (p_ne : p ≠ [])
    (nonempty : ∀ c ∈ children, c.edge ≠ []) (apart : (children.map fun c => c.edge.head?).Nodup)
    (proper : ∀ c ∈ children, c.Proper) (elsewhere : ∀ c ∈ children, c.edge.head? ≠ p.head?) :
    InsertsAmong symOff p children (children ++ [descend (trieNew p []) []]) := by
  have created := descends (trieNew p []) [] (length_pos_iff.mpr p_ne)
    (.node (by simp) (by simp) (by simp))
  have created_edge : (descend (trieNew p []) []).edge = p := created.edge
  generalize descend (trieNew p []) [] = new at created created_edge
  have all_nonempty : ∀ c ∈ children ++ [new], c.edge ≠ [] := by
    intro c member
    rcases mem_append.mp member with old | last
    · exact nonempty c old
    · obtain rfl := mem_singleton.mp last
      rwa [created_edge]
  have all_apart : ((children ++ [new]).map fun c => c.edge.head?).Nodup := by
    simp only [map_append, map_cons, map_nil, created_edge]
    refine List.Nodup.append apart (nodup_singleton _) ?_
    intro head old last
    obtain ⟨c, member, rfl⟩ := mem_map.mp old
    exact elsewhere c member (mem_singleton.mp last)
  refine ⟨all_nonempty, all_apart, ?_, ?_, ?_⟩
  · intro c member
    rcases mem_append.mp member with old | last
    · exact proper c old
    · obtain rfl := mem_singleton.mp last
      exact created.proper
  · intro fresh c member
    rcases mem_append.mp member with old | last
    · exact fresh c old
    · obtain rfl := mem_singleton.mp last
      exact created.fresh (.node rfl (by simp))
  · intro key
    by_cases same : key.head? = p.head?
    · have new_head : new.edge.head? = key.head? := by rw [created_edge, same]
      have old_none : findAmong TriePayload.symbol children key = none :=
        findAmong_eq_none _ nonempty fun c member => by
          rw [same]
          exact elsewhere c member
      rw [findAmong_eq_of_mem _ all_nonempty all_apart (by simp) new_head, old_none, created_edge]
      by_cases follows : p <+: key
      · obtain ⟨tail, rfl⟩ := follows
        have found := created.find tail
        rw [exported] at found
        rw [if_pos (prefix_append _ _), drop_left, found]
        by_cases last : tail = []
        · simp [last]
        · rw [if_neg last, if_neg (by simpa using last), exported, find_of_ne_nil _ _ last]
          simp [trieNew, findAmong]
      · rw [if_neg follows, if_neg]
        rintro rfl
        exact follows (prefix_refl _)
    · have differs : key ≠ p := fun equal => same (by rw [equal])
      have new_same : new.edge.head? = p.head? := by rw [created_edge]
      rw [if_neg differs, findAmong_update new_same (by rwa [created_edge]) rfl same, append_nil]

theorem insertAmong_advance {before after : List TrieNode}
    (nonempty : ∀ d ∈ before ++ c :: after, d.edge ≠ [])
    (apart : ((before ++ c :: after).map fun d => d.edge.head?).Nodup)
    (proper : ∀ d ∈ before ++ c :: after, d.Proper) (same : c.edge.head? = p.head?) :
    InsertsAmong symOff p (before ++ c :: after) (before ++ advance descend p c :: after) := by
  have member : c ∈ before ++ c :: after := by simp
  obtain ⟨new_nonempty, new_head, new_proper, new_fresh, new_find⟩ :=
    advance_spec descends (nonempty c member) (proper c member) same
  generalize advance descend p c = new at new_nonempty new_head new_proper new_fresh new_find
  have replaced : ∀ holds : TrieNode → Prop, (∀ d ∈ before ++ c :: after, holds d) → holds new →
      ∀ d ∈ before ++ new :: after, holds d := by
    intro holds old new_holds d d_member
    rcases mem_append.mp d_member with front | back
    · exact old d (mem_append_left _ front)
    rcases mem_cons.mp back with rfl | back
    · exact new_holds
    · exact old d (mem_append_right _ (mem_cons_of_mem _ back))
  have all_nonempty := replaced _ nonempty new_nonempty
  have all_apart : ((before ++ new :: after).map fun d => d.edge.head?).Nodup := by
    simpa [new_head, same] using apart
  refine ⟨all_nonempty, all_apart, replaced _ proper new_proper, ?_, ?_⟩
  · intro fresh
    exact replaced _ fresh (new_fresh (fresh c member))
  · intro key
    by_cases key_same : key.head? = p.head?
    · have found := new_find key
      rw [exportedThrough, exportedThrough, exported, exported] at found
      rw [findAmong_eq_of_mem _ all_nonempty all_apart (by simp) (new_head.trans key_same.symm),
        findAmong_eq_of_mem _ nonempty apart member (same.trans key_same.symm), found]
    · have differs : key ≠ p := fun equal => key_same (by rw [equal])
      rw [if_neg differs, findAmong_update new_head new_nonempty rfl key_same,
        findAmong_update same (nonempty c member) rfl key_same]

end Round

/-- Insertion keeps the trie proper and updates exactly the inserted name. -/
theorem trieInsertLoop_spec (symOff fuel : Nat) (current : TrieNode) (name : CString)
    (enough : name.length ≤ fuel) (proper : current.Proper) :
    Inserts symOff name current (trieInsertLoop symOff fuel current name) := by
  induction fuel generalizing current name with
  | zero =>
    obtain rfl : name = [] := eq_nil_of_length_eq_zero (by omega)
    rw [trieInsertLoop]
    exact inserts_markTerminal symOff proper
  | succ fuel induction =>
    cases name with
    | nil =>
      rw [trieInsertLoop]
      exact inserts_markTerminal symOff proper
    | cons p name =>
      cases proper with
      | @node edge payload children nonempty apart below =>
        have among : InsertsAmong symOff (p :: name) children
            (insertAmong (trieInsertLoop symOff fuel) (p :: name) children) := by
          have descends : ∀ current rest, rest.length < (p :: name).length →
              current.Proper → Inserts symOff rest current
                (trieInsertLoop symOff fuel current rest) :=
            fun current rest shorter proper =>
              induction current rest (by simp at shorter enough; omega) proper
          rcases insertAmong_cases children with
            ⟨elsewhere, appended⟩ | ⟨before, c, after, rfl, same, advanced⟩
          · rw [appended]
            exact insertAmong_append descends (by simp) nonempty apart below elsewhere
          · rw [advanced]
            exact insertAmong_advance descends nonempty apart below same
        rw [trieInsertLoop]
        refine ⟨rfl, .node among.nonempty among.apart among.proper, ?_, ?_⟩
        · intro fresh
          cases fresh with
          | node unplaced fresh_below => exact .node unplaced (among.fresh fresh_below)
        · intro key
          by_cases root : key = []
          · simp [root, exported]
          · rw [exported, find_of_ne_nil _ _ root, exported, find_of_ne_nil _ _ root]
            exact among.find key

variable {root : TrieNode}

/-- The insertion loop of `build_export_trie`. -/
def insertAll (entries : List (CString × Nat)) : TrieNode :=
  entries.foldl (fun root entry => trieInsert root entry.1 entry.2) (trieNew [] [])

/-- The offset of the last entry with a name. -/
def lastInsertion (entries : List (CString × Nat)) (name : CString) : Option Nat :=
  entries.foldl (fun found entry => if name = entry.1 then some entry.2 else found) none

theorem lastInsertion_concat (entries : List (CString × Nat)) (last : CString × Nat)
    (name : CString) :
    lastInsertion (entries ++ [last]) name =
      if name = last.1 then some last.2 else lastInsertion entries name :=
  foldl_append

variable {entries : List (CString × Nat)}

theorem lastInsertion_eq_none (absent : ∀ entry ∈ entries, entry.1 ≠ name) :
    lastInsertion entries name = none := by
  induction entries using reverseRecOn with
  | nil => rfl
  | append_singleton entries last induction =>
    rw [lastInsertion_concat, if_neg (Ne.symm (absent last (by simp)))]
    exact induction fun entry member => absent entry (mem_append_left _ member)

/-- The last insertion of a name is an entry that no later entry has the name of. -/
theorem lastInsertion_eq_some_iff {offset : Nat} :
    lastInsertion entries name = some offset ↔
      ∃ before after, entries = before ++ (name, offset) :: after ∧
        ∀ entry ∈ after, entry.1 ≠ name := by
  constructor
  · intro found
    induction entries using reverseRecOn with
    | nil => simp [lastInsertion] at found
    | append_singleton entries last induction =>
      rw [lastInsertion_concat] at found
      by_cases same : name = last.1
      · rw [if_pos same, Option.some.injEq] at found
        exact ⟨entries, [], by rw [same, ← found], by simp⟩
      rw [if_neg same] at found
      obtain ⟨before, after, rfl, later⟩ := induction found
      refine ⟨before, after ++ [last], by simp, ?_⟩
      intro entry member
      rcases mem_append.mp member with old | new
      · exact later entry old
      · obtain rfl := mem_singleton.mp new
        exact Ne.symm same
  · rintro ⟨_, after, rfl, later⟩
    induction after using reverseRecOn with
    | nil => simp [lastInsertion_concat]
    | append_singleton after last induction =>
      rw [← cons_append, ← append_assoc, lastInsertion_concat,
        if_neg (Ne.symm (later last (by simp)))]
      exact induction fun entry member => later entry (mem_append_left _ member)

theorem foldl_trieInsert_spec (entries : List (CString × Nat)) (proper : root.Proper)
    (fresh : Fresh root) (found : CString → Option Nat)
    (agree : ∀ name, exported root name = found name) :
    (entries.foldl (fun root entry => trieInsert root entry.1 entry.2) root).Proper ∧
      Fresh (entries.foldl (fun root entry => trieInsert root entry.1 entry.2) root) ∧
        ∀ name, exported
          (entries.foldl (fun root entry => trieInsert root entry.1 entry.2) root) name =
            entries.foldl (fun found entry => if name = entry.1 then some entry.2 else found)
              (found name) := by
  induction entries generalizing root found with
  | nil => exact ⟨proper, fresh, agree⟩
  | cons entry entries induction =>
    have inserted : Inserts entry.2 entry.1 root (trieInsert root entry.1 entry.2) :=
      trieInsertLoop_spec _ _ _ _ (Nat.le_refl _) proper
    have updated : ∀ name, exported (trieInsert root entry.1 entry.2) name =
        if name = entry.1 then some entry.2 else found name := by
      intro name
      rw [inserted.find, agree]
    exact induction inserted.proper (inserted.fresh fresh) _ updated

/-- The finished trie is proper, unplaced, and holds the last offset of every name. -/
theorem insertAll_spec (entries : List (CString × Nat)) :
    (insertAll entries).Proper ∧ Fresh (insertAll entries) ∧
      ∀ name, exported (insertAll entries) name = lastInsertion entries name := by
  refine foldl_trieInsert_spec entries ?_ ?_ (fun _ => none) ?_
  · exact .node (by simp) (by simp) (by simp)
  · exact .node rfl (by simp)
  · intro name
    by_cases root : name = []
    · simp [root, exported, trieNew, TriePayload.symbol]
    · rw [exported, find_of_ne_nil _ _ root]
      simp [trieNew, findAmong]

theorem trieSortEach_eq_map (children : List TrieNode) :
    trieSortEach children = children.map trieSortChildren := by
  induction children with
  | nil => rw [trieSortEach, map_nil]
  | cons child rest induction => rw [trieSortEach, map_cons, induction]

@[simp]
theorem edge_trieSortChildren (root : TrieNode) : (trieSortChildren root).edge = root.edge := by
  cases root
  rw [trieSortChildren]
  rfl

/-- Sorting keeps the trie proper and unplaced and does not change what it holds. -/
theorem trieSortChildren_spec (root : TrieNode) (proper : root.Proper) :
    (trieSortChildren root).Proper ∧ (Fresh root → Fresh (trieSortChildren root)) ∧
      ∀ name, exported (trieSortChildren root) name = exported root name := by
  induction root using RadixNode.childInduction with
  | step edge payload children induction =>
    have perm := ExchangeSort.sort_perm
      (fun left right : TrieNode => strcmpLess left.edge right.edge)
      (children.map trieSortChildren)
    cases proper with
    | node nonempty apart below =>
      have mapped_nonempty : ∀ c ∈ children.map trieSortChildren, c.edge ≠ [] := by
        intro c member
        obtain ⟨d, d_member, rfl⟩ := mem_map.mp member
        simpa using nonempty d d_member
      have mapped_apart : ((children.map trieSortChildren).map fun c => c.edge.head?).Nodup := by
        simpa [map_map, Function.comp_def] using apart
      rw [trieSortChildren, trieSortEach_eq_map]
      refine ⟨.node ?_ ?_ ?_, ?_, ?_⟩
      · intro c member
        exact mapped_nonempty c (perm.mem_iff.mp member)
      · exact (perm.map _).nodup_iff.mpr mapped_apart
      · intro c member
        obtain ⟨d, d_member, rfl⟩ := mem_map.mp (perm.mem_iff.mp member)
        exact (induction d d_member (below d d_member)).1
      · intro fresh
        cases fresh with
        | node unplaced fresh_below =>
          refine .node unplaced ?_
          intro c member
          obtain ⟨d, d_member, rfl⟩ := mem_map.mp (perm.mem_iff.mp member)
          exact (induction d d_member (below d d_member)).2.1 (fresh_below d d_member)
      · intro name
        by_cases root : name = []
        · simp [root, exported]
        rw [exported, find_of_ne_nil _ _ root, exported, find_of_ne_nil _ _ root,
          children_node, children_node,
          ← findAmong_perm _ perm.symm mapped_nonempty mapped_apart]
        apply findAmong_congr
        · simp [map_map, Function.comp_def]
        · rw [map_map]
          apply map_congr_left
          intro c member
          funext key
          exact (induction c member (below c member)).2.2 key

end AlpineOnIOS.Elf2macho
