import AlpineOnIOS.Dyld.Image
import AlpineOnIOS.Elf2macho.ExportTrie

/-!
# Sizing and encoding the export trie

Each sizing pass lays the nodes out in preorder, using the child offsets of the pass before. The
offsets never decrease, so two equal totals mean a fixed point, at which every node is encoded
exactly at its recorded offset.
-/

namespace AlpineOnIOS.Elf2macho

open Foundation RadixNode List Dyld Uleb TriePayload CString

def fileOffset (node : TrieNode) : Nat := node.payload.fileOffset

variable (payload : TriePayload)

/-- Bytes of the terminal part of a node in `trie_compute_sizes`. -/
def terminalSize : Nat :=
  if payload.isTerminal then
    let infoSize := ulebSize 0 + ulebSize payload.symOffset
    ulebSize infoSize + infoSize
  else
    ulebSize 0

/-- `self_size` of `trie_compute_sizes`: the node without its descendants. -/
def selfSize (children : List TrieNode) : Nat :=
  terminalSize payload + 1 +
    (children.map fun child => child.edge.length + 1 + ulebSize (fileOffset child)).sum

mutual

/-- `trie_compute_sizes`: the trie with new file offsets, and the offset behind it. -/
def trieComputeSizes : TrieNode → Nat → TrieNode × Nat
  | .node edge payload children, baseOff =>
    let placed := trieComputeSizesEach children (baseOff + selfSize payload children)
    (.node edge { payload with fileOffset := baseOff } placed.1, placed.2)

/-- The recursive calls of `trie_compute_sizes`. -/
def trieComputeSizesEach : List TrieNode → Nat → List TrieNode × Nat
  | [], off => ([], off)
  | child :: rest, off =>
    let first := trieComputeSizes child off
    let others := trieComputeSizesEach rest first.2
    (first.1 :: others.1, others.2)

end

/-- The bytes `trie_encode_node` writes for a node before its descendants. -/
def encodeSelf (payload : TriePayload) (children : List TrieNode) : List UInt8 :=
  (if payload.isTerminal then
      writeUleb (ulebSize 0 + ulebSize payload.symOffset) ++ writeUleb 0 ++
        writeUleb payload.symOffset
    else
      [0]) ++
    UInt8.ofNat children.length ::
      children.flatMap fun child => stored child.edge ++ writeUleb (fileOffset child)

mutual

def trieEncodeNode : TrieNode → List UInt8
  | .node _ payload children => encodeSelf payload children ++ trieEncodeEach children

/-- The recursive calls of `trie_encode_node`. -/
def trieEncodeEach : List TrieNode → List UInt8
  | [] => []
  | child :: rest => trieEncodeNode child ++ trieEncodeEach rest

end

/-- Result of the sizing loop: the trie, its total, and whether the loop ended by its `break`. -/
structure Sizing where
  root : TrieNode
  total : Nat
  settled : Bool

/-- The `for` loop of `build_export_trie` that repeats the sizing pass. -/
def sizingLoop : Nat → TrieNode → Nat → Sizing
  | 0, root, total => { root, total, settled := false }
  | iterations + 1, root, prevTotal =>
    let next := trieComputeSizes root 0
    if next.2 = prevTotal then
      { root := next.1, total := next.2, settled := true }
    else
      sizingLoop iterations next.1 next.2

variable (root : TrieNode)

/-- The sizing of `build_export_trie`: one pass, then at most ten more. -/
def sizeTrie : Sizing :=
  let first := trieComputeSizes root 0
  sizingLoop 10 first.1 first.2

variable (entries : List (CString × Nat))

/-- The sizing of the trie of a list of names and offsets. -/
def exportSizing : Sizing :=
  sizeTrie (trieSortChildren (insertAll entries))

/-- `build_export_trie` on prepared names, into a buffer of `total + 16` bytes. -/
def encodeExports : Option (List UInt8) :=
  let sizing := exportSizing entries
  let encoded := trieEncodeNode sizing.root
  if encoded.length ≤ sizing.total + 16 then some encoded else none

/-- The same trie with file offsets that are nowhere smaller. -/
inductive OffsetsLe : TrieNode → TrieNode → Prop
  | node {edge : CString} {payload payload' : TriePayload} {children children' : List TrieNode}
      (terminal : payload.isTerminal = payload'.isTerminal)
      (symbol : payload.symOffset = payload'.symOffset)
      (placed : payload.fileOffset ≤ payload'.fileOffset)
      (below : List.Forall₂ OffsetsLe children children') :
      OffsetsLe (.node edge payload children) (.node edge payload' children')

theorem OffsetsLe.edge_eq {left right : TrieNode} (le : OffsetsLe left right) :
    left.edge = right.edge := by
  cases le with
  | node => rfl

variable {left right : List TrieNode}

theorem selfSize_mono {payload payload' : TriePayload}
    (terminal : payload.isTerminal = payload'.isTerminal)
    (symbol : payload.symOffset = payload'.symOffset) (below : List.Forall₂ OffsetsLe left right) :
    selfSize payload left ≤ selfSize payload' right := by
  have children_le :
      (left.map fun child => child.edge.length + 1 + ulebSize (fileOffset child)).sum ≤
        (right.map fun child => child.edge.length + 1 + ulebSize (fileOffset child)).sum := by
    induction below with
    | nil => exact Nat.le_refl _
    | @cons child child' rest rest' le _ induction =>
      have code_le : ulebSize (fileOffset child) ≤ ulebSize (fileOffset child') := by
        rw [ulebSize_eq, ulebSize_eq]
        exact size_mono (by
            cases le with
            | node terminal symbol placed => exact placed)
      simp only [map_cons, sum_cons, le.edge_eq]
      omega
  simp only [selfSize, terminalSize, terminal, symbol]
  omega

/-- Larger old offsets give larger new ones, and equal ends leave no difference. -/
structure PassLe {α : Type} (le : α → α → Prop) (leftBase rightBase : Nat) (left right : α × Nat) :
    Prop where
  offsets : le left.1 right.1
  span : left.2 + rightBase ≤ right.2 + leftBase
  exact : leftBase = rightBase → left.2 = right.2 → left.1 = right.1

/-- The passes over two lists of children compare when the passes over each child do. -/
theorem trieComputeSizesEach_le
    (each : ∀ child ∈ left, ∀ other leftBase rightBase, OffsetsLe child other →
      leftBase ≤ rightBase → PassLe OffsetsLe leftBase rightBase
        (trieComputeSizes child leftBase) (trieComputeSizes other rightBase))
    (below : List.Forall₂ OffsetsLe left right) {leftBase rightBase : Nat}
    (base_le : leftBase ≤ rightBase) :
    PassLe (List.Forall₂ OffsetsLe) leftBase rightBase (trieComputeSizesEach left leftBase)
      (trieComputeSizesEach right rightBase) := by
  induction below generalizing leftBase rightBase with
  | nil =>
    rw [trieComputeSizesEach, trieComputeSizesEach]
    exact ⟨.nil, Nat.le_of_eq (Nat.add_comm _ _), fun _ _ => rfl⟩
  | @cons child child' rest rest' le _ induction =>
    have first := each child mem_cons_self child' leftBase rightBase le base_le
    have first_span := first.span
    have middle_le : (trieComputeSizes child leftBase).2 ≤
        (trieComputeSizes child' rightBase).2 := by omega
    have others := induction (fun other member => each other (mem_cons_of_mem _ member)) middle_le
    have others_span := others.span
    rw [trieComputeSizesEach, trieComputeSizesEach]
    refine ⟨.cons first.offsets others.offsets, by simp only; omega, ?_⟩
    intro bases ends
    simp only at ends
    have middles : (trieComputeSizes child leftBase).2 =
        (trieComputeSizes child' rightBase).2 := by omega
    rw [first.exact bases middles, others.exact middles ends]

theorem trieComputeSizes_le (left right : TrieNode) (leftBase rightBase : Nat)
    (le : OffsetsLe left right) (base_le : leftBase ≤ rightBase) :
    PassLe OffsetsLe leftBase rightBase (trieComputeSizes left leftBase)
      (trieComputeSizes right rightBase) := by
  induction left using childInduction generalizing right leftBase rightBase with
  | step edge payload children induction =>
    cases le with
    | @node _ _ payload' _ children' terminal symbol placed below =>
      have self_le := selfSize_mono terminal symbol below
      have each := trieComputeSizesEach_le
        (fun child member other leftBase rightBase =>
          induction child member other leftBase rightBase)
        below (Nat.add_le_add base_le self_le)
      have each_span := each.span
      rw [trieComputeSizes, trieComputeSizes]
      refine ⟨.node terminal symbol base_le each.offsets, by simp only; omega, ?_⟩
      rintro rfl ends
      simp only at ends
      have selves : leftBase + selfSize payload children =
          leftBase + selfSize payload' children' := by omega
      simp only [terminal, symbol, each.exact selves ends]

theorem offsetsLe_of_fresh (fresh : Fresh root) (base : Nat) :
    OffsetsLe root (trieComputeSizes root base).1 := by
  induction root using childInduction generalizing base with
  | step edge payload children induction =>
    cases fresh with
    | node unplaced fresh_below =>
      have each : ∀ rest off, rest ⊆ children →
          List.Forall₂ OffsetsLe rest (trieComputeSizesEach rest off).1 := by
        intro rest
        induction rest with
        | nil =>
          intro off _
          rw [trieComputeSizesEach]
          exact .nil
        | cons child rest restInduction =>
          intro off within
          obtain ⟨member, rest_within⟩ := cons_subset.mp within
          rw [trieComputeSizesEach]
          exact .cons (induction child member (fresh_below child member) off)
            (restInduction _ rest_within)
      rw [trieComputeSizes]
      exact .node rfl rfl (by simp [unplaced]) (each children _ (List.Subset.refl _))

theorem agree_of_forall₂
    (each : List.Forall₂ (fun child child' => child.edge = child'.edge ∧ child'.Proper ∧
      child.find symbol = child'.find symbol) left right) :
    left.map edge = right.map edge ∧ (∀ child ∈ right, child.Proper) ∧
      left.map (fun child => child.find symbol) =
        right.map fun child => child.find symbol := by
  induction each with
  | nil => simp
  | cons first _ induction =>
    obtain ⟨edges, propers, finds⟩ := induction
    obtain ⟨edge_eq, proper, find_eq⟩ := first
    refine ⟨by simp [edge_eq, edges], ?_, by simp [find_eq, finds]⟩
    exact forall_mem_cons.mpr ⟨proper, propers⟩

theorem OffsetsLe.keeps {left right : TrieNode} (le : OffsetsLe left right) (proper : left.Proper) :
    right.Proper ∧ ∀ name, exported right name = exported left name := by
  induction left using childInduction generalizing right with
  | step edge payload children induction =>
    cases le with
    | @node _ _ payload' _ children' terminal symbol placed below =>
      cases proper with
      | node nonempty apart proper_below =>
        have members := (forall₂_and_left children children').mpr
          ⟨fun child (member : child ∈ children) => member, below⟩
        obtain ⟨edges, propers, finds⟩ := agree_of_forall₂ (members.imp
          fun child child' ⟨member, le⟩ =>
            have kept := induction child member le (proper_below child member)
            ⟨le.edge_eq, kept.1, (funext kept.2).symm⟩)
        refine ⟨.node ?_ ?_ propers, ?_⟩
        · intro child member
          have edge_member := mem_map_of_mem (f := RadixNode.edge) member
          rw [← edges] at edge_member
          obtain ⟨old, old_member, same⟩ := mem_map.mp edge_member
          rw [← same]
          exact nonempty old old_member
        · have heads := congrArg (map head?) edges
          rw [map_map, map_map] at heads
          exact heads ▸ apart
        · intro name
          by_cases root : name = []
          · have same : payload'.symbol = payload.symbol := by
              cases payload
              cases payload'
              obtain rfl := terminal
              obtain rfl := symbol
              rfl
            simp [root, exported, same]
          · rw [exported, find_of_ne_nil _ _ root, exported, find_of_ne_nil _ _ root]
            exact findAmong_congr _ edges.symm finds.symm name

theorem sizingLoop_spec (iterations : Nat) (earlier root : TrieNode) (total : Nat)
    (le : OffsetsLe earlier root) (pass : trieComputeSizes earlier 0 = (root, total))
    (proper : root.Proper) (settled : (sizingLoop iterations root total).settled = true) :
    trieComputeSizes (sizingLoop iterations root total).root 0 =
        ((sizingLoop iterations root total).root, (sizingLoop iterations root total).total) ∧
      (sizingLoop iterations root total).root.Proper ∧
        ∀ name, exported (sizingLoop iterations root total).root name = exported root name := by
  induction iterations generalizing earlier root total with
  | zero => simp [sizingLoop] at settled
  | succ iterations induction =>
    have next := trieComputeSizes_le earlier root 0 0 le (Nat.le_refl 0)
    rw [pass] at next
    have next_le := next.offsets
    obtain ⟨next_proper, next_exported⟩ := next_le.keeps proper
    simp only [sizingLoop] at settled ⊢
    by_cases stable : (trieComputeSizes root 0).2 = total
    · have unmoved : root = (trieComputeSizes root 0).1 := next.exact rfl stable.symm
      simp only [if_pos stable]
      refine ⟨?_, next_proper, next_exported⟩
      rw [← unmoved, stable, ← stable]
      exact Prod.ext unmoved.symm rfl
    · simp only [if_neg stable] at settled ⊢
      obtain ⟨fixed, proper', exported'⟩ :=
        induction root (trieComputeSizes root 0).1 (trieComputeSizes root 0).2 next_le rfl
          next_proper settled
      exact ⟨fixed, proper', fun name => (exported' name).trans (next_exported name)⟩

/-- A settled sizing is a fixed point of the pass and holds the last offset of every name. -/
theorem exportSizing_spec (settled : (exportSizing entries).settled = true) :
    trieComputeSizes (exportSizing entries).root 0 =
        ((exportSizing entries).root, (exportSizing entries).total) ∧
      (exportSizing entries).root.Proper ∧
        ∀ name, exported (exportSizing entries).root name = lastInsertion entries name := by
  obtain ⟨proper, fresh, inserted⟩ := insertAll_spec entries
  obtain ⟨sorted_proper, sorted_fresh, sorted⟩ := trieSortChildren_spec _ proper
  have first_le := offsetsLe_of_fresh _ (sorted_fresh fresh) 0
  obtain ⟨first_proper, first_exported⟩ := first_le.keeps sorted_proper
  obtain ⟨fixed, fixed_proper, fixed_exported⟩ :=
    sizingLoop_spec 10 _ _ _ first_le rfl first_proper settled
  refine ⟨fixed, fixed_proper, ?_⟩
  intro name
  exact (fixed_exported name).trans
    ((first_exported name).trans ((sorted name).trans (inserted name)))

theorem length_writeUleb (v : Nat) : (writeUleb v).length = ulebSize v := by
  rw [writeUleb_eq, ulebSize_eq, size]

theorem length_encodeSelf (payload : TriePayload) (children : List TrieNode) :
    (encodeSelf payload children).length = selfSize payload children := by
  have records : (children.flatMap fun child =>
      stored child.edge ++ writeUleb (fileOffset child)).length =
        (children.map fun child => child.edge.length + 1 + ulebSize (fileOffset child)).sum := by
    simp [length_writeUleb]
  rw [encodeSelf, selfSize, terminalSize, length_append, length_cons, records]
  split
  · simp only [length_append, length_writeUleb]
    omega
  · rw [length_singleton, ulebSize_eq, size_of_lt (by omega)]
    omega

/-- Every node is found in the bytes at its file offset, and no child sits at offset zero. -/
inductive Located (bytes : List UInt8) : TrieNode → Prop
  | node {edge : CString} {payload : TriePayload} {children : List TrieNode}
      (here : encodeSelf payload children <+: bytes.drop payload.fileOffset)
      (placed : ∀ child ∈ children, fileOffset child ≠ 0)
      (below : ∀ child ∈ children, Located bytes child) : Located bytes (.node edge payload children)

/-- What a fixed pass over one trie says about its encoding. -/
structure FixedAt (root : TrieNode) (off stop : Nat) : Prop where
  offset : fileOffset root = off
  stop : stop = off + (trieEncodeNode root).length
  located : ∀ bytes, trieEncodeNode root <+: bytes.drop off → Located bytes root

/-- What a fixed pass over a list of siblings says about their encodings. -/
structure FixedAlong (siblings : List TrieNode) (start stop : Nat) : Prop where
  after : ∀ child ∈ siblings, start ≤ fileOffset child
  stop : stop = start + (trieEncodeEach siblings).length
  located : ∀ bytes, trieEncodeEach siblings <+: bytes.drop start →
    ∀ child ∈ siblings, Located bytes child

theorem fixedAlong_of_fixed {siblings : List TrieNode}
    (each : ∀ child ∈ siblings, ∀ off stop, trieComputeSizes child off = (child, stop) →
      FixedAt child off stop) {start : Nat}
    (fixed : (trieComputeSizesEach siblings start).1 = siblings) :
    FixedAlong siblings start (trieComputeSizesEach siblings start).2 := by
  induction siblings generalizing start with
  | nil =>
    rw [trieComputeSizesEach]
    exact ⟨by simp, rfl, by simp⟩
  | cons child rest induction =>
    rw [trieComputeSizesEach] at fixed ⊢
    simp only [cons.injEq] at fixed
    have first_fixed : trieComputeSizes child start =
        (child, (trieComputeSizes child start).2) := Prod.ext fixed.1 rfl
    have first := each child mem_cons_self _ _ first_fixed
    have others := induction (fun other member => each other (mem_cons_of_mem _ member)) fixed.2
    have first_stop := first.stop
    have others_stop := others.stop
    refine ⟨?_, ?_, ?_⟩
    · intro other member
      rcases mem_cons.mp member with rfl | member
      · exact Nat.le_of_eq first.offset.symm
      · have after := others.after other member
        omega
    · rw [trieEncodeEach, length_append]
      omega
    · intro bytes encoded other member
      rw [trieEncodeEach] at encoded
      obtain ⟨_, layout⟩ := encoded
      rw [append_assoc] at layout
      rcases mem_cons.mp member with rfl | member
      · exact first.located bytes (layout ▸ prefix_append _ _)
      refine others.located bytes ?_ other member
      rw [first_stop, ← drop_drop, ← layout, drop_left]
      exact prefix_append _ _

theorem fixedAt_of_fixed (off stop : Nat)
    (fixed : trieComputeSizes root off = (root, stop)) : FixedAt root off stop := by
  induction root using childInduction generalizing off stop with
  | step edge payload children induction =>
    rw [trieComputeSizes] at fixed
    simp only [Prod.mk.injEq, node.injEq, true_and] at fixed
    obtain ⟨⟨recorded, unmoved⟩, _⟩ := fixed
    have offset_eq : payload.fileOffset = off := by rw [← recorded]
    have below := fixedAlong_of_fixed
      (fun child member off stop => induction child member off stop) unmoved
    have below_stop := below.stop
    have self_pos : 0 < selfSize payload children := by
      rw [selfSize]
      omega
    refine ⟨offset_eq, ?_, ?_⟩
    · rw [trieEncodeNode, length_append, length_encodeSelf]
      omega
    · intro bytes encoded
      rw [trieEncodeNode] at encoded
      obtain ⟨_, layout⟩ := encoded
      rw [append_assoc] at layout
      refine .node ?_ ?_ ?_
      · rw [offset_eq, ← layout]
        exact prefix_append _ _
      · intro child member
        have after := below.after child member
        omega
      · apply below.located bytes
        rw [← drop_drop, ← layout, ← length_encodeSelf, drop_left]
        exact prefix_append _ _

variable {children : List TrieNode}

/-- Sibling edges start with different characters, so the child count fits its byte. -/
theorem length_children_le (nonempty : ∀ child ∈ children, child.edge ≠ [])
    (apart : (children.map fun child => child.edge.head?).Nodup) : children.length ≤ 255 := by
  let code : Option CChar → Nat := fun head => (head.elim 0 Subtype.val : UInt8).toNat
  have code_injective : Function.Injective code := by
    intro left right same
    have same_byte : (left.elim 0 Subtype.val : UInt8) = right.elim 0 Subtype.val :=
      UInt8.toNat_inj.mp same
    cases left with
    | none =>
      cases right with
      | none => rfl
      | some right => exact absurd same_byte.symm right.property
    | some left =>
      cases right with
      | none => exact absurd same_byte left.property
      | some => exact congrArg some (Subtype.ext same_byte)
  have none_apart : (none :: children.map fun child => child.edge.head?).Nodup := by
    rw [nodup_cons]
    refine ⟨?_, apart⟩
    intro member
    obtain ⟨child, child_member, headless⟩ := mem_map.mp member
    exact nonempty child child_member (head?_eq_none_iff.mp headless)
  have within : (none :: children.map fun child => child.edge.head?).map code ⊆ range 256 := by
    intro value member
    obtain ⟨head, _, rfl⟩ := mem_map.mp member
    rw [mem_range]
    cases head with
    | none => exact Nat.succ_pos 255
    | some char => exact char.val.toNat_lt
  have count := (subperm_of_subset (none_apart.map code_injective) within).length_le
  simp only [length_map, length_cons, length_range] at count
  omega

/-- Scanning the encoded child records follows the trie's own choice of a child. -/
theorem selectChild_encoded (trie behind : List UInt8) (fuel : Nat)
    (name : CString) (placed : ∀ child ∈ children, fileOffset child ≠ 0)
    (walks : ∀ child ∈ children, child.edge <+: name →
      trieWalk trie fuel (fileOffset child) (name.drop child.edge.length) =
        exported child (name.drop child.edge.length)) :
    (selectChild children.length
        ((children.flatMap fun child =>
          stored child.edge ++ writeUleb (fileOffset child)) ++ behind) name).bind
        (fun selected => trieWalk trie fuel selected.1 selected.2) =
      findAmong symbol children name := by
  induction children with
  | nil => rw [findAmong]; rfl
  | cons child rest induction =>
    rw [flatMap_cons, length_cons, append_assoc, append_assoc,
      selectChild, parse_stored_append]
    simp only [Option.bind_eq_bind, Option.bind_some, writeUleb_eq, decode_encode_append]
    by_cases follows : child.edge <+: name
    · rw [if_pos follows, if_neg (placed child mem_cons_self), findAmong_cons_of_follows _ follows]
      exact walks child mem_cons_self follows
    · rw [if_neg follows, findAmong_cons_of_departs _ follows]
      simp only [← writeUleb_eq]
      exact induction (fun other member => placed other (mem_cons_of_mem _ member))
        (fun other member => walks other (mem_cons_of_mem _ member))

theorem trieWalk_encodeSelf {trie behind : List UInt8} {payload : TriePayload} {offset : Nat}
    (layout : encodeSelf payload children ++ behind = trie.drop offset) (fuel : Nat)
    (name : CString) :
    trieWalk trie (fuel + 1) offset name =
      if name = [] ∧ payload.isTerminal = true then
        some payload.symOffset
      else
        (selectChild (UInt8.ofNat children.length).toNat
          ((children.flatMap fun child =>
            stored child.edge ++ writeUleb (fileOffset child)) ++ behind) name).bind
          fun selected => trieWalk trie fuel selected.1 selected.2 := by
  have info_length : (encode 0 ++ encode payload.symOffset).length =
      size 0 + size payload.symOffset := length_append
  have info_pos : size 0 + size payload.symOffset ≠ 0 := by
    have first := size_pos 0
    omega
  have blank : ∀ bytes, decode (0 :: bytes) = some (0, bytes) := fun _ => rfl
  rw [trieWalk, ← layout, encodeSelf]
  cases payload.isTerminal with
  | true =>
    simp only [if_true, append_assoc, writeUleb_eq, ulebSize_eq, Option.bind_eq_bind,
      decode_encode_append, Option.bind_some, info_pos, and_true, cons_append, ne_eq,
      not_false_eq_true]
    by_cases done : name = []
    · simp [done, terminalAddress, decode_encode_append]
    · rw [if_neg done, if_neg done, ← append_assoc, ← info_length, drop_left]
  | false =>
    simp only [cons_append, nil_append, Option.bind_eq_bind, blank, Option.bind_some,
      drop_zero, Bool.false_eq_true, and_false, ne_eq, not_true_eq_false, if_false]

/-- The loader's walk over located bytes finds exactly what the trie holds. -/
theorem trieWalk_eq_exported (trie : List UInt8) (root : TrieNode) (located : Located trie root)
    (proper : root.Proper) (fuel : Nat) (name : CString) (enough : name.length < fuel) :
    trieWalk trie fuel (fileOffset root) name = exported root name := by
  induction root using childInduction generalizing fuel name with
  | step edge payload children induction =>
    cases located with
    | node here placed located_below =>
      cases proper with
      | node nonempty apart proper_below =>
        cases fuel with
        | zero => omega
        | succ fuel =>
          have count : (UInt8.ofNat children.length).toNat = children.length := by
            have small := length_children_le nonempty apart
            rw [UInt8.toNat_ofNat']
            omega
          have walks : ∀ child ∈ children, child.edge <+: name →
              trieWalk trie fuel (fileOffset child) (name.drop child.edge.length) =
                exported child (name.drop child.edge.length) := by
            intro child member follows
            apply induction child member (located_below child member) (proper_below child member)
            have edge_pos := length_pos_iff.mpr (nonempty child member)
            have shorter := follows.length_le
            rw [length_drop]
            omega
          obtain ⟨behind, layout⟩ := here
          rw [fileOffset, payload_node, trieWalk_encodeSelf layout, count,
            selectChild_encoded trie behind fuel name placed walks]
          by_cases root : name = []
          · have no_child : findAmong symbol children [] = none := by
              apply findAmong_eq_none _ nonempty
              intro child member headless
              exact nonempty child member (head?_eq_none_iff.mp headless)
            simp only [root, no_child, exported, find_nil, payload_node, true_and]
            rfl
          · rw [if_neg (fun both => root both.1), exported, find_of_ne_nil _ _ root]
            rfl

/-- Settled bytes fill the computed total, and the loader finds every last offset in them. -/
theorem encodeExports_lookup (settled : (exportSizing entries).settled = true) :
    ∃ encoded, encodeExports entries = some encoded ∧
      encoded.length = (exportSizing entries).total ∧
        ∀ name, trieLookup encoded name = lastInsertion entries name := by
  obtain ⟨fixed, proper, holds⟩ := exportSizing_spec entries settled
  have placed := fixedAt_of_fixed _ _ _ fixed
  have total := placed.stop
  have located := placed.located (trieEncodeNode (exportSizing entries).root) (prefix_refl _)
  refine ⟨trieEncodeNode (exportSizing entries).root, ?_, by omega, ?_⟩
  · rw [encodeExports, if_pos (by omega)]
  · intro name
    rw [trieLookup, ← holds name, ← placed.offset]
    exact trieWalk_eq_exported _ _ located proper _ name (Nat.lt_succ_self _)

/-- The trie answers for exactly the names of the list, with the offsets of their last entries. -/
theorem encodeExports_sound_complete (entries : List (CString × Nat))
    (settled : (exportSizing entries).settled = true) :
    ∃ encoded, encodeExports entries = some encoded ∧
      encoded.length = (exportSizing entries).total ∧
        (∀ name offset, trieLookup encoded name = some offset ↔
          ∃ before after, entries = before ++ (name, offset) :: after ∧
            ∀ entry ∈ after, entry.1 ≠ name) ∧
          ∀ name, (∀ entry ∈ entries, entry.1 ≠ name) → trieLookup encoded name = none := by
  obtain ⟨encoded, built, length, lookup⟩ := encodeExports_lookup entries settled
  refine ⟨encoded, built, length, ?_, ?_⟩
  · intro name offset
    rw [lookup, lastInsertion_eq_some_iff]
  · intro name absent
    rw [lookup]
    exact lastInsertion_eq_none absent

/-- Names that share prefixes, one of them inserted twice. -/
def sampleExports : List (CString × Nat) :=
  [(ofLiteral "_pthread_join", 0x4100), (ofLiteral "_pthread_self", 0x4200),
    (ofLiteral "_pthread", 0x4300), (ofLiteral "_read", 0x8000),
    (ofLiteral "_pthread_join", 0x4180)]

theorem encodeExports_sound_complete_sample :
    (exportSizing sampleExports).settled = true ∧
      ∃ encoded, encodeExports sampleExports = some encoded ∧
        encoded.length = (exportSizing sampleExports).total ∧
          (∀ name offset, trieLookup encoded name = some offset ↔
            ∃ before after, sampleExports = before ++ (name, offset) :: after ∧
              ∀ entry ∈ after, entry.1 ≠ name) ∧
            ∀ name, (∀ entry ∈ sampleExports, entry.1 ≠ name) → trieLookup encoded name = none := by
  have settled : (exportSizing sampleExports).settled = true := by decide +kernel
  exact ⟨settled, encodeExports_sound_complete sampleExports settled⟩

end AlpineOnIOS.Elf2macho
