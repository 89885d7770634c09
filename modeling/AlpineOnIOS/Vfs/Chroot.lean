import AlpineOnIOS.Vfs.Path

/-!
# Resolution in a changed root

The reference semantics walks along components from the root directory of the guest and replaces a
link by its target. `vfs_resolve_rw` keeps the remaining components in a buffer, where those of
the next target are written over its front.
-/

namespace AlpineOnIOS.Vfs

open Foundation List Component Components Resolution

/-- The components that an iteration sees. -/
def Resolution.names (state : Resolution) : List CString :=
  state.components.val.map (Component.read state.store)

/-- Take a component inside a root, where `link` gives the targets of the links. -/
def chrootEnter (link : Location → Option CString) (place : Location) (name : CString) :
    Move Location CString Unit :=
  if name = here then .reach place
  else if name = up then .reach place.tail
  else
    match link (name :: place) with
    | some target => .via (if target.head? = some slash then [] else place) (tokens target)
    | none => .reach (name :: place)

variable {name : CString} {link : Location → Option CString} {place next start : Location}
  {names : List CString}

theorem chrootEnter_eq_reach (moved : chrootEnter link place name = .reach next) :
    (name = here ∧ next = place) ∨ (name = up ∧ next = place.tail) ∨
      (name ≠ here ∧ name ≠ up ∧ link (name :: place) = none ∧ next = name :: place) := by
  rw [chrootEnter] at moved
  split at moved
  · rename_i isHere
    cases moved
    exact .inl ⟨isHere, rfl⟩
  rename_i notHere
  split at moved
  · rename_i isUp
    cases moved
    exact .inr (.inl ⟨isUp, rfl⟩)
  rename_i notUp
  split at moved
  · cases moved
  rename_i notLink
  cases moved
  exact .inr (.inr ⟨notHere, notUp, notLink, rfl⟩)

theorem chrootEnter_eq_via (moved : chrootEnter link place name = .via start names) :
    name ≠ here ∧ name ≠ up ∧ ∃ target, link (name :: place) = some target ∧
      start = (if target.head? = some slash then [] else place) ∧ names = tokens target := by
  rw [chrootEnter] at moved
  split at moved
  · cases moved
  rename_i notHere
  split at moved
  · cases moved
  rename_i notUp
  split at moved
  · rename_i target found
    cases moved
    exact ⟨notHere, notUp, target, found, rfl, rfl⟩
  · cases moved

theorem chrootEnter_ne_fail (error : Unit) : chrootEnter link place name ≠ .fail error := by
  rw [chrootEnter]
  split
  · simp
  split
  · simp
  · split <;> simp

/-- The links below a directory of the host. -/
def linksBelow (host : Host) (base : CString) (place : Location) : Option CString :=
  match host.descend base with
  | .ok reached => host.tree.linkAt (place ++ reached.2)
  | .error _ => none

/-- The components of a guest path that lead somewhere. -/
def guestNames (path : CString) : List CString := (tokens path).filter (· ≠ here)

variable (base : CString)

/-- The host path of a place in the guest's root. -/
def placePath (place : Location) : CString := base ++ render place.reverse

/-- The host path that a walk in the guest's root leads to. -/
def chrootOutcome : Except Unit (Nat × Location) → Option CString
  | .ok reached => some (placePath base reached.2)
  | .error _ => none

/-- The reference resolution of a guest path. -/
def chrootResolve (vfs : VfsT) (host : Host) (path : CString) : Option CString :=
  chrootOutcome vfs.rootfs.val
    (walk (chrootEnter (linksBelow host vfs.rootfs.val)) () 40 [] (guestNames path))

/-- Components that come from splitting a path. -/
def Split (names : List CString) : Prop := ∀ name ∈ names, name ≠ [] ∧ slash ∉ name

/-- No link stands on the way to a place. -/
def NoLinks (link : Location → Option CString) : Location → Prop
  | [] => True
  | name :: place => link (name :: place) = none ∧ NoLinks link place

theorem split_tokens (path : CString) : Split (tokens path) := fun _ member => of_mem_tokens member

variable {rest : List CString}

theorem Split.isName (split : Split (name :: rest)) (notHere : name ≠ here) (notUp : name ≠ up) :
    IsName name :=
  ⟨(split name mem_cons_self).1, (split name mem_cons_self).2, notHere, notUp⟩

theorem Split.tail (split : Split (name :: rest)) :
    Split rest := fun other member => split other (mem_cons_of_mem _ member)

theorem Split.append {front back : List CString} (front_split : Split front)
    (back_split : Split back) : Split (front ++ back) := fun name member =>
  (mem_append.mp member).elim (front_split name) (back_split name)

variable {base} {host : Host}

theorem linkFree_of_noLinks {left : Nat} {root : Location}
    (based : host.descend base = .ok (left, root))
    (noLinks : NoLinks (linksBelow host base) place) :
    host.tree.LinkFree root place.reverse := by
  induction place with
  | nil => trivial
  | cons name place induction =>
    have first : host.tree.linkAt (name :: place ++ root) = none := by
      simpa only [linksBelow, based] using noLinks.1
    rw [reverse_cons, Tree.linkFree_append, reverse_reverse]
    exact ⟨induction noLinks.2, first, trivial⟩

theorem placePath_cons (base : CString) (name : CString) (place : Location) :
    placePath base (name :: place) = placePath base place ++ slash :: name := by
  rw [placePath, reverse_cons, render_concat, ← append_assoc, placePath]

theorem linkTarget_placePath (noLinks : NoLinks (linksBelow host base) place)
    (isName : ∀ name ∈ place, IsName name) (last : IsName name) :
    host.linkTarget (placePath base (name :: place)) = linksBelow host base (name :: place) := by
  have names := isName_reverse isName
  have plain : ∀ name ∈ place.reverse, slash ∉ name := fun name member => (names name member).plain
  have whole : place.reverse.filter (!·.isEmpty) = place.reverse := by
    rw [filter_eq_self]
    intro name member
    simpa using (names name member).nonempty
  cases based : host.descend base with
  | ok =>
    have linkFree := linkFree_of_noLinks based noLinks
    rw [← whole] at names linkFree
    rw [linksBelow, based, placePath, reverse_cons,
      Host.linkTarget_linkFree based plain names linkFree last, whole, reverse_reverse]
    rfl
  | error =>
    have located := host.locate_append_slash (placePath base place) last.plain
    rw [placePath, host.descend_append_render base plain, based] at located
    rw [linksBelow, based, Host.linkTarget, Host.lstat, placePath_cons, placePath, located]
    rfl

/-- Strings one behind the other, each with its terminator. -/
def storeStrings (names : List CString) : Store := names.flatMap storeString

/-- The places of strings that stand one behind the other. -/
def offsetsFrom : Nat → List CString → List Nat
  | _, [] => []
  | offset, name :: rest => offset :: offsetsFrom (offset + (storeString name).length) rest

/-- The strings that `copyBack` reads. -/
def readAll (store : Store) : Store → List Component → List CString
  | _, [] => []
  | written, component :: rest =>
    let name := component.read (written ++ store.drop written.length)
    name :: readAll store (written ++ storeString name) rest

variable {written : Store} {offset : Nat} {store : Store} {front back : List CString}

@[simp]
theorem storeStrings_nil : storeStrings [] = [] := rfl

@[simp]
theorem storeStrings_cons (name : CString) (names : List CString) :
    storeStrings (name :: names) = storeString name ++ storeStrings names := rfl

variable (front)

@[simp]
theorem storeStrings_append (back : List CString) :
    storeStrings (front ++ back) = storeStrings front ++ storeStrings back := flatMap_append

theorem append_isPrefix_iff {first second bytes : Store} :
    first ++ second <+: bytes ↔ first <+: bytes ∧ second <+: bytes.drop first.length := by
  constructor
  · rintro ⟨_, rfl⟩
    rw [append_assoc, drop_left]
    exact ⟨prefix_append _ _, prefix_append _ _⟩
  · rintro ⟨⟨_, rfl⟩, second⟩
    rw [drop_left] at second
    exact (prefix_append_right_inj first).mpr second

theorem takeString_of_storeString (front : storeString name <+: store) :
    takeString store = name := by
  obtain ⟨after, rfl⟩ := front
  induction name with
  | nil => rfl
  | cons char rest induction => exact congrArg (char :: ·) induction

theorem storeString_takeString (terminated : none ∈ store) :
    storeString (takeString store) <+: store := by
  induction store with
  | nil => cases terminated
  | cons byte rest induction =>
    cases byte with
    | none => exact ⟨rest, rfl⟩
    | some char =>
      have inRest : none ∈ rest := by simpa using terminated
      exact prefix_cons_inj (some char) |>.mpr (induction inRest)

theorem takeString_append (terminated : none ∈ store) (after : Store) :
    takeString (store ++ after) = takeString store :=
  takeString_of_storeString ((storeString_takeString terminated).trans (prefix_append _ _))

theorem offsetsFrom_length (offset : Nat) (names : List CString) :
    (offsetsFrom offset names).length = names.length := by
  induction names generalizing offset with
  | nil => rfl
  | cons name names induction => exact congrArg (· + 1) (induction _)

theorem read_offsetsFrom (layout : storeStrings names <+: store.drop offset) :
    ((offsetsFrom offset names).map stored).map (read store) = names := by
  induction names generalizing offset with
  | nil => rfl
  | cons name names induction =>
    obtain ⟨first, others⟩ := append_isPrefix_iff.mp layout
    rw [drop_drop] at others
    simp [offsetsFrom, Component.read, takeString_of_storeString first, induction others]

variable {components : List Component}

theorem copyBack_eq (store : Store) (components : List Component)
    (short : written.length ≤ pathMax) :
    copyBack store written components =
      let names := readAll store written components
      if written.length + (storeStrings names).length ≤ pathMax then
        some (written ++ storeStrings names ++ store.drop (written.length + (storeStrings names).length),
          offsetsFrom written.length names)
      else none := by
  induction components generalizing written with
  | nil => simp [copyBack, readAll, offsetsFrom, short]
  | cons component rest induction =>
    rw [copyBack, readAll]
    generalize component.read (written ++ store.drop written.length) = name
    simp only [storeStrings_cons, length_append, offsetsFrom]
    split
    · rename_i fits
      have short : (written ++ storeString name).length ≤ pathMax := by
        rw [length_append]
        exact fits
      rw [induction short]
      simp only [length_append, Nat.add_assoc, append_assoc]
      split <;> rfl
    · rename_i tooLong
      rw [if_neg (by omega)]

theorem readAll_tokens (components : List Component) :
    readAll store written (front.map .token ++ components) =
      front ++ readAll store (written ++ storeStrings front) components := by
  induction front generalizing written with
  | nil => simp
  | cons name front induction => simp [readAll, Component.read, induction]

theorem readAll_stored_behind (behind : written.length ≤ offset)
    (layout : storeStrings names <+: store.drop offset) :
    readAll store written ((offsetsFrom offset names).map .stored) = names := by
  induction names generalizing written offset with
  | nil => rfl
  | cons name names induction =>
    obtain ⟨first, others⟩ := append_isPrefix_iff.mp layout
    rw [drop_drop] at others
    have untouched : (written ++ store.drop written.length).drop offset = store.drop offset := by
      rw [drop_append, drop_eq_nil_of_le behind, nil_append, drop_drop, Nat.add_sub_cancel' behind]
    have behind : (written ++ storeString name).length ≤ offset + (storeString name).length := by
      rw [length_append]
      omega
    simp [offsetsFrom, readAll, Component.read, untouched, takeString_of_storeString first,
      induction behind others]

theorem readAll_stored_inside (inside : offset < written.length)
    (terminated : written.getLast? = some none) :
    readAll store written ((offsetsFrom offset names).map .stored) = names ↔
      storeStrings names <+: (written ++ storeStrings names).drop offset := by
  induction names generalizing written offset with
  | nil => simp [readAll, offsetsFrom]
  | cons name names induction =>
    have ended : none ∈ written.drop offset := by
      refine mem_of_getLast? ?_
      rw [getLast?_drop, if_neg (by omega), terminated]
    have cut : ∀ after : Store, (written ++ after).drop offset = written.drop offset ++ after :=
      fun after => drop_append_of_le_length (Nat.le_of_lt inside)
    -- The string that is read ends in the part that is already written.
    have first : takeString (written.drop offset) = name ↔
        storeString name <+: (written ++ storeStrings (name :: names)).drop offset := by
      rw [cut]
      constructor
      · rintro rfl
        exact (storeString_takeString ended).trans (prefix_append _ _)
      · intro front
        rw [← takeString_append ended, takeString_of_storeString front]
    have others : readAll store (written ++ storeString name)
          ((offsetsFrom (offset + (storeString name).length) names).map .stored) = names ↔
        storeStrings names <+: ((written ++ storeString name) ++ storeStrings names).drop
          (offset + (storeString name).length) := by
      refine induction ?_ ?_
      · rw [length_append]
        omega
      · rw [storeString, ← append_assoc, getLast?_concat]
    rw [append_assoc, ← storeStrings_cons, ← drop_drop] at others
    rw [storeStrings_cons, append_isPrefix_iff, ← storeStrings_cons, ← first, ← others]
    simp only [offsetsFrom, map_cons, readAll, Component.read, cut,
      takeString_append ended, cons.injEq]
    exact and_congr_right fun same => by rw [same]

/-- The limits on the host path, the target of a link, and the components that a link leaves. -/
def WithinLimits (link : Location → Option CString) (base : CString)
    (taken : Taken Location CString) : Prop :=
  taken.name ≠ here → taken.name ≠ up →
    (placePath base (taken.name :: taken.place)).length < pathMax ∧
      ∀ target ∈ link (taken.name :: taken.place),
        target.length < pathMax ∧ (tokens target ++ taken.rest).length ≤ 255 ∧
          (storeStrings (tokens target ++ taken.rest)).length ≤ pathMax
  deriving Decidable

/-- Behind a second link the remaining components are not overwritten by its target. -/
def Survives (first second : List CString × List CString) : Prop :=
  let offset := (storeStrings (first.1 ++ first.2)).length - (storeStrings second.2).length
  (storeStrings second.1).length ≤ offset ∨
    storeStrings second.2 <+: (storeStrings (second.1 ++ second.2)).drop offset
  deriving Decidable

/-- Tokens in front of the first link, and behind it the end of the list that it has left. -/
inductive Holds (names : List CString) (state : Resolution) :
    Option (List CString × List CString) → Prop
  | tokens (list : state.components.val = names.map .token) : Holds names state none
  | stored {last : List CString × List CString} {consumed : List CString}
      (split : last.1 ++ last.2 = consumed ++ names)
      (list : state.components.val =
        (offsetsFrom (storeStrings consumed).length names).map .stored)
      (layout : storeStrings (consumed ++ names) <+: state.store) : Holds names state (some last)

variable {last : Option (List CString × List CString)} {state : Resolution}

theorem Holds.names_eq {names : List CString} (holds : Holds names state last) :
    state.names = names := by
  cases holds with
  | tokens list =>
    rw [Resolution.names, list, map_map]
    exact map_id'' (fun _ => rfl) names
  | stored split list layout =>
    rw [storeStrings_append, append_isPrefix_iff] at layout
    rw [Resolution.names, list, read_offsetsFrom layout.2]

variable {rest : List CString} {name : CString}

section

variable (holds : Holds (name :: rest) state last)

include holds

theorem Holds.first :
    ∃ component ∈ state.components.val.head?, component.read state.store = name := by
  have read := holds.names_eq
  rw [names, map_eq_cons_iff] at read
  obtain ⟨component, _, split, readName, -⟩ := read
  exact ⟨component, by simp [split], readName⟩

theorem Holds.tail (resolved : PathBuffer) :
    Holds rest { state with resolved, components := state.components.tail } last := by
  cases holds with
  | tokens list =>
    refine .tokens ?_
    simp [Components.tail, list]
  | stored split list layout =>
    rename_i consumed
    have shifted : consumed ++ name :: rest = (consumed ++ [name]) ++ rest := by simp
    refine .stored (split.trans shifted) ?_ (shifted ▸ layout)
    simp [Components.tail, list, offsetsFrom]

/-- The remaining components are read back unchanged exactly if they survive. -/
theorem Holds.readAll_iff (front : List CString) :
    readAll state.store (storeStrings front) state.components.tail.val = rest ↔
      ∀ previous ∈ last, Survives previous (front, rest) := by
  cases holds with
  | tokens list =>
    have others : state.components.tail.val = rest.map .token ++ [] := by
      simp [Components.tail, list]
    rw [others, readAll_tokens]
    simp [readAll]
  | stored split list layout =>
    rename_i last consumed
    have shifted : consumed ++ name :: rest = (consumed ++ [name]) ++ rest := by simp
    have others : state.components.tail.val =
        (offsetsFrom (storeStrings (consumed ++ [name])).length rest).map .stored := by
      simp [Components.tail, list, offsetsFrom]
    rw [shifted, storeStrings_append, append_isPrefix_iff] at layout
    have offset : (storeStrings (last.1 ++ last.2)).length - (storeStrings rest).length =
        (storeStrings (consumed ++ [name])).length := by
      rw [split, shifted, storeStrings_append, length_append, Nat.add_sub_cancel]
    simp only [Option.mem_some_iff, forall_eq', Survives, offset]
    rw [others]
    by_cases behind : (storeStrings front).length ≤ (storeStrings (consumed ++ [name])).length
    · simp only [readAll_stored_behind behind layout.2, behind, true_or]
    have ended : (storeStrings front).getLast? = some none := by
      cases shape : front.reverse with
      | nil =>
        obtain rfl := reverse_eq_nil_iff.mp shape
        simp at behind
      | cons =>
        obtain rfl := reverse_eq_cons_iff.mp shape
        simp [storeString]
    rw [or_iff_right behind, storeStrings_append front rest]
    exact readAll_stored_inside (Nat.not_le.mp behind) ended

end

/-- The state of the loop where the reference has come to a place with some names left. -/
structure Tracks (vfs : VfsT) (host : Host) (state : Resolution)
    (last : Option (List CString × List CString)) (links : Nat) (place : Location)
    (names : List CString) : Prop where
  resolved : state.resolved.val = placePath vfs.rootfs.val place
  isName : ∀ name ∈ place, IsName name
  noLinks : NoLinks (linksBelow host vfs.rootfs.val) place
  split : Split names
  depth : state.depth + links = 40
  holds : Holds names state last

/-- From a state on the loop sees the components of the reference and returns its path. -/
structure Follows (vfs : VfsT) (host : Host) (state : Resolution) (links : Nat) (place : Location)
    (names : List CString) : Prop where
  components :
    (walkTrace (chrootEnter (linksBelow host vfs.rootfs.val)) links place names).map
        (fun taken => taken.name :: taken.rest) <+:
      (trace (resolveStep vfs host) (state.bound + 1) state).map Resolution.names
  result : (resolveFrom vfs host state).map Subtype.val =
    chrootOutcome vfs.rootfs.val
      (walk (chrootEnter (linksBelow host vfs.rootfs.val)) () links place names)

variable {vfs : VfsT} {host : Host} {following : Resolution} {links left : Nat}
  {place next start : Location} {names : List CString}

theorem follows_next (holds : Holds (name :: rest) state last)
    (stepped : resolveStep vfs host state = .next following)
    (traced : walkTrace (chrootEnter (linksBelow host vfs.rootfs.val)) links place (name :: rest) =
      { place, name, rest } ::
        walkTrace (chrootEnter (linksBelow host vfs.rootfs.val)) left next names)
    (walked : walk (chrootEnter (linksBelow host vfs.rootfs.val)) () links place (name :: rest) =
      walk (chrootEnter (linksBelow host vfs.rootfs.val)) () left next names) :
    Follows vfs host state links place (name :: rest) ↔
      Follows vfs host following left next names := by
  have passed := trace_next (resolveStep_decreases vfs host) stepped
  have returned : resolveFrom vfs host state = resolveFrom vfs host following :=
    runLoop_next (resolveStep_decreases vfs host) stepped
  constructor
  · rintro ⟨components, result⟩
    rw [traced, passed, map_cons, map_cons, holds.names_eq] at components
    rw [walked, returned] at result
    exact ⟨(prefix_cons_inj _).mp components, result⟩
  · rintro ⟨components, result⟩
    constructor
    · rw [traced, passed, map_cons, map_cons, holds.names_eq]
      exact (prefix_cons_inj _).mpr components
    · rw [walked, returned]
      exact result

variable {target : CString}

theorem followLink_names {remaining : Components} (short : target.length < pathMax)
    (read : tokens target ++ readAll state.store (storeStrings (tokens target)) remaining.val =
      names) :
    followLink vfs state remaining target = some following ↔
      state.depth < 40 ∧ (tokens target).length + remaining.val.length ≤ 255 ∧
        (storeStrings names).length ≤ pathMax ∧
        following.store = storeStrings names ++ state.store.drop (storeStrings names).length ∧
        following.components.val = (offsetsFrom 0 names).map .stored ∧
        following.resolved = (if target.head? = some slash then vfs.rootfs else state.resolved) ∧
        following.depth = state.depth + 1 := by
  have whole : (truncate target).val = target :=
    take_of_length_le (by rw [pathMax] at short ⊢; omega)
  have copies : copyBack state.store [] ((tokens target).map .token ++ remaining.val) = _ :=
    copyBack_eq state.store _ (Nat.zero_le _)
  simp only [readAll_tokens, nil_append, length_nil, Nat.zero_add, read] at copies
  rw [followLink_eq_some, whole, copies, length_append, length_map]
  split
  · rename_i fits
    simp only [Option.some.injEq, Prod.mk.injEq, and_assoc, exists_eq_left', fits, true_and,
      exists_and_left]
    rw [eq_comm (a := following.store)]
  · rename_i tooLong
    simp [tooLong]

theorem holds_following {front back : List CString}
    (store : storeStrings (front ++ back) <+: following.store)
    (components : following.components.val = (offsetsFrom 0 (front ++ back)).map .stored) :
    Holds (front ++ back) following (some (front, back)) := by
  have split : front ++ back = [] ++ (front ++ back) := rfl
  exact .stored split components store

theorem isChain_last (front back : List CString) (others : List (List CString × List CString)) :
    (last.toList ++ (front, back) :: others).IsChain Survives ↔
      (∀ previous ∈ last, Survives previous (front, back)) ∧
        ((some (front, back)).toList ++ others).IsChain Survives := by
  cases last with
  | none => simp
  | some => simp [isChain_cons_cons]

namespace Tracks

theorem next_special (tracks : Tracks vfs host state last links place (name :: rest))
    {resolved : PathBuffer} (there : resolved.val = placePath vfs.rootfs.val next)
    (suffix : next <:+ place) (noLinks : NoLinks (linksBelow host vfs.rootfs.val) next) :
    Tracks vfs host { state with resolved, components := state.components.tail } last links next
      rest :=
  { resolved := there
    isName := fun other member => tracks.isName other (suffix.subset member)
    noLinks
    split := tracks.split.tail
    depth := tracks.depth
    holds := tracks.holds.tail resolved }

theorem noLinks_tail {link : Location → Option CString} (noLinks : NoLinks link place) :
    NoLinks link place.tail := by
  cases place with
  | nil => trivial
  | cons => exact noLinks.2

theorem dropComponent_eq (tracks : Tracks vfs host state last links place names) :
    (dropComponent vfs.rootfs.val.length state.resolved).val =
      placePath vfs.rootfs.val place.tail := by
  have there := tracks.resolved
  cases place with
  | nil =>
    rw [dropComponent_root (by simp [there, placePath])]
    exact there
  | cons name =>
    rw [placePath, reverse_cons] at there
    exact dropComponent_render there (tracks.isName name mem_cons_self).plain
      (by simp [length_append])

end Tracks

theorem Holds.length_tail (holds : Holds (name :: rest) state last) :
    state.components.tail.val.length = rest.length := by
  have read := congrArg length holds.names_eq
  rw [names, length_map, length_cons] at read
  rw [Components.tail, List.length_tail, read, Nat.add_sub_cancel]

section

variable (limits : WithinLimits (linksBelow host vfs.rootfs.val) vfs.rootfs.val { place, name, rest })

include limits

section

variable (tracks : Tracks vfs host state last links place (name :: rest))

include tracks

theorem Tracks.ahead (notHere : name ≠ here) (notUp : name ≠ up) :
    IsName name ∧ state.resolved.val ++ slash :: name = placePath vfs.rootfs.val (name :: place) ∧
      (state.resolved.val ++ slash :: name).length < pathMax ∧
        host.linkTarget (state.resolved.val ++ slash :: name) =
          linksBelow host vfs.rootfs.val (name :: place) := by
  have isName := tracks.split.isName notHere notUp
  rw [tracks.resolved, ← placePath_cons]
  exact ⟨isName, rfl, (limits notHere notUp).1,
    linkTarget_placePath tracks.noLinks tracks.isName isName⟩

/-- The name that an iteration takes leads on, in the code as in the reference. -/
theorem Tracks.next_reach
    (moved : chrootEnter (linksBelow host vfs.rootfs.val) place name = .reach next) :
    ∃ following, resolveStep vfs host state = .next following ∧
      Tracks vfs host following last links next rest := by
  obtain ⟨component, first, read⟩ := tracks.holds.first
  rcases chrootEnter_eq_reach moved with ⟨isHere, rfl⟩ | ⟨isUp, rfl⟩ |
    ⟨notHere, notUp, notLink, rfl⟩
  · exact ⟨_, resolveStep_eq_next.mpr ⟨component, first, .here (read.trans isHere)⟩,
      tracks.next_special tracks.resolved suffix_rfl tracks.noLinks⟩
  · exact ⟨_, resolveStep_eq_next.mpr ⟨component, first, .up (read.trans isUp)⟩,
      tracks.next_special tracks.dropComponent_eq (tail_suffix place)
        (noLinks_tail tracks.noLinks)⟩
  obtain ⟨isName, hostPath, fits, found⟩ := tracks.ahead limits notHere notUp
  rw [notLink] at found
  subst read
  refine ⟨_, resolveStep_eq_next.mpr ⟨component, first, .plain notHere notUp fits found⟩, ?_⟩
  exact
    { resolved := hostPath
      isName := forall_mem_cons.mpr ⟨isName, tracks.isName⟩
      noLinks := ⟨notLink, tracks.noLinks⟩
      split := tracks.split.tail
      depth := tracks.depth
      holds := tracks.holds.tail _ }

theorem Tracks.step_via
    (notHere : name ≠ here) (notUp : name ≠ up)
    (found : linksBelow host vfs.rootfs.val (name :: place) = some target) :
    resolveStep vfs host state =
      match followLink vfs state state.components.tail target with
      | some following => .next following
      | none => .exit none := by
  obtain ⟨_, first, read⟩ := tracks.holds.first
  obtain ⟨_, list⟩ := head?_eq_some_iff.mp first
  obtain ⟨-, -, fits, link⟩ := tracks.ahead limits notHere notUp
  rw [found] at link
  rw [resolveStep, list]
  cases followed : followLink vfs state state.components.tail target with
  | none | some => simp only [read, if_neg notHere, if_neg notUp, dif_pos fits, link, followed]

end

section

variable (tracks : Tracks vfs host state last (links + 1) place (name :: rest))
  (notHere : name ≠ here) (notUp : name ≠ up)
  (found : linksBelow host vfs.rootfs.val (name :: place) = some target)

include tracks notHere notUp found

/-- With the remaining components intact the link is followed as in the reference. -/
theorem Tracks.next_via (survives : ∀ previous ∈ last, Survives previous (tokens target, rest)) :
    ∃ following, resolveStep vfs host state = .next following ∧
      Tracks vfs host following (some (tokens target, rest)) links
        (if target.head? = some slash then [] else place) (tokens target ++ rest) := by
  obtain ⟨short, few, fits⟩ := (limits notHere notUp).2 target found
  have count : ((offsetsFrom 0 (tokens target ++ rest)).map stored).length ≤ 255 := by
    rw [length_map, offsetsFrom_length]
    exact few
  have depth := tracks.depth
  let following : Resolution :=
    { resolved := if target.head? = some slash then vfs.rootfs else state.resolved
      components := ⟨(offsetsFrom 0 (tokens target ++ rest)).map .stored, count⟩
      store := storeStrings (tokens target ++ rest) ++
        state.store.drop (storeStrings (tokens target ++ rest)).length
      depth := state.depth + 1 }
  have followed : followLink vfs state state.components.tail target = some following := by
    refine (followLink_names short (congrArg (tokens target ++ ·)
      ((tracks.holds.readAll_iff _).mpr survives))).mpr ⟨by omega, ?_, fits, rfl, rfl, rfl, rfl⟩
    rw [tracks.holds.length_tail, ← length_append]
    exact few
  refine ⟨following, ?_, ?_⟩
  · rw [tracks.step_via limits notHere notUp found, followed]
  · refine
      { resolved := ?_
        isName := ?_
        noLinks := ?_
        split := (split_tokens target).append tracks.split.tail
        depth := by change state.depth + 1 + links = 40; omega
        holds := holds_following (prefix_append _ _) rfl }
    · change (if target.head? = some slash then vfs.rootfs else state.resolved).val = _
      split
      · simp [placePath]
      · exact tracks.resolved
    · split
      · simp
      · exact tracks.isName
    · split
      · trivial
      · exact tracks.noLinks

/-- Where the remaining components are overwritten the loop goes on with others. -/
theorem Tracks.not_follows
    (traced : walkTrace (chrootEnter (linksBelow host vfs.rootfs.val)) (links + 1) place
        (name :: rest) = { place, name, rest } ::
      walkTrace (chrootEnter (linksBelow host vfs.rootfs.val)) links start (tokens target ++ rest))
    (follows : Follows vfs host state (links + 1) place (name :: rest)) :
    ∀ previous ∈ last, Survives previous (tokens target, rest) := by
  have short := ((limits notHere notUp).2 target found).1
  have components := follows.components
  have stepped := tracks.step_via limits notHere notUp found
  cases shape : tokens target ++ rest with
  | nil =>
    obtain ⟨-, rfl⟩ := append_eq_nil_iff.mp shape
    exact fun previous _ => .inr nil_prefix
  | cons =>
    cases followed : followLink vfs state state.components.tail target with
    | none =>
      rw [followed] at stepped
      have lengths := components.length_le
      rw [traced, trace_exit stepped, shape] at lengths
      cases links <;> simp [walkTrace, traceList] at lengths
    | some following =>
      rw [followed] at stepped
      rw [traced, trace_next (resolveStep_decreases vfs host) stepped, shape, map_cons,
        map_cons, tracks.holds.names_eq, prefix_cons_inj] at components
      have seen : following.names = tokens target ++ rest := by
        obtain ⟨_, same⟩ := components
        have heads := congrArg head? same
        rw [shape]
        cases links <;> simpa [walkTrace, traceList, trace] using heads.symm
      obtain ⟨-, -, -, store, list, -⟩ := (followLink_names short rfl).mp followed
      have layout : storeStrings _ <+: following.store.drop 0 :=
        ⟨state.store.drop _, store.symm⟩
      rw [names, list, read_offsetsFrom layout] at seen
      exact (tracks.holds.readAll_iff _).mp (append_cancel_left seen)

end

end

/-- The loop follows the reference as long as the remaining components survive each link. -/
theorem follows_iff (tracks : Tracks vfs host state last links place names)
    (limits : ∀ taken ∈ walkTrace (chrootEnter (linksBelow host vfs.rootfs.val)) links place names,
      WithinLimits (linksBelow host vfs.rootfs.val) vfs.rootfs.val taken) :
    Follows vfs host state links place names ↔
      (last.toList ++ expansions (chrootEnter (linksBelow host vfs.rootfs.val)) links place
        names).IsChain Survives := by
  induction links, place, names using walk_induction (chrootEnter (linksBelow host vfs.rootfs.val))
    generalizing state last with
  | nil links place =>
    have empty : state.components.val = [] := map_eq_nil_iff.mp tracks.holds.names_eq
    have returned : resolveFrom vfs host state = some state.resolved :=
      runLoop_exit _ (resolveStep_eq_exit_some.mpr ⟨empty, rfl⟩)
    have follows : Follows vfs host state links place [] := by
      refine ⟨by simp, ?_⟩
      rw [returned, walk_nil, Option.map_some, tracks.resolved]
      rfl
    have chain : (last.toList ++ expansions (chrootEnter (linksBelow host vfs.rootfs.val)) links
        place []).IsChain Survives := by
      cases last <;> simp
    exact iff_of_true follows chain
  | reach links place name rest next moved induction =>
    rw [walkTrace_reach moved, forall_mem_cons] at limits
    obtain ⟨_, stepped, tracking⟩ := tracks.next_reach limits.1 moved
    rw [follows_next tracks.holds stepped (walkTrace_reach moved) (walk_reach moved),
      expansions_reach moved]
    exact induction tracking limits.2
  | viaZero place name rest start expanded moved =>
    obtain ⟨notHere, notUp, target, found, -, -⟩ := chrootEnter_eq_via moved
    rw [walkTrace_via_zero moved, forall_mem_singleton] at limits
    have depth := tracks.depth
    have refused : followLink vfs state state.components.tail target = none := by
      rw [followLink, if_pos (by omega)]
    have stepped := tracks.step_via limits notHere notUp found
    rw [refused] at stepped
    have returned : resolveFrom vfs host state = none := runLoop_exit _ stepped
    have follows : Follows vfs host state 0 place (name :: rest) := by
      constructor
      · rw [walkTrace_via_zero moved, trace_exit stepped]
        simp [tracks.holds.names_eq]
      · rw [returned, walk_via_zero moved]
        rfl
    have chain : (last.toList ++ expansions (chrootEnter (linksBelow host vfs.rootfs.val)) 0
        place (name :: rest)).IsChain Survives := by
      rw [expansions_via_zero moved]
      cases last <;> simp
    exact iff_of_true follows chain
  | via links place name rest start expanded moved induction =>
    obtain ⟨notHere, notUp, target, found, rfl, rfl⟩ := chrootEnter_eq_via moved
    rw [walkTrace_via moved, forall_mem_cons] at limits
    rw [expansions_via moved, isChain_last]
    by_cases survives : ∀ previous ∈ last, Survives previous (tokens target, rest)
    · obtain ⟨_, stepped, tracking⟩ :=
        tracks.next_via limits.1 notHere notUp found survives
      rw [follows_next tracks.holds stepped (walkTrace_via moved) (walk_via moved),
        and_iff_right survives]
      exact induction tracking limits.2
    · refine iff_of_false (fun follows => survives ?_) fun chain => survives chain.1
      exact tracks.not_follows limits.1 notHere notUp found (walkTrace_via moved) follows
  | fail links place name rest error moved => exact absurd moved (chrootEnter_ne_fail error)

/-- The components that the iterations for a normalised path see. -/
def componentLists (vfs : VfsT) (host : Host) (base : PathBuffer) (pathbuf : CString) :
    List (List CString) :=
  match ofList ((tokens pathbuf).map .token) with
  | some components =>
    let state : Resolution := { resolved := base, components, store := [], depth := 0 }
    (trace (resolveStep vfs host) (state.bound + 1) state).map Resolution.names
  | none => []

/-- `vfs_resolve` goes on behind every link with the remaining components unchanged. -/
structure FollowsChroot (vfs : VfsT) (host : Host) (guestPath : PathBuffer) : Prop where
  components :
    (walkTrace (chrootEnter (linksBelow host vfs.rootfs.val)) 40 [] (guestNames guestPath.val)).map
        (fun taken => taken.name :: taken.rest) <+:
      componentLists vfs host vfs.rootfs (vfsNormalizePath [slash] guestPath.val).val
  result : (vfsResolve vfs host guestPath).map Subtype.val =
    chrootResolve vfs host guestPath.val

theorem normalNames_eq_guestNames {path : CString} (noParent : up ∉ tokens path) :
    normalNames path = guestNames path := by
  have general : ∀ (names components : List CString), up ∉ names →
      names.foldl pushComponent components = (names.filter (· ≠ here)).reverse ++ components := by
    intro names
    induction names with
    | nil => exact fun components _ => rfl
    | cons name names induction =>
      intro components noParent
      rw [mem_cons, not_or] at noParent
      rw [foldl_cons, induction _ noParent.2, pushComponent, if_neg (Ne.symm noParent.1)]
      by_cases isHere : name = here
      · simp [isHere]
      · simp [isHere]
  rw [normalNames, general _ _ noParent, append_nil, reverse_reverse, guestNames]

/-- The code follows the reference exactly if the components survive every link but the first. -/
theorem followsChroot_iff {vfs : VfsT} {host : Host} {guestPath : PathBuffer}
    (noOverlay : vfs.overlay.val = [])
    (unmounted : vfsFindMount vfs.mounts guestPath.val = none)
    (noParent : up ∉ tokens guestPath.val) (uncut : Uncut guestPath.val)
    (few : (guestNames guestPath.val).length ≤ 255)
    (limits : ∀ taken ∈ walkTrace (chrootEnter (linksBelow host vfs.rootfs.val)) 40 []
        (guestNames guestPath.val),
      WithinLimits (linksBelow host vfs.rootfs.val) vfs.rootfs.val taken) :
    FollowsChroot vfs host guestPath ↔
      (expansions (chrootEnter (linksBelow host vfs.rootfs.val)) 40 []
        (guestNames guestPath.val)).IsChain Survives := by
  have names : tokens (vfsNormalizePath [slash] guestPath.val).val = guestNames guestPath.val := by
    rw [tokens_vfsNormalizePath guestPath.property uncut, normalNames_eq_guestNames noParent]
  have count : ((guestNames guestPath.val).map token).length ≤ 255 := by
    rw [length_map]
    exact few
  let state : Resolution :=
    { resolved := vfs.rootfs, components := ⟨_, count⟩, store := [], depth := 0 }
  have listed : ofList ((tokens (vfsNormalizePath [slash] guestPath.val).val).map
      token) = some state.components := by
    rw [names]
    exact ofList_eq_some.mpr rfl
  have resolved : vfsResolve vfs host guestPath = resolveFrom vfs host state := by
    rw [vfsResolve, vfsResolveRw_unmounted unmounted]
    simp only [chooseBase_noOverlay noOverlay]
    rw [resolveNormalized, listed]
    rfl
  have tracks : Tracks vfs host state none 40 [] (guestNames guestPath.val) :=
    { resolved := by simp [state, placePath]
      isName := by simp
      noLinks := trivial
      split := fun name member => of_mem_tokens (mem_of_mem_filter member)
      depth := rfl
      holds := .tokens rfl }
  have follows : FollowsChroot vfs host guestPath ↔
      Follows vfs host state 40 [] (guestNames guestPath.val) := by
    constructor
    · rintro ⟨components, result⟩
      rw [componentLists, listed] at components
      rw [resolved] at result
      exact ⟨components, result⟩
    · rintro ⟨components, result⟩
      constructor
      · rw [componentLists, listed]
        exact components
      · rw [resolved]
        exact result
  rw [follows, follows_iff tracks limits]
  rfl

/-- A file system with the default mounts and no overlay. -/
def plainVfs : VfsT :=
  { rootfs := truncate (CString.ofLiteral "/r"), overlay := truncate [], mounts := defaultMounts }

/-- A link to a link, the second with the shorter target. -/
def nestedHost : Host where
  tree := Tree.ofPaths
    [(CString.ofLiteral "/r", .directory),
      (CString.ofLiteral "/r/x", .link (CString.ofLiteral "lib/l")),
      (CString.ofLiteral "/r/lib", .directory),
      (CString.ofLiteral "/r/lib/l", .link (CString.ofLiteral "m"))]
  cwd := []
  linkMax := 40

/-- A link to a link with a longer target. -/
def overwritingHost : Host where
  tree := Tree.ofPaths
    [(CString.ofLiteral "/r", .directory),
      (CString.ofLiteral "/r/x", .link (CString.ofLiteral "l")),
      (CString.ofLiteral "/r/l", .link (CString.ofLiteral "ab/c"))]
  cwd := []
  linkMax := 40

/-- The path that both hosts are asked for. -/
def passwdPath : PathBuffer := truncate (CString.ofLiteral "/x/passwd")

theorem followsChroot_nested :
    FollowsChroot plainVfs nestedHost passwdPath ∧
      chrootResolve plainVfs nestedHost passwdPath.val =
        some (CString.ofLiteral "/r/lib/m/passwd") :=
  ⟨(followsChroot_iff rfl (by decide +kernel) (by decide +kernel) (.inl (by decide +kernel))
    (by decide +kernel) (by decide +kernel)).mpr (by decide +kernel), by decide +kernel⟩

/-- The last component of `/x/passwd` is lost behind the second link. -/
theorem vfsResolve_overwritten :
    plainVfs.overlay.val = [] ∧
      vfsFindMount plainVfs.mounts passwdPath.val = none ∧ up ∉ tokens passwdPath.val ∧
      (guestNames passwdPath.val).length ≤ 255 ∧
      (∀ taken ∈ walkTrace (chrootEnter (linksBelow overwritingHost plainVfs.rootfs.val)) 40 []
          (guestNames passwdPath.val),
        WithinLimits (linksBelow overwritingHost plainVfs.rootfs.val) plainVfs.rootfs.val taken) ∧
      chrootResolve plainVfs overwritingHost passwdPath.val =
        some (CString.ofLiteral "/r/ab/c/passwd") ∧
      (vfsResolve plainVfs overwritingHost passwdPath).map Subtype.val =
        some (CString.ofLiteral "/r/ab/c/") := by
  decide +kernel

end AlpineOnIOS.Vfs
