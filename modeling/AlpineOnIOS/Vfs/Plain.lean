import AlpineOnIOS.Foundation.TreeGrowth
import AlpineOnIOS.Vfs.Chroot

/-!
# Ways without links and the merged tree

Where no component of a path is a link, `vfs_resolve_rw` appends the normalised path to the
directory it has chosen, and `overlay_mkdirs` makes missing directories. The guest should see the
two directories merged.
-/

namespace AlpineOnIOS.Vfs

open Foundation List Tree Host

theorem NoLinks.of_append {link : Location → Option CString} {inner place : Location}
    (noLinks : NoLinks link (inner ++ place)) : NoLinks link place := by
  induction inner with
  | nil => exact noLinks
  | cons name inner induction => exact induction noLinks.2

variable {vfs : VfsT} {host : Host} {base : PathBuffer} {place : Location} {names : List CString}

theorem placePath_append_length (base : CString) (inner place : Location) :
    (placePath base place).length ≤ (placePath base (inner ++ place)).length := by
  simp [placePath]

theorem resolveFrom_plain {state : Resolution} (isName : ∀ name ∈ names.reverse ++ place, IsName name)
    (noLinks : NoLinks (linksBelow host base.val) (names.reverse ++ place))
    (fits : (placePath base.val (names.reverse ++ place)).length < pathMax)
    (resolved : state.resolved.val = placePath base.val place)
    (components : state.components.val = names.map .token) :
    (resolveFrom vfs host state).map Subtype.val =
      some (placePath base.val (names.reverse ++ place)) := by
  induction names generalizing state place with
  | nil =>
    have returned : resolveFrom vfs host state = some state.resolved :=
      runLoop_exit _ (resolveStep_eq_exit_some.mpr ⟨components, rfl⟩)
    rw [returned, Option.map_some, resolved]
    rfl
  | cons name rest induction =>
    have shape : (name :: rest).reverse ++ place = rest.reverse ++ name :: place := by simp
    rw [shape] at isName noLinks fits ⊢
    have last : IsName name := isName name (by simp)
    have outer : ∀ name ∈ place, IsName name := fun name member => isName name (by simp [member])
    have here := noLinks.of_append
    have hostPath : state.resolved.val ++ slash :: name = placePath base.val (name :: place) := by
      rw [resolved, placePath_cons]
    have short : (state.resolved.val ++ slash :: name).length < pathMax := by
      rw [hostPath]
      exact Nat.lt_of_le_of_lt (placePath_append_length _ rest.reverse _) fits
    have found : host.linkTarget (state.resolved.val ++ slash :: name) = none := by
      rw [hostPath, linkTarget_placePath here.2 outer last, here.1]
    have first : Component.token name ∈ state.components.val.head? := by simp [components]
    have advances : Advances vfs host state ((Component.token name).read state.store) _ :=
      .plain last.notHere last.notUp short found
    have returned : resolveFrom vfs host state = resolveFrom vfs host _ :=
      runLoop_next _ (resolveStep_eq_next.mpr ⟨_, first, advances⟩)
    rw [returned]
    exact induction isName noLinks fits hostPath (by simp [Components.tail, components])

theorem resolveNormalized_plain {pathbuf : CString} (split : tokens pathbuf = place.reverse)
    (isName : ∀ name ∈ place, IsName name) (noLinks : NoLinks (linksBelow host base.val) place)
    (few : place.length ≤ 255) (fits : (placePath base.val place).length < pathMax) :
    resolveNormalized vfs host base pathbuf = some ⟨placePath base.val place, fits⟩ := by
  have count : (place.reverse.map Component.token).length ≤ 255 := by
    rw [length_map, length_reverse]
    exact few
  have listed : Components.ofList ((tokens pathbuf).map Component.token) = some ⟨_, count⟩ := by
    rw [split]
    exact Components.ofList_eq_some.mpr rfl
  have whole : place.reverse.reverse ++ [] = place := by simp
  have walked : (resolveFrom vfs host
      { resolved := base, components := ⟨_, count⟩, store := [], depth := 0 }).map Subtype.val =
      some (placePath base.val (place.reverse.reverse ++ [])) := by
    refine resolveFrom_plain ?_ ?_ ?_ (by simp [placePath]) rfl
    · rwa [whole]
    · rwa [whole]
    · rwa [whole]
  rw [whole] at walked
  rw [resolveNormalized, listed, Option.bind_some]
  obtain ⟨_, returned, same⟩ := Option.map_eq_some_iff.mp walked
  rw [returned, Option.some.injEq]
  exact Subtype.ext same

variable {left : Nat} {root : Location}

section Calls

variable {base : CString} {outer : Location} {name : CString}

theorem noLinks_of_linkFree (based : host.descend base = .ok (left, root))
    (linkFree : host.tree.LinkFree root place.reverse) : NoLinks (linksBelow host base) place := by
  induction place with
  | nil => trivial
  | cons name place induction =>
    rw [reverse_cons, linkFree_append, reverse_reverse] at linkFree
    refine ⟨?_, induction linkFree.1⟩
    rw [linksBelow, based]
    exact linkFree.2.1

section Names

variable (based : host.descend base = .ok (left, root)) (isName : ∀ name ∈ outer, IsName name)

include based isName

theorem descend_placePath :
    host.descend (placePath base outer) = host.walkFrom left root outer.reverse := by
  have names := isName_reverse isName
  have whole : outer.reverse.filter (!·.isEmpty) = outer.reverse := by
    rw [filter_eq_self]
    exact fun name member => by simpa using (names name member).nonempty
  rw [placePath, host.descend_append_render base fun name member => (names name member).plain,
    based, whole]
  rfl

variable (linkFree : host.tree.LinkFree root outer.reverse)

include linkFree

theorem descend_placePath_linkFree (present : host.tree.node (outer ++ root) ≠ none) :
    host.descend (placePath base outer) = .ok (left, outer ++ root) := by
  rw [descend_placePath based isName,
    walkFrom_linkFree (isName_reverse isName) linkFree (by rwa [reverse_reverse]), reverse_reverse]

theorem eq_of_descend_placePath {reached : Nat × Location}
    (walked : host.descend (placePath base outer) = .ok reached) :
    reached = (left, outer ++ root) := by
  rw [descend_placePath based isName] at walked
  rw [eq_of_walkFrom_linkFree (isName_reverse isName) linkFree walked, reverse_reverse]

variable (last : IsName name)

include last

theorem locate_placePath (directory : host.tree.node (outer ++ root) = some .directory) :
    host.locate (placePath base (name :: outer)) = .ok (name :: (outer ++ root)) := by
  have walked := descend_placePath_linkFree based isName linkFree (by simp [directory])
  rw [placePath_cons, host.locate_append_slash _ last.plain, walked, if_neg last.nonempty]
  exact child_isName last directory

theorem locate_placePath_error (other : host.tree.node (outer ++ root) ≠ some .directory) :
    ∃ error, host.locate (placePath base (name :: outer)) = .error error := by
  rw [placePath_cons, host.locate_append_slash _ last.plain]
  cases walked : host.descend (placePath base outer) with
  | error error => exact ⟨error, rfl⟩
  | ok =>
    obtain rfl := eq_of_descend_placePath based isName linkFree walked
    exact child_not_directory _ other

theorem eq_of_locate_placePath {location : Location}
    (located : host.locate (placePath base (name :: outer)) = .ok location) :
    location = name :: (outer ++ root) ∧ host.tree.node (outer ++ root) = some .directory := by
  by_cases directory : host.tree.node (outer ++ root) = some .directory
  · rw [locate_placePath based isName linkFree last directory] at located
    cases located
    exact ⟨rfl, directory⟩
  · obtain ⟨_, failed⟩ := locate_placePath_error based isName linkFree last directory
    rw [failed] at located
    cases located

theorem lstat_placePath :
    host.lstat (placePath base (name :: outer)) = host.tree.node (name :: (outer ++ root)) := by
  by_cases directory : host.tree.node (outer ++ root) = some .directory
  · rw [lstat, locate_placePath based isName linkFree last directory]
  · obtain ⟨_, failed⟩ := locate_placePath_error based isName linkFree last directory
    rw [lstat, failed, node_cons_eq_none directory]

theorem mkdir_placePath :
    host.mkdir (placePath base (name :: outer)) =
      { host with tree := host.tree.insert (name :: (outer ++ root)) .directory } := by
  by_cases directory : host.tree.node (outer ++ root) = some .directory
  · rw [mkdir, locate_placePath based isName linkFree last directory]
  obtain ⟨_, failed⟩ := locate_placePath_error based isName linkFree last directory
  have outside := directory
  rw [mkdir, failed, insert_outside outside]

end Names

theorem lstat_normalText (based : host.descend base = .ok (left, root))
    (directory : host.tree.node root = some .directory) (isName : ∀ name ∈ place, IsName name)
    (linkFree : host.tree.LinkFree root place.tail.reverse) :
    host.lstat (base ++ normalText place) = host.tree.node (place ++ root) := by
  cases place with
  | nil =>
    have located : host.locate (base ++ [slash]) = .ok root := by
      rw [host.locate_append_slash base (by simp), based, if_pos rfl]
      simp [Except.bind, child, directory]
    rw [normalText, if_pos rfl, lstat, located]
    rfl
  | cons =>
    rw [forall_mem_cons] at isName
    rw [normalText, if_neg (cons_ne_nil _ _)]
    exact lstat_placePath based isName.2 linkFree isName.1

end Calls

section Mkdirs

variable {base : CString}

theorem mkdirsLoop_append (host : Host) (before first second : CString) :
    mkdirsLoop host before (first ++ second) =
      mkdirsLoop (mkdirsLoop host before first) (before ++ first) second := by
  induction first generalizing host before with
  | nil => simp [mkdirsLoop]
  | cons char rest induction => simp [mkdirsLoop, induction]

variable {text : CString}

theorem mkdirsLoop_fixed {before : CString}
    (fixed : ∀ front back, text = front ++ slash :: back → host.mkdir (before ++ front) = host) :
    mkdirsLoop host before text = host := by
  induction text generalizing before with
  | nil => rfl
  | cons char rest induction =>
    have others : mkdirsLoop host (before ++ [char]) rest = host := by
      refine induction fun front back split => ?_
      rw [append_assoc, singleton_append]
      exact fixed (char :: front) back (by rw [split, cons_append])
    rw [mkdirsLoop]
    split
    · rename_i isSlash
      have first := fixed [] rest (by rw [isSlash, nil_append])
      rw [append_nil] at first
      rw [first, others]
    · exact others

theorem mkdirsLoop_plain {before : CString} (plain : slash ∉ text) :
    mkdirsLoop host before text = host := by
  refine mkdirsLoop_fixed fun front back split => ?_
  rw [split] at plain
  simp at plain

theorem mkdirsLoop_base {char : CChar} {rest : CString}
    (based : host.descend (char :: rest) = .ok (left, root)) :
    mkdirsLoop host [char] rest = host := by
  refine mkdirsLoop_fixed fun front back split => ?_
  have shape : char :: rest = (char :: front) ++ slash :: back := by rw [split, cons_append]
  rw [shape, descend, tokens_append_slash, walkFrom_append] at based
  cases walked : host.walkFrom host.linkMax (host.start (char :: front ++ [slash]))
      (tokens (char :: front)) with
  | ok reached => exact mkdir_descended (cons_ne_nil _ _) walked
  | error error =>
    have sameStart : host.start (char :: front ++ slash :: back ++ [slash]) =
        host.start (char :: front ++ [slash]) := rfl
    rw [sameStart, walked] at based
    cases based

theorem mkdirsLoop_grows (host : Host) (before text : CString) :
    ∃ tree, mkdirsLoop host before text = { host with tree } ∧ host.tree.Extends tree ∧
      ∀ location, tree.linkAt location = host.tree.linkAt location := by
  induction text generalizing host before with
  | nil => exact ⟨host.tree, rfl, .refl _, fun _ => rfl⟩
  | cons char rest induction =>
    have first : ∃ tree, (if char = slash then host.mkdir before else host) =
        { host with tree } ∧ host.tree.Extends tree ∧
        ∀ location, tree.linkAt location = host.tree.linkAt location := by
      split
      · rw [mkdir]
        split
        · rename_i place located
          exact ⟨_, rfl, host.tree.extends_insert place _, host.tree.linkAt_insert_directory place⟩
        · exact ⟨host.tree, rfl, .refl _, fun _ => rfl⟩
      · exact ⟨host.tree, rfl, .refl _, fun _ => rfl⟩
    obtain ⟨tree, made, grows, links⟩ := first
    obtain ⟨final, looped, growsFurther, linksFurther⟩ :=
      induction { host with tree } (before ++ [char])
    refine ⟨final, ?_, grows.trans growsFurther, fun location => ?_⟩
    · rw [mkdirsLoop, made, looped]
    · rw [linksFurther, links]

theorem overlayMkdirs_grows (host : Host) (path : CString) :
    ∃ tree, overlayMkdirs host path = { host with tree } ∧ host.tree.Extends tree ∧
      ∀ location, tree.linkAt location = host.tree.linkAt location := by
  rw [overlayMkdirs]
  split
  · exact mkdirsLoop_grows host _ _
  · exact ⟨host.tree, rfl, .refl _, fun _ => rfl⟩

theorem mkdirsLoop_placePath (nonempty : base ≠ []) (based : host.descend base = .ok (left, root))
    (isName : ∀ name ∈ place, IsName name) (linkFree : host.tree.LinkFree root place.tail.reverse) :
    (mkdirsLoop host base (render place.reverse)).mkdir (placePath base place) =
      { host with tree := host.tree.insertDirectories root place.reverse } := by
  induction place with
  | nil =>
    rw [placePath, reverse_nil, render_nil, append_nil]
    exact mkdir_descended nonempty based
  | cons name outer induction =>
    rw [forall_mem_cons] at isName
    have outerFree : host.tree.LinkFree root outer.tail.reverse := by
      cases outer with
      | nil => trivial
      | cons =>
        rw [tail_cons, reverse_cons, linkFree_append] at linkFree
        exact linkFree.1
    have made := induction isName.2 outerFree
    rw [placePath] at made
    have grows := host.tree.extends_insertDirectories root outer.reverse
    have keptFree : (host.tree.insertDirectories root outer.reverse).LinkFree root outer.reverse :=
      linkFree.congr fun location => host.tree.linkAt_insertDirectories root _ location
    rw [reverse_cons, render_concat, mkdirsLoop_append, mkdirsLoop, if_pos rfl,
      mkdirsLoop_plain isName.1.plain, made,
      mkdir_placePath (descend_extends grows based) isName.2 keptFree isName.1,
      insertDirectories_concat, reverse_reverse]

/-- `overlay_mkdirs` makes the directories in front of the last name. -/
theorem overlayMkdirs_normalText (nonempty : base ≠ [])
    (based : host.descend base = .ok (left, root)) (isName : ∀ name ∈ place, IsName name)
    (linkFree : host.tree.LinkFree root place.tail.tail.reverse)
    (fits : (base ++ normalText place).length < pathMax) :
    overlayMkdirs host (base ++ normalText place) =
      { host with tree := host.tree.insertDirectories root place.tail.reverse } := by
  have behind : overlayMkdirs host (base ++ normalText place) =
      mkdirsLoop host base (normalText place) := by
    rw [overlayMkdirs, if_pos fits]
    obtain ⟨char, rest, rfl⟩ := exists_cons_of_ne_nil nonempty
    change mkdirsLoop host [char] (rest ++ normalText place) = _
    rw [mkdirsLoop_append, mkdirsLoop_base based]
    rfl
  rw [behind]
  cases place with
  | nil =>
    rw [normalText, if_pos rfl, mkdirsLoop, if_pos rfl, mkdirsLoop, mkdir_descended nonempty based]
    rfl
  | cons =>
    rw [forall_mem_cons] at isName
    rw [normalText, if_neg (cons_ne_nil _ _), reverse_cons, render_concat,
      mkdirsLoop_append, mkdirsLoop, if_pos rfl, mkdirsLoop_plain isName.1.plain]
    exact mkdirsLoop_placePath nonempty based isName.2 linkFree

end Mkdirs

theorem placePath_length_le (base : CString) (place : Location) :
    (placePath base place).length ≤ (base ++ normalText place).length := by
  rw [placePath, normalText, length_append, length_append]
  split
  · rename_i empty
    simp [empty]
  · exact Nat.le_refl _

/-- `vfs_resolve_rw` by the choice it makes for a path that is not cut. -/
theorem vfsResolveRw_chosen {after : Host} {guestPath : PathBuffer} {mode : Mode}
    (unmounted : vfsFindMount vfs.mounts guestPath.val = none) (uncut : Uncut guestPath.val)
    (chosen : chooseBase vfs host (normalText (guestPlace guestPath.val)) mode = (base, after)) :
    vfsResolveRw vfs host guestPath mode =
      (resolveNormalized vfs after base (normalText (guestPlace guestPath.val)), after) := by
  rw [vfsResolveRw_unmounted unmounted, vfsNormalizePath_place guestPath.property uncut]
  simp only [chosen]

theorem resolveNormalized_linkFree (based : host.descend base.val = .ok (left, root))
    (isName : ∀ name ∈ place, IsName name) (linkFree : host.tree.LinkFree root place.reverse)
    (few : place.length ≤ 255) (fits : (placePath base.val place).length < pathMax) :
    resolveNormalized vfs host base (normalText place) = some ⟨placePath base.val place, fits⟩ :=
  resolveNormalized_plain (tokens_normalText isName) isName (noLinks_of_linkFree based linkFree) few
    fits

theorem few_of_resolveNormalized {result : PathBuffer} (isName : ∀ name ∈ place, IsName name)
    (resolved : resolveNormalized vfs host base (normalText place) = some result) :
    place.length ≤ 255 := by
  obtain ⟨components, listed, -⟩ := Option.bind_eq_some_iff.mp resolved
  have count := components.property
  rw [Components.ofList_eq_some.mp listed, length_map, tokens_normalText isName,
    length_reverse] at count
  exact count

section Usable

variable
  (usable : vfs.overlay.val ≠ [] ∧ (vfs.overlay.val ++ normalText place).length < pathMax)
  (based : host.descend vfs.overlay.val = .ok (left, root))
  (isName : ∀ name ∈ place, IsName name) (linkFree : host.tree.LinkFree root place.reverse)

include usable based isName linkFree

theorem chooseBase_write_linkFree :
    chooseBase vfs host (normalText place) .write =
      (vfs.overlay, { host with tree := host.tree.insertDirectories root place.tail.reverse }) := by
  have outerFree : host.tree.LinkFree root place.tail.tail.reverse := by
    have suffix : place.tail.tail.reverse <+: place.reverse :=
      reverse_prefix.mpr ((tail_suffix _).trans (tail_suffix _))
    obtain ⟨_, split⟩ := suffix
    rw [← split, linkFree_append] at linkFree
    exact linkFree.1
  rw [chooseBase_write usable, overlayMkdirs_normalText usable.1 based isName outerFree usable.2]

theorem resolveNormalized_write (few : place.length ≤ 255) :
    resolveNormalized vfs { host with tree := host.tree.insertDirectories root place.tail.reverse }
        vfs.overlay (normalText place) =
      some ⟨placePath vfs.overlay.val place,
        Nat.lt_of_le_of_lt (placePath_length_le _ _) usable.2⟩ := by
  have grows := host.tree.extends_insertDirectories root place.tail.reverse
  exact resolveNormalized_linkFree (descend_extends grows based) isName
    (linkFree.congr (host.tree.linkAt_insertDirectories root _)) few _

end Usable

/-- What a directory of the host holds at a place of the guest. -/
def layerEntry (host : Host) (base : CString) (place : Location) : Option Location :=
  match host.descend base with
  | .ok reached =>
    if host.tree.node (place ++ reached.2) = none then none else some (place ++ reached.2)
  | .error _ => none

/-- What the overlay holds, if there is one. -/
def overlayEntry (vfs : VfsT) (host : Host) (place : Location) : Option Location :=
  if vfs.overlay.val = [] then none else layerEntry host vfs.overlay.val place

/-- What the merged tree holds. -/
def mergedEntry (vfs : VfsT) (host : Host) : Location → Option Location
  | [] => (overlayEntry vfs host []).or (layerEntry host vfs.rootfs.val [])
  | name :: place =>
    match (mergedEntry vfs host place).bind host.tree.node with
    | some .directory =>
      (overlayEntry vfs host (name :: place)).or
        (layerEntry host vfs.rootfs.val (name :: place))
    | _ => none

/-- The links of the merged tree. -/
def mergedLink (vfs : VfsT) (host : Host) (place : Location) : Option CString :=
  (mergedEntry vfs host place).bind host.tree.linkAt

/-- The components come to no link, those included that a later `..` takes back. -/
def PassesNoLink (link : Location → Option CString) : Location → List CString → Prop
  | _, [] => True
  | place, name :: rest =>
    (name ≠ here → name ≠ up → link (name :: place) = none) ∧
      PassesNoLink link (pushComponent place name) rest

instance decidablePassesNoLink (link : Location → Option CString) :
    ∀ place names, Decidable (PassesNoLink link place names)
  | _, [] => isTrue trivial
  | place, name :: rest =>
    have := decidablePassesNoLink link (pushComponent place name) rest
    inferInstanceAs (Decidable (_ ∧ _))

variable {link : Location → Option CString} {name : CString}

theorem chrootEnter_plain (notLink : name ≠ here → name ≠ up → link (name :: place) = none) :
    chrootEnter link place name = .reach (pushComponent place name) := by
  rw [chrootEnter, pushComponent]
  split
  · rfl
  rename_i notHere
  split
  · rfl
  · rename_i notUp
    rw [notLink notHere notUp]

section

variable (passes : PassesNoLink link place names)

include passes

theorem walk_passesNoLink (links : Nat) :
    walk (chrootEnter link) () links place names = .ok (links, names.foldl pushComponent place) := by
  induction names generalizing place with
  | nil => exact walk_nil
  | cons name rest induction =>
    rw [walk_reach (chrootEnter_plain passes.1), List.foldl_cons]
    exact induction passes.2

theorem PassesNoLink.noLinks
    (start : NoLinks link place) : NoLinks link (names.foldl pushComponent place) := by
  induction names generalizing place with
  | nil => exact start
  | cons name rest induction => exact induction passes.2 (by
      rw [pushComponent]
      split
      · exact start
      rename_i notHere
      split
      · cases place with
        | nil => trivial
        | cons => exact start.2
      · rename_i notUp
        exact ⟨passes.1 notHere notUp, start⟩)

theorem PassesNoLink.and {other : Location → Option CString} (passesOther : PassesNoLink other place names)
    {both : Location → Option CString}
    (less : ∀ place, link place = none → other place = none → both place = none) :
    PassesNoLink both place names := by
  induction names generalizing place with
  | nil => trivial
  | cons name rest induction =>
    exact ⟨fun notHere notUp => less _ (passes.1 notHere notUp) (passesOther.1 notHere notUp),
      induction passes.2 passesOther.2⟩

end

variable {location : Location}

theorem linksBelow_of_layerEntry {base : CString} (found : layerEntry host base place = some location) :
    linksBelow host base place = host.tree.linkAt location := by
  cases based : host.descend base with
  | error => simp [layerEntry, based] at found
  | ok =>
    simp only [layerEntry, based] at found
    rw [linksBelow, based]
    split at found
    · cases found
    · cases found
      rfl

theorem mergedEntry_cases (found : mergedEntry vfs host place = some location) :
    (vfs.overlay.val ≠ [] ∧ layerEntry host vfs.overlay.val place = some location) ∨
      layerEntry host vfs.rootfs.val place = some location := by
  have either : (overlayEntry vfs host place).or (layerEntry host vfs.rootfs.val place) =
      some location := by
    cases place with
    | nil => exact found
    | cons =>
      rw [mergedEntry] at found
      split at found
      · exact found
      · cases found
  rcases Option.or_eq_some_iff.mp either with upper | ⟨-, lower⟩
  · rw [overlayEntry] at upper
    split at upper
    · cases upper
    · rename_i isSet
      exact .inl ⟨isSet, upper⟩
  · exact .inr lower

theorem mergedLink_eq_none (lower : linksBelow host vfs.rootfs.val place = none)
    (upper : vfs.overlay.val ≠ [] → linksBelow host vfs.overlay.val place = none) :
    mergedLink vfs host place = none := by
  rw [mergedLink, Option.bind_eq_none_iff]
  intro location found
  rcases mergedEntry_cases found with ⟨isSet, inUpper⟩ | inLower
  · rw [← linksBelow_of_layerEntry inUpper, upper isSet]
  · rw [← linksBelow_of_layerEntry inLower, lower]

/-- A file system with both directories and the default mounts. -/
def overlaidVfs : VfsT :=
  { rootfs := truncate (CString.ofLiteral "/r"), overlay := truncate (CString.ofLiteral "/o")
    mounts := defaultMounts }

/-- A host with the two directories and further entries. -/
def overlaidHost (entries : List (String × Node)) : Host where
  tree := Tree.ofPaths ((CString.ofLiteral "/r", .directory) ::
    (CString.ofLiteral "/o", .directory) ::
    entries.map fun entry => (CString.ofLiteral entry.1, entry.2))
  cwd := []
  linkMax := 40

/-- The place of a path in a text. -/
def placeOf (path : String) : Location := guestPlace (CString.ofLiteral path)

/-- A path in a buffer. -/
def pathOf (path : String) : PathBuffer := truncate (CString.ofLiteral path)

end AlpineOnIOS.Vfs
