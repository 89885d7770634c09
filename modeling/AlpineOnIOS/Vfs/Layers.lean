import AlpineOnIOS.Vfs.Plain

/-!
# Two layers on a host

The root directory and the overlay as two directories of the host's tree, and what both modes of
`vfs_resolve_rw` make of a path that comes to no link in either of them, against the merged tree.
-/

namespace AlpineOnIOS.Vfs

open Foundation List Host Tree

/-- The locations that the names of the root directory and of the overlay lead to. -/
@[mk_iff]
structure Layers (vfs : VfsT) (host : Host) (lower upper : Location) : Prop where
  isSet : vfs.overlay.val ≠ []
  rootfs : ∃ left, host.descend vfs.rootfs.val = .ok (left, lower)
  overlay : ∃ left, host.descend vfs.overlay.val = .ok (left, upper)
  lowerDirectory : host.tree.node lower = some .directory
  upperDirectory : host.tree.node upper = some .directory

/-- A path outside the mounts that fits below both directories and comes to no link in them. -/
@[mk_iff]
structure LayeredPath (vfs : VfsT) (host : Host) (lower upper : Location) (path : CString) :
    Prop where
  unmounted : vfsFindMount vfs.mounts path = none
  uncut : Uncut path
  few : (guestPlace path).length ≤ 255
  lowerFits : (placePath vfs.rootfs.val (guestPlace path)).length < pathMax
  upperFits : (vfs.overlay.val ++ normalText (guestPlace path)).length < pathMax
  lowerFree : host.tree.LinkFree lower (guestPlace path).reverse
  upperFree : host.tree.LinkFree upper (guestPlace path).reverse

variable {host : Host} {base : CString} {root : Location}

theorem descend_eq_iff :
    (∃ left, host.descend base = .ok (left, root)) ↔
      (host.descend base).toOption.map Prod.snd = some root := by
  cases host.descend base with
  | ok reached =>
    constructor
    · rintro ⟨_, same⟩
      cases same
      rfl
    · intro same
      exact ⟨reached.1, by rw [← Option.some.inj same]⟩
  | error => simp [Except.toOption]

instance : Decidable (∃ left, host.descend base = .ok (left, root)) :=
  decidable_of_iff' _ descend_eq_iff

instance (vfs : VfsT) (host : Host) (lower upper : Location) :
    Decidable (Layers vfs host lower upper) :=
  decidable_of_iff' _ (layers_iff ..)

instance (vfs : VfsT) (host : Host) (lower upper : Location) (path : CString) :
    Decidable (LayeredPath vfs host lower upper path) :=
  decidable_of_iff' _ (layeredPath_iff ..)

variable {left : Nat} {place : Location}

theorem follow_base (nonempty : base ≠ []) (based : host.descend base = .ok (left, root))
    (directory : host.tree.node root = some .directory) : host.follow base = .ok root := by
  have start : host.start (base ++ [slash]) = host.start base := by
    cases base with
    | nil => exact absurd rfl nonempty
    | cons => rfl
  rw [descend, start] at based
  rw [follow, if_neg nonempty, walkFrom_append, based]
  simp only [Except.bind]
  split
  · have entered : host.tree.enter root here = .reach root := by
      simp [Tree.enter, directory]
    rw [walkFrom, walk_reach entered, walk_nil]
    rfl
  · rw [walkFrom, walk_nil]
    rfl

theorem follow_placePath_cons {name : CString} (last : IsName name) :
    host.follow (placePath base (name :: place)) =
      (host.descend (placePath base (name :: place))).map Prod.snd := by
  have shape := placePath_cons base name place
  have nonempty : placePath base (name :: place) ≠ [] := by simp [shape]
  have notSlash : (placePath base (name :: place)).getLast? ≠ some slash := by
    obtain ⟨_, _, rfl⟩ := exists_cons_of_ne_nil last.nonempty
    rw [shape, getLast?_append_cons, getLast?_cons_cons]
    exact fun final => last.plain (mem_of_getLast? final)
  have start : host.start (placePath base (name :: place) ++ [slash]) =
      host.start (placePath base (name :: place)) := by
    cases path : placePath base (name :: place) with
    | nil => exact absurd path nonempty
    | cons => rfl
  rw [follow, if_neg nonempty, if_neg notSlash, append_nil, descend, start]

/-- What a path below a directory leads to, if no link is on the way. -/
theorem follow_placePath (based : host.descend base = .ok (left, root))
    (nonempty : base ≠ [] ∨ place ≠ []) (directory : host.tree.node root = some .directory)
    (isName : ∀ name ∈ place, IsName name) (linkFree : host.tree.LinkFree root place.reverse) :
    (host.follow (placePath base place)).toOption =
      if host.tree.node (place ++ root) = none then none else some (place ++ root) := by
  cases place with
  | nil =>
    have whole : placePath base [] = base := by simp [placePath]
    rw [whole, follow_base (nonempty.resolve_right (by simp)) based directory]
    simp [directory, Except.toOption]
  | cons name outer =>
    rw [follow_placePath_cons (isName name mem_cons_self)]
    split
    · rename_i absent
      cases walked : host.descend (placePath base (name :: outer)) with
      | error => rfl
      | ok =>
        obtain rfl := eq_of_descend_placePath based isName linkFree walked
        rw [descend_placePath based isName] at walked
        exact absurd absent (present_of_walkFrom (by simp [directory]) walked)
    · rename_i present
      rw [descend_placePath_linkFree based isName linkFree present]
      rfl

/-- The object of the host that a path leads to for reading. -/
def readObject (vfs : VfsT) (host : Host) (guestPath : PathBuffer) : Option Location :=
  (vfsResolve vfs host guestPath).bind fun path => (host.follow path.val).toOption

namespace LayeredPath

variable {vfs : VfsT} {lower upper : Location} {guestPath : PathBuffer}

theorem lstat_upper (layers : Layers vfs host lower upper)
    (path : LayeredPath vfs host lower upper guestPath.val) :
    host.lstat (vfs.overlay.val ++ normalText (guestPlace guestPath.val)) =
      host.tree.node (guestPlace guestPath.val ++ upper) := by
  obtain ⟨_, based⟩ := layers.overlay
  have outerFree : host.tree.LinkFree upper (guestPlace guestPath.val).tail.reverse := by
    obtain ⟨_, split⟩ := reverse_prefix.mpr (tail_suffix (guestPlace guestPath.val))
    have linkFree := path.upperFree
    rw [← split, Tree.linkFree_append] at linkFree
    exact linkFree.1
  exact lstat_normalText based layers.upperDirectory (isName_guestPlace _) outerFree

theorem placePath_upper_fits (path : LayeredPath vfs host lower upper guestPath.val) :
    (placePath vfs.overlay.val (guestPlace guestPath.val)).length < pathMax :=
  Nat.lt_of_le_of_lt (placePath_length_le _ _) path.upperFits

variable (layers : Layers vfs host lower upper)
  (path : LayeredPath vfs host lower upper guestPath.val)

include layers path

theorem usable :
    vfs.overlay.val ≠ [] ∧
      (vfs.overlay.val ++ normalText (guestPlace guestPath.val)).length < pathMax :=
  ⟨layers.isSet, path.upperFits⟩

theorem read_upper (present : host.tree.node (guestPlace guestPath.val ++ upper) ≠ none) :
    vfsResolveRw vfs host guestPath .read =
      (some ⟨placePath vfs.overlay.val (guestPlace guestPath.val), path.placePath_upper_fits⟩,
        host) := by
  obtain ⟨_, based⟩ := layers.overlay
  have found : (host.lstat (vfs.overlay.val ++ normalText (guestPlace guestPath.val))).isSome := by
    rw [path.lstat_upper layers]
    exact Option.isSome_iff_ne_none.mpr present
  have chosen := chooseBase_found (path.usable layers) found
  rw [vfsResolveRw_chosen path.unmounted path.uncut chosen,
    resolveNormalized_linkFree based (isName_guestPlace _) path.upperFree path.few
      path.placePath_upper_fits]

theorem read_lower (absent : host.tree.node (guestPlace guestPath.val ++ upper) = none) :
    vfsResolveRw vfs host guestPath .read =
      (some ⟨placePath vfs.rootfs.val (guestPlace guestPath.val), path.lowerFits⟩, host) := by
  obtain ⟨_, based⟩ := layers.rootfs
  have missing : host.lstat (vfs.overlay.val ++ normalText (guestPlace guestPath.val)) = none := by
    rw [path.lstat_upper layers, absent]
  have chosen := chooseBase_missing (path.usable layers) missing
  rw [vfsResolveRw_chosen path.unmounted path.uncut chosen,
    resolveNormalized_linkFree based (isName_guestPlace _) path.lowerFree path.few path.lowerFits]

theorem write :
    vfsResolveRw vfs host guestPath .write =
      (some ⟨placePath vfs.overlay.val (guestPlace guestPath.val), path.placePath_upper_fits⟩,
        { host with
          tree := host.tree.insertDirectories upper (guestPlace guestPath.val).tail.reverse }) := by
  obtain ⟨_, based⟩ := layers.overlay
  have chosen := chooseBase_write_linkFree (path.usable layers) based (isName_guestPlace _)
    path.upperFree
  rw [vfsResolveRw_chosen path.unmounted path.uncut chosen,
    resolveNormalized_write (path.usable layers) based (isName_guestPlace _) path.upperFree path.few]

/-- The object that is read: that of the overlay, or else that of the root directory. -/
theorem readObject_eq :
    readObject vfs host guestPath =
      if host.tree.node (guestPlace guestPath.val ++ upper) ≠ none then
        some (guestPlace guestPath.val ++ upper)
      else if host.tree.node (guestPlace guestPath.val ++ lower) ≠ none then
        some (guestPlace guestPath.val ++ lower)
      else none := by
  rw [readObject, vfsResolve]
  by_cases absent : host.tree.node (guestPlace guestPath.val ++ upper) = none
  · obtain ⟨_, based⟩ := layers.rootfs
    have inside : guestPlace guestPath.val ≠ [] := by
      intro top
      rw [top, nil_append, layers.upperDirectory] at absent
      cases absent
    rw [path.read_lower layers absent, Option.bind_some,
      follow_placePath based (.inr inside) layers.lowerDirectory (isName_guestPlace _)
        path.lowerFree]
    simp [absent]
  · obtain ⟨_, based⟩ := layers.overlay
    rw [path.read_upper layers absent, Option.bind_some,
      follow_placePath based (.inl layers.isSet) layers.upperDirectory (isName_guestPlace _)
        path.upperFree]
    simp [absent]

end LayeredPath

/-- The object that a path leads to in the merged tree. -/
def mergedObject (vfs : VfsT) (host : Host) (path : CString) : Option Location :=
  match walk (chrootEnter (mergedLink vfs host)) () 40 [] (tokens path) with
  | .ok reached => mergedEntry vfs host reached.2
  | .error _ => none

/-- A path is read as in the merged tree. -/
def ReadsMerged (vfs : VfsT) (host : Host) (guestPath : PathBuffer) : Prop :=
  readObject vfs host guestPath = mergedObject vfs host guestPath.val

section Merged

variable {vfs : VfsT} {host : Host} {lower upper place : Location} {name : CString}

theorem layerEntry_eq {base : CString} {root : Location}
    (based : ∃ left, host.descend base = .ok (left, root)) (place : Location) :
    layerEntry host base place =
      if host.tree.node (place ++ root) = none then none else some (place ++ root) := by
  obtain ⟨_, based⟩ := based
  rw [layerEntry, based]

variable (layers : Layers vfs host lower upper)

include layers

theorem overlayEntry_eq (place : Location) :
    overlayEntry vfs host place =
      if host.tree.node (place ++ upper) = none then none else some (place ++ upper) := by
  rw [overlayEntry, if_neg layers.isSet, layerEntry_eq layers.overlay]

theorem mergedEntry_upper (present : host.tree.node (place ++ upper) ≠ none) :
    mergedEntry vfs host place = some (place ++ upper) := by
  induction place with
  | nil => rw [mergedEntry, overlayEntry_eq layers, if_neg present, Option.some_or]
  | cons name place induction =>
    have directory : host.tree.node (place ++ upper) = some .directory :=
      parent_directory present
    rw [mergedEntry, induction (by simp [directory]), Option.bind_some, directory]
    simp only [overlayEntry_eq layers, if_neg present, Option.some_or]

/-- What is not in the overlay is in the merged tree as in the root directory. -/
theorem mergedEntry_lower (absent : host.tree.node (name :: (place ++ upper)) = none) :
    mergedEntry vfs host (name :: place) =
      if (mergedEntry vfs host place).bind host.tree.node = some .directory ∧
          host.tree.node (name :: (place ++ lower)) ≠ none then
        some (name :: (place ++ lower))
      else none := by
  rw [mergedEntry, overlayEntry_eq layers, cons_append, if_pos absent,
    layerEntry_eq layers.rootfs, cons_append, Option.none_or]
  split
  · rename_i directory
    by_cases missing : host.tree.node (name :: (place ++ lower)) = none
    · simp [missing]
    · simp [missing, directory]
  · rename_i other
    rw [if_neg fun both => other both.1]

theorem merged_directory (clear : host.tree.Clear upper place.reverse)
    (directory : host.tree.node (place ++ lower) = some .directory) :
    (mergedEntry vfs host place).bind host.tree.node = some .directory := by
  induction place with
  | nil =>
    rw [mergedEntry_upper layers (by simp [layers.upperDirectory])]
    exact layers.upperDirectory
  | cons name place induction =>
    rw [reverse_cons, clear_concat, reverse_reverse] at clear
    have outer : host.tree.node (place ++ lower) = some .directory :=
      parent_directory (by rw [← cons_append, directory]; simp)
    rw [cons_append] at directory
    rcases clear.2 with absent | present
    · rw [mergedEntry_lower layers absent, if_pos ⟨induction clear.1 outer, by simp [directory]⟩]
      exact directory
    · rw [mergedEntry_upper layers (by rw [cons_append, present]; simp)]
      exact present

theorem clear_of_merged
    (directory : (mergedEntry vfs host place).bind host.tree.node = some .directory) :
    host.tree.Clear upper place.reverse := by
  induction place with
  | nil => trivial
  | cons name place induction =>
    rw [reverse_cons, clear_concat, reverse_reverse]
    by_cases absent : host.tree.node (name :: (place ++ upper)) = none
    · rw [mergedEntry_lower layers absent] at directory
      split at directory
      · rename_i both
        exact ⟨induction both.1, .inl absent⟩
      · cases directory
    have outer := parent_directory absent
    rw [mergedEntry_upper layers absent] at directory
    refine ⟨induction ?_, .inr directory⟩
    rw [mergedEntry_upper layers (by simp [outer])]
    exact outer

end Merged

/-- A path without links is read as merged, unless the overlay holds a file on the way. -/
theorem readsMerged_iff {vfs : VfsT} {host : Host} {lower upper : Location}
    {guestPath : PathBuffer} (layers : Layers vfs host lower upper)
    (path : LayeredPath vfs host lower upper guestPath.val)
    (lowerPasses : PassesNoLink (linksBelow host vfs.rootfs.val) [] (tokens guestPath.val))
    (upperPasses : PassesNoLink (linksBelow host vfs.overlay.val) [] (tokens guestPath.val)) :
    ReadsMerged vfs host guestPath ↔
      host.tree.node (guestPlace guestPath.val ++ lower) = none ∨
        host.tree.Clear upper (guestPlace guestPath.val).tail.reverse := by
  have passes : PassesNoLink (mergedLink vfs host) [] (tokens guestPath.val) :=
    lowerPasses.and upperPasses fun place noLower noUpper =>
      mergedLink_eq_none noLower fun _ => noUpper
  rw [ReadsMerged, path.readObject_eq layers, mergedObject, walk_passesNoLink passes]
  change _ = mergedEntry vfs host (guestPlace guestPath.val) ↔ _
  generalize guestPlace guestPath.val = place
  by_cases absent : host.tree.node (place ++ upper) = none
  · cases place with
    | nil =>
      rw [nil_append, layers.upperDirectory] at absent
      cases absent
    | cons name outer =>
      rw [if_neg (not_not.mpr absent), mergedEntry_lower layers absent, tail_cons, cons_append]
      by_cases missing : host.tree.node (name :: (outer ++ lower)) = none
      · simp [missing]
      have outerLower := parent_directory missing
      rw [if_pos missing, or_iff_right missing]
      constructor
      · intro same
        split at same
        · rename_i both
          exact clear_of_merged layers both.1
        · cases same
      · intro clear
        rw [if_pos ⟨merged_directory layers clear outerLower, missing⟩]
  · have clear : host.tree.Clear upper place.tail.reverse := by
      cases place with
      | nil => trivial
      | cons name outer =>
        have directory : host.tree.node (outer ++ upper) = some .directory :=
          parent_directory absent
        refine clear_of_merged layers ?_
        rw [tail_cons, mergedEntry_upper layers (by simp [directory])]
        exact directory
    rw [if_pos absent, mergedEntry_upper layers absent]
    exact iff_of_true rfl (.inr clear)

/-- A host with a file in each directory and a link to a name that both have. -/
def sharedNameHost : Host :=
  overlaidHost
    [("/r/etc", .directory), ("/r/etc/passwd", .file [1]), ("/r/t", .file [2]),
      ("/o/t", .file [3]), ("/r/l", .link (CString.ofLiteral "/t"))]

theorem readsMerged_lower :
    ReadsMerged overlaidVfs sharedNameHost (pathOf "/etc/passwd") ∧
      readObject overlaidVfs sharedNameHost (pathOf "/etc/passwd") =
        some (placeOf "/r/etc/passwd") := by
  have layers : Layers overlaidVfs sharedNameHost (placeOf "/r") (placeOf "/o") := by
    decide +kernel
  exact ⟨(readsMerged_iff layers (by decide +kernel) (by decide +kernel) (by decide +kernel)).mpr
    (by decide +kernel), by decide +kernel⟩

/-- The target of an absolute link is read from the root directory although the overlay has it. -/
theorem readObject_absolute_link :
    mergedObject overlaidVfs sharedNameHost (pathOf "/l").val = some (placeOf "/o/t") ∧
      readObject overlaidVfs sharedNameHost (pathOf "/t") = some (placeOf "/o/t") ∧
      readObject overlaidVfs sharedNameHost (pathOf "/l") = some (placeOf "/r/t") := by
  decide +kernel

end AlpineOnIOS.Vfs
