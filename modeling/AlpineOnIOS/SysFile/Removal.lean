import AlpineOnIOS.SysFile.Process
import AlpineOnIOS.Vfs.LayerChanges

/-!
# Removing and renaming files

`do_unlinkat` and `do_renameat`, and when a path that they have taken away is still read.  Removal
works on the overlay only, and nothing there can stand for a file that was removed.
-/

namespace AlpineOnIOS.SysFile

open Foundation Vfs List Tree Host

def linuxAtRemovedir : UInt32 := 0x200

/-- The call of the host in `do_unlinkat`. -/
def removeEntry (host : Host) (flags : UInt32) (path : CString) : Except Errno Host :=
  if hasFlag flags linuxAtRemovedir then host.rmdir path else host.unlink path

def doUnlinkat (proc : Process) (host : Host) (a0 a1 a2 : UInt64) : Int × Host :=
  match resolvePathWrite proc host (toInt32 a0) a1 with
  | (.error _, after) => (-2, after)
  | (.ok path, after) =>
    match removeEntry after a2.toUInt32 path.val with
    | .error error => (negErrno error, after)
    | .ok removed => (0, removed)

def doRenameat (proc : Process) (host : Host) (a0 a1 a2 a3 : UInt64) : Int × Host :=
  match resolvePath proc host (toInt32 a0) a1 with
  | .error _ => (-2, host)
  | .ok oldHost =>
    match resolvePathWrite proc host (toInt32 a2) a3 with
    | (.error _, after) => (-2, after)
    | (.ok newHost, after) =>
      match after.rename oldHost.val newHost.val with
      | .error error => (negErrno error, after)
      | .ok renamed => (0, renamed)

variable {error : Errno}

theorem negErrno_eq_enoent : negErrno error = -2 ↔ error = .enoent := by
  cases error <;> decide

theorem negErrno_ne_zero (error : Errno) : negErrno error ≠ 0 := by
  cases error <;> decide

variable {host : Host} {after : Host} {flags : UInt32} {path : CString} {place : Location}

theorem removes_of_removeEntry (removed : removeEntry host flags path = .ok after) :
    ∃ place, host.Removes after path place := by
  rw [removeEntry] at removed
  split at removed
  · exact removes_of_rmdir removed
  · exact removes_of_unlink removed

theorem removeEntry_eq_enoent (located : host.locate path = .ok place) :
    removeEntry host flags path = .error .enoent ↔ host.tree.node place = none := by
  rw [removeEntry]
  split
  · exact rmdir_eq_enoent located
  · exact unlink_eq_enoent located

theorem removeEntry_of_error (failed : host.locate path = .error error) :
    removeEntry host flags path = .error error := by
  rw [removeEntry, rmdir, unlink, failed]
  split <;> rfl

variable {lower upper : Location} {vfs : VfsT} {tree : Tree} {guestPath : PathBuffer}

theorem sameOutside_insertDirectories (tree : Tree) (lower upper : Location)
    (names : List CString) : SameOutside lower upper tree (tree.insertDirectories upper names) := by
  intro location outside
  refine (tree.node_insertDirectories_or upper names location).resolve_right ?_
  rintro ⟨-, -, _, nonempty, -, rfl⟩
  exact outside (inside_upper (by simpa using nonempty))

theorem sameOutside_remove (inside : place ≠ []) (empty : tree.Empty place)
    (isInside : Inside lower upper place) : SameOutside lower upper tree (tree.remove place) := by
  intro location outside
  have other : location ≠ place := by
    rintro rfl
    exact outside isInside
  rw [node_remove inside empty, if_neg other]

theorem sameOutside_move {source target : Location} (movable : tree.Movable source target)
    (sourceInside : Inside lower upper source) (targetInside : Inside lower upper target) :
    SameOutside lower upper tree (tree.move source target) := by
  intro location outside
  rw [node_move movable,
    moved_other (fun below => outside (targetInside.of_suffix below))
      fun below => outside (sourceInside.of_suffix below)]

theorem node_lower_insertDirectories (apart : Apart lower upper) (tree : Tree)
    (names : List CString) (inner : Location) :
    (tree.insertDirectories upper names).node (inner ++ lower) = tree.node (inner ++ lower) := by
  refine (tree.node_insertDirectories_or upper names _).resolve_right ?_
  rintro ⟨-, -, _, -, -, same⟩
  exact apart.append_ne _ _ same

theorem node_upper_insertDirectories {names : List CString} (outside : ¬place <:+ names.reverse) :
    (tree.insertDirectories upper names).node (place ++ upper) = tree.node (place ++ upper) := by
  refine (tree.node_insertDirectories_or upper names _).resolve_right ?_
  rintro ⟨-, -, _, -, isFront, same⟩
  rw [append_cancel_right same, reverse_suffix] at outside
  exact outside isFront

/-- After a change inside the layers a path is gone if neither of them has it. -/
theorem readObject_changed (layers : Layers vfs host lower upper) (apart : Apart lower upper)
    (anchored : Anchored vfs host lower upper)
    (layered : LayeredPath vfs host lower upper guestPath.val)
    (same : SameOutside lower upper host.tree tree)
    (links : ∀ inner, inner <:+ guestPlace guestPath.val → inner ≠ [] →
      ∀ root, root = lower ∨ root = upper →
        host.tree.linkAt (inner ++ root) = none → tree.linkAt (inner ++ root) = none) :
    readObject vfs { host with tree } guestPath = none ↔
      tree.node (guestPlace guestPath.val ++ upper) = none ∧
        tree.node (guestPlace guestPath.val ++ lower) = none := by
  rw [(layered.mono links).readObject_eq (anchored.layers layers apart same)]
  split
  · rename_i present
    simp [present]
  rename_i absent
  rw [not_not] at absent
  simp [absent]

theorem layered_insertDirectories (layers : Layers vfs host lower upper)
    (layered : LayeredPath vfs host lower upper guestPath.val) (names : List CString) :
    Layers vfs { host with tree := host.tree.insertDirectories upper names } lower upper ∧
      LayeredPath vfs { host with tree := host.tree.insertDirectories upper names } lower upper
        guestPath.val :=
  ⟨layers.extends (host.tree.extends_insertDirectories upper names),
    layered.congr (host.tree.linkAt_insertDirectories upper names)⟩

variable {proc : Process}

section Unlink

variable {a0 a1 a2 : UInt64} {absPath : PathBuffer} (layers : Layers proc.vfs host lower upper)
  (named : guestAbsPath proc (toInt32 a0) a1 = .ok absPath)
  (layered : LayeredPath proc.vfs host lower upper absPath.val)
  (inside : guestPlace absPath.val ≠ [])

include layers named layered inside

theorem removes_of_doUnlinkat (returned : (doUnlinkat proc host a0 a1 a2).1 = 0) :
    ∃ path, Host.Removes
      { host with
        tree := host.tree.insertDirectories upper (guestPlace absPath.val).tail.reverse }
      (doUnlinkat proc host a0 a1 a2).2 path (guestPlace absPath.val ++ upper) := by
  have resolved := resolvePathWrite_eq named (layered.write layers)
  obtain ⟨layersAfter, layeredAfter⟩ := layered_insertDirectories layers layered
    (guestPlace absPath.val).tail.reverse
  obtain ⟨_, based⟩ := layersAfter.overlay
  simp only [doUnlinkat, resolved] at returned ⊢
  split at returned
  · rename_i error failed
    exact absurd returned (negErrno_ne_zero error)
  rename_i removed succeeded
  obtain ⟨location, removes⟩ : ∃ location, Host.Removes _ removed
      (placePath proc.vfs.overlay.val (guestPlace absPath.val)) location :=
    removes_of_removeEntry succeeded
  obtain rfl := eq_of_locate_place based (isName_guestPlace _) layeredAfter.upperFree inside
    removes.located
  exact ⟨_, removes⟩

/-- A path that was unlinked is still read if the root directory has it. -/
theorem readObject_doUnlinkat (apart : Apart lower upper)
    (anchored : Anchored proc.vfs host lower upper)
    (returned : (doUnlinkat proc host a0 a1 a2).1 = 0) :
    readObject proc.vfs (doUnlinkat proc host a0 a1 a2).2 absPath = none ↔
      host.tree.node (guestPlace absPath.val ++ lower) = none := by
  obtain ⟨_, removes⟩ := removes_of_doUnlinkat layers named layered inside returned
  have after := node_remove removes.inside removes.empty
  rw [removes.removed]
  refine (readObject_changed layers apart anchored layered ?_ ?_).trans ?_
  · exact (sameOutside_insertDirectories _ _ _ _).trans
      (sameOutside_remove removes.inside removes.empty (inside_upper inside))
  · intro inner suffix nonempty root layer notLink
    rw [← host.tree.linkAt_insertDirectories upper (guestPlace absPath.val).tail.reverse] at notLink
    by_cases taken : inner ++ root = guestPlace absPath.val ++ upper
    · rw [linkAt, after, if_pos taken]
    · rw [linkAt, after, if_neg taken]
      exact notLink
  · rw [after, if_pos rfl, after, if_neg (apart.append_ne _ _), node_lower_insertDirectories apart]
    simp

/-- Unlinking fails with `ENOENT` exactly if the overlay has room for the path but not the path. -/
theorem doUnlinkat_eq_enoent :
    (doUnlinkat proc host a0 a1 a2).1 = -2 ↔
      host.tree.node (guestPlace absPath.val ++ upper) = none ∧
        host.tree.Clear upper (guestPlace absPath.val).tail.reverse := by
  have resolved := resolvePathWrite_eq named (layered.write layers)
  obtain ⟨layersAfter, layeredAfter⟩ := layered_insertDirectories layers layered
    (guestPlace absPath.val).tail.reverse
  obtain ⟨_, based⟩ := layersAfter.overlay
  have isName := isName_guestPlace absPath.val
  have linkFree := layeredAfter.upperFree
  have returned : (doUnlinkat proc host a0 a1 a2).1 = -2 ↔
      removeEntry { host with
          tree := host.tree.insertDirectories upper (guestPlace absPath.val).tail.reverse }
        a2.toUInt32 (placePath proc.vfs.overlay.val (guestPlace absPath.val)) = .error .enoent := by
    simp only [doUnlinkat, resolved]
    split
    · rename_i failed
      simp [failed, negErrno_eq_enoent]
    · rename_i succeeded
      simp [succeeded]
  rw [returned]
  cases shape : guestPlace absPath.val with
  | nil => exact absurd shape inside
  | cons name outer =>
    simp only [shape, tail_cons] at based linkFree ⊢
    rw [shape, forall_mem_cons] at isName
    rw [reverse_cons, linkFree_append] at linkFree
    by_cases clear : host.tree.Clear upper outer.reverse
    · have parent := directory_insertDirectories layers.upperDirectory clear
      rw [reverse_reverse] at parent
      have located := locate_placePath based isName.2 linkFree.1 isName.1 parent
      rw [removeEntry_eq_enoent located, node_insertDirectories_beyond (by simp)]
      simp [clear]
    · have blocked : ¬(host.tree.insertDirectories upper outer.reverse).Clear upper
          outer.reverse := fun grown => clear (clear_of_insertDirectories grown)
      have failed := locate_placePath_blocked based isName.2 linkFree.1 isName.1 blocked
      rw [removeEntry_of_error failed]
      simp [clear]

end Unlink

section Rename

variable {a0 a1 a2 a3 : UInt64} {oldPath newPath : PathBuffer}
  (layers : Layers proc.vfs host lower upper) (apart : Apart lower upper)
  (namedOld : guestAbsPath proc (toInt32 a0) a1 = .ok oldPath)
  (namedNew : guestAbsPath proc (toInt32 a2) a3 = .ok newPath)
  (old : LayeredPath proc.vfs host lower upper oldPath.val)
  (new : LayeredPath proc.vfs host lower upper newPath.val)
  (notBelow : ¬guestPlace oldPath.val <:+ guestPlace newPath.val)
  (notAbove : ¬guestPlace newPath.val <:+ guestPlace oldPath.val)

include layers apart namedOld namedNew old new notBelow notAbove

/-- What was renamed was in the layer that it is read from, and went to the overlay. -/
theorem movable_of_doRenameat (returned : (doRenameat proc host a0 a1 a2 a3).1 = 0) :
    ∃ root, (root = upper ∧ host.tree.node (guestPlace oldPath.val ++ upper) ≠ none ∨
        root = lower ∧ host.tree.node (guestPlace oldPath.val ++ upper) = none) ∧
      (host.tree.insertDirectories upper (guestPlace newPath.val).tail.reverse).Movable
        (guestPlace oldPath.val ++ root) (guestPlace newPath.val ++ upper) ∧
      (doRenameat proc host a0 a1 a2 a3).2 =
        { host with
          tree := (host.tree.insertDirectories upper (guestPlace newPath.val).tail.reverse).move
            (guestPlace oldPath.val ++ root) (guestPlace newPath.val ++ upper) } := by
  have oldInside : guestPlace oldPath.val ≠ [] := fun top => notBelow (by rw [top]; simp)
  have newInside : guestPlace newPath.val ≠ [] := fun top => notAbove (by rw [top]; simp)
  obtain ⟨layersAfter, oldAfter⟩ := layered_insertDirectories layers old
    (guestPlace newPath.val).tail.reverse
  obtain ⟨-, newAfter⟩ := layered_insertDirectories layers new (guestPlace newPath.val).tail.reverse
  have resolvedNew := resolvePathWrite_eq namedNew (new.write layers)
  obtain ⟨base, root, layer, _, resolvedOld, oldText⟩ := old.read_layer layers
  obtain ⟨leftUpper, basedUpper⟩ := layersAfter.overlay
  obtain ⟨left, based, linkFree⟩ : ∃ left,
      descend { host with
          tree := host.tree.insertDirectories upper (guestPlace newPath.val).tail.reverse }
        base.val = .ok (left, root) ∧
      (host.tree.insertDirectories upper (guestPlace newPath.val).tail.reverse).LinkFree root
        (guestPlace oldPath.val).reverse := by
    rcases layer with ⟨rfl, rfl, -⟩ | ⟨rfl, rfl, -⟩
    · exact ⟨leftUpper, basedUpper, oldAfter.upperFree⟩
    · obtain ⟨left, based⟩ := layersAfter.rootfs
      exact ⟨left, based, oldAfter.lowerFree⟩
  simp only [doRenameat, resolvePath_eq namedOld resolvedOld, resolvedNew, oldText] at returned ⊢
  split at returned
  · rename_i error failed
    exact absurd returned (negErrno_ne_zero error)
  rename_i succeeded
  obtain ⟨_, _, located, targetLocated, moves⟩ := movable_of_rename succeeded
  obtain rfl := eq_of_locate_place based (isName_guestPlace _) linkFree oldInside located
  obtain rfl := eq_of_locate_place basedUpper (isName_guestPlace _) newAfter.upperFree newInside
    targetLocated
  refine ⟨root, layer.imp And.right And.right, moves.resolve_left fun ⟨same, _⟩ => ?_⟩
  rcases layer with ⟨-, rfl, -⟩ | ⟨-, rfl, -⟩
  · rw [append_cancel_right same] at notBelow
    exact notBelow suffix_rfl
  · exact apart.append_ne _ _ same

theorem readObject_doRenameat (anchored : Anchored proc.vfs host lower upper)
    (returned : (doRenameat proc host a0 a1 a2 a3).1 = 0) :
    readObject proc.vfs (doRenameat proc host a0 a1 a2 a3).2 oldPath = none ↔
      ¬(host.tree.node (guestPlace oldPath.val ++ upper) ≠ none ∧
        host.tree.node (guestPlace oldPath.val ++ lower) ≠ none) := by
  obtain ⟨root, layer, movable, moves⟩ := movable_of_doRenameat layers apart namedOld namedNew old
    new notBelow notAbove returned
  have oldInside : guestPlace oldPath.val ≠ [] := fun top => notBelow (by rw [top]; simp)
  have newInside : guestPlace newPath.val ≠ [] := fun top => notAbove (by rw [top]; simp)
  have after := node_move movable
  rw [moves]
  refine (readObject_changed layers apart anchored old ?_ ?_).trans ?_
  · have sourceInside : Inside lower upper (guestPlace oldPath.val ++ root) := by
      rcases layer with ⟨rfl, -⟩ | ⟨rfl, -⟩
      · exact inside_upper oldInside
      · exact inside_lower oldInside
    exact (sameOutside_insertDirectories _ _ _ _).trans
      (sameOutside_move movable sourceInside (inside_upper newInside))
  · intro inner suffix nonempty layerRoot isLayer notLink
    rw [← host.tree.linkAt_insertDirectories upper (guestPlace newPath.val).tail.reverse] at notLink
    have notTarget : ¬guestPlace newPath.val ++ upper <:+ inner ++ layerRoot := by
      rcases isLayer with rfl | rfl
      · exact apart.not_suffix_lower _ _
      · exact not_suffix_append fun above => notAbove (above.trans suffix)
    rw [linkAt, after, moved, if_neg notTarget]
    by_cases below : guestPlace oldPath.val ++ root <:+ inner ++ layerRoot
    · rw [if_pos below]
    · rw [if_neg below]
      exact notLink
  · have upperTarget : ¬guestPlace newPath.val ++ upper <:+ guestPlace oldPath.val ++ upper :=
      not_suffix_append notAbove
    have lowerTarget : ¬guestPlace newPath.val ++ upper <:+ guestPlace oldPath.val ++ lower :=
      apart.not_suffix_lower _ _
    rw [after, after, moved, if_neg upperTarget, moved, if_neg lowerTarget]
    rcases layer with ⟨rfl, present⟩ | ⟨rfl, absent⟩
    · rw [if_pos suffix_rfl, if_neg (apart.not_suffix_lower _ _),
        node_lower_insertDirectories apart]
      simp [present]
    have notMade : ¬guestPlace oldPath.val <:+ (guestPlace newPath.val).tail.reverse.reverse := by
      rw [reverse_reverse]
      exact fun suffix => notBelow (suffix.trans (tail_suffix _))
    rw [if_neg (Apart.not_suffix_lower apart.symm _ _), if_pos suffix_rfl,
      node_upper_insertDirectories notMade]
    simp [absent]

end Rename

/-- Removal and renaming take a path away exactly if the root directory has nothing there. -/
theorem removal_visible_iff {proc : Process} {host : Host} {lower upper : Location} {a0 a1 : UInt64}
    {absPath : PathBuffer} (layers : Layers proc.vfs host lower upper) (apart : Apart lower upper)
    (anchored : Anchored proc.vfs host lower upper)
    (named : guestAbsPath proc (toInt32 a0) a1 = .ok absPath)
    (layered : LayeredPath proc.vfs host lower upper absPath.val)
    (inside : guestPlace absPath.val ≠ []) :
    (∀ a2, (doUnlinkat proc host a0 a1 a2).1 = 0 →
      (readObject proc.vfs (doUnlinkat proc host a0 a1 a2).2 absPath = none ↔
        host.tree.node (guestPlace absPath.val ++ lower) = none)) ∧
    (∀ a2 a3 newPath, guestAbsPath proc (toInt32 a2) a3 = .ok newPath →
      LayeredPath proc.vfs host lower upper newPath.val →
      ¬guestPlace absPath.val <:+ guestPlace newPath.val →
      ¬guestPlace newPath.val <:+ guestPlace absPath.val →
      (doRenameat proc host a0 a1 a2 a3).1 = 0 →
        (readObject proc.vfs (doRenameat proc host a0 a1 a2 a3).2 absPath = none ↔
          ¬(host.tree.node (guestPlace absPath.val ++ upper) ≠ none ∧
            host.tree.node (guestPlace absPath.val ++ lower) ≠ none))) ∧
    (readObject proc.vfs host absPath ≠ none → ∀ a2,
      ((doUnlinkat proc host a0 a1 a2).1 ≠ -2 ↔
        host.tree.node (guestPlace absPath.val ++ upper) ≠ none ∨
          ¬host.tree.Clear upper (guestPlace absPath.val).tail.reverse)) := by
  refine ⟨fun a2 returned => ?_, ?_, fun _ a2 => ?_⟩
  · exact readObject_doUnlinkat layers named layered inside apart anchored returned
  · intro a2 a3 newPath namedNew layeredNew notBelow notAbove returned
    exact readObject_doRenameat layers apart named namedNew layered layeredNew notBelow notAbove
      anchored returned
  · rw [ne_eq, doUnlinkat_eq_enoent layers named layered inside, not_and_or]

theorem anchored_overlaid (lowerDirectory : host.tree.node (placeOf "/r") = some .directory)
    (upperDirectory : host.tree.node (placeOf "/o") = some .directory) :
    Anchored overlaidVfs host (placeOf "/r") (placeOf "/o") := by
  have isName : ∀ name ∈ placeOf "/r" ++ placeOf "/o", IsName name :=
    forall_mem_append.mpr ⟨isName_guestPlace _, isName_guestPlace _⟩
  have free : ∀ place : Location, place.length = 1 → host.tree.node place = some .directory →
      host.tree.LinkFree [] place.reverse := by
    intro place single directory
    obtain ⟨_, rfl⟩ := length_eq_one_iff.mp single
    exact ⟨by rw [linkAt, directory], trivial⟩
  exact anchored_of_names (by decide +kernel) (by decide +kernel) (by decide +kernel) isName
    lowerDirectory upperDirectory (free _ (by decide +kernel) lowerDirectory)
    (free _ (by decide +kernel) upperDirectory)

/-- A host with a file that only the overlay has. -/
def upperHost : Host := overlaidHost [("/o/f", .file [])]

theorem removal_visible_upper :
    (doUnlinkat (pathProcess "/f") upperHost workingDirectory 0 0).1 = 0 ∧
      readObject overlaidVfs
        (doUnlinkat (pathProcess "/f") upperHost workingDirectory 0 0).2 (pathOf "/f") = none := by
  have layers : Layers (pathProcess "/f").vfs upperHost (placeOf "/r") (placeOf "/o") := by
    decide +kernel
  have named : guestAbsPath (pathProcess "/f") (toInt32 workingDirectory) 0 =
      .ok (pathOf "/f") := by
    decide +kernel
  have layered : LayeredPath (pathProcess "/f").vfs upperHost (placeOf "/r")
      (placeOf "/o") (pathOf "/f").val := by
    decide +kernel
  have returned : (doUnlinkat (pathProcess "/f") upperHost workingDirectory 0 0).1 = 0 := by
    decide +kernel
  refine ⟨returned, ?_⟩
  refine ((removal_visible_iff layers (by decide +kernel) ?_ named layered
    (by decide +kernel)).1 0 returned).mpr (by decide +kernel)
  exact anchored_overlaid layers.lowerDirectory layers.upperDirectory

/-- A host with a file in both layers and one in the root directory. -/
def twiceHost : Host :=
  overlaidHost [("/r/f", .file []), ("/o/f", .file []), ("/r/g", .file [])]

/-- A process with a path to rename and the new path in its memory. -/
def renamingProcess : Process :=
  sampleProcess fun address => if address = 0 then "/f" else "/h"

/-- A file is still read after removal or renaming, and another one cannot be removed. -/
theorem removal_shows_lower :
    ((doUnlinkat (pathProcess "/f") twiceHost workingDirectory 0 0).1 = 0 ∧
      readObject overlaidVfs
        (doUnlinkat (pathProcess "/f") twiceHost workingDirectory 0 0).2 (pathOf "/f") =
          some (placeOf "/r/f")) ∧
    ((doRenameat renamingProcess twiceHost workingDirectory 0 workingDirectory 1).1 = 0 ∧
      readObject overlaidVfs
        (doRenameat renamingProcess twiceHost workingDirectory 0 workingDirectory 1).2
        (pathOf "/f") = some (placeOf "/r/f")) ∧
    (readObject overlaidVfs twiceHost (pathOf "/g") = some (placeOf "/r/g") ∧
      (doUnlinkat (pathProcess "/g") twiceHost workingDirectory 0 0).1 = -2) := by
  decide +kernel

end AlpineOnIOS.SysFile
