import AlpineOnIOS.Foundation.TreeEdits
import AlpineOnIOS.Vfs.Layers

/-!
# Changes to the two layers

What new directories and files leave of two layers of a host. Resolving a path for writing makes
the directories on the way in the overlay, where they are read as empty from then on.
-/

namespace AlpineOnIOS.Vfs

open Foundation List Host Tree

/-- Neither of two locations is inside the other. -/
def Apart (lower upper : Location) : Prop := ¬lower <:+ upper ∧ ¬upper <:+ lower
  deriving Decidable

variable {lower upper : Location}

theorem Apart.append_ne (apart : Apart lower upper)
    (inner other : Location) : inner ++ lower ≠ other ++ upper := by
  intro same
  have below : lower <:+ other ++ upper := ⟨inner, same⟩
  rcases suffix_or_suffix_of_suffix below (suffix_append other upper) with
    inUpper | inLower
  · exact apart.1 inUpper
  · exact apart.2 inLower

variable {other root : Location}

theorem not_suffix_append {inner : Location} (outside : ¬inner <:+ other) :
    ¬inner ++ root <:+ other ++ root := by
  rintro ⟨front, same⟩
  rw [← append_assoc] at same
  exact outside ⟨front, append_cancel_right same⟩

theorem Apart.not_suffix_lower (apart : Apart lower upper)
    (inner other : Location) : ¬inner ++ upper <:+ other ++ lower := by
  rintro ⟨_, same⟩
  rw [← append_assoc] at same
  exact apart.append_ne _ _ same.symm

variable {vfs : VfsT} {host : Host} {tree : Tree} {path : CString}

theorem Layers.extends (layers : Layers vfs host lower upper) (grows : host.tree.Extends tree) :
    Layers vfs { host with tree } lower upper where
  isSet := layers.isSet
  rootfs := layers.rootfs.imp fun _ based => descend_extends grows based
  overlay := layers.overlay.imp fun _ based => descend_extends grows based
  lowerDirectory := grows _ _ layers.lowerDirectory
  upperDirectory := grows _ _ layers.upperDirectory

theorem Layers.sameWays (layers : Layers vfs host lower upper)
    (same : host.tree.SameWays tree) : Layers vfs { host with tree } lower upper where
  isSet := layers.isSet
  rootfs := layers.rootfs.imp fun _ based =>
    descend_sameWays same layers.lowerDirectory based
  overlay := layers.overlay.imp fun _ based =>
    descend_sameWays same layers.upperDirectory based
  lowerDirectory := same.directory layers.lowerDirectory
  upperDirectory := same.directory layers.upperDirectory

theorem LayeredPath.congr (layered : LayeredPath vfs host lower upper path)
    (links : ∀ location, tree.linkAt location = host.tree.linkAt location) :
    LayeredPath vfs { host with tree } lower upper path :=
  { layered with
    lowerFree := layered.lowerFree.congr links
    upperFree := layered.upperFree.congr links }

/-- A location is inside one of two directories. -/
def Inside (lower upper location : Location) : Prop :=
  ∃ inner, inner ≠ [] ∧ (location = inner ++ lower ∨ location = inner ++ upper)

/-- Two trees differ only inside the layers. -/
def SameOutside (lower upper : Location) (before after : Tree) : Prop :=
  ∀ location, ¬Inside lower upper location → after.node location = before.node location

/-- The names of the layers lead to them whatever is inside. -/
def Anchored (vfs : VfsT) (host : Host) (lower upper : Location) : Prop :=
  ∀ tree, SameOutside lower upper host.tree tree →
    (∃ left, { host with tree }.descend vfs.rootfs.val = .ok (left, lower)) ∧
      ∃ left, { host with tree }.descend vfs.overlay.val = .ok (left, upper)

variable {location : Location} {place : Location}

theorem inside_lower (nonempty : place ≠ []) : Inside lower upper (place ++ lower) :=
  ⟨place, nonempty, .inl rfl⟩

theorem inside_upper (nonempty : place ≠ []) : Inside lower upper (place ++ upper) :=
  ⟨place, nonempty, .inr rfl⟩

theorem Inside.of_suffix (inside : Inside lower upper place) (suffix : place <:+ location) :
    Inside lower upper location := by
  obtain ⟨inner, nonempty, same⟩ := inside
  obtain ⟨front, rfl⟩ := suffix
  refine ⟨front ++ inner, by simp [nonempty], ?_⟩
  rw [append_assoc, append_assoc]
  exact same.imp (congrArg _) (congrArg _)

theorem SameOutside.trans {first second third : Tree}
    (early : SameOutside lower upper first second) (late : SameOutside lower upper second third) :
    SameOutside lower upper first third :=
  fun location outside => (late location outside).trans (early location outside)

theorem Apart.not_inside_lower (apart : Apart lower upper) (suffix : place <:+ lower) :
    ¬Inside lower upper place := by
  rintro ⟨_, nonempty, rfl | rfl⟩
  · have length := suffix.length_le
    have positive := length_pos_iff.mpr nonempty
    rw [length_append] at length
    omega
  · exact apart.2 ((suffix_append _ _).trans suffix)

theorem Apart.not_inside_upper (apart : Apart lower upper) (suffix : place <:+ upper) :
    ¬Inside lower upper place :=
  fun ⟨inner, nonempty, same⟩ =>
    Apart.not_inside_lower apart.symm suffix ⟨inner, nonempty, same.symm⟩

theorem Anchored.layers (anchored : Anchored vfs host lower upper)
    (layers : Layers vfs host lower upper) (apart : Apart lower upper)
    (same : SameOutside lower upper host.tree tree) :
    Layers vfs { host with tree } lower upper where
  isSet := layers.isSet
  rootfs := (anchored tree same).1
  overlay := (anchored tree same).2
  lowerDirectory := (same _ (apart.not_inside_lower suffix_rfl)).trans layers.lowerDirectory
  upperDirectory := (same _ (apart.not_inside_upper suffix_rfl)).trans layers.upperDirectory

theorem LayeredPath.mono (layered : LayeredPath vfs host lower upper path)
    (links : ∀ inner, inner <:+ guestPlace path → inner ≠ [] → ∀ root, root = lower ∨ root = upper →
      host.tree.linkAt (inner ++ root) = none → tree.linkAt (inner ++ root) = none) :
    LayeredPath vfs { host with tree } lower upper path := by
  have free : ∀ root, root = lower ∨ root = upper →
      host.tree.LinkFree root (guestPlace path).reverse →
        tree.LinkFree root (guestPlace path).reverse := by
    intro root layer linkFree
    rw [Tree.linkFree_iff] at linkFree ⊢
    intro front nonempty isFront
    refine links front.reverse ?_ (by simpa using nonempty) root layer
      (linkFree front nonempty isFront)
    rwa [← reverse_prefix, reverse_reverse]
  exact { layered with
    lowerFree := free lower (.inl rfl) layered.lowerFree
    upperFree := free upper (.inr rfl) layered.upperFree }

/-- Names from the top of the host's tree without links hold the layers. -/
theorem anchored_of_names (apart : Apart lower upper) (rootfs : vfs.rootfs.val = placePath [] lower)
    (overlay : vfs.overlay.val = placePath [] upper) (isName : ∀ name ∈ lower ++ upper, IsName name)
    (lowerDirectory : host.tree.node lower = some .directory)
    (upperDirectory : host.tree.node upper = some .directory)
    (lowerFree : host.tree.LinkFree [] lower.reverse)
    (upperFree : host.tree.LinkFree [] upper.reverse) : Anchored vfs host lower upper := by
  intro tree same
  have top : ({ host with tree } : Host).descend [] = .ok (host.linkMax, []) := by
    rw [descend, walkFrom]
    exact walk_nil
  have leads : ∀ place : Location, (∀ inner, inner <:+ place → ¬Inside lower upper inner) →
      (∀ name ∈ place, IsName name) → host.tree.node place = some .directory →
        host.tree.LinkFree [] place.reverse →
          ({ host with tree } : Host).descend (placePath [] place) = .ok (host.linkMax, place) := by
    intro place outside names directory linkFree
    have present : tree.node (place ++ []) ≠ none := by
      rw [append_nil, same place (outside place suffix_rfl), directory]
      simp
    have free : tree.LinkFree [] place.reverse := by
      rw [Tree.linkFree_iff] at linkFree ⊢
      intro front nonempty isFront
      have suffix : front.reverse <:+ place := by
        rwa [← reverse_prefix, reverse_reverse]
      have kept := same front.reverse (outside _ suffix)
      have notLink := linkFree front nonempty isFront
      rw [append_nil, Tree.linkAt] at notLink ⊢
      rwa [kept]
    have walked := descend_placePath_linkFree top names free present
    rwa [append_nil] at walked
  rw [forall_mem_append] at isName
  rw [rootfs, overlay]
  exact ⟨⟨_, leads lower (fun _ => apart.not_inside_lower) isName.1 lowerDirectory lowerFree⟩,
    ⟨_, leads upper (fun _ => apart.not_inside_upper) isName.2 upperDirectory upperFree⟩⟩

theorem LayeredPath.read_layer {guestPath : PathBuffer}
    (layered : LayeredPath vfs host lower upper guestPath.val)
    (layers : Layers vfs host lower upper) :
    ∃ (base : PathBuffer) (root : Location),
      (base = vfs.overlay ∧ root = upper ∧
          host.tree.node (guestPlace guestPath.val ++ upper) ≠ none ∨
        base = vfs.rootfs ∧ root = lower ∧
          host.tree.node (guestPlace guestPath.val ++ upper) = none) ∧
      ∃ path, vfsResolve vfs host guestPath = some path ∧
        path.val = placePath base.val (guestPlace guestPath.val) := by
  by_cases absent : host.tree.node (guestPlace guestPath.val ++ upper) = none
  · refine ⟨vfs.rootfs, lower, .inr ⟨rfl, rfl, absent⟩, ⟨_, layered.lowerFits⟩, ?_, rfl⟩
    rw [vfsResolve, layered.read_lower layers absent]
  · refine ⟨vfs.overlay, upper, .inl ⟨rfl, rfl, absent⟩, ⟨_, layered.placePath_upper_fits⟩, ?_, rfl⟩
    rw [vfsResolve, layered.read_upper layers absent]

variable {base : CString} {first second : PathBuffer}

theorem placePath_inj (isName : ∀ name ∈ place, IsName name)
    (otherNames : ∀ name ∈ other, IsName name)
    (same : placePath base place = placePath base other) : place = other := by
  have names := congrArg tokens (append_cancel_left same)
  rw [tokens_render (isName_reverse isName), tokens_render (isName_reverse otherNames)] at names
  exact reverse_injective names

section

variable (layers : Layers vfs host lower upper)

include layers

theorem LayeredPath.write_eq_iff
    (layered : LayeredPath vfs host lower upper first.val)
    (other : LayeredPath vfs host lower upper second.val) :
    vfsResolveRw vfs host first .write = vfsResolveRw vfs host second .write ↔
      guestPlace first.val = guestPlace second.val := by
  rw [layered.write layers, other.write layers]
  constructor
  · intro same
    have texts := congrArg Subtype.val (Option.some.inj (Prod.mk.inj same).1)
    exact placePath_inj (isName_guestPlace _) (isName_guestPlace _) texts
  · intro same
    simp only [same]

theorem Layers.placePath_ne (apart : Apart lower upper)
    (layered : LayeredPath vfs host lower upper first.val)
    (present : host.tree.node (guestPlace first.val ++ upper) ≠ none)
    (other : LayeredPath vfs host lower upper second.val) :
    placePath vfs.overlay.val (guestPlace first.val) ≠
      placePath vfs.rootfs.val (guestPlace second.val) := by
  intro same
  obtain ⟨_, upperBased⟩ := layers.overlay
  obtain ⟨_, lowerBased⟩ := layers.rootfs
  have walked := descend_placePath_linkFree upperBased (isName_guestPlace _) layered.upperFree present
  rw [same] at walked
  have reached := eq_of_descend_placePath lowerBased (isName_guestPlace _) other.lowerFree walked
  exact apart.append_ne _ _ (Prod.mk.inj reached).2.symm

theorem LayeredPath.read_eq_iff (apart : Apart lower upper)
    (layered : LayeredPath vfs host lower upper first.val)
    (other : LayeredPath vfs host lower upper second.val) :
    vfsResolve vfs host first = vfsResolve vfs host second ↔
      guestPlace first.val = guestPlace second.val := by
  obtain ⟨_, _, layer, _, resolved, text⟩ := layered.read_layer layers
  obtain ⟨_, _, otherLayer, _, otherResolved, otherText⟩ :=
    other.read_layer layers
  rw [resolved, otherResolved, Option.some.injEq, ← Subtype.val_inj, text, otherText]
  constructor
  · intro same
    rcases layer with ⟨rfl, -, present⟩ | ⟨rfl, -, -⟩
    · rcases otherLayer with ⟨rfl, -, -⟩ | ⟨rfl, -, -⟩
      · exact placePath_inj (isName_guestPlace _) (isName_guestPlace _) same
      · exact absurd same (layers.placePath_ne apart layered present other)
    · rcases otherLayer with ⟨rfl, -, present⟩ | ⟨rfl, -, -⟩
      · exact absurd same.symm (layers.placePath_ne apart other present layered)
      · exact placePath_inj (isName_guestPlace _) (isName_guestPlace _) same
  · intro same
    rw [same] at layer ⊢
    rcases layer with ⟨rfl, -, present⟩ | ⟨rfl, -, absent⟩
    · rcases otherLayer with ⟨rfl, -, -⟩ | ⟨-, -, absent⟩
      · rfl
      · exact absurd absent present
    · rcases otherLayer with ⟨-, -, present⟩ | ⟨rfl, -, -⟩
      · exact absurd absent present
      · rfl

end

variable {after : Host} {outer : Location} {name : CString} {flags : OpenFlags} {left : Nat}

/-- A path below a layer that is not the layer names its place there. -/
theorem eq_of_locate_place (based : host.descend base = .ok (left, root))
    (isName : ∀ name ∈ place, IsName name) (linkFree : host.tree.LinkFree root place.reverse)
    (inside : place ≠ []) (located : host.locate (placePath base place) = .ok location) :
    location = place ++ root := by
  obtain ⟨_, _, rfl⟩ := exists_cons_of_ne_nil inside
  rw [forall_mem_cons] at isName
  rw [reverse_cons, Tree.linkFree_append] at linkFree
  exact (eq_of_locate_placePath based isName.2 linkFree.1 isName.1 located).1

/-- Something other than directories in front of the last component leads to `ENOTDIR`. -/
theorem locate_placePath_blocked (based : host.descend base = .ok (left, root))
    (isName : ∀ name ∈ outer, IsName name) (linkFree : host.tree.LinkFree root outer.reverse)
    (last : IsName name) (blocked : ¬host.tree.Clear root outer.reverse) :
    host.locate (placePath base (name :: outer)) = .error .enotdir := by
  rw [placePath_cons, host.locate_append_slash _ last.plain, descend_placePath based isName]
  exact child_blocked (isName_reverse isName) linkFree blocked _

theorem LayeredPath.upperFree_cons (layered : LayeredPath vfs host lower upper path)
    (shape : guestPlace path = name :: outer) :
    host.tree.LinkFree upper outer.reverse ∧
      host.tree.linkAt (name :: (outer ++ upper)) = none := by
  have linkFree := layered.upperFree
  rw [shape, reverse_cons, Tree.linkFree_append, reverse_reverse] at linkFree
  exact ⟨linkFree.1, linkFree.2.1⟩

theorem LayeredPath.place_of_created (layered : LayeredPath vfs host lower upper path)
    (layers : Layers vfs host lower upper) (shape : guestPlace path = name :: outer)
    (creates : flags.create = true)
    (opened : host.openFile flags (placePath vfs.overlay.val (name :: outer)) =
      .ok (place, after)) :
    place = name :: (outer ++ upper) := by
  obtain ⟨_, based⟩ := layers.overlay
  obtain ⟨linkFree, notLink⟩ := layered.upperFree_cons shape
  have isName := isName_guestPlace path
  rw [shape, forall_mem_cons] at isName
  obtain ⟨_, located, atLocation⟩ := place_of_openFile creates opened
  obtain ⟨rfl, -⟩ := eq_of_locate_placePath based isName.2 linkFree isName.1 located
  exact atLocation notLink

/-- A name that the directory has which a path is read from; `getdents64` lists these. -/
def Shows (vfs : VfsT) (host : Host) (guestPath : PathBuffer) (name : CString) : Prop :=
  ∃ object, readObject vfs host guestPath = some object ∧ host.tree.node (name :: object) ≠ none

/-- A path is read from the same object, which shows the same names except that of a place. -/
def SameView (vfs : VfsT) (before after : Host) (place : Location) (guestPath : PathBuffer) :
    Prop :=
  readObject vfs after guestPath = readObject vfs before guestPath ∧
    ∀ name, name :: guestPlace guestPath.val ≠ place →
      (Shows vfs after guestPath name ↔ Shows vfs before guestPath name)

/-- Resolving a path for writing changes no path that is not below it. -/
structure LeavesOthers (vfs : VfsT) (host : Host) (lower upper : Location) (written : PathBuffer) :
    Prop where
  resolving : ∀ other : PathBuffer, ¬guestPlace written.val <:+ guestPlace other.val →
    SameView vfs host (vfsResolveRw vfs host written .write).2 (guestPlace written.val) other
  creating : ∀ other : PathBuffer, ¬guestPlace written.val <:+ guestPlace other.val →
    LayeredPath vfs host lower upper other.val → ∀ path after flags place created,
      vfsResolveRw vfs host written .write = (some path, after) → flags.create = true →
        after.openFile flags path.val = .ok (place, created) →
          SameView vfs host created (guestPlace written.val) other

theorem SameView.refl (vfs : VfsT) (host : Host) (place : Location) (guestPath : PathBuffer) :
    SameView vfs host host place guestPath := ⟨rfl, fun _ _ => Iff.rfl⟩

variable {mounts : List Mount}

theorem vfsFindMount_front {front rest : CString}
    (unmounted : vfsFindMount mounts (front ++ slash :: rest) = none) :
    vfsFindMount mounts front = none := by
  rw [vfsFindMount_eq, Option.map_eq_none_iff, find?_eq_none] at unmounted ⊢
  intro mount member covered
  refine unmounted mount member (decide_eq_true (.inr ?_))
  rcases of_decide_eq_true covered with rfl | longer
  · simp
  · exact longer.trans (List.prefix_append _ _)

variable {inner : Location}

theorem normalText_append {place : Location} (inside : inner ≠ []) (nonempty : place ≠ []) :
    ∃ rest, normalText (inner ++ place) = normalText place ++ slash :: rest := by
  obtain ⟨front, name, rfl⟩ := (eq_nil_or_concat inner).resolve_left inside
  refine ⟨name ++ render front.reverse, ?_⟩
  rw [normalText, normalText, if_neg (by simp), if_neg nonempty]
  simp

theorem LayeredPath.front (layered : LayeredPath vfs host lower upper path)
    (normal : path = normalText (guestPlace path)) (shape : guestPlace path = inner ++ outer)
    (inside : inner ≠ []) (nonempty : outer ≠ []) :
    LayeredPath vfs host lower upper (normalText outer) := by
  obtain ⟨_, longer⟩ := normalText_append inside nonempty
  have isName : ∀ name ∈ outer, IsName name := fun name member =>
    isName_guestPlace path name (by rw [shape]; exact mem_append_right _ member)
  have placed := guestPlace_normalText isName
  have free : ∀ root, host.tree.LinkFree root (guestPlace path).reverse →
      host.tree.LinkFree root outer.reverse := by
    intro root linkFree
    rw [shape, reverse_append, linkFree_append] at linkFree
    exact linkFree.1
  have lowerFits := layered.lowerFits
  have upperFits := layered.upperFits
  have few := layered.few
  rw [shape] at lowerFits upperFits few
  refine ⟨?_, .inl ?_, ?_, ?_, ?_, ?_, ?_⟩
  · have unmounted := layered.unmounted
    rw [normal, shape, longer] at unmounted
    exact vfsFindMount_front unmounted
  · rw [normalText, if_neg nonempty]
    obtain ⟨_, _, rfl⟩ := (eq_nil_or_concat outer).resolve_left nonempty
    simp
  · rw [placed]
    rw [length_append] at few
    omega
  · rw [placed]
    exact Nat.lt_of_le_of_lt (placePath_append_length _ inner outer) lowerFits
  · rw [placed]
    rw [longer, ← append_assoc, length_append] at upperFits
    omega
  · rw [placed]
    exact free lower layered.lowerFree
  · rw [placed]
    exact free upper layered.upperFree

/-- Where directories are made the first of them is a path in front of the one that is written. -/
theorem LayeredPath.exists_made (layered : LayeredPath vfs host lower upper path)
    (normal : path = normalText (guestPlace path))
    (missing : ¬host.tree.Complete upper (guestPlace path).tail.reverse) :
    ∃ other : PathBuffer, LayeredPath vfs host lower upper other.val ∧
      ¬guestPlace path <:+ guestPlace other.val ∧
      host.tree.node (guestPlace other.val ++ upper) = none ∧
      (host.tree.insertDirectories upper (guestPlace path).tail.reverse).node
        (guestPlace other.val ++ upper) = some .directory := by
  obtain ⟨front, nonempty, ⟨back, split⟩, absent, made⟩ := exists_inserted missing
  obtain ⟨name, shape⟩ : ∃ name, guestPlace path = (name :: back.reverse) ++ front.reverse := by
    rw [eq_comm, reverse_eq_iff] at split
    cases place : guestPlace path with
    | nil => simp [place, nonempty] at split
    | cons name =>
      rw [place, tail_cons, reverse_append] at split
      exact ⟨name, by rw [split, cons_append]⟩
  have layeredFront := layered.front normal shape (cons_ne_nil _ _) (by simpa using nonempty)
  have placed : guestPlace (normalText front.reverse) = front.reverse :=
    guestPlace_normalText fun name member =>
      isName_guestPlace path name (by rw [shape]; exact mem_append_right _ member)
  have short : (normalText front.reverse).length < pathMax := by
    have fits := layeredFront.upperFits
    rw [placed, length_append] at fits
    omega
  refine ⟨⟨_, short⟩, layeredFront, ?_, ?_, ?_⟩
  · intro suffix
    have longer := suffix.length_le
    rw [shape, placed, length_append, length_cons] at longer
    omega
  · rw [placed, absent]
  · rw [placed, made]

variable {created : Host} {written other : PathBuffer}

section

variable (layers : Layers vfs host lower upper)

include layers

theorem shows_iff
    (layered : LayeredPath vfs host lower upper other.val) :
    Shows vfs host other name ↔
      if host.tree.node (guestPlace other.val ++ upper) ≠ none then
        host.tree.node (name :: (guestPlace other.val ++ upper)) ≠ none
      else host.tree.node (name :: (guestPlace other.val ++ lower)) ≠ none := by
  rw [Shows, layered.readObject_eq layers]
  split
  · simp
  split
  · simp
  rename_i absent
  rw [not_not] at absent
  have inside := node_cons_eq_none (by rw [absent]; simp) name
  simp [inside]

/-- A file that is created in the overlay changes only the view of its own path. -/
theorem sameView_of_created (apart : Apart lower upper)
    (layered : LayeredPath vfs host lower upper other.val)
    (outside : ¬place <:+ guestPlace other.val) (same : host.tree.SameWays tree)
    (frame : ∀ location, location ≠ place ++ upper → tree.node location = host.tree.node location) :
    SameView vfs host { host with tree } place other := by
  have inUpper : ∀ inner, inner ≠ place →
      tree.node (inner ++ upper) = host.tree.node (inner ++ upper) := fun inner different =>
    frame _ fun equal => different (append_cancel_right equal)
  have inLower : ∀ inner, tree.node (inner ++ lower) = host.tree.node (inner ++ lower) :=
    fun inner => frame _ (apart.append_ne inner place)
  have different : guestPlace other.val ≠ place := by
    rintro rfl
    exact outside suffix_rfl
  have layersAfter := layers.sameWays same
  have layeredAfter := layered.congr same.linkAt_eq
  refine ⟨?_, fun name notPlace => ?_⟩
  · rw [layered.readObject_eq layers, layeredAfter.readObject_eq layersAfter]
    simp only [inUpper _ different, inLower]
  · have insideUpper := inUpper _ notPlace
    have insideLower := inLower (name :: guestPlace other.val)
    rw [cons_append] at insideUpper insideLower
    rw [shows_iff layers layered, shows_iff layersAfter layeredAfter]
    simp only [inUpper _ different, insideUpper, insideLower]

theorem not_sameView_of_made (apart : Apart lower upper)
    (layered : LayeredPath vfs host lower upper other.val) (grows : host.tree.Extends tree)
    (links : ∀ location, tree.linkAt location = host.tree.linkAt location)
    (absent : host.tree.node (guestPlace other.val ++ upper) = none)
    (made : tree.node (guestPlace other.val ++ upper) = some .directory) :
    ¬SameView vfs host { host with tree } place other := by
  rintro ⟨unchanged, -⟩
  rw [layered.readObject_eq layers, (layered.congr links).readObject_eq (layers.extends grows),
    if_pos (by rw [made]; simp), if_neg (by rw [absent]; simp)] at unchanged
  split at unchanged
  · exact apart.append_ne _ _ (Option.some.inj unchanged).symm
  · cases unchanged

end

/-- Writing leaves other paths alone exactly if it makes no directory. -/
theorem leavesOthers_iff {vfs : VfsT} {host : Host} {lower upper : Location} {written : PathBuffer}
    (layers : Layers vfs host lower upper) (apart : Apart lower upper)
    (layered : LayeredPath vfs host lower upper written.val)
    (normal : written.val = normalText (guestPlace written.val)) :
    LeavesOthers vfs host lower upper written ↔
      host.tree.Complete upper (guestPlace written.val).tail.reverse := by
  have resolved := layered.write layers
  constructor
  · intro leaves
    by_contra missing
    obtain ⟨other, layeredOther, outside, absent, made⟩ := layered.exists_made normal missing
    have view := leaves.resolving other outside
    rw [resolved] at view
    exact not_sameView_of_made layers apart layeredOther (extends_insertDirectories _ _ _)
      (linkAt_insertDirectories _ _ _) absent made view
  · intro complete
    rw [insertDirectories_complete complete] at resolved
    refine ⟨fun other _ => by rw [resolved]; exact SameView.refl _ _ _ _, ?_⟩
    intro other outside layeredOther path after flags place created writes creates opened
    rw [resolved] at writes
    cases writes
    obtain ⟨_, rfl, same, -, frame⟩ := Host.filesChanged_openFile opened
    cases shape : guestPlace written.val with
    | nil =>
      rw [shape] at outside
      exact absurd (nil_suffix) outside
    | cons =>
      rw [shape] at outside
      simp only [shape] at opened
      obtain rfl := layered.place_of_created layers shape creates opened
      exact sameView_of_created layers apart layeredOther outside same frame

theorem leavesOthers_made :
    LeavesOthers overlaidVfs (overlaidHost [("/r/d", .directory), ("/o/d", .directory)])
      (placeOf "/r") (placeOf "/o") (pathOf "/d/p") := by
  refine (leavesOthers_iff ?_ ?_ ?_ ?_).mpr ?_
  all_goals decide +kernel

/-- A host with a file in a directory that the overlay does not have. -/
def populatedHost : Host :=
  overlaidHost [("/r/d", .directory), ("/r/d/x", .file [])]

/-- Once a path in the directory is resolved for writing, the directory is read as empty. -/
theorem vfsResolveRw_hides_names :
    (readObject overlaidVfs populatedHost (pathOf "/d") = some (placeOf "/r/d") ∧
      populatedHost.tree.node (placeOf "/r/d/x") = some (.file [])) ∧
    (readObject overlaidVfs (vfsResolveRw overlaidVfs populatedHost (pathOf "/d/p") .write).2
        (pathOf "/d") = some (placeOf "/o/d") ∧
      (vfsResolveRw overlaidVfs populatedHost (pathOf "/d/p") .write).2.tree.node
        (placeOf "/o/d/x") = none) := by
  decide +kernel

/-- After a file was created at the result for writing, reading leads there. -/
def ReadsWritten (vfs : VfsT) (host : Host) (guestPath : PathBuffer) : Prop :=
  ∀ path after flags place created,
    vfsResolveRw vfs host guestPath .write = (some path, after) → flags.create = true →
      after.openFile flags path.val = .ok (place, created) →
        (vfsResolveRw vfs created guestPath .read).1 = some path

/-- The overlay is a directory in which no link stands in front of the last component. -/
def OverlayStraight (vfs : VfsT) (host : Host) (place : Location) : Prop :=
  ∃ left upper, host.descend vfs.overlay.val = .ok (left, upper) ∧
    host.tree.node upper = some .directory ∧ host.tree.LinkFree upper place.tail.reverse

variable {guestPath path : PathBuffer}

theorem lstat_created
    (usable : vfs.overlay.val ≠ [] ∧
      (vfs.overlay.val ++ normalText (guestPlace guestPath.val)).length < pathMax)
    (straight : OverlayStraight vfs after (guestPlace guestPath.val))
    (walked : resolveNormalized vfs after vfs.overlay (normalText (guestPlace guestPath.val)) =
      some path)
    (creates : flags.create = true) (opened : after.openFile flags path.val = .ok (place, created)) :
    (created.lstat (vfs.overlay.val ++ normalText (guestPlace guestPath.val))).isSome = true := by
  obtain ⟨_, upper, based, directory, linkFree⟩ := straight
  have isName := isName_guestPlace guestPath.val
  have few := few_of_resolveNormalized isName walked
  obtain ⟨_, rfl, same, taken, -⟩ := filesChanged_openFile opened
  have basedAfter := descend_sameWays same directory based
  rw [lstat_normalText basedAfter (same.directory directory) isName
    (linkFree.congr same.linkAt_eq), Option.isSome_iff_ne_none]
  cases shape : guestPlace guestPath.val with
  | nil =>
    rw [List.nil_append, same.directory directory]
    simp
  | cons name outer =>
    rw [shape] at isName linkFree walked few usable
    cases link : after.tree.linkAt (name :: (outer ++ upper)) with
    | some =>
      rw [← same.linkAt_eq] at link
      intro absent
      rw [List.cons_append] at absent
      rw [Tree.linkAt, absent] at link
      cases link
    | none =>
      have allFree : after.tree.LinkFree upper (name :: outer).reverse := by
        rw [List.reverse_cons, Tree.linkFree_append, List.reverse_reverse]
        exact ⟨linkFree, link, trivial⟩
      have fits := Nat.lt_of_le_of_lt (placePath_length_le _ _) usable.2
      rw [resolveNormalized_linkFree based isName allFree few fits] at walked
      cases walked
      obtain ⟨_, located, atLocation⟩ := place_of_openFile creates opened
      rw [List.forall_mem_cons] at isName
      obtain ⟨rfl, -⟩ := eq_of_locate_placePath based isName.2 linkFree isName.1 located
      rw [atLocation link] at taken
      exact taken

/-- What was written is read if the overlay is not used, or has no link on the way. -/
theorem readsWritten_of_straight {vfs : VfsT} {host : Host} {guestPath : PathBuffer}
    (uncut : Uncut guestPath.val)
    (straight : vfs.overlay.val ≠ [] →
      (vfs.overlay.val ++ normalText (guestPlace guestPath.val)).length < pathMax →
        OverlayStraight vfs host (guestPlace guestPath.val)) :
    ReadsWritten vfs host guestPath := by
  intro path after flags place created written creates opened
  have unmounted : vfsFindMount vfs.mounts guestPath.val = none := by
    cases mounted : vfsFindMount vfs.mounts guestPath.val with
    | none => rfl
    | some =>
      rw [vfsResolveRw_mounted (by rw [mounted]; rfl)] at written
      cases written
  obtain ⟨tree, rfl, same, _, -⟩ := filesChanged_openFile opened
  have walkSame := resolveNormalized_congr (linkTarget_sameWays same) vfs
  by_cases usable : vfs.overlay.val ≠ [] ∧
      (vfs.overlay.val ++ normalText (guestPlace guestPath.val)).length < pathMax
  · rw [vfsResolveRw_chosen unmounted uncut (chooseBase_write usable)] at written
    obtain ⟨walked, rfl⟩ := Prod.mk.inj written
    obtain ⟨_, made, grows, links⟩ := overlayMkdirs_grows host
      (vfs.overlay.val ++ normalText (guestPlace guestPath.val))
    have straightAfter : OverlayStraight vfs
        (overlayMkdirs host (vfs.overlay.val ++ normalText (guestPlace guestPath.val)))
        (guestPlace guestPath.val) := by
      obtain ⟨left, upper, based, directory, linkFree⟩ := straight usable.1 usable.2
      rw [made]
      exact ⟨left, upper, descend_extends grows based, grows _ _ directory, linkFree.congr links⟩
    have found := lstat_created usable straightAfter walked creates opened
    rw [vfsResolveRw_chosen unmounted uncut (chooseBase_found usable found), walkSame]
    exact walked
  · have chosen : ∀ (host : Host) (mode : Mode),
        chooseBase vfs host (normalText (guestPlace guestPath.val)) mode = (vfs.rootfs, host) := by
      intro host mode
      exact if_neg usable
    rw [vfsResolveRw_chosen unmounted uncut (chosen _ _)] at written ⊢
    obtain ⟨walked, rfl⟩ := Prod.mk.inj written
    rw [walkSame]
    exact walked

/-- Flags with which a file is created. -/
def creating : OpenFlags :=
  { write := true, create := true, exclusive := false, truncate := false, directory := false }

theorem readsWritten_etc :
    ReadsWritten overlaidVfs (overlaidHost [("/r/etc", .directory)]) (pathOf "/etc/motd") ∧
      (vfsResolveRw overlaidVfs (overlaidHost [("/r/etc", .directory)]) (pathOf "/etc/motd")
        .write).1 = some (pathOf "/o/etc/motd") :=
  ⟨readsWritten_of_straight (by decide +kernel) fun _ _ =>
      ⟨40, placeOf "/o", by decide +kernel, by decide +kernel, by decide +kernel⟩,
    by decide +kernel⟩

/-- A host on which the overlay holds an absolute link to a directory of the root directory. -/
def redirectedHost : Host :=
  overlaidHost [("/r/t", .directory), ("/o/l", .link (CString.ofLiteral "/t"))]

/-- Behind the link a file is created in the root directory, and looked for elsewhere. -/
theorem vfsResolveRw_loses_written :
    (vfsResolveRw overlaidVfs redirectedHost (pathOf "/l/f") .write).1 = some (pathOf "/r/t/f") ∧
      (((vfsResolveRw overlaidVfs redirectedHost (pathOf "/l/f") .write).2.openFile creating
          (pathOf "/r/t/f").val).toOption.map fun opened =>
        (opened.1, (vfsResolveRw overlaidVfs opened.2 (pathOf "/l/f") .read).1)) =
      some (placeOf "/r/t/f", some (pathOf "/r/l/f")) := by
  decide +kernel

end AlpineOnIOS.Vfs
