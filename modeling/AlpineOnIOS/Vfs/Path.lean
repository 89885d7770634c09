import AlpineOnIOS.Foundation.Paths
import AlpineOnIOS.Foundation.Loop

/-!
# Guest paths and their resolution

The text operations of `vfs.c`, the mounts, and `vfs_resolve_rw`. A symbolic link replaces the
list of components by those of its target and the remaining ones, in one static buffer.
-/

namespace AlpineOnIOS.Vfs

open Foundation List

/-- `PATH_MAX` of the host. -/
def pathMax : Nat := 1024

/-- The text in a buffer of `PATH_MAX` bytes. -/
abbrev PathBuffer := { text : CString // text.length < pathMax }

/-- What `snprintf` leaves of a text in a buffer of `PATH_MAX` bytes. -/
def truncate (text : CString) : PathBuffer :=
  ⟨text.take (pathMax - 1), by rw [List.length_take, pathMax]; omega⟩

theorem truncate_eq {text : CString} (short : text.length < pathMax) : (truncate text).val = text :=
  List.take_of_length_le (Nat.le_sub_one_of_lt short)

variable (components : List CString) (component : CString)

/-- One component in `vfs_normalize_path`; the last component is the first of the list. -/
def pushComponent : List CString :=
  if component = here then components
  else if component = up then components.tail
  else component :: components

def vfsNormalizePath (cwd path : CString) : PathBuffer :=
  let text := if path.head? = some slash then path else (truncate (cwd ++ slash :: path)).val
  match (tokens text).foldl pushComponent [] with
  | [] => ⟨[slash], by decide⟩
  | last :: front => truncate (render (last :: front).reverse)

/-- The backends of the virtual mounts. -/
inductive Backend where
  | proc | dev
  deriving DecidableEq

/-- `vfs_mount_t`; `point` is its `prefix`. -/
structure Mount where
  point : PathBuffer
  backend : Backend
  deriving DecidableEq

structure VfsT where
  rootfs : PathBuffer
  overlay : PathBuffer
  mounts : List Mount

/-- The position at which `vfs_mount` inserts: in front of the first shorter mount point. -/
def insertMount (mount : Mount) : List Mount → List Mount
  | [] => [mount]
  | first :: rest =>
    if first.point.val.length < mount.point.val.length then mount :: first :: rest
    else first :: insertMount mount rest

variable (vfs : VfsT)

def vfsMount (point : CString) (backend : Backend) : VfsT :=
  { vfs with mounts := insertMount { point := truncate point, backend } vfs.mounts }

/-- `vfs_find_mount`: the mount and the path below it. -/
def vfsFindMount (mounts : List Mount) (path : CString) : Option (Mount × CString) :=
  match mounts with
  | [] => none
  | mount :: rest =>
    if mount.point.val.isPrefixOf path then
      match path.drop mount.point.val.length with
      | [] => some (mount, [slash])
      | char :: below =>
        if char = slash then some (mount, char :: below) else vfsFindMount rest path
    else
      vfsFindMount rest path

/-- The path is the mount point, or goes on behind it with a separator. -/
def Covers (path : CString) (mount : Mount) : Prop :=
  path = mount.point.val ∨ mount.point.val ++ [slash] <+: path
  deriving Decidable

theorem vfsFindMount_eq (mounts : List Mount) (path : CString) :
    vfsFindMount mounts path = (mounts.find? fun mount => Covers path mount).map fun mount =>
      (mount, if path = mount.point.val then [slash] else path.drop mount.point.val.length) := by
  induction mounts with
  | nil => rfl
  | cons mount mounts induction =>
    rw [vfsFindMount, find?_cons]
    split
    · rename_i starts
      obtain ⟨below, rfl⟩ := isPrefixOf_iff_prefix.mp starts
      rw [drop_left]
      cases below with
      | nil => simp [Covers]
      | cons char below =>
        by_cases isSlash : char = slash
        · simp [Covers, isSlash]
        · simp [Covers, isSlash, induction, Ne.symm isSlash]
    · rename_i other
      have uncovered : ¬Covers path mount := by
        rintro (rfl | longer)
        · simp at other
        · exact other (List.isPrefixOf_iff_prefix.mpr ((List.prefix_append _ _).trans longer))
      simp [uncovered, induction]

def vfsMountDefaults (host : Host) : VfsT × Host :=
  let tmp := vfs.rootfs.val ++ CString.ofLiteral "/tmp"
  (vfsMount (vfsMount vfs (CString.ofLiteral "/proc") .proc) (CString.ofLiteral "/dev") .dev,
    if tmp.length < pathMax then host.mkdir tmp else host)

def vfsCreate (rootfsPath : CString) (host : Host) : VfsT × Host :=
  vfsMountDefaults { rootfs := truncate rootfsPath, overlay := truncate [], mounts := [] } host

/-- The mounts that every file system has. -/
def defaultMounts : List Mount :=
  (vfsMount (vfsMount { rootfs := truncate [], overlay := truncate [], mounts := [] }
    (CString.ofLiteral "/proc") .proc) (CString.ofLiteral "/dev") .dev).mounts

def vfsSetOverlay (overlayPath : CString) : VfsT :=
  { vfs with overlay := truncate overlayPath }

variable (path : CString)

/-- The components that normalising leaves of a path. -/
def normalNames : List CString := ((tokens path).foldl pushComponent []).reverse

/-- The paths that `vfs_normalize_path` does not cut, with two separators in front. -/
def Uncut : Prop := path.head? = some slash ∨ path.length + 2 < pathMax
  deriving Decidable

theorem pushComponent_render_length :
    (render (pushComponent components component).reverse).length ≤
      (render components.reverse).length + (component.length + 1) := by
  rw [pushComponent]
  split
  · exact Nat.le_add_right _ _
  split
  · cases components with
    | nil => exact Nat.le_add_right _ _
    | cons =>
      rw [tail_cons, reverse_cons, render_concat, length_append]
      omega
  · refine Nat.le_of_eq ?_
    rw [reverse_cons, render_concat, length_append, length_cons]

theorem render_normalNames_length :
    (render (normalNames path)).length ≤ (render (tokens path)).length := by
  have general : ∀ (names components : List CString),
      (render (names.foldl pushComponent components).reverse).length ≤
        (render components.reverse).length + (render names).length := by
    intro names
    induction names with
    | nil => exact fun components => Nat.le_add_right _ _
    | cons name names induction =>
      intro components
      have pushed := pushComponent_render_length components name
      have others := induction (pushComponent components name)
      rw [foldl_cons, render_cons, length_append, length_cons]
      omega
  simpa [normalNames] using general (tokens path) []

theorem mem_pushComponent {components : List CString} {component : CString}
    (isName : ∀ name ∈ components, IsName name) (nonempty : component ≠ [])
    (plain : slash ∉ component) : ∀ name ∈ pushComponent components component, IsName name := by
  rw [pushComponent]
  split
  · exact isName
  rename_i notHere
  split
  · exact fun name member => isName name (mem_of_mem_tail member)
  · rename_i notUp
    exact forall_mem_cons.mpr ⟨⟨nonempty, plain, notHere, notUp⟩, isName⟩

theorem isName_normalNames : ∀ name ∈ normalNames path, IsName name := by
  have general : ∀ (names components : List CString), (∀ name ∈ names, name ≠ [] ∧ slash ∉ name) →
      (∀ name ∈ components, IsName name) →
        ∀ name ∈ names.foldl pushComponent components, IsName name := by
    intro names
    induction names with
    | nil => exact fun components _ isName => isName
    | cons name names induction =>
      intro components split isName
      rw [forall_mem_cons] at split
      exact induction _ split.2 (mem_pushComponent isName split.1.1 split.1.2)
  intro name member
  exact general (tokens path) [] (fun _ => of_mem_tokens) (by simp) name (mem_reverse.mp member)

/-- The place in the guest's root that the text of a path names. -/
def guestPlace : Location := (tokens path).foldl pushComponent []

theorem normalNames_eq : normalNames path = (guestPlace path).reverse := rfl

theorem isName_guestPlace : ∀ name ∈ guestPlace path, IsName name :=
  fun name member => isName_normalNames path name (mem_reverse.mpr member)

theorem guestPlace_append_slash (front back : CString) :
    guestPlace (front ++ slash :: back) = (tokens back).foldl pushComponent (guestPlace front) := by
  rw [guestPlace, tokens_append_slash, foldl_append]
  rfl

/-- The text of the normalised path of a place. -/
def normalText (place : Location) : CString :=
  if place = [] then [slash] else render place.reverse

theorem normalText_cons (place : Location) : ∃ rest, normalText place = slash :: rest := by
  rw [normalText]
  split
  · exact ⟨[], rfl⟩
  rename_i inside
  cases shape : place.reverse with
  | nil => exact absurd (reverse_eq_nil_iff.mp shape) inside
  | cons name names => exact ⟨name ++ render names, rfl⟩

variable {path} {place : Location}

theorem normalText_length_le (absolute : path.head? = some slash) :
    (normalText (guestPlace path)).length ≤ path.length := by
  obtain ⟨rest, rfl⟩ := head?_eq_some_iff.mp absolute
  rw [normalText]
  split
  · exact Nat.le_add_left _ _
  have pushed := render_normalNames_length (slash :: rest)
  have bound := render_tokens_length rest
  rw [normalNames_eq, tokens_slash_cons] at pushed
  rw [length_cons]
  omega

theorem isName_reverse (isName : ∀ name ∈ place, IsName name) :
    ∀ name ∈ place.reverse, IsName name :=
  fun name member => isName name (mem_reverse.mp member)

theorem tokens_normalText (isName : ∀ name ∈ place, IsName name) :
    tokens (normalText place) = place.reverse := by
  rw [normalText]
  split
  · rename_i empty
    rw [empty]
    rfl
  · exact tokens_render (isName_reverse isName)

theorem foldl_pushComponent_reverse (isName : ∀ name ∈ place, IsName name) :
    place.reverse.foldl pushComponent [] = place := by
  induction place with
  | nil => rfl
  | cons name place induction =>
    rw [forall_mem_cons] at isName
    rw [reverse_cons, foldl_append, induction isName.2]
    simp [pushComponent, if_neg isName.1.notHere, if_neg isName.1.notUp]

theorem guestPlace_normalText (isName : ∀ name ∈ place, IsName name) :
    guestPlace (normalText place) = place := by
  rw [guestPlace, tokens_normalText isName, foldl_pushComponent_reverse isName]

/-- A path as seen from a directory. -/
def joinPath (cwd path : CString) : CString :=
  if path.head? = some slash then path else cwd ++ slash :: path

/-- `vfs_normalize_path` with a buffer of any size, which it leaves alone if that is zero. -/
def normalizeInto (cwd path : CString) (outsiz : Nat) : Option CString :=
  let text := if path.head? = some slash then path else (truncate (cwd ++ slash :: path)).val
  if outsiz = 0 then none else some ((normalText (guestPlace text)).take (outsiz - 1))

theorem normalizeInto_pathMax (cwd path : CString) :
    normalizeInto cwd path pathMax = some (vfsNormalizePath cwd path).val := by
  rw [normalizeInto, if_neg (by decide), vfsNormalizePath]
  generalize (if path.head? = some slash then path else _) = text
  rw [guestPlace]
  cases (tokens text).foldl pushComponent [] <;> rfl

theorem normalizeInto_joinPath {cwd : CString} (fits : (joinPath cwd path).length < pathMax)
    (outsiz : Nat) : normalizeInto cwd path outsiz =
      if outsiz = 0 then none
      else some ((normalText (guestPlace (joinPath cwd path))).take (outsiz - 1)) := by
  rw [normalizeInto]
  by_cases rooted : path.head? = some slash
  · simp [joinPath, rooted]
  · rw [joinPath, if_neg rooted] at fits
    simp [joinPath, rooted, truncate_eq fits]

theorem head?_joinPath {cwd : CString} (absolute : cwd.head? = some slash) :
    (joinPath cwd path).head? = some slash := by
  rw [joinPath]
  split
  · assumption
  · rw [head?_append, absolute]
    rfl

theorem vfsNormalizePath_place (short : path.length < pathMax) (uncut : Uncut path) :
    (vfsNormalizePath [slash] path).val = normalText (guestPlace path) := by
  obtain ⟨fits, same⟩ : (joinPath [slash] path).length < pathMax ∧
      guestPlace (joinPath [slash] path) = guestPlace path := by
    rw [joinPath]
    split
    · exact ⟨short, rfl⟩
    · rename_i relative
      have length := uncut.resolve_left relative
      rw [guestPlace_append_slash, singleton_append, length_cons, length_cons]
      exact ⟨length, rfl⟩
  have bound := normalText_length_le (@head?_joinPath path [slash] rfl)
  have whole := normalizeInto_pathMax [slash] path
  rw [normalizeInto_joinPath fits, if_neg (by decide), take_of_length_le (by omega), same] at whole
  exact (Option.some.inj whole).symm

theorem tokens_vfsNormalizePath (short : path.length < pathMax) (uncut : Uncut path) :
    tokens (vfsNormalizePath [slash] path).val = normalNames path := by
  rw [vfsNormalizePath_place short uncut, tokens_normalText (isName_guestPlace path)]
  rfl

theorem vfsNormalizePath_absolute {text : CString} (absolute : text.head? = some slash)
    (first second : CString) : vfsNormalizePath first text = vfsNormalizePath second text := by
  rw [vfsNormalizePath, vfsNormalizePath]
  simp only [if_pos absolute]

/-- The bytes of `comp_store`; `none` is a terminator. -/
abbrev Store := List (Option CChar)

/-- The string at the front of some bytes. -/
def takeString : Store → CString
  | some char :: rest => char :: takeString rest
  | _ => []

/-- A string with its terminator. -/
def storeString (text : CString) : Store := text.map some ++ [none]

/-- A pointer of `components`: to a token that is not written any more, or into `comp_store`. -/
inductive Component where
  | token (text : CString)
  | stored (offset : Nat)

/-- The string that a pointer leads to. -/
def Component.read (store : Store) : Component → CString
  | .token text => text
  | .stored offset => takeString (store.drop offset)

/-- The used part of `components`. -/
abbrev Components := { list : List Component // list.length ≤ 255 }

namespace Components

/-- The tests of `ncomp` against 255. -/
def ofList (list : List Component) : Option Components :=
  if few : list.length ≤ 255 then some ⟨list, few⟩ else none

/-- The components behind the first one. -/
def tail (components : Components) : Components :=
  ⟨components.val.tail, by
    rw [List.length_tail]
    exact Nat.le_trans (Nat.sub_le _ _) components.property⟩

end Components

/-- The copies to `comp_store`, each string read when its turn comes. -/
def copyBack (store : Store) : Store → List Component → Option (Store × List Nat)
  | written, [] => some (written ++ store.drop written.length, [])
  | written, component :: rest =>
    let copy := storeString (component.read (written ++ store.drop written.length))
    if written.length + copy.length ≤ pathMax then
      (copyBack store (written ++ copy) rest).map fun copied =>
        (copied.1, written.length :: copied.2)
    else
      none

/-- The variables of the loop. -/
structure Resolution where
  resolved : PathBuffer
  components : Components
  store : Store
  depth : Nat

/-- The treatment of `..`: cut `resolved` at its last separator, but not inside the root. -/
def dropComponent (rootlen : Nat) (resolved : PathBuffer) : PathBuffer :=
  if rootlen < resolved.val.length then
    match lastSlash resolved.val with
    | some position =>
      if rootlen ≤ position then
        ⟨resolved.val.take position, by
          rw [List.length_take]
          exact Nat.lt_of_le_of_lt (Nat.min_le_right _ _) resolved.property⟩
      else resolved
    | none => resolved
  else resolved

/-- The treatment of a symbolic link with the components behind it. -/
def followLink (vfs : VfsT) (state : Resolution) (rest : Components) (target : CString) :
    Option Resolution :=
  if state.depth + 1 > 40 then none
  else do
    let link := (truncate target).val
    let components ← Components.ofList ((tokens link).map .token ++ rest.val)
    let copied ← copyBack state.store [] components.val
    let components ← Components.ofList (copied.2.map .stored)
    some
      { resolved := if link.head? = some slash then vfs.rootfs else state.resolved
        components
        store := copied.1
        depth := state.depth + 1 }

/-- One iteration of the loop of `vfs_resolve_rw`. -/
def resolveStep (vfs : VfsT) (host : Host) (state : Resolution) :
    Control Resolution (Option PathBuffer) :=
  match state.components.val with
  | [] => .exit (some state.resolved)
  | component :: _ =>
    let rest := state.components.tail
    let name := component.read state.store
    if name = here then .next { state with components := rest }
    else if name = up then
      .next { state with
        resolved := dropComponent vfs.rootfs.val.length state.resolved
        components := rest }
    else
      let hostPath := state.resolved.val ++ slash :: name
      if fits : hostPath.length < pathMax then
        match host.linkTarget hostPath with
        | some target =>
          match followLink vfs state rest target with
          | some following => .next following
          | none => .exit none
        | none => .next { state with resolved := ⟨hostPath, fits⟩, components := rest }
      else .exit none

/-- How an iteration goes on with the name that it has read. -/
inductive Advances (vfs : VfsT) (host : Host) (state : Resolution) (name : CString) :
    Resolution → Prop
  | here (isHere : name = here) :
      Advances vfs host state name { state with components := state.components.tail }
  | up (isUp : name = up) :
      Advances vfs host state name
        { state with
          resolved := dropComponent vfs.rootfs.val.length state.resolved
          components := state.components.tail }
  | plain (notHere : name ≠ Foundation.here) (notUp : name ≠ Foundation.up)
      (fits : (state.resolved.val ++ slash :: name).length < pathMax)
      (notLink : host.linkTarget (state.resolved.val ++ slash :: name) = none) :
      Advances vfs host state name
        { state with
          resolved := ⟨state.resolved.val ++ slash :: name, fits⟩
          components := state.components.tail }
  | link {target : CString} {following : Resolution} (notHere : name ≠ Foundation.here)
      (notUp : name ≠ Foundation.up)
      (fits : (state.resolved.val ++ slash :: name).length < pathMax)
      (found : host.linkTarget (state.resolved.val ++ slash :: name) = some target)
      (followed : followLink vfs state state.components.tail target = some following) :
      Advances vfs host state name following

variable {vfs} {state following : Resolution} {host : Host} {component : Component}

theorem resolveStep_eq_next :
    resolveStep vfs host state = .next following ↔
      ∃ component ∈ state.components.val.head?,
        Advances vfs host state (component.read state.store) following := by
  rw [resolveStep]
  split
  · rename_i empty
    simp [empty]
  rename_i component rest nonempty
  simp only [nonempty, List.head?_cons, Option.mem_some_iff, exists_eq_left']
  constructor
  · intro stepped
    split at stepped
    · rename_i isHere
      cases stepped
      exact .here isHere
    rename_i notHere
    split at stepped
    · rename_i isUp
      cases stepped
      exact .up isUp
    rename_i notUp
    split at stepped
    · rename_i fits
      split at stepped
      · rename_i found
        split at stepped
        · rename_i followed
          cases stepped
          exact .link notHere notUp fits found followed
        · cases stepped
      · rename_i notLink
        cases stepped
        exact .plain notHere notUp fits notLink
    · cases stepped
  · intro advances
    cases advances with
    | here isHere => rw [if_pos isHere]
    | up isUp =>
      have notHere : component.read state.store ≠ here := by
        rw [isUp]
        decide
      rw [if_neg notHere, if_pos isUp]
    | plain notHere notUp fits notLink =>
      rw [if_neg notHere, if_neg notUp, dif_pos fits, notLink]
    | link notHere notUp fits found followed =>
      rw [if_neg notHere, if_neg notUp, dif_pos fits, found]
      simp only [followed]

theorem resolveStep_eq_exit_some {result : PathBuffer} :
    resolveStep vfs host state = .exit (some result) ↔
      state.components.val = [] ∧ state.resolved = result := by
  rw [resolveStep]
  split
  · rename_i empty
    simp [empty]
  rename_i nonempty
  simp only [nonempty, List.cons_ne_nil, false_and, iff_false]
  split_ifs
  · simp
  · simp
  · split
    · split <;> simp
    · simp
  · simp

/-- A bound on the iterations: each takes a component, and a link leaves at most 255 of them. -/
def Resolution.bound (state : Resolution) : Nat :=
  (40 - state.depth) * 256 + state.components.val.length

theorem followLink_depth {rest : Components} {target : CString}
    (followed : followLink vfs state rest target = some following) :
    following.depth = state.depth + 1 ∧ state.depth < 40 := by
  rw [followLink] at followed
  split at followed
  · cases followed
  rename_i few
  simp only [bind, Option.bind_eq_some_iff, Option.some.injEq] at followed
  obtain ⟨-, -, -, -, -, -, rfl⟩ := followed
  exact ⟨rfl, by omega⟩

theorem resolveStep_decreases (vfs : VfsT) (host : Host)
    (stepped : resolveStep vfs host state = .next following) :
    following.bound < state.bound := by
  obtain ⟨_, first, advances⟩ := resolveStep_eq_next.mp stepped
  have shorter : state.components.tail.val.length < state.components.val.length := by
    obtain ⟨_, split⟩ := List.head?_eq_some_iff.mp first
    simp [Components.tail, split]
  cases advances with
  | here | up | plain => exact Nat.add_lt_add_left shorter _
  | link notHere notUp fits found followed =>
    obtain ⟨depth, _⟩ := followLink_depth followed
    have count := following.components.property
    rw [Resolution.bound, Resolution.bound, depth]
    omega

/-- The loop of `vfs_resolve_rw` from a given state. -/
def resolveFrom (vfs : VfsT) (host : Host) (state : Resolution) : Option PathBuffer :=
  runLoop (resolveStep_decreases vfs host) state

/-- The last argument of `vfs_resolve_rw`. -/
inductive Mode where
  | read | write
  deriving DecidableEq

/-- The loop of `overlay_mkdirs` behind some characters of the path. -/
def mkdirsLoop (host : Host) (before : CString) : CString → Host
  | [] => host
  | char :: rest =>
    mkdirsLoop (if char = slash then host.mkdir before else host) (before ++ [char]) rest

def overlayMkdirs (host : Host) (path : CString) : Host :=
  if path.length < pathMax then mkdirsLoop host (path.take 1) (path.drop 1) else host

/-- The directory that the walk starts in, and the host after the calls made to choose it. -/
def chooseBase (vfs : VfsT) (host : Host) (pathbuf : CString) (mode : Mode) : PathBuffer × Host :=
  if vfs.overlay.val ≠ [] ∧ (vfs.overlay.val ++ pathbuf).length < pathMax then
    match mode with
    | .write => (vfs.overlay, overlayMkdirs host (vfs.overlay.val ++ pathbuf))
    | .read =>
      if (host.lstat (vfs.overlay.val ++ pathbuf)).isSome then (vfs.overlay, host)
      else (vfs.rootfs, host)
  else (vfs.rootfs, host)

/-- The walk along a normalised path from a base. -/
def resolveNormalized (vfs : VfsT) (host : Host) (base : PathBuffer) (pathbuf : CString) :
    Option PathBuffer :=
  (Components.ofList ((tokens pathbuf).map .token)).bind fun components =>
    resolveFrom vfs host { resolved := base, components, store := [], depth := 0 }

/-- `vfs_resolve_rw` with a result buffer of `PATH_MAX` bytes. -/
def vfsResolveRw (vfs : VfsT) (host : Host) (guestPath : PathBuffer) (mode : Mode) :
    Option PathBuffer × Host :=
  if (vfsFindMount vfs.mounts guestPath.val).isSome then (none, host)
  else
    let pathbuf := (vfsNormalizePath [slash] guestPath.val).val
    let (base, host) := chooseBase vfs host pathbuf mode
    (resolveNormalized vfs host base pathbuf, host)

def vfsResolve (vfs : VfsT) (host : Host) (guestPath : PathBuffer) : Option PathBuffer :=
  (vfsResolveRw vfs host guestPath .read).1

variable {components : Components}

theorem Components.ofList_eq_some {list : List Component} :
    Components.ofList list = some components ↔ components.val = list := by
  rw [Components.ofList]
  split
  · rename_i few
    rw [Option.some.injEq]
    constructor
    · rintro rfl
      rfl
    · rintro rfl
      rfl
  · rename_i many
    simp only [reduceCtorEq, false_iff]
    rintro rfl
    exact many components.property

theorem followLink_eq_some {rest : Components} {target : CString} :
    followLink vfs state rest target = some following ↔
      state.depth < 40 ∧ ((tokens (truncate target).val).map Component.token ++ rest.val).length ≤ 255 ∧
        ∃ offsets, copyBack state.store []
            ((tokens (truncate target).val).map .token ++ rest.val) =
              some (following.store, offsets) ∧
          following.components.val = offsets.map .stored ∧
          following.resolved =
            (if (truncate target).val.head? = some slash then vfs.rootfs else state.resolved) ∧
          following.depth = state.depth + 1 := by
  rw [followLink]
  split
  · rename_i many
    simp only [reduceCtorEq, false_iff]
    rintro ⟨_, -⟩
    omega
  rename_i few
  simp only [bind, Option.bind_eq_some_iff, Option.some.injEq, Components.ofList_eq_some]
  constructor
  · rintro ⟨list, listed, copied, copies, _, stored, rfl⟩
    rw [listed] at copies
    refine ⟨by omega, ?_, copied.2, copies, stored, rfl, rfl⟩
    rw [← listed]
    exact list.property
  · rintro ⟨-, few, offsets, copies, stored, _, _⟩
    refine ⟨⟨_, few⟩, rfl, (following.store, offsets), copies, following.components, stored, ?_⟩
    obtain ⟨_, _, _, _⟩ := following
    simp_all

/-- No byte that a component can be read from is a separator. -/
structure Clean (state : Resolution) : Prop where
  store : some slash ∉ state.store
  tokens : ∀ text, Component.token text ∈ state.components.val → slash ∉ text

theorem mem_takeString {store : Store} {char : CChar} (member : char ∈ takeString store) :
    some char ∈ store := by
  induction store with
  | nil => cases member
  | cons byte rest induction =>
    cases byte with
    | none => cases member
    | some =>
      rw [takeString, mem_cons] at member
      rcases member with rfl | inRest
      · exact mem_cons_self
      · exact mem_cons_of_mem _ (induction inRest)

theorem Component.slash_not_mem_read {store : Store} (store_clean : some slash ∉ store)
    (token_clean : ∀ text, component = .token text → slash ∉ text) :
    slash ∉ component.read store := by
  cases component with
  | token text => exact token_clean text rfl
  | stored =>
    intro member
    exact store_clean (mem_of_mem_drop (mem_takeString member))

theorem copyBack_clean {store written : Store} {components : List Component}
    {copied : Store × List Nat} (copies : copyBack store written components = some copied)
    (store_clean : some slash ∉ store) (written_clean : some slash ∉ written)
    (tokens_clean : ∀ text, Component.token text ∈ components → slash ∉ text) :
    some slash ∉ copied.1 := by
  have both : ∀ {written : Store}, some slash ∉ written →
      some slash ∉ written ++ store.drop written.length := by
    intro written written_clean member
    rcases mem_append.mp member with inWritten | inStore
    · exact written_clean inWritten
    · exact store_clean (mem_of_mem_drop inStore)
  induction components generalizing written copied with
  | nil =>
    cases copies
    exact both written_clean
  | cons component rest induction =>
    rw [copyBack] at copies
    split at copies
    · obtain ⟨copiedRest, copiesRest, rfl⟩ := Option.map_eq_some_iff.mp copies
      change some slash ∉ copiedRest.1
      refine induction copiesRest ?_ fun text member =>
        tokens_clean text (mem_cons_of_mem _ member)
      have read_clean : slash ∉ component.read (written ++ store.drop written.length) := by
        refine Component.slash_not_mem_read (both written_clean) ?_
        rintro text rfl
        exact tokens_clean text mem_cons_self
      intro member
      rcases mem_append.mp member with inWritten | inCopy
      · exact written_clean inWritten
      rw [storeString, mem_append, mem_map] at inCopy
      rcases inCopy with ⟨_, inText, same⟩ | terminator
      · cases same
        exact read_clean inText
      · simp at terminator
    · cases copies

variable {pathbuf : CString}

theorem Clean.tail (clean : Clean state) {text : CString}
    (member : Component.token text ∈ state.components.tail.val) : slash ∉ text :=
  clean.tokens text (mem_of_mem_tail member)

theorem Clean.next (clean : Clean state) (stepped : resolveStep vfs host state = .next following) :
    Clean following := by
  obtain ⟨_, _, advances⟩ := resolveStep_eq_next.mp stepped
  cases advances with
  | here | up | plain => exact ⟨clean.store, fun text => clean.tail⟩
  | link notHere notUp fits found followed =>
    obtain ⟨-, -, _, copies, stored, -⟩ := followLink_eq_some.mp followed
    refine ⟨copyBack_clean copies clean.store not_mem_nil fun text member => ?_, ?_⟩
    · rcases mem_append.mp member with inTarget | inRest
      · obtain ⟨_, inTokens, same⟩ := mem_map.mp inTarget
        cases same
        exact (of_mem_tokens inTokens).2
      · exact clean.tail inRest
    · intro text member
      rw [stored] at member
      simp at member

theorem Clean.read (clean : Clean state) (first : component ∈ state.components.val.head?) :
    slash ∉ component.read state.store := by
  refine Component.slash_not_mem_read clean.store ?_
  rintro text rfl
  exact clean.tokens text (mem_of_mem_head? first)

theorem clean_start (base : PathBuffer) (split : components.val = (tokens pathbuf).map .token) :
    Clean { resolved := base, components, store := [], depth := 0 } := by
  refine ⟨not_mem_nil, fun text member => ?_⟩
  rw [split] at member
  obtain ⟨_, inTokens, same⟩ := mem_map.mp member
  cases same
  exact (of_mem_tokens inTokens).2

variable {result : PathBuffer}

/-- What a walk keeps when it drops a component, appends one or goes to the root directory. -/
theorem resolveNormalized_rule {base : PathBuffer} (property : CString → Prop)
    (root : property vfs.rootfs.val)
    (drop : ∀ {text : PathBuffer}, property text.val →
      property (dropComponent vfs.rootfs.val.length text).val)
    (append : ∀ {text name}, property text → slash ∉ name → name ≠ here → name ≠ up →
      host.linkTarget (text ++ slash :: name) = none → property (text ++ slash :: name))
    (start : property base.val)
    (resolved : resolveNormalized vfs host base pathbuf = some result) : property result.val := by
  have kept {state following} (clean : Clean state)
      (stepped : resolveStep vfs host state = .next following)
      (holds : property state.resolved.val) : property following.resolved.val := by
    obtain ⟨_, first, advances⟩ := resolveStep_eq_next.mp stepped
    cases advances with
    | here => exact holds
    | up => exact drop holds
    | plain notHere notUp fits notLink =>
      exact append holds (clean.read first) notHere notUp notLink
    | link notHere notUp fits found followed =>
      obtain ⟨-, -, _, -, -, resolved, -⟩ := followLink_eq_some.mp followed
      rw [resolved]
      split
      · exact root
      · exact holds
  obtain ⟨_, split, returned⟩ := Option.bind_eq_some_iff.mp resolved
  have post := runLoop_rule (resolveStep_decreases vfs host)
    (fun state => Clean state ∧ property state.resolved.val)
    (fun outcome => ∀ result : PathBuffer, outcome = some result → property result.val)
    (fun stepped invariant =>
      ⟨invariant.1.next stepped, kept invariant.1 stepped invariant.2⟩)
    (fun stepped invariant result isResult => by
      subst isResult
      rw [← (resolveStep_eq_exit_some.mp stepped).2]
      exact invariant.2)
    ⟨clean_start base (Components.ofList_eq_some.mp split), start⟩
  exact post result returned

/-- The walk depends on the host only through the links that it reads. -/
theorem resolveNormalized_congr {other : Host}
    (same : ∀ path, other.linkTarget path = host.linkTarget path) (vfs : VfsT) (base : PathBuffer)
    (pathbuf : CString) :
    resolveNormalized vfs other base pathbuf = resolveNormalized vfs host base pathbuf := by
  have step : resolveStep vfs other = resolveStep vfs host := by
    funext state
    simp only [resolveStep, same]
  have run : ∀ state, resolveFrom vfs other state = resolveFrom vfs host state := by
    intro state
    have before : loop (resolveStep vfs host) (state.bound + 1) state =
        some (resolveFrom vfs host state) := loop_eq_runLoop _ (Nat.lt_succ_self _)
    have after : loop (resolveStep vfs other) (state.bound + 1) state =
        some (resolveFrom vfs other state) := loop_eq_runLoop _ (Nat.lt_succ_self _)
    rw [step, before] at after
    exact (Option.some.inj after).symm
  rw [resolveNormalized, resolveNormalized]
  simp only [run]

theorem resolveNormalized_root (vfs : VfsT) (host : Host) (base : PathBuffer) :
    resolveNormalized vfs host base [slash] = some base := by
  have split : Components.ofList ((tokens [slash]).map .token) = some ⟨[], by simp⟩ := rfl
  rw [resolveNormalized, split, Option.bind_some, resolveFrom]
  exact runLoop_exit _ (resolveStep_eq_exit_some.mpr ⟨rfl, rfl⟩)

variable {resolved : PathBuffer} {rootlen : Nat} {base name : CString}

section

variable {names : List CString} (below : resolved.val = base ++ render (names ++ [name]))
  (plain : slash ∉ name)

include below plain

theorem lastSlash_render :
    resolved.val = (base ++ render names) ++ slash :: name ∧
      lastSlash resolved.val = some (base ++ render names).length := by
  rw [below, render_concat, ← append_assoc]
  exact ⟨rfl, lastSlash_append _ plain⟩

theorem dropComponent_render (inside : rootlen ≤ (base ++ render names).length) :
    (dropComponent rootlen resolved).val = base ++ render names := by
  obtain ⟨split, cut⟩ := lastSlash_render below plain
  have longer : rootlen < resolved.val.length := by
    rw [split, length_append, length_cons]
    omega
  rw [dropComponent, if_pos longer]
  simp only [cut, if_pos inside]
  rw [split]
  exact take_left

theorem dropComponent_outside (outside : ¬rootlen ≤ (base ++ render names).length) :
    dropComponent rootlen resolved = resolved := by
  rw [dropComponent]
  simp only [(lastSlash_render below plain).2, if_neg outside, ite_self]

end

theorem dropComponent_root (short : resolved.val.length ≤ rootlen) :
    dropComponent rootlen resolved = resolved := by
  rw [dropComponent, if_neg (Nat.not_lt.mpr short)]

theorem vfsNormalizePath_cons (cwd path : CString) :
    ∃ rest, (vfsNormalizePath cwd path).val = slash :: rest := by
  rw [vfsNormalizePath]
  split
  · exact ⟨[], rfl⟩
  rename_i last front components
  cases shape : (last :: front).reverse with
  | nil => simp at shape
  | cons name names => exact ⟨(name ++ render names).take (pathMax - 2), rfl⟩

variable {guestPath : PathBuffer} {mode : Mode}

theorem vfsResolveRw_mounted (mounted : (vfsFindMount vfs.mounts guestPath.val).isSome = true) :
    vfsResolveRw vfs host guestPath mode = (none, host) := by
  rw [vfsResolveRw, if_pos mounted]

theorem vfsResolveRw_unmounted (unmounted : vfsFindMount vfs.mounts guestPath.val = none) :
    vfsResolveRw vfs host guestPath mode =
      let pathbuf := (vfsNormalizePath [slash] guestPath.val).val
      let chosen := chooseBase vfs host pathbuf mode
      (resolveNormalized vfs chosen.2 chosen.1 pathbuf, chosen.2) := by
  rw [vfsResolveRw, unmounted]
  rfl

theorem resolveNormalized_of_vfsResolveRw
    (resolved : (vfsResolveRw vfs host guestPath mode).1 = some result) :
    let pathbuf := (vfsNormalizePath [slash] guestPath.val).val
    let chosen := chooseBase vfs host pathbuf mode
    resolveNormalized vfs chosen.2 chosen.1 pathbuf = some result := by
  cases mounted : vfsFindMount vfs.mounts guestPath.val with
  | none =>
    rw [vfsResolveRw_unmounted mounted] at resolved
    exact resolved
  | some =>
    rw [vfsResolveRw_mounted (by simp [mounted])] at resolved
    cases resolved

theorem chooseBase_noOverlay (noOverlay : vfs.overlay.val = []) (pathbuf : CString) :
    chooseBase vfs host pathbuf mode = (vfs.rootfs, host) := by
  exact if_neg (by simp [noOverlay])

section Usable

variable (usable : vfs.overlay.val ≠ [] ∧ (vfs.overlay.val ++ pathbuf).length < pathMax)

include usable

theorem chooseBase_found (found : (host.lstat (vfs.overlay.val ++ pathbuf)).isSome = true) :
    chooseBase vfs host pathbuf .read = (vfs.overlay, host) := by
  rw [chooseBase, if_pos usable, if_pos found]

theorem chooseBase_missing (missing : host.lstat (vfs.overlay.val ++ pathbuf) = none) :
    chooseBase vfs host pathbuf .read = (vfs.rootfs, host) := by
  rw [chooseBase, if_pos usable, if_neg (by simp [missing])]

theorem chooseBase_write :
    chooseBase vfs host pathbuf .write =
      (vfs.overlay, overlayMkdirs host (vfs.overlay.val ++ pathbuf)) := by
  rw [chooseBase, if_pos usable]

end Usable

/-- The walk starts in the root directory, or in an overlay to which the path can be appended. -/
theorem chooseBase_cases (vfs : VfsT) (host : Host) (pathbuf : CString) (mode : Mode) :
    (chooseBase vfs host pathbuf mode).1 = vfs.rootfs ∨
      ((chooseBase vfs host pathbuf mode).1 = vfs.overlay ∧ vfs.overlay.val ≠ [] ∧
        (vfs.overlay.val ++ pathbuf).length < pathMax) := by
  unfold chooseBase
  split
  · rename_i usable
    split
    · exact .inr ⟨rfl, usable⟩
    split
    · exact .inr ⟨rfl, usable⟩
    · exact .inl rfl
  · exact .inl rfl

theorem vfsResolveRw_read (vfs : VfsT) (host : Host) (path : PathBuffer) :
    vfsResolveRw vfs host path .read = (vfsResolve vfs host path, host) := by
  refine Prod.ext rfl ?_
  cases mounted : vfsFindMount vfs.mounts path.val with
  | some => rw [vfsResolveRw_mounted (by simp [mounted])]
  | none =>
    rw [vfsResolveRw_unmounted mounted]
    simp only [chooseBase]
    split
    · split <;> rfl
    · rfl

end AlpineOnIOS.Vfs
