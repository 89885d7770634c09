import AlpineOnIOS.SysFile.NameCalls

/-!
# Names below a directory descriptor

A call with a descriptor takes the real path of the directory, cuts off the name of the root
directory, and falls back to the working directory where it cannot. Mounts are looked up from the
working directory in any case.
-/

namespace AlpineOnIOS.SysFile

open Foundation Vfs List Option

/-- What `do_newfstatat` describes. -/
inductive StatTarget where
  | descriptor (file : Option HostFd)
  | path (hostPath : PathBuffer)
  | mount (found : Option (Mount × CString))
  deriving DecidableEq

/-- The choice of `do_newfstatat`. -/
def statTarget (proc : Process) (host : Host) (dirfd : Int) (a1 : UInt64) (flags : UInt32) :
    StatTarget :=
  if hasFlag flags linuxAtEmptyPath then
    .descriptor ((fdGet proc.fds dirfd).bind FdEntry.realFd)
  else
    match resolvePath proc host dirfd a1 with
    | .ok path => .path path
    | .error _ =>
      .mount ((proc.memReadStr a1).bind fun guestPath =>
        vfsFindMount proc.vfs.mounts (mountPath proc guestPath).val)

/-- The choice of `do_openat`: a file of a mount, or the path for the host. -/
def openTarget (proc : Process) (host : Host) (dirfd : Int) (a1 : UInt64) (linuxFlags : UInt32) :
    (HostFd × FdType) ⊕ (Except Int PathBuffer × Host) :=
  match tryVfsOpen proc dirfd a1 linuxFlags with
  | some found => .inl found
  | none =>
    .inr (if hasFlag linuxFlags (linuxOCreat ||| linuxOWronly ||| linuxORdwr) then
        resolvePathWrite proc host dirfd a1
      else (resolvePath proc host dirfd a1, host))

variable {caller : Caller} {host : Host} {a1 b1 a0 : UInt64} {proc : Process} {a2 a3 b0 : UInt64}

section

variable (same : resolvePathWrite proc host (toInt32 a0) a1 = resolvePathWrite proc host (toInt32 b0) b1)

include same

theorem doUnlinkat_congr :
    doUnlinkat proc host a0 a1 a2 = doUnlinkat proc host b0 b1 a2 := by
  rw [doUnlinkat, doUnlinkat, same]

theorem doMkdirat_congr :
    doMkdirat proc host a0 a1 = doMkdirat proc host b0 b1 := by
  rw [doMkdirat, doMkdirat, same]

end

/-- The result of `do_openat` by its target. -/
def finishOpen (proc : Process) (host : Host) (linuxFlags : UInt32) :
    (HostFd × FdType) ⊕ (Except Int PathBuffer × Host) → Int × Process × Host
  | .inl (hostFd, type) => installFd proc host type hostFd linuxFlags
  | .inr (.error _, after) => (-2, proc, after)
  | .inr (.ok path, after) =>
    match after.openFile (translateOpenFlags linuxFlags).toOpenFlags path.val with
    | .error error => (negErrno error, proc, after)
    | .ok (place, opened) => installFd proc opened .file (.object place) linuxFlags

theorem doOpenat_eq_finishOpen (proc : Process) (host : Host) (a0 a1 a2 : UInt64) :
    doOpenat proc host a0 a1 a2 =
      finishOpen proc host a2.toUInt32 (openTarget proc host (toInt32 a0) a1 a2.toUInt32) := by
  simp only [doOpenat, openTarget]
  cases tryVfsOpen proc (toInt32 a0) a1 a2.toUInt32 with
  | some => rfl
  | none =>
    generalize (if hasFlag a2.toUInt32 (linuxOCreat ||| linuxOWronly ||| linuxORdwr) = true then
      resolvePathWrite proc host (toInt32 a0) a1
      else (resolvePath proc host (toInt32 a0) a1, host)) = resolved
    obtain ⟨outcome, _⟩ := resolved
    cases outcome with
    | error | ok => rfl

/-- The result of `do_newfstatat` by its target. -/
def finishStat (caller : Caller) (host : Host) (a2 : UInt64) (flags : UInt32) :
    StatTarget → Int × Option EmuStat
  | .descriptor none => (-9, none)
  | .descriptor (some hostFd) => copyStat caller a2 (.descriptor hostFd)
  | .path path =>
    match
      if hasFlag flags linuxAtSymlinkNofollow then host.lstatEntry path.val
      else host.statEntry path.val
    with
    | .error error => (negErrno error, none)
    | .ok (place, node) => copyStat caller a2 (.entry place node)
  | .mount none => (-2, none)
  | .mount (some (mount, subpath)) =>
    if caller.mountStat mount.backend subpath then
      copyStat caller a2 (.mount mount.backend subpath)
    else copyStat caller a2 .synthetic

theorem doNewfstatat_eq_finishStat {guestPath : PathBuffer}
    (read : caller.memReadStr a1 = some guestPath) :
    doNewfstatat caller host a0 a1 a2 a3 =
      finishStat caller host a2 a3.toUInt32
        (statTarget caller.toProcess host (toInt32 a0) a1 a3.toUInt32) := by
  simp only [doNewfstatat, statTarget]
  split
  · cases fdGet caller.fds (toInt32 a0) with
    | none => rfl
    | some entry =>
      simp only [bind_some]
      cases entry.realFd with
      | none | some => rfl
  · cases resolvePath caller.toProcess host (toInt32 a0) a1 with
    | ok => rfl
    | error =>
      simp only [read, bind_some]
      cases vfsFindMount caller.vfs.mounts (mountPath caller.toProcess guestPath).val with
      | none | some => rfl

/-- A descriptor of a directory that was opened under an absolute name. -/
structure OpenDirectory (proc : Process) (host : Host) (dirfd : Int) (name : PathBuffer)
    (place : Location) : Prop where
  entry : (fdGet proc.fds dirfd).bind FdEntry.realFd = some (.object place)
  absolute : name.val.head? = some slash
  opened : readObject proc.vfs host name = some place
  directory : host.tree.node place = some .directory

/-- A relative path in memory, and the same one behind the name of a directory. -/
structure Spelled (proc : Process) (name : PathBuffer) (a1 b1 : UInt64)
    (relative joined : PathBuffer) : Prop where
  readsRelative : proc.memReadStr a1 = some relative
  notAbsolute : relative.val.head? ≠ some slash
  readsJoined : proc.memReadStr b1 = some joined
  text : joined.val = name.val ++ slash :: relative.val

/-- The real path of a directory without the root directory's name, or the working directory. -/
def directoryName (proc : Process) (place : Location) : CString :=
  (fdDirGuestPath proc.vfs (.object place)).getD proc.cwd.val

/-- The file that a mount opens at an absolute path, as `try_vfs_open` classifies it. -/
def mountOpened (proc : Process) (absPath : CString) (linuxFlags : UInt32) :
    Option (HostFd × FdType) :=
  (vfsFindMount proc.vfs.mounts absPath).bind fun found =>
    (proc.mountOpen found.1.backend found.2 (translateOpenFlags linuxFlags)).map fun hostFd =>
      (hostFd,
        if found.2 = CString.ofLiteral "/fb0" then .fb
        else if found.2 = CString.ofLiteral "/input/event0" then .input
        else .file)

variable {dirfd : Int} {name joined : PathBuffer} {relative path : PathBuffer} {place : Location}

theorem mountPath_eq (proc : Process) (path : PathBuffer) :
    mountPath proc path = vfsNormalizePath proc.cwd.val path.val := by
  rw [mountPath]
  split
  · rfl
  · rename_i absolute
    exact vfsNormalizePath_absolute (not_not.mp absolute) _ _

theorem tryVfsOpen_eq (read : proc.memReadStr a1 = some path) (dirfd : Int) (linuxFlags : UInt32) :
    tryVfsOpen proc dirfd a1 linuxFlags =
      mountOpened proc (vfsNormalizePath proc.cwd.val path.val).val linuxFlags := by
  have spelled : (if path.val.head? ≠ some slash then
      if dirfd = atFdcwd then vfsNormalizePath proc.cwd.val path.val
      else vfsNormalizePath proc.cwd.val path.val
      else vfsNormalizePath [slash] path.val) = vfsNormalizePath proc.cwd.val path.val := by
    rw [ite_self]
    exact mountPath_eq proc path
  rw [tryVfsOpen, read, bind_some, spelled]
  rfl

theorem OpenDirectory.guestAbsPath_eq (directory : OpenDirectory proc host dirfd name place)
    (spelled : Spelled proc name a1 b1 relative joined) :
    guestAbsPath proc dirfd a1 =
      .ok (vfsNormalizePath (directoryName proc place) relative.val) := by
  have used : dirfd ≠ atFdcwd := by
    rintro rfl
    cases directory.entry
  rw [guestAbsPath, spelled.readsRelative]
  simp only [buildGuestAbsPath, if_neg spelled.notAbsolute, if_neg used, directory.entry,
    directoryName]
  cases fdDirGuestPath proc.vfs (.object place) with
  | none | some => rfl

theorem Spelled.absolute (spelled : Spelled proc name a1 b1 relative joined)
    (named : name.val.head? = some slash) : joined.val.head? = some slash := by
  obtain ⟨_, same⟩ := head?_eq_some_iff.mp named
  rw [spelled.text, same]
  rfl

theorem Spelled.guestAbsPath_eq (spelled : Spelled proc name a1 b1 relative joined)
    (named : name.val.head? = some slash) (dirfd : Int) :
    guestAbsPath proc dirfd b1 = .ok (vfsNormalizePath [slash] joined.val) := by
  rw [guestAbsPath, spelled.readsJoined]
  simp only [buildGuestAbsPath, if_pos (spelled.absolute named)]

/-- The name of the root directory, without the separators at its end, is a real path. -/
def CanonicalRoot (vfs : VfsT) (lower : Location) : Prop :=
  vfs.rootfs.val.take (rootLength vfs.rootfs.val vfs.rootfs.val.length) = normalText lower ∨
    vfs.rootfs.val = [] ∧ lower = []

variable {vfs : VfsT} {lower upper : Location}

theorem rootLength_le (rootfs : CString) (length : Nat) : rootLength rootfs length ≤ length := by
  induction length using rootLength.induct rootfs with
  | case1 | case2 => exact Nat.le_refl _
  | case3 length found induction =>
    rw [rootLength, if_pos found]
    exact Nat.le_succ_of_le induction
  | case4 length other => exact Nat.le_of_eq (by rw [rootLength, if_neg other])

theorem fdDirGuestPath_eq {rest : CString}
    (whole : (truncate (normalText place)).val =
      vfs.rootfs.val.take (rootLength vfs.rootfs.val vfs.rootfs.val.length) ++ rest) :
    fdDirGuestPath vfs (.object place) = some (if rest = [] then [slash] else rest) := by
  have length : (vfs.rootfs.val.take (rootLength vfs.rootfs.val vfs.rootfs.val.length)).length =
      rootLength vfs.rootfs.val vfs.rootfs.val.length := by
    rw [length_take]
    exact Nat.min_eq_left (rootLength_le _ _)
  have starts : (vfs.rootfs.val.take (rootLength vfs.rootfs.val vfs.rootfs.val.length)).isPrefixOf
      (truncate (normalText place)).val = true := by
    rw [List.isPrefixOf_iff_prefix, whole]
    exact prefix_append _ _
  have behind : (truncate (normalText place)).val.drop
      (rootLength vfs.rootfs.val vfs.rootfs.val.length) = rest := by
    rw [whole]
    exact drop_left' length
  rw [fdDirGuestPath, hostPath, bind_some]
  simp only [starts, if_true, behind]
  cases rest with
  | nil | cons => rfl

theorem normalText_append (place lower : Location) (inside : lower ≠ []) :
    normalText (place ++ lower) = normalText lower ++ render place.reverse := by
  rw [normalText, normalText, if_neg inside, if_neg (by simp [inside]), reverse_append,
    render_append]

variable {text : CString}

/-- The real path of a directory in the root directory, by the name of that. -/
theorem realPath_eq (canonical : CanonicalRoot vfs lower)
    (fits : (placePath vfs.rootfs.val place).length < pathMax)
    (isName : ∀ name ∈ place, IsName name) :
    ∃ rest, (truncate (normalText (place ++ lower))).val =
        vfs.rootfs.val.take (rootLength vfs.rootfs.val vfs.rootfs.val.length) ++ rest ∧
      tokens rest = place.reverse ∧ rest.length ≤ (normalText place).length := by
  have named := tokens_normalText isName
  have short : (normalText place).length < pathMax := by
    rw [normalText]
    split
    · decide
    · rw [placePath, length_append] at fits
      omega
  rcases canonical with canonical | ⟨empty, rfl⟩
  · by_cases top : lower = []
    · subst top
      rw [append_nil, truncate_eq short, canonical]
      obtain ⟨rest, shape⟩ := normalText_cons place
      refine ⟨rest, ?_, ?_, ?_⟩
      · rw [shape]
        rfl
      · rwa [shape, tokens_slash_cons] at named
      · rw [shape]
        exact Nat.le_succ _
    refine ⟨render place.reverse, ?_, ?_, ?_⟩
    · rw [canonical, normalText_append place lower top]
      refine truncate_eq (Nat.lt_of_le_of_lt ?_ fits)
      rw [← canonical, placePath, length_append, length_append, length_take]
      exact Nat.add_le_add_right (Nat.min_le_right _ _) _
    · exact tokens_render (isName_reverse isName)
    · rw [normalText]
      split
      · rename_i empty
        simp [empty]
      · exact Nat.le_refl _
  · refine ⟨normalText place, ?_, named, Nat.le_refl _⟩
    rw [append_nil, truncate_eq short, empty]
    rfl

theorem vfsNormalizePath_congr {base relative : CString} (notAbsolute : relative.head? ≠ some slash)
    (fits : (base ++ slash :: relative).length < pathMax) (absolute : text.head? = some slash)
    (same : guestPlace (base ++ slash :: relative) = guestPlace text) :
    vfsNormalizePath base relative = vfsNormalizePath [slash] text := by
  rw [guestPlace, guestPlace] at same
  rw [vfsNormalizePath, vfsNormalizePath]
  simp only [if_neg notAbsolute, if_pos absolute, truncate_eq fits, same]

theorem absPath_eq (directory : OpenDirectory proc host dirfd name place)
    (spelled : Spelled proc name a1 b1 relative joined) (layers : Layers proc.vfs host lower upper)
    (layered : LayeredPath proc.vfs host lower upper name.val)
    (absent : host.tree.node (guestPlace name.val ++ upper) = none)
    (canonical : CanonicalRoot proc.vfs lower) :
    vfsNormalizePath (directoryName proc place) relative.val =
      vfsNormalizePath [slash] joined.val := by
  have object := directory.opened
  rw [layered.readObject_eq layers, if_neg (not_not.mpr absent)] at object
  obtain ⟨-, located⟩ := ite_none_right_eq_some.mp object
  obtain rfl := some.inj located
  obtain ⟨rest, whole, names, _⟩ :=
    realPath_eq canonical layered.lowerFits (isName_guestPlace name.val)
  have named : directoryName proc (guestPlace name.val ++ lower) =
      if rest = [] then [slash] else rest := by
    rw [directoryName, fdDirGuestPath_eq whole]
    rfl
  have sameNames :
      tokens (if rest = [] then [slash] else rest) = (guestPlace name.val).reverse := by
    split
    · rename_i empty
      rw [← names, empty]
      rfl
    · exact names
  have length : (if rest = [] then [slash] else rest).length ≤ name.val.length := by
    have bound := normalText_length_le directory.absolute
    split
    · obtain ⟨_, same⟩ := head?_eq_some_iff.mp directory.absolute
      rw [same]
      exact Nat.le_add_left _ _
    · omega
  rw [named]
  refine vfsNormalizePath_congr spelled.notAbsolute ?_ (spelled.absolute directory.absolute) ?_
  · have fits := joined.property
    rw [spelled.text, length_append] at fits
    rw [length_append]
    omega
  · rw [spelled.text, guestPlace_append_slash, guestPlace_append_slash, guestPlace, sameNames,
      foldl_pushComponent_reverse (isName_guestPlace _)]

/-- Two absolute paths are both under a mount, or name one place. -/
def SamePlace (vfs : VfsT) (first second : PathBuffer) : Prop :=
  (vfsFindMount vfs.mounts first.val = none ↔ vfsFindMount vfs.mounts second.val = none) ∧
    (vfsFindMount vfs.mounts first.val = none → guestPlace first.val = guestPlace second.val)

variable {second : PathBuffer}

section Places

variable {first : PathBuffer} (layers : Layers vfs host lower upper)
  (plain : vfsFindMount vfs.mounts first.val = none → LayeredPath vfs host lower upper first.val)
  (otherPlain : vfsFindMount vfs.mounts second.val = none → LayeredPath vfs host lower upper second.val)

include layers plain otherPlain

theorem vfsResolveRw_eq_iff (apart : Apart lower upper) (mode : Mode) :
    vfsResolveRw vfs host first mode = vfsResolveRw vfs host second mode ↔
      SamePlace vfs first second := by
  have resolves : ∀ path : PathBuffer, LayeredPath vfs host lower upper path.val →
      vfsResolveRw vfs host path mode ≠ (none, host) := by
    intro path layered refused
    cases mode with
    | write => cases (layered.write layers).symm.trans refused
    | read =>
      obtain ⟨_, _, -, _, resolved, -⟩ := layered.read_layer layers
      rw [vfsResolveRw_read, resolved] at refused
      cases refused
  have refuses : ∀ path : PathBuffer, vfsFindMount vfs.mounts path.val ≠ none →
      vfsResolveRw vfs host path mode = (none, host) :=
    fun path mounted => vfsResolveRw_mounted (isSome_iff_ne_none.mpr mounted)
  rw [SamePlace]
  by_cases unmounted : vfsFindMount vfs.mounts first.val = none
  · by_cases otherUnmounted : vfsFindMount vfs.mounts second.val = none
    · simp only [unmounted, otherUnmounted, true_and, true_implies]
      cases mode with
      | write => exact (plain unmounted).write_eq_iff layers (otherPlain otherUnmounted)
      | read =>
        rw [← (plain unmounted).read_eq_iff layers apart (otherPlain otherUnmounted),
          vfsResolveRw_read, vfsResolveRw_read, Prod.mk.injEq]
        simp only [and_true]
    · rw [refuses second otherUnmounted]
      exact iff_of_false (resolves first (plain unmounted)) fun same =>
        otherUnmounted (same.1.mp unmounted)
  · rw [refuses first unmounted]
    by_cases otherUnmounted : vfsFindMount vfs.mounts second.val = none
    · exact iff_of_false (resolves second (otherPlain otherUnmounted)).symm fun same =>
        unmounted (same.1.mpr otherUnmounted)
    rw [refuses second otherUnmounted]
    exact iff_of_true rfl ⟨iff_of_false unmounted otherUnmounted, fun free => absurd free unmounted⟩

end Places

variable {otherFd : Int}

section Resolved

variable {first : PathBuffer} (named : guestAbsPath proc dirfd a1 = .ok first)
  (otherNamed : guestAbsPath proc otherFd b1 = .ok second)

include named otherNamed

theorem resolvePathWrite_eq_iff :
    resolvePathWrite proc host dirfd a1 = resolvePathWrite proc host otherFd b1 ↔
      vfsResolveRw proc.vfs host first .write = vfsResolveRw proc.vfs host second .write := by
  rw [resolvePathWrite, resolvePathWrite, named, otherNamed]
  simp only
  generalize vfsResolveRw proc.vfs host first .write = one
  generalize vfsResolveRw proc.vfs host second .write = two
  obtain ⟨path, _⟩ := one
  obtain ⟨otherPath, _⟩ := two
  cases path <;> cases otherPath <;> simp

theorem resolvePath_eq_iff :
    resolvePath proc host dirfd a1 = resolvePath proc host otherFd b1 ↔
      vfsResolveRw proc.vfs host first .read = vfsResolveRw proc.vfs host second .read := by
  rw [resolvePath, resolvePath, named, otherNamed, vfsResolveRw_read, vfsResolveRw_read,
    Prod.mk.injEq]
  simp only [Except.bind, and_true]
  cases vfsResolve proc.vfs host first <;> cases vfsResolve proc.vfs host second <;> simp

end Resolved

section Outcomes

variable {absPath : PathBuffer} (named : guestAbsPath proc dirfd a1 = .ok absPath)

include named

theorem resolvePath_mounted (mounted : vfsFindMount proc.vfs.mounts absPath.val ≠ none) :
    resolvePath proc host dirfd a1 = .error (-1) := by
  rw [resolvePath, named, Except.bind, vfsResolve,
    vfsResolveRw_mounted (isSome_iff_ne_none.mpr mounted)]

theorem resolvePath_layered (layers : Layers proc.vfs host lower upper)
    (layered : LayeredPath proc.vfs host lower upper absPath.val) :
    ∃ path, resolvePath proc host dirfd a1 = .ok path := by
  obtain ⟨_, _, -, path, resolved, -⟩ := layered.read_layer layers
  exact ⟨path, resolvePath_eq named resolved⟩

end Outcomes

/-- The absolute path that a call with the descriptor takes. -/
def belowFd (proc : Process) (place : Location) (relative : PathBuffer) : PathBuffer :=
  vfsNormalizePath (directoryName proc place) relative.val

/-- The absolute path that a call with the absolute name takes. -/
def absoluteName (joined : PathBuffer) : PathBuffer := vfsNormalizePath [slash] joined.val

/-- The flags ask for the path, and a mount is looked up in the same way. -/
def StatsAlike (proc : Process) (otherFd : Int) (place : Location) (relative joined : PathBuffer)
    (flags : UInt32) : Prop :=
  if hasFlag flags linuxAtEmptyPath then
    (fdGet proc.fds otherFd).bind FdEntry.realFd = some (.object place)
  else
    SamePlace proc.vfs (belowFd proc place relative) (absoluteName joined) ∧
      (vfsFindMount proc.vfs.mounts (absoluteName joined).val ≠ none →
        vfsFindMount proc.vfs.mounts (vfsNormalizePath proc.cwd.val relative.val).val =
          vfsFindMount proc.vfs.mounts (absoluteName joined).val)

/-- The mounts open the same file for both spellings, or none and the places are the same. -/
def OpensAlike (proc : Process) (place : Location) (relative joined : PathBuffer)
    (linuxFlags : UInt32) : Prop :=
  mountOpened proc (vfsNormalizePath proc.cwd.val relative.val).val linuxFlags =
      mountOpened proc (absoluteName joined).val linuxFlags ∧
    (mountOpened proc (absoluteName joined).val linuxFlags = none →
      SamePlace proc.vfs (belowFd proc place relative) (absoluteName joined))

theorem Spelled.working (spelled : Spelled proc name a1 b1 relative joined)
    (named : name.val.head? = some slash) :
    vfsNormalizePath proc.cwd.val joined.val = absoluteName joined :=
  vfsNormalizePath_absolute (spelled.absolute named) _ _

section Exact

variable (directory : OpenDirectory proc host dirfd name place)
  (spelled : Spelled proc name a1 b1 relative joined) (layers : Layers proc.vfs host lower upper)
  (apart : Apart lower upper)
  (plain : vfsFindMount proc.vfs.mounts (belowFd proc place relative).val = none →
    LayeredPath proc.vfs host lower upper (belowFd proc place relative).val)
  (otherPlain : vfsFindMount proc.vfs.mounts (absoluteName joined).val = none →
    LayeredPath proc.vfs host lower upper (absoluteName joined).val)

include directory spelled layers apart plain otherPlain

variable (otherFd : Int)

theorem resolvePathWrite_alike :
    resolvePathWrite proc host dirfd a1 = resolvePathWrite proc host otherFd b1 ↔
      SamePlace proc.vfs (belowFd proc place relative) (absoluteName joined) :=
  (resolvePathWrite_eq_iff (directory.guestAbsPath_eq spelled)
    (spelled.guestAbsPath_eq directory.absolute otherFd)).trans
      (vfsResolveRw_eq_iff layers plain otherPlain apart .write)

theorem resolvePath_alike :
    resolvePath proc host dirfd a1 = resolvePath proc host otherFd b1 ↔
      SamePlace proc.vfs (belowFd proc place relative) (absoluteName joined) :=
  (resolvePath_eq_iff (directory.guestAbsPath_eq spelled)
    (spelled.guestAbsPath_eq directory.absolute otherFd)).trans
      (vfsResolveRw_eq_iff layers plain otherPlain apart .read)

theorem openTarget_alike (linuxFlags : UInt32) :
    openTarget proc host dirfd a1 linuxFlags = openTarget proc host otherFd b1 linuxFlags ↔
      OpensAlike proc place relative joined linuxFlags := by
  have writes := resolvePathWrite_alike directory spelled layers apart plain otherPlain otherFd
  have reads := resolvePath_alike directory spelled layers apart plain otherPlain otherFd
  rw [openTarget, openTarget, tryVfsOpen_eq spelled.readsRelative,
    tryVfsOpen_eq spelled.readsJoined, spelled.working directory.absolute, OpensAlike]
  cases mountOpened proc (vfsNormalizePath proc.cwd.val relative.val).val linuxFlags with
  | some =>
    cases mountOpened proc (absoluteName joined).val linuxFlags with
    | some | none => simp
  | none =>
    cases mountOpened proc (absoluteName joined).val linuxFlags with
    | some => simp
    | none =>
      simp only [Sum.inr.injEq, true_and, true_implies]
      split
      · exact writes
      · rw [Prod.mk.injEq, reads]
        simp only [and_true]

theorem statTarget_alike (flags : UInt32) :
    statTarget proc host dirfd a1 flags = statTarget proc host otherFd b1 flags ↔
      StatsAlike proc otherFd place relative joined flags := by
  rw [statTarget, statTarget, StatsAlike]
  split
  · rw [directory.entry, StatTarget.descriptor.injEq]
    exact eq_comm
  have reads := resolvePath_alike directory spelled layers apart plain otherPlain otherFd
  have named := directory.guestAbsPath_eq spelled
  have otherNamed := spelled.guestAbsPath_eq directory.absolute otherFd
  rw [spelled.readsRelative, spelled.readsJoined, bind_some, bind_some,
    mountPath_eq, mountPath_eq, spelled.working directory.absolute]
  by_cases unmounted : vfsFindMount proc.vfs.mounts (belowFd proc place relative).val = none
  · obtain ⟨_, resolved⟩ := resolvePath_layered named layers (plain unmounted)
    by_cases otherUnmounted : vfsFindMount proc.vfs.mounts (absoluteName joined).val = none
    · obtain ⟨_, otherResolved⟩ :=
        resolvePath_layered otherNamed layers (otherPlain otherUnmounted)
      rw [resolved, otherResolved, Except.ok.injEq] at reads
      rw [resolved, otherResolved, ← reads]
      simp [otherUnmounted]
    · have refused : resolvePath proc host otherFd b1 = _ :=
        resolvePath_mounted otherNamed otherUnmounted
      rw [resolved, refused]
      exact iff_of_false StatTarget.noConfusion fun alike =>
        otherUnmounted (alike.1.1.mp unmounted)
  · have refused : resolvePath proc host dirfd a1 = _ := resolvePath_mounted named unmounted
    by_cases otherUnmounted : vfsFindMount proc.vfs.mounts (absoluteName joined).val = none
    · obtain ⟨_, otherResolved⟩ :=
        resolvePath_layered otherNamed layers (otherPlain otherUnmounted)
      rw [refused, otherResolved]
      exact iff_of_false StatTarget.noConfusion fun alike =>
        unmounted (alike.1.1.mpr otherUnmounted)
    · have otherRefused : resolvePath proc host otherFd b1 = _ :=
        resolvePath_mounted otherNamed otherUnmounted
      rw [refused, otherRefused]
      simp [SamePlace, unmounted, otherUnmounted]

end Exact

/-- What a mount is asked for at the relative path in the working directory and at the absolute
name. -/
def MountsAgree (proc : Process) (relative joined : PathBuffer) : Prop :=
  vfsFindMount proc.vfs.mounts (vfsNormalizePath proc.cwd.val relative.val).val =
    vfsFindMount proc.vfs.mounts (absoluteName joined).val

theorem resolvePath_congr (same : guestAbsPath proc dirfd a1 = guestAbsPath proc otherFd b1) :
    resolvePath proc host dirfd a1 = resolvePath proc host otherFd b1 ∧
      resolvePathWrite proc host dirfd a1 = resolvePathWrite proc host otherFd b1 := by
  rw [resolvePath, resolvePath, resolvePathWrite, resolvePathWrite, same]
  exact ⟨rfl, rfl⟩

/-- Descriptor and name act alike exactly if the directory's path leads to the same place. -/
theorem directory_fd_iff (directory : OpenDirectory caller.toProcess host (toInt32 a0) name place)
    (spelled : Spelled caller.toProcess name a1 b1 relative joined)
    (layers : Layers caller.vfs host lower upper) :
    (LayeredPath caller.vfs host lower upper name.val →
      host.tree.node (guestPlace name.val ++ upper) = none → CanonicalRoot caller.vfs lower →
      ∀ b0 a2 a3,
        doUnlinkat caller.toProcess host a0 a1 a2 = doUnlinkat caller.toProcess host b0 b1 a2 ∧
        doMkdirat caller.toProcess host a0 a1 = doMkdirat caller.toProcess host b0 b1 ∧
        (hasFlag a3.toUInt32 linuxAtEmptyPath = false →
          MountsAgree caller.toProcess relative joined ∨
            LayeredPath caller.vfs host lower upper (absoluteName joined).val →
          doNewfstatat caller host a0 a1 a2 a3 = doNewfstatat caller host b0 b1 a2 a3) ∧
        (mountOpened caller.toProcess (vfsNormalizePath caller.cwd.val relative.val).val
            a2.toUInt32 =
          mountOpened caller.toProcess (absoluteName joined).val a2.toUInt32 →
          doOpenat caller.toProcess host a0 a1 a2 = doOpenat caller.toProcess host b0 b1 a2)) ∧
    (Apart lower upper →
      (vfsFindMount caller.vfs.mounts (belowFd caller.toProcess place relative).val = none →
        LayeredPath caller.vfs host lower upper (belowFd caller.toProcess place relative).val) →
      (vfsFindMount caller.vfs.mounts (absoluteName joined).val = none →
        LayeredPath caller.vfs host lower upper (absoluteName joined).val) →
      ∀ (otherFd : Int) (flags : UInt32),
        (resolvePathWrite caller.toProcess host (toInt32 a0) a1 =
            resolvePathWrite caller.toProcess host otherFd b1 ↔
          SamePlace caller.vfs (belowFd caller.toProcess place relative) (absoluteName joined)) ∧
        (statTarget caller.toProcess host (toInt32 a0) a1 flags =
            statTarget caller.toProcess host otherFd b1 flags ↔
          StatsAlike caller.toProcess otherFd place relative joined flags) ∧
        (openTarget caller.toProcess host (toInt32 a0) a1 flags =
            openTarget caller.toProcess host otherFd b1 flags ↔
          OpensAlike caller.toProcess place relative joined flags)) := by
  refine ⟨fun layered absent canonical b0 a2 a3 => ?_,
    fun apart plain otherPlain otherFd flags =>
      ⟨resolvePathWrite_alike directory spelled layers apart plain otherPlain otherFd,
        statTarget_alike directory spelled layers apart plain otherPlain otherFd flags,
        openTarget_alike directory spelled layers apart plain otherPlain otherFd flags⟩⟩
  have otherNamed := spelled.guestAbsPath_eq directory.absolute (toInt32 b0)
  have named : guestAbsPath caller.toProcess (toInt32 a0) a1 =
      guestAbsPath caller.toProcess (toInt32 b0) b1 := by
    rw [directory.guestAbsPath_eq spelled, otherNamed,
      absPath_eq directory spelled layers layered absent canonical]
  obtain ⟨reads, writes⟩ : resolvePath caller.toProcess host (toInt32 a0) a1 = _ ∧ _ :=
    resolvePath_congr named
  refine ⟨doUnlinkat_congr writes, doMkdirat_congr writes, fun noEmptyPath mounts => ?_,
    fun opened => ?_⟩
  · rw [doNewfstatat_eq_finishStat spelled.readsRelative,
      doNewfstatat_eq_finishStat spelled.readsJoined]
    refine congrArg _ ?_
    rw [statTarget, statTarget, if_neg (Bool.eq_false_iff.mp noEmptyPath),
      if_neg (Bool.eq_false_iff.mp noEmptyPath), reads]
    rcases mounts with agree | otherLayered
    · rw [spelled.readsRelative, spelled.readsJoined, bind_some, bind_some,
        mountPath_eq, mountPath_eq, spelled.working directory.absolute, agree]
    · obtain ⟨_, resolved⟩ := resolvePath_layered otherNamed layers otherLayered
      rw [resolved]
  · rw [doOpenat_eq_finishOpen, doOpenat_eq_finishOpen, openTarget, openTarget, reads, writes,
      tryVfsOpen_eq spelled.readsRelative, tryVfsOpen_eq spelled.readsJoined,
      spelled.working directory.absolute, opened]

/-- A process that holds a directory open, with a relative path and an absolute one in memory. -/
def holdingCaller (cwd directory relative joined : String) : Caller where
  vfs := overlaidVfs
  cwd := pathOf cwd
  fds :=
    { fds :=
        { type := .file, realFd := some (.object (placeOf directory)), flags := 0
          cloexec := false } :: List.replicate 1023 { type := .none, realFd := none, flags := 0, cloexec := false }
      size := by rw [List.length_cons, List.length_replicate]; rfl }
  memReadStr address := some (pathOf (if address = 0 then relative else joined))
  mountOpen _ _ _ := some (.foreign 1)
  mountStat _ _ := true
  memCopyTo _ _ := true

/-- A host with a directory of the root directory. -/
def directoryHost : Host := overlaidHost [("/r/d", .directory), ("/r/d/x", .file [1])]

theorem directory_fd_sample :
    doUnlinkat (holdingCaller "/" "/r/d" "x" "/d/x").toProcess directoryHost 0 0 0 =
        doUnlinkat (holdingCaller "/" "/r/d" "x" "/d/x").toProcess directoryHost 0 1 0 ∧
      resolvePathWrite (holdingCaller "/" "/r/d" "x" "/d/x").toProcess directoryHost 0 0 =
        resolvePathWrite (holdingCaller "/" "/r/d" "x" "/d/x").toProcess directoryHost 0 1 := by
  have directory : OpenDirectory (holdingCaller "/" "/r/d" "x" "/d/x").toProcess directoryHost
      (toInt32 0) (pathOf "/d") (placeOf "/r/d") :=
    ⟨by decide +kernel, by decide +kernel, by decide +kernel, by decide +kernel⟩
  have spelled : Spelled (holdingCaller "/" "/r/d" "x" "/d/x").toProcess (pathOf "/d") 0 1
      (pathOf "x") (pathOf "/d/x") := ⟨rfl, by decide +kernel, rfl, by decide +kernel⟩
  have layers : Layers (holdingCaller "/" "/r/d" "x" "/d/x").vfs directoryHost (placeOf "/r")
      (placeOf "/o") := by decide +kernel
  obtain ⟨alike, exact⟩ := directory_fd_iff directory spelled layers
  have calls := alike (by decide +kernel) (by decide +kernel) (Or.inl (by decide +kernel)) 0 0 0
  obtain ⟨same, -⟩ := exact (by decide +kernel) (fun _ => by decide +kernel)
    (fun _ => by decide +kernel) 0 0
  exact ⟨calls.1, same.mpr ⟨by decide +kernel, fun _ => by decide +kernel⟩⟩

/-- A directory of the overlay is taken for another one, and a mount answers for a file. -/
theorem directory_fd_loses_directory :
    ((doMkdirat (holdingCaller "/" "/o/d" "x" "/d/x").toProcess
          (overlaidHost [("/o/d", .directory)]) 0 0).2.tree.node (placeOf "/o/x") =
        some .directory ∧
      (doMkdirat (holdingCaller "/" "/o/d" "x" "/d/x").toProcess
          (overlaidHost [("/o/d", .directory)]) 0 1).2.tree.node (placeOf "/o/d/x") =
        some .directory) ∧
    belowFd { holdingCaller "/" "/rx/d" "x" "/d/x" with
        vfs := { overlaidVfs with overlay := pathOf "/rx" } }.toProcess (placeOf "/rx/d")
        (pathOf "x") = pathOf "/x/d/x" ∧
    ((fdGet (doOpenat (holdingCaller "/dev" "/r/d" "x" "/d/x").toProcess directoryHost
          0 0 0).2.1.fds 1).bind FdEntry.realFd = some (.foreign 1) ∧
      (fdGet (doOpenat (holdingCaller "/dev" "/r/d" "x" "/d/x").toProcess directoryHost
          0 1 0).2.1.fds 1).bind FdEntry.realFd = some (.object (placeOf "/r/d/x"))) := by
  decide +kernel

end AlpineOnIOS.SysFile
