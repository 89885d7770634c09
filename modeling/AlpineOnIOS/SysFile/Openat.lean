import AlpineOnIOS.SysFile.Process
import AlpineOnIOS.Vfs.LayerChanges

/-!
# Opening files and programs

`do_openat` resolves a path for writing, which leads to the overlay even if the file is only in
the root directory. `do_execve` hands the text of its path to the resolver as it is.
-/

namespace AlpineOnIOS.SysFile

open Foundation Vfs List Tree Host

variable (proc : Process)

def tryVfsOpen (dirfd : Int) (pathAddr : UInt64) (linuxFlags : UInt32) :
    Option (HostFd × FdType) :=
  (proc.memReadStr pathAddr).bind fun guestPath =>
    let absPath :=
      if guestPath.val.head? ≠ some slash then
        -- The source has the same call for a descriptor and for the working directory.
        if dirfd = atFdcwd then vfsNormalizePath proc.cwd.val guestPath.val
        else vfsNormalizePath proc.cwd.val guestPath.val
      else vfsNormalizePath [slash] guestPath.val
    (vfsFindMount proc.vfs.mounts absPath.val).bind fun found =>
      (proc.mountOpen found.1.backend found.2 (translateOpenFlags linuxFlags)).map fun hostFd =>
        (hostFd,
          if found.2 = CString.ofLiteral "/fb0" then .fb
          else if found.2 = CString.ofLiteral "/input/event0" then .input
          else .file)

variable (host : Host)

/-- The end of `do_openat`: the opened file gets a descriptor. -/
def installFd (type : FdType) (hostFd : HostFd)
    (linuxFlags : UInt32) : Int × Process × Host :=
  let init : FdEntry :=
    { type, realFd := some hostFd, flags := linuxFlags
      cloexec := hasFlag linuxFlags linuxOCloexec }
  match fdAllocInit proc.fds 0 init with
  | none => (-24, proc, host)
  | some (efd, fds) => (efd, { proc with fds }, host)

/-- `do_openat`, without the mode, on a host without permissions. -/
def doOpenat (a0 a1 a2 : UInt64) : Int × Process × Host :=
  let dirfd := toInt32 a0
  let linuxFlags := a2.toUInt32
  match tryVfsOpen proc dirfd a1 linuxFlags with
  | some (hostFd, type) => installFd proc host type hostFd linuxFlags
  | none =>
    let resolved :=
      if hasFlag linuxFlags (linuxOCreat ||| linuxOWronly ||| linuxORdwr) then
        resolvePathWrite proc host dirfd a1
      else (resolvePath proc host dirfd a1, host)
    match resolved.1 with
    | .error _ => (-2, proc, resolved.2)
    | .ok path =>
      match resolved.2.openFile (translateOpenFlags linuxFlags).toOpenFlags path.val with
      | .error error => (negErrno error, proc, resolved.2)
      | .ok (place, opened) => installFd proc opened .file (.object place) linuxFlags

/-- A call has opened a file with a content. -/
def OpensFile (result : Int × Process × Host) (content : List UInt8) : Prop :=
  ∃ (fd : Nat) (entry : FdEntry) (place : Location),
    result.1 = fd ∧ fdGet result.2.1.fds fd = some entry ∧
      entry.realFd = some (.object place) ∧
      result.2.2.tree.node place = some (.file content)

/-- The flags ask for writing and not for an empty file. -/
def Rewrites (linuxFlags : UInt32) : Prop :=
  (linuxFlags &&& 3 = linuxOWronly ∨ linuxFlags &&& 3 = linuxORdwr) ∧
    hasFlag linuxFlags linuxOTrunc = false
  deriving Decidable

/-- A free descriptor, and a file in the overlay that need not be new or an empty one made there. -/
def OpensInOverlay (upper place : Location) (flags : OpenFlags)
    (content : List UInt8) : Prop :=
  proc.fds.HasFree ∧ flags.directory = false ∧
    if host.tree.node (place ++ upper) ≠ none then flags.create = true → flags.exclusive = false
    else flags.create = true ∧ content = [] ∧ host.tree.Clear upper place.tail.reverse
  deriving Decidable

theorem negErrno_neg (error : Errno) : negErrno error < 0 := by
  cases error <;> decide

variable {host proc} {content : List UInt8} {opened : Host} {a0 a1 a2 : UInt64}
  {absPath path : PathBuffer} {place : Location} {linuxFlags : UInt32}

theorem not_opensFile_of_neg {result : Int × Process × Host} (negative : result.1 < 0) :
    ¬OpensFile result content := by
  rintro ⟨_, _, _, _, -⟩
  omega

theorem opensFile_installFd :
    OpensFile (installFd proc opened .file (.object place) linuxFlags) content ↔
      proc.fds.HasFree ∧ opened.tree.node place = some (.file content) := by
  rw [← fdAllocInit_isSome proc.fds
    { type := .file, realFd := some (.object place), flags := linuxFlags
      cloexec := hasFlag linuxFlags linuxOCloexec }]
  rw [installFd]
  split
  · rename_i full
    rw [full]
    simp [OpensFile]
  rename_i efd fds allocated
  have found := fdGet_fdAllocInit (by simp) allocated
  rw [allocated]
  constructor
  · rintro ⟨fd, entry, _, returned, got, refers, holds⟩
    obtain rfl : efd = fd := Int.ofNat.inj returned
    have same : some entry = some _ := got.symm.trans found
    cases same
    cases refers
    exact ⟨rfl, holds⟩
  · rintro ⟨-, holds⟩
    exact ⟨efd, _, place, rfl, found, rfl, holds⟩

theorem tryVfsOpen_unmounted (named : guestAbsPath proc (toInt32 a0) a1 = .ok absPath)
    (direct : toInt32 a0 = atFdcwd ∨
      ∀ guestPath, proc.memReadStr a1 = some guestPath → guestPath.val.head? = some slash)
    (unmounted : vfsFindMount proc.vfs.mounts absPath.val = none) :
    tryVfsOpen proc (toInt32 a0) a1 linuxFlags = none := by
  rw [tryVfsOpen]
  cases read : proc.memReadStr a1 with
  | none => rfl
  | some guestPath =>
    rw [guestAbsPath, read] at named
    simp only [buildGuestAbsPath] at named
    split at named
    · rename_i absolute
      cases named
      simp [absolute, unmounted]
    rename_i relative
    have working := direct.resolve_right fun absolute => relative (absolute guestPath read)
    rw [if_pos working] at named
    cases named
    simp [relative, unmounted]

theorem writes_of_rewrites (rewrites : Rewrites linuxFlags) :
    hasFlag linuxFlags (linuxOCreat ||| linuxOWronly ||| linuxORdwr) = true := by
  rw [hasFlag, bne_iff_ne]
  intro none
  have access : linuxFlags &&& 3 =
      (linuxFlags &&& (linuxOCreat ||| linuxOWronly ||| linuxORdwr)) &&& 3 := by
    rw [UInt32.and_assoc]
    rfl
  have zero : linuxFlags &&& 3 = 0 := by rw [access, none, UInt32.zero_and]
  have writes := rewrites.1
  rw [zero] at writes
  revert writes
  decide

theorem opensFile_doOpenat {after : Host} (named : guestAbsPath proc (toInt32 a0) a1 = .ok absPath)
    (direct : toInt32 a0 = atFdcwd ∨
      ∀ guestPath, proc.memReadStr a1 = some guestPath → guestPath.val.head? = some slash)
    (unmounted : vfsFindMount proc.vfs.mounts absPath.val = none)
    (rewrites : Rewrites a2.toUInt32)
    (resolved : vfsResolveRw proc.vfs host absPath .write = (some path, after)) :
    OpensFile (doOpenat proc host a0 a1 a2) content ↔
      proc.fds.HasFree ∧ ∃ place opened,
        after.openFile (translateOpenFlags a2.toUInt32).toOpenFlags path.val = .ok (place, opened) ∧
          opened.tree.node place = some (.file content) := by
  simp only [doOpenat, tryVfsOpen_unmounted named direct unmounted,
    if_pos (writes_of_rewrites rewrites), resolvePathWrite_eq named resolved]
  cases made : after.openFile (translateOpenFlags a2.toUInt32).toOpenFlags path.val with
  | error error =>
    have failed : ¬OpensFile (negErrno error, proc, after) content :=
      not_opensFile_of_neg (negErrno_neg error)
    simp [failed]
  | ok result =>
    obtain ⟨_, _⟩ := result
    simp [opensFile_installFd]

section Layer

variable {base name : CString} {left : Nat} {root outer : Location} {flags : OpenFlags}
  (based : host.descend base = .ok (left, root)) (directory : host.tree.node root = some .directory)
  (isName : ∀ component ∈ name :: outer, IsName component)
  (linkFree : host.tree.LinkFree root (name :: outer).reverse)

include based isName linkFree

/-- A file that is there is opened unless it should be a directory or new. -/
theorem openFile_present (found : host.tree.node (name :: (outer ++ root)) = some (.file content))
    (keeps : flags.truncate = false) :
    (∃ place opened, host.openFile flags (placePath base (name :: outer)) = .ok (place, opened) ∧
        opened.tree.node place = some (.file content)) ↔
      flags.directory = false ∧ (flags.create = true → flags.exclusive = false) := by
  have present : host.tree.node (name :: (outer ++ root)) ≠ none := by simp [found]
  have parent := parent_directory present
  have notLink : host.tree.linkAt (name :: (outer ++ root)) = none := by rw [linkAt, found]
  have followed : host.follow (placePath base (name :: outer)) = .ok (name :: (outer ++ root)) := by
    rw [follow_placePath_cons (isName name mem_cons_self),
      descend_placePath_linkFree based isName linkFree (by simpa using present)]
    rfl
  have outerFree : host.tree.LinkFree root outer.reverse := by
    rw [reverse_cons, linkFree_append] at linkFree
    exact linkFree.1
  rw [forall_mem_cons] at isName
  have located := locate_placePath based isName.2 outerFree isName.1 parent
  have settled := settle_of_linkAt notLink host.linkMax
  obtain ⟨_, create, exclusive, _, directory⟩ := flags
  subst keeps
  cases create <;> cases directory <;> cases exclusive <;>
    simp [openFile, openExisting, followed, located, settled, found, bind, Except.bind]

include directory

theorem openFile_absent (absent : host.tree.node (name :: (outer ++ root)) = none) :
    (∃ place opened, host.openFile flags (placePath base (name :: outer)) = .ok (place, opened) ∧
        opened.tree.node place = some (.file content)) ↔
      flags.directory = false ∧ flags.create = true ∧ content = [] ∧
        host.tree.node (outer ++ root) = some .directory := by
  have notLink : host.tree.linkAt (name :: (outer ++ root)) = none := by rw [linkAt, absent]
  have settled := settle_of_linkAt notLink host.linkMax
  obtain ⟨_, notFollowed⟩ : ∃ error,
      host.follow (placePath base (name :: outer)) = .error error := by
    have follows := follow_placePath based (.inr (cons_ne_nil name outer)) directory isName linkFree
    rw [cons_append, if_pos absent] at follows
    cases followed : host.follow (placePath base (name :: outer)) with
    | error error => exact ⟨error, rfl⟩
    | ok => simp [followed, Except.toOption] at follows
  have outerFree : host.tree.LinkFree root outer.reverse := by
    rw [reverse_cons, linkFree_append] at linkFree
    exact linkFree.1
  rw [forall_mem_cons] at isName
  obtain ⟨_, create, exclusive, _, isDirectory⟩ := flags
  by_cases parent : host.tree.node (outer ++ root) = some .directory
  · have located := locate_placePath based isName.2 outerFree isName.1 parent
    have made : (host.tree.insert (name :: (outer ++ root)) (.file [])).node
        (name :: (outer ++ root)) = some (.file []) := by
      rw [node_insert absent parent, if_pos rfl]
    cases create <;> cases isDirectory <;> cases exclusive <;>
      simp [openFile, createFile, notFollowed, located, settled, absent, made, parent,
        bind, Except.bind, eq_comm]
  · obtain ⟨_, notLocated⟩ := locate_placePath_error based isName.2 outerFree isName.1 parent
    cases create <;> cases isDirectory <;>
      simp [openFile, notFollowed, notLocated, parent, bind, Except.bind]

end Layer

/-- Opening for writing opens what is read exactly if it is in the overlay, or empty. -/
theorem opensFile_iff {proc : Process} {host : Host} {lower upper object : Location}
    {a0 a1 a2 : UInt64} {absPath : PathBuffer} {content : List UInt8}
    (layers : Layers proc.vfs host lower upper)
    (named : guestAbsPath proc (toInt32 a0) a1 = .ok absPath)
    (direct : toInt32 a0 = atFdcwd ∨
      ∀ guestPath, proc.memReadStr a1 = some guestPath → guestPath.val.head? = some slash)
    (layered : LayeredPath proc.vfs host lower upper absPath.val)
    (reads : readObject proc.vfs host absPath = some object)
    (file : host.tree.node object = some (.file content)) (rewrites : Rewrites a2.toUInt32) :
    OpensFile (doOpenat proc host a0 a1 a2) content ↔
      OpensInOverlay proc host upper (guestPlace absPath.val)
        (translateOpenFlags a2.toUInt32).toOpenFlags content := by
  rw [opensFile_doOpenat named direct layered.unmounted rewrites (layered.write layers),
    OpensInOverlay]
  refine and_congr_right fun _ => ?_
  have keeps := rewrites.2
  have grown := layers.extends (host.tree.extends_insertDirectories upper
    (guestPlace absPath.val).tail.reverse)
  have links := (layered.congr (host.tree.linkAt_insertDirectories upper
    (guestPlace absPath.val).tail.reverse)).upperFree
  obtain ⟨_, based⟩ := grown.overlay
  have isName := isName_guestPlace absPath.val
  rw [layered.readObject_eq layers] at reads
  dsimp only
  cases shape : guestPlace absPath.val with
  | nil =>
    rw [shape, nil_append, layers.upperDirectory, if_pos (by simp)] at reads
    cases reads
    rw [layers.upperDirectory] at file
    cases file
  | cons name outer =>
    simp only [shape, tail_cons] at based links isName reads grown ⊢
    rw [cons_append] at reads ⊢
    split
    · rename_i present
      rw [if_pos present] at reads
      cases reads
      have found := host.tree.extends_insertDirectories upper outer.reverse _ _ file
      exact openFile_present based isName links found keeps
    rename_i absent
    rw [not_not] at absent
    have free : (host.tree.insertDirectories upper outer.reverse).node
        (name :: (outer ++ upper)) = none := by
      rw [node_insertDirectories_beyond (by simp), absent]
    have parent : (host.tree.insertDirectories upper outer.reverse).node
        (outer.reverse.reverse ++ upper) = some .directory ↔ host.tree.Clear upper outer.reverse :=
      directory_insertDirectories_iff layers.upperDirectory
    rw [reverse_reverse] at parent
    rw [openFile_absent based grown.upperDirectory isName links free, parent]

/-- A host with a file that the overlay has. -/
def writtenHost : Host := overlaidHost [("/o/f", .file [104, 105])]

theorem opensFile_overlaid :
    OpensFile (doOpenat (pathProcess "f") writtenHost workingDirectory 0 2) [104, 105] := by
  have layers : Layers (pathProcess "f").vfs writtenHost (placeOf "/r") (placeOf "/o") := by
    decide +kernel
  have named : guestAbsPath (pathProcess "f") (toInt32 workingDirectory) 0 = .ok (pathOf "/f") := by
    decide +kernel
  have reads : readObject (pathProcess "f").vfs writtenHost (pathOf "/f") =
      some (placeOf "/o/f") := by
    decide +kernel
  refine (opensFile_iff layers named (.inl ?_) ?_ reads ?_ ?_).mpr ?_
  all_goals decide +kernel

/-- A host with a file that only the root directory has. -/
def motdHost : Host :=
  overlaidHost [("/r/etc", .directory), ("/r/etc/motd", .file [104, 105])]

/-- The file is reported missing, or replaced by an empty one. -/
theorem doOpenat_loses_content :
    (readObject overlaidVfs motdHost (pathOf "/etc/motd") = some (placeOf "/r/etc/motd") ∧
      motdHost.tree.node (placeOf "/r/etc/motd") = some (.file [104, 105])) ∧
    (doOpenat (pathProcess "/etc/motd") motdHost workingDirectory 0 2).1 = -2 ∧
    ((doOpenat (pathProcess "/etc/motd") motdHost workingDirectory 0 0x42).1 = 0 ∧
      (fdGet (doOpenat (pathProcess "/etc/motd") motdHost workingDirectory 0 0x42).2.1.fds 0).bind
        FdEntry.realFd = some (.object (placeOf "/o/etc/motd")) ∧
      (doOpenat (pathProcess "/etc/motd") motdHost workingDirectory 0 0x42).2.2.tree.node
        (placeOf "/o/etc/motd") = some (.file [])) := by
  decide +kernel

/-- What comes of a name: it is not resolved, there is nothing to open, or a file is opened. -/
inductive NameOutcome where
  | unresolved
  | missing
  | opened (file : HostFd)
  deriving DecidableEq

/-- `open` of the host with `O_RDONLY`. -/
def openReadOnly (host : Host) (path : CString) : NameOutcome :=
  match host.openFile (translateOpenFlags 0).toOpenFlags path with
  | .error _ => .missing
  | .ok (place, _) => .opened (.object place)

/-- `proc_execve` up to the `open` of `elf_load`, with the allocations granted. -/
def procExecve (vfs : VfsT) (host : Host) (path : PathBuffer) : NameOutcome :=
  match vfsResolve vfs host path with
  | none => .unresolved
  | some hostPath => openReadOnly host hostPath.val

/-- `do_execve` up to the `open` of `elf_load`. -/
def doExecve (proc : Process) (host : Host) (a0 : UInt64) : NameOutcome :=
  match proc.memReadStr a0 with
  | none => .unresolved
  | some path => procExecve proc.vfs host path

/-- What `do_openat` opens with `O_RDONLY` for a path from the working directory. -/
def openOutcome (proc : Process) (host : Host) (a1 : UInt64) : NameOutcome :=
  match tryVfsOpen proc atFdcwd a1 0 with
  | some (hostFd, _) => .opened hostFd
  | none =>
    match resolvePath proc host atFdcwd a1 with
    | .error _ => .unresolved
    | .ok path => openReadOnly host path.val

theorem eq_of_openFile_readOnly {hostPath : CString}
    (made : host.openFile (translateOpenFlags 0).toOpenFlags hostPath = .ok (place, opened)) :
    opened = host := by
  obtain ⟨_, -, existing⟩ := exceptBind_eq_ok.mp made
  rw [Host.openExisting] at existing
  split at existing
  · cases existing
  · cases existing
    rfl
  · cases existing
    rfl
  · cases existing

/-- `do_openat` gives a descriptor to what is opened, and otherwise fails and changes nothing. -/
theorem doOpenat_eq_openOutcome (proc : Process) (host : Host) (a1 : UInt64) :
    match openOutcome proc host a1 with
    | .opened file => ∃ type, doOpenat proc host workingDirectory a1 0 =
        installFd proc host type file 0
    | _ => (doOpenat proc host workingDirectory a1 0).1 < 0 ∧
        (doOpenat proc host workingDirectory a1 0).2 = (proc, host) := by
  have working : toInt32 workingDirectory = atFdcwd := by decide
  have flags : (0 : UInt64).toUInt32 = 0 := by decide
  have reads : hasFlag 0 (linuxOCreat ||| linuxOWronly ||| linuxORdwr) = false := by decide
  rw [openOutcome]
  simp only [doOpenat, working, flags, reads, Bool.false_eq_true, if_false]
  cases mounted : tryVfsOpen proc atFdcwd a1 0 with
  | some found => exact ⟨found.2, rfl⟩
  | none =>
    cases resolved : resolvePath proc host atFdcwd a1 with
    | error => exact ⟨Int.negSucc_lt_zero 1, rfl⟩
    | ok path =>
      simp only [openReadOnly]
      cases made : host.openFile (translateOpenFlags 0).toOpenFlags path.val with
      | error error => exact ⟨negErrno_neg error, rfl⟩
      | ok result =>
        obtain ⟨_, _⟩ := result
        rw [eq_of_openFile_readOnly made]
        exact ⟨.file, rfl⟩

section

variable (read : proc.memReadStr a0 = some path)

include read

theorem guestAbsPath_working :
    guestAbsPath proc atFdcwd a0 = .ok (vfsNormalizePath proc.cwd.val path.val) := by
  rw [guestAbsPath, read]
  simp only [buildGuestAbsPath]
  split
  · rename_i absolute
    rw [vfsNormalizePath_absolute absolute [slash] proc.cwd.val]
  · rfl

omit read in
/-- The file that a mount opens for reading at an absolute path. -/
def mountFile (proc : Process) (absPath : CString) : Option HostFd :=
  (vfsFindMount proc.vfs.mounts absPath).bind fun found =>
    proc.mountOpen found.1.backend found.2 (translateOpenFlags 0)

theorem doExecve_eq :
    doExecve proc host a0 = procExecve proc.vfs host path := by
  rw [doExecve, read]

theorem openOutcome_eq :
    openOutcome proc host a0 =
      match mountFile proc (vfsNormalizePath proc.cwd.val path.val).val with
      | some file => .opened file
      | none => procExecve proc.vfs host (vfsNormalizePath proc.cwd.val path.val) := by
  have resolves : resolvePath proc host atFdcwd a0 =
      match vfsResolve proc.vfs host (vfsNormalizePath proc.cwd.val path.val) with
      | none => .error (-1)
      | some hostPath => .ok hostPath := by
    rw [resolvePath, guestAbsPath_working read]
    rfl
  have mounts : (tryVfsOpen proc atFdcwd a0 0).map Prod.fst =
      mountFile proc (vfsNormalizePath proc.cwd.val path.val).val := by
    have absolute : (if path.val.head? ≠ some slash then
        if atFdcwd = atFdcwd then vfsNormalizePath proc.cwd.val path.val
        else vfsNormalizePath proc.cwd.val path.val
        else vfsNormalizePath [slash] path.val) = vfsNormalizePath proc.cwd.val path.val := by
      split
      · rfl
      · rename_i absolute
        exact vfsNormalizePath_absolute (not_not.mp absolute) _ _
    rw [tryVfsOpen, read, Option.bind_some, absolute, mountFile, Option.map_bind]
    simp [Function.comp_def]
  rw [openOutcome, resolves, ← mounts]
  cases tryVfsOpen proc atFdcwd a0 0 with
  | some => rfl
  | none =>
    simp only [Option.map_none, procExecve]
    cases vfsResolve proc.vfs host (vfsNormalizePath proc.cwd.val path.val) with
    | none | some => rfl

end

/-- The object of two layers at a place: that of the upper one if there is one. -/
def layerObject (tree : Tree) (lower upper place : Location) : Option Location :=
  if tree.node (place ++ upper) ≠ none then some (place ++ upper)
  else if tree.node (place ++ lower) ≠ none then some (place ++ lower)
  else none

/-- What opening an object comes to. -/
def outcomeOf : Option Location → NameOutcome
  | none => .missing
  | some place => .opened (.object place)

variable {vfs : VfsT} {lower upper other object : Location}

theorem layerObject_ne_none (found : layerObject host.tree lower upper place = some object) :
    host.tree.node object ≠ none ∧ (object = place ++ upper ∨ object = place ++ lower) := by
  rw [layerObject] at found
  split at found
  · rename_i present
    cases found
    exact ⟨present, .inl rfl⟩
  split at found
  · rename_i present
    cases found
    exact ⟨present, .inr rfl⟩
  · cases found

theorem layerObject_eq_iff (apart : Apart lower upper) (different : place ≠ other) :
    layerObject host.tree lower upper place = layerObject host.tree lower upper other ↔
      layerObject host.tree lower upper place = none ∧
        layerObject host.tree lower upper other = none := by
  constructor
  · intro same
    cases found : layerObject host.tree lower upper place with
    | none => exact ⟨rfl, same ▸ found⟩
    | some =>
      exfalso
      rw [found] at same
      obtain ⟨-, first⟩ := layerObject_ne_none found
      obtain ⟨-, second⟩ := layerObject_ne_none same.symm
      rcases first with rfl | rfl
      · rcases second with equal | equal
        · exact different (List.append_cancel_right equal)
        · exact apart.append_ne _ _ equal.symm
      · rcases second with equal | equal
        · exact apart.append_ne _ _ equal
        · exact different (List.append_cancel_right equal)
  · rintro ⟨first, second⟩
    rw [first, second]

theorem openReadOnly_of_follow {hostPath : CString} (followed : host.follow hostPath = .ok place)
    (present : host.tree.node place ≠ none) (notLink : host.tree.linkAt place = none) :
    openReadOnly host hostPath = .opened (.object place) := by
  have opens : host.openFile (translateOpenFlags 0).toOpenFlags hostPath = .ok (place, host) := by
    change (host.follow hostPath).bind (host.openExisting (translateOpenFlags 0).toOpenFlags) = _
    rw [followed]
    change host.openExisting (translateOpenFlags 0).toOpenFlags place = _
    rw [Tree.linkAt] at notLink
    rw [Host.openExisting]
    split
    · rename_i absent
      exact absurd absent present
    · rfl
    · rfl
    rename_i link
    rw [link] at notLink
    cases notLink
  rw [openReadOnly, opens]

theorem linkAt_layerObject (layers : Layers vfs host lower upper)
    (layered : LayeredPath vfs host lower upper path.val)
    (found : layerObject host.tree lower upper (guestPlace path.val) = some object) :
    host.tree.linkAt object = none := by
  have free : ∀ root, host.tree.node root = some .directory →
      host.tree.LinkFree root (guestPlace path.val).reverse →
        host.tree.linkAt (guestPlace path.val ++ root) = none := by
    intro root directory linkFree
    by_cases top : guestPlace path.val = []
    · rw [top, List.nil_append, Tree.linkAt, directory]
    have last := Tree.linkFree_iff.mp linkFree (guestPlace path.val).reverse (by simpa using top)
      (List.prefix_refl _)
    rwa [List.reverse_reverse] at last
  rcases (layerObject_ne_none found).2 with rfl | rfl
  · exact free upper layers.upperDirectory layered.upperFree
  · exact free lower layers.lowerDirectory layered.lowerFree

theorem procExecve_layered (layers : Layers vfs host lower upper)
    (layered : LayeredPath vfs host lower upper path.val) :
    procExecve vfs host path =
      outcomeOf (layerObject host.tree lower upper (guestPlace path.val)) := by
  obtain ⟨_, _, _, hostPath, resolved, _⟩ := layered.read_layer layers
  have reads : readObject vfs host path =
      layerObject host.tree lower upper (guestPlace path.val) := layered.readObject_eq layers
  rw [readObject, resolved, Option.bind_some] at reads
  rw [procExecve, resolved, ← reads]
  cases followed : host.follow hostPath.val with
  | error error =>
    have fails : host.openFile (translateOpenFlags 0).toOpenFlags hostPath.val = .error error := by
      change (host.follow hostPath.val).bind _ = _
      rw [followed]
      rfl
    simp only [openReadOnly, fails]
    rfl
  | ok =>
    rw [followed] at reads
    have found := reads.symm
    exact openReadOnly_of_follow followed (layerObject_ne_none found).1
      (linkAt_layerObject layers layered found)

/-- `execve` loads the file that `open` would open, and resolves the same names. -/
def AgreesOnName (proc : Process) (host : Host) (address : UInt64) : Prop :=
  doExecve proc host address = openOutcome proc host address

/-- Both calls take a name in the same way, through the mounts or with the same text. -/
def SameName (proc : Process) (host : Host) (lower upper : Location) (path : PathBuffer) : Prop :=
  let absPath := vfsNormalizePath proc.cwd.val path.val
  let object := layerObject host.tree lower upper
  match mountFile proc absPath.val with
  | some file =>
    vfsFindMount proc.vfs.mounts path.val = none ∧
      (object (guestPlace path.val)).map .object = some file
  | none =>
    (vfsFindMount proc.vfs.mounts path.val = none ↔
      vfsFindMount proc.vfs.mounts absPath.val = none) ∧
    (vfsFindMount proc.vfs.mounts path.val = none →
      guestPlace path.val = guestPlace absPath.val ∨
        object (guestPlace path.val) = none ∧ object (guestPlace absPath.val) = none)

theorem procExecve_mounted (mounted : vfsFindMount vfs.mounts path.val ≠ none) :
    procExecve vfs host path = .unresolved := by
  rw [procExecve, vfsResolve, vfsResolveRw_mounted (Option.isSome_iff_ne_none.mpr mounted)]

theorem outcomeOf_ne_unresolved (object : Option Location) : outcomeOf object ≠ .unresolved := by
  cases object with
  | none | some => exact NameOutcome.noConfusion

theorem outcomeOf_eq_opened {object : Option Location} {file : HostFd} :
    outcomeOf object = .opened file ↔ object.map .object = some file := by
  cases object with
  | none | some => simp [outcomeOf]

theorem outcomeOf_injective : Function.Injective outcomeOf := by
  intro first second same
  cases first with
  | none =>
    cases second with
    | none => rfl
    | some => cases same
  | some =>
    cases second with
    | none => cases same
    | some =>
      cases same
      rfl

/-- `execve` and `open` agree on plain names exactly under `SameName`. -/
theorem execve_opens_iff {proc : Process} {host : Host} {address : UInt64} {path : PathBuffer}
    (read : proc.memReadStr address = some path) :
    (vfsFindMount proc.vfs.mounts path.val = none →
      vfsFindMount proc.vfs.mounts (vfsNormalizePath proc.cwd.val path.val).val = none →
      vfsNormalizePath [slash] path.val =
        vfsNormalizePath [slash] (vfsNormalizePath proc.cwd.val path.val).val →
      AgreesOnName proc host address) ∧
    ∀ lower upper, Layers proc.vfs host lower upper → Apart lower upper →
      (vfsFindMount proc.vfs.mounts path.val = none →
        LayeredPath proc.vfs host lower upper path.val) →
      (vfsFindMount proc.vfs.mounts (vfsNormalizePath proc.cwd.val path.val).val = none →
        LayeredPath proc.vfs host lower upper (vfsNormalizePath proc.cwd.val path.val).val) →
      (AgreesOnName proc host address ↔ SameName proc host lower upper path) := by
  rw [AgreesOnName, doExecve_eq read, openOutcome_eq read]
  refine ⟨fun unmounted absUnmounted same => ?_, ?_⟩
  · have noFile : mountFile proc (vfsNormalizePath proc.cwd.val path.val).val = none := by
      rw [mountFile, absUnmounted, Option.bind_none]
    rw [noFile]
    simp only [procExecve, vfsResolve, vfsResolveRw_unmounted unmounted,
      vfsResolveRw_unmounted absUnmounted, same]
  · intro lower upper layers apart plain absPlain
    simp only [SameName]
    cases file : mountFile proc (vfsNormalizePath proc.cwd.val path.val).val with
    | some =>
      by_cases unmounted : vfsFindMount proc.vfs.mounts path.val = none
      · rw [procExecve_layered layers (plain unmounted), outcomeOf_eq_opened]
        simp only [unmounted, true_and]
      · rw [procExecve_mounted unmounted]
        simp [unmounted]
    | none =>
      by_cases unmounted : vfsFindMount proc.vfs.mounts path.val = none
      · rw [procExecve_layered layers (plain unmounted)]
        by_cases absUnmounted : vfsFindMount proc.vfs.mounts
            (vfsNormalizePath proc.cwd.val path.val).val = none
        · rw [procExecve_layered layers (absPlain absUnmounted), outcomeOf_injective.eq_iff]
          simp only [unmounted, absUnmounted, true_and, true_implies]
          by_cases same : guestPlace path.val =
              guestPlace (vfsNormalizePath proc.cwd.val path.val).val
          · simp only [same, true_or]
          · rw [layerObject_eq_iff apart same]
            simp only [same, false_or]
        · rw [procExecve_mounted absUnmounted]
          simp only [outcomeOf_ne_unresolved, unmounted, absUnmounted, true_iff, false_and]
      · rw [procExecve_mounted unmounted]
        by_cases absUnmounted : vfsFindMount proc.vfs.mounts
            (vfsNormalizePath proc.cwd.val path.val).val = none
        · rw [procExecve_layered layers (absPlain absUnmounted)]
          simp only [(outcomeOf_ne_unresolved _).symm, unmounted, absUnmounted, false_iff,
            not_true_eq_false, false_and]
        · rw [procExecve_mounted absUnmounted]
          simp only [unmounted, absUnmounted, false_implies, and_self]

/-- A process in a directory, with one path in its memory. -/
def standingProcess (cwd path : String) : Process := { pathProcess path with cwd := pathOf cwd }

/-- A host with two programs of one name. -/
def programHost : Host :=
  overlaidHost [("/r/sh", .file [1]), ("/r/bin", .directory), ("/r/bin/sh", .file [2])]

/-- From the root of the guest both calls take the program there. -/
theorem execve_opens_root :
    AgreesOnName (standingProcess "/" "sh") programHost 0 ∧
      SameName (standingProcess "/" "sh") programHost (placeOf "/r") (placeOf "/o") (pathOf "sh") ∧
      doExecve (standingProcess "/" "sh") programHost 0 = .opened (.object (placeOf "/r/sh")) := by
  have agrees : AgreesOnName (standingProcess "/" "sh") programHost 0 :=
    (execve_opens_iff rfl).1 (by decide +kernel) (by decide +kernel) (by decide +kernel)
  have layered : AgreesOnName (standingProcess "/" "sh") programHost 0 ↔
      SameName (standingProcess "/" "sh") programHost (placeOf "/r") (placeOf "/o") (pathOf "sh") :=
    (execve_opens_iff rfl).2 _ _ (by decide +kernel) (by decide +kernel)
      (fun _ => by decide +kernel) fun _ => by decide +kernel
  exact ⟨agrees, layered.mp agrees, by decide +kernel⟩

/-- `execve` ignores the directory, and finds mounts by the text alone. -/
theorem execve_ignores_directory :
    (doExecve (standingProcess "/bin" "sh") programHost 0 = .opened (.object (placeOf "/r/sh")) ∧
      openOutcome (standingProcess "/bin" "sh") programHost 0 =
        .opened (.object (placeOf "/r/bin/sh"))) ∧
    (doExecve (standingProcess "/" "//proc/stat") programHost 0 = .missing ∧
      openOutcome (standingProcess "/" "//proc/stat") programHost 0 = .unresolved) ∧
    (doExecve (standingProcess "/" "/proc/../sh") programHost 0 = .unresolved ∧
      openOutcome (standingProcess "/" "/proc/../sh") programHost 0 =
        .opened (.object (placeOf "/r/sh"))) := by
  decide +kernel

end AlpineOnIOS.SysFile
