import AlpineOnIOS.Foundation.TreeEdits
import AlpineOnIOS.Vfs.Plain

/-!
# Paths and descriptors of a process

The part of `emu_process_t` that the file system calls of `sys_file.c` read, the table of
descriptors of `process.c`, and the way from the arguments of a call to a path on the host.
-/

namespace AlpineOnIOS.SysFile

open Foundation Vfs

def atFdcwd : Int := -100

/-- `neg_errno`, for the errors that the calls of the host return. -/
def negErrno : Errno → Int
  | .eperm => -1
  | .enoent => -2
  | .ebusy => -16
  | .eexist => -17
  | .enotdir => -20
  | .eisdir => -21
  | .einval => -22
  | .enotempty => -39
  | .eloop => -40

def toInt32 (argument : UInt64) : Int := argument.toUInt32.toInt32.toInt

/-- Some bit of a mask is set in the flags of a call. -/
def hasFlag (flags mask : UInt32) : Bool := flags &&& mask != 0

def linuxOWronly : UInt32 := 0x1
def linuxORdwr : UInt32 := 0x2
def linuxOCreat : UInt32 := 0x40
def linuxOExcl : UInt32 := 0x80
def linuxONoctty : UInt32 := 0x100
def linuxOTrunc : UInt32 := 0x200
def linuxOAppend : UInt32 := 0x400
def linuxONonblock : UInt32 := 0x800
def linuxODirectory : UInt32 := 0x10000
def linuxOCloexec : UInt32 := 0x80000

/-- The flags that the host's `open` gets. -/
structure HostFlags extends OpenFlags where
  access : UInt32
  append : Bool
  nonblock : Bool
  cloexec : Bool
  noctty : Bool

def translateOpenFlags (linuxFlags : UInt32) : HostFlags where
  access := linuxFlags &&& 3
  write := hasFlag linuxFlags 3
  create := hasFlag linuxFlags linuxOCreat
  exclusive := hasFlag linuxFlags linuxOExcl
  truncate := hasFlag linuxFlags linuxOTrunc
  append := hasFlag linuxFlags linuxOAppend
  nonblock := hasFlag linuxFlags linuxONonblock
  directory := hasFlag linuxFlags linuxODirectory
  cloexec := hasFlag linuxFlags linuxOCloexec
  noctty := hasFlag linuxFlags linuxONoctty

inductive FdType where
  | none | file | pipe | socket | tty | epoll | event | dir | fb | input
  deriving DecidableEq

/-- What a descriptor of the host refers to: an entry of its tree or something outside. -/
inductive HostFd where
  | object (place : Location)
  | foreign (number : Nat)
  deriving DecidableEq

/-- `fd_entry_t`; `realFd` is `none` for a negative `real_fd`. -/
structure FdEntry where
  type : FdType
  realFd : Option HostFd
  flags : UInt32
  cloexec : Bool
  deriving DecidableEq

def maxFds : Nat := 1024

structure FdTable where
  fds : List FdEntry
  size : fds.length = maxFds

variable (table : FdTable)

def fdGet (fd : Int) : Option FdEntry :=
  if fd < 0 ∨ maxFds ≤ fd then none
  else table.fds[fd.toNat]?.filter fun entry => entry.type ≠ .none

/-- `fd_alloc_init`: the first free descriptor from a number on, and the table with the entry. -/
def fdAllocInit (minfd : Nat) (init : FdEntry) : Option (Nat × FdTable) :=
  ((table.fds.drop minfd).findIdx? fun entry => entry.type = .none).map fun offset =>
    (minfd + offset,
      { fds := table.fds.set (minfd + offset) init
        size := by rw [List.length_set, table.size] })

/-- A descriptor that is not in use. -/
def FdTable.HasFree : Prop := ∃ entry ∈ table.fds, entry.type = .none
  deriving Decidable

theorem fdAllocInit_isSome (init : FdEntry) :
    (fdAllocInit table 0 init).isSome = true ↔ table.HasFree := by
  rw [fdAllocInit, Option.isSome_map, List.drop_zero, List.findIdx?_isSome, List.any_eq_true]
  simp [FdTable.HasFree]

theorem fdGet_fdAllocInit {table after : FdTable} {init : FdEntry} {fd : Nat}
    (used : init.type ≠ .none) (allocated : fdAllocInit table 0 init = some (fd, after)) :
    fdGet after fd = some init := by
  rw [fdAllocInit, Option.map_eq_some_iff] at allocated
  obtain ⟨offset, found, same⟩ := allocated
  simp only [Nat.zero_add] at same
  obtain ⟨rfl, rfl⟩ := Prod.mk.inj same
  rw [List.drop_zero, List.findIdx?_eq_some_iff_getElem] at found
  obtain ⟨inside, -⟩ := found
  have bounded : ¬((offset : Int) < 0 ∨ (maxFds : Int) ≤ offset) := by
    have size := table.size
    omega
  rw [fdGet, if_neg bounded, Int.toNat_natCast, List.getElem?_set_self inside]
  simp [used]

/-- The part of `emu_process_t` that the calls read, with the strings in its memory. -/
structure Process where
  vfs : VfsT
  cwd : PathBuffer
  fds : FdTable
  memReadStr : UInt64 → Option PathBuffer
  mountOpen : Backend → CString → HostFlags → Option HostFd

/-- The host's path of a descriptor. -/
def hostPath : HostFd → Option PathBuffer
  | .object place => some (truncate (normalText place))
  | .foreign _ => none

/-- The length of the root directory's name without the slashes at its end. -/
def rootLength (rootfs : CString) : Nat → Nat
  | 0 => 0
  | 1 => 1
  | length + 2 =>
    if rootfs[length + 1]? = some slash then rootLength rootfs (length + 1) else length + 2

def fdDirGuestPath (vfs : VfsT) (hostFd : HostFd) : Option CString :=
  (hostPath hostFd).bind fun hp =>
    let rootlen := rootLength vfs.rootfs.val vfs.rootfs.val.length
    if (vfs.rootfs.val.take rootlen).isPrefixOf hp.val then
      match hp.val.drop rootlen with
      | [] => some [slash]
      | char :: rel => some (char :: rel)
    else none

variable (proc : Process)

def buildGuestAbsPath (dirfd : Int) (guestPath : PathBuffer) :
    Except Int PathBuffer :=
  if guestPath.val.head? = some slash then .ok (vfsNormalizePath [slash] guestPath.val)
  else if dirfd = atFdcwd then .ok (vfsNormalizePath proc.cwd.val guestPath.val)
  else
    match (fdGet proc.fds dirfd).bind FdEntry.realFd with
    | none => .error (-9)
    | some hostFd =>
      match fdDirGuestPath proc.vfs hostFd with
      | none => .ok (vfsNormalizePath proc.cwd.val guestPath.val)
      | some base => .ok (vfsNormalizePath base guestPath.val)

/-- The absolute path of the guest that a call names. -/
def guestAbsPath (dirfd : Int) (pathAddr : UInt64) : Except Int PathBuffer :=
  match proc.memReadStr pathAddr with
  | none => .error (-14)
  | some guestPath => buildGuestAbsPath proc dirfd guestPath

def resolvePath (host : Host) (dirfd : Int) (pathAddr : UInt64) :
    Except Int PathBuffer :=
  (guestAbsPath proc dirfd pathAddr).bind fun absPath =>
    match vfsResolve proc.vfs host absPath with
    | none => .error (-1)
    | some path => .ok path

/-- `resolve_path_write`, with the host afterwards. -/
def resolvePathWrite (host : Host) (dirfd : Int) (pathAddr : UInt64) :
    Except Int PathBuffer × Host :=
  match guestAbsPath proc dirfd pathAddr with
  | .error code => (.error code, host)
  | .ok absPath =>
    match vfsResolveRw proc.vfs host absPath .write with
    | (none, after) => (.error (-1), after)
    | (some path, after) => (.ok path, after)

variable {proc} {host after : Host} {dirfd : Int} {pathAddr : UInt64} {absPath path : PathBuffer}

theorem resolvePath_eq (named : guestAbsPath proc dirfd pathAddr = .ok absPath)
    (resolved : vfsResolve proc.vfs host absPath = some path) :
    resolvePath proc host dirfd pathAddr = .ok path := by
  rw [resolvePath, named]
  simp only [Except.bind, resolved]

theorem resolvePathWrite_eq (named : guestAbsPath proc dirfd pathAddr = .ok absPath)
    (resolved : vfsResolveRw proc.vfs host absPath .write = (some path, after)) :
    resolvePathWrite proc host dirfd pathAddr = (.ok path, after) := by
  simp only [resolvePathWrite, named, resolved]

/-- A process with two directories, no open file and paths in its memory. -/
def sampleProcess (paths : UInt64 → String) : Process where
  vfs := overlaidVfs
  cwd := pathOf "/"
  fds :=
    { fds := List.replicate maxFds { type := .none, realFd := none, flags := 0, cloexec := false }
      size := List.length_replicate }
  memReadStr address := some (pathOf (paths address))
  mountOpen _ _ _ := none

/-- A process with one path in its memory. -/
def pathProcess (path : String) : Process := sampleProcess fun _ => path

/-- `LINUX_AT_FDCWD` as an argument. -/
def workingDirectory : UInt64 := 0xffffffffffffff9c

end AlpineOnIOS.SysFile
