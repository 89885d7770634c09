import AlpineOnIOS.SysFile.Openat

/-!
# Descriptors under `/dev`

`vfs_dev_open` takes the number in `/dev/fd` for a descriptor of the host, and does not know the
table of the guest.
-/

namespace AlpineOnIOS.DevFd

open Foundation Vfs SysFile

/-- What `strtol` reads up to the end of a text, before it is cut to the range of `long`. -/
def strtol (text : CString) : Option Int :=
  let spelled := (text.map (·.val.toNat)).dropWhile fun char => char = 32 ∨ 9 ≤ char ∧ char ≤ 13
  let negative := spelled.head? = some 45
  let digits := if negative ∨ spelled.head? = some 43 then spelled.tail else spelled
  let value : Nat := digits.foldl (fun value digit => 10 * value + (digit - 48)) 0
  if text = [] then some 0
  else if digits ≠ [] ∧ ∀ digit ∈ digits, 48 ≤ digit ∧ digit ≤ 57 then
    some (if negative then -value else value)
  else none

/-- The number in a path below the mount point. -/
def numberOf (path : CString) : Option Int :=
  if path = CString.ofLiteral "/stdin" then some 0
  else if path = CString.ofLiteral "/stdout" then some 1
  else if path = CString.ofLiteral "/stderr" then some 2
  else strtol (path.drop 4)

/-- The paths of descriptors. -/
def IsFdPath (path : CString) : Prop :=
  path ∈ ["/stdin", "/stdout", "/stderr"].map CString.ofLiteral ∨
    (CString.ofLiteral "/fd/").isPrefixOf path
  deriving Decidable

/-- The cast of a `long` to `int`. -/
def toInt (number : Int) : Int :=
  Int.bmod (max (-0x8000000000000000) (min number 0x7fffffffffffffff)) 0x100000000

/-- `vfs_dev_open`, with what the descriptors of the host refer to and the other devices. -/
def vfsDevOpen (descriptors : Nat → Option HostFd) (devices : CString → Option HostFd)
    (path : CString) : Option HostFd :=
  if IsFdPath path then
    (numberOf path).bind fun number =>
      if toInt number < 0 then none else descriptors (toInt number).toNat
  else devices path

/-- A process on a host with certain descriptors. -/
def on (proc : Process) (descriptors : Nat → Option HostFd) : Process :=
  { proc with
    mountOpen := fun backend path flags =>
      if backend = .dev then vfsDevOpen descriptors (proc.mountOpen .dev · flags) path
      else proc.mountOpen backend path flags }

/-- The path below `/dev` that a call comes to. -/
def Reaches (proc : Process) (pathAddr : UInt64) (path : CString) : Prop :=
  ∃ guestPath, proc.memReadStr pathAddr = some guestPath ∧ ∃ mount, mount.backend = .dev ∧
    vfsFindMount proc.vfs.mounts (vfsNormalizePath
      (if guestPath.val.head? ≠ some slash then proc.cwd.val else [slash]) guestPath.val).val =
        some (mount, path)

/-- A call gives the file of the guest's number, and depends on no other host descriptor. -/
structure Confined (proc : Process) (realFds : Nat → Option Nat) (dirfd : Int) (pathAddr : UInt64)
    (linuxFlags : UInt32) (path : CString) : Prop where
  own : ∀ descriptors file type,
    tryVfsOpen (on proc descriptors) dirfd pathAddr linuxFlags = some (file, type) →
      ∃ fd real : Nat, numberOf path = some (fd : Int) ∧ realFds fd = some real ∧
        descriptors real = some file
  separate : ∀ one other : Nat → Option HostFd,
    (∀ fd real, realFds fd = some real → one real = other real) →
      tryVfsOpen (on proc one) dirfd pathAddr linuxFlags =
        tryVfsOpen (on proc other) dirfd pathAddr linuxFlags

variable {proc : Process} {pathAddr : UInt64} {path : CString}

theorem tryVfsOpen_on (reaches : Reaches proc pathAddr path) (isFd : IsFdPath path)
    (dirfd : Int) (linuxFlags : UInt32) :
    ∃ type, ∀ descriptors, tryVfsOpen (on proc descriptors) dirfd pathAddr linuxFlags =
      ((numberOf path).bind fun number =>
        if toInt number < 0 then none else descriptors (toInt number).toNat).map (·, type) := by
  obtain ⟨guestPath, read, mount, isDev, found⟩ := reaches
  rw [apply_ite (vfsNormalizePath · guestPath.val)] at found
  refine ⟨if path = .ofLiteral "/fb0" then .fb
    else if path = .ofLiteral "/input/event0" then .input else .file, fun descriptors => ?_⟩
  simp only [tryVfsOpen, on, read, Option.bind_some, ite_self, found, isDev, if_true, vfsDevOpen,
    isFd]

/-- A guest gets its own descriptors exactly if the host's have the numbers of the guest's. -/
theorem confined_iff (proc : Process) (realFds : Nat → Option Nat) (dirfd : Int)
    (pathAddr : UInt64) (linuxFlags : UInt32) :
    (∀ path, Reaches proc pathAddr path → IsFdPath path →
      Confined proc realFds dirfd pathAddr linuxFlags path) ↔
    ∀ path, Reaches proc pathAddr path → IsFdPath path → ∀ number, numberOf path = some number →
      0 ≤ toInt number → ∃ fd : Nat, number = fd ∧ realFds fd = some (toInt number).toNat := by
  refine forall_congr' fun path => forall_congr' fun reaches => forall_congr' fun isFd => ?_
  obtain ⟨type, opens⟩ := tryVfsOpen_on reaches isFd dirfd linuxFlags
  constructor
  · intro confined number named inRange
    obtain ⟨fd, real, same, behind, refers⟩ := confined.own (some ∘ .foreign)
      (.foreign (toInt number).toNat) type (by simp [opens, named, inRange])
    cases HostFd.foreign.inj (Option.some.inj refers)
    exact ⟨fd, Option.some.inj (named.symm.trans same), behind⟩
  · intro equal
    refine ⟨fun descriptors file type opened => ?_, fun one other agree => ?_⟩
    · rw [opens, Option.map_eq_some_iff] at opened
      obtain ⟨_, found, same⟩ := opened
      cases same
      obtain ⟨number, named, found⟩ := Option.bind_eq_some_iff.mp found
      split at found
      · contradiction
      obtain ⟨fd, rfl, behind⟩ := equal number named (Int.not_lt.mp ‹_›)
      exact ⟨fd, _, named, behind, found⟩
    · rw [opens, opens]
      cases named : numberOf path with
      | none => rfl
      | some number =>
        simp only [Option.bind_some]
        split
        · rfl
        obtain ⟨fd, -, behind⟩ := equal number named (Int.not_lt.mp ‹_›)
        rw [agree fd _ behind]

/-- A guest without descriptors opens the fifth of the host. -/
theorem foreign_descriptor_opened :
    ¬∀ proc realFds dirfd pathAddr linuxFlags path, Reaches proc pathAddr path → IsFdPath path →
      Confined proc realFds dirfd pathAddr linuxFlags path := by
  intro confined
  have reaches : Reaches (pathProcess "/dev/fd/5") 0 (CString.ofLiteral "/fd/5") :=
    ⟨_, rfl, ⟨pathOf "/dev", .dev⟩, rfl, by decide +kernel⟩
  have := confined _ (fun _ => none) 0 _ 0 _ reaches (by decide)
  obtain ⟨_, _, _, behind, _⟩ := this.own (some ∘ .foreign) (.foreign 5) .file (by decide +kernel)
  cases behind

end AlpineOnIOS.DevFd
