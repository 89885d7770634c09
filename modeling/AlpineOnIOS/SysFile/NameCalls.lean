import AlpineOnIOS.SysFile.Openat
import AlpineOnIOS.SysFile.Removal
import AlpineOnIOS.Vfs.Confinement

/-!
# Further calls that take a name

`do_newfstatat`, `do_readlinkat`, `do_mkdirat` and `do_symlinkat`. All calls share a resolver that
follows a link in the last component, so none reads, describes, removes or moves one.
-/

namespace AlpineOnIOS.SysFile

open Foundation Vfs List CString Tree Host

def linuxAtSymlinkNofollow : UInt32 := 0x100

def linuxAtEmptyPath : UInt32 := 0x1000

/-- The host's record, what a mount says of a path, or a directory that the call makes up. -/
inductive EmuStat where
  | entry (place : Location) (node : Node)
  | descriptor (file : HostFd)
  | mount (backend : Backend) (subpath : CString)
  | synthetic
  deriving DecidableEq

def sizeofEmuStat : Nat := 128

/-- A process, and whether the `stat` of a mount and `mem_copy_to` succeed. -/
structure Caller extends Process where
  mountStat : Backend → CString → Bool
  memCopyTo : UInt64 → Nat → Bool

variable (caller : Caller) (a2 : UInt64)

/-- The end of `do_newfstatat`: the record is copied to the guest. -/
def copyStat (record : EmuStat) : Int × Option EmuStat :=
  if caller.memCopyTo a2 sizeofEmuStat then (0, some record) else (-14, none)

variable (proc : Process)

/-- The path for which a mount is looked up, which does not depend on the descriptor. -/
def mountPath (guestPath : PathBuffer) : PathBuffer :=
  if guestPath.val.head? ≠ some slash then vfsNormalizePath proc.cwd.val guestPath.val
  else vfsNormalizePath [slash] guestPath.val

variable (host : Host) (a0 : UInt64) (a1 : UInt64)

def doNewfstatat (caller : Caller) (host : Host) (a0 a1 a2 a3 : UInt64) : Int × Option EmuStat :=
  let dirfd := toInt32 a0
  let flags := a3.toUInt32
  if hasFlag flags linuxAtEmptyPath then
    match fdGet caller.fds dirfd with
    | none => (-9, none)
    | some entry =>
      match entry.realFd with
      | none => (-9, none)
      | some hostFd => copyStat caller a2 (.descriptor hostFd)
  else
    match resolvePath caller.toProcess host dirfd a1 with
    | .error _ =>
      match caller.memReadStr a1 with
      | none => (-14, none)
      | some guestPath =>
        match vfsFindMount caller.vfs.mounts (mountPath caller.toProcess guestPath).val with
        | some (mount, subpath) =>
          if caller.mountStat mount.backend subpath then
            copyStat caller a2 (.mount mount.backend subpath)
          else copyStat caller a2 .synthetic
        | none => (-2, none)
    | .ok path =>
      match
        if hasFlag flags linuxAtSymlinkNofollow then host.lstatEntry path.val
        else host.statEntry path.val
      with
      | .error error => (negErrno error, none)
      | .ok (place, found) => copyStat caller a2 (.entry place found)

/-- `do_readlinkat`: the result and the bytes that are copied to the guest. -/
def doReadlinkat (caller : Caller) (host : Host) (a0 a1 a2 a3 : UInt64) : Int × CString :=
  let copy (text : CString) : Int × CString :=
    let bytes := text.take a3.toNat
    if caller.memCopyTo a2 bytes.length then (bytes.length, bytes) else (-14, [])
  match caller.memReadStr a1 with
  | none => (-14, [])
  | some guestPath =>
    if guestPath.val = CString.ofLiteral "/proc/self/exe" then
      copy (CString.ofLiteral "/bin/busybox")
    else
      match resolvePath caller.toProcess host (toInt32 a0) a1 with
      | .error _ => (-2, [])
      | .ok path =>
        match host.readlink path.val with
        | .error error => (negErrno error, [])
        | .ok target => copy (truncate target).val

/-- `do_mkdirat`, without the mode. -/
def doMkdirat : Int × Host :=
  match resolvePathWrite proc host (toInt32 a0) a1 with
  | (.error _, after) => (-2, after)
  | (.ok path, after) =>
    match after.makeDirectory path.val with
    | .error error => (negErrno error, after)
    | .ok made => (0, made)

def doSymlinkat (proc : Process) (host : Host) (a0 a1 a2 : UInt64) : Int × Host :=
  match proc.memReadStr a0 with
  | none => (-14, host)
  | some target =>
    match resolvePathWrite proc host (toInt32 a1) a2 with
    | (.error _, after) => (-2, after)
    | (.ok path, after) =>
      match after.symlink target.val path.val with
      | .error error => (negErrno error, after)
      | .ok linked => (0, linked)

/-- A process with a string of the guest in its memory, of which `mem_read_str` leaves what fits. -/
def Process.reading (text : CString) : Process :=
  { proc with memReadStr := fun _ => some (truncate text) }

/-- The names of a whole string, behind those of the working directory if it is relative. -/
def named (cwd text : CString) : List CString :=
  normalNames (if text.head? = some slash then text else cwd ++ slash :: text)

variable {proc : Process}

theorem tokens_guestAbsPath (absolute : proc.cwd.val.head? = some slash) (text : CString) :
    ∃ absPath, guestAbsPath (proc.reading text) atFdcwd 0 = .ok absPath ∧
      tokens absPath.val = normalNames (if text.head? = some slash then (truncate text).val
        else (truncate (proc.cwd.val ++ slash :: (truncate text).val)).val) := by
  have first : (truncate text).val.head? = text.head? := by
    simp [truncate, pathMax, head?_take]
  obtain ⟨rest, cwd⟩ := head?_eq_some_iff.mp absolute
  simp only [guestAbsPath, Process.reading, buildGuestAbsPath, first]
  split
  · exact ⟨_, rfl, tokens_vfsNormalizePath (truncate text).2 (.inl (first.trans ‹_›))⟩
  rename_i relative
  refine ⟨_, rfl, ?_⟩
  have joined :
      (truncate (proc.cwd.val ++ slash :: (truncate text).val)).val.head? = some slash := by
    simp [truncate, pathMax, cwd]
  have same : vfsNormalizePath proc.cwd.val (truncate text).val =
      vfsNormalizePath [slash] (truncate (proc.cwd.val ++ slash :: (truncate text).val)).val := by
    simp only [vfsNormalizePath, first, relative, joined, if_false, if_true]
  rw [same]
  exact tokens_vfsNormalizePath (truncate _).2 (.inl joined)

/-- A letter that is no separator and no full stop. -/
def letter : CChar := ⟨97, by decide⟩

theorem normalNames_append_letters (cwd : CString) (count : Nat) :
    normalNames (cwd ++ slash :: replicate count letter) =
      normalNames cwd ++ [replicate count letter].filter (!·.isEmpty) := by
  have plain : slash ∉ replicate count letter := fun member =>
    absurd (eq_of_mem_replicate member) (by decide)
  rw [normalNames, tokens_append_slash, tokens_of_plain plain, foldl_append]
  cases count with
  | zero => simp [normalNames]
  | succ count =>
    have other : replicate (count + 1) letter ≠ here ∧
        replicate (count + 1) letter ≠ up := by
      constructor <;> exact fun same => absurd (cons.inj same).1 (by decide)
    simp [normalNames, pushComponent, other]

/-- The names that a walk can come back to: the layers, and what cuts leave of the overlay's. -/
def BaseName (vfs : VfsT) (front : CString) : Prop :=
  front = vfs.rootfs.val ∨
    (vfs.overlay.val ≠ [] ∧ front <+: vfs.overlay.val ∧
      (front = vfs.overlay.val ∨ vfs.rootfs.val.length ≤ front.length))

/-- The names of the directories are not links: each is empty or names something else. -/
def BasesStand (vfs : VfsT) (host : Host) : Prop :=
  ∀ front, BaseName vfs front → front = [] ∨ ∃ entry, host.lstat front = some entry ∧
    ∀ target, entry ≠ .link target

/-- A path below such a name with no link on the way from there. -/
def Settled (vfs : VfsT) (host : Host) (text : CString) : Prop :=
  ∃ base, BaseName vfs base ∧ Contained host base text

variable {vfs : VfsT} {host : Host} {text : CString}

theorem settled_rootfs (vfs : VfsT) (host : Host) : Settled vfs host vfs.rootfs.val :=
  ⟨_, .inl rfl, contained_root host _⟩

theorem BaseName.drop {resolved : PathBuffer} (isBase : BaseName vfs resolved.val) :
    BaseName vfs (dropComponent vfs.rootfs.val.length resolved).val := by
  rw [dropComponent]
  split
  · rename_i longer
    split
    · rename_i position found
      split
      · rename_i allowed
        rcases isBase with same | ⟨isSet, front, -⟩
        · rw [same] at longer
          exact absurd longer (Nat.lt_irrefl _)
        refine .inr ⟨isSet, (List.take_prefix _ _).trans front, .inr ?_⟩
        rw [length_take]
        exact Nat.le_min.mpr ⟨allowed, Nat.le_of_lt longer⟩
      · exact isBase
    · exact isBase
  · exact isBase

theorem Settled.drop {resolved : PathBuffer} (settled : Settled vfs host resolved.val) :
    Settled vfs host (dropComponent vfs.rootfs.val.length resolved).val := by
  obtain ⟨base, isBase, names, below, parts, linkFree⟩ := settled
  rcases eq_nil_or_concat' names with rfl | ⟨front, last, rfl⟩
  · rw [render_nil, append_nil] at below
    rw [← below] at isBase
    exact ⟨_, isBase.drop, contained_root host _⟩
  have lastPart := parts last (by simp)
  by_cases inside : vfs.rootfs.val.length ≤ (base ++ render front).length
  · rw [dropComponent_render below lastPart.1 inside]
    refine ⟨base, isBase, front, rfl, fun name member => parts name (by simp [member]), ?_⟩
    intro first isPrefix
    exact linkFree first (isPrefix.trans (prefix_append _ _))
  · rw [dropComponent_outside below lastPart.1 inside]
    exact ⟨base, isBase, front ++ [last], below, parts, linkFree⟩

theorem Settled.linkTarget_eq (settled : Settled vfs host text) (stand : BasesStand vfs host) :
    host.linkTarget text = none := by
  obtain ⟨base, isBase, names, rfl, -, linkFree⟩ := settled
  by_cases inside : names = []
  · rw [inside, render_nil, append_nil, linkTarget]
    rcases stand base isBase with rfl | ⟨_, found, other⟩
    · rfl
    rw [found]
    split
    · rename_i target same
      exact absurd (Option.some.inj same) (other target)
    · rfl
  · exact linkFree names prefix_rfl inside

theorem BasesStand.descend (stand : BasesStand vfs host) {base : CString}
    (isBase : BaseName vfs base) : ∃ reached, host.descend base = .ok reached := by
  rcases stand base isBase with rfl | ⟨_, found, -⟩
  · exact ⟨(host.linkMax, host.start [slash]), walk_nil⟩
  · exact descend_of_lstat found
      (Settled.linkTarget_eq ⟨base, isBase, contained_root host base⟩ stand)

variable {tree : Tree}

theorem BasesStand.grows (stand : BasesStand vfs host) (grows : host.tree.Extends tree) :
    BasesStand vfs { host with tree } := by
  intro front isBase
  refine (stand front isBase).imp_right ?_
  rintro ⟨entry, found, other⟩
  exact ⟨entry, lstat_extends grows found, other⟩

theorem Settled.linkTarget_grown (settled : Settled vfs host text) (stand : BasesStand vfs host)
    (grows : host.tree.Extends tree)
    (links : ∀ location, tree.linkAt location = host.tree.linkAt location) :
    { host with tree }.linkTarget text = none := by
  obtain ⟨base, isBase, names, rfl, parts, notLink⟩ := settled
  rcases eq_nil_or_concat' names with rfl | ⟨front, last, rfl⟩
  · rw [render_nil, append_nil]
    exact Settled.linkTarget_eq ⟨base, isBase, contained_root _ base⟩ (stand.grows grows)
  obtain ⟨⟨_, _⟩, based⟩ := stand.descend isBase
  have linkFree := linkFree_of_linkTarget based parts notLink
  by_cases empty : last = []
  · rw [empty, render_concat, ← append_assoc]
    exact linkTarget_trailing _ _
  have frontParts : Parts front := fun part member => parts part (by simp [member])
  have kept : [last].filter (!·.isEmpty) = [last] := by simp [empty]
  obtain ⟨plain, notHere, notUp⟩ := parts last (by simp)
  rw [filter_append, kept, linkFree_append] at linkFree
  rw [linkTarget_linkFree (descend_extends grows based)
    (fun part member => (frontParts part member).1) frontParts.isName
    (linkFree.1.congr links) ⟨empty, plain, notHere, notUp⟩]
  exact (links _).trans linkFree.2.1

/-- A host after directories were added. -/
def Grown (host after : Host) : Prop :=
  ∃ tree, after = { host with tree } ∧ host.tree.Extends tree ∧
    ∀ location, tree.linkAt location = host.tree.linkAt location

theorem Grown.refl (host : Host) : Grown host host :=
  ⟨host.tree, rfl, .refl _, fun _ => rfl⟩

variable {after : Host}

theorem Grown.linkAt_eq (grown : Grown host after) (location : Location) :
    after.tree.linkAt location = host.tree.linkAt location := by
  obtain ⟨_, rfl, -, links⟩ := grown
  exact links location

theorem Settled.linkTarget_eq_none (settled : Settled vfs host text) (stand : BasesStand vfs host)
    (grown : Grown host after) : after.linkTarget text = none := by
  obtain ⟨_, rfl, grows, links⟩ := grown
  exact settled.linkTarget_grown stand grows links

theorem BasesStand.grown (stand : BasesStand vfs host) (grown : Grown host after) :
    BasesStand vfs after := by
  obtain ⟨_, rfl, grows, -⟩ := grown
  exact stand.grows grows

theorem chooseBase_grown (vfs : VfsT) (host : Host) (pathbuf : CString) (mode : Mode) :
    Grown host (chooseBase vfs host pathbuf mode).2 := by
  unfold chooseBase
  split
  · cases mode with
    | write => exact overlayMkdirs_grows host _
    | read =>
      simp only
      split
      · exact .refl host
      · exact .refl host
  · exact .refl host

/-- The resolver only adds directories, and what it returns has no links. -/
theorem vfsResolveRw_settled (vfs : VfsT) (host : Host) (guestPath : PathBuffer) (mode : Mode) :
    Grown host (vfsResolveRw vfs host guestPath mode).2 ∧
      ∀ result, (vfsResolveRw vfs host guestPath mode).1 = some result →
        Settled vfs (vfsResolveRw vfs host guestPath mode).2 result.val := by
  cases mounted : vfsFindMount vfs.mounts guestPath.val with
  | some =>
    rw [vfsResolveRw_mounted (by simp [mounted])]
    exact ⟨.refl host, by simp⟩
  | none =>
    rw [vfsResolveRw_unmounted mounted]
    generalize (vfsNormalizePath [slash] guestPath.val).val = pathbuf
    refine ⟨chooseBase_grown vfs host pathbuf mode, fun result resolved => ?_⟩
    refine resolveNormalized_rule (Settled vfs _) (settled_rootfs vfs _) Settled.drop
      (fun ⟨base, isBase, contained⟩ plain notHere notUp notLink =>
        ⟨base, isBase, contained.append plain notHere notUp notLink⟩) ?_ resolved
    rcases chooseBase_cases vfs host pathbuf mode with base | ⟨base, isSet, -⟩
    · rw [base]
      exact settled_rootfs vfs _
    · rw [base]
      exact ⟨_, .inr ⟨isSet, prefix_rfl, .inl rfl⟩, contained_root _ _⟩

variable {proc : Process} {a1 : UInt64} {path : PathBuffer} {dirfd : Int}

theorem settled_resolvePath (resolved : resolvePath proc host dirfd a1 = .ok path) :
    Settled proc.vfs host path.val := by
  obtain ⟨absPath, -, resolved⟩ := exceptBind_eq_ok.mp resolved
  obtain ⟨-, settled⟩ := vfsResolveRw_settled proc.vfs host absPath .read
  rw [vfsResolveRw_read] at settled
  cases returned : vfsResolve proc.vfs host absPath with
  | none =>
    rw [returned] at resolved
    cases resolved
  | some =>
    rw [returned] at resolved
    cases resolved
    exact settled path returned

theorem grown_resolvePathWrite {outcome : Except Int PathBuffer}
    (resolved : resolvePathWrite proc host dirfd a1 = (outcome, after)) :
    Grown host after ∧ ∀ path, outcome = .ok path → Settled proc.vfs after path.val := by
  rw [resolvePathWrite] at resolved
  split at resolved
  · cases resolved
    exact ⟨.refl host, by simp⟩
  rename_i absPath named
  obtain ⟨grown, settled⟩ := vfsResolveRw_settled proc.vfs host absPath .write
  split at resolved
  · rename_i returned
    cases resolved
    rw [returned] at grown
    exact ⟨grown, by simp⟩
  rename_i returned
  cases resolved
  rw [returned] at grown settled
  refine ⟨grown, fun path same => ?_⟩
  cases same
  exact settled _ rfl

theorem linkTarget_resolvePath (stand : BasesStand proc.vfs host)
    (resolved : resolvePath proc host dirfd a1 = .ok path) : host.linkTarget path.val = none :=
  (settled_resolvePath resolved).linkTarget_eq stand

/-- The directory of a path is resolved from the layer that is read, with a link in it. -/
structure NamesLink (vfs : VfsT) (host : Host) (path : PathBuffer) (place : Location)
    (target : CString) : Prop where
  unmounted : vfsFindMount vfs.mounts path.val = none
  named : ∃ name outer directory, guestPlace path.val = name :: outer ∧
    resolveNormalized vfs host
      (chooseBase vfs host (vfsNormalizePath [slash] path.val).val .read).1
      (normalText outer) = some directory ∧
    host.locate (directory.val ++ slash :: name) = .ok place
  link : host.tree.linkAt place = some target

/-- `readlinkat` returns the text of the link. -/
def ReadsLink (caller : Caller) (host : Host) (a0 a1 a2 a3 : UInt64) (target : CString) : Prop :=
  doReadlinkat caller host a0 a1 a2 a3 =
    (((target.take a3.toNat).length : Int), target.take a3.toNat)

/-- `fstatat` describes the link. -/
def DescribesLink (caller : Caller) (host : Host) (a0 a1 a2 a3 : UInt64) (place : Location)
    (target : CString) : Prop :=
  doNewfstatat caller host a0 a1 a2 a3 = (0, some (.entry place (.link target)))

/-- `unlinkat` removes the link. -/
def RemovesLink (result : Int × Host) (place : Location) : Prop :=
  result.1 = 0 ∧ result.2.tree.node place = none

/-- `renameat` moves the link and nothing else. -/
structure MovesLink (host : Host) (result : Int × Host) (place newPlace : Location)
    (target : CString) : Prop where
  succeeds : result.1 = 0
  leaves : result.2.tree.node place = none
  arrives : result.2.tree.linkAt newPlace = some target
  others : ∀ other, other ≠ place → other ≠ newPlace → host.tree.node other ≠ none →
    result.2.tree.node other = host.tree.node other

/-- `symlinkat` refuses an existing link with `EEXIST` and makes nothing. -/
def RefusesLink (host : Host) (result : Int × Host) : Prop :=
  result.1 = -17 ∧ ∀ location, result.2.tree.node location = host.tree.node location

/-- For a change the path leads to something, and no directory is made on the way. -/
def LeadsToEntry (vfs : VfsT) (host : Host) (path : PathBuffer) : Prop :=
  ∃ result after, vfsResolveRw vfs host path .write = (some result, after) ∧
    after.lstat result.val ≠ none ∧
    ∀ location, after.tree.node location = host.tree.node location

variable {caller : Caller} {a0 a2 a3 : UInt64} {place : Location} {target : CString}

theorem readsLink_iff (stand : BasesStand caller.vfs host) :
    ReadsLink caller host a0 a1 a2 a3 target ↔
      ∃ guestPath, caller.memReadStr a1 = some guestPath ∧
        guestPath.val = ofLiteral "/proc/self/exe" ∧
        caller.memCopyTo a2 (target.take a3.toNat).length = true ∧
        (ofLiteral "/bin/busybox").take a3.toNat = target.take a3.toNat := by
  have negative : ∀ (code : Int) (text : CString), code < 0 →
      (code, text) ≠ (((target.take a3.toNat).length : Int), target.take a3.toNat) := by
    intro code text below same
    have codes := congrArg Prod.fst same
    simp only at codes
    omega
  rw [ReadsLink, doReadlinkat]
  cases read : caller.memReadStr a1 with
  | none => exact iff_of_false (negative _ _ (by decide)) nofun
  | some guestPath =>
    simp only [Option.some.injEq, exists_eq_left']
    by_cases spelled : guestPath.val = ofLiteral "/proc/self/exe"
    · simp only [spelled, if_true, true_and]
      by_cases same : (ofLiteral "/bin/busybox").take a3.toNat = target.take a3.toNat
      · rw [same]
        by_cases copied : caller.memCopyTo a2 (target.take a3.toNat).length = true
        · rw [if_pos copied]
          exact iff_of_true rfl ⟨copied, rfl⟩
        · rw [if_neg copied]
          exact iff_of_false (negative _ _ (by decide)) fun both => copied both.1
      · refine iff_of_false (fun returned => same ?_) fun both => same both.2
        split at returned
        · exact (Prod.mk.inj returned).2
        · exact absurd returned (negative _ _ (by decide))
    · rw [if_neg spelled]
      refine iff_of_false ?_ fun both => spelled both.1
      cases resolved : resolvePath caller.toProcess host (toInt32 a0) a1 with
      | error => exact negative _ _ (by decide)
      | ok =>
        obtain ⟨error, failed⟩ := readlink_fails (linkTarget_resolvePath stand resolved)
        simp only [failed]
        exact negative _ _ (negErrno_neg error)

theorem not_describesLink (stand : BasesStand caller.vfs host)
    (nofollow : hasFlag a3.toUInt32 linuxAtSymlinkNofollow = true) :
    ¬DescribesLink caller host a0 a1 a2 a3 place target := by
  intro described
  rw [DescribesLink, doNewfstatat] at described
  simp only [copyStat, nofollow, if_true] at described
  split at described
  · split at described
    · cases described
    split at described
    · cases described
    · split at described <;> cases described
  split at described
  · split at described
    · cases described
    split at described
    · split at described
      · split at described <;> cases described
      · split at described <;> cases described
    · cases described
  rename_i resolved
  split at described
  · cases (Prod.mk.inj described).2
  rename_i found
  split at described
  · cases described
    exact lstatEntry_ne_link (linkTarget_resolvePath stand resolved) _ _ found
  · cases described

theorem not_removesLink (stand : BasesStand proc.vfs host)
    (link : host.tree.linkAt place = some target) :
    ¬RemovesLink (doUnlinkat proc host a0 a1 a2) place := by
  rintro ⟨-, absent⟩
  have kept : (doUnlinkat proc host a0 a1 a2).2.tree.linkAt place = some target := by
    rw [doUnlinkat]
    split
    · rename_i resolved
      rw [(grown_resolvePathWrite resolved).1.linkAt_eq, link]
    rename_i path after resolved
    obtain ⟨grown, settled⟩ := grown_resolvePathWrite resolved
    have free := (settled path rfl).linkTarget_eq (stand.grown grown)
    split
    · rw [grown.linkAt_eq, link]
    rename_i succeeded
    obtain ⟨_, removes⟩ := removes_of_removeEntry succeeded
    rw [removes.linkAt_eq free, grown.linkAt_eq, link]
  rw [linkAt, absent] at kept
  cases kept

theorem not_movesLink (stand : BasesStand proc.vfs host)
    (link : host.tree.linkAt place = some target) (newPlace : Location) :
    ¬MovesLink host (doRenameat proc host a0 a1 a2 a3) place newPlace target := by
  intro moves
  have succeeds := moves.succeeds
  have leaves := moves.leaves
  have arrives := moves.arrives
  have others := moves.others
  rw [doRenameat] at succeeds leaves arrives others
  cases resolved : resolvePath proc host (toInt32 a0) a1 with
  | error =>
    simp only [resolved] at succeeds
    cases succeeds
  | ok oldHost =>
    simp only [resolved] at succeeds leaves arrives others
    generalize written : resolvePathWrite proc host (toInt32 a2) a3 = outcome at *
    obtain ⟨outcome, after⟩ := outcome
    cases outcome with
    | error => cases succeeds
    | ok newHost =>
      simp only at succeeds leaves arrives others
      cases renamed : after.rename oldHost.val newHost.val with
      | error error =>
        simp only [renamed] at succeeds
        exact negErrno_ne_zero error succeeds
      | ok =>
        simp only [renamed] at leaves arrives others
        obtain ⟨grown, -⟩ := grown_resolvePathWrite written
        have free := (settled_resolvePath resolved).linkTarget_eq_none stand grown
        obtain ⟨source, _, located, -, same | ⟨movable, rfl⟩⟩ :=
          movable_of_rename renamed
        · rw [same.2] at leaves
          rw [← grown.linkAt_eq, linkAt, leaves] at link
          cases link
        -- What the path leads to is gone, and that is neither the link nor its new place.
        have gone := node_move_source movable
        have noLink := linkAt_of_linkTarget free located
        have notPlace : source ≠ place := by
          rintro rfl
          rw [grown.linkAt_eq, link] at noLink
          cases noLink
        have notNew : source ≠ newPlace := by
          rintro rfl
          rw [linkAt, gone] at arrives
          cases arrives
        have stays : ∀ tree : Tree, tree.linkAt place ≠ none → tree.node place ≠ none :=
          fun tree isLink absent => isLink (by rw [linkAt, absent])
        obtain ⟨inner, rfl⟩ := suffix_of_node_move movable
          (stays _ (by rw [grown.linkAt_eq, link]; simp)) leaves
        have present : host.tree.node source ≠ none := fun absent =>
          stays _ (by rw [link]; simp) (node_append_eq_none absent inner)
        exact present ((others source notPlace notNew present).symm.trans gone)

theorem refusesLink_iff {text : PathBuffer} (named : guestAbsPath proc (toInt32 a1) a2 = .ok path)
    (read : proc.memReadStr a0 = some text) (nonempty : text.val ≠ []) :
    RefusesLink host (doSymlinkat proc host a0 a1 a2) ↔ LeadsToEntry proc.vfs host path := by
  rw [RefusesLink, LeadsToEntry, doSymlinkat, read, resolvePathWrite, named]
  simp only
  generalize vfsResolveRw proc.vfs host path .write = outcome
  obtain ⟨outcome, after⟩ := outcome
  cases outcome with
  | none => simp
  | some result =>
    have same : (∃ found grown, (some result, after) = (some found, grown) ∧
        grown.lstat found.val ≠ none ∧
          ∀ location, grown.tree.node location = host.tree.node location) ↔
        after.lstat result.val ≠ none ∧
          ∀ location, after.tree.node location = host.tree.node location := by
      constructor
      · rintro ⟨_, _, same, entry⟩
        cases same
        exact entry
      · intro entry
        exact ⟨result, after, rfl, entry⟩
    rw [same, ← symlink_eq_eexist nonempty]
    cases linked : after.symlink text.val result.val with
    | error error =>
      simp only [linked, Except.error.injEq]
      refine and_congr_left' ?_
      cases error <;> decide
    | ok => simp [linked]

/-- No call reads, describes, removes or moves a link, and a new one is refused for its target. -/
theorem link_calls_iff (stand : BasesStand caller.vfs host)
    (named : guestAbsPath caller.toProcess (toInt32 a0) a1 = .ok path)
    (isLink : NamesLink caller.vfs host path place target) :
    (∀ a2 a3, ReadsLink caller host a0 a1 a2 a3 target ↔
      ∃ guestPath, caller.memReadStr a1 = some guestPath ∧
        guestPath.val = ofLiteral "/proc/self/exe" ∧
        caller.memCopyTo a2 (target.take a3.toNat).length = true ∧
        (ofLiteral "/bin/busybox").take a3.toNat = target.take a3.toNat) ∧
    (∀ a2 a3 : UInt64, hasFlag a3.toUInt32 linuxAtSymlinkNofollow = true →
      ¬DescribesLink caller host a0 a1 a2 a3 place target) ∧
    (∀ a2, ¬RemovesLink (doUnlinkat caller.toProcess host a0 a1 a2) place) ∧
    (∀ a2 a3 newPlace,
      ¬MovesLink host (doRenameat caller.toProcess host a0 a1 a2 a3) place newPlace target) ∧
    ∀ text address, caller.memReadStr address = some text → text.val ≠ [] →
      (RefusesLink host (doSymlinkat caller.toProcess host address a0 a1) ↔
        LeadsToEntry caller.vfs host path) :=
  ⟨fun _ _ => readsLink_iff stand, fun _ _ => not_describesLink stand,
    fun _ => not_removesLink stand isLink.link,
    fun _ _ newPlace => not_movesLink stand isLink.link newPlace,
    fun _ _ => refusesLink_iff named⟩

/-- A process with the paths `/l` and `/q` in its memory. -/
def linkCaller : Caller where
  toProcess := sampleProcess fun address => if address = 0 then "/l" else "/q"
  mountStat _ _ := true
  memCopyTo _ _ := true

/-- A host with a link in the overlay and a file to which it leads. -/
def linkedHost : Host :=
  overlaidHost [("/o/t", .file [1]), ("/o/l", .link (CString.ofLiteral "t"))]

theorem basesStand_sample (lower : host.lstat (ofLiteral "/r") = some .directory)
    (upper : host.lstat (ofLiteral "/o") = some .directory) :
    BasesStand overlaidVfs host := by
  rintro front (rfl | ⟨-, isFront, rfl | long⟩)
  · exact .inr ⟨.directory, lower, nofun⟩
  · exact .inr ⟨.directory, upper, nofun⟩
  · have whole := isFront.eq_of_length_le long
    rw [whole]
    exact .inr ⟨.directory, upper, nofun⟩

theorem link_calls_sample :
    NamesLink overlaidVfs linkedHost (pathOf "/l") (placeOf "/o/l") (ofLiteral "t") ∧
      RefusesLink linkedHost (doSymlinkat linkCaller.toProcess linkedHost 1 0 0) ∧
      ¬RemovesLink (doUnlinkat linkCaller.toProcess linkedHost 0 0 0) (placeOf "/o/l") := by
  have isLink : NamesLink overlaidVfs linkedHost (pathOf "/l") (placeOf "/o/l")
      (ofLiteral "t") :=
    { unmounted := by decide +kernel
      named := ⟨ofLiteral "l", [], pathOf "/o", by decide +kernel⟩
      link := by decide +kernel }
  have stand : BasesStand linkCaller.vfs linkedHost :=
    basesStand_sample (by decide +kernel) (by decide +kernel)
  have named : guestAbsPath linkCaller.toProcess (toInt32 0) 0 = .ok (pathOf "/l") := by
    decide +kernel
  obtain ⟨-, -, removes, -, refuses⟩ := link_calls_iff stand named isLink
  have unchanged : (vfsResolveRw overlaidVfs linkedHost (pathOf "/l") .write).2.tree.entries =
      linkedHost.tree.entries := by decide +kernel
  have leads : LeadsToEntry linkCaller.vfs linkedHost (pathOf "/l") :=
    ⟨pathOf "/o/t", _, Prod.ext (by decide +kernel) rfl, by decide +kernel,
      fun location => congrArg (lookup location) unchanged⟩
  exact ⟨isLink, (refuses (pathOf "/q") 1 (by decide +kernel) (by decide +kernel)).mpr leads,
    removes 0⟩

/-- A link is not read, its file is removed for it, and a new link is made where it leads. -/
theorem link_calls_follow : (doReadlinkat linkCaller linkedHost 0 0 0 64).1 = -22 ∧
    doNewfstatat linkCaller linkedHost 0 0 0 linuxAtSymlinkNofollow.toUInt64 =
      (0, some (.entry (placeOf "/o/t") (.file [1]))) ∧
    ((doUnlinkat linkCaller.toProcess linkedHost 0 0 0).1 = 0 ∧
      (doUnlinkat linkCaller.toProcess linkedHost 0 0 0).2.tree.node (placeOf "/o/t") = none ∧
      (doUnlinkat linkCaller.toProcess linkedHost 0 0 0).2.tree.linkAt (placeOf "/o/l") =
        some (ofLiteral "t")) ∧
    (doRenameat linkCaller.toProcess linkedHost 0 0 0 1).2.tree.node (placeOf "/o/q") =
      some (.file [1]) ∧
    (doSymlinkat linkCaller.toProcess
        (overlaidHost [("/o/l", .link (ofLiteral "t"))]) 1 0 0).2.tree.linkAt
        (placeOf "/o/t") = some (ofLiteral "/q") := by
  decide +kernel

end AlpineOnIOS.SysFile
