import AlpineOnIOS.Vfs.Plain
import Mathlib.Data.List.MinMax

/-!
# Paths into the virtual mounts

`vfs_resolve_rw` must leave to the mounts what a path denotes there, and nothing else.  It tests the
text of the path before anything is normalised or followed.
-/

namespace AlpineOnIOS.Vfs

open Foundation List

/-- A place is at or below a mount point. -/
def UnderMount (mounts : List Mount) (place : Location) : Prop :=
  ∃ mount ∈ mounts, tokens mount.point.val <+: place.reverse
  deriving Decidable

variable (vfs : VfsT) (host : Host)

/-- The links in the namespace of the guest, where the mounts hide what is below them. -/
def guestLink (place : Location) : Option CString :=
  if UnderMount vfs.mounts place then none else mergedLink vfs host place

/-- The place that a path denotes in the namespace of the guest. -/
def Denotes (path : CString) (place : Location) : Prop :=
  ∃ left, walk (chrootEnter (guestLink vfs host)) () 40 [] (tokens path) = .ok (left, place)

/-- What is under a mount gets no host path, and nothing else fails because of a mount. -/
def Dispatches (guestPath : PathBuffer) (mode : Mode) : Prop :=
  ∀ place, Denotes vfs host guestPath.val place →
    (UnderMount vfs.mounts place → (vfsResolveRw vfs host guestPath mode).1 = none) ∧
      (¬UnderMount vfs.mounts place →
        (vfsResolveRw { vfs with mounts := [] } host guestPath mode).1 ≠ none →
          (vfsResolveRw vfs host guestPath mode).1 ≠ none)

/-- A path that fits and comes to no link, with an overlay that exists if one is set. -/
structure PlainPath (vfs : VfsT) (host : Host) (path : CString) : Prop where
  uncut : Uncut path
  few : (guestPlace path).length ≤ 255
  fits : (placePath vfs.rootfs.val (guestPlace path)).length < pathMax
  lower : PassesNoLink (linksBelow host vfs.rootfs.val) [] (tokens path)
  upper : vfs.overlay.val = [] ∨
    ((host.descend vfs.overlay.val).isOk = true ∧
      PassesNoLink (linksBelow host vfs.overlay.val) [] (tokens path))

namespace PlainPath

variable {vfs : VfsT} {host : Host} {guestPath : PathBuffer}

theorem denotes (plain : PlainPath vfs host guestPath.val) {place : Location} :
    Denotes vfs host guestPath.val place ↔ place = guestPlace guestPath.val := by
  have passes : PassesNoLink (guestLink vfs host) [] (tokens guestPath.val) := by
    rcases plain.upper with unset | ⟨-, upper⟩
    · refine plain.lower.and plain.lower fun place lower _ => ?_
      rw [guestLink, mergedLink_eq_none lower fun isSet => absurd unset isSet, ite_self]
    · refine plain.lower.and upper fun place lower upper => ?_
      rw [guestLink, mergedLink_eq_none lower fun _ => upper, ite_self]
  rw [Denotes, walk_passesNoLink passes]
  simp [guestPlace, eq_comm]

theorem resolved (plain : PlainPath vfs host guestPath.val) (mode : Mode)
    (unmounted : vfsFindMount vfs.mounts guestPath.val = none) :
    (vfsResolveRw vfs host guestPath mode).1 ≠ none := by
  have isName := isName_guestPlace guestPath.val
  have fromRoot : resolveNormalized vfs host vfs.rootfs (normalText (guestPlace guestPath.val)) ≠
      none := by
    rw [resolveNormalized_plain (tokens_normalText isName) isName (plain.lower.noLinks trivial)
      plain.few plain.fits]
    simp
  by_cases usable : vfs.overlay.val ≠ [] ∧
      (vfs.overlay.val ++ normalText (guestPlace guestPath.val)).length < pathMax
  · obtain ⟨existing, upper⟩ := plain.upper.resolve_left usable.1
    obtain ⟨reached, based⟩ : ∃ reached, host.descend vfs.overlay.val = .ok reached := by
      cases walked : host.descend vfs.overlay.val with
      | ok reached => exact ⟨reached, rfl⟩
      | error => simp [walked, Except.isOk, Except.toBool] at existing
    have linkFree := linkFree_of_noLinks based (upper.noLinks trivial)
    have fits := Nat.lt_of_le_of_lt (placePath_length_le _ _) usable.2
    cases mode with
    | write =>
      have chosen := chooseBase_write_linkFree usable based isName linkFree
      have walked := resolveNormalized_write usable based isName linkFree plain.few
      rw [vfsResolveRw_chosen unmounted plain.uncut chosen, walked]
      simp
    | read =>
      cases found : host.lstat (vfs.overlay.val ++ normalText (guestPlace guestPath.val)) with
      | none =>
        have chosen := chooseBase_missing usable found
        rw [vfsResolveRw_chosen unmounted plain.uncut chosen]
        exact fromRoot
      | some =>
        have isFound := Option.isSome_of_eq_some found
        have chosen := chooseBase_found usable isFound
        have walked : resolveNormalized vfs host vfs.overlay _ = _ :=
          resolveNormalized_linkFree based isName linkFree plain.few fits
        rw [vfsResolveRw_chosen unmounted plain.uncut chosen, walked]
        simp
  · have chosen : chooseBase vfs host (normalText (guestPlace guestPath.val)) mode =
        (vfs.rootfs, host) := by
      exact if_neg usable
    rw [vfsResolveRw_chosen unmounted plain.uncut chosen]
    exact fromRoot

end PlainPath

/-- The mounts are served exactly if a path starts with a point where its normal form does. -/
theorem dispatches_iff {vfs : VfsT} {host : Host} {guestPath : PathBuffer} {mode : Mode}
    (plain : PlainPath vfs host guestPath.val) :
    Dispatches vfs host guestPath mode ↔
      ((vfsFindMount vfs.mounts guestPath.val).isSome = true ↔
        UnderMount vfs.mounts (guestPlace guestPath.val)) := by
  have plainBare : PlainPath { vfs with mounts := [] } host guestPath.val :=
    ⟨plain.uncut, plain.few, plain.fits, plain.lower, plain.upper⟩
  have bare := plainBare.resolved mode rfl
  simp only [Dispatches, plain.denotes, forall_eq, bare, ne_eq, not_false_eq_true, forall_const]
  cases mounted : vfsFindMount vfs.mounts guestPath.val with
  | none => simp [plain.resolved mode mounted]
  | some => simp [vfsResolveRw_mounted (by rw [mounted]; rfl)]

theorem dispatches_plain :
    PlainPath overlaidVfs (overlaidHost []) (pathOf "/etc/./passwd").val ∧
      Dispatches overlaidVfs (overlaidHost []) (pathOf "/etc/./passwd") .read ∧
      Dispatches overlaidVfs (overlaidHost []) (pathOf "/proc/./stat") .write := by
  have etc : PlainPath overlaidVfs (overlaidHost []) (pathOf "/etc/./passwd").val :=
    ⟨.inl (by decide +kernel), by decide +kernel, by decide +kernel, by decide +kernel,
      .inr (by decide +kernel)⟩
  have proc : PlainPath overlaidVfs (overlaidHost []) (pathOf "/proc/./stat").val :=
    ⟨.inl (by decide +kernel), by decide +kernel, by decide +kernel, by decide +kernel,
      .inr (by decide +kernel)⟩
  exact ⟨etc, (dispatches_iff etc).mpr (by decide +kernel),
    (dispatches_iff proc).mpr (by decide +kernel)⟩

/-- A host on which the root directory holds a link to a mount. -/
def procLinkHost : Host := overlaidHost [("/r/p", .link (CString.ofLiteral "/proc"))]

/-- A second separator or a link leads past the test, and a `..` leads into it. -/
theorem vfsResolveRw_bypasses :
    (Denotes overlaidVfs (overlaidHost []) (pathOf "//proc/stat").val (placeOf "/proc/stat") ∧
      UnderMount overlaidVfs.mounts (placeOf "/proc/stat") ∧
      (vfsResolveRw overlaidVfs (overlaidHost []) (pathOf "//proc/stat") .read).1 =
        some (pathOf "/r/proc/stat")) ∧
    (Denotes overlaidVfs procLinkHost (pathOf "/p/stat").val (placeOf "/proc/stat") ∧
      (vfsResolveRw overlaidVfs procLinkHost (pathOf "/p/stat") .read).1 =
        some (pathOf "/r/proc/stat")) ∧
    (Denotes overlaidVfs (overlaidHost []) (pathOf "/proc/../etc").val (placeOf "/etc") ∧
      ¬UnderMount overlaidVfs.mounts (placeOf "/etc") ∧
      (vfsResolveRw { overlaidVfs with mounts := [] } (overlaidHost []) (pathOf "/proc/../etc")
        .read).1 = some (pathOf "/r/etc") ∧
      (vfsResolveRw overlaidVfs (overlaidHost []) (pathOf "/proc/../etc") .read).1 = none) := by
  refine ⟨⟨⟨40, ?_⟩, ?_, ?_⟩, ⟨⟨39, ?_⟩, ?_⟩, ⟨40, ?_⟩, ?_, ?_, ?_⟩
  all_goals decide +kernel

variable {mount : Mount} {mounts : List Mount}

def Mount.width (mount : Mount) : Nat := mount.point.val.length

/-- Longer mount points stand first. -/
def Descending (mounts : List Mount) : Prop :=
  mounts.Pairwise fun first second => second.width ≤ first.width

theorem insertMount_perm (mount : Mount) (mounts : List Mount) :
    (insertMount mount mounts).Perm (mount :: mounts) := by
  induction mounts with
  | nil => exact .refl _
  | cons first rest induction =>
    rw [insertMount]
    split
    · exact .refl _
    · exact (induction.cons first).trans (.swap ..)

variable (descending : Descending mounts)

include descending

theorem descending_insertMount : Descending (insertMount mount mounts) := by
  induction mounts with
  | nil => exact pairwise_singleton _ _
  | cons first rest induction =>
    have ⟨before, behind⟩ := pairwise_cons.mp descending
    rw [insertMount]
    split
    · rename_i shorter
      refine pairwise_cons.mpr ⟨forall_mem_cons.mpr ⟨shorter.le, fun other member => ?_⟩, descending⟩
      exact (before other member).trans shorter.le
    · rename_i longer
      refine pairwise_cons.mpr ⟨fun other member => ?_, induction behind⟩
      rcases mem_cons.mp ((insertMount_perm mount rest).mem_iff.mp member) with rfl | member
      · exact Nat.le_of_not_lt longer
      · exact before other member

/-- A new mount is found if no accepted one is as long. -/
theorem find?_insertMount (accepts : Mount → Bool) :
    (insertMount mount mounts).find? accepts =
      if accepts mount then argAux (fun new old => old.width < new.width) (mounts.find? accepts) mount
      else mounts.find? accepts := by
  induction mounts with
  | nil => cases accepted : accepts mount <;> simp [insertMount, accepted, argAux]
  | cons first rest induction =>
    have ⟨before, behind⟩ := pairwise_cons.mp descending
    rw [insertMount]
    split
    · rename_i shorter
      cases accepted : accepts mount with
      | false => simp [accepted]
      | true =>
        cases found : (first :: rest).find? accepts with
        | none => simp [accepted, argAux]
        | some other =>
          have least : other.width < mount.width := by
            rcases mem_cons.mp (mem_of_find?_eq_some found) with rfl | member
            · exact shorter
            · exact (before other member).trans_lt shorter
          simp [accepted, argAux, least]
    · rename_i longer
      cases accepted : accepts first with
      | true => simp [accepted, argAux, Mount.width, longer]
      | false => simp [accepted, induction behind]

omit descending

/-- `vfs_mount` for some mounts, one after the other. -/
def mountAll (vfs : VfsT) (calls : List Mount) : VfsT :=
  calls.foldl (fun vfs call => vfsMount vfs call.point.val call.backend) { vfs with mounts := [] }

theorem find?_mountAll (vfs : VfsT) (accepts : Mount → Bool) (calls : List Mount) :
    Descending (mountAll vfs calls).mounts ∧
      (mountAll vfs calls).mounts.find? accepts = (calls.filter accepts).argmax Mount.width := by
  induction calls using List.reverseRecOn with
  | nil => exact ⟨.nil, rfl⟩
  | append_singleton calls mount induction =>
    have whole : truncate mount.point.val = mount.point :=
      Subtype.ext (truncate_eq mount.point.property)
    have added : (mountAll vfs (calls ++ [mount])).mounts =
        insertMount mount (mountAll vfs calls).mounts := by
      rw [mountAll, foldl_concat, vfsMount, whole, mountAll]
    rw [added, find?_insertMount induction.1, induction.2, filter_append, filter_cons]
    refine ⟨descending_insertMount induction.1, ?_⟩
    split
    · exact (argmax_concat Mount.width _ _).symm
    · rw [filter_nil, append_nil]

/-- Whatever the order of the calls, of the mounts that cover a path the longest is found, of equal
ones the first, with what is left of the path. -/
theorem vfsFindMount_longest (vfs : VfsT) (calls : List Mount) (path : CString) :
    let found := (calls.filter fun call => Covers path call).argmax Mount.width
    (vfsFindMount (mountAll vfs calls).mounts path).map Prod.fst = found ∧
      (found = none ↔ ∀ call ∈ calls, ¬Covers path call) ∧
      ∀ mount below, vfsFindMount (mountAll vfs calls).mounts path = some (mount, below) →
        below.head? = some slash ∧
          (mount.point.val ++ below = path ∨ mount.point.val = path ∧ below = [slash]) := by
  intro found
  rw [vfsFindMount_eq, (find?_mountAll vfs _ calls).2, Option.map_map]
  refine ⟨Option.map_id', by simp [found], fun mount below seen => ?_⟩
  obtain ⟨_, longest, located⟩ := Option.map_eq_some_iff.mp seen
  cases located
  have covers := of_decide_eq_true (mem_filter.mp (argmax_mem longest)).2
  rcases covers with rfl | ⟨rest, rfl⟩
  · simp
  · simp

end AlpineOnIOS.Vfs
