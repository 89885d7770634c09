import Mathlib.Data.List.Induction
import AlpineOnIOS.Vfs.Path

/-!
# Where a resolved path can lead

Without an overlay the result stays below the root directory and has no link below it. With an
overlay `..` is held back by the length of the root directory's name only.
-/

namespace AlpineOnIOS.Vfs

open Foundation List CString Tree Host

/-- Components as they may stand in a result: an empty one only repeats a separator. -/
def Parts (names : List CString) : Prop := ∀ name ∈ names, slash ∉ name ∧ name ≠ here ∧ name ≠ up

/-- A path below a directory with no link on the way. -/
def Contained (host : Host) (root text : CString) : Prop :=
  ∃ names, text = root ++ render names ∧ Parts names ∧
    ∀ front, front <+: names → front ≠ [] → host.linkTarget (root ++ render front) = none

/-- The iteration calls `readlink`. -/
def readsLink (host : Host) (state : Resolution) : Bool :=
  match state.components.val with
  | [] => false
  | component :: _ =>
    let name := component.read state.store
    let hostPath := state.resolved.val ++ slash :: name
    name != here && name != up && decide (hostPath.length < pathMax) &&
      (host.linkTarget hostPath).isSome && decide (state.depth < 40)

variable {vfs : VfsT} {host : Host} {text name pathbuf : CString} {state following : Resolution}
  {result : PathBuffer} {root : CString}

theorem contained_root (host : Host) (root : CString) : Contained host root root := by
  refine ⟨[], by simp, by simp [Parts], ?_⟩
  intro front isPrefix nonempty
  exact absurd (prefix_nil.mp isPrefix) nonempty

theorem Contained.append (contained : Contained host root text) (plain : slash ∉ name)
    (notHere : name ≠ here) (notUp : name ≠ up)
    (notLink : host.linkTarget (text ++ slash :: name) = none) :
    Contained host root (text ++ slash :: name) := by
  obtain ⟨names, rfl, parts, linkFree⟩ := contained
  have longer : root ++ render names ++ slash :: name = root ++ render (names ++ [name]) := by
    rw [render_concat, append_assoc]
  rw [longer] at notLink ⊢
  refine ⟨names ++ [name], rfl, ?_, ?_⟩
  · intro part member
    rcases mem_append.mp member with inNames | isName
    · exact parts part inNames
    · rw [mem_singleton.mp isName]
      exact ⟨plain, notHere, notUp⟩
  · intro front isPrefix nonempty
    rcases prefix_concat_iff.mp isPrefix with rfl | inNames
    · exact notLink
    · exact linkFree front inNames nonempty

theorem Contained.drop {resolved : PathBuffer} (contained : Contained host root resolved.val) :
    Contained host root (dropComponent root.length resolved).val := by
  obtain ⟨names, below, parts, linkFree⟩ := contained
  rcases eq_nil_or_concat' names with rfl | ⟨front, last, rfl⟩
  · have short : resolved.val.length ≤ root.length := by simp [below]
    rw [dropComponent_root short]
    exact ⟨[], below, parts, linkFree⟩
  have lastPart := parts last (by simp)
  rw [dropComponent_render below lastPart.1 (by simp)]
  refine ⟨front, rfl, fun name member => parts name (by simp [member]), ?_⟩
  intro first isPrefix
  exact linkFree first (isPrefix.trans (prefix_append _ _))

theorem resolveNormalized_contained
    (resolved : resolveNormalized vfs host vfs.rootfs pathbuf = some result) :
    Contained host vfs.rootfs.val result.val :=
  resolveNormalized_rule (Contained host vfs.rootfs.val) (contained_root _ _) Contained.drop
    Contained.append (contained_root _ _) resolved

theorem Parts.isName {names : List CString} (parts : Parts names) :
    ∀ name ∈ names.filter (!·.isEmpty), IsName name := by
  intro name member
  obtain ⟨inNames, nonempty⟩ := mem_filter.mp member
  obtain ⟨plain, notHere, notUp⟩ := parts name inNames
  exact ⟨by simpa using nonempty, plain, notHere, notUp⟩

theorem linkFree_of_linkTarget {left : Nat} {place : Location}
    (based : host.descend root = .ok (left, place)) {names : List CString} (parts : Parts names)
    (notLink : ∀ front, front <+: names → front ≠ [] →
      host.linkTarget (root ++ render front) = none) :
    host.tree.LinkFree place (names.filter (!·.isEmpty)) := by
  induction names using reverseRecOn with
  | nil => trivial
  | append_singleton names name induction =>
    have frontParts : Parts names := fun part member => parts part (by simp [member])
    have frontFree := induction frontParts fun front isPrefix =>
      notLink front (isPrefix.trans (prefix_append _ _))
    rw [filter_append, linkFree_append]
    refine ⟨frontFree, ?_⟩
    by_cases empty : name = []
    · simp [empty, Tree.LinkFree]
    obtain ⟨plain, notHere, notUp⟩ := parts name (by simp)
    have here := notLink (names ++ [name]) prefix_rfl (by simp)
    rw [linkTarget_linkFree based (fun part member => (frontParts part member).1)
      frontParts.isName frontFree ⟨empty, plain, notHere, notUp⟩] at here
    simp [empty, Tree.LinkFree, here]

theorem Contained.follow {place location : Location} (contained : Contained host root text)
    (rootFollowed : host.follow root = .ok place) (followed : host.follow text = .ok location) :
    place <:+ location := by
  obtain ⟨_, rfl, parts, notLink⟩ := contained
  obtain ⟨_, based⟩ := descend_of_follow rootFollowed
  obtain ⟨_, reached⟩ := descend_of_follow followed
  have linkFree := linkFree_of_linkTarget based parts notLink
  rw [descend_append_render host root fun name member => (parts name member).1, based] at reached
  have straight := eq_of_walkFrom_linkFree parts.isName linkFree reached
  rw [Prod.mk.injEq] at straight
  rw [straight.2]
  exact suffix_append _ _

theorem depth_next (stepped : resolveStep vfs host state = .next following) :
    following.depth = state.depth + if readsLink host state then 1 else 0 := by
  obtain ⟨_, first, advances⟩ := resolveStep_eq_next.mp stepped
  obtain ⟨_, split⟩ := head?_eq_some_iff.mp first
  cases advances with
  | here isHere => simp [readsLink, split, isHere]
  | up isUp => simp [readsLink, split, isUp]
  | plain notHere notUp fits notLink => simp [readsLink, split, notLink]
  | link notHere notUp fits found followed =>
    obtain ⟨few, -, _, -, -, -, depth⟩ := followLink_eq_some.mp followed
    have reads : readsLink host state = true := by
      simp only [readsLink, split, found, few, Bool.and_eq_true, bne_iff_ne, decide_eq_true_eq]
      exact ⟨⟨⟨⟨notHere, notUp⟩, fits⟩, rfl⟩, trivial⟩
    rw [depth, if_pos reads]

theorem countP_readsLink_le (vfs : VfsT) (host : Host) (fuel : Nat) (state : Resolution) :
    (trace (resolveStep vfs host) fuel state).countP (readsLink host) ≤ 40 - state.depth := by
  induction fuel generalizing state with
  | zero => exact Nat.zero_le _
  | succ fuel induction =>
    have below : readsLink host state = true → state.depth < 40 := by
      intro reads
      rw [readsLink] at reads
      split at reads
      · cases reads
      · simp only [Bool.and_eq_true, decide_eq_true_eq] at reads
        exact reads.2
    rw [trace, countP_cons]
    cases stepped : resolveStep vfs host state with
    | next following =>
      have rest := induction following
      rw [depth_next stepped] at rest
      cases reads : readsLink host state with
      | true =>
        have few := below reads
        simp only [reads, if_true] at rest ⊢
        omega
      | false => simpa [reads] using rest
    | exit =>
      cases reads : readsLink host state with
      | true =>
        have few := below reads
        simp only [countP_nil, if_true]
        omega
      | false => simp

/-- The result stays below the root directory without links, after at most forty of them. -/
theorem vfsResolve_contained (vfs : VfsT) (host : Host) (guestPath : PathBuffer)
    (noOverlay : vfs.overlay.val = []) :
    (∀ result, vfsResolve vfs host guestPath = some result →
      Contained host vfs.rootfs.val result.val ∧
        ∀ place location, host.follow vfs.rootfs.val = .ok place →
          host.follow result.val = .ok location → place <:+ location) ∧
    ∀ base components,
      let start : Resolution := { resolved := base, components, store := [], depth := 0 }
      loop (resolveStep vfs host) (41 * 256) start = some (resolveFrom vfs host start) ∧
        ∀ iterations,
          (trace (resolveStep vfs host) iterations start).countP (readsLink host) ≤ 40 := by
  refine ⟨fun result resolved => ?_, fun base components => ⟨?_, fun iterations => ?_⟩⟩
  · have contained : Contained host vfs.rootfs.val result.val := by
      have walked := resolveNormalized_of_vfsResolveRw resolved
      simp only [chooseBase_noOverlay noOverlay] at walked
      exact resolveNormalized_contained walked
    exact ⟨contained, fun place location rootFollowed => contained.follow rootFollowed⟩
  · refine loop_eq_runLoop (resolveStep_decreases vfs host) ?_
    change (40 - 0) * 256 + components.val.length < 41 * 256
    omega
  · exact countP_readsLink_le vfs host iterations _

/-- A root directory `/r` with a link that climbs out of it. -/
def climbingHost : Host where
  tree :=
    { entries :=
        [([], .directory), ([CString.ofLiteral "etc"], .directory),
          ([CString.ofLiteral "r"], .directory),
          ([CString.ofLiteral "l", CString.ofLiteral "r"],
            .link (CString.ofLiteral "../../etc"))]
      root := by decide +kernel
      closed := by decide +kernel }
  cwd := []
  linkMax := 32

/-- The file system on `/r` without an overlay. -/
def climbingVfs : VfsT :=
  { rootfs := truncate (CString.ofLiteral "/r"), overlay := truncate [], mounts := [] }

/-- The link is followed inside the root directory. -/
theorem vfsResolve_climbing :
    climbingVfs.overlay.val = [] ∧
      ∃ result, vfsResolve climbingVfs climbingHost (truncate (ofLiteral "/l/passwd")) =
          some result ∧ result.val = ofLiteral "/r/etc/passwd" ∧
        Contained climbingHost climbingVfs.rootfs.val result.val := by
  refine ⟨rfl, ?_⟩
  have resolved : (vfsResolve climbingVfs climbingHost
      (truncate (ofLiteral "/l/passwd"))).map Subtype.val =
        some (ofLiteral "/r/etc/passwd") := by decide +kernel
  obtain ⟨result, returned, text⟩ := Option.map_eq_some_iff.mp resolved
  refine ⟨result, returned, text, ?_⟩
  exact ((vfsResolve_contained climbingVfs climbingHost _ rfl).1 result returned).1

/-- A path that is a directory's name or continues it with components. -/
def Below (base text : CString) : Prop := ∃ names, text = base ++ render names ∧ Parts names

/-- A path in the root directory or in the overlay. -/
def Within (vfs : VfsT) (text : CString) : Prop :=
  Below vfs.rootfs.val text ∨ Below vfs.overlay.val text

/-- Every path that the function returns is in one of the two directories. -/
def StaysWithin (vfs : VfsT) : Prop :=
  ∀ host guestPath mode result, (vfsResolveRw vfs host guestPath mode).1 = some result →
    Within vfs result.val

/-- There is no overlay, no component fits behind its name, or one cut of its name stays inside. -/
def OverlayHolds (vfs : VfsT) : Prop :=
  vfs.overlay.val = [] ∨ pathMax ≤ vfs.overlay.val.length + 2 ∨
    Within vfs (dropComponent vfs.rootfs.val.length vfs.overlay).val

variable {base : CString}

theorem below_self (base : CString) : Below base base := ⟨[], by simp, by simp [Parts]⟩

theorem Below.append (below : Below base text) (plain : slash ∉ name) (notHere : name ≠ here)
    (notUp : name ≠ up) : Below base (text ++ slash :: name) := by
  obtain ⟨names, rfl, parts⟩ := below
  refine ⟨names ++ [name], by rw [render_concat, append_assoc], fun part member => ?_⟩
  rcases mem_append.mp member with inNames | isName
  · exact parts part inNames
  · rw [mem_singleton.mp isName]
    exact ⟨plain, notHere, notUp⟩

theorem Below.drop {rootlen : Nat} {resolved : PathBuffer} (below : Below base resolved.val)
    (longer : resolved.val ≠ base) : Below base (dropComponent rootlen resolved).val := by
  obtain ⟨names, split, parts⟩ := below
  rcases eq_nil_or_concat' names with rfl | ⟨front, last, rfl⟩
  · exact absurd (by simpa using split) longer
  have lastPart := parts last (by simp)
  by_cases inside : rootlen ≤ (base ++ render front).length
  · rw [dropComponent_render split lastPart.1 inside]
    exact ⟨front, rfl, fun name member => parts name (by simp [member])⟩
  · rw [dropComponent_outside split lastPart.1 inside]
    exact ⟨front ++ [last], split, parts⟩

theorem Within.drop {resolved : PathBuffer}
    (holds : Within vfs (dropComponent vfs.rootfs.val.length vfs.overlay).val)
    (within : Within vfs resolved.val) :
    Within vfs (dropComponent vfs.rootfs.val.length resolved).val := by
  rcases within with below | below
  · by_cases same : resolved.val = vfs.rootfs.val
    · rw [dropComponent_root (Nat.le_of_eq (by rw [same]))]
      exact .inl below
    · exact .inl (below.drop same)
  · by_cases same : resolved.val = vfs.overlay.val
    · rwa [Subtype.ext same]
    · exact .inr (below.drop same)

theorem Contained.below (contained : Contained host base text) : Below base text := by
  obtain ⟨names, split, parts, -⟩ := contained
  exact ⟨names, split, parts⟩

theorem OverlayHolds.staysWithin (holds : OverlayHolds vfs) : StaysWithin vfs := by
  intro host guestPath mode result resolved
  have walked := resolveNormalized_of_vfsResolveRw resolved
  obtain ⟨rest, normalized⟩ := vfsNormalizePath_cons [slash] guestPath.val
  simp only [normalized] at walked
  rcases chooseBase_cases vfs host (slash :: rest) mode with isRoot | ⟨isOverlay, fits⟩
  · rw [isRoot] at walked
    exact .inl (resolveNormalized_contained walked).below
  rw [isOverlay] at walked
  rcases holds with noOverlay | long | inside
  · exact absurd noOverlay fits.1
  · have short := fits.2
    rw [length_append, length_cons] at short
    obtain rfl : rest = [] := eq_nil_of_length_eq_zero (by omega)
    rw [resolveNormalized_root, Option.some.injEq] at walked
    rw [← walked]
    exact .inr (below_self _)
  · refine resolveNormalized_rule (Within vfs) (.inl (below_self _)) (Within.drop inside) ?_
      (.inr (below_self _)) walked
    intro text name within plain notHere notUp _
    exact within.imp (·.append plain notHere notUp) (·.append plain notHere notUp)

/-- The name of the link with which the overlay is left. -/
def exitName : CString := CString.ofLiteral "l"

theorem exitName_isName : IsName exitName := by
  refine ⟨?_, ?_, ?_, ?_⟩ <;> decide +kernel

theorem resolveNormalized_exit {base : PathBuffer}
    (fits : (base.val ++ slash :: exitName).length < pathMax)
    (link : host.linkTarget (base.val ++ slash :: exitName) = some up) :
    resolveNormalized vfs host base (slash :: exitName) =
      some (dropComponent vfs.rootfs.val.length base) := by
  have split : Components.ofList ((tokens (slash :: exitName)).map .token) =
      some ⟨[.token exitName], by simp⟩ := by
    have single : tokens (slash :: exitName) = [exitName] := by decide +kernel
    rw [single]
    exact Components.ofList_eq_some.mpr rfl
  let behind : Resolution :=
    { resolved := base
      components := ⟨[.stored 0], by simp⟩
      store := storeString up
      depth := 1 }
  rw [resolveNormalized, split, Option.bind_some, resolveFrom]
  have linked : resolveStep vfs host
      { resolved := base, components := ⟨[.token exitName], by simp⟩, store := [], depth := 0 } =
        .next behind := by
    refine resolveStep_eq_next.mpr ⟨.token exitName, rfl, ?_⟩
    refine .link exitName_isName.notHere exitName_isName.notUp fits link ?_
    have single : tokens (truncate up).val = [up] := by decide +kernel
    refine followLink_eq_some.mpr ⟨Nat.zero_lt_succ 39, ?_, [0], ?_, rfl, ?_, rfl⟩
    · simp [single, Components.tail]
    · rw [single]
      rfl
    · rw [if_neg (by decide +kernel)]
  have cut : resolveStep vfs host behind =
      .next { behind with
        resolved := dropComponent vfs.rootfs.val.length base
        components := behind.components.tail } :=
    resolveStep_eq_next.mpr ⟨.stored 0, rfl, .up rfl⟩
  rw [runLoop_next _ linked, runLoop_next _ cut]
  exact runLoop_exit _ (resolveStep_eq_exit_some.mpr ⟨rfl, rfl⟩)

/-- Every component of the overlay's name is a link to its own directory. -/
def exitHost (overlay : CString) : Host where
  tree :=
    { entries := ([], .directory) :: ([exitName], .link up) ::
        (tokens overlay).map fun name => ([name], .link here)
      root := rfl
      closed := by
        intro entry member nonempty
        have top : entry.1.tail = [] := by
          simp only [List.mem_cons, List.mem_map] at member
          rcases member with rfl | rfl | ⟨_, -, rfl⟩
          · exact absurd rfl nonempty
          · rfl
          · rfl
        rw [top]
        rfl }
  cwd := []
  linkMax := (tokens overlay).length

variable {overlay : CString}

theorem exitHost_node (member : name ∈ tokens overlay) :
    (exitHost overlay).tree.node [name] = some (.link (if name = exitName then up else here)) := by
  rw [Foundation.Tree.node, exitHost, lookup_cons_entry, if_neg (by simp), lookup_cons_entry]
  by_cases isExit : name = exitName
  · simp [isExit]
  have listed : ∀ names : List CString, name ∈ names →
      (names.map fun name => (([name], .link here) : Location × Node)).lookup [name] =
        some (.link here) := by
    intro names inNames
    induction names with
    | nil => cases inNames
    | cons first rest induction =>
      rw [map_cons, lookup_cons_entry]
      rcases mem_cons.mp inNames with rfl | inRest
      · simp
      · rw [induction inRest, ite_self]
  simp [isExit, listed _ member]

theorem exitHost_enter_special (overlay : CString) (special : name = here ∨ name = up) :
    (exitHost overlay).tree.enter [] name = .reach [] := by
  rw [enter, node_root]
  rcases special with rfl | rfl
  · rfl
  · rfl

theorem exitHost_enter (member : name ∈ tokens overlay) (notHere : name ≠ here)
    (notUp : name ≠ up) :
    (exitHost overlay).tree.enter [] name = .via [] [if name = exitName then up else here] := by
  rw [enter, node_root]
  simp only [if_neg notHere, if_neg notUp, exitHost_node member]
  split
  · rfl
  · rfl

theorem exitHost_walkFrom {names : List CString} (members : names ⊆ tokens overlay) {links : Nat}
    (enough : names.length ≤ links) :
    ∃ left, (exitHost overlay).walkFrom links [] names = .ok (left, []) := by
  induction names generalizing links with
  | nil => exact ⟨links, walk_nil⟩
  | cons name rest induction =>
    rw [cons_subset] at members
    rw [length_cons] at enough
    by_cases special : name = here ∨ name = up
    · rw [walkFrom, walk_reach (exitHost_enter_special overlay special)]
      exact induction members.2 (by omega)
    rw [not_or] at special
    obtain ⟨fewer, rfl⟩ : ∃ fewer, links = fewer + 1 := ⟨links - 1, by omega⟩
    rw [walkFrom, walk_via (exitHost_enter members.1 special.1 special.2),
      singleton_append, walk_reach (exitHost_enter_special overlay ?_)]
    · exact induction members.2 (by omega)
    · split
      · exact .inr rfl
      · exact .inl rfl

theorem exitHost_linkTarget (overlay : CString) :
    (exitHost overlay).linkTarget (overlay ++ slash :: exitName) = some up := by
  have start : (exitHost overlay).start (overlay ++ [slash]) = [] := by
    rw [start]
    split <;> rfl
  obtain ⟨left, based⟩ : ∃ left, (exitHost overlay).descend overlay = .ok (left, []) := by
    rw [descend, start]
    exact exitHost_walkFrom (List.Subset.refl _) (Nat.le_refl _)
  have nothing : ∀ name ∈ ([] : List CString), slash ∉ name := by simp
  have found := linkTarget_linkFree based nothing (by simp) trivial exitName_isName
  exact found

theorem StaysWithin.overlayHolds {rootfs overlay : PathBuffer}
    (within : StaysWithin { rootfs, overlay, mounts := defaultMounts }) :
    OverlayHolds { rootfs, overlay, mounts := defaultMounts } := by
  by_cases noOverlay : overlay.val = []
  · exact .inl noOverlay
  by_cases long : pathMax ≤ overlay.val.length + 2
  · exact .inr (.inl long)
  right
  right
  have fits : (overlay.val ++ slash :: exitName).length < pathMax := by
    have single : exitName.length = 1 := by decide +kernel
    rw [length_append, length_cons, single]
    omega
  let guestPath : PathBuffer := truncate (slash :: exitName)
  let vfs : VfsT := { rootfs, overlay, mounts := defaultMounts }
  have unmounted : vfsFindMount vfs.mounts guestPath.val = none := by
    change vfsFindMount defaultMounts guestPath.val = none
    decide +kernel
  have normalized : (vfsNormalizePath [slash] guestPath.val).val = slash :: exitName := by
    decide +kernel
  have link := exitHost_linkTarget overlay.val
  have found : ((exitHost overlay.val).lstat (overlay.val ++ slash :: exitName)).isSome = true := by
    rw [lstat_of_linkTarget link]
    rfl
  have usable : vfs.overlay.val ≠ [] ∧
      (vfs.overlay.val ++ slash :: exitName).length < pathMax := ⟨noOverlay, fits⟩
  have chosen := chooseBase_found usable found
  refine within (exitHost overlay.val) guestPath .read _ ?_
  refine (congrArg Prod.fst (vfsResolveRw_unmounted unmounted)).trans ?_
  simp only [normalized, chosen]
  exact resolveNormalized_exit fits link

/-- Results stay in the two directories for every host, path and mode exactly if the overlay
holds. -/
theorem staysWithin_iff (rootfs overlay : PathBuffer) :
    StaysWithin { rootfs, overlay, mounts := defaultMounts } ↔
      OverlayHolds { rootfs, overlay, mounts := defaultMounts } :=
  ⟨StaysWithin.overlayHolds, OverlayHolds.staysWithin⟩

/-- A root directory and an overlay with names of one length. -/
def siblingVfs : VfsT :=
  { rootfs := truncate (CString.ofLiteral "/data/fs")
    overlay := truncate (CString.ofLiteral "/data/ov")
    mounts := defaultMounts }

/-- Then the name of the overlay is never cut. -/
theorem staysWithin_sibling : OverlayHolds siblingVfs ∧ StaysWithin siblingVfs := by
  have holds : OverlayHolds siblingVfs := by
    refine .inr (.inr (.inr ?_))
    rw [dropComponent_root (by decide +kernel)]
    exact below_self _
  exact ⟨holds, (staysWithin_iff siblingVfs.rootfs siblingVfs.overlay).mpr holds⟩

theorem Below.isPrefix (below : Below base text) : base <+: text := by
  obtain ⟨_, rfl, -⟩ := below
  exact prefix_append _ _

/-- An overlay `/data/ov` in which the guest has made a link `l` to `../secret`. -/
def escapingHost : Host where
  tree :=
    { entries :=
        [([], .directory), ([CString.ofLiteral "r"], .directory),
          ([CString.ofLiteral "data"], .directory),
          ([CString.ofLiteral "secret", CString.ofLiteral "data"], .file [1, 2, 3]),
          ([CString.ofLiteral "ov", CString.ofLiteral "data"], .directory),
          ([CString.ofLiteral "l", CString.ofLiteral "ov", CString.ofLiteral "data"],
            .link (CString.ofLiteral "../secret"))]
      root := by decide +kernel
      closed := by decide +kernel }
  cwd := []
  linkMax := 32

/-- The file system on `/r` with the overlay `/data/ov`. -/
def escapingVfs : VfsT :=
  { rootfs := truncate (CString.ofLiteral "/r")
    overlay := truncate (CString.ofLiteral "/data/ov")
    mounts := defaultMounts }

/-- The guest path `/l` resolves to the host's `/data/secret`. -/
theorem vfsResolveRw_escapes :
    ∃ result, (vfsResolveRw escapingVfs escapingHost (truncate (ofLiteral "/l")) .read).1 =
        some result ∧ result.val = ofLiteral "/data/secret" ∧
      ¬Within escapingVfs result.val := by
  have resolved : (vfsResolveRw escapingVfs escapingHost
      (truncate (ofLiteral "/l")) .read).1.map Subtype.val =
        some (ofLiteral "/data/secret") := by decide +kernel
  obtain ⟨result, returned, text⟩ := Option.map_eq_some_iff.mp resolved
  refine ⟨result, returned, text, ?_⟩
  rw [text]
  rintro (inRoot | inOverlay)
  · exact absurd inRoot.isPrefix (by decide +kernel)
  · exact absurd inOverlay.isPrefix (by decide +kernel)

end AlpineOnIOS.Vfs
