import AlpineOnIOS.Foundation.TreeGrowth

/-!
# Calls that change files

`open`, `unlink`, `rmdir`, `rename` and their relatives on a host without permissions and hard
links.  Each edit is described by what every location holds afterwards; changes to files alone leave
the ways through directories and links as they were.
-/

namespace Foundation

open List Foundation.Tree

namespace Tree

variable (tree : Tree)

/-- Nothing is in a location. -/
def Empty (place : Location) : Prop :=
  ∀ entry ∈ tree.entries, entry.1 ≠ [] → entry.1.tail ≠ place
  deriving Decidable

variable {entries : List (Location × Node)} {location : Location} {place : Location}

theorem lookup_eq_none_of (missing : ∀ entry ∈ entries, entry.1 ≠ location) :
    entries.lookup location = none := by
  rw [lookup_eq_none_iff]
  intro entry member
  exact bne_iff_ne.mpr (Ne.symm (missing entry member))

theorem lookup_filter_ne (entries : List (Location × Node)) (place location : Location) :
    (entries.filter fun entry => entry.1 ≠ place).lookup location =
      if location = place then none else entries.lookup location := by
  split
  · rename_i same
    refine lookup_eq_none_of fun entry member => ?_
    rw [same]
    simpa using (mem_filter.mp member).2
  rename_i different
  induction entries with
  | nil => rfl
  | cons entry rest induction =>
    rw [filter_cons]
    split
    · rw [lookup_cons_entry, lookup_cons_entry, induction]
    rename_i removed
    have atPlace : entry.1 = place := by simpa using removed
    rw [lookup_cons_entry, if_neg (by rw [atPlace]; exact different), induction]

variable {tree}

theorem empty_of_ne_directory (other : tree.node place ≠ some .directory) : tree.Empty place := by
  intro entry member inside same
  refine other ?_
  rw [← same]
  exact tree.closed entry member inside

theorem node_inside_empty (empty : tree.Empty place) {inner : Location} (nonempty : inner ≠ []) :
    tree.node (inner ++ place) = none := by
  obtain ⟨front, name, rfl⟩ := (eq_nil_or_concat inner).resolve_left nonempty
  rw [concat_eq_append, append_assoc, singleton_append]
  exact node_append_eq_none (by
      refine lookup_eq_none_of fun entry member same => ?_
      exact empty entry member (by simp [same]) (by simp [same])) front

/-- Give a file another content. -/
def setContent (tree : Tree) (place : Location) (content : List UInt8) : Tree :=
  match found : tree.node place with
  | some (.file _) =>
    { entries := (place, .file content) :: tree.entries
      root := by
        have inside : [] ≠ place := by
          rintro rfl
          simp at found
        rw [lookup_cons_entry, if_neg inside]
        exact tree.root
      closed := by
        intro entry member nonempty
        have parent : tree.node entry.1.tail = some .directory := by
          rcases List.mem_cons.mp member with rfl | old
          · cases place with
            | nil => exact absurd rfl nonempty
            | cons name outer =>
              have present : tree.node (name :: outer) ≠ none := by simp [found]
              exact parent_directory present
          · exact tree.closed entry old nonempty
        have different : entry.1.tail ≠ place := by
          intro same
          rw [same, found] at parent
          cases parent
        rw [lookup_cons_entry, if_neg different]
        exact parent }
  | _ => tree

theorem node_setContent {old : List UInt8} (found : tree.node place = some (.file old))
    (content : List UInt8) (location : Location) :
    (tree.setContent place content).node location =
      if location = place then some (.file content) else tree.node location := by
  rw [setContent]
  split
  · rw [node, lookup_cons_entry]
    rfl
  · rename_i other
    exact absurd found (other old)

/-- Take away an entry that has nothing in it. -/
def remove (tree : Tree) (place : Location) : Tree :=
  if leaf : place ≠ [] ∧ tree.Empty place then
    { entries := tree.entries.filter fun entry => entry.1 ≠ place
      root := by
        rw [lookup_filter_ne, if_neg (Ne.symm leaf.1)]
        exact tree.root
      closed := by
        intro entry member nonempty
        obtain ⟨old, -⟩ := List.mem_filter.mp member
        rw [lookup_filter_ne, if_neg (leaf.2 entry old nonempty)]
        exact tree.closed entry old nonempty }
  else tree

theorem node_remove (inside : place ≠ []) (empty : tree.Empty place) (location : Location) :
    (tree.remove place).node location = if location = place then none else tree.node location := by
  rw [remove, dif_pos ⟨inside, empty⟩, node, lookup_filter_ne]
  rfl

/-- The location that takes the place of one below the source. -/
def rebase (source target location : Location) : Location :=
  if source <:+ location then location.take (location.length - source.length) ++ target
  else location

theorem rebase_append (source target inner : Location) :
    rebase source target (inner ++ source) = inner ++ target := by
  rw [rebase, if_pos (suffix_append _ _)]
  simp

variable {target : Location}

theorem rebase_other {source : Location} (other : ¬source <:+ location) :
    rebase source target location = location := if_neg other

variable (lookup : Location → Option Node)

/-- What a location holds after all that is below the source went below the target. -/
def moved (source target location : Location) : Option Node :=
  if target <:+ location then lookup (rebase target source location)
  else if source <:+ location then none
  else lookup location

variable {source : Location}

theorem lookup_map_rebase (free : ∀ entry ∈ entries, ¬target <:+ entry.1) (location : Location) :
    (entries.map fun entry => (rebase source target entry.1, entry.2)).lookup location =
      moved (fun place => entries.lookup place) source target location := by
  induction entries with
  | nil => simp [moved]
  | cons entry rest induction =>
    rw [forall_mem_cons] at free
    rw [map_cons, lookup_cons_entry, induction free.2]
    by_cases below : source <:+ entry.1
    · obtain ⟨inner, same⟩ := below
      rw [← same, rebase_append]
      by_cases atTarget : target <:+ location
      · obtain ⟨_, rfl⟩ := atTarget
        rw [moved, moved, if_pos (suffix_append _ _), if_pos (suffix_append _ _),
          rebase_append, lookup_cons_entry, ← same]
        simp
      have different : location ≠ inner ++ target := by
        rintro rfl
        exact atTarget (suffix_append _ _)
      rw [if_neg different, moved, moved, if_neg atTarget, if_neg atTarget]
      split
      · rfl
      rename_i outside
      have other : location ≠ entry.1 := by
        rintro rfl
        exact outside ⟨inner, same⟩
      rw [lookup_cons_entry, if_neg other]
    · rw [rebase_other below]
      by_cases atTarget : target <:+ location
      · have different : location ≠ entry.1 := by
          rintro rfl
          exact free.1 atTarget
        obtain ⟨found, rfl⟩ := atTarget
        have other : found ++ source ≠ entry.1 := by
          rintro same
          exact below (same ▸ suffix_append _ _)
        rw [if_neg different, moved, moved, if_pos (suffix_append _ _),
          if_pos (suffix_append _ _), rebase_append, lookup_cons_entry, if_neg other]
      · rw [moved, moved, if_neg atTarget, if_neg atTarget]
        split
        · rename_i same
          rw [same, if_neg below, lookup_cons_entry, if_pos rfl]
        rename_i different
        split
        · rfl
        · rw [lookup_cons_entry, if_neg different]

/-- An entry can go to a location: that is in a directory, outside the entry, and has nothing in it. -/
@[mk_iff]
structure Movable (tree : Tree) (source target : Location) : Prop where
  present : tree.node source ≠ none
  inside : source ≠ []
  outside : ¬source <:+ target
  directory : tree.node target.tail = some .directory
  empty : tree.Empty target

instance (tree : Tree) (source target : Location) : Decidable (tree.Movable source target) :=
  decidable_of_iff' _ (movable_iff ..)

theorem moved_other {lookup : Location → Option Node}
    (notTarget : ¬target <:+ location) (notSource : ¬source <:+ location) :
    moved lookup source target location = lookup location := by
  rw [moved, if_neg notTarget, if_neg notSource]

namespace Movable

variable {source : Location} (movable : tree.Movable source target)

include movable

theorem free : ∀ entry ∈ tree.entries.filter fun entry => entry.1 ≠ target,
    ¬target <:+ entry.1 := by
  intro entry member below
  obtain ⟨old, different⟩ := mem_filter.mp member
  obtain ⟨inner, same⟩ := below
  have nonempty : inner ≠ [] := by
    rintro rfl
    simp [← same] at different
  have absent := node_inside_empty movable.empty nonempty
  rw [same] at absent
  simpa using lookup_eq_none_iff.mp absent entry old

theorem target_ne_nil : target ≠ [] := by
  rintro rfl
  have absent := node_inside_empty movable.empty movable.inside
  rw [append_nil] at absent
  exact movable.present absent

theorem closed {entry : Location × Node}
    (member : entry ∈ tree.entries.filter fun entry => entry.1 ≠ target)
    (nonempty : rebase source target entry.1 ≠ []) :
    moved (fun place => (tree.entries.filter fun entry => entry.1 ≠ target).lookup place) source
      target (rebase source target entry.1).tail = some .directory := by
  have inTree := (mem_filter.mp member).1
  have free := movable.free entry member
  have kept : ∀ place, ¬target <:+ place →
      (tree.entries.filter fun entry => entry.1 ≠ target).lookup place = tree.node place := by
    intro place outside
    have different : place ≠ target := by
      rintro rfl
      exact outside suffix_rfl
    rw [lookup_filter_ne, if_neg different]
    rfl
  by_cases below : source <:+ entry.1
  · obtain ⟨inner, same⟩ := below
    rw [← same, rebase_append]
    cases inner with
    | nil =>
      have notTarget : ¬target <:+ target.tail := by
        intro suffix
        have length := suffix.length_le
        have positive := length_pos_iff.mpr movable.target_ne_nil
        rw [length_tail] at length
        omega
      have notSource : ¬source <:+ target.tail := fun suffix =>
        movable.outside (suffix.trans (tail_suffix _))
      rw [nil_append, moved_other notTarget notSource, kept _ notTarget]
      exact movable.directory
    | cons name inner =>
      have notTarget : ¬target <:+ inner ++ source := by
        intro suffix
        rw [← same, cons_append] at free
        exact free (suffix.trans (suffix_cons _ _))
      rw [cons_append, tail_cons, moved, if_pos (suffix_append _ _), rebase_append,
        kept _ notTarget]
      have parent := tree.closed entry inTree (by rw [← same]; simp)
      rw [← same] at parent
      exact parent
  · rw [rebase_other below] at nonempty ⊢
    have notTarget : ¬target <:+ entry.1.tail := fun suffix =>
      free (suffix.trans (tail_suffix _))
    have notSource : ¬source <:+ entry.1.tail := fun suffix =>
      below (suffix.trans (tail_suffix _))
    rw [moved_other notTarget notSource, kept _ notTarget]
    exact tree.closed entry inTree nonempty

end Movable

/-- Move an entry with all that is in it, in place of what the target holds. -/
def move (tree : Tree) (source target : Location) : Tree :=
  if movable : tree.Movable source target then
    { entries := (tree.entries.filter fun entry => entry.1 ≠ target).map fun entry =>
        (rebase source target entry.1, entry.2)
      root := by
        rw [lookup_map_rebase movable.free,
          moved_other (by simpa using movable.target_ne_nil) (by simpa using movable.inside),
          lookup_filter_ne, if_neg (Ne.symm movable.target_ne_nil)]
        exact tree.root
      closed := by
        intro entry member nonempty
        obtain ⟨_, inRest, rfl⟩ := List.mem_map.mp member
        rw [lookup_map_rebase movable.free]
        exact movable.closed inRest nonempty }
  else tree

section

variable (movable : tree.Movable source target)

include movable

theorem node_move (location : Location) :
    (tree.move source target).node location = moved tree.node source target location := by
  have lookup : (tree.move source target).node location =
      moved (fun place => (tree.entries.filter fun entry => entry.1 ≠ target).lookup place) source
        target location := by
    rw [move, dif_pos movable]
    exact lookup_map_rebase movable.free location
  rw [lookup, moved, moved]
  split
  · rename_i below
    obtain ⟨inner, rfl⟩ := below
    have different : inner ++ source ≠ target := by
      intro same
      exact movable.outside ⟨inner, same⟩
    rw [rebase_append, lookup_filter_ne, if_neg different]
    rfl
  rename_i outside
  split
  · rfl
  have different : location ≠ target := by
    rintro rfl
    exact outside suffix_rfl
  rw [lookup_filter_ne, if_neg different]
  rfl

theorem suffix_of_node_move
    (present : tree.node place ≠ none) (gone : (tree.move source target).node place = none) :
    source <:+ place := by
  rw [node_move movable, moved] at gone
  split at gone
  · rename_i below
    obtain ⟨inner, rfl⟩ := below
    by_cases atTarget : inner = []
    · rw [rebase_append, atTarget] at gone
      exact absurd gone movable.present
    · exact absurd (node_inside_empty movable.empty atTarget) present
  · split at gone
    · rename_i below
      exact below
    · exact absurd gone present

theorem node_move_source :
    (tree.move source target).node source = none := by
  rw [node_move movable, moved]
  split
  · rename_i below
    obtain ⟨inner, same⟩ := below
    have nonempty : inner ≠ [] := by
      rintro rfl
      exact movable.outside ⟨[], same.symm⟩
    have absent := node_inside_empty movable.empty nonempty
    rw [same] at absent
    exact absurd absent movable.present
  · rw [if_pos suffix_rfl]

end

end Tree

/-- The flags of `open` that decide what it opens. -/
structure OpenFlags where
  write : Bool
  create : Bool
  exclusive : Bool
  truncate : Bool
  directory : Bool

namespace Host

/-- Where the links at a location lead in the end, whether or not something is there. -/
def settle (host : Host) : Nat → Location → Except Errno Location
  | 0, place => if host.tree.linkAt place = none then .ok place else .error .eloop
  | links + 1, place =>
    match host.tree.linkAt place with
    | none => .ok place
    | some target =>
      (host.locateFrom (if target.head? = some slash then [] else place.tail) target).bind
        (host.settle links)

variable (host : Host)

/-- Open what a location holds. -/
def openExisting (flags : OpenFlags) (place : Location) :
    Except Errno (Location × Host) :=
  match host.tree.node place with
  | none => .error .enoent
  | some .directory => if flags.write || flags.create then .error .eisdir else .ok (place, host)
  | some (.file _) =>
    if flags.directory then .error .enotdir
    else if flags.truncate then
      .ok (place, { host with tree := host.tree.setContent place [] })
    else .ok (place, host)
  | some (.link _) => .error .eloop

/-- Make an empty file where there is nothing. -/
def createFile (place : Location) : Location × Host :=
  (place, { host with tree := host.tree.insert place (.file []) })

/-- `open`: the location that is opened, and the host afterwards. -/
def openFile (flags : OpenFlags) (path : CString) :
    Except Errno (Location × Host) :=
  if flags.create && flags.directory then .error .einval
  else if flags.create then do
    let place ← host.locate path
    if flags.exclusive then
      if host.tree.node place = none then .ok (host.createFile place) else .error .eexist
    else
      let place ← host.settle host.linkMax place
      if host.tree.node place = none then .ok (host.createFile place)
      else host.openExisting flags place
  else do
    let place ← host.follow path
    host.openExisting flags place

variable (path : CString)

def unlink : Except Errno Host := do
  let place ← host.locate path
  match host.tree.node place with
  | none => .error .enoent
  | some .directory => .error .eperm
  | some _ => .ok { host with tree := host.tree.remove place }

def rmdir : Except Errno Host := do
  let place ← host.locate path
  match host.tree.node place with
  | none => .error .enoent
  | some .directory =>
    if (tokens path).getLast? = some here then .error .einval
    else if place = [] then .error .ebusy
    else if host.tree.Empty place then .ok { host with tree := host.tree.remove place }
    else .error .enotempty
  | some _ => .error .enotdir

def rename (old new : CString) : Except Errno Host := do
  let source ← host.locate old
  let target ← host.locate new
  match host.tree.node source with
  | none => .error .enoent
  | some entry =>
    if source = target then .ok host
    else if source <:+ target then .error .einval
    else
      match entry, host.tree.node target with
      | .directory, some .directory =>
        if host.tree.Empty target then
          .ok { host with tree := host.tree.move source target }
        else .error .enotempty
      | .directory, some _ => .error .enotdir
      | _, some .directory => .error .eisdir
      | _, _ => .ok { host with tree := host.tree.move source target }

/-- An entry with its location. -/
def entryAt (place : Location) : Except Errno (Location × Node) :=
  match host.tree.node place with
  | none => .error .enoent
  | some entry => .ok (place, entry)

/-- `stat`: the entry that a path leads to. -/
def statEntry : Except Errno (Location × Node) := do
  let place ← host.follow path
  host.entryAt place

/-- `lstat` with its errors: the entry that a path names. -/
def lstatEntry : Except Errno (Location × Node) := do
  let place ← host.locate path
  host.entryAt place

def readlink : Except Errno CString := do
  let place ← host.locate path
  match host.tree.node place with
  | none => .error .enoent
  | some (.link target) => .ok target
  | some _ => .error .einval

/-- Make an entry where there is nothing. -/
def makeEntry (entry : Node) : Except Errno Host := do
  let place ← host.locate path
  if host.tree.node place = none then .ok { host with tree := host.tree.insert place entry }
  else .error .eexist

def symlink (target path : CString) : Except Errno Host :=
  if target = [] then .error .enoent else host.makeEntry path (.link target)

/-- `mkdir` with its errors. -/
def makeDirectory : Except Errno Host :=
  host.makeEntry path .directory

end Host

variable {tree : Tree}

namespace Tree

/-- No way leads through a location: it is free or holds a file. -/
def Closed (tree : Tree) (location : Location) : Prop :=
  tree.node location = none ∨ ∃ content, tree.node location = some (.file content)

/-- Two trees differ in files only. -/
def SameWays (before after : Tree) : Prop :=
  ∀ location, after.node location = before.node location ∨
    (before.Closed location ∧ after.Closed location)

variable {before after : Tree} {place next : Location} {name : CString}

theorem SameWays.refl (tree : Tree) : tree.SameWays tree := fun _ => .inl rfl

section

variable (same : before.SameWays after)

include same

theorem SameWays.symm : after.SameWays before := fun location =>
  (same location).imp Eq.symm And.symm

theorem SameWays.node_eq (way : ¬before.Closed place) :
    after.node place = before.node place :=
  (same place).resolve_right fun closed => way closed.1

theorem SameWays.directory
    (directory : before.node place = some .directory) : after.node place = some .directory := by
  rw [same.node_eq (by
      rintro (absent | ⟨_, file⟩)
      · rw [directory] at absent
        cases absent
      · rw [directory] at file
        cases file), directory]

theorem SameWays.linkAt_eq (place : Location) :
    after.linkAt place = before.linkAt place := by
  rcases same place with equal | ⟨closedBefore, closedAfter⟩
  · rw [linkAt, linkAt, equal]
  have noLink : ∀ tree : Tree, tree.Closed place → tree.linkAt place = none := by
    rintro tree (absent | ⟨_, file⟩)
    · rw [linkAt, absent]
    · rw [linkAt, file]
  rw [noLink before closedBefore, noLink after closedAfter]

theorem SameWays.enter_eq
    (entered : ∀ error, before.enter place name ≠ .fail error)
    (way : name = here ∨ name = up ∨ ¬before.Closed (name :: place)) :
    after.enter place name = before.enter place name := by
  obtain ⟨directory, -⟩ := directory_of_enter entered
  rw [enter, enter, directory, same.directory directory]
  rcases way with isHere | isUp | way
  · simp only [if_pos isHere]
  · simp only [isUp, if_true]
  · rw [same.node_eq way]

end

theorem enter_file_fails {content : List UInt8} (file : before.node place = some (.file content))
    (name : CString) : before.enter place name = .fail .enotdir := by
  rw [enter, file]

theorem not_closed_of_via {start : Location} {names : List CString}
    (moved : before.enter place name = .via start names) : ¬before.Closed (name :: place) := by
  have entered : ∀ error, before.enter place name ≠ .fail error := by simp [moved]
  obtain ⟨directory, -⟩ := directory_of_enter entered
  rintro (absent | ⟨_, file⟩)
  · simp only [enter, directory, absent] at moved
    split_ifs at moved
  · simp only [enter, directory, file] at moved
    split_ifs at moved

theorem reach_cases (moved : before.enter place name = .reach next) :
    name = here ∨ name = up ∨ next = name :: place := by
  have entered : ∀ error, before.enter place name ≠ .fail error := by simp [moved]
  obtain ⟨directory, -⟩ := directory_of_enter entered
  by_cases isHere : name = here
  · exact .inl isHere
  by_cases isUp : name = up
  · exact .inr (.inl isUp)
  refine .inr (.inr ?_)
  rw [enter, directory] at moved
  simp only [if_neg isHere, if_neg isUp] at moved
  split at moved
  · cases moved
  · cases moved
  · cases moved
    rfl

theorem sameWays_setContent {old : List UInt8} (found : tree.node place = some (.file old))
    (content : List UInt8) :
    tree.SameWays (tree.setContent place content) := by
  intro location
  by_cases atPlace : location = place
  · refine .inr ⟨.inr ⟨old, atPlace ▸ found⟩, .inr ⟨content, ?_⟩⟩
    rw [node_setContent found, if_pos atPlace]
  · left
    rw [node_setContent found, if_neg atPlace]

end Tree

namespace Host

variable {host : Host} {base path : CString} {links : Nat} {place : Location} {names : List CString}
  {reached : Nat × Location}

theorem walkFrom_sameWays (same : host.tree.SameWays tree)
    (directory : host.tree.node reached.2 = some .directory)
    (walked : host.walkFrom links place names = .ok reached) :
    { host with tree }.walkFrom links place names = .ok reached := by
  refine walk_ok_rule walk_nil ?_ ?_ walked
  · intro links place name rest next moved walked again
    -- A file could only be the end of the walk.
    have way : name = here ∨ name = up ∨ ¬host.tree.Closed (name :: place) := by
      refine (reach_cases moved).imp_right fun more => more.imp_right ?_
      rintro rfl
      rintro (absent | ⟨_, file⟩)
      · exact present_of_reach moved absent
      · cases rest with
        | nil =>
          rw [walk_nil] at walked
          cases walked
          rw [file] at directory
          cases directory
        | cons other =>
          rw [walk_fail (enter_file_fails file other)] at walked
          cases walked
    have unchanged := same.enter_eq (by simp [moved]) way
    exact (walk_reach (unchanged.trans moved)).trans again
  · intro links place name rest start expanded moved again
    have unchanged := same.enter_eq (by simp [moved]) (.inr (.inr (not_closed_of_via moved)))
    exact (walk_via (unchanged.trans moved)).trans again

theorem descend_sameWays (same : host.tree.SameWays tree)
    (directory : host.tree.node reached.2 = some .directory)
    (walked : host.descend base = .ok reached) : { host with tree }.descend base = .ok reached :=
  walkFrom_sameWays same directory walked

variable {location : Location}

theorem locate_sameWays (same : host.tree.SameWays tree)
    (located : host.locate path = .ok location) :
    { host with tree }.locate path = .ok location := by
  obtain ⟨_, _, _, shape, walked, found⟩ := locateFrom_eq_ok.mp located
  obtain ⟨directory, rfl⟩ := child_eq_ok.mp found
  exact locateFrom_eq_ok.mpr ⟨_, _, _, shape, walkFrom_sameWays same directory walked,
    child_eq_ok.mpr ⟨same.directory directory, rfl⟩⟩

theorem locate_of_lstat {entry : Node} (found : host.lstat path = some entry) :
    ∃ location, host.locate path = .ok location ∧ host.tree.node location = some entry := by
  rw [lstat] at found
  split at found
  · rename_i location located
    exact ⟨location, located, found⟩
  · cases found

variable {target : CString}

theorem linkTarget_sameWays_of_some (same : host.tree.SameWays tree)
    (link : host.linkTarget path = some target) :
    { host with tree }.linkTarget path = some target := by
  obtain ⟨location, located, found⟩ := locate_of_lstat (lstat_of_linkTarget link)
  have isLink : host.tree.linkAt location = some target := by rw [linkAt, found]
  rw [← same.linkAt_eq, linkAt] at isLink
  rw [linkTarget, lstat, locate_sameWays same located]
  exact isLink

theorem linkTarget_sameWays (same : host.tree.SameWays tree) (path : CString) :
    { host with tree }.linkTarget path = host.linkTarget path := by
  cases before : host.linkTarget path with
  | some => exact linkTarget_sameWays_of_some same before
  | none =>
    cases after : ({ host with tree } : Host).linkTarget path with
    | none => rfl
    | some =>
      have back := linkTarget_sameWays_of_some same.symm after
      rw [← before]
      exact back.symm

theorem directory_of_child {last : CString}
    (found : host.child place last = .ok location) (free : host.tree.node location = none) :
    host.tree.node location.tail = some .directory := by
  obtain ⟨directory, rfl⟩ := child_eq_ok.mp found
  split at free
  · rw [directory] at free
    cases free
  split at free
  · exact absurd free (present_tail directory)
  rename_i notHere notUp
  rw [if_neg notHere, if_neg notUp]
  exact directory

theorem directory_of_locateFrom {start : Location}
    (located : host.locateFrom start path = .ok location) (free : host.tree.node location = none) :
    host.tree.node location.tail = some .directory := by
  obtain ⟨_, _, _, -, -, found⟩ := locateFrom_eq_ok.mp located
  exact directory_of_child found free

theorem directory_of_settle (settled : host.settle links place = .ok location)
    (start : host.tree.node place = none → host.tree.node place.tail = some .directory)
    (free : host.tree.node location = none) : host.tree.node location.tail = some .directory := by
  induction links generalizing place with
  | zero =>
    rw [settle] at settled
    split at settled
    · cases settled
      exact start free
    · cases settled
  | succ links induction =>
    rw [settle] at settled
    split at settled
    · cases settled
      exact start free
    rename_i target link
    obtain ⟨_, located, rest⟩ := exceptBind_eq_ok.mp settled
    exact induction rest fun free => directory_of_locateFrom located free

/-- Only a file has changed, and its location is taken. -/
def FilesChanged (before after : Host) (place : Location) : Prop :=
  ∃ tree, after = { before with tree } ∧ before.tree.SameWays tree ∧ tree.node place ≠ none ∧
    ∀ location, location ≠ place → tree.node location = before.tree.node location

theorem filesChanged_createFile (free : host.tree.node place = none)
    (directory : host.tree.node place.tail = some .directory) :
    host.FilesChanged (host.createFile place).2 place := by
  refine ⟨_, rfl, by
      intro location
      rcases node_insert_or host.tree place (.file ([])) location with same | ⟨-, absent, present⟩
      · exact .inl same
      · exact .inr ⟨.inl absent, .inr ⟨([]), present⟩⟩, ?_, fun location other => ?_⟩
  · rw [node_insert free directory, if_pos rfl]
    simp
  · rw [node_insert free directory, if_neg other]

variable {after : Host} {flags : OpenFlags}

theorem filesChanged_openExisting (opened : host.openExisting flags location = .ok (place, after)) :
    place = location ∧ host.FilesChanged after place := by
  rw [openExisting] at opened
  split at opened
  · cases opened
  · rename_i found
    split at opened
    · cases opened
    · cases opened
      exact ⟨rfl, host.tree, rfl, .refl _, by simp [found], fun _ _ => rfl⟩
  · rename_i found
    split at opened
    · cases opened
    split at opened
    · cases opened
      refine ⟨rfl, _, rfl, sameWays_setContent found [], ?_, fun location other => ?_⟩
      · rw [node_setContent found, if_pos rfl]
        simp
      · rw [node_setContent found, if_neg other]
    · cases opened
      exact ⟨rfl, host.tree, rfl, .refl _, by simp [found], fun _ _ => rfl⟩
  · cases opened

theorem filesChanged_openFile
    (opened : host.openFile flags path = .ok (place, after)) : host.FilesChanged after place := by
  rw [openFile] at opened
  split at opened
  · cases opened
  split at opened
  · obtain ⟨_, located, made⟩ := exceptBind_eq_ok.mp opened
    have parent := directory_of_locateFrom located
    split at made
    · split at made
      · rename_i free
        cases made
        exact filesChanged_createFile free (parent free)
      · cases made
    obtain ⟨_, settled, made⟩ := exceptBind_eq_ok.mp made
    split at made
    · rename_i free
      cases made
      exact filesChanged_createFile free (directory_of_settle settled parent free)
    · exact (filesChanged_openExisting made).2
  · obtain ⟨_, -, made⟩ := exceptBind_eq_ok.mp opened
    exact (filesChanged_openExisting made).2

theorem settle_of_linkAt (notLink : host.tree.linkAt place = none) (links : Nat) :
    host.settle links place = .ok place := by
  cases links with
  | zero => rw [settle, if_pos notLink]
  | succ => rw [settle, notLink]

/-- With `O_CREAT` a path that does not end at a link is opened where it is. -/
theorem place_of_openFile (creates : flags.create = true)
    (opened : host.openFile flags path = .ok (place, after)) :
    ∃ location, host.locate path = .ok location ∧
      (host.tree.linkAt location = none → place = location) := by
  rw [openFile, if_pos creates] at opened
  split at opened
  · cases opened
  obtain ⟨location, located, made⟩ := exceptBind_eq_ok.mp opened
  refine ⟨location, located, fun notLink => ?_⟩
  split at made
  · split at made
    · cases made
      rfl
    · cases made
  obtain ⟨_, settled, made⟩ := exceptBind_eq_ok.mp made
  rw [settle_of_linkAt notLink] at settled
  cases settled
  split at made
  · cases made
    rfl
  · exact (filesChanged_openExisting made).1

/-- Without links a way with something other than directories on it leads to `ENOTDIR`. -/
theorem child_blocked (isName : ∀ name ∈ names, IsName name)
    (linkFree : host.tree.LinkFree place names) (blocked : ¬host.tree.Clear place names)
    (last : CString) :
    ((host.walkFrom links place names).bind fun reached => host.child reached.2 last) =
      .error .enotdir := by
  induction names generalizing place with
  | nil => exact absurd trivial blocked
  | cons name rest induction =>
    rw [List.forall_mem_cons] at isName
    by_cases absent : host.tree.node (name :: place) = none
    · exact absurd ⟨.inl absent, clear_of_absent absent⟩ blocked
    rw [walkFrom, walk_reach (enter_isName isName.1 linkFree.1 absent)]
    by_cases directory : host.tree.node (name :: place) = some .directory
    · exact induction isName.2 linkFree.2 fun clear => blocked ⟨.inr directory, clear⟩
    obtain ⟨content, file⟩ : ∃ content, host.tree.node (name :: place) = some (.file content) := by
      have notLink := linkFree.1
      rw [linkAt] at notLink
      cases found : host.tree.node (name :: place) with
      | none => exact absurd found absent
      | some entry =>
        cases entry with
        | directory => exact absurd found directory
        | file content => exact ⟨content, rfl⟩
        | link => simp [found] at notLink
    cases rest with
    | nil => simp [walk_nil, Except.bind, child, file]
    | cons next =>
      rw [walk_fail (enter_file_fails file next)]
      rfl

/-- An entry with nothing in it was taken away. -/
structure Removes (before after : Host) (path : CString) (place : Location) : Prop where
  located : before.locate path = .ok place
  present : before.tree.node place ≠ none
  inside : place ≠ []
  empty : before.tree.Empty place
  removed : after = { before with tree := before.tree.remove place }

theorem removes_of_unlink (unlinked : host.unlink path = .ok after) :
    ∃ place, host.Removes after path place := by
  obtain ⟨place, located, unlinked⟩ := exceptBind_eq_ok.mp unlinked
  split at unlinked
  · cases unlinked
  · cases unlinked
  rename_i other found
  cases unlinked
  have notDirectory : host.tree.node place ≠ some .directory := by
    rw [found]
    simpa using other
  have inside : place ≠ [] := by
    rintro rfl
    exact notDirectory (by simp)
  exact ⟨place, located, by simp [found], inside, empty_of_ne_directory notDirectory, rfl⟩

theorem removes_of_rmdir (removed : host.rmdir path = .ok after) :
    ∃ place, host.Removes after path place := by
  obtain ⟨place, located, removed⟩ := exceptBind_eq_ok.mp removed
  split at removed
  · cases removed
  · rename_i found
    split at removed
    · cases removed
    split at removed
    · cases removed
    rename_i inside
    split at removed
    · rename_i empty
      cases removed
      exact ⟨place, located, by simp [found], inside, empty, rfl⟩
    · cases removed
  · cases removed

theorem unlink_eq_enoent (located : host.locate path = .ok place) :
    host.unlink path = .error .enoent ↔ host.tree.node place = none := by
  rw [unlink, located]
  simp only [bind, Except.bind]
  split
  · rename_i absent
    simp [absent]
  · rename_i found
    simp [found]
  · rename_i found
    simp [found]

theorem rmdir_eq_enoent (located : host.locate path = .ok place) :
    host.rmdir path = .error .enoent ↔ host.tree.node place = none := by
  rw [rmdir, located]
  simp only [bind, Except.bind]
  split
  · rename_i absent
    simp [absent]
  · rename_i found
    rw [found]
    split_ifs <;> simp
  · rename_i found
    simp [found]

theorem movable_of_rename {old new : CString} (renamed : host.rename old new = .ok after) :
    ∃ source target, host.locate old = .ok source ∧ host.locate new = .ok target ∧
      ((source = target ∧ after = host) ∨ (host.tree.Movable source target ∧
        after = { host with tree := host.tree.move source target })) := by
  obtain ⟨source, located, renamed⟩ := exceptBind_eq_ok.mp renamed
  obtain ⟨target, targetLocated, renamed⟩ := exceptBind_eq_ok.mp renamed
  refine ⟨source, target, located, targetLocated, ?_⟩
  have parent : host.tree.node target.tail = some .directory := by
    by_cases free : host.tree.node target = none
    · exact directory_of_locateFrom targetLocated free
    cases target with
    | nil => simp
    | cons => exact parent_directory free
  split at renamed
  · cases renamed
  rename_i found
  split at renamed
  · rename_i same
    cases renamed
    exact .inl ⟨same, rfl⟩
  split at renamed
  · cases renamed
  rename_i outside
  have movable : host.tree.Empty target → host.tree.Movable source target := fun empty =>
    { present := by simp [found]
      inside := by
        rintro rfl
        exact outside (List.nil_suffix)
      outside
      directory := parent
      empty }
  refine .inr ?_
  split at renamed
  · split at renamed
    · rename_i empty
      cases renamed
      exact ⟨movable empty, rfl⟩
    · cases renamed
  · cases renamed
  · cases renamed
  · rename_i notDirectory _ _
    cases renamed
    exact ⟨movable (empty_of_ne_directory notDirectory), rfl⟩

theorem walkFrom_ne_eexist : host.walkFrom links place names ≠ .error .eexist := by
  rw [walkFrom]
  induction links, place, names using walk_induction host.tree.enter with
  | nil =>
    rw [walk_nil]
    simp
  | reach links place name rest next moved induction =>
    rw [walk_reach moved]
    exact induction
  | viaZero place name rest start expanded moved =>
    rw [walk_via_zero moved]
    simp
  | via links place name rest start expanded moved induction =>
    rw [walk_via moved]
    exact induction
  | fail links place name rest error moved =>
    rw [walk_fail moved]
    rintro ⟨⟩
    rw [enter] at moved
    split at moved
    · cases moved
    · split_ifs at moved
      split at moved <;> cases moved
    · cases moved

theorem locate_ne_eexist (host : Host) (path : CString) : host.locate path ≠ .error .eexist := by
  rw [locate, locateFrom]
  split
  · simp
  rename_i last front shape
  cases walked : host.walkFrom host.linkMax (host.start path) front.reverse with
  | error =>
    rintro ⟨⟩
    exact walkFrom_ne_eexist walked
  | ok outer =>
    change host.child outer.2 last ≠ _
    rw [child]
    split <;> simp

theorem symlink_eq_eexist (nonempty : target ≠ []) :
    host.symlink target path = .error .eexist ↔ host.lstat path ≠ none := by
  rw [symlink, if_neg nonempty, makeEntry, lstat]
  cases located : host.locate path with
  | error =>
    refine iff_of_false ?_ (by simp)
    rintro ⟨⟩
    exact locate_ne_eexist host path located
  | ok =>
    simp only [bind, Except.bind]
    split
    · rename_i free
      simp [free]
    · rename_i occupied
      simp [occupied]

section NoLink

variable (free : host.linkTarget path = none)

include free

theorem linkAt_of_linkTarget (located : host.locate path = .ok place) :
    host.tree.linkAt place = none := by
  rw [linkTarget, lstat, located] at free
  exact free

theorem readlink_fails : ∃ error, host.readlink path = .error error := by
  cases located : host.locate path with
  | error error =>
    rw [readlink, located]
    exact ⟨error, rfl⟩
  | ok place =>
    have noLink := linkAt_of_linkTarget free located
    rw [readlink, located]
    cases found : host.tree.node place with
    | none => exact ⟨.enoent, by simp only [bind, Except.bind, found]⟩
    | some entry =>
      cases entry with
      | directory | file => exact ⟨.einval, by simp only [bind, Except.bind, found]⟩
      | link =>
        rw [linkAt, found] at noLink
        cases noLink

theorem lstatEntry_ne_link (place : Location) (target : CString) :
    host.lstatEntry path ≠ .ok (place, .link target) := by
  intro described
  obtain ⟨_, located, described⟩ := exceptBind_eq_ok.mp described
  have noLink := linkAt_of_linkTarget free located
  rw [entryAt] at described
  split at described
  · cases described
  rename_i found
  cases described
  rw [linkAt, found] at noLink
  cases noLink

end NoLink

theorem Removes.linkAt_eq (removes : host.Removes after path place)
    (free : host.linkTarget path = none) (location : Location) :
    after.tree.linkAt location = host.tree.linkAt location := by
  have removed : after.tree = host.tree.remove place := by rw [removes.removed]
  have noLink := linkAt_of_linkTarget free removes.located
  rw [removed, linkAt, node_remove removes.inside removes.empty]
  by_cases same : location = place
  · rw [if_pos same, same, noLink]
  · rw [if_neg same]
    rfl

end Host

end Foundation
