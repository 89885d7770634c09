import AlpineOnIOS.Foundation.Memory

/-!
# Paths and a file system tree

A path is a C string, its components are the nonempty runs between separators. A walk takes names
one after another, and a link puts other names in front of the remaining ones. The tree of a host
maps locations to files, directories and symbolic links.
-/

namespace Foundation

open List

/-- The separator of path components. -/
def slash : CChar := ⟨47, by decide⟩

/-- The full stop of the two special components. -/
def dot : CChar := ⟨46, by decide⟩

/-- The component that stays in a directory. -/
def here : CString := [dot]

/-- The component that goes to the parent directory. -/
def up : CString := [dot, dot]

/-- The components of a path, as `strtok_r` finds them. -/
def tokens (path : CString) : List CString :=
  (path.splitOnP fun char => char == slash).filter fun token => !token.isEmpty

variable (names : List CString)

/-- Components with a separator in front of each. -/
def render : CString := names.flatMap fun name => slash :: name

/-- The position of the last separator, as `strrchr` finds it. -/
def lastSlash : CString → Option Nat
  | [] => none
  | char :: rest =>
    match lastSlash rest with
    | some position => some (position + 1)
    | none => if char = slash then some 0 else none

/-- A component that names a directory entry. -/
structure IsName (name : CString) : Prop where
  nonempty : name ≠ []
  plain : slash ∉ name
  notHere : name ≠ here
  notUp : name ≠ up

variable {path first second : CString} {names : List CString}

@[simp]
theorem tokens_nil : tokens [] = [] := rfl

theorem tokens_append_slash (first second : CString) :
    tokens (first ++ slash :: second) = tokens first ++ tokens second := by
  rw [tokens, splitOnP_append_cons first second (by simp), filter_append, tokens, tokens]

theorem tokens_slash_cons (path : CString) : tokens (slash :: path) = tokens path :=
  tokens_append_slash [] path

theorem tokens_of_plain (plain : slash ∉ path) : tokens path = [path].filter (!·.isEmpty) := by
  rw [tokens, splitOnP_eq_singleton]
  intro char member
  rw [beq_eq_false_iff_ne]
  rintro rfl
  exact plain member

theorem mem_splitOnP {α : Type} {separates : α → Bool} {text segment : List α}
    (member : segment ∈ text.splitOnP separates) : ∀ char ∈ segment, separates char = false := by
  induction text generalizing segment with
  | nil =>
    rw [splitOnP_nil, mem_singleton] at member
    simp [member]
  | cons first rest induction =>
    rw [splitOnP_cons_eq_if_modifyHead] at member
    split at member
    · rcases mem_cons.mp member with rfl | inRest
      · simp
      · exact induction inRest
    rename_i inside
    cases splitting : rest.splitOnP separates with
    | nil => exact absurd splitting (splitOnP_ne_nil _ _)
    | cons =>
      rw [splitting, modifyHead_cons, mem_cons] at member
      rcases member with rfl | inTail
      · have headPlain := induction (by rw [splitting]; exact mem_cons_self)
        simpa [inside] using headPlain
      · exact induction (by rw [splitting]; exact mem_cons_of_mem _ inTail)

theorem of_mem_tokens {token : CString} (member : token ∈ tokens path) :
    token ≠ [] ∧ slash ∉ token := by
  obtain ⟨split, nonempty⟩ := mem_filter.mp member
  refine ⟨by simpa using nonempty, fun inside => ?_⟩
  simpa using mem_splitOnP split slash inside

@[simp]
theorem render_nil : render [] = [] := rfl

@[simp]
theorem render_cons (name : CString) (names : List CString) :
    render (name :: names) = slash :: name ++ render names := rfl

@[simp]
theorem render_append (front back : List CString) :
    render (front ++ back) = render front ++ render back := flatMap_append

theorem render_concat (names : List CString) (name : CString) :
    render (names ++ [name]) = render names ++ slash :: name := by
  simp

theorem tokens_append_render (base : CString) (plain : ∀ name ∈ names, slash ∉ name) :
    tokens (base ++ render names) = tokens base ++ names.filter (!·.isEmpty) := by
  induction names generalizing base with
  | nil => simp
  | cons name names induction =>
    rw [forall_mem_cons] at plain
    have shifted : base ++ render (name :: names) = (base ++ slash :: name) ++ render names := by
      simp
    rw [shifted, induction (base ++ slash :: name) plain.2, tokens_append_slash,
      tokens_of_plain plain.1, append_assoc, ← filter_append, singleton_append]

theorem tokens_render (isName : ∀ name ∈ names, IsName name) : tokens (render names) = names := by
  have split := tokens_append_render [] fun name member => (isName name member).plain
  rw [nil_append, tokens_nil, nil_append] at split
  rw [split, filter_eq_self]
  intro name member
  simpa using (isName name member).nonempty

theorem render_filter_length (keep : CString → Bool) (names : List CString) :
    (render (names.filter keep)).length ≤ (render names).length := by
  induction names with
  | nil => simp
  | cons name names induction =>
    rw [filter_cons]
    split
    · simpa using induction
    · rw [render_cons, length_append]
      omega

theorem render_splitOnP_length (path : CString) :
    (render (path.splitOnP fun char => char == slash)).length = path.length + 1 := by
  induction path with
  | nil => rfl
  | cons char rest induction =>
    rw [splitOnP_cons_eq_if_modifyHead]
    split
    · simp only [render_cons, length_append, length_cons, length_nil, induction]
      omega
    cases shape : rest.splitOnP fun char => char == slash with
    | nil => exact absurd shape (splitOnP_ne_nil _ _)
    | cons =>
      rw [shape, render_cons] at induction
      rw [modifyHead_cons, render_cons]
      simp only [cons_append, length_cons] at induction ⊢
      omega

theorem render_tokens_length (path : CString) :
    (render (tokens path)).length ≤ path.length + 1 := by
  rw [← render_splitOnP_length path]
  exact render_filter_length _ _

variable {front back : CString}

theorem lastSlash_eq_none (plain : slash ∉ back) : lastSlash back = none := by
  induction back with
  | nil => rfl
  | cons char rest induction =>
    rw [mem_cons, not_or] at plain
    rw [lastSlash, induction plain.2]
    exact if_neg (Ne.symm plain.1)

theorem lastSlash_append (front : CString) (plain : slash ∉ back) :
    lastSlash (front ++ slash :: back) = some front.length := by
  induction front with
  | nil => simp [lastSlash, lastSlash_eq_none plain]
  | cons char front induction => rw [cons_append, lastSlash, induction, length_cons]

section

variable {Place Name Error : Type}

/-- What a name does at a place. -/
inductive Move (Place Name Error : Type) where
  | reach (place : Place)
  | via (place : Place) (names : List Name)
  | fail (error : Error)

/-- Take names up to the first link. -/
def walkList (enter : Place → Name → Move Place Name Error) (links : Nat)
    (expand : Place → List Name → Except Error (Nat × Place)) :
    Place → List Name → Except Error (Nat × Place)
  | place, [] => .ok (links, place)
  | place, name :: rest =>
    match enter place name with
    | .reach next => walkList enter links expand next rest
    | .via start names => expand start (names ++ rest)
    | .fail error => .error error

/-- Take names and follow at most `links` links. -/
def walk (enter : Place → Name → Move Place Name Error) (tooMany : Error) :
    Nat → Place → List Name → Except Error (Nat × Place)
  | 0 => walkList enter 0 fun _ _ => .error tooMany
  | links + 1 => walkList enter (links + 1) (walk enter tooMany links)

variable {enter : Place → Name → Move Place Name Error} {tooMany : Error} {links left : Nat}
  {place next start : Place} {name : Name} {names rest : List Name} {error : Error}

@[simp]
theorem walk_nil : walk enter tooMany links place [] = .ok (links, place) := by
  cases links <;> rfl

theorem walk_reach (moved : enter place name = .reach next) :
    walk enter tooMany links place (name :: rest) = walk enter tooMany links next rest := by
  cases links <;> simp [walk, walkList, moved]

theorem walk_via (moved : enter place name = .via start names) :
    walk enter tooMany (links + 1) place (name :: rest) =
      walk enter tooMany links start (names ++ rest) := by
  simp [walk, walkList, moved]

theorem walk_via_zero (moved : enter place name = .via start names) :
    walk enter tooMany 0 place (name :: rest) = .error tooMany := by
  simp [walk, walkList, moved]

theorem walk_fail (moved : enter place name = .fail error) :
    walk enter tooMany links place (name :: rest) = .error error := by
  cases links <;> simp [walk, walkList, moved]

/-- Induction along a walk: on the links that are left, and between links on the names. -/
@[elab_as_elim]
theorem walk_induction (enter : Place → Name → Move Place Name Error)
    {motive : Nat → Place → List Name → Prop} (nil : ∀ links place, motive links place [])
    (reach : ∀ links place name rest next, enter place name = .reach next → motive links next rest →
      motive links place (name :: rest))
    (viaZero : ∀ place name rest start names, enter place name = .via start names →
      motive 0 place (name :: rest))
    (via : ∀ links place name rest start names, enter place name = .via start names →
      motive links start (names ++ rest) → motive (links + 1) place (name :: rest))
    (fail : ∀ links place name rest error, enter place name = .fail error →
      motive links place (name :: rest)) (links : Nat) (place : Place) (names : List Name) :
    motive links place names := by
  induction links generalizing place names with
  | zero =>
    induction names generalizing place with
    | nil => exact nil 0 place
    | cons name rest induction =>
      cases moved : enter place name with
      | reach next => exact reach 0 place name rest next moved (induction next)
      | via start names => exact viaZero place name rest start names moved
      | fail error => exact fail 0 place name rest error moved
  | succ links byLinks =>
    induction names generalizing place with
    | nil => exact nil (links + 1) place
    | cons name rest induction =>
      cases moved : enter place name with
      | reach next => exact reach (links + 1) place name rest next moved (induction next)
      | via start names =>
        exact via links place name rest start names moved (byLinks start (names ++ rest))
      | fail error => exact fail (links + 1) place name rest error moved

/-- Induction along a walk that ends at a place. -/
@[elab_as_elim]
theorem walk_ok_rule {reached : Nat × Place} {motive : Nat → Place → List Name → Prop}
    (nil : motive reached.1 reached.2 [])
    (reach : ∀ links place name rest next, enter place name = .reach next →
      walk enter tooMany links next rest = .ok reached → motive links next rest →
      motive links place (name :: rest))
    (via : ∀ links place name rest start names, enter place name = .via start names →
      motive links start (names ++ rest) → motive (links + 1) place (name :: rest))
    (walked : walk enter tooMany links place names = .ok reached) : motive links place names := by
  induction links, place, names using walk_induction enter with
  | nil =>
    rw [walk_nil] at walked
    cases walked
    exact nil
  | reach links place name rest next moved induction =>
    rw [walk_reach moved] at walked
    exact reach _ _ _ _ _ moved walked (induction walked)
  | viaZero place name rest start expanded moved =>
    rw [walk_via_zero moved] at walked
    cases walked
  | via links place name rest start expanded moved induction =>
    rw [walk_via moved] at walked
    exact via _ _ _ _ _ _ moved (induction walked)
  | fail links place name rest error moved =>
    rw [walk_fail moved] at walked
    cases walked

/-- A walk along a list goes on from where the walk along its front ended. -/
theorem walk_append (enter : Place → Name → Move Place Name Error) (tooMany : Error) (links : Nat)
    (place : Place) (front back : List Name) :
    walk enter tooMany links place (front ++ back) =
      (walk enter tooMany links place front).bind fun reached =>
        walk enter tooMany reached.1 reached.2 back := by
  induction links, place, front using walk_induction enter with
  | nil =>
    rw [List.nil_append, walk_nil]
    rfl
  | reach links place name rest next moved induction =>
    rw [List.cons_append, walk_reach moved, walk_reach moved, induction]
  | viaZero place name rest start names moved =>
    rw [List.cons_append, walk_via_zero moved, walk_via_zero moved]
    rfl
  | via links place name rest start names moved induction =>
    rw [List.cons_append, walk_via moved, walk_via moved, ← List.append_assoc, induction]
  | fail links place name rest error moved =>
    rw [List.cons_append, walk_fail moved, walk_fail moved]
    rfl

/-- A name that is taken, with the place where that happens and the names behind it. -/
structure Taken (Place Name : Type) where
  place : Place
  name : Name
  rest : List Name

/-- The names taken up to the first link. -/
def traceList (enter : Place → Name → Move Place Name Error)
    (expand : Place → List Name → List (Taken Place Name)) :
    Place → List Name → List (Taken Place Name)
  | _, [] => []
  | place, name :: rest =>
    { place, name, rest } ::
      match enter place name with
      | .reach next => traceList enter expand next rest
      | .via start names => expand start (names ++ rest)
      | .fail _ => []

/-- The names that a walk takes. -/
def walkTrace (enter : Place → Name → Move Place Name Error) :
    Nat → Place → List Name → List (Taken Place Name)
  | 0 => traceList enter fun _ _ => []
  | links + 1 => traceList enter (walkTrace enter links)

/-- The lists that links make, the first link included. -/
def expansionsList (enter : Place → Name → Move Place Name Error)
    (expand : Place → List Name → List Name → List (List Name × List Name)) :
    Place → List Name → List (List Name × List Name)
  | _, [] => []
  | place, name :: rest =>
    match enter place name with
    | .reach next => expansionsList enter expand next rest
    | .via start names => expand start names rest
    | .fail _ => []

/-- The names that each link of a walk puts in front of others, and the others. -/
def expansions (enter : Place → Name → Move Place Name Error) :
    Nat → Place → List Name → List (List Name × List Name)
  | 0 => expansionsList enter fun _ _ _ => []
  | links + 1 => expansionsList enter fun start names rest =>
    (names, rest) :: expansions enter links start (names ++ rest)

@[simp]
theorem walkTrace_nil : walkTrace enter links place [] = [] := by
  cases links <;> rfl

theorem walkTrace_reach (moved : enter place name = .reach next) :
    walkTrace enter links place (name :: rest) =
      { place, name, rest } :: walkTrace enter links next rest := by
  cases links <;> simp [walkTrace, traceList, moved]

section

variable (moved : enter place name = .via start names)

include moved

theorem walkTrace_via :
    walkTrace enter (links + 1) place (name :: rest) =
      { place, name, rest } :: walkTrace enter links start (names ++ rest) := by
  simp [walkTrace, traceList, moved]

theorem walkTrace_via_zero :
    walkTrace enter 0 place (name :: rest) = [{ place, name, rest }] := by
  simp [walkTrace, traceList, moved]

omit moved in
@[simp]
theorem expansions_nil : expansions enter links place [] = [] := by
  cases links <;> rfl

omit moved in
theorem expansions_reach (moved : enter place name = .reach next) :
    expansions enter links place (name :: rest) = expansions enter links next rest := by
  cases links <;> simp [expansions, expansionsList, moved]

theorem expansions_via :
    expansions enter (links + 1) place (name :: rest) =
      (names, rest) :: expansions enter links start (names ++ rest) := by
  simp [expansions, expansionsList, moved]

theorem expansions_via_zero :
    expansions enter 0 place (name :: rest) = [] := by
  simp [expansions, expansionsList, moved]

end

end

/-- What a location holds. -/
inductive Node where
  | file (content : List UInt8)
  | directory
  | link (target : CString)
  deriving DecidableEq

/-- The names on the way from an entry out to the root. -/
abbrev Location := List CString

/-- The reasons for which the calls fail. -/
inductive Errno where
  | eperm | enoent | ebusy | eexist | enotdir | eisdir | einval | eloop | enotempty
  deriving DecidableEq

/-- Entries that are all in directories. -/
structure Tree where
  entries : List (Location × Node)
  root : entries.lookup [] = some .directory
  closed : ∀ entry ∈ entries, entry.1 ≠ [] → entries.lookup entry.1.tail = some .directory

variable {tree : Tree} {name : CString}

namespace Tree

/-- The entry at a location. -/
def node (tree : Tree) (location : Location) : Option Node := tree.entries.lookup location

/-- The target of the link at a location. -/
def linkAt (tree : Tree) (location : Location) : Option CString :=
  match tree.node location with
  | some (.link target) => some target
  | _ => none

variable {location : Location}

@[simp]
theorem node_root : tree.node [] = some .directory := tree.root

theorem parent_directory (present : tree.node (name :: location) ≠ none) :
    tree.node location = some .directory := by
  obtain ⟨entry, found⟩ := Option.ne_none_iff_exists'.mp present
  obtain ⟨_, _, split, -⟩ := lookup_eq_some_iff.mp found
  exact tree.closed (name :: location, entry) (by simp [split]) (cons_ne_nil _ _)

theorem node_cons_eq_none (other : tree.node location ≠ some .directory) (name : CString) :
    tree.node (name :: location) = none := by
  by_contra present
  exact other (parent_directory present)

theorem node_append_eq_none (absent : tree.node location = none) (inner : Location) :
    tree.node (inner ++ location) = none := by
  induction inner with
  | nil => exact absent
  | cons name inner induction =>
    have other : tree.node (inner ++ location) ≠ some .directory := by simp [induction]
    exact node_cons_eq_none other name

/-- Take one component of a path. -/
def enter (tree : Tree) (place : Location) (name : CString) : Move Location CString Errno :=
  match tree.node place with
  | none => .fail .enoent
  | some .directory =>
    if name = here then .reach place
    else if name = up then .reach place.tail
    else
      match tree.node (name :: place) with
      | none => .fail .enoent
      | some (.link target) =>
        -- A target with a separator at its end has to be a directory.
        .via (if target.head? = some slash then [] else place)
          (tokens target ++ if target.getLast? = some slash then [here] else [])
      | some _ => .reach (name :: place)
  | some _ => .fail .enotdir

theorem lookup_cons_entry (entries : List (Location × Node)) (place location : Location)
    (entry : Node) :
    ((location, entry) :: entries).lookup place =
      if place = location then some entry else entries.lookup place := by
  rw [lookup_cons]
  by_cases same : place = location
  · simp [same]
  · simp [same, beq_false_of_ne same]

/-- Put an entry at a free location in a directory. -/
def insert (tree : Tree) (location : Location) (entry : Node) : Tree :=
  if free : tree.node location = none ∧ tree.node location.tail = some .directory then
    { entries := (location, entry) :: tree.entries
      root := by
        have inside : [] ≠ location := by
          rintro rfl
          simp at free
        rw [lookup_cons_entry, if_neg inside]
        exact tree.root
      closed := by
        intro member isMember nonempty
        have parent : tree.node member.1.tail = some .directory := by
          rcases List.mem_cons.mp isMember with rfl | old
          · exact free.2
          · exact tree.closed member old nonempty
        have different : member.1.tail ≠ location := by
          intro same
          rw [same, free.1] at parent
          cases parent
        rw [lookup_cons_entry, if_neg different]
        exact parent }
  else tree

theorem node_insert {entry : Node} (free : tree.node location = none)
    (inside : tree.node location.tail = some .directory) (place : Location) :
    (tree.insert location entry).node place =
      if place = location then some entry else tree.node place := by
  rw [insert, dif_pos ⟨free, inside⟩, node, lookup_cons_entry]
  rfl

/-- The tree of a root directory to which entries are added at their paths. -/
def ofPaths (entries : List (CString × Node)) : Tree :=
  entries.foldl (fun tree entry => tree.insert (tokens entry.1).reverse entry.2)
    { entries := [([], .directory)]
      root := rfl
      closed := by simp }

end Tree

/-- A tree with the working directory and the link bound of the process that uses it. -/
structure Host where
  tree : Tree
  cwd : Location
  linkMax : Nat

theorem exceptBind_eq_ok {Error First Second : Type} {first : Except Error First}
    {next : First → Except Error Second} {result : Second} :
    first.bind next = .ok result ↔ ∃ value, first = .ok value ∧ next value = .ok result := by
  cases first with
  | error | ok => simp [Except.bind]

variable {host : Host} {path base : CString} {links left : Nat}

namespace Host

variable (host path)

/-- Where the resolution of a path starts. -/
def start : Location :=
  if path.head? = some slash then [] else host.cwd

/-- Walk along components from a place. -/
def walkFrom (links : Nat) (place : Location) (names : List CString) :
    Except Errno (Nat × Location) :=
  walk host.tree.enter .eloop links place names

/-- The directory that further components are looked up in, and the links left for them. -/
def descend : Except Errno (Nat × Location) :=
  host.walkFrom host.linkMax (host.start (path ++ [slash])) (tokens path)

/-- The location of the last component of a path in a directory. -/
def child (place : Location) (last : CString) : Except Errno Location :=
  match host.tree.node place with
  | none => .error .enoent
  | some .directory =>
    .ok (if last = here then place else if last = up then place.tail else last :: place)
  | some _ => .error .enotdir

/-- The location that a path names from some start, without following a link there. -/
def locateFrom (start : Location) (path : CString) : Except Errno Location :=
  match (tokens path ++ if path.getLast? = some slash then [here] else []).reverse with
  | [] => .error .enoent
  | last :: front =>
    (host.walkFrom host.linkMax start front.reverse).bind fun reached =>
      host.child reached.2 last

section

variable {host path} {place location start : Location} {last : CString}

theorem child_eq_ok :
    host.child place last = .ok location ↔ host.tree.node place = some .directory ∧
      (if last = here then place else if last = up then place.tail else last :: place) =
        location := by
  rw [child]
  split <;> simp_all

theorem locateFrom_eq_ok :
    host.locateFrom start path = .ok location ↔ ∃ last front outer,
      (tokens path ++ if path.getLast? = some slash then [here] else []).reverse = last :: front ∧
        host.walkFrom host.linkMax start front.reverse = .ok outer ∧
          host.child outer.2 last = .ok location := by
  rw [locateFrom]
  split
  · simp [*]
  · simp [*, exceptBind_eq_ok]

end

/-- The location that a path names, without following a link there. -/
def locate : Except Errno Location :=
  host.locateFrom (host.start path) path

/-- `lstat`: the entry that a path names. -/
def lstat : Option Node :=
  match host.locate path with
  | .ok place => host.tree.node place
  | .error _ => none

/-- `lstat` and `readlink`: the target if a path names a link. -/
def linkTarget : Option CString :=
  match host.lstat path with
  | some (.link target) => some target
  | _ => none

variable {host path} in
theorem lstat_of_linkTarget {target : CString} (link : host.linkTarget path = some target) :
    host.lstat path = some (.link target) := by
  rw [linkTarget] at link
  split at link
  · rename_i found
    cases link
    exact found
  · cases link

/-- The location that `open` gets to, all links followed. -/
def follow : Except Errno Location :=
  if path = [] then .error .enoent
  else
    (host.walkFrom host.linkMax (host.start path)
      (tokens path ++ if path.getLast? = some slash then [here] else [])).map Prod.snd

/-- `mkdir`, which leaves the tree alone where it fails. -/
def mkdir : Host :=
  match host.locate path with
  | .ok place => { host with tree := host.tree.insert place .directory }
  | .error _ => host

variable {path} {names : List CString} {place : Location} (base : CString)

theorem start_append_slash (rest : CString) :
    host.start (base ++ slash :: rest) = host.start (base ++ [slash]) := by
  cases base with
  | nil | cons => rfl

theorem start_concat_slash (nonempty : path ≠ []) :
    host.start (path ++ [slash]) = host.start path := by
  cases path with
  | nil => exact absurd rfl nonempty
  | cons => rfl

theorem walkFrom_append (links : Nat) (place : Location) (front back : List CString) :
    host.walkFrom links place (front ++ back) =
      (host.walkFrom links place front).bind fun reached =>
        host.walkFrom reached.1 reached.2 back :=
  walk_append host.tree.enter .eloop links place front back

/-- The last component is looked up in the directory that the others lead to. -/
theorem locate_append_slash (plain : slash ∉ name) :
    host.locate (base ++ slash :: name) =
      (host.descend base).bind fun reached =>
        host.child reached.2 (if name = [] then here else name) := by
  rw [locate, locateFrom, descend, start_append_slash, tokens_append_slash, tokens_of_plain plain]
  cases name with
  | nil => simp
  | cons char rest =>
    have notSlash : (base ++ slash :: char :: rest).getLast? ≠ some slash := by
      rw [getLast?_append_cons, getLast?_cons_cons]
      exact fun last => plain (mem_of_getLast? last)
    rw [if_neg notSlash]
    simp

theorem descend_append_render (plain : ∀ name ∈ names, slash ∉ name) :
    host.descend (base ++ render names) =
      (host.descend base).bind fun reached =>
        host.walkFrom reached.1 reached.2 (names.filter (!·.isEmpty)) := by
  have sameStart : host.start (base ++ render names ++ [slash]) = host.start (base ++ [slash]) := by
    cases names with
    | nil => simp
    | cons name names =>
      have shape : base ++ render (name :: names) ++ [slash] =
          base ++ slash :: (name ++ render names ++ [slash]) := by simp
      rw [shape, start_append_slash]
  rw [descend, descend, sameStart, tokens_append_render base plain, walkFrom_append]

end Host

/-- No link stands at the locations that the names lead through. -/
def Tree.LinkFree (tree : Tree) : Location → List CString → Prop
  | _, [] => True
  | place, name :: rest => tree.linkAt (name :: place) = none ∧ tree.LinkFree (name :: place) rest

namespace Tree

instance decidableLinkFree (tree : Tree) : ∀ place names, Decidable (tree.LinkFree place names)
  | _, [] => isTrue trivial
  | place, name :: rest =>
    have := decidableLinkFree tree (name :: place) rest
    inferInstanceAs (Decidable (_ ∧ _))

variable {place : Location} {front back : List CString}

theorem linkFree_append :
    tree.LinkFree place (front ++ back) ↔
      tree.LinkFree place front ∧ tree.LinkFree (front.reverse ++ place) back := by
  induction front generalizing place with
  | nil => simp [LinkFree]
  | cons name front induction => simp [LinkFree, induction, and_assoc]

theorem linkFree_iff {names : List CString} :
    tree.LinkFree place names ↔
      ∀ front, front ≠ [] → front <+: names → tree.linkAt (front.reverse ++ place) = none := by
  induction names generalizing place with
  | nil =>
    refine ⟨fun _ front nonempty isFront => ?_, fun _ => trivial⟩
    exact absurd (prefix_nil.mp isFront) nonempty
  | cons name names induction =>
    rw [LinkFree, induction]
    constructor
    · rintro ⟨first, others⟩ front nonempty isFront
      obtain ⟨_, rest, rfl⟩ := exists_cons_of_ne_nil nonempty
      obtain ⟨rfl, restFront⟩ := cons_prefix_cons.mp isFront
      rw [reverse_cons, append_assoc, singleton_append]
      cases rest with
      | nil => exact first
      | cons => exact others _ (cons_ne_nil _ _) restFront
    · intro all
      refine ⟨all [name] (cons_ne_nil _ _) ⟨names, rfl⟩, fun front nonempty isFront => ?_⟩
      have inner := all (name :: front) (cons_ne_nil _ _) ((prefix_cons_inj name).mpr isFront)
      rwa [reverse_cons, append_assoc, singleton_append] at inner

theorem LinkFree.congr {other : Tree}
    (same : ∀ location, other.linkAt location = tree.linkAt location)
    (linkFree : tree.LinkFree place front) : other.LinkFree place front := by
  induction front generalizing place with
  | nil => trivial
  | cons name front induction => exact ⟨(same _).trans linkFree.1, induction linkFree.2⟩

theorem enter_isName (isName : IsName name) (linkFree : tree.linkAt (name :: place) = none)
    (present : tree.node (name :: place) ≠ none) :
    tree.enter place name = .reach (name :: place) := by
  rw [enter, parent_directory present]
  simp only [if_neg isName.notHere, if_neg isName.notUp]
  rw [linkAt] at linkFree
  split at linkFree
  · cases linkFree
  rename_i notLink
  split
  · rename_i missing
    exact absurd missing present
  · rename_i found
    exact absurd found (notLink _)
  · rfl

theorem enter_isName_absent (isName : IsName name) (absent : tree.node (name :: place) = none) :
    ∃ error, tree.enter place name = .fail error := by
  rw [enter]
  split
  · exact ⟨_, rfl⟩
  · simp only [if_neg isName.notHere, if_neg isName.notUp, absent]
    exact ⟨_, rfl⟩
  · exact ⟨_, rfl⟩

end Tree

namespace Host

variable {names : List CString} {place : Location}

theorem walkFrom_linkFree (isName : ∀ name ∈ names, IsName name)
    (linkFree : host.tree.LinkFree place names)
    (present : host.tree.node (names.reverse ++ place) ≠ none) :
    host.walkFrom links place names = .ok (links, names.reverse ++ place) := by
  induction names generalizing place with
  | nil => exact walk_nil
  | cons name rest induction =>
    rw [forall_mem_cons] at isName
    have inner : (name :: rest).reverse ++ place = rest.reverse ++ name :: place := by simp
    rw [inner] at present ⊢
    have firstPresent : host.tree.node (name :: place) ≠ none := fun absent =>
      present (Tree.node_append_eq_none absent rest.reverse)
    rw [walkFrom, walk_reach (Tree.enter_isName isName.1 linkFree.1 firstPresent)]
    exact induction isName.2 linkFree.2 present

variable {reached : Nat × Location}

theorem eq_of_walkFrom_linkFree (isName : ∀ name ∈ names, IsName name)
    (linkFree : host.tree.LinkFree place names)
    (walked : host.walkFrom links place names = .ok reached) :
    reached = (links, names.reverse ++ place) := by
  induction names generalizing place with
  | nil =>
    rw [walkFrom, walk_nil] at walked
    cases walked
    rfl
  | cons name rest induction =>
    rw [forall_mem_cons] at isName
    have inner : (name :: rest).reverse ++ place = rest.reverse ++ name :: place := by simp
    rw [inner]
    by_cases absent : host.tree.node (name :: place) = none
    · obtain ⟨_, failed⟩ := Tree.enter_isName_absent isName.1 absent
      rw [walkFrom, walk_fail failed] at walked
      cases walked
    · rw [walkFrom, walk_reach (Tree.enter_isName isName.1 linkFree.1 absent)] at walked
      exact induction isName.2 linkFree.2 walked

theorem child_isName (isName : IsName name) (directory : host.tree.node place = some .directory) :
    host.child place name = .ok (name :: place) := by
  rw [child, directory]
  simp only [if_neg isName.notHere, if_neg isName.notUp]

theorem child_not_directory (name : CString) (other : host.tree.node place ≠ some .directory) :
    ∃ error, host.child place name = .error error := by
  rw [child]
  split
  · exact ⟨_, rfl⟩
  · rename_i directory
    exact absurd directory other
  · exact ⟨_, rfl⟩

section

variable (based : host.descend base = .ok (left, place)) (plain : ∀ name ∈ names, slash ∉ name)
  (isName : ∀ name ∈ names.filter (!·.isEmpty), IsName name)
  (linkFree : host.tree.LinkFree place (names.filter (!·.isEmpty))) (last : IsName name)

include based plain isName linkFree last

/-- Without links on the way `lstat` finds what the tree holds below the base. -/
theorem lstat_linkFree :
    host.lstat (base ++ render (names ++ [name])) =
      host.tree.node (name :: ((names.filter (!·.isEmpty)).reverse ++ place)) := by
  have descended := host.descend_append_render base plain
  rw [based] at descended
  have located := host.locate_append_slash (base ++ render names) last.plain
  rw [if_neg last.nonempty, descended] at located
  rw [lstat, render_concat, ← append_assoc, located]
  by_cases directory :
      host.tree.node ((names.filter (!·.isEmpty)).reverse ++ place) = some .directory
  · have walked : host.walkFrom left place (names.filter (!·.isEmpty)) = _ :=
      walkFrom_linkFree isName linkFree (by simp [directory])
    simp [Except.bind, walked, child_isName last directory]
  rw [Tree.node_cons_eq_none directory]
  cases walked : host.walkFrom left place (names.filter (!·.isEmpty)) with
  | error => simp [Except.bind, walked]
  | ok =>
    obtain rfl := eq_of_walkFrom_linkFree isName linkFree walked
    obtain ⟨_, failed⟩ := child_not_directory name directory
    simp [Except.bind, walked, failed]

theorem linkTarget_linkFree :
    host.linkTarget (base ++ render (names ++ [name])) =
      host.tree.linkAt (name :: ((names.filter (!·.isEmpty)).reverse ++ place)) := by
  rw [linkTarget, lstat_linkFree based plain isName linkFree last, Tree.linkAt]

end

theorem enter_here {next : Location} (reached : host.tree.enter place here = .reach next) :
    next = place := by
  rw [Tree.enter] at reached
  split at reached
  · cases reached
  · cases reached
    rfl
  · cases reached

theorem eq_of_walkFrom_trailing {trailing : Prop} [Decidable trailing]
    (walked : host.walkFrom links place (if trailing then [here] else []) = .ok reached) :
    reached = (links, place) := by
  rw [walkFrom] at walked
  split at walked
  · cases entered : host.tree.enter place here with
    | reach =>
      rw [walk_reach entered, walk_nil] at walked
      cases walked
      rw [enter_here entered]
    | via => exact absurd entered (by
        rw [Tree.enter]
        split
        · simp
        · simp
        · simp)
    | fail =>
      rw [walk_fail entered] at walked
      cases walked
  · rw [walk_nil] at walked
    cases walked
    rfl

theorem descend_of_follow (followed : host.follow path = .ok place) :
    ∃ left, host.descend path = .ok (left, place) := by
  rw [follow] at followed
  split at followed
  · cases followed
  rename_i nonempty
  rw [walkFrom_append] at followed
  rw [descend, start_concat_slash host nonempty]
  cases walked : host.walkFrom host.linkMax (host.start path) (tokens path) with
  | error => simp [Except.bind, Except.map, walked] at followed
  | ok reached =>
    refine ⟨reached.1, ?_⟩
    rw [walked] at followed
    cases ended : host.walkFrom reached.1 reached.2
        (if path.getLast? = some slash then [here] else []) with
    | error error => simp [Except.bind, Except.map, ended] at followed
    | ok final =>
      simp only [Except.bind, Except.map, ended, Except.ok.injEq] at followed
      rw [eq_of_walkFrom_trailing ended] at followed
      rw [← followed]

end Host

end Foundation
