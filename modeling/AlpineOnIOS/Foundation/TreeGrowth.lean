import AlpineOnIOS.Foundation.Paths

/-!
# Trees that grow

New entries change no walk that has succeeded.  Making the directories on the way to a path fills in
what is missing there, up to the first entry that is not a directory.
-/

namespace Foundation

open List Foundation.Tree

variable {tree : Tree} {location : Location} {entry : Node} {name : CString}

namespace Tree

/-- Every entry of a tree is in another one. -/
def Extends (before after : Tree) : Prop :=
  ∀ location entry, before.node location = some entry → after.node location = some entry

theorem Extends.refl (tree : Tree) : tree.Extends tree := fun _ _ found => found

theorem Extends.trans {first second third : Tree} (early : first.Extends second)
    (late : second.Extends third) : first.Extends third :=
  fun location entry found => late location entry (early location entry found)

theorem node_insert_or (tree : Tree) (location : Location) (entry : Node) (place : Location) :
    (tree.insert location entry).node place = tree.node place ∨
      (place = location ∧ tree.node place = none ∧
        (tree.insert location entry).node place = some entry) := by
  by_cases free : tree.node location = none ∧ tree.node location.tail = some .directory
  · rw [node_insert free.1 free.2]
    by_cases same : place = location
    · rw [if_pos same]
      exact .inr ⟨same, same ▸ free.1, rfl⟩
    · rw [if_neg same]
      exact .inl rfl
  · rw [insert, dif_neg free]
    exact .inl rfl

theorem insert_occupied (occupied : tree.node location ≠ none) :
    tree.insert location entry = tree := by
  rw [insert, dif_neg fun free => occupied free.1]

theorem insert_outside (outside : tree.node location.tail ≠ some .directory) :
    tree.insert location entry = tree := by
  rw [insert, dif_neg fun free => outside free.2]

theorem extends_insert (tree : Tree) (location : Location) (entry : Node) :
    tree.Extends (tree.insert location entry) := by
  intro place found present
  rcases node_insert_or tree location entry place with same | ⟨-, absent, -⟩
  · rw [same]
    exact present
  · rw [absent] at present
    cases present

variable {before after : Tree} {place next start : Location} {names : List CString}

theorem directory_of_enter (entered : ∀ error, before.enter place name ≠ .fail error) :
    before.node place = some .directory ∧
      (name = here ∨ name = up ∨ before.node (name :: place) ≠ none) := by
  rw [enter] at entered
  split at entered
  · exact absurd rfl (entered _)
  · rename_i directory
    refine ⟨directory, ?_⟩
    by_cases isHere : name = here
    · exact .inl isHere
    by_cases isUp : name = up
    · exact .inr (.inl isUp)
    refine .inr (.inr fun absent => ?_)
    simp only [if_neg isHere, if_neg isUp, absent] at entered
    exact entered _ rfl
  · exact absurd rfl (entered _)

theorem Extends.enter_eq (grows : before.Extends after)
    (entered : ∀ error, before.enter place name ≠ .fail error) :
    after.enter place name = before.enter place name := by
  obtain ⟨directory, known⟩ := directory_of_enter entered
  rw [enter, enter, directory, grows place _ directory]
  rcases known with isHere | isUp | present
  · simp only [if_pos isHere]
  · simp only [isUp, if_true]
  · obtain ⟨_, found⟩ := Option.ne_none_iff_exists'.mp present
    simp only [found, grows _ _ found]

end Tree

namespace Tree

variable {place next start : Location} {names : List CString}

theorem present_tail (directory : tree.node place = some .directory) :
    tree.node place.tail ≠ none := by
  cases place with
  | nil => simp
  | cons name place =>
    have outer : tree.node place = some .directory := parent_directory (by rw [directory]; simp)
    simp [outer]

theorem present_of_reach (reached : tree.enter place name = .reach next) :
    tree.node next ≠ none := by
  rw [enter] at reached
  split at reached
  · cases reached
  · rename_i directory
    split at reached
    · cases reached
      simp [directory]
    split at reached
    · cases reached
      exact present_tail directory
    split at reached
    · cases reached
    · cases reached
    rename_i found
    cases reached
    simp [found]
  · cases reached

theorem present_of_via (reached : tree.enter place name = .via start names) :
    tree.node start ≠ none := by
  have entered : ∀ error, tree.enter place name ≠ .fail error := by simp [reached]
  obtain ⟨directory, -⟩ := directory_of_enter entered
  rw [enter, directory] at reached
  simp only at reached
  split at reached
  · cases reached
  split at reached
  · cases reached
  split at reached
  · cases reached
  · cases reached
    split
    · simp
    · simp [directory]
  · cases reached

end Tree

namespace Host

variable {host : Host} {base : CString} {links : Nat} {place : Location} {names : List CString}
  {reached : Nat × Location}

theorem walkFrom_extends (grows : host.tree.Extends tree)
    (walked : host.walkFrom links place names = .ok reached) :
    { host with tree }.walkFrom links place names = .ok reached := by
  refine walk_ok_rule walk_nil ?_ ?_ walked
  · intro links place name rest next moved _ again
    have same : tree.enter place name = _ := grows.enter_eq (by simp [moved])
    exact (walk_reach (same.trans moved)).trans again
  · intro links place name rest start expanded moved again
    have same : tree.enter place name = _ := grows.enter_eq (by simp [moved])
    exact (walk_via (same.trans moved)).trans again

theorem present_of_walkFrom (start : host.tree.node place ≠ none)
    (walked : host.walkFrom links place names = .ok reached) :
    host.tree.node reached.2 ≠ none := by
  refine walk_ok_rule id ?_ ?_ walked start
  · exact fun _ _ _ _ _ moved _ present _ => present (present_of_reach moved)
  · exact fun _ _ _ _ _ _ moved present _ => present (present_of_via moved)

theorem descend_extends (grows : host.tree.Extends tree)
    (walked : host.descend base = .ok reached) : { host with tree }.descend base = .ok reached :=
  walkFrom_extends grows walked

variable {last : CString}

theorem child_extends (grows : host.tree.Extends tree)
    (found : host.child place last = .ok location) :
    { host with tree }.child place last = .ok location := by
  obtain ⟨directory, rfl⟩ := child_eq_ok.mp found
  exact child_eq_ok.mpr ⟨grows _ _ directory, rfl⟩

variable {path : CString}

theorem locate_extends (grows : host.tree.Extends tree)
    (located : host.locate path = .ok location) :
    { host with tree }.locate path = .ok location := by
  obtain ⟨_, _, _, shape, walked, found⟩ := locateFrom_eq_ok.mp located
  exact locateFrom_eq_ok.mpr ⟨_, _, _, shape, walkFrom_extends grows walked,
    child_extends grows found⟩

theorem lstat_extends (grows : host.tree.Extends tree) (found : host.lstat path = some entry) :
    { host with tree }.lstat path = some entry := by
  rw [lstat] at found
  split at found
  · rename_i located
    rw [lstat, locate_extends grows located]
    exact grows _ _ found
  · cases found

theorem child_occupied (found : host.child place last = .ok location)
    (known : last = here ∨ last = up ∨ host.tree.node (last :: place) ≠ none) :
    host.tree.node location ≠ none := by
  obtain ⟨directory, rfl⟩ := child_eq_ok.mp found
  by_cases isHere : last = here
  · simp [isHere, directory]
  by_cases isUp : last = up
  · rw [if_neg isHere, if_pos isUp]
    exact present_tail directory
  · rw [if_neg isHere, if_neg isUp]
    exact (known.resolve_left isHere).resolve_left isUp

theorem locate_descended (nonempty : path ≠ [])
    (descended : host.descend path = .ok reached) (located : host.locate path = .ok location) :
    host.tree.node location ≠ none := by
  rw [descend, start_concat_slash host nonempty] at descended
  obtain ⟨last, front, outer, shape, walked, found⟩ := locateFrom_eq_ok.mp located
  by_cases trailing : path.getLast? = some slash
  · rw [if_pos trailing, reverse_concat, cons.injEq] at shape
    exact child_occupied found (.inl shape.1.symm)
  rw [if_neg trailing, append_nil, reverse_eq_cons_iff] at shape
  rw [shape, walkFrom_append, walked] at descended
  have entered : ∀ error, host.tree.enter outer.2 last ≠ .fail error := by
    intro error failed
    change walk host.tree.enter .eloop outer.1 outer.2 [last] = _ at descended
    rw [walk_fail failed] at descended
    cases descended
  exact child_occupied found (directory_of_enter entered).2

theorem linkTarget_trailing (host : Host) (path : CString) :
    host.linkTarget (path ++ [slash]) = none := by
  rw [linkTarget, lstat]
  cases located : host.locate (path ++ [slash]) with
  | error => rfl
  | ok location =>
    have shape : (tokens (path ++ [slash]) ++
        if (path ++ [slash]).getLast? = some slash then [here] else []).reverse =
          here :: (tokens (path ++ [slash])).reverse := by
      rw [if_pos (by simp), reverse_concat]
    obtain ⟨_, _, _, split, -, found⟩ := locateFrom_eq_ok.mp located
    cases shape.symm.trans split
    obtain ⟨directory, rfl⟩ := child_eq_ok.mp found
    simp only [if_true, directory]

theorem descend_of_lstat (found : host.lstat path = some entry)
    (noLink : host.linkTarget path = none) : ∃ reached, host.descend path = .ok reached := by
  have nonempty : path ≠ [] := by
    rintro rfl
    cases found
  rw [linkTarget] at noLink
  rw [lstat] at found noLink
  cases located : host.locate path with
  | error =>
    rw [located] at found
    cases found
  | ok location =>
    rw [located] at found noLink
    rw [descend, start_concat_slash host nonempty]
    obtain ⟨last, front, outer, shape, walked, inside⟩ := locateFrom_eq_ok.mp located
    by_cases trailing : path.getLast? = some slash
    · rw [if_pos trailing, reverse_concat, cons.injEq] at shape
      rw [← shape.2, reverse_reverse] at walked
      exact ⟨outer, walked⟩
    rw [if_neg trailing, append_nil, reverse_eq_cons_iff] at shape
    rw [shape, walkFrom_append, walked]
    have entered : host.tree.enter outer.2 last = .reach location := by
      obtain ⟨directory, rfl⟩ := child_eq_ok.mp inside
      rw [enter, directory]
      simp only
      split
      · rfl
      rename_i notHere
      split
      · rfl
      rename_i notUp
      simp only [if_neg notHere, if_neg notUp] at found noLink
      rw [found] at noLink ⊢
      cases entry with
      | directory | file => rfl
      | link => cases noLink
    exact ⟨_, (walk_reach entered).trans walk_nil⟩

theorem mkdir_descended (nonempty : path ≠ [])
    (descended : host.descend path = .ok reached) : host.mkdir path = host := by
  rw [mkdir]
  split
  · rename_i located
    rw [insert_occupied (locate_descended nonempty descended located)]
  · rfl

end Host

namespace Tree

/-- Put directories at the free locations that names lead through. -/
def insertDirectories (tree : Tree) : Location → List CString → Tree
  | _, [] => tree
  | place, name :: rest =>
    (tree.insert (name :: place) .directory).insertDirectories (name :: place) rest

/-- Nothing but directories stands where names lead through. -/
def Clear (tree : Tree) : Location → List CString → Prop
  | _, [] => True
  | place, name :: rest =>
    (tree.node (name :: place) = none ∨ tree.node (name :: place) = some .directory) ∧
      tree.Clear (name :: place) rest

instance decidableClear (tree : Tree) : ∀ place names, Decidable (tree.Clear place names)
  | _, [] => isTrue trivial
  | place, name :: rest =>
    have := decidableClear tree (name :: place) rest
    inferInstanceAs (Decidable (_ ∧ _))

/-- No name on the way is missing in a directory. -/
def Complete (tree : Tree) : Location → List CString → Prop
  | _, [] => True
  | place, name :: rest =>
    (tree.node place = some .directory → tree.node (name :: place) ≠ none) ∧
      tree.Complete (name :: place) rest

instance decidableComplete (tree : Tree) : ∀ place names, Decidable (tree.Complete place names)
  | _, [] => isTrue trivial
  | place, name :: rest =>
    have := decidableComplete tree (name :: place) rest
    inferInstanceAs (Decidable (_ ∧ _))

variable {place : Location} {names : List CString}

theorem linkAt_insert_directory (tree : Tree) (location place : Location) :
    (tree.insert location .directory).linkAt place = tree.linkAt place := by
  rcases node_insert_or tree location .directory place with same | ⟨-, absent, present⟩
  · rw [linkAt, linkAt, same]
  · rw [linkAt, linkAt, absent, present]

theorem linkAt_insertDirectories (tree : Tree) (place : Location) (names : List CString)
    (location : Location) :
    (tree.insertDirectories place names).linkAt location = tree.linkAt location := by
  induction names generalizing tree place with
  | nil => rfl
  | cons name rest induction => rw [insertDirectories, induction, linkAt_insert_directory]

theorem extends_insertDirectories (tree : Tree) (place : Location) (names : List CString) :
    tree.Extends (tree.insertDirectories place names) := by
  induction names generalizing tree place with
  | nil => exact Extends.refl tree
  | cons name rest induction => exact (extends_insert tree _ _).trans (induction _ _)

theorem insertDirectories_concat (tree : Tree) (place : Location) (front : List CString)
    (last : CString) :
    tree.insertDirectories place (front ++ [last]) =
      (tree.insertDirectories place front).insert (last :: (front.reverse ++ place)) .directory := by
  induction front generalizing tree place with
  | nil => rfl
  | cons name front induction =>
    rw [cons_append, insertDirectories, induction, insertDirectories]
    simp

theorem node_insertDirectories_or (tree : Tree) (place : Location) (names : List CString)
    (location : Location) :
    (tree.insertDirectories place names).node location = tree.node location ∨
      (tree.node location = none ∧
        (tree.insertDirectories place names).node location = some .directory ∧
        ∃ front, front ≠ [] ∧ front <+: names ∧ location = front.reverse ++ place) := by
  induction names generalizing tree place with
  | nil => exact .inl rfl
  | cons name rest induction =>
    rw [insertDirectories]
    rcases node_insert_or tree (name :: place) .directory location with
      same | ⟨rfl, absent, present⟩
    · rcases induction (tree.insert (name :: place) .directory) (name :: place) with
        unchanged | ⟨absent, present, front, -, isFront, rfl⟩
      · exact .inl (unchanged.trans same)
      · refine .inr ⟨same ▸ absent, present, name :: front, cons_ne_nil _ _, ?_, by simp⟩
        exact (prefix_cons_inj name).mpr isFront
    · refine .inr ⟨absent, ?_, [name], cons_ne_nil _ _, ⟨rest, rfl⟩, by simp⟩
      exact extends_insertDirectories _ _ _ _ _ present

theorem clear_concat (front : List CString) (last : CString) :
    tree.Clear place (front ++ [last]) ↔
      tree.Clear place front ∧
        (tree.node (last :: (front.reverse ++ place)) = none ∨
          tree.node (last :: (front.reverse ++ place)) = some .directory) := by
  induction front generalizing place with
  | nil => simp [Clear]
  | cons name front induction => simp [Clear, induction, and_assoc]

theorem clear_of_absent (absent : tree.node place = none) : tree.Clear place names := by
  induction names generalizing place with
  | nil => trivial
  | cons name rest induction =>
    have inner := node_append_eq_none absent [name]
    exact ⟨.inl inner, induction inner⟩

theorem Clear.imp {before after : Tree}
    (kept : ∀ location, before.node location = none ∨ before.node location = some .directory →
      after.node location = none ∨ after.node location = some .directory)
    (clear : before.Clear place names) : after.Clear place names := by
  induction names generalizing place with
  | nil => trivial
  | cons name rest induction => exact ⟨kept _ clear.1, induction clear.2⟩

theorem directory_of_inside {inner : Location} (nonempty : inner ≠ [])
    (present : tree.node (inner ++ location) ≠ none) : tree.node location = some .directory := by
  by_contra other
  obtain ⟨name, front, rfl⟩ := exists_cons_of_ne_nil nonempty
  clear nonempty
  induction front generalizing name with
  | nil => exact present (node_cons_eq_none other name)
  | cons next front induction =>
    have outer : tree.node (next :: front ++ location) ≠ some .directory := by
      intro directory
      refine induction next fun absent => ?_
      rw [directory] at absent
      cases absent
    exact present (node_cons_eq_none outer name)

theorem clear_of_directory {before after : Tree}
    (grown : ∀ location, after.node location = before.node location ∨ before.node location = none)
    (directory : after.node (names.reverse ++ place) = some .directory) :
    before.Clear place names := by
  induction names generalizing place with
  | nil => trivial
  | cons name rest induction =>
    rw [reverse_cons, append_assoc, singleton_append] at directory
    refine ⟨?_, induction directory⟩
    have first : after.node (name :: place) = some .directory := by
      cases shape : rest.reverse with
      | nil => rwa [shape] at directory
      | cons inner front =>
        refine directory_of_inside (cons_ne_nil inner front) ?_
        rw [← shape, directory]
        simp
    rcases grown (name :: place) with same | absent
    · exact .inr (same ▸ first)
    · exact .inl absent

theorem directory_insertDirectories (directory : tree.node place = some .directory)
    (clear : tree.Clear place names) :
    (tree.insertDirectories place names).node (names.reverse ++ place) = some .directory := by
  induction names generalizing tree place with
  | nil => exact directory
  | cons name rest induction =>
    have first : (tree.insert (name :: place) .directory).node (name :: place) =
        some .directory := by
      rcases clear.1 with absent | present
      · rw [node_insert absent directory, if_pos rfl]
      · exact extends_insert tree _ _ _ _ present
    have others : (tree.insert (name :: place) .directory).Clear (name :: place) rest := by
      refine clear.2.imp fun location free => ?_
      rcases node_insert_or tree (name :: place) .directory location with same | ⟨-, -, present⟩
      · rw [same]
        exact free
      · exact .inr present
    rw [insertDirectories, reverse_cons, append_assoc, singleton_append]
    exact induction first others

theorem directory_insertDirectories_iff (directory : tree.node place = some .directory) :
    (tree.insertDirectories place names).node (names.reverse ++ place) = some .directory ↔
      tree.Clear place names := by
  refine ⟨clear_of_directory fun location => ?_, directory_insertDirectories directory⟩
  exact (node_insertDirectories_or tree place names location).imp_right And.left

theorem clear_of_insertDirectories
    (clear : (tree.insertDirectories place names).Clear place names) : tree.Clear place names := by
  refine clear.imp fun location free => ?_
  rcases node_insertDirectories_or tree place names location with same | ⟨absent, -⟩
  · rw [← same]
    exact free
  · exact .inl absent

theorem node_insertDirectories_beyond (beyond : names.length + place.length < location.length) :
    (tree.insertDirectories place names).node location = tree.node location := by
  refine (node_insertDirectories_or tree place names location).resolve_right ?_
  rintro ⟨-, -, _, -, isFront, rfl⟩
  have shorter := isFront.length_le
  rw [length_append, length_reverse] at beyond
  omega

theorem insertDirectories_complete (complete : tree.Complete place names) :
    tree.insertDirectories place names = tree := by
  induction names generalizing place with
  | nil => rfl
  | cons name rest induction =>
    have unchanged : tree.insert (name :: place) .directory = tree := by
      by_cases directory : tree.node place = some .directory
      · exact insert_occupied (complete.1 directory)
      · exact insert_outside directory
    rw [insertDirectories, unchanged]
    exact induction complete.2

theorem exists_inserted (missing : ¬tree.Complete place names) :
    ∃ front, front ≠ [] ∧ front <+: names ∧ tree.node (front.reverse ++ place) = none ∧
      (tree.insertDirectories place names).node (front.reverse ++ place) = some .directory := by
  induction names generalizing place with
  | nil => exact absurd trivial missing
  | cons name rest induction =>
    by_cases first : tree.node place = some .directory → tree.node (name :: place) ≠ none
    · have unchanged : tree.insert (name :: place) .directory = tree := by
        by_cases directory : tree.node place = some .directory
        · exact insert_occupied (first directory)
        · exact insert_outside directory
      obtain ⟨front, -, isFront, absent, present⟩ :=
        induction fun complete => missing ⟨first, complete⟩
      refine ⟨name :: front, cons_ne_nil _ _, (prefix_cons_inj name).mpr isFront, ?_, ?_⟩
      · rw [reverse_cons, append_assoc, singleton_append]
        exact absent
      · rw [reverse_cons, append_assoc, singleton_append, insertDirectories, unchanged]
        exact present
    · obtain ⟨directory, absent⟩ := Classical.not_imp.mp first
      rw [not_not] at absent
      refine ⟨[name], cons_ne_nil _ _, ⟨rest, rfl⟩, absent, ?_⟩
      have inserted : (tree.insert (name :: place) .directory).node (name :: place) =
          some .directory := by
        rw [node_insert absent directory, if_pos rfl]
      exact extends_insertDirectories _ (name :: place) rest _ _ inserted

end Tree

end Foundation
