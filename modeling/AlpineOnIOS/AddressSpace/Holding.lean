import AlpineOnIOS.AddressSpace.Layout
import AlpineOnIOS.Foundation.HostLedger

/-!
# Regions as holders of host memory

A region keeps a pointer to host memory and gives it back unless it is external. The calls of a
space are permitted as long as it releases nothing to which another space has a pointer.
-/

namespace AlpineOnIOS.AddressSpace

open Foundation Foundation.HostMemory List Region

/-- The host memory of a region. -/
def Region.extent (region : Region) : Extent := ⟨region.host, region.size.toNat⟩

/-- The call by which `region_free_host` releases a region that is not external. -/
def Region.giveBack (native : Bool) (region : Region) : HostCall :=
  if hasBit region.flags memMapCalloc then .free region.host
  else if native then .unmap region.host region.size.toNat
  else .free region.host

/-- A region as a holder of memory. -/
def Region.holder (owner : Nat) (native : Bool) (region : Region) : Holder :=
  { owner, extent := region.extent,
    release := if region.external then none else some (region.giveBack native) }

/-- No other owner has a pointer into the memory of a region. -/
def Region.Loose (owner : Nat) (holders : List Holder) (region : Region) : Prop :=
  ∀ other ∈ holders, other.owner ≠ owner → ¬region.extent.Contains other.extent.start

variable {zone : Nat × Nat} {owner : Nat} {native : Bool} {ledger : Ledger} {host : HostMemory}
  {region : Region} {finish : UInt64} {after : HostMemory} {holders : List Holder} {piece : Region}
  {addr : UInt64}

@[simp]
theorem giveBack_false (region : Region) : region.giveBack false = .free region.host := by
  simp [giveBack]

theorem Region.Loose.cons (loose : region.Loose owner holders) (native : Bool) (piece : Region) :
    region.Loose owner (piece.holder owner native :: holders) := by
  intro other member different
  cases mem_cons.mp member with
  | inl same => exact absurd (congrArg Holder.owner same) different
  | inr old => exact loose other old different

theorem Region.Loose.append (loose : region.Loose owner holders) (native : Bool)
    (pieces : List Region) :
    region.Loose owner (pieces.map (holder owner native) ++ holders) := by
  induction pieces with
  | nil => exact loose
  | cons piece rest induction => exact induction.cons native piece

theorem session_regionFreeHost
    (session : Session zone owner ledger host (region.holder owner native :: holders))
    (loose : region.external = false → region.Loose owner holders) :
    Session zone owner ledger (regionFreeHost native host region) holders := by
  cases external : region.external with
  | true =>
    rw [regionFreeHost, if_pos external]
    exact session.sublist (sublist_cons_self _ _)
  | false =>
    have releases : (region.holder owner native).release = some (region.giveBack native) := by
      simp [holder, external]
    have freed : (regionFreeHost native host region).calls = region.giveBack native :: host.calls ∧
        (regionFreeHost native host region).clock = host.clock := by
      simp only [regionFreeHost, giveBack, external, Bool.false_eq_true, if_false]
      split
      · exact ⟨rfl, rfl⟩
      · split <;> exact ⟨rfl, rfl⟩
    exact session.release rfl releases (loose external) freed.1 freed.2

theorem session_free
    (session : Session zone owner ledger host (piece.holder owner false :: holders))
    (internal : piece.external = false) (loose : piece.Loose owner holders) :
    Session zone owner ledger (host.free piece.host) holders :=
  session.release rfl (by simp [holder, internal]) loose rfl rfl

variable {source : Pointer} {buffer : Pointer}

section

variable (session : Session zone owner ledger host holders)

include session

theorem session_request {granted : Bool}
    (requested : host.request = (granted, after)) : Session zone owner ledger after holders := by
  cases requested
  exact session.congr rfl (Nat.le_succ _)

/-- A piece that gets a new buffer is loose and holds it. -/
theorem session_copyOut {size : UInt64} {outcome : Option Pointer}
    (copied : copyOut host source size = (outcome, after)) :
    outcome.elim (Session zone owner ledger after holders) fun buffer => ∀ piece : Region,
      piece.host = buffer → piece.Loose owner holders ∧
        Session zone owner ledger after (piece.holder owner false :: holders) := by
  rw [copyOut] at copied
  split at copied
  · rename_i called
    cases copied
    cases calloc_eq_none called
    exact session.congr rfl (Nat.le_succ _)
  rename_i middle called
  cases copied
  intro piece buffered
  have held : Session zone owner ledger middle (piece.holder owner false :: holders) := by
    refine session.calloc called rfl buffered fun call gives => ?_
    simp only [holder, giveBack_false] at gives
    split at gives
    · cases gives
    · cases gives
      rw [buffered]
  refine ⟨fun other member _ => ?_, held.congr (calls_store _ _ _ _).1 (calls_store _ _ _ _).2.ge⟩
  rw [extent, buffered, (calloc_eq_some called).1]
  exact session.tidy.not_contains_next other member

theorem session_pieceBuffer {outcome : Option Region}
    (buffered : pieceBuffer false host region piece = (outcome, after)) :
    outcome.elim (Session zone owner ledger after holders) fun made =>
      made.flags = piece.flags ∧ made.Loose owner holders ∧
        Session zone owner ledger after (made.holder owner false :: holders) := by
  simp only [pieceBuffer, Bool.false_eq_true, if_false] at buffered
  split at buffered
  · rename_i copied
    cases buffered
    exact session_copyOut session copied
  · rename_i copied
    cases buffered
    exact ⟨rfl, session_copyOut session copied _ rfl⟩

end

section

variable (session : Session zone owner ledger host (region.holder owner false :: holders))

include session

/-- A part of an interpreted region in the same buffer; one that gives it back is the front. -/
theorem session_part
    (count : Nat) (flags : piece.flags = region.flags) (buffer : piece.host = region.host.add count)
    (front : region.external = false → count = 0)
    (size : count + piece.size.toNat ≤ region.size.toNat) (positive : 0 < piece.size.toNat) :
    Session zone owner ledger host (piece.holder owner false :: holders) := by
  have external : piece.external = region.external := by
    rw [external, flags, external]
  refine ⟨session.permitted, session.tidy.trade rfl ?_
    (Extent.contains_start positive piece.host) fun call gives => ?_⟩
  · change (⟨piece.host, piece.size.toNat⟩ : Extent).Within ⟨region.host, region.size.toNat⟩
    rw [buffer]
    exact Extent.within_add size
  · simp only [holder, giveBack_false, external] at gives ⊢
    split at gives
    · cases gives
    rename_i internal
    have same : piece.host = region.host := by
      rw [buffer, front (Bool.not_eq_true _ ▸ internal), Pointer.add_zero]
    cases gives
    rw [if_neg internal, same]
    exact ⟨rfl, .inl (congrArg HostCall.free same.symm)⟩

omit session in
theorem toNat_sub_base (above : region.base < addr) (inside : addr < region.rend) :
    0 < (addr - region.base).toNat ∧ (addr - region.base).toNat < region.size.toNat ∧
      (region.size - (addr - region.base)).toNat =
        region.size.toNat - (addr - region.base).toNat := by
  rw [rend] at inside
  have lower := UInt64.lt_iff_toNat_lt.mp above
  have upper := UInt64.lt_iff_toNat_lt.mp inside
  rw [UInt64.toNat_add] at upper
  have distance := UInt64.toNat_sub_of_le _ _ (UInt64.le_of_lt above)
  have small : (addr - region.base).toNat < region.size.toNat := by
    omega
  exact ⟨by omega, small, UInt64.toNat_sub_of_le _ _ (UInt64.le_iff_toNat_le.mpr small.le)⟩

omit session in
/-- `unmap_range` may be asked to skip a region, or to release what no other owner points into. -/
def Region.Touchable (owner : Nat) (native : Bool) (addr finish : UInt64) (holders : List Holder)
    (region : Region) : Prop :=
  region.Skipped addr finish ∨
    (native = true → region.base ≥ addr ∧ region.rend ≤ finish) ∧
      (region.external = false → region.Loose owner holders)

theorem session_splitRegion
    (lower : region.base < addr) (inside : addr < region.rend) {outcome : Cut}
    (split : splitRegion false host region addr finish = (outcome, after)) :
    (∃ kept tail, outcome = .split kept tail ∧ Session zone owner ledger after
        (kept.holder owner false :: tail.holder owner false :: holders)) ∨
      outcome = .keep region ∧ Session zone owner ledger after
        (region.holder owner false :: holders) := by
  rw [splitRegion] at split
  split at split
  · rename_i requested
    cases split
    exact .inr ⟨rfl, session_request session requested⟩
  rename_i requested
  have asked := session_request session requested
  split at split
  · rename_i copied
    cases split
    exact .inr ⟨rfl, session_copyOut asked copied⟩
  rename_i buffer final copied
  cases split
  obtain ⟨positive, small, _⟩ := toNat_sub_base lower inside
  refine .inl ⟨_, _, rfl, ?_⟩
  obtain ⟨-, tailHeld⟩ := session_copyOut asked copied
    { base := finish, size := region.rend - finish, prot := region.prot,
      flags := region.flags &&& ~~~memMapExternal, host := buffer } rfl
  exact session_part (tailHeld.perm (.swap ..)) 0 rfl
    (Pointer.add_zero _).symm (fun _ => rfl) (by simpa using small.le) positive

theorem session_trimStart
    (inside : region.base < finish) (upper : finish < region.rend)
    (loose : region.external = false → region.Loose owner holders) {outcome : Cut}
    (trimmed : trimStart false host region finish = (outcome, after)) :
    ∃ kept, outcome = .keep kept ∧
      Session zone owner ledger after (kept.holder owner false :: holders) := by
  obtain ⟨_, _, _⟩ := toNat_sub_base inside upper
  rw [trimStart] at trimmed
  simp only [Bool.false_eq_true, if_false] at trimmed
  cases external : region.external with
  | true =>
    rw [external, if_pos rfl] at trimmed
    cases trimmed
    refine ⟨_, rfl, session_part session (finish - region.base).toNat rfl rfl ?_ ?_ ?_⟩
    · rw [external]
      exact fun internal => Bool.noConfusion internal
    · change (finish - region.base).toNat + (region.size - (finish - region.base)).toNat ≤ _
      omega
    · change 0 < (region.size - (finish - region.base)).toNat
      omega
  | false =>
    rw [external, if_neg Bool.false_ne_true] at trimmed
    split at trimmed
    · rename_i copied
      cases trimmed
      exact ⟨region, rfl, session_copyOut session copied⟩
    rename_i buffer middle copied
    cases trimmed
    obtain ⟨-, both⟩ := session_copyOut session copied
      { region with
        base := finish
        size := region.size - (finish - region.base)
        host := buffer } rfl
    exact ⟨_, rfl, session_free (both.perm (.swap ..)) external ((loose external).cons false _)⟩

end

theorem session_unmapPieces
    (session : Session zone owner ledger host (region.holder owner native :: holders))
    (touchable : region.Touchable owner native addr finish holders) :
    Session zone owner ledger (unmapPieces native addr finish host region).2
      ((unmapPieces native addr finish host region).1.map (holder owner native) ++ holders) := by
  rw [unmapPieces]
  generalize result : cutRegion native addr finish host region = cut
  obtain ⟨_, _⟩ := cut
  rw [cutRegion] at result
  split at result
  · cases result
    exact session
  rename_i meets
  obtain ⟨uncut, loose⟩ := touchable.resolve_left meets
  rw [Region.Skipped, not_or, UInt64.not_le, ge_iff_le, UInt64.not_le] at meets
  split at result
  · cases result
    exact session_regionFreeHost session loose
  rename_i partly
  cases native with
  | true => exact absurd (uncut rfl) partly
  | false =>
    split at result
    · rename_i around
      obtain ⟨_, _, rfl, held⟩ | ⟨rfl, held⟩ :=
        session_splitRegion session around.1 meets.1 result
      · exact held
      · exact held
    rename_i oneSided
    split at result
    · rename_i lower
      cases result
      obtain ⟨positive, small, _⟩ := toNat_sub_base lower meets.1
      exact session_part session 0 rfl (Pointer.add_zero _).symm (fun _ => rfl)
        (by simpa using small.le) positive
    rename_i upper
    have beyond : finish < region.rend := by
      rw [← UInt64.not_le]
      exact fun covered => partly ⟨UInt64.not_lt.mp upper, covered⟩
    obtain ⟨_, rfl, held⟩ := session_trimStart session meets.2 beyond loose result
    exact held

/-- `mem_mprotect` may be asked to skip or cover a region, or to cut a loose one in a buffer. -/
def Region.Protectable (owner : Nat) (native : Bool) (addr finish : UInt64) (holders : List Holder)
    (region : Region) : Prop :=
  region.Skipped addr finish ∨
    region.overlapStart addr = region.base ∧ region.overlapEnd finish = region.rend ∨
    native = false ∧ region.external = false ∧ region.Loose owner holders

section

variable (session : Session zone owner ledger host (region.holder owner false :: holders))

include session

theorem session_shrinkBuffer
    (internal : region.external = false) (loose : region.Loose owner holders) {newsize : UInt64}
    (shrunk : shrinkBuffer false host region newsize = (buffer, after))
    (small : newsize.toNat ≤ region.size.toNat) (positive : 0 < newsize.toNat)
    (flags : piece.flags = region.flags) (sized : piece.size = newsize)
    (buffered : piece.host = buffer) :
    Session zone owner ledger after (piece.holder owner false :: holders) := by
  simp only [shrinkBuffer, Bool.false_eq_true, if_false] at shrunk
  split at shrunk
  · rename_i copied
    cases shrunk
    refine session_part (session_copyOut session copied) 0 flags ?_ (fun _ => rfl) ?_
      (sized ▸ positive)
    · rw [buffered, Pointer.add_zero]
    · rw [sized, Nat.zero_add]
      exact small
  · rename_i copied
    cases shrunk
    obtain ⟨-, both⟩ := session_copyOut session copied piece buffered
    exact session_free (both.perm (.swap ..)) internal (loose.cons false piece)

omit session in
/-- The holders after `mem_mprotect` has dealt with a region, or has broken off. -/
def HeldAfter (zone : Nat × Nat) (owner : Nat) (native : Bool) (ledger : Ledger) (region : Region)
    (holders : List Holder) : Protection × HostMemory → Prop
  | (none, after) =>
    Session zone owner ledger after (region.holder owner native :: holders)
  | (some (left, ahead), after) =>
    Session zone owner ledger after
      ((left ++ ahead).map (Region.holder owner native) ++ holders)

omit session in
theorem heldAfter_finishInside {middle : Region} {tail : List Region}
    (session : Session zone owner ledger host
      (region.holder owner false :: ((middle :: tail).map (holder owner false) ++ holders)))
    (internal : region.external = false) (loose : region.Loose owner holders)
    (lower : region.base < middle.base) (inside : middle.base < region.rend) :
    HeldAfter zone owner false ledger region holders
      (finishInside false host region middle tail) := by
  obtain ⟨positive, small, _⟩ := toNat_sub_base lower inside
  rw [finishInside]
  cases shrunk : shrinkBuffer false host region (middle.base - region.base) with
  | mk =>
    simp only [hostMprotectRegion, Bool.not_false, if_true]
    exact session_shrinkBuffer session internal (loose.append false (middle :: tail)) shrunk
      small.le positive rfl rfl rfl

theorem heldAfter_protectInside {prot : UInt32} {overlapStart overlapEnd : UInt64}
    (internal : region.external = false) (loose : region.Loose owner holders)
    (lower : region.base < overlapStart) (inside : overlapStart < region.rend) :
    HeldAfter zone owner false ledger region holders
      (protectInside false prot host region overlapStart overlapEnd) := by
  rw [protectInside]
  split
  · rename_i requested
    exact session_request session requested
  rename_i requested
  have asked := session_request session requested
  split
  · rename_i buffered
    exact session_pieceBuffer asked buffered
  rename_i middle middleHost buffered
  obtain ⟨middleFlags, middleLoose, held⟩ := session_pieceBuffer asked buffered
  have middleBase : middle.base = overlapStart := base_of_pieceBuffer buffered
  have middleInternal : middle.external = false := by
    rw [external, middleFlags]
    exact internal
  rw [← middleBase] at lower inside
  have front := held.perm (.swap ..)
  split
  · split
    · rename_i again
      exact session_free (session_request held again) middleInternal middleLoose
    rename_i again
    split
    · rename_i refused
      exact session_free (session_pieceBuffer (session_request held again) refused)
        middleInternal middleLoose
    rename_i tailed
    obtain ⟨_, _, both⟩ := session_pieceBuffer (session_request held again) tailed
    refine heldAfter_finishInside (both.perm ?_) internal loose lower inside
    exact ((List.Perm.swap _ _ _).cons _).trans
      ((List.Perm.swap _ _ _).trans ((List.Perm.swap _ _ _).cons _))
  · exact heldAfter_finishInside front internal loose lower inside

theorem heldAfter_protectStart {prot : UInt32} {overlapEnd : UInt64}
    (internal : region.external = false) (loose : region.Loose owner holders)
    (lower : region.base < overlapEnd) (inside : overlapEnd < region.rend) :
    HeldAfter zone owner false ledger region holders
      (protectStart false prot host region overlapEnd) := by
  obtain ⟨positive, small, _⟩ := toNat_sub_base lower inside
  rw [protectStart]
  split
  · rename_i requested
    exact session_request session requested
  rename_i requested
  have asked := session_request session requested
  split
  · rename_i buffered
    exact session_pieceBuffer asked buffered
  rename_i tail tailHost buffered
  obtain ⟨_, _, held⟩ := session_pieceBuffer asked buffered
  cases shrunk : shrinkBuffer false tailHost region (overlapEnd - region.base) with
  | mk =>
    simp only [hostMprotectRegion, Bool.not_false, if_true]
    exact session_shrinkBuffer (held.perm (.swap ..)) internal
      (loose.cons false tail) shrunk small.le positive rfl rfl rfl

end

theorem session_hostMprotectRegion (session : Session zone owner ledger host holders) :
    Session zone owner ledger (hostMprotectRegion native host region) holders := by
  rw [hostMprotectRegion]
  split
  · exact session
  split
  · exact session
  · exact ⟨⟨trivial, session.permitted⟩, session.tidy⟩

theorem heldAfter_protectRegion (prot : UInt32)
    (session : Session zone owner ledger host (region.holder owner native :: holders))
    (protectable : region.Protectable owner native addr finish holders) :
    HeldAfter zone owner native ledger region holders
      (protectRegion native addr finish prot host region) := by
  rw [protectRegion]
  split
  · exact session
  rename_i meets
  simp only
  split
  · exact session_hostMprotectRegion session
  rename_i partly
  obtain ⟨rfl, internal, loose⟩ := (protectable.resolve_left meets).resolve_left partly
  rw [Region.Skipped, not_or, UInt64.not_le, ge_iff_le, UInt64.not_le] at meets
  by_cases above : addr > region.base
  · have start : region.overlapStart addr = addr := if_pos above
    rw [start, if_pos above]
    exact heldAfter_protectInside session internal loose above meets.1
  have start : region.overlapStart addr = region.base := if_neg above
  have upper : finish < region.rend := by
    by_contra beyond
    exact partly ⟨start, if_neg beyond⟩
  have stop : region.overlapEnd finish = finish := if_pos upper
  rw [start, if_neg (UInt64.lt_irrefl _), stop]
  exact heldAfter_protectStart session internal loose meets.2 upper

variable {rest : List Holder} {regions : List Region}

/-- All regions that a traversal has passed or has ahead of it. -/
def Passage.all (passage : Passage) : List Region := passage.passed ++ passage.ahead

theorem Passage.perm_insert (passage : Passage) (region : Region) :
    (passage.insert region).all.Perm (region :: passage.all) := by
  rw [Passage.insert]
  split
  · exact (regionInsert_perm _ _).append_right _
  split
  · rename_i empty
    simp only [Passage.all, Passage.leave, empty, append_nil]
    exact perm_append_singleton _ _
  rename_i next others more
  split
  · simp only [Passage.all, Passage.leave, append_assoc]
    exact perm_middle
  · exact ((regionInsert_perm _ _).append_left _).trans perm_middle

theorem perm_here (passed next : List Region) (region : Region) :
    ((passed ++ region :: next).map (holder owner native) ++ rest).Perm
      (region.holder owner native :: ((passed ++ next).map (holder owner native) ++ rest)) :=
  (perm_middle.map (holder owner native)).append_right rest

theorem Region.Touchable.append (touchable : region.Touchable owner native addr finish rest)
    (pieces : List Region) :
    region.Touchable owner native addr finish (pieces.map (holder owner native) ++ rest) :=
  touchable.imp_right fun both =>
    ⟨both.1, fun internal => (both.2 internal).append native pieces⟩

theorem Region.Protectable.append (protectable : region.Protectable owner native addr finish rest)
    (pieces : List Region) :
    region.Protectable owner native addr finish (pieces.map (holder owner native) ++ rest) :=
  protectable.imp_right fun either => either.imp_right fun both =>
    ⟨both.1, both.2.1, both.2.2.append native pieces⟩

section

variable (invariant : List Region → HostMemory → Prop) {ready : Region → Prop}
  (permutes : ∀ {first second host}, first.Perm second → invariant first host →
    invariant second host)
  (start : invariant regions host) (all : ∀ region ∈ regions, ready region)

include permutes start all

/-- What a traversal keeps, one region after the other, whatever their order. -/
theorem traversal_rule {step : Passage × HostMemory →
      Control (Passage × HostMemory) (List Region × HostMemory)}
    {measure : Passage × HostMemory → Nat}
    (decreases : ∀ {state following}, step state = .next following →
      measure following < measure state)
    (exits : ∀ passed host, step (⟨passed, []⟩, host) = .exit (passed, host))
    (steps : ∀ {passed region next host}, ready region →
      invariant (region :: (passed ++ next)) host →
      match step (⟨passed, region :: next⟩, host) with
      | .next following => invariant following.1.all following.2 ∧
          ∀ other ∈ following.1.ahead, other ∈ next ∨ ready other
      | .exit result => invariant result.1 result.2) :
    invariant (runLoop decreases (⟨[], regions⟩, host)).1
      (runLoop decreases (⟨[], regions⟩, host)).2 := by
  refine runLoop_rule decreases
    (fun state => invariant state.1.all state.2 ∧ ∀ region ∈ state.1.ahead, ready region)
    (fun result => invariant result.1 result.2)
    (fun {state following} stepped holds => ?_) (fun {state result} stepped holds => ?_)
    ⟨start, all⟩
  all_goals
    obtain ⟨⟨passed, ahead⟩, host⟩ := state
    obtain ⟨kept, waiting⟩ := holds
    cases ahead with
    | nil =>
      cases (exits passed host).symm.trans stepped
      try exact append_nil passed ▸ kept
    | cons region next =>
      rw [forall_mem_cons] at waiting
      have after := steps waiting.1 (permutes perm_middle kept)
      rw [stepped] at after
      first
        | exact after
        | exact ⟨after.1, fun other member => (after.2 other member).elim (waiting.2 other) id⟩

theorem unmapRange_rule {size : UInt64} (tails : ∀ tail, tail.base = addr + size → ready tail)
    (cuts : ∀ {region others host}, ready region → invariant (region :: others) host →
      invariant ((unmapPieces native addr (addr + size) host region).1 ++ others)
        (unmapPieces native addr (addr + size) host region).2) :
    invariant (unmapRange native host regions addr size).1
      (unmapRange native host regions addr size).2 := by
  refine traversal_rule invariant permutes start all (pending_unmapStep native addr (addr + size))
    (fun _ _ => rfl) fun {passed region next host} waiting kept => ?_
  have changed := cuts waiting kept
  rw [unmapPieces] at changed
  rw [unmapStep]
  cases result : cutRegion native addr (addr + size) host region with
  | mk outcome after =>
    rw [result] at changed
    cases outcome with
    | drop => exact ⟨changed, fun _ => .inl⟩
    | keep kept =>
      refine ⟨permutes ?_ changed, fun _ => .inl⟩
      simp only [Passage.all, append_assoc]
      exact perm_append_comm_assoc [kept] passed next
    | split kept tail =>
      refine ⟨permutes (.trans ?_ (Passage.perm_insert _ _).symm) changed, fun other member => ?_⟩
      · simp only [Passage.all, append_assoc]
        exact (List.Perm.swap ..).trans ((perm_append_comm_assoc [kept] passed next).cons tail)
      · cases Passage.ahead_insert ⟨passed ++ [kept], next⟩ tail with
        | inl same => exact .inl (same.subst (motive := (other ∈ ·)) member)
        | inr permuted =>
          refine (mem_cons.mp (permuted.mem_iff.mp member)).symm.imp_right fun new => ?_
          exact new ▸ tails tail (cutRegion_eq_split result).2

theorem memMprotect_rule {space : Space} (regular : space.regions = regions) {size : UInt64}
    {prot : UInt32}
    (tails : ∀ tail, tail.base = pageAlignDown addr + pageAlignUp size → ready tail)
    (cuts : ∀ {region others host}, ready region → invariant (region :: others) host →
      match protectRegion space.aotMode (pageAlignDown addr)
        (pageAlignDown addr + pageAlignUp size) prot host region with
      | (none, after) => invariant (region :: others) after
      | (some (left, ahead), after) => invariant (left ++ ahead ++ others) after) :
    invariant (memMprotect space host addr size prot).1.regions
      (memMprotect space host addr size prot).2 := by
  subst regular
  refine traversal_rule invariant permutes start all (pending_protectStep space.aotMode _ _ prot)
    (fun _ _ => rfl) fun {passed region next host} waiting kept => ?_
  have changed := cuts waiting kept
  split at changed
  · rename_i broken
    rw [protectStep, broken]
    exact permutes perm_middle.symm changed
  · rename_i left ahead after cut
    rw [protectStep, cut]
    refine ⟨permutes ?_ changed, fun other member => ?_⟩
    · simp only [Passage.all, append_assoc]
      exact ((perm_append_comm_assoc ahead passed next).append_left left).trans
        (perm_append_comm_assoc left passed (ahead ++ next))
    · refine (mem_append.mp member).symm.imp_right fun new => ?_
      obtain rfl | ⟨_, _, rfl, base⟩ := protectRegion_eq_some cut
      · exact absurd new not_mem_nil
      · exact mem_singleton.mp new ▸ tails _ base

end

theorem session_unmapRange {size : UInt64}
    (session : Session zone owner ledger host (regions.map (holder owner native) ++ rest))
    (touchable : ∀ region ∈ regions, region.Touchable owner native addr (addr + size) rest) :
    Session zone owner ledger (unmapRange native host regions addr size).2
      ((unmapRange native host regions addr size).1.map (holder owner native) ++ rest) := by
  refine unmapRange_rule
    (fun regions host => Session zone owner ledger host (regions.map (holder owner native) ++ rest))
    (fun permuted held => held.perm ((permuted.map _).append_right rest)) session touchable
    (fun tail base => .inl (.inr (UInt64.le_of_eq base.symm)))
    fun {region others _} ready held => ?_
  rw [map_append, append_assoc]
  exact session_unmapPieces held (ready.append others)

theorem session_memMprotect {space : Space} {size : UInt64} {prot : UInt32}
    (session : Session zone owner ledger host
      (space.regions.map (holder owner space.aotMode) ++ rest))
    (protectable : ∀ region ∈ space.regions,
      region.Protectable owner space.aotMode (pageAlignDown addr)
        (pageAlignDown addr + pageAlignUp size) rest) :
    Session zone owner ledger (memMprotect space host addr size prot).2
      ((memMprotect space host addr size prot).1.regions.map
        (holder owner space.aotMode) ++ rest) := by
  refine memMprotect_rule (fun regions host =>
      Session zone owner ledger host (regions.map (holder owner space.aotMode) ++ rest))
    (fun permuted held => held.perm ((permuted.map _).append_right rest)) session protectable rfl
    (fun tail base => .inl (.inr (UInt64.le_of_eq base.symm)))
    fun {region others host} ready held => ?_
  have changed := heldAfter_protectRegion prot held (ready.append others)
  split
  · rename_i broken
    rw [broken] at changed
    exact changed
  · rename_i cut
    rw [cut] at changed
    rw [map_append, append_assoc]
    exact changed

end AlpineOnIOS.AddressSpace
