import AlpineOnIOS.Futex.Table

/-!
# How often a requeue visits a waiter

After a move `futex_requeue` stays at the link that it came from.  The node behind that link is a
new one, unless the link is the head of the bucket that the waiter was moved to: then the waiter
itself is met again.
-/

namespace AlpineOnIOS.Futex

open Foundation List Function

/-- The test of `futex_requeue`. -/
def awaits (waiter : FutexWaiter) (source : UInt64) : Bool :=
  waiter.addr == source && !waiter.woken

variable (waiter : Nat → FutexWaiter)

/-- The unwoken waiters on an address, in the order of a chain. -/
def candidates (source : UInt64) (chain : List Nat) : List Nat :=
  chain.filter fun w => awaits (waiter w) source

/-- The records after some waiters were woken and others moved to an address. -/
def requeueAll (marked moved : List Nat) (target : UInt64) (w : Nat) :
    FutexWaiter :=
  if w ∈ marked then { waiter w with woken := true }
  else if w ∈ moved then { waiter w with addr := target }
  else waiter w

/-- Marked waiters are woken, moved ones are behind their new address, and the rest is as it was. -/
structure Requeued (table : Table) (chains : Fin 256 → List Nat) (marked moved : List Nat)
    (target : UInt64) (after : Table) : Prop where
  waiter : after.waiter = requeueAll table.waiter marked moved target
  members : ∃ chainsAfter, Represents after.links chainsAfter ∧ ∀ bucket w,
    w ∈ chainsAfter bucket ↔
      (w ∈ moved ∧ bucket = futexHashFn target) ∨ (w ∉ moved ∧ w ∈ chains bucket)

/-- At most one iteration for each waiter wakes and moves as many of them as it may. -/
def RequeuesOnce (table : Table) (chains : Fin 256 → List Nat) (source target : UInt64)
    (wakeCount requeueLimit : Int) : Prop :=
  let chain := chains (futexHashFn source)
  let waiting := candidates table.waiter source chain
  ∃ after, ∃ marked moved : List Nat,
    -- The last test of the loop starts no iteration.
    futexRequeue (chain.length + 1) table source target wakeCount requeueLimit =
        some (after, (marked.length : Int)) ∧
      (marked ++ moved).Nodup ∧ marked ++ moved ⊆ waiting ∧
      marked.length = min wakeCount.toNat waiting.length ∧
      moved.length = min requeueLimit.toNat (waiting.length - marked.length) ∧
      Requeued table chains marked moved target after

/-- The first iteration moves a waiter back to the link where it was found. -/
def ComesBack (table : Table) (chains : Fin 256 → List Nat) (source target : UInt64)
    (wakeCount requeueLimit : Int) : Prop :=
  futexHashFn source = futexHashFn target ∧ wakeCount = 0 ∧ 0 < requeueLimit ∧
    ∃ w ∈ (chains (futexHashFn source)).head?, awaits (table.waiter w) source = true

theorem awaits_eq_true {waiter : FutexWaiter} {source : UInt64} :
    awaits waiter source = true ↔ ¬(waiter.addr ≠ source ∨ waiter.woken = true) := by
  simp [awaits]

variable {waiter} {w : Nat} {source : UInt64} {chain : List Nat}

theorem candidates_cons_of_pos (wanted : awaits (waiter w) source = true) :
    candidates waiter source (w :: chain) = w :: candidates waiter source chain :=
  filter_cons_of_pos (by exact wanted)

theorem candidates_cons_of_neg (unwanted : ¬awaits (waiter w) source = true) :
    candidates waiter source (w :: chain) = candidates waiter source chain :=
  filter_cons_of_neg (by exact unwanted)

theorem candidates_update (outside : w ∉ chain) (record : FutexWaiter) :
    candidates (update waiter w record) source chain = candidates waiter source chain := by
  refine filter_congr fun other member => ?_
  rw [update_of_ne]
  rintro rfl
  exact outside member

theorem not_mem_candidates (outside : w ∉ chain) : w ∉ candidates waiter source chain :=
  fun member => outside (mem_of_mem_filter member)

variable {table : Table} {chains : Fin 256 → List Nat} {target : UInt64} {h : Fin 256}
  {rest : List Nat} {after : Table} {marked moved : List Nat}

theorem Requeued.refl (represents : Represents table.links chains) (target : UInt64) :
    Requeued table chains [] [] target table :=
  { waiter := by
      funext w
      simp [requeueAll]
    members := ⟨chains, represents, by simp⟩ }

theorem Requeued.mark (unmoved : w ∉ moved)
    (rest : Requeued { table with waiter := mark table.waiter w } chains marked moved target
      after) :
    Requeued table chains (w :: marked) moved target after := by
  refine ⟨?_, rest.members⟩
  rw [rest.waiter]
  funext other
  by_cases same : other = w
  · subst same
    simp [requeueAll, Futex.mark, unmoved]
  · simp [requeueAll, Futex.mark, same]

theorem Requeued.move {before : List Nat} (represents : Represents table.links chains)
    (chain : chains h = before ++ w :: rest) (unmarked : w ∉ marked) (unmoved : w ∉ moved)
    (others : Requeued (moveWaiter table (.behind h before) w target)
      (movedChains chains h (before ++ rest) (futexHashFn target) w) marked moved target after) :
    Requeued table chains marked (w :: moved) target after := by
  obtain ⟨chainsAfter, representsAfter, members⟩ := others.members
  refine ⟨?_, chainsAfter, representsAfter, fun bucket other => ?_⟩
  · rw [others.waiter]
    funext other
    by_cases same : other = w
    · subst same
      simp [requeueAll, moveWaiter, unmarked, unmoved]
    · simp [requeueAll, moveWaiter, same]
  · rw [members, mem_movedChains represents chain]
    by_cases same : other = w
    · subst same
      simp [unmoved]
    · simp [same]

theorem exists_front_movedChains (chains : Fin 256 → List Nat) {target : Fin 256}
    {before : List Nat} (rest : List Nat) (w : Nat) (leaves : before ≠ [] ∨ h ≠ target) :
    ∃ front, movedChains chains h (before ++ rest) target w h = front ++ rest ∧
      Cursor.behind h front = Cursor.behind h before ∧ (front ≠ [] ∨ h ≠ target) := by
  by_cases same : h = target
  · subst same
    have nonempty : before ≠ [] := leaves.resolve_right (not_not.mpr rfl)
    refine ⟨w :: before, by simp [movedChains], Cursor.behind_cons h w nonempty, ?_⟩
    exact .inl (cons_ne_nil _ _)
  · exact ⟨before, by simp [movedChains, same], rfl, .inr same⟩

variable {fuel : Nat}

/-- Each iteration passes a node, unless the first one moves a waiter back to the link. -/
theorem requeueLoop_once (source target : UInt64) (wakeCount requeueLimit : Int)
    {before : List Nat} (represents : Represents table.links chains)
    (chain : chains h = before ++ rest) (woken requeued : Int)
    (leaves : (before ≠ [] ∨ h ≠ futexHashFn target) ∨ ¬(wakeCount ≤ woken ∧
      requeued < requeueLimit ∧ ∃ w ∈ rest.head?, awaits (table.waiter w) source = true))
    (enough : rest.length < fuel) :
    ∃ after, requeueLoop source target wakeCount requeueLimit fuel table (.behind h before) woken
          requeued = some (after, woken +
            (((candidates table.waiter source rest).take (wakeCount - woken).toNat).length : Int)) ∧
        Requeued table chains ((candidates table.waiter source rest).take (wakeCount - woken).toNat)
          (((candidates table.waiter source rest).drop (wakeCount - woken).toNat).take
            (requeueLimit - requeued).toNat) target after := by
  induction rest generalizing fuel table chains before woken requeued with
  | nil =>
    obtain ⟨_, rfl⟩ := Nat.exists_eq_add_one_of_ne_zero (Nat.ne_zero_of_lt enough)
    rw [requeueLoop, represents.read_behind chain]
    refine ⟨table, by simp [candidates], ?_⟩
    simpa [candidates] using Requeued.refl represents target
  | cons w rest induction =>
    obtain ⟨fuel, rfl⟩ := Nat.exists_eq_add_one_of_ne_zero (Nat.ne_zero_of_lt enough)
    have enoughRest : rest.length < fuel := Nat.lt_of_succ_lt_succ enough
    have next : chains h = (before ++ [w]) ++ rest := by simp [chain]
    have behindNode : before ++ [w] ≠ [] ∨ h ≠ futexHashFn target := .inl (by simp)
    have outside : w ∉ rest := by
      have nodup := represents.nodup h
      rw [chain] at nodup
      exact (nodup_cons.mp nodup.of_append_right).1
    have passOver := induction represents next woken requeued (.inl behindNode) enoughRest
    rw [Cursor.behind_concat] at passOver
    rw [requeueLoop, represents.read_behind chain]
    simp only [head?_cons]
    split
    · rename_i unwanted
      rw [candidates_cons_of_neg (by rwa [awaits_eq_true, not_not])]
      exact passOver
    rename_i wanted
    rw [← awaits_eq_true] at wanted
    rw [candidates_cons_of_pos wanted]
    split
    · rename_i more
      have limit : (wakeCount - woken).toNat = (wakeCount - (woken + 1)).toNat + 1 := by omega
      have marking : Represents ({ table with waiter := mark table.waiter w } : Table).links
          chains := represents
      obtain ⟨after, returned, others⟩ :=
        induction marking next (woken + 1) requeued (.inl behindNode) enoughRest
      simp only [mark, candidates_update outside] at returned others
      rw [Cursor.behind_concat] at returned
      rw [limit, take_succ_cons, drop_succ_cons]
      refine ⟨after, ?_, others.mark ?_⟩
      · rw [mark, returned, length_cons]
        congr 2
        omega
      · intro member
        exact not_mem_candidates outside (mem_of_mem_drop (mem_of_mem_take member))
    · rename_i full
      have none : (wakeCount - woken).toNat = 0 := by omega
      rw [none] at passOver ⊢
      rw [take_zero, drop_zero] at passOver ⊢
      split
      · rename_i more
        have limit : (requeueLimit - requeued).toNat =
            (requeueLimit - (requeued + 1)).toNat + 1 := by omega
        have away : before ≠ [] ∨ h ≠ futexHashFn target :=
          leaves.resolve_right (not_not.mpr ⟨by omega, more, w, rfl, wanted⟩)
        obtain ⟨_, chainFront, cursor, awayFront⟩ :=
          exists_front_movedChains chains rest w away
        obtain ⟨after, returned, others⟩ :=
          induction (rearranged_moveWaiter represents chain target).represents chainFront
            woken (requeued + 1) (.inl awayFront) enoughRest
        simp only [none, take_zero, drop_zero, moveWaiter,
          candidates_update outside] at returned others
        rw [cursor] at returned
        rw [limit, take_succ_cons]
        refine ⟨after, by rw [moveWaiter, returned], ?_⟩
        refine Requeued.move represents chain not_mem_nil ?_ others
        exact fun member => not_mem_candidates outside (mem_of_mem_take member)
      · rename_i exhausted
        have noMove : (requeueLimit - requeued).toNat = 0 := by omega
        rw [noMove] at passOver ⊢
        exact passOver

/-- The loop needs a test for each node behind the link and one more for the end. -/
theorem requeueLoop_eq_none (source target : UInt64) (wakeCount requeueLimit : Int)
    {before : List Nat} (represents : Represents table.links chains)
    (chain : chains h = before ++ rest) (woken requeued : Int) (few : fuel ≤ rest.length) :
    requeueLoop source target wakeCount requeueLimit fuel table (.behind h before) woken requeued =
      none := by
  induction fuel generalizing table chains before rest woken requeued with
  | zero => rfl
  | succ fuel induction =>
    cases rest with
    | nil => exact absurd few (Nat.not_succ_le_zero fuel)
    | cons w rest =>
      have next : chains h = (before ++ [w]) ++ rest := by simp [chain]
      have fewRest : fuel ≤ rest.length := Nat.le_of_succ_le_succ few
      rw [requeueLoop, represents.read_behind chain]
      simp only [head?_cons, ← Cursor.behind_concat h before w]
      split
      · exact induction represents next woken requeued fewRest
      split
      · have marking : Represents ({ table with waiter := mark table.waiter w } : Table).links
            chains := represents
        exact induction marking next (woken + 1) requeued fewRest
      split
      · have moving := (rearranged_moveWaiter represents chain target).represents
        obtain ⟨_, _, split, cursor, longer, -⟩ :=
          exists_split_movedChains chains h before rest (futexHashFn target) w
        have stays := induction moving split woken (requeued + 1) (Nat.le_trans fewRest longer)
        rwa [cursor] at stays
      · exact induction represents next woken requeued fewRest

theorem selection_sublist (waiting : List Nat) (wakes moves : Nat) :
    (waiting.take wakes ++ (waiting.drop wakes).take moves).Sublist waiting := by
  have parts := (List.Sublist.refl (waiting.take wakes)).append
    (take_sublist moves (waiting.drop wakes))
  rwa [take_append_drop] at parts

theorem futexRequeue_eq_none {wakeCount requeueLimit : Int}
    (represents : Represents table.links chains)
    (back : ComesBack table chains source target wakeCount requeueLimit) :
    futexRequeue ((chains (futexHashFn source)).length + 1) table source target wakeCount
      requeueLimit = none := by
  obtain ⟨sameBucket, rfl, positive, w, first, wanted⟩ := back
  obtain ⟨rest, chain⟩ : ∃ rest, chains (futexHashFn source) = w :: rest :=
    head?_eq_some_iff.mp first
  have split : chains (futexHashFn source) = [] ++ w :: rest := chain
  have moving := (rearranged_moveWaiter represents split target).represents
  have returned : movedChains chains (futexHashFn source) ([] ++ rest) (futexHashFn target) w
      (futexHashFn source) = [] ++ w :: rest := by
    rw [← sameBucket]
    simp [movedChains]
  have stays := requeueLoop_eq_none source target 0 requeueLimit moving returned 0 1 (Nat.le_refl _)
  have here := represents.read_behind split
  rw [Cursor.behind_nil] at stays here
  rw [futexRequeue, chain, requeueLoop, here]
  simp only [head?_cons]
  rw [if_neg (awaits_eq_true.mp wanted), if_neg (Int.lt_irrefl 0), if_pos positive]
  exact stays

/-- The exact condition under which a requeue visits no waiter twice. -/
theorem requeuesOnce_iff {table : Table} {chains : Fin 256 → List Nat}
    (represents : Represents table.links chains) (source target : UInt64)
    {wakeCount : Int} (wakeNonneg : 0 ≤ wakeCount) (requeueLimit : Int) :
    RequeuesOnce table chains source target wakeCount requeueLimit ↔
      ¬ComesBack table chains source target wakeCount requeueLimit := by
  constructor
  · rintro ⟨_, _, _, returned, -⟩ back
    rw [futexRequeue_eq_none represents back] at returned
    cases returned
  · intro leaves
    have leavesLoop : ([] ≠ ([] : List Nat) ∨ futexHashFn source ≠ futexHashFn target) ∨
        ¬(wakeCount ≤ 0 ∧ 0 < requeueLimit ∧ ∃ w ∈ (chains (futexHashFn source)).head?,
          awaits (table.waiter w) source = true) := by
      by_contra comes
      rw [not_or, not_or, not_not, not_not, not_not] at comes
      obtain ⟨⟨-, sameBucket⟩, noWake, positive, first⟩ := comes
      exact leaves ⟨sameBucket, Int.le_antisymm noWake wakeNonneg, positive, first⟩
    obtain ⟨after, returned, requeued⟩ :=
      requeueLoop_once source target wakeCount requeueLimit represents (nil_append _).symm
        0 0 leavesLoop (Nat.lt_succ_self _)
    rw [Int.sub_zero, Int.sub_zero] at requeued
    rw [Int.sub_zero, Int.zero_add, Cursor.behind_nil] at returned
    have waitingNodup : (candidates table.waiter source (chains (futexHashFn source))).Nodup :=
      (represents.nodup _).filter _
    refine ⟨after, _, _, returned, ?_, ?_, length_take, ?_, requeued⟩
    · exact waitingNodup.sublist (selection_sublist _ _ _)
    · exact (selection_sublist _ _ _).subset
    · rw [length_take, length_drop, length_take]
      omega

/-- Two waiters on one address. -/
def twoWaiters : Table :=
  futexWaitEnter (futexWaitEnter futexInit 0 4096 0xffffffff) 1 4096 0xffffffff

/-- The chains of `twoWaiters`. -/
def twoChains : Fin 256 → List Nat :=
  Function.update (fun _ => []) (futexHashFn 4096) [1, 0]

theorem twoWaiters_represents : Represents twoWaiters.links twoChains := by
  have one : Represents _ (update (fun _ => []) (futexHashFn 4096) [0]) :=
    represents_empty.push (by simp)
  have apart : ∀ bucket, 1 ∉ update (fun _ => []) (futexHashFn 4096) [0] bucket := by
    intro bucket member
    rcases eq_or_ne bucket (futexHashFn 4096) with rfl | different
    · simp at member
    · simp [different] at member
  have two : Represents twoWaiters.links _ := one.push apart
  rwa [update_self, update_idem] at two

/-- One of them is woken and the other one moved to an address of the same bucket. -/
theorem requeuesOnce_twoWaiters :
    Represents twoWaiters.links twoChains ∧ futexHashFn 4096 = futexHashFn 8192 ∧
      RequeuesOnce twoWaiters twoChains 4096 8192 1 5 := by
  refine ⟨twoWaiters_represents, by decide, ?_⟩
  refine (requeuesOnce_iff twoWaiters_represents 4096 8192 (by decide) 5).mpr ?_
  rintro ⟨-, noWake, -⟩
  exact absurd noWake (by decide)

/-- Requeued to its own address the first waiter is moved again and again. -/
theorem futexRequeue_twoWaiters_again :
    Represents twoWaiters.links twoChains ∧ (twoChains (futexHashFn 4096)).length = 2 ∧
      futexRequeue 1000 twoWaiters 4096 4096 0 1000 = none ∧
        ¬RequeuesOnce twoWaiters twoChains 4096 4096 0 1000 := by
  refine ⟨twoWaiters_represents, by decide, ?_, ?_⟩
  · decide +kernel
  · rintro ⟨_, _, _, returned, -⟩
    cases returned

end AlpineOnIOS.Futex
