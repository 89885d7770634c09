import AlpineOnIOS.Foundation.LinkedChain
import AlpineOnIOS.Foundation.Runs
import Mathlib.Data.Int.Notation

/-!
# The futex table and its calls

`futex_hash` heads 256 chains of waiters, and each operation walks one chain under the lock;
`fuel` bounds how often a loop tests its condition. Each event is one stretch of a call under the
lock, or its checks before the lock.
-/

namespace AlpineOnIOS.Futex

open Foundation List Function

/-- `futex_waiter_t` apart from its link. -/
structure FutexWaiter where
  addr : UInt64
  bitset : UInt32
  woken : Bool
  deriving DecidableEq

def futexHashFn (addr : UInt64) : Fin 256 := Fin.ofNat 256 (addr >>> 2).toUInt32.toNat

/-- The chains and the waiters, which are numbered by call: memory is not reused after `free`. -/
structure Table where
  links : Links (Fin 256) Nat
  waiter : Nat → FutexWaiter

def futexInit : Table :=
  { links := .empty, waiter := fun _ => { addr := 0, bitset := 0, woken := false } }

/-- Set `w->woken`. -/
def mark (waiter : Nat → FutexWaiter) (w : Nat) : Nat → FutexWaiter :=
  update waiter w { waiter w with woken := true }

variable (table : Table)

/-- The first part of `futex_wait` under the lock: insert a new waiter. -/
def futexWaitEnter (w : Nat) (addr : UInt64) (bitset : UInt32) : Table :=
  { links := table.links.push (futexHashFn addr) w
    waiter := update table.waiter w { addr, bitset, woken := false } }

/-- The search of `futex_wait` for the link to its waiter. -/
def unlinkLoop (links : Links (Fin 256) Nat) (w : Nat) :
    Nat → Cursor (Fin 256) Nat → Option (Links (Fin 256) Nat)
  | 0, _ => none
  | fuel + 1, pp =>
    match links.read pp with
    | none => some links
    | some entry =>
      if entry = w then
        some (links.write pp (links.next w))
      else
        unlinkLoop links w fuel (.after entry)

variable (fuel : Nat)

/-- The last part of `futex_wait` under the lock: remove the waiter from the chain `h`. -/
def futexWaitLeave (table : Table) (w : Nat) (h : Fin 256) : Option Table :=
  (unlinkLoop table.links w fuel (.head h)).map fun links => { table with links }

/-- The test of `futex_wake`. -/
def wakes (waiter : FutexWaiter) (addr : UInt64) (bitset : UInt32) : Bool :=
  waiter.addr == addr && !waiter.woken && waiter.bitset &&& bitset != 0

def wakeLoop (links : Links (Fin 256) Nat) (addr : UInt64) (count : Int) (bitset : UInt32) :
    Nat → (Nat → FutexWaiter) → Option Nat → Int → Option ((Nat → FutexWaiter) × Int)
  | 0, _, _, _ => none
  | _ + 1, waiter, none, woken => some (waiter, woken)
  | fuel + 1, waiter, some w, woken =>
    if woken < count then
      if wakes (waiter w) addr bitset then
        wakeLoop links addr count bitset fuel (mark waiter w) (links.next w) (woken + 1)
      else
        wakeLoop links addr count bitset fuel waiter (links.next w) woken
    else
      some (waiter, woken)

def futexWake (table : Table) (addr : UInt64) (count : Int) (bitset : UInt32) :
    Option (Table × Int) :=
  if count ≤ 0 then
    some (table, 0)
  else
    (wakeLoop table.links addr count bitset fuel table.waiter
      (table.links.head (futexHashFn addr)) 0).map fun (waiter, woken) => ({ table with waiter }, woken)

/-- Move the waiter behind a link to the front of the chain of another address. -/
def moveWaiter (pp : Cursor (Fin 256) Nat) (w : Nat) (target : UInt64) : Table :=
  { links := (table.links.write pp (table.links.next w)).push (futexHashFn target) w
    waiter := update table.waiter w { table.waiter w with addr := target } }

/-- The loop of `futex_requeue`.  After a move it stays at the same link. -/
def requeueLoop (source target : UInt64) (wakeCount requeueLimit : Int) :
    Nat → Table → Cursor (Fin 256) Nat → Int → Int → Option (Table × Int)
  | 0, _, _, _, _ => none
  | fuel + 1, table, pp, woken, requeued =>
    match table.links.read pp with
    | none => some (table, woken)
    | some w =>
      if (table.waiter w).addr ≠ source ∨ (table.waiter w).woken = true then
        requeueLoop source target wakeCount requeueLimit fuel table (.after w) woken requeued
      else if woken < wakeCount then
        requeueLoop source target wakeCount requeueLimit fuel
          { table with waiter := mark table.waiter w } (.after w) (woken + 1) requeued
      else if requeued < requeueLimit then
        requeueLoop source target wakeCount requeueLimit fuel (moveWaiter table pp w target) pp
          woken (requeued + 1)
      else
        requeueLoop source target wakeCount requeueLimit fuel table (.after w) woken requeued

def futexRequeue (table : Table) (source target : UInt64)
    (wakeCount requeueLimit : Int) : Option (Table × Int) :=
  requeueLoop source target wakeCount requeueLimit fuel table (.head (futexHashFn source)) 0 0

/-- A waiter that is in some chain. -/
def Queued (chains : Fin 256 → List Nat) (w : Nat) : Prop := ∃ bucket, w ∈ chains bucket

variable {chains : Fin 256 → List Nat} {bucket : Fin 256} {w other : Nat}

theorem queued_push :
    Queued (update chains bucket (w :: chains bucket)) other ↔
      other = w ∨ Queued chains other := by
  simp only [Queued, Represents.mem_push, exists_or]
  simp

/-- Every waiter is in the chain of its address. -/
def Placed (chains : Fin 256 → List Nat) : Prop :=
  ∀ bucket, ∀ w ∈ chains bucket, futexHashFn (table.waiter w).addr = bucket

/-- The same waiters stay queued, by their addresses, and the marked ones were not yet woken. -/
structure Rearranged (table : Table) (chains : Fin 256 → List Nat) (marked : List Nat)
    (after : Table) (chainsAfter : Fin 256 → List Nat) : Prop where
  represents : Represents after.links chainsAfter
  queued : ∀ w, Queued chainsAfter w ↔ Queued chains w
  placed : Placed table chains → Placed after chainsAfter
  nodup : marked.Nodup
  fresh : ∀ w ∈ marked, Queued chains w ∧ (table.waiter w).woken = false
  woken : ∀ w, (after.waiter w).woken = true ↔ (table.waiter w).woken = true ∨ w ∈ marked

variable {table} {marked : List Nat} {middle after : Table}
  {chainsMiddle chainsAfter : Fin 256 → List Nat} {later : List Nat}

theorem Rearranged.refl (represents : Represents table.links chains) :
    Rearranged table chains [] table chains :=
  { represents
    queued := fun _ => Iff.rfl
    placed := id
    nodup := nodup_nil
    fresh := by simp
    woken := by simp }

theorem Rearranged.trans (first : Rearranged table chains marked middle chainsMiddle)
    (second : Rearranged middle chainsMiddle later after chainsAfter) :
    Rearranged table chains (marked ++ later) after chainsAfter := by
  have unmarked : ∀ w ∈ later, (table.waiter w).woken = false ∧ w ∉ marked := by
    intro w inLater
    have still := (second.fresh w inLater).2
    rw [← Bool.not_eq_true, first.woken, not_or, Bool.not_eq_true] at still
    exact still
  refine
    { represents := second.represents
      queued := fun w => (second.queued w).trans (first.queued w)
      placed := second.placed ∘ first.placed
      nodup := nodup_append.mpr ⟨first.nodup, second.nodup, ?_⟩
      fresh := fun w member => ?_
      woken := fun w => ?_ }
  · rintro w inMarked _ inLater rfl
    exact (unmarked w inLater).2 inMarked
  · rcases mem_append.mp member with inMarked | inLater
    · exact first.fresh w inMarked
    · exact ⟨(first.queued w).mp (second.fresh w inLater).1, (unmarked w inLater).1⟩
  · rw [second.woken, first.woken, mem_append, or_assoc]

variable {fuel} {before rest : List Nat} {h : Fin 256} {links : Links (Fin 256) Nat}

theorem unlinkLoop_spec (represents : Represents links chains) (w : Nat)
    (chain : chains h = before ++ rest) (passed : w ∉ before) (enough : rest.length < fuel) :
    ∃ linksAfter chainsAfter, unlinkLoop links w fuel (.behind h before) = some linksAfter ∧
      Represents linksAfter chainsAfter ∧
        ∀ bucket other, other ∈ chainsAfter bucket ↔
          other ∈ chains bucket ∧ ¬(other = w ∧ bucket = h) := by
  induction rest generalizing fuel before with
  | nil =>
    obtain ⟨_, rfl⟩ := Nat.exists_eq_add_one_of_ne_zero (Nat.ne_zero_of_lt enough)
    refine ⟨links, chains, ?_, represents, fun bucket other => ?_⟩
    · rw [unlinkLoop, represents.read_behind chain]
      rfl
    · rw [iff_self_and]
      rintro member ⟨rfl, rfl⟩
      rw [chain, append_nil] at member
      exact passed member
  | cons entry rest induction =>
    obtain ⟨_, rfl⟩ := Nat.exists_eq_add_one_of_ne_zero (Nat.ne_zero_of_lt enough)
    rw [unlinkLoop, represents.read_behind chain]
    by_cases found : entry = w
    · subst found
      refine ⟨_, _, if_pos rfl, represents.remove chain, fun bucket other => ?_⟩
      rw [represents.mem_remove chain, and_comm]
      refine and_congr_right fun member => not_congr (iff_self_and.mpr ?_)
      rintro rfl
      exact represents.apart member (by simp [chain])
    · have next : chains h = (before ++ [entry]) ++ rest := by simp [chain]
      have stillPassed : w ∉ before ++ [entry] := by simp [passed, Ne.symm found]
      obtain ⟨linksAfter, chainsAfter, returned, result⟩ :=
        induction next stillPassed (Nat.lt_of_succ_lt_succ enough)
      rw [Cursor.behind_concat] at returned
      exact ⟨linksAfter, chainsAfter, (if_neg found).trans returned, result⟩

theorem futexWaitLeave_spec
    (represents : Represents table.links chains) (w : Nat) (enough : (chains h).length < fuel) :
    ∃ after chainsAfter, futexWaitLeave fuel table w h = some after ∧
      after.waiter = table.waiter ∧ Represents after.links chainsAfter ∧
        ∀ bucket other, other ∈ chainsAfter bucket ↔
          other ∈ chains bucket ∧ ¬(other = w ∧ bucket = h) := by
  obtain ⟨linksAfter, chainsAfter, returned, representsAfter, members⟩ :=
    unlinkLoop_spec represents w (nil_append _).symm not_mem_nil enough
  rw [Cursor.behind_nil] at returned
  refine ⟨{ table with links := linksAfter }, chainsAfter, ?_, rfl, representsAfter, members⟩
  rw [futexWaitLeave, returned]
  rfl

/-- The waiters that a wake marks, in the order of the chain. -/
def selected (waiter : Nat → FutexWaiter) (addr : UInt64) (bitset : UInt32) (limit : Nat)
    (chain : List Nat) : List Nat :=
  (chain.filter fun w => wakes (waiter w) addr bitset).take limit

def markAll (waiter : Nat → FutexWaiter) (marked : List Nat) (w : Nat) : FutexWaiter :=
  if w ∈ marked then { waiter w with woken := true } else waiter w

section

variable (waiter : Nat → FutexWaiter)

include waiter

@[simp]
theorem markAll_addr (marked : List Nat) (w : Nat) :
    (markAll waiter marked w).addr = (waiter w).addr := by
  rw [markAll]
  split <;> rfl

@[simp]
theorem markAll_bitset (marked : List Nat) (w : Nat) :
    (markAll waiter marked w).bitset = (waiter w).bitset := by
  rw [markAll]
  split <;> rfl

theorem markAll_nil : markAll waiter [] = waiter := by
  funext w
  simp [markAll]

theorem markAll_mark (w : Nat) (marked : List Nat) :
    markAll (mark waiter w) marked = markAll waiter (w :: marked) := by
  funext other
  by_cases same : other = w
  · subst same
    simp [markAll, mark]
  · simp [markAll, mark, same]

end

variable {chain : List Nat}

theorem selected_mark {waiter : Nat → FutexWaiter} (outside : w ∉ chain) (addr : UInt64)
    (bitset : UInt32) (limit : Nat) :
    selected (mark waiter w) addr bitset limit chain = selected waiter addr bitset limit chain := by
  rw [selected, selected, filter_congr]
  intro other member
  rw [mark, update_of_ne]
  rintro rfl
  exact outside member

theorem wakeLoop_spec {pointer : Option Nat} (follows : Follows links.next pointer chain)
    (nodup : chain.Nodup) (addr : UInt64) {count woken : Int} (below : woken ≤ count)
    (bitset : UInt32) (enough : chain.length < fuel) (waiter : Nat → FutexWaiter) :
    wakeLoop links addr count bitset fuel waiter pointer woken =
      some (markAll waiter (selected waiter addr bitset (count - woken).toNat chain),
        woken + (selected waiter addr bitset (count - woken).toNat chain).length) := by
  induction chain generalizing pointer fuel waiter woken with
  | nil =>
    obtain ⟨_, rfl⟩ := Nat.exists_eq_add_one_of_ne_zero (Nat.ne_zero_of_lt enough)
    obtain rfl : pointer = none := follows
    simp [wakeLoop, selected, markAll_nil]
  | cons w rest induction =>
    obtain ⟨fuel, rfl⟩ := Nat.exists_eq_add_one_of_ne_zero (Nat.ne_zero_of_lt enough)
    obtain ⟨rfl, followsRest⟩ := follows
    obtain ⟨outside, nodupRest⟩ := nodup_cons.mp nodup
    have enoughRest : rest.length < fuel := Nat.lt_of_succ_lt_succ enough
    rw [wakeLoop]
    split
    · rename_i more
      split
      · rename_i wanted
        have limit : (count - woken).toNat = (count - (woken + 1)).toNat + 1 := by omega
        have first : selected waiter addr bitset (count - woken).toNat (w :: rest) =
            w :: selected waiter addr bitset (count - (woken + 1)).toNat rest := by
          rw [selected, filter_cons_of_pos (by exact wanted), limit, take_succ_cons, selected]
        rw [induction followsRest nodupRest (by omega) enoughRest, selected_mark outside,
          markAll_mark, first, length_cons]
        congr 2
        omega
      · rename_i unwanted
        rw [induction followsRest nodupRest below enoughRest, selected, selected,
          filter_cons_of_neg (by exact unwanted)]
    · rename_i full
      have limit : (count - woken).toNat = 0 := by omega
      simp [limit, selected, markAll_nil]

section

variable (represents : Represents table.links chains)

include represents

/-- A wake marks the first waiters that it looks for, up to its count, and returns their number. -/
theorem futexWake_spec (addr : UInt64) (count : Int)
    (bitset : UInt32) (enough : (chains (futexHashFn addr)).length < fuel) :
    let marked := selected table.waiter addr bitset count.toNat (chains (futexHashFn addr))
    futexWake fuel table addr count bitset =
      some ({ table with waiter := markAll table.waiter marked }, (marked.length : Int)) := by
  rw [futexWake]
  split
  · rename_i nothing
    have limit : count.toNat = 0 := by omega
    simp [limit, selected, markAll_nil]
  · rename_i something
    rw [wakeLoop_spec (represents.follows _) (represents.nodup _) addr (by omega) bitset enough]
    simp

theorem rearranged_markAll (nodup : marked.Nodup)
    (fresh : ∀ w ∈ marked, Queued chains w ∧ (table.waiter w).woken = false) :
    Rearranged table chains marked { table with waiter := markAll table.waiter marked } chains := by
  refine
    { represents
      queued := fun _ => Iff.rfl
      placed := fun placed bucket w member => ?_
      nodup
      fresh
      woken := fun w => ?_ }
  · simpa using placed bucket w member
  · by_cases inMarked : w ∈ marked
    · simp [markAll, inMarked]
    · simp [markAll, inMarked]

theorem selected_fresh (addr : UInt64) (bitset : UInt32) (limit : Nat) :
    let marked := selected table.waiter addr bitset limit (chains (futexHashFn addr))
    marked.Nodup ∧ ∀ w ∈ marked, Queued chains w ∧ (table.waiter w).woken = false := by
  refine ⟨((represents.nodup _).filter _).sublist (take_sublist _ _), fun w member => ?_⟩
  obtain ⟨inChain, wanted⟩ := mem_filter.mp (mem_of_mem_take member)
  rw [wakes, Bool.and_eq_true, Bool.and_eq_true, Bool.not_eq_true'] at wanted
  exact ⟨⟨_, inChain⟩, wanted.1.2⟩

end

/-- A waiter that is moved is taken out of its chain and put in front of another one. -/
def movedChains (chains : Fin 256 → List Nat) (h : Fin 256) (without : List Nat) (target : Fin 256)
    (w : Nat) : Fin 256 → List Nat :=
  let removed := update chains h without
  update removed target (w :: removed target)

theorem mem_movedChains (represents : Represents table.links chains)
    (chain : chains h = before ++ w :: rest) {target : Fin 256} :
    other ∈ movedChains chains h (before ++ rest) target w bucket ↔
      (other = w ∧ bucket = target) ∨ (other ≠ w ∧ other ∈ chains bucket) := by
  rw [movedChains, Represents.mem_push, represents.mem_remove chain]

theorem rearranged_moveWaiter (represents : Represents table.links chains)
    (chain : chains h = before ++ w :: rest) (target : UInt64) :
    Rearranged table chains [] (moveWaiter table (.behind h before) w target)
      (movedChains chains h (before ++ rest) (futexHashFn target) w) := by
  have removed := represents.remove chain
  have gone : ∀ bucket, w ∉ update chains h (before ++ rest) bucket := by
    intro bucket member
    exact ((represents.mem_remove chain).mp member).1 rfl
  refine
    { represents := removed.push gone
      queued := fun other => ?_
      placed := fun placed bucket other member => ?_
      nodup := nodup_nil
      fresh := by simp
      woken := fun other => ?_ }
  · simp only [Queued, mem_movedChains represents chain]
    by_cases same : other = w
    · subst same
      simp only [true_and, ne_eq, not_true_eq_false, false_and, or_false]
      exact iff_of_true ⟨_, rfl⟩ ⟨h, by simp [chain]⟩
    · simp [same]
  · rcases (mem_movedChains represents chain).mp member with ⟨rfl, rfl⟩ | ⟨different, inChain⟩
    · simp [moveWaiter]
    · simpa [moveWaiter, different] using placed bucket other inChain
  · by_cases same : other = w
    · subst same
      simp [moveWaiter]
    · simp [moveWaiter, same]

/-- The loop goes on behind the same nodes, or at a waiter that came back to the front. -/
theorem exists_split_movedChains (chains : Fin 256 → List Nat) (h : Fin 256)
    (before rest : List Nat) (target : Fin 256) (w : Nat) :
    ∃ front back, movedChains chains h (before ++ rest) target w h = front ++ back ∧
      Cursor.behind h front = Cursor.behind h before ∧
        rest.length ≤ back.length ∧ back.length ≤ rest.length + 1 := by
  by_cases same : h = target
  · subst same
    rcases eq_nil_or_concat' before with rfl | ⟨initial, last, rfl⟩
    · exact ⟨[], w :: rest, by simp [movedChains], rfl, Nat.le_succ _, Nat.le_refl _⟩
    refine ⟨w :: (initial ++ [last]), rest, by simp [movedChains], ?_, Nat.le_refl _, Nat.le_succ _⟩
    exact Cursor.behind_cons h w (by simp)
  · exact ⟨before, rest, by simp [movedChains, same], rfl, Nat.le_refl _, Nat.le_succ _⟩

theorem requeueLoop_spec (source target : UInt64) (wakeCount requeueLimit : Int)
    (represents : Represents table.links chains) (chain : chains h = before ++ rest)
    (woken requeued : Int) (enough : rest.length + (requeueLimit - requeued).toNat < fuel) :
    ∃ after chainsAfter marked,
      requeueLoop source target wakeCount requeueLimit fuel table (.behind h before) woken
          requeued = some (after, woken + (marked.length : Int)) ∧
        Rearranged table chains marked after chainsAfter := by
  -- Every iteration passes a node or uses up one move.
  induction fuel generalizing table chains before rest woken requeued with
  | zero => exact absurd enough (Nat.not_lt_zero _)
  | succ fuel induction =>
    rw [requeueLoop, represents.read_behind chain]
    cases rest with
    | nil => exact ⟨table, chains, [], by simp, .refl represents⟩
    | cons w rest =>
      have next : chains h = (before ++ [w]) ++ rest := by simp [chain]
      have shorter : rest.length + (requeueLimit - requeued).toNat < fuel := by
        rw [length_cons] at enough
        omega
      have passOver := induction represents next woken requeued shorter
      rw [Cursor.behind_concat] at passOver
      simp only [head?_cons]
      split
      · exact passOver
      rename_i candidate
      rw [not_or, not_not, Bool.not_eq_true] at candidate
      split
      · have queued : Queued chains w := ⟨h, by simp [chain]⟩
        have marking := rearranged_markAll represents (nodup_singleton w)
          (by simpa using ⟨queued, candidate.2⟩)
        rw [← markAll_mark, markAll_nil] at marking
        obtain ⟨after, chainsAfter, marked, returned, rearranged⟩ :=
          induction marking.represents next (woken + 1) requeued shorter
        rw [Cursor.behind_concat] at returned
        refine ⟨after, chainsAfter, [w] ++ marked, ?_, marking.trans rearranged⟩
        rw [returned, length_append, length_singleton]
        congr 2
        omega
      split
      · rename_i more
        have moving := rearranged_moveWaiter represents chain target
        obtain ⟨_, back, split, cursor, -, _⟩ :=
          exists_split_movedChains chains h before rest (futexHashFn target) w
        have fewer : back.length + (requeueLimit - (requeued + 1)).toNat < fuel := by
          omega
        obtain ⟨after, chainsAfter, marked, returned, rearranged⟩ :=
          induction moving.represents split woken (requeued + 1) fewer
        rw [cursor] at returned
        exact ⟨after, chainsAfter, marked, returned, moving.trans rearranged⟩
      · exact passOver

theorem futexRequeue_spec (source target : UInt64) (wakeCount requeueLimit : Int)
    (represents : Represents table.links chains)
    (enough : (chains (futexHashFn source)).length + requeueLimit.toNat < fuel) :
    ∃ after chainsAfter marked,
      futexRequeue fuel table source target wakeCount requeueLimit =
          some (after, (marked.length : Int)) ∧
        Rearranged table chains marked after chainsAfter := by
  obtain ⟨after, chainsAfter, marked, returned, rearranged⟩ :=
    requeueLoop_spec source target wakeCount requeueLimit represents (nil_append _).symm
      0 0 (by rwa [Int.sub_zero])
  rw [Cursor.behind_nil, Int.zero_add] at returned
  exact ⟨after, chainsAfter, marked, returned, rearranged⟩

open Option

/-- Guest memory as `mem_read32` and `mem_read64` see it; `none` is a fault. -/
structure Memory where
  read32 : UInt64 → Option UInt32
  read64 : UInt64 → Option UInt64

/-- A memory that holds one word everywhere. -/
def Memory.constant (word : UInt32) : Memory :=
  { read32 := fun _ => some word, read64 := fun _ => some word.toUInt64 }

structure Timespec where
  tvSec : Int64
  tvNsec : Int64
  deriving DecidableEq

/-- What a call does after its checks. -/
inductive Action where
  | ret (value : Int)
  | wait (addr : UInt64) (val bitset : UInt32) (timeout : Option Timespec) (absTime : Bool)
  | wake (addr : UInt64) (count : Int) (bitset : UInt32)
  | requeue (source target : UInt64) (wakeCount requeueLimit : Int)
  deriving DecidableEq

/-- The conversion of a register to `int`. -/
def toInt (value : UInt64) : Int := value.toUInt32.toInt32.toInt

variable (memory : Memory)

/-- The timeout argument of a wait; `none` is a fault. -/
def readTimeout (a3 : UInt64) : Option (Option Timespec) :=
  if a3 ≠ 0 then do
    let sec ← memory.read64 a3
    let nsec ← memory.read64 (a3 + 8)
    some (some { tvSec := sec.toInt64, tvNsec := nsec.toInt64 })
  else
    some none

/-- The checks of `FUTEX_WAIT` and `FUTEX_WAIT_BITSET`. -/
def checkWait (a0 a2 a3 : UInt64) (bitset : UInt32) (absTime : Bool) : Action :=
  match memory.read32 a0 with
  | none => .ret (-14)
  | some curval =>
    if curval ≠ a2.toUInt32 then
      .ret (-11)
    else
      match readTimeout memory a3 with
      | none => .ret (-14)
      | some timeout => .wait a0 a2.toUInt32 bitset timeout absTime

/-- `do_futex` up to the call of a table operation. -/
def doFutex (a0 a1 a2 a3 a4 a5 : UInt64) : Action :=
  let op := a1.toUInt32 &&& ~~~128
  if op = 0 then
    checkWait memory a0 a2 a3 0xFFFFFFFF false
  else if op = 1 then
    .wake a0 (toInt a2) 0xFFFFFFFF
  else if op = 9 then
    if a5.toUInt32 = 0 then .ret (-22) else checkWait memory a0 a2 a3 a5.toUInt32 true
  else if op = 10 then
    if a5.toUInt32 = 0 then .ret (-22) else .wake a0 (toInt a2) a5.toUInt32
  else if op = 3 then
    .requeue a0 a4 (toInt a2) (toInt a3)
  else if op = 4 then
    match memory.read32 a0 with
    | none => .ret (-14)
    | some curval =>
      if curval ≠ a5.toUInt32 then .ret (-11) else .requeue a0 a4 (toInt a2) (toInt a3)
  else
    .ret 0

/-- How far a call has come; a waiting one keeps its chain and whether it has a timeout. -/
inductive Phase where
  | pending
  | waiting (h : Fin 256) (timed : Bool)
  | returned (value : Int)
  deriving DecidableEq

/-- A futex call of a thread in some address space. -/
structure Call (Space : Type) where
  space : Space
  action : Action
  phase : Phase

/-- The memories, the table, and all calls made so far. -/
structure State (Space : Type) where
  memory : Space → Memory
  table : Table
  calls : List (Call Space)

/-- The start: no call has been made. -/
def State.start {Space : Type} (memory : Space → Memory) : State Space :=
  { memory, table := futexInit, calls := [] }

/-- How a call goes on. -/
inductive Progress where
  /-- It takes the lock and does its table operation; a wait blocks. -/
  | perform
  /-- A wait cannot allocate its waiter. -/
  | exhaust
  /-- The condition variable lets a wait go on, after a signal or without one. -/
  | resume
  /-- The condition variable tells a wait that its time is over. -/
  | expire

/-- What can happen next. -/
inductive Event (Space : Type) where
  /-- Guest code changes a memory. -/
  | store (space : Space) (memory : Memory)
  /-- A thread makes a call, which does its checks. -/
  | enter (space : Space) (a0 a1 a2 a3 a4 a5 : UInt64)
  /-- A call goes on. -/
  | call (id : Nat) (progress : Progress)

variable {Space : Type}

/-- A call with a result of its checks has returned at once. -/
def Action.phase : Action → Phase
  | .ret value => .returned value
  | _ => .pending

variable (state : State Space)

/-- Note how far a call has come. -/
def State.setPhase (id : Nat) (call : Call Space) (phase : Phase) :
    State Space :=
  { state with calls := state.calls.set id { call with phase } }

/-- The table operation of a call that has not taken the lock yet. -/
def performCall (id : Nat) (call : Call Space) : Option (State Space) :=
  match call.action with
  | .ret _ => none
  | .wait addr _ bitset timeout _ =>
    let state := { state with table := futexWaitEnter state.table id addr bitset }
    some (state.setPhase id call (.waiting (futexHashFn addr) timeout.isSome))
  | .wake addr count bitset =>
    (futexWake (state.calls.length + 1) state.table addr count bitset).map fun (table, woken) =>
      { state with table }.setPhase id call (.returned woken)
  | .requeue source target wakeCount requeueLimit =>
    (futexRequeue (state.calls.length + requeueLimit.toNat + 1) state.table source target
      wakeCount requeueLimit).map fun (table, woken) =>
        { state with table }.setPhase id call (.returned woken)

/-- The end of a wait. -/
def leaveWait (id : Nat) (call : Call Space) (h : Fin 256) (ret : Int) :
    Option (State Space) :=
  (futexWaitLeave (state.calls.length + 1) state.table id h).map fun table =>
    { state with table }.setPhase id call (.returned ret)

/-- The next stretch of a call. -/
def stepCall (id : Nat) (call : Call Space) : Progress → Option (State Space)
  | .perform => if call.phase = .pending then performCall state id call else none
  | .exhaust =>
    match call.phase, call.action with
    | .pending, .wait .. => some (state.setPhase id call (.returned (-12)))
    | _, _ => none
  | .resume =>
    match call.phase with
    | .waiting h _ =>
      -- The loop of `futex_wait` tests the mark after every return of the condition variable.
      if (state.table.waiter id).woken then leaveWait state id call h 0 else some state
    | _ => none
  | .expire =>
    match call.phase with
    | .waiting h true => leaveWait state id call h (-110)
    | _ => none

def step [DecidableEq Space] (state : State Space) : Event Space → Option (State Space)
  | .store space memory =>
    some { state with memory := update state.memory space memory }
  | .enter space a0 a1 a2 a3 a4 a5 =>
    let action := doFutex (state.memory space) a0 a1 a2 a3 a4 a5
    some { state with calls := state.calls ++ [{ space, action, phase := action.phase }] }
  | .call id progress => state.calls[id]?.bind fun call => stepCall state id call progress

/-- How a blocked wait comes to return, and with which value. -/
inductive Leaves (state : State Space) (id : Nat) : Progress → Bool → Int → Prop where
  | woken {timed : Bool} (marked : (state.table.waiter id).woken = true) :
      Leaves state id .resume timed 0
  | timeout : Leaves state id .expire true (-110)

/-- The outcomes of an event. -/
inductive Stepped [DecidableEq Space] (state : State Space) : Event Space → State Space → Prop where
  | store (space : Space) (memory : Memory) :
      Stepped state (.store space memory)
        { state with memory := update state.memory space memory }
  | enter (space : Space) (a0 a1 a2 a3 a4 a5 : UInt64) (action : Action)
      (checked : action = doFutex (state.memory space) a0 a1 a2 a3 a4 a5) :
      Stepped state (.enter space a0 a1 a2 a3 a4 a5)
        { state with calls := state.calls ++ [{ space, action, phase := action.phase }] }
  | block {id : Nat} {call : Call Space} (found : state.calls[id]? = some call)
      (pending : call.phase = .pending) {addr : UInt64} {val bitset : UInt32}
      {timeout : Option Timespec} {absTime : Bool}
      (action : call.action = .wait addr val bitset timeout absTime) :
      Stepped state (.call id .perform)
        ({ state with table := futexWaitEnter state.table id addr bitset }.setPhase id call
          (.waiting (futexHashFn addr) timeout.isSome))
  | wake {id : Nat} {call : Call Space} (found : state.calls[id]? = some call)
      (pending : call.phase = .pending) {addr : UInt64} {count : Int} {bitset : UInt32}
      (action : call.action = .wake addr count bitset) {table : Table} {woken : Int}
      (finished : futexWake (state.calls.length + 1) state.table addr count bitset =
        some (table, woken)) :
      Stepped state (.call id .perform)
        ({ state with table }.setPhase id call (.returned woken))
  | requeue {id : Nat} {call : Call Space} (found : state.calls[id]? = some call)
      (pending : call.phase = .pending) {source target : UInt64} {wakeCount requeueLimit : Int}
      (action : call.action = .requeue source target wakeCount requeueLimit) {table : Table}
      {woken : Int}
      (finished : futexRequeue (state.calls.length + requeueLimit.toNat + 1) state.table source
        target wakeCount requeueLimit = some (table, woken)) :
      Stepped state (.call id .perform)
        ({ state with table }.setPhase id call (.returned woken))
  | exhaust {id : Nat} {call : Call Space} (found : state.calls[id]? = some call)
      (pending : call.phase = .pending) {addr : UInt64} {val bitset : UInt32}
      {timeout : Option Timespec} {absTime : Bool}
      (action : call.action = .wait addr val bitset timeout absTime) :
      Stepped state (.call id .exhaust) (state.setPhase id call (.returned (-12)))
  | again {id : Nat} (unmarked : (state.table.waiter id).woken = false) :
      Stepped state (.call id .resume) state
  | leave {id : Nat} {call : Call Space} (found : state.calls[id]? = some call) {h : Fin 256}
      {timed : Bool} (waiting : call.phase = .waiting h timed) {progress : Progress} {ret : Int}
      (leaves : Leaves state id progress timed ret) {table : Table}
      (finished : futexWaitLeave (state.calls.length + 1) state.table id h = some table) :
      Stepped state (.call id progress)
        ({ state with table }.setPhase id call (.returned ret))

variable {state} {call : Call Space} {id : Nat}

theorem stepped_performCall [DecidableEq Space] {next : State Space}
    (found : state.calls[id]? = some call) (pending : call.phase = .pending)
    (performed : performCall state id call = some next) :
    Stepped state (.call id .perform) next := by
  rw [performCall] at performed
  split at performed
  · cases performed
  · rename_i action
    rw [← some.inj performed]
    exact .block found pending action
  · rename_i action
    obtain ⟨⟨_, _⟩, finished, rfl⟩ := map_eq_some_iff.mp performed
    exact .wake found pending action finished
  · rename_i action
    obtain ⟨⟨_, _⟩, finished, rfl⟩ := map_eq_some_iff.mp performed
    exact .requeue found pending action finished

variable {event : Event Space}

theorem stepped_of_step [DecidableEq Space] {next : State Space}
    (stepped : step state event = some next) : Stepped state event next := by
  cases event with
  | store space memory =>
    rw [← some.inj stepped]
    exact .store space memory
  | enter space a0 a1 a2 a3 a4 a5 =>
    rw [← some.inj stepped]
    exact .enter space a0 a1 a2 a3 a4 a5 _ rfl
  | call id progress =>
    obtain ⟨_, found, went⟩ := bind_eq_some_iff.mp stepped
    cases progress with
    | perform =>
      rw [stepCall] at went
      split at went
      · rename_i pending
        exact stepped_performCall found pending went
      · cases went
    | exhaust =>
      rw [stepCall] at went
      split at went
      · rename_i pending action
        rw [← some.inj went]
        exact .exhaust found pending action
      · cases went
    | resume =>
      rw [stepCall] at went
      split at went
      · rename_i waiting
        split at went
        · rename_i marked
          obtain ⟨_, finished, rfl⟩ := map_eq_some_iff.mp went
          exact .leave found waiting (.woken marked) finished
        rename_i unmarked
        rw [← some.inj went]
        exact .again (Bool.not_eq_true _ ▸ unmarked)
      · cases went
    | expire =>
      rw [stepCall] at went
      split at went
      · rename_i waiting
        obtain ⟨_, finished, rfl⟩ := map_eq_some_iff.mp went
        exact .leave found waiting .timeout finished
      · cases went

/-- The phase of a call. -/
def State.phase (state : State Space) (id : Nat) : Option Phase := state.calls[id]?.map Call.phase

theorem phase_eq (found : state.calls[id]? = some call) : state.phase id = some call.phase := by
  rw [State.phase, found]
  rfl

theorem lt_length_of_phase {phase : Phase}
    (known : state.phase id = some phase) : id < state.calls.length := by
  obtain ⟨_, found, -⟩ := map_eq_some_iff.mp known
  exact (List.getElem?_eq_some_iff.mp found).1

theorem phase_setPhase (found : state.calls[id]? = some call) (phase : Phase) (other : Nat) :
    (state.setPhase id call phase).phase other =
      if other = id then some phase else state.phase other := by
  obtain ⟨inside, -⟩ := List.getElem?_eq_some_iff.mp found
  rw [State.phase, State.setPhase, getElem?_set]
  by_cases same : id = other
  · subst same
    simp [inside]
  · simp [same, Ne.symm same, State.phase]

theorem phase_enter {phase : Phase}
    (known : { state with calls := state.calls ++ [call] }.phase other = some phase) :
    state.phase other = some phase ∨ (other = state.calls.length ∧ phase = call.phase) := by
  obtain ⟨entered, found, rfl⟩ := map_eq_some_iff.mp known
  rw [getElem?_append] at found
  split at found
  · exact .inl (phase_eq found)
  rename_i outside
  obtain ⟨_, rfl⟩ : other - state.calls.length = 0 ∧ call = entered := by
    rw [getElem?_singleton] at found
    split at found
    · exact ⟨‹_›, some.inj found⟩
    · cases found
  exact .inr ⟨by omega, rfl⟩

theorem phase_enter_of_phase {phase : Phase} (known : state.phase other = some phase) :
    { state with calls := state.calls ++ [call] }.phase other = some phase := by
  rw [State.phase, getElem?_append_left (lt_length_of_phase known)]
  exact known

/-- The address space and the action of a call, which it keeps. -/
def State.made (state : State Space) (id : Nat) : Option (Space × Action) :=
  state.calls[id]?.map fun call => (call.space, call.action)

theorem made_eq
    (found : state.calls[id]? = some call) : state.made id = some (call.space, call.action) := by
  rw [State.made, found]
  rfl

theorem made_setPhase (found : state.calls[id]? = some call) (phase : Phase) (other : Nat) :
    (state.setPhase id call phase).made other = state.made other := by
  obtain ⟨inside, -⟩ := List.getElem?_eq_some_iff.mp found
  rw [State.made, State.setPhase, getElem?_set]
  by_cases same : id = other
  · subst same
    simp [inside, made_eq found]
  · simp [same, State.made]

theorem made_step [DecidableEq Space] {next : State Space}
    (stepped : step state event = some next) (inside : id < state.calls.length) :
    next.made id = state.made id := by
  cases stepped_of_step stepped with
  | store | again => rfl
  | enter =>
    rw [State.made, getElem?_append_left inside, State.made]
  | block found | wake found | requeue found | leave found =>
    exact made_setPhase (by exact found) _ _
  | exhaust found => exact made_setPhase found _ _

end AlpineOnIOS.Futex
