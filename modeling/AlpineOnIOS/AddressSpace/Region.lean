import AlpineOnIOS.Foundation.Align
import AlpineOnIOS.Foundation.HostMemory
import AlpineOnIOS.Foundation.Loop
import Mathlib.Data.List.Perm.Basic

/-!
# Regions and guest address spaces

A region backs a range of guest addresses with host memory: at the guest address itself in native
mode, in a block of its own in interpreter mode. The nodes of the list are values here, and the
search for a gap need not end, which shows as a missing result.
-/

namespace AlpineOnIOS.AddressSpace

open Foundation Foundation.HostMemory List

def pageSize : UInt64 := 4096

def pageAlignDown (addr : UInt64) : UInt64 := alignDown addr pageSize

def pageAlignUp (addr : UInt64) : UInt64 := alignUp addr pageSize

def memProtRead : UInt32 := 1

def memProtWrite : UInt32 := 2

def memMapPrivate : UInt32 := 0x02

def memMapFixed : UInt32 := 0x10

def memMapAnonymous : UInt32 := 0x20

/-- `MEM_MAP_EXTERNAL`: the host buffer is not owned by the space. -/
def memMapExternal : UInt32 := 0x40

/-- `MEM_MAP_CALLOC`: the host buffer came from the allocator, not from `mmap`. -/
def memMapCalloc : UInt32 := 0x100

/-- `MEM_MAP_SKIP_MPROTECT`: protection changes are not passed on to the host. -/
def memMapSkipMprotect : UInt32 := 0x200

/-- The test `flags & bit`. -/
def hasBit (flags bit : UInt32) : Bool := flags &&& bit ≠ 0

theorem hasBit_or (first second bit : UInt32) :
    hasBit (first ||| second) bit = (hasBit first bit || hasBit second bit) := by
  have distributes : (first ||| second) &&& bit = first &&& bit ||| second &&& bit := by
    rw [← UInt32.toBitVec_inj]
    exact BitVec.and_or_distrib_right
  simp only [hasBit, distributes, ne_eq, UInt32.or_eq_zero_iff, not_and_or, Bool.decide_or]

/-- `mem_region_t` without its link. -/
structure Region where
  base : UInt64
  size : UInt64
  prot : UInt32
  flags : UInt32
  host : Pointer
  deriving DecidableEq

namespace Region

variable (region : Region)

/-- `base + size` as the code computes it. -/
def rend : UInt64 := region.base + region.size

/-- The test of `unmap_range` and `mem_mprotect` that skips a region. -/
def Skipped (addr finish : UInt64) : Prop :=
  region.rend ≤ addr ∨ region.base ≥ finish
  deriving Decidable

def overlapStart (addr : UInt64) : UInt64 :=
  if addr > region.base then addr else region.base

def overlapEnd (finish : UInt64) : UInt64 :=
  if finish < region.rend then finish else region.rend

/-- Whether the space leaves the release of the buffer to somebody else. -/
def external : Bool := hasBit region.flags memMapExternal

end Region

/-- `region_insert`: in front of the first region with a larger base. -/
def regionInsert (region : Region) : List Region → List Region
  | [] => [region]
  | other :: rest =>
    if other.base > region.base then region :: other :: rest
    else other :: regionInsert region rest

/-- A traversal of the region list: what was passed, and what `next` leads to. -/
structure Passage where
  passed : List Region
  ahead : List Region

namespace Passage

/-- Stay behind the regions that are left where the traversal stands. -/
def leave (passage : Passage) (regions : List Region) : Passage :=
  { passage with passed := passage.passed ++ regions }

/-- `region_insert` in a traversal: a region directly in front of `next` is not visited. -/
def insert (passage : Passage) (region : Region) : Passage :=
  if passage.passed.any (·.base > region.base) then
    { passage with passed := regionInsert region passage.passed }
  else
    match passage.ahead with
    | [] => passage.leave [region]
    | next :: _ =>
      if next.base > region.base then passage.leave [region]
      else { passage with ahead := regionInsert region passage.ahead }

end Passage

variable (native : Bool) (host : HostMemory) (region : Region)

def regionFreeHost : HostMemory :=
  if region.external then host
  else if hasBit region.flags memMapCalloc then host.free region.host
  else if native then host.unmap region.host region.size.toNat
  else host.free region.host

/-- A buffer of its own for a part of a region: `calloc` and `memcpy`. -/
def copyOut (source : Pointer) (size : UInt64) : Option Pointer × HostMemory :=
  match host.calloc size.toNat with
  | (none, host) => (none, host)
  | (some target, host) => (some target, host.copy target source size.toNat)

/-- What becomes of a region that `unmap_range` meets. -/
inductive Cut where
  | drop
  | keep (region : Region)
  | split (region tail : Region)

/-- The buffer of the tail when a region spans both sides of the range. -/
def tailBuffer (finish : UInt64) :
    Option Pointer × HostMemory :=
  let source := region.host.add (finish - region.base).toNat
  let tailSize := region.rend - finish
  if native then
    match host.mapFixed finish.toNat tailSize.toNat with
    | (false, host) => (none, host)
    | (true, host) =>
      (some (.direct finish.toNat), host.copy (.direct finish.toNat) source tailSize.toNat)
  else copyOut host source tailSize

variable (addr : UInt64)

/-- The case of `unmap_range` in which the region spans both sides. -/
def splitRegion (finish : UInt64) :
    Cut × HostMemory :=
  match host.request with
  | (false, host) => (.keep region, host)
  | (true, host) =>
    match tailBuffer native host region finish with
    | (none, host) => (.keep region, host)
    | (some buffer, host) =>
      (.split { region with size := addr - region.base }
        { base := finish
          size := region.rend - finish
          prot := region.prot
          -- the tail has a buffer of its own, whoever owns the region's
          flags := region.flags &&& ~~~memMapExternal
          host := buffer }, host)

/-- The case of `unmap_range` in which the range covers the start of the region. -/
def trimStart (finish : UInt64) :
    Cut × HostMemory :=
  let trim := finish - region.base
  let trimmed (buffer : Pointer) : Region :=
    { region with base := finish, size := region.size - trim, host := buffer }
  if region.external then (.keep (trimmed (region.host.add trim.toNat)), host)
  else if native then (.keep (trimmed (region.host.add trim.toNat)), host)
  else
    match copyOut host (region.host.add trim.toNat) (region.size - trim) with
    | (none, host) => (.keep region, host)
    | (some buffer, host) => (.keep (trimmed buffer), host.free region.host)

/-- One region in the loop of `unmap_range`. -/
def cutRegion (finish : UInt64) (host : HostMemory) (region : Region) :
    Cut × HostMemory :=
  if region.Skipped addr finish then (.keep region, host)
  else if region.base ≥ addr ∧ region.rend ≤ finish then
    (.drop, regionFreeHost native host region)
  else if region.base < addr ∧ region.rend > finish then splitRegion native host region addr finish
  else if region.base < addr then (.keep { region with size := addr - region.base }, host)
  else trimStart native host region finish

def hostMprotectRegion : HostMemory :=
  if !native then host
  else if hasBit region.flags (memMapExternal ||| memMapSkipMprotect) then host
  else host.protect region.host region.size.toNat (region.prot &&& 7)

/-- The buffer of a piece that `mem_mprotect` splits off: its own one, except in native mode. -/
def pieceBuffer (piece : Region) :
    Option Region × HostMemory :=
  let source := region.host.add (piece.base - region.base).toNat
  if native then (some { piece with host := source }, host)
  else
    match copyOut host source piece.size with
    | (none, host) => (none, host)
    | (some buffer, host) => (some { piece with host := buffer }, host)

/-- The original's buffer is replaced by a smaller one if there is memory for it. -/
def shrinkBuffer (newsize : UInt64) :
    Pointer × HostMemory :=
  if native then (region.host, host)
  else
    match copyOut host region.host newsize with
    | (none, host) => (region.host, host)
    | (some buffer, host) => (buffer, host.free region.host)

/-- The regions left behind and those put in front of `next`, or `none` if the loop breaks off. -/
abbrev Protection := Option (List Region × List Region)

/-- The original is shortened, and the middle gets its protection from the host. -/
def finishInside (middle : Region) (tail : List Region) :
    Protection × HostMemory :=
  let newsize := middle.base - region.base
  let (buffer, host) := shrinkBuffer native host region newsize
  (some ([{ region with size := newsize, host := buffer }, middle], tail),
    hostMprotectRegion native host middle)

/-- The case of `mem_mprotect` in which the range starts inside the region. -/
def protectInside (prot : UInt32) (host : HostMemory) (region : Region)
    (overlapStart overlapEnd : UInt64) : Protection × HostMemory :=
  match host.request with
  | (false, host) => (none, host)
  | (true, host) =>
    match pieceBuffer native host region
        { region with base := overlapStart, size := overlapEnd - overlapStart, prot } with
    | (none, host) => (none, host)
    | (some middle, host) =>
      if overlapEnd < region.rend then
        match host.request with
        | (false, host) => (none, if native then host else host.free middle.host)
        | (true, host) =>
          match pieceBuffer native host region
              { region with base := overlapEnd, size := region.rend - overlapEnd } with
          | (none, host) => (none, host.free middle.host)
          | (some tail, host) => finishInside native host region middle [tail]
      else finishInside native host region middle []

/-- The case of `mem_mprotect` in which the range covers the start of the region only. -/
def protectStart (prot : UInt32) (host : HostMemory) (region : Region)
    (overlapEnd : UInt64) : Protection × HostMemory :=
  match host.request with
  | (false, host) => (none, host)
  | (true, host) =>
    match pieceBuffer native host region
        { region with base := overlapEnd, size := region.rend - overlapEnd } with
    | (none, host) => (none, host)
    | (some tail, host) =>
      let (buffer, host) := shrinkBuffer native host region (overlapEnd - region.base)
      let changed := { region with size := overlapEnd - region.base, prot, host := buffer }
      (some ([changed, tail], []), hostMprotectRegion native host changed)

/-- One region in the loop of `mem_mprotect`. -/
def protectRegion (finish : UInt64) (prot : UInt32) (host : HostMemory)
    (region : Region) : Protection × HostMemory :=
  if region.Skipped addr finish then (some ([region], []), host)
  else
    let overlapStart := region.overlapStart addr
    let overlapEnd := region.overlapEnd finish
    if overlapStart = region.base ∧ overlapEnd = region.rend then
      (some ([{ region with prot }], []), hostMprotectRegion native host { region with prot })
    else if overlapStart > region.base then
      protectInside native prot host region overlapStart overlapEnd
    else protectStart native prot host region overlapEnd

section Calls

variable (native : Bool) (host : HostMemory) (region : Region)

theorem copyOut_cases (source : Pointer) (size : UInt64) :
    Attempts host (copyOut host source size) none some := by
  have allocated := host.later_calloc size.toNat
  rw [copyOut]
  split
  · rename_i answer
    refine ⟨_, allocated.of_eq answer, .inl ⟨fun generous => ?_, rfl⟩⟩
    cases (generous.calloc_eq size.toNat).symm.trans answer
  · rename_i after answer
    exact ⟨_, (allocated.of_eq answer).trans (after.later_copy _ _ _), .inr ⟨_, rfl⟩⟩

variable {host} in
theorem copyOut_eq (generous : host.Generous) (source : Pointer) (size : UInt64) :
    copyOut host source size = (some (.block host.clock 0), host.copied source size.toNat) := by
  rw [copyOut, generous.calloc_eq]
  rfl

theorem tailBuffer_cases (finish : UInt64) :
    Attempts host (tailBuffer native host region finish) none some := by
  have mapped := host.later_mapFixed finish.toNat (region.rend - finish).toNat
  rw [tailBuffer]
  split
  · split
    · rename_i answer
      refine ⟨_, mapped.of_eq answer, .inl ⟨fun generous => ?_, rfl⟩⟩
      cases (generous.mapFixed_eq _ _).symm.trans answer
    · rename_i after answer
      exact ⟨_, (mapped.of_eq answer).trans (after.later_copy (.direct finish.toNat) _ _),
        .inr ⟨_, rfl⟩⟩
  · exact copyOut_cases host _ _

theorem size_sub_trim (finish : UInt64) :
    region.size - (finish - region.base) = region.rend - finish := by
  rw [Region.rend]
  grind

variable (addr : UInt64)

theorem splitRegion_cases (finish : UInt64) :
    Attempts host (splitRegion native host region addr finish) (.keep region) fun buffer =>
      .split { region with size := addr - region.base }
        { base := finish, size := region.rend - finish, prot := region.prot,
          flags := region.flags &&& ~~~memMapExternal, host := buffer } := by
  rw [splitRegion]
  obtain ⟨node, requested, ⟨refused, answer⟩ | ⟨_, answer⟩⟩ := request_cases host
  · rw [answer]
    exact ⟨node, requested, .inl ⟨refused, rfl⟩⟩
  rw [answer]
  refine .of_later requested ?_
  obtain ⟨after, buffered, ⟨refused, result⟩ | ⟨buffer, result⟩⟩ :=
    tailBuffer_cases native node region finish
  · simp only [result]
    exact ⟨after, buffered, .inl ⟨refused, rfl⟩⟩
  · simp only [result]
    exact ⟨after, buffered, .inr ⟨buffer, rfl⟩⟩

theorem trimStart_cases (finish : UInt64) :
    Attempts host (trimStart native host region finish) (.keep region) fun buffer =>
      .keep { region with base := finish, size := region.rend - finish, host := buffer } := by
  rw [trimStart, size_sub_trim]
  split
  · exact ⟨host, .refl host, .inr ⟨_, rfl⟩⟩
  split
  · exact ⟨host, .refl host, .inr ⟨_, rfl⟩⟩
  obtain ⟨after, copied, ⟨refused, result⟩ | ⟨buffer, result⟩⟩ := copyOut_cases host
    (region.host.add (finish - region.base).toNat) (region.rend - finish)
  · rw [result]
    exact ⟨after, copied, .inl ⟨refused, rfl⟩⟩
  · rw [result]
    exact ⟨_, copied.trans (after.later_free _), .inr ⟨buffer, rfl⟩⟩

theorem later_cutRegion (finish : UInt64) :
    Later host (cutRegion native addr finish host region).2 := by
  rw [cutRegion]
  split
  · exact .refl _
  split
  · rw [regionFreeHost]
    split
    · exact .refl _
    split
    · exact host.later_free _
    split
    · exact host.later_unmap _ _
    · exact host.later_free _
  split
  · exact (splitRegion_cases native host region addr finish).later
  split
  · exact .refl _
  · exact (trimStart_cases native host region finish).later

theorem later_hostMprotectRegion : Later host (hostMprotectRegion native host region) := by
  rw [hostMprotectRegion]
  split
  · exact .refl _
  split
  · exact .refl _
  · exact host.later_protect _ _ _

theorem pieceBuffer_cases (piece : Region) :
    Attempts host (pieceBuffer native host region piece) none fun buffer =>
      some { piece with host := buffer } := by
  rw [pieceBuffer]
  split
  · exact ⟨host, .refl host, .inr ⟨_, rfl⟩⟩
  obtain ⟨after, copied, ⟨refused, result⟩ | ⟨buffer, result⟩⟩ :=
    copyOut_cases host (region.host.add (piece.base - region.base).toNat) piece.size
  · rw [result]
    exact ⟨after, copied, .inl ⟨refused, rfl⟩⟩
  · rw [result]
    exact ⟨after, copied, .inr ⟨buffer, rfl⟩⟩

theorem later_shrinkBuffer (newsize : UInt64) :
    Later host (shrinkBuffer native host region newsize).2 := by
  rw [shrinkBuffer]
  split
  · exact .refl _
  obtain ⟨after, copied, ⟨-, result⟩ | ⟨_, result⟩⟩ := copyOut_cases host region.host newsize
  · rw [result]
    exact copied
  · rw [result]
    exact copied.trans (after.later_free _)

theorem later_finishInside (middle : Region) (tail : List Region) :
    Later host (finishInside native host region middle tail).2 :=
  (later_shrinkBuffer native host region _).trans (later_hostMprotectRegion native _ middle)

theorem protectInside_cases (prot : UInt32) (overlapStart overlapEnd : UInt64) :
    Attempts host (protectInside native prot host region overlapStart overlapEnd) none
      fun (first, second, third) => some
        ([{ region with size := overlapStart - region.base, host := first },
          { region with
            base := overlapStart, size := overlapEnd - overlapStart, prot, host := second }],
          if overlapEnd < region.rend then
            [{ region with base := overlapEnd, size := region.rend - overlapEnd, host := third }]
          else []) := by
  rw [protectInside]
  obtain ⟨node, requested, ⟨refused, answer⟩ | ⟨_, answer⟩⟩ := request_cases host
  · rw [answer]
    exact ⟨node, requested, .inl ⟨refused, rfl⟩⟩
  rw [answer]
  refine .of_later requested ?_
  obtain ⟨after, buffered, ⟨refused, result⟩ | ⟨second, result⟩⟩ :=
    pieceBuffer_cases native node region
      { region with base := overlapStart, size := overlapEnd - overlapStart, prot }
  · simp only [result]
    exact ⟨after, buffered, .inl ⟨refused, rfl⟩⟩
  simp only [result]
  refine .of_later buffered ?_
  split
  · obtain ⟨node, requested, ⟨refused, answer⟩ | ⟨_, answer⟩⟩ := request_cases after
    · rw [answer]
      refine ⟨_, requested.trans ?_, .inl ⟨refused, rfl⟩⟩
      split
      · exact .refl _
      · exact later_free _ _
    rw [answer]
    refine .of_later requested ?_
    obtain ⟨_, tailed, ⟨refused, result⟩ | ⟨third, result⟩⟩ := pieceBuffer_cases native node region
      { region with base := overlapEnd, size := region.rend - overlapEnd }
    · simp only [result]
      exact ⟨_, tailed.trans (later_free _ _), .inl ⟨refused, rfl⟩⟩
    · simp only [result]
      exact ⟨_, tailed.trans (later_finishInside native _ region _ []),
        .inr ⟨(_, second, third), rfl⟩⟩
  · exact ⟨_, later_finishInside native _ region _ [], .inr ⟨(_, second, second), rfl⟩⟩

theorem protectStart_cases (prot : UInt32) (overlapEnd : UInt64) :
    Attempts host (protectStart native prot host region overlapEnd) none
      fun (first, second) => some
        ([{ region with size := overlapEnd - region.base, prot, host := first },
          { region with base := overlapEnd, size := region.rend - overlapEnd, host := second }],
          []) := by
  rw [protectStart]
  obtain ⟨node, requested, ⟨refused, answer⟩ | ⟨_, answer⟩⟩ := request_cases host
  · rw [answer]
    exact ⟨node, requested, .inl ⟨refused, rfl⟩⟩
  rw [answer]
  refine .of_later requested ?_
  obtain ⟨after, buffered, ⟨refused, result⟩ | ⟨second, result⟩⟩ :=
    pieceBuffer_cases native node region
      { region with base := overlapEnd, size := region.rend - overlapEnd }
  · simp only [result]
    exact ⟨after, buffered, .inl ⟨refused, rfl⟩⟩
  · simp only [result]
    exact ⟨_, buffered.trans ((later_shrinkBuffer native after region _).trans
      (later_hostMprotectRegion native _ _)), .inr ⟨(_, second), rfl⟩⟩

theorem later_protectRegion (finish : UInt64) (prot : UInt32) :
    Later host (protectRegion native addr finish prot host region).2 := by
  rw [protectRegion]
  split
  · exact .refl _
  simp only
  split
  · exact later_hostMprotectRegion native host _
  split
  · exact (protectInside_cases native host region prot _ _).later
  · exact (protectStart_cases native host region prot _).later

end Calls

section Traversals

theorem regionInsert_perm (region : Region) (regions : List Region) :
    (regionInsert region regions).Perm (region :: regions) := by
  induction regions with
  | nil => exact .refl _
  | cons other rest induction =>
    rw [regionInsert]
    split
    · exact .refl _
    · exact (induction.cons other).trans (List.Perm.swap region other rest)

/-- Regions ahead that start below the end of the range count twice: only these are split. -/
def pending (finish : UInt64) (state : Passage × HostMemory) : Nat :=
  2 * state.1.ahead.countP (·.base < finish) + state.1.ahead.length

def unmapStep (native : Bool) (addr finish : UInt64) :
    Passage × HostMemory → Control (Passage × HostMemory) (List Region × HostMemory)
  | (⟨passed, []⟩, host) => .exit (passed, host)
  | (⟨passed, region :: next⟩, host) =>
    match cutRegion native addr finish host region with
    | (.drop, host) => .next (⟨passed, next⟩, host)
    | (.keep region, host) => .next (⟨passed ++ [region], next⟩, host)
    | (.split region tail, host) =>
      .next ((Passage.mk (passed ++ [region]) next).insert tail, host)

def protectStep (native : Bool) (addr finish : UInt64) (prot : UInt32) :
    Passage × HostMemory → Control (Passage × HostMemory) (List Region × HostMemory)
  | (⟨passed, []⟩, host) => .exit (passed, host)
  | (⟨passed, region :: next⟩, host) =>
    match protectRegion native addr finish prot host region with
    | (none, host) => .exit (passed ++ region :: next, host)
    | (some (left, ahead), host) => .next (⟨passed ++ left, ahead ++ next⟩, host)

variable {native : Bool} {addr finish : UInt64} {prot : UInt32}

theorem Passage.ahead_insert (passage : Passage) (region : Region) :
    (passage.insert region).ahead = passage.ahead ∨
      (passage.insert region).ahead.Perm (region :: passage.ahead) := by
  rw [Passage.insert]
  split
  · exact .inl rfl
  split
  · exact .inl rfl
  split
  · exact .inl rfl
  · exact .inr (regionInsert_perm _ _)

variable {region kept tail : Region} {host after : HostMemory}

theorem cutRegion_eq_split
    (split : cutRegion native addr finish host region = (.split kept tail, after)) :
    region.base < finish ∧ tail.base = finish := by
  rw [cutRegion] at split
  split at split
  · cases split
  rename_i overlaps
  have below : region.base < finish := by
    rw [Region.Skipped, not_or] at overlaps
    exact UInt64.not_le.mp overlaps.2
  split at split
  · cases split
  split at split
  · obtain ⟨_, -, ⟨-, whole⟩ | ⟨_, cut⟩⟩ := splitRegion_cases native host region addr finish
    · cases whole.symm.trans split
    · cases cut.symm.trans split
      exact ⟨below, rfl⟩
  split at split
  · cases split
  · obtain ⟨_, -, ⟨-, whole⟩ | ⟨_, cut⟩⟩ := trimStart_cases native host region finish
    · cases whole.symm.trans split
    · cases cut.symm.trans split

theorem pending_lt {passed next : List Region} {following : Passage}
    (left : following.ahead = next ∨
      region.base < finish ∧ ∃ tail, following.ahead.Perm (tail :: next) ∧ tail.base = finish) :
    pending finish (following, after) < pending finish (⟨passed, region :: next⟩, host) := by
  have counted :=
    countP_cons (p := fun other : Region => other.base < finish) (a := region) (l := next)
  simp only [pending, length_cons]
  obtain same | ⟨below, tail, permuted, tailBase⟩ := left
  · rw [same]
    omega
  · have apart : ¬tail.base < finish := by
      rw [tailBase]
      exact UInt64.lt_irrefl _
    rw [permuted.countP_eq, permuted.length_eq]
    simp only [countP_cons, apart, below, decide_false, decide_true, length_cons,
      Bool.false_eq_true, if_false, if_true]
    omega

variable (native addr finish) in
theorem pending_unmapStep {state following : Passage × HostMemory}
    (stepped : unmapStep native addr finish state = .next following) :
    pending finish following < pending finish state := by
  obtain ⟨⟨passed, ahead⟩, _⟩ := state
  cases ahead with
  | nil => cases stepped
  | cons region next =>
    rw [unmapStep] at stepped
    split at stepped
    · cases stepped
      exact pending_lt (.inl rfl)
    · cases stepped
      exact pending_lt (.inl rfl)
    rename_i kept tail after cut
    obtain ⟨below, tailBase⟩ := cutRegion_eq_split cut
    cases stepped
    exact pending_lt (((Passage.mk (passed ++ [kept]) next).ahead_insert tail).imp_right
      fun permuted => ⟨below, tail, permuted, tailBase⟩)

theorem base_of_pieceBuffer {piece made : Region}
    (buffered : pieceBuffer native host region piece = (some made, after)) :
    made.base = piece.base := by
  obtain ⟨_, -, ⟨-, failed⟩ | ⟨_, copied⟩⟩ := pieceBuffer_cases native host region piece
  · cases failed.symm.trans buffered
  · cases copied.symm.trans buffered
    rfl

variable {left ahead : List Region}

theorem overlapEnd_eq_of_lt (inside : region.overlapEnd finish < region.rend) :
    region.overlapEnd finish = finish := by
  rw [Region.overlapEnd] at inside ⊢
  split at inside
  · rename_i below
    rw [if_pos below]
  · exact absurd inside (UInt64.lt_irrefl _)

theorem protectRegion_eq_some
    (changed : protectRegion native addr finish prot host region = (some (left, ahead), after)) :
    ahead = [] ∨ region.base < finish ∧ ∃ tail, ahead = [tail] ∧ tail.base = finish := by
  rw [protectRegion] at changed
  split at changed
  · cases changed
    exact .inl rfl
  rename_i overlaps
  rw [Region.Skipped, not_or] at overlaps
  simp only at changed
  split at changed
  · cases changed
    exact .inl rfl
  split at changed
  · obtain ⟨_, -, ⟨-, broken⟩ | ⟨_, made⟩⟩ := protectInside_cases native host region prot
      (region.overlapStart addr) (region.overlapEnd finish)
    · cases broken.symm.trans changed
    cases made.symm.trans changed
    split
    · rename_i inside
      exact .inr ⟨UInt64.not_le.mp overlaps.2, _, rfl, overlapEnd_eq_of_lt inside⟩
    · exact .inl rfl
  · obtain ⟨_, -, ⟨-, broken⟩ | ⟨_, made⟩⟩ :=
      protectStart_cases native host region prot (region.overlapEnd finish)
    · cases broken.symm.trans changed
    · cases made.symm.trans changed
      exact .inl rfl

variable (native addr finish prot) in
theorem pending_protectStep {state following : Passage × HostMemory}
    (stepped : protectStep native addr finish prot state = .next following) :
    pending finish following < pending finish state := by
  obtain ⟨⟨_, ahead⟩, _⟩ := state
  cases ahead with
  | nil => cases stepped
  | cons region next =>
    rw [protectStep] at stepped
    split at stepped
    · cases stepped
    rename_i changed
    cases stepped
    obtain rfl | ⟨below, tail, rfl, tailBase⟩ := protectRegion_eq_some changed
    · exact pending_lt (.inl rfl)
    · exact pending_lt (.inr ⟨below, tail, .refl _, tailBase⟩)

end Traversals

def unmapRange (host : HostMemory) (regions : List Region) (addr size : UInt64) :
    List Region × HostMemory :=
  runLoop (pending_unmapStep native addr (addr + size)) (⟨[], regions⟩, host)

/-- `mem_space_t` without its lock. -/
structure Space where
  regions : List Region
  brkBase : UInt64
  brkCurrent : UInt64
  mmapNext : UInt64
  aotMode : Bool
  refcount : Int

def mmapStart : UInt64 := 0x7F0000000000

def memSpaceCreate : Space :=
  { regions := [], brkBase := 0, brkCurrent := 0, mmapNext := mmapStart, aotMode := false,
    refcount := 1 }

variable (space : Space)

def memSpaceRef : Space := { space with refcount := space.refcount + 1 }

variable (host : HostMemory)

/-- `mem_space_destroy`: the space with one reference less, or none if that was the last one. -/
def memSpaceDestroy : Option Space × HostMemory :=
  let refcount := space.refcount - 1
  if refcount > 0 then (some { space with refcount }, host)
  else (none, space.regions.foldl (regionFreeHost space.aotMode) host)

/-- The loop of `mem_space_clone`: whether it comes to the end, and the copies of the regions. -/
def cloneRegions (host : HostMemory) : List Region → Bool × List Region × HostMemory
  | [] => (true, [], host)
  | region :: rest =>
    match host.request with
    | (false, host) => (false, [], host)
    | (true, host) =>
      let (finished, copies, host) := cloneRegions host rest
      (finished, { region with flags := region.flags ||| memMapExternal } :: copies, host)

def memSpaceClone (src : Space) (host : HostMemory) : Option Space × HostMemory :=
  match host.request with
  | (false, host) => (none, host)
  | (true, host) =>
    let (finished, regions, host) := cloneRegions host src.regions
    let dst := { src with regions, refcount := 1 }
    if finished then (some dst, host) else (none, (memSpaceDestroy dst host).2)

def mapFailed : UInt64 := 0 - 1

/-- A result together with the space and the host after the call. -/
abbrev Outcome := UInt64 × Space × HostMemory

variable (regions : List Region) (alignedSize : UInt64)

/-- One round of the search for a gap: the first region in the way moves the address behind it. -/
def gapStep (addr : UInt64) : Control UInt64 UInt64 :=
  match regions.find? fun cur => addr < cur.rend ∧ addr + alignedSize > cur.base with
  | some cur => .next (pageAlignUp cur.rend)
  | none => .exit addr

/-- The search for a gap, where one that lasts too long repeats itself and never ends. -/
def findGap (addr : UInt64) : Option UInt64 :=
  loop (gapStep regions alignedSize) (regions.length + 1) addr

variable (addr : UInt64)

/-- The address of a mapping without `MAP_FIXED`, which also moves the hint. -/
def chooseGap (addr alignedSize : UInt64) : Option (UInt64 × Space) :=
  let start := pageAlignUp (if addr = 0 then space.mmapNext else addr)
  (findGap space.regions alignedSize start).map fun addr =>
    (addr, if addr + alignedSize > addr then { space with mmapNext := addr + alignedSize }
      else space)

/-- The memory of a mapping and the address at which it appears to the guest. -/
def mapBuffer (fixed : Bool) (host : HostMemory) (addr alignedSize : UInt64) :
    Option (UInt64 × Pointer) × HostMemory :=
  if native && !fixed then
    match host.mapAny alignedSize.toNat with
    | (none, host) => (none, host)
    | (some address, host) => (some (UInt64.ofNat address, .direct address), host)
  else if native then
    match host.mapFixed addr.toNat alignedSize.toNat with
    | (false, host) => (none, host)
    | (true, host) => (some (addr, .direct addr.toNat), host)
  else
    match host.calloc alignedSize.toNat with
    | (none, host) => (none, host)
    | (some buffer, host) => (some (addr, buffer), host)

theorem mapBuffer_eq (fixed : Bool) (host : HostMemory) (addr alignedSize : UInt64) :
    ∃ buffer after, HostMemory.Later host after ∧ mapBuffer native fixed host addr alignedSize =
      if host.grants host.clock then
        (some (if native && !fixed then .ofNat (host.place host.clock) else addr, buffer), after)
      else (none, host.asked) := by
  rw [mapBuffer]
  split
  · refine ⟨.direct (host.place host.clock), _, host.later_mapAny alignedSize.toNat, ?_⟩
    rw [HostMemory.mapAny]
    cases host.grants host.clock <;> rfl
  split
  · refine ⟨.direct addr.toNat, _, host.later_mapFixed addr.toNat alignedSize.toNat, ?_⟩
    rw [HostMemory.mapFixed]
    cases host.grants host.clock <;> rfl
  · refine ⟨.block host.clock 0, _, host.later_calloc alignedSize.toNat, ?_⟩
    rw [HostMemory.calloc]
    cases host.grants host.clock <;> rfl

/-- `pread` into a mapping.  The content is what the descriptor holds from the offset on. -/
def readContent (buffer : Pointer) (size alignedSize : UInt64)
    (flags : UInt32) (content : Option (List UInt8)) : HostMemory :=
  match content with
  | none => host
  | some bytes =>
    if hasBit flags memMapAnonymous then host
    else
      let toRead := if size > alignedSize then alignedSize else size
      let read := bytes.take toRead.toNat
      host.store buffer read.length fun index => read.getD index 0

variable (size : UInt64) (prot : UInt32)

/-- The part of `mem_mmap` behind the choice of the address. -/
def placeMapping (flags : UInt32)
    (content : Option (List UInt8)) : Outcome :=
  let alignedSize := pageAlignUp size
  let fixed := hasBit flags memMapFixed
  match host.request with
  | (false, host) => (mapFailed, space, host)
  | (true, host) =>
    match mapBuffer space.aotMode fixed host addr alignedSize with
    | (none, host) => (mapFailed, space, host)
    | (some (addr, buffer), host) =>
      let region : Region := { base := addr, size := alignedSize, prot, flags, host := buffer }
      let mmapNext :=
        if space.aotMode && !fixed then addr + alignedSize else space.mmapNext
      (addr, { space with regions := regionInsert region space.regions, mmapNext },
        readContent host buffer size alignedSize flags content)

/-- `mem_mmap`, without a result if the search for a gap does not end. -/
def memMmap (flags : UInt32)
    (content : Option (List UInt8)) : Option Outcome :=
  if size = 0 then some (mapFailed, space, host)
  else if hasBit flags memMapFixed then
    let addr := pageAlignDown addr
    let (regions, host) := unmapRange space.aotMode host space.regions addr (pageAlignUp size)
    some (placeMapping { space with regions } host addr size prot flags content)
  else
    (chooseGap space addr (pageAlignUp size)).map fun (addr, space) =>
      placeMapping space host addr size prot flags content

/-- `mem_mmap_host` for a buffer that is not `NULL`. -/
def memMmapHost
    (hostBuf : Pointer) (mapFlags : UInt32) : Option Outcome :=
  if size = 0 then some (mapFailed, space, host)
  else
    (chooseGap space addr (pageAlignUp size)).map fun (addr, space) =>
      match host.request with
      | (false, host) => (mapFailed, space, host)
      | (true, host) =>
        let region : Region :=
          { base := addr, size := pageAlignUp size, prot, flags := memMapPrivate ||| mapFlags,
            host := hostBuf }
        (addr, { space with regions := regionInsert region space.regions }, host)

/-- `mem_munmap`, which always returns zero. -/
def memMunmap : Space × HostMemory :=
  let (regions, host) :=
    unmapRange space.aotMode host space.regions (pageAlignDown addr) (pageAlignUp size)
  ({ space with regions }, host)

/-- `mem_mprotect`, which always returns zero. -/
def memMprotect :
    Space × HostMemory :=
  let start := pageAlignDown addr
  let finish := start + pageAlignUp size
  let (regions, host) :=
    runLoop (pending_protectStep space.aotMode start finish prot) (⟨[], space.regions⟩, host)
  ({ space with regions }, host)

/-- The first region that meets a test is changed. -/
def replaceFirst (test : Region → Bool) (change : Region → Region) : List Region → List Region
  | [] => []
  | region :: rest =>
    if test region then change region :: rest else region :: replaceFirst test change rest

/-- The test for a heap region that ends at the old break. -/
def endsAtBreak (region : Region) : Bool :=
  region.rend = pageAlignUp space.brkCurrent ∧ region.base ≥ space.brkBase

/-- The growth of the heap by `mem_brk`, `none` if it fails. -/
def growHeap (newBrk : UInt64) :
    Option (List Region) × HostMemory :=
  let grow := newBrk - pageAlignUp space.brkCurrent
  match space.regions.find? (endsAtBreak space) with
  | some region =>
    if !space.aotMode then
      match host.realloc region.host (region.size + grow).toNat with
      | (none, host) => (none, host)
      | (some buffer, host) =>
        (some (replaceFirst (endsAtBreak space)
            (fun region => { region with host := buffer, size := region.size + grow })
            space.regions),
          host.store (buffer.add region.size.toNat) grow.toNat fun _ => 0)
    else if newBrk > region.rend then (none, host)
    else (some space.regions, host)
  | none =>
    match host.request with
    | (false, host) => (none, host)
    | (true, host) =>
      if space.aotMode then (none, host)
      else
        let newSize := newBrk - space.brkBase
        match host.calloc newSize.toNat with
        | (none, host) => (none, host)
        | (some buffer, host) =>
          (some (regionInsert
            { base := space.brkBase
              size := newSize
              prot := memProtRead ||| memProtWrite
              flags := memMapPrivate ||| memMapAnonymous
              host := buffer } space.regions), host)

def memBrk : Outcome :=
  if addr = 0 then (space.brkCurrent, space, host)
  else if addr < space.brkBase then (space.brkCurrent, space, host)
  else
    let oldBrk := space.brkCurrent
    let newBrk := pageAlignUp addr
    if newBrk > oldBrk then
      if newBrk - pageAlignUp oldBrk > 0 then
        match growHeap space host newBrk with
        | (none, host) => (oldBrk, space, host)
        | (some regions, host) => (addr, { space with regions, brkCurrent := addr }, host)
      else (addr, { space with brkCurrent := addr }, host)
    else if newBrk < pageAlignUp oldBrk then
      let (regions, host) :=
        unmapRange space.aotMode host space.regions newBrk (pageAlignUp oldBrk - newBrk)
      (addr, { space with regions, brkCurrent := addr }, host)
    else (addr, { space with brkCurrent := addr }, host)

/-- The test of `mem_translate` for the region of a range. -/
def Region.Holds (region : Region) (addr size : UInt64) : Prop :=
  addr ≥ region.base ∧ size ≤ region.size ∧ addr - region.base ≤ region.size - size
  deriving Decidable

def memTranslate : Option Pointer :=
  if size ≠ 0 ∧ addr + size < addr then none
  else
    match space.regions.find? (·.Holds addr size) with
    | none => none
    | some region =>
      if region.prot &&& prot ≠ prot then none
      else some (region.host.add (addr - region.base).toNat)

/-- The copy of `do_mremap`, which is left out if one of the ranges is not found. -/
def copyMoved (oldAddr newAddr oldSize : UInt64) : HostMemory :=
  match memTranslate space oldAddr oldSize memProtRead with
  | none => host
  | some oldData =>
    match memTranslate space newAddr oldSize memProtWrite with
    | none => host
    | some newData => host.copy newData oldData oldSize.toNat

/-- `do_mremap` of `sys_memory.c`, with its result as a word. -/
def doMremap (oldAddr oldSize newSize flags : UInt64) :
    Option Outcome :=
  if newSize = 0 then some (0 - 22, space, host)
  else if newSize ≤ oldSize then
    if newSize < oldSize then
      some (oldAddr, memMunmap space host (oldAddr + newSize) (oldSize - newSize))
    else some (oldAddr, space, host)
  else if flags &&& 1 = 0 then
    (memMmap space host (oldAddr + oldSize) (newSize - oldSize) (memProtRead ||| memProtWrite)
      (memMapPrivate ||| memMapFixed ||| memMapAnonymous) none).map fun (ret, space, host) =>
      if ret = mapFailed then (0 - 12, space, host) else (oldAddr, space, host)
  else
    (memMmap space host 0 newSize (memProtRead ||| memProtWrite) (memMapPrivate ||| memMapAnonymous)
      none).map fun (newAddr, space, host) =>
      if newAddr = mapFailed then (0 - 12, space, host)
      else (newAddr, memMunmap space (copyMoved space host oldAddr newAddr oldSize) oldAddr oldSize)

end AlpineOnIOS.AddressSpace
