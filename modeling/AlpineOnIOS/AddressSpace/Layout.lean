import AlpineOnIOS.AddressSpace.Region

/-!
# Region lists in order

In a list of regions that are in order and do not reach the end of the address range, the loops of
`unmap_range` and `mem_mprotect` replace every region by its pieces, one region after the other.
-/

namespace AlpineOnIOS.AddressSpace

open Foundation Foundation.HostMemory List UInt64 Region

namespace Region

variable (region : Region)

/-- The first address of a region. -/
def start : Nat := region.base.toNat

theorem toNat_base : region.base.toNat = region.start := rfl

/-- The address behind a region, which the code computes modulo `2 ^ 64`. -/
def stop : Nat := region.base.toNat + region.size.toNat

/-- A region that is not empty and ends below `2 ^ 64`. -/
def Fits : Prop := 0 < region.size.toNat ∧ region.stop < 2 ^ 64

variable {region}

theorem Fits.start_lt (fits : region.Fits) : region.start < region.stop := by
  have positive := fits.1
  rw [start, stop]
  omega

theorem Fits.toNat_rend (fits : region.Fits) : region.rend.toNat = region.stop := by
  have bound := fits.2
  rw [stop] at bound ⊢
  rw [rend, UInt64.toNat_add, Nat.mod_eq_of_lt bound]

theorem Fits.skipped_iff (fits : region.Fits) {addr finish : UInt64} :
    region.Skipped addr finish ↔ region.stop ≤ addr.toNat ∨ finish.toNat ≤ region.start := by
  rw [Skipped, le_iff_toNat_le, fits.toNat_rend, ge_iff_le, le_iff_toNat_le, start]

end Region

/-- The regions fit, and each lies behind those in front of it. -/
structure Ordered (regions : List Region) : Prop where
  fits : ∀ region ∈ regions, region.Fits
  apart : regions.Pairwise fun first second => first.stop ≤ second.start

variable {regions : List Region}

namespace Ordered

variable {region : Region} {rest : List Region}

theorem nil : Ordered [] := ⟨fun _ absent => absurd absent not_mem_nil, .nil⟩

theorem singleton (fits : region.Fits) : Ordered [region] :=
  ⟨by simpa using fits, pairwise_singleton _ _⟩

theorem cons_iff : Ordered (region :: rest) ↔
    region.Fits ∧ (∀ other ∈ rest, region.stop ≤ other.start) ∧ Ordered rest := by
  constructor
  · rintro ⟨fits, apart⟩
    rw [forall_mem_cons] at fits
    rw [pairwise_cons] at apart
    exact ⟨fits.1, apart.1, fits.2, apart.2⟩
  · rintro ⟨fits, behind, ordered⟩
    exact ⟨forall_mem_cons.mpr ⟨fits, ordered.fits⟩, pairwise_cons.mpr ⟨behind, ordered.apart⟩⟩

theorem append {front back : List Region} (first : Ordered front) (second : Ordered back)
    (behind : ∀ region ∈ front, ∀ other ∈ back, region.stop ≤ other.start) :
    Ordered (front ++ back) := by
  refine ⟨fun region member => ?_, pairwise_append.mpr ⟨first.apart, second.apart, behind⟩⟩
  cases mem_append.mp member with
  | inl inFront => exact first.fits region inFront
  | inr inBack => exact second.fits region inBack

theorem disjoint (ordered : Ordered regions) :
    regions.Pairwise fun first second => first.stop ≤ second.start ∨ second.stop ≤ first.start :=
  ordered.apart.imp .inl

end Ordered

/-- Regions in order that lie within one region. -/
structure Tiles (region : Region) (pieces : List Region) : Prop where
  ordered : Ordered pieces
  within : ∀ piece ∈ pieces, region.start ≤ piece.start ∧ piece.stop ≤ region.stop

variable {pieces : List Region}

/-- Tiles with borders of some kind. -/
structure Slices (mark : Nat → Prop) (region : Region) (pieces : List Region) : Prop
    extends Tiles region pieces where
  marked : ∀ piece ∈ pieces, mark piece.start ∧ mark piece.stop

namespace Slices

variable {mark : Nat → Prop} {region first : Region}

theorem none : Slices mark region [] := ⟨⟨.nil, by simp⟩, by simp⟩

theorem cons (fits : first.Fits) (lower : region.start ≤ first.start)
    (upper : first.stop ≤ region.stop) (start : mark first.start) (stop : mark first.stop)
    (slices : Slices mark region pieces) (behind : ∀ piece ∈ pieces, first.stop ≤ piece.start) :
    Slices mark region (first :: pieces) :=
  ⟨⟨Ordered.cons_iff.mpr ⟨fits, behind, slices.ordered⟩,
    forall_mem_cons.mpr ⟨⟨lower, upper⟩, slices.within⟩⟩,
    forall_mem_cons.mpr ⟨⟨start, stop⟩, slices.marked⟩⟩

theorem self (fits : region.Fits) (start : mark region.start) (stop : mark region.stop) :
    Slices mark region [region] :=
  .cons fits (Nat.le_refl _) (Nat.le_refl _) start stop .none (by simp)

end Slices

theorem ordered_regionInsert {region : Region} (ordered : Ordered regions) (fits : region.Fits)
    (apart : ∀ other ∈ regions, other.stop ≤ region.start ∨ region.stop ≤ other.start) :
    Ordered (regionInsert region regions) := by
  induction regions with
  | nil => exact .singleton fits
  | cons other rest induction =>
    obtain ⟨otherFits, behind, inOrder⟩ := Ordered.cons_iff.mp ordered
    rw [forall_mem_cons] at apart
    have positive := fits.start_lt
    have otherPositive := otherFits.start_lt
    rw [regionInsert]
    split
    · rename_i larger
      have after : region.start < other.start := lt_iff_toNat_lt.mp larger
      have stops : region.stop ≤ other.start := by omega
      refine Ordered.cons_iff.mpr ⟨fits, forall_mem_cons.mpr ⟨stops, ?_⟩, ordered⟩
      intro later member
      have := behind later member
      omega
    rename_i notLarger
    have before : other.start ≤ region.start :=
      UInt64.le_iff_toNat_le.mp (UInt64.not_lt.mp notLarger)
    refine Ordered.cons_iff.mpr ⟨otherFits, fun later member => ?_, induction inOrder apart.2⟩
    cases mem_cons.mp ((regionInsert_perm region rest).mem_iff.mp member) with
    | inl same =>
      rw [same]
      omega
    | inr inRest => exact behind later inRest

/-- Replace every region by its pieces, from the first to the last. -/
def rebuild (pieces : HostMemory → Region → List Region × HostMemory) :
    HostMemory → List Region → List Region × HostMemory
  | host, [] => ([], host)
  | host, region :: rest =>
    let (mine, host) := pieces host region
    let (others, host) := rebuild pieces host rest
    (mine ++ others, host)

variable {host : HostMemory} {piece : Region}

section Rebuild

variable {pieces : HostMemory → Region → List Region × HostMemory}

theorem exists_of_mem_rebuild (good : HostMemory → Prop)
    (stays : ∀ {host} region, good host → good (pieces host region).2) (start : good host)
    (member : piece ∈ (rebuild pieces host regions).1) :
    ∃ region ∈ regions, ∃ earlier, good earlier ∧ piece ∈ (pieces earlier region).1 := by
  induction regions generalizing host with
  | nil => exact absurd member not_mem_nil
  | cons region rest induction =>
    cases mem_append.mp member with
    | inl mine => exact ⟨region, mem_cons_self, host, start, mine⟩
    | inr others =>
      obtain ⟨origin, inRest, earlier, still, piece⟩ := induction (stays region start) others
      exact ⟨origin, mem_cons_of_mem _ inRest, earlier, still, piece⟩

theorem later_rebuild (later : ∀ host region, Later host (pieces host region).2)
    (host : HostMemory) : Later host (rebuild pieces host regions).2 := by
  induction regions generalizing host with
  | nil => exact .refl host
  | cons region rest induction =>
    rw [rebuild]
    exact (later host region).trans (induction _)

theorem ordered_rebuild (ordered : Ordered regions)
    (tiles : ∀ host, ∀ region ∈ regions, Tiles region (pieces host region).1) (host : HostMemory) :
    Ordered (rebuild pieces host regions).1 := by
  induction regions generalizing host with
  | nil => exact .nil
  | cons region rest induction =>
    obtain ⟨_, behind, inOrder⟩ := Ordered.cons_iff.mp ordered
    have later : ∀ host, ∀ other ∈ rest, Tiles other (pieces host other).1 :=
      fun host other member => tiles host other (mem_cons_of_mem _ member)
    have mine := tiles host region mem_cons_self
    rw [rebuild]
    refine mine.ordered.append (induction inOrder later _) fun piece inMine other inOthers => ?_
    obtain ⟨origin, inRest, earlier, _, inPieces⟩ :=
      exists_of_mem_rebuild (fun _ => True) (fun _ _ => trivial) trivial inOthers
    have upper := (mine.within piece inMine).2
    have lower := ((later earlier origin inRest).within other inPieces).1
    have between := behind origin inRest
    omega

/-- A loop that exchanges one region after the other for its pieces rebuilds the list. -/
theorem runLoop_pieces {step : Passage × HostMemory →
      Control (Passage × HostMemory) (List Region × HostMemory)}
    {measure : Passage × HostMemory → Nat}
    (decreases : ∀ {state following}, step state = .next following →
      measure following < measure state)
    (exits : ∀ passed host, step (⟨passed, []⟩, host) = .exit (passed, host))
    (good : HostMemory → Prop) (stays : ∀ {host} region, good host → good (pieces host region).2)
    (iterates : ∀ {passed region next host}, region.Fits →
      (∀ other ∈ passed, other.start < region.start) →
      (∀ other ∈ next, region.stop ≤ other.start) → good host →
      runLoop decreases (⟨passed, region :: next⟩, host) =
        runLoop decreases (⟨passed ++ (pieces host region).1, next⟩, (pieces host region).2))
    (ordered : Ordered regions)
    (tiles : ∀ host, ∀ region ∈ regions, Tiles region (pieces host region).1) (start : good host) :
    runLoop decreases (⟨[], regions⟩, host) = rebuild pieces host regions := by
  have general : ∀ passed, (∀ other ∈ passed, ∀ region ∈ regions, other.start < region.start) →
      runLoop decreases (⟨passed, regions⟩, host) =
        (passed ++ (rebuild pieces host regions).1, (rebuild pieces host regions).2) := by
    induction regions generalizing host with
    | nil =>
      intro passed before
      rw [runLoop_exit _ (exits passed host), rebuild, append_nil]
    | cons region next induction =>
      intro passed before
      obtain ⟨fits, behind, inOrder⟩ := Ordered.cons_iff.mp ordered
      have inside := tiles host region mem_cons_self
      rw [iterates fits (fun other member => before other member region mem_cons_self)
        behind start, induction inOrder
          (fun host other member => tiles host other (mem_cons_of_mem _ member))
          (stays region start), rebuild, append_assoc]
      intro other member later inNext
      have apart := behind later inNext
      cases mem_append.mp member with
      | inl inPassed =>
        have := before other inPassed region mem_cons_self
        have := fits.start_lt
        omega
      | inr piece =>
        have := (inside.ordered.fits other piece).start_lt
        have := (inside.within other piece).2
        omega
  exact general [] (by simp)

end Rebuild

variable {lower upper : UInt64}

theorem toNat_add_toNat_sub (below : lower.toNat ≤ upper.toNat) :
    lower.toNat + (upper - lower).toNat = upper.toNat := by
  rw [UInt64.toNat_sub_of_le _ _ (UInt64.le_iff_toNat_le.mpr below)]
  omega

theorem fits_of_span (based : piece.base = lower) (sized : piece.size = upper - lower)
    (below : lower.toNat < upper.toNat) :
    piece.Fits ∧ piece.start = lower.toNat ∧ piece.stop = upper.toNat := by
  have ends : piece.stop = upper.toNat := by
    rw [stop, based, sized, toNat_add_toNat_sub below.le]
  refine ⟨⟨?_, ends ▸ upper.toNat_lt⟩, by rw [start, based], ends⟩
  rw [sized, UInt64.toNat_sub_of_le _ _ (UInt64.le_iff_toNat_le.mpr below.le)]
  exact Nat.sub_pos_of_lt below

theorem Slices.span {mark : Nat → Prop} {region : Region} (based : piece.base = lower)
    (sized : piece.size = upper - lower) (below : lower.toNat < upper.toNat)
    (first : region.start ≤ lower.toNat) (last : upper.toNat ≤ region.stop)
    (start : mark lower.toNat) (stop : mark upper.toNat) (slices : Slices mark region pieces)
    (behind : ∀ other ∈ pieces, upper.toNat ≤ other.start) :
    Slices mark region (piece :: pieces) := by
  obtain ⟨fits, starts, ends⟩ := fits_of_span based sized below
  rw [← starts] at first start
  rw [← ends] at last stop behind
  exact .cons fits first last start stop slices behind

theorem stop_rest {region : Region} (fits : region.Fits) {finish : UInt64}
    (upper : finish.toNat ≤ region.stop) :
    finish.toNat + (region.rend - finish).toNat = region.stop := by
  rw [toNat_add_toNat_sub (fits.toNat_rend ▸ upper), fits.toNat_rend]

variable {native : Bool}

section Unmapping

variable {addr finish : UInt64} {region : Region}

/-- The pieces that `unmap_range` leaves of a region. -/
def unmapPieces (native : Bool) (addr finish : UInt64) (host : HostMemory) (region : Region) :
    List Region × HostMemory :=
  match cutRegion native addr finish host region with
  | (.drop, host) => ([], host)
  | (.keep region, host) => ([region], host)
  | (.split region tail, host) => ([region, tail], host)

/-- How a range meets a region, and what `unmap_range` does then. -/
inductive CutCase (native : Bool) (addr finish : UInt64) (host : HostMemory) (region : Region) :
    Cut × HostMemory → Prop
  | apart (outside : region.stop ≤ addr.toNat ∨ finish.toNat ≤ region.start) :
      CutCase native addr finish host region (.keep region, host)
  | covered (lower : addr.toNat ≤ region.start) (upper : region.stop ≤ finish.toNat) :
      CutCase native addr finish host region (.drop, regionFreeHost native host region)
  | around (lower : region.start < addr.toNat) (upper : finish.toNat < region.stop)
      (addrInside : addr.toNat < region.stop) (finishInside : region.start < finish.toNat) :
      CutCase native addr finish host region (splitRegion native host region addr finish)
  | atEnd (lower : region.start < addr.toNat) (inside : addr.toNat < region.stop)
      (upper : region.stop ≤ finish.toNat) :
      CutCase native addr finish host region (.keep { region with size := addr - region.base }, host)
  | atStart (lower : addr.toNat ≤ region.start) (inside : region.start < finish.toNat)
      (upper : finish.toNat < region.stop) :
      CutCase native addr finish host region (trimStart native host region finish)

theorem cutRegion_cases (fits : region.Fits) :
    CutCase native addr finish host region (cutRegion native addr finish host region) := by
  rw [cutRegion]
  split
  · rename_i skipped
    exact .apart (fits.skipped_iff.mp skipped)
  rename_i overlaps
  rw [fits.skipped_iff, not_or, Nat.not_le, Nat.not_le] at overlaps
  simp only [ge_iff_le, gt_iff_lt, le_iff_toNat_le, lt_iff_toNat_lt, fits.toNat_rend, toNat_base]
  split
  · rename_i covered
    exact .covered covered.1 covered.2
  split
  · rename_i around
    exact .around around.1 around.2 overlaps.1 overlaps.2
  split
  · exact .atEnd (by omega) (by omega) (by omega)
  · exact .atStart (by omega) (by omega) (by omega)

/-- What `unmap_range` leaves of a region lies in it, in order. -/
theorem slices_unmapPieces {mark : Nat → Prop} (fits : region.Fits)
    (forward : 0 < finish.toNat → addr.toNat ≤ finish.toNat) (start : mark region.start)
    (stop : mark region.stop) (atAddr : mark addr.toNat) (atFinish : mark finish.toNat) :
    Slices mark region (unmapPieces native addr finish host region).1 := by
  have cut : CutCase native addr finish host region _ := cutRegion_cases fits
  have rest (beyond : finish.toNat < region.stop) (inside : region.start ≤ finish.toNat)
      {piece : Region} (based : piece.base = finish) (sized : piece.size = region.rend - finish) :
      Slices mark region [piece] := by
    rw [← fits.toNat_rend] at beyond stop
    exact .span based sized beyond inside fits.toNat_rend.le atFinish stop .none (by simp)
  rw [unmapPieces]
  generalize cutRegion native addr finish host region = result at cut
  cases cut with
  | apart => exact .self fits start stop
  | covered => exact .none
  | around lower upper addrInside finishInside =>
    obtain ⟨_, -, ⟨-, kept⟩ | ⟨_, split⟩⟩ :=
      splitRegion_cases native host region addr finish
    · rw [kept]
      exact .self fits start stop
    rw [split]
    exact .span rfl rfl lower (Nat.le_refl _) addrInside.le start atAddr
      (rest upper finishInside.le rfl rfl)
      (forall_mem_singleton.mpr (forward (Nat.zero_lt_of_lt finishInside)))
  | atEnd lower inside =>
    exact .span rfl rfl lower (Nat.le_refl _) inside.le start atAddr .none (by simp)
  | atStart lower inside upper =>
    obtain ⟨_, -, ⟨-, kept⟩ | ⟨_, trimmed⟩⟩ := trimStart_cases native host region finish
    · rw [kept]
      exact .self fits start stop
    · rw [trimmed]
      exact rest upper inside.le rfl rfl

theorem tiles_unmapPieces (fits : region.Fits)
    (forward : 0 < finish.toNat → addr.toNat ≤ finish.toNat) :
    Tiles region (unmapPieces native addr finish host region).1 :=
  (@slices_unmapPieces _ _ _ _ _ (fun _ => True) fits forward trivial trivial trivial
    trivial).toTiles

theorem avoids_unmapPieces (generous : host.Generous) (fits : region.Fits) :
    ∀ piece ∈ (unmapPieces native addr finish host region).1,
      piece.stop ≤ addr.toNat ∨ finish.toNat ≤ piece.start := by
  have cut : CutCase native addr finish host region _ := cutRegion_cases fits
  rw [unmapPieces]
  generalize cutRegion native addr finish host region = result at cut
  cases cut with
  | apart outside => exact forall_mem_singleton.mpr outside
  | covered => simp
  | around lower =>
    obtain ⟨_, _, split⟩ := (splitRegion_cases native host region addr finish).granted generous
    rw [split]
    exact forall_mem_cons.mpr ⟨.inl (toNat_add_toNat_sub lower.le).le,
      forall_mem_singleton.mpr (.inr (Nat.le_refl _))⟩
  | atEnd lower =>
    exact forall_mem_singleton.mpr (.inl (toNat_add_toNat_sub lower.le).le)
  | atStart =>
    obtain ⟨_, _, trimmed⟩ := (trimStart_cases native host region finish).granted generous
    rw [trimmed]
    exact forall_mem_singleton.mpr (.inr (Nat.le_refl _))

variable {passed : List Region}

/-- Between the regions passed and those ahead, an inserted region is not visited. -/
theorem Passage.insert_between {ahead : List Region}
    (before : ∀ other ∈ passed, other.start ≤ region.start)
    (behind : ∀ other ∈ ahead, region.start < other.start) :
    (Passage.mk passed ahead).insert region = ⟨passed ++ [region], ahead⟩ := by
  have none : passed.any (·.base > region.base) = false := by
    rw [any_eq_false]
    intro other member
    have lower := before other member
    rw [decide_eq_true_eq, gt_iff_lt, lt_iff_toNat_lt]
    exact Nat.not_lt.mpr lower
  rw [Passage.insert, none]
  cases ahead with
  | nil => rfl
  | cons next =>
    have upper := behind next mem_cons_self
    have larger : next.base > region.base := lt_iff_toNat_lt.mpr upper
    simp [larger, Passage.leave]

theorem unmapStep_cons (fits : region.Fits) (forward : 0 < finish.toNat → addr.toNat ≤ finish.toNat)
    {next : List Region} (before : ∀ other ∈ passed, other.start < region.start)
    (behind : ∀ other ∈ next, region.stop ≤ other.start) :
    unmapStep native addr finish (⟨passed, region :: next⟩, host) =
      .next (⟨passed ++ (unmapPieces native addr finish host region).1, next⟩,
        (unmapPieces native addr finish host region).2) := by
  have tiles : Tiles region (unmapPieces native addr finish host region).1 :=
    tiles_unmapPieces fits forward
  rw [unmapStep]
  rw [unmapPieces] at tiles ⊢
  generalize cut : cutRegion native addr finish host region = result at tiles
  obtain ⟨outcome, _⟩ := result
  cases outcome with
  | drop => simp
  | keep => rfl
  | split kept tail =>
    obtain ⟨below, tailBase⟩ := cutRegion_eq_split cut
    have tailStart : tail.start = finish.toNat := congrArg toNat tailBase
    have lower := lt_iff_toNat_lt.mp below
    rw [toNat_base] at lower
    obtain ⟨keptFits, keptBehind, tailOrdered⟩ := Ordered.cons_iff.mp tiles.ordered
    have keptStart := keptFits.start_lt
    have keptStop := keptBehind tail mem_cons_self
    have tailFits := tailOrdered.fits tail mem_cons_self
    have tailStop := (tiles.within tail (by simp)).2
    simp only
    rw [Passage.insert_between, append_assoc]
    · rfl
    · intro other member
      cases mem_append.mp member with
      | inl inPassed =>
        have := before other inPassed
        omega
      | inr isKept =>
        rw [mem_singleton.mp isKept]
        omega
    · intro other member
      have := behind other member
      have := tailFits.start_lt
      omega

theorem later_unmapPieces : Later host (unmapPieces native addr finish host region).2 := by
  have later := later_cutRegion native host region addr finish
  rw [unmapPieces]
  split
  · rename_i cut
    exact later.of_eq cut
  · rename_i cut
    exact later.of_eq cut
  · rename_i cut
    exact later.of_eq cut

theorem unmapRange_eq {size : UInt64} (ordered : Ordered regions)
    (forward : 0 < (addr + size).toNat → addr.toNat ≤ (addr + size).toNat) :
    unmapRange native host regions addr size =
      rebuild (unmapPieces native addr (addr + size)) host regions := by
  rw [unmapRange]
  exact runLoop_pieces (pending_unmapStep native addr (addr + size)) (fun _ _ => rfl)
    (fun _ => True) (fun _ _ => trivial)
    (fun fits before behind _ => runLoop_next _ (unmapStep_cons fits forward before behind))
    ordered (fun _ region member => tiles_unmapPieces (ordered.fits region member) forward) trivial

end Unmapping

section Protecting

variable {addr finish : UInt64} {prot : UInt32} {region : Region}

/-- The pieces that `mem_mprotect` makes of a region, which stays as it is if the call breaks off. -/
def protectPieces (native : Bool) (addr finish : UInt64) (prot : UInt32) (host : HostMemory)
    (region : Region) : List Region × HostMemory :=
  match protectRegion native addr finish prot host region with
  | (none, host) => ([region], host)
  | (some (left, ahead), host) => (left ++ ahead, host)

/-- How a range meets a region, and what `mem_mprotect` does then. -/
inductive ProtectCase (native : Bool) (addr finish : UInt64) (prot : UInt32) (host : HostMemory)
    (region : Region) : Protection × HostMemory → Prop
  | apart (outside : region.stop ≤ addr.toNat ∨ finish.toNat ≤ region.start) :
      ProtectCase native addr finish prot host region (some ([region], []), host)
  | covered (lower : addr.toNat ≤ region.start) (upper : region.stop ≤ finish.toNat) :
      ProtectCase native addr finish prot host region
        (some ([{ region with prot }], []), hostMprotectRegion native host { region with prot })
  | inside (lower : region.start < addr.toNat) (upper : addr.toNat < region.stop)
      (finishInside : region.start < finish.toNat) :
      ProtectCase native addr finish prot host region
        (protectInside native prot host region addr (region.overlapEnd finish))
  | atStart (lower : addr.toNat ≤ region.start) (inside : region.start < finish.toNat)
      (upper : finish.toNat < region.stop) :
      ProtectCase native addr finish prot host region
        (protectStart native prot host region finish)

theorem Region.Fits.toNat_overlapEnd (fits : region.Fits) :
    (region.overlapEnd finish).toNat = min finish.toNat region.stop := by
  rw [overlapEnd, apply_ite toNat, fits.toNat_rend]
  simp only [lt_iff_toNat_lt, fits.toNat_rend]
  split <;> omega

theorem protectRegion_cases (fits : region.Fits) :
    ProtectCase native addr finish prot host region
      (protectRegion native addr finish prot host region) := by
  rw [protectRegion]
  split
  · rename_i skipped
    exact .apart (fits.skipped_iff.mp skipped)
  rename_i overlaps
  rw [fits.skipped_iff, not_or, Nat.not_le, Nat.not_le] at overlaps
  have atEnd : (region.overlapEnd finish).toNat = min finish.toNat region.stop :=
    fits.toNat_overlapEnd
  by_cases before : addr.toNat ≤ region.start
  · have start : region.overlapStart addr = region.base :=
      if_neg (UInt64.not_lt.mpr (UInt64.le_iff_toNat_le.mpr before))
    by_cases upper : region.stop ≤ finish.toNat
    · have last : region.overlapEnd finish = region.rend := by
        rw [← UInt64.toNat_inj, atEnd, fits.toNat_rend, Nat.min_eq_right upper]
      rw [start, last]
      simpa using .covered before upper
    have last : region.overlapEnd finish = finish := by
      rw [← UInt64.toNat_inj, atEnd, Nat.min_eq_left (Nat.le_of_not_le upper)]
    have different : finish ≠ region.rend := by
      intro same
      have := congrArg UInt64.toNat same
      rw [fits.toNat_rend] at this
      omega
    rw [start, last]
    simpa [different] using .atStart before overlaps.2 (Nat.lt_of_not_le upper)
  · have larger : addr > region.base := lt_iff_toNat_lt.mpr (Nat.lt_of_not_le before)
    have start : region.overlapStart addr = addr := if_pos larger
    have different : addr ≠ region.base := fun same => before (by rw [same]; exact Nat.le_refl _)
    rw [start]
    simpa [different, larger] using .inside (Nat.lt_of_not_le before) overlaps.1 overlaps.2

theorem slices_protectPieces {mark : Nat → Prop} (fits : region.Fits)
    (forward : region.start < addr.toNat → addr.toNat < region.stop → addr.toNat < finish.toNat)
    (start : mark region.start) (stop : mark region.stop) (atAddr : mark addr.toNat)
    (atFinish : mark finish.toNat) :
    Slices mark region (protectPieces native addr finish prot host region).1 := by
  have changed : ProtectCase native addr finish prot host region _ := protectRegion_cases fits
  have atEnd : mark region.rend.toNat := fits.toNat_rend.symm ▸ stop
  rw [protectPieces]
  generalize protectRegion native addr finish prot host region = result at changed
  cases changed with
  | apart => exact .self fits start stop
  | covered => exact .cons fits (Nat.le_refl _) (Nat.le_refl _) start stop .none (by simp)
  | inside lower upper =>
    obtain ⟨_, -, ⟨-, broken⟩ | ⟨_, split⟩⟩ :=
      protectInside_cases native host region prot addr (region.overlapEnd finish)
    · rw [broken]
      exact .self fits start stop
    rw [split]
    have last : (region.overlapEnd finish).toNat = min finish.toNat region.stop :=
      fits.toNat_overlapEnd
    have below : addr.toNat < (region.overlapEnd finish).toNat := by omega
    have within : (region.overlapEnd finish).toNat ≤ region.stop := by omega
    have atLast : mark (region.overlapEnd finish).toNat := by
      rw [last, Nat.min_def]
      split
      · exact atFinish
      · exact stop
    refine .span rfl rfl lower (Nat.le_refl _) upper.le start atAddr
      (.span rfl rfl below lower.le within atAddr atLast ?_ ?_)
      (forall_mem_cons.mpr ⟨Nat.le_refl _, ?_⟩)
    all_goals split
    · rename_i beyond
      exact .span rfl rfl beyond (lower.trans below).le fits.toNat_rend.le atLast atEnd .none
        (by simp)
    · exact .none
    · exact forall_mem_singleton.mpr (Nat.le_refl _)
    · simp
    · exact forall_mem_singleton.mpr below.le
    · simp
  | atStart lower inside upper =>
    obtain ⟨_, -, ⟨-, broken⟩ | ⟨_, split⟩⟩ := protectStart_cases native host region prot finish
    · rw [broken]
      exact .self fits start stop
    rw [split]
    rw [← fits.toNat_rend] at upper
    exact .span rfl rfl inside (Nat.le_refl _) (upper.le.trans fits.toNat_rend.le) start atFinish
      (.span rfl rfl upper inside.le fits.toNat_rend.le atFinish atEnd .none (by simp))
      (forall_mem_singleton.mpr (Nat.le_refl _))

theorem tiles_protectPieces (fits : region.Fits)
    (forward : region.start < addr.toNat → addr.toNat < region.stop → addr.toNat < finish.toNat) :
    Tiles region (protectPieces native addr finish prot host region).1 :=
  (@slices_protectPieces _ _ _ _ _ _ (fun _ => True) fits forward trivial trivial trivial
    trivial).toTiles

theorem protectRegion_isSome (generous : host.Generous) :
    (protectRegion native addr finish prot host region).1.isSome = true := by
  rw [protectRegion]
  split
  · rfl
  simp only
  split
  · rfl
  split
  · obtain ⟨_, _, made⟩ := (protectInside_cases native host region prot (region.overlapStart addr)
      (region.overlapEnd finish)).granted generous
    rw [made]
    rfl
  · obtain ⟨_, _, made⟩ :=
      (protectStart_cases native host region prot (region.overlapEnd finish)).granted generous
    rw [made]
    rfl

/-- One region in the loop of `mem_mprotect`: a tail that was split off is visited, and skipped. -/
theorem runLoop_protectStep_cons (generous : host.Generous) (passed next : List Region) :
    runLoop (pending_protectStep native addr finish prot) (⟨passed, region :: next⟩, host) =
      runLoop (pending_protectStep native addr finish prot)
        (⟨passed ++ (protectPieces native addr finish prot host region).1, next⟩,
          (protectPieces native addr finish prot host region).2) := by
  have unbroken : (protectRegion native addr finish prot host region).1.isSome = true :=
    protectRegion_isSome generous
  rw [protectPieces]
  cases changed : protectRegion native addr finish prot host region with
  | mk protection after =>
    rw [changed] at unbroken
    obtain ⟨⟨left, ahead⟩, rfl⟩ := Option.isSome_iff_exists.mp unbroken
    have stepped : protectStep native addr finish prot (⟨passed, region :: next⟩, host) =
        .next (⟨passed ++ left, ahead ++ next⟩, after) := by
      rw [protectStep, changed]
    rw [runLoop_next _ stepped]
    obtain rfl | ⟨_, tail, rfl, tailBase⟩ := protectRegion_eq_some changed
    · simp only [append_nil, nil_append]
    have skipped : tail.Skipped addr finish := .inr (tailBase ▸ UInt64.le_refl _)
    have again : protectStep native addr finish prot (⟨passed ++ left, [tail] ++ next⟩, after) =
        .next (⟨passed ++ left ++ [tail], next⟩, after) := by
      rw [cons_append, nil_append, protectStep, protectRegion, if_pos skipped]
      rfl
    simp only [runLoop_next _ again, append_assoc]

theorem later_protectPieces : Later host (protectPieces native addr finish prot host region).2 := by
  have later := later_protectRegion native host region addr finish prot
  rw [protectPieces]
  split
  · rename_i changed
    exact later.of_eq changed
  · rename_i changed
    exact later.of_eq changed

theorem memMprotect_eq {space : Space} {size : UInt64} (ordered : Ordered space.regions)
    (generous : host.Generous)
    (forward : ∀ region ∈ space.regions, region.start < (pageAlignDown addr).toNat →
      (pageAlignDown addr).toNat < region.stop →
      (pageAlignDown addr).toNat < (pageAlignDown addr + pageAlignUp size).toNat) :
    memMprotect space host addr size prot =
      ({ space with regions := (rebuild (protectPieces space.aotMode (pageAlignDown addr)
          (pageAlignDown addr + pageAlignUp size) prot) host space.regions).1 },
        (rebuild (protectPieces space.aotMode (pageAlignDown addr)
          (pageAlignDown addr + pageAlignUp size) prot) host space.regions).2) := by
  rw [memMprotect]
  rw [runLoop_pieces (pending_protectStep space.aotMode (pageAlignDown addr)
      (pageAlignDown addr + pageAlignUp size) prot) (fun _ _ => rfl) Generous
    (fun _ generous => later_protectPieces.generous generous)
    (fun _ _ _ generous => runLoop_protectStep_cons generous _ _)
    ordered (fun _ region member =>
      tiles_protectPieces (ordered.fits region member) (forward region member)) generous]

end Protecting

end AlpineOnIOS.AddressSpace
