import AlpineOnIOS.Signal.Delivery
import Mathlib.Data.List.Induction

/-!
# The way into a handler and back

A frame holds all registers and the mask, in fields that do not overlap. As long as nothing writes
to it, `rt_sigreturn` restores what it holds. The frame is always below the interrupted stack
pointer, and in native code only the general registers go back to the host.
-/

namespace AlpineOnIOS.Signal

open Foundation AddressSpace List UInt64 Native

/-- What every field of the frame has in common. -/
structure Field.Lawful (field : Field) : Prop where
  positive : 0 < field.size
  inside : field.offset + field.size ≤ 800
  small : ∀ proc, field.get proc < 256 ^ field.size
  memory : ∀ value proc, (field.set value proc).world.space = proc.world.space ∧
    (field.set value proc).world.host = proc.world.host
  actions : ∀ value proc, (field.set value proc).world.actions = proc.world.actions
  blocked : ∀ value proc, (field.set value proc).world.blocked = proc.world.blocked ∨
    field.offset = 268 ∧ field.size = 8 ∧ (field.set value proc).world.blocked = .ofNat value

theorem lawful_of_mem {field : Field} (member : field ∈ frameFields) : field.Lawful := by
  simp only [frameFields, mem_append, mem_map, mem_cons, not_mem_nil, or_false] at member
  rcases member with ((⟨i, -, rfl⟩ | rfl | rfl | rfl | rfl) | ⟨i, -, rfl⟩) | rfl | rfl
  · exact ⟨Nat.succ_pos _, by dsimp only; omega, fun proc => (proc.cpu.x i).toNat_lt,
      fun _ _ => ⟨rfl, rfl⟩, fun _ _ => rfl, fun _ _ => .inl rfl⟩
  · exact ⟨by decide, by decide, fun proc => proc.cpu.sp.toNat_lt, fun _ _ => ⟨rfl, rfl⟩,
      fun _ _ => rfl, fun _ _ => .inl rfl⟩
  · exact ⟨by decide, by decide, fun proc => proc.cpu.pc.toNat_lt, fun _ _ => ⟨rfl, rfl⟩,
      fun _ _ => rfl, fun _ _ => .inl rfl⟩
  · exact ⟨by decide, by decide, fun proc => proc.cpu.nzcv.toNat_lt, fun _ _ => ⟨rfl, rfl⟩,
      fun _ _ => rfl, fun _ _ => .inl rfl⟩
  · exact ⟨by decide, by decide, fun proc => proc.world.blocked.toNat_lt, fun _ _ => ⟨rfl, rfl⟩,
      fun _ _ => rfl, fun _ _ => .inr ⟨rfl, rfl, rfl⟩⟩
  · exact ⟨Nat.succ_pos _, by dsimp only; omega, fun proc => (proc.world.v i).isLt,
      fun _ _ => ⟨rfl, rfl⟩, fun _ _ => rfl, fun _ _ => .inl rfl⟩
  · exact ⟨by decide, by decide, fun proc => proc.world.fpcr.toNat_lt, fun _ _ => ⟨rfl, rfl⟩,
      fun _ _ => rfl, fun _ _ => .inl rfl⟩
  · exact ⟨by decide, by decide, fun proc => proc.world.fpsr.toNat_lt, fun _ _ => ⟨rfl, rfl⟩,
      fun _ _ => rfl, fun _ _ => .inl rfl⟩

theorem pairwise_frameFields :
    frameFields.Pairwise fun first second => first.offset + first.size ≤ second.offset := by
  have places : (frameFields.map fun field => (field.offset, field.size)).Pairwise
      fun first second => first.1 + first.2 ≤ second.1 := by decide +kernel
  exact pairwise_map.mp places

/-- A process with the registers and the mask of another. -/
def restored (saved proc : Proc) : Proc :=
  { cpu :=
      { proc.cpu with
        x := saved.cpu.x
        sp := saved.cpu.sp
        pc := saved.cpu.pc
        nzcv := saved.cpu.nzcv }
    world :=
      { proc.world with
        v := saved.world.v
        fpcr := saved.world.fpcr
        fpsr := saved.world.fpsr
        blocked := saved.world.blocked } }

theorem foldl_update {Index Value State : Type} [DecidableEq Index] (value : Index → Value)
    (get : State → Index → Value) (put : State → (Index → Value) → State)
    (get_put : ∀ state all, get (put state all) = all)
    (put_put : ∀ state first second, put (put state first) second = put state second)
    (indices : List Index) (state : State) :
    indices.foldl (fun state i => put state (Function.update (get state) i (value i))) state =
      if indices = [] then state
      else put state fun i => if i ∈ indices then value i else get state i := by
  induction indices generalizing state with
  | nil => rfl
  | cons index rest induction =>
    rw [foldl_cons, induction, get_put, put_put, if_neg (cons_ne_nil _ _)]
    split
    · rename_i none
      subst none
      congr 1
      funext i
      by_cases same : i = index <;> simp [same]
    · congr 1
      funext i
      by_cases same : i = index <;> simp [same]

theorem foldl_set (saved proc : Proc) :
    frameFields.foldl (fun proc field => field.set (field.get saved) proc) proc =
      restored saved proc := by
  simp only [frameFields, foldl_append, foldl_map, foldl_cons, foldl_nil,
    UInt64.ofNat_toNat, UInt32.ofNat_toNat, BitVec.ofNat_toNat, BitVec.setWidth_eq]
  have general := foldl_update saved.cpu.x (fun proc : Proc => proc.cpu.x)
    (fun proc x => { proc with cpu.x := x }) (fun _ _ => rfl) (fun _ _ _ => rfl) (finRange 31)
  have vector := foldl_update saved.world.v (fun proc : Proc => proc.world.v)
    (fun proc v => { proc with world.v := v }) (fun _ _ => rfl) (fun _ _ _ => rfl)
    (finRange 32)
  simp only [mem_finRange, if_true] at general vector
  rw [general, if_neg (by decide), vector, if_neg (by decide)]
  rfl

/-- The memory of a process is as the mapping operations leave it. -/
structure Sane (proc : Proc) : Prop where
  ordered : Ordered proc.world.space.regions
  backing : Backing proc.world.host proc.world.space.regions

/-- The bytes that a process sees. -/
def memoryOf (proc : Proc) : ByteMap := guestBytes proc.world.space proc.world.host

/-- A frame holds what belongs to a process. -/
def Holds (memory : ByteMap) (frame : UInt64) (saved : Proc) (fields : List Field) : Prop :=
  ∀ field ∈ fields, Placed memory (frame + .ofNat field.offset)
    (leBytes field.size (field.get saved))

variable {proc saved : Proc} {fields : List Field} {sig : Nat} {frame : UInt64}

theorem Sane.congr {after : Proc} (sane : Sane proc) (space : after.world.space = proc.world.space)
    (host : after.world.host = proc.world.host) : Sane after :=
  ⟨space ▸ sane.ordered, by rw [space, host]; exact sane.backing⟩

theorem wrote_of_writable {host : HostMemory} {space : Space} {offset : Nat} {bytes : List UInt8}
    (ordered : Ordered space.regions) (backing : Backing host space.regions)
    (writable : WritableRange space frame 800) (inside : offset + bytes.length ≤ 800)
    (nonempty : bytes ≠ []) :
    ∃ after, copyBytes space host (frame + .ofNat offset) bytes = some after ∧
      Wrote (guestBytes space host) (guestBytes space after) (frame + .ofNat offset) bytes ∧
      Backing after space.regions := by
  obtain ⟨region, member, _, _, permitted⟩ := writable
  have bound := (ordered.fits region member).2
  have addr : (frame + .ofNat offset).toNat = frame.toNat + offset := by
    rw [UInt64.toNat_add, UInt64.toNat_ofNat', Nat.mod_eq_of_lt (show offset < 2 ^ 64 by omega),
      Nat.mod_eq_of_lt (by omega)]
  have found : (copyBytes space host (frame + .ofNat offset) bytes).isSome = true :=
    (isSome_copyBytes nonempty (by omega) ordered).mpr
      ⟨region, member, by omega, by omega, permitted⟩
  obtain ⟨after, copied⟩ := Option.isSome_iff_exists.mp found
  exact ⟨after, copied, wrote_of_copyBytes nonempty (by omega) ordered backing copied⟩

theorem holds_saveField (sane : Sane proc) (writable : WritableRange proc.world.space frame 800)
    (lawful : ∀ field ∈ fields, field.Lawful)
    (apart : fields.Pairwise fun first second => first.offset + first.size ≤ second.offset) :
    Backing (fields.foldl (saveField proc frame) proc.world.host) proc.world.space.regions ∧
      Holds (guestBytes proc.world.space (fields.foldl (saveField proc frame) proc.world.host)) frame
        proc fields ∧
      ∀ address, (∀ index < 800, address ≠ frame + .ofNat index) →
        guestBytes proc.world.space (fields.foldl (saveField proc frame) proc.world.host) address =
          memoryOf proc address := by
  -- From the back: the last store is apart from all before it.
  induction fields using reverseRecOn with
  | nil => exact ⟨sane.backing, fun _ absent => absurd absent not_mem_nil, fun _ _ => rfl⟩
  | append_singleton fields field induction =>
    rw [pairwise_append] at apart
    obtain ⟨positive, inside, -, -, -, -⟩ := lawful field (mem_append_right _ mem_cons_self)
    obtain ⟨backing, holds, kept⟩ :=
      induction (fun other member => lawful other (mem_append_left _ member)) apart.1
    have length : (leBytes field.size (field.get proc)).length = field.size := length_leBytes ..
    obtain ⟨_, copied, wrote, stillBacked⟩ := wrote_of_writable sane.ordered backing writable
      (by rw [length]; exact inside) (ne_nil_of_length_pos (by rw [length]; exact positive))
    rw [foldl_append, foldl_cons, foldl_nil, saveField, copied, Option.getD_some]
    refine ⟨stillBacked, fun other member => ?_, fun address outside => ?_⟩
    · rcases mem_append.mp member with earlier | last
      · refine (holds other earlier).of_wrote wrote fun index small index' small' => ?_
        have before := apart.2.2 other earlier field mem_cons_self
        rw [length_leBytes] at small small'
        rw [← add_ofNat_add, ← add_ofNat_add]
        exact add_ofNat_ne (by omega) (by omega) (by omega)
      · rw [mem_singleton.mp last]
        exact wrote.placed
    · rw [wrote.kept address fun index small => ?_, kept address outside]
      rw [← add_ofNat_add]
      exact outside _ (by omega)

theorem restoreFields_eq (lawful : ∀ field ∈ fields, field.Lawful) (sane : Sane proc)
    (holds : Holds (memoryOf proc) frame saved fields)
    (completes : (restoreFields frame fields proc).1 = true) :
    (restoreFields frame fields proc).2 =
      fields.foldl (fun proc field => field.set (field.get saved) proc) proc := by
  induction fields generalizing proc with
  | nil => rfl
  | cons field rest induction =>
    rw [restoreFields] at completes ⊢
    obtain ⟨law, laws⟩ := forall_mem_cons.mp lawful
    have bound := law.inside
    have positive := law.positive
    have size : (ofNat field.size).toNat = field.size := by
      rw [toNat_ofNat', Nat.mod_eq_of_lt (by omega)]
    have nonzero : ofNat field.size ≠ 0 := fun zero => by
      rw [zero] at size
      exact Nat.ne_of_gt positive size.symm
    cases read : memReadBytes proc.world.space proc.world.host (frame + .ofNat field.offset)
        (.ofNat field.size) with
    | none =>
      rw [read] at completes
      cases completes
    | some bytes =>
      rw [read] at completes
      obtain ⟨here, later⟩ := forall_mem_cons.mp holds
      obtain ⟨placed, sized⟩ :=
        placed_of_memReadBytes sane.ordered sane.backing nonzero read
      have same := placed.unique here (by rw [sized, size, length_leBytes])
      have value : leNat bytes = field.get saved := by
        rw [same, leNat_leBytes, Nat.mod_eq_of_lt (law.small saved)]
      obtain ⟨space, host⟩ := law.memory (leNat bytes) proc
      have still := sane.congr space host
      have kept : memoryOf (field.set (leNat bytes) proc) = memoryOf proc := by
        rw [memoryOf, memoryOf, space, host]
      rw [induction laws still (kept ▸ later) completes, foldl_cons, value]

/-- A delivery enters a handler. -/
def Enters (proc : Proc) (sig : Nat) : Prop := (deliver proc).1 = some (sig, .entered)
  deriving Decidable

theorem act_of_entered {sa : Sigaction} (entered : (act proc sig sa).1 = .entered) :
    act proc sig sa = (.entered, enterHandler proc sig sa) ∧
      ∃ pointer, memTranslate proc.world.space (frameAddr proc.cpu.sp) 800 memProtWrite =
        some pointer := by
  unfold act at entered ⊢
  split_ifs at entered ⊢ with ignored default quiet continues stops unwritable
  exact ⟨rfl, Option.ne_none_iff_exists'.mp unwritable⟩

theorem Enters.eq (enters : Enters proc sig) :
    sigDeliver proc = enterHandler (clearSignal proc sig) sig (proc.world.actions sig) ∧
      ∃ pointer, memTranslate proc.world.space (frameAddr proc.cpu.sp) 800 memProtWrite =
        some pointer := by
  rw [Enters, deliver] at enters
  rw [sigDeliver, deliver]
  cases found : lowest (sigPending proc) with
  | none =>
    rw [found] at enters
    cases enters
  | some =>
    rw [found] at enters
    obtain ⟨rfl, entered⟩ := Prod.mk.inj (Option.some.inj enters)
    obtain ⟨acted, written⟩ := act_of_entered entered
    exact ⟨congrArg Prod.snd acted, written⟩

theorem sigDeliver_of_not_enters (quiet : ∀ sig, ¬Enters proc sig) :
    ∃ running pending stopped exited, sigDeliver proc =
      { cpu := { proc.cpu with running }, world := { proc.world with pending, stopped, exited } } := by
  unfold Enters at quiet
  unfold sigDeliver deliver act at *
  split at quiet
  · exact ⟨_, _, _, _, rfl⟩
  rename_i sig _
  split_ifs at quiet ⊢
  · exact ⟨_, _, _, _, rfl⟩
  · exact ⟨_, _, _, _, rfl⟩
  · exact ⟨_, _, _, _, rfl⟩
  · exact ⟨_, _, _, _, rfl⟩
  · exact ⟨_, _, _, _, rfl⟩
  · exact ⟨_, _, _, _, rfl⟩
  · exact absurd rfl (quiet sig)

theorem toNat_frameAddr {pointer : Pointer}
    (translated : memTranslate proc.world.space (frameAddr proc.cpu.sp) 800 memProtWrite =
      some pointer) :
    (frameAddr proc.cpu.sp).toNat + 800 = proc.cpu.sp.toNat / 16 * 16 := by
  have bound := toNat_add_lt_of_memTranslate (by decide) translated
  have power : (16 : UInt64).toNat = 2 ^ 4 := rfl
  rw [frameAddr, toNat_alignDown power, UInt64.toNat_sub] at *
  change (2 ^ 64 - 800 + proc.cpu.sp.toNat) % 2 ^ 64 / 16 * 16 + 800 < _ at bound
  change (2 ^ 64 - 800 + proc.cpu.sp.toNat) % 2 ^ 64 / 16 * 16 + 800 = _
  have small := proc.cpu.sp.toNat_lt
  omega

theorem Enters.holds (sane : Sane proc) (enters : Enters proc sig) :
    Sane (sigDeliver proc) ∧ (sigDeliver proc).cpu.sp = frameAddr proc.cpu.sp ∧
      Holds (memoryOf (sigDeliver proc)) (frameAddr proc.cpu.sp) (clearSignal proc sig)
        frameFields ∧
      ∀ address, (∀ index < 800, address ≠ frameAddr proc.cpu.sp + .ofNat index) →
        memoryOf (sigDeliver proc) address = memoryOf proc address := by
  obtain ⟨entered, _, translated⟩ := enters.eq
  have bound := toNat_add_lt_of_memTranslate (by decide) translated
  obtain ⟨region, member, lower, upper, permitted, -⟩ :=
    (memTranslate_eq_some_iff sane.ordered (by decide) bound.le).mp translated
  have still : Sane (clearSignal proc sig) := ⟨sane.ordered, sane.backing⟩
  obtain ⟨backing, holds, kept⟩ := holds_saveField still ⟨region, member, lower, upper, permitted⟩
    (fun _ => lawful_of_mem) pairwise_frameFields
  have host : (sigDeliver proc).world.host = frameFields.foldl
      (saveField (clearSignal proc sig) (frameAddr proc.cpu.sp)) proc.world.host := by
    simp only [entered, enterHandler, clearSignal]
  have space : (sigDeliver proc).world.space = proc.world.space := by
    rw [entered, enterHandler]
    rfl
  have sp : (sigDeliver proc).cpu.sp = frameAddr proc.cpu.sp := by
    rw [entered, enterHandler]
    rfl
  rw [memoryOf, host, space, sp]
  exact ⟨⟨space ▸ sane.ordered, by rw [host, space]; exact backing⟩, rfl, holds, kept⟩

/-- `rt_sigreturn` reads its whole frame. -/
def Completes (proc : Proc) : Prop := (restoreFields proc.cpu.sp frameFields proc).1 = true
  deriving Decidable

/-- What guest code may do: anything but write to the saved frames. -/
def Runs (frames : List UInt64) (before after : Proc) : Prop :=
  Sane after ∧ ∀ frame ∈ frames, ∀ index < 800,
    memoryOf after (frame + .ofNat index) = memoryOf before (frame + .ofNat index)

/-- Guest code, and signals that are delivered below some frames or elsewhere and returned from. -/
inductive Nested : List UInt64 → Proc → Proc → Prop
  | done (frames : List UInt64) (proc : Proc) : Nested frames proc proc
  | runs {frames : List UInt64} {before between after : Proc} (runs : Runs frames before between)
      (later : Nested frames between after) : Nested frames before after
  | signal {frames : List UInt64} {before last after : Proc} {sig : Nat}
      (enters : Enters before sig)
      (onTop : ∀ frame ∈ frames, before.cpu.sp ≤ frame ∨
        frame.toNat + 800 ≤ (sigDeliver before).cpu.sp.toNat)
      (handler : Nested ((sigDeliver before).cpu.sp :: frames) (sigDeliver before) last)
      (back : last.cpu.sp = (sigDeliver before).cpu.sp) (completes : Completes last)
      (later : Nested frames (sysRtSigreturn last) after) : Nested frames before after

variable {frames : List UInt64}

theorem memory_restoreFields (lawful : ∀ field ∈ fields, field.Lawful) (frame : UInt64)
    (proc : Proc) :
    (restoreFields frame fields proc).2.world.space = proc.world.space ∧
      (restoreFields frame fields proc).2.world.host = proc.world.host := by
  induction fields generalizing proc with
  | nil => exact ⟨rfl, rfl⟩
  | cons field rest induction =>
    obtain ⟨law, laws⟩ := forall_mem_cons.mp lawful
    rw [restoreFields]
    split
    · exact ⟨rfl, rfl⟩
    rename_i bytes read
    obtain ⟨space, host⟩ := induction laws (field.set (leNat bytes) proc)
    obtain ⟨sameSpace, sameHost⟩ := law.memory (leNat bytes) proc
    exact ⟨space.trans sameSpace, host.trans sameHost⟩

theorem sysRtSigreturn_eq (completes : Completes proc) :
    sysRtSigreturn proc = (restoreFields proc.cpu.sp frameFields proc).2 := by
  simp only [sysRtSigreturn, doRtSigreturn, show (restoreFields _ _ _).1 = true from completes,
    if_true, setX0]
  congr
  funext index
  split
  · rename_i zero
    exact congrArg _ (Fin.ext zero.symm)
  · rfl

theorem sane_sysRtSigreturn (sane : Sane proc) :
    Sane (sysRtSigreturn proc) ∧ memoryOf (sysRtSigreturn proc) = memoryOf proc := by
  obtain ⟨space, host⟩ := memory_restoreFields (fun _ => lawful_of_mem) proc.cpu.sp proc
  exact ⟨sane.congr space host, congrArg₂ guestBytes space host⟩

theorem Nested.kept {before after : Proc} (nested : Nested frames before after)
    (sane : Sane before) (inRange : ∀ frame ∈ frames, frame.toNat + 800 < 2 ^ 64) :
    Runs frames before after := by
  induction nested with
  | done => exact ⟨sane, fun _ _ _ _ => rfl⟩
  | runs runs _ induction =>
    obtain ⟨last, kept⟩ := induction runs.1 inRange
    exact ⟨last, fun frame member index inside =>
      (kept frame member index inside).trans (runs.2 frame member index inside)⟩
  | @signal frames before last after sig enters onTop _ _ completes _ handler later =>
    obtain ⟨-, _, translated⟩ := enters.eq
    have below := toNat_frameAddr translated
    have bound := toNat_add_lt_of_memTranslate (by decide) translated
    obtain ⟨entered, frame, -, outside⟩ := enters.holds sane
    have all := forall_mem_cons.mpr ⟨frame ▸ bound, inRange⟩
    obtain ⟨lastSane, inner⟩ := handler entered all
    obtain ⟨back, memory⟩ := sane_sysRtSigreturn lastSane
    obtain ⟨final, outer⟩ := later back inRange
    refine ⟨final, fun saved member index inside => ?_⟩
    rw [outer saved member index inside, memory,
      inner saved (mem_cons_of_mem _ member) index inside]
    refine outside _ fun other small same => ?_
    have away := onTop saved member
    have fits := inRange saved member
    have equal := congrArg toNat same
    rw [UInt64.toNat_add, UInt64.toNat_add, UInt64.toNat_ofNat', UInt64.toNat_ofNat'] at equal
    change _ + 800 < _ at bound
    rw [le_iff_toNat_le, frame] at away
    omega

/-- A frame still holds the interrupted state when its handler returns. -/
theorem Nested.holds {last : Proc} (sane : Sane proc) (enters : Enters proc sig)
    (handler : Nested [(sigDeliver proc).cpu.sp] (sigDeliver proc) last)
    (back : last.cpu.sp = (sigDeliver proc).cpu.sp) :
    Sane last ∧ Holds (memoryOf last) last.cpu.sp (clearSignal proc sig) frameFields := by
  obtain ⟨-, _, translated⟩ := enters.eq
  have bound := toNat_add_lt_of_memTranslate (by decide) translated
  obtain ⟨entered, frame, holds, -⟩ := enters.holds sane
  obtain ⟨lastSane, kept⟩ := handler.kept entered (forall_mem_singleton.mpr (frame ▸ bound))
  refine ⟨lastSane, fun field member => ?_⟩
  rw [back, frame]
  refine (holds field member).congr fun index inside => ?_
  have law := (lawful_of_mem member).inside
  rw [length_leBytes] at inside
  rw [← add_ofNat_add, ← frame]
  exact kept _ (mem_singleton_self _) _ (by omega)

theorem sysRtSigreturn_of_holds (sane : Sane proc)
    (holds : Holds (memoryOf proc) proc.cpu.sp saved frameFields) (completes : Completes proc) :
    sysRtSigreturn proc = restored saved proc := by
  rw [sysRtSigreturn_eq completes,
    restoreFields_eq (fun _ => lawful_of_mem) sane holds completes, foldl_set]

/-- The `rt_sigreturn` of a frame restores all registers and the mask. -/
theorem signal_frame_round_trip {last : Proc} {sig : Nat} (sane : Sane proc)
    (enters : Enters proc sig)
    (handler : Nested [(sigDeliver proc).cpu.sp] (sigDeliver proc) last)
    (back : last.cpu.sp = (sigDeliver proc).cpu.sp) (completes : Completes last) :
    sysRtSigreturn last = restored proc last := by
  obtain ⟨lastSane, holds⟩ := handler.holds sane enters back
  rw [sysRtSigreturn_of_holds lastSane holds completes]
  rfl

/-- A process with a page of stack and signal 10 pending, for which it has a handler. -/
def interrupted (flags mask : UInt64) : Proc :=
  { cpu := { x := fun _ => 7, sp := 0x11000, pc := 0x400000, nzcv := 0, tpidrEl0 := 0,
             running := true }
    world :=
      { v := fun _ => 0, fpcr := 0, fpsr := 0, blocked := 0, pending := sigmask 10,
        actions := fun _ => ⟨0x500000, flags, 0, mask⟩
        space := { memSpaceCreate with regions := [⟨0x10000, 0x1000, 3, 0, .direct 0x10000⟩] }
        host := { plainHost with page := fun _ => some 0 }
        altstack := 0, altstackSize := 0, stopped := false, exited := none } }

theorem sane_interrupted (flags mask : UInt64) : Sane (interrupted flags mask) := by
  refine ⟨.singleton ⟨by decide, by decide⟩, ⟨fun region member address lower upper => ?_, ?_⟩⟩
  · rw [Region.byteAt, if_pos ⟨lower, upper⟩, mem_singleton.mp member]
    rfl
  · intro first firstMember second secondMember address other firstLower _ secondLower _ same
    rw [mem_singleton.mp firstMember] at firstLower same
    rw [mem_singleton.mp secondMember] at secondLower same
    have equal := Pointer.direct.inj same
    change 0x10000 ≤ _ at firstLower secondLower
    change 0x10000 + (address - 0x10000) = 0x10000 + (other - 0x10000) at equal
    omega

theorem signal_frame_round_trip_interrupted :
    sysRtSigreturn (sigDeliver (interrupted 0 0)) =
      restored (interrupted 0 0) (sigDeliver (interrupted 0 0)) :=
  signal_frame_round_trip (sane_interrupted 0 0) (by decide +kernel : Enters _ 10) (.done _ _) rfl
    (by decide +kernel)

/-- Stores one after another, which stop at the first failure. -/
def storeAll (proc : Proc) : List (UInt64 × List UInt8) → Bool × Proc
  | [] => (true, proc)
  | (addr, bytes) :: rest =>
    match copyBytes proc.world.space proc.world.host addr bytes with
    | none => (false, proc)
    | some host => storeAll { proc with world.host := host } rest

variable (proc : Proc)

/-- `mem_read64` and `mem_read32`. -/
def loadWord (addr size : UInt64) : Option Nat :=
  (memReadBytes proc.world.space proc.world.host addr size).map leNat

def doSigaltstack (a0 a1 : UInt64) : Int × Proc :=
  let (stored, proc) :=
    if a1 = 0 then (true, proc)
    else
      storeAll proc
        [(a1, leBytes 8 proc.world.altstack.toNat),
          (a1 + 8, leBytes 4 (if proc.world.altstack ≠ 0 then 0 else 2)),
          (a1 + 16, leBytes 8 proc.world.altstackSize.toNat)]
  if stored = false then (-14, proc)
  else if a0 = 0 then (0, proc)
  else
    match loadWord proc a0 8, loadWord proc (a0 + 8) 4, loadWord proc (a0 + 16) 8 with
    | some sp, some flags, some size =>
      -- `SS_DISABLE` is the second bit.
      if flags.testBit 1 then
        (0, { proc with world := { proc.world with altstack := 0, altstackSize := 0 } })
      else
        (0, { proc with
          world := { proc.world with altstack := .ofNat sp, altstackSize := .ofNat size } })
    | _, _, _ => (-14, proc)

/-- What happens to a process between deliveries. -/
inductive Happens : Proc → Proc → Prop
  | altstack (proc : Proc) (a0 a1 : UInt64) : Happens proc (doSigaltstack proc a0 a1).2
  | delivers (proc : Proc) : Happens proc (sigDeliver proc)
  | returns (proc : Proc) : Happens proc (sysRtSigreturn proc)
  | runs {before after : Proc} (sane : Sane after)
      (kept : after.world.altstack = before.world.altstack ∧
        after.world.altstackSize = before.world.altstackSize) : Happens before after

/-- A signal is to be handled on the alternate stack. -/
def WantsAltstack (sig : Nat) : Prop :=
  (proc.world.actions sig).flags &&& saOnstack ≠ 0 ∧ proc.world.altstack ≠ 0 ∧
    ¬(proc.world.altstack.toNat < proc.cpu.sp.toNat ∧
      proc.cpu.sp.toNat ≤ proc.world.altstack.toNat + proc.world.altstackSize.toNat)
  deriving Decidable

/-- A handler starts on the right stack, with its frame there, and returns to the old one. -/
def UsesRightStack (sig : Nat) : Prop :=
  (if WantsAltstack proc sig then
    proc.world.altstack.toNat ≤ (sigDeliver proc).cpu.sp.toNat ∧
      (sigDeliver proc).cpu.sp.toNat + sigframeSize ≤
        proc.world.altstack.toNat + proc.world.altstackSize.toNat
  else (sigDeliver proc).cpu.sp = frameAddr proc.cpu.sp) ∧
  ∀ last, Nested [(sigDeliver proc).cpu.sp] (sigDeliver proc) last →
    last.cpu.sp = (sigDeliver proc).cpu.sp → Completes last →
    (sysRtSigreturn last).cpu.sp = proc.cpu.sp

variable {proc before after : Proc}

theorem sane_storeAll (sane : Sane proc) (stores : List (UInt64 × List UInt8))
    (small : ∀ store ∈ stores, store.2 ≠ [] ∧ store.2.length < 2 ^ 64) :
    Sane (storeAll proc stores).2 := by
  induction stores generalizing proc with
  | nil => exact sane
  | cons store rest induction =>
    obtain ⟨⟨nonempty, short⟩, others⟩ := List.forall_mem_cons.mp small
    rw [storeAll]
    split
    · exact sane
    rename_i copied
    have backing := (wrote_of_copyBytes nonempty short sane.ordered sane.backing copied).2
    exact induction ⟨sane.ordered, backing⟩ others

theorem sane_doSigaltstack (sane : Sane proc) (a0 a1 : UInt64) :
    Sane (doSigaltstack proc a0 a1).2 := by
  have stored : Sane (if a1 = 0 then (true, proc) else storeAll proc
      [(a1, leBytes 8 proc.world.altstack.toNat),
        (a1 + 8, leBytes 4 (if proc.world.altstack ≠ 0 then 0 else 2)),
        (a1 + 16, leBytes 8 proc.world.altstackSize.toNat)]).2 := by
    split
    · exact sane
    refine sane_storeAll sane _ fun store member => ?_
    simp only [List.mem_cons, List.not_mem_nil, or_false] at member
    rcases member with rfl | rfl | rfl <;>
      exact ⟨List.ne_nil_of_length_pos (by rw [length_leBytes]; decide),
        by rw [length_leBytes]; decide⟩
  rw [doSigaltstack]
  split
  rename_i equal
  rw [equal] at stored
  split_ifs
  · exact stored
  · exact stored
  split
  · split_ifs
    · exact stored.congr rfl rfl
    · exact stored.congr rfl rfl
  · exact stored

theorem sane_sigDeliver (sane : Sane proc) : Sane (sigDeliver proc) := by
  by_cases enters : ∃ sig, Enters proc sig
  · obtain ⟨_, enters⟩ := enters
    exact (enters.holds sane).1
  obtain ⟨_, _, _, _, same⟩ := sigDeliver_of_not_enters (not_exists.mp enters)
  rw [same]
  exact sane.congr rfl rfl

theorem Happens.sane (happens : Happens before after) (sane : Sane before) : Sane after := by
  cases happens with
  | altstack => exact sane_doSigaltstack sane _ _
  | delivers => exact sane_sigDeliver sane
  | returns => exact (sane_sysRtSigreturn sane).1
  | runs sane => exact sane

variable {start : Proc} {sig : Nat}

theorem sane_of_history (sane : Sane start) (history : Relation.ReflTransGen Happens start proc) :
    Sane proc := by
  induction history with
  | refl => exact sane
  | tail _ happens induction => exact happens.sane induction

/-- The alternate stack is used only where its end and the interrupted stack pointer meet. -/
theorem usesRightStack_iff (sane : Sane start) (history : Relation.ReflTransGen Happens start proc)
    (enters : Enters proc sig) :
    UsesRightStack proc sig ↔
      (WantsAltstack proc sig →
        proc.world.altstack.toNat + sigframeSize ≤ proc.cpu.sp.toNat / 16 * 16 ∧
          proc.cpu.sp.toNat / 16 * 16 ≤
            proc.world.altstack.toNat + proc.world.altstackSize.toNat) := by
  have still := sane_of_history sane history
  obtain ⟨-, _, translated⟩ := enters.eq
  obtain ⟨-, frame, -, -⟩ := enters.holds still
  have place := toNat_frameAddr translated
  have returns : ∀ last, Nested [(sigDeliver proc).cpu.sp] (sigDeliver proc) last →
      last.cpu.sp = (sigDeliver proc).cpu.sp → Completes last →
      (sysRtSigreturn last).cpu.sp = proc.cpu.sp := by
    intro last handler back completes
    obtain ⟨lastSane, holds⟩ := handler.holds still enters back
    rw [sysRtSigreturn_of_holds lastSane holds completes]
    rfl
  rw [UsesRightStack, and_iff_left returns, frame, sigframeSize]
  split
  · rename_i wants
    rw [forall_prop_of_true wants]
    omega
  · rename_i unwanted
    exact ⟨fun _ wants => absurd wants unwanted, fun _ => rfl⟩

/-- A process that has set the lower kilobyte of its page as its alternate stack. -/
def prepared : Proc :=
  let page := fun address => some (if address = 0x10002 then 1 else if address = 0x10011 then 4 else 0)
  (doSigaltstack { interrupted saOnstack 0 with world.host.page := page } 0x10000 0).2

theorem usesRightStack_interrupted : UsesRightStack (interrupted 0 0) 10 :=
  (usesRightStack_iff (sane_interrupted 0 0) .refl (by decide +kernel)).mpr
    fun wants => absurd wants (by decide)

theorem prepared_misses_altstack :
    prepared.world.altstack = 0x10000 ∧ prepared.world.altstackSize = 0x400 ∧
      Enters prepared 10 ∧ ¬UsesRightStack prepared 10 := by
  refine ⟨by decide +kernel, by decide +kernel, by decide +kernel, fun right => ?_⟩
  have inside := right.1
  revert inside
  decide +kernel

/-- `sys_handle` with `SYS_RT_SIGRETURN` and other calls, which leave the registers alone. -/
def sysHandle (call : Proc → UInt64 × World) (proc : Proc) : Proc :=
  if reg proc 8 = 139 then sysRtSigreturn proc
  else setX0 { proc with world := (call proc).2 } (call proc).1

/-- A process behind the system call of a trap. -/
def called (call : Proc → UInt64 × World) (proc : Proc) (uc : Mcontext) : Proc :=
  sysHandle call (snapshot proc uc (uc.pc + 4))

/-- What the trap handler calls. -/
def environment (call : Proc → UInt64 × World) (nativeExit cpuAddress : UInt64) :
    Environment World :=
  { sysHandle := sysHandle call, sigDeliver, nativeExit, cpuAddress }

/-- Handlers of an interrupted process, each delivered at the return of the one before it. -/
inductive Handled : Proc → Proc → Prop
  | last {proc last : Proc} {sig : Nat} (enters : Enters proc sig)
      (handler : Nested [(sigDeliver proc).cpu.sp] (sigDeliver proc) last)
      (back : last.cpu.sp = (sigDeliver proc).cpu.sp) (completes : Completes last)
      (quiet : ∀ other, ¬Enters (sysRtSigreturn last) other) : Handled proc last
  | again {proc between last : Proc} {sig : Nat} (enters : Enters proc sig)
      (handler : Nested [(sigDeliver proc).cpu.sp] (sigDeliver proc) between)
      (back : between.cpu.sp = (sigDeliver proc).cpu.sp) (completes : Completes between)
      (later : Handled (sysRtSigreturn between) last) : Handled proc last

/-- The registers of a system call that returned, as far as the guest can see them. -/
structure Transparent (uc : Mcontext) (ret : UInt64) (resumed : Mcontext) : Prop where
  x : resumed.x = fun index => if index.val = 0 then ret else uc.x index
  sp : resumed.sp = uc.sp
  pc : resumed.pc = uc.pc + 4
  nzcv : resumed.cpsr &&& 0xF0000000 = uc.cpsr &&& 0xF0000000
  v : resumed.v = uc.v

variable {call : Proc → UInt64 × World} {nativeExit cpuAddress : UInt64} {fetch : UInt64 → UInt32}
  {proc last : Proc} {uc back : Mcontext}

theorem Handled.cpu (handled : Handled proc last) (sane : Sane proc) :
    (sigDeliver (sysRtSigreturn last)).cpu.x = proc.cpu.x ∧
      (sigDeliver (sysRtSigreturn last)).cpu.sp = proc.cpu.sp ∧
      (sigDeliver (sysRtSigreturn last)).cpu.pc = proc.cpu.pc := by
  induction handled with
  | last enters handler back completes quiet =>
    obtain ⟨lastSane, holds⟩ := handler.holds sane enters back
    obtain ⟨_, _, _, _, same⟩ := sigDeliver_of_not_enters quiet
    rw [same, sysRtSigreturn_of_holds lastSane holds completes]
    exact ⟨rfl, rfl, rfl⟩
  | again enters handler back completes _ induction =>
    obtain ⟨lastSane, holds⟩ := handler.holds sane enters back
    obtain ⟨x, sp, pc⟩ := induction (sane_sysRtSigreturn lastSane).1
    rw [x, sp, pc, sysRtSigreturn_of_holds lastSane holds completes]
    exact ⟨rfl, rfl, rfl⟩

/-- A system call that traps continues with the registers of the process. -/
theorem trap_svc (call : Proc → UInt64 × World) (nativeExit cpuAddress : UInt64) (proc : Proc)
    (svc : brkImm (fetch uc.pc) = 0x0001) :
    ∃ resumed, nativeSigtrapHandler (environment call nativeExit cpuAddress) fetch (some proc) uc =
        some (sigDeliver (called call proc uc), resumed) ∧
      ((sigDeliver (called call proc uc)).cpu.running = true →
        resumed =
          { uc with
            x := (sigDeliver (called call proc uc)).cpu.x
            sp := (sigDeliver (called call proc uc)).cpu.sp
            pc := (sigDeliver (called call proc uc)).cpu.pc }) := by
  simp only [nativeSigtrapHandler, environment, svc, if_true, called]
  by_cases stopped :
      (sigDeliver (sysHandle call (snapshot proc uc (uc.pc + 4)))).cpu.running = false
  · exact ⟨_, if_pos stopped, fun running =>
      absurd (stopped.symm.trans running) Bool.false_ne_true⟩
  · exact ⟨_, if_neg stopped, fun _ => rfl⟩

/-- Native code does not notice a signal exactly if flags and vector registers stay as they were. -/
theorem native_signal_transparent_iff (svc : brkImm (fetch uc.pc) = 0x0001)
    (again : brkImm (fetch back.pc) = 0x0001) (ordinary : uc.x 8 ≠ 139) (sigreturn : back.x 8 = 139)
    (sane : Sane (called call proc uc))
    (handled : Handled (called call proc uc) (snapshot last back (back.pc + 4)))
    (running : (sigDeliver (called call last back)).cpu.running = true) :
    ∃ entered resumed,
      nativeSigtrapHandler (environment call nativeExit cpuAddress) fetch (some proc) uc =
        some (sigDeliver (called call proc uc), entered) ∧
      nativeSigtrapHandler (environment call nativeExit cpuAddress) fetch (some last) back =
        some (sigDeliver (called call last back), resumed) ∧
      (Transparent uc (call (snapshot proc uc (uc.pc + 4))).1 resumed ↔
        back.cpsr &&& 0xF0000000 = uc.cpsr &&& 0xF0000000 ∧ back.v = uc.v) := by
  obtain ⟨entered, first, -⟩ := trap_svc call nativeExit cpuAddress proc svc
  obtain ⟨resumed, second, registers⟩ := trap_svc call nativeExit cpuAddress last again
  have returned : called call last back = sysRtSigreturn (snapshot last back (back.pc + 4)) :=
    if_pos sigreturn
  have point : called call proc uc =
      setX0 { snapshot proc uc (uc.pc + 4) with world := (call (snapshot proc uc (uc.pc + 4))).2 }
        (call (snapshot proc uc (uc.pc + 4))).1 := if_neg ordinary
  obtain ⟨x, sp, pc⟩ := handled.cpu sane
  refine ⟨entered, resumed, first, second, ?_⟩
  rw [registers running, returned, x, sp, pc, point]
  exact ⟨fun transparent => ⟨transparent.nzcv, transparent.v⟩,
    fun kept => ⟨rfl, rfl, rfl, kept.1, kept.2⟩⟩

/-- Native code with the number of a system call in its registers. -/
def trapContext (nr sp : UInt64) (cpsr : UInt32) (v : BitVec 128) : Mcontext :=
  { x := fun _ => nr, sp, pc := 0x400000, cpsr, v := fun _ => v }

/-- `getppid`, at which a signal is delivered. -/
def trapped : Mcontext := trapContext 173 0x11000 0x60000000 5

/-- The return of a handler that has used the flags and the vector registers. -/
def clobbered : Mcontext := trapContext 139 0x10ce0 0x80000000 9

/-- Code that consists of system calls. -/
def allCalls (_ : UInt64) : UInt32 := 0xD4200020

/-- A system call without any effect. -/
def plainCall (proc : Proc) : UInt64 × World := (1, proc.world)

/-- The process before the delivery. -/
def atCall : Proc := called plainCall (interrupted 0 0) trapped

theorem handled_clobbered :
    Sane atCall ∧ Handled atCall (snapshot (sigDeliver atCall) clobbered (clobbered.pc + 4)) := by
  have point : atCall = setX0 { snapshot (interrupted 0 0) trapped (trapped.pc + 4) with
      world := (interrupted 0 0).world } 1 := by
    rw [atCall, called, sysHandle, if_neg (by decide)]
    rfl
  have sane : Sane atCall := by
    rw [point]
    exact (sane_interrupted 0 0).congr rfl rfl
  have enters : Enters atCall 10 := by decide +kernel
  have runs : Runs [(sigDeliver atCall).cpu.sp] (sigDeliver atCall)
      (snapshot (sigDeliver atCall) clobbered (clobbered.pc + 4)) :=
    ⟨(enters.holds sane).1.congr rfl rfl, fun _ _ _ _ => rfl⟩
  refine ⟨sane, .last enters (.runs runs (.done _ _)) (by decide +kernel) (by decide +kernel)
    fun other entered => ?_⟩
  cases entered

theorem native_signal_clobbered :
    ∃ entered resumed,
      nativeSigtrapHandler (environment plainCall 0 0) allCalls
          (some (interrupted 0 0)) trapped = some (sigDeliver atCall, entered) ∧
      nativeSigtrapHandler (environment plainCall 0 0) allCalls
          (some (sigDeliver atCall)) clobbered =
        some (sigDeliver (called plainCall (sigDeliver atCall) clobbered), resumed) ∧
      (Transparent trapped 1 resumed ↔
        clobbered.cpsr &&& 0xF0000000 = trapped.cpsr &&& 0xF0000000 ∧ clobbered.v = trapped.v) :=
  native_signal_transparent_iff rfl rfl (by decide) rfl handled_clobbered.1 handled_clobbered.2
    (by decide +kernel)

theorem flags_not_restored :
    Handled atCall (snapshot (sigDeliver atCall) clobbered (clobbered.pc + 4)) ∧
      ∃ after resumed,
        nativeSigtrapHandler (environment plainCall 0 0) allCalls
          (some (sigDeliver atCall)) clobbered = some (after, resumed) ∧
        resumed.cpsr = 0x80000000 ∧ ¬Transparent trapped 1 resumed := by
  have svc : brkImm (allCalls clobbered.pc) = 0x0001 := rfl
  have running : (sigDeliver (called plainCall (sigDeliver atCall) clobbered)).cpu.running =
      true := by decide +kernel
  obtain ⟨resumed, second, registers⟩ := trap_svc plainCall 0 0 (sigDeliver atCall) svc
  have flags : resumed.cpsr = 0x80000000 := by rw [registers running]; rfl
  refine ⟨handled_clobbered.2, _, resumed, second, flags, fun transparent => ?_⟩
  have kept := transparent.nzcv
  rw [flags] at kept
  exact absurd kept (by decide)

end AlpineOnIOS.Signal
