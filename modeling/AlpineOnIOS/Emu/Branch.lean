import AlpineOnIOS.Emu.Cpu

/-!
# Branches

`cpu_exec_one` takes an unchanged program counter for an instruction that is no branch.
-/

namespace AlpineOnIOS.Emu

open BitVec hiding signExtend getLsbD_signExtend

variable {Rest : Type} (cpu : Cpu Rest) (insn : BitVec 32)

/-- The end of a conditional branch. -/
def branchIf (taken : Prop) [Decidable taken] (hi lo : Nat) : Code × Cpu Rest :=
  let offset := signExtend (.ofNat 64 (bits insn hi lo)) (hi + 1 - lo) <<< 2
  (.ok, { cpu with pc := if taken then cpu.pc + offset else cpu.pc + 4 })

/-- `exec_branch`, with the masks as fields and `exec_system` given. -/
def execBranch (execSystem : Cpu Rest → BitVec 32 → Code × Cpu Rest) : Code × Cpu Rest :=
  let op := bit insn 24
  let val := cpu.xreg (bits insn 4 0)
  if bits insn 30 26 = 0x05 then
    branchIf (if bit insn 31 = 1 then cpu.setXreg 30 (cpu.pc + 4) else cpu) insn True 25 0
  else if bits insn 31 24 = 0x54 ∧ bit insn 4 = 0 then
    branchIf cpu insn (checkCond cpu.nzcv (bits insn 3 0)) 23 5
  else if bits insn 30 25 = 0x1A then
    let val := if bit insn 31 = 1 then val else (val.setWidth 32).setWidth 64
    branchIf cpu insn (op = 0 ∧ val = 0 ∨ op = 1 ∧ val ≠ 0) 23 5
  else if bits insn 30 25 = 0x1B then
    let bitpos := bit insn 31 * 32 + bits insn 23 19
    branchIf cpu insn (op = 0 ∧ !val.getLsbD bitpos ∨ op = 1 ∧ val.getLsbD bitpos) 18 5
  else if bits insn 31 24 = 0xD4 then
    if bits insn 23 21 = 0 ∧ bits insn 1 0 = 1 then (.syscall, { cpu with pc := cpu.pc + 4 })
    else if bits insn 23 21 = 1 ∧ bits insn 1 0 = 0 then (.brk, cpu)
    else (.unimpl, cpu)
  else if bits insn 31 25 = 0x6B then
    let target := cpu.xreg (bits insn 9 5)
    match bits insn 24 21 with
    | 0 | 2 => (.ok, { cpu with pc := target })
    | 1 => (.ok, { cpu.setXreg 30 (cpu.pc + 4) with pc := target })
    | _ => (.unimpl, cpu)
  else if bits insn 31 22 = 0x354 then execSystem cpu insn
  else (.unimpl, cpu)

/-- `cpu_exec_one`, with the memory and the other executors given. -/
def cpuExecOne (memRead32 : BitVec 64 → Option (BitVec 32))
    (exec : Cpu Rest → BitVec 32 → Code × Cpu Rest) : Code × Cpu Rest :=
  match memRead32 cpu.pc with
  | none => (.segfault, cpu)
  | some insn =>
    let group := bits insn 28 25
    let (rc, next) := if group = 0xA ∨ group = 0xB then execBranch cpu insn exec else exec cpu insn
    (rc, if rc = .ok ∧ next.pc = cpu.pc then { next with pc := next.pc + 4 } else next)

/-- A branch of the architecture in a state. -/
structure Branch where
  taken : Bool
  target : BitVec 64
  links : Bool

/-- The branch that a word encodes. -/
def branchOf : Option Branch :=
  let relative (lo width : Nat) := cpu.pc + (insn.extractLsb' lo width ++ 0#2).signExtend 64
  let rt := cpu.xreg (bits insn 4 0)
  if bits insn 30 26 = 0b00101 then some ⟨true, relative 0 26, bit insn 31 = 1⟩
  else if bits insn 31 24 = 0b01010100 ∧ bit insn 4 = 0 then
    some ⟨checkCond cpu.nzcv (bits insn 3 0), relative 5 19, false⟩
  else if bits insn 30 25 = 0b011010 then
    let zero := if bit insn 31 = 1 then rt == 0 else rt.setWidth 32 == 0
    some ⟨zero ↔ bit insn 24 = 0, relative 5 19, false⟩
  else if bits insn 30 25 = 0b011011 then
    let tested := rt.getLsbD (32 * bit insn 31 + bits insn 23 19)
    some ⟨tested ↔ bit insn 24 = 1, relative 5 14, false⟩
  else if bits insn 31 25 = 0b1101011 ∧ bits insn 24 21 ≤ 2 ∧ bits insn 20 10 = 0b11111000000 ∧
      bits insn 4 0 = 0 then
    some ⟨true, cpu.xreg (bits insn 9 5), bits insn 24 21 = 1⟩
  else none

/-- What a branch is to do. -/
def Branch.effect (branch : Branch) : Cpu Rest :=
  let linked := if branch.links then cpu.setXreg 30 (cpu.pc + 4) else cpu
  { linked with pc := if branch.taken then branch.target else cpu.pc + 4 }

theorem offset_eq (hi lo : Nat) (short : lo ≤ hi ∧ hi < lo + 62) :
    signExtend (.ofNat 64 (bits insn hi lo)) (hi + 1 - lo) <<< 2 =
      (insn.extractLsb' lo (hi + 1 - lo) ++ 0#2).signExtend 64 := by
  have field : BitVec.ofNat 64 (bits insn hi lo) =
      (insn.extractLsb' lo (hi + 1 - lo)).setWidth 64 := by
    rw [bits, ← Nat.shiftRight_eq_div_pow, ← extractLsb'_toNat, ofNat_toNat]
  apply eq_of_getLsbD_eq
  intro index inside
  rw [field, getLsbD_shiftLeft, getLsbD_signExtend _ _ (by omega), BitVec.getLsbD_signExtend,
    getLsbD_append, msb_eq_getLsbD_last, getLsbD_append,
    getLsbD_setWidth]
  grind

theorem execBranch_eq {branch : Branch} (encodes : branchOf cpu insn = some branch)
    (execSystem : Cpu Rest → BitVec 32 → Code × Cpu Rest) :
    execBranch cpu insn execSystem = (.ok, branch.effect cpu) := by
  simp only [branchOf] at encodes
  simp only [execBranch, branchIf]
  split at encodes
  · rename_i shape
    cases encodes
    rw [if_pos shape, offset_eq _ _ _ (by decide)]
    by_cases link : bit insn 31 = 1
    all_goals simp [Branch.effect, link, Cpu.setXreg]
  split at encodes
  · rename_i other shape
    cases encodes
    rw [if_neg other, if_pos shape, offset_eq _ _ _ (by decide)]
    rfl
  split at encodes
  · rename_i other third shape
    cases encodes
    have narrow (val : BitVec 64) : (val.setWidth 32).setWidth 64 = 0 ↔ val.setWidth 32 = 0 := by
      rw [← toNat_inj, ← toNat_inj]
      simp
      omega
    have single : bit insn 24 < 2 := Nat.mod_lt _ (by decide)
    rw [if_neg other, if_neg third, if_pos shape, offset_eq _ _ _ (by decide)]
    by_cases wide : bit insn 31 = 1
    all_goals
      simp [Branch.effect, wide]
      grind
  split at encodes
  · rename_i other third fourth shape
    cases encodes
    have single : bit insn 24 < 2 := Nat.mod_lt _ (by decide)
    rw [if_neg other, if_neg third, if_neg fourth, if_pos shape, offset_eq _ _ _ (by decide)]
    simp [Branch.effect, Nat.mul_comm 32]
    grind
  split at encodes
  · rename_i other third fourth fifth shape
    cases encodes
    have sixth : bits insn 31 24 ≠ 0xD4 := by
      simp only [bits] at shape ⊢
      omega
    rw [if_neg other, if_neg third, if_neg fourth, if_neg fifth, if_neg sixth, if_pos shape.1]
    have small := shape.2.1
    generalize bits insn 24 21 = opc at *
    interval_cases opc
    all_goals rfl
  · cases encodes

/-- A step takes a branch as the architecture says, unless its target is its own address. -/
theorem branch_iff {branch : Branch} {memRead32 : BitVec 64 → Option (BitVec 32)}
    (read : memRead32 cpu.pc = some insn) (encodes : branchOf cpu insn = some branch)
    (exec : Cpu Rest → BitVec 32 → Code × Cpu Rest) :
    cpuExecOne cpu memRead32 exec = (.ok, branch.effect cpu) ↔
      ¬(branch.taken = true ∧ branch.target = cpu.pc) := by
  have group : bits insn 28 25 = 0xA ∨ bits insn 28 25 = 0xB := by
    simp only [branchOf, bits] at encodes ⊢
    grind
  have onwards : ∀ pc : BitVec 64, pc + 4 ≠ pc := by
    intro pc
    bv_omega
  have stays : (branch.effect cpu).pc = cpu.pc ↔ branch.taken = true ∧ branch.target = cpu.pc := by
    change (if branch.taken then branch.target else cpu.pc + 4) = cpu.pc ↔ _
    split <;> simp [*]
  simp only [cpuExecOne, read, if_pos group, execBranch_eq cpu insn encodes, true_and, ← stays]
  split
  · rename_i same
    refine iff_of_false (fun done => ?_) (not_not_intro same)
    exact onwards _ (congrArg (Cpu.pc ∘ Prod.snd) done)
  · rename_i other
    exact iff_of_true rfl other

theorem branch_backwards : cpuExecOne { sampleCpu with pc := 64 } (fun _ => some 0x17FFFFFF)
    (fun cpu _ => (.err, cpu)) = (.ok, { sampleCpu with pc := 60 }) :=
  (branch_iff { sampleCpu with pc := 64 } 0x17FFFFFF rfl rfl _).mpr (by decide)

/-- A branch to itself falls through. -/
theorem branch_to_itself_leaves : cpuExecOne sampleCpu (fun _ => some 0x14000000)
    (fun cpu _ => (.err, cpu)) = (.ok, { sampleCpu with pc := 4 }) ∧
      branchOf sampleCpu 0x14000000 = some ⟨true, sampleCpu.pc, false⟩ :=
  ⟨rfl, rfl⟩

end AlpineOnIOS.Emu
