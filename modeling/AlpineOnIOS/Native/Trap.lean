import Mathlib.Logic.Function.Basic

/-!
# Patched instructions and the trap handler

The patcher replaces three kinds of instructions by breakpoints that carry the kind and the
register number, and the `SIGTRAP` handler acts in their place.
-/

namespace AlpineOnIOS.Native

open UInt32

/-- The rewriting of one instruction word; `none` leaves the word alone. -/
def patchInsn (insn : UInt32) : Option UInt32 :=
  if insn = 0xD4000001 then
    some 0xD4200020
  else if insn &&& 0xFFFFFFE0 = 0xD51BD040 then
    let rn := insn &&& 0x1F
    some ((0xD4200000 : UInt32) ||| ((0x0100 ||| rn) <<< (5 : UInt32)))
  else if insn &&& 0xFFFFFFE0 = 0xD53BD040 then
    let rn := insn &&& 0x1F
    some ((0xD4200000 : UInt32) ||| ((0x0200 ||| rn) <<< (5 : UInt32)))
  else
    none

def nativePatchCode (insns : List UInt32) : List UInt32 :=
  insns.map fun insn => (patchInsn insn).getD insn

/-- The machine context of the host that a signal handler sees. -/
structure Mcontext where
  x : Fin 31 → UInt64
  sp : UInt64
  pc : UInt64
  cpsr : UInt32
  v : Fin 32 → BitVec 128

/-- The fields of `cpu_state_t` that the handler uses. -/
structure CpuState where
  x : Fin 31 → UInt64
  sp : UInt64
  pc : UInt64
  nzcv : UInt32
  tpidrEl0 : UInt64
  running : Bool

/-- `emu_process_t`: the processor state and everything else. -/
structure Process (World : Type) where
  cpu : CpuState
  world : World

/-- What the handler calls, and the two addresses that it hands to the host. -/
structure Environment (World : Type) where
  sysHandle : Process World → Process World
  sigDeliver : Process World → Process World
  nativeExit : UInt64
  cpuAddress : UInt64

namespace Mcontext

/-- `UC_REGS(uc)[rn]`.  The word behind the 31 registers is the stack pointer. -/
def reg (uc : Mcontext) (rn : Fin 32) : UInt64 :=
  if general : rn.val < 31 then uc.x ⟨rn.val, general⟩ else uc.sp

/-- Assignment to `UC_REGS(uc)[rn]`. -/
def setReg (uc : Mcontext) (rn : Fin 32) (value : UInt64) : Mcontext :=
  if general : rn.val < 31 then
    { uc with x := Function.update uc.x ⟨rn.val, general⟩ value }
  else
    { uc with sp := value }

end Mcontext

variable {World : Type}

/-- The copy of the host registers into `proc->cpu`. -/
def snapshot (proc : Process World) (uc : Mcontext) (pc : UInt64) : Process World :=
  { proc with
    cpu := { proc.cpu with x := uc.x, sp := uc.sp, pc, nzcv := uc.cpsr &&& 0xF0000000 } }

variable (environment : Environment World)

/-- Let the host continue in `native_exit`. -/
def trampoline (uc : Mcontext) : Mcontext :=
  { uc with
    pc := environment.nativeExit
    x := Function.update uc.x 0 environment.cpuAddress }

/-- The immediate of a breakpoint. -/
def brkImm (insn : UInt32) : UInt16 := ((insn >>> 5) &&& 0xFFFF).toUInt16

/-- `imm & 0x1F` as a register number. -/
def immRn (imm : UInt16) : Fin 32 := Fin.ofNat 32 (imm &&& 0x1F).toNat

/-- `native_sigtrap_handler`; `none` is the default action, for a thread without a process. -/
def nativeSigtrapHandler (fetch : UInt64 → UInt32)
    (current : Option (Process World)) (uc : Mcontext) : Option (Process World × Mcontext) :=
  let pc := uc.pc
  let imm := brkImm (fetch pc)
  match current with
  | none => none
  | some proc =>
    if imm = 0x0001 then
      let proc := environment.sigDeliver (environment.sysHandle (snapshot proc uc (pc + 4)))
      let uc := { uc with x := proc.cpu.x, sp := proc.cpu.sp }
      if proc.cpu.running = false then
        some (proc, trampoline environment uc)
      else
        some (proc, { uc with pc := proc.cpu.pc })
    else if imm &&& 0xFF00 = 0x0100 then
      some
        ({ proc with cpu := { proc.cpu with tpidrEl0 := uc.reg (immRn imm) } },
          { uc with pc := pc + 4 })
    else if imm &&& 0xFF00 = 0x0200 then
      some (proc, { uc.setReg (immRn imm) proc.cpu.tpidrEl0 with pc := pc + 4 })
    else
      -- An unknown breakpoint stops the process.
      let proc := { proc with cpu := { proc.cpu with running := false } }
      some (snapshot proc uc pc, trampoline environment uc)

/-- The instructions that the patcher looks for. -/
inductive Instruction where
  | svc
  | msrTpidr (rn : Fin 32)
  | mrsTpidr (rn : Fin 32)
  deriving DecidableEq

/-- A field of an instruction word at its lowest bit. -/
def field (value low : UInt32) : UInt32 := value <<< low

/-- A move between a general register and the system register `S3_3_C13_C0_2`, `TPIDR_EL0`. -/
def moveTpidr (read : UInt32) (rn : Fin 32) : UInt32 :=
  0xD5000000 ||| field read 21 ||| field 3 19 ||| field 3 16 ||| field 13 12 ||| field 0 8 |||
    field 2 5 ||| field (UInt32.ofNat rn.val) 0

/-- The word of an instruction. -/
def Instruction.encode : Instruction → UInt32
  | .svc => 0xD4000001 ||| field 0 5
  | .msrTpidr rn => moveTpidr 0 rn
  | .mrsTpidr rn => moveTpidr 1 rn

namespace Mcontext

/-- A general register as an operand; number 31 is the zero register. -/
def operand (uc : Mcontext) (rn : Fin 32) : UInt64 :=
  if general : rn.val < 31 then uc.x ⟨rn.val, general⟩ else 0

/-- A general register as a target; number 31 discards the value. -/
def assign (uc : Mcontext) (rn : Fin 32) (value : UInt64) : Mcontext :=
  if general : rn.val < 31 then
    { uc with x := Function.update uc.x ⟨rn.val, general⟩ value }
  else
    uc

end Mcontext

/-- After an instruction the guest runs on, or its process has stopped. -/
inductive Next (World : Type) where
  | running (proc : Process World) (uc : Mcontext)
  | stopped (proc : Process World)

/-- The effect of an instruction; signals are delivered behind a system call. -/
def execute (proc : Process World) (uc : Mcontext) :
    Instruction → Next World
  | .svc =>
    let after := environment.sigDeliver (environment.sysHandle (snapshot proc uc (uc.pc + 4)))
    if after.cpu.running = true then
      .running after { uc with x := after.cpu.x, sp := after.cpu.sp, pc := after.cpu.pc }
    else
      .stopped after
  | .msrTpidr rn =>
    .running { proc with cpu := { proc.cpu with tpidrEl0 := uc.operand rn } }
      { uc with pc := uc.pc + 4 }
  | .mrsTpidr rn => .running proc { uc.assign rn proc.cpu.tpidrEl0 with pc := uc.pc + 4 }

/-- The same context as behind the instruction, or `native_exit` with the processor state. -/
def Continues (outcome : Option (Process World × Mcontext)) :
    Next World → Prop
  | .running proc uc => outcome = some (proc, uc)
  | .stopped proc => ∃ uc, outcome = some (proc, uc) ∧ uc.pc = environment.nativeExit ∧
      uc.x 0 = environment.cpuAddress

/-- The breakpoint that stands for an instruction. -/
def Instruction.trap : Instruction → UInt32
  | .svc => 0xD4200020
  | .msrTpidr rn => (0xD4200000 : UInt32) ||| ((0x0100 ||| UInt32.ofNat rn.val) <<< (5 : UInt32))
  | .mrsTpidr rn => (0xD4200000 : UInt32) ||| ((0x0200 ||| UInt32.ofNat rn.val) <<< (5 : UInt32))

theorem encode_move : ∀ rn : Fin 32,
    (Instruction.msrTpidr rn).encode = 0xD51BD040 ||| ofNat rn.val ∧
      (Instruction.mrsTpidr rn).encode = 0xD53BD040 ||| ofNat rn.val := by
  decide

theorem eq_base_or {insn base : UInt32} (upper : insn &&& 0xFFFFFFE0 = base) :
    ∃ rn : Fin 32, insn &&& 0x1F = ofNat rn.val ∧ insn = base ||| ofNat rn.val := by
  have small : (insn &&& 0x1F).toNat < 32 := by
    rw [UInt32.toNat_and]
    exact Nat.lt_succ_of_le Nat.and_le_right
  have whole : insn = base ||| (insn &&& 0x1F) := by
    apply toNat.inj
    rw [← upper, UInt32.toNat_or, UInt32.toNat_and, UInt32.toNat_and, ← Nat.and_or_distrib_left]
    exact (Nat.and_two_pow_sub_one_eq_mod _ 32).symm ▸ (Nat.mod_eq_of_lt insn.toNat_lt).symm
  exact ⟨⟨(insn &&& 0x1F).toNat, small⟩, by simp, by simpa using whole⟩

theorem patchInsn_eq_some {insn brk : UInt32} (rewritten : patchInsn insn = some brk) :
    ∃ instruction : Instruction, instruction.encode = insn ∧ instruction.trap = brk := by
  rw [patchInsn] at rewritten
  split at rewritten
  · rename_i same
    exact ⟨.svc, same.symm, Option.some.inj rewritten⟩
  split at rewritten
  · rename_i upper
    obtain ⟨rn, lower, whole⟩ := eq_base_or upper
    rw [lower] at rewritten
    exact ⟨.msrTpidr rn, (encode_move rn).1.trans whole.symm, Option.some.inj rewritten⟩
  split at rewritten
  · rename_i upper
    obtain ⟨rn, lower, whole⟩ := eq_base_or upper
    rw [lower] at rewritten
    exact ⟨.mrsTpidr rn, (encode_move rn).2.trans whole.symm, Option.some.inj rewritten⟩
  · cases rewritten

theorem brkImm_trap : ∀ rn : Fin 32,
    (brkImm (Instruction.msrTpidr rn).trap ≠ 0x0001 ∧
      brkImm (Instruction.msrTpidr rn).trap &&& 0xFF00 = 0x0100 ∧
        immRn (brkImm (Instruction.msrTpidr rn).trap) = rn) ∧
    (brkImm (Instruction.mrsTpidr rn).trap ≠ 0x0001 ∧
      brkImm (Instruction.mrsTpidr rn).trap &&& 0xFF00 ≠ 0x0100 ∧
        brkImm (Instruction.mrsTpidr rn).trap &&& 0xFF00 = 0x0200 ∧
          immRn (brkImm (Instruction.mrsTpidr rn).trap) = rn) := by
  decide

theorem brkImm_trap_svc : brkImm Instruction.svc.trap = 0x0001 := by decide

variable {rn : Fin 32}

theorem eq_last_of_not_general (special : ¬rn.val < 31) : rn = 31 :=
  Fin.ext (Nat.le_antisymm (Nat.le_of_lt_succ rn.isLt) (Nat.le_of_not_lt special))

theorem ne_last_of_general (general : rn.val < 31) : rn ≠ 31 := by
  rintro rfl
  exact absurd general (by decide)

theorem reg_eq_operand_iff (uc : Mcontext) (rn : Fin 32) :
    uc.reg rn = uc.operand rn ↔ (rn = 31 → uc.sp = 0) := by
  rw [Mcontext.reg, Mcontext.operand]
  split
  · rename_i general
    simp [ne_last_of_general general]
  · rename_i special
    simp [eq_last_of_not_general special]

theorem setReg_eq_assign_iff (uc : Mcontext) (rn : Fin 32) (value pc : UInt64) :
    { uc.setReg rn value with pc := pc } = { uc.assign rn value with pc := pc } ↔
      (rn = 31 → value = uc.sp) := by
  rw [Mcontext.setReg, Mcontext.assign]
  split
  · rename_i general
    simp [ne_last_of_general general]
  · rename_i special
    simp [eq_last_of_not_general special]

section Simulation

variable (environment : Environment World) (fetch : UInt64 → UInt32) (proc : Process World)
  (uc : Mcontext)

theorem continues_svc (trapped : fetch uc.pc = Instruction.svc.trap) :
    Continues environment (nativeSigtrapHandler environment fetch (some proc) uc)
      (execute environment proc uc .svc) := by
  have imm : brkImm (fetch uc.pc) = 0x0001 := by
    rw [trapped, brkImm_trap_svc]
  simp only [nativeSigtrapHandler, imm, if_true, execute]
  cases running : (environment.sigDeliver
      (environment.sysHandle (snapshot proc uc (uc.pc + 4)))).cpu.running with
  | true => simp [Continues]
  | false => simp [Continues, trampoline]

/-- A write of the thread pointer is simulated unless it writes a stack pointer for zero. -/
theorem continues_msrTpidr_iff (rn : Fin 32)
    (trapped : fetch uc.pc = (Instruction.msrTpidr rn).trap) :
    Continues environment (nativeSigtrapHandler environment fetch (some proc) uc)
      (execute environment proc uc (.msrTpidr rn)) ↔ (rn = 31 → uc.sp = 0) := by
  obtain ⟨⟨notSvc, kind, register⟩, -⟩ := brkImm_trap rn
  rw [← reg_eq_operand_iff]
  simp only [nativeSigtrapHandler, trapped, if_neg notSvc, if_pos kind, register, execute,
    Continues]
  simp

/-- A read of the thread pointer is simulated unless it changes the stack pointer. -/
theorem continues_mrsTpidr_iff (rn : Fin 32)
    (trapped : fetch uc.pc = (Instruction.mrsTpidr rn).trap) :
    Continues environment (nativeSigtrapHandler environment fetch (some proc) uc)
      (execute environment proc uc (.mrsTpidr rn)) ↔ (rn = 31 → proc.cpu.tpidrEl0 = uc.sp) := by
  obtain ⟨-, notSvc, notWrite, kind, register⟩ := brkImm_trap rn
  rw [← setReg_eq_assign_iff uc rn _ (uc.pc + 4)]
  simp [nativeSigtrapHandler, trapped, if_neg notSvc, if_neg notWrite, if_pos kind, register,
    execute, Continues]

end Simulation

/-- A machine whose registers are all zero but for the stack pointer. -/
def startContext : Mcontext :=
  { x := fun _ => 0, sp := 0x8000, pc := 0x1000, cpsr := 0, v := fun _ => 0 }

/-- A process with a thread pointer. -/
def startProcess : Process Unit :=
  { cpu := { x := fun _ => 0, sp := 0x8000, pc := 0x1000, nzcv := 0, tpidrEl0 := 0x7000,
             running := true }
    world := () }

/-- System calls and signals that change nothing. -/
def idleEnvironment : Environment Unit :=
  { sysHandle := id, sigDeliver := id, nativeExit := 0x2000, cpuAddress := 0x3000 }

end AlpineOnIOS.Native
