import AlpineOnIOS.Emu.Cpu

/-!
# Condition flags

Additions, subtractions and conditional compares set the flags by formulas on bits.  The conditions
that `cpu_check_cond` evaluates on them are the relations of the operands.
-/

namespace AlpineOnIOS.Emu

open BitVec hiding signExtend getLsbD_signExtend

variable {Rest : Type} (cpu : Cpu Rest) (insn : BitVec 32) {width : Nat}

def flags (n z c v : Bool) : BitVec 32 :=
  .ofNat 32 (n.toNat * 2 ^ 31 + z.toNat * 2 ^ 30 + c.toNat * 2 ^ 29 + v.toNat * 2 ^ 28)

/-- `cpu_update_flags_add32` and `cpu_update_flags_add64`. -/
def updateFlagsAdd (a b result : BitVec width) : BitVec 32 :=
  flags result.msb (result = 0) (result < a) ((a ^^^ result) &&& (b ^^^ result)).msb

/-- `cpu_update_flags_sub32` and `cpu_update_flags_sub64`. -/
def updateFlagsSub (a b result : BitVec width) : BitVec 32 :=
  flags result.msb (result = 0) (b ≤ a) ((a ^^^ b) &&& (a ^^^ result)).msb

/-- The sum or the difference, and its flags. -/
def addSub (op : Nat) (a b : BitVec width) : BitVec width × BitVec 32 :=
  if op = 0 then (a + b, updateFlagsAdd a b (a + b)) else (a - b, updateFlagsSub a b (a - b))

/-- The end of the additions, which sets a register by `plain` if it does not set the flags. -/
def addSubEnd (plain : Cpu Rest → Nat → BitVec 64 → Cpu Rest) (a b : BitVec width) :
    Code × Cpu Rest :=
  let (result, nzcv) := addSub (bit insn 30) a b
  let rd := bits insn 4 0
  (.ok, if bit insn 29 = 1 then { cpu with nzcv }.setXreg rd (result.setWidth 64)
    else plain cpu rd (result.setWidth 64))

def execAddSubImm : Code × Cpu Rest :=
  let width := regwidth (bit insn 31)
  let imm := BitVec.ofNat 64 (bits insn 21 10)
  addSubEnd cpu insn Cpu.setXregSp ((cpu.xregSp (bits insn 9 5)).setWidth width)
    ((if bit insn 22 = 1 then imm <<< 12 else imm).setWidth width)

/-- `apply_shift` and `apply_shift32`. -/
def applyShift (val : BitVec width) (shiftType amount : Nat) : BitVec width :=
  if amount = 0 then val
  else match shiftType with
    | 0 => val <<< amount
    | 1 => val >>> amount
    | 2 => val.sshiftRight amount
    | 3 => val >>> amount ||| val <<< (width - amount)
    | _ => val

def execAddSubShifted : Code × Cpu Rest :=
  let width := regwidth (bit insn 31)
  let shiftType := bits insn 23 22
  let imm6 := bits insn 15 10
  if shiftType = 3 ∨ bit insn 31 = 0 ∧ 32 ≤ imm6 then (.err, cpu)
  else addSubEnd cpu insn Cpu.setXreg ((cpu.xreg (bits insn 9 5)).setWidth width)
    (applyShift ((cpu.xreg (bits insn 20 16)).setWidth width) shiftType imm6)

def extendReg (reg extType shift : Nat) : BitVec 64 :=
  let val := cpu.xreg reg
  let extended : BitVec 64 := match extType with
    | 0 => val &&& 0xFF#64
    | 1 => val &&& 0xFFFF#64
    | 2 => val &&& 0xFFFFFFFF#64
    | 4 => signExtend val 8
    | 5 => signExtend val 16
    | 6 => signExtend val 32
    | _ => val
  extended <<< shift

def execAddSubExtended : Code × Cpu Rest :=
  let width := regwidth (bit insn 31)
  let imm3 := bits insn 12 10
  if 4 < imm3 then (.err, cpu)
  else addSubEnd cpu insn Cpu.setXregSp ((cpu.xregSp (bits insn 9 5)).setWidth width)
    ((extendReg cpu (bits insn 20 16) (bits insn 15 13) imm3).setWidth width)

def execCondCompare : Code × Cpu Rest :=
  let width := regwidth (bit insn 31)
  let m := if bit insn 11 = 1 then BitVec.ofNat 64 (bits insn 20 16) else cpu.xreg (bits insn 20 16)
  if bit insn 29 ≠ 1 ∨ bit insn 10 ≠ 0 ∨ bit insn 4 ≠ 0 then (.err, cpu)
  else if checkCond cpu.nzcv (bits insn 15 12) then
    (.ok, { cpu with nzcv := (addSub (bit insn 30)
      ((cpu.xreg (bits insn 9 5)).setWidth width) (m.setWidth width)).2 })
  else (.ok, { cpu with nzcv := BitVec.ofNat 32 (bits insn 3 0) <<< 28 })

/-- The relation of a condition. -/
def Relation (cond : Nat) (a b : BitVec width) : Prop :=
  match cond with
  | 0 => a = b
  | 1 => a ≠ b
  | 2 => b.toNat ≤ a.toNat
  | 3 => a.toNat < b.toNat
  | 4 => (a - b).toInt < 0
  | 5 => 0 ≤ (a - b).toInt
  | 6 => (a - b).toInt ≠ a.toInt - b.toInt
  | 7 => (a - b).toInt = a.toInt - b.toInt
  | 8 => b.toNat < a.toNat
  | 9 => a.toNat ≤ b.toNat
  | 10 => b.toInt ≤ a.toInt
  | 11 => a.toInt < b.toInt
  | 12 => b.toInt < a.toInt
  | 13 => a.toInt ≤ b.toInt
  | _ => True

/-- What the flags say: relations after a subtraction, overflows after an addition. -/
def Agrees (op : Nat) (nzcv : BitVec 32) (a b : BitVec width) : Prop :=
  if op = 0 then (nzcv.getLsbD 29 = true ↔ 2 ^ width ≤ a.toNat + b.toNat) ∧
    (nzcv.getLsbD 28 = true ↔ (a + b).toInt ≠ a.toInt + b.toInt)
  else ∀ cond < 16, checkCond nzcv cond = true ↔ Relation cond a b

theorem getLsbD_flags (n z c v : Bool) : (flags n z c v).getLsbD 31 = n ∧
    (flags n z c v).getLsbD 30 = z ∧ (flags n z c v).getLsbD 29 = c ∧
    (flags n z c v).getLsbD 28 = v := by
  revert n z c v
  decide

theorem toNat_sum (a b : BitVec width) : (a + b).toNat =
    if 2 ^ width ≤ a.toNat + b.toNat then a.toNat + b.toNat - 2 ^ width else a.toNat + b.toNat := by
  rw [toNat_add, Nat.add_mod_eq_ite, Nat.mod_eq_of_lt a.isLt, Nat.mod_eq_of_lt b.isLt]

theorem agrees_addSub (op : Nat) (positive : 0 < width) (a b : BitVec width) :
    Agrees op (addSub op a b).2 a b := by
  obtain ⟨width, rfl⟩ : ∃ smaller, width = smaller + 1 := ⟨width - 1, by omega⟩
  have double : 2 ^ (width + 1) = 2 * 2 ^ width := by ring
  have first := a.isLt
  have second := b.isLt
  rw [double] at first second
  rw [addSub]
  split
  · rename_i zero
    have sum := toNat_sum a b
    simp only [Agrees, zero, if_true, updateFlagsAdd, getLsbD_flags, msb_and,
      msb_xor]
    simp only [msb_eq_decide, lt_def, toInt_eq_toNat_cond,
      Nat.add_sub_cancel, double, decide_eq_true_eq] at sum ⊢
    generalize (a + b).toNat = r at *
    generalize a.toNat = x at *
    generalize b.toNat = y at *
    grind
  · rename_i nonzero
    have third := (a - b).isLt
    have difference := toNat_sum (a - b) b
    rw [sub_add_cancel] at difference
    rw [Agrees, if_neg nonzero]
    intro cond bound
    simp only [updateFlagsSub, checkCond, getLsbD_flags, msb_and, msb_xor]
    simp only [msb_eq_decide, le_def, Nat.add_sub_cancel, ← toNat_inj,
      ofNat_eq_ofNat, toNat_zero, double] at third difference ⊢
    interval_cases cond
    all_goals
      simp only [Relation, toInt_eq_toNat_cond, double, ne_eq, ← toNat_inj,
        Bool.not_and]
      generalize (a - b).toNat = r at *
      generalize a.toNat = x at *
      generalize b.toNat = y at *
      grind

/-- The second operand of the forms with a shifted register. -/
def shifted (shiftType amount : Nat) (m : BitVec width) : BitVec width :=
  match shiftType with
  | 0 => m <<< amount
  | 1 => m >>> amount
  | _ => m.sshiftRight amount

/-- The second operand of the forms with an extended register. -/
def extended (width extType shift : Nat) (m : BitVec 64) : BitVec width :=
  let field := m.setWidth (8 * 2 ^ (extType % 4))
  (if extType < 4 then field.setWidth width else field.signExtend width) <<< shift

theorem applyShift_eq {shiftType : Nat} (type : shiftType < 3) (amount : Nat) (m : BitVec width) :
    applyShift m shiftType amount = shifted shiftType amount m := by
  unfold applyShift
  interval_cases shiftType
  all_goals
    split
    · simp [shifted, *]
    · rfl

theorem setWidth_extendReg {extType : Nat} (type : extType < 8) (small : width ≤ 64)
    (reg shift : Nat) : (extendReg cpu reg extType shift).setWidth width =
      extended width extType shift (cpu.xreg reg) := by
  unfold extendReg extended
  generalize cpu.xreg reg = m
  have low (length : Nat) : m &&& .ofNat 64 (2 ^ length - 1) = (m.setWidth length).setWidth 64 := by
    apply eq_of_getLsbD_eq
    grind [getLsbD_ofNat, Nat.testBit_two_pow_sub_one]
  have byte : m &&& 0xFF#64 = (m.setWidth 8).setWidth 64 := low 8
  have half : m &&& 0xFFFF#64 = (m.setWidth 16).setWidth 64 := low 16
  have word : m &&& 0xFFFFFFFF#64 = (m.setWidth 32).setWidth 64 := low 32
  apply eq_of_getLsbD_eq
  intro index inside
  interval_cases extType
  all_goals
    simp (disch := decide) [byte, half, word, getLsbD_signExtend, BitVec.getLsbD_signExtend,
      msb_eq_getLsbD_last]
    grind

/-- An executor that succeeded with these flags. -/
def Sets (run : Code × Cpu Rest) (a b : BitVec width) : Prop :=
  run.1 = .ok ∧ Agrees (bit insn 30) run.2.nzcv a b

theorem sets_addSubEnd (sets : bit insn 29 = 1) (plain : Cpu Rest → Nat → BitVec 64 → Cpu Rest)
    (positive : 0 < width) (a b : BitVec width) : Sets insn (addSubEnd cpu insn plain a b) a b := by
  refine ⟨rfl, ?_⟩
  simp only [addSubEnd]
  rw [if_pos sets, Cpu.setXreg]
  split
  all_goals exact agrees_addSub _ positive a b

theorem flags_agree (sets : bit insn 29 = 1) :
    Sets insn (execAddSubImm cpu insn)
      ((cpu.xregSp (bits insn 9 5)).setWidth (regwidth (bit insn 31)))
      ((BitVec.ofNat 64 (bits insn 21 10 * 4096 ^ bit insn 22)).setWidth _) ∧
    (bits insn 23 22 < 3 → bits insn 15 10 < regwidth (bit insn 31) →
      Sets insn (execAddSubShifted cpu insn)
        ((cpu.xreg (bits insn 9 5)).setWidth (regwidth (bit insn 31)))
        (shifted (bits insn 23 22) (bits insn 15 10) ((cpu.xreg (bits insn 20 16)).setWidth _))) ∧
    (bits insn 12 10 ≤ 4 →
      Sets insn (execAddSubExtended cpu insn)
        ((cpu.xregSp (bits insn 9 5)).setWidth (regwidth (bit insn 31)))
        (extended _ (bits insn 15 13) (bits insn 12 10) (cpu.xreg (bits insn 20 16)))) ∧
    (bit insn 10 = 0 → bit insn 4 = 0 →
      if checkCond cpu.nzcv (bits insn 15 12) then
        Sets insn (execCondCompare cpu insn)
          ((cpu.xreg (bits insn 9 5)).setWidth (regwidth (bit insn 31)))
          ((if bit insn 11 = 1 then .ofNat 64 (bits insn 20 16)
            else cpu.xreg (bits insn 20 16)).setWidth _)
      else execCondCompare cpu insn = (.ok, { cpu with nzcv := insn <<< 28 })) := by
  have positive : 0 < regwidth (bit insn 31) := by
    rw [regwidth]
    split <;> decide
  refine ⟨?_, ?_, ?_, ?_⟩
  · have immediate : (if bit insn 22 = 1 then BitVec.ofNat 64 (bits insn 21 10) <<< 12
        else .ofNat 64 (bits insn 21 10)) = .ofNat 64 (bits insn 21 10 * 4096 ^ bit insn 22) := by
      have single : bit insn 22 < 2 := Nat.mod_lt _ (by decide)
      generalize bit insn 22 = sh at *
      apply eq_of_toNat_eq
      interval_cases sh
      all_goals simp [Nat.shiftLeft_eq]
    rw [← immediate]
    exact sets_addSubEnd cpu insn sets _ positive _ _
  · intro type amount
    rw [← applyShift_eq type]
    have valid : ¬(bits insn 23 22 = 3 ∨ bit insn 31 = 0 ∧ 32 ≤ bits insn 15 10) := by
      rintro (three | ⟨narrow, large⟩)
      · omega
      · rw [narrow] at amount
        exact Nat.not_le_of_lt amount large
    simp only [execAddSubShifted]
    rw [if_neg valid]
    exact sets_addSubEnd cpu insn sets _ positive _ _
  · intro amount
    have type : bits insn 15 13 < 8 := Nat.mod_lt _ (by decide)
    rw [← setWidth_extendReg cpu type (regwidth_le _)]
    simp only [execAddSubExtended]
    rw [if_neg (by omega)]
    exact sets_addSubEnd cpu insn sets _ positive _ _
  · intro second third
    have valid : ¬(bit insn 29 ≠ 1 ∨ bit insn 10 ≠ 0 ∨ bit insn 4 ≠ 0) := by omega
    simp only [execCondCompare, if_neg valid]
    split
    · exact ⟨rfl, agrees_addSub _ positive _ _⟩
    · have immediate : BitVec.ofNat 32 (bits insn 3 0) <<< 28 = insn <<< 28 := by
        apply eq_of_toNat_eq
        simp only [toNat_shiftLeft, toNat_ofNat, Nat.shiftLeft_eq, bits]
        omega
      rw [immediate]

theorem flags_compare : Sets 0xEB02003F (execAddSubShifted sampleCpu 0xEB02003F) 16#64 32#64 :=
  (flags_agree sampleCpu 0xEB02003F rfl).2.1 (by decide) (by decide)

end AlpineOnIOS.Emu
