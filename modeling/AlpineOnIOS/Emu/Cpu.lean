import Mathlib

/-!
# The processor of the interpreter

Registers, fields of instruction words, and the executors of bitfields, extracts and products. A
field as wide as the register makes `exec_bitfield` shift by 64, and `exec_extract` takes the
wrong register for the amount zero.
-/

namespace AlpineOnIOS.Emu

open BitVec hiding signExtend getLsbD_signExtend

/-- `cpu_state_t` and the memory, with what the executors here leave alone in one field. -/
@[ext]
structure Cpu (Rest : Type) where
  x : Nat → BitVec 64
  sp : BitVec 64
  pc : BitVec 64
  nzcv : BitVec 32
  rest : Rest

inductive Code where
  | ok | err | unimpl | syscall | brk | segfault
  deriving DecidableEq

def bits (value : BitVec 32) (hi lo : Nat) : Nat := value.toNat / 2 ^ lo % 2 ^ (hi + 1 - lo)

def bit (value : BitVec 32) (pos : Nat) : Nat := bits value pos pos

def signExtend (value : BitVec 64) (width : Nat) : BitVec 64 :=
  (value <<< (64 - width)).sshiftRight (64 - width)

variable {Rest : Type} (cpu : Cpu Rest) (reg : Nat)

/-- Register 31 is zero. -/
def Cpu.xreg : BitVec 64 := if reg = 31 then 0 else cpu.x reg

/-- Register 31 is the stack pointer. -/
def Cpu.xregSp : BitVec 64 := if reg = 31 then cpu.sp else cpu.x reg

def Cpu.setXreg (value : BitVec 64) : Cpu Rest :=
  if reg = 31 then cpu else { cpu with x := Function.update cpu.x reg value }

def Cpu.setXregSp (value : BitVec 64) : Cpu Rest :=
  if reg = 31 then { cpu with sp := value } else cpu.setXreg reg value

/-- `cpu_check_cond` on the flags. -/
def checkCond (nzcv : BitVec 32) (cond : Nat) : Bool :=
  let n := nzcv.getLsbD 31
  let z := nzcv.getLsbD 30
  let c := nzcv.getLsbD 29
  let v := nzcv.getLsbD 28
  let result := match cond / 2 with
    | 0 => z
    | 1 => c
    | 2 => n
    | 3 => v
    | 4 => c && !z
    | 5 => n == v
    | 6 => !z && n == v
    | 7 => true
    | _ => false
  if cond % 2 = 1 ∧ cond ≠ 14 ∧ cond ≠ 15 then !result else result

variable (insn : BitVec 32) (sf : Nat)

def regwidth : Nat := if sf = 1 then 64 else 32

/-- What is done to values in the 32-bit forms. -/
def narrow (value : BitVec 64) : BitVec 64 :=
  if sf = 1 then value else value &&& 0xFFFFFFFF#64

/-- `(1ULL << length) - 1`, which has no meaning for 64. -/
def ones (length : Nat) : Option (BitVec 64) :=
  if length < 64 then some (1#64 <<< length - 1#64) else none

def execBitfield : Option (Code × Cpu Rest) :=
  let sf := bit insn 31
  let opc := bits insn 30 29
  let immr := bits insn 21 16
  let imms := bits insn 15 10
  let rd := bits insn 4 0
  let src := narrow sf (cpu.xreg (bits insn 9 5))
  let dst := narrow sf (cpu.xreg rd)
  let wmaskLen := if immr ≤ imms then imms - immr + 1 else imms + 1
  let pos := regwidth sf - immr
  if opc = 3 then some (.unimpl, cpu)
  else (ones wmaskLen).map fun ones =>
    let field := if immr ≤ imms then (src >>> immr) &&& ones else (src &&& ones) <<< pos
    let mask := if immr ≤ imms then ones else ones <<< pos
    (.ok, cpu.setXreg rd (narrow sf (match opc with
      | 0 => signExtend field (if immr ≤ imms then wmaskLen else wmaskLen + pos)
      | 1 => (dst &&& ~~~mask) ||| field
      | _ => field)))

/-- The moves of the architecture: a rotation and two masks. -/
def bitfieldMove (width opc immr imms : Nat) (src dst : BitVec width) : BitVec width :=
  let wmask := (BitVec.ofNat width (2 ^ (imms + 1) - 1)).rotateRight immr
  let tmask := BitVec.ofNat width (2 ^ ((imms + width - immr) % width + 1) - 1)
  let rotated := src.rotateRight immr &&& wmask
  match opc with
  | 0 => (BitVec.fill width (src.getLsbD imms) &&& ~~~tmask) ||| (rotated &&& tmask)
  | 1 => (dst &&& ~~~tmask) ||| (((dst &&& ~~~wmask) ||| rotated) &&& tmask)
  | _ => rotated &&& tmask

theorem regwidth_le : regwidth sf ≤ 64 := by
  rw [regwidth]
  split <;> decide

theorem getLsbD_signExtend {width : Nat} (value : BitVec 64) (index : Nat)
    (bound : 0 < width ∧ width ≤ 64) :
    (signExtend value width).getLsbD index =
      (decide (index < 64) && value.getLsbD (min index (width - 1))) := by
  rw [signExtend, getLsbD_sshiftRight, msb_eq_getLsbD_last,
    getLsbD_shiftLeft, getLsbD_shiftLeft]
  grind

theorem getLsbD_narrow (index : Nat) (value : BitVec 64) :
    (narrow sf value).getLsbD index = (decide (index < regwidth sf) && value.getLsbD index) := by
  rw [narrow, regwidth]
  split
  · have := value.getLsbD_of_ge index
    grind
  · rw [getLsbD_and, show 0xFFFFFFFF#64 = .ofNat 64 (2 ^ 32 - 1) from rfl,
      getLsbD_ofNat, Nat.testBit_two_pow_sub_one]
    grind

theorem ones_eq {length : Nat} (short : length < 64) :
    ones length = some (BitVec.ofNat 64 (2 ^ length - 1)) := by
  rw [ones, if_pos short, Option.some_inj, ← toNat_inj]
  have bound : 2 ^ length < 2 ^ 64 := Nat.pow_lt_pow_right (by decide) short
  have positive : 0 < 2 ^ length := Nat.two_pow_pos length
  simp [toNat_sub, Nat.shiftLeft_eq]
  omega

/-- The moves are right unless the field is a whole register, for which a shift has no meaning. -/
theorem bitfield_iff (fields : bits insn 21 16 < regwidth (bit insn 31) ∧
      bits insn 15 10 < regwidth (bit insn 31)) (allocated : bits insn 30 29 ≠ 3) :
    execBitfield cpu insn = some (.ok, cpu.setXreg (bits insn 4 0)
        ((bitfieldMove (regwidth (bit insn 31)) (bits insn 30 29) (bits insn 21 16)
          (bits insn 15 10) ((cpu.xreg (bits insn 9 5)).setWidth _)
          ((cpu.xreg (bits insn 4 0)).setWidth _)).setWidth 64)) ↔
      ¬(bits insn 21 16 = 0 ∧ bits insn 15 10 = 63) := by
  obtain ⟨rotation, last⟩ := fields
  simp only [execBitfield]
  generalize bits insn 21 16 = immr at *
  generalize bits insn 15 10 = imms at *
  generalize bits insn 30 29 = opc at *
  generalize bit insn 31 = sf at *
  have wide := regwidth_le sf
  constructor
  · rintro done ⟨rfl, rfl⟩
    simp [allocated, ones] at done
  · intro smaller
    rw [if_neg allocated, ones_eq (by split <;> omega), Option.map_some]
    congr 3
    apply eq_of_getLsbD_eq
    intro index inside
    rw [getLsbD_narrow, getLsbD_setWidth]
    have turned : (imms + regwidth sf - immr) % regwidth sf =
        if immr ≤ imms then imms - immr else imms + regwidth sf - immr := by
      split
      · rw [show imms + regwidth sf - immr = imms - immr + regwidth sf by omega,
          Nat.add_mod_right, Nat.mod_eq_of_lt (by omega)]
      · exact Nat.mod_eq_of_lt (by omega)
    by_cases front : immr ≤ imms <;> by_cases low : index < regwidth sf - immr <;>
      rcases opc with _ | _ | opc
    all_goals
      simp (disch := omega) only [bitfieldMove, turned, front, low, getLsbD_signExtend, decide_true,
        decide_false, if_true, if_false, cond_true, cond_false, Bool.not_and, getLsbD_or,
        getLsbD_and, getLsbD_not, getLsbD_shiftLeft,
        getLsbD_rotateRight, getLsbD_ofNat, Nat.testBit_two_pow_sub_one,
        getLsbD_ushiftRight, getLsbD_narrow, getLsbD_setWidth,
        Nat.mod_eq_of_lt rotation, getLsbD_fill]
      grind

def sampleCpu : Cpu Unit :=
  { x := fun reg => .ofNat 64 (reg * 16), sp := 0, pc := 0, nzcv := 0, rest := () }

/-- `lsr x0, x1, #1` is right. -/
theorem bitfield_shift : execBitfield sampleCpu 0xD341FC20 = some (.ok, sampleCpu.setXreg 0 8) :=
  (bitfield_iff sampleCpu 0xD341FC20 (by decide) (by decide)).mpr (by decide)

/-- `lsr x0, x1, #0` shifts by 64. -/
theorem bitfield_undefined : execBitfield sampleCpu 0xD340FC20 = none := rfl

/-- `exec_extract`, for amounts below the width. -/
def execExtract : Code × Cpu Rest :=
  let sf := bit insn 31
  let imms := bits insn 15 10
  let hi := narrow sf (cpu.xreg (bits insn 9 5))
  let lo := narrow sf (cpu.xreg (bits insn 20 16))
  let result := if imms = 0 then hi else lo >>> imms ||| hi <<< (regwidth sf - imms)
  (.ok, cpu.setXreg (bits insn 4 0) (narrow sf result))

/-- `exec_dp_2src`.  Divisions by zero give zero, and the least number over -1 is itself. -/
def execDp2src : Code × Cpu Rest :=
  let sf := bit insn 31
  let n := narrow sf (cpu.xreg (bits insn 9 5))
  let m := narrow sf (cpu.xreg (bits insn 20 16))
  let amt := m.toNat % regwidth sf
  let signed (wide : BitVec 64) (result : BitVec 32) := if sf = 1 then wide else result.setWidth 64
  let done (result : BitVec 64) := (Code.ok, cpu.setXreg (bits insn 4 0) (narrow sf result))
  match bits insn 15 10 with
  | 2 => done (n / m)
  | 3 => done (signed (n.sdiv m) ((n.setWidth 32).sdiv (m.setWidth 32)))
  | 8 => done (n <<< amt)
  | 9 => done (n >>> amt)
  | 10 => done (signed (n.sshiftRight amt) ((n.setWidth 32).sshiftRight amt))
  | 11 => done (if amt = 0 then n else n >>> amt ||| n <<< (regwidth sf - amt))
  | _ => (.unimpl, cpu)

/-- The bits of two registers from a position on. -/
def extracted (lsb : Nat) (hi lo : BitVec 64) : BitVec 64 :=
  ((hi.setWidth (regwidth sf) ++ lo.setWidth (regwidth sf)).extractLsb' lsb
    (regwidth sf)).setWidth 64

theorem getLsbD_extracted {sf lsb : Nat} (valid : lsb < regwidth sf) (hi lo : BitVec 64)
    (index : Nat) : (extracted sf lsb hi lo).getLsbD index = (decide (index < regwidth sf) &&
      if lsb + index < regwidth sf then lo.getLsbD (lsb + index)
      else hi.getLsbD (lsb + index - regwidth sf)) := by
  have wide := regwidth_le sf
  rw [extracted, getLsbD_setWidth, getLsbD_extractLsb', getLsbD_append,
    getLsbD_setWidth, getLsbD_setWidth]
  grind

variable (x : BitVec 64)

theorem toNat_low : (x &&& 0xFFFFFFFF#64).toNat = x.toNat % 2 ^ 32 := by
  rw [toNat_and]
  exact Nat.and_two_pow_sub_one_eq_mod _ 32

/-- `EXTR` is right unless the amount is zero and the registers differ; `RORV` agrees with it. -/
theorem extract_iff (valid : bits insn 15 10 < regwidth (bit insn 31)) :
    (∃ value, execExtract cpu insn = (.ok, cpu.setXreg (bits insn 4 0) value) ∧
      (value = extracted (bit insn 31) (bits insn 15 10) (cpu.xreg (bits insn 9 5))
        (cpu.xreg (bits insn 20 16)) ↔
      (bits insn 15 10 = 0 → narrow (bit insn 31) (cpu.xreg (bits insn 9 5)) =
        narrow (bit insn 31) (cpu.xreg (bits insn 20 16))))) ∧
    ∀ rorv, bits rorv 15 10 = 11 → bit rorv 31 = bit insn 31 → bits rorv 9 5 = bits insn 9 5 →
      bits rorv 4 0 = bits insn 4 0 → bits insn 20 16 = bits insn 9 5 →
      (cpu.xreg (bits rorv 20 16)).toNat % regwidth (bit insn 31) = bits insn 15 10 →
      execDp2src cpu rorv = execExtract cpu insn := by
  refine ⟨⟨_, rfl, ?_⟩, fun rorv opcode sf rn rd rm amount => ?_⟩
  · generalize bits insn 15 10 = lsb at *
    generalize bit insn 31 = sf at *
    generalize cpu.xreg (bits insn 9 5) = hi
    generalize cpu.xreg (bits insn 20 16) = lo
    by_cases zero : lsb = 0
    · subst zero
      have upper : narrow sf (narrow sf hi) = narrow sf hi := by
        apply eq_of_getLsbD_eq
        grind [getLsbD_narrow]
      have lower : extracted sf 0 hi lo = narrow sf lo := by
        apply eq_of_getLsbD_eq
        grind [getLsbD_narrow, getLsbD_extracted]
      simp [upper, lower]
    · simp only [zero, if_false, false_imp_iff, iff_true]
      apply eq_of_getLsbD_eq
      intro index inside
      rw [getLsbD_narrow, getLsbD_extracted valid, getLsbD_or, getLsbD_ushiftRight,
        getLsbD_shiftLeft, getLsbD_narrow, getLsbD_narrow]
      grind
  · have low : (narrow (bit insn 31) (cpu.xreg (bits rorv 20 16))).toNat %
        regwidth (bit insn 31) = bits insn 15 10 := by
      rw [← amount, narrow, regwidth]
      split
      · rfl
      · rw [toNat_low]
        exact Nat.mod_mod_of_dvd _ (by decide)
    simp only [execDp2src, execExtract, opcode, sf, rn, rd, rm, low]

/-- `extr x2, x0, x1, #8` is right. -/
theorem extract_shifted : ∃ value, execExtract sampleCpu 0x93C12002 =
    (.ok, sampleCpu.setXreg 2 value) ∧ value = extracted 1 8 (sampleCpu.xreg 0) (sampleCpu.xreg 1) :=
  (extract_iff sampleCpu 0x93C12002 (by decide)).1.imp fun _ ⟨done, right⟩ =>
    ⟨done, right.mpr (by decide)⟩

/-- `extr x2, x0, x1, #0` gives the first register. -/
theorem extract_wrong_register : (execExtract sampleCpu 0x93C10002).2.xreg 2 = 0 ∧
    extracted 1 0 (sampleCpu.xreg 0) (sampleCpu.xreg 1) = 16 := by
  decide

/-- The sums `t2` and `hi` for the upper half of a product of two words. -/
def mulParts (a b : BitVec 64) : BitVec 64 × BitVec 64 :=
  let al := a &&& 0xFFFFFFFF#64
  let ah := a >>> 32
  let bl := b &&& 0xFFFFFFFF#64
  let bh := b >>> 32
  let t1 := al * bh + ((al * bl) >>> 32)
  let t2 := ah * bl + (t1 &&& 0xFFFFFFFF#64)
  (t2, ah * bh + (t1 >>> 32) + (t2 >>> 32))

/-- The product of the absolute values, negated where the signs differ. -/
def smulh (y : BitVec 64) : BitVec 64 :=
  let an := if x.msb then -x else x
  let bn := if y.msb then -y else y
  let (t2, hi) := mulParts an bn
  if x.msb != y.msb then
    let lo := ((an &&& 0xFFFFFFFF#64) * (bn &&& 0xFFFFFFFF#64)) ||| ((t2 &&& 0xFFFFFFFF#64) <<< 32)
    if lo = 0#64 then ~~~hi + 1#64 else ~~~hi
  else hi

def execDp3src : Code × Cpu Rest :=
  let sf := bit insn 31
  let n := cpu.xreg (bits insn 9 5)
  let m := cpu.xreg (bits insn 20 16)
  let a := cpu.xreg (bits insn 14 10)
  let done (result : BitVec 64) := (Code.ok, cpu.setXreg (bits insn 4 0) (narrow sf result))
  let wide (result : BitVec 64) := if sf = 1 then done result else (.err, cpu)
  let signed := (n.setWidth 32).signExtend 64 * (m.setWidth 32).signExtend 64
  match bits insn 23 21 * 2 + bit insn 15 with
  | 0 => done (a + n * m)
  | 1 => done (a - n * m)
  | 2 => wide (a + signed)
  | 3 => wide (a - signed)
  | 4 => wide (smulh n m)
  | 10 => wide (a + narrow 0 n * narrow 0 m)
  | 11 => wide (a - narrow 0 n * narrow 0 m)
  | 12 => wide (mulParts n m).2
  | _ => (.unimpl, cpu)

theorem toNat_high : (x >>> 32).toNat = x.toNat / 2 ^ 32 := by
  rw [toNat_ushiftRight, Nat.shiftRight_eq_div_pow]

/-- No sum leaves its word, and together with the lowest product they make up the product. -/
theorem mulParts_spec (a b : BitVec 64) :
    (mulParts a b).2.toNat = a.toNat * b.toNat / 2 ^ 64 ∧
      a.toNat * b.toNat % 2 ^ 64 = (mulParts a b).1.toNat % 2 ^ 32 * 2 ^ 32 +
        a.toNat % 2 ^ 32 * (b.toNat % 2 ^ 32) % 2 ^ 32 := by
  simp only [mulParts, toNat_add, toNat_mul, toNat_low, toNat_high]
  have product : a.toNat * b.toNat = a.toNat / 2 ^ 32 * (b.toNat / 2 ^ 32) * 2 ^ 64 +
      (a.toNat % 2 ^ 32 * (b.toNat / 2 ^ 32) + a.toNat / 2 ^ 32 * (b.toNat % 2 ^ 32)) * 2 ^ 32 +
        a.toNat % 2 ^ 32 * (b.toNat % 2 ^ 32) := by
    nth_rewrite 1 [← Nat.div_add_mod a.toNat (2 ^ 32), ← Nat.div_add_mod b.toNat (2 ^ 32)]
    ring
  rw [product]
  have halves (x : BitVec 64) : x.toNat % 2 ^ 32 ≤ 2 ^ 32 - 1 ∧ x.toNat / 2 ^ 32 ≤ 2 ^ 32 - 1 := by
    omega
  have low := Nat.mul_le_mul (halves a).1 (halves b).1
  have inner := Nat.mul_le_mul (halves a).1 (halves b).2
  have outer := Nat.mul_le_mul (halves a).2 (halves b).1
  have high := Nat.mul_le_mul (halves a).2 (halves b).2
  generalize a.toNat % 2 ^ 32 * (b.toNat % 2 ^ 32) = p at *
  generalize a.toNat % 2 ^ 32 * (b.toNat / 2 ^ 32) = q at *
  generalize a.toNat / 2 ^ 32 * (b.toNat % 2 ^ 32) = r at *
  generalize a.toNat / 2 ^ 32 * (b.toNat / 2 ^ 32) = s at *
  omega

/-- The lowest product vanishes with the lower half, since one factor has 32 factors of two. -/
theorem low_eq_zero {m n : Nat} (zero : m * n % 2 ^ 64 = 0) : m % 2 ^ 32 * (n % 2 ^ 32) = 0 := by
  obtain ⟨first, second, firstDvd, secondDvd, product⟩ :=
    Nat.dvd_mul.mp (Nat.dvd_of_mod_eq_zero zero)
  obtain ⟨i, -, rfl⟩ := (Nat.dvd_prime_pow Nat.prime_two).mp (Dvd.intro second product)
  obtain ⟨j, -, rfl⟩ := (Nat.dvd_prime_pow Nat.prime_two).mp (Dvd.intro_left _ product)
  rw [← pow_add] at product
  have exponents : i + j = 64 := Nat.pow_right_injective (Nat.le_refl 2) product
  rcases (by omega : 32 ≤ i ∨ 32 ≤ j) with many | many
  · rw [Nat.mod_eq_zero_of_dvd ((pow_dvd_pow 2 many).trans firstDvd), Nat.zero_mul]
  · rw [Nat.mod_eq_zero_of_dvd ((pow_dvd_pow 2 many).trans secondDvd), Nat.mul_zero]

theorem toInt_eq_absolute :
    x.toInt = (if x.msb then -1 else 1) * ((if x.msb then -x else x).toNat : Int) ∧
      (if x.msb then -x else x).toNat ≤ 2 ^ 63 := by
  rw [toInt_eq_msb_cond]
  cases sign : x.msb with
  | false =>
    rw [msb_eq_false_iff_two_mul_lt] at sign
    simp
    omega
  | true =>
    rw [msb_eq_true_iff_two_mul_ge] at sign
    simp only [if_true, toNat_neg]
    omega

theorem toInt_smulh (y : BitVec 64) : (smulh x y).toInt = x.toInt * y.toInt / 2 ^ 64 := by
  obtain ⟨first, small⟩ := toInt_eq_absolute x
  obtain ⟨second, small'⟩ := toInt_eq_absolute y
  rw [smulh, first, second]
  generalize (if x.msb then -x else x) = a at small ⊢
  generalize (if y.msb then -y else y) = b at small' ⊢
  obtain ⟨high, low⟩ := mulParts_spec a b
  have bound := Nat.mul_le_mul small small'
  have product : (if x.msb then -1 else 1) * (a.toNat : Int) *
      ((if y.msb then -1 else 1) * (b.toNat : Int)) =
        (if x.msb != y.msb then -1 else 1) * ((a.toNat * b.toNat : Nat) : Int) := by
    cases x.msb <;> cases y.msb <;> simp
  have vanishes : (a &&& 0xFFFFFFFF#64) * (b &&& 0xFFFFFFFF#64) |||
      ((mulParts a b).1 &&& 0xFFFFFFFF#64) <<< 32 = 0#64 ↔ a.toNat * b.toNat % 2 ^ 64 = 0 := by
    have factors : a.toNat % 2 ^ 32 * (b.toNat % 2 ^ 32) < 2 ^ 32 * 2 ^ 32 :=
      Nat.mul_lt_mul'' (Nat.mod_lt _ (by decide)) (Nat.mod_lt _ (by decide))
    have zero := @low_eq_zero a.toNat b.toNat
    rw [or_eq_zero_iff]
    simp only [← toNat_inj, toNat_mul, toNat_shiftLeft,
      toNat_low, toNat_ofNat, Nat.shiftLeft_eq]
    omega
  rw [product]
  generalize a.toNat * b.toNat = p at *
  simp only [vanishes, toInt_eq_toNat_cond, apply_ite BitVec.toNat, toNat_add,
    toNat_not, toNat_ofNat, high]
  split
  · split <;> omega
  · omega

/-- `UMULH` and `SMULH` give the upper half of the product. -/
theorem mulh_exact (wide : bit insn 31 = 1) :
    (bits insn 23 21 * 2 + bit insn 15 = 12 → ∃ value,
      execDp3src cpu insn = (.ok, cpu.setXreg (bits insn 4 0) value) ∧ value.toNat =
        (cpu.xreg (bits insn 9 5)).toNat * (cpu.xreg (bits insn 20 16)).toNat / 2 ^ 64) ∧
    (bits insn 23 21 * 2 + bit insn 15 = 4 → ∃ value,
      execDp3src cpu insn = (.ok, cpu.setXreg (bits insn 4 0) value) ∧ value.toInt =
        (cpu.xreg (bits insn 9 5)).toInt * (cpu.xreg (bits insn 20 16)).toInt / 2 ^ 64) := by
  refine ⟨fun opcode => ⟨_, ?_, (mulParts_spec _ _).1⟩, fun opcode => ⟨_, ?_, toInt_smulh _ _⟩⟩
  all_goals simp only [execDp3src, opcode, wide, narrow, if_true]

/-- `smulh x2, x0, x1`. -/
theorem mulh_zero : ∃ value, execDp3src sampleCpu 0x9B417C02 =
    (.ok, sampleCpu.setXreg 2 value) ∧ value.toInt = 0 * 16 / 2 ^ 64 :=
  (mulh_exact sampleCpu 0x9B417C02 (by decide)).2 (by decide)

end AlpineOnIOS.Emu
