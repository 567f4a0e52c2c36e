import Mathlib.Data.BitVec
import Mathlib.Tactic.Ring

/-! The bit rate of the TWI hardware, `dev/i2c/busses/atmega-i2c.c` and `328/twi.h`: the
bus runs at `F_CPU / (16 + 2 * TWBR * prescaler)`. -/
namespace BermudaOS.Dev.AtmegaRate

/-- What `Makefile.flags` makes a difference between. -/
inductive Board where
  | uno
  | other
  deriving DecidableEq

def Board.F_CPU : Board → Nat
  | .uno => 16000000
  | .other => 8000000

def B0 : BitVec 8 := 0

def B1 : BitVec 8 := 1

def B10 : BitVec 8 := 2

def B11 : BitVec 8 := 3

def I2C_PRES_1 : BitVec 8 := B0

def I2C_PRES_4 : BitVec 8 := B1

def I2C_PRES_16 : BitVec 8 := B10

def I2C_PRES_64 : BitVec 8 := B11

def I2C_FRQ (F_CPU x n : Nat) : Nat := F_CPU / (16 + 2 * x * n)

def I2C_CALC_TWBR (F_CPU : Nat) (freq : BitVec 32) (pres : Int) : BitVec 32 :=
  (BitVec.ofNat 32 F_CPU - 16 * freq) / (BitVec.ofInt 32 (2 * pres) * freq)

/-- The `switch` of `atmega_i2c_calc_twbr`. -/
def prescalerOf (pres : BitVec 8) : Int :=
  if pres = I2C_PRES_1 then 1
  else if pres = I2C_PRES_4 then 4
  else if pres = I2C_PRES_16 then 16
  else if pres = I2C_PRES_64 then 64
  else -1

def atmegaI2cCalcTwbr (F_CPU : Nat) (freq : BitVec 32) (pres : BitVec 8) : BitVec 8 :=
  let prescaler := prescalerOf pres
  if prescaler = -1 then 0xFF else (I2C_CALC_TWBR F_CPU freq prescaler &&& 0xFF).setWidth 8

def atmegaI2cCalcPrescaler (F_CPU : Nat) (frq : BitVec 32) : BitVec 8 :=
  if I2C_FRQ F_CPU 255 1 < frq.toNat then B0
  else if I2C_FRQ F_CPU 255 4 < frq.toNat ∧ frq.toNat < I2C_FRQ F_CPU 1 4 then B11
  else if I2C_FRQ F_CPU 255 16 < frq.toNat ∧ frq.toNat < I2C_FRQ F_CPU 1 16 then B10
  else if I2C_FRQ F_CPU 255 64 < frq.toNat ∧ frq.toNat < I2C_FRQ F_CPU 1 64 then B1
  else B0

structure Registers where
  TWBR : BitVec 8
  TWSR : BitVec 8

/-- What `i2c_master_transfer` does before the transfer. -/
def setRate (F_CPU : Nat) (freq : BitVec 32) (r : Registers) : Registers :=
  let pres := atmegaI2cCalcPrescaler F_CPU freq
  let twbr := atmegaI2cCalcTwbr F_CPU freq pres
  let r := {r with TWBR := twbr}
  let r := {r with TWSR := r.TWSR &&& ~~~B11}
  {r with TWSR := r.TWSR ||| pres &&& B11}

/-- The prescaler that the hardware takes from `TWSR`. -/
def Registers.prescaler (r : Registers) : Nat := 4^(r.TWSR &&& B11).toNat

/-- The divider has been computed for the prescaler of the hardware, without a division by
zero, a word that wraps or bits that are masked out, and is the exact one rounded down. -/
structure Rounded (F_CPU f : Nat) (r : Registers) : Prop where
  dividend : 16 * f ≤ F_CPU ∧ F_CPU < 2^32
  divisor : 2 * r.prescaler * f ≠ 0 ∧ 2 * r.prescaler * f < 2^32
  fits : (F_CPU - 16 * f) / (2 * r.prescaler * f) ≤ 255
  twbr : r.TWBR.toNat = (F_CPU - 16 * f) / (2 * r.prescaler * f)
  programmed : f * (16 + 2 * r.TWBR.toNat * r.prescaler) ≤ F_CPU ∧
    F_CPU < f * (16 + 2 * (r.TWBR.toNat + 1) * r.prescaler)

variable {F_CPU : Nat} {f n : Nat} {freq : BitVec 32} {pres : BitVec 8} {r : Registers}

/-- The two low bits of `TWSR` are those that were written last. -/
theorem written_low (bits code : BitVec 8) : (bits &&& ~~~B11 ||| code &&& B11) &&& B11 = code &&& B11 := by
  unfold B11
  ext i
  simp only [BitVec.getElem_and,BitVec.getElem_or,BitVec.getElem_not]
  cases bits[i] <;> cases code[i] <;> cases (3 : BitVec 8)[i] <;> rfl

theorem setRate_prescaler (code : atmegaI2cCalcPrescaler F_CPU freq = pres) (small : pres &&& B11 = pres) :
    (setRate F_CPU freq r).prescaler = 4^pres.toNat := by
  simp only [Registers.prescaler,setRate,code,written_low]
  rw [small]

/-- A code of two bits is a prescaler of 64 at most. -/
theorem prescaler_le (small : pres &&& B11 = pres) : 4^pres.toNat ≤ 64 := by
  have below : pres.toNat ≤ 3 := by
    rw [← small,BitVec.toNat_and]
    exact Nat.and_le_right
  calc 4^pres.toNat ≤ 4^3 := Nat.pow_le_pow_right (by decide) below
    _ = 64 := by decide

/-- A quotient rounded down is the divider of a bus at most as fast as asked, by less than one step. -/
theorem quotient_rounds (positive : 0 < n * f) (high : 16 * f ≤ F_CPU) :
    let q := (F_CPU - 16 * f) / (2 * n * f)
    f * (16 + 2 * q * n) ≤ F_CPU ∧ F_CPU < f * (16 + 2 * (q + 1) * n) := by
  intro q
  have below : q * (2 * n * f) ≤ F_CPU - 16 * f := Nat.div_mul_le_self _ _
  have above : F_CPU - 16 * f < (q + 1) * (2 * n * f) := by
    rw [Nat.add_mul,Nat.one_mul]
    exact Nat.lt_div_mul_add (by rw [Nat.mul_assoc]; omega)
  have left : f * (16 + 2 * q * n) = 16 * f + q * (2 * n * f) := by ring
  have right : f * (16 + 2 * (q + 1) * n) = 16 * f + (q + 1) * (2 * n * f) := by ring
  omega

theorem calcTwbr_toNat (high : 16 * freq.toNat ≤ F_CPU) (small : F_CPU < 2^32) (unwrapped : 2 * n * freq.toNat < 2^32)
    (fits : 2 * n < 2^32) :
    (I2C_CALC_TWBR F_CPU freq n).toNat = (F_CPU - 16 * freq.toNat) / (2 * n * freq.toNat) := by
  have dividend : (BitVec.ofNat 32 F_CPU - 16 * freq).toNat = F_CPU - 16 * freq.toNat := by
    have sixteen : (16 * freq).toNat = 16 * freq.toNat := by
      rw [BitVec.toNat_mul]
      exact Nat.mod_eq_of_lt (show 16 * freq.toNat < 2^32 by omega)
    rw [BitVec.toNat_sub,sixteen,BitVec.toNat_ofNat]
    omega
  have divisor : (BitVec.ofInt 32 (2 * n) * freq).toNat = 2 * n * freq.toNat := by
    have value : (BitVec.ofInt 32 (2 * n)).toNat = 2 * n := by
      rw [BitVec.toNat_ofInt]
      omega
    rw [BitVec.toNat_mul,value,Nat.mod_eq_of_lt unwrapped]
  rw [I2C_CALC_TWBR,BitVec.toNat_udiv,dividend,divisor]

theorem calcTwbr_eq (F_CPU : Nat) (freq : BitVec 32) (code : prescalerOf pres = n) :
    (atmegaI2cCalcTwbr F_CPU freq pres).toNat = (I2C_CALC_TWBR F_CPU freq n).toNat % 256 := by
  rw [atmegaI2cCalcTwbr,code,if_neg (by omega),BitVec.toNat_setWidth,BitVec.toNat_and]
  exact congrArg (· % 2^8) (Nat.and_two_pow_sub_one_eq_mod _ 8) |>.trans (Nat.mod_mod _ _)

/-- For a prescaler that the registers encode, the rate is right exactly if the divider has eight bits. -/
theorem setRate_rounded (code : atmegaI2cCalcPrescaler F_CPU freq = pres) (small : pres &&& B11 = pres)
    (decoded : prescalerOf pres = n) (encoded : 4^pres.toNat = n) (positive : 0 < freq.toNat)
    (high : 16 * freq.toNat ≤ F_CPU) (slow : F_CPU < 2^29) :
    Rounded F_CPU freq.toNat (setRate F_CPU freq r) ↔ (F_CPU - 16 * freq.toNat) / (2 * n * freq.toNat) ≤ 255 := by
  have prescaler : (setRate F_CPU freq r).prescaler = n := (setRate_prescaler code small).trans encoded
  have low : n ≤ 64 := encoded ▸ prescaler_le small
  have above : 0 < n := encoded ▸ Nat.pow_pos (by decide)
  have scaled : 2 * n * freq.toNat ≤ 128 * freq.toNat := Nat.mul_le_mul_right _ (by omega)
  constructor
  · intro rounded
    simpa only [prescaler] using rounded.fits
  · intro fits
    have twbr : (setRate F_CPU freq r).TWBR.toNat = (F_CPU - 16 * freq.toNat) / (2 * n * freq.toNat) := by
      have quotient := calcTwbr_eq F_CPU freq decoded
      rw [calcTwbr_toNat high (by omega) (by omega) (by omega),Nat.mod_eq_of_lt (by omega)] at quotient
      simpa only [setRate,code] using quotient
    refine ⟨⟨high,by omega⟩,?_,?_,?_,?_⟩
    · rw [prescaler]
      exact ⟨(Nat.mul_pos (by omega) positive).ne',by omega⟩
    · rw [prescaler]
      exact fits
    · rw [prescaler]
      exact twbr
    · rw [prescaler,twbr]
      exact quotient_rounds (Nat.mul_pos above positive) high

theorem frq_fits (above : 0 < n) (low : I2C_FRQ F_CPU 255 n < f) : (F_CPU - 16 * f) / (2 * n * f) ≤ 255 := by
  have below : F_CPU < f * (16 + 2 * 255 * n) := (Nat.div_lt_iff_lt_mul (by omega)).mp low
  have split : f * (16 + 2 * 255 * n) = 16 * f + 255 * (2 * n * f) := by ring
  have positive : 0 < 2 * n * f := Nat.mul_pos (by omega) (Nat.zero_lt_of_lt low)
  have scaled : 2 * n * f * 256 = 255 * (2 * n * f) + 2 * n * f := by ring
  exact Nat.le_of_lt_succ (Nat.div_lt_of_lt_mul (show F_CPU - 16 * f < 2 * n * f * 256 by omega))

/-- Below that of the prescaler 16, a prescaler of 4 asks for more than eight bits. -/
theorem frq_overflows (positive : 0 < f) (high : f ≤ I2C_FRQ F_CPU 255 16) : 255 < (F_CPU - 16 * f) / (2 * 4 * f) := by
  have above : f * (16 + 2 * 255 * 16) ≤ F_CPU := (Nat.le_div_iff_mul_le (by decide)).mp high
  rw [Nat.lt_div_iff_mul_lt (by omega)]
  omega

theorem rate_rounds (board : Board) (freq : BitVec 32) (r : Registers)
    (low : I2C_FRQ board.F_CPU 255 64 < freq.toNat) (high : freq.toNat ≤ board.F_CPU / 16) :
    Rounded board.F_CPU freq.toNat (setRate board.F_CPU freq r) ↔ I2C_FRQ board.F_CPU 255 16 < freq.toNat := by
  have slow : board.F_CPU < 2^29 := by cases board <;> decide
  have positive : 0 < freq.toNat := Nat.zero_lt_of_lt low
  have dividend : 16 * freq.toNat ≤ board.F_CPU := by omega
  have frequencies : I2C_FRQ board.F_CPU 255 64 ≤ I2C_FRQ board.F_CPU 255 16 ∧
      I2C_FRQ board.F_CPU 255 16 < I2C_FRQ board.F_CPU 1 64 ∧ I2C_FRQ board.F_CPU 255 16 ≤ I2C_FRQ board.F_CPU 255 4 ∧
      I2C_FRQ board.F_CPU 255 4 < I2C_FRQ board.F_CPU 1 16 ∧ I2C_FRQ board.F_CPU 255 4 ≤ I2C_FRQ board.F_CPU 255 1 ∧
      I2C_FRQ board.F_CPU 255 1 < I2C_FRQ board.F_CPU 1 4 := by
    cases board <;> decide
  obtain ⟨below64,above64,below16,above16,below4,above4⟩ := frequencies
  by_cases one : I2C_FRQ board.F_CPU 255 1 < freq.toNat
  · have code : atmegaI2cCalcPrescaler board.F_CPU freq = B0 := if_pos one
    rw [setRate_rounded code (by decide) (n := 1) (by decide) (by decide) positive dividend slow]
    exact iff_of_true (frq_fits (by decide) one) (by omega)
  by_cases four : I2C_FRQ board.F_CPU 255 4 < freq.toNat
  · have code : atmegaI2cCalcPrescaler board.F_CPU freq = B11 := by
      rw [atmegaI2cCalcPrescaler,if_neg one,if_pos ⟨four,by omega⟩]
    rw [setRate_rounded code (by decide) (n := 64) (by decide) (by decide) positive dividend slow]
    exact iff_of_true (frq_fits (by decide) low) (by omega)
  by_cases sixteen : I2C_FRQ board.F_CPU 255 16 < freq.toNat
  · have code : atmegaI2cCalcPrescaler board.F_CPU freq = B10 := by
      rw [atmegaI2cCalcPrescaler,if_neg one,if_neg fun h => four h.1,if_pos ⟨sixteen,by omega⟩]
    rw [setRate_rounded code (by decide) (n := 16) (by decide) (by decide) positive dividend slow]
    exact iff_of_true (frq_fits (by decide) sixteen) sixteen
  · have code : atmegaI2cCalcPrescaler board.F_CPU freq = B1 := by
      rw [atmegaI2cCalcPrescaler,if_neg one,if_neg fun h => four h.1,if_neg fun h => sixteen h.1,if_pos ⟨low,by omega⟩]
    rw [setRate_rounded code (by decide) (n := 4) (by decide) (by decide) positive dividend slow]
    exact iff_of_false (Nat.not_le.mpr (frq_overflows positive (Nat.not_lt.mp sixteen))) sixteen

def idle : Registers := ⟨0,0xF8⟩

theorem rate_rounds_fast :
    (I2C_FRQ Board.uno.F_CPU 255 64 < 100000 ∧ 100000 ≤ Board.uno.F_CPU / 16) ∧
    (Rounded Board.uno.F_CPU 100000 (setRate Board.uno.F_CPU 100000 idle) ↔ I2C_FRQ Board.uno.F_CPU 255 16 < 100000) :=
  ⟨by decide,rate_rounds .uno 100000 idle (by decide) (by decide)⟩

/-- At 1000 Hz the divider should be 1998, of which 206 is left: the bus runs at 9615 Hz. -/
theorem rate_masked :
    (I2C_FRQ Board.uno.F_CPU 255 64 < 1000 ∧ 1000 ≤ Board.uno.F_CPU / 16) ∧
    (setRate Board.uno.F_CPU 1000 idle) = ⟨206,0xF9⟩ ∧
    Board.uno.F_CPU / (16 + 2 * 206 * 4) = 9615 ∧
    ¬ Rounded Board.uno.F_CPU 1000 (setRate Board.uno.F_CPU 1000 idle) := by
  have set : setRate Board.uno.F_CPU 1000 idle = ⟨206,0xF9⟩ := by rfl
  refine ⟨by decide,set,by decide,fun rounded => ?_⟩
  have wrong := rounded.programmed.2
  rw [set] at wrong
  exact absurd wrong (by decide)

end BermudaOS.Dev.AtmegaRate
