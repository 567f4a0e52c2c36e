import BermudaOS.Dev.AtmegaRate
import BermudaOS.Lib.CExpr
import Mathlib.Tactic.IntervalCases

/-! The baud rate of the USART, `BermudaUsartConfigBaud` in `atmega-usart.c`. An `int` has 16
bits, and so have the products of a baud rate and a literal. -/
namespace BermudaOS.Dev.UsartBaud
open Lib.CExpr

def int : IntType := ⟨true,16⟩

/-- What an `unsigned short` is promoted to. -/
def unsignedInt : IntType := ⟨false,16⟩

/-- `F_CPU`, which is a `long` or an `unsigned long`. -/
structure Clock where
  signed : Bool
  F_CPU : Nat
  constant : F_CPU < (IntType.mk signed 32).limit

structure HwUsart where
  ucsra : BitVec 8
  ubrrl : BitVec 8
  ubrrh : BitVec 8
  deriving DecidableEq

def BAUD_TOL : Int := 2

def lit (v : Int) : Expr := .val int v

def Clock.expr (c : Clock) : Expr := .val ⟨c.signed,32⟩ c.F_CPU

def baudExpr (baud : BitVec 16) : Expr := .val unsignedInt baud.toNat

/-- `(F_CPU + half * baud) / (full * baud) - 1` -/
def rounded (half full : Int) (F_CPU baud : Expr) : Expr :=
  .sub (.div (.add F_CPU (.mul (lit half) baud)) (.mul (lit full) baud)) (lit 1)

def divider (F_CPU baud : Expr) : Expr := rounded 8 16 F_CPU baud

def divider2x (F_CPU baud : Expr) : Expr := rounded 4 8 F_CPU baud

def scaled (F_CPU : Expr) : Expr := .mul (lit 100) F_CPU

/-- `(16 * (baud + 1)) * (100 * baud) - baud * BAUD_TOL` -/
def tolerated (baud : Expr) : Expr :=
  .sub (.mul (.mul (lit 16) (.add baud (lit 1))) (.mul (lit 100) baud)) (.mul baud (lit BAUD_TOL))

/-- The two writes at the end of `BermudaUsartConfigBaud`. -/
def program (ubrr : BitVec 16) (hw : HwUsart) : HwUsart :=
  let hw := {hw with ubrrl := (ubrr &&& 0xFF).setWidth 8}
  {hw with ubrrh := (ubrr >>> 8 &&& 0xF).setWidth 8}

def bermudaUsartConfigBaud (c : Clock) (baud : BitVec 16) (hw : HwUsart) : Option HwUsart := do
  let ubrr := BitVec.ofInt 16 (← (divider c.expr (baudExpr baud)).eval)
  if ← (scaled c.expr).less (tolerated (baudExpr baud)) then
    let ubrr := BitVec.ofInt 16 (← (divider2x c.expr (baudExpr baud)).eval)
    return program ubrr {hw with ucsra := hw.ucsra ||| 0b10}
  else return program ubrr hw

def HwUsart.ubrr (hw : HwUsart) : Nat := 256 * hw.ubrrh.toNat + hw.ubrrl.toNat

def HwUsart.u2x (hw : HwUsart) : Bool := hw.ucsra.getLsbD 1

/-- The rate error of the divider is above `BAUD_TOL` percent. -/
def RateOff (F_CPU baud : Int) : Prop :=
  let clocks := 16 * ((F_CPU + 8 * baud) / (16 * baud))
  clocks * (100 * baud + BAUD_TOL * baud) < 100 * F_CPU ∨ 100 * F_CPU < clocks * (100 * baud - BAUD_TOL * baud)

instance (F_CPU baud : Int) : Decidable (RateOff F_CPU baud) := inferInstanceAs (Decidable (_ ∨ _))

/-- The divider that is to be programmed. -/
def ubrrOf (F_CPU baud : Int) : Int :=
  if RateOff F_CPU baud then (F_CPU + 4 * baud) / (8 * baud) - 1 else (F_CPU + 8 * baud) / (16 * baud) - 1

/-- The rate is set without a division by zero or a product that wraps, and with double speed just where
the divider for normal speed is off. -/
structure Configured (c : Clock) (baud : BitVec 16) (hw after : HwUsart) : Prop where
  returns : bermudaUsartConfigBaud c baud hw = some after
  divider : (divider c.expr (baudExpr baud)).Unwrapped
  scaled : (scaled c.expr).Unwrapped
  tolerated : (tolerated (baudExpr baud)).Unwrapped
  divider2x : (UsartBaud.scaled c.expr).less (UsartBaud.tolerated (baudExpr baud)) = some true →
    (divider2x c.expr (baudExpr baud)).Unwrapped
  ubrr : after.ubrr = ubrrOf c.F_CPU baud.toNat
  speed : after.u2x = true ↔ RateOff c.F_CPU baud.toNat

variable {c : Clock} {baud : BitVec 16} {hw after : HwUsart} {v : Int}

theorem program_ubrr (v : Int) (hw : HwUsart) : ((program (BitVec.ofInt 16 v) hw).ubrr : Int) = v % 4096 := by
  have word : (BitVec.ofInt 16 v).toNat = (v % 65536).toNat := BitVec.toNat_ofInt ..
  have low : ((BitVec.ofInt 16 v &&& 0xFF).setWidth 8).toNat = (BitVec.ofInt 16 v).toNat % 256 := by
    rw [BitVec.toNat_setWidth,BitVec.toNat_and]
    exact congrArg (· % 2^8) (Nat.and_two_pow_sub_one_eq_mod _ 8) |>.trans (Nat.mod_mod _ _)
  have high : ((BitVec.ofInt 16 v >>> 8 &&& 0xF).setWidth 8).toNat = (BitVec.ofInt 16 v).toNat / 256 % 16 := by
    rw [BitVec.toNat_setWidth,BitVec.toNat_and,BitVec.toNat_ushiftRight,Nat.shiftRight_eq_div_pow]
    have nibble : (BitVec.ofInt 16 v).toNat / 2^8 &&& 15 = _ := Nat.and_two_pow_sub_one_eq_mod _ 4
    rw [show (0xF : BitVec 16).toNat = 15 from rfl,nibble]
    omega
  simp only [HwUsart.ubrr,program,low,high,word]
  omega

theorem lit_fits (low : 0 ≤ v) (high : v < 2^15) : (lit v).Fits := ⟨low,high⟩

theorem clock_fits (c : Clock) : c.expr.Fits := ⟨Int.natCast_nonneg _,Int.ofNat_lt.mpr c.constant⟩

theorem baud_fits (baud : BitVec 16) : (baudExpr baud).Fits := ⟨Int.natCast_nonneg _,Int.ofNat_lt.mpr baud.isLt⟩

/-- Only the five lowest rates have a product that does not wrap. -/
theorem tolerated_slow (unwrapped : (tolerated (baudExpr baud)).Unwrapped) : baud.toNat ≤ 5 := by
  obtain ⟨⟨sum,hundred,product⟩,_⟩ := unwrapped
  have right : (Expr.mul (lit 100) (baudExpr baud)).Fits :=
    unwrapped_fits hundred (lit_fits (by decide) (by decide)) (baud_fits baud)
  have hundredfold : 100 * (baud.toNat : Int) < (2^16 : Nat) := right.2.2.2.2
  have next : (Expr.add (baudExpr baud) (lit 1)).Fits := by
    refine ⟨baud_fits baud,lit_fits (by decide) (by decide),nofun,?_,?_⟩
    · show 0 ≤ (baud.toNat : Int) + 1
      omega
    · show (baud.toNat : Int) + 1 < (2^16 : Nat)
      omega
  have left : (Expr.mul (lit 16) (.add (baudExpr baud) (lit 1))).Fits :=
    unwrapped_fits sum (lit_fits (by decide) (by decide)) next
  have whole := unwrapped_fits ⟨sum,hundred,product⟩ left right
  have small : 16 * ((baud.toNat : Int) + 1) * (100 * baud.toNat) < (2^16 : Nat) := whole.2.2.2.2
  by_contra fast
  have grows : 16 * 7 * (100 * (baud.toNat : Int)) ≤ 16 * ((baud.toNat : Int) + 1) * (100 * baud.toNat) :=
    Int.mul_le_mul_of_nonneg_right (by omega) (by omega)
  omega

theorem tolerated_fits (slow : baud.toNat ≤ 5) : (tolerated (baudExpr baud)).Fits := by
  unfold baudExpr
  generalize baud.toNat = b at slow
  interval_cases b <;> decide

theorem scaled_fits (clock : 100 * c.F_CPU < (IntType.mk c.signed 32).limit) : (scaled c.expr).Fits := by
  refine ⟨lit_fits (by decide) (by decide),clock_fits c,nofun,Int.mul_nonneg (by decide) (Int.natCast_nonneg _),?_⟩
  show 100 * (c.F_CPU : Int) < (IntType.mk c.signed 32).limit
  omega

theorem product_fits (k : Int) (positive : 0 ≤ k) (small : k ≤ 16) (slow : baud.toNat ≤ 5) :
    (Expr.mul (lit k) (baudExpr baud)).Fits ∧ k * baud.toNat ≤ 80 := by
  have low : 0 ≤ k * baud.toNat := Int.mul_nonneg positive (Int.natCast_nonneg _)
  have high : k * baud.toNat ≤ 16 * 5 := Int.mul_le_mul small (by omega) (Int.natCast_nonneg _) (by decide)
  refine ⟨⟨lit_fits positive (by omega),baud_fits baud,nofun,low,?_⟩,high⟩
  show k * (baud.toNat : Int) < (2^16 : Nat)
  omega

theorem quotient_fits (half full : Int) (first : 0 ≤ half ∧ half ≤ 16) (second : 0 < full ∧ full ≤ 16)
    (positive : 0 < baud.toNat) (slow : baud.toNat ≤ 5) (room : c.F_CPU + 80 < (IntType.mk c.signed 32).limit) :
    (Expr.div (.add c.expr (.mul (lit half) (baudExpr baud))) (.mul (lit full) (baudExpr baud))).Fits ∧
    (Expr.div (.add c.expr (.mul (lit half) (baudExpr baud))) (.mul (lit full) (baudExpr baud))).value =
      (c.F_CPU + half * baud.toNat) / (full * baud.toNat) := by
  obtain ⟨halves,most⟩ := product_fits half first.1 first.2 slow
  obtain ⟨fulls,_⟩ := product_fits full second.1.le second.2 slow
  have least : 0 ≤ half * baud.toNat := halves.2.2.2.1
  have divisor : 0 < full * baud.toNat := Int.mul_pos second.1 (by omega)
  have dividend : 0 ≤ (c.F_CPU : Int) + half * baud.toNat := by omega
  have sum : (Expr.add c.expr (.mul (lit half) (baudExpr baud))).Fits := by
    refine ⟨clock_fits c,halves,nofun,dividend,?_⟩
    show (c.F_CPU : Int) + half * baud.toNat < (IntType.mk c.signed 32).limit
    omega
  have value : ((c.F_CPU : Int) + half * baud.toNat).tdiv (full * baud.toNat) = _ := Int.tdiv_eq_ediv_of_nonneg dividend
  have below : ((c.F_CPU : Int) + half * baud.toNat) / (full * baud.toNat) ≤ c.F_CPU + half * baud.toNat :=
    Int.ediv_le_self _ dividend
  refine ⟨⟨sum,fulls,fun _ => divisor.ne',?_,?_⟩,value⟩
  · show 0 ≤ ((c.F_CPU : Int) + half * baud.toNat).tdiv (full * baud.toNat)
    rw [value]
    exact Int.ediv_nonneg dividend divisor.le
  · show ((c.F_CPU : Int) + half * baud.toNat).tdiv (full * baud.toNat) < (IntType.mk c.signed 32).limit
    omega

theorem rounded_eval (half full : Int) (first : 0 ≤ half ∧ half ≤ 16) (second : 0 < full ∧ full ≤ 16)
    (positive : 0 < baud.toNat) (slow : baud.toNat ≤ 5) (room : c.F_CPU + 80 < (IntType.mk c.signed 32).limit) :
    (rounded half full c.expr (baudExpr baud)).Unwrapped ∧ ∃ x, (rounded half full c.expr (baudExpr baud)).eval = some x ∧
      x % 4096 = ((c.F_CPU + half * baud.toNat) / (full * baud.toNat) - 1) % 4096 := by
  obtain ⟨fits,value⟩ := quotient_fits half full first second positive slow room
  have one : (lit 1).Fits := lit_fits (by decide) (by decide)
  refine ⟨⟨fits_unwrapped fits,fits_unwrapped one,nofun⟩,?_⟩
  have word : (IntType.mk c.signed 32).wrap ((c.F_CPU + half * baud.toNat) / (full * baud.toNat) - 1) % 4294967296 =
      ((c.F_CPU + half * baud.toNat) / (full * baud.toNat) - 1) % 4294967296 := wrap_congr ..
  refine ⟨_,op_eval (fits_eval fits) (fits_eval one) fits one nofun,?_⟩
  show (IntType.mk c.signed 32).wrap (_ - 1) % 4096 = _
  rw [value]
  omega

/-- What the code compares, at a rate at which no product wraps. -/
def Fast (F_CPU baud : Nat) : Prop := 100 * F_CPU + 2 * baud < 1600 * baud * (baud + 1)

instance (F_CPU baud : Nat) : Decidable (Fast F_CPU baud) := Nat.decLt _ _

theorem less_fast (slow : baud.toNat ≤ 5) (clock : 100 * c.F_CPU < (IntType.mk c.signed 32).limit) :
    (scaled c.expr).less (tolerated (baudExpr baud)) = some true ↔ Fast c.F_CPU baud.toNat := by
  rw [fits_less (scaled_fits clock) (tolerated_fits slow),Option.some_inj,decide_eq_true_iff]
  show 100 * (c.F_CPU : Int) < 16 * ((baud.toNat : Int) + 1) * (100 * baud.toNat) - baud.toNat * 2 ↔ _
  unfold Fast
  generalize baud.toNat = b at slow ⊢
  interval_cases b <;> omega

/-- A divider of twelve bits is the right one only if the code compares right. -/
theorem fast_agrees {F_CPU b : Nat} (positive : 0 < b) (slow : b ≤ 5)
    (programmed : (if Fast F_CPU b then ((F_CPU : Int) + 4 * b) / (8 * b) - 1 else ((F_CPU : Int) + 8 * b) / (16 * b) - 1) % 4096 =
      ubrrOf F_CPU b) : RateOff F_CPU b ↔ Fast F_CPU b := by
  unfold ubrrOf at programmed
  by_cases off : RateOff F_CPU b
  · refine iff_of_true off ?_
    rw [if_pos off] at programmed
    by_contra slower
    rw [if_neg slower] at programmed
    unfold Fast at slower
    interval_cases b <;> omega
  · refine iff_of_false off fun fast => off ?_
    rw [if_neg off,if_pos fast] at programmed
    unfold Fast at fast
    refine .inr ?_
    dsimp only [BAUD_TOL]
    interval_cases b <;> omega

theorem clock_room (clock : 100 * c.F_CPU < (IntType.mk c.signed 32).limit) :
    c.F_CPU + 80 < (IntType.mk c.signed 32).limit := by
  have large : 2^31 ≤ (IntType.mk c.signed 32).limit := by cases c.signed <;> decide
  omega

/-- At a rate at which no product wraps, the registers get the divider that the comparison chooses. -/
theorem config_runs (hw : HwUsart) (positive : 0 < baud.toNat) (slow : baud.toNat ≤ 5)
    (clock : 100 * c.F_CPU < (IntType.mk c.signed 32).limit) :
    ∃ after, bermudaUsartConfigBaud c baud hw = some after ∧
      (after.u2x = true ↔ Fast c.F_CPU baud.toNat ∨ hw.u2x = true) ∧
      (after.ubrr : Int) = (if Fast c.F_CPU baud.toNat then ((c.F_CPU : Int) + 4 * baud.toNat) / (8 * baud.toNat) - 1
        else ((c.F_CPU : Int) + 8 * baud.toNat) / (16 * baud.toNat) - 1) % 4096 := by
  obtain ⟨_,plain,plainly,one⟩ := rounded_eval 8 16 (by decide) (by decide) positive slow
    (clock_room clock)
  obtain ⟨_,double,doubly,two⟩ := rounded_eval 4 8 (by decide) (by decide) positive slow
    (clock_room clock)
  have compared := fits_less (scaled_fits clock) (tolerated_fits slow)
  have fast := less_fast slow clock
  rw [compared,Option.some_inj] at fast
  by_cases faster : Fast c.F_CPU baud.toNat
  · refine ⟨program (BitVec.ofInt 16 double) {hw with ucsra := hw.ucsra ||| 0b10},?_,iff_of_true ?_ (.inl faster),?_⟩
    · simp only [bermudaUsartConfigBaud,divider,divider2x,plainly,doubly,compared,fast.mpr faster,bind,Option.bind,pure]
      rfl
    · simp [HwUsart.u2x,program]
    · rw [program_ubrr,if_pos faster,two]
  · refine ⟨program (BitVec.ofInt 16 plain) hw,?_,?_,?_⟩
    · have slower : decide ((scaled c.expr).value < (tolerated (baudExpr baud)).value) = false :=
        Bool.eq_false_iff.mpr (mt fast.mp faster)
      simp only [bermudaUsartConfigBaud,divider,plainly,compared,slower,bind,Option.bind,pure]
      rfl
    · rw [or_iff_right faster]
      rfl
    · rw [program_ubrr,if_neg faster,one]

/-- The rates at which the code is exact: the five lowest, at a clock whose hundredfold does not
wrap, if the divider has twelve bits and the comparison agrees with the rate error. The code never
clears `U2X`, so at a rate for normal speed it has to be clear before. -/
structure Exact (c : Clock) (baud : Nat) (hw : HwUsart) : Prop where
  slow : baud ≤ 5
  clock : 100 * c.F_CPU < (IntType.mk c.signed 32).limit
  agrees : RateOff c.F_CPU baud ↔ Fast c.F_CPU baud
  fits : 0 ≤ ubrrOf c.F_CPU baud ∧ ubrrOf c.F_CPU baud < 4096
  clear : hw.u2x = true → RateOff c.F_CPU baud

theorem baud_exact (c : Clock) (baud : BitVec 16) (hw : HwUsart) (nonzero : baud ≠ 0) :
    (∃ after, Configured c baud hw after) ↔ Exact c baud.toNat hw := by
  have positive : 0 < baud.toNat := by
    refine Nat.pos_of_ne_zero fun zero => nonzero ?_
    exact BitVec.eq_of_toNat_eq zero
  constructor
  · rintro ⟨after,configured⟩
    have slow := tolerated_slow configured.tolerated
    have hundredfold := unwrapped_fits configured.scaled (lit_fits (by decide) (by decide)) (clock_fits c)
    have clock : 100 * c.F_CPU < (IntType.mk c.signed 32).limit := by
      have below : 100 * (c.F_CPU : Int) < (IntType.mk c.signed 32).limit := hundredfold.2.2.2.2
      omega
    obtain ⟨same,run,double,programmed⟩ := config_runs hw positive slow clock
    obtain rfl : after = same := Option.some.inj (configured.returns.symm.trans run)
    have divider := programmed.symm.trans configured.ubrr
    refine ⟨slow,clock,fast_agrees positive slow divider,?_,?_⟩
    · rw [← divider]
      exact ⟨Int.emod_nonneg _ (by decide),Int.emod_lt_of_pos _ (by decide)⟩
    · intro set
      exact configured.speed.mp (double.mpr (.inr set))
  · intro exact
    obtain ⟨slow,clock,agrees,⟨low,high⟩,clear⟩ := exact
    obtain ⟨after,run,double,programmed⟩ := config_runs hw positive slow clock
    refine ⟨after,run,?_,fits_unwrapped (scaled_fits clock),fits_unwrapped (tolerated_fits slow),fun _ => ?_,?_,?_⟩
    · exact (rounded_eval 8 16 (by decide) (by decide) positive slow (clock_room clock)).1
    · exact (rounded_eval 4 8 (by decide) (by decide) positive slow (clock_room clock)).1
    · rw [programmed]
      unfold ubrrOf at low high ⊢
      by_cases off : RateOff c.F_CPU baud.toNat
      · rw [if_pos off] at low high
        rw [if_pos off,if_pos (agrees.mp off),Int.emod_eq_of_lt low high]
      · rw [if_neg off] at low high
        rw [if_neg off,if_neg (mt agrees.mpr off),Int.emod_eq_of_lt low high]
    · rw [double,agrees]
      exact or_iff_left_of_imp fun set => agrees.mp (clear set)

def slowClock : Clock := ⟨true,100000,by decide⟩

def reset : HwUsart := ⟨0,0,0⟩

theorem baud_exact_slow : (5 : BitVec 16) ≠ 0 ∧ ∃ after, Configured slowClock 5 reset after :=
  ⟨by decide,(baud_exact slowClock 5 reset (by decide)).mpr ⟨by decide,by decide,by decide,by decide,nofun⟩⟩

open AtmegaRate in
/-- The constant of `Makefile.flags`, which has no suffix. -/
def boardClock (board : Board) : Clock := ⟨true,board.F_CPU,by cases board <;> decide⟩

/-- The clocks of the boards are too fast for the rates at which no product wraps. -/
theorem board_inexact (board : AtmegaRate.Board) (baud : Nat) (hw : HwUsart) : ¬ Exact (boardClock board) baud hw := by
  rintro ⟨slow,_,_,⟨low,high⟩,_⟩
  unfold ubrrOf at low high
  cases board with
  | uno => interval_cases baud <;> revert low high <;> decide
  | other => interval_cases baud <;> revert low high <;> decide

/-- At 9600 baud the divider should be 103, and at 4096 there is a division by zero. -/
theorem baud_wraps : (¬ ∃ after, Configured (boardClock .uno) 9600 reset after) ∧
    bermudaUsartConfigBaud (boardClock .uno) 9600 reset = some ⟨0,0xC5,0x02⟩ ∧ ubrrOf 16000000 9600 = 103 ∧
    bermudaUsartConfigBaud (boardClock .uno) 4096 reset = none := by
  refine ⟨?_,by decide,by decide,by decide⟩
  rintro ⟨after,configured⟩
  exact absurd (tolerated_slow configured.tolerated) (by decide)

end BermudaOS.Dev.UsartBaud
