import Mathlib.Algebra.Group.Nat.Defs
import Mathlib.Data.Int.Basic

/-! Expressions of C over integer types that are at least as wide as `int`. The operands of
an operation are converted to the common type, and the result is reduced to it. -/
namespace BermudaOS.Lib.CExpr

structure IntType where
  signed : Bool
  bits : Nat
  deriving DecidableEq

namespace IntType

/-- The value of the type that is congruent to `v`. -/
def wrap (t : IntType) (v : Int) : Int := if t.signed then v.bmod (2^t.bits) else v % (2^t.bits : Nat)

/-- The values of the type are below it: half of them are negative in a signed type. -/
def limit (t : IntType) : Nat := if t.signed then (2^t.bits + 1) / 2 else 2^t.bits

/-- The wider of two types, and the unsigned one of two that are equally wide. -/
def join (s t : IntType) : IntType :=
  if s.bits < t.bits then t else if t.bits < s.bits then s else ⟨s.signed && t.signed,s.bits⟩

end IntType

inductive Op where
  | mul
  | add
  | sub
  | div
  deriving DecidableEq

def Op.apply : Op → Int → Int → Int
  | mul,x,y => x * y
  | add,x,y => x + y
  | sub,x,y => x - y
  | div,x,y => x.tdiv y

inductive Expr where
  | val (t : IntType) (v : Int)
  | op (o : Op) (a b : Expr)

namespace Expr

abbrev mul (a b : Expr) : Expr := op .mul a b

abbrev add (a b : Expr) : Expr := op .add a b

abbrev sub (a b : Expr) : Expr := op .sub a b

abbrev div (a b : Expr) : Expr := op .div a b

def type : Expr → IntType
  | val t _ => t
  | op _ a b => a.type.join b.type

/-- There is no value if a division is by zero. -/
def eval : Expr → Option Int
  | val _ v => some v
  | op o a b => do
    let t := a.type.join b.type
    let x := t.wrap (← a.eval)
    let y := t.wrap (← b.eval)
    if o = .div ∧ y = 0 then none else some (t.wrap (o.apply x y))

def less (a b : Expr) : Option Bool := do
  let t := a.type.join b.type
  return t.wrap (← a.eval) < t.wrap (← b.eval)

/-- What is computed for a product is the product of its operands, everywhere in the expression. -/
def Unwrapped : Expr → Prop
  | val _ _ => True
  | op o a b => a.Unwrapped ∧ b.Unwrapped ∧
    (o = .mul → ∀ x ∈ a.eval, ∀ y ∈ b.eval, (op o a b).eval = some (x * y))

def value : Expr → Int
  | val _ v => v
  | op o a b => o.apply a.value b.value

/-- All values in the expression are natural numbers that their types hold. -/
def Fits : Expr → Prop
  | val t v => 0 ≤ v ∧ v < t.limit
  | op o a b => a.Fits ∧ b.Fits ∧ (o = .div → b.value ≠ 0) ∧
    0 ≤ (op o a b).value ∧ (op o a b).value < (op o a b).type.limit

instance decidableFits : ∀ a : Expr,Decidable a.Fits
  | val _ _ => inferInstanceAs (Decidable (_ ∧ _))
  | op o a b =>
    have := decidableFits a
    have := decidableFits b
    inferInstanceAs (Decidable (_ ∧ _ ∧ (o = .div → b.value ≠ 0) ∧ _ ∧ _))

end Expr

variable {s t : IntType} {a b : Expr} {v : Int}

theorem wrap_below (low : 0 ≤ v) (high : v < t.limit) : t.wrap v = v := by
  obtain ⟨signed,bits⟩ := t
  cases signed with
  | false => exact Int.emod_eq_of_lt low high
  | true =>
    have positive := Nat.two_pow_pos bits
    refine Int.bmod_eq_of_le (show -((2^bits : Nat) / 2 : Int) ≤ v by omega) ?_
    exact lt_of_lt_of_eq high (by simp [IntType.limit])

theorem wrap_congr (t : IntType) (v : Int) : t.wrap v % (2^t.bits : Nat) = v % (2^t.bits : Nat) := by
  unfold IntType.wrap
  split
  · exact Int.bmod_emod
  · exact Int.emod_emod_of_dvd v (Int.dvd_refl _)

theorem wrap_lt (t : IntType) (v : Int) : t.wrap v < t.limit := by
  obtain ⟨signed,bits⟩ := t
  cases signed with
  | false => exact Int.emod_lt_of_pos v (by exact_mod_cast Nat.two_pow_pos bits)
  | true => exact lt_of_lt_of_eq (Int.bmod_lt (Nat.two_pow_pos bits)) (by simp [IntType.limit])

theorem limit_mono (narrow : s.bits < t.bits) : s.limit ≤ t.limit := by
  have double : 2^s.bits * 2 ≤ 2^t.bits := Nat.pow_le_pow_right (n := 2) (by decide) narrow
  have most : s.limit ≤ 2^s.bits := by
    unfold IntType.limit
    have positive := Nat.two_pow_pos s.bits
    split <;> omega
  have least : (2^t.bits + 1) / 2 ≤ t.limit := by
    unfold IntType.limit
    have positive := Nat.two_pow_pos t.bits
    split <;> omega
  omega

theorem limit_unsigned (t : IntType) (signed : Bool) : t.limit ≤ (IntType.mk (t.signed && signed) t.bits).limit := by
  have positive := Nat.two_pow_pos t.bits
  have half : (2^t.bits + 1) / 2 ≤ 2^t.bits := by omega
  unfold IntType.limit
  cases t.signed with
  | false => simp
  | true =>
    cases signed with
    | false => simpa using half
    | true => simp

theorem limit_join (s t : IntType) : s.limit ≤ (s.join t).limit ∧ t.limit ≤ (s.join t).limit := by
  unfold IntType.join
  split
  · next narrow => exact ⟨limit_mono narrow,le_rfl⟩
  · split
    · next wide => exact ⟨le_rfl,limit_mono wide⟩
    · have same : t.bits = s.bits := by omega
      refine ⟨limit_unsigned s t.signed,?_⟩
      rw [Bool.and_comm,← same]
      exact limit_unsigned t s.signed

theorem fits_range (fits : a.Fits) : 0 ≤ a.value ∧ a.value < a.type.limit := by
  cases a with
  | val t v => exact fits
  | op o a b => exact fits.2.2.2

/-- The operands of an operation are not changed by their conversion. -/
theorem fits_converted (left : a.Fits) (right : b.Fits) :
    (a.type.join b.type).wrap a.value = a.value ∧ (a.type.join b.type).wrap b.value = b.value := by
  obtain ⟨low,below⟩ := fits_range left
  obtain ⟨bottom,under⟩ := fits_range right
  obtain ⟨wider,wide⟩ := limit_join a.type b.type
  exact ⟨wrap_below low (by omega),wrap_below bottom (by omega)⟩

theorem op_eval {o : Op} (left : a.eval = some a.value) (right : b.eval = some b.value) (first : a.Fits) (second : b.Fits)
    (divides : o = .div → b.value ≠ 0) :
    (Expr.op o a b).eval = some ((a.type.join b.type).wrap (o.apply a.value b.value)) := by
  obtain ⟨same,equal⟩ := fits_converted first second
  have regular : ¬ (o = .div ∧ b.value = 0) := fun zero => divides zero.1 zero.2
  simp only [Expr.eval,left,right,bind,Option.bind,same,equal]
  exact if_neg regular

/-- An expression that fits has the value that it has in the integers. -/
theorem fits_eval (fits : a.Fits) : a.eval = some a.value := by
  induction a with
  | val t v => rfl
  | op o a b left right =>
    obtain ⟨first,second,divides,low,small⟩ := fits
    rw [op_eval (left first) (right second) first second divides]
    exact congrArg some (wrap_below low small)

theorem fits_unwrapped (fits : a.Fits) : a.Unwrapped := by
  induction a with
  | val t v => trivial
  | op o a b left right =>
    refine ⟨left fits.1,right fits.2.1,?_⟩
    rintro rfl
    rw [fits_eval fits.1,fits_eval fits.2.1,fits_eval fits]
    rintro _ ⟨⟩ _ ⟨⟩
    rfl

/-- A product that does not wrap is one that its type holds. -/
theorem unwrapped_fits (unwrapped : (Expr.mul a b).Unwrapped) (left : a.Fits) (right : b.Fits) : (Expr.mul a b).Fits := by
  have product := unwrapped.2.2 rfl a.value (fits_eval left) b.value (fits_eval right)
  rw [op_eval (o := .mul) (fits_eval left) (fits_eval right) left right nofun] at product
  refine ⟨left,right,nofun,Int.mul_nonneg (fits_range left).1 (fits_range right).1,?_⟩
  exact lt_of_eq_of_lt (Option.some.inj product).symm (wrap_lt _ _)

theorem fits_less (left : a.Fits) (right : b.Fits) : a.less b = some (decide (a.value < b.value)) := by
  obtain ⟨first,second⟩ := fits_converted left right
  simp only [Expr.less,fits_eval left,fits_eval right,bind,Option.bind,pure,first,second]

end BermudaOS.Lib.CExpr
