import Mathlib.Data.Nat.Digits.Lemmas

/-! Numerals: the digits of a number in a base, the most significant first, written in an
alphabet of one letter for each digit. -/
namespace BermudaOS.Lib.Numerals

variable {α : Type} {digit : Nat → α} {b m n : Nat}

/-- Zero has one digit; no other numeral has a leading zero. -/
def numeral (digit : Nat → α) (b n : Nat) : List α :=
  if n = 0 then [digit 0] else ((Nat.digits b n).map digit).reverse

theorem numeral_small (small : n < b) : numeral digit b n = [digit n] := by
  unfold numeral
  split
  · rename_i zero
    rw [zero]
  · rename_i positive
    rw [Nat.digits_of_lt b n positive small]
    rfl

theorem numeral_split (base : 1 < b) (large : b ≤ n) :
    numeral digit b n = numeral digit b (n / b) ++ [digit (n % b)] := by
  have quotient : n / b ≠ 0 := (Nat.div_pos large (by omega)).ne'
  rw [numeral,numeral,if_neg (by omega),if_neg quotient,Nat.digits_def' base (by omega),List.map_cons,List.reverse_cons]

theorem numeral_ne_nil (base : 1 < b) : numeral digit b n ≠ [] := by
  by_cases small : n < b
  · rw [numeral_small small]
    exact List.cons_ne_nil _ _
  · rw [numeral_split base (Nat.not_lt.mp small)]
    exact List.append_ne_nil_of_right_ne_nil _ (List.cons_ne_nil _ _)

theorem numeral_long (base : 1 < b) (large : b ≤ n) (d : α) : numeral digit b n ≠ [d] := by
  intro single
  rw [numeral_split base large] at single
  exact numeral_ne_nil base (List.append_inj_left' (single : _ = [] ++ [d]) rfl)

theorem numeral_leading (digit : Nat → α) (base : 1 < b) (positive : 0 < n) :
    ∃ d rest,0 < d ∧ d < b ∧ numeral digit b n = digit d::rest := by
  induction n using Nat.strong_induction_on with
  | _ n ih =>
    by_cases small : n < b
    · exact ⟨n,[],positive,small,numeral_small small⟩
    · obtain ⟨d,rest,above,below,eq⟩ := ih (n / b) (Nat.div_lt_self positive base) (Nat.div_pos (Nat.not_lt.mp small) (by omega))
      exact ⟨d,rest ++ [digit (n % b)],above,below,by rw [numeral_split base (Nat.not_lt.mp small),eq,List.cons_append]⟩

theorem numeral_inj (base : 1 < b) (distinct : ∀ i j,i < b → j < b → digit i = digit j → i = j)
    (same : numeral digit b m = numeral digit b n) : m = n := by
  induction m using Nat.strong_induction_on generalizing n with
  | _ m ih =>
    by_cases left : m < b <;> by_cases right : n < b
    · rw [numeral_small left,numeral_small right] at same
      exact distinct m n left right (List.cons.inj same).1
    · rw [numeral_small left] at same
      exact absurd same.symm (numeral_long base (Nat.not_lt.mp right) _)
    · rw [numeral_small right] at same
      exact absurd same (numeral_long base (Nat.not_lt.mp left) _)
    · rw [numeral_split base (Nat.not_lt.mp left),numeral_split base (Nat.not_lt.mp right)] at same
      have quotient := ih (m / b) (Nat.div_lt_self (by omega) base) (List.append_inj_left' same rfl)
      have last := distinct _ _ (Nat.mod_lt m (by omega)) (Nat.mod_lt n (by omega))
        (List.cons.inj (List.append_inj_right' same rfl)).1
      rw [← Nat.div_add_mod m b,← Nat.div_add_mod n b,quotient,last]

end BermudaOS.Lib.Numerals
