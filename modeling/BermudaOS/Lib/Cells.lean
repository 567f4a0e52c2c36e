import Mathlib.Data.List.InsertIdx

/-! Arrays whose first cells hold a list. An edit of the list is an agreement of the cells
before and after it. -/
namespace BermudaOS.Lib.Cells

variable {α : Type} {f g : Nat → Option α} {xs : List α} {x : α} {i : Nat}

/-- The first cells hold the list. -/
def Filled (f : Nat → Option α) (xs : List α) : Prop := ∀ j, j < xs.length → f j = xs[j]?

@[simp] theorem filled_nil (f : Nat → Option α) : Filled f [] := fun j bound => absurd bound (Nat.not_lt_zero j)

theorem filled_get (filled : Filled f xs) (bound : i < xs.length) : f i = some xs[i] := by
  rw [filled i bound,List.getElem?_eq_getElem bound]

theorem filled_append (filled : Filled f xs) (last : g xs.length = some x) (same : ∀ j, j < xs.length → g j = f j) :
    Filled g (xs ++ [x]) := by
  intro j bound
  rw [List.length_append,List.length_singleton] at bound
  by_cases inner : j < xs.length
  · rw [same j inner,filled j inner,List.getElem?_append_left inner]
  · obtain rfl : j = xs.length := by omega
    rw [last,List.getElem?_concat_length]

theorem filled_insert (filled : Filled f xs) (place : i ≤ xs.length) (own : g i = some x)
    (left : ∀ j, j < i → g j = f j) (right : ∀ j, i ≤ j → j < xs.length → g (j + 1) = f j) :
    Filled g (xs.insertIdx i x) := by
  intro j bound
  rw [List.length_insertIdx_of_le_length place] at bound
  obtain before | rfl | after := Nat.lt_trichotomy j i
  · rw [left j before,filled j (by omega),List.getElem?_insertIdx_of_lt before]
  · rw [own,List.getElem?_insertIdx_self,if_pos place]
  · obtain ⟨j,rfl⟩ := Nat.exists_eq_add_one_of_ne_zero (Nat.ne_zero_of_lt after)
    rw [right j (by omega) (by omega),filled j (by omega),List.getElem?_insertIdx_of_gt after,Nat.add_sub_cancel]

theorem insertIdx_middle (xs ys : List α) (x : α) : (xs ++ ys).insertIdx xs.length x = xs ++ x::ys := by
  induction xs with
  | nil => rfl
  | cons y xs ih => rw [List.cons_append,List.length_cons,List.insertIdx_succ_cons,ih,List.cons_append]

theorem filled_erase (filled : Filled f xs) (left : ∀ j, j < i → j < xs.length → g j = f j)
    (right : ∀ j, i ≤ j → j + 1 < xs.length → g j = f (j + 1)) (inside : i < xs.length) :
    Filled g (xs.eraseIdx i) := by
  intro j bound
  rw [List.length_eraseIdx_of_lt inside] at bound
  rw [List.getElem?_eraseIdx]
  split
  · rename_i before
    rw [left j before (by omega),filled j (by omega)]
  · rename_i after
    rw [right j (by omega) (by omega),filled (j + 1) (by omega)]

end BermudaOS.Lib.Cells
