import Mathlib.Data.BitVec
import BermudaOS.Lib.Chains

/-! Lists whose nodes hold one word each, the exclusive or of the addresses of their two
neighbours. A segment is read from the address before it to the address behind it. -/
namespace BermudaOS.Lib.XorChains

variable {n : Nat} {link other : BitVec n → BitVec n} {p q r s x : BitVec n} {xs ys : List (BitVec n)}

/-- The nodes of the segment encode their neighbours, with `p` before it and `q` behind. -/
def Encodes (link : BitVec n → BitVec n) : BitVec n → List (BitVec n) → BitVec n → Prop
  | _,[],_ => True
  | p,x::xs,q => link x = p ^^^ xs.headD q ∧ Encodes link x xs q

@[simp] theorem encodes_nil : Encodes link p [] q ↔ True := Iff.rfl

@[simp] theorem encodes_cons : Encodes link p (x::xs) q ↔ link x = p ^^^ xs.headD q ∧ Encodes link x xs q := Iff.rfl

@[simp] theorem xor_cancel (p q : BitVec n) : p ^^^ (p ^^^ q) = q := by
  rw [← BitVec.xor_assoc,BitVec.xor_self,BitVec.zero_xor]

theorem headD_append (xs ys : List (BitVec n)) (q : BitVec n) : (xs ++ ys).headD q = xs.headD (ys.headD q) := by
  cases xs with
  | nil => rfl
  | cons x xs => rfl

theorem encodes_append : Encodes link p (xs ++ ys) q ↔
    Encodes link p xs (ys.headD q) ∧ Encodes link (xs.getLastD p) ys q := by
  induction xs generalizing p with
  | nil => simp
  | cons x xs ih => simp only [List.cons_append,encodes_cons,ih,headD_append,and_assoc,List.getLastD_cons]

theorem encodes_congr (encodes : Encodes link p xs q) (same : ∀ x ∈ xs, other x = link x) :
    Encodes other p xs q := by
  induction xs generalizing p with
  | nil => trivial
  | cons x xs ih =>
    obtain ⟨word,rest⟩ := encodes
    exact ⟨(same x (by simp)).trans word,ih rest fun y member => same y (by simp [member])⟩

theorem headD_cases {α : Type} (xs : List α) (d : α) : xs.headD d = d ∨ xs.headD d ∈ xs := by
  cases xs with
  | nil => exact .inl rfl
  | cons x xs => exact .inr (by simp)

theorem headD_head {α : Type} {xs : List α} {y : α} (d : α) (member : y ∈ xs) : xs.headD d ∈ xs.head? := by
  cases xs with
  | nil => simp at member
  | cons x xs => simp

theorem headD_of_head {α : Type} {xs : List α} {d y : α} (head : y ∈ xs.head?) : xs.headD d = y := by
  rw [List.headD_eq_head?_getD,Option.mem_def.mp head]
  rfl

theorem getLastD_cases {α : Type} (xs : List α) (d : α) : xs.getLastD d = d ∨ xs.getLastD d ∈ xs := by
  have back := headD_cases xs.reverse d
  simpa only [List.headD_eq_head?_getD,List.head?_reverse,List.mem_reverse,← List.getLastD_eq_getLast?] using back

theorem getLastD_last {α : Type} {xs : List α} {y : α} (d : α) (member : y ∈ xs) : xs.getLastD d ∈ xs.getLast? := by
  have back := headD_head d (List.mem_reverse.mpr member)
  simpa only [List.headD_eq_head?_getD,List.head?_reverse,← List.getLastD_eq_getLast?] using back

theorem getLastD_of_last {α : Type} {xs : List α} {d y : α} (last : y ∈ xs.getLast?) : xs.getLastD d = y := by
  rw [List.getLastD_eq_getLast?,Option.mem_def.mp last]
  rfl

theorem tail_ne_head {α : Type} {xs : List α} {y z : α} (nodup : xs.Nodup) (tail : y ∈ xs.tail) (head : z ∈ xs.head?) :
    y ≠ z := by
  cases xs with
  | nil => simp at tail
  | cons x xs =>
    obtain rfl : x = z := by simpa using head
    rintro rfl
    exact (List.nodup_cons.mp nodup).1 tail

theorem dropLast_ne_last {α : Type} {xs : List α} {y z : α} (nodup : xs.Nodup) (front : y ∈ xs.dropLast)
    (last : z ∈ xs.getLast?) : y ≠ z := by
  apply tail_ne_head (List.nodup_reverse.mpr nodup)
  · simpa using front
  · rwa [List.head?_reverse]

theorem encodes_start (encodes : Encodes link r xs q) (first : ∀ y ∈ xs.head?, other y = link y ^^^ (r ^^^ s))
    (same : ∀ y ∈ xs.tail, other y = link y) : Encodes other s xs q := by
  cases xs with
  | nil => trivial
  | cons x xs =>
    obtain ⟨word,rest⟩ := encodes
    refine ⟨?_,encodes_congr rest same⟩
    rw [first x (by simp),word,BitVec.xor_comm r s,BitVec.xor_comm r (xs.headD q),BitVec.xor_assoc,BitVec.xor_comm r,
      BitVec.xor_assoc,BitVec.xor_self,BitVec.xor_zero,BitVec.xor_comm]

/-- The same segment, read from its other end. -/
theorem encodes_reverse (encodes : Encodes link p xs q) : Encodes link q xs.reverse p := by
  induction xs generalizing p with
  | nil => trivial
  | cons x xs ih =>
    obtain ⟨word,rest⟩ := encodes
    rw [List.reverse_cons,encodes_append]
    refine ⟨ih rest,?_,trivial⟩
    rw [word,BitVec.xor_comm]
    cases xs with
    | nil => rfl
    | cons y ys => simp

theorem encodes_stop (encodes : Encodes link p xs r) (last : ∀ y ∈ xs.getLast?, other y = link y ^^^ (r ^^^ s))
    (same : ∀ y ∈ xs.dropLast, other y = link y) : Encodes other p xs s := by
  have back : Encodes other s xs.reverse p := by
    apply encodes_start (encodes_reverse encodes)
    · rwa [List.head?_reverse]
    · simpa using same
  simpa using encodes_reverse back

/-- A node comes in behind `x`. -/
theorem encodes_insert {before after : List (BitVec n)} {z : BitVec n} (encodes : Encodes link p (before ++ x::after) q)
    (own : other x = before.getLastD p ^^^ z) (fresh : other z = x ^^^ after.headD q)
    (next : ∀ y ∈ after.head?, other y = link y ^^^ (x ^^^ z)) (left : ∀ y ∈ before, other y = link y)
    (right : ∀ y ∈ after.tail, other y = link y) : Encodes other p (before ++ x::z::after) q := by
  obtain ⟨front,_,back⟩ := encodes_append.mp encodes
  exact encodes_append.mpr ⟨encodes_congr front left,own,fresh,encodes_start back next right⟩

/-- A node goes out. -/
theorem encodes_remove {before after : List (BitVec n)} (encodes : Encodes link p (before ++ x::after) q)
    (prev : ∀ y ∈ before.getLast?, other y = link y ^^^ (x ^^^ after.headD q))
    (next : ∀ y ∈ after.head?, other y = link y ^^^ (x ^^^ before.getLastD p))
    (left : ∀ y ∈ before.dropLast, other y = link y) (right : ∀ y ∈ after.tail, other y = link y) :
    Encodes other p (before ++ after) q := by
  obtain ⟨front,_,back⟩ := encodes_append.mp encodes
  exact encodes_append.mpr ⟨encodes_stop front prev left,encodes_start back next right⟩

end BermudaOS.Lib.XorChains
