import Mathlib.Algebra.BigOperators.Group.Finset.Piecewise
import Mathlib.Algebra.GroupWithZero.Nat
import Mathlib.Order.Interval.Finset.Nat
import Mathlib.Order.Lattice
import Mathlib.Order.Defs.LinearOrder
import Mathlib.Order.Basic
import Mathlib.Data.List.Basic

/-! Half-open spans of a linear order, counted point by point. The number of
spans over each point is additive, does not depend on the order of the list and
is kept by joining two spans that touch, so a family that tiles a region is
followed through splits, joins and reorderings by arithmetic on counts. -/
namespace BermudaOS.Lib.Spans

variable {α : Type} [LinearOrder α]

/-- The number of spans that contain `x`. -/
def cover (spans : List (α × α)) (x : α) : Nat :=
  spans.countP (fun s => s.1 ≤ x ∧ x < s.2)

/-- Non-empty spans in ascending order, with a gap between any two. -/
def Separated (spans : List (α × α)) : Prop :=
  (∀ s ∈ spans, s.1 < s.2) ∧ spans.Pairwise (fun s t => s.2 < t.1)

@[simp] theorem cover_nil (x : α) : cover [] x = 0 := rfl

theorem cover_cons (s : α × α) (spans : List (α × α)) (x : α) :
    cover (s::spans) x = cover spans x + if s.1 ≤ x ∧ x < s.2 then 1 else 0 := by
  simp [cover,List.countP_cons]

@[simp] theorem cover_append (left right : List (α × α)) (x : α) :
    cover (left ++ right) x = cover left x + cover right x := by
  simp [cover]

theorem cover_perm {left right : List (α × α)} (perm : left.Perm right) (x : α) :
    cover left x = cover right x := perm.countP_eq _

theorem cover_pos {spans : List (α × α)} {x : α} :
    0 < cover spans x ↔ ∃ s ∈ spans, s.1 ≤ x ∧ x < s.2 := by
  simp [cover]

theorem cover_zero {spans : List (α × α)} {x : α} (outside : cover spans x = 0) {s : α × α}
    (member : s ∈ spans) : ¬(s.1 ≤ x ∧ x < s.2) := by
  intro inside
  have positive := cover_pos.mpr ⟨s,member,inside⟩
  omega

theorem cover_join {a b c : α} (low : a ≤ b) (high : b ≤ c) (spans : List (α × α)) (x : α) :
    cover ((a,c)::spans) x = cover ((a,b)::(b,c)::spans) x := by
  simp only [cover_cons]
  by_cases left : x < b
  · have inside : x < c := lt_of_lt_of_le left high
    simp [left,inside,not_le_of_gt left]
  · have right : b ≤ x := le_of_not_gt left
    simp [left,right,le_trans low right]

theorem disjoint_of_cover {spans : List (α × α)} (nonempty : ∀ s ∈ spans, s.1 < s.2)
    (once : ∀ x, cover spans x ≤ 1) :
    spans.Pairwise (fun s t => s.2 ≤ t.1 ∨ t.2 ≤ s.1) := by
  induction spans with
  | nil => exact List.Pairwise.nil
  | cons s spans ih =>
    have rest : ∀ x, cover spans x ≤ 1 := fun x => by
      have total := once x
      rw [cover_cons] at total
      omega
    refine List.pairwise_cons.mpr ⟨?_,ih (fun t member => nonempty t (by simp [member])) rest⟩
    intro t member
    by_contra overlap
    simp only [not_or,not_le] at overlap
    have sne := nonempty s (by simp)
    have tne := nonempty t (by simp [member])
    -- both spans contain the larger of the two lower ends
    have inside : s.1 ≤ max s.1 t.1 ∧ max s.1 t.1 < s.2 :=
      ⟨le_max_left _ _,max_lt sne overlap.1⟩
    have positive : 0 < cover spans (max s.1 t.1) :=
      cover_pos.mpr ⟨t,member,le_max_right _ _,max_lt overlap.2 tne⟩
    have total := once (max s.1 t.1)
    rw [cover_cons,if_pos inside] at total
    omega

theorem separated_cons {s : α × α} {spans : List (α × α)} :
    Separated (s::spans) ↔ s.1 < s.2 ∧ (∀ t ∈ spans, s.2 < t.1) ∧ Separated spans := by
  simp only [Separated,List.mem_cons,forall_eq_or_imp,List.pairwise_cons]
  constructor
  · rintro ⟨⟨first,rest⟩,before,sorted⟩
    exact ⟨first,before,rest,sorted⟩
  · rintro ⟨first,before,rest,sorted⟩
    exact ⟨⟨first,rest⟩,before,sorted⟩

theorem separated_append {left right : List (α × α)} :
    Separated (left ++ right) ↔
      Separated left ∧ Separated right ∧ ∀ s ∈ left, ∀ t ∈ right, s.2 < t.1 := by
  simp only [Separated,List.mem_append,List.pairwise_append]
  constructor
  · rintro ⟨all,sorted,other,before⟩
    exact ⟨⟨fun s m => all s (.inl m),sorted⟩,⟨fun s m => all s (.inr m),other⟩,before⟩
  · rintro ⟨⟨first,sorted⟩,⟨second,other⟩,before⟩
    exact ⟨fun s m => m.elim (first s) (second s),sorted,other,before⟩

theorem tiles_inside {spans : List (α × α)} {lo hi : α}
    (tiles : ∀ x, cover spans x = if lo ≤ x ∧ x < hi then 1 else 0) {s : α × α}
    (member : s ∈ spans) {x : α} (within : s.1 ≤ x ∧ x < s.2) : lo ≤ x ∧ x < hi := by
  by_contra outside
  have positive := cover_pos.mpr ⟨s,member,within⟩
  rw [tiles x,if_neg outside] at positive
  omega

/-- Separated spans that tile a region are the region itself: a second span would
leave its gap uncovered. -/
theorem separated_whole {spans : List (α × α)} {lo hi : α} (region : lo < hi)
    (separated : Separated spans)
    (tiles : ∀ x, cover spans x = if lo ≤ x ∧ x < hi then 1 else 0) : spans = [(lo,hi)] := by
  have covered (x : α) (inside : lo ≤ x ∧ x < hi) : ∃ s ∈ spans, s.1 ≤ x ∧ x < s.2 :=
    cover_pos.mp (by rw [tiles x,if_pos inside]; omega)
  cases spans with
  | nil =>
    obtain ⟨s,member,_⟩ := covered lo ⟨le_refl _,region⟩
    simp at member
  | cons s rest =>
    obtain ⟨sne,before,_⟩ := separated_cons.mp separated
    have start := tiles_inside tiles (s := s) (by simp) ⟨le_refl _,sne⟩
    have low : s.1 = lo := by
      obtain ⟨t,member,tlow,_⟩ := covered lo ⟨le_refl _,region⟩
      rcases List.mem_cons.mp member with rfl | later
      · exact le_antisymm tlow start.1
      · have gap := before t later
        exact absurd (lt_of_lt_of_le gap (le_trans tlow (le_trans start.1 (le_of_lt sne))))
          (lt_irrefl _)
    have high : s.2 = hi := by
      apply le_antisymm
      · by_contra above
        have bad := tiles_inside tiles (s := s) (x := hi) (by simp) ⟨by rw [low]; exact le_of_lt region,not_le.mp above⟩
        exact lt_irrefl _ bad.2
      · by_contra below
        obtain ⟨t,member,tlow,thigh⟩ :=
          covered s.2 ⟨low ▸ le_of_lt sne,not_le.mp below⟩
        rcases List.mem_cons.mp member with rfl | later
        · exact lt_irrefl _ thigh
        · exact lt_irrefl _ (lt_of_lt_of_le (before t later) tlow)
    have alone : rest = [] := by
      rw [List.eq_nil_iff_forall_not_mem]
      intro t later
      have tne := separated.1 t (by simp [later])
      have bad := (tiles_inside tiles (s := t) (by simp [later]) ⟨le_refl _,tne⟩).2
      exact lt_irrefl _ (lt_trans (before t later) (high ▸ bad))
    rw [alone,← low,← high]

/-! The length of a family of spans of numbers. -/

def extent (spans : List (Nat × Nat)) : Nat := (spans.map fun s => s.2 - s.1).sum

theorem sum_inside {low high bound : Nat} (fits : high ≤ bound) :
    (∑ x ∈ Finset.range bound, if low ≤ x ∧ x < high then 1 else 0) = high - low := by
  have inside : (Finset.range bound).filter (fun x => low ≤ x ∧ x < high) = Finset.Ico low high := by
    ext x
    simp only [Finset.mem_filter,Finset.mem_range,Finset.mem_Ico]
    omega
  rw [← Finset.card_filter,inside,Nat.card_Ico]

theorem sum_cover {spans : List (Nat × Nat)} {bound : Nat} (fits : ∀ s ∈ spans, s.2 ≤ bound) :
    ∑ x ∈ Finset.range bound, cover spans x = extent spans := by
  induction spans with
  | nil => simp [extent]
  | cons s spans ih =>
    simp only [cover_cons,Finset.sum_add_distrib]
    rw [ih (fun t member => fits t (by simp [member])),sum_inside (fits s (by simp)),Nat.add_comm]
    simp [extent]

end BermudaOS.Lib.Spans
