import BermudaOS.Lib.Spans

/-! Separated spans as sets of points. The points determine the spans, and families over
the same points are equally long. -/
namespace BermudaOS.Lib.Spans

variable {α : Type} [LinearOrder α]

theorem cover_first (s : α × α) (spans : List (α × α)) (nonempty : s.1 < s.2) : 0 < cover (s::spans) s.1 := by
  rw [cover_pos]
  exact ⟨s,by simp,le_refl _,nonempty⟩

theorem separated_low {s : α × α} {spans : List (α × α)} (separated : Separated (s::spans)) {x : α}
    (covered : 0 < cover (s::spans) x) : s.1 ≤ x := by
  rw [separated_cons] at separated
  obtain ⟨nonempty,before,-⟩ := separated
  rw [cover_pos] at covered
  obtain ⟨t,member,low,-⟩ := covered
  rcases List.mem_cons.mp member with rfl | later
  · exact low
  · exact le_trans (le_of_lt (lt_trans nonempty (before t later))) low

theorem separated_gap {s : α × α} {spans : List (α × α)} (separated : Separated (s::spans)) :
    cover (s::spans) s.2 = 0 := by
  rw [separated_cons] at separated
  obtain ⟨-,before,-⟩ := separated
  by_contra covered
  rw [← ne_eq,← Nat.pos_iff_ne_zero,cover_pos] at covered
  obtain ⟨t,member,low,high⟩ := covered
  rcases List.mem_cons.mp member with rfl | later
  · exact lt_irrefl _ high
  · exact lt_irrefl _ (lt_of_lt_of_le (before t later) low)

theorem separated_first {s t : α × α} {left right : List (α × α)} (first : Separated (s::left))
    (second : Separated (t::right)) (same : ∀ x, cover (s::left) x = cover (t::right) x) : t.1 ≤ s.1 := by
  apply separated_low second
  rw [← same]
  exact cover_first s left (first.1 s (by simp))

theorem separated_last {s t : α × α} {left right : List (α × α)} (first : Separated (s::left))
    (start : s.1 = t.1) (same : ∀ x, cover (s::left) x = cover (t::right) x) : t.2 ≤ s.2 := by
  by_contra longer
  have covered : 0 < cover (t::right) s.2 := by
    rw [cover_pos]
    exact ⟨t,by simp,start ▸ le_of_lt (first.1 s (by simp)),not_le.mp longer⟩
  rw [← same,separated_gap first] at covered
  exact lt_irrefl _ covered

/-- Points determine the separated spans over them. -/
theorem separated_unique {left right : List (α × α)} (first : Separated left) (second : Separated right)
    (same : ∀ x, cover left x = cover right x) : left = right := by
  induction left generalizing right with
  | nil =>
    cases right with
    | nil => rfl
    | cons t right =>
      have covered := cover_first t right (second.1 t (by simp))
      rw [← same,cover_nil] at covered
      exact absurd covered (lt_irrefl _)
  | cons s left ih =>
    cases right with
    | nil =>
      have covered := cover_first s left (first.1 s (by simp))
      rw [same,cover_nil] at covered
      exact absurd covered (lt_irrefl _)
    | cons t right =>
      have back (x : α) := (same x).symm
      have start := le_antisymm (separated_first second first back) (separated_first first second same)
      have stop := le_antisymm (separated_last second start.symm back) (separated_last first start same)
      obtain rfl : s = t := Prod.ext start stop
      rw [separated_cons] at first second
      congr 1
      apply ih first.2.2 second.2.2
      intro x
      have total := same x
      rw [cover_cons,cover_cons] at total
      omega

/-- Families over the same points are equally long. -/
theorem extent_cover {left right : List (Nat × Nat)} {bound : Nat} (first : ∀ s ∈ left, s.2 ≤ bound)
    (second : ∀ s ∈ right, s.2 ≤ bound) (same : ∀ x, cover left x = cover right x) : extent left = extent right := by
  rw [← sum_cover first,← sum_cover second]
  exact Finset.sum_congr rfl fun x _ => same x

theorem extent_le {spans : List (Nat × Nat)} {bound : Nat} (fits : ∀ s ∈ spans, s.2 ≤ bound)
    (once : ∀ x, cover spans x ≤ 1) : extent spans ≤ bound := by
  rw [← sum_cover fits]
  clear fits
  induction bound with
  | zero => simp
  | succ bound ih =>
    have last := once bound
    rw [Finset.sum_range_succ]
    omega

end BermudaOS.Lib.Spans
