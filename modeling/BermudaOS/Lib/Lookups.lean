import Mathlib.Data.List.Basic

/-! First matches in a list. A coarser test finds what a finer one finds exactly if
every item that only the coarser one accepts is behind a match of the finer one. A test
that must not be made on some items can be tried along the list exactly if each of
these is behind a match. -/
namespace BermudaOS.Lib.Lookups

variable {α : Type} {hit odd : α → Prop} {c : α} {l : List α}

/-- Every odd item is behind a hit. -/
def Covered (hit odd : α → Prop) (l : List α) : Prop :=
  ∀ before c after, l = before ++ c::after → odd c → ∃ b ∈ before, hit b

@[simp] theorem covered_nil : Covered hit odd [] := by
  intro before c after split
  simp at split

@[simp] theorem covered_cons : Covered hit odd (c::l) ↔ ¬odd c ∧ (hit c ∨ Covered hit odd l) := by
  constructor
  · intro covered
    have first : ¬odd c := by
      intro strange
      obtain ⟨b,inside,_⟩ := covered [] c l rfl strange
      simp at inside
    by_cases found : hit c
    · exact ⟨first,.inl found⟩
    · refine ⟨first,.inr fun before d after split strange => ?_⟩
      obtain ⟨b,inside,good⟩ := covered (c::before) d after (by rw [split]; rfl) strange
      rcases List.mem_cons.mp inside with rfl | later
      · exact absurd good found
      · exact ⟨b,later,good⟩
  · rintro ⟨first,rest⟩ before d after split strange
    cases before with
    | nil =>
      rw [List.nil_append,List.cons.injEq] at split
      rw [split.1] at first
      exact absurd strange first
    | cons e before =>
      rw [List.cons_append,List.cons.injEq] at split
      rcases rest with found | covered
      · exact ⟨e,by simp,by rwa [← split.1]⟩
      · obtain ⟨b,inside,good⟩ := covered before d after split.2 strange
        exact ⟨b,by simp [inside],good⟩

theorem covered_congr {hit' odd' : α → Prop} (hits : ∀ c, hit c ↔ hit' c) (odds : ∀ c, odd c ↔ odd' c) :
    Covered hit odd l ↔ Covered hit' odd' l := by
  simp only [Covered,hits,odds]

theorem Covered.even (covered : Covered hit odd l) (none : ∀ c ∈ l, ¬hit c) : ∀ c ∈ l, ¬odd c := by
  intro c inside strange
  obtain ⟨before,after,rfl⟩ := List.append_of_mem inside
  obtain ⟨b,early,good⟩ := covered before c after rfl strange
  exact none b (by simp [early]) good

section Coarse

variable {coarse fine : α → Prop} [DecidablePred coarse] [DecidablePred fine]

theorem find_coarse (finer : ∀ c ∈ l, fine c → coarse c) :
    l.find? (fun c => coarse c) = l.find? (fun c => fine c) ↔
      Covered fine (fun c => coarse c ∧ ¬fine c) l := by
  induction l with
  | nil => simp
  | cons c l ih =>
    have rest := ih fun d inside => finer d (by simp [inside])
    rw [covered_cons]
    by_cases good : fine c
    · have also : coarse c := finer c (by simp) good
      simp [good,also]
    · by_cases odd : coarse c
      · -- the coarser test stops here, and the finer one does not
        have differ : l.find? (fun c => fine c) ≠ some c := by
          intro found
          have fits := List.find?_some found
          exact good (by simpa using fits)
        simp [good,odd,Ne.symm differ]
      · simpa [good,odd] using rest

theorem find_first {before after : List α} (fresh : c ∉ before) :
    (before ++ c::after).find? (fun c => fine c) = some c ↔ fine c ∧ ∀ b ∈ before, ¬fine b := by
  constructor
  · intro found
    have fits : fine c := by simpa using List.find?_some found
    refine ⟨fits,fun b inside good => ?_⟩
    have early : (before.find? fun c => fine c) ≠ none := by
      intro none
      have bad := List.find?_eq_none.mp none b inside
      simp [good] at bad
    obtain ⟨a,first⟩ := Option.ne_none_iff_exists'.mp early
    rw [List.find?_append,first,Option.some_or] at found
    obtain rfl := Option.some.inj found
    exact fresh (List.mem_of_find?_eq_some first)
  · rintro ⟨fits,bad⟩
    have missed : (before.find? fun c => fine c) = none := by
      simpa using bad
    simp [List.find?_append,missed,fits]

/-- When an item is the first match of both tests, or of neither one. -/
theorem first_coarse {before after : List α} (fresh : c ∉ before)
    (finer : ∀ b ∈ before ++ [c], fine b → coarse b) :
    ((before ++ c::after).find? (fun c => coarse c) = some c ↔
        (before ++ c::after).find? (fun c => fine c) = some c) ↔
      (coarse c → ¬fine c → ∃ b ∈ before, coarse b) ∧
        (fine c → (∃ b ∈ before, coarse b) → ∃ b ∈ before, fine b) := by
  rw [find_first fresh,find_first fresh]
  have less : (∃ b ∈ before, fine b) → ∃ b ∈ before, coarse b := by
    rintro ⟨b,inside,good⟩
    exact ⟨b,inside,finer b (by simp [inside]) good⟩
  have wider : fine c → coarse c := finer c (by simp)
  have none (p : α → Prop) : (∀ b ∈ before, ¬p b) ↔ ¬∃ b ∈ before, p b := by simp
  rw [none,none]
  generalize (∃ b ∈ before, coarse b) = early at less ⊢
  generalize (∃ b ∈ before, fine b) = first at less ⊢
  tauto

end Coarse

/-- A search with a test that must not be made where it is `none`. -/
def search (test : α → Option Bool) : List α → Option (Option α)
  | [] => some none
  | c::l =>
    match test c with
    | none => none
    | some true => some (some c)
    | some false => search test l

variable {test : α → Option Bool}

theorem search_found {r : Option α} (ends : search test l = some r) :
    r = l.find? (fun c => test c = some true) := by
  induction l with
  | nil => exact (Option.some.inj ends).symm
  | cons c l ih =>
    unfold search at ends
    cases tried : test c with
    | none => simp [tried] at ends
    | some b =>
      cases b with
      | true =>
        have first : some c = r := by simpa [tried] using ends
        simp [tried,first]
      | false =>
        have later : search test l = some r := by simpa [tried] using ends
        simpa [tried] using ih later

theorem search_ends : search test l ≠ none ↔ Covered (test · = some true) (test · = none) l := by
  induction l with
  | nil => simp [search]
  | cons c l ih =>
    rw [search,covered_cons]
    cases tried : test c with
    | none => simp
    | some b =>
      cases b with
      | true => simp
      | false => simpa using ih

end BermudaOS.Lib.Lookups
