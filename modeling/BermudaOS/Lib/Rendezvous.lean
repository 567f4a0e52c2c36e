import Mathlib.Logic.Basic

/-! Two parties that work by themselves, one step at most, and go on together only when neither has work
left. The order in which they work does not matter: every run stays beside the run of whole rounds, in
which both do their work and then meet. -/
namespace BermudaOS.Lib.Rendezvous

structure Parties (α β γ : Type) where
  left : α → Option α
  right : β → Option β
  /-- What the two do together, with what they share. -/
  meet : α → β → γ → Option (α × β × γ)

variable {α β γ : Type}

/-- Work is done once. -/
structure Parties.Brief (P : Parties α β γ) : Prop where
  left : ∀ a done, P.left a = some done → P.left done = none
  right : ∀ b done, P.right b = some done → P.right done = none

inductive Step (P : Parties α β γ) : α × β × γ → α × β × γ → Prop
  | left {a done : α} {b : β} {c : γ} (work : P.left a = some done) : Step P (a,b,c) (done,b,c)
  | right {a : α} {b done : β} {c : γ} (work : P.right b = some done) : Step P (a,b,c) (a,done,c)
  | meet {a : α} {b : β} {c : γ} {next : α × β × γ} (leftDone : P.left a = none) (rightDone : P.right b = none)
      (met : P.meet a b c = some next) : Step P (a,b,c) next

inductive Run (P : Parties α β γ) (start : α × β × γ) : Nat → α × β × γ → Prop
  | start : Run P start 0 start
  | step {n : Nat} {s t : α × β × γ} (run : Run P start n s) (step : Step P s t) : Run P start (n + 1) t

def settled (work : α → Option α) (a : α) : α := (work a).getD a

def Parties.settle (P : Parties α β γ) (s : α × β × γ) : α × β × γ := (settled P.left s.1,settled P.right s.2.1,s.2.2)

/-- Both work, then they meet. -/
def Parties.round (P : Parties α β γ) (s : α × β × γ) : Option (α × β × γ) :=
  P.meet (settled P.left s.1) (settled P.right s.2.1) s.2.2

/-- The state of `s` after some of the work that is due, which took `moves` steps. -/
structure Beside (P : Parties α β γ) (s t : α × β × γ) (moves : Nat) : Prop where
  left : t.1 = s.1 ∨ t.1 = settled P.left s.1
  right : t.2.1 = s.2.1 ∨ t.2.1 = settled P.right s.2.1
  shared : t.2.2 = s.2.2
  count : moves + (if (P.left t.1).isSome then 1 else 0) + (if (P.right t.2.1).isSome then 1 else 0) ≤ 2

/-- Whole rounds, as far as there is a meeting. -/
inductive Rounds (P : Parties α β γ) : Nat → α × β × γ → α × β × γ → Prop
  | none (s : α × β × γ) : Rounds P 0 s s
  | round {n : Nat} {s t u : α × β × γ} (first : P.round s = some t) (later : Rounds P n t u) : Rounds P (n + 1) s u

variable {P : Parties α β γ} {s t u start : α × β × γ} {n k : Nat}

theorem settled_of_work {work : α → Option α} {a done : α} (made : work a = some done) : settled work a = done := by
  rw [settled,made]
  rfl

theorem settled_of_none {work : α → Option α} {a : α} (idle : work a = none) : settled work a = a := by
  rw [settled,idle]
  rfl

theorem settled_idle {work : α → Option α} (brief : ∀ a done, work a = some done → work done = none) (a : α) :
    work (settled work a) = none := by
  cases made : work a with
  | none => rwa [settled_of_none made]
  | some done =>
    rw [settled_of_work made]
    exact brief a done made

theorem Rounds.snoc (rounds : Rounds P n s t) (last : P.round t = some u) : Rounds P (n + 1) s u := by
  induction rounds with
  | none => exact .round last (.none u)
  | round first _ ih => exact .round first (ih last)

theorem Rounds.append (first : Rounds P n s t) (second : Rounds P k t u) : Rounds P (n + k) s u := by
  induction first with
  | none => simpa using second
  | @round n s t' t first _ ih =>
    have whole := Rounds.round first (ih second)
    rwa [Nat.succ_add]

theorem beside_start (s : α × β × γ) : Beside P s s 0 := by
  refine ⟨.inl rfl,.inl rfl,rfl,?_⟩
  split <;> split <;> omega

theorem beside_left {a done : α} {b : β} {c : γ} {moves : Nat} (brief : P.Brief) (beside : Beside P s (a,b,c) moves)
    (work : P.left a = some done) : Beside P s (done,b,c) (moves + 1) := by
  have due : a = s.1 := by
    obtain same | same := beside.left
    · exact same
    · rw [show a = settled P.left s.1 from same,settled_idle brief.left] at work
      cases work
  have made : done = settled P.left s.1 := by rw [← due,settled_of_work work]
  have count := beside.count
  have idle := brief.left a done work
  simp only [work,Option.isSome_some,if_true] at count
  refine ⟨.inr made,beside.right,beside.shared,?_⟩
  simp only [idle,Option.isSome_none,Bool.false_eq_true,if_false]
  omega

theorem beside_right {a : α} {b done : β} {c : γ} {moves : Nat} (brief : P.Brief) (beside : Beside P s (a,b,c) moves)
    (work : P.right b = some done) : Beside P s (a,done,c) (moves + 1) := by
  have due : b = s.2.1 := by
    obtain same | same := beside.right
    · exact same
    · rw [show b = settled P.right s.2.1 from same,settled_idle brief.right] at work
      cases work
  have made : done = settled P.right s.2.1 := by rw [← due,settled_of_work work]
  have count := beside.count
  have idle := brief.right b done work
  simp only [work,Option.isSome_some,if_true] at count
  refine ⟨beside.left,.inr made,beside.shared,?_⟩
  simp only [idle,Option.isSome_none,Bool.false_eq_true,if_false]
  omega

/-- Where no work is left, it has all been done. -/
theorem beside_idle {moves : Nat} (beside : Beside P s t moves) (left : P.left t.1 = none) (right : P.right t.2.1 = none) :
    t = P.settle s := by
  have first : t.1 = settled P.left s.1 := by
    obtain same | same := beside.left
    · rw [same] at left
      rw [same,settled_of_none left]
    · exact same
  have second : t.2.1 = settled P.right s.2.1 := by
    obtain same | same := beside.right
    · rw [same] at right
      rw [same,settled_of_none right]
    · exact same
  exact Prod.ext first (Prod.ext second beside.shared)

/-- Every run is beside the run of whole rounds. -/
theorem run_beside (brief : P.Brief) (run : Run P start n t) :
    ∃ k s moves, Rounds P k start s ∧ Beside P s t moves ∧ n ≤ 3 * k + moves := by
  induction run with
  | start => exact ⟨0,start,0,.none start,beside_start start,Nat.le_refl _⟩
  | @step _ _ next _ step ih =>
    obtain ⟨k,s,moves,rounds,beside,count⟩ := ih
    cases step with
    | left work => exact ⟨k,s,moves + 1,rounds,beside_left brief beside work,by omega⟩
    | right work => exact ⟨k,s,moves + 1,rounds,beside_right brief beside work,by omega⟩
    | meet leftDone rightDone met =>
      have whole := beside_idle beside leftDone rightDone
      have round : P.round s = some next := by
        rw [← met]
        exact congrArg (fun u : α × β × γ => P.meet u.1 u.2.1 u.2.2) whole.symm
      have few := beside.count
      exact ⟨k + 1,next,0,rounds.snoc round,beside_start next,by omega⟩

/-- Rounds that cannot go on have all others before them. -/
theorem rounds_before (rounds : Rounds P k start s) (whole : Rounds P n start t) (last : P.round t = none) :
    k ≤ n ∧ Rounds P (n - k) s t := by
  induction rounds generalizing n with
  | none => exact ⟨Nat.zero_le n,whole⟩
  | @round k start u s first _ ih =>
    cases whole with
    | none => rw [last] at first; cases first
    | @round n _ v _ again later =>
      obtain rfl : v = u := Option.some.inj (again.symm.trans first)
      obtain ⟨fewer,rest⟩ := ih later
      refine ⟨Nat.succ_le_succ fewer,?_⟩
      rwa [Nat.succ_sub_succ]

/-- Where the rounds end, every run ends: it is not longer than the rounds, and there is one state in which no
step is possible. -/
theorem run_ends (brief : P.Brief) (rounds : Rounds P k start s) (last : P.round s = none) (run : Run P start n t) :
    n ≤ 3 * k + 2 ∧ ((∀ u, ¬ Step P t u) → t = P.settle s) := by
  obtain ⟨j,r,moves,reached,beside,count⟩ := run_beside brief run
  obtain ⟨fewer,rest⟩ := rounds_before reached rounds last
  have few := beside.count
  refine ⟨by omega,fun stuck => ?_⟩
  have left : P.left t.1 = none := by
    cases work : P.left t.1 with
    | none => rfl
    | some done => exact absurd (Step.left work) (stuck _)
  have right : P.right t.2.1 = none := by
    cases work : P.right t.2.1 with
    | none => rfl
    | some done => exact absurd (Step.right work) (stuck _)
  have whole := beside_idle beside left right
  generalize k - j = more at rest
  cases rest with
  | none => exact whole
  | @round _ _ v _ first _ =>
    have met : P.meet t.1 t.2.1 t.2.2 = some v := by
      rw [← first]
      exact congrArg (fun u : α × β × γ => P.meet u.1 u.2.1 u.2.2) whole
    exact absurd (Step.meet left right met) (stuck v)

end BermudaOS.Lib.Rendezvous
