import Mathlib.Logic.Function.Basic
import Mathlib.Data.List.Basic

/-! Stacks that grow down, whose pointer names the free place below the last entry. -/
namespace BermudaOS.Lib.Stacks

variable {α β : Type}

/-- The memory once these have been pushed, the first of them at the place that the pointer names. -/
def pushed : List β → (Nat → β) → Nat → Nat → β
  | [],memory,_ => memory
  | b::bs,memory,sp => pushed bs (Function.update memory sp b) (sp - 1)

variable {bs cs : List β} {memory : Nat → β} {sp a i : Nat}

theorem pushed_append (bs cs : List β) (memory : Nat → β) (sp : Nat) :
    pushed (bs ++ cs) memory sp = pushed cs (pushed bs memory sp) (sp - bs.length) := by
  induction bs generalizing memory sp with
  | nil => rfl
  | cons b bs ih =>
    have place : sp - (bs.length + 1) = sp - 1 - bs.length := by omega
    rw [List.cons_append,pushed,ih,pushed,List.length_cons,place]

theorem pushed_outside (outside : sp < a ∨ a + bs.length ≤ sp) : pushed bs memory sp a = memory a := by
  induction bs generalizing memory sp with
  | nil => rfl
  | cons b bs ih =>
    rw [List.length_cons] at outside
    by_cases again : sp = 0
    · subst again
      rw [pushed,ih (by omega),Function.update_of_ne (by omega)]
    · rw [pushed,ih (by omega),Function.update_of_ne (by omega)]

theorem pushed_get (inside : i < bs.length) (room : bs.length ≤ sp + 1) : pushed bs memory sp (sp - i) = bs[i] := by
  induction bs generalizing memory sp i with
  | nil => simp at inside
  | cons b bs ih =>
    rw [List.length_cons] at inside room
    cases i with
    | zero =>
      by_cases last : bs = []
      · subst last
        exact Function.update_self ..
      · have more := List.length_pos_iff.mpr last
        rw [pushed,pushed_outside (by omega)]
        exact Function.update_self ..
    | succ i =>
      have place : sp - (i + 1) = sp - 1 - i := by omega
      rw [pushed,place,ih (by omega) (by omega)]
      rfl

variable [DecidableEq α] {rs : List α} {regs : α → β} {r : α}

/-- The registers once these have been popped. -/
def popped : List α → (α → β) → (Nat → β) → Nat → α → β
  | [],regs,_,_ => regs
  | r::rs,regs,memory,sp => popped rs (Function.update regs r (memory (sp + 1))) memory (sp + 1)

theorem popped_other (other : r ∉ rs) : popped rs regs memory sp r = regs r := by
  induction rs generalizing regs sp with
  | nil => rfl
  | cons first rs ih =>
    rw [popped,ih (List.not_mem_of_not_mem_cons other),Function.update_of_ne (List.ne_of_not_mem_cons other)]

theorem popped_get (distinct : rs.Nodup) (inside : i < rs.length) :
    popped rs regs memory sp rs[i] = memory (sp + 1 + i) := by
  induction rs generalizing regs sp i with
  | nil => simp at inside
  | cons first rs ih =>
    obtain ⟨fresh,distinct⟩ := List.nodup_cons.mp distinct
    cases i with
    | zero => exact (popped_other fresh).trans (Function.update_self ..)
    | succ i =>
      have place : sp + 1 + (i + 1) = sp + 1 + 1 + i := by omega
      rw [List.getElem_cons_succ,popped,ih distinct (by simpa using inside),place]

end BermudaOS.Lib.Stacks
