import Mathlib.Algebra.GroupWithZero.Nat
import Mathlib.Data.List.Basic
import Mathlib.Data.List.Sort

/-! Ascending absolute keys stored as gaps: every entry keeps only its distance
from the entry before it, and the first its distance from a base. Inserting and
removing an entry compensate one neighbour; every other key stays what it was. -/
namespace BermudaOS.Lib.Gaps

variable {α : Type}

/-- The gaps read from `base` on add up to the listed keys. -/
def Encodes (gap : α → Nat) : Nat → List (α × Nat) → Prop
  | _,[] => True
  | base,(x,key)::rest => base + gap x = key ∧ Encodes gap key rest

/-- The base that the entries behind the listed ones are stored against. -/
def reach (base : Nat) (entries : List (α × Nat)) : Nat := (entries.getLast?.map Prod.snd).getD base

@[simp] theorem reach_nil (base : Nat) : reach base ([] : List (α × Nat)) = base := rfl

@[simp] theorem reach_cons (base : Nat) (entry : α × Nat) (rest : List (α × Nat)) :
    reach base (entry::rest) = reach entry.2 rest := by
  cases rest with
  | nil => rfl
  | cons next rest => simp [reach,List.getLast?_cons]

theorem encodes_append (gap : α → Nat) (base : Nat) (left right : List (α × Nat)) :
    Encodes gap base (left ++ right) ↔
      Encodes gap base left ∧ Encodes gap (reach base left) right := by
  induction left generalizing base with
  | nil => simp [Encodes]
  | cons entry left ih => simp only [List.cons_append,Encodes,ih,reach_cons,and_assoc]

theorem encodes_congr {gap other : α → Nat} {base : Nat} {entries : List (α × Nat)}
    (encodes : Encodes gap base entries) (same : ∀ e ∈ entries, other e.1 = gap e.1) :
    Encodes other base entries := by
  induction entries generalizing base with
  | nil => trivial
  | cons entry rest ih =>
    refine ⟨?_,ih encodes.2 (fun e member => same e (by simp [member]))⟩
    rw [same entry (by simp)]
    exact encodes.1

theorem encodes_base {gap : α → Nat} {base : Nat} {entries : List (α × Nat)}
    (encodes : Encodes gap base entries) : ∀ e ∈ entries, base ≤ e.2 := by
  induction entries generalizing base with
  | nil => simp
  | cons entry rest ih =>
    have first := encodes.1
    intro e member
    rcases List.mem_cons.mp member with rfl | later
    · omega
    · have behind := ih encodes.2 e later
      omega

theorem encodes_gap {gap : α → Nat} {base : Nat} {entries : List (α × Nat)}
    (encodes : Encodes gap base entries) : ∀ e ∈ entries, gap e.1 ≤ e.2 := by
  induction entries generalizing base with
  | nil => simp
  | cons entry rest ih =>
    have first := encodes.1
    exact List.forall_mem_cons.mpr ⟨by omega,ih encodes.2⟩

theorem encodes_exists (gap : α → Nat) (base : Nat) (names : List α) :
    ∃ entries, entries.map Prod.fst = names ∧ Encodes gap base entries := by
  induction names generalizing base with
  | nil => exact ⟨[],rfl,trivial⟩
  | cons x names ih =>
    obtain ⟨rest,same,encodes⟩ := ih (base + gap x)
    exact ⟨(x,base + gap x)::rest,by rw [List.map_cons,same],rfl,encodes⟩

theorem encodes_sorted {gap : α → Nat} {base : Nat} {entries : List (α × Nat)}
    (encodes : Encodes gap base entries) : entries.Pairwise (fun e f => e.2 ≤ f.2) := by
  induction entries generalizing base with
  | nil => exact List.Pairwise.nil
  | cons entry rest ih =>
    exact List.pairwise_cons.mpr ⟨encodes_base encodes.2,ih encodes.2⟩

theorem encodes_head {gap : α → Nat} {base : Nat} {entry : α × Nat} {entries : List (α × Nat)}
    (encodes : Encodes gap base (entry::entries)) : ∀ e ∈ entry::entries, entry.2 ≤ e.2 :=
  List.forall_mem_cons.mpr ⟨le_rfl,encodes_base encodes.2⟩

/-- The same gaps read from another base. -/
theorem encodes_move {gap : α → Nat} {base : Nat} {entries : List (α × Nat)} (n m : Nat)
    (encodes : Encodes gap (base + n) entries) :
    Encodes gap (base + m) (entries.map fun e => (e.1,e.2 - n + m)) := by
  induction entries generalizing base with
  | nil => trivial
  | cons entry rest ih =>
    obtain ⟨own,behind⟩ := encodes
    have key : base + m + gap entry.1 = entry.2 - n + m := by omega
    refine ⟨key,ih ?_⟩
    rw [show entry.2 - n + n = entry.2 by omega]
    exact behind

theorem encodes_shift {gap : α → Nat} {base : Nat} {entries : List (α × Nat)} (n : Nat)
    (encodes : Encodes gap (base + n) entries) :
    Encodes gap base (entries.map fun e => (e.1,e.2 - n)) := encodes_move n 0 encodes

/-- A key is its base plus the gaps up to and including its own. -/
theorem encodes_sum {gap : α → Nat} {base key : Nat} {x : α} {left right : List (α × Nat)}
    (encodes : Encodes gap base (left ++ (x,key)::right)) :
    key = base + ((left.map Prod.fst ++ [x]).map gap).sum := by
  induction left generalizing base with
  | nil =>
    have first := encodes.1
    simp only [List.map_nil,List.nil_append,List.map_cons,List.sum_cons,List.sum_nil]
    omega
  | cons entry left ih =>
    have first := encodes.1
    have rest := ih encodes.2
    simp only [List.map_cons,List.cons_append,List.sum_cons]
    omega

/-- The position of a new key: behind every entry that is not later. -/
def insertKey (entry : α × Nat) (entries : List (α × Nat)) : List (α × Nat) :=
  entries.orderedInsert (fun e f => e.2 < f.2) entry

theorem insertKey_split {entry : α × Nat} {before after : List (α × Nat)}
    (low : ∀ e ∈ before, e.2 ≤ entry.2) (high : ∀ e ∈ after, entry.2 < e.2) :
    insertKey entry (before ++ after) = before ++ entry::after := by
  induction before with
  | nil =>
    cases after with
    | nil => rfl
    | cons e after => exact if_pos (high e (by simp))
  | cons e before ih =>
    have first := low e (by simp)
    have rest := ih (fun f member => low f (by simp [member]))
    simp only [List.cons_append]
    rw [← rest]
    exact if_neg (Nat.not_lt.mpr first)

theorem insertKey_perm (entry : α × Nat) (entries : List (α × Nat)) :
    (insertKey entry entries).Perm (entry::entries) := List.perm_orderedInsert _ _ _

end BermudaOS.Lib.Gaps
