import BermudaOS.Clib.XorList

/-! The iteration of `lib/xorlist.c`. A hook has a state of its own and leaves the links of the
list alone; each call of it is written down. -/
namespace BermudaOS.Clib.XorList
open Lib.XorChains

inductive HookResult where
  | HOOK_DONE
  | HOOK_NOT_DONE
  deriving DecidableEq

def HookResult.code : HookResult → Int
  | .HOOK_DONE => 0
  | .HOOK_NOT_DONE => 1

abbrev Hook (σ : Type) := σ → Ptr → σ × HookResult

structure Visits (σ : Type) where
  calls : List Ptr
  state : σ

variable {σ : Type}

def Visits.call (v : Visits σ) (hook : Hook σ) (node : Ptr) : Visits σ × HookResult :=
  (⟨v.calls ++ [node],(hook v.state node).1⟩,(hook v.state node).2)

/-- The loop of `BermudaXorllIterateList`, with the last value of `prev`. -/
def iterateLoop (hook : Hook σ) (m : Memory) : Nat → Ptr → Ptr → Visits σ → Option (Ptr × Visits σ)
  | 0,_,_,_ => none
  | n+1,prev,carriage,v =>
    if carriage = NULL then some (prev,v)
    else
      let tmp := carriage
      let carriage := bermudaXorllGetNext m prev tmp
      if prev ≠ NULL then
        let (v,result) := v.call hook prev
        if result = .HOOK_DONE then some (prev,v) else iterateLoop hook m n tmp carriage v
      else iterateLoop hook m n tmp carriage v

/-- The result is `NULL_PTR` where there is no hook. -/
def bermudaXorllIterateList (fuel : Nat) (m : Memory) (prev head : Ptr) (hook : Option (Hook σ)) (v : Visits σ) :
    Option (Visits σ × Int) :=
  match hook with
  | none => some (v,1)
  | some hook => do
    let (prev,v) ← iterateLoop hook m fuel prev head v
    let (v,result) := v.call hook prev
    return (v,result.code)

/-- The nodes in their order, up to the first one for which the hook is done. -/
def inOrder (hook : Hook σ) : σ → List Ptr → List Ptr
  | _,[] => []
  | s,x::xs => if (hook s x).2 = .HOOK_DONE then [x] else x::inOrder hook (hook s x).1 xs

/-- The hook is done for none of the nodes, when it is called on them in their order. -/
def Onward (hook : Hook σ) : σ → List Ptr → Prop
  | _,[] => True
  | s,x::xs => (hook s x).2 ≠ .HOOK_DONE ∧ Onward hook (hook s x).1 xs

/-- The iteration ends and has called the hook once on each node that is due, in order. -/
def Visited (hook : Hook σ) (s : σ) (m : Memory) (xs : List Ptr) : Prop :=
  ∃ fuel v result, bermudaXorllIterateList fuel m NULL (xs.headD NULL) (some hook) ⟨[],s⟩ = some (v,result) ∧
    v.calls = inOrder hook s xs ∧ NULL ∉ v.calls ∧ v.calls.Nodup

variable {hook : Hook σ} {s : σ} {m : Memory} {p q x : Ptr} {xs : List Ptr} {v w : Visits σ} {fuel : Nat}

theorem inOrder_sublist (hook : Hook σ) (s : σ) (xs : List Ptr) : (inOrder hook s xs).Sublist xs := by
  induction xs generalizing s with
  | nil => exact .slnil
  | cons x xs ih =>
    unfold inOrder
    split
    · exact (List.nil_sublist xs).cons_cons x
    · exact (ih _).cons_cons x

/-- The nodes the hook is called on from the node `p` on, which is due next. -/
def made (hook : Hook σ) : σ → Ptr → List Ptr → List Ptr
  | _,p,[] => [p]
  | s,p,x::xs => if (hook s p).2 = .HOOK_DONE then [p,p] else p::made hook (hook s p).1 x xs

/-- A node for which the hook is done is called on again, unless it is the last. -/
theorem made_inOrder (hook : Hook σ) (s : σ) (p : Ptr) (xs : List Ptr) :
    made hook s p xs = inOrder hook s (p::xs) ↔ Onward hook s (p::xs).dropLast := by
  induction xs generalizing s p with
  | nil =>
    refine iff_of_true ?_ trivial
    unfold inOrder
    split <;> rfl
  | cons x xs ih =>
    rw [List.dropLast_cons_of_ne_nil (by simp)]
    unfold made inOrder Onward
    by_cases done : (hook s p).2 = .HOOK_DONE
    · rw [if_pos done,if_pos done]
      exact iff_of_false (by simp) fun onward => onward.1 done
    · rw [if_neg done,if_neg done,List.cons_inj_right,ih]
      exact (and_iff_right done).symm

theorem loop_step (encodes : Encodes m p (x::xs) NULL) (real : x ≠ NULL) (due : p ≠ NULL) :
    iterateLoop hook m (fuel + 1) p x v =
      if (hook v.state p).2 = .HOOK_DONE then some (p,(v.call hook p).1)
      else iterateLoop hook m fuel x (xs.headD NULL) (v.call hook p).1 := by
  rw [iterateLoop,if_neg real,if_pos due,getNext_encodes encodes real]
  rfl

theorem loop_ends (hook : Hook σ) (v : Visits σ) (encodes : Encodes m p xs NULL) (nonnull : NULL ∉ xs) (due : p ≠ NULL)
    (enough : xs.length < fuel) :
    ∃ r, iterateLoop hook m fuel p (xs.headD NULL) v = some r := by
  obtain ⟨fuel,rfl⟩ := Nat.exists_eq_add_one_of_ne_zero (Nat.ne_zero_of_lt enough)
  induction xs generalizing p v fuel with
  | nil => exact ⟨_,rfl⟩
  | cons x xs ih =>
    have real : x ≠ NULL := fun null => nonnull (by simp [null])
    obtain ⟨fuel,rfl⟩ := Nat.exists_eq_add_one_of_ne_zero (n := fuel) (by simp at enough; omega)
    rw [List.headD_cons,loop_step encodes real due]
    split
    · exact ⟨_,rfl⟩
    · exact ih _ encodes.2 (fun member => nonnull (List.mem_cons_of_mem x member)) real fuel (by simpa using enough)

theorem loop_made (encodes : Encodes m p xs NULL) (nonnull : NULL ∉ xs) (due : p ≠ NULL)
    (ends : iterateLoop hook m fuel p (xs.headD NULL) v = some (q,w)) :
    (w.call hook q).1.calls = v.calls ++ made hook v.state p xs := by
  induction xs generalizing p v fuel with
  | nil =>
    cases fuel with
    | zero => cases ends
    | succ fuel =>
      rw [iterateLoop,if_pos (by rfl)] at ends
      cases ends
      rfl
  | cons x xs ih =>
    have real : x ≠ NULL := fun null => nonnull (by simp [null])
    cases fuel with
    | zero => cases ends
    | succ fuel =>
      rw [List.headD_cons,loop_step encodes real due] at ends
      unfold made
      split at ends
      · rename_i done
        cases ends
        rw [if_pos done]
        simp [Visits.call]
      · rename_i onward
        have rest := ih encodes.2 (fun member => nonnull (List.mem_cons_of_mem x member)) real ends
        rw [rest,if_neg onward]
        simp [Visits.call]

theorem iterate_result (m : Memory) (head : Ptr) :
    bermudaXorllIterateList fuel m p head (some hook) v =
      (iterateLoop hook m fuel p head v).map fun r => ((r.2.call hook r.1).1,(r.2.call hook r.1).2.code) := by
  rw [bermudaXorllIterateList]
  cases iterateLoop hook m fuel p head v <;> rfl

/-- The first node is only stepped over. -/
theorem loop_first (encodes : Encodes m NULL (x::xs) NULL) (real : x ≠ NULL) :
    iterateLoop hook m (fuel + 1) NULL x v = iterateLoop hook m fuel x (xs.headD NULL) v := by
  have onward := getNext_encodes encodes real
  rw [iterateLoop,if_neg real]
  simp only [onward,ne_eq,not_true_eq_false,if_false]

theorem iterate_calls {result : Int} (listed : Listed m (x::xs))
    (ends : bermudaXorllIterateList fuel m NULL x (some hook) ⟨[],s⟩ = some (v,result)) :
    v.calls = made hook s x xs := by
  have real := listed_real listed (x := x) (by simp)
  rw [iterate_result] at ends
  obtain ⟨⟨q,w⟩,ends,called⟩ := Option.map_eq_some_iff.mp ends
  cases fuel with
  | zero => cases ends
  | succ fuel =>
    rw [loop_first listed.encodes real] at ends
    have calls := loop_made listed.encodes.2 (fun member => listed.nonnull (List.mem_cons_of_mem x member)) real ends
    rw [← (Prod.mk.inj called).1,calls]
    rfl

theorem iterate_ends (hook : Hook σ) (s : σ) (listed : Listed m (x::xs)) :
    ∃ fuel v result, bermudaXorllIterateList fuel m NULL x (some hook) ⟨[],s⟩ = some (v,result) := by
  have real := listed_real listed (x := x) (by simp)
  obtain ⟨r,ends⟩ := loop_ends hook ⟨[],s⟩ listed.encodes.2
    (fun member => listed.nonnull (List.mem_cons_of_mem x member)) real (Nat.lt_succ_self xs.length)
  refine ⟨xs.length + 2,(r.2.call hook r.1).1,(r.2.call hook r.1).2.code,?_⟩
  rw [iterate_result,loop_first listed.encodes real,ends]
  rfl

/-- The hook of an empty list is called on `NULL`. -/
theorem iterate_empty {result : Int}
    (ends : bermudaXorllIterateList fuel m NULL NULL (some hook) ⟨[],s⟩ = some (v,result)) : v.calls = [NULL] := by
  rw [iterate_result] at ends
  cases fuel with
  | zero => cases ends
  | succ fuel =>
    rw [iterateLoop,if_pos rfl] at ends
    cases ends
    rfl

/-- The hook is called once on each node that is due if there is a node and the hook is done for
none before the last. -/
theorem xorll_iterate (hook : Hook σ) (s : σ) (m : Memory) (xs : List Ptr) (listed : Listed m xs) :
    Visited hook s m xs ↔ xs ≠ [] ∧ Onward hook s xs.dropLast := by
  cases xs with
  | nil =>
    refine iff_of_false ?_ fun onward => onward.1 rfl
    rintro ⟨fuel,v,result,ends,_,nonnull,_⟩
    rw [iterate_empty ends] at nonnull
    simp at nonnull
  | cons x xs =>
    rw [← made_inOrder,and_iff_right (by simp)]
    constructor
    · rintro ⟨fuel,v,result,ends,calls,_⟩
      exact (iterate_calls listed ends).symm.trans calls
    · intro same
      obtain ⟨fuel,v,result,ends⟩ := iterate_ends hook s listed
      have calls := (iterate_calls listed ends).trans same
      have sublist := inOrder_sublist hook s (x::xs)
      refine ⟨fuel,v,result,ends,calls,?_,?_⟩
      · rw [calls]
        exact fun member => listed.nonnull (sublist.subset member)
      · rw [calls]
        exact listed.nodup.sublist sublist

def doneAt (node : Ptr) : Hook Unit := fun s p => (s,if p = node then .HOOK_DONE else .HOOK_NOT_DONE)

theorem xorll_iterate_last : Visited (doneAt 0x200) () (pair 0x100 0x200) [0x100,0x200] :=
  (xorll_iterate (doneAt 0x200) () (pair 0x100 0x200) [0x100,0x200] pair_listed).mpr ⟨by simp,by decide,trivial⟩

/-- A hook that is done for the first of two nodes is called on it twice; that of an empty list
is called on `NULL`. -/
theorem xorll_iterate_fails : ¬ Visited (doneAt 0x100) () (pair 0x100 0x200) [0x100,0x200] ∧
    bermudaXorllIterateList 3 (pair 0x100 0x200) NULL 0x100 (some (doneAt 0x100)) ⟨[],()⟩ = some (⟨[0x100,0x100],()⟩,0) ∧
    ¬ Visited (doneAt 0x100) () (pair 0x100 0x200) [] ∧
    bermudaXorllIterateList 1 (pair 0x100 0x200) NULL NULL (some (doneAt 0x100)) ⟨[],()⟩ = some (⟨[NULL],()⟩,1) := by
  refine ⟨?_,by rfl,?_,by rfl⟩
  · rintro ⟨fuel,v,result,ends,calls,_⟩
    cases (iterate_calls pair_listed ends).symm.trans calls
  · rintro ⟨fuel,v,result,ends,calls,_⟩
    cases (iterate_empty ends).symm.trans calls

end BermudaOS.Clib.XorList
