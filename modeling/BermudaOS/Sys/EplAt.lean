import BermudaOS.Sys.Epl

/-! Nodes of an event protected list by their index, the last two functions of `sys/epl.c`. -/
namespace BermudaOS.Sys.Epl
open Lib.Chains

/-- The loop of `epl_node_at` for the last `n` values of `i`; it has no result where the code
follows `NULL`. The nodes are four bytes each, so `i` ends before it could overflow. -/
def nodeAtWalk (l : EpList) : Nat → Option Node → Option (Option Node)
  | 0,carriage => some carriage
  | _+1,none => none
  | n+1,some carriage => if l.next carriage = none then some none else nodeAtWalk l n (l.next carriage)

def eplNodeAt (list : EpList) (index : BitVec 16) : Option (Option Node) :=
  if index = 0 then some list.nodes else nodeAtWalk list index.toNat list.nodes

def eplDeleteNodeAt (list : EpList) (num : BitVec 16) : Option (EpList × Int) := do
  match ← eplNodeAt list num with
  | some node => eplDeleteNode list (some node)
  | none => return (list,-1)

/-- The access at an index is that to the sequence of the nodes. -/
structure Indexed (l : EpList) (xs : List Node) (index : BitVec 16) : Prop where
  node : eplNodeAt l index = some xs[index.toNat]?
  deleted : index.toNat < xs.length → ∃ w, eplDeleteNodeAt l index = some (w,0) ∧
    Chain w.next w.nodes (xs.eraseIdx index.toNat) ∧ w.listEntries = l.listEntries - 1 ∧
    ∀ y, y ∉ xs → w.next y = l.next y
  outside : xs.length ≤ index.toNat → eplDeleteNodeAt l index = some (l,-1)

variable {l : EpList} {x : Node} {p : Option Node} {xs : List Node} {index : BitVec 16}

theorem nodeAtWalk_chain (n : Nat) (chain : Chain l.next p (x::xs)) : nodeAtWalk l n p = some (x::xs)[n]? := by
  induction n generalizing p x xs with
  | zero =>
    obtain ⟨rfl,_⟩ := chain
    rfl
  | succ n ih =>
    obtain ⟨rfl,rest⟩ := chain
    cases xs with
    | nil =>
      have last : l.next x = none := rest
      rw [nodeAtWalk,if_pos last]
      rfl
    | cons y ys =>
      have onward : l.next x ≠ none := by
        rw [rest.1]
        simp
      rw [nodeAtWalk,if_neg onward,ih rest]
      rfl

theorem nodeAt_chain (chain : Chain l.next l.nodes xs) (guarded : xs ≠ [] ∨ index = 0) :
    eplNodeAt l index = some xs[index.toNat]? := by
  unfold eplNodeAt
  split
  · rename_i first
    rw [first,chain_head chain]
    exact congrArg some List.head?_eq_getElem?
  · rename_i later
    obtain ⟨x,ys,rfl⟩ := List.exists_cons_of_ne_nil (guarded.resolve_right later)
    exact nodeAtWalk_chain _ chain

/-- The first step of the loop follows the head of an empty list. -/
theorem nodeAt_empty (empty : l.nodes = none) (later : index ≠ 0) : eplNodeAt l index = none := by
  have positive : index.toNat ≠ 0 := fun zero => later (BitVec.eq_of_toNat_eq zero)
  obtain ⟨n,steps⟩ := Nat.exists_eq_add_one_of_ne_zero positive
  rw [eplNodeAt,if_neg later,steps,empty]
  rfl

theorem deleteNodeAt_node {node : Node} (found : eplNodeAt l index = some (some node)) :
    eplDeleteNodeAt l index = eplDeleteNode l (some node) := by
  rw [eplDeleteNodeAt,found]
  rfl

theorem deleteNodeAt_outside (found : eplNodeAt l index = some none) : eplDeleteNodeAt l index = some (l,-1) := by
  rw [eplDeleteNodeAt,found]
  rfl

/-- Nodes are found and deleted by their index, but where the list is empty and the index is
not 0: there `NULL` is followed. -/
theorem epl_at (l : EpList) (xs : List Node) (index : BitVec 16) (chain : Chain l.next l.nodes xs) :
    Indexed l xs index ↔ xs ≠ [] ∨ index = 0 := by
  constructor
  · intro indexed
    by_contra unguarded
    obtain ⟨empty,later⟩ := not_or.mp unguarded
    obtain rfl := Decidable.of_not_not empty
    have missing := nodeAt_empty chain later
    cases missing.symm.trans indexed.node
  · intro guarded
    have node := nodeAt_chain chain guarded
    refine ⟨node,fun inside => ?_,fun outside => ?_⟩
    · rw [List.getElem?_eq_getElem inside] at node
      have split : xs = xs.take index.toNat ++ xs[index.toNat]::xs.drop (index.toNat + 1) := by simp
      rw [deleteNodeAt_node node,List.eraseIdx_eq_take_drop_succ]
      rw [split] at chain
      obtain ⟨w,result,rest,entries,frame⟩ := deleteNode_chain chain
      rw [← split] at frame
      exact ⟨w,result,rest,entries,frame⟩
    · rw [List.getElem?_eq_none outside] at node
      exact deleteNodeAt_outside node

theorem first_nonnull : (0x100 : BitVec 16) ≠ 0 := by decide

def first : Node := ⟨0x100,first_nonnull⟩

theorem second_nonnull : (0x200 : BitVec 16) ≠ 0 := by decide

def second : Node := ⟨0x200,second_nonnull⟩

def pair : EpList := ⟨fun p => if p = first then some second else none,some first,2⟩

theorem pair_chain : Chain pair.next pair.nodes [first,second] := ⟨rfl,rfl,rfl⟩

theorem epl_at_second : Indexed pair [first,second] 1 := (epl_at pair [first,second] 1 pair_chain).mpr (.inl (by simp))

def emptyList : EpList := ⟨fun _ => none,none,0⟩

theorem epl_at_empty : Chain emptyList.next emptyList.nodes [] ∧ ¬ Indexed emptyList [] 1 ∧
    eplNodeAt emptyList 1 = none ∧ eplDeleteNodeAt emptyList 1 = none := by
  refine ⟨rfl,?_,rfl,rfl⟩
  intro indexed
  cases indexed.node

end BermudaOS.Sys.Epl
