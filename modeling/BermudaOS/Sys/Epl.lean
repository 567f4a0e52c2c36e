import BermudaOS.Lib.Chains

/-! The event protected lists of `sys/epl.c`. A node is the address of its
`struct ep_list_node`; the link words of all nodes stand beside the list's own fields. -/
namespace BermudaOS.Sys.Epl
open Lib.Chains

/-- The address of a node, which is never `NULL`. -/
abbrev Node := NonNull

structure EpList where
  next : Node → Option Node
  nodes : Option Node
  listEntries : BitVec 16

inductive EpListAction where
  | EPL_APPEND
  | EPL_IN_FRONT
  /-- A number that the enumeration does not name. -/
  | other
  deriving DecidableEq

def EpList.setNext (l : EpList) (node : Node) (p : Option Node) : EpList :=
  {l with next := Function.update l.next node p}

def eplEntries (l : EpList) : BitVec 16 := l.listEntries

/-- The loop that appends `node`, from the node `car` on. -/
def appendWalk (node : Node) : Nat → EpList → Option Node → Int → Option (EpList × Int)
  | 0,_,_,_ => none
  | _+1,l,none,rc => some (l,rc)
  | n+1,l,some car,rc =>
    if l.next car = some car then some (l,rc)
    else if l.next car = none then some ((l.setNext car (some node)).setNext node none,0)
    else appendWalk node n l (l.next car) (-1)

def eplAddNode (list : EpList) (node : Node) (a : EpListAction) : Option (EpList × Int) :=
  let l := {list with listEntries := list.listEntries + 1}
  match list.nodes with
  | none => some (({l with nodes := some node}).setNext node none,0)
  | some head =>
    match a with
    | .EPL_APPEND => appendWalk node addressSpace l l.nodes 0
    | .EPL_IN_FRONT => some ({l.setNext node (some head) with nodes := some node},0)
    | .other => some (l,-1)

/-- The loop that looks for `node`, from the node `carriage` behind `prev` on. -/
def deleteWalk (node : Option Node) : Nat → EpList → Option Node → Node → Option (EpList × Int)
  | 0,_,_,_ => none
  | _+1,l,none,_ => some (l,-1)
  | n+1,l,some carriage,prev =>
    if l.next carriage = some carriage then some (l,-1)
    else if some carriage = node then
      let l := l.setNext prev (l.next carriage)
      let l := l.setNext carriage none
      some ({l with listEntries := l.listEntries - 1},0)
    else deleteWalk node n l (l.next carriage) carriage

def eplDeleteNode (list : EpList) (node : Option Node) : Option (EpList × Int) :=
  match list.nodes with
  | none => some (list,-1)
  | some head =>
    if some head = node then
      let l := {list with nodes := list.next head}
      let l := l.setNext head none
      some ({l with listEntries := l.listEntries - 1},0)
    else deleteWalk node addressSpace list list.nodes head

/-- The list is closed, holds these nodes and counts them. -/
structure Holds (l : EpList) (xs : List Node) : Prop where
  chain : Chain l.next l.nodes xs
  entries : (eplEntries l).toNat = xs.length

variable {l : EpList} {node x : Node} {p : Option Node} {xs before after : List Node} {fuel : Nat}

theorem holds_short (holds : Holds l xs) : xs.length < addressSpace := nonnull_length (chain_nodup holds.chain)

theorem entries_add (holds : Holds l xs) (fresh : node ∉ xs) : (l.listEntries + 1).toNat = xs.length + 1 := by
  have short := nonnull_length (List.nodup_cons.mpr ⟨fresh,chain_nodup holds.chain⟩)
  rw [BitVec.toNat_add,show l.listEntries.toNat = xs.length from holds.entries]
  exact Nat.mod_eq_of_lt short

theorem entries_delete (entries : l.listEntries.toNat = xs.length + 1) : (l.listEntries - 1).toNat = xs.length := by
  have one : (1 : BitVec 16).toNat = 1 := rfl
  have bound := l.listEntries.isLt
  rw [BitVec.toNat_sub,one]
  omega

theorem appendWalk_chain (node : Node) (rc : Int) (chain : Chain l.next p (before ++ [x])) (enough : before.length < fuel) :
    appendWalk node fuel l p rc = some ((l.setNext x (some node)).setNext node none,0) := by
  induction before generalizing p fuel rc with
  | nil =>
    obtain ⟨fuel,rfl⟩ := Nat.exists_eq_add_one_of_ne_zero (Nat.ne_zero_of_lt enough)
    have loose := chain_irrefl chain (x := x) (by simp)
    obtain ⟨rfl,last⟩ := chain
    have last : l.next x = none := last
    rw [appendWalk,if_neg loose,if_pos last]
  | cons y ys ih =>
    obtain ⟨fuel,rfl⟩ := Nat.exists_eq_add_one_of_ne_zero (Nat.ne_zero_of_lt enough)
    have loose := chain_irrefl chain (x := y) (by simp)
    obtain ⟨rfl,rest⟩ := chain
    have onward : l.next y ≠ none := by
      rw [chain_head rest]
      simp
    rw [appendWalk,if_neg loose,if_neg onward]
    exact ih (-1) rest (by simpa using enough)

theorem deleteWalk_absent {prev : Node} {sought : Option Node} (chain : Chain l.next p xs)
    (absent : ∀ x ∈ xs, some x ≠ sought) (enough : xs.length < fuel) : deleteWalk sought fuel l p prev = some (l,-1) := by
  induction xs generalizing p fuel prev with
  | nil =>
    obtain ⟨fuel,rfl⟩ := Nat.exists_eq_add_one_of_ne_zero (Nat.ne_zero_of_lt enough)
    obtain rfl : p = none := chain
    rfl
  | cons y ys ih =>
    obtain ⟨fuel,rfl⟩ := Nat.exists_eq_add_one_of_ne_zero (Nat.ne_zero_of_lt enough)
    have loose := chain_irrefl chain (x := y) (by simp)
    obtain ⟨rfl,rest⟩ := chain
    rw [deleteWalk,if_neg loose,if_neg (absent y (by simp))]
    exact ih rest (fun x member => absent x (by simp [member])) (by simpa using enough)

theorem deleteWalk_found (prev : Node) (chain : Chain l.next p (before ++ x::after)) (enough : before.length < fuel) :
    deleteWalk (some x) fuel l p prev =
      some ({(l.setNext (before.getLastD prev) (l.next x)).setNext x none with listEntries := l.listEntries - 1},0) := by
  induction before generalizing p fuel prev with
  | nil =>
    obtain ⟨fuel,rfl⟩ := Nat.exists_eq_add_one_of_ne_zero (Nat.ne_zero_of_lt enough)
    have loose := chain_irrefl chain (x := x) (by simp)
    obtain ⟨rfl,rest⟩ := chain
    rw [deleteWalk,if_neg loose,if_pos rfl]
    rfl
  | cons y ys ih =>
    obtain ⟨fuel,rfl⟩ := Nat.exists_eq_add_one_of_ne_zero (Nat.ne_zero_of_lt enough)
    have loose := chain_irrefl chain (x := y) (by simp)
    have other : y ≠ x := by
      rintro rfl
      simpa using (List.nodup_cons.mp (chain_nodup chain)).1
    obtain ⟨rfl,rest⟩ := chain
    rw [deleteWalk,if_neg loose,if_neg (by simpa using other),List.getLastD_cons]
    exact ih y rest (by simpa using enough)

theorem addNode_start (a : EpListAction) (start : l.nodes = none) : eplAddNode l node a =
    some (({l with nodes := some node,listEntries := l.listEntries + 1} : EpList).setNext node none,0) := by
  simp only [eplAddNode,start]

theorem addNode_empty (a : EpListAction) (holds : Holds l []) :
    ∃ w, eplAddNode l node a = some (w,0) ∧ Holds w [node] := by
  have start : l.nodes = none := chain_head holds.chain
  refine ⟨_,addNode_start a start,⟨rfl,?_⟩,entries_add holds (List.not_mem_nil (a := node))⟩
  exact Function.update_self ..

theorem addNode_walk {head : Node} (start : l.nodes = some head) : eplAddNode l node .EPL_APPEND =
    appendWalk node addressSpace {l with listEntries := l.listEntries + 1} (some head) 0 := by
  simp only [eplAddNode,start]

theorem addNode_append (holds : Holds l xs) (fresh : node ∉ xs) :
    ∃ w, eplAddNode l node .EPL_APPEND = some (w,0) ∧ Holds w (xs ++ [node]) := by
  obtain rfl | ⟨before,x,rfl⟩ := List.eq_nil_or_concat' xs
  · exact addNode_empty .EPL_APPEND holds
  · have short := holds_short holds
    have chain := holds.chain
    obtain ⟨head,start⟩ : ∃ head, l.nodes = some head := by
      rw [chain_head chain]
      exact ⟨_,List.head?_eq_some_head (by simp)⟩
    obtain ⟨outside,distinct⟩ : node ∉ before ∧ node ≠ x := by simpa using fresh
    have single : x ∉ before := by
      have apart := (List.nodup_append.mp (chain_nodup chain)).2.2
      exact fun member => apart x member x (by simp) rfl
    have last : l.next x = none := by
      obtain ⟨r,_,_,ends⟩ := (seg_append ..).mp chain
      exact ends
    rw [start] at chain
    have walk := appendWalk_chain node 0 (l := {l with listEntries := l.listEntries + 1})
      chain (show before.length < addressSpace by simp at short; omega)
    refine ⟨_,(addNode_walk start).trans walk,?_,?_⟩
    · rw [List.append_assoc]
      apply seg_link_behind holds.chain
      · exact (Function.update_of_ne distinct.symm ..).trans (Function.update_self ..)
      · exact (Function.update_self ..).trans last.symm
      · intro y member
        rw [List.append_nil] at member
        exact (update_outside outside y member).trans (update_outside single y member)
    · exact (entries_add holds fresh).trans (by simp)

theorem addNode_front (holds : Holds l xs) (fresh : node ∉ xs) :
    ∃ w, eplAddNode l node .EPL_IN_FRONT = some (w,0) ∧ Holds w (node::xs) := by
  cases xs with
  | nil => exact addNode_empty .EPL_IN_FRONT holds
  | cons x xs =>
    have start : l.nodes = some x := chain_head holds.chain
    have result : eplAddNode l node .EPL_IN_FRONT = some ({({l with listEntries := l.listEntries + 1} : EpList).setNext
        node (some x) with nodes := some node},0) := by
      simp only [eplAddNode,start]
    refine ⟨_,result,?_,entries_add holds fresh⟩
    apply seg_link_front holds.chain
    · exact (Function.update_self ..).trans start.symm
    · exact update_outside fresh

theorem deleteNode_walk {head : Node} {sought : Option Node} (start : l.nodes = some head) (other : some head ≠ sought) :
    eplDeleteNode l sought = deleteWalk sought addressSpace l (some head) head := by
  simp only [eplDeleteNode,start,other,if_false]

theorem deleteNode_absent {sought : Option Node} (holds : Holds l xs) (absent : ∀ x ∈ xs, some x ≠ sought) :
    eplDeleteNode l sought = some (l,-1) := by
  have short := holds_short holds
  have chain := holds.chain
  cases xs with
  | nil =>
    have start : l.nodes = none := chain_head chain
    simp only [eplDeleteNode,start]
  | cons x xs =>
    have start : l.nodes = some x := chain_head chain
    rw [start] at chain
    rw [deleteNode_walk start (absent x (by simp))]
    exact deleteWalk_absent chain absent short

/-- The deletion of a node from a closed list, whatever the list has counted. -/
theorem deleteNode_chain (chain : Chain l.next l.nodes (before ++ x::after)) :
    ∃ w, eplDeleteNode l (some x) = some (w,0) ∧ Chain w.next w.nodes (before ++ after) ∧
      w.listEntries = l.listEntries - 1 ∧ ∀ y, y ∉ before ++ x::after → w.next y = l.next y := by
  have short := nonnull_length (chain_nodup chain)
  have apart := List.nodup_append.mp (chain_nodup chain)
  have outside := (List.nodup_cons.mp apart.2.1).1
  obtain rfl | ⟨front,z,rfl⟩ := List.eq_nil_or_concat' before
  · have start : l.nodes = some x := chain_head chain
    have result : eplDeleteNode l (some x) = some ({({l with nodes := l.next x} : EpList).setNext x none with
        listEntries := l.listEntries - 1},0) := by
      simp only [eplDeleteNode,start,if_true]
      rfl
    refine ⟨_,result,seg_congr chain.2 (update_outside outside),rfl,fun y foreign => ?_⟩
    exact Function.update_of_ne (fun same => foreign (by simp [same])) ..
  · obtain ⟨head,start⟩ : ∃ head, l.nodes = some head := by
      rw [chain_head chain]
      exact ⟨_,List.head?_eq_some_head (by simp)⟩
    have first : head ∈ front ++ [z] := by
      have top := start.symm.trans (chain_head chain)
      rw [List.head?_append_of_ne_nil _ (by simp)] at top
      exact List.mem_of_mem_head? top.symm
    have other : some head ≠ some x := fun equal => apart.2.2 head first x (by simp) (Option.some.inj equal)
    have distinct : z ≠ x := apart.2.2 z (by simp) x (by simp)
    have single : z ∉ front := by
      have order := (List.nodup_append.mp apart.1).2.2
      exact fun member => order z member z (by simp) rfl
    have away : x ∉ front := fun member => apart.2.2 x (by simp [member]) x (by simp) rfl
    have beyond : z ∉ after := fun member => apart.2.2 z (by simp) z (by simp [member]) rfl
    have whole := chain
    rw [start] at chain
    have walk := deleteWalk_found head chain (show (front ++ [z]).length < addressSpace by
      rw [addressSpace]
      simp only [List.length_append,List.length_cons] at short ⊢
      omega)
    rw [List.getLastD_concat] at walk
    refine ⟨_,(deleteNode_walk start other).trans walk,?_,rfl,fun y foreign => ?_⟩
    · rw [List.append_assoc] at whole ⊢
      apply seg_drop_behind whole
      · exact (Function.update_of_ne distinct ..).trans (Function.update_self ..)
      · intro y member
        have inner : x ∉ front ++ after := by simp [away,outside]
        have outer : z ∉ front ++ after := by simp [single,beyond]
        exact (update_outside inner y member).trans (update_outside outer y member)
    · have own : y ≠ x := fun same => foreign (by simp [same])
      have front : y ≠ z := fun same => foreign (by simp [same])
      exact (Function.update_of_ne own ..).trans (Function.update_of_ne front ..)

theorem deleteNode_found (holds : Holds l (before ++ x::after)) :
    ∃ w, eplDeleteNode l (some x) = some (w,0) ∧ Holds w (before ++ after) := by
  obtain ⟨w,result,chain,entries,_⟩ := deleteNode_chain holds.chain
  refine ⟨w,result,chain,?_⟩
  rw [eplEntries,entries]
  apply entries_delete
  rw [show l.listEntries.toNat = _ from holds.entries]
  simp
  omega

inductive Call where
  | append (node : Node)
  | inFront (node : Node)
  | delete (node : Option Node)

def Call.perform (l : EpList) : Call → Option (EpList × Int)
  | .append node => eplAddNode l node .EPL_APPEND
  | .inFront node => eplAddNode l node .EPL_IN_FRONT
  | .delete node => eplDeleteNode l node

/-- What a call makes of a sequence of nodes, and what it returns. -/
def Call.outcome (xs : List Node) : Call → List Node × Int
  | .append node => (xs ++ [node],0)
  | .inFront node => (node::xs,0)
  | .delete none => (xs,-1)
  | .delete (some node) => if node ∈ xs then (xs.erase node,0) else (xs,-1)

/-- A node that is added is not in the list. -/
def Call.Fresh (xs : List Node) : Call → Prop
  | .append node => node ∉ xs
  | .inFront node => node ∉ xs
  | .delete _ => True

def run : EpList → List Call → Option (EpList × List Int)
  | l,[] => some (l,[])
  | l,call::calls => do
    let (l,rc) ← call.perform l
    let (l,rcs) ← run l calls
    return (l,rc::rcs)

def outcomes : List Node → List Call → List Node × List Int
  | xs,[] => (xs,[])
  | xs,call::calls =>
    let rest := outcomes (call.outcome xs).1 calls
    (rest.1,(call.outcome xs).2::rest.2)

def AllFresh : List Node → List Call → Prop
  | _,[] => True
  | xs,call::calls => call.Fresh xs ∧ AllFresh (call.outcome xs).1 calls

theorem perform_holds {call : Call} (holds : Holds l xs) (fresh : call.Fresh xs) :
    ∃ w, call.perform l = some (w,(call.outcome xs).2) ∧ Holds w (call.outcome xs).1 := by
  cases call with
  | append node => exact addNode_append holds fresh
  | inFront node => exact addNode_front holds fresh
  | delete sought =>
    cases sought with
    | none => exact ⟨l,deleteNode_absent holds (by simp),holds⟩
    | some node =>
      simp only [Call.perform,Call.outcome]
      split
      · rename_i member
        obtain ⟨before,after,rfl⟩ := List.append_of_mem member
        have apart := (List.nodup_append.mp (chain_nodup holds.chain)).2.2
        rw [List.erase_append_right _ (fun inside => apart node inside node (by simp) rfl),List.erase_cons_head]
        exact deleteNode_found holds
      · rename_i absent
        refine ⟨l,deleteNode_absent holds ?_,holds⟩
        rintro x member equal
        exact absent (Option.some.inj equal ▸ member)

theorem run_holds {calls : List Call} (holds : Holds l xs) (fresh : AllFresh xs calls) :
    ∃ w, run l calls = some (w,(outcomes xs calls).2) ∧ Holds w (outcomes xs calls).1 := by
  induction calls generalizing l xs with
  | nil => exact ⟨l,rfl,holds⟩
  | cons call calls ih =>
    obtain ⟨w,result,kept⟩ := perform_holds holds fresh.1
    obtain ⟨v,rest,last⟩ := ih kept fresh.2
    refine ⟨v,?_,last⟩
    simp only [run,result,rest,outcomes,bind,Option.bind]
    rfl

/-- The calls on an empty list are those on a sequence of nodes, and a node that is not
in the list is not deleted. -/
theorem epl_sequence (next : Node → Option Node) (calls : List Call) (fresh : AllFresh [] calls) :
    ∃ l, run ⟨next,none,0⟩ calls = some (l,(outcomes [] calls).2) ∧ Holds l (outcomes [] calls).1 ∧
      ∀ sought, (∀ x ∈ (outcomes [] calls).1, some x ≠ sought) → eplDeleteNode l sought = some (l,-1) := by
  obtain ⟨l,result,holds⟩ := run_holds (⟨rfl,rfl⟩ : Holds ⟨next,none,0⟩ []) fresh
  exact ⟨l,result,holds,fun sought absent => deleteNode_absent holds absent⟩

/-- Two nodes come in and the first of them goes out. -/
theorem epl_sequence_two : ∃ l, run ⟨fun _ => none,none,0⟩
      [.append ⟨0x100,by decide⟩,.inFront ⟨0x200,by decide⟩,.delete (some ⟨0x100,by decide⟩)] = some (l,[0,0,0]) ∧
    Holds l [⟨0x200,by decide⟩] := by
  obtain ⟨l,result,holds,_⟩ := epl_sequence (fun _ => none)
    [.append ⟨0x100,by decide⟩,.inFront ⟨0x200,by decide⟩,.delete (some ⟨0x100,by decide⟩)]
    ⟨List.not_mem_nil,by simp [Call.Fresh,Call.outcome],trivial,trivial⟩
  exact ⟨l,result,holds⟩

end BermudaOS.Sys.Epl
