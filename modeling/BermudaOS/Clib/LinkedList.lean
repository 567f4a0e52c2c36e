import BermudaOS.Lib.Chains

/-! The singly linked lists of `lib/list.c`, which a caller holds by the address of its
head pointer. That address is a slot: the caller's variable or the link of a node. -/
namespace BermudaOS.Clib.LinkedList
open Lib.Chains

/-- The address of a node, which is never `NULL`. -/
abbrev Node := NonNull

structure Lists where
  next : Node → Option Node
  head : Option Node

inductive Slot where
  | head
  | next (node : Node)

def Lists.read (l : Lists) : Slot → Option Node
  | .head => l.head
  | .next node => l.next node

def Lists.write (l : Lists) (slot : Slot) (p : Option Node) : Lists :=
  match slot with
  | .head => {l with head := p}
  | .next node => {l with next := Function.update l.next node p}

inductive Location where
  | LINKEDLIST_HEAD
  | LINKEDLIST_TAIL
  /-- A number that the enumeration does not name. -/
  | other
  deriving DecidableEq

/-- The loop that runs to the end of the list. -/
def tailWalk (l : Lists) : Nat → Slot → Option Node → Option (Slot × Option Node)
  | 0,_,_ => none
  | _+1,headpp,none => some (headpp,none)
  | n+1,_,some listp => tailWalk l n (.next listp) (l.next listp)

def linkedlistAddNode (l : Lists) (node : Node) (location : Location) : Option (Lists × Int) :=
  let listp := l.read .head
  match location with
  | .LINKEDLIST_HEAD => some (l.write (.next node) listp,0)
  | .LINKEDLIST_TAIL => do
    let (headpp,listp) ← tailWalk l addressSpace .head listp
    let l := l.write (.next node) listp
    return (l.write headpp (some node),0)
  | .other => some (l,-1)

/-- The loop of `linkedlist_delete_node_at`, whose counter keeps the value `i`. -/
def deleteAtWalk (index i : Nat) : Nat → Lists → Option Node → Option (Lists × Int)
  | 0,_,_ => none
  | _+1,l,none => some (l,-1)
  | n+1,l,some listp =>
    if index = i then
      let l := l.write .head (l.next listp)
      some (l.write (.next listp) none,0)
    else deleteAtWalk index i n l (l.next listp)

def linkedlistDeleteNodeAt (l : Lists) (index : Nat) : Option (Lists × Int) :=
  deleteAtWalk index 0 addressSpace l (l.read .head)

/-- The loop of `linkedlist_delete_node`. -/
def deleteWalk (node : Node) : Nat → Lists → Option Node → Option (Lists × Int)
  | 0,_,_ => none
  | _+1,l,none => some (l,0)
  | n+1,l,some listp =>
    if listp = node then
      let l := l.write .head (l.next node)
      some (l.write (.next node) none,-1)
    else deleteWalk node n l (l.next listp)

def linkedlistDeleteNode (l : Lists) (node : Node) : Option (Lists × Int) :=
  deleteWalk node addressSpace l (l.read .head)

inductive Call where
  | addHead (node : Node)
  | addTail (node : Node)
  | deleteNode (node : Node)
  | deleteNodeAt (index : Nat)

/-- A deletion leaves these nodes and returns 0; without a node to delete it returns -1 and changes nothing. -/
def Removes (l : Lists) (result : Option (Lists × Int)) : Option (List Node) → Prop
  | some left => ∃ w, result = some (w,0) ∧ Chain w.next w.head left
  | none => result = some (l,-1)

/-- What a call is to do to the list of the nodes `xs`. -/
def Call.Meets (l : Lists) (xs : List Node) : Call → Prop
  | .addHead node => ∃ w rc, linkedlistAddNode l node .LINKEDLIST_HEAD = some (w,rc) ∧ Chain w.next w.head (node::xs)
  | .addTail node => ∃ w rc, linkedlistAddNode l node .LINKEDLIST_TAIL = some (w,rc) ∧ Chain w.next w.head (xs ++ [node])
  | .deleteNode node => Removes l (linkedlistDeleteNode l node) (if node ∈ xs then some (xs.erase node) else none)
  | .deleteNodeAt index =>
    Removes l (linkedlistDeleteNodeAt l index) (if index < xs.length then some (xs.eraseIdx index) else none)

/-- A node that is added is not in the list. -/
def Call.Fresh (xs : List Node) : Call → Prop
  | .addHead node => node ∉ xs
  | .addTail node => node ∉ xs
  | .deleteNode _ => True
  | .deleteNodeAt _ => True

/-- The calls that do what they are to do. -/
def Call.Right (xs : List Node) : Call → Prop
  | .addHead _ => False
  | .addTail _ => True
  | .deleteNode _ => False
  | .deleteNodeAt index => index = 0 ∨ xs.length ≤ index

variable {l : Lists} {node x : Node} {p : Option Node} {xs before after : List Node} {fuel index : Nat} {slot : Slot}

theorem chain_short (chain : Chain l.next p xs) : xs.length < addressSpace := nonnull_length (chain_nodup chain)

theorem tailWalk_chain (slot : Slot) (chain : Chain l.next p xs) (enough : xs.length < fuel) :
    tailWalk l fuel slot p = some (xs.getLast?.elim slot Slot.next,none) := by
  induction xs generalizing p fuel slot with
  | nil =>
    obtain ⟨fuel,rfl⟩ := Nat.exists_eq_add_one_of_ne_zero (Nat.ne_zero_of_lt enough)
    obtain rfl : p = none := chain
    rfl
  | cons y ys ih =>
    obtain ⟨fuel,rfl⟩ := Nat.exists_eq_add_one_of_ne_zero (Nat.ne_zero_of_lt enough)
    obtain ⟨rfl,rest⟩ := chain
    rw [tailWalk,ih (.next y) rest (by simpa using enough)]
    cases ys with
    | nil => rfl
    | cons z zs => simp [List.getLast?_cons]

theorem deleteAtWalk_later {i : Nat} (chain : Chain l.next p xs) (later : index ≠ i) (enough : xs.length < fuel) :
    deleteAtWalk index i fuel l p = some (l,-1) := by
  induction xs generalizing p fuel with
  | nil =>
    obtain ⟨fuel,rfl⟩ := Nat.exists_eq_add_one_of_ne_zero (Nat.ne_zero_of_lt enough)
    obtain rfl : p = none := chain
    rfl
  | cons y ys ih =>
    obtain ⟨fuel,rfl⟩ := Nat.exists_eq_add_one_of_ne_zero (Nat.ne_zero_of_lt enough)
    obtain ⟨rfl,rest⟩ := chain
    rw [deleteAtWalk,if_neg later]
    exact ih rest (by simpa using enough)

/-- `linkedlist_delete_node` returns 0 for a node that is not there, and -1 for one that is. -/
theorem deleteWalk_chain (node : Node) (chain : Chain l.next p xs) (enough : xs.length < fuel) :
    ∃ w, deleteWalk node fuel l p = some (w,if node ∈ xs then -1 else 0) := by
  induction xs generalizing p fuel with
  | nil =>
    obtain ⟨fuel,rfl⟩ := Nat.exists_eq_add_one_of_ne_zero (Nat.ne_zero_of_lt enough)
    obtain rfl : p = none := chain
    exact ⟨l,rfl⟩
  | cons y ys ih =>
    obtain ⟨fuel,rfl⟩ := Nat.exists_eq_add_one_of_ne_zero (Nat.ne_zero_of_lt enough)
    obtain ⟨rfl,rest⟩ := chain
    rw [deleteWalk]
    by_cases found : y = node
    · rw [if_pos found]
      exact ⟨_,by rw [found,if_pos List.mem_cons_self]⟩
    · rw [if_neg found]
      obtain ⟨w,result⟩ := ih rest (by simpa using enough)
      refine ⟨w,?_⟩
      have other : node ≠ y := Ne.symm found
      simpa [other] using result

theorem addTail_result (chain : Chain l.next l.head xs) : linkedlistAddNode l node .LINKEDLIST_TAIL =
    some ((l.write (.next node) none).write (xs.getLast?.elim .head .next) (some node),0) := by
  have walk := tailWalk_chain .head chain (chain_short chain)
  have first : l.read .head = l.head := rfl
  simp only [linkedlistAddNode,first,walk,bind,Option.bind,pure]

theorem addTail_chain (chain : Chain l.next l.head xs) (fresh : node ∉ xs) :
    ∃ w rc, linkedlistAddNode l node .LINKEDLIST_TAIL = some (w,rc) ∧ Chain w.next w.head (xs ++ [node]) := by
  refine ⟨_,_,addTail_result chain,?_⟩
  obtain rfl | ⟨front,z,rfl⟩ := List.eq_nil_or_concat' xs
  · exact ⟨rfl,Function.update_self ..⟩
  · obtain ⟨outside,distinct⟩ : node ∉ front ∧ node ≠ z := by simpa using fresh
    have single : z ∉ front := by
      have apart := (List.nodup_append.mp (chain_nodup chain)).2.2
      exact fun member => apart z member z (by simp) rfl
    have last : l.next z = none := by
      obtain ⟨r,_,_,ends⟩ := (seg_append ..).mp chain
      exact ends
    rw [List.getLast?_concat,List.append_assoc]
    apply seg_link_behind chain
    · exact Function.update_self ..
    · exact (Function.update_of_ne distinct ..).trans ((Function.update_self ..).trans last.symm)
    · intro y member
      rw [List.append_nil] at member
      exact (update_outside single y member).trans (update_outside outside y member)

theorem deleteAt_first (chain : Chain l.next l.head xs) :
    Removes l (linkedlistDeleteNodeAt l 0) (if 0 < xs.length then some (xs.eraseIdx 0) else none) := by
  cases xs with
  | nil =>
    have start : l.read .head = none := chain
    rw [linkedlistDeleteNodeAt,start]
    exact rfl
  | cons x xs =>
    have outside := (List.nodup_cons.mp (chain_nodup chain)).1
    have start : l.read .head = some x := chain.1
    rw [linkedlistDeleteNodeAt,start]
    exact ⟨_,rfl,seg_congr chain.2 (update_outside outside)⟩

/-- The calls that do to every list what they are to do. -/
theorem call_meets (l : Lists) (xs : List Node) (chain : Chain l.next l.head xs) (call : Call) (fresh : call.Fresh xs) :
    call.Meets l xs ↔ call.Right xs := by
  cases call with
  | addHead node =>
    refine iff_of_false ?_ id
    rintro ⟨w,rc,result,other⟩
    obtain ⟨rfl,rfl⟩ : l.write (.next node) l.head = w ∧ (0 : Int) = rc := by simpa [linkedlistAddNode,Lists.read] using result
    have first := (chain_head chain).symm.trans (chain_head other)
    exact fresh (List.mem_of_mem_head? first)
  | addTail node => exact iff_of_true (addTail_chain chain fresh) trivial
  | deleteNode node =>
    refine iff_of_false ?_ id
    obtain ⟨w,result⟩ := deleteWalk_chain node chain (chain_short chain)
    intro removes
    have result : linkedlistDeleteNode l node = _ := result
    simp only [Call.Meets,result] at removes
    split at removes
    · obtain ⟨v,equal,_⟩ := removes
      simp at equal
    · have equal : some (w,(0 : Int)) = some (l,-1) := removes
      simp at equal
  | deleteNodeAt index =>
    obtain rfl | later := Nat.eq_zero_or_pos index
    · exact iff_of_true (deleteAt_first chain) (.inl rfl)
    · have result : linkedlistDeleteNodeAt l index = some (l,-1) := deleteAtWalk_later chain (by omega) (chain_short chain)
      simp only [Call.Meets,Call.Right,result]
      split
      · rename_i inside
        refine iff_of_false ?_ (by omega)
        rintro ⟨w,equal,_⟩
        simp at equal
      · rename_i outside
        exact iff_of_true rfl (.inr (by omega))

def left : Node := ⟨0x100,by decide⟩

def right : Node := ⟨0x200,by decide⟩

/-- The list of two nodes. -/
def pair : Lists := ⟨fun p => if p = left then some right else none,some left⟩

theorem pair_chain : Chain pair.next pair.head [left,right] := ⟨rfl,rfl,rfl⟩

def third : Node := ⟨0x302,by decide⟩

theorem call_meets_behind : (Call.addTail third).Meets pair [left,right] :=
  (call_meets pair [left,right] pair_chain (.addTail third) (show third ∉ [left,right] by decide)).mpr trivial

/-- A third node does not come in front, the second goes out as the first does, and not by its index. -/
theorem pair_fails : ¬ (Call.addHead ⟨0x300,by decide⟩).Meets pair [left,right] ∧
    ¬ (Call.deleteNode right).Meets pair [left,right] ∧ ¬ (Call.deleteNodeAt 1).Meets pair [left,right] := by
  refine ⟨?_,?_,?_⟩
  · rintro ⟨w,rc,result,chain⟩
    obtain ⟨rfl,_⟩ : pair.write (.next ⟨0x300,by decide⟩) (some left) = w ∧ (0 : Int) = rc := by
      simpa [linkedlistAddNode,Lists.read,pair] using result
    have first : some left = some (⟨0x300,by decide⟩ : Node) := chain.1
    simp [left] at first
  · intro removes
    obtain ⟨w,result⟩ := deleteWalk_chain right pair_chain (chain_short pair_chain)
    have result : linkedlistDeleteNode pair right = some (w,-1) := result
    obtain ⟨v,equal,_⟩ : ∃ v, linkedlistDeleteNode pair right = some (v,0) ∧ Chain v.next v.head [left] := removes
    simp [result] at equal
  · intro removes
    have result : linkedlistDeleteNodeAt pair 1 = some (pair,-1) :=
      deleteAtWalk_later pair_chain (by decide) (chain_short pair_chain)
    obtain ⟨v,equal,_⟩ : ∃ v, linkedlistDeleteNodeAt pair 1 = some (v,0) ∧ Chain v.next v.head [left] := removes
    simp [result] at equal

end BermudaOS.Clib.LinkedList
