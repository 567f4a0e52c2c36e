import BermudaOS.Lib.XorChains

/-! The list library whose nodes hold one pointer for both neighbours. A node is the
address of its `struct xornode`; the memory holds the `pointer` field of every node. -/
namespace BermudaOS.Clib.XorList
open Lib.Chains Lib.XorChains

abbrev Ptr := BitVec 16

abbrev Memory := Ptr → Ptr

def NULL : Ptr := 0

inductive Error where
  | OK
  | NULL_PTR
  | GENERAL_ERR
  | NO_MEM
  deriving DecidableEq, Repr

def put (m : Memory) (node pointer : Ptr) : Memory := fun p => if p = node then pointer else m p

@[simp] theorem put_same (m : Memory) (node pointer : Ptr) : put m node pointer node = pointer := if_pos rfl

theorem put_other {m : Memory} {node pointer p : Ptr} (other : p ≠ node) : put m node pointer p = m p := if_neg other

def bermudaXorllGetNext (m : Memory) (prev this : Ptr) : Ptr :=
  if this = NULL then this
  else
    let uprev := prev
    let uthis := if this ≠ NULL then m this else NULL
    uprev ^^^ uthis

def bermudaXorllGetPrev (m : Memory) (this next : Ptr) : Ptr := if this ≠ NULL then m this ^^^ next else 0

def bermudaXorllInsert (m : Memory) (prev this new : Ptr) : Memory × Error :=
  let next := bermudaXorllGetNext m prev this
  let pNext_next := if next ≠ NULL then m next ^^^ this else 0 ^^^ this
  if next = NULL then
    let m := put m this (prev ^^^ new)
    (put m new (this ^^^ 0),.OK)
  else
    let m := put m this (prev ^^^ new)
    let m := put m new (this ^^^ next)
    (put m next (if pNext_next ≠ 0 then new ^^^ pNext_next else new ^^^ 0),.OK)

def bermudaXorllRemoveNode (m : Memory) (prev this : Ptr) : Memory × Error :=
  if this = NULL then (m,.NULL_PTR)
  else
    let next := bermudaXorllGetNext m prev this
    let uprev_prev := if prev ≠ NULL then bermudaXorllGetPrev m prev this else NULL
    let unext_next := if next ≠ NULL then m next ^^^ this else 0
    let m := if prev ≠ NULL then put m prev (uprev_prev ^^^ next) else m
    let m := if next ≠ NULL then put m next (unext_next ^^^ prev) else m
    (put m this NULL,.OK)

/-- The loop of `BermudaXorllAddNode`. -/
def addNode (node new : Ptr) : Nat → Memory → Ptr → Ptr → Option Memory
  | 0,_,_,_ => none
  | n+1,m,prev,carriage =>
    if carriage = NULL then some m
    else if carriage = node then some (bermudaXorllInsert m prev carriage new).1
    else
      let tmp := carriage
      let carriage := bermudaXorllGetNext m prev tmp
      let prev := tmp
      if carriage = NULL ∧ node = NULL ∧ new ≠ NULL then
        let carriage := tmp
        let prev := bermudaXorllGetPrev m carriage NULL
        some (bermudaXorllInsert m prev carriage new).1
      else addNode node new n m prev carriage

def bermudaXorllAddNode (fuel : Nat) (m : Memory) (listHead node new : Ptr) : Option (Memory × Error) :=
  if new = NULL then some (m,.NULL_PTR)
  else (addNode node new fuel m NULL listHead).map (·,.OK)

/-- Following `BermudaXorllGetNext` from a node, for at most `n` nodes. -/
def forward (m : Memory) : Nat → Ptr → Ptr → List Ptr
  | 0,_,_ => []
  | n+1,prev,this => if this = NULL then [] else this::forward m n this (bermudaXorllGetNext m prev this)

/-- Following `BermudaXorllGetPrev` from a node, for at most `n` nodes. -/
def backward (m : Memory) : Nat → Ptr → Ptr → List Ptr
  | 0,_,_ => []
  | n+1,this,next => if this = NULL then [] else this::backward m n (bermudaXorllGetPrev m this next) this

/-- The memory holds the list with these nodes. -/
structure Listed (m : Memory) (xs : List Ptr) : Prop where
  encodes : Encodes m NULL xs NULL
  nodup : xs.Nodup
  nonnull : NULL ∉ xs

/-- Walks from either end meet the nodes in order, and end behind the last. -/
def Traversed (m : Memory) (xs : List Ptr) : Prop :=
  ∀ n, xs.length < n → forward m n NULL (xs.headD NULL) = xs ∧ backward m n (xs.getLastD NULL) NULL = xs.reverse

variable {m : Memory} {p x new : Ptr} {xs before after : List Ptr}

theorem getNext_encodes (encodes : Encodes m p (x::xs) NULL) (nonnull : x ≠ NULL) :
    bermudaXorllGetNext m p x = xs.headD NULL := by
  simp [bermudaXorllGetNext,nonnull,encodes.1]

theorem forward_encodes {n : Nat} (encodes : Encodes m p xs NULL) (nonnull : NULL ∉ xs) (enough : xs.length < n) :
    forward m n p (xs.headD NULL) = xs := by
  induction xs generalizing p n with
  | nil =>
    obtain ⟨n,rfl⟩ := Nat.exists_eq_add_one_of_ne_zero (Nat.ne_zero_of_lt enough)
    rfl
  | cons x xs ih =>
    obtain ⟨n,rfl⟩ := Nat.exists_eq_add_one_of_ne_zero (Nat.ne_zero_of_lt enough)
    have real : x ≠ NULL := fun null => nonnull (by simp [null])
    rw [List.headD_cons,forward,if_neg real,getNext_encodes encodes real,
      ih encodes.2 (fun member => nonnull (by simp [member])) (by simpa using enough)]

theorem backward_encodes {n : Nat} (encodes : Encodes m p xs NULL) (nonnull : NULL ∉ xs) (enough : xs.length < n) :
    backward m n (xs.headD NULL) p = xs := by
  induction xs generalizing p n with
  | nil =>
    obtain ⟨n,rfl⟩ := Nat.exists_eq_add_one_of_ne_zero (Nat.ne_zero_of_lt enough)
    rfl
  | cons x xs ih =>
    obtain ⟨n,rfl⟩ := Nat.exists_eq_add_one_of_ne_zero (Nat.ne_zero_of_lt enough)
    have real : x ≠ NULL := fun null => nonnull (by simp [null])
    have before : bermudaXorllGetPrev m x p = xs.headD NULL := by
      rw [bermudaXorllGetPrev,if_pos real,BitVec.xor_comm,encodes.1,xor_cancel]
    rw [List.headD_cons,backward,if_neg real,before,
      ih encodes.2 (fun member => nonnull (by simp [member])) (by simpa using enough)]

theorem listed_traversed (listed : Listed m xs) : Traversed m xs := by
  intro n enough
  have back := backward_encodes (encodes_reverse listed.encodes) (by simpa using listed.nonnull) (by simpa using enough)
  exact ⟨forward_encodes listed.encodes listed.nonnull enough,by simpa using back⟩

theorem insert_memory (next : bermudaXorllGetNext m p x = after.headD NULL) (nonnull : NULL ∉ after)
    (fresh : new ∉ x::after) (outside : x ∉ after) : ∃ w, bermudaXorllInsert m p x new = (w,.OK) ∧
      w x = p ^^^ new ∧ w new = x ^^^ after.headD NULL ∧ (∀ y ∈ after.head?, w y = m y ^^^ (x ^^^ new)) ∧
      ∀ y, y ≠ x → y ≠ new → y ∉ after.head? → w y = m y := by
  have distinct : x ≠ new := fun equal => fresh (by simp [equal])
  unfold bermudaXorllInsert
  rw [next]
  cases after with
  | nil =>
    refine ⟨_,if_pos rfl,?_,by simp [NULL],by simp,?_⟩
    · rw [put_other distinct,put_same]
    · intro y other foreign _
      rw [put_other foreign,put_other other]
  | cons z zs =>
    have inner : z ≠ NULL := fun null => nonnull (by simp [null])
    have second : x ≠ z := fun equal => outside (by simp [equal])
    have third : new ≠ z := fun equal => fresh (by simp [equal])
    refine ⟨_,if_neg inner,?_,?_,?_,?_⟩
    · rw [put_other (by simpa using second),put_other distinct,put_same]
    · rw [put_other (by simpa using third),put_same]
    · intro y member
      obtain rfl : z = y := by simpa using member
      rw [List.headD_cons,put_same,if_pos inner]
      split
      · rw [BitVec.xor_comm new,BitVec.xor_assoc]
      · rename_i zero
        have zero : m z ^^^ x = 0 := Decidable.of_not_not zero
        rw [← BitVec.xor_assoc,zero,BitVec.xor_comm]
    · intro y other foreign outer
      rw [put_other (by simpa [eq_comm] using outer),put_other foreign,put_other other]

theorem remove_memory {q : Ptr} (real : x ≠ NULL) (next : bermudaXorllGetNext m p x = q) (left : x ≠ p) (right : x ≠ q)
    (apart : p = q → p = NULL) : ∃ w, bermudaXorllRemoveNode m p x = (w,.OK) ∧
      (p ≠ NULL → w p = m p ^^^ (x ^^^ q)) ∧ (q ≠ NULL → w q = m q ^^^ (x ^^^ p)) ∧
      ∀ y, y ≠ x → y ≠ p → y ≠ q → w y = m y := by
  unfold bermudaXorllRemoveNode
  rw [if_neg real,next]
  refine ⟨_,rfl,?_,?_,?_⟩
  · intro inner
    have distinct : p ≠ q := fun equal => inner (apart equal)
    rw [put_other left.symm,if_pos inner,if_pos inner,bermudaXorllGetPrev,if_pos inner,← BitVec.xor_assoc]
    split
    · rw [put_other distinct,put_same]
    · rw [put_same]
  · intro inner
    rw [put_other right.symm,if_pos inner,if_pos inner,put_same,BitVec.xor_assoc]
  · intro y other front back
    rw [put_other other]
    split
    · rw [put_other back]
      split
      · rw [put_other front]
      · rfl
    · split
      · rw [put_other front]
      · rfl

theorem listed_real (listed : Listed m xs) (member : x ∈ xs) : x ≠ NULL := fun null => listed.nonnull (null ▸ member)

theorem insert_listed (listed : Listed m (before ++ x::after)) (fresh : new ∉ before ++ x::after) (real : new ≠ NULL) :
    ∃ w, bermudaXorllInsert m (before.getLastD NULL) x new = (w,.OK) ∧ Listed w (before ++ x::new::after) := by
  have halves := encodes_append.mp listed.encodes
  have apart := List.nodup_append.mp listed.nodup
  obtain ⟨outside,_⟩ := List.nodup_cons.mp apart.2.1
  have own := listed_real listed (x := x) (by simp)
  obtain ⟨w,result,first,second,third,rest⟩ := insert_memory (getNext_encodes halves.2 own)
    (fun member => listed.nonnull (by simp [member])) (fun member => fresh (List.mem_append_right _ member)) outside
  refine ⟨w,result,encodes_insert listed.encodes first second third ?_ ?_,?_,?_⟩
  · intro y member
    apply rest y
    · exact apart.2.2 y member x (by simp)
    · rintro rfl
      exact fresh (by simp [member])
    · intro head
      exact apart.2.2 y member y (by simp [List.mem_of_mem_head? head]) rfl
  · intro y member
    have inside := List.mem_of_mem_tail member
    apply rest y
    · rintro rfl
      exact outside inside
    · rintro rfl
      exact fresh (by simp [inside])
    · exact fun head => tail_ne_head apart.2.1.of_cons member head rfl
  · have order : before ++ x::new::after = before ++ [x] ++ new::after := by simp
    rw [order,List.nodup_middle,List.nodup_cons]
    exact ⟨by simpa using fresh,by simpa using listed.nodup⟩
  · intro member
    have split : NULL = new ∨ NULL ∈ before ++ x::after := by
      simp only [List.mem_append,List.mem_cons] at member ⊢
      tauto
    obtain equal | member := split
    · exact real equal.symm
    · exact listed.nonnull member

theorem remove_listed (listed : Listed m (before ++ x::after)) :
    ∃ w, bermudaXorllRemoveNode m (before.getLastD NULL) x = (w,.OK) ∧ Listed w (before ++ after) := by
  have halves := encodes_append.mp listed.encodes
  have apart := List.nodup_append.mp listed.nodup
  obtain ⟨outside,second⟩ := List.nodup_cons.mp apart.2.1
  have own := listed_real listed (x := x) (by simp)
  have left : x ≠ before.getLastD NULL := by
    intro equal
    obtain null | member := getLastD_cases before NULL
    · exact own (equal.trans null)
    · exact apart.2.2 _ member x (by simp) equal.symm
  have right : x ≠ after.headD NULL := by
    intro equal
    obtain null | member := headD_cases after NULL
    · exact own (equal.trans null)
    · exact outside (equal ▸ member)
  have ends : before.getLastD NULL = after.headD NULL → before.getLastD NULL = NULL := by
    intro equal
    obtain null | first := getLastD_cases before NULL
    · exact null
    · obtain null | last := headD_cases after NULL
      · exact equal.trans null
      · exact absurd equal (apart.2.2 _ first _ (List.mem_cons_of_mem x last))
  obtain ⟨w,result,prev,next,rest⟩ := remove_memory own (getNext_encodes halves.2 own) left right ends
  refine ⟨w,result,encodes_remove listed.encodes ?_ ?_ ?_ ?_,?_,?_⟩
  · intro y member
    rw [getLastD_of_last member] at prev
    exact prev (listed_real listed (by simp [List.mem_of_getLast? member]))
  · intro y member
    rw [headD_of_head member] at next
    exact next (listed_real listed (by simp [List.mem_of_mem_head? member]))
  · intro y member
    have inside := List.mem_of_mem_dropLast member
    apply rest y
    · exact apart.2.2 y inside x (by simp)
    · exact dropLast_ne_last apart.1 member (getLastD_last NULL inside)
    · intro equal
      obtain null | last := headD_cases after NULL
      · exact listed_real listed (by simp [inside]) (equal.trans null)
      · exact apart.2.2 y inside _ (List.mem_cons_of_mem x last) equal
  · intro y member
    have inside := List.mem_of_mem_tail member
    apply rest y
    · rintro rfl
      exact outside inside
    · intro equal
      obtain null | first := getLastD_cases before NULL
      · exact listed_real listed (by simp [inside]) (equal.trans null)
      · exact apart.2.2 _ first y (List.mem_cons_of_mem x inside) equal.symm
    · exact tail_ne_head second member (headD_head NULL inside)
  · exact listed.nodup.sublist (by simp)
  · intro member
    apply listed.nonnull
    simp only [List.mem_append,List.mem_cons] at member ⊢
    tauto

theorem addNode_onward {fuel : Nat} {node y : Ptr} {ys : List Ptr} (encodes : Encodes m p (y::ys) NULL)
    (nonnull : NULL ∉ y::ys) (other : y ≠ node) (more : ys ≠ []) :
    addNode node new (fuel + 1) m p y = addNode node new fuel m y (ys.headD NULL) := by
  have real : y ≠ NULL := fun null => nonnull (by simp [null])
  obtain ⟨z,zs,rfl⟩ := List.exists_cons_of_ne_nil more
  have inner : z ≠ NULL := fun null => nonnull (by simp [null])
  rw [addNode,if_neg real,if_neg other]
  simp only [getNext_encodes encodes real,List.headD_cons,inner,false_and,if_false]

theorem addNode_member {fuel : Nat} (encodes : Encodes m p (before ++ x::after) NULL)
    (nodup : (before ++ x::after).Nodup) (nonnull : NULL ∉ before ++ x::after) (enough : before.length < fuel) :
    addNode x new fuel m p ((before ++ x::after).headD NULL) =
      some (bermudaXorllInsert m (before.getLastD p) x new).1 := by
  obtain ⟨fuel,rfl⟩ := Nat.exists_eq_add_one_of_ne_zero (Nat.ne_zero_of_lt enough)
  induction before generalizing p fuel with
  | nil =>
    have real : x ≠ NULL := fun null => nonnull (by simp [null])
    rw [List.nil_append,List.headD_cons,addNode,if_neg real,if_pos rfl,List.getLastD_nil]
  | cons y ys ih =>
    obtain ⟨outside,rest⟩ := List.nodup_cons.mp nodup
    have other : y ≠ x := fun equal => outside (by simp [equal])
    obtain ⟨fuel,rfl⟩ := Nat.exists_eq_add_one_of_ne_zero (n := fuel) (by simp at enough; omega)
    rw [List.cons_append,List.headD_cons,addNode_onward encodes nonnull other (by simp),List.getLastD_cons]
    apply ih encodes.2 rest (fun member => nonnull (List.mem_cons_of_mem y member))
    simpa using enough

theorem addNode_append {fuel : Nat} (encodes : Encodes m p (before ++ [x]) NULL) (nonnull : NULL ∉ before ++ [x])
    (enough : before.length < fuel) (real : new ≠ NULL) :
    addNode NULL new fuel m p ((before ++ [x]).headD NULL) =
      some (bermudaXorllInsert m (before.getLastD p) x new).1 := by
  obtain ⟨fuel,rfl⟩ := Nat.exists_eq_add_one_of_ne_zero (Nat.ne_zero_of_lt enough)
  induction before generalizing p fuel with
  | nil =>
    have own : x ≠ NULL := fun null => nonnull (by simp [null])
    have last : bermudaXorllGetPrev m x NULL = p := by
      rw [bermudaXorllGetPrev,if_pos own,encodes.1]
      simp [NULL]
    rw [List.nil_append,List.headD_cons,addNode,if_neg own,if_neg own]
    simp [getNext_encodes encodes own,real,last]
  | cons y ys ih =>
    have other : y ≠ NULL := fun null => nonnull (by simp [null])
    obtain ⟨fuel,rfl⟩ := Nat.exists_eq_add_one_of_ne_zero (n := fuel) (by simp at enough; omega)
    rw [List.cons_append,List.headD_cons,addNode_onward encodes nonnull other (by simp),List.getLastD_cons]
    apply ih encodes.2 (fun member => nonnull (List.mem_cons_of_mem y member))
    simpa using enough

/-- A memory that an operation left behind holds these nodes, seen from both ends. -/
def Yields (result : Option (Memory × Error)) (ys : List Ptr) : Prop :=
  ∃ w, result = some (w,.OK) ∧ Listed w ys ∧ Traversed w ys

theorem listed_length (listed : Listed m xs) : xs.length < 2^16 := by
  have bound := nodup_length (List.nodup_cons.mpr ⟨listed.nonnull,listed.nodup⟩)
  exact Nat.lt_of_succ_le bound

theorem addNode_yields (listed : Listed m (before ++ x::after)) (fresh : new ∉ before ++ x::after) (real : new ≠ NULL)
    {node : Ptr} (found : addNode node new (2^16) m NULL ((before ++ x::after).headD NULL) =
      some (bermudaXorllInsert m (before.getLastD NULL) x new).1) :
    Yields (bermudaXorllAddNode (2^16) m ((before ++ x::after).headD NULL) node new) (before ++ x::new::after) := by
  obtain ⟨w,result,kept⟩ := insert_listed listed fresh real
  refine ⟨w,?_,kept,listed_traversed kept⟩
  rw [bermudaXorllAddNode,if_neg real,found,result]
  rfl

/-- The operations on a list with an exclusive or of two addresses in every node are
the operations on the sequence of its nodes. -/
theorem xorll_sequence (m : Memory) (xs : List Ptr) (listed : Listed m xs) (nonempty : xs ≠ []) :
    (∀ new, new ≠ NULL → new ∉ xs → (∀ before x after, xs = before ++ x::after →
        Yields (some (bermudaXorllInsert m (before.getLastD NULL) x new)) (before ++ x::new::after) ∧
        Yields (bermudaXorllAddNode (2^16) m (xs.headD NULL) x new) (before ++ x::new::after)) ∧
      Yields (bermudaXorllAddNode (2^16) m (xs.headD NULL) NULL new) (xs ++ [new])) ∧
    ∀ before x after, xs = before ++ x::after →
      Yields (some (bermudaXorllRemoveNode m (before.getLastD NULL) x)) (before ++ after) := by
  have short := listed_length listed
  refine ⟨?_,?_⟩
  · intro new real fresh
    refine ⟨?_,?_⟩
    · intro before x after split
      subst split
      refine ⟨?_,?_⟩
      · obtain ⟨w,result,kept⟩ := insert_listed listed fresh real
        exact ⟨w,congrArg some result,kept,listed_traversed kept⟩
      · apply addNode_yields listed fresh real
        apply addNode_member listed.encodes listed.nodup listed.nonnull
        simp at short
        omega
    · obtain rfl | ⟨before,x,rfl⟩ := List.eq_nil_or_concat' xs
      · exact absurd rfl nonempty
      · have yields := addNode_yields listed fresh real (addNode_append listed.encodes listed.nonnull
          (by simp at short; omega) real)
        simpa using yields
  · intro before x after split
    subst split
    obtain ⟨w,result,kept⟩ := remove_listed listed
    exact ⟨w,congrArg some result,kept,listed_traversed kept⟩

/-- Two nodes that hold each other's address. -/
def pair (left right : Ptr) : Memory := fun p => if p = left then right else if p = right then left else 0

theorem pair_listed : Listed (pair 0x100 0x200) [0x100,0x200] := by
  refine ⟨?_,by decide,by decide⟩
  simp [pair,NULL]

theorem xorll_sequence_pair :
    Yields (bermudaXorllAddNode (2^16) (pair 0x100 0x200) 0x100 0x100 0x300) [0x100,0x300,0x200] ∧
    Yields (bermudaXorllAddNode (2^16) (pair 0x100 0x200) 0x100 NULL 0x300) [0x100,0x200,0x300] ∧
    Yields (some (bermudaXorllRemoveNode (pair 0x100 0x200) 0x100 0x200)) [0x100] := by
  obtain ⟨added,removed⟩ := xorll_sequence (pair 0x100 0x200) [0x100,0x200] pair_listed (by simp)
  obtain ⟨behind,last⟩ := added 0x300 (by decide) (by decide)
  exact ⟨(behind [] 0x100 [0x200] rfl).2,last,removed [0x100] 0x200 [] rfl⟩

end BermudaOS.Clib.XorList
