import BermudaOS.Lib.Loops
import BermudaOS.Sys.EplAt

/-! The repair of event protected lists, `epl_fix` of `sys/epl.c`. -/
namespace BermudaOS.Sys.Epl
open Lib.Chains

/-- The loop of `epl_fix` from the node `car` on, when it ends within that many steps. -/
def fixWalk : Nat → EpList → Option Node → BitVec 16 → Option (EpList × BitVec 16 × Int)
  | 0,_,_,_ => none
  | _+1,l,none,size => some (l,size,-1)
  | n+1,l,some car,size =>
    if l.next car = some car then some (l.setNext car none,size,0) else fixWalk n l (l.next car) (size + 1)

def eplFix (fuel : Nat) (list : EpList) : Option (EpList × Int) := do
  let (l,size,rc) ← fixWalk fuel list list.nodes 0
  return ({l with listEntries := size + 1},rc)

/-- What the repair is to leave of a list, and to return. -/
structure Repaired (l w : EpList) (rc : Int) : Prop where
  closed : ∃ xs, Chain w.next w.nodes xs ∧ (∀ x, Reaches l.next l.nodes x → x ∈ xs) ∧ (eplEntries w).toNat = xs.length
  circular : Circular l.next l.nodes → rc = 0
  straight : ¬ Circular l.next l.nodes → rc = -1 ∧ w = l

/-- The repair ends and does what it is to do. -/
def Fixes (l : EpList) : Prop := ∃ fuel w rc, eplFix fuel l = some (w,rc) ∧ Repaired l w rc

variable {l w : EpList} {x : Node} {p : Option Node} {before : List Node} {fuel : Nat} {size count : BitVec 16} {rc : Int}

theorem fixWalk_closed (size : BitVec 16) (seg : Seg l.next p before (some x)) (loose : ∀ y ∈ before, l.next y ≠ some y)
    (closed : l.next x = some x) :
    fixWalk (before.length + 1) l p size = some (l.setNext x none,size + BitVec.ofNat 16 before.length,0) := by
  induction before generalizing p size with
  | nil =>
    obtain rfl : p = some x := seg
    rw [List.length_nil,fixWalk,if_pos closed,BitVec.add_zero]
  | cons y ys ih =>
    obtain ⟨rfl,rest⟩ := seg
    obtain ⟨own,loose⟩ := List.forall_mem_cons.mp loose
    rw [List.length_cons,fixWalk,if_neg own,ih _ rest loose,BitVec.ofNat_add,BitVec.add_assoc,BitVec.add_comm 1]
    rfl

/-- Where no node is linked to itself, the loop ends behind the last node of a closed list. -/
theorem fixWalk_straight (loose : ∀ y, Reaches l.next p y → l.next y ≠ some y)
    (ends : fixWalk fuel l p size = some (w,count,rc)) :
    ∃ xs, Chain l.next p xs ∧ w = l ∧ count = size + BitVec.ofNat 16 xs.length ∧ rc = -1 := by
  induction fuel generalizing p size with
  | zero => cases ends
  | succ fuel ih =>
    cases p with
    | none =>
      cases ends
      exact ⟨[],rfl,rfl,(BitVec.add_zero _).symm,rfl⟩
    | some car =>
      rw [fixWalk,if_neg (loose car .head)] at ends
      obtain ⟨xs,chain,kept,counted,code⟩ := ih (fun y reaches => loose y (.onward reaches)) ends
      refine ⟨car::xs,⟨rfl,chain⟩,kept,?_,code⟩
      rw [counted,List.length_cons,BitVec.ofNat_add,BitVec.add_assoc,BitVec.add_comm 1]
      rfl

theorem fix_result (ends : fixWalk fuel l l.nodes 0 = some (w,count,rc)) :
    eplFix fuel l = some ({w with listEntries := count + 1},rc) := by
  rw [eplFix,ends]
  rfl

theorem fix_walks (ends : eplFix fuel l = some (w,rc)) :
    ∃ v count, fixWalk fuel l l.nodes 0 = some (v,count,rc) ∧ w = {v with listEntries := count + 1} := by
  unfold eplFix at ends
  cases walk : fixWalk fuel l l.nodes 0 with
  | none =>
    rw [walk] at ends
    cases ends
  | some result =>
    rw [walk] at ends
    cases ends
    exact ⟨_,_,rfl,rfl⟩

theorem size_counted (n : Nat) : ((0 : BitVec 16) + BitVec.ofNat 16 n + 1).toNat = (n + 1) % 2^16 := by
  have zero : (0 : BitVec 16).toNat = 0 := rfl
  have one : (1 : BitVec 16).toNat = 1 := rfl
  rw [BitVec.toNat_add,BitVec.toNat_add,BitVec.toNat_ofNat,zero,one]
  omega

theorem fixes_closed (reaches : Reaches l.next l.nodes x) (closed : l.next x = some x) : Fixes l := by
  obtain ⟨before,seg,loose⟩ := reaches_first reaches closed
  have outside : x ∉ before := fun member => loose x member closed
  have chain : Chain (l.setNext x none).next l.nodes (before ++ [x]) := by
    refine (seg_append ..).mpr ⟨some x,seg_congr seg (update_outside outside),rfl,?_⟩
    exact Function.update_self ..
  have short := nonnull_length (chain_nodup chain)
  rw [List.length_append,List.length_singleton] at short
  refine ⟨_,_,_,fix_result (fixWalk_closed 0 seg loose closed),⟨before ++ [x],chain,?_,?_⟩,fun _ => rfl,?_⟩
  · exact fun y met => reaches_append met seg closed
  · rw [List.length_append,List.length_singleton]
    exact (size_counted before.length).trans (Nat.mod_eq_of_lt short)
  · exact fun straight => absurd (closed_circular reaches closed) straight

theorem fix_miscounts (loose : ∀ y, Reaches l.next l.nodes y → l.next y ≠ some y) (ends : eplFix fuel l = some (w,rc)) :
    ¬ Repaired l w rc := by
  rintro ⟨⟨ys,chain,_,entries⟩,_,_⟩
  obtain ⟨v,count,walk,rfl⟩ := fix_walks ends
  obtain ⟨xs,straight,rfl,rfl,_⟩ := fixWalk_straight loose walk
  obtain rfl := chain_unique straight chain
  have short := nonnull_length (chain_nodup chain)
  have counted := (size_counted xs.length).symm.trans entries
  omega

/-- A list is repaired only if it holds a node that is linked to itself: a longer cycle has no
end, and a list that is not circular gets a wrong count. -/
theorem epl_fix_repairs (l : EpList) : Fixes l ↔ ∃ x, Reaches l.next l.nodes x ∧ l.next x = some x := by
  constructor
  · rintro ⟨fuel,w,rc,ends,repaired⟩
    by_contra missing
    apply fix_miscounts _ ends repaired
    exact fun y reaches closed => missing ⟨y,reaches,closed⟩
  · rintro ⟨x,reaches,closed⟩
    exact fixes_closed reaches closed

def ring : EpList := ⟨fun p => if p = first then some second else some first,some first,2⟩

theorem ring_reaches {y : Node} (reaches : Reaches ring.next p y) (start : p = some first ∨ p = some second) :
    y = first ∨ y = second := by
  induction reaches with
  | head => exact start.imp Option.some.inj Option.some.inj
  | @onward z y rest ih =>
    apply ih
    by_cases own : z = first
    · exact .inr (if_pos own)
    · exact .inl (if_neg own)

/-- The count of two nodes becomes 3, and the walk along a ring of two nodes has no end. -/
theorem epl_fix_fails : ¬ Fixes pair ∧ eplFix 3 pair = some ({pair with listEntries := 3},-1) ∧
    ¬ Fixes ring ∧ ∀ fuel, eplFix fuel ring = none := by
  have loose (y : Node) (reaches : Reaches ring.next ring.nodes y) : ring.next y ≠ some y := by
    obtain rfl | rfl := ring_reaches reaches (.inl rfl)
    · decide
    · decide
  have endless (fuel : Nat) : eplFix fuel ring = none := by
    by_contra ends
    obtain ⟨⟨w,rc⟩,ends⟩ := Option.ne_none_iff_exists'.mp ends
    obtain ⟨v,count,walk,_⟩ := fix_walks ends
    obtain ⟨xs,straight,_⟩ := fixWalk_straight loose walk
    exact chain_not_circular straight ⟨first,.head,.onward .head⟩
  refine ⟨?_,rfl,?_,endless⟩
  · rintro ⟨fuel,w,rc,ends,repaired⟩
    exact fix_miscounts (fun y reaches => chain_irrefl pair_chain (chain_reaches pair_chain reaches)) ends repaired
  · rintro ⟨fuel,w,rc,ends,_⟩
    cases (endless fuel).symm.trans ends

end BermudaOS.Sys.Epl
