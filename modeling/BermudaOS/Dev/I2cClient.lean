import BermudaOS.Clib.LinkedList

/-! The messages that an I2C client has queued, `shinfo->msgs`, and their clean-up by
`i2c_cleanup_client_msgs`. The nodes and the messages are blocks of one heap; what the
clean-up does to them is recorded in its order. -/
namespace BermudaOS.Dev.I2cClient
open Clib.LinkedList Lib.Chains

/-- `next p` reads the `next` field of what `p` points to, `NULL` included. -/
inductive Access where
  | next (p : Option Node)
  | data (p : Node)
  | setNext (p : Node)
  | free (p : Node)
  deriving DecidableEq

def Access.Uses (p : Node) : Access → Prop
  | .next q => q = some p
  | .data q => q = p
  | .setNext q => q = p
  | .free q => q = p

structure Msgs where
  lists : Lists
  data : Node → Node
  log : List Access

/-- What is found in memory that the clean-up does not own: at `NULL`, and in a block that
has been given back. -/
structure Rubbish where
  null : Option Node
  next : Node → Option Node
  data : Node → Node

namespace Msgs

def record (s : Msgs) (a : Access) : Msgs := {s with log := s.log ++ [a]}

def follow (r : Rubbish) (s : Msgs) (p : Option Node) : Msgs × Option Node :=
  (s.record (.next p),p.elim r.null s.lists.next)

def free (r : Rubbish) (s : Msgs) (p : Node) : Msgs :=
  {s.record (.free p) with
    lists := s.lists.write (.next p) (r.next p)
    data := Function.update s.data p (r.data p)}

end Msgs

/-- The loop of `linkedlist_delete_node`. -/
def deleteWalk (node : Node) : Nat → Msgs → Option Node → Option Msgs
  | 0,_,_ => none
  | _+1,s,none => some s
  | n+1,s,some listp =>
    if listp = node then
      let s := s.record (.next (some node))
      let s := {s with lists := s.lists.write .head (s.lists.next node)}
      let s := s.record (.setNext node)
      some {s with lists := s.lists.write (.next node) none}
    else deleteWalk node n (s.record (.next (some listp))) (s.lists.next listp)

def linkedlistDeleteNode (s : Msgs) (node : Node) : Option Msgs := deleteWalk node addressSpace s (s.lists.read .head)

/-- The loop that `foreach_safe` makes. -/
def cleanupWalk (r : Rubbish) : Nat → Msgs → Option Node → Option Node → Option Msgs
  | 0,_,_,_ => none
  | _+1,s,none,_ => some s
  | n+1,s,some node,n_node =>
    if some node = n_node then some s
    else do
      let s ← linkedlistDeleteNode s node
      let msg := s.data node
      let s := s.record (.data node)
      let s := s.free r msg
      let s := s.free r node
      let (s,next) := s.follow r n_node
      cleanupWalk r n s n_node next

def i2cCleanupClientMsgs (r : Rubbish) (s : Msgs) : Option Msgs :=
  let node := s.lists.read .head
  let (s,n_node) := s.follow r node
  cleanupWalk r addressSpace s node n_node

def freed (log : List Access) : List Node :=
  log.filterMap fun a => match a with
    | .free p => some p
    | _ => none

/-- The second access does not use what the first one frees. -/
def Unused (a b : Access) : Prop := ∀ p, a = .free p → ¬ b.Uses p

/-- The nodes of the queue and their messages are different blocks. -/
structure Queued (s : Msgs) (nodes : List Node) : Prop where
  chain : Chain s.lists.next s.lists.head nodes
  apart : (nodes ++ nodes.map s.data).Nodup

/-- Every block of the queue is freed, none is used after that, and the queue is empty. -/
structure Cleans (s : Msgs) (nodes : List Node) (t : Msgs) : Prop where
  all : (freed t.log).Perm (nodes ++ nodes.map s.data)
  gone : t.log.Pairwise Unused
  empty : t.lists.head = none

/-- What the clean-up is to do: it does not follow `NULL` either. -/
structure CleansUp (s : Msgs) (nodes : List Node) (t : Msgs) : Prop extends Cleans s nodes t where
  nonnull : .next none ∉ t.log

variable {r : Rubbish} {s t : Msgs} {node : Node} {nodes rest : List Node} {data : Node → Node} {fuel : Nat}

/-- The accesses are all that the deletion adds to that of the linked list. -/
theorem deleteWalk_lists (node : Node) (fuel : Nat) (s : Msgs) (p : Option Node) :
    (deleteWalk node fuel s p).map Msgs.lists = (Clib.LinkedList.deleteWalk node fuel s.lists p).map Prod.fst := by
  induction fuel generalizing s p with
  | zero => rfl
  | succ fuel ih =>
    cases p with
    | none => rfl
    | some listp =>
      rw [deleteWalk,Clib.LinkedList.deleteWalk]
      split
      · rfl
      · exact ih (s.record (.next (some listp))) (s.lists.next listp)

theorem deleteNode_head (first : s.lists.head = some node) : linkedlistDeleteNode s node =
    some ⟨⟨Function.update s.lists.next node none,s.lists.next node⟩,s.data,s.log ++ [.next (some node),.setNext node]⟩ := by
  have start : s.lists.read .head = some node := first
  rw [linkedlistDeleteNode,start]
  simp [deleteWalk,addressSpace,Msgs.record,Lists.write]

/-- What one pass does to memory, for a node and the one behind it. -/
def passLog (data : Node → Node) (node : Node) (behind : Option Node) : List Access :=
  [.next (some node),.setNext node,.data node,.free (data node),.free node,.next behind]

def walkLog (data : Node → Node) : List Node → List Access
  | [] => []
  | node::rest => passLog data node rest.head? ++ walkLog data rest

def passed (r : Rubbish) (s : Msgs) (node : Node) : Msgs :=
  let msg := s.data node
  { lists :=
      { next := Function.update (Function.update (Function.update s.lists.next node none) msg (r.next msg)) node (r.next node)
        head := s.lists.next node }
    data := Function.update (Function.update s.data msg (r.data msg)) node (r.data node)
    log := s.log ++ passLog s.data node (s.lists.next node) }

theorem cleanupWalk_pass (first : s.lists.head = some node) (straight : s.lists.next node ≠ some node) (fuel : Nat) :
    cleanupWalk r (fuel + 1) s (some node) (s.lists.next node) = cleanupWalk r fuel (passed r s node) (s.lists.next node)
      ((s.lists.next node).elim r.null (passed r s node).lists.next) := by
  rw [cleanupWalk,if_neg straight.symm,deleteNode_head first]
  simp [Msgs.record,Msgs.free,Msgs.follow,Lists.write,passLog,passed]

theorem apart_cons : (node::rest ++ (node::rest).map data).Nodup ↔ node ≠ data node ∧ node ∉ rest ++ rest.map data ∧
    data node ∉ rest ++ rest.map data ∧ (rest ++ rest.map data).Nodup := by
  have front : (node::rest ++ (node::rest).map data).Perm (node::data node::(rest ++ rest.map data)) :=
    List.perm_middle.cons _
  rw [front.nodup_iff,List.nodup_cons,List.nodup_cons,List.mem_cons,not_or,and_assoc]

theorem passed_data (queued : Queued s (node::rest)) : ∀ p ∈ rest, (passed r s node).data p = s.data p := by
  obtain ⟨_,outside,message,_⟩ := apart_cons.mp queued.apart
  rw [List.mem_append,not_or] at outside message
  intro p member
  exact (update_outside outside.1 p member).trans (update_outside message.1 p member)

theorem passed_queued (queued : Queued s (node::rest)) : Queued (passed r s node) rest := by
  obtain ⟨_,outside,message,apart⟩ := apart_cons.mp queued.apart
  rw [List.mem_append,not_or] at outside message
  refine ⟨seg_congr queued.chain.2 fun p member => ?_,?_⟩
  · exact (update_outside outside.1 p member).trans
      ((update_outside message.1 p member).trans (update_outside outside.1 p member))
  · rwa [List.map_congr_left (passed_data queued)]

theorem walkLog_congr {other : Node → Node} (same : ∀ p ∈ nodes, other p = data p) :
    walkLog other nodes = walkLog data nodes := by
  induction nodes with
  | nil => rfl
  | cons node rest ih =>
    rw [walkLog,walkLog,ih fun p member => same p (List.mem_cons_of_mem _ member)]
    simp only [passLog,same node List.mem_cons_self]

theorem cleanupWalk_log (queued : Queued s nodes) (enough : nodes.length < fuel) :
    ∃ t, cleanupWalk r fuel s s.lists.head (s.lists.head.elim r.null s.lists.next) = some t ∧ t.lists.head = none ∧
      t.log = s.log ++ walkLog s.data nodes := by
  induction nodes generalizing s fuel with
  | nil =>
    obtain ⟨fuel,rfl⟩ := Nat.exists_eq_add_one_of_ne_zero (Nat.ne_zero_of_lt enough)
    have empty : s.lists.head = none := queued.chain
    rw [empty]
    exact ⟨s,rfl,empty,(List.append_nil _).symm⟩
  | cons node rest ih =>
    obtain ⟨fuel,rfl⟩ := Nat.exists_eq_add_one_of_ne_zero (Nat.ne_zero_of_lt enough)
    have first : s.lists.head = some node := queued.chain.1
    have straight := chain_irrefl queued.chain (x := node) List.mem_cons_self
    have behind : s.lists.next node = rest.head? := chain_head queued.chain.2
    obtain ⟨t,walk,empty,log⟩ := ih (passed_queued (r := r) queued) (by simpa using enough)
    refine ⟨t,?_,empty,?_⟩
    · rw [first,Option.elim_some,cleanupWalk_pass first straight]
      exact walk
    · rw [log,walkLog_congr (passed_data queued)]
      simp [passed,walkLog,behind]

theorem cleanup_log (queued : Queued s (node::rest)) : ∃ t, i2cCleanupClientMsgs r s = some t ∧ t.lists.head = none ∧
    t.log = s.log ++ .next (some node)::walkLog s.data (node::rest) := by
  have first : s.lists.head = some node := queued.chain.1
  have start : Queued (s.record (.next s.lists.head)) (node::rest) := ⟨queued.chain,queued.apart⟩
  obtain ⟨t,walk,empty,log⟩ := cleanupWalk_log (r := r) start (chain_short queued.chain)
  refine ⟨t,walk,empty,?_⟩
  rw [log,first]
  simp [Msgs.record]

theorem freed_append (left right : List Access) : freed (left ++ right) = freed left ++ freed right :=
  List.filterMap_append ..

theorem freed_walkLog (data : Node → Node) (nodes : List Node) :
    (freed (walkLog data nodes)).Perm (nodes ++ nodes.map data) := by
  induction nodes with
  | nil => exact .nil
  | cons node rest ih =>
    have pass : freed (passLog data node rest.head?) = [data node,node] := rfl
    rw [walkLog,freed_append,pass]
    calc
      List.Perm (data node::node::freed (walkLog data rest)) (node::data node::freed (walkLog data rest)) := .swap ..
      List.Perm _ (node::data node::(rest ++ rest.map data)) := (ih.cons _).cons _
      List.Perm _ (node::(rest ++ data node::rest.map data)) := List.perm_middle.symm.cons _

theorem walkLog_uses {p : Node} {a : Access} (member : a ∈ walkLog data nodes) (uses : a.Uses p) :
    p ∈ nodes ++ nodes.map data := by
  induction nodes with
  | nil => cases member
  | cons node rest ih =>
    rcases List.mem_append.mp member with own | later
    · have first : a = .next rest.head? ∨ p = node ∨ p = data node := by
        simp only [passLog,List.mem_cons,List.not_mem_nil,or_false] at own
        rcases own with rfl | rfl | rfl | rfl | rfl | rfl
        · exact .inr (.inl (Option.some.inj uses).symm)
        · exact .inr (.inl (Eq.symm uses))
        · exact .inr (.inl (Eq.symm uses))
        · exact .inr (.inr (Eq.symm uses))
        · exact .inr (.inl (Eq.symm uses))
        · exact .inl rfl
      rcases first with rfl | rfl | rfl
      · have inside := List.mem_of_mem_head? uses
        simp [inside]
      · simp
      · simp
    · have inside := List.mem_append.mp (ih later)
      rcases inside with inside | inside
      · simp [inside]
      · exact List.mem_append_right _ (List.mem_cons_of_mem _ inside)

theorem passLog_gone {behind : Option Node} (distinct : node ≠ data node) (own : behind ≠ some node)
    (message : behind ≠ some (data node)) : (passLog data node behind).Pairwise Unused := by
  simp [passLog,Unused,Access.Uses,distinct,own,message]

theorem walkLog_gone (apart : (nodes ++ nodes.map data).Nodup) : (walkLog data nodes).Pairwise Unused := by
  induction nodes with
  | nil => exact .nil
  | cons node rest ih =>
    obtain ⟨distinct,outside,message,apart⟩ := apart_cons.mp apart
    have behind {p : Node} (away : p ∉ rest ++ rest.map data) : rest.head? ≠ some p := fun head =>
      away (List.mem_append_left _ (List.mem_of_mem_head? head))
    refine List.pairwise_append.mpr ⟨passLog_gone distinct (behind outside) (behind message),ih apart,?_⟩
    intro a early b late p frees uses
    have inside := walkLog_uses late uses
    subst frees
    have freed : p = data node ∨ p = node := by simpa [passLog] using early
    rcases freed with rfl | rfl
    · exact message inside
    · exact outside inside

/-- The walk leaves the queue through its last node. -/
theorem walkLog_null (data : Node → Node) (node : Node) (rest : List Node) : .next none ∈ walkLog data (node::rest) := by
  induction rest generalizing node with
  | nil => simp [walkLog,passLog]
  | cons other rest ih => exact List.mem_append_right _ (ih other)

/-- The clean-up frees what it should, and on its way always reads the link of `NULL`. -/
theorem cleanup_follows (r : Rubbish) (queued : Queued s (node::rest)) (start : s.log = []) :
    (∃ t, i2cCleanupClientMsgs r s = some t ∧ Cleans s (node::rest) t) ∧
    ¬ ∃ t, i2cCleanupClientMsgs r s = some t ∧ CleansUp s (node::rest) t := by
  obtain ⟨t,run,empty,log⟩ := cleanup_log (r := r) queued
  rw [start,List.nil_append] at log
  refine ⟨⟨t,run,?_,?_,empty⟩,?_⟩
  · rw [log]
    exact freed_walkLog s.data (node::rest)
  · rw [log]
    refine List.pairwise_cons.mpr ⟨?_,walkLog_gone queued.apart⟩
    intro b _ p frees
    cases frees
  · rintro ⟨u,again,cleans⟩
    obtain rfl : t = u := Option.some.inj (run.symm.trans again)
    refine cleans.nonnull ?_
    rw [log]
    exact List.mem_cons_of_mem _ (walkLog_null ..)

/-- A freed block no longer holds its link. -/
def rubbish : Rubbish := ⟨none,fun _ => none,id⟩

def block : Node := ⟨0x120,by decide⟩

def message : Node := ⟨0x240,by decide⟩

def behind : Node := ⟨0x126,by decide⟩

def answer : Node := ⟨0x246,by decide⟩

def double : Msgs :=
  ⟨⟨fun p => if p = block then some behind else none,some block⟩,fun p => if p = block then message else answer,[]⟩

theorem double_queued : Queued double [block,behind] := ⟨⟨rfl,rfl,rfl⟩,by decide⟩

theorem cleanup_follows_double :
    (∃ t, i2cCleanupClientMsgs rubbish double = some t ∧ Cleans double [block,behind] t) ∧
    ¬ ∃ t, i2cCleanupClientMsgs rubbish double = some t ∧ CleansUp double [block,behind] t :=
  cleanup_follows rubbish double_queued rfl

def single : Msgs := ⟨⟨fun _ => none,some block⟩,fun _ => message,[]⟩

theorem single_queued : Queued single [block] := ⟨⟨rfl,rfl⟩,by decide⟩

theorem cleanup_reads_null : Queued single [block] ∧
    ¬ ∃ t, i2cCleanupClientMsgs rubbish single = some t ∧ CleansUp single [block] t := by
  refine ⟨single_queued,?_⟩
  rintro ⟨t,run,cleans⟩
  have log : (i2cCleanupClientMsgs rubbish single).map Msgs.log =
      some (.next (some block)::passLog single.data block none) := by rfl
  rw [run] at log
  refine cleans.nonnull ?_
  rw [Option.some.inj log]
  decide

end BermudaOS.Dev.I2cClient
