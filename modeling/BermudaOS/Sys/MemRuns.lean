import Mathlib.Data.List.Pairwise
import BermudaOS.Sys.MemFree

/-! Whole runs of the heap over one arena. Clients hold the pointers they were
given, write inside their own payloads and free only what they hold; the free
list, the live blocks and the blocks no list reaches any more tile the arena. -/
namespace BermudaOS.Sys.Mem
open Lib.ByteMemory Lib.Chains Lib.Spans

/-- Data memory that `BermudaHeapInitBlock` can be given. -/
structure Arena where
  start : Nat
  size : Nat
  header : sizeofHeapNode < size
  clear : ioOffset ≤ start
  noWrap : start + size ≤ 2^16

/-- A pointer a client holds: the block behind it and the size it asked for. -/
structure Live where
  block : Block
  requested : Nat
  deriving DecidableEq,Repr

/-- `dropped` counts the calls of `BermudaHeapFree` that `Kept` leaves out. -/
structure State where
  heap : Heap
  live : List Live
  dropped : Nat

inductive Op
  | alloc (n : Nat)
  | free (ptr : Nat)
  | write (address : Nat) (value : UInt8)
  deriving DecidableEq,Repr

/-- The block has a payload, and the free list is not empty when it goes back. -/
def Kept (s : State) (l : Live) : Prop := 0 < l.block.size ∧ s.heap.bermudaHeapHead ≠ none

instance (s : State) (l : Live) : Decidable (Kept s l) := inferInstanceAs (Decidable (_ ∧ _))

def Owned (s : State) (address : Nat) : Prop :=
  ∃ l ∈ s.live, l.block.ptr ≤ address ∧ address < l.block.stop

instance (s : State) (address : Nat) : Decidable (Owned s address) :=
  inferInstanceAs (Decidable (∃ l ∈ s.live, _))

def blockOf (m : Memory) (ptr : Nat) : Block :=
  ⟨sizeSub ptr sizeofHeapNode,size m (sizeSub ptr sizeofHeapNode)⟩

/-- One call or one client store; `none` when a client breaks its side, the call
resets the system, or the call does not return. -/
def step (extram : Nat) (s : State) : Op → Option State
  | .alloc n =>
    match bermudaHeapAlloc extram s.heap n with
    | some (.block p,h) => some {s with heap := h,live := ⟨blockOf h.memory p,n⟩::s.live}
    | some (.null,h) => some {s with heap := h}
    | some (.exit,_) => none
    | none => none
  | .free ptr => do
    let l ← s.live.find? (fun l => l.block.ptr = ptr)
    let h ← bermudaHeapFree s.heap ptr
    return ⟨h,s.live.erase l,s.dropped + if Kept s l then 0 else 1⟩
  | .write address value =>
    if Owned s address then
      some {s with heap := {s.heap with memory := store8 s.heap.memory address value.toNat}}
    else none

/-- The states of the runs that start by initialising the arena on an empty heap. -/
inductive Reachable (extram : Nat) (a : Arena) : State → Prop
  | init {m : Memory} {h : Heap} (init : bermudaHeapInitBlock ⟨m,none,0⟩ a.start a.size = some h) :
      Reachable extram a ⟨h,[],0⟩
  | step {s t : State} {op : Op} (reach : Reachable extram a s) (run : step extram s op = some t) :
      Reachable extram a t

/-- One run, from the initialisation of the arena. -/
def runs (extram : Nat) (a : Arena) (m : Memory) (ops : List Op) : Option State := do
  let h ← bermudaHeapInitBlock ⟨m,none,0⟩ a.start a.size
  ops.foldlM (step extram) ⟨h,[],0⟩

theorem reachable_runs {extram : Nat} {a : Arena} {m : Memory} {ops : List Op} {s : State}
    (run : runs extram a m ops = some s) : Reachable extram a s := by
  obtain ⟨h,init,rest⟩ := Option.bind_eq_some_iff.mp run
  suffices later : ∀ (ops : List Op) (t : State), Reachable extram a t →
      ops.foldlM (step extram) t = some s → Reachable extram a s from later ops _ (.init init) rest
  intro ops
  induction ops with
  | nil =>
    intro t reach last
    cases last
    exact reach
  | cons op ops ih =>
    intro t reach last
    rw [List.foldlM_cons] at last
    obtain ⟨u,first,remaining⟩ := Option.bind_eq_some_iff.mp last
    exact ih u (reach.step first) remaining

def Apart (x y : Nat × Nat) : Prop := x.2 ≤ y.1 ∨ y.2 ≤ x.1

def payload (l : Live) : Nat × Nat := (l.block.ptr,l.block.stop)

def header (node : Nat) : Nat × Nat := (node,node + sizeofHeapNode)

def nodeStop (m : Memory) (node : Nat) : Nat := node + sizeofHeapNode + size m node

/-- A region as one block: its header, and the payload behind it. -/
def region (start size : Nat) : Block := ⟨start,size - sizeofHeapNode⟩

/-- Data memory that no earlier call has given to the heap. -/
structure Donatable (ps : List Block) (start size : Nat) : Prop where
  header : sizeofHeapNode < size
  clear : ioOffset ≤ start
  noWrap : start + size ≤ 2^16
  apart : ∀ p ∈ ps, p.stop ≤ start ∨ start + size ≤ p.start

instance (ps : List Block) (start size : Nat) : Decidable (Donatable ps start size) :=
  decidable_of_iff (sizeofHeapNode < size ∧ ioOffset ≤ start ∧ start + size ≤ 2^16 ∧
    ∀ p ∈ ps, p.stop ≤ start ∨ start + size ≤ p.start)
    ⟨fun ⟨header,clear,noWrap,apart⟩ => ⟨header,clear,noWrap,apart⟩,fun d => ⟨d.header,d.clear,d.noWrap,d.apart⟩⟩

/-- The blocks of the free list, of the clients and of no list cover the regions, each byte once. -/
structure Pooled (ps : List Block) (s : State) (fs lost : List Block) : Prop where
  list : FreeList s.heap.memory s.heap.bermudaHeapHead fs
  unlocked : s.heap.memLock = 0
  separated : Separated (spans fs)
  positive : ∀ f ∈ fs, 0 < f.size
  marked : ∀ l ∈ s.live, magic s.heap.memory l.block.start = bermudaMmAllocMagic ∧
    size s.heap.memory l.block.start = l.block.size
  enough : ∀ l ∈ s.live, l.requested ≤ l.block.size
  tiles : ∀ x, cover (spans (fs ++ (s.live.map Live.block ++ lost))) x = cover (spans ps) x
  regions : ∀ p ∈ ps, p.InSpace
  disjoint : ∀ x, cover (spans ps) x ≤ 1
  count : lost.length = s.dropped

namespace Pooled

variable {ps : List Block} {s : State} {fs lost : List Block}

theorem enters (pooled : Pooled ps s fs lost) : bermudaMutexEnter s.heap.memLock = some () := by
  rw [pooled.unlocked]
  rfl

theorem once (pooled : Pooled ps s fs lost) (x : Nat) :
    cover (spans (fs ++ (s.live.map Live.block ++ lost))) x ≤ 1 := by
  rw [pooled.tiles x]
  exact pooled.disjoint x

/-- Every byte of a block belongs to a region. -/
theorem donated (pooled : Pooled ps s fs lost) {b : Block} (member : b ∈ fs ++ (s.live.map Live.block ++ lost))
    {x : Nat} (low : b.start ≤ x) (high : x < b.stop) : ∃ p ∈ ps, p.start ≤ x ∧ x < p.stop := by
  have covered : 0 < cover (spans (fs ++ (s.live.map Live.block ++ lost))) x :=
    cover_pos.mpr ⟨b.span,List.mem_map_of_mem member,low,high⟩
  rw [pooled.tiles x] at covered
  obtain ⟨_,inside,bounds⟩ := cover_pos.mp covered
  obtain ⟨p,present,rfl⟩ := List.mem_map.mp inside
  exact ⟨p,present,bounds⟩

theorem inSpace (pooled : Pooled ps s fs lost) {b : Block} (member : b ∈ fs ++ (s.live.map Live.block ++ lost)) :
    b.InSpace := by
  have blt : b.start < b.stop := span_lt b
  obtain ⟨p,first,low,-⟩ := pooled.donated member (le_refl _) blt
  obtain ⟨q,last,-,high⟩ := pooled.donated member (x := b.stop - 1) (by omega) (by omega)
  have bottom := (pooled.regions p first).1
  have top := (pooled.regions q last).2
  exact ⟨by omega,by omega⟩

theorem apart (pooled : Pooled ps s fs lost) :
    (fs ++ (s.live.map Live.block ++ lost)).Pairwise (fun b c => b.stop ≤ c.start ∨ c.stop ≤ b.start) := by
  refine List.pairwise_map.mp (disjoint_of_cover ?_ pooled.once)
  intro s member
  obtain ⟨b,_,rfl⟩ := List.mem_map.mp member
  exact span_lt b

theorem live_apart (pooled : Pooled ps s fs lost) {l : Live} (member : l ∈ s.live) :
    ∀ f ∈ fs, f.stop ≤ l.block.start ∨ l.block.stop ≤ f.start := by
  obtain ⟨_,_,across⟩ := List.pairwise_append.mp pooled.apart
  intro f free
  exact across f free l.block (List.mem_append_left _ (List.mem_map_of_mem member))

theorem lives_apart (pooled : Pooled ps s fs lost) {l other : Live} (first : l ∈ s.live)
    (second : other ∈ s.live) (distinct : l ≠ other) :
    l.block.stop ≤ other.block.start ∨ other.block.stop ≤ l.block.start := by
  obtain ⟨_,used,_⟩ := List.pairwise_append.mp pooled.apart
  have pairs := List.pairwise_map.mp (List.pairwise_append.mp used).1
  have : Std.Symm (fun l other : Live => l.block.stop ≤ other.block.start ∨
      other.block.stop ≤ l.block.start) := ⟨fun _ _ side => side.symm⟩
  exact pairs.forall first second distinct

theorem mem_live (pooled : Pooled ps s fs lost) {l : Live} (member : l ∈ s.live) : l.block.InSpace :=
  pooled.inSpace (List.mem_append_right _ (List.mem_append_left _ (List.mem_map_of_mem member)))

theorem split_live (pooled : Pooled ps s fs lost) {l : Live} (member : l ∈ s.live) (x : Nat) :
    cover (spans (l.block::fs)) x + cover (spans ((s.live.erase l).map Live.block)) x + cover (spans lost) x =
      cover (spans ps) x := by
  have perm : ((s.live.map Live.block).map Block.span).Perm
      (((l::s.live.erase l).map Live.block).map Block.span) :=
    ((List.perm_cons_erase member).map Live.block).map Block.span
  have total := pooled.tiles x
  simp only [spans,List.map_append,cover_append] at total
  rw [cover_perm perm,List.map_cons,List.map_cons,cover_cons] at total
  simp only [spans,List.map_cons,cover_cons]
  omega

/-- The bytes of a live block are not touched by writes inside the free blocks. -/
theorem live_kept {m : Memory} (pooled : Pooled ps s fs lost) (within : WithinBlocks s.heap.memory m fs) {l : Live}
    (member : l ∈ s.live) {x : Nat} (low : l.block.start ≤ x) (high : x < l.block.stop) : m x = s.heap.memory x := by
  refine within x ?_
  have total := pooled.once x
  have positive : 0 < cover (spans (s.live.map Live.block)) x :=
    cover_pos.mpr ⟨l.block.span,List.mem_map_of_mem (List.mem_map_of_mem member),low,high⟩
  simp only [spans,List.map_append,cover_append] at total positive ⊢
  omega

/-- Nor are those of the other live blocks by writes inside one of them and the free blocks. -/
theorem others_kept {m : Memory} (pooled : Pooled ps s fs lost) {l other : Live} (member : l ∈ s.live)
    (within : WithinBlocks s.heap.memory m (l.block::fs)) (remains : other ∈ s.live.erase l) {x : Nat}
    (low : other.block.start ≤ x) (high : x < other.block.stop) : m x = s.heap.memory x := by
  refine within x ?_
  have total := pooled.split_live member x
  have once := pooled.disjoint x
  have positive : 0 < cover (spans ((s.live.erase l).map Live.block)) x :=
    cover_pos.mpr ⟨other.block.span,List.mem_map_of_mem (List.mem_map_of_mem remains),low,high⟩
  omega

theorem kept_sameHeader {m other : Memory} {b : Block} (kept : ∀ x, b.start ≤ x → x < b.stop → other x = m x) :
    SameHeader m other b.start := by
  refine agree_sameHeader fun x low high => kept x low ?_
  rw [stop_eq]
  omega

theorem others_sameHeader (pooled : Pooled ps s fs lost) {l other : Live} {m : Memory}
    (member : l ∈ s.live) (within : WithinBlocks s.heap.memory m (l.block::fs))
    (remains : other ∈ s.live.erase l) : SameHeader s.heap.memory m other.block.start :=
  kept_sameHeader fun _ low high => pooled.others_kept member within remains low high

theorem take (pooled : Pooled ps s fs lost) {extram n : Nat} {rest : List Block} {b : Block}
    (request : n ≤ mem + extram) (found : takeFit n fs = some (b,rest)) :
    ∃ h, bermudaHeapAlloc extram s.heap n = some (.block b.ptr,h) ∧
      Pooled ps {s with heap := h,live := ⟨b,n⟩::s.live} rest lost := by
  obtain ⟨used,call,list,marked,sized,unlocked,within⟩ :=
    alloc_block pooled.list pooled.unlocked request pooled.positive found
  refine ⟨used,call,list,unlocked,takeFit_separated found pooled.separated,
    takeFit_positive found pooled.positive,?_,?_,?_,pooled.regions,pooled.disjoint,pooled.count⟩
  · refine List.forall_mem_cons.mpr ⟨⟨marked,sized⟩,?_⟩
    intro l member
    obtain ⟨sameMagic,_,sameSize⟩ := kept_sameHeader fun _ low high => pooled.live_kept within member low high
    dsimp only
    rw [sameMagic,sameSize]
    exact pooled.marked l member
  · exact List.forall_mem_cons.mpr ⟨(takeFit_size found).1,pooled.enough⟩
  · intro x
    rw [← pooled.tiles x]
    have moved := takeFit_cover found x
    simp only [spans,List.map_append,List.map_cons,List.cons_append,cover_append,cover_cons] at moved ⊢
    omega

theorem blockOf_live (pooled : Pooled ps s fs lost) {l : Live} (member : l ∈ s.live) :
    blockOf s.heap.memory l.block.ptr = l.block := by
  simp only [blockOf,ptr_node (pooled.mem_live member),(pooled.marked l member).2]

theorem give (pooled : Pooled ps s fs lost) {l : Live} (member : l ∈ s.live) (kept : Kept s l) :
    ∃ h, bermudaHeapFree s.heap l.block.ptr = some h ∧
      Pooled ps ⟨h,s.live.erase l,s.dropped⟩ (giveBack l.block fs) lost := by
  obtain ⟨marked,sized⟩ := pooled.marked l member
  have some_free : fs ≠ [] := by
    rintro rfl
    exact kept.2 pooled.list.head
  obtain ⟨freed,call,list,unlocked,within⟩ := free_block pooled.list pooled.unlocked pooled.separated
    some_free marked sized kept.1 (pooled.mem_live member) (pooled.live_apart member)
  refine ⟨freed,call,list,unlocked,giveBack_separated pooled.separated (pooled.live_apart member),
    giveBack_positive kept.1 pooled.positive,?_,?_,?_,pooled.regions,pooled.disjoint,pooled.count⟩
  · intro other remains
    obtain ⟨sameMagic,_,sameSize⟩ := pooled.others_sameHeader member within remains
    dsimp only
    rw [sameMagic,sameSize]
    exact pooled.marked other (List.mem_of_mem_erase remains)
  · exact fun other remains => pooled.enough other (List.mem_of_mem_erase remains)
  · intro x
    rw [← pooled.split_live member x,← giveBack_cover]
    simp only [spans,List.map_append,cover_append]
    omega

/-- A freed block without a payload, or one that finds the free list empty, is linked nowhere. -/
theorem lose (pooled : Pooled ps s fs lost) {l : Live} (member : l ∈ s.live) (unkept : ¬Kept s l) :
    ∃ h, bermudaHeapFree s.heap l.block.ptr = some h ∧
      Pooled ps ⟨h,s.live.erase l,s.dropped + 1⟩ fs (l.block::lost) := by
  obtain ⟨marked,sized⟩ := pooled.marked l member
  have inside := pooled.mem_live member
  have total (x : Nat) : cover (spans (fs ++ ((s.live.erase l).map Live.block ++ l.block::lost))) x =
      cover (spans ps) x := by
    rw [← pooled.split_live member x]
    simp only [spans,List.map_append,List.map_cons,cover_append,cover_cons]
    omega
  have enough : ∀ other ∈ s.live.erase l, other.requested ≤ other.block.size :=
    fun other remains => pooled.enough other (List.mem_of_mem_erase remains)
  have count : (l.block::lost).length = s.dropped + 1 := congrArg (· + 1) pooled.count
  by_cases head : s.heap.bermudaHeapHead = none
  · obtain ⟨freed,call,last,unlocked,within⟩ := free_lost head pooled.unlocked marked inside
    have alone : fs = [] := by
      have first := pooled.list.head
      rw [head] at first
      simpa using first.symm
    subst alone
    refine ⟨freed,call,⟨last,by simp,List.Pairwise.nil,by simp⟩,unlocked,pooled.separated,by simp,
      ?_,enough,total,pooled.regions,pooled.disjoint,count⟩
    intro other remains
    have blocks := within_blocks within (List.mem_singleton_self l.block) le_rfl
      (by rw [stop_eq]; omega)
    obtain ⟨sameMagic,_,sameSize⟩ := pooled.others_sameHeader member blocks remains
    dsimp only
    rw [sameMagic,sameSize]
    exact pooled.marked other (List.mem_of_mem_erase remains)
  · have empty : l.block.size = 0 := by
      by_contra positive
      exact unkept ⟨by omega,head⟩
    exact ⟨s.heap,free_refused pooled.list pooled.unlocked marked sized empty inside,pooled.list,
      pooled.unlocked,pooled.separated,pooled.positive,
      fun other remains => pooled.marked other (List.mem_of_mem_erase remains),enough,total,pooled.regions,
      pooled.disjoint,count⟩

theorem store (pooled : Pooled ps s fs lost) {address : Nat} (owned : Owned s address) (v : UInt8) :
    Pooled ps {s with heap := {s.heap with memory := store8 s.heap.memory address v.toNat}} fs lost := by
  obtain ⟨l,member,low,high⟩ := owned
  have within := store8_within s.heap.memory address v.toNat
  have outside {b : Block} (apart : b.stop ≤ l.block.start ∨ l.block.stop ≤ b.start) :
      SameHeader s.heap.memory (store8 s.heap.memory address v.toNat) b.start := by
    refine within_sameHeader within ?_
    have room := stop_eq b
    simp only [Block.ptr] at low
    omega
  refine ⟨pooled.list.same fun f free => outside (pooled.live_apart member f free),pooled.unlocked,
    pooled.separated,pooled.positive,?_,pooled.enough,pooled.tiles,pooled.regions,pooled.disjoint,pooled.count⟩
  intro other present
  have same : SameHeader s.heap.memory (store8 s.heap.memory address v.toNat) other.block.start := by
    by_cases self : other = l
    · subst self
      exact within_sameHeader within (.inl low)
    · exact outside (pooled.lives_apart present member self)
  dsimp only
  rw [same.1,same.2.2]
  exact pooled.marked other present

theorem alloc_returns {extram : Nat} (pooled : Pooled ps s fs lost) (n : Nat) :
    bermudaHeapAlloc extram s.heap n ≠ none := by
  by_cases request : n ≤ mem + extram
  · cases found : takeFit n fs with
    | none => simp [alloc_exit pooled.list pooled.enters request found]
    | some taken =>
      obtain ⟨h,call,_⟩ := pooled.take request found
      simp [call]
  · simp [alloc_null (show mem + extram < n by omega)]

theorem free_returns (pooled : Pooled ps s fs lost) {l : Live} (member : l ∈ s.live) :
    bermudaHeapFree s.heap l.block.ptr ≠ none := by
  by_cases kept : Kept s l
  · obtain ⟨h,call,_⟩ := pooled.give member kept
    simp [call]
  · obtain ⟨h,call,_⟩ := pooled.lose member kept
    simp [call]

theorem use {extram : Nat} {t : State} {op : Op} (pooled : Pooled ps s fs lost) (run : step extram s op = some t) :
    ∃ gs gone, Pooled ps t gs gone := by
  cases op with
  | alloc n =>
    by_cases request : n ≤ mem + extram
    · cases found : takeFit n fs with
      | none =>
        rw [step,alloc_exit pooled.list pooled.enters request found] at run
        simp at run
      | some taken =>
        obtain ⟨h,call,next⟩ := pooled.take request found
        have block := next.blockOf_live (l := ⟨taken.1,n⟩) (by simp)
        dsimp only at block
        rw [step,call] at run
        simp only [block] at run
        cases run
        exact ⟨_,_,next⟩
    · rw [step,alloc_null (by omega)] at run
      cases run
      exact ⟨fs,lost,pooled⟩
  | free ptr =>
    simp only [step,Option.bind_eq_bind,Option.bind_eq_some_iff] at run
    obtain ⟨l,found,h,call,result⟩ := run
    have member := List.mem_of_find?_eq_some found
    have pointer : l.block.ptr = ptr := by simpa using List.find?_some found
    subst pointer
    by_cases kept : Kept s l
    · obtain ⟨freed,same,next⟩ := pooled.give member kept
      rw [same] at call
      cases call
      rw [if_pos kept] at result
      cases result
      exact ⟨_,_,next⟩
    · obtain ⟨freed,same,next⟩ := pooled.lose member kept
      rw [same] at call
      cases call
      rw [if_neg kept] at result
      cases result
      exact ⟨_,_,next⟩
  | write address v =>
    rw [step] at run
    split_ifs at run with owned
    cases run
    exact ⟨fs,lost,pooled.store owned v⟩

/-! What clients read of a state -/

theorem payloads_apart (pooled : Pooled ps s fs lost) :
    s.live.Pairwise (fun l other => Apart (payload l) (payload other)) := by
  obtain ⟨_,used,_⟩ := List.pairwise_append.mp pooled.apart
  refine (List.pairwise_map.mp (List.pairwise_append.mp used).1).imp ?_
  intro l other side
  simp only [Apart,payload,Block.ptr]
  omega

theorem payload_enough (pooled : Pooled ps s fs lost) {l : Live} (member : l ∈ s.live) :
    (payload l).1 + l.requested ≤ (payload l).2 := by
  have fits := pooled.enough l member
  simp only [payload,Block.ptr,Block.stop]
  omega

theorem live_recorded (pooled : Pooled ps s fs lost) {l : Live} (member : l ∈ s.live) :
    magic s.heap.memory l.block.start = bermudaMmAllocMagic ∧ nodeStop s.heap.memory l.block.start = l.block.stop := by
  obtain ⟨marked,sized⟩ := pooled.marked l member
  exact ⟨marked,by rw [nodeStop,sized]; rfl⟩

theorem headers_apart (pooled : Pooled ps s fs lost) {l other : Live} (member : l ∈ s.live) (present : other ∈ s.live) :
    Apart (payload l) (header other.block.start) := by
  simp only [Apart,payload,header,Block.ptr]
  by_cases self : l = other
  · subst self
    exact .inr le_rfl
  · have side := pooled.lives_apart member present self
    simp only [stop_eq,sizeofHeapNode] at side ⊢
    omega

theorem nodeStop_free (pooled : Pooled ps s fs lost) {f : Block} (member : f ∈ fs) :
    nodeStop s.heap.memory f.start = f.stop := by
  rw [nodeStop,(pooled.list.header f member).2]
  rfl

/-- The nodes of the free list are marked free, lie apart from the live blocks, and no two of them touch. -/
theorem free_nodes (pooled : Pooled ps s fs lost) :
    (∀ node ∈ fs.map Block.start, magic s.heap.memory node = bermudaMmFreeMagic ∧
      ∃ f ∈ fs, f.start = node ∧ nodeStop s.heap.memory node = f.stop) ∧
    (∀ node ∈ fs.map Block.start, ∀ l ∈ s.live,
      Apart (node,nodeStop s.heap.memory node) (l.block.start,l.block.stop)) ∧
    (fs.map Block.start).Pairwise (fun x y => nodeStop s.heap.memory x < y) := by
  refine ⟨?_,?_,?_⟩
  · intro node member
    obtain ⟨f,free,rfl⟩ := List.mem_map.mp member
    exact ⟨(pooled.list.header f free).1,f,free,rfl,pooled.nodeStop_free free⟩
  · intro node member l present
    obtain ⟨f,free,rfl⟩ := List.mem_map.mp member
    rw [pooled.nodeStop_free free]
    exact pooled.live_apart present f free
  · refine List.pairwise_map.mpr ((List.pairwise_map.mp pooled.separated.2).imp_of_mem ?_)
    intro f g free _ gap
    rw [pooled.nodeStop_free free]
    exact gap

end Pooled

namespace Donatable

variable {ps : List Block} {start len : Nat}

theorem stop (fits : Donatable ps start len) : (region start len).stop = start + len := by
  have room := fits.header
  simp only [region,Block.stop]
  omega

theorem inSpace (fits : Donatable ps start len) : (region start len).InSpace :=
  ⟨fits.clear,fits.stop ▸ fits.noWrap⟩

theorem payload (fits : Donatable ps start len) : sizeSub len sizeofHeapNode = len - sizeofHeapNode := by
  have room := fits.header
  have high := fits.noWrap
  simp only [sizeSub,sizeofHeapNode] at room ⊢
  omega

theorem outside (fits : Donatable ps start len) {x : Nat} (low : start ≤ x) (high : x < start + len) :
    cover (spans ps) x = 0 := by
  by_contra covered
  obtain ⟨_,member,bounds⟩ := cover_pos.mp (Nat.pos_of_ne_zero covered)
  obtain ⟨p,present,rfl⟩ := List.mem_map.mp member
  have apart := fits.apart p present
  simp only [Block.span] at bounds
  omega

theorem disjoint (fits : Donatable ps start len) (once : ∀ x, cover (spans ps) x ≤ 1) (x : Nat) :
    cover (spans (region start len::ps)) x ≤ 1 := by
  have before := once x
  simp only [spans,List.map_cons,cover_cons,Block.span,fits.stop]
  by_cases inside : start ≤ x ∧ x < start + len
  · have free := fits.outside inside.1 inside.2
    simp only [spans] at free
    simp [free]
    split <;> omega
  · rw [if_neg (by simpa [region] using inside)]
    exact before

end Donatable

namespace Pooled

variable {ps : List Block} {s : State} {fs lost : List Block} {start len : Nat}

/-- A new region lies apart from every block there is. -/
theorem region_apart (pooled : Pooled ps s fs lost) (fits : Donatable ps start len) :
    ∀ b ∈ fs ++ (s.live.map Live.block ++ lost), b.stop ≤ start ∨ start + len ≤ b.start := by
  intro b member
  by_contra overlap
  have blt : b.start < b.stop := span_lt b
  have room := fits.header
  obtain ⟨p,present,bounds⟩ := pooled.donated member (x := max b.start start) (by omega) (by omega)
  have apart := fits.apart p present
  omega

/-- A region that is given while no block is free becomes the free list. -/
theorem donate_empty (pooled : Pooled ps s [] lost) (fits : Donatable ps start len) :
    ∃ h, bermudaHeapInitBlock s.heap start len = some h ∧
      Pooled (region start len::ps) {s with heap := h} [region start len] lost := by
  have low := fits.clear
  have high := fits.noWrap
  have room := fits.header
  simp only [ioOffset,sizeofHeapNode] at low room
  have none_free : s.heap.bermudaHeapHead = none := pooled.list.head
  have head : toPtr start = some start := toPtr_some (by omega)
  have within : Within s.heap.memory (bermudaHeapInitHeader s.heap.memory start (len - sizeofHeapNode)) start (start+5) :=
    ((setMagic_within _ start _).trans (setSize_within _ start _)).trans (setNext_within _ start _)
  refine ⟨bermudaMutexRelease ⟨bermudaHeapInitHeader s.heap.memory start (len - sizeofHeapNode),some start,0⟩,?_,
    ⟨⟨?_,?_,by simp,?_⟩,rfl,?_,?_,?_,pooled.enough,?_,?_,fits.disjoint pooled.disjoint,pooled.count⟩⟩
  · rw [bermudaHeapInitBlock,pooled.enters]
    simp [none_free,fits.payload,head,bermudaMutexRelease]
  · exact ⟨rfl,next_setNext _ _ _ (by simp)⟩
  · refine List.forall_mem_singleton.mpr ⟨?_,?_⟩
    · simp only [bermudaMutexRelease,bermudaHeapInitHeader,region,magic_setNext,magic_setSize]
      exact magic_setMagic _ _ _ (by decide)
    · simp only [bermudaMutexRelease,bermudaHeapInitHeader,region,size_setNext]
      exact size_setSize _ _ _ (by omega)
  · exact List.forall_mem_singleton.mpr fits.inSpace
  · simp [spans,span_lt,Separated]
  · simp only [List.forall_mem_singleton,region,sizeofHeapNode]
    omega
  · intro l member
    have inside : l.block ∈ s.live.map Live.block ++ lost := List.mem_append_left _ (List.mem_map_of_mem member)
    have side := pooled.region_apart fits l.block inside
    have long := stop_eq l.block
    have same : SameHeader s.heap.memory _ l.block.start := within_sameHeader within (by omega)
    obtain ⟨sameMagic,_,sameSize⟩ := same
    simp only [bermudaMutexRelease]
    rw [sameMagic,sameSize]
    exact pooled.marked l member
  · intro x
    have total := pooled.tiles x
    simp only [spans,List.nil_append,List.map_append,List.map_cons,List.map_nil,cover_append,cover_cons,cover_nil] at total ⊢
    omega
  · exact List.forall_mem_cons.mpr ⟨fits.inSpace,pooled.regions⟩

end Pooled

/-! One arena -/

/-- The blocks tile the arena. -/
abbrev Tiled (a : Arena) (s : State) (fs lost : List Block) : Prop := Pooled [region a.start a.size] s fs lost

theorem Arena.fits (a : Arena) : Donatable [] a.start a.size := ⟨a.header,a.clear,a.noWrap,by simp⟩

theorem Tiled.bytes {a : Arena} {s : State} {fs lost : List Block} (tiled : Tiled a s fs lost) (x : Nat) :
    cover (spans (fs ++ (s.live.map Live.block ++ lost))) x = if a.start ≤ x ∧ x < a.start + a.size then 1 else 0 := by
  rw [tiled.tiles x]
  simp only [spans,List.map_cons,List.map_nil,cover_cons,cover_nil,Block.span,a.fits.stop,Nat.zero_add]
  rfl

theorem Tiled.inside {a : Arena} {s : State} {fs lost : List Block} (tiled : Tiled a s fs lost) {b : Block}
    (member : b ∈ fs ++ (s.live.map Live.block ++ lost)) : a.start ≤ b.start ∧ b.stop ≤ a.start + a.size := by
  have within {x : Nat} (bounds : b.start ≤ x ∧ x < b.stop) :=
    tiles_inside tiled.bytes (List.mem_map_of_mem member) (s := b.span) bounds
  have blt : b.start < b.stop := span_lt b
  have first := within (x := b.start) (by omega)
  have last := within (x := b.stop - 1) (by omega)
  omega

theorem pooled_empty (m : Memory) : Pooled [] ⟨⟨m,none,0⟩,[],0⟩ [] [] where
  list := ⟨rfl,by simp,List.Pairwise.nil,by simp⟩
  unlocked := rfl
  separated := by simp [Separated]
  positive := by simp
  marked := by simp
  enough := by simp
  tiles := fun _ => rfl
  regions := by simp
  disjoint := by simp
  count := rfl

theorem reachable_tiled {extram : Nat} {a : Arena} {s : State} (reach : Reachable extram a s) :
    ∃ fs lost, Tiled a s fs lost := by
  induction reach with
  | @init m h init =>
    obtain ⟨first,call,tiled⟩ := (pooled_empty m).donate_empty a.fits
    rw [init] at call
    cases call
    exact ⟨_,_,tiled⟩
  | step _ run ih =>
    obtain ⟨fs,lost,tiled⟩ := ih
    exact tiled.use run

/-- What clients of the heap rely on, read from the memory of a state. -/
structure HeapSafe (extram : Nat) (a : Arena) (s : State) : Prop where
  disjoint : s.live.Pairwise (fun l other => Apart (payload l) (payload other))
  inside : ∀ l ∈ s.live, a.start ≤ (payload l).1 ∧ (payload l).2 ≤ a.start + a.size
  enough : ∀ l ∈ s.live, (payload l).1 + l.requested ≤ (payload l).2
  recorded : ∀ l ∈ s.live, magic s.heap.memory l.block.start = bermudaMmAllocMagic ∧
    nodeStop s.heap.memory l.block.start = l.block.stop
  headers : ∀ l ∈ s.live, ∀ other ∈ s.live, Apart (payload l) (header other.block.start)
  free : ∃ nodes, Chain (next s.heap.memory) s.heap.bermudaHeapHead nodes ∧ nodes.Nodup ∧
    nodes.Pairwise (fun x y => x < y) ∧
    (∀ node ∈ nodes, magic s.heap.memory node = bermudaMmFreeMagic ∧
      a.start ≤ node ∧ nodeStop s.heap.memory node ≤ a.start + a.size) ∧
    (∀ node ∈ nodes, ∀ l ∈ s.live,
      Apart (node,nodeStop s.heap.memory node) (l.block.start,l.block.stop)) ∧
    nodes.Pairwise (fun x y => nodeStop s.heap.memory x < y)
  allocReturns : ∀ n, bermudaHeapAlloc extram s.heap n ≠ none
  freeReturns : ∀ l ∈ s.live, bermudaHeapFree s.heap l.block.ptr ≠ none

/-- Every state of every run is safe for the clients that hold pointers. -/
theorem heap_safe {extram : Nat} {a : Arena} {s : State} (reach : Reachable extram a s) :
    HeapSafe extram a s := by
  obtain ⟨fs,lost,tiled⟩ := reachable_tiled reach
  obtain ⟨marked,sides,gaps⟩ := tiled.free_nodes
  refine ⟨tiled.payloads_apart,?_,fun l => tiled.payload_enough,fun l => tiled.live_recorded,
    fun l member other => tiled.headers_apart member,⟨fs.map Block.start,tiled.list.chain,chain_nodup tiled.list.chain,
    ?_,?_,sides,gaps⟩,tiled.alloc_returns,fun l => tiled.free_returns⟩
  · intro l member
    have bounds := tiled.inside (List.mem_append_right fs (List.mem_append_left lost (List.mem_map_of_mem member)))
    simp only [payload,Block.ptr]
    omega
  · refine List.pairwise_map.mpr (tiled.list.ordered.imp ?_)
    intro f g order
    exact lt_of_lt_of_le (span_lt f) order
  · intro node member
    obtain ⟨magic,f,free,rfl,stop⟩ := marked node member
    rw [stop]
    exact ⟨magic,tiled.inside (List.mem_append_left _ free)⟩

/-- A small arena behind the I/O registers. -/
def lowArena : Arena := ⟨0x100,0x40,by decide,by decide,by decide⟩

theorem heap_safe_lowArena : ∃ s : State, s.live.length = 2 ∧ HeapSafe 0 lowArena s :=
  let ops : List Op := [.alloc 4,.alloc 0,.alloc 7,.write 0x107 0x5A,.free 0x105]
  ⟨(runs 0 lowArena (fun _ => 0) ops).get (by decide +kernel),by decide +kernel,
    heap_safe (reachable_runs (Option.some_get _).symm)⟩

/-- The free list is one node at the arena start with the whole payload. -/
def Whole (a : Arena) (s : State) : Prop :=
  Chain (next s.heap.memory) s.heap.bermudaHeapHead [a.start] ∧
    size s.heap.memory a.start = a.size - sizeofHeapNode

/-- With nothing live the arena is whole again exactly when every free was kept. -/
theorem heap_conserved {extram : Nat} {a : Arena} {s : State} (reach : Reachable extram a s)
    (drained : s.live = []) : Whole a s ↔ s.dropped = 0 := by
  obtain ⟨fs,lost,tiled⟩ := reachable_tiled reach
  have room := a.header
  have tiles := tiled.bytes
  simp only [drained,List.map_nil,List.nil_append] at tiles
  have stop : (⟨a.start,a.size - sizeofHeapNode⟩ : Block).stop = a.start + a.size := by
    simp only [stop_eq,sizeofHeapNode] at room ⊢
    omega
  constructor
  · rintro ⟨chain,sized⟩
    obtain ⟨f,rfl,start⟩ := List.map_eq_singleton_iff.mp (chain_unique tiled.list.chain chain)
    have whole : f = ⟨a.start,a.size - sizeofHeapNode⟩ := by
      have recorded := (tiled.list.header f (by simp)).2
      rw [start,sized] at recorded
      rw [← start,recorded]
    subst whole
    have empty : lost = [] := by
      rw [List.eq_nil_iff_forall_not_mem]
      intro b member
      have total := tiles b.start
      have positive : 0 < cover (spans lost) b.start :=
        cover_pos.mpr ⟨b.span,List.mem_map_of_mem member,le_rfl,span_lt b⟩
      simp only [List.singleton_append,spans_cons,cover_cons,Block.span,stop] at total
      split at total <;> omega
    rw [← tiled.count,empty]
    rfl
  · intro none_dropped
    have empty : lost = [] := List.length_eq_zero_iff.mp (tiled.count.trans none_dropped)
    subst empty
    rw [List.append_nil] at tiles
    have region : a.start < a.start + a.size := by omega
    obtain ⟨f,rfl,span⟩ :=
      List.map_eq_singleton_iff.mp (separated_whole region tiled.separated tiles)
    obtain ⟨start,high⟩ := Prod.mk.inj span
    refine ⟨?_,?_⟩
    · rw [← start]
      exact tiled.list.chain
    · rw [← start,(tiled.list.header f (by simp)).2]
      simp only [stop_eq,sizeofHeapNode] at high ⊢
      omega

theorem heap_conserved_lowArena : ∃ s : State, s.live = [] ∧ (Whole lowArena s ↔ s.dropped = 0) :=
  let ops : List Op := [.alloc 4,.alloc 7,.free 0x105,.alloc 20,.free 0x10E,.free 0x11A]
  ⟨(runs 0 lowArena (fun _ => 0) ops).get (by decide +kernel),by decide +kernel,
    heap_conserved (reachable_runs (Option.some_get _).symm) (by decide +kernel)⟩

/-- The run that takes the whole arena in one block and gives it back. -/
def emptied : State :=
  (runs 0 lowArena (fun _ => 0) [.alloc 0x3B,.free 0x105]).get (by decide +kernel)

/-- The block that comes back to an empty free list is linked nowhere. -/
theorem arena_lost : ¬∀ (extram : Nat) (a : Arena) (s : State),
    Reachable extram a s → s.live = [] → Whole a s := by
  intro conserved
  obtain ⟨chain,_⟩ := conserved 0 lowArena emptied (reachable_runs (Option.some_get _).symm)
    (by decide +kernel)
  have head : emptied.heap.bermudaHeapHead = none := by decide +kernel
  rw [head] at chain
  cases chain.1

end BermudaOS.Sys.Mem
