import BermudaOS.Sys.MemAccounts

/-! A heap over several regions of data memory, each given to `BermudaHeapInitBlock` at any time.
The first region becomes the free list, and so does one that is given when every block is in use;
any other goes through `BermudaHeapFree`, which joins it with the free blocks beside it. -/
namespace BermudaOS.Sys.Mem
open Lib.ByteMemory Lib.Chains Lib.Spans

structure Pools where
  state : State
  donated : List Block

inductive PoolOp
  | initBlock (start size : Nat)
  | use (op : Op)
  deriving DecidableEq,Repr

def poolStep (extram : Nat) (p : Pools) : PoolOp → Option Pools
  | .initBlock start size =>
    if Donatable p.donated start size then do
      let h ← bermudaHeapInitBlock p.state.heap start size
      return ⟨{p.state with heap := h},region start size::p.donated⟩
    else none
  | .use op => (step extram p.state op).map fun s => {p with state := s}

/-- The states of the runs that start before any region was given to the heap. -/
inductive PoolReachable (extram : Nat) : Pools → Prop
  | empty (m : Memory) : PoolReachable extram ⟨⟨⟨m,none,0⟩,[],0⟩,[]⟩
  | step {p q : Pools} {op : PoolOp} (reach : PoolReachable extram p) (run : poolStep extram p op = some q) :
      PoolReachable extram q

def poolRuns (extram : Nat) (m : Memory) (ops : List PoolOp) : Option Pools :=
  ops.foldlM (poolStep extram) ⟨⟨⟨m,none,0⟩,[],0⟩,[]⟩

theorem reachable_poolRuns {extram : Nat} {m : Memory} {ops : List PoolOp} {p : Pools}
    (run : poolRuns extram m ops = some p) : PoolReachable extram p := by
  suffices later : ∀ (ops : List PoolOp) (q : Pools), PoolReachable extram q →
      ops.foldlM (poolStep extram) q = some p → PoolReachable extram p from later ops _ (.empty m) run
  intro ops
  induction ops with
  | nil =>
    intro q reach last
    cases last
    exact reach
  | cons op ops ih =>
    intro q reach last
    rw [List.foldlM_cons] at last
    obtain ⟨r,first,remaining⟩ := Option.bind_eq_some_iff.mp last
    exact ih r (reach.step first) remaining

namespace Pooled

variable {ps : List Block} {s : State} {fs lost : List Block} {start len : Nat}

/-- Any other region goes back like a block in use, and is joined with the free blocks beside it. -/
theorem donate_more (pooled : Pooled ps s fs lost) (fits : Donatable ps start len) (some_free : fs ≠ []) :
    ∃ h, bermudaHeapInitBlock s.heap start len = some h ∧
      Pooled (region start len::ps) {s with heap := h} (giveBack (region start len) fs) lost := by
  have low := fits.clear
  have high := fits.noWrap
  have room := fits.header
  simp only [ioOffset,sizeofHeapNode] at low room
  obtain ⟨first,head⟩ : ∃ first, s.heap.bermudaHeapHead = some first := by
    cases fs with
    | nil => exact absurd rfl some_free
    | cons f _ => exact ⟨f.start,pooled.list.head⟩
  let m := setMagic (bermudaHeapInitHeader s.heap.memory start (len - sizeofHeapNode)) start bermudaMmAllocMagic
  have within : Within s.heap.memory m start (start+5) :=
    (((setMagic_within _ start _).trans (setSize_within _ start _)).trans (setNext_within _ start _)).trans
      (setMagic_within _ start _)
  have apart := pooled.region_apart fits
  have same {b : Block} (member : b ∈ fs ++ (s.live.map Live.block ++ lost)) : SameHeader s.heap.memory m b.start := by
    have side := apart b member
    have long := stop_eq b
    exact within_sameHeader within (by omega)
  have marked : magic m (region start len).start = bermudaMmAllocMagic := magic_setMagic _ _ _ (by decide)
  have sized : size m (region start len).start = (region start len).size := by
    simp only [m,region,size_setMagic,bermudaHeapInitHeader,size_setNext]
    exact size_setSize _ _ _ (by omega)
  have list : FreeList m s.heap.bermudaHeapHead fs :=
    pooled.list.same fun f free => same (List.mem_append_left _ free)
  have sides : ∀ f ∈ fs, f.stop ≤ (region start len).start ∨ (region start len).stop ≤ f.start := by
    intro f free
    rw [fits.stop]
    exact apart f (List.mem_append_left _ free)
  obtain ⟨freed,call,linked,unlocked,writes⟩ := free_block (h := ⟨m,s.heap.bermudaHeapHead,s.heap.memLock⟩) list pooled.unlocked
    pooled.separated some_free marked sized (by simp only [region,sizeofHeapNode]; omega) fits.inSpace sides
  have pointer : ptrAdd start sizeofHeapNode = (region start len).ptr :=
    ptrAdd_ptr fits.inSpace (by simp only [region,sizeofHeapNode]; omega)
  refine ⟨freed,?_,linked,unlocked,giveBack_separated pooled.separated sides,
    giveBack_positive (by simp only [region,sizeofHeapNode]; omega) pooled.positive,?_,pooled.enough,?_,
    List.forall_mem_cons.mpr ⟨fits.inSpace,pooled.regions⟩,fits.disjoint pooled.disjoint,pooled.count⟩
  · have released : bermudaMutexRelease freed = freed := by rw [bermudaMutexRelease,← unlocked]
    rw [bermudaHeapInitBlock,pooled.enters]
    simp only [Option.bind_eq_bind,Option.bind_some,head,fits.payload,pointer]
    rw [head] at call
    rw [call,Option.bind_some,released]
    rfl
  · intro l member
    have kept : SameHeader m freed.memory l.block.start := by
      refine Pooled.kept_sameHeader fun x left right => writes x ?_
      have inside : l.block ∈ fs ++ (s.live.map Live.block ++ lost) :=
        List.mem_append_right _ (List.mem_append_left _ (List.mem_map_of_mem member))
      have side := apart l.block inside
      have total := pooled.once x
      have positive : 0 < cover (spans (s.live.map Live.block)) x :=
        cover_pos.mpr ⟨l.block.span,List.mem_map_of_mem (List.mem_map_of_mem member),left,right⟩
      simp only [spans,List.map_append,List.map_cons,cover_append,cover_cons,Block.span,fits.stop] at total positive ⊢
      rw [if_neg (by simp only [region]; omega)]
      omega
    obtain ⟨firstMagic,_,firstSize⟩ := same (b := l.block)
      (List.mem_append_right _ (List.mem_append_left _ (List.mem_map_of_mem member)))
    obtain ⟨sameMagic,_,sameSize⟩ := kept
    dsimp only
    rw [sameMagic,sameSize,firstMagic,firstSize]
    exact pooled.marked l member
  · intro x
    have total := pooled.tiles x
    have moved := giveBack_cover (region start len) fs x
    simp only [spans,List.map_append,List.map_cons,cover_append,cover_cons] at total moved ⊢
    omega

theorem donate (pooled : Pooled ps s fs lost) (fits : Donatable ps start len) :
    ∃ h, bermudaHeapInitBlock s.heap start len = some h ∧
      Pooled (region start len::ps) {s with heap := h} (giveBack (region start len) fs) lost := by
  cases fs with
  | nil => exact pooled.donate_empty fits
  | cons f fs => exact pooled.donate_more fits (by simp)

theorem donate_returns (pooled : Pooled ps s fs lost) (fits : Donatable ps start len) :
    bermudaHeapInitBlock s.heap start len ≠ none := by
  obtain ⟨h,call,_⟩ := pooled.donate fits
  simp [call]

end Pooled

theorem poolStep_pooled {extram : Nat} {p q : Pools} {op : PoolOp} {fs lost : List Block}
    (pooled : Pooled p.donated p.state fs lost) (run : poolStep extram p op = some q) :
    ∃ gs gone, Pooled q.donated q.state gs gone := by
  cases op with
  | initBlock start len =>
    rw [poolStep] at run
    split_ifs at run with fits
    obtain ⟨h,call,next⟩ := pooled.donate fits
    rw [call] at run
    cases run
    exact ⟨_,_,next⟩
  | use op =>
    obtain ⟨s,ran,rfl⟩ := Option.map_eq_some_iff.mp run
    exact pooled.use ran

theorem reachable_pooled {extram : Nat} {p : Pools} (reach : PoolReachable extram p) :
    ∃ fs lost, Pooled p.donated p.state fs lost := by
  induction reach with
  | empty m => exact ⟨[],[],pooled_empty m⟩
  | step _ run ih =>
    obtain ⟨fs,lost,pooled⟩ := ih
    exact poolStep_pooled pooled run

/-- Every byte of the span belongs to one of the regions. -/
def Donated (ps : List Block) (span : Nat × Nat) : Prop := ∀ x, span.1 ≤ x → x < span.2 → ∃ p ∈ ps, p.start ≤ x ∧ x < p.stop

/-- What clients of a heap over several regions rely on, read from the memory of a state. -/
structure PoolSafe (extram : Nat) (p : Pools) : Prop where
  disjoint : p.state.live.Pairwise (fun l other => Apart (payload l) (payload other))
  inside : ∀ l ∈ p.state.live, Donated p.donated (l.block.start,l.block.stop)
  enough : ∀ l ∈ p.state.live, (payload l).1 + l.requested ≤ (payload l).2
  recorded : ∀ l ∈ p.state.live, magic p.state.heap.memory l.block.start = bermudaMmAllocMagic ∧
    nodeStop p.state.heap.memory l.block.start = l.block.stop
  headers : ∀ l ∈ p.state.live, ∀ other ∈ p.state.live, Apart (payload l) (header other.block.start)
  free : ∃ nodes total, Chain (next p.state.heap.memory) p.state.heap.bermudaHeapHead nodes ∧
    (∀ node ∈ nodes, magic p.state.heap.memory node = bermudaMmFreeMagic ∧
      Donated p.donated (node,nodeStop p.state.heap.memory node)) ∧
    (∀ node ∈ nodes, ∀ l ∈ p.state.live, Apart (node,nodeStop p.state.heap.memory node) (l.block.start,l.block.stop)) ∧
    nodes.Pairwise (fun x y => nodeStop p.state.heap.memory x < y) ∧
    bermudaHeapAvailable p.state.heap = some (total,p.state.heap) ∧
    (p.state.dropped = 0 → total + payloads (p.state.live.map Live.block) +
      sizeofHeapNode * (nodes.length + p.state.live.length) = payloads p.donated + sizeofHeapNode * p.donated.length)
  allocReturns : ∀ n, bermudaHeapAlloc extram p.state.heap n ≠ none
  freeReturns : ∀ l ∈ p.state.live, bermudaHeapFree p.state.heap l.block.ptr ≠ none
  initReturns : ∀ start len, Donatable p.donated start len → bermudaHeapInitBlock p.state.heap start len ≠ none

theorem pools_safe {extram : Nat} {p : Pools} (reach : PoolReachable extram p) : PoolSafe extram p := by
  obtain ⟨fs,lost,pooled⟩ := reachable_pooled reach
  obtain ⟨marked,sides,gaps⟩ := pooled.free_nodes
  refine ⟨pooled.payloads_apart,?_,fun l => pooled.payload_enough,fun l => pooled.live_recorded,
    fun l member other => pooled.headers_apart member,
    ⟨fs.map Block.start,payloads fs,pooled.list.chain,?_,sides,gaps,pooled.available,?_⟩,
    pooled.alloc_returns,fun l => pooled.free_returns,fun start len => pooled.donate_returns⟩
  · intro l member x
    exact pooled.donated (List.mem_append_right _ (List.mem_append_left _ (List.mem_map_of_mem member)))
  · intro node member
    obtain ⟨magic,f,free,rfl,stop⟩ := marked node member
    rw [stop]
    exact ⟨magic,fun x => pooled.donated (List.mem_append_left _ free)⟩
  · intro none_lost
    obtain rfl : lost = [] := List.length_eq_zero_iff.mp (pooled.count.trans none_lost)
    have account := pooled.account.1
    rw [none_lost] at account
    rw [List.length_map]
    exact account

/-- Three regions, of which two touch. The second is given while the first is in use as a whole, and the
last block crosses the border of the two that touch. -/
def crossing : List PoolOp :=
  [.initBlock 0x100 0x20,.use (.alloc 0x1B),.initBlock 0x200 0x20,.initBlock 0x120 0x10,.use (.free 0x105),.use (.alloc 0x24)]

theorem pools_safe_crossing : ∃ p : Pools, p.state.live.map Live.block = [⟨0x100,0x2B⟩] ∧ PoolSafe 0 p := by
  have made := Option.some_get (show (poolRuns 0 (fun _ => 0) crossing).isSome = true by decide +kernel)
  exact ⟨_,by decide +kernel,pools_safe (reachable_poolRuns made.symm)⟩

theorem merged_cover (ps : List Block) (x : Nat) : cover (spans (ps.foldr giveBack [])) x = cover (spans ps) x := by
  induction ps with
  | nil => rfl
  | cons p ps ih =>
    rw [List.foldr_cons,giveBack_cover]
    simp only [spans,List.map_cons,cover_cons] at ih ⊢
    omega

theorem merged_separated {ps : List Block} (once : ∀ x, cover (spans ps) x ≤ 1) :
    Separated (spans (ps.foldr giveBack [])) := by
  induction ps with
  | nil => simp [Separated]
  | cons p ps ih =>
    have rest (x : Nat) : cover (spans ps) x ≤ 1 := by
      have total := once x
      simp only [spans,List.map_cons,cover_cons] at total ⊢
      omega
    refine giveBack_separated (ih rest) ?_
    have nonempty : ∀ span ∈ spans (p::ps.foldr giveBack []), span.1 < span.2 := by
      intro span member
      obtain ⟨b,-,rfl⟩ := List.mem_map.mp member
      exact span_lt b
    have single (x : Nat) : cover (spans (p::ps.foldr giveBack [])) x ≤ 1 := by
      have total := once x
      have same := merged_cover ps x
      simp only [spans,List.map_cons,cover_cons] at total same ⊢
      omega
    have pairs := List.pairwise_map.mp (disjoint_of_cover nonempty single)
    intro f member
    exact ((List.pairwise_cons.mp pairs).1 f member).symm

/-- When every block has gone back and none was lost, the free list is made of the regions, those that
touch joined, whatever the run was. -/
theorem pools_conserved {extram : Nat} {p : Pools} (reach : PoolReachable extram p) (returned : p.state.live = [])
    (kept : p.state.dropped = 0) : ∃ nodes, Chain (next p.state.heap.memory) p.state.heap.bermudaHeapHead nodes ∧
      nodes.map (fun node => (node,nodeStop p.state.heap.memory node)) = spans (p.donated.foldr giveBack []) := by
  obtain ⟨fs,lost,pooled⟩ := reachable_pooled reach
  obtain rfl : lost = [] := List.length_eq_zero_iff.mp (pooled.count.trans kept)
  have tiles (x : Nat) : cover (spans fs) x = cover (spans (p.donated.foldr giveBack [])) x := by
    have total := pooled.tiles x
    rw [returned] at total
    rw [merged_cover,← total]
    simp
  refine ⟨fs.map Block.start,pooled.list.chain,?_⟩
  rw [← separated_unique pooled.separated (merged_separated pooled.disjoint) tiles,List.map_map]
  refine List.map_congr_left fun f free => ?_
  exact congrArg (Prod.mk f.start) (pooled.nodeStop_free free)

theorem pools_conserved_crossing : ∃ p nodes, poolRuns 0 (fun _ => 0) (crossing ++ [.use (.free 0x105)]) = some p ∧
    Chain (next p.state.heap.memory) p.state.heap.bermudaHeapHead nodes ∧
    nodes.map (fun node => (node,nodeStop p.state.heap.memory node)) = [(0x100,0x130),(0x200,0x220)] := by
  have made := Option.some_get (show (poolRuns 0 (fun _ => 0) (crossing ++ [.use (.free 0x105)])).isSome = true by decide +kernel)
  obtain ⟨nodes,chain,whole⟩ := pools_conserved (reachable_poolRuns made.symm) (by decide +kernel) (by decide +kernel)
  exact ⟨_,nodes,made.symm,chain,whole.trans (by decide +kernel)⟩

end BermudaOS.Sys.Mem
