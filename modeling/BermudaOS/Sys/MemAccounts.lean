import BermudaOS.Lib.SpanSets
import BermudaOS.Sys.MemRuns

/-! What `BermudaHeapAvailable` counts. The free payload, the headers, the blocks of the clients and
those that were lost add up to the arena. -/
namespace BermudaOS.Sys.Mem
open Lib.ByteMemory Lib.Chains Lib.Spans

/-- The loop of `BermudaHeapAvailable`, whose total is a `size_t`. -/
def availableWalk : Nat → Memory → Option Nat → Nat → Option Nat
  | _,_,none,total => some total
  | 0,_,some _,_ => none
  | fuel+1,m,some c,total => availableWalk fuel m (next m c) ((total + size m c) % 2^16)

def bermudaHeapAvailable (h : Heap) : Option (Nat × Heap) := do
  bermudaMutexEnter h.memLock
  let total ← availableWalk nodeLimit h.memory h.bermudaHeapHead 0
  return (total,bermudaMutexRelease h)

def payloads (bs : List Block) : Nat := (bs.map Block.size).sum

variable {m : Memory} {p : Option Nat} {fs lost : List Block} {fuel total : Nat}

theorem payloads_cons (b : Block) (bs : List Block) : payloads (b::bs) = b.size + payloads bs := by
  simp [payloads]

theorem payloads_append (left right : List Block) : payloads (left ++ right) = payloads left + payloads right := by
  simp [payloads]

/-- Every block has a header. -/
theorem extent_payloads (bs : List Block) : extent (spans bs) = payloads bs + sizeofHeapNode * bs.length := by
  induction bs with
  | nil => rfl
  | cons b bs ih =>
    have block : b.span.2 - b.span.1 = b.size + sizeofHeapNode := by
      simp only [Block.span,Block.stop]
      omega
    have first : extent (spans (b::bs)) = (b.span.2 - b.span.1) + extent (spans bs) := by
      simp [extent,spans]
    rw [first,block,ih,payloads_cons,List.length_cons,Nat.mul_succ]
    omega

theorem availableWalk_list (chain : Chain (next m) p (fs.map Block.start)) (sized : ∀ f ∈ fs, size m f.start = f.size)
    (enough : fs.length ≤ fuel) (small : total + payloads fs < 2^16) :
    availableWalk fuel m p total = some (total + payloads fs) := by
  induction fs generalizing p fuel total with
  | nil =>
    obtain rfl : p = none := chain
    cases fuel <;> rfl
  | cons f fs ih =>
    obtain ⟨rfl,rest⟩ := chain
    rw [payloads_cons] at small
    cases fuel with
    | zero => simp at enough
    | succ fuel =>
      have later := ih rest (fun g member => sized g (by simp [member])) (by simpa using enough)
        (show total + f.size + payloads fs < 2^16 by omega)
      rw [availableWalk,sized f (by simp),Nat.mod_eq_of_lt (by omega),later,payloads_cons,Nat.add_assoc]

/-- The account of the regions: free payload, blocks in use and lost blocks. -/
theorem Pooled.account {ps : List Block} {s : State} (pooled : Pooled ps s fs lost) :
    payloads fs + payloads (s.live.map Live.block) + payloads lost +
        sizeofHeapNode * (fs.length + s.live.length + s.dropped) = payloads ps + sizeofHeapNode * ps.length ∧
      payloads ps + sizeofHeapNode * ps.length ≤ 2^16 := by
  have fits {bs : List Block} (inside : ∀ b ∈ bs, b.InSpace) : ∀ span ∈ spans bs, span.2 ≤ 2^16 := by
    intro span member
    obtain ⟨b,present,rfl⟩ := List.mem_map.mp member
    exact (inside b present).2
  have total := extent_cover (fits fun b => pooled.inSpace) (fits pooled.regions) pooled.tiles
  have space := extent_le (fits pooled.regions) pooled.disjoint
  rw [extent_payloads,extent_payloads,payloads_append,payloads_append] at total
  rw [extent_payloads] at space
  simp only [List.length_append,List.length_map,pooled.count,sizeofHeapNode] at total space ⊢
  omega

theorem Pooled.available {ps : List Block} {s : State} (pooled : Pooled ps s fs lost) : bermudaHeapAvailable s.heap = some (payloads fs,s.heap) := by
  have account := pooled.account
  have short := pooled.list.length_lt
  have small : payloads fs < 2^16 := by
    cases fs with
    | nil => decide
    | cons f fs =>
      simp only [List.length_cons,sizeofHeapNode] at account
      omega
  have counted : availableWalk nodeLimit s.heap.memory s.heap.bermudaHeapHead 0 = some (0 + payloads fs) :=
    availableWalk_list pooled.list.chain (fun f member => (pooled.list.header f member).2) (by omega) (by omega)
  have released : bermudaMutexRelease s.heap = s.heap := by
    rw [bermudaMutexRelease,← pooled.unlocked]
  rw [bermudaHeapAvailable,pooled.enters]
  simp only [Option.bind_eq_bind,Option.bind_some,counted,released,Nat.zero_add]
  rfl

theorem Tiled.account {a : Arena} {s : State} (tiled : Tiled a s fs lost) :
    payloads fs + payloads (s.live.map Live.block) + payloads lost +
      sizeofHeapNode * (fs.length + s.live.length + s.dropped) = a.size := by
  have room := a.header
  rw [(Pooled.account tiled).1,payloads_cons]
  simp only [region,payloads,List.map_nil,List.sum_nil,List.length_singleton,sizeofHeapNode] at room ⊢
  omega

/-- In every state `BermudaHeapAvailable` returns and leaves the heap as it is. What it counts is at most what the
headers, the clients and the lost blocks leave of the arena, and exactly that where no block was lost. -/
theorem available_accounts {extram : Nat} {a : Arena} {s : State} (reach : Reachable extram a s) :
    ∃ total nodes, bermudaHeapAvailable s.heap = some (total,s.heap) ∧
      Chain (next s.heap.memory) s.heap.bermudaHeapHead nodes ∧
      total + payloads (s.live.map Live.block) + sizeofHeapNode * (nodes.length + s.live.length + s.dropped) ≤ a.size ∧
      (s.dropped = 0 →
        total + payloads (s.live.map Live.block) + sizeofHeapNode * (nodes.length + s.live.length) = a.size) := by
  obtain ⟨fs,lost,tiled⟩ := reachable_tiled reach
  have account := tiled.account
  refine ⟨payloads fs,fs.map Block.start,tiled.available,tiled.list.chain,?_,?_⟩
  · rw [List.length_map]
    simp only [sizeofHeapNode] at account ⊢
    omega
  · intro none_lost
    obtain rfl : lost = [] := List.length_eq_zero_iff.mp (tiled.count.trans none_lost)
    rw [none_lost] at account
    rw [List.length_map]
    exact account

/-- Of two blocks the first has gone back. -/
theorem available_accounts_lowArena : ∃ s : State, s.live.length = 1 ∧ ∃ total nodes,
    bermudaHeapAvailable s.heap = some (total,s.heap) ∧ Chain (next s.heap.memory) s.heap.bermudaHeapHead nodes ∧
    total + payloads (s.live.map Live.block) + sizeofHeapNode * (nodes.length + s.live.length) = 0x40 := by
  have made := Option.some_get (show (runs 0 lowArena (fun _ => 0) [.alloc 4,.alloc 7,.free 0x105]).isSome = true by
    decide +kernel)
  obtain ⟨total,nodes,counted,chain,-,exact⟩ := available_accounts (reachable_runs made.symm)
  exact ⟨_,by decide +kernel,total,nodes,counted,chain,exact (by decide +kernel)⟩

end BermudaOS.Sys.Mem
