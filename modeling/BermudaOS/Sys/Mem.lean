import BermudaOS.Lib.ByteMemory

/-! The heap of `sys/mem.c`, on a 16-bit data space. Headers are the packed
`struct heap_node` bytes in memory, and pointer and `size_t` arithmetic wraps.
A `while` walk carries the number of distinct nodes the data space can hold;
`none` is a call that never returns: a circular list, or a mutex left locked. -/
namespace BermudaOS.Sys.Mem
open Lib.ByteMemory

/-- `sizeof(HEAPNODE)`: one byte of magic, a pointer and a `size_t`, packed. -/
def sizeofHeapNode : Nat := 5

def bermudaMmFreeMagic : Nat := 0x99

def bermudaMmAllocMagic : Nat := 0x66

/-- The build's `-DMEM`; `EXTRAM` is a configure option and stays a parameter. -/
def mem : Nat := 0x800

def nodeLimit : Nat := 2^16

def ptrAdd (p n : Nat) : Nat := (p + n) % 2^16

def sizeSub (a b : Nat) : Nat := (a + (2^16 - b % 2^16)) % 2^16

def magic (m : Memory) (node : Nat) : Nat := (m node).toNat

def next (m : Memory) (node : Nat) : Option Nat := loadPtr m (node+1)

def size (m : Memory) (node : Nat) : Nat := load16 m (node+3)

def setMagic (m : Memory) (node v : Nat) : Memory := store8 m node v

def setNext (m : Memory) (node : Nat) (p : Option Nat) : Memory := storePtr m (node+1) p

def setSize (m : Memory) (node v : Nat) : Memory := store16 m (node+3) v

structure Heap where
  memory : Memory
  bermudaHeapHead : Option Nat
  memLock : UInt8

/-- Spins while bit 0 of the lock is set; the function itself never sets it. -/
def bermudaMutexEnter (lock : UInt8) : Option Unit := if lock &&& 1 = 1 then none else some ()

def bermudaMutexRelease (h : Heap) : Heap := {h with memLock := 0}

def bermudaHeapInitHeader (m : Memory) (node size : Nat) : Memory :=
  setNext (setSize (setMagic m node bermudaMmFreeMagic) node size) node none

def bermudaHeapSplitNode (m : Memory) (node req : Nat) : Memory :=
  if magic m node ≠ bermudaMmFreeMagic then m else
    let rest := ptrAdd node (req + sizeofHeapNode)
    let m := bermudaHeapInitHeader m rest (sizeSub (sizeSub (size m node) req) sizeofHeapNode)
    let m := setNext m rest (next m node)
    let m := setNext m node (toPtr rest)
    setSize m node req

def bermudaHeapUseBlock (h : Heap) (node : Nat) (prev : Option Nat) : Heap :=
  if magic h.memory node ≠ bermudaMmFreeMagic then h else
    let m := setMagic h.memory node bermudaMmAllocMagic
    match prev,next m node with
    | some prev,some onward => {h with memory := setNext m prev (some onward)}
    | none,onward => {h with memory := m,bermudaHeapHead := onward}
    | some prev,none => {h with memory := setNext m prev none}

/-- What a call of `BermudaHeapAlloc` ends in: the null pointer for a request
above the memory size, a payload pointer, or the reset of `_exit`. -/
inductive AllocResult
  | null
  | block (ptr : Nat)
  | exit
  deriving DecidableEq,Repr

/-- The search loop of `BermudaHeapAlloc`: the memory after a split, the block it
stops at and the node before that block. -/
def allocWalk (req : Nat) : Nat → Memory → Option Nat → Option Nat →
    Option (Memory × Option Nat × Option Nat)
  | _,m,none,prev => some (m,none,prev)
  | 0,_,some _,_ => none
  | fuel+1,m,some c,prev =>
    if size m c = req then some (m,some c,prev)
    else if req < size m c then
      if size m c < (req + sizeofHeapNode + 4) % 2^16 then some (m,some c,prev)
      else some (bermudaHeapSplitNode m c req,some c,prev)
    else allocWalk req fuel m (next m c) (some c)

def bermudaHeapAlloc (extram : Nat) (h : Heap) (size : Nat) : Option (AllocResult × Heap) :=
  if mem + extram < size then some (.null,h) else do
    bermudaMutexEnter h.memLock
    let (m,c,prev) ← allocWalk size nodeLimit h.memory h.bermudaHeapHead none
    match c with
    | none => return (.exit,{h with memory := m})
    | some c =>
      return (.block (ptrAdd c sizeofHeapNode),
        bermudaMutexRelease (bermudaHeapUseBlock {h with memory := m} c prev))

/-- The search loop of `BermudaHeapNodeReturn`, with its return value. -/
def returnWalk (block : Nat) : Nat → Memory → Option Nat → Option (Int × Memory)
  | _,m,none => some (-1,m)
  | 0,_,some _ => none
  | fuel+1,m,some node =>
    if node < block ∧ block < ofPtr (next m node) then
      some (0,setNext (setNext m block (next m node)) node (some block))
    else if next m node = none then
      some (0,setNext (setNext m node (some block)) block none)
    else returnWalk block fuel m (next m node)

def bermudaHeapNodeReturn (h : Heap) (block : Nat) : Option (Int × Heap) :=
  if magic h.memory block ≠ bermudaMmAllocMagic ∨ size h.memory block = 0 then some (-1,h) else
    let m := setMagic h.memory block bermudaMmFreeMagic
    if block < ofPtr h.bermudaHeapHead then
      some (0,{h with memory := setNext m block h.bermudaHeapHead,bermudaHeapHead := some block})
    else do
      let (rc,m) ← returnWalk block nodeLimit m h.bermudaHeapHead
      return (rc,{h with memory := m})

def bermudaHeapMergeNode (m : Memory) (alpha beta : Nat) : Option Nat × Memory :=
  if magic m alpha ≠ bermudaMmFreeMagic ∨ magic m beta ≠ bermudaMmFreeMagic then (none,m)
  else if ptrAdd alpha (sizeofHeapNode + size m alpha) ≠ beta ∧
      ptrAdd beta (sizeofHeapNode + size m beta) ≠ alpha then (none,m)
  else
    -- alpha and beta may be given reversed
    let (alpha,beta) :=
      if ptrAdd beta (sizeofHeapNode + size m beta) = alpha then (beta,alpha) else (alpha,beta)
    let m := setSize m alpha (size m alpha + (size m beta + sizeofHeapNode))
    (some alpha,setNext m alpha (next m beta))

/-- The merge loop of `BermudaHeapFree`. -/
def mergeWalk : Nat → Memory → Option Nat → Nat → Option Memory
  | _,m,none,_ => some m
  | 0,_,some _,_ => none
  | fuel+1,m,some c,node =>
    if ptrAdd c (size m c + sizeofHeapNode) = node ∨ ptrAdd node (size m node + sizeofHeapNode) = c then
      match bermudaHeapMergeNode m c node with
      | (none,m) => some m
      | (some node,m) => mergeWalk fuel m (next m node) node
    else mergeWalk fuel m (next m c) node

def bermudaHeapFree (h : Heap) (ptr : Nat) : Option Heap := do
  bermudaMutexEnter h.memLock
  let node := sizeSub ptr sizeofHeapNode
  if magic h.memory node ≠ bermudaMmAllocMagic then return bermudaMutexRelease h
  -- the walk starts at the head read before the block went back
  let c := h.bermudaHeapHead
  let (_,h) ← bermudaHeapNodeReturn h node
  let m ← mergeWalk nodeLimit h.memory c node
  return bermudaMutexRelease {h with memory := m}

def bermudaHeapInitBlock (h : Heap) (start size : Nat) : Option Heap := do
  bermudaMutexEnter h.memLock
  let m := bermudaHeapInitHeader h.memory start (sizeSub size sizeofHeapNode)
  match h.bermudaHeapHead with
  | none => return bermudaMutexRelease {h with memory := m,bermudaHeapHead := toPtr start}
  | some _ =>
    let m := setMagic m start bermudaMmAllocMagic
    let h ← bermudaHeapFree {h with memory := m} (ptrAdd start sizeofHeapNode)
    return bermudaMutexRelease h

end BermudaOS.Sys.Mem
