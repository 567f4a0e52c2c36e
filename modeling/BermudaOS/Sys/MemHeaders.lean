import BermudaOS.Lib.Chains
import BermudaOS.Sys.MemBlocks

/-! Headers in memory. Every field write stays inside its own header and is read
back by its own field only; a free list in memory is a null-terminated chain of
ordered blocks with the recorded sizes and free magic. -/
namespace BermudaOS.Sys.Mem
open Lib.ByteMemory Lib.Chains Lib.Spans

/-- The register file occupies the data space below this address. -/
def ioOffset : Nat := 0x20

@[simp] theorem magic_setNext (m : Memory) (a : Nat) (p : Option Nat) :
    magic (setNext m a p) a = magic m a :=
  congrArg UInt8.toNat (load8_congr ((storePtr_within m (a+1) p).agree (by omega)))

@[simp] theorem magic_setSize (m : Memory) (a v : Nat) : magic (setSize m a v) a = magic m a :=
  congrArg UInt8.toNat (load8_congr ((store16_within m (a+3) v).agree (by omega)))

@[simp] theorem next_setMagic (m : Memory) (a v : Nat) : next (setMagic m a v) a = next m a :=
  loadPtr_congr ((store8_within m a v).agree (by omega))

@[simp] theorem next_setSize (m : Memory) (a v : Nat) : next (setSize m a v) a = next m a :=
  loadPtr_congr ((store16_within m (a+3) v).agree (by omega))

@[simp] theorem size_setMagic (m : Memory) (a v : Nat) : size (setMagic m a v) a = size m a :=
  load16_congr ((store8_within m a v).agree (by omega))

@[simp] theorem size_setNext (m : Memory) (a : Nat) (p : Option Nat) :
    size (setNext m a p) a = size m a :=
  load16_congr ((storePtr_within m (a+1) p).agree (by omega))

theorem magic_setMagic (m : Memory) (a v : Nat) (bound : v < 2^8) : magic (setMagic m a v) a = v :=
  load8_store8 m a v bound

theorem size_setSize (m : Memory) (a v : Nat) (bound : v < 2^16) : size (setSize m a v) a = v :=
  load16_store16 m (a+3) v bound

theorem next_setNext (m : Memory) (a : Nat) (p : Option Nat)
    (bound : ∀ v, p = some v → 0 < v ∧ v < 2^16) : next (setNext m a p) a = p :=
  loadPtr_storePtr m (a+1) p bound

theorem next_bound {m : Memory} {a v : Nat} (link : next m a = some v) : 0 < v ∧ v < 2^16 :=
  loadPtr_bound link

theorem setMagic_within (m : Memory) (a v : Nat) : Within m (setMagic m a v) a (a+5) :=
  (store8_within m a v).mono (by omega) (by omega)

theorem setNext_within (m : Memory) (a : Nat) (p : Option Nat) :
    Within m (setNext m a p) a (a+5) :=
  (storePtr_within m (a+1) p).mono (by omega) (by omega)

theorem setSize_within (m : Memory) (a v : Nat) : Within m (setSize m a v) a (a+5) :=
  (store16_within m (a+3) v).mono (by omega) (by omega)

/-- Two memories show the same header at `node`. -/
def SameHeader (m other : Memory) (node : Nat) : Prop :=
  magic other node = magic m node ∧ next other node = next m node ∧ size other node = size m node

theorem agree_sameHeader {m other : Memory} {node : Nat} (agree : Agree m other node 5) :
    SameHeader m other node := by
  exact ⟨congrArg UInt8.toNat (load8_congr (agree.mono (by omega) (by omega))),
    loadPtr_congr (agree.mono (by omega) (by omega)),
    load16_congr (agree.mono (by omega) (by omega))⟩

theorem within_sameHeader {m other : Memory} {lo hi node : Nat} (within : Within m other lo hi)
    (apart : node + 5 ≤ lo ∨ hi ≤ node) : SameHeader m other node :=
  agree_sameHeader (within.agree apart)

/-- Two nodes have got new links, and nothing else has changed. -/
structure Relinked (m other : Memory) (x y : Nat) (p q : Option Nat) : Prop where
  first : next other x = p
  second : next other y = q
  header : ∀ z,z = x ∨ z = y → magic other z = magic m z ∧ size other z = size m z
  clear : ∀ z,z + 5 ≤ x ∨ x + 5 ≤ z → z + 5 ≤ y ∨ y + 5 ≤ z → SameHeader m other z

theorem SameHeader.trans {m other last : Memory} {node : Nat} (first : SameHeader m other node)
    (second : SameHeader other last node) : SameHeader m last node :=
  ⟨second.1.trans first.1,second.2.1.trans first.2.1,second.2.2.trans first.2.2⟩

theorem setNext_relinked {x y : Nat} {p q : Option Nat} (m : Memory) (apart : x + 5 ≤ y ∨ y + 5 ≤ x)
    (first : ∀ v, p = some v → 0 < v ∧ v < 2^16) (second : ∀ v, q = some v → 0 < v ∧ v < 2^16) :
    Relinked m (setNext (setNext m x p) y q) x y p q where
  first := by
    rw [(within_sameHeader (setNext_within _ y _) apart).2.1]
    exact next_setNext m x p first
  second := next_setNext _ y q second
  header z known := by
    rcases known with rfl | rfl
    · have frame : SameHeader (setNext m z p) _ z := within_sameHeader (setNext_within _ y q) apart
      rw [frame.1,frame.2.2,magic_setNext,size_setNext]
      exact ⟨rfl,rfl⟩
    · have frame : SameHeader m _ z := within_sameHeader (setNext_within m x p) apart.symm
      rw [magic_setNext,size_setNext,frame.1,frame.2.2]
      exact ⟨rfl,rfl⟩
  clear z left right := (within_sameHeader (setNext_within m x p) left).trans (within_sameHeader (setNext_within _ y q) right)

theorem Relinked.symm {m other : Memory} {x y : Nat} {p q : Option Nat} (relinked : Relinked m other x y p q) :
    Relinked m other y x q p :=
  ⟨relinked.second,relinked.first,fun z known => relinked.header z known.symm,
    fun z left right => relinked.clear z right left⟩

/-- A block inside the data space, clear of the registers. -/
def Block.InSpace (b : Block) : Prop := ioOffset ≤ b.start ∧ b.stop ≤ 2^16

/-- The free list as it lies in memory. -/
structure FreeList (m : Memory) (p : Option Nat) (fs : List Block) : Prop where
  chain : Chain (next m) p (fs.map Block.start)
  header : ∀ f ∈ fs, magic m f.start = bermudaMmFreeMagic ∧ size m f.start = f.size
  ordered : fs.Pairwise (fun f g => f.stop ≤ g.start)
  inside : ∀ f ∈ fs, f.InSpace

theorem ordered_apart {before after : List Block} {b : Block}
    (ordered : (before ++ b::after).Pairwise (fun f g => f.stop ≤ g.start)) :
    ∀ f ∈ before ++ after, f.stop ≤ b.start ∨ b.stop ≤ f.start := by
  obtain ⟨_,right,across⟩ := List.pairwise_append.mp ordered
  intro f member
  rcases List.mem_append.mp member with left | later
  · exact .inl (across f left b (by simp))
  · exact .inr ((List.pairwise_cons.mp right).1 f later)

theorem ordered_length {fs : List Block} (ordered : fs.Pairwise (fun f g => f.stop ≤ g.start))
    {lo hi : Nat} (inside : ∀ f ∈ fs, lo ≤ f.start ∧ f.stop ≤ hi) (room : lo ≤ hi) :
    lo + 5 * fs.length ≤ hi := by
  induction fs generalizing lo with
  | nil => simpa using room
  | cons f fs ih =>
    obtain ⟨first,rest⟩ := List.pairwise_cons.mp ordered
    have bounds := inside f (by simp)
    have count := ih rest
      (fun g member => ⟨first g member,(inside g (by simp [member])).2⟩) bounds.2
    simp only [List.length_cons,stop_eq] at count ⊢
    omega

theorem FreeList.length_lt {m : Memory} {p : Option Nat} {fs : List Block}
    (list : FreeList m p fs) : fs.length + 2 ≤ nodeLimit := by
  have count := ordered_length list.ordered list.inside (by decide)
  simp only [ioOffset,nodeLimit] at count ⊢
  omega

theorem FreeList.same {m other : Memory} {p : Option Nat} {fs : List Block}
    (list : FreeList m p fs) (same : ∀ f ∈ fs, SameHeader m other f.start) :
    FreeList other p fs where
  chain := seg_congr list.chain (by
    intro a member
    obtain ⟨f,present,rfl⟩ := List.mem_map.mp member
    exact (same f present).2.1)
  header f member := by
    rw [(same f member).1,(same f member).2.2]
    exact list.header f member
  ordered := list.ordered
  inside := list.inside

theorem FreeList.head {m : Memory} {p : Option Nat} {fs : List Block} (list : FreeList m p fs) :
    p = fs.head?.map Block.start := by
  rw [chain_head list.chain,List.head?_map]

end BermudaOS.Sys.Mem
