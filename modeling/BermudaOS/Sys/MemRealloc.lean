import BermudaOS.Clib.MemCopy
import BermudaOS.Sys.MemRuns

/-! `BermudaHeapAlloc` and `BermudaHeapFree` together. A block that goes back at once leaves the
free list as it was, and `realloc`, which allocates, copies and frees, moves the contents of a
block and disturbs no other. -/
namespace BermudaOS.Sys.Mem
open Lib.ByteMemory Lib.Chains Lib.Moves Lib.Spans

theorem Tiled.taken {extram n p : Nat} {a : Arena} {s : State} {h : Heap} {fs lost : List Block}
    (tiled : Tiled a s fs lost) (call : bermudaHeapAlloc extram s.heap n = some (.block p,h)) :
    ∃ b rest, p = b.ptr ∧ takeFit n fs = some (b,rest) ∧
      Tiled a {s with heap := h,live := ⟨b,n⟩::s.live} rest lost ∧ WithinBlocks s.heap.memory h.memory fs := by
  by_cases request : n ≤ mem + extram
  · cases found : takeFit n fs with
    | none =>
      rw [alloc_exit tiled.list tiled.enters request found] at call
      cases call
    | some taken =>
      obtain ⟨b,rest⟩ := taken
      obtain ⟨used,same,next⟩ := tiled.take request found
      obtain ⟨again,alike,-,-,-,-,within⟩ := alloc_block tiled.list tiled.unlocked request tiled.positive found
      rw [same] at call alike
      cases call
      cases alike
      exact ⟨b,rest,rfl,rfl,next,within⟩
  · rw [alloc_null (by omega)] at call
    cases call

/-- `NULL` is for requests that no block may serve, and the heap stays as it was. -/
theorem Tiled.refused {extram n : Nat} {a : Arena} {s : State} {h : Heap} {fs lost : List Block}
    (tiled : Tiled a s fs lost) (call : bermudaHeapAlloc extram s.heap n = some (.null,h)) :
    mem + extram < n ∧ h = s.heap := by
  by_cases request : n ≤ mem + extram
  · cases found : takeFit n fs with
    | none =>
      rw [alloc_exit tiled.list tiled.enters request found] at call
      cases call
    | some taken =>
      obtain ⟨used,other,-⟩ := tiled.take request found
      rw [other] at call
      cases call
  · rw [alloc_null (by omega)] at call
    cases call
    exact ⟨by omega,rfl⟩

/-- The system is reset where no free block is large enough. -/
theorem Tiled.exits {extram n : Nat} {a : Arena} {s : State} {h : Heap} {fs lost : List Block}
    (tiled : Tiled a s fs lost) (call : bermudaHeapAlloc extram s.heap n = some (.exit,h)) :
    n ≤ mem + extram ∧ (∀ f ∈ fs, f.size < n) ∧ h = s.heap := by
  by_cases request : n ≤ mem + extram
  · cases found : takeFit n fs with
    | none =>
      rw [alloc_exit tiled.list tiled.enters request found] at call
      cases call
      exact ⟨request,takeFit_none.mp found,rfl⟩
    | some taken =>
      obtain ⟨used,other,-⟩ := tiled.take request found
      rw [other] at call
      cases call
  · rw [alloc_null (by omega)] at call
    cases call

/-- Freeing a block right after its allocation restores the free list. -/
theorem free_undoes_alloc {extram n p : Nat} {a : Arena} {s : State} {h : Heap} (reach : Reachable extram a s)
    (positive : 1 ≤ n) (call : bermudaHeapAlloc extram s.heap n = some (.block p,h))
    (left : h.bermudaHeapHead ≠ none) :
    ∃ fs freed, FreeList s.heap.memory s.heap.bermudaHeapHead fs ∧ bermudaHeapFree h p = some freed ∧
      FreeList freed.memory freed.bermudaHeapHead fs := by
  obtain ⟨fs,lost,tiled⟩ := reachable_tiled reach
  obtain ⟨b,rest,rfl,found,next,-⟩ := tiled.taken call
  have sized := (takeFit_size found).1
  have kept : Kept {s with heap := h,live := ⟨b,n⟩::s.live} ⟨b,n⟩ := ⟨by dsimp only; omega,left⟩
  obtain ⟨freed,back,again⟩ := next.give (by simp) kept
  have list := again.list
  rw [giveBack_takeFit found tiled.separated] at list
  exact ⟨fs,freed,tiled.list,back,list⟩

/-- A block of 7 bytes is taken between a used one and the rest, and goes back. -/
theorem free_undoes_alloc_lowArena : ∃ s : State, ∃ h, ∃ fs freed,
    bermudaHeapAlloc 0 s.heap 7 = some (.block 0x10E,h) ∧
    FreeList s.heap.memory s.heap.bermudaHeapHead fs ∧ bermudaHeapFree h 0x10E = some freed ∧
      FreeList freed.memory freed.bermudaHeapHead fs := by
  have made := Option.some_get (show (runs 0 lowArena (fun _ => 0) [.alloc 4]).isSome = true by decide +kernel)
  have start : (bermudaHeapAlloc 0 ((runs 0 lowArena (fun _ => 0) [.alloc 4]).get (by decide +kernel)).heap 7).map
      (fun r => (r.1,r.2.bermudaHeapHead.isSome)) = some (.block 0x10E,true) := by decide +kernel
  obtain ⟨⟨result,h⟩,call,shape⟩ := Option.map_eq_some_iff.mp start
  obtain ⟨rfl,left⟩ := Prod.mk.inj shape
  obtain ⟨fs,freed,restored⟩ := free_undoes_alloc (reachable_runs made.symm) (by decide) call (Option.isSome_iff_ne_none.mp left)
  exact ⟨_,h,fs,freed,call,restored⟩

/-- `memcpy` of `n` bytes, copied one by one. -/
def memcpy (m : Memory) (dest src : Nat) : Nat → Memory
  | 0 => m
  | n+1 =>
    let m := memcpy m dest src n
    store8 m (dest + n) (m (src + n)).toNat

/-- `realloc`, for a pointer that may be `NULL`; `copy` is the `memcpy` that it calls. -/
def reallocBy (copy : Memory → Nat → Nat → Nat → Memory) (extram : Nat) (h : Heap) (ptr length : Nat) :
    Option (AllocResult × Heap) :=
  if length = 0 then do
    let h ← bermudaHeapFree h ptr
    return (.null,h)
  else if ptr = 0 then bermudaHeapAlloc extram h length
  else do
    bermudaMutexEnter h.memLock
    let node := sizeSub ptr sizeofHeapNode
    match ← bermudaHeapAlloc extram h length with
    | (.block newBlock,h) =>
      let m := copy h.memory newBlock ptr (if length > size h.memory node then size h.memory node else length)
      let h ← bermudaHeapFree {h with memory := m} ptr
      return (.block newBlock,h)
    | (.null,h) => return (.null,h)
    | (.exit,h) => return (.exit,h)

/-- `realloc` with a `memcpy` that copies byte by byte. -/
def realloc (extram : Nat) (h : Heap) (ptr length : Nat) : Option (AllocResult × Heap) := reallocBy memcpy extram h ptr length

theorem memcpy_within (m : Memory) (dest src n : Nat) : Within m (memcpy m dest src n) dest (dest + n) := by
  induction n with
  | zero => exact within_refl m dest dest
  | succ n ih =>
    have last := store8_within (memcpy m dest src n) (dest + n) (memcpy m dest src n (src + n)).toNat
    exact (ih.mono le_rfl (by omega)).trans (last.mono (by omega) (by omega))

theorem memcpy_copies {m : Memory} {dest src n : Nat} (apart : dest + n ≤ src ∨ src + n ≤ dest) {i : Nat}
    (inside : i < n) : memcpy m dest src n (dest + i) = m (src + i) := by
  induction n with
  | zero => omega
  | succ n ih =>
    have source : memcpy m dest src n (src + n) = m (src + n) := memcpy_within m dest src n _ (by omega)
    rw [memcpy]
    by_cases last : i = n
    · subst last
      simp [store8,source]
    · have other := store8_within (memcpy m dest src n) (dest + n) (memcpy m dest src n (src + n)).toNat
      rw [other _ (by omega),ih (by omega) (by omega)]

theorem Tiled.freed {a : Arena} {s : State} {fs lost : List Block} (tiled : Tiled a s fs lost) {l : Live}
    (member : l ∈ s.live) :
    ∃ h, bermudaHeapFree s.heap l.block.ptr = some h ∧ WithinBlocks s.heap.memory h.memory (l.block::fs) := by
  obtain ⟨marked,sized⟩ := tiled.marked l member
  have inside := tiled.mem_live member
  by_cases empty : l.block.size = 0
  · exact ⟨s.heap,free_refused tiled.list tiled.unlocked marked sized empty inside,fun x _ => rfl⟩
  · by_cases none_free : fs = []
    · have head : s.heap.bermudaHeapHead = none := by simpa [none_free] using tiled.list.head
      obtain ⟨freed,call,-,-,within⟩ := free_lost head tiled.unlocked marked inside
      exact ⟨freed,call,within_blocks within (by simp) le_rfl (by rw [stop_eq]; omega)⟩
    · obtain ⟨freed,call,-,-,within⟩ := free_block tiled.list tiled.unlocked tiled.separated none_free marked sized
        (by omega) inside (tiled.live_apart member)
      exact ⟨freed,call,within⟩

theorem Tiled.found {a : Arena} {s : State} {fs lost : List Block} (tiled : Tiled a s fs lost) {l : Live}
    (member : l ∈ s.live) : s.live.find? (fun other => other.block.ptr = l.block.ptr) = some l := by
  have present : (s.live.find? (fun other => other.block.ptr = l.block.ptr)).isSome = true :=
    List.find?_isSome.mpr ⟨l,member,by simp⟩
  obtain ⟨other,found⟩ := Option.isSome_iff_exists.mp present
  have pointer : other.block.ptr = l.block.ptr := by simpa using List.find?_some found
  have same : other = l := by
    by_contra distinct
    have side := tiled.lives_apart (List.mem_of_find?_eq_some found) member distinct
    simp only [stop_eq,Block.ptr] at side pointer
    omega
  rw [found,same]

theorem reachable_memcpy {extram n : Nat} (src : Nat) {a : Arena} {s : State} {l : Live} (reach : Reachable extram a s)
    (member : l ∈ s.live) (fits : n ≤ l.block.size) :
    Reachable extram a {s with heap := {s.heap with memory := memcpy s.heap.memory l.block.ptr src n}} := by
  induction n with
  | zero => exact reach
  | succ n ih =>
    have owned : Owned {s with heap := {s.heap with memory := memcpy s.heap.memory l.block.ptr src n}}
        (l.block.ptr + n) :=
      ⟨l,member,by omega,by simp only [Block.ptr,Block.stop]; omega⟩
    have write : step extram {s with heap := {s.heap with memory := memcpy s.heap.memory l.block.ptr src n}}
        (.write (l.block.ptr + n) (memcpy s.heap.memory l.block.ptr src n (src + n))) =
        some {s with heap := {s.heap with memory := memcpy s.heap.memory l.block.ptr src (n + 1)}} := if_pos owned
    exact (ih (by omega)).step write

theorem reachable_free {extram : Nat} {a : Arena} {s : State} {fs lost : List Block} {l : Live}
    (reach : Reachable extram a s) (tiled : Tiled a s fs lost) (member : l ∈ s.live) :
    ∃ h dropped, bermudaHeapFree s.heap l.block.ptr = some h ∧ Reachable extram a ⟨h,s.live.erase l,dropped⟩ ∧
      WithinBlocks s.heap.memory h.memory (l.block::fs) := by
  obtain ⟨h,call,within⟩ := tiled.freed member
  have frees : step extram s (.free l.block.ptr) =
      some ⟨h,s.live.erase l,s.dropped + if Kept s l then 0 else 1⟩ := by
    rw [step,tiled.found member]
    simp only [Option.bind_eq_bind,Option.bind_some,call]
    rfl
  exact ⟨h,_,call,reach.step frees,within⟩

theorem Tiled.erase_apart {a : Arena} {s : State} {fs lost : List Block} (tiled : Tiled a s fs lost) {l other : Live}
    (member : l ∈ s.live) (remains : other ∈ s.live.erase l) :
    l.block.stop ≤ other.block.start ∨ other.block.stop ≤ l.block.start := by
  obtain ⟨_,used,_⟩ := List.pairwise_append.mp tiled.apart
  have pairs := List.pairwise_map.mp (List.pairwise_append.mp used).1
  have first := (List.Perm.pairwise_iff (fun side => side.symm) (List.perm_cons_erase member)).mp pairs
  exact (List.pairwise_cons.mp first).1 other remains

theorem Tiled.new_apart {a : Arena} {s : State} {fs lost : List Block} {new : Live} {live : List Live}
    (tiled : Tiled a s fs lost) (held : s.live = new::live) {l : Live} (member : l ∈ live) :
    Apart new.block.span l.block.span := by
  have first : new ∈ s.live := by simp [held]
  exact tiled.erase_apart first (by simp [held,member])

/-- What the copy and the `free` of `realloc` do, once a block was handed out. -/
structure Moved (extram : Nat) (a : Arena) (s : State) (l : Live) (b : Block) (n : Nat) (t : State) : Prop where
  reach : Reachable extram a t
  live : t.live = ⟨b,n⟩::s.live.erase l
  enough : n ≤ b.size
  copied : ∀ i < min l.block.size n, t.heap.memory (b.ptr + i) = s.heap.memory (l.block.ptr + i)
  gone : ∀ other ∈ t.live, other.block.ptr ≠ l.block.ptr
  apart : ∀ other ∈ s.live, Apart b.span other.block.span
  kept : ∀ other ∈ s.live.erase l, ∀ x, (payload other).1 ≤ x → x < (payload other).2 →
    t.heap.memory x = s.heap.memory x

theorem realloc_moved {extram n : Nat} {a : Arena} {s : State} {l : Live} {h : Heap} {b : Block}
    {fs rest lost : List Block} (reach : Reachable extram a s) (tiled : Tiled a s fs lost) (member : l ∈ s.live)
    (call : bermudaHeapAlloc extram s.heap n = some (.block b.ptr,h)) (found : takeFit n fs = some (b,rest))
    (next : Tiled a {s with heap := h,live := ⟨b,n⟩::s.live} rest lost)
    (allocated : WithinBlocks s.heap.memory h.memory fs) :
    ∃ t, bermudaHeapFree {h with memory := memcpy h.memory b.ptr l.block.ptr (min l.block.size n)} l.block.ptr =
      some t.heap ∧ Moved extram a s l b n t := by
  have large := (takeFit_size found).1
  have block : blockOf h.memory b.ptr = b := next.blockOf_live (l := ⟨b,n⟩) (by simp)
  have took : step extram s (.alloc n) = some {s with heap := h,live := ⟨b,n⟩::s.live} := by
    simp only [step,call,block]
  have wrote := reachable_memcpy (n := min l.block.size n) l.block.ptr (reach.step took) (l := ⟨b,n⟩) (by simp)
    (by dsimp only; omega)
  obtain ⟨gs,gone,copy⟩ := reachable_tiled wrote
  obtain ⟨freed,dropped,back,last,released⟩ := reachable_free wrote copy (l := l) (by simp [member])
  dsimp only at back released last
  have apart (other : Live) (present : other ∈ s.live) : Apart b.span other.block.span := next.new_apart rfl present
  have distinct : (⟨b,n⟩ : Live) ≠ l := by
    rintro rfl
    have side := apart _ member
    simp only [Apart,Block.span,stop_eq] at side
    omega
  have live : (⟨b,n⟩::s.live).erase l = ⟨b,n⟩::s.live.erase l := List.erase_cons_tail (by simpa using distinct)
  have held : l ∈ (⟨b,n⟩::s.live : List Live) := by simp [member]
  refine ⟨⟨freed,(⟨b,n⟩::s.live).erase l,dropped⟩,back,last,live,large,?_,?_,apart,?_⟩
  · intro i bound
    have side := apart l member
    simp only [Apart,Block.span,stop_eq] at side
    have new : (⟨b,n⟩ : Live) ∈ (⟨b,n⟩::s.live).erase l := by simp [live]
    have fresh := copy.others_kept held released new
      (show b.start ≤ b.ptr + i by simp only [Block.ptr]; omega)
      (show b.ptr + i < b.stop by simp only [Block.ptr,Block.stop]; omega)
    rw [fresh]
    have source := tiled.live_kept allocated member (x := l.block.ptr + i) (by simp only [Block.ptr]; omega)
      (by simp only [Block.ptr,Block.stop]; omega)
    rw [← source]
    exact memcpy_copies (by simp only [Block.ptr,sizeofHeapNode]; omega) bound
  · intro other remains same
    have side := copy.erase_apart held remains
    simp only [Block.ptr,stop_eq] at same side
    omega
  · intro other remains x low high
    simp only [payload,Block.ptr,Block.stop] at low high
    have side := apart other (List.mem_of_mem_erase remains)
    simp only [Apart,Block.span,stop_eq] at side
    have still : other ∈ (⟨b,n⟩::s.live).erase l := by simp [live,remains]
    have after := copy.others_kept held released still (x := x) (by omega)
      (by rw [stop_eq]; simp only [sizeofHeapNode] at high; omega)
    have before := tiled.live_kept allocated (List.mem_of_mem_erase remains) (x := x) (by omega)
      (by rw [stop_eq]; simp only [sizeofHeapNode] at high; omega)
    rw [after,← before]
    refine memcpy_within h.memory b.ptr l.block.ptr _ x ?_
    simp only [Block.ptr,sizeofHeapNode] at high ⊢
    omega

/-- `realloc` of a live block resets the system if no free block is large enough. It returns `NULL`, with
the heap as it was, for a request that no block may serve, and otherwise a new live block that starts with
the contents of the old one. -/
theorem realloc_preserves {extram n : Nat} {a : Arena} {s : State} {l : Live} (reach : Reachable extram a s)
    (member : l ∈ s.live) (positive : 0 < n) :
    (n ≤ mem + extram ∧ (∃ fs, FreeList s.heap.memory s.heap.bermudaHeapHead fs ∧ ∀ f ∈ fs, f.size < n) ∧
      realloc extram s.heap l.block.ptr n = some (.exit,s.heap)) ∨
    (mem + extram < n ∧ realloc extram s.heap l.block.ptr n = some (.null,s.heap)) ∨
    ∃ b t, realloc extram s.heap l.block.ptr n = some (.block b.ptr,t.heap) ∧ Moved extram a s l b n t := by
  obtain ⟨fs,lost,tiled⟩ := reachable_tiled reach
  have node := ptr_node (tiled.mem_live member)
  have address : l.block.ptr ≠ 0 := by simp only [Block.ptr,sizeofHeapNode]; omega
  cases call : bermudaHeapAlloc extram s.heap n with
  | none => exact absurd call (tiled.alloc_returns n)
  | some result =>
    obtain ⟨outcome,h⟩ := result
    cases outcome with
    | exit =>
      obtain ⟨request,small,same⟩ := tiled.exits call
      refine .inl ⟨request,⟨fs,tiled.list,small⟩,?_⟩
      simp [realloc,reallocBy,positive.ne',address,tiled.enters,call,same]
    | null =>
      obtain ⟨large,same⟩ := tiled.refused call
      refine .inr (.inl ⟨large,?_⟩)
      simp [realloc,reallocBy,positive.ne',address,tiled.enters,call,same]
    | block p =>
      obtain ⟨b,rest,rfl,found,next,allocated⟩ := tiled.taken call
      obtain ⟨t,freed,moved⟩ := realloc_moved reach tiled member call found next allocated
      have sized : size h.memory l.block.start = l.block.size := (next.marked l (by simp [member])).2
      have count : (if n > l.block.size then l.block.size else n) = min l.block.size n := by
        rw [Nat.min_def]
        split_ifs <;> omega
      refine .inr (.inr ⟨b,t,?_,moved⟩)
      simp [realloc,reallocBy,positive.ne',address,tiled.enters,call,node,sized,count,freed]

/-- A block of 4 bytes whose second byte was written grows to one of 6 behind it. -/
theorem realloc_preserves_lowArena : ∃ (s : State) (l : Live) (b : Block) (t : State), l.block.ptr = 0x105 ∧
    s.heap.memory 0x106 = 0x5A ∧ realloc 0 s.heap 0x105 6 = some (.block b.ptr,t.heap) ∧ b.ptr = 0x10E ∧
    Moved 0 lowArena s l b 6 t := by
  obtain ⟨s,made,present,written,result⟩ : ∃ s, runs 0 lowArena (fun _ => 0) [.alloc 4,.write 0x106 0x5A] = some s ∧
      (⟨⟨0x100,4⟩,4⟩ : Live) ∈ s.live ∧ s.heap.memory 0x106 = 0x5A ∧
      (realloc 0 s.heap 0x105 6).map (·.1) = some (.block 0x10E) :=
    ⟨_,(Option.some_get (by decide +kernel)).symm,by decide +kernel,by decide +kernel,by decide +kernel⟩
  have pointer : (⟨⟨0x100,4⟩,4⟩ : Live).block.ptr = 0x105 := rfl
  have preserved := realloc_preserves (n := 6) (reachable_runs made) present (by decide)
  rw [pointer] at preserved
  rcases preserved with ⟨-,-,reset⟩ | ⟨-,null⟩ | ⟨b,t,call,moved⟩
  · rw [reset] at result
    cases result
  · rw [null] at result
    cases result
  · have place : b.ptr = 0x10E := by
      rw [call] at result
      exact AllocResult.block.inj (Option.some.inj result)
    exact ⟨s,_,b,t,pointer,written,call,place,moved⟩

/-! `realloc` with the `memcpy` of the library. -/

/-- The bytes that `memcpy` of the library leaves. -/
def libraryCopy (m : Memory) (dest src n : Nat) : Memory :=
  (Clib.MemCopy.memcpy m (BitVec.ofNat 16 dest) (BitVec.ofNat 16 src) (BitVec.ofNat 16 n)).1.memory

/-- `realloc`, linked with the library. -/
def linkedRealloc (extram : Nat) (h : Heap) (ptr length : Nat) : Option (AllocResult × Heap) :=
  reallocBy libraryCopy extram h ptr length

theorem memcpy_moved (m : Memory) {dest src n : Nat} (apart : dest + n ≤ src ∨ src + n ≤ dest) :
    memcpy m dest src n = moved m dest src n := by
  ext1 x
  by_cases inside : dest ≤ x ∧ x < dest + n
  · obtain ⟨i,rfl⟩ := Nat.exists_eq_add_of_le inside.1
    rw [memcpy_copies apart (by omega),moved_inside (by omega)]
  · rw [memcpy_within m dest src n x (by omega),moved_within m dest src n x (by omega)]

theorem libraryCopy_memcpy (m : Memory) {dest src n : Nat} (apart : dest + n ≤ src ∨ src + n ≤ dest)
    (toEnd : dest + n ≤ 2^16) (fromEnd : src + n ≤ 2^16) : libraryCopy m dest src n = memcpy m dest src n := by
  by_cases nothing : n = 0
  · subst nothing
    rfl
  · have atDest : (BitVec.ofNat 16 dest).toNat = dest := Nat.mod_eq_of_lt (by omega)
    have atSrc : (BitVec.ofNat 16 src).toNat = src := Nat.mod_eq_of_lt (by omega)
    have count : (BitVec.ofNat 16 n).toNat = n := Nat.mod_eq_of_lt (by omega)
    have copied := (Clib.MemCopy.memcpy_moved m (BitVec.ofNat 16 dest) (BitVec.ofNat 16 src) (BitVec.ofNat 16 n)
      (by omega) (by omega)).1
    rw [atDest,atSrc,count] at copied
    rw [libraryCopy,copied,memcpy_moved m apart]

/-- The word copy of the library serves `realloc` as well as one that copies byte by byte. -/
theorem linkedRealloc_realloc {extram : Nat} {a : Arena} {s : State} {l : Live} (reach : Reachable extram a s)
    (member : l ∈ s.live) (n : Nat) : linkedRealloc extram s.heap l.block.ptr n = realloc extram s.heap l.block.ptr n := by
  obtain ⟨fs,lost,tiled⟩ := reachable_tiled reach
  have node := ptr_node (tiled.mem_live member)
  cases call : bermudaHeapAlloc extram s.heap n with
  | none => simp [linkedRealloc,realloc,reallocBy,call]
  | some result =>
    obtain ⟨outcome,h⟩ := result
    cases outcome with
    | exit => simp [linkedRealloc,realloc,reallocBy,call]
    | null => simp [linkedRealloc,realloc,reallocBy,call]
    | block p =>
      obtain ⟨b,rest,rfl,found,next,-⟩ := tiled.taken call
      have sized : size h.memory l.block.start = l.block.size := (next.marked l (by simp [member])).2
      have large := (takeFit_size found).1
      have apart : Apart b.span l.block.span := next.new_apart rfl member
      have inside := next.mem_live (l := ⟨b,n⟩) (by simp)
      have other := tiled.mem_live member
      simp only [Apart,Block.span,Block.InSpace,stop_eq] at apart inside other
      generalize count : (if n > l.block.size then l.block.size else n) = bytes
      have small : bytes ≤ l.block.size ∧ bytes ≤ b.size := by
        rw [← count]
        split_ifs <;> omega
      have copied : libraryCopy h.memory b.ptr l.block.ptr bytes = memcpy h.memory b.ptr l.block.ptr bytes := libraryCopy_memcpy h.memory
        (by simp only [Block.ptr,sizeofHeapNode]; omega) (by simp only [Block.ptr,sizeofHeapNode]; omega)
        (by simp only [Block.ptr,sizeofHeapNode]; omega)
      simp [linkedRealloc,realloc,reallocBy,call,node,sized,count,copied]

theorem linkedRealloc_realloc_lowArena : ∃ s : State, s.live.length = 1 ∧
    linkedRealloc 0 s.heap 0x105 6 = realloc 0 s.heap 0x105 6 := by
  obtain ⟨s,made,held⟩ : ∃ s, runs 0 lowArena (fun _ => 0) [.alloc 4,.write 0x106 0x5A] = some s ∧
      s.live = [⟨⟨0x100,4⟩,4⟩] := ⟨_,(Option.some_get (by decide +kernel)).symm,by decide +kernel⟩
  exact ⟨s,by rw [held]; rfl,linkedRealloc_realloc (l := ⟨⟨0x100,4⟩,4⟩) (reachable_runs made) (by simp [held]) 6⟩

end BermudaOS.Sys.Mem
