import BermudaOS.Sys.MemHeaders

/-! `BermudaHeapAlloc` refines first fit. The walk passes the blocks that are too
small, the split turns one listed block into two, and taking a block unlinks it
and marks its header; together they are `takeFit` on the list in memory. -/
namespace BermudaOS.Sys.Mem
open Lib.ByteMemory Lib.Chains Lib.Spans

/-- The second memory differs from the first inside the listed blocks only. -/
def WithinBlocks (m other : Memory) (bs : List Block) : Prop :=
  ∀ x, cover (spans bs) x = 0 → other x = m x

theorem WithinBlocks.trans {m other last : Memory} {bs : List Block}
    (first : WithinBlocks m other bs) (second : WithinBlocks other last bs) :
    WithinBlocks m last bs := fun x outside => (second x outside).trans (first x outside)

theorem WithinBlocks.mono {m other : Memory} {bs cs : List Block} (within : WithinBlocks m other bs)
    (more : ∀ x, cover (spans bs) x ≤ cover (spans cs) x) : WithinBlocks m other cs :=
  fun x outside => within x (by have := more x; omega)

theorem within_blocks {m other : Memory} {bs : List Block} {b : Block} {lo hi : Nat}
    (within : Within m other lo hi) (member : b ∈ bs) (low : b.start ≤ lo) (high : hi ≤ b.stop) :
    WithinBlocks m other bs := by
  intro x outside
  have clear := cover_zero outside (List.mem_map_of_mem (f := Block.span) member)
  simp only [Block.span] at clear
  exact within x (by omega)

theorem allocWalk_skip {req fuel : Nat} {m : Memory} {p q prev : Option Nat} {before : List Block}
    (seg : Seg (next m) p (before.map Block.start) q)
    (small : ∀ f ∈ before, size m f.start < req) :
    allocWalk req (fuel + before.length) m p prev =
      allocWalk req fuel m q ((before.getLast?.map Block.start).or prev) := by
  induction before generalizing p prev with
  | nil => rw [show p = q from seg]; rfl
  | cons f before ih =>
    have less := small f (by simp)
    rw [seg.1,List.length_cons,← Nat.add_assoc]
    simp only [allocWalk]
    rw [if_neg (by omega),if_neg (by omega),
      ih seg.2 (fun g member => small g (by simp [member]))]
    cases before with
    | nil => rfl
    | cons g before => rw [List.getLast?_cons_cons,List.getLast?_cons]; rfl

/-- Splitting a listed block leaves its two halves in its place. -/
theorem split_freeList {m : Memory} {p : Option Nat} {before after : List Block} {b : Block}
    {req : Nat} (list : FreeList m p (before ++ b::after))
    (large : req + sizeofHeapNode + 4 ≤ b.size) :
    FreeList (bermudaHeapSplitNode m b.start req) p (before ++ ⟨b.start,req⟩::
        ⟨b.start + (req + sizeofHeapNode),b.size - req - sizeofHeapNode⟩::after) ∧
      Within m (bermudaHeapSplitNode m b.start req) b.start b.stop := by
  obtain ⟨free,sized⟩ := list.header b (by simp)
  obtain ⟨low,high⟩ := list.inside b (by simp)
  have apart := ordered_apart list.ordered
  simp only [stop_eq,sizeofHeapNode,ioOffset] at low high large ⊢
  have there : ptrAdd b.start (req + sizeofHeapNode) = b.start + (req + 5) :=
    Nat.mod_eq_of_lt (by simp only [sizeofHeapNode]; omega)
  have left : sizeSub (sizeSub (size m b.start) req) sizeofHeapNode = b.size - req - 5 := by
    rw [sized]
    simp only [sizeSub,sizeofHeapNode]
    omega
  set rest := b.start + (req + 5) with hrest
  set m₁ := bermudaHeapInitHeader m rest (b.size - req - 5) with hm₁
  set m₂ := setNext m₁ rest (next m₁ b.start) with hm₂
  set m₃ := setNext m₂ b.start (some rest) with hm₃
  have result : bermudaHeapSplitNode m b.start req = setSize m₃ b.start req := by
    have linked : toPtr rest = some rest := toPtr_some (by omega)
    simp only [bermudaHeapSplitNode,free,ne_eq,not_true_eq_false,if_false,there,left,linked,
      hm₁,hm₂,hm₃]
  rw [result]
  have inner : Within m m₁ rest (rest+5) :=
    ((setMagic_within m rest _).trans (setSize_within _ rest _)).trans (setNext_within _ rest _)
  have onward : next m₁ b.start = next m b.start := (within_sameHeader inner (by omega)).2.1
  have second : Within m m₂ rest (rest+5) := inner.trans (setNext_within _ rest _)
  have header : Within m₂ (setSize m₃ b.start req) b.start (b.start+5) :=
    (setNext_within m₂ b.start _).trans (setSize_within m₃ b.start req)
  have whole : Within m (setSize m₃ b.start req) b.start (b.start + 5 + b.size) :=
    (second.mono (by omega) (by omega)).trans (header.mono (by omega) (by omega))
  have others (f : Block) (member : f ∈ before ++ after) :
      SameHeader m (setSize m₃ b.start req) f.start := by
    have side := apart f member
    simp only [stop_eq] at side
    exact within_sameHeader whole (by omega)
  have restSame : SameHeader m₂ (setSize m₃ b.start req) rest := within_sameHeader header (by omega)
  have restNext : next (setSize m₃ b.start req) rest = next m b.start := by
    rw [restSame.2.1,hm₂,onward,next_setNext _ _ _ (fun v link => next_bound link)]
  have firstNext : next (setSize m₃ b.start req) b.start = some rest := by
    rw [next_setSize,hm₃,next_setNext]
    intro v equal
    cases equal
    omega
  refine ⟨⟨?_,?_,?_,?_⟩,whole⟩
  · have chain := list.chain
    rw [List.map_append,List.map_cons] at chain
    rw [List.map_append,List.map_cons,List.map_cons]
    apply seg_link_behind chain firstNext restNext
    intro a member
    rw [← List.map_append] at member
    obtain ⟨f,present,rfl⟩ := List.mem_map.mp member
    exact (others f present).2.1
  · intro f member
    rcases List.mem_append.mp member with early | member
    · rw [(others f (by simp [early])).1,(others f (by simp [early])).2.2]
      exact list.header f (by simp [early])
    · rcases List.mem_cons.mp member with rfl | member
      · refine ⟨?_,size_setSize _ _ _ (by omega)⟩
        rw [magic_setSize,hm₃,magic_setNext,(within_sameHeader second (by omega)).1]
        exact free
      · rcases List.mem_cons.mp member with rfl | late
        · refine ⟨?_,?_⟩
          · rw [restSame.1,hm₂,magic_setNext,hm₁,bermudaHeapInitHeader,magic_setNext,magic_setSize]
            exact magic_setMagic _ _ _ (by decide)
          · rw [restSame.2.2,hm₂,size_setNext,hm₁,bermudaHeapInitHeader,size_setNext]
            exact size_setSize _ _ _ (by omega)
        · rw [(others f (by simp [late])).1,(others f (by simp [late])).2.2]
          exact list.header f (by simp [late])
  · obtain ⟨early,right,across⟩ := List.pairwise_append.mp list.ordered
    obtain ⟨first,late⟩ := List.pairwise_cons.mp right
    have tail (g : Block) (member : g ∈ after) : rest + 5 + (b.size - req - 5) ≤ g.start := by
      have bound := first g member
      simp only [stop_eq] at bound
      omega
    refine List.pairwise_append.mpr ⟨early,?_,?_⟩
    · refine List.pairwise_cons.mpr ⟨?_,List.pairwise_cons.mpr ⟨tail,late⟩⟩
      intro g member
      simp only [stop_eq]
      rcases List.mem_cons.mp member with rfl | later
      · dsimp only; omega
      · have bound := tail g later
        omega
    · intro f member g present
      have bound := across f member b (by simp)
      rcases List.mem_cons.mp present with rfl | present
      · exact bound
      · rcases List.mem_cons.mp present with rfl | late
        · dsimp only; omega
        · exact across f member g (by simp [late])
  · intro f member
    rcases List.mem_append.mp member with early | member
    · exact list.inside f (by simp [early])
    · rcases List.mem_cons.mp member with rfl | member
      · exact ⟨low,by simp only [stop_eq]; omega⟩
      · rcases List.mem_cons.mp member with rfl | late
        · exact ⟨by simp only [ioOffset]; omega,by simp only [stop_eq]; omega⟩
        · exact list.inside f (by simp [late])

theorem FreeList.without {m : Memory} {p q : Option Nat} {before after : List Block} {b : Block}
    (list : FreeList m p (before ++ b::after))
    (chain : Chain (next m) q ((before ++ after).map Block.start)) :
    FreeList m q (before ++ after) where
  chain := chain
  header f member := list.header f (by
    rcases List.mem_append.mp member with early | late
    · simp [early]
    · simp [late])
  ordered := list.ordered.sublist (by simp)
  inside f member := list.inside f (by
    rcases List.mem_append.mp member with early | late
    · simp [early]
    · simp [late])

theorem use_freeList {h : Heap} {before after : List Block} {b : Block}
    (list : FreeList h.memory h.bermudaHeapHead (before ++ b::after)) :
    let used := bermudaHeapUseBlock h b.start (before.getLast?.map Block.start)
    FreeList used.memory used.bermudaHeapHead (before ++ after) ∧
      magic used.memory b.start = bermudaMmAllocMagic ∧ size used.memory b.start = b.size ∧
      used.memLock = h.memLock ∧
      WithinBlocks h.memory used.memory (before ++ b::after) := by
  intro used
  obtain ⟨free,sized⟩ := list.header b (by simp)
  have apart := ordered_apart list.ordered
  have bspan := span_lt b
  set m₁ := setMagic h.memory b.start bermudaMmAllocMagic with hm₁
  have marked : Within h.memory m₁ b.start (b.start+5) := setMagic_within _ _ _
  have room : b.start + 5 ≤ b.stop := by simp only [stop_eq]; omega
  have others (f : Block) (member : f ∈ before ++ after) : SameHeader h.memory m₁ f.start := by
    have side := apart f member
    simp only [stop_eq] at side
    exact within_sameHeader marked (by omega)
  have taken : magic m₁ b.start = bermudaMmAllocMagic := magic_setMagic _ _ _ (by decide)
  rcases List.eq_nil_or_concat before with rfl | ⟨ahead,a,rfl⟩
  · have result : used = {h with memory := m₁,bermudaHeapHead := next m₁ b.start} := by
      simp only [used,bermudaHeapUseBlock,free,List.getLast?_nil,Option.map_none,ne_eq,
        not_true_eq_false,if_false]
      cases next m₁ b.start <;> rfl
    rw [result]
    refine ⟨?_,taken,by rw [hm₁,size_setMagic,sized],rfl,within_blocks marked (by simp) le_rfl room⟩
    have rest : FreeList h.memory (next h.memory b.start) ([] ++ after) :=
      list.without list.chain.2
    rw [show next m₁ b.start = next h.memory b.start from next_setMagic _ _ _]
    exact rest.same others
  · have result : used = {h with memory := setNext m₁ a.start (next m₁ b.start)} := by
      simp only [used,bermudaHeapUseBlock,free,List.concat_eq_append,List.getLast?_append,
        List.getLast?_singleton,Option.some_or,Option.map_some,ne_eq,not_true_eq_false,if_false]
      cases next m₁ b.start <;> rfl
    rw [List.concat_eq_append] at list others ⊢
    have side : a.stop ≤ b.start := by
      obtain ⟨_,_,across⟩ := List.pairwise_append.mp list.ordered
      exact across a (by simp) b (by simp)
    simp only [stop_eq] at side
    have linked : Within m₁ (setNext m₁ a.start (next m₁ b.start)) a.start (a.start+5) :=
      setNext_within _ _ _
    have bsame : SameHeader m₁ (setNext m₁ a.start (next m₁ b.start)) b.start :=
      within_sameHeader linked (by omega)
    rw [result]
    refine ⟨?_,by rw [bsame.1,taken],by rw [bsame.2.2,hm₁,size_setMagic,sized],rfl,?_⟩
    · have link : next (setNext m₁ a.start (next m₁ b.start)) a.start = next h.memory b.start := by
        rw [next_setNext _ _ _ (fun v found => next_bound found)]
        exact next_setMagic _ _ _
      have clear (f : Block) (member : f ∈ ahead ++ after) :
          SameHeader m₁ (setNext m₁ a.start (next m₁ b.start)) f.start := by
        have ordered := list.ordered
        rw [List.append_assoc,List.singleton_append] at ordered
        have beside := ordered_apart ordered f (by
          rcases List.mem_append.mp member with early | late
          · simp [early]
          · simp [late])
        simp only [stop_eq] at beside
        exact within_sameHeader linked (by omega)
      have same (f : Block) (member : f ∈ ahead ++ after) :
          SameHeader h.memory (setNext m₁ a.start (next m₁ b.start)) f.start := by
        have first := others f (by
          rcases List.mem_append.mp member with early | late
          · simp [early]
          · simp [late])
        have second := clear f member
        exact ⟨second.1.trans first.1,second.2.1.trans first.2.1,second.2.2.trans first.2.2⟩
      have target : ahead ++ [a] ++ after = ahead ++ a::after := by simp
      rw [target]
      have asame : magic (setNext m₁ a.start (next m₁ b.start)) a.start = bermudaMmFreeMagic ∧
          size (setNext m₁ a.start (next m₁ b.start)) a.start = a.size := by
        rw [magic_setNext,size_setNext,(others a (by simp)).1,(others a (by simp)).2.2]
        exact list.header a (by simp)
      refine ⟨?_,?_,?_,?_⟩
      · have chain := list.chain
        rw [List.append_assoc,List.singleton_append,List.map_append,List.map_cons,
          List.map_cons] at chain
        rw [List.map_append,List.map_cons]
        apply seg_drop_behind chain link
        intro s member
        rw [← List.map_append] at member
        obtain ⟨f,present,rfl⟩ := List.mem_map.mp member
        exact (same f present).2.1
      · intro f member
        rcases List.mem_append.mp member with early | member
        · rw [(same f (by simp [early])).1,(same f (by simp [early])).2.2]
          exact list.header f (by simp [early])
        · rcases List.mem_cons.mp member with rfl | late
          · exact asame
          · rw [(same f (by simp [late])).1,(same f (by simp [late])).2.2]
            exact list.header f (by simp [late])
      · exact list.ordered.sublist (by simp)
      · intro f member
        refine list.inside f ?_
        rcases List.mem_append.mp member with early | member
        · simp [early]
        · rcases List.mem_cons.mp member with rfl | late
          · simp
          · simp [late]
    · have aroom : a.start + 5 ≤ a.stop := by simp only [stop_eq]; omega
      exact (within_blocks marked (by simp) le_rfl room).trans (within_blocks linked (by simp) le_rfl aroom)

theorem allocWalk_end (req fuel : Nat) (m : Memory) (prev : Option Nat) :
    allocWalk req fuel m none prev = some (m,none,prev) := by cases fuel <;> rfl

/-- Where the walk meets a block that fits, it splits the block if the rest can
carry a header and four more bytes, and stops. -/
theorem allocWalk_fit {req fuel : Nat} {m : Memory} {prev : Option Nat} {b : Block}
    (sized : size m b.start = b.size) (fits : req ≤ b.size) (inside : b.InSpace) :
    allocWalk req (fuel+1) m (some b.start) prev =
      some (if b.size < req + sizeofHeapNode + 4 then m else bermudaHeapSplitNode m b.start req,
        some b.start,prev) := by
  obtain ⟨low,high⟩ := inside
  simp only [ioOffset,stop_eq] at low high
  simp only [allocWalk,sized]
  by_cases exact : b.size = req
  · rw [if_pos exact,if_pos (by simp only [sizeofHeapNode]; omega)]
  · have wrap : (req + sizeofHeapNode + 4) % 2^16 = req + sizeofHeapNode + 4 :=
      Nat.mod_eq_of_lt (by simp only [sizeofHeapNode]; omega)
    rw [if_neg exact,if_pos (by omega),wrap]
    split_ifs <;> rfl

theorem allocWalk_list {req : Nat} {m : Memory} {p : Option Nat} {before after : List Block}
    {b : Block} (list : FreeList m p (before ++ b::after)) (small : ∀ f ∈ before, f.size < req)
    (fits : req ≤ b.size) :
    allocWalk req nodeLimit m p none =
      some (if b.size < req + sizeofHeapNode + 4 then m else bermudaHeapSplitNode m b.start req,
        some b.start,before.getLast?.map Block.start) := by
  have count := list.length_lt
  obtain ⟨q,passed,start,_⟩ := (seg_append _ _ _ _ _).mp (List.map_append ▸ list.chain)
  subst start
  have size_eq (f : Block) (member : f ∈ before) : size m f.start < req := by
    rw [(list.header f (by simp [member])).2]
    exact small f member
  obtain ⟨fuel,enough⟩ : ∃ fuel, nodeLimit = fuel + 1 + before.length := by
    simp only [List.length_append,List.length_cons] at count
    exact ⟨nodeLimit - 1 - before.length,by omega⟩
  rw [enough,allocWalk_skip passed size_eq,
    allocWalk_fit (list.header b (by simp)).2 fits (list.inside b (by simp)),Option.or_none]

theorem alloc_null {extram n : Nat} {h : Heap} (large : mem + extram < n) :
    bermudaHeapAlloc extram h n = some (.null,h) := if_pos large

/-- With no block large enough the call resets the system and changes nothing. -/
theorem alloc_exit {extram n : Nat} {h : Heap} {fs : List Block}
    (list : FreeList h.memory h.bermudaHeapHead fs) (unlocked : bermudaMutexEnter h.memLock = some ())
    (request : n ≤ mem + extram) (full : takeFit n fs = none) :
    bermudaHeapAlloc extram h n = some (.exit,h) := by
  rcases h with ⟨memory,head,lock⟩
  dsimp only at list unlocked
  have small := takeFit_none.mp full
  have count := list.length_lt
  have size_eq (f : Block) (member : f ∈ fs) : size memory f.start < n := by
    rw [(list.header f member).2]
    exact small f member
  obtain ⟨fuel,enough⟩ : ∃ fuel, nodeLimit = fuel + fs.length := ⟨nodeLimit - fs.length,by omega⟩
  have walk : allocWalk n nodeLimit memory head none =
      some (memory,none,fs.getLast?.map Block.start) := by
    rw [enough,allocWalk_skip list.chain size_eq,allocWalk_end,Option.or_none]
  simp [bermudaHeapAlloc,not_lt.mpr request,unlocked,walk]

theorem alloc_takes {extram n : Nat} {h : Heap} {fs rest : List Block} {b : Block}
    (list : FreeList h.memory h.bermudaHeapHead fs) (unlocked : bermudaMutexEnter h.memLock = some ())
    (request : n ≤ mem + extram) (found : takeFit n fs = some (b,rest)) :
    ∃ used, bermudaHeapAlloc extram h n = some (.block (ptrAdd b.start sizeofHeapNode),used) ∧
      FreeList used.memory used.bermudaHeapHead rest ∧
      magic used.memory b.start = bermudaMmAllocMagic ∧ size used.memory b.start = b.size ∧
      used.memLock = 0 ∧ WithinBlocks h.memory used.memory fs := by
  rcases h with ⟨memory,head,lock⟩
  dsimp only at list unlocked
  obtain ⟨before,f,after,rfl,small,fits⟩ := takeFit_some found
  have walk := allocWalk_list list small fits
  rw [takeFit_split small,takeFit,if_pos fits] at found
  by_cases whole : f.size < n + sizeofHeapNode + 4
  · rw [if_pos whole,Option.map_some,Option.some.injEq,Prod.mk.injEq] at found
    obtain ⟨rfl,rfl⟩ := found
    obtain ⟨remaining,marked,sized,_,within⟩ := use_freeList (h := ⟨memory,head,lock⟩) list
    refine ⟨bermudaMutexRelease (bermudaHeapUseBlock ⟨memory,head,lock⟩ f.start
      (before.getLast?.map Block.start)),?_,remaining,marked,sized,rfl,within⟩
    simp [bermudaHeapAlloc,not_lt.mpr request,unlocked,walk,whole]
  · rw [if_neg whole,Option.map_some,Option.some.injEq,Prod.mk.injEq] at found
    obtain ⟨rfl,rfl⟩ := found
    obtain ⟨halves,inner⟩ := split_freeList list (not_lt.mp whole)
    set m := bermudaHeapSplitNode memory f.start n with hm
    obtain ⟨remaining,marked,sized,_,within⟩ := use_freeList (h := ⟨m,head,lock⟩) halves
    refine ⟨bermudaMutexRelease (bermudaHeapUseBlock ⟨m,head,lock⟩ f.start
      (before.getLast?.map Block.start)),?_,remaining,marked,sized,rfl,?_⟩
    · simp [bermudaHeapAlloc,not_lt.mpr request,unlocked,walk,whole]
    · refine (within_blocks inner (by simp) le_rfl le_rfl).trans (within.mono fun x => ?_)
      have pieces := takeFit_cover (show takeFit n (f::after) = some _ from
        (by rw [takeFit,if_pos fits,if_neg whole])) x
      simp only [spans,List.map_append,cover_append] at pieces ⊢
      exact Nat.add_le_add_left (le_of_eq pieces) _

theorem ptrAdd_ptr {b : Block} (inside : b.InSpace) (positive : 0 < b.size) :
    ptrAdd b.start sizeofHeapNode = b.ptr := by
  have high := inside.2
  simp only [stop_eq] at high
  exact Nat.mod_eq_of_lt (by simp only [sizeofHeapNode]; omega)

theorem alloc_block {extram n : Nat} {h : Heap} {fs rest : List Block} {b : Block}
    (list : FreeList h.memory h.bermudaHeapHead fs) (unlocked : h.memLock = 0)
    (request : n ≤ mem + extram) (positive : ∀ f ∈ fs, 0 < f.size)
    (found : takeFit n fs = some (b,rest)) :
    ∃ used, bermudaHeapAlloc extram h n = some (.block b.ptr,used) ∧
      FreeList used.memory used.bermudaHeapHead rest ∧
      magic used.memory b.start = bermudaMmAllocMagic ∧ size used.memory b.start = b.size ∧
      used.memLock = 0 ∧ WithinBlocks h.memory used.memory fs := by
  obtain ⟨used,call,taken⟩ := alloc_takes list (by rw [unlocked]; rfl) request found
  obtain ⟨f,member,start⟩ := takeFit_start found
  have pointer := ptrAdd_ptr (list.inside f member) (positive f member)
  rw [← start,pointer,Block.ptr,start] at call
  exact ⟨used,call,taken⟩

/-- First fit. The lowest block that is large enough is handed out, whole or cut down to the
request, and what is cut off takes its place in the list; without such a block the system is reset
and the list stays. -/
theorem alloc_firstFit {extram n : Nat} {h : Heap} {fs : List Block}
    (list : FreeList h.memory h.bermudaHeapHead fs) (unlocked : bermudaMutexEnter h.memLock = some ())
    (request : n ≤ mem + extram) :
    (∀ before b after, fs = before ++ b::after → (∀ f ∈ before, f.size < n) → n ≤ b.size →
      ∃ used cut, bermudaHeapAlloc extram h n = some (.block (ptrAdd b.start sizeofHeapNode),used) ∧
        magic used.memory b.start = bermudaMmAllocMagic ∧
        n ≤ size used.memory b.start ∧ size used.memory b.start < n + sizeofHeapNode + 4 ∧
        FreeList used.memory used.bermudaHeapHead (before ++ cut ++ after) ∧
        (cut = [] ∧ size used.memory b.start = b.size ∨
          ∃ r, cut = [r] ∧ 4 ≤ r.size ∧ size used.memory b.start = n ∧
            r.start = b.start + sizeofHeapNode + n ∧ r.stop = b.stop)) ∧
    ((∀ f ∈ fs, f.size < n) → bermudaHeapAlloc extram h n = some (.exit,h)) := by
  refine ⟨?_,fun small => alloc_exit list unlocked request (takeFit_none.mpr small)⟩
  rintro before b after rfl small fits
  by_cases whole : b.size < n + sizeofHeapNode + 4
  · have found : takeFit n (before ++ b::after) = some (b,before ++ after) := by
      rw [takeFit_split small,takeFit,if_pos fits,if_pos whole]
      rfl
    obtain ⟨used,call,remaining,marked,sized,-,-⟩ := alloc_takes list unlocked request found
    refine ⟨used,[],call,marked,by omega,by omega,?_,.inl ⟨rfl,sized⟩⟩
    rw [List.append_nil]
    exact remaining
  · have found : takeFit n (before ++ b::after) = some (⟨b.start,n⟩,before ++
        ⟨b.start + (n + sizeofHeapNode),b.size - n - sizeofHeapNode⟩::after) := by
      rw [takeFit_split small,takeFit,if_pos fits,if_neg whole]
      rfl
    obtain ⟨used,call,remaining,marked,sized,-,-⟩ := alloc_takes list unlocked request found
    dsimp only at sized marked call
    simp only [sizeofHeapNode] at whole
    refine ⟨used,[⟨b.start + (n + sizeofHeapNode),b.size - n - sizeofHeapNode⟩],call,marked,by omega,
      by simp only [sizeofHeapNode]; omega,?_,.inr ⟨_,rfl,?_,sized,?_,?_⟩⟩
    · rw [List.append_assoc,List.singleton_append]
      exact remaining
    · simp only [sizeofHeapNode]
      omega
    · dsimp only
      omega
    · simp only [stop_eq,sizeofHeapNode]
      omega

/-- Two free blocks behind the I/O registers, of 4 and of 20 bytes. -/
def lowHeap : Heap :=
  let m := bermudaHeapInitHeader (fun _ => 0) 0x100 4
  ⟨bermudaHeapInitHeader (setNext m 0x100 (some 0x120)) 0x120 20,some 0x100,0⟩

theorem lowHeap_freeList : FreeList lowHeap.memory lowHeap.bermudaHeapHead [⟨0x100,4⟩,⟨0x120,20⟩] where
  chain := by
    refine ⟨rfl,?_⟩
    rw [show next lowHeap.memory 0x100 = some 0x120 by decide]
    exact ⟨rfl,show next lowHeap.memory 0x120 = none by decide⟩
  header := by decide
  ordered := by simp [stop_eq]
  inside := by
    refine List.forall_mem_cons.mpr ⟨?_,List.forall_mem_singleton.mpr ?_⟩ <;> constructor <;> decide

/-- The first block is too short, and the second is cut down. -/
theorem alloc_firstFit_lowHeap : ∃ used cut, bermudaHeapAlloc 0 lowHeap 6 = some (.block 0x125,used) ∧
    FreeList used.memory used.bermudaHeapHead ([⟨0x100,4⟩] ++ cut ++ []) ∧ cut ≠ [] := by
  obtain ⟨used,cut,call,-,-,shorter,remaining,⟨-,whole⟩ | ⟨r,rfl,-⟩⟩ :=
    (alloc_firstFit lowHeap_freeList rfl (show 6 ≤ mem + 0 by decide)).1 [⟨0x100,4⟩] ⟨0x120,20⟩ [] rfl (by decide)
      (by decide)
  · rw [whole] at shorter
    exact absurd shorter (by decide)
  · exact ⟨used,[r],call,remaining,List.cons_ne_nil _ _⟩

end BermudaOS.Sys.Mem
