import BermudaOS.Sys.MemAlloc

/-! `BermudaHeapFree` refines giving a block back. Insertion puts the block at its
address, and the merge walk, started at the head read before the insertion, joins
it with the neighbours it touches. Two blocks never come back: one without a
payload, and any block freed while the free list is empty. -/
namespace BermudaOS.Sys.Mem
open Lib.ByteMemory Lib.Chains Lib.Spans

theorem returnWalk_last {block : Nat} (fuel : Nat) {m : Memory} {p : Option Nat}
    {ahead after : List Block} {a : Block}
    (chain : Chain (next m) p ((ahead ++ a::after).map Block.start))
    (low : ∀ f ∈ ahead ++ [a], f.start < block) (high : ∀ f ∈ after, block < f.start) :
    returnWalk block (fuel + 1 + ahead.length) m p =
      some (0,if after = [] then setNext (setNext m a.start (some block)) block none
        else setNext (setNext m block (next m a.start)) a.start (some block)) := by
  induction ahead generalizing p with
  | nil =>
    obtain ⟨rfl,rest⟩ := chain
    have under := low a (by simp)
    simp only [List.length_nil,Nat.add_zero,returnWalk]
    cases after with
    | nil =>
      have none : next m a.start = none := rest
      simp [none,ofPtr]
    | cons f after =>
      have link : next m a.start = some f.start := rest.1
      have above := high f (by simp)
      simp [link,ofPtr,under,above]
  | cons f ahead ih =>
    obtain ⟨rfl,rest⟩ := chain
    obtain ⟨g,member,link⟩ : ∃ g ∈ ahead ++ [a], next m f.start = some g.start := by
      cases ahead with
      | nil => exact ⟨a,by simp,rest.1⟩
      | cons g ahead => exact ⟨g,by simp,rest.1⟩
    have under := low g (by
      rw [List.cons_append]
      exact List.mem_cons_of_mem _ member)
    rw [List.length_cons,← Nat.add_assoc]
    simp only [returnWalk,link,ofPtr,Option.getD_some]
    rw [if_neg (by omega),if_neg (by simp),← link]
    exact ih rest (fun g member => low g (by
      rw [List.cons_append]
      exact List.mem_cons_of_mem _ member))

theorem linked_freeList {m other : Memory} {p q : Option Nat} {before after : List Block}
    {b : Block} (list : FreeList m p (before ++ after)) (inside : b.InSpace)
    (low : ∀ f ∈ before, f.stop ≤ b.start) (high : ∀ f ∈ after, b.stop ≤ f.start)
    (chain : Chain (next other) q ((before ++ b::after).map Block.start))
    (free : magic other b.start = bermudaMmFreeMagic) (sized : size other b.start = b.size)
    (same : ∀ f ∈ before ++ after,
      magic other f.start = magic m f.start ∧ size other f.start = size m f.start) :
    FreeList other q (before ++ b::after) where
  chain := chain
  header f member := by
    by_cases equal : f = b
    · subst equal
      exact ⟨free,sized⟩
    · have present : f ∈ before ++ after := by
        simp only [List.mem_append,List.mem_cons,equal,false_or] at member ⊢
        exact member
      rw [(same f present).1,(same f present).2]
      exact list.header f present
  ordered := by
    obtain ⟨left,right,across⟩ := List.pairwise_append.mp list.ordered
    refine List.pairwise_append.mpr ⟨left,List.pairwise_cons.mpr ⟨high,right⟩,?_⟩
    intro f early g member
    rcases List.mem_cons.mp member with rfl | late
    · exact low f early
    · exact across f early g late
  inside f member := by
    by_cases equal : f = b
    · exact equal ▸ inside
    · refine list.inside f ?_
      simp only [List.mem_append,List.mem_cons,equal,false_or] at member ⊢
      exact member

theorem return_freeList {h : Heap} {before after : List Block} {b : Block}
    (list : FreeList h.memory h.bermudaHeapHead (before ++ after)) (some_free : before ++ after ≠ [])
    (marked : magic h.memory b.start = bermudaMmAllocMagic) (sized : size h.memory b.start = b.size)
    (positive : 0 < b.size) (inside : b.InSpace)
    (low : ∀ f ∈ before, f.stop ≤ b.start) (high : ∀ f ∈ after, b.stop ≤ f.start) :
    ∃ m p, bermudaHeapNodeReturn h b.start = some (0,⟨m,p,h.memLock⟩) ∧
      FreeList m p (before ++ b::after) ∧ (before ≠ [] → p = h.bermudaHeapHead) ∧
      WithinBlocks h.memory m (b::(before ++ after)) := by
  have blt : b.start < b.stop := span_lt b
  have room : b.start + 5 ≤ b.stop := by simp only [stop_eq]; omega
  have count := list.length_lt
  obtain ⟨bottom,top⟩ := inside
  simp only [ioOffset] at bottom
  set m₁ := setMagic h.memory b.start bermudaMmFreeMagic with hm₁
  have marking : Within h.memory m₁ b.start (b.start+5) := setMagic_within _ _ _
  have free : magic m₁ b.start = bermudaMmFreeMagic := magic_setMagic _ _ _ (by decide)
  have apart (f : Block) (member : f ∈ before ++ after) :
      f.start + 5 ≤ b.start ∨ b.start + 5 ≤ f.start := by
    rcases List.mem_append.mp member with early | late
    · have side := low f early
      simp only [stop_eq] at side
      omega
    · have side := high f late
      omega
  have same₁ (f : Block) (member : f ∈ before ++ after) : SameHeader h.memory m₁ f.start :=
    within_sameHeader marking (by have := apart f member; omega)
  have list₁ := list.same same₁
  have accepted : ¬(magic h.memory b.start ≠ bermudaMmAllocMagic ∨ size h.memory b.start = 0) := by
    simp only [marked,ne_eq,not_true_eq_false,sized,false_or]
    omega
  rcases List.eq_nil_or_concat before with rfl | ⟨ahead,a,split⟩
  · rw [List.nil_append] at list list₁ some_free apart ⊢
    obtain ⟨f,rest,rfl⟩ := List.exists_cons_of_ne_nil some_free
    have first : h.bermudaHeapHead = some f.start := list.chain.1
    have above : b.start < f.start := lt_of_lt_of_le blt (high f (by simp))
    have linking : Within m₁ (setNext m₁ b.start h.bermudaHeapHead) b.start (b.start+5) :=
      setNext_within _ _ _
    have same (g : Block) (member : g ∈ f::rest) :
        SameHeader m₁ (setNext m₁ b.start h.bermudaHeapHead) g.start :=
      within_sameHeader linking (by have := apart g (by simpa using member); omega)
    refine ⟨setNext m₁ b.start h.bermudaHeapHead,some b.start,?_,?_,by simp,?_⟩
    · simp [bermudaHeapNodeReturn,accepted,first,ofPtr,above,hm₁]
    · refine linked_freeList (show FreeList m₁ _ ([] ++ f::rest) from by simpa using list₁) ⟨bottom,top⟩ (by simp) high ?_
        (by rw [magic_setNext,free]) (by rw [size_setNext,hm₁,size_setMagic,sized])
        (fun g member => ⟨(same g (by simpa using member)).1,(same g (by simpa using member)).2.2⟩)
      refine seg_link_front list₁.chain (next_setNext _ _ _ ?_) ?_
      · intro v equal
        rw [first] at equal
        cases equal
        have limit := (list.inside f (by simp)).2
        simp only [stop_eq] at limit
        omega
      · intro s member
        obtain ⟨g,present,rfl⟩ := List.mem_map.mp member
        exact (same g present).2.1
    · exact within_blocks (marking.trans linking) (by simp) le_rfl room
  · rw [List.concat_eq_append] at split
    subst split
    have shape : ahead ++ [a] ++ after = ahead ++ a::after := by simp
    have touch : a.stop ≤ b.start := low a (by simp)
    have under (f : Block) (member : f ∈ ahead ++ [a]) : f.start < b.start :=
      lt_of_lt_of_le (span_lt f) (low f member)
    have head_low : ¬b.start < ofPtr h.bermudaHeapHead := by
      rw [list.head]
      cases ahead with
      | nil =>
        have bound := under a (by simp)
        simp only [List.nil_append,List.cons_append,List.head?_cons,Option.map_some,ofPtr,
          Option.getD_some]
        omega
      | cons f ahead =>
        have bound := under f (by simp)
        simp only [List.cons_append,List.head?_cons,Option.map_some,ofPtr,Option.getD_some]
        omega
    have aft (f : Block) (member : f ∈ after) : b.start < f.start :=
      lt_of_lt_of_le blt (high f member)
    have chain₁ := list₁.chain
    rw [shape] at chain₁
    obtain ⟨fuel,enough⟩ : ∃ fuel, nodeLimit = fuel + 1 + ahead.length := by
      simp only [List.length_append,List.length_singleton] at count
      exact ⟨nodeLimit - 1 - ahead.length,by omega⟩
    have walk := returnWalk_last fuel chain₁ under aft
    rw [← enough] at walk
    set m := (if after = [] then setNext (setNext m₁ a.start (some b.start)) b.start none
      else setNext (setNext m₁ b.start (next m₁ a.start)) a.start (some b.start)) with hm
    have aspan : a.start + 5 ≤ a.stop := by simp only [stop_eq]; omega
    have bb : ∀ v, some b.start = some v → 0 < v ∧ v < 2^16 := by
      intro v equal
      cases equal
      omega
    -- both branches of the walk write the two links and nothing else
    have relinked : Relinked m₁ m a.start b.start (some b.start) (next m₁ a.start) := by
      rw [hm]
      split_ifs with last
      · have closed : next m₁ a.start = none := by
          subst last
          obtain ⟨r,_,start,stop⟩ := (seg_append _ _ _ _ _).mp (List.map_append ▸ chain₁)
          exact stop
        rw [closed]
        refine setNext_relinked m₁ (.inl (by omega)) bb fun v missing => ?_
        cases missing
      · exact (setNext_relinked m₁ (.inr (by omega)) (fun v found => next_bound found) bb).symm
    have aheader := relinked.header a.start (.inl rfl)
    have bheader := relinked.header b.start (.inr rfl)
    have linking : WithinBlocks m₁ m (b::(ahead ++ [a] ++ after)) := by
      have first (n : Memory) (v : Option Nat) :
          WithinBlocks n (setNext n a.start v) (b::(ahead ++ [a] ++ after)) :=
        within_blocks (setNext_within _ _ _) (by simp) le_rfl aspan
      have second (n : Memory) (v : Option Nat) :
          WithinBlocks n (setNext n b.start v) (b::(ahead ++ [a] ++ after)) :=
        within_blocks (setNext_within _ _ _) (by simp) le_rfl room
      rw [hm]
      split_ifs
      · exact (first _ _).trans (second _ _)
      · exact (second _ _).trans (first _ _)
    have ordered := list.ordered
    rw [shape] at ordered
    have clear (f : Block) (member : f ∈ ahead ++ after) : SameHeader m₁ m f.start := by
      have beside := ordered_apart ordered f member
      have away := apart f (by
        rcases List.mem_append.mp member with early | late
        · simp [early]
        · simp [late])
      simp only [stop_eq] at beside
      exact relinked.clear f.start (by omega) away
    refine ⟨m,h.bermudaHeapHead,?_,?_,fun _ => rfl,?_⟩
    · simp only [bermudaHeapNodeReturn,accepted,if_false,head_low,← hm₁,walk]
      rfl
    · refine linked_freeList list₁ ⟨bottom,top⟩ low high ?_ (by rw [bheader.1,free])
        (by rw [bheader.2,hm₁,size_setMagic,sized]) ?_
      · rw [List.map_append,List.map_cons] at chain₁
        rw [show ahead ++ [a] ++ b::after = ahead ++ a::b::after by simp,List.map_append,
          List.map_cons,List.map_cons]
        apply seg_link_behind chain₁ relinked.first relinked.second
        intro s member
        rw [← List.map_append] at member
        obtain ⟨f,present,rfl⟩ := List.mem_map.mp member
        exact (clear f present).2.1
      · intro f member
        rw [shape] at member
        by_cases equal : f = a
        · subst equal
          exact aheader
        · have present : f ∈ ahead ++ after := by
            simp only [List.mem_append,List.mem_cons,equal,false_or] at member ⊢
            exact member
          exact ⟨(clear f present).1,(clear f present).2.2⟩
    · exact (within_blocks marking (by simp) le_rfl room).trans linking

theorem ptrAdd_stop {b : Block} {a : Nat} (inside : b.InSpace) (positive : 0 < a)
    (bound : a < 2^16) : ptrAdd b.start (b.size + sizeofHeapNode) = a ↔ b.stop = a := by
  obtain ⟨_,high⟩ := inside
  simp only [ptrAdd,stop_eq,sizeofHeapNode] at high ⊢
  omega

theorem mergeWalk_end (fuel : Nat) (m : Memory) (node : Nat) :
    mergeWalk fuel m none node = some m := by cases fuel <;> rfl

theorem mergeWalk_skip {fuel node : Nat} {m : Memory} {p q : Option Nat} {passed : List Block}
    (seg : Seg (next m) p (passed.map Block.start) q)
    (apart : ∀ c ∈ passed, ¬(ptrAdd c.start (size m c.start + sizeofHeapNode) = node ∨
      ptrAdd node (size m node + sizeofHeapNode) = c.start)) :
    mergeWalk (fuel + passed.length) m p node = mergeWalk fuel m q node := by
  induction passed generalizing p with
  | nil => rw [show p = q from seg]; rfl
  | cons c passed ih =>
    rw [seg.1,List.length_cons,← Nat.add_assoc]
    simp only [mergeWalk]
    rw [if_neg (apart c (by simp)),ih seg.2 (fun d member => apart d (by simp [member]))]

/-- A node that is not free is never merged: the walk writes nothing. -/
theorem mergeWalk_allocated {fuel node : Nat} {m : Memory} {p : Option Nat} {fs : List Block}
    (seg : Chain (next m) p (fs.map Block.start)) (kept : magic m node ≠ bermudaMmFreeMagic)
    (enough : fs.length ≤ fuel) : mergeWalk fuel m p node = some m := by
  induction fs generalizing p fuel with
  | nil => rw [show p = none from seg,mergeWalk_end]
  | cons f fs ih =>
    obtain ⟨rfl,rest⟩ := seg
    obtain ⟨fuel,rfl⟩ : ∃ k, fuel = k + 1 := ⟨fuel - 1,by simp at enough; omega⟩
    simp only [mergeWalk]
    split_ifs
    · simp [bermudaHeapMergeNode,kept]
    · exact ih rest (by simpa using enough)

/-- The memory after two touching listed blocks are merged, whichever is named first. -/
def mergedMemory (m : Memory) (a b : Block) : Memory :=
  setNext (setSize m a.start (a.size + (b.size + sizeofHeapNode))) a.start (next m b.start)

theorem merge_result {m : Memory} {p : Option Nat} {before after : List Block} {a b : Block}
    (list : FreeList m p (before ++ a::b::after)) (touch : a.stop = b.start) :
    bermudaHeapMergeNode m a.start b.start = (some a.start,mergedMemory m a b) ∧
      bermudaHeapMergeNode m b.start a.start = (some a.start,mergedMemory m a b) := by
  obtain ⟨afree,asize⟩ := list.header a (by simp)
  obtain ⟨bfree,bsize⟩ := list.header b (by simp)
  have ain := list.inside a (by simp)
  have bin := list.inside b (by simp)
  have alt : a.start < a.stop := span_lt a
  have blt : b.start < b.stop := span_lt b
  have alow := ain.1
  have bhigh := bin.2
  simp only [ioOffset] at alow
  have forward : ptrAdd a.start (sizeofHeapNode + a.size) = b.start := by
    rw [Nat.add_comm,ptrAdd_stop ain (by omega) (by omega)]
    exact touch
  have backward : ptrAdd b.start (sizeofHeapNode + b.size) ≠ a.start := by
    rw [Nat.add_comm,Ne,ptrAdd_stop bin (by omega) (by omega)]
    omega
  have onward (v : Nat) : next (setSize m a.start v) b.start = next m b.start :=
    (within_sameHeader (setSize_within m a.start v)
      (by simp only [stop_eq] at touch; omega)).2.1
  constructor
  · simp [bermudaHeapMergeNode,afree,bfree,asize,bsize,forward,backward,mergedMemory,onward]
  · simp [bermudaHeapMergeNode,afree,bfree,asize,bsize,forward,backward,mergedMemory,onward]

theorem merge_freeList {m : Memory} {p : Option Nat} {before after : List Block} {a b : Block}
    (list : FreeList m p (before ++ a::b::after)) (touch : a.stop = b.start) :
    FreeList (mergedMemory m a b) p (before ++ a.join b::after) ∧
      Within m (mergedMemory m a b) a.start (a.start+5) ∧
      next (mergedMemory m a b) a.start = next m b.start := by
  have within : Within m (mergedMemory m a b) a.start (a.start+5) :=
    (setSize_within m _ _).trans (setNext_within _ _ _)
  have link : next (mergedMemory m a b) a.start = next m b.start :=
    next_setNext _ _ _ (fun v found => next_bound found)
  refine ⟨?_,within,link⟩
  have bin := (list.inside b (by simp)).2
  have joined := join_stop touch
  obtain ⟨early,right,across⟩ := List.pairwise_append.mp list.ordered
  obtain ⟨first,rest⟩ := List.pairwise_cons.mp right
  obtain ⟨second,late⟩ := List.pairwise_cons.mp rest
  have same (f : Block) (member : f ∈ before ++ after) :
      SameHeader m (mergedMemory m a b) f.start := by
    apply within_sameHeader within
    rcases List.mem_append.mp member with left | right
    · have side := across f left a (by simp)
      simp only [stop_eq] at side
      omega
    · have side := first f (by simp [right])
      simp only [stop_eq] at side
      omega
  refine ⟨?_,?_,?_,?_⟩
  · have chain := list.chain
    rw [List.map_append,List.map_cons,List.map_cons] at chain
    rw [List.map_append,List.map_cons]
    apply seg_drop_behind chain link
    intro s member
    rw [← List.map_append] at member
    obtain ⟨f,present,rfl⟩ := List.mem_map.mp member
    exact (same f present).2.1
  · intro f member
    rcases List.mem_append.mp member with left | member
    · rw [(same f (by simp [left])).1,(same f (by simp [left])).2.2]
      exact list.header f (by simp [left])
    · rcases List.mem_cons.mp member with rfl | right
      · change magic _ a.start = _ ∧ size _ a.start = _
        rw [mergedMemory,magic_setNext,magic_setSize,size_setNext,size_setSize]
        · exact ⟨(list.header a (by simp)).1,rfl⟩
        · simp only [stop_eq,sizeofHeapNode] at touch bin ⊢
          omega
      · rw [(same f (by simp [right])).1,(same f (by simp [right])).2.2]
        exact list.header f (by simp [right])
  · refine List.pairwise_append.mpr ⟨early,List.pairwise_cons.mpr ⟨?_,late⟩,?_⟩
    · intro g member
      rw [joined]
      exact second g member
    · intro f left g member
      rcases List.mem_cons.mp member with rfl | right
      · exact across f left a (by simp)
      · exact across f left g (by simp [right])
  · intro f member
    rcases List.mem_append.mp member with left | member
    · exact list.inside f (by simp [left])
    · rcases List.mem_cons.mp member with rfl | right
      · exact ⟨(list.inside a (by simp)).1,joined ▸ bin⟩
      · exact list.inside f (by simp [right])

/-- The walk behind a listed block absorbs the next block if it touches, and
passes all the others, which are separated. -/
theorem mergeWalk_tail {fuel : Nat} {m : Memory} {p : Option Nat} {before after : List Block}
    {v : Block} (list : FreeList m p (before ++ v::after)) (separated : Separated (spans after))
    (enough : after.length ≤ fuel) :
    ∃ last, mergeWalk fuel m (next m v.start) v.start = some last ∧
      FreeList last p (before ++ absorb v after) ∧ WithinBlocks m last (before ++ v::after) := by
  obtain ⟨_,right,_⟩ := List.pairwise_append.mp list.ordered
  have above := (List.pairwise_cons.mp right).1
  have vin := list.inside v (by simp)
  have vlt : v.start < v.stop := span_lt v
  have room : v.start + 5 ≤ v.stop := by simp only [stop_eq]; omega
  have vlow := vin.1
  simp only [ioOffset] at vlow
  -- no block above `w` touches it once its first neighbour does not
  have pass {n : Memory} {w : Block} {rest : List Block} {k : Nat} (low : w.start = v.start)
      (sub : FreeList n p (before ++ w::rest)) (gap : ∀ c ∈ rest, w.stop < c.start)
      (fuelled : rest.length ≤ k) :
      mergeWalk k n (next n w.start) w.start = some n := by
    obtain ⟨r,_,start,tail⟩ := (seg_append _ _ _ _ _).mp (List.map_append ▸ sub.chain)
    obtain ⟨fuel,rfl⟩ : ∃ fuel, k = fuel + rest.length := ⟨k - rest.length,by omega⟩
    rw [mergeWalk_skip tail,mergeWalk_end]
    intro c member
    have cin := sub.inside c (by simp [member])
    have win := sub.inside w (by simp)
    have clt : c.start < c.stop := span_lt c
    have apart := gap c member
    have chigh := cin.2
    have wlt : w.start < w.stop := span_lt w
    rw [(sub.header c (by simp [member])).2,(sub.header w (by simp)).2,
      ptrAdd_stop cin (by omega) (by omega),ptrAdd_stop win (by omega) (by omega)]
    omega
  cases after with
  | nil => exact ⟨m,pass rfl list (by simp) enough,list,fun _ _ => rfl⟩
  | cons s after =>
    obtain ⟨_,later,_⟩ := separated_cons.mp separated
    have slt : s.start < s.stop := span_lt s
    by_cases touch : v.stop = s.start
    · obtain ⟨merged,inner,link⟩ := merge_freeList list touch
      obtain ⟨fuel,rfl⟩ : ∃ k, fuel = k + 1 := ⟨fuel - 1,by simp at enough; omega⟩
      obtain ⟨r,_,start,onward,_⟩ := (seg_append _ _ _ _ _).mp (List.map_append ▸ list.chain)
      have vhit : ptrAdd v.start (size m v.start + sizeofHeapNode) = s.start := by
        rw [(list.header v (by simp)).2,
          ptrAdd_stop vin (by omega) (by have := (list.inside s (by simp)).2; omega)]
        exact touch
      refine ⟨mergedMemory m v s,?_,?_,within_blocks inner (by simp) le_rfl room⟩
      · rw [onward]
        simp only [mergeWalk,vhit,or_true,if_true,(merge_result list touch).2]
        apply pass (w := v.join s) rfl merged _ (by simpa using enough)
        intro c member
        rw [join_stop touch]
        exact later c.span (List.mem_map_of_mem member)
      · rw [absorb,if_pos touch]
        exact merged
    · refine ⟨m,pass rfl list ?_ enough,?_,fun _ _ => rfl⟩
      · intro c member
        have low := above s (by simp)
        rcases List.mem_cons.mp member with rfl | further
        · omega
        · have gap : s.stop < c.start := later c.span (List.mem_map_of_mem further)
          omega
      · rw [absorb,if_neg touch]
        exact list

theorem ordered_split {fs : List Block} {b : Block}
    (ordered : fs.Pairwise (fun f g => f.stop ≤ g.start))
    (apart : ∀ f ∈ fs, f.stop ≤ b.start ∨ b.stop ≤ f.start) :
    ∃ before after, fs = before ++ after ∧ (∀ f ∈ before, f.stop ≤ b.start) ∧
      ∀ f ∈ after, b.stop ≤ f.start := by
  induction fs with
  | nil => exact ⟨[],[],rfl,by simp,by simp⟩
  | cons f fs ih =>
    obtain ⟨first,rest⟩ := List.pairwise_cons.mp ordered
    rcases apart f (by simp) with low | high
    · obtain ⟨before,after,rfl,under,above⟩ := ih rest (fun g member => apart g (by simp [member]))
      refine ⟨f::before,after,rfl,?_,above⟩
      intro g member
      rcases List.mem_cons.mp member with rfl | later
      · exact low
      · exact under g later
    · refine ⟨[],f::fs,rfl,by simp,?_⟩
      intro g member
      have flt : f.start < f.stop := span_lt f
      rcases List.mem_cons.mp member with rfl | later
      · exact high
      · have gap := first g later
        omega

theorem ptr_node {b : Block} (inside : b.InSpace) : sizeSub b.ptr sizeofHeapNode = b.start := by
  obtain ⟨_,high⟩ := inside
  simp only [sizeSub,Block.ptr,stop_eq,sizeofHeapNode] at high ⊢
  omega

theorem free_allocated {h : Heap} {b : Block} (inside : b.InSpace) (unlocked : h.memLock = 0)
    (marked : magic h.memory b.start = bermudaMmAllocMagic) :
    bermudaHeapFree h b.ptr = (bermudaHeapNodeReturn h b.start).bind fun r =>
      (mergeWalk nodeLimit r.2.memory h.bermudaHeapHead b.start).map fun m =>
        bermudaMutexRelease {r.2 with memory := m} := by
  simp only [bermudaHeapFree,bermudaMutexEnter,unlocked,ptr_node inside,marked]
  cases bermudaHeapNodeReturn h b.start with
  | none => rfl
  | some r => simp [Option.map_eq_bind]

theorem free_block {h : Heap} {fs : List Block} {b : Block}
    (list : FreeList h.memory h.bermudaHeapHead fs) (unlocked : h.memLock = 0)
    (separated : Separated (spans fs)) (some_free : fs ≠ [])
    (marked : magic h.memory b.start = bermudaMmAllocMagic) (sized : size h.memory b.start = b.size)
    (positive : 0 < b.size) (inside : b.InSpace)
    (apart : ∀ f ∈ fs, f.stop ≤ b.start ∨ b.stop ≤ f.start) :
    ∃ freed, bermudaHeapFree h b.ptr = some freed ∧
      FreeList freed.memory freed.bermudaHeapHead (giveBack b fs) ∧ freed.memLock = 0 ∧
      WithinBlocks h.memory freed.memory (b::fs) := by
  obtain ⟨before,after,rfl,low,high⟩ := ordered_split list.ordered apart
  obtain ⟨m,p,returned,linked,samehead,writes⟩ :=
    return_freeList list some_free marked sized positive inside low high
  have blt : b.start < b.stop := span_lt b
  have bounds := inside
  obtain ⟨blow,bhigh⟩ := bounds
  simp only [ioOffset] at blow
  have count := linked.length_lt
  simp only [List.length_append,List.length_cons] at count
  have above : ∀ f ∈ after, b.start < f.start := fun f member => lt_of_lt_of_le blt (high f member)
  have seps := separated
  rw [spans,List.map_append] at seps
  obtain ⟨left,right,across⟩ := separated_append.mp seps
  have moved (x : Nat) : cover (spans (before ++ b::after)) x =
      cover (spans (b::(before ++ after))) x :=
    cover_perm (List.Perm.map _ List.perm_middle) x
  -- what remains once the walk stands behind the block `v` that holds `b`
  have finish (n : Memory) (v : Block) (ahead : List Block) (k : Nat)
      (walk : mergeWalk nodeLimit m h.bermudaHeapHead b.start =
        mergeWalk k n (next n v.start) v.start)
      (list : FreeList n p (ahead ++ v::after)) (enough : after.length ≤ k)
      (result : giveBack b (before ++ after) = ahead ++ absorb v after)
      (same : ∀ x, cover (spans (ahead ++ v::after)) x = cover (spans (b::(before ++ after))) x)
      (wrote : WithinBlocks h.memory n (b::(before ++ after))) :
      ∃ freed, bermudaHeapFree h b.ptr = some freed ∧
        FreeList freed.memory freed.bermudaHeapHead (giveBack b (before ++ after)) ∧
        freed.memLock = 0 ∧ WithinBlocks h.memory freed.memory (b::(before ++ after)) := by
    obtain ⟨last,ran,final,inner⟩ := mergeWalk_tail list right enough
    refine ⟨bermudaMutexRelease ⟨last,p,h.memLock⟩,?_,?_,rfl,?_⟩
    · rw [free_allocated inside unlocked marked,returned,Option.bind_some,walk,ran]
      rfl
    · rw [result]
      exact final
    · exact wrote.trans (inner.mono fun x => le_of_eq (same x))
  rcases List.eq_nil_or_concat before with rfl | ⟨ahead,a,split⟩
  · have start : h.bermudaHeapHead = next m b.start := by
      rw [list.head,chain_head linked.chain.2,List.head?_map]
      rfl
    refine finish m b [] nodeLimit (by rw [start]) linked ?_
      (giveBack_above above) moved writes
    omega
  · rw [List.concat_eq_append] at split
    subst split
    have shape (s : List Block) : ahead ++ [a] ++ s = ahead ++ a::s := by simp
    have head : h.bermudaHeapHead = p := (samehead (by simp)).symm
    have chain := linked.chain
    rw [shape,List.map_append] at chain
    obtain ⟨r,first,start,behind⟩ := (seg_append _ _ _ _ _).mp chain
    subst start
    have ain := linked.inside a (by simp)
    have alow := ain.1
    have ahigh := ain.2
    have alt : a.start < a.stop := span_lt a
    simp only [ioOffset] at alow
    have touching : a.stop ≤ b.start := low a (by simp)
    have early (c : Block) (member : c ∈ ahead) : c.stop < a.start := by
      have ahead_sep := left
      rw [List.map_append] at ahead_sep
      obtain ⟨_,_,order⟩ := separated_append.mp ahead_sep
      exact order c.span (List.mem_map_of_mem member) a.span (by simp)
    have bsize := (linked.header b (by simp)).2
    -- the blocks before `a` end below it and so touch nothing that is merged
    have quiet (c : Block) (member : c ∈ ahead) :
        ¬(ptrAdd c.start (size m c.start + sizeofHeapNode) = b.start ∨
          ptrAdd b.start (size m b.start + sizeofHeapNode) = c.start) := by
      have cin := linked.inside c (by simp [member])
      have clow := cin.1
      have clt : c.start < c.stop := span_lt c
      have gap := early c member
      simp only [ioOffset] at clow
      rw [(linked.header c (by simp [member])).2,bsize,ptrAdd_stop cin (by omega) (by omega),
        ptrAdd_stop inside (by omega) (by omega)]
      omega
    have skipped (k : Nat) : mergeWalk (k + ahead.length) m h.bermudaHeapHead b.start =
        mergeWalk k m (some a.start) b.start := by
      rw [head]
      exact mergeWalk_skip first quiet
    have under (f : Block) (member : f ∈ ahead) : f.start < b.start ∧ f.stop ≠ b.start := by
      have gap := early f member
      have flt : f.start < f.stop := span_lt f
      omega
    simp only [List.length_append,List.length_singleton] at count
    by_cases touch : a.stop = b.start
    · rw [shape] at linked
      obtain ⟨merged,inner,_⟩ := merge_freeList linked touch
      obtain ⟨k,enough⟩ : ∃ k, nodeLimit = k + 1 + ahead.length :=
        ⟨nodeLimit - 1 - ahead.length,by omega⟩
      have hit : ptrAdd a.start (size m a.start + sizeofHeapNode) = b.start := by
        rw [(linked.header a (by simp)).2,ptrAdd_stop ain (by omega) (by omega)]
        exact touch
      have aroom : a.start + 5 ≤ a.stop := by simp only [stop_eq]; omega
      refine finish _ (a.join b) ahead k ?_ merged (by omega) ?_ ?_ ?_
      · rw [enough,skipped]
        simp only [mergeWalk,hit,true_or,if_true,(merge_result linked touch).1]
        rfl
      · rw [shape,giveBack_append under,giveBack,if_neg (by omega),if_pos touch]
      · intro x
        rw [← moved,shape,spans,List.map_append,cover_append,spans,List.map_append,cover_append]
        exact congrArg _ (cover_join_span touch after x)
      · exact writes.trans (within_blocks inner (by simp) le_rfl aroom)
    · obtain ⟨k,enough⟩ : ∃ k, nodeLimit = k + 2 + ahead.length :=
        ⟨nodeLimit - 2 - ahead.length,by omega⟩
      have two : Seg (next m) (some a.start) ([a,b].map Block.start) (next m b.start) :=
        ⟨rfl,behind.1,rfl⟩
      refine finish m b (ahead ++ [a]) k ?_ linked (by omega) ?_ moved writes
      · rw [enough,skipped]
        apply mergeWalk_skip two
        intro c member
        rcases List.mem_cons.mp member with rfl | member
        · rw [(linked.header c (by simp)).2,bsize,ptrAdd_stop ain (by omega) (by omega),
            ptrAdd_stop inside (by omega) (by omega)]
          omega
        · rw [List.mem_singleton.mp member,bsize,ptrAdd_stop inside (by omega) (by omega)]
          omega
      · have clear : ∀ f ∈ ahead ++ [a], f.start < b.start ∧ f.stop ≠ b.start := by
          intro f member
          rcases List.mem_append.mp member with member | member
          · exact under f member
          · rw [List.mem_singleton.mp member]
            exact ⟨by omega,touch⟩
        rw [giveBack_append clear,giveBack_above above]

/-- A block without a payload is refused and stays marked as allocated. -/
theorem free_refused {h : Heap} {fs : List Block} {b : Block}
    (list : FreeList h.memory h.bermudaHeapHead fs) (unlocked : h.memLock = 0)
    (marked : magic h.memory b.start = bermudaMmAllocMagic) (sized : size h.memory b.start = b.size)
    (empty : b.size = 0) (inside : b.InSpace) : bermudaHeapFree h b.ptr = some h := by
  have count := list.length_lt
  rcases h with ⟨memory,head,lock⟩
  obtain rfl : lock = 0 := unlocked
  rw [free_allocated inside rfl marked]
  have refused : bermudaHeapNodeReturn ⟨memory,head,0⟩ b.start = some (-1,⟨memory,head,0⟩) := by
    simp [bermudaHeapNodeReturn,sized,empty]
  have kept : magic memory b.start ≠ bermudaMmFreeMagic := by
    dsimp only at marked
    rw [marked]
    decide
  rw [refused,Option.bind_some,mergeWalk_allocated list.chain kept (by omega)]
  rfl

/-- With the free list empty a freed block is marked free and linked nowhere. -/
theorem free_lost {h : Heap} {b : Block} (head : h.bermudaHeapHead = none)
    (unlocked : h.memLock = 0) (marked : magic h.memory b.start = bermudaMmAllocMagic)
    (inside : b.InSpace) :
    ∃ freed, bermudaHeapFree h b.ptr = some freed ∧ freed.bermudaHeapHead = none ∧
      freed.memLock = 0 ∧ Within h.memory freed.memory b.start (b.start+5) := by
  rw [free_allocated inside unlocked marked]
  by_cases empty : size h.memory b.start = 0
  · refine ⟨bermudaMutexRelease h,?_,head,rfl,within_refl _ _ _⟩
    simp [bermudaHeapNodeReturn,empty,head,mergeWalk_end,bermudaMutexRelease]
  · refine ⟨⟨setMagic h.memory b.start bermudaMmFreeMagic,none,0⟩,?_,rfl,rfl,setMagic_within _ _ _⟩
    have walk (m : Memory) : returnWalk b.start nodeLimit m none = some (-1,m) := rfl
    simp [bermudaHeapNodeReturn,marked,empty,head,ofPtr,walk,mergeWalk_end,bermudaMutexRelease]

end BermudaOS.Sys.Mem
