import Mathlib.Order.Nat
import Mathlib.Data.Nat.Basic
import BermudaOS.Lib.Spans
import BermudaOS.Sys.Mem

/-! What the heap is for, without memory: an ascending list of separated free
blocks from which the first fitting block is taken and to which a block is given
back, joined with its neighbours. Both edits move spans between the free list
and their argument and lose no address. -/
namespace BermudaOS.Sys.Mem
open Lib.Spans

/-- A block: where its header starts and how many payload bytes follow it. -/
structure Block where
  start : Nat
  size : Nat
  deriving DecidableEq,Repr

namespace Block

def stop (b : Block) : Nat := b.start + sizeofHeapNode + b.size

def span (b : Block) : Nat × Nat := (b.start,b.stop)

def ptr (b : Block) : Nat := b.start + sizeofHeapNode

/-- The block that covers two adjacent ones. -/
def join (a b : Block) : Block := ⟨a.start,a.size + (b.size + sizeofHeapNode)⟩

end Block

abbrev spans (bs : List Block) : List (Nat × Nat) := bs.map Block.span

/-- First fit: the block handed out and the free blocks that remain. A block
too small to carry a header and four more bytes is handed out whole. -/
def takeFit (n : Nat) : List Block → Option (Block × List Block)
  | [] => none
  | b::fs =>
    if n ≤ b.size then
      if b.size < n + sizeofHeapNode + 4 then some (b,fs)
      else some (⟨b.start,n⟩,⟨b.start + (n + sizeofHeapNode),b.size - n - sizeofHeapNode⟩::fs)
    else (takeFit n fs).map fun taken => (taken.1,b::taken.2)

def absorb (b : Block) : List Block → List Block
  | [] => [b]
  | s::fs => if b.stop = s.start then b.join s::fs else b::s::fs

/-- A block goes back at its address and is joined with the blocks it touches. -/
def giveBack (b : Block) : List Block → List Block
  | [] => [b]
  | f::fs =>
    if b.start < f.start then absorb b (f::fs)
    else if f.stop = b.start then absorb (f.join b) fs
    else f::giveBack b fs

theorem spans_cons (b : Block) (bs : List Block) : spans (b::bs) = b.span::spans bs := rfl

theorem stop_eq (b : Block) : b.stop = b.start + 5 + b.size := rfl

theorem span_lt (b : Block) : b.span.1 < b.span.2 := by
  change b.start < b.stop
  rw [stop_eq]
  omega

theorem join_stop {a b : Block} (touch : a.stop = b.start) : (a.join b).stop = b.stop := by
  simp only [Block.stop,Block.join,sizeofHeapNode] at touch ⊢
  omega

theorem cover_join_span {a b : Block} (touch : a.stop = b.start) (fs : List Block) (x : Nat) :
    cover (spans (a.join b::fs)) x = cover (spans (a::b::fs)) x := by
  have joined := cover_join (le_of_lt (span_lt a)) (touch ▸ le_of_lt (span_lt b) : a.stop ≤ b.stop)
    (spans fs) x
  have outer : (a.join b).span = (a.start,b.stop) := Prod.ext rfl (join_stop touch)
  have inner : b.span = (a.stop,b.stop) := Prod.ext touch.symm rfl
  rw [spans,List.map_cons,outer,spans,List.map_cons,List.map_cons,inner]
  exact joined

theorem absorb_cover (b : Block) (fs : List Block) (x : Nat) :
    cover (spans (absorb b fs)) x = cover (spans (b::fs)) x := by
  cases fs with
  | nil => rfl
  | cons s fs =>
    by_cases touch : b.stop = s.start
    · rw [absorb,if_pos touch,cover_join_span touch]
    · rw [absorb,if_neg touch]

theorem giveBack_cover (b : Block) (fs : List Block) (x : Nat) :
    cover (spans (giveBack b fs)) x = cover (spans (b::fs)) x := by
  induction fs with
  | nil => rfl
  | cons f fs ih =>
    unfold giveBack
    split_ifs with before touch
    · exact absorb_cover b (f::fs) x
    · rw [absorb_cover,cover_join_span touch]
      exact cover_perm (List.Perm.map _ (List.Perm.swap _ _ _)) x
    · simp only [spans,List.map_cons,cover_cons] at ih ⊢
      rw [ih]
      omega

theorem absorb_separated {b : Block} {fs : List Block} (separated : Separated (spans fs))
    (above : ∀ f ∈ fs, b.stop ≤ f.start) : Separated (spans (absorb b fs)) := by
  cases fs with
  | nil => simp [absorb,spans,span_lt,Separated]
  | cons s fs =>
    obtain ⟨first,before,rest⟩ := separated_cons.mp separated
    have later (f : Block) (member : f ∈ fs) : s.stop < f.start :=
      before f.span (List.mem_map_of_mem member)
    by_cases touch : b.stop = s.start
    · rw [absorb,if_pos touch]
      refine separated_cons.mpr ⟨span_lt _,?_,rest⟩
      intro t member
      obtain ⟨f,present,rfl⟩ := List.mem_map.mp member
      change (b.join s).stop < f.start
      rw [join_stop touch]
      exact later f present
    · rw [absorb,if_neg touch]
      refine separated_cons.mpr ⟨span_lt b,?_,separated⟩
      intro t member
      obtain ⟨f,present,rfl⟩ := List.mem_map.mp member
      have low := above s (by simp)
      have gap : b.stop < s.start := by omega
      rcases List.mem_cons.mp present with rfl | further
      · exact gap
      · exact lt_trans gap (lt_trans (span_lt s) (later f further))

theorem giveBack_separated {b : Block} {fs : List Block} (separated : Separated (spans fs))
    (apart : ∀ f ∈ fs, f.stop ≤ b.start ∨ b.stop ≤ f.start) :
    Separated (spans (giveBack b fs)) := by
  induction fs with
  | nil => simp [giveBack,spans,span_lt,Separated]
  | cons f fs ih =>
    obtain ⟨_,before,rest⟩ := separated_cons.mp separated
    have later (g : Block) (member : g ∈ fs) : f.stop < g.start :=
      before g.span (List.mem_map_of_mem member)
    have flt : f.start < f.stop := span_lt f
    have blt : b.start < b.stop := span_lt b
    unfold giveBack
    split_ifs with below touch
    · apply absorb_separated separated
      intro g member
      have low : b.stop ≤ f.start := (apart f (by simp)).resolve_left (by omega)
      rcases List.mem_cons.mp member with rfl | further
      · exact low
      · exact le_of_lt (lt_of_le_of_lt low (lt_trans flt (later g further)))
    · apply absorb_separated rest
      intro g member
      rw [join_stop touch]
      have gap := later g member
      exact (apart g (by simp [member])).resolve_left (by have := span_lt g; simp only [Block.span] at this; omega)
    · refine separated_cons.mpr ⟨span_lt f,?_,ih rest (fun g member => apart g (by simp [member]))⟩
      have high : f.stop < b.start := by
        have side := apart f (by simp)
        omega
      intro t member
      -- a span of the result starts no lower than the block or than a later free block
      have positive := cover_pos.mpr ⟨t,member,le_refl _,(ih rest (fun g m => apart g (by simp [m]))).1 t member⟩
      rw [giveBack_cover,cover_pos] at positive
      obtain ⟨s,source,low,_⟩ := positive
      obtain ⟨g,present,rfl⟩ := List.mem_map.mp source
      rcases List.mem_cons.mp present with rfl | further
      · exact lt_of_lt_of_le high low
      · exact lt_of_lt_of_le (later g further) low

theorem giveBack_append {b : Block} {before after : List Block}
    (low : ∀ f ∈ before, f.start < b.start ∧ f.stop ≠ b.start) :
    giveBack b (before ++ after) = before ++ giveBack b after := by
  induction before with
  | nil => rfl
  | cons f before ih =>
    obtain ⟨under,gap⟩ := low f (by simp)
    rw [List.cons_append,giveBack,if_neg (by omega),if_neg gap,
      ih (fun g member => low g (by simp [member])),List.cons_append]

theorem giveBack_above {b : Block} {after : List Block} (high : ∀ f ∈ after, b.start < f.start) :
    giveBack b after = absorb b after := by
  cases after with
  | nil => rfl
  | cons f after => rw [giveBack,if_pos (high f (by simp))]

/-- A block is found exactly when some free block is large enough, and it is the
first one. -/
theorem takeFit_split {n : Nat} {before after : List Block} {b : Block}
    (small : ∀ f ∈ before, f.size < n) :
    takeFit n (before ++ b::after) =
      (takeFit n (b::after)).map (fun taken => (taken.1,before ++ taken.2)) := by
  induction before with
  | nil => simp
  | cons f before ih =>
    have less := small f (by simp)
    rw [List.cons_append,takeFit,if_neg (by omega),
      ih (fun g member => small g (by simp [member])),Option.map_map]
    rfl

theorem takeFit_none {n : Nat} {fs : List Block} :
    takeFit n fs = none ↔ ∀ f ∈ fs, f.size < n := by
  induction fs with
  | nil => simp [takeFit]
  | cons f fs ih =>
    unfold takeFit
    split_ifs with fits whole
    · simp only [false_iff,not_forall]
      exact ⟨f,by simp,by omega⟩
    · simp only [false_iff,not_forall]
      exact ⟨f,by simp,by omega⟩
    · simp [ih,not_le.mp fits]

theorem takeFit_some {n : Nat} {fs : List Block} {taken : Block × List Block}
    (found : takeFit n fs = some taken) :
    ∃ before b after, fs = before ++ b::after ∧ (∀ f ∈ before, f.size < n) ∧ n ≤ b.size := by
  induction fs generalizing taken with
  | nil => simp [takeFit] at found
  | cons f fs ih =>
    by_cases fits : n ≤ f.size
    · exact ⟨[],f,fs,rfl,by simp,fits⟩
    · rw [takeFit,if_neg fits,Option.map_eq_some_iff] at found
      obtain ⟨inner,rest,_⟩ := found
      obtain ⟨before,b,after,split,small,enough⟩ := ih rest
      refine ⟨f::before,b,after,by simp [split],?_,enough⟩
      intro g member
      rcases List.mem_cons.mp member with rfl | later
      · exact not_le.mp fits
      · exact small g later

theorem takeFit_start {n : Nat} {fs rest : List Block} {b : Block} (found : takeFit n fs = some (b,rest)) :
    ∃ f ∈ fs, f.start = b.start := by
  obtain ⟨before,f,after,rfl,small,fits⟩ := takeFit_some found
  rw [takeFit_split small,takeFit,if_pos fits] at found
  refine ⟨f,by simp,?_⟩
  split_ifs at found <;> cases found <;> rfl

theorem takeFit_cover {n : Nat} {fs rest : List Block} {b : Block}
    (found : takeFit n fs = some (b,rest)) (x : Nat) :
    cover (spans (b::rest)) x = cover (spans fs) x := by
  induction fs generalizing rest with
  | nil => simp [takeFit] at found
  | cons f fs ih =>
    unfold takeFit at found
    split_ifs at found with fits whole
    · cases found
      rfl
    · cases found
      have touch : (⟨f.start,n⟩ : Block).stop = f.start + (n + sizeofHeapNode) := by
        simp only [Block.stop]
        omega
      rw [← cover_join_span touch]
      have same : (⟨f.start,n⟩ : Block).join
          ⟨f.start + (n + sizeofHeapNode),f.size - n - sizeofHeapNode⟩ = f := by
        simp only [Block.join,sizeofHeapNode] at whole ⊢
        congr 1
        omega
      rw [same]
    · obtain ⟨⟨inner,remain⟩,taken,equal⟩ := Option.map_eq_some_iff.mp found
      cases equal
      have moved := ih taken
      simp only [spans,List.map_cons,cover_cons] at moved ⊢
      omega

theorem takeFit_size {n : Nat} {fs rest : List Block} {b : Block}
    (found : takeFit n fs = some (b,rest)) :
    n ≤ b.size ∧ b.size < n + sizeofHeapNode + 4 := by
  induction fs generalizing rest with
  | nil => simp [takeFit] at found
  | cons f fs ih =>
    unfold takeFit at found
    split_ifs at found with fits whole
    · cases found
      exact ⟨fits,whole⟩
    · cases found
      simp only [sizeofHeapNode]
      omega
    · obtain ⟨⟨inner,remain⟩,taken,equal⟩ := Option.map_eq_some_iff.mp found
      cases equal
      exact ih taken

theorem takeFit_separated {n : Nat} {fs rest : List Block} {b : Block}
    (found : takeFit n fs = some (b,rest)) (separated : Separated (spans fs)) :
    Separated (spans rest) := by
  induction fs generalizing rest with
  | nil => simp [takeFit] at found
  | cons f fs ih =>
    obtain ⟨_,before,remaining⟩ := separated_cons.mp separated
    unfold takeFit at found
    split_ifs at found with fits whole
    · cases found
      exact remaining
    · cases found
      refine separated_cons.mpr ⟨span_lt _,?_,remaining⟩
      intro t member
      have gap := before t member
      simp only [Block.span,Block.stop,sizeofHeapNode] at gap whole ⊢
      omega
    · obtain ⟨⟨inner,remain⟩,taken,equal⟩ := Option.map_eq_some_iff.mp found
      cases equal
      have sorted := ih taken remaining
      refine separated_cons.mpr ⟨span_lt f,?_,sorted⟩
      intro t member
      have positive : 0 < cover (spans remain) t.1 :=
        cover_pos.mpr ⟨t,member,le_refl _,sorted.1 t member⟩
      have moved := takeFit_cover taken t.1
      rw [spans_cons,cover_cons] at moved
      obtain ⟨s,source,low,_⟩ := cover_pos.mp (by omega : 0 < cover (spans fs) t.1)
      exact lt_of_lt_of_le (before s source) low

theorem absorb_apart {b : Block} {fs : List Block} (above : ∀ f ∈ fs, b.stop < f.start) : absorb b fs = b::fs := by
  cases fs with
  | nil => rfl
  | cons s fs =>
    have gap := above s (by simp)
    rw [absorb,if_neg (by omega)]

/-- Giving a block back where it was taken from undoes first fit. -/
theorem giveBack_takeFit {n : Nat} {fs rest : List Block} {b : Block} (found : takeFit n fs = some (b,rest))
    (separated : Separated (spans fs)) : giveBack b rest = fs := by
  induction fs generalizing rest with
  | nil => simp [takeFit] at found
  | cons f fs ih =>
    obtain ⟨_,before,remaining⟩ := separated_cons.mp separated
    have later (g : Block) (member : g ∈ fs) : f.stop < g.start := before g.span (List.mem_map_of_mem member)
    have flt : f.start < f.stop := span_lt f
    unfold takeFit at found
    split_ifs at found with fits whole
    · cases found
      rw [giveBack_above fun g member => flt.trans (later g member),absorb_apart later]
    · cases found
      simp only [sizeofHeapNode] at whole
      have below : f.start < f.start + (n + sizeofHeapNode) := by simp only [sizeofHeapNode]; omega
      have touch : (⟨f.start,n⟩ : Block).stop = f.start + (n + sizeofHeapNode) := by simp only [Block.stop]; omega
      have same : (⟨f.start,n⟩ : Block).join
          ⟨f.start + (n + sizeofHeapNode),f.size - n - sizeofHeapNode⟩ = f := by
        simp only [Block.join,sizeofHeapNode]
        congr 1
        omega
      rw [giveBack,if_pos below,absorb,if_pos touch,same]
    · obtain ⟨⟨inner,remain⟩,taken,equal⟩ := Option.map_eq_some_iff.mp found
      cases equal
      obtain ⟨g,member,start⟩ := takeFit_start taken
      have gap : f.stop < inner.start := start ▸ later g member
      have above : f.start < inner.start := flt.trans gap
      rw [giveBack,if_neg above.not_gt,if_neg gap.ne,ih taken remaining]

theorem takeFit_positive {n : Nat} {fs rest : List Block} {b : Block}
    (found : takeFit n fs = some (b,rest)) (positive : ∀ f ∈ fs, 0 < f.size) :
    ∀ f ∈ rest, 0 < f.size := by
  induction fs generalizing rest with
  | nil => simp [takeFit] at found
  | cons f fs ih =>
    have first := positive f (by simp)
    have later (g : Block) (member : g ∈ fs) : 0 < g.size := positive g (by simp [member])
    unfold takeFit at found
    split_ifs at found with fits whole
    · cases found
      exact later
    · cases found
      refine List.forall_mem_cons.mpr ⟨?_,later⟩
      simp only [sizeofHeapNode] at whole ⊢
      omega
    · obtain ⟨⟨inner,remain⟩,taken,equal⟩ := Option.map_eq_some_iff.mp found
      cases equal
      exact List.forall_mem_cons.mpr ⟨first,ih taken later⟩

theorem absorb_positive {b : Block} {fs : List Block} (sized : 0 < b.size)
    (positive : ∀ f ∈ fs, 0 < f.size) : ∀ f ∈ absorb b fs, 0 < f.size := by
  cases fs with
  | nil => simpa [absorb] using sized
  | cons s fs =>
    simp only [absorb]
    split_ifs with touch
    · refine List.forall_mem_cons.mpr ⟨?_,fun f member => positive f (by simp [member])⟩
      simp only [Block.join]
      omega
    · exact List.forall_mem_cons.mpr ⟨sized,positive⟩

theorem giveBack_positive {b : Block} {fs : List Block} (sized : 0 < b.size)
    (positive : ∀ f ∈ fs, 0 < f.size) : ∀ f ∈ giveBack b fs, 0 < f.size := by
  induction fs with
  | nil => simpa [giveBack] using sized
  | cons f fs ih =>
    have first := positive f (by simp)
    have later (g : Block) (member : g ∈ fs) : 0 < g.size := positive g (by simp [member])
    unfold giveBack
    split_ifs with before touch
    · exact absorb_positive sized positive
    · refine absorb_positive ?_ later
      simp only [Block.join]
      omega
    · exact List.forall_mem_cons.mpr ⟨first,ih later⟩

end BermudaOS.Sys.Mem
