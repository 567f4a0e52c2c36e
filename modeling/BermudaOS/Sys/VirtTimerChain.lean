import Mathlib.Data.Fintype.Card
import BermudaOS.Lib.Chains
import BermudaOS.Sys.VirtTimer

/-! The timer list as a chain. Adding and stopping a timer link and unlink one node,
whatever the counts are: they may wrap. -/
namespace BermudaOS.Sys.VirtTimer
open Lib.Chains

variable {Handle : Type}

namespace Timers

def left (v : Timers Handle) (timer : Addr) : Nat := (v.node timer).ticksLeft

def next (v : Timers Handle) (timer : Addr) : Option Addr := (v.node timer).next

@[simp] theorem setLeft_left (v : Timers Handle) (timer x : Addr) (n : Nat) :
    ((v.setLeft timer n).node x).ticksLeft = if x = timer then n else (v.node x).ticksLeft := by
  by_cases same : x = timer <;> simp [setLeft,update,same]

@[simp] theorem setLeft_next (v : Timers Handle) (timer x : Addr) (n : Nat) :
    ((v.setLeft timer n).node x).next = (v.node x).next := by
  by_cases same : x = timer <;> simp [setLeft,update,same]

@[simp] theorem setNext_left (v : Timers Handle) (timer x : Addr) (p : Option Addr) :
    ((v.setNext timer p).node x).ticksLeft = (v.node x).ticksLeft := by
  by_cases same : x = timer <;> simp [setNext,update,same]

@[simp] theorem setNext_next (v : Timers Handle) (timer x : Addr) (p : Option Addr) :
    ((v.setNext timer p).node x).next = if x = timer then p else (v.node x).next := by
  by_cases same : x = timer <;> simp [setNext,update,same]

/-- What a timer does when it fires, and how often, is the same in both. -/
def SameSetup (v w : Timers Handle) : Prop := ∀ x, (w.node x).handle = (v.node x).handle ∧
  (w.node x).arg = (v.node x).arg ∧ (w.node x).ticks = (v.node x).ticks

theorem SameSetup.trans {u v w : Timers Handle} (first : SameSetup u v) (second : SameSetup v w) :
    SameSetup u w := fun x =>
  ⟨(second x).1.trans (first x).1,(second x).2.1.trans (first x).2.1,
    (second x).2.2.trans (first x).2.2⟩

theorem setLeft_sameSetup (v : Timers Handle) (timer : Addr) (n : Nat) :
    SameSetup v (v.setLeft timer n) := by
  intro x
  by_cases same : x = timer <;> simp [setLeft,update,same]

theorem setNext_sameSetup (v : Timers Handle) (timer : Addr) (p : Option Addr) :
    SameSetup v (v.setNext timer p) := by
  intro x
  by_cases same : x = timer <;> simp [setNext,update,same]

end Timers
open Timers

variable {v w : Timers Handle} {timer : Addr}

theorem chain_length {ts : List Addr} {next : Addr → Option Addr} {p : Option Addr} (chain : Chain next p ts) :
    ts.length ≤ addrLimit := by
  simpa [addrLimit] using chain_card chain

/-- The timers with `timer` linked between `prev` and `vtp`. -/
def linked (v : Timers Handle) (timer : Addr) (vtp prev : Option Addr) : Timers Handle :=
  match prev with
  | some prev => (v.setNext timer vtp).setNext prev (some timer)
  | none => {v.setNext timer vtp with bermudaTimerList := some timer}

theorem linked_frame (v : Timers Handle) (timer : Addr) (vtp prev : Option Addr) :
    (linked v timer vtp prev).lastSysTick = v.lastSysTick ∧
      SameSetup v (linked v timer vtp prev) ∧ ∀ x, (linked v timer vtp prev).left x = v.left x := by
  cases prev with
  | none =>
    exact ⟨rfl,setNext_sameSetup v timer vtp,fun x => setNext_left v timer x vtp⟩
  | some prev =>
    refine ⟨rfl,(setNext_sameSetup v timer vtp).trans (setNext_sameSetup _ prev _),fun x => ?_⟩
    exact (setNext_left _ prev x _).trans (setNext_left v timer x vtp)

theorem linked_chain {before after : List Addr}
    (chain : Chain v.next v.bermudaTimerList (before ++ after)) (fresh : timer ∉ before ++ after) :
    Chain (linked v timer after.head? before.getLast?).next
      (linked v timer after.head? before.getLast?).bermudaTimerList (before ++ timer::after) := by
  rcases List.eq_nil_or_concat before with rfl | ⟨ahead,a,split⟩
  · refine seg_link_front chain ?_ ?_
    · simp [linked,Timers.next,chain_head chain]
    · intro x member
      have other : x ≠ timer := fun same => fresh (same ▸ member)
      simp [linked,Timers.next,other]
  · rw [List.concat_eq_append] at split
    subst split
    have last : (ahead ++ [a]).getLast? = some a := by simp
    have distinct : a ≠ timer := fun same => fresh (by simp [same])
    rw [last]
    simp only [List.append_assoc,List.cons_append,List.nil_append] at chain fresh ⊢
    have nodup := chain_nodup chain
    refine seg_link_behind chain ?_ ?_ ?_
    · simp [linked,Timers.next]
    · obtain ⟨_,_,_,rest⟩ := (seg_append _ _ _ _ _).mp chain
      simp [linked,Timers.next,distinct.symm,← chain_head rest]
    · intro x member
      have other : x ≠ timer := by
        rintro rfl
        rcases List.mem_append.mp member with early | late
        · exact fresh (by simp [early])
        · exact fresh (by simp [late])
      have apart : x ≠ a := by
        rintro rfl
        exact (List.nodup_cons.mp ((List.perm_middle.nodup_iff).mp nodup)).1 member
      simp [linked,Timers.next,other,apart]

theorem add_linked {vtp prev : Option Addr}
    (walk : addWalk timer addrLimit v v.bermudaTimerList none = some (w,vtp,prev)) :
    bermudaTimerAdd v timer = some (linked w timer vtp prev) := by
  simp only [bermudaTimerAdd,walk]
  cases prev <;> rfl

theorem addWalk_chain {fuel : Nat} {p : Option Addr} (prev : Option Addr) {ts : List Addr}
    (chain : Chain v.next p ts) (enough : ts.length ≤ fuel) :
    ∃ before after w, ts = before ++ after ∧
      addWalk timer fuel v p prev = some (w,after.head?,before.getLast?.or prev) ∧
      w.bermudaTimerList = v.bermudaTimerList ∧ (∀ x, w.next x = v.next x) ∧ SameSetup v w := by
  induction ts generalizing v p prev fuel with
  | nil =>
    obtain rfl : p = none := chain
    exact ⟨[],[],v,rfl,by cases fuel <;> rfl,rfl,fun _ => rfl,fun _ => ⟨rfl,rfl,rfl⟩⟩
  | cons t ts ih =>
    obtain ⟨rfl,rest⟩ := chain
    obtain ⟨fuel,rfl⟩ : ∃ n, fuel = n + 1 := ⟨fuel - 1,by simp at enough; omega⟩
    by_cases before : (v.node timer).ticksLeft < (v.node t).ticksLeft
    · exact ⟨[],t::ts,v.setLeft t (sub32 (v.node t).ticksLeft (v.node timer).ticksLeft),rfl,
        by simp [addWalk,before],rfl,fun x => by simp [Timers.next],setLeft_sameSetup _ _ _⟩
    · set u := v.setLeft timer (sub32 (v.node timer).ticksLeft (v.node t).ticksLeft) with hu
      have same (x : Addr) : u.next x = v.next x := by simp [hu,Timers.next]
      have link : Chain u.next (u.next t) ts := by
        rw [same]
        exact seg_congr rest fun x _ => same x
      obtain ⟨left,right,w,rfl,walk,list,nexts,setup⟩ := ih (some t) link
        (show ts.length ≤ fuel by simp at enough; omega)
      refine ⟨t::left,right,w,rfl,?_,list,fun x => (nexts x).trans (same x),
        (setLeft_sameSetup _ _ _).trans setup⟩
      have step : addWalk timer (fuel+1) v (some t) prev = addWalk timer fuel u (u.next t) (some t) := by
        simp only [addWalk,if_neg before]
        rfl
      rw [step,walk]
      cases left with
      | nil => rfl
      | cons f left => simp [List.getLast?_cons]

theorem add_chain {ts : List Addr} (chain : Chain v.next v.bermudaTimerList ts)
    (fresh : timer ∉ ts) :
    ∃ before after w, ts = before ++ after ∧ bermudaTimerAdd v timer = some w ∧
      Chain w.next w.bermudaTimerList (before ++ timer::after) ∧ SameSetup v w := by
  obtain ⟨before,after,u,rfl,walk,list,nexts,setup⟩ := addWalk_chain none chain (chain_length chain)
  rw [Option.or_none] at walk
  have links : Chain u.next u.bermudaTimerList (before ++ after) := by
    rw [list]
    exact seg_congr chain fun x _ => nexts x
  exact ⟨before,after,_,rfl,add_linked walk,linked_chain links fresh,
    setup.trans (linked_frame _ _ _ _).2.1⟩

theorem addWalk_elapsed {fuel : Nat} {v w : Timers Handle} {p prev vtp last : Option Addr} {x : Addr}
    (walk : addWalk timer fuel v p prev = some (w,vtp,last)) (other : x ≠ timer)
    (zero : v.left x = 0) : w.left x = 0 := by
  induction fuel generalizing v p prev with
  | zero =>
    cases p with
    | none =>
      obtain ⟨rfl,_⟩ := Prod.mk.inj (Option.some.inj walk)
      exact zero
    | some t => cases walk
  | succ fuel ih =>
    cases p with
    | none =>
      obtain ⟨rfl,_⟩ := Prod.mk.inj (Option.some.inj walk)
      exact zero
    | some t =>
      rw [addWalk] at walk
      split at walk
      · next before =>
        obtain ⟨rfl,_⟩ := Prod.mk.inj (Option.some.inj walk)
        have apart : x ≠ t := by
          rintro rfl
          rw [show (v.node x).ticksLeft = 0 from zero] at before
          exact Nat.not_lt_zero _ before
        simpa [Timers.left,apart] using zero
      · exact ih walk (by simpa [Timers.left,other] using zero)

theorem addWalk_behind {fuel : Nat} {v w : Timers Handle} {p vtp last : Option Addr} {x : Addr}
    (walk : addWalk timer fuel v p (some x) = some (w,vtp,last)) : ∃ y, last = some y := by
  induction fuel generalizing v p x with
  | zero =>
    cases p with
    | none => exact ⟨x,(Prod.mk.inj (Prod.mk.inj (Option.some.inj walk)).2).2.symm⟩
    | some t => cases walk
  | succ fuel ih =>
    cases p with
    | none => exact ⟨x,(Prod.mk.inj (Prod.mk.inj (Option.some.inj walk)).2).2.symm⟩
    | some t =>
      rw [addWalk] at walk
      split at walk
      · exact ⟨x,(Prod.mk.inj (Prod.mk.inj (Option.some.inj walk)).2).2.symm⟩
      · exact ih walk

/-- No timer is added in front of an elapsed head. -/
theorem add_elapsed {v w : Timers Handle} {x : Addr} {ts : List Addr}
    (chain : Chain v.next v.bermudaTimerList (x::ts)) (fresh : timer ∉ x::ts) (zero : v.left x = 0)
    (added : bermudaTimerAdd v timer = some w) : w.bermudaTimerList = some x ∧ w.left x = 0 := by
  have other : x ≠ timer := fun same => fresh (by simp [same])
  obtain ⟨before,after,u,_,walk,list,_,_⟩ :=
    addWalk_chain none chain (chain_length chain)
  rw [add_linked walk] at added
  obtain rfl := Option.some.inj added
  have elapsed := addWalk_elapsed walk other zero
  refine ⟨?_,((linked_frame _ _ _ _).2.2 x).trans elapsed⟩
  have head : v.bermudaTimerList = some x := chain.1
  have late : ¬(v.node timer).ticksLeft < (v.node x).ticksLeft := by
    rw [show (v.node x).ticksLeft = 0 from zero]
    exact Nat.not_lt_zero _
  rw [head,show addrLimit = 2^16 - 1 + 1 from rfl,addWalk,if_neg late] at walk
  obtain ⟨y,last⟩ := addWalk_behind walk
  rw [last]
  exact list.trans head

/-- `BermudaTimerCreate` fills in the timer and adds it. -/
theorem create_add (v : Timers Handle) (timer : Addr) (now ms : Nat) (fn : Option Handle) (arg : Addr)
    (flags : Nat) : ∃ u : Timers Handle, bermudaTimerCreate v timer now ms fn arg flags = bermudaTimerAdd u timer ∧
      u.bermudaTimerList = v.bermudaTimerList ∧ u.lastSysTick = v.lastSysTick ∧
      (∀ x, x ≠ timer → u.node x = v.node x) ∧
      u.left timer = sub32 (add32 (bermudaTimerMillisToTicks ms) now) v.lastSysTick ∧
      (u.node timer).handle = fn ∧ (u.node timer).arg = arg ∧ (u.node timer).ticks =
        if flags &&& bermudaOneShot ≠ 0 then 0 else bermudaTimerMillisToTicks ms := by
  refine ⟨_,rfl,rfl,rfl,fun x other => ?_,?_,?_⟩
  · simp [Timers.update,other]
  · simp [Timers.left,Timers.update]
  · simp [Timers.update]

theorem create_chain (now ms : Nat) (fn : Option Handle) (arg : Addr) (flags : Nat)
    {v : Timers Handle} {ts : List Addr} (chain : Chain v.next v.bermudaTimerList ts)
    (fresh : timer ∉ ts) :
    ∃ before after w, ts = before ++ after ∧
      bermudaTimerCreate v timer now ms fn arg flags = some w ∧
      Chain w.next w.bermudaTimerList (before ++ timer::after) ∧
      ((w.node timer).handle = fn ∧ (w.node timer).arg = arg ∧ (w.node timer).ticks =
        if flags &&& bermudaOneShot ≠ 0 then 0 else bermudaTimerMillisToTicks ms) ∧
      (∀ x, x ≠ timer → (w.node x).handle = (v.node x).handle ∧
        (w.node x).arg = (v.node x).arg ∧ (w.node x).ticks = (v.node x).ticks) ∧
      ∀ x, ts.head? = some x → v.left x = 0 → w.bermudaTimerList = some x ∧ w.left x = 0 := by
  obtain ⟨u,created,list,_,others,_,own⟩ := create_add v timer now ms fn arg flags
  have links : Chain u.next u.bermudaTimerList ts := by
    rw [list]
    refine seg_congr chain fun x member => ?_
    exact congrArg VTimer.next (others x fun same => fresh (same ▸ member))
  obtain ⟨before,after,w,split,added,longer,setup⟩ := add_chain links fresh
  refine ⟨before,after,w,split,created.trans added,longer,?_,fun x other => ?_,fun x first zero => ?_⟩
  · obtain ⟨handle,argument,period⟩ := setup timer
    rw [handle,argument,period]
    exact own
  · rw [← others x other]
    exact setup x
  · obtain ⟨rest,rfl⟩ := List.head?_eq_some_iff.mp first
    have other : x ≠ timer := fun same => fresh (by simp [same])
    exact add_elapsed links fresh ((congrArg VTimer.ticksLeft (others x other)).trans zero) added

theorem stopWalk_chain {v : Timers Handle} {timer : Addr} {fuel : Nat} {p : Option Addr}
    (prev : Option Addr) {before after : List Addr} (chain : Chain v.next p (before ++ timer::after))
    (absent : timer ∉ before) (enough : before.length < fuel) :
    stopWalk v timer fuel p prev = some (before.getLast?.or prev) := by
  induction before generalizing p prev fuel with
  | nil =>
    obtain ⟨rfl,_⟩ := chain
    obtain ⟨fuel,rfl⟩ : ∃ n, fuel = n + 1 := ⟨fuel - 1,by simp at enough; omega⟩
    simp [stopWalk]
  | cons x before ih =>
    obtain ⟨rfl,rest⟩ := chain
    obtain ⟨fuel,rfl⟩ : ∃ n, fuel = n + 1 := ⟨fuel - 1,by simp at enough; omega⟩
    have other : x ≠ timer := by
      rintro rfl
      simp at absent
    have step : stopWalk v timer fuel (v.next x) (some x) = some (before.getLast?.or (some x)) :=
      ih (some x) rest (fun member => absent (by simp [member])) (by simp at enough; omega)
    simp only [stopWalk,if_neg other]
    rw [show (v.node x).next = v.next x from rfl,step]
    cases before with
    | nil => rfl
    | cons y before => simp [List.getLast?_cons]

theorem unlink_chain {v : Timers Handle} {timer : Addr} {before after : List Addr}
    (chain : Chain v.next v.bermudaTimerList (before ++ timer::after)) :
    Chain (unlink v timer before.getLast?).next (unlink v timer before.getLast?).bermudaTimerList
      (before ++ after) := by
  have nodup := chain_nodup chain
  rcases List.eq_nil_or_concat before with rfl | ⟨ahead,a,split⟩
  · exact chain.2
  · rw [List.concat_eq_append] at split
    subst split
    rw [List.append_assoc] at chain nodup ⊢
    have last : (ahead ++ [a]).getLast? = some a := by simp
    rw [last]
    refine seg_drop_behind chain (by simp [unlink,Timers.next]) fun x member => ?_
    have apart : x ≠ a := by
      rintro rfl
      refine (List.nodup_cons.mp ((List.perm_middle.nodup_iff).mp nodup)).1 ?_
      rcases List.mem_append.mp member with early | late
      · exact List.mem_append_left _ early
      · exact List.mem_append_right _ (List.mem_cons_of_mem _ late)
    simp [unlink,Timers.next,apart]

theorem unlink_frame (v : Timers Handle) (timer : Addr) (prev : Option Addr) :
    (unlink v timer prev).lastSysTick = v.lastSysTick ∧ SameSetup v (unlink v timer prev) ∧
      (∀ x, (unlink v timer prev).left x = v.left x) ∧
      (prev ≠ some timer → (unlink v timer prev).next timer = v.next timer) := by
  cases prev with
  | none => exact ⟨rfl,fun _ => ⟨rfl,rfl,rfl⟩,fun _ => rfl,fun _ => rfl⟩
  | some prev =>
    refine ⟨rfl,setNext_sameSetup _ _ _,fun x => by simp [unlink,Timers.left],fun other => ?_⟩
    have apart : timer ≠ prev := fun same => other (congrArg some same.symm)
    simp [unlink,Timers.next,apart]

theorem passOn_frame (v : Timers Handle) (timer : Addr) :
    (passOn v timer).bermudaTimerList = v.bermudaTimerList ∧
      (passOn v timer).lastSysTick = v.lastSysTick ∧ SameSetup v (passOn v timer) ∧
      (∀ x, (passOn v timer).next x = v.next x) := by
  unfold passOn
  cases (v.node timer).next with
  | none => exact ⟨rfl,rfl,fun _ => ⟨rfl,rfl,rfl⟩,fun _ => rfl⟩
  | some next => exact ⟨rfl,rfl,setLeft_sameSetup _ _ _,fun x => by simp [Timers.next]⟩

/-- What is left of a timer that was stopped. -/
structure Stopped (v w : Timers Handle) (timer : Addr) : Prop where
  tick : w.lastSysTick = v.lastSysTick
  own : (w.node timer).handle = none ∧ (w.node timer).ticks = 0
  others : ∀ x, x ≠ timer → (w.node x).handle = (v.node x).handle ∧
    (w.node x).arg = (v.node x).arg ∧ (w.node x).ticks = (v.node x).ticks

/-- A stopped timer leaves the list, or stays as an elapsed timer without a handle. -/
theorem stop_chain {before after : List Addr}
    (chain : Chain v.next v.bermudaTimerList (before ++ timer::after)) :
    ∃ w, bermudaTimerStop v timer = some w ∧ Stopped v w timer ∧
      (v.left timer = 0 → Chain w.next w.bermudaTimerList (before ++ timer::after) ∧
        ∀ x, w.left x = v.left x) ∧
      (v.left timer ≠ 0 → Chain w.next w.bermudaTimerList (before ++ after) ∧
        ∀ x, x ≠ timer → w.left x =
          if after.head? = some x then add32 (v.left x) (v.left timer) else v.left x) := by
  set u := v.update timer fun t => {t with handle := none,ticks := 0} with hu
  have links (x : Addr) : u.next x = v.next x := by
    by_cases same : x = timer <;> simp [hu,Timers.next,Timers.update,same]
  have counts (x : Addr) : u.left x = v.left x := by
    by_cases same : x = timer <;> simp [hu,Timers.left,Timers.update,same]
  have own : (u.node timer).handle = none ∧ (u.node timer).ticks = 0 := by simp [hu,Timers.update]
  have others {x : Addr} (other : x ≠ timer) : u.node x = v.node x := by
    simp [hu,Timers.update,other]
  have whole : Chain u.next u.bermudaTimerList (before ++ timer::after) :=
    seg_congr chain fun x _ => links x
  by_cases zero : v.left timer = 0
  · have elapsed : (u.node timer).ticksLeft = 0 := (counts timer).trans zero
    refine ⟨u,?_,⟨rfl,own,fun x other => by rw [others other]; exact ⟨rfl,rfl,rfl⟩⟩,
      fun _ => ⟨whole,counts⟩,fun left => absurd zero left⟩
    simp only [bermudaTimerStop,← hu,elapsed,if_true]
  · have left : (u.node timer).ticksLeft ≠ 0 := fun elapsed =>
      zero ((counts timer).symm.trans elapsed)
    have nodup := chain_nodup whole
    have absent : timer ∉ before := fun member =>
      (List.nodup_cons.mp ((List.perm_middle.nodup_iff).mp nodup)).1 (List.mem_append_left _ member)
    have long := chain_length whole
    have walk := stopWalk_chain none whole absent (show before.length < addrLimit by simp at long; omega)
    rw [Option.or_none] at walk
    obtain ⟨tick₁,setup₁,left₁,next₁⟩ := unlink_frame u timer before.getLast?
    have shorter := unlink_chain whole
    have distinct : before.getLast? ≠ some timer := fun last => absent (List.mem_of_getLast? last)
    set w := unlink u timer before.getLast? with hw
    obtain ⟨list₂,tick₂,setup₂,next₂⟩ := passOn_frame w timer
    have onward : (w.node timer).next = after.head? := by
      obtain ⟨_,_,_,tail⟩ := (seg_append _ _ _ _ _).mp whole
      exact (next₁ distinct).trans (chain_head tail)
    have setup : SameSetup u ((passOn w timer).setLeft timer 0) :=
      (setup₁.trans setup₂).trans (setLeft_sameSetup _ _ _)
    refine ⟨(passOn w timer).setLeft timer 0,?_,⟨tick₂.trans tick₁,?_,?_⟩,
      fun elapsed => absurd elapsed zero,fun _ => ⟨?_,?_⟩⟩
    · simp only [bermudaTimerStop,← hu,if_neg left,walk]
      rfl
    · obtain ⟨handle,_,period⟩ := setup timer
      rw [handle,period]
      exact own
    · intro x other
      rw [← others other]
      exact setup x
    · refine seg_congr (p := (passOn w timer).bermudaTimerList) (list₂ ▸ shorter) fun x _ => ?_
      simpa [Timers.next] using next₂ x
    · intro x other
      rw [← counts x,← counts timer,← left₁ x,← left₁ timer]
      simp only [Timers.left,setLeft_left,if_neg other,passOn,onward]
      cases head : after.head? with
      | none => simp
      | some n =>
        by_cases same : x = n
        · simp [same]
        · simp [same,Ne.symm same]

theorem distribute_chain {ts : List Addr} {p : Option Addr} (timer : Addr) (diff : Nat) (chain : Chain v.next p ts) :
    Chain (distribute v timer diff).1.next p ts ∧
      (distribute v timer diff).1.bermudaTimerList = v.bermudaTimerList ∧
      SameSetup v (distribute v timer diff).1 := by
  unfold distribute
  split
  · exact ⟨seg_congr chain fun x _ => by simp [Timers.next],rfl,setLeft_sameSetup _ _ _⟩
  · exact ⟨seg_congr chain fun x _ => by simp [Timers.next],rfl,setLeft_sameSetup _ _ _⟩

theorem retire_chain {ts : List Addr} (chain : Chain v.next v.bermudaTimerList (timer::ts))
    (shot : (v.node timer).ticks = 0) :
    ∃ w, retire v timer = some w ∧ Chain w.next w.bermudaTimerList ts ∧ SameSetup v w := by
  set u := ({v with bermudaTimerList := (v.node timer).next} : Timers Handle).setLeft timer
    (v.node timer).ticks with hu
  have count : (u.node timer).ticksLeft = 0 := by simp [hu,shot]
  refine ⟨u,?_,seg_congr chain.2 fun x _ => by simp [hu,Timers.next],fun x => ?_⟩
  · simp only [retire,← hu,count,if_true]
  · by_cases same : x = timer <;> simp [hu,setLeft,update,same]

theorem retire_unfold (v : Timers Handle) (timer : Addr) : retire v timer =
    if (v.node timer).ticks = 0 then
      some (({v with bermudaTimerList := (v.node timer).next} : Timers Handle).setLeft timer
        (v.node timer).ticks)
    else bermudaTimerAdd (({v with bermudaTimerList := (v.node timer).next} : Timers Handle).setLeft
      timer (v.node timer).ticks) timer := by
  simp only [retire]
  rw [setLeft_left,if_pos rfl]

theorem retire_periodic {ts : List Addr} (chain : Chain v.next v.bermudaTimerList (timer::ts))
    (period : (v.node timer).ticks ≠ 0) :
    ∃ before after w, ts = before ++ after ∧ retire v timer = some w ∧
      Chain w.next w.bermudaTimerList (before ++ timer::after) ∧ SameSetup v w := by
  set u := ({v with bermudaTimerList := (v.node timer).next} : Timers Handle).setLeft timer
    (v.node timer).ticks with hu
  have setup : SameSetup v u := by
    intro x
    by_cases same : x = timer <;> simp [hu,setLeft,update,same]
  have links : Chain u.next u.bermudaTimerList ts :=
    seg_congr chain.2 fun x _ => by simp [hu,Timers.next]
  obtain ⟨before,after,w,split,added,longer,same⟩ :=
    add_chain links (List.nodup_cons.mp (chain_nodup chain)).1
  refine ⟨before,after,w,split,?_,longer,setup.trans same⟩
  rw [retire_unfold,if_neg period,← hu,added]

end BermudaOS.Sys.VirtTimer
