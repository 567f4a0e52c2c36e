import BermudaOS.Sys.VirtTimerDue

/-! Timers do not care how often they are processed. The passes after `a` ticks and those after `b`
more are the passes after all of them: a count that is not used up in the first call is taken up where
it was left, and what is due at the end of the first call fires first in the second. -/
namespace BermudaOS.Sys.VirtTimer
open Lib.Chains Lib.Gaps Lib.Agenda Timers

variable {Handle : Type} {v w : Timers Handle} {ts : List Addr} {timer : Addr} {σ : Type}
  {fire : Handle → Addr → Addr → σ → σ} {s t : σ} {r : Timers Handle × σ} {a b diff fuel : Nat}

theorem passRest_imp {enough : Nat} {p : Timers Handle × Nat} (imp : ∀ diff v s, processWalk fire fuel diff v s = some r →
    processWalk fire enough diff v s = some r) (rest : passRest fire fuel timer p s = some r) :
    passRest fire enough timer p s = some r := by
  unfold passRest at rest ⊢
  split
  · next zero =>
    rw [if_pos zero,Option.bind_eq_some_iff] at rest
    obtain ⟨w,retired,walk⟩ := rest
    rw [retired,Option.bind_some]
    exact imp _ _ _ walk
  · next running =>
    rw [if_neg running] at rest
    exact imp _ _ _ rest

theorem processWalk_more (walk : processWalk fire fuel diff v s = some r) (more : Nat) :
    processWalk fire (fuel + more) diff v s = some r := by
  induction fuel generalizing diff v s with
  | zero => cases walk
  | succ fuel ih =>
    rw [Nat.succ_add]
    cases head : v.bermudaTimerList with
    | none =>
      simp only [processWalk,head] at walk ⊢
      exact walk
    | some timer =>
      by_cases ended : diff = 0
      · simp only [processWalk,head,if_pos ended] at walk ⊢
        exact walk
      · rw [processWalk_pass fire _ s head ended] at walk ⊢
        exact passRest_imp (fun _ _ _ => ih) walk

theorem walk_fuel (walk : processWalk fire fuel diff v s = some r) : ∃ n, fuel = n + 1 := by
  cases fuel with
  | zero => cases walk
  | succ n => exact ⟨n,rfl⟩

theorem processWalk_ended (none_left : diff = 0 ∨ v.bermudaTimerList = none) :
    processWalk fire (fuel+1) diff v s = some (v,s) := by
  cases head : v.bermudaTimerList with
  | none => simp only [processWalk,head]
  | some timer =>
    have ended := none_left.resolve_right (by simp [head])
    simp only [processWalk,head,if_pos ended]

/-- A head that is due takes the same from any number of ticks. -/
theorem distribute_due (due : (v.node timer).ticksLeft ≤ a) (b : Nat) :
    distribute v timer (a + b) = ((distribute v timer a).1,(distribute v timer a).2 + b) := by
  unfold distribute
  rcases Nat.lt_or_eq_of_le due with early | now
  · rw [if_pos early,if_pos (by omega)]
    congr 1
    omega
  · rcases Nat.eq_zero_or_pos b with rfl | more
    · rfl
    · rw [if_pos (by omega),if_neg (by omega),now,Nat.sub_self,Nat.add_sub_cancel_left,Nat.zero_add]

/-- A head that is not due takes all ticks, and the next ones as if they had come together. -/
theorem distribute_twice (later : a < (v.node timer).ticksLeft) (b : Nat) :
    distribute (v.setLeft timer ((v.node timer).ticksLeft - a)) timer b = distribute v timer (a + b) := by
  have again (n m : Nat) : (v.setLeft timer n).setLeft timer m = v.setLeft timer m := by
    simp [setLeft,update]
  unfold distribute
  rw [setLeft_left,if_pos rfl,again,again]
  by_cases early : (v.node timer).ticksLeft - a < b
  · rw [if_pos early,if_pos (by omega)]
    congr 1
    omega
  · rw [if_neg early,if_neg (by omega),Nat.sub_sub]

theorem processWalk_split {more : Nat} (first : processWalk fire fuel a v s = some (w,t))
    (second : processWalk fire more b w t = some r) : processWalk fire (fuel + more) (a + b) v s = some r := by
  induction fuel generalizing a v s with
  | zero => cases first
  | succ fuel ih =>
    by_cases ended : a = 0 ∨ v.bermudaTimerList = none
    · rw [processWalk_ended ended] at first
      obtain ⟨rfl,rfl⟩ := Prod.mk.inj (Option.some.inj first)
      obtain ⟨more,rfl⟩ := walk_fuel second
      rcases ended with rfl | empty
      · rw [Nat.zero_add,Nat.add_comm]
        exact processWalk_more second _
      · rw [processWalk_ended (.inr empty)] at second
        rw [← Nat.add_assoc,processWalk_ended (.inr empty)]
        exact second
    · obtain ⟨some_left,filled⟩ := not_or.mp ended
      obtain ⟨timer,head⟩ := Option.ne_none_iff_exists'.mp filled
      rw [processWalk_pass fire fuel s head some_left] at first
      rw [Nat.succ_add,processWalk_pass fire _ s head (by omega)]
      by_cases due : (v.node timer).ticksLeft ≤ a
      · have zero := (distribute_elapsed v timer a).mpr due
        rw [passRest,if_pos zero,Option.bind_eq_some_iff] at first
        obtain ⟨u,retired,walk⟩ := first
        rw [distribute_due due,passRest,if_pos zero,retired]
        exact ih walk
      · have later : a < (v.node timer).ticksLeft := by omega
        have split : distribute v timer a = (v.setLeft timer ((v.node timer).ticksLeft - a),0) := if_neg (by omega)
        have running : ((v.setLeft timer ((v.node timer).ticksLeft - a)).node timer).ticksLeft ≠ 0 := by
          rw [setLeft_left,if_pos rfl]
          omega
        rw [split,passRest,if_neg running] at first
        obtain ⟨fuel,rfl⟩ := walk_fuel first
        rw [processWalk_ended (.inl rfl)] at first
        obtain ⟨rfl,rfl⟩ := Prod.mk.inj (Option.some.inj first)
        by_cases none_more : b = 0
        · subst none_more
          rw [show distribute v timer (a + 0) = _ from split,passRest,if_neg running,Nat.add_comm]
          exact processWalk_more second _
        · obtain ⟨more,rfl⟩ := walk_fuel second
          have still : (v.setLeft timer ((v.node timer).ticksLeft - a)).bermudaTimerList = some timer := head
          rw [processWalk_pass fire more s still none_more,distribute_twice later] at second
          refine passRest_imp (fun _ _ _ walk => ?_) second
          rw [show fuel + 1 + (more + 1) = more + (fuel + 2) by omega]
          exact processWalk_more walk _

section Tick

/-- The timers with another last processed tick, which no pass reads. -/
def Timers.upTo (v : Timers Handle) (now : Nat) : Timers Handle := {v with lastSysTick := now}

@[simp] theorem upTo_node (v : Timers Handle) (now : Nat) : (v.upTo now).node = v.node := rfl

theorem addWalk_upTo (now : Nat) (p prev : Option Addr) : addWalk timer fuel (v.upTo now) p prev =
    (addWalk timer fuel v p prev).map fun r => (r.1.upTo now,r.2) := by
  induction fuel generalizing v p prev with
  | zero => cases p <;> rfl
  | succ fuel ih =>
    cases p with
    | none => rfl
    | some vtp =>
      unfold addWalk
      by_cases before : (v.node timer).ticksLeft < (v.node vtp).ticksLeft
      · rw [upTo_node,if_pos before,if_pos before]
        rfl
      · rw [upTo_node,if_neg before,if_neg before]
        exact @ih (v.setLeft timer (sub32 (v.node timer).ticksLeft (v.node vtp).ticksLeft)) _ _

theorem add_upTo (now : Nat) : bermudaTimerAdd (v.upTo now) timer = (bermudaTimerAdd v timer).map (Timers.upTo · now) := by
  unfold bermudaTimerAdd
  rw [show (v.upTo now).bermudaTimerList = v.bermudaTimerList from rfl,addWalk_upTo]
  cases addWalk timer addrLimit v v.bermudaTimerList none with
  | none => rfl
  | some r =>
    obtain ⟨w,vtp,prev⟩ := r
    cases prev <;> rfl

theorem retire_upTo (now : Nat) : retire (v.upTo now) timer = (retire v timer).map (Timers.upTo · now) := by
  rw [retire_unfold,retire_unfold]
  by_cases shot : (v.node timer).ticks = 0
  · rw [upTo_node,if_pos shot,if_pos shot]
    rfl
  · rw [upTo_node,if_neg shot,if_neg shot]
    exact add_upTo (v := ({v with bermudaTimerList := (v.node timer).next} : Timers Handle).setLeft timer
      (v.node timer).ticks) now

theorem distribute_upTo (now : Nat) : distribute (v.upTo now) timer diff =
    ((distribute v timer diff).1.upTo now,(distribute v timer diff).2) := by
  unfold distribute
  rw [upTo_node]
  split <;> rfl

theorem processWalk_upTo (now : Nat) : processWalk fire fuel diff (v.upTo now) s =
    (processWalk fire fuel diff v s).map fun r => (r.1.upTo now,r.2) := by
  induction fuel generalizing diff v s with
  | zero => rfl
  | succ fuel ih =>
    by_cases ended : diff = 0 ∨ v.bermudaTimerList = none
    · rw [processWalk_ended (v := v) ended,processWalk_ended (v := v.upTo now) ended]
      rfl
    · obtain ⟨some_left,filled⟩ := not_or.mp ended
      obtain ⟨timer,head⟩ := Option.ne_none_iff_exists'.mp filled
      rw [processWalk_pass fire fuel s head some_left,
        processWalk_pass fire fuel s (show (v.upTo now).bermudaTimerList = _ from head) some_left,distribute_upTo]
      generalize distribute v timer diff = p
      unfold passRest
      by_cases zero : (p.1.node timer).ticksLeft = 0
      · rw [upTo_node,if_pos zero,if_pos zero,retire_upTo,Option.map_bind,Option.bind_map]
        exact Option.bind_congr fun w _ => ih
      · rw [upTo_node,if_neg zero,if_neg zero]
        exact ih

theorem process_walk (small : diff < 2^32) : bermudaTimerProcess fire (add32 v.lastSysTick diff) v s =
    processWalk fire processLimit diff (v.upTo (add32 v.lastSysTick diff)) s := by
  rw [bermudaTimerProcess,sub32_add32 small]
  rfl

end Tick

/-- Two calls of `BermudaTimerProcess` do what one call after all ticks does: the same handles are called,
in the same order, and the same timers are left. -/
theorem process_polls (proper : Proper v ts) (small : a + b < 2^32) (σ : Type)
    (fire : Handle → Addr → Addr → σ → σ) (s : σ) : ∃ w t x u,
      bermudaTimerProcess fire (add32 v.lastSysTick a) v s = some (w,t) ∧
      bermudaTimerProcess fire (add32 w.lastSysTick b) w t = some (x,u) ∧
      bermudaTimerProcess fire (add32 v.lastSysTick (a + b)) v s = some (x,u) := by
  obtain ⟨es,rfl,spaced⟩ := proper.spaced v.lastSysTick
  have period (e : Addr × Nat) (member : e ∈ es) := (proper.words e.1 (List.mem_map_of_mem member)).2
  obtain ⟨w,fs,log,run,final,serves,-,-,tick,setup⟩ :=
    process_serves spaced (show a < 2^32 by omega) fun e member _ => period e member
  obtain ⟨x,_,later,again,-⟩ := process_serves (final.move w.lastSysTick) (show b < 2^32 by omega)
    fun e member _ => by
      obtain ⟨f,inside,rfl⟩ := List.mem_map.mp member
      obtain ⟨g,old,same⟩ := serves.names f inside
      rw [(setup f.1).2.2,← same]
      exact period g old
  obtain ⟨y,_,all,once,-⟩ := process_serves spaced small fun e member _ => period e member
  have first := run σ fire s
  have second := again σ fire ((log.map Prod.fst).foldl (call fire v) s)
  have whole := once σ fire s
  refine ⟨w,_,x,_,first,second,?_⟩
  rw [process_walk (by omega)] at first second whole ⊢
  have now : add32 w.lastSysTick b = add32 v.lastSysTick (a + b) := by
    rw [tick]
    unfold add32
    omega
  rw [now] at second
  have begun : processWalk fire processLimit a (v.upTo (add32 v.lastSysTick (a + b))) s =
      some (w.upTo (add32 v.lastSysTick (a + b)),(log.map Prod.fst).foldl (call fire v) s) :=
    (processWalk_upTo (v := v.upTo (add32 v.lastSysTick a)) _).trans (congrArg _ first)
  -- one walk with the passes of both has the same end as the walk that has enough of them
  exact (processWalk_more whole processLimit).symm.trans (processWalk_split begun second) ▸ whole

theorem process_polls_apart : ∃ w t x, bermudaTimerProcess (fun _ timer _ s => timer::s) 5 apart [] = some (w,t) ∧
    bermudaTimerProcess (fun _ timer _ s => timer::s) 10 w t = some (x,[2,2,1]) ∧
    bermudaTimerProcess (fun _ timer _ s => timer::s) 10 apart [] = some (x,[2,2,1]) := by
  obtain ⟨w,t,x,u,first,second,whole⟩ := process_polls (a := 5) (b := 5) apart_proper (by decide) (List Addr)
    (fun _ timer _ s => timer::s) []
  have tick : w.lastSysTick = 5 := by
    have result : (bermudaTimerProcess (fun _ timer _ s => timer::s) (add32 apart.lastSysTick 5) apart
      ([] : List Addr)).map (fun r => r.1.lastSysTick) = some 5 := by decide +kernel
    rw [first] at result
    simpa using result
  have calls : (bermudaTimerProcess (fun _ timer _ s => timer::s) (add32 apart.lastSysTick (5 + 5)) apart
      ([] : List Addr)).map Prod.snd = some [2,2,1] := by decide +kernel
  rw [whole] at calls
  obtain rfl : u = [2,2,1] := by simpa using calls
  rw [tick] at second
  exact ⟨w,t,x,first,second,whole⟩

end BermudaOS.Sys.VirtTimer
