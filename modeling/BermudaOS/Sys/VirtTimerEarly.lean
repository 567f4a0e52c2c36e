import BermudaOS.Sys.VirtTimerCallbacks

/-! When handles are called. A timer is placed by its distance from the last processed
tick; a handle that creates one while elapsed ticks are still to be distributed places
it too early, by these ticks. In all other runs no handle is called before its time. -/
namespace BermudaOS.Sys.VirtTimer
open Lib.Chains Lib.Gaps Timers

variable {Handle : Type} {s t : Machine Handle} {es : List (Addr × Nat)} {ts : List Addr}
  {timer : Addr} {diff : Nat}

/-- No tick of the run leaves 32 bits. -/
def Fits (a : Action Handle) (s : Machine Handle) : Prop :=
  match a with
  | .tick => s.sysTick + 1 < 2^32
  | .create _ ms _ _ _ => s.sysTick + bermudaTimerMillisToTicks ms < 2^32
  | _ => True

/-- No timer is created while elapsed ticks are still to be distributed. -/
def Between (a : Action Handle) (s : Machine Handle) : Prop :=
  match a with
  | .create _ _ _ _ _ => s.phase.remaining = 0
  | _ => True

/-- The distances in the list reach no less far than the timers are due. -/
structure Timely (s : Machine Handle) (es : List (Addr × Nat)) : Prop where
  listed : Listed s.timers 0 es
  due : ∀ e ∈ es, s.due e.1 + s.phase.remaining ≤ s.timers.lastSysTick + e.2
  left : s.phase.remaining ≤ s.timers.lastSysTick
  last : s.timers.lastSysTick ≤ s.sysTick
  small : s.sysTick < 2^32
  period : ∀ e ∈ es, (s.timers.node e.1).ticks < 2^32

theorem millisToTicks_small (ms : Nat) : bermudaTimerMillisToTicks ms < 2^32 := by
  unfold bermudaTimerMillisToTicks
  omega

theorem Kept.names (kept : Kept s ts) (timely : Timely s es) : es.map Prod.fst = ts :=
  chain_unique timely.listed.chain kept.chain

theorem create_timely (kept : Kept s ts) (timely : Timely s es) {ms flags : Nat}
    {fn : Option Handle} {arg : Addr} (fresh : s.live timer = false)
    (fits : s.sysTick + bermudaTimerMillisToTicks ms < 2^32) (between : s.phase.remaining = 0)
    (run : step (.create timer ms fn arg flags) s = some t) : ∃ fs, Timely t fs := by
  have out : timer ∉ es.map Prod.fst := by
    rw [kept.names timely]
    intro member
    rw [(kept.live_iff timer).mpr member] at fresh
    cases fresh
  have last := timely.last
  have count : 0 + sub32 (add32 (bermudaTimerMillisToTicks ms) s.sysTick) s.timers.lastSysTick =
      s.sysTick + bermudaTimerMillisToTicks ms - s.timers.lastSysTick := by
    rw [add32_of_lt (by omega),sub32_of_le (by omega) (by omega)]
    omega
  obtain ⟨w,created,result,tick,own,others⟩ :=
    create_placed fn arg flags timely.listed out (by omega) count
  simp only [step,created,bind,Option.bind] at run
  obtain rfl := Option.some.inj run
  have member (e : Addr × Nat) := (insertKey_perm (timer,s.sysTick + bermudaTimerMillisToTicks ms -
    s.timers.lastSysTick) es).mem_iff (a := e)
  refine ⟨_,result,fun e inside => ?_,?_,?_,timely.small,fun e inside => ?_⟩
  · rcases List.mem_cons.mp ((member e).mp inside) with rfl | old
    · simp only [Machine.make,Function.update_self,between,tick]
      omega
    · have other : e.1 ≠ timer := fun same => out (same ▸ List.mem_map_of_mem old)
      simpa [Machine.make,other,tick] using timely.due e old
  · simpa [Machine.make,tick] using timely.left
  · simpa [Machine.make,tick] using last
  · rcases List.mem_cons.mp ((member e).mp inside) with rfl | old
    · rw [show (Machine.make _ timer _).timers = w from rfl,own.2.2]
      split
      · exact Nat.two_pow_pos 32
      · exact millisToTicks_small ms
    · have other : e.1 ≠ timer := fun same => out (same ▸ List.mem_map_of_mem old)
      rw [show (Machine.make _ timer _).timers = w from rfl,(others e.1 other).2.2]
      exact timely.period e old

theorem stop_timely (kept : Kept s ts) (timely : Timely s es) (live : s.live timer = true)
    (run : step (.stop timer) s = some t) : ∃ fs, Timely t fs := by
  have inside : timer ∈ es.map Prod.fst := by
    rw [kept.names timely]
    exact (kept.live_iff timer).mp live
  obtain ⟨⟨x,key⟩,member,same⟩ := List.mem_map.mp inside
  obtain rfl : x = timer := same
  obtain ⟨before,after,rfl⟩ := List.append_of_mem member
  obtain ⟨w,stopped,result,gone⟩ := stop_listed timely.listed
  simp only [step,stopped,bind,Option.bind] at run
  obtain rfl := Option.some.inj run
  have member {e : Addr × Nat} (inside : e ∈ if s.timers.left x = 0 then before ++ (x,key)::after
      else before ++ after) : e ∈ before ++ (x,key)::after := by
    split at inside
    · exact inside
    · simp only [List.mem_append,List.mem_cons] at inside ⊢
      tauto
  have kept_due {e : Addr × Nat} (inside : e ∈ before ++ (x,key)::after) :
      s.due e.1 + s.phase.remaining ≤ w.lastSysTick + e.2 := by
    rw [gone.tick]
    exact timely.due e inside
  have period {e : Addr × Nat} (inside : e ∈ before ++ (x,key)::after) :
      (w.node e.1).ticks < 2^32 := by
    by_cases same : e.1 = x
    · rw [same,gone.own.2]
      exact Nat.two_pow_pos 32
    · rw [(gone.others e.1 same).2.2]
      exact timely.period e inside
  have left := timely.left
  have last := timely.last
  rw [← gone.tick] at left last
  split
  · exact ⟨_,result,fun e inside => kept_due (member inside),left,last,timely.small,
      fun e inside => period (member inside)⟩
  · exact ⟨_,result,fun e inside => kept_due (member inside),left,last,timely.small,
      fun e inside => period (member inside)⟩

theorem retireStep_timely (timely : Timely s ((timer,0)::es)) (remaining : s.phase.remaining = diff)
    (run : retireStep timer diff s = some t) : ∃ fs, Timely t fs := by
  have period := timely.period _ (List.mem_cons_self ..)
  obtain ⟨w,retired,result,tick,setup⟩ := retire_listed timely.listed (by simpa using period)
  have others (e : Addr × Nat) (inside : e ∈ afterFire s.timers timer 0 es) :
      s.due e.1 + diff ≤ w.lastSysTick + e.2 ∧ (w.node e.1).ticks < 2^32 := by
    have old (f : Addr × Nat) (member : f ∈ es) :
        s.due f.1 + diff ≤ w.lastSysTick + f.2 ∧ (w.node f.1).ticks < 2^32 := by
      rw [tick,(setup f.1).2.2,← remaining]
      exact ⟨timely.due f (by simp [member]),timely.period f (by simp [member])⟩
    unfold afterFire at inside
    split at inside
    · exact old e inside
    · rcases List.mem_cons.mp ((insertKey_perm _ _).mem_iff.mp inside) with rfl | member
      · have due := timely.due _ (List.mem_cons_self ..)
        dsimp only at due period ⊢
        rw [tick,(setup timer).2.2]
        omega
      · exact old e member
  have left := timely.left
  have last := timely.last
  rw [← tick] at left last
  rw [remaining] at left
  simp only [retireStep,retired,bind,Option.bind] at run
  obtain rfl := Option.some.inj run
  split
  · exact ⟨_,result,fun e inside => (others e inside).1,left,last,timely.small,
      fun e inside => (others e inside).2⟩
  · exact ⟨_,result,fun e inside => (others e inside).1,left,last,timely.small,
      fun e inside => (others e inside).2⟩

/-- A pass distributes the elapsed ticks; what it finds elapsed is due. -/
theorem pass_timely (timely : Timely s es) (phase : s.phase = .loop diff)
    (run : passStep diff s = some t) :
    (∃ fs, Timely t fs) ∧ ∀ x d, t.phase = .handle x d → s.due x ≤ s.sysTick := by
  have remaining : s.phase.remaining = diff := by rw [phase]; rfl
  have left := timely.left
  rw [remaining] at left
  have idle : Timely {s with phase := .idle} es :=
    ⟨timely.listed,fun e member => le_trans (Nat.le_add_right _ _) (timely.due e member),
      Nat.zero_le _,timely.last,timely.small,timely.period⟩
  unfold passStep at run
  cases es with
  | nil =>
    have empty : s.timers.bermudaTimerList = none := timely.listed.chain
    rw [empty] at run
    obtain rfl := Option.some.inj run
    exact ⟨⟨_,idle⟩,by simp⟩
  | cons e es =>
    obtain ⟨timer,key⟩ := e
    have head : s.timers.bermudaTimerList = some timer := timely.listed.chain.1
    rw [head] at run
    dsimp only at run
    by_cases ended : diff = 0
    · rw [if_pos ended] at run
      obtain rfl := Option.some.inj run
      exact ⟨⟨_,idle⟩,by simp⟩
    · rw [if_neg ended] at run
      obtain ⟨v,split,moved,tick,setup⟩ := distribute_listed timely.listed (Nat.zero_le diff)
      rw [Nat.sub_zero] at split
      rw [split] at run
      dsimp only at run
      -- the list again, read from the base that the pass moves to
      have low : ∀ e ∈ (timer,key)::es, min key diff ≤ e.2 := encodes_base moved.encodes
      have shifted : Timely {s with timers := v,phase := .loop (diff - min key diff)}
          (((timer,key)::es).map fun e => (e.1,e.2 - min key diff)) := by
        refine ⟨⟨by simpa [Function.comp_def] using moved.chain,
          encodes_shift _ (by simpa using moved.encodes),?_⟩,?_,?_,by simpa [tick] using timely.last,
          timely.small,?_⟩
        · rintro _ member
          obtain ⟨f,old,rfl⟩ := List.mem_map.mp member
          exact lt_of_le_of_lt (Nat.sub_le _ _) (moved.bound f old)
        · rintro _ member
          obtain ⟨f,old,rfl⟩ := List.mem_map.mp member
          have due := timely.due f old
          have bound := low f old
          rw [remaining] at due
          simp only [Phase.remaining,tick]
          omega
        · simp only [Phase.remaining,tick]
          omega
        · rintro _ member
          obtain ⟨f,old,rfl⟩ := List.mem_map.mp member
          rw [show (v.node f.1).ticks = _ from (setup f.1).2.2]
          exact timely.period f old
      have own := moved.encodes.1
      unfold Timers.left at own
      have last := timely.last
      split at run
      · next zero =>
        have reached : min key diff = key := by omega
        rw [reached,List.map_cons,Nat.sub_self] at shifted
        rw [reached] at run
        cases handle : (v.node timer).handle with
        | some h =>
          rw [handle] at run
          obtain rfl := Option.some.inj run
          refine ⟨⟨_,shifted.listed,shifted.due,shifted.left,shifted.last,shifted.small,shifted.period⟩,?_⟩
          rintro x d same
          obtain ⟨rfl,_⟩ := Phase.handle.inj same
          have due := timely.due _ (List.mem_cons_self ..)
          rw [remaining] at due
          dsimp only at due ⊢
          omega
        | none =>
          rw [handle] at run
          refine ⟨retireStep_timely shifted rfl run,fun x d same => ?_⟩
          obtain ⟨w,retired,_⟩ := retire_listed shifted.listed
            (by simpa using shifted.period _ (List.mem_cons_self ..))
          rw [(retireStep_timers retired run).2] at same
          cases same
      · obtain rfl := Option.some.inj run
        exact ⟨⟨_,shifted⟩,by simp⟩

theorem finish_timely (kept : Kept s ts) (timely : Timely s es) (phase : s.phase = .handle timer diff)
    (run : step .finish s = some t) : ∃ fs, Timely t fs := by
  obtain ⟨head,zero⟩ := kept.current timer diff phase
  have remaining : s.phase.remaining = diff := by rw [phase]; rfl
  have first := chain_head timely.listed.chain
  cases es with
  | nil =>
    rw [head] at first
    cases first
  | cons e es =>
    obtain ⟨x,key⟩ := e
    rw [head] at first
    obtain rfl : timer = x := Option.some.inj first
    have own := timely.listed.encodes.1
    rw [zero] at own
    obtain rfl : 0 = key := own
    simp only [step,phase] at run
    exact retireStep_timely timely remaining run

theorem process_timely (timely : Timely s es) (phase : s.phase = .idle)
    (run : step .process s = some t) : Timely t es := by
  have last := timely.last
  have small := timely.small
  obtain rfl := Option.some.inj run
  refine ⟨⟨timely.listed.chain,timely.listed.encodes,timely.listed.bound⟩,fun e member => ?_,?_,
    le_rfl,small,timely.period⟩
  · have due := timely.due e member
    rw [phase] at due
    simp only [Phase.remaining] at due ⊢
    rw [sub32_of_le last small]
    omega
  · simp only [Phase.remaining]
    rw [sub32_of_le last small]
    exact Nat.sub_le _ _

theorem step_timely {a : Action Handle} (kept : Kept s ts) (timely : Timely s es)
    (allowed : a.allowed s) (fits : Fits a s) (between : Between a s) (run : step a s = some t) :
    ∃ fs, Timely t fs := by
  cases a with
  | tick =>
    obtain rfl := Option.some.inj run
    have same : (s.sysTick + 1) % 2^32 = s.sysTick + 1 := Nat.mod_eq_of_lt fits
    refine ⟨es,timely.listed,timely.due,timely.left,?_,?_,timely.period⟩
    · simp only [same]
      exact Nat.le_succ_of_le timely.last
    · simp only [same]
      exact fits
  | create timer ms fn arg flags => exact create_timely kept timely (create_fresh allowed) fits between run
  | stop timer => exact stop_timely kept timely (stop_live allowed) run
  | process => exact ⟨es,process_timely timely (process_idle allowed) run⟩
  | pass =>
    obtain ⟨diff,phase⟩ := pass_phase allowed
    rw [step,phase] at run
    exact (pass_timely timely phase run).1
  | finish =>
    obtain ⟨timer,diff,phase⟩ := finish_phase allowed
    exact finish_timely kept timely phase run

theorem runs_timely (reach : Runs (fun a s => Fits a s ∧ Between a s) s) : ∃ es, Timely s es := by
  induction reach with
  | @init s empty start idle _ =>
    refine ⟨[],⟨empty,trivial,by simp⟩,by simp,?_,?_,?_,by simp⟩
    · rw [idle]
      exact Nat.zero_le _
    · rw [start.1]
      exact Nat.zero_le _
    · rw [start.2]
      exact Nat.two_pow_pos 32
  | step reach allowed accepted run ih =>
    obtain ⟨es,timely⟩ := ih
    obtain ⟨ts,kept⟩ := runs_kept reach
    exact step_timely kept timely allowed accepted.1 accepted.2 run

/-- The next pass calls no handle before its timer is due. -/
def NeverEarly (s : Machine Handle) : Prop := ∀ t x diff, Action.pass.allowed s →
  step .pass s = some t → t.phase = .handle x diff → s.due x ≤ s.sysTick

/-- No handle is called early, in any run in which timers are created only while no
elapsed ticks are still to be distributed. -/
theorem never_early (reach : Runs (fun a s => Fits a s ∧ Between a s) s) : NeverEarly s := by
  obtain ⟨es,timely⟩ := runs_timely reach
  intro t x diff allowed run fires
  obtain ⟨left,phase⟩ := pass_phase allowed
  rw [step,phase] at run
  exact (pass_timely timely phase run).2 x diff fires

instance (a : Action Handle) (s : Machine Handle) : Decidable (Fits a s) :=
  match a with
  | .tick => Nat.decLt _ _
  | .create _ _ _ _ _ => Nat.decLt _ _
  | .stop _ => .isTrue trivial
  | .process => .isTrue trivial
  | .pass => .isTrue trivial
  | .finish => .isTrue trivial

instance (a : Action Handle) (s : Machine Handle) : Decidable (Between a s) :=
  match a with
  | .create _ _ _ _ _ => instDecidableEqNat _ _
  | .tick => .isTrue trivial
  | .stop _ => .isTrue trivial
  | .process => .isTrue trivial
  | .pass => .isTrue trivial
  | .finish => .isTrue trivial

theorem noTimers_runs {may : Action Unit → Machine Unit → Prop} : Runs may noTimers :=
  .init rfl ⟨rfl,rfl⟩ rfl fun _ => ⟨rfl,rfl⟩

/-- A handle that is called in time creates the next timer, and that one is due. -/
def onTime : Machine Unit :=
  perform (fun a s => Fits a s ∧ Between a s) ([.create 7 1 (some ()) 0 bermudaOneShot,.tick,.process,
    .pass,.create 9 5 (some ()) 0 bermudaOneShot,.finish,.pass] ++ List.replicate 5 .tick ++
    [.process]) noTimers

theorem never_early_onTime : NeverEarly onTime ∧
    (step .pass onTime).map Machine.phase = some (.handle 9 0) ∧ onTime.due 9 = 6 ∧
    onTime.sysTick = 6 :=
  ⟨never_early (perform_runs _ _ noTimers_runs),by decide +kernel,by decide +kernel,by decide +kernel⟩

/-- A handle that is called 19 ticks late creates a timer of 5 ticks. -/
def late : Machine Unit :=
  perform Fits ([.create 7 1 (some ()) 0 bermudaOneShot] ++ List.replicate 20 .tick ++ [.process,.pass,
    .create 9 5 (some ()) 0 bermudaOneShot,.finish]) noTimers

/-- Its handle is called at once. -/
theorem fires_early : ∃ s : Machine Unit, Runs Fits s ∧ ¬NeverEarly s := by
  have reach : Runs Fits late := perform_runs _ _ noTimers_runs
  refine ⟨late,reach,fun early => ?_⟩
  obtain ⟨ts,kept⟩ := runs_kept reach
  have allowed : Action.pass.allowed late := by decide +kernel
  obtain ⟨t,_,run,_⟩ := step_kept kept allowed
  have phase : (step .pass late).map Machine.phase = some (.handle 9 14) := by decide +kernel
  rw [run] at phase
  have due := early t 9 14 allowed run (Option.some.inj phase)
  exact absurd due (by decide +kernel)

end BermudaOS.Sys.VirtTimer
