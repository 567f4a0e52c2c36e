import BermudaOS.Sys.VirtTimerProcess

/-! The timer module with handles that call it back. `BermudaTimerProcess` is cut at
the calls of handles: between two passes of its loop a handle may create timers and
stop listed ones, the fired one included. The last five fields of the state are a
record for the reader: how often an address was handed out and freed, and of the
timer there now, whether it was stopped, when it is due and how often it fired. -/
namespace BermudaOS.Sys.VirtTimer
open Lib.Chains Timers

/-- Where the processor is: outside the timer module, at the head of the loop of
`BermudaTimerProcess` with `diff` ticks to distribute, or in the handle of a timer. -/
inductive Phase
  | idle
  | loop (diff : Nat)
  | handle (timer : Addr) (diff : Nat)
  deriving DecidableEq,Repr

/-- The elapsed ticks that are not distributed yet. -/
def Phase.remaining : Phase → Nat
  | idle => 0
  | loop diff => diff
  | handle _ diff => diff

structure Machine (Handle : Type) where
  timers : Timers Handle
  sysTick : Nat
  phase : Phase
  made : Addr → Nat
  freed : Addr → Nat
  stopped : Addr → Bool
  due : Addr → Nat
  fired : Addr → Nat

inductive Action (Handle : Type)
  | tick
  | create (timer : Addr) (ms : Nat) (fn : Option Handle) (arg : Addr) (flags : Nat)
  | stop (timer : Addr)
  | process
  | pass
  | finish

variable {Handle : Type}

namespace Machine

/-- The object is handed out and not freed. -/
def live (s : Machine Handle) (x : Addr) : Bool := decide (s.freed x < s.made x)

def free (s : Machine Handle) (x : Addr) : Machine Handle :=
  {s with freed := Function.update s.freed x (s.freed x + 1)}

/-- For the record: a timer is created. -/
def make (s : Machine Handle) (x : Addr) (ticks : Nat) : Machine Handle :=
  {s with made := Function.update s.made x (s.made x + 1),
          stopped := Function.update s.stopped x false,
          due := Function.update s.due x (s.sysTick + ticks),
          fired := Function.update s.fired x 0}

end Machine

/-- The end of a pass, with the free of a timer that does not start again. -/
def retireStep (timer : Addr) (diff : Nat) (s : Machine Handle) : Option (Machine Handle) := do
  let v ← retire s.timers timer
  let t := {s with timers := v,phase := .loop diff}
  return if (s.timers.node timer).ticks = 0 then t.free timer else t

/-- One pass of the loop of `BermudaTimerProcess`, up to the call of a handle. -/
def passStep (diff : Nat) (s : Machine Handle) : Option (Machine Handle) :=
  match s.timers.bermudaTimerList with
  | none => some {s with phase := .idle}
  | some timer =>
    if diff = 0 then some {s with phase := .idle} else
      let (v,diff) := distribute s.timers timer diff
      let s := {s with timers := v,phase := .loop diff}
      if (v.node timer).ticksLeft = 0 then
        match (v.node timer).handle with
        | some _ => some {s with phase := .handle timer diff,
                                 fired := Function.update s.fired timer (s.fired timer + 1)}
        | none => retireStep timer diff s
      else some s

/-- What the phase allows, and the caller: a timer is created in memory that is not in
use, and stopped at most once while it is not freed. -/
def Action.allowed (a : Action Handle) (s : Machine Handle) : Bool :=
  match a,s.phase with
  | tick,_ => true
  | create timer _ _ _ _,.idle => !s.live timer
  | create timer _ _ _ _,.handle _ _ => !s.live timer
  | stop timer,.idle => s.live timer && !s.stopped timer
  | stop timer,.handle _ _ => s.live timer && !s.stopped timer
  | process,.idle => true
  | pass,.loop _ => true
  | finish,.handle _ _ => true
  | _,_ => false

def step (a : Action Handle) (s : Machine Handle) : Option (Machine Handle) :=
  match a with
  | .tick => some {s with sysTick := (s.sysTick + 1) % 2^32}
  | .create timer ms fn arg flags => do
    let v ← bermudaTimerCreate s.timers timer s.sysTick ms fn arg flags
    return {s with timers := v}.make timer (bermudaTimerMillisToTicks ms)
  | .stop timer => do
    let v ← bermudaTimerStop s.timers timer
    let t := {s with timers := v,stopped := Function.update s.stopped timer true}
    return if (s.timers.node timer).ticksLeft = 0 then t else t.free timer
  | .process =>
    some {s with timers := {s.timers with lastSysTick := s.sysTick},
                 phase := .loop (sub32 s.sysTick s.timers.lastSysTick)}
  | .pass => passStep s.phase.remaining s
  | .finish =>
    match s.phase with
    | .handle timer diff => retireStep timer diff s
    | _ => none

/-- Runs from an empty list, of the actions that `may` accepts. -/
inductive Runs (may : Action Handle → Machine Handle → Prop) : Machine Handle → Prop
  | init {s : Machine Handle} (empty : s.timers.bermudaTimerList = none)
      (start : s.timers.lastSysTick = 0 ∧ s.sysTick = 0) (idle : s.phase = .idle)
      (unused : ∀ x, s.made x = 0 ∧ s.freed x = 0) : Runs may s
  | step {s t : Machine Handle} {a : Action Handle} (reach : Runs may s) (allowed : a.allowed s)
      (accepted : may a s) (run : step a s = some t) : Runs may t

/-- The list links exactly the timers that are handed out and not freed. A stopped one
has no handle and no period, and one that has fired for the last time is gone. -/
structure Kept (s : Machine Handle) (ts : List Addr) : Prop where
  chain : Chain s.timers.next s.timers.bermudaTimerList ts
  count : ∀ x, s.made x = s.freed x + if x ∈ ts then 1 else 0
  mute : ∀ x ∈ ts, s.stopped x = true →
    (s.timers.node x).handle = none ∧ (s.timers.node x).ticks = 0
  spent : ∀ x ∈ ts, (∀ d, s.phase ≠ .handle x d) → (s.timers.node x).ticks = 0 →
    s.stopped x = false → s.fired x = 0
  current : ∀ x d, s.phase = .handle x d → s.timers.bermudaTimerList = some x ∧ s.timers.left x = 0

section Steps

variable {s t : Machine Handle} {ts : List Addr} {timer : Addr} {diff : Nat}

theorem Kept.live_iff (kept : Kept s ts) (x : Addr) : s.live x = true ↔ x ∈ ts := by
  have count := kept.count x
  unfold Machine.live
  by_cases member : x ∈ ts
  · simp only [member,if_true] at count
    simp [member,count]
  · simp only [member,if_false] at count
    simp [member,count]

theorem Kept.nodup (kept : Kept s ts) : ts.Nodup := chain_nodup kept.chain

theorem retireStep_kept (diff : Nat) (chain : Chain s.timers.next s.timers.bermudaTimerList (timer::ts))
    (count : ∀ x, s.made x = s.freed x + if x ∈ timer::ts then 1 else 0)
    (mute : ∀ x ∈ timer::ts, s.stopped x = true →
      (s.timers.node x).handle = none ∧ (s.timers.node x).ticks = 0)
    (spent : ∀ x ∈ ts, (s.timers.node x).ticks = 0 → s.stopped x = false → s.fired x = 0) :
    ∃ t us, retireStep timer diff s = some t ∧ Kept t us ∧
      ((s.timers.node timer).ticks = 0 → t.freed timer = s.freed timer + 1) := by
  have fresh : timer ∉ ts := (List.nodup_cons.mp (chain_nodup chain)).1
  by_cases shot : (s.timers.node timer).ticks = 0
  · obtain ⟨w,retired,shorter,setup⟩ := retire_chain chain shot
    refine ⟨({s with timers := w,phase := .loop diff} : Machine Handle).free timer,ts,?_,
      ⟨shorter,fun x => ?_,?_,?_,by simp [Machine.free]⟩,fun _ => by simp [Machine.free]⟩
    · simp [retireStep,retired,shot]
    · have old := count x
      by_cases same : x = timer
      · subst same
        simpa [Machine.free,fresh] using old
      · simpa [Machine.free,same] using old
    · intro x member stopped
      rw [show (Machine.free _ timer).timers = w from rfl,(setup x).1,(setup x).2.2]
      exact mute x (by simp [member]) stopped
    · intro x member _ zero
      rw [show (Machine.free _ timer).timers = w from rfl,(setup x).2.2] at zero
      exact spent x member zero
  · obtain ⟨before,after,w,rfl,retired,longer,setup⟩ := retire_periodic chain shot
    refine ⟨{s with timers := w,phase := .loop diff},before ++ timer::after,?_,
      ⟨longer,fun x => ?_,?_,?_,by simp⟩,fun zero => absurd zero shot⟩
    · simp [retireStep,retired,shot]
    · have member : x ∈ before ++ timer::after ↔ x ∈ timer::(before ++ after) := by
        simp only [List.mem_append,List.mem_cons]
        tauto
      simp only [member]
      exact count x
    · intro x member stopped
      rw [(setup x).1,(setup x).2.2]
      refine mute x ?_ stopped
      simp only [List.mem_append,List.mem_cons] at member ⊢
      tauto
    · intro x member _ zero
      rw [(setup x).2.2] at zero
      have other : x ≠ timer := by
        rintro rfl
        exact shot zero
      refine spent x ?_ zero
      simp only [List.mem_append,List.mem_cons,other,false_or] at member ⊢
      exact member

theorem create_kept (kept : Kept s ts) {ms flags : Nat} {fn : Option Handle} {arg : Addr}
    (fresh : s.live timer = false) :
    ∃ t us, step (.create timer ms fn arg flags) s = some t ∧ Kept t us := by
  have out : timer ∉ ts := fun member => by
    rw [(kept.live_iff timer).mpr member] at fresh
    cases fresh
  obtain ⟨before,after,w,rfl,created,longer,own,others,head⟩ :=
    create_chain s.sysTick ms fn arg flags kept.chain out
  have member (x : Addr) : x ∈ before ++ timer::after ↔ x = timer ∨ x ∈ before ++ after := by
    simp only [List.mem_append,List.mem_cons]
    tauto
  refine ⟨({s with timers := w} : Machine Handle).make timer (bermudaTimerMillisToTicks ms),_,by simp [step,created],
    ⟨longer,fun x => ?_,?_,?_,?_⟩⟩
  · have old := kept.count x
    simp only [member]
    by_cases same : x = timer
    · subst same
      simp only [out,if_false,Nat.add_zero] at old
      simp [Machine.make,old]
    · simpa [Machine.make,same] using old
  · intro x inside stopped
    by_cases same : x = timer
    · simp [Machine.make,same] at stopped
    · have old : x ∈ before ++ after := ((member x).mp inside).resolve_left same
      rw [show (Machine.make _ timer _).timers = w from rfl,(others x same).1,(others x same).2.2]
      exact kept.mute x old (by simpa [Machine.make,same] using stopped)
  · intro x inside away zero stopped
    by_cases same : x = timer
    · simp [Machine.make,same]
    · have old : x ∈ before ++ after := ((member x).mp inside).resolve_left same
      rw [show (Machine.make _ timer _).timers = w from rfl,(others x same).2.2] at zero
      have none_fired := kept.spent x old away zero (by simpa [Machine.make,same] using stopped)
      simpa [Machine.make,same] using none_fired
  · intro x d phase
    obtain ⟨first,zero⟩ := kept.current x d phase
    exact head x (chain_head kept.chain ▸ first) zero

theorem stop_kept (kept : Kept s ts) (live : s.live timer = true) :
    ∃ t us, step (.stop timer) s = some t ∧ Kept t us ∧ (t.freed timer = s.freed timer + 1 ∨
      t.freed = s.freed ∧ (t.timers.node timer).handle = none ∧ (t.timers.node timer).ticks = 0) := by
  have inside : timer ∈ ts := (kept.live_iff timer).mp live
  obtain ⟨before,after,rfl⟩ := List.append_of_mem inside
  have nodup := kept.nodup
  obtain ⟨w,stopped,gone,elapsed,running⟩ := stop_chain kept.chain
  by_cases zero : s.timers.left timer = 0
  · obtain ⟨whole,same⟩ := elapsed zero
    have none_left : (s.timers.node timer).ticksLeft = 0 := zero
    refine ⟨{s with timers := w,stopped := Function.update s.stopped timer true},_,
      by simp [step,stopped,none_left],⟨whole,kept.count,?_,?_,?_⟩,.inr ⟨rfl,gone.own⟩⟩
    · intro x member mute
      by_cases own : x = timer
      · subst own
        exact gone.own
      · rw [(gone.others x own).1,(gone.others x own).2.2]
        exact kept.mute x member (by simpa [own] using mute)
    · intro x member away shot mute
      by_cases own : x = timer
      · simp [own] at mute
      · rw [(gone.others x own).2.2] at shot
        exact kept.spent x member away shot (by simpa [own] using mute)
    · intro x d phase
      obtain ⟨first,none_yet⟩ := kept.current x d phase
      refine ⟨?_,(same x).trans none_yet⟩
      exact (chain_head whole).trans ((chain_head kept.chain).symm.trans first)
  · obtain ⟨shorter,lefts⟩ := running zero
    have some_left : ¬(s.timers.node timer).ticksLeft = 0 := zero
    have fresh : timer ∉ before ++ after :=
      (List.nodup_cons.mp ((List.perm_middle.nodup_iff).mp nodup)).1
    have member {x : Addr} (late : x ∈ before ++ after) :
        x ≠ timer ∧ x ∈ before ++ timer::after := by
      refine ⟨fun same => fresh (same ▸ late),?_⟩
      simp only [List.mem_append,List.mem_cons] at late ⊢
      tauto
    refine ⟨({s with timers := w,stopped := Function.update s.stopped timer true} :
      Machine Handle).free timer,before ++ after,by simp [step,stopped,some_left],
      ⟨shorter,fun x => ?_,?_,?_,?_⟩,.inl (by simp [Machine.free])⟩
    · have old := kept.count x
      by_cases own : x = timer
      · subst own
        simp only [inside,if_true] at old
        simp [Machine.free,fresh,old]
      · have same : x ∈ before ++ timer::after ↔ x ∈ before ++ after := by
          simp [own]
        simpa [Machine.free,own,same] using old
    · intro x late mute
      obtain ⟨own,old⟩ := member late
      rw [show (Machine.free _ timer).timers = w from rfl,(gone.others x own).1,(gone.others x own).2.2]
      exact kept.mute x old (by simpa [Machine.free,own] using mute)
    · intro x late away shot mute
      obtain ⟨own,old⟩ := member late
      rw [show (Machine.free _ timer).timers = w from rfl,(gone.others x own).2.2] at shot
      exact kept.spent x old away shot (by simpa [Machine.free,own] using mute)
    · intro x d phase
      obtain ⟨first,none_yet⟩ := kept.current x d phase
      have own : x ≠ timer := by
        rintro rfl
        exact zero none_yet
      rw [chain_head kept.chain] at first
      cases before with
      | nil => exact absurd (Option.some.inj first).symm own
      | cons y before =>
        obtain rfl : y = x := Option.some.inj first
        refine ⟨shorter.1,?_⟩
        have away : after.head? ≠ some y := by
          intro next
          refine (List.nodup_cons.mp nodup).1 ?_
          simp [List.mem_of_head? next]
        exact (lefts y own).trans ((if_neg away).trans none_yet)

/-- A pass calls the handle of a listed timer that was not stopped, or none; an elapsed
head that has no handle and does not start again is freed. -/
theorem pass_kept (kept : Kept s ts) (phase : s.phase = .loop diff) :
    ∃ t us, passStep diff s = some t ∧ Kept t us ∧
      (∀ x d, t.phase = .handle x d → x ∈ ts ∧ s.stopped x = false) ∧
      ∀ x, s.timers.bermudaTimerList = some x → diff ≠ 0 → (s.timers.node x).ticksLeft ≤ diff →
        (s.timers.node x).handle = none → (s.timers.node x).ticks = 0 →
        t.freed x = s.freed x + 1 := by
  have away (x : Addr) (d : Nat) : s.phase ≠ .handle x d := by
    rw [phase]
    exact Phase.noConfusion
  have idle : Kept {s with phase := .idle} ts :=
    ⟨kept.chain,kept.count,kept.mute,fun x member _ => kept.spent x member (away x),by simp⟩
  unfold passStep
  cases ts with
  | nil =>
    have empty : s.timers.bermudaTimerList = none := kept.chain
    rw [empty]
    exact ⟨_,_,rfl,idle,by simp,by simp⟩
  | cons timer ts =>
    have head : s.timers.bermudaTimerList = some timer := kept.chain.1
    rw [head]
    dsimp only
    by_cases ended : diff = 0
    · rw [if_pos ended]
      exact ⟨_,_,rfl,idle,by simp,fun _ _ more => absurd ended more⟩
    · rw [if_neg ended]
      obtain ⟨chain,list,setup⟩ := distribute_chain timer diff kept.chain
      have elapsed := distribute_elapsed s.timers timer diff
      generalize distribute s.timers timer diff = result at chain list setup elapsed
      obtain ⟨v,left⟩ := result
      dsimp only at chain list setup elapsed ⊢
      rw [← list] at chain
      have mute (x : Addr) (member : x ∈ timer::ts) (stopped : s.stopped x = true) :
          (v.node x).handle = none ∧ (v.node x).ticks = 0 := by
        rw [(setup x).1,(setup x).2.2]
        exact kept.mute x member stopped
      by_cases zero : (v.node timer).ticksLeft = 0
      · rw [if_pos zero]
        cases handle : (v.node timer).handle with
        | some h =>
          refine ⟨_,timer::ts,rfl,⟨chain,kept.count,mute,?_,?_⟩,?_,?_⟩
          · intro x member other shot heard
            have own : x ≠ timer := fun same => other left (by rw [same])
            rw [(setup x).2.2] at shot
            simpa [own] using kept.spent x member (away x) shot heard
          · rintro x d same
            obtain ⟨rfl,_⟩ := Phase.handle.inj same
            exact ⟨list.trans head,zero⟩
          · rintro x d same
            obtain ⟨rfl,_⟩ := Phase.handle.inj same
            refine ⟨by simp,?_⟩
            by_contra stopped
            have none_there := (mute timer (by simp) (by simpa using stopped)).1
            rw [handle] at none_there
            cases none_there
          · intro x first _ _ none_there
            obtain rfl := Option.some.inj first
            rw [← (setup timer).1,handle] at none_there
            cases none_there
        | none =>
          obtain ⟨t,us,retired,result,freed⟩ :=
            retireStep_kept (s := {s with timers := v,phase := .loop left}) left
              chain kept.count mute fun x member shot heard => by
                rw [show (v.node x).ticks = _ from (setup x).2.2] at shot
                exact kept.spent x (by simp [member]) (away x) shot heard
          refine ⟨t,us,retired,result,?_,?_⟩
          · intro x d same
            unfold retireStep at retired
            cases done : retire v timer with
            | none => simp [done] at retired
            | some w =>
              simp only [done,bind,Option.bind] at retired
              obtain rfl := Option.some.inj retired
              split at same <;> simp [Machine.free] at same
          · intro x first _ _ _ shot
            obtain rfl := Option.some.inj first
            exact freed ((setup timer).2.2.trans shot)
      · rw [if_neg zero]
        refine ⟨_,timer::ts,rfl,⟨chain,kept.count,mute,?_,by simp⟩,by simp,?_⟩
        · intro x member _ shot heard
          rw [(setup x).2.2] at shot
          exact kept.spent x member (away x) shot heard
        · intro x first _ due
          obtain rfl := Option.some.inj first
          exact absurd (elapsed.mpr due) zero

theorem finish_kept (kept : Kept s ts) (phase : s.phase = .handle timer diff) :
    ∃ t us, step .finish s = some t ∧ Kept t us ∧
      ((s.timers.node timer).ticks = 0 → t.freed timer = s.freed timer + 1) := by
  obtain ⟨head,_⟩ := kept.current timer diff phase
  have first := (chain_head kept.chain).symm.trans head
  obtain ⟨rest,rfl⟩ := List.head?_eq_some_iff.mp first
  have fresh : timer ∉ rest := (List.nodup_cons.mp kept.nodup).1
  simp only [step,phase]
  refine retireStep_kept diff kept.chain kept.count kept.mute fun x member => ?_
  refine kept.spent x (by simp [member]) fun d same => ?_
  rw [phase] at same
  obtain ⟨rfl,_⟩ := Phase.handle.inj same
  exact fresh member

end Steps

section Allowed

variable {s : Machine Handle} {timer arg : Addr} {ms flags : Nat} {fn : Option Handle}

theorem create_fresh (allowed : (Action.create timer ms fn arg flags).allowed s) : s.live timer = false := by
  cases phase : s.phase <;> simp [Action.allowed,phase] at allowed <;> exact allowed

theorem stop_live (allowed : (Action.stop timer : Action Handle).allowed s) : s.live timer = true := by
  cases phase : s.phase <;> simp [Action.allowed,phase] at allowed <;> exact allowed.1

theorem process_idle (allowed : (Action.process : Action Handle).allowed s) : s.phase = .idle := by
  cases phase : s.phase <;> simp [Action.allowed,phase] at allowed ⊢

theorem pass_phase (allowed : (Action.pass : Action Handle).allowed s) : ∃ diff, s.phase = .loop diff := by
  cases phase : s.phase <;> simp [Action.allowed,phase] at allowed ⊢

theorem finish_phase (allowed : (Action.finish : Action Handle).allowed s) : ∃ timer diff, s.phase = .handle timer diff := by
  cases phase : s.phase <;> simp [Action.allowed,phase] at allowed ⊢

end Allowed

/-- Every action that is allowed returns, and leaves the list in order. -/
theorem step_kept {s : Machine Handle} {ts : List Addr} {a : Action Handle} (kept : Kept s ts)
    (allowed : a.allowed s) : ∃ t us, step a s = some t ∧ Kept t us := by
  cases a with
  | tick => exact ⟨_,ts,rfl,⟨kept.chain,kept.count,kept.mute,kept.spent,kept.current⟩⟩
  | create timer ms fn arg flags => exact create_kept kept (create_fresh allowed)
  | stop timer =>
    obtain ⟨t,us,run,result,_⟩ := stop_kept kept (stop_live allowed)
    exact ⟨t,us,run,result⟩
  | process =>
    have away (x : Addr) (d : Nat) : s.phase ≠ .handle x d := by
      rw [process_idle allowed]
      exact Phase.noConfusion
    exact ⟨_,ts,rfl,⟨kept.chain,kept.count,kept.mute,fun x member _ => kept.spent x member (away x),
      by simp⟩⟩
  | pass =>
    obtain ⟨diff,phase⟩ := pass_phase allowed
    obtain ⟨t,us,run,result,_⟩ := pass_kept kept phase
    exact ⟨t,us,by simpa [step,phase,Phase.remaining] using run,result⟩
  | finish =>
    obtain ⟨timer,diff,phase⟩ := finish_phase allowed
    obtain ⟨t,us,run,result,_⟩ := finish_kept kept phase
    exact ⟨t,us,run,result⟩

theorem run_kept {s t : Machine Handle} {ts : List Addr} {a : Action Handle} (kept : Kept s ts) (allowed : a.allowed s)
    (run : step a s = some t) : ∃ us, Kept t us := by
  obtain ⟨u,us,also,result⟩ := step_kept kept allowed
  rw [also] at run
  obtain rfl := Option.some.inj run
  exact ⟨us,result⟩

theorem runs_kept {may : Action Handle → Machine Handle → Prop} {s : Machine Handle}
    (reach : Runs may s) : ∃ ts, Kept s ts := by
  induction reach with
  | init empty _ idle unused =>
    refine ⟨[],empty,fun x => ?_,by simp,by simp,by simp [idle]⟩
    obtain ⟨made,freed⟩ := unused x
    simp [made,freed]
  | step _ allowed _ run ih =>
    obtain ⟨ts,kept⟩ := ih
    exact run_kept kept allowed run

/-- The life of the timers, in a state of a run: an object that was handed out is freed
once, when it leaves the list; a stopped timer is never called again; and one that
fires for the last time, or was stopped, is freed when the loop is done with it. -/
structure LifeCycle (s : Machine Handle) : Prop where
  returns : ∀ a : Action Handle, a.allowed s → ∃ t, step a s = some t
  listed : ∃ ts, Chain s.timers.next s.timers.bermudaTimerList ts ∧ ts.Nodup ∧
    ∀ x, s.made x = s.freed x + if x ∈ ts then 1 else 0
  called : ∀ t x diff, Action.pass.allowed s → step .pass s = some t → t.phase = .handle x diff →
    s.live x = true ∧ s.stopped x = false
  stops : ∀ t x, (Action.stop x).allowed s → step (.stop x) s = some t →
    t.freed x = s.freed x + 1 ∨ t.freed = s.freed ∧ t.stopped x = true ∧
      (t.timers.node x).handle = none ∧ (t.timers.node x).ticks = 0
  silent : ∀ x, s.live x = true → s.stopped x = true →
    (s.timers.node x).handle = none ∧ (s.timers.node x).ticks = 0
  consumed : ∀ t x diff, s.phase = .loop diff → diff ≠ 0 → s.timers.bermudaTimerList = some x →
    (s.timers.node x).ticksLeft ≤ diff → (s.timers.node x).handle = none →
    (s.timers.node x).ticks = 0 → step .pass s = some t → t.freed x = s.freed x + 1
  last : ∀ t x diff, s.phase = .handle x diff → (s.timers.node x).ticks = 0 →
    step .finish s = some t → t.freed x = s.freed x + 1
  spent : ∀ x, s.live x = true → (∀ diff, s.phase ≠ .handle x diff) →
    (s.timers.node x).ticks = 0 → s.stopped x = false → s.fired x = 0

/-- Whatever handles do, timers live as they should in every state of every run. -/
theorem life_cycle {s : Machine Handle} (reach : Runs (fun _ _ => True) s) : LifeCycle s := by
  obtain ⟨ts,kept⟩ := runs_kept reach
  refine ⟨fun a allowed => ?_,⟨ts,kept.chain,kept.nodup,kept.count⟩,?_,?_,?_,?_,?_,?_⟩
  · obtain ⟨t,_,run,_⟩ := step_kept kept allowed
    exact ⟨t,run⟩
  · intro t x diff allowed run phase
    obtain ⟨left,here⟩ := pass_phase allowed
    obtain ⟨u,_,also,_,called,_⟩ := pass_kept kept here
    rw [show step .pass s = some u by simpa [step,here,Phase.remaining] using also] at run
    obtain rfl := Option.some.inj run
    obtain ⟨member,heard⟩ := called x diff phase
    exact ⟨(kept.live_iff x).mpr member,heard⟩
  · intro t x allowed run
    obtain ⟨u,_,also,_,result⟩ := stop_kept kept (stop_live allowed)
    have stopped : u.stopped x = true := by
      cases stop : bermudaTimerStop s.timers x with
      | none => simp [step,stop] at also
      | some w =>
        simp only [step,stop,bind,Option.bind] at also
        obtain rfl := Option.some.inj also
        split <;> simp [Machine.free]
    rw [also] at run
    obtain rfl := Option.some.inj run
    exact result.imp id fun ⟨same,mute⟩ => ⟨same,stopped,mute⟩
  · intro x live
    exact kept.mute x ((kept.live_iff x).mp live)
  · intro t x diff phase more head due mute shot run
    obtain ⟨u,_,also,_,_,freed⟩ := pass_kept kept phase
    rw [show step .pass s = some u by simpa [step,phase,Phase.remaining] using also] at run
    obtain rfl := Option.some.inj run
    exact freed x head more due mute shot
  · intro t x diff phase shot run
    obtain ⟨u,_,also,_,freed⟩ := finish_kept kept phase
    rw [also] at run
    obtain rfl := Option.some.inj run
    exact freed shot
  · intro x live
    exact kept.spent x ((kept.live_iff x).mp live)

/-- The loop goes on, with handles that return at once. -/
def settle : Nat → Machine Handle → Machine Handle
  | 0,s => s
  | n+1,s =>
    match s.phase with
    | .idle => s
    | .loop _ => settle n ((step .pass s).getD s)
    | .handle _ _ => settle n ((step .finish s).getD s)

theorem retireStep_timers {s t : Machine Handle} {timer : Addr} {diff : Nat} {v : Timers Handle}
    (retired : retire s.timers timer = some v) (run : retireStep timer diff s = some t) :
    t.timers = v ∧ t.phase = .loop diff := by
  simp only [retireStep,retired,bind,Option.bind] at run
  obtain rfl := Option.some.inj run
  split <;> exact ⟨rfl,rfl⟩

/-- Where no handle creates or stops a timer, the loop is that of `bermudaTimerProcess`. -/
theorem processWalk_settles {σ : Type} {fire : Handle → Addr → Addr → σ → σ} {a b : σ}
    {fuel diff : Nat} {s : Machine Handle} {w : Timers Handle} (phase : s.phase = .loop diff)
    (walk : processWalk fire fuel diff s.timers a = some (w,b)) :
    ∃ n, (settle n s).timers = w ∧ (settle n s).phase = .idle := by
  induction fuel generalizing diff s a with
  | zero => cases walk
  | succ fuel ih =>
    have pass : step .pass s = passStep diff s := by simp [step,phase,Phase.remaining]
    cases head : s.timers.bermudaTimerList with
    | none =>
      simp only [processWalk,head] at walk
      obtain ⟨rfl,_⟩ := Prod.mk.inj (Option.some.inj walk)
      refine ⟨1,?_⟩
      simp [settle,phase,pass,passStep,head]
    | some timer =>
      by_cases ended : diff = 0
      · simp only [processWalk,head,if_pos ended] at walk
        obtain ⟨rfl,_⟩ := Prod.mk.inj (Option.some.inj walk)
        refine ⟨1,?_⟩
        simp [settle,phase,pass,passStep,head,ended]
      · simp only [processWalk,head,if_neg ended] at walk
        simp only [passStep,head,if_neg ended] at pass
        generalize distribute s.timers timer diff = result at walk pass
        obtain ⟨v,left⟩ := result
        dsimp only at walk pass
        by_cases zero : (v.node timer).ticksLeft = 0
        · simp only [if_pos zero,bind,Option.bind_eq_some_iff] at walk
          obtain ⟨u,retired,onward⟩ := walk
          rw [if_pos zero] at pass
          cases handle : (v.node timer).handle with
          | some h =>
            rw [handle] at pass
            dsimp only at pass
            obtain ⟨f,fires,here,there⟩ : ∃ f, step .pass s = some f ∧ f.phase = .handle timer left ∧
              f.timers = v := ⟨_,pass,rfl,rfl⟩
            obtain ⟨t,run⟩ : ∃ t, retireStep timer left f = some t := by
              simp [retireStep,there,retired]
            obtain ⟨timers,loop⟩ := retireStep_timers (there ▸ retired) run
            rw [← timers] at onward
            obtain ⟨n,rest⟩ := ih loop onward
            refine ⟨n+2,?_⟩
            have finish : step .finish f = some t := by simp [step,here,run]
            simpa [settle,phase,fires,here,finish] using rest
          | none =>
            rw [handle] at pass
            dsimp only at pass
            obtain ⟨t,run⟩ : ∃ t, retireStep timer left {s with timers := v,phase := .loop left} = some t := by
              simp [retireStep,retired]
            obtain ⟨timers,loop⟩ := retireStep_timers retired run
            rw [← timers] at onward
            obtain ⟨n,rest⟩ := ih loop onward
            refine ⟨n+1,?_⟩
            simpa [settle,phase,pass,run] using rest
        · rw [if_neg zero] at walk pass
          obtain ⟨n,rest⟩ := ih (s := {s with timers := v,phase := .loop left}) rfl walk
          refine ⟨n+1,?_⟩
          simpa [settle,phase,pass] using rest

section Script

variable (may : Action Handle → Machine Handle → Prop) [∀ a s, Decidable (may a s)]

/-- The actions that are possible, one after the other. -/
def perform : List (Action Handle) → Machine Handle → Machine Handle
  | [],s => s
  | a::as,s => perform as (if a.allowed s ∧ may a s then (step a s).getD s else s)

theorem perform_runs (as : List (Action Handle)) {s : Machine Handle} (reach : Runs may s) :
    Runs may (perform may as s) := by
  induction as generalizing s with
  | nil => exact reach
  | cons a as ih =>
    apply ih
    split
    · next possible =>
      cases run : step a s with
      | none => exact reach
      | some t => exact reach.step possible.1 possible.2 run
    · exact reach

end Script

def noTimers : Machine Unit :=
  ⟨⟨fun _ => ⟨none,none,0,0,0⟩,none,0⟩,0,.idle,fun _ => 0,fun _ => 0,fun _ => false,fun _ => 0,
    fun _ => 0⟩

/-- A periodic timer is stopped by its own handle. -/
def selfStopped : Machine Unit :=
  perform (fun _ _ => True) [.create 7 1 (some ()) 0 bermudaPeriodic,.tick,.process,.pass,.stop 7,
    .finish] noTimers

theorem life_cycle_selfStopped : LifeCycle selfStopped ∧ selfStopped.fired 7 = 1 ∧
    selfStopped.freed 7 = 1 ∧ selfStopped.timers.bermudaTimerList = none := by
  have reach : Runs (fun _ _ => True) selfStopped :=
    perform_runs _ _ (.init rfl ⟨rfl,rfl⟩ rfl fun _ => ⟨rfl,rfl⟩)
  exact ⟨life_cycle reach,by decide +kernel,by decide +kernel,by decide +kernel⟩

end BermudaOS.Sys.VirtTimer
