import BermudaOS.Sys.VirtTimerProcess

/-! Runs of the timer module. The system tick only grows; timers are created with
objects the heap hands out, stopped while they are listed, and processed at any
tick. Expiries are read from memory as the counts up to a timer, added up. -/
namespace BermudaOS.Sys.VirtTimer
open Lib.Chains Lib.Gaps Timers

variable {Handle : Type}

/-- The last processed tick plus the counts from the list head up to the timer. -/
def Expiry (v : Timers Handle) (timer : Addr) (expiry : Nat) : Prop :=
  ∃ before after, Chain v.next v.bermudaTimerList (before ++ timer::after) ∧
    expiry = v.lastSysTick + ((before ++ [timer]).map v.left).sum

def InList (v : Timers Handle) (timer : Addr) : Prop := ∃ expiry, Expiry v timer expiry

/-- No sum that firing up to tick `now` forms leaves 32 bits. -/
def SumsFit (v : Timers Handle) (now : Nat) : Prop := ∀ timer expiry, Expiry v timer expiry →
  ∀ n, expiry + n * (v.node timer).ticks ≤ now → expiry + (n+1) * (v.node timer).ticks < 2^32

structure State (Handle : Type) where
  timers : Timers Handle
  sysTick : Nat

inductive Step : State Handle → State Handle → Prop
  | tick {s : State Handle} {now : Nat} (later : s.sysTick ≤ now) (small : now < 2^32) :
      Step s {s with sysTick := now}
  | create {s : State Handle} {w : Timers Handle} {timer arg : Addr} {ms flags : Nat}
      {fn : Option Handle} (fresh : ¬InList s.timers timer)
      (small : s.sysTick + bermudaTimerMillisToTicks ms < 2^32)
      (run : bermudaTimerCreate s.timers timer s.sysTick ms fn arg flags = some w) :
      Step s {s with timers := w}
  | stop {s : State Handle} {w : Timers Handle} {timer : Addr} (listed : InList s.timers timer)
      (run : bermudaTimerStop s.timers timer = some w) : Step s {s with timers := w}
  | process {s : State Handle} {w : Timers Handle} {σ : Type}
      {fire : Handle → Addr → Addr → σ → σ} {a b : σ} (fits : SumsFit s.timers s.sysTick)
      (run : bermudaTimerProcess fire s.sysTick s.timers a = some (w,b)) :
      Step s {s with timers := w}

inductive Reachable : State Handle → Prop
  | init {v : Timers Handle} (empty : v.bermudaTimerList = none) (start : v.lastSysTick = 0) :
      Reachable ⟨v,0⟩
  | step {s t : State Handle} (reach : Reachable s) (step : Step s t) : Reachable t

theorem Spaced.expiry_iff {v : Timers Handle} {es : List (Addr × Nat)}
    (spaced : Spaced v v.lastSysTick es) (timer : Addr) (expiry : Nat) :
    Expiry v timer expiry ↔ (timer,expiry) ∈ es := by
  constructor
  · intro ⟨before,after,chain,sum⟩
    have names := chain_unique spaced.chain chain
    obtain ⟨first,rest,rfl,low,high⟩ := List.map_eq_append_iff.mp names
    obtain ⟨e,last,rfl,name,_⟩ := List.map_eq_cons_iff.mp high
    have key : e.2 = _ := encodes_sum (x := e.1) spaced.encodes
    rw [low,name,← sum] at key
    rw [← name,← key]
    simp
  · intro member
    obtain ⟨before,after,rfl⟩ := List.append_of_mem member
    refine ⟨before.map Prod.fst,after.map Prod.fst,?_,encodes_sum spaced.encodes⟩
    simpa using spaced.chain

theorem Listed.expiry_iff {v : Timers Handle} {es : List (Addr × Nat)}
    (listed : Listed v v.lastSysTick es) (timer : Addr) (expiry : Nat) :
    Expiry v timer expiry ↔ (timer,expiry) ∈ es := listed.spaced.expiry_iff timer expiry

theorem Listed.inList_iff {v : Timers Handle} {es : List (Addr × Nat)}
    (listed : Listed v v.lastSysTick es) (timer : Addr) :
    InList v timer ↔ timer ∈ es.map Prod.fst := by
  simp [InList,listed.expiry_iff]

theorem Listed.noWrap {v : Timers Handle} {es : List (Addr × Nat)} {now : Nat}
    (listed : Listed v v.lastSysTick es) (fits : SumsFit v now) : NoWrap v now es :=
  fun e member => fits e.1 e.2 ((listed.expiry_iff e.1 e.2).mpr member)

theorem Listed.split {v : Timers Handle} {es : List (Addr × Nat)} {timer : Addr}
    (listed : Listed v v.lastSysTick es) (inList : InList v timer) :
    ∃ before key after, es = before ++ (timer,key)::after := by
  obtain ⟨e,member,rfl⟩ := List.mem_map.mp ((listed.inList_iff timer).mp inList)
  obtain ⟨before,after,rfl⟩ := List.append_of_mem member
  exact ⟨before,e.2,after,rfl⟩

/-- In every state of a run the list in memory is a list of expiries. -/
theorem reachable_listed {s : State Handle} (reach : Reachable s) :
    (∃ es, Listed s.timers s.timers.lastSysTick es) ∧
      s.timers.lastSysTick ≤ s.sysTick ∧ s.sysTick < 2^32 := by
  induction reach with
  | @init v empty start =>
    refine ⟨⟨[],empty,trivial,by simp⟩,?_,?_⟩
    · exact le_of_eq start
    · exact Nat.two_pow_pos 32
  | @step s t reach step ih =>
    obtain ⟨⟨es,listed⟩,later,small⟩ := ih
    cases step with
    | tick further bound => exact ⟨⟨es,listed⟩,le_trans later further,bound⟩
    | @create w timer arg ms flags fn fresh bound run =>
      rw [listed.inList_iff] at fresh
      obtain ⟨u,created,result,tick,_⟩ := create_listed fn arg flags listed fresh
        later bound
      rw [created] at run
      cases run
      exact ⟨⟨_,tick ▸ result⟩,tick ▸ later,small⟩
    | @stop w timer inList run =>
      obtain ⟨before,key,after,rfl⟩ := listed.split inList
      obtain ⟨u,stopped,result,tick,_⟩ := stop_listed listed
      rw [stopped] at run
      cases run
      exact ⟨⟨_,tick ▸ result⟩,tick ▸ later,small⟩
    | @process w σ fire a b fits run =>
      obtain ⟨u,fs,log,processed,result,_,tick,_⟩ :=
        process_listed fire a listed later small (listed.noWrap fits)
      rw [processed] at run
      cases run
      exact ⟨⟨fs,by rw [tick]; exact result⟩,le_of_eq tick,small⟩

/-- `BermudaTimerCreate` sets one expiry and moves none. -/
def CreateKeeps (s : State Handle) : Prop :=
  ∀ (timer : Addr) (ms : Nat) (fn : Option Handle) (arg : Addr) (flags : Nat),
    ¬InList s.timers timer → s.sysTick + bermudaTimerMillisToTicks ms < 2^32 →
    ∃ w, bermudaTimerCreate s.timers timer s.sysTick ms fn arg flags = some w ∧
      Expiry w timer (s.sysTick + bermudaTimerMillisToTicks ms) ∧
      ∀ x, x ≠ timer → ∀ e, Expiry w x e ↔ Expiry s.timers x e

/-- `BermudaTimerStop` moves no other expiry. -/
def StopKeeps (s : State Handle) : Prop :=
  ∀ timer, InList s.timers timer → ∃ w, bermudaTimerStop s.timers timer = some w ∧
    ∀ x, x ≠ timer → ∀ e, Expiry w x e ↔ Expiry s.timers x e

/-- `BermudaTimerProcess` calls the handles of the timers in `log`, in that order. A
timer that is not in it keeps its expiry, a periodic one moves by its period each
time it is in it, a one-shot timer leaves the list, and nothing fires too early. -/
def ProcessKeeps (s : State Handle) : Prop :=
  ∀ {σ : Type} (fire : Handle → Addr → Addr → σ → σ) (a : σ), SumsFit s.timers s.sysTick →
    ∃ (w : Timers Handle) (log : List Addr), bermudaTimerProcess fire s.sysTick s.timers a =
        some (w,log.foldl (call fire s.timers) a) ∧
      (∀ x, InList w x ∨ x ∈ log → InList s.timers x) ∧
      ∀ x e, Expiry s.timers x e →
        (x ∉ log → Expiry w x e) ∧
        ((s.timers.node x).ticks ≠ 0 →
          Expiry w x (e + log.count x * (s.timers.node x).ticks)) ∧
        ((s.timers.node x).ticks = 0 → x ∈ log → log.count x = 1 ∧ ¬InList w x) ∧
        ∀ n < log.count x, e + n * (s.timers.node x).ticks ≤ s.sysTick

theorem create_keeps {s : State Handle} (reach : Reachable s) : CreateKeeps s := by
  obtain ⟨⟨es,listed⟩,later,_⟩ := reachable_listed reach
  intro timer ms fn arg flags fresh small
  rw [listed.inList_iff] at fresh
  obtain ⟨w,run,result,tick,_⟩ := create_listed fn arg flags listed fresh later small
  rw [← tick] at result
  have perm := insertKey_perm (timer,s.sysTick + bermudaTimerMillisToTicks ms) es
  refine ⟨w,run,(result.expiry_iff _ _).mpr (perm.mem_iff.mpr (by simp)),?_⟩
  intro x other e
  rw [result.expiry_iff,listed.expiry_iff,perm.mem_iff]
  simp [other]

theorem stop_keeps {s : State Handle} (reach : Reachable s) : StopKeeps s := by
  obtain ⟨⟨es,listed⟩,_,_⟩ := reachable_listed reach
  intro timer inList
  obtain ⟨before,key,after,rfl⟩ := listed.split inList
  obtain ⟨w,run,result,tick,_⟩ := stop_listed listed
  rw [← tick] at result
  refine ⟨w,run,fun x other e => ?_⟩
  rw [result.expiry_iff,listed.expiry_iff]
  split <;> simp [other]

theorem process_keeps {s : State Handle} (reach : Reachable s) : ProcessKeeps s := by
  obtain ⟨⟨es,listed⟩,later,small⟩ := reachable_listed reach
  intro σ fire a fits
  obtain ⟨w,fs,log,run,result,elapsed,tick,_⟩ :=
    process_listed fire a listed later small (listed.noWrap fits)
  rw [← tick] at result
  refine ⟨w,log,run,?_,?_⟩
  · intro x present
    rw [listed.inList_iff]
    by_contra absent
    obtain ⟨never,gone⟩ := elapsed.outside x absent
    rcases present with inList | member
    · exact gone ((result.inList_iff x).mp inList)
    · exact (List.count_pos_iff.mpr member).ne' never
  · intro x e expiry
    have member := (listed.expiry_iff x e).mp expiry
    refine ⟨?_,?_,?_,elapsed.due _ member⟩
    · intro absent
      have never : log.count x = 0 := List.count_eq_zero.mpr absent
      rw [result.expiry_iff]
      by_cases shot : (s.timers.node x).ticks = 0
      · rcases elapsed.oneShot _ member shot with kept | fired
        · exact kept.2
        · exact absurd (never.symm.trans fired.1) (by decide)
      · have moved := elapsed.periodic _ member shot
        simpa [never] using moved
    · intro period
      exact (result.expiry_iff _ _).mpr (elapsed.periodic _ member period)
    · intro shot fired
      rcases elapsed.oneShot _ member shot with kept | gone
      · exact absurd kept.1 (List.count_pos_iff.mpr fired).ne'
      · exact ⟨gone.1,fun inList => gone.2.2 ((result.inList_iff x).mp inList)⟩

/-- Expiries are absolute in every state of every run. -/
theorem expiries_kept {s : State Handle} (reach : Reachable s) :
    CreateKeeps s ∧ StopKeeps s ∧ ProcessKeeps s :=
  ⟨create_keeps reach,stop_keeps reach,process_keeps reach⟩

/-- No timer at the first tick. -/
def idle : State Unit := ⟨⟨fun _ => ⟨none,none,0,0,0⟩,none,0⟩,0⟩

theorem expiries_kept_periodic : ∃ s : State Unit, InList s.timers 7 ∧
    CreateKeeps s ∧ StopKeeps s ∧ ProcessKeeps s := by
  have start : Reachable idle := .init rfl rfl
  have empty : ¬InList idle.timers 7 := by
    rintro ⟨e,before,after,chain,_⟩
    have head := chain_head chain
    cases before <;> cases head
  obtain ⟨w,run,expiry,_⟩ :=
    create_keeps start 7 250 (some ()) 0 bermudaPeriodic empty (by decide)
  have created : Reachable ⟨w,0⟩ := start.step (.create empty (by decide) run)
  exact ⟨⟨w,0⟩,⟨_,expiry⟩,expiries_kept created⟩

end BermudaOS.Sys.VirtTimer
