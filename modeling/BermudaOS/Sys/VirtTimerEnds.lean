import BermudaOS.Sys.VirtTimerCallbacks
import BermudaOS.Sys.VirtTimerDue

/-! The loop of `BermudaTimerProcess` ends, whatever timers its handles stop. A pass that fires takes a
tick of that timer away for good, and the list gets no longer. Stopping a timer may bring others
forward, where the sum of two counts leaves 32 bits, but then the list gets shorter. -/
namespace BermudaOS.Sys.VirtTimer
open Lib.Chains Lib.Gaps Lib.Agenda Timers

variable {Handle : Type} {v : Timers Handle} {s t : Machine Handle} {ts : List Addr} {es : List (Addr × Nat)}
  {timer : Addr} {base key diff n m : Nat}

/-- The passes of the loop and the ends of handles are counted. Between them the tick goes on, and
handles stop timers. -/
inductive Processing : Nat → Machine Handle → Machine Handle → Prop
  | start (s : Machine Handle) : Processing 0 s s
  | tick {n : Nat} {s t u : Machine Handle} (before : Processing n s t) (run : step .tick t = some u) :
      Processing n s u
  | stop {n : Nat} {s t u : Machine Handle} (timer : Addr) (before : Processing n s t)
      (allowed : (Action.stop timer).allowed t) (run : step (.stop timer) t = some u) : Processing n s u
  | pass {n : Nat} {s t u : Machine Handle} (before : Processing n s t) (allowed : Action.pass.allowed t)
      (run : step .pass t = some u) : Processing (n + 1) s u
  | finish {n : Nat} {s t u : Machine Handle} (before : Processing n s t) (allowed : Action.finish.allowed t)
      (run : step .finish t = some u) : Processing (n + 1) s u

/-- How far a pass is from the end of the loop, where no timer fires. -/
def Phase.rank : Phase → Nat
  | idle => 0
  | loop diff => if diff = 0 then 1 else 3
  | handle _ _ => 2

/-- The work that is left in the loop. -/
def work (es : List (Addr × Nat)) (now : Nat) (phase : Phase) : Nat :=
  es.length * 2^51 + 4 * pending now es + phase.rank

/-- At most `n` passes and ends of handles are left. -/
structure Remains (s : Machine Handle) (base : Nat) (es : List (Addr × Nat)) (n : Nat) : Prop where
  spaced : Spaced s.timers base es
  periods : ∀ e ∈ es, s.timers.period e.1 < 2^32
  room : s.phase.remaining < 2^32
  enough : work es (base + s.phase.remaining) s.phase ≤ n

theorem Phase.rank_le (phase : Phase) : phase.rank ≤ 3 := by
  cases phase with
  | idle => exact Nat.zero_le 3
  | loop diff =>
    dsimp only [rank]
    split <;> omega
  | handle timer diff => exact Nat.le_succ 2

theorem afterFire_length (v : Timers Handle) (timer : Addr) (key : Nat) (es : List (Addr × Nat)) :
    (afterFire v timer key es).length ≤ es.length + 1 := by
  unfold afterFire
  split
  · exact Nat.le_succ _
  · exact le_of_eq (insertKey_perm _ es).length_eq

theorem retireStep_remains (spaced : Spaced s.timers key ((timer,key)::es))
    (periods : ∀ e ∈ (timer,key)::es, s.timers.period e.1 < 2^32) (small : diff < 2^32)
    (run : retireStep timer diff s = some t) : ∃ fs m, Remains t key fs m ∧
      m < es.length * 2^51 + 2^51 + 4 * pending (key + diff) ((timer,key)::es) := by
  obtain ⟨first,rest⟩ := List.forall_mem_cons.mp periods
  obtain ⟨w,retired,result,-,setup⟩ := retire_spaced spaced first
  obtain ⟨timers,phase⟩ := retireStep_timers retired run
  have length := afterFire_length s.timers timer key es
  have fewer : pending (key + diff) (afterFire s.timers timer key es) < pending (key + diff) ((timer,key)::es) :=
    afterFire_pending (Nat.le_add_right key diff)
  refine ⟨_,_,⟨timers ▸ result,fun e member => ?_,by rw [phase]; exact small,le_rfl⟩,?_⟩
  · rw [timers,show w.period e.1 = s.timers.period e.1 from (setup e.1).2.2]
    rcases mem_afterFire.mp member with other | ⟨_,rfl⟩
    · exact rest e other
    · exact first
  · have rank := t.phase.rank_le
    unfold work
    rw [phase] at rank ⊢
    simp only [Phase.remaining]
    omega

theorem pass_remains (remains : Remains s base es n) (phase : s.phase = .loop diff)
    (run : passStep diff s = some t) : ∃ key fs m, Remains t key fs m ∧ m < n := by
  obtain ⟨spaced,periods,room,enough⟩ := remains
  rw [phase] at room enough
  simp only [Phase.remaining] at room enough
  have ranked : (Phase.loop diff).rank = if diff = 0 then 1 else 3 := rfl
  unfold work at enough
  rw [ranked] at enough
  -- the loop is left
  have ended (run : t = {s with phase := .idle}) : ∃ key fs m, Remains t key fs m ∧ m < n := by
    subst run
    refine ⟨base,es,_,⟨spaced,periods,Nat.two_pow_pos 32,le_rfl⟩,?_⟩
    have fewer : pending base es ≤ pending (base + diff) es :=
      List.sum_le_sum fun e _ => Nat.sub_le_sub_right (by omega) _
    have rank : Phase.idle.rank = 0 := rfl
    simp only [work,Phase.remaining,Nat.add_zero,rank]
    split at enough <;> omega
  unfold passStep at run
  cases es with
  | nil =>
    have empty : s.timers.bermudaTimerList = none := spaced.chain
    rw [empty] at run
    exact ended (Option.some.inj run).symm
  | cons e es =>
    obtain ⟨timer,key⟩ := e
    have head : s.timers.bermudaTimerList = some timer := spaced.chain.1
    rw [head] at run
    dsimp only at run
    by_cases spent : diff = 0
    · rw [if_pos spent] at run
      exact ended (Option.some.inj run).symm
    rw [if_neg spent] at run enough
    obtain ⟨w,split,moved,-,setup⟩ := distribute_spaced spaced (Nat.le_add_right base diff)
    rw [Nat.add_sub_cancel_left] at split
    rw [split] at run
    have own := moved.encodes.1
    unfold Timers.left at own
    have periods : ∀ e ∈ (timer,key)::es, w.period e.1 < 2^32 := fun e member => by
      rw [show w.period e.1 = s.timers.period e.1 from (setup e.1).2.2]
      exact periods e member
    by_cases due : key ≤ base + diff
    · rw [Nat.min_eq_left due] at moved own run
      have whole : key + (base + diff - key) = base + diff := by omega
      have zero : (w.node timer).ticksLeft = 0 := by omega
      have low := encodes_base spaced.encodes (timer,key) (by simp)
      dsimp only at run low
      rw [if_pos zero] at run
      cases handle : (w.node timer).handle with
      | some h =>
        rw [handle] at run
        obtain rfl := Option.some.inj run
        refine ⟨key,_,_,⟨moved,periods,by simp only [Phase.remaining]; omega,le_rfl⟩,?_⟩
        have rank : (Phase.handle timer (base + diff - key)).rank = 2 := rfl
        simp only [work,Phase.remaining,whole,rank]
        omega
      | none =>
        rw [handle] at run
        obtain ⟨fs,m,left,less⟩ := retireStep_remains (s := {s with timers := w,phase := .loop (base + diff - key)})
          moved periods (by omega) run
        rw [whole] at less
        refine ⟨key,fs,m,left,?_⟩
        rw [List.length_cons] at enough
        omega
    · rw [Nat.min_eq_right (by omega)] at moved own run
      have running : (w.node timer).ticksLeft ≠ 0 := by omega
      rw [Nat.sub_self] at run
      dsimp only at run
      rw [if_neg running] at run
      obtain rfl := Option.some.inj run
      refine ⟨base + diff,_,_,⟨moved,periods,Nat.two_pow_pos 32,le_rfl⟩,?_⟩
      have rank : (Phase.loop 0).rank = 1 := rfl
      simp only [work,Phase.remaining,Nat.add_zero,rank]
      omega

theorem finish_remains (kept : Kept s ts) (remains : Remains s base es n) (phase : s.phase = .handle timer diff)
    (run : step .finish s = some t) : ∃ key fs m, Remains t key fs m ∧ m < n := by
  obtain ⟨spaced,periods,room,enough⟩ := remains
  obtain ⟨head,zero⟩ := kept.current timer diff phase
  rw [phase] at room enough
  simp only [Phase.remaining] at room enough
  cases es with
  | nil =>
    have empty : s.timers.bermudaTimerList = none := spaced.chain
    rw [empty] at head
    cases head
  | cons e es =>
    obtain ⟨x,key⟩ := e
    obtain rfl : x = timer := Option.some.inj (spaced.chain.1.symm.trans head)
    obtain rfl : base = key := by
      have own := spaced.encodes.1
      omega
    simp only [step,phase] at run
    obtain ⟨fs,m,left,less⟩ := retireStep_remains spaced periods room run
    refine ⟨base,fs,m,left,?_⟩
    unfold work at enough
    rw [List.length_cons] at enough
    omega

theorem stopStep_timers {w : Timers Handle} (stopped : bermudaTimerStop s.timers timer = some w)
    (run : step (.stop timer) s = some t) : t.timers = w ∧ t.phase = s.phase := by
  simp only [step,stopped,bind,Option.bind] at run
  obtain rfl := Option.some.inj run
  split <;> exact ⟨rfl,rfl⟩

theorem stop_remains (remains : Remains s base es n) (inside : timer ∈ es.map Prod.fst)
    (run : step (.stop timer) s = some t) : ∃ fs, Remains t base fs n := by
  obtain ⟨spaced,periods,room,enough⟩ := remains
  obtain ⟨before,after,names⟩ := List.append_of_mem inside
  have chain := spaced.chain
  rw [names] at chain
  obtain ⟨w,stopped,gone,elapsed,running⟩ := stop_chain chain
  obtain ⟨rfl,phase⟩ := stopStep_timers stopped run
  have period {e : Addr × Nat} (member : e ∈ es) : t.timers.period e.1 < 2^32 := by
    by_cases own : e.1 = timer
    · rw [own,show t.timers.period timer = 0 from gone.own.2]
      exact Nat.two_pow_pos 32
    · rw [show t.timers.period e.1 = s.timers.period e.1 from (gone.others e.1 own).2.2]
      exact periods e member
  by_cases zero : s.timers.left timer = 0
  · obtain ⟨whole,same⟩ := elapsed zero
    refine ⟨es,⟨names ▸ whole,encodes_congr spaced.encodes fun e _ => same e.1,fun e member => ?_⟩,
      fun e member => period member,phase ▸ room,phase ▸ enough⟩
    rw [same]
    exact spaced.words e member
  · obtain ⟨shorter,lefts⟩ := running zero
    obtain ⟨fs,same,encodes⟩ := encodes_exists t.timers.left base (before ++ after)
    have fresh : timer ∉ before ++ after :=
      (List.nodup_cons.mp ((List.perm_middle.nodup_iff).mp (chain_nodup chain))).1
    have old (f : Addr × Nat) (member : f ∈ fs) : f.1 ≠ timer ∧ ∃ e ∈ es, e.1 = f.1 := by
      have name : f.1 ∈ before ++ after := same ▸ List.mem_map_of_mem member
      refine ⟨fun own => fresh (own ▸ name),?_⟩
      have listed : f.1 ∈ es.map Prod.fst := by
        rw [names]
        simp only [List.mem_append,List.mem_cons] at name ⊢
        tauto
      simpa using listed
    have words : ∀ f ∈ fs, t.timers.left f.1 < 2^32 := by
      intro f member
      obtain ⟨own,e,listed,equal⟩ := old f member
      rw [lefts f.1 own]
      split
      · exact Nat.mod_lt _ (Nat.two_pow_pos 32)
      · exact equal ▸ spaced.words e listed
    have result : Spaced t.timers base fs := ⟨same ▸ shorter,encodes,words⟩
    refine ⟨fs,result,fun f member => ?_,phase ▸ room,?_⟩
    · obtain ⟨-,e,listed,equal⟩ := old f member
      exact equal ▸ period listed
    · -- whatever the counts are now, there is one timer less
      have length : fs.length + 1 = es.length := by
        have short := congrArg List.length same
        have long := congrArg List.length names
        simp only [List.length_map,List.length_append,List.length_cons] at short long
        omega
      have bound : pending (base + s.phase.remaining) fs ≤ 2^48 := pending_le result (by omega)
      unfold work at enough ⊢
      rw [← length,Nat.succ_mul] at enough
      rw [phase]
      generalize fs.length * 2^51 = lower at enough ⊢
      clear length
      omega

theorem Processing.remains (processing : Processing n s t) (kept : Kept s ts) (start : Remains s base es m) :
    ∃ us key fs left, Kept t us ∧ Remains t key fs left ∧ n + left ≤ m := by
  induction processing with
  | start s => exact ⟨ts,base,es,m,kept,start,by omega⟩
  | tick before run ih =>
    obtain ⟨us,key,fs,left,kept,remains,sum⟩ := ih kept start
    obtain ⟨vs,result⟩ := run_kept kept rfl run
    obtain rfl := Option.some.inj run
    exact ⟨vs,key,fs,left,result,⟨remains.spaced,remains.periods,remains.room,remains.enough⟩,sum⟩
  | stop timer before allowed run ih =>
    obtain ⟨us,key,fs,left,kept,remains,sum⟩ := ih kept start
    obtain ⟨vs,result⟩ := run_kept kept allowed run
    have live := (kept.live_iff timer).mp (stop_live allowed)
    rw [chain_unique kept.chain remains.spaced.chain] at live
    obtain ⟨gs,less⟩ := stop_remains remains live run
    exact ⟨vs,key,gs,left,result,less,sum⟩
  | @pass n s t u before allowed run ih =>
    obtain ⟨us,key,fs,left,kept,remains,sum⟩ := ih kept start
    obtain ⟨vs,result⟩ := run_kept kept allowed run
    obtain ⟨diff,phase⟩ := pass_phase allowed
    rw [step,phase] at run
    obtain ⟨low,gs,less,after,fewer⟩ := pass_remains remains phase run
    exact ⟨vs,low,gs,less,result,after,by omega⟩
  | @finish n s t u before allowed run ih =>
    obtain ⟨us,key,fs,left,kept,remains,sum⟩ := ih kept start
    obtain ⟨vs,result⟩ := run_kept kept allowed run
    obtain ⟨timer,diff,phase⟩ := finish_phase allowed
    obtain ⟨low,gs,less,after,fewer⟩ := finish_remains kept remains phase run
    exact ⟨vs,low,gs,less,result,after,by omega⟩

/-- The machine with these timers in use, and no others. -/
def holding (v : Timers Handle) (ts : List Addr) (now : Nat) : Machine Handle :=
  ⟨v,now,.idle,fun x => if x ∈ ts then 1 else 0,fun _ => 0,fun _ => false,fun _ => 0,fun _ => 0⟩

theorem holding_kept (proper : Proper v ts) (now : Nat) : Kept (holding v ts now) ts :=
  ⟨proper.chain,fun _ => (Nat.zero_add _).symm,nofun,fun _ _ _ _ _ => rfl,nofun⟩

/-- A call of `BermudaTimerProcess` with handles that create no timers comes to its end: there is a
limit to its passes, and until it is left the next one returns. -/
theorem process_ends (proper : Proper v ts) (now : Nat) : ∃ limit s, step .process (holding v ts now) = some s ∧
    ∀ n t, Processing n s t → n ≤ limit ∧
      (t.phase ≠ .idle → ∃ a : Action Handle, (a = .pass ∨ a = .finish) ∧ a.allowed t ∧ ∃ u, step a t = some u) := by
  obtain ⟨es,rfl,spaced⟩ := proper.spaced v.lastSysTick
  have kept := holding_kept proper now
  obtain ⟨s,us,run,result⟩ := step_kept kept (show Action.process.allowed (holding v _ now) from rfl)
  have start : Remains s v.lastSysTick es (work es (v.lastSysTick + s.phase.remaining) s.phase) := by
    obtain rfl := Option.some.inj run
    exact ⟨⟨spaced.chain,spaced.encodes,spaced.words⟩,
      fun e member => (proper.words e.1 (List.mem_map_of_mem member)).2,Nat.mod_lt _ (Nat.two_pow_pos 32),le_rfl⟩
  refine ⟨work es (v.lastSysTick + s.phase.remaining) s.phase,s,run,fun n t processing => ?_⟩
  obtain ⟨vs,key,fs,left,kept,remains,sum⟩ := processing.remains result start
  refine ⟨by omega,fun busy => ?_⟩
  have returns {a : Action Handle} (allowed : a.allowed t) : ∃ u, step a t = some u := by
    obtain ⟨u,_,run,_⟩ := step_kept kept allowed
    exact ⟨u,run⟩
  cases phase : t.phase with
  | idle => exact absurd phase busy
  | loop diff =>
    have allowed : Action.pass.allowed t := by simp [Action.allowed,phase]
    exact ⟨.pass,.inl rfl,allowed,returns allowed⟩
  | handle timer diff =>
    have allowed : Action.finish.allowed t := by simp [Action.allowed,phase]
    exact ⟨.finish,.inr rfl,allowed,returns allowed⟩

theorem process_ends_apart : ∃ limit s, step .process (holding apart [1,2] 10) = some s ∧
    ∀ n t, Processing n s t → n ≤ limit ∧
      (t.phase ≠ .idle → ∃ a : Action Unit, (a = .pass ∨ a = .finish) ∧ a.allowed t ∧ ∃ u, step a t = some u) :=
  process_ends apart_proper 10

end BermudaOS.Sys.VirtTimer
