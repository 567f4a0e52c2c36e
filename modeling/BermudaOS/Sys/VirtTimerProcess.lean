import Mathlib.Algebra.Order.BigOperators.Group.List
import Mathlib.Tactic.NormNum
import BermudaOS.Lib.Agenda
import BermudaOS.Sys.VirtTimerList

/-! `BermudaTimerProcess` over the list of expiries. Every pass fires the earliest
timer and moves the base to its expiry, until the base has caught up with the
tick; a periodic timer goes back in one period after the expiry that fired it. -/
namespace BermudaOS.Sys.VirtTimer
open Lib.Chains Lib.Gaps Lib.Agenda Timers

variable {Handle : Type}

def Timers.period (v : Timers Handle) (timer : Addr) : Nat := (v.node timer).ticks

/-- No expiry that firing up to tick `now` can set wraps. -/
def NoWrap (v : Timers Handle) (now : Nat) (es : List (Addr × Nat)) : Prop :=
  ∀ e ∈ es, ∀ n, e.2 + n * (v.node e.1).ticks ≤ now → e.2 + (n+1) * (v.node e.1).ticks < 2^32

/-- How the expiries follow from the list of the timers that elapsed, in order. -/
structure Elapsed (v : Timers Handle) (now : Nat) (log : List Addr) (es fs : List (Addr × Nat)) :
    Prop where
  outside : ∀ x, x ∉ es.map Prod.fst → log.count x = 0 ∧ x ∉ fs.map Prod.fst
  oneShot : ∀ e ∈ es, (v.node e.1).ticks = 0 →
    log.count e.1 = 0 ∧ e ∈ fs ∨ log.count e.1 = 1 ∧ e.2 ≤ now ∧ e.1 ∉ fs.map Prod.fst
  periodic : ∀ e ∈ es, (v.node e.1).ticks ≠ 0 →
    (e.1,e.2 + log.count e.1 * (v.node e.1).ticks) ∈ fs
  due : ∀ e ∈ es, ∀ n < log.count e.1, e.2 + n * (v.node e.1).ticks ≤ now

/-- The passes that can still fire a timer. -/
def pending (now : Nat) (es : List (Addr × Nat)) : Nat := (es.map fun e => now + 1 - e.2).sum

/-- What the handle of an elapsed timer does. -/
def call {σ : Type} (fire : Handle → Addr → Addr → σ → σ) (v : Timers Handle) (s : σ)
    (timer : Addr) : σ :=
  match (v.node timer).handle with
  | some handle => fire handle timer (v.node timer).arg s
  | none => s

theorem elapsed_nil (v : Timers Handle) (now : Nat) (es : List (Addr × Nat)) :
    Elapsed v now [] es es := by
  refine ⟨fun x absent => ⟨rfl,absent⟩,fun e member _ => .inl ⟨rfl,member⟩,?_,by simp⟩
  intro e member _
  simpa using member

theorem call_same {σ : Type} {fire : Handle → Addr → Addr → σ → σ} {v w : Timers Handle}
    (setup : SameSetup v w) : call fire w = call fire v := by
  funext s timer
  obtain ⟨handle,arg,_⟩ := setup timer
  rw [call,call,handle,arg]

theorem elapsed_oneShot {v : Timers Handle} {now key : Nat} {timer : Addr} {log : List Addr}
    {es fs : List (Addr × Nat)} (later : Elapsed v now log es fs) (shot : (v.node timer).ticks = 0)
    (due : key ≤ now) (fresh : timer ∉ es.map Prod.fst) :
    Elapsed v now (timer::log) ((timer,key)::es) fs := by
  obtain ⟨never,gone⟩ := later.outside timer fresh
  have other {e : Addr × Nat} (member : e ∈ es) : timer ≠ e.1 := by
    rintro rfl
    exact fresh (List.mem_map_of_mem member)
  refine ⟨?_,?_,?_,?_⟩
  · intro x absent
    simp only [List.map_cons,List.mem_cons,not_or] at absent
    rw [List.count_cons_of_ne (Ne.symm absent.1)]
    exact later.outside x absent.2
  · refine List.forall_mem_cons.mpr ⟨fun _ => .inr ⟨?_,due,gone⟩,fun e member zero => ?_⟩
    · rw [List.count_cons_self,never]
    · rw [List.count_cons_of_ne (other member)]
      exact later.oneShot e member zero
  · refine List.forall_mem_cons.mpr ⟨fun period => absurd shot period,fun e member period => ?_⟩
    rw [List.count_cons_of_ne (other member)]
    exact later.periodic e member period
  · refine List.forall_mem_cons.mpr ⟨fun n count => ?_,fun e member n count => ?_⟩
    · simp only [shot,Nat.mul_zero,Nat.add_zero]
      exact due
    · rw [List.count_cons_of_ne (other member)] at count
      exact later.due e member n count

theorem elapsed_periodic {v : Timers Handle} {now key : Nat} {timer : Addr} {log : List Addr}
    {es fs : List (Addr × Nat)}
    (later : Elapsed v now log (insertKey (timer,key + (v.node timer).ticks) es) fs)
    (period : (v.node timer).ticks ≠ 0) (due : key ≤ now) (fresh : timer ∉ es.map Prod.fst) :
    Elapsed v now (timer::log) ((timer,key)::es) fs := by
  have perm := insertKey_perm (timer,key + (v.node timer).ticks) es
  have other {e : Addr × Nat} (member : e ∈ es) : timer ≠ e.1 := by
    rintro rfl
    exact fresh (List.mem_map_of_mem member)
  have self : (timer,key + (v.node timer).ticks) ∈
      insertKey (timer,key + (v.node timer).ticks) es := perm.mem_iff.mpr (by simp)
  have rest {e : Addr × Nat} (member : e ∈ es) :
      e ∈ insertKey (timer,key + (v.node timer).ticks) es := perm.mem_iff.mpr (by simp [member])
  refine ⟨?_,?_,?_,?_⟩
  · intro x absent
    have away : x ∉ (insertKey (timer,key + (v.node timer).ticks) es).map Prod.fst := by
      rw [(perm.map Prod.fst).mem_iff]
      exact absent
    simp only [List.map_cons,List.mem_cons,not_or] at absent
    rw [List.count_cons_of_ne (Ne.symm absent.1)]
    exact later.outside x away
  · refine List.forall_mem_cons.mpr ⟨fun shot => absurd shot period,fun e member zero => ?_⟩
    rw [List.count_cons_of_ne (other member)]
    exact later.oneShot e (rest member) zero
  · refine List.forall_mem_cons.mpr ⟨fun _ => ?_,fun e member period => ?_⟩
    · have moved := later.periodic _ self period
      rw [List.count_cons_self,Nat.add_mul,Nat.one_mul]
      rwa [Nat.add_assoc,Nat.add_comm (v.node timer).ticks] at moved
    · rw [List.count_cons_of_ne (other member)]
      exact later.periodic e (rest member) period
  · refine List.forall_mem_cons.mpr ⟨fun n count => ?_,fun e member n count => ?_⟩
    · cases n with
      | zero => simpa using due
      | succ n =>
        rw [List.count_cons_self] at count
        have before := later.due _ self n (Nat.lt_of_succ_lt_succ count)
        dsimp only at before ⊢
        rw [Nat.add_mul,Nat.one_mul]
        omega
    · rw [List.count_cons_of_ne (other member)] at count
      exact later.due e (rest member) n count

/-- The first half of a pass moves the base to the earlier of the head's expiry and
the tick. -/
theorem distribute_spaced {v : Timers Handle} {base now key : Nat} {timer : Addr}
    {es : List (Addr × Nat)} (spaced : Spaced v base ((timer,key)::es)) (before : base ≤ now) :
    ∃ w, distribute v timer (now - base) = (w,now - min key now) ∧
      Spaced w (min key now) ((timer,key)::es) ∧ w.lastSysTick = v.lastSysTick ∧ SameSetup v w := by
  have outside : timer ∉ es.map Prod.fst := (List.nodup_cons.mp spaced.names).1
  obtain ⟨own,rest⟩ := spaced.encodes
  unfold Timers.left at own
  have result (n : Nat) (sum : min key now + n = key) (less : n ≤ (v.node timer).ticksLeft) :
      Spaced (v.setLeft timer n) (min key now) ((timer,key)::es) := by
    refine ⟨seg_congr spaced.chain fun x _ => by simp [Timers.next],⟨?_,?_⟩,fun e member =>
      lt_of_le_of_lt (setLeft_le v less e.1) (spaced.words e member)⟩
    · simpa [Timers.left] using sum
    · refine encodes_congr rest fun e member => ?_
      have other : e.1 ≠ timer := fun same => outside (same ▸ List.mem_map_of_mem member)
      simp [Timers.left,other]
  unfold distribute
  by_cases early : (v.node timer).ticksLeft < now - base
  · refine ⟨v.setLeft timer 0,?_,result 0 (by omega) (Nat.zero_le _),rfl,setLeft_sameSetup _ _ _⟩
    rw [if_pos early,show now - base - (v.node timer).ticksLeft = now - min key now by omega]
  · refine ⟨v.setLeft timer ((v.node timer).ticksLeft - (now - base)),?_,result _ (by omega) (Nat.sub_le _ _),rfl,
      setLeft_sameSetup _ _ _⟩
    rw [if_neg early,show now - min key now = 0 by omega]

theorem distribute_listed {v : Timers Handle} {base now key : Nat} {timer : Addr}
    {es : List (Addr × Nat)} (listed : Listed v base ((timer,key)::es)) (before : base ≤ now) :
    ∃ w, distribute v timer (now - base) = (w,now - min key now) ∧
      Listed w (min key now) ((timer,key)::es) ∧ w.lastSysTick = v.lastSysTick ∧ SameSetup v w := by
  obtain ⟨w,split,spaced,frame⟩ := distribute_spaced listed.spaced before
  exact ⟨w,split,spaced.listed listed.bound,frame⟩

theorem distribute_elapsed (v : Timers Handle) (timer : Addr) (diff : Nat) :
    ((distribute v timer diff).1.node timer).ticksLeft = 0 ↔ (v.node timer).ticksLeft ≤ diff := by
  unfold distribute
  split
  · next less => simp [Nat.le_of_lt less]
  · next more =>
    simp only [setLeft_left,if_true]
    omega

/-- The list that a firing leaves, before the next pass. -/
def afterFire (v : Timers Handle) (timer : Addr) (key : Nat) (es : List (Addr × Nat)) :
    List (Addr × Nat) :=
  if (v.node timer).ticks = 0 then es else insertKey (timer,key + (v.node timer).ticks) es

theorem afterFire_serve (v : Timers Handle) (timer : Addr) (key : Nat) (es : List (Addr × Nat)) :
    afterFire v timer key es = serve v.period (timer,key) es := rfl

theorem mem_afterFire {v : Timers Handle} {timer : Addr} {key : Nat} {es : List (Addr × Nat)} {e : Addr × Nat} :
    e ∈ afterFire v timer key es ↔ e ∈ es ∨ v.period timer ≠ 0 ∧ e = (timer,key + v.period timer) := by
  rw [afterFire_serve,mem_serve]

theorem retire_spaced {v : Timers Handle} {key : Nat} {timer : Addr} {es : List (Addr × Nat)}
    (spaced : Spaced v key ((timer,key)::es)) (small : (v.node timer).ticks < 2^32) :
    ∃ w, retire v timer = some w ∧ Spaced w key (afterFire v timer key es) ∧
      w.lastSysTick = v.lastSysTick ∧ SameSetup v w := by
  have outside : timer ∉ es.map Prod.fst := (List.nodup_cons.mp spaced.names).1
  set u := ({v with bermudaTimerList := (v.node timer).next} : Timers Handle).setLeft timer
    (v.node timer).ticks with hu
  have setup : SameSetup v u := by
    intro x
    by_cases same : x = timer <;> simp [hu,setLeft,update,same]
  have others {e : Addr × Nat} (member : e ∈ es) : u.left e.1 = v.left e.1 := by
    have other : e.1 ≠ timer := fun same => outside (same ▸ List.mem_map_of_mem member)
    simp [hu,Timers.left,other]
  have shorter : Spaced u key es := by
    refine ⟨seg_congr spaced.chain.2 fun x _ => ?_,encodes_congr spaced.encodes.2 fun e member => others member,
      fun e member => ?_⟩
    · simp [hu,Timers.next]
    · rw [others member]
      exact spaced.words e (by simp [member])
  have count : (u.node timer).ticksLeft = (v.node timer).ticks := by simp [hu]
  have unfolded : retire v timer =
      if (v.node timer).ticks = 0 then some u else bermudaTimerAdd u timer := by
    rw [← count]
    rfl
  by_cases shot : (v.node timer).ticks = 0
  · refine ⟨u,by rw [unfolded,if_pos shot],?_,rfl,setup⟩
    rw [afterFire,if_pos shot]
    exact shorter
  · obtain ⟨w,added,spaced,tick,same⟩ :=
      add_spaced shorter (by rw [Timers.left,count]) (by rw [Timers.left,count]; exact small) outside
    refine ⟨w,by rw [unfolded,if_neg shot,added],?_,tick,setup.trans same⟩
    rw [afterFire,if_neg shot]
    exact spaced

theorem afterFire_small {v : Timers Handle} {key : Nat} {timer : Addr} {es : List (Addr × Nat)}
    (bound : ∀ e ∈ es, e.2 < 2^32) (small : key + (v.node timer).ticks < 2^32) :
    ∀ e ∈ afterFire v timer key es, e.2 < 2^32 := by
  intro e member
  rcases mem_afterFire.mp member with other | ⟨_,rfl⟩
  · exact bound e other
  · exact small

theorem retire_listed {v : Timers Handle} {key : Nat} {timer : Addr} {es : List (Addr × Nat)}
    (listed : Listed v key ((timer,key)::es))
    (small : key + (v.node timer).ticks < 2^32) :
    ∃ w, retire v timer = some w ∧
      Listed w key (afterFire v timer key es) ∧
      w.lastSysTick = v.lastSysTick ∧ SameSetup v w := by
  obtain ⟨w,retired,spaced,frame⟩ := retire_spaced listed.spaced (by omega)
  exact ⟨w,retired,spaced.listed (afterFire_small (fun e member => listed.bound e (by simp [member])) small),frame⟩

theorem afterFire_noWrap {v : Timers Handle} {now key : Nat} {timer : Addr} {es : List (Addr × Nat)}
    (noWrap : NoWrap v now ((timer,key)::es)) : NoWrap v now (afterFire v timer key es) := by
  intro e member n before
  rcases mem_afterFire.mp member with other | ⟨_,rfl⟩
  · exact noWrap e (by simp [other]) n before
  · have next := noWrap (timer,key) (by simp) (n+1)
    simp only [Timers.period,Nat.add_mul,Nat.one_mul] at before next ⊢
    omega

theorem afterFire_pending {v : Timers Handle} {now key : Nat} {timer : Addr} {es : List (Addr × Nat)}
    (due : key ≤ now) : pending now (afterFire v timer key es) < pending now ((timer,key)::es) := by
  have whole : pending now ((timer,key)::es) = (now + 1 - key) + pending now es := by
    simp [pending]
  unfold afterFire
  split_ifs with shot
  · omega
  · have sum : pending now (insertKey (timer,key + (v.node timer).ticks) es) =
        (now + 1 - (key + (v.node timer).ticks)) + pending now es := by
      unfold pending
      rw [((insertKey_perm _ _).map _).sum_eq]
      simp
    omega

theorem afterFire_elapsed {v : Timers Handle} {now key : Nat} {timer : Addr} {log : List Addr}
    {es fs : List (Addr × Nat)} (later : Elapsed v now log (afterFire v timer key es) fs)
    (due : key ≤ now) (fresh : timer ∉ es.map Prod.fst) :
    Elapsed v now (timer::log) ((timer,key)::es) fs := by
  unfold afterFire at later
  split_ifs at later with shot
  · exact elapsed_oneShot later shot due fresh
  · exact elapsed_periodic later shot due fresh

/-- A pass from where the ticks are distributed. -/
def passRest {σ : Type} (fire : Handle → Addr → Addr → σ → σ) (fuel : Nat) (timer : Addr) (p : Timers Handle × Nat)
    (s : σ) : Option (Timers Handle × σ) :=
  if (p.1.node timer).ticksLeft = 0 then
    (retire p.1 timer).bind fun w => processWalk fire fuel p.2 w (call fire p.1 s timer)
  else processWalk fire fuel p.2 p.1 s

theorem processWalk_pass {σ : Type} (fire : Handle → Addr → Addr → σ → σ) (fuel : Nat) {diff : Nat} {timer : Addr}
    {v : Timers Handle} (s : σ) (head : v.bermudaTimerList = some timer) (more : diff ≠ 0) :
    processWalk fire (fuel+1) diff v s = passRest fire fuel timer (distribute v timer diff) s := by
  simp only [processWalk,head,if_neg more]
  rfl

/-- The passes of the loop serve the list of expiries, with any handles. -/
theorem processWalk_serves {fuel now base : Nat} {v : Timers Handle} {es : List (Addr × Nat)}
    (spaced : Spaced v base es) (before : base ≤ now)
    (words : ∀ e ∈ es, e.2 ≤ now → (v.node e.1).ticks < 2^32)
    (enough : pending now es + (if base = now then 1 else 2) ≤ fuel) :
    ∃ w fs log, (∀ (σ : Type) (fire : Handle → Addr → Addr → σ → σ) (s : σ),
        processWalk fire fuel (now - base) v s = some (w,(log.map Prod.fst).foldl (call fire v) s)) ∧
      Spaced w now fs ∧ Serves v.period es log fs ∧ (base = now → log = []) ∧ (base < now → Stops now log fs) ∧
      w.lastSysTick = v.lastSysTick ∧ SameSetup v w := by
  induction fuel generalizing v es base with
  | zero => split at enough <;> omega
  | succ fuel ih =>
    have refl : SameSetup v v := fun _ => ⟨rfl,rfl,rfl⟩
    cases es with
    | nil =>
      have empty : v.bermudaTimerList = none := spaced.chain
      exact ⟨v,[],[],fun σ fire s => by simp [processWalk,empty],⟨spaced.chain,trivial,by simp⟩,.rest [],fun _ => rfl,
        fun _ => ⟨by simp,by simp,.inl (by simp)⟩,rfl,refl⟩
    | cons e es =>
      obtain ⟨timer,key⟩ := e
      have head : v.bermudaTimerList = some timer := spaced.chain.1
      by_cases reached : base = now
      · subst reached
        exact ⟨v,_,[],fun σ fire s => by simp [processWalk,head],spaced,.rest _,fun _ => rfl,
          fun more => absurd more (lt_irrefl _),rfl,refl⟩
      · obtain ⟨u,split,moved,tick,setup⟩ := distribute_spaced spaced before
        have remaining : now - base ≠ 0 := by omega
        rw [if_neg reached] at enough
        have step (σ : Type) (fire : Handle → Addr → Addr → σ → σ) (s : σ) :=
          processWalk_pass fire fuel s head remaining
        simp only [split,passRest] at step
        have own := moved.encodes.1
        unfold Timers.left at own
        by_cases due : key ≤ now
        · rw [Nat.min_eq_left due] at moved own step
          have zero : (u.node timer).ticksLeft = 0 := by omega
          have small := words (timer,key) (by simp) due
          rw [← (setup timer).2.2] at small
          obtain ⟨w,retired,spaced,tock,same⟩ := retire_spaced moved small
          have both := setup.trans same
          have period : w.period = v.period := funext fun x => (both x).2.2
          have fewer : pending now (afterFire u timer key es) < pending now ((timer,key)::es) :=
            afterFire_pending due
          have served : afterFire u timer key es = serve v.period (timer,key) es := by
            rw [afterFire_serve,show u.period = v.period from funext fun x => (setup x).2.2]
          rw [served] at spaced fewer
          obtain ⟨x,fs,log,walk,final,serves,ended,stops,last,whole⟩ := ih spaced due
            (fun e member early => by
              rw [(both e.1).2.2]
              rcases mem_serve.mp member with other | ⟨_,rfl⟩
              · exact words e (by simp [other]) early
              · exact words (timer,key) (by simp) due)
            (by split <;> omega)
          rw [period] at serves
          refine ⟨x,fs,(timer,key)::log,fun σ fire s => ?_,final,.first serves,fun at_end => absurd at_end reached,
            fun _ => ?_,last.trans (tock.trans tick),both.trans whole⟩
          · rw [step,if_pos zero,retired,Option.bind_some,walk,List.map_cons,List.foldl_cons,
              call_same both,call_same setup]
          · rcases Nat.lt_or_eq_of_le due with early | rfl
            · obtain ⟨low,single,rest⟩ := stops early
              have other {f : Addr × Nat} (on : f.2 = now) : (timer,key) ≠ f := by
                rintro rfl
                exact absurd on (Nat.ne_of_lt early)
              refine ⟨List.forall_mem_cons.mpr ⟨due,low⟩,fun e first f second one two => ?_,
                rest.imp id fun ⟨e,member,on⟩ => ⟨e,by simp [member],on⟩⟩
              exact single e ((List.mem_cons.mp first).resolve_left (other one).symm) f
                ((List.mem_cons.mp second).resolve_left (other two).symm) one two
            · obtain rfl := ended rfl
              refine ⟨by simp,fun e first f second _ _ => ?_,.inr ⟨_,List.mem_singleton_self _,rfl⟩⟩
              exact (List.mem_singleton.mp first).trans (List.mem_singleton.mp second).symm
        · have later : now < key := by omega
          rw [Nat.min_eq_right (le_of_lt later)] at moved own step
          have running : (u.node timer).ticksLeft ≠ 0 := by omega
          have period : u.period = v.period := funext fun x => (setup x).2.2
          obtain ⟨x,fs,log,walk,final,serves,ended,-,last,whole⟩ := ih moved le_rfl
            (fun e member early => by rw [(setup e.1).2.2]; exact words e member early) (by rw [if_pos rfl]; omega)
          rw [period] at serves
          obtain rfl := ended rfl
          refine ⟨x,fs,[],fun σ fire s => ?_,final,serves,fun _ => rfl,fun _ => ⟨by simp,by simp,.inl ?_⟩,
            last.trans tick,setup.trans whole⟩
          · rw [step,if_neg running]
            rw [Nat.sub_self] at walk ⊢
            exact walk σ fire s
          · intro f member
            -- nothing was served, so the head is still the first
            cases serves with
            | rest => exact lt_of_lt_of_le later (encodes_head spaced.encodes f member)

theorem pending_le {base now : Nat} {v : Timers Handle} {es : List (Addr × Nat)}
    (spaced : Spaced v base es) (small : now < base + 2^32) : pending now es ≤ 2^48 := by
  have each : ∀ n ∈ es.map (fun e => now + 1 - e.2), n ≤ 2^32 := by
    intro n member
    obtain ⟨e,inside,rfl⟩ := List.mem_map.mp member
    have low := encodes_base spaced.encodes e inside
    omega
  have total : pending now es ≤ _ := List.sum_le_card_nsmul _ _ each
  have length := spaced.length_le
  rw [List.length_map,Nat.nsmul_eq_mul] at total
  unfold addrLimit at length
  omega

theorem sub32_add32 {a diff : Nat} (small : diff < 2^32) : sub32 (add32 a diff) a = diff := by
  unfold sub32 add32
  omega

theorem process_serves {v : Timers Handle} {es : List (Addr × Nat)} {diff : Nat}
    (spaced : Spaced v v.lastSysTick es) (small : diff < 2^32)
    (words : ∀ e ∈ es, e.2 ≤ v.lastSysTick + diff → (v.node e.1).ticks < 2^32) :
    ∃ w fs log, (∀ (σ : Type) (fire : Handle → Addr → Addr → σ → σ) (s : σ),
        bermudaTimerProcess fire (add32 v.lastSysTick diff) v s =
          some (w,(log.map Prod.fst).foldl (call fire v) s)) ∧
      Spaced w (v.lastSysTick + diff) fs ∧ Serves v.period es log fs ∧ (diff = 0 → log = []) ∧
      (0 < diff → Stops (v.lastSysTick + diff) log fs) ∧ w.lastSysTick = add32 v.lastSysTick diff ∧
      SameSetup v w := by
  have room : pending (v.lastSysTick + diff) es ≤ 2^48 := pending_le spaced (by omega)
  have start : Spaced {v with lastSysTick := add32 v.lastSysTick diff} v.lastSysTick es :=
    ⟨spaced.chain,spaced.encodes,spaced.words⟩
  obtain ⟨w,fs,log,walk,final,serves,ended,stops,tick,setup⟩ := processWalk_serves start (Nat.le_add_right _ diff) words
    (show pending _ es + _ ≤ processLimit by unfold processLimit; split <;> omega)
  refine ⟨w,fs,log,fun σ fire s => ?_,final,serves,fun none_left => ended (by omega),fun more => stops (by omega),tick,
    setup⟩
  rw [bermudaTimerProcess,sub32_add32 small]
  rw [Nat.add_sub_cancel_left] at walk
  exact walk σ fire s

theorem serves_elapsed {v : Timers Handle} {now : Nat} {es log fs : List (Addr × Nat)}
    (serves : Serves v.period es log fs) (names : (es.map Prod.fst).Nodup) (due : ∀ e ∈ log, e.2 ≤ now) :
    Elapsed v now (log.map Prod.fst) es fs := by
  induction serves with
  | rest es => exact elapsed_nil v now es
  | @first e es log fs later ih =>
    obtain ⟨first,rest⟩ := List.forall_mem_cons.mp due
    exact afterFire_elapsed (ih (serve_names names) rest) first (List.nodup_cons.mp names).1

theorem serves_small {v : Timers Handle} {now : Nat} {es log fs : List (Addr × Nat)}
    (serves : Serves v.period es log fs) (noWrap : NoWrap v now es) (bound : ∀ e ∈ es, e.2 < 2^32)
    (due : ∀ e ∈ log, e.2 ≤ now) : ∀ f ∈ fs, f.2 < 2^32 := by
  induction serves with
  | rest es => exact bound
  | @first e es log fs later ih =>
    obtain ⟨first,rest⟩ := List.forall_mem_cons.mp due
    have next := noWrap e (by simp) 0 (by simpa using first)
    rw [Nat.zero_add,Nat.one_mul] at next
    exact ih (afterFire_noWrap noWrap) (afterFire_small (List.forall_mem_cons.mp bound).2 next) rest

/-- Processing always ends, and the expiries follow from the timers that elapsed. -/
theorem process_listed {σ : Type} (fire : Handle → Addr → Addr → σ → σ) (s : σ) {now : Nat}
    {v : Timers Handle} {es : List (Addr × Nat)} (listed : Listed v v.lastSysTick es)
    (later : v.lastSysTick ≤ now) (small : now < 2^32) (noWrap : NoWrap v now es) :
    ∃ w fs log, bermudaTimerProcess fire now v s = some (w,log.foldl (call fire v) s) ∧
      Listed w now fs ∧ Elapsed v now log es fs ∧ w.lastSysTick = now ∧ SameSetup v w := by
  obtain ⟨diff,rfl⟩ := Nat.exists_eq_add_of_le later
  obtain ⟨w,fs,log,run,final,serves,ended,stops,tick,setup⟩ := process_serves listed.spaced (show diff < 2^32 by omega)
    fun e member due => by
      have next := noWrap e member 0 (by simpa using due)
      omega
  rw [add32_of_lt small] at run tick
  have due : ∀ e ∈ log, e.2 ≤ v.lastSysTick + diff := by
    rcases Nat.eq_zero_or_pos diff with none_left | more
    · simp [ended none_left]
    · exact (stops more).served
  exact ⟨w,fs,_,run σ fire s,final.listed (serves_small serves noWrap listed.bound due),
    serves_elapsed serves listed.spaced.names due,tick,setup⟩

end BermudaOS.Sys.VirtTimer
