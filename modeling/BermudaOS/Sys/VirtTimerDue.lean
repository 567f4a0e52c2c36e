import BermudaOS.Sys.VirtTimerRuns

/-! What one call of `BermudaTimerProcess` fires. The loop ends as soon as no ticks are left to
distribute: the first timer that expires exactly at the current tick fires, and another one that does
stays in the list. -/
namespace BermudaOS.Sys.VirtTimer
open Lib.Chains Lib.Gaps Lib.Agenda Timers

variable {Handle : Type} {v w : Timers Handle} {ts : List Addr} {es fs : List (Addr × Nat)} {base diff : Nat}

/-- A list of timers in memory, with any counts and any periods. -/
structure Proper (v : Timers Handle) (ts : List Addr) : Prop where
  chain : Chain v.next v.bermudaTimerList ts
  words : ∀ x ∈ ts, v.left x < 2^32 ∧ v.period x < 2^32

theorem Proper.spaced (proper : Proper v ts) (base : Nat) : ∃ es, es.map Prod.fst = ts ∧ Spaced v base es := by
  obtain ⟨es,rfl,encodes⟩ := encodes_exists v.left base ts
  exact ⟨es,rfl,proper.chain,encodes,fun e member => (proper.words e.1 (List.mem_map_of_mem member)).1⟩

theorem Spaced.move (spaced : Spaced v base es) (other : Nat) :
    Spaced v other (es.map fun e => (e.1,e.2 - base + other)) := by
  have encodes : Encodes v.left (0 + base) es := by
    rw [Nat.zero_add]
    exact spaced.encodes
  have moved := encodes_move base other encodes
  rw [Nat.zero_add] at moved
  refine ⟨?_,moved,fun e member => ?_⟩
  · rw [List.map_map]
    exact spaced.chain
  · obtain ⟨f,inside,rfl⟩ := List.mem_map.mp member
    exact spaced.words f inside

theorem Spaced.late_iff (spaced : Spaced v base es) :
    (∀ e ∈ es, base < e.2) ↔ ∀ x expiry, Expiry v x expiry → v.lastSysTick < expiry := by
  have here := (spaced.move v.lastSysTick).expiry_iff
  constructor
  · intro late x expiry expires
    obtain ⟨e,inside,same⟩ := List.mem_map.mp ((here x expiry).mp expires)
    obtain ⟨-,rfl⟩ := Prod.mk.inj same
    have after := late e inside
    omega
  · intro late e inside
    have after := late e.1 _ ((here e.1 _).mpr (List.mem_map.mpr ⟨e,inside,rfl⟩))
    omega

/-- The timer expires at tick `k`, for the first time or a number of periods later. -/
def Boundary (v : Timers Handle) (timer : Addr) (k : Nat) : Prop :=
  ∃ expiry n, Expiry v timer expiry ∧ k = expiry + n * v.period timer

theorem Spaced.boundary_iff (spaced : Spaced v v.lastSysTick es) (timer : Addr) (k : Nat) :
    Boundary v timer k ↔ Due v.period es timer k := by
  simp only [Boundary,Due,spaced.expiry_iff]

/-- One call after `diff` ticks leaves `w` and fires these timers at these ticks: each one at each of
its expiries up to the current tick, in order. Nothing that is due stays in the list. -/
structure Fires (v : Timers Handle) (diff : Nat) (w : Timers Handle) (firings : List (Addr × Nat)) : Prop where
  calls : ∀ (σ : Type) (fire : Handle → Addr → Addr → σ → σ) (s : σ),
    bermudaTimerProcess fire (add32 v.lastSysTick diff) v s = some (w,(firings.map Prod.fst).foldl (call fire v) s)
  once : firings.Nodup
  due : ∀ x k, (x,k) ∈ firings ↔ Boundary v x k ∧ k ≤ v.lastSysTick + diff
  ordered : firings.Pairwise (fun e f => e.2 ≤ f.2)
  left : ∀ x expiry, Expiry w x expiry → w.lastSysTick < expiry

/-- All timers that are due fire if no two of them expire exactly at the current tick. -/
theorem due_fire_iff (proper : Proper v ts) (elapsed : 0 < diff) (small : diff < 2^32) :
    (∃ w firings, Fires v diff w firings) ↔
      ∀ x y, Boundary v x (v.lastSysTick + diff) → Boundary v y (v.lastSysTick + diff) → x = y := by
  obtain ⟨es,rfl,spaced⟩ := proper.spaced v.lastSysTick
  obtain ⟨w,fs,log,run,final,serves,-,stops,-,-⟩ := process_serves spaced small
    fun e member _ => (proper.words e.1 (List.mem_map_of_mem member)).2
  have stops := stops elapsed
  have sorted := encodes_sorted spaced.encodes
  have alone := serves.left_iff sorted spaced.names stops
  simp only [spaced.boundary_iff]
  rw [← alone]
  constructor
  · intro ⟨u,firings,fires⟩
    have same := (run Unit (fun _ _ _ _ => ()) ()).symm.trans (fires.calls Unit (fun _ _ _ _ => ()) ())
    obtain rfl : w = u := congrArg Prod.fst (Option.some.inj same)
    exact final.late_iff.mpr fires.left
  · intro left
    refine ⟨w,log,run,(serves.once spaced.names).1,fun x k => ?_,(serves.sorted sorted).1,final.late_iff.mp left⟩
    rw [spaced.boundary_iff]
    exact serves.served_iff stops left x k

/-- A one-shot timer that expires at tick 5 and a periodic one that expires at tick 7. -/
def apart : Timers Unit where
  node
    | 1 => ⟨some 2,some (),0,5,0⟩
    | 2 => ⟨none,some (),0,2,3⟩
    | _ => ⟨none,none,0,0,0⟩
  bermudaTimerList := some 1
  lastSysTick := 0

theorem apart_spaced : Spaced apart 0 [(1,5),(2,7)] := ⟨⟨rfl,rfl,rfl⟩,⟨rfl,rfl,trivial⟩,by simp [apart,Timers.left]⟩

theorem apart_proper : Proper apart [1,2] := ⟨apart_spaced.chain,by simp [apart,Timers.left,Timers.period]⟩

theorem due_fire_apart : ∃ w firings, Fires apart 10 w firings := by
  refine (due_fire_iff apart_proper (by decide) (by decide)).mpr fun x y first second => ?_
  -- only the periodic timer comes to tick 10
  have periodic {x : Addr} (boundary : Boundary apart x 10) : x = 2 := by
    obtain ⟨key,n,member,due⟩ := (apart_spaced.boundary_iff x 10).mp boundary
    rcases List.mem_cons.mp member with one | other
    · cases one
      rw [show apart.period 1 = 0 from rfl] at due
      omega
    · exact congrArg Prod.fst (List.mem_singleton.mp other)
  rw [periodic first,periodic second]

/-- Two timers that expire at tick 5. -/
def twins : Timers Unit where
  node
    | 1 => ⟨some 2,some (),0,5,0⟩
    | 2 => ⟨none,some (),0,0,0⟩
    | _ => ⟨none,none,0,0,0⟩
  bermudaTimerList := some 1
  lastSysTick := 0

/-- The second one is not called at tick 5, and stays. -/
theorem twin_left : ¬∃ w firings, Fires twins 5 w firings := by
  intro ⟨w,firings,fires⟩
  have run := fires.calls Unit (fun _ _ _ _ => ()) ()
  have result : (bermudaTimerProcess (fun _ _ _ _ => ()) (add32 twins.lastSysTick 5) twins ()).map
      (fun r => (r.1.bermudaTimerList,r.1.next 2,r.1.left 2,r.1.lastSysTick)) = some (some 2,none,0,5) := by
    decide +kernel
  rw [run] at result
  obtain ⟨head,next,count,tick⟩ : w.bermudaTimerList = some 2 ∧ w.next 2 = none ∧ w.left 2 = 0 ∧ w.lastSysTick = 5 := by
    simpa using result
  have late := fires.left 2 _ ⟨[],[],⟨head,next⟩,rfl⟩
  simp [count] at late

end BermudaOS.Sys.VirtTimer
