import BermudaOS.Lib.Gaps
import BermudaOS.Sys.VirtTimerChain

/-! The timer list as expiry times. The list in memory is a chain whose counts
encode ascending expiries against the tick the list is processed up to; adding,
stopping and processing timers are edits of that list of expiries. -/
namespace BermudaOS.Sys.VirtTimer
open Lib.Chains Lib.Gaps

variable {Handle : Type}

open Timers

/-- The list in memory holds these timers, in this order, with these expiries. -/
structure Listed (v : Timers Handle) (base : Nat) (es : List (Addr × Nat)) : Prop where
  chain : Chain v.next v.bermudaTimerList (es.map Prod.fst)
  encodes : Encodes v.left base es
  bound : ∀ e ∈ es, e.2 < 2^32

/-- The same for expiries of any size, where the counts in memory are words. -/
structure Spaced (v : Timers Handle) (base : Nat) (es : List (Addr × Nat)) : Prop where
  chain : Chain v.next v.bermudaTimerList (es.map Prod.fst)
  encodes : Encodes v.left base es
  words : ∀ e ∈ es, v.left e.1 < 2^32

theorem Listed.spaced {v : Timers Handle} {base : Nat} {es : List (Addr × Nat)} (listed : Listed v base es) :
    Spaced v base es :=
  ⟨listed.chain,listed.encodes,fun e member => lt_of_le_of_lt (encodes_gap listed.encodes e member)
    (listed.bound e member)⟩

theorem Spaced.listed {v : Timers Handle} {base : Nat} {es : List (Addr × Nat)} (spaced : Spaced v base es)
    (bound : ∀ e ∈ es, e.2 < 2^32) : Listed v base es := ⟨spaced.chain,spaced.encodes,bound⟩

theorem Spaced.names {v : Timers Handle} {base : Nat} {es : List (Addr × Nat)} (spaced : Spaced v base es) :
    (es.map Prod.fst).Nodup := chain_nodup spaced.chain

theorem sub32_of_le {a b : Nat} (le : b ≤ a) (bound : a < 2^32) : sub32 a b = a - b := by
  unfold sub32
  omega

theorem Spaced.length_le {v : Timers Handle} {base : Nat} {es : List (Addr × Nat)}
    (spaced : Spaced v base es) : es.length ≤ addrLimit := by
  simpa using chain_length spaced.chain

theorem setLeft_le (v : Timers Handle) {timer : Addr} {n : Nat} (less : n ≤ (v.node timer).ticksLeft) (x : Addr) :
    (v.setLeft timer n).left x ≤ v.left x := by
  unfold Timers.left
  rw [setLeft_left]
  split
  · next same => exact same ▸ less
  · exact le_rfl

theorem addWalk_encodes {timer : Addr} {fuel base key : Nat} {v : Timers Handle}
    {p : Option Addr} (prev : Option Addr) {es : List (Addr × Nat)} (chain : Chain v.next p (es.map Prod.fst))
    (encodes : Encodes v.left base es) (words : ∀ e ∈ es, v.left e.1 < 2^32)
    (own : base + v.left timer = key) (small : v.left timer < 2^32) (fresh : timer ∉ es.map Prod.fst)
    (enough : es.length ≤ fuel) :
    ∃ before after w, es = before ++ after ∧ (∀ e ∈ before, e.2 ≤ key) ∧
      (∀ e ∈ after, key < e.2) ∧
      addWalk timer fuel v p prev = some (w,after.head?.map Prod.fst,
        (before.getLast?.map Prod.fst).or prev) ∧
      Encodes w.left base (before ++ (timer,key)::after) ∧
      w.bermudaTimerList = v.bermudaTimerList ∧ w.lastSysTick = v.lastSysTick ∧
      (∀ x, w.next x = v.next x) ∧
      (∀ x, x ≠ timer → x ∉ es.map Prod.fst → w.left x = v.left x) ∧ (∀ x, w.left x ≤ v.left x) ∧
      SameSetup v w := by
  induction es generalizing v base p prev fuel with
  | nil =>
    obtain rfl : p = none := chain
    exact ⟨[],[],v,rfl,by simp,by simp,by cases fuel <;> rfl,⟨own,trivial⟩,rfl,rfl,
      fun _ => rfl,fun _ _ _ => rfl,fun _ => le_rfl,fun _ => ⟨rfl,rfl,rfl⟩⟩
  | cons e es ih =>
    have outside : e.1 ∉ es.map Prod.fst := (List.nodup_cons.mp (chain_nodup chain)).1
    obtain ⟨rfl,rest⟩ := chain
    obtain ⟨first,others⟩ := encodes
    have distinct : e.1 ≠ timer := by
      rintro rfl
      simp at fresh
    have absent : timer ∉ es.map Prod.fst := fun member => fresh (by simp [member])
    have high := words e (by simp)
    obtain ⟨fuel,rfl⟩ : ∃ n, fuel = n + 1 := ⟨fuel - 1,by simp at enough; omega⟩
    unfold Timers.left at own first small high
    by_cases before : (v.node timer).ticksLeft < (v.node e.1).ticksLeft
    · have later := encodes_base others
      refine ⟨[],e::es,v.setLeft e.1 (sub32 (v.node e.1).ticksLeft (v.node timer).ticksLeft),rfl,
        by simp,?_,by simp [addWalk,before],⟨?_,?_,?_⟩,rfl,rfl,fun x => by simp [Timers.next],
        ?_,setLeft_le v (by rw [sub32_of_le (by omega) high]; exact Nat.sub_le _ _),setLeft_sameSetup _ _ _⟩
      · intro f member
        rcases List.mem_cons.mp member with rfl | further
        · omega
        · have := later f further
          omega
      · simpa [Timers.left,distinct.symm] using own
      · simp only [Timers.left,setLeft_left,if_true]
        rw [sub32_of_le (by omega) high]
        omega
      · refine encodes_congr others fun f member => ?_
        have other : f.1 ≠ e.1 := fun same => outside (same ▸ List.mem_map_of_mem member)
        simp [Timers.left,other]
      · intro x _ absent
        have other : x ≠ e.1 := fun same => absent (by simp [same])
        simp [Timers.left,other]
    · set u := v.setLeft timer (sub32 (v.node timer).ticksLeft (v.node e.1).ticksLeft) with hu
      have next_same (x : Addr) : u.next x = v.next x := by simp [hu,Timers.next]
      have left_same {x : Addr} (other : x ≠ timer) : u.left x = v.left x := by
        simp [hu,Timers.left,other]
      have left_own : e.2 + u.left timer = key := by
        simp only [hu,Timers.left,setLeft_left,if_true]
        rw [sub32_of_le (by omega) small]
        omega
      have fewer : ∀ x, u.left x ≤ v.left x :=
        setLeft_le v (by rw [sub32_of_le (by omega) small]; exact Nat.sub_le _ _)
      have link : Chain u.next (u.next e.1) (es.map Prod.fst) := by
        rw [next_same]
        exact seg_congr rest (fun x _ => next_same x)
      have moved : Encodes u.left e.2 es := by
        refine encodes_congr others fun f member => left_same ?_
        rintro rfl
        exact absent (List.mem_map_of_mem member)
      obtain ⟨left,right,w,rfl,low,above,walk,result,list,tick,nexts,lefts,less,setup⟩ :=
        ih (some e.1) link moved (fun f member => lt_of_le_of_lt (fewer f.1) (words f (by simp [member]))) left_own
          (lt_of_le_of_lt (fewer timer) small) absent (show es.length ≤ fuel by simp at enough; omega)
      refine ⟨e::left,right,w,rfl,?_,above,?_,⟨?_,result⟩,list,tick,
        fun x => (nexts x).trans (next_same x),?_,fun x => le_trans (less x) (fewer x),
        (setLeft_sameSetup _ _ _).trans setup⟩
      · intro f member
        rcases List.mem_cons.mp member with rfl | further
        · omega
        · exact low f further
      · have step : addWalk timer (fuel+1) v (some e.1) prev =
            addWalk timer fuel u (u.next e.1) (some e.1) := by
          simp only [addWalk,if_neg before]
          rfl
        rw [step,walk]
        cases left with
        | nil => rfl
        | cons f left => simp [List.getLast?_cons]
      · rw [lefts e.1 distinct outside,left_same distinct]
        exact first
      · intro x other absent
        have further : x ∉ (left ++ right).map Prod.fst := fun member => absent (by simp_all)
        rw [lefts x other further,left_same other]

theorem add_spaced {timer : Addr} {base key : Nat} {v : Timers Handle} {es : List (Addr × Nat)}
    (spaced : Spaced v base es) (own : base + v.left timer = key) (small : v.left timer < 2^32)
    (fresh : timer ∉ es.map Prod.fst) :
    ∃ w, bermudaTimerAdd v timer = some w ∧ Spaced w base (insertKey (timer,key) es) ∧
      w.lastSysTick = v.lastSysTick ∧ SameSetup v w := by
  obtain ⟨before,after,u,rfl,low,high,walk,encodes,list,tick,nexts,_,less,setup⟩ :=
    addWalk_encodes none spaced.chain spaced.encodes spaced.words own small fresh
      spaced.length_le
  have chain : Chain u.next u.bermudaTimerList (before.map Prod.fst ++ after.map Prod.fst) := by
    rw [list,← List.map_append]
    exact seg_congr spaced.chain (fun x _ => nexts x)
  rw [List.map_append] at fresh
  rw [insertKey_split low high]
  have words : ∀ e ∈ before ++ (timer,key)::after, u.left e.1 < 2^32 := by
    intro e member
    refine lt_of_le_of_lt (less e.1) ?_
    rcases List.mem_append.mp member with early | member
    · exact spaced.words e (by simp [early])
    · rcases List.mem_cons.mp member with rfl | late
      · exact small
      · exact spaced.words e (by simp [late])
  rw [Option.or_none,← List.head?_map,← List.getLast?_map] at walk
  obtain ⟨tock,same,lefts⟩ :=
    linked_frame u timer (after.map Prod.fst).head? (before.map Prod.fst).getLast?
  refine ⟨_,add_linked walk,⟨?_,encodes_congr encodes fun e _ => lefts e.1,fun e member => ?_⟩,tock.trans tick,
    setup.trans same⟩
  · rw [List.map_append,List.map_cons]
    exact linked_chain chain fresh
  · rw [lefts]
    exact words e member

theorem create_spaced (fn : Option Handle) (arg : Addr) (flags : Nat) {timer : Addr}
    {base key now ms : Nat} {v : Timers Handle} {es : List (Addr × Nat)} (spaced : Spaced v base es)
    (fresh : timer ∉ es.map Prod.fst)
    (own : base + sub32 (add32 (bermudaTimerMillisToTicks ms) now) v.lastSysTick = key) :
    ∃ w, bermudaTimerCreate v timer now ms fn arg flags = some w ∧
      Spaced w base (insertKey (timer,key) es) ∧ w.lastSysTick = v.lastSysTick ∧
      ((w.node timer).handle = fn ∧ (w.node timer).arg = arg ∧
        (w.node timer).ticks =
          if flags &&& bermudaOneShot ≠ 0 then 0 else bermudaTimerMillisToTicks ms) ∧
      ∀ x, x ≠ timer → (w.node x).handle = (v.node x).handle ∧
        (w.node x).arg = (v.node x).arg ∧ (w.node x).ticks = (v.node x).ticks := by
  obtain ⟨u,created,list,tock,others,left,filled⟩ := create_add v timer now ms fn arg flags
  have away {e : Addr × Nat} (member : e ∈ es) : e.1 ≠ timer := by
    rintro rfl
    exact fresh (List.mem_map_of_mem member)
  have lefts {e : Addr × Nat} (member : e ∈ es) : u.left e.1 = v.left e.1 :=
    congrArg VTimer.ticksLeft (others e.1 (away member))
  have start : Spaced u base es := by
    refine ⟨?_,encodes_congr spaced.encodes fun e member => lefts member,fun e member => ?_⟩
    · rw [list]
      refine seg_congr spaced.chain fun x member => ?_
      obtain ⟨e,present,rfl⟩ := List.mem_map.mp member
      exact congrArg VTimer.next (others e.1 (away present))
    · rw [lefts member]
      exact spaced.words e member
  have word : u.left timer < 2^32 := by
    rw [left]
    exact Nat.mod_lt _ (Nat.two_pow_pos 32)
  obtain ⟨w,added,result,tick,setup⟩ := add_spaced start (left ▸ own) word fresh
  refine ⟨w,created.trans added,result,tick.trans tock,?_,fun x other => ?_⟩
  · obtain ⟨handle,argument,period⟩ := setup timer
    rw [handle,argument,period]
    exact filled
  · rw [← others x other]
    exact setup x

theorem create_placed (fn : Option Handle) (arg : Addr) (flags : Nat) {timer : Addr}
    {base key now ms : Nat} {v : Timers Handle} {es : List (Addr × Nat)} (listed : Listed v base es)
    (fresh : timer ∉ es.map Prod.fst) (small : key < 2^32)
    (own : base + sub32 (add32 (bermudaTimerMillisToTicks ms) now) v.lastSysTick = key) :
    ∃ w, bermudaTimerCreate v timer now ms fn arg flags = some w ∧
      Listed w base (insertKey (timer,key) es) ∧ w.lastSysTick = v.lastSysTick ∧
      ((w.node timer).handle = fn ∧ (w.node timer).arg = arg ∧
        (w.node timer).ticks =
          if flags &&& bermudaOneShot ≠ 0 then 0 else bermudaTimerMillisToTicks ms) ∧
      ∀ x, x ≠ timer → (w.node x).handle = (v.node x).handle ∧
        (w.node x).arg = (v.node x).arg ∧ (w.node x).ticks = (v.node x).ticks := by
  obtain ⟨w,created,result,rest⟩ := create_spaced fn arg flags listed.spaced fresh own
  refine ⟨w,created,result.listed fun e member => ?_,rest⟩
  rcases List.mem_cons.mp ((insertKey_perm _ _).mem_iff.mp member) with rfl | other
  · exact small
  · exact listed.bound e other

theorem add32_of_lt {a b : Nat} (small : a + b < 2^32) : add32 a b = a + b := Nat.mod_eq_of_lt small

/-- A created timer expires its tick count after the current tick. -/
theorem create_listed (fn : Option Handle) (arg : Addr) (flags : Nat) {timer : Addr}
    {now ms : Nat} {v : Timers Handle} {es : List (Addr × Nat)} (listed : Listed v v.lastSysTick es)
    (fresh : timer ∉ es.map Prod.fst) (later : v.lastSysTick ≤ now)
    (small : now + bermudaTimerMillisToTicks ms < 2^32) :
    ∃ w, bermudaTimerCreate v timer now ms fn arg flags = some w ∧
      Listed w v.lastSysTick (insertKey (timer,now + bermudaTimerMillisToTicks ms) es) ∧
      w.lastSysTick = v.lastSysTick ∧
      ((w.node timer).handle = fn ∧ (w.node timer).arg = arg ∧
        (w.node timer).ticks =
          if flags &&& bermudaOneShot ≠ 0 then 0 else bermudaTimerMillisToTicks ms) ∧
      ∀ x, x ≠ timer → (w.node x).handle = (v.node x).handle ∧
        (w.node x).arg = (v.node x).arg ∧ (w.node x).ticks = (v.node x).ticks := by
  refine create_placed fn arg flags listed fresh small ?_
  rw [add32_of_lt (by omega),sub32_of_le (by omega) (by omega)]
  omega

theorem stop_listed {timer : Addr} {base key : Nat} {v : Timers Handle}
    {before after : List (Addr × Nat)} (listed : Listed v base (before ++ (timer,key)::after)) :
    ∃ w, bermudaTimerStop v timer = some w ∧
      Listed w base (if v.left timer = 0 then before ++ (timer,key)::after else before ++ after) ∧
      Stopped v w timer := by
  have chain := listed.chain
  rw [List.map_append,List.map_cons] at chain
  have nodup := chain_nodup chain
  obtain ⟨w,stop,stopped,elapsed,running⟩ := stop_chain chain
  refine ⟨w,stop,?_,stopped⟩
  by_cases zero : v.left timer = 0
  · obtain ⟨whole,same⟩ := elapsed zero
    rw [if_pos zero]
    exact ⟨by simpa using whole,encodes_congr listed.encodes fun e _ => same e.1,listed.bound⟩
  · obtain ⟨shorter,lefts⟩ := running zero
    rw [if_neg zero]
    obtain ⟨first,own,rest⟩ := (encodes_append _ _ _ _).mp listed.encodes
    have apart := (List.nodup_append.mp nodup).2.2
    have inner := List.nodup_cons.mp (List.nodup_append.mp nodup).2.1
    have keeps {e : Addr × Nat} (other : e.1 ≠ timer) (away : (after.map Prod.fst).head? ≠ some e.1) :
        w.left e.1 = v.left e.1 := by
      rw [lefts e.1 other,if_neg away]
    refine ⟨by simpa using shorter,(encodes_append _ _ _ _).mpr ⟨?_,?_⟩,fun e member => ?_⟩
    · refine encodes_congr first fun e member => keeps ?_ fun head => ?_
      · exact apart e.1 (List.mem_map_of_mem member) timer (by simp)
      · exact apart e.1 (List.mem_map_of_mem member) e.1
          (List.mem_cons_of_mem _ (List.mem_of_head? head)) rfl
    · cases after with
      | nil => trivial
      | cons e after =>
        obtain ⟨next,tail⟩ := rest
        simp only [List.map_cons] at inner keeps lefts
        have other : e.1 ≠ timer := fun same => inner.1 (by simp [same])
        have bound := listed.bound e (by simp)
        refine ⟨?_,?_⟩
        · rw [lefts e.1 other,List.head?_cons,if_pos rfl]
          unfold add32
          omega
        · refine encodes_congr tail fun f member => keeps ?_ fun head => ?_
          · rintro same
            exact inner.1 (same ▸ List.mem_cons_of_mem _ (List.mem_map_of_mem member))
          · have equal : e.1 = f.1 := by simpa using head
            exact (List.nodup_cons.mp inner.2).1 (equal ▸ List.mem_map_of_mem member)
    · refine listed.bound e ?_
      rcases List.mem_append.mp member with early | late
      · simp [early]
      · simp [late]

end BermudaOS.Sys.VirtTimer
