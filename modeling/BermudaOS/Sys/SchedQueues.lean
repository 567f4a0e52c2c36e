import Mathlib.Data.Fintype.Card
import BermudaOS.Sys.SchedSystem

/-! The queue functions as edits of the lists. `BermudaThreadPrioQueueAdd` puts a
thread into one list and `BermudaThreadQueueRemove` takes it out of one, whatever
interrupts do between their critical sections. -/
namespace BermudaOS.Sys.Sched
open VirtTimer Lib.Chains Lib.Program

variable {u : Usage} {lock : Addr → Prop} {x y z : Links} {L M : Lists} {R Q : Rest} {k l : Kernel}
  {me t q : Addr} {r : Ref} {ws : List Addr}

theorem Still.trans (first : Still x y q ws) (second : Still y z q ws) : Still x z q ws :=
  ⟨second.word.trans first.word,second.count.trans first.count⟩

theorem Calm.still (calm : Calm u x y) (core : Core lock x L) (quiet : Quiet u q) :
    Still x y q (L.queue (.event q)) := by
  constructor
  · rcases calm.event q with same | ⟨noisy,_⟩
    · exact same
    · exact absurd quiet noisy
  · cases waiters : L.queue (.event q) with
    | nil => rfl
    | cons a rest =>
      rcases calm.ec a with same | ⟨real,p,noisy,head⟩
      · exact same
      · have inside : a ∈ L.queue (.event p) := by
          rcases core.head (r := .event p) trivial with ⟨signal,_⟩ | ⟨_,first⟩
          · exact absurd (Option.some.inj (head.symm.trans signal)) real
          · exact List.mem_of_head? (first.symm.trans head)
        have equal := core.alone (.event q) (.event p) a (by simp [waiters]) inside
        injection equal with equal
        exact absurd (equal ▸ quiet) noisy

theorem Calm.next (calm : Calm u x y) : y.next = x.next :=
  funext fun t => calm.link (.next t) (by simp)

theorem Calm.qNext (calm : Calm u x y) : y.qNext = x.qNext :=
  funext fun t => calm.link (.qNext t) (by simp)

theorem Loose.calm {p : Option Addr} (loose : Loose x L p) (calm : Calm u x y) : Loose y L p := by
  intro s known floating other
  rw [calm.next]
  exact loose s known floating other

theorem Loose.weaken {p : Option Addr} (loose : Loose x L none) : Loose x L p :=
  fun s known floating _ => loose s known floating (by simp)

theorem Loose.word {p o : Option Addr} (loose : Loose x L p)
    (link : y.link = Function.update x.link (.event q) o) : Loose y L p := by
  intro s known floating other
  rw [← loose s known floating other,Links.next,link,Function.update_of_ne (by simp)]
  rfl

theorem Loose.touch (loose : Loose x L (some t)) (touched : Touched x y L t) : Loose y L (some t) := by
  intro s known floating other
  have away : Ref.next s ≠ .next t := by simpa using other
  exact (touched.link (.next s) away (.inl (by simp))).trans (loose s known floating other)

theorem Loose.tie (loose : Loose x L (some t)) (last : x.next t = none) : Loose x L none := by
  intro s known floating _
  by_cases same : s = t
  · exact same ▸ last
  · exact loose s known floating (by simpa using same)

/-- A thread that leaves a queue may still have a successor. -/
theorem Loose.leave {before after : List Addr} (loose : Loose x L none) (rem : Removed x y r t before after)
    (queue : IsQueue r) (list : L.queue r = before ++ t::after) :
    Loose y (L.set r (before ++ after)) (some t) := by
  intro s known floating other
  have own : s ≠ t := by simpa using other
  have out : Floating L s := fun p inside => floating p ((others_remove list s own p).mpr inside)
  rw [← loose s known out (by simp)]
  refine rem.frame (front_queue queue s).symm fun b same early => ?_
  injection same with same
  exact out r (by simp [list,same,early])

theorem Loose.join {before after : List Addr} (loose : Loose x L (some t)) (ins : Inserted x y r t before after)
    (queue : IsQueue r) (list : L.queue r = before ++ after) :
    Loose y (L.set r (before ++ t::after)) none := by
  intro s known floating _
  have own : s ≠ t := fun same => floating r (by simp [Lists.set,same])
  have out : Floating L s := fun p inside => floating p ((others_insert list s own p).mpr inside)
  rw [← loose s known out (by simpa using own)]
  refine ins.frame (front_queue queue s).symm fun b same => ?_
  injection same with same
  exact same ▸ ⟨own,fun early => out r (by simp [list,early])⟩

theorem Ready.calm (ready : Ready x L r t) (calm : Calm u x y) : Ready y L r t := by
  refine ⟨ready.isQueue,ready.known,ready.old,ready.floating,?_,?_,?_⟩
  · rw [calm.queue]
    exact ready.queue
  · rw [calm.arrived]
    exact ready.latest
  · rw [calm.arrived,calm.clock]
    exact ready.stamped

theorem spot_cons (r : Ref) (b : Addr) (bs : List Addr) : spot r (b::bs) = spot (.next b) bs := by
  cases bs with
  | nil => rfl
  | cons c bs => simp [spot,List.getLast?_cons]

theorem spot_away {bs : List Addr} (front : ∀ s, r ≠ .next s) (absent : t ∉ bs) : spot r bs ≠ .next t := by
  rcases List.eq_nil_or_concat bs with rfl | ⟨ahead,b,split⟩
  · exact front t
  · rw [List.concat_eq_append] at split
    subst split
    rw [spot_append]
    rintro same
    injection same with same
    exact absent (by simp [same])

theorem prioWalk_spot (prio : Nat) {fuel : Nat} {r : Ref} {p : Option Addr} {ts : List Addr}
    (chain : Chain k.links.next p ts) (enough : ts.length ≤ fuel) :
    ∃ before after, ts = before ++ after ∧
      prioWalk k prio fuel r p = some (spot r before,after.head?) ∧
      (∀ b ∈ before, k.links.prio b ≤ prio) ∧ ∀ a, after.head? = some a → prio < k.links.prio a := by
  induction ts generalizing p r fuel with
  | nil =>
    obtain rfl : p = none := chain
    exact ⟨[],[],rfl,by cases fuel <;> rfl,by simp,by simp⟩
  | cons s ts ih =>
    obtain ⟨rfl,rest⟩ := chain
    obtain ⟨fuel,rfl⟩ : ∃ n, fuel = n + 1 := ⟨fuel - 1,by simp at enough; omega⟩
    by_cases passed : (k.thread s).prio ≤ prio
    · obtain ⟨before,after,rfl,walk,low,high⟩ :=
        ih (r := .next s) rest (by simp at enough ⊢; omega)
      refine ⟨s::before,after,rfl,?_,?_,high⟩
      · rw [prioWalk,if_pos passed,spot_cons]
        exact walk
      · exact List.forall_mem_cons.mpr ⟨passed,low⟩
    · refine ⟨[],s::ts,rfl,by rw [prioWalk,if_neg passed]; rfl,by simp,fun a head => ?_⟩
      obtain rfl := Option.some.inj head
      exact Nat.lt_of_not_le passed

theorem removeWalk_spot (fuel : Nat) {r : Ref} {p : Option Addr} {before after : List Addr}
    (chain : Chain k.links.next p (before ++ t::after)) (absent : t ∉ before)
    (enough : before.length < fuel) : removeWalk k t fuel r p = some (some (spot r before)) := by
  induction before generalizing p r fuel with
  | nil =>
    obtain ⟨rfl,_⟩ := chain
    obtain ⟨fuel,rfl⟩ : ∃ n, fuel = n + 1 := ⟨fuel - 1,by simp at enough; omega⟩
    simp [removeWalk,spot_nil]
  | cons b before ih =>
    obtain ⟨rfl,rest⟩ := chain
    obtain ⟨fuel,rfl⟩ : ∃ n, fuel = n + 1 := ⟨fuel - 1,by simp at enough; omega⟩
    have other : b ≠ t := fun same => absent (by simp [same])
    rw [removeWalk,if_neg other,spot_cons]
    exact ih fuel rest (fun member => absent (by simp [member])) (by simp at enough; omega)

theorem Core.length_le (core : Core lock x L) (queue : IsQueue r) :
    (L.queue r).length ≤ addrLimit := by
  have count := (core.nodup queue).length_le_card
  simpa [addrLimit] using count

theorem sorted_high {prio : Addr → Nat} {after before : List Addr} {bound : Nat}
    (sorted : (before ++ after).Pairwise (fun a b => prio a ≤ prio b))
    (first : ∀ a, after.head? = some a → bound < prio a) : ∀ a ∈ after, bound < prio a := by
  cases after with
  | nil => simp
  | cons h after =>
    have head := first h rfl
    have later := (List.pairwise_cons.mp (List.pairwise_append.mp sorted).2.1).1
    exact List.forall_mem_cons.mpr ⟨head,fun a late => head.trans_le (later a late)⟩

theorem Core.high {after before : List Addr} {prio : Nat} (core : Core lock x L)
    (list : L.queue r = before ++ after) (first : ∀ a, after.head? = some a → prio < x.prio a) :
    ∀ a ∈ after, prio < x.prio a := by
  have sorted : (before ++ after).Pairwise (fun a b => x.prio a ≤ x.prio b) := by
    rw [← list]
    refine (core.sorted r).imp fun {a b} order => ?_
    rcases order with less | ⟨equal,_⟩
    · exact less.le
    · exact equal.le
  exact sorted_high sorted first

theorem core_grown {b : Option Addr} (core : Core lock x {L with newborn := b})
    (born : b = none ∨ b = some t) (zero : x.ec t = 0) : Core lock x {L with newborn := none} := by
  refine ⟨core.chain,core.word,core.runWord,core.only,core.all,core.kill,core.real,core.known,
    core.alone,core.sorted,core.stamped,core.queued,?_,core.small,by simp,core.locks,core.still⟩
  intro s known _ events
  refine core.counts s known ?_ events
  rintro same
  rcases born with rfl | rfl
  · cases same
  · obtain rfl := Option.some.inj same
    exact events zero

section Add

variable {π : Type} {C : Contract Kernel Addr Op Int π} {op : Op}

theorem stepped_insert (me : Addr) {before after : List Addr} {m : Kernel} (here : At u L R l)
    (ready : Ready l.links L r t) (list : L.queue r = before ++ after)
    (ins : Inserted l.links m.links r t before after) (rest : m.rest = l.rest)
    (low : ∀ b ∈ before, l.links.prio b ≤ l.links.prio t)
    (high : ∀ a ∈ after, l.links.prio t < l.links.prio a)
    (held : ∀ q, r = .event q → t = me ∧ op.waits = some q ∧ (u.lock q → R.owners q ≠ [])) :
    Stepped u op me L (L.set r (before ++ t::after)) R R l m := by
  have busy : ∀ q, r = .event q → u.lock q → l.links.link r ≠ signaled := by
    rintro q rfl locked signal
    have free := (here.core.locks q locked).1.mp signal
    exact (held q rfl).2.2 locked (by rw [← here.rest]; exact free)
  refine ⟨here,⟨core_insert here.core ready list ins low high busy,rest.trans here.rest,here.young⟩,
    fun q => moved_insert here.core ready list ins low high fun same => (held q same).1,fun _ _ => rfl,
    fun _ _ => rfl,fun _ _ _ => rfl,fun q _ free taken => absurd free taken,
    fun q _ _ changed => absurd rfl changed,fun q out inside => ?_⟩
  by_cases same : r = .event q
  · exact (held q same).2.1
  · refine absurd ?_ out
    simpa [Lists.set,Ne.symm same] using inside

theorem place_inserted {m : Kernel} {before after : List Addr} (absent : spot r before ≠ .next t)
    (quiet : m.link r ≠ signaled) (zero : m.links.ec t = 0) :
    Inserted m.links (place (spot r before) after.head? t m).links r t before after := by
  obtain ⟨placed,-⟩ := place_links (p := after.head?) m absent
  have same : Function.update m.links.ec t 0 = m.links.ec := Function.update_eq_self_iff.mpr zero.symm
  rw [placed]
  refine ⟨rfl,?_,rfl,rfl,rfl,rfl,rfl⟩
  rw [if_neg (show ¬m.links.link r = signaled from quiet),same]

/-- A signaled queue leaves the thread its event. -/
theorem place_signaled {m : Kernel} (front : r ≠ .next t) (signal : m.link r = signaled) (zero : m.links.ec t = 0) :
    Inserted m.links (place r none t (m.setEc t (((m.thread t).ec + 1) % 2^8))).links r t [] [] := by
  obtain ⟨placed,-⟩ := place_links (p := none) (m.setEc t (((m.thread t).ec + 1) % 2^8)) front
  rw [placed,show (m.thread t).ec = 0 from zero]
  refine ⟨rfl,?_,by simp,by simp,rfl,rfl,rfl⟩
  rw [if_pos (show m.links.link r = signaled from signal),Kernel.links_setEc]
  rfl

theorem enterQueue_inserted (core : Core lock l.links L) (ready : Ready l.links L r t)
    (empty : L.queue r = []) :
    Inserted l.links (enterQueue r t l).links r t [] [] ∧ (enterQueue r t l).rest = l.rest := by
  have zero : l.links.ec t = 0 := core.idle_ec ready.floating ready.known ready.old
  have front : r ≠ .next t := front_queue ready.isQueue t
  unfold enterQueue
  rcases core.head ready.isQueue with ⟨signal,_⟩ | ⟨busy,head⟩
  · rw [if_pos (show l.link r = signaled from signal)]
    refine ⟨place_signaled front signal zero,?_⟩
    rw [(place_links _ front).2,Kernel.rest_setEc]
  · rw [empty] at head
    rw [if_neg (show ¬l.link r = signaled from busy),if_pos (show l.link r = none from head)]
    have inserted : Inserted l.links (place (spot r []) ([] : List Addr).head? t l).links r t [] [] :=
      place_inserted front busy zero
    exact ⟨inserted,(place_links _ front).2⟩

theorem addBorn_meets {b : Option Addr} (follows : Follows u op me C)
    (here : At u {L with newborn := b} Q k) (adult : {Q with creating := none} = R)
    (born : b = none ∨ b = some t)
    (grown : L.newborn = none) (queue : IsQueue r) (known : t ∈ L.all) (floating : Floating L t)
    (held : ∀ q, r = .event q → t = me ∧ op.waits = some q ∧ (u.lock q → R.owners q ≠ [])) :
    Meets (scheduler u) C op me (bermudaThreadPrioQueueAdd r t) (fun _ l => ∃ before after,
      L.queue r = before ++ after ∧ At u (L.set r (before ++ t::after)) R l ∧
      (∀ q, Quiet u q → r ≠ .event q → Still k.links l.links q (L.queue (.event q))) ∧
      (Loose k.links L (some t) → Loose l.links (L.set r (before ++ t::after)) none)) k := by
  have grownUp : {L with newborn := none} = L := by
    rw [← grown]
  have old : L.newborn ≠ some t := by simp [grown]
  unfold bermudaThreadPrioQueueAdd
  refine meets_bind (meets_at follows here fun l there calm => ?_)
  -- the thread is prepared
  set m := ((l.setEc t 0).setQueue t (some r)).stamp t with hm
  have touched : Touched l.links m.links {L with newborn := b} t := by
    simp only [hm,Kernel.links_stamp,Kernel.links_setQueue,Kernel.links_setEc]
    refine ⟨fun _ _ _ => rfl,fun _ => rfl,fun _ _ => rfl,?_,?_,?_,rfl,Nat.le_succ _⟩
    · exact fun s other => Function.update_of_ne other _ _
    · exact fun s other => Function.update_of_ne other _ _
    · exact fun s other => Function.update_of_ne other _ _
  have zero : m.links.ec t = 0 := by simp [hm]
  have core₁ := core_touch there.core floating touched fun _ _ => zero
  have core₂ : Core u.lock m.links L := grownUp ▸ core_grown core₁ born zero
  have rest₁ : m.rest = R := by
    rw [← adult,← there.rest]
    simp [hm]
  have here₁ : At u L R m := ⟨core₂,rest₁,by rw [grown,← adult]⟩
  have ready₁ : Ready m.links L r t := by
    refine ⟨queue,known,old,floating,by simp [hm],fun s v inside => ?_,?_⟩
    · have apart : v ≠ t := fun same => floating s (same ▸ inside)
      have before := there.core.stamped s v inside
      simp only [hm,Kernel.links_stamp,Function.update_self,Function.update_of_ne apart]
      exact before
    · simp only [hm,Kernel.links_stamp,Function.update_self]
      exact Nat.lt_succ_self _
  have still₁ (q : Addr) (quiet : Quiet u q) : Still k.links m.links q (L.queue (.event q)) :=
    (calm.still here.core quiet).trans (touched.still floating)
  have loose₁ (loose : Loose k.links L (some t)) : Loose m.links L (some t) :=
    Loose.touch (L := {L with newborn := b}) (loose.calm calm) touched
  have waiting : R.waiting = Q.waiting ∧ R.settled = Q.settled ∧ R.thTimer = Q.thTimer ∧
      R.owners = Q.owners := by
    rw [← adult]
    exact ⟨rfl,rfl,rfl,rfl⟩
  refine ⟨⟨L,R,there,here₁,fun q => moved_touch floating touched,fun t _ => congrFun waiting.1 t,
    fun t _ => congrFun waiting.2.1 t,fun t _ _ => congrFun waiting.2.2.1 t,
    within_same waiting.2.2.2 fun _ inside => inside⟩,?_⟩
  clear_value m
  refine meets_bind (meets_at follows here₁ fun l there calm => ?_)
  have ready := ready₁.calm calm
  have still₂ (q : Addr) (quiet : Quiet u q) : Still k.links l.links q (L.queue (.event q)) :=
    (still₁ q quiet).trans (calm.still here₁.core quiet)
  cases list : L.queue r with
  | nil =>
    obtain ⟨ins,rest⟩ := enterQueue_inserted there.core ready list
    have stepped := stepped_insert me there ready (show L.queue r = [] ++ [] from list) ins rest
      (by simp) (by simp) held
    refine ⟨⟨_,_,stepped⟩,?_⟩
    have word : l.link r = signaled ∨ l.link r = none := by
      rcases there.core.head queue with ⟨signal,_⟩ | ⟨_,head⟩
      · exact .inl signal
      · rw [list] at head
        exact .inr head
    rw [if_pos word]
    exact meets_pure ⟨[],[],rfl,stepped.after,fun q quiet other =>
      (still₂ q quiet).trans (ins.still there.core ready list (Ne.symm other)),fun loose =>
      ((loose₁ loose).calm calm).join ins queue list⟩
  | cons h ts =>
    have head : l.links.link r = some h := there.core.first queue list
    have busy : l.links.link r ≠ signaled := there.core.unsignaled queue (by simp [list])
    have same : enterQueue r t l = l := by
      unfold enterQueue
      rw [if_neg (show l.link r ≠ signaled from busy),
        if_neg (show l.link r ≠ none from fun empty => by simpa using head.symm.trans empty)]
    rw [same]
    refine ⟨⟨L,R,stepped_same there⟩,?_⟩
    have further : ¬(l.link r = signaled ∨ l.link r = none) := by
      rintro (signal | empty)
      · exact busy signal
      · simpa using head.symm.trans empty
    rw [if_neg further]
    refine meets_bind (meets_get follows there fun l₃ there₃ calm₃ => ?_)
    have chain := there₃.core.chain r queue (there₃.core.unsignaled queue (by simp [list]))
    rw [there₃.core.first queue list,← head] at chain
    obtain ⟨before,after,split,walk,low,high⟩ := prioWalk_spot (r := r)
      (l₃.thread t).prio chain (there₃.core.length_le queue)
    rw [show l.link r = l.links.link r from rfl,walk]
    refine meets_at follows there₃ fun l₄ there₄ calm₄ => ?_
    have ready₄ := (ready.calm calm₃).calm calm₄
    have absent : t ∉ before := fun early => floating r (by simp [split,early])
    obtain ⟨links,rest⟩ := place_links (r := spot r before) (p := after.head?) l₄ (spot_away (front_queue queue) absent)
    have ins : Inserted l₄.links (place (spot r before) after.head? t l₄).links r t before after := by
      rw [links]
      refine ⟨rfl,?_,rfl,rfl,rfl,rfl,rfl⟩
      have idle := there₄.core.idle_ec floating known old
      have same : Function.update l₄.links.ec t 0 = l₄.links.ec :=
        Function.update_eq_self_iff.mpr idle.symm
      rw [if_neg (there₄.core.unsignaled queue (by simp [list])),same]
    have stepped := stepped_insert me there₄ ready₄ split ins rest
      (by rw [calm₄.prio]; exact low)
      (there₄.core.high split (by rw [calm₄.prio]; exact high)) held
    refine ⟨⟨_,_,stepped⟩,before,after,list ▸ split,stepped.after,fun q quiet other => ?_,fun loose =>
      ((((loose₁ loose).calm calm).calm calm₃).calm calm₄).join ins queue split⟩
    exact (((still₂ q quiet).trans (calm₃.still there.core quiet)).trans
      (calm₄.still there₃.core quiet)).trans (ins.still there₄.core ready₄ split (Ne.symm other))

theorem add_meets (follows : Follows u op me C) (here : At u L R k) (grown : L.newborn = none)
    (queue : IsQueue r) (known : t ∈ L.all) (floating : Floating L t)
    (held : ∀ q, r = .event q → t = me ∧ op.waits = some q ∧ (u.lock q → R.owners q ≠ [])) :
    Meets (scheduler u) C op me (bermudaThreadPrioQueueAdd r t) (fun _ l => ∃ before after,
      L.queue r = before ++ after ∧ At u (L.set r (before ++ t::after)) R l ∧
      (∀ q, Quiet u q → r ≠ .event q → Still k.links l.links q (L.queue (.event q))) ∧
      (Loose k.links L (some t) → Loose l.links (L.set r (before ++ t::after)) none)) k := by
  have lists : {L with newborn := none} = L := by
    rw [← grown]
  have adult : {R with creating := none} = R := by
    rw [← here.young.symm.trans grown]
  exact addBorn_meets (b := none) follows (lists.symm ▸ here) adult (.inl rfl) grown queue known floating
    held

end Add

theorem tmoWalk_spot (timer : Addr) {fuel : Nat} {r : Ref} {p : Option Addr} {ts : List Addr}
    (chain : Chain k.links.next p ts) (enough : ts.length ≤ fuel) :
    tmoWalk k timer fuel r p = some none ∧ (∀ s ∈ ts, (k.thread s).thTimer ≠ some timer) ∨
    ∃ before t after, ts = before ++ t::after ∧ (k.thread t).thTimer = some timer ∧
      tmoWalk k timer fuel r p = some (some (spot r before,t)) := by
  induction ts generalizing p r fuel with
  | nil =>
    obtain rfl : p = none := chain
    exact .inl ⟨by cases fuel <;> rfl,by simp⟩
  | cons s ts ih =>
    obtain ⟨rfl,rest⟩ := chain
    obtain ⟨fuel,rfl⟩ : ∃ n, fuel = n + 1 := ⟨fuel - 1,by simp at enough; omega⟩
    by_cases found : (k.thread s).thTimer = some timer
    · exact .inr ⟨[],s,ts,rfl,found,by rw [tmoWalk,if_pos found]; rfl⟩
    · rw [tmoWalk,if_neg found]
      rcases ih (r := .next s) rest (by simp at enough ⊢; omega) with ⟨walk,missing⟩ | other
      · exact .inl ⟨walk,List.forall_mem_cons.mpr ⟨found,missing⟩⟩
      · obtain ⟨before,t,after,rfl,timed,walk⟩ := other
        exact .inr ⟨s::before,t,after,rfl,timed,by rw [spot_cons]; exact walk⟩

theorem Core.onward {before after : List Addr} (core : Core lock x L) (queue : IsQueue r)
    (list : L.queue r = before ++ t::after) : x.next t = after.head? := by
  have chain := core.chain r queue (core.unsignaled queue (by simp [list]))
  rw [list] at chain
  obtain ⟨_,_,_,rest⟩ := (seg_append _ _ _ _ _).mp chain
  exact chain_head rest

theorem detach_removed {before after : List Addr} (core : Core lock k.links L) (queue : IsQueue r)
    (list : L.queue r = before ++ t::after) :
    Removed k.links (detach (spot r before) t k).links r t before after ∧
      (detach (spot r before) t k).rest = k.rest := by
  have next : k.next t = after.head? := core.onward queue list
  have nodup := core.nodup queue
  rw [list] at nodup
  unfold detach
  by_cases zero : (k.thread t).ec = 0
  · have none_pending : ((k.setLink (spot r before) (k.next t)).thread t).ec = 0 := zero
    rw [if_pos none_pending]
    refine ⟨⟨?_,fun v => ?_,rfl,rfl,rfl,rfl⟩,rfl⟩
    · rw [if_neg fun both => both.2 zero,← next]
      rfl
    · by_cases own : v = t
      · subst own
        rw [if_pos rfl]
        exact zero
      · rw [if_neg own,if_neg fun both => both.2 zero]
        rfl
  · have events : ((k.setLink (spot r before) (k.next t)).thread t).ec ≠ 0 := zero
    rw [if_neg events]
    have onward : (k.setLink (spot r before) (k.next t)).next t = after.head? := by
      have away : Ref.next t ≠ spot r before := by
        refine (spot_away (front_queue queue) fun early => ?_).symm
        exact (List.nodup_append.mp nodup).2.2 t early t (by simp) rfl
      simp [Kernel.next,Kernel.setLink,away]
      exact next
    rw [onward]
    cases after with
    | nil =>
      refine ⟨⟨?_,fun v => ?_,by simp,by simp,by simp,by simp⟩,by simp⟩
      · rw [if_pos ⟨rfl,zero⟩]
        exact Function.update_idem _ _ _
      · by_cases own : v = t <;> simp [own]
    | cons n after =>
      have apart : n ≠ t := by
        rintro rfl
        simp [List.nodup_append] at nodup
      dsimp only [List.head?_cons]
      refine ⟨⟨?_,fun v => ?_,by simp,by simp,by simp,by simp⟩,by simp⟩
      · rw [if_neg (by simp),next]
        rfl
      · by_cases own : v = t
        · simp [own]
        · by_cases first : n = v
          · subst first
            have count : k.links.ec t ≠ 0 := zero
            simp [own,count]
            rfl
          · simp [own,first,Ne.symm first]

theorem Core.run_ec (core : Core lock x L) (inside : t ∈ L.queue .bermudaRunQueue) : x.ec t = 0 := by
  by_contra events
  obtain ⟨q,rest,list⟩ := core.counts t (core.known _ t inside) (core.old inside) events
  have absurd := core.alone .bermudaRunQueue (.event q) t inside (by simp [list])
  cases absurd

theorem Core.split (core : Core lock x L) (inside : t ∈ L.queue r) :
    ∃ before after, L.queue r = before ++ t::after ∧ t ∉ before ∧ t ∉ before ++ after := by
  obtain ⟨before,after,list⟩ := List.append_of_mem inside
  have nodup := core.nodup (core.isQueue inside)
  rw [list] at nodup
  have gone := (List.nodup_cons.mp ((List.perm_middle.nodup_iff).mp nodup)).1
  exact ⟨before,after,list,fun early => gone (by simp [early]),gone⟩

theorem set_floating {before after : List Addr} (core : Core lock x L)
    (list : L.queue r = before ++ t::after) : Floating (L.set r (before ++ after)) t := by
  intro s inside
  have member : t ∈ L.queue r := by simp [list]
  have nodup := core.nodup (core.isQueue member)
  rw [list] at nodup
  by_cases same : s = r
  · subst same
    refine (List.nodup_cons.mp ((List.perm_middle.nodup_iff).mp nodup)).1 ?_
    simpa [Lists.set] using inside
  · have other : t ∈ L.queue s := by simpa [Lists.set,same] using inside
    exact same (core.alone s r t other member)

section Remove

variable {π : Type} {C : Contract Kernel Addr Op Int π} {op : Op}

theorem remove_meets (follows : Follows u op me C) (here : At u L R k)
    (inside : t ∈ L.queue .bermudaRunQueue) :
    Meets (scheduler u) C op me (bermudaThreadQueueRemove .bermudaRunQueue t) (fun _ l =>
      ∃ before after, L.queue .bermudaRunQueue = before ++ t::after ∧
        At u (L.set .bermudaRunQueue (before ++ after)) R l ∧ l.links.next t = none ∧
        (Loose k.links L none → Loose l.links (L.set .bermudaRunQueue (before ++ after)) none)) k := by
  have queue : IsQueue .bermudaRunQueue := trivial
  obtain ⟨before,after,list,absent,_⟩ := here.core.split inside
  refine meets_bind (meets_get follows here fun l there calm => ?_)
  have busy : l.link .bermudaRunQueue ≠ signaled := there.core.runWord
  rw [if_neg busy]
  refine meets_bind (meets_get follows there fun l₂ there₂ calm₂ => ?_)
  have chain := there₂.core.chain _ queue there₂.core.runWord
  have same : l₂.links.link .bermudaRunQueue = l.links.link .bermudaRunQueue :=
    calm₂.link _ (by simp)
  have long := there₂.core.length_le queue
  rw [same,list] at chain
  rw [list] at long
  have walk := removeWalk_spot (r := .bermudaRunQueue) addrLimit chain absent
    (by simp at long; omega)
  rw [show l.link .bermudaRunQueue = l.links.link .bermudaRunQueue from rfl,walk]
  refine meets_bind (meets_at follows there₂ fun l₃ there₃ calm₃ => ?_)
  have zero : (l₃.thread t).ec = 0 := there₃.core.run_ec inside
  have cut_detach : cut (spot .bermudaRunQueue before) t l₃ = detach (spot .bermudaRunQueue before) t l₃ := by
    have same : ((l₃.setLink (spot .bermudaRunQueue before) (l₃.next t)).thread t).ec = 0 := zero
    rw [cut,detach,if_pos same,if_pos same]
  rw [cut_detach]
  obtain ⟨rem,rest⟩ := detach_removed there₃.core queue list
  set m := detach (spot .bermudaRunQueue before) t l₃ with hm
  have owners : m.links.owners = l₃.links.owners := congrArg Rest.owners rest
  have after₃ : At u (L.set .bermudaRunQueue (before ++ after)) R m := by
    refine ⟨core_remove there₃.core queue list rem fun q locked => ?_,rest.trans there₃.rest,there₃.young⟩
    rw [owners]
    exact ⟨Iff.rfl,(there₃.core.locks q locked).2⟩
  refine ⟨⟨_,_,there₃,after₃,fun q => ?_,fun _ _ => rfl,fun _ _ => rfl,fun _ _ _ => rfl,
    within_same rfl fun q inside => ?_⟩,?_⟩
  · exact moved_other there₃.core list rem (by rw [owners]) (by simp)
  · simpa [Lists.set] using inside
  · clear_value m
    refine meets_at follows after₃ fun l₄ there₄ calm₄ => ?_
    have floating := set_floating there₃.core list
    set n := (l₄.setLink (.next t) none).setQueue t none with hn
    have touched : Touched l₄.links n.links (L.set .bermudaRunQueue (before ++ after)) t := by
      simp only [hn,Kernel.links_setQueue,Kernel.links_setLink]
      refine ⟨fun s other _ => Function.update_of_ne other _ _,fun _ => ?_,fun _ _ => rfl,fun _ _ => rfl,
        fun s other => Function.update_of_ne other _ _,fun _ _ => rfl,rfl,le_rfl⟩
      change Function.update l₄.link (.next t) none (.qNext t) = l₄.link (.qNext t)
      simp
    have last : At u (L.set .bermudaRunQueue (before ++ after)) R n := by
      refine ⟨core_touch there₄.core floating touched fun known old => ?_,?_,there₄.young⟩
      · have idle := there₄.core.idle_ec floating known old
        simpa [hn] using idle
      · rw [← there₄.rest]
        simp [hn]
    refine ⟨⟨_,_,there₄,last,fun q => moved_touch floating touched,fun _ _ => rfl,fun _ _ => rfl,
      fun _ _ _ => rfl,within_same rfl fun _ inside => inside⟩,before,after,list,last,?_⟩
    have off : n.links.next t = none := by simp [hn,Links.next]
    refine ⟨off,fun loose => ?_⟩
    have left := (((loose.calm calm).calm calm₂).calm calm₃).leave rem queue list
    exact ((left.calm calm₄).touch touched).tie off

end Remove

end BermudaOS.Sys.Sched
