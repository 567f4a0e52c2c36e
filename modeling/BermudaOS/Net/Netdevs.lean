import Mathlib.Data.List.Basic
import BermudaOS.Lib.Chains
import BermudaOS.Net.TokenBucket

/-! The list of network devices, `netif_init` and `netif_init_dev` of `net/core/dev.c`. A name is the
string that `strcmp` reads at the device, and ends there. -/
namespace BermudaOS.Net.Netdevs
open Lib.Chains TokenBucket

inductive Processor
  | tx
  | rx
  deriving DecidableEq,Repr

structure Devices where
  next : Ptr → Option Ptr
  name : Ptr → List UInt8
  devRoot : Option Ptr
  /-- The threads that were created, each for its queue. -/
  created : List Processor

def DEV_NULL : Int := 2

def DEV_ALREADY_INITIALIZED : Int := 4

def netifInit (net : Devices) (dev : Option Ptr) : Devices × Int :=
  if net.devRoot ≠ none then (net,-DEV_ALREADY_INITIALIZED)
  else match dev with
    | none => (net,-DEV_NULL)
    | some dev =>
      let net := {net with created := net.created ++ [Processor.tx,Processor.rx]}
      ({net with devRoot := some dev,next := Function.update net.next dev none},0)

/-- `__netif_init_dev`, which does nothing yet. -/
def initDev (_dev : Ptr) : Int := -1

def Devices.linkBehind (net : Devices) (car dev : Ptr) : Devices :=
  let net := {net with next := Function.update net.next car (some dev)}
  {net with next := Function.update net.next dev none}

/-- The loop of `netif_init_dev`. Its condition reads `car->next` before it compares `car` with `NULL`; it is
false for the null pointer whatever is read there. -/
def initDevWalk (dev : Ptr) : Nat → Devices → Option Ptr → Option (Devices × Int)
  | _,net,none => some (net,-1)
  | 0,_,some _ => none
  | n+1,net,some car =>
    if net.next car = some car then some (net,-1)
    else if car = dev then some (net,-DEV_ALREADY_INITIALIZED)
    else if net.name dev = net.name car then some (net,-DEV_ALREADY_INITIALIZED)
    else if net.next car = none then some (net.linkBehind car dev,initDev dev)
    else initDevWalk dev n net (net.next car)

def netifInitDev (net : Devices) (dev : Ptr) : Option (Devices × Int) := initDevWalk dev addressSpace net net.devRoot

inductive Call
  | init (dev : Option Ptr)
  | initDev (dev : Ptr)

def Call.perform (net : Devices) : Call → Option (Devices × Int)
  | .init dev => some (netifInit net dev)
  | .initDev dev => netifInitDev net dev

/-- What a call makes of the list of devices, and what it returns. -/
def Call.outcome (name : Ptr → List UInt8) (xs : List Ptr) : Call → List Ptr × Int
  | .init dev =>
    if xs ≠ [] then (xs,-DEV_ALREADY_INITIALIZED)
    else match dev with
      | none => ([],-DEV_NULL)
      | some dev => ([dev],0)
  | .initDev dev =>
    if xs = [] then ([],-1)
    else if ∃ car ∈ xs, name dev = name car then (xs,-DEV_ALREADY_INITIALIZED)
    else (xs ++ [dev],-1)

def run : Devices → List Call → Option (Devices × List Int)
  | net,[] => some (net,[])
  | net,call::calls => do
    let (net,rc) ← call.perform net
    let (net,rcs) ← run net calls
    return (net,rc::rcs)

def outcomes (name : Ptr → List UInt8) : List Ptr → List Call → List Ptr × List Int
  | xs,[] => (xs,[])
  | xs,call::calls =>
    let rest := outcomes name (call.outcome name xs).1 calls
    (rest.1,(call.outcome name xs).2::rest.2)

/-- The devices of the list, which have different names. The two threads are there if and only if a device is. -/
structure Listed (net : Devices) (xs : List Ptr) : Prop where
  chain : Chain net.next net.devRoot xs
  names : (xs.map net.name).Nodup
  threads : net.created = if xs = [] then [] else [.tx,.rx]

/-- A call keeps the names and what is in the devices that are not listed. -/
structure Kept (net after : Devices) (ys : List Ptr) : Prop where
  name : after.name = net.name
  others : ∀ d, d ∉ ys → after.next d = net.next d

variable {net after : Devices} {xs before behind : List Ptr} {dev car : Ptr} {p : Option Ptr} {n : Nat}

theorem listed_root (listed : Listed net xs) : net.devRoot = none ↔ xs = [] := by
  rw [chain_head listed.chain,List.head?_eq_none_iff]

theorem kept_refl (net : Devices) (ys : List Ptr) : Kept net net ys := ⟨rfl,fun _ _ => rfl⟩

theorem netifInit_listed (listed : Listed net xs) (dev : Option Ptr) :
    (netifInit net dev).2 = ((Call.init dev).outcome net.name xs).2 ∧
      Listed (netifInit net dev).1 ((Call.init dev).outcome net.name xs).1 ∧
      Kept net (netifInit net dev).1 ((Call.init dev).outcome net.name xs).1 := by
  by_cases empty : xs = []
  · subst empty
    have root : net.devRoot = none := by rw [listed_root listed]
    cases dev with
    | none =>
      have result : netifInit net none = (net,-DEV_NULL) := by simp [netifInit,root]
      rw [result]
      exact ⟨rfl,listed,kept_refl net []⟩
    | some d =>
      have free : ¬net.devRoot ≠ none := not_not_intro root
      have due : (Call.init (some d)).outcome net.name [] = ([d],0) := rfl
      have last : Function.update net.next d none d = none := Function.update_self ..
      rw [due]
      simp only [netifInit,if_neg free]
      refine ⟨trivial,⟨⟨rfl,last⟩,List.nodup_singleton _,?_⟩,rfl,?_⟩
      · have threads : net.created = [] := listed.threads
        rw [threads]
        rfl
      · intro e outside
        apply Function.update_of_ne
        rintro rfl
        exact outside (List.mem_singleton_self _)
  · have root : net.devRoot ≠ none := by
      rw [ne_eq,listed_root listed]
      exact empty
    have result : netifInit net dev = (net,-DEV_ALREADY_INITIALIZED) := if_pos root
    have due : (Call.init dev).outcome net.name xs = (xs,-DEV_ALREADY_INITIALIZED) := if_pos empty
    rw [result,due]
    exact ⟨rfl,listed,kept_refl net xs⟩

/-- The walk goes past a device with another name that is not the last. -/
theorem walk_passes (chain : Chain net.next (some car) (car::behind)) (more : behind ≠ [])
    (other : net.name dev ≠ net.name car) (n : Nat) :
    initDevWalk dev (n + 1) net (some car) = initDevWalk dev n net (net.next car) := by
  have loop : net.next car ≠ some car := chain_irrefl chain (by simp)
  have apart : car ≠ dev := by
    rintro rfl
    exact other rfl
  have onward : net.next car ≠ none := by
    rw [chain_head chain.2,ne_eq,List.head?_eq_none_iff]
    exact more
  rw [initDevWalk,if_neg loop,if_neg apart,if_neg other,if_neg onward]

/-- The walk stops at the first device with the name. -/
theorem walk_known (chain : Chain net.next p (before ++ car::behind)) (same : net.name dev = net.name car)
    (others : ∀ b ∈ before, net.name dev ≠ net.name b) (enough : before.length < n) :
    initDevWalk dev n net p = some (net,-DEV_ALREADY_INITIALIZED) := by
  induction before generalizing p n with
  | nil =>
    obtain ⟨n,rfl⟩ := Nat.exists_eq_add_one_of_ne_zero (Nat.ne_zero_of_lt enough)
    have loop : net.next car ≠ some car := chain_irrefl chain (by simp)
    obtain ⟨rfl,-⟩ := chain
    rw [initDevWalk,if_neg loop]
    by_cases here : car = dev
    · rw [if_pos here]
    · rw [if_neg here,if_pos same]
  | cons b before ih =>
    obtain ⟨n,rfl⟩ := Nat.exists_eq_add_one_of_ne_zero (Nat.ne_zero_of_lt enough)
    obtain ⟨rfl,rest⟩ := chain
    rw [walk_passes ⟨rfl,rest⟩ (by simp) (others b (by simp))]
    exact ih rest (fun c member => others c (by simp [member])) (Nat.lt_of_succ_lt_succ enough)

/-- The walk goes to the last device when no device has the name. -/
theorem walk_new (chain : Chain net.next p (before ++ [car])) (others : ∀ b ∈ before ++ [car], net.name dev ≠ net.name b)
    (enough : before.length < n) :
    initDevWalk dev n net p = some (net.linkBehind car dev,-1) := by
  induction before generalizing p n with
  | nil =>
    obtain ⟨n,rfl⟩ := Nat.exists_eq_add_one_of_ne_zero (Nat.ne_zero_of_lt enough)
    have other := others car (by simp)
    obtain ⟨rfl,last⟩ := chain
    rw [seg_nil] at last
    have apart : car ≠ dev := by
      rintro rfl
      exact other rfl
    rw [initDevWalk,last,if_neg (by simp),if_neg apart,if_neg other,if_pos rfl]
    rfl
  | cons b before ih =>
    obtain ⟨n,rfl⟩ := Nat.exists_eq_add_one_of_ne_zero (Nat.ne_zero_of_lt enough)
    obtain ⟨rfl,rest⟩ := chain
    rw [walk_passes ⟨rfl,rest⟩ (by simp) (others b (by simp))]
    exact ih rest (fun c member => others c (by simp [member])) (Nat.lt_of_succ_lt_succ enough)

theorem linkBehind_new (net : Devices) (car dev : Ptr) : (net.linkBehind car dev).next dev = none :=
  Function.update_self ..

theorem linkBehind_last (net : Devices) (apart : car ≠ dev) : (net.linkBehind car dev).next car = some dev := by
  simp only [Devices.linkBehind]
  rw [Function.update_of_ne apart,Function.update_self]

theorem linkBehind_other (net : Devices) {d : Ptr} (last : d ≠ car) (new : d ≠ dev) :
    (net.linkBehind car dev).next d = net.next d := by
  simp only [Devices.linkBehind]
  rw [Function.update_of_ne new,Function.update_of_ne last]

theorem linkBehind_listed (listed : Listed net (before ++ [car])) (fresh : ∀ b ∈ before ++ [car], net.name dev ≠ net.name b) :
    Listed (net.linkBehind car dev) (before ++ [car] ++ [dev]) ∧
      Kept net (net.linkBehind car dev) (before ++ [car] ++ [dev]) := by
  have outside : ∀ b ∈ before ++ [car], b ≠ dev := by
    rintro b member rfl
    exact fresh b member rfl
  have nodup := chain_nodup listed.chain
  have early : ∀ b ∈ before, b ≠ car := fun b member => (List.nodup_append.mp nodup).2.2 b member car (by simp)
  refine ⟨⟨?_,?_,?_⟩,rfl,?_⟩
  · obtain ⟨r,front,start,-⟩ := (seg_append net.next _ none before [car]).mp listed.chain
    rw [List.append_assoc,Chain,seg_append]
    refine ⟨r,seg_congr front ?_,start,linkBehind_last net (outside car (by simp)),linkBehind_new net car dev⟩
    intro b member
    exact linkBehind_other net (early b member) (outside b (by simp [member]))
  · rw [List.map_append,List.nodup_append]
    refine ⟨listed.names,List.nodup_singleton _,?_⟩
    intro x member y single same
    obtain ⟨b,listed,rfl⟩ := List.mem_map.mp member
    rw [List.map_singleton,List.mem_singleton] at single
    exact fresh b listed (single.symm.trans same.symm)
  · have threads := listed.threads
    rw [if_neg (by simp)] at threads ⊢
    exact threads
  · intro d outer
    simp only [List.mem_append,List.mem_singleton,not_or] at outer
    exact linkBehind_other net outer.1.2 outer.2

theorem listed_short (listed : Listed net xs) : xs.length < addressSpace := nonnull_length (chain_nodup listed.chain)

theorem netifInitDev_listed (listed : Listed net xs) (dev : Ptr) : ∃ after,
    netifInitDev net dev = some (after,((Call.initDev dev).outcome net.name xs).2) ∧
      Listed after ((Call.initDev dev).outcome net.name xs).1 ∧ Kept net after ((Call.initDev dev).outcome net.name xs).1 := by
  have short := listed_short listed
  simp only [Call.outcome,netifInitDev]
  by_cases empty : xs = []
  · have root : net.devRoot = none := by
      rw [listed_root listed]
      exact empty
    rw [if_pos empty,root]
    exact ⟨net,rfl,empty ▸ listed,kept_refl net []⟩
  · rw [if_neg empty]
    by_cases known : ∃ car ∈ xs, net.name dev = net.name car
    · rw [if_pos known]
      -- the names differ, so the device with the name is the first with it
      obtain ⟨car,member,same⟩ := known
      obtain ⟨before,behind,rfl⟩ := List.append_of_mem member
      refine ⟨net,walk_known listed.chain same ?_ ?_,listed,kept_refl net _⟩
      · intro b early equal
        have names := listed.names
        rw [List.map_append,List.nodup_append] at names
        exact names.2.2 _ (List.mem_map_of_mem early) (net.name car) (by simp) (equal.symm.trans same)
      · simp only [List.length_append] at short
        omega
    · rw [if_neg known]
      obtain ⟨before,car,rfl⟩ : ∃ before car, xs = before ++ [car] :=
        ⟨xs.dropLast,xs.getLast empty,(List.dropLast_append_getLast empty).symm⟩
      have others : ∀ b ∈ before ++ [car], net.name dev ≠ net.name b := by
        intro b member equal
        exact known ⟨b,member,equal⟩
      have enough : before.length < addressSpace := by
        simp only [List.length_append] at short
        omega
      obtain ⟨next,kept⟩ := linkBehind_listed listed others
      exact ⟨_,walk_new listed.chain others enough,next,kept⟩

theorem perform_listed (listed : Listed net xs) (call : Call) : ∃ after,
    call.perform net = some (after,(call.outcome net.name xs).2) ∧ Listed after (call.outcome net.name xs).1 ∧
      Kept net after (call.outcome net.name xs).1 := by
  cases call with
  | init dev =>
    obtain ⟨returned,next,kept⟩ := netifInit_listed listed dev
    exact ⟨(netifInit net dev).1,by rw [← returned]; rfl,next,kept⟩
  | initDev dev => exact netifInitDev_listed listed dev

/-- No device leaves the list. -/
theorem outcome_grows (name : Ptr → List UInt8) (call : Call) : xs ⊆ (call.outcome name xs).1 := by
  cases call with
  | init dev =>
    by_cases empty : xs = []
    · rw [empty]
      exact List.nil_subset _
    · have due : (Call.init dev).outcome name xs = (xs,-DEV_ALREADY_INITIALIZED) := if_pos empty
      rw [due]
      exact List.Subset.refl xs
  | initDev dev =>
    simp only [Call.outcome]
    split
    · rename_i empty
      rw [empty]
      exact List.nil_subset _
    · split
      · exact List.Subset.refl xs
      · exact List.subset_append_left xs [dev]

theorem outcomes_grow (name : Ptr → List UInt8) (calls : List Call) : xs ⊆ (outcomes name xs calls).1 := by
  induction calls generalizing xs with
  | nil => exact List.Subset.refl xs
  | cons call calls ih => exact List.Subset.trans (outcome_grows name call) ih

theorem run_listed (listed : Listed net xs) (calls : List Call) : ∃ after,
    run net calls = some (after,(outcomes net.name xs calls).2) ∧ Listed after (outcomes net.name xs calls).1 ∧
      Kept net after (outcomes net.name xs calls).1 := by
  induction calls generalizing net xs with
  | nil => exact ⟨net,rfl,listed,kept_refl net xs⟩
  | cons call calls ih =>
    obtain ⟨middle,first,linked,kept⟩ := perform_listed listed call
    obtain ⟨after,rest,last,later⟩ := ih linked
    rw [kept.name] at rest last later
    refine ⟨after,?_,last,later.name.trans kept.name,fun d outside => ?_⟩
    · simp only [run,first,rest,Option.bind_eq_bind,Option.bind_some]
      rfl
    · rw [later.others d outside]
      exact kept.others d fun member => outside (outcomes_grow net.name calls member)

/-- Whatever calls are made after the start, each returns what is due, and the list is due too: the device that
`netif_init` took, and behind it, in the order of the calls, every later one whose name was new. The two threads were
created once, and no device outside the list was touched. -/
theorem netif_calls (net : Devices) (root : net.devRoot = none) (threads : net.created = []) (calls : List Call) :
    ∃ after xs rcs, run net calls = some (after,rcs) ∧ outcomes net.name [] calls = (xs,rcs) ∧ Listed after xs ∧
      Kept net after xs := by
  have start : Listed net [] := ⟨root,List.nodup_nil,threads⟩
  obtain ⟨after,ran,listed,kept⟩ := run_listed start calls
  exact ⟨after,_,_,ran,rfl,listed,kept⟩

def wired : Ptr := ⟨0x2c0,by decide⟩

def wireless : Ptr := ⟨0x2e0,by decide⟩

/-- Two devices, a and b, before the first call. -/
def twoDevices : Devices where
  next := fun _ => none
  name := fun p => if p = wired then [97] else [98]
  devRoot := none
  created := []

/-- The second device is appended, although the call returns -1, and not once more. -/
theorem netif_calls_twoDevices : ∃ after,
    run twoDevices [.init none,.init wired,.initDev wireless,.initDev wireless] = some (after,[-2,0,-1,-4]) ∧
      Listed after [wired,wireless] ∧ Kept twoDevices after [wired,wireless] := by
  obtain ⟨after,xs,rcs,ran,due,listed,kept⟩ :=
    netif_calls twoDevices rfl rfl [.init none,.init wired,.initDev wireless,.initDev wireless]
  have computed : outcomes twoDevices.name [] [.init none,.init wired,.initDev wireless,.initDev wireless] =
      ([wired,wireless],[-2,0,-1,-4]) := by decide
  obtain ⟨rfl,rfl⟩ := Prod.mk.inj (due.symm.trans computed)
  exact ⟨after,ran,listed,kept⟩

end BermudaOS.Net.Netdevs
