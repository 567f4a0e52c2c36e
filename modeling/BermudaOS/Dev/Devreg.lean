import BermudaOS.Clib.Strings
import BermudaOS.Lib.Chains

/-! The device administration of `dev/devreg.c`. Devices are `struct device`s in memory,
with 16-bit pointers; the strings of their names are in the same memory. -/
namespace BermudaOS.Dev.Devreg
open Lib.ByteMemory Lib.Chains Clib.Strings

structure Registry where
  mem : Memory
  bermudaDeviceRoot : Option Nat

/-- `dev->next`. -/
def next (m : Memory) (dev : Nat) : Option Nat := loadPtr m dev

/-- `dev->name`. -/
def name (m : Memory) (dev : Nat) : Nat := load16 m (dev + 2)

/-- The bytes of a `struct device`. -/
def deviceSize : Nat := 18

def loopupWalk (m : Memory) (string : Nat) : Nat → Option Nat → Option (Option Nat)
  | 0,_ => none
  | _+1,none => some none
  | n+1,some carriage => do
    let order ← strcmp m addressSpace (name m carriage) string
    if order = 0 then return some carriage else loopupWalk m string n (next m carriage)

/-- `BermudaDeviceLoopup`, of the string at the address `string`. -/
def bermudaDeviceLoopup (r : Registry) (string : Nat) : Option (Option Nat) :=
  loopupWalk r.mem string addressSpace r.bermudaDeviceRoot

variable (bermudaDeviceAlloc bermudaDeviceRelease : Nat)

def bermudaDeviceRegister (r : Registry) (dev ioctl : Nat) : Option (Registry × Int) := do
  match ← bermudaDeviceLoopup r (name r.mem dev) with
  | some _ => return (r,-1)
  | none =>
    let m := storePtr r.mem dev r.bermudaDeviceRoot
    let m := store16 m (dev + 10) ioctl
    let m := store16 m (dev + 14) bermudaDeviceAlloc
    return (⟨store16 m (dev + 16) bermudaDeviceRelease,some dev⟩,0)

/-- `*dlp`, for the address of a device's link or of the root. -/
def Registry.read (r : Registry) : Option Nat → Option Nat
  | none => r.bermudaDeviceRoot
  | some prev => next r.mem prev

def Registry.write (r : Registry) (dlp p : Option Nat) : Registry :=
  match dlp with
  | none => {r with bermudaDeviceRoot := p}
  | some prev => {r with mem := storePtr r.mem prev p}

/-- The loop of `BermudaDeviceUnregister`. -/
def unregisterWalk (dev : Nat) (r : Registry) : Nat → Option Nat → Option (Registry × Int)
  | 0,_ => none
  | n+1,dlp =>
    match r.read dlp with
    | none => some (r,-1)
    | some device => if device = dev then some (r.write dlp (next r.mem dev),0) else unregisterWalk dev r n (some device)

/-- The look-up is of the string at the address of the device itself. -/
def bermudaDeviceUnregister (r : Registry) (dev : Nat) : Option (Registry × Int) := do
  match ← bermudaDeviceLoopup r dev with
  | none => return (r,-1)
  | some _ => unregisterWalk dev r addressSpace none

/-- The devices of a system and the names they are given: no two devices share a byte,
and no name shares a byte with a device. -/
structure Layout where
  device : Nat → Prop
  nameAt : Nat → Nat
  nameOf : Nat → List UInt8
  inside : ∀ d, device d → 0 < d ∧ d + deviceSize ≤ addressSpace
  apart : ∀ d e, device d → device e → d ≠ e → d + deviceSize ≤ e ∨ e + deviceSize ≤ d
  clear : ∀ d e, device d → device e →
    nameAt d + ((nameOf d).length + 1) ≤ e ∨ e + deviceSize ≤ nameAt d
  short : ∀ d, device d → (nameOf d).length < addressSpace

/-- The names are where the devices point to. -/
def Named (y : Layout) (m : Memory) : Prop :=
  ∀ d, y.device d → name m d = y.nameAt d ∧ StringAt m (y.nameAt d) (y.nameOf d)

/-- The list of the registered devices. -/
structure Lists (y : Layout) (r : Registry) (xs : List Nat) : Prop where
  named : Named y r.mem
  chain : Chain (next r.mem) r.bermudaDeviceRoot xs
  devices : ∀ d ∈ xs, y.device d
  distinct : (xs.map y.nameOf).Nodup

/-- The string at an address is the name of a device of the list. -/
def Known (y : Layout) (m : Memory) (xs : List Nat) (string : Nat) : Prop := ∃ d ∈ xs, StringAt m string (y.nameOf d)

variable {y : Layout} {r : Registry} {m other : Memory} {xs : List Nat} {p : Option Nat} {d dev string n : Nat}

/-- A write to a device, but for its name, moves no name. -/
theorem named_write {v : Nat} (named : Named y m) (device : y.device dev) (offset : Nat)
    (field : offset + 2 ≤ 2 ∨ 4 ≤ offset ∧ offset + 2 ≤ deviceSize) : Named y (store16 m (dev + offset) v) := by
  have within := store16_within m (dev + offset) v
  intro e known
  have clear := y.clear e dev known device
  obtain ⟨word,string⟩ := named e known
  refine ⟨?_,?_⟩
  · rw [name,load16_congr (within.agree ?_)]
    · exact word
    · unfold deviceSize at *
      by_cases equal : e = dev
      · omega
      · have := y.apart e dev known device equal
        unfold deviceSize at this
        omega
  · apply stringAt_congr string (within.agree _)
    unfold deviceSize at *
    omega

theorem next_write {v e : Nat} (device : y.device dev) (known : y.device e) (offset : Nat)
    (field : offset + 2 ≤ deviceSize) (other : e = dev → 2 ≤ offset) :
    next (store16 m (dev + offset) v) e = next m e := by
  apply loadPtr_congr ((store16_within m (dev + offset) v).agree _)
  unfold deviceSize at field
  by_cases equal : e = dev
  · have := other equal
    omega
  · have apart := y.apart e dev known device equal
    unfold deviceSize at apart
    omega

theorem loopupWalk_chain (string : Nat) (named : Named y m) (devices : ∀ d ∈ xs, y.device d) (chain : Chain (next m) p xs)
    (enough : xs.length < n) : ∃ found, loopupWalk m string n p = some found ∧
      (∀ d, found = some d → d ∈ xs ∧ StringAt m string (y.nameOf d)) ∧
      (found = none → ∀ d ∈ xs, ¬ StringAt m string (y.nameOf d)) := by
  obtain ⟨n,rfl⟩ := Nat.exists_eq_add_one_of_ne_zero (Nat.ne_zero_of_lt enough)
  induction xs generalizing p n with
  | nil =>
    obtain rfl : p = none := chain
    exact ⟨none,rfl,by simp,by simp⟩
  | cons d xs ih =>
    obtain ⟨rfl,rest⟩ := chain
    have device := devices d (by simp)
    obtain ⟨word,own⟩ := named d device
    obtain ⟨order,result,zero⟩ := strcmp_string (b := string) own (y.short d device)
    rw [← word] at result
    simp only [loopupWalk,result,Option.bind_eq_bind,Option.bind_some]
    by_cases equal : order = 0
    · rw [if_pos equal]
      refine ⟨some d,rfl,?_,by simp⟩
      intro e first
      obtain rfl : d = e := Option.some.inj first
      exact ⟨by simp,zero.mp equal⟩
    · rw [if_neg equal]
      obtain ⟨n,rfl⟩ := Nat.exists_eq_add_one_of_ne_zero (n := n) (by simp at enough; omega)
      obtain ⟨found,walk,right,missing⟩ := ih (fun e member => devices e (by simp [member])) rest n (by simpa using enough)
      refine ⟨found,walk,fun e first => ⟨by simp [(right e first).1],(right e first).2⟩,?_⟩
      intro none e member
      obtain rfl | member := List.mem_cons.mp member
      · exact fun string => equal (zero.mpr string)
      · exact missing none e member

theorem lists_short (lists : Lists y r xs) : xs.length < addressSpace := by
  have real : 0 ∉ xs := fun member => Nat.lt_irrefl 0 (y.inside 0 (lists.devices 0 member)).1
  have all : 0::xs ⊆ List.range addressSpace := by
    intro d member
    obtain rfl | member := List.mem_cons.mp member
    · simp [addressSpace]
    · have bound := (y.inside d (lists.devices d member)).2
      unfold deviceSize at bound
      exact List.mem_range.mpr (by omega)
  have size := ((List.nodup_cons.mpr ⟨real,chain_nodup lists.chain⟩).subperm all).length_le
  rw [List.length_cons,List.length_range] at size
  exact Nat.lt_of_succ_le size

/-- `BermudaDeviceLoopup` finds the registered device of a name. -/
theorem loopup_lists (lists : Lists y r xs) (string : Nat) : ∃ found, bermudaDeviceLoopup r string = some found ∧
    ∀ d, found = some d ↔ d ∈ xs ∧ StringAt r.mem string (y.nameOf d) := by
  obtain ⟨found,result,right,missing⟩ := loopupWalk_chain string lists.named lists.devices lists.chain
    (lists_short lists)
  refine ⟨found,result,fun d => ⟨right d,?_⟩⟩
  rintro ⟨member,own⟩
  cases found with
  | none => exact absurd own (missing rfl d member)
  | some e =>
    obtain ⟨other,same⟩ := right e rfl
    rw [List.inj_on_of_nodup_map lists.distinct other member (stringAt_unique same own)]

theorem loopup_none (lists : Lists y r xs) (unknown : ¬ Known y r.mem xs string) :
    bermudaDeviceLoopup r string = some none := by
  obtain ⟨found,result,right⟩ := loopup_lists lists string
  cases found with
  | none => exact result
  | some d => exact absurd ⟨d,(right d).mp rfl⟩ unknown

theorem loopup_some (lists : Lists y r xs) (known : Known y r.mem xs string) :
    ∃ d, bermudaDeviceLoopup r string = some (some d) := by
  obtain ⟨found,result,right⟩ := loopup_lists lists string
  obtain ⟨d,own⟩ := known
  exact ⟨d,(right d).mpr own ▸ result⟩

theorem known_own (lists : Lists y r xs) (device : y.device dev) :
    Known y r.mem xs (name r.mem dev) ↔ y.nameOf dev ∈ xs.map y.nameOf := by
  obtain ⟨word,own⟩ := lists.named dev device
  rw [Known,word,List.mem_map]
  constructor
  · rintro ⟨d,member,string⟩
    exact ⟨d,member,stringAt_unique string own⟩
  · rintro ⟨d,member,same⟩
    exact ⟨d,member,same ▸ own⟩

theorem next_link (device : ∀ d, p = some d → y.device d) : next (storePtr m dev p) dev = p := by
  apply loadPtr_storePtr
  intro d equal
  have bound := y.inside d (device d equal)
  unfold deviceSize addressSpace at bound
  omega

theorem head_device {root : Option Nat} {f : Nat → Option Nat} (chain : Chain f root xs) (devices : ∀ d ∈ xs, y.device d) :
    ∀ d, root = some d → y.device d := by
  intro d equal
  rw [chain_head chain] at equal
  exact devices d (List.mem_of_mem_head? equal)

theorem register_new {ioctl : Nat} (lists : Lists y r xs) (device : y.device dev)
    (fresh : y.nameOf dev ∉ xs.map y.nameOf) :
    ∃ w, bermudaDeviceRegister bermudaDeviceAlloc bermudaDeviceRelease r dev ioctl = some (w,0) ∧ Lists y w (dev::xs) := by
  have unknown := loopup_none lists (fun known => fresh ((known_own lists device).mp known))
  have absent : dev ∉ xs := fun member => fresh (List.mem_map_of_mem member)
  refine ⟨_,by rw [bermudaDeviceRegister,unknown]; rfl,?_,?_,?_,?_⟩
  · have linked := named_write (v := ofPtr r.bermudaDeviceRoot) lists.named device 0 (.inl (by omega))
    have control := named_write (v := ioctl) linked device 10 (.inr (by decide))
    have alloc := named_write (v := bermudaDeviceAlloc) control device 14 (.inr (by decide))
    exact named_write (v := bermudaDeviceRelease) alloc device 16 (.inr (by decide))
  · have later : ∀ e, y.device e → next (store16 (store16 (store16 (storePtr r.mem dev r.bermudaDeviceRoot)
        (dev + 10) ioctl) (dev + 14) bermudaDeviceAlloc) (dev + 16) bermudaDeviceRelease) e =
        next (storePtr r.mem dev r.bermudaDeviceRoot) e := by
      intro e known
      rw [next_write device known 16 (by decide) (by omega),next_write device known 14 (by decide) (by omega),
        next_write device known 10 (by decide) (by omega)]
    apply seg_link_front lists.chain
    · rw [later dev device,next_link (head_device lists.chain lists.devices)]
    · intro e member
      have known := lists.devices e member
      rw [later e known]
      exact next_write device known 0 (by decide) (fun equal => absurd (equal ▸ member) absent)
  · intro d member
    obtain rfl | member := List.mem_cons.mp member
    · exact device
    · exact lists.devices d member
  · exact List.nodup_cons.mpr ⟨fresh,lists.distinct⟩

theorem register_known {ioctl : Nat} (lists : Lists y r xs) (device : y.device dev)
    (taken : y.nameOf dev ∈ xs.map y.nameOf) :
    bermudaDeviceRegister bermudaDeviceAlloc bermudaDeviceRelease r dev ioctl = some (r,-1) := by
  obtain ⟨d,found⟩ := loopup_some lists ((known_own lists device).mpr taken)
  rw [bermudaDeviceRegister,found]
  rfl

theorem unregisterWalk_absent (dlp : Option Nat) (chain : Chain (next r.mem) (r.read dlp) xs)
    (absent : dev ∉ xs) (enough : xs.length < n) : unregisterWalk dev r n dlp = some (r,-1) := by
  induction xs generalizing dlp n with
  | nil =>
    obtain ⟨n,rfl⟩ := Nat.exists_eq_add_one_of_ne_zero (Nat.ne_zero_of_lt enough)
    have stop : r.read dlp = none := chain
    simp only [unregisterWalk,stop]
  | cons d xs ih =>
    obtain ⟨n,rfl⟩ := Nat.exists_eq_add_one_of_ne_zero (Nat.ne_zero_of_lt enough)
    obtain ⟨start,rest⟩ := chain
    have other : d ≠ dev := fun equal => absent (by simp [equal])
    simp only [unregisterWalk,start,other,if_false]
    exact ih (some d) rest (fun member => absent (by simp [member])) (by simpa using enough)

theorem unregisterWalk_found (dlp : Option Nat) {before after : List Nat}
    (chain : Chain (next r.mem) (r.read dlp) (before ++ dev::after)) (enough : before.length < n) :
    unregisterWalk dev r n dlp = some (r.write (before.getLast?.or dlp) (next r.mem dev),0) := by
  induction before generalizing dlp n with
  | nil =>
    obtain ⟨n,rfl⟩ := Nat.exists_eq_add_one_of_ne_zero (Nat.ne_zero_of_lt enough)
    simp only [unregisterWalk,chain.1,if_true]
    rfl
  | cons d before ih =>
    obtain ⟨n,rfl⟩ := Nat.exists_eq_add_one_of_ne_zero (Nat.ne_zero_of_lt enough)
    have other : d ≠ dev := by
      rintro rfl
      simpa using (List.nodup_cons.mp (chain_nodup chain)).1
    obtain ⟨start,rest⟩ := chain
    simp only [unregisterWalk,start,other,if_false]
    rw [ih (some d) rest (by simpa using enough),List.getLast?_cons]
    cases before.getLast? with
    | none => rfl
    | some last => rfl

theorem unregister_found {before after : List Nat} (lists : Lists y r (before ++ dev::after))
    (known : Known y r.mem (before ++ dev::after) dev) :
    ∃ w, bermudaDeviceUnregister r dev = some (w,0) ∧ Lists y w (before ++ after) := by
  have short := lists_short lists
  have chain := lists.chain
  obtain ⟨d,found⟩ := loopup_some lists known
  have devices : ∀ e ∈ before ++ after, y.device e := by
    intro e member
    apply lists.devices e
    obtain left | right := List.mem_append.mp member
    · exact List.mem_append_left _ left
    · exact List.mem_append_right _ (List.mem_cons_of_mem dev right)
  have distinct : ((before ++ after).map y.nameOf).Nodup :=
    lists.distinct.sublist (List.Sublist.map _ (List.Sublist.append_left (List.sublist_cons_self ..) before))
  have walk := unregisterWalk_found none (n := addressSpace) chain (by simp at short; omega)
  have result : bermudaDeviceUnregister r dev = unregisterWalk dev r addressSpace none := by
    rw [bermudaDeviceUnregister,found]
    rfl
  refine ⟨_,result.trans walk,?_⟩
  obtain rfl | ⟨front,z,rfl⟩ := List.eq_nil_or_concat' before
  · exact ⟨lists.named,chain.2,devices,distinct⟩
  · rw [List.getLast?_concat]
    have device := lists.devices z (by simp)
    have nodup := chain_nodup chain
    have target : ∀ d, next r.mem dev = some d → y.device d := by
      obtain ⟨s,_,_,rest⟩ := (seg_append ..).mp chain
      exact head_device rest fun e member => devices e (List.mem_append_right _ member)
    refine ⟨named_write lists.named device 0 (.inl (by omega)),?_,devices,distinct⟩
    rw [List.append_assoc] at chain nodup ⊢
    apply seg_drop_behind chain
    · exact next_link target
    · intro e member
      have known := devices e (by simpa [or_left_comm] using Or.inr member)
      apply next_write device known 0 (by decide)
      intro equal
      subst equal
      have apart := List.nodup_middle.mp nodup
      exact absurd (List.mem_append.mpr ((List.mem_append.mp member).imp_right (List.mem_cons_of_mem dev)))
        (List.nodup_cons.mp apart).1

theorem unregister_absent (lists : Lists y r xs) (absent : dev ∉ xs) : bermudaDeviceUnregister r dev = some (r,-1) := by
  obtain ⟨found,result,_⟩ := loopup_lists lists dev
  rw [bermudaDeviceUnregister,result]
  cases found with
  | none => rfl
  | some d => exact unregisterWalk_absent none lists.chain absent (lists_short lists)

theorem unregister_unknown (lists : Lists y r xs) (unknown : ¬ Known y r.mem xs dev) :
    bermudaDeviceUnregister r dev = some (r,-1) := by
  rw [bermudaDeviceUnregister,loopup_none lists unknown]
  rfl

inductive Call where
  | register (dev ioctl : Nat)
  | unregister (dev : Nat)

def Call.device : Call → Nat
  | .register dev _ => dev
  | .unregister dev => dev

def Call.perform (r : Registry) : Call → Option (Registry × Int)
  | .register dev ioctl => bermudaDeviceRegister bermudaDeviceAlloc bermudaDeviceRelease r dev ioctl
  | .unregister dev => bermudaDeviceUnregister r dev

/-- What a call is to make of the list of registered devices, and to return. -/
def Call.outcome (y : Layout) (xs : List Nat) : Call → List Nat × Int
  | .register dev _ => if y.nameOf dev ∈ xs.map y.nameOf then (xs,-1) else (dev::xs,0)
  | .unregister dev => if dev ∈ xs then (xs.erase dev,0) else (xs,-1)

/-- The bytes of a registered device that goes read as the name of a registered device. -/
def Call.Fits (y : Layout) (r : Registry) (xs : List Nat) : Call → Prop
  | .register _ _ => True
  | .unregister dev => dev ∈ xs → Known y r.mem xs dev

theorem perform_fits {call : Call} (lists : Lists y r xs) (device : y.device call.device) (fits : call.Fits y r xs) :
    ∃ w, call.perform bermudaDeviceAlloc bermudaDeviceRelease r = some (w,(call.outcome y xs).2) ∧
      Lists y w (call.outcome y xs).1 := by
  cases call with
  | register dev ioctl =>
    simp only [Call.outcome]
    split
    · rename_i taken
      exact ⟨r,register_known _ _ lists device taken,lists⟩
    · rename_i fresh
      exact register_new _ _ lists device fresh
  | unregister dev =>
    simp only [Call.outcome]
    split
    · rename_i member
      have known := fits member
      obtain ⟨before,after,rfl⟩ := List.append_of_mem member
      have apart := (List.nodup_append.mp (chain_nodup lists.chain)).2.2
      rw [List.erase_append_right _ (fun inside => apart dev inside dev (by simp) rfl),List.erase_cons_head]
      exact unregister_found lists known
    · rename_i absent
      exact ⟨r,unregister_absent lists absent,lists⟩

/-- A call that does not fit returns -1 for a device that is registered, and leaves it there. -/
theorem perform_unfit {call : Call} (lists : Lists y r xs) (unfit : ¬ call.Fits y r xs) :
    call.perform bermudaDeviceAlloc bermudaDeviceRelease r = some (r,-1) ∧ (call.outcome y xs).2 = 0 := by
  cases call with
  | register dev ioctl => exact absurd trivial unfit
  | unregister dev =>
    obtain ⟨member,unknown⟩ := Classical.not_imp.mp unfit
    exact ⟨unregister_unknown lists unknown,by rw [Call.outcome,if_pos member]⟩

def run : Registry → List Call → Option (Registry × List Int)
  | r,[] => some (r,[])
  | r,call::calls => do
    let (r,rc) ← call.perform bermudaDeviceAlloc bermudaDeviceRelease r
    let (r,rcs) ← run r calls
    return (r,rc::rcs)

def outcomes (y : Layout) : List Nat → List Call → List Nat × List Int
  | xs,[] => (xs,[])
  | xs,call::calls =>
    let rest := outcomes y (call.outcome y xs).1 calls
    (rest.1,(call.outcome y xs).2::rest.2)

/-- Every call fits in the state that the calls before it leave. -/
def AllFit (y : Layout) : Registry → List Nat → List Call → Prop
  | _,_,[] => True
  | r,xs,call::calls => call.Fits y r xs ∧
    ∀ w rc, call.perform bermudaDeviceAlloc bermudaDeviceRelease r = some (w,rc) → AllFit y w (call.outcome y xs).1 calls

/-- The run leaves a list of registered devices, and it is the list and the results
that are due when all its calls fit. -/
theorem run_lists {calls : List Call} (lists : Lists y r xs) (devices : ∀ call ∈ calls, y.device call.device) :
    ∃ w rcs ys, run bermudaDeviceAlloc bermudaDeviceRelease r calls = some (w,rcs) ∧ Lists y w ys ∧
      ((ys,rcs) = outcomes y xs calls ↔ AllFit bermudaDeviceAlloc bermudaDeviceRelease y r xs calls) := by
  induction calls generalizing r xs with
  | nil => exact ⟨r,[],xs,rfl,lists,iff_of_true rfl trivial⟩
  | cons call calls ih =>
    have later : ∀ call ∈ calls, y.device call.device := fun c member => devices c (by simp [member])
    by_cases fits : call.Fits y r xs
    · obtain ⟨v,result,kept⟩ := perform_fits bermudaDeviceAlloc bermudaDeviceRelease lists (devices call (by simp)) fits
      obtain ⟨w,rcs,ys,rest,last,due⟩ := ih kept later
      refine ⟨w,_,ys,by simp only [run,result,rest,Option.bind_eq_bind,Option.bind_some]; rfl,last,?_⟩
      constructor
      · intro equal
        obtain ⟨left,right⟩ := Prod.mk.inj equal
        refine ⟨fits,?_⟩
        intro u rc same
        obtain ⟨rfl,_⟩ := Prod.mk.inj (Option.some.inj (result.symm.trans same))
        exact due.mp (Prod.ext left (List.cons.inj right).2)
      · intro all
        rw [outcomes,← due.mpr (all.2 v _ result)]
    · obtain ⟨result,zero⟩ := perform_unfit bermudaDeviceAlloc bermudaDeviceRelease lists fits
      obtain ⟨w,rcs,ys,rest,last,_⟩ := ih lists later
      refine ⟨w,-1::rcs,ys,by simp only [run,result,rest,Option.bind_eq_bind,Option.bind_some]; rfl,last,?_⟩
      refine iff_of_false ?_ (fun all => fits all.1)
      intro equal
      have first := (List.cons.inj (Prod.mk.inj equal).2).1
      rw [zero] at first
      exact absurd first (by decide)

/-- A call makes of the list what it is to make of it, and returns what it is to return. -/
def Call.Meets (y : Layout) (r : Registry) (xs : List Nat) (call : Call) : Prop :=
  ∃ w, call.perform bermudaDeviceAlloc bermudaDeviceRelease r = some (w,(call.outcome y xs).2) ∧
    Lists y w (call.outcome y xs).1

theorem meets_fits {call : Call} (lists : Lists y r xs) (device : y.device call.device) :
    call.Meets bermudaDeviceAlloc bermudaDeviceRelease y r xs ↔ call.Fits y r xs := by
  refine ⟨?_,perform_fits bermudaDeviceAlloc bermudaDeviceRelease lists device⟩
  rintro ⟨w,met,_⟩
  by_contra unfit
  obtain ⟨result,zero⟩ := perform_unfit bermudaDeviceAlloc bermudaDeviceRelease lists unfit
  rw [zero] at met
  simpa using (Prod.mk.inj (Option.some.inj (result.symm.trans met))).2

/-- Whatever was registered and unregistered, the registered devices have different names and are found by them. The
calls made so far did what they were to do, and the next one will, if and only if the bytes of every registered device
that is unregistered read as the name of a registered device. -/
theorem devreg_calls (y : Layout) (m : Memory) (named : Named y m) (calls : List Call)
    (devices : ∀ call ∈ calls, y.device call.device) :
    ∃ r rcs xs, run bermudaDeviceAlloc bermudaDeviceRelease ⟨m,none⟩ calls = some (r,rcs) ∧ Lists y r xs ∧
      ((xs,rcs) = outcomes y [] calls ↔ AllFit bermudaDeviceAlloc bermudaDeviceRelease y ⟨m,none⟩ [] calls) ∧
      (∀ call : Call, y.device call.device → (call.Meets bermudaDeviceAlloc bermudaDeviceRelease y r xs ↔ call.Fits y r xs)) ∧
      ∀ string, ∃ found, bermudaDeviceLoopup r string = some found ∧
        ∀ d, found = some d ↔ d ∈ xs ∧ StringAt r.mem string (y.nameOf d) := by
  have start : Lists y ⟨m,none⟩ [] := ⟨named,rfl,by simp,by simp⟩
  obtain ⟨r,rcs,xs,result,lists,due⟩ := run_lists bermudaDeviceAlloc bermudaDeviceRelease start devices
  exact ⟨r,rcs,xs,result,lists,due,fun call device => meets_fits _ _ lists device,loopup_lists lists⟩

/-- Two devices, at 0x79 and 0x180, with the names "y" at 0x200 and "x" at 0x210. -/
def pair : Layout where
  device d := d = 0x79 ∨ d = 0x180
  nameAt d := if d = 0x79 then 0x200 else 0x210
  nameOf d := if d = 0x79 then [121] else [120]
  inside := by
    rintro d (rfl | rfl) <;> decide
  apart := by
    rintro d e (rfl | rfl) (rfl | rfl) <;> decide
  clear := by
    rintro d e (rfl | rfl) (rfl | rfl) <;> decide
  short := by
    rintro d (rfl | rfl) <;> decide

def pairMemory : Memory := fun a =>
  match a with
  | 0x7C | 0x183 => 2
  | 0x182 => 0x10
  | 0x200 => 121
  | 0x210 => 120
  | _ => 0

theorem pair_named : Named pair pairMemory := by
  rintro d (rfl | rfl)
  · exact ⟨rfl,rfl,by decide,rfl⟩
  · exact ⟨rfl,rfl,by decide,rfl⟩

/-- The link of the second device reads as the name of the first, so the second is unregistered. -/
theorem devreg_calls_pair : ∃ r,
    run 0x40 0x42 ⟨pairMemory,none⟩ [.register 0x79 0,.register 0x180 0,.unregister 0x180] = some (r,[0,0,0]) ∧
      Lists pair r [0x79] := by
  obtain ⟨r,rcs,xs,result,lists,_⟩ := devreg_calls 0x40 0x42 pair pairMemory pair_named
    [.register 0x79 0,.register 0x180 0,.unregister 0x180] (by simp [Call.device,pair])
  have left : (run 0x40 0x42 ⟨pairMemory,none⟩ [.register 0x79 0,.register 0x180 0,.unregister 0x180]).map
      (fun final => (final.2,final.1.bermudaDeviceRoot,next final.1.mem 0x79)) = some ([0,0,0],some 0x79,none) := rfl
  rw [result] at left
  obtain ⟨rfl,root,last⟩ : rcs = [0,0,0] ∧ r.bermudaDeviceRoot = some 0x79 ∧ next r.mem 0x79 = none := by
    simpa using left
  obtain rfl : xs = [0x79] := chain_unique lists.chain ⟨root,last⟩
  exact ⟨r,result,lists⟩

/-- One device, at 0x100, with the name "x" at 0x200. -/
def single : Layout where
  device d := d = 0x100
  nameAt _ := 0x200
  nameOf _ := [120]
  inside := by
    rintro d rfl
    decide
  apart := by
    rintro d e rfl rfl distinct
    exact absurd rfl distinct
  clear := by
    rintro d e rfl rfl
    decide
  short := by
    rintro d rfl
    decide

def singleMemory : Memory := fun a => if a = 0x103 then 2 else if a = 0x200 then 120 else 0

theorem single_named : Named single singleMemory := by
  rintro d rfl
  exact ⟨rfl,rfl,by decide,rfl⟩

/-- The device is registered, and then not unregistered. -/
theorem single_stays : Named single singleMemory ∧ single.device 0x100 ∧
    (run 0x40 0x42 ⟨singleMemory,none⟩ [.register 0x100 0,.unregister 0x100]).map
      (fun final => (final.2,final.1.bermudaDeviceRoot)) = some ([0,-1],some 0x100) ∧
    outcomes single [] [.register 0x100 0,.unregister 0x100] = ([],[0,0]) :=
  ⟨single_named,rfl,rfl,by decide⟩

end BermudaOS.Dev.Devreg
