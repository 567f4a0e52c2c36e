import Mathlib.Data.List.Basic
import Mathlib.Tactic.FinCases
import BermudaOS.Sys.SchedExit
import BermudaOS.Clib.Strings
import BermudaOS.Lib.Lookups

/-! The look-up of a thread by its name, on the bytes of the names. The comparison has
the length of the thread's name, so a name that begins the one that is looked for is
taken for it, and `BermudaThreadExit` can take another thread for MAIN. -/
namespace BermudaOS.Sys.Sched
open VirtTimer Lib.Chains Lib.Program Lib.ByteMemory Lib.Lookups Clib.Strings

variable {k : Kernel} {t : Addr} {name : List Char} {all ts : List Addr}

/-- The memory of the strings, and the `name` of every thread. -/
structure Names where
  memory : Memory
  name : Addr → Nat

def Names.bermudaThreadGetByName (n : Names) (k : Kernel) (name : Nat) :
    Nat → Option Addr → Option (Option Addr)
  | _,none => some none
  | 0,some _ => none
  | fuel+1,some c =>
    match strlen n.memory (2^16) (n.name c) with
    | none => none
    | some len =>
      if memcmp n.memory len name (n.name c) = 0 then some (some c)
      else n.bermudaThreadGetByName k name fuel (k.qNext c)

def chars (s : List UInt8) : List Char := s.map fun c => Char.ofNat c.toNat

def Names.Hold (n : Names) (k : Kernel) (all : List Addr) : Prop :=
  ∀ c ∈ all, ∃ s, StringAt n.memory (n.name c) s ∧ s.length < 2^16 ∧ (k.thread c).name = chars s

theorem chars_begins (s t : List UInt8) : chars s <+: chars t ↔ s <+: t := by
  refine List.prefix_map_iff_of_injective fun c d same => ?_
  have low (b : UInt8) : (Char.ofNat b.toNat).toNat = b.toNat := by
    have small : b.toNat < 256 := b.toNat_lt
    rw [Char.ofNat,dif_pos (.inl (by omega))]
    rfl
  have values := congrArg Char.toNat same
  rw [low,low] at values
  exact UInt8.toNat_inj.mp values

/-- The look-up in the kernel is the one on the bytes. -/
theorem getByName_bytes {n : Names} {p : Option Addr} {a fuel : Nat} {s : List UInt8}
    (chain : Chain k.qNext p ts) (hold : n.Hold k ts) (query : StringAt n.memory a s) :
    n.bermudaThreadGetByName k a fuel p = getByName k (chars s) fuel p := by
  induction ts generalizing p fuel with
  | nil =>
    obtain rfl : p = none := chain
    cases fuel <;> rfl
  | cons c ts ih =>
    obtain ⟨rfl,rest⟩ := chain
    cases fuel with
    | zero => rfl
    | succ fuel =>
      obtain ⟨own,string,short,named⟩ := hold c (by simp)
      rw [Names.bermudaThreadGetByName,getByName,strlen_string string short,named]
      dsimp only
      rw [ih rest fun d inside => hold d (by simp [inside])]
      refine if_congr ?_ rfl rfl
      rw [memcmp_string query string,List.isPrefixOf_iff_prefix,chars_begins]

def firstNamed (k : Kernel) (name : List Char) (all : List Addr) : Option Addr :=
  all.find? fun c => (k.thread c).name = name

/-- Every thread whose name is a proper prefix of the name is behind a thread of the name. -/
def Unshadowed (k : Kernel) (name : List Char) (all : List Addr) : Prop :=
  Covered (fun c => (k.thread c).name = name)
    (fun c => (k.thread c).name <+: name ∧ (k.thread c).name ≠ name) all

theorem named_begins {c : Addr} (named : (k.thread c).name = name) : (k.thread c).name <+: name := by
  rw [named]

theorem getByName_first (total : Chain k.qNext (k.link .bermudaThreadHead) all) :
    getByName k name addrLimit (k.link .bermudaThreadHead) = some (firstNamed k name all) ↔
      Unshadowed k name all := by
  rw [getByName_begins total (chain_length total),Option.some.injEq]
  exact find_coarse fun c _ => named_begins

def mainName : List Char := ['M','A','I','N']

/-- `BermudaThreadExit` only yields. -/
def Spared (k : Kernel) : Prop := leave.run k = some ((),k)

/-- `BermudaThreadExit` puts `t` into the kill queue. -/
def Killed (k : Kernel) (t : Addr) : Prop :=
  ∃ l ws, leave.run k = some ((),l) ∧ Chain l.next (l.link .bermudaKillQueue) ws ∧ t ∈ ws

/-- `BermudaThreadExit`, called by `t`, spares the thread named MAIN and no other one. -/
def SparesMain (k : Kernel) (all : List Addr) (t : Addr) : Prop :=
  (firstNamed k mainName all = some t → Spared k) ∧ (firstNamed k mainName all ≠ some t → Killed k t)

/-- If the name of `t` is a proper prefix of MAIN, another prefix is in front of it. If it is
the first MAIN, none is. -/
def Unmistaken (k : Kernel) (all : List Addr) (t : Addr) : Prop :=
  ∀ before after, all = before ++ t::after →
    ((k.thread t).name <+: mainName → (k.thread t).name ≠ mainName →
      ∃ b ∈ before, (k.thread b).name <+: mainName) ∧
    ((k.thread t).name = mainName → (∃ b ∈ before, (k.thread b).name <+: mainName) →
      ∃ b ∈ before, (k.thread b).name = mainName)

variable {queue : Ref → List Addr}

theorem leave_killed (exiting : Exiting k t queue all) (other : mainThread k ≠ some (some t)) :
    Killed k t := by
  have found := exiting.mainThread
  obtain ⟨l,before,after,_,runs,exited⟩ := leave_run exiting found fun same => other (same ▸ found)
  exact ⟨l,_,runs,exited.kill,by simp⟩

theorem killed_unspared (exiting : Exiting k t queue all) (killed : Killed k t) : ¬Spared k := by
  obtain ⟨l,ws,runs,chain,dead⟩ := killed
  intro spared
  obtain rfl : k = l := (Prod.mk.inj (Option.some.inj (spared.symm.trans runs))).2
  rw [chain_unique chain exiting.kill] at dead
  cases exiting.once .bermudaRunQueue .bermudaKillQueue t exiting.running dead

theorem spared_iff (exiting : Exiting k t queue all) : Spared k ↔ mainThread k = some (some t) := by
  refine ⟨fun spared => ?_,fun found => leave_stays (exiting.current.symm ▸ found)⟩
  by_contra other
  exact killed_unspared exiting (leave_killed exiting other) spared

theorem sparesMain_iff (exiting : Exiting k t queue all) :
    SparesMain k all t ↔ (mainThread k = some (some t) ↔ firstNamed k mainName all = some t) := by
  rw [← spared_iff exiting]
  constructor
  · rintro ⟨main,rest⟩
    refine ⟨fun spared => ?_,main⟩
    by_contra other
    exact killed_unspared exiting (rest other) spared
  · intro same
    refine ⟨same.mpr,fun other => leave_killed exiting fun found => ?_⟩
    exact other (same.mp ((spared_iff exiting).mpr found))

theorem sparesMain_exact (exiting : Exiting k t queue all) :
    SparesMain k all t ↔ Unmistaken k all t := by
  rw [sparesMain_iff exiting,exiting.mainThread,Option.some.injEq]
  by_cases listed : t ∈ all
  · obtain ⟨before,after,rfl⟩ := List.append_of_mem listed
    have nodup := chain_nodup exiting.total
    rw [List.perm_middle.nodup_iff] at nodup
    obtain ⟨away,_⟩ := List.nodup_cons.mp nodup
    have early : t ∉ before := fun inside => away (by simp [inside])
    have late : t ∉ after := fun inside => away (by simp [inside])
    refine (first_coarse early fun b _ => named_begins).trans ⟨fun here xs ys split => ?_,fun every => ?_⟩
    · obtain ⟨rfl,_⟩ := (List.append_cons_inj_of_notMem early late).mp split
      exact here
    · exact every before after rfl
  · -- a thread that is not listed is not found
    have unfound (p : Addr → Bool) : all.find? p ≠ some t := fun found =>
      listed (List.mem_of_find?_eq_some found)
    refine iff_of_true (iff_of_false (unfound _) (unfound _)) fun before after split => ?_
    exact absurd (by simp [split]) listed

/-- The look-up returns the first thread of the name exactly if no thread in front of it
is taken for it, and `BermudaThreadExit` spares MAIN exactly if the thread that calls it
is not mistaken. -/
theorem getByName_exact {n : Names} (total : Chain k.qNext (k.link .bermudaThreadHead) all)
    (hold : n.Hold k all) :
    (∀ a s, StringAt n.memory a s →
      (n.bermudaThreadGetByName k a addrLimit (k.link .bermudaThreadHead) =
        some (firstNamed k (chars s) all) ↔ Unshadowed k (chars s) all)) ∧
    ∀ t queue, Exiting k t queue all → (SparesMain k all t ↔ Unmistaken k all t) := by
  refine ⟨fun a s query => ?_,fun t queue exiting => sparesMain_exact exiting⟩
  rw [getByName_bytes total hold query]
  exact getByName_first total

def strings (newest : Nat) : Names where
  memory a := ([77,65,73,78,0,73,68,76,69,0,65,0,77,0] : List UInt8).getD a 0
  name t := if t = 0x100 then 5 else if t = 0x200 then 0 else newest

theorem strings_hold : (strings 10).Hold exitConfig.state [0x300,0x200,0x100] := by
  intro c inside
  fin_cases inside
  · exact ⟨[65],by decide,by decide,by decide +kernel⟩
  · exact ⟨[77,65,73,78],by decide,by decide,by decide +kernel⟩
  · exact ⟨[73,68,76,69],by decide,by decide,by decide +kernel⟩

theorem getByName_exact_exit :
    ((strings 10).bermudaThreadGetByName exitConfig.state 0 addrLimit
        (exitConfig.state.link .bermudaThreadHead) =
      some (firstNamed exitConfig.state (chars [77,65,73,78]) [0x300,0x200,0x100]) ↔
        Unshadowed exitConfig.state (chars [77,65,73,78]) [0x300,0x200,0x100]) ∧
    (SparesMain exitConfig.state [0x300,0x200,0x100] 0x300 ↔
      Unmistaken exitConfig.state [0x300,0x200,0x100] 0x300) := by
  obtain ⟨finds,spares⟩ := getByName_exact exitConfig_exiting.total strings_hold
  exact ⟨finds 0 _ (by decide),spares 0x300 _ exitConfig_exiting⟩

/-- The newest thread has the name M. -/
def mistakenConfig : Config Kernel Addr Op Int :=
  perform plainUsage [.call (.bermudaThreadCreate 0x200 ['M','A','I','N'] 150) 40,
    .call (.bermudaThreadCreate 0x300 ['M'] 100) 40,.call .bermudaThreadYield 80]
    (bootConfig plainUsage [] 0x500)

theorem mistakenConfig_reachable : Reachable (scheduler plainUsage) (booted plainUsage) mistakenConfig := by
  have start : booted plainUsage (bootConfig plainUsage [] 0x500) :=
    bootConfig_booted (by decide) fun q => by simp [plainUsage]
  exact perform_reachable (.init start) (by decide +kernel)

/-- The look-up of MAIN returns the thread M, which `BermudaThreadExit` then spares. -/
theorem getByName_mistakes : Reachable (scheduler plainUsage) (booted plainUsage) mistakenConfig ∧
    mistakenConfig.state.bermudaCurrentThread = 0x300 ∧
    Chain mistakenConfig.state.qNext (mistakenConfig.state.link .bermudaThreadHead) [0x300,0x200,0x100] ∧
    (strings 12).Hold mistakenConfig.state [0x300,0x200,0x100] ∧
    StringAt (strings 12).memory 0 [77,65,73,78] ∧
    firstNamed mistakenConfig.state (chars [77,65,73,78]) [0x300,0x200,0x100] = some 0x200 ∧
    (strings 12).bermudaThreadGetByName mistakenConfig.state 0 addrLimit
      (mistakenConfig.state.link .bermudaThreadHead) = some (some 0x300) ∧
    Spared mistakenConfig.state := by
  have total : collect mistakenConfig.state.qNext 3 (mistakenConfig.state.link .bermudaThreadHead) =
      some [0x300,0x200,0x100] := by decide +kernel
  refine ⟨mistakenConfig_reachable,by decide +kernel,collect_chain total,?_,by decide,by decide +kernel,
    by decide +kernel,leave_stays (by decide +kernel)⟩
  intro c inside
  fin_cases inside
  · exact ⟨[77],by decide,by decide,by decide +kernel⟩
  · exact ⟨[77,65,73,78],by decide,by decide,by decide +kernel⟩
  · exact ⟨[73,68,76,69],by decide,by decide,by decide +kernel⟩

end BermudaOS.Sys.Sched
