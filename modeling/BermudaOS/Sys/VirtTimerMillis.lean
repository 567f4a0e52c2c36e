import BermudaOS.Sys.VirtTimerDue

/-! The conversion of milliseconds to ticks. The product is a word: a delay that is too long
for it becomes a short one. -/
namespace BermudaOS.Sys.VirtTimer
open Lib.Chains Lib.Gaps Timers

variable {Handle : Type} {v w : Timers Handle} {ts : List Addr} {timer : Addr} {now ms : Nat}

/-- The timer expires `ms` ticks after the tick `now`: as the tick counter shows it, and, if it
has not wrapped since it was processed last, as the count of all ticks. -/
def ExpiresIn (v : Timers Handle) (timer : Addr) (now ms : Nat) : Prop :=
  ∃ expiry, Expiry v timer expiry ∧ expiry % 2^32 = now + ms ∧ (v.lastSysTick ≤ now → expiry = now + ms)

theorem millisToTicks_exact (word : ms < 2^32) : bermudaTimerMillisToTicks ms = ms ↔ ms * 1000 < 2^32 := by
  unfold bermudaTimerMillisToTicks
  omega

theorem millisToTicks_short (ms : Nat) : bermudaTimerMillisToTicks ms ≤ (2^32 - 1) / 1000 := by
  unfold bermudaTimerMillisToTicks
  omega

theorem create_expiry (fn : Option Handle) (arg : Addr) (flags now ms : Nat) (proper : Proper v ts) (fresh : timer ∉ ts) :
    ∃ w, bermudaTimerCreate v timer now ms fn arg flags = some w ∧ w.lastSysTick = v.lastSysTick ∧
      ∀ expiry, Expiry w timer expiry ↔
        expiry = v.lastSysTick + sub32 (add32 (bermudaTimerMillisToTicks ms) now) v.lastSysTick := by
  obtain ⟨es,rfl,spaced⟩ := proper.spaced v.lastSysTick
  obtain ⟨w,created,result,tick,_⟩ := create_spaced fn arg flags spaced fresh (Eq.refl
    (v.lastSysTick + sub32 (add32 (bermudaTimerMillisToTicks ms) now) v.lastSysTick))
  refine ⟨w,created,tick,fun expiry => ?_⟩
  rw [← tick] at result
  rw [result.expiry_iff,(insertKey_perm _ _).mem_iff,List.mem_cons,tick]
  constructor
  · rintro (same | old)
    · exact (Prod.mk.inj same).2
    · exact absurd (List.mem_map_of_mem old) fresh
  · rintro rfl
    exact .inl rfl

/-- The delays that are exact are those whose thousandfold is a word. -/
theorem create_exact (fn : Option Handle) (arg : Addr) (flags : Nat) (proper : Proper v ts) (fresh : timer ∉ ts)
    (fits : now + ms < 2^32) : (bermudaTimerMillisToTicks ms = ms ↔ ms ≤ 4294967) ∧
      ((∃ w, bermudaTimerCreate v timer now ms fn arg flags = some w ∧ ExpiresIn w timer now ms) ↔ ms ≤ 4294967) := by
  have exact := millisToTicks_exact (show ms < 2^32 by omega)
  have short := millisToTicks_short ms
  obtain ⟨w,created,tick,expires⟩ := create_expiry fn arg flags now ms proper fresh
  refine ⟨exact.trans (by omega),?_,fun small => ?_⟩
  · rintro ⟨u,again,expiry,expiring,shown,_⟩
    obtain rfl : w = u := Option.some.inj (created.symm.trans again)
    rw [(expires expiry).mp expiring] at shown
    unfold sub32 add32 at shown
    omega
  · have same := exact.mpr (by omega)
    refine ⟨w,created,_,(expires _).mpr rfl,?_,fun later => ?_⟩
    · rw [same,add32_of_lt (by omega)]
      unfold sub32
      omega
    · rw [tick] at later
      rw [same,add32_of_lt (by omega),sub32_of_le (by omega) (by omega)]
      omega

def noneRunning : Timers Unit := ⟨fun _ => ⟨none,none,0,0,0⟩,none,0⟩

theorem noneRunning_proper : Proper noneRunning [] := ⟨rfl,by simp⟩

theorem create_exact_hour : (7 ∉ ([] : List Addr) ∧ 5 + 3600000 < 2^32) ∧
    (bermudaTimerMillisToTicks 3600000 = 3600000 ↔ 3600000 ≤ 4294967) ∧
    ((∃ w, bermudaTimerCreate noneRunning 7 5 3600000 none 0 bermudaOneShot = some w ∧ ExpiresIn w 7 5 3600000) ↔
      3600000 ≤ 4294967) :=
  ⟨by decide,create_exact none 0 bermudaOneShot noneRunning_proper (by decide) (by decide)⟩

/-- A delay of 5000 seconds ends after 705 of them. -/
theorem create_early : (7 ∉ ([] : List Addr) ∧ 5 + 5000000 < 2^32) ∧ bermudaTimerMillisToTicks 5000000 = 705032 ∧
    ¬ ∃ w, bermudaTimerCreate noneRunning 7 5 5000000 none 0 bermudaOneShot = some w ∧ ExpiresIn w 7 5 5000000 := by
  refine ⟨by decide,by decide,?_⟩
  rintro ⟨w,created,expiry,expiring,shown,_⟩
  obtain ⟨u,again,_,expires⟩ := create_expiry none 0 bermudaOneShot 5 5000000 noneRunning_proper (List.not_mem_nil (a := 7))
  obtain rfl : u = w := Option.some.inj (again.symm.trans created)
  rw [(expires expiry).mp expiring] at shown
  exact absurd shown (by decide)

end BermudaOS.Sys.VirtTimer
