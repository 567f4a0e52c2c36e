import Mathlib.Algebra.Group.Nat.Defs
import Mathlib.Data.List.Basic
import BermudaOS.Lib.Chains

/-! The token buckets of `net/tokenbucket.c`. A balance has 64 bits; the length of a packet
and an amount of tokens are `size_t`s, of 16 bits. -/
namespace BermudaOS.Net.TokenBucket

/-- An address, which is never `NULL`. -/
abbrev Ptr := Lib.Chains.NonNull

/-- The fields of `struct netbuff` that the transmit path uses. -/
structure Netbuff where
  next : Option Ptr
  dev : Ptr
  ptype : Ptr
  features : BitVec 16
  rawVlan : BitVec 32
  vlan : Option Ptr
  length : UInt16

structure Tbucket where
  queue : Option Ptr
  tokens : UInt64

def cashTokens (bucket : Tbucket) (tokens : UInt16) : Tbucket × Int :=
  if bucket.tokens + tokens.toUInt64 < bucket.tokens then
    let bucket := {bucket with tokens := 0}
    ({bucket with tokens := ~~~bucket.tokens},1)
  else ({bucket with tokens := bucket.tokens + tokens.toUInt64},0)

def tbucketCanAffordPacket (bucket : Tbucket) (packet : Netbuff) : Bool :=
  if bucket.tokens < packet.length.toUInt64 then false else true

/-- There is no check whether the bucket has enough tokens. -/
def tbucketBuyPacket (bucket : Tbucket) (packet : Netbuff) : Tbucket :=
  {bucket with tokens := bucket.tokens - packet.length.toUInt64}

inductive Action where
  | cash (tokens : UInt16)
  /-- `tbucket_can_afford_packet`, followed by `tbucket_buy_packet` if it says yes. -/
  | purchase (packet : Netbuff)

/-- A bucket and what has happened to it. -/
structure Ledger where
  bucket : Tbucket
  bought : Nat
  cashed : Nat
  saturated : Bool

/-- The ledger of a bucket before the first action. -/
def fresh (bucket : Tbucket) : Ledger := ⟨bucket,0,0,false⟩

def act (l : Ledger) : Action → Ledger
  | .cash tokens =>
    let (bucket,full) := cashTokens l.bucket tokens
    ⟨bucket,l.bought,l.cashed + tokens.toNat,l.saturated || full = 1⟩
  | .purchase packet =>
    if tbucketCanAffordPacket l.bucket packet then
      ⟨tbucketBuyPacket l.bucket packet,l.bought + packet.length.toNat,l.cashed,l.saturated⟩
    else l

def acts (l : Ledger) (actions : List Action) : Ledger := actions.foldl act l

variable {bucket : Tbucket} {packet : Netbuff} {tokens : UInt16} {l : Ledger} {initial : Nat}

/-- The two ways a cash can end. -/
inductive Cashed (bucket : Tbucket) (tokens : UInt16) : Tbucket × Int → Prop
  | added (after : Tbucket) (exact : after.tokens.toNat = bucket.tokens.toNat + tokens.toNat) :
    Cashed bucket tokens (after,0)
  | full (after : Tbucket) (overflow : 2^64 ≤ bucket.tokens.toNat + tokens.toNat)
    (most : after.tokens.toNat = 2^64 - 1) : Cashed bucket tokens (after,1)

theorem toUInt64_small (amount : UInt16) : amount.toUInt64.toNat = amount.toNat := by simp

theorem cash_overflows :
    bucket.tokens + tokens.toUInt64 < bucket.tokens ↔ 2^64 ≤ bucket.tokens.toNat + tokens.toNat := by
  have balance := bucket.tokens.toNat_lt
  have amount := tokens.toNat_lt
  rw [UInt64.lt_iff_toNat_lt,UInt64.toNat_add,toUInt64_small]
  omega

theorem cash_cases : Cashed bucket tokens (cashTokens bucket tokens) := by
  unfold cashTokens
  split
  · rename_i wraps
    have ones : (~~~(0 : UInt64)).toNat = 2^64 - 1 := by decide
    exact .full _ (cash_overflows.mp wraps) ones
  · rename_i fits
    have room := mt cash_overflows.mpr fits
    refine .added _ ?_
    rw [UInt64.toNat_add,toUInt64_small]
    omega

theorem affords_iff :
    tbucketCanAffordPacket bucket packet = true ↔ packet.length.toNat ≤ bucket.tokens.toNat := by
  simp [tbucketCanAffordPacket,UInt64.lt_iff_toNat_lt]

theorem buy_tokens (affords : tbucketCanAffordPacket bucket packet = true) :
    (tbucketBuyPacket bucket packet).tokens.toNat + packet.length.toNat = bucket.tokens.toNat := by
  have enough := affords_iff.mp affords
  rw [← toUInt64_small packet.length] at enough ⊢
  simp only [tbucketBuyPacket]
  rw [UInt64.toNat_sub_of_le _ _ (UInt64.le_iff_toNat_le.mpr enough)]
  omega

/-- What is on the account covers what was bought, and nothing is missing from it before a cash
saturates. -/
structure Balanced (initial : Nat) (l : Ledger) : Prop where
  covered : l.bought + l.bucket.tokens.toNat ≤ initial + l.cashed
  exact : l.saturated = false → l.bought + l.bucket.tokens.toNat = initial + l.cashed

theorem act_balanced (balanced : Balanced initial l) (a : Action) : Balanced initial (act l a) := by
  have covered := balanced.covered
  cases a with
  | cash tokens =>
    have amount := tokens.toNat_lt
    have ended : Cashed l.bucket tokens (cashTokens l.bucket tokens) := cash_cases
    simp only [act]
    generalize cashTokens l.bucket tokens = result at ended
    cases ended with
    | added after exact =>
      refine ⟨by dsimp only; omega,?_⟩
      intro clear
      have same := balanced.exact (by simpa using clear)
      dsimp only
      omega
    | full after overflow most => exact ⟨by dsimp only; omega,by simp⟩
  | purchase packet =>
    simp only [act]
    split
    · rename_i affords
      have paid := buy_tokens affords
      refine ⟨by dsimp only; omega,?_⟩
      intro clear
      have same := balanced.exact clear
      dsimp only
      omega
    · exact balanced

theorem acts_balanced (actions : List Action) (balanced : Balanced initial l) :
    Balanced initial (acts l actions) := by
  induction actions generalizing l with
  | nil => exact balanced
  | cons a actions ih => exact ih (act_balanced balanced a)

theorem fresh_balanced (bucket : Tbucket) : Balanced bucket.tokens.toNat (fresh bucket) :=
  ⟨by simp [fresh],by simp [fresh]⟩

/-- After any run the next action wraps no balance and a cash returns 1 exactly where it saturates;
the run has bought no more than there was and was cashed, all of it where no cash saturated. -/
theorem acts_conform (bucket : Tbucket) (actions : List Action) (l : Ledger)
    (run : l = acts (fresh bucket) actions) :
    (∀ tokens, Cashed l.bucket tokens (cashTokens l.bucket tokens)) ∧
    (∀ packet, (act l (.purchase packet)).bucket.tokens.toNat = l.bucket.tokens.toNat -
      (if packet.length.toNat ≤ l.bucket.tokens.toNat then packet.length.toNat else 0)) ∧
    l.bought ≤ bucket.tokens.toNat + l.cashed ∧
    (l.saturated = false →
      (l.bought : Int) = bucket.tokens.toNat + l.cashed - l.bucket.tokens.toNat) := by
  have balanced : Balanced bucket.tokens.toNat l := run ▸ acts_balanced actions (fresh_balanced bucket)
  refine ⟨fun tokens => cash_cases,?_,?_,?_⟩
  · intro packet
    simp only [act]
    split
    · rename_i affords
      have paid := buy_tokens affords
      rw [if_pos (affords_iff.mp affords)]
      dsimp only
      omega
    · rename_i poor
      rw [if_neg (mt affords_iff.mpr poor)]
      rfl
  · have covered := balanced.covered
    omega
  · intro clear
    have exact := balanced.exact clear
    omega

def packetOf (length : UInt16) : Netbuff := ⟨none,⟨1,by decide⟩,⟨1,by decide⟩,0,0,none,length⟩

/-- A packet of 100 bytes is left out at a balance of 60 and bought after a cash of 50. -/
theorem acts_conform_packet :
    ((acts (fresh ⟨none,60⟩) [.purchase (packetOf 100),.cash 50,.purchase (packetOf 100)]).bought : Int) =
      60 + 50 - 10 :=
  (acts_conform ⟨none,60⟩ [.purchase (packetOf 100),.cash 50,.purchase (packetOf 100)] _ rfl).2.2.2 rfl

end BermudaOS.Net.TokenBucket
