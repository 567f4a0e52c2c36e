import Mathlib.Algebra.GroupWithZero.Nat
import BermudaOS.Lib.Chains
import BermudaOS.Net.Vlan

/-! The transmit path of `net/core/dev.c`: packets go from the core queue to the queue of the
device's token bucket. The structures are in memory, one function for each kind of them. -/
namespace BermudaOS.Net.Netif
open Lib.Chains TokenBucket Vlan

structure NetbuffQueue where
  next : Option Ptr
  packet : Option Ptr
  type : BitVec 2

/-- The fields of `struct netdev` that the transmit path uses. -/
structure Netdev where
  mtu : UInt16
  queue : Ptr

structure State where
  entries : Ptr → NetbuffQueue
  packets : Ptr → Netbuff
  devices : Ptr → Netdev
  buckets : Ptr → Tbucket
  vlans : Vlan.Memory
  /-- `*qhpp`, the head of the core queue. -/
  coreQueue : Option Ptr
  /-- The queue entries that are not free. -/
  allocated : List Ptr

/-- Why a call does not return. -/
inductive Stop where
  /-- A null queue entry is dereferenced. -/
  | null
  /-- The packet of an entry is `NULL` and dereferenced. -/
  | nullPacket
  /-- `malloc` finds no block and resets the system. -/
  | reset
  | endless
  deriving DecidableEq

def State.setEntry (net : State) (p : Ptr) (e : NetbuffQueue) : State :=
  {net with entries := Function.update net.entries p e}

def State.setPacket (net : State) (p : Ptr) (nb : Netbuff) : State :=
  {net with packets := Function.update net.packets p nb}

def State.setBucket (net : State) (p : Ptr) (tb : Tbucket) : State :=
  {net with buckets := Function.update net.buckets p tb}

/-- `free` of a queue entry. -/
def State.release (net : State) (p : Ptr) : State := {net with allocated := net.allocated.erase p}

/-- `malloc` of a queue entry, at the address that `malloc` finds. -/
def State.allocate (malloc : List Ptr → Option Ptr) (net : State) : Except Stop (Ptr × State) :=
  match malloc net.allocated with
  | none => .error .reset
  | some p => .ok (p,{net with allocated := p :: net.allocated})

def NETIF_TX_VLAN_TAG : BitVec 16 := 1
def NETBUFF_NO_FRAG : BitVec 16 := 2

def DEV_OK : Int := 0
def DEV_ERROR : Int := 1

def netbuffGetFeatures (nb : Netbuff) : BitVec 16 := nb.features
def nbHasTxTag (nb : Netbuff) : Bool := nb.features &&& NETIF_TX_VLAN_TAG ≠ 0
def netbuffDev (nb : Netbuff) : Ptr := nb.dev
def netbuffType (nb : Netbuff) : Ptr := nb.ptype

def netifNbNeedsGso (net : State) (nb : Ptr) : Bool :=
  let dev := (net.packets nb).dev
  if (net.packets nb).length > (net.devices dev).mtu then true else false

def netifEvalErr (_ : Int) : Bool := true

def lastEntryWalk (net : State) : Nat → Option Ptr → Except Stop (Option Ptr)
  | 0,_ => .error .endless
  | _+1,none => .ok none
  | n+1,some list =>
    if (net.entries list).next = some list then .ok none
    else if (net.entries list).next = none then .ok (some list)
    else lastEntryWalk net n (net.entries list).next

def listLastEntry (net : State) (vp : Option Ptr) : Except Stop (Option Ptr) := lastEntryWalk net addressSpace vp

variable (malloc : List Ptr → Option Ptr)

/-- The loop of `__netif_tx_queue`, from the entry `tbq` on: where it ends and the new entry. -/
def txWalk : Nat → State → Option Ptr → Except Stop (Ptr × Ptr × State)
  | 0,_,_ => .error .endless
  | _+1,net,none => do
    let (nqe,net) ← net.allocate malloc
    return (nqe,nqe,net)
  | n+1,net,some tbq =>
    match (net.entries tbq).next with
    | none => do
      let (nqe,net) ← net.allocate malloc
      return (tbq,nqe,net)
    | some next => txWalk n net (some next)

/-- `__netif_tx_queue`. -/
def netifTxQueue (net : State) : Except Stop (State × Option Ptr) :=
  match net.coreQueue with
  | none => .ok (net,none)
  | some qp =>
    match (net.entries qp).packet with
    | none => .error .nullPacket
    | some packet =>
      let dev := (net.packets packet).dev
      let tb := (net.devices dev).queue
      let tbq := (net.buckets tb).queue
      if tbucketCanAffordPacket (net.buckets tb) (net.packets packet) then do
        let net := net.setBucket tb (tbucketBuyPacket (net.buckets tb) (net.packets packet))
        let (tbq,nqe,net) ← txWalk malloc addressSpace net tbq
        let net := net.setBucket tb {net.buckets tb with queue := some tbq}
        let net := net.setEntry nqe {packet := some packet,type := (net.entries qp).type,next := none}
        let net := {net with coreQueue := (net.entries qp).next}
        return (net.release qp,some packet)
      else .ok (net,none)

/-- The loop of `__netif_start_xmit` that enqueues at the device, from the segment `nb` on. -/
def xmitWalk (bucket : Ptr) (qp : Option Ptr) : Nat → State → Ptr → Except Stop State
  | 0,_,_ => .error .endless
  | n+1,net,nb => do
    let net ←
      if tbucketCanAffordPacket (net.buckets bucket) (net.packets nb) then
        .ok (net.setBucket bucket (tbucketBuyPacket (net.buckets bucket) (net.packets nb)))
      else do
        let (entry,net) ← net.allocate malloc
        match qp with
        | none => .error .null
        | some qp =>
          let net := net.setEntry qp {net.entries qp with next := some entry}
          let net := net.setEntry qp {net.entries qp with packet := some nb}
          .ok (net.setEntry qp {net.entries qp with next := none})
    match (net.packets nb).next with
    | none => return net
    | some nb => xmitWalk bucket qp n net nb

/-- The part of `__netif_start_xmit` behind its checks. -/
def dequeue (net : State) (qp nb dev : Ptr) : Except Stop (State × Int) := do
  let net := {net with coreQueue := (net.entries qp).next}
  let net := net.release qp
  let bucket := (net.devices dev).queue
  let qp ← listLastEntry net (net.buckets bucket).queue
  let net ← xmitWalk malloc bucket qp addressSpace net nb
  return (net,DEV_OK)

/-- `nb->raw_vlan`, for a packet that has a tag. -/
def tagged (net : State) (nb : Ptr) : State :=
  if nbHasTxTag (net.packets nb) then
    net.setPacket nb {net.packets nb with rawVlan := vlanInflate (net.packets nb) net.vlans}
  else net

/-- `__netif_start_xmit`, where `gsoSegment` is what the function of a protocol does to the packets. -/
def netifStartXmit (gsoSegment : Ptr → Ptr → UInt16 → (Ptr → Netbuff) → (Ptr → Netbuff) × Int)
    (net : State) : Except Stop (State × Int) :=
  match net.coreQueue with
  | none => .error .null
  | some qp =>
    match (net.entries qp).packet with
    | none => .ok (net,DEV_ERROR)
    | some nb =>
      let net := tagged net nb
      let features := netbuffGetFeatures (net.packets nb)
      let dev := netbuffDev (net.packets nb)
      if netifNbNeedsGso net nb then
        if features &&& NETBUFF_NO_FRAG = 0 then
          let ptype := netbuffType (net.packets nb)
          let (packets,err) := gsoSegment ptype nb (net.devices dev).mtu net.packets
          let net := {net with packets := packets}
          if netifEvalErr err then .ok (net,DEV_ERROR) else dequeue malloc net qp nb dev
        else .ok (net,DEV_ERROR)
      else dequeue malloc net qp nb dev

/-! The hand-over -/

def State.next (net : State) (entry : Ptr) : Option Ptr := (net.entries entry).next
def State.packet (net : State) (entry : Ptr) : Option Ptr := (net.entries entry).packet

/-- The next segment of a packet. -/
def State.segment (net : State) (nb : Ptr) : Option Ptr := (net.packets nb).next

/-- The packet at the head of the core queue. -/
def headPacket (net : State) : Option Ptr := net.coreQueue.bind net.packet

/-- The token bucket of a packet's device. -/
def bucketOf (net : State) (nb : Ptr) : Ptr := (net.devices (net.packets nb).dev).queue

/-- The core queue and the queue of a bucket consist of these entries. -/
structure Holds (net : State) (bucket : Ptr) (core queue : List Ptr) : Prop where
  coreChain : Chain net.next net.coreQueue core
  queueChain : Chain net.next (net.buckets bucket).queue queue
  apart : ∀ e ∈ core, e ∉ queue
  allocated : ∀ e ∈ core ++ queue, e ∈ net.allocated

/-- The segments that a bucket cannot afford when they are bought one after the other. -/
def unsent (net : State) (bucket : Tbucket) : List Ptr → List Ptr
  | [] => []
  | nb::segments =>
    if tbucketCanAffordPacket bucket (net.packets nb) then
      unsent net (tbucketBuyPacket bucket (net.packets nb)) segments
    else nb :: unsent net bucket segments

/-- A call returns without a look at a null pointer. Where it takes the head packet out of the core
queue, the bucket's queue is what it was with the packets `left` behind it; elsewhere both queues stay
what they were. -/
structure Survives {ρ : Type} (net : State) (bucket : Ptr) (core queue left : List Ptr)
    (result : Except Stop (State × ρ)) : Prop where
  returns : ∀ stop, result ≠ .error stop
  packets : ∀ after value, result = .ok (after,value) → after.coreQueue ≠ net.coreQueue →
    ∃ rest entries, Holds after bucket rest entries ∧
      rest.map after.packet = (core.map net.packet).tail ∧
      entries.map after.packet = queue.map net.packet ++ left.map some
  stays : ∀ after value, result = .ok (after,value) → after.coreQueue = net.coreQueue →
    Holds after bucket core queue ∧ (core ++ queue).map after.packet = (core ++ queue).map net.packet

/-- What the segments of a packet cost. -/
def cost (net : State) (segments : List Ptr) : Nat := (segments.map (fun nb => (net.packets nb).length.toNat)).sum

variable {net after : State} {bucket nb p : Ptr} {qp : Option Ptr} {core queue segments : List Ptr} {tb : Tbucket} {fuel : Nat}
  {malloc}

theorem unsent_nil : unsent net tb segments = [] ↔ cost net segments ≤ tb.tokens.toNat := by
  induction segments generalizing tb with
  | nil => simp [unsent,cost]
  | cons nb segments ih =>
    simp only [unsent,cost,List.map_cons,List.sum_cons]
    split
    · rename_i affords
      have paid := buy_tokens affords
      rw [ih,cost]
      omega
    · rename_i poor
      have short := mt affords_iff.mpr poor
      simp only [reduceCtorEq,false_iff]
      omega

theorem lastEntryWalk_chain {p : Option Ptr} (chain : Chain net.next p queue) (bound : queue.length < fuel) :
    lastEntryWalk net fuel p = .ok queue.getLast? := by
  induction fuel generalizing p queue with
  | zero => omega
  | succ fuel ih =>
    cases queue with
    | nil =>
      have stop : p = none := chain
      simp [lastEntryWalk,stop]
    | cons e queue =>
      have loop : (net.entries e).next ≠ some e := chain_irrefl chain List.mem_cons_self
      obtain ⟨rfl,rest⟩ := chain
      rw [lastEntryWalk,if_neg loop]
      cases queue with
      | nil =>
        have stop : (net.entries e).next = none := rest
        rw [if_pos stop]
        rfl
      | cons f queue =>
        have onward : (net.entries e).next = some f := rest.1
        rw [if_neg (by simp [onward])]
        rw [List.getLast?_cons_cons]
        exact ih rest (by simpa using bound)

theorem listLastEntry_chain (net : State) {p : Option Ptr} (chain : Chain net.next p queue) :
    listLastEntry net p = .ok queue.getLast? :=
  lastEntryWalk_chain chain (nonnull_length (chain_nodup chain))

theorem txWalk_chain (malloc) (net : State) {p : Option Ptr} (chain : Chain net.next p queue) (bound : queue.length < fuel) :
    txWalk malloc fuel net p = (do
      let (nqe,net) ← net.allocate malloc
      return (queue.getLast?.getD nqe,nqe,net)) := by
  induction fuel generalizing p queue with
  | zero => omega
  | succ fuel ih =>
    cases queue with
    | nil =>
      have stop : p = none := chain
      rw [stop]
      rfl
    | cons e queue =>
      obtain ⟨rfl,rest⟩ := chain
      cases queue with
      | nil =>
        have stop : (net.entries e).next = none := rest
        simp [txWalk,stop]
      | cons f queue =>
        have onward : (net.entries e).next = some f := rest.1
        have walked := ih (p := net.next e) rest (by simpa using bound)
        rw [rest.1] at walked
        rw [txWalk,onward]
        simpa using walked

@[simp] theorem setBucket_same : (net.setBucket bucket tb).buckets bucket = tb := Function.update_self ..

@[simp] theorem setBucket_again {other : Tbucket} :
    (net.setBucket bucket tb).setBucket bucket other = net.setBucket bucket other := by
  simp [State.setBucket]

/-- A bucket after the purchase of a segment. -/
def State.buy (net : State) (bucket nb : Ptr) : State :=
  net.setBucket bucket (tbucketBuyPacket (net.buckets bucket) (net.packets nb))

/-- The loop of `__netif_start_xmit` from a segment on, if there is one. -/
def xmitFrom (malloc : List Ptr → Option Ptr) (bucket : Ptr) (qp : Option Ptr) (fuel : Nat) (net : State) :
    Option Ptr → Except Stop State
  | none => .ok net
  | some nb => xmitWalk malloc bucket qp fuel net nb

theorem xmitWalk_affords (enough : tbucketCanAffordPacket (net.buckets bucket) (net.packets nb) = true) :
    xmitWalk malloc bucket qp (fuel + 1) net nb = xmitFrom malloc bucket qp fuel (net.buy bucket nb) (net.segment nb) := by
  rw [xmitWalk,if_pos enough]
  rfl

/-- The last entry after a segment that is not affordable took the place of its packet. -/
def State.replace (net : State) (last nb entry : Ptr) : State :=
  let net := {net with allocated := entry :: net.allocated}
  let net := net.setEntry last {net.entries last with next := some entry}
  let net := net.setEntry last {net.entries last with packet := some nb}
  net.setEntry last {net.entries last with next := none}

theorem xmitWalk_poor {last : Ptr} (poor : tbucketCanAffordPacket (net.buckets bucket) (net.packets nb) = false) :
    xmitWalk malloc bucket (some last) (fuel + 1) net nb =
      match malloc net.allocated with
      | none => .error .reset
      | some entry => xmitFrom malloc bucket (some last) fuel (net.replace last nb entry) (net.segment nb) := by
  rw [xmitWalk,if_neg (by simp [poor]),State.allocate]
  cases malloc net.allocated <;> rfl

theorem buy_balance (enough : tbucketCanAffordPacket (net.buckets bucket) (net.packets nb) = true) :
    ((net.buy bucket nb).buckets bucket).tokens.toNat + (net.packets nb).length.toNat =
      (net.buckets bucket).tokens.toNat := by
  rw [State.buy,setBucket_same]
  exact buy_tokens enough

theorem cost_cons : cost net (nb::segments) = (net.packets nb).length.toNat + cost net segments := by simp [cost]

/-- Segments that are affordable together are bought, and nothing else happens. -/
theorem xmitFrom_bought (malloc) (bucket : Ptr) (qp : Option Ptr) {p : Option Ptr}
    (chain : Chain net.segment p segments) (bound : segments.length ≤ fuel)
    (affords : cost net segments ≤ (net.buckets bucket).tokens.toNat) :
    ∃ tokens, xmitFrom malloc bucket qp fuel net p =
      .ok (net.setBucket bucket {net.buckets bucket with tokens := tokens}) := by
  induction segments generalizing net p fuel with
  | nil =>
    obtain rfl : p = none := chain
    exact ⟨(net.buckets bucket).tokens,by simp [xmitFrom,State.setBucket]⟩
  | cons nb segments ih =>
    obtain ⟨rfl,onward⟩ := chain
    obtain ⟨fuel,rfl⟩ := Nat.exists_eq_add_of_le' (show 1 ≤ fuel by simp at bound; omega)
    rw [cost_cons] at affords
    have enough : tbucketCanAffordPacket (net.buckets bucket) (net.packets nb) = true :=
      affords_iff.mpr (by omega)
    have paid := buy_balance enough
    have later : Chain (net.buy bucket nb).segment (net.segment nb) segments := onward
    obtain ⟨tokens,walked⟩ := ih later (by simpa using bound) (by change cost net segments ≤ _; omega)
    refine ⟨tokens,(xmitWalk_affords enough).trans (walked.trans ?_)⟩
    simp [State.buy,tbucketBuyPacket]

/-- With an empty queue at the device, a segment that is not affordable is stored at `NULL`. -/
theorem xmitFrom_null (malloc) (bucket : Ptr) {p : Option Ptr} (chain : Chain net.segment p segments)
    (bound : segments.length ≤ fuel) (poor : (net.buckets bucket).tokens.toNat < cost net segments) :
    xmitFrom malloc bucket none fuel net p = .error .null ∨ xmitFrom malloc bucket none fuel net p = .error .reset := by
  induction segments generalizing net p fuel with
  | nil => simp [cost] at poor
  | cons nb segments ih =>
    obtain ⟨rfl,onward⟩ := chain
    obtain ⟨fuel,rfl⟩ := Nat.exists_eq_add_of_le' (show 1 ≤ fuel by simp at bound; omega)
    rw [cost_cons] at poor
    rw [xmitFrom]
    cases enough : tbucketCanAffordPacket (net.buckets bucket) (net.packets nb) with
    | true =>
      have paid := buy_balance enough
      have later : Chain (net.buy bucket nb).segment (net.segment nb) segments := onward
      rw [xmitWalk_affords enough]
      exact ih later (by simpa using bound) (by change _ < cost net segments; omega)
    | false =>
      rw [xmitWalk,if_neg (by simp [enough]),State.allocate]
      cases malloc net.allocated with
      | none => exact .inr rfl
      | some entry => exact .inl rfl

/-- A call links no entry. -/
structure Linked (bucket : Ptr) (net after : State) : Prop where
  next : after.next = net.next
  coreQueue : after.coreQueue = net.coreQueue
  queue : (after.buckets bucket).queue = (net.buckets bucket).queue

theorem linked_trans {middle : State} (first : Linked bucket net middle) (second : Linked bucket middle after) :
    Linked bucket net after :=
  ⟨second.next.trans first.next,second.coreQueue.trans first.coreQueue,second.queue.trans first.queue⟩

theorem buy_linked : Linked bucket net (net.buy bucket nb) := ⟨rfl,rfl,by rw [State.buy,setBucket_same]; rfl⟩

theorem replace_linked {last entry : Ptr} (tail : net.next last = none) :
    Linked bucket net (net.replace last nb entry) := by
  refine ⟨?_,rfl,rfl⟩
  funext x
  by_cases same : x = last
  · subst same
    simp [State.next,State.replace,State.setEntry,show (net.entries x).next = none from tail]
  · simp [State.next,State.replace,State.setEntry,same]

theorem xmitFrom_linked (malloc) (bucket : Ptr) {last : Ptr} {p : Option Ptr} (tail : net.next last = none)
    (chain : Chain net.segment p segments) (bound : segments.length ≤ fuel) :
    (∃ after, xmitFrom malloc bucket (some last) fuel net p = .ok after ∧ Linked bucket net after) ∨
      xmitFrom malloc bucket (some last) fuel net p = .error .reset := by
  induction segments generalizing net p fuel with
  | nil =>
    obtain rfl : p = none := chain
    exact .inl ⟨net,rfl,rfl,rfl,rfl⟩
  | cons nb segments ih =>
    obtain ⟨rfl,onward⟩ := chain
    obtain ⟨fuel,rfl⟩ := Nat.exists_eq_add_of_le' (show 1 ≤ fuel by simp at bound; omega)
    have onwards {middle : State} (first : Linked bucket net middle)
        (later : Chain middle.segment (net.segment nb) segments) :
        (∃ after, xmitFrom malloc bucket (some last) fuel middle (net.segment nb) = .ok after ∧ Linked bucket net after) ∨
          xmitFrom malloc bucket (some last) fuel middle (net.segment nb) = .error .reset := by
      refine (ih (first.next ▸ tail) later (by simpa using bound)).imp ?_ id
      rintro ⟨after,walked,linked⟩
      exact ⟨after,walked,linked_trans first linked⟩
    rw [xmitFrom]
    cases enough : tbucketCanAffordPacket (net.buckets bucket) (net.packets nb) with
    | true =>
      rw [xmitWalk_affords enough]
      exact onwards buy_linked onward
    | false =>
      rw [xmitWalk_poor enough]
      cases malloc net.allocated with
      | none => exact .inr rfl
      | some entry => exact onwards (replace_linked tail) onward

/-- `malloc` finds a block that is free. -/
def Fresh (malloc : List Ptr → Option Ptr) : Prop := ∀ used p, malloc used = some p → p ∉ used

theorem survives_fails {ρ : Type} {left : List Ptr} {value : ρ} (missing : left ≠ []) {entries : List Ptr}
    (moved : after.coreQueue ≠ net.coreQueue) (chain : Chain after.next (after.buckets bucket).queue entries)
    (short : entries.length ≤ queue.length) :
    ¬ Survives net bucket core queue left (.ok (after,value)) := by
  intro survives
  obtain ⟨rest,others,holds,-,same⟩ := survives.packets after value rfl moved
  have equal := chain_unique holds.queueChain chain
  have lengths := congrArg List.length same
  have added := List.length_pos_iff.mpr missing
  simp [equal] at lengths
  omega

theorem core_split {p : Ptr} (holds : Holds net bucket core queue) (head : net.coreQueue = some p) :
    ∃ rest, core = p::rest ∧ Chain net.next (net.next p) rest ∧ net.next p ≠ some p := by
  cases core with
  | nil => exact absurd (head.symm.trans holds.coreChain) (by simp)
  | cons first rest =>
    have loop := chain_irrefl holds.coreChain (List.mem_cons_self (a := first))
    obtain ⟨same,onward⟩ := holds.coreChain
    obtain rfl := Option.some.inj (head.symm.trans same)
    exact ⟨rest,rfl,onward,loop⟩

theorem release_allocated {e : Ptr} (holds : Holds net bucket (p::core) queue) (member : e ∈ core ++ queue) :
    e ∈ net.allocated.erase p := by
  have distinct := chain_nodup holds.coreChain
  have other : e ≠ p := by
    intro same
    subst same
    rcases List.mem_append.mp member with member | member
    · exact (List.nodup_cons.mp distinct).1 member
    · exact holds.apart e (by simp) member
  exact (List.mem_erase_of_ne other).mpr (holds.allocated e (List.mem_cons_of_mem p member))

theorem survives_stopped {ρ : Type} {left : List Ptr} (stop : Stop) :
    ¬ Survives net bucket core queue left (.error stop : Except Stop (State × ρ)) :=
  fun survives => survives.returns stop rfl

/-- A call that changes packets alone leaves the queues as they were. -/
theorem survives_unmoved {ρ : Type} {left : List Ptr} (holds : Holds net bucket core queue) (packets : Ptr → Netbuff) (value : ρ) :
    Survives net bucket core queue left (.ok ({net with packets := packets},value)) := by
  refine ⟨nofun,?_,?_⟩
  · intro after other result moved
    cases result
    exact absurd rfl moved
  · intro after other result _
    cases result
    exact ⟨⟨holds.coreChain,holds.queueChain,holds.apart,holds.allocated⟩,rfl⟩

theorem survives_moved {ρ : Type} {left rest entries : List Ptr} (value : ρ) (moved : after.coreQueue ≠ net.coreQueue)
    (holds : Holds after bucket rest entries) (taken : rest.map after.packet = (core.map net.packet).tail)
    (handed : entries.map after.packet = queue.map net.packet ++ left.map some) :
    Survives net bucket core queue left (.ok (after,value)) := by
  refine ⟨nofun,?_,?_⟩
  · intro other result same _
    cases same
    exact ⟨rest,entries,holds,taken,handed⟩
  · intro other result same stays
    cases same
    exact absurd stays moved

/-- What `__netif_tx_queue` makes of the queues with the new entry `nqe`. -/
def State.handed (net : State) (bucket qp nb tbq nqe : Ptr) : State :=
  let net := {net.buy bucket nb with allocated := nqe :: net.allocated}
  let net := net.setBucket bucket {net.buckets bucket with queue := some tbq}
  let net := net.setEntry nqe {packet := some nb,type := (net.entries qp).type,next := none}
  let net := {net with coreQueue := (net.entries qp).next}
  net.release qp

theorem netifTxQueue_affords (malloc) {p : Ptr} (holds : Holds net bucket core queue) (head : net.coreQueue = some p)
    (packet : net.packet p = some nb) (device : bucketOf net nb = bucket)
    (affords : tbucketCanAffordPacket (net.buckets bucket) (net.packets nb) = true) :
    netifTxQueue malloc net =
      match malloc net.allocated with
      | none => .error .reset
      | some nqe => .ok (net.handed bucket p nb (queue.getLast?.getD nqe) nqe,some nb) := by
  have walked := txWalk_chain malloc (net.buy bucket nb) (p := (net.buckets bucket).queue) holds.queueChain
    (nonnull_length (chain_nodup holds.queueChain))
  have same : (net.entries p).packet = some nb := packet
  have target : (net.devices (net.packets nb).dev).queue = bucket := device
  simp only [netifTxQueue,head,same,target,affords,if_true]
  simp only [State.buy] at walked
  rw [addressSpace,walked,State.allocate]
  cases found : malloc net.allocated with
  | none => simp [State.setBucket,found,bind,Except.bind]
  | some nqe => simp [State.handed,State.buy,State.setBucket,found,bind,Except.bind,pure,Except.pure]

section Handed
variable {p tbq nqe x : Ptr}

theorem handed_coreQueue (other : p ≠ nqe) : (net.handed bucket p nb tbq nqe).coreQueue = net.next p := by
  simp [State.handed,State.release,State.setEntry,State.setBucket,State.buy,State.next,other]

@[simp] theorem handed_queue : ((net.handed bucket p nb tbq nqe).buckets bucket).queue = some tbq := by
  simp [State.handed,State.release,State.setEntry,State.setBucket]

@[simp] theorem handed_new : (net.handed bucket p nb tbq nqe).entries nqe = ⟨none,some nb,(net.entries p).type⟩ := by
  simp [State.handed,State.release,State.setEntry,State.setBucket,State.buy]

theorem handed_other (other : x ≠ nqe) : (net.handed bucket p nb tbq nqe).entries x = net.entries x := by
  simp [State.handed,State.release,State.setEntry,State.setBucket,State.buy,other]

@[simp] theorem handed_allocated :
    (net.handed bucket p nb tbq nqe).allocated = (nqe :: net.allocated).erase p := rfl

theorem handed_survives (holds : Holds net bucket (p::core) []) (fresh : nqe ∉ net.allocated) :
    Survives net bucket (p::core) [] [nb] (.ok (net.handed bucket p nb nqe nqe,some nb)) := by
  have old : ∀ e ∈ p::core, e ≠ nqe := by
    intro e member same
    exact fresh (same ▸ holds.allocated e (by simpa using member))
  have rest : ∀ e ∈ core, e ≠ nqe := fun e member => old e (List.mem_cons_of_mem p member)
  have head : net.coreQueue = some p := holds.coreChain.1
  refine survives_moved _ ?_ (⟨?_,?_,?_,?_⟩ : Holds _ bucket core [nqe]) ?_ ?_
  · rw [handed_coreQueue (old p (by simp)),head]
    exact chain_irrefl holds.coreChain List.mem_cons_self
  · rw [handed_coreQueue (old p (by simp))]
    exact seg_congr holds.coreChain.2 (fun e member => congrArg NetbuffQueue.next (handed_other (rest e member)))
  · exact ⟨by simp,by simp [State.next]⟩
  · intro e member
    simpa using rest e member
  · intro e member
    rcases List.mem_append.mp member with member | member
    · have kept := release_allocated holds (List.mem_append_left [] member)
      have distinct : e ≠ p := by
        intro same
        subst same
        exact (List.nodup_cons.mp (chain_nodup holds.coreChain)).1 member
      exact (List.mem_erase_of_ne distinct).mpr (List.mem_cons_of_mem nqe (List.mem_of_mem_erase kept))
    · obtain rfl := List.mem_singleton.mp member
      exact (List.mem_erase_of_ne (old p (by simp)).symm).mpr List.mem_cons_self
  · exact List.map_congr_left (fun e member => congrArg NetbuffQueue.packet (handed_other (rest e member)))
  · simp [State.packet]

/-- The queue of the device is cut down to its last entry, and the new entry is not linked. -/
theorem handed_drops (holds : Holds net bucket (p::core) queue) (fresh : nqe ∉ net.allocated) (filled : queue ≠ []) :
    ¬ Survives net bucket (p::core) queue [nb] (.ok (net.handed bucket p nb (queue.getLast?.getD nqe) nqe,some nb)) := by
  obtain ⟨before,last,split⟩ := (List.eq_nil_or_concat' queue).resolve_left filled
  subst split
  have old : ∀ e ∈ p::core ++ (before ++ [last]), e ≠ nqe := fun e member same => fresh (same ▸ holds.allocated e member)
  obtain ⟨r,-,-,stop⟩ := (seg_append _ _ _ _ _).mp holds.queueChain
  have loop := chain_irrefl holds.coreChain (List.mem_cons_self (a := p))
  have head : net.coreQueue = some p := holds.coreChain.1
  have moved : (net.handed bucket p nb ((before ++ [last]).getLast?.getD nqe) nqe).coreQueue ≠ net.coreQueue := by
    rw [handed_coreQueue (old p (by simp)),head]
    exact loop
  have chain : Chain (net.handed bucket p nb ((before ++ [last]).getLast?.getD nqe) nqe).next
      ((net.handed bucket p nb ((before ++ [last]).getLast?.getD nqe) nqe).buckets bucket).queue [last] :=
    ⟨by simp,(congrArg NetbuffQueue.next (handed_other (old last (by simp)))).trans stop⟩
  exact survives_fails (by simp) moved chain (by simp)

end Handed

theorem netifTxQueue_survives (fresh : Fresh malloc) (holds : Holds net bucket core queue)
    (device : ∀ nb, headPacket net = some nb → bucketOf net nb = bucket)
    (runs : netifTxQueue malloc net ≠ .error .reset) :
    Survives net bucket core queue (headPacket net).toList (netifTxQueue malloc net) ↔
      (net.coreQueue ≠ none → headPacket net ≠ none) ∧
      ∀ nb, headPacket net = some nb → tbucketCanAffordPacket (net.buckets bucket) (net.packets nb) = true →
        (net.buckets bucket).queue = none := by
  cases head : net.coreQueue with
  | none =>
    have result : netifTxQueue malloc net = .ok (net,none) := by simp [netifTxQueue,head]
    rw [result]
    simp [headPacket,head,survives_unmoved holds net.packets none]
  | some p =>
    cases packet : net.packet p with
    | none =>
      have result : netifTxQueue malloc net = .error .nullPacket := by
        simp [netifTxQueue,head,show (net.entries p).packet = none from packet]
      rw [result]
      exact iff_of_false (survives_stopped _) fun hands => hands.1 nofun (by simp [headPacket,head,packet])
    | some nb =>
      have first : headPacket net = some nb := by simp [headPacket,head,packet]
      have target := device nb first
      obtain ⟨rest,rfl,-,-⟩ := core_split holds head
      simp only [first,Option.some.injEq,forall_eq',Option.toList_some,ne_eq,reduceCtorEq,not_false_eq_true,implies_true,
        true_and]
      cases affords : tbucketCanAffordPacket (net.buckets bucket) (net.packets nb) with
      | false =>
        have result : netifTxQueue malloc net = .ok (net,none) := by
          simp [netifTxQueue,head,show (net.entries p).packet = some nb from packet,
            show (net.devices (net.packets nb).dev).queue = bucket from target,affords]
        rw [result]
        simp [survives_unmoved holds net.packets none]
      | true =>
        have result := netifTxQueue_affords malloc holds head packet target affords
        cases found : malloc net.allocated with
        | none =>
          rw [found] at result
          exact absurd result runs
        | some nqe =>
          have unused := fresh _ _ found
          rw [found] at result
          rw [result]
          cases queue with
          | nil =>
            have empty : (net.buckets bucket).queue = none := holds.queueChain
            exact ⟨fun _ _ => empty,fun _ => handed_survives holds unused⟩
          | cons e queue =>
            have drops : ¬Survives net bucket _ (e::queue) [nb] _ := handed_drops holds unused (List.cons_ne_nil e queue)
            have filled : (net.buckets bucket).queue = some e := holds.queueChain.1
            rw [filled]
            exact ⟨fun survives => absurd survives drops,fun empty => absurd (empty rfl) (Option.some_ne_none e)⟩

theorem tagged_packets (net : State) (nb : Ptr) : ∃ packets, tagged net nb = {net with packets := packets} ∧
    ∀ x, (packets x).next = (net.packets x).next ∧ (packets x).dev = (net.packets x).dev ∧
      (packets x).length = (net.packets x).length := by
  unfold tagged
  split
  · refine ⟨_,rfl,?_⟩
    intro x
    by_cases same : x = nb <;> simp [same]
  · exact ⟨_,rfl,fun x => ⟨rfl,rfl,rfl⟩⟩

/-- The queues after the head entry `p` was taken out of the core queue. -/
def State.popped (net : State) (p : Ptr) : State := ({net with coreQueue := (net.entries p).next} : State).release p

section Dequeue
variable (malloc) {p dev : Ptr} {left : List Ptr}

theorem dequeue_walk (holds : Holds net bucket core queue) (device : (net.devices dev).queue = bucket) :
    dequeue malloc net p nb dev = (do
      let net ← xmitWalk malloc bucket queue.getLast? addressSpace (net.popped p) nb
      return (net,DEV_OK)) := by
  have last := listLastEntry_chain (net.popped p) holds.queueChain
  subst device
  simp only [dequeue]
  simp only [State.popped,State.release] at last ⊢
  rw [last]
  rfl

theorem dequeue_survives (holds : Holds net bucket (p::core) queue) (device : (net.devices dev).queue = bucket)
    (chain : Chain net.segment (some nb) segments) (affords : cost net segments ≤ (net.buckets bucket).tokens.toNat) :
    Survives net bucket (p::core) queue [] (dequeue malloc net p nb dev) := by
  have segments : Chain (net.popped p).segment (some nb) segments := chain
  obtain ⟨tokens,walked⟩ := xmitFrom_bought malloc bucket queue.getLast? segments
    (nonnull_length (chain_nodup chain)).le affords
  rw [xmitFrom] at walked
  rw [dequeue_walk malloc holds device,addressSpace,walked]
  have head : net.coreQueue = some p := holds.coreChain.1
  refine survives_moved _ ?_ (⟨holds.coreChain.2,?_,?_,?_⟩ : Holds _ bucket core queue) rfl ?_
  · rw [head]
    exact chain_irrefl holds.coreChain List.mem_cons_self
  · rw [setBucket_same]
    exact holds.queueChain
  · exact fun e member => holds.apart e (List.mem_cons_of_mem p member)
  · intro e member
    have kept : e ∈ net.allocated.erase p := release_allocated holds member
    exact kept
  · exact (List.append_nil _).symm

theorem dequeue_fails (holds : Holds net bucket (p::core) queue) (device : (net.devices dev).queue = bucket)
    (chain : Chain net.segment (some nb) segments) (poor : (net.buckets bucket).tokens.toNat < cost net segments)
    (missing : left ≠ []) (runs : dequeue malloc net p nb dev ≠ .error .reset) :
    ¬ Survives net bucket (p::core) queue left (dequeue malloc net p nb dev) := by
  have segments : Chain (net.popped p).segment (some nb) segments := chain
  have bound := (nonnull_length (chain_nodup chain)).le
  have moved : (net.popped p).coreQueue ≠ net.coreQueue := by
    rw [holds.coreChain.1]
    exact chain_irrefl holds.coreChain List.mem_cons_self
  rw [dequeue_walk malloc holds device] at runs ⊢
  cases List.eq_nil_or_concat' queue with
  | inl empty =>
    subst empty
    have ended := xmitFrom_null malloc bucket segments bound poor
    rw [xmitFrom] at ended
    rcases ended with null | reset
    · rw [List.getLast?_nil,addressSpace,null]
      exact survives_stopped .null
    · rw [List.getLast?_nil,addressSpace,reset] at runs
      exact absurd rfl runs
  | inr split =>
    obtain ⟨before,last,split⟩ := split
    subst split
    obtain ⟨r,-,-,tail⟩ := (seg_append _ _ _ _ _).mp holds.queueChain
    have stop : (net.popped p).next last = none := tail
    rw [List.getLast?_concat] at runs ⊢
    have ended := xmitFrom_linked malloc bucket stop segments bound
    simp only [xmitFrom] at ended
    rcases ended with ⟨after,walked,linked⟩ | reset
    · rw [addressSpace,walked]
      have chain : Chain after.next (after.buckets bucket).queue (before ++ [last]) := by
        rw [linked.next,linked.queue]
        exact holds.queueChain
      exact survives_fails missing (linked.coreQueue ▸ moved) chain le_rfl
    · rw [addressSpace,reset] at runs
      exact absurd rfl runs

end Dequeue

theorem survives_packets {ρ : Type} {left : List Ptr} (packets : Ptr → Netbuff) {result : Except Stop (State × ρ)} :
    Survives {net with packets := packets} bucket core queue left result ↔ Survives net bucket core queue left result :=
  ⟨fun survives => ⟨survives.returns,survives.packets,survives.stays⟩,
    fun survives => ⟨survives.returns,survives.packets,survives.stays⟩⟩

variable {gsoSegment : Ptr → Ptr → UInt16 → (Ptr → Netbuff) → (Ptr → Netbuff) × Int}

/-- A packet that is too large stays in the core queue, with or without segmentation. -/
theorem netifStartXmit_large (malloc) (gsoSegment) {p : Ptr} (head : net.coreQueue = some p) (packet : net.packet p = some nb)
    (large : netifNbNeedsGso (tagged net nb) nb = true) :
    ∃ packets, netifStartXmit malloc gsoSegment net = .ok ({net with packets := packets},DEV_ERROR) := by
  obtain ⟨tags,same,-⟩ := tagged_packets net nb
  simp only [netifStartXmit,head,show (net.entries p).packet = some nb from packet,large,if_true]
  rw [same]
  split
  · simp only [netifEvalErr,if_true]
    rw [← head]
    exact ⟨_,rfl⟩
  · rw [← head]
    exact ⟨_,rfl⟩

theorem netifStartXmit_small (malloc) (gsoSegment) {p : Ptr} (head : net.coreQueue = some p) (packet : net.packet p = some nb)
    (small : netifNbNeedsGso (tagged net nb) nb = false) :
    netifStartXmit malloc gsoSegment net =
      dequeue malloc (tagged net nb) p nb (netbuffDev ((tagged net nb).packets nb)) := by
  simp [netifStartXmit,head,show (net.entries p).packet = some nb from packet,small]

theorem netifStartXmit_survives (holds : Holds net bucket core queue)
    (chain : Chain net.segment (headPacket net) segments)
    (device : ∀ nb, headPacket net = some nb → bucketOf net nb = bucket)
    (runs : netifStartXmit malloc gsoSegment net ≠ .error .reset) :
    Survives net bucket core queue (unsent net (net.buckets bucket) segments) (netifStartXmit malloc gsoSegment net) ↔
      net.coreQueue ≠ none ∧ ∀ nb, headPacket net = some nb →
        netifNbNeedsGso net nb = true ∨ cost net segments ≤ (net.buckets bucket).tokens.toNat := by
  cases head : net.coreQueue with
  | none =>
    have result : netifStartXmit malloc gsoSegment net = .error .null := by simp [netifStartXmit,head]
    rw [result]
    exact iff_of_false (survives_stopped .null) fun hands => hands.1 rfl
  | some p =>
    obtain ⟨rest,rfl,-,-⟩ := core_split holds head
    cases packet : net.packet p with
    | none =>
      have result : netifStartXmit malloc gsoSegment net = .ok (net,DEV_ERROR) := by
        simp [netifStartXmit,head,show (net.entries p).packet = none from packet]
      rw [result]
      simp [survives_unmoved holds net.packets DEV_ERROR,headPacket,head,packet]
    | some nb =>
      have first : headPacket net = some nb := by simp [headPacket,head,packet]
      have target := device nb first
      obtain ⟨tags,same,kept⟩ := tagged_packets net nb
      rw [first] at chain
      have needs : netifNbNeedsGso (tagged net nb) nb = netifNbNeedsGso net nb := by
        rw [same]
        simp [netifNbNeedsGso,(kept nb).2.1,(kept nb).2.2]
      simp only [first,Option.some.injEq,forall_eq',ne_eq,reduceCtorEq,not_false_eq_true,true_and]
      cases large : netifNbNeedsGso net nb with
      | true =>
        obtain ⟨packets,result⟩ := netifStartXmit_large malloc gsoSegment head packet (needs.trans large)
        rw [result]
        simp [survives_unmoved holds packets DEV_ERROR]
      | false =>
        have result := netifStartXmit_small malloc gsoSegment head packet (needs.trans large)
        have tagHolds : Holds {net with packets := tags} bucket (p::rest) queue :=
          ⟨holds.coreChain,holds.queueChain,holds.apart,holds.allocated⟩
        have tagDevice : (net.devices (netbuffDev (tags nb))).queue = bucket := by
          rw [netbuffDev,(kept nb).2.1]
          exact target
        have tagChain : Chain (State.segment {net with packets := tags}) (some nb) segments :=
          seg_congr chain fun x _ => (kept x).1
        have tagCost : cost {net with packets := tags} segments = cost net segments := by
          simp [cost,(kept _).2.2]
        rw [same] at result
        rw [result] at runs ⊢
        rw [← survives_packets tags]
        simp only [Bool.false_eq_true,false_or]
        by_cases affords : cost net segments ≤ (net.buckets bucket).tokens.toNat
        · rw [unsent_nil.mpr affords]
          have survives := dequeue_survives malloc tagHolds tagDevice tagChain (tagCost ▸ affords)
          exact ⟨fun _ => affords,fun _ => survives⟩
        · have left : unsent net (net.buckets bucket) segments ≠ [] := mt unsent_nil.mp affords
          have poor : (net.buckets bucket).tokens.toNat < cost {net with packets := tags} segments := by omega
          have fails := dequeue_fails malloc tagHolds tagDevice tagChain poor left runs
          exact ⟨fun survives => absurd survives fails,fun enough => absurd enough affords⟩

/-- The hand-over keeps all packets exactly where `__netif_tx_queue` finds a packet, which it cannot
afford or for which the device's queue is empty, and where `__netif_start_xmit` can buy all segments of
the packet it takes. -/
theorem handover_survives (malloc) (gsoSegment) (net : State) (bucket : Ptr) (core queue segments : List Ptr)
    (fresh : Fresh malloc) (holds : Holds net bucket core queue) (chain : Chain net.segment (headPacket net) segments)
    (device : ∀ nb, headPacket net = some nb → bucketOf net nb = bucket) :
    (netifTxQueue malloc net ≠ .error .reset →
      (Survives net bucket core queue (headPacket net).toList (netifTxQueue malloc net) ↔
        (net.coreQueue ≠ none → headPacket net ≠ none) ∧
        ∀ nb, headPacket net = some nb → tbucketCanAffordPacket (net.buckets bucket) (net.packets nb) = true →
          (net.buckets bucket).queue = none)) ∧
    (netifStartXmit malloc gsoSegment net ≠ .error .reset →
      (Survives net bucket core queue (unsent net (net.buckets bucket) segments) (netifStartXmit malloc gsoSegment net) ↔
        net.coreQueue ≠ none ∧ ∀ nb, headPacket net = some nb →
          netifNbNeedsGso net nb = true ∨ cost net segments ≤ (net.buckets bucket).tokens.toNat)) :=
  ⟨netifTxQueue_survives fresh holds device,netifStartXmit_survives holds chain device⟩

section Backlog

def pointer (n : Nat) (valid : (n : BitVec 16) ≠ 0 := by decide) : Ptr := ⟨n,valid⟩

/-- Entry 1 of the core queue and entry 2 of the device's queue, with a packet of 60 bytes each;
the bucket has 100 tokens. -/
def backlog : State where
  entries p := ⟨none,some (if p = pointer 1 then pointer 3 else pointer 4),1⟩
  packets _ := ⟨none,pointer 5,pointer 6,0,0,none,60⟩
  devices _ := ⟨1500,pointer 7⟩
  buckets _ := ⟨some (pointer 2),100⟩
  vlans _ := ⟨0,0,0,0⟩
  coreQueue := some (pointer 1)
  allocated := [pointer 1,pointer 2]

/-- The heap finds entry 8 next. -/
def nextBlock (used : List Ptr) : Option Ptr := if pointer 8 ∈ used then none else some (pointer 8)

theorem nextBlock_fresh : Fresh nextBlock := by
  intro used p found
  unfold nextBlock at found
  split at found
  · cases found
  · rename_i unused
    exact Option.some.inj found ▸ unused

theorem backlog_holds : Holds backlog (pointer 7) [pointer 1] [pointer 2] where
  coreChain := ⟨rfl,rfl⟩
  queueChain := ⟨rfl,rfl⟩
  apart := List.forall_mem_singleton.mpr (by decide)
  allocated := fun _ => id

/-- The device's queue held the packet 4 and should now hold 4 and 3. -/
theorem backlog_dropped : Fresh nextBlock ∧ Holds backlog (pointer 7) [pointer 1] [pointer 2] ∧
    headPacket backlog = some (pointer 3) ∧ bucketOf backlog (pointer 3) = pointer 7 ∧
    netifTxQueue nextBlock backlog ≠ .error .reset ∧
    ¬ Survives backlog (pointer 7) [pointer 1] [pointer 2] [pointer 3] (netifTxQueue nextBlock backlog) := by
  have packet : backlog.packet (pointer 1) = some (pointer 3) := rfl
  have queued := netifTxQueue_affords nextBlock backlog_holds rfl packet rfl rfl
  have result : netifTxQueue nextBlock backlog =
      .ok (backlog.handed (pointer 7) (pointer 1) (pointer 3) (pointer 2) (pointer 8),some (pointer 3)) := by
    rw [queued]
    rfl
  refine ⟨nextBlock_fresh,backlog_holds,rfl,rfl,by simp [result],?_⟩
  rw [result]
  exact handed_drops backlog_holds (by decide) (by decide)

/-- The same packets with nothing queued at the device. -/
def idle : State := {backlog with buckets := fun _ => ⟨none,100⟩,allocated := [pointer 1]}

theorem idle_holds : Holds idle (pointer 7) [pointer 1] [] where
  coreChain := ⟨rfl,rfl⟩
  queueChain := rfl
  apart := fun _ _ => List.not_mem_nil
  allocated := fun _ => id

theorem handover_survives_idle :
    Survives idle (pointer 7) [pointer 1] [] [pointer 3] (netifTxQueue nextBlock idle) ∧
    Survives idle (pointer 7) [pointer 1] [] [] (netifStartXmit nextBlock (fun _ _ _ packets => (packets,0)) idle) := by
  have packet : idle.packet (pointer 1) = some (pointer 3) := rfl
  have affords := netifTxQueue_affords nextBlock idle_holds rfl packet rfl rfl
  have queued : netifTxQueue nextBlock idle =
      .ok (idle.handed (pointer 7) (pointer 1) (pointer 3) (pointer 8) (pointer 8),some (pointer 3)) := by
    rw [affords]
    rfl
  have survives := handover_survives nextBlock (fun _ _ _ packets => (packets,0)) idle (pointer 7) [pointer 1] []
    [pointer 3] nextBlock_fresh idle_holds ⟨rfl,rfl⟩ (fun nb _ => rfl)
  refine ⟨(survives.1 (by simp [queued])).mpr ⟨fun _ => by decide,fun _ _ _ => rfl⟩,(survives.2 ?_).mpr ⟨by decide,?_⟩⟩
  · intro stop
    exact absurd (congrArg Except.toBool stop) (by decide)
  · intro nb _
    exact .inr (by decide)

end Backlog

end BermudaOS.Net.Netif
