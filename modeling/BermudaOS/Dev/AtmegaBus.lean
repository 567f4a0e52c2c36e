import BermudaOS.Dev.AtmegaChain
import BermudaOS.Lib.Rendezvous

/-! Two adapters on one bus, a master and a slave, each with the handler of `dev/i2c/busses/atmega-i2c.c`.
An adapter holds the clock from the report of its hardware to the end of its handler, so the bus goes on when
both handlers are through. A second master on the bus is left out. -/
namespace BermudaOS.Dev.AtmegaI2c
open Lib.Rendezvous I2cMsg

/-- An adapter, with the status that its hardware reports. -/
structure Node (Msg : Type) where
  i2c : I2c Msg
  status : Option Nat

inductive Phase where
  | idle
  | started
  /-- The slave has acknowledged its address, to receive. -/
  | writing
  /-- The slave has acknowledged its address, to transmit. -/
  | reading
  /-- No slave takes part any more, in what the master writes or in what it reads. -/
  | refused (reads : Bool)
  deriving DecidableEq

structure Wire where
  phase : Phase
  trace : List Event

variable {Msg Own Peer : Type} [DecidableEq Msg] [DecidableEq Own] [DecidableEq Peer]

def Node.handle (nullAddr : Stray) (n : Node Msg) : Option (Node Msg) :=
  n.status.map fun status => ⟨twiStc nullAddr status n.i2c,none⟩

def Follows (s : I2c Msg) : Bool := s.twcr.getLsbD 7 && !s.twcr.getLsbD 5 && !s.twcr.getLsbD 4

/-- A start or stop condition, which the slave reports when it has been receiving. -/
def conditioned (p : Phase) (s : I2c Msg) : Node Msg := ⟨s,if p = .writing then some 0xA0 else none⟩

/-- Bits 1 to 7 are the address. -/
def Addresses (own byte : BitVec 8) : Bool := byte >>> 1 == own >>> 1

/-- What the hardware of the two does, where `own` is the address of the slave. -/
def meet (own : BitVec 8) (master : Node Own) (slave : Node Peer) (wire : Wire) :
    Option (Node Own × Node Peer × Wire) :=
  let m := master.i2c
  let s := slave.i2c
  if ¬ m.twcr.getLsbD 7 ∨ ¬ Follows s then none
  else if m.twcr.getLsbD 5 then
    some (⟨m,some (if wire.phase = .idle then 0x08 else 0x10)⟩,conditioned wire.phase s,⟨.started,wire.trace ++ [.start]⟩)
  else if m.twcr.getLsbD 4 then
    some (⟨{m with twcr := m.twcr &&& ~~~TWSTO},none⟩,conditioned wire.phase s,⟨.idle,wire.trace ++ [.stop]⟩)
  else match wire.phase with
    | .idle => none
    | .started =>
      let trace := wire.trace ++ [.address m.twdr]
      let reads := m.twdr.getLsbD 0
      if s.twcr.getLsbD 6 && Addresses own m.twdr then
        some (⟨m,some (if reads then 0x40 else 0x18)⟩,⟨{s with twdr := m.twdr},some (if reads then 0xA8 else 0x60)⟩,
          ⟨if reads then .reading else .writing,trace⟩)
      else some (⟨m,some (if reads then 0x48 else 0x20)⟩,⟨s,none⟩,⟨.refused reads,trace⟩)
    | .writing =>
      let trace := wire.trace ++ [.sent m.twdr]
      if s.twcr.getLsbD 6 then some (⟨m,some 0x28⟩,⟨{s with twdr := m.twdr},some 0x80⟩,⟨.writing,trace⟩)
      else some (⟨m,some 0x30⟩,⟨{s with twdr := m.twdr},some 0x88⟩,⟨.refused false,trace⟩)
    | .reading =>
      let acked := m.twcr.getLsbD 6
      let trace := wire.trace ++ [.received s.twdr acked]
      some (⟨{m with twdr := s.twdr},some (if acked then 0x50 else 0x58)⟩,
        ⟨s,some (if acked then if s.twcr.getLsbD 6 then 0xB8 else 0xC8 else 0xC0)⟩,
        ⟨if acked && s.twcr.getLsbD 6 then .reading else .refused true,trace⟩)
    | .refused false => some (⟨m,some 0x30⟩,⟨s,none⟩,⟨.refused false,wire.trace ++ [.sent m.twdr]⟩)
    | .refused true =>
      let acked := m.twcr.getLsbD 6
      -- the lines of a bus that nobody drives are high
      some (⟨{m with twdr := 0xFF},some (if acked then 0x50 else 0x58)⟩,⟨s,none⟩,
        ⟨.refused true,wire.trace ++ [.received 0xFF acked]⟩)

/-- The two adapters, whose handlers run in any order. -/
def peers (nullAddr strayAddr : Stray) (own : BitVec 8) : Parties (Node Own) (Node Peer) Wire where
  left := Node.handle nullAddr
  right := Node.handle strayAddr
  meet := meet own

theorem handle_brief (nullAddr : Stray) (n done : Node Msg) (handled : n.handle nullAddr = some done) :
    done.handle nullAddr = none := by
  obtain ⟨status,-,rfl⟩ := Option.map_eq_some_iff.mp handled
  rfl

theorem peers_brief (nullAddr strayAddr : Stray) (own : BitVec 8) :
    (peers nullAddr strayAddr own : Parties (Node Own) (Node Peer) Wire).Brief :=
  ⟨handle_brief nullAddr,handle_brief strayAddr⟩

/-! The slave, for the events of a master whose bytes are all acknowledged -/

/-- What an event on the bus makes of the slave, where the slave does its part in it. -/
def hear (own : BitVec 8) (e : Event) (p : Phase) (s : I2c Msg) : Option (Node Msg × Phase) :=
  if ¬ Follows s then none
  else match e,p with
    | .start,p => some (conditioned p s,.started)
    | .stop,p => some (conditioned p s,.idle)
    | .address byte,.started =>
      if s.twcr.getLsbD 6 && Addresses own byte then
        some (⟨{s with twdr := byte},some (if byte.getLsbD 0 then 0xA8 else 0x60)⟩,
          if byte.getLsbD 0 then .reading else .writing)
      else none
    | .sent byte,.writing => if s.twcr.getLsbD 6 then some (⟨{s with twdr := byte},some 0x80⟩,.writing) else none
    | .received byte acked,.reading =>
      if s.twdr = byte then
        some (⟨s,some (if acked then if s.twcr.getLsbD 6 then 0xB8 else 0xC8 else 0xC0)⟩,
          if acked && s.twcr.getLsbD 6 then .reading else .refused true)
      else none
    | .received byte _,.refused true => if byte = 0xFF then some (⟨s,none⟩,.refused true) else none
    | _,_ => none

def Node.after (nullAddr : Stray) (n : Node Msg) : I2c Msg := (settled (Node.handle nullAddr) n).i2c

def hearAll (strayAddr : Stray) (own : BitVec 8) : List Event → Node Msg × Phase → Option (Node Msg × Phase)
  | [],x => some x
  | e::es,(n,p) => (hear own e p (n.after strayAddr)).bind (hearAll strayAddr own es)

/-- The status of the master belongs to the phase of the bus. -/
def Agrees (status : Nat) (p : Phase) : Prop :=
  (status = 0x08 ∨ status = 0x10) ∧ p = .started ∨ (status = 0x18 ∨ status = 0x28) ∧ p = .writing ∨
    (status = 0x40 ∨ status = 0x50) ∧ (p = .reading ∨ p = .refused true) ∨ status = 0x58 ∧ p = .refused true

section Bridge

variable {nullAddr strayAddr : Stray} {own : BitVec 8} {incoming : Nat → BitVec 8} {status last k k' : Nat} {p p' : Phase}
  {e : Event} {es trace trace' : List Event} {s t u : I2c Own} {n n' : Node Peer} {b : I2c Peer}
  {byte : BitVec 8}

omit [DecidableEq Own] in
theorem agrees_idle (agrees : Agrees status p) : p ≠ .idle := by
  rintro rfl
  simp [Agrees] at agrees

omit [DecidableEq Peer] in
theorem hear_follows (heard : hear own e p b = some (n',p')) : Follows b = true := by
  by_contra stays
  simp [hear,stays] at heard

omit [DecidableEq Peer] in
theorem hear_address (heard : hear own (.address byte) p b = some (n',p')) :
    p = .started ∧ (b.twcr.getLsbD 6 && Addresses own byte) = true ∧
      n' = ⟨{b with twdr := byte},some (if byte.getLsbD 0 then 0xA8 else 0x60)⟩ ∧
      p' = if byte.getLsbD 0 then .reading else .writing := by
  unfold hear at heard
  rw [if_neg (not_not.mpr (hear_follows heard))] at heard
  cases p with
  | started =>
    dsimp only at heard
    split at heard
    · rename_i takes
      obtain ⟨rfl,rfl⟩ := Prod.mk.inj (Option.some.inj heard)
      exact ⟨rfl,takes,rfl,rfl⟩
    · cases heard
  | idle | writing | reading | refused => cases heard

omit [DecidableEq Peer] in
theorem hear_sent (heard : hear own (.sent byte) p b = some (n',p')) :
    p = .writing ∧ b.twcr.getLsbD 6 = true ∧ n' = ⟨{b with twdr := byte},some 0x80⟩ ∧ p' = .writing := by
  unfold hear at heard
  rw [if_neg (not_not.mpr (hear_follows heard))] at heard
  cases p with
  | writing =>
    dsimp only at heard
    split at heard
    · rename_i takes
      obtain ⟨rfl,rfl⟩ := Prod.mk.inj (Option.some.inj heard)
      exact ⟨rfl,takes,rfl,rfl⟩
    · cases heard
  | idle | started | reading | refused => cases heard

omit [DecidableEq Peer] in
theorem hear_received {acked : Bool} (heard : hear own (.received byte acked) p b = some (n',p')) :
    p = .reading ∧ b.twdr = byte ∧ n' = ⟨b,some (if acked then if b.twcr.getLsbD 6 then 0xB8 else 0xC8 else 0xC0)⟩ ∧
        p' = (if acked && b.twcr.getLsbD 6 then .reading else .refused true) ∨
      p = .refused true ∧ byte = 0xFF ∧ n' = ⟨b,none⟩ ∧ p' = .refused true := by
  unfold hear at heard
  rw [if_neg (not_not.mpr (hear_follows heard))] at heard
  cases p with
  | reading =>
    dsimp only at heard
    split at heard
    · rename_i driven
      obtain ⟨rfl,rfl⟩ := Prod.mk.inj (Option.some.inj heard)
      exact .inl ⟨rfl,driven,rfl,rfl⟩
    · cases heard
  | refused reads =>
    cases reads with
    | false => cases heard
    | true =>
      dsimp only at heard
      split at heard
      · rename_i high
        obtain ⟨rfl,rfl⟩ := Prod.mk.inj (Option.some.inj heard)
        exact .inr ⟨rfl,high,rfl,rfl⟩
      · cases heard
  | idle | started | writing => cases heard

omit [DecidableEq Own] in
theorem reaction_reports (reacted : reaction incoming status u k trace = ⟨t,some last,k',trace'⟩) : u.twcr.getLsbD 7 = true ∧
    (u.twcr.getLsbD 5 = true ∧ t = u ∧ last = 0x10 ∧ trace' = trace ++ [.start] ∨
      u.twcr.getLsbD 5 = false ∧ u.twcr.getLsbD 4 = false ∧
        ((status = 0x08 ∨ status = 0x10) ∧ t = u ∧ last = (if u.twdr.getLsbD 0 then 0x40 else 0x18) ∧
            trace' = trace ++ [.address u.twdr] ∨
          (status = 0x18 ∨ status = 0x28) ∧ t = u ∧ last = 0x28 ∧ trace' = trace ++ [.sent u.twdr] ∨
          (status = 0x40 ∨ status = 0x50) ∧ t = {u with twdr := incoming k} ∧
            last = (if u.twcr.getLsbD 6 then 0x50 else 0x58) ∧
            trace' = trace ++ [.received (incoming k) (u.twcr.getLsbD 6)])) := by
  unfold reaction at reacted
  split at reacted
  · simp at reacted
  · rename_i interrupt
    rw [not_not] at interrupt
    refine ⟨interrupt,?_⟩
    split at reacted
    · rename_i start
      simp only [Link.mk.injEq,Option.some.injEq] at reacted
      obtain ⟨rfl,rfl,-,rfl⟩ := reacted
      exact .inl ⟨start,rfl,rfl,rfl⟩
    · rename_i start
      split at reacted
      · simp at reacted
      · rename_i stop
        rw [Bool.not_eq_true] at start stop
        refine .inr ⟨start,stop,?_⟩
        split at reacted <;> simp only [Link.mk.injEq,Option.some.injEq,reduceCtorEq,false_and,and_false] at reacted
        all_goals
          obtain ⟨rfl,rfl,-,rfl⟩ := reacted
          simp

omit [DecidableEq Own] [DecidableEq Peer] in
/-- Where the slave hears what the master alone makes of its registers, the two meet. -/
theorem meet_reaction {st st' : Option Nat} (reacted : reaction incoming status u k trace = ⟨t,some last,k',trace ++ [e]⟩)
    (agrees : Agrees status p) (heard : hear own e p b = some (n',p')) :
    meet own (⟨u,st⟩ : Node Own) ⟨b,st'⟩ ⟨p,trace⟩ = some (⟨t,some last⟩,n',⟨p',trace ++ [e]⟩) ∧ Agrees last p' := by
  have follows := hear_follows heard
  obtain ⟨interrupt,asked⟩ := reaction_reports reacted
  have both : ¬ (¬ u.twcr.getLsbD 7 = true ∨ ¬ Follows b = true) := by
    rw [not_or,not_not,not_not]
    exact ⟨interrupt,follows⟩
  obtain ⟨start,rfl,rfl,event⟩ | ⟨start,stop,byte⟩ := asked
  · obtain rfl : e = .start := by simpa using event
    obtain ⟨rfl,rfl⟩ : conditioned p b = n' ∧ .started = p' := by simpa [hear,follows] using heard
    refine ⟨?_,.inl ⟨.inr rfl,rfl⟩⟩
    unfold meet
    dsimp only
    rw [if_neg both,if_pos start,if_neg (agrees_idle agrees)]
  unfold meet
  dsimp only
  rw [if_neg both,if_neg (Bool.not_eq_true _ ▸ start),if_neg (Bool.not_eq_true _ ▸ stop)]
  obtain ⟨starts,rfl,rfl,event⟩ | ⟨sends,rfl,rfl,event⟩ | ⟨receives,rfl,rfl,event⟩ := byte
  · obtain rfl : e = .address t.twdr := by simpa using event
    obtain ⟨rfl,takes,rfl,rfl⟩ := hear_address heard
    refine ⟨if_pos takes,?_⟩
    split <;> simp [Agrees]
  · obtain rfl : e = .sent t.twdr := by simpa using event
    obtain ⟨rfl,takes,rfl,rfl⟩ := hear_sent heard
    exact ⟨if_pos takes,.inr (.inl ⟨.inr rfl,rfl⟩)⟩
  · obtain rfl : e = .received (incoming k) (u.twcr.getLsbD 6) := by simpa using event
    obtain ⟨rfl,driven,rfl,rfl⟩ | ⟨rfl,high,rfl,rfl⟩ := hear_received heard
    · rw [← driven]
      refine ⟨rfl,?_⟩
      cases u.twcr.getLsbD 6 <;> cases b.twcr.getLsbD 6 <;> simp [Agrees]
    · rw [high]
      refine ⟨rfl,?_⟩
      cases u.twcr.getLsbD 6 <;> simp [Agrees]

theorem cycle_none {link : Link Own} (over' : link.status = none) (c : Nat) : (cycle nullAddr incoming)^[c] link = link := by
  have fixed : cycle nullAddr incoming link = link := by rw [cycle,over']
  exact Function.iterate_fixed fixed c

/-- An interrupt that is followed by another one puts one event on the bus, and its signals behind it. -/
theorem cycle_event (reports : (cycle nullAddr incoming ⟨s,some status,k,trace⟩).status = some last) : ∃ t k' e, ∃ queues : List Queue,
    reaction incoming status (twiStc nullAddr status s) k trace = ⟨t,some last,k',trace ++ [e]⟩ ∧
      cycle nullAddr incoming ⟨s,some status,k,trace⟩ = ⟨t,some last,k',trace ++ e::queues.map .signal⟩ := by
  generalize queues : (twiStc nullAddr status s).signals.drop s.signals.length = signals
  have cycled : cycle nullAddr incoming ⟨s,some status,k,trace⟩ =
      {reaction incoming status (twiStc nullAddr status s) k trace with
        trace := (reaction incoming status (twiStc nullAddr status s) k trace).trace ++ signals.map .signal} := by
    rw [← queues]
    rfl
  rw [cycled] at reports ⊢
  cases reacted : reaction incoming status (twiStc nullAddr status s) k trace with
  | mk t st k' trace' =>
    rw [reacted] at reports
    obtain rfl : st = some last := reports
    obtain ⟨e,rfl⟩ : ∃ e, trace' = trace ++ [e] := by
      obtain ⟨-,⟨-,-,-,event⟩ | ⟨-,-,⟨-,-,-,event⟩ | ⟨-,-,-,event⟩ | ⟨-,-,-,event⟩⟩⟩ := reaction_reports reacted
      all_goals exact ⟨_,event⟩
    exact ⟨t,k',e,signals,rfl,by simp⟩

variable (nullAddr incoming) in
theorem cycle_extends (link : Link Own) : ∃ es, (cycle nullAddr incoming link).trace = link.trace ++ es := by
  obtain ⟨s,status,k,trace⟩ := link
  cases status with
  | none => exact ⟨[],by simp [cycle]⟩
  | some status =>
    have grows : ∃ es, (reaction incoming status (twiStc nullAddr status s) k trace).trace = trace ++ es := by
      unfold reaction
      split
      · exact ⟨[],by simp⟩
      · split
        · exact ⟨_,rfl⟩
        · split
          · exact ⟨_,rfl⟩
          · split
            all_goals first | exact ⟨_,rfl⟩ | exact ⟨[],by simp⟩
    obtain ⟨es,grown⟩ := grows
    exact ⟨es ++ ((twiStc nullAddr status s).signals.drop s.signals.length).map .signal,by
      simp only [cycle,grown,List.append_assoc]⟩

variable (nullAddr incoming) in
theorem cycles_extend (link : Link Own) (c : Nat) : ∃ es, ((cycle nullAddr incoming)^[c] link).trace = link.trace ++ es := by
  induction c with
  | zero => exact ⟨[],(List.append_nil _).symm⟩
  | succ c ih =>
    obtain ⟨es,grown⟩ := ih
    obtain ⟨more,grown'⟩ := cycle_extends nullAddr incoming ((cycle nullAddr incoming)^[c] link)
    exact ⟨es ++ more,by rw [Function.iterate_succ_apply',grown',grown,List.append_assoc]⟩

/-- The adapters go through a part of a transfer that the master alone goes through, where the slave hears its events. -/
theorem cycles_rounds (c : Nat) (agrees : Agrees status p)
    (cycled : (cycle nullAddr incoming)^[c] ⟨s,some status,k,trace⟩ = ⟨t,some last,k',trace ++ es⟩)
    (unsignalled : ∀ queue, .signal queue ∉ es) (heard : hearAll strayAddr own es (n,p) = some (n',p')) :
    Rounds (peers nullAddr strayAddr own) es.length (⟨s,some status⟩,n,⟨p,trace⟩) (⟨t,some last⟩,n',⟨p',trace ++ es⟩) ∧
      Agrees last p' := by
  induction c generalizing s status k trace es n p with
  | zero =>
    obtain ⟨rfl,same,rfl,grown⟩ := Link.mk.inj cycled
    obtain rfl : es = [] := by simpa using grown
    obtain rfl : status = last := by simpa using same
    obtain ⟨rfl,rfl⟩ : n = n' ∧ p = p' := by simpa [hearAll] using heard
    rw [List.append_nil]
    exact ⟨.none _,agrees⟩
  | succ c ih =>
    rw [Function.iterate_succ_apply] at cycled
    cases reports : (cycle nullAddr incoming ⟨s,some status,k,trace⟩).status with
    | none =>
      rw [cycle_none reports] at cycled
      rw [cycled] at reports
      cases reports
    | some st =>
      obtain ⟨u,k₁,e,queues,reacted,once⟩ := cycle_event reports
      rw [once] at cycled
      obtain ⟨rest,grown⟩ := cycles_extend nullAddr incoming
        ⟨u,some st,k₁,trace ++ e::queues.map .signal⟩ c
      rw [cycled,List.append_assoc] at grown
      obtain rfl : es = e::(queues.map .signal ++ rest) := List.append_cancel_left grown
      obtain rfl : queues = [] := by
        cases queues with
        | nil => rfl
        | cons queue queues => exact absurd (by simp) (unsignalled queue)
      rw [hearAll,Option.bind_eq_some_iff] at heard
      obtain ⟨⟨n₁,p₁⟩,first,later⟩ := heard
      obtain ⟨met,agrees'⟩ := meet_reaction reacted agrees first
      have round : (peers nullAddr strayAddr own).round (⟨s,some status⟩,n,⟨p,trace⟩) =
          some (⟨u,some st⟩,n₁,⟨p₁,trace ++ [e]⟩) := met
      have whole : trace ++ ([e] ++ rest) = trace ++ [e] ++ rest := (List.append_assoc ..).symm
      simp only [List.map_nil,List.nil_append] at cycled unsignalled later ⊢
      obtain ⟨rounds,agrees₂⟩ := ih agrees' (whole ▸ cycled)
        (fun queue member => unsignalled queue (List.mem_cons_of_mem e member)) later
      exact ⟨.round round (whole.symm ▸ rounds),agrees₂⟩

end Bridge

end BermudaOS.Dev.AtmegaI2c
