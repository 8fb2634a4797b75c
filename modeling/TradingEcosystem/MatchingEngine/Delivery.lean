import TradingEcosystem.MatchingEngine
import TradingEcosystem.LFQueue

/-! The queue of responses between the engine, which writes to it without a look at how many
responses are unread, and the order server, which reads it at a pace of its own. -/
namespace TradingEcosystem.MatchingEngine
open Program Runs MEOrderBook

/-- The engine, its queue and, proof-only, what was passed to `sendClientResponse` and what was
read. `stopped`: a request did not return. -/
structure Delivery where
  engine : MatchingEngine
  outgoingResponses : LFQueue MEClientResponse
  stopped : Bool := false
  sent : List MEClientResponse := []
  read : List MEClientResponse := []

namespace Delivery
variable {s s' : Delivery} {strict : Bool} {n : Nat}

/-- An engine and a queue as `main` builds them. -/
def fresh (strict : Bool) : Delivery where
  engine := MatchingEngine.fresh strict
  outgoingResponses := .ofSize ME_MAX_CLIENT_UPDATES

inductive Step where
  | request (r : MEClientRequest)
  | send
  | read

/-- The engine works on a request. Its responses are those of the model; each of them is sent
in a step of its own. -/
def request (r : MEClientRequest) : EStateM Fault Delivery Unit := fun s =>
  match processClientRequest r s.engine with
  | .ok _ e => .ok () { s with engine := e }
  | .error _ e => .ok () { s with engine := e, stopped := true }

/-- The next call of `sendClientResponse`. -/
def send : EStateM Fault Delivery Unit := modify fun s =>
  match s.engine.clientResponses[s.sent.length]? with
  | none => s
  | some r => { s with outgoingResponses := s.outgoingResponses.write r, sent := s.sent ++ [r] }

/-- A turn of the loop that reads the queue. -/
def readNext : EStateM Fault Delivery Unit := fun s =>
  match if s.outgoingResponses.numElements = 0 then none else s.outgoingResponses.getNextToRead with
  | none => .ok () s
  | some r =>
    match LFQueue.updateReadIndex s.outgoingResponses with
    | .ok _ q => .ok () { s with outgoingResponses := q, read := s.read ++ [r] }
    | .error f q => .error f { s with outgoingResponses := q }

def step : Step → EStateM Fault Delivery Unit
  | .request r => request r
  | .send => send
  | .read => readNext

/-- The engine takes a request when all it has to say about the one before is sent. -/
def Ready (s : Delivery) : Step → Prop
  | .request _ => s.stopped = false ∧ s.sent.length = s.engine.clientResponses.length
  | .send => s.sent.length < s.engine.clientResponses.length
  | .read => True

instance (s : Delivery) (i : Step) : Decidable (Ready s i) := by
  cases i <;> unfold Ready <;> infer_instance

/-- A response is sent only while fewer than `size - 1` are unread. -/
def HasSlot (s : Delivery) : Step → Prop
  | .send => s.sent.length + 1 < s.read.length + s.outgoingResponses.size
  | _ => True

instance (s : Delivery) (i : Step) : Decidable (HasSlot s i) := by
  cases i <;> unfold HasSlot <;> infer_instance

/-- No response is lost, and none is said to be missing that was sent. -/
structure Delivered (s : Delivery) : Prop where
  passed : s.sent <+: s.engine.clientResponses
  inOrder : s.read <+: s.sent
  caughtUp : s.outgoingResponses.getNextToRead = none → s.read = s.sent

/-- The unread responses are in the queue. -/
structure Held (s : Delivery) (l : List MEClientResponse) : Prop where
  passed : s.sent <+: s.engine.clientResponses
  sent : s.sent = s.read ++ l
  queue : s.outgoingResponses.Holds s.read.length l

theorem Held.delivered {l : List MEClientResponse} (h : Held s l) : Delivered s where
  passed := h.passed
  inOrder := by
    rw [h.sent]
    exact List.prefix_append _ _
  caughtUp hnone := by
    rw [h.queue.getNextToRead_eq, List.head?_eq_none_iff] at hnone
    rw [h.sent, hnone, List.append_nil]

theorem responses_request (r : MEClientRequest) (e : MatchingEngine) :
    e.clientResponses <+: (final (processClientRequest r e)).clientResponses := by
  rcases processClientRequest_cases r e with ⟨f, h⟩ | ⟨i, q, b, -, -, ⟨-, h⟩ | ⟨f, -, h⟩⟩
  · rw [h]
    exact List.prefix_rfl
  · rw [h]
    exact List.prefix_append _ _
  · rw [h]
    exact List.prefix_append _ _

theorem Held.request {l : List MEClientResponse} (h : Held s l) (r : MEClientRequest) :
    ∃ s', Delivery.request r s = .ok () s' ∧ Held s' l := by
  have hgrows := h.passed.trans (responses_request r s.engine)
  unfold Delivery.request
  cases hr : processClientRequest r s.engine with
  | ok u e =>
    rw [hr] at hgrows
    exact ⟨_, rfl, hgrows, h.sent, h.queue⟩
  | error f e =>
    rw [hr] at hgrows
    exact ⟨_, rfl, hgrows, h.sent, h.queue⟩

theorem Held.readNext {l : List MEClientResponse} (h : Held s l) :
    ∃ s', Delivery.readNext s = .ok () s' ∧ Held s' l.tail := by
  cases l with
  | nil =>
    have hnone : (if s.outgoingResponses.numElements = 0 then none else s.outgoingResponses.getNextToRead) = none := by
      rw [h.queue.getNextToRead_eq]
      exact ite_self _
    rw [Delivery.readNext, hnone]
    exact ⟨s, rfl, h⟩
  | cons r l =>
    obtain ⟨q, hread, hheld, -⟩ := h.queue.updateReadIndex_eq
    rw [Delivery.readNext, if_neg h.queue.numElements_ne_zero, h.queue.getNextToRead_eq]
    dsimp only [List.head?_cons]
    rw [hread]
    refine ⟨_, rfl, h.passed, ?_, ?_⟩
    · rw [h.sent, List.append_assoc]
      rfl
    · rw [List.length_append]
      exact hheld

theorem send_eq {r : MEClientResponse} (h : s.engine.clientResponses[s.sent.length]? = some r) :
    send s = .ok () { s with outgoingResponses := s.outgoingResponses.write r, sent := s.sent ++ [r] } := by
  rw [send, modify_apply, h]

/-- Sending keeps the responses in the queue if there is a slot for one more, and loses them
all from sight if not. -/
theorem Held.send {l : List MEClientResponse} {r : MEClientResponse} (h : Held s l)
    (hr : s.engine.clientResponses[s.sent.length]? = some r) :
    ∃ s', Delivery.send s = .ok () s' ∧ (HasSlot s .send → Held s' (l ++ [r])) ∧ (¬ HasSlot s .send → ¬ Delivered s') := by
  have hlen : s.sent.length = s.read.length + l.length := by rw [h.sent, List.length_append]
  have hroom := h.queue.room
  refine ⟨_, send_eq hr, fun hslot => ⟨?_, ?_, ?_⟩, fun hfull hdelivered => ?_⟩
  · obtain ⟨rest, hrest⟩ := h.passed
    rw [← hrest, List.getElem?_append_right (Nat.le_refl _), Nat.sub_self] at hr
    cases rest with
    | nil => cases hr
    | cons r' rest =>
      cases hr
      exact ⟨rest, by rw [← hrest, List.append_assoc]; rfl⟩
  · rw [h.sent, List.append_assoc]
  · apply h.queue.write_of_room
    unfold HasSlot at hslot
    omega
  · have hsize : l.length + 1 = s.outgoingResponses.size := by
      unfold HasSlot at hfull
      omega
    have hall := congrArg List.length (hdelivered.caughtUp (h.queue.write_of_full hsize))
    simp only [List.length_append, List.length_singleton] at hall
    omega

/-- All along a run no response is lost if and only if none was sent while `size - 1` were
unread. -/
theorem run_delivered_iff {is : List Step} (h : Reaches step Ready (fresh strict) is s) :
    (∀ js t, js <+: is → Reaches step Ready (fresh strict) js t → Delivered t) ↔
      Reaches step (fun s i => Ready s i ∧ HasSlot s i) (fresh strict) is s := by
  refine h.always_iff (Q := fun s => ∃ l, Held s l) ?_ (fun s ⟨l, hl⟩ => hl.delivered) ?_
  · exact ⟨[], List.prefix_rfl, rfl, LFQueue.holds_ofSize (by decide) (by decide)⟩
  · rintro s i s' ⟨l, hl⟩ hg hstep
    cases i with
    | request r =>
      obtain ⟨t, ht, hheld⟩ := hl.request r
      rw [show step (.request r) s = .ok () t from ht] at hstep
      cases hstep
      exact ⟨fun _ => trivial, fun _ => ⟨l, hheld⟩⟩
    | read =>
      obtain ⟨t, ht, hheld⟩ := hl.readNext
      rw [show step .read s = .ok () t from ht] at hstep
      cases hstep
      exact ⟨fun _ => trivial, fun _ => ⟨_, hheld⟩⟩
    | send =>
      obtain ⟨t, ht, hheld, hlost⟩ := hl.send (List.getElem?_eq_getElem hg)
      rw [show step .send s = .ok () t from ht] at hstep
      cases hstep
      exact ⟨fun hd => by_contra fun hslot => hlost hslot hd, fun hslot => ⟨_, hheld hslot⟩⟩

theorem run_delivered_twoResponses : ∃ is s, Reaches step Ready (fresh true) is s ∧ s.read.length = 2 ∧
    s.sent.length = 2 ∧ Delivered s := by
  obtain ⟨s, h, hlength⟩ : ∃ s, Reaches step (fun s i => Ready s i ∧ HasSlot s i) (fresh true)
      [.request { type := .NEW, clientId := 1, tickerId := 2, orderId := 0, side := .BUY, price := 5, qty := 3 }, .send, .read,
        .request { type := .CANCEL, clientId := 1, tickerId := 2, orderId := 0, side := .BUY, price := 5, qty := 3 }, .read,
        .send, .read] s ∧ s.read.length = 2 ∧ s.sent.length = 2 :=
    exists_of_guarded (by decide +kernel)
  have hrun : Reaches step Ready (fresh true) _ s := h.mono fun _ _ hg => hg.1
  exact ⟨_, s, hrun, hlength.1, hlength.2, (run_delivered_iff hrun).mpr h _ s List.prefix_rfl hrun⟩

/-! ## A slow reader -/

instance : NeZero ME_MAX_TICKERS := ⟨by decide⟩

/-- A CANCEL of an order that was never sent. -/
def unknownOrder : MEClientRequest :=
  { type := .CANCEL, clientId := 0, tickerId := 0, orderId := 0, side := .INVALID, price := 0, qty := 0 }

/-- The engine has answered `n` such requests and nobody has read an answer. -/
structure Unread (s : Delivery) (n : Nat) : Prop where
  running : s.stopped = false
  unknown : (s.engine.tickerOrderBook 0).cidOidToOrder 0 0 = none
  answered : s.engine.clientResponses.length = n
  sent : s.sent.length = n
  read : s.read = []
  size : s.outgoingResponses.size = ME_MAX_CLIENT_UPDATES
  readIndex : s.outgoingResponses.nextReadIndex = 0
  writeIndex : s.outgoingResponses.nextWriteIndex = n % ME_MAX_CLIENT_UPDATES

theorem request_unknownOrder {e : MatchingEngine} (h : (e.tickerOrderBook 0).cidOidToOrder 0 0 = none) :
    processClientRequest unknownOrder e = .ok () (e.put 0 ((e.tickerOrderBook 0).rejected 0 0 0)) := by
  have hcall : call (.cancel 0 0 0) (e.tickerOrderBook 0) = .ok () ((e.tickerOrderBook 0).rejected 0 0 0) :=
    cancel_of_unknown fun _ => ⟨by decide, h⟩
  have hbook : onBook 0 (call (.cancel 0 0 0)) e = .ok () (e.put 0 ((e.tickerOrderBook 0).rejected 0 0 0)) := by
    rw [onBook, hcall]
  exact (processClientRequest_eq (r := unknownOrder) (by decide) rfl).trans hbook

theorem Unread.next (h : Unread s n) : ∃ s₁ s₂, Ready s (.request unknownOrder) ∧ request unknownOrder s = .ok () s₁ ∧
    Ready s₁ .send ∧ send s₁ = .ok () s₂ ∧ Unread s₂ (n + 1) := by
  obtain ⟨b, hb⟩ : ∃ b, b = (s.engine.tickerOrderBook 0).rejected 0 0 0 := ⟨_, rfl⟩
  obtain ⟨l, hl, hput⟩ := put_clientResponses (e := s.engine) (i := 0) (b := b) (by rw [hb]; exact grows_responses _ _)
  have hone : l.length = 1 := by
    have hlen := congrArg List.length hl
    rw [hb, rejected, reportResponses_clientResponses, List.length_append, List.length_append] at hlen
    simpa using hlen.symm
  have hanswered : (s.engine.put 0 b).clientResponses.length = n + 1 := by
    rw [hput, List.length_append, List.length_map, hone, h.answered]
  have hrequest : request unknownOrder s = .ok () { s with engine := s.engine.put 0 b } := by
    rw [request, request_unknownOrder h.unknown, hb]
  have hnext : s.sent.length < (s.engine.put 0 b).clientResponses.length := by
    rw [hanswered, h.sent]
    exact Nat.lt_succ_self n
  obtain ⟨r, hr⟩ : ∃ r, (s.engine.put 0 b).clientResponses[s.sent.length]? = some r := ⟨_, List.getElem?_eq_getElem hnext⟩
  have hsend := send_eq (s := { s with engine := s.engine.put 0 b }) hr
  have hbook : (s.engine.put 0 b).tickerOrderBook 0 = b := by
    rw [put_tickerOrderBook, Function.update_self]
  refine ⟨_, _, ⟨h.running, by rw [h.sent, h.answered]⟩, hrequest, hnext, hsend, h.running, ?_, hanswered, ?_, h.read,
    h.size, h.readIndex, ?_⟩
  · dsimp only
    rw [hbook, hb]
    exact h.unknown
  · rw [List.length_append, h.sent]
    rfl
  · rw [LFQueue.write, h.writeIndex, h.size, Nat.mod_add_mod]

theorem unread_run (strict : Bool) (n : Nat) : ∃ is s, Reaches step Ready (fresh strict) is s ∧ Unread s n := by
  induction n with
  | zero => exact ⟨[], _, .start, rfl, rfl, rfl, rfl, rfl, rfl, rfl, rfl⟩
  | succ n ih =>
    obtain ⟨is, s, hrun, hs⟩ := ih
    obtain ⟨s₁, s₂, hready, hrequest, hready₁, hsend, hs₂⟩ := hs.next
    have hanswer : Reaches step Ready (fresh strict) (is ++ [.request unknownOrder]) s₁ := .call hrun hready hrequest
    have hboth : Reaches step Ready (fresh strict) (is ++ [.request unknownOrder] ++ [.send]) s₂ := .call hanswer hready₁ hsend
    exact ⟨_, s₂, hboth, hs₂⟩

/-- As many unread responses as the queue has slots look like none. -/
theorem fullQueue_loses_all : ∃ is s, Reaches step Ready (fresh true) is s ∧ ¬ Delivered s ∧
    s.sent.length = ME_MAX_CLIENT_UPDATES ∧ s.read = [] ∧ s.outgoingResponses.getNextToRead = none := by
  obtain ⟨is, s, hrun, hs⟩ := unread_run true ME_MAX_CLIENT_UPDATES
  have hnone : s.outgoingResponses.getNextToRead = none := by
    rw [LFQueue.getNextToRead, hs.readIndex, hs.writeIndex, Nat.mod_self, if_pos rfl]
  refine ⟨is, s, hrun, fun hd => ?_, hs.sent, hs.read, hnone⟩
  have hlen := hs.sent
  rw [← hd.caughtUp hnone, hs.read] at hlen
  exact absurd hlen (by decide)

end Delivery
end TradingEcosystem.MatchingEngine
