import TradingEcosystem.MatchingEngine
import TradingEcosystem.OrderServer.Logs

/-! The calls of `Logger::log` in `MatchingEngine::run` and in what it calls, each where the source has it. -/
namespace TradingEcosystem.MatchingEngine
open Program Runs Logger Template MEOrderBook

/-! ## The log calls -/

/-- A call of `log`, with what it shows besides its first four arguments. -/
inductive LogEntry where
  | run
  | processing (clientRequest : MEClientRequest)
  | sendingResponse (clientResponse : MEClientResponse)
  | sendingUpdate (marketUpdate : MEMarketUpdate)

namespace LogEntry

def format : LogEntry → String
  | run => "%:% %() %. \n"
  | processing _ => "%:% %() % Processing %. \n"
  | sendingResponse _ => "%:% %() % Sending: %. \n."
  | sendingUpdate _ => "%:% %() % Sending: %. \n"

def args : LogEntry → List LogArg
  | run => []
  | processing clientRequest => [.string (chars clientRequest.toString)]
  | sendingResponse clientResponse => [.string (chars clientResponse.toString)]
  | sendingUpdate marketUpdate => [.string (chars marketUpdate.toString)]

def response : LogEntry → Option MEClientResponse
  | sendingResponse clientResponse => some clientResponse
  | _ => none

def update : LogEntry → Option MEMarketUpdate
  | sendingUpdate marketUpdate => some marketUpdate
  | _ => none

/-- The calls that show a message. -/
inductive IsMessage : LogEntry → Prop where
  | response (clientResponse : MEClientResponse) : IsMessage (sendingResponse clientResponse)
  | update (marketUpdate : MEMarketUpdate) : IsMessage (sendingUpdate marketUpdate)

/-- What the log shows of a call at a place. -/
def line (x : Place × LogEntry) : List LogElement := rendering (formatItems (chars x.2.format)) (x.1.args ++ x.2.args)

/-- Where and when a call is depends on what was logged before. -/
def log (place : Logger → LogEntry → Place) (c : LogEntry) : LoggerM Unit := do
  let l ← get
  Logger.log (chars c.format) ((place l c).args ++ c.args)

/-- Every format has as many placeholders as the call has arguments. -/
theorem slots_format (c : LogEntry) (p : Place) : slots (formatItems (chars c.format)) = (p.args ++ c.args).length := by
  have hplace : (p.args ++ c.args).length = 4 + c.args.length := List.length_append
  rw [hplace]
  cases c with
  | run | processing | sendingResponse | sendingUpdate =>
    dsimp only [format, args, List.length_cons, List.length_nil]
    decide +kernel

theorem log_apply (place : Logger → LogEntry → Place) (c : LogEntry) (l : Logger) :
    c.log place l = .ok () (l.pushAll (line (place l c, c))) := by
  rw [log, bind_of_ok get_apply, Logger.log_apply, renders, if_pos (slots_format c _), line]

end LogEntry

variable (place : Logger → LogEntry → Place)

def logged {σ : Type} (c : LogEntry) : LoggedM σ Unit := report (c.log place)

theorem logged_apply {σ : Type} (c : LogEntry) (p : Observed Logger σ) : logged place c p =
    .ok () { p with observer := p.observer.pushAll (LogEntry.line (place p.observer c, c)) } :=
  report_of_ok (c.log_apply place p.observer)

/-! ## The book -/

namespace Logged

/-- `MatchingEngine::sendClientResponse`, called by a book. -/
def sendClientResponse (about : Option Nat) (r : MEClientResponse) : LoggedM MEOrderBook Unit := do
  logged place (.sendingResponse r)
  quietly (MEOrderBook.sendClientResponse about r)

/-- `MatchingEngine::sendMarketUpdate`, called by a book. -/
def sendMarketUpdate (about : Option Nat) (u : MEMarketUpdate) : LoggedM MEOrderBook Unit := do
  logged place (.sendingUpdate u)
  quietly (MEOrderBook.sendMarketUpdate about u)

def settle (tickerId : TickerId) (itr : Option OrderPtr) (order : MEOrder) (orderQty : Qty) : LoggedM MEOrderBook Unit :=
  if order.qty = 0 then do
    sendMarketUpdate place order.addNo
      { type := .CANCEL, orderId := order.marketOrderId, tickerId, side := order.side, price := order.price,
        qty := orderQty, priority := priorityInvalid }
    quietly (removeOrder itr)
  else
    sendMarketUpdate place order.addNo
      { type := .MODIFY, orderId := order.marketOrderId, tickerId, side := order.side, price := order.price,
        qty := order.qty, priority := order.priority }

def match_ (no : Nat) (tickerId : TickerId) (clientId : ClientId) (side : Side) (clientOrderId : OrderId)
    (newMarketOrderId : OrderId) (itr : Option OrderPtr) (leavesQty : Qty) : LoggedM MEOrderBook Qty := do
  let orderQty := (← quietly (order itr)).qty
  let fillQty := min leavesQty orderQty
  quietly (setOrder (fun o => { o with qty := o.qty - fillQty }) itr)
  let order ← quietly (order itr)
  sendClientResponse place (some no)
    { type := .FILLED, clientId, tickerId, clientOrderId, marketOrderId := newMarketOrderId, side,
      price := order.price, execQty := fillQty, leavesQty := leavesQty - fillQty }
  sendClientResponse place order.addNo
    { type := .FILLED, clientId := order.clientId, tickerId, clientOrderId := order.clientOrderId,
      marketOrderId := order.marketOrderId, side := order.side, price := order.price, execQty := fillQty,
      leavesQty := order.qty }
  sendMarketUpdate place none
    { type := .TRADE, orderId := orderIdInvalid, tickerId, side, price := order.price, qty := fillQty,
      priority := priorityInvalid }
  settle place tickerId itr order orderQty
  return leavesQty - fillQty

def matchLoop (best : MEOrderBook → Option LevelPtr) (stop : Price → Bool) (trade : Option OrderPtr → Qty → LoggedM MEOrderBook Qty) :
    Nat → Qty → LoggedM MEOrderBook Qty
  | 0, _ => throw .diverges
  | fuel + 1, leavesQty => do
    let bestOrdersByPrice := best (← quietly get)
    if leavesQty = 0 ∨ bestOrdersByPrice = none then return leavesQty
    else
      let itr := (← quietly (level bestOrdersByPrice)).firstMeOrder
      if stop (← quietly (order itr)).price then return leavesQty
      else
        let leavesQty ← trade itr leavesQty
        matchLoop best stop trade fuel leavesQty

def matchAsks (side : Side) (price : Price) (trade : Option OrderPtr → Qty → LoggedM MEOrderBook Qty) (qty : Qty) :
    LoggedM MEOrderBook Qty :=
  if side = .BUY then matchLoop asksAtPrice (fun ask => price < ask) trade (turns qty) qty else return qty

def matchBids (side : Side) (price : Price) (trade : Option OrderPtr → Qty → LoggedM MEOrderBook Qty) (qty : Qty) :
    LoggedM MEOrderBook Qty :=
  if side = .SELL then matchLoop bidsAtPrice (fun bid => price > bid) trade (turns qty) qty else return qty

def checkForMatch (no : Nat) (clientId : ClientId) (clientOrderId : OrderId) (tickerId : TickerId) (side : Side)
    (price : Price) (qty : Qty) (newMarketOrderId : Qty) : LoggedM MEOrderBook Qty := do
  let trade := match_ place no tickerId clientId side clientOrderId newMarketOrderId.toUInt64
  let leavesQty ← matchAsks side price trade qty
  matchBids side price trade leavesQty

def rest (no : Nat) (clientId : ClientId) (clientOrderId : OrderId) (tickerId : TickerId) (side : Side)
    (price : Price) (leavesQty : Qty) (newMarketOrderId : OrderId) : LoggedM MEOrderBook Unit := do
  let priority ← quietly (getNextPriority price)
  let p ← quietly (allocateOrder
    { tickerId, clientId, clientOrderId, marketOrderId := newMarketOrderId, side, price, qty := leavesQty,
      priority, prevOrder := none, nextOrder := none, addNo := some no })
  quietly (addOrder p)
  sendMarketUpdate place (some no)
    { type := .ADD, orderId := newMarketOrderId, tickerId, side, price, qty := leavesQty, priority }

def add (clientId : ClientId) (clientOrderId : OrderId) (tickerId : TickerId) (side : Side) (price : Price)
    (qty : Qty) : LoggedM MEOrderBook Unit := do
  let no := (← quietly get).issued.length
  let newMarketOrderId ← quietly generateNewMarketOrderId
  sendClientResponse place (some no)
    { type := .ACCEPTED, clientId, tickerId, clientOrderId, marketOrderId := newMarketOrderId, side, price,
      execQty := 0, leavesQty := qty }
  let leavesQty ← checkForMatch place no clientId clientOrderId tickerId side price qty newMarketOrderId.toUInt32
  if leavesQty ≠ 0 then rest place no clientId clientOrderId tickerId side price leavesQty newMarketOrderId
  else return ()

def cancel (clientId : ClientId) (orderId : OrderId) (tickerId : TickerId) : LoggedM MEOrderBook Unit := do
  let exchangeOrder ← quietly (exchangeOrder clientId orderId)
  if exchangeOrder = none then
    sendClientResponse place none
      { type := .CANCEL_REJECTED, clientId, tickerId, clientOrderId := orderId,
        marketOrderId := orderIdInvalid, side := .INVALID, price := priceInvalid, execQty := qtyInvalid,
        leavesQty := qtyInvalid }
  else
    let o ← quietly (order exchangeOrder)
    quietly (removeOrder exchangeOrder)
    sendMarketUpdate place o.addNo
      { type := .CANCEL, orderId := o.marketOrderId, tickerId, side := o.side, price := o.price, qty := 0,
        priority := o.priority }
    sendClientResponse place o.addNo
      { type := .CANCELED, clientId, tickerId, clientOrderId := orderId, marketOrderId := o.marketOrderId,
        side := o.side, price := o.price, execQty := qtyInvalid, leavesQty := o.qty }

/-! ## The engine -/

def onBook (i : Fin ME_MAX_TICKERS) (y : LoggedM MEOrderBook Unit) : LoggedM MatchingEngine Unit :=
  zoom (fun e => e.tickerOrderBook i) (fun e b => e.put i b) y

def processClientRequest (r : MEClientRequest) : LoggedM MatchingEngine Unit := do
  let orderBook ← quietly (orderBook r.tickerId)
  if r.type = .NEW then onBook orderBook (add place r.clientId r.orderId r.tickerId r.side r.price r.qty)
  else if r.type = .CANCEL then onBook orderBook (cancel place r.clientId r.orderId r.tickerId)
  else throw (.fatal ("Received invalid client-request-type: " ++ clientRequestTypeToString r.type))

/-- A turn of the loop of `MatchingEngine::run` that finds a request. -/
def turn (r : MEClientRequest) : LoggedM MatchingEngine Unit := do
  logged place (.processing r)
  processClientRequest place r

/-- The engine and its log where the loop begins. -/
def start (strict : Bool) : Observed Logger MatchingEngine :=
  final (logged place .run { observer := .fresh, state := MatchingEngine.fresh strict })

/-! ## Without the log calls -/

theorem erases_logged {σ : Type} (c : LogEntry) : Erases (logged place c : LoggedM σ Unit) (pure ()) :=
  .report fun l => ⟨_, c.log_apply place l⟩

theorem erases_sendClientResponse (about : Option Nat) (r : MEClientResponse) :
    Erases (sendClientResponse place about r) (MEOrderBook.sendClientResponse about r) :=
  .skip (erases_logged place _) (.quietly _)

theorem erases_sendMarketUpdate (about : Option Nat) (u : MEMarketUpdate) :
    Erases (sendMarketUpdate place about u) (MEOrderBook.sendMarketUpdate about u) :=
  .skip (erases_logged place _) (.quietly _)

theorem erases_match (no : Nat) (tickerId : TickerId) (clientId : ClientId) (side : Side) (clientOrderId : OrderId)
    (newMarketOrderId : OrderId) (itr : Option OrderPtr) (leavesQty : Qty) :
    Erases (match_ place no tickerId clientId side clientOrderId newMarketOrderId itr leavesQty)
      (MEOrderBook.match_ no tickerId clientId side clientOrderId newMarketOrderId itr leavesQty) := by
  refine .bind (.quietly _) fun _ => .bind (.quietly _) fun _ => .bind (.quietly _) fun o => ?_
  refine .bind (erases_sendClientResponse place _ _) fun _ => .bind (erases_sendClientResponse place _ _) fun _ => ?_
  refine .bind (erases_sendMarketUpdate place _ _) fun _ => .bind (.ite ?_ (erases_sendMarketUpdate place _ _)) fun _ => .pure _
  exact .bind (erases_sendMarketUpdate place _ _) fun _ => .quietly _

theorem erases_matchLoop (best : MEOrderBook → Option LevelPtr) (stop : Price → Bool)
    {trade : Option OrderPtr → Qty → LoggedM MEOrderBook Qty} {trade' : Option OrderPtr → Qty → BookM Qty}
    (htrade : ∀ itr qty, Erases (trade itr qty) (trade' itr qty)) (fuel : Nat) (leavesQty : Qty) :
    Erases (matchLoop best stop trade fuel leavesQty) (MEOrderBook.matchLoop best stop trade' fuel leavesQty) := by
  induction fuel generalizing leavesQty with
  | zero => exact .throw _
  | succ fuel ih =>
    refine .bind (.quietly _) fun b => .ite (.pure _) (.bind (.quietly _) fun _ => .bind (.quietly _) fun _ => .ite (.pure _) ?_)
    exact .bind (htrade _ _) fun leaves => ih leaves

theorem erases_checkForMatch (no : Nat) (clientId : ClientId) (clientOrderId : OrderId) (tickerId : TickerId) (side : Side)
    (price : Price) (qty newMarketOrderId : Qty) :
    Erases (checkForMatch place no clientId clientOrderId tickerId side price qty newMarketOrderId)
      (MEOrderBook.checkForMatch no clientId clientOrderId tickerId side price qty newMarketOrderId) := by
  have htrade := fun itr leaves => erases_match place no tickerId clientId side clientOrderId newMarketOrderId.toUInt64 itr leaves
  refine .bind (.ite ?_ (.pure _)) fun leaves => .ite ?_ (.pure _)
  · exact erases_matchLoop _ _ htrade _ _
  · exact erases_matchLoop _ _ htrade _ _

theorem erases_add (clientId : ClientId) (clientOrderId : OrderId) (tickerId : TickerId) (side : Side) (price : Price) (qty : Qty) :
    Erases (add place clientId clientOrderId tickerId side price qty) (MEOrderBook.add clientId clientOrderId tickerId side price qty) := by
  refine .bind (.quietly _) fun b => .bind (.quietly _) fun id => .bind (erases_sendClientResponse place _ _) fun _ => ?_
  refine .bind (erases_checkForMatch place _ _ _ _ _ _ _ _) fun leaves => .ite ?_ (.pure _)
  refine .bind (.quietly _) fun _ => .bind (.quietly _) fun _ => .bind (.quietly _) fun _ => ?_
  exact erases_sendMarketUpdate place _ _

theorem erases_cancel (clientId : ClientId) (orderId : OrderId) (tickerId : TickerId) :
    Erases (cancel place clientId orderId tickerId) (MEOrderBook.cancel clientId orderId tickerId) := by
  refine .bind (.quietly _) fun _ => .ite (erases_sendClientResponse place _ _) (.bind (.quietly _) fun o => ?_)
  refine .bind (.quietly _) fun _ => .bind (erases_sendMarketUpdate place _ _) fun _ => erases_sendClientResponse place _ _

theorem erases_onBook (i : Fin ME_MAX_TICKERS) {y : LoggedM MEOrderBook Unit} {x : BookM Unit} (h : Erases y x) :
    Erases (onBook i y) (MatchingEngine.onBook i x) := by
  have hfocus : MatchingEngine.onBook i x = focus (fun e => e.tickerOrderBook i) (fun e b => e.put i b) x := by
    funext e
    unfold MatchingEngine.onBook focus
    cases x (e.tickerOrderBook i) <;> rfl
  rw [hfocus]
  exact .zoom h

theorem erases_turn (r : MEClientRequest) : Erases (turn place r) (MatchingEngine.processClientRequest r) := by
  refine .skip (erases_logged place _) (.bind (.quietly _) fun i => .ite ?_ (.ite ?_ (.throw _)))
  · exact erases_onBook i (erases_add place _ _ _ _ _ _)
  · exact erases_onBook i (erases_cancel place _ _ _)

/-! ## What the log shows -/

/-- The messages that a book has sent. -/
def bookSent (b : MEOrderBook) : List MEClientResponse × List MEMarketUpdate :=
  (b.clientResponses.map Report.msg, b.marketUpdates.map Report.msg)

/-- The messages that an engine has sent. -/
def engineSent (e : MatchingEngine) : List MEClientResponse × List MEMarketUpdate := (e.clientResponses, e.marketUpdates)

variable {σ : Type} {sent : σ → List MEClientResponse × List MEMarketUpdate} {p p' p'' : Observed Logger σ}
  {es es' : List (Place × LogEntry)}

/-- The calls `es` were logged on the way, and the messages that they show were sent. -/
structure Shows (sent : σ → List MEClientResponse × List MEMarketUpdate) (es : List (Place × LogEntry))
    (p p' : Observed Logger σ) : Prop where
  pushed : p'.observer.pushed = p.observer.pushed ++ es.flatMap LogEntry.line
  responses : (sent p'.state).1 = (sent p.state).1 ++ es.filterMap (·.2.response)
  updates : (sent p'.state).2 = (sent p.state).2 ++ es.filterMap (·.2.update)

theorem Shows.trans (h : Shows sent es p p') (h' : Shows sent es' p' p'') : Shows sent (es ++ es') p p'' where
  pushed := by rw [h'.pushed, h.pushed, List.flatMap_append, List.append_assoc]
  responses := by rw [h'.responses, h.responses, List.filterMap_append, List.append_assoc]
  updates := by rw [h'.updates, h.updates, List.filterMap_append, List.append_assoc]

/-- The calls on the way are those of the messages. -/
def Sends (sent : σ → List MEClientResponse × List MEMarketUpdate) (p p' : Observed Logger σ) : Prop :=
  ∃ es, Shows sent es p p' ∧ ∀ x ∈ es, x.2.IsMessage

instance : IsPreorder (Observed Logger σ) (Sends sent) where
  refl p := ⟨[], ⟨by simp, by simp, by simp⟩, nofun⟩
  trans := by
    rintro p p' p'' ⟨es, h, hes⟩ ⟨es', h', hes'⟩
    exact ⟨es ++ es', h.trans h', List.forall_mem_append.mpr ⟨hes, hes'⟩⟩

theorem sends_quietly {α : Type} {x : EStateM Fault σ α} (h : Frame (Fixes sent) x) : Frame (Sends sent) (quietly x) := by
  intro p
  have hp : final (quietly x p) = { p with state := final (x p.state) } := final_focus
  have hs : sent (final (x p.state)) = sent p.state := h p.state
  rw [hp]
  exact ⟨[], ⟨by simp, by simp [hs], by simp [hs]⟩, nofun⟩

theorem fixes_of_journal {b b' : MEOrderBook} (h : journal b' = journal b) : Fixes bookSent b b' := by
  simp only [journal, Prod.mk.injEq] at h
  simp only [Fixes, bookSent, h.1, h.2.1]

theorem sends_quiet {α : Type} {x : BookM α} (h : Quiet x) : Frame (Sends bookSent) (quietly x) :=
  sends_quietly (h.journal.mono fun _ _ => fixes_of_journal)

/-- A message that is logged and then sent. -/
theorem sends_message {c : LogEntry} {x : EStateM Fault σ Unit} (hc : c.IsMessage)
    (hx : ∀ s, sent (final (x s)) = ((sent s).1 ++ c.response.toList, (sent s).2 ++ c.update.toList)) :
    Frame (Sends sent) (do logged place c; quietly x) := by
  intro p
  have hp : final (quietly x { p with observer := p.observer.pushAll (LogEntry.line (place p.observer c, c)) }) =
      { observer := p.observer.pushAll (LogEntry.line (place p.observer c, c)), state := final (x p.state) } := final_focus
  rw [bind_of_ok (logged_apply place c p), hp]
  refine ⟨[(place p.observer c, c)], ⟨?_, ?_, ?_⟩, List.forall_mem_singleton.mpr hc⟩
  · rw [List.flatMap_singleton]
    rfl
  · simp only [hx, List.filterMap_cons, List.filterMap_nil]
    cases c.response <;> rfl
  · simp only [hx, List.filterMap_cons, List.filterMap_nil]
    cases c.update <;> rfl

theorem sends_sendClientResponse (about : Option Nat) (r : MEClientResponse) :
    Frame (Sends bookSent) (sendClientResponse place about r) := by
  refine sends_message place (.response r) fun b => Prod.ext ?_ ?_
  · exact List.map_append
  · exact (List.append_nil _).symm

theorem sends_sendMarketUpdate (about : Option Nat) (u : MEMarketUpdate) :
    Frame (Sends bookSent) (sendMarketUpdate place about u) := by
  refine sends_message place (.update u) fun b => Prod.ext ?_ ?_
  · exact (List.append_nil _).symm
  · exact List.map_append

theorem sends_match (no : Nat) (tickerId : TickerId) (clientId : ClientId) (side : Side) (clientOrderId : OrderId)
    (newMarketOrderId : OrderId) (itr : Option OrderPtr) (leavesQty : Qty) :
    Frame (Sends bookSent) (match_ place no tickerId clientId side clientOrderId newMarketOrderId itr leavesQty) := by
  refine .bind (sends_quietly (frame_order _)) fun _ => .bind (sends_quiet (quiet_setOrder _ fun _ => ⟨rfl, rfl⟩)) fun _ => ?_
  refine .bind (sends_quietly (frame_order _)) fun o => .bind (sends_sendClientResponse place _ _) fun _ => ?_
  refine .bind (sends_sendClientResponse place _ _) fun _ => .bind (sends_sendMarketUpdate place _ _) fun _ => ?_
  refine .bind (.ite (.bind (sends_sendMarketUpdate place _ _) fun _ => ?_) (sends_sendMarketUpdate place _ _)) fun _ => .pure _
  exact sends_quiet (quiet_removeOrder _)

theorem sends_matchLoop (best : MEOrderBook → Option LevelPtr) (stop : Price → Bool)
    {trade : Option OrderPtr → Qty → LoggedM MEOrderBook Qty} (htrade : ∀ itr qty, Frame (Sends bookSent) (trade itr qty))
    (fuel : Nat) (leavesQty : Qty) : Frame (Sends bookSent) (matchLoop best stop trade fuel leavesQty) := by
  induction fuel generalizing leavesQty with
  | zero => exact .throw _
  | succ fuel ih =>
    refine .bind (sends_quietly .get) fun b => .ite (.pure _) (.bind (sends_quietly (frame_level _)) fun _ => ?_)
    exact .bind (sends_quietly (frame_order _)) fun _ => .ite (.pure _) (.bind (htrade _ _) fun leaves => ih leaves)

theorem sends_checkForMatch (no : Nat) (clientId : ClientId) (clientOrderId : OrderId) (tickerId : TickerId) (side : Side)
    (price : Price) (qty newMarketOrderId : Qty) :
    Frame (Sends bookSent) (checkForMatch place no clientId clientOrderId tickerId side price qty newMarketOrderId) := by
  have htrade := fun itr leaves => sends_match place no tickerId clientId side clientOrderId newMarketOrderId.toUInt64 itr leaves
  refine .bind (.ite ?_ (.pure _)) fun leaves => .ite ?_ (.pure _)
  · exact sends_matchLoop _ _ htrade _ _
  · exact sends_matchLoop _ _ htrade _ _

theorem sends_add (clientId : ClientId) (clientOrderId : OrderId) (tickerId : TickerId) (side : Side) (price : Price) (qty : Qty) :
    Frame (Sends bookSent) (add place clientId clientOrderId tickerId side price qty) := by
  refine .bind (sends_quietly .get) fun b => .bind (sends_quietly fun _ => rfl) fun id => ?_
  refine .bind (sends_sendClientResponse place _ _) fun _ => .bind (sends_checkForMatch place _ _ _ _ _ _ _ _) fun leaves => ?_
  refine .ite (.bind (sends_quiet (quiet_getNextPriority _)) fun _ => .bind ?_ fun _ => ?_) (.pure _)
  · exact sends_quietly ((journal_allocateOrder _).mono fun _ _ => fixes_of_journal)
  · exact .bind (sends_quiet (quiet_addOrder _)) fun _ => sends_sendMarketUpdate place _ _

theorem sends_cancel (clientId : ClientId) (orderId : OrderId) (tickerId : TickerId) :
    Frame (Sends bookSent) (cancel place clientId orderId tickerId) := by
  have hfind : Frame (Fixes bookSent) (exchangeOrder clientId orderId) :=
    .ite (.ite (.bind .get fun _ => .pure _) (.throw _)) (.pure _)
  refine .bind (sends_quietly hfind) fun _ => .ite (sends_sendClientResponse place _ _) ?_
  refine .bind (sends_quietly (frame_order _)) fun o => .bind (sends_quiet (quiet_removeOrder _)) fun _ => ?_
  exact .bind (sends_sendMarketUpdate place _ _) fun _ => sends_sendClientResponse place _ _

/-- The engine sends what its book sends. -/
theorem sends_onBook (i : Fin ME_MAX_TICKERS) {y : LoggedM MEOrderBook Unit} (h : Frame (Sends bookSent) y) :
    Frame (Sends engineSent) (onBook i y) := by
  refine .focus fun p => ?_
  obtain ⟨es, hes, hmessages⟩ := h ⟨p.observer, p.state.tickerOrderBook i⟩
  refine ⟨es, ⟨hes.pushed, ?_, ?_⟩, hmessages⟩
  · refine congrArg (p.state.clientResponses ++ ·) ?_
    rw [List.map_drop, ← List.length_map Report.msg]
    exact (congrArg (List.drop _) hes.responses).trans List.drop_left
  · refine congrArg (p.state.marketUpdates ++ ·) ?_
    rw [List.map_drop, ← List.length_map Report.msg]
    exact (congrArg (List.drop _) hes.updates).trans List.drop_left

/-- The messages that the calls `cs` show. -/
def shown (cs : List LogEntry) : List MEClientResponse × List MEMarketUpdate :=
  (cs.filterMap LogEntry.response, cs.filterMap LogEntry.update)

theorem shown_append (cs cs' : List LogEntry) : shown (cs ++ cs') = ((shown cs).1 ++ (shown cs').1, (shown cs).2 ++ (shown cs').2) := by
  rw [shown, List.filterMap_append, List.filterMap_append]
  rfl

theorem Shows.sent_eq (h : Shows sent es p p') : sent p'.state =
    ((sent p.state).1 ++ (shown (es.map Prod.snd)).1, (sent p.state).2 ++ (shown (es.map Prod.snd)).2) := by
  simp only [shown, List.filterMap_map]
  exact Prod.ext h.responses h.updates

/-- The part of the log about a request that engine `e` takes: that it is processed, and then the messages that the engine
sends about it. -/
structure Paragraph (e : MatchingEngine) (r : MEClientRequest) (cs : List LogEntry) : Prop where
  begins : cs.head? = some (.processing r)
  messages : ∀ c ∈ cs.tail, c.IsMessage
  sent : engineSent (final (MatchingEngine.processClientRequest r e)) =
    ((engineSent e).1 ++ (shown cs).1, (engineSent e).2 ++ (shown cs).2)

theorem turn_shows (r : MEClientRequest) (p : Observed Logger MatchingEngine) :
    ∃ es, Shows engineSent es p (final (turn place r p)) ∧ Paragraph p.state r (es.map Prod.snd) := by
  have hbook : Frame (Fixes engineSent) (orderBook r.tickerId) := by
    unfold orderBook
    split
    · exact .pure _
    · exact .throw _
  have hrequest : Frame (Sends engineSent) (processClientRequest place r) := by
    refine .bind (sends_quietly hbook) fun i => .ite ?_ (.ite ?_ (.throw _))
    · exact sends_onBook i (sends_add place _ _ _ _ _ _)
    · exact sends_onBook i (sends_cancel place _ _ _)
  obtain ⟨es, hes, hmessages⟩ := hrequest { p with
    observer := p.observer.pushAll (LogEntry.line (place p.observer (.processing r), .processing r)) }
  have hturn : Shows engineSent ((place p.observer (.processing r), .processing r) :: es) p (final (turn place r p)) := by
    rw [turn, bind_of_ok (logged_apply place _ p)]
    refine ⟨?_, hes.responses, hes.updates⟩
    rw [hes.pushed, List.flatMap_cons, ← List.append_assoc]
    rfl
  refine ⟨_, hturn, rfl, List.forall_mem_map.mpr hmessages, ?_⟩
  rw [← (erases_turn place r).final_state p]
  exact hturn.sent_eq

/-! ## Runs -/

variable {strict : Bool} {rs : List MEClientRequest} {e : MatchingEngine} {o : Logger}

/-- The requests of a run, each with the engine that takes it. -/
def takings (strict : Bool) (rs : List MEClientRequest) : List (MatchingEngine × MEClientRequest) :=
  trace MatchingEngine.processClientRequest (fun e r => [(e, r)]) (MatchingEngine.fresh strict) rs

/-- The engine is where the requests `rs` bring it, and the log is that of the beginning of `run`, and of a paragraph for each
of the requests. -/
structure Journal (strict : Bool) (rs : List MEClientRequest) (paragraphs : List (List LogEntry)) (es : List (Place × LogEntry))
    (p : Observed Logger MatchingEngine) : Prop where
  state : p.state = ending MatchingEngine.processClientRequest (MatchingEngine.fresh strict) rs
  pushed : p.observer.pushed = es.flatMap LogEntry.line
  entries : es.map Prod.snd = .run :: paragraphs.flatten
  inTurn : List.Forall₂ (fun x cs => Paragraph x.1 x.2 cs) (takings strict rs) paragraphs
  sent : engineSent p.state = shown paragraphs.flatten

theorem start_eq (strict : Bool) : start place strict =
    { observer := Logger.fresh.pushAll (LogEntry.line (place .fresh .run, .run)), state := MatchingEngine.fresh strict } := by
  rw [start, logged_apply, final_ok]

theorem journal_start (strict : Bool) : ∃ es, Journal strict [] [] es (start place strict) := by
  rw [start_eq]
  exact ⟨[(place .fresh .run, .run)], rfl, (List.flatMap_singleton ..).symm, rfl, .nil, rfl⟩

theorem Journal.turn {paragraphs : List (List LogEntry)} {p : Observed Logger MatchingEngine}
    (h : Journal strict rs paragraphs es p) (r : MEClientRequest) :
    ∃ paragraphs' es', Journal strict (rs ++ [r]) paragraphs' es' (final (turn place r p)) := by
  obtain ⟨es', hes', hparagraph⟩ := turn_shows place r p
  refine ⟨paragraphs ++ [es'.map Prod.snd], es ++ es', ?_, ?_, ?_, ?_, ?_⟩
  · rw [(erases_turn place r).final_state p, h.state, ending_concat]
  · rw [hes'.pushed, h.pushed, List.flatMap_append]
  · rw [List.map_append, h.entries, List.flatten_append, List.flatten_singleton, List.cons_append]
  · rw [takings, trace_concat, ← h.state]
    exact List.rel_append h.inTurn (.cons hparagraph .nil)
  · rw [hes'.sent_eq, h.sent, List.flatten_append, List.flatten_singleton, shown_append]

/-- No log call keeps the engine from a run, whether the run goes on or has stopped, and its log is a journal of the run:
a paragraph for each request that was taken, in their order, with every message that was sent about it and no other one. -/
theorem run_journaled (h : Observes MatchingEngine.processClientRequest (fun _ _ => True) (MatchingEngine.fresh strict) rs e) :
    ∃ l paragraphs es, Observes (turn place) (fun _ _ => True) (start place strict) rs { observer := l, state := e } ∧
      Journal strict rs paragraphs es { observer := l, state := e } := by
  obtain ⟨l, hrun⟩ : ∃ l, Observes (turn place) (fun _ _ => True) (start place strict) rs { observer := l, state := e } := by
    rw [start_eq]
    exact Erases.observes (erases_turn place) h
  obtain ⟨paragraphs, es, hjournal⟩ := hrun.always (I := fun rs p => ∃ paragraphs es, Journal strict rs paragraphs es p)
    ⟨[], journal_start place strict⟩ fun rs p r hi _ => by
      obtain ⟨paragraphs, es, hjournal⟩ := hi
      exact hjournal.turn place r
  exact ⟨l, paragraphs, es, hrun, hjournal⟩

/-- A trade, and a request of a type that does not exist. -/
def lastUnknown : List MEClientRequest :=
  [{ type := .NEW, clientId := 0, tickerId := 1, orderId := 0, side := .SELL, price := 100, qty := 4 },
    { type := .NEW, clientId := 1, tickerId := 1, orderId := 0, side := .BUY, price := 100, qty := 9 },
    { type := ⟨7⟩, clientId := 1, tickerId := 1, orderId := 0 }]

/-- The log of an engine that shows no place. -/
def plainPlace (_ : Logger) (_ : LogEntry) : Place := ⟨[], 0, [], []⟩

theorem run_journaled_lastUnknown : ∃ e l paragraphs es, e.clientResponses.length = 4 ∧
    Observes (turn plainPlace) (fun _ _ => True) (start plainPlace true) lastUnknown { observer := l, state := e } ∧
    Journal true lastUnknown paragraphs es { observer := l, state := e } := by
  obtain ⟨e, hrun, hlen⟩ : ∃ e, Reaches MatchingEngine.processClientRequest (fun _ _ => True) (MatchingEngine.fresh true)
      (lastUnknown.take 2) e ∧ e.clientResponses.length = 4 := exists_of_guarded (by decide +kernel)
  obtain ⟨f, hstop⟩ := processClientRequest_refused (r := { type := ⟨7⟩, clientId := 1, tickerId := 1, orderId := 0 }) (e := e) (by decide)
  obtain ⟨l, paragraphs, es, hlogged, hjournal⟩ := run_journaled plainPlace (.stopped hrun trivial hstop)
  exact ⟨e, l, paragraphs, es, hlen, hlogged, hjournal⟩

end Logged
end TradingEcosystem.MatchingEngine
