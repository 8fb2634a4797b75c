import TradingEcosystem.OrderServer.Outbound

/-! The connections of a server: `poll` takes each of them once and never drops one, and the array
that `epoll_wait` fills has room for as many events as there can be until the 1024th connection. -/
namespace TradingEcosystem
open Program Runs

namespace TCPServer
variable {t t' : TCPServer} {e : Event} {events : List Event} {socket : SocketId}

/-- The sockets to receive from, without the listener. -/
def connections (t : TCPServer) : List SocketId := t.receiveSockets.filter (· ≠ t.listenerSocket)

/-- The event tells the listener of a new connection. -/
def IsNew (listener : SocketId) (e : Event) : Prop := e.events &&& EPOLLIN ≠ 0 ∧ e.socket = listener

instance (listener : SocketId) : DecidablePred (IsNew listener) := fun _ => instDecidableAnd

/-- A socket that can have events. -/
def Registered (t : TCPServer) (socket : SocketId) : Prop := socket = t.listenerSocket ∨ socket ∈ t.receiveSockets

theorem mem_connections : socket ∈ t.connections ↔ socket ∈ t.receiveSockets ∧ socket ≠ t.listenerSocket := by
  rw [connections, List.mem_filter, decide_eq_true_iff]

theorem nodup_pushNew {l : List SocketId} (h : l.Nodup) : (pushNew socket l).Nodup := by
  unfold pushNew
  split_ifs with hmem
  · exact h
  · exact List.nodup_append.mpr ⟨h, List.nodup_singleton _, fun a ha b hb => by
      obtain rfl := List.mem_singleton.mp hb
      exact fun hab => hmem (hab ▸ ha)⟩

/-- The same connections in the same order; a socket is there at most once. -/
structure SameConnections (t t' : TCPServer) : Prop where
  listenerSocket : t'.listenerSocket = t.listenerSocket
  nodup : t.receiveSockets.Nodup → t'.receiveSockets.Nodup
  connections : t'.connections = t.connections
  registered : ∀ socket, t.Registered socket → t'.Registered socket

namespace SameConnections

theorem refl (t : TCPServer) : SameConnections t t := ⟨rfl, id, rfl, fun _ h => h⟩

theorem trans {t'' : TCPServer} (h : SameConnections t t') (h' : SameConnections t' t'') : SameConnections t t'' :=
  ⟨h'.listenerSocket.trans h.listenerSocket, h'.nodup ∘ h.nodup, h'.connections.trans h.connections,
    fun k hk => h'.registered k (h.registered k hk)⟩

/-- An event of a registered socket can add the listener only. -/
theorem receiveFrom (h : t.Registered socket) : SameConnections t (t.receiveFrom socket) where
  listenerSocket := rfl
  nodup := nodup_pushNew
  connections := by
    change (pushNew socket t.receiveSockets).filter (· ≠ t.listenerSocket) = t.receiveSockets.filter (· ≠ t.listenerSocket)
    by_cases hmem : socket ∈ t.receiveSockets
    · rw [pushNew, if_pos hmem]
    · have hnone : [socket].filter (· ≠ t.listenerSocket) = [] := by simp [h.resolve_right hmem]
      rw [pushNew, if_neg hmem, List.filter_append, hnone, List.append_nil]
  registered k hk := hk.imp id fun hk => Serving.subset_pushNew socket _ hk

theorem sendTo (socket : SocketId) (t : TCPServer) : SameConnections t (t.sendTo socket) := ⟨rfl, id, rfl, fun _ h => h⟩

theorem ite {p : Prop} [Decidable p] (h : SameConnections t t') : SameConnections t (if p then t' else t) := by
  split_ifs
  · exact h
  · exact refl t

theorem handle (h : t.Registered e.socket) : SameConnections t (t.handle e).1 := by
  unfold TCPServer.handle
  split
  · exact refl t
  · have hin : SameConnections t (if e.events &&& EPOLLIN ≠ 0 then t.receiveFrom e.socket else t) := (receiveFrom h).ite
    have hout := hin.trans ((sendTo e.socket _).ite (p := e.events &&& EPOLLOUT ≠ 0))
    exact hout.trans (receiveFrom (hout.registered _ h)).ite

end SameConnections

theorem handle_new (e : Event) (t : TCPServer) : (t.handle e).2 = decide (IsNew t.listenerSocket e) := by
  unfold handle
  split
  · rename_i h
    exact (decide_eq_true h).symm
  · rename_i h
    exact (decide_eq_false h).symm

theorem handleAll_connections (h : ∀ e ∈ events, t.Registered e.socket) :
    SameConnections t (t.handleAll events).1 ∧ (t.handleAll events).2 = events.any (IsNew t.listenerSocket ·) := by
  induction events generalizing t with
  | nil => exact ⟨.refl t, rfl⟩
  | cons e events ih =>
    have hfirst := SameConnections.handle (h e List.mem_cons_self)
    obtain ⟨hrest, hnew⟩ := ih fun e' he' => hfirst.registered _ (h e' (List.mem_cons_of_mem _ he'))
    refine ⟨hfirst.trans hrest, ?_⟩
    rw [hfirst.listenerSocket] at hnew
    exact congrArg₂ or (handle_new e t) hnew

end TCPServer

namespace Serving
open OrderServer TCPServer
variable {s s' : Serving} {listener : SocketId} {events : List Event} {accepted : List Accepted} {a : Accepted} {is : List Step}
  {i : Step} {u : Unit} {clientRequests : LFQueue MEClientRequest} {clientResponses : LFQueue MEClientResponse}

/-- The connections that a step takes: those that wait, if the listener has an event. -/
def taken (listener : SocketId) : Step → List SocketId
  | .poll events accepted => if events.any (IsNew listener ·) then accepted.map Accepted.socket else []
  | _ => []

/-- What a server has taken so far. -/
structure Connected (listener : SocketId) (connections : List SocketId) (s : Serving) : Prop where
  listenerSocket : s.tcpServer.listenerSocket = listener
  nodup : s.tcpServer.receiveSockets.Nodup
  connections : s.tcpServer.connections = connections

/-! ## `poll` -/

theorem accept_connections (hnew : a.socket ≠ s.tcpServer.listenerSocket ∧ a.socket ∉ s.tcpServer.receiveSockets)
    (hr : accept a s = .ok u s') : s'.tcpServer = { s.tcpServer with receiveSockets := s.tcpServer.receiveSockets ++ [a.socket] } := by
  unfold accept at hr
  split_ifs at hr
  · cases hr
  · cases hr
  · cases hr
    change s.tcpServer.receiveFrom a.socket = _
    rw [receiveFrom, pushNew, if_neg hnew.2]

theorem acceptAll_connections (hnodup : (accepted.map Accepted.socket).Nodup)
    (hnew : ∀ a ∈ accepted, a.socket ≠ s.tcpServer.listenerSocket ∧ a.socket ∉ s.tcpServer.receiveSockets)
    (hr : (forM accepted accept : ServingM Unit) s = .ok u s') :
    s'.tcpServer = { s.tcpServer with receiveSockets := s.tcpServer.receiveSockets ++ accepted.map Accepted.socket } := by
  induction accepted generalizing s with
  | nil =>
    cases hr
    rw [List.map_nil, List.append_nil]
  | cons a accepted ih =>
    rw [List.forM_cons] at hr
    obtain ⟨_, s₁, ha, hr⟩ := bind_eq_ok.mp hr
    have hfirst := accept_connections (hnew a List.mem_cons_self) ha
    rw [List.map_cons, List.nodup_cons] at hnodup
    have hrest := ih hnodup.2 (fun b hb => ?_) hr
    · rw [hrest, hfirst]
      simp
    · rw [hfirst]
      refine ⟨(hnew b (List.mem_cons_of_mem _ hb)).1, fun hmem => ?_⟩
      rcases List.mem_append.mp hmem with hmem | hmem
      · exact (hnew b (List.mem_cons_of_mem _ hb)).2 hmem
      · rw [List.mem_singleton] at hmem
        exact hnodup.1 (hmem ▸ List.mem_map_of_mem hb)

theorem Connected.poll {connections : List SocketId} (h : Connected listener connections s)
    (hg : Serves s (.poll events accepted)) (hr : step (.poll events accepted) s = .ok u s') :
    Connected listener (connections ++ taken listener (.poll events accepted)) s' := by
  obtain ⟨_, hregistered⟩ := hg.2.2.1 |> forall₂_and.mp
  obtain ⟨_, s₁, hpoll, hr⟩ := bind_eq_ok.mp hr
  cases hr
  obtain ⟨t, new, hlists, hpoll⟩ := poll_ok hpoll
  have hsame := handleAll_connections (t := s.tcpServer) hregistered
  rw [hlists, h.listenerSocket] at hsame
  obtain ⟨hsame, rfl⟩ := hsame
  have ht := hsame.listenerSocket.trans h.listenerSocket
  rw [taken]
  cases hnew : events.any (IsNew listener ·) with
  | false =>
    rw [hnew] at hpoll
    cases hpoll
    rw [if_neg Bool.false_ne_true, List.append_nil]
    exact ⟨ht, hsame.nodup h.nodup, hsame.connections.trans h.connections⟩
  | true =>
    rw [hnew] at hpoll
    -- the loop over the events can have added the listener only
    have hfresh : ∀ a ∈ accepted, a.socket ≠ t.listenerSocket ∧ a.socket ∉ t.receiveSockets := fun a ha => by
      obtain ⟨hlistener, hmem⟩ := hg.2.2.2.2 a ha
      rw [← hsame.listenerSocket] at hlistener
      refine ⟨hlistener, fun hmem' => hmem ?_⟩
      have hconnection := mem_connections.mpr ⟨hmem', hlistener⟩
      rw [hsame.connections] at hconnection
      exact (mem_connections.mp hconnection).1
    have hall := acceptAll_connections hg.2.2.2.1 hfresh hpoll
    rw [if_pos rfl]
    refine ⟨(congrArg TCPServer.listenerSocket hall).trans ht, ?_, ?_⟩
    · rw [hall]
      refine List.nodup_append.mpr ⟨hsame.nodup h.nodup, hg.2.2.2.1, fun k hk k' hk' hkk => ?_⟩
      obtain ⟨a, ha, rfl⟩ := List.mem_map.mp hk'
      exact (hfresh a ha).2 (hkk ▸ hk)
    · rw [hall, TCPServer.connections, List.filter_append, ← h.connections, ← hsame.connections]
      refine congrArg (t.connections ++ ·) (List.filter_eq_self.mpr fun k hk => ?_)
      obtain ⟨a, ha, rfl⟩ := List.mem_map.mp hk
      exact decide_eq_true (hfresh a ha).1

/-! ## Runs -/

theorem tcpServer_sendNext : Frame (Fixes tcpServer) sendNext := by
  refine .bind (fun s => rfl) fun s => ?_
  split
  · exact .modify fun s => rfl
  · refine .bind (.focus fun s => rfl) fun _ => .modify fun s => ?_
    unfold count
    split <;> rfl

/-- Only `poll` touches the lists. -/
theorem tcpServer_step (listener : SocketId) (hidle : Idle s) (hg : Serves s i) (hr : step i s = .ok u s') (hi : ∀ events accepted, i ≠ .poll events accepted) :
    s'.tcpServer = s.tcpServer ∧ taken listener i = [] := by
  cases i with
  | poll events accepted => exact absurd rfl (hi events accepted)
  | sendAndRecv sort receives sends =>
    obtain ⟨_, s₁, hround, hr⟩ := bind_eq_ok.mp hr
    cases hr
    exact ⟨(hidle.sendAndRecv hg.2 hround).2, rfl⟩
  | sendNext => exact ⟨tcpServer_sendNext.of_ok hr, rfl⟩
  | respond clientResponse =>
    cases hr
    exact ⟨rfl, rfl⟩
  | takeRequest =>
    obtain ⟨o', -, rfl⟩ := focus_eq_ok.mp hr
    exact ⟨rfl, rfl⟩

theorem Connected.step {connections : List SocketId} (h : Connected listener connections s) (hidle : Idle s) (hg : Serves s i)
    (hr : step i s = .ok u s') : Connected listener (connections ++ taken listener i) s' := by
  by_cases hi : ∃ events accepted, i = .poll events accepted
  · obtain ⟨events, accepted, rfl⟩ := hi
    exact h.poll hg hr
  · obtain ⟨hsame, hnone⟩ := tcpServer_step listener hidle hg hr fun events accepted he => hi ⟨events, accepted, he⟩
    rw [hnone, List.append_nil]
    exact ⟨by rw [hsame]; exact h.listenerSocket, by rw [hsame]; exact h.nodup, by rw [hsame]; exact h.connections⟩

theorem connected_run (h : Reaches step Serves (fresh listener clientRequests clientResponses) is s) :
    Connected listener (is.flatMap (taken listener)) s := by
  have hboth := h.invariant (I := fun is s => Idle s ∧ Connected listener (is.flatMap (taken listener)) s)
    ⟨⟨rfl, rfl⟩, ⟨rfl, List.nodup_nil, rfl⟩⟩ fun is s i s' hs hg hr => by
      rw [List.flatMap_append, List.flatMap_singleton]
      exact ⟨hs.1.step hg hr, hs.2.step hs.1 hg hr⟩
  exact hboth.2

/-! ## The array of `epoll_wait` -/

theorem accept_inside (a : Accepted) : Raises (· ≠ .outOfRange) (accept a) := by
  refine .ite (.throw (by simp)) (.bind (.modify _) fun _ => ?_)
  exact .ite (.throw (by simp)) (.modify _)

theorem poll_outOfRange_iff : (∃ s', Serving.step (.poll events accepted) s = .error .outOfRange s') ↔ 1024 < events.length := by
  have hgoTo : ∀ _ : Unit, Raises (· ≠ .outOfRange) (goTo .sendAndRecv) := fun _ => .modify _
  rw [Serving.step, Raises.stops_bind_iff hgoTo]
  unfold Serving.poll
  split_ifs with hroom
  · refine iff_of_false ?_ (Nat.not_lt.mpr hroom)
    rintro ⟨s', he⟩
    have hrest : Raises (· ≠ .outOfRange) (forM accepted accept : ServingM Unit) := .forM accepted accept_inside
    exact Raises.bind .get (fun s => .bind (.modify _) fun _ => .ite hrest (.pure _)) s _ s' he rfl
  · exact iff_of_true ⟨s, rfl⟩ (Nat.not_le.mp hroom)

/-- `epoll_wait`, which reports a socket at most once, can store more events than the array has room for. -/
def Overfull (s : Serving) : Prop :=
  ∃ events accepted, Serves s (.poll events accepted) ∧ (events.map Event.socket).Nodup ∧
    ∃ s', step (.poll events accepted) s = .error .outOfRange s'

theorem Connected.overfull_iff {connections : List SocketId} (h : Connected listener connections s) (hphase : s.phase = .poll) :
    Overfull s ↔ 1024 ≤ connections.length := by
  have hconnections := h.connections
  constructor
  · rintro ⟨events, accepted, hg, hnodup, hstep⟩
    have hlong := poll_outOfRange_iff.mp hstep
    have hsockets : events.map Event.socket ⊆ listener :: connections := fun k hk => by
      obtain ⟨e, he, rfl⟩ := List.mem_map.mp hk
      rw [List.mem_cons, ← hconnections, mem_connections, h.listenerSocket]
      have hregistered := (hg.2.2.1 e he).2
      rw [h.listenerSocket] at hregistered
      tauto
    have hle := (List.subperm_of_subset hnodup hsockets).length_le
    rw [List.length_map, List.length_cons] at hle
    omega
  · intro hmany
    refine ⟨(listener :: connections).map fun k => ⟨EPOLLIN, k⟩, [], ⟨hphase, ?_, ?_, List.nodup_nil, fun a ha => nomatch ha⟩, ?_, ?_⟩
    · have hle : connections.length ≤ s.tcpServer.receiveSockets.length := by
        rw [← hconnections]
        exact List.length_filter_le _ _
      rw [List.length_map, List.length_cons, maxEvents]
      omega
    · intro e he
      obtain ⟨k, hk, rfl⟩ := List.mem_map.mp he
      refine ⟨show EPOLLIN &&& ~~~(EPOLLIN ||| EPOLLERR ||| EPOLLHUP) = 0 by decide, ?_⟩
      rcases List.mem_cons.mp hk with rfl | hk
      · exact .inl h.listenerSocket.symm
      · rw [← hconnections] at hk
        exact .inr (mem_connections.mp hk).1
    · rw [List.map_map]
      refine (List.map_id _).symm ▸ List.nodup_cons.mpr ⟨fun hmem => ?_, ?_⟩
      · rw [← hconnections, mem_connections] at hmem
        exact hmem.2 h.listenerSocket.symm
      · rw [← hconnections]
        exact h.nodup.filter _
    · refine poll_outOfRange_iff.mpr ?_
      rw [List.length_map, List.length_cons]
      omega

/-- In every run the server receives from each connection that it was offered while the listener was ready, once and in the
order of the offers; `poll` can overrun its array exactly if there are 1024 of them. -/
theorem run_connections (h : Reaches step Serves (fresh listener clientRequests clientResponses) is s) :
    s.tcpServer.sendSockets = [] ∧ s.tcpServer.receiveSockets.Nodup ∧
      s.tcpServer.receiveSockets.filter (· ≠ listener) = is.flatMap (taken listener) ∧
      (s.phase = .poll → (Overfull s ↔ 1024 ≤ (is.flatMap (taken listener)).length)) := by
  have hconnected := connected_run h
  have hconnections := hconnected.connections
  rw [TCPServer.connections, hconnected.listenerSocket] at hconnections
  exact ⟨(idle_run h).sendSockets, hconnected.nodup, hconnections, hconnected.overfull_iff⟩

instance (s : Serving) (events : List Event) (accepted : List Accepted) : Decidable (Serves s (.poll events accepted)) :=
  inferInstanceAs (Decidable (_ ∧ _ ∧ (∀ e ∈ events, _ &&& _ = _ ∧ _) ∧ _ ∧ _))

/-- The part of `Serves` that can be evaluated, for the steps of the server's thread. -/
def inTurn (s : Serving) : Step → Bool
  | .poll events accepted => decide (Serves s (.poll events accepted))
  | .sendAndRecv .. => decide (s.phase = .sendAndRecv)
  | .sendNext => decide (s.phase = .drain)
  | .respond _ | .takeRequest => false

/-- A connection is taken in each of two turns of the loop. -/
def twoTurns : List Step :=
  [connect, .sendAndRecv byTime (fun _ => {}) (fun _ => {}), .sendNext,
    .poll [⟨EPOLLIN, 7⟩, ⟨EPOLLIN, 1⟩] [{ fd := 6, socket := 8 }], .sendAndRecv byTime (fun _ => {}) (fun _ => {}), .sendNext]

theorem run_connections_twoTurns : ∃ s, Reaches step Serves (fresh 1 (.ofSize 4) (.ofSize 4)) twoTurns s ∧ s.phase = .poll ∧
    s.tcpServer.receiveSockets.filter (· ≠ 1) = [7, 8] ∧ ¬ Overfull s := by
  obtain ⟨s, hrun, hphase⟩ : ∃ s, Reaches step (fun s i => inTurn s i = true) (fresh 1 (.ofSize 4) (.ofSize 4)) twoTurns s ∧
      s.phase = .poll := exists_of_execute (by decide +kernel)
  have hserves : Reaches step Serves (fresh 1 (.ofSize 4) (.ofSize 4)) twoTurns s := hrun.mono_of_mem fun i hi s hturn => by
    cases i with
    | poll events accepted => exact of_decide_eq_true hturn
    | sendAndRecv sort receives sends =>
      have hsort : sort = byTime := by
        simp only [twoTurns, connect, List.mem_cons, List.not_mem_nil, Step.sendAndRecv.injEq, reduceCtorEq, false_or, or_false] at hi
        rcases hi with ⟨rfl, -⟩ | ⟨rfl, -⟩ <;> rfl
      rw [hsort]
      exact ⟨of_decide_eq_true hturn, sorts_byTime⟩
    | sendNext =>
      have hdrain : s.phase = .drain := of_decide_eq_true hturn
      exact hdrain
    | respond clientResponse => cases hturn
    | takeRequest => cases hturn
  obtain ⟨-, -, hconnections, hoverfull⟩ := run_connections hserves
  exact ⟨s, hserves, hphase, hconnections, fun h => absurd ((hoverfull hphase).mp h) (by decide)⟩

end Serving
end TradingEcosystem
