import TradingEcosystem.Exchange.ExactlyOnce
import TradingEcosystem.MatchingEngine.Isolation
import TradingEcosystem.OrderBook.Refinement

/-! The exchange as its clients see it: bytes of requests go in, and what comes out is what the markets of
the tickers say. -/
namespace TradingEcosystem.Exchange
open Program Runs MEOrderBook OrderServer MatchingEngine
variable {x : Exchange} {strict : Bool} {is : List Step} {rs : List MEClientRequest} {e : MatchingEngine} {j : Fin ME_MAX_TICKERS}

/-- The responses that are not sent yet: those to read in the queue, and those that the engine has still to write to it. -/
def coming (x : Exchange) : List MEClientResponse :=
  x.server.outgoingResponses.unread ++ x.engine.clientResponses.drop x.server.responded.length

/-- What the messages `ms` and the responses that are still coming tell of ticker `j`, what the market data tells of it and
what rests in its book is what market `m` says. -/
structure Shows (x : Exchange) (ms : List OMClientResponse) (j : Fin ME_MAX_TICKERS) (m : Market) : Prop where
  book : (x.engine.tickerOrderBook j).Refines m
  responses : (ms.map (·.meClientResponse) ++ x.coming).filter (fun r => r.tickerId.toNat = j.val) =
    m.responses.map Report.msg
  updates : x.engine.marketUpdates.filter (fun u => u.tickerId.toNat = j.val) = m.updates.map Report.msg

/-- What is sent and what is coming are the responses of the engine. -/
theorem told_coming {done waiting : List MEClientRequest} {unsent unread : List MEClientResponse}
    {ms : List OMClientResponse} (h : Flow strict x done waiting unsent unread) (ht : Told x.server ms) :
    ms.map (·.meClientResponse) ++ x.coming = x.engine.clientResponses := by
  rw [coming, h.responses.queue.unread_eq, h.produced, List.drop_left, h.responses.responded, ht.drained, List.append_assoc]

/-- The book of ticker `j` mirrors the market that gets the requests for the ticker. -/
theorem engine_refines (h : Reaches processClientRequest (fun _ _ => True) (MatchingEngine.fresh strict) rs e)
    (hapart : Market.AllApart {} (requestsFor j rs)) : Isolated (fun _ _ => True) strict rs e j ∧
      (e.tickerOrderBook j).Refines (Market.after (requestsFor j rs)) := by
  have hisolated : Isolated (fun _ _ => True) strict rs e j :=
    h.invariant (I := fun rs e => Isolated (fun _ _ => True) strict rs e j) ⟨.start, rfl, rfl⟩
      fun _ _ _ _ ih _ returns => ih.step (fun _ _ _ _ => trivial) returns
  obtain ⟨ring, l, ps, hb, -, hm⟩ := run_mirrors hisolated.run hapart
  exact ⟨hisolated, hm.refines hb⟩

/-- In every run in which neither queue gets overfull and the engine's thread goes on, whatever the threads do in
between: the engine processed a beginning `done` of what the sequencer published of the admitted requests and is where
these bring it, and where the requests of `done` for a ticker share a slot with orders of their own side and price only, the
clients are told of the ticker what its market says to these requests, in this order, and nothing else. -/
theorem run_serves (h : Reaches step (fun x i => Ready x i ∧ Fits x i) (fresh strict) is x) (hgoes : x.engineStop = none) :
    ∃ done ms, done <+: x.server.fifoSequencer.published.map (·.request) ∧
      done.Subperm (x.server.admitted.map (·.2.meClientRequest)) ∧
      Reaches processClientRequest (fun _ _ => True) (MatchingEngine.fresh strict) done x.engine ∧ Told x.server ms ∧
      ∀ j, Market.AllApart {} (requestsFor j done) → Shows x ms j (Market.after (requestsFor j done)) := by
  obtain ⟨done, waiting, unsent, unread, ms, hflow, ht⟩ : ∃ done waiting unsent unread ms,
      Flow strict x done waiting unsent unread ∧ Told x.server ms := by
    refine h.invariant (I := fun _ x => ∃ done waiting unsent unread ms, Flow strict x done waiting unsent unread ∧
      Told x.server ms) ?_ ?_
    · exact ⟨[], [], [], [], [], flow_fresh strict, told_fresh strict⟩
    · rintro - x i x' ⟨done, waiting, unsent, unread, ms, hflow, ht⟩ ok returns
      exact hflow.step ht ok.1 ok.2 returns
  have hadmitted : done.Subperm (x.server.admitted.map (·.2.meClientRequest)) := by
    refine List.Subperm.trans (List.Sublist.subperm ?_) hflow.admitted.subperm
    rw [List.append_assoc]
    exact List.sublist_append_left _ _
  have hrunning := hflow.running hgoes
  refine ⟨done, ms, ⟨waiting, hflow.published.symm⟩, hadmitted, hrunning, ht, fun j hapart => ?_⟩
  obtain ⟨hisolated, hrefines⟩ := engine_refines hrunning hapart
  refine ⟨hrefines, ?_, ?_⟩
  · rw [told_coming hflow ht, hisolated.responses, hrefines.responses]
  · rw [hisolated.updates, hrefines.updates]

theorem run_serves_oneBatch : ∃ x done ms, Reaches step (fun x i => Ready x i ∧ Fits x i) (fresh true) oneBatch x ∧
    x.server.drained.length = 3 ∧ Told x.server ms ∧ Shows x ms 2 (Market.after (requestsFor 2 done)) := by
  obtain ⟨x, hrun, hgoes, hlen, hpublished⟩ : ∃ x, Reaches step (fun x i => Ready x i ∧ Fits x i) (fresh true) oneBatch x ∧
      x.engineStop = none ∧ x.server.drained.length = 3 ∧ x.server.fifoSequencer.published.map (·.request) =
        [(arrived 3 .SELL 10 0).request, (arrived 4 .BUY 5 1).request] := exists_of_guarded (by decide +kernel)
  obtain ⟨done, ms, hdone, -, -, ht, hshows⟩ := run_serves hrun hgoes
  -- whatever part of the batch the engine took, its requests do not share a slot
  have hapart : ∀ rs ∈ [(arrived 3 .SELL 10 0).request, (arrived 4 .BUY 5 1).request].inits,
      Market.AllApart {} (requestsFor 2 rs) := by decide +kernel
  rw [hpublished] at hdone
  exact ⟨x, done, ms, hrun, hlen, ht, hshows 2 (hapart done ((List.mem_inits _ _).mpr hdone))⟩

end TradingEcosystem.Exchange
