import TradingEcosystem.LFQueue
import TradingEcosystem.Messages

/-! `fifo_sequencer.h`: the requests of one round of receiving, sorted by their receive
time and written to the queue of the engine. -/
namespace TradingEcosystem
open Program

def ME_MAX_PENDING_REQUESTS : Nat := 1024

/-- `no` is the number of the `addClientRequest` call, from 0 on. It is proof-only. -/
structure RecvTimeClientRequest where
  recvTime : Nanos := 0
  request : MEClientRequest := {}
  no : Nat
  deriving DecidableEq, Repr

/-- `pendingClientRequests` is the array up to `pending_size_`. The last two fields are
proof-only: what was added, and what was written to the queue. -/
structure FIFOSequencer where
  incomingRequests : LFQueue MEClientRequest
  pendingClientRequests : List RecvTimeClientRequest := []
  added : List RecvTimeClientRequest := []
  published : List RecvTimeClientRequest := []

abbrev SequencerM := EStateM Fault FIFOSequencer

namespace FIFOSequencer
variable {s s' : FIFOSequencer} {rxTime : Nanos} {request : MEClientRequest} {batch : List (Nanos × MEClientRequest)}
  {r r' : RecvTimeClientRequest} {l pending sorted : List RecvTimeClientRequest}

def tooManyPendingRequests : Fault := .fatal "Too many pending requests"

/-- `pending_client_requests_.at(pending_size_++) = r`. -/
def push (s : FIFOSequencer) (r : RecvTimeClientRequest) : FIFOSequencer :=
  { s with pendingClientRequests := s.pendingClientRequests ++ [r], added := s.added ++ [r] }

def addClientRequest (rxTime : Nanos) (request : MEClientRequest) : SequencerM Unit := do
  let s ← get
  if s.pendingClientRequests.length ≥ ME_MAX_PENDING_REQUESTS then throw tooManyPendingRequests
  else modify fun s => s.push { recvTime := rxTime, request, no := s.added.length }

/-- One turn of the loop of `sequenceAndPublish`. -/
def publish (r : RecvTimeClientRequest) : SequencerM Unit :=
  modify fun s => { s with incomingRequests := s.incomingRequests.write r.request, published := s.published ++ [r] }

/-- `sorted` is the range as `std::sort` leaves it. -/
def sequenceAndPublish (sorted : List RecvTimeClientRequest) : SequencerM Unit := do
  if (← get).pendingClientRequests = [] then return ()
  else
    forM sorted publish
    modify fun s => { s with pendingClientRequests := [] }

/-- What is known of the result of `std::sort`: a permutation of the range in which no
element is `operator<` an earlier one. -/
structure Sorts (pending sorted : List RecvTimeClientRequest) : Prop where
  perm : sorted.Perm pending
  sorted : sorted.Pairwise fun r r' => ¬ r'.recvTime < r.recvTime

instance (pending sorted : List RecvTimeClientRequest) : Decidable (Sorts pending sorted) :=
  decidable_of_iff (_ ∧ _) ⟨fun h => ⟨h.1, h.2⟩, fun h => ⟨h.perm, h.sorted⟩⟩

theorem addClientRequest_of_room (h : s.pendingClientRequests.length < ME_MAX_PENDING_REQUESTS) :
    addClientRequest rxTime request s = .ok () (s.push { recvTime := rxTime, request, no := s.added.length }) := by
  have hlt : ¬ s.pendingClientRequests.length ≥ ME_MAX_PENDING_REQUESTS := by omega
  rw [addClientRequest, bind_of_ok (get_apply), if_neg hlt]
  rfl

theorem addClientRequest_of_full (h : ME_MAX_PENDING_REQUESTS ≤ s.pendingClientRequests.length) :
    addClientRequest rxTime request s = .error tooManyPendingRequests s := by
  rw [addClientRequest, bind_of_ok (get_apply), if_pos h]
  rfl

theorem forM_publish (l : List RecvTimeClientRequest) (s : FIFOSequencer) :
    forM l publish s = .ok () { s with
      incomingRequests := s.incomingRequests.writeAll (l.map (·.request)), published := s.published ++ l } := by
  induction l generalizing s with
  | nil =>
    rw [List.append_nil]
    rfl
  | cons r l ih =>
    have hr : publish r s = .ok () { s with
        incomingRequests := s.incomingRequests.write r.request, published := s.published ++ [r] } := rfl
    rw [forM_cons_of_ok hr, ih]
    simp only [LFQueue.writeAll, List.map_cons, List.foldl_cons, List.append_assoc, List.singleton_append]

/-- The state after the pending requests were published in the order `sorted`. -/
def sequenced (s : FIFOSequencer) (sorted : List RecvTimeClientRequest) : FIFOSequencer :=
  { s with
    incomingRequests := s.incomingRequests.writeAll (sorted.map (·.request))
    pendingClientRequests := []
    published := s.published ++ sorted }

theorem sequenceAndPublish_apply (h : Sorts s.pendingClientRequests sorted) :
    sequenceAndPublish sorted s = .ok () (s.sequenced sorted) := by
  by_cases hp : s.pendingClientRequests = []
  · have hnil : sorted = [] := by
      have hperm := h.perm
      rw [hp] at hperm
      exact hperm.eq_nil
    have hs : s.sequenced [] = s := by
      obtain ⟨q, pending, added, published⟩ := s
      obtain rfl : pending = [] := hp
      simp [sequenced, LFQueue.writeAll]
    rw [hnil, hs, sequenceAndPublish, bind_of_ok (get_apply), if_pos hp]
    rfl
  · rw [sequenceAndPublish, bind_of_ok (get_apply), if_neg hp, bind_of_ok (forM_publish sorted s)]
    rfl

/-! ## A batch -/

/-- `addClientRequest` for every request of a batch. -/
def addAll (batch : List (Nanos × MEClientRequest)) : SequencerM Unit :=
  forM batch fun x => addClientRequest x.1 x.2

/-- The entries of a batch that is added after `n` others. -/
def entries (n : Nat) (batch : List (Nanos × MEClientRequest)) : List RecvTimeClientRequest :=
  batch.mapIdx fun i x => { recvTime := x.1, request := x.2, no := n + i }

@[simp] theorem entries_nil (n : Nat) : entries n [] = [] := rfl

theorem entries_cons (n : Nat) (x : Nanos × MEClientRequest) (batch : List (Nanos × MEClientRequest)) :
    entries n (x :: batch) = { recvTime := x.1, request := x.2, no := n } :: entries (n + 1) batch := by
  unfold entries
  rw [List.mapIdx_cons]
  congr 1
  apply List.mapIdx_eq_mapIdx_iff.mpr
  intro i hi
  simp only [RecvTimeClientRequest.mk.injEq, true_and]
  omega

theorem addAll_of_room (h : s.pendingClientRequests.length + batch.length ≤ ME_MAX_PENDING_REQUESTS) :
    addAll batch s = .ok () { s with
      pendingClientRequests := s.pendingClientRequests ++ entries s.added.length batch
      added := s.added ++ entries s.added.length batch } := by
  induction batch generalizing s with
  | nil =>
    rw [entries_nil, List.append_nil, List.append_nil]
    rfl
  | cons x batch ih =>
    rw [List.length_cons] at h
    have hx : addClientRequest x.1 x.2 s = .ok () (s.push { recvTime := x.1, request := x.2, no := s.added.length }) :=
      addClientRequest_of_room (by omega)
    refine (forM_cons_of_ok (g := fun x : Nanos × MEClientRequest => addClientRequest x.1 x.2) hx).trans ?_
    have hroom : (s.push { recvTime := x.1, request := x.2, no := s.added.length }).pendingClientRequests.length +
        batch.length ≤ ME_MAX_PENDING_REQUESTS := by
      simp only [push, List.length_append, List.length_singleton]
      omega
    refine (ih hroom).trans ?_
    simp only [push, List.length_append, List.length_singleton, List.append_assoc, List.singleton_append, entries_cons]

/-- What sequencing promises for a batch: each of its requests once, by receive time, and
those of one client as they were added. -/
structure InOrder (batch published : List RecvTimeClientRequest) : Prop where
  once : published.Perm batch
  byTime : published.Pairwise fun r r' => r.recvTime ≤ r'.recvTime
  byClient : published.Pairwise fun r r' => r.request.clientId = r'.request.clientId → r.no < r'.no

theorem entries_pairwise (n : Nat) (batch : List (Nanos × MEClientRequest)) :
    (entries n batch).Pairwise fun r r' => r.no < r'.no := by
  induction batch generalizing n with
  | nil => exact .nil
  | cons x batch ih =>
    rw [entries_cons]
    refine .cons (fun r hr => ?_) (ih (n + 1))
    obtain ⟨i, hi, rfl⟩ := List.mem_mapIdx.mp hr
    dsimp only
    omega

/-- The times and clients of the entries are those of the batch. -/
theorem pairwise_entries_iff {R : Nanos × MEClientRequest → Nanos × MEClientRequest → Prop} (n : Nat) :
    ((entries n batch).Pairwise fun r r' => R (r.recvTime, r.request) (r'.recvTime, r'.request)) ↔ batch.Pairwise R := by
  have hmap : (entries n batch).map (fun r => (r.recvTime, r.request)) = batch := by
    induction batch generalizing n with
    | nil => rfl
    | cons x batch ih => rw [entries_cons, List.map_cons, ih]
  rw [← List.pairwise_map (f := fun r : RecvTimeClientRequest => (r.recvTime, r.request)) (R := R), hmap]

/-- Two entries of a list stand in it one way or the other. -/
private theorem pairwise_or {R : RecvTimeClientRequest → RecvTimeClientRequest → Prop} (h : l.Pairwise R) (hr : r ∈ l)
    (hr' : r' ∈ l) (hne : r ≠ r') : R r r' ∨ R r' r := by
  have hsymm : Std.Symm fun r r' => R r r' ∨ R r' r := ⟨fun _ _ => Or.symm⟩
  have hl : l.Pairwise fun r r' => R r r' ∨ R r' r := h.imp .inl
  exact hl.forall hr hr' hne

/-- By receive time, and of equal times the one added last first. -/
def lateFirst (r r' : RecvTimeClientRequest) : Bool :=
  r.recvTime < r'.recvTime || (r.recvTime == r'.recvTime && r'.no ≤ r.no)

theorem lateFirst_iff : lateFirst r r' = true ↔ r.recvTime < r'.recvTime ∨ r.recvTime = r'.recvTime ∧ r'.no ≤ r.no := by
  simp [lateFirst]

/-- An order that `std::sort` is free to give. -/
theorem sorts_lateFirst (pending : List RecvTimeClientRequest) :
    Sorts pending (pending.mergeSort lateFirst) ∧ (pending.mergeSort lateFirst).Pairwise fun r r' => lateFirst r r' = true := by
  have hsort : (pending.mergeSort lateFirst).Pairwise fun r r' => lateFirst r r' = true := by
    apply List.pairwise_mergeSort
    · intro a b c hab hbc
      rw [lateFirst_iff] at hab hbc ⊢
      rcases hab with hab | ⟨hab, hno⟩ <;> rcases hbc with hbc | ⟨hbc, hno'⟩
      · exact .inl (Int64.lt_trans hab hbc)
      · exact .inl (hbc ▸ hab)
      · exact .inl (hab ▸ hbc)
      · exact .inr ⟨hab.trans hbc, hno'.trans hno⟩
    · intro a b
      rw [Bool.or_eq_true, lateFirst_iff, lateFirst_iff]
      rcases Int64.lt_or_le a.recvTime b.recvTime with h | h
      · exact .inl (.inl h)
      · rcases Int64.lt_or_eq_of_le h with h | h
        · exact .inr (.inl h)
        · exact (Nat.le_total b.no a.no).imp (fun hno => .inr ⟨h.symm, hno⟩) (fun hno => .inr ⟨h, hno⟩)
  refine ⟨⟨List.mergeSort_perm pending lateFirst, hsort.imp fun h hlt => ?_⟩, hsort⟩
  rcases lateFirst_iff.mp h with h | ⟨h, -⟩
  · exact Int64.lt_asymm h hlt
  · exact Int64.lt_irrefl (h ▸ hlt)

/-- Adding the batch and publishing it in the order `sorted`. -/
def sequence (batch : List (Nanos × MEClientRequest)) (sorted : List RecvTimeClientRequest) : SequencerM Unit := do
  addAll batch
  sequenceAndPublish sorted

/-- Whatever `std::sort` gives, the batch is written to the queue in an order as promised. -/
def Sequences (s : FIFOSequencer) (batch : List (Nanos × MEClientRequest)) : Prop :=
  ∀ sorted, Sorts (entries s.added.length batch) sorted → ∃ s' l, sequence batch sorted s = .ok () s' ∧
    s'.incomingRequests = s.incomingRequests.writeAll (l.map (·.request)) ∧ s'.published = s.published ++ l ∧
    InOrder (entries s.added.length batch) l

theorem sequence_of_room (hs : s.pendingClientRequests = []) (hn : batch.length ≤ ME_MAX_PENDING_REQUESTS)
    (hsort : Sorts (entries s.added.length batch) sorted) :
    ∃ s', sequence batch sorted s = .ok () s' ∧
      s'.incomingRequests = s.incomingRequests.writeAll (sorted.map (·.request)) ∧ s'.published = s.published ++ sorted := by
  have hroom : s.pendingClientRequests.length + batch.length ≤ ME_MAX_PENDING_REQUESTS := by
    rw [hs, List.length_nil, Nat.zero_add]
    exact hn
  have hadd := addAll_of_room hroom
  rw [hs, List.nil_append] at hadd
  rw [sequence, bind_of_ok hadd, sequenceAndPublish_apply hsort]
  exact ⟨_, rfl, rfl, rfl⟩

/-- A batch keeps the order of its clients under every result of the sort if and only if no
request has the receive time of an earlier request of its client, or an earlier time. -/
theorem sequences_iff (s : FIFOSequencer) (hs : s.pendingClientRequests = []) (batch : List (Nanos × MEClientRequest))
    (hn : batch.length ≤ ME_MAX_PENDING_REQUESTS) :
    Sequences s batch ↔ batch.Pairwise fun x y => x.2.clientId = y.2.clientId → x.1 < y.1 := by
  obtain ⟨es, hes⟩ : ∃ es, es = entries s.added.length batch := ⟨_, rfl⟩
  have hno : es.Pairwise fun r r' => r.no < r'.no := hes ▸ entries_pairwise _ batch
  have hiff : (es.Pairwise fun r r' => r.request.clientId = r'.request.clientId → r.recvTime < r'.recvTime) ↔
      batch.Pairwise fun x y => x.2.clientId = y.2.clientId → x.1 < y.1 :=
    hes ▸ pairwise_entries_iff (R := fun x y => x.2.clientId = y.2.clientId → x.1 < y.1) _
  rw [Sequences, ← hes, ← hiff]
  constructor
  · intro hseq
    obtain ⟨hsorts, hlate⟩ := sorts_lateFirst es
    obtain ⟨s', l, hrun, -, hpub, hord⟩ := hseq _ hsorts
    obtain ⟨s'', hrun', -, hpub'⟩ := sequence_of_room hs hn (hes ▸ hsorts)
    rw [← hes] at hrun' hpub'
    rw [hrun] at hrun'
    cases hrun'
    have hl : l = es.mergeSort lateFirst := List.append_cancel_left (hpub.symm.trans hpub')
    have hboth := hl ▸ hord.byClient
    -- in this order equal times put the later request of a client in front
    refine hno.imp_of_mem fun {r r'} hr hr' hlt hclient => ?_
    have hne : r ≠ r' := fun e => Nat.lt_irrefl _ (e ▸ hlt)
    have hmem : ∀ {x}, x ∈ es → x ∈ es.mergeSort lateFirst := fun hx => hsorts.perm.mem_iff.mpr hx
    rcases pairwise_or (hboth.and hlate) (hmem hr) (hmem hr') hne with ⟨-, h⟩ | ⟨h, -⟩
    · rcases lateFirst_iff.mp h with h | ⟨-, h⟩
      · exact h
      · omega
    · have := h hclient.symm
      omega
  · intro htimes sorted hsort
    obtain ⟨s', hrun, hqueue, hpub⟩ := sequence_of_room hs hn (hes ▸ hsort)
    refine ⟨s', sorted, hrun, hqueue, hpub, hsort.perm, hsort.sorted.imp fun h => Int64.not_lt.mp h, ?_⟩
    have hnodup : sorted.Nodup := hsort.perm.nodup_iff.mpr (hno.imp fun {r r'} h (e : r = r') => Nat.lt_irrefl _ (e ▸ h))
    refine (hsort.sorted.and hnodup).imp_of_mem fun {r r'} hr hr' h hclient => ?_
    rcases pairwise_or (hno.and htimes) (hsort.perm.mem_iff.mp hr) (hsort.perm.mem_iff.mp hr') h.2 with ⟨hlt, -⟩ | ⟨-, ht⟩
    · exact hlt
    · exact absurd (ht hclient.symm) h.1

private def saleOf (type : ClientRequestType) : MEClientRequest :=
  { type, clientId := 0, tickerId := 0, orderId := 7, side := .SELL, price := 100, qty := 5 }

theorem sequences_iff_twoReceives :
    Sequences { incomingRequests := .ofSize ME_MAX_CLIENT_UPDATES } [(1, saleOf .NEW), (2, saleOf .CANCEL)] :=
  (sequences_iff { incomingRequests := .ofSize ME_MAX_CLIENT_UPDATES } rfl [(1, saleOf .NEW), (2, saleOf .CANCEL)]
    (by decide)).mpr (by decide)

/-- An order and its cancel, read by one receive: the sort may put the cancel in front. -/
theorem oneReceive_cancel_overtakes :
    ¬ Sequences { incomingRequests := .ofSize ME_MAX_CLIENT_UPDATES } [(1, saleOf .NEW), (1, saleOf .CANCEL)] := by
  intro h
  have hsort : Sorts (entries 0 [(1, saleOf .NEW), (1, saleOf .CANCEL)])
      [⟨1, saleOf .CANCEL, 1⟩, ⟨1, saleOf .NEW, 0⟩] := by decide
  obtain ⟨s', l, hrun, -, hpub, hord⟩ := h _ hsort
  obtain ⟨s'', hrun', -, hpub'⟩ := sequence_of_room (s := { incomingRequests := .ofSize ME_MAX_CLIENT_UPDATES }) rfl
    (by decide) hsort
  rw [hrun] at hrun'
  cases hrun'
  have hl := List.append_cancel_left (hpub.symm.trans hpub')
  have hbad := hord.byClient
  rw [hl] at hbad
  exact absurd hbad (by decide)

end FIFOSequencer
end TradingEcosystem
