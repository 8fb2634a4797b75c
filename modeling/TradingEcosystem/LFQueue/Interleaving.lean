import TradingEcosystem.LFQueue
import TradingEcosystem.Messages
import TradingEcosystem.Library.Runs

/-! One producer and one consumer of an `LFQueue`, in steps of one access each. The two
sides move the two indices and the counter at different times. -/
namespace TradingEcosystem.LFQueue
open Program Runs

/-- Where the producer is in `*getNextToWriteTo() = a; updateWriteIndex();`. -/
inductive Producer (T : Type) where
  | idle
  | pointed (i : Nat)
  | writing (i : Nat) (a : T)
  | wrote
  | advancing (i : Nat)
  | counting
  deriving DecidableEq

/-- Where the consumer is in `getNextToRead`, the use of the element and `updateReadIndex`. -/
inductive Consumer where
  | idle
  | comparing (i : Nat)
  | pointing
  | polled (next : Option Nat)
  | inUse (i : Nat)
  | used
  | advancing (i : Nat)
  | testing
  | releasing
  deriving DecidableEq

/-- The last four fields are proof-only: the elements whose slot was written, those used, and
how often `next_write_index_` and `next_read_index_` were stored. -/
structure Threads (T : Type) where
  queue : LFQueue T
  producer : Producer T := .idle
  consumer : Consumer := .idle
  written : List T := []
  used : List T := []
  published : Nat := 0
  released : Nat := 0

/-- `produce a` is the next step of the producer, which writes `a` if it begins a write. -/
inductive Action (T : Type) where
  | produce (a : T)
  | consume

variable {T : Type} {n : Nat} {s s' : Threads T} {a : T} {i : Action T} {is : List (Action T)} {u : Unit} {checksSize : Bool}

def produce (a : T) : EStateM Fault (Threads T) Unit := fun s =>
  match s.producer with
  | .idle => .ok () { s with producer := .pointed s.queue.nextWriteIndex }
  | .pointed i => .ok () { s with producer := .writing i a }
  | .writing i a => .ok () { s with
      queue := { s.queue with store := Function.update s.queue.store i a }
      producer := .wrote, written := s.written ++ [a] }
  | .wrote => .ok () { s with producer := .advancing s.queue.nextWriteIndex }
  | .advancing i => .ok () { s with
      queue := { s.queue with nextWriteIndex := (i + 1) % s.queue.size }
      producer := .counting, published := s.published + 1 }
  | .counting => .ok () { s with
      queue := { s.queue with numElements := s.queue.numElements + 1 }, producer := .idle }

/-- `checksSize`: the loop also tests `size()` before it uses the element, as the loops of
`Logger::flushQueue` and `OrderServer::run` do and that of `MatchingEngine::run` does not. -/
def consume (checksSize : Bool) : EStateM Fault (Threads T) Unit := fun s =>
  match s.consumer with
  | .idle => .ok () { s with consumer := .comparing s.queue.nextReadIndex }
  | .comparing i => .ok () { s with consumer := if i = s.queue.nextWriteIndex then .polled none else .pointing }
  | .pointing => .ok () { s with consumer := .polled (some s.queue.nextReadIndex) }
  | .polled none => .ok () { s with consumer := .idle }
  | .polled (some i) => .ok () { s with
      consumer := if checksSize ∧ s.queue.numElements = 0 then .idle else .inUse i }
  | .inUse i => .ok () { s with consumer := .used, used := s.used ++ [s.queue.store i] }
  | .used => .ok () { s with consumer := .advancing s.queue.nextReadIndex }
  | .advancing i => .ok () { s with
      queue := { s.queue with nextReadIndex := (i + 1) % s.queue.size }
      consumer := .testing, released := s.released + 1 }
  | .testing => if s.queue.numElements ≠ 0 then .ok () { s with consumer := .releasing } else .error invalidElement s
  | .releasing => .ok () { s with
      queue := { s.queue with numElements := s.queue.numElements - 1 }, consumer := .idle }

def act (checksSize : Bool) : Action T → EStateM Fault (Threads T) Unit
  | .produce a => produce a
  | .consume => consume checksSize

def start (numElems : Nat) [Inhabited T] : Threads T := { queue := .ofSize numElems }

/-! ## The indices and the counter -/

/-- The index a thread has loaded. -/
def Producer.index : Producer T → Option Nat
  | .pointed i | .writing i _ | .advancing i => some i
  | _ => none

def Consumer.index : Consumer → Option Nat
  | .comparing i | .polled (some i) | .inUse i | .advancing i => some i
  | _ => none

/-- The increment that is still to come for a stored `next_write_index_`, and the decrement
for a stored `next_read_index_`. -/
def Producer.due : Producer T → Nat
  | .counting => 1
  | _ => 0

def Consumer.due : Consumer → Nat
  | .testing | .releasing => 1
  | _ => 0

/-- How the indices and the counter are related to the stores so far. -/
structure Indexed (n : Nat) (s : Threads T) : Prop where
  size : s.queue.size = n
  write : s.queue.nextWriteIndex = s.published % n
  read : s.queue.nextReadIndex = s.released % n
  producer : ∀ i ∈ s.producer.index, i = s.queue.nextWriteIndex
  consumer : ∀ i ∈ s.consumer.index, i = s.queue.nextReadIndex
  count : s.queue.numElements.toNat + s.released + s.producer.due = s.published + s.consumer.due

theorem indexed_start [Inhabited T] (n : Nat) : Indexed n (start n : Threads T) where
  size := rfl
  write := (Nat.zero_mod n).symm
  read := (Nat.zero_mod n).symm
  producer i h := by cases h
  consumer i h := by cases h
  count := rfl

theorem count_eq_zero {c : UInt64} : c = 0 ↔ c.toNat = 0 := UInt64.toNat_inj.symm

/-- The counter goes up by one unless it wraps. -/
theorem count_succ {c : UInt64} (h : c.toNat + 1 < 2 ^ 64) : (c + 1).toNat = c.toNat + 1 := by
  rw [UInt64.toNat_add, Nat.mod_eq_of_lt]
  · rfl
  · exact h

theorem count_pred {c : UInt64} (h : c ≠ 0) : (c - 1).toNat = c.toNat - 1 := by
  rw [UInt64.toNat_sub_of_le]
  · rfl
  · rw [UInt64.le_iff_toNat_le]
    exact Nat.one_le_iff_ne_zero.mpr fun e => h (count_eq_zero.mpr e)

/-- A step of the producer keeps them, unless the counter wraps. -/
private theorem Indexed.produce (h : Indexed n s) (hwrap : s.producer = .counting → s.queue.numElements.toNat + 1 < 2 ^ 64)
    (hr : produce a s = .ok u s') : Indexed n s' := by
  obtain ⟨queue, producer, consumer, written, used, published, released⟩ := s
  obtain ⟨hsize, hwrite, hread, hp, hc, hcount⟩ := h
  cases producer with
  | idle =>
    cases hr
    exact ⟨hsize, hwrite, hread, fun i hi => (Option.some.inj hi).symm, hc, hcount⟩
  | pointed i =>
    cases hr
    exact ⟨hsize, hwrite, hread, hp, hc, hcount⟩
  | writing i a =>
    cases hr
    exact ⟨hsize, hwrite, hread, nofun, hc, hcount⟩
  | wrote =>
    cases hr
    exact ⟨hsize, hwrite, hread, fun i hi => (Option.some.inj hi).symm, hc, hcount⟩
  | advancing i =>
    cases hr
    have hi : i = queue.nextWriteIndex := hp i rfl
    refine ⟨hsize, ?_, hread, nofun, hc, ?_⟩
    · rw [hi, hwrite, hsize, Nat.mod_add_mod]
    · simp only [Producer.due] at hcount ⊢
      omega
  | counting =>
    cases hr
    refine ⟨hsize, hwrite, hread, nofun, hc, ?_⟩
    have hadd := count_succ (hwrap rfl)
    simp only [Producer.due, hadd] at hcount ⊢
    omega

private theorem Indexed.consume (h : Indexed n s) (hr : consume checksSize s = .ok u s')
    (hpos : s.consumer = .releasing → s.queue.numElements ≠ 0) : Indexed n s' := by
  obtain ⟨queue, producer, consumer, written, used, published, released⟩ := s
  obtain ⟨hsize, hwrite, hread, hp, hc, hcount⟩ := h
  cases consumer with
  | idle =>
    cases hr
    exact ⟨hsize, hwrite, hread, hp, fun i hi => (Option.some.inj hi).symm, hcount⟩
  | comparing i =>
    cases hr
    refine ⟨hsize, hwrite, hread, hp, ?_, ?_⟩
    · dsimp only
      split_ifs <;> nofun
    · dsimp only
      split_ifs <;> exact hcount
  | pointing =>
    cases hr
    exact ⟨hsize, hwrite, hread, hp, fun i hi => (Option.some.inj hi).symm, hcount⟩
  | polled next =>
    cases next with
    | none =>
      cases hr
      exact ⟨hsize, hwrite, hread, hp, nofun, hcount⟩
    | some i =>
      cases hr
      refine ⟨hsize, hwrite, hread, hp, ?_, ?_⟩
      · dsimp only
        split_ifs
        · nofun
        · exact hc
      · dsimp only
        split_ifs <;> exact hcount
  | inUse i =>
    cases hr
    exact ⟨hsize, hwrite, hread, hp, nofun, hcount⟩
  | used =>
    cases hr
    exact ⟨hsize, hwrite, hread, hp, fun i hi => (Option.some.inj hi).symm, hcount⟩
  | advancing i =>
    cases hr
    have hi : i = queue.nextReadIndex := hc i rfl
    refine ⟨hsize, hwrite, ?_, hp, nofun, ?_⟩
    · rw [hi, hread, hsize, Nat.mod_add_mod]
    · simp only [Consumer.due] at hcount ⊢
      omega
  | testing =>
    simp only [LFQueue.consume] at hr
    split_ifs at hr
    cases hr
    exact ⟨hsize, hwrite, hread, hp, nofun, hcount⟩
  | releasing =>
    cases hr
    refine ⟨hsize, hwrite, hread, hp, nofun, ?_⟩
    have hne : queue.numElements.toNat ≠ 0 := fun e => hpos rfl (count_eq_zero.mpr e)
    have hsub := count_pred (hpos rfl)
    simp only [Consumer.due, hsub] at hcount ⊢
    omega

/-! ## With room, the queue is first in, first out -/

/-- A written slot whose index is still to be stored, and a slot that is being written. -/
def Producer.pending : Producer T → Nat
  | .wrote | .advancing _ => 1
  | _ => 0

def Producer.begun : Producer T → Nat
  | .writing .. => 1
  | _ => 0

/-- A used element whose index is still to be stored. -/
def Consumer.pending : Consumer → Nat
  | .used | .advancing _ => 1
  | _ => 0

/-- The consumer found the counter positive and has not moved on. -/
def Consumer.Holding : Consumer → Prop
  | .inUse _ | .used | .advancing _ => True
  | _ => False

/-- The producer has its slot and writes next. -/
def Producer.ready : Producer T → Bool
  | .pointed _ => true
  | _ => false

/-- The producer begins a write only while fewer than `size - 1` written elements are
unreleased. -/
def Roomy (s : Threads T) : Action T → Prop
  | .produce _ => s.producer.ready = true → s.written.length - s.released < s.queue.size - 1
  | .consume => True

structure Fifo (n : Nat) (s : Threads T) : Prop extends Indexed n s where
  length : s.written.length = s.published + s.producer.pending
  room : s.written.length + s.producer.begun < s.released + n
  taken : s.used.length = s.released + s.consumer.pending
  order : s.used <+: s.written
  slots : ∀ k a, s.released ≤ k → s.written[k]? = some a → s.queue.store (k % n) = a
  holding : s.consumer.Holding → s.released + s.producer.due < s.published
  moved : s.consumer.due = 1 → s.released + s.producer.due ≤ s.published

theorem index_ne {i j : Nat} (h : i < j) (h' : j < i + n) : i % n ≠ j % n := fun heq => by
  have hz := slot_inj (r := i) (n := n) (i := 0) (j := j - i) (by rw [Nat.add_zero, Nat.add_sub_cancel' h.le]; exact heq)
    (by omega) (by omega)
  omega

private theorem prefix_concat {l m : List T} (h : l <+: m) (ha : m[l.length]? = some a) : l ++ [a] <+: m := by
  obtain ⟨k, rfl⟩ := h
  rw [List.getElem?_append_right le_rfl, Nat.sub_self] at ha
  obtain ⟨k', rfl⟩ := List.head?_eq_some_iff.mp ((List.head?_eq_getElem? ..).trans ha)
  exact ⟨k', by rw [List.append_assoc]; rfl⟩

theorem Fifo.produce (hn : n < 2 ^ 64) (h : Fifo n s) (hg : Roomy s (.produce a)) (hr : produce a s = .ok u s') :
    Fifo n s' := by
  have hidx : Indexed n s' := h.toIndexed.produce (fun hp => by
    have hcount := h.count
    have hlen := h.length
    have hroom := h.room
    have hdue : s.consumer.due ≤ 1 := by cases s.consumer <;> simp [Consumer.due]
    simp only [hp, Producer.due, Producer.pending, Producer.begun] at hcount hlen hroom
    omega) hr
  obtain ⟨queue, producer, consumer, written, used, published, released⟩ := s
  obtain ⟨⟨hsize, hwrite, hread, hp, hc, hcount⟩, hlen, hroom, htaken, horder, hslots, hhold, hmoved⟩ := h
  cases producer with
  | idle =>
    cases hr
    exact ⟨hidx, hlen, hroom, htaken, horder, hslots, hhold, hmoved⟩
  | pointed i =>
    cases hr
    refine ⟨hidx, hlen, ?_, htaken, horder, hslots, hhold, hmoved⟩
    have hg' : written.length - released < queue.size - 1 := hg rfl
    have hsz : queue.size = n := hsize
    simp only [Producer.begun]
    omega
  | writing i a =>
    cases hr
    have hi : i = written.length % n := by
      rw [hlen]
      exact (hp i rfl).trans hwrite
    refine ⟨hidx, ?_, ?_, htaken, horder.trans (List.prefix_append ..), fun k c hk hkc => ?_, hhold, hmoved⟩
    · simp only [Producer.pending, List.length_append, List.length_singleton] at hlen ⊢
      omega
    · simp only [Producer.begun, List.length_append, List.length_singleton] at hroom ⊢
      omega
    · dsimp only at hkc hk ⊢
      by_cases he : k = written.length
      · rw [he, List.getElem?_concat_length] at hkc
        rw [he, hi, Function.update_self]
        exact Option.some.inj hkc
      · have hlt : k < written.length := by
          have hk' := (List.getElem?_eq_some_iff.mp hkc).1
          rw [List.length_append, List.length_singleton] at hk'
          omega
        rw [List.getElem?_append_left hlt] at hkc
        rw [hi, Function.update_of_ne (index_ne hlt (by simp only [Producer.begun] at hroom; omega))]
        exact hslots k c hk hkc
  | wrote =>
    cases hr
    exact ⟨hidx, hlen, hroom, htaken, horder, hslots, hhold, hmoved⟩
  | advancing i =>
    cases hr
    refine ⟨hidx, ?_, hroom, htaken, horder, hslots, fun hh => ?_, fun hh => ?_⟩
    · simp only [Producer.pending] at hlen ⊢
      omega
    · have := hhold hh
      simp only [Producer.due] at this ⊢
      omega
    · have := hmoved hh
      simp only [Producer.due] at this ⊢
      omega
  | counting =>
    cases hr
    refine ⟨hidx, hlen, hroom, htaken, horder, hslots, fun hh => ?_, fun hh => ?_⟩
    · have := hhold hh
      simp only [Producer.due] at this ⊢
      omega
    · have := hmoved hh
      simp only [Producer.due] at this ⊢
      omega

/-- Between its stores of the index and of the counter the consumer leaves the counter positive. -/
theorem Fifo.counter_ne_zero (h : Fifo n s) (hd : s.consumer.due = 1) : s.queue.numElements ≠ 0 := fun e => by
  have hcount := h.count
  have hmoved := h.moved hd
  rw [e, UInt64.toNat_zero] at hcount
  omega

theorem Fifo.consume (h : Fifo n s) (hr : consume true s = .ok u s') : Fifo n s' := by
  have hidx : Indexed n s' := h.toIndexed.consume hr fun hc => h.counter_ne_zero (by rw [hc]; rfl)
  obtain ⟨queue, producer, consumer, written, used, published, released⟩ := s
  obtain ⟨⟨hsize, hwrite, hread, hp, hc, hcount⟩, hlen, hroom, htaken, horder, hslots, hhold, hmoved⟩ := h
  cases consumer with
  | idle =>
    cases hr
    exact ⟨hidx, hlen, hroom, htaken, horder, hslots, nofun, nofun⟩
  | comparing i =>
    cases hr
    refine ⟨hidx, hlen, hroom, ?_, horder, hslots, ?_, ?_⟩
    · dsimp only
      split_ifs <;> exact htaken
    · dsimp only
      split_ifs <;> nofun
    · dsimp only
      split_ifs <;> nofun
  | pointing =>
    cases hr
    exact ⟨hidx, hlen, hroom, htaken, horder, hslots, nofun, nofun⟩
  | polled next =>
    cases next with
    | none =>
      cases hr
      exact ⟨hidx, hlen, hroom, htaken, horder, hslots, nofun, nofun⟩
    | some i =>
      cases hr
      by_cases hz : queue.numElements = 0
      · simp only [hz, and_self, if_true] at hidx ⊢
        exact ⟨hidx, hlen, hroom, htaken, horder, hslots, nofun, nofun⟩
      · simp only [hz, and_false, if_false] at hidx ⊢
        refine ⟨hidx, hlen, hroom, htaken, horder, hslots, fun _ => ?_, nofun⟩
        have hne : queue.numElements.toNat ≠ 0 := fun e => hz (count_eq_zero.mpr e)
        simp only [Consumer.due] at hcount ⊢
        omega
  | inUse i =>
    cases hr
    have hlt := hhold trivial
    have hex : released < written.length := by
      dsimp only at hlen hlt
      omega
    have hslot := hslots released _ le_rfl (List.getElem?_eq_getElem hex)
    have hi : i = released % n := (hc i rfl).trans hread
    have hlength : used.length = released := htaken
    refine ⟨hidx, hlen, hroom, ?_, ?_, hslots, fun _ => hlt, nofun⟩
    · rw [List.length_append, List.length_singleton]
      exact congrArg (· + 1) htaken
    · refine prefix_concat horder ?_
      rw [hlength, List.getElem?_eq_getElem hex, hi]
      exact congrArg some hslot.symm
  | used =>
    cases hr
    exact ⟨hidx, hlen, hroom, htaken, horder, hslots, fun _ => hhold trivial, nofun⟩
  | advancing i =>
    cases hr
    have hlt := hhold trivial
    refine ⟨hidx, hlen, ?_, ?_, horder, fun k a hk ha => hslots k a (Nat.le_of_succ_le hk) ha, nofun, fun _ => ?_⟩
    · dsimp only at hroom ⊢
      omega
    · exact htaken
    · dsimp only at hlt ⊢
      omega
  | testing =>
    simp only [LFQueue.consume] at hr
    split_ifs at hr
    cases hr
    exact ⟨hidx, hlen, hroom, htaken, horder, hslots, nofun, fun _ => hmoved rfl⟩
  | releasing =>
    cases hr
    exact ⟨hidx, hlen, hroom, htaken, horder, hslots, nofun, nofun⟩

/-- While the producer writes only where there is room, what the consumer has used is what
was written first, in order, no slot is read while it is written, and every step returns. -/
theorem run_fifo [Inhabited T] (numElems : UInt64) (hn : 2 ≤ numElems) (h : Reaches (act true) Roomy (start numElems.toNat) is s) :
    s.used <+: s.written ∧ (∀ i a j, s.producer = .writing i a → s.consumer = .inUse j → i ≠ j) ∧
      ∀ i, ∃ s', act true i s = .ok () s' := by
  have hfifo : Fifo numElems.toNat s := by
    refine h.invariant (I := fun _ s => Fifo numElems.toNat s) ?_ fun _ s i s' hs hg hr => ?_
    · have hpos : 2 ≤ numElems.toNat := UInt64.le_iff_toNat_le.mp hn
      refine ⟨indexed_start _, rfl, ?_, rfl, List.prefix_rfl, fun k a _ ha => by simp [start] at ha, nofun, nofun⟩
      simp only [start, Producer.begun, List.length_nil]
      omega
    · cases i with
      | produce a => exact hs.produce numElems.toNat_lt hg hr
      | consume => exact hs.consume hr
  refine ⟨hfifo.order, fun i a j hp hc => ?_, fun i => ?_⟩
  · have hlt := hfifo.holding (by rw [hc]; trivial)
    have hroom := hfifo.room
    have hlen := hfifo.length
    rw [hp] at hroom hlen
    rw [hfifo.producer i (by rw [hp]; rfl), hfifo.write, hfifo.consumer j (by rw [hc]; rfl), hfifo.read]
    simp only [Producer.begun, Producer.pending] at hroom hlen
    exact (index_ne (by omega) (by omega)).symm
  · cases i with
    | produce a =>
      rw [act, LFQueue.produce]
      split <;> exact ⟨_, rfl⟩
    | consume =>
      rw [act, LFQueue.consume]
      split
      case h_9 hc => exact ⟨_, if_pos (hfifo.counter_ne_zero (by rw [hc]; rfl))⟩
      all_goals exact ⟨_, rfl⟩

/-- Four elements go through a queue of three slots; the third one is written while the second one is used, and the fourth
one takes the slot of the first one. -/
def fourElements : List (Action Nat) :=
  List.replicate 6 (.produce 7) ++ List.replicate 6 (.produce 8) ++ List.replicate 9 .consume ++
    (List.replicate 6 [.produce 9, .consume]).flatten ++ List.replicate 3 .consume ++ List.replicate 6 (.produce 10) ++
    List.replicate 18 .consume

instance (s : Threads T) (i : Action T) : Decidable (Roomy s i) := by
  cases i with
  | produce a => exact inferInstanceAs (Decidable (_ → _))
  | consume => exact .isTrue trivial

theorem run_fifo_fourElements : ∃ s, Reaches (act true) Roomy (start (3 : UInt64).toNat) fourElements s ∧
    s.used = [7, 8, 9, 10] ∧ s.used <+: s.written := by
  obtain ⟨s, hrun, hused⟩ : ∃ s, Reaches (act true) Roomy (start (3 : UInt64).toNat) fourElements s ∧ s.used = [7, 8, 9, 10] :=
    exists_of_guarded (by decide +kernel)
  exact ⟨s, hrun, hused, (run_fifo 3 (by decide) hrun).1⟩

/-! ## The loop of the matching engine -/

/-- The consumer tests the counter for the last request whose index was stored, and the
producer has not counted it yet. -/
def Uncounted (s : Threads T) : Prop :=
  s.consumer = .testing ∧ s.producer.due = 1 ∧ s.published = s.released

/-- The counter does not wrap, and the consumer does not test it in that window. -/
def InTime (s : Threads T) : Action T → Prop
  | .produce _ => s.producer.due = 1 → s.queue.numElements.toNat + 1 < 2 ^ 64
  | .consume => ¬ Uncounted s

/-- The consumer found the two indices apart and has not moved on. -/
def Consumer.Ahead : Consumer → Prop
  | .pointing | .polled (some _) | .inUse _ | .used | .advancing _ => True
  | _ => False

private structure Paced (n : Nat) (s : Threads T) : Prop extends Indexed n s where
  behind : s.released ≤ s.published
  ahead : s.consumer.Ahead → s.released < s.published
  tested : s.consumer = .releasing → s.queue.numElements ≠ 0

private theorem Paced.produce (h : Paced n s) (hg : InTime s (.produce a)) (hr : produce a s = .ok u s') : Paced n s' := by
  have hidx : Indexed n s' := h.toIndexed.produce (fun hp => hg (by rw [hp]; rfl)) hr
  obtain ⟨queue, producer, consumer, written, used, published, released⟩ := s
  obtain ⟨-, hbehind, hahead, htested⟩ := h
  cases producer with
  | advancing i =>
    cases hr
    exact ⟨hidx, Nat.le_succ_of_le hbehind, fun hh => Nat.lt_succ_of_lt (hahead hh), htested⟩
  | counting =>
    cases hr
    refine ⟨hidx, hbehind, hahead, fun _ e => ?_⟩
    have hadd := count_succ (hg rfl)
    have hzero : queue.numElements + 1 = 0 := e
    rw [hzero, UInt64.toNat_zero] at hadd
    omega
  | _ =>
    cases hr
    exact ⟨hidx, hbehind, hahead, htested⟩

private theorem Paced.consume (h : Paced n s) (hr : consume checksSize s = .ok u s') : Paced n s' := by
  have hidx : Indexed n s' := h.toIndexed.consume hr h.tested
  obtain ⟨queue, producer, consumer, written, used, published, released⟩ := s
  obtain ⟨⟨hsize, hwrite, hread, -, hc, -⟩, hbehind, hahead, htested⟩ := h
  cases consumer with
  | comparing i =>
    cases hr
    have hi : i = queue.nextReadIndex := hc i rfl
    refine ⟨hidx, hbehind, ?_, ?_⟩
    · dsimp only at hwrite hread hbehind ⊢
      split_ifs with he
      · nofun
      · refine fun _ => lt_of_le_of_ne hbehind fun hpr => he ?_
        rw [hi, hread, hwrite, hpr]
    · dsimp only
      split_ifs <;> nofun
  | polled next =>
    cases next with
    | none =>
      cases hr
      exact ⟨hidx, hbehind, nofun, nofun⟩
    | some i =>
      cases hr
      refine ⟨hidx, hbehind, fun _ => hahead trivial, ?_⟩
      dsimp only
      split_ifs <;> nofun
  | advancing i =>
    cases hr
    exact ⟨hidx, hahead trivial, nofun, nofun⟩
  | testing =>
    simp only [LFQueue.consume] at hr
    split_ifs at hr with hne
    cases hr
    exact ⟨hidx, hbehind, nofun, fun _ => hne⟩
  | pointing =>
    cases hr
    exact ⟨hidx, hbehind, fun _ => hahead trivial, nofun⟩
  | inUse i =>
    cases hr
    exact ⟨hidx, hbehind, fun _ => hahead trivial, nofun⟩
  | used =>
    cases hr
    exact ⟨hidx, hbehind, fun _ => hahead trivial, nofun⟩
  | _ =>
    cases hr
    exact ⟨hidx, hbehind, nofun, nofun⟩

/-- In a run whose steps so far were in time, the assertion of the loop without `size()`
fails in the next step if and only if it tests for a request that is not counted yet. -/
theorem run_tripped_iff [Inhabited T] (h : Reaches (act false) InTime (start n) is s) (i : Action T) :
    (∃ s', act false i s = .error invalidElement s') ↔ i = .consume ∧ Uncounted s := by
  have hp : Paced n s := by
    refine h.invariant (I := fun _ s => Paced n s) ⟨indexed_start n, le_rfl, nofun, nofun⟩ fun _ s i s' hs hg hr => ?_
    cases i with
    | produce a => exact hs.produce hg hr
    | consume => exact hs.consume hr
  cases i with
  | produce a =>
    refine iff_of_false ?_ nofun
    rw [act, LFQueue.produce]
    split <;> nofun
  | consume =>
    have hcount := hp.count
    have hbehind := hp.behind
    have hzero : s.queue.numElements = 0 ↔ s.queue.numElements.toNat = 0 := count_eq_zero
    rw [act, LFQueue.consume, Uncounted, eq_self_iff_true, true_and]
    split
    case h_9 hc =>
      rw [hc]
      have hle : s.producer.due ≤ 1 := by cases s.producer <;> simp [Producer.due]
      simp only [hc, Consumer.due] at hcount
      rw [eq_self_iff_true, true_and]
      split_ifs with hne
      · refine iff_of_false nofun fun ⟨hd, he⟩ => hne (hzero.mpr (by omega))
      · refine iff_of_true ⟨s, rfl⟩ ?_
        have hz := hzero.mp (not_not.mp hne)
        omega
    all_goals
      rename_i hc
      rw [hc]
      exact iff_of_false nofun nofun

instance (s : Threads T) (i : Action T) : Decidable (InTime s i) := by
  cases i with
  | produce a => exact inferInstanceAs (Decidable (_ → _))
  | consume => exact inferInstanceAs (Decidable (¬ (_ ∧ _)))

/-- The first request is read before it is counted, and counted before the counter is tested. -/
def countedLate : List (Action MEClientRequest) :=
  List.replicate 5 (.produce {}) ++ List.replicate 5 .consume ++ [.produce {}] ++ List.replicate 2 .consume

theorem run_tripped_countedLate : ∃ s : Threads MEClientRequest,
    Reaches (act false) InTime (start ME_MAX_CLIENT_UPDATES) countedLate s ∧ s.consumer = .testing ∧
    ¬ ∃ s', act false .consume s = .error invalidElement s' := by
  obtain ⟨s, hrun, hc, hdue⟩ : ∃ s : Threads MEClientRequest,
      Reaches (act false) InTime (start ME_MAX_CLIENT_UPDATES) countedLate s ∧ s.consumer = .testing ∧ s.producer.due = 0 :=
    exists_of_guarded (by decide +kernel)
  refine ⟨s, hrun, hc, fun htrip => ?_⟩
  obtain ⟨-, -, hone, -⟩ := (run_tripped_iff hrun .consume).mp htrip
  omega

/-- The engine gets through the first request before its producer counts it. -/
theorem engine_trips_first_request : ∃ (is : List (Action MEClientRequest)) (s : Threads MEClientRequest),
    Reaches (act false) (fun _ _ => True) (start ME_MAX_CLIENT_UPDATES) is s ∧
    ∃ s', act false .consume s = .error invalidElement s' := by
  obtain ⟨s, hrun, hstop⟩ : ∃ s : Threads MEClientRequest, Reaches (act false) (fun _ _ => True) (start ME_MAX_CLIENT_UPDATES)
      (List.replicate 5 (.produce {}) ++ List.replicate 7 .consume) s ∧
      stop (act false .consume s) = some invalidElement := exists_of_guarded (by decide +kernel)
  exact ⟨_, s, hrun, stop_eq_some.mp hstop⟩

end TradingEcosystem.LFQueue
