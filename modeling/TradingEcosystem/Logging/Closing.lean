import TradingEcosystem.Logging
import TradingEcosystem.LFQueue.Interleaving

/-! The two threads of a logger: the one that logs and then destroys it, and the one of `flushQueue`, which writes the
file. Each step is one access to what they share. -/
namespace TradingEcosystem.Logger
open Program Runs LFQueue

/-- Where the thread of `flushQueue` is: before the test of `running_`, in the loop over the queue, before
`file_.flush()`, or at its end. -/
inductive Flusher where
  | testing
  | draining
  | flushing
  | exited
  deriving DecidableEq

/-- Where the owner is: in its calls of `log`, or in `~Logger()` before `queue_.size()`, `running_ = false`,
`logger_thread_->join()` or `file_.close()`, or behind it. -/
inductive Owner where
  | logging
  | waiting
  | stopping
  | joining
  | closing
  | closed
  deriving DecidableEq

/-- What `operator<<` writes for floating-point numbers. -/
structure Floats where
  float : UInt32 → List CChar
  double : UInt64 → List CChar

/-- `file_ << ...` for an element: the `switch` of `flushQueue`. -/
def text (floats : Floats) : LogElement → List CChar
  | .CHAR c => [c]
  | .INTEGER i => chars (toString i.toInt)
  | .LONG_INTEGER l => chars (toString l.toInt)
  | .LONG_LONG_INTEGER ll => chars (toString ll.toInt)
  | .UNSIGNED_INTEGER u => chars (toString u.toNat)
  | .UNSIGNED_LONG_INTEGER ul => chars (toString ul.toNat)
  | .UNSIGNED_LONG_LONG_INTEGER ull => chars (toString ull.toNat)
  | .FLOAT f => floats.float f
  | .DOUBLE d => floats.double d

/-- `todo` is what the calls of `log` have still to push, `stream` what went into `file_`, and `file` what of it has certainly
left the buffer of the stream: an `ofstream` may write before it is flushed, and only `flush` and `close` are observed. -/
structure Lifetime where
  threads : Threads LogElement := start LOG_QUEUE_SIZE
  todo : List LogElement
  stream : List CChar := []
  file : List CChar := []
  running : Bool := true
  flusher : Flusher := .testing
  owner : Owner := .logging

namespace Lifetime

/-- The loop over the queue ends where there is no element, or the counter is zero. -/
def loopEnds (t : Threads LogElement) : Bool :=
  match t.consumer with
  | .polled none => true
  | .polled (some _) => t.queue.numElements = 0
  | _ => false

/-- What the next step of the loop writes. -/
def inserted (floats : Floats) (t : Threads LogElement) : List CChar :=
  match t.consumer with
  | .inUse i => text floats (t.queue.store i)
  | _ => []

/-- The next step of `flushQueue`. -/
def flush (floats : Floats) : EStateM Fault Lifetime Unit := fun s =>
  match s.flusher with
  | .testing => .ok () { s with flusher := if s.running then .draining else .exited }
  | .draining =>
    match consume true s.threads with
    | .ok _ t => .ok () { s with
        threads := t, stream := s.stream ++ inserted floats s.threads
        flusher := if loopEnds s.threads then .flushing else .draining }
    | .error f t => .error f { s with threads := t }
  | .flushing => .ok () { s with file := s.stream, flusher := .testing }
  | .exited => .ok () s

/-- The next step of the owner: of a `pushValue` while there is something to push, and of the destructor then. -/
def own : EStateM Fault Lifetime Unit := fun s =>
  match s.owner with
  | .logging =>
    if s.threads.producer = .idle ∧ s.todo = [] then .ok () { s with owner := .waiting }
    else
      match produce (s.todo.headD default) s.threads with
      | .ok _ t => .ok () { s with threads := t, todo := if s.threads.producer.ready then s.todo.tail else s.todo }
      | .error f t => .error f { s with threads := t }
  | .waiting => .ok () (if s.threads.queue.numElements = 0 then { s with owner := .stopping } else s)
  | .stopping => .ok () { s with running := false, owner := .joining }
  | .joining => .ok () (if s.flusher = .exited then { s with owner := .closing } else s)
  | .closing => .ok () { s with file := s.stream, owner := .closed }
  | .closed => .ok () s

inductive Thread where
  | owner
  | flusher
  deriving DecidableEq

def step (floats : Floats) : Thread → EStateM Fault Lifetime Unit
  | .owner => own
  | .flusher => flush floats

/-- The owner begins to write an element only while fewer than `LOG_QUEUE_SIZE - 1` are unreleased. -/
def HasRoom (s : Lifetime) : Thread → Prop
  | .owner => Roomy s.threads (.produce default)
  | .flusher => True

instance (s : Lifetime) (i : Thread) : Decidable (HasRoom s i) := by
  cases i <;> unfold HasRoom <;> infer_instance

variable {floats : Floats} {s s' : Lifetime} {t t' : Threads LogElement} {todo total : List LogElement} {a : LogElement} {u : Unit}
  {is : List Thread} {i : Thread}

/-! ## One access of the queue -/

/-- The element that is being written. -/
def held (p : Producer LogElement) : List LogElement :=
  match p with
  | .writing _ a => [a]
  | _ => []

private theorem consume_frame (floats : Floats) (h : consume true t = .ok u t') : t'.producer = t.producer ∧ t'.written = t.written ∧
    t'.published = t.published ∧ t'.used.flatMap (text floats) = t.used.flatMap (text floats) ++ inserted floats t ∧
    (loopEnds t = true → t'.consumer = .idle) := by
  obtain ⟨queue, producer, consumer, written, used, published, released⟩ := t
  cases consumer with
  | polled next =>
    cases next with
    | none =>
      cases h
      simp [inserted]
    | some i =>
      cases h
      simp [inserted, loopEnds]
  | testing =>
    simp only [LFQueue.consume] at h
    split_ifs at h
    cases h
    simp [inserted, loopEnds]
  | inUse i =>
    cases h
    simp [inserted, loopEnds]
  | _ =>
    cases h
    simp [inserted, loopEnds]

/-- The element that is pushed next goes from what is to be pushed to what is written, or stays on the way. -/
private theorem produce_frame (h : produce (todo.headD default) t = .ok u t') (hready : t.producer.ready = true → todo ≠ []) :
    t'.consumer = t.consumer ∧ t'.used = t.used ∧
      t'.written ++ held t'.producer ++ (if t.producer.ready then todo.tail else todo) = t.written ++ held t.producer ++ todo := by
  obtain ⟨queue, producer, consumer, written, used, published, released⟩ := t
  cases producer with
  | pointed i =>
    cases h
    cases todo with
    | nil => exact absurd rfl (hready rfl)
    | cons a todo => simp [held, Producer.ready]
  | writing i a =>
    cases h
    simp [held, Producer.ready]
  | _ =>
    cases h
    simp [held, Producer.ready]

/-- A counter of zero stays zero while only the reader moves. -/
private theorem consume_zero {n : Nat} (hf : Fifo n t) (hz : t.queue.numElements = 0) (h : consume true t = .ok u t') :
    t'.queue.numElements = 0 := by
  have hdue : t.consumer ≠ .releasing := fun hc => hf.counter_ne_zero (by rw [hc]; rfl) hz
  obtain ⟨queue, producer, consumer, written, used, published, released⟩ := t
  cases consumer with
  | releasing => exact absurd rfl hdue
  | testing =>
    simp only [LFQueue.consume] at h
    split_ifs at h
    cases h
    exact hz
  | polled next =>
    cases next with
    | none =>
      cases h
      exact hz
    | some i =>
      cases h
      exact hz
  | _ =>
    cases h
    exact hz

/-- Writing goes on whatever the state of the queue is. -/
private theorem produce_ok (a : LogElement) (t : Threads LogElement) : ∃ t', produce a t = .ok () t' := by
  unfold LFQueue.produce
  split <;> exact ⟨_, rfl⟩

private theorem own_logging (ho : s.owner = .logging) (hdone : ¬ (s.threads.producer = .idle ∧ s.todo = [])) :
    ∃ t, produce (s.todo.headD default) s.threads = .ok () t ∧ Lifetime.own s =
      .ok () { s with threads := t, todo := if s.threads.producer.ready then s.todo.tail else s.todo } := by
  obtain ⟨t, ht⟩ := produce_ok (s.todo.headD default) s.threads
  refine ⟨t, ht, ?_⟩
  unfold Lifetime.own
  rw [ho]
  dsimp only
  rw [if_neg hdone, ht]

private theorem own_done (ho : s.owner = .logging) (hdone : s.threads.producer = .idle ∧ s.todo = []) :
    Lifetime.own s = .ok () { s with owner := .waiting } := by
  unfold Lifetime.own
  rw [ho]
  exact if_pos hdone

/-! ## The whole life -/

/-- How the file, the stream and the queue are related to the elements `total` that the calls of `log` push. -/
structure Flushes (floats : Floats) (total : List LogElement) (s : Lifetime) : Prop where
  fifo : Fifo LOG_QUEUE_SIZE s.threads
  pushed : s.threads.written ++ held s.threads.producer ++ s.todo = total
  ready : s.threads.producer.ready = true → s.todo ≠ []
  stream : s.stream = s.threads.used.flatMap (text floats)
  file : s.file <+: s.stream
  loop : s.flusher ≠ .draining → s.threads.consumer = .idle
  silent : s.owner ≠ .logging → s.todo = [] ∧ s.threads.producer = .idle
  drained : s.owner ≠ .logging → s.owner ≠ .waiting → s.threads.queue.numElements = 0
  running : s.running = false ↔ s.owner = .joining ∨ s.owner = .closing ∨ s.owner = .closed
  exited : s.flusher = .exited → s.running = false
  joined : s.owner = .closing ∨ s.owner = .closed → s.flusher = .exited
  closed : s.owner = .closed → s.file = s.stream

theorem flushes_start (floats : Floats) (total : List LogElement) : Flushes floats total { todo := total } where
  fifo :=
    { toIndexed := indexed_start _, length := rfl, room := Nat.succ_pos _, taken := rfl, order := List.prefix_rfl
      slots := fun k a _ ha => by cases ha
      holding := False.elim
      moved := fun h => by cases h }
  pushed := rfl
  ready h := by cases h
  stream := rfl
  file := List.prefix_rfl
  loop _ := rfl
  silent h := absurd rfl h
  drained h := absurd rfl h
  running := by simp
  exited h := by cases h
  joined h := by rcases h with h | h <;> cases h
  closed h := by cases h

private theorem Flushes.flush (h : Flushes floats total s) (hr : flush floats s = .ok u s') : Flushes floats total s' := by
  unfold Lifetime.flush at hr
  cases hf : s.flusher with
  | testing =>
    rw [hf] at hr
    cases hr
    have hidle := h.loop (by rw [hf]; decide)
    have hnot : ¬ (s.owner = .closing ∨ s.owner = .closed) := fun hj => by
      rw [h.joined hj] at hf
      cases hf
    refine ⟨h.fifo, h.pushed, h.ready, h.stream, h.file, fun _ => hidle, h.silent, h.drained, h.running, fun he => ?_,
      fun hj => absurd hj hnot, h.closed⟩
    cases hrunning : s.running with
    | false => rfl
    | true => simp [hrunning] at he
  | draining =>
    rw [hf] at hr
    have hnot : ¬ (s.owner = .closing ∨ s.owner = .closed) := fun hj => by
      rw [h.joined hj] at hf
      cases hf
    cases hc : consume true s.threads with
    | error f t =>
      simp [hc] at hr
    | ok _ t =>
      simp only [hc] at hr
      cases hr
      obtain ⟨hproducer, hwritten, -, hused, hends⟩ := consume_frame floats hc
      refine ⟨h.fifo.consume hc, ?_, ?_, ?_, h.file.trans (List.prefix_append _ _), fun he => ?_, ?_, fun ho ho' => ?_, h.running,
        fun he => ?_, fun hj => absurd hj hnot, fun ho => absurd (.inr ho) hnot⟩
      · rw [hwritten, hproducer]
        exact h.pushed
      · rw [hproducer]
        exact h.ready
      · rw [hused, ← h.stream]
      · apply hends
        by_contra hloop
        exact he (if_neg hloop)
      · rw [hproducer]
        exact h.silent
      · exact consume_zero h.fifo (h.drained ho ho') hc
      · split_ifs at he
  | flushing =>
    rw [hf] at hr
    cases hr
    have hnot : ¬ (s.owner = .closing ∨ s.owner = .closed) := fun hj => by
      rw [h.joined hj] at hf
      cases hf
    exact ⟨h.fifo, h.pushed, h.ready, h.stream, List.prefix_rfl, fun _ => h.loop (by rw [hf]; decide), h.silent, h.drained,
      h.running, nofun, fun hj => absurd hj hnot, fun _ => rfl⟩
  | exited =>
    rw [hf] at hr
    cases hr
    exact h

private theorem Flushes.own (h : Flushes floats total s) (hroom : HasRoom s .owner) (hr : own s = .ok u s') :
    Flushes floats total s' := by
  cases ho : s.owner with
  | logging =>
    have hrunning : s.running ≠ false := fun e => by
      have howner := h.running.mp e
      rw [ho] at howner
      simp at howner
    by_cases hdone : s.threads.producer = .idle ∧ s.todo = []
    · rw [own_done ho hdone] at hr
      cases hr
      exact ⟨h.fifo, h.pushed, h.ready, h.stream, h.file, h.loop, fun _ => ⟨hdone.2, hdone.1⟩, fun _ hne => absurd rfl hne,
        by simp [hrunning], h.exited, by simp, by simp⟩
    · obtain ⟨t, hp, hown⟩ := own_logging ho hdone
      rw [hown] at hr
      cases hr
      obtain ⟨hconsumer, hused, hpushed⟩ := produce_frame hp h.ready
      refine ⟨h.fifo.produce (by decide) hroom hp, hpushed.trans h.pushed, fun hready => ?_, ?_, h.file, ?_,
        fun hne => absurd ho hne, fun hne => absurd ho hne, h.running, h.exited, h.joined, h.closed⟩
      · -- the producer has just taken its slot
        have hidle : s.threads.producer = .idle := by
          cases hs : s.threads.producer with
          | idle => rfl
          | _ =>
            simp only [LFQueue.produce, hs] at hp
            cases hp
            cases hready
        simpa [hidle, Producer.ready] using hdone
      · rw [hused]
        exact h.stream
      · rw [hconsumer]
        exact h.loop
  | waiting =>
    unfold Lifetime.own at hr
    rw [ho] at hr
    cases hr
    split_ifs with hz
    · have hsilent := h.silent (by rw [ho]; decide)
      have hrunning := h.running
      rw [ho] at hrunning
      exact ⟨h.fifo, h.pushed, h.ready, h.stream, h.file, h.loop, fun _ => hsilent, fun _ _ => hz, by simpa using hrunning,
        h.exited, by simp, by simp⟩
    · exact h
  | stopping =>
    unfold Lifetime.own at hr
    rw [ho] at hr
    cases hr
    have hsilent := h.silent (by rw [ho]; decide)
    have hz := h.drained (by rw [ho]; decide) (by rw [ho]; decide)
    exact ⟨h.fifo, h.pushed, h.ready, h.stream, h.file, h.loop, fun _ => hsilent, fun _ _ => hz, by simp, fun _ => rfl, by simp,
      by simp⟩
  | joining =>
    unfold Lifetime.own at hr
    rw [ho] at hr
    cases hr
    split_ifs with hexited
    · have hsilent := h.silent (by rw [ho]; decide)
      have hz := h.drained (by rw [ho]; decide) (by rw [ho]; decide)
      have hrunning := h.running.mpr (.inl ho)
      exact ⟨h.fifo, h.pushed, h.ready, h.stream, h.file, h.loop, fun _ => hsilent, fun _ _ => hz, by simpa using hrunning,
        h.exited, fun _ => hexited, by simp⟩
    · exact h
  | closing =>
    unfold Lifetime.own at hr
    rw [ho] at hr
    cases hr
    have hsilent := h.silent (by rw [ho]; decide)
    have hz := h.drained (by rw [ho]; decide) (by rw [ho]; decide)
    have hrunning := h.running.mpr (.inr (.inl ho))
    exact ⟨h.fifo, h.pushed, h.ready, h.stream, List.prefix_rfl, h.loop, fun _ => hsilent, fun _ _ => hz, by simpa using hrunning,
      h.exited, fun _ => h.joined (.inl ho), fun _ => rfl⟩
  | closed =>
    unfold Lifetime.own at hr
    rw [ho] at hr
    cases hr
    exact h

/-- The assertion of `updateReadIndex` holds whenever the loop gets to it. -/
private theorem consume_ok {n : Nat} (hf : Fifo n t) : ∃ t', consume true t = .ok () t' := by
  unfold LFQueue.consume
  split
  case h_9 hc => exact ⟨_, if_pos (hf.counter_ne_zero (by rw [hc]; rfl))⟩
  all_goals exact ⟨_, rfl⟩

private theorem flush_draining (h : Flushes floats total s) (hf : s.flusher = .draining) :
    ∃ t, consume true s.threads = .ok () t ∧ Lifetime.flush floats s = .ok () { s with
      threads := t, stream := s.stream ++ inserted floats s.threads
      flusher := if loopEnds s.threads then .flushing else .draining } := by
  obtain ⟨t, ht⟩ := consume_ok h.fifo
  refine ⟨t, ht, ?_⟩
  unfold Lifetime.flush
  rw [hf]
  dsimp only
  rw [ht]

theorem Flushes.returns (h : Flushes floats total s) (i : Thread) : ∃ s', step floats i s = .ok () s' := by
  cases i with
  | flusher =>
    cases hf : s.flusher with
    | draining =>
      obtain ⟨t, -, hflush⟩ := flush_draining h hf
      exact ⟨_, hflush⟩
    | _ =>
      simp only [step, Lifetime.flush, hf]
      exact ⟨_, rfl⟩
  | owner =>
    cases ho : s.owner with
    | logging =>
      by_cases hdone : s.threads.producer = .idle ∧ s.todo = []
      · exact ⟨_, own_done ho hdone⟩
      · obtain ⟨t, -, hown⟩ := own_logging ho hdone
        exact ⟨_, hown⟩
    | _ =>
      simp only [step, Lifetime.own, ho]
      exact ⟨_, rfl⟩

theorem flushes_run (h : Reaches (step floats) HasRoom { todo := total } is s) : Flushes floats total s := by
  refine h.invariant (I := fun _ s => Flushes floats total s) (flushes_start floats total) fun _ s i s' hs hg hr => ?_
  cases i with
  | owner => exact hs.own hg hr
  | flusher => exact hs.flush hr

/-- Behind the destructor the file has everything that was pushed. -/
theorem Flushes.complete (h : Flushes floats total s) (hc : s.owner = .closed) : s.file = total.flatMap (text floats) := by
  have hidle := h.loop (by rw [h.joined (.inr hc)]; decide)
  obtain ⟨htodo, hproducer⟩ := h.silent (by rw [hc]; decide)
  have hz := h.drained (by rw [hc]; decide) (by rw [hc]; decide)
  have hwritten : s.threads.written = total := by
    have hpushed := h.pushed
    rw [htodo, hproducer] at hpushed
    simpa [held] using hpushed
  have hlength := h.fifo.length
  have htaken := h.fifo.taken
  have hcount := h.fifo.count
  rw [hproducer] at hlength
  rw [hidle] at htaken
  rw [hz, hproducer, hidle] at hcount
  simp only [UInt64.toNat_zero, Producer.due, Consumer.due, Producer.pending, Consumer.pending] at hlength htaken hcount
  have hused : s.threads.used = s.threads.written := h.fifo.order.eq_of_length (by omega)
  rw [h.closed hc, h.stream, hused, hwritten]

/-! ## From the calls of `log` to the file -/

/-- What lines of a log look like in its file. -/
def fileText (floats : Floats) (lines : List (List CChar × List LogArg)) : List CChar :=
  lines.flatMap fun line => (rendering (formatItems line.1) line.2).flatMap (text floats)

variable {lines : List (List CChar × List LogArg)} {l l' : Logger}

/-- Calls of `log` that all return have pushed the renderings of their lines. -/
theorem logAll_ok (h : forM lines (fun line => log line.1 line.2) l = .ok u l') :
    l'.pushed = l.pushed ++ lines.flatMap fun line => rendering (formatItems line.1) line.2 := by
  induction lines generalizing l with
  | nil =>
    cases h
    exact (List.append_nil _).symm
  | cons line lines ih =>
    rw [List.forM_cons] at h
    obtain ⟨_, l₁, hline, hrest⟩ := bind_eq_ok.mp h
    have hpushed : l₁.pushed = l.pushed ++ rendering (formatItems line.1) line.2 := by
      rw [log_apply, renders] at hline
      split_ifs at hline
      cases hline
      rfl
    rw [ih hrest, hpushed, List.flatMap_cons, List.append_assoc]

theorem fileText_of_logged (floats : Floats) (h : forM lines (fun line => log line.1 line.2) Logger.fresh = .ok u l) :
    l.pushed.flatMap (text floats) = fileText floats lines := by
  rw [logAll_ok h, fileText, Logger.fresh, List.nil_append, List.flatMap_assoc]

/-- However the steps of the two threads are mixed, as long as there is room for what is pushed: no assertion fails, the
file is always a beginning of the text of the lines, and when the destructor is done it is all of it. -/
theorem run_closed (hlog : forM lines (fun line => log line.1 line.2) Logger.fresh = .ok () l)
    (h : Reaches (step floats) HasRoom { todo := l.pushed } is s) :
    s.file <+: fileText floats lines ∧ (s.owner = .closed → s.file = fileText floats lines) ∧
      ∀ i, ∃ s', step floats i s = .ok () s' := by
  have hs := flushes_run h
  rw [← fileText_of_logged floats hlog]
  refine ⟨?_, hs.complete, hs.returns⟩
  have horder : s.threads.used <+: l.pushed := by
    rw [← hs.pushed, List.append_assoc]
    exact hs.fifo.order.trans (List.prefix_append _ _)
  obtain ⟨rest, hrest⟩ := horder
  refine hs.file.trans ?_
  rw [hs.stream, ← hrest, List.flatMap_append]
  exact List.prefix_append _ _

/-- A line of two elements, the second of which is pushed when the first is in the stream already. -/
def oneLine : List (List CChar × List LogArg) := [(chars "a%", [.value (.INTEGER 7)])]

def oneLineTurns : List Thread :=
  List.replicate 6 .owner ++ List.replicate 10 .flusher ++ List.replicate 8 .owner ++ List.replicate 9 .flusher ++
    List.replicate 2 .owner ++ List.replicate 5 .flusher ++ List.replicate 2 .owner

/-- Digits that no run of the test needs. -/
def noFloats : Floats := ⟨fun _ => [], fun _ => []⟩

theorem run_closed_oneLine : ∃ l s, forM oneLine (fun line => log line.1 line.2) Logger.fresh = .ok () l ∧
    Reaches (step noFloats) HasRoom { todo := l.pushed } oneLineTurns s ∧ s.owner = .closed ∧ s.file = chars "a7" ∧
    s.file = fileText noFloats oneLine := by
  have hlog : forM oneLine (fun line => log line.1 line.2) Logger.fresh =
      .ok () (Logger.fresh.pushAll [.CHAR 0x61, .INTEGER 7]) := rfl
  obtain ⟨s, hrun, howner, hfile⟩ : ∃ s, Reaches (step noFloats) HasRoom
      { todo := (Logger.fresh.pushAll [.CHAR 0x61, .INTEGER 7]).pushed } oneLineTurns s ∧ s.owner = .closed ∧ s.file = chars "a7" :=
    exists_of_guarded (by decide +kernel)
  exact ⟨_, s, hlog, hrun, howner, hfile, (run_closed hlog hrun).2.1 howner⟩

/-! ## The destructor comes to its end -/

/-- What the thread of `flushQueue` does not change. -/
def ownSide (s : Lifetime) := (s.owner, s.todo, s.running, s.threads.producer)

/-- The steps of `flushQueue` up to the release of an element, while there is one. -/
def toRelease (s : Lifetime) : Nat :=
  match s.flusher, s.threads.consumer with
  | .draining, .releasing => 0
  | .draining, .testing => 1
  | .draining, .advancing _ => 2
  | .draining, .used => 3
  | .draining, .inUse _ => 4
  | .draining, .polled (some _) => 5
  | .draining, .pointing => 6
  | .draining, .comparing _ => 7
  | .draining, .idle => 8
  | .testing, _ => 9
  | .flushing, _ => 10
  | .draining, .polled none => 11
  | .exited, _ => 12

/-- The steps up to its end, when there is no element left and `running_` is false. -/
def toExit (s : Lifetime) : Nat :=
  match s.flusher, s.threads.consumer with
  | .exited, _ => 0
  | .testing, _ => 1
  | .flushing, _ => 2
  | .draining, .polled _ => 3
  | .draining, .pointing => 4
  | .draining, .comparing _ => 5
  | .draining, _ => 6

/-- An element that is counted is behind another index than the one the reader compares with. -/
private theorem comparing_ne {n j : Nat} (hf : Fifo n t) (hc : t.consumer = .comparing j) (hz : t.queue.numElements ≠ 0) :
    j ≠ t.queue.nextWriteIndex := by
  have hcount := hf.count
  have hlength := hf.length
  have hroom := hf.room
  have hpos : t.queue.numElements.toNat ≠ 0 := fun e => hz (count_eq_zero.mpr e)
  rw [hc] at hcount
  simp only [Consumer.due] at hcount
  rw [hf.consumer j (by rw [hc]; rfl), hf.read, hf.write]
  exact index_ne (by omega) (by omega)

private theorem flush_ownSide (hr : flush floats s = .ok u s') : s'.ownSide = s.ownSide := by
  unfold Lifetime.flush at hr
  cases hf : s.flusher with
  | draining =>
    rw [hf] at hr
    cases hc : consume true s.threads with
    | error f t => simp [hc] at hr
    | ok _ t =>
      simp only [hc] at hr
      cases hr
      obtain ⟨hproducer, -⟩ := consume_frame floats hc
      simp only [ownSide, hproducer]
  | _ =>
    rw [hf] at hr
    cases hr
    rfl

/-- While an element is counted, every step of `flushQueue` brings its release nearer. -/
private theorem flush_releases (h : Flushes floats total s) (hz : s.threads.queue.numElements ≠ 0)
    (hr : flush floats s = .ok u s') : s'.threads.queue.numElements.toNat < s.threads.queue.numElements.toNat ∨
      s'.threads.queue.numElements = s.threads.queue.numElements ∧ s'.toRelease < s.toRelease := by
  have hrunning : s.running = true := by
    by_contra hstop
    rw [Bool.not_eq_true] at hstop
    refine hz (h.drained ?_ ?_) <;> rcases h.running.mp hstop with ho | ho | ho <;> rw [ho] <;> decide
  unfold Lifetime.flush at hr
  cases hf : s.flusher with
  | testing =>
    rw [hf] at hr
    cases hr
    have hidle := h.loop (by rw [hf]; decide)
    exact .inr ⟨rfl, by simp [toRelease, hf, hrunning, hidle]⟩
  | flushing =>
    rw [hf] at hr
    cases hr
    exact .inr ⟨rfl, by simp [toRelease, hf]⟩
  | exited =>
    have hstop := h.exited hf
    rw [hrunning] at hstop
    cases hstop
  | draining =>
    rw [hf] at hr
    have hcomparing := fun j hc => comparing_ne (j := j) h.fifo hc hz
    have hsub := count_pred hz
    have hpos : s.threads.queue.numElements.toNat ≠ 0 := fun e => hz (count_eq_zero.mpr e)
    obtain ⟨⟨queue, producer, consumer, written, used, published, released⟩, todo, stream, file, running, flusher, owner⟩ := s
    dsimp only at hf hz hsub hpos hcomparing hr
    subst hf
    cases consumer with
    | comparing j =>
      cases hr
      exact .inr ⟨rfl, by simp [toRelease, loopEnds, hcomparing j rfl]⟩
    | polled next =>
      cases next with
      | none =>
        cases hr
        exact .inr ⟨rfl, by simp [toRelease, loopEnds]⟩
      | some i =>
        cases hr
        exact .inr ⟨rfl, by simp [toRelease, loopEnds, hz]⟩
    | testing =>
      simp only [LFQueue.consume, if_pos hz] at hr
      cases hr
      exact .inr ⟨rfl, by simp [toRelease, loopEnds]⟩
    | releasing =>
      cases hr
      left
      dsimp only
      omega
    | _ =>
      cases hr
      exact .inr ⟨rfl, by simp [toRelease, loopEnds]⟩

/-- While no element is left and `running_` is false, every step of `flushQueue` brings its end nearer. -/
private theorem flush_exits (h : Flushes floats total s) (hz : s.threads.queue.numElements = 0) (hstop : s.running = false)
    (hne : s.flusher ≠ .exited) (hr : flush floats s = .ok u s') :
    s'.threads.queue.numElements = 0 ∧ s'.toExit < s.toExit := by
  unfold Lifetime.flush at hr
  cases hf : s.flusher with
  | testing =>
    rw [hf] at hr
    cases hr
    exact ⟨hz, by simp [toExit, hf, hstop]⟩
  | flushing =>
    rw [hf] at hr
    cases hr
    exact ⟨hz, by simp [toExit, hf]⟩
  | exited => exact absurd hf hne
  | draining =>
    have hproducer : s.threads.producer = .idle := by
      refine (h.silent ?_).2
      rcases h.running.mp hstop with ho | ho | ho <;> rw [ho] <;> decide
    have hcount := h.fifo.count
    rw [hz, hproducer] at hcount
    simp only [UInt64.toNat_zero, Producer.due] at hcount
    have hholding := h.fifo.holding
    have hdue : s.threads.consumer.due ≠ 1 := fun hd => h.fifo.counter_ne_zero hd hz
    rw [hf] at hr
    cases hc : consume true s.threads with
    | error f t => simp [hc] at hr
    | ok _ t =>
      have hzero := consume_zero h.fifo hz hc
      simp only [hc] at hr
      cases hr
      refine ⟨hzero, ?_⟩
      clear hzero h
      obtain ⟨⟨queue, producer, consumer, written, used, published, released⟩, todo, stream, file, running, flusher, owner⟩ := s
      dsimp only at hf hz hcount hholding hdue hc
      subst hf
      cases consumer with
      | idle =>
        cases hc
        simp [toExit, loopEnds]
      | comparing j =>
        cases hc
        by_cases hj : j = queue.nextWriteIndex <;> simp [toExit, loopEnds, hj]
      | pointing =>
        cases hc
        simp [toExit, loopEnds]
      | polled next =>
        cases next <;> cases hc <;> simp [toExit, loopEnds, hz]
      | inUse j =>
        have hlt := hholding trivial
        simp only [Consumer.due] at hcount
        omega
      | used =>
        have hlt := hholding trivial
        simp only [Consumer.due] at hcount
        omega
      | advancing j =>
        have hlt := hholding trivial
        simp only [Consumer.due] at hcount
        omega
      | testing => exact absurd rfl hdue
      | releasing => exact absurd rfl hdue

private theorem drains (h : Reaches (step floats) HasRoom { todo := total } is s) :
    ∃ js s', Reaches (step floats) HasRoom { todo := total } (is ++ js) s' ∧ s'.threads.queue.numElements = 0 ∧
      s'.ownSide = s.ownSide := by
  induction hm : 20 * s.threads.queue.numElements.toNat + s.toRelease using Nat.strong_induction_on generalizing is s with
  | _ m ih =>
    by_cases hz : s.threads.queue.numElements = 0
    · exact ⟨[], s, by rwa [List.append_nil], hz, rfl⟩
    · have hs := flushes_run h
      obtain ⟨s₁, hr⟩ := hs.returns .flusher
      have hbound : s₁.toRelease ≤ 12 := by
        unfold toRelease
        split <;> decide
      have hless : 20 * s₁.threads.queue.numElements.toNat + s₁.toRelease < m := by
        rcases flush_releases hs hz hr with hlt | ⟨heq, hlt⟩
        · omega
        · rw [heq]
          omega
      have hrun : Reaches (step floats) HasRoom { todo := total } (is ++ [.flusher]) s₁ := .call h trivial hr
      obtain ⟨js, s', hrun', hzero, hown⟩ := ih _ hless hrun rfl
      exact ⟨.flusher :: js, s', by rwa [List.append_assoc] at hrun', hzero, hown.trans (flush_ownSide hr)⟩

private theorem exits (h : Reaches (step floats) HasRoom { todo := total } is s) (hz : s.threads.queue.numElements = 0)
    (hstop : s.running = false) : ∃ js s', Reaches (step floats) HasRoom { todo := total } (is ++ js) s' ∧
      s'.flusher = .exited ∧ s'.ownSide = s.ownSide := by
  induction hm : s.toExit using Nat.strong_induction_on generalizing is s with
  | _ m ih =>
    by_cases hexit : s.flusher = .exited
    · exact ⟨[], s, by rwa [List.append_nil], hexit, rfl⟩
    · have hs := flushes_run h
      obtain ⟨s₁, hr⟩ := hs.returns .flusher
      obtain ⟨hzero, hless⟩ := flush_exits hs hz hstop hexit hr
      have hside := flush_ownSide hr
      have hstop₁ : s₁.running = false := by
        rw [← hstop]
        exact congrArg (fun o => o.2.2.1) hside
      have hrun : Reaches (step floats) HasRoom { todo := total } (is ++ [.flusher]) s₁ := .call h trivial hr
      obtain ⟨js, s', hrun', hexited, hown⟩ := ih _ (hm ▸ hless) hrun hzero hstop₁ rfl
      exact ⟨.flusher :: js, s', by rwa [List.append_assoc] at hrun', hexited, hown.trans hside⟩

/-- The steps of the owner up to the end of the destructor, while the other thread keeps up. -/
def toClose (o : Owner) (todo : List LogElement) (p : Producer LogElement) : Nat :=
  match o with
  | .closed => 0
  | .closing => 1
  | .joining => 2
  | .stopping => 3
  | .waiting => 4
  | .logging => 8 * todo.length + match p with
    | .pointed _ => 7
    | .idle => 8
    | .counting => 9
    | .advancing _ => 10
    | .wrote => 11
    | .writing _ _ => 12

/-- With an empty queue the owner takes a step. -/
private theorem own_closes (h : Flushes floats total s) (hz : s.threads.queue.numElements = 0) (hc : s.owner ≠ .closed)
    (hexit : s.owner = .joining → s.flusher = .exited) : HasRoom s .owner ∧ ∃ s', own s = .ok () s' ∧
      toClose s'.owner s'.todo s'.threads.producer < toClose s.owner s.todo s.threads.producer := by
  have hcount := h.fifo.count
  have hlength := h.fifo.length
  have hdue : s.threads.consumer.due ≠ 1 := fun hd => h.fifo.counter_ne_zero hd hz
  rw [hz] at hcount
  constructor
  · intro hready
    have hsize := h.fifo.size
    obtain ⟨i, hi⟩ : ∃ i, s.threads.producer = .pointed i := by
      cases hp : s.threads.producer <;> rw [hp] at hready <;> first | exact ⟨_, rfl⟩ | cases hready
    have hle : s.threads.consumer.due ≤ 1 := by cases s.threads.consumer <;> simp [Consumer.due]
    rw [hi] at hcount hlength
    simp only [UInt64.toNat_zero, Producer.due, Producer.pending] at hcount hlength
    have hall : s.threads.written.length - s.threads.released = 0 := by omega
    rw [hall, hsize]
    decide
  · cases ho : s.owner with
    | logging =>
      by_cases hdone : s.threads.producer = .idle ∧ s.todo = []
      · refine ⟨_, own_done ho hdone, ?_⟩
        simp [toClose, hdone.1, hdone.2]
      · obtain ⟨t, hp, hown⟩ := own_logging ho hdone
        refine ⟨_, hown, ?_⟩
        have hready := h.ready
        dsimp only
        rw [ho]
        cases hs : s.threads.producer with
        | pointed i =>
          simp only [LFQueue.produce, hs] at hp
          cases hp
          have hpos : s.todo.length ≠ 0 := fun e => hready (by rw [hs]; rfl) (List.length_eq_zero_iff.mp e)
          simp only [toClose, Producer.ready, if_true, List.length_tail]
          omega
        | _ =>
          simp only [LFQueue.produce, hs] at hp
          cases hp
          simp [toClose, Producer.ready]
    | waiting =>
      have hown : Lifetime.own s = .ok () { s with owner := .stopping } := by simp only [Lifetime.own, ho, if_pos hz]
      exact ⟨_, hown, by simp [toClose]⟩
    | stopping =>
      have hown : Lifetime.own s = .ok () { s with running := false, owner := .joining } := by simp only [Lifetime.own, ho]
      exact ⟨_, hown, by simp [toClose]⟩
    | joining =>
      have hown : Lifetime.own s = .ok () { s with owner := .closing } := by simp only [Lifetime.own, ho, if_pos (hexit ho)]
      exact ⟨_, hown, by simp [toClose]⟩
    | closing =>
      have hown : Lifetime.own s = .ok () { s with file := s.stream, owner := .closed } := by simp only [Lifetime.own, ho]
      exact ⟨_, hown, by simp [toClose]⟩
    | closed => exact absurd ho hc

/-- From wherever the two threads have got to, the destructor can come to its end: the owner never waits for something that
the thread of `flushQueue` does not do. -/
theorem run_closable (h : Reaches (step floats) HasRoom { todo := total } is s) :
    ∃ js s', Reaches (step floats) HasRoom { todo := total } (is ++ js) s' ∧ s'.owner = .closed := by
  induction hm : toClose s.owner s.todo s.threads.producer using Nat.strong_induction_on generalizing is s with
  | _ m ih =>
    by_cases hc : s.owner = .closed
    · exact ⟨[], s, by rwa [List.append_nil], hc⟩
    · -- first the thread of `flushQueue` does what the owner may wait for
      obtain ⟨js, s₁, hrun, hz, hside⟩ := drains h
      obtain ⟨ks, s₂, hrun₂, hz₂, hexit, hside₂⟩ : ∃ ks s₂, Reaches (step floats) HasRoom { todo := total } (is ++ ks) s₂ ∧
          s₂.threads.queue.numElements = 0 ∧ (s₂.owner = .joining → s₂.flusher = .exited) ∧ s₂.ownSide = s.ownSide := by
        by_cases hj : s₁.owner = .joining
        · have hs₁ := flushes_run hrun
          obtain ⟨ks, s₂, hrun₂, hexited, hside₂⟩ := exits hrun hz (hs₁.running.mpr (.inl hj))
          have hs₂ := flushes_run hrun₂
          have ho₂ : s₂.owner = .joining := (congrArg Prod.fst hside₂).trans hj
          exact ⟨js ++ ks, s₂, by rwa [← List.append_assoc], hs₂.drained (by rw [ho₂]; decide) (by rw [ho₂]; decide),
            fun _ => hexited, hside₂.trans hside⟩
        · exact ⟨js, s₁, hrun, hz, fun h => absurd h hj, hside⟩
      simp only [ownSide, Prod.mk.injEq] at hside₂
      obtain ⟨howner, htodo, -, hproducer⟩ := hside₂
      obtain ⟨hroom, s₃, hr, hless⟩ := own_closes (flushes_run hrun₂) hz₂ (by rw [howner]; exact hc) hexit
      rw [howner, htodo, hproducer, hm] at hless
      have hrun₃ : Reaches (step floats) HasRoom { todo := total } (is ++ ks ++ [.owner]) s₃ := .call hrun₂ hroom hr
      obtain ⟨ls, s', hrun', hclosed⟩ := ih _ hless hrun₃ rfl
      refine ⟨ks ++ [.owner] ++ ls, s', ?_, hclosed⟩
      rwa [← List.append_assoc, ← List.append_assoc]

/-- The reader has looked at the queue before the first of two elements was counted. -/
theorem run_closable_early : ∃ is s js s', Reaches (step noFloats) HasRoom { todo := [.CHAR 0x61, .INTEGER 7] } is s ∧
    s.owner = .logging ∧ s.stream = [] ∧ Reaches (step noFloats) HasRoom { todo := [.CHAR 0x61, .INTEGER 7] } (is ++ js) s' ∧
    s'.owner = .closed := by
  obtain ⟨s, hrun, howner, hstream⟩ : ∃ s, Reaches (step noFloats) HasRoom { todo := [.CHAR 0x61, .INTEGER 7] }
      (List.replicate 5 .owner ++ List.replicate 5 .flusher) s ∧ s.owner = .logging ∧ s.stream = [] :=
    exists_of_guarded (by decide +kernel)
  obtain ⟨js, s', hrun', hclosed⟩ := run_closable hrun
  exact ⟨_, s, js, s', hrun, howner, hstream, hrun', hclosed⟩

end Lifetime
end TradingEcosystem.Logger
