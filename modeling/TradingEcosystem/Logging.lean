import TradingEcosystem.LFQueue
import TradingEcosystem.Library.Template

/-! `logging.h`: a line of the log is pushed to a queue element by element while its format is scanned. -/
namespace TradingEcosystem
open Program Template

/-- A `char`. -/
abbrev CChar := UInt8

/-- The characters of a literal of the source. -/
def chars (literal : String) : List CChar := literal.toList.map fun c => UInt8.ofNat c.toNat

/-- The string that begins with the given memory, in which a terminator follows. -/
def cString (s : List CChar) : List CChar := s.takeWhile (· ≠ 0)

def LOG_QUEUE_SIZE : Nat := 8 * 1024 * 1024

/-- `LogElement`: the type with the member of the union that belongs to it. Floating-point numbers are
their bits. -/
inductive LogElement where
  | CHAR (c : CChar)
  | INTEGER (i : Int32)
  | LONG_INTEGER (l : Int64)
  | LONG_LONG_INTEGER (ll : Int64)
  | UNSIGNED_INTEGER (u : UInt32)
  | UNSIGNED_LONG_INTEGER (ul : UInt64)
  | UNSIGNED_LONG_LONG_INTEGER (ull : UInt64)
  | FLOAT (f : UInt32)
  | DOUBLE (d : UInt64)
  deriving DecidableEq, Repr

instance : Inhabited LogElement := ⟨.CHAR 0⟩

/-- An argument of an overload of `pushValue`: a number or a character, a `const char *`, or a
`std::string`, which may hold a zero. -/
inductive LogArg where
  | value (logElement : LogElement)
  | pointer (value : List CChar)
  | string (value : List CChar)
  deriving DecidableEq, Repr

/-- The last field is proof-only: the elements pushed so far, which the thread of the logger takes
from the queue. -/
structure Logger where
  queue : LFQueue LogElement
  pushed : List LogElement := []

abbrev LoggerM := EStateM Fault Logger

namespace Logger

def fresh : Logger where
  queue := .ofSize LOG_QUEUE_SIZE

/-- `pushValue(const LogElement &)`. -/
def push (logElement : LogElement) : LoggerM Unit :=
  modify fun l => { queue := l.queue.write logElement, pushed := l.pushed ++ [logElement] }

/-- `pushValue(const char *)`. -/
def pushChars : List CChar → LoggerM Unit
  | [] => return ()
  | c :: value =>
    if c = 0 then return ()
    else do
      push (.CHAR c)
      pushChars value

def pushValue : LogArg → LoggerM Unit
  | .value logElement => push logElement
  | .pointer value => pushChars value
  | .string value => pushChars value

def percent : CChar := 0x25

def extraArguments : Fault := .fatal "extra arguments provided to log()"
def missingArguments : Fault := .fatal "missing arguments to log()"

/-- `log(s)`. -/
def logRest : List CChar → LoggerM Unit
  | [] => return ()
  | c :: s =>
    if c = 0 then return ()
    else if c = percent then
      match s with
      | c' :: s' =>
        if c' = percent then do
          push (.CHAR c')
          logRest s'
        else throw missingArguments
      | [] => throw missingArguments
    else do
      push (.CHAR c)
      logRest s

/-- The loop of `log(s, value, args...)`, where `log` is the call with the other arguments. -/
def logValue (value : LogArg) (log : List CChar → LoggerM Unit) : List CChar → LoggerM Unit
  | [] => throw extraArguments
  | c :: s =>
    if c = 0 then throw extraArguments
    else if c = percent then
      match s with
      | c' :: s' =>
        if c' = percent then do
          push (.CHAR c')
          logValue value log s'
        else do
          pushValue value
          log s
      | [] => do
        pushValue value
        log s
    else do
      push (.CHAR c)
      logValue value log s

/-- `log(s, args...)`. -/
def log : List CChar → List LogArg → LoggerM Unit
  | s, [] => logRest s
  | s, value :: args => logValue value (fun s => log s args) s

/-! ## The reference -/

/-- The elements that an argument is shown as. -/
def elements : LogArg → List LogElement
  | .value logElement => [logElement]
  | .pointer value => (cString value).map .CHAR
  | .string value => (cString value).map .CHAR

/-- The items of a format: a `%` is a slot, and `%%` a `%` that is copied. -/
def formatItems (s : List CChar) : List (Item CChar) := items percent (cString s)

/-- What the items of a format with the arguments are shown as. -/
def rendering (ps : List (Item CChar)) (args : List LogArg) : List LogElement := fill .CHAR elements ps args

def pushAll (l : Logger) (es : List LogElement) : Logger where
  queue := l.queue.writeAll es
  pushed := l.pushed ++ es

/-- The rendering is pushed, and the arguments are as many as the slots or the process is left. -/
def renders (ps : List (Item CChar)) (args : List LogArg) : LoggerM Unit := fun l =>
  if slots ps = args.length then .ok () (l.pushAll (rendering ps args))
  else if slots ps < args.length then .error extraArguments (l.pushAll (rendering ps args))
  else .error missingArguments (l.pushAll (rendering ps args))

variable {c : CChar} {s : List CChar} {ps : List (Item CChar)} {value : LogArg} {args : List LogArg} {l : Logger}

theorem pushAll_nil (l : Logger) : l.pushAll [] = l := by
  rw [pushAll, List.append_nil]
  rfl

theorem pushAll_append (l : Logger) (es es' : List LogElement) : l.pushAll (es ++ es') = (l.pushAll es).pushAll es' := by
  simp only [pushAll, LFQueue.writeAll, List.foldl_append, List.append_assoc]

theorem push_apply (e : LogElement) (l : Logger) : push e l = .ok () (l.pushAll [e]) := rfl

/-! ## What is left of a format -/

theorem renders_nil (l : Logger) : renders [] [] l = .ok () l :=
  congrArg (EStateM.Result.ok ()) (pushAll_nil l)

/-- The format ends before the arguments. -/
theorem renders_extra (value : LogArg) (args : List LogArg) (l : Logger) :
    renders [] (value :: args) l = .error extraArguments l := by
  have hslots : slots ([] : List (Item CChar)) < (value :: args).length := Nat.succ_pos args.length
  rw [renders, if_neg hslots.ne, if_pos hslots, rendering, fill, pushAll_nil]

/-- The arguments end before the format. -/
theorem renders_missing (ps : List (Item CChar)) (l : Logger) : renders (.slot :: ps) [] l = .error missingArguments l := by
  have hslots : ([] : List LogArg).length < slots (.slot :: ps) := Nat.succ_pos (slots ps)
  rw [renders, if_neg hslots.ne', if_neg hslots.not_gt, rendering, fill, pushAll_nil]

theorem renders_copy (c : CChar) (ps : List (Item CChar)) (args : List LogArg) (l : Logger) :
    renders (.copy c :: ps) args l = renders ps args (l.pushAll [.CHAR c]) := by
  have hpush : l.pushAll (rendering (.copy c :: ps) args) = (l.pushAll [.CHAR c]).pushAll (rendering ps args) :=
    pushAll_append l [.CHAR c] _
  rw [renders, hpush]
  rfl

theorem renders_slot (value : LogArg) (ps : List (Item CChar)) (args : List LogArg) (l : Logger) :
    renders (.slot :: ps) (value :: args) l = renders ps args (l.pushAll (elements value)) := by
  have hpush : l.pushAll (rendering (.slot :: ps) (value :: args)) = (l.pushAll (elements value)).pushAll (rendering ps args) :=
    pushAll_append l (elements value) _
  simp only [renders, hpush, slots, List.length_cons, Nat.add_right_cancel_iff, Nat.add_lt_add_iff_right]

/-! ## The front of a format -/

theorem cString_cons (h : c ≠ 0) (s : List CChar) : cString (c :: s) = c :: cString s :=
  List.takeWhile_cons_of_pos (decide_eq_true h)

theorem cString_zero (s : List CChar) : cString (0 :: s) = [] := List.takeWhile_cons_of_neg (by simp)

theorem percent_ne_zero : percent ≠ 0 := by decide

theorem formatItems_zero (s : List CChar) : formatItems (0 :: s) = [] := by rw [formatItems, cString_zero, items]

theorem formatItems_char (hzero : c ≠ 0) (h : c ≠ percent) (s : List CChar) :
    formatItems (c :: s) = .copy c :: formatItems s := by
  rw [formatItems, cString_cons hzero, items_copy h, formatItems]

theorem formatItems_percents (s : List CChar) : formatItems (percent :: percent :: s) = .copy percent :: formatItems s := by
  rw [formatItems, cString_cons percent_ne_zero, cString_cons percent_ne_zero, items_doubled, formatItems]

/-- The look-ahead sees the terminator, or the next character. -/
theorem formatItems_placeholder (h : s.head? ≠ some percent) : formatItems (percent :: s) = .slot :: formatItems s := by
  have hnext : (cString s).head? ≠ some percent := by
    cases s with
    | nil => nofun
    | cons c s =>
      by_cases hzero : c = 0
      · rw [hzero, cString_zero]
        nofun
      · rw [cString_cons hzero]
        exact h
  rw [formatItems, cString_cons percent_ne_zero, items_slot hnext, formatItems]

/-! ## The scan -/

theorem pushChars_apply (value : List CChar) (l : Logger) :
    pushChars value l = .ok () (l.pushAll ((cString value).map .CHAR)) := by
  induction value generalizing l with
  | nil => rw [cString, List.takeWhile_nil, List.map_nil, pushAll_nil, pushChars, pure_apply]
  | cons c value ih =>
    rw [pushChars]
    split_ifs with hzero
    · rw [hzero, cString_zero, List.map_nil, pushAll_nil, pure_apply]
    · rw [bind_of_ok (push_apply _ _), ih, cString_cons hzero, List.map_cons, ← pushAll_append]
      rfl

theorem pushValue_apply (value : LogArg) (l : Logger) : pushValue value l = .ok () (l.pushAll (elements value)) := by
  cases value with
  | value logElement => exact push_apply logElement l
  | pointer value => exact pushChars_apply value l
  | string value => exact pushChars_apply value l

section Scan
variable {log : List CChar → LoggerM Unit}

theorem logRest_zero (s : List CChar) (l : Logger) : logRest (0 :: s) l = .ok () l := by
  unfold logRest
  rw [if_pos rfl, pure_apply]

theorem logRest_percents (s : List CChar) (l : Logger) :
    logRest (percent :: percent :: s) l = logRest s (l.pushAll [.CHAR percent]) := rfl

theorem logRest_placeholder (h : s.head? ≠ some percent) (l : Logger) :
    logRest (percent :: s) l = .error missingArguments l := by
  cases s with
  | nil => rfl
  | cons c s =>
    have hc : c ≠ percent := fun e => h (congrArg some e)
    unfold logRest
    rw [if_neg percent_ne_zero, if_pos rfl]
    dsimp only
    rw [if_neg hc, throw_apply]

theorem logRest_char (hzero : c ≠ 0) (hc : c ≠ percent) (s : List CChar) (l : Logger) :
    logRest (c :: s) l = logRest s (l.pushAll [.CHAR c]) := by
  have hstep : logRest (c :: s) = (do push (.CHAR c); logRest s) := by
    conv_lhs => unfold logRest
    rw [if_neg hzero, if_neg hc]
  rw [hstep]
  exact bind_of_ok (push_apply _ _)

theorem logValue_zero (s : List CChar) (l : Logger) : logValue value log (0 :: s) l = .error extraArguments l := by
  unfold logValue
  rw [if_pos rfl, throw_apply]

theorem logValue_percents (s : List CChar) (l : Logger) :
    logValue value log (percent :: percent :: s) l = logValue value log s (l.pushAll [.CHAR percent]) := rfl

theorem logValue_placeholder (h : s.head? ≠ some percent) (l : Logger) :
    logValue value log (percent :: s) l = log s (l.pushAll (elements value)) := by
  cases s with
  | nil => exact bind_of_ok (pushValue_apply _ _)
  | cons c s =>
    have hc : c ≠ percent := fun e => h (congrArg some e)
    unfold logValue
    rw [if_neg percent_ne_zero, if_pos rfl]
    dsimp only
    rw [if_neg hc]
    exact bind_of_ok (pushValue_apply _ _)

theorem logValue_char (hzero : c ≠ 0) (hc : c ≠ percent) (s : List CChar) (l : Logger) :
    logValue value log (c :: s) l = logValue value log s (l.pushAll [.CHAR c]) := by
  have hstep : logValue value log (c :: s) = (do push (.CHAR c); logValue value log s) := by
    conv_lhs => unfold logValue
    rw [if_neg hzero, if_neg hc]
  rw [hstep]
  exact bind_of_ok (push_apply _ _)

/-- A format is at its end, or begins with `%%`, with a placeholder or with another character. -/
theorem format_induction {P : List CChar → Prop} (empty : P []) (zero : ∀ s, P (0 :: s))
    (percents : ∀ s, P s → P (percent :: percent :: s))
    (placeholder : ∀ s, s.head? ≠ some percent → P (percent :: s))
    (char : ∀ c s, c ≠ 0 → c ≠ percent → P s → P (c :: s)) (s : List CChar) : P s := by
  induction s using logRest.induct with
  | case1 => exact empty
  | case2 s => exact zero s
  | case3 s _ ih => exact percents s ih
  | case4 c s hc _ => exact placeholder (c :: s) fun h => hc (Option.some.inj h)
  | case5 _ => exact placeholder [] nofun
  | case6 c s hzero hc ih => exact char c s hzero hc ih

/-- Without arguments the format is scanned up to its first placeholder. -/
theorem logRest_apply (s : List CChar) (l : Logger) : logRest s l = renders (formatItems s) [] l := by
  induction s using format_induction generalizing l with
  | empty => exact (renders_nil l).symm
  | zero s => rw [formatItems_zero, renders_nil, logRest_zero]
  | percents s ih => rw [formatItems_percents, renders_copy, logRest_percents, ih]
  | placeholder s h => rw [formatItems_placeholder h, renders_missing, logRest_placeholder h]
  | char c s hzero hc ih => rw [formatItems_char hzero hc, renders_copy, logRest_char hzero hc, ih]

/-- With an argument it is scanned up to its first placeholder too, where the argument is pushed and
the other ones are logged with the rest of the format. -/
theorem logValue_apply (hlog : ∀ s l, log s l = renders (formatItems s) args l) (s : List CChar) (l : Logger) :
    logValue value log s l = renders (formatItems s) (value :: args) l := by
  induction s using format_induction generalizing l with
  | empty => exact (renders_extra value args l).symm
  | zero s => rw [formatItems_zero, renders_extra, logValue_zero]
  | percents s ih => rw [formatItems_percents, renders_copy, logValue_percents, ih]
  | placeholder s h => rw [formatItems_placeholder h, renders_slot, logValue_placeholder h, hlog]
  | char c s hzero hc ih => rw [formatItems_char hzero hc, renders_copy, logValue_char hzero hc, ih]

end Scan

theorem log_apply (s : List CChar) (args : List LogArg) (l : Logger) : log s args l = renders (formatItems s) args l := by
  induction args generalizing s l with
  | nil => exact logRest_apply s l
  | cons value args ih => exact logValue_apply ih s l

/-- A call of `log` pushes the rendering of its format, whatever the arguments are. It returns if and
only if these are as many as the placeholders; the rendering ends at the first placeholder without an
argument. -/
theorem log_renders (s : List CChar) (args : List LogArg) (l : Logger) :
    final (log s args l) = l.pushAll (rendering (formatItems s) args) ∧
      (stop (log s args l) = none ↔ slots (formatItems s) = args.length) ∧
      (stop (log s args l) = some missingArguments ↔ args.length < slots (formatItems s)) ∧
      (stop (log s args l) = some extraArguments ↔ slots (formatItems s) < args.length) := by
  have hne : missingArguments ≠ extraArguments := by decide
  rw [log_apply, renders]
  rcases lt_trichotomy (slots (formatItems s)) args.length with hlt | heq | hgt
  · rw [if_neg hlt.ne, if_pos hlt]
    exact ⟨rfl, iff_of_false nofun hlt.ne, iff_of_false (fun h => hne (Option.some.inj h).symm) hlt.not_gt, iff_of_true rfl hlt⟩
  · rw [if_pos heq]
    exact ⟨rfl, iff_of_true rfl heq, iff_of_false nofun heq.not_gt, iff_of_false nofun heq.not_lt⟩
  · rw [if_neg hgt.ne', if_neg hgt.not_gt]
    exact ⟨rfl, iff_of_false nofun hgt.ne', iff_of_true rfl hgt, iff_of_false (fun h => hne (Option.some.inj h)) hgt.not_gt⟩

/-- The text of an argument is not scanned again. -/
example : rendering (formatItems (chars "%%%:%")) [.value (.INTEGER 3), .pointer (chars "5%")] =
    [.CHAR percent, .INTEGER 3, .CHAR 0x3a, .CHAR 0x35, .CHAR percent] := by decide

end Logger
end TradingEcosystem
