import Mathlib.Data.List.Basic
import Mathlib.Tactic

/-! A stream cut into frames of one length, and buffers that hold parts of a stream. -/
namespace TradingEcosystem.Framing
variable {α : Type} {n : Nat} {l m f : List α}

/-- The complete frames of `n` elements from the start on. -/
def frames (n : Nat) (l : List α) : List (List α) :=
  (List.range (l.length / n)).map fun k => (l.drop (n * k)).take n

/-- What is behind the last complete frame. -/
def leftover (n : Nat) (l : List α) : List α := l.drop (n * (l.length / n))

theorem frames_of_lt (h : l.length < n) : frames n l = [] := by
  rw [frames, Nat.div_eq_of_lt h]
  rfl

theorem leftover_of_lt (h : l.length < n) : leftover n l = l := by
  rw [leftover, Nat.div_eq_of_lt h]
  rfl

theorem length_leftover_lt (hn : 0 < n) (l : List α) : (leftover n l).length < n := by
  rw [leftover, List.length_drop]
  have := Nat.mod_lt l.length hn
  have := Nat.mod_add_div l.length n
  omega

private theorem length_div (hn : 0 < n) (h : f.length = n) : (f ++ l).length / n = l.length / n + 1 := by
  rw [List.length_append, h, Nat.add_div_left _ hn]

theorem frames_append_frame (hn : 0 < n) (h : f.length = n) : frames n (f ++ l) = f :: frames n l := by
  have htail : ∀ k, ((f ++ l).drop (n * (k + 1))).take n = (l.drop (n * k)).take n := fun k => by
    have hk : n * (k + 1) = f.length + n * k := by rw [h, Nat.mul_add, Nat.mul_one, Nat.add_comm]
    rw [hk, ← List.drop_drop, List.drop_left]
  rw [frames, length_div hn h, List.range_succ_eq_map, List.map_cons, List.map_map, Nat.mul_zero, List.drop_zero,
    List.take_left' h]
  exact congrArg (f :: ·) (List.map_congr_left fun k _ => htail k)

theorem leftover_append_frame (hn : 0 < n) (h : f.length = n) : leftover n (f ++ l) = leftover n l := by
  have hk : n * (l.length / n + 1) = f.length + n * (l.length / n) := by
    rw [h, Nat.mul_add, Nat.mul_one, Nat.add_comm]
  rw [leftover, length_div hn h, hk, ← List.drop_drop, List.drop_left, leftover]

/-- A stream of frames is cut back into them, and nothing is left. -/
theorem frames_flatMap {β : Type} {g : β → List α} (hn : 0 < n) (hg : ∀ b, (g b).length = n) (bs : List β) :
    frames n (bs.flatMap g) = bs.map g ∧ leftover n (bs.flatMap g) = [] := by
  induction bs with
  | nil => exact ⟨frames_of_lt hn, leftover_of_lt hn⟩
  | cons b bs ih =>
    rw [List.flatMap_cons, frames_append_frame hn (hg b), leftover_append_frame hn (hg b), ih.1]
    exact ⟨rfl, ih.2⟩

/-- Induction over a stream: it is shorter than a frame, or a frame stands in front. -/
theorem induction {P : List α → Prop} (hn : 0 < n) (short : ∀ l, l.length < n → P l)
    (frame : ∀ f l, f.length = n → P l → P (f ++ l)) (l : List α) : P l := by
  by_cases h : l.length < n
  · exact short l h
  · have hlen : (l.take n).length = n := by rw [List.length_take]; omega
    have hdrop : (l.drop n).length < l.length := by rw [List.length_drop]; omega
    have ih := induction hn short frame (l.drop n)
    rw [← List.take_append_drop n l]
    exact frame _ _ hlen ih
termination_by l.length

/-- What arrives later is framed behind what was left over. -/
theorem frames_append (hn : 0 < n) (l m : List α) : frames n (l ++ m) = frames n l ++ frames n (leftover n l ++ m) := by
  induction l using induction hn with
  | short l h => rw [frames_of_lt h, leftover_of_lt h, List.nil_append]
  | frame f l h ih =>
    rw [List.append_assoc, frames_append_frame hn h, frames_append_frame hn h, leftover_append_frame hn h, ih]
    rfl

theorem leftover_append (hn : 0 < n) (l m : List α) : leftover n (l ++ m) = leftover n (leftover n l ++ m) := by
  induction l using induction hn with
  | short l h => rw [leftover_of_lt h]
  | frame f l h ih => rw [List.append_assoc, leftover_append_frame hn h, leftover_append_frame hn h, ih]

/-! ## Buffers -/

variable {data : Nat → α} {i j k : Nat}

/-- The `n` elements from index `i` on. -/
def slice (data : Nat → α) (i n : Nat) : List α := (List.range n).map fun k => data (i + k)

/-- The buffer with `l` written from index `i` on. -/
def overwrite (data : Nat → α) (i : Nat) (l : List α) : Nat → α := fun k =>
  if i ≤ k then (l[k - i]?).getD (data k) else data k

@[simp] theorem length_slice (data : Nat → α) (i n : Nat) : (slice data i n).length = n := by simp [slice]

@[simp] theorem slice_zero (data : Nat → α) (i : Nat) : slice data i 0 = [] := rfl

theorem slice_add (data : Nat → α) (i m n : Nat) : slice data i (m + n) = slice data i m ++ slice data (i + m) n := by
  rw [slice, List.range_add, List.map_append, List.map_map]
  exact congrArg _ (List.map_congr_left fun k _ => congrArg data (Nat.add_assoc ..).symm)

theorem slice_congr {data' : Nat → α} (h : ∀ k, k < n → data (i + k) = data' (j + k)) : slice data i n = slice data' j n :=
  List.map_congr_left fun k hk => h k (List.mem_range.mp hk)

/-- A write behind a range leaves it alone. -/
theorem slice_overwrite_of_le (h : i + n ≤ j) : slice (overwrite data j l) i n = slice data i n := by
  apply slice_congr
  intro k hk
  rw [overwrite, if_neg (by omega)]

theorem slice_overwrite (data : Nat → α) (i : Nat) (l : List α) : slice (overwrite data i l) i l.length = l := by
  apply List.ext_getElem
  · exact length_slice ..
  · intro k h h'
    simp [slice, overwrite, h']

/-- Writing behind the first `i` elements appends to them. -/
theorem slice_overwrite_append (data : Nat → α) (i : Nat) (l : List α) :
    slice (overwrite data i l) 0 (i + l.length) = slice data 0 i ++ l := by
  rw [slice_add, Nat.zero_add, slice_overwrite_of_le (by omega), slice_overwrite]

end TradingEcosystem.Framing
