import TradingEcosystem.Library.Program
import TradingEcosystem.Types

/-! `lock_free_queue.h`: a ring of `store_.size()` slots between two indices. No operation
looks at the occupancy, so the ring is a queue only while it is not overfull. -/
namespace TradingEcosystem
open Program

structure LFQueue (T : Type) where
  size : Nat
  store : Nat → T
  nextWriteIndex : Nat := 0
  nextReadIndex : Nat := 0
  numElements : UInt64 := 0

namespace LFQueue
variable {T : Type} {q q' : LFQueue T} {r : Nat} {l m : List T} {a : T} {u : Unit}

/-- `LFQueue(num_elems)`; every slot holds a default object. -/
def ofSize (numElems : Nat) [Inhabited T] : LFQueue T where
  size := numElems
  store _ := default

/-- `*getNextToWriteTo() = a; updateWriteIndex();`, as every producer does. -/
def write (q : LFQueue T) (a : T) : LFQueue T :=
  { q with
    store := Function.update q.store q.nextWriteIndex a
    nextWriteIndex := (q.nextWriteIndex + 1) % q.size
    numElements := q.numElements + 1 }

def writeAll (q : LFQueue T) (l : List T) : LFQueue T := l.foldl write q

/-- The element behind the pointer, if it is not null. -/
def getNextToRead (q : LFQueue T) : Option T :=
  if q.nextReadIndex = q.nextWriteIndex then none else some (q.store q.nextReadIndex)

/-- The message of the assertion without the thread id that the source appends. -/
def invalidElement : Fault := .assertFailed "Read an invalid element in: "

def updateReadIndex : EStateM Fault (LFQueue T) Unit := fun q =>
  let q := { q with nextReadIndex := (q.nextReadIndex + 1) % q.size }
  if q.numElements ≠ 0 then .ok () { q with numElements := q.numElements - 1 } else .error invalidElement q

@[simp] theorem write_size (q : LFQueue T) (a : T) : (q.write a).size = q.size := rfl
@[simp] theorem write_nextReadIndex (q : LFQueue T) (a : T) : (q.write a).nextReadIndex = q.nextReadIndex := rfl
theorem write_store (q : LFQueue T) (a : T) (i : Nat) :
    (q.write a).store i = if i = q.nextWriteIndex then a else q.store i := Function.update_apply ..

@[simp] theorem writeAll_size (l : List T) (q : LFQueue T) : (q.writeAll l).size = q.size := by
  induction l generalizing q with
  | nil => rfl
  | cons a l ih => exact ih (q.write a)

@[simp] theorem updateReadIndex_size (q : LFQueue T) : (final (updateReadIndex q)).size = q.size := by
  unfold updateReadIndex
  dsimp only
  split_ifs <;> rfl

/-! ## The ring as a queue -/

/-- After `r` reads the ring holds the elements of `l`, which fit in. -/
structure Holds (q : LFQueue T) (r : Nat) (l : List T) : Prop where
  room : l.length < q.size
  small : q.size ≤ 2 ^ 64
  read : q.nextReadIndex = r % q.size
  write : q.nextWriteIndex = (r + l.length) % q.size
  slots : ∀ k a, l[k]? = some a → q.store ((r + k) % q.size) = a
  count : q.numElements = UInt64.ofNat l.length

/-- Slots less than a round apart are different. -/
theorem slot_inj {n i j : Nat} (h : (r + i) % n = (r + j) % n) (hi : i < n) (hj : j < n) : i = j := by
  have hmod : i ≡ j [MOD n] := Nat.ModEq.add_left_cancel' r h
  exact Nat.ModEq.eq_of_lt_of_lt hmod hi hj

theorem holds_ofSize [Inhabited T] {n : Nat} (hn : 0 < n) (hs : n ≤ 2 ^ 64) : Holds (ofSize n : LFQueue T) 0 [] where
  room := hn
  small := hs
  read := (Nat.zero_mod n).symm
  write := (Nat.zero_mod n).symm
  slots k a h := by simp at h
  count := rfl

/-- A write while fewer than `size - 1` elements are unread puts its element behind them. -/
theorem Holds.write_of_room (h : Holds q r l) (hroom : l.length + 1 < q.size) : Holds (q.write a) r (l ++ [a]) where
  room := by rw [List.length_append]; exact hroom
  small := h.small
  read := h.read
  write := by
    rw [LFQueue.write, h.write, Nat.mod_add_mod, List.length_append, List.length_singleton, Nat.add_assoc]
  slots k c hk := by
    rw [write_store, write_size, h.write]
    by_cases he : k = l.length
    · rw [he, List.getElem?_concat_length] at hk
      rw [he, if_pos rfl]
      exact Option.some.inj hk
    · have hlt : k < l.length := by
        have hk' := (List.getElem?_eq_some_iff.mp hk).1
        rw [List.length_append, List.length_singleton] at hk'
        omega
      have hne : (r + k) % q.size ≠ (r + l.length) % q.size := fun heq => he (slot_inj heq (by omega) (by omega))
      rw [if_neg hne]
      rw [List.getElem?_append_left hlt] at hk
      exact h.slots k c hk
  count := by
    rw [LFQueue.write, h.count, List.length_append, List.length_singleton, UInt64.ofNat_add]
    rfl

/-- A write on top of `size - 1` unread elements makes the ring look empty. -/
theorem Holds.write_of_full (h : Holds q r l) (hfull : l.length + 1 = q.size) : (q.write a).getNextToRead = none := by
  have hindex : (q.write a).nextWriteIndex = (q.write a).nextReadIndex := by
    rw [LFQueue.write, h.write, Nat.mod_add_mod, Nat.add_assoc, hfull, Nat.add_mod_right, h.read]
  rw [getNextToRead, if_pos hindex.symm]

/-- Several writes that fit in. -/
theorem Holds.writeAll (h : Holds q r l) (hroom : l.length + m.length < q.size) : Holds (q.writeAll m) r (l ++ m) := by
  induction m generalizing q l with
  | nil =>
    rw [List.append_nil]
    exact h
  | cons a m ih =>
    rw [List.length_cons] at hroom
    have hone := h.write_of_room (a := a) (by omega)
    have hall := ih hone (by rw [List.length_append, List.length_singleton, write_size]; omega)
    rw [List.append_assoc] at hall
    exact hall

theorem Holds.getNextToRead_eq (h : Holds q r l) : q.getNextToRead = l.head? := by
  rw [getNextToRead, h.read, h.write]
  cases l with
  | nil => exact if_pos rfl
  | cons a l =>
    have hne : r % q.size ≠ (r + (a :: l).length) % q.size := fun heq => by
      have hz := slot_inj (i := 0) (j := (a :: l).length) heq (by have := h.room; omega) h.room
      simp at hz
    rw [if_neg hne]
    exact congrArg some (h.slots 0 a rfl)

theorem Holds.numElements_toNat (h : Holds q r l) : q.numElements.toNat = l.length := by
  have hroom := h.room
  have hsmall := h.small
  rw [h.count, UInt64.toNat_ofNat_of_lt']
  simp only [UInt64.size]
  omega

theorem Holds.numElements_ne_zero (h : Holds q r (a :: l)) : q.numElements ≠ 0 := fun e => by
  have hcount := h.numElements_toNat
  rw [e, UInt64.toNat_zero, List.length_cons] at hcount
  omega

/-- After every read the rest is unread. -/
theorem Holds.updateReadIndex_eq (h : Holds q r (a :: l)) :
    ∃ q', updateReadIndex q = .ok () q' ∧ Holds q' (r + 1) l ∧ q'.size = q.size := by
  have hlen : (a :: l).length = l.length + 1 := rfl
  have hroom := h.room
  have hsmall := h.small
  have hne := h.numElements_ne_zero
  have hlt : l.length < q.size := by omega
  have hread : (q.nextReadIndex + 1) % q.size = (r + 1) % q.size := by rw [h.read, Nat.mod_add_mod]
  have hwrite : q.nextWriteIndex = (r + 1 + l.length) % q.size := by rw [h.write, hlen, Nat.add_assoc, Nat.add_comm 1]
  have hslots : ∀ k c, l[k]? = some c → q.store ((r + 1 + k) % q.size) = c := fun k c hk => by
    rw [Nat.add_assoc, Nat.add_comm 1]
    exact h.slots (k + 1) c hk
  have hless : q.numElements - 1 = UInt64.ofNat l.length := by
    rw [h.count, hlen, UInt64.ofNat_add]
    simp
  exact ⟨_, if_pos hne, ⟨hlt, hsmall, hread, hwrite, hslots, hless⟩, rfl⟩

/-! ## What can be read -/

/-- The elements in the slots from the read index up to the write index. -/
def unread (q : LFQueue T) : List T :=
  (List.range ((q.nextWriteIndex + q.size - q.nextReadIndex) % q.size)).map fun k =>
    q.store ((q.nextReadIndex + k) % q.size)

/-- A ring that holds a queue has exactly its elements to read. -/
theorem Holds.unread_eq (h : Holds q r l) : q.unread = l := by
  have hroom := h.room
  have hlen : (q.nextWriteIndex + q.size - q.nextReadIndex) % q.size = l.length := by
    have hread : r % q.size < q.size := Nat.mod_lt _ (by omega)
    have hmod : (r + l.length) % q.size + q.size - r % q.size ≡ l.length [MOD q.size] := by
      have hsum : (r + l.length) % q.size + q.size - r % q.size + r ≡ l.length + r [MOD q.size] :=
        calc (r + l.length) % q.size + q.size - r % q.size + r
            ≡ (r + l.length) % q.size + q.size - r % q.size + r % q.size [MOD q.size] := (Nat.mod_modEq r _).symm.add_left _
          _ = (r + l.length) % q.size + q.size := Nat.sub_add_cancel (by omega)
          _ ≡ (r + l.length) % q.size [MOD q.size] := Nat.add_mod_right ..
          _ ≡ r + l.length [MOD q.size] := Nat.mod_modEq ..
          _ = l.length + r := Nat.add_comm ..
      exact hsum.add_right_cancel' r
    rw [h.read, h.write]
    exact Nat.mod_eq_of_modEq hmod hroom
  unfold unread
  apply List.ext_getElem
  · rw [List.length_map, List.length_range, hlen]
  · intro k hk hk'
    rw [List.getElem_map, List.getElem_range, h.read, Nat.mod_add_mod]
    exact h.slots k _ (List.getElem?_eq_getElem hk')

/-- The written slots hold elements with a property, however many of them were overwritten: in
the first round those are the slots up to the write index, which the reader has not passed, and
later on all slots. -/
structure Filled (P : T → Prop) (q : LFQueue T) : Prop where
  read : q.nextReadIndex < q.size
  write : q.nextWriteIndex < q.size
  slots : (∀ k < q.size, P (q.store k)) ∨
    (q.nextReadIndex ≤ q.nextWriteIndex ∧ ∀ k < q.nextWriteIndex, P (q.store k))

section Filled
variable {P P' : T → Prop}

theorem filled_ofSize [Inhabited T] {n : Nat} (hn : 0 < n) : Filled P (ofSize n) :=
  ⟨hn, hn, .inr ⟨Nat.le_refl _, fun _ hk => absurd hk (Nat.not_lt_zero _)⟩⟩

theorem Filled.mono (h : Filled P q) (hP : ∀ a, P a → P' a) : Filled P' q where
  read := h.read
  write := h.write
  slots := h.slots.imp (fun hs k hk => hP _ (hs k hk)) fun ⟨hle, hs⟩ => ⟨hle, fun k hk => hP _ (hs k hk)⟩

theorem Filled.write_of (h : Filled P q) (ha : P a) : Filled P (q.write a) := by
  obtain ⟨hread, hwrite, hslots⟩ := h
  have hstore : ∀ k, (k = q.nextWriteIndex ∨ P (q.store k)) → P ((q.write a).store k) := fun k hk => by
    rw [write_store]
    split_ifs with he
    · exact ha
    · exact hk.resolve_left he
  refine ⟨hread, Nat.mod_lt _ (by omega), ?_⟩
  rcases hslots with hall | ⟨hle, hbelow⟩
  · exact .inl fun k hk => hstore k (.inr (hall k hk))
  · by_cases hend : q.nextWriteIndex + 1 = q.size
    · left
      intro k hk
      rw [write_size] at hk
      by_cases he : k = q.nextWriteIndex
      · exact hstore k (.inl he)
      · exact hstore k (.inr (hbelow k (by omega)))
    · right
      have hnext : (q.write a).nextWriteIndex = q.nextWriteIndex + 1 := Nat.mod_eq_of_lt (by omega)
      rw [hnext]
      refine ⟨Nat.le_succ_of_le hle, fun k hk => ?_⟩
      by_cases he : k = q.nextWriteIndex
      · exact hstore k (.inl he)
      · exact hstore k (.inr (hbelow k (by omega)))

theorem Filled.writeAll (h : Filled P q) (hl : ∀ a ∈ l, P a) : Filled P (q.writeAll l) := by
  induction l generalizing q with
  | nil => exact h
  | cons a l ih => exact ih (h.write_of (hl a List.mem_cons_self)) fun b hb => hl b (List.mem_cons_of_mem _ hb)

theorem Filled.of_getNextToRead (h : Filled P q) (ha : q.getNextToRead = some a) : P a := by
  unfold getNextToRead at ha
  split_ifs at ha with he
  cases ha
  rcases h.slots with hall | ⟨hle, hbelow⟩
  · exact hall _ h.read
  · exact hbelow _ (by omega)

/-- The reader moves on from an element that it has read. -/
theorem Filled.updateReadIndex (h : Filled P q) (ha : q.getNextToRead = some a) : Filled P (final (updateReadIndex q)) := by
  have hne : q.nextReadIndex ≠ q.nextWriteIndex := fun he => by
    rw [getNextToRead, if_pos he] at ha
    cases ha
  obtain ⟨hread, hwrite, hslots⟩ := h
  have hlt : (q.nextReadIndex + 1) % q.size < q.size := Nat.mod_lt _ (by omega)
  have hmoved : Filled P { q with nextReadIndex := (q.nextReadIndex + 1) % q.size } := by
    refine ⟨hlt, hwrite, hslots.imp_right fun ⟨hle, hbelow⟩ => ⟨?_, hbelow⟩⟩
    have hnext : (q.nextReadIndex + 1) % q.size = q.nextReadIndex + 1 := Nat.mod_eq_of_lt (by omega)
    dsimp only
    omega
  unfold LFQueue.updateReadIndex
  dsimp only
  split_ifs
  · exact ⟨hmoved.read, hmoved.write, hmoved.slots⟩
  · exact hmoved

theorem Filled.unread (h : Filled P q) (ha : a ∈ q.unread) : P a := by
  obtain ⟨k, hk, rfl⟩ := List.mem_map.mp ha
  rw [List.mem_range] at hk
  have hread := h.read
  have hwrite := h.write
  rcases h.slots with hall | ⟨hle, hbelow⟩
  · exact hall _ (Nat.mod_lt _ (by omega))
  · apply hbelow
    have hlen : (q.nextWriteIndex + q.size - q.nextReadIndex) % q.size = q.nextWriteIndex - q.nextReadIndex := by
      rw [show q.nextWriteIndex + q.size - q.nextReadIndex = q.nextWriteIndex - q.nextReadIndex + q.size by omega,
        Nat.add_mod_right, Nat.mod_eq_of_lt (by omega)]
    rw [Nat.mod_eq_of_lt (by omega)]
    omega

end Filled

end LFQueue
end TradingEcosystem
