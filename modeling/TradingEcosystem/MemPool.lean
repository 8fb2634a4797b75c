import TradingEcosystem.Types
import TradingEcosystem.Library.Program

/-! `mem_pool.h`: a fixed store of blocks with a cursor on a free one. A pointer
into the pool is the index of its block; freeing a block keeps its contents. -/
namespace TradingEcosystem
variable {T : Type}

structure ObjectBlock (T : Type) where
  object : T
  isFree : Bool := true

structure MemPool (T : Type) where
  size : Nat
  store : Nat → ObjectBlock T
  nextFreeIndex : Nat := 0

namespace MemPool

/-- `explicit MemPool(std::size_t num_elems)`: every block holds `T()` and is free. -/
def ofSize [Inhabited T] (numElems : Nat) : MemPool T where
  size := numElems
  store := fun _ => { object := default }

/-- The contents of a block, in use or not. -/
def get (pool : MemPool T) (p : Nat) : T := (pool.store p).object

/-- A block that was allocated and not freed since. -/
def Live (pool : MemPool T) (p : Nat) : Prop := (pool.store p).isFree = false

instance (pool : MemPool T) (p : Nat) : Decidable (pool.Live p) := inferInstanceAs (Decidable (_ = _))

/-- A write through a pointer. -/
def write (pool : MemPool T) (p : Nat) (f : T → T) : MemPool T :=
  { pool with store := Function.update pool.store p { pool.store p with object := f (pool.store p).object } }

/-- The pool after block `p` was taken for `object` and the cursor moved to `next`. -/
def take (pool : MemPool T) (p : Nat) (object : T) (next : Nat) : MemPool T where
  size := pool.size
  store := Function.update pool.store p ⟨object, false⟩
  nextFreeIndex := next

/-- The pool after block `p` was given back. -/
def release (pool : MemPool T) (p : Nat) : MemPool T :=
  { pool with store := Function.update pool.store p ⟨(pool.store p).object, true⟩ }

/-- The loop of `updateNextFreeIndex`. The fuel bounds the turns of the loop, each
of which moves the cursor once. -/
def updateNextFreeIndexLoop (pool : MemPool T) (initialFreeIndex : Nat) : Nat → Nat → Except Fault Nat
  | 0, _ => .error .diverges
  | fuel + 1, nextFreeIndex =>
    if (pool.store nextFreeIndex).isFree then .ok nextFreeIndex
    else
      let moved := if nextFreeIndex + 1 = pool.size then 0 else nextFreeIndex + 1
      if initialFreeIndex = moved then .error (.assertFailed "Memory Pool out of space.")
      else pool.updateNextFreeIndexLoop initialFreeIndex fuel moved

def updateNextFreeIndex (pool : MemPool T) : Except Fault (MemPool T) := do
  let next ← pool.updateNextFreeIndexLoop pool.nextFreeIndex pool.size pool.nextFreeIndex
  return { pool with nextFreeIndex := next }

/-- `allocate(args...)` with the object its constructor builds. -/
def allocate (pool : MemPool T) (object : T) : Except Fault (Nat × MemPool T) :=
  if (pool.store pool.nextFreeIndex).isFree then do
    let pool' ← (pool.take pool.nextFreeIndex object pool.nextFreeIndex).updateNextFreeIndex
    return (pool.nextFreeIndex, pool')
  else .error (.assertFailed ("Expected free ObjectBlock at index: " ++ toString pool.nextFreeIndex))

def deallocate (pool : MemPool T) (elem : Nat) : Except Fault (MemPool T) :=
  if pool.size ≤ elem then
    .error (.assertFailed "Element being deallocated does not belong to this Memory pool.")
  else if (pool.store elem).isFree then
    .error (.assertFailed ("Expected in-use ObjectBlock at index: " ++ toString elem))
  else .ok (pool.release elem)

section
variable (pool : MemPool T) (p q next : Nat) (object : T) (f : T → T)

theorem get_write : (pool.write p f).get q = if q = p then f (pool.get p) else pool.get q := by
  simp only [get, write, Function.update_apply]; split <;> simp_all

@[simp] theorem live_write : (pool.write p f).Live q ↔ pool.Live q := by
  simp only [Live, write, Function.update_apply]; split <;> simp_all

theorem get_take : (pool.take p object next).get q = if q = p then object else pool.get q := by
  simp only [get, take, Function.update_apply]; split <;> simp_all

theorem live_take : (pool.take p object next).Live q ↔ q = p ∨ pool.Live q := by
  simp only [Live, take, Function.update_apply]; split <;> simp_all

@[simp] theorem get_release : (pool.release p).get q = pool.get q := by
  simp only [get, release, Function.update_apply]; split <;> simp_all

theorem live_release : (pool.release p).Live q ↔ q ≠ p ∧ pool.Live q := by
  simp only [Live, release, Function.update_apply]; split <;> simp_all

@[simp] theorem size_write : (pool.write p f).size = pool.size := rfl
@[simp] theorem size_take : (pool.take p object next).size = pool.size := rfl
@[simp] theorem size_release : (pool.release p).size = pool.size := rfl
@[simp] theorem nextFreeIndex_write : (pool.write p f).nextFreeIndex = pool.nextFreeIndex := rfl
@[simp] theorem nextFreeIndex_take : (pool.take p object next).nextFreeIndex = next := rfl
@[simp] theorem nextFreeIndex_release : (pool.release p).nextFreeIndex = pool.nextFreeIndex := rfl

end

private theorem loop_lt {pool : MemPool T} {initial fuel i j : Nat}
    (h : pool.updateNextFreeIndexLoop initial fuel i = .ok j) (hi : i < pool.size) : j < pool.size := by
  induction fuel generalizing i with
  | zero => cases h
  | succ fuel ih =>
    rw [updateNextFreeIndexLoop] at h
    by_cases hf : (pool.store i).isFree
    · rw [if_pos hf] at h; cases h; exact hi
    · simp only [if_neg hf] at h
      generalize hm : (if i + 1 = pool.size then 0 else i + 1) = moved at h
      have hlt : moved < pool.size := by subst hm; split <;> omega
      by_cases he : initial = moved
      · rw [if_pos he] at h; cases h
      · rw [if_neg he] at h; exact ih h hlt

/-- What a successful allocation does: the block under the cursor was free and is
taken, and the cursor stays inside the pool. -/
theorem allocate_eq_ok {pool pool' : MemPool T} {object : T} {p : Nat}
    (h : pool.allocate object = .ok (p, pool')) :
    p = pool.nextFreeIndex ∧ ¬ pool.Live p ∧ ∃ next, pool' = pool.take p object next ∧
      (pool.nextFreeIndex < pool.size → next < pool.size) := by
  unfold allocate at h
  split at h
  next hf =>
    simp only [updateNextFreeIndex, bind, Except.bind, pure, Except.pure] at h
    split at h
    · cases h
    · rename_i hl
      split at hl
      · cases hl
      · rename_i next hn
        cases hl; cases h
        have hlt := loop_lt hn
        exact ⟨rfl, by simp [Live, hf], next, rfl, hlt⟩
  next => cases h

private theorem loop_error {pool : MemPool T} {initial fuel i : Nat} {f : Fault}
    (h : pool.updateNextFreeIndexLoop initial fuel i = .error f) : f.OfHeap := by
  induction fuel generalizing i with
  | zero =>
    cases h
    trivial
  | succ fuel ih =>
    rw [updateNextFreeIndexLoop] at h
    by_cases hf : (pool.store i).isFree
    · rw [if_pos hf] at h
      cases h
    · simp only [if_neg hf] at h
      generalize (if i + 1 = pool.size then 0 else i + 1) = moved at h
      by_cases he : initial = moved
      · rw [if_pos he] at h
        cases h
        trivial
      · rw [if_neg he] at h
        exact ih h

theorem allocate_error {pool : MemPool T} {object : T} {f : Fault} (h : pool.allocate object = .error f) : f.OfHeap := by
  unfold allocate at h
  split at h
  · simp only [updateNextFreeIndex, bind, Except.bind, pure, Except.pure] at h
    split at h
    · rename_i hl
      split at hl
      · rename_i hloop
        cases hl
        cases h
        exact loop_error hloop
      · cases hl
    · cases h
  · cases h
    trivial

theorem deallocate_error {pool : MemPool T} {p : Nat} {f : Fault} (h : pool.deallocate p = .error f) : f.OfHeap := by
  unfold deallocate at h
  split_ifs at h <;> cases h <;> trivial

/-- With two free blocks ahead an allocation takes the first one. -/
theorem allocate_of_free {pool : MemPool T} (object : T) (hfree : ¬ pool.Live pool.nextFreeIndex)
    (hnext : ¬ pool.Live (pool.nextFreeIndex + 1)) (hroom : pool.nextFreeIndex + 1 < pool.size) :
    pool.allocate object = .ok (pool.nextFreeIndex,
      pool.take pool.nextFreeIndex object (pool.nextFreeIndex + 1)) := by
  obtain ⟨k, hk⟩ : ∃ k, pool.size = k + 2 := ⟨pool.size - 2, by omega⟩
  have hf : (pool.store pool.nextFreeIndex).isFree = true := by simpa [Live] using hfree
  have hn : (pool.store (pool.nextFreeIndex + 1)).isFree = true := by simpa [Live] using hnext
  generalize htake : pool.take pool.nextFreeIndex object pool.nextFreeIndex = taken
  have hcur : (taken.store pool.nextFreeIndex).isFree = false := by simp [← htake, take]
  have hahead : (taken.store (pool.nextFreeIndex + 1)).isFree = true := by simp [← htake, take, hn]
  have hloop : taken.updateNextFreeIndexLoop taken.nextFreeIndex taken.size taken.nextFreeIndex =
      .ok (pool.nextFreeIndex + 1) := by
    rw [show taken.nextFreeIndex = pool.nextFreeIndex by rw [← htake]; rfl,
      show taken.size = k + 2 by rw [← htake]; exact hk]
    rw [updateNextFreeIndexLoop, hcur, if_neg Bool.false_ne_true]
    have hsize : pool.nextFreeIndex + 1 ≠ taken.size := by rw [← htake]; exact hroom.ne
    simp only [if_neg hsize]
    rw [if_neg (by omega), updateNextFreeIndexLoop, if_pos hahead]
  rw [allocate, if_pos hf]
  simp only [htake, updateNextFreeIndex, hloop, bind, Except.bind, pure, Except.pure]
  rw [← htake]
  rfl

theorem deallocate_eq_ok_iff {pool pool' : MemPool T} {p : Nat} :
    pool.deallocate p = .ok pool' ↔ p < pool.size ∧ pool.Live p ∧ pool' = pool.release p := by
  unfold deallocate Live
  by_cases hs : pool.size ≤ p
  · rw [if_pos hs]
    constructor
    · intro h; cases h
    · intro h; omega
  · rw [if_neg hs]
    cases hf : (pool.store p).isFree
    · simpa [release, Nat.lt_of_not_le hs] using eq_comm
    · simp

end MemPool
end TradingEcosystem
