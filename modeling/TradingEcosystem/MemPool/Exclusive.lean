import TradingEcosystem.MemPool
import TradingEcosystem.Library.Runs

/-! Runs of a pool whose clients give back what they hold: which blocks are in use, what they
hold, and how far the cursor moves. -/
namespace TradingEcosystem.MemPool
open Program Runs
variable {T : Type} {pool pool' : MemPool T} {object : T} {p n initial : Nat}

def outOfSpace : Fault := .assertFailed "Memory Pool out of space."

/-! ## The search for a free block -/

/-- From the `k`-th block behind the cursor on, with no free block before it, the loop ends at the
first free block, or at the assertion after it met all blocks. -/
private theorem loop_cases {k fuel i : Nat} (hinitial : initial < pool.size) (hk : k < pool.size) (hfuel : pool.size ≤ fuel + k)
    (hi : i = (initial + k) % pool.size) (hused : ∀ j < k, pool.Live ((initial + j) % pool.size)) :
    (∃ m < pool.size, (∀ j < m, pool.Live ((initial + j) % pool.size)) ∧ ¬ pool.Live ((initial + m) % pool.size) ∧
      pool.updateNextFreeIndexLoop initial fuel i = .ok ((initial + m) % pool.size)) ∨
    ((∀ j < pool.size, pool.Live ((initial + j) % pool.size)) ∧
      pool.updateNextFreeIndexLoop initial fuel i = .error outOfSpace) := by
  induction fuel generalizing k i with
  | zero => omega
  | succ fuel ih =>
    have hlt : i < pool.size := by
      rw [hi]
      exact Nat.mod_lt _ (by omega)
    rw [updateNextFreeIndexLoop]
    by_cases hfree : (pool.store i).isFree
    · rw [if_pos hfree]
      refine .inl ⟨k, hk, hused, ?_, by rw [hi]⟩
      simp [← hi, Live, hfree]
    · have hlive : pool.Live ((initial + k) % pool.size) := by
        rw [← hi]
        exact eq_false_of_ne_true hfree
      have hused' : ∀ j < k + 1, pool.Live ((initial + j) % pool.size) := fun j hj => by
        rcases Nat.lt_succ_iff_lt_or_eq.mp hj with hj | rfl
        · exact hused j hj
        · exact hlive
      obtain ⟨moved, hmoved⟩ : ∃ moved, moved = if i + 1 = pool.size then 0 else i + 1 := ⟨_, rfl⟩
      have hnext : moved = (initial + (k + 1)) % pool.size := by
        rw [← Nat.add_assoc, ← Nat.mod_add_mod, ← hi, hmoved]
        split_ifs with hend
        · rw [hend, Nat.mod_self]
        · exact (Nat.mod_eq_of_lt (by omega)).symm
      simp only [if_neg hfree, ← hmoved]
      by_cases hround : k + 1 = pool.size
      · have hback : initial = moved := by rw [hnext, hround, Nat.add_mod_right, Nat.mod_eq_of_lt hinitial]
        rw [if_pos hback]
        exact .inr ⟨fun j hj => hused' j (by omega), rfl⟩
      · have hahead : initial ≠ moved := fun e => by
          have hmod : initial + 0 ≡ initial + (k + 1) [MOD pool.size] := by
            rw [Nat.ModEq, ← hnext, ← e]
            exact Nat.mod_eq_of_lt hinitial
          have hzero := Nat.ModEq.eq_of_lt_of_lt (Nat.ModEq.add_left_cancel' initial hmod) (by omega) (by omega)
          omega
        rw [if_neg hahead]
        exact ih (by omega) (by omega) hnext hused'

/-- The cursor moves to the first free block from where it stands, in less than a round; where all
blocks are in use the assertion fails after one round. More turns than blocks are never made. -/
theorem updateNextFreeIndexLoop_cases {fuel : Nat} (hcursor : pool.nextFreeIndex < pool.size) (hfuel : pool.size ≤ fuel) :
    (∃ m < pool.size, (∀ j < m, pool.Live ((pool.nextFreeIndex + j) % pool.size)) ∧
      ¬ pool.Live ((pool.nextFreeIndex + m) % pool.size) ∧
      pool.updateNextFreeIndexLoop pool.nextFreeIndex fuel pool.nextFreeIndex =
        .ok ((pool.nextFreeIndex + m) % pool.size)) ∨
    ((∀ q < pool.size, pool.Live q) ∧
      pool.updateNextFreeIndexLoop pool.nextFreeIndex fuel pool.nextFreeIndex = .error outOfSpace) := by
  have hstart : pool.nextFreeIndex = (pool.nextFreeIndex + 0) % pool.size := (Nat.mod_eq_of_lt hcursor).symm
  refine (loop_cases hcursor (by omega) (by omega) hstart nofun).imp_right fun ⟨hall, hfail⟩ => ⟨fun q hq => ?_, hfail⟩
  -- the block `q` is met after as many moves as it lies behind the cursor
  have hmet := hall ((q + pool.size - pool.nextFreeIndex) % pool.size) (Nat.mod_lt _ (by omega))
  rw [Nat.add_mod_mod, show pool.nextFreeIndex + (q + pool.size - pool.nextFreeIndex) = q + pool.size by omega,
    Nat.add_mod_right, Nat.mod_eq_of_lt hq] at hmet
  exact hmet

/-! ## Allocation -/

/-- A pool of `n` blocks with its cursor on a free one. -/
structure Ready (n : Nat) (pool : MemPool T) : Prop where
  size : pool.size = n
  cursor : pool.nextFreeIndex < pool.size
  free : ¬ pool.Live pool.nextFreeIndex

theorem Ready.take (h : Ready n pool) {next : Nat} (hnext : next < pool.size) (hne : next ≠ pool.nextFreeIndex)
    (hfree : ¬ pool.Live next) : Ready n (pool.take pool.nextFreeIndex object next) := by
  refine ⟨h.size, hnext, ?_⟩
  rw [live_take, nextFreeIndex_take, not_or]
  exact ⟨hne, hfree⟩

theorem Ready.release (h : Ready n pool) (elem : Nat) : Ready n (pool.release elem) :=
  ⟨h.size, h.cursor, fun hl => h.free ((live_release ..).mp hl).2⟩

/-- An allocation takes the free block under the cursor. It returns unless that was the last one. -/
theorem allocate_cases (object : T) (h : Ready n pool) :
    (∃ next < pool.size, next ≠ pool.nextFreeIndex ∧ ¬ pool.Live next ∧
      pool.allocate object = .ok (pool.nextFreeIndex, pool.take pool.nextFreeIndex object next)) ∨
    ((∀ q < pool.size, q ≠ pool.nextFreeIndex → pool.Live q) ∧ pool.allocate object = .error outOfSpace) := by
  obtain ⟨taken, htaken⟩ : ∃ taken, taken = pool.take pool.nextFreeIndex object pool.nextFreeIndex := ⟨_, rfl⟩
  have hlive : ∀ q, taken.Live q ↔ q = pool.nextFreeIndex ∨ pool.Live q := fun q => by rw [htaken, live_take]
  have hsize : taken.size = pool.size ∧ taken.nextFreeIndex = pool.nextFreeIndex := by
    rw [htaken]
    exact ⟨rfl, rfl⟩
  have hcursor := h.cursor
  have hopen : (pool.store pool.nextFreeIndex).isFree = true := eq_true_of_ne_false h.free
  have hinside : taken.nextFreeIndex < taken.size := by omega
  have hcases := updateNextFreeIndexLoop_cases hinside le_rfl
  rw [allocate, if_pos hopen, ← htaken, updateNextFreeIndex]
  rcases hcases with ⟨m, hm, -, hstop, hloop⟩ | ⟨hall, hloop⟩
  · have hnext : (taken.nextFreeIndex + m) % taken.size < taken.size := Nat.mod_lt _ (by omega)
    generalize (taken.nextFreeIndex + m) % taken.size = next at hstop hloop hnext
    rw [hlive, not_or] at hstop
    refine .inl ⟨next, by omega, hstop.1, hstop.2, ?_⟩
    simp only [hloop, bind, Except.bind, pure, Except.pure]
    rw [htaken]
    rfl
  · refine .inr ⟨fun q hq hne => ((hlive q).mp (hall q (by omega))).resolve_left hne, ?_⟩
    simp only [hloop, bind, Except.bind]

/-- The blocks in use. -/
def inUse (pool : MemPool T) : Finset Nat := (Finset.range pool.size).filter pool.Live

theorem mem_inUse : p ∈ pool.inUse ↔ p < pool.size ∧ pool.Live p := by
  rw [inUse, Finset.mem_filter, Finset.mem_range]

/-- An allocation fails when it takes the last free block: all others are in use. -/
theorem allocate_stops_iff (object : T) (h : Ready n pool) :
    (∃ f, pool.allocate object = .error f) ↔ pool.inUse.card + 1 = n := by
  have hnew : pool.nextFreeIndex ∉ pool.inUse := fun hm => h.free (mem_inUse.mp hm).2
  have hcard : (insert pool.nextFreeIndex pool.inUse).card = pool.inUse.card + 1 := Finset.card_insert_of_notMem hnew
  have hsub : insert pool.nextFreeIndex pool.inUse ⊆ Finset.range pool.size :=
    Finset.insert_subset (Finset.mem_range.mpr h.cursor) (Finset.filter_subset _ _)
  rw [← h.size]
  rcases allocate_cases object h with ⟨next, hnext, hne, hfree', halloc⟩ | ⟨hall, halloc⟩
  · have hlt : (insert pool.nextFreeIndex pool.inUse).card < (Finset.range pool.size).card := by
      refine Finset.card_lt_card (Finset.ssubset_iff_subset_ne.mpr ⟨hsub, fun e => ?_⟩)
      have hm : next ∈ insert pool.nextFreeIndex pool.inUse := by rw [e]; exact Finset.mem_range.mpr hnext
      rcases Finset.mem_insert.mp hm with e | hm
      · exact hne e
      · exact hfree' (mem_inUse.mp hm).2
    rw [hcard, Finset.card_range] at hlt
    rw [halloc]
    exact ⟨fun ⟨_, e⟩ => (nomatch e), fun e => absurd e hlt.ne⟩
  · have hfull : insert pool.nextFreeIndex pool.inUse = Finset.range pool.size := by
      refine Finset.Subset.antisymm hsub fun q hq => ?_
      rw [Finset.mem_insert, mem_inUse]
      exact or_iff_not_imp_left.mpr fun hne => ⟨Finset.mem_range.mp hq, hall q (Finset.mem_range.mp hq) hne⟩
    rw [hfull, Finset.card_range] at hcard
    exact ⟨fun _ => hcard.symm, fun _ => ⟨_, halloc⟩⟩

/-! ## Runs -/

/-- A pool in use. `held` is proof-only: what was allocated and not given back, with the object
that it was allocated for. -/
structure Used (T : Type) where
  pool : MemPool T
  held : List (Nat × T) := []

inductive Step (T : Type) where
  | allocate (object : T)
  | deallocate (elem : Nat)

/-- The pool of `n` elements as its constructor leaves it. -/
def start [Inhabited T] (n : Nat) : Used T where
  pool := .ofSize n

def step : Step T → EStateM Fault (Used T) Unit
  | .allocate object => fun s =>
    match s.pool.allocate object with
    | .ok (p, pool) => .ok () { pool, held := s.held ++ [(p, object)] }
    | .error f => .error f s
  | .deallocate elem => fun s =>
    match s.pool.deallocate elem with
    | .ok pool => .ok () { pool, held := s.held.filter fun x => x.1 ≠ elem }
    | .error f => .error f s

/-- The used pool after the block under the cursor was taken. -/
def Used.take (s : Used T) (object : T) (next : Nat) : Used T where
  pool := s.pool.take s.pool.nextFreeIndex object next
  held := s.held ++ [(s.pool.nextFreeIndex, object)]

/-- The used pool after a block was given back. -/
def Used.release (s : Used T) (elem : Nat) : Used T where
  pool := s.pool.release elem
  held := s.held.filter fun x => x.1 ≠ elem

/-- Only what is held is given back. -/
def GivesHeld (s : Used T) : Step T → Prop
  | .allocate _ => True
  | .deallocate elem => elem ∈ s.held.map (·.1)

instance (s : Used T) (i : Step T) : Decidable (GivesHeld s i) := by
  cases i with
  | allocate object => exact inferInstanceAs (Decidable True)
  | deallocate elem => exact inferInstanceAs (Decidable (elem ∈ _))

/-- The blocks in use are those held, each once and with the object it was taken for, and the
cursor is on a free block. -/
structure Exclusive (n : Nat) (s : Used T) : Prop extends Ready n s.pool where
  live : ∀ p, s.pool.Live p ↔ p ∈ s.held.map (·.1)
  once : (s.held.map (·.1)).Nodup
  bound : ∀ p ∈ s.held.map (·.1), p < n
  contents : ∀ x ∈ s.held, s.pool.get x.1 = x.2

section Runs
variable {s s' : Used T} {is : List (Step T)} {u : Unit} {i : Step T} {elem : Nat}

theorem exclusive_start [Inhabited T] (hn : 0 < n) : Exclusive n (start n : Used T) where
  size := rfl
  cursor := hn
  free := by simp [start, ofSize, Live]
  live p := by simp [start, ofSize, Live]
  once := .nil
  bound p h := by simp [start] at h
  contents x h := by simp [start] at h

private theorem Exclusive.take (h : Exclusive n s) (object : T) {next : Nat} (hnext : next < s.pool.size)
    (hne : next ≠ s.pool.nextFreeIndex) (hfree : ¬ s.pool.Live next) : Exclusive n (s.take object next) := by
  have hnew : s.pool.nextFreeIndex ∉ s.held.map (·.1) := fun hm => h.free ((h.live _).mpr hm)
  refine ⟨h.toReady.take hnext hne hfree, fun p => ?_, ?_, fun p hp => ?_, fun x hx => ?_⟩
  · rw [Used.take, live_take, h.live, List.map_append, List.mem_append, or_comm]
    exact or_congr_right List.mem_singleton.symm
  · rw [Used.take, List.map_append, List.nodup_append]
    refine ⟨h.once, List.nodup_singleton _, fun p hp q hq e => hnew ?_⟩
    rwa [e, List.mem_singleton.mp hq] at hp
  · rw [Used.take, List.map_append, List.mem_append] at hp
    rcases hp with hp | hp
    · exact h.bound p hp
    · rw [List.mem_singleton.mp hp, ← h.size]
      exact h.cursor
  · rw [Used.take, get_take]
    rcases List.mem_append.mp hx with hx | hx
    · have hold : x.1 ≠ s.pool.nextFreeIndex := fun e => hnew (e ▸ List.mem_map_of_mem hx)
      rw [if_neg hold]
      exact h.contents x hx
    · rw [List.mem_singleton.mp hx, if_pos rfl]

private theorem Exclusive.release (h : Exclusive n s) (elem : Nat) : Exclusive n (s.release elem) := by
  have hmap : (s.release elem).held.map (·.1) = (s.held.map (·.1)).filter (· ≠ elem) := by
    rw [List.filter_map]
    rfl
  refine ⟨h.toReady.release elem, fun p => ?_, ?_, fun p hp => ?_, fun x hx => ?_⟩
  · rw [hmap, Used.release, live_release, h.live, List.mem_filter, and_comm, decide_eq_true_iff]
  · rw [hmap]
    exact h.once.filter _
  · rw [hmap] at hp
    exact h.bound p (List.mem_of_mem_filter hp)
  · rw [Used.release, get_release]
    exact h.contents x (List.mem_of_mem_filter hx)

theorem Exclusive.card_inUse (h : Exclusive n s) : s.pool.inUse.card = s.held.length := by
  have hset : s.pool.inUse = (s.held.map (·.1)).toFinset := by
    ext p
    rw [mem_inUse, h.live, List.mem_toFinset, h.size]
    exact ⟨And.right, fun hp => ⟨h.bound p hp, hp⟩⟩
  rw [hset, List.toFinset_card_of_nodup h.once, List.length_map]

/-- What a step of such a client does: an allocation hands out a block that is not held or finds
that it took the last one, and giving back always returns. -/
theorem Exclusive.cases (h : Exclusive n s) (hg : GivesHeld s i) :
    (∃ s', step i s = .ok () s' ∧ Exclusive n s' ∧ ¬ ((∃ object, i = .allocate object) ∧ s.held.length + 1 = n)) ∨
    ((∃ object, i = .allocate object) ∧ s.held.length + 1 = n ∧ step i s = .error outOfSpace s) := by
  cases i with
  | allocate object =>
    have hstops := allocate_stops_iff object h.toReady
    rw [h.card_inUse] at hstops
    rcases allocate_cases object h.toReady with ⟨next, hnext, hne, hfree, halloc⟩ | ⟨hall, halloc⟩
    · have hstep : step (.allocate object) s = .ok () (s.take object next) := by
        simp only [step, halloc, Used.take]
      refine .inl ⟨_, hstep, h.take object hnext hne hfree, fun e => ?_⟩
      obtain ⟨f, hf⟩ := hstops.mpr e.2
      rw [halloc] at hf
      cases hf
    · exact .inr ⟨⟨object, rfl⟩, hstops.mp ⟨_, halloc⟩, by simp only [step, halloc]⟩
  | deallocate elem =>
    have hlive : s.pool.Live elem := (h.live elem).mpr hg
    have hbound : elem < s.pool.size := by
      rw [h.size]
      exact h.bound elem hg
    have hfree : s.pool.deallocate elem = .ok (s.pool.release elem) := deallocate_eq_ok_iff.mpr ⟨hbound, hlive, rfl⟩
    exact .inl ⟨s.release elem, by simp only [step, hfree, Used.release], h.release elem, fun e => nomatch e.1⟩

theorem exclusive_run [Inhabited T] (hn : 0 < n) (h : Reaches step GivesHeld (start n) is s) : Exclusive n s := by
  refine h.invariant (I := fun _ s => Exclusive n s) (exclusive_start hn) fun _ s i s' hs hg hr => ?_
  rcases hs.cases hg with ⟨t, ht, hexclusive, -⟩ | ⟨-, -, ht⟩
  · rw [ht] at hr
    cases hr
    exact hexclusive
  · rw [ht] at hr
    cases hr

/-- The only step that fails is the allocation of the last free block. -/
theorem exclusive_stops [Inhabited T] (hn : 0 < n) (h : Reaches step GivesHeld (start n) is s) (hg : GivesHeld s i) :
    (∃ f s', step i s = .error f s') ↔ (∃ object, i = .allocate object) ∧ s.held.length + 1 = n := by
  rcases (exclusive_run hn h).cases hg with ⟨s', hstep, -, hroom⟩ | ⟨hi, hlen, hstep⟩
  · rw [hstep]
    exact ⟨fun ⟨_, _, e⟩ => (nomatch e), fun e => absurd e hroom⟩
  · exact ⟨fun _ => ⟨hi, hlen⟩, fun _ => ⟨_, _, hstep⟩⟩

/-- Any bound from the number of blocks on gives the loop the same end. -/
theorem updateNextFreeIndexLoop_turns {fuel : Nat} (hcursor : pool.nextFreeIndex < pool.size) (hfuel : pool.size ≤ fuel) :
    pool.updateNextFreeIndexLoop pool.nextFreeIndex fuel pool.nextFreeIndex =
      pool.updateNextFreeIndexLoop pool.nextFreeIndex pool.size pool.nextFreeIndex ∧
    pool.updateNextFreeIndexLoop pool.nextFreeIndex fuel pool.nextFreeIndex ≠ .error .diverges := by
  rcases updateNextFreeIndexLoop_cases hcursor hfuel with ⟨m, hm, hbefore, hstop, hloop⟩ | ⟨hall, hloop⟩ <;>
    rcases updateNextFreeIndexLoop_cases hcursor le_rfl with ⟨m', hm', hbefore', hstop', hloop'⟩ | ⟨hall', hloop'⟩
  · have hfirst : m = m' := le_antisymm (not_lt.mp fun hlt => hstop' (hbefore m' hlt))
      (not_lt.mp fun hlt => hstop (hbefore' m hlt))
    rw [hloop, hloop', hfirst]
    exact ⟨rfl, nofun⟩
  · exact absurd (hall' _ (Nat.mod_lt _ (by omega))) hstop
  · exact absurd (hall _ (Nat.mod_lt _ (by omega))) hstop'
  · rw [hloop, hloop']
    exact ⟨rfl, nofun⟩

/-- In a run of a pool of `n` elements the blocks in use are those allocated and not yet given
back, the cursor is on a free block of the pool, what is allocated was not in use and keeps its
object, and the search for the next free block is over after `n` turns. -/
theorem run_exclusive [Inhabited T] (hn : 0 < n) (h : Reaches step GivesHeld (start n) is s) :
    (∀ p, s.pool.Live p ↔ p ∈ s.held.map (·.1)) ∧
    (s.pool.nextFreeIndex < n ∧ ¬ s.pool.Live s.pool.nextFreeIndex) ∧
    (s.held.map (·.1)).Nodup ∧ (∀ x ∈ s.held, s.pool.get x.1 = x.2) ∧
    (∀ object p pool, s.pool.allocate object = .ok (p, pool) → p < n ∧ ¬ s.pool.Live p) ∧
    ∀ object taken, taken = s.pool.take s.pool.nextFreeIndex object s.pool.nextFreeIndex →
      ∀ fuel, n ≤ fuel → taken.updateNextFreeIndexLoop taken.nextFreeIndex fuel taken.nextFreeIndex =
        taken.updateNextFreeIndexLoop taken.nextFreeIndex n taken.nextFreeIndex ∧
      taken.updateNextFreeIndexLoop taken.nextFreeIndex fuel taken.nextFreeIndex ≠ .error .diverges := by
  have he := exclusive_run hn h
  have hcursor := he.cursor
  rw [he.size] at hcursor
  refine ⟨he.live, ⟨hcursor, he.free⟩, he.once, he.contents, ?_, ?_⟩
  · intro object p pool halloc
    obtain ⟨rfl, hfree, -⟩ := allocate_eq_ok halloc
    exact ⟨hcursor, hfree⟩
  · rintro object taken rfl fuel hfuel
    have hinside : (s.pool.take s.pool.nextFreeIndex object s.pool.nextFreeIndex).nextFreeIndex <
        (s.pool.take s.pool.nextFreeIndex object s.pool.nextFreeIndex).size := he.cursor
    have hblocks : (s.pool.take s.pool.nextFreeIndex object s.pool.nextFreeIndex).size ≤ fuel := by
      rw [size_take, he.size]
      exact hfuel
    have hturns := updateNextFreeIndexLoop_turns hinside hblocks
    rwa [size_take, he.size] at hturns

end Runs

/-- A pool of three blocks that gets its second one back while the cursor is ahead of it. -/
theorem run_exclusive_three : ∃ s : Used Nat,
    Reaches step GivesHeld (start 3) [.allocate 7, .allocate 8, .deallocate 1, .deallocate 0, .allocate 9] s ∧
      s.held = [(2, 9)] ∧ s.pool.nextFreeIndex < 3 ∧ ¬ s.pool.Live s.pool.nextFreeIndex := by
  obtain ⟨s, hrun, hheld⟩ : ∃ s : Used Nat, Reaches step GivesHeld (start 3)
      [.allocate 7, .allocate 8, .deallocate 1, .deallocate 0, .allocate 9] s ∧ s.held = [(2, 9)] :=
    exists_of_guarded (P := fun s : Used Nat => s.held = [(2, 9)]) (by decide +kernel)
  exact ⟨s, hrun, hheld, (run_exclusive (by decide) hrun).2.1⟩

end TradingEcosystem.MemPool
