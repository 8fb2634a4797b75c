import Mathlib.Data.List.Chain
import Mathlib.Logic.Relation
import Mathlib.Tactic

/-! Circular doubly linked lists over arbitrary nodes. The two link fields are
functions to possibly null nodes; a ring is the list of its nodes from the head. -/
namespace TradingEcosystem.LinkedRing
variable {α : Type} {next prev next' prev' : α → Option α} {loose : Prop} {l l₁ l₂ : List α} {a b o : α}

/-- Two neighbours point at each other. -/
def Linked (next prev : α → Option α) (a b : α) : Prop := next a = some b ∧ prev b = some a

/-- The nodes of `l`, in order, form a ring. A loose ring may lack the one pointer
from a last node back to a different head; its backward pointers are complete. -/
structure Ring (loose : Prop) (next prev : α → Option α) (l : List α) : Prop where
  path : l.IsChain (Linked next prev)
  back : ∀ h ∈ l.head?, ∀ t ∈ l.getLast?, prev h = some t
  front : ∀ h ∈ l.head?, ∀ t ∈ l.getLast?, next t = some h ∨ (loose ∧ next t = none ∧ t ≠ h)

instance [DecidableEq α] (a b : α) : Decidable (Linked next prev a b) := inferInstanceAs (Decidable (_ ∧ _))

instance [DecidableEq α] [Decidable loose] (l : List α) : Decidable (Ring loose next prev l) :=
  decidable_of_iff (_ ∧ _ ∧ _) ⟨fun h => ⟨h.1, h.2.1, h.2.2⟩, fun h => ⟨h.path, h.back, h.front⟩⟩

theorem Ring.nil : Ring loose next prev [] := ⟨.nil, by simp, by simp⟩

theorem Ring.singleton_iff : Ring loose next prev [a] ↔ next a = some a ∧ prev a = some a := by
  constructor
  · intro h
    have hf := h.front a (by simp) a (by simp)
    exact ⟨by simpa using hf, h.back a (by simp) a (by simp)⟩
  · rintro ⟨hn, hp⟩
    exact ⟨.singleton a, by simpa using hp, by simpa using hn⟩

/-- A path only reads the forward pointers of all nodes but the last and the
backward pointers of all nodes but the first. -/
theorem path_congr (h : l.IsChain (Linked next prev))
    (hn : ∀ a ∈ l.dropLast, next' a = next a) (hp : ∀ b ∈ l.tail, prev' b = prev b) :
    l.IsChain (Linked next' prev') := by
  induction l with
  | nil => exact .nil
  | cons a l ih =>
    cases l with
    | nil => exact .singleton a
    | cons b l =>
      rw [List.isChain_cons_cons] at h ⊢
      refine ⟨⟨?_, ?_⟩, ih h.2 ?_ ?_⟩
      · rw [hn a (by simp), h.1.1]
      · rw [hp b (by simp), h.1.2]
      · intro x hx
        exact hn x (by simp [List.dropLast_cons_of_ne_nil, hx])
      · intro x hx
        exact hp x (by simp only [List.tail_cons] at hx ⊢; exact List.mem_cons_of_mem _ hx)

theorem Ring.congr (h : Ring loose next prev l) (hn : ∀ a ∈ l, next' a = next a)
    (hp : ∀ a ∈ l, prev' a = prev a) : Ring loose next' prev' l where
  path := path_congr h.path (fun a ha => hn a (List.mem_of_mem_dropLast ha))
    (fun b hb => hp b (List.mem_of_mem_tail hb))
  back a ha t ht := by rw [hp a (List.mem_of_mem_head? ha)]; exact h.back a ha t ht
  front a ha t ht := by rw [hn t (List.mem_of_getLast? ht)]; exact h.front a ha t ht

/-- The node after `a` inside the list. -/
theorem Ring.next_eq (h : Ring loose next prev (l₁ ++ a :: b :: l₂)) : next a = some b :=
  (List.isChain_cons_cons.mp (List.isChain_append.mp h.path).2.1).1.1

theorem Ring.prev_eq (h : Ring loose next prev (l₁ ++ a :: b :: l₂)) : prev b = some a :=
  (List.isChain_cons_cons.mp (List.isChain_append.mp h.path).2.1).1.2

/-- The backward pointer of any node: to the node before it, around the ring. -/
theorem Ring.prev_of_split (h : Ring loose next prev (l₁ ++ o :: l₂)) : prev o = (o :: (l₂ ++ l₁)).getLast? := by
  rcases l₁.eq_nil_or_concat' with rfl | ⟨k, a, rfl⟩
  · rw [List.append_nil]
    obtain ⟨t, ht⟩ : ∃ t, (o :: l₂).getLast? = some t := ⟨_, List.getLast?_cons⟩
    rw [ht]
    exact h.back o rfl t ht
  · rw [List.append_assoc, List.singleton_append] at h
    rw [h.prev_eq, ← List.append_assoc, ← List.cons_append, List.getLast?_concat]

/-- The forward pointer of any node, except where a loose ring lacks it. -/
theorem Ring.next_of_split (h : Ring loose next prev (l₁ ++ o :: l₂)) :
    next o = (l₂ ++ (l₁ ++ [o])).head? ∨ (loose ∧ next o = none ∧ l₂ = [] ∧ l₁ ≠ []) := by
  cases l₂ with
  | cons b l₂ => exact .inl h.next_eq
  | nil =>
    obtain ⟨a, ha⟩ : ∃ a, (l₁ ++ [o]).head? = some a := by cases l₁ <;> simp
    refine (h.front a ha o List.getLast?_concat).imp (fun e => by rw [e, List.nil_append, ha]) ?_
    rintro ⟨hl, hn, hne⟩
    refine ⟨hl, hn, rfl, fun e => hne ?_⟩
    subst e
    exact Option.some.inj ha

/-- The links of a node lead to nodes of the ring. -/
theorem Ring.links_mem (h : Ring False next prev l) (ha : a ∈ l) :
    (∃ c ∈ l, prev a = some c) ∧ ∃ c ∈ l, next a = some c := by
  obtain ⟨l₁, l₂, rfl⟩ := List.append_of_mem ha
  constructor
  · obtain ⟨c, hc⟩ : ∃ c, (a :: (l₂ ++ l₁)).getLast? = some c := ⟨_, List.getLast?_cons⟩
    refine ⟨c, ?_, h.prev_of_split.trans hc⟩
    have hmem := List.mem_of_getLast? hc
    simp only [List.mem_cons, List.mem_append] at hmem ⊢
    tauto
  · obtain ⟨c, hc⟩ : ∃ c, (l₂ ++ (l₁ ++ [a])).head? = some c := by cases l₂ <;> cases l₁ <;> simp
    refine ⟨c, ?_, (h.next_of_split.resolve_right fun e => e.1).trans hc⟩
    have hmem := List.mem_of_mem_head? hc
    simp only [List.mem_cons, List.mem_append] at hmem ⊢
    tauto

/-- A node that is not alone lies between two others, unless a loose ring ends at it. -/
theorem Ring.neighbours (h : Ring loose next prev (l₁ ++ o :: l₂)) (hne : l₁ ++ l₂ ≠ []) :
    ∃ a ∈ l₁ ++ l₂, prev o = some a ∧
      ((∃ c ∈ l₁ ++ l₂, next o = some c) ∨ (loose ∧ next o = none ∧ l₂ = [])) := by
  have hrest : l₂ ++ l₁ ≠ [] := fun e => hne (by simpa [and_comm] using e)
  have hmem : ∀ x ∈ l₂ ++ l₁, x ∈ l₁ ++ l₂ := fun x hx => by
    rw [List.mem_append] at hx ⊢
    exact hx.symm
  obtain ⟨m, a, ha⟩ := (List.eq_nil_or_concat' (l₂ ++ l₁)).resolve_left hrest
  obtain ⟨c, n, hc⟩ := List.exists_cons_of_ne_nil hrest
  refine ⟨a, hmem a (by simp [ha]), by rw [h.prev_of_split, ha, ← List.cons_append, List.getLast?_concat], ?_⟩
  rcases h.next_of_split with hn | ⟨hl, hn, hl₂, -⟩
  · rw [← List.append_assoc, hc] at hn
    exact .inl ⟨c, hmem c (by simp [hc]), hn⟩
  · exact .inr ⟨hl, hn, hl₂⟩

/-- A node is its own predecessor if and only if it is alone. -/
theorem Ring.prev_self_iff (h : Ring loose next prev l) (hd : l.Nodup) (ha : a ∈ l) :
    prev a = some a ↔ l = [a] := by
  obtain ⟨l₁, l₂, rfl⟩ := List.append_of_mem ha
  rw [h.prev_of_split]
  have hp : (l₁ ++ a :: l₂).Perm (a :: (l₂ ++ l₁)) := by
    simpa using @List.perm_append_comm _ l₁ (a :: l₂)
  have hd := hp.nodup_iff.mp hd
  constructor
  · intro hl
    rcases List.eq_nil_or_concat' (l₂ ++ l₁) with he | ⟨m, c, he⟩
    · obtain ⟨rfl, rfl⟩ := List.append_eq_nil_iff.mp he
      rfl
    · rw [he, ← List.cons_append, List.getLast?_concat] at hl
      rw [he, Option.some.inj hl] at hd
      simp at hd
  · intro he
    rw [he] at hp
    rw [← List.singleton_perm.mp hp]
    rfl

private theorem not_mem_dropLast {t : α} (hd : l.Nodup) (ht : l.getLast? = some t) : t ∉ l.dropLast := by
  obtain ⟨m, rfl⟩ := List.getLast?_eq_some_iff.mp ht
  simpa using (List.nodup_append.mp hd).2.2 t

private theorem not_mem_tail {h : α} (hd : l.Nodup) (hh : l.head? = some h) : h ∉ l.tail := by
  obtain ⟨m, rfl⟩ := List.head?_eq_some_iff.mp hh
  exact (List.nodup_cons.mp hd).1

/-- The edits below leave the pointers inside a list alone, except the last node's
forward and the first node's backward pointer. -/
private theorem inner_path {h t : α} (hl : l.IsChain (Linked next prev)) (hd : l.Nodup)
    (hh : l.head? = some h) (ht : l.getLast? = some t)
    (hn : ∀ x ∈ l, x ≠ t → next' x = next x) (hp : ∀ x ∈ l, x ≠ h → prev' x = prev x) :
    l.IsChain (Linked next' prev') := by
  refine path_congr hl (fun x hx => ?_) (fun x hx => ?_)
  · exact hn x (List.mem_of_mem_dropLast hx) (fun e => not_mem_dropLast hd ht (e ▸ hx))
  · exact hp x (List.mem_of_mem_tail hx) (fun e => not_mem_tail hd hh (e ▸ hx))

section Edits
variable {h t : α} (hr : Ring loose next prev l) (hd : l.Nodup) (hh : l.head? = some h)
  (ht : l.getLast? = some t) (hto : next' t = some o) (hot : prev' o = some t) (hho : prev' h = some o)
  (hn : ∀ x ∈ l, x ≠ t → next' x = next x) (hp : ∀ x ∈ l, x ≠ h → prev' x = prev x)
include hr hd hh ht hto hot hho hn hp

/-- Linking a new node in between the last node and the head makes it the new head... -/
theorem Ring.push_front (hoh : next' o = some h) : Ring loose next' prev' (o :: l) := by
  have hl := inner_path hr.path hd hh ht hn hp
  obtain ⟨m, rfl⟩ := List.head?_eq_some_iff.mp hh
  refine ⟨List.isChain_cons_cons.mpr ⟨⟨hoh, hho⟩, hl⟩, ?_, ?_⟩
  · rw [List.getLast?_cons_cons, ht]; simpa using hot
  · rw [List.getLast?_cons_cons, ht]; simpa using Or.inl hto

/-- ... or the new last node; there a loose ring may miss its forward pointer. -/
theorem Ring.push_back (hne : o ≠ h) (hoh : next' o = some h ∨ (loose ∧ next' o = none)) :
    Ring loose next' prev' (l ++ [o]) := by
  have hl := inner_path hr.path hd hh ht hn hp
  have hh' : (l ++ [o]).head? = some h := by rw [List.head?_append, hh]; rfl
  refine ⟨List.isChain_append.mpr ⟨hl, .singleton o, ?_⟩, ?_, ?_⟩
  · rw [ht]; simpa [Linked] using ⟨hto, hot⟩
  · rw [hh', List.getLast?_concat]; simpa using hho
  · rw [hh', List.getLast?_concat]
    simpa using hoh.imp_right fun ⟨x, y⟩ => ⟨x, y, hne⟩

end Edits

/-- A ring cut in two: both halves are paths, linked at the seam and at the closing. -/
theorem Ring.append_iff {h t : α} (hh : l₁.head? = some h) (ha : l₁.getLast? = some a)
    (hb : l₂.head? = some b) (ht : l₂.getLast? = some t) :
    Ring loose next prev (l₁ ++ l₂) ↔
      l₁.IsChain (Linked next prev) ∧ l₂.IsChain (Linked next prev) ∧ Linked next prev a b ∧
        prev h = some t ∧ (next t = some h ∨ (loose ∧ next t = none ∧ t ≠ h)) := by
  have hh' : (l₁ ++ l₂).head? = some h := by rw [List.head?_append, hh]; rfl
  have ht' : (l₁ ++ l₂).getLast? = some t := by rw [List.getLast?_append, ht]; rfl
  constructor
  · intro hr
    obtain ⟨h₁, h₂, hs⟩ := List.isChain_append.mp hr.path
    exact ⟨h₁, h₂, hs a ha b hb, hr.back h hh' t ht', hr.front h hh' t ht'⟩
  · rintro ⟨h₁, h₂, hs, hbk, hfr⟩
    refine ⟨List.isChain_append.mpr ⟨h₁, h₂, ?_⟩, ?_, ?_⟩
    · rw [ha, hb]; simpa using hs
    · rw [hh', ht']; simpa using hbk
    · rw [hh', ht']; simpa using hfr

/-- Linking a new node in between two inner neighbours. -/
theorem Ring.insert (hr : Ring loose next prev (l₁ ++ l₂)) (hd : (l₁ ++ l₂).Nodup)
    (ha : l₁.getLast? = some a) (hb : l₂.head? = some b)
    (hao : next' a = some o) (hoa : prev' o = some a) (hob : next' o = some b) (hbo : prev' b = some o)
    (hn : ∀ x ∈ l₁ ++ l₂, x ≠ a → next' x = next x) (hp : ∀ x ∈ l₁ ++ l₂, x ≠ b → prev' x = prev x) :
    Ring loose next' prev' (l₁ ++ o :: l₂) := by
  obtain ⟨d₁, d₂, hdis⟩ := List.nodup_append.mp hd
  obtain ⟨m, rfl⟩ := List.head?_eq_some_iff.mp hb
  obtain ⟨k, rfl⟩ := List.getLast?_eq_some_iff.mp ha
  obtain ⟨h, hh⟩ : ∃ h, (k ++ [a]).head? = some h := by cases k <;> simp
  obtain ⟨t, ht⟩ : ∃ t, (b :: m).getLast? = some t := ⟨_, List.getLast?_cons⟩
  have hht : h ∈ k ++ [a] ∧ t ∈ b :: m := ⟨List.mem_of_mem_head? hh, List.mem_of_getLast? ht⟩
  rw [Ring.append_iff hh ha hb ht] at hr
  have ho : (o :: b :: m).getLast? = some t := by rw [List.getLast?_cons_cons, ht]
  rw [Ring.append_iff hh ha (by rfl) ho]
  obtain ⟨h₁, h₂, -, hbk, hfr⟩ := hr
  refine ⟨?_, List.isChain_cons_cons.mpr ⟨⟨hob, hbo⟩, ?_⟩, ⟨hao, hoa⟩, ?_, ?_⟩
  · exact inner_path h₁ d₁ hh ha (fun x hx => hn x (List.mem_append_left _ hx))
      (fun x hx _ => hp x (List.mem_append_left _ hx) (hdis x hx b (by simp)))
  · exact inner_path h₂ d₂ hb ht
      (fun x hx _ => hn x (List.mem_append_right _ hx) (hdis a (by simp) x hx).symm)
      (fun x hx => hp x (List.mem_append_right _ hx))
  · rw [hp h (List.mem_append_left _ hht.1) (hdis h hht.1 b (by simp)), hbk]
  · rw [hn t (List.mem_append_right _ hht.2) (hdis a (by simp) t hht.2).symm]
    exact hfr

/-- Linking a new node in before any node, the head included. -/
theorem Ring.insert_before [DecidableEq α] (hr : Ring loose next prev (l₁ ++ b :: l₂)) (hd : (l₁ ++ b :: l₂).Nodup)
    (ho : o ∉ l₁ ++ b :: l₂) (ha : prev b = some a)
    (hn : ∀ x, next' x = if x = o then some b else if x = a then some o else next x)
    (hp : ∀ x, prev' x = if x = o then some a else if x = b then some o else prev x) :
    Ring loose next' prev' (l₁ ++ o :: b :: l₂) := by
  have hlast : (b :: (l₂ ++ l₁)).getLast? = some a := hr.prev_of_split.symm.trans ha
  have hbo : b ≠ o := ne_of_mem_of_not_mem (by simp) ho
  have ham : a ∈ l₁ ++ b :: l₂ := by
    have hm := List.mem_of_getLast? hlast
    simp only [List.mem_cons, List.mem_append] at hm ⊢
    tauto
  have hao : a ≠ o := ne_of_mem_of_not_mem ham ho
  have hna : next' a = some o := by rw [hn, if_neg hao, if_pos rfl]
  have hno : next' o = some b := by rw [hn, if_pos rfl]
  have hpo : prev' o = some a := by rw [hp, if_pos rfl]
  have hpb : prev' b = some o := by rw [hp, if_neg hbo, if_pos rfl]
  have hnx : ∀ x ∈ l₁ ++ b :: l₂, x ≠ a → next' x = next x := fun x hx hxa => by
    rw [hn, if_neg (ne_of_mem_of_not_mem hx ho), if_neg hxa]
  have hpx : ∀ x ∈ l₁ ++ b :: l₂, x ≠ b → prev' x = prev x := fun x hx hxb => by
    rw [hp, if_neg (ne_of_mem_of_not_mem hx ho), if_neg hxb]
  cases l₁ with
  | nil =>
    rw [List.append_nil] at hlast
    exact hr.push_front hd rfl hlast hna hpo hpb hnx hpx hno
  | cons k l₁ =>
    have hlast' : (k :: l₁).getLast? = some a := by
      rw [← hlast, ← List.cons_append, List.getLast?_append, List.getLast?_cons, Option.some_or]
    exact hr.insert hd hlast' rfl hna hpo hno hpb hnx hpx

/-- A node between those in front of it and the rest keeps a list in order. -/
theorem pairwise_insert {R : α → α → Prop} [IsTrans α R] (h : (l₁ ++ b :: l₂).Pairwise R) (hl₁ : ∀ x ∈ l₁, R x o) (hob : R o b) :
    (l₁ ++ o :: b :: l₂).Pairwise R := by
  obtain ⟨h₁, h₂, h₁₂⟩ := List.pairwise_append.mp h
  have hb := List.pairwise_cons.mp h₂
  refine List.pairwise_append.mpr ⟨h₁, List.pairwise_cons.mpr ⟨fun y hy => ?_, h₂⟩, fun x hx y hy => ?_⟩
  · rcases List.mem_cons.mp hy with rfl | hy
    · exact hob
    · exact trans_of R hob (hb.1 y hy)
  · rcases List.mem_cons.mp hy with rfl | hy
    · exact hl₁ x hx
    · exact h₁₂ x hx y hy

/-- Unlinking a node that is not alone: its two neighbours are linked directly. -/
theorem Ring.remove {p n : α} (hr : Ring loose next prev (l₁ ++ o :: l₂)) (hd : (l₁ ++ o :: l₂).Nodup)
    (hne : l₁ ++ l₂ ≠ []) (hop : prev o = some p) (hon : next o = some n)
    (hpn : next' p = some n) (hnp : prev' n = some p)
    (hn : ∀ x ∈ l₁ ++ l₂, x ≠ p → next' x = next x) (hp : ∀ x ∈ l₁ ++ l₂, x ≠ n → prev' x = prev x) :
    Ring loose next' prev' (l₁ ++ l₂) := by
  obtain ⟨d₁, d₂, hdis⟩ := List.nodup_append.mp hd
  obtain ⟨ho₂, d₂⟩ := List.nodup_cons.mp d₂
  rcases l₁.eq_nil_or_concat' with rfl | ⟨k, a, rfl⟩
  · -- the head leaves: the last node's forward pointer comes to the second node
    obtain ⟨b, hb⟩ : ∃ b, l₂.head? = some b := by cases l₂ <;> simp_all
    obtain ⟨t, ht⟩ : ∃ t, l₂.getLast? = some t := by cases l₂ <;> simp_all [List.getLast?_cons]
    simp only [List.nil_append] at *
    have hr' : Ring loose next prev ([o] ++ l₂) := hr
    obtain ⟨-, h₂, hs, hbk, -⟩ := (Ring.append_iff (by rfl) (by rfl) hb ht).mp hr'
    obtain rfl : n = b := Option.some.inj (hon.symm.trans hs.1)
    obtain rfl : p = t := Option.some.inj (hop.symm.trans hbk)
    exact ⟨inner_path h₂ d₂ hb ht hn hp, by rw [hb, ht]; simpa using hnp, by rw [hb, ht]; simpa using Or.inl hpn⟩
  · obtain ⟨h, hh⟩ : ∃ h, (k ++ [a]).head? = some h := by cases k <;> simp
    have ha : (k ++ [a]).getLast? = some a := by simp
    have hhm := List.mem_of_mem_head? hh
    rcases l₂ with _ | ⟨b, m⟩
    · have ho : [o].getLast? = some o := rfl
      obtain ⟨h₁, -, hs, -, hfr⟩ := (Ring.append_iff hh ha (by rfl) ho).mp hr
      obtain rfl : p = a := Option.some.inj (hop.symm.trans hs.2)
      obtain rfl : n = h := by
        rcases hfr with e | ⟨-, e, -⟩
        · exact Option.some.inj (hon.symm.trans e)
        · rw [hon] at e; cases e
      simp only [List.append_nil] at *
      exact ⟨inner_path h₁ d₁ hh ha hn hp, by rw [hh, ha]; simpa using hnp, by rw [hh, ha]; simpa using Or.inl hpn⟩
    · obtain ⟨t, ht⟩ : ∃ t, (b :: m).getLast? = some t := ⟨_, List.getLast?_cons⟩
      have htm := List.mem_of_getLast? ht
      have ho : (o :: b :: m).getLast? = some t := by rw [List.getLast?_cons_cons, ht]
      obtain ⟨h₁, h₂, hs, hbk, hfr⟩ := (Ring.append_iff hh ha (by rfl) ho).mp hr
      obtain ⟨hs', h₂⟩ := List.isChain_cons_cons.mp h₂
      obtain rfl : p = a := Option.some.inj (hop.symm.trans hs.2)
      obtain rfl : n = b := Option.some.inj (hon.symm.trans hs'.1)
      have hdis' : ∀ x ∈ k ++ [p], ∀ y ∈ n :: m, x ≠ y := fun x hx y hy => hdis x hx y (List.mem_cons_of_mem _ hy)
      rw [Ring.append_iff hh ha (by rfl) ht]
      refine ⟨?_, ?_, ⟨hpn, hnp⟩, ?_, ?_⟩
      · exact inner_path h₁ d₁ hh ha (fun x hx => hn x (List.mem_append_left _ hx))
          (fun x hx _ => hp x (List.mem_append_left _ hx) (hdis' x hx n (by simp)))
      · exact inner_path h₂ d₂ (by rfl) ht
          (fun x hx _ => hn x (List.mem_append_right _ hx) (hdis' p (by simp) x hx).symm)
          (fun x hx => hp x (List.mem_append_right _ hx))
      · rw [hp h (List.mem_append_left _ hhm) (hdis' h hhm n (by simp)), hbk]
      · rw [hn t (List.mem_append_right _ htm) (hdis' p (by simp) t htm).symm]
        exact hfr

private theorem path_reach {h x : α} (hl : (h :: l).IsChain (Linked next prev)) (hx : x ∈ h :: l) :
    Relation.ReflTransGen (fun a b => next a = some b) h x := by
  induction l generalizing h with
  | nil => obtain rfl := List.mem_singleton.mp hx; exact .refl
  | cons b l ih =>
    obtain ⟨hs, hl⟩ := List.isChain_cons_cons.mp hl
    rcases List.mem_cons.mp hx with rfl | hx
    · exact .refl
    · exact .head hs.1 (ih hl hx)

/-- Following the forward pointers from the head meets exactly the nodes of the ring. -/
theorem Ring.reach_iff {h x : α} (hr : Ring False next prev l) (hh : l.head? = some h) :
    Relation.ReflTransGen (fun a b => next a = some b) h x ↔ x ∈ l := by
  obtain ⟨m, rfl⟩ := List.head?_eq_some_iff.mp hh
  constructor
  · intro hx
    induction hx with
    | refl => simp
    | tail _ hab ih =>
      obtain ⟨l₁, l₂, he⟩ := List.append_of_mem ih
      rw [he] at hr ⊢
      rcases l₂ with _ | ⟨c, l₂⟩
      · have hf := hr.front h (by rw [← he]; rfl) _ (List.getLast?_concat)
        obtain rfl := Option.some.inj (hab.symm.trans (hf.resolve_right (fun e => e.1)))
        rw [← he]; simp
      · obtain rfl := Option.some.inj (hab.symm.trans hr.next_eq)
        simp
  · intro hx
    exact path_reach hr.path hx

/-- The nodes met from `a` on along `next`, up to a null pointer or back to `start`. -/
def walkFrom [DecidableEq α] (next : α → Option α) (start : α) : Nat → α → List α
  | 0, _ => []
  | fuel + 1, a => a :: match next a with
    | none => []
    | some b => if b = start then [] else walkFrom next start fuel b

/-- Different numbers below `n` are at most `n` many. -/
theorem length_le_of_lt {m : List Nat} {n : Nat} (hd : m.Nodup) (hlt : ∀ x ∈ m, x < n) : m.length ≤ n := by
  have hsub : m.Subperm (List.range n) := hd.subperm fun x hx => List.mem_range.mpr (hlt x hx)
  simpa using hsub.length_le

/-- Behind the first node there is none that is the head. -/
theorem ne_head_of_split {h : α} (hd : (l₁ ++ a :: b :: l₂).Nodup) (hh : (l₁ ++ a :: b :: l₂).head? = some h) : b ≠ h := by
  have hb : b ∈ (l₁ ++ a :: b :: l₂).tail := by cases l₁ <;> simp
  exact fun e => not_mem_tail hd hh (e ▸ hb)

/-- A walk around a ring, loose or not, meets its nodes in order. -/
theorem Ring.walk_eq [DecidableEq α] {h : α} {fuel : Nat} (hr : Ring loose next prev l) (hd : l.Nodup)
    (hh : l.head? = some h) (hlen : l.length ≤ fuel) : walkFrom next h fuel h = l := by
  suffices hsuf : ∀ (l₂ : List α) (a : α) (l₁ : List α) (fuel : Nat), l = l₁ ++ a :: l₂ → (a :: l₂).length ≤ fuel →
      walkFrom next h fuel a = a :: l₂ by
    obtain ⟨m, rfl⟩ := List.head?_eq_some_iff.mp hh
    exact hsuf m h [] fuel rfl hlen
  intro l₂
  induction l₂ with
  | nil =>
    rintro a l₁ (_ | fuel) hl hf
    · simp at hf
    · have hlast := hr.front h hh a (by rw [hl]; exact List.getLast?_concat)
      rcases hlast with hn | ⟨-, hn, -⟩
      · simp [walkFrom, hn]
      · simp [walkFrom, hn]
  | cons b l₂ ih =>
    rintro a l₁ (_ | fuel) hl hf
    · simp at hf
    · have hnext : next a = some b := by rw [hl] at hr; exact hr.next_eq
      have hbh : b ≠ h := by
        rw [hl] at hd hh
        exact ne_head_of_split hd hh
      have hrest := ih b (l₁ ++ [a]) fuel (by rw [hl]; simp) (by simpa using hf)
      simp only [walkFrom, hnext, if_neg hbh, hrest]

end TradingEcosystem.LinkedRing
