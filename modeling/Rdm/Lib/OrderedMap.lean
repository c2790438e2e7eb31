import Mathlib.Data.Set.Card
import Mathlib.Order.Bounds.Basic

/-!
# Ordered maps and sorted lists

A finite map with ordered keys as a partial function. `Lists M l`: the sorted list `l` holds the entries of `M`, and
answers for it.
-/

namespace OrderedMap

variable {κ β : Type}

abbrev Map (κ β : Type) := κ → Option β

def empty : Map κ β := fun _ => none

open Classical in
noncomputable def put (M : Map κ β) (k : κ) (v : β) : Map κ β := Function.update M k (some v)

open Classical in
noncomputable def erase (M : Map κ β) (k : κ) : Map κ β := Function.update M k none

def keys (M : Map κ β) : Set κ := {k | M k ≠ none}

theorem put_eq_some {M : Map κ β} {k k' : κ} {v v' : β} :
    put M k v k' = some v' ↔ k' = k ∧ v = v' ∨ k' ≠ k ∧ M k' = some v' := by
  unfold put
  by_cases h : k' = k
  · subst h
    simp
  · simp [h]

theorem erase_eq_some {M : Map κ β} {k k' : κ} {v' : β} : erase M k k' = some v' ↔ k' ≠ k ∧ M k' = some v' := by
  unfold erase
  by_cases h : k' = k
  · subst h
    simp
  · simp [h]

theorem mem_keys {M : Map κ β} {k : κ} : k ∈ keys M ↔ ∃ v, M k = some v := Option.ne_none_iff_exists'

theorem ncard_keys_of_nodup {M : Map κ β} {l : List (κ × β)} (hnd : (l.map Prod.fst).Nodup)
    (hmem : ∀ k v, M k = some v ↔ (k, v) ∈ l) : (keys M).ncard = l.length := by
  classical
  have heq : keys M = ((l.map Prod.fst).toFinset : Set κ) := by
    ext k
    simp [mem_keys, hmem]
  rw [heq, Set.ncard_coe_finset, List.toFinset_card_of_nodup hnd, List.length_map]

section Order

variable [LinearOrder κ] {M : Map κ β} {l pre suf : List (κ × β)} {k : κ} {v : β} {p : κ × β → Bool}

def IsBelow (M : Map κ β) (k : κ) : Option (κ × β) → Prop
  | none => ∀ k' < k, M k' = none
  | some e => M e.1 = some e.2 ∧ IsGreatest {k' | k' ∈ keys M ∧ k' < k} e.1

def IsAbove (M : Map κ β) (k : κ) : Option (κ × β) → Prop
  | none => ∀ k', k < k' → M k' = none
  | some e => M e.1 = some e.2 ∧ IsLeast {k' | k' ∈ keys M ∧ k < k'} e.1

def IsAt (M : Map κ β) (k : κ) : Option (κ × β) → Prop
  | none => M k = none
  | some e => e.1 = k ∧ M k = some e.2

structure Lists (M : Map κ β) (l : List (κ × β)) : Prop where
  sorted : l.Pairwise fun a b => a.1 < b.1
  mem : ∀ k v, M k = some v ↔ (k, v) ∈ l

theorem Lists.nil : Lists (empty : Map κ β) [] := ⟨.nil, fun _ _ => by simp [empty]⟩

theorem Lists.mem_keys (h : Lists M l) : k ∈ keys M ↔ ∃ e ∈ l, e.1 = k := by
  rw [OrderedMap.mem_keys]
  constructor
  · rintro ⟨v, hv⟩
    exact ⟨(k, v), (h.mem k v).1 hv, rfl⟩
  · rintro ⟨e, he, rfl⟩
    exact ⟨e.2, (h.mem e.1 e.2).2 he⟩

theorem Lists.eq_none (h : Lists M l) (hk : ∀ e ∈ l, e.1 ≠ k) : M k = none := by
  by_contra hne
  obtain ⟨e, he, hek⟩ := h.mem_keys.1 hne
  exact hk e he hek

theorem Lists.ne_of_mem (h : Lists M (pre ++ (k, v) :: suf)) : ∀ e ∈ pre ++ suf, e.1 ≠ k := by
  obtain ⟨-, hs, hpre⟩ := List.pairwise_append.1 h.sorted
  intro e he
  rcases List.mem_append.1 he with he | he
  · exact ne_of_lt (hpre e he (k, v) List.mem_cons_self)
  · exact ne_of_gt ((List.pairwise_cons.1 hs).1 e he)

theorem Lists.insert (h : Lists M (pre ++ suf)) (hs : (pre ++ (k, v) :: suf).Pairwise fun a b => a.1 < b.1) :
    Lists (put M k v) (pre ++ (k, v) :: suf) := by
  refine ⟨hs, fun k' v' => ?_⟩
  have hne : ∀ e ∈ pre ++ suf, e.1 ≠ k := by
    obtain ⟨-, hs, hpre⟩ := List.pairwise_append.1 hs
    intro e he
    rcases List.mem_append.1 he with he | he
    · exact ne_of_lt (hpre e he (k, v) List.mem_cons_self)
    · exact ne_of_gt ((List.pairwise_cons.1 hs).1 e he)
  rw [put_eq_some, h.mem, List.mem_append, List.mem_append, List.mem_cons, Prod.mk.injEq]
  constructor
  · rintro (⟨rfl, rfl⟩ | ⟨-, hm⟩)
    · exact .inr (.inl ⟨rfl, rfl⟩)
    · exact hm.imp_right .inr
  · rintro (hm | ⟨rfl, rfl⟩ | hm)
    · exact .inr ⟨hne _ (List.mem_append_left _ hm), .inl hm⟩
    · exact .inl ⟨rfl, rfl⟩
    · exact .inr ⟨hne _ (List.mem_append_right _ hm), .inr hm⟩

theorem Lists.remove (h : Lists M (pre ++ (k, v) :: suf)) : Lists (erase M k) (pre ++ suf) := by
  refine ⟨h.sorted.sublist ((List.sublist_cons_self _ _).append_left _), fun k' v' => ?_⟩
  have hne := h.ne_of_mem
  rw [erase_eq_some, h.mem, List.mem_append, List.mem_append, List.mem_cons, Prod.mk.injEq]
  constructor
  · rintro ⟨hk, hm | ⟨rfl, -⟩ | hm⟩
    · exact .inl hm
    · exact absurd rfl hk
    · exact .inr hm
  · rintro (hm | hm)
    · exact ⟨hne _ (List.mem_append_left _ hm), .inl hm⟩
    · exact ⟨hne _ (List.mem_append_right _ hm), .inr (.inr hm)⟩

theorem Lists.below (h : Lists M l) (hp : ∀ e, p e = true ↔ e.1 < k) :
    IsBelow M k (l.filter p).getLast? := by
  have hs : (l.filter p).Pairwise fun a b => a.1 < b.1 := h.sorted.sublist List.filter_sublist
  have hmem : ∀ e, e ∈ l.filter p ↔ e ∈ l ∧ e.1 < k := fun e => by rw [List.mem_filter, hp]
  rcases List.eq_nil_or_concat (l.filter p) with hnil | ⟨init, e, hl⟩
  · rw [hnil]
    intro k' hk'
    refine h.eq_none fun e he hek => ?_
    have := (hmem e).2 ⟨he, hek ▸ hk'⟩
    rw [hnil] at this
    cases this
  · rw [hl, List.concat_eq_append] at hs hmem ⊢
    rw [List.getLast?_append_of_ne_nil _ (List.cons_ne_nil _ _), List.getLast?_singleton]
    obtain ⟨he, hek⟩ := (hmem e).1 (List.mem_append_right _ List.mem_cons_self)
    refine ⟨(h.mem _ _).2 he, ⟨h.mem_keys.2 ⟨e, he, rfl⟩, hek⟩, ?_⟩
    rintro k' ⟨hk', hlt⟩
    obtain ⟨e', he', rfl⟩ := h.mem_keys.1 hk'
    rcases List.mem_append.1 ((hmem e').2 ⟨he', hlt⟩) with hm | hm
    · exact le_of_lt ((List.pairwise_append.1 hs).2.2 e' hm e List.mem_cons_self)
    · rw [List.mem_singleton.1 hm]

theorem Lists.above (h : Lists M l) (hp : ∀ e, p e = true ↔ k < e.1) :
    IsAbove M k (l.filter p).head? := by
  have hs : (l.filter p).Pairwise fun a b => a.1 < b.1 := h.sorted.sublist List.filter_sublist
  have hmem : ∀ e, e ∈ l.filter p ↔ e ∈ l ∧ k < e.1 := fun e => by rw [List.mem_filter, hp]
  cases hl : l.filter p with
  | nil =>
    intro k' hk'
    refine h.eq_none fun e he hek => ?_
    have := (hmem e).2 ⟨he, hek ▸ hk'⟩
    rw [hl] at this
    cases this
  | cons e rest =>
    rw [hl] at hs hmem
    obtain ⟨he, hek⟩ := (hmem e).1 List.mem_cons_self
    refine ⟨(h.mem _ _).2 he, ⟨h.mem_keys.2 ⟨e, he, rfl⟩, hek⟩, ?_⟩
    rintro k' ⟨hk', hlt⟩
    obtain ⟨e', he', rfl⟩ := h.mem_keys.1 hk'
    rcases List.mem_cons.1 ((hmem e').2 ⟨he', hlt⟩) with rfl | hm
    · exact le_refl _
    · exact le_of_lt ((List.pairwise_cons.1 hs).1 e' hm)

theorem Lists.at (h : Lists M l) (hp : ∀ e, p e = true ↔ e.1 = k) : IsAt M k (l.find? p) := by
  cases hf : l.find? p with
  | none =>
    refine h.eq_none fun e he hek => ?_
    exact List.find?_eq_none.1 hf e he ((hp e).2 hek)
  | some e =>
    have hek := (hp e).1 (List.find?_some hf)
    exact ⟨hek, by rw [← hek]; exact (h.mem _ _).2 (List.mem_of_find?_eq_some hf)⟩

theorem Lists.ncard_keys (h : Lists M l) : (keys M).ncard = l.length := by
  refine ncard_keys_of_nodup ?_ h.mem
  rw [List.Nodup, List.pairwise_map]
  exact h.sorted.imp fun hab => ne_of_lt hab

end Order

end OrderedMap
