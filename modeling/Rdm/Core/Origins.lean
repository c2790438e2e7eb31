import Rdm.Core.Receiver

/-!
# Relaying keeps the origin

A host that relays a product replaces what stands behind the first "_v_" of the origin. A source whose name ends in "_v"
is cut.
-/

namespace Rdm.Network

open List

variable {c : UInt8} {b s t : List UInt8}

theorem beforeSeparator_cons (h : ∀ r, c :: s ≠ 95 :: 118 :: 95 :: r) : beforeSeparator (c :: s) = c ::
    beforeSeparator s := by
  rw [beforeSeparator]
  rintro r rfl rfl
  exact h r rfl

theorem beforeSeparator_append (hs : ∀ r, s ≠ 118 :: r) (hb : beforeSeparator b = b) (hend : ¬ [95, 118] <:+ b) :
    beforeSeparator (b ++ s) = b ++ beforeSeparator s := by
  induction b with
  | nil => rfl
  | cons c b ih =>
    have hne : ∀ r, c :: b ≠ 95 :: 118 :: 95 :: r := by
      intro r he
      rw [he, beforeSeparator] at hb
      cases hb
    rw [beforeSeparator_cons hne] at hb
    rw [cons_append, beforeSeparator_cons, ih (cons.inj hb).2 fun hm => hend (hm.trans (suffix_cons c b)), cons_append]
    intro r hr
    obtain ⟨rfl, he⟩ := cons.inj hr
    -- a separator over the seam needs its first character or its first two in front of it
    cases b with
    | nil => exact hs _ he
    | cons d b =>
      obtain ⟨rfl, he'⟩ := cons.inj he
      cases b with
      | nil => exact hend (suffix_refl _)
      | cons d b =>
        obtain ⟨rfl, -⟩ := cons.inj he'
        exact hne b rfl

theorem beforeSeparator_left (h : beforeSeparator (b ++ t) = b ++ t) : beforeSeparator b = b := by
  induction b with
  | nil => rfl
  | cons c b ih =>
    have hne : ∀ r, c :: (b ++ t) ≠ 95 :: 118 :: 95 :: r := by
      intro r he
      rw [cons_append, he, beforeSeparator] at h
      cases h
    rw [cons_append, beforeSeparator_cons hne] at h
    rw [beforeSeparator_cons, ih (cons.inj h).2]
    intro r he
    apply hne (r ++ t)
    rw [← cons_append, he]
    rfl

theorem beforeSeparator_start (s : List UInt8) : beforeSeparator s <+: s := by
  fun_induction beforeSeparator s with
  | case1 => exact prefix_refl []
  | case2 => exact nil_prefix
  | case3 c s hne ih => exact (prefix_cons_inj c).2 ih

theorem beforeSeparator_idem (s : List UInt8) : beforeSeparator (beforeSeparator s) = beforeSeparator s := by
  fun_induction beforeSeparator s with
  | case1 => rfl
  | case2 => rfl
  | case3 c s hne ih =>
    rw [beforeSeparator_cons, ih]
    intro r hr
    obtain ⟨rfl, he⟩ := cons.inj hr
    obtain ⟨t, ht⟩ := he ▸ beforeSeparator_start s
    exact hne (r ++ t) rfl ht.symm

theorem beforeSeparator_relayed (hb : beforeSeparator b = b) (hend : ¬ [95, 118] <:+ b) (h : List UInt8) (n : Nat) :
    beforeSeparator ((b ++ [95, 118, 95] ++ h).take n) = if b.length + 3 ≤
    n then b else (b ++ [95, 118, 95]).take n := by
  rw [append_assoc, take_append, @take_append _ b]
  rcases Nat.lt_or_ge n b.length with hlong | hfits
  · have hnone : n - b.length = 0 := by omega
    have hcut : beforeSeparator (b.take n) = b.take n := by
      apply beforeSeparator_left (t := b.drop n)
      rw [take_append_drop, hb]
    rw [hnone, take_zero, take_zero, append_nil, hcut, if_neg (by omega)]
  · obtain ⟨k, rfl⟩ := Nat.exists_eq_add_of_le hfits
    rw [take_of_length_le (Nat.le_add_right ..), Nat.add_sub_cancel_left, beforeSeparator_append _ hb hend]
    · rcases k with _ | _ | _ | k <;> simp [beforeSeparator]
    · cases k <;> simp

theorem length_beforeSeparator_le (b r : List UInt8) :
    (beforeSeparator (b ++ 95 :: 118 :: 95 :: r)).length ≤ b.length := by
  induction b with
  | nil => exact Nat.le_refl 0
  | cons c b ih =>
    by_cases he : ∃ r', c :: (b ++ 95 :: 118 :: 95 :: r) = 95 :: 118 :: 95 :: r'
    · obtain ⟨r', he⟩ := he
      rw [cons_append, he]
      exact Nat.zero_le _
    · rw [cons_append, beforeSeparator_cons fun r' h => he ⟨r', h⟩]
      exact Nat.succ_le_succ ih

/-- An appended host is found again, whether or not the array ends in the separator. -/
theorem append_relayed (hb : beforeSeparator b = b) (hend : ¬ [95, 118] <:+ b) (first second : List UInt8) :
    appendUpstreamHostToOrigin ((b ++ [95, 118, 95] ++ first).take 63) second
      = (b ++ [95, 118, 95] ++ second).take 63 := by
  rw [appendUpstreamHostToOrigin, beforeSeparator_relayed hb hend]
  split
  case isTrue => rfl
  case isFalse hshort =>
    -- the array ends inside the separator: nothing of either host is in it
    have hfull : 63 ≤ (b ++ [95, 118, 95]).length := by
      rw [length_append, length_cons, length_cons, length_singleton]
      omega
    rw [append_assoc, take_append_of_le_length (by rw [length_take]; omega), take_take, Nat.min_self,
      take_append_of_le_length hfull]

/-- **Appending a second upstream host replaces the first**, and no origin is longer than its array, exactly unless the
source's own name ends in "_v" and the "v_" that is then lost in front of the host shows in the array. -/
theorem append_replaces (originalOrigin first second : List UInt8) :
    (appendUpstreamHostToOrigin (appendUpstreamHostToOrigin originalOrigin first) second
        = appendUpstreamHostToOrigin originalOrigin second
      ∧ (appendUpstreamHostToOrigin originalOrigin second).length ≤ 63) ↔
    ([95, 118] <:+ beforeSeparator originalOrigin →
      second.take (62 - (beforeSeparator originalOrigin).length) =
        (118 :: 95 :: second).take (62 - (beforeSeparator originalOrigin).length)) := by
  refine (and_iff_left (length_take_le ..)).trans ?_
  rw [appendUpstreamHostToOrigin.eq_def originalOrigin first, appendUpstreamHostToOrigin.eq_def originalOrigin second]
  have hb := beforeSeparator_idem originalOrigin
  generalize beforeSeparator originalOrigin = b at hb ⊢
  by_cases hend : [95, 118] <:+ b
  case neg => exact iff_of_true (append_relayed hb hend first second) (absurd · hend)
  obtain ⟨d, rfl⟩ := hend
  have hd : ¬ [95, 118] <:+ d := by
    rintro ⟨e, rfl⟩
    have hle := length_beforeSeparator_le e [118]
    rw [append_assoc, cons_append, cons_append, nil_append] at hb
    rw [hb, length_append] at hle
    simp at hle
  -- the separator is found two characters early
  have hshift (h : List UInt8) : d ++ [95, 118] ++ [95, 118, 95] ++ h = d ++ [95, 118, 95] ++ 118 :: 95 :: h := by simp
  rw [hshift, hshift, append_relayed (beforeSeparator_left hb) hd]
  have hroom : 63 - (d ++ [95, 118, 95]).length = 62 - (d ++ [95, 118]).length := by
    simp only [length_append, length_cons, length_nil]
    omega
  rw [take_append, @take_append _ _ (118 :: _), append_cancel_left_eq, hroom]
  exact ⟨fun h _ => h, fun h => h (suffix_append _ _)⟩

/-- A source called "a_v": the second host finds the separator one character early. -/
theorem append_overlaps : appendUpstreamHostToOrigin (appendUpstreamHostToOrigin [97, 95, 118] [120]) [121]
    ≠ appendUpstreamHostToOrigin [97, 95, 118] [121] := by decide

end Rdm.Network
