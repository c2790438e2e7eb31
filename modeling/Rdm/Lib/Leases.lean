import Mathlib.Data.List.NodupEquivFin
import Mathlib.Data.List.Perm.Subperm
import Mathlib.Logic.Function.Basic

/-!
# Leases

A lease is held by at most one holder at a time, may move, and ends in one way or another. `Owned` is the invariant.
-/

namespace Leases

open Function (update update_of_ne update_self)

structure Lease (ρ : Type) where
  number : Nat
  resource : ρ
deriving DecidableEq

/-- **Every lease is held or has ended.** `rs` are the resources that are leased now. -/
structure Owned {α ρ κ : Type} (holds : α → Option (Lease ρ)) (rs : List ρ) (issued : Nat) (ends : List (Nat × κ)) :
    Prop where
  among : ∀ x l, holds x = some l → l.resource ∈ rs
  apart : ∀ x y l m, holds x = some l → holds y = some m → l.resource = m.resource ∨ l.number = m.number → x = y
  current : ∀ x l, holds x = some l → l.number < issued ∧ l.number ∉ ends.map Prod.fst
  covered : ∀ n < issued, n ∈ ends.map Prod.fst ∨ ∃ x l, holds x = some l ∧ l.number = n
  once : (ends.map Prod.fst).Nodup
  ended : ∀ n ∈ ends.map Prod.fst, n < issued

variable {α ρ κ : Type} {holds : α → Option (Lease ρ)} {rs : List ρ} {issued : Nat} {ends : List (Nat × κ)}

theorem owned_none (rs : List ρ) : Owned (fun _ : α => none) rs 0 ([] : List (Nat × κ)) where
  among := fun _ _ h => by cases h
  apart := fun _ _ _ _ h => by cases h
  current := fun _ _ h => by cases h
  covered := fun n hn => absurd hn (Nat.not_lt_zero n)
  once := List.nodup_nil
  ended := fun _ h => by cases h

/-- **When nobody holds a lease**, every lease has ended. -/
theorem Owned.all_ended (h : Owned holds rs issued ends) (hnone : ∀ x, holds x = none) :
    (ends.map Prod.fst).Perm (List.range issued) := by
  refine (List.perm_ext_iff_of_nodup h.once List.nodup_range).2 fun n => ?_
  rw [List.mem_range]
  refine ⟨h.ended n, fun hn => ?_⟩
  rcases h.covered n hn with he | ⟨x, l, hl, -⟩
  · exact he
  · rw [hnone x] at hl
    cases hl

variable [DecidableEq α]

theorem Owned.issue (h : Owned holds rs issued ends) {x : α} (hx : holds x = none) {r : ρ} (hr : r ∉ rs) :
    Owned (update holds x (some ⟨issued, r⟩)) (rs ++ [r]) (issued + 1) ends := by
  have hsome : ∀ y l, update holds x (some ⟨issued, r⟩) y = some l →
      y = x ∧ l = ⟨issued, r⟩ ∨ y ≠ x ∧ holds y = some l := by
    intro y l hl
    by_cases hy : y = x
    · subst hy
      rw [update_self] at hl
      exact .inl ⟨rfl, (Option.some.inj hl).symm⟩
    · rw [update_of_ne hy] at hl
      exact .inr ⟨hy, hl⟩
  -- an old lease has an old resource and an old number
  have hold : ∀ y l, holds y = some l → l.resource ≠ r ∧ l.number ≠ issued := by
    intro y l hl
    refine ⟨fun e => hr (e ▸ h.among y l hl), fun e => ?_⟩
    have := (h.current y l hl).1
    omega
  constructor
  case among =>
    intro y l hl
    rcases hsome y l hl with ⟨-, rfl⟩ | ⟨-, hl⟩
    · exact List.mem_append_right _ (List.mem_singleton.2 rfl)
    · exact List.mem_append_left _ (h.among y l hl)
  case apart =>
    intro y z l m hl hm he
    rcases hsome y l hl with ⟨rfl, rfl⟩ | ⟨-, hl0⟩
    · rcases hsome z m hm with ⟨rfl, -⟩ | ⟨-, hm0⟩
      · rfl
      · obtain ⟨h1, h2⟩ := hold z m hm0
        rcases he with he | he
        · exact absurd he.symm h1
        · exact absurd he.symm h2
    · rcases hsome z m hm with ⟨rfl, rfl⟩ | ⟨-, hm0⟩
      · obtain ⟨h1, h2⟩ := hold y l hl0
        rcases he with he | he
        · exact absurd he h1
        · exact absurd he h2
      · exact h.apart y z l m hl0 hm0 he
  case current =>
    intro y l hl
    rcases hsome y l hl with ⟨-, rfl⟩ | ⟨-, hl⟩
    · exact ⟨Nat.lt_succ_self _, fun hm => absurd (h.ended _ hm) (Nat.lt_irrefl _)⟩
    · obtain ⟨h1, h2⟩ := h.current y l hl
      exact ⟨Nat.lt_succ_of_lt h1, h2⟩
  case covered =>
    intro n hn
    rcases Nat.lt_succ_iff_lt_or_eq.1 hn with hn | rfl
    · rcases h.covered n hn with he | ⟨y, l, hl, he⟩
      · exact .inl he
      · have hy : y ≠ x := fun e => by rw [e, hx] at hl; cases hl
        exact .inr ⟨y, l, by rw [update_of_ne hy]; exact hl, he⟩
    · exact .inr ⟨x, ⟨n, r⟩, update_self .., rfl⟩
  case once => exact h.once
  case ended => exact fun n hn => Nat.lt_succ_of_lt (h.ended n hn)

theorem Owned.move (h : Owned holds rs issued ends) {x y : α} (hne : x ≠ y) (hx : holds x = none) :
    Owned (update (update holds x (holds y)) y none) rs issued ends := by
  -- every lease comes from one of the old holders, and from a different one for a different new holder
  have hfrom : ∀ z l, update (update holds x (holds y)) y none z = some l →
      z = x ∧ holds y = some l ∨ z ≠ x ∧ z ≠ y ∧ holds z = some l := by
    intro z l hl
    by_cases hzy : z = y
    · rw [hzy, update_self] at hl
      cases hl
    · rw [update_of_ne hzy] at hl
      by_cases hzx : z = x
      · rw [hzx, update_self] at hl
        exact .inl ⟨hzx, hl⟩
      · rw [update_of_ne hzx] at hl
        exact .inr ⟨hzx, hzy, hl⟩
  constructor
  case among =>
    intro z l hl
    rcases hfrom z l hl with ⟨-, hl⟩ | ⟨-, -, hl⟩
    · exact h.among y l hl
    · exact h.among z l hl
  case apart =>
    intro z w l m hl hm he
    rcases hfrom z l hl with ⟨rfl, hl0⟩ | ⟨hzx, hzy, hl0⟩
    · rcases hfrom w m hm with ⟨rfl, -⟩ | ⟨-, hwy, hm0⟩
      · rfl
      · exact absurd (h.apart y w l m hl0 hm0 he).symm hwy
    · rcases hfrom w m hm with ⟨rfl, hm0⟩ | ⟨-, -, hm0⟩
      · exact absurd (h.apart z y l m hl0 hm0 he) hzy
      · exact h.apart z w l m hl0 hm0 he
  case current =>
    intro z l hl
    rcases hfrom z l hl with ⟨-, hl⟩ | ⟨-, -, hl⟩
    · exact h.current y l hl
    · exact h.current z l hl
  case covered =>
    intro n hn
    rcases h.covered n hn with he | ⟨z, l, hl, he⟩
    · exact .inl he
    · by_cases hzy : z = y
      · refine .inr ⟨x, l, ?_, he⟩
        rw [update_of_ne hne, update_self, ← hzy]
        exact hl
      · have hzx : z ≠ x := fun e => by rw [e, hx] at hl; cases hl
        refine .inr ⟨z, l, ?_, he⟩
        rw [update_of_ne hzy, update_of_ne hzx]
        exact hl
  case once => exact h.once
  case ended => exact h.ended

/-- **A lease ends.** -/
theorem Owned.resolve [DecidableEq ρ] (h : Owned holds rs issued ends) {x : α} {l : Lease ρ} (hx : holds x = some l)
    (k : κ) : Owned (update holds x none) (rs.erase l.resource) issued (ends ++ [(l.number, k)]) := by
  have hother : ∀ y m, update holds x none y = some m → holds y = some m ∧ m.resource ≠ l.resource ∧
      m.number ≠ l.number := by
    intro y m hm
    by_cases hy : y = x
    · rw [hy, update_self] at hm
      cases hm
    · rw [update_of_ne hy] at hm
      exact ⟨hm, fun e => hy (h.apart y x m l hm hx (.inl e)), fun e => hy (h.apart y x m l hm hx (.inr e))⟩
  have hmap : (ends ++ [(l.number, k)]).map Prod.fst = ends.map Prod.fst ++ [l.number] := by simp
  obtain ⟨hlt, hnew⟩ := h.current x l hx
  constructor
  case among =>
    intro y m hm
    obtain ⟨hm, hne, -⟩ := hother y m hm
    exact (List.mem_erase_of_ne hne).2 (h.among y m hm)
  case apart =>
    intro y z m m' hm hm' he
    exact h.apart y z m m' (hother y m hm).1 (hother z m' hm').1 he
  case current =>
    intro y m hm
    obtain ⟨hm, -, hne⟩ := hother y m hm
    obtain ⟨h1, h2⟩ := h.current y m hm
    refine ⟨h1, ?_⟩
    rw [hmap, List.mem_append, List.mem_singleton]
    exact fun he => he.elim h2 hne
  case covered =>
    intro n hn
    rw [hmap, List.mem_append, List.mem_singleton]
    rcases h.covered n hn with he | ⟨y, m, hm, rfl⟩
    · exact .inl (.inl he)
    · by_cases hy : y = x
      · rw [hy, hx] at hm
        cases hm
        exact .inl (.inr rfl)
      · exact .inr ⟨y, m, by rw [update_of_ne hy]; exact hm, rfl⟩
  case once =>
    rw [hmap, List.nodup_append]
    refine ⟨h.once, List.nodup_singleton _, fun a ha b hb e => hnew ?_⟩
    rw [← List.mem_singleton.1 hb, ← e]
    exact ha
  case ended =>
    intro n hn
    rw [hmap, List.mem_append, List.mem_singleton] at hn
    rcases hn with hn | rfl
    · exact h.ended n hn
    · exact hlt

end Leases
