import Mathlib.Data.Set.Basic
import Mathlib.Logic.Function.Basic

/-!
# Record locks

Advisory locks on the bytes of a file, as POSIX has them: one is granted if no other process has a conflicting one.
-/

namespace RecordLocks

inductive LockType where
  | read
  | write
deriving DecidableEq

structure LockTable (P B : Type) where
  locks : P → B → Option LockType

namespace LockTable

variable {P B : Type} {k : LockTable P B} {p q : P} {t : LockType} {b : B} {range : Set B}

def Compatible (t : LockType) (other : Option LockType) : Prop := other = none ∨ t = .read ∧ other = some .read

def Grants (k : LockTable P B) (p : P) (t : LockType) (range : Set B) : Prop :=
  ∀ q, q ≠ p → ∀ b ∈ range, Compatible t (k.locks q b)

def Exclusive (k : LockTable P B) : Prop := ∀ p q b, p ≠ q → k.locks p b = some .write → k.locks q b = none

theorem Grants.free (h : k.Grants p .write range) (hne : q ≠ p) (hb : b ∈ range) : k.locks q b = none := by
  rcases h q hne b hb with hnone | ⟨ht, -⟩
  · exact hnone
  · cases ht

theorem Grants.not_write (h : k.Grants p t range) (hne : q ≠ p) (hb : b ∈ range) : k.locks q b ≠ some .write := by
  intro hw
  rcases h q hne b hb with hnone | ⟨-, hread⟩
  · cases hw.symm.trans hnone
  · cases hw.symm.trans hread

variable [DecidableEq P] [DecidablePred (· ∈ range)]

def set (k : LockTable P B) (p : P) (range : Set B) [DecidablePred (· ∈ range)] (t : Option LockType) : LockTable P B :=
  ⟨fun q b => if q = p ∧ b ∈ range then t else k.locks q b⟩

theorem set_in (hb : b ∈ range) (t : Option LockType) : (k.set p range t).locks p b = t :=
  if_pos ⟨rfl, hb⟩

theorem set_other (hne : q ≠ p) (t : Option LockType) : (k.set p range t).locks q b = k.locks q b :=
  if_neg fun h => hne h.1

theorem set_out (hb : b ∉ range) (t : Option LockType) : (k.set p range t).locks q b = k.locks q b :=
  if_neg fun h => hb h.2

/-- **Granting a lock keeps the table exclusive.** -/
theorem Exclusive.grant (h : k.Exclusive) (hg : k.Grants p t range) : (k.set p range (some t)).Exclusive := by
  intro p1 p2 b hne hw
  by_cases hb : b ∈ range
  · rcases eq_or_ne p1 p with rfl | h1
    · rw [set_in hb] at hw
      cases hw
      rw [set_other hne.symm]
      exact hg.free hne.symm hb
    · rw [set_other h1] at hw
      exact absurd hw (hg.not_write h1 hb)
  · rw [set_out hb] at hw ⊢
    exact h p1 p2 b hne hw

/-- **Giving up locks keeps the table exclusive.** -/
theorem Exclusive.unlock (h : k.Exclusive) : (k.set p range none).Exclusive := by
  have hless : ∀ q b t, (k.set p range none).locks q b = some t → k.locks q b = some t := by
    intro q b t hq
    by_cases hin : q = p ∧ b ∈ range
    · cases (if_pos hin).symm.trans hq
    · exact (if_neg hin).symm.trans hq
  intro p1 p2 b hne hw
  have hnone := h p1 p2 b hne (hless p1 b _ hw)
  cases hp : (k.set p range none).locks p2 b with
  | none => rfl
  | some t => cases hnone.symm.trans (hless p2 b t hp)

end LockTable

end RecordLocks
