import Mathlib.Algebra.Group.Int.Defs
import Mathlib.Algebra.Group.Nat.Defs
import Mathlib.Order.Defs.LinearOrder

/-!
# Timestamps

Seconds and microseconds, compared seconds first, whether the microseconds are normalised or not.
-/

namespace Rdm

@[ext] structure Timestamp where
  sec : Int
  usec : Int
deriving DecidableEq, Repr

namespace Timestamp

def NONE : Timestamp := ⟨-1, -1⟩

def ZERO : Timestamp := ⟨0, 0⟩

def ENDT : Timestamp := ⟨0x7fffffff, 999999⟩

instance : LT Timestamp := ⟨fun a b => if a.sec = b.sec then a.usec < b.usec else a.sec < b.sec⟩

instance : LE Timestamp := ⟨fun a b => a < b ∨ a = b⟩

variable {a b : Timestamp}

theorem lt_def : a < b ↔ if a.sec = b.sec then a.usec < b.usec else a.sec < b.sec := Iff.rfl

theorem le_def : a ≤ b ↔ a < b ∨ a = b := Iff.rfl

instance : DecidableLT Timestamp := fun a b =>
  inferInstanceAs (Decidable (if a.sec = b.sec then a.usec < b.usec else a.sec < b.sec))

instance : DecidableLE Timestamp := fun a b => inferInstanceAs (Decidable (a < b ∨ a = b))

theorem lt_iff : a < b ↔ a.sec < b.sec ∨ a.sec = b.sec ∧ a.usec < b.usec := by
  rw [lt_def]
  split <;> omega

theorem le_iff : a ≤ b ↔ a.sec < b.sec ∨ a.sec = b.sec ∧ a.usec ≤ b.usec := by
  rw [le_def, lt_iff, Timestamp.ext_iff]
  omega

instance : LinearOrder Timestamp where
  le_refl a := by rw [le_iff]; omega
  le_trans a b c := by rw [le_iff, le_iff, le_iff]; omega
  lt_iff_le_not_ge a b := by rw [lt_iff, le_iff, le_iff]; omega
  le_antisymm a b := by rw [le_iff, le_iff, Timestamp.ext_iff]; omega
  le_total a b := by rw [le_iff, le_iff]; omega
  toDecidableLE := inferInstance

def incrementMicrosecond (t : Timestamp) : Timestamp :=
  if t.usec = 999999 then ⟨t.sec + 1, 0⟩ else ⟨t.sec, t.usec + 1⟩

theorem lt_incrementMicrosecond (t : Timestamp) : t < t.incrementMicrosecond := by
  rw [lt_iff, incrementMicrosecond]
  split <;> dsimp only <;> omega

def decrementMicrosecond (t : Timestamp) : Timestamp :=
  if t.usec = 0 then ⟨t.sec - 1, 999999⟩ else ⟨t.sec, t.usec - 1⟩

def sub (a b : Timestamp) : Timestamp :=
  if a.usec - b.usec < 0 then
    if 0 < a.sec - b.sec then ⟨a.sec - b.sec - 1, a.usec - b.usec + 1000000⟩ else ⟨0, 0⟩
  else ⟨a.sec - b.sec, a.usec - b.usec⟩

def add (a b : Timestamp) : Timestamp :=
  if a.usec + b.usec ≥ 1000000 then ⟨a.sec + b.sec + 1, a.usec + b.usec - 1000000⟩ else ⟨a.sec + b.sec, a.usec + b.usec⟩

def Normalised (t : Timestamp) : Prop := 0 ≤ t.sec ∧ 0 ≤ t.usec ∧ t.usec < 1000000

instance (t : Timestamp) : Decidable t.Normalised := inferInstanceAs (Decidable (_ ∧ _))

/-- **Subtraction is saturating** exactly unless there are fewer seconds and not fewer microseconds: then it does not
clamp. -/
theorem sub_saturates (ha : a.Normalised) (hb : b.Normalised) :
    ((a.sub b).Normalised ∧ (b ≤ a → (a.sub b).add b = a) ∧ (a < b → a.sub b = ZERO)) ↔
      ¬ (a.sec < b.sec ∧ b.usec ≤ a.usec) := by
  obtain ⟨ha0, ha1, ha2⟩ := ha
  obtain ⟨hb0, hb1, hb2⟩ := hb
  refine ⟨fun ⟨⟨hsec, _⟩, _⟩ ⟨hlt, hle⟩ => ?_, fun h => ?_⟩
  · rw [sub, if_neg (by omega)] at hsec
    exact absurd hsec (by simp only; omega)
  unfold sub
  split
  case isTrue hneg =>
    split
    case isTrue hpos =>
      refine ⟨⟨by simp only; omega, by simp only; omega, by simp only; omega⟩, fun _ => ?_, fun hlt => ?_⟩
      · rw [add, if_pos (by simp only; omega), Timestamp.ext_iff]
        simp only
        omega
      · rw [lt_iff] at hlt
        omega
    case isFalse hle =>
      refine ⟨by decide, fun hge => ?_, fun _ => rfl⟩
      rw [le_iff] at hge
      omega
  case isFalse hge =>
    have hsec : b.sec ≤ a.sec := by omega
    refine ⟨⟨by simp only; omega, by simp only; omega, by simp only; omega⟩, fun _ => ?_, fun hlt => ?_⟩
    · rw [add, if_neg (by simp only; omega), Timestamp.ext_iff]
      simp only
      omega
    · rw [lt_iff] at hlt
      omega

theorem sub_saturates_borrow : (sub ⟨5, 1⟩ ⟨2, 3⟩).Normalised ∧ (sub ⟨5, 1⟩ ⟨2, 3⟩).add ⟨2, 3⟩ = ⟨5, 1⟩ := by
  have h := (sub_saturates (a := ⟨5, 1⟩) (b := ⟨2, 3⟩) (by decide) (by decide)).2 (by decide)
  exact ⟨h.1, h.2.1 (by decide)⟩

/-- The seconds of a difference can be negative. -/
theorem sub_below_zero : (⟨0, 5⟩ : Timestamp).Normalised ∧ (⟨1, 3⟩ : Timestamp).Normalised ∧
    (⟨0, 5⟩ : Timestamp) < ⟨1, 3⟩ ∧ sub ⟨0, 5⟩ ⟨1, 3⟩ = ⟨-1, 2⟩ ∧ ¬ (sub ⟨0, 5⟩ ⟨1, 3⟩).Normalised ∧
    sub ⟨0, 5⟩ ⟨1, 3⟩ ≠ ZERO := by
  decide

end Timestamp

end Rdm
