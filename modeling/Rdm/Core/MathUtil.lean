import Mathlib.Algebra.Group.Int.Defs
import Mathlib.Algebra.Group.Nat.Defs
import Mathlib.Algebra.GroupWithZero.Nat
import Mathlib.Data.Nat.Log
import Mathlib.Data.Nat.Prime.Basic
import Mathlib.Data.Nat.Sqrt
import Mathlib.Tactic.IntervalCases
import Mathlib.Tactic.NormNum.Prime

/-!
# Sizes and the small arithmetic of the queue

`size_t` values are natural numbers below `2 ^ 64`; where the source can wrap around, the operation says so.
-/

namespace Rdm

def sizeSub (a b : Nat) : Nat := if b ≤ a then a - b else 2 ^ 64 - (b - a)

def sizeAdd (a b : Nat) : Nat := (a + b) % 2 ^ 64

theorem sizeSub_of_le {a b : Nat} (h : b ≤ a) : sizeSub a b = a - b := if_pos h

theorem sizeAdd_of_lt {a b : Nat} (h : a + b < 2 ^ 64) : sizeAdd a b = a + b := Nat.mod_eq_of_lt h

def roundUp (x u : Nat) : Nat := (sizeSub (sizeAdd x u) 1 / u * u) % 2 ^ 64

def isPrimeFrom (n : Nat) : Nat → Nat → Bool
  | 0, _ => true
  | fuel + 1, d => if d * d ≤ n then if n % d = 0 then false else isPrimeFrom n fuel (d + 2) else true

def isPrime (n : Nat) : Bool :=
  if n ≤ 1 then false
  else if n ≤ 19 then n ∈ [2, 3, 5, 7, 11, 13, 17, 19]
  else if [2, 3, 5, 7, 11, 13, 17, 19].any (fun d => n % d = 0) then false
  else isPrimeFrom n n 23

def prevPrimeFrom : Nat → Nat → Nat
  | 0, _ => 0
  | fuel + 1, n => if 0 < n then if isPrime n then n else prevPrimeFrom fuel (n - 2) else 0

def prevPrime (n : Nat) : Nat :=
  if n ≤ 2 then 2 else prevPrimeFrom n (if n % 2 = 0 then n - 1 else n)

/-! ## Primes -/

section Primes

variable {n d fuel : Nat}

theorem isPrimeFrom_eq_true (hn : n % 2 = 1) (hd : d % 2 = 1) (hfuel : n < (d + 2 * fuel) * (d + 2 * fuel)) :
    isPrimeFrom n fuel d = true ↔ ∀ m, d ≤ m → m * m ≤ n → ¬ m ∣ n := by
  induction fuel generalizing d with
  | zero =>
    refine ⟨fun _ m hm hle => ?_, fun _ => rfl⟩
    have hsq : d * d ≤ m * m := Nat.mul_le_mul hm hm
    exact absurd hfuel (by rw [Nat.mul_zero, Nat.add_zero]; omega)
  | succ fuel ih =>
    rw [isPrimeFrom]
    split
    case isFalse hlt =>
      refine ⟨fun _ m hm hle => ?_, fun _ => rfl⟩
      exact absurd (Nat.le_trans (Nat.mul_le_mul hm hm) hle) hlt
    case isTrue hle =>
      split
      case isTrue hmod => simpa using ⟨d, Nat.le_refl d, hle, Nat.dvd_of_mod_eq_zero hmod⟩
      case isFalse hmod =>
        rw [ih (d := d + 2) (by omega) (by rw [show d + 2 + 2 * fuel = d + 2 * (fuel + 1) by omega]; exact hfuel)]
        refine ⟨fun h m hm hle => ?_, fun h m hm => h m (by omega)⟩
        rcases Nat.lt_or_ge m (d + 2) with hlt | hge
        · rcases Nat.eq_or_lt_of_le hm with rfl | hgt
          · exact fun hdvd => hmod (Nat.mod_eq_zero_of_dvd hdvd)
          · intro hdvd
            have heven : 2 ∣ n := Nat.dvd_trans (by omega) hdvd
            omega
        · exact h m hge hle

/-- **Trial division decides primality**: no divisor is left out below `23`, nor after it. -/
theorem isPrime_eq_true (n : Nat) : isPrime n = true ↔ n.Prime := by
  rcases Nat.lt_or_ge n 20 with hlt | hge
  · interval_cases n <;> norm_num [isPrime]
  · rw [isPrime, if_neg (by omega), if_neg (by omega)]
    split
    case isTrue hany =>
      obtain ⟨p, hp, hdvd⟩ := List.any_eq_true.1 hany
      have hdvd : p ∣ n := Nat.dvd_of_mod_eq_zero (of_decide_eq_true hdvd)
      have hbounds : 2 ≤ p ∧ p ≤ 19 := by
        simp only [List.mem_cons, List.not_mem_nil, or_false] at hp
        omega
      exact iff_of_false Bool.false_ne_true (Nat.not_prime_of_dvd_of_lt hdvd hbounds.1 (by omega))
    case isFalse hany =>
      simp only [List.any_cons, List.any_nil, Bool.or_false, Bool.or_eq_true, decide_eq_true_eq, not_or] at hany
      have hlarge : n < (23 + 2 * n) * (23 + 2 * n) :=
        Nat.lt_of_lt_of_le (by omega) (Nat.le_mul_of_pos_left (23 + 2 * n) (by omega))
      rw [isPrimeFrom_eq_true (by omega) rfl hlarge, Nat.prime_def_le_sqrt]
      refine ⟨fun h => ⟨by omega, fun m hm hle => ?_⟩, fun h m hm hle => h.2 m (by omega) (Nat.le_sqrt.2 hle)⟩
      rcases Nat.lt_or_ge m 23 with hsmall | hlarge
      · interval_cases m <;> omega
      · exact h m hlarge (Nat.le_sqrt.1 hle)

theorem prevPrimeFrom_greatest (hfuel : n ≤ 2 * fuel) (hodd : n % 2 = 1) (h3 : 3 ≤ n) :
    IsGreatest {p | p.Prime ∧ p ≤ n} (prevPrimeFrom fuel n) := by
  induction fuel generalizing n with
  | zero => omega
  | succ fuel ih =>
    rw [prevPrimeFrom, if_pos (by omega)]
    split
    case isTrue hp => exact ⟨⟨(isPrime_eq_true n).1 hp, Nat.le_refl n⟩, fun p hp => hp.2⟩
    case isFalse hp =>
      have hnot : ¬ n.Prime := fun h => hp ((isPrime_eq_true n).2 h)
      have hne : n ≠ 3 := by
        rintro rfl
        exact hnot Nat.prime_three
      obtain ⟨hmem, hmax⟩ := ih (n := n - 2) (by omega) (by omega) (by omega)
      refine ⟨⟨hmem.1, Nat.le_trans hmem.2 (Nat.sub_le n 2)⟩, ?_⟩
      rintro p ⟨hprime, hle⟩
      -- `n` itself is not a prime, and `n - 1` is even
      have hne : p ≠ n := by
        rintro rfl
        exact hnot hprime
      rcases hprime.eq_two_or_odd with rfl | hpodd
      · exact hmem.1.two_le
      · exact hmax ⟨hprime, by omega⟩

/-- **The largest prime** up to `n`. -/
theorem prevPrime_greatest (h3 : 3 ≤ n) : IsGreatest {p | p.Prime ∧ p ≤ n} (prevPrime n) := by
  rw [prevPrime, if_neg (by omega)]
  split
  case isFalse hodd => exact prevPrimeFrom_greatest (by omega) (by omega) h3
  case isTrue heven =>
    obtain ⟨hmem, hmax⟩ : IsGreatest {p | p.Prime ∧ p ≤ n - 1} (prevPrimeFrom n (n - 1)) :=
      prevPrimeFrom_greatest (by omega) (by omega) (by omega)
    refine ⟨⟨hmem.1, Nat.le_trans hmem.2 (Nat.sub_le n 1)⟩, ?_⟩
    rintro p ⟨hprime, hle⟩
    rcases hprime.eq_two_or_odd with rfl | hpodd
    · exact hmem.1.two_le
    · exact hmax ⟨hprime, by omega⟩

theorem two_le_prevPrime (n : Nat) : 2 ≤ prevPrime n := by
  rcases Nat.lt_or_ge n 3 with hlt | hge
  · rw [prevPrime, if_pos (by omega)]
  · exact (prevPrime_greatest hge).1.1.two_le

theorem prevPrime_pos (n : Nat) : 0 < prevPrime n := Nat.lt_of_lt_of_le Nat.two_pos (two_le_prevPrime n)

theorem prevPrime_le (n : Nat) : prevPrime n ≤ n + 2 := by
  rcases Nat.lt_or_ge n 3 with hlt | hge
  · rw [prevPrime, if_pos (by omega)]
    omega
  · exact Nat.le_trans (prevPrime_greatest hge).1.2 (Nat.le_add_right n 2)

end Primes

/-! ## The loops in `unsigned long`

The same loops with the arithmetic of the machine: a square and a sum wrap around. They are given a number of
iterations, and have no result if it is not enough.
-/

def trialDivision (n : Nat) : Nat → Nat → Option Bool
  | 0, _ => none
  | fuel + 1, d =>
    if d * d % 2 ^ 64 ≤ n then if n % d = 0 then some false else trialDivision n fuel (sizeAdd d 2) else some true

def isPrimeWithin (fuel n : Nat) : Option Bool :=
  if n ≤ 1 then some false
  else if n ≤ 19 then some (n ∈ [2, 3, 5, 7, 11, 13, 17, 19])
  else if [2, 3, 5, 7, 11, 13, 17, 19].any (fun d => n % d = 0) then some false
  else trialDivision n fuel 23

def searchDown (fuel : Nat) : Nat → Nat → Option Nat
  | 0, _ => none
  | k + 1, n =>
    if 0 < n then (isPrimeWithin fuel n).bind fun prime => if prime then some n else searchDown fuel k (sizeSub n 2)
    else some 0

def prevPrimeWithin (fuel n : Nat) : Option Nat :=
  if n ≤ 2 then some 2 else searchDown fuel fuel (if n % 2 = 0 then sizeSub n 1 else n)

section Words

variable {n d fuel : Nat}

theorem mul_self_lt (hd : d < 2 ^ 32) : d * d < 2 ^ 64 := by
  have hlt : d * d < 2 ^ 32 * 2 ^ 32 := Nat.mul_lt_mul'' hd hd
  omega

theorem trialDivision_eq (hn : n < 2 ^ 63) (hd : d < 2 ^ 32) (hfuel : n < (d + 2 * fuel) * (d + 2 * fuel)) :
    trialDivision n (fuel + 1) d = some (isPrimeFrom n fuel d) := by
  induction fuel generalizing d with
  | zero =>
    have hlt : n < d * d := hfuel
    rw [trialDivision, Nat.mod_eq_of_lt (mul_self_lt hd), if_neg (by omega), isPrimeFrom]
  | succ fuel ih =>
    rw [trialDivision, Nat.mod_eq_of_lt (mul_self_lt hd), isPrimeFrom]
    split
    case isFalse => rfl
    case isTrue hle =>
      have hroot : d < 2 ^ 32 - 2 := by
        by_contra hge
        have hbig : (2 ^ 32 - 2) * (2 ^ 32 - 2) ≤ d * d := Nat.mul_le_mul (by omega) (by omega)
        omega
      split
      case isTrue => rfl
      case isFalse =>
        rw [sizeAdd_of_lt (by omega)]
        exact ih (by omega) (by rw [show d + 2 + 2 * fuel = d + 2 * (fuel + 1) by omega]; exact hfuel)

theorem isPrimeWithin_eq (hn : n < 2 ^ 63) (hfuel : n < fuel) : isPrimeWithin fuel n = some (isPrime n) := by
  rw [isPrimeWithin, isPrime]
  split
  case isTrue => rfl
  case isFalse =>
    split
    case isTrue => rfl
    case isFalse =>
      split
      case isTrue => rfl
      case isFalse hany =>
        have henough : ∀ k, n ≤ k → n < (23 + 2 * k) * (23 + 2 * k) := fun k hk =>
          Nat.lt_of_lt_of_le (by omega) (Nat.le_mul_of_pos_left (23 + 2 * k) (by omega))
        have hodd : n % 2 = 1 := by
          simp only [List.any_cons, Bool.or_eq_true, decide_eq_true_eq, not_or] at hany
          omega
        obtain ⟨k, rfl⟩ : ∃ k, fuel = k + 1 := ⟨fuel - 1, by omega⟩
        rw [trialDivision_eq hn (by decide) (henough k (by omega)), Option.some.injEq, Bool.eq_iff_iff,
          isPrimeFrom_eq_true hodd rfl (henough k (by omega)), isPrimeFrom_eq_true hodd rfl (henough n (Nat.le_refl n))]

theorem searchDown_eq {k j : Nat} (hn : n < 2 ^ 63) (hfuel : n < fuel) (hodd : n % 2 = 1) (h3 : 3 ≤ n) (hk : n ≤ 2 * k)
    (hj : n ≤ 2 * j) : searchDown fuel k n = some (prevPrimeFrom j n) := by
  induction k generalizing n j with
  | zero => omega
  | succ k ih =>
    obtain ⟨j, rfl⟩ : ∃ i, j = i + 1 := ⟨j - 1, by omega⟩
    rw [searchDown, prevPrimeFrom, if_pos (by omega), if_pos (by omega), isPrimeWithin_eq hn hfuel, Option.bind_some]
    split
    case isTrue => rfl
    case isFalse hp =>
      have hne : n ≠ 3 := by
        rintro rfl
        exact hp rfl
      rw [sizeSub_of_le (by omega)]
      exact ih (by omega) (by omega) (by omega) (by omega) (by omega) (by omega)

/-- **The machine's loops end**, after at most `n + 1` iterations, with the result of the model. -/
theorem prevPrimeWithin_eq (hn : n < 2 ^ 63) (hfuel : n < fuel) : prevPrimeWithin fuel n = some (prevPrime n) := by
  rw [prevPrimeWithin, prevPrime]
  split
  case isTrue => rfl
  case isFalse hgt =>
    rw [sizeSub_of_le (by omega)]
    apply searchDown_eq <;> split <;> omega

end Words

def log4 (n : Nat) : Nat := Nat.log 4 n

section RoundUp

variable {x u : Nat}

theorem roundUp_spec (hu : 0 < u) (h : x + u ≤ 2 ^ 64) (hx : 0 < x) :
    u ∣ roundUp x u ∧ x ≤ roundUp x u ∧ roundUp x u < x + u := by
  have hdiv : (x + u - 1) / u * u ≤ x + u - 1 := Nat.div_mul_le_self _ _
  have hmod := Nat.div_add_mod (x + u - 1) u
  have hlt := Nat.mod_lt (x + u - 1) hu
  rw [Nat.mul_comm] at hmod
  have heq : roundUp x u = (x + u - 1) / u * u := by
    unfold roundUp
    have h1 : sizeSub (sizeAdd x u) 1 = x + u - 1 := by
      unfold sizeSub sizeAdd
      split <;> omega
    rw [h1, Nat.mod_eq_of_lt (by omega)]
  rw [heq]
  exact ⟨Nat.dvd_mul_left _ _, by omega, by omega⟩

end RoundUp

end Rdm
