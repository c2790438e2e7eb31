import Rdm.Lib.RecordLocks
import Rdm.Lib.Transitions
import Rdm.Core.ProductStore

/-!
# Recursive locks between processes

`SemaphoreRWLock` counts the nested locks of a process. The counters say which lock it has, as long as none of them
wraps around in its 32 bits (`nested_too_deep`).
-/

namespace Rdm

open RecordLocks
open Function (update update_self update_of_ne)

def EDEADLK : Int := 35

/-- The locks of the file, and how often each process has locked it for reading and for writing. -/
structure RWLocks (P : Type) where
  table : LockTable P Nat
  count : P → LockType → Nat

/-- The calls, with the answer of `fcntl` to a lock that is asked for. -/
inductive RWCall (P : Type) where
  | lockRead (p : P) (answer : Int)
  | lockWrite (p : P) (answer : Int)
  | unlock (p : P)

namespace RWLocks

variable {P : Type} [DecidableEq P] {x y : RWLocks P} {p q : P} {t : LockType} {answer : Int}

def setCount (x : RWLocks P) (p : P) (t : LockType) (n : Nat) : RWLocks P :=
  { x with count := update x.count p (update (x.count p) t n) }

def performLock (x : RWLocks P) (p : P) (t : Option LockType) : RWLocks P :=
    { x with table := x.table.set p Set.univ t }

def lock (t other : LockType) (p : P) (answer : Int) (x : RWLocks P) : Int × RWLocks P :=
  if 0 < x.count p other then (EDEADLK, x)
  else if 0 < x.count p t then (0, x.setCount p t ((x.count p t + 1) % 2 ^ 32))
  else if answer = 0 then (0, (x.performLock p (some t)).setCount p t 1)
  else (answer, x)

def lockRead : P → Int → RWLocks P → Int × RWLocks P := lock .read .write

def lockWrite : P → Int → RWLocks P → Int × RWLocks P := lock .write .read

def release (t : LockType) (p : P) (x : RWLocks P) : RWLocks P :=
  if 1 < x.count p t then x.setCount p t (x.count p t - 1)
  else (x.setCount p t (x.count p t - 1)).performLock p none

def unlock (p : P) (x : RWLocks P) : Int × RWLocks P :=
  if 0 < x.count p .write then (0, release .write p x)
  else if 0 < x.count p .read then (0, release .read p x)
  else (0, x)

def call : RWCall P → RWLocks P → Int × RWLocks P
  | .lockRead p answer => lockRead p answer
  | .lockWrite p answer => lockWrite p answer
  | .unlock p => unlock p

def KernelAnswers (x : RWLocks P) : RWCall P → Prop
  | .lockRead p answer => (∀ t, x.count p t = 0) → answer = 0 → x.table.Grants p .read Set.univ
  | .lockWrite p answer => (∀ t, x.count p t = 0) → answer = 0 → x.table.Grants p .write Set.univ
  | .unlock _ => True

def Counts (x : RWLocks P) : RWCall P → Prop
  | .lockRead p _ => x.count p .read + 1 < 2 ^ 32
  | .lockWrite p _ => x.count p .write + 1 < 2 ^ 32
  | .unlock _ => True

/-! ## The counters and the locks -/

/-- **The counters say which lock a process has**, and no other process has one beside a lock for writing. -/
structure Inv (x : RWLocks P) : Prop where
  exclusive : x.table.Exclusive
  held : ∀ p, ∃ held : Option LockType, (∀ b, x.table.locks p b = held) ∧ ∀ t, 0 < x.count p t ↔ held = some t

theorem setCount_self (n : Nat) : (x.setCount p t n).count p = update (x.count p) t n := update_self ..

theorem setCount_of_ne (hq : q ≠ p) (n : Nat) : (x.setCount p t n).count q = x.count q := update_of_ne hq ..

theorem Inv.recount (h : x.Inv) (ht : 0 < x.count p t) {n : Nat} (hn : 0 < n) : (x.setCount p t n).Inv := by
  refine ⟨h.exclusive, fun q => ?_⟩
  obtain ⟨held, hlocks, hheld⟩ := h.held q
  refine ⟨held, hlocks, fun t' => ?_⟩
  by_cases hq : q = p
  · subst hq
    rw [setCount_self]
    by_cases he : t' = t
    · subst he
      simp [(hheld t').1 ht, hn]
    · rw [update_of_ne he]
      exact hheld t'
  · rw [setCount_of_ne hq]
    exact hheld t'

theorem Inv.relock (h : x.Inv) {held : Option LockType} {n : Nat} (hex : (x.table.set p Set.univ held).Exclusive)
    (hheld : ∀ t', 0 < update (x.count p) t n t' ↔ held = some t') : ((x.setCount p t n).performLock p held).Inv := by
  refine ⟨hex, fun q => ?_⟩
  by_cases hq : q = p
  · subst hq
    refine ⟨held, fun b => LockTable.set_in (Set.mem_univ b) _, fun t' => ?_⟩
    rw [← hheld t', ← setCount_self]
    rfl
  · obtain ⟨other, hlocks, hother⟩ := h.held q
    refine ⟨other, fun b => (LockTable.set_other hq _).trans (hlocks b), fun t' => ?_⟩
    rw [← hother t', show ((x.setCount p t n).performLock p held).count q = x.count q from setCount_of_ne hq n]

theorem Inv.lock {other : LockType} (h : x.Inv) (hother : ∀ t', t' = t ∨ t' = other) (hmax : x.count p t + 1 < 2 ^ 32)
    (hg : (∀ t, x.count p t = 0) → answer = 0 → x.table.Grants p t Set.univ) : (lock t other p answer x).2.Inv := by
  unfold RWLocks.lock
  split_ifs with ho ht ha
  · exact h
  · exact h.recount ht (by rw [Nat.mod_eq_of_lt hmax]; omega)
  · have hzero : ∀ t', x.count p t' = 0 := fun t' => by
      rcases hother t' with rfl | rfl <;> omega
    apply h.relock (h.exclusive.grant (hg hzero ha))
    intro t'
    by_cases he : t' = t
    · simp [he]
    · simp [update_of_ne he, hzero t', Ne.symm he]
  · exact h

theorem Inv.release (h : x.Inv) (ht : 0 < x.count p t) : (release t p x).Inv := by
  unfold RWLocks.release
  split_ifs with hmore
  · exact h.recount ht (by omega)
  · apply h.relock h.exclusive.unlock
    intro t'
    obtain ⟨held, -, hheld⟩ := h.held p
    have hone : x.count p t - 1 = 0 := by omega
    by_cases he : t' = t
    · simp [he, hone]
    · have hnot : ¬0 < x.count p t' := fun ht' => he (Option.some.inj (((hheld t').1 ht').symm.trans ((hheld t).1 ht)))
      simp [update_of_ne he, hnot]

theorem Inv.call (h : x.Inv) {c : RWCall P} (hk : x.KernelAnswers c) (hc : x.Counts c) : (call c x).2.Inv := by
  cases c with
  | lockRead p answer => exact h.lock (fun t' => by cases t' <;> simp) hc hk
  | lockWrite p answer => exact h.lock (fun t' => by cases t' <;> simp) hc hk
  | unlock p =>
    simp only [RWLocks.call, RWLocks.unlock]
    split_ifs with hw hr
    · exact h.release hw
    · exact h.release hr
    · exact h

/-! ## Runs -/

def fresh : RWLocks P := ⟨⟨fun _ _ => none⟩, fun _ _ => 0⟩

abbrev Reached (A : RWLocks P → RWCall P → Prop) : RWLocks P → Prop :=
  Transitions.Reached (fun c x => some (call c x).2) A (· = fresh)

/-- **A counter is positive exactly if the process has the lock**, in every run in which no counter wraps around, and
beside a writer nobody has locked. -/
theorem counters_are_locks (h : Reached (fun x c => x.KernelAnswers c ∧ x.Counts c) x) (p : P) :
    (x.count p .read = 0 ∨ x.count p .write = 0) ∧ (∀ t, 0 < x.count p t → ∀ b, x.table.locks p b = some t)
      ∧ ((∀ t, x.count p t = 0) → ∀ b, x.table.locks p b = none)
      ∧ (0 < x.count p .write → ∀ q, q ≠ p → ∀ t, x.count q t = 0) := by
  have hinv : x.Inv := by
    apply h.invariant
    · rintro _ rfl
      exact ⟨fun _ _ _ _ _ => rfl, fun _ => ⟨none, fun _ => rfl, fun _ => by simp [fresh]⟩⟩
    · intro x c y hx hc hy
      cases hy
      exact hx.call hc.1 hc.2
  obtain ⟨held, hlocks, hheld⟩ := hinv.held p
  refine ⟨?_, fun t ht b => (hlocks b).trans ((hheld t).1 ht), fun hzero b => ?_, fun hw q hq t => ?_⟩
  · by_contra hboth
    have hr := (hheld .read).1 (by omega)
    have hw := (hheld .write).1 (by omega)
    cases hr.symm.trans hw
  · rw [hlocks]
    cases held with
    | none => rfl
    | some t => exact absurd ((hheld t).2 rfl) (by rw [hzero t]; decide)
  · obtain ⟨other, hother, hcount⟩ := hinv.held q
    have hnone := hinv.exclusive p q 0 hq.symm ((hlocks 0).trans ((hheld .write).1 hw))
    by_contra hne
    have := (hcount t).1 (Nat.pos_of_ne_zero hne)
    rw [← hother 0, hnone] at this
    cases this

theorem counters_are_locks_writer : Reached (fun x c => x.KernelAnswers c ∧ x.Counts c)
    (lockWrite (0 : Fin 2) 0 fresh).2 ∧ ∀ t, (lockWrite (0 : Fin 2) 0 fresh).2.count 1 t = 0 := by
  have hr : Reached (fun x c => x.KernelAnswers c ∧ x.Counts c) (lockWrite (0 : Fin 2) 0 fresh).2 :=
    .step (a := .lockWrite 0 0) (.start rfl) ⟨fun _ _ _ _ _ _ => Or.inl rfl, show 0 + 1 < 2 ^ 32 by decide⟩ rfl
  exact ⟨hr, (counters_are_locks hr 0).2.2.2 (by decide) 1 (by decide)⟩

theorem nested_reached {n : Nat} (hn : n < 2 ^ 32) : ∃ x : RWLocks Unit, Reached KernelAnswers x
    ∧ x.count () .read = (n + 1) % 2 ^ 32 ∧ x.count () .write = 0 ∧ ∀ b, x.table.locks () b = some .read := by
  induction n with
  | zero =>
    refine ⟨_, .step (a := .lockRead () 0) (.start rfl) (fun _ _ q hq => absurd rfl hq) rfl, ?_⟩
    exact ⟨by decide, by decide, fun b => LockTable.set_in (Set.mem_univ b) _⟩
  | succ n ih =>
    obtain ⟨x, hx, hread, hwrite, hlocks⟩ := ih (by omega)
    rw [Nat.mod_eq_of_lt hn] at hread
    have hcall : (call (.lockRead () 0) x).2 = x.setCount () .read ((n + 1 + 1) % 2 ^ 32) := by
      simp only [call, lockRead, lock, hread, hwrite]
      rfl
    refine ⟨_, .step (a := .lockRead () 0) hx (fun hzero => absurd (hzero .read) (by omega)) (congrArg some hcall), ?_⟩
    refine ⟨by rw [setCount_self, update_self], ?_, hlocks⟩
    rw [setCount_self, update_of_ne (by decide), hwrite]

/-- After `2 ^ 32` nested locks both counters are zero, and the process still has the lock. -/
theorem nested_too_deep : ∃ x : RWLocks Unit, Reached KernelAnswers x ∧ (∀ t, x.count () t = 0)
    ∧ ∀ b, x.table.locks () b = some .read := by
  obtain ⟨x, hx, hread, hwrite, hlocks⟩ := @nested_reached (2 ^ 32 - 1) (by decide)
  exact ⟨x, hx, fun t => by cases t <;> assumption, hlocks⟩

end RWLocks

end Rdm
