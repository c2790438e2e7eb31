import Rdm.Core.ProductStore
import Rdm.Lib.RecordLocks
import Rdm.Lib.Transitions

/-!
# Mapped regions and their locks

A `RegionManager` locks a range of the queue file in the kernel before it maps it. Any number of managers run over one
lock table; `seized` is bookkeeping that nothing reads.
-/

namespace Rdm

open RecordLocks List

def EAGAIN : Int := 11

/-- `RegionFlags`. The source gives `Modified` the bit of `Write`. -/
structure RegionFlags where
  noLock : Bool := false
  noWait : Bool := false
  write : Bool := false
deriving DecidableEq

def RegionFlags.lockType (rflags : RegionFlags) : LockType := if rflags.write then .write else .read

structure ActiveRegion where
  offset : Int
  extent : Nat
  rflags : RegionFlags
deriving DecidableEq

/-! ## The active regions -/

def Ordered (l : List ActiveRegion) : Prop := l.Pairwise (·.offset < ·.offset)

def isActive (offset : Int) : List ActiveRegion → Bool
  | [] => false
  | r :: l => if r.offset < offset then isActive offset l else r.offset = offset

def track (new : ActiveRegion) : List ActiveRegion → List ActiveRegion
  | [] => [new]
  | r :: l => if r.offset < new.offset then r :: track new l else new :: r :: l

def untrack (offset : Int) : List ActiveRegion → List ActiveRegion
  | [] => []
  | r :: l => if r.offset < offset then r :: untrack offset l else if r.offset = offset then l else r :: l

variable {r : ActiveRegion} {offset : Int}

theorem mem_track {new : ActiveRegion} : ∀ {l : List ActiveRegion}, r ∈ track new l ↔ r = new ∨ r ∈ l
  | [] => by simp [track]
  | a :: l => by
    rw [track]
    split
    · rw [mem_cons, mem_track, mem_cons]
      exact or_left_comm
    · exact mem_cons

theorem Ordered.track {new : ActiveRegion} : ∀ {l : List ActiveRegion}, Ordered l → isActive new.offset l = false →
    Ordered (track new l)
  | [], _, _ => pairwise_singleton _ _
  | a :: l, h, hno => by
    obtain ⟨ha, hl⟩ := pairwise_cons.1 h
    rw [Rdm.track]
    by_cases hlt : a.offset < new.offset
    · rw [if_pos hlt]
      rw [isActive, if_pos hlt] at hno
      refine pairwise_cons.2 ⟨?_, Ordered.track hl hno⟩
      intro r hr
      rcases mem_track.1 hr with rfl | hr
      · exact hlt
      · exact ha r hr
    · rw [if_neg hlt]
      rw [isActive, if_neg hlt, decide_eq_false_iff_not] at hno
      refine pairwise_cons.2 ⟨?_, h⟩
      intro r hr
      rcases mem_cons.1 hr with rfl | hr
      · omega
      · have := ha r hr
        omega

theorem untrack_sublist (offset : Int) : ∀ l : List ActiveRegion, (untrack offset l).Sublist l
  | [] => List.Sublist.refl _
  | r :: l => by
    rw [untrack]
    split
    · exact (untrack_sublist offset l).cons_cons r
    · split
      · exact sublist_cons_self r l
      · exact List.Sublist.refl _

theorem mem_untrack_of_ne (hne : r.offset ≠ offset) : ∀ {l : List ActiveRegion}, r ∈ l →
    r ∈ untrack offset l
  | a :: l, hr => by
    rw [untrack]
    rcases mem_cons.1 hr with rfl | hr'
    · split
      · exact mem_cons_self
      · exact hr
    · split
      · exact mem_cons_of_mem a (mem_untrack_of_ne hne hr')
      · split
        · exact hr'
        · exact hr

theorem Ordered.untrack {l : List ActiveRegion} (h : Ordered l) (offset : Int) : Ordered (untrack offset l) :=
  h.sublist (untrack_sublist offset l)

theorem Ordered.ne_of_mem_untrack : ∀ {l : List ActiveRegion}, Ordered l →
    r ∈ Rdm.untrack offset l → r.offset ≠ offset
  | a :: l, h, hr => by
    obtain ⟨ha, hl⟩ := pairwise_cons.1 h
    rw [Rdm.untrack] at hr
    split at hr
    · next hlt =>
      rcases mem_cons.1 hr with rfl | hr
      · omega
      · exact Ordered.ne_of_mem_untrack hl hr
    · next hlt =>
      split at hr
      · next heq =>
        have := ha r hr
        omega
      · next hne =>
        rcases mem_cons.1 hr with rfl | hr
        · exact hne
        · have := ha r hr
          omega

theorem Ordered.not_mem_of_inactive : ∀ {l : List ActiveRegion}, Ordered l →
    isActive offset l = false → r ∈ l → r.offset ≠ offset
  | a :: l, h, hno, hr => by
    obtain ⟨ha, hl⟩ := pairwise_cons.1 h
    rw [isActive] at hno
    split at hno
    · next hlt =>
      rcases mem_cons.1 hr with rfl | hr
      · omega
      · exact Ordered.not_mem_of_inactive hl hno hr
    · next hlt =>
      rw [decide_eq_false_iff_not] at hno
      rcases mem_cons.1 hr with rfl | hr
      · exact hno
      · have := ha r hr
        omega

/-! ## The manager -/

structure RegionManager where
  noLock : Bool
  activeRegions : List ActiveRegion
  ordered : Ordered activeRegions

def InLock (offset : Int) (extent : Nat) (b : Int) : Prop :=
  let len : Int := if extent < 2 ^ 63 then extent else extent - 2 ^ 64
  if len = 0 then offset ≤ b else if 0 < len then offset ≤ b ∧ b < offset + len else offset + len ≤ b ∧ b < offset

instance (offset : Int) (extent : Nat) (b : Int) : Decidable (InLock offset extent b) := by
  unfold InLock
  infer_instance

def flockRange (offset : Int) (extent : Nat) : Set Int := {b | InLock offset extent b}

instance (offset : Int) (extent : Nat) : DecidablePred (· ∈ flockRange offset extent) := fun b =>
  decidable_of_iff (InLock offset extent b) Iff.rfl

theorem mem_flockRange {b : Int} {extent : Nat} (hpos : 0 < extent) (hsize : extent < 2 ^ 63) :
    b ∈ flockRange offset extent ↔ offset ≤ b ∧ b < offset + extent := by
  have hlen : (extent : Int) ≠ 0 ∧ (0 : Int) < extent := by omega
  change InLock offset extent b ↔ _
  simp only [InLock, if_pos hsize, if_neg hlen.1, if_pos hlen.2]

namespace RegionManager

variable {P : Type} [DecidableEq P]

def locks (m : RegionManager) (rflags : RegionFlags) : Bool := !(rflags.noLock || m.noLock)

def lockKernelRegion (m : RegionManager) (p : P) (offset : Int) (extent : Nat) (rflags : RegionFlags) (answer : Int)
    (k : LockTable P Int) : Int × LockTable P Int :=
  if m.locks rflags then
    (answer, if answer = 0 then k.set p (flockRange offset extent) (some rflags.lockType) else k)
  else (0, k)

def unlockKernelRegion (m : RegionManager) (p : P) (offset : Int) (extent : Nat) (rflags : RegionFlags)
    (k : LockTable P Int) : LockTable P Int :=
  if m.locks rflags then k.set p (flockRange offset extent) none else k

def getRegion (m : RegionManager) (p : P) (offset : Int) (extent : Nat) (rflags : RegionFlags) (answer fetched : Int)
    (k : LockTable P Int) : Option ActiveRegion × RegionManager × LockTable P Int :=
  if h : isActive offset m.activeRegions = true then (none, m, k)
  else
    let (status, k) := m.lockKernelRegion p offset extent rflags answer k
    if status ≠ 0 ∧ status ≠ EAGAIN ∧ status ≠ EACCES then (none, m, k)
    else if fetched ≠ 0 then (none, m, m.unlockKernelRegion p offset extent rflags k)
    else
      let new : ActiveRegion := ⟨offset, extent, rflags⟩
      (some new, { m with
        activeRegions := track new m.activeRegions
        ordered := m.ordered.track (Bool.eq_false_iff.2 h) }, k)

def releaseRegion (m : RegionManager) (p : P) (r : ActiveRegion) (k : LockTable P Int) :
    RegionManager × LockTable P Int :=
  if isActive r.offset m.activeRegions then
    ({ m with activeRegions := untrack r.offset m.activeRegions, ordered := m.ordered.untrack r.offset },
      m.unlockKernelRegion p r.offset r.extent r.rflags k)
  else (m, k)

end RegionManager

end Rdm
