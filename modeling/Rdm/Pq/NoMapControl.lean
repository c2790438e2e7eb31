import Rdm.Pq.IndexRuns
import Rdm.Pq.ProductQueue
import Rdm.Pq.RegionManager
import Rdm.Pq.WriteCount

/-!
# The control region of processes without memory maps

With `PqFlags::NoMap` a mapped region is a copy that is read from the file and written back, and `notifyReaders` copies
the control region without a lock. Every `pread` and `pwrite` is an action.
-/

namespace Rdm

open RecordLocks

/-! ## The processes -/

structure ControlFields where
  writers : ControlHeader
  metrics : Metrics
  isFull : Bool
deriving DecidableEq

structure Pqctl where
  fields : ControlFields
  version : UInt64
deriving DecidableEq

def Pqctl.notify (status : Int) (ctl : Pqctl) : Pqctl :=
    if status = 0 then { ctl with version := ctl.version + 1 } else ctl

theorem Pqctl.notify_fields (status : Int) (ctl : Pqctl) : (ctl.notify status).fields = ctl.fields := by
  unfold Pqctl.notify
  split <;> rfl

/-- Where a process is: outside; in a `ControlLock`, with or without the copy; in `notifyReaders`, before and after
`Notify`. Noted is what the process has done to its copy. -/
inductive CopyStage where
  | outside
  | locked (rflags : RegionFlags)
  | mapped (rflags : RegionFlags) (ctl : Pqctl) (change : ControlFields → ControlFields)
  | committed (rflags : RegionFlags)
  | notifying (ctl : Pqctl)
  | notified (status : Int) (ctl : Pqctl)

namespace CopyStage

def Notifies : CopyStage → Prop
  | .notifying _ | .notified _ _ => True
  | _ => False

def WillWrite : CopyStage → Prop
  | .mapped rflags _ _ => rflags.write = true
  | _ => False

def lockFlags : CopyStage → Option RegionFlags
  | .locked rflags | .mapped rflags _ _ | .committed rflags => some rflags
  | _ => none

def Current (file : Pqctl) : CopyStage → Prop
  | .mapped _ ctl change => ctl = { file with fields := change file.fields }
  | .notifying ctl => ctl = file
  | .notified status ctl => ctl = file.notify status
  | _ => True

end CopyStage

/-- The locks, the control region in the file and the processes. Noted are what the fields would be if all changes had
been made one after the other, and how many notifications are complete. -/
structure NoMapControl (P : Type) where
  table : LockTable P Int
  file : Pqctl
  stage : P → CopyStage
  updated : ControlFields
  notifications : Nat

/-- The actions of a process. An operation under the lock may change its copy in any way, but for the version. -/
inductive CopyAct (P : Type) where
  | lockKernelRegion (p : P) (rflags : RegionFlags)
  | fetch (p : P)
  | update (p : P) (change : ControlFields → ControlFields)
  | commit (p : P)
  | unlockKernelRegion (p : P)
  | fetchToNotify (p : P)
  | notify (p : P) (status : Int)
  | commitNotified (p : P)

namespace NoMapControl

variable {P : Type} {D : DataSection} {x y : NoMapControl P} {p q : P} {version : UInt64}

def range (D : DataSection) : Set Int := flockRange 0 D.datao.toNat

instance : DecidablePred (· ∈ range D) := inferInstanceAs (DecidablePred (· ∈ flockRange 0 D.datao.toNat))

def goto [DecidableEq P] (p : P) (stage : CopyStage) (x : NoMapControl P) : NoMapControl P :=
  { x with stage := Function.update x.stage p stage }

def next (D : DataSection) [DecidableEq P] : CopyAct P → NoMapControl P → Option (NoMapControl P)
  | .lockKernelRegion p rflags, x =>
    match x.stage p with
    | .outside => some { x.goto p (.locked rflags) with table := x.table.set p (range D) (some rflags.lockType) }
    | _ => none
  | .fetch p, x =>
    match x.stage p with
    | .locked rflags => some (x.goto p (.mapped rflags x.file id))
    | _ => none
  | .update p change, x =>
    match x.stage p with
    | .mapped rflags ctl done =>
      if rflags.write = true then
        some (x.goto p (.mapped rflags { ctl with fields := change ctl.fields } (change ∘ done)))
      else none
    | _ => none
  | .commit p, x =>
    match x.stage p with
    | .mapped rflags ctl done =>
      if rflags.write = true then some { x.goto p (.committed rflags) with file := ctl, updated := done x.updated }
      else some (x.goto p (.committed rflags))
    | _ => none
  | .unlockKernelRegion p, x =>
    match x.stage p with
    | .committed _ => some { x.goto p .outside with table := x.table.set p (range D) none }
    | _ => none
  | .fetchToNotify p, x =>
    match x.stage p with
    | .outside => some (x.goto p (.notifying x.file))
    | _ => none
  | .notify p status, x =>
    match x.stage p with
    | .notifying ctl => some (x.goto p (.notified status (ctl.notify status)))
    | _ => none
  | .commitNotified p, x =>
    match x.stage p with
    | .notified status ctl =>
      some { x.goto p .outside with
        file := ctl
        notifications := if status = 0 then x.notifications + 1 else x.notifications }
    | _ => none

def KernelGrants (D : DataSection) (x : NoMapControl P) : CopyAct P → Prop
  | .lockKernelRegion p rflags => x.table.Grants p rflags.lockType (range D)
  | _ => True

def Undisturbed (x : NoMapControl P) : CopyAct P → Prop
  | .commit p => (x.stage p).WillWrite → ∀ q, q ≠ p → ¬ (x.stage q).Notifies
  | .commitNotified p => ∀ q, q ≠ p → ¬ (x.stage q).Notifies ∧ ¬ (x.stage q).WillWrite
  | _ => True

structure Start (version : UInt64) (x : NoMapControl P) : Prop where
  unlocked : ∀ p b, x.table.locks p b = none
  outside : ∀ p, x.stage p = .outside
  updated : x.updated = x.file.fields
  version : x.file.version = version
  notifications : x.notifications = 0

/-- **The states of all interleavings** whose actions have the property `C`. -/
def Reached (D : DataSection) [DecidableEq P] (C : NoMapControl P → CopyAct P → Prop) (version : UInt64) :
    NoMapControl P → Prop :=
  Transitions.Reached (next D) (fun x a => KernelGrants D x a ∧ C x a) (Start version)

/-! ## The invariant -/

/-- **Every copy that will be written back is up to date**, and the file has all changes. -/
structure Inv (version : UInt64) (x : NoMapControl P) : Prop where
  exclusive : x.table.Exclusive
  held : ∀ p rflags, (x.stage p).lockFlags = some rflags → x.table.locks p 0 = some rflags.lockType
  current : ∀ p, (x.stage p).Notifies ∨ (x.stage p).WillWrite → (x.stage p).Current x.file
  updated : x.file.fields = x.updated
  counted : x.file.version = version + UInt64.ofNat x.notifications

theorem zero_mem_range (D : DataSection) : (0 : Int) ∈ range D := by
  have h1 := D.header
  have h2 := D.nonempty
  have h3 := D.fits
  have hhuge : hugeOff = 2 ^ 63 - 1 := rfl
  refine (mem_flockRange (by omega) (by omega)).2 ⟨Int.le_refl 0, by omega⟩

theorem Start.inv (h : x.Start version) : x.Inv version where
  exclusive p q b _ _ := h.unlocked q b
  held p rflags hl := by
    rw [h.outside p] at hl
    cases hl
  current p hp := by
    rw [h.outside p] at hp
    rcases hp with hp | hp
    · cases hp
    · cases hp
  updated := h.updated.symm
  counted := by
    rw [h.version, h.notifications]
    exact (UInt64.add_zero version).symm

/-- **Only one process writes**: two copies under the lock are not both written back. -/
theorem Inv.alone (h : x.Inv version) (hp : (x.stage p).WillWrite) (hne : q ≠ p) : ¬ (x.stage q).WillWrite := by
  have hlock : ∀ r, (x.stage r).WillWrite → x.table.locks r 0 = some .write := by
    intro r hr
    cases hs : x.stage r with
    | mapped rflags ctl change =>
      rw [hs] at hr
      have hw : rflags.write = true := hr
      have hl := h.held r rflags (by rw [hs]; rfl)
      rwa [RegionFlags.lockType, if_pos hw] at hl
    | _ =>
      rw [hs] at hr
      cases hr
  intro hq
  have hnone := h.exclusive p q 0 (Ne.symm hne) (hlock p hp)
  rw [hlock q hq] at hnone
  cases hnone

section Steps

variable [DecidableEq P] {version : UInt64} {stage : CopyStage} {rflags : RegionFlags} {ctl : Pqctl}

theorem goto_self : (x.goto p stage).stage p = stage := Function.update_self ..

theorem goto_other (hne : q ≠ p) : (x.goto p stage).stage q = x.stage q := Function.update_of_ne hne ..

theorem Inv.goto (h : x.Inv version)
    (hheld : ∀ rflags, stage.lockFlags = some rflags → x.table.locks p 0 = some rflags.lockType)
    (hcurrent : stage.Notifies ∨ stage.WillWrite → stage.Current x.file) : (x.goto p stage).Inv version := by
  refine { h with held := fun q rflags hl => ?_, current := fun q hq => ?_ }
  · rcases eq_or_ne q p with rfl | hne
    · rw [goto_self] at hl
      exact hheld rflags hl
    · rw [goto_other hne] at hl
      exact h.held q rflags hl
  · rcases eq_or_ne q p with rfl | hne
    · rw [goto_self] at hq ⊢
      exact hcurrent hq
    · rw [goto_other hne] at hq ⊢
      exact h.current q hq

theorem Inv.relock (h : x.Inv version) {t : Option LockType} (hex : (x.table.set p (range D) t).Exclusive)
    (hheld : ∀ rflags, stage.lockFlags = some rflags → t = some rflags.lockType)
    (hcopy : ¬ stage.Notifies ∧ ¬ stage.WillWrite) :
    Inv version { x.goto p stage with table := x.table.set p (range D) t } := by
  refine { h with exclusive := hex, held := fun q rflags hl => ?_, current := fun q hq => ?_ }
  · rcases eq_or_ne q p with rfl | hne
    · simp only [goto_self] at hl
      rw [LockTable.set_in (zero_mem_range D)]
      exact hheld rflags hl
    · simp only [goto_other hne] at hl
      rw [LockTable.set_other hne]
      exact h.held q rflags hl
  · rcases eq_or_ne q p with rfl | hne
    · simp only [goto_self] at hq
      exact absurd hq (not_or.2 hcopy)
    · simp only [goto_other hne] at hq ⊢
      exact h.current q hq

theorem Inv.write (h : x.Inv version) (hothers : ∀ q, q ≠ p → ¬ (x.stage q).Notifies ∧ ¬ (x.stage q).WillWrite)
    (hheld : ∀ rflags, stage.lockFlags = some rflags → x.table.locks p 0 = some rflags.lockType)
    (hcopy : ¬ stage.Notifies ∧ ¬ stage.WillWrite) {updated : ControlFields} {n : Nat} (hfields : ctl.fields = updated)
    (hversion : ctl.version = version + UInt64.ofNat n) :
    Inv version { x.goto p stage with file := ctl, updated := updated, notifications := n } := by
  refine { h with held := fun q rflags hl => ?_, current := fun q hq => ?_, updated := hfields, counted := hversion }
  · rcases eq_or_ne q p with rfl | hne
    · simp only [goto_self] at hl
      exact hheld rflags hl
    · simp only [goto_other hne] at hl
      exact h.held q rflags hl
  · rcases eq_or_ne q p with rfl | hne
    · simp only [goto_self] at hq
      exact absurd hq (not_or.2 hcopy)
    · simp only [goto_other hne] at hq
      exact absurd hq (not_or.2 (hothers q hne))

/-! ## The actions -/

theorem Inv.commit (h : x.Inv version) (hc : x.Undisturbed (.commit p)) (hn : next D (.commit p) x = some y) :
    y.Inv version := by
  rw [next] at hn
  cases hs : x.stage p with
  | mapped rflags ctl change =>
    simp only [hs] at hn
    have hheld : ∀ f, (CopyStage.committed rflags).lockFlags = some f → x.table.locks p 0 = some f.lockType :=
      fun f hf => h.held p f (by rw [hs]; exact hf)
    split at hn
    case isTrue hw =>
      cases hn
      have hwill : (x.stage p).WillWrite := by
        rw [hs]
        exact hw
      have hcur := h.current p (.inr hwill)
      rw [hs] at hcur
      refine h.write (fun q hne => ⟨hc hwill q hne, h.alone hwill hne⟩) hheld ⟨id, id⟩ ?_ ?_
      · rw [hcur, h.updated]
      · rw [hcur]
        exact h.counted
    case isFalse =>
      cases hn
      exact h.goto hheld fun hor => hor.elim False.elim False.elim
  | _ =>
    simp only [hs] at hn
    cases hn

theorem Inv.commitNotified (h : x.Inv version) (hc : x.Undisturbed (.commitNotified p))
    (hn : next D (.commitNotified p) x = some y) : y.Inv version := by
  rw [next] at hn
  cases hs : x.stage p with
  | notified status ctl =>
    simp only [hs] at hn
    cases hn
    have hcur := h.current p (.inl (by rw [hs]; trivial))
    rw [hs] at hcur
    refine h.write hc (fun _ hf => by cases hf) ⟨id, id⟩ ?_ ?_
    · rw [hcur, Pqctl.notify_fields, h.updated]
      rfl
    · rw [hcur, Pqctl.notify]
      split
      case isTrue =>
        show x.file.version + 1 = _
        rw [h.counted, UInt64.ofNat_add, UInt64.add_assoc]
        rfl
      case isFalse => exact h.counted
  | _ =>
    simp only [hs] at hn
    cases hn

/-- **Every undisturbed action keeps the invariant.** -/
theorem Inv.next {a : CopyAct P} (h : x.Inv version) (hk : KernelGrants D x a) (hc : x.Undisturbed a)
    (hn : next D a x = some y) : y.Inv version := by
  cases a with
  | lockKernelRegion p rflags =>
    rw [NoMapControl.next] at hn
    split at hn
    case h_1 =>
      cases hn
      refine h.relock (h.exclusive.grant hk) (fun f hf => ?_) ⟨id, id⟩
      cases hf
      rfl
    case h_2 => cases hn
  | fetch p =>
    rw [NoMapControl.next] at hn
    split at hn
    case h_1 rflags hs =>
      cases hn
      exact h.goto (fun f hf => h.held p f (by rw [hs]; exact hf)) fun _ => rfl
    case h_2 => cases hn
  | update p change =>
    rw [NoMapControl.next] at hn
    split at hn
    case h_1 rflags ctl done hs =>
      split at hn
      case isTrue hw =>
        cases hn
        refine h.goto (fun f hf => h.held p f (by rw [hs]; exact hf)) fun _ => ?_
        have hcur := h.current p (.inr (by rw [hs]; exact hw))
        rw [hs] at hcur
        have hctl : ctl = { x.file with fields := done x.file.fields } := hcur
        rw [hctl]
        rfl
      case isFalse => cases hn
    case h_2 => cases hn
  | commit p => exact h.commit hc hn
  | unlockKernelRegion p =>
    rw [NoMapControl.next] at hn
    split at hn
    case h_1 =>
      cases hn
      exact h.relock h.exclusive.unlock (fun _ hf => by cases hf) ⟨id, id⟩
    case h_2 => cases hn
  | fetchToNotify p =>
    rw [NoMapControl.next] at hn
    split at hn
    case h_1 =>
      cases hn
      exact h.goto (fun _ hf => by cases hf) fun _ => rfl
    case h_2 => cases hn
  | notify p status =>
    rw [NoMapControl.next] at hn
    split at hn
    case h_1 ctl hs =>
      cases hn
      refine h.goto (fun _ hf => by cases hf) fun _ => ?_
      have hcur := h.current p (.inl (by rw [hs]; trivial))
      rw [hs] at hcur
      exact congrArg (Pqctl.notify status) hcur
    case h_2 => cases hn
  | commitNotified p => exact h.commitNotified hc hn

/-- **Nothing is lost without disturbance**: in every interleaving in which nobody writes the control region between the
`pread` and the `pwrite` of a process where one of the two is in `notifyReaders`, the file has all changes under the
lock, and the version counts the complete notifications. -/
theorem control_updates_kept {P : Type} [DecidableEq P] {D : DataSection} {version : UInt64} {x : NoMapControl P}
    (h : Reached D Undisturbed version x) :
    x.file.fields = x.updated ∧ x.file.version = version + UInt64.ofNat x.notifications := by
  have hi : x.Inv version := h.invariant (fun _ hx => hx.inv) fun _ _ _ hx hp hn => hx.next hp.1 hp.2 hn
  exact ⟨hi.updated, hi.counted⟩

end Steps

/-! ## Two processes -/

theorem Reached.act [DecidableEq P] {C : NoMapControl P → CopyAct P → Prop} (a : CopyAct P)
    (h : Reached D C version x) (hn : next D a x = some y) (hk : KernelGrants D x a) (hc : C x a) :
    Reached D C version y :=
  Transitions.Reached.step h ⟨hk, hc⟩ hn

def quiet : NoMapControl Bool where
  table := ⟨fun _ _ => none⟩
  file := ⟨⟨.initializeControlHeader, ⟨0, 0, Timestamp.NONE, Timestamp.NONE, -1, 0⟩, false⟩, 0⟩
  stage := fun _ => .outside
  updated := ⟨.initializeControlHeader, ⟨0, 0, Timestamp.NONE, Timestamp.NONE, -1, 0⟩, false⟩
  notifications := 0

theorem quiet_start : quiet.Start 0 := ⟨fun _ _ => rfl, fun _ => rfl, rfl, rfl, rfl⟩

def markAt (now : Timestamp) (fields : ControlFields) : ControlFields :=
  { fields with metrics := { fields.metrics with mostRecent := now } }

/-- A commit of one process, then a notification of the other. -/
theorem control_updates_kept_commit : ∃ x : NoMapControl Bool, Reached QueueIndexManager.smallSection Undisturbed 0 x ∧
    x.notifications = 1 ∧ x.file.fields = markAt ⟨1, 0⟩ quiet.file.fields ∧ x.file.fields = x.updated ∧
    x.file.version = 0 + UInt64.ofNat x.notifications := by
  have h0 : Reached QueueIndexManager.smallSection Undisturbed 0 quiet := .start quiet_start
  have h1 := h0.act (.lockKernelRegion true { write := true }) rfl (fun _ _ _ _ => Or.inl rfl) trivial
  have h2 := h1.act (.fetch true) rfl trivial trivial
  have h3 := h2.act (.update true (markAt ⟨1, 0⟩)) rfl trivial trivial
  have h4 := h3.act (.commit true) rfl trivial (fun _ q hq => by cases q; exacts [id, absurd rfl hq])
  have h5 := h4.act (.unlockKernelRegion true) rfl trivial trivial
  have h6 := h5.act (.fetchToNotify false) rfl trivial trivial
  have h7 := h6.act (.notify false 0) rfl trivial trivial
  have h8 := h7.act (.commitNotified false) rfl trivial (fun q hq => by cases q; exacts [absurd rfl hq, ⟨id, id⟩])
  exact ⟨_, h8, rfl, rfl, control_updates_kept h8⟩

/-- A commit between the `pread` and the `pwrite` of a notification is overwritten. Of two notifications that overlap,
one is not counted. -/
theorem control_update_lost :
    (∃ x : NoMapControl Bool, Reached QueueIndexManager.smallSection (fun _ _ => True) 0 x ∧
      x.updated = markAt ⟨1, 0⟩ quiet.file.fields ∧ x.file.fields = quiet.file.fields ∧ x.file.fields ≠ x.updated) ∧
    ∃ x : NoMapControl Bool, Reached QueueIndexManager.smallSection (fun _ _ => True) 0 x ∧ x.notifications = 2 ∧
      x.file.version = 1 := by
  have h0 : Reached QueueIndexManager.smallSection (fun _ _ => True) 0 quiet := .start quiet_start
  have h1 := h0.act (.fetchToNotify false) rfl trivial trivial
  have h2 := h1.act (.notify false 0) rfl trivial trivial
  constructor
  · have h3 := h2.act (.lockKernelRegion true { write := true }) rfl (fun _ _ _ _ => Or.inl rfl) trivial
    have h4 := h3.act (.fetch true) rfl trivial trivial
    have h5 := h4.act (.update true (markAt ⟨1, 0⟩)) rfl trivial trivial
    have h6 := h5.act (.commit true) rfl trivial trivial
    have h7 := h6.act (.unlockKernelRegion true) rfl trivial trivial
    have h8 := h7.act (.commitNotified false) rfl trivial trivial
    exact ⟨_, h8, rfl, rfl, by decide⟩
  · have h3 := h2.act (.fetchToNotify true) rfl trivial trivial
    have h4 := h3.act (.notify true 0) rfl trivial trivial
    have h5 := h4.act (.commitNotified false) rfl trivial trivial
    have h6 := h5.act (.commitNotified true) rfl trivial trivial
    exact ⟨_, h6, rfl, rfl⟩

end NoMapControl

end Rdm
