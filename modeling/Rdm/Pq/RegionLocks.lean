import Rdm.Pq.RegionManager

/-!
# Processes that map the regions of one queue

`Backed` ties the regions of a manager to the locks of its process. This gives mutual exclusion as long as every call is
`Careful`.
-/

namespace Rdm

open RecordLocks List
open Function (update update_of_ne update_self)

variable {P : Type}

/-! ## Regions and bytes -/

def ActiveRegion.Covers (r : ActiveRegion) (b : Int) : Prop := r.offset ≤ b ∧ b < r.offset + r.extent

def ActiveRegion.Apart (r r' : ActiveRegion) : Prop := ∀ b, r.Covers b → ¬ r'.Covers b

namespace RegionManager

def Locked (m : RegionManager) (r : ActiveRegion) : Prop := r ∈ m.activeRegions ∧ m.locks r.rflags = true

def InControlLock (m : RegionManager) : Prop := ∃ r ∈ m.activeRegions, m.locks r.rflags = true ∧ r.offset = 0

def InWriteControlLock (m : RegionManager) : Prop :=
  ∃ r ∈ m.activeRegions, m.locks r.rflags = true ∧ r.offset = 0 ∧ r.rflags.write = true

instance (m : RegionManager) : Decidable m.InWriteControlLock :=
  inferInstanceAs (Decidable (∃ r ∈ m.activeRegions, m.locks r.rflags = true ∧ r.offset = 0 ∧ r.rflags.write = true))

/-- **The locks behind the regions of a process.** -/
structure Backed (m : RegionManager) (own : Int → Option LockType) : Prop where
  sized : ∀ r, m.Locked r → 0 < r.extent ∧ r.extent < 2 ^ 63
  held : ∀ r, m.Locked r → ∀ b, r.Covers b → own b = some r.rflags.lockType
  apart : ∀ r r', m.Locked r → m.Locked r' → r.offset ≠ r'.offset → r.Apart r'

variable {m m' : RegionManager} {own own' : Int → Option LockType} {new : ActiveRegion}

theorem Backed.restrict (h : m.Backed own) (hsub : ∀ r, m'.Locked r → m.Locked r)
    (hown : ∀ r b, m'.Locked r → r.Covers b → own' b = own b) : m'.Backed own' where
  sized r hr := h.sized r (hsub r hr)
  held r hr b hb := (hown r b hr hb).trans (h.held r (hsub r hr) b hb)
  apart r r' hr hr' hne := h.apart r r' (hsub r hr) (hsub r' hr') hne

theorem Backed.extend (h : m.Backed own) (hsize : 0 < new.extent ∧ new.extent < 2 ^ 63)
    (hlocked : ∀ r, m'.Locked r → r = new ∨ m.Locked r) (hnew : ∀ r, m.Locked r → r.Apart new)
    (hin : ∀ b, new.Covers b → own' b = some new.rflags.lockType) (hout : ∀ b, ¬ new.Covers b → own' b = own b) :
    m'.Backed own' where
  sized r hr := by
    rcases hlocked r hr with rfl | hr
    · exact hsize
    · exact h.sized r hr
  held r hr b hb := by
    rcases hlocked r hr with rfl | hr
    · exact hin b hb
    · rw [hout b (hnew r hr b hb)]
      exact h.held r hr b hb
  apart r r' hr hr' hne := by
    rcases hlocked r hr with rfl | hr <;> rcases hlocked r' hr' with rfl | hr'
    · exact absurd rfl hne
    · exact fun b hb hb' => hnew r' hr' b hb' hb
    · exact hnew r hr
    · exact h.apart r r' hr hr' hne

end RegionManager

/-! ## The calls -/

structure Sharing (P : Type) where
  table : LockTable P Int
  manager : P → RegionManager
  seized : P → List ActiveRegion

/-- The calls of a process, with the answers of `fd_lock` and of the mapper. -/
inductive RegionCall (P : Type) where
  | get (p : P) (offset : Int) (extent : Nat) (rflags : RegionFlags) (answer fetched : Int)
  | release (p : P) (r : ActiveRegion)

namespace Sharing

variable {x y : Sharing P} {p q : P} {r : ActiveRegion} {offset answer fetched : Int} {extent : Nat}
variable {rflags : RegionFlags}

def seize (x : Sharing P) (p : P) : Option ActiveRegion → List ActiveRegion
  | none => x.seized p
  | some r =>
    if (x.manager p).locks r.rflags = true ∧ r.rflags.write = true ∧ (x.manager p).InWriteControlLock then
      r :: x.seized p
    else x.seized p

def next [DecidableEq P] : RegionCall P → Sharing P → Option (Sharing P)
  | .get p offset extent rflags answer fetched, x =>
    let got := (x.manager p).getRegion p offset extent rflags answer fetched x.table
    some ⟨got.2.2, Function.update x.manager p got.2.1, Function.update x.seized p (x.seize p got.1)⟩
  | .release p r, x =>
    if r ∈ (x.manager p).activeRegions then
      let left := (x.manager p).releaseRegion p r x.table
      some ⟨left.2, Function.update x.manager p left.1,
        Function.update x.seized p (if r.offset = 0 then [] else x.seized p)⟩
    else none

def KernelAnswers (x : Sharing P) : RegionCall P → Prop
  | .get p offset extent rflags answer _ => (x.manager p).locks rflags = true →
      (answer = 0 → x.table.Grants p rflags.lockType (flockRange offset extent)) ∧
      (answer = EAGAIN ∨ answer = EACCES →
        rflags.noWait = true ∧ ¬ x.table.Grants p rflags.lockType (flockRange offset extent))
  | .release _ _ => True

def Careful (x : Sharing P) : RegionCall P → Prop
  | .get p offset extent rflags _ _ => (x.manager p).locks rflags = true →
      (0 < extent ∧ extent < 2 ^ 63) ∧
      (∀ r, (x.manager p).Locked r → r.offset ≠ offset → r.Apart ⟨offset, extent, rflags⟩) ∧
      (rflags.noWait = true → x.table.Grants p rflags.lockType (flockRange offset extent))
  | .release _ _ => True

def Disciplined (x : Sharing P) : RegionCall P → Prop
  | .get p offset _ rflags _ _ => (x.manager p).locks rflags = true → offset = 0 ∨ (x.manager p).InControlLock
  | .release _ _ => True

def Fresh (x : Sharing P) : Prop :=
  (∀ p b, x.table.locks p b = none) ∧ (∀ p, (x.manager p).activeRegions = []) ∧ ∀ p, x.seized p = []

/-! ## The invariant -/

/-- **The locks are exclusive and behind every region.** -/
structure Inv (x : Sharing P) : Prop where
  exclusive : x.table.Exclusive
  backed : ∀ p, (x.manager p).Backed (x.table.locks p)

theorem Fresh.inv (h : x.Fresh) : x.Inv where
  exclusive p q b _ _ := h.1 q b
  backed p := by
    have hnone : ∀ r, ¬ (x.manager p).Locked r := fun r hr => not_mem_nil (h.2.1 p ▸ hr.1)
    exact ⟨fun r hr => absurd hr (hnone r), fun r hr => absurd hr (hnone r), fun r _ hr => absurd hr (hnone r)⟩

theorem Inv.apart {r' : ActiveRegion} (h : x.Inv) (hne : p ≠ q) (hr : (x.manager p).Locked r)
    (hw : r.rflags.write = true) (hr' : (x.manager q).Locked r') : r.Apart r' := by
  intro b hb hb'
  have hp := (h.backed p).held r hr b hb
  rw [RegionFlags.lockType, if_pos hw] at hp
  cases (h.exclusive p q b hne hp).symm.trans ((h.backed q).held r' hr' b hb')

theorem Inv.control (h : x.Inv) (hne : p ≠ q) (hp : (x.manager p).InWriteControlLock) :
    ¬ (x.manager q).InControlLock := by
  rintro ⟨r', hm', hl', h0'⟩
  obtain ⟨r, hm, hl, h0, hw⟩ := hp
  have hs := ((h.backed p).sized r ⟨hm, hl⟩).1
  have hs' := ((h.backed q).sized r' ⟨hm', hl'⟩).1
  exact h.apart hne ⟨hm, hl⟩ hw ⟨hm', hl'⟩ 0 ⟨by omega, by omega⟩ ⟨by omega, by omega⟩

theorem Careful.apart (hc : x.Careful (.get p offset extent rflags answer fetched))
    (hl : (x.manager p).locks rflags = true)
    (hno : isActive offset (x.manager p).activeRegions = false) (hr : (x.manager p).Locked r) :
    r.Apart ⟨offset, extent, rflags⟩ :=
  (hc hl).2.1 r hr ((x.manager p).ordered.not_mem_of_inactive hno hr.1)

/-! ## What a call does -/

variable [DecidableEq P] {m m' : RegionManager} {k : LockTable P Int} {new : ActiveRegion}

/-- What comes of a careful call. -/
inductive Outcome (m : RegionManager) (k : LockTable P Int) (p : P) (new : ActiveRegion) :
    Option ActiveRegion × RegionManager × LockTable P Int → Prop
  | refused : Outcome m k p new (none, m, k)
  | unmapped : m.locks new.rflags = true → isActive new.offset m.activeRegions = false →
      k.Grants p new.rflags.lockType (flockRange new.offset new.extent) →
      Outcome m k p new (none, m, (k.set p (flockRange new.offset new.extent) (some new.rflags.lockType)).set p
        (flockRange new.offset new.extent) none)
  | mapped {m' : RegionManager} : m.locks new.rflags = true → isActive new.offset m.activeRegions = false →
      k.Grants p new.rflags.lockType (flockRange new.offset new.extent) → m'.noLock = m.noLock →
      m'.activeRegions = track new m.activeRegions →
      Outcome m k p new (some new, m', k.set p (flockRange new.offset new.extent) (some new.rflags.lockType))
  | unlocked {m' : RegionManager} : m.locks new.rflags = false → m'.noLock = m.noLock →
      m'.activeRegions = track new m.activeRegions → Outcome m k p new (some new, m', k)

theorem getRegion_outcome (hk : x.KernelAnswers (.get p offset extent rflags answer fetched))
    (hc : x.Careful (.get p offset extent rflags answer fetched)) :
    Outcome (x.manager p) x.table p ⟨offset, extent, rflags⟩
      ((x.manager p).getRegion p offset extent rflags answer fetched x.table) := by
  unfold RegionManager.getRegion
  by_cases hact : isActive offset (x.manager p).activeRegions = true
  · rw [dif_pos hact]
    exact .refused
  rw [dif_neg hact]
  have hno := Bool.eq_false_iff.2 hact
  by_cases hl : (x.manager p).locks rflags = true
  · obtain ⟨hgrant, hconflict⟩ := hk hl
    simp only [RegionManager.lockKernelRegion, RegionManager.unlockKernelRegion, if_pos hl]
    by_cases h0 : answer = 0
    · subst h0
      rw [if_neg fun h => h.1 rfl, if_pos rfl]
      by_cases hf : fetched ≠ 0
      · rw [if_pos hf]
        exact .unmapped hl hno (hgrant rfl)
      · rw [if_neg hf]
        exact .mapped hl hno (hgrant rfl) rfl rfl
    · -- a conflict is only answered to a call that does not wait, and a careful one meets none
      have hbad : answer ≠ EAGAIN ∧ answer ≠ EACCES := by
        by_contra hor
        obtain ⟨hwait, hnot⟩ := hconflict (by omega)
        exact hnot ((hc hl).2.2 hwait)
      rw [if_pos ⟨h0, hbad⟩, if_neg h0]
      exact .refused
  · simp only [RegionManager.lockKernelRegion, RegionManager.unlockKernelRegion, if_neg hl]
    rw [if_neg fun h => h.1 rfl]
    by_cases hf : fetched ≠ 0
    · rw [if_pos hf]
      exact .refused
    · rw [if_neg hf]
      exact .unlocked (Bool.eq_false_iff.2 hl) rfl rfl

theorem locked_track (hn : m'.noLock = m.noLock) (ha : m'.activeRegions = track new m.activeRegions)
    (r : ActiveRegion) : m'.Locked r ↔ (r = new ∧ m.locks new.rflags = true) ∨ m.Locked r := by
  unfold RegionManager.Locked RegionManager.locks
  rw [ha, hn, mem_track, or_and_right]
  refine or_congr_left (and_congr_right ?_)
  rintro rfl
  rfl

theorem releaseRegion_locked {r' : ActiveRegion} (h : ((m.releaseRegion p r k).1).Locked r')
    (hr : r ∈ m.activeRegions) : m.Locked r' ∧ r'.offset ≠ r.offset := by
  unfold RegionManager.releaseRegion at h
  by_cases hact : isActive r.offset m.activeRegions = true
  · rw [if_pos hact] at h
    exact ⟨⟨(untrack_sublist _ _).subset h.1, h.2⟩, m.ordered.ne_of_mem_untrack h.1⟩
  · exact absurd rfl (m.ordered.not_mem_of_inactive (Bool.eq_false_iff.2 hact) hr)

theorem releaseRegion_table (m : RegionManager) (p : P) (r : ActiveRegion) (k : LockTable P Int) :
    (m.releaseRegion p r k).2 = k ∨
      m.locks r.rflags = true ∧ (m.releaseRegion p r k).2 = k.set p (flockRange r.offset r.extent) none := by
  unfold RegionManager.releaseRegion RegionManager.unlockKernelRegion
  split
  · split
    · next hl => exact .inr ⟨hl, rfl⟩
    · exact .inl rfl
  · exact .inl rfl

theorem Inv.update {s : P → List ActiveRegion} (h : x.Inv) (hex : k.Exclusive) (hp : m'.Backed (k.locks p))
    (hothers : ∀ q, q ≠ p → k.locks q = x.table.locks q) : Inv ⟨k, update x.manager p m', s⟩ := by
  refine ⟨hex, fun q => ?_⟩
  rcases eq_or_ne q p with rfl | hne
  · simp only [update_self]
    exact hp
  · simp only [update_of_ne hne, hothers q hne]
    exact h.backed q

theorem Inv.get (h : x.Inv)
    (hk : x.KernelAnswers (.get p offset extent rflags answer fetched))
    (hc : x.Careful (.get p offset extent rflags answer fetched))
    (hn : next (.get p offset extent rflags answer fetched) x = some y) : y.Inv := by
  have hout := getRegion_outcome hk hc
  rw [next] at hn
  cases hn
  generalize (x.manager p).getRegion p offset extent rflags answer fetched x.table = got at hout ⊢
  cases hout with
  | refused => exact h.update h.exclusive (h.backed p) fun _ _ => rfl
  | unmapped hl hno hg =>
    have hsize := (hc hl).1
    refine h.update (h.exclusive.grant hg).unlock ?_ fun q hne => funext fun b => ?_
    · refine (h.backed p).restrict (fun _ hr => hr) fun r b hr hb => ?_
      have hb' := fun hin => hc.apart hl hno hr b hb ((mem_flockRange hsize.1 hsize.2).1 hin)
      rw [LockTable.set_out hb', LockTable.set_out hb']
    · rw [LockTable.set_other hne, LockTable.set_other hne]
  | mapped hl hno hg hn ha =>
    have hsize := (hc hl).1
    refine h.update (h.exclusive.grant hg) ?_ fun q hne => funext fun b => LockTable.set_other hne _
    refine (h.backed p).extend hsize (fun r hr => ?_) (fun r hr => hc.apart hl hno hr) (fun b hb => ?_) fun b hb => ?_
    · exact ((locked_track hn ha r).1 hr).imp_left And.left
    · exact LockTable.set_in ((mem_flockRange hsize.1 hsize.2).2 hb) _
    · exact LockTable.set_out (fun hin => hb ((mem_flockRange hsize.1 hsize.2).1 hin)) _
  | unlocked hl hn ha =>
    refine h.update h.exclusive ((h.backed p).restrict (fun r hr => ?_) fun _ _ _ _ => rfl) fun _ _ => rfl
    rcases (locked_track hn ha r).1 hr with ⟨-, htrue⟩ | hr
    · cases hl.symm.trans htrue
    · exact hr

theorem Inv.release (h : x.Inv) (hn : next (.release p r) x = some y) : y.Inv := by
  rw [next] at hn
  obtain ⟨hr, hn⟩ := Option.ite_none_right_eq_some.1 hn
  cases hn
  have hleft : ∀ r', ((x.manager p).releaseRegion p r x.table).1.Locked r' → (x.manager p).Locked r' ∧
      r'.offset ≠ r.offset := fun _ h' => releaseRegion_locked h' hr
  rcases releaseRegion_table (x.manager p) p r x.table with htab | ⟨hl, htab⟩
  · rw [htab]
    exact h.update h.exclusive ((h.backed p).restrict (fun r' h' => (hleft r' h').1) fun _ _ _ _ => rfl) fun _ _ => rfl
  · have hsize := (h.backed p).sized r ⟨hr, hl⟩
    rw [htab]
    refine h.update h.exclusive.unlock ((h.backed p).restrict (fun r' h' => (hleft r' h').1) fun r' b h' hb => ?_)
      fun q hne => funext fun b => LockTable.set_other hne _
    have hapart := (h.backed p).apart r' r (hleft r' h').1 ⟨hr, hl⟩ (hleft r' h').2
    exact LockTable.set_out (fun hin => hapart b hb ((mem_flockRange hsize.1 hsize.2).1 hin)) _

/-- **Every careful call keeps the invariant.** -/
theorem Inv.next {a : RegionCall P} (h : x.Inv) (hk : x.KernelAnswers a) (hc : x.Careful a) (hn : next a x = some y) :
    y.Inv := by
  cases a with
  | get p offset extent rflags answer fetched => exact h.get hk hc hn
  | release p r => exact h.release hn

/-! ## Seized regions -/

/-- No other process has a region that is seized, and only a process inside a `ControlLock` with `Write` has seized
one. -/
structure Guarded (x : Sharing P) : Prop where
  clear : ∀ p q r r', p ≠ q → r ∈ x.seized p → (x.manager q).Locked r' → r.Apart r'
  inside : ∀ p, x.seized p ≠ [] → (x.manager p).InWriteControlLock

omit [DecidableEq P] in
theorem Fresh.guarded (h : x.Fresh) : x.Guarded where
  clear p _ _ _ _ hr := absurd (h.2.2 p ▸ hr) not_mem_nil
  inside p hs := absurd (h.2.2 p) hs

omit [DecidableEq P] in
theorem Inv.not_granted {t : LockType} (h : x.Inv) (hne : q ≠ p)
    (hq : (x.manager q).InWriteControlLock) (hsize : 0 < extent ∧ extent < 2 ^ 63)
    (hd : offset = 0 ∨ (x.manager p).InControlLock) : ¬ x.table.Grants p t (flockRange offset extent) := by
  intro hg
  rcases hd with rfl | hin
  · obtain ⟨r, hm, hl, h0, hw⟩ := hq
    have hpos := ((h.backed q).sized r ⟨hm, hl⟩).1
    have hheld := (h.backed q).held r ⟨hm, hl⟩ 0 ⟨by omega, by omega⟩
    rw [RegionFlags.lockType, if_pos hw] at hheld
    exact hg.not_write hne ((mem_flockRange hsize.1 hsize.2).2 ⟨le_rfl, by omega⟩) hheld
  · exact h.control hne hq hin

theorem inWriteControlLock_track (hn : m'.noLock = m.noLock) (ha : m'.activeRegions = track new m.activeRegions)
    (h : m.InWriteControlLock) : m'.InWriteControlLock := by
  obtain ⟨r, hm, hl, h0⟩ := h
  obtain ⟨hm', hl'⟩ := (locked_track hn ha r).2 (.inr ⟨hm, hl⟩)
  exact ⟨r, hm', hl', h0⟩

omit [DecidableEq P] in
theorem mem_seize {got : Option ActiveRegion} (h : r ∈ x.seize p got) : r ∈ x.seized p ∨
    got = some r ∧ (x.manager p).locks r.rflags = true ∧ r.rflags.write = true ∧ (x.manager p).InWriteControlLock := by
  cases got with
  | none => exact .inl h
  | some new =>
    rw [seize] at h
    split at h
    · next hseize =>
      rcases mem_cons.1 h with rfl | h
      · exact .inr ⟨rfl, hseize⟩
      · exact .inl h
    · exact .inl h

namespace Outcome

variable {got : Option ActiveRegion × RegionManager × LockTable P Int} {r : ActiveRegion}

theorem locked (h : Outcome m k p new got) (hr : got.2.1.Locked r) : m.Locked r ∨
    m.locks new.rflags = true ∧ k.Grants p new.rflags.lockType (flockRange new.offset new.extent) := by
  cases h with
  | refused => exact .inl hr
  | unmapped => exact .inl hr
  | mapped hl _ hg => exact .inr ⟨hl, hg⟩
  | unlocked hl hn ha =>
    rcases (locked_track hn ha r).1 hr with ⟨-, htrue⟩ | hr
    · cases hl.symm.trans htrue
    · exact .inl hr

theorem returned (h : Outcome m k p new got) (hr : got.1 = some r) (hl : m.locks r.rflags = true) :
    got.2.1.Locked r := by
  cases h with
  | refused => cases hr
  | unmapped => cases hr
  | mapped _ _ _ hn ha | unlocked _ hn ha =>
    cases hr
    exact (locked_track hn ha _).2 (.inl ⟨rfl, hl⟩)

theorem inside (h : Outcome m k p new got) (hin : m.InWriteControlLock) : got.2.1.InWriteControlLock := by
  cases h with
  | refused => exact hin
  | unmapped => exact hin
  | mapped _ _ _ hn ha | unlocked _ hn ha => exact inWriteControlLock_track hn ha hin

end Outcome

theorem Guarded.get (hg : x.Guarded) (h : x.Inv)
    (hk : x.KernelAnswers (.get p offset extent rflags answer fetched))
    (hc : x.Careful (.get p offset extent rflags answer fetched))
    (hd : x.Disciplined (.get p offset extent rflags answer fetched))
    (hn : Sharing.next (.get p offset extent rflags answer fetched) x = some y) : y.Guarded := by
  have hy := h.get hk hc hn
  have hout := getRegion_outcome hk hc
  rw [Sharing.next] at hn
  cases hn
  generalize (x.manager p).getRegion p offset extent rflags answer fetched x.table = got at hout hy ⊢
  constructor
  · intro p1 q r r' hne hr hr'
    rcases eq_or_ne p1 p with rfl | hp
    · -- the caller: what it has just seized is locked for writing
      simp only [update_self] at hr
      rcases mem_seize hr with hr | ⟨hgot, hl, hw, -⟩
      · simp only [update_of_ne hne.symm] at hr'
        exact hg.clear p1 q r r' hne hr hr'
      · refine hy.apart hne ?_ hw hr'
        simp only [update_self]
        exact hout.returned hgot hl
    · simp only [update_of_ne hp] at hr
      rcases eq_or_ne q p with rfl | hq
      · simp only [update_self] at hr'
        rcases hout.locked hr' with hr' | ⟨hl, hgrant⟩
        · exact hg.clear p1 q r r' hne hr hr'
        · exact absurd hgrant (h.not_granted hne (hg.inside p1 (ne_nil_of_mem hr)) (hc hl).1 (hd hl))
      · simp only [update_of_ne hq] at hr'
        exact hg.clear p1 q r r' hne hr hr'
  · intro p1 hs
    rcases eq_or_ne p1 p with rfl | hp
    · simp only [update_self] at hs ⊢
      obtain ⟨r, hr⟩ := exists_mem_of_ne_nil _ hs
      rcases mem_seize hr with hr | ⟨-, -, -, hin⟩
      · exact hout.inside (hg.inside p1 (ne_nil_of_mem hr))
      · exact hout.inside hin
    · simp only [update_of_ne hp] at hs ⊢
      exact hg.inside p1 hs

theorem Guarded.release (hg : x.Guarded) (hn : Sharing.next (.release p r) x = some y) :
    y.Guarded := by
  rw [Sharing.next] at hn
  obtain ⟨hr, hn⟩ := Option.ite_none_right_eq_some.1 hn
  cases hn
  have hseized : ∀ p1 r1, r1 ∈ update x.seized p (if r.offset = 0 then [] else x.seized p) p1 →
      r1 ∈ x.seized p1 ∧ (p1 = p → r.offset ≠ 0) := by
    intro p1 r1 h1
    rcases eq_or_ne p1 p with rfl | hp
    · rw [update_self] at h1
      split at h1
      · cases h1
      · next h0 => exact ⟨h1, fun _ => h0⟩
    · rw [update_of_ne hp] at h1
      exact ⟨h1, fun e => absurd e hp⟩
  constructor
  · intro p1 q r1 r' hne hr1 hr'
    have hold : (x.manager q).Locked r' := by
      rcases eq_or_ne q p with rfl | hq
      · simp only [update_self] at hr'
        exact (releaseRegion_locked hr' hr).1
      · simp only [update_of_ne hq] at hr'
        exact hr'
    exact hg.clear p1 q r1 r' hne (hseized p1 r1 hr1).1 hold
  · intro p1 hs
    obtain ⟨r1, hr1⟩ := exists_mem_of_ne_nil _ hs
    obtain ⟨hmem, hoff⟩ := hseized p1 r1 hr1
    have hin := hg.inside p1 (ne_nil_of_mem hmem)
    rcases eq_or_ne p1 p with rfl | hp
    · simp only [update_self]
      obtain ⟨c, hm, hl, h0, hw⟩ := hin
      have hne : c.offset ≠ r.offset := fun e => hoff rfl (e.symm.trans h0)
      unfold RegionManager.releaseRegion
      split
      · exact ⟨c, mem_untrack_of_ne hne hm, hl, h0, hw⟩
      · exact ⟨c, hm, hl, h0, hw⟩
    · simp only [update_of_ne hp]
      exact hin

/-- **Every careful and disciplined call keeps the seized regions clear.** -/
theorem Guarded.next {a : RegionCall P} (hg : x.Guarded) (h : x.Inv) (hk : x.KernelAnswers a) (hc : x.Careful a)
    (hd : x.Disciplined a) (hn : Sharing.next a x = some y) : y.Guarded := by
  cases a with
  | get p offset extent rflags answer fetched => exact hg.get h hk hc hd hn
  | release p r => exact hg.release hn

/-! ## Mutual exclusion -/

/-- **Mutual exclusion** in any run of careful calls: no process has a region that overlaps one that another has mapped
for writing, and a `ControlLock` with `Write` is the only one. If the regions of products are mapped inside a
`ControlLock`, no process has a region that another has seized and may free. -/
theorem mapped_exclusively {A : Sharing P → RegionCall P → Prop} (hA : ∀ x a, A x a → x.KernelAnswers a ∧ x.Careful a)
    (h : Transitions.Reached next A Fresh x) :
    (∀ p q r r', p ≠ q → (x.manager p).Locked r → r.rflags.write = true → (x.manager q).Locked r' → r.Apart r') ∧
      (∀ p q, p ≠ q → (x.manager p).InWriteControlLock → ¬ (x.manager q).InControlLock) ∧
      ((∀ x a, A x a → x.Disciplined a) →
        ∀ p q r r', p ≠ q → r ∈ x.seized p → (x.manager q).Locked r' → r.Apart r') := by
  have hinv : x.Inv := h.invariant (fun _ hx => hx.inv) fun x a y hx ha hn => hx.next (hA x a ha).1 (hA x a ha).2 hn
  refine ⟨fun p q r r' hne hr hw hr' => hinv.apart hne hr hw hr', fun p q hne hp => hinv.control hne hp, ?_⟩
  intro hdis
  have hboth : x.Inv ∧ x.Guarded := by
    refine h.invariant (I := fun x => x.Inv ∧ x.Guarded) (fun _ hx => ⟨hx.inv, hx.guarded⟩) ?_
    intro x a y hx ha hn
    obtain ⟨hk, hc⟩ := hA x a ha
    exact ⟨hx.1.next hk hc hn, hx.2.next hx.1 hk hc (hdis x a ha) hn⟩
  exact hboth.2.clear

def twoProcesses : Sharing Bool := ⟨⟨fun _ _ => none⟩, fun _ => ⟨false, [], .nil⟩, fun _ => []⟩

def writing : RegionFlags := ⟨false, false, true⟩

def seizing : RegionFlags := ⟨false, true, true⟩

theorem twoProcesses_fresh : twoProcesses.Fresh := ⟨fun _ _ => rfl, fun _ => rfl, fun _ => rfl⟩

theorem answers_granted {P : Type} {x : Sharing P} {p : P}
    (hg : x.table.Grants p rflags.lockType (flockRange offset extent)) :
    x.KernelAnswers (.get p offset extent rflags 0 fetched) :=
  fun _ => ⟨fun _ => hg, fun h => absurd h (by decide)⟩

theorem answers_conflict {P : Type} {x : Sharing P} {p : P} (hw : rflags.noWait = true)
    (hg : ¬ x.table.Grants p rflags.lockType (flockRange offset extent)) :
    x.KernelAnswers (.get p offset extent rflags EAGAIN fetched) :=
  fun _ => ⟨fun h => absurd h (by decide), fun _ => ⟨hw, hg⟩⟩

def oneInside : Sharing Bool := (next (.get true 0 100 writing 0 0) twoProcesses).getD twoProcesses

/-- The one process holds the region of a product, and the other one is inside the `ControlLock`. -/
def readerInside : Sharing Bool :=
  (Transitions.run next [.get false 0 100 {} 0 0, .get false 100 50 {} 0 0, .release false ⟨0, 100, {}⟩,
    .get true 0 100 writing 0 0] twoProcesses).getD twoProcesses

theorem readerInside_reached :
    Transitions.Reached next (fun x a => x.KernelAnswers a ∧ x.Careful a ∧ x.Disciplined a) Fresh readerInside := by
  have hfree : twoProcesses.table.Grants false .read (flockRange 0 100) := fun _ _ _ _ => Or.inl rfl
  refine .step (.step (.step (.step (.start twoProcesses_fresh) (a := .get false 0 100 {} 0 0)
    ⟨answers_granted hfree, fun _ => ⟨by decide, fun _ hr => absurd hr.1 not_mem_nil, fun h => by cases h⟩,
      fun _ => Or.inl rfl⟩ rfl)
    (a := .get false 100 50 {} 0 0) ⟨answers_granted ?_, fun _ => ⟨by decide, ?_, fun h => by cases h⟩, ?_⟩ rfl)
    (a := .release false ⟨0, 100, {}⟩) ⟨trivial, trivial, trivial⟩ rfl)
    (a := .get true 0 100 writing 0 0) ⟨answers_granted ?_,
      fun _ => ⟨by decide, fun _ hr => absurd hr.1 not_mem_nil, fun h => by cases h⟩, fun _ => Or.inl rfl⟩ rfl
  · intro q hne b _
    cases q with
    | true => exact Or.inl rfl
    | false => exact absurd rfl hne
  · intro r hr _ b hb hb'
    rcases mem_singleton.1 (show r ∈ [(⟨0, 100, {}⟩ : ActiveRegion)] from hr.1) with rfl
    exact absurd hb.2 (not_lt.2 hb'.1)
  · exact fun _ => Or.inr ⟨⟨0, 100, {}⟩, mem_singleton.2 rfl, rfl, rfl⟩
  · intro q hne b hb
    cases q with
    | true => exact absurd rfl hne
    | false => exact Or.inl (LockTable.set_in hb none)

theorem readerInside_control : (readerInside.manager true).InControlLock :=
  ⟨⟨0, 100, writing⟩, mem_singleton.2 rfl, rfl, rfl⟩

/-- A process inside a `ControlLock` with `Write` keeps the other one out, and seizes the region of a product apart from
that of the other one. -/
theorem mapped_exclusively_seized : ∃ x : Sharing Bool, (x.manager true).InWriteControlLock ∧
    ¬ (x.manager false).InControlLock ∧ x.seized true = [⟨200, 50, seizing⟩] ∧ (x.manager false).Locked ⟨100, 50, {}⟩ ∧
      ActiveRegion.Apart ⟨200, 50, seizing⟩ ⟨100, 50, {}⟩ := by
  have hg : readerInside.table.Grants true .write (flockRange 200 50) := by
    intro q hne b hb
    cases q with
    | true => exact absurd rfl hne
    | false =>
      have hin := (mem_flockRange (by decide) (by decide)).1 hb
      have hzero : b ∉ flockRange 0 100 := fun h => by
        have := (mem_flockRange (by decide) (by decide)).1 h
        omega
      have hfirst : b ∉ flockRange 100 50 := fun h => by
        have := (mem_flockRange (by decide) (by decide)).1 h
        omega
      exact Or.inl ((LockTable.set_other Bool.false_ne_true _).trans ((LockTable.set_out hzero _).trans
        ((LockTable.set_out hfirst _).trans (LockTable.set_out hzero _))))
  have hapart : ∀ r, (readerInside.manager true).Locked r → r.offset ≠ 200 → r.Apart ⟨200, 50, seizing⟩ := by
    intro r hr _ b hb hb'
    rcases mem_singleton.1 (show r ∈ [(⟨0, 100, writing⟩ : ActiveRegion)] from hr.1) with rfl
    exact absurd (hb.2.trans_le (by decide : (0 : Int) + (100 : Nat) ≤ 200)) (not_lt.2 hb'.1)
  have hreach : Transitions.Reached next (fun x a => x.KernelAnswers a ∧ x.Careful a ∧ x.Disciplined a) Fresh _ :=
    .step readerInside_reached (a := .get true 200 50 seizing 0 0)
      ⟨answers_granted hg, fun _ => ⟨by decide, hapart, fun _ => hg⟩, fun _ => Or.inr readerInside_control⟩ rfl
  obtain ⟨-, hcontrol, hseized⟩ := mapped_exclusively (fun _ _ ha => ⟨ha.1, ha.2.1⟩) hreach
  have hlocked : (readerInside.manager false).Locked ⟨100, 50, {}⟩ := ⟨mem_singleton.2 rfl, rfl⟩
  refine ⟨_, ?_, hcontrol true false (by decide) ?_, ?_, hlocked,
    hseized (fun _ _ ha => ha.2.2) true false _ _ (by decide) ?_ hlocked⟩
  · decide
  · decide
  · decide
  · decide

/-- `getRegion` takes `EAGAIN` for a lock: two processes are inside a `ControlLock` with `Write`, and a region is seized
that the other process is reading. -/
theorem conflict_mapped : ∃ x y : Sharing Bool,
    Transitions.Reached next (fun x a => x.KernelAnswers a ∧ x.Disciplined a) Fresh x ∧
    ((x.manager true).InWriteControlLock ∧ (x.manager false).InWriteControlLock) ∧
    Transitions.Reached next (fun x a => x.KernelAnswers a ∧ x.Disciplined a) Fresh y ∧
    ⟨100, 50, seizing⟩ ∈ y.seized true ∧ (y.manager false).Locked ⟨100, 50, {}⟩ := by
  have halone : twoProcesses.table.Grants true .write (flockRange 0 100) := fun _ _ _ _ => Or.inl rfl
  have hone : Transitions.Reached next (fun x a => x.KernelAnswers a ∧ x.Disciplined a) Fresh oneInside :=
    .step (.start twoProcesses_fresh) ⟨answers_granted halone, fun _ => Or.inl rfl⟩
      (a := .get true 0 100 writing 0 0) rfl
  have hreader : Transitions.Reached next (fun x a => x.KernelAnswers a ∧ x.Disciplined a) Fresh readerInside :=
    readerInside_reached.invariant (fun _ => .start) fun _ _ _ hx ha => .step hx ⟨ha.1, ha.2.2⟩
  have hboth : oneInside.KernelAnswers (.get false 0 100 seizing EAGAIN 0) := by
    refine answers_conflict rfl fun hg => ?_
    exact absurd (hg.free (q := true) (b := 0) (by decide) (by decide)) (by decide)
  have hread : readerInside.KernelAnswers (.get true 100 50 seizing EAGAIN 0) := by
    refine answers_conflict rfl fun hg => ?_
    exact absurd (hg.free (q := false) (b := 100) (by decide) (by decide)) (by decide)
  refine ⟨_, _, .step hone ⟨hboth, fun _ => Or.inl rfl⟩ rfl, ⟨?_, ?_⟩,
    .step hreader ⟨hread, fun _ => Or.inr readerInside_control⟩ rfl, ?_, ?_⟩
  · decide
  · decide
  · decide
  · exact ⟨mem_singleton.2 rfl, rfl⟩

end Sharing

end Rdm
