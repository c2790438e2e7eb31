import Rdm.Pq.Consistency
import Rdm.Pq.RegionRuns

/-!
# Which products make room for a new one

While a fixed set of products is locked, allocation deletes the others in the order of their insertion times, and stops
as soon as there is room (`regionsAfter`).
-/

namespace Rdm

open ProgLogic ProgLogic.Prog Tiling List
open RegionList (allocs)

/-! ## The first products that are not locked -/

section Selection

variable {locked : Int → Bool} {l l₁ : List (Timestamp × Int)} {i j : Nat}

def unlocked (locked : Int → Bool) (l : List (Timestamp × Int)) : List (Timestamp × Int) :=
    l.filter fun p => !locked p.2

def timesAfterEvicting (locked : Int → Bool) (l : List (Timestamp × Int)) (i : Nat) : List (Timestamp × Int) :=
  l.filter fun p => p ∉ (unlocked locked l).take i

def regionsAfter (locked : Int → Bool) (l : List (Timestamp × Int)) (regions : Multiset (Int × Nat)) (i : Nat) :
    Multiset (Int × Nat) :=
  regions.filter fun q => q.1 ∉ ((unlocked locked l).take i).map Prod.snd

theorem regionsAfter_zero (regions : Multiset (Int × Nat)) : regionsAfter locked l regions 0 = regions := by
  simp [regionsAfter]

theorem filter_notMem_take {u : List (Timestamp × Int)} (hu : u.Nodup) (i : Nat) :
    (u.filter fun p => p ∉ u.take i) = u.drop i := by
  have hsplit : (u.take i ++ u.drop i).Nodup := by rwa [take_append_drop]
  have hapart := (nodup_append.1 hsplit).2.2
  have hfirst : ((u.take i).filter fun p => p ∉ u.take i) = [] := by simp
  have hlast : ((u.drop i).filter fun p => p ∉ u.take i) = u.drop i := by
    refine filter_eq_self.2 fun p hp => ?_
    simp only [decide_eq_true_eq]
    exact fun hm => hapart p hm p hp rfl
  calc (u.filter fun p => p ∉ u.take i)
      = (u.take i ++ u.drop i).filter fun p => p ∉ u.take i := by rw [take_append_drop]
    _ = u.drop i := by rw [filter_append, hfirst, hlast, nil_append]

theorem unlocked_timesAfter (hl : l.Nodup) (i : Nat) :
    unlocked locked (timesAfterEvicting locked l i) = (unlocked locked l).drop i := by
  have hu : (unlocked locked l).Nodup := hl.filter _
  rw [← filter_notMem_take hu i]
  simp only [unlocked, timesAfterEvicting, filter_filter, Bool.and_comm]

theorem timesAfter_add (hl : l.Nodup) (i j : Nat) :
    timesAfterEvicting locked (timesAfterEvicting locked l i) j = timesAfterEvicting locked l (i + j) := by
  rw [timesAfterEvicting, unlocked_timesAfter hl, timesAfterEvicting, filter_filter, timesAfterEvicting, take_add]
  refine filter_congr fun p _ => ?_
  simp only [mem_append, not_or, Bool.decide_and, Bool.and_comm]

theorem regionsAfter_add (hl : l.Nodup) (regions : Multiset (Int × Nat)) (i j : Nat) :
    regionsAfter locked (timesAfterEvicting locked l i) (regionsAfter locked l regions i) j =
      regionsAfter locked l regions (i + j) := by
  rw [regionsAfter, unlocked_timesAfter hl, regionsAfter, Multiset.filter_filter, regionsAfter, take_add]
  refine Multiset.filter_congr fun q _ => ?_
  rw [map_append, mem_append, not_or, and_comm]

theorem unlocked_first {skipped rest : List (Timestamp × Int)} {p : Timestamp × Int}
    (hskip : ∀ x ∈ skipped, locked x.2 = true)
    (hp : locked p.2 = false) : (unlocked locked (skipped ++ p :: rest)).take 1 = [p] := by
  have hnone : unlocked locked skipped = [] := by
    refine filter_eq_nil_iff.2 fun x hx => ?_
    simp [hskip x hx]
  simp only [unlocked] at hnone ⊢
  rw [filter_append, hnone, nil_append, filter_cons_of_pos (by simp [hp])]
  rfl

end Selection

/-! ## Room for a region -/

def EmptySlot (D : DataSection) (slots : Nat) (regions : Multiset (Int × Nat)) : Prop :=
  regions.card + {p | IsGap D.datao D.ixo {q | q ∈ regions} p}.ncard < slots

def LargeGap (D : DataSection) (regions : Multiset (Int × Nat)) (extent : Nat) : Prop :=
  ∃ p, IsGap D.datao D.ixo {q | q ∈ regions} p ∧ extent ≤ p.2

def HasRoom (D : DataSection) (slots : Nat) (regions : Multiset (Int × Nat)) (extent : Nat) : Prop :=
  EmptySlot D slots regions ∧ LargeGap D regions extent

namespace QueueIndexManager

variable {ω : Type} {D : DataSection} {s s' s₁ s₂ : QueueIndexManager ω} {g g' g₁ g₂ : Ghost} {cb : Callbacks ω}
variable {extent : Nat} {locked : Int → Bool}

theorem IndexInv.gap_iff (h : IndexInv D s g) (p : Int × Nat) :
    IsGap D.datao D.ixo {q | q ∈ (catalog s g).regions} p ↔ ∃ x ∈ g.xs, regionOf s.rl x = p := by
  rw [h.free_iff]
  have hiff : ∀ q : Int × Nat, q ∈ {q | q ∈ (catalog s g).regions ∨ ∃ x ∈ [], regionOf s.rl x = q} ↔
      q ∈ {q | q ∈ (catalog s g).regions} := by
    intro q
    simp
  exact ⟨fun hg => hg.congr hiff, fun hg => hg.congr fun q => (hiff q).symm⟩

theorem IndexInv.xs_nodup (h : IndexInv D s g) : (g.xs.map (regionOf s.rl)).Nodup := by
  obtain ⟨tl, hs⟩ := h.regions.shape
  have htl : tl.Nodup := (nodup_append.1 hs.nodup).1
  have hxs : g.xs.Nodup := (nodup_append.1 (hs.part.nodup_iff.1 htl)).1
  refine (nodup_map_iff_inj_on hxs).2 fun x hx y hy e => ?_
  exact h.slot_unique (mem_append_left _ hx) (mem_append_left _ hy) (congrArg Prod.fst e)

/-- **`HasSpace` tells whether a slot is empty.** -/
theorem IndexInv.emptySlot_iff (h : IndexInv D s g) :
    EmptySlot D s.rl.nalloc (catalog s g).regions ↔ g.em ≠ [] := by
  have hset : {p | IsGap D.datao D.ixo {q | q ∈ (catalog s g).regions} p} =
      ((g.xs.map (regionOf s.rl)).toFinset : Set (Int × Nat)) := by
    ext p
    rw [Set.mem_ofPred_eq, h.gap_iff, coe_toFinset, Set.mem_ofPred_eq, mem_map]
  have hcard : {p | IsGap D.datao D.ixo {q | q ∈ (catalog s g).regions} p}.ncard = g.xs.length := by
    rw [hset, Set.ncard_coe_finset, toFinset_card_of_nodup h.xs_nodup, length_map]
  have hcounts := h.regions.counts
  have hfree := h.regions.nfree
  have hempty := h.regions.nempty
  have hn := h.nelems
  rw [EmptySlot, hcard, ← length_pos_iff]
  simp only at hcounts hfree hempty
  omega

theorem IndexInv.largeGap_iff (h : IndexInv D s g) :
    LargeGap D (catalog s g).regions extent ↔ ∃ x ∈ g.xs, extent ≤ (s.rl.rp x).getExtent := by
  constructor
  · rintro ⟨p, hp, hle⟩
    obtain ⟨x, hx, rfl⟩ := (h.gap_iff p).1 hp
    exact ⟨x, hx, hle⟩
  · rintro ⟨x, hx, hle⟩
    exact ⟨_, (h.gap_iff _).2 ⟨x, hx, rfl⟩, hle⟩

/-! ## Deleting products in their order -/

def Locks (cb : Callbacks ω) (locked : Int → Bool) : Prop :=
  ∀ off ext w, (cb.decode off ext w).1.1 = EACCES ↔ locked off = true

theorem Refused.all_locked (h : Locks cb locked) {regions : Multiset (Int × Nat)} {e e' : ω}
    {l : List (Timestamp × Int)} (hr : Refused cb regions e l e') : ∀ x ∈ l, locked x.2 = true := by
  induction hr with
  | nil => simp
  | cons _ hlock _ ih => exact forall_mem_cons.2 ⟨(h _ _ _).1 hlock, ih⟩

/-- The first `i` products that are not locked were deleted. -/
structure Evicted (cb : Callbacks ω) (D : DataSection) (locked : Int → Bool) (s : QueueIndexManager ω) (g : Ghost)
    (i : Nat) (s' : QueueIndexManager ω) (g' : Ghost) : Prop where
  shrunk : Shrunk cb D s g s' g'
  times : (catalog s' g').times = timesAfterEvicting locked (catalog s g).times i
  regions : (catalog s' g').regions = regionsAfter locked (catalog s g).times (catalog s g).regions i
  slots : s'.rl.nalloc = s.rl.nalloc

theorem Evicted.refl (h : IndexInv D s g) : Evicted cb D locked s g 0 s g :=
  ⟨.refl h, by simp [timesAfterEvicting], (regionsAfter_zero _).symm, rfl⟩

theorem Evicted.trans (h : IndexInv D s g) {i j : Nat} (h1 : Evicted cb D locked s g i s₁ g₁)
    (h2 : Evicted cb D locked s₁ g₁ j s₂ g₂) : Evicted cb D locked s g (i + j) s₂ g₂ where
  shrunk := h1.shrunk.trans h2.shrunk
  times := by rw [h2.times, h1.times, timesAfter_add h.times_nodup]
  regions := by rw [h2.regions, h1.regions, h1.times, regionsAfter_add h.times_nodup]
  slots := h2.slots.trans h1.slots

theorem Evicted.regions_add (h : IndexInv D s g) {i : Nat} (h1 : Evicted cb D locked s g i s₁ g₁) (j : Nat) :
    regionsAfter locked (catalog s₁ g₁).times (catalog s₁ g₁).regions j =
      regionsAfter locked (catalog s g).times (catalog s g).regions (i + j) := by
  rw [h1.times, h1.regions, regionsAfter_add h.times_nodup]

/-- **One deletion takes the oldest product that is not locked.** -/
theorem deleteOldest_order (h : IndexInv D s g) (hlock : Locks cb locked) :
    wlp (deleteOldest cb) (fun status s' => status = 0 → ∃ g', Evicted cb D locked s g 1 s' g') s := by
  refine (deleteOldest_searched h).wlp.mono ?_
  rintro status s' ⟨skipped, e, hskip, hend⟩ h0
  rcases hend with ⟨hst, -⟩ | ⟨-, t, off, ext, rest, sig, g', htimes, hdec, hsh, hw, hn⟩
  · exact absurd h0 hst
  have hfree : locked off = false := by
    rw [Bool.eq_false_iff, Ne, ← hlock off ext e, hdec]
    decide
  have hfirst : (unlocked locked (catalog s g).times).take 1 = [(t, off)] := by
    rw [htimes]
    exact unlocked_first (hskip.all_locked hlock) hfree
  refine ⟨g', hsh, ?_, ?_, hn⟩
  · obtain ⟨pre, suf, hpre, hpre'⟩ := hw.times
    have hnd := h.times_nodup
    rw [hpre, nodup_middle, nodup_cons, mem_append, not_or] at hnd
    rw [timesAfterEvicting, hfirst, hpre, hpre', filter_append, filter_cons_of_neg (by simp)]
    have hkeep : ∀ l : List (Timestamp × Int), (t, off) ∉ l → (l.filter fun p => p ∉ [(t, off)]) = l := by
      intro l hl
      refine filter_eq_self.2 fun p hp => ?_
      simp only [mem_singleton, decide_eq_true_eq]
      rintro rfl
      exact hl hp
    rw [hkeep pre hnd.1.1, hkeep suf hnd.1.2]
  · rw [regionsAfter, hfirst, hw.regions, Multiset.filter_cons_of_neg _ (by simp)]
    refine (Multiset.filter_eq_self.2 fun q hq hm => ?_).symm
    rw [map_singleton, mem_singleton] at hm
    exact hw.region_gone h.spread (Multiset.mem_map.2 ⟨q, hq, hm⟩)

/-! ## Deleting products until there is room -/

def FirstAt (locked : Int → Bool) (a : Catalog) (P : Multiset (Int × Nat) → Prop) (n : Nat) : Prop :=
  IsLeast {i | P (regionsAfter locked a.times a.regions i)} n

theorem Evicted.firstAt_succ (h : IndexInv D s g) (h1 : Evicted cb D locked s g 1 s₁ g₁)
    {P : Multiset (Int × Nat) → Prop}
    (hno : ¬ P (catalog s g).regions) {n : Nat} (hn : FirstAt locked (catalog s₁ g₁) P n) :
    FirstAt locked (catalog s g) P (1 + n) := by
  constructor
  · have hP := hn.1
    rw [Set.mem_ofPred_eq, h1.regions_add h] at hP
    exact hP
  · intro i hi
    cases i with
    | zero =>
      rw [Set.mem_ofPred_eq, regionsAfter_zero] at hi
      exact absurd hi hno
    | succ i =>
      have hle : n ≤ i := hn.2 (by rw [Set.mem_ofPred_eq, h1.regions_add h, Nat.add_comm]; exact hi)
      omega

theorem firstAt_zero {a : Catalog} {P : Multiset (Int × Nat) → Prop} (h : P a.regions) : FirstAt locked a P 0 :=
  ⟨by rw [Set.mem_ofPred_eq, regionsAfter_zero]; exact h, fun _ _ => Nat.zero_le _⟩

def SlotMade (cb : Callbacks ω) (D : DataSection) (locked : Int → Bool) (s : QueueIndexManager ω) (g : Ghost)
    (s' : QueueIndexManager ω) : Prop :=
  ∃ n g', Evicted cb D locked s g n s' g' ∧ g'.em ≠ [] ∧ FirstAt locked (catalog s g) (EmptySlot D s.rl.nalloc) n

theorem SlotMade.none (h : IndexInv D s g) (hem : g.em ≠ []) : SlotMade cb D locked s g s :=
  ⟨0, g, .refl h, hem, firstAt_zero (h.emptySlot_iff.2 hem)⟩

theorem makeSlotFrom_order (hlock : Locks cb locked) : ∀ (fuel : Nat) {s : QueueIndexManager ω} {g : Ghost},
    IndexInv D s g → g.em = [] →
    wlp (makeSlotFrom cb fuel) (fun status s' => status = 0 → SlotMade cb D locked s g s') s
  | 0, _, _, _, _ => by simp [makeSlotFrom]
  | fuel + 1, s, g, h, hem => by
    rw [makeSlotFrom, wlp_bind, wlp_read]
    split
    case isTrue => exact wlp_pure.2 fun h0 => by cases h0
    case isFalse =>
    rw [wlp_bind]
    refine (deleteOldest_order h hlock).mono ?_
    intro status s₁ hev
    split
    case isTrue hst => exact wlp_pure.2 fun h0 => absurd h0 hst
    case isFalse hst =>
    obtain ⟨g₁, hev⟩ := hev (not_not.1 hst)
    have h1 := hev.shrunk.inv
    have hno : ¬ EmptySlot D s.rl.nalloc (catalog s g).regions := by rw [h.emptySlot_iff]; exact not_not.2 hem
    -- what is made from here on is made from the start
    have hafter : ∀ s', SlotMade cb D locked s₁ g₁ s' → SlotMade cb D locked s g s' := by
      rintro s' ⟨n, g', hev', hem', hn⟩
      rw [hev.slots] at hn
      exact ⟨1 + n, g', hev.trans h hev', hem', hev.firstAt_succ h hno hn⟩
    rw [wlp_bind, wlp_read, h1.hasSpace]
    split
    case isTrue hem1 =>
      refine (makeSlotFrom_order hlock fuel h1 (by simpa using hem1)).mono ?_
      exact fun _ s' hmade h0 => hafter s' (hmade h0)
    case isFalse hem1 =>
      refine wlp_pure.2 fun _ => hafter s₁ (.none h1 ?_)
      simpa using hem1

theorem ensureSlot_order (h : IndexInv D s g) (hlock : Locks cb locked) :
    wlp (ensureSlot cb) (fun status s' => status = 0 → SlotMade cb D locked s g s') s := by
  rw [ensureSlot, wlp_bind, wlp_read, h.hasSpace]
  split
  case isTrue hem =>
    rw [makeSlot, wlp_bind, wlp_read]
    exact makeSlotFrom_order hlock _ h (by simpa using hem)
  case isFalse hem => exact wlp_pure.2 fun _ => .none h (by simpa using hem)

def SpaceMade (cb : Callbacks ω) (D : DataSection) (locked : Int → Bool) (s : QueueIndexManager ω) (g : Ghost)
    (extent r : Nat) (s' : QueueIndexManager ω) : Prop :=
  ∃ n s₁ g₁ g', Evicted cb D locked s g n s₁ g₁ ∧ Taken D s₁ g₁ extent r s' g' ∧
    FirstAt locked (catalog s g) (fun regions => LargeGap D regions extent) n

theorem rlGet_order (cb : Callbacks ω) (locked : Int → Bool) (h : IndexInv D s g) (hpos : 0 < extent) :
    wp (onRl (RegionList.get extent)) (fun r s' =>
      r = RL_NONE ∧ s' = s ∧ ¬ LargeGap D (catalog s g).regions extent ∨
      r ≠ RL_NONE ∧ SpaceMade cb D locked s g extent r s') s := by
  refine (rlGet_best h hpos).mono ?_
  intro r s' hr
  rcases hr with ⟨hr, hs', hless⟩ | ⟨hr, hbest, -, own, ht⟩
  · refine .inl ⟨hr, hs', fun hgap => ?_⟩
    obtain ⟨x, hx, hle⟩ := h.largeGap_iff.1 hgap
    exact absurd (hless x hx) (Nat.not_lt.2 hle)
  · refine .inr ⟨hr, 0, s, g, _, .refl h, ht, firstAt_zero ?_⟩
    exact h.largeGap_iff.2 ⟨r, hbest.mem, hbest.enough⟩

theorem makeSpaceFrom_order (hlock : Locks cb locked) (hpos : 0 < extent) :
    ∀ (fuel : Nat) {s : QueueIndexManager ω} {g : Ghost}, IndexInv D s g → ¬ LargeGap D (catalog s g).regions extent →
    wlp (makeSpaceFrom cb extent fuel) (fun res s' => ∀ r, res = .ok r → SpaceMade cb D locked s g extent r s') s
  | 0, _, _, _, _ => by simp [makeSpaceFrom]
  | fuel + 1, s, g, h, hno => by
    rw [makeSpaceFrom, wlp_bind, wlp_read]
    split
    case isTrue => exact wlp_pure.2 fun r hr => by cases hr
    case isFalse =>
    rw [wlp_bind]
    refine (deleteOldest_order h hlock).mono ?_
    intro status s₁ hev
    split
    case isTrue => exact wlp_pure.2 fun r hr => by cases hr
    case isFalse hst =>
    obtain ⟨g₁, hev⟩ := hev (not_not.1 hst)
    have h1 := hev.shrunk.inv
    have hafter : ∀ r s', SpaceMade cb D locked s₁ g₁ extent r s' → SpaceMade cb D locked s g extent r s' := by
      rintro r s' ⟨n, s₂, g₂, g', hev', ht, hn⟩
      exact ⟨1 + n, s₂, g₂, g', hev.trans h hev', ht, hev.firstAt_succ h hno hn⟩
    rw [wlp_bind]
    refine (rlGet_order cb locked h1 hpos).wlp.mono ?_
    intro r s₂ hr
    rcases hr with ⟨hr, hs2, hno1⟩ | ⟨hr, hmade⟩
    · rw [if_pos hr, hs2]
      refine (makeSpaceFrom_order hlock hpos fuel h1 hno1).mono ?_
      exact fun _ s' hmade r hr => hafter r s' (hmade r hr)
    · rw [if_neg hr, wlp_pure]
      intro r' hr'
      cases hr'
      exact hafter r s₂ hmade

theorem takeRegion_order (h : IndexInv D s g) (hlock : Locks cb locked) (hpos : 0 < extent) :
    wlp (takeRegion cb extent) (fun res s' => ∀ r, res = .ok r → SpaceMade cb D locked s g extent r s') s := by
  rw [takeRegion, wlp_bind]
  refine (rlGet_order cb locked h hpos).wlp.mono ?_
  intro r s₁ hr
  rcases hr with ⟨hr, hs1, hno⟩ | ⟨hr, hmade⟩
  · rw [if_pos hr, makeSpace, wlp_bind, wlp_read, hs1]
    exact makeSpaceFrom_order hlock hpos _ h hno
  · rw [if_neg hr, wlp_pure]
    intro r' hr'
    cases hr'
    exact hmade

/-! ## Allocating -/

def Ready (D : DataSection) (locked : Int → Bool) (s : QueueIndexManager ω) (g : Ghost) (extent r : Nat)
    (s' : QueueIndexManager ω) : Prop :=
  ∃ n s₂ g₂ g', Taken D s₂ g₂ extent r s' g' ∧ g₂.em ≠ [] ∧ s₂.smallestExtentSeen ≤ extent ∧
    (catalog s₂ g₂).times = timesAfterEvicting locked (catalog s g).times n ∧
    (catalog s₂ g₂).regions = regionsAfter locked (catalog s g).times (catalog s g).regions n ∧
    FirstAt locked (catalog s g) (fun regions => HasRoom D s.rl.nalloc regions extent) n

theorem SlotMade.takeRegion_ready (h : IndexInv D s g) (hslot : SlotMade cb D locked s g s₁) (hlock : Locks cb locked)
    (hpos : 0 < extent) :
    wlp (takeRegion cb extent) (fun res s' => ∀ r, res = .ok r → Ready D locked s g extent r s')
      { s₁ with smallestExtentSeen := min extent s₁.smallestExtentSeen } := by
  obtain ⟨n1, g₁, hev1, hem1, hfirst1⟩ := hslot
  have h1 := hev1.shrunk.inv.control s₁.env s₁.isFull (min extent s₁.smallestExtentSeen)
  refine (takeRegion_order h1 hlock hpos).mono ?_
  intro res s' hmade r hr
  obtain ⟨n2, s₂, g₂, g', hev2, ht, hfirst2⟩ := hmade r hr
  have hadd := hev1.regions_add h
  have hregions : (catalog s₂ g₂).regions = regionsAfter locked (catalog s g).times (catalog s g).regions (n1 + n2) :=
    hev2.regions.trans (hadd n2)
  have htimes : (catalog s₂ g₂).times = timesAfterEvicting locked (catalog s g).times (n1 + n2) := by
    rw [← timesAfter_add h.times_nodup, ← hev1.times]
    exact hev2.times
  have hem2 : g₂.em ≠ [] :=
    ne_nil_of_length_pos (Nat.lt_of_lt_of_le (length_pos_of_ne_nil hem1) hev2.shrunk.empties)
  have hsm : s₂.smallestExtentSeen ≤ extent := by
    rw [hev2.shrunk.smallest]
    exact Nat.min_le_left _ _
  refine ⟨n1 + n2, s₂, g₂, g', ht, hem2, hsm, htimes, hregions, ?_, ?_⟩
  · rw [Set.mem_ofPred_eq, ← hregions]
    have hslots : s₂.rl.nalloc = s.rl.nalloc := hev2.slots.trans hev1.slots
    refine ⟨by rw [← hslots]; exact hev2.shrunk.inv.emptySlot_iff.2 hem2, ?_⟩
    have hgap := hfirst2.1
    rw [Set.mem_ofPred_eq, ← hev2.regions] at hgap
    exact hgap
  · rintro i ⟨hempty, hgap⟩
    obtain ⟨k, rfl⟩ := Nat.exists_eq_add_of_le (hfirst1.2 hempty)
    rw [← hadd] at hgap
    exact Nat.add_le_add_left (hfirst2.2 hgap) n1

def Replaced (D : DataSection) (locked : Int → Bool) (s : QueueIndexManager ω) (g : Ghost) (extent : Nat)
    (region : Int × Nat) (s' : QueueIndexManager ω) : Prop :=
  ∃ n, s'.times = timesAfterEvicting locked (catalog s g).times n ∧
    (s'.regions : Multiset (Int × Nat)) = region ::ₘ regionsAfter locked (catalog s g).times (catalog s g).regions n ∧
    FirstAt locked (catalog s g) (fun regions => HasRoom D s.rl.nalloc regions extent) n ∧ extent ≤ region.2

theorem allocateRegion_order (h : IndexInv D s g) (hlock : Locks cb locked) (hpos : 0 < extent)
    (hfit : extent + D.align ≤ 2 ^ 64) (sig : Signature) :
    wlp (allocateRegion cb extent sig) (fun res s' => ∀ r, res = .ok r →
      Replaced D locked s g (roundUp extent D.align) (regionOf s'.rl r) s') s := by
  rw [allocateRegion, wlp_bind]
  refine (sxFind_spec h sig).wlp.mono ?_
  rintro dup s0 ⟨rfl, -⟩
  split
  case isTrue => exact wlp_pure.2 fun r hr => by cases hr
  case isFalse =>
  rw [wlp_bind]
  refine ((ensureSlot_spec h).wlp.and (ensureSlot_order h hlock)).mono ?_
  rintro status s₁ ⟨⟨g₁, hsh, -⟩, hslot⟩
  split
  case isTrue => exact wlp_pure.2 fun r hr => by cases hr
  case isFalse hst =>
  obtain ⟨hal, hle, -⟩ := roundUp_spec D.align_pos hfit hpos
  rw [wlp_bind, wlp_read, hsh.inv.align, wlp_bind, wlp_modify, wlp_bind]
  refine ((hslot (not_not.1 hst)).takeRegion_ready h hlock (by omega)).mono ?_
  intro res s₂ hready
  cases res with
  | error status => exact wlp_pure.2 fun r hr => by cases hr
  | ok r =>
    obtain ⟨n, s3, g3, g', ht, hem, hsm, htimes, hregions, hfirst⟩ := hready r rfl
    dsimp only
    rw [wlp_bind]
    refine (ht.finish hem (by omega) hal hsm).wlp.mono ?_
    rintro st s4 ⟨hst, hrest⟩
    rw [if_neg (not_not.2 hst), wlp_bind]
    refine hrest.wlp.mono ?_
    rintro _ s5 ⟨-, hle5, g5, h5, hcat⟩
    refine wlp_pure.2 fun r' hr' => ?_
    cases hr'
    refine ⟨n, ?_, ?_, hfirst, hle5⟩
    · rw [h5.times_eq, hcat, ← htimes]
      rfl
    · rw [h5.regions_eq, hcat, ← hregions]
      rfl

theorem allocateProductSpace_order (h : IndexInv D s g) (hpair : (catalog s g).sigs.card = (catalog s g).regions.card)
    (hlock : Locks cb locked) (hpos : 0 < extent) (hfit : extent + D.align ≤ 2 ^ 64) (sig : Signature) :
    wlp (allocateProductSpace cb extent sig) (fun res s' => ∀ region, res = .ok region →
      Replaced D locked s g (roundUp extent D.align) region s') s := by
  rw [allocateProductSpace, wlp_bind]
  refine ((allocateRegion_spec h hpos hfit sig).wlp.and (allocateRegion_order h hlock hpos hfit sig)).mono ?_
  rintro res s₁ ⟨⟨g₁, h1, hres⟩, horder⟩
  rcases hres with ⟨st, rfl, -⟩ | ⟨r, a, rfl, -, hsig, hev, hcat⟩
  · exact wlp_pure.2 fun region hr => by cases hr
  obtain ⟨n, htimes, hregions, hfirst, hle⟩ := horder r rfl
  dsimp only
  rw [wlp_bind, wlp_read, wlp_bind]
  refine (fileRegion_spec h1 hcat (hev.paired hpair) hsig).wlp.mono ?_
  rintro sxep s₂ ⟨hsome, -, g₂, h2, hcat2⟩
  obtain ⟨x, rfl⟩ := Option.isSome_iff_exists.1 hsome
  refine wlp_pure.2 fun region hr => ?_
  cases hr
  -- the times and the regions are those found before the signature was filed
  rw [h1.times_eq, hcat] at htimes
  rw [h1.regions_eq, hcat] at hregions
  refine ⟨n, ?_, ?_, hfirst, hle⟩
  · rw [h2.times_eq, hcat2]
    exact htimes
  · rw [h2.regions_eq, hcat2]
    exact hregions

end QueueIndexManager

open QueueIndexManager

/-- **Allocation deletes the oldest products that are not locked, and no more than it must.** When
`AllocateProductSpace` succeeds, the products it deleted are the first `j` that are not locked, where `j` is the least
number of deletions that leave room. A region that was taken can always be trimmed. -/
theorem evicts_oldest_until_room {D : DataSection} {P : QueueOp → Prop} {a : Audit} (h : Reached D P a)
    {cb : Callbacks World} {locked : Int → Bool} (hlock : Locks cb locked) {extent : Nat} (hpos : 0 < extent)
    (hfit : extent + D.align ≤ 2 ^ 64) (sig : Signature) :
    (∀ off ext ix', (allocateProductSpace cb extent sig a.queue.ix).returned = some (.ok (off, ext), ix') →
      ∃ j, IsLeast {i | HasRoom D a.queue.ix.rl.nalloc (regionsAfter locked a.queue.ix.times a.queue.ix.regions i)
          (roundUp extent D.align)} j ∧
        ix'.times = timesAfterEvicting locked a.queue.ix.times j ∧
        (ix'.regions : Multiset (Int × Nat)) = (off, ext) ::ₘ regionsAfter locked a.queue.ix.times
        a.queue.ix.regions j ∧ extent ≤ ext) ∧
    ∀ ix₁ rlix ix₂, (ensureSlot cb a.queue.ix).returned = some (0, ix₁) →
      (takeRegion cb (roundUp extent D.align)
        { ix₁ with smallestExtentSeen := min (roundUp extent D.align) ix₁.smallestExtentSeen }).returned =
          some (.ok rlix, ix₂) →
      wp (trimRegion rlix (roundUp extent D.align)) (fun status _ => status = 0) ix₂ := by
  obtain ⟨⟨g, hk⟩, -⟩ := h.holds
  obtain ⟨hal, hle, -⟩ := roundUp_spec D.align_pos hfit hpos
  constructor
  · intro off ext ix' hres
    obtain ⟨j, htimes, hregions, hfirst, hext⟩ :=
      (allocateProductSpace_order hk.inv hk.paired hlock hpos hfit sig).of_returned hres _ rfl
    rw [← hk.inv.times_eq, ← hk.inv.regions_eq] at hregions
    rw [← hk.inv.times_eq] at htimes
    rw [FirstAt, ← hk.inv.times_eq, ← hk.inv.regions_eq] at hfirst
    exact ⟨j, hfirst, htimes, hregions, hle.trans hext⟩
  · intro ix₁ rlix ix₂ hslot htake
    have hmade := (ensureSlot_order hk.inv hlock).of_returned hslot rfl
    obtain ⟨n, s₂, g₂, g', ht, hem, hsm, -⟩ :=
      (hmade.takeRegion_ready hk.inv hlock (by omega)).of_returned htake rlix rfl
    exact (ht.finish hem (by omega) hal hsm).mono fun _ _ hfin => hfin.1

def firstLocked : Callbacks World where
  decode := fun off _ w => if off = 4096 then ((EACCES, {}), w) else ((0, sampleInfo 2), w)
  mvrt := fun _ _ _ w => w

theorem firstLocked_locks : Locks firstLocked fun off => off = 4096 := by
  intro off ext w
  by_cases hoff : off = 4096
  · simp [firstLocked, hoff]
  · simp [firstLocked, hoff, EACCES]

/-- The second of two products is deleted for one that needs the space of it. -/
theorem evicts_oldest_until_room_second : ∃ (a : Audit) (off : Int) (ext : Nat) (ix' : QueueIndexManager World),
    Reached smallSection (fun _ => True) a ∧ a.queue.ix.times = [(⟨1, 0⟩, 4096), (⟨3, 0⟩, 4240)] ∧
    (allocateProductSpace firstLocked 800 (Signature.fill 3) a.queue.ix).returned = some (.ok (off, ext), ix') ∧
    ix'.times = [(⟨1, 0⟩, 4096)] ∧
    (∃ j, IsLeast {i | HasRoom smallSection a.queue.ix.rl.nalloc (regionsAfter (fun off => off = 4096) a.queue.ix.times
      a.queue.ix.regions i) 800} j ∧ ix'.times = timesAfterEvicting (fun off => off = 4096) a.queue.ix.times j) := by
  obtain ⟨a, hreach, htimes, ix', hres, htimes'⟩ : ∃ a : Audit, Reached smallSection (fun _ => True) a ∧
      a.queue.ix.times = [(⟨1, 0⟩, 4096), (⟨3, 0⟩, 4240)] ∧
      ∃ ix', (allocateProductSpace firstLocked 800 (Signature.fill 3) a.queue.ix).returned =
      some (.ok (4240, 880), ix') ∧
        ix'.times = [(⟨1, 0⟩, 4096)] := by
    refine exists_run 8 (q := blankQueue 8 tick) rfl rfl
      [.newElement (sampleInfo 1) true, .commit 0, .newElement (sampleInfo 2) true, .commit 0] ?_
    decide +kernel
  obtain ⟨j, hj, hafter, -, -⟩ := (evicts_oldest_until_room hreach firstLocked_locks (by decide : 0 < 800)
    (by decide : 800 + smallSection.align ≤ 2 ^ 64) (Signature.fill 3)).1 _ _ _ hres
  exact ⟨a, 4240, 880, ix', hreach, htimes, hres, htimes', j, hj, hafter⟩

/-- An extent that is rounded up past the largest number is taken for 0, and the new region has no byte. -/
theorem overlong_extent_wraps : ∃ (a : Audit) (off : Int) (ix' : QueueIndexManager World),
    Reached smallSection (fun _ => True) a ∧ Locks firstLocked (fun off => off = 4096) ∧
    Signature.fill 3 ∉ a.queue.ix.filed.map Prod.fst ∧
    (allocateProductSpace firstLocked (2 ^ 64 - 1) (Signature.fill 3) a.queue.ix).returned =
    some (.ok (off, 0), ix') := by
  obtain ⟨a, hreach, hfiled, ix', hres⟩ : ∃ a : Audit, Reached smallSection (fun _ => True) a ∧
      Signature.fill 3 ∉ a.queue.ix.filed.map Prod.fst ∧
      ∃ ix', (allocateProductSpace firstLocked (2 ^ 64 - 1) (Signature.fill 3) a.queue.ix).returned =
        some (.ok (4096, 0), ix') := by
    apply exists_computed tick []
    decide +kernel
  exact ⟨a, 4096, ix', hreach, firstLocked_locks, hfiled, hres⟩

end Rdm
