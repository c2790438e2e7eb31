import Mathlib.Data.Nat.ModEq
import Rdm.Lib.Lockstep
import Rdm.Lib.Rounding
import Rdm.Pq.FreeBlockInit
import Rdm.Pq.RegionList
import Rdm.Pq.SignatureIndex
import Rdm.Pq.TimeQueue

/-!
# The layout of the index

`ix_sz` computes how many bytes the four structures of the index take, `ix_ptrs` where they are. Both keep what they
computed last in statics.
-/

namespace Rdm

open ProgLogic ProgLogic.Prog Rounding List
open Option (bind_some some)

/-! ## The sizes of the structures -/

def SIZE_T : Nat := 8

namespace RegionList

def RL_NALLOC_INITIAL : Nat := 5

def sizeofRegion : Nat := 4 * SIZE_T

def sizeofRegionList : Nat := 17 * SIZE_T + RL_NALLOC_INITIAL * sizeofRegion

def sizeofRegionHash : Nat := 2 * SIZE_T

def requiredSize (nelems : Nat) : Nat :=
  let arraySize := sizeofRegionList - sizeofRegion * RL_NALLOC_INITIAL + (nelems + RL_FREE_OVERHEAD) * sizeofRegion
  let hashSize := sizeofRegionHash - SIZE_T + calculateNumChains nelems * SIZE_T
  (arraySize + hashSize) % 2 ^ 64

end RegionList

namespace TimeQueue

def TQ_NALLOC_INITIAL : Nat := 84

def sizeofElement : Nat := 4 * SIZE_T

def sizeofTimeQueue : Nat := 6 * SIZE_T + TQ_NALLOC_INITIAL * sizeofElement

def requiredSize (nelems : Nat) : Nat :=
  (sizeofTimeQueue - sizeofElement * TQ_NALLOC_INITIAL + (nelems + TQ_OVERHEAD_ELEMS) * sizeofElement) % 2 ^ 64

end TimeQueue

namespace FreeBlock

def FBLKS_NALLOC_INITIAL : Nat := 2

def sizeofFreeBlock : Nat := 5 * SIZE_T + 2 * FB_MAX_LEVELS * SIZE_T + FBLKS_NALLOC_INITIAL * SIZE_T

def requiredSize (nelems : Nat) : Nat :=
  (sizeofFreeBlock - SIZE_T * FBLKS_NALLOC_INITIAL + getArenaSize nelems * SIZE_T) % 2 ^ 64

end FreeBlock

namespace SignatureIndex

def SX_NALLOC_INITIAL : Nat := 9

def SXHASH_NALLOC_INITIAL : Nat := 2

def sizeofElement : Nat := 16 + 2 * SIZE_T

def sizeofSignatureIndex : Nat := 5 * SIZE_T + SX_NALLOC_INITIAL * sizeofElement

def sizeofSignatureHash : Nat := SIZE_T + SXHASH_NALLOC_INITIAL * SIZE_T

def requiredSize (nelems : Nat) : Nat :=
  let elemSize := sizeofSignatureIndex - sizeofElement * SX_NALLOC_INITIAL + nelems * sizeofElement
  let hashSize := sizeofSignatureHash - SIZE_T * SXHASH_NALLOC_INITIAL + calcNchains nelems * SIZE_T
  (elemSize + hashSize) % 2 ^ 64

end SignatureIndex

/-! ## The chains -/

theorem RegionList.initList_nchains (o : FreeOrder) (head : Nat) (tailOffset : Int) (tailExtent : Nat) (s : RlFb) :
    wlp (initList o head tailOffset tailExtent) (fun _ s' => s'.rl.nchains = s.rl.nchains) s := by
  rw [initList]
  simp only [onFb, modRl, wlp_bind, wlp_read, wlp_zoom, wlp_modify]
  exact wlp_true.mono fun _ _ _ => wlp_true.mono fun _ _ _ => rfl

theorem RegionList.initialise_nchains (nalloc : Nat) (s : RlFb) :
    wlp (initialise nalloc) (fun _ s' => s'.rl.nchains = calculateNumChains nalloc) s := by
  rw [initialise, initOffsets, initExtents]
  simp only [modRl, wlp_bind, wlp_modify]
  refine (initList_nchains .offset _ _ _ _).mono fun _ s1 h1 => ?_
  simp only [wlp_bind, wlp_modify]
  refine (initList_nchains .extent _ _ _ _).mono fun _ s2 h2 => ?_
  simp only [wlp_bind, wlp_modify, wlp_read, wlp_assert]
  intro _
  exact h2.trans h1

/-- **Both hash tables have at least two chains**: `prevPrime` ends in the largest prime up to its argument, or in
`2`. -/
theorem two_chains_at_least :
    (∀ n, 3 ≤ n → n < 2 ^ 63 → ∀ fuel, n < fuel →
      ∃ p, prevPrimeWithin fuel n = some p ∧ IsGreatest {q | q.Prime ∧ q ≤ n} p) ∧
    (∀ n, n ≤ 2 → ∀ fuel, prevPrimeWithin fuel n = some 2) ∧
    ∀ nelems, nelems < 2 ^ 64 →
      (∀ fuel, nelems < fuel →
        prevPrimeWithin fuel (nelems / RL_EXP_CHAIN_LEN) = some (RegionList.calculateNumChains nelems) ∧
        prevPrimeWithin fuel (nelems / SX_EXP_CHAIN_LEN) = some (SignatureIndex.calcNchains nelems)) ∧
      (∀ s, wlp (RegionList.initialise nelems) (fun _ s' => 2 ≤ s'.rl.nchains) s) ∧
      ∀ sx, wp (SignatureIndex.initialise nelems) (fun _ sx' => 2 ≤ sx'.nchains) sx := by
  refine ⟨fun n h3 hn fuel hfuel => ⟨prevPrime n, prevPrimeWithin_eq hn hfuel, prevPrime_greatest h3⟩, ?_, ?_⟩
  · intro n h2 fuel
    rw [prevPrimeWithin, if_pos h2]
  · intro nelems hn
    refine ⟨fun fuel hfuel => ⟨prevPrimeWithin_eq ?_ ?_, prevPrimeWithin_eq ?_ ?_⟩, fun s => ?_, fun sx => ?_⟩
    · unfold RL_EXP_CHAIN_LEN
      omega
    · exact Nat.lt_of_le_of_lt (Nat.div_le_self _ _) hfuel
    · unfold SX_EXP_CHAIN_LEN
      omega
    · exact Nat.lt_of_le_of_lt (Nat.div_le_self _ _) hfuel
    · refine (RegionList.initialise_nchains nelems s).mono fun _ s' h => ?_
      rw [h]
      exact two_le_prevPrime _
    · rw [SignatureIndex.initialise, wp_modify]
      exact two_le_prevPrime _

/-! ## The statics -/

/-- `prev_nelems` and `cached_size` of a function. -/
structure SizeCache where
  prevNelems : Nat
  cachedSize : Nat
deriving DecidableEq

def SizeCache.getRequiredSize (requiredSize : Nat → Nat) (nelems : Nat) : Prog SizeCache Nat := do
  assert (nelems ≠ 0)
  modify fun c => if nelems ≠ c.prevNelems then ⟨nelems, requiredSize nelems⟩ else c
  let c ← read
  return c.cachedSize

structure IndexSizes where
  rl : Nat
  tq : Nat
  fb : Nat
  sx : Nat
deriving DecidableEq

structure IndexLayout where
  rl : Nat
  tq : Nat
  fb : Nat
  sx : Nat
deriving DecidableEq

structure IndexStatics where
  rl : SizeCache
  tq : SizeCache
  fb : SizeCache
  sx : SizeCache
  area : SizeCache
  ptrsNelems : Nat
  sizes : IndexSizes
deriving DecidableEq

namespace IndexLayer

def fresh : IndexStatics := ⟨⟨0, 0⟩, ⟨0, 0⟩, ⟨0, 0⟩, ⟨0, 0⟩, ⟨0, 0⟩, 0, ⟨0, 0, 0, 0⟩⟩

def getRequiredSizes (nelems : Nat) : Prog IndexStatics IndexSizes := do
  let rl ← zoom (·.rl) (fun c s => { s with rl := c }) (SizeCache.getRequiredSize RegionList.requiredSize nelems)
  let tq ← zoom (·.tq) (fun c s => { s with tq := c }) (SizeCache.getRequiredSize TimeQueue.requiredSize nelems)
  assert (3 * nelems / 4 < 2 ^ 31)
  let fb ← zoom (·.fb) (fun c s => { s with fb := c }) (SizeCache.getRequiredSize FreeBlock.requiredSize nelems)
  let sx ← zoom (·.sx) (fun c s => { s with sx := c }) (SizeCache.getRequiredSize SignatureIndex.requiredSize nelems)
  return ⟨rl, tq, fb, sx⟩

def area (z : IndexSizes) (align : Nat) : Nat :=
  (roundUp z.rl align + roundUp z.tq align + roundUp z.fb align + roundUp z.sx align) % 2 ^ 64

def ixSz (nelems align : Nat) : Prog IndexStatics Nat := do
  assert (nelems ≠ 0)
  let s ← read
  if nelems ≠ s.area.prevNelems then
    assert (align ≠ 0)
    let z ← getRequiredSizes nelems
    modify fun s => { s with area := ⟨nelems, area z align⟩ }
    return area z align
  else return s.area.cachedSize

def place (z : IndexSizes) (ix align : Nat) : IndexLayout :=
  let tq := roundUp (sizeAdd ix z.rl) align
  let fb := roundUp (sizeAdd tq z.tq) align
  let sx := roundUp (sizeAdd fb z.fb) align
  ⟨ix, tq, fb, sx⟩

def ptrsSizes (nelems : Nat) : Prog IndexStatics IndexSizes := do
  let s ← read
  if nelems ≠ s.ptrsNelems then
    let z ← getRequiredSizes nelems
    modify fun s => { s with ptrsNelems := nelems, sizes := z }
    return z
  else return s.sizes

def ixPtrs (ix ixsz nelems align : Nat) : Prog IndexStatics (Int × IndexLayout) := do
  assert (nelems ≠ 0)
  let z ← ptrsSizes nelems
  assert (align ≠ 0)
  let layout := place z ix align
  assert (sizeAdd layout.sx z.sx ≤ sizeAdd ix ixsz)
  return (1, layout)

inductive IndexCall where
  | ixSz (nelems align : Nat)
  | ixPtrs (ix ixsz nelems align : Nat)
deriving DecidableEq

def IndexCall.run : IndexCall → Prog IndexStatics Unit
  | .ixSz nelems align => do
    let _ ← IndexLayer.ixSz nelems align
    return ()
  | .ixPtrs ix ixsz nelems align => do
    let _ ← IndexLayer.ixPtrs ix ixsz nelems align
    return ()

def runCalls : List IndexCall → Prog IndexStatics Unit
  | [] => return ()
  | call :: calls => do
    call.run
    runCalls calls

/-! ## The statics are right -/

variable {s : IndexStatics} {nelems align ix ixsz : Nat} {calls : List IndexCall} {z : IndexSizes} {ix' : Nat}

def requiredSizes (nelems : Nat) : IndexSizes :=
  ⟨RegionList.requiredSize nelems, TimeQueue.requiredSize nelems, FreeBlock.requiredSize nelems,
    SignatureIndex.requiredSize nelems⟩

def Right (requiredSize : Nat → Nat) (c : SizeCache) : Prop :=
    c.prevNelems ≠ 0 → c.cachedSize = requiredSize c.prevNelems

structure Cached (s : IndexStatics) : Prop where
  rl : Right RegionList.requiredSize s.rl
  tq : Right TimeQueue.requiredSize s.tq
  fb : Right FreeBlock.requiredSize s.fb
  sx : Right SignatureIndex.requiredSize s.sx
  ptrs : s.ptrsNelems ≠ 0 → s.sizes = requiredSizes s.ptrsNelems

def cacheKey : Nat × Nat → List IndexCall → Nat × Nat
  | key, [] => key
  | key, .ixSz nelems align :: calls => cacheKey (if nelems ≠ key.1 then (nelems, align) else key) calls
  | key, .ixPtrs _ _ _ _ :: calls => cacheKey key calls

/-- What `ix_sz` keeps. -/
structure Filled (key : Nat × Nat) (s : IndexStatics) : Prop where
  prevNelems : s.area.prevNelems = key.1
  cachedSize : key.1 ≠ 0 → s.area.cachedSize = area (requiredSizes key.1) key.2

theorem cached_fresh : Cached fresh :=
  ⟨fun h => absurd rfl h, fun h => absurd rfl h, fun h => absurd rfl h, fun h => absurd rfl h, fun h => absurd rfl h⟩

theorem filled_fresh : Filled (0, 0) fresh := ⟨rfl, fun h => absurd rfl h⟩

theorem getRequiredSize_returned {requiredSize : Nat → Nat} {c : SizeCache} (h : Right requiredSize c) :
    (SizeCache.getRequiredSize requiredSize nelems c).returned =
      if nelems ≠ 0 then some (requiredSize nelems, ⟨nelems, requiredSize nelems⟩) else none := by
  rw [SizeCache.getRequiredSize, returned_bind_eq, returned_assert_eq]
  by_cases hn : nelems ≠ 0
  · have hkeep : (if nelems ≠ c.prevNelems then ⟨nelems, requiredSize nelems⟩ else c) =
        (⟨nelems, requiredSize nelems⟩ : SizeCache) := by
      by_cases hp : nelems = c.prevNelems
      · subst hp
        rw [if_neg (by simp), ← h hn]
      · rw [if_pos hp]
    rw [if_pos hn, if_pos hn]
    show some ((if nelems ≠ c.prevNelems then ⟨nelems, requiredSize nelems⟩ else c : SizeCache).cachedSize,
      (if nelems ≠ c.prevNelems then ⟨nelems, requiredSize nelems⟩ else c : SizeCache)) = _
    rw [hkeep]
  · rw [if_neg hn, if_neg hn]
    rfl

def computed (nelems : Nat) (s : IndexStatics) : IndexStatics := { s with
  rl := ⟨nelems, RegionList.requiredSize nelems⟩
  tq := ⟨nelems, TimeQueue.requiredSize nelems⟩
  fb := ⟨nelems, FreeBlock.requiredSize nelems⟩
  sx := ⟨nelems, SignatureIndex.requiredSize nelems⟩ }

def Sizable (nelems : Nat) : Prop := nelems ≠ 0 ∧ 3 * nelems / 4 < 2 ^ 31

instance (nelems : Nat) : Decidable (Sizable nelems) :=
    inferInstanceAs (Decidable (nelems ≠ 0 ∧ 3 * nelems / 4 < 2 ^ 31))

theorem getRequiredSizes_returned (h : Cached s) : (getRequiredSizes nelems s).returned =
    if Sizable nelems then some (requiredSizes nelems, computed nelems s) else none := by
  unfold getRequiredSizes
  by_cases hn : nelems ≠ 0
  · by_cases hint : 3 * nelems / 4 < 2 ^ 31
    · simp only [returned_bind_eq, returned_zoom_eq, returned_assert_eq, getRequiredSize_returned h.rl,
        getRequiredSize_returned h.tq, getRequiredSize_returned h.fb, getRequiredSize_returned h.sx, if_pos hn,
        if_pos hint, Option.map_some, bind_some, if_pos (show Sizable nelems from ⟨hn, hint⟩)]
      rfl
    · simp only [returned_bind_eq, returned_zoom_eq, returned_assert_eq, getRequiredSize_returned h.rl,
        getRequiredSize_returned h.tq, if_pos hn, if_neg hint, Option.map_some, bind_some, Option.bind_none]
      rw [if_neg fun h => hint h.2]
  · simp only [returned_bind_eq, returned_zoom_eq, getRequiredSize_returned h.rl, if_neg hn, Option.map_none,
      Option.bind_none]
    rw [if_neg fun h => hn h.1]

theorem Cached.computed (h : Cached s) (nelems : Nat) : Cached (computed nelems s) :=
  ⟨fun _ => rfl, fun _ => rfl, fun _ => rfl, fun _ => rfl, h.ptrs⟩

/-- **`ix_sz` returns what it keeps**, if that is for the same number of slots. -/
theorem ixSz_kept (hn : nelems ≠ 0) (hkey : s.area.prevNelems = nelems) :
    (ixSz nelems align s).returned = some (s.area.cachedSize, s) := by
  rw [ixSz, returned_bind_eq, returned_assert_eq, if_pos hn, bind_some, returned_bind_eq]
  show ((if nelems ≠ s.area.prevNelems then _ else _ : Prog IndexStatics Nat) s).returned = _
  rw [if_neg fun h => h hkey.symm]
  rfl

theorem ixSz_computed (h : Cached s) (hkey : s.area.prevNelems ≠ nelems) : (ixSz nelems align s).returned =
    if Sizable nelems ∧ align ≠ 0 then
      some (area (requiredSizes nelems) align,
        { computed nelems s with area := ⟨nelems, area (requiredSizes nelems) align⟩ })
    else none := by
  by_cases hn : nelems ≠ 0
  · rw [ixSz, returned_bind_eq, returned_assert_eq, if_pos hn, bind_some, returned_bind_eq]
    show ((if nelems ≠ s.area.prevNelems then _ else _ : Prog IndexStatics Nat) s).returned = _
    rw [if_pos hkey.symm, returned_bind_eq, returned_assert_eq]
    by_cases ha : align ≠ 0
    · rw [if_pos ha, bind_some, returned_bind_eq, getRequiredSizes_returned h]
      by_cases hint : Sizable nelems
      · rw [if_pos hint, if_pos ⟨hint, ha⟩]
        rfl
      · rw [if_neg hint, if_neg fun h => hint h.1]
        rfl
    · rw [if_neg ha, if_neg fun h => ha h.2]
      rfl
  · rw [ixSz, returned_bind_eq, returned_assert_eq, if_neg hn, if_neg fun h => hn h.1.1]
    rfl

def laidOut (nelems : Nat) (s : IndexStatics) : IndexStatics :=
  if nelems ≠ s.ptrsNelems then { computed nelems s with ptrsNelems := nelems, sizes := requiredSizes nelems } else s

theorem Cached.laidOut (h : Cached s) (nelems : Nat) : Cached (laidOut nelems s) := by
  unfold IndexLayer.laidOut
  split
  · exact ⟨fun _ => rfl, fun _ => rfl, fun _ => rfl, fun _ => rfl, fun _ => rfl⟩
  · exact h

/-- **`ix_ptrs` uses the sizes of its structures**, whatever it keeps. -/
theorem ptrsSizes_returned (h : Cached s) (hn : nelems ≠ 0) : (ptrsSizes nelems s).returned =
    if nelems = s.ptrsNelems ∨ Sizable nelems then some (requiredSizes nelems, laidOut nelems s) else none := by
  rw [ptrsSizes, returned_bind_eq]
  show ((if nelems ≠ s.ptrsNelems then _ else _ : Prog IndexStatics IndexSizes) s).returned = _
  by_cases hkey : nelems = s.ptrsNelems
  · have hz : s.sizes = requiredSizes nelems := by
      rw [hkey]
      exact h.ptrs (hkey ▸ hn)
    rw [if_neg (by simp [hkey]), if_pos (.inl hkey), ← hz, laidOut, if_neg (by simp [hkey])]
    rfl
  · rw [if_pos hkey, returned_bind_eq, getRequiredSizes_returned h]
    by_cases hint : Sizable nelems
    · rw [if_pos hint, if_pos (.inr hint), laidOut, if_pos hkey]
      rfl
    · rw [if_neg hint, if_neg fun h => h.elim hkey hint]
      rfl

def Fits (ix ixsz nelems align : Nat) : Prop :=
  align ≠ 0 ∧ sizeAdd (place (requiredSizes nelems) ix align).sx (requiredSizes nelems).sx ≤ sizeAdd ix ixsz

instance (ix ixsz nelems align : Nat) : Decidable (Fits ix ixsz nelems align) := inferInstanceAs (Decidable (_ ∧ _))

theorem ixPtrs_returned (h : Cached s) : (ixPtrs ix ixsz nelems align s).returned =
    if nelems ≠ 0 ∧ (nelems = s.ptrsNelems ∨ Sizable nelems) ∧ Fits ix ixsz nelems align then
      some ((1, place (requiredSizes nelems) ix align), laidOut nelems s)
    else none := by
  rw [ixPtrs, returned_bind_eq, returned_assert_eq]
  by_cases hn : nelems ≠ 0
  · rw [if_pos hn, bind_some, returned_bind_eq, ptrsSizes_returned h hn]
    by_cases hz : nelems = s.ptrsNelems ∨ Sizable nelems
    · rw [if_pos hz, bind_some, returned_bind_eq, returned_assert_eq]
      by_cases ha : align ≠ 0
      · rw [if_pos ha, bind_some, returned_bind_eq, returned_assert_eq]
        by_cases hfit : sizeAdd (place (requiredSizes nelems) ix align).sx (requiredSizes nelems).sx ≤ sizeAdd ix ixsz
        · rw [if_pos hfit, if_pos ⟨hn, hz, ha, hfit⟩]
          rfl
        · rw [if_neg hfit, if_neg fun h => hfit h.2.2.2]
          rfl
      · rw [if_neg ha, if_neg fun h => ha h.2.2.1]
        rfl
    · rw [if_neg hz, if_neg fun h => hz h.2.1]
      rfl
  · rw [if_neg hn, if_neg fun h => hn h.1]
    rfl

/-! ## Histories -/

theorem call_spec {key : Nat × Nat} (h : Cached s) (hf : Filled key s) (call : IndexCall) :
    wlp call.run (fun _ s' => Cached s' ∧ Filled (cacheKey key [call]) s') s := by
  cases call with
  | ixSz nelems align =>
    rw [IndexCall.run, wlp_bind, wlp_iff_returned]
    intro size s' hr
    rw [wlp_pure, cacheKey, cacheKey]
    by_cases hkey : s.area.prevNelems = nelems
    · -- the cached size is returned
      have hn : nelems ≠ 0 := by
        rintro rfl
        rw [ixSz, returned_bind_eq, returned_assert_eq] at hr
        simp at hr
      rw [ixSz_kept hn hkey] at hr
      simp only [some.injEq, Prod.mk.injEq] at hr
      obtain ⟨-, rfl⟩ := hr
      rw [if_neg (by simp [← hf.prevNelems, hkey])]
      exact ⟨h, hf⟩
    · rw [ixSz_computed h hkey] at hr
      split at hr
      · simp only [some.injEq, Prod.mk.injEq] at hr
        obtain ⟨-, rfl⟩ := hr
        have hnew : nelems ≠ key.1 := fun he => hkey (hf.prevNelems.trans he.symm)
        rw [if_pos hnew]
        have hc := h.computed nelems
        exact ⟨⟨hc.rl, hc.tq, hc.fb, hc.sx, hc.ptrs⟩, rfl, fun _ => rfl⟩
      · cases hr
  | ixPtrs ix ixsz nelems align =>
    rw [IndexCall.run, wlp_bind, wlp_iff_returned]
    intro res s' hr
    rw [ixPtrs_returned h] at hr
    split at hr
    · simp only [some.injEq, Prod.mk.injEq] at hr
      obtain ⟨-, rfl⟩ := hr
      rw [wlp_pure, cacheKey, cacheKey]
      refine ⟨h.laidOut nelems, ?_⟩
      unfold laidOut
      split
      · exact ⟨hf.prevNelems, hf.cachedSize⟩
      · exact hf
    · cases hr

/-- **Every history** leaves the caches right; that of `ix_sz` is for the alignment of the call that has filled it. -/
theorem runCalls_spec {key : Nat × Nat} (h : Cached s) (hf : Filled key s) :
    wlp (runCalls calls) (fun _ s' => Cached s' ∧ Filled (cacheKey key calls) s') s := by
  induction calls generalizing key s with
  | nil => exact wlp_pure.2 ⟨h, hf⟩
  | cons call calls ih =>
    rw [runCalls, wlp_bind]
    refine (call_spec h hf call).mono ?_
    intro _ s' hs'
    have hkey : cacheKey key (call :: calls) = cacheKey (cacheKey key [call]) calls := by
      cases call <;> rfl
    rw [hkey]
    exact ih hs'.1 hs'.2

/-! ## Where the structures are -/

theorem roundUp_eq_ceilTo {x u : Nat} (hu : 0 < u) (h : x + u ≤ 2 ^ 64) : roundUp x u = ceilTo x u := by
  have hsub : sizeSub (sizeAdd x u) 1 = x + u - 1 := by
    unfold sizeSub sizeAdd
    split <;> omega
  have hle : (x + u - 1) / u * u ≤ x + u - 1 := Nat.div_mul_le_self _ _
  rw [roundUp, hsub, Nat.mod_eq_of_lt (by omega), ceilTo]

def shift (o : IndexLayout) (ix : Nat) : IndexLayout := ⟨ix + o.rl, ix + o.tq, ix + o.fb, ix + o.sx⟩

def span (z : IndexSizes) (align : Nat) : Nat := z.rl + z.tq + z.fb + z.sx + 3 * align

theorem roundUp_congr (ha : 0 < align) (hb : ix % align = ix' % align) {n : Nat} (hfit : ix + n + align ≤ 2 ^ 64)
    (hfit' : ix' + n + align ≤ 2 ^ 64) :
    ∃ o, n ≤ o ∧ o < n + align ∧ roundUp (sizeAdd ix n) align = ix + o ∧ roundUp (sizeAdd ix' n) align = ix' + o := by
  rw [sizeAdd_of_lt (by omega), sizeAdd_of_lt (by omega), roundUp_eq_ceilTo ha hfit, roundUp_eq_ceilTo ha hfit']
  exact ceilTo_congr ha hb n

/-- **The layout at two addresses** that leave the same remainder is the same. -/
theorem place_congr (ha : 0 < align) (hb : ix % align = ix' % align) (hfit : ix + span z align ≤ 2 ^ 64)
    (hfit' : ix' + span z align ≤ 2 ^ 64) :
    ∃ o, place z ix align = shift o ix ∧ place z ix' align = shift o ix' ∧ o.sx + z.sx < span z align := by
  unfold span at hfit hfit' ⊢
  obtain ⟨tq, htq, htq', e1, e1'⟩ := roundUp_congr ha hb (n := z.rl) (by omega) (by omega)
  obtain ⟨fb, hfb, hfb', e2, e2'⟩ := roundUp_congr ha hb (n := tq + z.tq) (by omega) (by omega)
  obtain ⟨sx, hsx, hsx', e3, e3'⟩ := roundUp_congr ha hb (n := fb + z.fb) (by omega) (by omega)
  have hadd : ∀ a b c : Nat, a + b + c < 2 ^ 64 → sizeAdd (a + b) c = sizeAdd a (b + c) := by
    intro a b c h
    rw [sizeAdd_of_lt h, sizeAdd_of_lt (by omega), Nat.add_assoc]
  refine ⟨⟨0, tq, fb, sx⟩, ?_, ?_, by simp only; omega⟩
  · unfold place
    simp only [e1, hadd ix tq z.tq (by omega), e2, hadd ix fb z.fb (by omega), e3, shift, Nat.add_zero]
  · unfold place
    simp only [e1', hadd ix' tq z.tq (by omega), e2', hadd ix' fb z.fb (by omega), e3', shift, Nat.add_zero]

theorem cached_of_run {u : Unit} (h : (runCalls calls fresh).returned = some (u, s)) : Cached s :=
  ((runCalls_spec cached_fresh filled_fresh).of_returned h).1

theorem filled_of_run {u : Unit} (h : (runCalls calls fresh).returned = some (u, s)) :
    Filled (cacheKey (0, 0) calls) s :=
  ((runCalls_spec cached_fresh filled_fresh).of_returned h).2

theorem ixPtrs_shift (h : Cached s) (hn : Sizable nelems) (ha : 0 < align) (hend : ix + ixsz < 2 ^ 64) {o : IndexLayout}
    (ho : place (requiredSizes nelems) ix align = shift o ix)
    (hroom : ix + (o.sx + (requiredSizes nelems).sx) < 2 ^ 64) : (ixPtrs ix ixsz nelems align s).returned.map Prod.fst =
      if o.sx + (requiredSizes nelems).sx ≤ ixsz then some (1, shift o ix) else none := by
  have hfits : Fits ix ixsz nelems align ↔ o.sx + (requiredSizes nelems).sx ≤ ixsz := by
    unfold Fits
    rw [ho]
    show align ≠ 0 ∧ sizeAdd (ix + o.sx) (requiredSizes nelems).sx ≤ sizeAdd ix ixsz ↔ _
    rw [sizeAdd_of_lt hend, sizeAdd_of_lt (by omega)]
    omega
  rw [ixPtrs_returned h]
  by_cases hf : o.sx + (requiredSizes nelems).sx ≤ ixsz
  · rw [if_pos ⟨hn.1, .inr hn, hfits.2 hf⟩, if_pos hf, ho]
    rfl
  · rw [if_neg fun hc => hf (hfits.1 hc.2.2), if_neg hf]
    rfl

/-- In a region with enough room the time queue is put at a multiple of the alignment. -/
theorem dvd_of_placed (h : Cached s) (hn : Sizable nelems) (ha : 0 < align)
    (hfit : ix + span (requiredSizes nelems) align ≤ 2 ^ 64) {o : IndexLayout}
    (hat : (ixPtrs ix (span (requiredSizes nelems) align - 1) nelems align s).returned.map Prod.fst =
      if o.sx + (requiredSizes nelems).sx ≤ span (requiredSizes nelems) align - 1 then some (1, shift o ix) else none) :
    align ∣ ix + o.tq := by
  obtain ⟨o', ho', -, hspan⟩ := place_congr ha rfl hfit hfit
  rw [ixPtrs_shift h hn ha (by omega) ho' (by omega), if_pos (by omega), ← ho'] at hat
  have heq : place (requiredSizes nelems) ix align = shift o ix := by
    split at hat
    · exact (Prod.mk.inj (Option.some.inj hat)).2
    · cases hat
  show align ∣ (shift o ix).tq
  unfold span at hfit
  rw [← heq, place, roundUp_eq_ceilTo ha (by rw [sizeAdd_of_lt (by omega)]; omega)]
  exact dvd_ceilTo _ _

/-- **The layout is position independent** at two addresses exactly if they leave the same remainder: then `ix_ptrs`
puts the structures at the same distances from the two, or refuses the region at both. -/
theorem layout_position_independent {calls calls' : List IndexCall} {s s' : IndexStatics}
    (hs : (runCalls calls fresh).returned = some ((), s)) (hs' : (runCalls calls' fresh).returned = some ((), s'))
    (hn : Sizable nelems) (ha : 0 < align) (hfit : ix + span (requiredSizes nelems) align ≤ 2 ^ 64)
    (hfit' : ix' + span (requiredSizes nelems) align ≤ 2 ^ 64) :
    (∀ ixsz, ix + ixsz < 2 ^ 64 → ix' + ixsz < 2 ^ 64 → ∃ o : IndexLayout,
      (ixPtrs ix ixsz nelems align s).returned.map Prod.fst =
        (if o.sx + (requiredSizes nelems).sx ≤ ixsz then some (1, shift o ix) else none) ∧
      (ixPtrs ix' ixsz nelems align s').returned.map Prod.fst =
        (if o.sx + (requiredSizes nelems).sx ≤ ixsz then some (1, shift o ix') else none)) ↔
    ix % align = ix' % align := by
  constructor
  · intro h
    have hspan : 0 < span (requiredSizes nelems) align := by unfold span; omega
    obtain ⟨o, hat, hat'⟩ := h (span (requiredSizes nelems) align - 1) (by omega) (by omega)
    have hdvd := dvd_of_placed (cached_of_run hs) hn ha hfit hat
    have hdvd' := dvd_of_placed (cached_of_run hs') hn ha hfit' hat'
    exact Nat.ModEq.add_right_cancel' o.tq
      ((Nat.mod_eq_zero_of_dvd hdvd).trans (Nat.mod_eq_zero_of_dvd hdvd').symm)
  · intro hb ixsz hend hend'
    obtain ⟨o, ho, ho', hspan⟩ := place_congr ha hb hfit hfit'
    refine ⟨o, ?_, ?_⟩
    · exact ixPtrs_shift (cached_of_run hs) hn ha hend ho (by omega)
    · exact ixPtrs_shift (cached_of_run hs') hn ha hend' ho' (by omega)

/-- A heap buffer and a page, for a queue with the default alignment. -/
theorem layout_of_heap_and_page : ∃ o : IndexLayout,
    (ixPtrs 4112 4096 4 8 fresh).returned.map Prod.fst =
      (if o.sx + (requiredSizes 4).sx ≤ 4096 then some (1, shift o 4112) else none) ∧
    (ixPtrs 8192 4096 4 8 fresh).returned.map Prod.fst =
      (if o.sx + (requiredSizes 4).sx ≤ 4096 then some (1, shift o 8192) else none) :=
  (layout_position_independent (show (runCalls [] fresh).returned = some ((), fresh) from rfl)
    (show (runCalls [] fresh).returned = some ((), fresh) from rfl) (by decide) (by decide) (by decide +kernel)
    (by decide +kernel)).2 (by decide) 4096 (by decide) (by decide)

/-- With an alignment of 32, the time queue of one slot is 336 bytes into a heap buffer and 320 bytes into a page. -/
theorem layout_moves : (ixPtrs 4112 8192 1 32 fresh).returned.map (fun r => r.1.2.tq - 4112) = some 336 ∧
    (ixPtrs 8192 8192 1 32 fresh).returned.map (fun r => r.1.2.tq - 8192) = some 320 := by
  decide +kernel

/-! ## Enough room -/

theorem requiredSizes_pos (hn : Sizable nelems) : 0 < (requiredSizes nelems).tq ∧ 0 < (requiredSizes nelems).sx := by
  have hlt : nelems < 2 ^ 32 := by
    have hint := hn.2
    omega
  have hchains := prevPrime_le (nelems / SX_EXP_CHAIN_LEN)
  constructor
  · show 0 < TimeQueue.requiredSize nelems
    simp only [TimeQueue.requiredSize, TimeQueue.sizeofTimeQueue, TimeQueue.sizeofElement,
      TimeQueue.TQ_NALLOC_INITIAL, SIZE_T, TQ_OVERHEAD_ELEMS]
    omega
  · show 0 < SignatureIndex.requiredSize nelems
    simp only [SignatureIndex.requiredSize, SignatureIndex.sizeofSignatureIndex, SignatureIndex.sizeofElement,
      SignatureIndex.SX_NALLOC_INITIAL, SignatureIndex.sizeofSignatureHash, SignatureIndex.SXHASH_NALLOC_INITIAL,
      SignatureIndex.calcNchains, SX_EXP_CHAIN_LEN, SIZE_T] at hchains ⊢
    omega

def exactArea (z : IndexSizes) (align : Nat) : Nat :=
  ceilTo z.rl align + ceilTo z.tq align + ceilTo z.fb align + ceilTo z.sx align

theorem area_eq (ha : 0 < align) (htq : 0 < z.tq) (hsx : 0 < z.sx) (hfit : exactArea z align < 2 ^ 64) :
    area z align = exactArea z align := by
  have h1 := (ceilTo_bounds ha z.rl).1
  have h2 := (ceilTo_bounds ha z.tq).1
  have h3 := (ceilTo_bounds ha z.fb).1
  have h4 := (ceilTo_bounds ha z.sx).1
  have h2' := le_ceilTo_of_pos ha htq
  have h4' := le_ceilTo_of_pos ha hsx
  unfold exactArea at hfit ⊢
  rw [area, roundUp_eq_ceilTo ha (by omega), roundUp_eq_ceilTo ha (by omega), roundUp_eq_ceilTo ha (by omega),
    roundUp_eq_ceilTo ha (by omega), Nat.mod_eq_of_lt hfit]

theorem place_aligned (ha : 0 < align) (hsx : 0 < z.sx) (hix : align ∣ ix) (hfit : ix + exactArea z align < 2 ^ 64) :
    place z ix align = ⟨ix, ix + ceilTo z.rl align, ix + ceilTo z.rl align + ceilTo z.tq align,
      ix + ceilTo z.rl align + ceilTo z.tq align + ceilTo z.fb align⟩ := by
  have h1 := (ceilTo_bounds ha z.rl).1
  have h2 := (ceilTo_bounds ha z.tq).1
  have h3 := (ceilTo_bounds ha z.fb).1
  have h4 := le_ceilTo_of_pos ha hsx
  unfold exactArea at hfit
  have htq : align ∣ ix + ceilTo z.rl align := Nat.dvd_add hix (dvd_ceilTo _ _)
  have hfb : align ∣ ix + ceilTo z.rl align + ceilTo z.tq align := Nat.dvd_add htq (dvd_ceilTo _ _)
  have step : ∀ p n : Nat, align ∣ p → p + n + align ≤ 2 ^ 64 → roundUp (sizeAdd p n) align = p + ceilTo n align := by
    intro p n hp hle
    rw [sizeAdd_of_lt (by omega), roundUp_eq_ceilTo ha hle, ceilTo_add ha hp]
  unfold place
  simp only
  rw [step ix z.rl hix (by omega), step _ z.tq htq (by omega), step _ z.fb hfb (by omega)]

def ranges (layout : IndexLayout) (z : IndexSizes) : List (Nat × Nat) :=
  [(layout.rl, z.rl), (layout.tq, z.tq), (layout.fb, z.fb), (layout.sx, z.sx)]

/-- The ranges are in an area and do not overlap. -/
structure Laid (ix size : Nat) (rs : List (Nat × Nat)) : Prop where
  inside : ∀ r ∈ rs, ix ≤ r.1 ∧ r.1 + r.2 ≤ ix + size
  disjoint : rs.Pairwise fun r r' => r.1 + r.2 ≤ r'.1

theorem laid_place (ha : 0 < align) (hsx : 0 < z.sx) (hix : align ∣ ix) {size : Nat} (hsize : exactArea z align ≤ size)
    (hfit : ix + size < 2 ^ 64) : Laid ix size (ranges (place z ix align) z) := by
  have hplace := place_aligned ha hsx hix (by omega)
  have b1 := (ceilTo_bounds ha z.rl).1
  have b2 := (ceilTo_bounds ha z.tq).1
  have b3 := (ceilTo_bounds ha z.fb).1
  have b4 := (ceilTo_bounds ha z.sx).1
  unfold exactArea at hsize
  constructor
  · rw [hplace]
    simp only [ranges, mem_cons, not_mem_nil, or_false]
    rintro r (rfl | rfl | rfl | rfl) <;> simp only <;> omega
  · rw [hplace]
    simp only [ranges, pairwise_cons, mem_cons, not_mem_nil, or_false]
    refine ⟨?_, ?_, ?_, ?_, List.Pairwise.nil⟩
    · rintro r (rfl | rfl | rfl) <;> simp only <;> omega
    · rintro r (rfl | rfl) <;> simp only <;> omega
    · rintro r rfl
      simp only
      omega
    · rintro r ⟨⟩

theorem ixPtrs_laid (h : Cached s) (hn : Sizable nelems) (ha : 0 < align) (hix : align ∣ ix) {size : Nat}
    (hsize : exactArea (requiredSizes nelems) align ≤ size) (hfit : ix + size < 2 ^ 64) :
    (ixPtrs ix size nelems align s).returned = some ((1, place (requiredSizes nelems) ix align), laidOut nelems s) ∧
      Laid ix size (ranges (place (requiredSizes nelems) ix align) (requiredSizes nelems)) := by
  obtain ⟨-, hsx⟩ := requiredSizes_pos hn
  have hlaid := laid_place ha hsx hix hsize hfit
  have hlast :=
    (hlaid.inside ((place (requiredSizes nelems) ix align).sx, (requiredSizes nelems).sx) (by simp [ranges])).2
  have hfits : Fits ix size nelems align := by
    refine ⟨Nat.pos_iff_ne_zero.1 ha, ?_⟩
    rw [sizeAdd_of_lt hfit, sizeAdd_of_lt (by omega)]
    exact hlast
  refine ⟨?_, hlaid⟩
  rw [ixPtrs_returned h, if_pos ⟨hn.1, .inr hn, hfits⟩]

/-- **The area of `ix_sz` is enough for `ix_ptrs`**, if the size that `ix_sz` keeps was not computed for the same number
of slots with another alignment. -/
theorem area_suffices {calls between : List IndexCall} {s : IndexStatics}
    (hs : (runCalls calls fresh).returned = some ((), s))
    (hkey : (cacheKey (0, 0) calls).1 = nelems → (cacheKey (0, 0) calls).2 = align) (hn : Sizable nelems)
    (ha : 0 < align) (hix : align ∣ ix) (hfit : ix + exactArea (requiredSizes nelems) align < 2 ^ 64) :
    ∃ size s₁, (ixSz nelems align s).returned = some (size, s₁) ∧ ∀ s₂, (runCalls between s₁).returned = some ((), s₂) →
      ∃ layout s₃, (ixPtrs ix size nelems align s₂).returned = some ((1, layout), s₃) ∧
        Laid ix size (ranges layout (requiredSizes nelems)) := by
  obtain ⟨htq, hsx⟩ := requiredSizes_pos hn
  have harea := area_eq ha htq hsx (by omega)
  have hcached := cached_of_run hs
  have hfilled := filled_of_run hs
  -- with the key as it is, the size is that of the structures, kept or computed
  obtain ⟨s₁, hsize, hc₁, key, hf₁⟩ : ∃ s₁,
    (ixSz nelems align s).returned = some (exactArea (requiredSizes nelems) align, s₁) ∧
      Cached s₁ ∧ ∃ key, Filled key s₁ := by
    by_cases hprev : s.area.prevNelems = nelems
    · have hnelems := hfilled.prevNelems.symm.trans hprev
      refine ⟨s, ?_, hcached, _, hfilled⟩
      rw [ixSz_kept hn.1 hprev, hfilled.cachedSize (hnelems ▸ hn.1), hkey hnelems, hnelems, harea]
    · have hc := hcached.computed nelems
      refine ⟨{ computed nelems s with area := ⟨nelems, area (requiredSizes nelems) align⟩ }, ?_,
        ⟨hc.rl, hc.tq, hc.fb, hc.sx, hc.ptrs⟩, (nelems, align), ⟨rfl, fun _ => rfl⟩⟩
      rw [ixSz_computed hcached hprev, if_pos ⟨hn, Nat.pos_iff_ne_zero.1 ha⟩, harea]
  refine ⟨_, s₁, hsize, fun s₂ hs₂ => ?_⟩
  have hc₂ := ((runCalls_spec hc₁ hf₁).of_returned hs₂).1
  obtain ⟨hptrs, hlaid⟩ := ixPtrs_laid hc₂ hn ha hix (Nat.le_refl _) hfit
  exact ⟨_, _, hptrs, hlaid⟩

/-- The index of a queue of four slots, with calls for other queues before and between. -/
theorem area_suffices_between : ∃ s size s₁ s₂, (runCalls [.ixSz 8 16] fresh).returned = some ((), s) ∧
    (ixSz 4 8 s).returned = some (size, s₁) ∧ (runCalls [.ixSz 6 8] s₁).returned = some ((), s₂) ∧
    ∃ layout s₃, (ixPtrs 8192 size 4 8 s₂).returned = some ((1, layout), s₃) ∧
      Laid 8192 size (ranges layout (requiredSizes 4)) := by
  refine ⟨_, _, _, _, rfl, rfl, rfl, ?_⟩
  obtain ⟨size, s₁, hsize, hptrs⟩ := @area_suffices 4 8 8192 [.ixSz 8 16] [.ixSz 6 8] _ rfl (by decide) (by decide)
    (by decide) (by decide) (by decide +kernel)
  cases hsize
  exact hptrs _ rfl

/-- After `ix_sz` for four slots and an alignment of 8, it returns the same size for an alignment of 4096, which is too
small for `ix_ptrs`. -/
theorem area_too_small : ∃ s size s', (runCalls [.ixSz 4 8] fresh).returned = some ((), s) ∧
    (ixSz 4 4096 s).returned = some (size, s') ∧ (ixPtrs 8192 size 4 4096 s').returned = none := by
  refine ⟨_, _, _, rfl, rfl, ?_⟩
  decide +kernel

end IndexLayer

end Rdm
