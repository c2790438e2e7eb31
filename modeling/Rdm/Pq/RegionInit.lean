import Rdm.Pq.RegionFree

/-!
# The new region list

After `Initialize` both free lists are empty and every slot is unused; the first region added is the whole data section.
-/

namespace Rdm

open ProgLogic ProgLogic.Prog SkipList FreeBlock Links Tiling List

namespace RegionList

variable {s s' : RlFb} {own own' : Nat → Owner Holder}

/-! ## Empty lists -/

theorem initList_spec (o : FreeOrder) (hinv : Inv s.fb own) (off : Int) (ext : Nat) :
    wp (initList o o.hd off ext) (fun _ s' => ∃ own' b b',
      InPool s'.fb own' o.tag (fun x => o.ptr (s'.rl.rp x)) o.hd o.tail 0 [] (fun _ => s'.fb.maxsize - 1) ∧
      Inv s'.fb own' ∧ Keeps (Others o.tag) s.fb own s'.fb own' ∧
      s'.rl = setRegion (setRegion s.rl o.hd (o.setPtr ⟨0, 0, 0, 0⟩ b)) o.tail (o.setPtr ⟨off, ext, 0, 0⟩ b')) s := by
  have hpos : 0 < s.fb.maxsize := by obtain ⟨F, h⟩ := hinv; exact h.pos
  simp only [initList, onFb, wp_bind, wp_read, wp_zoom]
  refine (FreeBlock.get_spec hinv (o.tag o.hd) (by omega : s.fb.maxsize - 1 < s.fb.maxsize)).mono ?_
  rintro headBlk fb1 ⟨_, own1, hinv1, hhead, hmax1, hkeep1⟩
  refine (FreeBlock.get_spec hinv1 (o.tag o.tail) (by omega)).mono ?_
  rintro tailBlk fb2 ⟨_, own2, hinv2, _, hmax2, hkeep2⟩
  have hne : o.hd ≠ o.tail := by cases o <;> decide
  have hk : Keeps (fun _ => True) s.fb own fb2 own2 :=
    Keeps.trans ⟨hmax1, fun c k _ => hkeep1 c k⟩ ⟨hmax2, fun c k _ => hkeep2 c k⟩
  simp only [modRl, wp_bind, wp_modify]
  generalize hrl : setRegion (setRegion s.rl o.hd (o.setPtr ⟨0, 0, 0, 0⟩ headBlk))
    o.tail (o.setPtr ⟨off, ext, 0, 0⟩ tailBlk) = rl
  have hptr : o.ptr (rl.rp o.hd) = headBlk := by
    rw [← hrl, setRegion_rp, setRegion_rp, Function.update_of_ne hne, Function.update_self, FreeOrder.ptr_setPtr]
  obtain ⟨hskip, hpool, hkeeps⟩ := pool_init o.tag (fun x => o.ptr (rl.rp x)) (by omega) hinv2 hk hne hptr
    (fun i hi => (hkeep2 _ _ (hhead i (by omega))).1) rfl
  exact ⟨own2, headBlk, tailBlk, hskip, hpool, hkeeps, hrl.symm⟩

theorem initOffsets_spec (hinv : Inv s.fb own) :
    wp initOffsets (fun _ s' => ∃ own' ht b b', ListInv .offset s' own' [] ht ∧ Inv s'.fb own' ∧
      Keeps (Others (FreeOrder.tag .offset)) s.fb own s'.fb own' ∧
      s'.rl = { setRegion (setRegion s.rl RL_FOFF_HD ⟨0, 0, b, 0⟩) RL_FOFF_TL ⟨hugeOff, 0, b', 0⟩ with
        levelFoff := 0, foff := RL_FOFF_HD }) s := by
  refine (initList_spec .offset hinv hugeOff 0).bind ?_
  rintro _ s1 ⟨own1, b, b', hskip, hinv1, hkeep, hrl⟩
  rw [modRl, wp_modify]
  refine ⟨own1, _, b, b', ⟨hskip, List.Pairwise.nil, (fun _ h => by cases h), rfl, Nat.zero_le _⟩, hinv1, hkeep, ?_⟩
  rw [hrl]
  rfl

theorem initExtents_spec (hinv : Inv s.fb own) :
    wp initExtents (fun _ s' => ∃ own' ht b b', ListInv .extent s' own' [] ht ∧ Inv s'.fb own' ∧
      Keeps (Others (FreeOrder.tag .extent)) s.fb own s'.fb own' ∧
      s'.rl = { setRegion (setRegion s.rl RL_FEXT_HD ⟨0, 0, 0, b⟩) RL_FEXT_TL ⟨0, 2 ^ 64 - 2, 0, b'⟩ with
        levelFext := 0, fext := RL_FEXT_HD }) s := by
  refine (initList_spec .extent hinv 0 (2 ^ 64 - 2)).bind ?_
  rintro _ s1 ⟨own1, b, b', hskip, hinv1, hkeep, hrl⟩
  rw [modRl, wp_modify]
  refine ⟨own1, _, b, b', ⟨hskip, List.Pairwise.nil, (fun _ h => by cases h), rfl, Nat.zero_le _⟩, hinv1, hkeep, ?_⟩
  rw [hrl]
  rfl

/-! ## The unused slots -/

theorem initialRegion_chain (n : Nat) (rp : Nat → Region) : ∀ m a : Nat, RL_EMPTY_HD ≤ a →
    a + m = n + RL_FREE_OVERHEAD →
    Chain (fun x => (initialRegion n rp x).next) (if m = 0 then RL_NONE else a) (range' a m) RL_NONE
  | 0, _, _, _ => rfl
  | m + 1, a, h4, ha => by
    refine ⟨rfl, ?_⟩
    have ih := initialRegion_chain n rp m (a + 1) (by omega) (by omega)
    have hnext : (initialRegion n rp a).next = if m = 0 then RL_NONE else a + 1 := by
      rw [initialRegion, if_pos ⟨h4, by omega⟩]
      by_cases hm : m = 0
      · rw [if_pos hm]
        exact if_pos (by omega)
      · rw [if_neg hm]
        exact if_neg (by omega)
    beta_reduce
    rw [hnext]
    exact ih

/-- A region list that was just formatted. -/
structure Fresh (s : RlFb) (own : Nat → Owner Holder) (n : Nat) : Prop where
  free : FreeInv s own fun _ => []
  hash : HashInv s.rl fun _ => []
  empty : Chain (fun x => (s.rl.rp x).next) s.rl.empty (List.range' RL_EMPTY_HD n) RL_NONE
  sentinels : Sentinels s.rl
  nalloc : s.rl.nalloc = n
  nelems : s.rl.nelems = 0
  nfree : s.rl.nfree = 0
  nempty : s.rl.nempty = n
  nbytes : s.rl.nbytes = 0

/-- **`RegionList::Initialize`.** -/
theorem initialise_spec (hinv : Inv s.fb own) {n : Nat} (hpos : 0 < n) (hn : n < 2 ^ 28) :
    wp (initialise n) (fun _ s' => ∃ own', Fresh s' own' n ∧ Inv s'.fb own' ∧ Keeps IsTime s.fb own s'.fb own') s := by
  rw [initialise, modRl, wp_bind, wp_modify]
  refine wp.bind (initOffsets_spec hinv) ?_
  rintro _ s1 ⟨own1, ht1, b1, b1', hl1, hinv1, hkeep1, hrl1⟩
  refine (initExtents_spec hinv1).bind ?_
  rintro _ s2 ⟨own2, ht2, b2, b2', hl2, hinv2, hkeep2, hrl2⟩
  have hlow : ∀ x < RL_FEXT_HD, s2.rl.rp x = s1.rl.rp x := by
    intro x hx
    have h2 : x ≠ RL_FEXT_HD := Nat.ne_of_lt hx
    have h3 : x ≠ RL_FEXT_TL := by
      simp only [RL_FEXT_HD, RL_FEXT_TL] at hx ⊢
      omega
    rw [hrl2]
    simp [h2, h3]
  have hl1' : ListInv .offset s2 own2 [] ht1 := by
    refine hl1.frame (hkeep2.mono fun _ => tag_others (by decide)) ?_ ?_ ?_ ?_ ?_
    · rw [hrl2]
      rfl
    · rw [hrl2]
      rfl
    · rw [hrl2]
      rfl
    · intro x hx
      rw [mem_singleton.1 hx, hlow _ (by decide)]
    · intro x hx
      rw [mem_singleton.1 hx, hlow _ (by decide)]
      exact .refl _ _
  have hslot : ∀ x, RL_EMPTY_HD ≤ x → s2.rl.rp x = initialRegion n s.rl.rp x := by
    intro x hx
    simp only [RL_EMPTY_HD, RL_FREE_OVERHEAD] at hx
    have h0 : x ≠ RL_FOFF_HD := by unfold RL_FOFF_HD; omega
    have h1 : x ≠ RL_FOFF_TL := by unfold RL_FOFF_TL; omega
    have h2 : x ≠ RL_FEXT_HD := by unfold RL_FEXT_HD; omega
    have h3 : x ≠ RL_FEXT_TL := by unfold RL_FEXT_TL; omega
    rw [hrl2, hrl1]
    simp [h0, h1, h2, h3]
  have hfields : s2.rl.nalloc = n ∧ s2.rl.nchains = calculateNumChains n ∧ s2.rl.empty = RL_EMPTY_HD ∧
      s2.rl.nelems = 0 ∧ s2.rl.nfree = 0 ∧ s2.rl.nempty = n ∧ s2.rl.nbytes = 0 := by
    rw [hrl2, hrl1]
    exact ⟨rfl, rfl, rfl, rfl, rfl, rfl, rfl⟩
  obtain ⟨hna, hnc, hem, hne, hnf, hnem, hnb⟩ := hfields
  simp only [wp_bind, wp_read, wp_assert]
  refine ⟨by rw [hna, hne, hnf, hnem]; omega, own2, ⟨⟨hinv2, fun o => ?_⟩, ?_, ?_, ?_, hna, hne, hnf, hnem, hnb⟩, hinv2,
    (hkeep1.mono fun _ => isTime_others .offset).trans (hkeep2.mono fun _ => isTime_others .extent)⟩
  · cases o with
    | offset => exact ⟨[], ht1, hl1', List.Perm.refl _⟩
    | extent => exact ⟨[], ht2, hl2, List.Perm.refl _⟩
  · have hall : allocs s2.rl (fun _ => []) = [] := by simp [allocs, buckets]
    constructor
    case chain =>
      intro i hi
      rw [hrl2, hrl1]
      rw [hnc] at hi
      exact if_pos hi
    case back => exact fun _ _ => trivial
    case hash => exact fun _ _ _ h => by cases h
    case nodup => simp [hall]
    case bound => simp [hall]
    case length => simp [hall]
    case pos =>
      rw [hnc]
      exact prevPrime_pos _
    case small =>
      rw [hna]
      simp only [RL_NONE, RL_FREE_OVERHEAD]
      omega
  · have hc := initialRegion_chain n s.rl.rp n RL_EMPTY_HD (Nat.le_refl _) (Nat.add_comm _ _)
    rw [if_neg (by omega)] at hc
    rw [hem]
    refine chain_congr hc fun x hx => ?_
    rw [hslot x (mem_range'_1.1 hx).1]
  · constructor
    case offTail =>
      rw [hlow _ (by decide), hrl1]
      simp
    case extHead =>
      rw [hrl2]
      simp [RL_FEXT_HD, RL_FEXT_TL, Region.getExtent]
    case extTail =>
      rw [hrl2]
      simp [Region.getExtent]

/-! ## The first region -/

theorem getExtent_whole (D : DataSection) (b b' : Nat) : (Region.mk D.datao D.size b b').getExtent = D.size := by
  have hE := D.even
  simp only [Region.getExtent, DataSection.size]
  omega

theorem Fresh.vacant {n : Nat} (h : Fresh s own (n + 1)) (D : DataSection) :
    Vacant s.rl [] (range' (RL_EMPTY_HD + 1) n) RL_EMPTY_HD D.datao D.size := by
  have hD := D.nonempty
  have hF := D.fits
  have hH := D.header
  have hempty := h.empty
  rw [range'_succ] at hempty
  constructor
  case chain => exact hempty
  case ne_none => decide
  case not_mem =>
    intro o
    cases o <;> decide
  case length =>
    rw [h.nalloc]
    simp
  case offset_ne => exact fun _ h => by cases h
  case before_tail =>
    intro o b b'
    refine h.sentinels.before_tail o (by show 0 ≤ D.datao; omega) ?_
    rw [getExtent_whole]
    simp only [DataSection.size]
    omega
  case pos =>
    rw [h.nempty]
    omega
  case counts =>
    rw [h.nelems, h.nfree, h.nempty, h.nalloc]
    omega

theorem addFirst_spec {n : Nat} (h : Fresh s own (n + 1)) (D : DataSection) :
    wp (add D.datao D.size) (fun r s' => r = some RL_EMPTY_HD ∧ ∃ own',
      RlInv s' own' D [RL_EMPTY_HD] [] (range' (RL_EMPTY_HD + 1) n) (fun _ => []) ∧
      Keeps IsTime s.fb own s'.fb own' ∧ (s'.rl.rp RL_EMPTY_HD).offset = D.datao ∧
      (s'.rl.rp RL_EMPTY_HD).getExtent = D.size ∧ s'.rl.nbytes = 0 ∧
      s'.rl.nalloc = n + 1) s := by
  have hD := D.nonempty
  have hE := D.even
  have hF := D.fits
  have hH := D.header
  have hempty := h.empty
  rw [range'_succ] at hempty
  refine (add_spec h.free (h.vacant D)).mono ?_
  rintro r s1 ⟨hr, own1, b, b', hfree, hkeep, hrl⟩
  have hrp : ∀ x, x ≠ RL_EMPTY_HD → s1.rl.rp x = s.rl.rp x := by
    intro x hx
    rw [hrl]
    exact Function.update_of_ne hx _ _
  have hself : s1.rl.rp RL_EMPTY_HD = ⟨D.datao, D.size, b, b'⟩ := by
    rw [hrl]
    simp
  have hnc : s1.rl.nchains = s.rl.nchains := by rw [hrl]; rfl
  have hna : s1.rl.nalloc = n + 1 := by rw [hrl]; exact h.nalloc
  have hall : allocs s1.rl (fun _ => []) = [] := by simp [allocs, buckets]
  refine ⟨hr, own1, ⟨hfree, ⟨[RL_EMPTY_HD], ?_⟩, ?_, ?_, ?_⟩, hkeep, by rw [hself], ?_, ?_, hna⟩
  · constructor
    case hash => exact h.hash.same ⟨by rw [hna, h.nalloc], hnc, by rw [hrl]; rfl⟩ (by simp [allocs, buckets])
    case empty =>
      have he : s1.rl.empty = (s.rl.rp RL_EMPTY_HD).next := by rw [hrl]
      rw [he]
      refine chain_congr hempty.2 fun x hx => ?_
      have := (mem_range'_1.1 hx).1
      rw [hrp x (by omega)]
    case tiles =>
      simp only [Tiles, hself, getExtent_whole]
      refine ⟨trivial, ?_, ?_⟩
      · simp only [DataSection.size]
        omega
      · simp only [DataSection.size]
        omega
    case part => simp [hall]
    case slots =>
      rw [hna, range'_succ]
      exact List.Perm.refl _
    case even =>
      intro x hx
      rw [show x = RL_EMPTY_HD by simpa using hx, hself, isAlloc_eq_false]
      simp only [DataSection.size]
      omega
    case marked => simp [hall]
    case aligned =>
      intro x hx
      rw [mem_singleton.1 hx, hself]
      exact D.aligned
    case sentinels =>
      refine h.sentinels.congr fun x hx => ?_
      rw [hrp x (by simp only [RL_EMPTY_HD]; omega)]
      exact ⟨rfl, rfl⟩
  · rw [hrl, h.nfree]
    rfl
  · rw [hrl]
    simp [h.nempty]
  · rw [hall, hrl]
    exact h.nelems
  · rw [hself, getExtent_whole]
  · rw [hrl]
    exact h.nbytes

end RegionList

end Rdm
