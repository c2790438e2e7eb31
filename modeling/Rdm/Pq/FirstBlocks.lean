import Rdm.Pq.Allocation

/-!
# The blocks of a new index

A new index takes eight blocks from the pool. With four slots or more the pool does not run out (`formatNew_returned`).
-/

namespace Rdm

open ProgLogic ProgLogic.Prog SkipList FreeBlock RegionList
open Function (update update_of_ne update_self)

/-! ## Taking blocks -/

namespace FreeBlock

variable {fb fb' fb'' : FreeBlock} {x y x' y' : Nat} {κ : Type} {own : Nat → Owner κ}

structure Took (l : Nat) (fb fb' : FreeBlock) : Prop where
  maxsize : fb'.maxsize = fb.maxsize
  arenaSz : fb'.arenaSz = fb.arenaSz
  list : fb.nfree l ≤ fb'.nfree l + 1
  others : ∀ i, i ≠ l → fb.nfree i ≤ fb'.nfree i
  beyond : ∀ c, fb.arenaSz ≤ c → fb'.fblks c = fb.fblks c

/-- **At most `x` blocks of one cell and `y` spare blocks** were taken, and nothing was written behind the arena. -/
structure Spent (x y : Nat) (fb fb' : FreeBlock) : Prop where
  maxsize : fb'.maxsize = fb.maxsize
  arenaSz : fb'.arenaSz = fb.arenaSz
  small : fb.nfree 0 ≤ fb'.nfree 0 + x
  spare : fb.nfree fb.maxsize ≤ fb'.nfree fb.maxsize + y
  beyond : ∀ c, fb.arenaSz ≤ c → fb'.fblks c = fb.fblks c

theorem Spent.trans (h : Spent x y fb fb') (h' : Spent x' y' fb' fb'') : Spent (x + x') (y + y') fb fb'' := by
  have hsmall := h.small
  have hsmall' := h'.small
  have hspare := h.spare
  have hspare' := h'.spare
  rw [h.maxsize] at hspare'
  refine ⟨h'.maxsize.trans h.maxsize, h'.arenaSz.trans h.arenaSz, by omega, by omega, ?_⟩
  intro c hc
  rw [h'.beyond c (by rw [h.arenaSz]; exact hc), h.beyond c hc]

structure Ample (x y : Nat) (fb : FreeBlock) : Prop where
  levels : 2 ≤ fb.maxsize
  small : x ≤ fb.nfree 0
  spare : y ≤ fb.nfree fb.maxsize

theorem Ample.mono {a b : Nat} (h : Ample a b fb) (hx : x ≤ a) (hy : y ≤ b) : Ample x y fb :=
  ⟨h.levels, Nat.le_trans hx h.small, Nat.le_trans hy h.spare⟩

theorem Ample.spent {a b : Nat} (ha : Ample a b fb) (h : Spent x y fb fb') (hx : x' ≤ a - x) (hy : y' ≤ b - y) :
    Ample x' y' fb' := by
  obtain ⟨hlevels, hsmall, hspare⟩ := ha
  have hsmall' := h.small
  have hspare' := h.spare
  refine ⟨by rw [h.maxsize]; exact hlevels, by omega, ?_⟩
  rw [h.maxsize]
  omega

theorem Spent.write (h : Spent x y fb fb') {fblks : Nat → Nat} (hc : ∀ c, fb.arenaSz ≤ c → fblks c = fb'.fblks c) :
    Spent x y fb { fb' with fblks := fblks } :=
  { h with beyond := fun c h' => (hc c h').trans (h.beyond c h') }

theorem nfree_le_pushed (fb : FreeBlock) (l b i : Nat) : fb.nfree i ≤ (fb.pushed l b).nfree i := by
  by_cases hi : i = l
  · subst hi
    simp [pushed]
  · simp [pushed, hi]

theorem take_quiet (want l : Nat) (fb : FreeBlock) : quiet (take want l) (fun _ => Took l fb) fb := by
  simp only [take, quiet_bind, quiet_read, quiet_assert, quiet_modify]
  intro _ hlt _ _
  have hpop : Took l fb (fb.popped l) := by
    refine ⟨rfl, rfl, ?_, ?_, fun _ _ => rfl⟩
    · simp only [popped, update_self]
      omega
    · intro i hi
      simp [popped, hi]
  split
  case isFalse => exact quiet_pure.2 hpop
  case isTrue hsz =>
    simp only [release, quiet_bind, quiet_read, quiet_assert, quiet_modify, quiet_pure]
    intro _ hin
    have hpush := nfree_le_pushed (fb.popped l) (l + 1 - want - 1) (fb.free l + want)
    refine ⟨rfl, rfl, Nat.le_trans hpop.list (Nat.succ_le_succ (hpush l)), ?_, ?_⟩
    · intro i hi
      exact Nat.le_trans (hpop.others i hi) (hpush i)
    · intro c hc
      have hcell : c ≠ fb.free l + want := by
        rintro rfl
        exact absurd hin (Nat.not_lt.2 hc)
      simp [pushed, popped, hcell]

theorem getFrom_quiet (want : Nat) : ∀ (n l : Nat) (fb : FreeBlock), (∃ i, l ≤ i ∧ i < l + n ∧ 0 < fb.nfree i) →
    quiet (getFrom want n l) (fun _ fb' => ∃ i, l ≤ i ∧ (∀ j, l ≤ j → j < i → fb.nfree j = 0) ∧ Took i fb fb') fb
  | 0, l, fb, h => by
    obtain ⟨i, hi, hi', -⟩ := h
    omega
  | n + 1, l, fb, h => by
    simp only [getFrom, quiet_bind, quiet_read]
    split
    case isTrue hl =>
      exact (take_quiet want l fb).mono fun _ fb' ht => ⟨l, Nat.le_refl l, fun j hj hj' => by omega, ht⟩
    case isFalse hl =>
      obtain ⟨i, hi, hi', hpos⟩ := h
      have hne : i ≠ l := by
        rintro rfl
        exact hl hpos
      refine (getFrom_quiet want n (l + 1) fb ⟨i, by omega, by omega, hpos⟩).mono ?_
      rintro _ fb' ⟨i', hle, hnone, ht⟩
      refine ⟨i', by omega, fun j hj hj' => ?_, ht⟩
      rcases Nat.eq_or_lt_of_le hj with rfl | hj
      · omega
      · exact hnone j hj hj'

theorem get_quiet {level : Nat} (h : ∃ i, level ≤ i ∧ i ≤ fb.maxsize ∧ 0 < fb.nfree i) : quiet (get level)
    (fun _ fb' => ∃ i, level ≤ i ∧ (∀ j, level ≤ j → j < i → fb.nfree j = 0) ∧ Took i fb fb') fb := by
  simp only [get, quiet_bind, quiet_read, quiet_assert]
  intro hlt
  obtain ⟨i, hi, hi', hpos⟩ := h
  exact getFrom_quiet (level + 1) _ level fb ⟨i, hi, by omega, hpos⟩

theorem get_small_quiet (hpos : 0 < fb.maxsize) (h : 0 < fb.nfree 0) : quiet (get 0) (fun _ => Spent 1 0 fb) fb := by
  refine (get_quiet ⟨0, Nat.le_refl 0, Nat.zero_le _, h⟩).mono ?_
  rintro _ fb' ⟨i, -, hnone, ht⟩
  obtain rfl : i = 0 := by
    by_contra hi
    have := hnone 0 (Nat.le_refl 0) (by omega)
    omega
  exact ⟨ht.maxsize, ht.arenaSz, ht.list, ht.others _ (by omega), ht.beyond⟩

theorem get_any_quiet (fb : FreeBlock) {level : Nat} (hl : level < fb.maxsize) (h : 0 < fb.nfree fb.maxsize) :
    quiet (get level) (fun _ => Spent (if level = 0 then 1 else 0) 1 fb) fb := by
  refine (get_quiet ⟨fb.maxsize, Nat.le_of_lt hl, Nat.le_refl _, h⟩).mono ?_
  rintro _ fb' ⟨i, hi, -, ht⟩
  have hlist : ∀ j, fb.nfree j ≤ fb'.nfree j + 1 := by
    intro j
    by_cases hj : j = i
    · rw [hj]
      exact ht.list
    · have := ht.others j hj
      omega
  refine ⟨ht.maxsize, ht.arenaSz, ?_, hlist _, ht.beyond⟩
  split
  case isTrue => exact hlist 0
  case isFalse h0 => exact ht.others 0 (by omega)

/-! ## The new pool -/

theorem initChain_above {w c : Nat} (hw : 0 < w) : ∀ {n off : Nat} (fblks : Nat → Nat), off + n * w ≤ c →
    (initChain w n off fblks).2 c = fblks c
  | 0, _, _, _ => rfl
  | n + 1, off, fblks, h => by
    rw [Nat.add_mul] at h
    rw [initChain, initChain_above hw _ (by omega), update_of_ne (by omega)]

theorem initLevel_quiet (off l w n : Nat) (fb : FreeBlock) : quiet (initLevel off l w n) (fun off' fb' => off ≤ off' ∧
    fb'.maxsize = fb.maxsize ∧ fb'.nfree = update fb.nfree l n ∧ ∀ c, off' ≤ c → fb'.fblks c = fb.fblks c) fb := by
  simp only [initLevel, quiet_bind, quiet_read, quiet_assert]
  intro _ hw _
  have hend : initChain w (n - 1) off fb.fblks = (off + (n - 1) * w, (initChain w (n - 1) off fb.fblks).2) := by
    rw [← initChain_fst w (n - 1) off fb.fblks]
  rw [hend]
  simp only [quiet_modify, quiet_pure]
  refine ⟨by omega, trivial, trivial, fun c hc => ?_⟩
  rw [update_of_ne (by omega), initChain_above hw.1 _ (by omega)]

theorem initLevels_quiet : ∀ (n l numblks off : Nat) (fb : FreeBlock), quiet (initLevels n l numblks off)
    (fun off' fb' =>
    off ≤ off' ∧ fb'.maxsize = fb.maxsize ∧ (∀ i < l, fb'.nfree i = fb.nfree i) ∧ (0 < n → fb'.nfree l = numblks) ∧
    ∀ c, off' ≤ c → fb'.fblks c = fb.fblks c) fb
  | 0, l, numblks, off, fb => quiet_pure.2 ⟨Nat.le_refl _, rfl, fun _ _ => rfl, fun h => absurd h (Nat.lt_irrefl 0),
    fun _ _ => rfl⟩
  | n + 1, l, numblks, off, fb => by
    refine (initLevel_quiet off l (l + 1) numblks fb).bind ?_
    rintro off1 fb1 ⟨hoff1, hmax1, hfree1, hcells1⟩
    refine (initLevels_quiet n (l + 1) (nextBlks numblks) off1 fb1).mono ?_
    rintro off2 fb2 ⟨hoff2, hmax2, hfree2, -, hcells2⟩
    refine ⟨by omega, hmax2.trans hmax1, ?_, ?_, ?_⟩
    · intro i hi
      rw [hfree2 i (by omega), hfree1, update_of_ne (by omega)]
    · intro _
      rw [hfree2 l (Nat.lt_succ_self l), hfree1, update_self]
    · intro c hc
      rw [hcells2 c hc, hcells1 c (by omega)]

theorem initialise_quiet (nalloc : Nat) (fb : FreeBlock) : quiet (initialise nalloc) (fun _ fb' =>
    fb'.nfree 0 = 3 * nalloc / 4 ∧ fb'.nfree fb'.maxsize = spareBlks nalloc ∧ fb'.arenaSz ≤ getArenaSize nalloc ∧
    ∀ c, getArenaSize nalloc ≤ c → fb'.fblks c = fb.fblks c) fb := by
  simp only [initialise, quiet_bind, quiet_assert, quiet_modify]
  intro _ _
  refine (initLevels_quiet (log4 nalloc + 1) 0 (3 * nalloc / 4) 0 _).mono ?_
  rintro off1 fb1 ⟨-, hmax1, -, hfree1, hcells1⟩
  refine (initLevel_quiet off1 (log4 nalloc + 1) (log4 nalloc + 1) (spareBlks nalloc) fb1).bind ?_
  rintro off2 fb2 ⟨hoff2, hmax2, hfree2, hcells2⟩
  simp only [quiet_bind, quiet_assert, quiet_modify]
  intro hsz
  have hmax : fb2.maxsize = log4 nalloc + 1 := hmax2.trans hmax1
  refine ⟨?_, ?_, hsz.1, ?_⟩
  · show fb2.nfree 0 = _
    rw [hfree2, update_of_ne (by omega), hfree1 (Nat.succ_pos _)]
  · show fb2.nfree fb2.maxsize = _
    rw [hfree2, hmax, update_self]
  · intro c hc
    show fb2.fblks c = _
    rw [hcells2 c (by omega), hcells1 c (by omega)]
    exact if_neg (Nat.not_lt.2 hc)

theorem six_le_spareBlks {nalloc : Nat} (h : 4 ≤ nalloc) : 6 ≤ spareBlks nalloc := by
  have hlog : 1 ≤ log4 nalloc := by
    unfold log4
    exact Nat.log_pos (by omega) h
  unfold spareBlks
  rw [Nat.le_sqrt]
  calc 6 * 6 ≤ 9 * 1 ^ 2 * 4 := by decide
    _ ≤ 9 * log4 nalloc ^ 2 * nalloc := Nat.mul_le_mul (Nat.mul_le_mul_left 9 (Nat.pow_le_pow_left hlog 2)) h

/-! ## The ends of the lists -/

/-- The blocks at the two ends of a list lie in the arena. -/
structure Seated (fb : FreeBlock) (head tail : Nat) : Prop where
  head : head + fb.maxsize ≤ fb.arenaSz
  tail : tail < fb.arenaSz

theorem Spent.seated {head tail : Nat} (h : Spent x y fb fb') (hs : Seated fb head tail) : Seated fb' head tail := by
  constructor
  · rw [h.maxsize, h.arenaSz]
    exact hs.head
  · rw [h.arenaSz]
    exact hs.tail

theorem Inv.held_lt (h : Inv fb own) {c : Nat} {k : κ} (hc : own c = .held k) : c < fb.arenaSz := by
  obtain ⟨F, h⟩ := h
  refine h.bound c ?_
  rw [hc]
  exact fun h => by cases h

theorem get_small_got (hinv : Inv fb own) (k : κ) (h : Ample 1 0 fb) :
    quiet (get 0) (fun b fb' => Spent 1 0 fb fb' ∧ Got k 0 fb own b fb') fb := by
  have hpos : 0 < fb.maxsize := Nat.lt_of_lt_of_le (by decide) h.levels
  exact (get_small_quiet hpos h.small).and (get_spec hinv k hpos).wlp

theorem get_large_got (hinv : Inv fb own) (k : κ) (h : Ample 0 1 fb) :
    quiet (get (fb.maxsize - 1)) (fun b fb' => Spent 0 1 fb fb' ∧ Got k (fb.maxsize - 1) fb own b fb') fb := by
  have hlevels := h.levels
  have hl : fb.maxsize - 1 < fb.maxsize := by omega
  have hspent := get_any_quiet fb hl h.spare
  rw [if_neg (by omega)] at hspent
  exact hspent.and (get_spec hinv k hl).wlp

end FreeBlock

namespace TimeQueue

variable {s : TqFb} {own : Nat → Owner Holder}

theorem initialise_quiet (hinv : Inv s.fb own) (h : Ample 1 1 s.fb) (n : Nat) : quiet (initialise n) (fun _ s' =>
    Spent 1 1 s.fb s'.fb ∧ Seated s'.fb (s'.tq.tqep TQ_HEAD).fblk (s'.tq.tqep TQ_NIL).fblk) s := by
  simp only [initialise, onFb, quiet_bind, quiet_zoom]
  refine (get_small_got hinv (Holder.time TQ_NIL) (h.mono (by decide) (by decide))).mono ?_
  rintro nilBlk fb1 ⟨hsp1, -, own1, hinv1, hnil, hmax1, -⟩
  simp only [quiet_bind, quiet_read, quiet_zoom]
  have hpos := h.levels
  refine (get_large_got hinv1 (Holder.time TQ_HEAD) (h.spent hsp1 (by decide) (by decide))).mono ?_
  rintro headBlk fb2 ⟨hsp2, -, own2, hinv2, hhead, hmax2, -⟩
  simp only [modTq, quiet_modify]
  have hlast := hinv2.held_lt (hhead (fb1.maxsize - 1) (Nat.le_refl _))
  have hfirst := hinv1.held_lt (hnil 0 (Nat.le_refl 0))
  have hsp := hsp1.trans hsp2
  have harena1 := hsp1.arenaSz
  have harena2 := hsp2.arenaSz
  refine ⟨hsp.write ?_, ?_, ?_⟩
  · intro c hc
    exact if_neg (by omega)
  · show headBlk + fb2.maxsize ≤ fb2.arenaSz
    omega
  · show nilBlk < fb2.arenaSz
    omega

end TimeQueue

namespace RegionList

variable {s : RlFb} {own : Nat → Owner Holder} {xs : List Nat} {z : Nat}

theorem initList_quiet (o : FreeOrder) (hinv : Inv s.fb own) (h : Ample 1 1 s.fb) (off : Int) (ext : Nat) :
    quiet (initList o o.hd off ext) (fun _ s' => Spent 1 1 s.fb s'.fb ∧
      Seated s'.fb (o.ptr (s'.rl.rp o.hd)) (o.ptr (s'.rl.rp o.tail)) ∧ ∀ x, x ≠ o.hd → x ≠ o.tail →
      s'.rl.rp x = s.rl.rp x) s := by
  simp only [initList, onFb, quiet_bind, quiet_read, quiet_zoom]
  refine (get_large_got hinv (o.tag o.hd) (h.mono (by decide) (by decide))).mono ?_
  rintro headBlk fb1 ⟨hsp1, -, own1, hinv1, hhead, hmax1, -⟩
  have hpos := h.levels
  refine (get_small_got hinv1 (o.tag o.tail) (h.spent hsp1 (by decide) (by decide))).mono ?_
  rintro tailBlk fb2 ⟨hsp2, -, own2, hinv2, htail, hmax2, -⟩
  have hlast := hinv1.held_lt (hhead (s.fb.maxsize - 1) (Nat.le_refl _))
  have hfirst := hinv2.held_lt (htail 0 (Nat.le_refl 0))
  have hsp := hsp1.trans hsp2
  have harena1 := hsp1.arenaSz
  have harena2 := hsp2.arenaSz
  have hne : o.hd ≠ o.tail := by cases o <;> decide
  simp only [modRl, quiet_modify, quiet_bind]
  refine ⟨hsp.write ?_, ⟨?_, ?_⟩, ?_⟩
  · intro c hc
    exact if_neg (by omega)
  · simp only [setRegion_rp, update_of_ne hne, update_self, FreeOrder.ptr_setPtr]
    omega
  · simp only [setRegion_rp, update_self, FreeOrder.ptr_setPtr]
    exact hfirst
  · intro x hx hx'
    simp only [setRegion_rp, update_of_ne hx', update_of_ne hx]

def EndsSeated (s : RlFb) : Prop :=
  ∀ o : FreeOrder, Seated s.fb (o.ptr (s.rl.rp o.hd)) (o.ptr (s.rl.rp o.tail))

theorem initOffsets_quiet {fb : FreeBlock} (hinv : Inv fb own) (h : Ample 1 1 fb) (rl : RegionList) :
    quiet initOffsets (fun _ s' => Spent 1 1 fb s'.fb ∧
    Seated s'.fb (s'.rl.rp RL_FOFF_HD).next (s'.rl.rp RL_FOFF_TL).next ∧
      ∃ own' : Nat → Owner Holder, Inv s'.fb own') ⟨rl, fb⟩ := by
  refine ((initList_quiet (s := ⟨rl, fb⟩) .offset hinv h hugeOff 0).and
    (initList_spec .offset hinv hugeOff 0).wlp).bind ?_
  rintro _ s1 ⟨⟨hsp, hseat, -⟩, own1, -, -, -, hinv1, -, -⟩
  exact quiet_modify.2 ⟨hsp, hseat, own1, hinv1⟩

theorem initExtents_quiet (hinv : Inv s.fb own) (h : Ample 1 1 s.fb)
    (hseat : Seated s.fb (s.rl.rp RL_FOFF_HD).next (s.rl.rp RL_FOFF_TL).next) :
    quiet initExtents (fun _ s' => Spent 1 1 s.fb s'.fb ∧ EndsSeated s') s := by
  refine (initList_quiet .extent hinv h 0 (2 ^ 64 - 2)).bind ?_
  rintro _ s1 ⟨hsp, hseat1, hrp⟩
  refine quiet_modify.2 ⟨hsp, fun o => ?_⟩
  cases o with
  | offset =>
    have hhd : s1.rl.rp RL_FOFF_HD = s.rl.rp RL_FOFF_HD := hrp _ (by decide) (by decide)
    have htl : s1.rl.rp RL_FOFF_TL = s.rl.rp RL_FOFF_TL := hrp _ (by decide) (by decide)
    show Seated s1.fb (s1.rl.rp RL_FOFF_HD).next (s1.rl.rp RL_FOFF_TL).next
    rw [hhd, htl]
    exact hsp.seated hseat
  | extent => exact hseat1

theorem initialise_quiet (hinv : Inv s.fb own) (h : Ample 2 2 s.fb) (n : Nat) :
    quiet (initialise n) (fun _ s' => Spent 2 2 s.fb s'.fb ∧ EndsSeated s') s := by
  rw [initialise, modRl, quiet_bind, quiet_modify]
  refine (initOffsets_quiet hinv (h.mono (by decide) (by decide)) _).bind ?_
  rintro _ s1 ⟨hsp1, hseat1, own1, hinv1⟩
  refine (initExtents_quiet hinv1 (h.spent hsp1 (by decide) (by decide)) hseat1).bind ?_
  rintro _ s2 ⟨hsp2, hseat2⟩
  simp only [quiet_bind, quiet_read, quiet_assert]
  intro _
  exact ⟨hsp1.trans hsp2, hseat2⟩

/-! ## The first region -/

theorem addTo_quiet {o : FreeOrder} {ht : Nat → Nat} (h : ListInv o s own xs ht) (hinv : Inv s.fb own)
    (he : Insertable o s.rl xs z) (ha : Ample 0 1 s.fb) : quiet (addTo o z) (fun _ s' => Spent 1 1 s.fb s'.fb) s := by
  obtain ⟨hz, -, hne, htl⟩ := he
  obtain ⟨upd, p, q, pre, suf, hsearch, rfl, -, -, hupd⟩ := h.place hne htl
  have hlev := h.skip.level_le
  simp only [addTo, quiet_bind, quiet_read, quiet_ofOption, hsearch, Option.some.injEq]
  rintro _ rfl
  simp only [onFb, getRandomLevel, quiet_bind, quiet_zoom, quiet_read, quiet_modify, quiet_pure, modRl]
  generalize hrand : randomLevelFrom (s.fb.maxsize - 1) 0 s.fb.rand = r
  obtain ⟨k, rand⟩ := r
  have hle := randomLevelFrom_le (s.fb.maxsize - 1) 0 s.fb.rand
  have hpos := ha.levels
  rw [hrand] at hle
  have hk : newLevel o s.rl k < s.fb.maxsize := by
    unfold newLevel
    split <;> omega
  have hinv1 : Inv { s.fb with rand := rand } own := by
    obtain ⟨F, hF⟩ := hinv
    exact ⟨F, { hF with }⟩
  have hget := (get_any_quiet { s.fb with rand := rand } hk ha.spare).and (FreeBlock.get_spec hinv1 (o.tag z) hk).wlp
  refine hget.mono ?_
  rintro b fb2 ⟨hsp, hb, own2, hinv2, hnew, hmax2, hkeep⟩
  have hsp' : Spent 1 1 s.fb fb2 := by
    refine ⟨hsp.maxsize, hsp.arenaSz, ?_, hsp.spare, hsp.beyond⟩
    have hsmall : s.fb.nfree 0 ≤ fb2.nfree 0 + (if newLevel o s.rl k = 0 then 1 else 0) := hsp.small
    split at hsmall <;> omega
  have hfr : InPool fb2 own2 o.tag (update (fun x => o.ptr (s.rl.rp x)) z b) o.hd o.tail (o.level s.rl)
    (pre ++ suf) ht :=
    h.skip.got hz hmax2 hkeep
  have hsplice : ∀ c, s.fb.arenaSz ≤ c → splice (fun x => o.ptr (update s.rl.rp z (o.setPtr (s.rl.rp z) b) x)) z
      (newUpd o s.rl k upd) (newLevel o s.rl k) fb2.fblks c = fb2.fblks c := by
    intro c hc
    rw [ptr_update]
    refine hfr.splice_frame (by rw [hmax2]; exact hk) hnew (hupd k) fun x hx => ?_
    have hlt := hinv2.held_lt hx
    rw [hsp'.arenaSz] at hlt
    omega
  rw [if_neg hb, quiet_bind, quiet_modify, quiet_pure]
  simp only [setRegion_rp, FreeOrder.setLevel_rp]
  exact hsp'.write hsplice

theorem FreeInv.add_quiet {L : FreeOrder → List Nat} (h : FreeInv s own L) (o : FreeOrder)
    (he : Insertable o s.rl (L o) z) (ha : Ample 0 1 s.fb) :
    quiet (addTo o z) (fun _ s' => Spent 1 1 s.fb s'.fb) s := by
  obtain ⟨zs, ht, hl, hp⟩ := h.list o
  exact addTo_quiet hl h.pool (he.perm hp) ha

theorem releaseRegion_quiet (h : FreeInv s own fun _ => xs) (he : ∀ o : FreeOrder, Insertable o s.rl xs z)
    (ha : Ample 0 2 s.fb) : quiet (releaseRegion z) (fun _ s' => Spent 2 2 s.fb s'.fb) s := by
  rw [releaseRegion, quiet_bind]
  refine ((h.add_quiet .offset (he .offset) (ha.mono (by decide) (by decide))).and
    (h.add .offset (he .offset)).wlp).mono ?_
  rintro r s1 ⟨hsp1, hr, own1, k, b, h1, -, hrl1⟩
  subst hr
  rw [if_neg (by decide), quiet_bind]
  obtain ⟨-, he1⟩ := Insertable.second he hrl1
  have ha1 : Ample 0 1 s1.fb := ha.spent hsp1 (by decide) (by decide)
  refine ((h1.add_quiet .extent he1 ha1).and (h1.add .extent he1).wlp).mono ?_
  rintro r s2 ⟨hsp2, hr, -⟩
  subst hr
  rw [if_neg (by decide)]
  simp only [modRl, quiet_bind, quiet_modify, quiet_pure]
  exact hsp1.trans hsp2

theorem add_quiet {em : List Nat} (h : FreeInv s own fun _ => xs) {offset : Int} {extent : Nat}
    (hv : Vacant s.rl xs em z offset extent) (ha : Ample 0 2 s.fb) :
    quiet (add offset extent) (fun _ s' => Spent 2 2 s.fb s'.fb) s := by
  have hz0 : s.rl.empty = z := hv.chain.1
  simp only [add, getEmptyRegion, quiet_bind, quiet_read, hz0]
  rw [if_neg hv.ne_none]
  simp only [modRl, quiet_bind, quiet_modify, quiet_pure]
  rw [if_neg hv.ne_none]
  simp only [quiet_bind, quiet_read, quiet_assert, quiet_modify]
  intro _
  rw [← quiet_bind]
  obtain ⟨hfree, he⟩ := hv.placed h
  refine ((releaseRegion_quiet hfree he ha).and (releaseRegion_spec hfree he).wlp).bind ?_
  rintro r s1 ⟨hsp, hr, -⟩
  subst hr
  rw [if_neg (by decide)]
  simp only [quiet_bind, quiet_modify, quiet_read, quiet_assert, quiet_pure]
  intro _
  exact hsp

theorem add_endsSeated {em : List Nat} (h : FreeInv s own fun _ => xs) {offset : Int} {extent : Nat}
    (hv : Vacant s.rl xs em z offset extent) (ha : Ample 0 2 s.fb) (hseat : EndsSeated s) :
    quiet (add offset extent) (fun _ s' => Spent 2 2 s.fb s'.fb ∧ EndsSeated s') s := by
  refine ((add_quiet h hv ha).and (add_spec h hv).wlp).mono ?_
  rintro r s1 ⟨hsp, -, own1, b, b', -, -, hrl⟩
  refine ⟨hsp, fun o => ?_⟩
  have hz := hv.not_mem o
  simp only [List.mem_cons, not_or] at hz
  have hrp : ∀ x, x ≠ z → s1.rl.rp x = s.rl.rp x := by
    intro x hx
    rw [hrl]
    exact update_of_ne hx _ _
  rw [hrp o.hd (Ne.symm hz.1), hrp o.tail (Ne.symm hz.2.1)]
  exact hsp.seated (hseat o)

end RegionList

/-! ## The new index -/

namespace QueueIndexManager

variable {ω : Type} {D : DataSection} {nalloc : Nat} {s s' : QueueIndexManager ω}

/-- **A new index of `nalloc` slots**: the whole data section is one free region, the six ends of the lists have their
blocks, and nothing was written behind the arena. -/
structure Formatted (D : DataSection) (nalloc : Nat) (s s' : QueueIndexManager ω) : Prop where
  lists : ∃ own ht, IndexInv D s' (emptyLists own ht (nalloc - 1)) ∧
    catalog s' (emptyLists own ht (nalloc - 1)) = Catalog.empty
  whole : (s'.rl.rp RL_EMPTY_HD).offset = D.datao ∧ (s'.rl.rp RL_EMPTY_HD).getExtent = D.size
  time : Seated s'.fb (s'.tq.tqep TQ_HEAD).fblk (s'.tq.tqep TQ_NIL).fblk
  regions : EndsSeated ⟨s'.rl, s'.fb⟩
  arena : s'.fb.arenaSz ≤ getArenaSize nalloc
  beyond : ∀ c, getArenaSize nalloc ≤ c → s'.fb.fblks c = s.fb.fblks c

theorem Formatted.cleared (h : Formatted D nalloc s s') (n : Nat) : Formatted D nalloc s
    { s' with smallestExtentSeen := n } := by
  obtain ⟨own, ht, hinv, hcat⟩ := h.lists
  exact ⟨⟨own, ht, hinv.control s'.env s'.isFull n, hcat⟩, h.whole, h.time, h.regions, h.arena, h.beyond⟩

theorem formatNew_quiet (D : DataSection) (s : QueueIndexManager ω) {n : Nat} (h4 : 4 ≤ n + 1) (h28 : n + 1 < 2 ^ 28) :
    quiet (formatNew (n + 1) D.datao D.ixo)
    (fun _ s' => Seated s'.fb (s'.tq.tqep TQ_HEAD).fblk (s'.tq.tqep TQ_NIL).fblk ∧
      EndsSeated ⟨s'.rl, s'.fb⟩ ∧ s'.fb.arenaSz ≤ getArenaSize (n + 1) ∧
      ∀ c, getArenaSize (n + 1) ≤ c → s'.fb.fblks c = s.fb.fblks c) s := by
  have hlog : 1 ≤ log4 (n + 1) := by
    unfold log4
    exact Nat.log_pos (by omega) h4
  rw [formatNew, quiet_bind, quiet_zoom]
  refine ((FreeBlock.initialise_quiet (n + 1) s.fb).and (FreeBlock.initialise_spec (κ := Holder) s.fb h4 h28).wlp).mono
    ?_
  rintro _ fb1 ⟨⟨hsmall, hspare, harena, hbeyond⟩, hmax1, -, own1, hinv1, -⟩
  have h6 := six_le_spareBlks h4
  rw [quiet_bind, onTq, quiet_zoom]
  have hample : Ample 3 6 fb1 := ⟨by omega, by omega, by omega⟩
  refine ((TimeQueue.initialise_quiet (s := ⟨s.tq, fb1⟩) hinv1 (hample.mono (by decide) (by decide)) (n + 1)).and
    (TimeQueue.initialise_spec (s := ⟨s.tq, fb1⟩) hinv1 (Nat.succ_pos n) (by omega)).wlp).mono ?_
  rintro _ t2 ⟨⟨hsp2, htime⟩, own2, ht2, -, hinv2, -, -⟩
  have hample2 : Ample 2 4 t2.fb := hample.spent hsp2 (by decide) (by decide)
  rw [quiet_bind, onRl, quiet_zoom]
  refine ((initialise_quiet (s := ⟨s.rl, t2.fb⟩) hinv2 (hample2.mono (by decide) (by decide)) (n + 1)).and
    (initialise_spec (s := ⟨s.rl, t2.fb⟩) hinv2 (Nat.succ_pos n) h28).wlp).mono ?_
  rintro _ t3 ⟨⟨hsp3, hseat3⟩, own3, hfresh, -, -⟩
  have hample3 : Ample 0 2 t3.fb := hample2.spent hsp3 (by decide) (by decide)
  rw [quiet_bind, onRl, quiet_zoom]
  refine ((add_endsSeated hfresh.free (hfresh.vacant D) hample3 hseat3).and
    (addFirst_spec hfresh D).wlp).mono ?_
  rintro root t4 ⟨⟨hsp4, hseat4⟩, rfl, -⟩
  simp only [quiet_bind, onRl, modRl, onSx, SignatureIndex.initialise, quiet_zoom, quiet_modify, quiet_pure]
  have hsp := (hsp2.trans hsp3).trans hsp4
  refine ⟨(hsp3.trans hsp4).seated htime, hseat4, ?_, ?_⟩
  · rw [hsp.arenaSz]
    exact harena
  · intro c hc
    rw [hsp.beyond c (Nat.le_trans harena hc), hbeyond c hc]

/-- **A new index is set up** without the pool running out. -/
theorem formatNew_returned (D : DataSection) (s : QueueIndexManager ω) (hal : s.align = D.align) (h4 : 4 ≤ nalloc)
    (h28 : nalloc < 2 ^ 28) : ∃ s', (formatNew nalloc D.datao D.ixo s).returned = some (0, s') ∧
    Formatted D nalloc s s' := by
  obtain ⟨n, rfl⟩ : ∃ n, nalloc = n + 1 := ⟨nalloc - 1, by omega⟩
  obtain ⟨status, s', hrun, ⟨htime, hends, harena, hbeyond⟩, rfl, -, own, ht, hinv, hcat, hwhole⟩ :=
    (formatNew_quiet D s h4 h28).returns (formatNew_lists D s hal h4 h28)
  exact ⟨s', hrun, ⟨own, ht, hinv, hcat⟩, hwhole, htime, hends, harena, hbeyond⟩

end QueueIndexManager

end Rdm
