import Mathlib.Algebra.Order.BigOperators.Group.Finset
import Rdm.Core.MathUtil
import Rdm.Lib.Links
import Rdm.Lib.Prog

/-!
# The pool of skip-list blocks

`rdm::FreeBlock` is one arena of cells from which the lists of the index take the link blocks of their nodes. Every cell
has an owner, and no operation touches a cell that somebody holds (`Keeps`).
-/

namespace Rdm

open ProgLogic ProgLogic.Prog Links
open Function (update update_of_ne update_self)

def FBLK_NONE : Nat := 2 ^ 64 - 1

def FB_MAX_LEVELS : Nat := 15

/-- `rdm::FreeBlock`. `rand` holds the two-bit pieces of random numbers that `GetRandomLevel` is going to draw. -/
structure FreeBlock where
  maxsize : Nat
  arenaSz : Nat
  avail : Nat
  allocated : Nat
  nfree : Nat → Nat
  free : Nat → Nat
  fblks : Nat → Nat
  rand : List Nat

namespace FreeBlock

/-! ## The operations -/

def randomLevelFrom : Nat → Nat → List Nat → Nat × List Nat
  | 0, level, rand => (level, rand)
  | n + 1, level, rand =>
    if rand.headD 1 % 4 ≠ 0 then (level, rand.tail) else randomLevelFrom n (level + 1) rand.tail

def getRandomLevel : Prog FreeBlock Nat := do
  let fb ← read
  let (level, rand) := randomLevelFrom (fb.maxsize - 1) 0 fb.rand
  modify fun fb => { fb with rand := rand }
  return level

def popped (fb : FreeBlock) (l : Nat) : FreeBlock := { fb with
  free := Function.update fb.free l (fb.fblks (fb.free l))
  nfree := Function.update fb.nfree l (fb.nfree l - 1)
  avail := fb.avail - 1
  allocated := fb.allocated + 1 }

def pushed (fb : FreeBlock) (l b : Nat) : FreeBlock := { fb with
  fblks := Function.update fb.fblks b (fb.free l)
  free := Function.update fb.free l b
  nfree := Function.update fb.nfree l (fb.nfree l + 1)
  avail := fb.avail + 1
  allocated := sizeSub fb.allocated 1 }

def release (size fblk : Nat) : Prog FreeBlock Unit := do
  let fb ← read
  assert (0 < size ∧ size ≤ fb.maxsize)
  assert (fblk < fb.arenaSz)
  let level := size - 1
  modify fun fb => fb.pushed level fblk

def take (wantSize level : Nat) : Prog FreeBlock Nat := do
  let fb ← read
  let fblk := fb.free level
  assert (fblk ≠ FBLK_NONE)
  assert (fblk < fb.arenaSz)
  assert (0 < fb.nfree level)
  assert (0 < fb.avail)
  modify fun fb => fb.popped level
  let gotSize := level + 1
  if level < fb.maxsize ∧ wantSize < gotSize then
    release (gotSize - wantSize) (fblk + wantSize)
    modify fun fb => { fb with allocated := fb.allocated + 1 }
  return fblk

def getFrom (wantSize : Nat) : Nat → Nat → Prog FreeBlock Nat
  | 0, _ => do
    warn
    return FBLK_NONE
  | n + 1, level => do
    let fb ← read
    if 0 < fb.nfree level then take wantSize level else getFrom wantSize n (level + 1)

def get (level : Nat) : Prog FreeBlock Nat := do
  let fb ← read
  assert (level < fb.maxsize)
  getFrom (level + 1) (fb.maxsize + 1 - level) level

/-! ## The invariant -/

/-- Who a cell of the arena belongs to. -/
inductive Owner (κ : Type) where
  | free (level block : Nat)
  | held (k : κ)
  | outside

variable {κ : Type} {fb : FreeBlock} {own : Nat → Owner κ} {F : Nat → List Nat} {L sz : Nat} {l b : Nat}

def width (fb : FreeBlock) (l : Nat) : Nat := min (l + 1) fb.maxsize

structure FreeLists (fb : FreeBlock) (own : Nat → Owner κ) (F : Nat → List Nat) (L sz : Nat) : Prop where
  chain : ∀ l < L, Chain fb.fblks (fb.free l) (F l) FBLK_NONE
  count : ∀ l < L, fb.nfree l = (F l).length
  avail : fb.avail = ∑ l ∈ Finset.range L, (F l).length
  owned : ∀ l < L, ∀ b ∈ F l, ∀ i < fb.width l, own (b + i) = .free l b
  nodup : ∀ l < L, (F l).Nodup
  bound : ∀ c, own c ≠ .outside → c < sz
  pos : 0 < fb.maxsize
  size : sz ≤ FBLK_NONE

def Inv (fb : FreeBlock) (own : Nat → Owner κ) : Prop := ∃ F, FreeLists fb own F (fb.maxsize + 1) fb.arenaSz

def Keeps (T : κ → Prop) (fb : FreeBlock) (own : Nat → Owner κ) (fb' : FreeBlock) (own' : Nat → Owner κ) : Prop :=
  fb'.maxsize = fb.maxsize ∧ ∀ c k, T k → own c = .held k → own' c = .held k ∧ fb'.fblks c = fb.fblks c

theorem Keeps.refl (T : κ → Prop) (fb : FreeBlock) (own : Nat → Owner κ) : Keeps T fb own fb own :=
  ⟨rfl, fun _ _ _ h => ⟨h, rfl⟩⟩

theorem Keeps.trans {T : κ → Prop} {fb1 fb2 fb3 : FreeBlock} {own1 own2 own3 : Nat → Owner κ}
    (h : Keeps T fb1 own1 fb2 own2) (h' : Keeps T fb2 own2 fb3 own3) : Keeps T fb1 own1 fb3 own3 := by
  refine ⟨h'.1.trans h.1, fun c k hk hc => ?_⟩
  obtain ⟨h1, h2⟩ := h.2 c k hk hc
  obtain ⟨h3, h4⟩ := h'.2 c k hk h1
  exact ⟨h3, h4.trans h2⟩

theorem Keeps.mono {T T' : κ → Prop} {fb' : FreeBlock} {own' : Nat → Owner κ} (h : Keeps T fb own fb' own')
    (hT : ∀ k, T' k → T k) : Keeps T' fb own fb' own' :=
  ⟨h.1, fun c k hk hc => h.2 c k (hT k hk) hc⟩

theorem FreeLists.width_pos (h : FreeLists fb own F L sz) (l : Nat) : 0 < fb.width l := by
  have := h.pos
  unfold width
  omega

theorem FreeLists.owned_head (h : FreeLists fb own F L sz) (hl : l < L) (hb : b ∈ F l) :
    own b = .free l b := h.owned l hl b hb 0 (h.width_pos l)

def hand (own : Nat → Owner κ) (b n : Nat) (o : Owner κ) : Nat → Owner κ :=
  fun c => if b ≤ c ∧ c < b + n then o else own c

theorem hand_mem {n c : Nat} {o : Owner κ} (h : b ≤ c ∧ c < b + n) : hand own b n o c = o := if_pos h

theorem hand_not_mem {n c : Nat} {o : Owner κ} (h : ¬(b ≤ c ∧ c < b + n)) : hand own b n o c = own c := if_neg h

/-! ## Handing blocks out and taking them back -/

theorem sum_update_length {F : Nat → List Nat} {L : Nat} (hl : l < L) (xs : List Nat) :
    (∑ i ∈ Finset.range L, (update F l xs i).length) + (F l).length =
      (∑ i ∈ Finset.range L, (F i).length) + xs.length := by
  have hmem : l ∈ Finset.range L := Finset.mem_range.2 hl
  rw [← Finset.add_sum_erase _ _ hmem, ← Finset.add_sum_erase (Finset.range L) (fun i => (F i).length) hmem,
    update_self]
  have hrest : ∑ i ∈ (Finset.range L).erase l, (update F l xs i).length =
      ∑ i ∈ (Finset.range L).erase l, (F i).length :=
    Finset.sum_congr rfl fun i hi => by rw [update_of_ne (Finset.ne_of_mem_erase hi)]
  rw [hrest]
  omega

theorem FreeLists.pop (h : FreeLists fb own F L sz) {bs : List Nat} (hl : l < L) (hF : F l = b :: bs)
    (k : κ) : FreeLists (fb.popped l) (hand own b (fb.width l) (.held k)) (update F l bs) L sz := by
  have hb : b ∈ F l := by rw [hF]; exact List.mem_cons_self
  have hnd := h.nodup l hl
  rw [hF] at hnd
  constructor
  case chain =>
    intro i hi
    by_cases hil : i = l
    · subst hil
      have hc := h.chain i hi
      rw [hF] at hc
      simpa [popped, hc.1] using hc.2
    · simpa [popped, hil] using h.chain i hi
  case count =>
    intro i hi
    by_cases hil : i = l
    · subst hil
      simp [popped, h.count i hi, hF]
    · simpa [popped, hil] using h.count i hi
  case avail =>
    have hsum := sum_update_length (F := F) hl bs
    have hav := h.avail
    simp only [hF, List.length_cons, popped] at hsum ⊢
    omega
  case owned =>
    intro i hi c hc j hj
    have hc' : c ∈ F i ∧ (i = l → c ≠ b) := by
      by_cases hil : i = l
      · subst hil
        rw [update_self] at hc
        refine ⟨by rw [hF]; exact List.mem_cons_of_mem _ hc, ?_⟩
        rintro - rfl
        exact (List.nodup_cons.1 hnd).1 hc
      · rw [update_of_ne hil] at hc
        exact ⟨hc, fun e => absurd e hil⟩
    have hown := h.owned i hi c hc'.1 j hj
    rw [hand_not_mem, hown]
    rintro ⟨h1, h2⟩
    have hown' := h.owned l hl b hb (c + j - b) (by omega)
    rw [show b + (c + j - b) = c + j by omega, hown] at hown'
    injection hown' with e1 e2
    exact hc'.2 e1 e2
  case nodup =>
    intro i hi
    by_cases hil : i = l
    · subst hil
      rw [update_self]
      exact (List.nodup_cons.1 hnd).2
    · rw [update_of_ne hil]
      exact h.nodup i hi
  case bound =>
    intro c hc
    by_cases hcb : b ≤ c ∧ c < b + fb.width l
    · have hown := h.owned l hl b hb (c - b) (by omega)
      rw [show b + (c - b) = c by omega] at hown
      exact h.bound c (by rw [hown]; nofun)
    · rw [hand_not_mem hcb] at hc
      exact h.bound c hc
  case pos => exact h.pos
  case size => exact h.size

theorem FreeLists.push (h : FreeLists fb own F L sz) (hl : l < L) {k : κ}
    (hb : ∀ i < fb.width l, own (b + i) = .held k) :
    FreeLists (fb.pushed l b) (hand own b (fb.width l) (.free l b)) (update F l (b :: F l)) L sz := by
  have hw := h.width_pos l
  have hown : own b = .held k := hb 0 hw
  have hnot : ∀ i < L, b ∉ F i := by
    intro i hi hm
    rw [h.owned_head hi hm] at hown
    cases hown
  have hcell : ∀ i < L, ∀ c ∈ F i, (fb.pushed l b).fblks c = fb.fblks c := by
    intro i hi c hc
    refine update_of_ne ?_ _ _
    rintro rfl
    exact hnot i hi hc
  constructor
  case chain =>
    intro i hi
    have hc := chain_congr (h.chain i hi) (hcell i hi)
    by_cases hil : i = l
    · subst hil
      simpa [pushed, Chain] using hc
    · simpa [pushed, hil] using hc
  case count =>
    intro i hi
    by_cases hil : i = l
    · subst hil
      simp [pushed, h.count i hi]
    · simpa [pushed, hil] using h.count i hi
  case avail =>
    have hsum := sum_update_length (F := F) hl (b :: F l)
    have hav := h.avail
    simp only [List.length_cons, pushed] at hsum ⊢
    omega
  case owned =>
    intro i hi c hc j hj
    by_cases hcb : i = l ∧ c = b
    · obtain ⟨rfl, rfl⟩ := hcb
      rw [hand_mem ⟨by omega, by have : j < fb.width i := hj; omega⟩]
    · have hc' : c ∈ F i := by
        by_cases hil : i = l
        · subst hil
          rw [update_self] at hc
          rcases List.mem_cons.1 hc with e | hc
          · exact absurd ⟨rfl, e⟩ hcb
          · exact hc
        · rwa [update_of_ne hil] at hc
      have hfree := h.owned i hi c hc' j hj
      rw [hand_not_mem, hfree]
      rintro ⟨h1, h2⟩
      have hheld := hb (c + j - b) (by omega)
      rw [show b + (c + j - b) = c + j by omega, hfree] at hheld
      cases hheld
  case nodup =>
    intro i hi
    by_cases hil : i = l
    · subst hil
      rw [update_self]
      exact List.nodup_cons.2 ⟨hnot i hi, h.nodup i hi⟩
    · rw [update_of_ne hil]
      exact h.nodup i hi
  case bound =>
    intro c hc
    by_cases hcb : b ≤ c ∧ c < b + fb.width l
    · have hheld := hb (c - b) (by omega)
      rw [show b + (c - b) = c by omega] at hheld
      exact h.bound c (by rw [hheld]; nofun)
    · rw [hand_not_mem hcb] at hc
      exact h.bound c hc
  case pos => exact h.pos
  case size => exact h.size

theorem release_spec (h : Inv fb own) {size : Nat} {k : κ} (hs : 0 < size) (hm : size ≤ fb.maxsize)
    (hb : ∀ i < size, own (b + i) = .held k) :
    wp (release size b) (fun _ fb' => ∃ own', Inv fb' own' ∧ fb'.maxsize = fb.maxsize ∧
      ∀ c k', own c = .held k' → ¬(b ≤ c ∧ c < b + size) → own' c = .held k' ∧ fb'.fblks c = fb.fblks c) fb := by
  obtain ⟨F, h⟩ := h
  have hb0 : own b = .held k := hb 0 hs
  have hlt : b < fb.arenaSz := h.bound b (by rw [hb0]; nofun)
  have hw : fb.width (size - 1) = size := by unfold width; omega
  simp only [release, wp_bind, wp_read, wp_assert, wp_modify]
  have hpush := h.push (l := size - 1) (b := b) (k := k) (by omega) (by rw [hw]; exact hb)
  rw [hw] at hpush
  refine ⟨⟨hs, hm⟩, hlt, hand own b size (.free (size - 1) b), ⟨_, hpush⟩, rfl, ?_⟩
  · intro c k' hc hout
    refine ⟨by rw [hand_not_mem hout]; exact hc, update_of_ne ?_ _ _⟩
    omega

def Got (k : κ) (level : Nat) (fb : FreeBlock) (own : Nat → Owner κ) (b : Nat) (fb' : FreeBlock) : Prop :=
  b ≠ FBLK_NONE ∧ ∃ own', Inv fb' own' ∧ (∀ i ≤ level, own' (b + i) = .held k) ∧ fb'.maxsize = fb.maxsize ∧
    ∀ c k', own c = .held k' → own' c = .held k' ∧ fb'.fblks c = fb.fblks c

theorem inv_allocated (h : Inv fb own) (n : Nat) : Inv { fb with allocated := n } own := by
  obtain ⟨F, h⟩ := h
  exact ⟨F, { h with }⟩

theorem take_spec (h : Inv fb own) (k : κ) {level : Nat} (hll : level ≤ l) (hlm : level < fb.maxsize)
    (hl : l ≤ fb.maxsize) (hn : 0 < fb.nfree l) : wp (take (level + 1) l) (Got k level fb own) fb := by
  obtain ⟨F, h⟩ := h
  have hcount := h.count l (by omega)
  obtain ⟨b, bs, hF⟩ : ∃ b bs, F l = b :: bs := List.exists_cons_of_length_pos (by omega)
  have hfree : fb.free l = b := by
    have hc := h.chain l (by omega)
    rw [hF] at hc
    exact hc.1
  have hb : b ∈ F l := by rw [hF]; exact List.mem_cons_self
  have hlt : b < fb.arenaSz := h.bound b (by rw [h.owned_head (by omega) hb]; nofun)
  have hnone : b ≠ FBLK_NONE := by have := h.size; omega
  have havail : 0 < fb.avail := by
    have hle := Finset.single_le_sum (f := fun i => (F i).length) (fun i _ => Nat.zero_le _)
      (Finset.mem_range.2 (by omega : l < fb.maxsize + 1))
    have := h.avail
    omega
  have hpop : Inv (fb.popped l) (hand own b (fb.width l) (.held k)) := ⟨_, h.pop (by omega) hF k⟩
  have hwide : ∀ i ≤ level, i < fb.width l := by unfold width; omega
  -- the cells somebody else holds are not in the block
  have hheld : ∀ c k', own c = .held k' → ¬(b ≤ c ∧ c < b + fb.width l) := by
    rintro c k' hc ⟨h1, h2⟩
    have hown := h.owned l (by omega) b hb (c - b) (by omega)
    rw [show b + (c - b) = c by omega, hc] at hown
    cases hown
  simp only [take, wp_bind, wp_read, wp_assert, wp_modify, hfree]
  refine ⟨hnone, hlt, hn, havail, ?_⟩
  split
  case isTrue hsplit =>
    have hw : fb.width l = l + 1 := by unfold width; omega
    have hrel := release_spec hpop (b := b + (level + 1)) (k := k) (by omega : 0 < l + 1 - (level + 1))
      (by show _ ≤ fb.maxsize; omega) (fun i hi => hand_mem (by omega))
    simp only [wp_bind]
    refine hrel.mono ?_
    rintro - fb' ⟨own', hinv, hmax, hkeep⟩
    simp only [wp_bind, wp_modify, wp_pure]
    refine ⟨hnone, own', inv_allocated hinv _, fun i hi => ?_, hmax, fun c k' hc => ?_⟩
    · exact (hkeep _ k (hand_mem (by omega)) (by omega)).1
    · have hout := hheld c k' hc
      exact hkeep c k' (by rw [hand_not_mem hout]; exact hc) (by omega)
  case isFalse =>
    simp only [wp_pure]
    refine ⟨hnone, _, hpop, fun i hi => hand_mem (by have := hwide i hi; omega), rfl, fun c k' hc => ?_⟩
    exact ⟨by rw [hand_not_mem (hheld c k' hc)]; exact hc, rfl⟩

theorem getFrom_spec (h : Inv fb own) (k : κ) {level : Nat} (hlm : level < fb.maxsize) :
    ∀ (n l : Nat), level ≤ l → l + n = fb.maxsize + 1 → wp (getFrom (level + 1) n l) (Got k level fb own) fb
  | 0, l, _, _ => by simp only [getFrom, wp_bind, wp_warn]
  | n + 1, l, hll, hn => by
    simp only [getFrom, wp_bind, wp_read]
    split
    case isTrue hfree => exact take_spec h k hll hlm (by omega) hfree
    case isFalse => exact getFrom_spec h k hlm n (l + 1) (by omega) (by omega)

/-- **A request**: the block handed out is a fresh one. -/
theorem get_spec (h : Inv fb own) (k : κ) {level : Nat} (hlm : level < fb.maxsize) :
    wp (get level) (Got k level fb own) fb := by
  simp only [get, wp_bind, wp_read, wp_assert]
  exact ⟨hlm, getFrom_spec h k hlm _ level (Nat.le_refl _) (by omega)⟩

theorem randomLevelFrom_le : ∀ (n level : Nat) (rand : List Nat), (randomLevelFrom n level rand).1 ≤ level + n
  | 0, level, rand => Nat.le_refl _
  | n + 1, level, rand => by
    rw [randomLevelFrom]
    split
    · exact Nat.le_add_right _ _
    · have := randomLevelFrom_le n (level + 1) rand.tail
      omega

theorem getRandomLevel_spec (h : Inv fb own) : wp getRandomLevel (fun level fb' => level < fb.maxsize ∧
    Inv fb' own ∧ fb'.maxsize = fb.maxsize ∧ fb'.fblks = fb.fblks) fb := by
  obtain ⟨F, h⟩ := h
  have hle := randomLevelFrom_le (fb.maxsize - 1) 0 fb.rand
  have hpos := h.pos
  simp only [getRandomLevel, wp_bind, wp_read, wp_modify, wp_pure]
  exact ⟨by omega, ⟨F, { h with }⟩, trivial, trivial⟩

/-! ## Without a block -/

theorem silent_release (size fblk : Nat) : Silent (release size fblk) :=
  silent_read.bind fun _ => silent_assert.bind fun _ => silent_assert.bind fun _ => silent_modify

theorem silent_take (wantSize level : Nat) : Silent (take wantSize level) := by
  refine silent_read.bind fun fb => ?_
  refine silent_assert.bind fun _ => silent_assert.bind fun _ => silent_assert.bind fun _ =>
    silent_assert.bind fun _ => ?_
  refine silent_modify.bind fun _ => ?_
  exact silent_ite ((silent_release _ _).bind fun _ => silent_modify.bind fun _ => silent_pure) silent_pure

theorem silent_getRandomLevel : Silent getRandomLevel :=
  silent_read.bind fun _ => silent_modify.bind fun _ => silent_pure

theorem getFrom_warns (wantSize : Nat) : ∀ (n level : Nat) (fb : FreeBlock), warns (getFrom wantSize n level)
    (fun b fb' => b = FBLK_NONE ∧ fb' = fb ∧ ∀ l, level ≤ l → l < level + n → fb.nfree l = 0) fb
  | 0, _, _ => fun _ => ⟨FBLK_NONE, _, rfl, rfl, rfl, fun l _ _ => by omega⟩
  | n + 1, level, fb => by
    rw [getFrom, warns_read]
    split
    case isTrue => exact (silent_take _ _).warns
    case isFalse hnone =>
      refine (getFrom_warns wantSize n (level + 1) fb).mono ?_
      rintro b fb' ⟨hb, hfb, hempty⟩
      refine ⟨hb, hfb, fun l hl hl' => ?_⟩
      rcases Nat.eq_or_lt_of_le hl with rfl | hl
      · omega
      · exact hempty l hl (by omega)

theorem get_warns {level : Nat} (hl : level < fb.maxsize) : warns (get level)
    (fun b fb' => b = FBLK_NONE ∧ fb' = fb ∧ ∀ l, level ≤ l → l ≤ fb.maxsize → fb.nfree l = 0) fb := by
  rw [get, warns_read, warns_assert hl]
  refine (getFrom_warns _ _ _ _).mono ?_
  rintro b fb' ⟨hb, hfb, hempty⟩
  exact ⟨hb, hfb, fun l hl' hle => hempty l hl' (by omega)⟩

end FreeBlock

end Rdm
