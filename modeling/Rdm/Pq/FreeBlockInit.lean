import Rdm.Pq.FreeBlock

/-!
# The initial pool

`FreeBlock::Initialize` cuts the arena into blocks: three quarters of the slots get a block of one cell, a quarter of
that number one of two, and so on; the rest becomes spare blocks.
-/

namespace Rdm

open ProgLogic ProgLogic.Prog Links
open Function (update update_of_ne update_self)

namespace FreeBlock

def nextBlks (numblks : Nat) : Nat := if 4 ≤ numblks then numblks / 4 else 1

def arenaSizeFrom : Nat → Nat → Nat → Nat → Nat
  | 0, _, _, total => total
  | n + 1, level, numblks, total => arenaSizeFrom n (level + 1) (nextBlks numblks) (total + (level + 1) * numblks)

def spareBlks (nelems : Nat) : Nat := Nat.sqrt (9 * log4 nelems ^ 2 * nelems)

def getArenaSize (nelems : Nat) : Nat :=
  let maxsize := log4 nelems + 1
  arenaSizeFrom maxsize 0 (3 * nelems / 4) 0 + Nat.sqrt (maxsize ^ 2 * (9 * log4 nelems ^ 2 * nelems))

def initChain (blksize : Nat) : Nat → Nat → (Nat → Nat) → Nat × (Nat → Nat)
  | 0, off, fblks => (off, fblks)
  | n + 1, off, fblks => initChain blksize n (off + blksize) (Function.update fblks off (off + blksize))

def initLevel (offset level blksize numblks : Nat) : Prog FreeBlock Nat := do
  let fb ← read
  assert (level ≤ fb.maxsize)
  assert (0 < blksize ∧ level ≤ blksize)
  assert (0 < numblks)
  let (off, fblks) := initChain blksize (numblks - 1) offset fb.fblks
  modify fun fb => { fb with
    free := Function.update fb.free level offset
    fblks := Function.update fblks off FBLK_NONE
    nfree := Function.update fb.nfree level numblks
    avail := fb.avail + numblks }
  return off + blksize

def initLevels : Nat → Nat → Nat → Nat → Prog FreeBlock Nat
  | 0, _, _, offset => return offset
  | n + 1, level, numblks, offset => do
    let offset ← initLevel offset level (level + 1) numblks
    initLevels n (level + 1) (nextBlks numblks) offset

def initialise (nalloc : Nat) : Prog FreeBlock Unit := do
  assert (0 < nalloc)
  let maxsize := log4 nalloc + 1
  assert (maxsize < FB_MAX_LEVELS)
  let fblkSz := getArenaSize nalloc
  modify fun fb => { fb with
    maxsize := maxsize
    fblks := fun c => if c < fblkSz then FBLK_NONE else fb.fblks c
    allocated := 0
    avail := 0 }
  let offset ← initLevels maxsize 0 (3 * nalloc / 4) 0
  let offset ← initLevel offset maxsize maxsize (spareBlks nalloc)
  assert (offset ≤ fblkSz ∧ fblkSz < offset + maxsize)
  modify fun fb => { fb with arenaSz := offset }

/-! ## One size -/

def blocks (blksize : Nat) : Nat → Nat → List Nat
  | 0, _ => []
  | n + 1, off => off :: blocks blksize n (off + blksize)

theorem length_blocks (w : Nat) : ∀ n off, (blocks w n off).length = n
  | 0, _ => rfl
  | n + 1, off => by rw [blocks, List.length_cons, length_blocks w n]

variable {w : Nat} {κ : Type} {fb : FreeBlock} {own : Nat → Owner κ} {F : Nat → List Nat}

theorem mem_blocks {b : Nat} : ∀ {n off : Nat}, b ∈ blocks w n off ↔ ∃ i < n, b = off + i * w
  | 0, off => by simp [blocks]
  | n + 1, off => by
    rw [blocks, List.mem_cons, mem_blocks]
    constructor
    · rintro (rfl | ⟨i, hi, rfl⟩)
      · exact ⟨0, by omega, by simp⟩
      · exact ⟨i + 1, by omega, by rw [Nat.add_mul]; omega⟩
    · rintro ⟨_ | i, hi, rfl⟩
      · exact .inl (by simp)
      · exact .inr ⟨i, by omega, by rw [Nat.add_mul]; omega⟩

theorem nodup_blocks (hw : 0 < w) : ∀ n off, (blocks w n off).Nodup
  | 0, _ => List.nodup_nil
  | n + 1, off => by
    rw [blocks, List.nodup_cons]
    refine ⟨fun h => ?_, nodup_blocks hw n (off + w)⟩
    obtain ⟨i, -, hi⟩ := mem_blocks.1 h
    omega

theorem initChain_fst (w : Nat) : ∀ n off fblks, (initChain w n off fblks).1 = off + n * w
  | 0, off, _ => by simp [initChain]
  | n + 1, off, fblks => by rw [initChain, initChain_fst w n, Nat.add_mul]; omega

theorem initChain_below {c : Nat} : ∀ {n off : Nat} (fblks : Nat → Nat), c < off →
    (initChain w n off fblks).2 c = fblks c
  | 0, _, _, _ => rfl
  | n + 1, off, fblks, h => by
    rw [initChain, initChain_below _ (by omega), update_of_ne (by omega)]

theorem initChain_chain (hw : 0 < w) : ∀ (n off : Nat) (fblks : Nat → Nat),
    Chain (update (initChain w n off fblks).2 (off + n * w) FBLK_NONE) off (blocks w (n + 1) off) FBLK_NONE
  | 0, off, fblks => by simp [initChain, blocks, Chain]
  | n + 1, off, fblks => by
    have ih := initChain_chain hw n (off + w) (update fblks off (off + w))
    rw [initChain, blocks]
    refine ⟨rfl, ?_⟩
    have hoff : off + (n + 1) * w = off + w + n * w := by rw [Nat.add_mul]; omega
    rw [hoff, update_of_ne (by omega : off ≠ off + w + n * w), initChain_below _ (by omega),
      update_self]
    exact ih

def Unheld (own : Nat → Owner κ) : Prop := ∀ c k, own c ≠ .held k

theorem initLevel_spec {l off n : Nat} (h : FreeLists fb own F l off) (hl : l ≤ fb.maxsize) (hw : w = fb.width l)
    (hlw : l ≤ w) (hn : 0 < n) (hsz : off + w * n ≤ FBLK_NONE) (hun : Unheld own) :
    wp (initLevel off l w n) (fun off' fb' => off' = off + w * n ∧ fb'.maxsize = fb.maxsize ∧
      fb'.allocated = fb.allocated ∧
      ∃ (own' : Nat → Owner κ) (F' : Nat → List Nat), FreeLists fb' own' F' (l + 1) off' ∧ Unheld own') fb := by
  have hw0 : 0 < w := hw ▸ h.width_pos l
  have hend : initChain w (n - 1) off fb.fblks = (off + (n - 1) * w, (initChain w (n - 1) off fb.fblks).2) := by
    rw [← initChain_fst w (n - 1) off fb.fblks]
  obtain ⟨n, rfl⟩ : ∃ m, n = m + 1 := ⟨n - 1, by omega⟩
  simp only [Nat.add_sub_cancel] at hend
  have hnw : off + n * w + w = off + w * (n + 1) := by rw [Nat.mul_comm w, Nat.add_mul]; omega
  simp only [initLevel, wp_bind, wp_read, wp_assert, Nat.add_sub_cancel]
  rw [hend]
  simp only [wp_modify, wp_pure]
  refine ⟨hl, ⟨hw0, hlw⟩, hn, hnw, trivial, trivial, ?_⟩
  have hblk : ∀ i < l, ∀ b ∈ F i, b < off :=
    fun i hi b hb => h.bound b (by rw [h.owned_head hi hb]; exact fun h => by cases h)
  have hdiv : ∀ i j, j < w → (i * w + j) / w * w = i * w := by
    intro i j hj
    rw [Nat.add_comm, Nat.add_mul_div_right _ _ hw0, Nat.div_eq_of_lt hj, Nat.zero_add]
  -- a cell of the new part belongs to the block it lies in
  refine ⟨fun c => if off ≤ c ∧ c < off + w * (n + 1) then .free l (off + (c - off) / w * w) else own c,
    update F l (blocks w (n + 1) off), ?_, ?_⟩
  · constructor
    case chain =>
      intro i hi
      by_cases hil : i = l
      · subst hil
        simpa using initChain_chain hw0 n off fb.fblks
      · simp only [update_of_ne hil]
        refine chain_congr (h.chain i (by omega)) fun b hb => ?_
        have hb' := hblk i (by omega) b hb
        rw [update_of_ne (by omega), initChain_below _ hb']
    case count =>
      intro i hi
      by_cases hil : i = l
      · subst hil
        simp [length_blocks]
      · simpa [hil] using h.count i (by omega)
    case avail =>
      have hrest : ∑ i ∈ Finset.range l, (update F l (blocks w (n + 1) off) i).length =
          ∑ i ∈ Finset.range l, (F i).length :=
        Finset.sum_congr rfl fun i hi => by
          rw [update_of_ne (by have := Finset.mem_range.1 hi; omega)]
      simp only [Finset.sum_range_succ, hrest, update_self, length_blocks, h.avail]
    case owned =>
      intro i hi b hb j hj
      by_cases hil : i = l
      · subst hil
        rw [update_self] at hb
        obtain ⟨m, hm, rfl⟩ := mem_blocks.1 hb
        have hj : j < w := by rw [hw]; exact hj
        have hle : m * w + w ≤ w * (n + 1) := by
          rw [Nat.mul_comm w, ← Nat.succ_mul]
          exact Nat.mul_le_mul_right w (by omega)
        rw [if_pos (by omega), show off + m * w + j - off = m * w + j by omega, hdiv m j hj]
      · rw [update_of_ne hil] at hb
        have hown := h.owned i (by omega) b hb j hj
        have hlt := h.bound (b + j) (by rw [hown]; exact fun h => by cases h)
        rw [if_neg (by omega), hown]
    case nodup =>
      intro i hi
      by_cases hil : i = l
      · subst hil
        rw [update_self]
        exact nodup_blocks hw0 _ _
      · rw [update_of_ne hil]
        exact h.nodup i (by omega)
    case bound =>
      intro c hc
      rw [hnw]
      by_contra hge
      rw [if_neg (by omega)] at hc
      have := h.bound c hc
      omega
    case pos => exact h.pos
    case size => rw [hnw]; exact hsz
  · intro c k
    beta_reduce
    split
    · exact fun h => by cases h
    · exact hun c k

/-! ## The whole arena -/

theorem nextBlks_pos (n : Nat) : 0 < nextBlks n := by
  unfold nextBlks
  split <;> omega

theorem nextBlks_le {n m : Nat} (hm : 0 < m) (h : n ≤ m) : nextBlks n ≤ m := by
  unfold nextBlks
  split <;> omega

theorem le_arenaSizeFrom : ∀ n level numblks total, total ≤ arenaSizeFrom n level numblks total
  | 0, _, _, total => Nat.le_refl total
  | n + 1, level, numblks, total => by
    rw [arenaSizeFrom]
    exact Nat.le_trans (Nat.le_add_right _ _) (le_arenaSizeFrom n _ _ _)

theorem arenaSizeFrom_le {m : Nat} (hm : 0 < m) : ∀ n level numblks total, numblks ≤ m →
    arenaSizeFrom n level numblks total ≤ total + n * ((level + n) * m)
  | 0, _, _, total, _ => by simp [arenaSizeFrom]
  | n + 1, level, numblks, total, h => by
    rw [arenaSizeFrom]
    have ih := arenaSizeFrom_le hm n (level + 1) _ (total + (level + 1) * numblks) (nextBlks_le hm h)
    have h1 : (level + 1) * numblks ≤ (level + (n + 1)) * m := Nat.mul_le_mul (by omega) h
    rw [show level + 1 + n = level + (n + 1) by omega] at ih
    rw [Nat.succ_mul n]
    omega

theorem initLevels_spec : ∀ {n l numblks off : Nat} {fb : FreeBlock} {own : Nat → Owner κ} {F : Nat → List Nat},
    FreeLists fb own F l off → l + n = fb.maxsize → 0 < numblks → arenaSizeFrom n l numblks off ≤ FBLK_NONE →
    Unheld own →
    wp (initLevels n l numblks off) (fun off' fb' => off' = arenaSizeFrom n l numblks off ∧
      fb'.maxsize = fb.maxsize ∧ fb'.allocated = fb.allocated ∧
      ∃ (own' : Nat → Owner κ) (F' : Nat → List Nat), FreeLists fb' own' F' fb.maxsize off' ∧ Unheld own') fb
  | 0, l, numblks, off, fb, own, F, h, hl, _, _, hun => by
    rw [initLevels, wp_pure, arenaSizeFrom]
    obtain rfl : l = fb.maxsize := by omega
    exact ⟨rfl, rfl, rfl, own, F, h, hun⟩
  | n + 1, l, numblks, off, fb, own, F, h, hl, hn, hsz, hun => by
    rw [arenaSizeFrom] at hsz
    have hoff := le_arenaSizeFrom n (l + 1) (nextBlks numblks) (off + (l + 1) * numblks)
    have hone := initLevel_spec (w := l + 1) h (by omega) (by unfold width; omega) (by omega) hn (by omega) hun
    rw [initLevels, wp_bind]
    refine hone.mono ?_
    rintro off' fb' ⟨rfl, hmax, hout, own', F', h', hun'⟩
    refine (initLevels_spec h' (by omega) (nextBlks_pos _) hsz hun').mono ?_
    rintro off'' fb'' ⟨rfl, hmax', hout', own'', F'', h'', hun''⟩
    refine ⟨by rw [arenaSizeFrom], hmax'.trans hmax, hout'.trans hout, own'', F'', ?_, hun''⟩
    rwa [hmax] at h''

theorem mul_sqrt_le (m k : Nat) : m * Nat.sqrt k ≤ Nat.sqrt (m ^ 2 * k) := by
  rw [Nat.le_sqrt', Nat.mul_pow]
  exact Nat.mul_le_mul_left _ (Nat.sqrt_le' k)

theorem sqrt_lt_mul_add {m : Nat} (hm : 0 < m) (k : Nat) : Nat.sqrt (m ^ 2 * k) < m * Nat.sqrt k + m := by
  have h : m * Nat.sqrt k + m = m * (Nat.sqrt k + 1) := by rw [Nat.mul_add, Nat.mul_one]
  rw [h, Nat.sqrt_lt', Nat.mul_pow]
  exact Nat.mul_lt_mul_of_pos_left (Nat.lt_succ_sqrt' k) (Nat.pow_pos hm)

theorem getArenaSize_lt {nalloc : Nat} (h : nalloc < 2 ^ 28) (h0 : 0 < nalloc) : getArenaSize nalloc < 2 ^ 47 := by
  have hlog : log4 nalloc < 14 := by
    unfold log4
    exact Nat.log_lt_of_lt_pow (by omega) (by omega)
  have h1 := arenaSizeFrom_le h0 (log4 nalloc + 1) 0 (3 * nalloc / 4) 0 (by omega)
  have h2 : (log4 nalloc + 1) * ((0 + (log4 nalloc + 1)) * nalloc) ≤ 14 * (14 * 2 ^ 28) :=
    Nat.mul_le_mul (by omega) (Nat.mul_le_mul (by omega) (by omega))
  have h3 := Nat.sqrt_le_self ((log4 nalloc + 1) ^ 2 * (9 * log4 nalloc ^ 2 * nalloc))
  have h4 : (log4 nalloc + 1) ^ 2 * (9 * log4 nalloc ^ 2 * nalloc) ≤ 14 ^ 2 * (9 * 14 ^ 2 * 2 ^ 28) :=
    Nat.mul_le_mul (Nat.pow_le_pow_left (by omega) 2)
      (Nat.mul_le_mul (Nat.mul_le_mul_left 9 (Nat.pow_le_pow_left (by omega) 2)) (by omega))
  unfold getArenaSize
  dsimp only
  omega

/-- **The initial pool.** -/
theorem initialise_spec (fb : FreeBlock) {nalloc : Nat} (h4 : 4 ≤ nalloc) (h28 : nalloc < 2 ^ 28) :
    wp (initialise nalloc) (fun _ fb' => fb'.maxsize = log4 nalloc + 1 ∧ fb'.allocated = 0 ∧
      ∃ own : Nat → Owner κ, Inv fb' own ∧ Unheld own) fb := by
  have hlog : log4 nalloc < 14 := by
    unfold log4
    exact Nat.log_lt_of_lt_pow (by omega) (by omega)
  have hlog1 : 1 ≤ log4 nalloc := by
    unfold log4
    exact Nat.log_pos (by omega) h4
  have hsz : getArenaSize nalloc ≤ FBLK_NONE := by
    have hlt := getArenaSize_lt h28 (by omega)
    unfold FBLK_NONE
    omega
  have hlo := mul_sqrt_le (log4 nalloc + 1) (9 * log4 nalloc ^ 2 * nalloc)
  have hhi := sqrt_lt_mul_add (m := log4 nalloc + 1) (by omega) (9 * log4 nalloc ^ 2 * nalloc)
  have hspare : 0 < spareBlks nalloc := by
    unfold spareBlks
    have : 0 < 9 * log4 nalloc ^ 2 * nalloc := Nat.mul_pos (Nat.mul_pos (by omega) (Nat.pow_pos hlog1)) (by omega)
    exact Nat.sqrt_pos.2 this
  unfold getArenaSize at hsz
  dsimp only at hsz
  simp only [initialise, wp_bind, wp_assert, wp_modify]
  refine ⟨by omega, by unfold FB_MAX_LEVELS; omega, ?_⟩
  have hempty : ∀ fb : FreeBlock, fb.avail = 0 → 0 < fb.maxsize →
      FreeLists fb (fun _ => (Owner.outside : Owner κ)) (fun _ => []) 0 0 := by
    intro fb hav hmax
    have hnone : ∀ l, ¬ l < 0 := fun l => Nat.not_lt_zero l
    exact ⟨fun l hl => absurd hl (hnone l), fun l hl => absurd hl (hnone l), by simpa using hav,
      fun l hl => absurd hl (hnone l), fun l hl => absurd hl (hnone l), fun _ hc => absurd rfl hc, hmax,
      by unfold FBLK_NONE; omega⟩
  refine (initLevels_spec (hempty _ rfl (Nat.succ_pos _)) (by simp) (by omega) (by omega)
    fun _ _ h => by cases h).mono ?_
  rintro off fb1 ⟨rfl, hmax, hout, own1, F1, h1, hun1⟩
  simp only at hmax hout h1
  rw [wp_bind]
  refine (initLevel_spec (l := log4 nalloc + 1) (w := log4 nalloc + 1) (n := spareBlks nalloc) h1 (by omega)
    (by unfold width; omega) (by omega) hspare (by unfold spareBlks; omega) hun1).mono ?_
  rintro off' fb2 ⟨rfl, hmax2, hout2, own2, F2, h2, hun2⟩
  simp only [wp_bind, wp_assert, wp_modify]
  refine ⟨?_, hmax2.trans hmax, hout2.trans hout, own2, ⟨F2, ?_⟩, hun2⟩
  · unfold getArenaSize spareBlks
    dsimp only
    omega
  · have hL : fb2.maxsize + 1 = log4 nalloc + 1 + 1 := by omega
    rw [← hL] at h2
    exact { h2 with }

end FreeBlock

end Rdm
