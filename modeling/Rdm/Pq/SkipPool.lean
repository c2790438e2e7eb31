import Rdm.Lib.SkipList
import Rdm.Pq.FreeBlock

/-!
# Skip lists whose nodes hold blocks of the pool

The time queue and the two free lists take the link cells of their nodes from the pool. `pool_insert` and `pool_delete`
do this once, for nodes that hold their cells under the names `tag x`.
-/

namespace Rdm

open ProgLogic ProgLogic.Prog SkipList List
open Function (Injective update update_of_ne update_self)

/-- The nodes that hold blocks: elements of the time queue, and regions in the list by offset and by extent. -/
inductive Holder where
  | time (i : Nat)
  | offset (i : Nat)
  | extent (i : Nat)
deriving DecidableEq, Repr

namespace FreeBlock

variable {κ : Type} {fb fb' : FreeBlock} {own own' : Nat → Owner κ}

theorem Inv.write (h : Inv fb own) {fblks : Nat → Nat} (hc : ∀ c, (∀ k, own c ≠ .held k) → fblks c = fb.fblks c) :
    Inv { fb with fblks := fblks } own := by
  obtain ⟨F, h⟩ := h
  refine ⟨F, { h with chain := fun l hl => Links.chain_congr (h.chain l hl) fun b hb => hc b fun k => ?_ }⟩
  rw [h.owned_head hl hb]
  nofun

def Others (tag : Nat → κ) (k : κ) : Prop := ∀ x, k ≠ tag x

variable {tag : Nat → κ} {ptr : Nat → Nat} {hd tl level z : Nat} {ht : Nat → Nat} {pre suf : List Nat}
  {upd : Nat → Nat} {b : Nat}

def InPool (fb : FreeBlock) (own : Nat → Owner κ) (tag : Nat → κ) (ptr : Nat → Nat) (hd tl level : Nat)
    (xs : List Nat) (ht : Nat → Nat) : Prop :=
  IsSkip fb.fblks own (fun x => .held (tag x)) ptr hd tl (fb.maxsize - 1) level xs ht

theorem held_injective (htag : Injective tag) : Injective fun x => Owner.held (tag x) := by
  intro x y h
  injection h with h
  exact htag h

theorem InPool.frame {xs : List Nat} (h : InPool fb own tag ptr hd tl level xs ht)
    (hk : Keeps (fun k => ∃ x, k = tag x) fb own fb' own') {ptr' : Nat → Nat} (hp : ∀ x ∈ hd :: xs, ptr' x = ptr x) :
    InPool fb' own' tag ptr' hd tl level xs ht := by
  unfold InPool
  rw [hk.1]
  refine IsSkip.frame h hp (fun _ _ => rfl) fun x hx k hkx => ?_
  obtain ⟨h1, h2⟩ := hk.2 _ _ ⟨x, rfl⟩ (h.owned x hx k hkx)
  exact ⟨h2, h1⟩

theorem InPool.got (h : InPool fb own tag ptr hd tl level (pre ++ suf) ht) {b : Nat} (hz : z ∉ hd :: tl :: (pre ++ suf))
    (hmax : fb'.maxsize = fb.maxsize) (hkeep : ∀ c k, own c = .held k → own' c = .held k ∧ fb'.fblks c = fb.fblks c) :
    InPool fb' own' tag (update ptr z b) hd tl level (pre ++ suf) ht := by
  refine h.frame ⟨hmax, fun c k _ hc => hkeep c k hc⟩ fun x hx => update_of_ne ?_ _ _
  rintro rfl
  exact hz (by simp only [mem_cons] at hx ⊢; tauto)

theorem pool_init (tag : Nat → κ) (ptr : Nat → Nat) (hpos : 0 < fb'.maxsize) (hinv : Inv fb' own')
    (hk : Keeps (fun _ => True) fb own fb' own') (hne : hd ≠ tl)
    (hb : ptr hd = b) (hhead : ∀ i < fb'.maxsize, own' (b + i) = .held (tag hd)) {fblks : Nat → Nat}
    (hcells : fblks = fun c => if b ≤ c ∧ c < b + fb'.maxsize then tl else fb'.fblks c) :
    InPool { fb' with fblks := fblks } own' tag ptr hd tl 0 [] (fun _ => fb'.maxsize - 1) ∧
      Inv { fb' with fblks := fblks } own' ∧ Keeps (Others tag) fb own { fb' with fblks := fblks } own' := by
  subst hcells hb
  have hheld : ∀ c, ptr hd ≤ c ∧ c < ptr hd + fb'.maxsize → own' c = .held (tag hd) := by
    rintro c ⟨h1, h2⟩
    rw [← hhead (c - ptr hd) (by omega), Nat.add_sub_cancel' h1]
  refine ⟨?_, hinv.write fun c hc => if_neg fun h => hc _ (hheld c h), hk.1, fun c k hk' hc => ?_⟩
  · constructor
    case chain =>
      intro k hk
      have hk' : k ≤ fb'.maxsize - 1 := hk
      exact if_pos ⟨Nat.le_add_right _ _, by show ptr hd + k < _; omega⟩
    case owned =>
      intro x hx k hk
      obtain rfl : x = hd := by simpa using hx
      exact hhead k (by omega)
    case ht_hd => rfl
    case ht_le => exact fun _ h => by cases h
    case level_le => exact Nat.zero_le _
    case nodup => simp [hne]
  · obtain ⟨h1, h2⟩ := hk.2 c k trivial hc
    refine ⟨h1, (if_neg fun hin => ?_).trans h2⟩
    rw [hheld c hin] at h1
    injection h1 with h1
    exact hk' _ h1.symm

theorem InPool.splice_frame (h : InPool fb own tag (update ptr z b) hd tl level (pre ++ suf) ht) {K : Nat}
    (hK : K < fb.maxsize) (hnew : ∀ k ≤ K, own (b + k) = .held (tag z)) (hupd : ∀ k ≤ K, upd k = lastBefore ht hd pre k)
    {c : Nat} (hc : ∀ x, own c ≠ .held (tag x)) : splice (update ptr z b) z upd K fb.fblks c = fb.fblks c := by
  refine IsSkip.splice_frame h (by omega) ?_ hupd fun x _ => hc x
  rw [update_self]
  exact hnew

/-- **Insertion**: the node `z` with its new block `b` is linked in. -/
theorem pool_insert (htag : Injective tag) (h : InPool fb own tag ptr hd tl level (pre ++ suf) ht)
    {K b : Nat} (hK : K < fb.maxsize) (hz : z ∉ hd :: tl :: (pre ++ suf))
    (hupd : ∀ k ≤ K, upd k = lastBefore ht hd pre k) (hgot : Got (tag z) K fb own b fb') :
    ∃ own', Inv { fb' with fblks := splice (update ptr z b) z upd K fb'.fblks } own' ∧
      InPool { fb' with fblks := splice (update ptr z b) z upd K fb'.fblks } own' tag
        (update ptr z b) hd tl (max level K) (pre ++ z :: suf) (update ht z K) ∧
      Keeps (Others tag) fb own { fb' with fblks := splice (update ptr z b) z upd K fb'.fblks } own' := by
  obtain ⟨-, own', hinv, hnew, hmax, hkeep⟩ := hgot
  have hfr : InPool fb' own' tag (update ptr z b) hd tl level (pre ++ suf) ht := h.got hz hmax hkeep
  have hzown : ∀ k ≤ K, own' (update ptr z b z + k) = .held (tag z) := by
    rw [update_self]
    exact hnew
  have hsp : ∀ c, (∀ x, own' c ≠ .held (tag x)) →
      splice (update ptr z b) z upd K fb'.fblks c = fb'.fblks c :=
    fun c hc => hfr.splice_frame (by omega) hnew hupd hc
  refine ⟨own', hinv.write fun c hc => hsp c fun x => hc (tag x), ?_, hmax, fun c k hk hc => ?_⟩
  · exact IsSkip.insert hfr (held_injective htag) (by omega) hzown hz hupd
  · obtain ⟨h1, h2⟩ := hkeep c k hc
    refine ⟨h1, ?_⟩
    rw [← h2]
    refine hsp c fun x => ?_
    rw [h1]
    intro e
    injection e with e
    exact hk x e

def unlinked (fb : FreeBlock) (ptr : Nat → Nat) (z : Nat) (upd : Nat → Nat) (level : Nat) : FreeBlock × Nat :=
  let (fblks, k) := unsplice ptr z upd (level + 1) 0 fb.fblks
  ({ fb with fblks := fblks }, k)

/-- **Deletion**: the node `z` is linked out, its block is released and the level of the list adjusted. -/
theorem pool_delete (htag : Injective tag) (hinv : Inv fb own)
    (h : InPool fb own tag ptr hd tl level (pre ++ z :: suf) ht)
    (hupd : ∀ k ≤ level, upd k = lastBefore ht hd pre k) :
    wp (release (fb.unlinked ptr z upd level).2 (ptr z)) (fun _ fb' => ∃ own', Inv fb' own' ∧
      InPool fb' own' tag ptr hd tl (trim (fun k => fb'.fblks (ptr hd + k)) tl level) (pre ++ suf) ht ∧
      Keeps (Others tag) fb own fb' own') (fb.unlinked ptr z upd level).1 := by
  obtain ⟨hcount, hskip, hother⟩ := IsSkip.remove h (held_injective htag) hupd
  have hzm : z ∈ hd :: (pre ++ z :: suf) := by simp
  have hlev := h.level_le
  have hzl := h.ht_le z (by simp)
  obtain ⟨F, hF⟩ := hinv
  have hpos := hF.pos
  have hinv1 : Inv (fb.unlinked ptr z upd level).1 own :=
    Inv.write ⟨F, hF⟩ fun c hc => hother c fun x _ => hc (tag x)
  have hcount' : (fb.unlinked ptr z upd level).2 = ht z + 1 := hcount
  have hmax : (fb.unlinked ptr z upd level).1.maxsize = fb.maxsize := rfl
  rw [hcount']
  refine (release_spec hinv1 (Nat.succ_pos _) (by omega) fun i hi => h.owned z hzm i (by omega)).mono ?_
  rintro - fb' ⟨own', hinv', hmax', hkeep⟩
  -- the cells of the other nodes are not in the block that was released
  have hapart : ∀ x ∈ hd :: (pre ++ suf), ∀ k ≤ ht x, ¬(ptr z ≤ ptr x + k ∧ ptr x + k < ptr z + (ht z + 1)) := by
    rintro x hx k hk ⟨h1, h2⟩
    have hx' : x ∈ hd :: (pre ++ z :: suf) := by
      simp only [mem_cons, mem_append] at hx ⊢; tauto
    have hxz := h.cell_inj (held_injective htag) (i := k) (j := ptr x + k - ptr z) hx' hzm hk (by omega) (by omega)
    obtain ⟨rfl, -⟩ := hxz
    have hnd := h.nodup
    simp only [nodup_cons, mem_cons, mem_append, nodup_append] at hnd hx
    grind
  have hskip' : InPool fb' own' tag ptr hd tl level (pre ++ suf) ht := by
    unfold InPool
    rw [hmax', hmax]
    refine hskip.frame (fun _ _ => rfl) (fun _ _ => rfl) fun x hx k hk => ?_
    obtain ⟨h1, h2⟩ := hkeep _ _ (hskip.owned x hx k hk) (hapart x hx k hk)
    exact ⟨h2, h1⟩
  refine ⟨own', hinv', hskip'.trim (fun k _ => rfl) level (Nat.le_refl _) hskip'.ht_le, hmax', ?_⟩
  intro c k hk hc
  have hout : ¬(ptr z ≤ c ∧ c < ptr z + (ht z + 1)) := by
    rintro ⟨h1, h2⟩
    have hz := h.owned z hzm (c - ptr z) (by omega)
    rw [show ptr z + (c - ptr z) = c by omega, hc] at hz
    injection hz with e
    exact hk z e
  obtain ⟨h1, h2⟩ := hkeep c k hc hout
  refine ⟨h1, h2.trans (hother c fun x _ => ?_)⟩
  rw [hc]
  intro e
  injection e with e
  exact hk x e

end FreeBlock

end Rdm
