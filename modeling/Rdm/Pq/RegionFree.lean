import Rdm.Pq.RegionAlloc

/-!
# Freeing regions

Joining a freed region with both neighbours is enough (`consolidate_spec`).
-/

namespace Rdm

open ProgLogic ProgLogic.Prog SkipList FreeBlock Links Tiling List
open Function (update update_of_ne update_self)
open FreeOrder (before before_offset hd setLevel tail)

namespace RegionList

variable {s s' : RlFb} {own own' : Nat → Owner Holder} {rl rl' : RegionList} {D : DataSection}
  {tl xs ys hand em : List Nat} {C : Nat → List Nat} {x z : Nat}

/-! ## Joining two regions -/

structure Joined (rl rl' : RegionList) (x z : Nat) : Prop extends SameTable rl rl' where
  nelems : rl'.nelems = rl.nelems
  nbytes : rl'.nbytes = rl.nbytes
  maxfextent : rl'.maxfextent = rl.maxfextent
  empty : rl'.empty = z
  nempty : rl'.nempty = rl.nempty + 1
  nfree : rl'.nfree = sizeSub rl.nfree 1
  low : (rl'.rp x).offset = (rl.rp x).offset ∧ (rl'.rp x).extent = (rl.rp x).getExtent + (rl.rp z).getExtent
  next : (rl'.rp z).next = rl.empty
  other : ∀ y, y ≠ x → y ≠ z → rl'.rp y = rl.rp y

theorem FreeInv.resize {L : FreeOrder → List Nat} (h : FreeInv s own L)
    (hx : x ∉ hd .extent :: tail .extent :: L .extent) (e : Nat) :
    FreeInv { s with rl := setRegion s.rl x { s.rl.rp x with extent := e } } own L := by
  refine h.frame (fun o => level_setRegion o _ _ _) (fun o => head_setRegion o _ _ _) rfl fun o y hy => ?_
  rw [setRegion_rp]
  cases o with
  | offset =>
    by_cases hyx : y = x
    · rw [hyx, update_self]
      exact ⟨rfl, nofun, rfl⟩
    · rw [update_of_ne hyx]
      exact ⟨rfl, .refl _ _⟩
  | extent =>
    have hyx : y ≠ x := fun e => hx (e ▸ hy)
    rw [update_of_ne hyx]
    exact ⟨rfl, .refl _ _⟩

/-- **Joining** two neighbouring free regions. -/
theorem mergeRight_spec (h : FreeInv s own fun _ => xs) (hs : Shape s.rl D tl xs hand em C) (hx : x ∈ xs) (hz : z ∈ xs)
    (hadj : (s.rl.rp x).offset + (s.rl.rp x).getExtent = (s.rl.rp z).offset) :
    wp (mergeRight x z) (fun _ s' => ∃ own', FreeInv s' own' (fun _ => xs.erase z) ∧
      Keeps IsTime s.fb own s'.fb own' ∧ Joined s.rl s'.rl x z) s := by
  have hxb := hs.bounds (hs.free_mem hx)
  have hzb := hs.bounds (hs.free_mem hz)
  have hxz : x ≠ z := by
    intro e
    rw [e] at hadj
    omega
  have hxe : (s.rl.rp x).extent = (s.rl.rp x).getExtent :=
    (getExtent_of_even (hs.even x (mem_append_left _ hx))).symm
  have hslot := hs.mem_slots (mem_append_left em (hs.free_mem hz))
  have hnd : xs.Nodup := (nodup_append.1 hs.part_nodup).1
  simp only [mergeRight]
  refine (h.delete .extent hx).bind ?_
  rintro _ s1 ⟨own1, k, h₁, hk1, hrl1⟩
  have hrp1 : s1.rl.rp = s.rl.rp := by rw [hrl1]; rfl
  have hsum : sizeAdd (s1.rl.rp x).extent (s1.rl.rp z).getExtent = (s.rl.rp x).getExtent + (s.rl.rp z).getExtent := by
    rw [hrp1, hxe, sizeAdd_of_lt]
    simp only [hugeOff] at hzb
    omega
  have hnx : ∀ (o : FreeOrder), x ≠ o.hd ∧ x ≠ o.tail := hs.not_sentinel (mem_append_left em (hs.free_mem hx))
  have herase : x ∉ xs.erase x := fun hm => (List.Nodup.mem_erase_iff hnd).1 hm |>.1 rfl
  rw [wp_bind, modRl, wp_modify, hsum]
  have hnot : x ∉ hd .extent :: tail .extent ::
      update (fun _ => xs) FreeOrder.extent (xs.erase x) .extent := by
    simp [(hnx .extent).1, (hnx .extent).2, herase]
  have h₂ := h₁.resize hnot ((s.rl.rp x).getExtent + (s.rl.rp z).getExtent)
  have hgrown : (Region.mk (s.rl.rp x).offset ((s.rl.rp x).getExtent + (s.rl.rp z).getExtent) (s.rl.rp x).next
      (s.rl.rp x).prev).getExtent = (s.rl.rp x).getExtent + (s.rl.rp z).getExtent := by
    simp only [Region.getExtent]
    omega
  refine (h₂.add .extent ⟨hnot, ?_, ?_, ?_⟩).bind ?_
  · have h1 := hs.length
    have h2 := hs.part.length_eq
    have h3 := length_pos_of_mem hx
    rw [update_self, length_erase_of_mem hx, setRegion_nalloc, hrl1]
    simp only [length_append, FreeOrder.setLevel_nalloc] at h2 ⊢
    omega
  · intro y hy
    rw [update_self] at hy
    have hyx : y ≠ x := fun e => herase (e ▸ hy)
    simp only [setRegion_rp, update_self, update_of_ne hyx, hrp1]
    exact fun e => hyx (hs.tiles.off_inj (hs.free_mem (mem_of_mem_erase hy)) (hs.free_mem hx) e)
  · simp only [setRegion_rp, update_self, update_of_ne (hnx .extent).2.symm, hrp1]
    refine hs.sentinels.before_tail .extent hxb.1 ?_
    rw [hgrown]
    show (s.rl.rp x).offset + _ < _
    omega
  · rintro r s3 ⟨hr, own3, k3, b, h₃, hk3, hrl3⟩
    have h4 : FreeInv s3 own3 fun _ => xs := by
      refine h₃.perm fun o => ?_
      cases o with
      | offset => simp
      | extent => simpa using (perm_cons_erase hx).symm
    rw [wp_bind, modRl, wp_modify]
    refine FreeInv.deleteBoth h4.recount hz ?_
    rintro s5 own5 h5 hk5 ⟨k5, k5', hrl5⟩
    have hrp : s5.rl.rp = update s.rl.rp x
        ⟨(s.rl.rp x).offset, (s.rl.rp x).getExtent + (s.rl.rp z).getExtent, (s.rl.rp x).next, b⟩ := by
      rw [hrl5, hrl3]
      simp [hrp1, FreeOrder.setPtr]
    have hzn : ∀ o : FreeOrder, ∀ y ∈ o.hd :: o.tail :: xs.erase z, y ≠ z := by
      intro o y hy e
      have hns := hs.not_sentinel (mem_append_left em (hs.free_mem hz)) o
      rw [e] at hy
      simp only [mem_cons, hns.1, hns.2, hnd.mem_erase_iff, ne_eq, not_true_eq_false, false_and, or_self] at hy
    simp only [releaseEmptyRegion, modRl, wp_bind, wp_read, wp_assert, wp_modify]
    refine ⟨?_, own5, ?_, (hk1.trans hk3).trans hk5, ?_⟩
    · have hn : s5.rl.nalloc = s.rl.nalloc := by simp [hrl5, hrl3, hrl1, setLevel]
      rw [hn]
      simp only [RL_EMPTY_HD, RL_FREE_OVERHEAD] at hslot ⊢
      omega
    · refine h5.frame ?_ ?_ rfl fun o y hy => ?_
      · intro o
        cases o <;> rfl
      · intro o
        cases o <;> rfl
      · rw [setRegion_rp, update_of_ne (hzn o y hy)]
        exact ⟨rfl, .refl _ _⟩
    · constructor
      case toSameTable => constructor <;> simp [hrl5, hrl3, hrl1, setLevel, setRegion]
      case low => simp [hxz, hrp]
      case next =>
        simp [hrl5, hrl3, hrl1, setLevel, setRegion]
      case other =>
        intro y hyx hyz
        simp [hyx, hyz, hrp]
      all_goals simp [hrl5, hrl3, hrl1, setLevel, setRegion]

/-! ## A freed region and its neighbours -/

structure Loose (s : RlFb) (own : Nat → Owner Holder) (D : DataSection) (x : Nat) (ys em : List Nat)
    (C : Nat → List Nat) : Prop where
  inv : RlInv s own D (x :: ys) [] em C
  adj : NoAdj s.rl ys
  bound : ∀ y ∈ ys, (s.rl.rp y).getExtent ≤ s.rl.maxfextent
  reached : s.rl.maxfextent ≤ (s.rl.rp x).getExtent ∨ ∃ y ∈ ys, (s.rl.rp y).getExtent = s.rl.maxfextent

def NoRight (rl : RegionList) (x : Nat) (ys : List Nat) : Prop :=
  ∀ y ∈ ys, (rl.rp x).offset + (rl.rp x).getExtent ≠ (rl.rp y).offset

def NoLeft (rl : RegionList) (x : Nat) (ys : List Nat) : Prop :=
  ∀ y ∈ ys, (rl.rp y).offset + (rl.rp y).getExtent ≠ (rl.rp x).offset

theorem Joined.low_extent (hj : Joined rl rl' x z) :
    (rl'.rp x).getExtent = (rl.rp x).getExtent + (rl.rp z).getExtent := by
  rw [Region.getExtent, hj.low.2, Region.getExtent, Region.getExtent]
  omega

theorem RlInv.perm (h : RlInv s own D xs hand em C) (hp : xs.Perm ys) : RlInv s own D ys hand em C := by
  obtain ⟨tl, hs⟩ := h.shape
  exact ⟨h.free.perm fun _ => hp, ⟨tl, hs.repart (hp.symm.append_right _)⟩, by rw [h.nfree, hp.length_eq], h.nempty,
    h.nelems⟩

theorem Joined.inv (hj : Joined s.rl s'.rl x z) (h : RlInv s own D xs hand em C)
    (hfree : FreeInv s' own' fun _ => xs.erase z) (hx : x ∈ xs) (hz : z ∈ xs)
    (hadj : (s.rl.rp x).offset + (s.rl.rp x).getExtent = (s.rl.rp z).offset) :
    RlInv s' own' D (xs.erase z) hand (z :: em) C := by
  obtain ⟨tl, hs⟩ := h.shape
  have hlen := length_pos_of_mem hz
  have hnf := h.nfree
  constructor
  case free => exact hfree
  case shape =>
    refine hs.join hx hz hadj hj.toSameTable hj.empty hj.next hj.other hj.low.1 ?_ hj.low_extent
    rw [isAlloc_eq_false, hj.low.2, Region.getExtent, Region.getExtent]
    omega
  case nfree =>
    rw [hj.nfree, sizeSub_of_le (by omega), length_erase_of_mem hz, hnf]
  case nempty =>
    rw [hj.nempty, h.nempty]
    rfl
  case nelems => rw [hj.nelems, h.nelems, allocs_congr hj.nchains]

theorem Joined.kept (hj : Joined rl rl' x z) (hs : Shape rl D tl xs hand em C) (hx : x ∈ xs) (hz : z ∈ xs) :
    Kept rl rl' C where
  nalloc := hj.nalloc
  nchains := hj.nchains
  nbytes := hj.nbytes
  rp y hy := hj.other y (hs.alloc_ne (mem_append_left _ hx) hy) (hs.alloc_ne (mem_append_left _ hz) hy)

theorem Loose.nodup (h : Loose s own D x ys em C) : (x :: ys).Nodup := by
  obtain ⟨tl, hs⟩ := h.inv.shape
  exact (nodup_append.1 hs.part_nodup).1

theorem Loose.joined (h : Loose s own D x ys em C) {w : Nat} {em' : List Nat}
    (hinv : RlInv s' own' D (w :: ys.erase z) [] em' C) (hmax : s'.rl.maxfextent = s.rl.maxfextent)
    (hmem : ∀ y ∈ ys.erase z, y ∈ ys ∧ s'.rl.rp y = s.rl.rp y)
    (hext : (s'.rl.rp w).getExtent = (s.rl.rp x).getExtent + (s.rl.rp z).getExtent) :
    Loose s' own' D w (ys.erase z) em' C := by
  refine ⟨hinv, fun a ha b hb => ?_, fun y hy => ?_, ?_⟩
  · rw [(hmem a ha).2, (hmem b hb).2]
    exact h.adj a (hmem a ha).1 b (hmem b hb).1
  · rw [(hmem y hy).2, hmax]
    exact h.bound y (hmem y hy).1
  · rw [hext, hmax]
    rcases h.reached with hle | ⟨y, hy, hye⟩
    · left
      omega
    · by_cases hyz : y = z
      · left
        rw [hyz] at hye
        omega
      · have hy' := (mem_erase_of_ne hyz).2 hy
        exact .inr ⟨y, hy', by rw [(hmem y hy').2, hye]⟩

theorem Loose.joinRight (h : Loose s own D x ys em C) (hz : z ∈ ys)
    (hadj : (s.rl.rp x).offset + (s.rl.rp x).getExtent = (s.rl.rp z).offset) (hj : Joined s.rl s'.rl x z)
    (hfree : FreeInv s' own' fun _ => (x :: ys).erase z) :
    Loose s' own' D x (ys.erase z) (z :: em) C ∧ NoRight s'.rl x (ys.erase z) := by
  obtain ⟨hxy, hnd⟩ := nodup_cons.1 h.nodup
  have hxz : x ≠ z := fun e => hxy (e ▸ hz)
  have herase : (x :: ys).erase z = x :: ys.erase z := erase_cons_tail (by simpa using hxz)
  have hinv := hj.inv h.inv hfree mem_cons_self (mem_cons_of_mem _ hz) hadj
  rw [herase] at hinv
  have hmem : ∀ y ∈ ys.erase z, y ∈ ys ∧ s'.rl.rp y = s.rl.rp y := by
    intro y hy
    obtain ⟨hyz, hy⟩ := hnd.mem_erase_iff.1 hy
    exact ⟨hy, hj.other y (fun e => hxy (e ▸ hy)) hyz⟩
  refine ⟨h.joined hinv hj.maxfextent hmem hj.low_extent, fun y hy => ?_⟩
  rw [(hmem y hy).2, hj.low_extent, hj.low.1]
  have := h.adj z hz y (hmem y hy).1
  omega

theorem Loose.joinLeft (h : Loose s own D x ys em C) (hz : z ∈ ys)
    (hadj : (s.rl.rp z).offset + (s.rl.rp z).getExtent = (s.rl.rp x).offset) (hj : Joined s.rl s'.rl z x)
    (hfree : FreeInv s' own' fun _ => (x :: ys).erase x) (hr : NoRight s.rl x ys) :
    Loose s' own' D z (ys.erase z) (x :: em) C ∧ NoRight s'.rl z (ys.erase z) ∧ NoLeft s'.rl z (ys.erase z) := by
  obtain ⟨hxy, hnd⟩ := nodup_cons.1 h.nodup
  have hinv := hj.inv h.inv hfree (mem_cons_of_mem _ hz) mem_cons_self hadj
  rw [erase_cons_head] at hinv
  have hmem : ∀ y ∈ ys.erase z, y ∈ ys ∧ s'.rl.rp y = s.rl.rp y := by
    intro y hy
    obtain ⟨hyz, hy⟩ := hnd.mem_erase_iff.1 hy
    exact ⟨hy, hj.other y hyz (fun e => hxy (e ▸ hy))⟩
  have hext := hj.low_extent
  refine ⟨h.joined (hinv.perm (perm_cons_erase hz)) hj.maxfextent hmem (by omega), fun y hy => ?_, fun y hy => ?_⟩
  · rw [(hmem y hy).2, hext, hj.low.1]
    have := hr y (hmem y hy).1
    omega
  · rw [(hmem y hy).2, hj.low.1]
    exact h.adj y (hmem y hy).1 z hz

def IsNext (rl : RegionList) (x : Nat) (xs : List Nat) (r : Nat) : Prop :=
  r = RL_FOFF_TL ∧ (∀ y ∈ xs, (rl.rp y).offset ≤ (rl.rp x).offset) ∨
    r ∈ xs ∧ (rl.rp x).offset < (rl.rp r).offset ∧
      ∀ y ∈ xs, (rl.rp x).offset < (rl.rp y).offset → (rl.rp r).offset ≤ (rl.rp y).offset

def IsPrev (rl : RegionList) (x : Nat) (xs : List Nat) (l : Nat) : Prop :=
  l = RL_FOFF_HD ∧ (∀ y ∈ xs, (rl.rp x).offset ≤ (rl.rp y).offset) ∨
    l ∈ xs ∧ (rl.rp l).offset < (rl.rp x).offset ∧
      ∀ y ∈ xs, (rl.rp y).offset < (rl.rp x).offset → (rl.rp y).offset ≤ (rl.rp l).offset

theorem getNextOffset_spec (h : FreeInv s own fun _ => xs) (hx : x ∈ xs) (hfree : (s.rl.rp x).isAlloc = false) :
    wp (getNextOffset x) (fun r s' => s' = s ∧ IsNext s.rl x xs r) s := by
  obtain ⟨zs, ht, hl, hp⟩ := h.list .offset
  obtain ⟨pre, suf, rfl⟩ := append_of_mem (hp.mem_iff.2 hx)
  have hc := hl.skip.chain 0 (Nat.zero_le _)
  rw [onLevel_zero] at hc
  have hnext := chain_at (f := fun y => s.fb.fblks (FreeOrder.ptr .offset (s.rl.rp y) + 0)) hc
  have hsorted := hl.sorted
  simp only [before_offset, pairwise_append, pairwise_cons] at hsorted
  obtain ⟨-, ⟨hsuf, hsuf'⟩, hpre⟩ := hsorted
  have hle : ∀ y ∈ xs, (s.rl.rp x).offset < (s.rl.rp y).offset → y ∈ suf := by
    intro y hy hlt
    rcases mem_append.1 (hp.mem_iff.2 hy) with hm | hm
    · have := hpre y hm x mem_cons_self
      omega
    · rcases mem_cons.1 hm with rfl | hm
      · omega
      · exact hm
  simp only [getNextOffset, wp_bind, wp_read, wp_assert, wp_pure]
  rw [show s.fb.fblks (s.rl.rp x).next = suf.headD RL_FOFF_TL from hnext]
  refine ⟨by rw [Region.isFree, hfree]; rfl, trivial, ?_⟩
  cases hcs : suf with
  | nil =>
    left
    refine ⟨rfl, fun y hy => ?_⟩
    by_contra hlt
    have := hle y hy (by omega)
    rw [hcs] at this
    cases this
  | cons r rs =>
    right
    rw [hcs] at hsuf hsuf' hle
    refine ⟨hp.mem_iff.1 (by simp [hcs]), hsuf r mem_cons_self, fun y hy hlt => ?_⟩
    rcases mem_cons.1 (hle y hy hlt) with rfl | hm
    · exact Int.le_refl _
    · exact Int.le_of_lt ((pairwise_cons.1 hsuf').1 y hm)

theorem getPrevOffset_spec (h : FreeInv s own fun _ => xs) (hx : x ∈ xs) :
    wp (getPrevOffset x) (fun r s' => s' = s ∧ IsPrev s.rl x xs r) s := by
  obtain ⟨zs, ht, hl, hp⟩ := h.list .offset
  have hlt := hl.lt_tail x (hp.mem_iff.2 hx)
  rw [before_offset] at hlt
  have htl : before .offset 0 (s.rl.rp x).offset (s.rl.rp (tail .offset)) = false := by
    simp only [before, decide_eq_false_iff_not]
    omega
  obtain ⟨upd, hsearch, hupd⟩ := search_spec hl htl
  have h0 := hupd 0 (Nat.zero_le _)
  rw [lastBefore, onLevel_zero] at h0
  have hmem : ∀ y, y ∈ lower .offset s.rl 0 (s.rl.rp x).offset zs ↔ y ∈ xs ∧
    (s.rl.rp y).offset < (s.rl.rp x).offset := by
    intro y
    simp [lower, before, hp.mem_iff]
  have hsorted : (lower .offset s.rl 0 (s.rl.rp x).offset zs).Pairwise fun a b =>
      FreeOrder.Before .offset (s.rl.rp a) (s.rl.rp b) := hl.sorted.filter _
  simp only [getPrevOffset, searchOffset, wp_bind, wp_read, hsearch, wp_ofOption_some, wp_pure, h0]
  refine ⟨trivial, ?_⟩
  rcases eq_nil_or_concat' (lower .offset s.rl 0 (s.rl.rp x).offset zs) with hn | ⟨ys, r, hr⟩
  · left
    rw [hn]
    refine ⟨rfl, fun y hy => ?_⟩
    by_contra hlt
    have := (hmem y).2 ⟨hy, by omega⟩
    rw [hn] at this
    cases this
  · right
    rw [hr] at hmem hsorted
    rw [hr, getLastD_append]
    have hrm := (hmem r).1 (by simp)
    refine ⟨hrm.1, hrm.2, fun y hy hlt => ?_⟩
    rcases mem_append.1 ((hmem y).2 ⟨hy, hlt⟩) with hm | hm
    · have hb := (pairwise_append.1 hsorted).2.2 y hm r mem_cons_self
      rw [before_offset] at hb
      exact Int.le_of_lt hb
    · rw [mem_singleton.1 hm]
      exact Int.le_refl _

/-! ## Consolidating -/

theorem Loose.noRight (h : Loose s own D x ys em C) {r : Nat} (hr : IsNext s.rl x (x :: ys) r)
    (hno : ¬(r ≠ RL_FOFF_TL ∧ (s.rl.rp x).offset + (s.rl.rp x).getExtent = (s.rl.rp r).offset)) :
    NoRight s.rl x ys := by
  obtain ⟨tl, hs⟩ := h.inv.shape
  have hxt := hs.free_mem (x := x) mem_cons_self
  have hx := hs.bounds hxt
  intro y hy e
  have hyt := hs.free_mem (mem_cons_of_mem x hy)
  rcases hr with ⟨-, hle⟩ | ⟨hrm, hlt, hleast⟩
  · have := hle y (mem_cons_of_mem _ hy)
    omega
  · have hry := hleast y (mem_cons_of_mem _ hy) (by omega)
    have hxr : x ≠ r := by
      intro e
      rw [e] at hlt
      omega
    have hap := hs.tiles.apart hxt (hs.free_mem hrm) hxr
    have hrb := hs.bounds (hs.free_mem hrm)
    have hslot := hs.mem_slots (mem_append_left em (hs.free_mem hrm))
    refine hno ⟨?_, by omega⟩
    simp only [RL_EMPTY_HD, RL_FREE_OVERHEAD, RL_FOFF_TL] at hslot ⊢
    omega

theorem Loose.noLeft (h : Loose s own D x ys em C) {l : Nat} (hl : IsPrev s.rl x (x :: ys) l)
    (hno : ¬(l ≠ RL_FOFF_HD ∧ (s.rl.rp l).offset + (s.rl.rp l).getExtent = (s.rl.rp x).offset)) :
    NoLeft s.rl x ys := by
  obtain ⟨tl, hs⟩ := h.inv.shape
  intro y hy e
  have hyt := hs.free_mem (mem_cons_of_mem x hy)
  have hyb := hs.bounds hyt
  rcases hl with ⟨-, hle⟩ | ⟨hlm, hlt, hgreatest⟩
  · have := hle y (mem_cons_of_mem _ hy)
    omega
  · have hyl := hgreatest y (mem_cons_of_mem _ hy) (by omega)
    have hlb := hs.bounds (hs.free_mem hlm)
    have hslot := hs.mem_slots (mem_append_left em (hs.free_mem hlm))
    have hl0 : l ≠ RL_FOFF_HD := by
      simp only [RL_EMPTY_HD, RL_FREE_OVERHEAD, RL_FOFF_HD] at hslot ⊢
      omega
    by_cases hye : y = l
    · rw [hye] at e
      exact hno ⟨hl0, e⟩
    · have hap := hs.tiles.apart hyt (hs.free_mem hlm) hye
      omega

theorem Loose.settle (h : Loose s own D x ys em C) (hr : NoRight s.rl x ys) (hl : NoLeft s.rl x ys) {m : Nat}
    (hm : m = max s.rl.maxfextent (s.rl.rp x).getExtent) :
    RlInv { s with rl := { s.rl with maxfextent := m } } own D (x :: ys) [] em C ∧ IsMax s.rl (x :: ys) m ∧
      NoAdj s.rl (x :: ys) := by
  obtain ⟨tl, hs⟩ := h.inv.shape
  have hx := hs.bounds (hs.free_mem (x := x) mem_cons_self)
  refine ⟨h.inv.records m _ _ _, ⟨fun y hy => ?_, ?_⟩, ?_⟩
  · rcases mem_cons.1 hy with rfl | hy
    · omega
    · have := h.bound y hy
      omega
  · right
    rcases Nat.le_total s.rl.maxfextent (s.rl.rp x).getExtent with hle | hle
    · exact ⟨x, mem_cons_self, by omega⟩
    · rcases h.reached with hge | ⟨y, hy, hye⟩
      · exact ⟨x, mem_cons_self, by omega⟩
      · exact ⟨y, mem_cons_of_mem _ hy, by omega⟩
  · intro a ha b hb e
    rcases mem_cons.1 ha with hax | ha'
    · rcases mem_cons.1 hb with hbx | hb'
      · rw [hax, hbx] at e
        omega
      · rw [hax] at e
        exact hr b hb' e
    · rcases mem_cons.1 hb with hbx | hb'
      · rw [hbx] at e
        exact hl a ha' e
      · exact h.adj a ha' b hb' e

theorem IsPrev.joined {l : Nat} (h : IsPrev rl x (x :: ys) l) (hz : (rl.rp x).offset < (rl.rp z).offset)
    (hj : Joined rl rl' x z) (hnd : (x :: ys).Nodup) : IsPrev rl' x (x :: ys.erase z) l := by
  have hoff : ∀ y ∈ x :: ys.erase z, y ∈ x :: ys ∧ (rl'.rp y).offset = (rl.rp y).offset := by
    intro y hy
    rcases mem_cons.1 hy with rfl | hy
    · exact ⟨mem_cons_self, hj.low.1⟩
    · obtain ⟨hyz, hy⟩ := (nodup_cons.1 hnd).2.mem_erase_iff.1 hy
      refine ⟨mem_cons_of_mem _ hy, ?_⟩
      rw [hj.other y (fun e => (nodup_cons.1 hnd).1 (e ▸ hy)) hyz]
  rcases h with ⟨hl, hle⟩ | ⟨hl, hlt, hle⟩
  · refine .inl ⟨hl, fun y hy => ?_⟩
    rw [hj.low.1, (hoff y hy).2]
    exact hle y (hoff y hy).1
  · have hl' : l ∈ x :: ys.erase z := by
      rcases mem_cons.1 hl with rfl | hl
      · exact mem_cons_self
      · have hlz : l ≠ z := by
          intro e
          rw [e] at hlt
          omega
        exact mem_cons_of_mem _ ((mem_erase_of_ne hlz).2 hl)
    refine .inr ⟨hl', ?_, fun y hy => ?_⟩
    · rw [hj.low.1, (hoff l hl').2]
      exact hlt
    · rw [hj.low.1, (hoff y hy).2, (hoff l hl').2]
      exact hle y (hoff y hy).1

theorem consolidateRight_spec (h : Loose s own D x ys em C) {r l : Nat} (hr : IsNext s.rl x (x :: ys) r)
    (hl : IsPrev s.rl x (x :: ys) l) :
    wp (consolidateRight x r) (fun _ s' => ∃ own' ys' em', Loose s' own' D x ys' em' C ∧ NoRight s'.rl x ys' ∧
      IsPrev s'.rl x (x :: ys') l ∧ Kept s.rl s'.rl C ∧ Keeps IsTime s.fb own s'.fb own' ∧
      em <:+ em') s := by
  simp only [consolidateRight, wp_bind, wp_read]
  split
  case isTrue hadj =>
    obtain ⟨htl, hadj⟩ := hadj
    obtain ⟨tl, hs⟩ := h.inv.shape
    obtain ⟨hrm, hlt, -⟩ := hr.resolve_left fun e => htl e.1
    have hrx : r ≠ x := by
      intro e
      rw [e] at hlt
      omega
    have hry : r ∈ ys := (mem_cons.1 hrm).resolve_left hrx
    refine (mergeRight_spec h.inv.free hs mem_cons_self hrm hadj).mono ?_
    rintro _ s' ⟨own', hfree, hkeep, hj⟩
    obtain ⟨h', hright⟩ := h.joinRight hry hadj hj hfree
    exact ⟨own', ys.erase r, r :: em, h', hright, hl.joined hlt hj h.nodup, hj.kept hs mem_cons_self hrm, hkeep,
      suffix_cons _ _⟩
  case isFalse hno =>
    rw [wp_pure]
    exact ⟨own, ys, em, h, h.noRight hr hno, hl, .refl _ _, .refl _ _ _, suffix_rfl⟩

theorem consolidateLeft_spec (h : Loose s own D x ys em C) (hr : NoRight s.rl x ys) {l : Nat}
    (hl : IsPrev s.rl x (x :: ys) l) :
    wp (consolidateLeft l x) (fun rep s' => ∃ own' ys' em', Loose s' own' D rep ys' em' C ∧ NoRight s'.rl rep ys' ∧
      NoLeft s'.rl rep ys' ∧ Kept s.rl s'.rl C ∧ Keeps IsTime s.fb own s'.fb own' ∧ em <:+ em') s := by
  simp only [consolidateLeft, wp_bind, wp_read]
  split
  case isTrue hadj =>
    obtain ⟨hhd, hadj⟩ := hadj
    obtain ⟨tl, hs⟩ := h.inv.shape
    obtain ⟨hlm, hlt, -⟩ := hl.resolve_left fun e => hhd e.1
    have hlx : l ≠ x := by
      intro e
      rw [e] at hlt
      omega
    have hly : l ∈ ys := (mem_cons.1 hlm).resolve_left hlx
    refine (mergeRight_spec h.inv.free hs hlm mem_cons_self hadj).bind ?_
    rintro _ s' ⟨own', hfree, hkeep, hj⟩
    obtain ⟨h', hright, hleft⟩ := h.joinLeft hly hadj hj hfree hr
    rw [wp_pure]
    exact ⟨own', ys.erase l, x :: em, h', hright, hleft, hj.kept hs hlm mem_cons_self, hkeep, suffix_cons _ _⟩
  case isFalse hno =>
    rw [wp_pure]
    exact ⟨own, ys, em, h, hr, h.noLeft hl hno, .refl _ _, .refl _ _ _, suffix_rfl⟩

/-- **Consolidating** a freed region. -/
theorem consolidate_spec (h : Loose s own D x ys em C) :
    wp (consolidate x) (fun _ s' => ∃ own' xs' em', RlInv s' own' D xs' [] em' C ∧
      IsMax s'.rl xs' s'.rl.maxfextent ∧ NoAdj s'.rl xs' ∧ Kept s.rl s'.rl C ∧ Keeps IsTime s.fb own s'.fb own' ∧
      em <:+ em') s := by
  obtain ⟨tl, hs⟩ := h.inv.shape
  refine (getNextOffset_spec h.inv.free mem_cons_self (hs.even x (by simp))).bind ?_
  rintro r s1 ⟨hs1, hr⟩
  obtain rfl := hs1.symm
  refine (getPrevOffset_spec h.inv.free mem_cons_self).bind ?_
  rintro l s2 ⟨hs2, hl⟩
  obtain rfl := hs2.symm
  refine (consolidateRight_spec h hr hl).bind ?_
  rintro _ s3 ⟨own3, ys3, em3, h3, hr3, hl3, hkept3, hkeep3, hem3⟩
  refine (consolidateLeft_spec h3 hr3 hl3).bind ?_
  rintro rep s4 ⟨own4, ys4, em4, h4, hr4, hl4, hkept4, hkeep4, hem4⟩
  have hm : (if s4.rl.maxfextent < (s4.rl.rp rep).getExtent then (s4.rl.rp rep).getExtent else s4.rl.maxfextent) =
      max s4.rl.maxfextent (s4.rl.rp rep).getExtent := by
    split <;> omega
  obtain ⟨hinv, hmax, hadj⟩ := h4.settle hr4 hl4 hm
  rw [modRl, wp_modify]
  have hkept := hkept3.trans hkept4
  exact ⟨own4, rep :: ys4, em4, hinv, hmax, hadj, ⟨hkept.nalloc, hkept.nchains, hkept.nbytes, hkept.rp⟩,
    hkeep3.trans hkeep4, hem3.trans hem4⟩

/-! ## Freeing -/

theorem putBack_spec (h : RlInv s own D xs [x] em C) (hmax : IsMax s.rl xs s.rl.maxfextent) (hadj : NoAdj s.rl xs) :
    wp (putBack x) (fun _ s' => ∃ own' xs' em', RlInv s' own' D xs' [] em' C ∧
      IsMax s'.rl xs' s'.rl.maxfextent ∧ NoAdj s'.rl xs' ∧ Kept s.rl s'.rl C ∧ Keeps IsTime s.fb own s'.fb own' ∧
      em <:+ em') s := by
  obtain ⟨tl, hs⟩ := h.shape
  have hxt := hs.hand_mem (x := x) (by simp)
  have hxb := hs.bounds hxt
  have hxxs : x ∉ xs := fun hm => (nodup_append.1 hs.part_nodup).2.2 x hm x (by simp) rfl
  have hnel := h.nelems
  have hlen : xs.length < s.rl.nalloc := by
    have h1 := hs.length
    have h2 := hs.part.length_eq
    simp only [length_append, length_cons, length_nil] at h1 h2
    omega
  simp only [putBack, modRl]
  rw [wp_bind, wp_modify]
  have hf : FreeInv { s with rl := { s.rl with nelems := sizeSub s.rl.nelems 1 } } own fun _ => xs := h.free.recount
  refine (releaseRegion_spec hf fun o => ⟨fun hm => ?_, hlen, fun y hy e => ?_,
    hs.sentinels.before_tail o hxb.1 hxb.2.2⟩).bind ?_
  · have hns := hs.not_sentinel (mem_append_left em hxt) o
    simp only [mem_cons, hns.1, hns.2, hxxs, or_self] at hm
  · exact hxxs (hs.tiles.off_inj (hs.free_mem hy) hxt e ▸ hy)
  · rintro r s1 ⟨_, own1, k, k', b, b', h₁, hkeep1, hrl1⟩
    have hrp : ∀ y, y ≠ x → s1.rl.rp y = s.rl.rp y := by
      intro y hy
      rw [hrl1]
      simp [hy]
    have hkey : ∀ y, (s1.rl.rp y).offset = (s.rl.rp y).offset ∧ (s1.rl.rp y).extent = (s.rl.rp y).extent := by
      intro y
      by_cases hy : y = x
      · rw [hy, hrl1]
        simp
      · rw [hrp y hy]
        exact ⟨rfl, rfl⟩
    have hrelink : Relinked s.rl s1.rl C em := by
      refine ⟨by rw [hrl1]; exact ⟨rfl, rfl, rfl⟩, by rw [hrl1]; rfl, hkey, fun y hy => hrp y ?_⟩
      rcases mem_append.1 hy with hy | hy
      · exact hs.alloc_ne (by simp) hy
      · exact fun e => hs.empty_not_mem hy (e ▸ hxt)
    have hmf : s1.rl.maxfextent = s.rl.maxfextent := by rw [hrl1]; rfl
    have hinv : RlInv s1 own1 D (x :: xs) [] em C := by
      constructor
      case free => exact h₁
      case shape => exact ⟨tl, (hs.relink hrelink).repart (by simpa using (perm_append_singleton x xs).symm)⟩
      case nfree =>
        rw [hrl1, length_cons, ← h.nfree]
      case nempty =>
        rw [hrl1, ← h.nempty]
        rfl
      case nelems =>
        have hn : s1.rl.nelems = sizeSub s.rl.nelems 1 := by rw [hrl1]; rfl
        rw [hn, allocs_congr hrelink.nchains, sizeSub_of_le (by simp [hnel]), hnel]
        simp
    have hloose : Loose s1 own1 D x xs em C := by
      refine ⟨hinv, hadj.congr (fun _ hy => hy) fun y _ => ⟨(hkey y).1, hrelink.getExtent y⟩, fun y hy => ?_, ?_⟩
      · rw [hmf, hrelink.getExtent]
        exact hmax.1 y hy
      · rw [hmf]
        rcases hmax.2 with h0 | ⟨y, hy, hye⟩
        · left
          omega
        · exact .inr ⟨y, hy, by rw [hrelink.getExtent, hye]⟩
    refine (consolidate_spec hloose).bind ?_
    rintro _ s2 ⟨own2, xs2, em2, h₂, hmax2, hadj2, hkept2, hkeep2, hem2⟩
    have hkept : Kept s.rl s2.rl C :=
      Kept.trans ⟨hrelink.nalloc, hrelink.nchains, by rw [hrl1]; rfl, fun y hy =>
        hrelink.rest y (mem_append_left _ hy)⟩ hkept2
    simp only [wp_bind, wp_modify, wp_read, wp_assert]
    exact ⟨h₂.counts, own2, xs2, em2, h₂.records _ _ _ _, hmax2, hadj2,
      ⟨hkept.nalloc, hkept.nchains, hkept.nbytes, hkept.rp⟩, hkeep1.trans hkeep2, hem2⟩

/-- **Freeing** an allocated region. -/
theorem free_spec (h : RlInv s own D xs [] em C) (hmax : IsMax s.rl xs s.rl.maxfextent) (hadj : NoAdj s.rl xs)
    (hx : x ∈ allocs s.rl C) :
    wp (free x) (fun _ s' => ∃ own' xs' em' C', RlInv s' own' D xs' [] em' C' ∧ IsMax s'.rl xs' s'.rl.maxfextent ∧
      NoAdj s'.rl xs' ∧ Keeps IsTime s.fb own s'.fb own' ∧ em <:+ em' ∧
      (x :: allocs s'.rl C').Perm (allocs s.rl C) ∧
      (∀ y ∈ allocs s'.rl C', (s'.rl.rp y).offset = (s.rl.rp y).offset ∧
        (s'.rl.rp y).getExtent = (s.rl.rp y).getExtent) ∧
      s'.rl.nalloc = s.rl.nalloc ∧ s'.rl.nbytes = sizeSub s.rl.nbytes (s.rl.rp x).getExtent) s := by
  obtain ⟨tl, hs⟩ := h.shape
  have hclear : (s.rl.rp x).clearAlloc.getExtent = (s.rl.rp x).getExtent := by
    simp only [Region.clearAlloc, Region.getExtent]
    omega
  have hkey1 : ∀ y, (update s.rl.rp x (s.rl.rp x).clearAlloc y).offset = (s.rl.rp y).offset ∧
      (update s.rl.rp x (s.rl.rp x).clearAlloc y).getExtent = (s.rl.rp y).getExtent ∧
      (update s.rl.rp x (s.rl.rp x).clearAlloc y).next = (s.rl.rp y).next ∧
      (update s.rl.rp x (s.rl.rp x).clearAlloc y).prev = (s.rl.rp y).prev := by
    intro y
    by_cases hy : y = x
    · rw [hy, update_self]
      exact ⟨rfl, hclear, rfl, rfl⟩
    · rw [update_of_ne hy]
      exact ⟨rfl, rfl, rfl, rfl⟩
  rw [free, modRl, wp_bind, wp_modify]
  have hH1 : HashInv { setRegion s.rl x (s.rl.rp x).clearAlloc with
      nbytes := sizeSub s.rl.nbytes (s.rl.rp x).clearAlloc.getExtent } C :=
    hs.hash.frame ⟨rfl, rfl, rfl⟩ fun y _ => ⟨(hkey1 y).2.2.1, (hkey1 y).2.2.2, (hkey1 y).1⟩
  refine (removeFromHash_spec (s := ⟨_, s.fb⟩) hH1 hx ?_).bind ?_
  · intro y hy hyx
    show (update s.rl.rp x (s.rl.rp x).clearAlloc y).isAlloc = true
    rw [update_of_ne hyx]
    exact hs.marked y hy
  · rintro _ s2 ⟨hfb, hsame, hxsame, C', hH2, hperm⟩
    -- the free lists do not see the hash table
    have hout : ∀ y, y ∉ allocs s.rl C → s2.rl.rp y = s.rl.rp y := by
      intro y hy
      have hyx : y ≠ x := fun e => hy (e ▸ hx)
      rw [hsame.rest y hy]
      show update s.rl.rp x (s.rl.rp x).clearAlloc y = _
      rw [update_of_ne hyx]
    have hkey2 : ∀ y, (s2.rl.rp y).offset = (s.rl.rp y).offset ∧ (s2.rl.rp y).getExtent = (s.rl.rp y).getExtent := by
      intro y
      refine ⟨(hsame.key y).1.trans (hkey1 y).1, ?_⟩
      rw [Region.getExtent, (hsame.key y).2]
      exact (hkey1 y).2.1
    have hperm' : (x :: allocs s2.rl C').Perm (allocs s.rl C) := hperm
    have hrest : ∀ y ∈ allocs s2.rl C', y ≠ x ∧ y ∈ allocs s.rl C := by
      intro y hy
      have hnd := nodup_cons.1 (hperm'.nodup_iff.2 hs.hash.nodup)
      exact ⟨fun e => hnd.1 (e ▸ hy), hperm'.mem_iff.1 (mem_cons_of_mem _ hy)⟩
    have hinv : RlInv ⟨s2.rl, s.fb⟩ own D xs [x] em C' := by
      refine h.rehash hH2 (by rw [hsame.fields]; rfl) hkey2 hout hperm' (fun y hy => ?_) fun y hy => ?_
      · rw [mem_singleton.1 hy, isAlloc_eq_false, (hsame.key x).2]
        show (update s.rl.rp x (s.rl.rp x).clearAlloc x).extent % 2 = 0
        rw [update_self]
        show (s.rl.rp x).extent / 2 * 2 % 2 = 0
        omega
      · obtain ⟨hyx, hya⟩ := hrest y hy
        rw [Region.isAlloc, (hsame.key y).2]
        show (update s.rl.rp x (s.rl.rp x).clearAlloc y).isAlloc = true
        rw [update_of_ne hyx]
        exact hs.marked y hya
    have hs2 : s2 = ⟨s2.rl, s.fb⟩ := by
      cases s2
      rw [← hfb]
    rw [← hs2] at hinv
    have hmf : s2.rl.maxfextent = s.rl.maxfextent := by
      rw [hsame.fields]
      rfl
    refine (putBack_spec hinv ?_ (hadj.congr (fun _ hy => hy) fun y _ => hkey2 y)).mono ?_
    · rw [hmf]
      exact hmax.congr (fun _ => Iff.rfl) fun y _ => (hkey2 y).2
    · rintro _ s3 ⟨own3, xs3, em3, h3, hmax3, hadj3, hkept, hkeep, hem⟩
      have hal : allocs s3.rl C' = allocs s2.rl C' := allocs_congr hkept.nchains
      refine ⟨own3, xs3, em3, C', h3, hmax3, hadj3, ?_, hem, ?_, ?_, ?_, ?_⟩
      · rw [← hfb]
        exact hkeep
      · rw [hal]
        exact hperm'
      · intro y hy
        rw [hal] at hy
        rw [hkept.rp y hy]
        exact hkey2 y
      · rw [hkept.nalloc, hsame.fields]
        rfl
      · rw [hkept.nbytes, hsame.fields, ← hclear]

end RegionList

end Rdm
