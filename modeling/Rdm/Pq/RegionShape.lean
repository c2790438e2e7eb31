import Rdm.Lib.Tiling
import Rdm.Pq.RegionHashSpec

/-!
# What the slots of the region list say

`Shape rl D tl xs hand em C`: the regions `tl` tile the data section `D`. They are the free regions `xs`, the allocated
ones of the hash chains `C`, and those `hand` in hand; the slots `em` are unused.
-/

namespace Rdm

open ProgLogic ProgLogic.Prog FreeBlock Links Tiling List

/-- The data section `[datao, ixo)` of a queue: behind the control header, with the index behind it. -/
structure DataSection where
  datao : Int
  ixo : Int
  align : Nat
  header : 64 ≤ datao
  nonempty : datao < ixo
  fits : ixo < hugeOff
  even : 2 ∣ ixo - datao
  align_pos : 0 < align
  align_even : 2 ∣ align
  aligned : (align : Int) ∣ datao

def DataSection.size (D : DataSection) : Nat := (D.ixo - D.datao).toNat

namespace RegionList

/-- The extent and offset of the heads and tails of the free lists. -/
structure Sentinels (rl : RegionList) : Prop where
  offTail : (rl.rp RL_FOFF_TL).offset = hugeOff
  extHead : (rl.rp RL_FEXT_HD).getExtent = 0
  extTail : (rl.rp RL_FEXT_TL).getExtent = 2 ^ 64 - 2 ∧ (rl.rp RL_FEXT_TL).offset = 0

structure Shape (rl : RegionList) (D : DataSection) (tl xs hand em : List Nat) (C : Nat → List Nat) : Prop where
  hash : HashInv rl C
  empty : Chain (fun x => (rl.rp x).next) rl.empty em RL_NONE
  tiles : Tiles (fun x => (rl.rp x).offset) (fun x => (rl.rp x).getExtent) D.datao tl D.ixo
  part : tl.Perm (xs ++ (hand ++ allocs rl C))
  slots : (tl ++ em).Perm (List.range' RL_EMPTY_HD rl.nalloc)
  even : ∀ x ∈ xs ++ hand, (rl.rp x).isAlloc = false
  marked : ∀ x ∈ allocs rl C, (rl.rp x).isAlloc = true
  aligned : ∀ x ∈ tl, (D.align : Int) ∣ (rl.rp x).offset
  sentinels : Sentinels rl

variable {rl rl' : RegionList} {D : DataSection} {tl xs hand em : List Nat} {C : Nat → List Nat} {z : Nat} {x : Nat}

theorem Sentinels.congr (h : Sentinels rl)
    (hkey : ∀ x < RL_FREE_OVERHEAD, (rl'.rp x).offset = (rl.rp x).offset ∧ (rl'.rp x).getExtent = (rl.rp x).getExtent) :
    Sentinels rl' where
  offTail := by rw [(hkey _ (by decide)).1, h.offTail]
  extHead := by rw [(hkey _ (by decide)).2, h.extHead]
  extTail := by rw [(hkey _ (by decide)).2, (hkey _ (by decide)).1]; exact h.extTail

theorem Sentinels.before_tail (h : Sentinels rl) (o : FreeOrder) {r : Region} (h0 : 0 ≤ r.offset)
    (h1 : r.offset + r.getExtent < hugeOff) : o.Before r (rl.rp o.tail) := by
  obtain ⟨hs1, -, hs2, hs3⟩ := h
  cases o with
  | offset =>
    rw [FreeOrder.before_offset]
    simp only [FreeOrder.tail, hs1]
    omega
  | extent =>
    rw [FreeOrder.before_extent]
    simp only [FreeOrder.tail, hs2, hugeOff] at h1 ⊢
    omega

theorem isAlloc_eq_false {r : Region} : r.isAlloc = false ↔ r.extent % 2 = 0 := by
  simp [Region.isAlloc]

theorem getExtent_of_even {r : Region} (h : r.isAlloc = false) : r.getExtent = r.extent := by
  rw [isAlloc_eq_false] at h
  unfold Region.getExtent
  omega

/-! ## Reading the shape -/

section

variable (h : Shape rl D tl xs hand em C)
include h

theorem Shape.mem_slots (hx : x ∈ tl ++ em) : RL_EMPTY_HD ≤ x ∧ x < rl.nalloc + RL_FREE_OVERHEAD := by
  have hm := h.slots.mem_iff.1 hx
  simp only [mem_range'_1, RL_EMPTY_HD] at hm ⊢
  omega

theorem Shape.nodup : (tl ++ em).Nodup :=
  h.slots.nodup_iff.2 nodup_range'

theorem Shape.length : tl.length + em.length = rl.nalloc := by
  have := h.slots.length_eq
  simpa using this

theorem Shape.free_mem (hx : x ∈ xs) : x ∈ tl :=
  h.part.mem_iff.2 (mem_append_left _ hx)

theorem Shape.hand_mem (hx : x ∈ hand) : x ∈ tl :=
  h.part.mem_iff.2 (mem_append_right _ (mem_append_left _ hx))

theorem Shape.alloc_mem (hx : x ∈ allocs rl C) : x ∈ tl :=
  h.part.mem_iff.2 (mem_append_right _ (mem_append_right _ hx))

theorem Shape.part_nodup : (xs ++ (hand ++ allocs rl C)).Nodup :=
  h.part.nodup_iff.1 (nodup_append.1 h.nodup).1

theorem Shape.bounds (hx : x ∈ tl) :
    0 ≤ (rl.rp x).offset ∧ 0 < (rl.rp x).getExtent ∧ (rl.rp x).offset + (rl.rp x).getExtent < hugeOff := by
  have h1 := h.tiles.mem x hx
  have h2 := D.header
  have h3 := D.fits
  exact ⟨by omega, h1.2.1, by omega⟩

theorem Shape.not_sentinel (hx : x ∈ tl ++ em) (o : FreeOrder) : x ≠ o.hd ∧ x ≠ o.tail := by
  have := (h.mem_slots hx).1
  cases o <;> simp only [FreeOrder.hd, FreeOrder.tail, RL_FOFF_HD, RL_FOFF_TL, RL_FEXT_HD, RL_FEXT_TL, RL_EMPTY_HD,
    RL_FREE_OVERHEAD] at this ⊢ <;> omega

end

structure SameTable (rl rl' : RegionList) : Prop where
  nalloc : rl'.nalloc = rl.nalloc
  nchains : rl'.nchains = rl.nchains
  chains : rl'.chains = rl.chains

theorem allocs_congr (h : rl'.nchains = rl.nchains) : allocs rl' C = allocs rl C := by
  rw [allocs, allocs, h]

theorem HashInv.frame (h : HashInv rl C) (ht : SameTable rl rl')
    (hrp : ∀ x ∈ allocs rl C, (rl'.rp x).next = (rl.rp x).next ∧
    (rl'.rp x).prev = (rl.rp x).prev ∧ (rl'.rp x).offset = (rl.rp x).offset) : HashInv rl' C where
  chain i hi := by
    rw [ht.nchains] at hi
    rw [ht.chains]
    exact chain_congr (h.chain i hi) fun x hx => (hrp x (mem_allocs.2 ⟨i, hi, hx⟩)).1
  back i hi := by
    rw [ht.nchains] at hi
    exact backLinks_congr (h.back i hi) fun x hx => (hrp x (mem_allocs.2 ⟨i, hi, hx⟩)).2.1
  hash i hi x hx := by
    rw [ht.nchains] at hi
    rw [hashOffset, ht.nchains, (hrp x (mem_allocs.2 ⟨i, hi, hx⟩)).2.2]
    exact h.hash i hi x hx
  nodup := by rw [allocs_congr ht.nchains]; exact h.nodup
  bound := by rw [allocs_congr ht.nchains, ht.nalloc]; exact h.bound
  length := by rw [allocs_congr ht.nchains, ht.nalloc]; exact h.length
  pos := by rw [ht.nchains]; exact h.pos
  small := by rw [ht.nalloc]; exact h.small

/-! ## Editing the shape -/

/-- What the shape does not depend on: the links of regions outside the hash table, levels and counters. -/
structure Relinked (rl rl' : RegionList) (C : Nat → List Nat) (em : List Nat) : Prop extends SameTable rl rl' where
  empty : rl'.empty = rl.empty
  key : ∀ x, (rl'.rp x).offset = (rl.rp x).offset ∧ (rl'.rp x).extent = (rl.rp x).extent
  rest : ∀ x ∈ allocs rl C ++ em, rl'.rp x = rl.rp x

theorem Relinked.getExtent (h : Relinked rl rl' C em) (x : Nat) : (rl'.rp x).getExtent = (rl.rp x).getExtent := by
  rw [Region.getExtent, Region.getExtent, (h.key x).2]

theorem Relinked.isAlloc (h : Relinked rl rl' C em) (x : Nat) : (rl'.rp x).isAlloc = (rl.rp x).isAlloc := by
  rw [Region.isAlloc, Region.isAlloc, (h.key x).2]

section

variable (h : Shape rl D tl xs hand em C)
include h

theorem Shape.relink (hr : Relinked rl rl' C em) :
    Shape rl' D tl xs hand em C where
  hash := h.hash.frame hr.toSameTable fun x hx => by
    rw [hr.rest x (mem_append_left _ hx)]
    exact ⟨rfl, rfl, rfl⟩
  empty := by
    rw [hr.empty]
    exact chain_congr h.empty fun x hx => by rw [hr.rest x (mem_append_right _ hx)]
  tiles := h.tiles.congr fun x _ => ⟨(hr.key x).1, hr.getExtent x⟩
  part := by rw [allocs_congr hr.nchains]; exact h.part
  slots := by rw [hr.nalloc]; exact h.slots
  even x hx := by rw [hr.isAlloc]; exact h.even x hx
  marked x hx := by rw [allocs_congr hr.nchains] at hx; rw [hr.isAlloc]; exact h.marked x hx
  aligned x hx := by rw [(hr.key x).1]; exact h.aligned x hx
  sentinels := h.sentinels.congr fun x _ => ⟨(hr.key x).1, hr.getExtent x⟩

theorem Shape.repart {xs' hand' : List Nat} (hp : (xs' ++ hand').Perm (xs ++ hand)) : Shape rl D tl xs' hand' em C :=
  { h with
    part := by
      refine h.part.trans ?_
      rw [← append_assoc, ← append_assoc]
      exact (hp.symm).append_right _
    even := fun x hx => h.even x (hp.mem_iff.1 hx) }

theorem Shape.rehash {hand' : List Nat} {C' : Nat → List Nat} (hH : HashInv rl' C')
    (hn : rl'.nalloc = rl.nalloc) (he : rl'.empty = rl.empty)
    (hkey : ∀ x, (rl'.rp x).offset = (rl.rp x).offset ∧ (rl'.rp x).getExtent = (rl.rp x).getExtent)
    (hrest : ∀ x ∈ xs ++ em, rl'.rp x = rl.rp x)
    (hpart : (hand' ++ allocs rl' C').Perm (hand ++ allocs rl C)) (heven : ∀ x ∈ hand', (rl'.rp x).isAlloc = false)
    (hmarked : ∀ x ∈ allocs rl' C', (rl'.rp x).isAlloc = true) : Shape rl' D tl xs hand' em C' where
  hash := hH
  empty := by
    rw [he]
    exact chain_congr h.empty fun x hx => by rw [hrest x (mem_append_right _ hx)]
  tiles := h.tiles.congr fun x _ => hkey x
  part := h.part.trans (hpart.symm.append_left _)
  slots := by rw [hn]; exact h.slots
  even x hx := by
    rcases mem_append.1 hx with hx | hx
    · rw [hrest x (mem_append_left _ hx)]
      exact h.even x (mem_append_left _ hx)
    · exact heven x hx
  marked := hmarked
  aligned x hx := by rw [(hkey x).1]; exact h.aligned x hx
  sentinels := h.sentinels.congr fun x _ => hkey x

theorem Shape.empty_not_mem {z : Nat} (hz : z ∈ em) : z ∉ tl :=
  fun hm => (nodup_append.1 h.nodup).2.2 z hm z hz rfl

theorem Shape.alloc_ne {y : Nat} (hx : x ∈ xs ++ hand) (hy : y ∈ allocs rl C) : y ≠ x := by
  intro e
  have h1 := h.even x hx
  rw [← e, h.marked y hy] at h1
  cases h1

end

theorem HashInv.same (h : HashInv rl C) (ht : SameTable rl rl') (hrp : ∀ x ∈ allocs rl C, rl'.rp x = rl.rp x) :
    HashInv rl' C :=
  h.frame ht fun x hx => by rw [hrp x hx]; exact ⟨rfl, rfl, rfl⟩

theorem Shape.reshape (h : Shape rl D tl xs hand em C) {tl' xs' hand' em' : List Nat} (ht : SameTable rl rl')
    (hsame : ∀ y ∈ allocs rl C, rl'.rp y = rl.rp y)
    (hends : ∀ y < RL_EMPTY_HD, rl'.rp y = rl.rp y) (hempty : Chain (fun x => (rl'.rp x).next) rl'.empty em' RL_NONE)
    (htiles : Tiles (fun x => (rl'.rp x).offset) (fun x => (rl'.rp x).getExtent) D.datao tl' D.ixo)
    (hpart : tl'.Perm (xs' ++ (hand' ++ allocs rl C))) (hslots : (tl' ++ em').Perm (tl ++ em))
    (heven : ∀ x ∈ xs' ++ hand', (rl'.rp x).isAlloc = false) (hal : ∀ x ∈ tl', (D.align : Int) ∣ (rl'.rp x).offset) :
    Shape rl' D tl' xs' hand' em' C where
  hash := h.hash.same ht hsame
  empty := hempty
  tiles := htiles
  part := by rw [allocs_congr ht.nchains]; exact hpart
  slots := by rw [ht.nalloc]; exact hslots.trans h.slots
  even := heven
  marked y hy := by
    rw [allocs_congr ht.nchains] at hy
    rw [hsame y hy]
    exact h.marked y hy
  aligned := hal
  sentinels := h.sentinels.congr fun y hy => by rw [hends y hy]; exact ⟨rfl, rfl⟩

theorem Shape.cut (h : Shape rl D tl xs hand (z :: em) C) (hx : x ∈ hand) (ht : SameTable rl rl')
    (he : rl'.empty = (rl.rp z).next) (hrest : ∀ y, y ≠ x → y ≠ z → rl'.rp y = rl.rp y)
    (hxo : (rl'.rp x).offset = (rl.rp x).offset) (hx0 : 0 < (rl'.rp x).getExtent) (hxe : (rl'.rp x).isAlloc = false)
    (hzo : (rl'.rp z).offset = (rl.rp x).offset + (rl'.rp x).getExtent) (hz0 : 0 < (rl'.rp z).getExtent)
    (hze : (rl'.rp z).isAlloc = false) (hsum : (rl'.rp x).getExtent + (rl'.rp z).getExtent = (rl.rp x).getExtent)
    (hal : (D.align : Int) ∣ (rl'.rp x).getExtent) : ∃ tl', Shape rl' D tl' (z :: xs) hand em C := by
  have hxt := h.hand_mem hx
  have hzt := h.empty_not_mem (z := z) mem_cons_self
  have hxem : x ∉ z :: em := fun hm => h.empty_not_mem hm hxt
  have hzem : z ∉ em := (nodup_cons.1 (nodup_append.1 h.nodup).2.1).1
  have hsame : ∀ y ∈ allocs rl C, rl'.rp y = rl.rp y := fun y hy =>
    hrest y (h.alloc_ne (mem_append_right _ hx) hy) fun e => hzt (e ▸ h.alloc_mem hy)
  obtain ⟨as, bs, htl⟩ := append_of_mem hxt
  have hnd : (as ++ x :: bs).Nodup := htl ▸ (nodup_append.1 h.nodup).1
  have hside : ∀ y ∈ as ++ bs, rl'.rp y = rl.rp y := by
    intro y hy
    refine hrest y (fun e => ?_) fun e => hzt (e ▸ htl ▸ ?_)
    · exact (nodup_cons.1 (nodup_middle.1 hnd)).1 (e ▸ hy)
    · simp only [mem_append, mem_cons] at hy ⊢
      tauto
  have hmid : (as ++ x :: z :: bs).Perm (z :: tl) := by
    have hp : (as ++ [x] ++ z :: bs).Perm (z :: (as ++ [x] ++ bs)) := perm_middle
    rw [htl]
    simpa using hp
  have h1 := (h.mem_slots (mem_append_left _ hxt)).1
  have h2 := (h.mem_slots (mem_append_right tl mem_cons_self : z ∈ _)).1
  refine ⟨as ++ x :: z :: bs, h.reshape ht hsame (fun y hy => hrest y (by omega) (by omega)) ?_ ?_
    (hmid.trans (h.part.cons z)) ((hmid.append_right em).trans perm_middle.symm) ?_ ?_⟩
  · rw [he]
    refine chain_congr h.empty.2 fun y hy => ?_
    rw [hrest y (fun e => hxem (e ▸ mem_cons_of_mem _ hy)) (fun e => hzem (e ▸ hy))]
  · have htiles := h.tiles
    rw [htl] at htiles
    exact htiles.split (fun y hy => by rw [hside y hy]; exact ⟨rfl, rfl⟩) hxo hx0 hzo hz0 hsum
  · intro y hy
    by_cases hyz : y = z
    · rw [hyz]
      exact hze
    · by_cases hyx : y = x
      · rw [hyx]
        exact hxe
      · rw [hrest y hyx hyz]
        refine h.even y ?_
        simp only [cons_append, mem_cons] at hy
        exact hy.resolve_left hyz
  · intro y hy
    have hxal := h.aligned x hxt
    rcases mem_cons.1 (hmid.mem_iff.1 hy) with rfl | hy
    · rw [hzo]
      exact Int.dvd_add hxal hal
    · by_cases hyx : y = x
      · rw [hyx, hxo]
        exact hxal
      · rw [hrest y hyx fun e => hzt (e ▸ hy)]
        exact h.aligned y hy

theorem Shape.join (h : Shape rl D tl xs hand em C) (hx : x ∈ xs) (hz : z ∈ xs)
    (hadj : (rl.rp x).offset + (rl.rp x).getExtent = (rl.rp z).offset) (ht : SameTable rl rl') (he : rl'.empty = z)
    (hnext : (rl'.rp z).next = rl.empty) (hrest : ∀ y, y ≠ x → y ≠ z → rl'.rp y = rl.rp y)
    (hxo : (rl'.rp x).offset = (rl.rp x).offset) (hxe : (rl'.rp x).isAlloc = false)
    (hsum : (rl'.rp x).getExtent = (rl.rp x).getExtent + (rl.rp z).getExtent) :
    ∃ tl', Shape rl' D tl' (xs.erase z) hand (z :: em) C := by
  have hxt := h.free_mem hx
  have hzt := h.free_mem hz
  have hsame : ∀ y ∈ allocs rl C, rl'.rp y = rl.rp y := fun y hy =>
    hrest y (h.alloc_ne (mem_append_left _ hx) hy) (h.alloc_ne (mem_append_left _ hz) hy)
  obtain ⟨as, bs, htl⟩ := h.tiles.adjacent hxt hzt hadj
  have hmid : (z :: (as ++ x :: bs)).Perm tl := by
    have hp : (as ++ [x] ++ z :: bs).Perm (z :: (as ++ [x] ++ bs)) := perm_middle
    rw [htl]
    simpa using hp.symm
  obtain ⟨hznot, hnd'⟩ := nodup_cons.1 (hmid.nodup_iff.2 (nodup_append.1 h.nodup).1)
  have hside : ∀ y ∈ as ++ bs, rl'.rp y = rl.rp y := by
    intro y hy
    refine hrest y (fun e => ?_) fun e => hznot (e ▸ ?_)
    · exact (nodup_cons.1 (nodup_middle.1 hnd')).1 (e ▸ hy)
    · simp only [mem_append, mem_cons] at hy ⊢
      tauto
  have hxs : (z :: xs.erase z).Perm xs := (perm_cons_erase hz).symm
  have h1 := (h.mem_slots (mem_append_left _ hxt)).1
  have h2 := (h.mem_slots (mem_append_left _ hzt)).1
  refine ⟨as ++ x :: bs, h.reshape ht hsame (fun y hy => hrest y (by omega) (by omega)) ⟨he, ?_⟩ ?_
    ((perm_cons z).1 (hmid.trans (h.part.trans (hxs.append_right _).symm)))
    (perm_middle.trans (hmid.append_right em)) ?_ ?_⟩
  · beta_reduce
    rw [hnext]
    refine chain_congr h.empty fun y hy => ?_
    have hyt := fun e : y ∈ tl => h.empty_not_mem hy e
    rw [hrest y (fun e => hyt (e ▸ hxt)) (fun e => hyt (e ▸ hzt))]
  · have htiles := h.tiles
    rw [htl] at htiles
    exact htiles.merge (fun y hy => by rw [hside y hy]; exact ⟨rfl, rfl⟩) hxo hsum
  · intro y hy
    by_cases hyx : y = x
    · rw [hyx]
      exact hxe
    · have hy' : y ∈ xs ++ hand := by
        rcases mem_append.1 hy with hy | hy
        · exact mem_append_left _ (mem_of_mem_erase hy)
        · exact mem_append_right _ hy
      have hyz : y ≠ z := by
        intro e
        have hpn := h.part_nodup
        rw [← append_assoc] at hpn
        have hnd2 : (z :: (xs.erase z ++ hand)).Nodup :=
          (hxs.append_right hand).nodup_iff.2 (nodup_append.1 hpn).1
        exact (nodup_cons.1 hnd2).1 (e ▸ hy)
      rw [hrest y hyx hyz]
      exact h.even y hy'
  · intro y hy
    by_cases hyx : y = x
    · rw [hyx, hxo]
      exact h.aligned x hxt
    · rw [hrest y hyx fun e => hznot (e ▸ hy)]
      exact h.aligned y (hmid.mem_iff.1 (mem_cons_of_mem _ hy))

end RegionList

end Rdm
