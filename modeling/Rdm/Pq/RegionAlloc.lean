import Rdm.Pq.RegionShape

/-!
# Allocating regions

The invariant `RlInv` of the region list between operations: `get_spec` takes a free region out of the lists,
`split_spec` cuts off what is not needed.
-/

namespace Rdm

open ProgLogic ProgLogic.Prog SkipList FreeBlock Links Tiling
open Function (update update_of_ne update_self)
open FreeOrder (before before_extent setLevel setPtr tail)
open List (length_cons mem_cons mem_cons_self nodup_append)

namespace RegionList

variable {s s' : RlFb} {own own' : Nat → Owner Holder} {rl rl' : RegionList} {D : DataSection} {x : Nat} {z : Nat}
variable {extent : Nat}
  {tl xs hand em : List Nat} {C : Nat → List Nat}

/-- The region list of the data section `D`, with the regions `hand` in the hands of an operation. -/
structure RlInv (s : RlFb) (own : Nat → Owner Holder) (D : DataSection) (xs hand em : List Nat)
    (C : Nat → List Nat) : Prop where
  free : FreeInv s own fun _ => xs
  shape : ∃ tl, Shape s.rl D tl xs hand em C
  nfree : s.rl.nfree = xs.length
  nempty : s.rl.nempty = em.length
  nelems : s.rl.nelems = (hand ++ allocs s.rl C).length

def IsMax (rl : RegionList) (xs : List Nat) (m : Nat) : Prop :=
  (∀ x ∈ xs, (rl.rp x).getExtent ≤ m) ∧ (m = 0 ∨ ∃ x ∈ xs, (rl.rp x).getExtent = m)

def NoAdj (rl : RegionList) (xs : List Nat) : Prop :=
  ∀ x ∈ xs, ∀ y ∈ xs, (rl.rp x).offset + (rl.rp x).getExtent ≠ (rl.rp y).offset

theorem IsMax.congr {m : Nat} (h : IsMax rl xs m) {ys : List Nat} (hmem : ∀ x, x ∈ ys ↔ x ∈ xs)
    (hext : ∀ x ∈ xs, (rl'.rp x).getExtent = (rl.rp x).getExtent) : IsMax rl' ys m := by
  refine ⟨fun x hx => ?_, h.2.imp_right fun ⟨x, hx, e⟩ => ⟨x, (hmem x).2 hx, by rw [hext x hx, e]⟩⟩
  rw [hext x ((hmem x).1 hx)]
  exact h.1 x ((hmem x).1 hx)

theorem NoAdj.congr (h : NoAdj rl xs) {ys : List Nat} (hsub : ∀ x ∈ ys, x ∈ xs)
    (hkey : ∀ x ∈ xs, (rl'.rp x).offset = (rl.rp x).offset ∧ (rl'.rp x).getExtent = (rl.rp x).getExtent) :
    NoAdj rl' ys := by
  intro x hx y hy
  rw [(hkey x (hsub x hx)).1, (hkey x (hsub x hx)).2, (hkey y (hsub y hy)).1]
  exact h x (hsub x hx) y (hsub y hy)

/-- What the operations leave of the allocated regions `C`: all of it. -/
structure Kept (rl rl' : RegionList) (C : Nat → List Nat) : Prop where
  nalloc : rl'.nalloc = rl.nalloc
  nchains : rl'.nchains = rl.nchains
  nbytes : rl'.nbytes = rl.nbytes
  rp : ∀ y ∈ allocs rl C, rl'.rp y = rl.rp y

theorem Kept.refl (rl : RegionList) (C : Nat → List Nat) : Kept rl rl C := ⟨rfl, rfl, rfl, fun _ _ => rfl⟩

theorem Kept.trans {rl1 rl2 rl3 : RegionList} (h : Kept rl1 rl2 C) (h' : Kept rl2 rl3 C) : Kept rl1 rl3 C where
  nalloc := h'.nalloc.trans h.nalloc
  nchains := h'.nchains.trans h.nchains
  nbytes := h'.nbytes.trans h.nbytes
  rp y hy := (h'.rp y (by rwa [allocs_congr h.nchains])).trans (h.rp y hy)

theorem RlInv.counts (h : RlInv s own D xs hand em C) :
    s.rl.nelems + s.rl.nfree + s.rl.nempty = s.rl.nalloc := by
  obtain ⟨tl, hs⟩ := h.shape
  have h1 := hs.length
  have h2 := hs.part.length_eq
  have h3 := h.nfree
  have h4 := h.nempty
  have h5 := h.nelems
  simp only [List.length_append] at h2 h5
  omega

theorem RlInv.records (h : RlInv s own D xs hand em C) (m b mb mf : Nat) :
    RlInv { s with rl := { s.rl with maxfextent := m, nbytes := b, maxbytes := mb, maxfree := mf } } own D xs hand
    em C := by
  obtain ⟨tl, hs⟩ := h.shape
  have hr : Relinked s.rl { s.rl with maxfextent := m, nbytes := b, maxbytes := mb, maxfree := mf } C em :=
    ⟨⟨rfl, rfl, rfl⟩, rfl, fun _ => ⟨rfl, rfl⟩, fun _ _ => rfl⟩
  exact ⟨h.free.recount, ⟨tl, hs.relink hr⟩, h.nfree, h.nempty, h.nelems⟩

/-! ## The free lists as a pair -/

def Leveled (rl rl' : RegionList) : Prop := ∃ k k', rl' = { rl with levelFoff := k, levelFext := k' }

theorem FreeInv.deleteBoth (h : FreeInv s own fun _ => xs) (hx : x ∈ xs) {α : Type} {m : Prog RlFb α}
    {Q : α → RlFb → Prop} (hQ : ∀ s' own', FreeInv s' own' (fun _ => xs.erase x) →
      Keeps IsTime s.fb own s'.fb own' → Leveled s.rl s'.rl → wp m Q s') :
    wp (deleteOffset x >>= fun _ => deleteExtent x >>= fun _ => m) Q s := by
  refine (h.delete .offset hx).bind ?_
  rintro _ s1 ⟨own1, k, h1, hk1, hrl1⟩
  refine (h1.delete .extent (by simpa using hx)).bind ?_
  rintro _ s2 ⟨own2, k', h2, hk2, hrl2⟩
  refine hQ s2 own2 (h2.perm fun o => ?_) (hk1.trans hk2) ⟨k, k', by rw [hrl2, hrl1]; rfl⟩
  cases o <;> simp

theorem Insertable.second {s1 : RlFb} {k b : Nat} (he : ∀ o : FreeOrder, Insertable o s.rl xs z)
    (hrl : s1.rl = setRegion (setLevel .offset s.rl k) z (setPtr .offset (s.rl.rp z) b)) :
    s1.rl.rp z = { s.rl.rp z with next := b } ∧ Insertable .extent s1.rl xs z := by
  obtain ⟨hz, hlen, hne, htl⟩ := he .extent
  have hrp : ∀ x, x ≠ z → s1.rl.rp x = s.rl.rp x := by
    intro x hx
    rw [hrl]
    simp [hx]
  have hrpz : s1.rl.rp z = { s.rl.rp z with next := b } := by
    rw [hrl]
    simp [setPtr]
  have hnot := hz
  simp only [mem_cons, not_or] at hnot
  refine ⟨hrpz, hz, ?_, ?_, ?_⟩
  · rw [hrl]
    simpa using hlen
  · intro x hx
    rw [hrp x (fun e => hnot.2.2 (e ▸ hx)), hrpz]
    exact hne x hx
  · rw [hrp _ (fun e => hnot.2.1 e.symm), hrpz]
    exact htl

theorem releaseRegion_spec (h : FreeInv s own fun _ => xs) (he : ∀ o : FreeOrder, Insertable o s.rl xs z) :
    wp (releaseRegion z) (fun r s' => r = 0 ∧ ∃ own' k k' b b', FreeInv s' own' (fun _ => z :: xs) ∧
      Keeps IsTime s.fb own s'.fb own' ∧ s'.rl = { setRegion s.rl z { s.rl.rp z with next := b, prev := b' } with
        levelFoff := k, levelFext := k', nfree := s.rl.nfree + 1 }) s := by
  rw [releaseRegion, wp_bind]
  refine (h.add .offset (he .offset)).mono ?_
  rintro r s1 ⟨hr, own1, k, b, h1, hk1, hrl1⟩
  subst hr
  rw [if_neg (by decide), wp_bind]
  obtain ⟨hrpz, he1⟩ := Insertable.second he hrl1
  refine (h1.add .extent he1).mono ?_
  rintro r s2 ⟨hr, own2, k', b', h2, hk2, hrl2⟩
  subst hr
  rw [if_neg (by decide)]
  simp only [modRl, wp_bind, wp_modify, wp_pure]
  have hfree : FreeInv s2 own2 fun _ => z :: xs := h2.perm fun o => by cases o <;> simp
  refine ⟨trivial, own2, k, k', b, b', hfree.recount, hk1.trans hk2, ?_⟩
  rw [hrl2, hrpz, hrl1]
  simp [setLevel, setPtr, setRegion]

/-! ## Asking for an extent -/

structure BestFit (rl : RegionList) (xs : List Nat) (extent r : Nat) : Prop where
  mem : r ∈ xs
  enough : extent ≤ (rl.rp r).getExtent
  least : ∀ x ∈ xs, extent ≤ (rl.rp x).getExtent → (rl.rp r).getExtent < (rl.rp x).getExtent ∨
    (rl.rp r).getExtent = (rl.rp x).getExtent ∧ (rl.rp r).offset ≤ (rl.rp x).offset

theorem findExtent_spec (h : FreeInv s own fun _ => xs) (hs : Sentinels s.rl) (hoff : ∀ x ∈ xs, 0 ≤ (s.rl.rp x).offset)
    (hx : x ∈ xs) (hxe : extent ≤ (s.rl.rp x).getExtent) :
    wp (findExtent extent) (fun r s' => s' = s ∧ BestFit s.rl xs extent r) s := by
  obtain ⟨zs, ht, hl, hp⟩ := h.list .extent
  have htl : before .extent extent (-1) (s.rl.rp RL_FEXT_TL) = false := by
    have hlt := hl.lt_tail x (hp.mem_iff.2 hx)
    have h0 := hs.extTail.2
    rw [before_extent] at hlt
    simp only [tail] at hlt
    simp only [before, decide_eq_false_iff_not]
    omega
  obtain ⟨upd, hsearch, -⟩ := search_spec hl htl
  simp only [findExtent, searchExtent, wp_bind, wp_read, hsearch, wp_ofOption_some, wp_pure]
  have hup : ∀ y ∈ xs, extent ≤ (s.rl.rp y).getExtent → y ∈ upper .extent s.rl extent (-1) zs := by
    intro y hy hye
    refine List.mem_filter.2 ⟨hp.mem_iff.2 hy, ?_⟩
    simp only [before, Bool.not_eq_true', decide_eq_false_iff_not]
    have := hoff y hy
    omega
  have hsorted := hl.sorted.sublist (List.filter_sublist (p := fun x => !before .extent extent (-1) (s.rl.rp x)))
  cases hl' : upper .extent s.rl extent (-1) zs with
  | nil =>
    have hxu := hup x hx hxe
    rw [hl'] at hxu
    cases hxu
  | cons y ys =>
    obtain ⟨hy, hny⟩ := List.mem_filter.1 (by rw [hl']; exact mem_cons_self : y ∈ upper .extent s.rl extent (-1) zs)
    simp only [before, Bool.not_eq_true', decide_eq_false_iff_not] at hny
    rw [List.headD_cons]
    refine ⟨trivial, hp.mem_iff.1 hy, by omega, fun w hw hwe => ?_⟩
    have hwu := hup w hw hwe
    change (upper .extent s.rl extent (-1) zs).Pairwise _ at hsorted
    rw [hl'] at hwu hsorted
    rcases mem_cons.1 hwu with rfl | hwu
    · exact .inr ⟨rfl, le_refl _⟩
    · have hb := (List.pairwise_cons.1 hsorted).1 w hwu
      rw [before_extent] at hb
      omega

theorem recalculateMaxFreeExtent_spec (h : FreeInv s own fun _ => xs) (hs : Sentinels s.rl) :
    wp recalculateMaxFreeExtent (fun r s' => s' = s ∧ IsMax s.rl xs r) s := by
  obtain ⟨zs, ht, hl, hp⟩ := h.list .extent
  have hlow : lower .extent s.rl (s.rl.rp RL_FEXT_TL).getExtent (s.rl.rp RL_FEXT_TL).offset zs = zs :=
    List.filter_eq_self.2 hl.lt_tail
  have htl : before .extent (s.rl.rp RL_FEXT_TL).getExtent (s.rl.rp RL_FEXT_TL).offset
      (s.rl.rp RL_FEXT_TL) = false := by
    simp [before]
  obtain ⟨upd, hsearch, hupd⟩ := search_spec hl htl
  rw [hlow] at hupd
  have h0 : upd 0 = zs.getLastD RL_FEXT_HD := by
    rw [hupd 0 (Nat.zero_le _), lastBefore, onLevel_zero]
    rfl
  simp only [recalculateMaxFreeExtent, findPrevExtent, searchExtent, wp_bind, wp_read, hsearch,
    wp_ofOption_some, wp_pure, h0]
  refine ⟨trivial, ?_⟩
  have hmem : ∀ x, x ∈ xs ↔ x ∈ zs := fun x => hp.mem_iff.symm
  have hmax : IsMax s.rl zs (s.rl.rp (zs.getLastD RL_FEXT_HD)).getExtent := by
    rcases List.eq_nil_or_concat' zs with rfl | ⟨ys, y, rfl⟩
    · exact ⟨nofun, .inl hs.extHead⟩
    · rw [getLastD_append]
      refine ⟨fun x hx => ?_, .inr ⟨y, by simp, rfl⟩⟩
      rcases List.mem_append.1 hx with hx | hx
      · have hb := (List.pairwise_append.1 hl.sorted).2.2 x hx y mem_cons_self
        rw [before_extent] at hb
        simp only [List.getLastD_cons, List.getLastD_nil]
        omega
      · obtain rfl := List.mem_singleton.1 hx
        exact Nat.le_refl _
  exact hmax.congr hmem fun _ _ => rfl

theorem RlInv.taken (h : RlInv s own D xs [] em C) {r : Nat} (hr : r ∈ xs) (hfree : FreeInv s' own' fun _ => xs.erase r)
    (hlev : Leveled s.rl s'.rl) (m e : Nat) :
    RlInv { s' with rl := { s'.rl with
      nfree := sizeSub s'.rl.nfree 1, maxfextent := m, nelems := s'.rl.nelems + 1, maxelems := e } } own' D
      (xs.erase r) [r] em C := by
  obtain ⟨tl, hs⟩ := h.shape
  obtain ⟨k, k', hrl⟩ := hlev
  have hlen := List.length_pos_of_mem hr
  constructor
  case free => exact hfree.recount
  case shape =>
    refine ⟨tl, (hs.relink ?_).repart ?_⟩
    · rw [hrl]
      exact ⟨⟨rfl, rfl, rfl⟩, rfl, fun _ => ⟨rfl, rfl⟩, fun _ _ => rfl⟩
    · rw [List.append_nil]
      exact (List.perm_append_singleton r _).trans (List.perm_cons_erase hr).symm
  case nfree =>
    have hn := h.nfree
    simp only [hrl, List.length_erase_of_mem hr]
    rw [sizeSub_of_le (by omega)]
    omega
  case nempty =>
    simp only [hrl]
    exact h.nempty
  case nelems =>
    have hn := h.nelems
    simp only [hrl, List.nil_append, List.cons_append, length_cons] at hn ⊢
    rw [hn]
    rfl

/-- **Taking** the best of the free regions of at least an extent. -/
theorem get_spec (h : RlInv s own D xs [] em C) (hmax : IsMax s.rl xs s.rl.maxfextent) (hpos : 0 < extent) :
    wp (get extent) (fun r s' => r = RL_NONE ∧ s' = s ∧ (∀ x ∈ xs, (s.rl.rp x).getExtent < extent) ∨
      BestFit s.rl xs extent r ∧ ∃ own', RlInv s' own' D (xs.erase r) [r] em C ∧
        IsMax s'.rl (xs.erase r) s'.rl.maxfextent ∧ Keeps IsTime s.fb own s'.fb own' ∧ s'.rl.rp = s.rl.rp ∧
        Kept s.rl s'.rl C) s := by
  obtain ⟨tl, hs⟩ := h.shape
  simp only [get, wp_bind, wp_read]
  split
  case isTrue hlt =>
    rw [wp_pure]
    exact .inl ⟨rfl, rfl, fun x hx => Nat.lt_of_le_of_lt (hmax.1 x hx) hlt⟩
  case isFalse hge =>
    obtain ⟨x, hx, hxe⟩ : ∃ x ∈ xs, (s.rl.rp x).getExtent = s.rl.maxfextent := hmax.2.resolve_left (by omega)
    have hoff : ∀ y ∈ xs, 0 ≤ (s.rl.rp y).offset := fun y hy => (hs.bounds (hs.free_mem hy)).1
    refine (findExtent_spec h.free hs.sentinels hoff hx (by omega)).bind ?_
    rintro r s1 ⟨hs1, hbest⟩
    obtain rfl := hs1.symm
    have hr := hbest.mem
    have hslot := hs.mem_slots (List.mem_append_left em (hs.free_mem hr))
    have hsmall := hs.hash.small
    have hnot : ¬(r = RL_FEXT_TL ∨ r = RL_NONE) := by
      simp only [RL_EMPTY_HD, RL_FREE_OVERHEAD, RL_FEXT_TL] at hslot hsmall ⊢
      omega
    rw [if_neg hnot]
    refine h.free.deleteBoth hr ?_
    intro s2 own2 hfree hkeep hlev
    have hlev' := hlev
    obtain ⟨k, k', hrl⟩ := hlev'
    have hrp : s2.rl.rp = s.rl.rp := by rw [hrl]
    have hmf : s2.rl.maxfextent = s.rl.maxfextent := by rw [hrl]
    have hkept : Kept s.rl s2.rl C := by
      rw [hrl]
      exact ⟨rfl, rfl, rfl, fun _ _ => rfl⟩
    simp only [modRl, wp_bind, wp_modify, wp_read]
    split
    case isTrue heq =>
      refine (recalculateMaxFreeExtent_spec hfree.recount (hs.sentinels.congr fun x _ => by simp [hrp])).bind ?_
      rintro e s3 ⟨hs3, hm⟩
      obtain rfl := hs3.symm
      simp only [wp_bind, wp_modify, wp_pure]
      exact .inr ⟨hbest, own2, h.taken hr hfree hlev e _, hm, hkeep, hrp,
        ⟨hkept.nalloc, hkept.nchains, hkept.nbytes, hkept.rp⟩⟩
    case isFalse hne =>
      simp only [wp_bind, wp_modify, wp_pure]
      refine .inr ⟨hbest, own2, h.taken hr hfree hlev _ _, ?_, hkeep, hrp,
        ⟨hkept.nalloc, hkept.nchains, hkept.nbytes, hkept.rp⟩⟩
      simp only [hrp, hmf] at hne ⊢
      refine ⟨fun x hx => hmax.1 x (List.mem_of_mem_erase hx), hmax.2.imp_right fun ⟨y, hy, hye⟩ => ⟨y, ?_, hye⟩⟩
      have hyr : y ≠ r := by
        intro e
        rw [e] at hye
        exact hne hye
      exact (List.mem_erase_of_ne hyr).2 hy

/-! ## New regions -/

/-- The unused slot `z` can become a free region next to `xs`. -/
structure Vacant (rl : RegionList) (xs em : List Nat) (z : Nat) (offset : Int) (extent : Nat) : Prop where
  chain : Chain (fun x => (rl.rp x).next) rl.empty (z :: em) RL_NONE
  ne_none : z ≠ RL_NONE
  not_mem : ∀ o : FreeOrder, z ∉ o.hd :: o.tail :: xs
  length : xs.length < rl.nalloc
  offset_ne : ∀ x ∈ xs, (rl.rp x).offset ≠ offset
  before_tail : ∀ (o : FreeOrder) (b b' : Nat), o.Before ⟨offset, extent, b, b'⟩ (rl.rp o.tail)
  pos : 0 < rl.nempty
  counts : rl.nelems + rl.nfree + rl.nempty = rl.nalloc

def placed (rl : RegionList) (z : Nat) (offset : Int) (extent : Nat) : RegionList :=
  setRegion { rl with
    empty := (rl.rp z).next
    nempty := sizeSub rl.nempty 1
    minempty := if sizeSub rl.nempty 1 < rl.minempty then sizeSub rl.nempty 1 else rl.minempty }
    z { rl.rp z with offset := offset, extent := extent }

theorem Vacant.placed {offset : Int} (hv : Vacant s.rl xs em z offset extent) (h : FreeInv s own fun _ => xs) :
    FreeInv { s with rl := placed s.rl z offset extent } own (fun _ => xs) ∧
      ∀ o : FreeOrder, Insertable o (placed s.rl z offset extent) xs z := by
  have hz' : ∀ o : FreeOrder, ∀ x ∈ o.hd :: o.tail :: xs, x ≠ z := fun o x hx e => hv.not_mem o (e ▸ hx)
  refine ⟨h.frame ?_ ?_ ?_ ?_, fun o => ⟨hv.not_mem o, hv.length, ?_, ?_⟩⟩
  · intro o
    cases o <;> rfl
  · intro o
    cases o <;> rfl
  · rfl
  · intro o x hx
    rw [RegionList.placed, setRegion_rp, update_of_ne (hz' o x hx)]
    exact ⟨rfl, .refl _ _⟩
  · intro x hx
    simp only [RegionList.placed, setRegion_rp, update_self,
      update_of_ne (hz' .offset x (by simp [hx]))]
    exact hv.offset_ne x hx
  · simp only [RegionList.placed, setRegion_rp, update_self, update_of_ne (hz' o _ (by simp) : o.tail ≠ z)]
    exact hv.before_tail o _ _

/-- **Adding** a free region in an unused slot. -/
theorem add_spec (h : FreeInv s own fun _ => xs) {offset : Int}
    (hv : Vacant s.rl xs em z offset extent) :
    wp (add offset extent) (fun r s' => r = some z ∧ ∃ own' b b', FreeInv s' own' (fun _ => z :: xs) ∧
      Keeps IsTime s.fb own s'.fb own' ∧ s'.rl = { setRegion s.rl z ⟨offset, extent, b, b'⟩ with
        empty := (s.rl.rp z).next, nempty := s.rl.nempty - 1, nfree := s.rl.nfree + 1, minempty := s'.rl.minempty,
        maxfree := s'.rl.maxfree, levelFoff := s'.rl.levelFoff, levelFext := s'.rl.levelFext }) s := by
  have hz0 : s.rl.empty = z := hv.chain.1
  have hcount := hv.counts
  have hpos := hv.pos
  simp only [add, getEmptyRegion, wp_bind, wp_read, hz0]
  rw [if_neg hv.ne_none]
  simp only [modRl, wp_bind, wp_modify, wp_pure]
  rw [if_neg hv.ne_none]
  simp only [wp_bind, wp_read, wp_assert, wp_modify]
  refine ⟨by omega, ?_⟩
  rw [← wp_bind]
  obtain ⟨hfree, he⟩ := hv.placed h
  refine (releaseRegion_spec hfree he).bind ?_
  rintro r s1 ⟨hr, own1, k, k', b, b', h1, hkeep, hrl⟩
  subst hr
  rw [if_neg (by decide)]
  simp only [wp_bind, wp_modify, wp_read, wp_assert, wp_pure]
  refine ⟨?_, trivial, own1, b, b', h1.recount, hkeep, ?_⟩
  · rw [hrl]
    simp only [placed, setRegion, sizeSub_of_le hpos]
    omega
  · rw [hrl]
    simp [placed, setRegion, sizeSub_of_le hpos]

structure Cut (rl rl' : RegionList) (x z extent : Nat) : Prop extends SameTable rl rl' where
  nelems : rl'.nelems = rl.nelems
  nbytes : rl'.nbytes = rl.nbytes
  empty : rl'.empty = (rl.rp z).next
  nempty : rl'.nempty = rl.nempty - 1
  nfree : rl'.nfree = rl.nfree + 1
  maxfextent : rl'.maxfextent = max rl.maxfextent ((rl.rp x).getExtent - extent)
  low : (rl'.rp x).offset = (rl.rp x).offset ∧ (rl'.rp x).extent = extent
  high : (rl'.rp z).offset = (rl.rp x).offset + extent ∧ (rl'.rp z).extent = (rl.rp x).getExtent - extent
  other : ∀ y, y ≠ x → y ≠ z → rl'.rp y = rl.rp y

theorem RlInv.vacant (h : RlInv s own D xs [x] (z :: em) C)
    (hlt : extent < (s.rl.rp x).getExtent) :
    Vacant s.rl xs em z ((s.rl.rp x).offset + extent) ((s.rl.rp x).getExtent - extent) := by
  obtain ⟨tl, hs⟩ := h.shape
  have hxt := hs.hand_mem (x := x) (by simp)
  have hxb := hs.bounds hxt
  have hzslot := hs.mem_slots (List.mem_append_right tl mem_cons_self : z ∈ _)
  have hsmall := hs.hash.small
  have hxxs : x ∉ xs := fun hm => (nodup_append.1 hs.part_nodup).2.2 x hm x (by simp) rfl
  constructor
  case chain => exact hs.empty
  case ne_none => omega
  case not_mem =>
    intro o hm
    have hns := hs.not_sentinel (List.mem_append_right tl mem_cons_self : z ∈ _) o
    simp only [mem_cons] at hm
    rcases hm with e | e | hm
    · exact hns.1 e
    · exact hns.2 e
    · exact hs.empty_not_mem (z := z) mem_cons_self (hs.free_mem hm)
  case length =>
    have h1 := hs.length
    have h2 := hs.part.length_eq
    simp only [List.length_append, length_cons, List.length_nil] at h1 h2
    omega
  case offset_ne =>
    -- no free region lies where the rest begins
    intro y hy e
    have hsep := hs.tiles.apart hxt (hs.free_mem hy) fun e => hxxs (e ▸ hy)
    have := (hs.bounds (hs.free_mem hy)).2.1
    omega
  case before_tail =>
    intro o b b'
    refine hs.sentinels.before_tail o (by show 0 ≤ (s.rl.rp x).offset + extent; omega) ?_
    show (s.rl.rp x).offset + extent + (((s.rl.rp x).getExtent - extent) / 2 * 2 : Nat) < _
    omega
  case pos =>
    have := h.nempty
    simp only [length_cons] at this
    omega
  case counts => exact h.counts

/-- **Splitting** a region: the rest becomes a free region. -/
theorem split_spec (h : RlInv s own D xs [x] (z :: em) C)
    (hlt : extent < (s.rl.rp x).getExtent) (hev : extent % 2 = 0) :
    wp (split x extent) (fun r s' => r = 0 ∧ ∃ own', FreeInv s' own' (fun _ => z :: xs) ∧
      Keeps IsTime s.fb own s'.fb own' ∧ Cut s.rl s'.rl x z extent) s := by
  obtain ⟨tl, hs⟩ := h.shape
  have hxf : (s.rl.rp x).isAlloc = false := hs.even x (by simp)
  have hxt := hs.hand_mem (x := x) (by simp)
  have hzem := hs.empty_not_mem (z := z) mem_cons_self
  have hfree : (s.rl.rp x).isFree = true := by rw [Region.isFree, hxf]; rfl
  simp only [split, wp_bind, wp_read, wp_assert]
  refine ⟨hfree, Nat.le_of_lt hlt, ?_⟩
  have hxxs : x ∉ xs := fun hm => (nodup_append.1 hs.part_nodup).2.2 x hm x (by simp) rfl
  have hzx : z ≠ x := fun e => hzem (e ▸ hxt)
  have hrem : ∀ b b', (Region.mk ((s.rl.rp x).offset + extent) ((s.rl.rp x).getExtent - extent) b b').getExtent =
      (s.rl.rp x).getExtent - extent := by
    intro b b'
    simp only [Region.getExtent]
    omega
  refine (add_spec h.free (h.vacant hlt)).mono ?_
  rintro r s1 ⟨hr, own1, b, b', h1, hkeep, hrl⟩
  subst hr
  have hrp : s1.rl.rp = update s.rl.rp z ⟨(s.rl.rp x).offset + extent, (s.rl.rp x).getExtent - extent, b, b'⟩ := by
    rw [hrl]
    rfl
  have hz1 : s1.rl.rp z = ⟨(s.rl.rp x).offset + extent, (s.rl.rp x).getExtent - extent, b, b'⟩ := by
    rw [hrp, update_self]
  have hx1 : s1.rl.rp x = s.rl.rp x := by rw [hrp, update_of_ne hzx.symm]
  have hne : ∀ (o : FreeOrder), ∀ y ∈ o.hd :: o.tail :: z :: xs, y ≠ x := by
    intro o y hy e
    have hns := hs.not_sentinel (List.mem_append_left (z :: em) hxt) o
    simp only [mem_cons] at hy
    rcases hy with hy | hy | hy | hy
    · exact hns.1 (e.symm.trans hy)
    · exact hns.2 (e.symm.trans hy)
    · exact hzx (hy.symm.trans e)
    · exact hxxs (e ▸ hy)
  simp only [wp_bind, wp_read, wp_assert, modRl, wp_modify, wp_pure]
  refine ⟨?_, trivial, own1, ?_, hkeep, ?_⟩
  · rw [hz1, Region.isFree, isAlloc_eq_false.2 (by rw [← hrem b b']; simp only [Region.getExtent]; omega)]
    rfl
  · refine h1.frame ?_ ?_ rfl fun o y hy => ?_
    · intro o
      cases o <;> rfl
    · intro o
      cases o <;> rfl
    · simp only [setRegion_rp]
      rw [update_of_ne (hne o y hy)]
      exact ⟨rfl, .refl _ _⟩
  · constructor
    case toSameTable =>
      rw [hrl]
      exact ⟨rfl, rfl, rfl⟩
    case maxfextent =>
      have hmf : s1.rl.maxfextent = s.rl.maxfextent := by
        rw [hrl]
        rfl
      simp only [hmf]
      split <;> omega
    case low => simp [hx1]
    case high => simp [hzx, hz1]
    case other =>
      intro y hyx hyz
      simp [hyx, hyz, hrp]
    all_goals
      rw [hrl]
      rfl

section Cut

variable {x z extent : Nat}

theorem Cut.low_extent (hc : Cut rl rl' x z extent) (hev : extent % 2 = 0) : (rl'.rp x).getExtent = extent := by
  rw [Region.getExtent, hc.low.2]
  omega

theorem Cut.high_extent (hc : Cut rl rl' x z extent) (hev : extent % 2 = 0) :
    (rl'.rp z).getExtent = (rl.rp x).getExtent - extent := by
  rw [Region.getExtent, hc.high.2, Region.getExtent]
  omega

theorem Cut.inv (hc : Cut s.rl s'.rl x z extent) (h : RlInv s own D xs [x] (z :: em) C)
    (hfree : FreeInv s' own' fun _ => z :: xs) (hpos : 0 < extent) (hlt : extent < (s.rl.rp x).getExtent)
    (hal : D.align ∣ extent) : RlInv s' own' D (z :: xs) [x] em C := by
  obtain ⟨tl, hs⟩ := h.shape
  have hev : extent % 2 = 0 := Nat.mod_eq_zero_of_dvd (D.align_even.trans hal)
  have hlow := hc.low_extent hev
  have hhigh := hc.high_extent hev
  constructor
  case free => exact hfree
  case shape =>
    refine hs.cut (by simp) hc.toSameTable hc.empty hc.other hc.low.1 (by omega) ?_ ?_ (by omega) ?_ ?_ ?_
    · rw [isAlloc_eq_false, hc.low.2]
      exact hev
    · rw [hc.high.1, hlow]
    · rw [isAlloc_eq_false, hc.high.2, Region.getExtent]
      omega
    · omega
    · rw [hlow]
      exact Int.natCast_dvd_natCast.2 hal
  case nfree =>
    rw [hc.nfree, h.nfree]
    rfl
  case nempty =>
    rw [hc.nempty, h.nempty]
    rfl
  case nelems =>
    rw [hc.nelems, h.nelems, allocs_congr hc.nchains]

theorem Cut.kept (hc : Cut rl rl' x z extent) (hs : Shape rl D tl xs [x] (z :: em) C) : Kept rl rl' C where
  nalloc := hc.nalloc
  nchains := hc.nchains
  nbytes := hc.nbytes
  rp y hy := hc.other y (hs.alloc_ne (by simp) hy) fun e =>
    hs.empty_not_mem (z := z) mem_cons_self (e ▸ hs.alloc_mem hy)

theorem Cut.isMax (hc : Cut rl rl' x z extent) (hmax : IsMax rl xs rl.maxfextent) (hev : extent % 2 = 0)
    (hx : x ∉ xs) (hz : z ∉ xs) : IsMax rl' (z :: xs) rl'.maxfextent := by
  have hhigh := hc.high_extent hev
  have hother : ∀ y ∈ xs, rl'.rp y = rl.rp y := fun y hy => hc.other y (fun e => hx (e ▸ hy)) fun e => hz (e ▸ hy)
  rw [hc.maxfextent]
  constructor
  · intro y hy
    rcases mem_cons.1 hy with rfl | hy
    · rw [hhigh]
      exact Nat.le_max_right _ _
    · rw [hother y hy]
      exact Nat.le_trans (hmax.1 y hy) (Nat.le_max_left _ _)
  · rcases Nat.le_total rl.maxfextent ((rl.rp x).getExtent - extent) with hle | hle
    · exact .inr ⟨z, mem_cons_self, by rw [hhigh, Nat.max_eq_right hle]⟩
    · rw [Nat.max_eq_left hle]
      refine hmax.2.imp_right fun ⟨y, hy, hye⟩ => ⟨y, List.mem_cons_of_mem _ hy, ?_⟩
      rw [hother y hy, hye]

theorem Cut.noAdj (hc : Cut rl rl' x z extent) (hs : Shape rl D tl xs [x] (z :: em) C) (hadj : NoAdj rl (x :: xs))
    (hlt : extent < (rl.rp x).getExtent) (hpos : 0 < extent) (hev : extent % 2 = 0) : NoAdj rl' (z :: xs) := by
  have hhigh := hc.high_extent hev
  have hxt := hs.hand_mem (x := x) (by simp)
  have hx : x ∉ xs := fun hm => (nodup_append.1 hs.part_nodup).2.2 x hm x (by simp) rfl
  have hother : ∀ y ∈ xs, rl'.rp y = rl.rp y := fun y hy => hc.other y (fun e => hx (e ▸ hy)) fun e =>
    hs.empty_not_mem (z := z) mem_cons_self (e ▸ hs.free_mem hy)
  intro a ha b hb e
  rcases mem_cons.1 ha with haz | ha'
  · rcases mem_cons.1 hb with hbz | hb'
    · rw [haz, hbz] at e
      omega
    · rw [haz, hother b hb', hhigh, hc.high.1] at e
      refine hadj x mem_cons_self b (List.mem_cons_of_mem _ hb') ?_
      omega
  · rcases mem_cons.1 hb with hbz | hb'
    · rw [hbz, hother a ha', hc.high.1] at e
      have hap := hs.tiles.apart hxt (hs.free_mem ha') fun e => hx (e ▸ ha')
      have := hs.bounds (hs.free_mem ha')
      omega
    · rw [hother a ha', hother b hb'] at e
      exact hadj a (List.mem_cons_of_mem _ ha') b (List.mem_cons_of_mem _ hb') e

end Cut

/-! ## Regions in use -/

theorem RlInv.rehash (h : RlInv s own D xs hand em C) {hand' : List Nat} {C' : Nat → List Nat} (hH : HashInv rl' C')
    (hf : rl' = { s.rl with rp := rl'.rp, chains := rl'.chains, nbytes := rl'.nbytes })
    (hkey : ∀ y, (rl'.rp y).offset = (s.rl.rp y).offset ∧ (rl'.rp y).getExtent = (s.rl.rp y).getExtent)
    (hout : ∀ y, y ∉ hand ++ allocs s.rl C → rl'.rp y = s.rl.rp y)
    (hpart : (hand' ++ allocs rl' C').Perm (hand ++ allocs s.rl C)) (heven : ∀ y ∈ hand', (rl'.rp y).isAlloc = false)
    (hmarked : ∀ y ∈ allocs rl' C', (rl'.rp y).isAlloc = true) : RlInv ⟨rl', s.fb⟩ own D xs hand' em C' := by
  obtain ⟨tl, hs⟩ := h.shape
  have hmem : ∀ y ∈ hand ++ allocs s.rl C, y ∈ tl := fun y hy => hs.part.mem_iff.2 (List.mem_append_right _ hy)
  have hfree : ∀ y ∈ xs, y ∉ hand ++ allocs s.rl C := fun y hy hm =>
    (nodup_append.1 hs.part_nodup).2.2 y hy y hm rfl
  have hfields : ∀ o : FreeOrder, o.level rl' = o.level s.rl ∧ o.head rl' = o.head s.rl := by
    intro o
    rw [hf]
    cases o <;> exact ⟨rfl, rfl⟩
  constructor
  case free =>
    refine h.free.frame (fun o => (hfields o).1) (fun o => (hfields o).2) (by rw [hf]) fun o y hy => ?_
    rw [hout y ?_]
    · exact ⟨rfl, .refl _ _⟩
    · intro hm
      have hns := hs.not_sentinel (List.mem_append_left em (hmem y hm)) o
      simp only [mem_cons] at hy
      rcases hy with e | e | hy
      · exact hns.1 e
      · exact hns.2 e
      · exact hfree y hy hm
  case shape =>
    refine ⟨tl, hs.rehash hH (by rw [hf]) (by rw [hf]) hkey (fun y hy => hout y fun hm => ?_) hpart heven hmarked⟩
    rcases List.mem_append.1 hy with hy | hy
    · exact hfree y hy hm
    · exact hs.empty_not_mem hy (hmem y hm)
  case nfree =>
    rw [hf]
    exact h.nfree
  case nempty =>
    rw [hf]
    exact h.nempty
  case nelems =>
    rw [hpart.length_eq, ← h.nelems, hf]

theorem setAlloc_getExtent (r : Region) : r.setAlloc.getExtent = r.getExtent := by
  simp only [Region.setAlloc, Region.getExtent]
  omega

theorem setAlloc_isAlloc (r : Region) : r.setAlloc.isAlloc = true := by
  simp [Region.setAlloc, Region.isAlloc, Region.getExtent]

theorem setAllocated_spec (h : RlInv s own D xs [x] em C) :
    wp (setAllocated x) (fun _ s' => s'.fb = s.fb ∧ ∃ C', RlInv s' own D xs [] em C' ∧
      (allocs s'.rl C').Perm (x :: allocs s.rl C) ∧
      (∀ y, (s'.rl.rp y).offset = (s.rl.rp y).offset ∧ (s'.rl.rp y).getExtent = (s.rl.rp y).getExtent) ∧
      s'.rl.nalloc = s.rl.nalloc ∧ s'.rl.nbytes = s.rl.nbytes ∧ s'.rl.maxfextent = s.rl.maxfextent) s := by
  obtain ⟨tl, hs⟩ := h.shape
  have hxt := hs.hand_mem (x := x) (by simp)
  have hxa : x ∉ allocs s.rl C := fun hm => hs.alloc_ne (by simp) hm rfl
  have hother : ∀ y, y ≠ x → (setRegion s.rl x (s.rl.rp x).setAlloc).rp y = s.rl.rp y := fun y hy =>
    update_of_ne hy _ _
  have hne : ∀ y ∈ allocs s.rl C, (setRegion s.rl x (s.rl.rp x).setAlloc).rp y = s.rl.rp y := fun y hy =>
    hother y (hs.alloc_ne (by simp) hy)
  have hself : (setRegion s.rl x (s.rl.rp x).setAlloc).rp x = (s.rl.rp x).setAlloc := update_self _ _ _
  have hlen : (allocs s.rl C).length < s.rl.nalloc := by
    have h1 := hs.length
    have h2 := hs.part.length_eq
    simp only [List.length_append, length_cons, List.length_nil] at h1 h2
    omega
  rw [setAllocated, modRl, wp_bind, wp_modify]
  refine (addToHash_spec (s := ⟨setRegion s.rl x (s.rl.rp x).setAlloc, s.fb⟩) (hs.hash.same ⟨rfl, rfl, rfl⟩ hne) ?_ hxa
    (hs.mem_slots (List.mem_append_left em hxt)).2 hlen ?_).mono ?_
  · intro y hy
    exact (congrArg Region.isAlloc (hne y hy)).trans (hs.marked y hy)
  · exact (congrArg Region.isAlloc hself).trans (setAlloc_isAlloc _)
  · rintro _ s2 ⟨hfb, hsame, C', hH2, hperm⟩
    have hperm' : (allocs s2.rl C').Perm (x :: allocs s.rl C) := hperm
    have hkey : ∀ y, (s2.rl.rp y).offset = (s.rl.rp y).offset ∧ (s2.rl.rp y).getExtent = (s.rl.rp y).getExtent := by
      intro y
      rw [Region.getExtent, (hsame.key y).1, (hsame.key y).2]
      by_cases hy : y = x
      · rw [hy, hself]
        exact ⟨rfl, setAlloc_getExtent _⟩
      · rw [hother y hy]
        exact ⟨rfl, rfl⟩
    have hinv : RlInv ⟨s2.rl, s.fb⟩ own D xs [] em C' := by
      refine h.rehash hH2 ?_ hkey (fun y hy => ?_) (by simpa using hperm') (fun _ h => by cases h) fun y hy => ?_
      · have hf := hsame.fields
        rw [hf]
        rfl
      · have hy' : y ∉ x :: allocs s.rl C := hy
        rw [hsame.rest y hy']
        exact hother y fun e => hy' (e ▸ mem_cons_self)
      · rw [Region.isAlloc, (hsame.key y).2]
        rcases mem_cons.1 (hperm'.mem_iff.1 hy) with rfl | hya
        · exact (congrArg Region.isAlloc hself).trans (setAlloc_isAlloc _)
        · exact (congrArg Region.isAlloc (hne y hya)).trans (hs.marked y hya)
    have hs2 : s2 = ⟨s2.rl, s.fb⟩ := by
      cases s2
      rw [← hfb]
    refine ⟨hfb, C', by rw [hs2]; exact hinv, hperm', hkey, ?_, ?_, ?_⟩
    · rw [hsame.fields]
      rfl
    · rw [hsame.fields]
      rfl
    · rw [hsame.fields]
      rfl

end RegionList

end Rdm
