import Rdm.Pq.Consistency
import Rdm.Pq.RegionRuns

/-!
# When the arena is exhausted

When `FreeBlock::Get` fails, `RegionList::Add` undoes what it has done, so `Split` leaves the index as it was.
`TimeQueue::Add` loses the element that it has taken, `RegionList::Free` the region.
-/

namespace Rdm

open ProgLogic ProgLogic.Prog FreeBlock SkipList Links Transitions QueueIndexManager SignatureIndex List
open RegionList (FreeInv IsMax IsTime ListInv NoAdj RlInv Shape add allocs free split)

/-! ## The free lists -/

variable {extent : Nat}

namespace RegionList

variable {s s' : RlFb} {own : Nat → Owner Holder} {D : DataSection} {L : FreeOrder → List Nat} {xs hand em : List Nat}
  {C : Nat → List Nat} {z : Nat}

theorem silent_deleteFrom (o : FreeOrder) (rlix : Nat) : Silent (deleteFrom o rlix) := by
  refine silent_read.bind fun s => silent_ofOption.bind fun _ => silent_ite ?_ silent_pure
  exact silent_modify.bind fun _ => (silent_release _ _).zoom.bind fun _ => silent_read.bind fun _ => silent_modify

theorem ListInv.raise {o : FreeOrder} {zs : List Nat} {ht : Nat → Nat} (h : ListInv o s own zs ht) {m : Nat}
    (hl : o.level s.rl ≤ m) (hm : m < s.fb.maxsize) : ListInv o { s with rl := o.setLevel s.rl m } own zs ht where
  skip := by
    simp only [FreeOrder.level_setLevel, FreeOrder.setLevel_rp]
    exact IsSkip.raise h.skip hl (by omega)
  sorted := by simpa using h.sorted
  lt_tail := by simpa using h.lt_tail
  head := by simpa using h.head
  length := by simpa using h.length

theorem FreeInv.raise (h : FreeInv s own L) (o : FreeOrder) {m : Nat} (hl : o.level s.rl ≤ m) (hm : m < s.fb.maxsize) :
    FreeInv { s with rl := o.setLevel s.rl m } own L := by
  refine ⟨h.pool, fun o' => ?_⟩
  obtain ⟨zs, ht, hi, hp⟩ := h.list o'
  refine ⟨zs, ht, ?_, hp⟩
  by_cases ho : o' = o
  · subst ho
    exact hi.raise hl hm
  · refine hi.frame (Keeps.refl _ _ _) (level_setLevel_ne ho _ _) ?_ ?_ ?_ ?_ <;> simp [FreeOrder.SameKey]

theorem FreeInv.reseed (h : FreeInv s own L) {fb : FreeBlock} (hpool : Inv fb own) (hmax : fb.maxsize = s.fb.maxsize)
    (hcells : fb.fblks = s.fb.fblks) : FreeInv { s with fb := fb } own L := by
  refine ⟨hpool, fun o => ?_⟩
  obtain ⟨zs, ht, hl, hp⟩ := h.list o
  refine ⟨zs, ht, hl.frame ⟨hmax, fun c k _ hc => ⟨hc, by rw [hcells]⟩⟩ rfl rfl rfl (fun _ _ => rfl) fun _ _ => ?_, hp⟩
  exact .refl _ _

/-- **A region that finds no block** for a free list: only the level of the list and the region itself have changed. -/
theorem FreeInv.addTo_warns (h : FreeInv s own L) (o : FreeOrder) (he : Insertable o s.rl (L o) z) :
    warns (addTo o z) (fun r s' => r ≠ 0 ∧ FreeInv s' own L ∧ Keeps IsTime s.fb own s'.fb own ∧
      ∃ k, s'.rl = setRegion (o.setLevel s.rl k) z (o.setPtr (s.rl.rp z) FBLK_NONE)) s := by
  obtain ⟨zs, ht, hl, hp⟩ := h.list o
  obtain ⟨upd, p, q, -, -, hsearch, -⟩ := hl.place (he.perm hp).offset_ne he.before_tail
  have hlev := hl.skip.level_le
  have hpos : 0 < s.fb.maxsize := by obtain ⟨F, hF⟩ := h.pool; exact hF.pos
  have hrand : wp (onFb getRandomLevel) (fun k t => k < s.fb.maxsize ∧ ∃ fb, t = { s with fb := fb } ∧ Inv fb own ∧
      fb.maxsize = s.fb.maxsize ∧ fb.fblks = s.fb.fblks) s := by
    rw [onFb, wp_zoom]
    exact (getRandomLevel_spec h.pool).mono fun k fb hfb => ⟨hfb.1, fb, rfl, hfb.2⟩
  simp only [addTo, warns_read, hsearch, warns_some]
  refine hrand.warns_bind silent_getRandomLevel.zoom ?_
  rintro k _ ⟨hk, fb, rfl, hpool, hmax, hcells⟩
  have hk' : max (o.level s.rl) (if o.level s.rl < k then o.level s.rl + 1 else k) < fb.maxsize := by split <;> omega
  rw [modRl, warns_modify]
  -- a block that is found is linked in without a warning
  refine warns.seq ?_ fun b s' =>
    Silent.warns (silent_modify.bind fun _ => silent_ite silent_pure (silent_modify.bind fun _ => silent_pure))
  rw [onFb, warns_zoom]
  refine (get_warns (lt_of_le_of_lt (le_max_right _ _) hk')).mono ?_
  rintro b fb2 ⟨rfl, rfl, -⟩
  simp only [modRl, ends_bind, ends_modify, if_true, ends_pure]
  refine ⟨by decide, ?_, ⟨hmax, fun c k _ hc => ⟨hc, by rw [hcells]⟩⟩, _, by rw [FreeOrder.setLevel_rp]⟩
  have hraised := (h.reseed hpool hmax hcells).raise o (le_max_left _ _) hk'
  refine hraised.frame (fun o' => level_setRegion _ _ _ _) (fun o' => head_setRegion _ _ _ _) rfl fun o' x hx => ?_
  rw [setRegion_rp]
  by_cases hxz : x = z
  · subst hxz
    have ho : o' ≠ o := fun e => he.not_mem (e ▸ hx)
    rw [Function.update_self, ptr_setPtr_ne ho, FreeOrder.SameKey, Region.getExtent, Region.getExtent]
    simp
  · rw [Function.update_of_ne hxz]
    exact ⟨rfl, .refl _ _⟩

/-- **A region that cannot be put into both free lists** is in none. -/
theorem releaseRegion_warns (h : FreeInv s own fun _ => xs) (he : ∀ o : FreeOrder, Insertable o s.rl xs z) :
    warns (releaseRegion z) (fun r s' => r ≠ 0 ∧ ∃ own' k k' b b', FreeInv s' own' (fun _ => xs) ∧
      Keeps IsTime s.fb own s'.fb own' ∧ s'.rl = { setRegion s.rl z { s.rl.rp z with next := b, prev := b' } with
        levelFoff := k, levelFext := k' }) s := by
  rw [releaseRegion]
  refine warns.bind ((h.addTo_warns .offset (he .offset)).mono ?_) (h.add .offset (he .offset)).wlp ?_
  · rintro r s1 ⟨hr, h1, hk, k, hrl⟩
    rw [if_pos hr, ends_pure]
    exact ⟨hr, own, k, s.rl.levelFext, FBLK_NONE, (s.rl.rp z).prev, h1, hk, hrl⟩
  rintro r s1 ⟨rfl, own1, k, b, h1, hk1, hrl1⟩
  obtain ⟨hrpz, he1⟩ := Insertable.second he hrl1
  rw [if_neg (by decide)]
  refine warns.seq ((h1.addTo_warns .extent he1).mono ?_) fun r s' => Silent.warns <|
    silent_ite ((silent_deleteFrom _ _).bind fun _ => silent_pure) (silent_modify.bind fun _ => silent_pure)
  rintro r s2 ⟨hr, h2, hk2, k', hrl2⟩
  rw [if_pos hr]
  refine wp.ends_bind (h2.delete .offset (x := z) (by simp)) (silent_deleteFrom _ _) ?_
  rintro _ s3 ⟨own3, k3, h3, hk3, hrl3⟩
  rw [ends_pure]
  refine ⟨hr, own3, k3, k', b, FBLK_NONE, h3.perm fun o => ?_, hk1.trans (hk2.trans hk3), ?_⟩
  · cases o <;> simp
  · rw [hrl3, hrl2, hrpz, hrl1]
    simp [FreeOrder.setLevel, FreeOrder.setPtr, setRegion]

/-- A slot was taken, and given back: its link is as before. Levels and the record of the fewest unused slots have
changed. -/
structure Undone (rl rl' : RegionList) (z : Nat) : Prop where
  fields : rl' = { rl with
    rp := rl'.rp, minempty := rl'.minempty, levelFoff := rl'.levelFoff, levelFext := rl'.levelFext }
  other : ∀ y, y ≠ z → rl'.rp y = rl.rp y
  next : (rl'.rp z).next = (rl.rp z).next

theorem silent_getEmptyRegion : Silent getEmptyRegion :=
  silent_read.bind fun _ => silent_ite (silent_assert.bind fun _ => silent_pure)
    (silent_modify.bind fun _ => silent_pure)

theorem silent_releaseEmptyRegion (rlix : Nat) : Silent (releaseEmptyRegion rlix) :=
  silent_read.bind fun _ => silent_assert.bind fun _ => silent_modify

/-- **A region that cannot be added**: the slot is given back. -/
theorem add_warns (h : FreeInv s own fun _ => xs) {offset : Int} (hv : Vacant s.rl xs em z offset extent)
    (hslot : 0 < z ∧ z < s.rl.nalloc + RL_FREE_OVERHEAD) :
    warns (add offset extent) (fun r s' => r = none ∧ Undone s.rl s'.rl z ∧ ∃ own', FreeInv s' own' (fun _ => xs) ∧
      Keeps IsTime s.fb own s'.fb own') s := by
  have hz0 : s.rl.empty = z := hv.chain.1
  have hcount := hv.counts
  have hpos := hv.pos
  have hget : wp getEmptyRegion (fun r t => z = r ∧ t = { s with rl := { s.rl with
      empty := (s.rl.rp z).next
      nempty := sizeSub s.rl.nempty 1
      minempty := if sizeSub s.rl.nempty 1 < s.rl.minempty then sizeSub s.rl.nempty 1 else s.rl.minempty } }) s := by
    simp only [getEmptyRegion, wp_bind, wp_read, hz0, if_neg hv.ne_none, modRl, wp_modify, wp_pure, and_self]
  rw [add]
  refine hget.warns_bind silent_getEmptyRegion ?_
  rintro _ _ ⟨rfl, rfl⟩
  rw [if_neg hv.ne_none, warns_read, warns_assert (by show s.rl.nelems < s.rl.nalloc; omega), modRl, warns_modify]
  obtain ⟨hfree, he⟩ := hv.placed h
  refine warns.bind ((releaseRegion_warns hfree he).mono ?_) (releaseRegion_spec hfree he).wlp ?_
  · rintro r s1 ⟨hr, own1, k, k', b, b', h1, hk, hrl⟩
    have hn : s1.rl.nalloc = s.rl.nalloc := by
      rw [hrl]
      rfl
    have hrel : wp (releaseEmptyRegion z) (fun _ t => t = { s1 with rl := { setRegion s1.rl z
        { s1.rl.rp z with next := s1.rl.empty, offset := -1, extent := 0 } with
        empty := z, nempty := s1.rl.nempty + 1 } }) s1 := by
      simp only [releaseEmptyRegion, wp_bind, wp_read, wp_assert, modRl, wp_modify, and_true, hn]
      exact hslot
    rw [if_pos hr]
    refine hrel.ends_bind (silent_releaseEmptyRegion _) ?_
    rintro _ _ rfl
    rw [ends_pure]
    refine ⟨rfl, ⟨?_, fun y hy => ?_, ?_⟩, own1, ?_, hk⟩
    · have hone : sizeSub s.rl.nempty 1 + 1 = s.rl.nempty := by
        rw [sizeSub_of_le hpos]
        omega
      rw [hrl]
      simp [placed, setRegion, hone, hz0]
    · rw [hrl]
      simp [placed, setRegion, hy]
    · rw [hrl]
      simp [placed, setRegion]
    · refine h1.frame ?_ ?_ rfl fun o x hx => ?_
      · intro o
        cases o <;> rfl
      · intro o
        cases o <;> rfl
      · have hxz : x ≠ z := fun e => hv.not_mem o (e ▸ hx)
        simp only [setRegion_rp]
        rw [Function.update_of_ne hxz]
        exact ⟨rfl, .refl _ _⟩
  · rintro r s1 ⟨rfl, -⟩
    rw [if_neg (by decide)]
    exact Silent.warns <| silent_modify.bind fun _ => silent_read.bind fun _ => silent_assert.bind fun _ => silent_pure

theorem Undone.key {rl rl' : RegionList} (hu : Undone rl rl' z) {y : Nat} (hy : y ≠ z) :
    (rl'.rp y).offset = (rl.rp y).offset ∧ (rl'.rp y).getExtent = (rl.rp y).getExtent := by
  rw [hu.other y hy]
  exact ⟨rfl, rfl⟩

theorem Undone.shape {rl rl' : RegionList} {tl : List Nat} (hu : Undone rl rl' z) (h : Shape rl D tl xs hand em C)
    (hz : z ∈ em) : Shape rl' D tl xs hand em C := by
  have hf := hu.fields
  have htl : ∀ y ∈ tl, rl'.rp y = rl.rp y := fun y hy => hu.other y fun e => h.empty_not_mem hz (e ▸ hy)
  have hslot := (h.mem_slots (mem_append_right tl hz)).1
  refine h.reshape (by rw [hf]; exact ⟨rfl, rfl, rfl⟩) (fun y hy => htl y (h.alloc_mem hy))
    (fun y hy => hu.other y (by omega)) ?_ (h.tiles.congr fun y hy => ?_) h.part (.refl _)
    (fun y hy => ?_) fun y hy => ?_
  · have he : rl'.empty = rl.empty := by rw [hf]
    rw [he]
    refine chain_congr h.empty fun y _ => ?_
    by_cases hy : y = z
    · rw [hy, hu.next]
    · rw [hu.other y hy]
  · rw [htl y hy]
    exact ⟨rfl, rfl⟩
  · have hyt : y ∈ tl := (mem_append.1 hy).elim h.free_mem h.hand_mem
    rw [htl y hyt]
    exact h.even y hy
  · rw [htl y hy]
    exact h.aligned y hy

/-- **A failed `Add` in a region list** leaves the same regions. -/
theorem RlInv.undone {own' : Nat → Owner Holder} (h : RlInv s own D xs hand em C) (hz : z ∈ em)
    (hu : Undone s.rl s'.rl z) (hfree : FreeInv s' own' fun _ => xs) : RlInv s' own' D xs hand em C := by
  obtain ⟨tl, hs⟩ := h.shape
  have hf := hu.fields
  refine ⟨hfree, ⟨tl, hu.shape hs hz⟩, ?_, ?_, ?_⟩
  · rw [hf]
    exact h.nfree
  · rw [hf]
    exact h.nempty
  · have hn : s'.rl.nchains = s.rl.nchains := by rw [hf]
    rw [allocs_congr hn, hf]
    exact h.nelems

end RegionList

/-! ## The index -/

open RlCall (onIx)
open RegionList (Undone)

variable {ω : Type} {D : DataSection} {g : Ghost} {h : Held ω} {A : Space}

/-- **A failed `Add` in an index** leaves the same catalog. -/
theorem QueueIndexManager.IndexInv.undone {s : QueueIndexManager ω} {hand : List Nat} {z : Nat} {t : RlFb}
    {own : Nat → Owner Holder} (h : IndexInv D s g hand) (hz : z ∈ g.em) (hu : Undone s.rl t.rl z)
    (hfree : FreeInv t own fun _ => g.xs) (hk : Keeps IsTime s.fb g.own t.fb own) :
    IndexInv D { s with rl := t.rl, fb := t.fb } { g with own := own } hand ∧
      catalog { s with rl := t.rl, fb := t.fb } { g with own := own } = catalog s g := by
  obtain ⟨tl, hs⟩ := h.regions.shape
  have hf := hu.fields
  have hna : t.rl.nalloc = s.rl.nalloc := by rw [hf]
  have hm : t.rl.maxfextent = s.rl.maxfextent := by rw [hf]
  have hne : ∀ y ∈ tl, y ≠ z := fun y hy e => hs.empty_not_mem hz (e ▸ hy)
  have hkey : ∀ y ∈ g.xs, (t.rl.rp y).offset = (s.rl.rp y).offset ∧ (t.rl.rp y).getExtent = (s.rl.rp y).getExtent :=
    fun y hy => hu.key (hne y (hs.free_mem hy))
  refine ⟨{ h with
    time := h.time.frame hk
    regions := h.regions.undone hz hu hfree
    max := ?_
    noAdj := NoAdj.congr h.noAdj (fun _ hy => hy) hkey
    tqSlots := h.tqSlots.trans hna.symm
    sxSlots := h.sxSlots.trans hna.symm }, ?_⟩
  · show IsMax t.rl g.xs t.rl.maxfextent
    rw [hm]
    exact RegionList.IsMax.congr h.max (fun _ => Iff.rfl) fun y hy => (hkey y hy).2
  · refine catalog_kept rfl rfl ⟨hna, by rw [hf], by rw [hf], fun y hy => ?_⟩
    exact hu.other y (hne y (hs.alloc_mem hy))

theorem Rep.slot (hr : Rep D h A g) (hv : (RlCall.split extent).Valid D h) : ∃ x z em, h.hand = .taken x ∧
    g.em = z :: em ∧
      extent < (h.ix.rl.rp x).getExtent ∧ RlInv ⟨h.ix.rl, h.ix.fb⟩ g.own D g.xs [x] (z :: em) g.C := by
  obtain ⟨hspace, -, -, x, -, hx, hlt⟩ := hv
  have hinv := hr.inv
  rw [hx] at hinv
  obtain ⟨z, em, hzem⟩ := hr.spare hspace
  exact ⟨x, z, em, hx, hzem, hlt, hzem ▸ hinv.regions⟩

structure Unharmed (D : DataSection) (h : Held ω) (ix : QueueIndexManager ω) : Prop where
  rest : ix = { h.ix with rl := ix.rl, fb := ix.fb }
  counts : ix.rl.nelems = h.ix.rl.nelems ∧ ix.rl.nfree = h.ix.rl.nfree ∧ ix.rl.nempty = h.ix.rl.nempty ∧
    ix.rl.nalloc = h.ix.rl.nalloc ∧ ix.rl.nbytes = h.ix.rl.nbytes ∧ ix.rl.maxfextent = h.ix.rl.maxfextent
  balance : ix.rl.nelems + ix.rl.nfree + ix.rl.nempty = ix.rl.nalloc
  contents : ∃ A g own, Rep D h A g ∧ Rep D { h with ix := ix } A { g with own := own } ∧
    catalog ix { g with own := own } = catalog h.ix g

theorem Rep.undone (hr : Rep D h A g) {z : Nat} (hz : z ∈ g.em) {t : RlFb}
    {own : Nat → Owner Holder} (hu : Undone h.ix.rl t.rl z) (hfree : FreeInv t own fun _ => g.xs)
    (hk : Keeps IsTime h.ix.fb g.own t.fb own) : Unharmed D h { h.ix with rl := t.rl, fb := t.fb } := by
  obtain ⟨hinv, hcat⟩ := hr.inv.undone hz hu hfree hk
  obtain ⟨tl, hs⟩ := hr.inv.regions.shape
  have hf := hu.fields
  have hreg : ∀ y ∈ tl, regionOf t.rl y = regionOf h.ix.rl y := fun y hy => by
    rw [regionOf, regionOf, hu.other y fun e => hs.empty_not_mem hz (e ▸ hy)]
  have hkey : ∀ y ∈ tl, (t.rl.rp y).offset = (h.ix.rl.rp y).offset ∧ (t.rl.rp y).getExtent = (h.ix.rl.rp y).getExtent :=
    fun y hy => hu.key fun e => hs.empty_not_mem hz (e ▸ hy)
  refine ⟨rfl, ?_, hinv.regions.counts, A, g, own, hr, ⟨hinv, fun x hx => ?_, fun p => ?_, fun off ext => ?_, ?_⟩, hcat⟩
  · dsimp only
    rw [hf]
    exact ⟨rfl, rfl, rfl, rfl, rfl, rfl⟩
  · have hxt : x ∈ tl := hs.hand_mem (by rw [hx]; exact mem_singleton_self x)
    refine NoAdj.congr (hr.whole x hx) (fun _ hy => hy) fun y hy => ?_
    rcases mem_cons.1 hy with rfl | hy
    · exact hkey y hxt
    · exact hkey y (hs.free_mem hy)
  · rw [hr.free]
    constructor
    · rintro ⟨y, hy, rfl⟩
      exact ⟨y, hy, hreg y (hs.free_mem hy)⟩
    · rintro ⟨y, hy, rfl⟩
      exact ⟨y, hy, (hreg y (hs.free_mem hy)).symm⟩
  · rw [hcat]
    exact hr.alloc off ext
  · rw [hr.hand]
    cases hh : h.hand with
    | none => rfl
    | taken x => exact congrArg some (hreg x (hs.hand_mem (by rw [hh]; exact mem_singleton_self x))).symm
    | cut x => exact congrArg some (hreg x (hs.hand_mem (by rw [hh]; exact mem_singleton_self x))).symm

/-- **`RegionList::Add`, called by `Split`, survives.** -/
theorem Rep.add_warns (hr : Rep D h A g) {x : Nat} (hx : h.hand = .taken x)
    (hv : (RlCall.split extent).Valid D h) :
    warns (add ((h.ix.rl.rp x).offset + extent) ((h.ix.rl.rp x).getExtent - extent))
      (fun r t => r = none ∧ Unharmed D h { h.ix with rl := t.rl, fb := t.fb }) ⟨h.ix.rl, h.ix.fb⟩ := by
  obtain ⟨y, z, em, hy, hem, hlt, hreg⟩ := hr.slot hv
  rw [hx] at hy
  cases hy
  obtain ⟨tl, hs⟩ := hreg.shape
  have hzslot := hs.mem_slots (mem_append_right tl mem_cons_self : z ∈ _)
  have hzpos : 0 < z := Nat.lt_of_lt_of_le (by decide : 0 < RL_EMPTY_HD) hzslot.1
  refine (RegionList.add_warns hreg.free (hreg.vacant hlt) ⟨hzpos, hzslot.2⟩).mono ?_
  rintro r t ⟨rfl, hu, own, hfree, hk⟩
  exact ⟨rfl, hr.undone (by rw [hem]; exact mem_cons_self) hu hfree hk⟩

/-- **`Split` survives**: it reports the failure. -/
theorem Rep.split_warns (hr : Rep D h A g) (hv : (RlCall.split extent).Valid D h) :
    warns (RlCall.split extent).run (fun r h' => r = none ∧ h' = { h with ix := h'.ix } ∧ Unharmed D h h'.ix) h := by
  obtain ⟨x, z, em, hx, -, hlt, hreg⟩ := hr.slot hv
  obtain ⟨tl, hs⟩ := hreg.shape
  have hxf : (h.ix.rl.rp x).isFree = true := by
    rw [Region.isFree, hs.even x (by simp)]
    rfl
  have hslots : h.hand.slots = [x] := by
    rw [hx]
    rfl
  have hsplit : warns (split x extent) (fun status t => status ≠ 0 ∧
      Unharmed D h { h.ix with rl := t.rl, fb := t.fb }) ⟨h.ix.rl, h.ix.fb⟩ := by
    rw [split, warns_read]
    dsimp only
    rw [warns_assert hxf, warns_assert (Nat.le_of_lt hlt)]
    refine warns.seq ((hr.add_warns hx hv).mono ?_) fun r t => ?_
    · rintro r t ⟨rfl, hu⟩
      dsimp only
      rw [ends_pure]
      exact ⟨by decide, hu⟩
    · cases r with
      | none => exact silent_pure.warns
      | some y =>
        exact Silent.warns (silent_read.bind fun _ => silent_assert.bind fun _ => silent_modify.bind fun _ =>
          silent_pure)
  rw [RlCall.run, warns_read, hslots]
  dsimp only
  refine warns.seq ?_ fun status h' => Silent.warns <|
    silent_ite silent_pure (silent_modify.bind fun _ => silent_read.bind fun _ => silent_pure)
  rw [onIx, warns_zoom, onRl, warns_zoom]
  refine hsplit.mono ?_
  rintro status t ⟨hne, hu⟩
  rw [if_pos hne, ends_pure]
  exact ⟨rfl, rfl, hu⟩

/-! ## Runs -/

/-- The calls that the index makes, those of the signature index included. -/
inductive IndexCall where
  | part (c : RlCall)
  | sign (sig : Signature) (offset : Int)
  | unsign (sig : Signature)

namespace IndexCall

def run : IndexCall → Prog (Held ω) Unit
  | .part c => do
    let _ ← c.run
    return
  | .sign sig offset => do
    let _ ← onIx (onSx (add sig offset))
    return
  | .unsign sig => do
    let _ ← onIx (onSx (remove sig))
    return

def Valid (D : DataSection) (h : Held ω) : IndexCall → Prop
  | .part c => c.Valid D h
  | .sign sig _ => h.hand = .none ∧ (find sig h.ix.sx).returned = some (none, h.ix.sx)
  | .unsign _ => h.hand = .none

def next (c : IndexCall) (h : Held ω) : Option (Held ω) := (c.run h).result.toOption.map Prod.snd

def Survivable (h : Held ω) (c : IndexCall) : Prop := (c.run h).warned = true → ∃ extent, c = .part (.split extent)

end IndexCall

theorem Rep.resigned (hr : Rep D h A g) {sx : SignatureIndex} {sc : Nat → List Nat}
    {sfl : List Nat} (hinv : IndexInv D { h.ix with sx := sx } { g with sc := sc, sfl := sfl } h.hand.slots) :
    Rep D { h with ix := { h.ix with sx := sx } } A { g with sc := sc, sfl := sfl } :=
  ⟨hinv, hr.whole, hr.free, hr.alloc, hr.hand⟩

theorem IndexCall.run_spec (hr : Rep D h A g) {c : IndexCall} (hv : c.Valid D h) :
    wlp c.run (fun _ h' => ∃ A' g', Stacked h.ix g.em h'.ix g'.em ∧ Rep D h' A' g') h := by
  cases c with
  | part c =>
    rw [run, wlp_bind]
    refine (RlCall.run_matched hr hv).mono ?_
    rintro ans h' ⟨A', g', -, hst, hr'⟩
    rw [wlp_pure]
    exact ⟨A', g', hst, hr'⟩
  | sign sig offset =>
    obtain ⟨hn, hfind⟩ := hv
    have hsig : sig ∉ (catalog h.ix g).sigs.map Prod.fst := by
      obtain ⟨-, ⟨-, hno⟩ | ⟨x, -, he, -⟩⟩ := (find_spec hr.inv.sigs sig).wlp.of_returned hfind
      · simpa [catalog] using hno
      · cases he
    rw [run, wlp_bind, onIx, wlp_zoom]
    refine (sxAdd_spec (hr.idle hn) hsig offset).wlp.mono ?_
    rintro r ix (⟨-, -, rfl⟩ | ⟨-, hix, sc, sfl, hinv, -⟩)
    · rw [wlp_pure]
      exact ⟨A, g, .refl _ _, hr⟩
    · rw [wlp_pure]
      rw [hix] at hinv ⊢
      exact ⟨A, { g with sc := sc, sfl := sfl }, ⟨rfl, .inl suffix_rfl⟩, hr.resigned (by rw [hn]; exact hinv)⟩
  | unsign sig =>
    have hn : h.hand = .none := hv
    rw [run, wlp_bind, onIx, wlp_zoom]
    refine (sxRemove_spec (hr.idle hn) sig).wlp.mono ?_
    rintro r ix (⟨-, rfl, -⟩ | ⟨-, hix, off, sc, sfl, hinv, -⟩)
    · rw [wlp_pure]
      exact ⟨A, g, .refl _ _, hr⟩
    · rw [wlp_pure]
      rw [hix] at hinv ⊢
      exact ⟨A, { g with sc := sc, sfl := sfl }, ⟨rfl, .inl suffix_rfl⟩, hr.resigned (by rw [hn]; exact hinv)⟩

/-- **Runs survive** in which only `RegionList::Add` meets an exhausted arena. -/
theorem IndexCall.next_rep {h' : Held ω} (hr : Rep D h A g) {c : IndexCall} (hv : c.Valid D h)
    (hs : c.Survivable h) (hn : c.next h = some h') :
    ∃ A' g', Stacked h.ix g.em h'.ix g'.em ∧ Rep D h' A' g' := by
  obtain ⟨⟨u, t⟩, hres, hout⟩ := Option.map_eq_some_iff.1 hn
  have hout : t = h' := hout
  subst hout
  have hres := Outcome.toOption_eq_some.1 hres
  by_cases hw : (c.run h).warned = true
  · obtain ⟨extent, rfl⟩ := hs hw
    have hsplit : warns (IndexCall.part (.split extent)).run (fun _ h' => ∃ A' g', Stacked h.ix g.em h'.ix g'.em ∧
        Rep D h' A' g') h := by
      refine warns.seq ((hr.split_warns hv).mono ?_) fun _ _ => silent_pure.warns
      rintro ans h1 ⟨-, hh, hu⟩
      obtain ⟨A0, g0, own, hbefore, hrep, -⟩ := hu.contents
      obtain ⟨-, -, -, hnalloc, -⟩ := hu.counts
      rw [ends_pure, hh]
      exact ⟨A0, _, ⟨hnalloc, .inl (hr.inv.em_unique hbefore.inv rfl ▸ suffix_rfl)⟩, hrep⟩
    obtain ⟨v, t, ht, hrep⟩ := hsplit hw
    rw [hres] at ht
    cases ht
    exact hrep
  · exact IndexCall.run_spec hr hv (Bool.eq_false_of_not_eq_true hw) u t hres

def Held.Survived (D : DataSection) : Held ω → Prop :=
  Transitions.Reached IndexCall.next (fun h c => c.Valid D h ∧ c.Survivable h) (Held.Start D)

theorem Held.Survived.rep (hr : h.Survived D) : ∃ A g, Rep D h A g := by
  refine hr.invariant (I := fun h => ∃ A g, Rep D h A g) ?_ ?_
  · intro h hs
    obtain ⟨A, -, g, hrep⟩ := start_matched hs
    exact ⟨A, g, hrep⟩
  · rintro h c h' ⟨A, g, hrep⟩ ⟨hv, hsurv⟩ hn
    obtain ⟨A', g', -, hrep'⟩ := IndexCall.next_rep hrep hv hsurv hn
    exact ⟨A', g', hrep'⟩

/-- **A `RegionList::Add` that gets no block changes nothing**: in every run in which `FreeBlock::Get` fails at most
inside `RegionList::Add`, it returns, and the index is what it was. -/
theorem exhausted_add_unharmed (D : DataSection) {h : Held ω} (hrun : h.Survived D) {x extent : Nat}
    (hx : h.hand = .taken x) (hv : (RlCall.split extent).Valid D h)
    (hw : (RegionList.add ((h.ix.rl.rp x).offset + extent) ((h.ix.rl.rp x).getExtent - extent)
      ⟨h.ix.rl, h.ix.fb⟩).warned = true) :
    ∃ t : RlFb, (RegionList.add ((h.ix.rl.rp x).offset + extent) ((h.ix.rl.rp x).getExtent - extent)
        ⟨h.ix.rl, h.ix.fb⟩).result = .ok (none, t) ∧
      Unharmed D h { h.ix with rl := t.rl, fb := t.fb } ∧
      ∃ A, Shows ⟨h.ix.rl, h.ix.fb⟩ h.hand A ∧ Shows t h.hand A := by
  obtain ⟨A, g, hrep⟩ := hrun.rep
  obtain ⟨r, t, hres, rfl, hu⟩ := hrep.add_warns hx hv hw
  obtain ⟨A', g', own, hbefore, hafter, -⟩ := hu.contents
  exact ⟨t, hres, hu, A', hbefore.shows, hafter.shows⟩

theorem Held.Survived.of_trace {tr : List RlLabel} (ht : Trace (Held.Start D) (Held.Step D) tr h) :
    h.Survived D := by
  induction ht with
  | start hs => exact .start hs
  | @step tr h h' l _ hstep ih =>
    obtain ⟨hv, hret⟩ := hstep
    have hrun : ((IndexCall.part l.1).run h).returned = some ((), h') := returned_bind.2 ⟨_, _, hret, rfl⟩
    obtain ⟨hw, hres⟩ := Outcome.returned_eq_some.1 hrun
    refine .step ih (a := .part l.1) ⟨hv, fun hwarn => ?_⟩ ?_
    · rw [hw] at hwarn
      cases hwarn
    · rw [IndexCall.next, hres]
      rfl

def exhausted (rand : List Nat) (calls : List RlCall) : Option (List RlLabel × Held Unit) :=
  (formatNew 4 4096 5120
    { blank with fb := { blank.fb with rand := rand } }).returned.bind fun r =>
    if r.1 = 0 then Held.runCalls smallSection calls ⟨r.2, .none⟩ else none

theorem exhausted_survived {rand : List Nat} {calls : List RlCall} {tr : List RlLabel} {h : Held Unit}
    (hrun : exhausted rand calls = some (tr, h)) : h.Survived smallSection := by
  obtain ⟨⟨status, ix⟩, hformat, hrun⟩ := Option.bind_eq_some_iff.1 hrun
  split at hrun
  case isFalse => cases hrun
  case isTrue hst =>
    have hst : status = 0 := hst
    subst hst
    have hstart : Held.Start smallSection (⟨ix, .none⟩ : Held Unit) := ⟨rfl, 4, _, rfl, hformat⟩
    exact .of_trace (Held.runCalls_trace (.start hstart) hrun)

def crowdedCalls : List RlCall := [.get 100, .split 144, .addToHash, .stamp ⟨1, 0⟩ 4096, .get 100]

theorem exhausted_add_unharmed_crowded : ∃ (h : Held Unit) (x : Nat) (t : RlFb),
    h.Survived smallSection ∧ h.hand = .taken x ∧
    (RegionList.add ((h.ix.rl.rp x).offset + 144) ((h.ix.rl.rp x).getExtent - 144) ⟨h.ix.rl, h.ix.fb⟩).warned = true ∧
    (RegionList.add ((h.ix.rl.rp x).offset + 144) ((h.ix.rl.rp x).getExtent - 144) ⟨h.ix.rl, h.ix.fb⟩).result =
      .ok (none, t) ∧
    Unharmed smallSection h { h.ix with rl := t.rl, fb := t.fb } := by
  obtain ⟨tr, h, hcalls, hhand, hvalid, hw⟩ : ∃ tr h, exhausted [1, 1, 1, 1, 1, 0, 0] crowdedCalls = some (tr, h) ∧
      h.hand = .taken 5 ∧ (RlCall.split 144).Valid smallSection h ∧
      (add ((h.ix.rl.rp 5).offset + 144) ((h.ix.rl.rp 5).getExtent - 144) ⟨h.ix.rl, h.ix.fb⟩).warned = true := by
    decide +kernel
  have hrun := exhausted_survived hcalls
  obtain ⟨t, hres, hu, -⟩ := exhausted_add_unharmed smallSection hrun hhand hvalid hw
  exact ⟨h, 5, t, hrun, hhand, hw, hres, hu⟩

def leanCalls : List RlCall :=
  [.get 100, .split 144, .addToHash, .get 100, .split 144, .addToHash, .free 4096]

/-- Without a block, `TimeQueue::Add` counts an element that is not in the queue, and `RegionList::Free` ends in a
failed assertion. -/
theorem exhaustion_loses_slots : ∃ h : Held Unit, h.Survived smallSection ∧ h.hand = .none ∧
    (∃ t, (TimeQueue.add ⟨8, 0⟩ 4240 ⟨h.ix.tq, h.ix.fb⟩).warned = true ∧
      (TimeQueue.add ⟨8, 0⟩ 4240 ⟨h.ix.tq, h.ix.fb⟩).result = .ok (ENOSPC, t) ∧
      t.tq.nelems = h.ix.tq.nelems + 1 ∧ TimeQueue.first ⟨h.ix.tq, h.ix.fb⟩ = none ∧ TimeQueue.first t = none) ∧
    ∃ r, (RegionList.find 4240 ⟨h.ix.rl, h.ix.fb⟩).returned.map Prod.fst = some r ∧ r ≠ RL_NONE ∧
      (RegionList.free r ⟨h.ix.rl, h.ix.fb⟩).warned = true ∧
      (RegionList.free r ⟨h.ix.rl, h.ix.fb⟩).fault = some .assertion := by
  have hadd : (exhausted [] leanCalls).map (fun q => (q.2.hand,
      (TimeQueue.add ⟨8, 0⟩ 4240 ⟨q.2.ix.tq, q.2.ix.fb⟩).warned,
      (TimeQueue.add ⟨8, 0⟩ 4240 ⟨q.2.ix.tq, q.2.ix.fb⟩).result.toOption.map (fun a =>
        (a.1, decide (a.2.tq.nelems = q.2.ix.tq.nelems + 1 ∧ TimeQueue.first ⟨q.2.ix.tq, q.2.ix.fb⟩ = none ∧
          TimeQueue.first a.2 = none))))) = some (.none, true, some (ENOSPC, true)) := by
    decide +kernel
  have hfree : (exhausted [] leanCalls).map (fun q =>
      ((RegionList.find 4240 ⟨q.2.ix.rl, q.2.ix.fb⟩).returned.map Prod.fst,
      (free 5 ⟨q.2.ix.rl, q.2.ix.fb⟩).warned, (free 5 ⟨q.2.ix.rl, q.2.ix.fb⟩).fault)) =
      some (some 5, true, some .assertion) := by
    decide +kernel
  obtain ⟨⟨tr, h⟩, hcalls, he⟩ := Option.map_eq_some_iff.1 hadd
  simp only [Prod.mk.injEq] at he
  obtain ⟨hhand, hwarn, hadd⟩ := he
  obtain ⟨⟨status, t⟩, hres, he⟩ := Option.map_eq_some_iff.1 hadd
  simp only [Prod.mk.injEq, decide_eq_true_eq] at he
  obtain ⟨rfl, hcount, hbefore, hafter⟩ := he
  rw [hcalls] at hfree
  simp only [Option.map_some, Option.some.injEq, Prod.mk.injEq] at hfree
  obtain ⟨hfind, hwfree, hfault⟩ := hfree
  exact ⟨h, exhausted_survived hcalls, hhand, ⟨t, hwarn, Outcome.toOption_eq_some.1 hres, hcount, hbefore, hafter⟩,
    5, hfind, by decide, hwfree, hfault⟩

end Rdm
