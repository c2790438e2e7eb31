import Rdm.Pq.CursorStart

/-!
# Finding the time of a product by its signature

`FindTimeEntryBySignature` starts at the arrival time of a product, less the system interval. So it is found exactly if
no other one was inserted between.
-/

namespace Rdm

open ProgLogic ProgLogic.Prog Xdr SunRpcSerializer QueueIndexManager List
open RegionList (allocs)
open ProductQueue (callbacks decodeRegion)
open Timestamp (ENDT NONE)

variable {D : DataSection} {s s' : QueueIndexManager World} {g g' : Ghost} {st : Store} {q : ProductQueue}
variable {t : Timestamp} {pg : Page} {cb : Callbacks World} {interval : Nat}

/-- The time at which the search for a product starts. -/
def searchTime (interval : Nat) (info : ProdInfo) : Timestamp :=
  ⟨(stored info).arrival.sec - interval, (stored info).arrival.usec⟩

/-! ## The search -/

theorem seekOffset_found (h : IndexInv D s g) {x : Nat} (hoff : ∀ y ∈ g.ts, (s.tq.tqep y).offset ≠ -1)
    (hone : ∀ y ∈ g.ts, (s.tq.tqep y).offset = (s.tq.tqep x).offset → y = x) (s1 : QueueIndexManager World) :
    ∀ (rest pre : List Nat) (fuel : Nat), g.ts = pre ++ rest → x ∈ rest → rest.length < fuel →
      wp (seekOffset ⟨s.tq, s.fb⟩ (s.tq.tqep x).offset fuel (rest.headD TQ_NIL))
        (fun res s' => s' = s1 ∧ res = .ok x) s1
  | [], _, _, _, hx, _ => by cases hx
  | y :: rest, pre, fuel + 1, hts, hx, hf => by
    have hy : y ∈ g.ts := by rw [hts]; simp
    rw [seekOffset, headD_cons, if_neg (hoff y hy)]
    by_cases hyx : y = x
    · subst hyx
      rw [if_pos rfl]
      exact wp_pure.2 ⟨rfl, rfl⟩
    · rw [if_neg fun e => hyx (hone y hy e), TimeQueue.next_spec h.time hts]
      have hts' : g.ts = (pre ++ [y]) ++ rest := by rw [hts]; simp
      have hx' : x ∈ rest := (mem_cons.1 hx).resolve_left fun e => hyx e.symm
      exact seekOffset_found h hoff hone s1 rest (pre ++ [y]) fuel hts' hx' (by simpa using hf)

/-- **The search starts** at the last element before the time, or at the first of all if there is none. -/
theorem searchStart_place (h : IndexInv D s g) {time : Timestamp} (hend : time ≤ ENDT) {x : Nat} (hx : x ∈ g.ts) :
    wp (onTq (searchStart time)) (fun r s' => s' = s ∧ ∃ y ∈ g.ts, r = some y ∧
      ((∀ z ∈ g.ts, time ≤ (s.tq.tqep z).tv ∧ (s.tq.tqep y).tv ≤ (s.tq.tqep z).tv) ∨
        (s.tq.tqep y).tv < time ∧ ∀ z ∈ g.ts, (s.tq.tqep z).tv < time → (s.tq.tqep z).tv ≤ (s.tq.tqep y).tv)) s := by
  have hxend := h.time.lt_endt x hx
  have hfind := fun mt => TimeQueue.find_spec h.time hend mt
  rw [onTq, wp_zoom, searchStart, wp_bind]
  refine (hfind .lessThan).mono ?_
  rintro r u ⟨rfl, hr | ⟨hno, -⟩⟩
  case inr => cases hno
  simp only [TimeQueue.neighbour] at hr
  cases r with
  | some y =>
    obtain ⟨pre, hsplit⟩ := List.getLast?_eq_some_iff.1 hr.symm
    obtain ⟨hy, hlt⟩ := TimeQueue.mem_earlier.1 (mem_of_getLast? hr.symm)
    refine wp_pure.2 ⟨rfl, y, hy, rfl, .inr ⟨hlt, fun z hz hzlt => ?_⟩⟩
    have hsorted := h.time.sorted.sublist (filter_sublist (p := fun y => decide ((s.tq.tqep y).tv < time)))
    have hz : z ∈ TimeQueue.earlier s.tq time g.ts := TimeQueue.mem_earlier.2 ⟨hz, hzlt⟩
    rw [TimeQueue.earlier] at hsplit hz
    rw [hsplit] at hsorted hz
    rcases mem_append.1 hz with hz | hz
    · exact le_of_lt ((pairwise_append.1 hsorted).2.2 z hz y mem_cons_self)
    · rw [mem_singleton.1 hz]
  | none =>
    have hge : ∀ y ∈ g.ts, time ≤ (s.tq.tqep y).tv := by
      intro y hy
      by_contra hlt
      have hm : y ∈ TimeQueue.earlier s.tq time g.ts := TimeQueue.mem_earlier.2 ⟨hy, not_le.1 hlt⟩
      rw [List.getLast?_eq_none_iff.1 hr.symm] at hm
      cases hm
    rw [wp_bind]
    refine (hfind .equal).mono ?_
    rintro r u ⟨rfl, hr | ⟨-, hk, -⟩⟩
    case inr => exact absurd (hk ▸ hge x hx) (not_le_of_gt hxend)
    simp only [TimeQueue.neighbour] at hr
    cases r with
    | some y =>
      have hyt : (s.tq.tqep y).tv = time := by simpa using List.find?_some hr.symm
      refine wp_pure.2 ⟨rfl, y, mem_of_find?_eq_some hr.symm, rfl, .inl fun z hz => ⟨hge z hz, ?_⟩⟩
      rw [hyt]
      exact hge z hz
    | none =>
      refine (hfind .greaterThan).mono ?_
      rintro r u ⟨rfl, hr' | ⟨hno, -⟩⟩
      case inr => cases hno
      simp only [TimeQueue.neighbour] at hr'
      have hlater : ∀ z ∈ g.ts, z ∈ g.ts.filter fun y => decide (time < (s.tq.tqep y).tv) := by
        intro z hz
        have hne : (s.tq.tqep z).tv ≠ time := by simpa using List.find?_eq_none.1 hr.symm z hz
        exact mem_filter.2 ⟨hz, by simpa using lt_of_le_of_ne (hge z hz) (Ne.symm hne)⟩
      have hsorted := h.time.sorted.sublist (filter_sublist (p := fun y => decide (time < (s.tq.tqep y).tv)))
      cases hl : g.ts.filter fun y => decide (time < (s.tq.tqep y).tv) with
      | nil => cases hl ▸ hlater x hx
      | cons y rest =>
        have hy : y ∈ g.ts := (mem_filter.1 (by rw [hl]; exact mem_cons_self : y ∈ g.ts.filter _)).1
        rw [hl] at hr' hsorted hlater
        refine ⟨rfl, y, hy, hr', .inl fun z hz => ⟨hge z hz, ?_⟩⟩
        rcases mem_cons.1 (hlater z hz) with rfl | hzr
        · exact le_refl _
        · exact le_of_lt ((pairwise_cons.1 hsorted).1 z hzr)

section

variable (h : Kept D s g st)
include h

theorem Kept.elem_of (hlive : (t, pg) ∈ st.live) : ∃ x ∈ g.ts, timeOf s.tq x = (t, pg.offset) :=
  mem_map.1 ((h.books.times t pg.offset).2 ⟨pg, hlive, rfl⟩)

theorem Kept.elem_offset {y : Nat} (hy : y ∈ g.ts) : (s.tq.tqep y).offset ≠ -1 := by
  obtain ⟨pg', hlive, he⟩ := h.live_of hy
  obtain ⟨ext, hreg, -⟩ := (h.books.pages pg' (Store.mem_pages_of_live hlive)).region
  have hmem := h.inv.region_mem hreg
  have hheader := D.header
  rw [← he]
  simp only at hmem
  omega

theorem Kept.elem_unique {x y : Nat} (hx : x ∈ g.ts) (hy : y ∈ g.ts)
    (he : (s.tq.tqep y).offset = (s.tq.tqep x).offset) : y = x := by
  have hnd := h.books.times_distinct
  rw [catalog, map_map] at hnd
  exact inj_on_of_nodup_map hnd hy hx he

/-- **The time entry of a live product is found**, if no other product lies between the product and the start of the
search. -/
theorem Kept.findTimeEntry (hlive : (t, pg) ∈ st.live)
    (hdec : ∀ ext, (pg.offset, ext) ∈ (catalog s g).regions → (cb.decode pg.offset ext s.env).1 = (0, stored pg.info))
    (hend : searchTime interval pg.info ≤ ENDT)
    (hbetween : ∀ p ∈ (catalog s g).times, p.1 < searchTime interval pg.info → p.1 ≤ t) :
    wp (findTimeEntryBySignature cb interval pg.info.signature) (fun res s' =>
      ∃ x ∈ g.ts, res = .ok x ∧ timeOf s.tq x = (t, pg.offset) ∧
        ∃ ext, s' = { s with env := (cb.decode pg.offset ext s.env).2 }) s := by
  obtain ⟨x, hx, hxt⟩ := h.elem_of hlive
  obtain ⟨hxtv, hxoff⟩ := Prod.mk.inj hxt
  have hfiled := (h.books.pages pg (Store.mem_pages_of_live hlive)).filed
  rw [findTimeEntryBySignature, wp_bind, wp_read, wp_bind]
  refine (sxFind_spec h.inv _).mono ?_
  rintro r s1 ⟨rfl, ⟨-, hno⟩ | ⟨e, rfl, he⟩⟩
  · exact absurd (Multiset.mem_map_of_mem Prod.fst hfiled) hno
  · have hoff : (s1.sx.sxep e).offset = pg.offset := h.books.offset_unique he hfiled
    simp only [hoff, wp_bind]
    refine (h.find_live hlive).mono ?_
    rintro rlix s2 ⟨rfl, hne, -, hroff, hreg⟩
    rw [if_neg hne]
    simp only [wp_bind, onEnv, wp_zoom, wp_call, hroff, hdec _ hreg, ne_eq, not_true_eq_false, if_false]
    refine (searchStart_place (h.inv.control (cb.decode pg.offset (s2.rl.rp rlix).getExtent s2.env).2 s2.isFull
      s2.smallestExtentSeen) hend hx).mono ?_
    rintro r s3 ⟨rfl, y, hy, rfl, hstart⟩
    have hyx : (s2.tq.tqep y).tv ≤ (s2.tq.tqep x).tv := by
      rcases hstart with hall | ⟨hlt, -⟩
      · exact (hall x hx).2
      · have hy' := hbetween (timeOf s2.tq y) (mem_map_of_mem hy) hlt
        exact hxtv.symm ▸ hy'
    obtain ⟨pre, suf, hts⟩ := append_of_mem hy
    have hxy : x ∈ y :: suf := by
      rw [hts] at hx
      refine (mem_append.1 hx).resolve_left fun hxp => ?_
      have hsorted := h.inv.time.sorted
      rw [hts] at hsorted
      exact absurd hyx (not_le_of_gt ((pairwise_append.1 hsorted).2.2 x hxp y mem_cons_self))
    have hlen : (y :: suf).length < s2.tq.nalloc + 2 := by
      have hlen := h.inv.time.length
      rw [hts] at hlen
      simp only [length_append] at hlen
      omega
    have hseek := seekOffset_found h.inv (fun _ hy => h.elem_offset hy) (fun _ hy he => h.elem_unique hx hy he)
      { s2 with env := (cb.decode pg.offset (s2.rl.rp rlix).getExtent s2.env).2 } (y :: suf) pre _ hts hxy hlen
    rw [hxoff] at hseek
    refine hseek.mono ?_
    rintro res s4 ⟨rfl, rfl⟩
    exact ⟨x, hx, rfl, hxt, _, rfl⟩

/-! ## The callbacks -/

theorem Kept.decodeFunc_live (hlive : (t, pg) ∈ st.live) (hgrant : s.env.grants s.env.requests = true)
    {ext : Nat} (hreg : (pg.offset, ext) ∈ (catalog s g).regions) :
    (callbacks.decode pg.offset ext s.env).1 = (0, stored pg.info) := by
  simp only [callbacks, ProductQueue.decodeFunc, World.getRegionNoWait, hgrant, Bool.true_eq_false, if_false,
    h.books.decode_live hlive hreg]

theorem Kept.readFunc_live (hlive : (t, pg) ∈ st.live) {ext : Nat} (hreg : (pg.offset, ext) ∈ (catalog s g).regions) :
    (QueueCursor.readFunc true pg.offset ext s.env).1 = (0, stored pg.info) := by
  simp only [QueueCursor.readFunc, Bool.true_eq_false, if_false, h.books.decode_live hlive hreg]

def World.asked (w : World) : World := { w with requests := w.requests + 1 }

theorem decodeRegion_granted (hlive : (t, pg) ∈ st.live) (hgrant : s.env.grants s.env.requests = true)
    {r : Nat} (hoff : (s.rl.rp r).offset = pg.offset)
    (hreg : (pg.offset, (s.rl.rp r).getExtent) ∈ (catalog s g).regions)
    (e1 e2 : Int) : wp (decodeRegion r e1 e2) (fun res s' => res = .ok (stored pg.info) ∧
      s' = { s with env := s.env.asked }) s := by
  simp only [decodeRegion, onEnv, wp_bind, wp_read, wp_zoom, wp_call, World.getRegionNoWait, hgrant,
    Bool.true_eq_false, if_false, hoff, h.books.decode_live hlive hreg]
  exact wp_pure.2 ⟨rfl, rfl⟩

/-! ## What is left of a product that is deleted -/

/-- Nothing is left of the product, and the other entries stay. -/
structure Gone (s : QueueIndexManager World) (t : Timestamp) (pg : Page) (s' : QueueIndexManager World) : Prop where
  times : s'.times = s.times.erase (t, pg.offset)
  signature : pg.info.signature ∉ s'.filed.map Prod.fst
  region : pg.offset ∉ s'.regions.map Prod.fst

theorem Kept.gone {w : World} {x r : Nat} (ht : (s.tq.tqep x).tv = t)
    (hoff : (s.rl.rp r).offset = pg.offset) (hd : Dropped D { s with env := w } g x r pg.info.signature s' g') :
    Gone s t pg s' := by
  have hw := hd.without_of ht hoff
  obtain ⟨pre, suf, hts, hts'⟩ := hw.times
  obtain ⟨hregion, hsig⟩ := hw.toFreed.forgotten h.books.toSound hd.inv
  refine ⟨?_, hsig, hregion⟩
  have hnd := h.books.times_nodup
  rw [hts] at hnd
  have hpre : (t, pg.offset) ∉ pre := fun hp => (nodup_append.1 hnd).2.2 _ hp _ mem_cons_self rfl
  rw [hd.inv.times_eq, h.inv.times_eq, hts, hts', erase_append_right _ hpre, erase_cons_head]

end

/-- **Deleting a product that is found.** -/
theorem Kept.deleteBySignature (h : Kept D q.ix g st) (hlive : (t, pg) ∈ st.live)
    (hgrant : q.ix.env.grants q.ix.env.requests = true) (hgrant' : q.ix.env.grants (q.ix.env.requests + 1) = true)
    (hend : searchTime interval pg.info ≤ ENDT)
    (hbetween : ∀ p ∈ (catalog q.ix g).times, p.1 < searchTime interval pg.info → p.1 ≤ t) :
    wp (ProductQueue.deleteBySignature interval pg.info.signature)
      (fun status q' => status = 0 ∧ Gone q.ix t pg q'.ix) q := by
  rw [ProductQueue.deleteBySignature, wp_locked, wp_bind]
  refine (h.findTimeEntry hlive (fun _ hreg => h.decodeFunc_live hlive hgrant hreg) hend hbetween).mono ?_
  rintro res s1 ⟨x, hx, rfl, hxt, ext, rfl⟩
  obtain ⟨hxtv, hxoff⟩ := Prod.mk.inj hxt
  have h1 : Kept D { q.ix with env := q.ix.env.asked } g st :=
    h.control (w := q.ix.env.asked) rfl q.ix.isFull q.ix.smallestExtentSeen
  simp only [wp_bind, wp_read]
  rw [show (callbacks.decode pg.offset ext q.ix.env).2 = q.ix.env.asked from rfl, hxoff]
  refine (h1.find_live hlive).mono ?_
  rintro r s2 ⟨rfl, -, hr, hroff, hreg⟩
  rw [wp_bind]
  refine (decodeRegion_granted h1 hlive hgrant' hroff hreg _ _).mono ?_
  rintro res s3 ⟨rfl, rfl⟩
  simp only [wp_bind]
  have hfiled := (h.books.pages pg (Store.mem_pages_of_live hlive)).filed
  refine (unlinkFound h.inv hx hr (hroff.trans hxoff.symm) (Multiset.mem_map_of_mem Prod.fst hfiled) _).mono ?_
  intro _ s4 hrest
  rw [wp_bind]
  refine hrest.mono ?_
  intro _ s5 hfree
  rw [wp_bind]
  refine hfree.mono ?_
  rintro _ s6 ⟨g', hd⟩
  have hgone := h.gone hxtv hroff hd
  exact wp_pure.2 ⟨rfl, hgone.times, hgone.signature, hgone.region⟩

/-- **Putting a cursor on a product that is found.** -/
theorem Kept.setCursorFromSignature_reads (h : Kept D q.ix g st) (hlive : (t, pg) ∈ st.live)
    (hend : searchTime interval pg.info ≤ ENDT)
    (hbetween : ∀ p ∈ (catalog q.ix g).times, p.1 < searchTime interval pg.info → p.1 ≤ t) (cursor : Timestamp) :
    wp (QueueCursor.setCursorFromSignature interval pg.info.signature true cursor)
      (fun res q' => res = (0, t) ∧ q' = q.afterRead) q := by
  rw [QueueCursor.setCursorFromSignature, wp_locked, wp_bind]
  refine (h.findTimeEntry hlive (fun _ hreg => h.readFunc_live hlive hreg) hend hbetween).mono ?_
  rintro res s1 ⟨x, -, rfl, hxt, ext, rfl⟩
  simp only [wp_bind, wp_read, wp_pure]
  rw [(Prod.mk.inj hxt).1]
  exact ⟨rfl, rfl⟩

theorem Kept.setCursorFromSignature (h : Kept D q.ix g st) (hlive : (t, pg) ∈ st.live)
    (hend : searchTime interval pg.info ≤ ENDT)
    (hbetween : ∀ p ∈ (catalog q.ix g).times, p.1 < searchTime interval pg.info → p.1 ≤ t) (cursor : Timestamp) :
    wp (QueueCursor.setCursorFromSignature interval pg.info.signature true cursor) (fun res _ => res = (0, t)) q :=
  (h.setCursorFromSignature_reads hlive hend hbetween cursor).mono fun _ _ hr => hr.1

/-! ## What a search by signature says about the times -/

theorem seekOffset_forward (h : IndexInv D s g) {off : Int} {s1 : QueueIndexManager World} :
    ∀ (rest pre : List Nat) (fuel : Nat), g.ts = pre ++ rest →
      wlp (seekOffset ⟨s.tq, s.fb⟩ off fuel (rest.headD TQ_NIL)) (fun res _ =>
        ∀ x, res = .ok x → x ∈ rest ∧ (s.tq.tqep x).offset = off) s1
  | _, _, 0, _ => by
    rw [seekOffset, wlp_ofOption]
    rintro _ ⟨⟩
  | [], _, _ + 1, _ => by
    have hnil : ((TqFb.mk s.tq s.fb).tq.tqep (([] : List Nat).headD TQ_NIL)).offset = -1 := h.time.nil.2
    rw [seekOffset, if_pos hnil]
    refine wlp_pure.2 ?_
    rintro x ⟨⟩
  | y :: rest, pre, fuel + 1, hts => by
    rw [seekOffset, headD_cons]
    split
    case isTrue =>
      refine wlp_pure.2 ?_
      rintro x ⟨⟩
    case isFalse =>
      split
      case isTrue hoff =>
        refine wlp_pure.2 ?_
        rintro x ⟨⟩
        exact ⟨mem_cons_self, hoff⟩
      case isFalse =>
        have hts' : g.ts = (pre ++ [y]) ++ rest := by rw [hts]; simp
        rw [TimeQueue.next_spec h.time hts]
        refine (seekOffset_forward h rest (pre ++ [y]) fuel hts').mono ?_
        intro res _ hres x hx
        exact ⟨mem_cons_of_mem _ (hres x hx).1, (hres x hx).2⟩

theorem searchStart_last (h : IndexInv D s g) {x : Nat} (hx : x ∈ g.ts) (time : Timestamp) :
    wlp (onTq (searchStart time)) (fun r s' => s' = s ∧ time ≤ ENDT ∧ ∀ y, r = some y →
      (∀ z ∈ g.ts, time ≤ (s.tq.tqep z).tv) ∨
        y ∈ g.ts ∧ ∀ z ∈ g.ts, (s.tq.tqep z).tv < time → (s.tq.tqep z).tv ≤ (s.tq.tqep y).tv) s := by
  rcases le_or_gt time ENDT with hend | hend
  · refine (searchStart_place h hend hx).wlp.mono ?_
    rintro r s' ⟨rfl, y, hy, rfl, hstart⟩
    refine ⟨rfl, hend, ?_⟩
    rintro _ ⟨⟩
    exact hstart.imp (fun hall z hz => (hall z hz).1) fun hlast => ⟨hy, hlast.2⟩
  · rw [onTq, wlp_zoom, searchStart, wlp_bind]
    refine (TimeQueue.find_past h.time hend .lessThan).mono ?_
    rintro r u ⟨hts, -⟩
    rw [hts] at hx
    cases hx

/-- **A product that is found is not behind the start of the search.** -/
theorem Kept.between_of_found (h : Kept D s g st) (hlive : (t, pg) ∈ st.live)
    (hdec : ∀ ext, (pg.offset, ext) ∈ (catalog s g).regions → (cb.decode pg.offset ext s.env).1 = (0, stored pg.info)) :
    wlp (findTimeEntryBySignature cb interval pg.info.signature) (fun res _ => ∀ x, res = .ok x →
      searchTime interval pg.info ≤ ENDT ∧
        ∀ p ∈ (catalog s g).times, p.1 < searchTime interval pg.info → p.1 ≤ t) s := by
  obtain ⟨x, hx, hxt⟩ := h.elem_of hlive
  obtain ⟨hxtv, hxoff⟩ := Prod.mk.inj hxt
  have hfiled := (h.books.pages pg (Store.mem_pages_of_live hlive)).filed
  rw [findTimeEntryBySignature, wlp_bind, wlp_read, wlp_bind]
  refine (sxFind_spec h.inv _).wlp.mono ?_
  rintro r s1 ⟨rfl, ⟨-, hno⟩ | ⟨e, rfl, he⟩⟩
  · exact absurd (Multiset.mem_map_of_mem Prod.fst hfiled) hno
  have hoff : (s1.sx.sxep e).offset = pg.offset := h.books.offset_unique he hfiled
  simp only [hoff, wlp_bind]
  refine (h.find_live hlive).wlp.mono ?_
  rintro rlix s2 ⟨rfl, hne, -, hroff, hreg⟩
  rw [if_neg hne]
  simp only [wlp_bind, onEnv, wlp_zoom, wlp_call, hroff, hdec _ hreg, ne_eq, not_true_eq_false, if_false]
  refine (searchStart_last (h.inv.control (cb.decode pg.offset (s2.rl.rp rlix).getExtent s2.env).2 s2.isFull
    s2.smallestExtentSeen) hx (searchTime interval pg.info)).mono ?_
  rintro r s3 ⟨rfl, hend, hstart⟩
  cases r with
  | none =>
    refine wlp_pure.2 ?_
    rintro x ⟨⟩
  | some y =>
    rcases hstart y rfl with hge | ⟨hy, hlast⟩
    · refine wlp_true.mono fun _ _ _ _ _ => ⟨hend, ?_⟩
      rintro p hp hlt
      obtain ⟨z, hz, rfl⟩ := mem_map.1 hp
      exact absurd (hge z hz) (not_le.2 hlt)
    · obtain ⟨pre, suf, hts⟩ := append_of_mem hy
      refine (seekOffset_forward h.inv (y :: suf) pre _ hts).mono ?_
      intro res _ hres z hz
      obtain ⟨hzm, hzoff⟩ := hres z hz
      -- the element with the offset is that of the product, and it is not before the start
      have hzts : z ∈ g.ts := by rw [hts]; exact mem_append_right _ hzm
      obtain rfl : z = x := h.elem_unique hx hzts (hzoff.trans hxoff.symm)
      have hyz : (s2.tq.tqep y).tv ≤ (s2.tq.tqep z).tv := by
        rcases mem_cons.1 hzm with rfl | hzm
        · exact le_refl _
        · have hsorted := h.inv.time.sorted
          rw [hts] at hsorted
          exact le_of_lt ((pairwise_cons.1 (pairwise_append.1 hsorted).2.1).1 z hzm)
      refine ⟨hend, fun p hp hlt => ?_⟩
      obtain ⟨w, hw, rfl⟩ := mem_map.1 hp
      exact (hlast w hw hlt).trans (hyz.trans (le_of_eq hxtv))

/-! ## Searches log no warning -/

theorem silent_seekOffset (tq : TqFb) (offset : Int) :
    ∀ fuel tqep, Silent (seekOffset tq offset fuel tqep : Prog (QueueIndexManager World) _)
  | 0, _ => silent_ofOption
  | fuel + 1, _ => silent_ite silent_pure (silent_ite silent_pure (silent_seekOffset tq offset fuel _))

theorem silent_searchStart (time : Timestamp) : Silent (searchStart time) := by
  refine (silent_find _ _).bind fun r => ?_
  cases r with
  | some _ => exact silent_pure
  | none =>
    refine (silent_find _ _).bind fun r => ?_
    cases r with
    | some _ => exact silent_pure
    | none => exact silent_find _ _

theorem silent_findTimeEntryBySignature (sig : Signature) : Silent (findTimeEntryBySignature cb interval sig) := by
  refine silent_read.bind fun s => (SignatureIndex.silent_find sig).zoom.bind fun r => ?_
  cases r with
  | none => exact silent_pure
  | some e =>
    refine (RegionList.silent_find _).zoom.bind fun rlix => silent_ite silent_pure ?_
    refine Silent.bind (Silent.zoom fun _ => rfl) fun ⟨_, info⟩ => silent_ite silent_pure ?_
    refine (silent_searchStart _).zoom.bind fun r => ?_
    cases r with
    | none => exact silent_pure
    | some y => exact silent_seekOffset _ _ _ _

theorem silent_setCursorFromSignature (sig : Signature) (mapped : Bool) (cursor : Timestamp) :
    Silent (QueueCursor.setCursorFromSignature interval sig mapped cursor) := by
  refine silent_locked ((silent_findTimeEntryBySignature sig).bind fun found => ?_)
  cases found with
  | error _ => exact silent_pure
  | ok _ => exact silent_read.bind fun _ => silent_pure

/-! ## Runs -/

/-- **A product is found by its signature exactly if** no other product lies between the product and the start of the
search: its time entry is returned, deleting by signature takes it away, a cursor is put on it, and the signature is not
found only if no product in the queue has it. -/
theorem found_by_signature (D : DataSection) {P : QueueOp → Prop} {a : Audit} (ha : Reached D P a) (interval : Nat)
    (sig : Signature) (hgrant : a.queue.ix.env.grants a.queue.ix.env.requests = true)
    (hgrant' : a.queue.ix.env.grants (a.queue.ix.env.requests + 1) = true) :
    ((∀ t pg, (t, pg) ∈ a.store.live → pg.info.signature = sig →
      (∃ x s', (QueueIndexManager.findTimeEntryBySignature ProductQueue.callbacks interval sig a.queue.ix).returned =
        some (.ok x, s') ∧ timeOf a.queue.ix.tq x = (t, pg.offset)) ∧
      wp (ProductQueue.deleteBySignature interval sig) (fun status q' => status = 0 ∧ Gone a.queue.ix t pg q'.ix)
        a.queue ∧
      ∀ cursor, ∃ q', (QueueCursor.setCursorFromSignature interval sig true cursor a.queue).returned =
        some ((0, t), q')) ∧
    ∀ s', (QueueIndexManager.findTimeEntryBySignature ProductQueue.callbacks interval sig a.queue.ix).returned =
      some (.error PqStatus.notFound.toInt, s') → ∀ t pg, (t, pg) ∈ a.store.live → pg.info.signature ≠ sig) ↔
    ∀ t pg, (t, pg) ∈ a.store.live → pg.info.signature = sig → searchTime interval pg.info ≤ Timestamp.ENDT ∧
      ∀ p ∈ a.queue.ix.times, p.1 < searchTime interval pg.info → p.1 ≤ t := by
  obtain ⟨⟨g, hk⟩, -⟩ := ha.holds
  rw [hk.inv.times_eq]
  have hdec : ∀ {t pg}, (t, pg) ∈ a.store.live → ∀ ext, (pg.offset, ext) ∈ (catalog a.queue.ix g).regions →
      (callbacks.decode pg.offset ext a.queue.ix.env).1 = (0, stored pg.info) :=
    fun hlive _ hreg => hk.decodeFunc_live hlive hgrant hreg
  refine ⟨?_, fun hwhen => ?_⟩
  · rintro ⟨hfound, -⟩ t pg hlive rfl
    obtain ⟨⟨x, s', hret, -⟩, -⟩ := hfound t pg hlive rfl
    exact (hk.between_of_found hlive (hdec hlive)).of_returned hret x rfl
  · have hfind : ∀ t pg, (t, pg) ∈ a.store.live → pg.info.signature = sig →
        ∃ x s', (findTimeEntryBySignature callbacks interval sig a.queue.ix).returned = some (.ok x, s') ∧
          timeOf a.queue.ix.tq x = (t, pg.offset) := by
      rintro t pg hlive rfl
      obtain ⟨hend, hbetween⟩ := hwhen t pg hlive rfl
      obtain ⟨res, s', hret, x, -, rfl, hxt, -⟩ :=
        (hk.findTimeEntry hlive (hdec hlive) hend hbetween).returns (silent_findTimeEntryBySignature _)
      exact ⟨x, s', hret, hxt⟩
    refine ⟨?_, fun s' hno t pg hlive hsig => ?_⟩
    · rintro t pg hlive rfl
      obtain ⟨hend, hbetween⟩ := hwhen t pg hlive rfl
      refine ⟨hfind t pg hlive rfl, hk.deleteBySignature hlive hgrant hgrant' hend hbetween, fun cursor => ?_⟩
      obtain ⟨_, q', hret, rfl⟩ := (hk.setCursorFromSignature hlive hend hbetween cursor).returns
        (silent_setCursorFromSignature _ _ _)
      exact ⟨q', hret⟩
    · obtain ⟨x, s'', hret, -⟩ := hfind t pg hlive hsig
      cases hret.symm.trans hno

def aheadOps : List QueueOp :=
  [.newElement { sampleInfo 1 with arrival := ⟨100, 0⟩ } true, .commit 0, .newElement (sampleInfo 2) true, .commit 0]

set_option synthInstance.maxSize 400 in
theorem found_by_signature_second : ∃ (a : Audit) (t : Timestamp) (pg : Page) (q' : ProductQueue),
    Reached smallSection (fun _ => True) a ∧ (t, pg) ∈ a.store.live ∧
    pg.info.signature = Signature.fill 2 ∧
    (ProductQueue.deleteBySignature 10 (Signature.fill 2) a.queue).returned = some (0, q') ∧
    Gone a.queue.ix t pg q'.ix := by
  obtain ⟨a, hreach, ⟨t, pg, hlive, hsig⟩, hwhen, hgrant, hgrant', hsome⟩ :
      ∃ a : Audit, Reached smallSection (fun _ => True) a ∧
        (∃ t pg, (t, pg) ∈ a.store.live ∧ pg.info.signature = Signature.fill 2) ∧
        (∀ e ∈ a.store.live, e.2.info.signature = Signature.fill 2 → searchTime 10 e.2.info ≤ ENDT ∧
          ∀ p ∈ a.queue.ix.times, p.1 < searchTime 10 e.2.info → p.1 ≤ e.1) ∧
        a.queue.ix.env.grants a.queue.ix.env.requests = true ∧
        a.queue.ix.env.grants (a.queue.ix.env.requests + 1) = true ∧
        (ProductQueue.deleteBySignature 10 (Signature.fill 2) a.queue).returned.isSome = true := by
    refine exists_run 8 (q := blankQueue 8 tick) rfl rfl aheadOps ?_
    decide +kernel
  obtain ⟨⟨status, q'⟩, hret⟩ := Option.isSome_iff_exists.1 hsome
  have hfound := (found_by_signature smallSection hreach 10 (Signature.fill 2) hgrant hgrant').2 fun t pg =>
    hwhen (t, pg)
  obtain ⟨-, hdelete, -⟩ := hfound.1 t pg hlive hsig
  obtain ⟨rfl, hgone⟩ := hdelete.wlp.of_returned hret
  exact ⟨a, t, pg, q', hreach, hlive, hsig, hret, hgone⟩

/-- The search ends at the tail: the product cannot be deleted, nor a cursor put on it. -/
theorem ahead_not_found : ∃ (a : Audit) (t : Timestamp) (pg : Page),
    Reached smallSection (fun _ => True) a ∧ (t, pg) ∈ a.store.live ∧
    pg.info.signature = Signature.fill 1 ∧
    ((QueueIndexManager.findTimeEntryBySignature ProductQueue.callbacks 10 (Signature.fill 1)) a.queue.ix).returned.map
      (fun r => r.1.isOk) = some false ∧
    ((ProductQueue.deleteBySignature 10 (Signature.fill 1)) a.queue).returned.map Prod.fst =
      some PqStatus.notFound.toInt ∧
    ((QueueCursor.setCursorFromSignature 10 (Signature.fill 1) true Timestamp.NONE) a.queue).returned.map Prod.fst =
      some (PqStatus.notFound.toInt, Timestamp.NONE) := by
  simp only [exists_and_left]
  apply exists_computed tick aheadOps
  decide +kernel

end Rdm
