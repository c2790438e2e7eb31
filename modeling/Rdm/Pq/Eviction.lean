import Mathlib.Logic.Relation
import Rdm.Pq.Catalog

/-!
# Deleting the oldest products

`DeleteOldest` looks for a product that it can delete, from the oldest on. Whatever the callbacks do, the catalog goes
through `EvictStep`s.
-/

namespace Rdm

open ProgLogic ProgLogic.Prog List
open RegionList (allocs)

/-- `a'` is `a` without the region `(off, ext)` and the signature `sig`. The offset filed under the signature need not
be `off`. -/
structure Catalog.Freed (a : Catalog) (off : Int) (ext : Nat) (sig : Signature) (a' : Catalog) : Prop where
  regions : a.regions = (off, ext) ::ₘ a'.regions
  sigs : ∃ o, a.sigs = (sig, o) ::ₘ a'.sigs
  nbytes : a'.nbytes = sizeSub a.nbytes ext

/-- The product with the time `t` was removed as well. -/
structure Catalog.Without (a : Catalog) (t : Timestamp) (off : Int) (ext : Nat) (sig : Signature) (a' : Catalog) :
    Prop extends a.Freed off ext sig a' where
  times : ∃ pre suf, a.times = pre ++ (t, off) :: suf ∧ a'.times = pre ++ suf

theorem Catalog.Freed.region_gone {a a' : Catalog} {off : Int} {ext : Nat} {sig : Signature}
    (hf : a.Freed off ext sig a') (h : a.Spread) : off ∉ a'.regions.map Prod.fst := by
  have hnd := h.regions
  rw [hf.regions, Multiset.map_cons, Multiset.nodup_cons] at hnd
  exact hnd.1

/-- What looking for a product to delete can do: decode a product that has a time, or decode it and delete it. -/
inductive EvictStep {ω : Type} (cb : Callbacks ω) : Catalog × ω → Catalog × ω → Prop
  | look {a : Catalog} {e : ω} {t : Timestamp} {off : Int} {ext : Nat} : (t, off) ∈ a.times → (off, ext) ∈ a.regions →
      EvictStep cb (a, e) (a, (cb.decode off ext e).2)
  | evict {a a' : Catalog} {e : ω} {t : Timestamp} {off : Int} {ext : Nat} {rl : RegionList} :
      (cb.decode off ext e).1.1 = 0 → a.Without t off ext (cb.decode off ext e).1.2.signature a' →
      EvictStep cb (a, e) (a', cb.mvrt t (cb.decode off ext e).1.2 rl (cb.decode off ext e).2)

/-- Any number of such steps. -/
abbrev Evictions {ω : Type} (cb : Callbacks ω) : Catalog × ω → Catalog × ω → Prop :=
    Relation.ReflTransGen (EvictStep cb)

section Evictions

variable {ω : Type} {cb : Callbacks ω} {p q : Catalog × ω} (h : Evictions cb p q)
include h

theorem Evictions.keep {P : Catalog → Prop} (hp : P p.1)
    (hstep : ∀ {a a' t off ext sig}, P a → a.Without t off ext sig a' → P a') : P q.1 := by
  induction h with
  | refl => exact hp
  | tail _ hs ih =>
    cases hs with
    | look _ _ => exact ih
    | evict _ hw => exact hstep ih hw

theorem Evictions.sigs_le : q.1.sigs ≤ p.1.sigs := by
  apply h.keep (P := fun a => a.sigs ≤ p.1.sigs) le_rfl
  intro a a' t off ext sig ih hw
  obtain ⟨o, ho⟩ := hw.sigs
  exact (Multiset.le_cons_self _ _).trans (ho ▸ ih)

theorem Evictions.regions_le : q.1.regions ≤ p.1.regions := by
  apply h.keep (P := fun a => a.regions ≤ p.1.regions) le_rfl
  intro a a' t off ext sig ih hw
  exact (Multiset.le_cons_self _ _).trans (hw.regions ▸ ih)

theorem Evictions.times_sublist : q.1.times.Sublist p.1.times := by
  apply h.keep (P := fun a => a.times.Sublist p.1.times) (List.Sublist.refl _)
  intro a a' t off ext sig ih hw
  obtain ⟨pre, suf, hts, hts'⟩ := hw.times
  rw [hts] at ih
  rw [hts']
  exact (List.Sublist.append_left (sublist_cons_self _ _) _).trans ih

theorem Evictions.paired (hp : p.1.sigs.card = p.1.regions.card) : q.1.sigs.card = q.1.regions.card := by
  apply h.keep (P := fun a => a.sigs.card = a.regions.card) hp
  intro a a' t off ext sig ih hw
  obtain ⟨o, ho⟩ := hw.sigs
  simpa [ho, hw.regions] using ih

end Evictions

namespace QueueIndexManager

variable {ω : Type} {D : DataSection} {s s' : QueueIndexManager ω} {g : Ghost}
variable {cb : Callbacks ω} {s₁ s₂ : QueueIndexManager ω} {g₁ g₂ : Ghost}

/-- What an operation of the index that may delete products keeps. -/
structure Shrunk (cb : Callbacks ω) (D : DataSection) (s : QueueIndexManager ω) (g : Ghost) (s' : QueueIndexManager ω)
    (g' : Ghost) : Prop where
  inv : IndexInv D s' g'
  evictions : Evictions cb (catalog s g, s.env) (catalog s' g', s'.env)
  empties : g.em.length ≤ g'.em.length
  smallest : s'.smallestExtentSeen = s.smallestExtentSeen

theorem Shrunk.refl (h : IndexInv D s g) : Shrunk cb D s g s g := ⟨h, .refl, Nat.le_refl _, rfl⟩

theorem Shrunk.trans (h : Shrunk cb D s g s₁ g₁) (h' : Shrunk cb D s₁ g₁ s₂ g₂) : Shrunk cb D s g s₂ g₂ :=
  ⟨h'.inv, h.evictions.trans h'.evictions, Nat.le_trans h.empties h'.empties, h'.smallest.trans h.smallest⟩

theorem IndexInv.control (h : IndexInv D s g) (e : ω) (b : Bool) (n : Nat) :
    IndexInv D { s with env := e, isFull := b, smallestExtentSeen := n } g := { h with }

structure Dropped (D : DataSection) (s : QueueIndexManager ω) (g : Ghost) (x r : Nat) (sig : Signature)
    (s' : QueueIndexManager ω) (g' : Ghost) : Prop where
  inv : IndexInv D s' g'
  without : (catalog s g).Without (s.tq.tqep x).tv (s.rl.rp r).offset (s.rl.rp r).getExtent sig (catalog s' g')
  empties : g.em.length ≤ g'.em.length
  rest : s' = { s with rl := s'.rl, tq := s'.tq, fb := s'.fb, sx := s'.sx }

theorem Dropped.without_of {w : ω} {x r : Nat} {sig : Signature} {t : Timestamp} {off : Int} {g' : Ghost}
    (hd : Dropped D { s with env := w } g x r sig s' g') (ht : (s.tq.tqep x).tv = t) (hoff : (s.rl.rp r).offset = off) :
    (catalog s g).Without t off (s.rl.rp r).getExtent sig (catalog s' g') := by
  subst ht hoff
  exact hd.without

theorem unlink_spec {s₂ : QueueIndexManager ω} {x r : Nat} {pre suf : List Nat} (hts : g.ts = pre ++ x :: suf)
    (hr : r ∈ allocs s.rl g.C) (hoff : (s.rl.rp r).offset = (s.tq.tqep x).offset) {sig : Signature} {o : Int}
    {sc : Nat → List Nat} {sfl : List Nat} (hs2 : s₂ = { s with sx := s₂.sx })
      (h2 : IndexInv D s₂ { g with sc := sc, sfl := sfl })
    (hsig : (catalog s g).sigs = (sig, o) ::ₘ (catalog s₂ { g with sc := sc, sfl := sfl }).sigs) :
    wp (onTq (TimeQueue.delete x)) (fun _ => wp (onRl (RegionList.free r)) fun _ s' => ∃ g',
      Dropped D s g x r sig s' g' ∧ s'.rl.nalloc = s.rl.nalloc) s₂ := by
  refine (tqDelete_spec h2 hts).mono ?_
  rintro _ s3 ⟨hs3, own, h3, htimes⟩
  have hrl3 : s3.rl = s.rl := by rw [hs3, hs2]
  refine (rlFree_spec h3 (by rw [hrl3]; exact hr)).mono ?_
  rintro _ s4 ⟨hs4, own', xs, em, C, h4, hem, hregions, hbytes⟩
  have hsx4 : s4.sx = s₂.sx := by rw [hs4, hs3]
  have hslots : s4.rl.nalloc = s.rl.nalloc := by rw [← h4.sxSlots, hsx4, h2.sxSlots, hs2]
  refine ⟨_, ⟨h4, ?_, hem.length_le, by rw [hs4, hs3, hs2]⟩, hslots⟩
  have htq4 : s4.tq = s3.tq := by rw [hs4]
  have htq2 : s₂.tq = s.tq := by rw [hs2]
  refine ⟨⟨?_, ⟨o, ?_⟩, ?_⟩, pre.map (timeOf s.tq), suf.map (timeOf s.tq), ?_, ?_⟩
  · simpa [catalog, hrl3, regionOf] using hregions
  · simpa [catalog, hsx4] using hsig
  · simpa [catalog, hrl3] using hbytes
  · simp [catalog, hts, timeOf, hoff]
  · simpa [catalog, htq4, htq2] using htimes

theorem tryDeleteProduct_spec (h : IndexInv D s g) {x r : Nat} {pre suf : List Nat} (hts : g.ts = pre ++ x :: suf)
    (hr : r ∈ allocs s.rl g.C) (hoff : (s.rl.rp r).offset = (s.tq.tqep x).offset) {res : (Int × ProdInfo) × ω}
    (hres : cb.decode (s.rl.rp r).offset (s.rl.rp r).getExtent s.env = res) :
    wp (tryDeleteProduct cb x r) (fun out s' =>
      out.1 ≠ 0 ∧ s' = { s with env := res.2 } ∧ (out = res.1 ∨
        res.1.1 = 0 ∧ out.1 = PqStatus.corrupt.toInt ∧ res.1.2.signature ∉ (catalog s g).sigs.map Prod.fst) ∨
      out.1 = 0 ∧ res.1 = out ∧ ∃ g',
        Dropped D { s with env := res.2 } g x r out.2.signature s' g' ∧ s'.rl.nalloc = s.rl.nalloc) s := by
  simp only [tryDeleteProduct, wp_bind, wp_read, hoff, ne_eq, not_true_eq_false, if_false]
  rw [← hoff, onEnv, wp_zoom, wp_call, hres]
  split
  case isTrue hst => exact wp_pure.2 (.inl ⟨hst, rfl, .inl rfl⟩)
  case isFalse hst =>
  have hst : res.1.1 = 0 := not_not.1 hst
  have h1 : IndexInv D { s with env := res.2 } g := h.control res.2 s.isFull s.smallestExtentSeen
  refine wp.bind (sxRemove_spec h1 res.1.2.signature) ?_
  intro removed s₂ hrem
  rcases hrem with ⟨hrem, hs2, hno⟩ | ⟨hrem, hs2, o, sc, sfl, h2, hsig⟩
  · rw [if_pos hrem, wp_pure]
    exact .inl ⟨(by decide : PqStatus.corrupt.toInt ≠ 0), hs2, .inr ⟨hst, rfl, hno⟩⟩
  rw [if_neg (by simp [hrem])]
  refine wp.bind (unlink_spec (s := { s with env := res.2 }) hts hr hoff hs2 h2 hsig) ?_
  intro _ s3 hfree
  refine hfree.bind ?_
  intro _ s4 hdropped
  exact wp_pure.2 (.inr ⟨rfl, Prod.ext hst rfl, hdropped⟩)

theorem Dropped.shrunk {res : (Int × ProdInfo) × ω} {x r : Nat} {g' : Ghost}
    (hd : Dropped D { s with env := res.2 } g x r res.1.2.signature s' g')
    (hres : cb.decode (s.rl.rp r).offset (s.rl.rp r).getExtent s.env = res) (h0 : res.1.1 = 0) :
    Shrunk cb D s g { s' with isFull := true, env := cb.mvrt (s.tq.tqep x).tv res.1.2 s'.rl s'.env } g' := by
  have henv : s'.env = res.2 := by rw [hd.rest]
  refine ⟨hd.inv.control _ true _, ?_, hd.empties, by rw [hd.rest]⟩
  rw [henv]
  subst hres
  exact .single (.evict h0 hd.without)

theorem mem_catalog {x r : Nat} (hx : x ∈ g.ts) (hr : r ∈ allocs s.rl g.C)
    (hoff : (s.rl.rp r).offset = (s.tq.tqep x).offset) :
    ((s.tq.tqep x).tv, (s.rl.rp r).offset) ∈ (catalog s g).times ∧
      ((s.rl.rp r).offset, (s.rl.rp r).getExtent) ∈ (catalog s g).regions :=
  ⟨mem_map.2 ⟨x, hx, by rw [timeOf, hoff]⟩, Multiset.mem_coe.2 (mem_map_of_mem hr)⟩

/-- The callback refuses the products one after the other, as locked. -/
inductive Refused (cb : Callbacks ω) (regions : Multiset (Int × Nat)) : ω → List (Timestamp × Int) → ω → Prop
  | nil {e : ω} : Refused cb regions e [] e
  | cons {e e' : ω} {t : Timestamp} {off : Int} {ext : Nat} {l : List (Timestamp × Int)} : (off, ext) ∈ regions →
      (cb.decode off ext e).1.1 = EACCES → Refused cb regions (cb.decode off ext e).2 l e' →
      Refused cb regions e ((t, off) :: l) e'

def Searched (cb : Callbacks ω) (D : DataSection) (s : QueueIndexManager ω) (g : Ghost) (l : List (Timestamp × Int))
    (status : Int) (s' : QueueIndexManager ω) : Prop :=
  ∃ skipped e, Refused cb (catalog s g).regions s.env skipped e ∧
    (status ≠ 0 ∧ Shrunk cb D s g s' g ∧ s' = { s with env := s'.env } ∨
      status = 0 ∧ ∃ t off ext rest sig g', l = skipped ++ (t, off) :: rest ∧ (cb.decode off ext e).1.1 = 0 ∧
        Shrunk cb D s g s' g' ∧ (catalog s g).Without t off ext sig (catalog s' g') ∧ s'.rl.nalloc = s.rl.nalloc)

theorem Searched.stop {l : List (Timestamp × Int)} {status : Int} (hst : status ≠ 0) (h : Shrunk cb D s g s' g)
    (hs' : s' = { s with env := s'.env }) : Searched cb D s g l status s' :=
  ⟨[], s.env, .nil, .inl ⟨hst, h, hs'⟩⟩

theorem Searched.cons {t : Timestamp} {off : Int} {ext : Nat} {l : List (Timestamp × Int)} {status : Int}
    (hreg : (off, ext) ∈ (catalog s g).regions) (hlock : (cb.decode off ext s.env).1.1 = EACCES)
    (hs1 : s₁ = { s with env := (cb.decode off ext s.env).2 }) (hlook : Shrunk cb D s g s₁ g)
    (h : Searched cb D s₁ g l status s') : Searched cb D s g ((t, off) :: l) status s' := by
  obtain ⟨skipped, e, hskip, hend⟩ := h
  have hcat : catalog s₁ g = catalog s g := by rw [hs1]; rfl
  have henv : s₁.env = (cb.decode off ext s.env).2 := by rw [hs1]
  rw [hcat, henv] at hskip
  refine ⟨(t, off) :: skipped, e, .cons hreg hlock hskip, ?_⟩
  rcases hend with ⟨hst, hsh, hs'⟩ | ⟨hst, t', off', ext', rest, sig, g', hl, hdec, hsh, hw, hn⟩
  · exact .inl ⟨hst, hlook.trans hsh, by rw [hs', hs1]⟩
  · rw [hcat] at hw
    have hn' : s'.rl.nalloc = s.rl.nalloc := by rw [hn, hs1]
    exact .inr ⟨hst, t', off', ext', rest, sig, g', by rw [hl, cons_append], hdec, hlook.trans hsh, hw, hn'⟩

theorem deleteOldestFrom_end (h : IndexInv D s g) (fuel : Nat) (status : Int) :
    deleteOldestFrom cb (fuel + 1) TQ_NIL status s = ⟨false, .ok (status, s)⟩ := by
  obtain ⟨r, s', ⟨rfl, hr⟩, hfind⟩ := (find_nil h).bind_eq (β := Int) (RegionList.silent_find _).zoom
  rw [deleteOldestFrom, bind_of_eq rfl, hfind, if_pos hr]
  rfl

theorem deleteOldestFrom_locked (h : IndexInv D s g) {x ext : Nat} {pre suf : List Nat} (hts : g.ts = pre ++ x :: suf)
    (hreg : ((s.tq.tqep x).offset, ext) ∈ (catalog s g).regions)
    (hlock : (cb.decode (s.tq.tqep x).offset ext s.env).1.1 = EACCES) (fuel : Nat) (status : Int) :
    deleteOldestFrom cb (fuel + 1) x status s =
      deleteOldestFrom cb fuel (suf.headD TQ_NIL)
      EACCES { s with env := (cb.decode (s.tq.tqep x).offset ext s.env).2 } := by
  obtain ⟨r, s', ⟨rfl, hne, -, hoff, hregion⟩, hfind⟩ :=
    (find_region h (Multiset.mem_map_of_mem Prod.fst hreg)).bind_eq (β := Int) (RegionList.silent_find _).zoom
  have hext : (s'.rl.rp r).getExtent = ext :=
    congrArg Prod.snd (Multiset.inj_on_of_nodup_map h.spread.regions _ hregion _ hreg rfl)
  have hnext : TimeQueue.next ⟨s'.tq, s'.fb⟩ x = suf.headD TQ_NIL := TimeQueue.next_spec h.time hts
  rcases hdec : cb.decode (s'.tq.tqep x).offset ext s'.env with ⟨⟨st, info⟩, e⟩
  rw [hdec] at hlock
  obtain rfl : st = EACCES := hlock
  have hcall : onEnv (cb.decode (s'.tq.tqep x).offset ext) s' =
    ⟨false, .ok ((EACCES, info), { s' with env := e })⟩ := by
    simp [onEnv, zoom, call, hdec]
  have htry : tryDeleteProduct cb x r s' = ⟨false, .ok ((EACCES, info), { s' with env := e })⟩ := by
    rw [tryDeleteProduct, bind_of_eq rfl, if_neg (not_not.2 hoff), hoff, hext, bind_of_eq hcall]
    rfl
  rw [deleteOldestFrom, bind_of_eq rfl, hfind, if_neg hne, bind_of_eq htry, ← hnext]
  rfl

theorem Refused.skip {e : ω} {l suf : List Nat} (fuel : Nat) : ∀ (pre : List Nat) {s : QueueIndexManager ω},
    IndexInv D s g → g.ts = pre ++ (l ++ suf) → Refused cb (catalog s g).regions s.env (l.map (timeOf s.tq)) e →
    deleteOldestFrom cb (l.length + fuel) ((l ++ suf).headD TQ_NIL) EACCES s =
      deleteOldestFrom cb fuel (suf.headD TQ_NIL) EACCES { s with env := e } := by
  induction l with
  | nil =>
    intro pre s h hts href
    cases href
    rw [length_nil, Nat.zero_add, nil_append]
  | cons x l ih =>
    intro pre s h hts href
    rw [map_cons, timeOf] at href
    cases href with
    | cons hreg hlock hrest =>
    rw [length_cons, Nat.add_right_comm, cons_append, headD_cons,
      deleteOldestFrom_locked h hts hreg hlock]
    exact ih (pre ++ [x]) (h.control _ s.isFull s.smallestExtentSeen) (by simp [hts]) hrest

theorem Refused.deleteOldest_eq {e : ω} {l : List Nat} (suf : List Nat) (h : IndexInv D s g) (hts : g.ts = l ++ suf)
    (href : Refused cb (catalog s g).regions s.env (l.map (timeOf s.tq)) e) : ∃ fuel, suf.length ≤ fuel ∧
      deleteOldest cb s = deleteOldestFrom cb (fuel + 1) (suf.headD TQ_NIL) EACCES { s with env := e } := by
  have hfirst : TimeQueue.first ⟨s.tq, s.fb⟩ = g.ts.head? := TimeQueue.first_spec h.time
  have hlen : g.ts.length + g.tfl.length = s.tq.nalloc := h.time.length
  have hstart : deleteOldest cb s = deleteOldestFrom cb (s.tq.nalloc + 1) (g.ts.headD TQ_NIL) EACCES s := by
    rw [deleteOldest, bind_of_eq rfl, hfirst]
    cases hts : g.ts with
    | nil => exact (deleteOldestFrom_end h _ _).symm
    | cons x ts => rfl
  rw [hts, length_append, Nat.add_assoc] at hlen
  refine ⟨suf.length + g.tfl.length, Nat.le_add_right _ _, ?_⟩
  rw [hstart, ← hlen, hts, Nat.add_assoc]
  exact href.skip _ [] h hts

theorem deleteOldestFrom_spec : ∀ (fuel : Nat) (pre suf : List Nat) {s : QueueIndexManager ω} {status : Int},
    IndexInv D s g → g.ts = pre ++ suf → suf.length < fuel → status ≠ 0 →
    wp (deleteOldestFrom cb fuel (suf.headD TQ_NIL) status) (Searched cb D s g (suf.map (timeOf s.tq))) s
  | 0, _, _, _, _, _, _, hf, _ => absurd hf (Nat.not_lt_zero _)
  | fuel + 1, pre, [], s, status, h, _, _, hst => by
    have hend : deleteOldestFrom cb (fuel + 1) TQ_NIL status s = (pure status : Prog _ Int) s :=
      deleteOldestFrom_end h _ _
    exact (wp_congr hend).2 (wp_pure.2 (.stop hst (.refl h) rfl))
  | fuel + 1, pre, x :: suf, s, status, h, hts, hf, hst => by
    simp only [deleteOldestFrom, wp_bind, wp_read, headD_cons]
    refine (rlFind_spec h _).mono ?_
    rintro r s' ⟨hs', hr⟩
    subst hs'
    rcases hr with ⟨hr, -⟩ | ⟨hne, hr, hoff⟩
    · rw [if_pos hr, wp_pure]
      exact .stop hst (.refl h) rfl
    rw [if_neg hne, wp_bind]
    have hx : x ∈ g.ts := by rw [hts]; simp
    obtain ⟨htime, hregion⟩ := mem_catalog hx hr hoff
    have hpair : timeOf s'.tq x = ((s'.tq.tqep x).tv, (s'.rl.rp r).offset) := by rw [timeOf, hoff]
    rw [map_cons, hpair]
    refine (tryDeleteProduct_spec h hts hr hoff rfl).mono ?_
    intro out s₁ hout
    rcases hout with ⟨hne0, hs1, hwhy⟩ | ⟨h0, hout, g', hd, hn⟩
    · rw [if_neg hne0]
      have hlook : Shrunk cb D s' g s₁ g := by
        rw [hs1]
        exact ⟨h.control _ s'.isFull s'.smallestExtentSeen, .single (.look htime hregion), Nat.le_refl _, rfl⟩
      split
      case isTrue => exact wp_pure.2 (.stop hne0 hlook (by rw [hs1]))
      case isFalse hacc =>
        have hnext : TimeQueue.next ⟨s₁.tq, s₁.fb⟩ x = suf.headD TQ_NIL := TimeQueue.next_spec hlook.inv.time hts
        rw [wp_bind, wp_read, hnext]
        refine (deleteOldestFrom_spec fuel (pre ++ [x]) suf hlook.inv (by simp [hts])
          (by simp only [length_cons] at hf; omega) hne0).mono ?_
        intro st s₂ hrest
        have htq : s₁.tq = s'.tq := by rw [hs1]
        rw [htq] at hrest
        have hlock : out = (cb.decode (s'.rl.rp r).offset (s'.rl.rp r).getExtent s'.env).1 := by
          refine hwhy.resolve_right fun hc => ?_
          rw [hc.2.1] at hacc
          exact hacc (by decide)
        exact .cons hregion (hlock ▸ not_not.1 hacc) hs1 hlook hrest
    · simp only [h0, if_true, wp_bind, wp_modify, wp_read, onEnv, wp_zoom, wp_call, wp_pure]
      rw [← hout] at hd h0 ⊢
      exact ⟨[], s'.env, .nil, .inr ⟨rfl, _, _, _, _, _, g', rfl, h0, hd.shrunk rfl h0, hd.without, hn⟩⟩

/-- **Deleting the oldest product** that is not locked. -/
theorem deleteOldest_searched (h : IndexInv D s g) :
    wp (deleteOldest cb) (Searched cb D s g (catalog s g).times) s := by
  have hnil : Refused cb (catalog s g).regions s.env (([] : List Nat).map (timeOf s.tq)) s.env := .nil
  obtain ⟨fuel, hf, heq⟩ := hnil.deleteOldest_eq g.ts h rfl
  exact (wp_congr heq).2 (deleteOldestFrom_spec _ [] _ h rfl (Nat.lt_succ_of_le hf) (by decide))

def Deleted (cb : Callbacks ω) (D : DataSection) (s : QueueIndexManager ω) (g : Ghost) (status : Int)
    (s' : QueueIndexManager ω) : Prop :=
  ∃ g', Shrunk cb D s g s' g' ∧ (status = 0 → s'.rl.nelems + 1 = s.rl.nelems)

theorem deleteOldest_spec (h : IndexInv D s g) : wp (deleteOldest cb) (Deleted cb D s g) s := by
  refine (deleteOldest_searched h).mono ?_
  rintro status s' ⟨skipped, e, -, hend⟩
  rcases hend with ⟨hst, hsh, -⟩ | ⟨-, t, off, ext, rest, sig, g', -, -, hsh, hw, -⟩
  · exact ⟨g, hsh, fun h0 => absurd h0 hst⟩
  · refine ⟨g', hsh, fun _ => ?_⟩
    rw [h.nelems, hsh.inv.nelems, hw.regions, Multiset.card_cons]

/-! ## Making room -/

theorem makeSlotFrom_spec : ∀ (fuel : Nat) {s : QueueIndexManager ω} {g : Ghost}, IndexInv D s g → s.rl.nelems < fuel →
    wp (makeSlotFrom cb fuel) (fun status s' => ∃ g', Shrunk cb D s g s' g' ∧ (status = 0 → g'.em ≠ [])) s
  | 0, _, _, _, hf => absurd hf (Nat.not_lt_zero _)
  | fuel + 1, s, g, h, hf => by
    simp only [makeSlotFrom, wp_bind, wp_read]
    split
    case isTrue => exact wp_pure.2 ⟨g, .refl h, fun h => by cases h⟩
    case isFalse =>
    refine wp.bind (deleteOldest_spec h) ?_
    rintro status s₁ ⟨g₁, hsh, hn⟩
    split
    case isTrue hst => exact wp_pure.2 ⟨g₁, hsh, fun h0 => absurd h0 hst⟩
    case isFalse hst =>
    have hn := hn (not_not.1 hst)
    rw [wp_bind, wp_read, hsh.inv.hasSpace]
    split
    case isTrue =>
      refine (makeSlotFrom_spec fuel hsh.inv (by omega)).mono ?_
      rintro st s₂ ⟨g₂, hsh2, hem⟩
      exact ⟨g₂, hsh.trans hsh2, hem⟩
    case isFalse hem => exact wp_pure.2 ⟨g₁, hsh, fun _ => by simpa using hem⟩

theorem ensureSlot_spec (h : IndexInv D s g) :
    wp (ensureSlot cb) (fun status s' => ∃ g', Shrunk cb D s g s' g' ∧ (status = 0 → g'.em ≠ [])) s := by
  rw [ensureSlot, wp_bind, wp_read, h.hasSpace]
  split
  case isTrue =>
    rw [makeSlot, wp_bind, wp_read]
    exact makeSlotFrom_spec _ h (Nat.lt_succ_self _)
  case isFalse hem => exact wp_pure.2 ⟨g, .refl h, fun _ => by simpa using hem⟩

end QueueIndexManager

end Rdm
