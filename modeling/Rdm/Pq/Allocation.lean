import Rdm.Pq.Eviction
import Rdm.Pq.RegionInit

/-!
# Allocating and freeing through the index

`AllocateProductSpace` makes room by deleting products, takes a free region, cuts off what is not needed and enters the
region and the signature.
-/

namespace Rdm

open ProgLogic ProgLogic.Prog FreeBlock RegionList SignatureIndex List

namespace QueueIndexManager

variable {ω : Type} {D : DataSection} {s s' s₁ : QueueIndexManager ω} {g g₁ : Ghost} {cb : Callbacks ω} {extent : Nat}
variable {r : Nat} {sig : Signature}

/-! ## Taking a free region -/

/-- A region of at least `extent` bytes was taken off the free lists. -/
structure Taken (D : DataSection) (s : QueueIndexManager ω) (g : Ghost) (extent r : Nat) (s' : QueueIndexManager ω)
    (g' : Ghost) : Prop where
  inv : IndexInv D s' g' [r]
  noAdj : NoAdj s'.rl (r :: g'.xs)
  enough : extent ≤ (s'.rl.rp r).getExtent
  same : catalog s' g' = catalog s g
  empties : g'.em = g.em
  rest : s' = { s with rl := s'.rl, fb := s'.fb }

theorem catalog_kept {g' : Ghost} (hrest : s' = { s with rl := s'.rl, fb := s'.fb })
    (hg : g' = { g with own := g'.own, xs := g'.xs, em := g'.em })
    (hk : Kept s.rl s'.rl g.C) : catalog s' g' = catalog s g := by
  have hC : g'.C = g.C := by rw [hg]
  have hmap : (allocs s'.rl g.C).map (regionOf s'.rl) = (allocs s.rl g.C).map (regionOf s.rl) := by
    rw [allocs_congr hk.nchains]
    exact map_congr_left fun y hy => by rw [regionOf, regionOf, hk.rp y hy]
  ext1
  · simp only [catalog, hC, hmap]
  · simp only [catalog]
    rw [hrest, hg]
  · show g'.ts.map (timeOf s'.tq) = g.ts.map (timeOf s.tq)
    rw [hrest, hg]
  · exact hk.nbytes

theorem rlGet_best (h : IndexInv D s g) (hpos : 0 < extent) :
    wp (onRl (get extent)) (fun r s' =>
      r = RL_NONE ∧ s' = s ∧ (∀ x ∈ g.xs, (s.rl.rp x).getExtent < extent) ∨
      r ≠ RL_NONE ∧ BestFit s.rl g.xs extent r ∧ s'.rl.rp = s.rl.rp ∧
        ∃ own, Taken D s g extent r s' { g with own := own, xs := g.xs.erase r }) s := by
  rw [onRl, wp_zoom]
  refine (get_spec h.regions h.max hpos).mono ?_
  intro r t hr
  rcases hr with ⟨hr, ht, hsmall⟩ | ⟨hbest, own', hinv, hmax, hk, hrp, hkept⟩
  · subst ht
    exact .inl ⟨hr, rfl, hsmall⟩
  · have hr := hbest.mem
    have hrp : t.rl.rp = s.rl.rp := hrp
    have hne : r ≠ RL_NONE := by
      obtain ⟨tl, hs⟩ := h.regions.shape
      have h1 : r < s.rl.nalloc + RL_FREE_OVERHEAD := (hs.mem_slots (mem_append_left _ (hs.free_mem hr))).2
      have h2 := h.hash.small
      omega
    have hsub : ∀ y ∈ r :: g.xs.erase r, y ∈ g.xs := by
      intro y hy
      rcases mem_cons.1 hy with rfl | hy
      · exact hr
      · exact mem_of_mem_erase hy
    have hadj : NoAdj t.rl (r :: g.xs.erase r) := by
      intro y hy z hz
      rw [hrp]
      exact h.noAdj y (hsub y hy) z (hsub z hz)
    refine .inr ⟨hne, hbest, hrp, own', ?_, hadj, ?_, catalog_kept rfl rfl hkept, rfl, rfl⟩
    · exact { h with
        time := h.time.frame hk
        regions := hinv
        max := hmax
        noAdj := fun y hy z hz => hadj y (mem_cons_of_mem _ hy) z (mem_cons_of_mem _ hz)
        tqSlots := h.tqSlots.trans hkept.nalloc.symm
        sxSlots := h.sxSlots.trans hkept.nalloc.symm }
    · show extent ≤ (t.rl.rp r).getExtent
      rw [hrp]
      exact hbest.enough

theorem rlGet_spec (h : IndexInv D s g) (hpos : 0 < extent) :
    wp (onRl (get extent)) (fun r s' => r = RL_NONE ∧ s' = s ∨
      r ≠ RL_NONE ∧ ∃ g', Taken D s g extent r s' g') s := by
  refine (rlGet_best h hpos).mono ?_
  rintro r s' (⟨hr, hs', -⟩ | ⟨hne, -, -, own, ht⟩)
  · exact .inl ⟨hr, hs'⟩
  · exact .inr ⟨hne, _, ht⟩

def Found (cb : Callbacks ω) (D : DataSection) (s : QueueIndexManager ω) (g : Ghost) (extent : Nat)
    (res : Except Int Nat) (s' : QueueIndexManager ω) : Prop :=
  (∃ status g', res = .error status ∧ Shrunk cb D s g s' g') ∨
    ∃ r s₁ g₁ g', res = .ok r ∧ Shrunk cb D s g s₁ g₁ ∧ Taken D s₁ g₁ extent r s' g'

theorem Found.after {res : Except Int Nat} (hsh : Shrunk cb D s g s₁ g₁) (hf : Found cb D s₁ g₁ extent res s') :
    Found cb D s g extent res s' := by
  rcases hf with ⟨st, g', hr, h⟩ | ⟨r, s2, g2, g', hr, h, ht⟩
  · exact .inl ⟨st, g', hr, hsh.trans h⟩
  · exact .inr ⟨r, s2, g2, g', hr, hsh.trans h, ht⟩

theorem makeSpaceFrom_spec (hpos : 0 < extent) : ∀ (fuel : Nat) {s : QueueIndexManager ω} {g : Ghost},
    IndexInv D s g → s.rl.nelems < fuel → wp (makeSpaceFrom cb extent fuel) (Found cb D s g extent) s
  | 0, _, _, _, hf => absurd hf (Nat.not_lt_zero _)
  | fuel + 1, s, g, h, hf => by
    simp only [makeSpaceFrom, wp_bind, wp_read]
    split
    case isTrue => exact wp_pure.2 (.inl ⟨_, g, rfl, .refl h⟩)
    case isFalse =>
    refine wp.bind (deleteOldest_spec h) ?_
    rintro status s₁ ⟨g₁, hsh, hn⟩
    split
    case isTrue => exact wp_pure.2 (.inl ⟨_, g₁, rfl, hsh⟩)
    case isFalse hst =>
    have hn := hn (not_not.1 hst)
    refine wp.bind (rlGet_spec hsh.inv hpos) ?_
    intro r s2 hr
    rcases hr with ⟨hr, hs2⟩ | ⟨hr, g2, ht⟩
    · rw [if_pos hr, hs2]
      exact (makeSpaceFrom_spec hpos fuel hsh.inv (by omega)).mono fun _ _ hf => hf.after hsh
    · rw [if_neg hr, wp_pure]
      exact .inr ⟨r, s₁, g₁, g2, rfl, hsh, ht⟩

theorem takeRegion_spec (h : IndexInv D s g) (hpos : 0 < extent) :
    wp (takeRegion cb extent) (Found cb D s g extent) s := by
  rw [takeRegion]
  refine wp.bind (rlGet_spec h hpos) ?_
  intro r s₁ hr
  rcases hr with ⟨hr, hs1⟩ | ⟨hr, g₁, ht⟩
  · rw [if_pos hr, makeSpace, wp_bind, wp_read, hs1]
    exact makeSpaceFrom_spec hpos _ h (Nat.lt_succ_self _)
  · rw [if_neg hr, wp_pure]
    exact .inr ⟨r, s, g, g₁, rfl, .refl h, ht⟩

/-! ## Allocating -/

theorem trim_sum {x n : Nat} (h : IndexInv D s g [x]) (hle : extent ≤ (s.rl.rp x).getExtent) (hn : n ≤ extent) :
    sizeAdd (sizeAdd extent n) 64 = extent + n + 64 := by
  obtain ⟨tl, hs⟩ := h.regions.shape
  have hx : D.datao ≤ (s.rl.rp x).offset ∧ 0 < (s.rl.rp x).getExtent ∧
    (s.rl.rp x).offset + (s.rl.rp x).getExtent ≤ D.ixo := hs.tiles.mem x (hs.hand_mem (by simp))
  have h1 := D.header
  have h2 := D.fits
  simp only [hugeOff] at h2
  have hsum : sizeAdd extent n = extent + n := sizeAdd_of_lt (by omega)
  rw [hsum, sizeAdd_of_lt (by omega)]

theorem rlSplit_spec {z : Nat} {em : List Nat} (h : IndexInv D s g [r]) (hadj : NoAdj s.rl (r :: g.xs))
    (hem : g.em = z :: em) (hpos : 0 < extent) (hlt : extent < (s.rl.rp r).getExtent) (hal : D.align ∣ extent) :
    wp (onRl (split r extent)) (fun status s' => status = 0 ∧ s' = { s with rl := s'.rl, fb := s'.fb } ∧
      Cut s.rl s'.rl r z extent ∧ ∃ own, IndexInv D s' { g with own := own, xs := z :: g.xs, em := em } [r] ∧
        catalog s' { g with own := own, xs := z :: g.xs, em := em } = catalog s g) s := by
  have hreg : RlInv ⟨s.rl, s.fb⟩ g.own D g.xs [r] (z :: em) g.C := hem ▸ h.regions
  have hev : extent % 2 = 0 := Nat.mod_eq_zero_of_dvd (D.align_even.trans hal)
  rw [onRl, wp_zoom]
  refine (split_spec hreg hlt hev).mono ?_
  rintro status t ⟨hst, own', hfree, hk, hcut⟩
  obtain ⟨tl, hs⟩ := hreg.shape
  have hr : r ∉ g.xs := fun hm => (nodup_append.1 hs.part_nodup).2.2 r hm r (by simp) rfl
  have hz : z ∉ g.xs := fun hm => hs.empty_not_mem (z := z) mem_cons_self (hs.free_mem hm)
  have hkept := hcut.kept hs
  refine ⟨hst, rfl, hcut, own', ?_, catalog_kept rfl rfl hkept⟩
  exact { h with
    time := h.time.frame hk
    regions := hcut.inv hreg hfree hpos hlt hal
    max := hcut.isMax h.max hev hr hz
    noAdj := hcut.noAdj hs hadj hlt hpos hev
    tqSlots := h.tqSlots.trans hkept.nalloc.symm
    sxSlots := h.sxSlots.trans hkept.nalloc.symm }

theorem trimRegion_spec (h : IndexInv D s g [r]) (hadj : NoAdj s.rl (r :: g.xs)) (hem : g.em ≠ [])
    (hle : extent ≤ (s.rl.rp r).getExtent) (hpos : 0 < extent) (hal : D.align ∣ extent)
    (hsm : s.smallestExtentSeen ≤ extent) :
    wp (trimRegion r extent) (fun status s' => status = 0 ∧ s' = { s with rl := s'.rl, fb := s'.fb } ∧ ∃ g',
      IndexInv D s' g' [r] ∧ catalog s' g' = catalog s g ∧ extent ≤ (s'.rl.rp r).getExtent) s := by
  rw [trimRegion, wp_bind, wp_read, trim_sum h hle hsm]
  split
  case isFalse => exact wp_pure.2 ⟨rfl, rfl, g, h, rfl, hle⟩
  case isTrue hlt =>
  obtain ⟨z, em, hzem⟩ := exists_cons_of_ne_nil hem
  rw [wp_bind]
  refine (rlSplit_spec h hadj hzem hpos (by omega) hal).mono ?_
  rintro status s' ⟨hst, hs', hcut, own, hinv, hcat⟩
  rw [hst, if_neg (by simp), wp_pure]
  exact ⟨rfl, hs', _, hinv, hcat, (hcut.low_extent (Nat.mod_eq_zero_of_dvd (D.align_even.trans hal))).ge⟩

theorem rlSetAllocated_spec (h : IndexInv D s g [r]) :
    wp (onRl (setAllocated r)) (fun _ s' => s' = { s with rl := s'.rl } ∧ ∃ C,
      IndexInv D s' { g with C := C } ∧ regionOf s'.rl r = regionOf s.rl r ∧
      catalog s' { g with C := C } = (catalog s g).addRegion (regionOf s.rl r)) s := by
  rw [onRl, wp_zoom]
  refine (setAllocated_spec h.regions).mono ?_
  rintro _ t ⟨hfb, C, hinv, hp, hkey, hn, hb, hm⟩
  have hfb : t.fb = s.fb := hfb
  have hreg : ∀ y, regionOf t.rl y = regionOf s.rl y := fun y => Prod.ext (hkey y).1 (hkey y).2
  refine ⟨by simp [hfb], C, ?_, hreg r, ?_⟩
  · exact { h with
      time := by rw [hfb]; exact h.time
      regions := hinv
      max := by
        show IsMax t.rl g.xs t.rl.maxfextent
        rw [hm]
        exact IsMax.congr h.max (fun _ => Iff.rfl) fun y _ => (hkey y).2
      noAdj := NoAdj.congr h.noAdj (fun _ hy => hy) fun y _ => hkey y
      tqSlots := h.tqSlots.trans hn.symm
      sxSlots := h.sxSlots.trans hn.symm }
  · ext1
    · simp only [catalog, Catalog.addRegion, map_congr_left fun y (_ : y ∈ allocs t.rl C) => hreg y]
      rw [Multiset.cons_coe, Multiset.coe_eq_coe]
      exact hp.map (regionOf s.rl)
    · rfl
    · rfl
    · exact hb

theorem Taken.finish {g' : Ghost} (ht : Taken D s g extent r s' g') (hem : g.em ≠ []) (hpos : 0 < extent)
    (hal : D.align ∣ extent) (hsm : s.smallestExtentSeen ≤ extent) :
    wp (trimRegion r extent) (fun status s₁ => status = 0 ∧ wp (onRl (setAllocated r)) (fun _ s2 =>
      s2.env = s.env ∧ extent ≤ (s2.rl.rp r).getExtent ∧ ∃ g2, IndexInv D s2 g2 ∧
        catalog s2 g2 = (catalog s g).addRegion (regionOf s2.rl r)) s₁) s' := by
  have hem' : g'.em ≠ [] := by rwa [ht.empties]
  have hsm' : s'.smallestExtentSeen ≤ extent := by rwa [ht.rest]
  refine (trimRegion_spec ht.inv ht.noAdj hem' ht.enough hpos hal hsm').mono ?_
  rintro st s₁ ⟨hst, hs1, g₁, h1, hcat1, hle1⟩
  refine ⟨hst, (rlSetAllocated_spec h1).mono ?_⟩
  rintro _ s2 ⟨hs2, C, h2, hreg, hcat2⟩
  have hext : (s2.rl.rp r).getExtent = (s₁.rl.rp r).getExtent := congrArg Prod.snd hreg
  exact ⟨by rw [hs2, hs1, ht.rest], by omega, _, h2, by rw [hcat2, hreg, hcat1, ht.same]⟩

theorem allocateRegion_spec (h : IndexInv D s g) (hpos : 0 < extent) (hfit : extent + D.align ≤ 2 ^ 64)
    (sig : Signature) : wp (allocateRegion cb extent sig) (fun res s' => ∃ g', IndexInv D s' g' ∧
      ((∃ status, res = .error status ∧ Evictions cb (catalog s g, s.env) (catalog s' g', s'.env)) ∨
        ∃ r a, res = .ok r ∧ extent ≤ (s'.rl.rp r).getExtent ∧ sig ∉ a.sigs.map Prod.fst ∧
          Evictions cb (catalog s g, s.env) (a, s'.env) ∧ catalog s' g' = a.addRegion (regionOf s'.rl r))) s := by
  rw [allocateRegion]
  refine wp.bind (sxFind_spec h sig) ?_
  rintro dup s0 ⟨hs0, hdup⟩
  subst hs0
  split
  case isTrue => exact wp_pure.2 ⟨g, h, .inl ⟨_, rfl, .refl⟩⟩
  case isFalse hnone =>
  have hsig : sig ∉ (catalog s0 g).sigs.map Prod.fst := by
    rcases hdup with ⟨-, hno⟩ | ⟨x, hx, -⟩
    · exact hno
    · simp [hx] at hnone
  refine wp.bind (ensureSlot_spec h) ?_
  rintro status s₁ ⟨g₁, hsh1, hem⟩
  split
  case isTrue => exact wp_pure.2 ⟨g₁, hsh1.inv, .inl ⟨_, rfl, hsh1.evictions⟩⟩
  case isFalse hst =>
  have hem := hem (not_not.1 hst)
  obtain ⟨hal, hle, -⟩ := roundUp_spec D.align_pos hfit hpos
  rw [wp_bind, wp_read, hsh1.inv.align, wp_bind, wp_modify]
  have h2 := hsh1.inv.control s₁.env s₁.isFull (min (roundUp extent D.align) s₁.smallestExtentSeen)
  refine wp.bind (takeRegion_spec h2 (by omega)) ?_
  intro res s3 hfound
  rcases hfound with ⟨st, g3, hr, hsh3⟩ | ⟨r, s2, g2, g3, hr, hsh2, ht⟩
  · subst hr
    exact wp_pure.2 ⟨g3, hsh3.inv, .inl ⟨_, rfl, hsh1.evictions.trans hsh3.evictions⟩⟩
  subst hr
  have hem2 : g2.em ≠ [] :=
    ne_nil_of_length_pos (Nat.lt_of_lt_of_le (length_pos_of_ne_nil hem) hsh2.empties)
  have hsm : s2.smallestExtentSeen ≤ roundUp extent D.align := by
    rw [hsh2.smallest]
    exact Nat.min_le_left _ _
  refine wp.bind (ht.finish hem2 (by omega) hal hsm) ?_
  rintro st s4 ⟨hst, hrest⟩
  rw [if_neg (not_not.2 hst)]
  refine wp.bind hrest ?_
  rintro _ s5 ⟨henv, hle5, g5, h5, hcat5⟩
  have hev : Evictions cb (catalog s0 g, s0.env) (catalog s2 g2, s5.env) := by
    rw [henv]
    exact hsh1.evictions.trans hsh2.evictions
  refine wp_pure.2 ⟨_, h5, .inr ⟨r, catalog s2 g2, rfl, by omega, ?_, hev, hcat5⟩⟩
  exact fun hm => hsig (Multiset.mem_of_le (Multiset.map_le_map hev.sigs_le) hm)

def Allocated (cb : Callbacks ω) (s : QueueIndexManager ω) (g : Ghost) (extent : Nat) (sig : Signature)
    (res : Except Int (Int × Nat)) (s' : QueueIndexManager ω) (g' : Ghost) : Prop :=
  (∃ status, res = .error status ∧ Evictions cb (catalog s g, s.env) (catalog s' g', s'.env)) ∨
    ∃ off ext a, res = .ok (off, ext) ∧ extent ≤ ext ∧ sig ∉ a.sigs.map Prod.fst ∧
      Evictions cb (catalog s g, s.env) (a, s'.env) ∧ catalog s' g' = (a.addRegion (off, ext)).addSig (sig, off)

theorem IndexInv.sfl_ne_nil (h : IndexInv D s g) (hlt : (catalog s g).sigs.card < (catalog s g).regions.card) :
    g.sfl ≠ [] := by
  intro hnil
  have h1 := h.sigs.count
  have h2 := h.sigs.nfree
  have h3 := h.sigs.nelems
  have h4 := h.regions.counts
  have h5 := h.nelems
  have h6 : (catalog s g).sigs.card = (used s.sx g.sc).length := by simp [catalog, entries]
  rw [hnil, length_nil] at h2
  have h7 := h.sxSlots
  simp only at h4
  omega

theorem fileRegion_spec {a : Catalog} (h : IndexInv D s g) (hcat : catalog s g = a.addRegion (regionOf s.rl r))
    (hpair : a.sigs.card = a.regions.card) (hsig : sig ∉ a.sigs.map Prod.fst) :
    wp (onSx (add sig (s.rl.rp r).offset)) (fun sxep s' => sxep.isSome ∧ s'.env = s.env ∧ ∃ g',
      IndexInv D s' g' ∧ catalog s' g' = (a.addRegion (regionOf s.rl r)).addSig (sig, (s.rl.rp r).offset)) s := by
  have hne : g.sfl ≠ [] := h.sfl_ne_nil (by simp [hcat, Catalog.addRegion, hpair])
  have hsig' : sig ∉ (catalog s g).sigs.map Prod.fst := by rwa [hcat]
  refine (sxAdd_spec h hsig' _).mono ?_
  intro sxep s' hadd
  rcases hadd with ⟨hnil, -⟩ | ⟨hsome, hs', sc, sfl, h', hsigs⟩
  · exact absurd hnil hne
  refine ⟨hsome, by rw [hs'], _, h', ?_⟩
  have hregions : (catalog s g).regions = regionOf s.rl r ::ₘ a.regions := by rw [hcat]; rfl
  have htimes : (catalog s g).times = a.times := by rw [hcat]; rfl
  have hbytes : (catalog s g).nbytes = a.nbytes := by rw [hcat]; rfl
  have hsigs0 : (catalog s g).sigs = a.sigs := by rw [hcat]; rfl
  rw [hs'] at hsigs ⊢
  ext1
  · exact hregions
  · exact hsigs.trans (by rw [hsigs0]; rfl)
  · exact htimes
  · exact hbytes

/-- **Allocating**: an entry of the signature index is never missing. -/
theorem allocateProductSpace_spec (h : IndexInv D s g) (hpair : (catalog s g).sigs.card = (catalog s g).regions.card)
    (hpos : 0 < extent) (hfit : extent + D.align ≤ 2 ^ 64) (sig : Signature) :
    wp (allocateProductSpace cb extent sig) (fun res s' => ∃ g', IndexInv D s' g' ∧
      Allocated cb s g extent sig res s' g') s := by
  rw [allocateProductSpace]
  refine wp.bind (allocateRegion_spec h hpos hfit sig) ?_
  rintro res s₁ ⟨g₁, h1, hres⟩
  rcases hres with ⟨st, hr, hev⟩ | ⟨r, a, hr, hle, hsig, hev, hcat⟩
  · subst hr
    exact wp_pure.2 ⟨g₁, h1, .inl ⟨st, rfl, hev⟩⟩
  subst hr
  rw [wp_bind, wp_read]
  refine wp.bind (fileRegion_spec h1 hcat (hev.paired hpair) hsig) ?_
  rintro sxep s2 ⟨hsome, henv, g2, h2, hcat2⟩
  obtain ⟨x, rfl⟩ := Option.isSome_iff_exists.1 hsome
  exact wp_pure.2 ⟨g2, h2, .inr ⟨_, _, a, rfl, hle, hsig, henv ▸ hev, hcat2⟩⟩

/-! ## Statuses -/

def failures : List Int := [ENOMEM, EACCES, PqStatus.corrupt.toInt]

def Fails (cb : Callbacks ω) : Prop := ∀ off ext w, (cb.decode off ext w).1.1 ∈ 0 :: failures

def Answers {α : Type} (P : Int → Prop) (R : α → Prop) : Except Int α → Prop
  | .error status => P status
  | .ok a => R a

section

variable (hcb : Fails cb)
include hcb

theorem tryDeleteProduct_status (tqep rlix : Nat) :
    Yields (tryDeleteProduct cb tqep rlix) (fun res => res.1 ∈ 0 :: failures) := by
  have hcorrupt : PqStatus.corrupt.toInt ∈ 0 :: failures := by decide
  refine yields_then fun s => yields_ite (fun _ => yields_pure hcorrupt) fun _ => ?_
  have hdec : Yields (onEnv (cb.decode (s.rl.rp rlix).offset (s.rl.rp rlix).getExtent))
      (fun res => res.1 ∈ 0 :: failures) := by
    intro s
    rw [onEnv, wlp_zoom, wlp_call]
    exact hcb _ _ _
  refine hdec.bind fun res hres => yields_ite (fun _ => yields_pure hres) fun _ => ?_
  refine yields_then fun removed => yields_ite (fun _ => yields_pure hcorrupt) fun _ => ?_
  exact yields_then fun _ => yields_then fun _ => yields_pure mem_cons_self

theorem deleteOldestFrom_status : ∀ (fuel tqep : Nat) {status : Int}, status ∈ 0 :: failures →
    Yields (deleteOldestFrom cb fuel tqep status) (· ∈ 0 :: failures)
  | 0, _, _, _ => yields_none
  | fuel + 1, tqep, status, hst => by
    refine yields_then fun s => yields_then fun rlix => yields_ite (fun _ => yields_pure hst) fun _ => ?_
    refine (tryDeleteProduct_status hcb tqep rlix).bind fun res hres => yields_ite (fun _ => ?_) fun _ => ?_
    · exact yields_then fun _ => yields_then fun _ => yields_then fun _ => yields_pure mem_cons_self
    · refine yields_ite (fun _ => yields_pure hres) fun _ => yields_then fun s => ?_
      exact deleteOldestFrom_status fuel _ hres

theorem deleteOldest_status : Yields (deleteOldest cb) (· ∈ 0 :: failures) := by
  have hlocked : EACCES ∈ 0 :: failures := by decide
  refine yields_then fun s => ?_
  split
  case h_1 => exact yields_pure hlocked
  case h_2 => exact deleteOldestFrom_status hcb _ _ hlocked

theorem makeSlotFrom_status : ∀ fuel : Nat, Yields (makeSlotFrom cb fuel) (· ∈ 0 :: failures)
  | 0 => yields_none
  | fuel + 1 => by
    refine yields_then fun s => yields_ite (fun _ => yields_pure (by decide)) fun _ => ?_
    refine (deleteOldest_status hcb).bind fun status hst => yields_ite (fun _ => yields_pure hst) fun _ => ?_
    exact yields_then fun s => yields_ite (fun _ => makeSlotFrom_status fuel) fun _ => yields_pure mem_cons_self

theorem makeSpaceFrom_status : ∀ fuel : Nat, Yields (makeSpaceFrom cb extent fuel)
    (Answers (· ∈ failures) fun _ => True)
  | 0 => yields_none
  | fuel + 1 => by
    refine yields_then fun s => yields_ite (fun _ => yields_pure (mem_cons_self (l := [EACCES, _]))) fun _ => ?_
    refine (deleteOldest_status hcb).bind fun status hst => yields_ite (fun hne => yields_pure ?_) fun _ => ?_
    · exact (mem_cons.1 hst).resolve_left hne
    · exact yields_then fun rlix => yields_ite (fun _ => makeSpaceFrom_status fuel) fun _ => yields_pure trivial

end

theorem trimRegion_status (rlix extent : Nat) :
    Yields (trimRegion rlix extent : Prog (QueueIndexManager ω) Int) (· ∈ [0, ENOMEM]) := by
  have hsplit : Yields (split rlix extent) (· ∈ [0, ENOMEM]) := by
    refine yields_then fun s => yields_then fun _ => yields_then fun _ => yields_then fun z => ?_
    cases z with
    | none => exact yields_pure (by decide)
    | some z => exact yields_then fun _ => yields_then fun _ => yields_then fun _ => yields_pure mem_cons_self
  refine yields_then fun s => yields_ite (fun _ => ?_) fun _ => yields_pure mem_cons_self
  refine hsplit.zoom.bind fun status hst => yields_ite (fun _ => ?_) fun _ => yields_pure mem_cons_self
  exact yields_then fun _ => yields_pure hst

theorem allocateRegion_status (hcb : Fails cb) {R : Prop}
    (hfind : wlp (onSx (find sig)) (fun r _ => r.isSome = true → R) s) :
    wlp (allocateRegion cb extent sig) (fun res _ => Answers (fun status =>
      status ∈ failures ∨ status = PqStatus.dup.toInt ∧ R) (fun _ => True) res) s := by
  have hslot : Yields (ensureSlot cb) (· ∈ 0 :: failures) := by
    refine yields_then fun s => yields_ite (fun _ => ?_) fun _ => yields_pure mem_cons_self
    exact yields_then fun _ => makeSlotFrom_status hcb _
  have htake : ∀ extent, Yields (takeRegion cb extent) (Answers (· ∈ failures) fun _ => True) := by
    refine fun extent => yields_then fun rlix => yields_ite (fun _ => ?_) fun _ => yields_pure trivial
    exact yields_then fun _ => makeSpaceFrom_status hcb _
  refine wlp_bind.2 (hfind.mono fun dup s₁ hdup => ?_)
  revert s₁
  refine yields_ite (fun hsome => yields_pure (.inr ⟨rfl, hdup hsome⟩)) fun _ => ?_
  refine hslot.bind fun status hst => yields_ite (fun hne => yields_pure ?_) fun _ => ?_
  · exact .inl ((mem_cons.1 hst).resolve_left hne)
  refine yields_then fun _ => yields_then fun _ => (htake _).bind fun res hres => ?_
  cases res with
  | error status => exact yields_pure (.inl hres)
  | ok rlix =>
    refine (trimRegion_status rlix _).bind fun status hst => yields_ite (fun hne => yields_pure ?_) fun _ => ?_
    · have hmem : status = ENOMEM := mem_singleton.1 ((mem_cons.1 hst).resolve_left hne)
      exact .inl (hmem ▸ mem_cons_self)
    · exact yields_then fun _ => yields_pure trivial

/-- **The statuses of a request** for a region. -/
theorem allocateProductSpace_status (hcb : Fails cb) {R : Prop}
    (hfind : wlp (onSx (find sig)) (fun r _ => r.isSome = true → R) s) :
    wlp (allocateProductSpace cb extent sig) (fun res _ => Answers (fun status =>
      status ∈ failures ∨ status = PqStatus.dup.toInt ∧ R) (fun _ => True) res) s := by
  refine wlp_bind.2 ((allocateRegion_status hcb hfind).mono fun res s₁ hres => ?_)
  cases res with
  | error status => exact wlp_pure.2 hres
  | ok r =>
    revert s₁
    refine yields_then fun s => yields_then fun sxep => ?_
    cases sxep with
    | none => exact yields_then fun _ => yields_pure (.inl mem_cons_self)
    | some x => exact yields_pure trivial

/-- **Freeing** a region by its offset, whatever the arguments are. -/
theorem freeByOffset_spec (h : IndexInv D s g) (off : Int) (sig : Signature) :
    wp (freeByOffset off sig) (fun status s' => status = EINVAL ∧ s' = s ∧
        (off ∉ (catalog s g).regions.map Prod.fst ∨ sig ∉ (catalog s g).sigs.map Prod.fst) ∨
      status = 0 ∧ s'.env = s.env ∧ ∃ g' ext, IndexInv D s' g' ∧ (catalog s g).Freed off ext sig (catalog s' g') ∧
        (catalog s' g').times = (catalog s g).times) s := by
  rw [freeByOffset]
  refine wp.bind (rlFind_spec h off) ?_
  rintro r s₁ ⟨hs1, hr⟩
  subst hs1
  rcases hr with ⟨hr, hno⟩ | ⟨hne, hr, hoff⟩
  · rw [if_pos hr, wp_pure]
    refine .inl ⟨rfl, rfl, .inl ?_⟩
    simpa [catalog, regionOf] using hno
  rw [if_neg hne, wp_bind, wp_read]
  have hfree : (s₁.rl.rp r).isFree = false := by simp [Region.isFree, h.marked r hr]
  rw [hfree, if_neg (by simp)]
  refine wp.bind (sxRemove_spec h sig) ?_
  intro removed s2 hrem
  rcases hrem with ⟨hrem, hs2, hno⟩ | ⟨hrem, hs2, o, sc, sfl, h2, hsig⟩
  · rw [if_pos hrem, wp_pure]
    exact .inl ⟨rfl, hs2, .inr hno⟩
  rw [if_neg (by simp [hrem])]
  have hrl2 : s2.rl = s₁.rl := by rw [hs2]
  refine wp.bind (rlFree_spec h2 (by rw [hrl2]; exact hr)) ?_
  rintro _ s3 ⟨hs3, own, xs, em, C, h3, _, hregions, hbytes⟩
  have hsx3 : s3.sx = s2.sx := by rw [hs3]
  have htq3 : s3.tq = s₁.tq := by rw [hs3, hs2]
  refine wp_pure.2 (.inr ⟨rfl, by rw [hs3, hs2], _, (s₁.rl.rp r).getExtent, h3, ?_, by simp [catalog, htq3]⟩)
  constructor
  case regions => simpa [catalog, hrl2, regionOf, hoff] using hregions
  case sigs => exact ⟨o, by simpa [catalog, hsx3] using hsig⟩
  case nbytes => simpa [catalog, hrl2] using hbytes

/-! ## A new index -/

def emptyLists (own : Nat → Owner Holder) (ht : Nat → Nat) (n : Nat) : Ghost where
  own := own
  ts := []
  tfl := List.range' TQ_OVERHEAD_ELEMS (n + 1)
  ht := ht
  xs := [RL_EMPTY_HD]
  em := List.range' (RL_EMPTY_HD + 1) n
  C := fun _ => []
  sc := fun _ => []
  sfl := List.range (n + 1)

/-- **A newly formatted index** has one free region, which is the whole data section. -/
theorem formatNew_lists (D : DataSection) (s : QueueIndexManager ω) (hal : s.align = D.align) {n : Nat} (h4 : 4 ≤ n + 1)
    (h28 : n + 1 < 2 ^ 28) : wp (formatNew (n + 1) D.datao D.ixo)
    (fun status s' => status = 0 ∧ s'.env = s.env ∧ ∃ own ht,
      IndexInv D s' (emptyLists own ht n) ∧ catalog s' (emptyLists own ht n) = Catalog.empty ∧
      (s'.rl.rp RL_EMPTY_HD).offset = D.datao ∧ (s'.rl.rp RL_EMPTY_HD).getExtent = D.size) s := by
  rw [formatNew, wp_bind, wp_zoom]
  refine (FreeBlock.initialise_spec (κ := Holder) s.fb h4 h28).mono ?_
  rintro _ fb1 ⟨_, _, own1, hinv1, _⟩
  rw [wp_bind, onTq, wp_zoom]
  have htq := TimeQueue.initialise_spec (s := ⟨s.tq, fb1⟩) hinv1 (Nat.succ_pos n) (by omega)
  refine htq.mono ?_
  rintro _ t2 ⟨own2, ht2, htq2, hinv2, _, hn2⟩
  rw [wp_bind, onRl, wp_zoom]
  have hrl := initialise_spec (s := ⟨s.rl, t2.fb⟩) hinv2 (Nat.succ_pos n) h28
  refine hrl.mono ?_
  rintro _ t3 ⟨own3, hfresh, hinv3, hk3⟩
  have htq3 := htq2.frame hk3
  rw [wp_bind, onRl, wp_zoom]
  refine (addFirst_spec hfresh D).mono ?_
  rintro root t4 ⟨hroot, own4, hrl4, hk4, hoff, hext, hbytes, hn4⟩
  subst hroot
  have hsx := initialise_spec s.sx (Nat.succ_pos n) (by unfold SX_NONE; omega)
  simp only [wp_bind, onRl, modRl, onSx, wp_zoom, wp_modify, wp_pure]
  refine hsx.mono ?_
  rintro _ sx ⟨hsx, hentries, hnsx⟩
  have hsize : (D.ixo - D.datao).toNat = D.size := rfl
  refine ⟨trivial, trivial, own4, ht2, ?_, ?_, hoff, hext⟩
  · exact {
      time := htq3.frame hk4
      regions := hrl4.records D.size t4.rl.nbytes t4.rl.maxbytes t4.rl.maxfree
      max := ⟨by simp [emptyLists, hext, hsize], .inr ⟨RL_EMPTY_HD, by simp [emptyLists], hext⟩⟩
      noAdj := by
        have hpos : 0 < D.size := by
          have := D.nonempty
          simp only [DataSection.size]
          omega
        intro x hx y hy
        simp only [emptyLists, mem_singleton] at hx hy
        subst hx hy
        simp only [hext]
        omega
      sigs := hsx
      tqSlots := hn2.trans hn4.symm
      sxSlots := hnsx.trans hn4.symm
      align := hal }
  · ext1
    · simp [catalog, Catalog.empty, emptyLists, allocs, Links.buckets]
    · simp [catalog, Catalog.empty, emptyLists, hentries]
    · rfl
    · exact hbytes

theorem formatNew_spec (D : DataSection) (s : QueueIndexManager ω) (hal : s.align = D.align) {nalloc : Nat}
    (h4 : 4 ≤ nalloc)
    (h28 : nalloc < 2 ^ 28) : wp (formatNew nalloc D.datao D.ixo) (fun status s' => status = 0 ∧ s'.env = s.env ∧ ∃ g,
      IndexInv D s' g ∧ catalog s' g = Catalog.empty) s := by
  obtain ⟨n, rfl⟩ : ∃ n, nalloc = n + 1 := ⟨nalloc - 1, by omega⟩
  refine (formatNew_lists D s hal h4 h28).mono ?_
  rintro status s' ⟨hst, henv, own, ht, hinv, hcat, -⟩
  exact ⟨hst, henv, _, hinv, hcat⟩

end QueueIndexManager

end Rdm
