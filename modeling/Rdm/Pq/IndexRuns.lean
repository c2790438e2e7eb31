import Rdm.Pq.Allocation

/-!
# The layout of the data section over whole runs

However products are allocated, committed, deleted and freed, the regions tile the data section, free ones are never
neighbours, and the counters are right.
-/

namespace Rdm

open ProgLogic ProgLogic.Prog Links List
open RegionList (allocs)

namespace RegionList

/-! ## What is in the lists -/

def hashed (rl : RegionList) : List Nat :=
  allocs rl fun i => follow (fun x => (rl.rp x).next) RL_NONE rl.nalloc (rl.chains i)

def listed (o : FreeOrder) (s : RlFb) : List Nat :=
  let next := fun x => s.fb.fblks (o.ptr (s.rl.rp x))
  follow next o.tail s.rl.nalloc (next (o.head s.rl))

def emptySlots (rl : RegionList) : List Nat := follow (fun x => (rl.rp x).next) RL_NONE rl.nalloc rl.empty

/-- Where each of some regions begins and how long it is. -/
def extents (rl : RegionList) (xs : List Nat) : List (Int × Nat) :=
    xs.map fun x => ((rl.rp x).offset, (rl.rp x).getExtent)

/-- **The layout of the data section**, in terms of what the lists hold. -/
structure Layout (D : DataSection) (s : RlFb) : Prop where
  nodup : (hashed s.rl ++ listed .offset s).Nodup
  cover : ∀ b : Int, D.datao ≤ b ∧ b < D.ixo ↔
    ∃ x ∈ hashed s.rl ++ listed .offset s, (s.rl.rp x).offset ≤ b ∧ b < (s.rl.rp x).offset + (s.rl.rp x).getExtent
  apart : ∀ x ∈ hashed s.rl ++ listed .offset s, ∀ y ∈ hashed s.rl ++ listed .offset s, x ≠ y →
    (s.rl.rp x).offset + (s.rl.rp x).getExtent ≤ (s.rl.rp y).offset ∨
      (s.rl.rp y).offset + (s.rl.rp y).getExtent ≤ (s.rl.rp x).offset
  nonempty : ∀ x ∈ hashed s.rl ++ listed .offset s, 0 < (s.rl.rp x).getExtent
  agree : (listed .extent s).Perm (listed .offset s)
  noAdj : ∀ x ∈ listed .offset s, ∀ y ∈ listed .offset s,
    (s.rl.rp x).offset + (s.rl.rp x).getExtent ≠ (s.rl.rp y).offset
  aligned : ∀ x ∈ hashed s.rl ++ listed .offset s, (D.align : Int) ∣ (s.rl.rp x).offset
  counts : s.rl.nelems + s.rl.nfree + s.rl.nempty = s.rl.nalloc
  nelems : s.rl.nelems = (hashed s.rl).length
  nfree : s.rl.nfree = (listed .offset s).length
  nempty : s.rl.nempty = (emptySlots s.rl).length
  maxfextent : s.rl.maxfextent = ((listed .offset s).map fun x => (s.rl.rp x).getExtent).foldr max 0

variable {s : RlFb} {own : Nat → FreeBlock.Owner Holder} {D : DataSection} {xs em : List Nat} {C : Nat → List Nat}

theorem HashInv.hashed_eq (h : HashInv s.rl C) : hashed s.rl = allocs s.rl C := by
  refine buckets_congr fun i hi => ?_
  have hsub : ∀ x ∈ C i, x ∈ allocs s.rl C := fun x hx => mem_allocs.2 ⟨i, hi, hx⟩
  have hnd : (C i).Nodup := (nodup_flatMap.1 h.nodup).1 i (mem_range.2 hi)
  exact follow_chain (h.chain i hi) (fun hm => h.ne_none (hsub _ hm) rfl)
    (Nat.le_trans (subperm_of_subset hnd hsub).length_le h.length)

theorem ListInv.listed_eq {o : FreeOrder} {zs : List Nat} {ht : Nat → Nat} (h : ListInv o s own zs ht) :
    listed o s = zs := by
  have hall : SkipList.onLevel ht 0 zs = zs := filter_eq_self.2 fun x _ => by simp
  have hchain := h.skip.chain 0 (Nat.zero_le _)
  rw [hall] at hchain
  have htl : o.tail ∉ zs := (nodup_cons.1 (nodup_cons.1 h.skip.nodup).2).1
  rw [listed, h.head]
  exact follow_chain hchain htl h.length

theorem Shape.emptySlots_eq {tl hand : List Nat} (h : Shape s.rl D tl xs hand em C) : emptySlots s.rl = em := by
  refine follow_chain h.empty (fun hm => ?_) (by have := h.length; omega)
  have h1 := (h.mem_slots (mem_append_right _ hm)).2
  have h2 := h.hash.small
  omega

theorem IsMax.eq_foldr {rl : RegionList} {m : Nat} (h : IsMax rl xs m) :
    m = (xs.map fun x => (rl.rp x).getExtent).foldr max 0 := by
  have hle : ∀ (l : List Nat) (b : Nat), l.foldr max 0 ≤ b ↔ ∀ a ∈ l, a ≤ b := by
    intro l b
    induction l with
    | nil => simp
    | cons a l ih => simp [ih]
  refine Nat.le_antisymm ?_ ((hle _ m).2 fun a ha => ?_)
  · rcases h.2 with h0 | ⟨x, hx, he⟩
    · omega
    · rw [← he]
      exact (hle _ _).1 (Nat.le_refl _) _ (mem_map_of_mem hx)
  · obtain ⟨x, hx, rfl⟩ := mem_map.1 ha
    exact h.1 x hx

theorem RlInv.layout (h : RlInv s own D xs [] em C) (hmax : IsMax s.rl xs s.rl.maxfextent) (hadj : NoAdj s.rl xs) :
    Layout D s := by
  obtain ⟨tl, hs⟩ := h.shape
  obtain ⟨zs, ht, hl, hp⟩ := h.free.list .offset
  obtain ⟨zs', ht', hl', hp'⟩ := h.free.list .extent
  have hmem : ∀ x, x ∈ allocs s.rl C ++ zs ↔ x ∈ tl := by
    intro x
    rw [hs.part.mem_iff]
    simp only [mem_append, hp.mem_iff, not_mem_nil, false_or]
    exact Or.comm
  have hnd : (allocs s.rl C ++ zs).Nodup := by
    refine (List.Perm.nodup_iff ?_).1 hs.part_nodup
    exact perm_append_comm.trans (hp.symm.append_left _)
  have hoff := hl.listed_eq
  have hext := hl'.listed_eq
  have hhash := hs.hash.hashed_eq
  constructor
  case nodup => rw [hhash, hoff]; exact hnd
  case cover => simp only [hhash, hoff, hmem]; exact hs.tiles.cover
  case apart => simp only [hhash, hoff, hmem]; exact fun x hx y hy hne => hs.tiles.apart hx hy hne
  case nonempty => simp only [hhash, hoff, hmem]; exact fun x hx => (hs.tiles.mem x hx).2.1
  case agree => rw [hext, hoff]; exact hp'.trans hp.symm
  case noAdj => rw [hoff]; exact fun x hx y hy => hadj x (hp.mem_iff.1 hx) y (hp.mem_iff.1 hy)
  case aligned => simp only [hhash, hoff, hmem]; exact hs.aligned
  case counts => exact h.counts
  case nelems => rw [hhash]; exact h.nelems
  case nfree => rw [hoff, h.nfree, hp.length_eq]
  case nempty => rw [hs.emptySlots_eq]; exact h.nempty
  case maxfextent => rw [hoff]; exact (hmax.congr (fun x => hp.mem_iff) fun _ _ => rfl).eq_foldr

end RegionList

namespace QueueIndexManager

variable {ω : Type} {D : DataSection} {s : QueueIndexManager ω}

/-! ## Runs of the index -/

/-- What happens to the index: its own operations with any callbacks, the commit of any offset, and the end of a control
lock. -/
inductive IndexOp (ω : Type) where
  | allocateProductSpace (cb : Callbacks ω) (extent : Nat) (sig : Signature)
  | freeByOffset (offset : Int) (sig : Signature)
  | deleteOldest (cb : Callbacks ω)
  | commit (now : Timestamp) (offset : Int)
  | clear

def IndexOp.run : IndexOp ω → Prog (QueueIndexManager ω) Unit
  | .allocateProductSpace cb extent sig => do let _ ← QueueIndexManager.allocateProductSpace cb extent sig
  | .freeByOffset offset sig => do let _ ← QueueIndexManager.freeByOffset offset sig
  | .deleteOldest cb => do let _ ← QueueIndexManager.deleteOldest cb
  | .commit now offset => do let _ ← onTq (TimeQueue.add now offset)
  | .clear => QueueIndexManager.clear

def IndexOp.Valid (align : Nat) : IndexOp ω → Prop
  | .allocateProductSpace _ extent _ => 1 ≤ extent ∧ extent + align ≤ 2 ^ 64
  | _ => True

def runOps : List (IndexOp ω) → Prog (QueueIndexManager ω) Unit
  | [] => pure ()
  | op :: ops => do
    op.run
    runOps ops

def formatAndRun (nalloc : Nat) (D : DataSection) (ops : List (IndexOp ω)) : Prog (QueueIndexManager ω) Unit := do
  let status ← formatNew nalloc D.datao D.ixo
  assert (status = 0)
  runOps ops

/-- The index is in order and has a signature for every region. -/
def Settled (D : DataSection) (s : QueueIndexManager ω) : Prop :=
  ∃ g, IndexInv D s g ∧ (catalog s g).sigs.card = (catalog s g).regions.card

/-- **One operation** keeps the invariant. -/
theorem IndexOp.run_spec (h : Settled D s) {op : IndexOp ω} (hop : op.Valid D.align) :
    wlp op.run (fun _ => Settled D) s := by
  obtain ⟨g, h, hpair⟩ := h
  cases op with
  | allocateProductSpace cb extent sig =>
    refine wlp_bind.2 ((allocateProductSpace_spec h hpair hop.1 hop.2 sig).wlp.mono ?_)
    rintro res s' ⟨g', h', hres⟩
    refine wlp_pure.2 ⟨g', h', ?_⟩
    rcases hres with ⟨_, _, hev⟩ | ⟨off, ext, a, _, _, _, hev, hcat⟩
    · exact hev.paired hpair
    · have hpa := hev.paired hpair
      simpa [hcat, Catalog.addRegion, Catalog.addSig] using hpa
  | freeByOffset off sig =>
    refine wlp_bind.2 ((freeByOffset_spec h off sig).wlp.mono ?_)
    intro st s' hst
    rw [wlp_pure]
    rcases hst with ⟨_, hs', _⟩ | ⟨_, _, g', ext, h', hf, _⟩
    · exact hs' ▸ ⟨g, h, hpair⟩
    · obtain ⟨o, ho⟩ := hf.sigs
      refine ⟨g', h', ?_⟩
      simpa [ho, hf.regions] using hpair
  | deleteOldest cb =>
    refine wlp_bind.2 ((deleteOldest_spec h).wlp.mono ?_)
    rintro st s' ⟨g', hsh, _⟩
    exact wlp_pure.2 ⟨g', hsh.inv, hsh.evictions.paired hpair⟩
  | commit now off =>
    refine wlp_bind.2 ((tqAdd_spec h now off).mono ?_)
    rintro st s' ⟨_, _, g', key, h', hst⟩
    refine wlp_pure.2 ⟨g', h', ?_⟩
    rw [hst.rest]
    exact hpair
  | clear => exact wlp_modify.2 ⟨g, h.control s.env s.isFull _, hpair⟩

/-- **Any sequence** of operations keeps the invariant. -/
theorem runOps_spec : ∀ {ops : List (IndexOp ω)} {s : QueueIndexManager ω}, Settled D s →
    (∀ op ∈ ops, op.Valid D.align) → wlp (runOps ops) (fun _ => Settled D) s
  | [], _, h, _ => wlp_pure.2 h
  | op :: ops, _, h, hops => by
    refine wlp_bind.2 ((op.run_spec h (hops op mem_cons_self)).mono ?_)
    intro _ s' h'
    exact runOps_spec h' fun op' hop' => hops op' (mem_cons_of_mem _ hop')

theorem formatNew_large {nalloc : Nat} (h : 2 ^ 28 ≤ nalloc) {datao ixo : Int} (Q : Int → QueueIndexManager ω → Prop) :
    wlp (formatNew nalloc datao ixo) Q s := by
  have hlog : 14 ≤ log4 nalloc := by
    unfold log4
    exact Nat.le_log_of_pow_le (by omega) (by omega)
  rw [formatNew, wlp_bind, wlp_zoom, FreeBlock.initialise, wlp_bind, wlp_assert]
  intro _
  rw [wlp_bind, wlp_assert]
  intro hlt
  simp only [FB_MAX_LEVELS] at hlt
  omega

theorem formatNew_small {nalloc : Nat} (h : nalloc < 4) {datao ixo : Int} (Q : Int → QueueIndexManager ω → Prop) :
    wlp (formatNew nalloc datao ixo) Q s := by
  have hspare : FreeBlock.spareBlks nalloc = 0 := by
    have hlog : log4 nalloc = 0 := Nat.log_of_lt h
    simp [FreeBlock.spareBlks, hlog]
  rw [formatNew, wlp_bind, wlp_zoom, FreeBlock.initialise]
  simp only [wlp_bind, wlp_assert, wlp_modify, hspare]
  intro _ _
  refine wlp_true.mono ?_
  intro offset fb _
  simp only [FreeBlock.initLevel, wlp_bind, wlp_read, wlp_assert]
  intro _ _ hpos
  exact absurd hpos (Nat.lt_irrefl 0)

theorem formatNew_apart (hal : s.align = D.align) (nalloc : Nat) : wlp (formatNew nalloc D.datao D.ixo)
    (fun _ s' => s'.env = s.env ∧ ∃ g, IndexInv D s' g ∧ catalog s' g = Catalog.empty) s := by
  by_cases h4 : 4 ≤ nalloc
  · by_cases h28 : nalloc < 2 ^ 28
    · exact (formatNew_spec D s hal h4 h28).wlp.mono fun _ _ h => h.2
    · exact formatNew_large (by omega) _
  · exact formatNew_small (by omega) _

theorem formatNew_empty (hal : s.align = D.align) (nalloc : Nat) :
    wlp (formatNew nalloc D.datao D.ixo) (fun _ s' => ∃ g, IndexInv D s' g ∧ catalog s' g = Catalog.empty) s :=
  (formatNew_apart hal nalloc).mono fun _ _ h => h.2

theorem formatAndRun_spec {nalloc : Nat} (h4 : 4 ≤ nalloc) (hal : s.align = D.align) {ops : List (IndexOp ω)}
    (hops : ∀ op ∈ ops, op.Valid D.align) : wlp (formatAndRun nalloc D ops) (fun _ => Settled D) s := by
  rw [formatAndRun, wlp_bind]
  by_cases h28 : nalloc < 2 ^ 28
  · refine (formatNew_spec D s hal h4 h28).wlp.mono ?_
    rintro status s1 ⟨hst, _, g, h, hcat⟩
    rw [wlp_bind, wlp_assert]
    intro _
    exact runOps_spec ⟨g, h, by rw [hcat]; rfl⟩ hops
  · exact formatNew_large (by omega) _

/-- **The data section is tiled** after every sequence of operations: regions are disjoint and leave no gap, no two free
ones are neighbours, offsets are aligned, and every counter is right. -/
theorem layout_after_run (nalloc : Nat) (h4 : 4 ≤ nalloc) (D : DataSection) (s : QueueIndexManager ω)
    (hal : s.align = D.align) (ops : List (IndexOp ω)) (hops : ∀ op ∈ ops, op.Valid D.align) :
    wlp (formatAndRun nalloc D ops) (fun _ s' => RegionList.Layout D ⟨s'.rl, s'.fb⟩) s := by
  refine (formatAndRun_spec h4 hal hops).mono ?_
  rintro _ s' ⟨g, h, _⟩
  exact h.regions.layout h.max h.noAdj

def smallSection : DataSection where
  datao := 4096
  ixo := 5120
  align := 8
  header := by decide
  nonempty := by decide
  fits := by decide
  even := by decide
  align_pos := by decide
  align_even := by decide
  aligned := by decide

def blank : QueueIndexManager Unit where
  rl := ⟨0, 0, 0, 0, 0, 0, 0, 0, 0, 0, 0, 0, 0, 0, 0, 0, fun _ => ⟨0, 0, 0, 0⟩, fun _ => 0⟩
  tq := ⟨0, 0, 0, 0, 0, fun _ => ⟨⟨0, 0⟩, 0, 0⟩⟩
  fb := ⟨0, 0, 0, 0, fun _ => 0, fun _ => 0, fun _ => 0, []⟩
  sx := ⟨0, 0, 0, 0, 0, fun _ => ⟨default, 0, 0⟩, fun _ => 0⟩
  align := 8
  isFull := false
  smallestExtentSeen := 2 ^ 64 - 1
  env := ()

def fixedCallbacks : Callbacks Unit where
  decode := fun _ _ _ => ((0, { signature := Signature.fill 1 }), ())
  mvrt := fun _ _ _ _ => ()

def smallRun : List (IndexOp Unit) :=
  [.allocateProductSpace fixedCallbacks 400 (Signature.fill 1), .commit ⟨5, 0⟩ 4096, .clear,
    .allocateProductSpace fixedCallbacks 300 (Signature.fill 2),
    .allocateProductSpace fixedCallbacks 380 (Signature.fill 3), .freeByOffset 4496 (Signature.fill 2)]

theorem smallRun_valid : ∀ op ∈ smallRun, op.Valid smallSection.align := by
  intro op hop
  simp only [smallRun, mem_cons, not_mem_nil, or_false] at hop
  rcases hop with rfl | rfl | rfl | rfl | rfl | rfl
  all_goals first | exact trivial | exact ⟨by decide, by decide⟩

theorem layout_after_run_small : (formatAndRun 4 smallSection smallRun blank).returned.isSome = true ∧
    wlp (formatAndRun 4 smallSection smallRun) (fun _ s' => RegionList.Layout smallSection ⟨s'.rl, s'.fb⟩) blank :=
  ⟨by decide +kernel, layout_after_run 4 (by decide) smallSection blank rfl smallRun smallRun_valid⟩

def wrappingRun : List (IndexOp Unit) :=
  [.allocateProductSpace fixedCallbacks 400 (Signature.fill 1),
    .allocateProductSpace fixedCallbacks (2 ^ 64 - 1) (Signature.fill 2), .freeByOffset 4096 (Signature.fill 1)]

/-- **An extent that wraps around** when it is rounded up makes a region of no bytes, which does not keep its neighbours
apart: the free region then lies around the allocated one. -/
theorem layout_wraps_around : ∃ s' : QueueIndexManager Unit,
    (formatAndRun 8 smallSection wrappingRun blank).returned = some ((), s') ∧
    s'.rl.extents (RegionList.hashed s'.rl) = [(4496, 0)] ∧
    s'.rl.extents (RegionList.listed .offset ⟨s'.rl, s'.fb⟩) = [(4096, 1024)] ∧
    ¬ RegionList.Layout smallSection ⟨s'.rl, s'.fb⟩ := by
  have hrun : (formatAndRun 8 smallSection wrappingRun blank).returned.map (fun r =>
      (r.2.rl.extents (RegionList.hashed r.2.rl), r.2.rl.extents (RegionList.listed .offset ⟨r.2.rl, r.2.fb⟩))) =
      some ([(4496, 0)], [(4096, 1024)]) := by decide +kernel
  obtain ⟨⟨⟨⟩, s'⟩, hret, heq⟩ := Option.map_eq_some_iff.1 hrun
  obtain ⟨halloc, hfree⟩ := Prod.mk.inj heq
  refine ⟨s', hret, halloc, hfree, fun hlayout => ?_⟩
  obtain ⟨x, hx, hregion⟩ := map_eq_singleton_iff.1 halloc
  obtain ⟨y, hy, hgap⟩ := map_eq_singleton_iff.1 hfree
  have hne : x ≠ y := by
    rintro rfl
    cases hregion.symm.trans hgap
  have hapart := hlayout.apart x (by simp [hx]) y (by simp [hy]) hne
  simp only [Prod.mk.injEq] at hregion hgap
  rw [hregion.1, hregion.2, hgap.1, hgap.2] at hapart
  omega

end QueueIndexManager

end Rdm
