import Rdm.Pq.Consistency

/-!
# Inserts that fail

For a product that does not fit `AllocateProductSpace` deletes every product that is not locked. An insert that fails
after its region was allocated has to free it: `newElement` does not.
-/

namespace Rdm

open ProgLogic ProgLogic.Prog SunRpcSerializer ProductQueue List
open RegionList (allocs)
open Multiset (mem_coe mem_cons_self mem_map_of_mem)

variable {sig : Signature}

namespace QueueIndexManager

variable {ω : Type} {D : DataSection} {s s' : QueueIndexManager ω} {g g' : Ghost} {cb : Callbacks ω} {e : ω}

/-! ## All products are locked -/

/-- **Without a product that is not locked nothing is deleted.** -/
theorem deleteOldest_refused (h : IndexInv D s g)
    (href : Refused cb (catalog s g).regions s.env (catalog s g).times e) :
    ends (deleteOldest cb) (fun w status s' => w = false ∧ status = EACCES ∧ s' = { s with env := e }) s := by
  obtain ⟨fuel, -, heq⟩ := href.deleteOldest_eq [] h (append_nil _).symm
  have hend : deleteOldestFrom cb (fuel + 1) TQ_NIL EACCES { s with env := e } = _ :=
    deleteOldestFrom_end (h.control e s.isFull s.smallestExtentSeen) fuel EACCES
  exact (ends_of_eq (heq.trans hend)).2 ⟨rfl, rfl, rfl⟩

theorem ensureSlot_refused (h : IndexInv D s g) (href : Refused cb (catalog s g).regions s.env (catalog s g).times e) :
    ends (ensureSlot cb) (fun w status s' => w = false ∧
      (status = 0 ∧ s' = s ∨ status ≠ 0 ∧ (s' = s ∨ s' = { s with env := e }))) s := by
  rw [ensureSlot, ends_bind, ends_read]
  split
  case isFalse => exact ends_pure.2 ⟨rfl, .inl ⟨rfl, rfl⟩⟩
  case isTrue =>
  rw [makeSlot, ends_bind, ends_read, makeSlotFrom, ends_bind, ends_read]
  split
  case isTrue => exact ends_pure.2 ⟨rfl, .inr ⟨by decide, .inl rfl⟩⟩
  case isFalse =>
  rw [ends_bind]
  refine (deleteOldest_refused h href).mono ?_
  rintro w status s1 ⟨rfl, hst, hs1⟩
  rw [if_pos (by rw [hst]; decide), ends_pure]
  exact ⟨rfl, .inr ⟨by rw [hst]; decide, .inr hs1⟩⟩

theorem IndexInv.maxfextent_le (h : IndexInv D s g) : s.rl.maxfextent ≤ D.size := by
  rcases h.max.2 with h0 | ⟨x, hx, he⟩
  · omega
  · obtain ⟨tl, hs⟩ := h.regions.shape
    have hmem := hs.tiles.mem x (hs.part.mem_iff.2 (mem_append_left _ hx))
    simp only [DataSection.size] at hmem ⊢
    omega

theorem takeRegion_refused (h : IndexInv D s g) (href : Refused cb (catalog s g).regions s.env (catalog s g).times e)
    {extent : Nat} (hbig : D.size < extent) : ends (takeRegion cb extent) (fun w res s' => w = false ∧
      (∃ status, status ≠ 0 ∧ res = .error status) ∧ (s' = s ∨ s' = { s with env := e })) s := by
  have hmax := h.maxfextent_le
  rw [takeRegion, onRl, ends_bind, ends_zoom, RegionList.get, ends_bind, ends_read]
  rw [if_pos (by show s.rl.maxfextent < extent; omega), ends_pure, if_pos rfl]
  rw [makeSpace, ends_bind, ends_read, makeSpaceFrom, ends_bind, ends_read]
  split
  case isTrue => exact ends_pure.2 ⟨rfl, ⟨_, by decide, rfl⟩, .inl rfl⟩
  case isFalse =>
  rw [ends_bind]
  refine (deleteOldest_refused h href).mono ?_
  rintro w status s1 ⟨rfl, hst, hs1⟩
  have hne : status ≠ 0 := by rw [hst]; decide
  rw [if_pos hne, ends_pure]
  exact ⟨rfl, ⟨_, hne, rfl⟩, .inr hs1⟩

def Declined {α : Type} (s : QueueIndexManager ω) (e : ω) (w : Bool) (res : Except Int α)
    (s' : QueueIndexManager ω) : Prop :=
  w = false ∧ (∃ status, status ≠ 0 ∧ res = .error status) ∧
    ∃ e' n, s' = { s with env := e', smallestExtentSeen := n } ∧ (e' = s.env ∨ e' = e)

def Blocked (cb : Callbacks ω) (s : QueueIndexManager ω) (g : Ghost) (sig : Signature) (e : ω) : Prop :=
  sig ∈ (catalog s g).sigs.map Prod.fst ∨ Refused cb (catalog s g).regions s.env (catalog s g).times e

theorem allocateRegion_declined (h : IndexInv D s g) (hb : Blocked cb s g sig e) {extent : Nat}
    (hbig : D.size < roundUp extent D.align) : ends (allocateRegion cb extent sig) (Declined s e) s := by
  rw [allocateRegion]
  refine (sxFind_spec h sig).ends_bind (SignatureIndex.silent_find sig).zoom ?_
  rintro dup s0 ⟨hs0, hdup⟩
  subst hs0
  rcases hdup with ⟨rfl, hno⟩ | ⟨x, rfl, -⟩
  · have href := hb.resolve_left hno
    rw [if_neg (by simp), ends_bind]
    refine (ensureSlot_refused h href).mono ?_
    rintro w status s1 ⟨rfl, hcase⟩
    rcases hcase with ⟨hst, hs1⟩ | ⟨hst, hs1⟩
    · subst hs1
      rw [if_neg (not_not.2 hst), ends_bind, ends_read, h.align, ends_bind, ends_modify, ends_bind]
      have h1 := h.control s1.env s1.isFull (min (roundUp extent D.align) s1.smallestExtentSeen)
      refine (takeRegion_refused h1 href hbig).mono ?_
      rintro w res s2 ⟨rfl, ⟨st, hst2, rfl⟩, hs2⟩
      refine ends_pure.2 ⟨rfl, ⟨st, hst2, rfl⟩, ?_⟩
      rcases hs2 with hs2 | hs2
      · exact ⟨_, _, hs2, .inl rfl⟩
      · exact ⟨_, _, hs2, .inr rfl⟩
    · rw [if_pos hst, ends_pure]
      refine ⟨rfl, ⟨_, hst, rfl⟩, ?_⟩
      rcases hs1 with hs1 | hs1
      · exact ⟨_, s0.smallestExtentSeen, hs1, .inl rfl⟩
      · exact ⟨_, s0.smallestExtentSeen, hs1, .inr rfl⟩
  · rw [if_pos (by simp), ends_pure]
    exact ⟨rfl, ⟨_, by decide, rfl⟩, _, _, rfl, .inl rfl⟩

theorem allocateProductSpace_declined (h : IndexInv D s g) (hb : Blocked cb s g sig e) {extent : Nat}
    (hbig : D.size < roundUp extent D.align) : ends (allocateProductSpace cb extent sig) (Declined s e) s := by
  rw [allocateProductSpace, ends_bind]
  refine (allocateRegion_declined h hb hbig).mono ?_
  rintro w res s' ⟨rfl, ⟨status, hst, rfl⟩, hs'⟩
  exact ends_pure.2 ⟨rfl, ⟨status, hst, rfl⟩, hs'⟩

end QueueIndexManager

/-! ## A product that does not fit -/

variable {D : DataSection} {q : ProductQueue} {st : Store} {info : ProdInfo}

open QueueIndexManager

theorem ends_locked {α : Type} {m : Prog (QueueIndexManager World) α} {Q : Bool → α → ProductQueue → Prop} :
    ends (locked m) Q q ↔
      ends m (fun w a s => Q w a { q with ix := { s with smallestExtentSeen := 2 ^ 64 - 1 } }) q.ix := by
  rw [locked, ends_zoom, ends_bind]
  congr! with w a s
  simp only [ends_bind, QueueIndexManager.clear, ends_modify, ends_pure, Bool.or_false]

/-- The products that a queue stores are the same, down to their bytes, and so are the entries of its clients. -/
structure SameProducts (q q' : ProductQueue) : Prop where
  times : q'.ix.times = q.ix.times
  filed : q'.ix.filed = q.ix.filed
  regions : q'.ix.regions = q.ix.regions
  disk : q'.ix.env.disk = q.ix.env.disk
  reserved : q'.reserved = q.reserved

def Harmless (D : DataSection) (q : ProductQueue) (info : ProdInfo) : Prop :=
  info.sz.toNat = 0 ∨ D.size < info.sz.toNat ∨ info.signature ∈ q.ix.filed.map Prod.fst ∨
    ∀ i < q.ix.times.length, q.ix.env.grants (q.ix.env.requests + i) = false

theorem refused_of_denied {regions : Multiset (Int × Nat)} : ∀ (l : List (Timestamp × Int)) (w : World),
    (∀ p ∈ l, ∃ ext, (p.2, ext) ∈ regions) → (∀ i < l.length, w.grants (w.requests + i) = false) →
    Refused callbacks regions w l { w with requests := w.requests + l.length }
  | [], w, _, _ => .nil
  | (t, off) :: l, w, hreg, hdeny => by
    obtain ⟨ext, hext⟩ := hreg _ mem_cons_self
    have hgrant : w.grants w.requests = false := hdeny 0 (Nat.succ_pos _)
    have hdec : callbacks.decode off ext w = ((EACCES, {}), { w with requests := w.requests + 1 }) := by
      simp [callbacks, decodeFunc, World.getRegionNoWait, hgrant]
    refine .cons hext (by rw [hdec]) ?_
    rw [hdec, length_cons, Nat.add_comm l.length 1, ← Nat.add_assoc]
    refine refused_of_denied l _ (fun p hp => hreg p (mem_cons_of_mem _ hp)) fun i hi => ?_
    have hnext := hdeny (i + 1) (Nat.succ_lt_succ hi)
    rwa [Nat.add_comm i 1, ← Nat.add_assoc] at hnext

theorem Kept.region_of_time {s : QueueIndexManager World} {g : Ghost} (h : Kept D s g st) {p : Timestamp × Int}
    (hp : p ∈ (catalog s g).times) : ∃ ext, (p.2, ext) ∈ (catalog s g).regions := by
  obtain ⟨pg, hlive, hoff⟩ := (h.books.times p.1 p.2).1 hp
  obtain ⟨ext, hreg, -⟩ := (h.books.pages pg (Store.mem_pages_of_live hlive)).region
  exact ⟨ext, hoff ▸ hreg⟩

theorem reserve_declined {s : QueueIndexManager World} {g : Ghost} (h : IndexInv D s g) {w : World}
    (hb : Blocked callbacks s g info.signature w) (hbig : D.size < roundUp (getEncodedSize info) D.align)
    (mapped : Bool) : ends (reserve D info mapped) (Declined s w) s := by
  rw [reserve, ends_bind]
  refine (allocateProductSpace_declined h hb hbig).mono ?_
  rintro w res s' ⟨rfl, ⟨status, hst, rfl⟩, hs'⟩
  exact ends_pure.2 ⟨rfl, ⟨status, hst, rfl⟩, hs'⟩

/-- **A product that does not fit does no harm**, in every state that a queue can reach, if it is refused before a
product can be deleted for it. -/
theorem oversized_does_no_harm {P : QueueOp → Prop} {a : Audit} (h : Reached D P a)
    (hbig : D.size < roundUp (getEncodedSize info) D.align) (hsafe : Harmless D a.queue info) (mapped : Bool) :
    ∃ status q', (ProductQueue.newElement D info mapped a.queue).returned = some (status, q') ∧ status ≠ 0 ∧
      SameProducts a.queue q' := by
  refine ends.returns ?_
  rw [newElement]
  split
  case isTrue => exact ends_pure.2 ⟨rfl, by decide, rfl, rfl, rfl, rfl, rfl⟩
  case isFalse hsz =>
  split
  case isTrue => exact ends_pure.2 ⟨rfl, by decide, rfl, rfl, rfl, rfl, rfl⟩
  case isFalse hle =>
  obtain ⟨⟨g, hk⟩, -⟩ := h.holds
  obtain ⟨w, hb, hdisk⟩ : ∃ w, Blocked callbacks a.queue.ix g info.signature w ∧
      w.disk = a.queue.ix.env.disk := by
    rcases (hsafe.resolve_left hsz).resolve_left hle with hfiled | hdeny
    · refine ⟨a.queue.ix.env, Or.inl ?_, rfl⟩
      rw [← hk.inv.filed_eq]
      exact hfiled
    · rw [hk.inv.times_eq] at hdeny
      exact ⟨_, Or.inr (refused_of_denied _ _ (fun p hp => hk.region_of_time hp) hdeny), rfl⟩
  rw [ends_bind, ends_locked]
  refine (reserve_declined hk.inv hb hbig mapped).mono ?_
  rintro w₁ res s' ⟨rfl, ⟨status, hst, rfl⟩, e', n, rfl, he'⟩
  refine ends_pure.2 ⟨rfl, hst, rfl, rfl, rfl, ?_, rfl⟩
  rcases he' with rfl | rfl
  · rfl
  · exact hdisk

def deniedQueue : ProductQueue :=
  let q := blankQueue 8 tick
  { q with ix := { q.ix with env := { q.ix.env with grants := fun _ => false } } }

def wholeInfo : ProdInfo := { sampleInfo 2 with sz := 1024 }

/-- A locked product stays. -/
theorem oversized_does_no_harm_locked : ∃ (a : Audit) (status : Int) (q' : ProductQueue),
    Reached smallSection (fun _ => True) a ∧ a.queue.ix.times = [(⟨1, 0⟩, 4096)] ∧
    smallSection.size < roundUp (getEncodedSize wholeInfo) smallSection.align ∧
    Harmless smallSection a.queue wholeInfo ∧
    (ProductQueue.newElement smallSection wholeInfo true a.queue).returned = some (status, q') ∧ status ≠ 0 ∧
    SameProducts a.queue q' := by
  have hbig : smallSection.size < roundUp (getEncodedSize wholeInfo) smallSection.align := by decide
  obtain ⟨a, hreach, htimes, hlocked⟩ : ∃ a : Audit, Reached smallSection (fun _ => True) a ∧
      a.queue.ix.times = [(⟨1, 0⟩, 4096)] ∧
      ∀ i < a.queue.ix.times.length, a.queue.ix.env.grants (a.queue.ix.env.requests + i) = false := by
    refine exists_run 4 (q := deniedQueue) rfl rfl [.newElement (sampleInfo 1) true, .commit 0] ?_
    decide +kernel
  have hsafe : Harmless smallSection a.queue wholeInfo := Or.inr (Or.inr (Or.inr hlocked))
  obtain ⟨status, q', hres, hst, hsame⟩ := oversized_does_no_harm hreach hbig hsafe true
  exact ⟨a, status, q', hreach, htimes, hbig, hsafe, hres, hst, hsame⟩

set_option synthInstance.maxSize 400 in
/-- A product that is not locked is deleted for one that does not fit. -/
theorem oversized_evicts : ∃ (a : Audit) (q' : ProductQueue), Reached smallSection (fun _ => True) a ∧
    smallSection.size < roundUp (getEncodedSize wholeInfo) smallSection.align ∧
    a.queue.ix.times = [(⟨1, 0⟩, 4096)] ∧
    (ProductQueue.newElement smallSection wholeInfo true a.queue).returned = some (ENOMEM, q') ∧
    q'.ix.times = [] ∧ q'.ix.filed = [] := by
  simp only [exists_and_left]
  apply exists_computed tick [.newElement (sampleInfo 1) true, .commit 0]
  decide +kernel

/-! ## What remains of a failed insert -/

/-- **A signature that is filed is a duplicate.** -/
theorem allocateProductSpace_filed {ω : Type} {s : QueueIndexManager ω} {g : Ghost} {cb : Callbacks ω}
    (h : IndexInv D s g)
    (hsig : sig ∈ (catalog s g).sigs.map Prod.fst) (extent : Nat) : ends (allocateProductSpace cb extent sig)
      (fun w res s' => w = false ∧ res = .error PqStatus.dup.toInt ∧ s' = s) s := by
  rw [allocateProductSpace, ends_bind, allocateRegion]
  refine (sxFind_spec h sig).ends_bind (SignatureIndex.silent_find sig).zoom ?_
  rintro dup s' ⟨rfl, hdup⟩
  obtain ⟨x, rfl, -⟩ := hdup.resolve_left fun hno => hno.2 hsig
  rw [if_pos (by simp), ends_pure]
  exact ends_pure.2 ⟨rfl, rfl, rfl⟩

theorem newElement_filed {g : Ghost} (h : IndexInv D q.ix g)
    (hsig : info.signature ∈ (catalog q.ix g).sigs.map Prod.fst)
    (hsz : info.sz.toNat ≠ 0) (hle : info.sz.toNat ≤ D.size) (mapped : Bool) :
    ∃ q', (newElement D info mapped q).returned = some (PqStatus.dup.toInt, q') := by
  have hends : ends (newElement D info mapped) (fun w status _ => w = false ∧ status = PqStatus.dup.toInt) q := by
    rw [newElement, if_neg hsz, if_neg (Nat.not_lt.2 hle), ends_bind, ends_locked, reserve, ends_bind]
    refine (allocateProductSpace_filed h hsig _).mono ?_
    rintro w res s' ⟨rfl, rfl, -⟩
    exact ends_pure.2 (ends_pure.2 ⟨rfl, rfl⟩)
  obtain ⟨_, q', hret, rfl⟩ := hends.returns
  exact ⟨q', hret⟩

/-- What `newElement` has allocated is still there when it fails. -/
theorem reserve_stays {s s₁ : QueueIndexManager World} {g₁ : Ghost} {off : Int} {ext : Nat} (h₁ : IndexInv D s₁ g₁)
    (halloc : (allocateProductSpace callbacks (getEncodedSize info) info.signature s).returned =
    some (.ok (off, ext), s₁))
    (mapped : Bool) : wlp (reserve D info mapped) (fun res s' => ∀ status, res = .error status →
      ∃ g', IndexInv D s' g' ∧ (catalog s' g').regions = (catalog s₁ g₁).regions ∧
        (catalog s' g').sigs = (catalog s₁ g₁).sigs) s := by
  rw [reserve, wlp_bind]
  intro hw r s₂ hr
  cases halloc.symm.trans (Outcome.returned_eq_some.2 ⟨hw, hr⟩)
  have htracked := h₁.tracked off ext
  dsimp only
  rw [wlp_bind, wlp_modify]
  split
  case isTrue => exact wlp_pure.2 fun _ _ => ⟨g₁, htracked, rfl, rfl⟩
  case isFalse =>
    rw [wlp_bind, wlp_read, wlp_bind, wlp_modify]
    split
    · exact wlp_pure.2 fun _ _ => ⟨g₁, htracked.control _ _ _, rfl, rfl⟩
    · exact wlp_pure.2 fun _ hr => by cases hr

/-- **An insert that fails behind `AllocateProductSpace` is never undone**: its region and its signature, which was not
filed before, stay, and every later insert with the signature is refused as a duplicate. -/
theorem failed_insert_stays {P : QueueOp → Prop} {a : Audit} (h : Reached D P a) {mapped : Bool} {off : Int} {ext : Nat}
    {s₁ : QueueIndexManager World} (hsz : info.sz.toNat ≠ 0) (hle : info.sz.toNat ≤ D.size)
    (hlen : info.origin.length + info.ident.length < 2 ^ 62)
    (halloc : (allocateProductSpace callbacks (getEncodedSize info) info.signature a.queue.ix).returned =
      some (.ok (off, ext), s₁)) {status : Int} {q' : ProductQueue}
    (hrun : (ProductQueue.newElement D info mapped a.queue).returned = some (status, q')) (hfail : status ≠ 0) :
    info.signature ∉ a.queue.ix.filed.map Prod.fst ∧ (off, ext) ∈ q'.ix.regions ∧ (info.signature, off) ∈ q'.ix.filed ∧
    ∀ later mapped', later.signature = info.signature → later.sz.toNat ≠ 0 → later.sz.toNat ≤ D.size →
      ∃ q'', (ProductQueue.newElement D later mapped' q').returned = some (PqStatus.dup.toInt, q'') := by
  obtain ⟨⟨g, hk⟩, -⟩ := h.holds
  obtain ⟨g₁, h₁, hres⟩ :=
    (allocateProductSpace_spec hk.inv hk.paired (getEncodedSize_pos info) (encoded_fits D hlen)
    _).wlp.of_returned halloc
  obtain ⟨status', hr, -⟩ | ⟨_, _, c, ⟨⟩, -, -, -, hcat⟩ := hres
  · cases hr
  have hstays : wlp (newElement D info mapped) (fun status q' => status ≠ 0 →
      ∃ g', IndexInv D q'.ix g' ∧ (catalog q'.ix g').regions = (catalog s₁ g₁).regions ∧
        (catalog q'.ix g').sigs = (catalog s₁ g₁).sigs) a.queue := by
    rw [newElement, if_neg hsz, if_neg (Nat.not_lt.2 hle), wlp_bind, wlp_locked]
    refine (reserve_stays h₁ halloc mapped).mono fun res s' hleft => ?_
    cases res with
    | error status =>
      obtain ⟨g', h', hsame⟩ := hleft status rfl
      exact wlp_pure.2 fun _ => ⟨g', h'.control _ _ _, hsame⟩
    | ok r =>
      simp only [wlp_bind, wlp_modify, wlp_pure]
      exact fun h0 => absurd rfl h0
  obtain ⟨g', h', hregions, hsigs⟩ := hstays.of_returned hrun hfail
  have hregion : (off, ext) ∈ (catalog q'.ix g').regions := by
    rw [hregions, hcat]
    exact mem_cons_self _ _
  have hsig : (info.signature, off) ∈ (catalog q'.ix g').sigs := by
    rw [hsigs, hcat]
    exact mem_cons_self _ _
  refine ⟨fun hfiled => ?_, ?_, ?_, fun later mapped' hlater hsz' hle' => ?_⟩
  · have hmem : info.signature ∈ (catalog a.queue.ix g).sigs.map Prod.fst := by
      rw [← hk.inv.filed_eq]
      exact hfiled
    obtain ⟨_, _, hret, rfl, -⟩ := (allocateProductSpace_filed hk.inv hmem (getEncodedSize info)).returns
    cases hret.symm.trans halloc
  · rwa [← h'.regions_eq, mem_coe] at hregion
  · rwa [← h'.filed_eq, mem_coe] at hsig
  · exact newElement_filed h' (hlater ▸ mem_map_of_mem Prod.fst hsig) hsz' hle' mapped'

set_option synthInstance.maxSize 400 in
/-- The region of the second product cannot be mapped. -/
theorem failed_insert_stays_second : ∃ (a : Audit) (q' q'' : ProductQueue), Reached smallSection (fun _ => True) a ∧
    a.queue.ix.regions = [(4096, 144)] ∧
    (ProductQueue.newElement smallSection (sampleInfo 2) false a.queue).returned = some (ENOMEM, q') ∧
    (4240, 144) ∈ q'.ix.regions ∧ (Signature.fill 2, 4240) ∈ q'.ix.filed ∧
    (ProductQueue.newElement smallSection (sampleInfo 2) true q').returned = some (PqStatus.dup.toInt, q'') := by
  obtain ⟨a, hreach, hregions, q', hrun, s₁, halloc⟩ : ∃ a : Audit, Reached smallSection (fun _ => True) a ∧
      a.queue.ix.regions = [(4096, 144)] ∧
      ∃ q', (newElement smallSection (sampleInfo 2) false a.queue).returned = some (ENOMEM, q') ∧
        ∃ s₁, (allocateProductSpace callbacks (getEncodedSize (sampleInfo 2)) (sampleInfo 2).signature
        a.queue.ix).returned =
          some (.ok (4240, 144), s₁) := by
    apply exists_computed tick [.newElement (sampleInfo 1) true, .commit 0]
    decide +kernel
  obtain ⟨-, hregion, hfiled, hdup⟩ :=
    failed_insert_stays hreach (by decide) (by decide) (by decide) halloc hrun (by decide)
  obtain ⟨q'', hq''⟩ := hdup (sampleInfo 2) true rfl (by decide) (by decide)
  exact ⟨a, q', q'', hreach, hregions, hrun, hregion, hfiled, hq''⟩

set_option synthInstance.maxSize 400 in
/-- `newElement` does not: its region and its signature stay, and the product is a duplicate from then on. -/
theorem unmapped_region_stays : ∃ (a : Audit) (q' q'' : ProductQueue), Reached smallSection (fun _ => True) a ∧
    a.queue.ix.regions = [] ∧ a.queue.ix.filed = [] ∧
    (ProductQueue.newElement smallSection (sampleInfo 1) false a.queue).returned = some (ENOMEM, q') ∧
    q'.ix.regions = [(4096, 144)] ∧ q'.ix.filed = [(Signature.fill 1, 4096)] ∧
    (ProductQueue.newElement smallSection (sampleInfo 1) true q').returned = some (PqStatus.dup.toInt, q'') := by
  obtain ⟨a, ha, hregions, hfiled, q', hres, hregions', hfiled', q'', hres'⟩ :
      ∃ a : Audit, Reached smallSection (fun _ => True) a ∧ a.queue.ix.regions = [] ∧ a.queue.ix.filed = [] ∧
        ∃ q', (newElement smallSection (sampleInfo 1) false a.queue).returned = some (ENOMEM, q') ∧
          q'.ix.regions = [(4096, 144)] ∧ q'.ix.filed = [(Signature.fill 1, 4096)] ∧
          ∃ q'', (newElement smallSection (sampleInfo 1) true q').returned = some (PqStatus.dup.toInt, q'') := by
    apply exists_computed tick []
    decide +kernel
  exact ⟨a, q', q'', ha, hregions, hfiled, hres, hregions', hfiled', hres'⟩

end Rdm
