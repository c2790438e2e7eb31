import Rdm.Pq.IndexRuns
import Rdm.Pq.StoreUpdates

/-!
# Reserving, committing and rolling back

`Holds D q st`: the queue `q` holds the store `st`, and its clients the drafts. Each operation is specified by what it
does to the store.
-/

namespace Rdm

open ProgLogic ProgLogic.Prog Xdr SunRpcSerializer Links ProductQueue SignatureIndex List
open QueueIndexManager (Answers Fails IndexInv catalog clear failures onEnv onSx tqAdd_spec)

/-! ## What a reader of the index finds -/

namespace QueueIndexManager

variable {ω : Type} {D : DataSection} {s : QueueIndexManager ω} {g : Ghost}

def times (s : QueueIndexManager ω) : List (Timestamp × Int) :=
  let next := TimeQueue.nextAt ⟨s.tq, s.fb⟩ 0
  (follow next TQ_NIL s.tq.nalloc (next TQ_HEAD)).map (timeOf s.tq)

def linked (s : QueueIndexManager ω) : List Nat :=
  let next := TimeQueue.nextAt ⟨s.tq, s.fb⟩ 0
  follow next TQ_NIL s.tq.nalloc (next TQ_HEAD)

def regions (s : QueueIndexManager ω) : List (Int × Nat) := (RegionList.hashed s.rl).map (regionOf s.rl)

def filed (s : QueueIndexManager ω) : List (Signature × Int) :=
  entries s.sx fun i => follow (fun x => (s.sx.sxep x).next) SX_NONE s.sx.nalloc (s.sx.chains i)

theorem IndexInv.linked_eq (h : IndexInv D s g) : s.linked = g.ts := by
  have hchain := h.time.skip.chain 0 (Nat.zero_le _)
  rw [SkipList.onLevel_zero] at hchain
  have hlen : g.ts.length + g.tfl.length = s.tq.nalloc := h.time.length
  have hnil : TQ_NIL ∉ g.ts := fun hm => absurd (h.time.mem_slots (mem_append_left _ hm)).1 (by decide)
  exact follow_chain hchain hnil (Nat.le_of_add_right_le (Nat.le_of_eq hlen))

theorem IndexInv.times_eq (h : IndexInv D s g) : s.times = (catalog s g).times :=
  congrArg (List.map (timeOf s.tq)) h.linked_eq

theorem IndexInv.regions_eq (h : IndexInv D s g) : (s.regions : Multiset (Int × Nat)) = (catalog s g).regions := by
  have hhash := RegionList.HashInv.hashed_eq (s := ⟨s.rl, s.fb⟩) h.hash
  rw [QueueIndexManager.regions, hhash]
  rfl

theorem IndexInv.filed_eq (h : IndexInv D s g) : (s.filed : Multiset (Signature × Int)) = (catalog s g).sigs := by
  have hused : used s.sx (fun i => follow (fun x => (s.sx.sxep x).next) SX_NONE s.sx.nalloc (s.sx.chains i)) =
      used s.sx g.sc := by
    refine buckets_congr fun i hi => ?_
    have hsub : ∀ x ∈ g.sc i, x ∈ used s.sx g.sc := fun x hx => mem_used.2 ⟨i, hi, hx⟩
    have hnd : (used s.sx g.sc ++ g.sfl).Nodup := h.sigs.slots.nodup_iff.2 nodup_range
    have hlen := h.sigs.slots.length_eq
    rw [length_append, length_range] at hlen
    have hndi : (g.sc i).Nodup := (nodup_flatMap.1 (nodup_append.1 hnd).1).1 i (mem_range.2 hi)
    refine follow_chain (h.sigs.chain i hi) (fun hm => ?_) ?_
    · have hlt := mem_range.1 (h.sigs.slots.mem_iff.1 (mem_append_left _ (hsub _ hm)))
      exact absurd h.sigs.small (by omega)
    · have := (subperm_of_subset hndi hsub).length_le
      omega
  rw [filed, entries, hused]
  rfl

end QueueIndexManager

/-! ## The queue and its store -/

/-- The index and the file hold the products of `st`. -/
structure Kept (D : DataSection) (s : QueueIndexManager World) (g : Ghost) (st : Store) : Prop where
  inv : IndexInv D s g
  books : Books (catalog s g) s.env.disk st
  counted : (catalog s g).Counted

/-- **The queue holds the store**, and its clients hold the drafts. -/
def Holds (D : DataSection) (q : ProductQueue) (st : Store) : Prop :=
  (∃ g, Kept D q.ix g st) ∧ st.drafts.map Prod.fst = q.reserved

def Filled (s : QueueIndexManager World) (st : Store) : Prop := ∀ p ∈ s.regions, ∃ pg ∈ st.pages, pg.offset = p.1

variable {D : DataSection} {s s' : QueueIndexManager World} {g g' : Ghost} {st : Store} {q : ProductQueue}
variable {disk : Memory}
variable {a : Catalog} {i : Nat} {d : Reservation × List UInt8}

theorem QueueIndexManager.IndexInv.mem_regions (h : IndexInv D s g) {p : Int × Nat} :
    p ∈ s.regions ↔ p ∈ (catalog s g).regions := by
  rw [← h.regions_eq, Multiset.mem_coe]

theorem QueueIndexManager.IndexInv.mem_filed (h : IndexInv D s g) {p : Signature × Int} :
    p ∈ s.filed ↔ p ∈ (catalog s g).sigs := by
  rw [← h.filed_eq, Multiset.mem_coe]

theorem QueueIndexManager.IndexInv.filled_iff (h : IndexInv D s g) : Filled s st ↔ st.Fills (catalog s g) := by
  rw [Filled, Store.Fills, ← h.regions_eq]
  rfl

theorem Kept.paired (h : Kept D s g st) : (catalog s g).sigs.card = (catalog s g).regions.card := h.books.toSound.paired

theorem Kept.control (h : Kept D s g st) {w : World} (hdisk : w.disk = s.env.disk) (b : Bool) (n : Nat) :
    Kept D { s with env := w, isFull := b, smallestExtentSeen := n } g st :=
  ⟨h.inv.control w b n, by have hb := h.books; rw [← hdisk] at hb; exact hb, h.counted⟩

theorem Kept.setDisk (h : Kept D s g st) {st' : Store} (hb : Books (catalog s g) disk st') :
    Kept D (setDisk disk s) g st' :=
  ⟨h.inv.control _ _ _, hb, h.counted⟩

theorem Kept.evicted (h : Kept D s g st) {w : World}
    (hev : Evictions callbacks (catalog s g, s.env) (a, w)) :
    Evicted (catalog s g) st a s.env.disk ∧ w.disk = s.env.disk := by
  obtain ⟨hevd, hpass⟩ := h.books.evictions rfl hev
  exact ⟨hevd, hpass.disk⟩

theorem wlp_locked {α : Type} {m : Prog (QueueIndexManager World) α} {Q : α → ProductQueue → Prop} :
    wlp (locked m) Q q ↔
      wlp m (fun a s => Q a { q with ix := { s with smallestExtentSeen := 2 ^ 64 - 1 } }) q.ix := by
  rw [locked, wlp_zoom, wlp_bind]
  congr! with a s
  simp only [wlp_bind, clear, wlp_modify, wlp_pure]

theorem wp_locked {α : Type} {m : Prog (QueueIndexManager World) α} {Q : α → ProductQueue → Prop} :
    wp (locked m) Q q ↔
      wp m (fun a s => Q a { q with ix := { s with smallestExtentSeen := 2 ^ 64 - 1 } }) q.ix := by
  rw [locked, wp_zoom, wp_bind]
  congr! with a s
  simp only [wp_bind, clear, wp_modify, wp_pure]

/-! ## Reserving -/

theorem QueueIndexManager.IndexInv.tracked (h : IndexInv D s g) (off : Int) (ext : Nat) :
    IndexInv D (QueueMetrics.trackAllocation D.datao off ext s) g :=
  { h with regions := h.regions.records s.rl.maxfextent _ _ _ }

theorem Catalog.Counted.tracked {off : Int} {ext : Nat} {sig : Signature} (hc : a.Counted) (h : IndexInv D s g)
    (hcat : catalog s g = (a.addRegion (off, ext)).addSig (sig, off)) :
    (catalog (QueueMetrics.trackAllocation D.datao off ext s) g).Counted := by
  have hsum := h.regions_sum_le
  have hlt : D.size < 2 ^ 64 := by
    have h1 := D.fits
    have h2 := D.header
    simp only [DataSection.size, hugeOff] at h1 ⊢
    omega
  have hbytes : s.rl.nbytes = a.nbytes := congrArg Catalog.nbytes hcat
  have hregions : (catalog s g).regions = (off, ext) ::ₘ a.regions := congrArg Catalog.regions hcat
  show sizeAdd s.rl.nbytes ext = ((catalog s g).regions.map Prod.snd).sum
  rw [hregions, Multiset.map_cons, Multiset.sum_cons] at hsum ⊢
  rw [hbytes, hc, sizeAdd_of_lt (by omega), Nat.add_comm]

def Reserved (D : DataSection) (info : ProdInfo) (mapped : Bool) (a : Catalog) (st : Store)
    (s' : QueueIndexManager World) (g' : Ghost) : Except Int Reservation → Prop
  | .error _ => Kept D s' g' (st.keep (catalog s' g').times) ∧ (mapped = true → getEncodedSize info < 2 ^ 32 →
      st.Fills a → (st.keep (catalog s' g').times).Fills (catalog s' g'))
  | .ok r => r.info = info ∧
      Kept D s' g' ((st.keep (catalog s' g').times).addDraft (r, readBytes s'.env.disk r.payload info.sz.toNat)) ∧
      (st.Fills a → ((st.keep (catalog s' g').times).addDraft
        (r, readBytes s'.env.disk r.payload info.sz.toNat)).Fills (catalog s' g'))

theorem Kept.entered (h : Kept D s g st) {off : Int} {ext : Nat} {sig : Signature}
    (hev : Evictions callbacks (catalog s g, s.env) (a, s'.env)) (h' : IndexInv D s' g')
    (hsig : sig ∉ a.sigs.map Prod.fst) (hcat : catalog s' g' = (a.addRegion (off, ext)).addSig (sig, off)) :
    Kept D (QueueMetrics.trackAllocation D.datao off ext s') g' (st.keep (catalog s' g').times) ∧
      (catalog s' g').times.Sublist (catalog s g).times ∧
      (∀ pg ∈ (st.keep (catalog s' g').times).pages, pg.offset ≠ off) ∧
      (st.Fills (catalog s g) → ∀ p ∈ (catalog s' g').regions, p.1 = off ∨
        ∃ pg ∈ (st.keep (catalog s' g').times).pages, pg.offset = p.1) := by
  obtain ⟨hevd, hdisk⟩ := h.evicted hev
  obtain ⟨hbooks, hno⟩ := hevd.books.enter hcat hsig h'.spread
  have htimes : (catalog s' g').times = a.times := by rw [hcat]; rfl
  have hregions : (catalog s' g').regions = (off, ext) ::ₘ a.regions := congrArg Catalog.regions hcat
  rw [htimes]
  refine ⟨⟨h'.tracked off ext, ?_, (hevd.counted h.counted).tracked h' hcat⟩, hevd.times, hno, ?_⟩
  · have hb : Books (catalog s' g') s'.env.disk (st.keep a.times) := by rw [hdisk]; exact hbooks
    exact hb.recount _
  · intro hfill p hp
    rw [hregions] at hp
    rcases Multiset.mem_cons.1 hp with hp | hp
    · exact .inl (congrArg Prod.fst hp)
    · exact .inr (hevd.fills hfill p hp)

/-- **Reserving** under the control lock. -/
theorem reserve_spec (h : Kept D s g st) {info : ProdInfo} (hfit : getEncodedSize info + D.align ≤ 2 ^ 64)
    (mapped : Bool) :
    wp (reserve D info mapped) (fun res s' => ∃ g', (catalog s' g').times.Sublist (catalog s g).times ∧
      Reserved D info mapped (catalog s g) st s' g' res) s := by
  rw [reserve]
  refine wp.bind (QueueIndexManager.allocateProductSpace_spec h.inv h.paired (getEncodedSize_pos info) hfit _) ?_
  rintro res s1 ⟨g1, h1, hres⟩
  rcases hres with ⟨status, hr, hev⟩ | ⟨off, ext, a, hr, hle, hsig, hev, hcat⟩
  · subst hr
    obtain ⟨hevd, hdisk⟩ := h.evicted hev
    exact wp_pure.2 ⟨g1, hevd.times, ⟨h1, hdisk ▸ hevd.books, hevd.counted h.counted⟩, fun _ _ => hevd.fills⟩
  subst hr
  obtain ⟨hkept, hsub, hno, hfills⟩ := h.entered hev h1 hsig hcat
  have hregions : (catalog s1 g1).regions = (off, ext) ::ₘ a.regions := congrArg Catalog.regions hcat
  have hsigs : (catalog s1 g1).sigs = (info.signature, off) ::ₘ a.sigs := congrArg Catalog.sigs hcat
  have hreg : (off, ext) ∈ (catalog s1 g1).regions := hregions ▸ Multiset.mem_cons_self _ _
  rw [wp_bind, wp_modify]
  by_cases hmap : mapped = false
  · rw [if_pos hmap]
    exact wp_pure.2 ⟨g1, hsub, hkept, fun h => absurd h (by simp [hmap])⟩
  rw [if_neg hmap, wp_bind, wp_read]
  have hroom : (header info).length + info.sz.toNat ≤ ext := by
    have := length_header_le info
    simp only [getEncodedSize] at hle
    omega
  rcases encodeProdInfo_cases s1.env.disk off (getEncodedSize info) info with ⟨-, henc⟩ | ⟨hshort, disk, henc, hsame⟩
  · -- the header is written, and the rest of the region is the client's
    rw [show (QueueMetrics.trackAllocation D.datao off ext s1).env.disk = s1.env.disk from rfl, henc]
    simp only [wp_bind, wp_modify, wp_pure]
    have hout : ∀ b, b < off ∨ off + ext ≤ b → writeBytes s1.env.disk off (header info) b = s1.env.disk b :=
      fun b hb => writeBytes_out (by omega)
    have hbooks := hkept.books.write hreg hout hno
    refine ⟨g1, hsub, rfl, hkept.setDisk (hbooks.draft hreg rfl rfl ?_ hno), ?_⟩
    · exact ⟨hsigs ▸ Multiset.mem_cons_self _ _, ⟨ext, hreg, hroom⟩, readBytes_write _ _ _, rfl⟩
    · intro hfill p hp
      rw [Store.pages_addDraft]
      rcases hfills hfill p hp with he | ⟨pg, hpg, he⟩
      · exact ⟨_, mem_append_right _ (mem_singleton.2 rfl), he.symm⟩
      · exact ⟨pg, mem_append_left _ hpg, he⟩
  · -- the size of the buffer was cut to one too small: the region is lost
    have hbooks := hkept.books.write hreg (fun b hb => hsame b (by omega)) hno
    rw [show (QueueMetrics.trackAllocation D.datao off ext s1).env.disk = s1.env.disk from rfl, henc]
    simp only [wp_bind, wp_modify, wp_pure]
    refine ⟨g1, hsub, hkept.setDisk hbooks, fun _ hsmall => absurd hshort ?_⟩
    have := length_header_le info
    rw [Nat.mod_eq_of_lt hsmall]
    simp only [getEncodedSize]
    omega

/-! ## The operations of the queue -/

theorem Kept.unlocked (h : Kept D s g st) {rs : List Reservation} (hd : st.drafts.map Prod.fst = rs) (n : Nat) :
    Holds D ⟨{ s with smallestExtentSeen := n }, rs⟩ st :=
  ⟨⟨g, h.control rfl s.isFull n⟩, hd⟩

theorem Holds.keep_self (h : Holds D q st) : st.keep q.ix.times = st := by
  obtain ⟨⟨g, hk⟩, -⟩ := h
  rw [hk.inv.times_eq]
  exact hk.books.keep_self

theorem ProductQueue.callbacks_fails : Fails callbacks := by
  intro off ext w
  simp only [callbacks, decodeFunc]
  split
  · show EACCES ∈ _
    decide
  · split
    · show PqStatus.corrupt.toInt ∈ _
      decide
    · exact mem_cons_self

theorem reserve_status (info : ProdInfo) (mapped : Bool) {R : Prop}
    (hfind : wlp (onSx (find info.signature)) (fun r _ => r.isSome = true → R) s) :
    wlp (reserve D info mapped) (fun res _ => Answers (fun status =>
      status ∈ EIO :: failures ∨ status = PqStatus.dup.toInt ∧ R) (fun r => r.info = info) res) s := by
  refine wlp_bind.2 ((QueueIndexManager.allocateProductSpace_status callbacks_fails hfind).mono fun res s1 hres => ?_)
  cases res with
  | error status => exact wlp_pure.2 (hres.imp_left (mem_cons_of_mem _))
  | ok p =>
    have hroom : ENOMEM ∈ EIO :: failures := by decide
    revert s1
    refine yields_then fun _ => yields_ite (fun _ => yields_pure (.inl hroom)) fun _ => ?_
    refine yields_then fun s => yields_then fun _ => ?_
    split
    · exact yields_pure (.inl mem_cons_self)
    · exact yields_pure rfl

def Renewed (D : DataSection) (info : ProdInfo) (mapped : Bool) (q : ProductQueue) (st : Store) (status : Int)
    (q' : ProductQueue) : Prop :=
  q'.ix.times.Sublist q.ix.times ∧
    (status = 0 ∧ (∃ r, r.info = info ∧ q'.reserved = q.reserved ++ [r] ∧
        Holds D q' ((st.keep q'.ix.times).addDraft (r, readBytes q'.ix.env.disk r.payload info.sz.toNat)) ∧
        (Filled q.ix st →
          Filled q'.ix ((st.keep q'.ix.times).addDraft (r, readBytes q'.ix.env.disk r.payload info.sz.toNat)))) ∨
      status ≠ 0 ∧ q'.reserved = q.reserved ∧ Holds D q' (st.keep q'.ix.times) ∧
        (mapped = true → getEncodedSize info < 2 ^ 32 → Filled q.ix st → Filled q'.ix (st.keep q'.ix.times)))

/-- **Reserving a product.** -/
theorem newElement_spec (h : Holds D q st) {info : ProdInfo} (hfit : getEncodedSize info + D.align ≤ 2 ^ 64)
    (mapped : Bool) : wlp (newElement D info mapped) (Renewed D info mapped q st) q := by
  have hself : ∀ status ≠ 0, Renewed D info mapped q st status q := fun status hst =>
    ⟨List.Sublist.refl _, .inr ⟨hst, rfl, by rwa [h.keep_self], fun _ _ => by rw [h.keep_self]; exact id⟩⟩
  rw [newElement]
  split
  · exact wlp_pure.2 (hself _ (by decide))
  split
  · exact wlp_pure.2 (hself _ (by decide))
  obtain ⟨⟨g, hk⟩, hd⟩ := h
  rw [wlp_bind, wlp_locked]
  refine ((reserve_spec hk hfit mapped).wlp.and (reserve_status (R := True) info mapped (wlp_true.mono ?_))).mono ?_
  · exact fun _ _ _ _ => trivial
  rintro res s' ⟨⟨g', hsub, hres⟩, hstatus⟩
  have htimes := hk.inv.times_eq
  cases res with
  | error status =>
    obtain ⟨hk', hfill⟩ := hres
    have htimes' := hk'.inv.times_eq
    rw [wlp_pure]
    refine ⟨?_, .inr ⟨fun h0 => ?_, rfl, ?_, fun hm hsm hf => ?_⟩⟩
    · rw [htimes]
      exact htimes' ▸ hsub
    · subst h0
      exact absurd hstatus (by simp [Answers, failures]; decide)
    · exact (htimes' ▸ hk').unlocked hd _
    · exact (htimes' ▸ hk').inv.filled_iff.2 (htimes' ▸ hfill hm hsm (hk.inv.filled_iff.1 hf))
  | ok r =>
    obtain ⟨hinfo, hk', hfill⟩ := hres
    have htimes' := hk'.inv.times_eq
    simp only [wlp_bind, wlp_modify, wlp_pure]
    refine ⟨?_, .inl ⟨rfl, r, hinfo, rfl, ?_, fun hf => ?_⟩⟩
    · rw [htimes]
      exact htimes' ▸ hsub
    · refine (htimes' ▸ hk').unlocked ?_ _
      simp only [Store.addDraft, Store.keep, map_append, hd]
      rfl
    · exact (htimes' ▸ hk').inv.filled_iff.2 (htimes' ▸ hfill (hk.inv.filled_iff.1 hf))

/-- **A product is refused as a duplicate** only if its signature is filed. -/
theorem newElement_dup (h : IndexInv D q.ix g) (info : ProdInfo) (mapped : Bool) :
    wlp (newElement D info mapped) (fun status _ => status = PqStatus.dup.toInt →
      info.signature ∈ q.ix.filed.map Prod.fst) q := by
  have hfind : wlp (onSx (find info.signature)) (fun r _ => r.isSome = true →
      info.signature ∈ q.ix.filed.map Prod.fst) q.ix := by
    refine (QueueIndexManager.sxFind_spec h info.signature).wlp.mono ?_
    rintro r s' ⟨_, hr⟩ hsome
    rcases hr with ⟨hr, -⟩ | ⟨x, -, hx⟩
    · rw [hr] at hsome
      cases hsome
    · exact mem_map_of_mem (h.mem_filed.2 hx)
  rw [newElement]
  split
  · exact wlp_pure.2 fun he => absurd he (by decide)
  split
  · exact wlp_pure.2 fun he => absurd he (by decide)
  rw [wlp_bind, wlp_locked]
  refine (reserve_status info mapped hfind).mono ?_
  intro res s' hres
  cases res with
  | error status =>
    refine wlp_pure.2 fun he => (hres.resolve_left fun hmem => ?_).2
    rw [he] at hmem
    exact absurd hmem (by decide)
  | ok r =>
    simp only [wlp_bind, wlp_modify, wlp_pure]
    exact fun he => absurd he (by decide)

theorem Holds.reserved_eq (h : Holds D q st) (i : Nat) : q.reserved[i]? = (st.drafts[i]?).map Prod.fst := by
  rw [← h.2, List.getElem?_map]

def Forgotten (s : QueueIndexManager World) (r : Reservation) : Prop :=
  r.offset ∉ s.regions.map Prod.fst ∧ r.signature ∉ s.filed.map Prod.fst

theorem Catalog.Freed.forgotten {off : Int} {ext : Nat} {sig : Signature} (hf : a.Freed off ext sig (catalog s' g'))
    (h : a.Sound) (h' : IndexInv D s' g') : off ∉ s'.regions.map Prod.fst ∧ sig ∉ s'.filed.map Prod.fst := by
  obtain ⟨o, hsigs⟩ := hf.sigs
  have hregion := hf.region_gone h.toSpread
  have hnd := h.sigs
  rw [← h'.regions_eq] at hregion
  rw [hsigs, Multiset.map_cons, Multiset.nodup_cons, ← h'.filed_eq] at hnd
  exact ⟨hregion, hnd.1⟩

theorem Kept.freeByOffset (h : Kept D s g st) (hd : st.drafts[i]? = some d) :
    wp (QueueIndexManager.freeByOffset d.1.offset d.1.signature) (fun status s' => status = 0 ∧ Forgotten s' d.1 ∧ ∃ g',
      Kept D s' g' (st.dropDraft i) ∧ s'.times = s.times ∧ (Filled s st → Filled s' (st.dropDraft i))) s := by
  have hdm : d ∈ st.drafts := mem_of_getElem? hd
  obtain ⟨hreg, hsig, -⟩ := h.books.drafts d hdm
  have hfiled := (h.books.pages _ (Store.mem_pages_of_draft hdm)).filed
  refine (QueueIndexManager.freeByOffset_spec h.inv _ _).mono ?_
  intro status s' hs'
  rcases hs' with ⟨-, -, hno | hno⟩ | ⟨hst, henv, g', ext, h', hf, htimes⟩
  · exact absurd (Multiset.mem_map_of_mem Prod.fst hreg) hno
  · exact absurd (hsig ▸ Multiset.mem_map_of_mem Prod.fst hfiled) hno
  have hbooks := h.books.rollback hd hf htimes
  refine ⟨hst, hf.forgotten h.books.toSound h', g', ⟨h', henv ▸ hbooks, hf.counted h.counted⟩, ?_, ?_⟩
  · rw [h'.times_eq, h.inv.times_eq, htimes]
  · rw [h'.filled_iff, h.inv.filled_iff]
    intro hfill p hp
    have hold : p ∈ (catalog s g).regions := by rw [hf.regions]; exact Multiset.mem_cons_of_mem hp
    obtain ⟨pg, hpg, he⟩ := hfill p hold
    rcases mem_cons.1 ((Store.pages_split hd).mem_iff.1 hpg) with hpg | hpg
    · have hoff : p.1 = d.1.offset := by rw [← he, hpg]; rfl
      have hm : p.1 ∈ (catalog s' g').regions.map Prod.fst := Multiset.mem_map_of_mem Prod.fst hp
      exact absurd (hoff ▸ hm) (hf.region_gone h.inv.spread)
    · exact ⟨pg, hpg, he⟩

/-- **Rolling back.** -/
theorem rollbackEntry_spec (h : Kept D q.ix g st) (hd : st.drafts[i]? = some d)
    (hres : (st.dropDraft i).drafts.map Prod.fst = q.reserved) :
    wp (rollbackEntry d.1) (fun status q' => (status = 0 ∧ q'.reserved = q.reserved ∧ Forgotten q'.ix d.1) ∧
      q'.ix.times = q.ix.times ∧ Holds D q' (st.dropDraft i) ∧ (Filled q.ix st → Filled q'.ix (st.dropDraft i))) q := by
  rw [rollbackEntry, wp_locked]
  refine (h.freeByOffset hd).mono ?_
  rintro status s' ⟨hst, hgone, g', hk', htimes, hfill⟩
  exact ⟨⟨hst, rfl, hgone⟩, htimes, hk'.unlocked hres _, hfill⟩

theorem Catalog.Stamped.key_eq {a' : Catalog} {now key : Timestamp} {off : Int} (h : a.Stamped now key off a')
    (hfree : ∀ p ∈ a.times, p.1 ≠ now) : key = now := by
  obtain ⟨n, hn, htaken⟩ := h.first
  cases n with
  | zero => exact hn
  | succ n =>
    obtain ⟨p, hp, he⟩ := htaken 0 (Nat.succ_pos n)
    exact absurd he (hfree p hp)

theorem enterTime_spec (h : Kept D s g st) (hd : st.drafts[i]? = some d)
    (hread : (header d.1.info).length ≤ d.1.extent % 2 ^ 32) :
    wlp (enterTime d.1.offset) (fun status s' => status = 0 ∧ ∃ g' key, Kept D s' g' (st.commitDraft i key) ∧
      (catalog s g).Stamped s.env.now.1 key d.1.offset (catalog s' g')) s := by
  have h1 := h.control (w := s.env.now.2) rfl s.isFull s.smallestExtentSeen
  simp only [enterTime, onEnv, wlp_bind, wlp_zoom, wlp_call]
  refine (tqAdd_spec h1.inv s.env.now.1 d.1.offset).mono ?_
  rintro status s2 ⟨hst, hs2, g2, key, h2, hstamp⟩
  have hdisk : s2.env.disk = s.env.disk := by rw [hs2]; rfl
  rw [if_neg (not_not.2 hst)]
  simp only [wlp_bind, wlp_zoom, wlp_call, wlp_pure, true_and]
  refine ⟨g2, key, ⟨h2.control _ _ _, ?_, ?_⟩, hstamp⟩
  · have hb := h.books.commit hd hstamp hread
    rw [← hdisk] at hb
    exact hb
  · have hregions : (catalog s2 g2).regions = (catalog s g).regions := by rw [hstamp.rest]; rfl
    have hbytes : (catalog s2 g2).nbytes = (catalog s g).nbytes := by rw [hstamp.rest]; rfl
    show (catalog s2 g2).nbytes = ((catalog s2 g2).regions.map Prod.snd).sum
    rw [hregions, hbytes]
    exact h.counted

def Committed (D : DataSection) (q : ProductQueue) (st : Store) (i : Nat) (status : Int) (q' : ProductQueue) : Prop :=
  (status = 0 ∧ ∃ d key, st.drafts[i]? = some d ∧ Holds D q' (st.commitDraft i key) ∧
      (Filled q.ix st → Filled q'.ix (st.commitDraft i key)) ∧
      (∃ pre suf, q.ix.times = pre ++ suf ∧ q'.ix.times = pre ++ (key, d.1.offset) :: suf) ∧
      ((∀ p ∈ q.ix.times, p.1 ≠ q.ix.env.now.1) → key = q.ix.env.now.1)) ∨
    status ≠ 0 ∧ q'.ix.times = q.ix.times ∧ Holds D q' (st.dropDraft i) ∧
      (Filled q.ix st → Filled q'.ix (st.dropDraft i))

theorem Store.mem_pages_commitDraft (hd : st.drafts[i]? = some d) (key : Timestamp) {pg : Page} (hpg : pg ∈ st.pages) :
    pg ∈ (st.commitDraft i key).pages := by
  rw [Store.commitDraft, hd]
  rcases mem_cons.1 ((Store.pages_split hd).mem_iff.1 hpg) with rfl | hpg
  · simp [Store.pages]
  · simp only [Store.pages, Store.dropDraft, map_append, mem_append] at hpg ⊢
    tauto

theorem tryCommit_spec (h : Kept D q.ix g st) (hd : st.drafts[i]? = some d)
    (hres : (st.dropDraft i).drafts.map Prod.fst = q.reserved) :
    wlp (tryCommit d.1) (fun status q' =>
      (status = 0 ∧ q'.reserved = q.reserved ∧ Committed D q st i status q') ∨ status ≠ 0 ∧ q' = q) q := by
  have hdm : d ∈ st.drafts := mem_of_getElem? hd
  have hdec := h.books.decode_draft hdm
  have hroom := h.books.draft_room hdm
  rw [tryCommit, wlp_bind, wlp_read]
  by_cases hread : (header d.1.info).length ≤ d.1.extent % 2 ^ 32
  · rw [if_pos hread] at hdec
    rw [hdec]
    have hle : ¬ d.1.extent < getEncodedInfoSize (stored d.1.info) := by rw [← length_header]; omega
    simp only [if_neg hle]
    rw [wlp_locked]
    refine (enterTime_spec h hd hread).mono ?_
    rintro status s' ⟨hst, g', key, hk', hstamp⟩
    have htimes := h.inv.times_eq
    have htimes' := hk'.inv.times_eq
    refine .inl ⟨hst, rfl, .inl ⟨hst, d, key, hd, hk'.unlocked ?_ _, ?_, ?_, ?_⟩⟩
    · rw [← hres, Store.commitDraft, hd]
      rfl
    · intro hfill p hp
      have hp' : p ∈ q.ix.regions := by
        have hm := hk'.inv.mem_regions.1 hp
        rw [hstamp.rest] at hm
        exact h.inv.mem_regions.2 hm
      obtain ⟨pg, hpg, he⟩ := hfill p hp'
      exact ⟨pg, Store.mem_pages_commitDraft hd key hpg, he⟩
    · rw [htimes]
      exact htimes' ▸ hstamp.times
    · rw [htimes]
      exact hstamp.key_eq
  · rw [if_neg hread] at hdec
    rw [hdec, wlp_pure]
    exact .inr ⟨by decide, rfl⟩

theorem commitEntry_spec (h : Kept D q.ix g st) (hd : st.drafts[i]? = some d)
    (hres : (st.dropDraft i).drafts.map Prod.fst = q.reserved) :
    wlp (commitEntry d.1) (fun status q' => Committed D q st i status q') q := by
  rw [commitEntry, wlp_bind]
  refine (tryCommit_spec h hd hres).mono ?_
  rintro status q1 (⟨rfl, -, hc⟩ | ⟨hst, rfl⟩)
  · rw [if_neg (by simp), wlp_pure]
    exact hc
  · rw [if_pos hst, wlp_bind]
    refine (rollbackEntry_spec h hd hres).wlp.mono ?_
    rintro _ q' ⟨-, hq'⟩
    exact wlp_pure.2 (.inr ⟨hst, hq'⟩)

theorem takeEntry_run (i : Nat) (q : ProductQueue) :
    takeEntry i q = ⟨false, .ok (q.reserved[i]?, { q with reserved := q.reserved.eraseIdx i })⟩ := by
  have hrun : ∀ o, q.reserved[i]? = o →
    takeEntry i q = ⟨false, .ok (o, { q with reserved := q.reserved.eraseIdx i })⟩ := by
    intro o ho
    simp only [takeEntry, bind, andThen, Prog.read]
    cases o with
    | none =>
      rw [ho, eraseIdx_of_length_le (getElem?_eq_none_iff.1 ho)]
      rfl
    | some r =>
      rw [ho]
      rfl
  exact hrun _ rfl

theorem Holds.drafts_eraseIdx (h : Holds D q st) (i : Nat) :
    (st.dropDraft i).drafts.map Prod.fst = q.reserved.eraseIdx i := by
  rw [← h.2, Store.dropDraft, eraseIdx_map]

/-- **Committing a product.** -/
theorem commit_spec (h : Holds D q st) (i : Nat) : wlp (commit i) (Committed D q st i) q := by
  have hres := h.drafts_eraseIdx i
  obtain ⟨⟨g, hk⟩, -⟩ := id h
  rw [commit, wlp_bind, wlp_of_eq (takeEntry_run i q), h.reserved_eq]
  cases hd : st.drafts[i]? with
  | none =>
    refine wlp_pure.2 (.inr ⟨by decide, rfl, ?_⟩)
    rw [Store.dropDraft_none hd] at hres ⊢
    exact ⟨⟨⟨g, hk⟩, hres⟩, id⟩
  | some d => exact commitEntry_spec (q := { q with reserved := q.reserved.eraseIdx i }) hk hd hres

/-- **Giving up a product.** -/
theorem rollback_spec (h : Holds D q st) (i : Nat) : wlp (rollback i) (fun _ q' =>
    q'.ix.times = q.ix.times ∧ Holds D q' (st.dropDraft i) ∧ (Filled q.ix st → Filled q'.ix (st.dropDraft i))) q := by
  have hres := h.drafts_eraseIdx i
  obtain ⟨⟨g, hk⟩, -⟩ := id h
  rw [rollback, wlp_bind, wlp_of_eq (takeEntry_run i q), h.reserved_eq]
  cases hd : st.drafts[i]? with
  | none =>
    rw [Store.dropDraft_none hd] at hres ⊢
    exact wlp_pure.2 ⟨rfl, ⟨⟨g, hk⟩, hres⟩, id⟩
  | some d =>
    refine (rollbackEntry_spec (q := { q with reserved := q.reserved.eraseIdx i }) hk hd hres).wlp.mono ?_
    rintro _ q' ⟨-, hq'⟩
    exact hq'

/-! ## Writing a payload -/

theorem Page.On.edit {disk' : Memory} {r : Reservation} {data data' : List UInt8}
    (h : (Store.draftPage (r, data)).On a disk)
    (hhead : readBytes disk' r.offset (SunRpcSerializer.header r.info).length =
      readBytes disk r.offset (SunRpcSerializer.header r.info).length)
    (hdata : readBytes disk' (r.offset + (SunRpcSerializer.header r.info).length) r.info.sz.toNat = data') :
    (Store.draftPage (r, data')).On a disk' :=
  ⟨h.filed, h.region, hhead.trans h.header, hdata⟩

def Edited (D : DataSection) (q : ProductQueue) (st : Store) (i : Nat) (f : List UInt8 → List UInt8)
    (q' : ProductQueue) : Prop :=
  q'.ix.times = q.ix.times ∧ Holds D q' (st.editDraft i f) ∧ (Filled q.ix st → Filled q'.ix (st.editDraft i f))

theorem Holds.edited (h : Holds D q st) (hd : st.drafts[i]? = some d) {f : List UInt8 → List UInt8}
    (hout : ∀ b, b < d.1.offset + (header d.1.info).length ∨
      d.1.offset + (header d.1.info).length + d.1.info.sz.toNat ≤ b → disk b = q.ix.env.disk b)
    (hdata : readBytes disk (d.1.offset + (header d.1.info).length) d.1.info.sz.toNat = f d.2) :
    Edited D q st i f { q with ix := setDisk disk q.ix } := by
  obtain ⟨⟨g, hk⟩, hres⟩ := h
  have hdm : d ∈ st.drafts := mem_of_getElem? hd
  have hpg := Store.mem_pages_of_draft hdm
  have hroom := hk.books.draft_room hdm
  have hpage : (Store.draftPage (d.1, f d.2)).On (catalog q.ix g) disk := by
    refine (hk.books.pages _ hpg).edit (readBytes_congr fun b h1 h2 => hout b (.inl ?_)) hdata
    omega
  have hbooks := hk.books.writeDraft hd (fun b hb => hout b (by omega)) hpage
  refine ⟨rfl, ⟨⟨g, hk.setDisk hbooks⟩, ?_⟩, ?_⟩
  · rw [st.map_editDraft i f Prod.fst fun _ => rfl]
    exact hres
  · intro hfill p hp
    obtain ⟨pg, hpg, he⟩ := hfill p hp
    have hoffs : (st.editDraft i f).pages.map Page.offset = st.pages.map Page.offset := by
      simp only [Store.pages, map_append, map_map]
      exact congrArg₂ _ rfl (st.map_editDraft i f (Page.offset ∘ Store.draftPage) fun _ => rfl)
    have hm : pg.offset ∈ (st.editDraft i f).pages.map Page.offset := hoffs ▸ mem_map_of_mem hpg
    obtain ⟨pg', hpg', he'⟩ := mem_map.1 hm
    exact ⟨pg', hpg', he'.trans he⟩

theorem Holds.unedited (h : Holds D q st) (hd : st.drafts[i]? = none) (f : List UInt8 → List UInt8) :
    Edited D q st i f q := by
  rw [Edited, Store.editDraft_none hd]
  exact ⟨rfl, h, id⟩

theorem Holds.overwritten (h : Holds D q st) (hd : st.drafts[i]? = some d) {pos : Nat} {bytes : List UInt8}
    (hlen : pos + bytes.length ≤ d.1.info.sz.toNat) : Edited D q st i (fun data => overwrite data pos bytes)
      { q with ix := setDisk (writeBytes q.ix.env.disk (d.1.payload + pos) bytes) q.ix } := by
  obtain ⟨⟨g, hk⟩, -⟩ := id h
  have hdm : d ∈ st.drafts := mem_of_getElem? hd
  have hpay := (hk.books.drafts d hdm).2.2
  have hdata := (hk.books.pages _ (Store.mem_pages_of_draft hdm)).data
  refine h.edited hd (fun b hb => writeBytes_out (by omega)) ?_
  rw [hpay, readBytes_overwrite _ _ hlen]
  exact congrArg (fun data => overwrite data pos bytes) hdata

/-- **Writing a payload**, within its bounds. -/
theorem writePayload_spec (h : Holds D q st) (i pos : Nat) (bytes : List UInt8)
    (hin : ∀ r, q.reserved[i]? = some r → pos + bytes.length ≤ r.info.sz.toNat) :
    wlp (writePayload i pos bytes) (fun _ q' => Edited D q st i (fun data => overwrite data pos bytes) q') q := by
  have hr := h.reserved_eq i
  rw [writePayload, wlp_bind, wlp_read, hr]
  cases hd : st.drafts[i]? with
  | none => exact wlp_pure.2 (h.unedited hd _)
  | some d =>
    have hlen := hin d.1 (by rw [hr, hd]; rfl)
    simp only [Option.map_some, wlp_bind, wlp_modify, wlp_pure]
    exact h.overwritten hd hlen

/-- **Encoding a whole product** over its draft. -/
theorem encodeEntry_spec (h : Holds D q st) (i : Nat) (data : List UInt8)
    (hin : ∀ r, q.reserved[i]? = some r → data.length = r.info.sz.toNat) :
    wlp (encodeEntry i data) (fun status q' =>
      Edited D q st i (fun old => if status = 0 then data else old) q') q := by
  have hr := h.reserved_eq i
  rw [encodeEntry, wlp_bind, wlp_read, hr]
  cases hd : st.drafts[i]? with
  | none => exact wlp_pure.2 (h.unedited hd _)
  | some d =>
    obtain ⟨⟨g, hk⟩, -⟩ := id h
    have hdm : d ∈ st.drafts := mem_of_getElem? hd
    have hlen := hin d.1 (by rw [hr, hd]; rfl)
    have hon := hk.books.pages _ (Store.mem_pages_of_draft hdm)
    have hagain : encodeProdInfo q.ix.env.disk d.1.offset d.1.extent d.1.info =
        (if (header d.1.info).length ≤ d.1.extent % 2 ^ 32 then some (d.1.offset + (header d.1.info).length) else none,
          q.ix.env.disk) := encodeProdInfo_again hon.header
    by_cases hfits : (header d.1.info).length ≤ d.1.extent % 2 ^ 32
    · rw [if_pos hfits] at hagain
      simp only [Option.map_some, encodeProduct, hagain, wlp_bind, wlp_modify, wlp_pure, if_true]
      refine h.edited hd (fun b hb => writeBytes_out (by omega)) ?_
      rw [← hlen]
      exact readBytes_write _ _ _
    · rw [if_neg hfits] at hagain
      simp only [Option.map_some, encodeProduct, hagain, wlp_bind, wlp_modify, wlp_pure]
      exact h.edited hd (fun _ _ => rfl) hon.data

end Rdm
