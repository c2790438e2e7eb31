import Rdm.Pq.QueueRuns

/-!
# The three indexes agree

In every state of a run, the signature index and the allocated regions are in bijection, and the time queue names
allocated regions, each at most once.
-/

namespace Rdm

open ProgLogic ProgLogic.Prog Xdr SunRpcSerializer QueueIndexManager List

variable {D : DataSection} {q : ProductQueue} {st : Store} {a : Catalog} {disk : Memory} {P : QueueOp → Prop}

/-- **The indexes agree** with each other and with the entries that clients hold. -/
structure Consistent (q : ProductQueue) : Prop where
  offsets : (q.ix.filed.map Prod.snd).Perm (q.ix.regions.map Prod.fst)
  regions : (q.ix.regions.map Prod.fst).Nodup
  signatures : (q.ix.filed.map Prod.fst).Nodup
  times : ∀ p ∈ q.ix.times, p.2 ∈ q.ix.regions.map Prod.fst
  distinct : (q.ix.times.map Prod.snd).Nodup
  reserved : ∀ off, off ∈ q.ix.regions.map Prod.fst ∧ off ∉ q.ix.times.map Prod.snd ↔
    off ∈ q.reserved.map Reservation.offset
  nbytes : q.ix.rl.nbytes = (q.ix.regions.map Prod.snd).sum

/-! ## What the books say -/

theorem Books.offset_ne (h : Books a disk st) {d : Reservation × List UInt8} (hd : d ∈ st.drafts) {t : Timestamp}
    {pg : Page} (hlive : (t, pg) ∈ st.live) : pg.offset ≠ d.1.offset := by
  intro e
  have hnd := h.uses
  rw [Store.pages, map_append, nodup_append] at hnd
  exact hnd.2.2 pg.offset (mem_map_of_mem (mem_map.2 ⟨_, hlive, rfl⟩)) d.1.offset
    (mem_map_of_mem (mem_map_of_mem hd)) e

theorem Books.time_region (h : Books a disk st) {p : Timestamp × Int} (hp : p ∈ a.times) :
    p.2 ∈ a.regions.map Prod.fst := by
  obtain ⟨pg, hlive, he⟩ := (h.times p.1 p.2).1 hp
  obtain ⟨ext, hreg, -⟩ := (h.pages pg (Store.mem_pages_of_live hlive)).region
  exact he ▸ Multiset.mem_map_of_mem Prod.fst hreg

theorem Books.times_distinct (h : Books a disk st) : (a.times.map Prod.snd).Nodup := by
  refine List.Nodup.map_on (fun p hp p' hp' e => ?_) h.times_nodup
  obtain ⟨pg, hlive, he⟩ := (h.times p.1 p.2).1 hp
  obtain ⟨pg', hlive', he'⟩ := (h.times p'.1 p'.2).1 hp'
  have hsame := h.live_unique hlive hlive' (by rw [he, he', e])
  exact Prod.ext (Prod.mk.inj hsame).1 e

theorem Books.draft_untimed (h : Books a disk st) {d : Reservation × List UInt8} (hd : d ∈ st.drafts) :
    d.1.offset ∉ a.times.map Prod.snd := by
  intro hm
  obtain ⟨p, hp, he⟩ := mem_map.1 hm
  obtain ⟨pg, hlive, he'⟩ := (h.times p.1 p.2).1 hp
  exact h.offset_ne hd hlive (he'.trans he)

theorem Kept.mem_regions {s : QueueIndexManager World} {g : Ghost} (h : Kept D s g st) {off : Int} :
    off ∈ s.regions.map Prod.fst ↔ off ∈ (catalog s g).regions.map Prod.fst := by
  rw [← h.inv.regions_eq]
  rfl

/-- **The indexes agree** when the books are in order and every region has a product. -/
theorem Holds.consistent (h : Holds D q st) (hf : Filled q.ix st) : Consistent q := by
  obtain ⟨⟨g, hk⟩, hd⟩ := h
  have hregions := hk.inv.regions_eq
  have hfiled := hk.inv.filed_eq
  have htimes := hk.inv.times_eq
  constructor
  case offsets =>
    have ho := hk.books.offsets
    rw [← hregions, ← hfiled] at ho
    exact Multiset.coe_eq_coe.1 ho
  case regions =>
    have hnd := hk.books.regions
    rw [← hregions] at hnd
    exact hnd
  case signatures =>
    have hnd := hk.books.sigs
    rw [← hfiled] at hnd
    exact hnd
  case times =>
    intro p hp
    rw [htimes] at hp
    exact hk.mem_regions.2 (hk.books.time_region hp)
  case distinct =>
    rw [htimes]
    exact hk.books.times_distinct
  case reserved =>
    intro off
    rw [htimes]
    constructor
    · rintro ⟨hreg, hno⟩
      obtain ⟨p, hp, rfl⟩ := mem_map.1 hreg
      obtain ⟨pg, hpg, he⟩ := hf p hp
      rcases mem_append.1 hpg with hpg | hpg
      · obtain ⟨⟨t, pg⟩, hlive, rfl⟩ := mem_map.1 hpg
        exact absurd (mem_map.2 ⟨(t, p.1), (hk.books.times _ _).2 ⟨pg, hlive, he⟩, rfl⟩) hno
      · obtain ⟨d, hdm, rfl⟩ := mem_map.1 hpg
        exact mem_map.2 ⟨d.1, hd ▸ mem_map_of_mem hdm, he⟩
    · intro hm
      obtain ⟨r, hr, rfl⟩ := mem_map.1 hm
      rw [← hd] at hr
      obtain ⟨d, hdm, rfl⟩ := mem_map.1 hr
      refine ⟨hk.mem_regions.2 (Multiset.mem_map_of_mem Prod.fst (hk.books.drafts d hdm).1), ?_⟩
      exact hk.books.draft_untimed hdm
  case nbytes =>
    have hc := hk.counted
    rw [Catalog.Counted, ← hregions] at hc
    exact hc

/-! ## The capacity of the indexes -/

theorem Holds.add_succeeds (h : Holds D q st) {extent : Nat} (hpos : 0 < extent) (hfit : extent + D.align ≤ 2 ^ 64)
    (sig : Signature) : wp (allocateRegion ProductQueue.callbacks extent sig) (fun res s => ∀ r, res = .ok r →
      wp (onSx (SignatureIndex.add sig (s.rl.rp r).offset)) (fun sxep _ => sxep.isSome) s) q.ix := by
  obtain ⟨⟨g, hk⟩, -⟩ := h
  refine (allocateRegion_spec hk.inv hpos hfit sig).mono ?_
  rintro res s1 ⟨g1, h1, hres⟩ r he
  rcases hres with ⟨status, hr, -⟩ | ⟨r', a, hr, -, hsig, hev, hcat⟩
  · rw [he] at hr
    cases hr
  have hcard := hev.paired hk.paired
  have hne : g1.sfl ≠ [] := h1.sfl_ne_nil (by simp [hcat, Catalog.addRegion, hcard])
  have hsig1 : sig ∉ (catalog s1 g1).sigs.map Prod.fst := by rwa [hcat]
  refine (sxAdd_spec h1 hsig1 _).mono ?_
  intro sxep s2 hadd
  rcases hadd with ⟨hnil, -⟩ | ⟨hsome, -⟩
  · exact absurd hnil hne
  · exact hsome

theorem Holds.hasSpace (h : Holds D q st) (hr : q.reserved ≠ []) :
    wp TimeQueue.hasSpace (fun space _ => space = true) ⟨q.ix.tq, q.ix.fb⟩ := by
  obtain ⟨⟨g, hk⟩, hd⟩ := h
  have hne : st.drafts ≠ [] := fun e => hr (by rw [← hd, e]; rfl)
  obtain ⟨d, ds, hds⟩ := exists_cons_of_ne_nil hne
  have hdm : d ∈ st.drafts := by rw [hds]; exact mem_cons_self
  -- the times and the draft are regions, all of them different
  have hnd : (d.1.offset :: (catalog q.ix g).times.map Prod.snd).Nodup :=
    nodup_cons.2 ⟨hk.books.draft_untimed hdm, hk.books.times_distinct⟩
  have hsub : ∀ off ∈ d.1.offset :: (catalog q.ix g).times.map Prod.snd, off ∈ q.ix.regions.map Prod.fst := by
    intro off hm
    refine hk.mem_regions.2 ?_
    rcases mem_cons.1 hm with rfl | hm
    · exact Multiset.mem_map_of_mem Prod.fst (hk.books.drafts d hdm).1
    · obtain ⟨p, hp, rfl⟩ := mem_map.1 hm
      exact hk.books.time_region hp
  have hle := (subperm_of_subset hnd hsub).length_le
  have hlen : q.ix.regions.length = q.ix.rl.nelems := by
    rw [hk.inv.nelems, ← hk.inv.regions_eq]
    rfl
  have hts : (catalog q.ix g).times.length = g.ts.length := by simp [catalog]
  have hslots : g.ts.length + g.tfl.length = q.ix.tq.nalloc := hk.inv.time.length
  have hcounts : q.ix.rl.nelems + q.ix.rl.nfree + q.ix.rl.nempty = q.ix.rl.nalloc := hk.inv.regions.counts
  have hsame := hk.inv.tqSlots
  refine (TimeQueue.hasSpace_spec hk.inv.time).mono ?_
  rintro space _ ⟨hspace, _⟩
  rw [hspace, decide_eq_true_eq]
  intro hnil
  simp only [length_cons, length_map, hlen, hts] at hle
  rw [hnil, length_nil] at hslots
  omega

/-! ## Runs -/

/-- **The indexes agree in every state** of a run in which the regions of new products can be mapped and no product
takes 4 GiB or more. -/
theorem indexes_agree (D : DataSection) {b : Audit} (h : Reached D (fun op => op.Mapped ∧ op.Small) b) :
    Consistent b.queue ∧
    (∀ info : ProdInfo, info.origin.length + info.ident.length < 2 ^ 62 →
      wp (QueueIndexManager.allocateRegion ProductQueue.callbacks (getEncodedSize info) info.signature) (fun res s =>
        ∀ r, res = .ok r →
          wp (onSx (SignatureIndex.add info.signature (s.rl.rp r).offset)) (fun sxep _ => sxep.isSome) s) b.queue.ix) ∧
    (b.queue.reserved ≠ [] → wp TimeQueue.hasSpace (fun space _ => space = true) ⟨b.queue.ix.tq, b.queue.ix.fb⟩) := by
  have hh := h.holds
  refine ⟨hh.consistent (h.filled fun op hop => hop), fun info hmem => ?_, hh.hasSpace⟩
  exact hh.add_succeeds (getEncodedSize_pos info) (encoded_fits D hmem) info.signature

def blankQueue (align : Nat) (clock : Nat → Timestamp) : ProductQueue where
  ix := {
    rl := ⟨0, 0, 0, 0, 0, 0, 0, 0, 0, 0, 0, 0, 0, 0, 0, 0, fun _ => ⟨0, 0, 0, 0⟩, fun _ => 0⟩
    tq := ⟨0, 0, 0, 0, 0, fun _ => ⟨⟨0, 0⟩, 0, 0⟩⟩
    fb := ⟨0, 0, 0, 0, fun _ => 0, fun _ => 0, fun _ => 0, []⟩
    sx := ⟨0, 0, 0, 0, 0, fun _ => ⟨default, 0, 0⟩, fun _ => 0⟩
    align := align
    isFull := false
    smallestExtentSeen := 2 ^ 64 - 1
    env := ⟨fun _ => 0, clock, 0, fun _ => true, 0, ⟨0, 0, Timestamp.NONE, Timestamp.NONE, -1, 0⟩⟩ }
  reserved := []

def tick (n : Nat) : Timestamp := ⟨n + 1, 0⟩

def computedRun (D : DataSection) (clock : Nat → Timestamp) (ops : List QueueOp) : Option Audit :=
  (Audit.create D 4 (blankQueue D.align clock)).bind (Audit.runOps D ops)

theorem computedRun_reached {D : DataSection} {clock : Nat → Timestamp} {ops : List QueueOp} {b : Audit}
    (hP : ∀ op ∈ ops, P op) (h : computedRun D clock ops = some b) : Reached D P b := by
  obtain ⟨b0, h0, h1⟩ := Option.bind_eq_some_iff.1 h
  exact Audit.runOps_reached (Audit.create_reached rfl rfl h0) hP h1

theorem exists_run {Q : Audit → Prop} (slots : Nat) (hal : q.ix.align = D.align) (hres : q.reserved = [])
    (ops : List QueueOp) (h : ∃ a, (Audit.create D slots q).bind (Audit.runOps D ops) = some a ∧ Q a) :
    ∃ a, Reached D (fun _ => True) a ∧ Q a := by
  obtain ⟨a, ha, hq⟩ := h
  obtain ⟨a0, hcreate, hops⟩ := Option.bind_eq_some_iff.1 ha
  exact ⟨a, Audit.runOps_reached (Audit.create_reached hal hres hcreate) (fun _ _ => trivial) hops, hq⟩

theorem exists_computed {Q : Audit → Prop} (clock : Nat → Timestamp) (ops : List QueueOp)
    (h : ∃ a, computedRun D clock ops = some a ∧ Q a) : ∃ a, Reached D (fun _ => True) a ∧ Q a :=
  exists_run 4 rfl rfl ops h

def sampleInfo (n : UInt8) : ProdInfo := { signature := Signature.fill n, sz := 100 }

def sampleOps : List QueueOp := [.newElement (sampleInfo 1) true, .newElement (sampleInfo 2) true, .commit 0]

theorem indexes_agree_sample : ∃ b, Reached smallSection (fun op => op.Mapped ∧ op.Small) b ∧
    b.queue.reserved.length = 1 ∧ b.queue.ix.times.length = 1 ∧ Consistent b.queue ∧
    wp TimeQueue.hasSpace (fun space _ => space = true) ⟨b.queue.ix.tq, b.queue.ix.fb⟩ := by
  have hrun : (computedRun smallSection tick sampleOps).map
      (fun b => (b.queue.reserved.length, b.queue.ix.times.length)) = some (1, 1) := by decide +kernel
  obtain ⟨b, hb, he⟩ := Option.map_eq_some_iff.1 hrun
  have hP : ∀ op ∈ sampleOps, op.Mapped ∧ op.Small := by
    intro op hop
    simp only [sampleOps, mem_cons, not_mem_nil, or_false] at hop
    rcases hop with rfl | rfl | rfl
    all_goals exact ⟨by first | rfl | trivial, by first | (show getEncodedSize _ < _; decide) | trivial⟩
  have hreach := computedRun_reached hP hb
  obtain ⟨hcons, -, hspace⟩ := indexes_agree smallSection hreach
  have hlen : b.queue.reserved.length = 1 := congrArg Prod.fst he
  exact ⟨b, hreach, hlen, congrArg Prod.snd he, hcons, hspace fun e => by rw [e] at hlen; cases hlen⟩

def bigSection : DataSection where
  datao := 4096
  ixo := 4096 + 2 ^ 33
  align := 8
  header := smallSection.header
  nonempty := by decide
  fits := by decide
  even := by decide
  align_pos := smallSection.align_pos
  align_even := smallSection.align_even
  aligned := smallSection.aligned

def bigInfo : ProdInfo := { signature := Signature.fill 1, sz := 4294967252 }

/-- A region is allocated, has no time, and no client has an entry for it. -/
theorem region_lost : ∃ b, Reached bigSection QueueOp.Mapped b ∧ ¬ Consistent b.queue := by
  have hrun : (computedRun bigSection tick [.newElement bigInfo true]).map
      (fun b => (b.queue.ix.regions.map Prod.fst, b.queue.ix.times, b.queue.reserved)) = some ([4096], [], []) := by
    decide +kernel
  obtain ⟨b, hb, he⟩ := Option.map_eq_some_iff.1 hrun
  have hP : ∀ op ∈ [QueueOp.newElement bigInfo true], op.Mapped := by
    intro op hop
    rw [mem_singleton.1 hop]
    rfl
  refine ⟨b, computedRun_reached hP hb, fun hc => ?_⟩
  obtain ⟨hregions, htimes, hreserved⟩ : b.queue.ix.regions.map Prod.fst = [4096] ∧ b.queue.ix.times = [] ∧
      b.queue.reserved = [] := by
    simpa using he
  have hiff := hc.reserved 4096
  rw [hregions, htimes, hreserved] at hiff
  simp at hiff

end Rdm
