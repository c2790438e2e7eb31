import Rdm.Pq.Eviction
import Rdm.Pq.ProductQueue

/-!
# The queue as a store of products

The queue holds products, some still being written (`drafts`) and some committed with an insertion time (`live`).
`Books a disk st`: the catalog and the bytes of the file represent the store `st`.
-/

namespace Rdm

open Xdr SunRpcSerializer ProductQueue List

structure Page where
  offset : Int
  info : ProdInfo
  data : List UInt8
deriving DecidableEq

structure Store where
  drafts : List (Reservation × List UInt8)
  live : List (Timestamp × Page)

namespace Store

def draftPage (d : Reservation × List UInt8) : Page := ⟨d.1.offset, d.1.info, d.2⟩

def pages (st : Store) : List Page := st.live.map Prod.snd ++ st.drafts.map draftPage

instance : LawfulBEq (Timestamp × Int) := inferInstance

def keep (times : List (Timestamp × Int)) (st : Store) : Store :=
  { st with live := st.live.filter fun p => (p.1, p.2.offset) ∈ times }

end Store

structure Catalog.Sound (a : Catalog) : Prop extends a.Spread where
  offsets : a.sigs.map Prod.snd = a.regions.map Prod.fst
  sigs : (a.sigs.map Prod.fst).Nodup

/-- The product is in its region. -/
structure Page.On (a : Catalog) (disk : Memory) (pg : Page) : Prop where
  filed : (pg.info.signature, pg.offset) ∈ a.sigs
  region : ∃ ext, (pg.offset, ext) ∈ a.regions ∧ (header pg.info).length + pg.info.sz.toNat ≤ ext
  header : readBytes disk pg.offset (header pg.info).length = header pg.info
  data : readBytes disk (pg.offset + (SunRpcSerializer.header pg.info).length) pg.info.sz.toNat = pg.data

/-- **The catalog and the file represent the store.** -/
structure Books (a : Catalog) (disk : Memory) (st : Store) : Prop extends a.Sound where
  times : ∀ t off, (t, off) ∈ a.times ↔ ∃ pg, (t, pg) ∈ st.live ∧ pg.offset = off
  sorted : a.times.Pairwise fun p q => p.1 < q.1
  uses : (st.pages.map Page.offset).Nodup
  pages : ∀ pg ∈ st.pages, pg.On a disk
  drafts : ∀ d ∈ st.drafts, (d.1.offset, d.1.extent) ∈ a.regions ∧ d.1.signature = d.1.info.signature ∧
    d.1.payload = d.1.offset + (header d.1.info).length
  readable : ∀ p ∈ st.live, ∀ ext, (p.2.offset, ext) ∈ a.regions → (header p.2.info).length ≤ ext % 2 ^ 32

variable {a a' : Catalog} {disk disk' : Memory} {st st' : Store} {pg : Page} {off : Int} {ext : Nat} {sig : Signature}
variable {t : Timestamp}

/-! ## The catalog -/

section

variable (h : a.Sound)
include h

theorem Catalog.Sound.extent_unique {ext' : Nat} (h1 : (off, ext) ∈ a.regions) (h2 : (off, ext') ∈ a.regions) :
    ext = ext' :=
  congrArg Prod.snd (Multiset.inj_on_of_nodup_map h.regions _ h1 _ h2 rfl)

theorem Catalog.Sound.offset_unique {off' : Int} (h1 : (sig, off) ∈ a.sigs) (h2 : (sig, off') ∈ a.sigs) : off = off' :=
  congrArg Prod.snd (Multiset.inj_on_of_nodup_map h.sigs _ h1 _ h2 rfl)

theorem Catalog.Sound.signature_unique {sig' : Signature} (h1 : (sig, off) ∈ a.sigs) (h2 : (sig', off) ∈ a.sigs) :
    sig = sig' :=
  congrArg Prod.fst (Multiset.inj_on_of_nodup_map (h.offsets ▸ h.regions) _ h1 _ h2 rfl)

theorem Catalog.Sound.paired : a.sigs.card = a.regions.card := by
  have hcard := congrArg Multiset.card h.offsets
  simpa only [Multiset.card_map] using hcard

theorem Catalog.Sound.freed (hf : a.Freed off ext sig a') (hfiled : (sig, off) ∈ a.sigs) :
    a'.Sound ∧ (∀ p ∈ a'.regions, p ∈ a.regions) ∧ (∀ p ∈ a.regions, p.1 ≠ off → p ∈ a'.regions) ∧
      ∀ p ∈ a.sigs, p.2 ≠ off → p ∈ a'.sigs := by
  have hsigs : a.sigs = (sig, off) ::ₘ a'.sigs := by
    obtain ⟨o, ho⟩ := hf.sigs
    have hmem : (sig, o) ∈ a.sigs := by rw [ho]; exact Multiset.mem_cons_self _ _
    rw [h.offset_unique hfiled hmem, ho]
  have hregions := hf.regions
  have hold : ∀ p ∈ a'.regions, p ∈ a.regions := fun p hp => by rw [hregions]; exact Multiset.mem_cons_of_mem hp
  refine ⟨⟨⟨?_, fun p hp q hq => h.apart p (hold p hp) q (hold q hq)⟩, ?_, ?_⟩, hold, fun p hp hne => ?_,
    fun p hp hne => ?_⟩
  · have hs := h.regions
    rw [hregions, Multiset.map_cons] at hs
    exact (Multiset.nodup_cons.1 hs).2
  · have ho := h.offsets
    rw [hsigs, hregions, Multiset.map_cons, Multiset.map_cons] at ho
    exact (Multiset.cons_inj_right _).1 ho
  · have hs := h.sigs
    rw [hsigs, Multiset.map_cons] at hs
    exact (Multiset.nodup_cons.1 hs).2
  · rw [hregions] at hp
    exact (Multiset.mem_cons.1 hp).resolve_left fun he => hne (congrArg Prod.fst he)
  · rw [hsigs] at hp
    exact (Multiset.mem_cons.1 hp).resolve_left fun he => hne (congrArg Prod.snd he)

theorem Catalog.Sound.enter (ha' : a' = (a.addRegion (off, ext)).addSig (sig, off)) (hsig : sig ∉ a.sigs.map Prod.fst)
    (hspread : a'.Spread) : a'.Sound ∧ off ∉ a.regions.map Prod.fst := by
  subst ha'
  have hnd := hspread.regions
  simp only [Catalog.addSig, Catalog.addRegion, Multiset.map_cons, Multiset.nodup_cons] at hnd
  refine ⟨⟨hspread, by simp [Catalog.addSig, Catalog.addRegion, h.offsets], ?_⟩, hnd.1⟩
  simp only [Catalog.addSig, Catalog.addRegion, Multiset.map_cons, Multiset.nodup_cons]
  exact ⟨hsig, h.sigs⟩

theorem Catalog.Sound.retime (ha' : a' = { a with times := a'.times }) : a'.Sound := by
  rw [ha']
  exact { h with }

end

theorem Catalog.sound_empty : Catalog.empty.Sound := by
  refine ⟨⟨?_, ?_⟩, ?_, ?_⟩ <;> simp [Catalog.empty]

/-! ## Reading the books -/

theorem Store.mem_pages_of_live (h : (t, pg) ∈ st.live) : pg ∈ st.pages :=
  mem_append_left _ (mem_map.2 ⟨_, h, rfl⟩)

theorem Store.mem_pages_of_draft {d : Reservation × List UInt8} (h : d ∈ st.drafts) : draftPage d ∈ st.pages :=
  mem_append_right _ (mem_map_of_mem h)

theorem Books.room (h : Books a disk st) (hpg : pg ∈ st.pages) (hreg : (pg.offset, ext) ∈ a.regions) :
    (header pg.info).length + pg.info.sz.toNat ≤ ext := by
  obtain ⟨ext', h1, h2⟩ := (h.pages pg hpg).region
  rwa [h.extent_unique hreg h1]

/-- **Decoding a product** gives its metadata or, in a region whose size is cut to one too small, nothing. -/
theorem Books.decode (h : Books a disk st) (hpg : pg ∈ st.pages) (size : Nat) :
    decodeProdInfo disk pg.offset size = if (header pg.info).length ≤ size % 2 ^ 32 then
      some (stored pg.info, pg.offset + (header pg.info).length) else none :=
  decodeProdInfo_header (h.pages pg hpg).header

theorem Books.decode_signature (h : Books a disk st) (hpg : pg ∈ st.pages) {size : Nat} {info : ProdInfo} {pos : Int}
    (hdec : decodeProdInfo disk pg.offset size = some (info, pos)) : info.signature = pg.info.signature := by
  rw [h.decode hpg] at hdec
  split at hdec
  · cases hdec
    rfl
  · cases hdec

/-! ## Taking a product away -/

theorem Books.free (h : Books a disk st) (hpg : pg ∈ st.pages) (hf : a.Freed pg.offset ext pg.info.signature a')
    (htimes : ∀ t off, (t, off) ∈ a'.times ↔ ∃ pg, (t, pg) ∈ st'.live ∧ pg.offset = off)
    (hsorted : a'.times.Sublist a.times)
    (hsub : ∀ pg' ∈ st'.pages, pg' ∈ st.pages ∧ pg'.offset ≠ pg.offset) (hnd : (st'.pages.map Page.offset).Nodup)
    (hdrafts : ∀ d ∈ st'.drafts, d ∈ st.drafts) (hlive : ∀ p ∈ st'.live, p ∈ st.live) : Books a' disk st' := by
  obtain ⟨hsound, hold, hreg, hsig⟩ := h.freed hf (h.pages pg hpg).filed
  refine { hsound with
    times := htimes, sorted := h.sorted.sublist hsorted, uses := hnd, pages := ?pages, drafts := ?drafts
    readable := fun p hp e he => h.readable p (hlive p hp) e (hold _ he) }
  case pages =>
    intro pg' hpg'
    obtain ⟨hm, hne⟩ := hsub pg' hpg'
    have hon := h.pages pg' hm
    obtain ⟨e, he, hle⟩ := hon.region
    exact { hon with filed := hsig _ hon.filed hne, region := ⟨e, hreg _ he hne, hle⟩ }
  case drafts =>
    intro d hd
    obtain ⟨h1, h2⟩ := h.drafts d (hdrafts d hd)
    exact ⟨hreg _ h1 (hsub _ (Store.mem_pages_of_draft hd)).2, h2⟩

theorem Books.keep_self (h : Books a disk st) : st.keep a.times = st := by
  have hall : ∀ p ∈ st.live, decide ((p.1, p.2.offset) ∈ a.times) = true := fun p hp =>
    decide_eq_true ((h.times _ _).2 ⟨p.2, hp, rfl⟩)
  rw [Store.keep, filter_eq_self.2 hall]

theorem Store.keep_keep {ts us : List (Timestamp × Int)} (hsub : ∀ p ∈ us, p ∈ ts) (st : Store) :
    (st.keep ts).keep us = st.keep us := by
  simp only [keep, filter_filter]
  congr 1
  refine filter_congr fun p _ => ?_
  by_cases hp : (p.1, p.2.offset) ∈ us
  · simp [hp, hsub _ hp]
  · simp [hp]

theorem Store.pages_keep_sublist (ts : List (Timestamp × Int)) (st : Store) : (st.keep ts).pages.Sublist st.pages :=
  (List.Sublist.map _ filter_sublist).append (List.Sublist.refl _)

theorem Books.live_unique (h : Books a disk st) {t' : Timestamp} {pg' : Page} (h1 : (t, pg) ∈ st.live)
    (h2 : (t', pg') ∈ st.live) (e : pg.offset = pg'.offset) : (t, pg) = (t', pg') := by
  have hnd : (st.live.map fun p => p.2.offset).Nodup := by
    have hnd := (nodup_append.1 (map_append ▸ h.uses)).1
    rwa [map_map] at hnd
  exact inj_on_of_nodup_map hnd h1 h2 e

theorem Books.times_nodup (h : Books a disk st) : a.times.Nodup :=
  h.sorted.imp fun hlt e => absurd (congrArg Prod.fst e) (ne_of_lt hlt)

/-- **A live product is deleted.** -/
theorem Books.without (h : Books a disk st) (hlive : (t, pg) ∈ st.live)
    (hw : a.Without t pg.offset ext pg.info.signature a') :
    Books a' disk (st.keep a'.times) ∧ a'.times.Sublist a.times ∧
      ∀ pg' ∈ st.pages, pg'.offset ≠ pg.offset → pg' ∈ (st.keep a'.times).pages := by
  obtain ⟨pre, suf, hts, hts'⟩ := hw.times
  have hsub : a'.times.Sublist a.times := by
    rw [hts, hts']
    exact (sublist_cons_self _ _).append_left pre
  have hmem : ∀ t' off', (t', off') ∈ a'.times ↔ (t', off') ∈ a.times ∧ off' ≠ pg.offset := by
    intro t' off'
    have hnd := h.times_nodup
    rw [hts, nodup_middle, nodup_cons, ← hts'] at hnd
    constructor
    · intro hm
      refine ⟨hsub.mem hm, fun e => ?_⟩
      obtain ⟨pg', hl, he⟩ := (h.times t' off').1 (hsub.mem hm)
      cases h.live_unique hlive hl (by rw [he, e])
      exact hnd.1 (he ▸ hm)
    · rintro ⟨hm, hne⟩
      rw [hts, mem_append, mem_cons] at hm
      rw [hts', mem_append]
      rcases hm with hm | he | hm
      · exact .inl hm
      · exact absurd (congrArg Prod.snd he) hne
      · exact .inr hm
  refine ⟨h.free (Store.mem_pages_of_live hlive) hw.toFreed ?_ hsub ?_ ?_ (fun d hd => hd) fun p hp =>
    (mem_filter.1 hp).1, hsub, ?_⟩
  · intro t' off'
    simp only [Store.keep, mem_filter, decide_eq_true_eq]
    constructor
    · intro hm
      obtain ⟨pg', hl, he⟩ := (h.times t' off').1 (hsub.mem hm)
      exact ⟨pg', ⟨hl, he ▸ hm⟩, he⟩
    · rintro ⟨pg', ⟨_, hm⟩, he⟩
      exact he ▸ hm
  · intro pg' hpg'
    refine ⟨(Store.pages_keep_sublist _ _).mem hpg', fun e => ?_⟩
    rcases mem_append.1 hpg' with hm | hm
    · obtain ⟨p, hp, rfl⟩ := mem_map.1 hm
      simp only [Store.keep, mem_filter, decide_eq_true_eq] at hp
      exact ((hmem _ _).1 hp.2).2 e
    · have hnd := h.uses
      rw [Store.pages, map_append, nodup_append] at hnd
      exact hnd.2.2 pg.offset (mem_map_of_mem (mem_map.2 ⟨_, hlive, rfl⟩)) _ (mem_map_of_mem hm) e.symm
  · exact h.uses.sublist ((Store.pages_keep_sublist _ _).map _)
  · intro pg' hpg' hne
    rcases mem_append.1 hpg' with hm | hm
    · obtain ⟨p, hp, rfl⟩ := mem_map.1 hm
      have hkept := (hmem p.1 p.2.offset).2 ⟨(h.times _ _).2 ⟨p.2, hp, rfl⟩, hne⟩
      refine Store.mem_pages_of_live (t := p.1) ?_
      simpa [Store.keep, hp] using hkept
    · exact mem_append_right _ hm

/-! ## Evictions -/

def Catalog.Counted (a : Catalog) : Prop := a.nbytes = (a.regions.map Prod.snd).sum

theorem Catalog.Freed.counted (hf : a.Freed off ext sig a') (h : a.Counted) : a'.Counted := by
  unfold Counted at h ⊢
  rw [hf.nbytes, h, hf.regions, Multiset.map_cons, Multiset.sum_cons, sizeSub_of_le (Nat.le_add_right _ _),
    Nat.add_sub_cancel_left]

def Store.Fills (st : Store) (a : Catalog) : Prop := ∀ p ∈ a.regions, ∃ pg ∈ st.pages, pg.offset = p.1

/-- What deleting products leaves. -/
structure Evicted (a : Catalog) (st : Store) (a' : Catalog) (disk : Memory) : Prop where
  books : Books a' disk (st.keep a'.times)
  times : a'.times.Sublist a.times
  counted : a.Counted → a'.Counted
  fills : st.Fills a → (st.keep a'.times).Fills a'

structure World.Passed (w w' : World) : Prop where
  disk : w'.disk = w.disk
  clock : w'.clock = w.clock
  readings : w.readings ≤ w'.readings

theorem World.Passed.refl (w : World) : w.Passed w := ⟨rfl, rfl, Nat.le_refl _⟩

theorem World.Passed.trans {w1 w2 w3 : World} (h : w1.Passed w2) (h' : w2.Passed w3) : w1.Passed w3 :=
  ⟨h'.disk.trans h.disk, h'.clock.trans h.clock, Nat.le_trans h.readings h'.readings⟩

theorem mvrtFunc_passed (t : Timestamp) (info : ProdInfo) (rl : RegionList) (w : World) :
    w.Passed (mvrtFunc t info rl w) := by
  simp only [mvrtFunc, QueueMetrics.trackMvrt, World.now]
  repeat' split
  all_goals exact ⟨rfl, rfl, Nat.le_succ _⟩

theorem decodeFunc_passed (off : Int) (ext : Nat) (w : World) : w.Passed (decodeFunc off ext w).2 :=
  ⟨rfl, rfl, Nat.le_refl _⟩

theorem decodeFunc_ok {off : Int} {ext : Nat} {w : World} (h : (decodeFunc off ext w).1.1 = 0) :
    ∃ pos, decodeProdInfo w.disk off ext = some ((decodeFunc off ext w).1.2, pos) := by
  by_cases hg : w.grants w.requests = false
  · simp [decodeFunc, World.getRegionNoWait, hg, EACCES] at h
  cases hdec : decodeProdInfo w.disk off ext with
  | none => simp [decodeFunc, World.getRegionNoWait, hg, hdec, PqStatus.toInt] at h
  | some res => exact ⟨res.2, by simp [decodeFunc, World.getRegionNoWait, hg, hdec]⟩

theorem Books.evicted_refl (h : Books a disk st) : Evicted a st a disk := by
  have hk := h.keep_self
  exact ⟨by rwa [hk], List.Sublist.refl _, id, by rw [hk]; exact id⟩

theorem Evicted.trans {a'' : Catalog} (h : Evicted a st a' disk) (h' : Evicted a' (st.keep a'.times) a'' disk) :
    Evicted a st a'' disk := by
  have hk : (st.keep a'.times).keep a''.times = st.keep a''.times := Store.keep_keep (fun p hp => h'.times.mem hp) st
  have hb := h'.books
  have hf := h'.fills
  rw [hk] at hb hf
  exact ⟨hb, h'.times.trans h.times, fun hc => h'.counted (h.counted hc), fun hf' => hf (h.fills hf')⟩

theorem Books.deleted (h : Books a disk st) (hlive : (t, pg) ∈ st.live)
    (hw : a.Without t pg.offset ext pg.info.signature a') : Evicted a st a' disk := by
  obtain ⟨hbooks, hsub, hrest⟩ := h.without hlive hw
  refine ⟨hbooks, hsub, hw.toFreed.counted, fun hfill p hp => ?_⟩
  obtain ⟨pg', hpg', he⟩ := hfill p (by rw [hw.regions]; exact Multiset.mem_cons_of_mem hp)
  refine ⟨pg', hrest pg' hpg' fun e => hw.region_gone h.toSpread ?_, he⟩
  rw [← e, he]
  exact Multiset.mem_map_of_mem _ hp

theorem Books.evictStep (h : Books a disk st) {w w' : World} (hdisk : w.disk = disk)
    (hstep : EvictStep callbacks (a, w) (a', w')) : Evicted a st a' disk ∧ w.Passed w' := by
  cases hstep with
  | look htime hregion => exact ⟨h.evicted_refl, decodeFunc_passed _ _ w⟩
  | @evict _ _ _ t off ext rl h0 hw =>
    obtain ⟨pos, hdec⟩ := decodeFunc_ok h0
    obtain ⟨pre, suf, hts, hts'⟩ := hw.times
    obtain ⟨pg, hlive, rfl⟩ := (h.times t off).1 (by rw [hts]; simp)
    rw [hdisk] at hdec
    have hsig := h.decode_signature (Store.mem_pages_of_live hlive) hdec
    exact ⟨h.deleted hlive (hsig ▸ hw), (decodeFunc_passed _ _ w).trans (mvrtFunc_passed _ _ _ _)⟩

/-- **Evictions** take away live products. -/
theorem Books.evictions (h : Books a disk st) {w : World} (hdisk : w.disk = disk) {p : Catalog × World}
    (hev : Evictions callbacks (a, w) p) : Evicted a st p.1 disk ∧ w.Passed p.2 := by
  induction hev with
  | refl => exact ⟨h.evicted_refl, .refl w⟩
  | tail _ hstep ih =>
    obtain ⟨hev, hpass⟩ := ih
    obtain ⟨hev', hpass'⟩ := hev.books.evictStep (hpass.disk.trans hdisk) hstep
    exact ⟨hev.trans hev', hpass.trans hpass'⟩

end Rdm
