import Rdm.Pq.QueueCursor
import Rdm.Pq.QueueSpec

/-!
# Reading and deleting through the time queue

A cursor finds the entry next to its time. Reading changes nothing, and what the callback gets is a live product;
deleting takes away at most one.
-/

namespace Rdm

open ProgLogic ProgLogic.Prog Xdr SunRpcSerializer QueueIndexManager ProductQueue QueueCursor RegionList List
open TimeQueue (delete find find_wlp mem_of_neighbour)

variable {D : DataSection} {s s' : QueueIndexManager World} {g g' : Ghost} {st : Store} {q : ProductQueue}
variable {t : Timestamp} {pg : Page} {x : Nat} {sig : Signature}

/-! ## Finding an entry and its region -/

def neighbour (times : List (Timestamp × Int)) (key : Timestamp) : Match → Option (Timestamp × Int)
  | .lessThan => (times.filter fun p => p.1 < key).getLast?
  | .equal => times.find? fun p => p.1 = key
  | .greaterThan => (times.filter fun p => key < p.1).head?

theorem neighbour_map (tq : TimeQueue) (ts : List Nat) (key : Timestamp) (mt : Match) :
    neighbour (ts.map (timeOf tq)) key mt = (TimeQueue.neighbour tq ts key mt).map (timeOf tq) := by
  cases mt with
  | lessThan => simp only [neighbour, TimeQueue.neighbour, TimeQueue.earlier, filter_map, getLast?_map]; rfl
  | equal => simp only [neighbour, TimeQueue.neighbour, find?_map]; rfl
  | greaterThan => simp only [neighbour, TimeQueue.neighbour, filter_map, head?_map]; rfl

theorem neighbour_cases (key : Timestamp) (mt : Match) {r : Option Nat}
    (hr : r = TimeQueue.neighbour s.tq g.ts key mt) : (r = none ∧ neighbour (catalog s g).times key mt = none) ∨
      ∃ x ∈ g.ts, r = some x ∧ neighbour (catalog s g).times key mt = some (timeOf s.tq x) := by
  have hn := neighbour_map s.tq g.ts key mt
  rw [← hr] at hn
  cases r with
  | none => exact .inl ⟨rfl, hn⟩
  | some x => exact .inr ⟨x, mem_of_neighbour hr.symm, rfl, hn⟩

theorem tqFind_spec (h : IndexInv D s g) (key : Timestamp) (mt : Match) :
    wlp (onTq (find key mt)) (fun r s' => s' = s ∧ ((r = none ∧ neighbour (catalog s g).times key mt = none) ∨
      (∃ x ∈ g.ts, r = some x ∧ neighbour (catalog s g).times key mt = some (timeOf s.tq x)) ∨
      mt = .equal ∧ r = some TQ_NIL)) s := by
  rw [onTq, wlp_zoom]
  refine (find_wlp h.time key mt).mono ?_
  rintro r t ⟨rfl, hr | hr⟩
  · exact ⟨rfl, or_assoc.1 (.inl (neighbour_cases key mt hr))⟩
  · exact ⟨rfl, .inr (.inr hr)⟩

theorem tqFind_total (h : IndexInv D s g) {key : Timestamp} (hkey : key ≤ Timestamp.ENDT) {mt : Match}
    (hmt : mt = .equal → key < Timestamp.ENDT) :
    wp (onTq (find key mt)) (fun r s' => s' = s ∧ ((r = none ∧ neighbour (catalog s g).times key mt = none) ∨
      ∃ x ∈ g.ts, r = some x ∧ neighbour (catalog s g).times key mt = some (timeOf s.tq x))) s := by
  rw [onTq, wp_zoom]
  refine (TimeQueue.find_spec h.time hkey mt).mono ?_
  rintro r t ⟨rfl, hr | ⟨he, hend, -⟩⟩
  · exact ⟨rfl, neighbour_cases key mt hr⟩
  · exact absurd hend (ne_of_lt (hmt he))

theorem Kept.live_of (h : Kept D s g st) (hx : x ∈ g.ts) :
    ∃ pg, ((s.tq.tqep x).tv, pg) ∈ st.live ∧ pg.offset = (s.tq.tqep x).offset :=
  (h.books.times _ _).1 (mem_map.2 ⟨x, hx, rfl⟩)

theorem Holds.mem_times (h : Holds D q st) {key : Timestamp} {off : Int} :
    (key, off) ∈ q.ix.times ↔ ∃ pg, (key, pg) ∈ st.live ∧ pg.offset = off := by
  obtain ⟨⟨g, hk⟩, -⟩ := h
  rw [hk.inv.times_eq]
  exact hk.books.times key off

theorem Kept.find_live (h : Kept D s g st) (hlive : (t, pg) ∈ st.live) : wp (onRl (find pg.offset)) (fun r s' =>
    s' = s ∧ r ≠ RL_NONE ∧ r ∈ allocs s.rl g.C ∧ (s.rl.rp r).offset = pg.offset ∧
      (pg.offset, (s.rl.rp r).getExtent) ∈ (catalog s g).regions) s := by
  obtain ⟨ext, hreg, -⟩ := (h.books.pages pg (Store.mem_pages_of_live hlive)).region
  exact find_region h.inv (Multiset.mem_map_of_mem Prod.fst hreg)

def Headed (a : Catalog) (disk : Memory) : Prop :=
  ∀ p ∈ a.times, ∃ sig, (sig, p.2) ∈ a.sigs ∧ p.2 ∈ a.regions.map Prod.fst ∧
    ∀ ext info pos, (p.2, ext) ∈ a.regions → decodeProdInfo disk p.2 ext = some (info, pos) → info.signature = sig

theorem Books.headed {a : Catalog} {disk : Memory} (h : Books a disk st) : Headed a disk := by
  rintro ⟨t, off⟩ hp
  obtain ⟨pg, hlive, rfl⟩ := (h.times t off).1 hp
  have hpg := Store.mem_pages_of_live hlive
  obtain ⟨ext, hreg, -⟩ := (h.pages pg hpg).region
  exact ⟨pg.info.signature, (h.pages pg hpg).filed, Multiset.mem_map_of_mem Prod.fst hreg,
    fun _ _ _ _ hdec => h.decode_signature hpg hdec⟩

theorem decodeRegion_spec (r : Nat) (e1 e2 : Int) : wp (decodeRegion r e1 e2) (fun res s' =>
    s' = { s with env := s.env.getRegionNoWait.2 } ∧
      ((s.env.grants s.env.requests = false ∧ res = .error e1) ∨ (s.env.grants s.env.requests = true ∧
        ((decodeProdInfo s.env.disk (s.rl.rp r).offset (s.rl.rp r).getExtent = none ∧ res = .error e2) ∨
          ∃ info pos, decodeProdInfo s.env.disk (s.rl.rp r).offset (s.rl.rp r).getExtent = some (info, pos) ∧
            res = .ok info)))) s := by
  simp only [decodeRegion, onEnv, wp_bind, wp_read, wp_zoom, wp_call]
  split
  case isTrue hg => exact wp_pure.2 ⟨rfl, .inl ⟨hg, rfl⟩⟩
  case isFalse hg =>
    have hg : s.env.grants s.env.requests = true := Bool.eq_true_of_not_eq_false hg
    split
    case h_1 hdec => exact wp_pure.2 ⟨rfl, .inr ⟨hg, .inl ⟨hdec, rfl⟩⟩⟩
    case h_2 info pos hdec => exact wp_pure.2 ⟨rfl, .inr ⟨hg, .inr ⟨info, pos, hdec, rfl⟩⟩⟩

/-! ## Deleting -/

/-- What an operation leaves that only takes away live products. -/
structure Thinned (D : DataSection) (s : QueueIndexManager World) (st : Store) (s' : QueueIndexManager World) :
    Prop where
  kept : ∃ g', Kept D s' g' (st.keep s'.times)
  times : s'.times.Sublist s.times
  filled : Filled s st → Filled s' (st.keep s'.times)

theorem Kept.unchanged (h : Kept D s g st) (hs' : s' = { s with env := s'.env }) (hdisk : s'.env.disk = s.env.disk) :
    Thinned D s st s' := by
  have htimes : s'.times = s.times := by rw [hs']; rfl
  have hkeep : st.keep s'.times = st := by
    rw [htimes, h.inv.times_eq]
    exact h.books.keep_self
  have hk' : Kept D s' g st := by
    rw [hs']
    exact h.control hdisk s.isFull s.smallestExtentSeen
  refine ⟨⟨g, by rw [hkeep]; exact hk'⟩, by rw [htimes], ?_⟩
  rw [hkeep, hs']
  exact id

theorem Kept.dropped (h : Kept D s g st) (hlive : (t, pg) ∈ st.live) {w : World} (hdisk : w.disk = s.env.disk) {r : Nat}
    (ht : (s.tq.tqep x).tv = t) (hoff : (s.rl.rp r).offset = pg.offset)
    (hd : Dropped D { s with env := w } g x r pg.info.signature s' g') : Thinned D s st s' := by
  have hev := h.books.deleted hlive (hd.without_of ht hoff)
  have hdisk' : s'.env.disk = s.env.disk := by rw [hd.rest]; exact hdisk
  have htimes' := hd.inv.times_eq
  refine ⟨⟨g', hd.inv, ?_, hev.counted h.counted⟩, ?_, ?_⟩
  · rw [hdisk', htimes']
    exact hev.books
  · rw [htimes', h.inv.times_eq]
    exact hev.times
  · rw [htimes', hd.inv.filled_iff, h.inv.filled_iff]
    exact hev.fills

theorem Thinned.clear (h : Thinned D s st s') (n : Nat) : Thinned D s st { s' with smallestExtentSeen := n } := by
  obtain ⟨⟨g', hk'⟩, htimes, hfilled⟩ := h
  exact ⟨⟨g', hk'.control rfl s'.isFull n⟩, htimes, hfilled⟩

theorem Thinned.holds {q' : ProductQueue} (h : Thinned D q.ix st q'.ix) (hres : q'.reserved = q.reserved)
    (hd : st.drafts.map Prod.fst = q.reserved) : Holds D q' (st.keep q'.ix.times) :=
  ⟨h.kept, hd.trans hres.symm⟩

theorem remove_filed (h : IndexInv D s g) (hfiled : sig ∈ (catalog s g).sigs.map Prod.fst) :
    wp (onSx (SignatureIndex.remove sig)) (fun _ s' => s' = { s with sx := s'.sx } ∧ ∃ off sc sfl,
      IndexInv D s' { g with sc := sc, sfl := sfl } ∧
      (catalog s g).sigs = (sig, off) ::ₘ (catalog s' { g with sc := sc, sfl := sfl }).sigs) s := by
  refine (sxRemove_spec h _).mono ?_
  intro r s' hr
  rcases hr with ⟨-, -, hno⟩ | ⟨-, hs', hrest⟩
  · exact absurd hfiled hno
  · exact ⟨hs', hrest⟩

theorem seekOffset_spec (h : IndexInv D s g) (offset : Int) {s1 : QueueIndexManager World} : ∀ (fuel tqep : Nat),
    tqep ∈ g.ts ∨ tqep = TQ_NIL → wlp (seekOffset ⟨s.tq, s.fb⟩ offset fuel tqep)
      (fun res s' => s' = s1 ∧ ∀ x, res = .ok x → x ∈ g.ts) s1
  | 0, _, _ => by simp [seekOffset]
  | fuel + 1, tqep, hx => by
    have hnil : (s.tq.tqep TQ_NIL).offset = -1 := h.time.nil.2
    rw [seekOffset]
    split
    case isTrue => exact wlp_pure.2 ⟨rfl, nofun⟩
    case isFalse hne =>
    have hmem : tqep ∈ g.ts := hx.resolve_right fun e => hne (e ▸ hnil)
    split
    case isTrue =>
      refine wlp_pure.2 ⟨rfl, fun x he => ?_⟩
      cases he
      exact hmem
    case isFalse =>
      obtain ⟨pre, suf, hts⟩ := append_of_mem hmem
      refine seekOffset_spec h offset fuel _ ?_
      rw [TimeQueue.next_spec h.time hts]
      cases suf with
      | nil => exact .inr rfl
      | cons y suf => exact .inl (by rw [hts]; simp)

theorem searchStart_spec (h : IndexInv D s g) (searchTime : Timestamp) :
    wlp (onTq (searchStart searchTime)) (fun r s' => s' = s ∧
      ∀ x, r = some x → x ∈ g.ts ∨ x = TQ_NIL) s := by
  have hfind : ∀ mt, wlp (find searchTime mt) (fun r t => t = ⟨s.tq, s.fb⟩ ∧
      ∀ x, r = some x → x ∈ g.ts ∨ x = TQ_NIL) ⟨s.tq, s.fb⟩ := by
    intro mt
    refine (find_wlp h.time searchTime mt).mono ?_
    rintro r t ⟨ht, hr⟩
    refine ⟨ht, fun x hx => ?_⟩
    rcases hr with hr | ⟨-, hr⟩
    · exact .inl (mem_of_neighbour (hr.symm.trans hx))
    · exact .inr (Option.some.inj (hx.symm.trans hr))
  rw [onTq, wlp_zoom, searchStart, wlp_bind]
  refine (hfind _).mono ?_
  rintro r t ⟨ht, hr⟩
  subst ht
  cases r with
  | some x => exact wlp_pure.2 ⟨rfl, hr⟩
  | none =>
    rw [wlp_bind]
    refine (hfind _).mono ?_
    rintro r t ⟨ht, hr⟩
    subst ht
    cases r with
    | some x => exact wlp_pure.2 ⟨rfl, hr⟩
    | none =>
      refine (hfind _).mono ?_
      rintro r t ⟨ht, hr⟩
      exact ⟨by rw [ht], hr⟩

theorem findTimeEntryBySignature_spec (h : IndexInv D s g) (interval : Nat) (sig : Signature) :
    wlp (findTimeEntryBySignature callbacks interval sig) (fun res s' =>
      s' = { s with env := s'.env } ∧ s'.env.disk = s.env.disk ∧ ∀ x, res = .ok x → x ∈ g.ts) s := by
  rw [findTimeEntryBySignature, wlp_bind, wlp_read, wlp_bind]
  refine (sxFind_spec h sig).wlp.mono ?_
  rintro r s1 ⟨hs1, _⟩
  subst hs1
  cases r with
  | none => exact wlp_pure.2 ⟨rfl, rfl, fun _ h => by cases h⟩
  | some e =>
    simp only [wlp_bind]
    refine (rlFind_spec h _).wlp.mono ?_
    rintro rlix s1 ⟨hs1, _⟩
    subst hs1
    split
    case isTrue => exact wlp_pure.2 ⟨rfl, rfl, fun _ h => by cases h⟩
    case isFalse =>
      simp only [wlp_bind, onEnv, wlp_zoom, wlp_call]
      split
      case isTrue => exact wlp_pure.2 ⟨rfl, rfl, fun _ h => by cases h⟩
      case isFalse =>
        rw [wlp_bind]
        refine (searchStart_spec (h.control _ _ _) _).mono ?_
        rintro start s1 ⟨hs1, hstart⟩
        subst hs1
        cases start with
        | none => exact wlp_pure.2 ⟨rfl, rfl, fun _ h => by cases h⟩
        | some x =>
          refine (seekOffset_spec h _ _ x (hstart x rfl)).mono ?_
          rintro res s1 ⟨hs1, hres⟩
          subst hs1
          exact ⟨rfl, rfl, hres⟩

theorem unlinkFound (h : IndexInv D s g) {r : Nat} (hx : x ∈ g.ts) (hr : r ∈ allocs s.rl g.C)
    (hoff : (s.rl.rp r).offset = (s.tq.tqep x).offset) (hfiled : sig ∈ (catalog s g).sigs.map Prod.fst)
    (w : World) :
    wp (onSx (SignatureIndex.remove sig)) (fun _ => wp (onTq (delete x)) fun _ =>
      wp (onRl (free r)) fun _ s' => ∃ g', Dropped D { s with env := w } g x r sig s' g')
      { s with env := w } := by
  obtain ⟨pre, suf, hts⟩ := append_of_mem hx
  refine (remove_filed (h.control w s.isFull s.smallestExtentSeen) hfiled).mono ?_
  rintro _ s1 ⟨hs1, o, sc, sfl, h1, hsigs⟩
  refine (unlink_spec (s := { s with env := w }) hts hr hoff hs1 h1 hsigs).mono ?_
  intro _ s2 hfree
  refine hfree.mono ?_
  rintro _ s3 ⟨g', hd, -⟩
  exact ⟨g', hd⟩

theorem unlinkAt_spec (h : IndexInv D s g) {r : Nat} (hx : x ∈ g.ts) (hr : r ∈ allocs s.rl g.C)
    (hoff : (s.rl.rp r).offset = (s.tq.tqep x).offset) (hfiled : sig ∈ (catalog s g).sigs.map Prod.fst) :
    wp (onTq (delete x)) (fun _ => wp (onSx (SignatureIndex.remove sig)) fun _ =>
      wp (onRl (free r)) fun _ s' => ∃ g', Dropped D s g x r sig s' g') s := by
  obtain ⟨pre, suf, hts⟩ := append_of_mem hx
  refine (tqDelete_spec h hts).mono ?_
  rintro _ s1 ⟨hs1, own, h1, htimes⟩
  have hsx1 : s1.sx = s.sx := by rw [hs1]
  refine (remove_filed h1 (by simpa only [catalog, hsx1] using hfiled)).mono ?_
  rintro _ s2 ⟨hs2, o, sc, sfl, h2, hsigs⟩
  have hrl2 : s2.rl = s.rl := by rw [hs2, hs1]
  refine (rlFree_spec h2 (by rw [hrl2]; exact hr)).mono ?_
  rintro _ s3 ⟨hs3, own', xs, em, C, h3, hem, hregions, hbytes⟩
  refine ⟨_, h3, ?_, hem.length_le, by rw [hs3, hs2, hs1]⟩
  have htq3 : s3.tq = s1.tq := by rw [hs3, hs2]
  have hsx3 : s3.sx = s2.sx := by rw [hs3]
  refine ⟨⟨?_, ⟨o, ?_⟩, ?_⟩, pre.map (timeOf s.tq), suf.map (timeOf s.tq), ?_, ?_⟩
  · simpa [catalog, hrl2, regionOf] using hregions
  · simpa [catalog, hsx3, hsx1] using hsigs
  · simpa [catalog, hrl2] using hbytes
  · simp [catalog, hts, timeOf, hoff]
  · simpa [catalog, htq3] using htimes

def Lost (D : DataSection) (s : QueueIndexManager World) (g : Ghost) (s' : QueueIndexManager World) : Prop :=
  (s' = { s with env := s'.env } ∧ s'.env.disk = s.env.disk) ∨
    ∃ x ∈ g.ts, ∃ r sig g' w, w.disk = s.env.disk ∧ (s.rl.rp r).offset = (s.tq.tqep x).offset ∧
      (sig, (s.tq.tqep x).offset) ∈ (catalog s g).sigs ∧ Dropped D { s with env := w } g x r sig s' g'

/-- **Deleting by signature**, whatever made the entries. -/
theorem deleteBySignature_lost (h : IndexInv D q.ix g) (hd : Headed (catalog q.ix g) q.ix.env.disk) (interval : Nat)
    (sig : Signature) : wlp (deleteBySignature interval sig) (fun _ q' => ∃ s', Lost D q.ix g s' ∧
      q' = { q with ix := { s' with smallestExtentSeen := 2 ^ 64 - 1 } }) q := by
  rw [deleteBySignature, wlp_locked, wlp_bind]
  refine (findTimeEntryBySignature_spec h interval sig).mono ?_
  rintro res s1 ⟨hs1, hdisk1, hx⟩
  cases res with
  | error status => exact wlp_pure.2 ⟨s1, .inl ⟨hs1, hdisk1⟩, rfl⟩
  | ok x =>
    have hx := hx x rfl
    obtain ⟨w, rfl⟩ : ∃ w, s1 = { q.ix with env := w } := ⟨_, hs1⟩
    obtain ⟨sig', hfiled, hreg, hsig⟩ := hd (timeOf q.ix.tq x) (mem_map_of_mem hx)
    have h1 := h.control w q.ix.isFull q.ix.smallestExtentSeen
    rw [wlp_bind, wlp_read, wlp_bind]
    refine (find_region h1 hreg).wlp.mono ?_
    rintro r s2 ⟨rfl, -, hr, hroff, hregion⟩
    rw [wlp_bind]
    refine (decodeRegion_spec r _ _).wlp.mono ?_
    rintro res s3 ⟨rfl, ⟨-, rfl⟩ | ⟨-, ⟨-, rfl⟩ | ⟨info, pos, hdec, rfl⟩⟩⟩
    · exact wlp_pure.2 ⟨{ q.ix with env := w.getRegionNoWait.2 }, .inl ⟨rfl, hdisk1⟩, rfl⟩
    · exact wlp_pure.2 ⟨{ q.ix with env := w.getRegionNoWait.2 }, .inl ⟨rfl, hdisk1⟩, rfl⟩
    · have hroff : (q.ix.rl.rp r).offset = (q.ix.tq.tqep x).offset := hroff
      have hdec : decodeProdInfo q.ix.env.disk (q.ix.tq.tqep x).offset (q.ix.rl.rp r).getExtent = some (info, pos) := by
        rw [← hroff, ← hdisk1]
        exact hdec
      rw [wlp_bind, hsig _ _ _ hregion hdec]
      refine (unlinkFound h hx hr hroff (Multiset.mem_map_of_mem Prod.fst hfiled) w.getRegionNoWait.2).wlp.mono ?_
      intro _ s4 hrest
      rw [wlp_bind]
      refine hrest.wlp.mono ?_
      intro _ s5 hfree
      rw [wlp_bind]
      refine hfree.wlp.mono ?_
      rintro _ s6 ⟨g', hdrop⟩
      exact wlp_pure.2 ⟨s6, .inr ⟨x, hx, r, sig', g', w.getRegionNoWait.2, hdisk1, hroff, hfiled, hdrop⟩, rfl⟩

def DeletedAt (D : DataSection) (s : QueueIndexManager World) (g : Ghost) (contains : ProdInfo → Bool)
    (cursor : Timestamp) (x : Nat) (res : Stepped) (s' : QueueIndexManager World) : Prop :=
  ∃ r, (s.rl.rp r).offset = (s.tq.tqep x).offset ∧
    ((s.tq.tqep x).offset, (s.rl.rp r).getExtent) ∈ (catalog s g).regions ∧
    ((s.env.grants s.env.requests = false ∧ res = ⟨EACCES, cursor, none⟩ ∧
    s' = { s with env := s.env.getRegionNoWait.2 }) ∨
      s.env.grants s.env.requests = true ∧
      ((decodeProdInfo s.env.disk (s.tq.tqep x).offset (s.rl.rp r).getExtent = none ∧
          res = .mk EIO (s.tq.tqep x).tv none ∧ s' = { s with env := s.env.getRegionNoWait.2 }) ∨
        ∃ info pos, decodeProdInfo s.env.disk (s.tq.tqep x).offset (s.rl.rp r).getExtent = some (info, pos) ∧
          res = ⟨0, (s.tq.tqep x).tv, none⟩ ∧
          if contains info then (info.signature, (s.tq.tqep x).offset) ∈ (catalog s g).sigs ∧
            ∃ g', Dropped D { s with env := s.env.getRegionNoWait.2 } g x r info.signature s' g'
          else s' = { s with env := s.env.getRegionNoWait.2 }))

def QueueCursor.sequenceStart (mt : Match) (cursor : Timestamp) : Timestamp :=
  if cursor = Timestamp.NONE then (if mt = .lessThan then Timestamp.ENDT else Timestamp.ZERO) else cursor

/-- **One step of `sequenceDelete`**, whatever made the entries: the neighbour of the cursor, or the end. -/
theorem sequenceDelete_exact (h : IndexInv D q.ix g) (hd : Headed (catalog q.ix g) q.ix.env.disk) (mt : Match)
    (contains : ProdInfo → Bool) (cursor : Timestamp) :
    wlp (sequenceDelete mt contains cursor) (fun res q' => ∃ s',
      q' = { q with ix := { s' with smallestExtentSeen := 2 ^ 64 - 1 } } ∧
      ((res = ⟨PqStatus.end.toInt, sequenceStart mt cursor, none⟩ ∧ s' = q.ix ∧
          neighbour (catalog q.ix g).times (sequenceStart mt cursor) mt = none) ∨
        ∃ x ∈ g.ts, neighbour (catalog q.ix g).times (sequenceStart mt cursor) mt = some (timeOf q.ix.tq x) ∧
          DeletedAt D q.ix g contains (sequenceStart mt cursor) x res s')) q := by
  rw [sequenceDelete, wlp_locked, sequenceDeleteLocked, wlp_bind, wlp_read, wlp_bind]
  refine (tqFind_spec h _ mt).mono ?_
  rintro r s1 ⟨rfl, ⟨rfl, hnone⟩ | ⟨x, hx, rfl, hsome⟩ | ⟨-, rfl⟩⟩
  · exact wlp_pure.2 ⟨_, rfl, .inl ⟨rfl, rfl, hnone⟩⟩
  · obtain ⟨sig, hfiled, hreg, hsig⟩ := hd (timeOf q.ix.tq x) (mem_map_of_mem hx)
    simp only
    rw [wlp_bind]
    refine (find_region h hreg).wlp.mono ?_
    rintro rlix s2 ⟨rfl, hne, hr, hroff, hregion⟩
    rw [wlp_bind, wlp_assert]
    intro _
    rw [wlp_bind]
    refine (decodeRegion_spec rlix _ _).wlp.mono ?_
    rintro res s3 ⟨rfl, ⟨hg, rfl⟩ | ⟨hg, ⟨hdec, rfl⟩ | ⟨info, pos, hdec, rfl⟩⟩⟩
    · simp only [if_true]
      exact wlp_pure.2 ⟨_, rfl, .inr ⟨x, hx, hsome, rlix, hroff, hregion, .inl ⟨hg, rfl, rfl⟩⟩⟩
    · simp only [cset]
      rw [if_neg (by decide), wlp_bind, wlp_assert]
      intro _
      rw [hroff] at hdec
      exact wlp_pure.2 ⟨_, rfl, .inr ⟨x, hx, hsome, rlix, hroff, hregion, .inr ⟨hg, .inl ⟨hdec, rfl, rfl⟩⟩⟩⟩
    · simp only [cset]
      rw [wlp_bind, wlp_assert]
      intro _
      rw [hroff] at hdec
      have hsame := hsig _ _ _ hregion hdec
      split
      case isFalse hc =>
        refine wlp_pure.2
          ⟨_, rfl, .inr ⟨x, hx, hsome, rlix, hroff, hregion, .inr ⟨hg, .inr ⟨info, pos, hdec, rfl, ?_⟩⟩⟩⟩
        rw [if_neg hc]
      case isTrue hc =>
        have h3 := h.control q.ix.env.getRegionNoWait.2 q.ix.isFull q.ix.smallestExtentSeen
        have hfiled' : (info.signature, (q.ix.tq.tqep x).offset) ∈ (catalog q.ix g).sigs := hsame ▸ hfiled
        rw [wlp_bind]
        refine (unlinkAt_spec h3 hx hr hroff (Multiset.mem_map_of_mem Prod.fst hfiled')).wlp.mono ?_
        intro _ s4 hrest
        rw [wlp_bind]
        refine hrest.wlp.mono ?_
        intro _ s5 hfree
        rw [wlp_bind]
        refine hfree.wlp.mono ?_
        rintro _ s6 ⟨g', hdrop⟩
        refine wlp_pure.2
          ⟨s6, rfl, .inr ⟨x, hx, hsome, rlix, hroff, hregion, .inr ⟨hg, .inr ⟨info, pos, hdec, rfl, ?_⟩⟩⟩⟩
        rw [if_pos hc]
        exact ⟨hfiled', g', hdrop⟩
  · -- the tail of the queue is not a product
    simp only
    rw [wlp_bind]
    refine (find_nil h).wlp.mono ?_
    rintro rlix s2 ⟨-, hnone⟩
    rw [wlp_bind, wlp_assert]
    intro hne
    exact absurd hnone hne

theorem DeletedAt.lost {contains : ProdInfo → Bool} {cursor : Timestamp} {res : Stepped} (hx : x ∈ g.ts)
    (h : DeletedAt D s g contains cursor x res s') : Lost D s g s' ∧ res.delivery = none := by
  obtain ⟨r, hoff, -, ⟨-, rfl, rfl⟩ | ⟨-, ⟨-, rfl, rfl⟩ | ⟨info, pos, -, rfl, hrest⟩⟩⟩ := h
  · exact ⟨.inl ⟨rfl, rfl⟩, rfl⟩
  · exact ⟨.inl ⟨rfl, rfl⟩, rfl⟩
  · refine ⟨?_, rfl⟩
    split at hrest
    · obtain ⟨hfiled, g', hdrop⟩ := hrest
      exact .inr ⟨x, hx, r, info.signature, g', s.env.getRegionNoWait.2, rfl, hoff, hfiled, hdrop⟩
    · rw [hrest]
      exact .inl ⟨rfl, rfl⟩

theorem Kept.lost (h : Kept D s g st) (hl : Lost D s g s') : Thinned D s st s' := by
  rcases hl with ⟨hs', hdisk⟩ | ⟨x, hx, r, sig, g', w, hdisk, hoff, hfiled, hd⟩
  · exact h.unchanged hs' hdisk
  · obtain ⟨pg, hlive, hpoff⟩ := h.live_of hx
    have hpg := (h.books.pages pg (Store.mem_pages_of_live hlive)).filed
    rw [hpoff] at hpg
    have hsig : sig = pg.info.signature := h.books.signature_unique hfiled hpg
    exact h.dropped hlive hdisk rfl (hoff.trans hpoff.symm) (hsig ▸ hd)

/-- **Deleting by signature** takes away at most one live product. -/
theorem deleteBySignature_spec (h : Holds D q st) (interval : Nat) (sig : Signature) :
    wlp (deleteBySignature interval sig) (fun _ q' => Thinned D q.ix st q'.ix ∧ q'.reserved = q.reserved) q := by
  obtain ⟨⟨g, hk⟩, -⟩ := h
  refine (deleteBySignature_lost hk.inv hk.books.headed interval sig).mono ?_
  rintro status q' ⟨s', hlost, rfl⟩
  exact ⟨(hk.lost hlost).clear _, rfl⟩

/-- **Deleting at a cursor** takes away at most one live product. -/
theorem sequenceDelete_spec (h : Holds D q st) (mt : Match) (contains : ProdInfo → Bool) (cursor : Timestamp) :
    wlp (sequenceDelete mt contains cursor) (fun res q' => Thinned D q.ix st q'.ix ∧
      q'.reserved = q.reserved ∧ res.delivery = none) q := by
  obtain ⟨⟨g, hk⟩, -⟩ := h
  refine (sequenceDelete_exact hk.inv hk.books.headed mt contains cursor).mono ?_
  rintro res q' ⟨s', rfl, ⟨rfl, rfl, -⟩ | ⟨x, hx, -, hat⟩⟩
  · exact ⟨(hk.unchanged rfl rfl).clear _, rfl, rfl⟩
  · obtain ⟨hlost, hnone⟩ := hat.lost hx
    exact ⟨(hk.lost hlost).clear _, rfl, hnone⟩

/-! ## Reading -/

/-- What a callback gets is the live product `pg`: its metadata as stored, its payload, and nothing outside its
region. -/
structure Delivery.Of (d : Delivery) (s : QueueIndexManager World) (t : Timestamp) (pg : Page) : Prop where
  info : d.info = stored pg.info
  inserted : d.inserted = t
  offset : d.offset = pg.offset
  data : readBytes s.env.disk d.data d.info.sz.toNat = pg.data
  inside : ∃ ext, (pg.offset, ext) ∈ s.regions ∧ pg.offset ≤ d.data ∧ d.data + d.info.sz.toNat ≤ pg.offset + ext

theorem Kept.delivers (h : Kept D s g st) (hlive : (t, pg) ∈ st.live) {ext : Nat}
    (hreg : (pg.offset, ext) ∈ (catalog s g).regions) {size : Nat} {full early : Bool} :
    Delivery.Of ⟨stored pg.info, pg.offset + (header pg.info).length, size, t, pg.offset, full, early⟩ s t pg := by
  have hpg := Store.mem_pages_of_live hlive
  refine ⟨rfl, rfl, rfl, (h.books.pages pg hpg).data, ext, ?_, ?_, ?_⟩
  · exact h.inv.mem_regions.2 hreg
  · exact Int.le_add_of_nonneg_right (Int.natCast_nonneg _)
  · have hroom := h.books.room hpg hreg
    simp only [stored]
    omega

def ProductQueue.afterRead (q : ProductQueue) : ProductQueue :=
    { q with ix := { q.ix with smallestExtentSeen := 2 ^ 64 - 1 } }

theorem Holds.afterRead (h : Holds D q st) : Holds D q.afterRead st := by
  obtain ⟨⟨g, hk⟩, hd⟩ := h
  exact hk.unlocked hd _

def QueueCursor.startOf (reverse : Bool) (cursor : Timestamp) : Timestamp :=
  if cursor = Timestamp.NONE then (if reverse then Timestamp.ENDT else Timestamp.ZERO) else cursor

def QueueCursor.NextAt (s : QueueIndexManager World) (contains : ProdInfo → Bool) (mapped : Bool) (t : Timestamp)
    (pg : Page) (res : Stepped) : Prop :=
  res.cursor = t ∧ (mapped = false ∧ res.status = PqStatus.system.toInt ∧ res.delivery = none ∨
    mapped = true ∧ res.status = 0 ∧ if contains (stored pg.info) then ∃ d, res.delivery = some d ∧ d.Of s t pg
      else res.delivery = none)

def QueueCursor.peek (mt : Match) (cursor : Timestamp)
    (k : QueueIndexManager World → Nat → Nat → Prog (QueueIndexManager World) Stepped) :
    Prog (QueueIndexManager World) Stepped := do
  let s ← read
  match ← onTq (find cursor mt) with
  | none => return ⟨PqStatus.end.toInt, cursor, none⟩
  | some x =>
    cset (s.tq.tqep x).tv
    let r ← onRl (find (s.tq.tqep x).offset)
    k s x r

section Peek

variable {mt : Match} {cursor : Timestamp} {contains : ProdInfo → Bool} {mapped : Bool}
variable {k : QueueIndexManager World → Nat → Nat → Prog (QueueIndexManager World) Stepped}

theorem Kept.peek (h : Kept D s g st) {Q : Stepped → QueueIndexManager World → Prop}
    (hend : neighbour (catalog s g).times cursor mt = none → Q ⟨PqStatus.end.toInt, cursor, none⟩ s)
    (hat : ∀ {x pg r}, ((s.tq.tqep x).tv, pg) ∈ st.live → pg.offset = (s.tq.tqep x).offset →
      neighbour (catalog s g).times cursor mt = some ((s.tq.tqep x).tv, pg.offset) →
      (0 ≤ (s.tq.tqep x).tv.sec ∧ 0 ≤ (s.tq.tqep x).tv.usec) → r ≠ RL_NONE → (s.rl.rp r).offset = pg.offset →
      (pg.offset, (s.rl.rp r).getExtent) ∈ (catalog s g).regions → wlp (k s x r) Q s)
    (hnil : mt = .equal → wlp (k s TQ_NIL RL_NONE) Q s) : wlp (peek mt cursor k) Q s := by
  rw [QueueCursor.peek, wlp_bind, wlp_read, wlp_bind]
  refine (tqFind_spec h.inv _ _).mono ?_
  rintro r s1 ⟨rfl, ⟨rfl, hnone⟩ | ⟨x, hx, rfl, hsome⟩ | ⟨he, rfl⟩⟩
  · exact wlp_pure.2 (hend hnone)
  · obtain ⟨pg, hlive, hoff⟩ := h.live_of hx
    simp only [cset]
    rw [wlp_bind, wlp_assert]
    intro hset
    rw [wlp_bind, ← hoff]
    refine (h.find_live hlive).wlp.mono ?_
    rintro r s2 ⟨rfl, hne, -, hroff, hreg⟩
    exact hat hlive hoff (hoff ▸ hsome) hset hne hroff hreg
  · simp only [cset]
    rw [wlp_bind, wlp_assert]
    intro _
    rw [wlp_bind]
    refine (find_nil h.inv).wlp.mono ?_
    rintro r s2 ⟨rfl, rfl⟩
    exact hnil he

theorem peek_reads (h : IndexInv D s g) (hk : ∀ s x r, ∃ res, k s x r = pure res) :
    wlp (peek mt cursor k) (fun _ s' => s' = s) s := by
  rw [QueueCursor.peek, wlp_bind, wlp_read, wlp_bind]
  refine (tqFind_spec h _ _).mono ?_
  rintro r s1 ⟨rfl, -⟩
  cases r with
  | none => exact wlp_pure.2 rfl
  | some x =>
    simp only [cset]
    rw [wlp_bind, wlp_assert]
    intro _
    rw [wlp_bind]
    refine (rlFind_spec h _).wlp.mono ?_
    rintro r s2 ⟨rfl, -⟩
    obtain ⟨res, hres⟩ := hk s2 x r
    rw [hres, wlp_pure]

theorem peek_returns (h : IndexInv D s g) (hk : ∀ s x r, ∃ res, k s x r = pure res) (hmt : mt ≠ .equal)
    (hc : cursor ≤ Timestamp.ENDT)
    (hpos : ∀ p, neighbour s.times cursor mt = some p → 0 ≤ p.1.sec ∧ 0 ≤ p.1.usec) :
    wp (peek mt cursor k) (fun _ _ => True) s := by
  rw [h.times_eq] at hpos
  rw [QueueCursor.peek, wp_bind, wp_read, wp_bind]
  refine (tqFind_total h hc fun he => absurd he hmt).mono ?_
  rintro r s1 ⟨rfl, ⟨rfl, -⟩ | ⟨x, hx, rfl, hn⟩⟩
  · exact wp_pure.2 trivial
  · simp only [cset]
    rw [wp_bind, wp_assert]
    refine ⟨hpos _ hn, ?_⟩
    rw [wp_bind]
    refine (rlFind_spec h _).mono ?_
    intro r s2 _
    obtain ⟨res, hres⟩ := hk s1 x r
    rw [hres, wp_pure]
    trivial

theorem next_peek (reverse : Bool) : ∃ k, (∀ s x r, ∃ res, k s x r = pure res) ∧
    next D reverse contains mapped cursor =
      locked (peek (if reverse then .lessThan else .greaterThan) (startOf reverse cursor) k) := by
  refine ⟨fun s x r => _, fun s x r => ?_, rfl⟩
  beta_reduce
  repeat' split
  all_goals exact ⟨_, rfl⟩

theorem sequence_peek (callback : Delivery → Int) : ∃ k, (∀ s x r, ∃ res, k s x r = pure res) ∧
    sequence mt contains (some callback) mapped cursor =
      (do assert (cursor = Timestamp.NONE → mt ≠ .equal); locked (peek mt (sequenceStart mt cursor) k)) := by
  refine ⟨fun s x r => _, fun s x r => ?_, rfl⟩
  beta_reduce
  repeat' split
  all_goals exact ⟨_, rfl⟩

/-- **One step of a reader**: the neighbour of its cursor, or the end. -/
theorem next_spec (h : Holds D q st) (reverse : Bool) (contains : ProdInfo → Bool) (mapped : Bool)
    (cursor : Timestamp) : wlp (next D reverse contains mapped cursor) (fun res q' => q' = q.afterRead ∧
      ((neighbour q.ix.times (startOf reverse cursor) (if reverse then .lessThan else .greaterThan) = none ∧
          res = ⟨PqStatus.end.toInt, startOf reverse cursor, none⟩) ∨
        ∃ t pg, (t, pg) ∈ st.live ∧ NextAt q.ix contains mapped t pg res ∧
          neighbour q.ix.times (startOf reverse cursor) (if reverse then .lessThan else .greaterThan) =
            some (t, pg.offset))) q := by
  obtain ⟨⟨g, hk⟩, -⟩ := h
  rw [QueueCursor.next, wlp_locked, hk.inv.times_eq]
  refine hk.peek (fun hnone => ⟨rfl, .inl ⟨hnone, rfl⟩⟩) ?_ fun he => by cases reverse <;> cases he
  intro x pg rlix hlive hoff hfound _ hne hroff hreg
  have hsize : ¬ D.size < (q.ix.rl.rp rlix).getExtent := by
    have hin := hk.inv.region_mem hreg
    simp only [DataSection.size]
    omega
  rw [if_neg (by simp [hne, hroff, hoff, hsize])]
  split
  case isTrue hmap => exact wlp_pure.2 ⟨rfl, .inr ⟨_, pg, hlive, ⟨rfl, .inl ⟨hmap, rfl, rfl⟩⟩, hfound⟩⟩
  case isFalse hmap =>
    have hmap : mapped = true := by simpa using hmap
    rw [hroff, hk.books.decode_live hlive hreg]
    simp only
    split
    case isTrue hc =>
      refine wlp_pure.2 ⟨rfl, .inr ⟨_, pg, hlive, ⟨rfl, .inr ⟨hmap, rfl, ?_⟩⟩, hfound⟩⟩
      rw [if_pos hc]
      exact ⟨_, rfl, hk.delivers hlive hreg⟩
    case isFalse hc =>
      refine wlp_pure.2 ⟨rfl, .inr ⟨_, pg, hlive, ⟨rfl, .inr ⟨hmap, rfl, ?_⟩⟩, hfound⟩⟩
      rw [if_neg hc]

def QueueCursor.SequenceAt (q : ProductQueue) (mt : Match) (contains : ProdInfo → Bool) (callback : Delivery → Int)
    (mapped : Bool) (t : Timestamp) (pg : Page) (res : Stepped) : Prop :=
  if mapped = false then res = ⟨PqStatus.system.toInt, t, none⟩
  else if contains (stored pg.info) then ∃ d, d.Of q.ix t pg ∧
    res = ⟨callback d, if callback d ≠ 0 ∧ mt = .greaterThan then t.decrementMicrosecond else t, some d⟩
  else res = ⟨0, t, none⟩

/-- **One step of `sequence` with a callback**: the neighbour of the cursor, or the end, or the tail of the queue. -/
theorem sequence_exact (h : Holds D q st) (mt : Match) (contains : ProdInfo → Bool) (callback : Delivery → Int)
    (mapped : Bool) (cursor : Timestamp) :
    wlp (sequence mt contains (some callback) mapped cursor) (fun res q' => q' = q.afterRead ∧
      ((mt = .equal ∧ res.delivery = none) ∨
        (neighbour q.ix.times (sequenceStart mt cursor) mt = none ∧
          res = ⟨PqStatus.end.toInt, sequenceStart mt cursor, none⟩) ∨
        ∃ t pg, (t, pg) ∈ st.live ∧ neighbour q.ix.times (sequenceStart mt cursor) mt = some (t, pg.offset) ∧
          0 ≤ t.sec ∧ 0 ≤ t.usec ∧ SequenceAt q mt contains callback mapped t pg res)) q := by
  obtain ⟨⟨g, hk⟩, -⟩ := h
  rw [QueueCursor.sequence, wlp_bind, wlp_assert]
  intro _
  rw [wlp_locked, hk.inv.times_eq]
  refine hk.peek (fun hnone => ⟨rfl, .inr (.inl ⟨hnone, rfl⟩)⟩) ?_ fun he => wlp_pure.2 ⟨rfl, .inl ⟨he, rfl⟩⟩
  rintro x pg rlix hlive hoff hfound ⟨hsec, husec⟩ hne hroff hreg
  rw [if_neg hne]
  split
  case isTrue hmap =>
    refine wlp_pure.2 ⟨rfl, .inr (.inr ⟨_, pg, hlive, hfound, hsec, husec, ?_⟩)⟩
    rw [SequenceAt, if_pos hmap]
  case isFalse hmap =>
    rw [hroff, hk.books.decode_live hlive hreg]
    simp only
    split
    case isTrue hc =>
      refine wlp_pure.2 ⟨rfl, .inr (.inr ⟨_, pg, hlive, hfound, hsec, husec, ?_⟩)⟩
      rw [SequenceAt, if_neg hmap, if_pos hc]
      refine ⟨_, ?_, rfl⟩
      rw [← length_header]
      exact hk.delivers hlive hreg
    case isFalse hc =>
      refine wlp_pure.2 ⟨rfl, .inr (.inr ⟨_, pg, hlive, hfound, hsec, husec, ?_⟩)⟩
      rw [SequenceAt, if_neg hmap, if_neg hc]

theorem QueueCursor.SequenceAt.delivered {callback : Delivery → Int} {res : Stepped}
    (h : SequenceAt q mt contains callback mapped t pg res) {d : Delivery} (hd : res.delivery = some d) :
    contains (stored pg.info) = true ∧ d.Of q.ix t pg ∧ res.status = callback d ∧
      res.cursor = if callback d ≠ 0 ∧ mt = .greaterThan then t.decrementMicrosecond else t := by
  unfold SequenceAt at h
  split at h
  · rw [h] at hd
    cases hd
  split at h
  case isTrue hc =>
    obtain ⟨d', hof, rfl⟩ := h
    cases hd
    exact ⟨hc, hof, rfl, rfl⟩
  case isFalse =>
    rw [h] at hd
    cases hd

theorem sequence_unmatched (h : IndexInv D q.ix g) :
    wlp (sequence mt contains none mapped cursor) (fun res q' => q' = q.afterRead ∧ res.delivery = none) q := by
  rw [QueueCursor.sequence, wlp_bind, wlp_assert]
  intro _
  rw [wlp_locked, sequenceLocked, wlp_bind, wlp_read, wlp_bind]
  refine (tqFind_spec h _ _).mono ?_
  rintro r s1 ⟨rfl, -⟩
  cases r with
  | none => exact wlp_pure.2 ⟨rfl, rfl⟩
  | some x =>
    simp only [cset]
    rw [wlp_bind, wlp_assert]
    exact fun _ => wlp_pure.2 ⟨rfl, rfl⟩

/-- **One step of `sequence`** delivers a live product or nothing. -/
theorem sequence_spec (h : Holds D q st) (mt : Match) (contains : ProdInfo → Bool) (ifMatch : Option (Delivery → Int))
    (mapped : Bool) (cursor : Timestamp) :
    wlp (sequence mt contains ifMatch mapped cursor) (fun res q' => q' = q.afterRead ∧
      ∀ d, res.delivery = some d → ∃ t pg, (t, pg) ∈ st.live ∧ d.Of q.ix t pg) q := by
  have hnot : ∀ {res : Stepped} {d : Delivery} {P : Prop}, res.delivery = none → res.delivery = some d → P :=
    fun hnone hd => by cases hnone.symm.trans hd
  cases ifMatch with
  | none =>
    obtain ⟨⟨g, hk⟩, -⟩ := h
    exact (sequence_unmatched hk.inv).mono fun _ _ hr => ⟨hr.1, fun _ => hnot hr.2⟩
  | some callback =>
    refine (sequence_exact h mt contains callback mapped cursor).mono ?_
    rintro res q' ⟨rfl, ⟨-, hnone⟩ | ⟨-, rfl⟩ | ⟨t, pg, hlive, -, -, -, hat⟩⟩
    · exact ⟨rfl, fun _ => hnot hnone⟩
    · exact ⟨rfl, fun _ => hnot rfl⟩
    · exact ⟨rfl, fun d hd => ⟨t, pg, hlive, (hat.delivered hd).2.1⟩⟩

end Peek

end Rdm
