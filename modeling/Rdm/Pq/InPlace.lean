import Rdm.Pq.Consistency
import Rdm.Pq.Mapping

/-!
# The queue with regions and the queue in place

Whatever the mapping strategy, the queue with regions goes along with the queue that works on the file in place
(`Mirrors`).
-/

namespace Rdm

open ProgLogic ProgLogic.Prog Xdr SunRpcSerializer QueueIndexManager ProductQueue QueueCursor List
open MappedQueue (controlLock deleteBySignature locked released rollbackEntry sequenceDelete write)

variable {α : Type} {D : DataSection} {mapper : RegionMapper} {disk : Memory} {offset b : Int} {extent : Nat}
variable {rflags : RegionFlags} {d d' : Memory} {active : List Int}
variable {s s' t t' : QueueIndexManager World} {held held' : List (Reservation × MappedRegion)} {r : Reservation}
variable {region : MappedRegion} {m : Prog (QueueIndexManager World) α}
variable {g : Ghost} {st : Store} {q q' : ProductQueue} {x x' : MappedQueue} {off : Int} {ext : Nat} {info : ProdInfo}
variable {i : Nat} {sig : Signature}

/-! ## Regions -/

theorem copyRange_in {src dst : Memory} (h : offset ≤ b) (h' : b < offset + extent) :
    copyRange src dst offset extent b = src b :=
  if_pos ⟨h, h'⟩

theorem copyRange_out {src dst : Memory} (h : ¬ (offset ≤ b ∧ b < offset + extent)) :
    copyRange src dst offset extent b = dst b :=
  if_neg h

theorem RegionMapper.get_getRegion : (mapper.getRegion disk offset extent rflags).get = offset := by
  cases mapper with
  | flatMmap => exact Int.zero_add offset
  | chunkedMmap pagesz => exact Int.sub_add_cancel offset _
  | file => rfl

theorem RegionMapper.memory_getRegion (h : offset ≤ b) (h' : b < offset + extent) :
    (mapper.getRegion disk offset extent rflags).memory disk b = disk b := by
  cases mapper with
  | flatMmap => rfl
  | chunkedMmap pagesz => rfl
  | file =>
    show copyRange disk (fun _ => 0) offset extent b = disk b
    exact copyRange_in h h'

theorem RegionMapper.commit_getRegion : (mapper.getRegion disk offset extent rflags).commit disk = disk := by
  cases mapper with
  | flatMmap => rfl
  | chunkedMmap pagesz => rfl
  | file =>
    show (if rflags.write then copyRange (copyRange disk (fun _ => 0) offset extent) disk offset extent else
      disk) = disk
    split
    case isFalse => rfl
    case isTrue =>
      funext b
      by_cases hb : offset ≤ b ∧ b < offset + extent
      · rw [copyRange_in hb.1 hb.2, copyRange_in hb.1 hb.2]
      · rw [copyRange_out hb]

theorem RegionMapper.decode_getRegion : decodeProdInfo ((mapper.getRegion disk offset extent rflags).memory disk)
    (mapper.getRegion disk offset extent rflags).get extent = decodeProdInfo disk offset extent := by
  rw [get_getRegion]
  exact decodeProdInfo_congr fun a h h' => memory_getRegion h h'

/-! ## Two worlds -/

def World.Alike (d d' : Memory) (w w' : World) : Prop := w.disk = d ∧ w' = { w with disk := d' }

theorem trackMvrt_setDisk (creationTime receptionTime : Timestamp) (rl : RegionList) (w : World) :
    QueueMetrics.trackMvrt creationTime receptionTime rl { w with disk := d' } =
      { QueueMetrics.trackMvrt creationTime receptionTime rl w with disk := d' } := by
  simp only [QueueMetrics.trackMvrt, World.now]
  split_ifs <;> rfl

theorem trackMvrt_disk (creationTime receptionTime : Timestamp) (rl : RegionList) (w : World) :
    (QueueMetrics.trackMvrt creationTime receptionTime rl w).disk = w.disk := by
  simp only [QueueMetrics.trackMvrt, World.now]
  split_ifs <;> rfl

/-- **Decoding in two worlds**: a region that is not active and has the same bytes in both is decoded alike. -/
theorem decodeAlike_of_agree (hact : offset ∉ active) (hagree : ∀ b, offset ≤ b → b < offset + extent → d' b = d b) :
    DecodeAlike (World.Alike d d') callbacks (mapper.callbacks active) offset extent := by
  rintro w _ ⟨rfl, rfl⟩
  simp only [callbacks, RegionMapper.callbacks, decodeFunc, RegionMapper.decodeFunc,
    World.getRegionNoWait, if_neg hact]
  rcases Bool.eq_false_or_eq_true (w.grants w.requests) with hg | hg
  · simp only [hg, Bool.true_eq_false, if_false, RegionMapper.decode_getRegion, RegionMapper.commit_getRegion,
      decodeProdInfo_congr hagree]
    exact ⟨by trivial, rfl, rfl⟩
  · simp only [hg, if_true, true_and]
    exact ⟨rfl, rfl⟩

/-! ## The queue in place and the queue with regions -/

def MappedRegion.Buffers (region : MappedRegion) (b : Int) : Prop :=
  match region.ptr with
  | .shared _ _ => False
  | .buffer _ => region.offset ≤ b ∧ b < region.offset + region.extent

/-- The region is that of an entry in progress, for which the file in place is `disk` and the file with the regions
`disk'`. -/
structure MappedRegion.Of (region : MappedRegion) (r : Reservation) (disk disk' : Memory) : Prop where
  offset : region.offset = r.offset
  extent : region.extent = r.extent
  write : region.rflags.write = true
  get : region.get = r.offset
  memory : ∀ b, r.offset ≤ b → b < r.offset + r.extent → region.memory disk' b = disk b

/-- **The index with regions mirrors the index in place.** -/
structure Mirrors (s t : QueueIndexManager World) (held : List (Reservation × MappedRegion)) : Prop where
  same : t = s.inWorld { s.env with disk := t.env.disk }
  mapped : ∀ e ∈ held, e.2.Of e.1 s.env.disk t.env.disk
  disk : ∀ b, (∀ e ∈ held, ¬ e.2.Buffers b) → t.env.disk b = s.env.disk b

def Reservation.Apart (r r' : Reservation) : Prop := r.offset + r.extent ≤ r'.offset ∨ r'.offset + r'.extent ≤ r.offset

theorem MappedRegion.Of.buffers (h : region.Of r d d') (hb : region.Buffers b) : r.offset ≤ b ∧
    b < r.offset + r.extent := by
  unfold MappedRegion.Buffers at hb
  split at hb
  case h_1 => exact hb.elim
  case h_2 => rwa [h.offset, h.extent] at hb

theorem MappedRegion.Of.decode (h : region.Of r d d') :
    decodeProdInfo (region.memory d') region.get region.extent = decodeProdInfo d r.offset r.extent := by
  rw [h.get, h.extent]
  exact decodeProdInfo_congr h.memory

theorem Mirrors.alike (h : Mirrors s t held) : World.Alike s.env.disk t.env.disk s.env t.env := by
  refine ⟨rfl, ?_⟩
  have henv := congrArg env h.same
  exact henv

theorem Mirrors.congr (h : Mirrors s t held) (he : ∀ e, e ∈ held' ↔ e ∈ held) : Mirrors s t held' :=
  ⟨h.same, fun e hm => h.mapped e ((he e).1 hm), fun b hb => h.disk b fun e hm => hb e ((he e).2 hm)⟩

theorem Mirrors.twin {a a' : α} (h : Mirrors s t held) (ht : Twin (World.Alike s.env.disk t.env.disk) a s' a' t') :
    a = a' ∧ Mirrors s' t' held := by
  obtain ⟨rfl, w, ⟨hd, rfl⟩, rfl⟩ := ht
  refine ⟨rfl, rfl, ?_, ?_⟩
  · rw [hd]
    exact h.mapped
  · rw [hd]
    exact h.disk

theorem Mirrors.eq (h : Mirrors s t held) : t = s.inWorld t.env := by
  rw [h.alike.2]
  exact h.same

theorem Mirrors.lockstep {m' : Prog (QueueIndexManager World) α} (h : Mirrors s t held)
    (htwin : Lockstep (Twin (World.Alike s.env.disk t.env.disk)) m m' s (s.inWorld t.env)) :
    Lockstep (fun a s' b t' => a = b ∧ Mirrors s' t' held) m m' s t := by
  rw [← h.eq] at htwin
  exact htwin.mono fun _ _ _ _ ht => h.twin ht

theorem Mirrors.agree (h : Mirrors s t held) (hout : ∀ e ∈ held, ¬ (e.1.offset ≤ b ∧ b < e.1.offset + e.1.extent)) :
    t.env.disk b = s.env.disk b :=
  h.disk b fun e he hb => hout e he ((h.mapped e he).buffers hb)

theorem MappedRegion.memory_congr {d1 d2 : Memory} (h : d1 b = d2 b) : region.memory d1 b = region.memory d2 b := by
  obtain ⟨off, ext, fl, ptr⟩ := region
  cases ptr with
  | shared start rem => exact h
  | buffer bytes => rfl

theorem MappedRegion.Of.commit_in (h : region.Of r d d') (h1 : r.offset ≤ b) (h2 : b < r.offset + r.extent) :
    region.commit d' b = d b := by
  rw [← h.memory b h1 h2]
  obtain ⟨off, ext, fl, ptr⟩ := region
  cases ptr with
  | shared start rem => rfl
  | buffer bytes =>
    obtain ⟨rfl, rfl, hw, -, -⟩ := h
    show (if fl.write then copyRange bytes d' r.offset r.extent else d') b = bytes b
    rw [if_pos hw]
    exact copyRange_in h1 h2

theorem MappedRegion.Of.commit_out (h : region.Of r d d') (hb : ¬ (r.offset ≤ b ∧ b < r.offset + r.extent)) :
    region.commit d' b = d' b := by
  obtain ⟨off, ext, fl, ptr⟩ := region
  cases ptr with
  | shared start rem => rfl
  | buffer bytes =>
    obtain ⟨rfl, rfl, hw, -, -⟩ := h
    show (if fl.write then copyRange bytes d' r.offset r.extent else d') b = d' b
    rw [if_pos hw]
    exact copyRange_out hb

theorem Reservation.Apart.not_in {r' : Reservation} (h : r.Apart r') (h1 : r'.offset ≤ b)
    (h2 : b < r'.offset + r'.extent) : ¬ (r.offset ≤ b ∧ b < r.offset + r.extent) := by
  rcases h with h | h <;> omega

theorem Mirrors.release (h : Mirrors s t ((r, region) :: held)) (hapart : ∀ e ∈ held, r.Apart e.1) :
    Mirrors s (setDisk (region.commit t.env.disk) t) held := by
  have hof : region.Of r s.env.disk t.env.disk := h.mapped _ mem_cons_self
  have hsame : setDisk (region.commit t.env.disk) t =
      s.inWorld { s.env with disk := region.commit t.env.disk } := by
    rw [h.same]
    rfl
  refine ⟨hsame, fun e he => ?_, fun b hb => ?_⟩
  · have hof' := h.mapped e (mem_cons_of_mem _ he)
    refine ⟨hof'.offset, hof'.extent, hof'.write, hof'.get, fun b h1 h2 => ?_⟩
    rw [← hof'.memory b h1 h2]
    exact MappedRegion.memory_congr (hof.commit_out ((hapart e he).not_in h1 h2))
  · show region.commit t.env.disk b = s.env.disk b
    by_cases hr : r.offset ≤ b ∧ b < r.offset + r.extent
    · exact hof.commit_in hr.1 hr.2
    · rw [hof.commit_out hr]
      refine h.disk b fun e he => ?_
      rcases mem_cons.1 he with rfl | he
      · exact fun hbuf => hr (hof.buffers hbuf)
      · exact hb e he

theorem Mirrors.fetch (h : Mirrors s t held) (hapart : ∀ e ∈ held, r.Apart e.1) (hw : rflags.write = true) :
    Mirrors s t ((r, mapper.getRegion t.env.disk r.offset r.extent rflags) :: held) := by
  have hnew : (mapper.getRegion t.env.disk r.offset r.extent rflags).Of r s.env.disk t.env.disk := by
    refine ⟨rfl, rfl, hw, RegionMapper.get_getRegion, fun b h1 h2 => ?_⟩
    rw [RegionMapper.memory_getRegion h1 h2]
    exact h.agree fun e he hb => (hapart e he).not_in hb.1 hb.2 ⟨h1, h2⟩
  refine ⟨h.same, fun e he => ?_, fun b hb => h.disk b fun e he => hb e (mem_cons_of_mem _ he)⟩
  rcases mem_cons.1 he with rfl | he
  · exact hnew
  · exact h.mapped e he

theorem Mirrors.store (h : Mirrors s t ((r, region) :: held)) (hapart : ∀ e ∈ held, r.Apart e.1) {pos : Int}
    {bs : List UInt8} (hlow : r.offset ≤ pos) (hhigh : pos + bs.length ≤ r.offset + r.extent) :
    Mirrors (setDisk (writeBytes s.env.disk pos bs) s)
      (setDisk (region.store (writeBytes (region.memory t.env.disk) pos bs) t.env.disk).2 t)
      ((r, (region.store (writeBytes (region.memory t.env.disk) pos bs) t.env.disk).1) :: held) := by
  have hof : region.Of r s.env.disk t.env.disk := h.mapped _ mem_cons_self
  have hwrite : ∀ (m m' : Memory) b, m b = m' b → writeBytes m pos bs b = writeBytes m' pos bs b := by
    intro m m' b hb
    unfold writeBytes
    split
    · rfl
    · exact hb
  have houtside : ∀ e ∈ held, ∀ b, e.1.offset ≤ b → b < e.1.offset + e.1.extent → ∀ m, writeBytes m pos bs b = m b := by
    intro e he b h1 h2 m
    exact writeBytes_out (by rcases hapart e he with ha | ha <;> omega)
  obtain ⟨off, ext, fl, ptr⟩ := region
  cases ptr with
  | shared start rem =>
    refine ⟨by rw [h.same]; rfl, fun e he => ?_, fun b hb => ?_⟩
    · rcases mem_cons.1 he with rfl | he
      · exact ⟨hof.offset, hof.extent, hof.write, hof.get, fun b h1 h2 => hwrite _ _ b (hof.memory b h1 h2)⟩
      · have hof' := h.mapped e (mem_cons_of_mem _ he)
        refine ⟨hof'.offset, hof'.extent, hof'.write, hof'.get, fun b h1 h2 => ?_⟩
        have hmem := hof'.memory b h1 h2
        show e.2.memory (writeBytes t.env.disk pos bs) b = writeBytes s.env.disk pos bs b
        rw [houtside e he b h1 h2, ← hmem]
        exact MappedRegion.memory_congr (houtside e he b h1 h2 _)
    · refine hwrite _ _ b (h.disk b fun e he => ?_)
      rcases mem_cons.1 he with rfl | he
      · exact hb _ mem_cons_self
      · exact hb e (mem_cons_of_mem _ he)
  | buffer bytes =>
    refine ⟨h.same, fun e he => ?_, fun b hb => ?_⟩
    · rcases mem_cons.1 he with rfl | he
      · exact ⟨hof.offset, hof.extent, hof.write, hof.get, fun b h1 h2 => hwrite _ _ b (hof.memory b h1 h2)⟩
      · have hof' := h.mapped e (mem_cons_of_mem _ he)
        refine ⟨hof'.offset, hof'.extent, hof'.write, hof'.get, fun b h1 h2 => ?_⟩
        exact (hof'.memory b h1 h2).trans (houtside e he b h1 h2 _).symm
    · have hnot : ¬ (off ≤ b ∧ b < off + ext) := hb _ mem_cons_self
      have hoff : off = r.offset := hof.offset
      have hext : ext = r.extent := hof.extent
      have hstay : writeBytes s.env.disk pos bs b = s.env.disk b := writeBytes_out (by omega)
      show t.env.disk b = writeBytes s.env.disk pos bs b
      rw [hstay]
      refine h.disk b fun e he => ?_
      rcases mem_cons.1 he with rfl | he
      · exact hnot
      · exact hb e (mem_cons_of_mem _ he)

/-! ## The entries in progress -/

def offsets (held : List (Reservation × MappedRegion)) : List Int := held.map fun e => e.1.offset

theorem Kept.drafts_apart (hk : Kept D s g st) : (st.drafts.map Prod.fst).Pairwise Reservation.Apart := by
  have huses := hk.books.uses
  rw [Store.pages, map_append, map_map, map_map] at huses
  have hnd : (st.drafts.map fun d => d.1.offset).Nodup := (nodup_append.1 huses).2.1
  rw [pairwise_map]
  refine (pairwise_map.1 hnd).imp_of_mem ?_
  intro d d' hd hd' hne
  exact hk.books.apart _ (hk.books.drafts d hd).1 _ (hk.books.drafts d' hd').1 hne

theorem draft_of_held {e : Reservation × MappedRegion} (hheld : held.map Prod.fst = st.drafts.map Prod.fst)
    (he : e ∈ held) : ∃ dr ∈ st.drafts, dr.1 = e.1 :=
  mem_map.1 (hheld ▸ mem_map_of_mem he)

theorem Mirrors.region_agrees (h : Mirrors s t held) (hk : Kept D s g st)
    (hheld : held.map Prod.fst = st.drafts.map Prod.fst)
    (hreg : (off, ext) ∈ (catalog s g).regions) (hact : off ∉ offsets held) :
    ∀ b, off ≤ b → b < off + ext → t.env.disk b = s.env.disk b := by
  intro b h1 h2
  refine h.agree fun e he hb => ?_
  obtain ⟨dr, hd, hde⟩ := draft_of_held hheld he
  have hdr := (hk.books.drafts dr hd).1
  rw [hde] at hdr
  have hne : e.1.offset ≠ off := fun heq => hact (heq ▸ mem_map_of_mem (f := fun e => e.1.offset) he)
  rcases hk.books.apart _ hdr _ hreg hne with ha | ha
  all_goals
    simp only at ha
    omega

theorem Kept.timed_not_held (hk : Kept D s g st) (hheld : held.map Prod.fst = st.drafts.map Prod.fst) {u : Timestamp}
    (htime : (u, off) ∈ (catalog s g).times) : off ∉ offsets held := by
  intro hm
  obtain ⟨e, he, rfl⟩ := mem_map.1 hm
  obtain ⟨dr, hd, hde⟩ := draft_of_held hheld he
  refine hk.books.draft_untimed hd ?_
  rw [hde]
  exact mem_map_of_mem htime

/-- **The callbacks go along** with those of the queue in place. -/
theorem Mirrors.follow (h : Mirrors s t held) (hk : Kept D s g st)
    (hheld : held.map Prod.fst = st.drafts.map Prod.fst) :
    Follow (World.Alike s.env.disk t.env.disk) callbacks (mapper.callbacks (offsets held)) (catalog s g) where
  decode u off ext htime hreg := by
    have hact := hk.timed_not_held hheld htime
    exact decodeAlike_of_agree hact (h.region_agrees hk hheld hreg hact)
  mvrt u info rl w w' hw := by
    obtain ⟨hd, rfl⟩ := hw
    exact ⟨(trackMvrt_disk _ _ _ _).trans hd, trackMvrt_setDisk _ _ _ _⟩

/-! ## The control lock -/

theorem Mirrors.modify (h : Mirrors s t held) {f : QueueIndexManager World → QueueIndexManager World}
    (hf : ∀ s disk, f (setDisk disk s) = setDisk disk (f s)) : Mirrors (f s) (f t) held := by
  have hset : t = setDisk t.env.disk s := h.same
  have hfs : (f s).env.disk = s.env.disk := by
    have hs := hf s s.env.disk
    exact congrArg (fun s => s.env.disk) hs
  have hft : f t = setDisk t.env.disk (f s) := by
    rw [← hf s t.env.disk, ← hset]
  have hdisk : (f t).env.disk = t.env.disk := congrArg (fun s => s.env.disk) hft
  constructor
  all_goals rw [hdisk]
  · exact hft
  all_goals rw [hfs]
  · exact h.mapped
  · exact h.disk

theorem Mirrors.clear (h : Mirrors s t held) :
    Mirrors { s with smallestExtentSeen := 2 ^ 64 - 1 } { t with smallestExtentSeen := 2 ^ 64 - 1 } held :=
  h.modify (f := fun s => { s with smallestExtentSeen := 2 ^ 64 - 1 }) fun _ _ => rfl

theorem controlLock_returned (hw : rflags.write = true) (m : Prog MappedQueue α) (x : MappedQueue) :
    (controlLock mapper rflags m x).returned = (m x).returned := by
  rw [controlLock, returned_zoom_eq]
  have hput : ∀ p : α × MappedQueue, (p.1, released mapper rflags p.2 x) = p := by
    intro p
    cases mapper with
    | flatMmap => rfl
    | chunkedMmap pagesz => rfl
    | file => rw [released, if_pos hw]
  show (m x).returned.map _ = (m x).returned
  simp only [hput, Option.map_id']

theorem controlLock_lockstep {σ β : Type} {R : β → σ → α → MappedQueue → Prop} {m : Prog σ β}
    {m' : Prog MappedQueue α} {u : σ}
    (hw : rflags.write = true) (h : Lockstep R m m' u x) : Lockstep R m (controlLock mapper rflags m') u x := by
  rw [Lockstep, controlLock_returned hw]
  exact h

/-- **A step under the control lock**, with a strategy and in place. -/
theorem locked_lockstep {β : Type} {m' : Prog (QueueIndexManager World) β}
    {R : α → QueueIndexManager World → β → QueueIndexManager World → Prop} (hw : rflags.write = true)
    (h : Lockstep R m m' q.ix x.ix)
    (hclear : ∀ a s b t, R a s b t →
      R a { s with smallestExtentSeen := 2 ^ 64 - 1 } b { t with smallestExtentSeen := 2 ^ 64 - 1 }) :
    Lockstep (fun a q' b x' => R a q'.ix b x'.ix ∧ q'.reserved = q.reserved ∧ x'.entries = x.entries ∧ x'.head = x.head)
      (locked m) (locked mapper rflags m') q x := by
  refine controlLock_lockstep hw (.zoom (h.bind ?_))
  intro a s b t hR
  exact Lockstep.bind (R := fun _ s _ t => R a s b t) (.modify (hclear a s b t hR)) fun _ s _ t hR =>
    .pure ⟨hR, rfl, rfl, rfl⟩

/-! ## Reserving -/

/-- What reserving leaves in step: the same status, or the same entry with a region of its own. -/
inductive ReservedAlike (held : List (Reservation × MappedRegion)) : Except Int Reservation → QueueIndexManager World →
    Except Int (Reservation × MappedRegion) → QueueIndexManager World → Prop
  | error {status : Int} {s t : QueueIndexManager World} : Mirrors s t held →
    ReservedAlike held (.error status) s (.error status) t
  | ok {r : Reservation} {region : MappedRegion} {s t : QueueIndexManager World} : Mirrors s t ((r, region) :: held) →
      ReservedAlike held (.ok r) s (.ok (r, region)) t

theorem Kept.new_apart (hk : Kept D s g st) (hheld : held.map Prod.fst = st.drafts.map Prod.fst)
    (hreg : (r.offset, r.extent) ∈ (catalog s g).regions) (hno : ∀ pg ∈ st.pages, pg.offset ≠ r.offset) :
    ∀ e ∈ held, r.Apart e.1 := by
  intro e he
  obtain ⟨dr, hd, hde⟩ := draft_of_held hheld he
  have hpage : dr.1.offset ≠ r.offset := hno _ (mem_append_right _ (mem_map_of_mem hd))
  have hdr := (hk.books.drafts dr hd).1
  rw [hde] at hdr hpage
  exact hk.books.apart _ hreg _ hdr hpage.symm

theorem reserve_lockstep (h : Mirrors s t held) (hk : Kept D s g st)
    (hheld : held.map Prod.fst = st.drafts.map Prod.fst)
    (hfit : getEncodedSize info + D.align ≤ 2 ^ 64) (mapped : Bool) :
    Lockstep (ReservedAlike held) (reserve D info mapped)
      (MappedQueue.reserve mapper (offsets held) D info mapped) s t := by
  have hpos := getEncodedSize_pos info
  have hfollow : Follow _ callbacks (mapper.callbacks (offsets held)) _ := h.follow hk hheld
  refine ((h.lockstep (allocateProductSpace_twin hk.inv hfollow h.alike hpos hfit info.signature)).knowing
    (allocateProductSpace_spec hk.inv hk.paired hpos hfit _).wlp).bind ?_
  rintro res s1 _ t1 ⟨⟨g1, h1, hres⟩, rfl, hs1⟩
  rcases hres with ⟨status, rfl, -⟩ | ⟨off, ext, a, rfl, hle, hsig, hev, hcat⟩
  · exact .pure (.error hs1)
  obtain ⟨hkept, -, hno, -⟩ := hk.entered hev h1 hsig hcat
  have hregions : (catalog s1 g1).regions = (off, ext) ::ₘ a.regions := congrArg Catalog.regions hcat
  have hreg : (off, ext) ∈ (catalog s1 g1).regions := hregions ▸ Multiset.mem_cons_self _ _
  refine Lockstep.bind (R := fun _ s' _ t' => s' = QueueMetrics.trackAllocation D.datao off ext s1 ∧ Mirrors s' t' held)
    (.modify ⟨rfl, hs1.modify fun _ _ => rfl⟩) ?_
  rintro _ s2 _ t2 ⟨rfl, hs2⟩
  refine .ite Iff.rfl (fun _ => .pure (.error hs2)) fun _ => .read ?_
  obtain ⟨data, bs, hlen, hwrites⟩ := encodeProdInfo_writes off (getEncodedSize info) info
  -- the bytes of the header go to the region, wherever it is
  let entry (payload : Int) : Reservation := ⟨off, info.signature, ext, payload, info⟩
  have hapart : ∀ payload, ∀ e ∈ held, (entry payload).Apart e.1 := fun payload => hkept.new_apart hheld hreg hno
  have hfetch : ∀ payload, Mirrors _ t2 ((entry payload, mapper.getRegion t2.env.disk off ext write) :: held) :=
    fun payload => hs2.fetch (hapart payload) rfl
  dsimp only
  rw [RegionMapper.get_getRegion, hwrites, hwrites]
  generalize mapper.getRegion t2.env.disk off ext write = region0 at hfetch ⊢
  have hend : off + (bs.length : Int) ≤ off + ext := by omega
  have hstored := fun payload => (hfetch payload).store (hapart payload) (Int.le_refl off) hend
  generalize region0.store (writeBytes (region0.memory t2.env.disk) off bs) t2.env.disk = p at hstored ⊢
  obtain ⟨region, disk⟩ := p
  cases data with
  | none =>
    exact Lockstep.bind (R := fun _ s' _ t' => Mirrors s' t' held)
      (.modify ((hstored 0).release (hapart 0))) fun _ _ _ _ hs =>
      .pure (.error hs)
  | some payload =>
    exact Lockstep.bind (R := fun _ s' _ t' => Mirrors s' t' ((entry payload, region) :: held))
      (.modify (hstored payload)) fun _ _ _ _ hs => .pure (.ok hs)

/-! ## The operations on entries -/

/-- **The queue with regions goes along with the queue in place.** -/
structure InStep (q : ProductQueue) (x : MappedQueue) : Prop where
  mirrors : Mirrors q.ix x.ix x.entries
  entries : x.entries.map Prod.fst = q.reserved

def Beside (head : FileHead) (a : α) (q : ProductQueue) (b : α) (x : MappedQueue) : Prop :=
    a = b ∧ InStep q x ∧ x.head = head

theorem Reservation.Apart.symm {r' : Reservation} (h : r.Apart r') : r'.Apart r := Or.symm h

theorem InStep.get (h : InStep q x) (i : Nat) : q.reserved[i]? = x.entries[i]?.map Prod.fst := by
  rw [← h.entries, List.getElem?_map]

theorem InStep.erase (h : InStep q x) (i : Nat) : (x.entries.eraseIdx i).map Prod.fst = q.reserved.eraseIdx i := by
  rw [← h.entries, eraseIdx_map]

theorem InStep.entry (h : InStep q x) (hh : Holds D q st) (hi : x.entries[i]? = some (r, region)) :
    Mirrors q.ix x.ix ((r, region) :: x.entries.eraseIdx i) ∧ (∀ e ∈ x.entries.eraseIdx i, r.Apart e.1) ∧
      r.payload = r.offset + (header r.info).length ∧ (header r.info).length + r.info.sz.toNat ≤ r.extent := by
  obtain ⟨⟨g, hk⟩, hd⟩ := hh
  obtain ⟨hlt, hget⟩ := List.getElem?_eq_some_iff.1 hi
  have hperm : ((r, region) :: x.entries.eraseIdx i).Perm x.entries := hget ▸ getElem_cons_eraseIdx_perm hlt
  have hpair : x.entries.Pairwise fun e e' => e.1.Apart e'.1 := by
    have hp := hk.drafts_apart
    rw [hd, ← h.entries] at hp
    exact pairwise_map.1 hp
  have hpair' := (hperm.pairwise_iff fun h => h.symm).2 hpair
  refine ⟨h.mirrors.congr fun e => hperm.mem_iff, fun e he => rel_of_pairwise_cons hpair' he, ?_⟩
  obtain ⟨dr, hdr, rfl⟩ := draft_of_held (h.entries.trans hd.symm) (mem_of_getElem? hi)
  obtain ⟨hreg, -, hpay⟩ := hk.books.drafts dr hdr
  obtain ⟨ext, hext, hroom⟩ := (hk.books.pages _ (Store.mem_pages_of_draft hdr)).region
  cases hk.books.extent_unique hext hreg
  exact ⟨hpay, hroom⟩

theorem Holds.run (hh : Holds D q st) (op : QueueOp) (hv : op.Valid q) : wlp (op.run D)
    (fun _ q' => ∃ st, Holds D q' st) q :=
  (QueueOp.run_spec hh hv).mono fun _ _ hdid => ⟨_, hdid.holds⟩

theorem Holds.after (hh : Holds D q st) {op : QueueOp} (hv : op.Valid q) {m : Prog ProductQueue Int}
    (hm : op.run D = QueueOp.status m) : wlp m (fun _ q' => ∃ st, Holds D q' st) q := by
  have hrun := hh.run op hv
  rw [hm, QueueOp.status, wlp_bind] at hrun
  exact hrun.mono fun a q' hq => wlp_pure.1 hq

theorem newElement_beside (hh : Holds D q st) (h : InStep q x) (hopen : x.head.opened = some D)
    (hv : info.origin.length + info.ident.length < 2 ^ 62) (mapped : Bool) :
    Lockstep (Beside x.head) (newElement D info mapped) (MappedQueue.newElement mapper info mapped) q x := by
  obtain ⟨⟨g, hk⟩, hd⟩ := hh
  refine .step_right rfl ?_
  simp only [hopen]
  refine .ite Iff.rfl (fun _ => .pure ⟨rfl, h, rfl⟩) fun _ => .ite Iff.rfl (fun _ => .pure ⟨rfl, h, rfl⟩) fun _ => ?_
  refine (locked_lockstep rfl (reserve_lockstep h.mirrors hk (h.entries.trans hd.symm) (encoded_fits D hv) mapped)
    ?_).bind ?_
  · intro res s res' t hR
    cases hR with
    | error hs => exact .error hs.clear
    | ok hs => exact .ok hs.clear
  rintro res q1 res' x1 ⟨hR, hq, he, hhead⟩
  generalize hs' : q1.ix = s1 at hR
  generalize ht' : x1.ix = t1 at hR
  cases hR with
  | error hs =>
    exact .pure ⟨rfl, ⟨by rw [hs', ht', he]; exact hs, by rw [he, hq]; exact h.entries⟩, hhead⟩
  | @ok r region _ _ hs =>
    refine Lockstep.bind (R := fun _ q' _ x' => InStep q' x' ∧ x'.head = x.head) (.modify ⟨⟨?_, ?_⟩, hhead⟩)
      fun _ _ _ _ hin => .pure ⟨rfl, hin⟩
    · show Mirrors q1.ix x1.ix (x1.entries ++ [(r, region)])
      rw [hs', ht', he]
      exact hs.congr fun e => by simp [or_comm]
    · show (x1.entries ++ [(r, region)]).map Prod.fst = q1.reserved ++ [r]
      rw [map_append, he, hq, h.entries]
      rfl

theorem InStep.store (h : InStep q x) (hh : Holds D q st) (hi : x.entries[i]? = some (r, region)) {pos : Int}
    {bs : List UInt8} (hlow : r.offset ≤ pos) (hhigh : pos + bs.length ≤ r.offset + r.extent) :
    Lockstep (fun _ q' _ x' => InStep q' x' ∧ x'.head = x.head)
      (modify fun q => { q with ix := setDisk (writeBytes q.ix.env.disk pos bs) q.ix })
      (MappedQueue.storeEntry i r region (writeBytes (region.memory x.ix.env.disk) pos bs)) q x := by
  obtain ⟨hs, hapart, -⟩ := h.entry hh hi
  have hlt := (List.getElem?_eq_some_iff.1 hi).1
  have hperm := set_perm_cons_eraseIdx hlt
  refine .modify ⟨⟨(hs.store hapart hlow hhigh).congr fun e => (hperm _).mem_iff, ?_⟩, rfl⟩
  show (x.entries.set i (r, _)).map Prod.fst = q.reserved
  have hr : q.reserved[i]? = some r := by rw [h.get, hi]; rfl
  obtain ⟨hlt', hget⟩ := List.getElem?_eq_some_iff.1 hr
  rw [map_set, h.entries, ← hget]
  exact set_getElem_self hlt'

theorem writePayload_beside (hh : Holds D q st) (h : InStep q x) {pos : Nat} {bytes : List UInt8}
    (hv : ∀ r ∈ q.reserved[i]?, pos + bytes.length ≤ r.info.sz.toNat) :
    Lockstep (Beside x.head) (writePayload i pos bytes) (MappedQueue.writePayload i pos bytes) q x := by
  rw [h.get] at hv
  refine .read ?_
  rw [h.get]
  cases hi : x.entries[i]? with
  | none => exact .pure ⟨rfl, h, rfl⟩
  | some e =>
    rw [hi] at hv
    obtain ⟨r, region⟩ := e
    obtain ⟨-, -, hpay, hroom⟩ := h.entry hh hi
    have hin : pos + bytes.length ≤ r.info.sz.toNat := hv r rfl
    have hlow : r.offset ≤ r.payload + pos := by omega
    have hhigh : r.payload + pos + bytes.length ≤ r.offset + r.extent := by omega
    exact (h.store hh hi hlow hhigh).bind fun _ _ _ _ hin => .pure ⟨rfl, hin⟩

theorem encodeEntry_beside (hh : Holds D q st) (h : InStep q x) {data : List UInt8}
    (hv : ∀ r ∈ q.reserved[i]?, data.length = r.info.sz.toNat) :
    Lockstep (Beside x.head) (encodeEntry i data) (MappedQueue.encodeEntry i data) q x := by
  rw [h.get] at hv
  refine .read ?_
  rw [h.get]
  cases hi : x.entries[i]? with
  | none => exact .pure ⟨rfl, h, rfl⟩
  | some e =>
    rw [hi] at hv
    obtain ⟨r, region⟩ := e
    obtain ⟨hs, -, hpay, hroom⟩ := h.entry hh hi
    have hlen : data.length = r.info.sz.toNat := hv r rfl
    have hget : region.get = r.offset := (hs.mapped _ mem_cons_self).get
    obtain ⟨ok, bs, hbs, hwrites⟩ := encodeProduct_writes r.offset (hlen ▸ hroom)
    simp only [Option.map_some, hget, hwrites]
    exact (h.store hh hi (Int.le_refl _) (by omega)).bind fun _ _ _ _ hin => .pure ⟨rfl, hin⟩

theorem InStep.locked (h : InStep q x) {m' : Prog (QueueIndexManager World) α} (hw : rflags.write = true)
    (htwin : Lockstep (Twin (World.Alike q.ix.env.disk x.ix.env.disk)) m m' q.ix (q.ix.inWorld x.ix.env)) :
    Lockstep (Beside x.head) (locked m) (locked mapper rflags m') q x := by
  refine (locked_lockstep hw (h.mirrors.lockstep htwin) fun a s b t hR => ⟨hR.1, hR.2.clear⟩).mono ?_
  rintro a q' b x' ⟨⟨rfl, hs⟩, hq, he, hhead⟩
  refine ⟨rfl, ⟨?_, ?_⟩, hhead⟩
  · rw [he]
    exact hs
  · rw [he, hq]
    exact h.entries

/-- An entry that was taken from its client, with its region. -/
structure Floating (r : Reservation) (region : MappedRegion) (q : ProductQueue) (x : MappedQueue) : Prop where
  mirrors : Mirrors q.ix x.ix ((r, region) :: x.entries)
  apart : ∀ e ∈ x.entries, r.Apart e.1
  entries : x.entries.map Prod.fst = q.reserved

theorem Floating.release (h : Floating r region q x) : InStep q (x.setDisk (region.commit x.ix.env.disk)) :=
  ⟨h.mirrors.release h.apart, h.entries⟩

theorem rollbackEntry_beside (h : Floating r region q x) (hopen : x.head.opened = some D) :
    Lockstep (Beside x.head) (rollbackEntry r) (rollbackEntry mapper r (some region)) q x := by
  refine .step_right rfl ?_
  simp only [hopen]
  exact .step_right rfl (h.release.locked rfl (freeByOffset_twin _ _ h.release.mirrors.alike))

theorem enterTime_twin (offset : Int) : Twins (World.Alike d d') (enterTime offset) (enterTime offset) := by
  refine (twins_onEnv ?_).bind fun now => (twins_onTq _).bind fun status => .ite (twins_pure _)
    ((twins_onEnv ?_).bind fun _ =>
    twins_pure _)
  all_goals
    rintro _ _ ⟨rfl, rfl⟩
    exact ⟨rfl, rfl, rfl⟩

theorem rollback_and_return (h : Floating r region q x) (hopen : x.head.opened = some D) (status : Int) :
    Lockstep (Beside x.head) (do let _ ← rollbackEntry r; return status)
      (do let _ ← rollbackEntry mapper r (some region); return status) q x :=
  (rollbackEntry_beside h hopen).bind fun _ _ _ _ hb => .pure ⟨rfl, hb.2⟩

theorem tryCommit_returned : (tryCommit r q).returned =
    ((match decodeProdInfo q.ix.env.disk r.offset r.extent with
      | none => (pure PqStatus.corrupt.toInt : Prog ProductQueue Int)
      | some (info, _) =>
        if r.extent < getEncodedInfoSize info then pure PqStatus.big.toInt
        else locked (enterTime r.offset)) q).returned := by
  rw [tryCommit, returned_bind_eq]
  rfl

theorem commitEntry_beside (h : Floating r region q x) (hopen : x.head.opened = some D) :
    Lockstep (Beside x.head) (commitEntry r) (MappedQueue.commitEntry mapper r region) q x := by
  have hof : region.Of r q.ix.env.disk x.ix.env.disk := h.mirrors.mapped _ mem_cons_self
  have htry := tryCommit_returned (r := r) (q := q)
  refine .step_right rfl ?_
  simp only [hopen, hof.decode]
  rw [hof.extent]
  cases hdec : decodeProdInfo q.ix.env.disk r.offset r.extent with
  | none =>
    rw [hdec] at htry
    exact .step_left htry (rollback_and_return h hopen _)
  | some p =>
    obtain ⟨info, next⟩ := p
    rw [hdec] at htry
    by_cases hbig : r.extent < getEncodedInfoSize info
    · simp only [if_pos hbig] at htry ⊢
      exact .step_left htry (rollback_and_return h hopen _)
    · simp only [if_neg hbig] at htry ⊢
      -- from here on the region is released
      have hin := h.release
      have hlocked : Lockstep (Beside x.head) (tryCommit r)
          (locked mapper write (enterTime r.offset)) q
          (x.setDisk (region.commit x.ix.env.disk)) := by
        rw [Lockstep, htry]
        exact hin.locked rfl (enterTime_twin _ hin.mirrors.alike)
      refine .step_right rfl (hlocked.bind ?_)
      rintro status q1 _ x1 ⟨rfl, hin1, hhead⟩
      refine .ite Iff.rfl (fun _ => ?_) fun _ => .pure ⟨rfl, hin1, hhead⟩
      have hroll : Lockstep (Beside x1.head) (rollbackEntry r) (rollbackEntry mapper r none) q1 x1 := by
        have hopen1 : x1.head.opened = some D := hhead ▸ hopen
        refine .step_right rfl ?_
        simp only [hopen1]
        exact hin1.locked rfl (freeByOffset_twin _ _ hin1.mirrors.alike)
      refine hroll.bind fun _ _ _ _ hb => .pure ⟨rfl, hb.2.1, hb.2.2.trans hhead⟩

theorem takeEntry_lockstep {S : Int → ProductQueue → Int → MappedQueue → Prop}
    {f : Option Reservation → Prog ProductQueue Int}
    {f' : Option (Reservation × MappedRegion) → Prog MappedQueue Int} (hh : Holds D q st) (h : InStep q x)
    (hnone : Lockstep S (f none) (f' none) q x)
    (hsome : ∀ r region q' x', Floating r region q' x' → x'.head = x.head →
    Lockstep S (f (some r)) (f' (some (r, region))) q' x') :
    Lockstep S (takeEntry i >>= f) (MappedQueue.takeEntry i >>= f') q x := by
  have hq : (takeEntry i q).returned = _ := congrArg Outcome.returned (takeEntry_run i q)
  have hx : (MappedQueue.takeEntry i x).returned =
      some (x.entries[i]?, { x with entries := x.entries.eraseIdx i }) := by
    simp only [MappedQueue.takeEntry, returned_bind_eq, returned_read_eq, Option.bind_some]
    cases hi : x.entries[i]? with
    | none => simp [eraseIdx_of_length_le (getElem?_eq_none_iff.1 hi)]; rfl
    | some e => rfl
  refine .step_left hq (.step_right hx ?_)
  rw [h.get]
  cases hi : x.entries[i]? with
  | none =>
    have hle := getElem?_eq_none_iff.1 hi
    rw [eraseIdx_of_length_le hle, eraseIdx_of_length_le (by rwa [← h.entries, length_map])]
    exact hnone
  | some e =>
    obtain ⟨r, region⟩ := e
    obtain ⟨hs, hapart, -⟩ := h.entry hh hi
    exact hsome _ _ _ _ ⟨hs, hapart, h.erase i⟩ rfl

theorem commit_beside (hh : Holds D q st) (h : InStep q x) (hopen : x.head.opened = some D) (i : Nat) :
    Lockstep (Beside x.head) (commit i) (MappedQueue.commit mapper i) q x :=
  takeEntry_lockstep hh h (.pure ⟨rfl, h, rfl⟩) fun _ _ _ _ hf hhead =>
    hhead ▸ commitEntry_beside hf (hhead ▸ hopen)

theorem rollback_beside (hh : Holds D q st) (h : InStep q x) (hopen : x.head.opened = some D) (i : Nat) :
    Lockstep (Beside x.head) (rollback i) (MappedQueue.rollback mapper i) q x :=
  takeEntry_lockstep hh h (.pure ⟨rfl, h, rfl⟩) fun _ _ _ _ hf hhead =>
    hhead ▸ rollbackEntry_beside hf (hhead ▸ hopen)

def Along (D : DataSection) (head : FileHead) (a : α) (q : ProductQueue) (b : α) (x : MappedQueue) : Prop :=
  (∃ st, Holds D q st) ∧ Beside head a q b x

theorem Holds.along (hh : Holds D q st) (op : QueueOp) (hv : op.Valid q) {m : Prog ProductQueue Int}
    {m' : Prog MappedQueue Int}
    (hm : op.run D = QueueOp.status m) {head : FileHead} (h : Lockstep (Beside head) m m' q x) :
    Lockstep (Along D head) m m' q x :=
  h.knowing (hh.after hv hm)

theorem insert_along (hh : Holds D q st) (h : InStep q x) (hopen : x.head.opened = some D)
    {data : List UInt8} (hv : info.origin.length + info.ident.length < 2 ^ 62) (hlen : data.length = info.sz.toNat)
    (mapped : Bool) :
    Lockstep (Along D x.head) (insert D info data mapped) (MappedQueue.insert mapper info data mapped) q x := by
  refine ((hh.along (.newElement info mapped) hv rfl (newElement_beside hh h hopen hv mapped)).knowing
    (newElement_spec hh (encoded_fits D hv) mapped)).bind ?_
  rintro status q1 _ x1 ⟨⟨-, hstatus⟩, ⟨st1, hh1⟩, rfl, hin1, hhead⟩
  refine .ite Iff.rfl (fun _ => .pure ⟨⟨st1, hh1⟩, rfl, hin1, hhead⟩) fun hzero => .read ?_
  obtain ⟨-, r, hr, hres, -⟩ := hstatus.resolve_right fun hbad => hzero hbad.1
  have hi : x1.entries.length = q1.reserved.length := by rw [← hin1.entries, length_map]
  rw [hi]
  have hlast : ∀ r' ∈ q1.reserved[q1.reserved.length - 1]?, data.length = r'.info.sz.toNat := by
    intro r' hr'
    rw [hres] at hr'
    simp at hr'
    rw [← hr', hr]
    exact hlen
  refine (hh1.along (.encodeEntry _ data) hlast rfl (encodeEntry_beside hh1 hin1 hlast)).bind ?_
  rintro status2 q2 _ x2 ⟨⟨st2, hh2⟩, rfl, hin2, hhead2⟩
  have hhead2 : x2.head = x.head := hhead2.trans hhead
  rw [← hhead2] at hopen ⊢
  refine .ite Iff.rfl (fun _ => hh2.along (.commit _) trivial rfl (commit_beside hh2 hin2 hopen _)) fun _ => ?_
  refine (hh2.along (.rollback _) trivial rfl (rollback_beside hh2 hin2 hopen _)).bind ?_
  rintro _ q3 _ x3 ⟨hh3, -, hin3⟩
  exact .pure ⟨hh3, rfl, hin3⟩

/-! ## Deleting -/

theorem decodeRegion_returned (rlix : Nat) (lockedStatus corruptStatus : Int) :
    (decodeRegion rlix lockedStatus corruptStatus s).returned =
      some (if s.env.grants s.env.requests = false then .error lockedStatus
        else ((decodeProdInfo s.env.disk (s.rl.rp rlix).offset (s.rl.rp rlix).getExtent).map Prod.fst).elim
          (.error corruptStatus) .ok, { s with env := s.env.getRegionNoWait.2 }) := by
  rw [decodeRegion, returned_bind_eq]
  show ((onEnv World.getRegionNoWait >>= fun granted => if granted = false then _ else _) s).returned = _
  rw [returned_bind_eq]
  show ((if s.env.grants s.env.requests = false then _ else _ : Prog (QueueIndexManager World) _) _).returned = _
  split
  case isTrue => rfl
  case isFalse =>
    cases decodeProdInfo s.env.disk (s.rl.rp rlix).offset (s.rl.rp rlix).getExtent with
    | none => rfl
    | some p => rfl

/-- **A region is mapped, decoded and released.** What runs in between must not touch the bytes. -/
theorem withRegion_twin {β : Type} {e : World} (hE : World.Alike d d' s.env e) {rlix : Nat}
    {lockedStatus corruptStatus : Int} {f : Except Int ProdInfo → Prog (QueueIndexManager World) β} {refused : β}
    {m' : Option ProdInfo → Prog (QueueIndexManager World) β} (hact : (s.rl.rp rlix).offset ∉ active)
    (hagree : ∀ b, (s.rl.rp rlix).offset ≤ b → b < (s.rl.rp rlix).offset + (s.rl.rp rlix).getExtent → d' b = d b)
    (hrefused : Twins (World.Alike d d') (f (.error lockedStatus)) (pure refused))
    (hnone : Twins (World.Alike d d') (f (.error corruptStatus)) (m' none))
    (hsome : ∀ info, Twins (World.Alike d d') (f (.ok info)) (m' (some info))) :
    Lockstep (Twin (World.Alike d d')) (decodeRegion rlix lockedStatus corruptStatus >>= f)
      (mapper.withRegion active rlix refused m') s (s.inWorld e) := by
  obtain ⟨rfl, rfl⟩ := hE
  refine .step_left (decodeRegion_returned rlix lockedStatus corruptStatus) (.step_right rfl ?_)
  have hE : World.Alike s.env.disk d' s.env.getRegionNoWait.2 { s.env.getRegionNoWait.2 with disk := d' } := ⟨rfl, rfl⟩
  show Lockstep _ _ (if (s.rl.rp rlix).offset ∈ active then _ else _) _ _
  rw [if_neg hact]
  refine .step_right rfl ?_
  show Lockstep _ _ (if s.env.grants s.env.requests = false then _ else _) _ _
  split
  case isTrue => exact hrefused hE
  case isFalse =>
    let region := mapper.getRegion d' (s.rl.rp rlix).offset (s.rl.rp rlix).getExtent RegionMapper.writeNoWait
    have hdec : decodeProdInfo (region.memory d') region.get (s.rl.rp rlix).getExtent =
        decodeProdInfo s.env.disk (s.rl.rp rlix).offset (s.rl.rp rlix).getExtent :=
      RegionMapper.decode_getRegion.trans (decodeProdInfo_congr hagree)
    have hcommit : region.commit d' = d' := RegionMapper.commit_getRegion
    show Lockstep _ _ (do
      let a ← m' ((decodeProdInfo (region.memory d') region.get (s.rl.rp rlix).getExtent).map Prod.fst)
      modify fun s => setDisk (region.commit s.env.disk) s
      return a) _ _
    rw [hdec]
    generalize (decodeProdInfo s.env.disk (s.rl.rp rlix).offset (s.rl.rp rlix).getExtent).map Prod.fst = decoded
    refine Lockstep.then_right (R := Twin (World.Alike s.env.disk d')) ?_ ?_
    · cases decoded with
      | none => exact hnone hE
      | some info => exact hsome info hE
    · rintro a s' _ _ ⟨rfl, _, ⟨hd, rfl⟩, rfl⟩
      refine ⟨a, _, rfl, rfl, { s'.env with disk := region.commit d' }, ⟨hd, ?_⟩, rfl⟩
      rw [hcommit]

theorem Mirrors.timed (h : Mirrors s t held) (hk : Kept D s g st) (hheld : held.map Prod.fst = st.drafts.map Prod.fst)
    {y r : Nat}
    (hy : y ∈ g.ts) (hr : r ∈ RegionList.allocs s.rl g.C) (hoff : (s.rl.rp r).offset = (s.tq.tqep y).offset) :
    (s.rl.rp r).offset ∉ offsets held ∧
      ∀ b, (s.rl.rp r).offset ≤ b → b < (s.rl.rp r).offset + (s.rl.rp r).getExtent → t.env.disk b = s.env.disk b := by
  obtain ⟨htime, hregion⟩ := mem_catalog hy hr hoff
  have hact := hk.timed_not_held hheld htime
  exact ⟨hact, h.region_agrees hk hheld hregion hact⟩

theorem cset_twin {E : World → World → Prop} (tv : Timestamp) : Twins E (cset tv) (cset tv) :=
  fun _ e hE => .assert Iff.rfl fun _ => ⟨rfl, e, hE, rfl⟩

theorem sequenceDelete_twin (h : Mirrors s t held) (hk : Kept D s g st)
    (hheld : held.map Prod.fst = st.drafts.map Prod.fst)
    (mt : Match) (contains : ProdInfo → Bool) (cursor : Timestamp) :
    Lockstep (Twin (World.Alike s.env.disk t.env.disk)) (sequenceDeleteLocked mt contains cursor)
      (MappedQueue.sequenceDeleteLocked mapper (offsets held) mt contains cursor) s (s.inWorld t.env) := by
  refine .read (twin_bind (twins_onTq _ h.alike) (tqFind_spec hk.inv cursor mt) ?_)
  rintro found s1 e1 ⟨rfl, hfound⟩ hE1
  cases found with
  | none => exact twins_pure _ hE1
  | some y =>
    refine twin_bind (twins_onRl _ hE1) (rlFind_spec hk.inv _).wlp ?_
    rintro rlix s2 e2 ⟨rfl, hfind⟩ hE2
    refine Lockstep.bind (R := fun _ s' _ t' => rlix ≠ RL_NONE ∧ s' = s2 ∧ t' = s2.inWorld e2)
      (.assert Iff.rfl fun hne => ⟨hne, rfl, rfl⟩) ?_
    rintro _ s3 _ _ ⟨hne, rfl, rfl⟩
    obtain ⟨-, hr, hoff⟩ := hfind.resolve_left fun hnone => hne hnone.1
    clear hfind
    have hy : y ∈ g.ts := by
      rcases hfound with ⟨hno, -⟩ | ⟨z, hz, he, -⟩ | ⟨-, hnil⟩
      · cases hno
      · cases he
        exact hz
      · cases hnil
        exact absurd hoff (hk.inv.no_region_nil hr)
    obtain ⟨hact, hagree⟩ := h.timed hk hheld hy hr hoff
    refine withRegion_twin hE2 hact hagree (twins_pure _) ((cset_twin _).bind fun _ => twins_pure _) fun info => ?_
    refine (cset_twin _).bind fun _ => .ite ?_ (twins_pure _)
    exact (twins_onTq _).bind fun _ => (twins_onSx _).bind fun _ => (twins_onRl _).bind fun _ => twins_pure _

theorem Kept.filed_not_held (hk : Kept D s g st) (hheld : held.map Prod.fst = st.drafts.map Prod.fst)
    (hsig : sig ∉ (held.map Prod.fst).map Reservation.signature) (hfiled : (sig, off) ∈ (catalog s g).sigs) :
    off ∉ offsets held := by
  intro hm
  obtain ⟨e, he, rfl⟩ := mem_map.1 hm
  obtain ⟨dr, hd, hde⟩ := draft_of_held hheld he
  have hpage := (hk.books.pages _ (Store.mem_pages_of_draft hd)).filed
  have hown := (hk.books.drafts dr hd).2.1
  rw [← hde] at hfiled
  have hsame : e.1.signature = sig := by
    rw [← hde, hown]
    exact hk.books.signature_unique hpage hfiled
  exact hsig (hsame ▸ mem_map_of_mem (mem_map_of_mem he))

theorem deleteBySignature_beside (hh : Holds D q st) (h : InStep q x) (hopen : x.head.opened = some D) (interval : Nat)
    (hsig : sig ∉ q.reserved.map Reservation.signature) :
    Lockstep (Beside x.head) (deleteBySignature interval sig) (deleteBySignature mapper interval sig)
      q x := by
  obtain ⟨⟨g, hk⟩, hd⟩ := hh
  have hheld := h.entries.trans hd.symm
  refine .step_right rfl ?_
  simp only [hopen]
  refine h.locked rfl ?_
  have hdec : ∀ off ext, (sig, off) ∈ (catalog q.ix g).sigs → (off, ext) ∈ (catalog q.ix g).regions →
      DecodeAlike (World.Alike q.ix.env.disk x.ix.env.disk) callbacks (mapper.callbacks x.active) off ext := by
    intro off ext hfiled hreg
    have hact := hk.filed_not_held hheld (h.entries ▸ hsig) hfiled
    exact decodeAlike_of_agree hact (h.mirrors.region_agrees hk hheld hreg hact)
  refine twin_bind (findTimeEntryBySignature_twin hk.inv h.mirrors.alike interval hdec)
    (findTimeEntryBySignature_spec hk.inv interval sig) ?_
  rintro found s1 e1 ⟨hs1, hdisk, hts⟩ hE1
  cases found with
  | error status => exact twins_pure _ hE1
  | ok y =>
    have hk1 : Kept D s1 g st := by
      rw [hs1]
      exact hk.control hdisk _ _
    obtain ⟨pg, hlive, hpg⟩ := hk1.live_of (hts y rfl)
    have hfind := hk1.find_live hlive
    rw [hpg] at hfind
    refine .read (twin_bind (twins_onRl _ hE1) hfind.wlp ?_)
    rintro rlix s2 e2 ⟨rfl, -, hr, hoff, -⟩ hE2
    have hs2 : Mirrors s2 (s2.inWorld e2) x.entries :=
      (h.mirrors.twin (⟨rfl, e2, hE2, rfl⟩ : Twin _ () s2 () (s2.inWorld e2))).2
    obtain ⟨hact, hagree⟩ := hs2.timed hk1 hheld (hts y rfl) hr hoff
    have hdisk' : (s2.inWorld e2).env.disk = x.ix.env.disk := by
      show e2.disk = x.ix.env.disk
      rw [hE2.2]
    rw [hdisk', hdisk] at hagree
    refine withRegion_twin hE2 hact hagree (twins_pure _) (twins_pure _) fun info => ?_
    exact (twins_onSx _).bind fun _ => (twins_onTq _).bind fun _ => (twins_onRl _).bind fun _ => twins_pure _

def refusing : Callbacks World := ⟨fun _ _ w => ((EACCES, {}), w), mvrtFunc⟩

theorem findTimeEntry_refused (hinv : IndexInv D s g) (interval : Nat) (sig : Signature) :
    wlp (findTimeEntryBySignature refusing interval sig) (fun res s' => s' = s ∧ ∃ status, res = .error status)
      s := by
  rw [findTimeEntryBySignature, wlp_bind, wlp_read, wlp_bind]
  refine (sxFind_spec hinv sig).wlp.mono ?_
  rintro r s1 ⟨rfl, -⟩
  cases r with
  | none => exact wlp_pure.2 ⟨rfl, _, rfl⟩
  | some e =>
    simp only [wlp_bind]
    refine (rlFind_spec hinv _).wlp.mono ?_
    rintro rlix s2 ⟨rfl, -⟩
    split
    case isTrue => exact wlp_pure.2 ⟨rfl, _, rfl⟩
    case isFalse =>
      simp only [wlp_bind, onEnv, wlp_zoom, wlp_call, refusing]
      rw [if_pos (show EACCES ≠ 0 by decide)]
      exact wlp_pure.2 ⟨rfl, _, rfl⟩

def refusedDelete (interval : Nat) (sig : Signature) : Prog (QueueIndexManager World) Int := do
  match ← findTimeEntryBySignature refusing interval sig with
  | .error status => return status
  | .ok _ => return 0

theorem deleteBySignature_active (hh : Holds D q st) (h : InStep q x) (hopen : x.head.opened = some D) (interval : Nat)
    (hsig : sig ∈ q.reserved.map Reservation.signature) :
    Lockstep (Along D x.head) (locked (refusedDelete interval sig))
      (deleteBySignature mapper interval sig) q x := by
  obtain ⟨⟨g, hk⟩, hd⟩ := id hh
  rw [← h.entries, map_map] at hsig
  obtain ⟨e, he, rfl⟩ := mem_map.1 hsig
  obtain ⟨dr, hdr, hde⟩ := draft_of_held (h.entries.trans hd.symm) he
  have hdec : ∀ off ext, (e.1.signature, off) ∈ (catalog q.ix g).sigs → (off, ext) ∈ (catalog q.ix g).regions →
      DecodeAlike (World.Alike q.ix.env.disk x.ix.env.disk) refusing (mapper.callbacks x.active) off ext := by
    intro off ext hfiled hreg w w' hw
    have hown := (hk.books.pages _ (Store.mem_pages_of_draft hdr)).filed
    rw [← hde, (hk.books.drafts dr hdr).2.1] at hfiled
    have hoff : off = e.1.offset := hde ▸ hk.books.offset_unique hfiled hown
    have hact : off ∈ x.active := hoff ▸ mem_map_of_mem (f := fun e => e.1.offset) he
    simp only [refusing, RegionMapper.callbacks, RegionMapper.decodeFunc, if_pos hact]
    exact ⟨trivial, hw⟩
  have hlock : Lockstep (Beside x.head) (locked (refusedDelete interval e.1.signature))
      (deleteBySignature mapper interval e.1.signature) q x := by
    refine .step_right rfl ?_
    simp only [hopen]
    refine h.locked rfl (twin_bind (findTimeEntryBySignature_twin hk.inv h.mirrors.alike interval hdec)
      (findTimeEntry_refused hk.inv interval _) ?_)
    rintro _ s1 e1 ⟨rfl, status, rfl⟩ hE1
    exact twins_pure _ hE1
  refine hlock.knowing (wlp_locked.2 (wlp_bind.2 ((findTimeEntry_refused hk.inv interval _).mono ?_)))
  rintro _ s1 ⟨rfl, status, rfl⟩
  exact wlp_pure.2 ⟨st, hk.unlocked hd _⟩

theorem sequenceDelete_along (hh : Holds D q st) (h : InStep q x) (hopen : x.head.opened = some D) (mt : Match)
    (contains : ProdInfo → Bool) (cursor : Timestamp) :
    Lockstep (Along D x.head) (sequenceDelete mt contains cursor)
      (sequenceDelete mapper mt contains cursor) q x := by
  have hlock : Lockstep (Beside x.head) (sequenceDelete mt contains cursor)
      (sequenceDelete mapper mt contains cursor) q x := by
    obtain ⟨⟨g, hk⟩, hd⟩ := hh
    refine .step_right rfl ?_
    simp only [hopen]
    exact h.locked rfl (sequenceDelete_twin h.mirrors hk (h.entries.trans hd.symm) mt contains _)
  exact hlock.knowing (hh.run (.sequenceDelete mt contains cursor) trivial)

end Rdm
