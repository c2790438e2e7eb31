import Mathlib.Data.List.MinMax
import Rdm.Pq.Consistency
import Rdm.Pq.IndexFrame
import Rdm.Pq.TimeMap

/-!
# The minimum virtual residence time

`TrackMvrt` keeps the smallest of the times that evicted products had been in the queue. Callbacks that also keep a log
go along with those of the queue (`recordAll_twin`).
-/

namespace Rdm

open ProgLogic ProgLogic.Prog List

/-! ## Microseconds -/

namespace Timestamp

variable {a b t : Timestamp}

def micros (t : Timestamp) : Int := t.sec * 1000000 + t.usec

theorem Normal.ne_none (h : t.Normal) : t ≠ NONE := by
  rintro rfl
  exact absurd h.1 (by decide)

theorem Normal.lt_iff_micros (ha : a.Normal) (hb : b.Normal) : a < b ↔ a.micros < b.micros := by
  obtain ⟨ha0, ha1⟩ := ha
  obtain ⟨hb0, hb1⟩ := hb
  rw [lt_iff, micros, micros]
  omega

/-- **Subtraction is exact** if the result is positive. -/
theorem Normal.sub (ha : a.Normal) (hb : b.Normal) (h : b < a) : (a.sub b).Normal ∧
    (a.sub b).micros = a.micros - b.micros := by
  obtain ⟨ha0, ha1⟩ := ha
  obtain ⟨hb0, hb1⟩ := hb
  rw [lt_iff] at h
  unfold Timestamp.sub Normal micros
  split
  · rw [if_pos (by omega)]
    simp only
    omega
  · simp only
    omega

theorem Normal.min (ha : a.Normal) (hb : b.Normal) : (min a b).Normal := by
  rcases min_choice a b with h | h
  · rw [h]
    exact ha
  · rw [h]
    exact hb

def Shows (t : Timestamp) (o : Option Int) : Prop :=
  match o with
  | none => t = NONE
  | some n => t.Normal ∧ t.micros = n

theorem Shows.next {l : List Int} {v : Timestamp} (h : Shows t l.min?) (hv : v.Normal) :
    Shows (if t = NONE ∨ v < t then v else t) (l ++ [v.micros]).min? := by
  cases hl : l.min? with
  | none =>
    rw [hl] at h
    rw [min?_eq_none_iff] at hl
    subst hl
    have hnone : t = NONE := h
    rw [if_pos (.inl hnone)]
    exact ⟨hv, rfl⟩
  | some n =>
    rw [hl] at h
    obtain ⟨hn, hle⟩ := min?_eq_some_iff.1 hl
    obtain ⟨ht, rfl⟩ := h
    have hlt := Normal.lt_iff_micros hv ht
    by_cases hvt : v < t
    · have hmin : (l ++ [v.micros]).min? = some v.micros := by
        refine min?_eq_some_iff.2 ⟨by simp, fun b hb => ?_⟩
        rcases mem_append.1 hb with hb | hb
        · have hb' := hle b hb
          have hvt' := hlt.1 hvt
          omega
        · rw [mem_singleton.1 hb]
      rw [if_pos (.inr hvt), hmin]
      exact ⟨hv, rfl⟩
    · have hmin : (l ++ [v.micros]).min? = some t.micros := by
        refine min?_eq_some_iff.2 ⟨mem_append_left _ hn, fun b hb => ?_⟩
        rcases mem_append.1 hb with hb | hb
        · exact hle b hb
        · rw [mem_singleton.1 hb]
          exact Int.not_lt.1 fun h => hvt (hlt.2 h)
      rw [if_neg (not_or.2 ⟨ht.ne_none, hvt⟩), hmin]
      exact ⟨ht, rfl⟩

end Timestamp

/-! ## The log -/

/-- The eviction of a product: when it arrived, when it was inserted, and the reading of the clock. -/
structure Eviction where
  arrival : Timestamp
  insertion : Timestamp
  now : Timestamp
deriving DecidableEq

def Eviction.residence (e : Eviction) : Option Int :=
  if min e.arrival e.insertion < e.now then some (e.now.micros - (min e.arrival e.insertion).micros) else none

def leastResidence (log : List Eviction) : Option Int := (log.filterMap Eviction.residence).min?

/-- The times that the queue itself reads and keeps are normal, and the header shows the minimum over the log. -/
structure Tally (w : World) (log : List Eviction) : Prop where
  clock : ∀ n, (w.clock n).Normal
  taken : ∀ e ∈ log, e.insertion.Normal ∧ e.now.Normal
  shown : (∀ e ∈ log, e.arrival.Normal) → w.metrics.minVirtResTime.Shows (leastResidence log)

theorem trackMvrt_minVirtResTime (arrival t : Timestamp) (rl : RegionList) (w : World) :
    (QueueMetrics.trackMvrt arrival t rl w).metrics.minVirtResTime =
      if min arrival t < w.now.1 then
        if w.metrics.minVirtResTime = Timestamp.NONE ∨ w.now.1.sub (min arrival t) < w.metrics.minVirtResTime then
          w.now.1.sub (min arrival t)
        else w.metrics.minVirtResTime
      else w.metrics.minVirtResTime := by
  have hbegin : (if t < arrival then t else arrival) = min arrival t := by
    split
    case isTrue hlt => exact (min_eq_right hlt.le).symm
    case isFalse hge => exact (min_eq_left (not_lt.1 hge)).symm
  have hmetrics : w.now.2.metrics = w.metrics := rfl
  simp only [QueueMetrics.trackMvrt, hbegin, hmetrics]
  by_cases hlt : min arrival t < w.now.1
  · rw [if_pos hlt, if_pos hlt]
    split_ifs <;> rfl
  · rw [if_neg hlt, if_neg hlt]
    rfl

theorem trackMvrt_clock (arrival t : Timestamp) (rl : RegionList) (w : World) :
    (QueueMetrics.trackMvrt arrival t rl w).clock = w.clock := by
  simp only [QueueMetrics.trackMvrt, World.now]
  split_ifs <;> rfl

variable {log : List Eviction}

/-- **One eviction.** -/
theorem Tally.evict {w : World} (h : Tally w log) {t : Timestamp} (ht : t.Normal) (arrival : Timestamp)
    (rl : RegionList) : Tally (QueueMetrics.trackMvrt arrival t rl w) (log ++ [⟨arrival, t, w.now.1⟩]) := by
  have hnow : w.now.1.Normal := h.clock w.readings
  refine ⟨?_, ?_, ?_⟩
  · rw [trackMvrt_clock]
    exact h.clock
  · intro e he
    rcases mem_append.1 he with he | he
    · exact h.taken e he
    · rw [mem_singleton.1 he]
      exact ⟨ht, hnow⟩
  · intro harrival
    have hshown := h.shown fun e he => harrival e (mem_append_left _ he)
    have hmin : (min arrival t).Normal := (harrival _ (mem_append_right _ (mem_singleton.2 rfl))).min ht
    rw [leastResidence, filterMap_append, trackMvrt_minVirtResTime]
    by_cases hlt : min arrival t < w.now.1
    · obtain ⟨hsub, hmicros⟩ := hnow.sub hmin hlt
      have hres : [Eviction.mk arrival t w.now.1].filterMap Eviction.residence =
        [(w.now.1.sub (min arrival t)).micros] := by
        simp [Eviction.residence, hlt, hmicros]
      rw [hres, if_pos hlt]
      exact hshown.next hsub
    · have hres : [Eviction.mk arrival t w.now.1].filterMap Eviction.residence = [] := by
        simp [Eviction.residence, hlt]
      rw [hres, if_neg hlt, append_nil]
      exact hshown

theorem Tally.other {w w' : World} (h : Tally w log) (hclock : w'.clock = w.clock)
    (hmin : w'.metrics.minVirtResTime = w.metrics.minVirtResTime) : Tally w' log :=
  ⟨by rw [hclock]; exact h.clock, h.taken, by rw [hmin]; exact h.shown⟩

theorem Tally.clear {w : World} (h : Tally w log) : Tally (QueueMetrics.clearMvrt w) [] :=
  ⟨h.clock, fun _ he => absurd he not_mem_nil, fun _ => rfl⟩

/-! ## Recording -/

abbrev Recorded : Type := World × List Eviction

def recording : Callbacks Recorded where
  decode offset extent p :=
    let (res, w) := ProductQueue.decodeFunc offset extent p.1
    (res, w, p.2)
  mvrt receptionTime info rl p :=
    (ProductQueue.mvrtFunc receptionTime info rl p.1, p.2 ++ [⟨info.arrival, receptionTime, p.1.now.1⟩])

theorem Evictions.tally {p p' : Catalog × Recorded} (h : Evictions recording p p')
    (htimes : ∀ q ∈ p.1.times, q.1.Normal) (htally : Tally p.2.1 p.2.2) : Tally p'.2.1 p'.2.2 := by
  induction h with
  | refl => exact htally
  | @tail b c hpath hstep ih =>
    have hsub := Evictions.times_sublist hpath
    cases hstep with
    | look _ _ => exact ih.other rfl rfl
    | @evict a a' e t off ext rl _ hw =>
      obtain ⟨pre, suf, hts, -⟩ := hw.times
      have ht : t.Normal := htimes (t, off) (hsub.subset (by simp [hts]))
      have hlook : Tally (recording.decode off ext e).2.1 (recording.decode off ext e).2.2 := ih.other rfl rfl
      exact hlook.evict ht _ rl

/-! ## Runs -/

/-- What happens to the queue under the control lock. -/
inductive ResidenceOp where
  | allocateProductSpace (extent : Nat) (sig : Signature)
  | deleteOldest
  | trackAllocation (offset : Int) (extent : Nat)
  | freeByOffset (offset : Int) (sig : Signature)
  | enterTime (offset : Int)
  | write (disk : Xdr.Memory)
  | clear
  | clearMvrt

namespace ResidenceOp

open QueueIndexManager (IndexInv Twin catalog formatNew onEnv smallSection tqAdd_spec twin_then twins_onEnv twins_pure)

variable {ω α : Type} {D : DataSection} {s : QueueIndexManager World} {t : QueueIndexManager Recorded} {g : Ghost}

def run (D : DataSection) : ResidenceOp → Prog (QueueIndexManager World) Unit
  | allocateProductSpace extent sig => do
    let _ ← QueueIndexManager.allocateProductSpace ProductQueue.callbacks extent sig
  | deleteOldest => do let _ ← QueueIndexManager.deleteOldest ProductQueue.callbacks
  | trackAllocation offset extent => modify (QueueMetrics.trackAllocation D.datao offset extent)
  | freeByOffset offset sig => do let _ ← QueueIndexManager.freeByOffset offset sig
  | enterTime offset => do let _ ← ProductQueue.enterTime offset
  | write disk => modify (ProductQueue.setDisk disk)
  | clear => QueueIndexManager.clear
  | clearMvrt => QueueIndexManager.onEnv fun w => ((), QueueMetrics.clearMvrt w)

def besides (m : Prog (QueueIndexManager World) α) : Prog (QueueIndexManager Recorded) α :=
  zoom (fun t => t.inWorld t.env.1) (fun s t => s.inWorld (s.env, t.env.2)) m

def record (D : DataSection) : ResidenceOp → Prog (QueueIndexManager Recorded) Unit
  | allocateProductSpace extent sig => do let _ ← QueueIndexManager.allocateProductSpace recording extent sig
  | deleteOldest => do let _ ← QueueIndexManager.deleteOldest recording
  | clearMvrt => QueueIndexManager.onEnv fun p => ((), QueueMetrics.clearMvrt p.1, [])
  | op => besides (op.run D)

def Valid (align : Nat) : ResidenceOp → Prop
  | allocateProductSpace extent _ => 1 ≤ extent ∧ extent + align ≤ 2 ^ 64
  | _ => True

def runAll (D : DataSection) (nalloc : Nat) (ops : List ResidenceOp) : Prog (QueueIndexManager World) Unit := do
  let _ ← QueueIndexManager.formatNew nalloc D.datao D.ixo
  ops.forM (run D)

def recordAll (D : DataSection) (nalloc : Nat) (ops : List ResidenceOp) : Prog (QueueIndexManager Recorded) Unit := do
  let _ ← besides (QueueIndexManager.formatNew nalloc D.datao D.ixo)
  ops.forM (record D)

/-! ## The invariant -/

/-- **The invariant**: that of the index, normal times in it, and a header that shows the minimum over the log. -/
structure Logged (D : DataSection) (s : QueueIndexManager ω) (g : Ghost) (w : World) (log : List Eviction) : Prop where
  inv : IndexInv D s g
  paired : (catalog s g).sigs.card = (catalog s g).regions.card
  normal : ∀ p ∈ (catalog s g).times, p.1.Normal
  tally : Tally w log

def Audited (D : DataSection) (t : QueueIndexManager Recorded) : Prop := ∃ g, Logged D t g t.env.1 t.env.2

theorem besides_spec {m : Prog (QueueIndexManager World) α}
    (h : wlp m (fun _ s' => ∃ g', Logged D s' g' s'.env t.env.2) (t.inWorld t.env.1)) : wlp (besides m)
    (fun _ => Audited D) t := by
  refine wlp_zoom.2 (h.mono ?_)
  rintro _ s' ⟨g', hl⟩
  exact ⟨g', { hl.inv with }, hl.paired, hl.normal, hl.tally⟩

theorem Logged.allocated {extent : Nat} (h : Logged D t g t.env.1 t.env.2) (hpos : 1 ≤ extent)
    (hfit : extent + D.align ≤ 2 ^ 64) (sig : Signature) :
    wlp (QueueIndexManager.allocateProductSpace recording extent sig) (fun _ => Audited D) t := by
  refine (QueueIndexManager.allocateProductSpace_spec h.inv h.paired hpos hfit sig).wlp.mono ?_
  rintro res t' ⟨g', h', hres⟩
  rcases hres with ⟨_, _, hev⟩ | ⟨off, ext, a, _, _, _, hev, hcat⟩
  · exact ⟨g', h', hev.paired h.paired, fun p hp => h.normal p (hev.times_sublist.subset hp),
      hev.tally h.normal h.tally⟩
  · refine ⟨g', h', ?_, fun p hp => ?_, hev.tally h.normal h.tally⟩
    · have hpaired := hev.paired h.paired
      simpa [hcat, Catalog.addRegion, Catalog.addSig] using hpaired
    · rw [hcat] at hp
      exact h.normal p (hev.times_sublist.subset hp)

theorem Logged.deleted (h : Logged D t g t.env.1 t.env.2) :
    wlp (QueueIndexManager.deleteOldest recording) (fun _ => Audited D) t := by
  refine (QueueIndexManager.deleteOldest_spec h.inv).wlp.mono ?_
  rintro status t' ⟨g', hsh, -⟩
  have hev := hsh.evictions
  exact ⟨g', hsh.inv, hev.paired h.paired, fun p hp => h.normal p (hev.times_sublist.subset hp),
    hev.tally h.normal h.tally⟩

theorem Logged.freed (h : Logged D s g s.env log) (offset : Int) (sig : Signature) :
    wlp (QueueIndexManager.freeByOffset offset sig) (fun _ s' => ∃ g', Logged D s' g' s'.env log) s := by
  refine (QueueIndexManager.freeByOffset_spec h.inv offset sig).wlp.mono ?_
  rintro status s' (⟨-, rfl, -⟩ | ⟨-, henv, g', ext, h', hf, htimes⟩)
  · exact ⟨g, h⟩
  · obtain ⟨o, ho⟩ := hf.sigs
    have hpaired := h.paired
    refine ⟨g', h', by simpa [ho, hf.regions] using hpaired, ?_, ?_⟩
    · rw [htimes]
      exact h.normal
    · rw [henv]
      exact h.tally

theorem Logged.entered (h : Logged D s g s.env log) (offset : Int) :
    wlp (ProductQueue.enterTime offset) (fun _ s' => ∃ g', Logged D s' g' s'.env log) s := by
  have h1 := h.inv.control s.env.now.2 s.isFull s.smallestExtentSeen
  simp only [ProductQueue.enterTime, onEnv, wlp_bind, wlp_zoom, wlp_call]
  refine (tqAdd_spec h1 s.env.now.1 offset).mono ?_
  rintro status s2 ⟨hst, hs2, g2, key, h2, hstamp⟩
  have henv : s2.env = s.env.now.2 := by rw [hs2]
  obtain ⟨n, hkey, -⟩ := hstamp.first
  obtain ⟨pre, suf, hold, hnew⟩ := hstamp.times
  have hnow : s.env.now.1.Normal := h.tally.clock s.env.readings
  rw [if_neg (not_not.2 hst)]
  simp only [wlp_bind, wlp_zoom, wlp_call, wlp_pure]
  refine ⟨g2, h2.control _ _ _, ?_, ?_, h.tally.other ?_ ?_⟩
  · show (catalog s2 g2).sigs.card = (catalog s2 g2).regions.card
    rw [hstamp.rest]
    exact h.paired
  · intro p hp
    have hp : p ∈ (catalog s2 g2).times := hp
    rw [hnew, mem_append, mem_cons] at hp
    have hmem : p ∈ pre ∨ p ∈ suf → p.1.Normal :=
      fun hp => h.normal p (by rw [show (catalog s g).times = _ from hold]; simp [hp])
    rcases hp with hp | rfl | hp
    · exact hmem (.inl hp)
    · rw [hkey]
      exact hnow.iterate n
    · exact hmem (.inr hp)
  · rw [henv]
    rfl
  · rw [henv]
    rfl

/-- **One operation** keeps the invariant. -/
theorem record_spec (h : Audited D t) {op : ResidenceOp} (hop : op.Valid D.align) :
    wlp (op.record D) (fun _ => Audited D) t := by
  obtain ⟨g, h⟩ := h
  have hbeside : Logged D (t.inWorld t.env.1) g t.env.1 t.env.2 := ⟨{ h.inv with }, h.paired, h.normal, h.tally⟩
  cases op with
  | allocateProductSpace extent sig => exact wlp_bind.2 ((h.allocated hop.1 hop.2 sig).mono fun _ _ h' => wlp_pure.2 h')
  | deleteOldest => exact wlp_bind.2 (h.deleted.mono fun _ _ h' => wlp_pure.2 h')
  | clearMvrt => exact wlp_zoom.2 (wlp_call.2 ⟨g, h.inv.control _ _ _, h.paired, h.normal, h.tally.clear⟩)
  | trackAllocation offset extent =>
    refine besides_spec (wlp_modify.2 ⟨g, hbeside.inv.tracked offset extent, h.paired, h.normal, h.tally.other rfl rfl⟩)
  | freeByOffset offset sig =>
    exact besides_spec (wlp_bind.2 ((hbeside.freed offset sig).mono fun _ _ h' => wlp_pure.2 h'))
  | enterTime offset => exact besides_spec (wlp_bind.2 ((hbeside.entered offset).mono fun _ _ h' => wlp_pure.2 h'))
  | write disk =>
    exact besides_spec (wlp_modify.2 ⟨g, hbeside.inv.control _ _ _, h.paired, h.normal, h.tally.other rfl rfl⟩)
  | clear => exact besides_spec (wlp_modify.2 ⟨g, hbeside.inv.control _ _ _, h.paired, h.normal, h.tally⟩)

/-! ## A run with a record is a run -/

def Beneath (p : Recorded) (w : World) : Prop := w = p.1

theorem follow_recording (a : Catalog) : Follow Beneath recording ProductQueue.callbacks a where
  decode _ _ _ _ _ := by
    rintro e _ rfl
    exact ⟨rfl, rfl⟩
  mvrt _ _ _ := by
    rintro e _ rfl
    rfl

theorem besides_twin (m : Prog (QueueIndexManager World) α) :
    Lockstep (Twin Beneath) (besides m) m t (t.inWorld t.env.1) := by
  rw [Lockstep, besides, returned_zoom_eq]
  cases (m (t.inWorld t.env.1)).returned with
  | none => exact .none
  | some p => exact .some ⟨rfl, p.2.env, rfl, rfl⟩

/-- **One operation**: with a record it does the same. -/
theorem record_twin (h : Audited D t) {op : ResidenceOp} (hop : op.Valid D.align) :
    Lockstep (Twin Beneath) (op.record D) (op.run D) t (t.inWorld t.env.1) := by
  obtain ⟨g, h⟩ := h
  cases op with
  | allocateProductSpace extent sig =>
    have htwin := QueueIndexManager.allocateProductSpace_twin h.inv (follow_recording _) rfl hop.1 hop.2 sig
    exact twin_then htwin fun _ => twins_pure _
  | deleteOldest =>
    exact twin_then (QueueIndexManager.deleteOldest_twin h.inv (follow_recording _) rfl) fun _ => twins_pure _
  | clearMvrt =>
    refine twins_onEnv (E := Beneath) ?_ rfl
    rintro _ _ rfl
    exact ⟨rfl, rfl⟩
  | trackAllocation offset extent => exact besides_twin _
  | freeByOffset offset sig => exact besides_twin _
  | enterTime offset => exact besides_twin _
  | write disk => exact besides_twin _
  | clear => exact besides_twin _

/-- **A sequence of operations**: it does the same with a record, and the header shows the minimum over the log. -/
theorem forM_record : ∀ {ops : List ResidenceOp} {t : QueueIndexManager Recorded}, Audited D t →
    (∀ op ∈ ops, op.Valid D.align) →
    Lockstep (fun _ t' _ s' => Audited D t' ∧ s' = t'.inWorld t'.env.1) (ops.forM (record D)) (ops.forM (run D)) t
      (t.inWorld t.env.1)
  | [], _, h, _ => .pure ⟨h, rfl⟩
  | op :: ops, t, h, hops => by
    have hop := hops op mem_cons_self
    refine ((record_twin h hop).knowing (record_spec h hop)).bind ?_
    rintro _ t1 _ _ ⟨h1, -, _, rfl, rfl⟩
    exact forM_record h1 fun op' hop' => hops op' (mem_cons_of_mem _ hop')

theorem recordAll_twin (hal : s.align = D.align) (hclock : ∀ n, (s.env.clock n).Normal)
    (hnone : s.env.metrics.minVirtResTime = Timestamp.NONE) (nalloc : Nat) {ops : List ResidenceOp}
    (hops : ∀ op ∈ ops, op.Valid D.align) :
    Lockstep (fun _ t' _ s' => Audited D t' ∧ s' = t'.inWorld t'.env.1) (recordAll D nalloc ops) (runAll D nalloc ops)
      (s.inWorld (s.env, [])) s := by
  have htally : Tally s.env [] := ⟨hclock, fun _ he => absurd he not_mem_nil, fun _ => hnone⟩
  have hformat : wlp (besides (formatNew nalloc D.datao D.ixo)) (fun _ => Audited D) (s.inWorld (s.env, [])) := by
    refine besides_spec ((QueueIndexManager.formatNew_apart hal nalloc).mono ?_)
    rintro status s' ⟨henv, g, hg, hcat⟩
    refine ⟨g, hg, by rw [hcat]; rfl, fun p hp => ?_, ?_⟩
    · rw [hcat] at hp
      exact absurd hp not_mem_nil
    · rw [henv]
      exact htally
  refine ((besides_twin (t := s.inWorld (s.env, [])) _).knowing hformat).bind ?_
  rintro _ t1 _ _ ⟨h1, -, _, rfl, rfl⟩
  exact forM_record h1 hops

/-- **The recorded minimum is the minimum**: if the products evicted since `ClearMvrt` had normal arrival times the
header shows the shortest of their residence times, or `NONE`. -/
theorem mvrt_is_minimum (D : DataSection) (s s' : QueueIndexManager World) (hal : s.align = D.align)
    (hclock : ∀ n, (s.env.clock n).Normal) (hnone : s.env.metrics.minVirtResTime = Timestamp.NONE) (nalloc : Nat)
    (ops : List ResidenceOp) (hops : ∀ op ∈ ops, op.Valid D.align)
    (hrun : (runAll D nalloc ops s).returned = some ((), s')) :
    ∃ t, (recordAll D nalloc ops (s.inWorld (s.env, []))).returned = some ((), t) ∧ s' = t.inWorld t.env.1 ∧
      ((∀ e ∈ t.env.2, e.arrival.Normal) → s'.env.metrics.minVirtResTime.Shows (leastResidence t.env.2)) := by
  obtain ⟨_, t, ht, ⟨g, h⟩, rfl⟩ := (recordAll_twin hal hclock hnone nalloc hops).swap.returned hrun
  exact ⟨t, ht, rfl, h.tally.shown⟩

def arrived (mem : Xdr.Memory) (offset : Int) (n : UInt8) (arrival : Timestamp) : Xdr.Memory :=
  (SunRpcSerializer.encodeProdInfo mem offset 400 { sampleInfo n with arrival := arrival }).2

def twoEvictions : List ResidenceOp :=
  let first := arrived (fun _ => 0) 4096 1 ⟨0, 500000⟩
  [allocateProductSpace 400 (Signature.fill 1), write first, enterTime 4096,
    allocateProductSpace 400 (Signature.fill 2), write (arrived first 4496 2 ⟨9, 0⟩), enterTime 4496,
    deleteOldest, deleteOldest]

def twoEvicted : List Eviction := [⟨⟨0, 500000⟩, ⟨1, 0⟩, ⟨5, 0⟩⟩, ⟨⟨9, 0⟩, ⟨3, 0⟩, ⟨6, 0⟩⟩]

theorem twoEvictions_recorded : (recordAll smallSection 4 twoEvictions
    ((blankQueue 8 tick).ix.inWorld ((blankQueue 8 tick).ix.env, []))).returned.map
      (fun p => (p.2.env.1.metrics.minVirtResTime, p.2.env.2)) = some (⟨3, 0⟩, twoEvicted) := by
  decide +kernel

theorem twoEvictions_valid : ∀ op ∈ twoEvictions, op.Valid 8 := by
  intro op hop
  cases op with
  | allocateProductSpace extent sig =>
    simp [twoEvictions] at hop
    show 1 ≤ extent ∧ extent + 8 ≤ 2 ^ 64
    omega
  | _ => trivial

theorem tick_normal (n : Nat) : (tick n).Normal := ⟨Int.le_refl 0, (by decide : (0 : Int) ≤ 999999)⟩

theorem mvrt_is_minimum_two : ∃ (s' : QueueIndexManager World) (t : QueueIndexManager Recorded),
    (runAll QueueIndexManager.smallSection 4 twoEvictions (blankQueue 8 tick).ix).returned = some ((), s') ∧
    s'.env.metrics.minVirtResTime = ⟨3, 0⟩ ∧ t.env.2 = twoEvicted ∧
    s'.env.metrics.minVirtResTime.Shows (leastResidence t.env.2) := by
  obtain ⟨⟨_, t⟩, ht, hlog⟩ := Option.map_eq_some_iff.1 twoEvictions_recorded
  simp only [Prod.mk.injEq] at hlog
  obtain ⟨_, s', hrun, -, hs'⟩ :=
    (recordAll_twin (s := (blankQueue 8 tick).ix) rfl tick_normal rfl 4 twoEvictions_valid).returned ht
  obtain ⟨t', ht', -, hshown⟩ := mvrt_is_minimum smallSection (blankQueue 8 tick).ix s' rfl tick_normal rfl 4
    twoEvictions twoEvictions_valid hrun
  rw [ht] at ht'
  cases ht'
  refine ⟨s', t, hrun, ?_, hlog.2, hshown ?_⟩
  · rw [hs']
    exact hlog.1
  · rw [hlog.2]
    show ∀ e ∈ twoEvicted, 0 ≤ e.arrival.usec ∧ e.arrival.usec ≤ 999999
    decide

end ResidenceOp

end Rdm
