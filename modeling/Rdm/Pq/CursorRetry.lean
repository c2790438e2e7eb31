import Mathlib.Data.Finset.Max
import Rdm.Pq.CursorStart
import Rdm.Pq.Traversal

/-!
# Callbacks that refuse

A callback of `sequence` that reports an error gets the same product again forwards (`retry_forwards`), but not
backwards (`retry_backwards_skips`). `setCursorToLast` does not set `outTimestamp` (`cursor_to_last`).
-/

namespace Rdm

open ProgLogic ProgLogic.Prog Xdr SunRpcSerializer QueueIndexManager List
open QueueCursor
open Timestamp (ENDT ZERO)

variable {D : DataSection} {q : ProductQueue} {st : Store} {contains : ProdInfo → Bool} {a : Audit}

/-! ## One step -/

theorem sequence_returns (h : Holds D q st) {mt : Match} (hmt : mt ≠ .equal) (callback : Delivery → Int) (mapped : Bool)
    {cursor : Timestamp} (hc : sequenceStart mt cursor ≤ ENDT)
    (hpos : ∀ p, neighbour q.ix.times (sequenceStart mt cursor) mt = some p → 0 ≤ p.1.sec ∧ 0 ≤ p.1.usec) :
    wp (sequence mt contains (some callback) mapped cursor) (fun _ _ => True) q := by
  obtain ⟨⟨g, hk⟩, -⟩ := h
  obtain ⟨k, hpure, heq⟩ := sequence_peek callback
  rw [heq, wp_bind, wp_assert, wp_locked]
  exact ⟨fun _ => hmt, peek_returns hk.inv hpure hmt hc hpos⟩

theorem silent_sequence (mt : Match) (callback : Delivery → Int) (mapped : Bool) (cursor : Timestamp) :
    Silent (sequence mt contains (some callback) mapped cursor) := by
  obtain ⟨k, hpure, heq⟩ := sequence_peek callback
  rw [heq]
  exact silent_assert.bind fun _ => silent_locked (silent_peek hpure)

/-! ## Trying again -/

theorem Timestamp.decrementMicrosecond_lt (t : Timestamp) : t.decrementMicrosecond < t := by
  unfold decrementMicrosecond
  split <;> simp [lt_iff]

theorem Timestamp.decrementMicrosecond_ne_none (t : Timestamp) : t.decrementMicrosecond ≠ NONE := by
  unfold decrementMicrosecond
  split
  · simp [NONE]
  · simp only [NONE, ne_eq, mk.injEq, not_and]
    omega

theorem Timestamp.Normal.le_of_decrement_lt {t u : Timestamp} (ht : t.Normal) (hu : u.Normal)
    (h : t.decrementMicrosecond < u) : t ≤ u := by
  obtain ⟨h0, h1⟩ := ht
  obtain ⟨h0', h1'⟩ := hu
  rw [decrementMicrosecond] at h
  split at h
  · rw [lt_iff] at h
    rw [le_iff]
    simp only at h
    omega
  · rw [lt_iff] at h
    rw [le_iff]
    simp only at h
    omega

theorem neighbour_decrement {times : List (Timestamp × Int)} (hs : times.Pairwise fun p p' => p.1 < p'.1)
    (hn : ∀ p ∈ times, p.1.Normal) {t : Timestamp} {off : Int} (hm : (t, off) ∈ times) :
    neighbour times t.decrementMicrosecond .greaterThan = some (t, off) := by
  cases hf : neighbour times t.decrementMicrosecond .greaterThan with
  | none =>
    have hf : neighbour times t.decrementMicrosecond (matchOf false) = none := hf
    exact absurd t.decrementMicrosecond_lt (not_ahead_of_neighbour hf _ hm)
  | some p =>
    have hf : neighbour times t.decrementMicrosecond (matchOf false) = some p := hf
    obtain ⟨hp, hlt, hfirst⟩ := neighbour_ahead hs hf
    rcases hfirst _ hm t.decrementMicrosecond_lt with rfl | hbefore
    · rfl
    · -- it would be between the time and the microsecond before it
      exact absurd ((hn _ hm).le_of_decrement_lt (hn _ hp) hlt) (not_le.2 hbefore)

inductive Quiet (D : DataSection) (a₀ : Audit) : Audit → Prop
  | refl : Quiet D a₀ a₀
  | step {a : Audit} {op : QueueOp} {res : Stepped} {q' : ProductQueue} : Quiet D a₀ a → (∀ i, op ≠ .commit i) →
      op.Valid a.queue → (op.run D a.queue).returned = some (res, q') → Quiet D a₀ (a.note op res q')

theorem Quiet.reached {b : Audit} (h : Quiet D a b) (ha : Reached D (fun _ => True) a) :
    Reached D (fun _ => True) b := by
  induction h with
  | refl => exact ha
  | step _ _ hv hrun ih => exact .step ih trivial hv hrun

theorem Quiet.live {b : Audit} (h : Quiet D a b) : ∀ p ∈ b.store.live, p ∈ a.store.live := by
  induction h with
  | refl => exact fun _ hp => hp
  | step _ hop _ _ ih => exact fun p hp => ih p (Store.after_live hop p hp)

/-- **A callback that refuses a product gets it again**, forwards: if the product is still in the queue and nothing was
committed, the next call hands it over. -/
theorem retry_forwards (D : DataSection) {a b : Audit} (ha : Reached D (fun _ => True) a) {contains : ProdInfo → Bool}
    {callback : Delivery → Int} {mapped : Bool} {cursor : Timestamp} {res : Stepped} {q' : ProductQueue}
    (hrun : ((QueueOp.sequence .greaterThan contains (some callback) mapped cursor).run D a.queue).returned =
      some (res, q'))
    {d : Delivery} (hd : res.delivery = some d) (hst : res.status ≠ 0)
    (hquiet : Quiet D (a.note (.sequence .greaterThan contains (some callback) mapped cursor) res q') b)
    (hstill : (d.inserted, d.offset) ∈ b.queue.ix.times) (hclock : ∀ p ∈ a.queue.ix.times, p.1.Normal)
    (callback' : Delivery → Int) :
    ∃ res' q'' d', (sequence .greaterThan contains (some callback') true res.cursor b.queue).returned =
        some (res', q'') ∧ res'.delivery = some d' ∧ d'.inserted = d.inserted ∧ d'.offset = d.offset ∧
        d'.info = d.info ∧
      readBytes b.queue.ix.env.disk d'.data d'.info.sz.toNat = readBytes a.queue.ix.env.disk d.data
        d.info.sz.toNat := by
  have hmt : Match.greaterThan ≠ .equal := by decide
  -- the first call
  obtain ⟨-, ⟨he, -⟩ | ⟨-, rfl⟩ | ⟨t, pg, hlive, -, hsec, husec, hat⟩⟩ :=
    (sequence_exact ha.holds .greaterThan contains callback mapped cursor).of_returned hrun
  · exact absurd he hmt
  · cases hd
  obtain ⟨hcon, hof, hstatus, hcursor⟩ := hat.delivered hd
  have hcursor : res.cursor = t.decrementMicrosecond := hcursor.trans (if_pos ⟨hstatus ▸ hst, rfl⟩)
  -- the product is still the one that has this time
  have hb := hquiet.reached (.step ha trivial trivial hrun)
  have hsub : ∀ p ∈ b.store.live, p ∈ a.store.live := hquiet.live
  rw [hof.inserted, hof.offset] at hstill
  have hpage : ∀ {pg'}, (t, pg') ∈ b.store.live → pg'.offset = pg.offset → pg' = pg := fun hl he =>
    ha.times_live.2.2 _ _ _ (hsub _ hl) hlive he
  have hnormal : ∀ p ∈ b.queue.ix.times, p.1.Normal := by
    intro p hp
    obtain ⟨pg', hl, -⟩ := (hb.times_live.2.1 _ _).1 hp
    exact hclock (p.1, pg'.offset) ((ha.times_live.2.1 _ _).2 ⟨pg', hsub _ hl, rfl⟩)
  -- the second call
  have hfound := neighbour_decrement hb.holds.sorted hnormal hstill
  have hstart : sequenceStart .greaterThan res.cursor = t.decrementMicrosecond := by
    rw [hcursor, sequenceStart, if_neg t.decrementMicrosecond_ne_none]
  have hend : sequenceStart .greaterThan res.cursor ≤ ENDT := by
    rw [hstart]
    exact le_of_lt (lt_trans t.decrementMicrosecond_lt (hb.holds.lt_endt hstill))
  have hpos : ∀ p, neighbour b.queue.ix.times (sequenceStart .greaterThan res.cursor) .greaterThan = some p →
      0 ≤ p.1.sec ∧ 0 ≤ p.1.usec := by
    intro p hp
    rw [hstart, hfound] at hp
    cases hp
    exact ⟨hsec, husec⟩
  obtain ⟨res', q'', hrun', -, hsecond⟩ := ((sequence_exact hb.holds _ contains callback' true res.cursor).total
    (sequence_returns hb.holds hmt callback' true hend hpos)).returns (silent_sequence _ _ _ _)
  rw [hstart, hfound] at hsecond
  obtain ⟨he, -⟩ | ⟨hno, -⟩ | ⟨t', pg', hlive', hsome, -, -, hat'⟩ := hsecond
  · exact absurd he hmt
  · cases hno
  obtain ⟨rfl, he⟩ := Prod.mk.inj (Option.some.inj hsome)
  obtain rfl := hpage hlive' he.symm
  rw [SequenceAt, if_neg (by decide), if_pos hcon] at hat'
  obtain ⟨d', hof', rfl⟩ := hat'
  refine ⟨_, q'', d', hrun', rfl, ?_, ?_, ?_, ?_⟩
  · rw [hof'.inserted, hof.inserted]
  · rw [hof'.offset, hof.offset]
  · rw [hof'.info, hof.info]
  · rw [hof'.data, hof.data]

def refusedOnce (mt : Match) : Option (Audit × Stepped × ProductQueue) :=
  (computedRun smallSection tick pairOps).bind fun a =>
    ((QueueOp.sequence mt (fun _ => true) (some fun _ => 5) true Timestamp.NONE).run smallSection
      a.queue).returned.map fun r => (a, r)

theorem exists_refusedOnce {mt : Match} {Q : Audit → Stepped → ProductQueue → Prop}
    (h : ∃ a r, refusedOnce mt = some (a, r) ∧ Q a r.1 r.2) : ∃ a res q', Reached smallSection (fun _ => True) a ∧
      ((QueueOp.sequence mt (fun _ => true) (some fun _ => 5) true Timestamp.NONE).run smallSection
        a.queue).returned = some (res, q') ∧ Q a res q' := by
  obtain ⟨a, r, hrefused, hq⟩ := h
  obtain ⟨a1, ha, hrun⟩ := Option.bind_eq_some_iff.1 hrefused
  obtain ⟨r1, hrun, he⟩ := Option.map_eq_some_iff.1 hrun
  cases he
  exact ⟨a, r.1, r.2, computedRun_reached (fun _ _ => trivial) ha, hrun, hq⟩

theorem retry_forwards_pair : ∃ (a : Audit) (res res' : Stepped) (q' q'' : ProductQueue) (d d' : Delivery),
    Reached smallSection (fun _ => True) a ∧
    ((QueueOp.sequence .greaterThan (fun _ => true) (some fun _ => 5) true Timestamp.NONE).run
    smallSection
      a.queue).returned = some (res, q') ∧ res.delivery = some d ∧ d.inserted = ⟨1, 0⟩ ∧
    (sequence .greaterThan (fun _ => true) (some fun _ => 5) true res.cursor q').returned =
      some (res', q'') ∧
    res'.delivery = some d' ∧ d'.inserted = d.inserted ∧ d'.offset = d.offset ∧ d'.info = d.info := by
  obtain ⟨a, res, q', ha, hfirst, hst, hclock, d, hd, hins, hstill⟩ : ∃ (a : Audit) (res : Stepped) (q' : ProductQueue),
      Reached smallSection (fun _ => True) a ∧
      ((QueueOp.sequence .greaterThan (fun _ => true) (some fun _ => 5) true Timestamp.NONE).run smallSection
        a.queue).returned = some (res, q') ∧ res.status ≠ 0 ∧ (∀ p ∈ a.queue.ix.times, p.1.Normal) ∧
      ∃ d, res.delivery = some d ∧ d.inserted = ⟨1, 0⟩ ∧ (d.inserted, d.offset) ∈ q'.ix.times := by
    apply exists_refusedOnce
    decide +kernel
  obtain ⟨res', q'', d', hsecond, hd', hins', hoff', hinfo', -⟩ := retry_forwards smallSection ha hfirst hd hst .refl
    hstill hclock fun _ => 5
  exact ⟨a, res, res', q', q'', d, d', ha, hfirst, hd, hins, hsecond, hd', hins', hoff', hinfo'⟩

/-- **Backwards the product is passed over**: the next call hands over the one before it. -/
theorem retry_backwards_skips : ∃ (a : Audit) (res res' : Stepped) (q' q'' : ProductQueue) (d d' : Delivery),
    Reached smallSection (fun _ => True) a ∧
    ((QueueOp.sequence .lessThan (fun _ => true) (some fun _ => 5) true Timestamp.NONE).run
    smallSection
      a.queue).returned = some (res, q') ∧ res.status = 5 ∧ res.delivery = some d ∧
    (d.inserted, d.offset) ∈ q'.ix.times ∧
    (sequence .lessThan (fun _ => true) (some fun _ => 5) true res.cursor q').returned = some (res', q'') ∧
    res'.delivery = some d' ∧ d.inserted = ⟨3, 0⟩ ∧ d'.inserted = ⟨1, 0⟩ := by
  obtain ⟨a, res, q', ha, hfirst, hst, ⟨d, hd, hins, hmem⟩, res', q'', hsecond, d', hd', hins'⟩ :
      ∃ (a : Audit) (res : Stepped) (q' : ProductQueue), Reached smallSection (fun _ => True) a ∧
      ((QueueOp.sequence .lessThan (fun _ => true) (some fun _ => 5) true Timestamp.NONE).run smallSection
        a.queue).returned = some (res, q') ∧ res.status = 5 ∧
      (∃ d, res.delivery = some d ∧ d.inserted = ⟨3, 0⟩ ∧ (d.inserted, d.offset) ∈ q'.ix.times) ∧
      ∃ res' q'', (sequence .lessThan (fun _ => true) (some fun _ => 5) true res.cursor q').returned =
        some (res', q'') ∧ ∃ d', res'.delivery = some d' ∧ d'.inserted = ⟨1, 0⟩ := by
    apply exists_refusedOnce
    decide +kernel
  exact ⟨a, res, res', q', q'', d, d', ha, hfirst, hst, hd, hmem, hsecond, hd', hins, hins'⟩

/-! ## The last product of a class -/

structure IsLast (contains : ProdInfo → Bool) (st : Store) (toTs t : Timestamp) (pg : Page) : Prop where
  live : (t, pg) ∈ st.live
  inClass : contains (stored pg.info) = true
  before : t < toTs
  last : ∀ t' pg', (t', pg') ∈ st.live → contains (stored pg'.info) = true → t' < toTs → t' ≤ t

/-- The entries that the search passes on the way to `t`. -/
def between (times : List (Timestamp × Int)) (t key : Timestamp) : List (Timestamp × Int) :=
  times.filter fun p => decide (t < p.1) && decide (p.1 < key)

theorem between_eq (times : List (Timestamp × Int)) (t key : Timestamp) :
    between times t key = (times.filter fun p => decide (p.1 < key)).filter fun p => decide (t < p.1) :=
  filter_filter.symm

section

variable {times : List (Timestamp × Int)} {key t : Timestamp} {p : Timestamp × Int}
variable (hs : times.Pairwise fun p p' => p.1 < p'.1) (h : neighbour times key .lessThan = some p)
include hs h

theorem before_concat : (times.filter fun p' => decide (p'.1 < key)) =
    (times.filter fun p' => decide (p'.1 < p.1)) ++ [p] := by
  obtain ⟨front, hf⟩ := getLast?_eq_some_iff.1 h
  have hlt : p.1 < key := by
    have hp : p ∈ times.filter fun p' => decide (p'.1 < key) := by rw [hf]; simp
    exact of_decide_eq_true (mem_filter.1 hp).2
  have hfront : ∀ p' ∈ front, p'.1 < p.1 := by
    have hsf := hs.sublist (filter_sublist (p := fun p' => decide (p'.1 < key)))
    rw [hf] at hsf
    exact fun p' hp' => (pairwise_append.1 hsf).2.2 p' hp' p (mem_singleton.2 rfl)
  have hsplit : (times.filter fun p' => decide (p'.1 < p.1)) =
      (times.filter fun p' => decide (p'.1 < key)).filter fun p' => decide (p'.1 < p.1) := by
    rw [filter_filter]
    refine filter_congr fun p' _ => ?_
    by_cases hb : p'.1 < p.1
    · simp [hb, lt_trans hb hlt]
    · simp [hb]
  rw [hsplit, hf, filter_append, filter_eq_self.2 fun p' hp' => decide_eq_true (hfront p' hp')]
  simp

theorem between_next (hlt : t < p.1) : between times t key = between times t p.1 ++ [p] := by
  rw [between_eq, between_eq, before_concat hs h, filter_append, filter_singleton, decide_eq_true hlt]
  rfl

theorem between_self : between times p.1 key = [] := by
  rw [between_eq, before_concat hs h, filter_eq_nil_iff]
  intro p' hp'
  rcases mem_append.1 hp' with hp' | hp'
  · simpa using le_of_lt (of_decide_eq_true (mem_filter.1 hp').2)
  · simp [mem_singleton.1 hp']

end

/-- **The search for the last product.** The induction is on the rounds; `hfuel` says that there are enough of them. The
callback never returns 0, so `legacyOut` is as at the beginning. -/
theorem searchLast_spec {outTimestamp : Timestamp} : ∀ {fuel : Nat} {q : ProductQueue} {mapped : Nat → Bool}
    {cursor : Timestamp}, Holds D q st → 0 ≤ cursor.sec → cursor ≤ ENDT →
    (∀ p ∈ q.ix.times, p.1 < cursor → 0 ≤ p.1.sec ∧ 0 ≤ p.1.usec) →
    (q.ix.times.filter fun p => decide (p.1 < cursor)).length < fuel →
    wp (searchLast contains outTimestamp fuel mapped ZERO cursor) (fun res _ => res.outTimestamp = outTimestamp ∧
      ∀ t pg, IsLast contains st cursor t pg →
        (res.cursor = t ↔ ∀ n < (between q.ix.times t cursor).length, mapped n = true)) q
  | 0, _, _, _, _, _, _, _, hfuel => absurd hfuel (Nat.not_lt_zero _)
  | fuel + 1, q, mapped, cursor, h, hsec, hend, hpos, hfuel => by
    have hmt : Match.lessThan ≠ .equal := by decide
    have hstart : sequenceStart .lessThan cursor = cursor := by
      rw [sequenceStart, if_neg]
      rintro rfl
      exact absurd hsec (by decide)
    have hstep : ∀ p, neighbour q.ix.times (sequenceStart .lessThan cursor) .lessThan = some p →
        0 ≤ p.1.sec ∧ 0 ≤ p.1.usec := by
      intro p hp
      rw [hstart] at hp
      obtain ⟨hm, hlt⟩ := mem_filter.1 (mem_of_getLast? hp)
      exact hpos p hm (of_decide_eq_true hlt)
    rw [searchLast, wp_bind]
    refine ((sequence_exact h _ contains _ _ cursor).total
      (sequence_returns h hmt _ _ ((le_of_eq hstart).trans hend) hstep)).mono ?_
    simp only [hstart]
    rintro res q' ⟨rfl, ⟨he, -⟩ | ⟨hnone, rfl⟩ | ⟨t, pg, hlive, hsome, ht0, -, hat⟩⟩
    · exact absurd he hmt
    · -- nothing is left
      dsimp only
      rw [if_neg (by decide)]
      refine wp_pure.2 ⟨rfl, fun t pg hl => absurd hl.before ?_⟩
      have hnone : neighbour q.ix.times cursor (matchOf true) = none := hnone
      exact not_ahead_of_neighbour hnone _ (h.mem_times.2 ⟨pg, hl.live, rfl⟩)
    · have hahead : neighbour q.ix.times cursor (matchOf true) = some (t, pg.offset) := hsome
      obtain ⟨hmem, hlt, hfirst⟩ := neighbour_ahead h.sorted hahead
      have hlt : t < cursor := hlt
      have hne : t ≠ ENDT := ne_of_lt (h.lt_endt hmem)
      have hself : between q.ix.times t cursor = [] := between_self h.sorted hsome
      have hle : ∀ t' pg', (t', pg') ∈ st.live → t' < cursor → (t', pg') = (t, pg) ∨ t' < t := by
        intro t' pg' hl hb
        refine (hfirst (t', pg'.offset) (h.mem_times.2 ⟨pg', hl, rfl⟩) hb).imp_left fun he => ?_
        obtain ⟨⟨g, hk⟩, -⟩ := h
        exact hk.books.live_unique hl hlive (congrArg Prod.snd he)
      rw [SequenceAt] at hat
      split at hat
      case isTrue hmap =>
        -- the cursor stays at the entry whose region cannot be mapped
        rw [hat]
        dsimp only
        rw [if_neg (by decide), if_neg hne]
        refine wp_pure.2 ⟨rfl, fun t' pg' hl => ?_⟩
        rcases hle t' pg' hl.live hl.before with he | hlt'
        · obtain rfl : t' = t := congrArg Prod.fst he
          simp [hself]
        · rw [between_next h.sorted hsome hlt']
          refine iff_of_false (ne_of_gt hlt') fun hall => ?_
          have h0 := hall 0 (by simp)
          rw [hmap] at h0
          cases h0
      case isFalse hmap =>
        have hmap : mapped 0 = true := by simpa using hmap
        split at hat
        case isTrue hc =>
          -- the callback ends the search
          obtain ⟨d, -, rfl⟩ := hat
          dsimp only
          have hstay : ¬ (PqStatus.end.toInt ≠ 0 ∧ Match.lessThan = .greaterThan) := by decide
          rw [if_neg (by decide), if_neg hstay, if_neg hne]
          refine wp_pure.2 ⟨rfl, fun t' pg' hl => ?_⟩
          rcases hle t' pg' hl.live hl.before with he | hlt'
          · obtain rfl : t' = t := congrArg Prod.fst he
            simp [hself]
          · exact absurd (hl.last t pg hlive hc hlt) (not_le.2 hlt')
        case isFalse hc =>
          -- another round, from the entry that was found
          rw [hat]
          simp only [Option.map_none, Option.getD_none, if_true]
          rw [if_neg (not_lt.2 (show ZERO.sec ≤ t.sec from ht0))]
          have hfuel' : (q.ix.times.filter fun p => decide (p.1 < t)).length < fuel := by
            rw [before_concat h.sorted hsome, length_append] at hfuel
            exact Nat.lt_of_succ_lt_succ hfuel
          refine (searchLast_spec h.afterRead ht0 (le_of_lt (lt_of_lt_of_le hlt hend))
            (fun p hp hb => hpos p hp (lt_trans hb hlt)) hfuel').mono ?_
          rintro res' q'' ⟨hout, hlast⟩
          refine ⟨hout, fun t' pg' hl => ?_⟩
          have hlt' : t' < t := by
            refine (hle t' pg' hl.live hl.before).resolve_left fun he => hc ?_
            cases he
            exact hl.inClass
          have hrest :=
            hlast t' pg' ⟨hl.live, hl.inClass, hlt', fun u pu hu hcu hb => hl.last u pu hu hcu (lt_trans hb hlt)⟩
          rw [hrest, between_next h.sorted hsome hlt', length_append, length_singleton]
          rw [Nat.forall_lt_succ_left, and_iff_right hmap]
          exact Iff.rfl

theorem silent_searchLast {outTimestamp : Timestamp} : ∀ (fuel : Nat) (mapped : Nat → Bool)
    (legacyOut cursor : Timestamp), Silent (searchLast contains outTimestamp fuel mapped legacyOut cursor)
  | 0, _, _, _ => silent_ofOption
  | fuel + 1, _, _, _ => (silent_sequence _ _ _ _).bind fun _ =>
    silent_ite (silent_ite silent_pure (silent_searchLast fuel _ _ _)) silent_pure

def Earlier (contains : ProdInfo → Bool) (st : Store) (toTs : Timestamp) : Prop :=
  ∃ t pg, (t, pg) ∈ st.live ∧ contains (stored pg.info) = true ∧ t < toTs

/-- **The cursor goes to the last product of a class** exactly if the regions of the products behind it can be mapped,
and `outTimestamp` is what it was. -/
theorem cursor_to_last (D : DataSection) {P : QueueOp → Prop} {a : Audit} (ha : Reached D P a)
    (contains : ProdInfo → Bool) {toTs : Timestamp} (hto : InRange toTs) (mapped : Nat → Bool)
    (hpos : ∀ p ∈ a.queue.ix.times, p.1 < toTs → 0 ≤ p.1.sec ∧ 0 ≤ p.1.usec) (outTimestamp : Timestamp) :
    (∃ res q', (setCursorToLast contains toTs mapped outTimestamp a.queue).returned = some (res, q') ∧
      (∀ t pg, IsLast contains a.store toTs t pg → res.cursor = t ∧ res.outTimestamp = (stored pg.info).arrival) ∧
      (¬ Earlier contains a.store toTs → res.outTimestamp = outTimestamp)) ↔
    ∀ t pg, IsLast contains a.store toTs t pg → outTimestamp = (stored pg.info).arrival ∧
      ∀ n < (between a.queue.ix.times t toTs).length, mapped n = true := by
  have hfuel : (a.queue.ix.times.filter fun p => decide (p.1 < toTs)).length < a.queue.ix.tq.nalloc + 1 := by
    obtain ⟨⟨g, hk⟩, -⟩ := ha.holds
    have hlen : g.ts.length + g.tfl.length = a.queue.ix.tq.nalloc := hk.inv.time.length
    have htimes : a.queue.ix.times.length = g.ts.length := by rw [hk.inv.times_eq, catalog, length_map]
    have hle := length_filter_le (fun p => decide (p.1 < toTs)) a.queue.ix.times
    omega
  have hwp : wp (setCursorToLast contains toTs mapped outTimestamp) (fun res _ => res.outTimestamp = outTimestamp ∧
      ∀ t pg, IsLast contains a.store toTs t pg →
        (res.cursor = t ↔ ∀ n < (between a.queue.ix.times t toTs).length, mapped n = true)) a.queue := by
    rw [setCursorToLast, wp_bind, wp_zoom, cset, wp_assert]
    refine ⟨⟨hto.1, hto.2.1⟩, ?_⟩
    rw [wp_bind, wp_read]
    exact searchLast_spec ha.holds hto.1 hto.2.2 hpos hfuel
  have hsilent : Silent (setCursorToLast contains toTs mapped outTimestamp) :=
    silent_assert.zoom.bind fun _ => silent_read.bind fun _ => silent_searchLast _ _ _ _
  obtain ⟨res, q', hrun, hsame, hcursor⟩ := hwp.returns hsilent
  refine ⟨?_, fun hwhen => ⟨res, q', hrun, fun t pg hlast => ?_, fun _ => hsame⟩⟩
  · rintro ⟨_, _, hrun', hfound, -⟩ t pg hlast
    cases hrun'.symm.trans hrun
    obtain ⟨hcur, harr⟩ := hfound t pg hlast
    exact ⟨hsame.symm.trans harr, (hcursor t pg hlast).1 hcur⟩
  · obtain ⟨harr, hmap⟩ := hwhen t pg hlast
    exact ⟨(hcursor t pg hlast).2 hmap, hsame.trans harr⟩

theorem pairOps_last : ∃ a pg, Reached smallSection (fun _ => True) a ∧ IsLast (fun _ => true) a.store ENDT ⟨3, 0⟩ pg ∧
    (∀ e ∈ a.store.live, (stored e.2.info).arrival = ZERO) ∧ (∀ p ∈ a.queue.ix.times, 0 ≤ p.1.sec ∧ 0 ≤ p.1.usec) ∧
    ∃ res q', (setCursorToLast (fun _ => true) ENDT (fun _ => true) ⟨7, 7⟩ a.queue).returned = some (res, q') ∧
      res = ⟨0, ⟨3, 0⟩, ⟨7, 7⟩⟩ := by
  obtain ⟨a, ha, ⟨_, pg, hl, rfl⟩, hle, hrest⟩ : ∃ a : Audit, Reached smallSection (fun _ => True) a ∧
      (∃ t pg, (t, pg) ∈ a.store.live ∧ t = ⟨3, 0⟩) ∧ (∀ e ∈ a.store.live, e.1 ≤ ⟨3, 0⟩) ∧
      (∀ e ∈ a.store.live, (stored e.2.info).arrival = ZERO) ∧ (∀ p ∈ a.queue.ix.times, 0 ≤ p.1.sec ∧ 0 ≤ p.1.usec) ∧
      ∃ res q', (setCursorToLast (fun _ => true) ENDT (fun _ => true) ⟨7, 7⟩ a.queue).returned = some (res, q') ∧
        res = ⟨0, ⟨3, 0⟩, ⟨7, 7⟩⟩ := by
    apply exists_computed tick pairOps
    decide +kernel
  exact ⟨a, pg, ha, ⟨hl, rfl, by decide, fun t' pg' hl' _ _ => hle (t', pg') hl'⟩, hrest⟩

theorem cursor_to_last_pair : ∃ (a : Audit) (res : ToLast) (q' : ProductQueue) (pg : Page),
    Reached smallSection (fun _ => True) a ∧ IsLast (fun _ => true) a.store Timestamp.ENDT ⟨3, 0⟩ pg ∧
    (setCursorToLast (fun _ => true) Timestamp.ENDT (fun _ => true) Timestamp.ZERO a.queue).returned = some (res, q') ∧
    res.cursor = ⟨3, 0⟩ ∧ res.outTimestamp = (stored pg.info).arrival := by
  obtain ⟨a, pg, hreach, hlast, harr, hpos, -⟩ := pairOps_last
  have hiff := cursor_to_last smallSection hreach (fun _ => true) (show InRange ENDT by decide) (fun _ => true)
    (fun p hp _ => hpos p hp) ZERO
  obtain ⟨res, q', hrun, hfound, -⟩ := hiff.2 fun t pg hl => ⟨(harr (t, pg) hl.live).symm, fun _ _ => rfl⟩
  exact ⟨a, res, q', pg, hreach, hlast, hrun, hfound _ pg hlast⟩

/-- **`outTimestamp` is not set**: the cursor goes to the last product, which arrived at another time. -/
theorem cursor_to_last_unset : ∃ (a : Audit) (res : ToLast) (q' : ProductQueue) (pg : Page),
    Reached smallSection (fun _ => True) a ∧ IsLast (fun _ => true) a.store Timestamp.ENDT ⟨3, 0⟩ pg ∧
    (setCursorToLast (fun _ => true) Timestamp.ENDT (fun _ => true) ⟨7, 7⟩ a.queue).returned = some (res, q') ∧
    res = ⟨0, ⟨3, 0⟩, ⟨7, 7⟩⟩ ∧ (stored pg.info).arrival = Timestamp.ZERO := by
  obtain ⟨a, pg, hreach, hlast, harr, -, res, q', hcall, he⟩ := pairOps_last
  exact ⟨a, res, q', pg, hreach, hlast, hcall, he, harr _ hlast.live⟩

end Rdm
