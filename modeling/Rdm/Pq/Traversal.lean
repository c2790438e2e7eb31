import Rdm.Pq.Consistency

/-!
# Traversals

A reader calls `next` from one end of time to the other while other clients delete products. All products that stay are
delivered once and in order (`Progress`).
-/

namespace Rdm

open ProgLogic ProgLogic.Prog Xdr SunRpcSerializer QueueCursor List
open Timestamp (ENDT ZERO)

variable {D : DataSection} {a₀ a : Audit} {reverse : Bool} {contains : ProdInfo → Bool} {c : Timestamp}
variable {ds : List Delivery}
variable {ms : List Timestamp}

/-! ## The direction of a reader -/

/-- A cursor at `t` has `u` ahead. -/
def Ahead (reverse : Bool) (t u : Timestamp) : Prop := if reverse then u < t else t < u

theorem Ahead.trans {t u v : Timestamp} (h : Ahead reverse t u) (h' : Ahead reverse u v) : Ahead reverse t v := by
  cases reverse with
  | false => exact lt_trans (α := Timestamp) h h'
  | true => exact lt_trans (α := Timestamp) h' h

theorem not_ahead_self (t : Timestamp) : ¬ Ahead reverse t t := by
  cases reverse <;> exact lt_irrefl t

theorem Ahead.ne {t u : Timestamp} (h : Ahead reverse t u) : t ≠ u := fun e => not_ahead_self u (e ▸ h)

def QueueCursor.matchOf (reverse : Bool) : Match := if reverse then .lessThan else .greaterThan

theorem neighbour_ahead {times : List (Timestamp × Int)} (hs : times.Pairwise fun p p' => p.1 < p'.1)
    {p : Timestamp × Int} (h : neighbour times c (matchOf reverse) = some p) : p ∈ times ∧ Ahead reverse c p.1 ∧
      ∀ p' ∈ times, Ahead reverse c p'.1 → p' = p ∨ Ahead reverse p.1 p'.1 := by
  cases reverse with
  | false =>
    obtain ⟨rest, hf⟩ := head?_eq_some_iff.1 h
    have hp : p ∈ times.filter fun p => decide (c < p.1) := by rw [hf]; exact mem_cons_self
    obtain ⟨hmem, hlt⟩ := mem_filter.1 hp
    refine ⟨hmem, by simpa [Ahead] using hlt, fun p' hp' hlt' => ?_⟩
    have hp' : p' ∈ times.filter fun p => decide (c < p.1) := mem_filter.2 ⟨hp', by simpa [Ahead] using hlt'⟩
    have hsf := hs.sublist (filter_sublist (p := fun p => decide (c < p.1)))
    rw [hf] at hp' hsf
    rcases mem_cons.1 hp' with he | hp'
    · exact .inl he
    · exact .inr ((pairwise_cons.1 hsf).1 p' hp')
  | true =>
    obtain ⟨rest, hf⟩ := getLast?_eq_some_iff.1 h
    have hp : p ∈ times.filter fun p => decide (p.1 < c) := by rw [hf]; simp
    obtain ⟨hmem, hlt⟩ := mem_filter.1 hp
    refine ⟨hmem, by simpa [Ahead] using hlt, fun p' hp' hlt' => ?_⟩
    have hp' : p' ∈ times.filter fun p => decide (p.1 < c) := mem_filter.2 ⟨hp', by simpa [Ahead] using hlt'⟩
    have hsf := hs.sublist (filter_sublist (p := fun p => decide (p.1 < c)))
    rw [hf] at hp' hsf
    rcases mem_append.1 hp' with hp' | hp'
    · exact .inr ((pairwise_append.1 hsf).2.2 p' hp' p (mem_singleton.2 rfl))
    · exact .inl (mem_singleton.1 hp')

theorem not_ahead_of_neighbour {times : List (Timestamp × Int)}
    (h : neighbour times c (matchOf reverse) = none) : ∀ p ∈ times, ¬ Ahead reverse c p.1 := by
  intro p hp
  cases reverse with
  | false =>
    have hnone := filter_eq_nil_iff.1 (head?_eq_none_iff.1 h) p hp
    simpa [Ahead] using hnone
  | true =>
    have hnone := filter_eq_nil_iff.1 (getLast?_eq_none_iff.1 h) p hp
    simpa [Ahead] using hnone

/-! ## Traversals -/

def QueueCursor.origin (reverse : Bool) : Timestamp := if reverse then Timestamp.ENDT else Timestamp.ZERO

/-- The products that a step has passed over, because their regions could not be mapped. -/
def Stepped.missed (res : Stepped) (ms : List Timestamp) : List Timestamp :=
  if res.status = PqStatus.system.toInt then res.cursor :: ms else ms

/-- **A traversal** of the queue in the state `a₀` has come to the state `a` and the cursor `c`, has delivered `ds` and
passed over the products inserted at `ms`. Meanwhile other clients do anything but commit. -/
inductive Traversal (D : DataSection) (reverse : Bool) (contains : ProdInfo → Bool) (a₀ : Audit) :
    Audit → Timestamp → List Delivery → List Timestamp → Prop
  | start : Traversal D reverse contains a₀ a₀ (origin reverse) [] []
  | other {a : Audit} {c : Timestamp} {ds : List Delivery} {ms : List Timestamp} {op : QueueOp} {res : Stepped}
      {q' : ProductQueue} : Traversal D reverse contains a₀ a c ds ms → (∀ i, op ≠ .commit i) → op.Valid a.queue →
      (op.run D a.queue).returned = some (res, q') → Traversal D reverse contains a₀ (a.note op res q') c ds ms
  | next {a : Audit} {c : Timestamp} {ds : List Delivery} {ms : List Timestamp} {mapped : Bool} {res : Stepped}
      {q' : ProductQueue} : Traversal D reverse contains a₀ a c ds ms →
      ((QueueOp.next reverse contains mapped c).run D a.queue).returned = some (res, q') →
      Traversal D reverse contains a₀ (a.note (.next reverse contains mapped c) res q') res.cursor
        (ds ++ res.delivery.toList) (res.missed ms)

def Delivery.IsOf (d : Delivery) (t : Timestamp) (pg : Page) : Prop :=
  d.inserted = t ∧ d.offset = pg.offset ∧ d.info = stored pg.info

/-- How far a reader has come: all products of its class that are not ahead of its cursor have been delivered, in order,
or passed over. -/
structure Progress (D : DataSection) (reverse : Bool) (contains : ProdInfo → Bool) (a₀ a : Audit) (c : Timestamp)
    (ds : List Delivery) (ms : List Timestamp) : Prop where
  reached : Reached D (fun _ => True) a
  live : ∀ p ∈ a.store.live, p ∈ a₀.store.live
  cursor : Timestamp.ZERO ≤ c
  sorted : ds.Pairwise fun d d' => Ahead reverse d.inserted d'.inserted
  behind : ∀ d ∈ ds, d.inserted = c ∨ Ahead reverse d.inserted c
  genuine : ∀ d ∈ ds, ∃ t pg, (t, pg) ∈ a₀.store.live ∧ contains (stored pg.info) ∧ d.IsOf t pg
  seen : ∀ t pg, (t, pg) ∈ a.store.live → contains (stored pg.info) → ¬ Ahead reverse c t →
    t ∈ ms ∨ ∃ d ∈ ds, d.IsOf t pg

theorem Store.after_live {q q' : ProductQueue} {res : Stepped} {st : Store} {op : QueueOp} (hop : ∀ i, op ≠ .commit i) :
    ∀ p ∈ (st.after q res q' op).live, p ∈ st.live := by
  intro p hp
  cases op with
  | commit i => exact absurd rfl (hop i)
  | newElement info mapped =>
    simp only [Store.after] at hp
    split at hp
    · exact (mem_filter.1 hp).1
    · exact (mem_filter.1 hp).1
  | writePayload i pos bytes => exact hp
  | encodeEntry i data => exact hp
  | rollback i => exact hp
  | deleteOldest => exact (mem_filter.1 hp).1
  | deleteBySignature interval signature => exact (mem_filter.1 hp).1
  | sequenceDelete mt contains cursor => exact (mem_filter.1 hp).1
  | next reverse contains mapped cursor => exact hp
  | sequence mt contains ifMatch mapped cursor => exact hp

theorem Reached.times_live {P : QueueOp → Prop} (h : Reached D P a) : a.queue.ix.times.Pairwise
    (fun p p' => p.1 < p'.1) ∧ (∀ t off, (t, off) ∈ a.queue.ix.times ↔ ∃ pg, (t, pg) ∈ a.store.live ∧ pg.offset = off) ∧
    ∀ t pg pg', (t, pg) ∈ a.store.live → (t, pg') ∈ a.store.live → pg.offset = pg'.offset → pg = pg' := by
  obtain ⟨⟨g, hk⟩, -⟩ := h.holds
  rw [hk.inv.times_eq]
  refine ⟨hk.books.sorted, hk.books.times, fun t pg pg' hl hl' he => ?_⟩
  exact congrArg Prod.snd (hk.books.live_unique hl hl' he)

/-- **A step** delivers the product it finds, if it is of the class, or passes it over. -/
theorem Progress.step (h : Progress D reverse contains a₀ a c ds ms) (hpos : ∀ p ∈ a₀.store.live, ZERO ≤ p.1)
    {mapped : Bool} {res : Stepped} {q' : ProductQueue}
    (hrun : ((QueueOp.next reverse contains mapped c).run D a.queue).returned = some (res, q')) {t : Timestamp}
      {pg : Page}
    (hlive : (t, pg) ∈ a.store.live) (hcur : res.cursor = t)
    (hstep : neighbour a.queue.ix.times c (matchOf reverse) = some (t, pg.offset))
    (hd : ∀ d ∈ res.delivery.toList, d.IsOf t pg ∧ contains (stored pg.info))
    (hfound : contains (stored pg.info) → t ∈ res.missed ms ∨ ∃ d ∈ res.delivery.toList, d.IsOf t pg) :
    Progress D reverse contains a₀ (a.note (.next reverse contains mapped c) res q') res.cursor
      (ds ++ res.delivery.toList) (res.missed ms) := by
  obtain ⟨hsorted, htimes, huniq⟩ := h.reached.times_live
  obtain ⟨-, hahead, hfirst⟩ := neighbour_ahead hsorted hstep
  have hlive0 := h.live _ hlive
  have hmono : ∀ d ∈ ds, Ahead reverse d.inserted t := fun d hm =>
    (h.behind d hm).elim (fun e => e ▸ hahead) fun hb => hb.trans hahead
  rw [hcur]
  constructor
  case reached => exact .step h.reached trivial trivial hrun
  case live => exact h.live
  case cursor => exact hpos _ hlive0
  case sorted =>
    refine pairwise_append.2 ⟨h.sorted, ?_, fun d hm d' hm' => ?_⟩
    · cases res.delivery <;> simp
    · rw [(hd d' hm').1.1]
      exact hmono d hm
  case behind =>
    intro d hm
    rcases mem_append.1 hm with hm | hm
    · exact .inr (hmono d hm)
    · exact .inl (hd d hm).1.1
  case genuine =>
    intro d hm
    rcases mem_append.1 hm with hm | hm
    · exact h.genuine d hm
    · exact ⟨t, pg, hlive0, (hd d hm).2, (hd d hm).1⟩
  case seen =>
    intro t' pg' hl' hcon hnot
    have hl' : (t', pg') ∈ a.store.live := hl'
    by_cases hb : Ahead reverse c t'
    · -- only the product that was found lies between the old and the new cursor
      rcases hfirst (t', pg'.offset) ((htimes _ _).2 ⟨pg', hl', rfl⟩) hb with he | hb'
      · obtain ⟨rfl, hoff⟩ := Prod.mk.inj he
        cases huniq t' pg' pg hl' hlive hoff
        exact (hfound hcon).imp_right fun ⟨d, hm, hof⟩ => ⟨d, mem_append_right _ hm, hof⟩
      · exact absurd hb' hnot
    · refine (h.seen t' pg' hl' hcon hb).imp (fun hm => ?_) fun ⟨d, hm, hof⟩ => ⟨d, mem_append_left _ hm, hof⟩
      unfold Stepped.missed
      split
      · exact mem_cons_of_mem _ hm
      · exact hm

theorem Progress.next (h : Progress D reverse contains a₀ a c ds ms) (hpos : ∀ p ∈ a₀.store.live, ZERO ≤ p.1)
    {mapped : Bool} {res : Stepped} {q' : ProductQueue}
    (hrun : ((QueueOp.next reverse contains mapped c).run D a.queue).returned = some (res, q')) :
    Progress D reverse contains a₀ (a.note (.next reverse contains mapped c) res q') res.cursor
      (ds ++ res.delivery.toList) (res.missed ms) ∧
    (res.status = PqStatus.end.toInt → ∀ t pg, (t, pg) ∈ a.store.live → ¬ Ahead reverse c t) := by
  obtain ⟨-, htimes, -⟩ := h.reached.times_live
  have hc : startOf reverse c = c := by
    refine if_neg fun e => absurd h.cursor ?_
    rw [e]
    decide
  have hspec := (next_spec h.reached.holds reverse contains mapped c).of_returned hrun
  rw [hc] at hspec
  obtain ⟨-, ⟨hnone, rfl⟩ | ⟨t, pg, hlive, ⟨hcur, hres⟩, hsome⟩⟩ := hspec
  · have hno : ∀ p ∈ a.queue.ix.times, ¬ Ahead reverse c p.1 := not_ahead_of_neighbour hnone
    have hsame : Progress D reverse contains a₀ (a.note (.next reverse contains mapped c) _ q') c ds ms :=
      ⟨.step h.reached trivial trivial hrun, h.live, h.cursor, h.sorted, h.behind, h.genuine, h.seen⟩
    exact ⟨by simpa [Stepped.missed, PqStatus.toInt] using hsame,
      fun _ t pg hl => hno (t, pg.offset) ((htimes _ _).2 ⟨pg, hl, rfl⟩)⟩
  rcases hres with ⟨-, hst, hdel⟩ | ⟨-, hst, hdel⟩
  · refine ⟨h.step hpos hrun hlive hcur hsome (by simp [hdel]) fun _ => .inl ?_,
      fun he => absurd (hst.symm.trans he) (by decide)⟩
    rw [Stepped.missed, if_pos hst, hcur]
    exact mem_cons_self
  · refine ⟨h.step hpos hrun hlive hcur hsome (fun d hd => ?_) fun hcon => .inr ?_,
      fun he => absurd (hst.symm.trans he) (by decide)⟩
    · rw [Option.mem_toList] at hd
      split at hdel
      case isTrue hcon =>
        obtain ⟨d', hd', hof⟩ := hdel
        cases hd'.symm.trans hd
        exact ⟨⟨hof.inserted, hof.offset, hof.info⟩, hcon⟩
      case isFalse => rw [hdel] at hd; cases hd
    · rw [if_pos hcon] at hdel
      obtain ⟨d, hd, hof⟩ := hdel
      exact ⟨d, by simp [hd], hof.inserted, hof.offset, hof.info⟩

/-- **The invariant of a traversal.** -/
theorem Traversal.progress (h0 : Reached D (fun _ => True) a₀)
    (hbounds : ∀ p ∈ a₀.store.live, ZERO < p.1 ∧ p.1 < ENDT)
    (h : Traversal D reverse contains a₀ a c ds ms) : Progress D reverse contains a₀ a c ds ms := by
  induction h with
  | start =>
    refine ⟨h0, fun _ hp => hp, by cases reverse <;> decide, .nil, nofun, nofun, fun t pg hl _ hno => absurd ?_ hno⟩
    cases reverse
    · exact (hbounds _ hl).1
    · exact (hbounds _ hl).2
  | @other a c ds ms op res q' _ hop hv hrun ih =>
    have hsub : ∀ p ∈ (a.store.after a.queue res q' op).live, p ∈ a.store.live := Store.after_live hop
    exact ⟨.step ih.reached trivial hv hrun, fun p hp => ih.live p (hsub p hp), ih.cursor, ih.sorted, ih.behind,
      ih.genuine, fun t pg hl => ih.seen t pg (hsub _ hl)⟩
  | next _ hrun ih => exact (ih.next (fun p hp => le_of_lt (hbounds p hp).1) hrun).1

/-- **A traversal is complete**: its deliveries are in order, none of them comes twice, and when the end is reported
every product of the class that is still there has been delivered once, unless a step failed to map it. -/
theorem traversal_complete (D : DataSection) {a₀ a : Audit} (h₀ : Reached D (fun _ => True) a₀)
    (hbounds : ∀ p ∈ a₀.queue.ix.times, Timestamp.ZERO < p.1 ∧ p.1 < Timestamp.ENDT) {reverse : Bool}
    {contains : ProdInfo → Bool} {c : Timestamp} {ds : List Delivery} {ms : List Timestamp}
    (h : Traversal D reverse contains a₀ a c ds ms) :
    (ds.map Delivery.inserted).Pairwise (fun t u => if reverse then u < t else t < u) ∧
    (ds.map fun d => (d.inserted, d.offset)).Nodup ∧
    (∀ d ∈ ds, ∃ t pg, (t, pg) ∈ a₀.store.live ∧ contains (stored pg.info) ∧ d.IsOf t pg) ∧
    ∀ mapped res q', ((QueueOp.next reverse contains mapped c).run D a.queue).returned = some (res, q') →
      res.status = PqStatus.end.toInt → ∀ t pg, (t, pg) ∈ a₀.store.live → (t, pg) ∈ a.store.live →
        contains (stored pg.info) → t ∉ ms → ∃! d, d ∈ ds ∧ d.IsOf t pg := by
  have hlive : ∀ p ∈ a₀.store.live, ZERO < p.1 ∧ p.1 < ENDT := fun p hp =>
    hbounds (p.1, p.2.offset) ((h₀.times_live.2.1 _ _).2 ⟨p.2, hp, rfl⟩)
  have hp := h.progress h₀ hlive
  have hsorted : (ds.map Delivery.inserted).Pairwise (Ahead reverse) := pairwise_map.2 hp.sorted
  refine ⟨hsorted, ?_, hp.genuine, fun mapped res q' hrun hend t pg _ hl hcon hmapped => ?_⟩
  · refine pairwise_map.2 (hp.sorted.imp ?_)
    intro d d' hd he
    exact hd.ne (Prod.mk.inj he).1
  · have hno := (hp.next (fun p hp => le_of_lt (hlive p hp).1) hrun).2 hend t pg hl
    obtain ⟨d, hm, hof⟩ := (hp.seen t pg hl hcon hno).resolve_left hmapped
    refine ⟨d, ⟨hm, hof⟩, fun d' ⟨hm', hof'⟩ => ?_⟩
    have hnd : (ds.map Delivery.inserted).Nodup := hsorted.imp fun h => h.ne
    exact inj_on_of_nodup_map hnd hm' hm (hof'.1.trans hof.1.symm)

/-! ## Computed traversals -/

/-- The steps of a traversal, each with whether the region can be mapped. -/
def Audit.steps (D : DataSection) (reverse : Bool) (contains : ProdInfo → Bool) :
    List Bool → Audit × Timestamp × List Delivery × List Timestamp →
    Option (Audit × Timestamp × List Delivery × List Timestamp)
  | [], r => some r
  | mapped :: rest, (a, c, ds, ms) =>
    match ((QueueOp.next reverse contains mapped c).run D a.queue).returned with
    | none => none
    | some (res, q') =>
      Audit.steps D reverse contains rest
        (a.note (.next reverse contains mapped c) res q', res.cursor, ds ++ res.delivery.toList, res.missed ms)

theorem Audit.steps_traversal : ∀ {outcomes : List Bool} {a a' : Audit} {c c' : Timestamp} {ds ds' : List Delivery}
    {ms ms' : List Timestamp}, Traversal D reverse contains a₀ a c ds ms →
    Audit.steps D reverse contains outcomes (a, c, ds, ms) = some (a', c', ds', ms') →
    Traversal D reverse contains a₀ a' c' ds' ms'
  | [], _, _, _, _, _, _, _, _, ht, h => by
    cases h
    exact ht
  | mapped :: rest, a, a', c, c', ds, ds', ms, ms', ht, h => by
    rw [Audit.steps] at h
    split at h
    case h_1 => cases h
    case h_2 hrun => exact steps_traversal (.next ht hrun) h

def pairOps : List QueueOp :=
  [.newElement (sampleInfo 1) true, .commit 0, .newElement (sampleInfo 2) true, .commit 0]

theorem traversal_complete_pair : ∃ (a₀ a : Audit) (c : Timestamp) (ds : List Delivery),
    Reached QueueIndexManager.smallSection (fun _ => True) a₀ ∧ a₀.store.live.length = 2 ∧
    Traversal QueueIndexManager.smallSection true (fun _ => true) a₀ a c ds [] ∧ ds.length = 2 ∧
    (ds.map Delivery.inserted).Pairwise (fun t u => u < t) := by
  obtain ⟨a₀, hreach, hlen, hbounds, ⟨a, c, ds, ms⟩, hsteps, hds, rfl⟩ : ∃ a₀ : Audit,
      Reached QueueIndexManager.smallSection (fun _ => True) a₀ ∧ a₀.store.live.length = 2 ∧
      (∀ p ∈ a₀.queue.ix.times, ZERO < p.1 ∧ p.1 < ENDT) ∧
      ∃ r, Audit.steps QueueIndexManager.smallSection true (fun _ => true) [true, true]
      (a₀, origin true, [], []) = some r ∧
        r.2.2.1.length = 2 ∧ r.2.2.2 = [] := by
    apply exists_computed tick pairOps
    decide +kernel
  have ht := Audit.steps_traversal .start hsteps
  obtain ⟨hsorted, -⟩ := traversal_complete QueueIndexManager.smallSection hreach hbounds ht
  exact ⟨a₀, a, c, ds, hreach, hlen, ht, hds, by simpa using hsorted⟩

/-- **A product whose region cannot be mapped is passed over**: `next` has moved the cursor before it fails, and the end
comes with the product still there and not delivered. -/
theorem product_passed_over : ∃ (a₀ a : Audit) (c : Timestamp) (ms : List Timestamp) (res : Stepped)
    (q' : ProductQueue), Reached QueueIndexManager.smallSection (fun _ => True) a₀ ∧
    (∀ p ∈ a₀.queue.ix.times, Timestamp.ZERO < p.1 ∧ p.1 < Timestamp.ENDT) ∧
    Traversal QueueIndexManager.smallSection false (fun _ => true) a₀ a c [] ms ∧
    ((QueueOp.next false (fun _ => true) true c).run QueueIndexManager.smallSection a.queue).returned = some (res, q') ∧
    res.status = PqStatus.end.toInt ∧ ∃ p ∈ a₀.store.live, p ∈ a.store.live := by
  obtain ⟨a₀, hreach, hbounds, ⟨a, c, ds, ms⟩, hsteps, rfl, hlive, ⟨res, q'⟩, hrun, hend⟩ : ∃ a₀ : Audit,
      Reached QueueIndexManager.smallSection (fun _ => True) a₀ ∧
      (∀ p ∈ a₀.queue.ix.times, ZERO < p.1 ∧ p.1 < ENDT) ∧
      ∃ r, Audit.steps QueueIndexManager.smallSection false (fun _ => true) [false]
      (a₀, origin false, [], []) = some r ∧
        r.2.2.1 = [] ∧ (∃ p ∈ a₀.store.live, p ∈ r.1.store.live) ∧
        ∃ r', ((QueueOp.next false (fun _ => true) true r.2.1).run QueueIndexManager.smallSection r.1.queue).returned =
          some r' ∧ r'.1.status = PqStatus.end.toInt := by
    apply exists_computed tick [.newElement (sampleInfo 1) true, .commit 0]
    decide +kernel
  exact ⟨a₀, a, c, ms, res, q', hreach, hbounds, Audit.steps_traversal .start hsteps, hrun, hend, hlive⟩

end Rdm
