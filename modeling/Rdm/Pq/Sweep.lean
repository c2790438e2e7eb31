import Rdm.Pq.CursorStart
import Rdm.Pq.SignatureSearch
import Rdm.Pq.Traversal

/-!
# Deleting the products of a class

A client calls `sequenceDelete` from the beginning of time until the end of the queue. `Cleared`: the products of the
class up to the cursor are gone.
-/

namespace Rdm

open ProgLogic ProgLogic.Prog Xdr SunRpcSerializer QueueIndexManager QueueCursor List
open Timestamp (ENDT NONE ZERO)

namespace QueueCursor

def sweepFrom (contains : ProdInfo → Bool) : Nat → Timestamp → Prog ProductQueue Stepped
  | 0, _ => ofOption none
  | fuel + 1, cursor => do
    let res ← sequenceDelete .greaterThan contains cursor
    if res.status = PqStatus.end.toInt then return res else sweepFrom contains fuel res.cursor

def sweep (contains : ProdInfo → Bool) : Prog ProductQueue Stepped := do
  let q ← read
  sweepFrom contains (q.ix.times.length + 1) Timestamp.ZERO

end QueueCursor

variable {D : DataSection} {s s' : QueueIndexManager World} {g g' : Ghost} {st : Store} {q q' : ProductQueue}
variable {t cursor : Timestamp} {pg : Page} {contains : ProdInfo → Bool} {gone : Timestamp × Page → Bool}
variable {gone' : Timestamp × Page → Bool} {p : Timestamp × Int}

/-! ## One deletion -/

def Page.Absent (s : QueueIndexManager World) (pg : Page) : Prop :=
  pg.info.signature ∉ s.filed.map Prod.fst ∧ pg.offset ∉ s.regions.map Prod.fst

def Store.without (gone : Timestamp × Page → Bool) (st : Store) : Store :=
    { st with live := st.live.filter fun p => !gone p }

/-- The index has no regions and no signatures but those it had, and the bytes and the answers of the world are the
same. -/
structure Narrowed (s s' : QueueIndexManager World) : Prop where
  regions : ∀ p ∈ s'.regions, p ∈ s.regions
  filed : ∀ p ∈ s'.filed, p ∈ s.filed
  disk : s'.env.disk = s.env.disk
  grants : s'.env.grants = s.env.grants

theorem Narrowed.refl (s : QueueIndexManager World) : Narrowed s s := ⟨fun _ h => h, fun _ h => h, rfl, rfl⟩

theorem Narrowed.trans {s1 s2 s3 : QueueIndexManager World} (h : Narrowed s1 s2) (h' : Narrowed s2 s3) :
    Narrowed s1 s3 where
  regions p hp := h.regions p (h'.regions p hp)
  filed p hp := h.filed p (h'.filed p hp)
  disk := h'.disk.trans h.disk
  grants := h'.grants.trans h.grants

theorem Narrowed.clear (h : Narrowed s s') (n : Nat) : Narrowed s { s' with smallestExtentSeen := n } :=
  ⟨h.regions, h.filed, h.disk, h.grants⟩

theorem Page.Absent.narrowed (h : pg.Absent s) (hn : Narrowed s s') : pg.Absent s' := by
  obtain ⟨hsig, hreg⟩ := h
  refine ⟨fun hm => hsig ?_, fun hm => hreg ?_⟩
  · obtain ⟨p, hp, he⟩ := mem_map.1 hm
    exact mem_map.2 ⟨p, hn.filed p hp, he⟩
  · obtain ⟨p, hp, he⟩ := mem_map.1 hm
    exact mem_map.2 ⟨p, hn.regions p hp, he⟩

theorem Dropped.narrowed (h : IndexInv D s g) {w : World} {x r : Nat} {sig : Signature} (hdisk : w.disk = s.env.disk)
    (hgrants : w.grants = s.env.grants) (hd : Dropped D { s with env := w } g x r sig s' g') : Narrowed s s' := by
  have henv : s'.env = w := by rw [hd.rest]
  have hw := hd.without_of rfl rfl
  obtain ⟨o, hsigs⟩ := hw.sigs
  refine ⟨fun p hp => ?_, fun p hp => ?_, by rw [henv, hdisk], by rw [henv, hgrants]⟩
  · rw [h.mem_regions, hw.regions]
    exact Multiset.mem_cons_of_mem (hd.inv.mem_regions.1 hp)
  · rw [h.mem_filed, hsigs]
    exact Multiset.mem_cons_of_mem (hd.inv.mem_filed.1 hp)

theorem Books.keep_erase {a : Catalog} {disk : Memory} (h : Books a disk st) (hlive : (t, pg) ∈ st.live) :
    st.keep (a.times.erase (t, pg.offset)) = st.without fun p => decide (p = (t, pg)) := by
  refine congrArg (Store.mk st.drafts) (filter_congr fun p hp => ?_)
  have hmem : (p.1, p.2.offset) ∈ a.times := (h.times _ _).2 ⟨p.2, hp, rfl⟩
  show decide ((p.1, p.2.offset) ∈ a.times.erase (t, pg.offset)) = !decide (p = (t, pg))
  by_cases he : p = (t, pg)
  · rw [he, decide_eq_false (h.times_nodup.not_mem_erase), decide_eq_true rfl]
    rfl
  · have hne : (p.1, p.2.offset) ≠ (t, pg.offset) := fun e =>
      he (h.live_unique (t := p.1) hp hlive (congrArg Prod.snd e))
    rw [decide_eq_true ((mem_erase_of_ne hne).2 hmem), decide_eq_false he]
    rfl

theorem sequenceDelete_returns (h : Holds D q st) (hn : cursor ≠ NONE) (hc : cursor ≤ ENDT)
    (hpos : ∀ p ∈ q.ix.times, 0 ≤ p.1.sec ∧ 0 ≤ p.1.usec) :
    wp (sequenceDelete .greaterThan contains cursor) (fun _ _ => True) q := by
  obtain ⟨⟨g, hk⟩, -⟩ := h
  rw [hk.inv.times_eq] at hpos
  rw [sequenceDelete, wp_locked, sequenceDeleteLocked, if_neg hn, wp_bind, wp_read, wp_bind]
  refine (tqFind_total hk.inv hc (fun e => by cases e)).mono ?_
  rintro r s1 ⟨rfl, ⟨rfl, -⟩ | ⟨x, hx, rfl, -⟩⟩
  · exact wp_pure.2 trivial
  · obtain ⟨sig, hfiled, hreg, hsig⟩ := hk.books.headed (timeOf q.ix.tq x) (mem_map_of_mem hx)
    have hset : 0 ≤ (q.ix.tq.tqep x).tv.sec ∧ 0 ≤ (q.ix.tq.tqep x).tv.usec :=
      hpos (timeOf q.ix.tq x) (mem_map_of_mem hx)
    simp only
    rw [wp_bind]
    refine (find_region hk.inv hreg).mono ?_
    rintro rlix s2 ⟨rfl, hne, hr, hroff, hregion⟩
    rw [wp_bind, wp_assert]
    refine ⟨hne, ?_⟩
    rw [wp_bind]
    refine (decodeRegion_spec rlix _ _).mono ?_
    rintro res s3 ⟨rfl, ⟨-, rfl⟩ | ⟨-, ⟨-, rfl⟩ | ⟨info, pos, hdec, rfl⟩⟩⟩
    · simp only [if_true]
      exact wp_pure.2 trivial
    · simp only [cset]
      rw [if_neg (by decide), wp_bind, wp_assert]
      exact ⟨hset, wp_pure.2 trivial⟩
    · simp only [cset]
      rw [wp_bind, wp_assert]
      refine ⟨hset, ?_⟩
      split
      case isFalse => exact wp_pure.2 trivial
      case isTrue =>
        rw [hroff] at hdec
        have hsame := hsig _ _ _ hregion hdec
        have h3 := hk.inv.control q.ix.env.getRegionNoWait.2 q.ix.isFull q.ix.smallestExtentSeen
        rw [wp_bind]
        refine (unlinkAt_spec h3 hx hr hroff (Multiset.mem_map_of_mem Prod.fst (hsame ▸ hfiled))).mono ?_
        intro _ s4 hrest
        rw [wp_bind]
        refine hrest.mono ?_
        intro _ s5 hfree
        rw [wp_bind]
        exact hfree.mono fun _ _ _ => wp_pure.2 trivial

def DeletesNext (D : DataSection) (contains : ProdInfo → Bool) (cursor : Timestamp) (q : ProductQueue) (st : Store)
    (res : Stepped) (q' : ProductQueue) : Prop :=
  (neighbour q.ix.times cursor .greaterThan = none ∧ res.status = PqStatus.end.toInt ∧ Holds D q' st ∧
      q'.ix.env.requests = q.ix.env.requests) ∨
    ∃ t pg, (t, pg) ∈ st.live ∧ neighbour q.ix.times cursor .greaterThan = some (t, pg.offset) ∧ res = ⟨0, t, none⟩ ∧
      q'.ix.env.requests = q.ix.env.requests + 1 ∧
      if contains (stored pg.info) then
        q'.ix.times = q.ix.times.erase (t, pg.offset) ∧ Holds D q' (st.without fun p => decide (p = (t, pg))) ∧
          pg.Absent q'.ix
      else q'.ix.times = q.ix.times ∧ Holds D q' st

/-- **One call of `sequenceDelete`** visits the next product and deletes it if it is in the class. -/
theorem sequenceDelete_next (h : Holds D q st) (hn : cursor ≠ NONE)
    (hgrant : q.ix.env.grants q.ix.env.requests = true) :
    wlp (sequenceDelete .greaterThan contains cursor) (fun res q' => Narrowed q.ix q'.ix ∧
      DeletesNext D contains cursor q st res q') q := by
  obtain ⟨⟨g, hk⟩, hdrafts⟩ := id h
  have hstart : sequenceStart .greaterThan cursor = cursor := if_neg hn
  refine (sequenceDelete_exact hk.inv hk.books.headed .greaterThan contains cursor).mono ?_
  rw [hstart, ← hk.inv.times_eq]
  rintro res q' ⟨s', rfl, ⟨rfl, rfl, hnone⟩ | ⟨x, hx, hsome, r, hroff, hregion, hrest⟩⟩
  · exact ⟨(Narrowed.refl q.ix).clear _, .inl ⟨hnone, rfl, hk.unlocked hdrafts _, rfl⟩⟩
  obtain ⟨pg, hlive, hpoff⟩ := hk.live_of hx
  have hsome : neighbour q.ix.times cursor .greaterThan = some ((q.ix.tq.tqep x).tv, pg.offset) := by
    rw [hpoff]
    exact hsome
  rw [← hpoff] at hregion hrest hroff
  rcases hrest with ⟨hno, -⟩ | ⟨-, ⟨hno, -⟩ | ⟨info, pos, hdec, rfl, hif⟩⟩
  · rw [hgrant] at hno
    cases hno
  · rw [hk.books.decode_live hlive hregion] at hno
    cases hno
  rw [hk.books.decode_live hlive hregion] at hdec
  obtain ⟨rfl, -⟩ := Prod.mk.inj (Option.some.inj hdec)
  split at hif
  case isTrue hc =>
    obtain ⟨-, g', hd⟩ := hif
    have hgone := hk.gone rfl hroff hd
    have hthin : Thinned D q.ix st s' := hk.dropped hlive (w := q.ix.env.getRegionNoWait.2) rfl rfl hroff hd
    have hrequests : s'.env.requests = q.ix.env.requests + 1 := by
      rw [hd.rest]
      rfl
    have hheld : Holds D { q with ix := { s' with smallestExtentSeen := 2 ^ 64 - 1 } } (st.keep s'.times) :=
      ⟨(hthin.clear (2 ^ 64 - 1)).kept, hdrafts⟩
    refine ⟨?_, .inr ⟨_, pg, hlive, hsome, rfl, hrequests, ?_⟩⟩
    · exact (Dropped.narrowed (w := q.ix.env.getRegionNoWait.2) hk.inv rfl rfl hd).clear _
    · rw [if_pos hc]
      refine ⟨hgone.times, ?_, hgone.signature, hgone.region⟩
      have hkeep : st.keep s'.times = st.without fun p => decide (p = ((q.ix.tq.tqep x).tv, pg)) := by
        rw [hgone.times, hk.inv.times_eq]
        exact hk.books.keep_erase hlive
      rw [← hkeep]
      exact hheld
  case isFalse hc =>
    subst hif
    refine ⟨⟨fun _ h => h, fun _ h => h, rfl, rfl⟩, .inr ⟨_, pg, hlive, hsome, rfl, rfl, ?_⟩⟩
    rw [if_neg hc]
    exact ⟨rfl, (hk.control (w := q.ix.env.getRegionNoWait.2) rfl q.ix.isFull q.ix.smallestExtentSeen).unlocked
      hdrafts _⟩

/-! ## The sweep -/

def Passed (contains : ProdInfo → Bool) (cursor : Timestamp) (p : Timestamp × Page) : Bool :=
  decide (p.1 ≤ cursor) && contains (stored p.2.info)

/-- **The invariant of a sweep**: what is `gone` has left the index, and the queue holds the rest. -/
structure Cleared (D : DataSection) (q : ProductQueue) (st : Store) (gone : Timestamp × Page → Bool)
    (q' : ProductQueue) : Prop where
  holds : Holds D q' (st.without gone)
  narrowed : Narrowed q.ix q'.ix
  absent : ∀ p ∈ st.live, gone p = true → p.2.Absent q'.ix

theorem Store.mem_without {p : Timestamp × Page} :
    p ∈ (st.without gone).live ↔ p ∈ st.live ∧ gone p = false := by
  rw [Store.without, mem_filter, Bool.not_eq_true']

theorem Store.without_congr (h : ∀ p ∈ st.live, gone p = gone' p) :
    st.without gone = st.without gone' :=
  congrArg (Store.mk st.drafts) (filter_congr fun p hp => congrArg not (h p hp))

theorem Store.without_without (gone gone' : Timestamp × Page → Bool) :
    (st.without gone).without gone' = st.without fun p => gone p || gone' p := by
  refine congrArg (Store.mk st.drafts) ?_
  rw [Store.without, filter_filter]
  refine filter_congr fun p _ => ?_
  rw [Bool.not_or, Bool.and_comm]

theorem Store.without_none : st.without (fun _ => false) = st :=
  congrArg (Store.mk st.drafts) (filter_eq_self.2 fun _ _ => rfl)

theorem Cleared.congr (h : Cleared D q st gone q')
    (he : ∀ p ∈ st.live, gone p = gone' p) : Cleared D q st gone' q' where
  holds := Store.without_congr he ▸ h.holds
  narrowed := h.narrowed
  absent p hp hg := h.absent p hp ((he p hp).trans hg)

theorem Cleared.step {q2 : ProductQueue} (h : Cleared D q st gone q')
    (hh : Holds D q2 ((st.without gone).without gone')) (hn : Narrowed q'.ix q2.ix)
    (habs : ∀ p ∈ st.live, gone' p = true → p.2.Absent q2.ix) : Cleared D q st (fun p => gone p || gone' p) q2 where
  holds := Store.without_without gone gone' ▸ hh
  narrowed := h.narrowed.trans hn
  absent p hp hg := by
    rcases Bool.or_eq_true _ _ ▸ hg with hg | hg
    · exact (h.absent p hp hg).narrowed hn
    · exact habs p hp hg

theorem neighbour_after {times : List (Timestamp × Int)} (hs : times.Pairwise fun p p' => p.1 < p'.1)
    (h : neighbour times cursor .greaterThan = some p) :
    p ∈ times ∧ cursor < p.1 ∧ ∀ p' ∈ times, cursor < p'.1 → p' = p ∨ p.1 < p'.1 := by
  have h' : neighbour times cursor (matchOf false) = some p := h
  exact neighbour_ahead hs h'

theorem not_after_of_neighbour {times : List (Timestamp × Int)} (h : neighbour times cursor .greaterThan = none)
    (hp : p ∈ times) : p.1 ≤ cursor := by
  have h' : neighbour times cursor (matchOf false) = none := h
  exact not_lt.1 (not_ahead_of_neighbour h' p hp)

def remaining (q : ProductQueue) (cursor : Timestamp) : List (Timestamp × Int) :=
    q.ix.times.filter fun p => cursor < p.1

theorem remaining_next (hs : q.ix.times.Pairwise fun p p' => p.1 < p'.1)
    (hsome : neighbour q.ix.times cursor .greaterThan = some p)
    (htimes : q'.ix.times = q.ix.times ∨ q'.ix.times = q.ix.times.erase p) :
    (remaining q' p.1).length < (remaining q cursor).length := by
  obtain ⟨hmem, hlt, -⟩ := neighbour_after hs hsome
  have hsub : q'.ix.times.Sublist q.ix.times := by
    rcases htimes with he | he
    · rw [he]
    · rw [he]
      exact erase_sublist
  -- the entry itself is not ahead of its time
  have hnot : ¬ (remaining q cursor).Sublist (remaining q p.1) := fun hsubl => by
    have hm := hsubl.mem (mem_filter.2 ⟨hmem, decide_eq_true hlt⟩)
    exact lt_irrefl p.1 (of_decide_eq_true (mem_filter.1 hm).2)
  have hle : (remaining q p.1).Sublist (remaining q cursor) := by
    refine monotone_filter_right _ fun p' hp' => ?_
    exact decide_eq_true (lt_trans hlt (of_decide_eq_true hp'))
  have hlen : (remaining q' p.1).length ≤ (remaining q p.1).length := (hsub.filter _).length_le
  have hne : (remaining q p.1).length ≠ (remaining q cursor).length :=
    fun e => hnot (hle.eq_of_length e ▸ List.Sublist.refl _)
  have hle := hle.length_le
  omega

theorem passed_next (h : Holds D q (st.without (Passed contains cursor)))
    (hlive : (t, pg) ∈ (st.without (Passed contains cursor)).live)
    (hsome : neighbour q.ix.times cursor .greaterThan = some (t, pg.offset)) {p : Timestamp × Page} (hp : p ∈ st.live) :
    Passed contains t p = (Passed contains cursor p || decide (p = (t, pg)) && contains (stored pg.info)) := by
  obtain ⟨-, hlt, hfirst⟩ := neighbour_after h.sorted hsome
  obtain ⟨⟨g, hk⟩, -⟩ := id h
  cases hpass : Passed contains cursor p with
  | true =>
    obtain ⟨hle, hc⟩ := (Bool.and_eq_true _ _).mp hpass
    exact (Bool.and_eq_true _ _).mpr ⟨decide_eq_true ((of_decide_eq_true hle).trans (le_of_lt hlt)), hc⟩
  | false =>
    have hrest : p ∈ (st.without (Passed contains cursor)).live := Store.mem_without.2 ⟨hp, hpass⟩
    rw [Bool.false_or]
    by_cases he : p = (t, pg)
    · rw [he, decide_eq_true rfl, Bool.true_and]
      exact (congrArg (· && _) (decide_eq_true (le_refl t))).trans (Bool.true_and _)
    · rw [decide_eq_false he, Bool.false_and]
      cases hc : contains (stored p.2.info) with
      | false => exact (congrArg (_ && ·) hc).trans (Bool.and_false _)
      | true =>
        -- a product of the class that is not passed is later than the cursor
        have hafter : cursor < p.1 := not_le.1 fun hle => by
          rw [Passed, decide_eq_true hle, hc] at hpass
          cases hpass
        refine (congrArg (· && _) (decide_eq_false ?_)).trans (Bool.false_and _)
        rcases hfirst (p.1, p.2.offset) (h.mem_times.2 ⟨p.2, hrest, rfl⟩) hafter with hsame | hlater
        · exact absurd (hk.books.live_unique hrest hlive (congrArg Prod.snd hsame)) he
        · exact not_le.2 hlater

def World.GrantsNext (w : World) (n : Nat) : Prop := ∀ i ≤ n, w.grants (w.requests + i) = true

instance (w : World) (n : Nat) : Decidable (w.GrantsNext n) :=
  inferInstanceAs (Decidable (∀ i ≤ n, w.grants (w.requests + i) = true))

theorem World.GrantsNext.first {w : World} {n : Nat} (h : w.GrantsNext n) : w.grants w.requests = true :=
    h 0 (Nat.zero_le _)

theorem World.GrantsNext.asked {w w' : World} {n m : Nat} (h : w.GrantsNext n) (hg : w'.grants = w.grants)
    (hr : w'.requests = w.requests + 1) (hm : m < n) : w'.GrantsNext m := by
  intro i hi
  rw [hg, hr, Nat.add_assoc]
  exact h (1 + i) (by omega)

/-- **The calls of a sweep**, from a cursor up to which the products of the class are gone. -/
theorem sweepFrom_spec {q0 : ProductQueue} (hpos : ∀ p ∈ st.live, 0 ≤ p.1.sec ∧ 0 ≤ p.1.usec) :
    ∀ (fuel : Nat) (q : ProductQueue) (cursor : Timestamp),
    Cleared D q0 st (Passed contains cursor) q → cursor ≠ NONE → cursor ≤ ENDT →
    (remaining q cursor).length < fuel → q.ix.env.GrantsNext (remaining q cursor).length →
    wp (sweepFrom contains fuel cursor) (fun res q' => res.status = PqStatus.end.toInt ∧
      Cleared D q0 st (fun p => contains (stored p.2.info)) q' ∧ q'.ix.env.grants q'.ix.env.requests = true) q
  | 0, _, _, _, _, _, hfuel, _ => absurd hfuel (Nat.not_lt_zero _)
  | fuel + 1, q, cursor, h, hn, hc, hfuel, hgrants => by
    have hposq : ∀ p ∈ q.ix.times, 0 ≤ p.1.sec ∧ 0 ≤ p.1.usec := by
      rintro ⟨t, off⟩ hp
      obtain ⟨pg, hlive, -⟩ := h.holds.mem_times.1 hp
      exact hpos (t, pg) (Store.mem_without.1 hlive).1
    rw [sweepFrom, wp_bind]
    refine ((sequenceDelete_next h.holds hn hgrants.first).total (sequenceDelete_returns h.holds hn hc hposq)).mono ?_
    rintro res q1 ⟨hnarrow, ⟨hnone, hend, hh, hrequests⟩ | ⟨t, pg, hlive, hsome, rfl, hrequests, hif⟩⟩
    · -- all products are behind the cursor
      rw [if_pos hend]
      refine wp_pure.2 ⟨hend, ?_, by rw [hnarrow.grants, hrequests]; exact hgrants.first⟩
      have hstay : Cleared D q0 st (Passed contains cursor) q1 :=
        ⟨hh, h.narrowed.trans hnarrow, fun p hp hg => (h.absent p hp hg).narrowed hnarrow⟩
      refine hstay.congr fun p hp => ?_
      by_cases hle : p.1 ≤ cursor
      · rw [Passed, decide_eq_true hle, Bool.true_and]
      · by_cases hcon : contains (stored p.2.info) = true
        · have hm : p ∈ (st.without (Passed contains cursor)).live :=
            Store.mem_without.2 ⟨hp, by rw [Passed, decide_eq_false hle, Bool.false_and]⟩
          exact absurd (not_after_of_neighbour hnone (h.holds.mem_times.2 ⟨p.2, hm, rfl⟩)) hle
        · rw [Passed, Bool.eq_false_iff.2 hcon, Bool.and_false]
    · obtain ⟨hmem, -, -⟩ := neighbour_after h.holds.sorted hsome
      have hlt := h.holds.lt_endt hmem
      have hsec := (hposq _ hmem).1
      have htn : t ≠ NONE := fun e => by
        have : (-1 : Int) = t.sec := by rw [e]; rfl
        simp only at hsec
        omega
      rw [if_neg (show ¬ (0 : Int) = PqStatus.end.toInt by decide)]
      split at hif
      case isTrue hcon =>
        obtain ⟨htimes, hh, habs⟩ := hif
        have hless : (remaining q1 t).length < _ := remaining_next h.holds.sorted hsome (.inr htimes)
        refine sweepFrom_spec hpos fuel q1 t ?_ htn (le_of_lt hlt) (by omega)
          (hgrants.asked hnarrow.grants hrequests hless)
        · refine (h.step hh hnarrow fun p _ hg => ?_).congr fun p hp => ?_
          · rw [of_decide_eq_true hg]
            exact habs
          · rw [passed_next h.holds hlive hsome hp, hcon, Bool.and_true]
      case isFalse hcon =>
        obtain ⟨htimes, hh⟩ := hif
        have hless : (remaining q1 t).length < _ := remaining_next h.holds.sorted hsome (.inl htimes)
        refine sweepFrom_spec hpos fuel q1 t ?_ htn (le_of_lt hlt) (by omega)
          (hgrants.asked hnarrow.grants hrequests hless)
        · have hstay : Cleared D q0 st (Passed contains cursor) q1 :=
            ⟨hh, h.narrowed.trans hnarrow, fun p hp hg => (h.absent p hp hg).narrowed hnarrow⟩
          refine hstay.congr fun p hp => ?_
          rw [passed_next h.holds hlive hsome hp, Bool.eq_false_iff.2 hcon, Bool.and_false, Bool.or_false]

/-! ## What a sweep leaves -/

/-- The product is in the queue as before, and a search by signature that came to its entry still does. -/
structure Retained (s : QueueIndexManager World) (t : Timestamp) (pg : Page) (s' : QueueIndexManager World) : Prop where
  time : (t, pg.offset) ∈ s'.times
  header : readBytes s'.env.disk pg.offset (header pg.info).length = header pg.info
  data : readBytes s'.env.disk (pg.offset + (SunRpcSerializer.header pg.info).length) pg.info.sz.toNat = pg.data
  filed : (pg.info.signature, pg.offset) ∈ s'.filed
  found : ∀ interval x s₁,
    (findTimeEntryBySignature ProductQueue.callbacks interval pg.info.signature s).returned = some (.ok x, s₁) →
    wp (findTimeEntryBySignature ProductQueue.callbacks interval pg.info.signature) (fun res _ =>
      ∃ x', res = .ok x' ∧ timeOf s'.tq x' = (t, pg.offset)) s'

theorem Cleared.retained (h : Holds D q st) (hc : Cleared D q st gone q')
    (hgrant : q.ix.env.grants q.ix.env.requests = true) (hgrant' : q'.ix.env.grants q'.ix.env.requests = true)
    (hlive : (t, pg) ∈ st.live) (hkeep : gone (t, pg) = false) :
    Retained q.ix t pg q'.ix := by
  have hlive' : (t, pg) ∈ (st.without gone).live := Store.mem_without.2 ⟨hlive, hkeep⟩
  obtain ⟨⟨g, hk⟩, -⟩ := id h
  obtain ⟨⟨g', hk'⟩, -⟩ := id hc.holds
  have hon := hk'.books.pages pg (Store.mem_pages_of_live hlive')
  refine ⟨hc.holds.mem_times.2 ⟨pg, hlive', rfl⟩, hon.header, hon.data, ?_, fun interval x s1 hfound => ?_⟩
  · exact hk'.inv.mem_filed.2 hon.filed
  · obtain ⟨hend, hbetween⟩ :=
      (hk.between_of_found hlive fun _ hreg => hk.decodeFunc_live hlive hgrant hreg).of_returned hfound x rfl
    refine (hk'.findTimeEntry hlive' (fun _ hreg => hk'.decodeFunc_live hlive' hgrant' hreg) hend ?_).mono ?_
    · rintro ⟨t', off⟩ hp hlt
      -- the times that are left were there before
      obtain ⟨pg', hl, rfl⟩ := (hk'.books.times t' off).1 hp
      exact hbetween _ ((hk.books.times t' pg'.offset).2 ⟨pg', (Store.mem_without.1 hl).1, rfl⟩) hlt
    · rintro res _ ⟨x', -, hres, hx', -⟩
      exact ⟨x', hres, hx'⟩

/-- **A selective sweep** comes to the end, the products of the class are gone, and all others are retained, with times
after the beginning of time and no other process. -/
theorem selective_sweep (D : DataSection) {P : QueueOp → Prop} {a : Audit} (ha : Reached D P a)
    (contains : ProdInfo → Bool) (htimes : ∀ p ∈ a.queue.ix.times, Timestamp.ZERO < p.1 ∧ 0 ≤ p.1.usec)
    (hgrants : a.queue.ix.env.GrantsNext a.queue.ix.times.length) :
    wp (QueueCursor.sweep contains) (fun res q' => res.status = PqStatus.end.toInt ∧
      Holds D q' (a.store.without fun p => contains (stored p.2.info)) ∧ q'.ix.env.disk = a.queue.ix.env.disk ∧
      ∀ t pg, (t, pg) ∈ a.store.live →
        if contains (stored pg.info) then (t, pg.offset) ∉ q'.ix.times ∧ pg.Absent q'.ix
        else Retained a.queue.ix t pg q'.ix) a.queue := by
  have hh := ha.holds
  have hmem : ∀ p ∈ a.store.live, (p.1, p.2.offset) ∈ a.queue.ix.times := fun p hp => hh.mem_times.2 ⟨p.2, hp, rfl⟩
  have hpos : ∀ p ∈ a.store.live, 0 ≤ p.1.sec ∧ 0 ≤ p.1.usec := by
    intro p hp
    obtain ⟨hlt, husec⟩ := htimes _ (hmem p hp)
    refine ⟨?_, husec⟩
    have hsec := Timestamp.lt_iff.1 hlt
    simp only [ZERO] at hsec
    omega
  have hstart : Cleared D a.queue a.store (Passed contains ZERO) a.queue := by
    have hnone : ∀ p ∈ a.store.live, Passed contains ZERO p = false := by
      intro p hp
      rw [Passed, decide_eq_false (not_le.2 (htimes _ (hmem p hp)).1), Bool.false_and]
    refine ⟨?_, Narrowed.refl _, fun p hp hg => ?_⟩
    · rw [Store.without_congr hnone, Store.without_none]
      exact hh
    · rw [hnone p hp] at hg
      cases hg
  rw [sweep, wp_bind, wp_read]
  have hle : (remaining a.queue ZERO).length ≤ a.queue.ix.times.length := length_filter_le _ _
  refine (sweepFrom_spec hpos _ a.queue ZERO hstart (by decide) (by decide) (Nat.lt_succ_of_le hle)
    fun i hi => hgrants i (hi.trans hle)).mono ?_
  · rintro res q' ⟨hend, hc, hgrant'⟩
    refine ⟨hend, hc.holds, hc.narrowed.disk, fun t pg hlive => ?_⟩
    split
    case isTrue hcon =>
      refine ⟨fun hm => ?_, hc.absent _ hlive hcon⟩
      obtain ⟨pg', hl, hoff⟩ := hc.holds.mem_times.1 hm
      obtain ⟨hl, hno⟩ := Store.mem_without.1 hl
      obtain ⟨⟨g, hk⟩, -⟩ := hh
      obtain rfl := (Prod.mk.inj (hk.books.live_unique hl hlive hoff)).2
      rw [hcon] at hno
      cases hno
    case isFalse hcon => exact hc.retained hh hgrants.first hgrant' hlive (Bool.eq_false_iff.2 hcon)

def onesOnly (info : ProdInfo) : Bool := info.signature = Signature.fill 1

/-- Two products in a queue with eight slots: the sweep deletes one and retains the other. -/
theorem selective_sweep_ones : ∃ (a : Audit) (res : Stepped) (q' : ProductQueue),
    Reached smallSection (fun _ => True) a ∧
    (QueueCursor.sweep onesOnly a.queue).returned = some (res, q') ∧
    res.status = PqStatus.end.toInt ∧ (∃ t pg, (t, pg) ∈ a.store.live ∧ pg.Absent q'.ix) ∧
    ∃ t pg, (t, pg) ∈ a.store.live ∧ Retained a.queue.ix t pg q'.ix := by
  obtain ⟨a, hreach, hpos, hgrants, ⟨t, pg, hlive, hones⟩, ⟨t', pg', hlive', hother⟩, hsome⟩ :
      ∃ a : Audit, Reached smallSection (fun _ => True) a ∧ (∀ p ∈ a.queue.ix.times, ZERO < p.1 ∧ 0 ≤ p.1.usec) ∧
        a.queue.ix.env.GrantsNext a.queue.ix.times.length ∧
        (∃ t pg, (t, pg) ∈ a.store.live ∧ onesOnly (stored pg.info) = true) ∧
        (∃ t pg, (t, pg) ∈ a.store.live ∧ ¬ onesOnly (stored pg.info) = true) ∧
        (sweep onesOnly a.queue).returned.isSome = true := by
    refine exists_run 8 (q := blankQueue 8 tick) rfl rfl pairOps ?_
    decide +kernel
  obtain ⟨⟨res, q'⟩, hret⟩ := Option.isSome_iff_exists.1 hsome
  obtain ⟨hend, -, -, hall⟩ := (selective_sweep smallSection hreach onesOnly hpos hgrants).wlp.of_returned hret
  have hgone := hall t pg hlive
  rw [if_pos hones] at hgone
  have hkept := hall t' pg' hlive'
  rw [if_neg hother] at hkept
  exact ⟨a, res, q', hreach, hret, hend, ⟨t, pg, hlive, hgone.2⟩, t', pg', hlive', hkept⟩

/-- The pool has no block for a second free region: the sweep ends in a failed assertion, after the signature and the
time of the product were removed. -/
theorem sweep_fails : ∃ a : Audit, Reached smallSection (fun _ => True) a ∧
    (∀ p ∈ a.queue.ix.times, Timestamp.ZERO < p.1 ∧ p.1 < Timestamp.ENDT ∧ 0 ≤ p.1.usec) ∧ a.queue.reserved = [] ∧
    a.queue.ix.env.GrantsNext a.queue.ix.times.length ∧ (QueueCursor.sweep onesOnly a.queue).warned = true ∧
    (QueueCursor.sweep onesOnly a.queue).fault = some .assertion := by
  apply exists_computed tick pairOps
  decide +kernel

end Rdm
