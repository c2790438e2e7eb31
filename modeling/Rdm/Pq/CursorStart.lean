import Rdm.Pq.Consistency
import Rdm.Pq.TimeMap

/-!
# Where a reader starts

`setCursorClass` puts a cursor on the entry before the time range of a class. Where there is none, an entry at the very
beginning is passed over.
-/

namespace Rdm

open ProgLogic ProgLogic.Prog Xdr SunRpcSerializer OrderedMap QueueIndexManager List
open Timestamp (ENDT NONE ZERO)

variable {D : DataSection} {q : ProductQueue} {st : Store} {contains : ProdInfo → Bool} {times : List (Timestamp × Int)}

/-! ## The times as a map -/

def timeMap (times : List (Timestamp × Int)) : Map Timestamp Int := fun t => (times.find? fun p => p.1 = t).map Prod.snd

theorem lists_timeMap (hs : times.Pairwise fun p p' => p.1 < p'.1) :
    Lists (timeMap times) times := by
  refine ⟨hs, fun t off => ?_⟩
  unfold timeMap
  constructor
  · intro h
    obtain ⟨p, hp, rfl⟩ := Option.map_eq_some_iff.1 h
    have ht : p.1 = t := by simpa using find?_some hp
    rw [← ht]
    exact mem_of_find?_eq_some hp
  · intro hm
    cases hf : times.find? fun p => decide (p.1 = t) with
    | none => exact absurd (find?_eq_none.1 hf _ hm) (by simp)
    | some p =>
      have ht : p.1 = t := by simpa using find?_some hf
      have hnd : (times.map Prod.fst).Nodup := by
        rw [List.Nodup, pairwise_map]
        exact hs.imp fun hab => ne_of_lt hab
      rw [inj_on_of_nodup_map hnd (mem_of_find?_eq_some hf) hm ht]
      rfl

theorem neighbour_answers (hs : times.Pairwise fun p p' => p.1 < p'.1) (key : Timestamp)
    (mt : Match) : TimeQueue.Answers (timeMap times) key mt (neighbour times key mt) := by
  have hl := lists_timeMap hs
  cases mt with
  | lessThan => exact hl.below fun e => decide_eq_true_iff
  | equal => exact hl.at fun e => decide_eq_true_iff
  | greaterThan => exact hl.above fun e => decide_eq_true_iff

/-! ## Readers that step on -/

namespace QueueCursor

def InRange (t : Timestamp) : Prop := 0 ≤ t.sec ∧ 0 ≤ t.usec ∧ t ≤ Timestamp.ENDT

instance (t : Timestamp) : Decidable (InRange t) := inferInstanceAs (Decidable (_ ∧ _))

def browse (D : DataSection) (contains : ProdInfo → Bool) : List (Bool × Bool) → Timestamp → Prog ProductQueue
    (List Timestamp)
  | [], _ => return []
  | (reverse, mapped) :: steps, cursor => do
    let res ← next D reverse contains mapped cursor
    let rest ← browse D contains steps res.cursor
    if res.status = PqStatus.end.toInt then return rest else return res.cursor :: rest

def sideOf (reverse : Bool) : Match := if reverse then .lessThan else .greaterThan

def walk (times : List (Timestamp × Int)) : List Bool → Timestamp → List Timestamp
  | [], _ => []
  | reverse :: steps, cursor =>
    match neighbour times (startOf reverse cursor) (sideOf reverse) with
    | none => walk times steps (startOf reverse cursor)
    | some p => p.1 :: walk times steps p.1

end QueueCursor

open QueueCursor

theorem Holds.sorted (h : Holds D q st) : q.ix.times.Pairwise fun p p' => p.1 < p'.1 := by
  obtain ⟨⟨g, hk⟩, -⟩ := h
  rw [hk.inv.times_eq]
  exact hk.books.sorted

variable {p : Timestamp × Int} {cursor : Timestamp} {t : Timestamp} {clss : ProdClass}

theorem Holds.lt_endt (h : Holds D q st) (hp : p ∈ q.ix.times) : p.1 < ENDT := by
  obtain ⟨⟨g, hk⟩, -⟩ := h
  rw [hk.inv.times_eq] at hp
  obtain ⟨x, hx, rfl⟩ := mem_map.1 hp
  exact hk.inv.time.lt_endt x hx

theorem startOf_le (hc : cursor ≤ ENDT) (reverse : Bool) :
    startOf reverse cursor ≤ ENDT := by
  unfold startOf
  split_ifs
  · exact le_refl _
  · decide
  · exact hc

theorem next_returns (h : Holds D q st) (reverse mapped : Bool) (hc : cursor ≤ ENDT)
    (hpos : ∀ p, neighbour q.ix.times (startOf reverse cursor) (sideOf reverse) = some p → 0 ≤ p.1.sec ∧ 0 ≤ p.1.usec) :
    wp (QueueCursor.next D reverse contains mapped cursor) (fun _ _ => True) q := by
  obtain ⟨⟨g, hk⟩, -⟩ := h
  obtain ⟨k, hpure, heq⟩ := next_peek reverse
  rw [heq, wp_locked]
  exact peek_returns hk.inv hpure (by cases reverse <;> decide) (startOf_le hc reverse) hpos

theorem neighbour_mem {key : Timestamp} {mt : Match}
    (hp : neighbour times key mt = some p) : p ∈ times := by
  cases mt with
  | lessThan => exact (mem_filter.1 (mem_of_getLast? hp)).1
  | equal => exact mem_of_find?_eq_some hp
  | greaterThan => exact (mem_filter.1 (mem_of_head? hp)).1

theorem mem_of_mem_walk : ∀ {steps : List Bool} {cursor : Timestamp},
    t ∈ walk times steps cursor → ∃ p ∈ times, p.1 = t
  | [], _, ht => by cases ht
  | reverse :: steps, cursor, ht => by
    rw [walk] at ht
    split at ht
    · exact mem_of_mem_walk ht
    · next p hp =>
      rcases mem_cons.1 ht with rfl | ht
      · exact ⟨p, neighbour_mem hp, rfl⟩
      · exact mem_of_mem_walk ht

/-- **A reader that steps on** goes from neighbour to neighbour, if `pq_cset` can be called with what it visits. -/
theorem browse_spec : ∀ (steps : List (Bool × Bool)) {q : ProductQueue} {cursor : Timestamp}, Holds D q st →
    cursor ≤ ENDT → (∀ t ∈ walk q.ix.times (steps.map Prod.fst) cursor, 0 ≤ t.sec ∧ 0 ≤ t.usec) →
    wp (browse D contains steps cursor) (fun visited _ => visited = walk q.ix.times (steps.map Prod.fst) cursor) q
  | [], _, _, _, _, _ => wp_pure.2 rfl
  | (reverse, mapped) :: steps, q, cursor, h, hc, hpos => by
    rw [map_cons, walk] at hpos ⊢
    have hstep : ∀ p, neighbour q.ix.times (startOf reverse cursor) (sideOf reverse) = some p →
        0 ≤ p.1.sec ∧ 0 ≤ p.1.usec := by
      intro p hp
      rw [hp] at hpos
      exact hpos _ (mem_cons_self ..)
    rw [browse, wp_bind]
    refine ((next_spec h reverse contains mapped cursor).total (next_returns h reverse mapped hc hstep)).mono ?_
    rintro res q' ⟨rfl, ⟨hnone, rfl⟩ | ⟨t, pg, -, hat, hsome⟩⟩
    · rw [show neighbour q.ix.times (startOf reverse cursor) (sideOf reverse) = none from hnone] at hpos ⊢
      rw [wp_bind]
      refine (browse_spec steps h.afterRead (startOf_le hc reverse) hpos).mono ?_
      rintro rest q'' rfl
      rw [if_pos rfl, wp_pure]
      rfl
    · rw [show neighbour q.ix.times (startOf reverse cursor) (sideOf reverse) = some (t, pg.offset) from hsome]
        at hpos ⊢
      have hst : res.status ≠ PqStatus.end.toInt := by
        rcases hat.2 with ⟨-, hst, -⟩ | ⟨-, hst, -⟩
        · rw [hst]
          decide
        · rw [hst]
          decide
      rw [hat.1, wp_bind]
      have hend : t ≤ ENDT := le_of_lt (h.lt_endt (neighbour_mem hsome))
      refine (browse_spec steps h.afterRead hend fun t' ht' => hpos t' (mem_cons_of_mem _ ht')).mono ?_
      rintro rest q'' rfl
      rw [if_neg hst, wp_pure]
      rfl

/-! ## Readers log no warning -/

theorem silent_find (key : Timestamp) (mt : Match) : Silent (TimeQueue.find key mt) := by
  refine silent_read.bind fun s => silent_ite silent_pure (silent_ofOption.bind ?_)
  rintro ⟨-, p, q⟩
  cases mt with
  | lessThan => exact silent_pure
  | equal => exact silent_pure
  | greaterThan => exact silent_ite silent_pure (silent_ite silent_pure silent_pure)

theorem silent_locked {α : Type} {m : Prog (QueueIndexManager World) α} (hm : Silent m) :
    Silent (ProductQueue.locked m) :=
  (hm.bind fun _ => silent_modify.bind fun _ => silent_pure).zoom

theorem silent_peek {mt : Match}
    {k : QueueIndexManager World → Nat → Nat → Prog (QueueIndexManager World) Stepped}
    (hk : ∀ s x r, ∃ res, k s x r = pure res) : Silent (peek mt cursor k) := by
  refine silent_read.bind fun s => (silent_find _ _).zoom.bind fun r => ?_
  cases r with
  | none => exact silent_pure
  | some x =>
    refine silent_assert.bind fun _ => (RegionList.silent_find _).zoom.bind fun rlix => ?_
    obtain ⟨res, hres⟩ := hk s x rlix
    rw [hres]
    exact silent_pure

theorem silent_next (reverse mapped : Bool) (cursor : Timestamp) :
    Silent (QueueCursor.next D reverse contains mapped cursor) := by
  obtain ⟨k, hpure, heq⟩ := next_peek reverse
  rw [heq]
  exact silent_locked (silent_peek hpure)

theorem silent_placeAt (time : Timestamp) (otherway direction : Match) : Silent (placeAt time otherway direction) := by
  refine silent_locked (silent_read.bind fun s => (silent_find _ _).zoom.bind fun r => ?_)
  cases r with
  | none => exact silent_pure
  | some x => exact silent_pure

theorem silent_setCursorClass (clss : ProdClass) (cursor : Timestamp) : Silent (setCursorClass clss cursor) :=
  silent_ite silent_pure (silent_assert.zoom.bind fun _ =>
    silent_ite (silent_ite silent_pure (silent_placeAt _ _ _)) (silent_ite silent_pure (silent_placeAt _ _ _)))

theorem silent_browse : ∀ (steps : List (Bool × Bool)) (cursor : Timestamp), Silent (browse D contains steps cursor)
  | [], _ => silent_pure
  | (reverse, mapped) :: steps, cursor => by
    exact (silent_next reverse mapped cursor).bind fun res => (silent_browse steps _).bind fun rest =>
      silent_ite silent_pure silent_pure

/-! ## Reading forwards -/

def timesAfter (times : List (Timestamp × Int)) (t : Timestamp) : List Timestamp :=
  (times.filter fun p => t < p.1).map Prod.fst

theorem timesAfter_cons (hs : times.Pairwise fun p p' => p.1 < p'.1)
    (hp : neighbour times t .greaterThan = some p) :
    timesAfter times t = p.1 :: timesAfter times p.1 := by
  have hs' : (times.filter fun p => decide (t < p.1)).Pairwise fun p p' => p.1 < p'.1 := hs.sublist filter_sublist
  obtain ⟨rest, hrest⟩ : ∃ rest, (times.filter fun p => decide (t < p.1)) = p :: rest := by
    rw [neighbour] at hp
    exact ⟨_, eq_cons_of_mem_head? hp⟩
  have htp : t < p.1 := by
    have hm : p ∈ times.filter fun p => decide (t < p.1) := mem_of_head? hp
    simpa using (mem_filter.1 hm).2
  have hsplit : (times.filter fun p' => decide (p.1 < p'.1)) = (p :: rest).filter fun p' => decide (p.1 < p'.1) := by
    rw [← hrest, filter_filter]
    refine filter_congr fun p' _ => ?_
    by_cases hlt : p.1 < p'.1
    · simp [hlt, lt_trans htp hlt]
    · simp [hlt]
  rw [hrest] at hs'
  have hfil : (rest.filter fun p' => decide (p.1 < p'.1)) = rest :=
    filter_eq_self.2 fun p' hp' => by simpa using (pairwise_cons.1 hs').1 p' hp'
  rw [timesAfter, timesAfter, hsplit, hrest, filter_cons_of_neg (by simp), hfil, map_cons]

theorem startOf_of_nonneg (ht : 0 ≤ t.sec) (reverse : Bool) : startOf reverse t = t := by
  rw [startOf, if_neg]
  rintro rfl
  exact absurd ht (by decide)

theorem walk_forward (hs : times.Pairwise fun p p' => p.1 < p'.1) : ∀ (n : Nat)
    {cursor : Timestamp}, (∀ t ∈ timesAfter times (startOf false cursor), 0 ≤ t.sec) →
    walk times (replicate n false) cursor = (timesAfter times (startOf false cursor)).take n
  | 0, _, _ => rfl
  | n + 1, cursor, hpos => by
    rw [replicate_succ, walk]
    cases hn : neighbour times (startOf false cursor) (sideOf false) with
    | none =>
      have hnil : timesAfter times (startOf false cursor) = [] := by
        rw [timesAfter, head?_eq_none_iff.1 hn, map_nil]
      have hsame : startOf false (startOf false cursor) = startOf false cursor := by
        by_cases hc : cursor = NONE
        · rw [hc]
          rfl
        · rw [startOf, startOf, if_neg hc, if_neg hc]
      have hrest := walk_forward hs n (by rwa [hsame])
      rw [hsame, hnil, take_nil] at hrest
      rw [hrest, hnil, take_nil]
    | some p =>
      have hcons := timesAfter_cons hs hn
      rw [hcons] at hpos ⊢
      have hp : startOf false p.1 = p.1 := startOf_of_nonneg (hpos _ (mem_cons_self ..)) false
      have hrest := walk_forward hs n (by
        rw [hp]
        exact fun t ht => hpos t (mem_cons_of_mem _ ht))
      rw [hp] at hrest
      rw [take_succ_cons, ← hrest]

/-! ## Placing a cursor -/

def placedAt (times : List (Timestamp × Int)) (clss : ProdClass) : Timestamp :=
  if toTime clss < fromTime clss then
    if fromTime clss = Timestamp.ENDT then fromTime clss
    else ((neighbour times (fromTime clss) .greaterThan).map Prod.fst).getD (fromTime clss)
  else if fromTime clss = Timestamp.ZERO then fromTime clss
  else ((neighbour times (fromTime clss) .lessThan).map Prod.fst).getD (fromTime clss)

def Accepted (clss : ProdClass) : Prop :=
  clss.specs ≠ [] ∧ fromTime clss ≠ Timestamp.NONE ∧ toTime clss ≠ Timestamp.NONE

instance (clss : ProdClass) : Decidable (Accepted clss) := inferInstanceAs (Decidable (_ ∧ _))

theorem placeAt_spec (h : Holds D q st) {time : Timestamp} (ht : time ≤ ENDT) {otherway : Match}
    (hway : otherway ≠ .equal) (direction : Match) :
    wp (placeAt time otherway direction) (fun res q' => q' = q.afterRead ∧
      res = ⟨0, ((neighbour q.ix.times time otherway).map Prod.fst).getD time, some direction⟩) q := by
  obtain ⟨⟨g, hk⟩, -⟩ := h
  rw [placeAt, wp_locked, wp_bind, wp_read, wp_bind, hk.inv.times_eq]
  refine (tqFind_total hk.inv ht fun e => absurd e hway).mono ?_
  rintro r s1 ⟨rfl, ⟨rfl, hn⟩ | ⟨x, -, rfl, hn⟩⟩
  · rw [hn]
    exact wp_pure.2 ⟨rfl, rfl⟩
  · rw [hn]
    exact wp_pure.2 ⟨rfl, rfl⟩

/-- **Placing a cursor** at a time range that begins in range. -/
theorem setCursorClass_spec (h : Holds D q st) (ha : Accepted clss) (hr : InRange (fromTime clss))
    (cursor : Timestamp) : wp (setCursorClass clss cursor) (fun res q' => (q' = q ∨ q' = q.afterRead) ∧ res.status = 0 ∧
      res.cursor = placedAt q.ix.times clss) q := by
  obtain ⟨hspecs, hfrom, hto⟩ := ha
  obtain ⟨h0, h1, hend⟩ := hr
  rw [setCursorClass, if_neg (by simp [hspecs, hfrom, hto]), wp_bind, wp_zoom, cset, wp_assert]
  refine ⟨⟨h0, h1⟩, ?_⟩
  unfold placedAt
  split_ifs
  · exact wp_pure.2 ⟨.inl rfl, rfl, rfl⟩
  · refine (placeAt_spec h hend (by decide) _).mono ?_
    rintro res q' ⟨rfl, rfl⟩
    exact ⟨.inr rfl, rfl, rfl⟩
  · exact wp_pure.2 ⟨.inl rfl, rfl, rfl⟩
  · refine (placeAt_spec h hend (by decide) _).mono ?_
    rintro res q' ⟨rfl, rfl⟩
    exact ⟨.inr rfl, rfl, rfl⟩

theorem setCursorClass_rejected (ha : ¬ Accepted clss) (cursor : Timestamp) :
    wp (setCursorClass clss cursor) (fun res q' => q' = q ∧ res = ⟨EINVAL, cursor, none⟩) q := by
  rw [setCursorClass, if_pos, wp_pure]
  · exact ⟨rfl, rfl⟩
  · by_contra hn
    exact ha (by simpa [Accepted, not_or] using hn)

theorem placedAt_le (h : Holds D q st) (hend : fromTime clss ≤ ENDT) :
    placedAt q.ix.times clss ≤ ENDT := by
  have hfound : ∀ mt, ((neighbour q.ix.times (fromTime clss) mt).map Prod.fst).getD (fromTime clss) ≤ ENDT := by
    intro mt
    cases hn : neighbour q.ix.times (fromTime clss) mt with
    | none => exact hend
    | some p => exact le_of_lt (h.lt_endt (neighbour_mem hn))
  unfold placedAt
  split_ifs
  · exact hend
  · exact hfound _
  · exact hend
  · exact hfound _

theorem le_of_neighbour_lessThan (hs : times.Pairwise fun p p' => p.1 < p'.1)
    {key : Timestamp} (hp : neighbour times key .lessThan = some p) :
    p.1 < key ∧ ∀ p' ∈ times, p'.1 < key → p'.1 ≤ p.1 := by
  have hm := mem_filter.1 (mem_of_getLast? hp)
  refine ⟨of_decide_eq_true hm.2, fun p' hp' hlt => ?_⟩
  obtain ⟨pre, hpre⟩ := getLast?_eq_some_iff.1 hp
  have hs' := hs.sublist (filter_sublist (p := fun p => decide (p.1 < key)))
  rw [hpre] at hs'
  have hp'' : p' ∈ pre ++ [p] := hpre ▸ mem_filter.2 ⟨hp', decide_eq_true hlt⟩
  rcases mem_append.1 hp'' with hm' | hm'
  · exact le_of_lt ((pairwise_append.1 hs').2.2 p' hm' p (mem_singleton_self p))
  · rw [mem_singleton.1 hm']

def timesFrom (times : List (Timestamp × Int)) (t : Timestamp) : List Timestamp :=
  (times.filter fun p => t ≤ p.1).map Prod.fst

def NotPassedOver (times : List (Timestamp × Int)) (start : Timestamp) : Prop :=
  (∀ p ∈ times, p.1 ≠ start) ∨ start ≠ Timestamp.ZERO ∧ ∃ p ∈ times, p.1 < start

instance (times : List (Timestamp × Int)) (start : Timestamp) : Decidable (NotPassedOver times start) :=
  inferInstanceAs (Decidable (_ ∨ _))

theorem timesAfter_eq_timesFrom {c : Timestamp}
    (h : ∀ p ∈ times, c < p.1 ↔ t ≤ p.1) : timesAfter times c = timesFrom times t := by
  rw [timesAfter, timesFrom, filter_congr fun p hp => decide_eq_decide.2 (h p hp)]

/-- **After the place of the cursor** come the times from the beginning of the range on. -/
theorem timesAfter_placedAt (hs : times.Pairwise fun p p' => p.1 < p'.1)
    (hzero : ZERO ≤ fromTime clss) (hle : fromTime clss ≤ toTime clss)
    (hpass : NotPassedOver times (fromTime clss)) :
    timesAfter times (startOf false (placedAt times clss)) = timesFrom times (fromTime clss) := by
  have hstart : startOf false (fromTime clss) = fromTime clss := by
    rw [startOf, if_neg]
    intro he
    rw [he] at hzero
    exact absurd hzero (by decide)
  -- without an entry to go back to, the cursor stays, and nothing is at this very time
  have hstay : (∀ p ∈ times, p.1 ≠ fromTime clss) → ∀ p ∈ times, fromTime clss < p.1 ↔ fromTime clss ≤ p.1 :=
    fun hne p hp => ⟨le_of_lt, fun hlt => lt_of_le_of_ne hlt (hne p hp).symm⟩
  rw [placedAt, if_neg (not_lt.2 hle)]
  split_ifs with hz
  · rw [hstart]
    exact timesAfter_eq_timesFrom (hstay (hpass.resolve_right fun hr => hr.1 hz))
  · cases hn : neighbour times (fromTime clss) .lessThan with
    | none =>
      have hnil := getLast?_eq_none_iff.1 hn
      rw [Option.map_none, Option.getD_none, hstart]
      refine timesAfter_eq_timesFrom (hstay (hpass.resolve_right ?_))
      rintro ⟨-, p, hp, hlt⟩
      have hm : p ∈ times.filter fun p => decide (p.1 < fromTime clss) := mem_filter.2 ⟨hp, decide_eq_true hlt⟩
      rw [hnil] at hm
      cases hm
    | some p =>
      obtain ⟨hlt, hbefore⟩ := le_of_neighbour_lessThan hs hn
      rw [Option.map_some, Option.getD_some]
      have hc : p.1 ≤ startOf false p.1 ∧ startOf false p.1 < fromTime clss := by
        by_cases hnone : p.1 = NONE
        · rw [hnone]
          exact ⟨by decide, lt_of_le_of_ne hzero (Ne.symm hz)⟩
        · rw [startOf, if_neg hnone]
          exact ⟨le_refl _, hlt⟩
      refine timesAfter_eq_timesFrom fun p' hp' => ⟨fun hlt' => ?_, fun hge => lt_of_lt_of_le hc.2 hge⟩
      by_contra hnot
      exact absurd (hbefore p' hp' (not_le.1 hnot)) (not_le.2 (lt_of_le_of_lt hc.1 hlt'))

/-! ## What a reader gets -/

def readClass (D : DataSection) (clss : ProdClass) (contains : ProdInfo → Bool) (steps : List (Bool × Bool))
    (cursor : Timestamp) : Prog ProductQueue (List Timestamp) := do
  let placed ← setCursorClass clss cursor
  browse D contains steps placed.cursor

def placedOf (times : List (Timestamp × Int)) (clss : ProdClass) (cursor : Timestamp) : Timestamp :=
  if Accepted clss then placedAt times clss else cursor

theorem silent_readClass (clss : ProdClass) (steps : List (Bool × Bool)) (cursor : Timestamp) :
    Silent (readClass D clss contains steps cursor) :=
  (silent_setCursorClass clss cursor).bind fun _ => silent_browse steps _

def StartsInRange (clss : ProdClass) (cursor : Timestamp) : Prop :=
  if Accepted clss then InRange (fromTime clss) else cursor ≤ Timestamp.ENDT

instance (clss : ProdClass) (cursor : Timestamp) : Decidable (StartsInRange clss cursor) :=
  inferInstanceAs (Decidable (ite _ _ _))

theorem readClass_spec (h : Holds D q st) (hr : StartsInRange clss cursor)
    (contains : ProdInfo → Bool) (steps : List (Bool × Bool))
    (hpos : ∀ t ∈ walk q.ix.times (steps.map Prod.fst) (placedOf q.ix.times clss cursor), 0 ≤ t.sec ∧ 0 ≤ t.usec) :
    wp (readClass D clss contains steps cursor) (fun visited _ =>
      visited = walk q.ix.times (steps.map Prod.fst) (placedOf q.ix.times clss cursor)) q := by
  rw [readClass, wp_bind]
  unfold StartsInRange placedOf at *
  split_ifs at hr hpos ⊢ with ha
  · refine (setCursorClass_spec h ha hr cursor).mono ?_
    rintro res q' ⟨rfl | rfl, -, hcursor⟩
    · rw [hcursor]
      exact browse_spec steps h (placedAt_le h hr.2.2) hpos
    · rw [hcursor]
      exact browse_spec steps h.afterRead (placedAt_le h hr.2.2) hpos
  · refine (setCursorClass_rejected ha cursor).mono ?_
    rintro res q' ⟨rfl, rfl⟩
    exact browse_spec steps h hr hpos

/-- **A reader of a class** gets the products from the beginning of the time range on, in order: if a product at the
very beginning of the range has one before it, and `pq_cset` takes the microseconds. -/
theorem reader_of_class (D : DataSection) {P : QueueOp → Prop} {a : Audit} (hrun : Reached D P a) {clss : ProdClass}
    (hzero : Timestamp.ZERO ≤ fromTime clss) (hle : fromTime clss ≤ toTime clss) (hto : toTime clss ≤ Timestamp.ENDT)
    (hspecs : clss.specs ≠ []) (husec : 0 ≤ (fromTime clss).usec)
    (hclock : ∀ p ∈ a.queue.ix.times, fromTime clss ≤ p.1 → 0 ≤ p.1.usec)
    (hpass : NotPassedOver a.queue.ix.times (fromTime clss)) (contains : ProdInfo → Bool) (cursor : Timestamp)
    (mapped : List Bool) :
    ∃ visited q', (readClass D clss contains (mapped.map (Prod.mk false)) cursor a.queue).returned =
      some (visited, q') ∧ visited = (timesFrom a.queue.ix.times (fromTime clss)).take mapped.length := by
  have h := hrun.holds
  have hsec : ∀ t, ZERO ≤ t → 0 ≤ t.sec := by
    intro t ht
    rcases Timestamp.le_iff.1 ht with hlt | ⟨he, -⟩
    · exact le_of_lt hlt
    · exact le_of_eq he
  have hnone : ∀ t, ZERO ≤ t → t ≠ NONE := by
    rintro t ht rfl
    exact absurd ht (by decide)
  have ha : Accepted clss := ⟨hspecs, hnone _ hzero, hnone _ (le_trans hzero hle)⟩
  have hr : StartsInRange clss cursor := by
    rw [StartsInRange, if_pos ha]
    exact ⟨hsec _ hzero, husec, le_trans hle hto⟩
  have hafter := timesAfter_placedAt h.sorted hzero hle hpass
  have hmem : ∀ t ∈ timesFrom a.queue.ix.times (fromTime clss), 0 ≤ t.sec ∧ 0 ≤ t.usec := by
    intro t ht
    obtain ⟨p, hp, rfl⟩ := mem_map.1 ht
    obtain ⟨hp, hge⟩ := mem_filter.1 hp
    have hge : fromTime clss ≤ p.1 := of_decide_eq_true hge
    exact ⟨hsec _ (le_trans hzero hge), hclock p hp hge⟩
  have hdirs : (mapped.map (Prod.mk false)).map Prod.fst = List.replicate mapped.length false := by
    rw [map_map, ← map_const]
    rfl
  have hwalk : walk a.queue.ix.times (List.replicate mapped.length false) (placedAt a.queue.ix.times clss) =
      (timesFrom a.queue.ix.times (fromTime clss)).take mapped.length := by
    rw [walk_forward h.sorted, hafter]
    rw [hafter]
    exact fun t ht => (hmem t ht).1
  have hread := readClass_spec h hr contains (mapped.map (Prod.mk false))
  rw [hdirs, placedOf, if_pos ha, hwalk] at hread
  exact (hread fun t ht => hmem t (mem_of_mem_take ht)).returns (silent_readClass _ _ _)

def twoOps : List QueueOp :=
  [.newElement (sampleInfo 1) true, .commit 0, .newElement (sampleInfo 2) true, .commit 0]

def classFrom (start : Timestamp) : ProdClass :=
  { fromSec := start.sec, fromUsec := start.usec, toSec := Timestamp.ENDT.sec, toUsec := Timestamp.ENDT.usec,
    specs := [{}] }

/-- The product at second 3 is found from the one before it. -/
theorem reader_of_class_second : ∃ (a : Audit) (q' : ProductQueue),
    Reached smallSection (fun _ => True) a ∧
    (readClass smallSection (classFrom ⟨3, 0⟩) (fun _ => true) [(false, true), (false, true)]
    Timestamp.NONE
      a.queue).returned = some ([⟨3, 0⟩], q') := by
  obtain ⟨a, hreach, hclock, hpass, hfrom⟩ : ∃ a : Audit, Reached smallSection (fun _ => True) a ∧
      (∀ p ∈ a.queue.ix.times, fromTime (classFrom ⟨3, 0⟩) ≤ p.1 → 0 ≤ p.1.usec) ∧
      NotPassedOver a.queue.ix.times (fromTime (classFrom ⟨3, 0⟩)) ∧
      timesFrom a.queue.ix.times (fromTime (classFrom ⟨3, 0⟩)) = [⟨3, 0⟩] := by
    apply exists_computed tick twoOps
    decide +kernel
  obtain ⟨visited, q', hres, rfl⟩ := reader_of_class smallSection hreach
    (show ZERO ≤ fromTime (classFrom ⟨3, 0⟩) by decide) (by decide) (by decide) (by decide) (by decide) hclock hpass
    (fun _ => true) NONE [true, true]
  refine ⟨a, q', hreach, hres.trans ?_⟩
  rw [hfrom]
  rfl

/-- There is no product before the one at second 1, so the cursor is at its very time, and `next` searches after it. -/
theorem first_passed_over : ∃ a : Audit, Reached smallSection (fun _ => True) a ∧
    timesFrom a.queue.ix.times (fromTime (classFrom ⟨1, 0⟩)) = [⟨1, 0⟩, ⟨3, 0⟩] ∧
    (readClass smallSection (classFrom ⟨1, 0⟩) (fun _ => true) [(false, true), (false, true)]
    Timestamp.NONE
      a.queue).returned.map Prod.fst = some [⟨3, 0⟩] := by
  apply exists_computed tick twoOps
  decide +kernel

/-- **A reader keeps to the queue** and returns, whatever the class and the directions of its steps, if it starts in
range and `pq_cset` takes the times of the queue. -/
theorem reader_keeps_to_queue (D : DataSection) {P : QueueOp → Prop} {a : Audit} (hrun : Reached D P a)
    {clss : ProdClass} {cursor : Timestamp} (hr : StartsInRange clss cursor)
    (hclock : ∀ p ∈ a.queue.ix.times, 0 ≤ p.1.sec ∧ 0 ≤ p.1.usec) (contains : ProdInfo → Bool)
    (steps : List (Bool × Bool)) :
    (∃ visited q', (readClass D clss contains steps cursor a.queue).returned = some (visited, q') ∧
      visited = walk a.queue.ix.times (steps.map Prod.fst) (placedOf a.queue.ix.times clss cursor) ∧
      ∀ t ∈ visited, ∃ x ∈ a.queue.ix.linked, (a.queue.ix.tq.tqep x).tv = t) ∧
    ∀ (key : Timestamp) (mt : Match), key ≤ Timestamp.ENDT → (mt = .equal → key < Timestamp.ENDT) →
      ∃ r ix', (onTq (TimeQueue.find key mt) a.queue.ix).returned = some (r, ix') ∧
        TimeQueue.Answers (timeMap a.queue.ix.times) key mt (r.map (timeOf a.queue.ix.tq)) ∧
        ∀ x ∈ r, x ∈ a.queue.ix.linked ∧ x ≠ TQ_NIL ∧ x ≠ TQ_HEAD := by
  have h := hrun.holds
  constructor
  · have hread := readClass_spec h hr contains steps fun t ht => by
      obtain ⟨p, hp, rfl⟩ := mem_of_mem_walk ht
      exact hclock p hp
    obtain ⟨visited, q', hres, rfl⟩ := hread.returns (silent_readClass _ _ _)
    refine ⟨_, q', hres, rfl, fun t ht => ?_⟩
    obtain ⟨p, hp, rfl⟩ := mem_of_mem_walk ht
    obtain ⟨x, hx, rfl⟩ := mem_map.1 hp
    exact ⟨x, hx, rfl⟩
  · intro key mt hkey hmt
    have hans := neighbour_answers h.sorted key mt
    obtain ⟨⟨g, hk⟩, -⟩ := h
    obtain ⟨r, ix', hres, -, hr⟩ := (tqFind_total hk.inv hkey hmt).returns (silent_find key mt).zoom
    refine ⟨r, ix', hres, ?_⟩
    rw [hk.inv.times_eq] at hans ⊢
    rcases hr with ⟨rfl, hn⟩ | ⟨x, hx, rfl, hn⟩
    · rw [hn] at hans
      exact ⟨hans, fun x hx => by cases hx⟩
    · rw [hn] at hans
      refine ⟨hans, fun y hy => ?_⟩
      cases hy
      rw [hk.inv.linked_eq]
      have hslot := (hk.inv.time.mem_slots (mem_append_left _ hx)).1
      exact ⟨hx, Nat.ne_of_gt (Nat.lt_trans (by decide) hslot), Nat.ne_of_gt hslot⟩

/-- A reader of the products from second 2 on that steps forwards and then back. -/
theorem reader_keeps_to_queue_pair : ∃ (a : Audit) (visited : List Timestamp) (q' : ProductQueue),
    Reached smallSection (fun _ => True) a ∧
    (readClass smallSection (classFrom ⟨2, 0⟩) (fun _ => true) [(false, true), (true, true)]
    Timestamp.NONE
      a.queue).returned = some (visited, q') ∧
    ∀ t ∈ visited, ∃ x ∈ a.queue.ix.linked, (a.queue.ix.tq.tqep x).tv = t := by
  obtain ⟨a, hreach, hclock⟩ : ∃ a : Audit, Reached smallSection (fun _ => True) a ∧
      ∀ p ∈ a.queue.ix.times, 0 ≤ p.1.sec ∧ 0 ≤ p.1.usec := by
    apply exists_computed tick twoOps
    decide +kernel
  obtain ⟨visited, q', hres, -, hlinked⟩ := (reader_keeps_to_queue smallSection hreach
    (show StartsInRange (classFrom ⟨2, 0⟩) NONE by decide) hclock (fun _ => true) [(false, true), (true, true)]).1
  exact ⟨a, visited, q', hreach, hres, hlinked⟩

/-- The search steps over the tail of the queue and does not end. -/
theorem search_past_tail : ∃ a : Audit, Reached smallSection (fun _ => True) a ∧
    a.queue.ix.times.map Prod.fst = [⟨1, 0⟩, ⟨3, 0⟩] ∧
    (setCursorClass (classFrom ⟨2147483647, 1000000⟩) Timestamp.NONE a.queue).fault = some .hang ∧
    (setCursorClass (classFrom ⟨-5, 0⟩) Timestamp.NONE a.queue).fault = some .assertion := by
  apply exists_computed tick twoOps
  decide +kernel

end Rdm
