import Rdm.Lib.Leases
import Rdm.Lib.Transitions
import Rdm.Pq.Consistency

/-!
# The life of a queue entry

`rdm::QueueEntry` owns the mapped region of a reservation, a lease that ends when the product gets its time
(`committed`) or the region is freed (`released`).
-/

namespace Rdm

namespace Lifecycle

open ProgLogic ProgLogic.Prog Leases QueueIndexManager List
open Function (update update_of_ne update_self)

/-- How a reservation ends. -/
inductive Resolution where
  | committed
  | released
deriving DecidableEq

/-- `rdm::QueueEntry`. `index_` and `payload_ptr_` are part of its reservation here; of a callback it only matters
whether it is set. -/
structure QueueEntry where
  region : Option (Lease Reservation) := none
  isCommitted : Bool := false
  commitCb : Bool := false
  rollbackCb : Bool := false
deriving DecidableEq

/-- The queue and its clients: the objects at their addresses, how many reservations were made, how they ended, and
`pqe_count_`. -/
structure Clients where
  queue : ProductQueue
  objects : Nat → Option QueueEntry
  issued : Nat
  ends : List (Nat × Resolution)
  pqeCount : Int

def Clients.lease (c : Clients) (x : Nat) : Option (Lease Reservation) := (c.objects x).bind QueueEntry.region

/-! ## The callbacks -/

def onQueue {α : Type} (m : Prog ProductQueue α) : Prog Clients α := zoom (·.queue) (fun q c => { c with queue := q }) m

def put (x : Nat) (o : Option QueueEntry) : Prog Clients Unit :=
  modify fun c => { c with objects := Function.update c.objects x o }

def finish (n : Nat) (k : Resolution) : Prog Clients Unit :=
  modify fun c => { c with ends := c.ends ++ [(n, k)], pqeCount := c.pqeCount - 1 }

def rollbackEntry (l : Lease Reservation) : Prog Clients Int := do
  let status ← onQueue (ProductQueue.rollbackEntry l.resource)
  if status = 0 then
    finish l.number .released
    return 0
  else return status

def commitEntry (l : Lease Reservation) : Prog Clients Int := do
  let status ← onQueue (ProductQueue.tryCommit l.resource)
  if status ≠ 0 then
    let _ ← rollbackEntry l
    return status
  else
    finish l.number .committed
    return 0

def handOver (x : Nat) (o : QueueEntry) (l : Lease Reservation) : Prog Clients Unit := do
  put x (some { o with region := none })
  onQueue (modify fun q => { q with reserved := q.reserved.erase l.resource })

/-! ## The methods -/

def commit (x : Nat) : Prog Clients Int := do
  let c ← read
  match c.objects x with
  | none => return EINVAL
  | some o =>
    if o.isCommitted = true then return 0
    else
      match o.region with
      | none => return EINVAL
      | some l =>
        if o.commitCb = false then return EINVAL
        else
          handOver x o l
          let status ← commitEntry l
          if status = 0 then
            put x (some { o with region := none, isCommitted := true })
            return 0
          else return status

def rollback (x : Nat) : Prog Clients Int := do
  let c ← read
  match c.objects x with
  | none => return 0
  | some o =>
    match o.region with
    | none => return 0
    | some l =>
      if o.isCommitted = true ∨ o.rollbackCb = false then return 0
      else
        handOver x o l
        let status ← rollbackEntry l
        if status = 0 then
          put x (some { o with region := none, commitCb := false, rollbackCb := false })
          return 0
        else return status

def destroy (x : Nat) : Prog Clients Int := do
  let c ← read
  match c.objects x with
  | none => return EINVAL
  | some o =>
    if o.isCommitted = false ∧ o.region.isSome = true ∧ o.rollbackCb = true then
      let _ ← rollback x
      put x none
      return 0
    else
      put x none
      return 0

def moveConstruct (x y : Nat) : Prog Clients Int := do
  let c ← read
  match c.objects x, c.objects y with
  | none, some o =>
    put x (some o)
    put y (some {})
    return 0
  | _, _ => return EINVAL

def moveAssign (x y : Nat) : Prog Clients Int := do
  if x = y then return 0
  else
    let c ← read
    match c.objects x, c.objects y with
    | some _, some o =>
      let _ ← rollback x
      put x (some o)
      put y (some {})
      return 0
    | _, _ => return EINVAL

def newElement (D : DataSection) (x : Nat) (info : ProdInfo) (mapped : Bool) : Prog Clients Int := do
  let status ← onQueue (ProductQueue.newElement D info mapped)
  if status ≠ 0 then return status
  else
    let c ← read
    match c.queue.reserved.getLast? with
    | none => return EINVAL
    | some r =>
      put x (some { region := some ⟨c.issued, r⟩, commitCb := true, rollbackCb := true })
      modify fun c => { c with issued := c.issued + 1, pqeCount := c.pqeCount + 1 }
      return 0

/-- What clients do. `other` are the operations of the queue that make no reservation and end none. -/
inductive EntryOp where
  | newElement (x : Nat) (info : ProdInfo) (mapped : Bool)
  | construct (x : Nat)
  | moveConstruct (x y : Nat)
  | moveAssign (x y : Nat)
  | commit (x : Nat)
  | rollback (x : Nat)
  | destroy (x : Nat)
  | other (op : QueueOp)

namespace EntryOp

def run (D : DataSection) : EntryOp → Prog Clients Int
  | .newElement x info mapped => Lifecycle.newElement D x info mapped
  | .construct x => do
    put x (some {})
    return 0
  | .moveConstruct x y => Lifecycle.moveConstruct x y
  | .moveAssign x y => Lifecycle.moveAssign x y
  | .commit x => Lifecycle.commit x
  | .rollback x => Lifecycle.rollback x
  | .destroy x => Lifecycle.destroy x
  | .other op => do
    let res ← onQueue (op.run D)
    return res.status

def Plain : QueueOp → Prop
  | .newElement _ _ | .commit _ | .rollback _ => False
  | _ => True

def Valid (c : Clients) : EntryOp → Prop
  | .newElement x info _ => c.objects x = none ∧ info.origin.length + info.ident.length < 2 ^ 62
  | .construct x => c.objects x = none
  | .other op => Plain op ∧ op.Valid c.queue
  | _ => True

instance : DecidablePred Plain
  | .newElement _ _ | .commit _ | .rollback _ => isFalse id
  | .writePayload _ _ _ | .encodeEntry _ _ | .deleteOldest | .deleteBySignature _ _ | .sequenceDelete _ _ _
  | .next _ _ _ _ | .sequence _ _ _ _ _ => isTrue trivial

instance (c : Clients) : DecidablePred (Valid c)
  | .newElement x info _ =>
    inferInstanceAs (Decidable (c.objects x = none ∧ info.origin.length + info.ident.length < 2 ^ 62))
  | .construct x => inferInstanceAs (Decidable (c.objects x = none))
  | .other op => inferInstanceAs (Decidable (Plain op ∧ op.Valid c.queue))
  | .moveConstruct _ _ | .moveAssign _ _ | .commit _ | .rollback _ | .destroy _ => isTrue trivial

def next (D : DataSection) (op : EntryOp) (c : Clients) : Option Clients := (op.run D c).returned.map Prod.snd

end EntryOp

def Start (D : DataSection) (count : Int) (c : Clients) : Prop :=
  (∃ a, Rdm.Reached D (fun _ => True) a ∧ a.queue = c.queue) ∧ (∀ x, c.objects x = none) ∧ c.issued = 0 ∧ c.ends = [] ∧
    c.pqeCount = count

/-- **The states of clients** that use any of these operations, as long as the pool does not run out and no call fails
to return. -/
def Reached (D : DataSection) (count : Int) : Clients → Prop :=
  Transitions.Reached (EntryOp.next D) (fun c op => op.Valid c) (Start D count)

/-! ## The invariant -/

/-- Every reservation is owned by one object or has ended once. -/
structure Inv (D : DataSection) (count : Int) (c : Clients) : Prop where
  holds : ∃ st, Holds D c.queue st
  owned : Owned c.lease c.queue.reserved c.issued c.ends
  armed : ∀ x o, c.objects x = some o → o.region.isSome = true →
    o.isCommitted = false ∧ o.commitCb = true ∧ o.rollbackCb = true
  counted : c.pqeCount = count + c.issued - c.ends.length

variable {D : DataSection} {count : Int} {c c' : Clients} {x y : Nat} {o : QueueEntry} {l : Lease Reservation}
variable {o' : Option QueueEntry} {k : Resolution} {Q : Unit → Clients → Prop} {z : Nat}
  {q : ProductQueue} {st : Store}

theorem lease_eq (hx : c.objects x = some o) : c.lease x = o.region := by rw [Clients.lease, hx, Option.bind_some]

theorem lease_none (hx : c.objects x = none) : c.lease x = none := by rw [Clients.lease, hx, Option.bind_none]

theorem lease_put (h : c'.objects = update c.objects x o') :
    c'.lease = update c.lease x (o'.bind QueueEntry.region) := by
  funext z
  rw [Clients.lease, h]
  by_cases hz : z = x
  · rw [hz, update_self, update_self]
  · rw [update_of_ne hz, update_of_ne hz]
    rfl

theorem draft_of_reserved (h : Holds D q st) {r : Reservation} (hr : r ∈ q.reserved) : ∃ i d g, st.drafts[i]? = some d ∧
    d.1 = r ∧ Kept D q.ix g st ∧ (st.dropDraft i).drafts.map Prod.fst = q.reserved.erase r := by
  have hlt := idxOf_lt_length_of_mem hr
  have hget : q.reserved[q.reserved.idxOf r]? = some r := by rw [List.getElem?_eq_getElem hlt, getElem_idxOf]
  have hdraft := h.reserved_eq (q.reserved.idxOf r)
  rw [hget] at hdraft
  obtain ⟨d, hd, he⟩ := Option.map_eq_some_iff.1 hdraft.symm
  obtain ⟨⟨g, hk⟩, hres⟩ := h
  refine ⟨_, d, g, hd, he, hk, ?_⟩
  rw [erase_eq_eraseIdx_of_idxOf rfl, Store.dropDraft, ← eraseIdx_map, hres]

theorem reserved_nodup (h : Holds D q st) : q.reserved.Nodup := by
  obtain ⟨⟨g, hk⟩, hres⟩ := h
  have hnd := hk.books.uses
  rw [Store.pages, map_append, nodup_append, map_map, map_map] at hnd
  rw [← hres]
  exact List.Nodup.of_map Reservation.offset (by rw [map_map]; exact hnd.2.1)

theorem Inv.put (h : Inv D count c) (hx : c.lease x = none) (ho : o'.bind QueueEntry.region = none) :
    Inv D count { c with objects := update c.objects x o' } := by
  have hlease : Clients.lease { c with objects := update c.objects x o' } = c.lease := by
    rw [lease_put (c := c) rfl, ho, ← hx, Function.update_eq_self]
  refine { h with owned := by rw [hlease]; exact h.owned, armed := fun z p hz hp => ?_ }
  by_cases hzx : z = x
  · have hz : o' = some p := by rw [hzx] at hz; simpa only [update_self] using hz
    rw [hz, Option.bind_some] at ho
    rw [ho] at hp
    cases hp
  · have hz : c.objects z = some p := by simpa only [update_of_ne hzx] using hz
    exact h.armed z p hz hp

theorem Inv.requeued (h : Inv D count c) (hst : ∃ st, Holds D q st) (hres : q.reserved = c.queue.reserved) :
    Inv D count { c with queue := q } :=
  { h with
    holds := hst, owned := by rw [show ({ c with queue := q } : Clients).queue.reserved = _ from hres]; exact h.owned }

theorem Inv.resolved (h : Inv D count c) (hx : c.objects x = some o) (hl : o.region = some l)
    (ho : o'.bind QueueEntry.region = none) (hobj : c'.objects = update c.objects x o')
    (hst : ∃ st, Holds D c'.queue st) (hres : c'.queue.reserved = c.queue.reserved.erase l.resource)
    (hissued : c'.issued = c.issued) (hends : c'.ends = c.ends ++ [(l.number, k)])
    (hcount : c'.pqeCount = c.pqeCount - 1) : Inv D count c' := by
  constructor
  case holds => exact hst
  case owned =>
    rw [lease_put hobj, ho, hres, hissued, hends]
    exact h.owned.resolve ((lease_eq hx).trans hl) k
  case armed =>
    intro z p hz hp
    rw [hobj] at hz
    by_cases hzx : z = x
    · rw [hzx, update_self] at hz
      rw [hz, Option.bind_some] at ho
      rw [ho] at hp
      cases hp
    · rw [update_of_ne hzx] at hz
      exact h.armed z p hz hp
  case counted =>
    rw [hcount, h.counted, hissued, hends, length_append, length_singleton]
    omega

theorem Inv.moved (h : Inv D count c) (hne : x ≠ y) (hx : c.lease x = none) (hy : c.objects y = some o) :
    Inv D count { c with objects := update (update c.objects x (some o)) y (some {}) } := by
  refine { h with owned := ?_, armed := fun z p hz hp => ?_ }
  · have hlease : Clients.lease { c with objects := update (update c.objects x (some o)) y (some {}) } =
        update (update c.lease x (c.lease y)) y none := by
      rw [lease_put (c := { c with objects := update c.objects x (some o) }) rfl, lease_put (c := c) rfl,
        lease_eq hy]
      rfl
    rw [hlease]
    exact h.owned.move hne hx
  · simp only at hz
    by_cases hzy : z = y
    · rw [hzy, update_self] at hz
      cases hz
      cases hp
    · rw [update_of_ne hzy] at hz
      by_cases hzx : z = x
      · rw [hzx, update_self] at hz
        cases hz
        exact h.armed y _ hy hp
      · rw [update_of_ne hzx] at hz
        exact h.armed z p hz hp

/-! ## The callbacks end a reservation once -/

def Resolution.Shown (q : ProductQueue) (r : Reservation) : Resolution → Prop
  | .committed => ∃ t, (t, r.offset) ∈ q.ix.times
  | .released => Forgotten q.ix r

def Advance (c c' : Clients) : Prop :=
  c'.ends = c.ends ∨ ∃ x l k, c.lease x = some l ∧ c'.ends = c.ends ++ [(l.number, k)] ∧ k.Shown c'.queue l.resource

structure Ended (D : DataSection) (c : Clients) (l : Lease Reservation) (k : Resolution) (c' : Clients) : Prop where
  holds : ∃ st, Holds D c'.queue st
  shown : k.Shown c'.queue l.resource
  reserved : c'.queue.reserved = c.queue.reserved
  objects : c'.objects = c.objects
  issued : c'.issued = c.issued
  ends : c'.ends = c.ends ++ [(l.number, k)]
  count : c'.pqeCount = c.pqeCount - 1

/-- **`rollbackEntry`** releases the region and the signature. -/
theorem rollbackEntry_ends {g : Ghost} {i : Nat} {d : Reservation × List UInt8} (hk : Kept D c.queue.ix g st)
    (hd : st.drafts[i]? = some d) (he : d.1 = l.resource)
    (hres : (st.dropDraft i).drafts.map Prod.fst = c.queue.reserved) :
    wp (rollbackEntry l) (fun status c' => status = 0 ∧ Ended D c l .released c') c := by
  rw [rollbackEntry, onQueue, wp_bind, wp_zoom, ← he]
  refine (rollbackEntry_spec hk hd hres).mono ?_
  rintro status q' ⟨⟨rfl, hsame, hgone⟩, -, hh, -⟩
  rw [if_pos rfl, finish]
  simp only [wp_bind, wp_modify, wp_pure, true_and]
  exact ⟨⟨_, hh⟩, he ▸ hgone, hsame, rfl, rfl, rfl, rfl⟩

/-- **`commitEntry`** gives the product its time, or releases the region and the signature. -/
theorem commitEntry_ends {g : Ghost} {i : Nat} {d : Reservation × List UInt8} (hk : Kept D c.queue.ix g st)
    (hd : st.drafts[i]? = some d) (he : d.1 = l.resource)
    (hres : (st.dropDraft i).drafts.map Prod.fst = c.queue.reserved) :
    wlp (commitEntry l) (fun status c' => status = 0 ∧ Ended D c l .committed c' ∨
      status ≠ 0 ∧ Ended D c l .released c') c := by
  rw [commitEntry, onQueue, wlp_bind, wlp_zoom, ← he]
  refine (tryCommit_spec hk hd hres).mono ?_
  rintro status q' (⟨rfl, hsame, hc⟩ | ⟨hst, rfl⟩)
  · rw [if_neg (by simp), finish]
    simp only [wlp_bind, wlp_modify, wlp_pure, true_and]
    rcases hc with ⟨-, d', key, hd', hh, -, ⟨pre, suf, -, htimes⟩, -⟩ | ⟨hno, -⟩
    · have hdd : d = d' := Option.some.inj (hd.symm.trans hd')
      refine .inl ⟨⟨_, hh⟩, ⟨key, ?_⟩, hsame, rfl, rfl, rfl, rfl⟩
      rw [htimes, ← he, hdd]
      exact mem_append_right _ (mem_cons_self ..)
    · exact absurd rfl hno
  · rw [if_pos hst, wlp_bind]
    refine (rollbackEntry_ends (c := c) hk hd he hres).wlp.mono ?_
    rintro _ c' ⟨-, hended⟩
    exact wlp_pure.2 (.inr ⟨hst, hended⟩)

/-! ## The methods keep the invariant -/

def Clients.handed (c : Clients) (x : Nat) (o : QueueEntry) (l : Lease Reservation) : Clients :=
  { c with
    objects := Function.update c.objects x (some { o with region := none })
    queue := { c.queue with reserved := c.queue.reserved.erase l.resource } }

theorem wlp_handOver : wlp (handOver x o l) Q c ↔ Q () (c.handed x o l) := wlp_of_eq rfl

theorem wp_handOver : wp (handOver x o l) Q c ↔ Q () (c.handed x o l) := wp_of_eq rfl

theorem wlp_put :
    wlp (Lifecycle.put x o') Q c ↔ Q () { c with objects := update c.objects x o' } := wlp_of_eq rfl

theorem wp_put :
    wp (Lifecycle.put x o') Q c ↔ Q () { c with objects := update c.objects x o' } := wp_of_eq rfl

theorem Inv.draft (h : Inv D count c) (hx : c.objects x = some o) (hl : o.region = some l) : ∃ st i d g,
    st.drafts[i]? = some d ∧ d.1 = l.resource ∧ Kept D (c.handed x o l).queue.ix g st ∧
      (st.dropDraft i).drafts.map Prod.fst = (c.handed x o l).queue.reserved := by
  obtain ⟨st, hh⟩ := h.holds
  have hr : l.resource ∈ c.queue.reserved := h.owned.among x l ((lease_eq hx).trans hl)
  obtain ⟨i, d, g, hd, he, hk, hres⟩ := draft_of_reserved hh hr
  exact ⟨st, i, d, g, hd, he, hk, hres⟩

theorem Ended.inv (h : Inv D count c) (hx : c.objects x = some o) (hl : o.region = some l)
    (he : Ended D (c.handed x o l) l k c') {o' : QueueEntry} (ho : o'.region = none) :
    Inv D count { c' with objects := update c'.objects x (some o') } := by
  have hnone : (some o').bind QueueEntry.region = none := by rw [Option.bind_some, ho]
  refine h.resolved hx hl hnone ?_ he.holds he.reserved he.issued he.ends he.count
  show update c'.objects x (some o') = _
  rw [he.objects]
  exact Function.update_idem _ _ _

theorem Ended.inv_self (h : Inv D count c) (hx : c.objects x = some o) (hl : o.region = some l)
    (he : Ended D (c.handed x o l) l k c') : Inv D count c' := by
  have hnone : (some { o with region := none }).bind QueueEntry.region = none := rfl
  exact h.resolved hx hl hnone he.objects he.holds he.reserved he.issued he.ends he.count

theorem Ended.advance (hx : c.objects x = some o) (hl : o.region = some l)
    (he : Ended D (c.handed x o l) l k c') : Advance c c' :=
  .inr ⟨x, l, k, (lease_eq hx).trans hl, he.ends, he.shown⟩

/-- **`commit`.** -/
theorem commit_inv (h : Inv D count c) (x : Nat) : wlp (commit x) (fun _ c' => Inv D count c' ∧ Advance c c') c := by
  rw [commit, wlp_bind, wlp_read]
  cases hx : c.objects x with
  | none => exact wlp_pure.2 ⟨h, .inl rfl⟩
  | some o =>
    simp only
    split
    case isTrue => exact wlp_pure.2 ⟨h, .inl rfl⟩
    case isFalse =>
    cases hl : o.region with
    | none => exact wlp_pure.2 ⟨h, .inl rfl⟩
    | some l =>
      simp only
      split
      case isTrue => exact wlp_pure.2 ⟨h, .inl rfl⟩
      case isFalse =>
      obtain ⟨st, i, d, g, hd, he, hk, hres⟩ := h.draft hx hl
      rw [wlp_bind, wlp_handOver, wlp_bind]
      refine (commitEntry_ends hk hd he hres).mono ?_
      rintro status c' (⟨rfl, hended⟩ | ⟨hst, hended⟩)
      · have hadv : Advance c c' := hended.advance hx hl
        rw [if_pos rfl, wlp_bind, wlp_put, wlp_pure]
        exact ⟨hended.inv h hx hl rfl, hadv⟩
      · rw [if_neg hst]
        exact wlp_pure.2 ⟨hended.inv_self h hx hl, hended.advance hx hl⟩

/-- **`rollback`** leaves an object without a reservation, and the other objects as they are. -/
theorem rollback_inv (h : Inv D count c) (x : Nat) : wp (rollback x) (fun _ c' => (Inv D count c' ∧ Advance c c') ∧
    c'.lease x = none ∧ ∀ y ≠ x, c'.objects y = c.objects y) c := by
  rw [rollback, wp_bind, wp_read]
  cases hx : c.objects x with
  | none => exact wp_pure.2 ⟨⟨h, .inl rfl⟩, lease_none hx, fun _ _ => rfl⟩
  | some o =>
    cases hl : o.region with
    | none =>
      simp only [hl]
      exact wp_pure.2 ⟨⟨h, .inl rfl⟩, (lease_eq hx).trans hl, fun _ _ => rfl⟩
    | some l =>
      obtain ⟨hcom, -, hcb⟩ := h.armed x o hx (by rw [hl]; rfl)
      simp only [hl, hcom, hcb, Bool.false_eq_true, Bool.true_eq_false, or_self, if_false]
      obtain ⟨st, i, d, g, hd, he, hk, hres⟩ := h.draft hx hl
      rw [wp_bind, wp_handOver, wp_bind]
      refine (rollbackEntry_ends hk hd he hres).mono ?_
      rintro status c' ⟨rfl, hended⟩
      have hadv : Advance c c' := hended.advance hx hl
      rw [if_pos rfl, wp_bind, wp_put, wp_pure]
      refine ⟨⟨hended.inv h hx hl rfl, hadv⟩, ?_, fun y hy => ?_⟩
      · rw [lease_put (c := c') rfl, update_self]
        rfl
      · show update c'.objects x _ y = c.objects y
        rw [update_of_ne hy, hended.objects]
        exact update_of_ne hy _ _

/-- **The destructor.** -/
theorem destroy_inv (h : Inv D count c) (x : Nat) : wp (destroy x) (fun _ c' => (Inv D count c' ∧ Advance c c') ∧
    c'.objects x = none) c := by
  rw [destroy, wp_bind, wp_read]
  cases hx : c.objects x with
  | none => exact wp_pure.2 ⟨⟨h, .inl rfl⟩, hx⟩
  | some o =>
    simp only
    split
    case isTrue =>
      refine wp.bind (rollback_inv h x) ?_
      rintro _ c' ⟨⟨h', hadv⟩, hnone, -⟩
      rw [wp_bind, wp_put, wp_pure]
      exact ⟨⟨h'.put hnone rfl, hadv⟩, update_self ..⟩
    case isFalse hno =>
      -- an object with a reservation is not committed and has its callbacks
      have hl : o.region = none := by
        cases hl : o.region with
        | none => rfl
        | some l =>
          obtain ⟨hcom, -, hcb⟩ := h.armed x o hx (by rw [hl]; rfl)
          exact absurd ⟨hcom, by rw [hl]; rfl, hcb⟩ hno
      rw [wp_bind, wp_put, wp_pure]
      exact ⟨⟨h.put ((lease_eq hx).trans hl) rfl, .inl rfl⟩, update_self ..⟩

/-- **The move constructor.** -/
theorem moveConstruct_inv (h : Inv D count c) (x y : Nat) :
    wp (moveConstruct x y) (fun _ c' => Inv D count c' ∧ Advance c c') c := by
  rw [moveConstruct, wp_bind, wp_read]
  split
  case h_1 o hx hy =>
    have hne : x ≠ y := fun e => by rw [e, hy] at hx; cases hx
    rw [wp_bind, wp_put, wp_bind, wp_put, wp_pure]
    exact ⟨h.moved hne (lease_none hx) hy, .inl rfl⟩
  case h_2 => exact wp_pure.2 ⟨h, .inl rfl⟩

/-- **The move assignment** gives up what the object has before it takes over from the other one. -/
theorem moveAssign_inv (h : Inv D count c) (x y : Nat) :
    wp (moveAssign x y) (fun _ c' => Inv D count c' ∧ Advance c c') c := by
  rw [moveAssign]
  split
  case isTrue => exact wp_pure.2 ⟨h, .inl rfl⟩
  case isFalse hne =>
    rw [wp_bind, wp_read]
    split
    case h_1 o' o hx hy =>
      refine wp.bind (rollback_inv h x) ?_
      rintro _ c' ⟨⟨h', hadv⟩, hnone, hrest⟩
      rw [wp_bind, wp_put, wp_bind, wp_put, wp_pure]
      exact ⟨h'.moved hne hnone ((hrest y (Ne.symm hne)).trans hy), hadv⟩
    case h_2 => exact wp_pure.2 ⟨h, .inl rfl⟩

/-- **`newElement`** makes one more reservation, owned by the new object, or none. -/
theorem newElement_inv (h : Inv D count c) (hx : c.objects x = none) {info : ProdInfo}
    (hinfo : info.origin.length + info.ident.length < 2 ^ 62) (mapped : Bool) :
    wlp (newElement D x info mapped) (fun _ c' => Inv D count c' ∧ Advance c c') c := by
  obtain ⟨st, hh⟩ := h.holds
  rw [newElement, onQueue, wlp_bind, wlp_zoom]
  refine (newElement_spec hh (encoded_fits D hinfo) mapped).mono ?_
  rintro status q' ⟨-, ⟨rfl, r, -, hres, hh', -⟩ | ⟨hst, hres, hh', -⟩⟩
  · have hnew : r ∉ c.queue.reserved := by
      have hnd := reserved_nodup hh'
      rw [hres] at hnd
      exact fun hm => (nodup_append.1 hnd).2.2 r hm r (mem_singleton.2 rfl) rfl
    rw [if_neg (by simp), wlp_bind, wlp_read]
    simp only [hres, List.getLast?_append, List.getLast?_singleton, Option.some_or, wlp_put, wlp_bind, wlp_modify,
      wlp_pure]
    refine ⟨?_, .inl rfl⟩
    constructor
    case holds => exact ⟨_, hh'⟩
    case owned =>
      rw [lease_put (c := c) rfl, hres]
      exact h.owned.issue (lease_none hx) hnew
    case armed =>
      intro z p hz hp
      simp only at hz
      by_cases hzx : z = x
      · rw [hzx, update_self] at hz
        cases hz
        exact ⟨rfl, rfl, rfl⟩
      · rw [update_of_ne hzx] at hz
        exact h.armed z p hz hp
    case counted =>
      have hcount := h.counted
      simp only
      omega
  · rw [if_pos hst]
    exact wlp_pure.2 ⟨h.requeued ⟨_, hh'⟩ hres, .inl rfl⟩

theorem reserved_after {op : QueueOp} (hp : EntryOp.Plain op) (q : ProductQueue) (res : Stepped) (q' : ProductQueue)
    (st : Store) : (st.after q res q' op).drafts.map Prod.fst = st.drafts.map Prod.fst := by
  cases op with
  | newElement info mapped => exact hp.elim
  | commit i => exact hp.elim
  | rollback i => exact hp.elim
  | writePayload i pos bytes => exact st.map_editDraft i _ Prod.fst fun _ => rfl
  | encodeEntry i data => exact st.map_editDraft i _ Prod.fst fun _ => rfl
  | _ => rfl

theorem other_inv (h : Inv D count c) {op : QueueOp} (hp : EntryOp.Plain op) (hv : op.Valid c.queue) :
    wlp (EntryOp.run D (.other op)) (fun _ c' => Inv D count c' ∧ Advance c c') c := by
  obtain ⟨st, hh⟩ := h.holds
  rw [EntryOp.run, onQueue, wlp_bind, wlp_zoom]
  refine (QueueOp.run_spec hh hv).mono ?_
  rintro res q' hdid
  have hres : q'.reserved = c.queue.reserved := by
    rw [← hdid.holds.2, reserved_after hp]
    exact hh.2
  exact wlp_pure.2 ⟨h.requeued ⟨_, hdid.holds⟩ hres, .inl rfl⟩

/-- **One operation** keeps the invariant and ends one reservation at most. -/
theorem EntryOp.run_inv (h : Inv D count c) {op : EntryOp} (hv : op.Valid c) :
    wlp (op.run D) (fun _ c' => Inv D count c' ∧ Advance c c') c := by
  cases op with
  | newElement x info mapped => exact newElement_inv h hv.1 hv.2 mapped
  | construct x =>
    rw [EntryOp.run, wlp_bind, wlp_put, wlp_pure]
    exact ⟨h.put (lease_none hv) rfl, .inl rfl⟩
  | moveConstruct x y => exact (moveConstruct_inv h x y).wlp
  | moveAssign x y => exact (moveAssign_inv h x y).wlp
  | commit x => exact commit_inv h x
  | rollback x => exact (rollback_inv h x).wlp.mono fun _ _ hc => hc.1
  | destroy x => exact (destroy_inv h x).wlp.mono fun _ _ hc => hc.1
  | other op => exact other_inv h hv.1 hv.2

/-! ## Runs -/

theorem Start.inv (h : Start D count c) : Inv D count c := by
  obtain ⟨⟨a, ha, hq⟩, hnone, hissued, hends, hcount⟩ := h
  have hlease : c.lease = fun _ => none := funext fun x => lease_none (hnone x)
  refine ⟨⟨_, hq ▸ ha.holds⟩, ?_, fun x o hx => ?_, ?_⟩
  · rw [hlease, hissued, hends]
    exact owned_none _
  · rw [hnone x] at hx
    cases hx
  · rw [hcount, hissued, hends]
    simp

theorem EntryOp.next_inv (h : Inv D count c) {op : EntryOp} (hv : op.Valid c) (hnext : op.next D c = some c') :
    Inv D count c' ∧ Advance c c' := by
  obtain ⟨⟨status, c''⟩, hrun, rfl⟩ := Option.map_eq_some_iff.1 hnext
  exact (EntryOp.run_inv h hv).of_returned hrun

theorem Reached.inv (h : Reached D count c) : Inv D count c :=
  h.invariant (fun _ hc => hc.inv) fun _ _ _ hc hv hnext => (EntryOp.next_inv hc hv hnext).1

/-- **Every reservation ends once**: in every run of clients that make, move and destroy entries and commit them or roll
them back, no reservation ends twice; objects can always be destroyed; and when all of them are, every reservation has
ended in exactly one way and `pqe_count_` is what it was. -/
theorem reservations_end_once {D : DataSection} {count : Int} {c : Clients} (h : Reached D count c) :
    (c.ends.map Prod.fst).Nodup ∧ (∀ p ∈ c.ends, p.1 < c.issued) ∧
      (∀ op c', op.Valid c → EntryOp.next D op c = some c' → Advance c c') ∧
      (∀ x, wp (destroy x) (fun _ c' => c'.objects x = none) c) ∧
      ((∀ x, c.objects x = none) → (∀ n < c.issued, ∃! p, p ∈ c.ends ∧ p.1 = n) ∧ c.pqeCount = count) := by
  have hi := h.inv
  refine ⟨hi.owned.once, fun p hp => hi.owned.ended p.1 (mem_map_of_mem hp),
    fun op c' hv hnext => (EntryOp.next_inv hi hv hnext).2, fun x => (destroy_inv hi x).mono fun _ _ hc => hc.2,
    fun hnone => ?_⟩
  have hperm := hi.owned.all_ended fun x => lease_none (hnone x)
  constructor
  · intro n hn
    obtain ⟨p, hp, rfl⟩ := mem_map.1 (hperm.mem_iff.2 (mem_range.2 hn))
    refine ⟨p, ⟨hp, rfl⟩, ?_⟩
    rintro p' ⟨hp', he⟩
    exact inj_on_of_nodup_map hi.owned.once hp' hp he
  · have hlen := hperm.length_eq
    rw [length_map, length_range] at hlen
    rw [hi.counted, hlen]
    omega

/-! ## Runs on a new queue -/

def EntryOp.addresses : EntryOp → List Nat
  | .newElement x _ _ | .construct x | .commit x | .rollback x | .destroy x => [x]
  | .moveConstruct x y | .moveAssign x y => [x, y]
  | .other _ => []

def Spares (z : Nat) {α : Type} (m : Prog Clients α) : Prop := ∀ c, wlp m (fun _ c' => c'.objects z = c.objects z) c

theorem Spares.bind {α β : Type} {m : Prog Clients α} {f : α → Prog Clients β} (hm : Spares z m)
    (hf : ∀ a, Spares z (f a)) : Spares z (m >>= f) :=
  fun c => wlp_bind.2 ((hm c).mono fun a c1 h1 => (hf a c1).mono fun _ _ h2 => h2.trans h1)

theorem spares_pure {α : Type} {a : α} : Spares z (pure a) := fun _ => wlp_pure.2 rfl

theorem spares_read : Spares z read := fun _ => wlp_read.2 rfl

theorem spares_onQueue {α : Type} {m : Prog ProductQueue α} : Spares z (onQueue m) :=
  fun _ => wlp_zoom.2 (wlp_true.mono fun _ _ _ => rfl)

theorem spares_put (hz : z ≠ x) : Spares z (put x o') := fun _ => wlp_modify.2 (update_of_ne hz _ _)

theorem spares_finish {n : Nat} : Spares z (finish n k) := fun _ => wlp_modify.2 rfl

theorem spares_rollback (hz : z ≠ x) : Spares z (rollback x) := by
  unfold rollback handOver rollbackEntry
  repeat' with_reducible first
    | exact spares_pure | exact spares_read | exact spares_onQueue | exact spares_put hz | exact spares_finish
    | refine Spares.bind ?_ fun _ => ?_ | split

/-- **The other objects** are not changed. -/
theorem EntryOp.spares_run {op : EntryOp} (hz : z ∉ op.addresses) : Spares z (op.run D) := by
  have hne : ∀ x ∈ op.addresses, z ≠ x := fun x hx e => hz (e ▸ hx)
  cases op
  all_goals
    simp only [addresses, mem_cons, not_mem_nil, or_false, forall_eq_or_imp, forall_eq] at hne
    simp only [EntryOp.run, Lifecycle.newElement, Lifecycle.moveConstruct, Lifecycle.moveAssign, Lifecycle.commit,
      Lifecycle.destroy, handOver, commitEntry, rollbackEntry]
    repeat' with_reducible first
      | exact spares_pure | exact spares_read | exact spares_onQueue | exact spares_finish
      | exact spares_put hne | exact spares_put hne.1 | exact spares_put hne.2
      | exact spares_rollback hne | exact spares_rollback hne.1
      | refine Spares.bind ?_ fun _ => ?_ | split
  exact fun _ => wlp_modify.2 rfl

theorem runIf_frame : ∀ {ops : List EntryOp} {c : Clients}, (∀ op ∈ ops, z ∉ op.addresses) →
    Transitions.runIf (EntryOp.next D) (fun c op => op.Valid c) ops c = some c' → c'.objects z = c.objects z
  | [], c, _, h => by
    cases h
    rfl
  | op :: ops, c, hz, h => by
    rw [Transitions.runIf] at h
    split at h
    case isFalse => cases h
    case isTrue =>
      obtain ⟨c1, h1, h⟩ := Option.bind_eq_some_iff.1 h
      obtain ⟨⟨status, c2⟩, hrun, rfl⟩ := Option.map_eq_some_iff.1 h1
      have hstep := (EntryOp.spares_run (hz op (mem_cons_self ..)) c).of_returned hrun
      exact (runIf_frame (fun op' hop => hz op' (mem_cons_of_mem _ hop)) h).trans hstep

def clientRun (ops : List EntryOp) : Option Clients :=
  (computedRun smallSection tick []).bind fun a =>
    Transitions.runIf (EntryOp.next smallSection) (fun c op => op.Valid c) ops
      ⟨a.queue, fun _ => none, 0, [], 0⟩

theorem clientRun_reached {ops : List EntryOp} (h : clientRun ops = some c) :
    Reached smallSection 0 c ∧ ∀ z, (∀ op ∈ ops, z ∉ op.addresses) → c.objects z = none := by
  obtain ⟨a, ha, hrun⟩ := Option.bind_eq_some_iff.1 h
  have hreach : Rdm.Reached smallSection (fun _ => True) a :=
    computedRun_reached (fun _ h => absurd h not_mem_nil) ha
  exact ⟨Transitions.runIf_reached (.start ⟨⟨a, hreach, rfl⟩, fun _ => rfl, rfl, rfl, rfl⟩) hrun,
    fun z hz => runIf_frame hz hrun⟩

def twoEntries : List EntryOp :=
  [.newElement 0 (sampleInfo 1) true, .newElement 1 (sampleInfo 2) true, .commit 0, .moveAssign 0 1, .commit 0,
    .destroy 0, .destroy 1]

theorem reservations_end_once_two : ∃ c, Reached smallSection 0 c ∧ c.issued = 2 ∧
    (∀ x, c.objects x = none) ∧ (∀ n < 2, ∃! p, p ∈ c.ends ∧ p.1 = n) ∧ c.pqeCount = 0 := by
  obtain ⟨c, hc, hissued, h0, h1⟩ : ∃ c, clientRun twoEntries = some c ∧ c.issued = 2 ∧ c.objects 0 = none ∧
      c.objects 1 = none := by
    decide +kernel
  obtain ⟨hreach, hframe⟩ := clientRun_reached hc
  have hnone : ∀ x, c.objects x = none := by
    intro x
    by_cases hx0 : x = 0
    · rw [hx0, h0]
    by_cases hx1 : x = 1
    · rw [hx1, h1]
    refine hframe x fun op hop => ?_
    simp only [twoEntries, mem_cons, not_mem_nil, or_false] at hop
    rcases hop with rfl | rfl | rfl | rfl | rfl | rfl | rfl
    all_goals simp [EntryOp.addresses, hx0, hx1]
  obtain ⟨-, -, -, -, hend⟩ := reservations_end_once hreach
  obtain ⟨hall, hcount⟩ := hend hnone
  exact ⟨c, hreach, hissued, hnone, fun n hn => hall n (hissued ▸ hn), hcount⟩

/-- The second destruction runs out of blocks for the list of free regions: it removes the signature, cannot enter the
region in the list and ends in a failed assertion. -/
theorem destruction_fails : ∃ c l, Reached smallSection 0 c ∧ c.lease 1 = some l ∧
    c.ends = [(0, .released)] ∧ c.pqeCount = 1 ∧ (destroy 1 c).warned = true ∧
    (destroy 1 c).fault = some .assertion := by
  obtain ⟨c, hc, ⟨l, hl, -⟩, hrest⟩ : ∃ c,
    clientRun [.newElement 0 (sampleInfo 1) true, .newElement 1 (sampleInfo 2) true,
      .destroy 0] = some c ∧ (∃ l, c.lease 1 = some l ∧ True) ∧ c.ends = [(0, .released)] ∧ c.pqeCount = 1 ∧
      (destroy 1 c).warned = true ∧ (destroy 1 c).fault = some .assertion := by
    decide +kernel
  exact ⟨c, l, (clientRun_reached hc).1, hl, hrest⟩

end Lifecycle

end Rdm
