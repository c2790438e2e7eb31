import Rdm.Pq.CursorSpec

/-!
# Runs of the queue

`Reached D P a`: from `create`, by operations with the property `P`, the queue has come to the state `a`. An `Audit`
also has books, which always agree (`Reached.holds`).
-/

namespace Rdm

open ProgLogic ProgLogic.Prog Xdr SunRpcSerializer List
open QueueIndexManager (catalog IndexInv)

/-! ## Operations -/

/-- The atomic steps of the clients of a queue. What the system answers is an argument. -/
inductive QueueOp where
  | newElement (info : ProdInfo) (mapped : Bool)
  | writePayload (i pos : Nat) (bytes : List UInt8)
  | encodeEntry (i : Nat) (data : List UInt8)
  | commit (i : Nat)
  | rollback (i : Nat)
  | deleteOldest
  | deleteBySignature (interval : Nat) (signature : Signature)
  | sequenceDelete (mt : Match) (contains : ProdInfo → Bool) (cursor : Timestamp)
  | next (reverse : Bool) (contains : ProdInfo → Bool) (mapped : Bool) (cursor : Timestamp)
  | sequence (mt : Match) (contains : ProdInfo → Bool) (ifMatch : Option (Delivery → Int)) (mapped : Bool)
      (cursor : Timestamp)

namespace QueueOp

def status (m : Prog ProductQueue Int) : Prog ProductQueue Stepped := do
  let status ← m
  return ⟨status, Timestamp.NONE, none⟩

def run (D : DataSection) : QueueOp → Prog ProductQueue Stepped
  | .newElement info mapped => status (ProductQueue.newElement D info mapped)
  | .writePayload i pos bytes => status (ProductQueue.writePayload i pos bytes)
  | .encodeEntry i data => status (ProductQueue.encodeEntry i data)
  | .commit i => status (ProductQueue.commit i)
  | .rollback i => status (ProductQueue.rollback i)
  | .deleteOldest => status (ProductQueue.locked (QueueIndexManager.deleteOldest ProductQueue.callbacks))
  | .deleteBySignature interval signature => status (ProductQueue.deleteBySignature interval signature)
  | .sequenceDelete mt contains cursor => QueueCursor.sequenceDelete mt contains cursor
  | .next reverse contains mapped cursor => QueueCursor.next D reverse contains mapped cursor
  | .sequence mt contains ifMatch mapped cursor => QueueCursor.sequence mt contains ifMatch mapped cursor

def Valid (q : ProductQueue) : QueueOp → Prop
  | .newElement info _ => info.origin.length + info.ident.length < 2 ^ 62
  | .writePayload i pos bytes => ∀ r ∈ q.reserved[i]?, pos + bytes.length ≤ r.info.sz.toNat
  | .encodeEntry i data => ∀ r ∈ q.reserved[i]?, data.length = r.info.sz.toNat
  | _ => True

instance (q : ProductQueue) : DecidablePred (Valid q)
  | .newElement info _ => inferInstanceAs (Decidable (info.origin.length + info.ident.length < 2 ^ 62))
  | .writePayload i pos bytes =>
    inferInstanceAs (Decidable (∀ r ∈ q.reserved[i]?, pos + bytes.length ≤ r.info.sz.toNat))
  | .encodeEntry i data => inferInstanceAs (Decidable (∀ r ∈ q.reserved[i]?, data.length = r.info.sz.toNat))
  | .commit _ | .rollback _ | .deleteOldest | .deleteBySignature _ _ | .sequenceDelete _ _ _ | .next _ _ _ _
  | .sequence _ _ _ _ _ => isTrue trivial

def Mapped : QueueOp → Prop
  | .newElement _ mapped => mapped = true
  | _ => True

def Small : QueueOp → Prop
  | .newElement info _ => getEncodedSize info < 2 ^ 32
  | _ => True

def reading (q : ProductQueue) (res : Stepped) : QueueOp → List Timestamp
  | .commit _ => if res.status = 0 then [q.ix.env.now.1] else []
  | _ => []

end QueueOp

def stampOf (times : List (Timestamp × Int)) (off : Int) : Timestamp :=
  ((times.find? fun p => p.2 = off).map Prod.fst).getD Timestamp.NONE

def Store.after (q : ProductQueue) (res : Stepped) (q' : ProductQueue) (st : Store) : QueueOp → Store
  | .newElement info _ =>
    match q'.reserved.drop q.reserved.length with
    | [] => st.keep q'.ix.times
    | r :: _ =>
      (st.keep q'.ix.times).addDraft ({ r with info := info }, readBytes q'.ix.env.disk r.payload info.sz.toNat)
  | .writePayload i pos bytes => st.editDraft i fun data => overwrite data pos bytes
  | .encodeEntry i data => st.editDraft i fun old => if res.status = 0 then data else old
  | .commit i =>
    if res.status = 0 then
      st.commitDraft i (((q.reserved[i]?).map fun r => stampOf q'.ix.times r.offset).getD Timestamp.NONE)
    else st.dropDraft i
  | .rollback i => st.dropDraft i
  | .deleteOldest | .deleteBySignature _ _ | .sequenceDelete _ _ _ => st.keep q'.ix.times
  | .next _ _ _ _ | .sequence _ _ _ _ _ => st

/-! ## One operation -/

variable {D : DataSection} {q q' : ProductQueue} {st : Store} {op : QueueOp} {res : Stepped} {P : QueueOp → Prop}
variable {a : Audit}

/-- What one operation does. -/
structure Did (D : DataSection) (q : ProductQueue) (st : Store) (op : QueueOp) (res : Stepped) (q' : ProductQueue) :
    Prop where
  holds : Holds D q' (st.after q res q' op)
  filled : op.Mapped → op.Small → Filled q.ix st → Filled q'.ix (st.after q res q' op)
  times : ∀ p ∈ q'.ix.times, p ∈ q.ix.times ∨ op.reading q res = [q.ix.env.now.1] ∧
    ((∀ p ∈ q.ix.times, p.1 ≠ q.ix.env.now.1) → p.1 = q.ix.env.now.1)
  delivery : ∀ d, res.delivery = some d → ∃ t pg, (t, pg) ∈ st.live ∧ d.Of q.ix t pg

theorem wlp_status {m : Prog ProductQueue Int} {Q : Stepped → ProductQueue → Prop} {R : Int → ProductQueue → Prop}
    (h : wlp m R q) (hR : ∀ status q', R status q' → Q ⟨status, Timestamp.NONE, none⟩ q') :
    wlp (QueueOp.status m) Q q := by
  rw [QueueOp.status, wlp_bind]
  exact h.mono fun status q' hr => wlp_pure.2 (hR status q' hr)

theorem DataSection.size_add_align_lt (D : DataSection) : D.size + D.align < 2 ^ 63 := by
  have hal : (D.align : Int) ≤ D.datao := Int.le_of_dvd (by have := D.header; omega) D.aligned
  have h1 := D.nonempty
  have h2 := D.fits
  simp only [hugeOff, DataSection.size] at h2 ⊢
  omega

theorem encoded_fits (D : DataSection) {info : ProdInfo} (h : info.origin.length + info.ident.length < 2 ^ 62) :
    getEncodedSize info + D.align ≤ 2 ^ 64 := by
  have hsz := info.sz.toNat_lt
  have hal := D.size_add_align_lt
  simp only [getEncodedSize, getEncodedInfoSize, xlenString, rndup, XDR_UNIT]
  omega

theorem Thinned.did (h : Thinned D q.ix st q'.ix) (hres : q'.reserved = q.reserved)
    (hd : st.drafts.map Prod.fst = q.reserved) (hafter : st.after q res q' op = st.keep q'.ix.times)
    (hno : res.delivery = none) : Did D q st op res q' := by
  refine ⟨?_, fun _ _ => ?_, fun p hp => .inl (h.times.mem hp), fun d he => ?_⟩
  · rw [hafter]
    exact h.holds hres hd
  · rw [hafter]
    exact h.filled
  · rw [hno] at he
    cases he

theorem Holds.did_read (h : Holds D q st) (hafter : st.after q res q.afterRead op = st)
    (hd : ∀ d, res.delivery = some d → ∃ t pg, (t, pg) ∈ st.live ∧ d.Of q.ix t pg) : Did D q st op res q.afterRead := by
  refine ⟨?_, fun _ _ => ?_, fun p hp => .inl hp, hd⟩
  · rw [hafter]
    exact h.afterRead
  · rw [hafter]
    exact id

theorem deleteOldest_thinned (h : Holds D q st) :
    wlp (ProductQueue.locked (QueueIndexManager.deleteOldest ProductQueue.callbacks))
      (fun _ q' => Thinned D q.ix st q'.ix ∧ q'.reserved = q.reserved) q := by
  obtain ⟨⟨g, hk⟩, -⟩ := h
  rw [wlp_locked]
  refine (QueueIndexManager.deleteOldest_spec hk.inv).wlp.mono ?_
  rintro status s' ⟨g', hsh, _⟩
  obtain ⟨hev, hdisk⟩ := hk.evicted hsh.evictions
  have htimes' := hsh.inv.times_eq
  have hthin : Thinned D q.ix st s' := by
    refine ⟨⟨g', hsh.inv, ?_, hev.counted hk.counted⟩, ?_, ?_⟩
    · rw [hdisk, htimes']
      exact hev.books
    · rw [htimes', hk.inv.times_eq]
      exact hev.times
    · rw [htimes', hsh.inv.filled_iff, hk.inv.filled_iff]
      exact hev.fills
  exact ⟨hthin.clear _, rfl⟩

theorem Holds.stampOf_eq (h : Holds D q st) {t : Timestamp} {pg : Page} (hlive : (t, pg) ∈ st.live) :
    stampOf q.ix.times pg.offset = t := by
  obtain ⟨⟨g, hk⟩, -⟩ := h
  rw [stampOf, hk.inv.times_eq]
  have hmem : (t, pg.offset) ∈ (catalog q.ix g).times := (hk.books.times _ _).2 ⟨pg, hlive, rfl⟩
  cases hf : (catalog q.ix g).times.find? fun p => decide (p.2 = pg.offset) with
  | none => exact absurd (find?_eq_none.1 hf _ hmem) (by simp)
  | some p =>
    have hoff : p.2 = pg.offset := by simpa using find?_some hf
    obtain ⟨pg', hlive', he⟩ := (hk.books.times p.1 p.2).1 (mem_of_find?_eq_some hf)
    have hsame := hk.books.live_unique hlive' hlive (he.trans hoff)
    exact congrArg Prod.fst hsame

theorem Committed.did {i : Nat} {status : Int} (h : Holds D q st) (hc : Committed D q st i status q') :
    Did D q st (.commit i) ⟨status, Timestamp.NONE, none⟩ q' := by
  rcases hc with ⟨hst, d, key, hd, hh, hfill, ⟨pre, suf, hts, hts'⟩, hkey⟩ | ⟨hst, htimes, hh, hfill⟩
  · have hr : q.reserved[i]? = some d.1 := by rw [h.reserved_eq, hd]; rfl
    have hlive : (key, Store.draftPage d) ∈ (st.commitDraft i key).live := by
      rw [Store.commitDraft, hd]
      simp
    have hafter : st.after q ⟨status, Timestamp.NONE, none⟩ q' (.commit i) = st.commitDraft i key := by
      simp only [Store.after, hst, if_true, hr, Option.map_some, Option.getD_some]
      exact congrArg (st.commitDraft i) (hh.stampOf_eq hlive)
    refine ⟨?_, fun _ _ => ?_, fun p hp => ?_, fun _ h => by cases h⟩
    · rwa [hafter]
    · rwa [hafter]
    · rw [hts', mem_append, mem_cons] at hp
      rw [hts, mem_append]
      rcases hp with hp | hp | hp
      · exact .inl (.inl hp)
      · refine .inr ⟨if_pos hst, fun hfree => ?_⟩
        rw [hp]
        exact hkey (hts ▸ hfree)
      · exact .inl (.inr hp)
  · have hafter : st.after q ⟨status, Timestamp.NONE, none⟩ q' (.commit i) = st.dropDraft i := if_neg hst
    refine ⟨?_, fun _ _ => ?_, fun p hp => .inl (htimes ▸ hp), fun _ h => by cases h⟩
    · rwa [hafter]
    · rwa [hafter]

theorem Renewed.did {info : ProdInfo} {mapped : Bool} {status : Int} (hno : res.delivery = none)
    (hr : Renewed D info mapped q st status q') : Did D q st (.newElement info mapped) res q' := by
  obtain ⟨hsub, ⟨-, r, hinfo, hres, hh, hfill⟩ | ⟨-, hres, hh, hfill⟩⟩ := hr
  · have hafter : st.after q res q' (.newElement info mapped) =
        (st.keep q'.ix.times).addDraft (r, readBytes q'.ix.env.disk r.payload info.sz.toNat) := by
      rw [Store.after, hres, drop_left, ← hinfo]
    refine ⟨?_, fun _ _ => ?_, fun p hp => .inl (hsub.mem hp), fun d he => by rw [hno] at he; cases he⟩
    · rwa [hafter]
    · rwa [hafter]
  · have hafter : st.after q res q' (.newElement info mapped) = st.keep q'.ix.times := by
      rw [Store.after, hres, drop_length]
    refine ⟨?_, ?_, fun p hp => .inl (hsub.mem hp), fun d he => by rw [hno] at he; cases he⟩
    · rwa [hafter]
    · rwa [hafter]

theorem did_draft {st' : Store} (hafter : st.after q res q' op = st')
    (htimes : q'.ix.times = q.ix.times) (hh : Holds D q' st') (hfill : Filled q.ix st → Filled q'.ix st')
    (hno : res.delivery = none) : Did D q st op res q' := by
  refine ⟨?_, fun _ _ => ?_, fun p hp => .inl (htimes ▸ hp), fun d he => by rw [hno] at he; cases he⟩
  · rwa [hafter]
  · rwa [hafter]

/-- **One operation** keeps the books in order. -/
theorem QueueOp.run_spec (h : Holds D q st) (hv : op.Valid q) : wlp (op.run D) (Did D q st op) q := by
  have hd := h.2
  cases op with
  | newElement info mapped =>
    refine wlp_status (newElement_spec h (encoded_fits D hv) mapped) ?_
    exact fun status q' hr => hr.did rfl
  | writePayload i pos bytes =>
    refine wlp_status (writePayload_spec h i pos bytes hv) ?_
    exact fun status q' ⟨htimes, hh, hfill⟩ => did_draft rfl htimes hh hfill rfl
  | encodeEntry i data =>
    refine wlp_status (encodeEntry_spec h i data hv) ?_
    exact fun status q' ⟨htimes, hh, hfill⟩ => did_draft rfl htimes hh hfill rfl
  | commit i => exact wlp_status (commit_spec h i) fun status q' hc => hc.did h
  | rollback i =>
    refine wlp_status (rollback_spec h i) ?_
    exact fun status q' ⟨htimes, hh, hfill⟩ => did_draft rfl htimes hh hfill rfl
  | deleteOldest => exact wlp_status (deleteOldest_thinned h) fun status q' ⟨ht, hr⟩ => ht.did hr hd rfl rfl
  | deleteBySignature interval sig =>
    exact wlp_status (deleteBySignature_spec h interval sig) fun status q' ⟨ht, hr⟩ => ht.did hr hd rfl rfl
  | sequenceDelete mt contains cursor =>
    refine (sequenceDelete_spec h mt contains cursor).mono ?_
    exact fun res q' ⟨ht, hr, hno⟩ => ht.did hr hd rfl hno
  | next reverse contains mapped cursor =>
    refine (next_spec h reverse contains mapped cursor).mono ?_
    rintro res q' ⟨hq', hres⟩
    subst hq'
    refine h.did_read rfl fun d he => ?_
    rcases hres with ⟨-, hres⟩ | ⟨t, pg, hlive, ⟨-, ⟨-, -, hno⟩ | ⟨-, -, hdel⟩⟩, -⟩
    · rw [hres] at he
      cases he
    · rw [hno] at he
      cases he
    · split at hdel
      · obtain ⟨d', hd', hof⟩ := hdel
        rw [hd'] at he
        cases he
        exact ⟨t, pg, hlive, hof⟩
      · rw [hdel] at he
        cases he
  | sequence mt contains ifMatch mapped cursor =>
    refine (sequence_spec h mt contains ifMatch mapped cursor).mono ?_
    rintro res q' ⟨hq', hres⟩
    subst hq'
    exact h.did_read rfl hres

/-! ## A new queue -/

theorem Books.empty (disk : Memory) : Books Catalog.empty disk ⟨[], []⟩ := by
  refine ⟨Catalog.sound_empty, ?_, ?_, ?_, ?_, ?_, ?_⟩ <;> simp [Catalog.empty, Store.pages]

/-- **A new queue** is empty. -/
theorem create_spec (hal : q.ix.align = D.align) (hres : q.reserved = []) (nproducts : Nat) :
    wlp (ProductQueue.create D nproducts)
    (fun _ q' => Holds D q' ⟨[], []⟩ ∧ q'.ix.regions = [] ∧ q'.ix.times = []) q := by
  rw [ProductQueue.create, wlp_locked]
  refine (QueueIndexManager.formatNew_empty hal nproducts).mono ?_
  rintro status s' ⟨g, h, hcat⟩
  have hk : Kept D s' g ⟨[], []⟩ := by
    refine ⟨h, ?_, ?_⟩
    · rw [hcat]
      exact Books.empty _
    · rw [hcat]
      rfl
  refine ⟨hk.unlocked (by simp [hres]) _, ?_, ?_⟩
  · have hregions := h.regions_eq
    rw [hcat] at hregions
    exact (Multiset.coe_eq_zero _).1 hregions
  · have htimes := h.times_eq
    rw [hcat] at htimes
    exact htimes

/-! ## Runs -/

structure Audit where
  queue : ProductQueue
  store : Store
  delivered : List Delivery
  commits : List Timestamp

def Audit.new (q : ProductQueue) : Audit := ⟨q, ⟨[], []⟩, [], []⟩

def Audit.note (a : Audit) (op : QueueOp) (res : Stepped) (q' : ProductQueue) : Audit where
  queue := q'
  store := a.store.after a.queue res q' op
  delivered := a.delivered ++ res.delivery.toList
  commits := a.commits ++ op.reading a.queue res

/-- **The states of a queue** that clients can bring about with operations that all have the property `P`, as long as
the pool does not run out and no call fails to return. -/
inductive Reached (D : DataSection) (P : QueueOp → Prop) : Audit → Prop
  | create {q q' : ProductQueue} {nproducts : Nat} : q.ix.align = D.align → q.reserved = [] →
      (ProductQueue.create D nproducts q).returned = some (0, q') → Reached D P (Audit.new q')
  | step {a : Audit} {op : QueueOp} {res : Stepped} {q' : ProductQueue} : Reached D P a → P op → op.Valid a.queue →
      (op.run D a.queue).returned = some (res, q') → Reached D P (a.note op res q')

/-- **The books are in order** in every state reached. -/
theorem Reached.holds (h : Reached D P a) : Holds D a.queue a.store := by
  induction h with
  | create hal hres hrun => exact ((create_spec hal hres _).of_returned hrun).1
  | step _ _ hv hrun ih => exact ((QueueOp.run_spec ih hv).of_returned hrun).holds

theorem Reached.filled (h : Reached D P a) (hP : ∀ op, P op → op.Mapped ∧ op.Small) : Filled a.queue.ix a.store := by
  induction h with
  | create hal hres hrun =>
    have hnone := ((create_spec hal hres _).of_returned hrun).2.1
    intro p hp
    have hp : p ∈ ([] : List (Int × Nat)) := hnone ▸ hp
    cases hp
  | step hr hop hv hrun ih =>
    exact ((QueueOp.run_spec hr.holds hv).of_returned hrun).filled (hP _ hop).1 (hP _ hop).2 ih

/-! ## Computed runs -/

def Audit.create (D : DataSection) (nproducts : Nat) (q : ProductQueue) : Option Audit :=
  match (ProductQueue.create D nproducts q).returned with
  | some (0, q') => some (Audit.new q')
  | _ => none

def Audit.runOps (D : DataSection) : List QueueOp → Audit → Option Audit
  | [], a => some a
  | op :: ops, a =>
    if op.Valid a.queue then
      match (op.run D a.queue).returned with
      | some (res, q') => Audit.runOps D ops (a.note op res q')
      | none => none
    else none

theorem Audit.create_reached {nproducts : Nat} (hal : q.ix.align = D.align) (hres : q.reserved = [])
    (h : Audit.create D nproducts q = some a) : Reached D P a := by
  unfold Audit.create at h
  split at h
  case h_1 hrun =>
    cases h
    exact .create hal hres hrun
  case h_2 => cases h

theorem Audit.runOps_reached : ∀ {ops : List QueueOp} {a a' : Audit}, Reached D P a → (∀ op ∈ ops, P op) →
    Audit.runOps D ops a = some a' → Reached D P a'
  | [], a, a', ha, _, h => by
    cases h
    exact ha
  | op :: ops, a, a', ha, hP, h => by
    rw [Audit.runOps] at h
    split at h
    case isFalse => cases h
    case isTrue hv =>
      split at h
      case h_2 => cases h
      case h_1 hrun =>
        exact runOps_reached (.step ha (hP op mem_cons_self) hv hrun)
          (fun op' hop' => hP op' (mem_cons_of_mem _ hop')) h

end Rdm
