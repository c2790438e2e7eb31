import Rdm.Pq.InPlace
import Rdm.Pq.IndexLayer

/-!
# The mapping strategies are interchangeable

Two queues with different strategies that are asked the same go along with one queue in place.
-/

namespace Rdm

open ProgLogic ProgLogic.Prog Xdr SunRpcSerializer QueueIndexManager Option
open MappedQueue (close controlLock create notifyReaders unlink zeros)

/-! ## Two strategies -/

variable {α : Type} {D : DataSection} {mapper mapper' : RegionMapper} {disk : Memory} {s t : QueueIndexManager World}
variable {st : Store} {q q' : ProductQueue} {x x' : MappedQueue} {op : FileOp} {head : FileHead}

/-- **Two queues with different strategies that have done the same.** -/
structure Paired (x x' : MappedQueue) : Prop where
  head : x'.head = x.head
  queue : ∃ q, InStep q x ∧ InStep q x' ∧ ∀ D ∈ x.head.file, ∃ st, Holds D q st
  closed : x.head.opened = none → x.entries = []
  opened : ∀ D ∈ x.head.opened, x.head.file = some D
  align : ∀ D ∈ x.head.file, D.align ∣ 16

def SameAnswer (a : α) (x : MappedQueue) (b : α) (x' : MappedQueue) : Prop := a = b ∧ Paired x x'

theorem Paired.entries (h : Paired x x') : x'.entries.map Prod.fst = x.entries.map Prod.fst := by
  obtain ⟨q, hx, hx', -⟩ := h.queue
  exact hx'.entries.trans hx.entries.symm

theorem Paired.entries_nil (h : Paired x x') (hnil : x.entries = []) : x'.entries = [] := by
  have he := h.entries
  rw [hnil] at he
  exact List.map_eq_nil_iff.1 he

theorem FileOp.Valid.congr (h : op.Valid x) (he : x'.entries.map Prod.fst = x.entries.map Prod.fst) : op.Valid x' := by
  cases op with
  | writePayload i pos bytes =>
    have hget : x'.entries[i]?.map Prod.fst = x.entries[i]?.map Prod.fst := by
      rw [← List.getElem?_map, ← List.getElem?_map, he]
    intro e' hi'
    rw [hi'] at hget
    obtain ⟨e, hi, hfst⟩ := map_eq_some_iff.1 hget.symm
    rw [← hfst]
    exact h e hi
  | _ => exact h

theorem Lockstep.agree {m : Prog ProductQueue α} {m1 m2 : Prog MappedQueue α} (hopen : head.opened = some D)
    (hfile : head.file = some D) (halign : D.align ∣ 16) (h : Lockstep (Along D head) m m1 q x)
    (h' : Lockstep (Along D head) m m2 q x') : Lockstep SameAnswer m1 m2 x x' := by
  refine (h.both h').mono ?_
  rintro b y c y' ⟨a, q', ⟨⟨st, hh⟩, rfl, hin, rfl⟩, -, rfl, hin', hhead⟩
  refine ⟨rfl, hhead, ⟨q', hin, hin', ?_⟩, fun hno => ?_, ?_, ?_⟩
  · rw [hfile]
    rintro _ ⟨⟩
    exact ⟨st, hh⟩
  · rw [hopen] at hno
    cases hno
  · rw [hopen]
    rintro _ ⟨⟩
    exact hfile
  · rw [hfile]
    rintro _ ⟨⟩
    exact halign

theorem status_along {m : Prog ProductQueue Int} {m' : Prog MappedQueue Int} (h : Lockstep (Along D head) m m' q x) :
    Lockstep (Along D head) (QueueOp.status m) (FileOp.status m') q x := by
  refine h.bind ?_
  rintro status q' _ x' ⟨hh, rfl, hin⟩
  exact .pure ⟨hh, rfl, hin⟩

/-- **An operation on the products of a queue that is open**: with each strategy it goes along with one program on the
queue in place. -/
theorem FileOp.run_along (hh : Holds D q st) (hopen : head.opened = some D) (hv : ∀ x, InStep q x → op.Valid x)
    (hc : op.closes = false) (hn : ∀ status, op ≠ .notifyReaders status) : ∃ m : Prog ProductQueue Stepped,
      ∀ mapper x, InStep q x → x.head = head → Lockstep (Along D head) m (op.run mapper) q x := by
  cases op with
  | create => cases hc
  | «open» => cases hc
  | close => cases hc
  | notifyReaders status => exact absurd rfl (hn status)
  | insert info data mapped =>
    refine ⟨QueueOp.status (ProductQueue.insert D info data mapped), ?_⟩
    rintro mapper x hin rfl
    exact status_along (insert_along hh hin hopen (hv x hin).1 (hv x hin).2 mapped)
  | newElement info mapped =>
    refine ⟨QueueOp.status (ProductQueue.newElement D info mapped), ?_⟩
    rintro mapper x hin rfl
    exact status_along
      (hh.along (.newElement info mapped) (hv x hin) rfl (newElement_beside hh hin hopen (hv x hin) mapped))
  | writePayload i pos bytes =>
    refine ⟨QueueOp.status (ProductQueue.writePayload i pos bytes), ?_⟩
    rintro mapper x hin rfl
    have hroom : ∀ r ∈ q.reserved[i]?, pos + bytes.length ≤ r.info.sz.toNat := by
      rw [hin.get]
      intro r hr
      obtain ⟨e, he, rfl⟩ := map_eq_some_iff.1 hr
      exact hv x hin e he
    exact status_along (hh.along (.writePayload i pos bytes) hroom rfl (writePayload_beside hh hin hroom))
  | commit i =>
    refine ⟨QueueOp.status (ProductQueue.commit i), ?_⟩
    rintro mapper x hin rfl
    exact status_along (hh.along (.commit i) trivial rfl (commit_beside hh hin hopen i))
  | rollback i =>
    refine ⟨QueueOp.status (ProductQueue.rollback i), ?_⟩
    rintro mapper x hin rfl
    exact status_along (hh.along (.rollback i) trivial rfl (rollback_beside hh hin hopen i))
  | deleteBySignature interval sig =>
    by_cases hsig : sig ∈ q.reserved.map Reservation.signature
    · refine ⟨QueueOp.status (ProductQueue.locked (refusedDelete interval sig)), ?_⟩
      rintro mapper x hin rfl
      exact status_along (deleteBySignature_active hh hin hopen interval hsig)
    · refine ⟨QueueOp.status (ProductQueue.deleteBySignature interval sig), ?_⟩
      rintro mapper x hin rfl
      exact status_along (hh.along (.deleteBySignature interval sig) trivial rfl
        (deleteBySignature_beside hh hin hopen interval hsig))
  | sequenceDelete mt contains cursor =>
    refine ⟨QueueCursor.sequenceDelete mt contains cursor, ?_⟩
    rintro mapper x hin rfl
    exact sequenceDelete_along hh hin hopen mt contains cursor

def FileOp.refused : FileOp → Stepped
  | .rollback _ => ⟨0, Timestamp.NONE, none⟩
  | .deleteBySignature _ _ => ⟨PqStatus.invalid.toInt, Timestamp.NONE, none⟩
  | .sequenceDelete _ _ cursor => ⟨EINVAL, cursor, none⟩
  | _ => ⟨EINVAL, Timestamp.NONE, none⟩

theorem FileOp.run_closed (hc : op.closes = false) (hopen : x.head.opened = none) (hnil : x.entries = []) :
    (op.run mapper x).returned = some (op.refused, x) := by
  obtain ⟨⟨file, opened, writers, version⟩, ix, entries⟩ := x
  simp only at hopen hnil
  subst hopen hnil
  cases op with
  | create => cases hc
  | «open» => cases hc
  | close => cases hc
  | _ => rfl

/-! ## Opening and closing -/

def FileHead.closed (head : FileHead) : FileHead :=
  match head.opened with
  | none => head
  | some _ => { head with opened := none, writers := head.writers.dropWriter }

def FileHead.reopened (head : FileHead) : Int × FileHead :=
  match head.file with
  | none => (MappedQueue.ENOENT, head)
  | some D =>
    let (status, writers) := head.writers.addWriter
    (status, { head with opened := if status ≠ 0 then none else some D, writers := writers })

theorem FileHead.closed_opened (head : FileHead) : head.closed.opened = none := by
  unfold FileHead.closed
  split
  · assumption
  · rfl

theorem FileHead.closed_file (head : FileHead) : head.closed.file = head.file := by
  unfold FileHead.closed
  split <;> rfl

theorem FileHead.reopened_file (head : FileHead) : head.reopened.2.file = head.file := by
  unfold FileHead.reopened
  split <;> rfl

theorem FileHead.reopened_opened (head : FileHead) (hclosed : head.opened = none) :
    ∀ D ∈ head.reopened.2.opened, head.file = some D := by
  intro D hD
  unfold FileHead.reopened at hD
  split at hD
  · rw [hclosed] at hD
    cases hD
  · rename_i D' hfile
    simp only at hD
    split at hD
    · cases hD
    · cases hD
      exact hfile

theorem close_returned (mapper : RegionMapper) (x : MappedQueue) :
    (close mapper x).returned = some (0, { x with head := x.head.closed }) := by
  obtain ⟨⟨file, opened, writers, version⟩, ix, entries⟩ := x
  rw [close, returned_bind_eq, returned_read_eq, bind_some]
  cases opened with
  | none => rfl
  | some D =>
    simp only
    rw [returned_bind_eq, controlLock_returned rfl]
    rfl

theorem open_returned (mapper : RegionMapper) (x : MappedQueue) : (MappedQueue.open mapper x).returned =
    some (x.head.closed.reopened.1, { x with head := x.head.closed.reopened.2 }) := by
  rw [MappedQueue.open, returned_bind_eq, close_returned, bind_some, returned_bind_eq, returned_read_eq, bind_some]
  obtain ⟨head, ix, entries⟩ := x
  simp only
  generalize head.closed = closed
  obtain ⟨file, opened, writers, version⟩ := closed
  cases file with
  | none => rfl
  | some D =>
    simp only
    rw [returned_bind_eq, returned_modify_eq, bind_some, returned_bind_eq, controlLock_returned rfl, returned_call_eq,
      bind_some]
    simp only [FileHead.reopened]
    generalize writers.addWriter = added
    obtain ⟨status, writers⟩ := added
    by_cases hstatus : status ≠ 0
    · simp only [if_pos hstatus]
      rfl
    · simp only [if_neg hstatus]
      rfl

theorem Paired.retitle (h : Paired x x') (hfile : ∀ D ∈ head.file, x.head.file = some D)
    (hopened : ∀ D ∈ head.opened, head.file = some D) (hclosed : head.opened = none → x.entries = []) :
    Paired { x with head := head } { x' with head := head } := by
  obtain ⟨q, hin, hin', hh⟩ := h.queue
  exact ⟨rfl, ⟨q, ⟨hin.mirrors, hin.entries⟩, ⟨hin'.mirrors, hin'.entries⟩, fun D hD => hh D (hfile D hD)⟩,
    hclosed, hopened, fun D hD => h.align D (hfile D hD)⟩

theorem Paired.close (h : Paired x x') (hnil : x.entries = []) :
    Paired { x with head := x.head.closed } { x' with head := x'.head.closed } := by
  rw [h.head]
  refine h.retitle (fun D hD => ?_) (fun D hD => ?_) fun _ => hnil
  · rwa [FileHead.closed_file] at hD
  · rw [FileHead.closed_opened] at hD
    cases hD

theorem Paired.self (hnil : x.entries = []) (hopened : ∀ D ∈ x.head.opened, x.head.file = some D)
    (hh : ∀ D ∈ x.head.file, ∃ st, Holds D ⟨x.ix, []⟩ st) (halign : ∀ D ∈ x.head.file, D.align ∣ 16) : Paired x x := by
  have hin : InStep ⟨x.ix, []⟩ x := by
    refine ⟨⟨rfl, ?_, fun _ _ => rfl⟩, ?_⟩
    · rw [hnil]
      intro e he
      cases he
    · rw [hnil]
      rfl
  exact ⟨rfl, ⟨_, hin, hin, hh⟩, fun _ => hnil, hopened, halign⟩

theorem controlLock_both {R : α → MappedQueue → α → MappedQueue → Prop} {m m' : Prog MappedQueue α}
    (hw : rflags.write = true) (h : Lockstep R m m' x x') :
    Lockstep R (controlLock mapper rflags m) (controlLock mapper' rflags m') x x' := by
  rw [Lockstep, controlLock_returned hw, controlLock_returned hw]
  exact h

theorem format_spec (D : DataSection) (nproducts : Nat) (x : MappedQueue) :
    wlp (do
      modify (MappedQueue.initializeControlHeader D)
      zoom (·.ix) (fun ix x => { x with ix := ix }) do
        let status ← formatNew nproducts D.datao D.ixo
        clear
        return status)
      (fun (_ : Int) x' => x'.entries = x.entries ∧ x'.head.file = x.head.file ∧ x'.head.opened = x.head.opened ∧
        Holds D ⟨x'.ix, []⟩ ⟨[], []⟩) x := by
  have hal : (⟨(MappedQueue.initializeControlHeader D x).ix, []⟩ : ProductQueue).ix.align = D.align := rfl
  have hspec := create_spec hal rfl nproducts
  rw [ProductQueue.create, ProductQueue.locked, wlp_zoom] at hspec
  rw [wlp_bind, wlp_modify, wlp_zoom]
  exact hspec.mono fun _ _ hq => ⟨rfl, rfl, rfl, hq.1⟩

theorem Paired.zeros (hp : Paired x x') (align : Nat) :
    zeros align x.ix.fb.rand x.ix.env = zeros align x'.ix.fb.rand x'.ix.env := by
  obtain ⟨q, hin, hin', -⟩ := hp.queue
  rw [hin.mirrors.same, hin'.mirrors.same]
  rfl

/-- **Creating** a queue. -/
theorem create_agree (hp : Paired x x') (hnil : x.entries = []) (halign : D.align ∣ 16) (nproducts : Nat)
    (fileStatus growStatus : Int) : Lockstep SameAnswer (create mapper D nproducts fileStatus growStatus)
      (create mapper' D nproducts fileStatus growStatus) x x' := by
  have hclosed := hp.close hnil
  refine .step_left (close_returned mapper x) (.step_right (close_returned mapper' x') ?_)
  refine .ite Iff.rfl (fun _ => .pure ⟨rfl, hclosed⟩) fun _ => .ite Iff.rfl (fun _ => ?_) fun _ => ?_
  · refine Lockstep.bind (R := fun _ y _ y' => Paired y y') (.modify ?_) fun _ _ _ _ h => .pure ⟨rfl, h⟩
    rw [unlink, unlink, hp.head]
    exact hclosed.retitle (fun _ h => by cases h) (fun _ h => by cases h) fun _ => hnil
  · -- from here on the two are in the same state
    refine Lockstep.bind (R := fun _ y _ y' => y = y' ∧ y.entries = [] ∧ y.head.file = some D ∧ y.head.opened = some D)
      (.modify ⟨?_, hnil, rfl, rfl⟩) ?_
    · simp only [hp.head, hp.zeros, hnil, hp.entries_nil hnil]
    rintro _ y _ _ ⟨rfl, hent, hfile, hopened⟩
    refine (controlLock_both rfl ((Lockstep.same (R := fun a z b z' => a = b ∧ z = z') fun _ _ => ⟨rfl, rfl⟩).knowing
      (format_spec D nproducts y))).bind ?_
    rintro status z _ _ ⟨⟨hent', hfile', hopened', hh⟩, rfl, rfl⟩
    have hnil : z.entries = [] := hent'.trans hent
    refine .ite Iff.rfl (fun _ => ?_) fun _ => .pure ⟨rfl, ?_⟩
    · refine Lockstep.bind (R := fun _ y _ y' => Paired y y') (.modify ?_) fun _ _ _ _ h => .pure ⟨rfl, h⟩
      exact .self hnil (fun _ h => by cases h) (fun _ h => by cases h) fun _ h => by cases h
    · refine .self hnil ?_ ?_ ?_
      · rw [hfile', hopened', hfile, hopened]
        exact fun _ h => h
      · rw [hfile', hfile]
        rintro _ ⟨⟩
        exact ⟨_, hh⟩
      · rw [hfile', hfile]
        rintro _ ⟨⟩
        exact halign

theorem open_agree (hp : Paired x x') (hnil : x.entries = []) :
    Lockstep SameAnswer (MappedQueue.open mapper) (MappedQueue.open mapper') x x' := by
  rw [Lockstep, open_returned, open_returned, hp.head]
  refine .some ⟨rfl, hp.retitle (fun D hD => ?_) (fun D hD => ?_) fun _ => hnil⟩
  · rwa [FileHead.reopened_file, FileHead.closed_file] at hD
  · rw [FileHead.reopened_file]
    exact FileHead.reopened_opened _ (FileHead.closed_opened _) D hD

theorem close_agree (hp : Paired x x') (hnil : x.entries = []) :
    Lockstep SameAnswer (close mapper) (close mapper') x x' := by
  rw [Lockstep, close_returned, close_returned]
  exact .some ⟨rfl, hp.close hnil⟩

theorem notifyReaders_agree (hp : Paired x x') (hopen : x.head.opened = some D) (status : Int) :
    Lockstep SameAnswer (notifyReaders mapper status) (notifyReaders mapper' status) x x' := by
  refine .read ?_
  rw [hp.head]
  simp only [hopen]
  refine (controlLock_both (R := fun _ y _ y' => Paired y y') rfl (.modify ?_)).bind fun _ _ _ _ h => .pure ⟨rfl, h⟩
  rw [hp.head]
  exact hp.retitle (fun _ hD => hD) hp.opened hp.closed

theorem status_agree {m m' : Prog MappedQueue Int} (h : Lockstep SameAnswer m m' x x') :
    Lockstep SameAnswer (FileOp.status m) (FileOp.status m') x x' := by
  refine h.bind ?_
  rintro status y _ y' ⟨rfl, hp⟩
  exact .pure ⟨rfl, hp⟩

/-- **One operation**, with two strategies. -/
theorem FileOp.run_agree (hp : Paired x x') (hv : op.Valid x) (hc : op.Careful x) :
    Lockstep SameAnswer (op.run mapper) (op.run mapper') x x' := by
  cases hcl : op.closes with
  | true =>
    have hnil := hc hcl
    cases op with
    | create D nproducts fileStatus growStatus =>
      exact status_agree (create_agree hp hnil hv nproducts fileStatus growStatus)
    | «open» => exact status_agree (open_agree hp hnil)
    | close => exact status_agree (close_agree hp hnil)
    | _ => cases hcl
  | false =>
    cases hopen : x.head.opened with
    | none =>
      have hnil := hp.closed hopen
      have hopen' : x'.head.opened = none := hp.head ▸ hopen
      rw [Lockstep, run_closed hcl hopen hnil, run_closed hcl hopen' (hp.entries_nil hnil)]
      exact .some ⟨rfl, hp⟩
    | some D =>
      by_cases hn : ∃ status, op = .notifyReaders status
      · obtain ⟨status, rfl⟩ := hn
        exact status_agree (notifyReaders_agree hp hopen status)
      · obtain ⟨q, hin, hin', hh⟩ := hp.queue
        have hfile := hp.opened D hopen
        obtain ⟨st, hh⟩ := hh D hfile
        have hvalid : ∀ y, InStep q y → op.Valid y := fun y hy => hv.congr (hy.entries.trans hin.entries.symm)
        obtain ⟨m, hm⟩ := run_along hh hopen hvalid hcl fun status he => hn ⟨status, he⟩
        exact Lockstep.agree hopen hfile (hp.align D hfile) (hm mapper x hin rfl) (hm mapper' x' hin' hp.head)

/-! ## Runs -/

def FileOp.Admitted (x : MappedQueue) (op : FileOp) : Prop := op.Valid x ∧ op.Careful x

instance (x : MappedQueue) (op : FileOp) : Decidable (FileOp.Admitted x op) := inferInstanceAs (Decidable (_ ∧ _))

theorem Paired.admitted (hp : Paired x x') (h : op.Admitted x) : op.Admitted x' :=
  ⟨h.1.congr hp.entries, fun hc => hp.entries_nil (h.2 hc)⟩

theorem Mirrors.eq_of_nil (h : Mirrors s t []) : t = s := by
  have hdisk : t.env.disk = s.env.disk := by
    funext b
    exact h.disk b fun e he => by cases he
  rw [h.same, hdisk]
  rfl

/-- **The files are the same** when no entry is in progress. -/
theorem Paired.content (hp : Paired x x') (hnil : x.entries = []) : x'.content = x.content := by
  obtain ⟨q, hin, hin', -⟩ := hp.queue
  have hix := hin.mirrors
  have hix' := hin'.mirrors
  rw [hnil] at hix
  rw [hp.entries_nil hnil] at hix'
  rw [MappedQueue.content, MappedQueue.content, hp.head, hix.eq_of_nil, hix'.eq_of_nil]

theorem Paired.runOps {ops : List FileOp} (hp : Paired x x') {answers : List Stepped} {y : MappedQueue}
    (hrun : MappedQueue.runOps mapper FileOp.Admitted ops x = some (answers, y)) :
    ∃ y', MappedQueue.runOps mapper' FileOp.Admitted ops x' = some (answers, y') ∧ Paired y y' := by
  induction ops generalizing x x' answers with
  | nil =>
    cases hrun
    exact ⟨x', rfl, hp⟩
  | cons op ops ih =>
    rw [MappedQueue.runOps] at hrun ⊢
    split at hrun
    case isFalse => cases hrun
    case isTrue hadm =>
      obtain ⟨⟨res, z⟩, hres, hrest⟩ := bind_eq_some_iff.1 hrun
      obtain ⟨⟨rest, y1⟩, hrest, he⟩ := map_eq_some_iff.1 hrest
      cases he
      obtain ⟨res', z', hres', rfl, hz⟩ := (FileOp.run_agree hp hadm.1 hadm.2).returned hres
      obtain ⟨y', hrun', hy⟩ := ih hz hrest
      refine ⟨y', ?_, hy⟩
      rw [if_pos (hp.admitted hadm), hres', bind_some]
      exact map_eq_some_iff.2 ⟨_, hrun', rfl⟩

/-- There is no queue file yet. -/
structure MappedQueue.New (x : MappedQueue) : Prop where
  file : x.head.file = none
  opened : x.head.opened = none
  entries : x.entries = []

theorem MappedQueue.New.paired (h : x.New) : Paired x x := by
  refine .self h.entries ?_ ?_ ?_
  · rw [h.opened]
    intro D hD
    cases hD
  · rw [h.file]
    intro D hD
    cases hD
  · rw [h.file]
    intro D hD
    cases hD

/-- **The mapping strategies are interchangeable**: a run with one of them that keeps to the rules is a run with any
other, with the same answers; if no entry is in progress, the file is the same. -/
theorem mappings_interchangeable (mapper mapper' : RegionMapper) (hnew : x.New) {ops : List FileOp}
    {answers : List Stepped}
    {y : MappedQueue} (hrun : MappedQueue.runOps mapper FileOp.Admitted ops x = some (answers, y)) :
    ∃ y', MappedQueue.runOps mapper' FileOp.Admitted ops x = some (answers, y') ∧
      y'.entries.map Prod.fst = y.entries.map Prod.fst ∧ (y.entries = [] → y'.content = y.content) ∧
      ∀ D ∈ y.head.file, ∀ (z : IndexSizes) (ix ix' : Nat), 16 ∣ ix → 16 ∣ ix' →
      ix + IndexLayer.span z D.align ≤ 2 ^ 64 →
        ix' + IndexLayer.span z D.align ≤ 2 ^ 64 → ∃ o, IndexLayer.place z ix D.align = IndexLayer.shift o ix ∧
          IndexLayer.place z ix' D.align = IndexLayer.shift o ix' := by
  obtain ⟨y', hrun', hp⟩ := hnew.paired.runOps hrun
  refine ⟨y', hrun', hp.entries, hp.content, ?_⟩
  intro D hD z ix ix' hix hix' hfit hfit'
  have hdvd := hp.align D hD
  have hmod : ix % D.align = ix' % D.align := by
    rw [Nat.mod_eq_zero_of_dvd (hdvd.trans hix), Nat.mod_eq_zero_of_dvd (hdvd.trans hix')]
  obtain ⟨o, ho, ho', -⟩ := IndexLayer.place_congr D.align_pos hmod hfit hfit'
  exact ⟨o, ho, ho'⟩

def noFile : MappedQueue := ⟨⟨none, none, ControlHeader.initializeControlHeader, 0⟩, (blankQueue 8 tick).ix, []⟩

def insertOps : List FileOp :=
  [.create smallSection 4 0 0, .newElement (sampleInfo 1) true, .writePayload 0 0 [7], .commit 0]

theorem interchangeable_insert : ∃ answers y y', MappedQueue.runOps .flatMmap FileOp.Admitted insertOps noFile = some
    (answers, y) ∧ MappedQueue.runOps .file FileOp.Admitted insertOps noFile = some (answers, y') ∧ y.ix.tq.nelems = 3 ∧
    y'.content = y.content := by
  have hrun : (MappedQueue.runOps .flatMmap FileOp.Admitted insertOps noFile).map (fun r =>
      (r.2.ix.tq.nelems, r.2.entries.length)) = some (3, 0) := by decide +kernel
  obtain ⟨⟨answers, y⟩, hy, he⟩ := Option.map_eq_some_iff.1 hrun
  obtain ⟨hlen, hnil⟩ := Prod.mk.inj he
  obtain ⟨y', hy', -, hcontent, -⟩ := mappings_interchangeable .flatMmap .file ⟨rfl, rfl, rfl⟩ hy
  exact ⟨answers, y, y', hy, hy', hlen, hcontent (List.eq_nil_of_length_eq_zero hnil)⟩

def closeOps : List FileOp :=
  [.create smallSection 4 0 0, .newElement (sampleInfo 1) true, .writePayload 0 0 [7], .close, .rollback 0]

def closeOutcome (mapper : RegionMapper) : Option (List Int × Nat × Option UInt8) :=
  (MappedQueue.runOps mapper FileOp.Valid closeOps noFile).map fun r =>
    (r.1.map Stepped.status, r.2.entries.length, r.2.content.map fun c => c.data 4140)

/-- The payload is in the file only if the file was mapped: the buffer has nowhere to be written to. -/
theorem close_loses_buffer : ∃ statuses, closeOutcome .flatMmap = some (statuses, 0, some 7) ∧
    closeOutcome .file = some (statuses, 0, some 0) :=
  ⟨[0, 0, 0, 0, PqStatus.invalid.toInt], by decide +kernel, by decide +kernel⟩

end Rdm
