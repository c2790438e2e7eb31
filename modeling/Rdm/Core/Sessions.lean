import Rdm.Core.Inbound

/-!
# Sessions

A session is a handler and the queue, with the notes of an observer. Its steps are the messages of the peer and the
operations of other clients.
-/

namespace Rdm

open ProgLogic ProgLogic.Prog Xdr SunRpcSerializer QueueIndexManager List

variable {D : DataSection} {q q' : ProductQueue} {st st' : Store} {acl : AclManager} {peer : PeerContext}
variable {d : Reservation × List UInt8}
  {re : RegexEngine}

/-! ## Other clients -/

def QueueOp.target : QueueOp → Option Nat
  | .writePayload i _ _ | .encodeEntry i _ | .commit i | .rollback i => some i
  | _ => none

theorem Store.mem_editDraft {i : Nat} {f : List UInt8 → List UInt8} (hd : d ∈ st.drafts)
    (hne : st.drafts[i]? ≠ some d) : d ∈ (st.editDraft i f).drafts := by
  obtain ⟨j, hj⟩ := mem_iff_getElem?.1 hd
  have hij : i ≠ j := fun e => hne (e ▸ hj)
  exact mem_iff_getElem?.2 ⟨j, (getElem?_modify_ne _ _ hij).trans hj⟩

theorem Store.mem_dropDraft_of_ne {i : Nat} (hd : d ∈ st.drafts)
    (hne : st.drafts[i]? ≠ some d) : d ∈ (st.dropDraft i).drafts := by
  cases hi : st.drafts[i]? with
  | none =>
    rw [dropDraft, eraseIdx_of_length_le (getElem?_eq_none_iff.1 hi)]
    exact hd
  | some d' => exact mem_dropDraft hi hd fun e => hne (hi.trans (congrArg some e.symm))

theorem Store.mem_after {op : QueueOp} {res : Stepped} (hd : d ∈ st.drafts)
    (hne : ∀ i, op.target = some i → st.drafts[i]? ≠ some d) : d ∈ (st.after q res q' op).drafts := by
  cases op with
  | newElement info mapped =>
    rw [after]
    split
    · exact hd
    · exact mem_append_left _ hd
  | writePayload i pos bytes => exact mem_editDraft hd (hne i rfl)
  | encodeEntry i data => exact mem_editDraft hd (hne i rfl)
  | commit i =>
    rw [after]
    split
    · rw [commitDraft]
      split
      · exact hd
      · exact mem_dropDraft_of_ne hd (hne i rfl)
    · exact mem_dropDraft_of_ne hd (hne i rfl)
  | rollback i => exact mem_dropDraft_of_ne hd (hne i rfl)
  | deleteOldest | deleteBySignature | sequenceDelete | next | sequence => exact hd

/-! ## Runs -/

/-- A session and what an observer has noted. -/
structure Session where
  handler : Handler
  queue : ProductQueue
  transfer : Option Transfer := none
  accepted : List ProdClass := []
  stored : List ProdInfo := []

namespace Session

def acceptedBy : Reply → List ProdClass
  | .hiya response =>
    if response.statusCode = ReplyStatus.OK ∨ response.statusCode = ReplyStatus.RECLASS then [response.acceptedClass]
    else []
  | _ => []

def after (peer : PeerContext) (x : Session) (m : Message) (reply : Reply) (h' : Handler) (q' : ProductQueue) :
    Session where
  handler := h'
  queue := q'
  transfer := x.handler.record x.transfer m reply h'
  accepted := x.accepted ++ acceptedBy reply
  stored := x.stored ++ (x.handler.stores peer m reply).toList

def Leaves (x : Session) (op : QueueOp) : Prop :=
  ∀ i r, op.target = some i → x.handler.receiver.entry = some (.held r) → x.queue.reserved[i]? ≠ some r

inductive Call (D : DataSection) (acl : AclManager) (peer : PeerContext) (P : Session → Message → Bool → Prop)
    (x : Session) : Session → Prop
  | mk {m : Message} {opened mapped : Bool} {reply : Reply} {h' : Handler} {q' : ProductQueue} : P x m mapped →
    m.Valid →
      (x.handler.onMessage D acl peer opened mapped m x.queue).returned = some ((reply, h'), q') →
      Call D acl peer P x (x.after peer m reply h' q')

/-- A message is handled, or another client does an operation that has the property `Q`. -/
inductive Step (D : DataSection) (acl : AclManager) (peer : PeerContext) (Q : QueueOp → Prop)
    (P : Session → Message → Bool → Prop) (x : Session) : Session → Prop
  | call {y : Session} : Call D acl peer P x y → Step D acl peer Q P x y
  | other {op : QueueOp} {res : Stepped} {q' : ProductQueue} : Q op → op.Valid x.queue → x.Leaves op →
      (op.run D x.queue).returned = some (res, q') → Step D acl peer Q P x { x with queue := q' }

/-- **The states of a session** with a new handler on a queue that clients have used. -/
inductive Reached (D : DataSection) (acl : AclManager) (peer : PeerContext) (Q : QueueOp → Prop)
    (P : Session → Message → Bool → Prop) : Session → Prop
  | start {h : Handler} {a : Audit} : h.IsNew → Rdm.Reached D Q a → Reached D acl peer Q P ⟨h, a.queue, none, [], []⟩
  | step {x y : Session} : Reached D acl peer Q P x → Step D acl peer Q P x y → Reached D acl peer Q P y

variable {Q : QueueOp → Prop} {P : Session → Message → Bool → Prop} {x y : Session}

/-! ## Computed runs -/

def runMessages (D : DataSection) (acl : AclManager) (peer : PeerContext) (P : Session → Message → Bool → Prop)
    [∀ x m mapped, Decidable (P x m mapped)] : List (Message × Bool × Bool) → Session → Option Session
  | [], x => some x
  | (m, opened, mapped) :: ms, x =>
    if P x m mapped ∧ m.Valid then
      match (x.handler.onMessage D acl peer opened mapped m x.queue).returned with
      | some ((reply, h'), q') => runMessages D acl peer P ms (x.after peer m reply h' q')
      | none => none
    else none

theorem runMessages_reached [∀ x m mapped, Decidable (P x m mapped)] : ∀ {ms : List (Message × Bool × Bool)}
    {x y : Session}, Reached D acl peer Q P x → runMessages D acl peer P ms x = some y → Reached D acl peer Q P y
  | [], x, y, hx, h => by
    cases h
    exact hx
  | (m, opened, mapped) :: ms, x, y, hx, h => by
    rw [runMessages] at h
    split at h
    case isFalse => cases h
    case isTrue hp =>
      split at h
      case h_2 => cases h
      case h_1 hrun => exact runMessages_reached (.step hx (.call (.mk hp.1 hp.2 hrun))) h

def computed (D : DataSection) (acl : AclManager) (peer : PeerContext) (P : Session → Message → Bool → Prop)
    [∀ x m mapped, Decidable (P x m mapped)] (ms : List Message) : Option Session :=
  (computedRun D tick []).bind fun a =>
    runMessages D acl peer P (ms.map fun m => (m, true, true)) ⟨.upstream {}, a.queue, none, [], []⟩

theorem computed_reached [∀ x m mapped, Decidable (P x m mapped)] {ms : List Message}
    (h : computed D acl peer P ms = some x) : Reached D acl peer Q P x := by
  obtain ⟨a, ha, hrun⟩ := Option.bind_eq_some_iff.1 h
  have hnew : (Handler.upstream {}).IsNew := rfl
  exact runMessages_reached (.start hnew (computedRun_reached (fun _ h => absurd h not_mem_nil) ha)) hrun

theorem exists_messages [∀ x m mapped, Decidable (P x m mapped)] {R : Session → Prop} (ms : List Message)
    (h : ∃ x, computed D acl peer P ms = some x ∧ R x) : ∃ x, Reached D acl peer Q P x ∧ R x := by
  obtain ⟨x, hx, hR⟩ := h
  exact ⟨x, computed_reached hx, hR⟩

/-! ## The transfer -/

def AllSmall (peer : PeerContext) (Q : QueueOp → Prop) (P : Session → Message → Bool → Prop) : Prop :=
  (∀ op, Q op → op.Mapped ∧ op.Small) ∧ ∀ x m mapped, P x m mapped → mapped = true ∧ m.Small peer

/-- **The invariant of a session**: the books of the queue are in order, and the receiver and the record of the transfer
agree. -/
structure Inv (D : DataSection) (small : Prop) (x : Session) (st : Store) : Prop where
  holds : Holds D x.queue st
  receiver : x.handler.receiver.Inv st x.transfer
  filled : small → Filled x.queue.ix st

theorem Step.inv (h : Step D acl peer Q P x y) (hi : x.Inv D (AllSmall peer Q P) st) :
    ∃ st', y.Inv D (AllSmall peer Q P) st' ∧ ∀ r, x.handler.receiver.entry = some (.held r) →
      r.offset ∈ y.queue.ix.times.map Prod.snd → ∃ tr key, y.transfer = some tr ∧ tr.Complete r ∧
        (key, ⟨r.offset, r.info, tr.bytes⟩) ∈ st'.live := by
  cases h with
  | call hc =>
    obtain ⟨hP, hv, hrun⟩ := hc
    obtain ⟨⟨st', hr⟩, -⟩ := (Handler.onMessage_spec hi.holds hi.receiver hv _ _).of_returned hrun
    exact ⟨st', ⟨hr.holds, hr.inv, fun hs => hr.filled (hs.2 _ _ _ hP) (hi.filled hs)⟩, hr.commits⟩
  | @other op res q' hQ hv hl hrun =>
    have hdid := (QueueOp.run_spec hi.holds hv).of_returned hrun
    have hr : x.handler.receiver.Inv (st.after x.queue res q' op) x.transfer := by
      refine hi.receiver.frame fun r data he hd => Store.mem_after hd fun i ht hget => hl i r ht he ?_
      rw [hi.holds.reserved_eq, hget]
      rfl
    refine ⟨_, ⟨hdid.holds, hr, fun hs => hdid.filled (hs.1 _ hQ).1 (hs.1 _ hQ).2 (hi.filled hs)⟩, fun r he hm => ?_⟩
    exact absurd hm (hr.untimed hdid.holds he)

/-- **The invariant holds** in every state of a session. -/
theorem Reached.inv (h : Reached D acl peer Q P x) : ∃ st, x.Inv D (AllSmall peer Q P) st := by
  induction h with
  | start hnew ha =>
    refine ⟨_, ha.holds, ?_, fun hs => ha.filled hs.1⟩
    have hnew : (Handler.receiver _) = {} := hnew
    rw [hnew]
    exact Receiver.Inv.idle rfl nofun
  | step _ hstep ih =>
    obtain ⟨st, hi⟩ := ih
    obtain ⟨st', hi', -⟩ := hstep.inv hi
    exact ⟨st', hi'⟩

/-- **Reassembly.** Every block that is copied lies in the payload of the entry that the last accepted announcement
reserved, which is committed only when the blocks since then are complete. -/
theorem reassembly (D : DataSection) (acl : AclManager) (peer : PeerContext) (Q : QueueOp → Prop)
    (P : Session → Message → Bool → Prop) {x : Session} (h : Reached D acl peer Q P x) :
    (∀ signature data, x.handler.Accepts signature data → ∃ tr, x.transfer = some tr ∧
      tr.reservation ∈ x.queue.reserved ∧ x.handler.receiver.blkMmapPointer = some tr.reservation.payload ∧
      x.handler.receiver.offset + data.length ≤ tr.reservation.info.sz.toNat) ∧
    ∀ y r, Step D acl peer Q P x y → x.handler.receiver.entry = some (.held r) →
      r.offset ∈ y.queue.ix.times.map Prod.snd → ∃ tr, y.transfer = some tr ∧ tr.Complete r ∧
        readBytes y.queue.ix.env.disk r.payload r.info.sz.toNat = tr.bytes := by
  obtain ⟨st, hi⟩ := h.inv
  refine ⟨fun signature data hacc => ?_, fun y r hstep hr hm => ?_⟩
  · obtain ⟨tr, ht, hp⟩ := hi.receiver.pending hacc.2.1
    obtain ⟨-, old, -, -, hd, -⟩ := hi.receiver.held _ hp.entry
    refine ⟨tr, ht, hi.holds.2 ▸ List.mem_map_of_mem hd, hp.pointer, ?_⟩
    have hlen := hacc.2.2.2
    have hrem := hp.remaining
    rw [hp.info, Receiver.offset]
    omega
  · obtain ⟨-, old, -, -, hd, -⟩ := hi.receiver.held r hr
    obtain ⟨⟨g, hk⟩, -⟩ := hi.holds
    obtain ⟨st', hi', hcommit⟩ := hstep.inv hi
    obtain ⟨tr, key, ht, hc, hlive⟩ := hcommit r hr hm
    obtain ⟨⟨g', hk'⟩, -⟩ := hi'.holds
    refine ⟨tr, ht, hc, ?_⟩
    rw [(hk.books.drafts _ hd).2.2]
    exact (hk'.books.pages _ (Store.mem_pages_of_live hlive)).data

def shortInfo : ProdInfo := { signature := Signature.fill 1, sz := 4 }

def noRules : AclManager := ⟨[], [], fun _ _ => some false⟩

def somePeer : PeerContext := ⟨[97], [98]⟩

def shortEntry : Reservation := ⟨4096, Signature.fill 1, 56, 4144, somePeer.received shortInfo⟩

/-- A product is announced, and its bytes come in two blocks. -/
theorem reassembly_blocks : ∃ x y, Reached smallSection noRules somePeer (fun _ => True)
    (fun _ _ _ => True) x ∧
    Step smallSection noRules somePeer (fun _ => True) (fun _ _ _ => True) x y ∧
    x.handler.Accepts (Signature.fill 1) [3, 4] ∧ (∃ tr, x.transfer = some tr ∧ tr.reservation ∈ x.queue.reserved) ∧
    shortEntry.offset ∈ y.queue.ix.times.map Prod.snd ∧ ∃ tr, y.transfer = some tr ∧ tr.Complete shortEntry ∧
      readBytes y.queue.ix.env.disk shortEntry.payload 4 = tr.bytes := by
  obtain ⟨x, hreach, hacc, hentry, ⟨reply, h'⟩, q', hcall, htimes⟩ : ∃ x,
    Reached smallSection noRules somePeer (fun _ => True)
      (fun _ _ _ => True) x ∧ x.handler.Accepts (Signature.fill 1) [3, 4] ∧
      x.handler.receiver.entry = some (.held shortEntry) ∧
      ∃ res q', (x.handler.onMessage smallSection noRules somePeer true true (.blkData (Signature.fill 1) [3, 4])
        x.queue).returned = some (res, q') ∧ shortEntry.offset ∈ q'.ix.times.map Prod.snd := by
    apply exists_messages [.comingSoon shortInfo, .blkData (Signature.fill 1) [1, 2]]
    decide +kernel
  have hv : (Message.blkData (Signature.fill 1) [3, 4]).Valid := trivial
  have hstep : Step smallSection noRules somePeer (fun _ => True) (fun _ _ _ => True) x _ :=
    .call (.mk trivial hv hcall)
  have hall := reassembly _ _ _ _ _ hreach
  obtain ⟨tr, ht, hres, -⟩ := hall.1 _ _ hacc
  exact ⟨x, _, hreach, hstep, hacc, ⟨tr, ht, hres⟩, htimes, hall.2 _ _ hstep hentry htimes⟩

end Session

end Rdm
