import Rdm.Core.ServiceHandlers

/-!
# Handling the messages of a peer

What a peer sends leaves the books of the queue in order; a record of the transfer says which bytes the entry of the
handler has.
-/

namespace Rdm

open ProgLogic ProgLogic.Prog Xdr SunRpcSerializer List

variable {D : DataSection} {q q' : ProductQueue} {st st' : Store} {acl : AclManager} {peer : PeerContext}
variable {s s' : Receiver} {t t' : Option Transfer} {small : Prop} {new : Option ProdInfo}
variable {data : List UInt8} {info : ProdInfo} {h h' : Handler} {m : Message} {reply : Reply} {mapped : Bool}

/-! ## What a message does to the queue -/

/-- The transfer of the entry `r` is complete: all blocks are its own, and they are as many bytes as the product has. -/
structure Transfer.Complete (t : Transfer) (r : Reservation) : Prop where
  reservation : t.reservation = r
  signatures : ∀ p ∈ t.packets, p.1 = r.signature
  length : t.bytes.length = r.info.sz.toNat

/-- What is left when a receiver has handled a message, which stored the product `new` or nothing. -/
structure Received (D : DataSection) (q : ProductQueue) (st : Store) (s : Receiver) (small : Prop)
    (new : Option ProdInfo) (t' : Option Transfer) (s' : Receiver) (q' : ProductQueue) (st' : Store) : Prop where
  holds : Holds D q' st'
  inv : s'.Inv st' t'
  filled : small → Filled q.ix st → Filled q'.ix st'
  commits : ∀ r, s.entry = some (.held r) → r.offset ∈ q'.ix.times.map Prod.snd → ∃ tr key, t' = some tr ∧
    tr.Complete r ∧ (key, ⟨r.offset, r.info, tr.bytes⟩) ∈ st'.live
  fresh : ∀ p ∈ q'.ix.times, p ∈ q.ix.times ∨ ∃ pg, (p.1, pg) ∈ st'.live ∧ pg.offset = p.2 ∧ new = some pg.info

theorem Receiver.Inv.untimed (hi : s.Inv st t) (h : Holds D q st) {r : Reservation} (hr : s.entry = some (.held r)) :
    r.offset ∉ q.ix.times.map Prod.snd := by
  obtain ⟨-, data, -, -, hd, -⟩ := hi.held r hr
  exact h.untimed hd

theorem Holds.fresh_of_live (h : Holds D q st) (h' : Holds D q' st')
    (hlive : ∀ p ∈ st'.live, p ∈ st.live ∨ new = some p.2.info) : ∀ p ∈ q'.ix.times, p ∈ q.ix.times ∨
      ∃ pg, (p.1, pg) ∈ st'.live ∧ pg.offset = p.2 ∧ new = some pg.info := by
  intro p hp
  obtain ⟨pg, hpg, hoff⟩ := h'.mem_times.1 hp
  rcases hlive _ hpg with hold | hnew
  · exact .inl (h.mem_times.2 ⟨pg, hold, hoff⟩)
  · exact .inr ⟨pg, hpg, hoff, hnew⟩

theorem Received.keeps (h : Holds D q' st') (hi : s.Inv st' t) (hfill : small → Filled q.ix st → Filled q'.ix st')
    (hfresh : ∀ p ∈ q'.ix.times, p ∈ q.ix.times ∨ ∃ pg, (p.1, pg) ∈ st'.live ∧ pg.offset = p.2 ∧ new = some pg.info)
    (hs : s'.entry = s.entry) (hexp : s'.expectBlkdata = true → s' = s) :
    Received D q st s small new t s' q' st' := by
  refine ⟨h, ⟨fun r hr => hi.held r (hs ▸ hr), fun he => ?_⟩, hfill, fun r hr hm => absurd hm (hi.untimed h hr), hfresh⟩
  rw [hexp he]
  exact hi.pending (hexp he ▸ he)

theorem Received.refl (h : Holds D q st) (hi : s.Inv st t) : Received D q st s small new t s q st :=
  .keeps h hi (fun _ => id) (fun _ => .inl) rfl fun _ => rfl

theorem insert_received (h : Holds D q st) (hi : s.Inv st t)
    (hmem : info.origin.length + info.ident.length < 2 ^ 62) (hlen : data.length = info.sz.toNat)
    (mapped : Bool) : wlp (ProductQueue.insert D info data mapped) (fun status q' => ∃ st', Received D q st s
      (mapped = true ∧ getEncodedSize info < 2 ^ 32) (if status = 0 then some info else none) t s q' st') q := by
  refine (insert_spec h hmem hlen mapped).mono ?_
  rintro status q' ⟨st', h', hdrafts, hfill, hlive⟩
  refine ⟨st', .keeps h' (hi.frame fun _ _ _ hd => ?_) (fun hs => hfill hs.1 hs.2) ?_ rfl fun _ => rfl⟩
  · rwa [hdrafts]
  · refine h.fresh_of_live h' fun p hp => (hlive p hp).imp_right fun hnew => ?_
    rw [if_pos hnew.1, hnew.2]

theorem comingSoon_received (h : Holds D q st) (hi : s.Inv st t)
    (hmem : info.origin.length + info.ident.length < 2 ^ 62) (mapped : Bool) :
    wlp (s.comingSoon D mapped info) (fun res q' => res.2.pending = info ∧ (s.Tidy → res.2.Tidy) ∧ ∃ st',
      Received D q st s (mapped = true ∧ getEncodedSize info < 2 ^ 32) none (if res.1 = 0 then res.2.announced t else t)
        res.2 q' st') q := by
  refine (Receiver.comingSoon_spec h hi hmem mapped).mono ?_
  rintro res q' ⟨_, hpending, htidy, st', h', hi', hsub, hfill⟩
  refine ⟨hpending, htidy, st', h', hi', fun hs => hfill hs.1 hs.2, fun r hr hm => ?_, fun p hp => .inl (hsub.mem hp)⟩
  exact absurd ((hsub.map Prod.snd).mem hm) (hi.untimed h hr)

def Receiver.completes (s : Receiver) (signature : Signature) (data : List UInt8) (status : Int) : Option ProdInfo :=
  if s.Accepts signature data ∧ data.length = s.remaining ∧ status = 0 then some s.pending else none

theorem Receiver.rollback_pending (s : Receiver) : wlp s.rollback (fun s' _ => s'.pending = s.pending) q := by
  unfold rollback
  split
  · exact wlp_pure.2 rfl
  · rw [wlp_bind]
    exact wlp_true.mono fun _ _ _ => wlp_pure.2 rfl

theorem Receiver.blkData_pending (s : Receiver) (signature : Signature) (data : List UInt8) :
    wlp (s.blkData signature data) (fun res _ => res.2.pending = s.pending ∧
      (res.2.expectBlkdata = true → s.expectBlkdata = true)) q := by
  unfold blkData
  split
  case isTrue => exact wlp_pure.2 ⟨rfl, id⟩
  case isFalse hexp =>
    have hexp : s.expectBlkdata = true := Bool.not_eq_false _ ▸ hexp
    split
    · rw [wlp_bind]
      refine wlp_true.mono fun _ _ _ => ?_
      dsimp only
      split
      · rw [finish, wlp_bind]
        refine wlp_true.mono fun res _ _ => ?_
        dsimp only
        split
        · rw [wlp_bind]
          exact (rollback_pending _).mono fun _ _ hp => wlp_pure.2 ⟨hp, fun _ => hexp⟩
        · exact wlp_pure.2 ⟨rfl, fun _ => hexp⟩
      · exact wlp_pure.2 ⟨rfl, fun _ => hexp⟩
    · rw [wlp_bind]
      exact (rollback_pending _).mono fun _ _ hp => wlp_pure.2 ⟨hp, fun _ => hexp⟩

theorem blkData_received (h : Holds D q st) (hi : s.Inv st t) (signature : Signature) (data : List UInt8) :
    wlp (s.blkData signature data) (fun res q' => (s.Tidy → res.2.Tidy) ∧ ∃ st', Received D q st s small
      (s.completes signature data res.1) (if s.Accepts signature data then t.map (·.push (signature, data)) else t)
      res.2 q' st') q := by
  refine (Receiver.blkData_spec h hi signature data).mono ?_
  rintro res q' ⟨htidy, st', h', hfill, hi', hout⟩
  rcases hout with htimes | ⟨hacc, hlast, hst, tr, key, ht, hp, hlive⟩
  · refine ⟨htidy, st', h', hi', fun _ => hfill, fun r hr hm => ?_, fun p hp => .inl (htimes ▸ hp)⟩
    exact absurd (htimes ▸ hm) (hi.untimed h hr)
  · -- the last block: the draft has become a live product
    have hnew : s.completes signature data res.1 = some s.pending := if_pos ⟨hacc, hlast, hst⟩
    refine ⟨htidy, st', h', hi', fun _ => hfill, fun r hr hm => ?_, h.fresh_of_live h' fun p hm => ?_⟩
    · obtain ⟨-, data', -, -, hd, -⟩ := hi.held r hr
      obtain ⟨⟨g, hk⟩, -⟩ := h
      have hsig := (hk.books.drafts _ hd).2.1
      rw [hp.entry] at hr
      cases hr
      have hpush := hp.push hacc
      rw [if_pos hacc, ht]
      refine ⟨tr.push (signature, data), key, rfl, ⟨rfl, fun p hm => ?_, ?_⟩, ?_⟩
      · rw [hpush.signatures p hm, hsig, hp.info]
      · have hrem := hpush.remaining
        simp only at hrem
        rw [hp.info]
        omega
      · rw [hlive]
        exact mem_append_right _ (mem_singleton.2 rfl)
    · rw [hlive] at hm
      rcases mem_append.1 hm with hm | hm
      · exact .inl hm
      · rw [mem_singleton.1 hm, hnew, hp.info]
        exact .inr rfl

/-! ## Handling a message -/

def Message.Valid : Message → Prop
  | .hereIs info data => info.ident.length < 2 ^ 61 ∧ data.length = info.sz.toNat
  | .comingSoon info => info.ident.length < 2 ^ 61
  | _ => True

instance : DecidablePred Message.Valid
  | .hereIs info data => inferInstanceAs (Decidable (info.ident.length < 2 ^ 61 ∧ data.length = info.sz.toNat))
  | .comingSoon info => inferInstanceAs (Decidable (info.ident.length < 2 ^ 61))
  | .hiya _ | .feedMe _ _ _ | .blkData _ _ => isTrue trivial

def Message.Small (peer : PeerContext) : Message → Prop
  | .hereIs info _ | .comingSoon info => getEncodedSize (peer.received info) < 2 ^ 32
  | _ => True

instance (peer : PeerContext) : DecidablePred (Message.Small peer)
  | .hereIs info _ | .comingSoon info => inferInstanceAs (Decidable (getEncodedSize (peer.received info) < 2 ^ 32))
  | .hiya _ | .feedMe _ _ _ | .blkData _ _ => isTrue trivial

theorem PeerContext.received_fits (peer : PeerContext) (h : info.ident.length < 2 ^ 61) :
    (peer.received info).origin.length + (peer.received info).ident.length < 2 ^ 62 := by
  have horigin : (peer.received info).origin.length ≤ 63 := length_take_le _ _
  show (peer.received info).origin.length + info.ident.length < 2 ^ 62
  omega

def Message.Resets (acl : AclManager) (peer : PeerContext) (h : Handler) : Message → Prop
  | .hiya request => h.receiver.expectBlkdata = true ∧ acl.reduceToAcceptable peer request.offeredClass ≠ none
  | _ => False

instance (acl : AclManager) (peer : PeerContext) (h : Handler) : DecidablePred (Message.Resets acl peer h)
  | .hiya request => inferInstanceAs (Decidable (_ ∧ acl.reduceToAcceptable peer request.offeredClass ≠ none))
  | .feedMe _ _ _ | .hereIs _ _ | .comingSoon _ | .blkData _ _ => isFalse id

def Handler.record (h : Handler) (t : Option Transfer) (m : Message) (reply : Reply) (h' : Handler) : Option Transfer :=
  match m with
  | .comingSoon _ => if reply = .status 0 then h'.receiver.announced t else t
  | .blkData signature data => if h.Accepts signature data then t.map (·.push (signature, data)) else t
  | _ => t

def Handler.stores (peer : PeerContext) (h : Handler) (m : Message) (reply : Reply) : Option ProdInfo :=
  match m, reply with
  | .hereIs info _, .status code => if code = 0 then some (peer.received info) else none
  | .blkData signature data, .status code => if h.isOpen then h.receiver.completes signature data code else none
  | _, _ => none

def Message.product : Message → Option ProdInfo
  | .hereIs info _ | .comingSoon info => some info
  | _ => none

/-- What a message leaves. -/
structure Handled (D : DataSection) (acl : AclManager) (peer : PeerContext) (mapped : Bool) (h : Handler)
    (t : Option Transfer) (m : Message) (q : ProductQueue) (st : Store) (reply : Reply) (h' : Handler)
    (q' : ProductQueue) : Prop where
  received : ∃ st', Received D q st h.receiver (mapped = true ∧ m.Small peer) (h.stores peer m reply)
    (h.record t m reply h') h'.receiver q' st'
  tidy : ¬ m.Resets acl peer h → h.receiver.Tidy → h'.receiver.Tidy
  pending : h'.receiver.expectBlkdata = true → m.product.map peer.received = some h'.receiver.pending ∨
    h.receiver.expectBlkdata = true ∧ h'.receiver.pending = h.receiver.pending

theorem Handled.of_same (hq : Holds D q st) (hi : h.receiver.Inv st t) (hs : h'.receiver = h.receiver)
    (hrec : h.record t m reply h' = t) : Handled D acl peer mapped h t m q st reply h' q := by
  refine ⟨⟨st, ?_⟩, fun _ => hs ▸ id, fun he => .inr ?_⟩
  · rw [hrec, hs]
    exact .refl hq hi
  · rw [hs] at he ⊢
    exact ⟨he, rfl⟩

theorem Handled.of_insert {status : Int} (hs : h'.receiver = h.receiver)
    (hr : ∃ st', Received D q st h.receiver (mapped = true ∧ getEncodedSize (peer.received info) < 2 ^ 32)
      (if status = 0 then some (peer.received info) else none) t h.receiver q' st') :
    Handled D acl peer mapped h t (.hereIs info data) q st (.status status) h' q' := by
  refine ⟨?_, fun _ => hs ▸ id, fun he => .inr ?_⟩
  · rw [hs]
    exact hr
  · rw [hs] at he ⊢
    exact ⟨he, rfl⟩

theorem Handled.of_comingSoon {res : Int × Receiver} (hs : h'.receiver = res.2)
    (hr : res.2.pending = peer.received info ∧ (h.receiver.Tidy → res.2.Tidy) ∧ ∃ st', Received D q st h.receiver
      (mapped = true ∧ getEncodedSize (peer.received info) < 2 ^ 32) none (if res.1 = 0 then res.2.announced t else t)
      res.2 q' st') : Handled D acl peer mapped h t (.comingSoon info) q st (.status res.1) h' q' := by
  refine ⟨?_, fun _ => hs ▸ hr.2.1, fun _ => .inl ?_⟩
  · have hrec : h.record t (.comingSoon info) (.status res.1) h' = if res.1 = 0 then res.2.announced t else t := by
      simp only [Handler.record, Reply.status.injEq, hs]
    rw [hs, hrec]
    exact hr.2.2
  · rw [hs, hr.1]
    rfl

theorem Handled.of_blkData {signature : Signature} {res : Int × Receiver} (hopen : h.isOpen = true)
    (hs : h'.receiver = res.2) (hp : res.2.pending = h.receiver.pending ∧
      (res.2.expectBlkdata = true → h.receiver.expectBlkdata = true))
    (hr : (h.receiver.Tidy → res.2.Tidy) ∧ ∃ st', Received D q st h.receiver (mapped = true ∧ True)
      (h.receiver.completes signature data res.1)
      (if h.receiver.Accepts signature data then t.map (·.push (signature, data)) else t) res.2 q' st') :
    Handled D acl peer mapped h t (.blkData signature data) q st (.status res.1) h' q' := by
  refine ⟨?_, fun _ => hs ▸ hr.1, fun he => .inr ⟨hp.2 (hs ▸ he), hs ▸ hp.1⟩⟩
  have hrec : h.record t (.blkData signature data) (.status res.1) h' =
      if h.receiver.Accepts signature data then t.map (·.push (signature, data)) else t := by
    simp only [Handler.record, Handler.Accepts, hopen, true_and]
  have hnew : h.stores peer (.blkData signature data) (.status res.1) = h.receiver.completes signature data res.1 :=
    if_pos hopen
  rw [hs, hrec, hnew]
  exact hr.2

theorem Handler.wlp_withStatus {α : Type} {make : α → Handler} {m : Prog ProductQueue (Int × α)}
    {Q : Reply × Handler → ProductQueue → Prop} :
    wlp (withStatus make m) Q q ↔ wlp m (fun res q' => Q (.status res.1, make res.2) q') q := by
  rw [withStatus, wlp_bind]
  exact ⟨fun h => h.mono fun _ _ => wlp_pure.1, fun h => h.mono fun _ _ => wlp_pure.2⟩

theorem Handled.of_hiya {h : UpstreamServerHandler} {request : HiyaRequest} {opened : Bool} (hq : Holds D q st)
    (hi : h.receiver.Inv st t) : Handled D acl peer mapped (.upstream h) t (.hiya request) q st
      (.hiya (h.onHiyaRequest acl peer opened request).1)
      (.upstream (h.onHiyaRequest acl peer opened request).2) q := by
  unfold UpstreamServerHandler.onHiyaRequest
  split
  case h_1 => exact .of_same hq hi rfl rfl
  case h_2 clss hclss =>
    dsimp only
    split
    case isTrue => exact .of_same hq hi rfl rfl
    case isFalse =>
      refine ⟨⟨st, .keeps hq hi (fun _ => id) (fun _ => .inl) rfl nofun⟩, fun hno htidy _ => ?_, nofun⟩
      -- without a reset, no blocks were expected before
      refine htidy (Bool.eq_false_iff.2 fun hexp => hno ⟨hexp, ?_⟩)
      rw [hclss]
      exact Option.some_ne_none _

theorem Handled.of_feedRequest {h h' : UpstreamServerHandler} {addProcess : ProdClass → Int × ProdClass} {pid : UInt32}
    {request : FeedRequest} {response : FeedResponse} (hq : Holds D q st) (hi : h.receiver.Inv st t)
    (hres : h.onFeedRequest acl peer addProcess pid request = some (response, h')) :
    Handled D acl peer mapped (.upstream h) t (.feedMe request addProcess pid) q st (.feed response)
      (.upstream h') q := by
  have hs : h'.receiver = h.receiver := by
    unfold UpstreamServerHandler.onFeedRequest at hres
    dsimp only at hres
    repeat' split at hres
    all_goals cases hres
    all_goals rfl
  exact .of_same hq hi hs rfl

theorem DownstreamClientHandler.settled_receiver (h : DownstreamClientHandler) (info : ProdInfo) (error : Int) :
    (h.settled info error).receiver = h.receiver := by
  unfold settled refused
  repeat' split
  all_goals rfl

/-- **A message**, whatever the peer sends. -/
theorem Handler.onMessage_spec (hq : Holds D q st) {h : Handler} (hi : h.receiver.Inv st t) {m : Message} (hv : m.Valid)
    (opened mapped : Bool) : wlp (h.onMessage D acl peer opened mapped m) (fun res q' =>
      Handled D acl peer mapped h t m q st res.1 res.2 q') q := by
  cases h with
  | upstream h =>
    cases m with
    | hiya request => exact wlp_pure.2 (.of_hiya hq hi)
    | feedMe request addProcess pid =>
      rw [onMessage, wlp_bind, wlp_ofOption]
      intro res hres
      exact wlp_pure.2 (.of_feedRequest hq hi hres)
    | hereIs info data =>
      rw [onMessage, wlp_withStatus, UpstreamServerHandler.onHereIs]
      dsimp only
      split
      case isTrue => exact wlp_pure.2 (.of_same hq hi rfl rfl)
      case isFalse =>
        rw [wlp_bind]
        exact (insert_received hq hi (peer.received_fits hv.1) hv.2 mapped).mono fun _ _ hr =>
          wlp_pure.2 (.of_insert rfl hr)
    | comingSoon info =>
      rw [onMessage, wlp_withStatus, UpstreamServerHandler.onComingSoon]
      dsimp only
      split
      case isTrue => exact wlp_pure.2 (.of_same hq hi rfl rfl)
      case isFalse =>
        rw [wlp_bind]
        exact (comingSoon_received hq hi (peer.received_fits hv) mapped).mono fun _ _ hr =>
          wlp_pure.2 (.of_comingSoon rfl hr)
    | blkData signature data =>
      rw [onMessage, wlp_withStatus, UpstreamServerHandler.onBlkData]
      split
      case isTrue hno =>
        exact wlp_pure.2 (.of_same hq hi rfl (if_neg fun hacc => Bool.false_ne_true (hno.symm.trans hacc.1)))
      case isFalse hopen =>
        rw [wlp_bind]
        exact ((Receiver.blkData_pending _ _ _).and (blkData_received hq hi signature data)).mono fun _ _ hr =>
          wlp_pure.2 (.of_blkData (Bool.not_eq_false _ ▸ hopen) rfl hr.1 hr.2)
  | downstream h =>
    cases m with
    | hiya request => exact wlp_pure.2 (.of_same hq hi rfl rfl)
    | feedMe request addProcess pid => exact wlp_pure.2 (.of_same hq hi rfl rfl)
    | hereIs info data =>
      rw [onMessage, wlp_withStatus, DownstreamClientHandler.onHereIs]
      split
      case isTrue => exact wlp_pure.2 (.of_same hq hi rfl rfl)
      case isFalse =>
        rw [wlp_bind]
        exact (insert_received hq hi (peer.received_fits hv.1) hv.2 mapped).mono fun _ _ hr =>
          wlp_pure.2 (.of_insert (h.settled_receiver _ _) hr)
    | comingSoon info =>
      rw [onMessage, wlp_withStatus, DownstreamClientHandler.onComingSoon]
      split
      case isTrue => exact wlp_pure.2 (.of_same hq hi rfl rfl)
      case isFalse =>
        rw [wlp_bind]
        exact (comingSoon_received hq hi (peer.received_fits hv) mapped).mono fun _ _ hr =>
          wlp_pure.2 (.of_comingSoon rfl hr)
    | blkData signature data =>
      rw [onMessage, wlp_withStatus, DownstreamClientHandler.onBlkData]
      split
      case isTrue hno =>
        exact wlp_pure.2 (.of_same hq hi rfl (if_neg fun hacc => Bool.false_ne_true (hno.symm.trans hacc.1)))
      case isFalse hopen =>
        rw [wlp_bind]
        exact ((Receiver.blkData_pending _ _ _).and (blkData_received hq hi signature data)).mono fun _ _ hr =>
          wlp_pure.2 (.of_blkData (Bool.not_eq_false _ ▸ hopen) rfl hr.1 hr.2)

end Rdm
