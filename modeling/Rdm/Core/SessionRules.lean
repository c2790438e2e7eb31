import Rdm.Core.Sessions

/-!
# What sessions keep to

A session holds no entry when it does not expect blocks, unless a `HIYA` came in the middle of a transfer. That it
stores only products which the peer may push nothing checks.
-/

namespace Rdm

open ProgLogic ProgLogic.Prog Xdr SunRpcSerializer QueueIndexManager List

variable {D : DataSection} {st : Store} {acl : AclManager} {peer : PeerContext} {re : RegexEngine} {Q : QueueOp → Prop}
  {P : Session → Message → Bool → Prop} {x y : Session}

/-! ## Reservations -/

theorem Holds.filed_cases {q : ProductQueue} (h : Holds D q st) (hf : Filled q.ix st) {sig : Signature} {off : Int}
    (hm : (sig, off) ∈ q.ix.filed) :
    (∃ key, (key, off) ∈ q.ix.times) ∨ ∃ r ∈ q.reserved, r.offset = off ∧ r.signature = sig := by
  have hoff : off ∈ q.ix.regions.map Prod.fst := (h.consistent hf).offsets.mem_iff.1 (mem_map_of_mem hm)
  obtain ⟨p, hp, rfl⟩ := mem_map.1 hoff
  obtain ⟨pg, hpg, he⟩ := hf p hp
  rcases mem_append.1 hpg with hpg | hpg
  · obtain ⟨⟨key, pg⟩, hlive, rfl⟩ := mem_map.1 hpg
    exact .inl ⟨key, h.mem_times.2 ⟨pg, hlive, he⟩⟩
  · obtain ⟨d, hd, rfl⟩ := mem_map.1 hpg
    obtain ⟨⟨g, hk⟩, hres⟩ := h
    rw [← Multiset.mem_coe, hk.inv.filed_eq] at hm
    have hfiled := (hk.books.pages _ (Store.mem_pages_of_draft hd)).filed
    rw [he] at hfiled
    refine .inr ⟨d.1, hres ▸ mem_map_of_mem hd, he, ?_⟩
    rw [(hk.books.drafts d hd).2.1]
    exact hk.books.signature_unique hfiled hm

namespace Session

theorem Reached.tidy (hP : ∀ x m mapped, P x m mapped → ¬ m.Resets acl peer x.handler) (h : Reached D acl peer Q P x) :
    x.handler.receiver.Tidy := by
  induction h with
  | @start h a hnew ha =>
    intro _ r
    rw [show h.receiver = {} from hnew]
    exact nofun
  | step hx hstep ih =>
    cases hstep with
    | call hc =>
      obtain ⟨hp, hv, hrun⟩ := hc
      obtain ⟨st, hi⟩ := hx.inv
      exact ((Handler.onMessage_spec hi.holds hi.receiver hv _ _).of_returned hrun).tidy (hP _ _ _ hp) ih
    | other => exact ih

/-- **The discipline of reservations**, in every session in which no `HIYA` is accepted while blocks are expected: if no
blocks are expected then no entry is held, and a product is a duplicate then only of one that is not the session's. -/
theorem reservation_discipline (D : DataSection) (acl : AclManager) (peer : PeerContext) (Q : QueueOp → Prop)
    (P : Session → Message → Bool → Prop) (hP : ∀ x m mapped, P x m mapped → ¬ m.Resets acl peer x.handler)
    {x : Session} (h : Reached D acl peer Q P x) (hexp : x.handler.receiver.expectBlkdata = false) :
    (∀ r, x.handler.receiver.entry ≠ some (.held r)) ∧
    (AllSmall peer Q P → ∀ info mapped q', (ProductQueue.newElement D info mapped x.queue).returned =
      some (PqStatus.dup.toInt, q') → ∃ off, (info.signature, off) ∈ x.queue.ix.filed ∧
        ((∃ key, (key, off) ∈ x.queue.ix.times) ∨ ∃ r ∈ x.queue.reserved, r.offset = off ∧
          r.signature = info.signature ∧ x.handler.receiver.entry ≠ some (.held r))) := by
  have htidy := h.tidy hP hexp
  refine ⟨htidy, fun hs info mapped q' hrun => ?_⟩
  obtain ⟨st, hi⟩ := h.inv
  obtain ⟨⟨g, hk⟩, -⟩ := hi.holds
  obtain ⟨⟨sig, off⟩, hfiled, rfl⟩ := mem_map.1 ((newElement_dup hk.inv info mapped).of_returned hrun rfl)
  refine ⟨off, hfiled, (hi.holds.filed_cases (hi.filled hs) hfiled).imp_right ?_⟩
  rintro ⟨r, hr, hoff, hsig⟩
  exact ⟨r, hr, hoff, hsig, htidy r⟩

def Orderly (acl : AclManager) (peer : PeerContext) (x : Session) (m : Message) (mapped : Bool) : Prop :=
  ¬ m.Resets acl peer x.handler ∧ mapped = true ∧ m.Small peer

instance (acl : AclManager) (peer : PeerContext) (x : Session) (m : Message) (mapped : Bool) :
    Decidable (Orderly acl peer x m mapped) :=
  inferInstanceAs (Decidable (_ ∧ _))

/-- A transfer is abandoned because of a wrong signature, and the product comes again in one message. -/
theorem reservation_discipline_retry : ∃ x q', Reached smallSection noRules somePeer
      (fun op => op.Mapped ∧ op.Small) (Orderly noRules somePeer) x ∧
    x.handler.receiver.expectBlkdata = false ∧ (∀ r, x.handler.receiver.entry ≠ some (.held r)) ∧
    (ProductQueue.newElement smallSection shortInfo true x.queue).returned =
    some (PqStatus.dup.toInt, q') ∧
    ∃ off, (shortInfo.signature, off) ∈ x.queue.ix.filed ∧ ((∃ key, (key, off) ∈ x.queue.ix.times) ∨
      ∃ r ∈ x.queue.reserved, r.offset = off ∧ r.signature = shortInfo.signature ∧
        x.handler.receiver.entry ≠ some (.held r)) := by
  obtain ⟨x, hreach, hexp, q', hnew⟩ : ∃ x, Reached smallSection noRules somePeer (fun op => op.Mapped ∧ op.Small)
      (Orderly noRules somePeer) x ∧ x.handler.receiver.expectBlkdata = false ∧
      ∃ q', (ProductQueue.newElement smallSection shortInfo true x.queue).returned = some (PqStatus.dup.toInt, q') := by
    apply exists_messages [.comingSoon shortInfo, .blkData (Signature.fill 2) [1, 2], .hereIs shortInfo [1, 2, 3, 4]]
    decide +kernel
  obtain ⟨hno, hdup⟩ := reservation_discipline _ noRules somePeer _ _ (fun _ _ _ h => h.1) hreach hexp
  exact ⟨x, q', hreach, hexp, hno, hnew, hdup ⟨fun _ h => h, fun _ _ _ h => h.2⟩ _ _ _ hnew⟩

def anyRules : AclManager := ⟨[], [⟨0xffffffff, []⟩], fun _ _ => some true⟩

def anyClass : ProdClass := { toSec := 31536000, specs := [⟨0xffffffff, []⟩] }

/-- A `HIYA` in the middle of a transfer: the session holds the entry, and the product is refused as a duplicate of
it. -/
theorem reservation_kept : ∃ x, Reached smallSection anyRules somePeer
    (fun op => op.Mapped ∧ op.Small)
      (fun _ m mapped => mapped = true ∧ m.Small somePeer) x ∧
    x.handler.receiver.expectBlkdata = false ∧ x.handler.receiver.entry = some (.held shortEntry) ∧
    x.queue.reserved = [shortEntry] ∧ x.queue.ix.times = [] ∧ ∃ h' q',
    (x.handler.onMessage smallSection anyRules somePeer true true (.comingSoon shortInfo)
    x.queue).returned =
      some ((.status PqStatus.dup.toInt, h'), q') := by
  obtain ⟨x, hreach, hexp, hentry, hres, htimes, ⟨_, h'⟩, q', hcall, rfl⟩ : ∃ x, Reached smallSection anyRules somePeer
      (fun op => op.Mapped ∧ op.Small) (fun _ m mapped => mapped = true ∧ m.Small somePeer) x ∧
      x.handler.receiver.expectBlkdata = false ∧ x.handler.receiver.entry = some (.held shortEntry) ∧
      x.queue.reserved = [shortEntry] ∧ x.queue.ix.times = [] ∧
      ∃ res q', (x.handler.onMessage smallSection anyRules somePeer true true (.comingSoon shortInfo)
      x.queue).returned =
        some (res, q') ∧ res.1 = .status PqStatus.dup.toInt := by
    apply exists_messages [.comingSoon shortInfo, .hiya ⟨anyClass⟩]
    decide +kernel
  exact ⟨x, hreach, hexp, hentry, hres, htimes, h', q', hcall⟩

end Session

/-! ## Authorisation -/

theorem AclManager.acceptable_rule {offered clss : ProdClass} {info : ProdInfo}
    (h : acl.reduceToAcceptable peer offered = some clss) (hc : clss.contains re info = some true) :
    ∃ rule ∈ acl.acceptRules, acl.isHostMatch peer rule.hostPattern = true ∧ info.feedtype &&& rule.feedtype ≠ 0 := by
  obtain ⟨spec, hspec, hft, -⟩ := (ProdClass.contains_spec hc).2 (reduceTo_spec h).2
  have hfeed : info.feedtype &&& acl.getAccepted peer ≠ 0 := by
    intro hzero
    apply hft
    rw [← reduceTo_feed h hspec, UInt32.and_comm spec.feedtype, ← UInt32.and_assoc, hzero]
    exact UInt32.zero_and
  obtain ⟨ft, hm, hover⟩ := feeds_overlap hfeed
  obtain ⟨rule, hrule, rfl⟩ := mem_map.1 hm
  obtain ⟨hmem, hhost⟩ := mem_filter.1 hrule
  exact ⟨rule, hmem, hhost, hover⟩

theorem ProdClass.contains_received (clss : ProdClass) (info : ProdInfo) :
    clss.contains re (peer.received info) = clss.contains re info := by
  have hany : ∀ specs, containsAny re (peer.received info) specs = containsAny re info specs := by
    intro specs
    induction specs with
    | nil => rfl
    | cons spec specs ih =>
      rw [containsAny, containsAny, ih]
      rfl
  rw [contains, contains, hany]
  rfl

theorem Handler.stores_spec {h : Handler} {m : Message} {reply : Reply} {info : ProdInfo}
    (hs : h.stores peer m reply = some info) : m.product.map peer.received = some info ∨
      h.receiver.expectBlkdata = true ∧ info = h.receiver.pending := by
  unfold stores at hs
  split at hs
  case h_1 =>
    split at hs
    · exact .inl hs
    · cases hs
  case h_2 =>
    split at hs
    · unfold Receiver.completes at hs
      split at hs
      · next hc =>
        cases hs
        exact .inr ⟨hc.1.1, rfl⟩
      · cases hs
    · cases hs
  case h_3 => cases hs

/-- The peer may push a product: some `ACCEPT` rule for the peer has a feed of it, and a class that was accepted has
it. -/
structure MayPush (acl : AclManager) (peer : PeerContext) (re : RegexEngine) (accepted : List ProdClass)
    (info : ProdInfo) : Prop where
  rule : ∃ rule ∈ acl.acceptRules, acl.isHostMatch peer rule.hostPattern = true ∧ info.feedtype &&& rule.feedtype ≠ 0
  clss : ∃ clss ∈ accepted, clss.contains re info = some true

namespace Session

def Vetted (re : RegexEngine) (x : Session) (m : Message) : Prop :=
  ∀ info ∈ m.product, ∃ clss ∈ x.accepted, clss.contains re info = some true

instance (re : RegexEngine) (x : Session) (m : Message) : Decidable (x.Vetted re m) :=
  inferInstanceAs (Decidable (∀ info ∈ m.product, _))

structure Vouched (acl : AclManager) (peer : PeerContext) (re : RegexEngine) (x : Session) : Prop where
  accepted : ∀ clss ∈ x.accepted, ∃ offered, acl.reduceToAcceptable peer offered = some clss
  pending : x.handler.receiver.expectBlkdata = true →
    ∃ clss ∈ x.accepted, clss.contains re x.handler.receiver.pending = some true

theorem onHiyaRequest_accepts (h : UpstreamServerHandler) (opened : Bool) (request : HiyaRequest) :
    ∀ clss ∈ acceptedBy (.hiya (h.onHiyaRequest acl peer opened request).1),
      acl.reduceToAcceptable peer request.offeredClass = some clss := by
  unfold UpstreamServerHandler.onHiyaRequest
  split
  case h_1 => exact fun _ hm => absurd hm not_mem_nil
  case h_2 clss hclss =>
    dsimp only
    split
    case isTrue => exact fun _ hm => absurd hm not_mem_nil
    case isFalse =>
      intro clss' hm
      have hcode : ∀ code, code = ReplyStatus.OK ∨ code = ReplyStatus.RECLASS →
          clss' ∈ acceptedBy (.hiya ⟨code, 16384, clss⟩) → clss' = clss := fun code hok hm => by
        rw [acceptedBy, if_pos hok] at hm
        exact mem_singleton.1 hm
      rw [hclss, hcode _ (by split <;> simp) hm]

theorem wlp_withStatus_accepts {α : Type} {make : α → Handler} {m : Prog ProductQueue (Int × α)} {q : ProductQueue}
    {R : ProdClass → Prop} : wlp (Handler.withStatus make m) (fun res _ => ∀ clss ∈ acceptedBy res.1, R clss) q :=
  Handler.wlp_withStatus.2 (wlp_true.mono fun _ _ _ _ hm => absurd hm not_mem_nil)

theorem onMessage_accepts (h : Handler) (m : Message) (opened mapped : Bool) (q : ProductQueue) :
    wlp (h.onMessage D acl peer opened mapped m) (fun res _ => ∀ clss ∈ acceptedBy res.1,
      ∃ offered, acl.reduceToAcceptable peer offered = some clss) q := by
  cases h with
  | upstream h =>
    cases m with
    | hiya request => exact wlp_pure.2 fun clss hm => ⟨_, onHiyaRequest_accepts h opened request clss hm⟩
    | feedMe =>
      rw [Handler.onMessage, wlp_bind, wlp_ofOption]
      exact fun _ _ => wlp_pure.2 fun _ hm => absurd hm not_mem_nil
    | hereIs | comingSoon | blkData => exact wlp_withStatus_accepts
  | downstream h =>
    cases m with
    | hiya | feedMe => exact wlp_pure.2 fun _ hm => absurd hm not_mem_nil
    | hereIs | comingSoon | blkData => exact wlp_withStatus_accepts

theorem Call.spec (hi : x.Inv D (AllSmall peer Q P) st) (hv : Vouched acl peer re x)
    (hP : ∀ x m mapped, P x m mapped → x.Vetted re m) (h : Call D acl peer P x y) : Vouched acl peer re y ∧
      ∃ new, y.stored = x.stored ++ new ∧ (∀ info ∈ new, MayPush acl peer re x.accepted info) ∧
        ∀ p ∈ y.queue.ix.times, p ∈ x.queue.ix.times ∨
          ∃ info ∈ new, readBytes y.queue.ix.env.disk p.2 (header info).length = header info := by
  obtain @⟨m, opened, mapped, reply, h', q', hp, hvalid, hrun⟩ := h
  have hhandled := (Handler.onMessage_spec hi.holds hi.receiver hvalid opened mapped).of_returned hrun
  have haccepts := (onMessage_accepts x.handler m opened mapped x.queue).of_returned hrun
  obtain ⟨st', hr⟩ := hhandled.received
  -- a product that is brought or announced is one of an accepted class, and so is one that is expected
  have hproduct : ∀ info, m.product.map peer.received = some info → ∃ clss ∈ x.accepted,
    clss.contains re info = some true := by
    intro info he
    obtain ⟨info', hm, rfl⟩ := Option.map_eq_some_iff.1 he
    obtain ⟨clss, hmem, hc⟩ := hP _ _ _ hp info' hm
    exact ⟨clss, hmem, (clss.contains_received info').trans hc⟩
  have hpush : ∀ info, (∃ clss ∈ x.accepted, clss.contains re info = some true) →
    MayPush acl peer re x.accepted info := by
    rintro info ⟨clss, hmem, hc⟩
    obtain ⟨offered, hoff⟩ := hv.accepted clss hmem
    exact ⟨AclManager.acceptable_rule hoff hc, clss, hmem, hc⟩
  refine ⟨⟨fun clss hm => ?_, fun he => ?_⟩, _, rfl, fun info hm => hpush info ?_, fun p hp => ?_⟩
  · rcases mem_append.1 hm with hm | hm
    · exact hv.accepted clss hm
    · exact haccepts clss hm
  · have hclss : ∃ clss ∈ x.accepted, clss.contains re h'.receiver.pending = some true := by
      rcases hhandled.pending he with hnew | ⟨hexp, hsame⟩
      · exact hproduct _ hnew
      · rw [hsame]
        exact hv.pending hexp
    obtain ⟨clss, hmem, hc⟩ := hclss
    exact ⟨clss, mem_append_left _ hmem, hc⟩
  · rcases Handler.stores_spec (Option.mem_toList.1 hm) with hnew | ⟨hexp, rfl⟩
    · exact hproduct _ hnew
    · exact hv.pending hexp
  · refine (hr.fresh p hp).imp_right fun ⟨pg, hlive, hoff, hnew⟩ => ⟨pg.info, ?_, ?_⟩
    · rw [hnew]
      exact mem_singleton.2 rfl
    · obtain ⟨⟨g, hk⟩, -⟩ := hr.holds
      rw [← hoff]
      exact (hk.books.pages _ (Store.mem_pages_of_live hlive)).header

theorem Reached.vouched (hP : ∀ x m mapped, P x m mapped → x.Vetted re m) (h : Reached D acl peer Q P x) :
    Vouched acl peer re x := by
  induction h with
  | @start h a hnew ha =>
    refine ⟨fun _ hm => absurd hm not_mem_nil, fun he => ?_⟩
    rw [show h.receiver = {} from hnew] at he
    cases he
  | step hx hstep ih =>
    cases hstep with
    | call hc =>
      obtain ⟨st, hi⟩ := hx.inv
      exact (Call.spec hi ih hP hc).1
    | other => exact ⟨ih.accepted, ih.pending⟩

/-- **Authorisation of pushed products**, in every session whose peer brings only products of the classes that were
accepted: whatever a message stores, the peer may push, and nothing else gets a time. -/
theorem push_authorised (D : DataSection) (acl : AclManager) (peer : PeerContext) (re : RegexEngine)
    (Q : QueueOp → Prop) {x y : Session} (h : Reached D acl peer Q (fun x m _ => x.Vetted re m) x)
    (hc : Call D acl peer (fun x m _ => x.Vetted re m) x y) :
    ∃ new, y.stored = x.stored ++ new ∧ (∀ info ∈ new, MayPush acl peer re x.accepted info) ∧
      ∀ p ∈ y.queue.ix.times, p ∈ x.queue.ix.times ∨
        ∃ info ∈ new, readBytes y.queue.ix.env.disk p.2 (header info).length = header info := by
  obtain ⟨st, hi⟩ := h.inv
  exact (Call.spec hi (h.vouched fun _ _ _ => id) (fun _ _ _ => id) hc).2

def noRegex : RegexEngine := ⟨fun _ => false, fun _ _ => false⟩

def feedInfo : ProdInfo := { shortInfo with feedtype := 1 }

/-- A product is pushed after a `HIYA`. -/
theorem push_authorised_hiya : ∃ x y, Reached smallSection anyRules somePeer (fun _ => True)
      (fun x m _ => x.Vetted noRegex m) x ∧
    Call smallSection anyRules somePeer (fun x m _ => x.Vetted noRegex m) x y ∧
    y.queue.ix.times.length = 1 ∧ x.queue.ix.times = [] ∧
    ∃ new, y.stored = x.stored ++ new ∧ (∀ info ∈ new, MayPush anyRules somePeer noRegex x.accepted info) ∧
      ∀ p ∈ y.queue.ix.times, p ∈ x.queue.ix.times ∨
        ∃ info ∈ new, readBytes y.queue.ix.env.disk p.2 (header info).length = header info := by
  obtain ⟨x, hreach, hnone, ⟨reply, h'⟩, q', hcall, hone⟩ : ∃ x, Reached smallSection anyRules somePeer (fun _ => True)
      (fun x m _ => x.Vetted noRegex m) x ∧ x.queue.ix.times = [] ∧
      ∃ res q', (x.handler.onMessage smallSection anyRules somePeer true true (.blkData (Signature.fill 1) [1, 2, 3, 4])
        x.queue).returned = some (res, q') ∧ q'.ix.times.length = 1 := by
    apply exists_messages [.hiya ⟨anyClass⟩, .comingSoon feedInfo]
    decide +kernel
  have hv : (Message.blkData (Signature.fill 1) [1, 2, 3, 4]).Valid := trivial
  have hc : Call smallSection anyRules somePeer (fun x m _ => x.Vetted noRegex m) x _ :=
    .mk (fun _ hm => by cases hm) hv hcall
  exact ⟨x, _, hreach, hc, hone, hnone, push_authorised _ _ _ _ _ hreach hc⟩

def allowRules : AclManager := ⟨[⟨0xffffffff, [], ⟨matchAll, true⟩, none⟩], [], fun _ _ => some true⟩

/-- A peer for which there is only an `ALLOW` rule pushes a product without a `HIYA`. -/
theorem push_unchecked : allowRules.isHostOk somePeer = true ∧ allowRules.acceptRules = [] ∧ ∃ y,
    Reached smallSection allowRules somePeer (fun _ => True) (fun _ _ _ => True) y ∧ y.accepted = [] ∧
      y.stored = [somePeer.received feedInfo] ∧ y.queue.ix.times.length = 1 := by
  refine ⟨rfl, rfl, ?_⟩
  apply exists_messages [.hereIs feedInfo [1, 2, 3, 4]]
  decide +kernel

end Session

end Rdm
