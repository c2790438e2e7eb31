import Rdm.Core.ServiceHandlers

/-!
# Streaming

After a `FEEDME` that was answered with `OK`, `StreamProducts` reads the queue in a loop. What it sends passes both the
class and the filter.
-/

namespace Rdm

open ProgLogic ProgLogic.Prog

/-! ## The loop -/

def QueueCursor.nextOf (D : DataSection) (re : RegexEngine) (clss : ProdClass) (mapped : Bool) (cursor : Timestamp) :
    Prog ProductQueue Stepped := do
  let res ← QueueCursor.next D false (fun _ => true) mapped cursor
  match res.delivery with
  | none => return res
  | some d =>
    let contained ← ofOption (clss.contains re d.info)
    return if contained then res else { res with delivery := none }

def UpstreamServerHandler.processStreamProduct (re : RegexEngine) (info : ProdInfo)
    (h : UpstreamServerHandler) : Bool :=
  h.upFilter.all fun filt => filt.isMatch re info

/-- What the outside answers in one turn of the loop. -/
structure Turn where
  mapped : Bool
  sendStatus : Int
  flushStatus : Int
  isDone : Bool
  now : Int
  interval : Int

/-- The state of the loop, and what has been sent. -/
structure Stream where
  queue : ProductQueue
  cursor : Timestamp
  flushNeeded : Bool := false
  lastSendTime : Int
  sent : List ProdInfo := []
  result : Option Int := none

namespace Stream

def atEnd (t : Turn) (x : Stream) : Stream :=
  if x.flushNeeded then
    if t.isDone then { x with result := some 0 }
    else if t.flushStatus ≠ 0 then { x with result := some (-1) }
    else
      let x := { x with flushNeeded := false, lastSendTime := t.now }
      if t.interval ≤ t.now - x.lastSendTime then { x with flushNeeded := true } else x
  else if t.interval ≤ t.now - x.lastSendTime then { x with flushNeeded := true }
  else if t.isDone then { x with result := some 0 }
  else x

def afterNext (re : RegexEngine) (h : UpstreamServerHandler) (t : Turn) (res : Stepped) (q' : ProductQueue)
    (x : Stream) : Stream :=
  let sending := res.delivery.filter fun d => h.processStreamProduct re d.info
  let x := { x with queue := q', cursor := res.cursor, sent := x.sent ++ (sending.map Delivery.info).toList }
  if 0 < res.status then x
  else if res.status = PqStatus.end.toInt then x.atEnd t
  else if res.status < 0 then { x with result := some (-1) }
  else if sending.isSome ∧ t.sendStatus ≠ 0 then { x with result := some (-1) }
  else { x with flushNeeded := true, lastSendTime := t.now }

/-- **The states of a stream** for the handler `h`; other clients work on the queue between the turns of the loop. -/
inductive Reached (D : DataSection) (re : RegexEngine) (Q : QueueOp → Prop) (h : UpstreamServerHandler) : Stream → Prop
  | start {a : Audit} {cursor : Timestamp} {now : Int} : Rdm.Reached D Q a →
    Reached D re Q h ⟨a.queue, cursor, false, now, [], none⟩
  | turn {x : Stream} {t : Turn} {res : Stepped} {q' : ProductQueue} : Reached D re Q h x → x.result = none →
      (QueueCursor.nextOf D re h.activeSub t.mapped x.cursor x.queue).returned = some (res, q') →
      Reached D re Q h (x.afterNext re h t res q')
  | other {x : Stream} {op : QueueOp} {res : Stepped} {q' : ProductQueue} : Reached D re Q h x → Q op →
    op.Valid x.queue →
      (op.run D x.queue).returned = some (res, q') → Reached D re Q h { x with queue := q' }

end Stream

/-! ## What is sent -/

variable {D : DataSection} {re : RegexEngine} {acl : AclManager} {peer : PeerContext} {Q : QueueOp → Prop}
  {h h' : UpstreamServerHandler} {info : ProdInfo}

theorem QueueCursor.nextOf_contains (clss : ProdClass) (mapped : Bool) (cursor : Timestamp) (q : ProductQueue) :
    wlp (QueueCursor.nextOf D re clss mapped cursor) (fun res _ => ∀ d, res.delivery = some d →
      clss.contains re d.info = some true) q := by
  rw [nextOf, wlp_bind]
  refine wlp_true.mono fun res q' _ => ?_
  cases hd : res.delivery with
  | none =>
    refine wlp_pure.2 fun d he => ?_
    rw [hd] at he
    cases he
  | some d =>
    rw [wlp_bind, wlp_ofOption]
    intro contained hc
    refine wlp_pure.2 fun d' he => ?_
    cases contained with
    | true =>
      rw [if_pos rfl, hd] at he
      cases he
      exact hc
    | false => cases he

theorem Stream.afterNext_sent {x : Stream} {t : Turn} {res : Stepped} {q' : ProductQueue} :
    (x.afterNext re h t res q').sent =
      x.sent ++ ((res.delivery.filter fun d => h.processStreamProduct re d.info).map Delivery.info).toList := by
  unfold afterNext
  dsimp only
  split
  · rfl
  split
  · unfold atEnd
    dsimp only
    repeat' split
    all_goals rfl
  repeat' split
  all_goals rfl

/-- **Everything that is sent** is of the class and passes the filter. -/
theorem Stream.Reached.sent {x : Stream} (hx : Stream.Reached D re Q h x) : ∀ info ∈ x.sent,
    h.activeSub.contains re info = some true ∧ h.processStreamProduct re info = true := by
  induction hx with
  | start => exact fun _ hm => absurd hm List.not_mem_nil
  | @turn x t res q' hx _ hrun ih =>
    intro info hm
    rw [afterNext_sent] at hm
    rcases List.mem_append.1 hm with hm | hm
    · exact ih info hm
    · obtain ⟨d, hd, rfl⟩ := Option.map_eq_some_iff.1 (Option.mem_toList.1 hm)
      obtain ⟨hdel, hpass⟩ := Option.filter_eq_some_iff.1 hd
      exact ⟨(QueueCursor.nextOf_contains _ _ _ _).of_returned hrun d hdel, hpass⟩
  | other _ _ _ _ ih => exact ih

/-! ## Authorisation -/

structure Streamable (acl : AclManager) (peer : PeerContext) (re : RegexEngine) (want reduced : ProdClass)
    (info : ProdInfo) : Prop where
  range : (⟨reduced.fromSec, reduced.fromUsec⟩ : Timestamp) ≤ info.arrival ∧
    info.arrival ≤ ⟨reduced.toSec, reduced.toUsec⟩
  spec : ∃ spec ∈ reduced.specs, info.feedtype &&& spec.feedtype ≠ 0 ∧ spec.Matches re info.ident
  rule : ∃ rule ∈ acl.allowRules, acl.isHostMatch peer rule.hostPattern = true ∧ ∃ spec ∈ want.specs,
    rule.feedtype &&& spec.feedtype &&& info.feedtype ≠ 0 ∧ rule.okPattern.isMatch re info.ident = true ∧
      ∀ p ∈ rule.notPattern, p.isMatch re info.ident = false

theorem ProdClass.inRange_iff (clss : ProdClass) : clss.InRange info ↔
    (⟨clss.fromSec, clss.fromUsec⟩ : Timestamp) ≤ info.arrival ∧ info.arrival ≤ ⟨clss.toSec, clss.toUsec⟩ := by
  rw [InRange, Timestamp.le_iff, Timestamp.le_iff]
  dsimp only
  omega

theorem UpstreamServerHandler.onFeedRequest_ok {addProcess : ProdClass → Int × ProdClass} {pid : UInt32}
    {request : FeedRequest} {response : FeedResponse}
    (hfeed : h.onFeedRequest acl peer addProcess pid request = some (response, h'))
      (hok : response.statusCode = ReplyStatus.OK) :
    acl.reduceToAllowed peer request.requestedClass = some h'.activeSub ∧ addProcess h'.activeSub = (0, h'.activeSub) ∧
      ∃ filt, acl.getUpstreamFilter peer request.requestedClass = some (some filt) ∧ h'.upFilter = some filt := by
  unfold onFeedRequest at hfeed
  split at hfeed
  case h_1 => cases hfeed
  case h_2 upFilter hfilter =>
    dsimp only at hfeed
    cases upFilter with
    | none =>
      cases hfeed
      cases hok
    | some filt =>
      rw [if_neg (by simp)] at hfeed
      split at hfeed
      case h_1 =>
        cases hfeed
        cases hok
      case h_2 cleanAllowSub hclean =>
        -- the table of processes must answer with the class itself
        split at hfeed
        · cases hfeed
          cases hok
        next hzero =>
        split at hfeed
        · cases hfeed
          cases hok
        · next hsame =>
          cases hfeed
          have hsame : cleanAllowSub = (addProcess cleanAllowSub).2 := Decidable.not_not.1 hsame
          refine ⟨hclean.trans (congrArg some hsame), ?_, filt, hfilter, rfl⟩
          show addProcess (addProcess cleanAllowSub).2 = _
          rw [← hsame]
          exact Prod.ext (Decidable.not_not.1 hzero) hsame.symm

/-- **Authorisation of what is streamed**: after a request that was answered with `OK`, every product that is sent is
one that the peer may get. -/
theorem streaming_authorised (D : DataSection) (re : RegexEngine) (acl : AclManager) (peer : PeerContext)
    (Q : QueueOp → Prop)
    {addProcess : ProdClass → Int × ProdClass} {pid : UInt32} {request : FeedRequest} {response : FeedResponse}
    {h h' : UpstreamServerHandler} (hfeed : h.onFeedRequest acl peer addProcess pid request = some (response, h'))
    (hok : response.statusCode = ReplyStatus.OK) {x : Stream} (hx : Stream.Reached D re Q h' x) :
    ∃ reduced, acl.reduceToAllowed peer request.requestedClass = some reduced ∧
      ∀ info ∈ x.sent, Streamable acl peer re request.requestedClass reduced info := by
  obtain ⟨hreduced, -, filt, hfilter, hup⟩ := UpstreamServerHandler.onFeedRequest_ok hfeed hok
  refine ⟨h'.activeSub, hreduced, fun info hm => ?_⟩
  obtain ⟨hcontains, hpass⟩ := hx.sent info hm
  obtain ⟨hrange, hspec⟩ := ProdClass.contains_spec hcontains
  rw [UpstreamServerHandler.processStreamProduct, hup] at hpass
  obtain ⟨elt, helt, hft, hokPattern, hnot⟩ := UpFilter.isMatch_spec hpass
  obtain ⟨rule, hrule, hhost, spec, hmem, rfl⟩ := AclManager.getUpstreamFilter_origin hfilter elt helt
  exact ⟨(ProdClass.inRange_iff _).1 hrange, hspec (AclManager.reduceTo_spec hreduced).2,
    rule, hrule, hhost, spec, hmem, hft, hokPattern, hnot⟩

def feedRules : AclManager := ⟨[⟨1, [], ⟨matchAll, true⟩, none⟩], [], fun _ _ => some true⟩

def feedWanted : FeedRequest := ⟨false, 0, { toSec := 31536000, specs := [⟨3, []⟩] }⟩

def feedOps : List QueueOp := [.newElement { sampleInfo 1 with feedtype := 1 } true, .commit 0]

def blindEngine : RegexEngine := ⟨fun _ => false, fun _ _ => false⟩

def smoothTurn : Turn := ⟨true, 0, 0, false, 1, 30⟩

/-- The product is sent. -/
theorem streaming_authorised_one : ∃ response h' x,
    UpstreamServerHandler.onFeedRequest feedRules ⟨[97], [98]⟩ (fun clss => (0, clss)) 7 feedWanted {} =
    some (response, h') ∧ response.statusCode = ReplyStatus.OK ∧
    Stream.Reached QueueIndexManager.smallSection blindEngine (fun _ => True) h' x ∧ x.sent.length = 1 ∧
    ∃ reduced, feedRules.reduceToAllowed ⟨[97], [98]⟩ feedWanted.requestedClass = some reduced ∧
      ∀ info ∈ x.sent, Streamable feedRules ⟨[97], [98]⟩ blindEngine feedWanted.requestedClass reduced info := by
  obtain ⟨response, h', hfeed, hok, a, ha, res, q', hnext, hone⟩ : ∃ response h',
      UpstreamServerHandler.onFeedRequest feedRules ⟨[97], [98]⟩ (fun clss => (0, clss)) 7 feedWanted {} =
      some (response, h') ∧
      response.statusCode = ReplyStatus.OK ∧ ∃ a, computedRun QueueIndexManager.smallSection tick feedOps = some a ∧
      ∃ res q', (QueueCursor.nextOf QueueIndexManager.smallSection blindEngine h'.activeSub true Timestamp.ZERO
        a.queue).returned = some (res, q') ∧ (Stream.afterNext blindEngine h' smoothTurn res q'
          ⟨a.queue, Timestamp.ZERO, false, 0, [], none⟩).sent.length = 1 := by
    decide +kernel
  have hreach : Stream.Reached QueueIndexManager.smallSection blindEngine (fun _ => True)
    h' (Stream.afterNext blindEngine h'
      smoothTurn res q' ⟨a.queue, Timestamp.ZERO, false, 0, [], none⟩) :=
    .turn (.start (computedRun_reached (fun _ _ => trivial) ha)) rfl hnext
  exact ⟨response, h', _, hfeed, hok, hreach, hone, streaming_authorised _ _ _ _ _ hfeed hok hreach⟩

end Rdm
