import Rdm.Core.ReceiverSpec

/-!
# Service handlers

`rdm::UpstreamServerHandler` is the end of a session at a server, `rdm::DownstreamClientHandler` at a client. Both
receive products alike; the client also reports what became of one.
-/

namespace Rdm

open ProgLogic ProgLogic.Prog

/-! ## The server -/

structure UpstreamServerHandler where
  queueOpen : Bool := false
  upFilter : Option UpFilter := none
  activeSub : ProdClass := {}
  isNotifier : Bool := false
  isPrimary : Bool := false
  receiver : Receiver := {}

namespace UpstreamServerHandler

def ensureQueueOpen (opened : Bool) (h : UpstreamServerHandler) : UpstreamServerHandler :=
  { h with queueOpen := h.queueOpen || opened }

def onHereIs (D : DataSection) (peer : PeerContext) (opened mapped : Bool) (info : ProdInfo) (data : List UInt8)
    (h : UpstreamServerHandler) : Prog ProductQueue (Int × UpstreamServerHandler) :=
  let h := h.ensureQueueOpen opened
  if h.queueOpen = false then return (PqStatus.system.toInt, h)
  else do
    let error ← ProductQueue.insert D (peer.received info) data mapped
    return (error, h)

def onComingSoon (D : DataSection) (peer : PeerContext) (opened mapped : Bool) (info : ProdInfo)
    (h : UpstreamServerHandler) : Prog ProductQueue (Int × UpstreamServerHandler) :=
  let h := h.ensureQueueOpen opened
  if h.queueOpen = false then return (PqStatus.system.toInt, h)
  else do
    let res ← h.receiver.comingSoon D mapped (peer.received info)
    return (res.1, { h with receiver := res.2 })

def onBlkData (signature : Signature) (data : List UInt8) (h : UpstreamServerHandler) :
    Prog ProductQueue (Int × UpstreamServerHandler) :=
  if h.queueOpen = false then return (0, h)
  else do
    let res ← h.receiver.blkData signature data
    return (res.1, { h with receiver := res.2 })

def onHiyaRequest (acl : AclManager) (peer : PeerContext) (opened : Bool) (request : HiyaRequest)
    (h : UpstreamServerHandler) : HiyaResponse × UpstreamServerHandler :=
  match acl.reduceToAcceptable peer request.offeredClass with
  | none => (⟨ReplyStatus.DONT_SEND, 0, {}⟩, h)
  | some acceptableClass =>
    let h := h.ensureQueueOpen opened
    if h.queueOpen = false then (⟨ReplyStatus.SYSTEM_ERROR, 0, {}⟩, h)
    else
      let statusCode := if request.offeredClass = acceptableClass then ReplyStatus.OK else ReplyStatus.RECLASS
      -- the entry of a transfer that is under way stays as it is
      (⟨statusCode, 16384, acceptableClass⟩,
        { h with activeSub := acceptableClass, receiver := { h.receiver with expectBlkdata := false } })

def onFeedRequest (acl : AclManager) (peer : PeerContext) (addProcess : ProdClass → Int × ProdClass) (pid : UInt32)
    (request : FeedRequest) (h : UpstreamServerHandler) : Option (FeedResponse × UpstreamServerHandler) :=
  match acl.getUpstreamFilter peer request.requestedClass with
  | none => none
  | some upFilter =>
    let isPrimary := decide ((2 ^ 32 - 1) / 2 < request.maxHereis.toNat)
    let h := { h with isNotifier := request.isNotifier, isPrimary := isPrimary, upFilter := upFilter }
    if upFilter.isNone then some (⟨ReplyStatus.DONT_SEND, 0, {}⟩, h)
    else
      match acl.reduceToAllowed peer request.requestedClass with
      | none => some (⟨ReplyStatus.BAD_PATTERN, 0, {}⟩, h)
      | some cleanAllowSub =>
        let (status, uldbSub) := addProcess cleanAllowSub
        if status ≠ 0 then some (⟨ReplyStatus.DONT_SEND, 0, {}⟩, h)
        else if cleanAllowSub ≠ uldbSub then
          some (⟨ReplyStatus.RECLASS, 0, if uldbSub.specs = [] then {} else uldbSub⟩, h)
        else some (⟨ReplyStatus.OK, pid, {}⟩, { h with activeSub := uldbSub })

end UpstreamServerHandler

/-! ## The client -/

/-- `hasQueue` says that `pq_` is not null. The calls of `stateCallback_` and `notifyReaders` are recorded. -/
structure DownstreamClientHandler where
  hasQueue : Bool
  receiver : Receiver := {}
  updates : List (ProdInfo × Int) := []
  notified : Nat := 0

namespace DownstreamClientHandler

def refused (info : ProdInfo) (status : Int) (h : DownstreamClientHandler) : DownstreamClientHandler :=
  if status = PqStatus.dup.toInt ∨
    status = PqStatus.big.toInt then { h with updates := h.updates ++ [(info, 0)] } else h

def settled (info : ProdInfo) (error : Int) (h : DownstreamClientHandler) : DownstreamClientHandler :=
  if error = 0 then { h with notified := h.notified + 1, updates := h.updates ++ [(info, 1)] } else h.refused info error

def onHereIs (D : DataSection) (peer : PeerContext) (mapped : Bool) (info : ProdInfo) (data : List UInt8)
    (h : DownstreamClientHandler) : Prog ProductQueue (Int × DownstreamClientHandler) :=
  if h.hasQueue = false then return (PqStatus.system.toInt, h)
  else do
    let error ← ProductQueue.insert D (peer.received info) data mapped
    return (error, h.settled (peer.received info) error)

def onComingSoon (D : DataSection) (peer : PeerContext) (mapped : Bool) (info : ProdInfo)
    (h : DownstreamClientHandler) : Prog ProductQueue (Int × DownstreamClientHandler) :=
  if h.hasQueue = false then return (PqStatus.system.toInt, h)
  else do
    let res ← h.receiver.comingSoon D mapped (peer.received info)
    return (res.1, { h.refused (peer.received info) res.1 with receiver := res.2 })

def onBlkData (signature : Signature) (data : List UInt8) (h : DownstreamClientHandler) :
    Prog ProductQueue (Int × DownstreamClientHandler) :=
  if h.hasQueue = false then return (0, h)
  else do
    let res ← h.receiver.blkData signature data
    let done := h.receiver.Accepts signature data ∧ data.length = h.receiver.remaining
    return (res.1, { (if done then h.settled h.receiver.pending res.1 else h) with receiver := res.2 })

end DownstreamClientHandler

/-! ## Messages -/

/-- A handler of either kind. -/
inductive Handler where
  | upstream (h : UpstreamServerHandler)
  | downstream (h : DownstreamClientHandler)

/-- What a peer sends. A request for a feed comes with the answer of the table of processes to it. -/
inductive Message where
  | hiya (request : HiyaRequest)
  | feedMe (request : FeedRequest) (addProcess : ProdClass → Int × ProdClass) (pid : UInt32)
  | hereIs (info : ProdInfo) (data : List UInt8)
  | comingSoon (info : ProdInfo)
  | blkData (signature : Signature) (data : List UInt8)

/-- What a handler answers. -/
inductive Reply where
  | status (code : Int)
  | hiya (response : HiyaResponse)
  | feed (response : FeedResponse)
deriving DecidableEq

namespace Handler

def receiver : Handler → Receiver
  | .upstream h => h.receiver
  | .downstream h => h.receiver

def isOpen : Handler → Bool
  | .upstream h => h.queueOpen
  | .downstream h => h.hasQueue

def Accepts (h : Handler) (signature : Signature) (data : List UInt8) : Prop :=
  h.isOpen = true ∧ h.receiver.Accepts signature data

instance (h : Handler) (signature : Signature) (data : List UInt8) : Decidable (h.Accepts signature data) :=
  inferInstanceAs (Decidable (_ ∧ _))

def IsNew (h : Handler) : Prop := h.receiver = {}

instance (h : Handler) : Decidable h.IsNew := inferInstanceAs (Decidable (h.receiver = {}))

def withStatus {α : Type} (make : α → Handler) (m : Prog ProductQueue (Int × α)) : Prog ProductQueue
    (Reply × Handler) := do
  let res ← m
  return (.status res.1, make res.2)

def onMessage (D : DataSection) (acl : AclManager) (peer : PeerContext) (opened mapped : Bool) :
    Handler → Message → Prog ProductQueue (Reply × Handler)
  | .upstream h, .hiya request => do
    let res := h.onHiyaRequest acl peer opened request
    return (.hiya res.1, .upstream res.2)
  | .upstream h, .feedMe request addProcess pid => do
    let res ← ofOption (h.onFeedRequest acl peer addProcess pid request)
    return (.feed res.1, .upstream res.2)
  | .upstream h, .hereIs info data => withStatus .upstream (h.onHereIs D peer opened mapped info data)
  | .upstream h, .comingSoon info => withStatus .upstream (h.onComingSoon D peer opened mapped info)
  | .upstream h, .blkData signature data => withStatus .upstream (h.onBlkData signature data)
  | .downstream h, .hiya _ => return (.hiya ⟨ReplyStatus.DONT_SEND, 0, {}⟩, .downstream h)
  | .downstream h, .feedMe _ _ _ => return (.feed ⟨ReplyStatus.DONT_SEND, 0, {}⟩, .downstream h)
  | .downstream h, .hereIs info data => withStatus .downstream (h.onHereIs D peer mapped info data)
  | .downstream h, .comingSoon info => withStatus .downstream (h.onComingSoon D peer mapped info)
  | .downstream h, .blkData signature data => withStatus .downstream (h.onBlkData signature data)

end Handler

end Rdm
