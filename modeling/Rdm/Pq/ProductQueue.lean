import Rdm.Network.Serializer
import Rdm.Pq.QueueIndexManager
import Rdm.Pq.RegionShape

/-!
# The product queue

A product is reserved (`newElement`), its payload is written, and it is committed or rolled back. Every operation on the
index runs under the control lock, so the queue is a sequence of atomic steps.
-/

namespace Rdm

open ProgLogic ProgLogic.Prog Xdr SunRpcSerializer

/-- The part of the control header that `rdm::QueueMetrics` keeps. -/
structure Metrics where
  highwater : Int
  maxproducts : Nat
  mostRecent : Timestamp
  minVirtResTime : Timestamp
  mvrtSize : Int
  mvrtSlots : Nat
deriving DecidableEq

/-- The surroundings of the index. `clock` are the readings of the system clock and `grants` the answers to requests to
map a region, in the order they are asked for. -/
structure World where
  disk : Memory
  clock : Nat → Timestamp
  readings : Nat
  grants : Nat → Bool
  requests : Nat
  metrics : Metrics

def World.now (w : World) : Timestamp × World := (w.clock w.readings, { w with readings := w.readings + 1 })

def World.getRegionNoWait (w : World) : Bool × World := (w.grants w.requests, { w with requests := w.requests + 1 })

/-! ## Metrics -/

namespace QueueMetrics

def trackMvrt (creationTime receptionTime : Timestamp) (rl : RegionList) (w : World) : World :=
  let creatPtr := if receptionTime < creationTime then receptionTime else creationTime
  let (now, w) := w.now
  if creatPtr < now then
    let virtResTime := now.sub creatPtr
    let currentMin := w.metrics.minVirtResTime
    if currentMin = Timestamp.NONE ∨ virtResTime < currentMin then
      { w with metrics := { w.metrics with
        minVirtResTime := virtResTime
        mvrtSize := rl.nbytes
        mvrtSlots := rl.nelems } }
    else w
  else w

def markMostRecent (w : World) : World :=
  let (now, w) := w.now
  { w with metrics := { w.metrics with mostRecent := now } }

def clearMvrt (w : World) : World :=
  { w with metrics := { w.metrics with minVirtResTime := Timestamp.NONE, mvrtSize := -1, mvrtSlots := 0 } }

def trackAllocation (datao offset : Int) (allocatedExtent : Nat) (s : QueueIndexManager World) :
    QueueIndexManager World :=
  let m := s.env.metrics
  let nbytes := sizeAdd s.rl.nbytes allocatedExtent
  { s with
    rl := { s.rl with nbytes := nbytes, maxbytes := max nbytes s.rl.maxbytes }
    env := { s.env with metrics := { m with
      highwater := max (offset + allocatedExtent - datao) m.highwater
      maxproducts := max s.rl.nelems m.maxproducts } } }

end QueueMetrics

/-! ## Reserving, committing and rolling back -/

/-- A `QueueEntry` that is neither committed nor rolled back. `info` is what the client asked for. -/
structure Reservation where
  offset : Int
  signature : Signature
  extent : Nat
  payload : Int
  info : ProdInfo
deriving DecidableEq

/-- `rdm::ProductQueue` with the entries that its clients hold. -/
structure ProductQueue where
  ix : QueueIndexManager World
  reserved : List Reservation

namespace ProductQueue

variable {α : Type}

def decodeFunc (offset : Int) (extent : Nat) (w : World) : (Int × ProdInfo) × World :=
  let (granted, w) := w.getRegionNoWait
  let result := if granted = false then (EACCES, {})
    else
      match decodeProdInfo w.disk offset extent with
      | none => (PqStatus.corrupt.toInt, {})
      | some (info, _) => (0, info)
  (result, w)

def mvrtFunc (receptionTime : Timestamp) (info : ProdInfo) (rl : RegionList) (w : World) : World :=
  QueueMetrics.trackMvrt info.arrival receptionTime rl w

def callbacks : Callbacks World := ⟨decodeFunc, mvrtFunc⟩

def locked (m : Prog (QueueIndexManager World) α) : Prog ProductQueue α :=
  zoom (·.ix) (fun ix q => { q with ix := ix }) do
    let a ← m
    QueueIndexManager.clear
    return a

def create (D : DataSection) (nproducts : Nat) : Prog ProductQueue Int :=
  locked (QueueIndexManager.formatNew nproducts D.datao D.ixo)

def setDisk (disk : Memory) (s : QueueIndexManager World) : QueueIndexManager World :=
  { s with env := { s.env with disk := disk } }

def reserve (D : DataSection) (info : ProdInfo) (mapped : Bool) :
    Prog (QueueIndexManager World) (Except Int Reservation) := do
  let extent := getEncodedSize info
  match ← QueueIndexManager.allocateProductSpace callbacks extent info.signature with
  | .error status => return .error status
  | .ok (offset, allocatedExtent) =>
    modify (QueueMetrics.trackAllocation D.datao offset allocatedExtent)
    if mapped = false then return .error ENOMEM
    else
      let s ← read
      let (payloadPtr, disk) := encodeProdInfo s.env.disk offset extent info
      modify (setDisk disk)
      match payloadPtr with
      | none => return .error EIO
      | some payload => return .ok ⟨offset, info.signature, allocatedExtent, payload, info⟩

def newElement (D : DataSection) (info : ProdInfo) (mapped : Bool) : Prog ProductQueue Int := do
  if info.sz.toNat = 0 then return EINVAL
  else if D.size < info.sz.toNat then return PqStatus.big.toInt
  else
    match ← locked (reserve D info mapped) with
    | .error status => return status
    | .ok r =>
      modify fun q => { q with reserved := q.reserved ++ [r] }
      return 0

def reserveDirect (D : DataSection) (size : Nat) (signature : Signature) (mapped : Bool) :
    Prog (QueueIndexManager World) (Except Int Reservation) := do
  match ← QueueIndexManager.allocateProductSpace callbacks size signature with
  | .error status => return .error status
  | .ok (offset, allocatedExtent) =>
    modify (QueueMetrics.trackAllocation D.datao offset allocatedExtent)
    if mapped = false then
      let _ ← QueueIndexManager.freeByOffset offset signature
      return .error ENOMEM
    else return .ok ⟨offset, signature, allocatedExtent, 0, { signature := signature }⟩

def newElementDirect (D : DataSection) (size : Nat) (signature : Signature) (mapped : Bool) :
    Prog ProductQueue Int := do
  if D.size < size then return PqStatus.big.toInt
  else
    match ← locked (reserveDirect D size signature mapped) with
    | .error status => return status
    | .ok r =>
      modify fun q => { q with reserved := q.reserved ++ [r] }
      return 0

def rollbackEntry (r : Reservation) : Prog ProductQueue Int :=
    locked (QueueIndexManager.freeByOffset r.offset r.signature)

def enterTime (offset : Int) : Prog (QueueIndexManager World) Int := do
  let now ← QueueIndexManager.onEnv World.now
  let status ← QueueIndexManager.onTq (TimeQueue.add now offset)
  if status ≠ 0 then return PqStatus.system.toInt
  else
    QueueIndexManager.onEnv fun w => ((), QueueMetrics.markMostRecent w)
    return 0

def tryCommit (r : Reservation) : Prog ProductQueue Int := do
  let q ← read
  match decodeProdInfo q.ix.env.disk r.offset r.extent with
  | none => return PqStatus.corrupt.toInt
  | some (info, _) =>
    if r.extent < getEncodedInfoSize info then return PqStatus.big.toInt else locked (enterTime r.offset)

def commitEntry (r : Reservation) : Prog ProductQueue Int := do
  let status ← tryCommit r
  if status ≠ 0 then
    let _ ← rollbackEntry r
    return status
  else return 0

def takeEntry (i : Nat) : Prog ProductQueue (Option Reservation) := do
  let q ← read
  match q.reserved[i]? with
  | none => return none
  | some r =>
    modify fun q => { q with reserved := q.reserved.eraseIdx i }
    return some r

def commit (i : Nat) : Prog ProductQueue Int := do
  match ← takeEntry i with
  | none => return EINVAL
  | some r => commitEntry r

def rollback (i : Nat) : Prog ProductQueue Int := do
  match ← takeEntry i with
  | none => return 0
  | some r => rollbackEntry r

def writePayload (i pos : Nat) (bytes : List UInt8) : Prog ProductQueue Int := do
  let q ← read
  match q.reserved[i]? with
  | none => return EINVAL
  | some r =>
    modify fun q => { q with ix := setDisk (writeBytes q.ix.env.disk (r.payload + pos) bytes) q.ix }
    return 0

def encodeEntry (i : Nat) (data : List UInt8) : Prog ProductQueue Int := do
  let q ← read
  match q.reserved[i]? with
  | none => return EINVAL
  | some r =>
    let (ok, disk) := encodeProduct q.ix.env.disk r.offset r.extent r.info data
    modify fun q => { q with ix := setDisk disk q.ix }
    return if ok then 0 else EIO

def insert (D : DataSection) (info : ProdInfo) (data : List UInt8) (mapped : Bool) : Prog ProductQueue Int := do
  let status ← newElement D info mapped
  if status ≠ 0 then return status
  else
    let q ← read
    let i := q.reserved.length - 1
    let status ← encodeEntry i data
    if status = 0 then commit i
    else
      let _ ← rollback i
      return EIO

/-! ## Deleting -/

def decodeRegion (rlix : Nat) (lockedStatus corruptStatus : Int) : Prog (QueueIndexManager World)
    (Except Int ProdInfo) := do
  let s ← read
  let granted ← QueueIndexManager.onEnv World.getRegionNoWait
  if granted = false then return .error lockedStatus
  else
    match decodeProdInfo s.env.disk (s.rl.rp rlix).offset (s.rl.rp rlix).getExtent with
    | none => return .error corruptStatus
    | some (info, _) => return .ok info

def deleteBySignature (interval : Nat) (signature : Signature) : Prog ProductQueue Int := locked do
  match ← QueueIndexManager.findTimeEntryBySignature callbacks interval signature with
  | .error status => return status
  | .ok timeEntry =>
    let s ← read
    let rlix ← QueueIndexManager.onRl (RegionList.find (s.tq.tqep timeEntry).offset)
    match ← decodeRegion rlix PqStatus.locked.toInt PqStatus.corrupt.toInt with
    | .error status => return status
    | .ok info =>
      let _ ← QueueIndexManager.onSx (SignatureIndex.remove info.signature)
      QueueIndexManager.onTq (TimeQueue.delete timeEntry)
      QueueIndexManager.onRl (RegionList.free rlix)
      return 0

end ProductQueue

end Rdm
