import Rdm.Core.ProdClass
import Rdm.Pq.ProductQueue

/-!
# Cursors

A reader remembers only the insertion time of the product it saw last and searches the time queue again at every step.
-/

namespace Rdm

open ProgLogic ProgLogic.Prog SunRpcSerializer

/-- What `next` hands to its callback: `prod_par_t` and `queue_par_t`. -/
structure Delivery where
  info : ProdInfo
  data : Int
  size : Nat
  inserted : Timestamp
  offset : Int
  isFull : Bool
  earlyCursor : Bool
deriving DecidableEq

structure Stepped where
  status : Int
  cursor : Timestamp
  delivery : Option Delivery
deriving DecidableEq

namespace QueueCursor

def cset (tv : Timestamp) : Prog (QueueIndexManager World) Unit := assert (0 ≤ tv.sec ∧ 0 ≤ tv.usec)

structure Placed where
  status : Int
  cursor : Timestamp
  direction : Option Match
deriving DecidableEq

def fromTime (clss : ProdClass) : Timestamp := ⟨clss.fromSec, clss.fromUsec⟩

def toTime (clss : ProdClass) : Timestamp := ⟨clss.toSec, clss.toUsec⟩

def placeAt (time : Timestamp) (otherway direction : Match) : Prog ProductQueue Placed := ProductQueue.locked do
  let s ← read
  match ← QueueIndexManager.onTq (TimeQueue.find time otherway) with
  | none => return ⟨0, time, some direction⟩
  | some tqep => return ⟨0, (s.tq.tqep tqep).tv, some direction⟩

def setCursorClass (clss : ProdClass) (cursor : Timestamp) : Prog ProductQueue Placed := do
  if clss.specs = [] ∨ fromTime clss = Timestamp.NONE ∨ toTime clss = Timestamp.NONE then return ⟨EINVAL, cursor, none⟩
  else
    zoom (·.ix) (fun ix q => { q with ix := ix }) (cset (fromTime clss))
    if toTime clss < fromTime clss then
      if fromTime clss = Timestamp.ENDT then return ⟨0, fromTime clss, some .lessThan⟩
      else placeAt (fromTime clss) .greaterThan .lessThan
    else if fromTime clss = Timestamp.ZERO then return ⟨0, fromTime clss, some .greaterThan⟩
    else placeAt (fromTime clss) .lessThan .greaterThan

def readFunc (mapped : Bool) (offset : Int) (extent : Nat) (w : World) : (Int × ProdInfo) × World :=
  let result := if mapped = false then (EACCES, {})
    else
      match decodeProdInfo w.disk offset extent with
      | none => (PqStatus.corrupt.toInt, {})
      | some (info, _) => (0, info)
  (result, w)

def setCursorFromSignature (interval : Nat) (signature : Signature) (mapped : Bool) (cursor : Timestamp) :
    Prog ProductQueue (Int × Timestamp) := ProductQueue.locked do
  let found ← QueueIndexManager.findTimeEntryBySignature ⟨readFunc mapped, ProductQueue.mvrtFunc⟩ interval signature
  match found with
  | .error status => return (status, cursor)
  | .ok timeEntry =>
    let s ← read
    return (0, (s.tq.tqep timeEntry).tv)

def reportedSize (extent metaSz sz : Nat) : Nat :=
  let xsz := roundUp sz 4
  if xsz < metaSz + sz then sizeSub extent (metaSz + sz - xsz) else extent

def nextLocked (D : DataSection) (reverse : Bool) (contains : ProdInfo → Bool) (mapped : Bool) (cursor : Timestamp) :
    Prog (QueueIndexManager World) Stepped := do
  let s ← read
  match ← QueueIndexManager.onTq (TimeQueue.find cursor (if reverse then .lessThan else .greaterThan)) with
  | none => return ⟨PqStatus.end.toInt, cursor, none⟩
  | some tqep =>
    let e := s.tq.tqep tqep
    let oldest := match TimeQueue.first ⟨s.tq, s.fb⟩ with
      | none => Timestamp.NONE
      | some firstElem => (s.tq.tqep firstElem).tv
    let earlyCursor := decide (cursor ≤ oldest)
    cset e.tv
    let rlix ← QueueIndexManager.onRl (RegionList.find e.offset)
    let rp := s.rl.rp rlix
    if rlix = RL_NONE ∨ rp.offset ≠ e.offset ∨ D.size < rp.getExtent then return ⟨0, e.tv, none⟩
    else if mapped = false then return ⟨PqStatus.system.toInt, e.tv, none⟩
    else
      match decodeProdInfo s.env.disk rp.offset rp.getExtent with
      | none => return ⟨PqStatus.system.toInt, e.tv, none⟩
      | some (info, nextPtr) =>
        if contains info then
          let size := reportedSize rp.getExtent (nextPtr - rp.offset).toNat info.sz.toNat
          return ⟨0, e.tv, some ⟨info, nextPtr, size, e.tv, rp.offset, s.isFull, earlyCursor⟩⟩
        else return ⟨0, e.tv, none⟩

def next (D : DataSection) (reverse : Bool) (contains : ProdInfo → Bool) (mapped : Bool) (cursor : Timestamp) :
    Prog ProductQueue Stepped :=
  let cursor := if cursor = Timestamp.NONE then (if reverse then Timestamp.ENDT else Timestamp.ZERO) else cursor
  ProductQueue.locked (nextLocked D reverse contains mapped cursor)

def sequenceLocked (mt : Match) (contains : ProdInfo → Bool) (ifMatch : Option (Delivery → Int)) (mapped : Bool)
    (cursor : Timestamp) : Prog (QueueIndexManager World) Stepped := do
  let s ← read
  match ← QueueIndexManager.onTq (TimeQueue.find cursor mt) with
  | none => return ⟨PqStatus.end.toInt, cursor, none⟩
  | some tqep =>
    let e := s.tq.tqep tqep
    cset e.tv
    match ifMatch with
    | none => return ⟨0, e.tv, none⟩
    | some callback =>
      let rlix ← QueueIndexManager.onRl (RegionList.find e.offset)
      let rp := s.rl.rp rlix
      if rlix = RL_NONE then return ⟨0, e.tv, none⟩
      else if mapped = false then return ⟨PqStatus.system.toInt, e.tv, none⟩
      else
        match decodeProdInfo s.env.disk rp.offset rp.getExtent with
        | none => return ⟨PqStatus.system.toInt, e.tv, none⟩
        | some (info, _) =>
          if contains info then
            let data := rp.offset + getEncodedInfoSize info
            let delivery : Delivery := ⟨info, data, rp.getExtent, e.tv, rp.offset, s.isFull, false⟩
            let status := callback delivery
            let cursor := if status ≠ 0 ∧ mt = .greaterThan then e.tv.decrementMicrosecond else e.tv
            return ⟨status, cursor, some delivery⟩
          else return ⟨0, e.tv, none⟩

def sequence (mt : Match) (contains : ProdInfo → Bool) (ifMatch : Option (Delivery → Int)) (mapped : Bool)
    (cursor : Timestamp) : Prog ProductQueue Stepped := do
  assert (cursor = Timestamp.NONE → mt ≠ .equal)
  let start := if mt = .lessThan then Timestamp.ENDT else Timestamp.ZERO
  ProductQueue.locked (sequenceLocked mt contains ifMatch mapped (if cursor = Timestamp.NONE then start else cursor))

structure ToLast where
  status : Int
  cursor : Timestamp
  outTimestamp : Timestamp
deriving DecidableEq

def searchLast (contains : ProdInfo → Bool) (outTimestamp : Timestamp) : Nat → (Nat → Bool) → Timestamp → Timestamp →
    Prog ProductQueue ToLast
  | 0, _, _, _ => ofOption none
  | fuel + 1, mapped, legacyOut, cursor => do
    let res ← sequence .lessThan contains (some fun _ => PqStatus.end.toInt) (mapped 0) cursor
    let legacyOut := (res.delivery.map (·.info.arrival)).getD legacyOut
    if res.status = 0 then
      if res.cursor.sec < legacyOut.sec then return ⟨res.status, res.cursor, legacyOut⟩
      else searchLast contains outTimestamp fuel (fun n => mapped (n + 1)) legacyOut res.cursor
    else
      let status := if res.status = PqStatus.end.toInt then 0 else res.status
      let cursor := if res.cursor = Timestamp.ENDT then Timestamp.NONE else res.cursor
      return ⟨status, cursor, outTimestamp⟩

def setCursorToLast (contains : ProdInfo → Bool) (toTs : Timestamp) (mapped : Nat → Bool) (outTimestamp : Timestamp) :
    Prog ProductQueue ToLast := do
  zoom (·.ix) (fun ix q => { q with ix := ix }) (cset toTs)
  let q ← read
  searchLast contains outTimestamp (q.ix.tq.nalloc + 1) mapped Timestamp.ZERO toTs

def sequenceDeleteLocked (mt : Match) (contains : ProdInfo → Bool) (cursor : Timestamp) :
    Prog (QueueIndexManager World) Stepped := do
  let s ← read
  match ← QueueIndexManager.onTq (TimeQueue.find cursor mt) with
  | none => return ⟨PqStatus.end.toInt, cursor, none⟩
  | some tqep =>
    let e := s.tq.tqep tqep
    let rlix ← QueueIndexManager.onRl (RegionList.find e.offset)
    assert (rlix ≠ RL_NONE)
    match ← ProductQueue.decodeRegion rlix EACCES EIO with
    | .error status =>
      if status = EACCES then return ⟨status, cursor, none⟩
      else
        cset e.tv
        return ⟨status, e.tv, none⟩
    | .ok info =>
      cset e.tv
      if contains info then
        QueueIndexManager.onTq (TimeQueue.delete tqep)
        let _ ← QueueIndexManager.onSx (SignatureIndex.remove info.signature)
        QueueIndexManager.onRl (RegionList.free rlix)
        return ⟨0, e.tv, none⟩
      else return ⟨0, e.tv, none⟩

def sequenceDelete (mt : Match) (contains : ProdInfo → Bool) (cursor : Timestamp) : Prog ProductQueue Stepped :=
  let start := if mt = .lessThan then Timestamp.ENDT else Timestamp.ZERO
  ProductQueue.locked (sequenceDeleteLocked mt contains (if cursor = Timestamp.NONE then start else cursor))

end QueueCursor

end Rdm
