import Rdm.Core.AclManager
import Rdm.Pq.Consistency

/-!
# Receiving products

A product comes in one message (HEREIS) or announced and in blocks (COMINGSOON, then BLKDATA), for which the handlers
keep the entry, a pointer into its payload and the number of bytes to come.
-/

namespace Rdm

open ProgLogic ProgLogic.Prog Xdr SunRpcSerializer

/-! ## Queue entries -/

/-- `rdm::QueueEntry`: with its region, committed, or without its region because it was given up. -/
inductive QueueEntry where
  | held (r : Reservation)
  | committed
  | released
deriving DecidableEq

namespace QueueEntry

def commit : QueueEntry → Prog ProductQueue (Int × QueueEntry)
  | .held r => do
    let q ← read
    let status ← ProductQueue.commit (q.reserved.idxOf r)
    return (status, if status = 0 then .committed else .released)
  | .committed => return (0, .committed)
  | .released => return (EINVAL, .released)

def rollback : QueueEntry → Prog ProductQueue QueueEntry
  | .held r => do
    let q ← read
    let _ ← ProductQueue.rollback (q.reserved.idxOf r)
    return .released
  | .committed => return .committed
  | .released => return .released

end QueueEntry

/-! ## Origins -/

namespace Network

def beforeSeparator : List UInt8 → List UInt8
  | [] => []
  | 95 :: 118 :: 95 :: _ => []
  | c :: rest => c :: beforeSeparator rest

def appendUpstreamHostToOrigin (originalOrigin hostId : List UInt8) : List UInt8 :=
  (beforeSeparator originalOrigin ++ [95, 118, 95] ++ hostId).take 63

end Network

def PeerContext.received (peer : PeerContext) (info : ProdInfo) : ProdInfo :=
  { info with origin := Network.appendUpstreamHostToOrigin info.origin (peer.hostname.takeWhile (· ≠ 0)) }

/-! ## The state of a transfer -/

/-- `expectBlkdata_`, `pendingProd_`, `activeQueueEntry_`, `blkMmapPointer_` and `remaining_`. -/
structure Receiver where
  expectBlkdata : Bool := false
  pending : ProdInfo := {}
  entry : Option QueueEntry := none
  blkMmapPointer : Option Int := none
  remaining : Nat := 0
deriving DecidableEq

namespace Receiver

def rollback (s : Receiver) : Prog ProductQueue Receiver :=
  match s.entry with
  | none => return s
  | some e => do
    let e ← e.rollback
    return { s with entry := some e }

def interrupt (s : Receiver) : Prog ProductQueue Receiver :=
  if s.expectBlkdata then do
    let s ← s.rollback
    return { s with expectBlkdata := false }
  else return s

def comingSoon (D : DataSection) (mapped : Bool) (info : ProdInfo) (s : Receiver) : Prog ProductQueue
    (Int × Receiver) := do
  let s ← s.interrupt
  let s := { s with pending := info }
  let status ← ProductQueue.newElement D info mapped
  if status ≠ 0 then return (status, s)
  else
    let q ← read
    match q.reserved.getLast? with
    | none => return (status, s)
    | some r =>
      let s ← s.rollback
      return (status, { s with
        entry := some (.held r)
        blkMmapPointer := some r.payload
        expectBlkdata := true
        remaining := info.sz.toNat })

def Accepts (s : Receiver) (signature : Signature) (data : List UInt8) : Prop :=
  s.expectBlkdata = true ∧ s.pending.signature = signature ∧ data.length ≤ s.remaining

instance (s : Receiver) (signature : Signature) (data : List UInt8) : Decidable (s.Accepts signature data) :=
  inferInstanceAs (Decidable (_ ∧ _ ∧ _))

def offset (s : Receiver) : Nat := s.pending.sz.toNat - s.remaining

def memcpy (pointer : Option Int) (offset : Nat) (data : List UInt8) : Prog ProductQueue Unit := do
  assert (pointer ≠ none)
  modify fun q => { q with ix := ProductQueue.setDisk (writeBytes q.ix.env.disk (pointer.getD 0 + offset) data) q.ix }

def finish (s : Receiver) : Prog ProductQueue (Int × Receiver) := do
  let res ← (s.entry.getD .released).commit
  let s := { s with expectBlkdata := false, entry := some res.2, blkMmapPointer := none }
  if res.1 ≠ 0 then
    let s ← s.rollback
    return (res.1, s)
  else return (res.1, s)

def blkData (signature : Signature) (data : List UInt8) (s : Receiver) : Prog ProductQueue (Int × Receiver) :=
  if s.expectBlkdata = false then return (0, s)
  else if s.Accepts signature data then do
    memcpy s.blkMmapPointer s.offset data
    let s := { s with remaining := s.remaining - data.length }
    if s.remaining = 0 then s.finish else return (0, s)
  else do
    let s ← s.rollback
    return (EINVAL, { s with expectBlkdata := false })

end Receiver

end Rdm
