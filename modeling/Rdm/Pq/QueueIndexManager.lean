import Rdm.Pq.FreeBlockInit
import Rdm.Pq.RegionList
import Rdm.Pq.SignatureIndex
import Rdm.Pq.TimeQueue

/-!
# The index of the queue

`rdm::QueueIndexManager` keeps the region list, the time queue and the signature index in step, and deletes the oldest
products when there is no room. The callbacks may change things outside the index, of type `ω`.
-/

namespace Rdm

open ProgLogic ProgLogic.Prog

/-- The callbacks of the index operations: `decodeFunc` returns a status and the metadata, `mvrtFunc` sees the region
list as it is after the deletion. -/
structure Callbacks (ω : Type) where
  decode : Int → Nat → ω → (Int × ProdInfo) × ω
  mvrt : Timestamp → ProdInfo → RegionList → ω → ω

/-- `rdm::QueueIndexManager` with the structures it manages, the fields of the control header that it reads or writes,
and the callers' own state. -/
structure QueueIndexManager (ω : Type) where
  rl : RegionList
  tq : TimeQueue
  fb : FreeBlock
  sx : SignatureIndex
  align : Nat
  isFull : Bool
  smallestExtentSeen : Nat
  env : ω

namespace QueueIndexManager

variable {ω α : Type}

def onRl (m : Prog RlFb α) : Prog (QueueIndexManager ω) α :=
  zoom (fun s => ⟨s.rl, s.fb⟩) (fun t s => { s with rl := t.rl, fb := t.fb }) m

def onTq (m : Prog TqFb α) : Prog (QueueIndexManager ω) α :=
  zoom (fun s => ⟨s.tq, s.fb⟩) (fun t s => { s with tq := t.tq, fb := t.fb }) m

def onSx (m : Prog SignatureIndex α) : Prog (QueueIndexManager ω) α := zoom (·.sx) (fun sx s => { s with sx := sx }) m

def onEnv (f : ω → α × ω) : Prog (QueueIndexManager ω) α := zoom (·.env) (fun env s => { s with env := env }) (call f)

def formatNew (nalloc : Nat) (dataOffset indexOffset : Int) : Prog (QueueIndexManager ω) Int := do
  zoom (·.fb) (fun fb s => { s with fb := fb }) (FreeBlock.initialise nalloc)
  onTq (TimeQueue.initialise nalloc)
  onRl (RegionList.initialise nalloc)
  let initialExtent := (indexOffset - dataOffset).toNat
  let root ← onRl (RegionList.add dataOffset initialExtent)
  match root with
  | none => return ENOMEM
  | some _ =>
    onRl (RegionList.modRl fun rl => { rl with maxfextent := initialExtent })
    onSx (SignatureIndex.initialise nalloc)
    return 0

def clear : Prog (QueueIndexManager ω) Unit := modify fun s => { s with smallestExtentSeen := 2 ^ 64 - 1 }

/-! ## Deleting products -/

def tryDeleteProduct (cb : Callbacks ω) (tqep rlix : Nat) : Prog (QueueIndexManager ω) (Int × ProdInfo) := do
  let s ← read
  let rep := s.rl.rp rlix
  if rep.offset ≠ (s.tq.tqep tqep).offset then return (PqStatus.corrupt.toInt, {})
  else
    let (status, info) ← onEnv (cb.decode rep.offset rep.getExtent)
    if status ≠ 0 then return (status, info)
    else
      let removed ← onSx (SignatureIndex.remove info.signature)
      if removed = false then return (PqStatus.corrupt.toInt, info)
      else
        onTq (TimeQueue.delete tqep)
        onRl (RegionList.free rlix)
        return (0, info)

def deleteOldestFrom (cb : Callbacks ω) : Nat → Nat → Int → Prog (QueueIndexManager ω) Int
  | 0, _, _ => ofOption none
  | fuel + 1, tqep, status => do
    let s ← read
    let rlix ← onRl (RegionList.find (s.tq.tqep tqep).offset)
    if rlix = RL_NONE then return status
    else
      let insertionTime := (s.tq.tqep tqep).tv
      let (status, info) ← tryDeleteProduct cb tqep rlix
      if status = 0 then
        modify fun s => { s with isFull := true }
        let s ← read
        onEnv fun env => ((), cb.mvrt insertionTime info s.rl env)
        return 0
      else if status ≠ EACCES then return status
      else
        let s ← read
        deleteOldestFrom cb fuel (TimeQueue.next ⟨s.tq, s.fb⟩ tqep) status

def deleteOldest (cb : Callbacks ω) : Prog (QueueIndexManager ω) Int := do
  let s ← read
  match TimeQueue.first ⟨s.tq, s.fb⟩ with
  | none => return EACCES
  | some tqep => deleteOldestFrom cb (s.tq.nalloc + 1) tqep EACCES

def makeSpaceFrom (cb : Callbacks ω) (extent : Nat) : Nat → Prog (QueueIndexManager ω) (Except Int Nat)
  | 0 => ofOption none
  | fuel + 1 => do
    let s ← read
    if s.rl.nelems = 0 then return .error ENOMEM
    else
      let status ← deleteOldest cb
      if status ≠ 0 then return .error status
      else
        let rlix ← onRl (RegionList.get extent)
        if rlix = RL_NONE then makeSpaceFrom cb extent fuel else return .ok rlix

def makeSpace (cb : Callbacks ω) (extent : Nat) : Prog (QueueIndexManager ω) (Except Int Nat) := do
  let s ← read
  makeSpaceFrom cb extent (s.rl.nelems + 1)

def makeSlotFrom (cb : Callbacks ω) : Nat → Prog (QueueIndexManager ω) Int
  | 0 => ofOption none
  | fuel + 1 => do
    let s ← read
    if s.rl.nelems = 0 then return ENOMEM
    else
      let status ← deleteOldest cb
      if status ≠ 0 then return status
      else
        let s ← read
        if s.rl.hasSpace = false then makeSlotFrom cb fuel else return 0

def makeSlot (cb : Callbacks ω) : Prog (QueueIndexManager ω) Int := do
  let s ← read
  makeSlotFrom cb (s.rl.nelems + 1)

def freeByOffset (offset : Int) (sig : Signature) : Prog (QueueIndexManager ω) Int := do
  let rlix ← onRl (RegionList.find offset)
  if rlix = RL_NONE then return EINVAL
  else
    let s ← read
    if (s.rl.rp rlix).isFree then return EINVAL
    else
      let removed ← onSx (SignatureIndex.remove sig)
      if removed = false then return EINVAL
      else
        onRl (RegionList.free rlix)
        return 0

/-! ## Allocating -/

def ensureSlot (cb : Callbacks ω) : Prog (QueueIndexManager ω) Int := do
  let s ← read
  if s.rl.hasSpace = false then makeSlot cb else return 0

def takeRegion (cb : Callbacks ω) (extent : Nat) : Prog (QueueIndexManager ω) (Except Int Nat) := do
  let rlix ← onRl (RegionList.get extent)
  if rlix = RL_NONE then makeSpace cb extent else return .ok rlix

def trimRegion (rlix extent : Nat) : Prog (QueueIndexManager ω) Int := do
  let s ← read
  if sizeAdd (sizeAdd extent s.smallestExtentSeen) 64 < (s.rl.rp rlix).getExtent then
    let status ← onRl (RegionList.split rlix extent)
    if status ≠ 0 then
      onRl (RegionList.put rlix)
      return status
    else return 0
  else return 0

def allocateRegion (cb : Callbacks ω) (extent : Nat) (sig : Signature) : Prog (QueueIndexManager ω)
    (Except Int Nat) := do
  let dup ← onSx (SignatureIndex.find sig)
  if dup.isSome then return .error PqStatus.dup.toInt
  else
    let status ← ensureSlot cb
    if status ≠ 0 then return .error status
    else
      let s ← read
      let extent := roundUp extent s.align
      modify fun s => { s with smallestExtentSeen := min extent s.smallestExtentSeen }
      match ← takeRegion cb extent with
      | .error status => return .error status
      | .ok rlix =>
        let status ← trimRegion rlix extent
        if status ≠ 0 then return .error status
        else
          onRl (RegionList.setAllocated rlix)
          return .ok rlix

def allocateProductSpace (cb : Callbacks ω) (extent : Nat) (sig : Signature) :
    Prog (QueueIndexManager ω) (Except Int (Int × Nat)) := do
  match ← allocateRegion cb extent sig with
  | .error status => return .error status
  | .ok rlix =>
    let s ← read
    let sxep ← onSx (SignatureIndex.add sig (s.rl.rp rlix).offset)
    match sxep with
    | none =>
      onRl do
        RegionList.removeFromHash rlix
        RegionList.modRl fun rl => RegionList.setRegion rl rlix (rl.rp rlix).clearAlloc
        RegionList.put rlix
      return .error ENOMEM
    | some _ => return .ok ((s.rl.rp rlix).offset, (s.rl.rp rlix).getExtent)

/-! ## Looking up the time of a product -/

def seekOffset (tq : TqFb) (offset : Int) : Nat → Nat → Prog (QueueIndexManager ω) (Except Int Nat)
  | 0, _ => ofOption none
  | fuel + 1, tqep =>
    if (tq.tq.tqep tqep).offset = -1 then return .error PqStatus.notFound.toInt
    else if (tq.tq.tqep tqep).offset = offset then return .ok tqep
    else seekOffset tq offset fuel (TimeQueue.next tq tqep)

def searchStart (searchTime : Timestamp) : Prog TqFb (Option Nat) := do
  match ← TimeQueue.find searchTime .lessThan with
  | some timeEntry => return some timeEntry
  | none =>
    match ← TimeQueue.find searchTime .equal with
    | some timeEntry => return some timeEntry
    | none => TimeQueue.find searchTime .greaterThan

def findTimeEntryBySignature (cb : Callbacks ω) (interval : Nat) (sig : Signature) :
    Prog (QueueIndexManager ω) (Except Int Nat) := do
  let s ← read
  match ← onSx (SignatureIndex.find sig) with
  | none => return .error PqStatus.notFound.toInt
  | some signatureEntry =>
    let offset := (s.sx.sxep signatureEntry).offset
    let rlix ← onRl (RegionList.find offset)
    if rlix = RL_NONE then return .error PqStatus.corrupt.toInt
    else
      let rp := s.rl.rp rlix
      let (status, info) ← onEnv (cb.decode rp.offset rp.getExtent)
      if status ≠ 0 then return .error PqStatus.corrupt.toInt
      else
        let searchTime : Timestamp := ⟨info.arrival.sec - interval, info.arrival.usec⟩
        match ← onTq (searchStart searchTime) with
        | none => return .error PqStatus.corrupt.toInt
        | some timeEntry => seekOffset ⟨s.tq, s.fb⟩ offset (s.tq.nalloc + 2) timeEntry

end QueueIndexManager

end Rdm
