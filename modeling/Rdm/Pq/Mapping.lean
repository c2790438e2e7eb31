import Rdm.Pq.IndexFrame
import Rdm.Pq.NoMapControl
import Rdm.Pq.QueueRuns

/-!
# The mapping strategies

A `RegionManager` maps the whole file, each region with the pages around it, or (`NoMap`) copies a region. Here is
`rdm::ProductQueue` with the strategy as a parameter.
-/

namespace Rdm

open ProgLogic ProgLogic.Prog Xdr SunRpcSerializer
open QueueIndexManager (onRl onTq onSx onEnv)

/-! ## Mappers -/

inductive RegionMapper where
  | flatMmap
  | chunkedMmap (pagesz : Nat)
  | file

/-- Where the bytes of a region are: in a shared mapping of the file from `start` on, `rem` bytes behind its beginning,
or in a buffer. -/
inductive RegionPtr where
  | shared (start rem : Int)
  | buffer (bytes : Memory)

def copyRange (src dst : Memory) (offset : Int) (extent : Nat) : Memory := fun b =>
  if offset ≤ b ∧ b < offset + extent then src b else dst b

def RegionMapper.fetch (disk : Memory) (offset : Int) (extent : Nat) : RegionMapper → RegionPtr
  | .flatMmap => .shared 0 offset
  | .chunkedMmap pagesz =>
    let rem := offset % pagesz
    .shared (offset - rem) rem
  | .file => .buffer (copyRange disk (fun _ => 0) offset extent)

structure MappedRegion where
  offset : Int
  extent : Nat
  rflags : RegionFlags
  ptr : RegionPtr

namespace MappedRegion

def get (region : MappedRegion) : Int :=
  match region.ptr with
  | .shared start rem => start + rem
  | .buffer _ => region.offset

def memory (region : MappedRegion) (disk : Memory) : Memory :=
  match region.ptr with
  | .shared _ _ => disk
  | .buffer bytes => bytes

def store (region : MappedRegion) (mem disk : Memory) : MappedRegion × Memory :=
  match region.ptr with
  | .shared _ _ => (region, mem)
  | .buffer _ => ({ region with ptr := .buffer mem }, disk)

def commit (region : MappedRegion) (disk : Memory) : Memory :=
  match region.ptr with
  | .shared _ _ => disk
  | .buffer bytes => if region.rflags.write then copyRange bytes disk region.offset region.extent else disk

end MappedRegion

namespace RegionMapper

def getRegion (mapper : RegionMapper) (disk : Memory) (offset : Int) (extent : Nat) (rflags : RegionFlags) :
    MappedRegion :=
  ⟨offset, extent, rflags, mapper.fetch disk offset extent⟩

def writeNoWait : RegionFlags := { write := true, noWait := true }

def decodeFunc (mapper : RegionMapper) (active : List Int) (offset : Int) (extent : Nat) (w : World) :
    (Int × ProdInfo) × World :=
  if offset ∈ active then ((EACCES, {}), w)
  else
    let (granted, w) := w.getRegionNoWait
    if granted = false then ((EACCES, {}), w)
    else
      let region := mapper.getRegion w.disk offset extent writeNoWait
      let result := match decodeProdInfo (region.memory w.disk) region.get extent with
        | none => (PqStatus.corrupt.toInt, {})
        | some (info, _) => (0, info)
      (result, { w with disk := region.commit w.disk })

def callbacks (mapper : RegionMapper) (active : List Int) : Callbacks World :=
  ⟨mapper.decodeFunc active, ProductQueue.mvrtFunc⟩

def withRegion {α : Type} (mapper : RegionMapper) (active : List Int) (rlix : Nat) (refused : α)
    (m : Option ProdInfo → Prog (QueueIndexManager World) α) : Prog (QueueIndexManager World) α := do
  let s ← read
  let offset := (s.rl.rp rlix).offset
  let extent := (s.rl.rp rlix).getExtent
  if offset ∈ active then return refused
  else
    let granted ← onEnv World.getRegionNoWait
    if granted = false then return refused
    else
      let region := mapper.getRegion s.env.disk offset extent writeNoWait
      let a ← m ((decodeProdInfo (region.memory s.env.disk) region.get extent).map Prod.fst)
      modify fun s => ProductQueue.setDisk (region.commit s.env.disk) s
      return a

end RegionMapper

/-! ## The queue -/

/-- The geometry of the file at the path of the queue and of the file that is open; the count of writers and the
version. -/
structure FileHead where
  file : Option DataSection
  opened : Option DataSection
  writers : ControlHeader
  version : UInt64

/-- A queue file and the handle on it. The index has the rest of the control header and the bytes of the products;
`entries` are the entries in progress. -/
structure MappedQueue where
  head : FileHead
  ix : QueueIndexManager World
  entries : List (Reservation × MappedRegion)

namespace MappedQueue

variable {α : Type}

def active (x : MappedQueue) : List Int := x.entries.map fun e => e.1.offset

def setDisk (disk : Memory) (x : MappedQueue) : MappedQueue := { x with ix := ProductQueue.setDisk disk x.ix }

def released (mapper : RegionMapper) (rflags : RegionFlags) (after before : MappedQueue) : MappedQueue :=
  match mapper with
  | .file =>
    if rflags.write then after
    else { after with
      head := before.head
      ix := { before.ix with env := { after.ix.env with metrics := before.ix.env.metrics } } }
  | _ => after

def controlLock (mapper : RegionMapper) (rflags : RegionFlags) (m : Prog MappedQueue α) : Prog MappedQueue α :=
  zoom id (released mapper rflags) m

def locked (mapper : RegionMapper) (rflags : RegionFlags) (m : Prog (QueueIndexManager World) α) : Prog MappedQueue α :=
  controlLock mapper rflags (zoom (·.ix) (fun ix x => { x with ix := ix }) do
    let a ← m
    QueueIndexManager.clear
    return a)

def write : RegionFlags := { write := true }

/-! ## Entries -/

def reserve (mapper : RegionMapper) (active : List Int) (D : DataSection) (info : ProdInfo) (mapped : Bool) :
    Prog (QueueIndexManager World) (Except Int (Reservation × MappedRegion)) := do
  let extent := getEncodedSize info
  match ← QueueIndexManager.allocateProductSpace (mapper.callbacks active) extent info.signature with
  | .error status => return .error status
  | .ok (offset, allocatedExtent) =>
    modify (QueueMetrics.trackAllocation D.datao offset allocatedExtent)
    if mapped = false then return .error ENOMEM
    else
      let s ← read
      let region := mapper.getRegion s.env.disk offset allocatedExtent write
      let (payloadPtr, mem) := encodeProdInfo (region.memory s.env.disk) region.get extent info
      let (region, disk) := region.store mem s.env.disk
      match payloadPtr with
      | none =>
        modify (ProductQueue.setDisk (region.commit disk))
        return .error EIO
      | some payload =>
        modify (ProductQueue.setDisk disk)
        return .ok (⟨offset, info.signature, allocatedExtent, payload, info⟩, region)

def newElement (mapper : RegionMapper) (info : ProdInfo) (mapped : Bool) : Prog MappedQueue Int := do
  let x ← read
  match x.head.opened with
  | none => return EINVAL
  | some D =>
    if info.sz.toNat = 0 then return EINVAL
    else if D.size < info.sz.toNat then return PqStatus.big.toInt
    else
      match ← locked mapper write (reserve mapper x.active D info mapped) with
      | .error status => return status
      | .ok e =>
        modify fun x => { x with entries := x.entries ++ [e] }
        return 0

def storeEntry (i : Nat) (r : Reservation) (region : MappedRegion) (mem : Memory) : Prog MappedQueue Unit :=
    modify fun x =>
  let (region, disk) := region.store mem x.ix.env.disk
  { x.setDisk disk with entries := x.entries.set i (r, region) }

def writePayload (i pos : Nat) (bytes : List UInt8) : Prog MappedQueue Int := do
  let x ← read
  match x.entries[i]? with
  | none => return EINVAL
  | some (r, region) =>
    storeEntry i r region (writeBytes (region.memory x.ix.env.disk) (r.payload + pos) bytes)
    return 0

def encodeEntry (i : Nat) (data : List UInt8) : Prog MappedQueue Int := do
  let x ← read
  match x.entries[i]? with
  | none => return EINVAL
  | some (r, region) =>
    let (ok, mem) := encodeProduct (region.memory x.ix.env.disk) region.get r.extent r.info data
    storeEntry i r region mem
    return if ok then 0 else EIO

def releaseRegion (region : MappedRegion) : Prog MappedQueue Unit :=
    modify fun x => x.setDisk (region.commit x.ix.env.disk)

def rollbackEntry (mapper : RegionMapper) (r : Reservation) (region : Option MappedRegion) : Prog MappedQueue Int := do
  let x ← read
  match x.head.opened with
  | none => return PqStatus.invalid.toInt
  | some _ =>
    match region with
    | none => pure ()
    | some region => releaseRegion region
    locked mapper write (QueueIndexManager.freeByOffset r.offset r.signature)

def commitEntry (mapper : RegionMapper) (r : Reservation) (region : MappedRegion) : Prog MappedQueue Int := do
  let x ← read
  match x.head.opened with
  | none => return PqStatus.invalid.toInt
  | some _ =>
    match decodeProdInfo (region.memory x.ix.env.disk) region.get region.extent with
    | none =>
      let _ ← rollbackEntry mapper r (some region)
      return PqStatus.corrupt.toInt
    | some (info, _) =>
      if region.extent < getEncodedInfoSize info then
        let _ ← rollbackEntry mapper r (some region)
        return PqStatus.big.toInt
      else
        releaseRegion region
        let status ← locked mapper write (ProductQueue.enterTime r.offset)
        if status ≠ 0 then
          let _ ← rollbackEntry mapper r none
          return status
        else return 0

def takeEntry (i : Nat) : Prog MappedQueue (Option (Reservation × MappedRegion)) := do
  let x ← read
  match x.entries[i]? with
  | none => return none
  | some e =>
    modify fun x => { x with entries := x.entries.eraseIdx i }
    return some e

def commit (mapper : RegionMapper) (i : Nat) : Prog MappedQueue Int := do
  match ← takeEntry i with
  | none => return EINVAL
  | some (r, region) => commitEntry mapper r region

def rollback (mapper : RegionMapper) (i : Nat) : Prog MappedQueue Int := do
  match ← takeEntry i with
  | none => return 0
  | some (r, region) => rollbackEntry mapper r (some region)

def insert (mapper : RegionMapper) (info : ProdInfo) (data : List UInt8) (mapped : Bool) : Prog MappedQueue Int := do
  let status ← newElement mapper info mapped
  if status ≠ 0 then return status
  else
    let x ← read
    let i := x.entries.length - 1
    let status ← encodeEntry i data
    if status = 0 then commit mapper i
    else
      let _ ← rollback mapper i
      return EIO

/-! ## Deleting -/

def deleteBySignatureLocked (mapper : RegionMapper) (active : List Int) (interval : Nat) (signature : Signature) :
    Prog (QueueIndexManager World) Int := do
  match ← QueueIndexManager.findTimeEntryBySignature (mapper.callbacks active) interval signature with
  | .error status => return status
  | .ok timeEntry =>
    let s ← read
    let rlix ← onRl (RegionList.find (s.tq.tqep timeEntry).offset)
    mapper.withRegion active rlix PqStatus.locked.toInt fun
      | none => return PqStatus.corrupt.toInt
      | some info => do
        let _ ← onSx (SignatureIndex.remove info.signature)
        onTq (TimeQueue.delete timeEntry)
        onRl (RegionList.free rlix)
        return 0

def deleteBySignature (mapper : RegionMapper) (interval : Nat) (signature : Signature) : Prog MappedQueue Int := do
  let x ← read
  match x.head.opened with
  | none => return PqStatus.invalid.toInt
  | some _ => locked mapper write (deleteBySignatureLocked mapper x.active interval signature)

def sequenceDeleteLocked (mapper : RegionMapper) (active : List Int) (mt : Match) (contains : ProdInfo → Bool)
    (cursor : Timestamp) : Prog (QueueIndexManager World) Stepped := do
  let s ← read
  match ← onTq (TimeQueue.find cursor mt) with
  | none => return ⟨PqStatus.end.toInt, cursor, none⟩
  | some tqep =>
    let e := s.tq.tqep tqep
    let rlix ← onRl (RegionList.find e.offset)
    assert (rlix ≠ RL_NONE)
    mapper.withRegion active rlix ⟨EACCES, cursor, none⟩ fun
      | none => do
        QueueCursor.cset e.tv
        return .mk EIO e.tv none
      | some info => do
        QueueCursor.cset e.tv
        if contains info then
          onTq (TimeQueue.delete tqep)
          let _ ← onSx (SignatureIndex.remove info.signature)
          onRl (RegionList.free rlix)
          return ⟨0, e.tv, none⟩
        else return ⟨0, e.tv, none⟩

def sequenceDelete (mapper : RegionMapper) (mt : Match) (contains : ProdInfo → Bool) (cursor : Timestamp) :
    Prog MappedQueue Stepped := do
  let x ← read
  match x.head.opened with
  | none => return ⟨EINVAL, cursor, none⟩
  | some _ =>
    let start := if mt = .lessThan then Timestamp.ENDT else Timestamp.ZERO
    locked mapper RegionMapper.writeNoWait
      (sequenceDeleteLocked mapper x.active mt contains (if cursor = Timestamp.NONE then start else cursor))

/-! ## The file -/

def ENOENT : Int := 2

def notifyReaders (mapper : RegionMapper) (status : Int) : Prog MappedQueue Int := do
  let x ← read
  match x.head.opened with
  | none => return EINVAL
  | some _ =>
    controlLock mapper { write := true, noLock := true } (modify fun x =>
      { x with head.version := if status = 0 then x.head.version + 1 else x.head.version })
    return status

def close (mapper : RegionMapper) : Prog MappedQueue Int := do
  let x ← read
  match x.head.opened with
  | none => return 0
  | some _ =>
    controlLock mapper write (modify fun x => { x with head.writers := x.head.writers.dropWriter })
    modify fun x => { x with head.opened := none }
    return 0

def «open» (mapper : RegionMapper) : Prog MappedQueue Int := do
  let _ ← close mapper
  let x ← read
  match x.head.file with
  | none => return ENOENT
  | some D =>
    modify fun x => { x with head.opened := some D }
    let status ← controlLock mapper write (call fun x =>
      let (status, writers) := x.head.writers.addWriter
      (status, { x with head.writers := writers }))
    if status ≠ 0 then modify fun x => { x with head.opened := none }
    return status

def zeros (align : Nat) (rand : List Nat) (w : World) : QueueIndexManager World where
  rl := ⟨0, 0, 0, 0, 0, 0, 0, 0, 0, 0, 0, 0, 0, 0, 0, 0, fun _ => ⟨0, 0, 0, 0⟩, fun _ => 0⟩
  tq := ⟨0, 0, 0, 0, 0, fun _ => ⟨⟨0, 0⟩, 0, 0⟩⟩
  fb := ⟨0, 0, 0, 0, fun _ => 0, fun _ => 0, fun _ => 0, rand⟩
  sx := ⟨0, 0, 0, 0, 0, fun _ => ⟨default, 0, 0⟩, fun _ => 0⟩
  align := align
  isFull := false
  smallestExtentSeen := 2 ^ 64 - 1
  env := { w with disk := fun _ => 0 }

def initializeControlHeader (D : DataSection) (x : MappedQueue) : MappedQueue where
  head := ⟨x.head.file, x.head.opened, ControlHeader.initializeControlHeader, 0⟩
  ix := { x.ix with
    align := D.align
    isFull := false
    env := { x.ix.env with metrics := ⟨0, 0, Timestamp.NONE, Timestamp.NONE, -1, 0⟩ } }
  entries := x.entries

def unlink (x : MappedQueue) : MappedQueue := { x with head := { x.head with file := none, opened := none } }

def create (mapper : RegionMapper) (D : DataSection) (nproducts : Nat) (fileStatus growStatus : Int) :
    Prog MappedQueue Int := do
  let _ ← close mapper
  if fileStatus ≠ 0 then return fileStatus
  else if growStatus ≠ 0 then
    modify unlink
    return growStatus
  else
    modify fun x => { x with
      head := { x.head with file := some D, opened := some D }
      ix := zeros D.align x.ix.fb.rand x.ix.env }
    let status ← controlLock mapper RegionMapper.writeNoWait do
      modify (initializeControlHeader D)
      zoom (·.ix) (fun ix x => { x with ix := ix }) do
        let status ← QueueIndexManager.formatNew nproducts D.datao D.ixo
        QueueIndexManager.clear
        return status
    if status ≠ 0 then modify unlink
    return status

end MappedQueue

/-! ## Runs -/

/-- The calls of one process, one after the other. -/
inductive FileOp where
  | create (D : DataSection) (nproducts : Nat) (fileStatus growStatus : Int)
  | open
  | insert (info : ProdInfo) (data : List UInt8) (mapped : Bool)
  | newElement (info : ProdInfo) (mapped : Bool)
  | writePayload (i pos : Nat) (bytes : List UInt8)
  | commit (i : Nat)
  | rollback (i : Nat)
  | deleteBySignature (interval : Nat) (signature : Signature)
  | sequenceDelete (mt : Match) (contains : ProdInfo → Bool) (cursor : Timestamp)
  | notifyReaders (status : Int)
  | close

namespace FileOp

def status (m : Prog MappedQueue Int) : Prog MappedQueue Stepped := do
  let status ← m
  return ⟨status, Timestamp.NONE, none⟩

def run (mapper : RegionMapper) : FileOp → Prog MappedQueue Stepped
  | .create D nproducts fileStatus growStatus => status (MappedQueue.create mapper D nproducts fileStatus growStatus)
  | .open => status (MappedQueue.open mapper)
  | .insert info data mapped => status (MappedQueue.insert mapper info data mapped)
  | .newElement info mapped => status (MappedQueue.newElement mapper info mapped)
  | .writePayload i pos bytes => status (MappedQueue.writePayload i pos bytes)
  | .commit i => status (MappedQueue.commit mapper i)
  | .rollback i => status (MappedQueue.rollback mapper i)
  | .deleteBySignature interval signature => status (MappedQueue.deleteBySignature mapper interval signature)
  | .sequenceDelete mt contains cursor => MappedQueue.sequenceDelete mapper mt contains cursor
  | .notifyReaders n => status (MappedQueue.notifyReaders mapper n)
  | .close => status (MappedQueue.close mapper)

def Valid (x : MappedQueue) : FileOp → Prop
  | .create D _ _ _ => D.align ∣ 16
  | .insert info data _ => info.origin.length + info.ident.length < 2 ^ 62 ∧ data.length = info.sz.toNat
  | .newElement info _ => info.origin.length + info.ident.length < 2 ^ 62
  | .writePayload i pos bytes => ∀ e ∈ x.entries[i]?, pos + bytes.length ≤ e.1.info.sz.toNat
  | _ => True

instance (x : MappedQueue) : DecidablePred (Valid x)
  | .create D _ _ _ => inferInstanceAs (Decidable (D.align ∣ 16))
  | .insert info data _ =>
    inferInstanceAs (Decidable (info.origin.length + info.ident.length < 2 ^ 62 ∧ data.length = info.sz.toNat))
  | .newElement info _ => inferInstanceAs (Decidable (info.origin.length + info.ident.length < 2 ^ 62))
  | .writePayload i pos bytes =>
    inferInstanceAs (Decidable (∀ e ∈ x.entries[i]?, pos + bytes.length ≤ e.1.info.sz.toNat))
  | .open | .commit _ | .rollback _ | .deleteBySignature _ _ | .sequenceDelete _ _ _ | .notifyReaders _ | .close =>
    isTrue trivial

def closes : FileOp → Bool
  | .create _ _ _ _ | .open | .close => true
  | _ => false

def Careful (x : MappedQueue) (op : FileOp) : Prop := op.closes = true → x.entries = []

instance (x : MappedQueue) (op : FileOp) : Decidable (Careful x op) :=
  inferInstanceAs (Decidable (op.closes = true → x.entries = []))

end FileOp

def MappedQueue.runOps (mapper : RegionMapper) (P : MappedQueue → FileOp → Prop) [∀ x op, Decidable (P x op)] :
    List FileOp → MappedQueue → Option (List Stepped × MappedQueue)
  | [], x => some ([], x)
  | op :: ops, x =>
    if P x op then
      (op.run mapper x).returned.bind fun (res, y) =>
        (MappedQueue.runOps mapper P ops y).map fun (answers, z) => (res :: answers, z)
    else none

/-- What is in a queue file, but for the pthread objects: the fields of the control header, the index and the bytes of
the products. -/
structure FileContent where
  geometry : DataSection
  writers : ControlHeader
  version : UInt64
  metrics : Metrics
  isFull : Bool
  align : Nat
  rl : RegionList
  tq : TimeQueue
  fb : FreeBlock
  sx : SignatureIndex
  data : Memory

def MappedQueue.content (x : MappedQueue) : Option FileContent := x.head.file.map fun D =>
  ⟨D, x.head.writers, x.head.version, x.ix.env.metrics, x.ix.isFull, x.ix.align, x.ix.rl, x.ix.tq, x.ix.fb, x.ix.sx,
    x.ix.env.disk⟩

end Rdm
