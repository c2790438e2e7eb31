import Rdm.Core.ProductStore
import Rdm.Pq.SkipPool

/-!
# The region list

Allocated regions are found through a hash table on their offset, free ones through two skip lists, by offset and by
extent, and unused slots are chained. The skip lists differ in the order only (`FreeOrder`).
-/

namespace Rdm

open ProgLogic ProgLogic.Prog SkipList FreeBlock

def RL_NONE : Nat := 2 ^ 64 - 1

def RL_FREE_OVERHEAD : Nat := 4

def RL_EMPTY_HD : Nat := RL_FREE_OVERHEAD

def RL_EXP_CHAIN_LEN : Nat := 4

def RL_FOFF_HD : Nat := 0
def RL_FOFF_TL : Nat := 1
def RL_FEXT_HD : Nat := 2
def RL_FEXT_TL : Nat := 3

def hugeOff : Int := 2 ^ 63 - 1

structure Region where
  offset : Int
  extent : Nat
  next : Nat
  prev : Nat
deriving DecidableEq, Repr

namespace Region

def isAlloc (r : Region) : Bool := r.extent % 2 = 1

def isFree (r : Region) : Bool := !r.isAlloc

def getExtent (r : Region) : Nat := r.extent / 2 * 2

def setAlloc (r : Region) : Region := { r with extent := r.getExtent + 1 }

def clearAlloc (r : Region) : Region := { r with extent := r.getExtent }

end Region

/-- `rdm::RegionList`, with its hash table. -/
structure RegionList where
  nalloc : Nat
  nchains : Nat
  empty : Nat
  nelems : Nat
  maxelems : Nat
  nfree : Nat
  maxfree : Nat
  maxfextent : Nat
  nempty : Nat
  minempty : Nat
  nbytes : Nat
  maxbytes : Nat
  levelFoff : Nat
  foff : Nat
  levelFext : Nat
  fext : Nat
  rp : Nat → Region
  chains : Nat → Nat

structure RlFb where
  rl : RegionList
  fb : FreeBlock

/-- The two skip lists of free regions. -/
inductive FreeOrder where
  | offset
  | extent
deriving DecidableEq, Repr

namespace FreeOrder

def ptr : FreeOrder → Region → Nat
  | .offset, r => r.next
  | .extent, r => r.prev

def setPtr : FreeOrder → Region → Nat → Region
  | .offset, r, b => { r with next := b }
  | .extent, r, b => { r with prev := b }

def level : FreeOrder → RegionList → Nat
  | .offset, rl => rl.levelFoff
  | .extent, rl => rl.levelFext

def setLevel : FreeOrder → RegionList → Nat → RegionList
  | .offset, rl, k => { rl with levelFoff := k }
  | .extent, rl, k => { rl with levelFext := k }

def head : FreeOrder → RegionList → Nat
  | .offset, rl => rl.foff
  | .extent, rl => rl.fext

def tail : FreeOrder → Nat
  | .offset => RL_FOFF_TL
  | .extent => RL_FEXT_TL

def before : FreeOrder → Nat → Int → Region → Bool
  | .offset, _, off, r => r.offset < off
  | .extent, e, off, r => r.getExtent < e ∨ r.getExtent = e ∧ r.offset < off

def hit : FreeOrder → Nat → Int → Region → Bool
  | .offset, _, off, r => r.offset = off
  | .extent, e, off, r => r.getExtent = e ∧ r.offset = off

end FreeOrder

namespace RegionList

def onFb {α : Type} (m : Prog FreeBlock α) : Prog RlFb α := zoom RlFb.fb (fun fb s => { s with fb := fb }) m

def modRl (f : RegionList → RegionList) : Prog RlFb Unit := Prog.modify fun s => { s with rl := f s.rl }

def setRegion (rl : RegionList) (i : Nat) (r : Region) : RegionList := { rl with rp := Function.update rl.rp i r }

/-! ## Unused slots -/

def getEmptyRegion : Prog RlFb Nat := do
  let s ← read
  if s.rl.empty = RL_NONE then
    assert (s.rl.nempty = 0)
    return RL_NONE
  else
    let ix := s.rl.empty
    let nempty := sizeSub s.rl.nempty 1
    modRl fun rl => { rl with
      empty := (rl.rp ix).next
      nempty := nempty
      minempty := if nempty < rl.minempty then nempty else rl.minempty }
    return ix

def releaseEmptyRegion (rlix : Nat) : Prog RlFb Unit := do
  let s ← read
  assert (0 < rlix ∧ rlix < s.rl.nalloc + RL_FREE_OVERHEAD)
  modRl fun rl => { setRegion rl rlix { rl.rp rlix with next := rl.empty, offset := -1, extent := 0 } with
    empty := rlix
    nempty := rl.nempty + 1 }

/-! ## The hash table -/

def hashOffset (rl : RegionList) (offset : Int) : Nat := (offset % 2 ^ 32).toNat % rl.nchains

def findFrom (rl : RegionList) (offset : Int) : Nat → Nat → Prog RlFb Nat
  | 0, _ => ofOption none
  | fuel + 1, next =>
    if next = RL_NONE then return RL_NONE
    else if offset = (rl.rp next).offset then do
      assert ((rl.rp next).isAlloc = true)
      return next
    else findFrom rl offset fuel (rl.rp next).next

def find (offset : Int) : Prog RlFb Nat := do
  let s ← read
  findFrom s.rl offset (s.rl.nalloc + 1) (s.rl.chains (s.rl.hashOffset offset))

def addToHash (rpix : Nat) : Prog RlFb Unit := do
  let s ← read
  let rep := s.rl.rp rpix
  assert (rep.isAlloc = true)
  let h := s.rl.hashOffset rep.offset
  let next := s.rl.chains h
  if next ≠ RL_NONE then
    assert ((s.rl.rp next).isAlloc = true)
    modRl fun rl => setRegion rl next { rl.rp next with prev := rpix }
  modRl fun rl => { setRegion rl rpix { rl.rp rpix with next := next, prev := RL_NONE } with
    chains := Function.update rl.chains h rpix }

def setAllocated (rlix : Nat) : Prog RlFb Unit := do
  modRl fun rl => setRegion rl rlix (rl.rp rlix).setAlloc
  addToHash rlix

def removeFromHash (rlix : Nat) : Prog RlFb Unit := do
  let s ← read
  let rep := s.rl.rp rlix
  let rpix := rep.prev
  let rnix := rep.next
  if rpix ≠ RL_NONE then
    modRl fun rl => setRegion rl rpix { rl.rp rpix with next := rnix }
  else
    modRl fun rl => { rl with chains := Function.update rl.chains (rl.hashOffset rep.offset) rnix }
  if rnix ≠ RL_NONE then
    let s ← read
    assert ((s.rl.rp rnix).isAlloc = true)
    modRl fun rl => setRegion rl rnix { rl.rp rnix with prev := rpix }

/-! ## The free lists -/

def search (o : FreeOrder) (s : RlFb) (extent : Nat) (offset : Int) : Option ((Nat → Nat) × Nat × Nat) :=
  descend (fun k x => s.fb.fblks (o.ptr (s.rl.rp x) + k)) (fun x => o.before extent offset (s.rl.rp x))
    (s.rl.nalloc + 1) (o.level s.rl) (o.head s.rl) fun _ => o.head s.rl

def searchOffset (s : RlFb) (targetOffset : Int) : Option ((Nat → Nat) × Nat × Nat) :=
  search .offset s 0 targetOffset

def searchExtent (s : RlFb) (targetExtent : Nat) (targetOffset : Int) : Option ((Nat → Nat) × Nat × Nat) :=
  search .extent s targetExtent targetOffset

def deleteFrom (o : FreeOrder) (rlix : Nat) : Prog RlFb Unit := do
  let s ← read
  let rep := s.rl.rp rlix
  let (upd, _, sq) ← ofOption (search o s rep.getExtent rep.offset)
  if o.hit rep.getExtent rep.offset (s.rl.rp sq) then
    let m := o.level s.rl
    let (fb, k) := s.fb.unlinked (fun x => o.ptr (s.rl.rp x)) sq upd m
    Prog.modify fun s => { s with fb := fb }
    onFb (release k (o.ptr (s.rl.rp sq)))
    let s ← read
    modRl fun rl => o.setLevel rl (trim (fun k => s.fb.fblks (o.ptr (rl.rp (o.head rl)) + k)) o.tail m)

def deleteOffset : Nat → Prog RlFb Unit := deleteFrom .offset

def deleteExtent : Nat → Prog RlFb Unit := deleteFrom .extent

def addTo (o : FreeOrder) (rlix : Nat) : Prog RlFb Int := do
  let s ← read
  let rep := s.rl.rp rlix
  let (upd, _, _) ← ofOption (search o s rep.getExtent rep.offset)
  let k ← onFb getRandomLevel
  let level := o.level s.rl
  let upd := if level < k then Function.update upd (level + 1) (o.head s.rl) else upd
  let k := if level < k then level + 1 else k
  modRl fun rl => o.setLevel rl (max level k)
  let fblk ← onFb (FreeBlock.get k)
  modRl fun rl => setRegion rl rlix (o.setPtr (rl.rp rlix) fblk)
  if fblk = FBLK_NONE then return -4
  else
    Prog.modify fun s => { s with
      fb := { s.fb with fblks := splice (fun x => o.ptr (s.rl.rp x)) rlix upd k s.fb.fblks } }
    return 0

def addOffset : Nat → Prog RlFb Int := addTo .offset

def addExtent : Nat → Prog RlFb Int := addTo .extent

def findPrevExtent (rlix : Nat) : Prog RlFb Nat := do
  let s ← read
  let (upd, _, _) ← ofOption (searchExtent s (s.rl.rp rlix).getExtent (s.rl.rp rlix).offset)
  return upd 0

def recalculateMaxFreeExtent : Prog RlFb Nat := do
  let rmix ← findPrevExtent RL_FEXT_TL
  let s ← read
  return (s.rl.rp rmix).getExtent

def findExtent (extent : Nat) : Prog RlFb Nat := do
  let s ← read
  let (_, _, sq) ← ofOption (searchExtent s extent (-1))
  return sq

def getNextOffset (rlix : Nat) : Prog RlFb Nat := do
  let s ← read
  assert ((s.rl.rp rlix).isFree = true)
  return s.fb.fblks (s.rl.rp rlix).next

def getPrevOffset (rlix : Nat) : Prog RlFb Nat := do
  let s ← read
  let (upd, _, _) ← ofOption (searchOffset s (s.rl.rp rlix).offset)
  return upd 0

def releaseRegion (rlix : Nat) : Prog RlFb Int := do
  let status ← addOffset rlix
  if status ≠ 0 then return status
  else
    let status ← addExtent rlix
    if status ≠ 0 then
      deleteOffset rlix
      return status
    else
      modRl fun rl => { rl with nfree := rl.nfree + 1 }
      return status

/-! ## Allocating and freeing -/

def get (extent : Nat) : Prog RlFb Nat := do
  let s ← read
  if s.rl.maxfextent < extent then return RL_NONE
  else
    let sqbest ← findExtent extent
    if sqbest = RL_FEXT_TL ∨ sqbest = RL_NONE then return RL_NONE
    else
      deleteOffset sqbest
      deleteExtent sqbest
      modRl fun rl => { rl with nfree := sizeSub rl.nfree 1 }
      let s ← read
      if (s.rl.rp sqbest).getExtent = s.rl.maxfextent then
        let e ← recalculateMaxFreeExtent
        modRl fun rl => { rl with maxfextent := e }
      modRl fun rl => { rl with nelems := rl.nelems + 1, maxelems := max rl.maxelems (rl.nelems + 1) }
      return sqbest

def mergeRight (rpix rghtix : Nat) : Prog RlFb Unit := do
  deleteExtent rpix
  modRl fun rl => setRegion rl rpix
    { rl.rp rpix with extent := sizeAdd (rl.rp rpix).extent (rl.rp rghtix).getExtent }
  let _ ← addExtent rpix
  modRl fun rl => { rl with nfree := sizeSub rl.nfree 1 }
  deleteOffset rghtix
  deleteExtent rghtix
  releaseEmptyRegion rghtix

def consolidateRight (rpix rghtix : Nat) : Prog RlFb Unit := do
  let s ← read
  if rghtix ≠ RL_FOFF_TL ∧ (s.rl.rp rpix).offset + (s.rl.rp rpix).getExtent = (s.rl.rp rghtix).offset then
    mergeRight rpix rghtix
  else return

def consolidateLeft (leftix rpix : Nat) : Prog RlFb Nat := do
  let s ← read
  if leftix ≠ RL_FOFF_HD ∧ (s.rl.rp leftix).offset + (s.rl.rp leftix).getExtent = (s.rl.rp rpix).offset then
    mergeRight leftix rpix
    return leftix
  else return rpix

def consolidate (rpix : Nat) : Prog RlFb Unit := do
  let rghtix ← getNextOffset rpix
  let leftix ← getPrevOffset rpix
  consolidateRight rpix rghtix
  let rep ← consolidateLeft leftix rpix
  modRl fun rl => { rl with
    maxfextent := if rl.maxfextent < (rl.rp rep).getExtent then (rl.rp rep).getExtent else rl.maxfextent }

def putBack (rlix : Nat) : Prog RlFb Unit := do
  modRl fun rl => { rl with nelems := sizeSub rl.nelems 1 }
  let _ ← releaseRegion rlix
  consolidate rlix
  modRl fun rl => { rl with maxfree := max rl.maxfree rl.nfree }
  let s ← read
  assert (s.rl.nelems + s.rl.nfree + s.rl.nempty = s.rl.nalloc)

def put (rlix : Nat) : Prog RlFb Unit := do
  let s ← read
  assert (rlix < s.rl.nalloc)
  putBack rlix

def free (rpix : Nat) : Prog RlFb Unit := do
  modRl fun rl => { setRegion rl rpix (rl.rp rpix).clearAlloc with
    nbytes := sizeSub rl.nbytes (rl.rp rpix).clearAlloc.getExtent }
  removeFromHash rpix
  putBack rpix

def add (offset : Int) (extent : Nat) : Prog RlFb (Option Nat) := do
  let rpix ← getEmptyRegion
  if rpix = RL_NONE then return none
  else
    let s ← read
    assert (s.rl.nelems < s.rl.nalloc)
    modRl fun rl => setRegion rl rpix { rl.rp rpix with offset := offset, extent := extent }
    let status ← releaseRegion rpix
    if status ≠ 0 then
      releaseEmptyRegion rpix
      return none
    else
      modRl fun rl => { rl with maxfree := max rl.maxfree rl.nfree }
      let s ← read
      assert (s.rl.nelems + s.rl.nfree + s.rl.nempty = s.rl.nalloc)
      return some rpix

def split (rlix extent : Nat) : Prog RlFb Int := do
  let s ← read
  let low := s.rl.rp rlix
  assert (low.isFree = true)
  assert (extent ≤ low.getExtent)
  let rem := low.getExtent - extent
  let newregion ← add (low.offset + extent) rem
  match newregion with
  | some z =>
    let s ← read
    assert ((s.rl.rp z).isFree = true)
    modRl fun rl => { setRegion rl rlix { rl.rp rlix with extent := extent } with
      maxfextent := if rl.maxfextent < rem then rem else rl.maxfextent }
    return 0
  | none => return ENOMEM

def hasSpace (rl : RegionList) : Bool := 0 < rl.nempty

/-! ## The empty list -/

def calculateNumChains (nelems : Nat) : Nat := prevPrime (nelems / RL_EXP_CHAIN_LEN)

def initialRegion (nalloc : Nat) (rp : Nat → Region) (i : Nat) : Region :=
  if RL_EMPTY_HD ≤ i ∧ i < nalloc + RL_FREE_OVERHEAD then
    { rp i with
      offset := -1
      extent := 0
      next := if i + 1 = nalloc + RL_FREE_OVERHEAD then RL_NONE else i + 1 }
  else rp i

def initList (o : FreeOrder) (head : Nat) (tailOffset : Int) (tailExtent : Nat) : Prog RlFb Unit := do
  let s ← read
  let maxlevel := s.fb.maxsize - 1
  let headBlk ← onFb (FreeBlock.get maxlevel)
  let tailBlk ← onFb (FreeBlock.get 0)
  modRl fun rl => setRegion rl head (o.setPtr ⟨0, 0, 0, 0⟩ headBlk)
  modRl fun rl => setRegion rl o.tail (o.setPtr ⟨tailOffset, tailExtent, 0, 0⟩ tailBlk)
  Prog.modify fun s => { s with fb := { s.fb with
    fblks := fun c => if headBlk ≤ c ∧ c < headBlk + s.fb.maxsize then o.tail else s.fb.fblks c } }

def initOffsets : Prog RlFb Unit := do
  initList .offset RL_FOFF_HD hugeOff 0
  modRl fun rl => { rl with levelFoff := 0, foff := RL_FOFF_HD }

def initExtents : Prog RlFb Unit := do
  initList .extent RL_FEXT_HD 0 (2 ^ 64 - 2)
  modRl fun rl => { rl with levelFext := 0, fext := RL_FEXT_HD }

def initialise (nalloc : Nat) : Prog RlFb Unit := do
  modRl fun rl =>
    let nchains := calculateNumChains nalloc
    { rl with
      nalloc := nalloc
      nchains := nchains
      chains := fun i => if i < nchains then RL_NONE else rl.chains i
      rp := initialRegion nalloc rl.rp
      empty := RL_EMPTY_HD
      nelems := 0
      maxelems := 0
      nempty := nalloc
      minempty := nalloc
      nbytes := 0
      maxbytes := 0
      nfree := 0
      maxfree := 0
      maxfextent := 0 }
  initOffsets
  initExtents
  let s ← read
  assert (s.rl.nelems + s.rl.nfree + s.rl.nempty = s.rl.nalloc)

end RegionList

end Rdm
