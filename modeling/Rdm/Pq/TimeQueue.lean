import Rdm.Core.ProductStore
import Rdm.Pq.SkipPool

/-!
# The time queue

A skip list of elements sorted by time. `Add` moves the time on while it is taken. A time at or after `ENDT` runs off
the end of the list; the model stops there (`hang`).
-/

namespace Rdm

open ProgLogic ProgLogic.Prog SkipList FreeBlock

def TQ_NONE : Int := -1

def TQ_NIL : Nat := 0

def TQ_HEAD : Nat := 1

def TQ_OVERHEAD_ELEMS : Nat := 2

/-- Which element `Find` looks for. -/
inductive Match where
  | lessThan
  | equal
  | greaterThan
deriving DecidableEq, Repr

structure TimeQueueElement where
  tv : Timestamp
  offset : Int
  fblk : Nat
deriving DecidableEq, Repr

structure TimeQueue where
  nalloc : Nat
  nelems : Nat
  nfree : Nat
  freeHead : Int
  level : Nat
  tqep : Nat → TimeQueueElement

structure TqFb where
  tq : TimeQueue
  fb : FreeBlock

namespace TimeQueue

def onFb {α : Type} (m : Prog FreeBlock α) : Prog TqFb α := zoom TqFb.fb (fun fb s => { s with fb := fb }) m

def modTq (f : TimeQueue → TimeQueue) : Prog TqFb Unit := Prog.modify fun s => { s with tq := f s.tq }

def setElem (tq : TimeQueue) (i : Nat) (e : TimeQueueElement) : TimeQueue :=
  { tq with tqep := Function.update tq.tqep i e }

def nextAt (s : TqFb) (k x : Nat) : Nat := s.fb.fblks ((s.tq.tqep x).fblk + k)

def count (tq : TimeQueue) : Nat := sizeSub tq.nelems TQ_OVERHEAD_ELEMS

def hasSpace : Prog TqFb Bool := do
  let s ← read
  assert (s.tq.count ≤ s.tq.nalloc)
  return s.tq.count < s.tq.nalloc

def allocateElement : Prog TqFb Int := do
  let s ← read
  if 0 < s.tq.nfree then
    let result := s.tq.freeHead
    modTq fun tq => { tq with
      freeHead := (tq.tqep result.toNat).offset
      nfree := tq.nfree - 1
      nelems := tq.nelems + 1 }
    assert (TQ_HEAD < result ∧ result ≠ TQ_NONE)
    return result
  else return TQ_NONE

def freeElement (size p : Nat) : Prog TqFb Unit := do
  let s ← read
  assert (TQ_HEAD < p ∧ p < s.tq.nalloc + TQ_OVERHEAD_ELEMS)
  onFb (release size (s.tq.tqep p).fblk)
  modTq fun tq => { setElem tq p ⟨Timestamp.NONE, tq.freeHead, FBLK_NONE⟩ with
    freeHead := p
    nfree := tq.nfree + 1
    nelems := sizeSub tq.nelems 1 }

def addSearch (nx : Nat → Nat → Nat) (tv : Nat → Timestamp) (level wfuel : Nat) :
    Nat → Nat → Nat → Timestamp → (Nat → Nat) → Option (Timestamp × (Nat → Nat))
  | 0, _, _, _, _ => none
  | fuel + 1, k, p, key, upd => do
    let (p', q) ← walk (nx k) (fun x => tv x < key) wfuel p
    if tv q ≠ key then
      let upd := Function.update upd k p'
      match k with
      | 0 => some (key, upd)
      | k + 1 => addSearch nx tv level wfuel fuel k p' key upd
    else
      let key := key.incrementMicrosecond
      if k < level then addSearch nx tv level wfuel fuel level (upd level) key upd
      else addSearch nx tv level wfuel fuel k p' key upd

def addFuel (tq : TimeQueue) : Nat := (tq.nalloc + 2) * (tq.level + 2)

def add (now : Timestamp) (offset : Int) : Prog TqFb Int := do
  let s ← read
  assert (s.tq.nalloc ≠ 0)
  let space ← hasSpace
  assert (space = true)
  let tpix ← allocateElement
  assert (tpix ≠ TQ_NONE)
  let tpix := tpix.toNat
  let s ← read
  let level := s.tq.level
  let (key, upd) ← ofOption (addSearch (nextAt s) (fun x => (s.tq.tqep x).tv) level (s.tq.nalloc + 1) s.tq.addFuel
    level TQ_HEAD now fun _ => TQ_HEAD)
  let k ← onFb getRandomLevel
  let k := if level < k then level + 1 else k
  let fblk ← onFb (FreeBlock.get k)
  if fblk = FBLK_NONE then
    modTq fun tq => setElem tq tpix { tq.tqep tpix with tv := key }
    return ENOSPC
  else
    modTq fun tq => setElem tq tpix ⟨key, offset, fblk⟩
    let upd := fun i => if level < i then TQ_HEAD else upd i
    modTq fun tq => { tq with level := max level k }
    Prog.modify fun s => { s with
      fb := { s.fb with fblks := splice (fun x => (s.tq.tqep x).fblk) tpix upd k s.fb.fblks } }
    return 0

def find (key : Timestamp) (mt : Match) : Prog TqFb (Option Nat) := do
  let s ← read
  if s.tq.count = 0 then return none
  else
    let (_, p, q) ← ofOption (descend (nextAt s) (fun x => (s.tq.tqep x).tv < key) (s.tq.nalloc + 1) s.tq.level TQ_HEAD
      fun _ => TQ_HEAD)
    let foundTs := (s.tq.tqep q).tv
    match mt with
    | .lessThan => return if p = TQ_HEAD then none else some p
    | .equal => return if foundTs = key then some q else none
    | .greaterThan =>
      if q = TQ_NIL then return none
      else if foundTs = key then
        let q := nextAt s 0 q
        return if q = TQ_NIL then none else some q
      else return some q

def first (s : TqFb) : Option Nat :=
  let q := nextAt s 0 TQ_HEAD
  if q = TQ_NIL then none else some q

def next (s : TqFb) (i : Nat) : Nat := nextAt s 0 i

def beforeEntry (tq : TimeQueue) (t : Timestamp) (off : Int) (x : Nat) : Bool :=
  (tq.tqep x).tv < t ∨ (tq.tqep x).tv = t ∧ (tq.tqep x).offset < off

def delete (i : Nat) : Prog TqFb Unit := do
  let s ← read
  let e := s.tq.tqep i
  let m := s.tq.level
  let (upd, _, q) ← ofOption (descend (nextAt s) (beforeEntry s.tq e.tv e.offset) (s.tq.nalloc + 1) m TQ_HEAD
    fun _ => TQ_HEAD)
  assert (q = TQ_NIL ∨ TQ_HEAD < q ∧ q < s.tq.nalloc + TQ_OVERHEAD_ELEMS)
  if (s.tq.tqep q).tv = e.tv ∧ (s.tq.tqep q).offset = e.offset then
    let (fb, k) := s.fb.unlinked (fun x => (s.tq.tqep x).fblk) q upd m
    Prog.modify fun s => { s with fb := fb }
    freeElement k q
    let s ← read
    modTq fun tq => { tq with level := trim (fun k => nextAt s k TQ_HEAD) TQ_NIL m }

def initialElem (allocSize nilBlk headBlk i : Nat) : TimeQueueElement :=
  if i = TQ_NIL then ⟨Timestamp.ENDT, -1, nilBlk⟩
  else if i = TQ_HEAD then ⟨Timestamp.NONE, -1, headBlk⟩
  else if i + 1 < allocSize + TQ_OVERHEAD_ELEMS then ⟨Timestamp.NONE, i + 1, FBLK_NONE⟩
  else ⟨Timestamp.NONE, TQ_NONE, FBLK_NONE⟩

def initialise (allocSize : Nat) : Prog TqFb Unit := do
  let nilBlk ← onFb (FreeBlock.get 0)
  let s ← read
  let maxlevel := s.fb.maxsize - 1
  let headBlk ← onFb (FreeBlock.get maxlevel)
  Prog.modify fun s => { s with fb := { s.fb with
    fblks := fun c => if headBlk ≤ c ∧ c < headBlk + s.fb.maxsize then TQ_NIL else s.fb.fblks c } }
  modTq fun _ =>
    { nalloc := allocSize
      nelems := TQ_OVERHEAD_ELEMS
      nfree := allocSize
      freeHead := TQ_OVERHEAD_ELEMS
      level := 0
      tqep := initialElem allocSize nilBlk headBlk }

end TimeQueue

end Rdm
