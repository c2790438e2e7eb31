import Rdm.Core.MathUtil
import Rdm.Core.ProductStore
import Rdm.Lib.Prog

/-!
# The signature index

A hash table from the signatures of the products in the queue to the offsets of their regions.
-/

namespace Rdm

open ProgLogic ProgLogic.Prog

def SX_NONE : Nat := 2 ^ 64 - 1

def SX_EXP_CHAIN_LEN : Nat := 4

structure SignatureElement where
  sxi : Signature
  offset : Int
  next : Nat
deriving DecidableEq

/-- `rdm::SignatureIndex`, with its hash table. -/
structure SignatureIndex where
  nalloc : Nat
  nelems : Nat
  nchains : Nat
  freeHead : Nat
  nfree : Nat
  sxep : Nat → SignatureElement
  chains : Nat → Nat

namespace SignatureIndex

def calcNchains (nelems : Nat) : Nat := prevPrime (nelems / SX_EXP_CHAIN_LEN)

def hash (sx : SignatureIndex) (sig : Signature) : Nat :=
  (sig.bytes.take 4).foldl (fun n b => 256 * n + b.toNat) 0 % sx.nchains

def setElem (sx : SignatureIndex) (i : Nat) (e : SignatureElement) : SignatureIndex :=
  { sx with sxep := Function.update sx.sxep i e }

def initialElem (nalloc : Nat) (sxep : Nat → SignatureElement) (i : Nat) : SignatureElement :=
  if i < nalloc then ⟨Signature.fill 0, -1, if i + 1 = nalloc then SX_NONE else i + 1⟩ else sxep i

def initialise (allocSize : Nat) : Prog SignatureIndex Unit :=
  Prog.modify fun sx =>
    { nalloc := allocSize
      nelems := 0
      nchains := calcNchains allocSize
      freeHead := 0
      nfree := allocSize
      sxep := initialElem allocSize sx.sxep
      chains := fun i => if i < calcNchains allocSize then SX_NONE else sx.chains i }

def allocateElement : Prog SignatureIndex Nat := do
  let sx ← read
  if sx.nfree = 0 then return SX_NONE
  else
    let avail := sx.freeHead
    Prog.modify fun sx => { sx with freeHead := (sx.sxep avail).next, nfree := sizeSub sx.nfree 1 }
    return avail

def freeElement (index : Nat) : Prog SignatureIndex Unit :=
  Prog.modify fun sx =>
    { setElem sx index { sx.sxep index with offset := -1, next := sx.freeHead } with
      freeHead := index
      nfree := sx.nfree + 1 }

def findFrom (sx : SignatureIndex) (sig : Signature) : Nat → Nat → Prog SignatureIndex (Option Nat)
  | 0, _ => ofOption none
  | fuel + 1, next =>
    if next = SX_NONE then return none
    else if sig = (sx.sxep next).sxi then return some next
    else findFrom sx sig fuel (sx.sxep next).next

def find (sig : Signature) : Prog SignatureIndex (Option Nat) := do
  let sx ← read
  findFrom sx sig (sx.nalloc + 1) (sx.chains (sx.hash sig))

def add (sig : Signature) (offset : Int) : Prog SignatureIndex (Option Nat) := do
  let sx ← read
  assert (sx.nalloc ≠ 0)
  assert (sx.nfree + sx.nelems = sx.nalloc)
  let sxix ← allocateElement
  if sxix = SX_NONE then return none
  else
    Prog.modify fun sx =>
      { setElem sx sxix ⟨sig, offset, sx.chains (sx.hash sig)⟩ with
        chains := Function.update sx.chains (sx.hash sig) sxix
        nelems := sx.nelems + 1 }
    return some sxix

def removed (index : Nat) : Prog SignatureIndex Bool := do
  freeElement index
  Prog.modify fun sx => { sx with nelems := sizeSub sx.nelems 1 }
  return true

def removeFrom (sx : SignatureIndex) (sig : Signature) : Nat → Nat → Nat → Prog SignatureIndex Bool
  | 0, _, _ => ofOption none
  | fuel + 1, prev, next =>
    if next = SX_NONE then return false
    else if sig = (sx.sxep next).sxi then do
      Prog.modify fun sx => setElem sx prev { sx.sxep prev with next := (sx.sxep next).next }
      removed next
    else removeFrom sx sig fuel next (sx.sxep next).next

def remove (sig : Signature) : Prog SignatureIndex Bool := do
  let sx ← read
  assert (sx.nfree + sx.nelems = sx.nalloc)
  let h := sx.hash sig
  let next := sx.chains h
  if next = SX_NONE then return false
  else if sig = (sx.sxep next).sxi then
    Prog.modify fun sx => { sx with chains := Function.update sx.chains h (sx.sxep next).next }
    removed next
  else removeFrom sx sig (sx.nalloc + 1) next (sx.sxep next).next

end SignatureIndex

end Rdm
