import Rdm.Core.Timestamp

/-!
# Products and the statuses of the store

`rdm::ProdInfo`, `rdm::Signature` and the statuses that operations return. Strings are byte strings.
-/

namespace Rdm

structure Signature where
  bytes : List UInt8
  size : bytes.length = 16
deriving DecidableEq

def Signature.fill (val : UInt8) : Signature := ⟨List.replicate 16 val, by simp⟩

instance : Inhabited Signature := ⟨Signature.fill 0⟩

abbrev FeedType := UInt32

def HOSTNAMESIZE : Nat := 64

structure ProdInfo where
  arrival : Timestamp := ⟨0, 0⟩
  signature : Signature := default
  origin : List UInt8 := []
  feedtype : FeedType := 0
  seqno : UInt32 := 0
  ident : List UInt8 := []
  sz : UInt32 := 0
deriving DecidableEq

instance : Inhabited ProdInfo := ⟨{}⟩

/-- `rdm::PqStatus`: what went wrong in the queue itself. -/
inductive PqStatus where
  | «end»
  | dup
  | big
  | system
  | locked
  | corrupt
  | notFound
  | invalid
deriving DecidableEq, Repr

def PqStatus.toInt : PqStatus → Int
  | .end => -1
  | .dup => -2
  | .big => -3
  | .system => -4
  | .locked => -5
  | .corrupt => -6
  | .notFound => -7
  | .invalid => -8

def EIO : Int := 5
def ENOMEM : Int := 12
def EACCES : Int := 13
def EINVAL : Int := 22
def ENOSPC : Int := 28

end Rdm
