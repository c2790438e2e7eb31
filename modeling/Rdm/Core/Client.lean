import Rdm.Core.ProdClass

/-!
# Requests and replies

The values that peers exchange before products flow (`IClient.h`).
-/

namespace Rdm

structure ReplyStatus where
  code : Int32
deriving DecidableEq

namespace ReplyStatus

def OK : ReplyStatus := ⟨0⟩
def BAD_PATTERN : ReplyStatus := ⟨2⟩
def DONT_SEND : ReplyStatus := ⟨3⟩
def RECLASS : ReplyStatus := ⟨7⟩
def SYSTEM_ERROR : ReplyStatus := ⟨8⟩

end ReplyStatus

structure FeedRequest where
  isNotifier : Bool
  maxHereis : UInt32
  requestedClass : ProdClass

structure FeedResponse where
  statusCode : ReplyStatus
  feedProcessId : UInt32
  allowedClass : ProdClass
deriving DecidableEq

structure HiyaRequest where
  offeredClass : ProdClass

structure HiyaResponse where
  statusCode : ReplyStatus
  maxHereis : UInt32
  acceptedClass : ProdClass
deriving DecidableEq

end Rdm
