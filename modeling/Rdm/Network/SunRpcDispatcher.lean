import Rdm.Core.Routes
import Rdm.Lib.Transitions
import Rdm.Network.SunRpcXdr

/-!
# Calls on a connection

What arrives on a connection are procedures with the bytes of their arguments, which anybody may have made. The
dispatchers decode them into messages, so that a connection is a session.
-/

namespace Rdm

open ProgLogic ProgLogic.Prog Xdr SunRpcSerializer SunRpcXdr QueueIndexManager List
open Session (noRules somePeer)

/-! ## Calls -/

def Reply.error : Reply → Int
  | .status code => code
  | _ => 0

namespace SunRpc

def NULLPROC : Nat := 0
def HEREIS : Nat := 1
def FEEDME : Nat := 4
def HIYA : Nat := 5
def NOTIFICATION : Nat := 8
def NOTIFYME : Nat := 9
def COMINGSOON : Nat := 12
def BLKDATA : Nat := 13
def IS_ALIVE : Nat := 14

def MAX_RPC_BUF_NEEDED : Nat := 72 + 262144

structure RpcCall where
  proc : Nat
  args : List UInt8
deriving DecidableEq

/-- The circumstances of a call: what the queue, the memory and the table of processes answer, and the limit for
products. -/
structure RpcEnv where
  opened : Bool := true
  mapped : Bool := true
  malloc : Bool := true
  maxProductSizeBytes : Nat := 0
  addProcess : ProdClass → Int × ProdClass := fun clss => (0, clss)
  pid : UInt32 := 0
  isAlive : UInt32 → Bool := fun _ => false

/-- Results, or the error of `svcerr_decode`, `svcerr_systemerr` or `svcerr_noproc`. -/
inductive RpcReply where
  | results (bs : List UInt8)
  | decodeError
  | systemError
  | noProcedure
deriving DecidableEq

/-- The payload goes to the scratch buffer, or to memory that is asked for within the limit. -/
def getPayload (env : RpcEnv) (dataSz : Nat) : Get (List UInt8) :=
  if MAX_RPC_BUF_NEEDED < dataSz ∧ (env.maxProductSizeBytes < dataSz ∨ env.malloc = false) then failure
  else getPadded dataSz

def getNetMutableProduct (env : RpcEnv) : Get (ProdInfo × List UInt8) := do
  let info ← getInfo
  let data ← getPayload env info.sz.toNat
  return (info, data)

def toSignature (bs : List UInt8) : Signature := if h : bs.length = 16 then ⟨bs, h⟩ else default

/-! ## The dispatchers -/

def Fatal (error : Int) : Prop :=
  error ≠ 0 ∧ error ≠ PqStatus.dup.toInt ∧ error ≠ PqStatus.big.toInt ∧ error ≠ PqStatus.notFound.toInt

instance (error : Int) : Decidable (Fatal error) := inferInstanceAs (Decidable (_ ∧ _))

/-- What a dispatcher leaves. `done` says that the process gives the connection up. -/
structure Served where
  replies : List RpcReply
  handler : Handler
  done : Bool := false

section Dispatch

variable (D : DataSection) (acl : AclManager) (peer : PeerContext) (env : RpcEnv) (call : RpcCall) (h : Handler)

/-- The handler gets the message that was decoded from the arguments, if there is one. -/
def ask (m : Option Message) (answer : Reply → List RpcReply × Bool) : Prog ProductQueue Served :=
  match m with
  | none => return ⟨[.decodeError], h, false⟩
  | some m => do
    let res ← h.onMessage D acl peer env.opened env.mapped m
    return ⟨(answer res.1).1, res.2, (answer res.1).2⟩

def unlessFatal (reply : Int → List RpcReply) (rep : Reply) : List RpcReply × Bool :=
  if Fatal rep.error then ([.systemError], true) else (reply rep.error, false)

/-- Nothing is `RpcDispatchResult::NotHandled`; `FatalError` is an answer with which the connection is given up. -/
def dispatchDataPlaneRpc : Option (Prog ProductQueue Served) :=
  if call.proc = HEREIS then
    some (ask D acl peer env h ((decode (getNetMutableProduct env) call.args).map fun mprod =>
      .hereIs mprod.1.1 mprod.1.2) (unlessFatal fun _ => []))
  else if call.proc = COMINGSOON then
    some (ask D acl peer env h ((decode getNetComingsoonArgs call.args).map fun args => .comingSoon args.1.info)
      (unlessFatal fun error => [.results (wordOfInt (if error = 0 then 0 else 3))]))
  else if call.proc = BLKDATA then
    some (ask D acl peer env h ((decode getNetDatapkt call.args).map fun ((signaturep, _, dbuf), _) =>
      .blkData (toSignature signaturep) dbuf) (unlessFatal fun _ => []))
  else if call.proc = NOTIFICATION then
    -- `OnNotification` of both handlers does nothing
    some (return ⟨if (decode getInfo call.args).isNone then [.decodeError] else [], h, false⟩)
  else none

/-- The process streams after a reply with `OK`, and then gives the connection up too. -/
def feed (request : Option FeedRequest) : Prog ProductQueue Served :=
  ask D acl peer env h (request.map fun request => .feedMe request env.addProcess env.pid) fun
    | .feed response => ([((putNetFornmeReply response).map .results).getD .systemError], true)
    | _ => ([], true)

def sayHiya (offered : Option ProdClass) : Prog ProductQueue Served :=
  ask D acl peer env h (offered.map fun offered => .hiya ⟨offered⟩) fun
    | .hiya response => ([((putNetHiyaReply response).map .results).getD .systemError], false)
    | _ => ([], false)

def serverDispatcher6 : Prog ProductQueue Served := (dispatchDataPlaneRpc D acl peer env call h).getD <|
  if call.proc = NULLPROC then return ⟨[.results []], h, false⟩
  else if call.proc = FEEDME then
    feed D acl peer env h ((decode getNetFeedpar call.args).map fun (fpar, _) => ⟨false, fpar.maxHereis, fpar.clss⟩)
  else if call.proc = NOTIFYME then
    feed D acl peer env h ((decode getNetProdClass call.args).map fun (want, _) => ⟨true, 0, want⟩)
  else if call.proc = IS_ALIVE then
    match decode getUInt call.args with
    | none => return ⟨[.decodeError], h, false⟩
    | some (id, _) => return ⟨[.results (word (if env.isAlive id then 1 else 0))], h, true⟩
  else if call.proc = HIYA then sayHiya D acl peer env h ((decode getNetProdClass call.args).map Prod.fst)
  else return ⟨[.noProcedure], h, false⟩

def clientDispatcher6 : Prog ProductQueue Served := (dispatchDataPlaneRpc D acl peer env call h).getD <|
  return ⟨[if call.proc = NULLPROC then .results [] else .noProcedure], h, false⟩

def dispatcher : Prog ProductQueue Served :=
  match h with
  | .upstream _ => serverDispatcher6 D acl peer env call h
  | .downstream _ => clientDispatcher6 D acl peer env call h

end Dispatch

/-! ## What reaches the handler -/

theorem gives_info : Gives getInfo fun info => info.ident.length ≤ 255 := by
  refine gives_then fun _ => gives_then fun _ => gives_then fun _ => gives_then fun _ => gives_then fun _ =>
    gives_then fun _ => (gives_string 255).bind fun _ hident => gives_then fun _ => gives_pure hident

theorem gives_product (env : RpcEnv) : Gives (getNetMutableProduct env) fun p => (Message.hereIs p.1 p.2).Valid := by
  refine gives_info.bind fun info hident => ?_
  have hident' : info.ident.length < 2 ^ 61 := by omega
  refine Gives.bind (P := fun data => data.length = info.sz.toNat) ?_ fun data hdata => gives_pure ⟨hident', hdata⟩
  unfold getPayload
  split
  · exact gives_failure
  · exact gives_padded _

theorem gives_comingsoon : Gives getNetComingsoonArgs fun args => (Message.comingSoon args.info).Valid := by
  refine gives_info.bind fun info hident => gives_then fun _ => gives_pure ?_
  show info.ident.length < 2 ^ 61
  omega

variable {D : DataSection} {acl : AclManager} {peer : PeerContext} {env : RpcEnv} {call : RpcCall} {h h' : Handler}
  {q q' : ProductQueue}

/-- The handler and the queue are as before, or a well-formed message was handled. -/
def Passes (D : DataSection) (acl : AclManager) (peer : PeerContext) (env : RpcEnv) (h : Handler) (q : ProductQueue)
    (m : Prog ProductQueue Served) : Prop :=
  ∀ s q', (m q).returned = some (s, q') → s.handler = h ∧ q' = q ∨ ∃ msg rep, msg.Valid ∧
    (h.onMessage D acl peer env.opened env.mapped msg q).returned = some ((rep, s.handler), q')

theorem passes_pure {s : Served} (hs : s.handler = h) : Passes D acl peer env h q (pure s) := by
  intro s' q' hrun
  cases hrun
  exact .inl ⟨hs, rfl⟩

theorem ask_passes {m : Option Message} {answer : Reply → List RpcReply × Bool} (hv : ∀ m' ∈ m, m'.Valid) :
    Passes D acl peer env h q (ask D acl peer env h m answer) := by
  intro s q' hrun
  cases m with
  | none =>
    cases hrun
    exact .inl ⟨rfl, rfl⟩
  | some msg =>
    rw [ask, returned_bind] at hrun
    obtain ⟨⟨rep, h'⟩, q₁, hmsg, hret⟩ := hrun
    cases hret
    exact .inr ⟨msg, rep, hv msg rfl, hmsg⟩

theorem valid_map {α : Type} {x : Option α} {f : α → Message} (hf : ∀ v ∈ x, (f v).Valid) : ∀ m ∈ x.map f, m.Valid := by
  intro m hm
  obtain ⟨v, hv, rfl⟩ := Option.map_eq_some_iff.1 hm
  exact hf v hv

theorem dispatchDataPlaneRpc_passes {m : Prog ProductQueue Served}
    (hm : dispatchDataPlaneRpc D acl peer env call h = some m) : Passes D acl peer env h q m := by
  unfold dispatchDataPlaneRpc at hm
  split at hm
  · cases hm
    exact ask_passes (valid_map fun _ hdec => (gives_product env).of_decode hdec)
  split at hm
  · cases hm
    exact ask_passes (valid_map fun _ hdec => gives_comingsoon.of_decode hdec)
  split at hm
  · cases hm
    exact ask_passes (valid_map fun _ _ => trivial)
  split at hm
  · cases hm
    exact passes_pure rfl
  · cases hm

theorem dispatcher_data {m : Prog ProductQueue Served} (hm : dispatchDataPlaneRpc D acl peer env call h = some m) :
    dispatcher D acl peer env call h = m := by
  cases h with
  | upstream h =>
    rw [dispatcher, serverDispatcher6, hm]
    rfl
  | downstream h =>
    rw [dispatcher, clientDispatcher6, hm]
    rfl

/-- **A call that is dispatched** is a message to the handler, or nothing. -/
theorem dispatcher_passes : Passes D acl peer env h q (dispatcher D acl peer env call h) := by
  cases hm : dispatchDataPlaneRpc D acl peer env call h with
  | some m =>
    rw [dispatcher_data hm]
    exact dispatchDataPlaneRpc_passes hm
  | none =>
    cases h with
    | downstream h =>
      rw [dispatcher, clientDispatcher6, hm]
      exact passes_pure rfl
    | upstream h =>
      rw [dispatcher, serverDispatcher6, hm, Option.getD_none]
      split
      · exact passes_pure rfl
      split
      · exact ask_passes (valid_map fun _ _ => trivial)
      split
      · exact ask_passes (valid_map fun _ _ => trivial)
      split
      · split
        all_goals exact passes_pure rfl
      split
      · exact ask_passes (valid_map fun _ _ => trivial)
      · exact passes_pure rfl

/-! ## Connections -/

structure Connection where
  handler : Handler
  queue : ProductQueue
  done : Bool := false

namespace Connection

/-- A call arrives, or another client does an operation on the queue. -/
inductive Action where
  | call (env : RpcEnv) (call : RpcCall)
  | other (op : QueueOp)

def next (D : DataSection) (acl : AclManager) (peer : PeerContext) : Action → Connection → Option Connection
  | .call env call, c =>
    if c.done then none
    else (dispatcher D acl peer env call c.handler c.queue).returned.map fun (s, q') => ⟨s.handler, q', s.done⟩
  | .other op, c => (op.run D c.queue).returned.map fun (_, q') => { c with queue := q' }

def session (c : Connection) : Session := { handler := c.handler, queue := c.queue }

/-- The calls are any at all. Other clients leave the entry alone that the handler holds. -/
def Allowed (Q : QueueOp → Prop) (c : Connection) : Action → Prop
  | .call _ _ => True
  | .other op => Q op ∧ op.Valid c.queue ∧ c.session.Leaves op

/-- A new handler on a queue that clients have used. -/
def Opened (D : DataSection) (Q : QueueOp → Prop) (c : Connection) : Prop :=
  c.handler.IsNew ∧ ∃ a, Rdm.Reached D Q a ∧ c.queue = a.queue

theorem reached_call {Q : QueueOp → Prop} {c c' : Connection}
    (h : Transitions.Reached (next D acl peer) (Allowed Q) (Opened D Q) c)
    (hn : next D acl peer (.call env call) c = some c') : Transitions.Reached (next D acl peer) (Allowed Q)
    (Opened D Q) c' :=
  h.step (a := .call env call) trivial hn

def IsSession (D : DataSection) (acl : AclManager) (peer : PeerContext) (Q : QueueOp → Prop) (c : Connection) : Prop :=
  ∃ x : Session, Session.Reached D acl peer Q (fun _ _ _ => True) x ∧ x.handler = c.handler ∧ x.queue = c.queue

theorem IsSession.next {Q : QueueOp → Prop} {c c' : Connection} {a : Action} (hc : IsSession D acl peer Q c)
    (ha : Allowed Q c a) (hnext : next D acl peer a c = some c') : IsSession D acl peer Q c' := by
  obtain ⟨x, hreach, hh, hq⟩ := hc
  cases a with
  | call env call =>
    rw [Connection.next] at hnext
    split at hnext
    case isTrue => cases hnext
    case isFalse =>
      obtain ⟨⟨s, q'⟩, hrun, rfl⟩ := Option.map_eq_some_iff.1 hnext
      rcases dispatcher_passes s q' hrun with ⟨hs, rfl⟩ | ⟨m, reply, hv, hmsg⟩
      · exact ⟨x, hreach, hh.trans hs.symm, hq⟩
      · rw [← hh, ← hq] at hmsg
        exact ⟨_, hreach.step (.call (.mk trivial hv hmsg)), rfl, rfl⟩
  | other op =>
    obtain ⟨⟨res, q'⟩, hrun, rfl⟩ := Option.map_eq_some_iff.1 hnext
    obtain ⟨hQ, hv, hl⟩ := ha
    have hl : x.Leaves op := by
      rw [Session.Leaves, hh, hq]
      exact hl
    rw [← hq] at hv hrun
    exact ⟨_, hreach.step (.other hQ hv hl hrun), hh, rfl⟩

/-- **Calls are messages.** Whatever bytes arrive on a connection, and whatever other clients do, it is a session with
well-formed messages; so a block is only copied into the payload of the entry that the handler holds. -/
theorem calls_are_messages (D : DataSection) (acl : AclManager) (peer : PeerContext) (Q : QueueOp → Prop)
    {c : Connection} (h : Transitions.Reached (next D acl peer) (Allowed Q) (Opened D Q) c) :
    IsSession D acl peer Q c ∧ ∀ signature data, c.handler.Accepts signature data → ∃ r,
      c.handler.receiver.entry = some (.held r) ∧ r ∈ c.queue.reserved ∧
      c.handler.receiver.blkMmapPointer = some r.payload ∧
      c.handler.receiver.offset + data.length ≤ r.info.sz.toNat := by
  have hsession : IsSession D acl peer Q c := by
    refine h.invariant (fun c hc => ?_) fun c a c' hc ha hnext => hc.next ha hnext
    obtain ⟨hnew, a, ha, hq⟩ := hc
    exact ⟨⟨c.handler, a.queue, none, [], []⟩, .start hnew ha, rfl, hq.symm⟩
  obtain ⟨x, hreach, hh, hq⟩ := id hsession
  refine ⟨hsession, fun signature data hacc => ?_⟩
  obtain ⟨st, hi⟩ := hreach.inv
  have hrec := hi.receiver
  rw [hh] at hrec
  obtain ⟨tr, -, hp⟩ := hrec.pending hacc.2.1
  obtain ⟨-, old, -, -, hd, -⟩ := hrec.held _ hp.entry
  refine ⟨tr.reservation, hp.entry, hq ▸ hi.holds.2 ▸ mem_map_of_mem hd, hp.pointer, ?_⟩
  have hlen := hacc.2.2.2
  have hrem := hp.remaining
  rw [hp.info, Receiver.offset]
  omega

def announcement : RpcCall := ⟨COMINGSOON, putNetComingsoonArgs ⟨Session.shortInfo, 4⟩⟩

def block (data : List UInt8) : RpcCall :=
    ⟨BLKDATA, (Signature.fill 1).bytes ++ (word 0 ++ (stringPieces data).flatten)⟩

/-- A product of four bytes is announced, two bytes of it come, and then a call that nobody can decode. -/
theorem calls_are_messages_block : ∃ c, Transitions.Reached (next smallSection noRules somePeer) (Allowed fun _ => True)
      (Opened smallSection fun _ => True) c ∧ c.handler.Accepts (Signature.fill 1) [3, 4] ∧
    ∃ r, c.handler.receiver.entry = some (.held r) ∧ r ∈ c.queue.reserved := by
  obtain ⟨a, ha, c₁, h₁, c₂, h₂, c₃, h₃, hacc⟩ : ∃ a, Rdm.Reached smallSection (fun _ => True) a ∧
      ∃ c₁, next smallSection noRules somePeer (.call {} announcement) ⟨.upstream {}, a.queue, false⟩ = some c₁ ∧
      ∃ c₂, next smallSection noRules somePeer (.call {} (block [1, 2])) c₁ = some c₂ ∧
      ∃ c₃, next smallSection noRules somePeer (.call {} ⟨HEREIS, [1, 2]⟩) c₂ = some c₃ ∧
        c₃.handler.Accepts (Signature.fill 1) [3, 4] := by
    apply exists_computed tick []
    decide +kernel
  have hnew : Opened smallSection (fun _ => True) ⟨.upstream {}, a.queue, false⟩ := ⟨rfl, a, ha, rfl⟩
  have hreach := reached_call (reached_call (reached_call (.start hnew) h₁) h₂) h₃
  obtain ⟨-, hall⟩ := calls_are_messages _ _ _ _ hreach
  obtain ⟨r, hr, hm, -⟩ := hall _ _ hacc
  exact ⟨c₃, hreach, hacc, r, hr, hm⟩

end Connection

end SunRpc

end Rdm
