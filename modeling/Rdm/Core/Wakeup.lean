import Rdm.Core.Routes

/-!
# Waking the readers

Readers wait until the data version of the queue changes. `DownstreamClientHandler` calls `notifyReaders` after a commit
(`commit_notifies`), `UpstreamServerHandler` never does (`push_unnoticed`).
-/

namespace Rdm

open ProgLogic ProgLogic.Prog QueueIndexManager

/-- The queue with the data version of its control header. Every commit is noted with the version at that moment. -/
structure SharedQueue where
  queue : ProductQueue
  version : UInt64 := 0
  commits : List (ProdInfo × UInt64) := []

/-- What `notifyReaders` meets: whether the control region can be mapped, and the status of the mutex, after a recovery
from an abandoned one. -/
structure SyncState where
  ctlMapped : Bool
  mutexStatus : Int
deriving DecidableEq

def SyncState.Works (sync : SyncState) : Prop := sync.ctlMapped = true ∧ sync.mutexStatus = 0

instance (sync : SyncState) : Decidable sync.Works := inferInstanceAs (Decidable (_ ∧ _))

namespace SharedQueue

variable {α : Type}

def committing (product : α → Option ProdInfo) (m : Prog ProductQueue α) : Prog SharedQueue α := do
  let a ← zoom (·.queue) (fun q s => { s with queue := q }) m
  modify fun s => { s with commits := s.commits ++ (product a).toList.map (·, s.version) }
  return a

def insert (D : DataSection) (info : ProdInfo) (data : List UInt8) (mapped : Bool) : Prog SharedQueue Int :=
  committing (fun error => if error = 0 then some info else none) (ProductQueue.insert D info data mapped)

def blkData (signature : Signature) (data : List UInt8) (s : Receiver) : Prog SharedQueue (Int × Receiver) :=
  committing (fun res => s.completes signature data res.1) (s.blkData signature data)

def notifyReaders (sync : SyncState) : Prog SharedQueue Int :=
  if sync.ctlMapped = false then return EINVAL
  else if sync.mutexStatus ≠ 0 then return sync.mutexStatus
  else do
    modify fun s => { s with version := s.version + 1 }
    return 0

end SharedQueue

/-! ## The handlers -/

namespace DownstreamClientHandler

def onHereIsShared (D : DataSection) (peer : PeerContext) (sync : SyncState) (mapped : Bool) (info : ProdInfo)
    (data : List UInt8) (h : DownstreamClientHandler) : Prog SharedQueue (Int × DownstreamClientHandler) :=
  if h.hasQueue = false then return (PqStatus.system.toInt, h)
  else do
    let error ← SharedQueue.insert D (peer.received info) data mapped
    if error = 0 then
      let _ ← SharedQueue.notifyReaders sync
    return (error, h.settled (peer.received info) error)

def onBlkDataShared (sync : SyncState) (signature : Signature) (data : List UInt8) (h : DownstreamClientHandler) :
    Prog SharedQueue (Int × DownstreamClientHandler) :=
  if h.hasQueue = false then return (0, h)
  else do
    let res ← SharedQueue.blkData signature data h.receiver
    let done := h.receiver.Accepts signature data ∧ data.length = h.receiver.remaining
    if done ∧ res.1 = 0 then
      let _ ← SharedQueue.notifyReaders sync
    return (res.1, { (if done then h.settled h.receiver.pending res.1 else h) with receiver := res.2 })

end DownstreamClientHandler

namespace Handler

def onShared (D : DataSection) (acl : AclManager) (peer : PeerContext) (sync : SyncState) (opened mapped : Bool)
    (h : Handler) (m : Message) : Prog SharedQueue (Reply × Handler) :=
  match h, m with
  | .downstream h, .hereIs info data => do
    let res ← h.onHereIsShared D peer sync mapped info data
    return (.status res.1, .downstream res.2)
  | .downstream h, .blkData signature data => do
    let res ← h.onBlkDataShared sync signature data
    return (.status res.1, .downstream res.2)
  | h, m => SharedQueue.committing (fun res => h.stores peer m res.1) (h.onMessage D acl peer opened mapped m)

def isDownstream : Handler → Bool
  | .upstream _ => false
  | .downstream _ => true

end Handler

/-! ## What a call leaves -/

variable {D : DataSection} {acl : AclManager} {peer : PeerContext} {sync : SyncState} {opened mapped : Bool}
  {s s' : SharedQueue}

theorem SharedQueue.committing_returned {α : Type} {product : α → Option ProdInfo} {m : Prog ProductQueue α} {a : α}
    (hrun : (committing product m s).returned = some (a, s')) : (m s.queue).returned = some (a, s'.queue) ∧
      s'.commits = s.commits ++ (product a).toList.map (·, s.version) ∧ s'.version = s.version := by
  obtain ⟨b, s1, hm, hrest⟩ := returned_bind.1 hrun
  obtain ⟨q', hq, rfl⟩ := returned_zoom.1 hm
  cases hrest
  exact ⟨hq, rfl, rfl⟩

theorem SharedQueue.notifyReaders_returned {status : Int} (hrun : (notifyReaders sync s).returned = some (status, s')) :
    s'.queue = s.queue ∧ s'.commits = s.commits ∧ s'.version = if sync.Works then s.version + 1 else s.version := by
  rw [notifyReaders] at hrun
  split at hrun
  case isTrue hno =>
    cases hrun
    rw [if_neg fun hw => Bool.false_ne_true (hno.symm.trans hw.1)]
    exact ⟨rfl, rfl, rfl⟩
  case isFalse hmap =>
    split at hrun
    case isTrue hno =>
      cases hrun
      rw [if_neg fun hw => hno hw.2]
      exact ⟨rfl, rfl, rfl⟩
    case isFalse hst =>
      cases hrun
      rw [if_pos ⟨Bool.eq_true_of_not_eq_false hmap, not_not.1 hst⟩]
      exact ⟨rfl, rfl, rfl⟩

theorem DownstreamClientHandler.onHereIsShared_returned {h : DownstreamClientHandler} {info : ProdInfo}
    {data : List UInt8} {res : Int × DownstreamClientHandler}
    (hrun : (h.onHereIsShared D peer sync mapped info data s).returned = some (res, s')) :
    (h.onHereIs D peer mapped info data s.queue).returned = some (res, s'.queue) ∧
      s'.commits = s.commits ++ (if res.1 = 0 then some (peer.received info) else none).toList.map (·, s.version) ∧
      s'.version = if res.1 = 0 ∧ sync.Works then s.version + 1 else s.version := by
  rw [onHereIsShared] at hrun
  split at hrun
  case isTrue hno =>
    cases hrun
    rw [onHereIs, if_pos hno]
    exact ⟨rfl, (List.append_nil _).symm, rfl⟩
  case isFalse hq =>
    obtain ⟨error, s1, hins, hrest⟩ := returned_bind.1 hrun
    obtain ⟨hret, hcommits, hversion⟩ := SharedQueue.committing_returned hins
    rw [onHereIs, if_neg hq, returned_bind]
    dsimp only at hrest
    split at hrest
    case isTrue hz =>
      obtain ⟨_, s2, hnot, hrest⟩ := returned_bind.1 hrest
      obtain ⟨hq2, hc2, hv2⟩ := SharedQueue.notifyReaders_returned hnot
      cases hrest
      refine ⟨⟨error, _, hret, ?_⟩, ?_, ?_⟩
      · rw [hq2]
        rfl
      · rw [hc2, hcommits]
      · rw [hv2, hversion]
        simp only [hz, true_and]
    case isFalse hz =>
      cases hrest
      refine ⟨⟨error, _, hret, rfl⟩, hcommits, ?_⟩
      rw [if_neg fun hw => hz hw.1, hversion]

theorem DownstreamClientHandler.onBlkDataShared_returned {h : DownstreamClientHandler} {signature : Signature}
    {data : List UInt8} {res : Int × DownstreamClientHandler} (hopen : h.hasQueue = true)
    (hrun : (h.onBlkDataShared sync signature data s).returned = some (res, s')) :
    (h.onBlkData signature data s.queue).returned = some (res, s'.queue) ∧
      s'.commits = s.commits ++ (h.receiver.completes signature data res.1).toList.map (·, s.version) ∧
      s'.version = if (h.receiver.completes signature data res.1).isSome ∧
      sync.Works then s.version + 1 else s.version := by
  have hq : h.hasQueue ≠ false := fun e => Bool.false_ne_true (e.symm.trans hopen)
  rw [onBlkDataShared, if_neg hq] at hrun
  obtain ⟨res', s1, hins, hrest⟩ := returned_bind.1 hrun
  obtain ⟨hret, hcommits, hversion⟩ := SharedQueue.committing_returned hins
  rw [onBlkData, if_neg hq, returned_bind]
  have hdone : ∀ code : Int, (h.receiver.completes signature data code).isSome = true ↔
      (h.receiver.Accepts signature data ∧ data.length = h.receiver.remaining) ∧ code = 0 := by
    intro code
    rw [Receiver.completes, Option.isSome_ite, and_assoc]
  dsimp only at hrest
  split at hrest
  case isTrue hz =>
    obtain ⟨_, s2, hnot, hrest⟩ := returned_bind.1 hrest
    obtain ⟨hq2, hc2, hv2⟩ := SharedQueue.notifyReaders_returned hnot
    cases hrest
    refine ⟨⟨res', _, hret, ?_⟩, ?_, ?_⟩
    · rw [hq2]
      rfl
    · rw [hc2, hcommits]
    · rw [hv2, hversion]
      simp only [(hdone _).2 hz, true_and]
  case isFalse hz =>
    cases hrest
    refine ⟨⟨res', _, hret, rfl⟩, hcommits, ?_⟩
    rw [if_neg fun hw => hz ((hdone _).1 hw.1), hversion]

/-- **What a message leaves**: the queue is as without the notes, the product that it stores is noted, and a client has
notified the readers of it. -/
theorem Handler.onShared_returned {h : Handler} {m : Message} {res : Reply × Handler}
    (hrun : (h.onShared D acl peer sync opened mapped m s).returned = some (res, s')) :
    (h.onMessage D acl peer opened mapped m s.queue).returned = some (res, s'.queue) ∧
      s'.commits = s.commits ++ (h.stores peer m res.1).toList.map (·, s.version) ∧
      s'.version = if h.isDownstream ∧ (h.stores peer m res.1).isSome ∧
      sync.Works then s.version + 1 else s.version := by
  unfold onShared at hrun
  split at hrun
  case h_1 h info data =>
    obtain ⟨res', s1, hcall, hrest⟩ := returned_bind.1 hrun
    cases hrest
    obtain ⟨hret, hcommits, hversion⟩ := DownstreamClientHandler.onHereIsShared_returned hcall
    refine ⟨returned_bind.2 ⟨res', _, hret, rfl⟩, hcommits, ?_⟩
    rw [hversion]
    simp [isDownstream, stores]
  case h_2 h signature data =>
    obtain ⟨res', s1, hcall, hrest⟩ := returned_bind.1 hrun
    cases hrest
    cases hopen : h.hasQueue with
    | false =>
      rw [DownstreamClientHandler.onBlkDataShared, if_pos hopen] at hcall
      cases hcall
      have hret : (h.onBlkData signature data s.queue).returned = some ((0, h), s.queue) := by
        rw [DownstreamClientHandler.onBlkData, if_pos hopen]
        rfl
      refine ⟨returned_bind.2 ⟨_, _, hret, rfl⟩, ?_, ?_⟩ <;> simp [stores, isOpen, hopen]
    | true =>
      obtain ⟨hret, hcommits, hversion⟩ := DownstreamClientHandler.onBlkDataShared_returned hopen hcall
      have hstores : (Handler.downstream h).stores peer (.blkData signature data) (.status res'.1) =
          h.receiver.completes signature data res'.1 := if_pos hopen
      refine ⟨returned_bind.2 ⟨res', _, hret, rfl⟩, ?_, ?_⟩
      · rw [hstores, hcommits]
      · rw [hstores, hversion]
        simp only [isDownstream, true_and]
  case h_3 hhere hblk =>
    obtain ⟨hret, hcommits, hversion⟩ := SharedQueue.committing_returned hrun
    refine ⟨hret, hcommits, hversion.trans (if_neg ?_).symm⟩
    -- a client stores nothing with any other message
    rintro ⟨hdown, hsome, -⟩
    cases h with
    | upstream => cases hdown
    | downstream h =>
      cases m with
      | hereIs info data => exact hhere h info data rfl rfl
      | blkData signature data => exact hblk h signature data rfl rfl
      | hiya | feedMe | comingSoon => cases hsome

/-- **A client notifies the readers of every product that it stores**: a message that commits a product leaves a data
version that is greater by one than at the commit. -/
theorem commit_notifies (D : DataSection) (acl : AclManager) (peer : PeerContext) (Q : QueueOp → Prop)
    (P : Session → Message → Bool → Prop) {x : Session} (hx : Session.Reached D acl peer Q P x)
    (hdown : x.handler.isDownstream = true) {sync : SyncState} (hsync : sync.Works) {opened mapped : Bool} {m : Message}
    (hv : m.Valid) {version : UInt64} {commits : List (ProdInfo × UInt64)} {reply : Reply} {h' : Handler}
      {s' : SharedQueue}
    (hrun : (x.handler.onShared D acl peer sync opened mapped m ⟨x.queue, version, commits⟩).returned =
      some ((reply, h'), s')) :
    ∃ new, s'.commits = commits ++ new ∧ (∀ c ∈ new, s'.version = c.2 + 1) ∧
      ∀ p ∈ s'.queue.ix.times, p ∈ x.queue.ix.times ∨ new ≠ [] := by
  obtain ⟨hret, hcommits, hversion⟩ := Handler.onShared_returned hrun
  obtain ⟨st, hi⟩ := hx.inv
  obtain ⟨⟨st', hrec⟩, -⟩ := (Handler.onMessage_spec hi.holds hi.receiver hv opened mapped).of_returned hret
  refine ⟨_, hcommits, fun c hc => ?_, fun p hp => (hrec.fresh p hp).imp_right ?_⟩
  · obtain ⟨info, hinfo, rfl⟩ := List.mem_map.1 hc
    rw [hversion, if_pos ⟨hdown, Option.isSome_iff_exists.2 ⟨info, Option.mem_toList.1 hinfo⟩, hsync⟩]
  · rintro ⟨pg, -, -, hnew⟩
    rw [hnew]
    exact List.cons_ne_nil _ _

open Session (noRules somePeer shortInfo)

def firstPush (h : Handler) : Option (Session × (Reply × Handler) × SharedQueue) :=
  (computedRun smallSection tick []).bind fun a =>
    ((h.onShared smallSection noRules somePeer ⟨true, 0⟩ true true (.hereIs shortInfo [1, 2, 3, 4])
      ⟨a.queue, 0, []⟩).returned.map fun res => (⟨h, a.queue, none, [], []⟩, res))

theorem firstPush_reached {h : Handler} (hnew : h.IsNew) {x : Session} {res : (Reply × Handler) × SharedQueue}
    (hrun : firstPush h = some (x, res)) :
    Session.Reached smallSection noRules somePeer (fun _ => True) (fun _ _ _ => True) x ∧ x.handler = h ∧
      (x.handler.onShared smallSection noRules somePeer ⟨true, 0⟩ true true
        (.hereIs shortInfo [1, 2, 3, 4]) ⟨x.queue, 0, []⟩).returned = some res := by
  obtain ⟨a, ha, hcall⟩ := Option.bind_eq_some_iff.1 hrun
  obtain ⟨res', hcall, he⟩ := Option.map_eq_some_iff.1 hcall
  cases he
  exact ⟨.start hnew (computedRun_reached (fun _ h => absurd h List.not_mem_nil) ha), rfl, hcall⟩

theorem commit_notifies_first : ∃ x reply h' s', Session.Reached smallSection noRules somePeer
    (fun _ => True)
      (fun _ _ _ => True) x ∧ x.handler.isDownstream = true ∧
    (x.handler.onShared smallSection noRules somePeer ⟨true, 0⟩ true true
      (.hereIs shortInfo [1, 2, 3, 4]) ⟨x.queue, 0, []⟩).returned = some ((reply, h'), s') ∧
    s'.commits = [(somePeer.received shortInfo, 0)] ∧
    ∃ new, s'.commits = [] ++ new ∧ (∀ c ∈ new, s'.version = c.2 + 1) ∧
      ∀ p ∈ s'.queue.ix.times, p ∈ x.queue.ix.times ∨ new ≠ [] := by
  have hrun : (firstPush (.downstream ⟨true, {}, [], 0⟩)).map (fun res => res.2.2.commits) =
      some [(somePeer.received shortInfo, 0)] := by
    decide +kernel
  obtain ⟨⟨x, ⟨reply, h'⟩, s'⟩, hpush, hcommits⟩ := Option.map_eq_some_iff.1 hrun
  have hnew : (Handler.downstream ⟨true, {}, [], 0⟩).IsNew := rfl
  obtain ⟨hx, hh, hcall⟩ := firstPush_reached hnew hpush
  have hdown : x.handler.isDownstream = true := by
    rw [hh]
    rfl
  exact ⟨x, reply, h', s', hx, hdown, hcall, hcommits,
    commit_notifies _ _ _ _ _ hx hdown (by decide) (by decide) hcall⟩

/-- **A server does not notify the readers**: a product that is pushed to it is in the queue, and the data version is
what it was. -/
theorem push_unnoticed : ∃ x reply h' s', Session.Reached smallSection noRules somePeer
    (fun _ => True)
      (fun _ _ _ => True) x ∧ x.queue.ix.times = [] ∧
    (x.handler.onShared smallSection noRules somePeer ⟨true, 0⟩ true true
      (.hereIs shortInfo [1, 2, 3, 4]) ⟨x.queue, 0, []⟩).returned = some ((reply, h'), s') ∧
    s'.commits = [(somePeer.received shortInfo, 0)] ∧ s'.queue.ix.times.length = 1 ∧ s'.version = 0 := by
  obtain ⟨⟨x, ⟨reply, h'⟩, s'⟩, hpush, hempty, hrest⟩ : ∃ res, firstPush (.upstream {}) = some res ∧
      res.1.queue.ix.times = [] ∧ res.2.2.commits = [(somePeer.received shortInfo, 0)] ∧
      res.2.2.queue.ix.times.length = 1 ∧ res.2.2.version = 0 := by
    decide +kernel
  have hnew : (Handler.upstream {}).IsNew := rfl
  obtain ⟨hx, -, hcall⟩ := firstPush_reached hnew hpush
  exact ⟨x, reply, h', s', hx, hempty, hcall, hrest⟩

end Rdm
