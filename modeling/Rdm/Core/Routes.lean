import Rdm.Core.Sessions

/-!
# Two routes for a product

A product is sent whole (`HEREIS`) or announced and in blocks (`COMINGSOON`, then `BLKDATA`). Both routes leave the
queue with the same products.
-/

namespace Rdm

open ProgLogic ProgLogic.Prog Xdr SunRpcSerializer QueueIndexManager List
open ProductQueue (commit encodeEntry)

variable {D : DataSection} {q q' : ProductQueue} {st : Store} {acl : AclManager} {peer : PeerContext} {h h' : Handler}
variable {data : List UInt8}
  {info : ProdInfo} {opened mapped : Bool} {reply : Reply}

/-! ## The routes -/

theorem DownstreamClientHandler.refused_hasQueue (h : DownstreamClientHandler) (info : ProdInfo) (status : Int) :
    (h.refused info status).hasQueue = h.hasQueue := by
  unfold refused
  split
  all_goals rfl

theorem DownstreamClientHandler.settled_hasQueue (h : DownstreamClientHandler) (info : ProdInfo) (error : Int) :
    (h.settled info error).hasQueue = h.hasQueue := by
  unfold settled
  split
  · rfl
  · exact h.refused_hasQueue info error

namespace Handler

def sendPackets (D : DataSection) (acl : AclManager) (peer : PeerContext) (opened mapped : Bool)
    (signature : Signature) : List (List UInt8) → Reply × Handler → Prog ProductQueue (Reply × Handler)
  | [], res => return res
  | data :: packets, res => do
    let res ← res.2.onMessage D acl peer opened mapped (.blkData signature data)
    sendPackets D acl peer opened mapped signature packets res

def sendBlocks (D : DataSection) (acl : AclManager) (peer : PeerContext) (opened mapped : Bool) (info : ProdInfo)
    (packets : List (List UInt8)) (h : Handler) : Prog ProductQueue (Reply × Handler) := do
  let res ← h.onMessage D acl peer opened mapped (.comingSoon info)
  if res.1 = .status 0 then sendPackets D acl peer opened mapped info.signature packets res else return res

def opens (opened : Bool) : Handler → Bool
  | .upstream h => h.queueOpen || opened
  | .downstream h => h.hasQueue

theorem withStatus_returned {α : Type} {make : α → Handler} {m : Prog ProductQueue (Int × α)}
    {r : (Reply × Handler) × ProductQueue} (h : (withStatus make m q).returned = some r) :
    ∃ res, (m q).returned = some (res, r.2) ∧ r.1 = (.status res.1, make res.2) := by
  rw [withStatus, returned_bind] at h
  obtain ⟨res, q', hm, hr⟩ := h
  cases hr
  exact ⟨res, hm, rfl⟩

theorem closed_returned (hopen : h.opens opened = false) {m : Message} (hm : m.product = some info)
    (hrun : (h.onMessage D acl peer opened mapped m q).returned = some ((reply, h'), q')) :
    reply = .status PqStatus.system.toInt ∧ q' = q := by
  cases h with
  | upstream h =>
    have hopen : (h.ensureQueueOpen opened).queueOpen = false := hopen
    cases m with
    | hereIs info data =>
      obtain ⟨res, hrun, hr⟩ := withStatus_returned hrun
      rw [UpstreamServerHandler.onHereIs, if_pos hopen] at hrun
      cases hrun
      exact ⟨congrArg Prod.fst hr, rfl⟩
    | comingSoon info =>
      obtain ⟨res, hrun, hr⟩ := withStatus_returned hrun
      rw [UpstreamServerHandler.onComingSoon, if_pos hopen] at hrun
      cases hrun
      exact ⟨congrArg Prod.fst hr, rfl⟩
    | hiya | feedMe | blkData => cases hm
  | downstream h =>
    have hopen : h.hasQueue = false := hopen
    cases m with
    | hereIs info data =>
      obtain ⟨res, hrun, hr⟩ := withStatus_returned hrun
      rw [DownstreamClientHandler.onHereIs, if_pos hopen] at hrun
      cases hrun
      exact ⟨congrArg Prod.fst hr, rfl⟩
    | comingSoon info =>
      obtain ⟨res, hrun, hr⟩ := withStatus_returned hrun
      rw [DownstreamClientHandler.onComingSoon, if_pos hopen] at hrun
      cases hrun
      exact ⟨congrArg Prod.fst hr, rfl⟩
    | hiya | feedMe | blkData => cases hm

theorem hereIs_returned (hopen : h.opens opened = true)
    (hrun : (h.onMessage D acl peer opened mapped (.hereIs info data) q).returned = some ((reply, h'), q')) :
    ∃ status, (ProductQueue.insert D (peer.received info) data mapped q).returned = some (status, q') ∧
      reply = .status status := by
  cases h with
  | upstream h =>
    obtain ⟨res, hrun, hr⟩ := withStatus_returned hrun
    rw [UpstreamServerHandler.onHereIs, if_neg fun e => Bool.false_ne_true (e.symm.trans hopen), returned_bind] at hrun
    obtain ⟨status, q1, hi, hp⟩ := hrun
    cases hp
    exact ⟨status, hi, congrArg Prod.fst hr⟩
  | downstream h =>
    obtain ⟨res, hrun, hr⟩ := withStatus_returned hrun
    rw [DownstreamClientHandler.onHereIs, if_neg fun e => Bool.false_ne_true (e.symm.trans hopen),
      returned_bind] at hrun
    obtain ⟨status, q1, hi, hp⟩ := hrun
    cases hp
    exact ⟨status, hi, congrArg Prod.fst hr⟩

theorem comingSoon_returned (hopen : h.opens opened = true)
    (hrun : (h.onMessage D acl peer opened mapped (.comingSoon info) q).returned = some ((reply, h'), q')) :
    h'.isOpen = true ∧ ∃ res, (h.receiver.comingSoon D mapped (peer.received info) q).returned = some (res, q') ∧
      reply = .status res.1 ∧ h'.receiver = res.2 := by
  cases h with
  | upstream h =>
    obtain ⟨res, hrun, hr⟩ := withStatus_returned hrun
    obtain ⟨rfl, rfl⟩ := Prod.mk.inj hr
    rw [UpstreamServerHandler.onComingSoon, if_neg fun e => Bool.false_ne_true (e.symm.trans hopen),
      returned_bind] at hrun
    obtain ⟨res', q1, hi, hp⟩ := hrun
    cases hp
    exact ⟨hopen, res', hi, rfl, rfl⟩
  | downstream h =>
    obtain ⟨res, hrun, hr⟩ := withStatus_returned hrun
    obtain ⟨rfl, rfl⟩ := Prod.mk.inj hr
    rw [DownstreamClientHandler.onComingSoon, if_neg fun e => Bool.false_ne_true (e.symm.trans hopen),
      returned_bind] at hrun
    obtain ⟨res', q1, hi, hp⟩ := hrun
    cases hp
    exact ⟨(h.refused_hasQueue _ _).trans hopen, res', hi, rfl, rfl⟩

theorem blkData_returned (hopen : h.isOpen = true) {signature : Signature}
    (hrun : (h.onMessage D acl peer opened mapped (.blkData signature data) q).returned = some ((reply, h'), q')) :
    h'.isOpen = true ∧ ∃ res, (h.receiver.blkData signature data q).returned = some (res, q') ∧ reply = .status res.1 ∧
      h'.receiver = res.2 := by
  cases h with
  | upstream h =>
    obtain ⟨res, hrun, hr⟩ := withStatus_returned hrun
    obtain ⟨rfl, rfl⟩ := Prod.mk.inj hr
    rw [UpstreamServerHandler.onBlkData, if_neg fun e => Bool.false_ne_true (e.symm.trans hopen), returned_bind] at hrun
    obtain ⟨res', q1, hi, hp⟩ := hrun
    cases hp
    exact ⟨hopen, res', hi, rfl, rfl⟩
  | downstream h =>
    obtain ⟨res, hrun, hr⟩ := withStatus_returned hrun
    obtain ⟨rfl, rfl⟩ := Prod.mk.inj hr
    rw [DownstreamClientHandler.onBlkData, if_neg fun e => Bool.false_ne_true (e.symm.trans hopen),
      returned_bind] at hrun
    obtain ⟨res', q1, hi, hp⟩ := hrun
    cases hp
    refine ⟨?_, res', hi, rfl, rfl⟩
    show (if _ then h.settled _ _ else h).hasQueue = true
    split
    · exact (h.settled_hasQueue _ _).trans hopen
    · exact hopen

end Handler

/-! ## The blocks -/

def ProductQueue.written (pos : Int) (bytes : List UInt8) (q : ProductQueue) : ProductQueue :=
  { q with ix := setDisk (writeBytes q.ix.env.disk pos bytes) q.ix }

theorem ProductQueue.written_append (pos : Int) (as bs : List UInt8) (q : ProductQueue) :
    (q.written pos as).written (pos + as.length) bs = q.written pos (as ++ bs) :=
  congrArg (fun disk => { q with ix := setDisk disk q.ix }) (writeBytes_append q.ix.env.disk pos as bs)

namespace Receiver

variable {s : Receiver} {r : Reservation} {signature : Signature} {data : List UInt8} {res : Int × Receiver}

/-- A receiver that waits for blocks of the entry `r`. -/
structure Awaits (s : Receiver) (r : Reservation) : Prop where
  expectBlkdata : s.expectBlkdata = true
  entry : s.entry = some (.held r)
  pointer : s.blkMmapPointer = some r.payload
  info : s.pending = r.info
  remaining : s.remaining ≤ r.info.sz.toNat

theorem finish_returned (he : s.entry = some (.held r)) (hrun : (s.finish q).returned = some (res, q')) :
    (commit (q.reserved.idxOf r) q).returned = some (res.1, q') := by
  rw [finish, he, Option.getD_some, returned_bind] at hrun
  obtain ⟨res1, q1, hcommit, hrun⟩ := hrun
  rw [QueueEntry.commit, returned_bind] at hcommit
  obtain ⟨_, _, hread, hcommit⟩ := hcommit
  cases hread
  rw [returned_bind] at hcommit
  obtain ⟨status, q2, hcommit, hpure⟩ := hcommit
  cases hpure
  dsimp only at hrun
  split at hrun
  case isTrue hst =>
    -- the entry is released already, so that there is nothing to roll back
    rw [returned_bind] at hrun
    obtain ⟨_, _, hroll, hrun⟩ := hrun
    cases hroll
    cases hrun
    exact hcommit
  case isFalse =>
    cases hrun
    exact hcommit

theorem Awaits.blkData_returned (hw : s.Awaits r) (hsig : r.info.signature = signature)
    (hlen : data.length ≤ s.remaining) (hrun : (s.blkData signature data q).returned = some (res, q')) :
    if s.remaining = data.length then (commit (q.reserved.idxOf r)
      (q.written (r.payload + s.offset) data)).returned = some (res.1, q')
    else q' = q.written (r.payload + s.offset) data ∧ res.2 = { s with remaining := s.remaining - data.length } := by
  have hacc : s.Accepts signature data := ⟨hw.expectBlkdata, by rw [hw.info, hsig], hlen⟩
  rw [blkData, if_neg fun e => Bool.false_ne_true (e.symm.trans hw.expectBlkdata), if_pos hacc, returned_bind] at hrun
  obtain ⟨_, q1, hcopy, hrun⟩ := hrun
  have hq1 : q1 = q.written (r.payload + s.offset) data := by
    rw [hw.pointer] at hcopy
    cases hcopy
    rfl
  subst hq1
  dsimp only at hrun
  split at hrun
  case isTrue hlast =>
    rw [if_pos (by omega)]
    exact finish_returned (s := { s with remaining := s.remaining - data.length }) hw.entry hrun
  case isFalse hmore =>
    rw [if_neg (by omega)]
    cases hrun
    exact ⟨rfl, rfl⟩

end Receiver

/-- **The blocks of a product** are written one behind the other, and then the entry is committed. -/
theorem Handler.sendPackets_returned {r : Reservation} : ∀ {packets : List (List UInt8)} {res res' : Reply × Handler}
    {q : ProductQueue}, packets ≠ [] → (∀ p ∈ packets, p ≠ []) → res.2.isOpen = true → res.2.receiver.Awaits r →
    res.2.receiver.remaining = packets.flatten.length →
    (sendPackets D acl peer opened mapped r.info.signature packets res q).returned = some (res', q') →
    ∃ status, (commit (q.reserved.idxOf r)
      (q.written (r.payload + res.2.receiver.offset) packets.flatten)).returned = some (status, q') ∧
        res'.1 = .status status
  | [], _, _, _, hne, _, _, _, _, _ => absurd rfl hne
  | data :: packets, (reply, h), res', q, _, hall, hopen, hw, hrem, hrun => by
    rw [sendPackets, returned_bind] at hrun
    obtain ⟨⟨reply1, h1⟩, q1, hmsg, hrun⟩ := hrun
    obtain ⟨hopen1, res1, hblk, rfl, hh1⟩ := blkData_returned hopen hmsg
    rw [flatten_cons, length_append] at hrem
    have hout := hw.blkData_returned rfl (by omega) hblk
    cases packets with
    | nil =>
      rw [if_pos (by simpa using hrem)] at hout
      cases hrun
      exact ⟨res1.1, by simpa using hout, rfl⟩
    | cons p packets =>
      -- more blocks follow, and they are not empty
      have hpos : 0 < p.length := length_pos_iff.2 (hall p (by simp))
      rw [if_neg (by simp at hrem ⊢; omega)] at hout
      obtain ⟨rfl, hres1⟩ := hout
      have hw1 : h1.receiver.Awaits r := by
        rw [hh1, hres1]
        exact ⟨hw.expectBlkdata, hw.entry, hw.pointer, hw.info, (Nat.sub_le _ _).trans hw.remaining⟩
      have hrem1 : h1.receiver.remaining = (p :: packets).flatten.length := by
        rw [hh1, hres1]
        show h.receiver.remaining - data.length = _
        dsimp only at hrem
        omega
      have hoff1 : h1.receiver.offset = h.receiver.offset + data.length := by
        have hsz : h.receiver.remaining ≤ h.receiver.pending.sz.toNat := hw.info ▸ hw.remaining
        rw [hh1, hres1]
        show h.receiver.pending.sz.toNat - (h.receiver.remaining - data.length) =
          h.receiver.pending.sz.toNat - h.receiver.remaining + data.length
        dsimp only at hrem
        omega
      obtain ⟨status, hcommit, hstatus⟩ := sendPackets_returned (cons_ne_nil _ _)
        (fun p' hp' => hall p' (mem_cons_of_mem _ hp')) hopen1 hw1 hrem1 hrun
      refine ⟨status, ?_, hstatus⟩
      rw [flatten_cons, ← ProductQueue.written_append]
      have hpos1 : r.payload + (h1.receiver.offset : Int) = r.payload + h.receiver.offset + data.length := by
        rw [hoff1]
        omega
      rw [hpos1] at hcommit
      exact hcommit

/-! ## From the reservation on -/

theorem Receiver.rollback_returned {s s' : Receiver} (hentry : ∀ r, s.entry ≠ some (.held r))
    (hrun : (s.rollback q).returned = some (s', q')) : s'.pending = s.pending ∧ q' = q := by
  cases he : s.entry with
  | none =>
    rw [rollback, he] at hrun
    cases hrun
    exact ⟨rfl, rfl⟩
  | some e =>
    rw [rollback, he] at hrun
    cases e with
    | held r => exact absurd he (hentry r)
    | committed | released =>
      cases hrun
      exact ⟨rfl, rfl⟩

theorem Receiver.comingSoon_returned {s : Receiver} {res : Int × Receiver} (hexp : s.expectBlkdata = false)
    (hentry : ∀ r, s.entry ≠ some (.held r)) (hrun : (s.comingSoon D mapped info q).returned = some (res, q')) :
    (ProductQueue.newElement D info mapped q).returned = some (res.1, q') ∧ (res.1 = 0 → ∀ r,
      q'.reserved.getLast? = some r → r.info = info → res.2.Awaits r ∧ res.2.remaining = info.sz.toNat) := by
  rw [comingSoon, returned_bind] at hrun
  obtain ⟨s1, q1, hint, hrun⟩ := hrun
  rw [interrupt, hexp, if_neg Bool.false_ne_true] at hint
  cases hint
  rw [returned_bind] at hrun
  obtain ⟨status, q1, hnew, hrun⟩ := hrun
  split at hrun
  case isTrue hst =>
    cases hrun
    exact ⟨hnew, fun h => absurd h hst⟩
  case isFalse hst =>
    rw [returned_bind] at hrun
    obtain ⟨_, _, hread, hrun⟩ := hrun
    cases hread
    cases hlast : q1.reserved.getLast? with
    | none =>
      rw [hlast] at hrun
      cases hrun
      refine ⟨hnew, fun _ r hr => ?_⟩
      rw [hlast] at hr
      cases hr
    | some r =>
      rw [hlast] at hrun
      rw [returned_bind] at hrun
      obtain ⟨s2, q2, hroll, hrun⟩ := hrun
      obtain ⟨hpending, rfl⟩ := rollback_returned (s := { s with pending := info }) hentry hroll
      cases hrun
      refine ⟨hnew, fun _ r' hr' hinfo => ?_⟩
      rw [hlast] at hr'
      cases hr'
      exact ⟨⟨rfl, rfl, rfl, hpending.trans hinfo.symm, Nat.le_of_eq (by rw [hinfo])⟩, rfl⟩

variable {i : Nat} {d : Reservation × List UInt8} {status : Int}

theorem Holds.encodeEntry_returned (h : Holds D q st) (hd : st.drafts[i]? = some d)
    (hrun : (encodeEntry i data q).returned = some (status, q')) :
    if (header d.1.info).length ≤ d.1.extent % 2 ^ 32 then status = 0 ∧ q' = q.written d.1.payload data
    else status = EIO ∧ q' = q := by
  have hr : q.reserved[i]? = some d.1 := by
    rw [h.reserved_eq, hd]
    rfl
  obtain ⟨⟨g, hk⟩, -⟩ := h
  have hdm : d ∈ st.drafts := mem_of_getElem? hd
  have hagain : encodeProdInfo q.ix.env.disk d.1.offset d.1.extent d.1.info = _ :=
    encodeProdInfo_again (hk.books.pages _ (Store.mem_pages_of_draft hdm)).header
  rw [encodeEntry, returned_bind] at hrun
  obtain ⟨_, _, hread, hrun⟩ := hrun
  cases hread
  rw [hr] at hrun
  dsimp only [encodeProduct] at hrun
  rw [hagain] at hrun
  split
  case isTrue hfits =>
    rw [if_pos hfits] at hrun
    cases hrun
    refine ⟨rfl, ?_⟩
    rw [(hk.books.drafts d hdm).2.2]
    rfl
  case isFalse hfits =>
    rw [if_neg hfits] at hrun
    cases hrun
    exact ⟨rfl, rfl⟩

theorem Holds.commit_unreadable (h : Holds D q st) (hd : st.drafts[i]? = some d)
    (hshort : ¬ (header d.1.info).length ≤ d.1.extent % 2 ^ 32)
    (hrun : (commit i q).returned = some (status, q')) :
    status = PqStatus.corrupt.toInt ∧ Holds D q' (st.dropDraft i) := by
  have hr : q.reserved[i]? = some d.1 := by
    rw [h.reserved_eq, hd]
    rfl
  have hstatus : status = PqStatus.corrupt.toInt := by
    obtain ⟨⟨g, hk⟩, -⟩ := h
    have hdec : decodeProdInfo q.ix.env.disk d.1.offset d.1.extent = none :=
      (hk.books.decode (Store.mem_pages_of_draft (mem_of_getElem? hd)) _).trans (if_neg hshort)
    rw [commit, returned_bind] at hrun
    obtain ⟨r, q1, htake, hrun⟩ := hrun
    rw [takeEntry_run, hr] at htake
    cases htake
    dsimp only at hrun
    rw [ProductQueue.commitEntry, returned_bind] at hrun
    obtain ⟨status1, q1, htry, hrun⟩ := hrun
    rw [ProductQueue.tryCommit, returned_bind] at htry
    obtain ⟨_, _, hread, htry⟩ := htry
    cases hread
    dsimp only at htry
    rw [hdec] at htry
    cases htry
    rw [if_pos (by decide), returned_bind] at hrun
    obtain ⟨_, _, _, hrun⟩ := hrun
    cases hrun
    rfl
  refine ⟨hstatus, ?_⟩
  rcases (commit_spec h i).of_returned hrun with ⟨hzero, -⟩ | ⟨-, -, hh, -⟩
  · exact absurd (hstatus.symm.trans hzero) (by decide)
  · exact hh

theorem Store.dropDraft_eq (st : Store) (d : Reservation × List UInt8) (f : List UInt8 → List UInt8) :
    ((st.addDraft d).editDraft st.drafts.length f).dropDraft st.drafts.length = st :=
  congrArg (fun drafts => Store.mk drafts st.live) (st.dropDraft_last d f)

/-- The same products are left, and the same is said of acceptance. -/
structure Agree (D : DataSection) (reply reply' : Reply) (q q' : ProductQueue) : Prop where
  store : ∃ st, Holds D q st ∧ Holds D q' st
  accepted : reply = .status 0 ↔ reply' = .status 0
  dup : reply = .status PqStatus.dup.toInt ↔ reply' = .status PqStatus.dup.toInt
  big : reply = .status PqStatus.big.toInt ↔ reply' = .status PqStatus.big.toInt

theorem Agree.of_eq (h : Holds D q st) (reply : Reply) : Agree D reply reply q q :=
  ⟨⟨st, h, h⟩, Iff.rfl, Iff.rfl, Iff.rfl⟩

theorem Agree.of_reserved {r : Reservation} {old : List UInt8} {qa qb : ProductQueue} {statusA statusB code : Int}
    {q2 : ProductQueue} (h : Holds D q (st.addDraft (r, old))) (hlen : data.length = r.info.sz.toNat)
    (hA : (commit st.drafts.length (q.written r.payload data)).returned = some (statusA, qa))
    (hencode : (encodeEntry st.drafts.length data q).returned = some (code, q2))
    (hB : ((if code = 0 then commit st.drafts.length else do
      let _ ← ProductQueue.rollback st.drafts.length
      return EIO) q2).returned = some (statusB, qb)) :
    Agree D (.status statusA) (.status statusB) qa qb := by
  have hd : (st.addDraft (r, old)).drafts[st.drafts.length]? = some (r, old) := getElem?_concat_length
  have hout := h.encodeEntry_returned hd hencode
  have hres : q.reserved[st.drafts.length]? = some r := by
    rw [h.reserved_eq, hd]
    rfl
  have hedit := (encodeEntry_spec h st.drafts.length data fun r' hr' => by
    rw [hres] at hr'
    cases hr'
    exact hlen).of_returned hencode
  split at hout
  case isTrue hfits =>
    -- the same bytes are written and the same is committed
    obtain ⟨rfl, rfl⟩ := hout
    rw [if_pos rfl, hA] at hB
    cases hB
    rcases (commit_spec hedit.2.1 _).of_returned hA with ⟨-, _, _, -, hh, -⟩ | ⟨-, -, hh, -⟩
    · exact .of_eq hh _
    · exact .of_eq hh _
  case isFalse hshort =>
    -- both give the product up
    obtain ⟨rfl, rfl⟩ := hout
    rw [if_neg (by decide), returned_bind] at hB
    obtain ⟨_, q3, hroll, hB⟩ := hB
    cases hB
    have hb := ((rollback_spec hedit.2.1 _).of_returned hroll).2.1
    have hover := h.overwritten hd (show 0 + data.length ≤ r.info.sz.toNat by omega)
    have hw : Holds D (q2.written r.payload data)
        ((st.addDraft (r, old)).editDraft st.drafts.length fun old => overwrite old 0 data) := by
      have hh := hover.2.1
      rw [Int.natCast_zero, Int.add_zero] at hh
      exact hh
    have hd' :
      ((st.addDraft (r, old)).editDraft st.drafts.length fun old => overwrite old 0 data).drafts[st.drafts.length]? =
        some (r, overwrite old 0 data) := by
      rw [Store.editDraft_eq hd]
      simp [Store.addDraft]
    obtain ⟨rfl, ha⟩ := hw.commit_unreadable hd' hshort hA
    rw [Store.dropDraft_eq] at ha hb
    refine ⟨⟨st, ha, hb⟩, ?_, ?_, ?_⟩
    all_goals decide

/-- **The two routes agree**, for every queue, every handler that holds nothing and expects nothing, and every way to
cut the payload of a product into blocks. -/
theorem routes_agree (D : DataSection) (acl : AclManager) (peer : PeerContext) (opened mapped : Bool)
    {Q : QueueOp → Prop} {a : Audit} (ha : Reached D Q a) {h : Handler} (hexp : h.receiver.expectBlkdata = false)
    (hentry : ∀ r, h.receiver.entry ≠ some (.held r)) {info : ProdInfo} (hmem : info.ident.length < 2 ^ 61)
    (hsz : 0 < info.sz.toNat) {data : List UInt8} (hlen : data.length = info.sz.toNat) {packets : List (List UInt8)}
    (hne : ∀ p ∈ packets, p ≠ []) (hsplit : packets.flatten = data) {resA resB : Reply × Handler} {qa qb : ProductQueue}
    (hA : (h.sendBlocks D acl peer opened mapped info packets a.queue).returned = some (resA, qa))
    (hB : (h.onMessage D acl peer opened mapped (.hereIs info data) a.queue).returned = some (resB, qb)) :
    Agree D resA.1 resB.1 qa qb := by
  have hq := ha.holds
  rw [Handler.sendBlocks, returned_bind] at hA
  obtain ⟨⟨reply₁, h₁⟩, q₁, hsoon, hA⟩ := hA
  obtain ⟨replyB, hb⟩ := resB
  cases hopen : h.opens opened with
  | false =>
    obtain ⟨rfl, rfl⟩ := Handler.closed_returned hopen rfl hsoon
    obtain ⟨rfl, rfl⟩ := Handler.closed_returned hopen rfl hB
    rw [if_neg (show ¬ Reply.status PqStatus.system.toInt = .status 0 by decide)] at hA
    cases hA
    exact .of_eq hq _
  | true =>
    obtain ⟨hopen₁, res, hreceived, rfl, hh₁⟩ := Handler.comingSoon_returned hopen hsoon
    obtain ⟨hnew, hwait⟩ := Receiver.comingSoon_returned hexp hentry hreceived
    obtain ⟨statusB, hinsert, rfl⟩ := Handler.hereIs_returned hopen hB
    rw [ProductQueue.insert, returned_bind] at hinsert
    obtain ⟨status, q₁', hnew', hinsert⟩ := hinsert
    rw [hnew] at hnew'
    cases hnew'
    obtain ⟨-, ⟨hst, r, hr, hres, hq₁, -⟩ | ⟨hst, -, hq₁, -⟩⟩ :=
      (newElement_spec hq (encoded_fits D (peer.received_fits hmem)) mapped).of_returned hnew
    · -- the product is reserved
      obtain ⟨hw, hrem⟩ := hwait hst r (by rw [hres, getLast?_concat]) hr
      have hcount : q₁.reserved.length - 1 = (a.store.keep q₁.ix.times).drafts.length := by
        rw [hres, length_append, ← hq.2, length_map]
        rfl
      have hindex : q₁.reserved.idxOf r = (a.store.keep q₁.ix.times).drafts.length := by
        have hfresh : r ∉ a.queue.reserved := by
          rw [← hq.2]
          intro hm
          obtain ⟨d, hd, he⟩ := mem_map.1 hm
          exact hq₁.draft_new d hd he
        rw [hres, idxOf_append_of_notMem hfresh, idxOf_cons_self, ← hq.2, length_map]
        rfl
      rw [if_neg (not_not.2 hst), returned_bind] at hinsert
      obtain ⟨_, _, hread, hinsert⟩ := hinsert
      cases hread
      rw [hcount, returned_bind] at hinsert
      obtain ⟨code, q₂, hencode, hinsert⟩ := hinsert
      have hsig : info.signature = r.info.signature := by rw [hr]; rfl
      have hlen' : data.length = r.info.sz.toNat := by rw [hr]; exact hlen
      rw [if_pos (by rw [hst]), hsig] at hA
      have hpackets : packets ≠ [] := by
        intro e
        rw [← hsplit, e] at hlen
        rw [← hlen] at hsz
        exact Nat.lt_irrefl 0 hsz
      rw [← hh₁] at hw hrem
      obtain ⟨statusA, hcommit, hstatus⟩ := Handler.sendPackets_returned hpackets hne hopen₁ hw
        (by rw [hsplit, hrem, hlen]; rfl) hA
      have hzero : h₁.receiver.offset = 0 := by
        rw [Receiver.offset, hw.info, hrem, hr]
        exact Nat.sub_self _
      rw [hindex, hsplit, hzero, Int.natCast_zero, Int.add_zero] at hcommit
      rw [hstatus]
      exact .of_reserved hq₁ hlen' hcommit hencode hinsert
    · -- it is refused
      rw [if_pos hst] at hinsert
      cases hinsert
      rw [if_neg fun e => hst (Reply.status.inj e)] at hA
      cases hA
      exact .of_eq hq₁ _

/-- Four bytes in three blocks. -/
theorem routes_agree_blocks : ∃ a resA resB qa qb, Reached smallSection (fun _ => True) a ∧
    ((Handler.upstream {}).sendBlocks smallSection Session.noRules Session.somePeer true true
      Session.shortInfo [[1], [2, 3], [4]] a.queue).returned = some (resA, qa) ∧
    ((Handler.upstream {}).onMessage smallSection Session.noRules Session.somePeer true true
      (.hereIs Session.shortInfo [1, 2, 3, 4]) a.queue).returned = some (resB, qb) ∧ resA.1 = .status 0 ∧
    Agree smallSection resA.1 resB.1 qa qb := by
  obtain ⟨a, hreach, ⟨resA, qa, hA, hzero⟩, resB, qb, hB, -⟩ : ∃ a : Audit, Reached smallSection (fun _ => True) a ∧
      (∃ resA qa,
      ((Handler.upstream {}).sendBlocks smallSection Session.noRules Session.somePeer true true Session.shortInfo
        [[1], [2, 3], [4]] a.queue).returned = some (resA, qa) ∧ resA.1 = .status 0) ∧
      ∃ resB qb, ((Handler.upstream {}).onMessage smallSection Session.noRules Session.somePeer true true
        (.hereIs Session.shortInfo [1, 2, 3, 4]) a.queue).returned = some (resB, qb) ∧
        resB.1 = .status 0 := by
    apply exists_computed tick []
    decide +kernel
  exact ⟨a, resA, resB, qa, qb, hreach, hA, hB, hzero, routes_agree _ _ _ _ _ hreach rfl
    (fun _ e => by cases e) (by decide) (by decide) rfl (by decide) rfl hA hB⟩

end Rdm
