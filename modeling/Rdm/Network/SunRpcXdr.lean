import Rdm.Core.Client
import Rdm.Network.Serializer

/-!
# The messages of the protocol as external data

The codecs of `SunRpcXdr.cpp` are one function for both directions; here they are two. A reply carries only the fields
of its status, and the decoder leaves the others as they are.
-/

namespace Rdm.SunRpcXdr

open Xdr SunRpcSerializer List

structure FeedParNet where
  clss : ProdClass
  maxHereis : UInt32
deriving DecidableEq

structure ComingSoonArgsNet where
  info : ProdInfo
  pktsz : UInt32
deriving DecidableEq

structure DataPktNet where
  signaturep : Signature
  pktnum : UInt32
  dbuf : List UInt8
  dbufLen : dbuf.length < 2 ^ 32
deriving DecidableEq

/-! ## The codecs -/

def getInt : Get Int := do
  let n ← getWord
  return intOfWord n

def getUInt : Get UInt32 := do
  let n ← getWord
  return UInt32.ofNat n

def putNetProdSpec (spec : ProdSpec) : Option (List UInt8) := do
  let pattern ← putString 255 spec.pattern
  return word spec.feedtype.toNat ++ pattern

def getNetProdSpec : Get ProdSpec := do
  let feedtype ← getUInt
  let pattern ← getString 255
  return ⟨feedtype, pattern⟩

def putNetProdClass (clss : ProdClass) : Option (List UInt8) := do
  let psaLen := clss.specs.length % 2 ^ 32
  let specs ← (clss.specs.take psaLen).mapM putNetProdSpec
  return wordOfInt clss.fromSec ++ (wordOfInt clss.fromUsec ++ (wordOfInt clss.toSec ++ (wordOfInt clss.toUsec ++
    (word psaLen ++ specs.flatten))))

def getNetProdClass : Get ProdClass := do
  let fromSec ← getInt
  let fromUsec ← getInt
  let toSec ← getInt
  let toUsec ← getInt
  let psaLen ← getWord
  let specs ← getMany getNetProdSpec psaLen
  return ⟨fromSec, fromUsec, toSec, toUsec, specs⟩

def putNetFeedpar (fpar : FeedParNet) : Option (List UInt8) := do
  let clss ← putNetProdClass fpar.clss
  return clss ++ word fpar.maxHereis.toNat

def getNetFeedpar : Get FeedParNet := do
  let clss ← getNetProdClass
  let maxHereis ← getUInt
  return ⟨clss, maxHereis⟩

def putNetFornmeReply (reply : FeedResponse) : Option (List UInt8) := do
  let arm ←
    if reply.statusCode = .OK then some (word reply.feedProcessId.toNat)
    else if reply.statusCode = .RECLASS then (putNetProdClass reply.allowedClass).map (word 1 ++ ·)
    else some []
  return wordOfInt reply.statusCode.code.toInt ++ arm

def getFornmeArm (reply : FeedResponse) : Get FeedResponse :=
  if reply.statusCode = .OK then do
    let feedProcessId ← getUInt
    return { reply with feedProcessId := feedProcessId }
  else if reply.statusCode = .RECLASS then do
    let isPresent ← getWord
    if isPresent ≠ 0 then
      let allowedClass ← getNetProdClass
      return { reply with allowedClass := allowedClass }
    else return reply
  else return reply

def getNetFornmeReply (reply : FeedResponse) : Get FeedResponse := do
  let code ← getInt
  getFornmeArm { reply with statusCode := ⟨Int32.ofInt code⟩ }

def putNetHiyaReply (reply : HiyaResponse) : Option (List UInt8) := do
  let arm ←
    if reply.statusCode = .OK then some (word reply.maxHereis.toNat)
    else if reply.statusCode = .RECLASS then putNetFeedpar ⟨reply.acceptedClass, reply.maxHereis⟩
    else some []
  return wordOfInt reply.statusCode.code.toInt ++ arm

def getHiyaArm (reply : HiyaResponse) : Get HiyaResponse :=
  if reply.statusCode = .OK then do
    let maxHereis ← getUInt
    return { reply with maxHereis := maxHereis }
  else if reply.statusCode = .RECLASS then do
    let fpar ← getNetFeedpar
    return { reply with acceptedClass := fpar.clss, maxHereis := fpar.maxHereis }
  else return reply

def getNetHiyaReply (reply : HiyaResponse) : Get HiyaResponse := do
  let code ← getInt
  getHiyaArm { reply with statusCode := ⟨Int32.ofInt code⟩ }

def putNetComingsoonArgs (args : ComingSoonArgsNet) : List UInt8 := header args.info ++ word args.pktsz.toNat

def getNetComingsoonArgs : Get ComingSoonArgsNet := do
  let info ← getInfo
  let pktsz ← getUInt
  return ⟨info, pktsz⟩

def putNetDatapkt (pkt : DataPktNet) : List UInt8 :=
  pkt.signaturep.bytes ++ (word pkt.pktnum.toNat ++ (stringPieces pkt.dbuf).flatten)

def getNetDatapkt : Get (List UInt8 × UInt32 × List UInt8) := do
  let signaturep ← getBytes 16
  let pktnum ← getUInt
  let dbuf ← getCounted
  return (signaturep, pktnum, dbuf)

/-! ## Round trips -/

theorem parses_int {n : Int} (h : -2 ^ 31 ≤ n ∧ n < 2 ^ 31) : Parses getInt (wordOfInt n) n := by
  rw [← append_nil (wordOfInt n)]
  refine (parses_wordOfInt n).bind ?_
  rw [intOfWord_word h.1 h.2]
  exact Parses.pure n

theorem parses_uint (n : UInt32) : Parses getUInt (word n.toNat) n := by
  rw [← append_nil (word n.toNat)]
  refine (parses_uint32 n).bind ?_
  rw [UInt32.ofNat_toNat]
  exact Parses.pure n

def ProdSpecOnWire (spec : ProdSpec) : Prop := 0 ∉ spec.pattern ∧ spec.pattern.length ≤ 255

structure OnWire (clss : ProdClass) : Prop where
  fromSec : -2 ^ 31 ≤ clss.fromSec ∧ clss.fromSec < 2 ^ 31
  fromUsec : -2 ^ 31 ≤ clss.fromUsec ∧ clss.fromUsec < 2 ^ 31
  toSec : -2 ^ 31 ≤ clss.toSec ∧ clss.toSec < 2 ^ 31
  toUsec : -2 ^ 31 ≤ clss.toUsec ∧ clss.toUsec < 2 ^ 31
  specs : ∀ spec ∈ clss.specs, ProdSpecOnWire spec

def specBytes (spec : ProdSpec) : List UInt8 := word spec.feedtype.toNat ++ (stringPieces spec.pattern).flatten

theorem putNetProdSpec_eq {spec : ProdSpec} (h : ProdSpecOnWire spec) : putNetProdSpec spec = some
    (specBytes spec) := by
  rw [putNetProdSpec, putString_eq h.2 h.1]
  rfl

theorem parses_spec {spec : ProdSpec} (h : ProdSpecOnWire spec) : Parses getNetProdSpec (specBytes spec) spec := by
  have hbytes : specBytes spec = word spec.feedtype.toNat ++ ((stringPieces spec.pattern).flatten ++ []) := by
    rw [append_nil, specBytes]
  rw [hbytes]
  exact (parses_uint _).bind ((parses_string h.2 (by decide) h.1).bind (Parses.pure spec))

def classBytes (clss : ProdClass) : List UInt8 :=
  wordOfInt clss.fromSec ++ (wordOfInt clss.fromUsec ++ (wordOfInt clss.toSec ++ (wordOfInt clss.toUsec ++
    (word clss.specs.length ++ clss.specs.flatMap specBytes))))

theorem mapM_putNetProdSpec : ∀ {specs : List ProdSpec}, (∀ spec ∈ specs, ProdSpecOnWire spec) →
    specs.mapM putNetProdSpec = some (specs.map specBytes)
  | [], _ => rfl
  | spec :: specs, h => by
    rw [mapM_cons, putNetProdSpec_eq (h spec mem_cons_self),
      mapM_putNetProdSpec fun s hs => h s (mem_cons_of_mem _ hs)]
    rfl

variable {clss : ProdClass}

theorem putNetProdClass_eq (h : OnWire clss) :
    putNetProdClass clss = some (classBytes { clss with specs := clss.specs.take (clss.specs.length % 2 ^ 32) }) := by
  have hwire : ∀ spec ∈ clss.specs.take (clss.specs.length % 2 ^ 32), ProdSpecOnWire spec := fun spec hs =>
    h.specs spec (mem_of_mem_take hs)
  have hspecs := mapM_putNetProdSpec hwire
  rw [putNetProdClass]
  simp only [hspecs, Option.bind_eq_bind, Option.bind_some, Option.pure_def, classBytes, length_take,
    flatMap_def, Nat.min_eq_left (Nat.mod_le clss.specs.length (2 ^ 32))]

theorem parses_class (h : OnWire clss) (hlen : clss.specs.length < 2 ^ 32) :
    Parses getNetProdClass (classBytes clss) clss := by
  have hbytes : classBytes clss = wordOfInt clss.fromSec ++ (wordOfInt clss.fromUsec ++ (wordOfInt clss.toSec ++
      (wordOfInt clss.toUsec ++ (word clss.specs.length ++ (clss.specs.flatMap specBytes ++ []))))) := by
    rw [append_nil, classBytes]
  have hcount : Parses getWord (word clss.specs.length) clss.specs.length := by
    have hword := parses_word clss.specs.length
    rwa [Nat.mod_eq_of_lt hlen] at hword
  have hspecs := parses_many fun spec hs => parses_spec (h.specs spec hs)
  rw [hbytes]
  exact (parses_int h.fromSec).bind ((parses_int h.fromUsec).bind ((parses_int h.toSec).bind ((parses_int h.toUsec).bind
    (hcount.bind (hspecs.bind (Parses.pure clss))))))

theorem class_round_trip (h : OnWire clss) (hlen : clss.specs.length < 2 ^ 32) :
    putNetProdClass clss = some (classBytes clss) ∧ Parses getNetProdClass (classBytes clss) clss := by
  refine ⟨?_, parses_class h hlen⟩
  rw [putNetProdClass_eq h, Nat.mod_eq_of_lt hlen, take_length]

theorem feedpar_round_trip {fpar : FeedParNet} (h : OnWire fpar.clss) (hlen : fpar.clss.specs.length < 2 ^ 32) :
    ∃ bs, putNetFeedpar fpar = some bs ∧ Parses getNetFeedpar bs fpar := by
  obtain ⟨hput, hget⟩ := class_round_trip h hlen
  refine ⟨classBytes fpar.clss ++ (word fpar.maxHereis.toNat ++ []), ?_, ?_⟩
  · simp [putNetFeedpar, hput]
  · exact hget.bind ((parses_uint _).bind (Parses.pure fpar))

def carryFornme (init reply : FeedResponse) : FeedResponse :=
  if reply.statusCode = .OK then { init with statusCode := reply.statusCode, feedProcessId := reply.feedProcessId }
  else if reply.statusCode = .RECLASS then
    { init with statusCode := reply.statusCode, allowedClass := reply.allowedClass }
  else { init with statusCode := reply.statusCode }

def carryHiya (init reply : HiyaResponse) : HiyaResponse :=
  if reply.statusCode = .OK then { init with statusCode := reply.statusCode, maxHereis := reply.maxHereis }
  else if reply.statusCode = .RECLASS then reply
  else { init with statusCode := reply.statusCode }

theorem parses_code (code : Int32) : Parses getInt (wordOfInt code.toInt) code.toInt :=
  parses_int ⟨code.le_toInt, code.toInt_lt⟩

theorem fornme_round_trip (init : FeedResponse) {reply : FeedResponse}
    (h : reply.statusCode = .RECLASS → OnWire reply.allowedClass ∧ reply.allowedClass.specs.length < 2 ^ 32) :
    ∃ bs, putNetFornmeReply reply = some bs ∧ Parses (getNetFornmeReply init) bs (carryFornme init reply) := by
  have harm : ∃ arm, putNetFornmeReply reply = some (wordOfInt reply.statusCode.code.toInt ++ arm) ∧
      Parses (getFornmeArm { init with statusCode := reply.statusCode }) arm (carryFornme init reply) := by
    by_cases hok : reply.statusCode = .OK
    · refine ⟨word reply.feedProcessId.toNat ++ [], by simp [putNetFornmeReply, hok], ?_⟩
      rw [getFornmeArm, if_pos hok, carryFornme, if_pos hok]
      exact (parses_uint _).bind (Parses.pure _)
    by_cases hre : reply.statusCode = .RECLASS
    · obtain ⟨hput, hget⟩ := class_round_trip (h hre).1 (h hre).2
      refine ⟨word 1 ++ (classBytes reply.allowedClass ++ []), ?_, ?_⟩
      · rw [putNetFornmeReply, if_neg hok, if_pos hre, hput, append_nil]
        rfl
      · rw [getFornmeArm, if_neg hok, if_pos hre, carryFornme, if_neg hok, if_pos hre]
        exact (parses_word 1).bind (hget.bind (Parses.pure _))
    · refine ⟨[], by rw [putNetFornmeReply, if_neg hok, if_neg hre]; rfl, ?_⟩
      rw [getFornmeArm, if_neg hok, if_neg hre, carryFornme, if_neg hok, if_neg hre]
      exact Parses.pure _
  obtain ⟨arm, hput, hget⟩ := harm
  refine ⟨_, hput, (parses_code _).bind ?_⟩
  rw [Int32.ofInt_toInt]
  exact hget

theorem hiya_round_trip (init : HiyaResponse) {reply : HiyaResponse}
    (h : reply.statusCode = .RECLASS → OnWire reply.acceptedClass ∧ reply.acceptedClass.specs.length < 2 ^ 32) :
    ∃ bs, putNetHiyaReply reply = some bs ∧ Parses (getNetHiyaReply init) bs (carryHiya init reply) := by
  have harm : ∃ arm, putNetHiyaReply reply = some (wordOfInt reply.statusCode.code.toInt ++ arm) ∧
      Parses (getHiyaArm { init with statusCode := reply.statusCode }) arm (carryHiya init reply) := by
    by_cases hok : reply.statusCode = .OK
    · refine ⟨word reply.maxHereis.toNat ++ [], by simp [putNetHiyaReply, hok], ?_⟩
      rw [getHiyaArm, if_pos hok, carryHiya, if_pos hok]
      exact (parses_uint _).bind (Parses.pure _)
    by_cases hre : reply.statusCode = .RECLASS
    · let fpar : FeedParNet := ⟨reply.acceptedClass, reply.maxHereis⟩
      obtain ⟨bs, hput, hget⟩ : ∃ bs, putNetFeedpar fpar = some bs ∧ Parses getNetFeedpar bs fpar :=
        feedpar_round_trip (h hre).1 (h hre).2
      refine ⟨bs ++ [], ?_, ?_⟩
      · rw [putNetHiyaReply, if_neg hok, if_pos hre, hput, append_nil]
        rfl
      · rw [getHiyaArm, if_neg hok, if_pos hre, carryHiya, if_neg hok, if_pos hre]
        exact hget.bind (Parses.pure _)
    · refine ⟨[], by rw [putNetHiyaReply, if_neg hok, if_neg hre]; rfl, ?_⟩
      rw [getHiyaArm, if_neg hok, if_neg hre, carryHiya, if_neg hok, if_neg hre]
      exact Parses.pure _
  obtain ⟨arm, hput, hget⟩ := harm
  refine ⟨_, hput, (parses_code _).bind ?_⟩
  rw [Int32.ofInt_toInt]
  exact hget

/-- What the wire can carry of metadata. -/
structure InfoOnWire (info : ProdInfo) : Prop where
  sec : -2 ^ 31 ≤ info.arrival.sec ∧ info.arrival.sec < 2 ^ 31
  usec : -2 ^ 31 ≤ info.arrival.usec ∧ info.arrival.usec < 2 ^ 31
  origin : 0 ∉ info.origin ∧ info.origin.length ≤ HOSTNAMESIZE
  ident : 0 ∉ info.ident ∧ info.ident.length ≤ 255

theorem comingsoon_round_trip {args : ComingSoonArgsNet} (h : InfoOnWire args.info) :
    Parses getNetComingsoonArgs (putNetComingsoonArgs args) args := by
  have hinfo : Parses getInfo (header args.info) args.info := by
    have hheader := parses_header args.info
    rwa [stored_eq h.sec h.usec h.origin.1 h.ident.1, take_of_length_le h.origin.2, take_of_length_le h.ident.2]
      at hheader
  have hbytes : putNetComingsoonArgs args = header args.info ++ (word args.pktsz.toNat ++ []) := by
    rw [append_nil, putNetComingsoonArgs]
  rw [hbytes]
  exact hinfo.bind ((parses_uint _).bind (Parses.pure args))

theorem datapkt_round_trip (pkt : DataPktNet) :
    Parses getNetDatapkt (putNetDatapkt pkt) (pkt.signaturep.bytes, pkt.pktnum, pkt.dbuf) := by
  have hsig : Parses (getBytes 16) pkt.signaturep.bytes pkt.signaturep.bytes := by
    have hbytes := parses_bytes pkt.signaturep.bytes
    rwa [pkt.signaturep.size] at hbytes
  have hbytes : putNetDatapkt pkt =
      pkt.signaturep.bytes ++ (word pkt.pktnum.toNat ++ ((stringPieces pkt.dbuf).flatten ++ [])) := by
    rw [append_nil, putNetDatapkt]
  rw [hbytes]
  exact hsig.bind ((parses_uint _).bind ((parses_counted pkt.dbufLen).bind (Parses.pure _)))

/-- **Messages are read back** from what they were encoded to, and what follows them is left. -/
theorem messages_round_trip (trailing : List UInt8) :
    (∀ clss : ProdClass, OnWire clss → clss.specs.length < 2 ^ 32 →
      ∃ bs, putNetProdClass clss = some bs ∧ decode getNetProdClass (bs ++ trailing) = some (clss, trailing)) ∧
    (∀ fpar : FeedParNet, OnWire fpar.clss → fpar.clss.specs.length < 2 ^ 32 →
      ∃ bs, putNetFeedpar fpar = some bs ∧ decode getNetFeedpar (bs ++ trailing) = some (fpar, trailing)) ∧
    (∀ init reply : FeedResponse,
      (reply.statusCode = .RECLASS → OnWire reply.allowedClass ∧ reply.allowedClass.specs.length < 2 ^ 32) →
      ∃ bs, putNetFornmeReply reply = some bs ∧
        decode (getNetFornmeReply init) (bs ++ trailing) = some (carryFornme init reply, trailing)) ∧
    (∀ init reply : HiyaResponse,
      (reply.statusCode = .RECLASS → OnWire reply.acceptedClass ∧ reply.acceptedClass.specs.length < 2 ^ 32) →
      ∃ bs, putNetHiyaReply reply = some bs ∧
        decode (getNetHiyaReply init) (bs ++ trailing) = some (carryHiya init reply, trailing)) ∧
    (∀ args : ComingSoonArgsNet, InfoOnWire args.info →
      decode getNetComingsoonArgs (putNetComingsoonArgs args ++ trailing) = some (args, trailing)) ∧
    ∀ pkt : DataPktNet, decode getNetDatapkt (putNetDatapkt pkt ++ trailing) =
      some ((pkt.signaturep.bytes, pkt.pktnum, pkt.dbuf), trailing) := by
  refine ⟨fun clss h hlen => ?_, fun fpar h hlen => ?_, fun init reply h => ?_, fun init reply h => ?_,
    fun args h => ?_, fun pkt => (datapkt_round_trip pkt).decode trailing⟩
  · obtain ⟨hput, hget⟩ := class_round_trip h hlen
    exact ⟨_, hput, hget.decode trailing⟩
  · obtain ⟨bs, hput, hget⟩ := feedpar_round_trip h hlen
    exact ⟨bs, hput, hget.decode trailing⟩
  · obtain ⟨bs, hput, hget⟩ := fornme_round_trip init h
    exact ⟨bs, hput, hget.decode trailing⟩
  · obtain ⟨bs, hput, hget⟩ := hiya_round_trip init h
    exact ⟨bs, hput, hget.decode trailing⟩
  · exact (comingsoon_round_trip h).decode trailing

def smallClass : ProdClass := ⟨0, 0, 100, 0, [⟨4, matchAll⟩]⟩

theorem messages_round_trip_small : OnWire smallClass ∧ ∃ bs, putNetProdClass smallClass = some bs ∧
    decode getNetProdClass (bs ++ [7]) = some (smallClass, [7]) := by
  have hwire : OnWire smallClass := by
    refine ⟨by decide, by decide, by decide, by decide, fun spec hs => ?_⟩
    rw [mem_singleton.1 hs]
    exact ⟨by decide, by decide⟩
  exact ⟨hwire, (messages_round_trip [7]).1 smallClass hwire (by decide)⟩

def hugeClass : ProdClass := { smallClass with specs := List.replicate (2 ^ 32) {} }

/-- A class with 2³² specifications is sent as one with none. -/
theorem hugeClass_lost : OnWire hugeClass ∧ ∃ bs, putNetProdClass hugeClass = some bs ∧
    decode getNetProdClass bs ≠ some (hugeClass, []) := by
  have hlen : hugeClass.specs.length = 2 ^ 32 := length_replicate
  have hwire : OnWire hugeClass := by
    refine ⟨by decide, by decide, by decide, by decide, fun spec hs => ?_⟩
    rw [eq_of_mem_replicate hs]
    exact ⟨by decide, by decide⟩
  have hempty : OnWire { hugeClass with specs := [] } :=
    ⟨hwire.fromSec, hwire.fromUsec, hwire.toSec, hwire.toUsec, nofun⟩
  have hput := putNetProdClass_eq hwire
  rw [hlen, Nat.mod_self, take_zero] at hput
  refine ⟨hwire, _, hput, fun hdec => ?_⟩
  have hdec' := (parses_class hempty (by decide)).decode []
  rw [append_nil, hdec] at hdec'
  have hspecs : hugeClass.specs = [] := congrArg ProdClass.specs (Prod.mk.inj (Option.some.inj hdec')).1
  rw [hspecs] at hlen
  cases hlen

end Rdm.SunRpcXdr
