import Rdm.Core.ProductStore
import Rdm.Lib.Xdr

/-!
# The stored form of a product

The metadata of a product as external data, and the payload right behind it. Origin and identifier are cut, so what is
read back is `stored info`.
-/

namespace Rdm.SunRpcSerializer

open Xdr List

def XDR_UNIT : Nat := 4

def rndup (len : Nat) : Nat := (len + XDR_UNIT - 1) / XDR_UNIT * XDR_UNIT

def xlenString (len : Nat) : Nat := XDR_UNIT + rndup len

def getEncodedInfoSize (info : ProdInfo) : Nat :=
  8 + 16 + xlenString info.origin.length + XDR_UNIT + XDR_UNIT + xlenString info.ident.length + XDR_UNIT

def getEncodedSize (info : ProdInfo) : Nat := getEncodedInfoSize info + info.sz.toNat

def strncpy (s : List UInt8) (n : Nat) : List UInt8 := (cString s).take n

def wordOfInt (n : Int) : List UInt8 := word (n % 2 ^ 32).toNat

def intOfWord (n : Nat) : Int := if n < 2 ^ 31 then n else n - 2 ^ 32

def infoPieces (info : ProdInfo) : List (List UInt8) :=
  [wordOfInt info.arrival.sec, wordOfInt info.arrival.usec, info.signature.bytes] ++
    (stringPieces (strncpy info.origin HOSTNAMESIZE) ++ ([word info.feedtype.toNat, word info.seqno.toNat] ++
      (stringPieces (strncpy info.ident 255) ++ [word info.sz.toNat])))

def header (info : ProdInfo) : List UInt8 := (infoPieces info).flatten

def getInfo : Get ProdInfo := do
  let sec ← getWord
  let usec ← getWord
  let signature ← getBytes 16
  let origin ← getString HOSTNAMESIZE
  let feedtype ← getWord
  let seqno ← getWord
  let ident ← getString 255
  let sz ← getWord
  return {
    arrival := ⟨intOfWord sec, intOfWord usec⟩
    signature := if h : signature.length = 16 then ⟨signature, h⟩ else default
    origin := origin
    feedtype := UInt32.ofNat feedtype
    seqno := UInt32.ofNat seqno
    ident := ident
    sz := UInt32.ofNat sz }

def encodeProdInfo (mem : Memory) (buffer : Int) (bufferSize : Nat) (info : ProdInfo) : Option Int × Memory :=
  let (ok, x) := putAll (infoPieces info) ⟨mem, buffer, bufferSize % 2 ^ 32⟩
  (if ok then some x.pos else none, x.mem)

def encodeProduct (mem : Memory) (buffer : Int) (bufferSize : Nat) (info : ProdInfo) (data : List UInt8) :
    Bool × Memory :=
  match encodeProdInfo mem buffer bufferSize info with
  | (none, mem) => (false, mem)
  | (some pos, mem) => (true, writeBytes mem pos data)

def decodeProdInfo (mem : Memory) (buffer : Int) (bufferSize : Nat) : Option (ProdInfo × Int) :=
  (getInfo.run ⟨mem, buffer, bufferSize % 2 ^ 32⟩).map fun (info, x) => (info, x.pos)

def updateSignature (mem : Memory) (buffer : Option Int) (bufferSize : Nat) (newSig : Signature) : Bool × Memory :=
  match buffer with
  | none => (false, mem)
  | some xp =>
    if bufferSize < 8 + newSig.bytes.length then (false, mem) else (true, writeBytes mem (xp + 8) newSig.bytes)

/-! ## What is read back -/

def stored (info : ProdInfo) : ProdInfo := { info with
  arrival := ⟨intOfWord (info.arrival.sec % 2 ^ 32).toNat, intOfWord (info.arrival.usec % 2 ^ 32).toNat⟩
  origin := strncpy info.origin HOSTNAMESIZE
  ident := strncpy info.ident 255 }

theorem zero_not_mem_strncpy (s : List UInt8) (n : Nat) : 0 ∉ strncpy s n := by
  intro h
  have h := mem_takeWhile_imp (mem_of_mem_take h)
  simp at h

theorem length_strncpy_le (s : List UInt8) (n : Nat) : (strncpy s n).length ≤ n := length_take_le _ _

theorem strncpy_length_le (s : List UInt8) (n : Nat) : (strncpy s n).length ≤ s.length := by
  have h := (takeWhile_sublist (fun b => decide (b ≠ 0)) (l := s)).length_le
  simp only [strncpy, length_take, cString]
  omega

theorem strncpy_eq_take {s : List UInt8} (h : 0 ∉ s) (n : Nat) : strncpy s n = s.take n := by
  rw [strncpy, cString_eq_self h]

theorem intOfWord_word {n : Int} (h1 : -2 ^ 31 ≤ n) (h2 : n < 2 ^ 31) : intOfWord (n % 2 ^ 32).toNat = n := by
  simp only [intOfWord]
  omega

theorem stored_eq {info : ProdInfo} (hsec : -2 ^ 31 ≤ info.arrival.sec ∧ info.arrival.sec < 2 ^ 31)
    (husec : -2 ^ 31 ≤ info.arrival.usec ∧ info.arrival.usec < 2 ^ 31) (horigin : 0 ∉ info.origin)
    (hident : 0 ∉ info.ident) :
    stored info = { info with origin := info.origin.take HOSTNAMESIZE, ident := info.ident.take 255 } := by
  simp only [stored, intOfWord_word hsec.1 hsec.2, intOfWord_word husec.1 husec.2, strncpy_eq_take horigin,
    strncpy_eq_take hident]

theorem parses_wordOfInt (n : Int) : Parses getWord (wordOfInt n) (n % 2 ^ 32).toNat := by
  have h := parses_word (n % 2 ^ 32).toNat
  rwa [Nat.mod_eq_of_lt (by omega)] at h

theorem parses_uint32 (n : UInt32) : Parses getWord (word n.toNat) n.toNat := by
  have h := parses_word n.toNat
  rwa [Nat.mod_eq_of_lt n.toNat_lt] at h

theorem parses_cut (s : List UInt8) {n : Nat} (hn : n < 2 ^ 32) :
    Parses (getString n) (stringPieces (strncpy s n)).flatten (strncpy s n) :=
  parses_string (length_strncpy_le s n) hn (zero_not_mem_strncpy s n)

theorem header_eq (info : ProdInfo) : header info = wordOfInt info.arrival.sec ++ (wordOfInt info.arrival.usec ++
    (info.signature.bytes ++ ((stringPieces (strncpy info.origin HOSTNAMESIZE)).flatten ++ (word info.feedtype.toNat ++
      (word info.seqno.toNat
      ++ ((stringPieces (strncpy info.ident 255)).flatten ++ (word info.sz.toNat ++ []))))))) := by
  simp [header, infoPieces]

/-- **The header is read back.** -/
theorem parses_header (info : ProdInfo) : Parses getInfo (header info) (stored info) := by
  have hsig : Parses (getBytes 16) info.signature.bytes info.signature.bytes := by
    have h := parses_bytes info.signature.bytes
    rwa [info.signature.size] at h
  rw [header_eq]
  refine (parses_wordOfInt _).bind ((parses_wordOfInt _).bind (hsig.bind ((parses_cut _ (by decide)).bind
    ((parses_uint32 _).bind ((parses_uint32 _).bind ((parses_cut _ (by decide)).bind ((parses_uint32 _).bind ?_)))))))
  have hval : stored info = {
      arrival := ⟨intOfWord (info.arrival.sec % 2 ^ 32).toNat, intOfWord (info.arrival.usec % 2 ^ 32).toNat⟩
      signature := if h : info.signature.bytes.length = 16 then ⟨info.signature.bytes, h⟩ else default
      origin := strncpy info.origin HOSTNAMESIZE
      feedtype := UInt32.ofNat info.feedtype.toNat
      seqno := UInt32.ofNat info.seqno.toNat
      ident := strncpy info.ident 255
      sz := UInt32.ofNat info.sz.toNat } := by
    simp [stored, info.signature.size]
  rw [hval]
  exact Parses.pure _

theorem length_header (info : ProdInfo) : (header info).length = getEncodedInfoSize (stored info) := by
  rw [header_eq]
  simp only [length_append, length_stringPieces, info.signature.size, wordOfInt, word, length_cons,
    length_nil, getEncodedInfoSize, xlenString, rndup, XDR_UNIT, stored]
  omega

theorem length_header_le (info : ProdInfo) : (header info).length ≤ getEncodedInfoSize info := by
  have h1 := strncpy_length_le info.origin HOSTNAMESIZE
  have h2 := strncpy_length_le info.ident 255
  rw [length_header]
  simp only [getEncodedInfoSize, xlenString, rndup, XDR_UNIT, stored]
  omega

/-! ## Encoding and decoding in a buffer -/

variable {mem : Memory} {buffer : Int} {size : Nat} {info : ProdInfo}

theorem encodeProdInfo_fits (h : (header info).length ≤ size % 2 ^ 32) : encodeProdInfo mem buffer size info =
    (some (buffer + (header info).length), writeBytes mem buffer (header info)) := by
  have hput := putAll_fits (infoPieces info) ⟨mem, buffer, size % 2 ^ 32⟩ h
  rw [encodeProdInfo, hput]
  rfl

theorem encodeProdInfo_short (h : size % 2 ^ 32 < (header info).length) : (encodeProdInfo mem buffer size info).1 =
    none := by
  have hshort := putAll_short (infoPieces info) ⟨mem, buffer, size % 2 ^ 32⟩ h
  simp only [encodeProdInfo]
  rw [hshort]
  rfl

theorem encodeProdInfo_again (hmem : readBytes mem buffer (header info).length = header info) :
    encodeProdInfo mem buffer size info =
      (if (header info).length ≤ size % 2 ^ 32 then some (buffer + (header info).length) else none, mem) := by
  by_cases h : (header info).length ≤ size % 2 ^ 32
  · rw [encodeProdInfo_fits h, if_pos h, writeBytes_same hmem]
  · rw [if_neg h]
    exact Prod.ext (encodeProdInfo_short (Nat.lt_of_not_le h))
      (putAll_same (infoPieces info) ⟨mem, buffer, size % 2 ^ 32⟩ hmem)

theorem getEncodedSize_pos (info : ProdInfo) : 0 < getEncodedSize info := by
  simp only [getEncodedSize, getEncodedInfoSize]
  omega

theorem encodeProdInfo_out {a : Int} (h : a < buffer ∨ buffer + size ≤ a) :
    (encodeProdInfo mem buffer size info).2 a = mem a := by
  have hle := Nat.mod_le size (2 ^ 32)
  have h' : a < buffer ∨ buffer + ((size % 2 ^ 32 : Nat) : Int) ≤ a := by omega
  exact putAll_out (infoPieces info) ⟨mem, buffer, size % 2 ^ 32⟩ h'

theorem encodeProdInfo_cases (mem : Memory) (buffer : Int) (size : Nat) (info : ProdInfo) :
    (header info).length ≤ size % 2 ^ 32 ∧ encodeProdInfo mem buffer size info =
      (some (buffer + (header info).length), writeBytes mem buffer (header info)) ∨
    size % 2 ^ 32 < (header info).length ∧ ∃ mem', encodeProdInfo mem buffer size info = (none, mem') ∧
      ∀ a, a < buffer ∨ buffer + size ≤ a → mem' a = mem a := by
  rcases Nat.lt_or_ge (size % 2 ^ 32) (header info).length with hshort | hfits
  · exact .inr ⟨hshort, _, Prod.ext (encodeProdInfo_short hshort) rfl, fun _ => encodeProdInfo_out⟩
  · exact .inl ⟨hfits, encodeProdInfo_fits hfits⟩

theorem encodeProdInfo_writes (buffer : Int) (size : Nat) (info : ProdInfo) : ∃ data bs, bs.length ≤ size ∧
    ∀ mem, encodeProdInfo mem buffer size info = (data, writeBytes mem buffer bs) := by
  obtain ⟨ok, bs, hlen, hput⟩ := putAll_writes (infoPieces info) buffer (size % 2 ^ 32)
  refine ⟨if ok then some (buffer + bs.length) else none, bs, hlen.trans (Nat.mod_le _ _), fun mem => ?_⟩
  simp only [encodeProdInfo, hput]

theorem encodeProduct_writes (buffer : Int) {size : Nat} {info : ProdInfo} {data : List UInt8}
    (hroom : (header info).length + data.length ≤ size) : ∃ ok bs, bs.length ≤ size ∧
    ∀ mem, encodeProduct mem buffer size info data = (ok, writeBytes mem buffer bs) := by
  by_cases hfit : (header info).length ≤ size % 2 ^ 32
  · refine ⟨true, header info ++ data, by rw [length_append]; exact hroom, fun mem => ?_⟩
    simp only [encodeProduct, encodeProdInfo_fits hfit, writeBytes_append]
  · obtain ⟨pos, bs, hlen, henc⟩ := encodeProdInfo_writes buffer size info
    refine ⟨false, bs, hlen, fun mem => ?_⟩
    have hnone : (encodeProdInfo mem buffer size info).1 = none := encodeProdInfo_short (not_le.1 hfit)
    rw [henc] at hnone
    simp only at hnone
    simp only [encodeProduct, henc, hnone]

theorem decodeProdInfo_header (hmem : readBytes mem buffer (header info).length = header info) :
    decodeProdInfo mem buffer size = if (header info).length ≤ size % 2 ^ 32 then
      some (stored info, buffer + (header info).length) else none := by
  rw [decodeProdInfo, parses_header info ⟨mem, buffer, size % 2 ^ 32⟩ hmem]
  split <;> rfl

theorem local_info : Local getInfo :=
  local_word.bind fun _ => local_word.bind fun _ => (local_bytes 16).bind fun _ => (local_string _).bind fun _ =>
    local_word.bind fun _ => local_word.bind fun _ => (local_string _).bind fun _ => local_word.bind fun _ => .pure _

theorem decodeProdInfo_congr {mem' : Memory}
    (h : ∀ a, buffer ≤ a → a < buffer + size → mem' a = mem a) :
    decodeProdInfo mem' buffer size = decodeProdInfo mem buffer size := by
  have hle := Nat.mod_le size (2 ^ 32)
  have hsame : Stream.Same ⟨mem, buffer, size % 2 ^ 32⟩ ⟨mem', buffer, size % 2 ^ 32⟩ :=
    ⟨rfl, rfl, fun a h1 h2 => h a h1 (by simp only at h2; omega)⟩
  exact local_info.result hsame

/-- **Metadata are read back**, and writer and reader agree on where the payload begins, exactly if the buffer's size,
taken as a 32-bit number, leaves room for them with the strings cut. -/
theorem prodInfo_round_trip (mem : Memory) (buffer : Int) (size : Nat) {info : ProdInfo}
    (hsec : 0 ≤ info.arrival.sec ∧ info.arrival.sec < 2 ^ 31)
    (husec : 0 ≤ info.arrival.usec ∧ info.arrival.usec < 10 ^ 6) (horigin : 0 ∉ info.origin) (hident : 0 ∉ info.ident) :
    (∃ data mem' info', encodeProdInfo mem buffer size info = (some data, mem') ∧
      decodeProdInfo mem' buffer size = some (info', data) ∧
      info' = { info with origin := info.origin.take 64, ident := info.ident.take 255 } ∧
      data = buffer + getEncodedInfoSize info' ∧ data ≤ buffer + getEncodedInfoSize info) ↔
    getEncodedInfoSize { info with origin := info.origin.take 64, ident := info.ident.take 255 } ≤ size % 2 ^ 32 := by
  have hstored : stored info = { info with origin := info.origin.take 64, ident := info.ident.take 255 } :=
    stored_eq ⟨by omega, hsec.2⟩ ⟨by omega, by omega⟩ horigin hident
  rw [← hstored, ← length_header]
  constructor
  · rintro ⟨data, mem', info', henc, -⟩
    refine Nat.not_lt.1 fun hshort => ?_
    have hnone : (encodeProdInfo mem buffer size info).1 = none := encodeProdInfo_short hshort
    rw [henc] at hnone
    cases hnone
  · intro hfits
    refine ⟨_, _, stored info, encodeProdInfo_fits hfits, ?_, rfl, ?_, ?_⟩
    · rw [decodeProdInfo_header (readBytes_write mem buffer (header info)), if_pos hfits]
    · rw [length_header]
    · have hle := length_header_le info
      omega

def longOrigin : ProdInfo := { arrival := ⟨5, 999999⟩, origin := List.replicate 70 97, ident := [105, 100], sz := 7 }

theorem prodInfo_round_trip_cut : ∃ data mem', encodeProdInfo (fun _ => 0) 0 120 longOrigin = (some data, mem') ∧
    decodeProdInfo mem' 0 120 = some ({ longOrigin with origin := List.replicate 64 97 }, data) ∧ data ≤ 120 := by
  obtain ⟨data, mem', info', henc, hdec, hinfo, -, hle⟩ := (@prodInfo_round_trip (fun _ => 0) 0 120 longOrigin
    (by decide) (by decide) (by decide) (by decide)).2 (by decide)
  refine ⟨data, mem', henc, ?_, Int.le_trans hle (by decide)⟩
  rw [hdec, hinfo]
  rfl

/-- A buffer of 4 GiB is large enough, but its size is passed on as zero. -/
theorem encodeProdInfo_wide : getEncodedInfoSize default ≤ 2 ^ 32 ∧
    ∀ mem buffer, (encodeProdInfo mem buffer (2 ^ 32) default).1 = none := by
  refine ⟨by decide, fun mem buffer => encodeProdInfo_short ?_⟩
  rw [length_header]
  decide

/-! ## Replacing the signature -/

def getTail : Get ProdInfo := do
  let origin ← getString HOSTNAMESIZE
  let feedtype ← getWord
  let seqno ← getWord
  let ident ← getString 255
  let sz ← getWord
  return {
    origin := origin
    feedtype := UInt32.ofNat feedtype
    seqno := UInt32.ofNat seqno
    ident := ident
    sz := UInt32.ofNat sz }

theorem takes_tail : Takes getTail 20 :=
  (takes_string _).bind fun _ => takes_word.bind fun _ => takes_word.bind fun _ => (takes_string _).bind fun _ =>
    takes_word.bind fun _ => .pure _

def withHead (sec usec : Nat) (signature : List UInt8) (tail : ProdInfo) : ProdInfo := { tail with
  arrival := ⟨intOfWord sec, intOfWord usec⟩
  signature := if h : signature.length = 16 then ⟨signature, h⟩ else default }

theorem getInfo_eq : getInfo = do
    let sec ← getWord
    let usec ← getWord
    let signature ← getBytes 16
    let tail ← getTail
    return withHead sec usec signature tail := by
  simp only [getInfo, getTail, withHead, bind_assoc, pure_bind]

theorem getInfo_run {x : Stream} (h : 24 ≤ x.handy) : getInfo.run x = (getTail.run (x.skip 24)).map fun (tail, y) =>
    (withHead (ofWord (readBytes x.mem x.pos 4)) (ofWord (readBytes x.mem (x.pos + 4) 4))
      (readBytes x.mem (x.pos + 8) 16) tail, y) := by
  have h1 : 4 ≤ (x.skip 4).handy := by simp only [Stream.skip]; omega
  have h2 : 16 ≤ (x.skip 8).handy := by simp only [Stream.skip]; omega
  simp only [getInfo_eq, StateT.run_bind, getWord_run (show 4 ≤ x.handy by omega), getWord_run h1, Stream.skip_skip,
    getBytes_run h2, Option.bind_eq_bind, Option.bind_some]
  cases getTail.run (x.skip 24) <;> rfl

theorem takes_info : Takes getInfo 44 := by
  rw [getInfo_eq]
  exact takes_word.bind fun _ => takes_word.bind fun _ => (takes_bytes 16).bind fun _ =>
    takes_tail.bind fun _ => .pure _

/-- **Only the signature is replaced**: in a buffer that holds a product `UpdateSignature` succeeds, and nothing from
the payload on has changed. -/
theorem updateSignature_replaces (mem : Memory) (buffer : Int) (size : Nat) (info : ProdInfo) (data : Int)
    (hdec : decodeProdInfo mem buffer size = some (info, data)) (newSig : Signature) :
    ∃ mem', updateSignature mem (some buffer) size newSig = (true, mem') ∧
      decodeProdInfo mem' buffer size = some ({ info with signature := newSig }, data) ∧ ∀ a, data ≤ a →
      mem' a = mem a := by
  obtain ⟨⟨info', y⟩, hrun, he⟩ := Option.map_eq_some_iff.1 hdec
  cases he
  obtain ⟨bs, h44, hlen, -⟩ := takes_info _ _ _ hrun
  have hlen : bs.length ≤ size % 2 ^ 32 := hlen
  have hroom : 24 ≤ size % 2 ^ 32 := by omega
  have hle := Nat.mod_le size (2 ^ 32)
  have hsize := newSig.size
  have hout : ∀ {q : Int} {m : Nat}, q + m ≤ buffer + 8 ∨ buffer + 24 ≤ q →
      readBytes (writeBytes mem (buffer + 8) newSig.bytes) q m = readBytes mem q m :=
      fun h => readBytes_write_out (by omega)
  have hsig : readBytes (writeBytes mem (buffer + 8) newSig.bytes) (buffer + 8) 16 = newSig.bytes := by
    rw [← hsize]
    exact readBytes_write mem (buffer + 8) newSig.bytes
  -- the items behind the signature stand where they stood
  rw [getInfo_run hroom] at hrun
  obtain ⟨⟨tail, y⟩, htail, he⟩ := Option.map_eq_some_iff.1 hrun
  obtain ⟨ts, -, hfit, hread, rfl, hparse⟩ := takes_tail _ _ _ htail
  have htail' := (hparse (Stream.skip ⟨writeBytes mem (buffer + 8) newSig.bytes, buffer, size % 2 ^ 32⟩ 24)
    ((hout (Or.inr (Int.le_refl _))).trans hread)).trans (if_pos hfit)
  cases he
  refine ⟨_, by rw [updateSignature, if_neg (by omega)], ?_, fun a ha => writeBytes_out ?_⟩
  · rw [decodeProdInfo, getInfo_run hroom, htail']
    simp only [Option.map_some, hout (show buffer + (4 : Nat) ≤ buffer + 8 ∨ _ by omega),
      hout (show buffer + 4 + (4 : Nat) ≤ buffer + 8 ∨ _ by omega), hsig]
    simp [withHead, hsize, Stream.skip]
  · simp only [Stream.skip] at ha
    omega

def shortOrigin : ProdInfo := { longOrigin with origin := [97, 98] }

theorem updateSignature_replaces_short : ∃ mem', updateSignature (writeBytes (fun _ => 0) 0 (header shortOrigin ++ [7]))
      (some 0) 53 (Signature.fill 3) = (true, mem') ∧
    decodeProdInfo mem' 0 53 = some ({ shortOrigin with signature := Signature.fill 3 }, 52) ∧ mem' 52 = 7 := by
  have hdec : decodeProdInfo (writeBytes (fun _ => 0) 0 (header shortOrigin ++ [7])) 0 53 = some (shortOrigin, 52) := by
    decide +kernel
  obtain ⟨mem', hupd, hdec', hrest⟩ := updateSignature_replaces _ 0 53 shortOrigin 52 hdec (Signature.fill 3)
  exact ⟨mem', hupd, hdec', (hrest 52 (Int.le_refl 52)).trans (by decide +kernel)⟩

end Rdm.SunRpcSerializer
