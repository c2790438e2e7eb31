import Rdm.Core.ServiceAddr
import Rdm.Core.SignatureText
import Rdm.Core.Wordexp
import Rdm.Network.Serializer
import Rdm.Pqact.StateFile

/-!
# The file with the last product

`SavedInfoFile` keeps the metadata of the last product in a file of one line. An origin that is empty or has white space
does not come back (`origin_lost`).
-/

namespace Rdm

open FeedType (isspace)
open RdmEngine (decimal)
open StateFile (getlines formatLong)

/-! ## Input streams -/

/-- `std::istringstream`: what is left of the text, and the two flags. -/
structure IStream where
  text : List Char
  eof : Bool := false
  fail : Bool := false

namespace IStream

def skip (s : IStream) : IStream :=
  if s.eof ∨ s.fail then { s with fail := true }
  else
    let text := s.text.dropWhile isspace
    if text = [] then ⟨[], true, true⟩ else { s with text := text }

def ws (s : IStream) : IStream :=
  if s.eof ∨ s.fail then { s with fail := true }
  else
    let text := s.text.dropWhile isspace
    ⟨text, text = [], false⟩

def getWord (s : IStream) (old : List Char) : List Char × IStream :=
  let s := s.skip
  if s.fail then (old, s)
  else
    let rest := s.text.dropWhile fun c => !isspace c
    (s.text.takeWhile fun c => !isspace c, ⟨rest, rest = [], false⟩)

def digits (text : List Char) : Bool × List Char × List Char :=
  let negative : Bool := text.head? = some '-'
  let text := if text.head? = some '-' ∨ text.head? = some '+' then text.tail else text
  (negative, text.takeWhile Char.isDigit, text.dropWhile Char.isDigit)

def getSigned (bits : Nat) (s : IStream) (old : Int) : Int × IStream :=
  let s := s.skip
  if s.fail then (old, s)
  else
    let (negative, ds, rest) := digits s.text
    let n : Int := if negative then -(Nat.ofDigitChars 10 ds 0 : Int) else (Nat.ofDigitChars 10 ds 0 : Int)
    if ds = [] then (0, ⟨rest, rest = [], true⟩)
    else if 2 ^ (bits - 1) ≤ n then (2 ^ (bits - 1) - 1, ⟨rest, rest = [], true⟩)
    else if n < -2 ^ (bits - 1) then (-2 ^ (bits - 1), ⟨rest, rest = [], true⟩)
    else (n, ⟨rest, rest = [], false⟩)

def getUnsigned (s : IStream) (old : UInt32) : UInt32 × IStream :=
  let s := s.skip
  if s.fail then (old, s)
  else
    let (negative, ds, rest) := digits s.text
    let n := Nat.ofDigitChars 10 ds 0
    if ds = [] then (0, ⟨rest, rest = [], true⟩)
    else if 2 ^ 32 ≤ n then (0xffffffff, ⟨rest, rest = [], true⟩)
    else (UInt32.ofNat (if negative then 2 ^ 32 - n else n), ⟨rest, rest = [], false⟩)

def getFeedType (s : IStream) (old : FeedType) : FeedType × IStream :=
  let (raw, s) := s.getUnsigned 0
  (if s.fail then old else raw, s)

def getline (s : IStream) (old : List Char) : List Char :=
  if s.eof ∨ s.fail then old else s.text.takeWhile (· ≠ '\n')

end IStream

/-! ## The file -/

namespace SavedInfoFile

open Xdr (decode)

abbrev Files := List Char → Option (List Char)

def infoLine (info : ProdInfo) : List Char :=
  formatLong info.arrival.sec ++ ' ' :: (formatLong info.arrival.usec ++ ' ' :: (decimal info.feedtype.toNat ++ ' ' ::
    (decimal info.seqno.toNat ++ ' ' :: (decimal info.sz.toNat ++ ' ' :: (info.signature.toText ++ ' ' ::
      (textOf info.origin ++ ' ' :: textOf info.ident))))))

def infoText (info : ProdInfo) : List Char :=
  "# Modern LDM State File\n".toList ++
    ("# <sec> <usec> <feedtype> <seqno> <sz> <sig_hex> <origin> <ident>\n".toList ++ (infoLine info ++ "\n".toList))

/-- What the system does in a `Write`: whether there is a directory for the file, whether the temporary file can be
opened, and whether it can be renamed. -/
structure Io where
  directory : Bool
  opened : Bool
  renamed : Bool

def write (io : Io) (files : Files) (statePath : List Char) (info : ProdInfo) : Bool × Files :=
  if statePath = [] then (false, files)
  else if io.directory = false then (false, files)
  else if io.opened = false then (false, files)
  else
    let tmpPath := statePath ++ ".tmp".toList
    let files : Files := fun path => if path = tmpPath then some (infoText info) else files path
    if io.renamed then
      (true, fun path => if path = statePath then files tmpPath else if path = tmpPath then none else files path)
    else (false, files)

def readLine (out : ProdInfo) (line : List Char) : Option Bool × ProdInfo :=
  let (sec, s) := IStream.getSigned 64 ⟨line, false, false⟩ out.arrival.sec
  let (usec, s) := s.getSigned 32 out.arrival.usec
  let (feedtype, s) := s.getFeedType out.feedtype
  let (seqno, s) := s.getUnsigned out.seqno
  let (sz, s) := s.getUnsigned out.sz
  let (sigHex, s) := s.getWord []
  let (origin, s) := s.getWord (textOf out.origin)
  let s := s.ws
  let out := { out with
    arrival := ⟨sec, usec⟩, feedtype := feedtype, seqno := seqno, sz := sz, origin := bytesOf origin }
  if s.fail then (none, out)
  else
    let out := { out with ident := bytesOf (s.getline (textOf out.ident)) }
    match Signature.parse sigHex with
    | some signature => (some true, { out with signature := signature })
    | none => (some false, out)

def readLoop (parse : ProdInfo → List Char → Option Bool × ProdInfo) : List (List Char) → ProdInfo → Bool × ProdInfo
  | [], out => (false, out)
  | line :: lines, out =>
    if line = [] ∨ line.head? = some '#' then readLoop parse lines out
    else
      match parse out line with
      | (some ok, out) => (ok, out)
      | (none, out) => readLoop parse lines out

def readLines : List (List Char) → ProdInfo → Bool × ProdInfo := readLoop readLine

def read (files : Files) (statePath : List Char) (out : ProdInfo) : Bool × ProdInfo :=
  if statePath = [] then (false, out)
  else
    match files statePath with
    | none => (false, out)
    | some text => readLines (getlines text []) out

/-! ## Items of a line -/

section Items

variable {rest word : List Char}

theorem skip_blank (text : List Char) : IStream.skip ⟨' ' :: text, false, false⟩ =
    IStream.skip ⟨text, false, false⟩ := by
  simp [IStream.skip, show isspace ' ' = true by decide]

theorem skip_item (hne : word ≠ []) (hword : ∀ c ∈ word, isspace c = false) :
    IStream.skip ⟨word ++ rest, false, false⟩ = ⟨word ++ rest, false, false⟩ := by
  obtain ⟨c, word, rfl⟩ := List.exists_cons_of_ne_nil hne
  simp [IStream.skip, hword c]

theorem getWord_item (hne : word ≠ []) (hword : ∀ c ∈ word, isspace c = false) (old : List Char) :
    IStream.getWord ⟨' ' :: (word ++ ' ' :: rest), false, false⟩ old = (word, ⟨' ' :: rest, false, false⟩) := by
  have hstop : (!isspace ' ') = false := by decide
  have hkeep : ∀ c ∈ word, (!isspace c) = true := fun c hc => by rw [hword c hc]; rfl
  simp [IStream.getWord, skip_blank, skip_item hne hword, List.takeWhile_append_of_pos hkeep,
    List.dropWhile_append_of_pos hkeep, hstop]

theorem formatLong_item (n : Int) : ((formatLong n).head? ≠ some '#' ∧ formatLong n ≠ [])
    ∧ (∀ c ∈ formatLong n, isspace c = false) ∧ ∀ rest,
    IStream.digits (formatLong n ++ ' ' :: rest) = (decide (n < 0), Nat.toDigits 10 n.natAbs, ' ' :: rest) := by
  have hdigit : ∀ c ∈ Nat.toDigits 10 n.natAbs, c.isDigit = true := fun c hc =>
    Nat.isDigit_of_mem_toDigits (by decide) (by decide) hc
  have hplain := fun c hc => ServiceAddr.plain_of_isDigit (hdigit c hc)
  obtain ⟨d, ds, hds⟩ := List.exists_cons_of_ne_nil (@Nat.toDigits_ne_nil n.natAbs 10)
  obtain ⟨-, hplus, hminus⟩ := hplain d (hds ▸ List.mem_cons_self ..)
  have hhead : ∀ rest, (Nat.toDigits 10 n.natAbs ++ ' ' :: rest).head? = some d := fun rest => by rw [hds]; rfl
  have htake : ∀ rest, (Nat.toDigits 10 n.natAbs ++ ' ' :: rest).takeWhile Char.isDigit = Nat.toDigits 10 n.natAbs
      ∧ (Nat.toDigits 10 n.natAbs ++ ' ' :: rest).dropWhile Char.isDigit = ' ' :: rest := fun rest => by
    rw [List.takeWhile_append_of_pos hdigit, List.dropWhile_append_of_pos hdigit]
    simp [show ' '.isDigit = false by decide]
  unfold formatLong
  split
  case isTrue hneg =>
    refine ⟨⟨by simp, List.cons_ne_nil _ _⟩, List.forall_mem_cons.2 ⟨by decide, fun c hc => (hplain c hc).1⟩,
      fun rest => ?_⟩
    simp [IStream.digits, htake, hneg]
  case isFalse hpos =>
    refine ⟨⟨?_, Nat.toDigits_ne_nil⟩, fun c hc => (hplain c hc).1, fun rest => ?_⟩
    · rw [hds]
      rintro he
      cases he
      exact absurd (hdigit '#' (hds ▸ List.mem_cons_self ..)) (by decide)
    simp [IStream.digits, hhead, htake, hpos, hplus, hminus]

theorem getSigned_item {bits : Nat} {n : Int} (hlow : -2 ^ (bits - 1) ≤ n) (hhigh : n < 2 ^ (bits - 1)) (old : Int) :
    IStream.getSigned bits ⟨formatLong n ++ ' ' :: rest, false, false⟩ old = (n, ⟨' ' :: rest, false, false⟩) := by
  obtain ⟨⟨-, hne⟩, hword, hdigits⟩ := formatLong_item n
  have hval : (if decide (n < 0) = true then -(n.natAbs : Int) else (n.natAbs : Int)) = n := by
    by_cases hneg : n < 0
    · rw [if_pos (decide_eq_true hneg)]
      omega
    · rw [if_neg (by simpa using hneg)]
      omega
  simp only [IStream.getSigned, skip_item hne hword, hdigits, Nat.ofDigitChars_ten_toDigits, hval]
  simp [Int.not_le.2 hhigh, Int.not_lt.2 hlow]

theorem getUnsigned_item (n : UInt32) (old : UInt32) :
    IStream.getUnsigned ⟨' ' :: (decimal n.toNat ++ ' ' :: rest), false, false⟩ old =
    (n, ⟨' ' :: rest, false, false⟩) := by
  have hdecimal : decimal n.toNat = formatLong (n.toNat : Int) := by rw [formatLong, if_neg (by omega)]; rfl
  obtain ⟨⟨-, hne⟩, hword, hdigits⟩ := formatLong_item (n.toNat : Int)
  have hpos : ¬(n.toNat : Int) < 0 := by omega
  rw [hdecimal]
  simp only [IStream.getUnsigned, skip_blank, skip_item hne hword, hdigits, Int.natAbs_natCast,
    Nat.ofDigitChars_ten_toDigits]
  simp [Nat.not_le.2 n.toNat_lt, hpos]

theorem getWord_eq (text old : List Char) : IStream.getWord ⟨text, false, false⟩ old =
    if text.dropWhile isspace = [] then (old, ⟨[], true, true⟩)
    else ((text.dropWhile isspace).takeWhile fun c => !isspace c,
      ⟨(text.dropWhile isspace).dropWhile fun c => !isspace c,
        (text.dropWhile isspace).dropWhile (fun c => !isspace c) = [], false⟩) := by
  by_cases h : text.dropWhile isspace = [] <;> simp [IStream.getWord, IStream.skip, h]

theorem mem_getWord {text old : List Char} {c : Char} (h : c ∈ (IStream.getWord ⟨text, false, false⟩ old).1) :
    c ∈ old ∨ c ∈ text := by
  rw [getWord_eq] at h
  split at h
  · exact .inl h
  · exact .inr ((List.dropWhile_sublist _).mem ((List.takeWhile_sublist _).mem h))

/-- A word is read as a whole exactly if it is not empty and has no white space in it. -/
theorem getWord_iff (old : List Char) :
    ((IStream.getWord ⟨' ' :: (word ++ ' ' :: rest), false, false⟩ old).2.ws.fail = false ∧
      (IStream.getWord ⟨' ' :: (word ++ ' ' :: rest), false, false⟩ old).1 = word) ↔
    word ≠ [] ∧ ∀ c ∈ word, isspace c = false := by
  constructor
  · rw [getWord_eq]
    split
    · rintro ⟨hws, -⟩
      cases hws
    · rintro ⟨-, hword⟩
      next hne =>
      refine ⟨?_, fun c hc => ?_⟩
      · rintro rfl
        obtain ⟨c, text, hc⟩ := List.exists_cons_of_ne_nil hne
        have hstart := List.head_dropWhile_not isspace hne
        simp only [hc, List.head_cons] at hstart
        rw [hc, List.takeWhile_cons_of_pos (by simp [hstart])] at hword
        cases hword
      · rw [← hword] at hc
        simpa using List.mem_takeWhile_imp hc
  · rintro ⟨hne, hword⟩
    rw [getWord_item hne hword]
    exact ⟨by simp [IStream.ws], rfl⟩

/-- The rest of a line is read as it is exactly if it does not start with white space; one of nothing else leaves the
old text. -/
theorem getline_iff (hline : '\n' ∉ rest) (old : List Char) :
    (IStream.ws ⟨' ' :: rest, false, false⟩).getline old = rest ↔
      if rest.all isspace then old = rest else ∀ c ∈ rest.head?, isspace c = false := by
  have htext : (' ' :: rest).dropWhile isspace = rest.dropWhile isspace :=
    List.dropWhile_cons_of_pos (by decide)
  simp only [IStream.ws, IStream.getline, Bool.false_eq_true, or_self, if_false, htext, decide_eq_true_eq, or_false]
  by_cases hall : rest.all isspace = true
  · rw [if_pos (List.dropWhile_eq_nil_iff.2 (List.all_eq_true.1 hall)), if_pos hall]
  · have hsome : rest.dropWhile isspace ≠ [] := fun h => hall (List.all_eq_true.2 (List.dropWhile_eq_nil_iff.1 h))
    have hkeep : (rest.dropWhile isspace).takeWhile (· ≠ '\n') = rest.dropWhile isspace :=
      List.takeWhile_eq_self_iff.2 fun c hc => by
        simpa using fun he : c = '\n' => hline (he ▸ (List.dropWhile_sublist _).mem hc)
    rw [if_neg hsome, if_neg hall, hkeep]
    cases rest with
    | nil => exact absurd rfl hall
    | cons c rest => simp [List.dropWhile_eq_self_iff]

end Items

/-! ## What is read back -/

/-- What is read of a line that was written depends on the origin and the identifier only. -/
theorem readLine_infoLine {info : ProdInfo} (hsec : -2 ^ 63 ≤ info.arrival.sec ∧ info.arrival.sec < 2 ^ 63)
    (husec : -2 ^ 31 ≤ info.arrival.usec ∧ info.arrival.usec < 2 ^ 31) (out : ProdInfo) :
    readLine out (infoLine info) =
      let w := IStream.getWord ⟨' ' :: (textOf info.origin ++ ' ' :: textOf info.ident), false, false⟩
        (textOf out.origin)
      let found := { info with origin := bytesOf w.1, ident := out.ident, signature := out.signature }
      if w.2.ws.fail then (none, found)
      else (some true, { info with origin := bytesOf w.1, ident := bytesOf (w.2.ws.getline (textOf out.ident)) }) := by
  have hblank : ∀ text bits old, IStream.getSigned bits ⟨' ' :: text, false, false⟩ old
      = IStream.getSigned bits ⟨text, false, false⟩ old := fun text bits old => by
    simp only [IStream.getSigned, skip_blank]
  have hsig : info.signature.toText ≠ [] := List.ne_nil_of_length_pos (by rw [Signature.length_toText]; decide)
  simp only [readLine, infoLine, @getSigned_item _ 64 _ hsec.1 hsec.2, hblank, @getSigned_item _ 32 _ husec.1 husec.2,
    IStream.getFeedType, getUnsigned_item, getWord_item hsig fun _ => Signature.isspace_toText, Signature.parse_toText]
  rfl

/-- The metadata whose line can be taken apart again: the origin is a word, and the identifier does not start with white
space. One of nothing but white space leaves the identifier that is there. -/
def Separable (info out : ProdInfo) : Prop :=
  (info.origin ≠ [] ∧ ∀ c ∈ textOf info.origin, isspace c = false) ∧
    if (textOf info.ident).all isspace then out.ident = info.ident else ∀ c ∈ (textOf info.ident).head?,
      isspace c = false

theorem readLine_iff {info out : ProdInfo} (hsec : -2 ^ 63 ≤ info.arrival.sec ∧ info.arrival.sec < 2 ^ 63)
    (husec : -2 ^ 31 ≤ info.arrival.usec ∧ info.arrival.usec < 2 ^ 31) (hline : '\n' ∉ textOf info.ident) :
    readLine out (infoLine info) = (some true, info) ↔ Separable info out := by
  have hempty : textOf info.origin ≠ [] ↔ info.origin ≠ [] := by simp [textOf]
  rw [readLine_infoLine hsec husec, Separable, ← hempty]
  dsimp only
  by_cases hword : textOf info.origin ≠ [] ∧ ∀ c ∈ textOf info.origin, isspace c = false
  · have hident : bytesOf ((IStream.ws ⟨' ' :: textOf info.ident, false, false⟩).getline (textOf out.ident)) =
      info.ident ↔
        if (textOf info.ident).all isspace then out.ident = info.ident
        else ∀ c ∈ (textOf info.ident).head?, isspace c = false := by
      rw [bytesOf_eq_iff, getline_iff hline, ← bytesOf_eq_iff fun _ => toNat_lt_of_mem_textOf, bytesOf_textOf]
      intro c hc
      unfold IStream.getline at hc
      split at hc
      · exact toNat_lt_of_mem_textOf hc
      · have hmem := (List.dropWhile_sublist _).mem ((List.takeWhile_sublist _).mem hc)
        exact toNat_lt_of_mem_textOf (show c ∈ textOf (32 :: info.ident) from hmem)
    rw [getWord_item hword.1 hword.2, if_neg (by simp [IStream.ws]), and_iff_right hword, ← hident, bytesOf_textOf]
    refine ⟨fun h => congrArg ProdInfo.ident (Prod.mk.inj h).2, fun h => ?_⟩
    rw [h]
  · refine iff_of_false (fun h => hword ?_) fun h => hword h.1
    split at h
    · cases h
    next hws =>
    have horigin := congrArg ProdInfo.origin (Prod.mk.inj h).2
    refine (getWord_iff _).1 ⟨by simpa using hws, (bytesOf_eq_iff fun c hc => ?_).1 horigin⟩
    rcases mem_getWord hc with hc | hc
    · exact toNat_lt_of_mem_textOf hc
    · refine @toNat_lt_of_mem_textOf _ (32 :: (info.origin ++ 32 :: info.ident)) ?_
      rw [textOf, List.map_cons, List.map_append]
      exact hc

theorem not_mem_line {word : List Char} (h : ∀ c ∈ word, isspace c = false) : '\n' ∉ word := fun hc =>
  absurd (h _ hc) (by decide)

theorem readLines_comment {l : List Char} (h : l.head? = some '#' ∧ l.getLast? = some '\n' ∧ '\n' ∉ l.dropLast)
    (rest : List Char) (out : ProdInfo) : readLines (getlines (l ++ rest) []) out = readLines (getlines rest [])
    out := by
  obtain ⟨line, hhash, hlines⟩ := StateFile.getlines_comment h rest
  rw [hlines, readLines, readLoop, if_pos (Or.inr hhash)]

theorem readLines_infoText {info : ProdInfo} (horigin : '\n' ∉ textOf info.origin) (hline : '\n' ∉ textOf info.ident)
    (out : ProdInfo) : readLines (getlines (infoText info) []) out = readLines [infoLine info] out ∧
      ¬ (infoLine info = [] ∨ (infoLine info).head? = some '#') := by
  obtain ⟨⟨hhash, hne⟩, hsec, -⟩ := formatLong_item info.arrival.sec
  have husec := (formatLong_item info.arrival.usec).2.1
  have hdecimal : ∀ n, '\n' ∉ decimal n := fun n => ServiceAddr.not_mem_toDigits (by decide)
  have hno : '\n' ∉ infoLine info := by
    simp [infoLine, hdecimal, not_mem_line hsec, not_mem_line husec, horigin, hline,
      not_mem_line fun _ => Signature.isspace_toText]
  constructor
  · unfold infoText
    refine (readLines_comment (by decide) _ _).trans ((readLines_comment (by decide) _ _).trans ?_)
    exact congrArg (readLines · out) (StateFile.getlines_line hno [] [])
  · obtain ⟨c, text, hc⟩ := List.exists_cons_of_ne_nil hne
    rw [hc] at hhash
    rw [infoLine, hc]
    exact not_or.2 ⟨List.cons_ne_nil _ _, hhash⟩

theorem decode_arrival {bs rest : List UInt8} {info : ProdInfo}
    (h : decode SunRpcSerializer.getInfo bs = some (info, rest)) :
    (-2 ^ 31 ≤ info.arrival.sec ∧ info.arrival.sec < 2 ^ 31) ∧ -2 ^ 31 ≤ info.arrival.usec ∧
      info.arrival.usec < 2 ^ 31 := by
  have hword : ∀ mem pos, Xdr.ofWord (Xdr.readBytes mem pos 4) < 2 ^ 32 := fun mem pos => by
    have h0 := (mem (pos + (0 : Nat))).toNat_lt
    have h1 := (mem (pos + (1 : Nat))).toNat_lt
    have h2 := (mem (pos + (2 : Nat))).toNat_lt
    have h3 := (mem (pos + (3 : Nat))).toNat_lt
    change (List.foldl _ _ [mem (pos + (0 : Nat)), mem (pos + (1 : Nat)), mem (pos + (2 : Nat)),
      mem (pos + (3 : Nat))]) < _
    simp only [List.foldl_cons, List.foldl_nil]
    omega
  obtain ⟨⟨info', y⟩, hrun, he⟩ := Option.map_eq_some_iff.1 h
  cases he
  obtain ⟨cs, h44, hlen, -⟩ := SunRpcSerializer.takes_info _ _ _ hrun
  rw [SunRpcSerializer.getInfo_run (by omega)] at hrun
  obtain ⟨⟨tail, z⟩, -, he⟩ := Option.map_eq_some_iff.1 hrun
  cases he
  have hsec := hword (Xdr.Stream.ofBytes bs).mem (Xdr.Stream.ofBytes bs).pos
  have husec := hword (Xdr.Stream.ofBytes bs).mem ((Xdr.Stream.ofBytes bs).pos + 4)
  simp only [SunRpcSerializer.withHead, SunRpcSerializer.intOfWord]
  omega

theorem write_true {io : Io} {files files' : Files} {statePath : List Char} {info : ProdInfo}
    (h : write io files statePath info = (true, files')) : statePath ≠ [] ∧
    files' statePath = some (infoText info) := by
  unfold write at h
  split_ifs at h with hpath <;> cases h
  exact ⟨hpath, by simp⟩

/-- **What was written is read back** exactly if the origin is not empty and has no white space in it, and the
identifier does not start with white space or is nothing else and there already. -/
theorem read_written (bs rest : List UInt8) (info out : ProdInfo) (io : Io) (files files' : Files)
    (statePath : List Char)
    (hwire : decode SunRpcSerializer.getInfo bs = some (info, rest)) (horigin : '\n' ∉ textOf info.origin)
    (hline : '\n' ∉ textOf info.ident) (hwrite : write io files statePath info = (true, files')) :
    read files' statePath out = (true, info) ↔ Separable info out := by
  obtain ⟨hsec, husec⟩ := decode_arrival hwire
  obtain ⟨hpath, hfile⟩ := write_true hwrite
  obtain ⟨htext, hstart⟩ := readLines_infoText horigin hline out
  rw [read, if_neg hpath, hfile, ← readLine_iff (by omega) husec hline]
  dsimp only
  rw [htext, readLines, readLoop, if_neg hstart]
  rcases readLine out (infoLine info) with ⟨_ | ok, found⟩ <;> simp [readLoop]

def sample (origin : List UInt8) : ProdInfo := { origin := origin, ident := [98, 32, 99] }

theorem read_written_sample : decode SunRpcSerializer.getInfo (SunRpcSerializer.header (sample [97])) = some
    (sample [97], [])
    ∧ read (write ⟨true, true, true⟩ (fun _ => none) ['f'] (sample [97])).2 ['f'] {} = (true, sample [97]) := by
  have hwire : decode SunRpcSerializer.getInfo (SunRpcSerializer.header (sample [97])) = some (sample [97], []) := by
    decide +kernel
  have hsep : Separable (sample [97]) {} := by
    refine ⟨⟨by decide, List.forall_mem_singleton.2 rfl⟩, ?_⟩
    rintro _ ⟨⟩
    rfl
  exact ⟨hwire,
    (read_written _ _ (sample [97]) {} ⟨true, true, true⟩ (fun _ => none) _ ['f'] hwire (by decide) (by decide)
    (Prod.ext rfl rfl)).2 hsep⟩

/-- An origin with a blank in it: what follows the blank is read as part of the identifier. -/
theorem origin_lost : decode SunRpcSerializer.getInfo (SunRpcSerializer.header (sample [97, 32, 97])) = some
    (sample [97, 32, 97], []) ∧ read (write ⟨true, true, true⟩ (fun _ => none) ['f'] (sample [97, 32, 97])).2 ['f'] {}
      = (true, { sample [97] with ident := [97, 32, 98, 32, 99] }) := by decide +kernel

end SavedInfoFile

end Rdm
