import Rdm.Core.FeedTypeString
import Rdm.Core.ProductStore

/-!
# The text of a signature

`Parse` gives two characters of the text for each byte to `sscanf`, whose `%2x` takes more than two digits
(`parse_lenient`).
-/

namespace Rdm.Signature

open FeedType (isspace hexDigit isDigitIn ofDigits)
open List

def scanByte (text : List Char) : Option UInt8 :=
  match (text.takeWhile (· ≠ '\x00')).dropWhile isspace with
  | [] => none
  | a :: rest =>
    let second := (rest.take 1).takeWhile (isDigitIn 16)
    if a = '+' ∨ a = '-' then
      if second = [] then none
      else some (if a = '-' then 0 - UInt8.ofNat (ofDigits 16 second) else UInt8.ofNat (ofDigits 16 second))
    -- a prefix with no digit behind it is not a number
    else if isDigitIn 16 a = false ∨ a = '0' ∧ (rest.head? = some 'x' ∨ rest.head? = some 'X') then none
    else some (UInt8.ofNat (ofDigits 16 (a :: second)))

def scanBytes : Nat → List Char → Option (List UInt8)
  | 0, _ => some []
  | n + 1, text => do
    let byte ← scanByte text
    let bytes ← scanBytes n (text.drop 2)
    return byte :: bytes

def parse (hexStr : List Char) : Option Signature :=
  if hexStr.length < 32 then none
  else (scanBytes 16 hexStr).bind fun bytes => if h : bytes.length = 16 then some ⟨bytes, h⟩ else none

def toText (sig : Signature) : List Char :=
    sig.bytes.flatMap fun b => [hexDigit (b.toNat / 16), hexDigit (b.toNat % 16)]

/-! ## What is accepted -/

def denoted : List Char → List UInt8
  | a :: b :: text => UInt8.ofNat (ofDigits 16 [a, b]) :: denoted text
  | _ => []

/-- Texts from which `%2x` takes no number: behind the white space there is neither a digit nor a sign with a digit, or
there is a prefix with no digit left in the width. -/
def refused (text : List Char) : Bool :=
  match (text.takeWhile (· ≠ '\x00')).dropWhile isspace with
  | [] => true
  | a :: rest =>
    if a = '+' ∨ a = '-' then !(rest.head?.any (isDigitIn 16))
    else !isDigitIn 16 a || a = '0' && (rest.head? = some 'x' || rest.head? = some 'X')

variable {a b : Char} {text : List Char}

theorem isDigitIn_ne {c : Char} (hc : isDigitIn 16 c = false) (ha : isDigitIn 16 a = true) : a ≠ c := by
  rintro rfl
  rw [ha] at hc
  cases hc

theorem scanByte_eq_none : scanByte text = none ↔ refused text = true := by
  unfold scanByte refused
  cases (text.takeWhile (· ≠ '\x00')).dropWhile isspace with
  | nil => exact iff_of_true rfl rfl
  | cons a rest =>
    by_cases hsign : a = '+' ∨ a = '-'
    · cases rest with
      | nil => simp [hsign]
      | cons c rest => cases hd : isDigitIn 16 c <;> simp [hsign, hd]
    · cases hd : isDigitIn 16 a <;> simp [hsign, hd, Decidable.or_iff_not_imp_left]

theorem scanByte_digits (hd : isDigitIn 16 a = true) (hb : isDigitIn 16 b = true) (text : List Char) :
    scanByte (a :: b :: text) = some (UInt8.ofNat (ofDigits 16 [a, b])) := by
  have halnum : FeedType.isalnum a = true := by
    unfold isDigitIn FeedType.digit at hd
    unfold FeedType.isalnum
    grind
  have hspace : isspace a = false := (FeedType.isalnum_plain halnum).1
  have hplus : a ≠ '+' := isDigitIn_ne (by decide) hd
  have hminus : a ≠ '-' := isDigitIn_ne (by decide) hd
  have hnul : a ≠ '\x00' := isDigitIn_ne (by decide) hd
  have hnul' : b ≠ '\x00' := isDigitIn_ne (by decide) hb
  have hx : b ≠ 'x' := isDigitIn_ne (by decide) hb
  have hX : b ≠ 'X' := isDigitIn_ne (by decide) hb
  simp [scanByte, hspace, hplus, hminus, hd, hb, hnul, hnul', hx, hX]

/-- The text is refused at the first two characters that are. -/
theorem scanBytes_eq_none {n : Nat} : scanBytes n text = none ↔ ∃ i < n, refused (text.drop (2 * i)) = true := by
  induction n generalizing text with
  | zero => simp [scanBytes]
  | succ n ih =>
    have hsplit : (∃ i < n + 1, refused (text.drop (2 * i)) = true) ↔
        refused text = true ∨ ∃ i < n, refused ((text.drop 2).drop (2 * i)) = true := by
      simp only [Nat.exists_lt_succ_left, drop_drop, Nat.mul_add, Nat.mul_zero, drop_zero, Nat.mul_one, Nat.add_comm 2]
    rw [hsplit, ← ih, ← scanByte_eq_none, scanBytes]
    cases scanByte text <;> cases scanBytes n (text.drop 2) <;> simp

theorem scanBytes_digits {n : Nat} (hlen : 2 * n ≤ text.length) (h : (text.take (2 * n)).all (isDigitIn 16) = true) :
    scanBytes n text = some (denoted (text.take (2 * n))) := by
  induction n generalizing text with
  | zero => simp [scanBytes, denoted]
  | succ n ih =>
    rcases text with _ | ⟨a, _ | ⟨b, text⟩⟩
    · exact absurd hlen (by simp)
    · exact absurd hlen (by simp; omega)
    rw [Nat.mul_add, Nat.mul_one, take_succ_cons, take_succ_cons] at h ⊢
    simp only [all_cons, Bool.and_eq_true] at h
    obtain ⟨ha, hb, hrest⟩ := h
    rw [scanBytes, scanByte_digits ha hb, drop_succ_cons, drop_succ_cons, drop_zero, ih (by simp at hlen; omega) hrest]
    rfl

theorem length_of_scanBytes {n : Nat} {bytes : List UInt8} (h : scanBytes n text = some bytes) : bytes.length = n := by
  induction n generalizing text bytes with
  | zero =>
    cases h
    rfl
  | succ n ih =>
    simp only [scanBytes, Option.bind_eq_bind, Option.bind_eq_some_iff] at h
    obtain ⟨byte, -, bytes', hrest, ⟨⟩⟩ := h
    rw [length_cons, ih hrest]

theorem map_parse (h : 32 ≤ text.length) : (parse text).map bytes = scanBytes 16 text := by
  rw [parse, if_neg (Nat.not_lt.2 h)]
  cases hscan : scanBytes 16 text with
  | none => rfl
  | some bytes => rw [Option.bind_some, dif_pos (length_of_scanBytes hscan), Option.map_some]

/-! ## What was written -/

theorem scanByte_hex (b : UInt8) (text : List Char) :
    scanByte (hexDigit (b.toNat / 16) :: hexDigit (b.toNat % 16) :: text) = some b := by
  have hlt : b.toNat < 256 := b.toNat_lt
  obtain ⟨-, hhigh, hx, -⟩ := FeedType.hexDigit_spec (b.toNat / 16) (by omega)
  obtain ⟨-, hlow, hy, -⟩ := FeedType.hexDigit_spec (b.toNat % 16) (by omega)
  rw [scanByte_digits hhigh hlow]
  simp [ofDigits, hx, hy, Nat.div_add_mod]

theorem scanBytes_toText (bs : List UInt8) :
    scanBytes bs.length (bs.flatMap fun b => [hexDigit (b.toNat / 16), hexDigit (b.toNat % 16)]) = some bs := by
  induction bs with
  | nil => rfl
  | cons b bs ih =>
    rw [flatMap_cons, cons_append, cons_append, nil_append, length_cons, scanBytes, scanByte_hex, drop_succ_cons,
      drop_succ_cons, drop_zero, ih]
    rfl

theorem length_toText (sig : Signature) : sig.toText.length = 32 := by
  simp [toText, length_flatMap, map_const', sig.size]

theorem isspace_toText {sig : Signature} {c : Char} (h : c ∈ sig.toText) : isspace c = false := by
  obtain ⟨b, -, hc⟩ := mem_flatMap.1 h
  have hlt : b.toNat < 256 := b.toNat_lt
  obtain ⟨n, hn, rfl⟩ : ∃ n < 16, c = hexDigit n := by
    rw [mem_cons, mem_singleton] at hc
    rcases hc with rfl | rfl
    · exact ⟨_, by omega, rfl⟩
    · exact ⟨_, by omega, rfl⟩
  exact (FeedType.isalnum_plain (FeedType.hexDigit_spec n hn).1).1

theorem parse_toText (sig : Signature) : parse sig.toText = some sig := by
  have hscan := scanBytes_toText sig.bytes
  rw [sig.size] at hscan
  rw [parse, if_neg (by rw [length_toText]; omega), toText, hscan, Option.bind_some, dif_pos sig.size]

/-- **`Parse` takes 32 hexadecimal digits and nothing else** exactly unless the text is long enough and not all digits
and `%2x` takes a number at each of the sixteen places; and it reads back what was written. -/
theorem parse_digits (hexStr : List Char) (sig : Signature) :
    ((parse hexStr).map bytes = (if 32 ≤ hexStr.length ∧ (hexStr.take 32).all (isDigitIn 16) = true
        then some (denoted (hexStr.take 32)) else none) ↔
      hexStr.length < 32 ∨ (hexStr.take 32).all (isDigitIn 16) = true ∨ ∃ i < 16, refused (hexStr.drop (2 * i)) = true)
    ∧ parse sig.toText = some sig := by
  refine ⟨?_, parse_toText sig⟩
  by_cases hshort : hexStr.length < 32
  · rw [parse, if_pos hshort, if_neg (by omega), Option.map_none]
    exact iff_of_true rfl (.inl hshort)
  have hlong : 32 ≤ hexStr.length := Nat.not_lt.1 hshort
  rw [map_parse hlong]
  by_cases hall : (hexStr.take 32).all (isDigitIn 16) = true
  · rw [if_pos ⟨hlong, hall⟩, scanBytes_digits hlong hall]
    exact iff_of_true rfl (.inr (.inl hall))
  · rw [if_neg fun h => hall h.2, scanBytes_eq_none]
    simp [hshort, hall]

/-- A sign, white space and a single digit: the bytes are 1, 0x21 and 1. -/
theorem parse_lenient : (parse ("+1 21g".toList ++ replicate 26 '0')).map bytes = some ([1, 33, 1] ++ replicate 13 0)
    ∧ (("+1 21g".toList ++ replicate 26 '0').take 32).all (isDigitIn 16) = false := by decide

end Rdm.Signature
