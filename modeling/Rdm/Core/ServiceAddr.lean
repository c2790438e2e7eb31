import Rdm.Core.ConfParser
import Rdm.Core.FeedTypeParse

/-!
# Host and port

`ToString` puts brackets around a host with a colon, and `Parse` takes the last colon behind them. The port goes through
`std::stoul`, which takes more than numerals.
-/

namespace Rdm.ServiceAddr

open FeedType (isspace)
open List Option

variable {c : Char} {s t host : List Char} {port : Nat}

def toString (host : List Char) (port : Nat) : List Char :=
  if ':' ∈ host then '[' :: host ++ "]:".toList ++ Nat.toDigits 10 port else host ++ ':' :: Nat.toDigits 10 port

/-! ## Finding the separator -/

theorem findLastOf_append (h : c ∉ t) : findLastOf c (s ++ c :: t) = some s.length := by
  have hfirst : (t.reverse ++ c :: s.reverse).findIdx? (· = c) = some t.length := by
    rw [findIdx?_append, findIdx?_eq_none_iff.2, findIdx?_cons]
    · simp
    · intro x hx
      simpa using fun he : x = c => h (he ▸ mem_reverse.1 hx)
  rw [findLastOf, reverse_append, reverse_cons, append_assoc, singleton_append, hfirst, map_some, length_append,
    length_cons]
  congr 1
  omega

theorem findLastOf_absent (h : c ∉ s) : findLastOf c s = none := by
  rw [findLastOf, findIdx?_eq_none_iff.2, map_none]
  intro x hx
  simpa using fun he : x = c => h (he ▸ mem_reverse.1 hx)

theorem findFirstOf_append (h : c ∉ s) : findFirstOf c (s ++ c :: t) = some s.length := by
  rw [findFirstOf, findIdx?_append, findIdx?_eq_none_iff.2, findIdx?_cons]
  · simp
  · intro x hx
    simpa using fun he : x = c => h (he ▸ hx)

/-! ## Numerals -/

theorem not_mem_toDigits (h : c.isDigit = false) : c ∉ Nat.toDigits 10 port := by
  intro hc
  have := Nat.isDigit_of_mem_toDigits (by decide) (by decide) hc
  rw [h] at this
  cases this

theorem stoul_plain (h : ∀ c ∈ s.head?, isspace c = false ∧ c ≠ '+' ∧ c ≠ '-') : stoul s =
    if s.takeWhile Char.isDigit = [] ∨ 2 ^ 64 ≤ Nat.ofDigitChars 10 (s.takeWhile Char.isDigit) 0 then none
    else some (Nat.ofDigitChars 10 (s.takeWhile Char.isDigit) 0) := by
  cases s with
  | nil => rfl
  | cons c s =>
    obtain ⟨hspace, hplus, hminus⟩ := h c rfl
    simp [stoul, hspace, hplus, hminus]

theorem plain_of_isDigit (h : c.isDigit = true) : isspace c = false ∧ c ≠ '+' ∧ c ≠ '-' := by
  refine ⟨(FeedType.isalnum_plain (by rw [FeedType.isalnum, h]; rfl)).1, ?_, ?_⟩ <;>
  · rintro rfl
    cases h

theorem parsePort_toDigits (h : port < 2 ^ 16) : parsePort (Nat.toDigits 10 port) = some port := by
  have hdigits : ∀ c ∈ Nat.toDigits 10 port, c.isDigit = true := fun c hc =>
    Nat.isDigit_of_mem_toDigits (by decide) (by decide) hc
  have hplain : stoul (Nat.toDigits 10 port) = some port := by
    rw [stoul_plain, takeWhile_eq_self_iff.2 hdigits, Nat.ofDigitChars_ten_toDigits, if_neg]
    · exact not_or.2 ⟨Nat.toDigits_ne_nil, by omega⟩
    · intro c hc
      exact plain_of_isDigit (hdigits c (mem_of_head? hc))
  rw [parsePort, hplain]
  exact if_neg (by omega)

/-! ## The round trip -/

theorem hostAndPort_separated {defaultHost : List Char} {defaultPort : Nat}
    (h : hasPortSeparator (s ++ ':' :: t) = true) (ht : ':' ∉ t) : hostAndPort (s ++ ':' :: t) defaultHost defaultPort
      = (parsePort t).map (if s = [] then defaultHost else stripBrackets s, ·) := by
  have hport : drop (s.length + 1) (s ++ ':' :: t) = t := by
    rw [← drop_drop, drop_left]
    rfl
  rw [hostAndPort, if_pos h, findLastOf_append ht]
  simp only [bind_eq_bind, bind_some, hport, take_left, map_eq_bind]
  rfl

theorem parse_separated {defaultHost : List Char} {defaultPort : Nat} (h : hasPortSeparator (s ++ ':' :: t) = true)
    (ht : ':' ∉ t) (hs : s ≠ []) (hhost : stripBrackets s = host) (hne : host ≠ []) (hport : parsePort t = some port) :
    parse (s ++ ':' :: t) defaultHost defaultPort = some (host, port) := by
  rw [parse, if_neg (by simp), hostAndPort_separated h ht, hport, map_some, if_neg hs, hhost]
  exact if_neg hne

/-- **What `ToString` writes, `Parse` reads**: every host without brackets and every port come back. -/
theorem parse_of_toString (host : List Char) (port : Nat) (hne : host ≠ []) (hopen : '[' ∉ host) (hclose : ']' ∉ host)
    (hport : port < 2 ^ 16) (defaultHost : List Char) (defaultPort : Nat) :
    parse (toString host port) defaultHost defaultPort = some (host, port) := by
  have hcolon : ':' ∉ Nat.toDigits 10 port := not_mem_toDigits rfl
  have hbracket : ']' ∉ Nat.toDigits 10 port := not_mem_toDigits rfl
  rw [toString]
  split
  case isTrue =>
    -- the brackets end in front of the separator
    have hlast : findLastOf ']' ('[' :: host ++ ']' :: ':' :: Nat.toDigits 10 port) = some (host.length + 1) :=
      findLastOf_append (by simp [hbracket])
    have hspec : '[' :: host ++ "]:".toList ++ Nat.toDigits 10 port
        = ('[' :: host ++ [']']) ++ ':' :: Nat.toDigits 10 port := by simp
    rw [hspec]
    apply parse_separated _ hcolon (by simp) _ hne (parsePort_toDigits hport)
    · rw [hasPortSeparator, findLastOf_append hcolon, append_assoc, singleton_append, hlast]
      simp
    · rw [stripBrackets, if_pos ⟨rfl, getLast?_concat⟩]
      simp
  case isFalse hno =>
    -- the only colon is the separator
    apply parse_separated _ hcolon hne _ hne (parsePort_toDigits hport)
    · rw [hasPortSeparator, findLastOf_append hcolon, findLastOf_absent (by simp [hclose, hbracket]),
        findFirstOf_append hno]
      simp
    · rw [stripBrackets, if_neg]
      intro h
      exact hopen (mem_of_head? h.1)

theorem parse_of_toString_ipv6 : "::1".toList ≠ [] ∧ '[' ∉ "::1".toList ∧ ']' ∉ "::1".toList ∧ 388 < 2 ^ 16
    ∧ parse (toString "::1".toList 388) [] 0 = some ("::1".toList, 388) :=
  ⟨by decide, by decide, by decide, by decide,
    parse_of_toString _ _ (by decide) (by decide) (by decide) (by decide) _ _⟩

/-! ## What is taken as a port -/

def portText (spec : List Char) : List Char :=
  match findLastOf ':' spec with
  | some lastColon => spec.drop (lastColon + 1)
  | none => []

/-- The host that goes with it. -/
def hostText (spec defaultHost : List Char) : List Char :=
  match findLastOf ':' spec with
  | some lastColon => if spec.take lastColon = [] then defaultHost else stripBrackets (spec.take lastColon)
  | none => []

/-- Whether a minus sign comes after the white space, and the digits after that or a plus sign. -/
def signedDigits (s : List Char) : Bool × List Char :=
  let s := s.dropWhile isspace
  (s.head? = some '-', (if s.head? = some '-' ∨ s.head? = some '+' then s.tail else s).takeWhile Char.isDigit)

/-- Texts that no port is read from: there are no digits, or the number, which is taken from 2 ^ 64 behind a minus sign,
is larger than 65535. -/
def NoPort (s : List Char) : Prop :=
  let (negative, ds) := signedDigits s
  let n := Nat.ofDigitChars 10 ds 0
  ds = [] ∨ 2 ^ 64 ≤ n ∨ if negative then 0 < n ∧ n < 2 ^ 64 - 0xFFFF else 0xFFFF < n

instance (s : List Char) : Decidable (NoPort s) := inferInstanceAs (Decidable (_ ∨ _ ∨ _))

theorem parsePort_eq_none : parsePort s = none ↔ NoPort s := by
  unfold parsePort NoPort signedDigits stoul
  dsimp only
  generalize (if (s.dropWhile isspace).head? = some '-' ∨ (s.dropWhile isspace).head? = some '+' then
    (s.dropWhile isspace).tail else s.dropWhile isspace).takeWhile Char.isDigit = ds
  generalize Nat.ofDigitChars 10 ds 0 = n
  by_cases hds : ds = [] ∨ 2 ^ 64 ≤ n
  · rw [if_pos hds]
    exact iff_of_true rfl (hds.imp_right .inl)
  · rw [if_neg hds]
    obtain ⟨hne, hlt⟩ := not_or.1 hds
    by_cases hneg : (s.dropWhile isspace).head? = some '-'
    · simp only [hneg, hne, if_true, decide_true, ite_eq_left_iff, reduceCtorEq, false_or, imp_false, Decidable.not_not]
      omega
    · simp only [hneg, hne, if_false, decide_false, ite_eq_left_iff, reduceCtorEq, false_or, imp_false,
        Decidable.not_not]
      omega

theorem parse_eq {spec defaultHost : List Char} {defaultPort : Nat} (hsep : hasPortSeparator spec = true) :
    parse spec defaultHost defaultPort = if hostText spec defaultHost = [] then none
      else (parsePort (portText spec)).map (hostText spec defaultHost, ·) := by
  have hne : spec ≠ [] := by
    rintro rfl
    cases hsep
  rw [parse, if_neg hne, hostAndPort, if_pos hsep, hostText, portText]
  unfold hasPortSeparator at hsep
  cases hcolon : findLastOf ':' spec with
  | none => rw [hcolon] at hsep; cases hsep
  | some lastColon =>
    simp only [bind_eq_bind, bind_some]
    cases parsePort (spec.drop (lastColon + 1)) with
    | none => simp
    | some port => rfl

/-- **A port is a numeral of 16 bits** exactly if the text behind the separator is all digits, or the specification is
rejected because no port can be read or there is no host. -/
theorem parse_port_numeral (spec defaultHost : List Char) (defaultPort : Nat) (hsep : hasPortSeparator spec = true) :
    (∀ host port, parse spec defaultHost defaultPort = some (host, port) →
      portText spec ≠ [] ∧ (∀ c ∈ portText spec, c.isDigit = true) ∧ Nat.ofDigitChars 10 (portText spec) 0 ≤ 65535
        ∧ port = Nat.ofDigitChars 10 (portText spec) 0) ↔
    (∀ c ∈ portText spec, c.isDigit = true) ∨ NoPort (portText spec) ∨ hostText spec defaultHost = [] := by
  simp only [parse_eq hsep]
  by_cases hhost : hostText spec defaultHost = []
  · exact iff_of_true (by simp [hhost]) (.inr (.inr hhost))
  by_cases hno : NoPort (portText spec)
  · exact iff_of_true (by simp [hhost, parsePort_eq_none.2 hno]) (.inr (.inl hno))
  obtain ⟨port, hport⟩ := Option.ne_none_iff_exists'.1 (mt parsePort_eq_none.1 hno)
  rw [if_neg hhost, hport, map_some, or_iff_left (not_or.2 ⟨hno, hhost⟩)]
  refine ⟨fun h => (h _ _ rfl).2.1, fun hall => ?_⟩
  rintro _ _ ⟨⟩
  -- all digits: `stoul` reads the whole text
  have hplain : ∀ c ∈ (portText spec).head?, isspace c = false ∧ c ≠ '+' ∧ c ≠ '-' :=
    fun c hc => plain_of_isDigit (hall c (mem_of_head? hc))
  rw [parsePort, stoul_plain hplain, takeWhile_eq_self_iff.2 hall] at hport
  split at hport
  · next n hread =>
    obtain ⟨hmax, ⟨⟩⟩ := ite_none_left_eq_some.1 hport
    obtain ⟨hdigits, ⟨⟩⟩ := ite_none_left_eq_some.1 hread
    exact ⟨(not_or.1 hdigits).1, hall, Nat.not_lt.1 hmax, rfl⟩
  · cases hport

theorem parse_port_numeral_ldm : hasPortSeparator "a:388".toList = true ∧ portText "a:388".toList = "388".toList
    ∧ parse "a:388".toList [] 0 = some ("a".toList, 388) ∧ 388 = Nat.ofDigitChars 10 (portText "a:388".toList) 0 :=
  ⟨by decide, by decide, by decide, ((parse_port_numeral "a:388".toList [] 0 (by decide)).2 (.inl (all_eq_true.1 rfl))
    "a".toList 388 (by decide)).2.2.2⟩

/-- White space, a sign and other text around the port are taken. -/
theorem parse_port_lenient : parse "a: +80x".toList [] 0 = some ("a".toList, 80)
    ∧ (portText "a: +80x".toList).all Char.isDigit = false := by decide

end Rdm.ServiceAddr
