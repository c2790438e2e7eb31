import Rdm.Core.FeedType

/-!
# Lines of the configuration file

`ConfParser::Tokenize` splits a line into words, which can be quoted. A `REQUEST` line gives a rule: feeds, a pattern,
and the host and port that `ServiceAddr::Parse` finds.
-/

namespace Rdm

open FeedType (isspace)
open List

def quote : Char := '\x22'

def backslash : Char := '\x5c'

def bytesOf (text : List Char) : List UInt8 := text.map fun c => UInt8.ofNat c.toNat

def textOf (bs : List UInt8) : List Char := bs.map fun b => Char.ofNat b.toNat

theorem toNat_charOfByte (b : UInt8) : (Char.ofNat b.toNat).toNat = b.toNat := by
  have hlt : b.toNat < 256 := b.toNat_lt
  have hvalid : b.toNat.isValidChar := .inl (by omega)
  rw [Char.ofNat, dif_pos hvalid]
  rfl

theorem bytesOf_textOf (bs : List UInt8) : bytesOf (textOf bs) = bs := by
  rw [bytesOf, textOf, map_map]
  refine (map_congr_left fun b _ => ?_).trans (map_id bs)
  rw [Function.comp_apply, toNat_charOfByte]
  exact UInt8.ofNat_toNat

theorem toNat_lt_of_mem_textOf {c : Char} {bs : List UInt8} (h : c ∈ textOf bs) : c.toNat < 256 := by
  obtain ⟨b, -, rfl⟩ := mem_map.1 h
  rw [toNat_charOfByte]
  exact b.toNat_lt

theorem bytesOf_eq_iff {text : List Char} {bs : List UInt8} (h : ∀ c ∈ text, c.toNat < 256) :
    bytesOf text = bs ↔ text = textOf bs := by
  refine ⟨fun he => ?_, fun he => he ▸ bytesOf_textOf bs⟩
  rw [← he, bytesOf, textOf, map_map]
  refine ((map_congr_left fun c hc => ?_).trans (map_id text)).symm
  simp only [Function.comp, UInt8.toNat_ofNat', Nat.mod_eq_of_lt (h c hc), Char.ofNat_toNat, id]

def pushWord (tokens : List (List Char)) (current : List Char) : List (List Char) :=
  if current = [] then tokens else tokens ++ [current]

theorem mem_pushWord {tokens : List (List Char)} {current t : List Char} (h : t ∈ pushWord tokens current) :
    t ∈ tokens ∨ t = current ∧ t ≠ [] := by
  unfold pushWord at h
  split at h
  · exact .inl h
  · next hne =>
    rcases mem_append.1 h with h | h
    · exact .inl h
    · have he := mem_singleton.1 h
      exact .inr ⟨he, he ▸ hne⟩

structure RequestRule where
  feedtype : FeedType
  pattern : List Char
  upstreamHost : List Char
  port : Nat
deriving DecidableEq

namespace ServiceAddr

def findFirstOf (c : Char) (s : List Char) : Option Nat := s.findIdx? (· = c)

def findLastOf (c : Char) (s : List Char) : Option Nat := (s.reverse.findIdx? (· = c)).map fun i => s.length - 1 - i

def stoul (s : List Char) : Option Nat :=
  let s := s.dropWhile isspace
  let negative := s.head? = some '-'
  let s := if s.head? = some '-' ∨ s.head? = some '+' then s.tail else s
  let ds := s.takeWhile Char.isDigit
  let n := Nat.ofDigitChars 10 ds 0
  if ds = [] ∨ 2 ^ 64 ≤ n then none else some (if negative then (2 ^ 64 - n) % 2 ^ 64 else n)

def parsePort (s : List Char) : Option Nat :=
  match stoul s with
  | some n => if 0xFFFF < n then none else some n
  | none => none

def stripBrackets (s : List Char) : List Char :=
  if s.head? = some '[' ∧ s.getLast? = some ']' then s.tail.dropLast else s

def hasPortSeparator (spec : List Char) : Bool :=
  match findLastOf ':' spec with
  | none => false
  | some lastColon =>
    match findLastOf ']' spec with
    | some closeBracket => closeBracket < lastColon
    | none => findFirstOf ':' spec = some lastColon

def hostAndPort (spec defaultHost : List Char) (defaultPort : Nat) : Option (List Char × Nat) :=
  if hasPortSeparator spec then do
    let lastColon ← findLastOf ':' spec
    let port ← parsePort (spec.drop (lastColon + 1))
    let hostPart := spec.take lastColon
    some (if hostPart = [] then defaultHost else stripBrackets hostPart, port)
  else if spec.all Char.isDigit then (parsePort spec).map (defaultHost, ·)
  else some (stripBrackets spec, defaultPort)

def parse (spec defaultHost : List Char) (defaultPort : Nat) : Option (List Char × Nat) :=
  if spec = [] then none
  else
    match hostAndPort spec defaultHost defaultPort with
    | some (host, port) => if host = [] then none else some (host, port)
    | none => none

theorem parse_host {spec defaultHost host : List Char} {defaultPort port : Nat}
    (h : parse spec defaultHost defaultPort = some (host, port)) : host ≠ [] := by
  unfold parse at h
  split at h
  · cases h
  split at h
  · split at h
    · cases h
    · next hne =>
      cases h
      exact hne
  · cases h

end ServiceAddr

namespace ConfParser

def tokenizeLoop : List Char → List Char → Bool → Bool → List (List Char) → List (List Char)
  | [], current, _, _, tokens => pushWord tokens current
  | c :: line, current, inQuotes, escape, tokens =>
    if escape then tokenizeLoop line (current ++ [c]) inQuotes false tokens
    else if c = backslash then
      if inQuotes then tokenizeLoop line current inQuotes true tokens
      else tokenizeLoop line (current ++ [c]) inQuotes false tokens
    else if c = quote then tokenizeLoop line current (!inQuotes) false tokens
    else if isspace c ∧ inQuotes = false then tokenizeLoop line [] inQuotes false (pushWord tokens current)
    else if c = '#' ∧ inQuotes = false then pushWord tokens current
    else tokenizeLoop line (current ++ [c]) inQuotes false tokens

def tokenize (line : List Char) : List (List Char) := tokenizeLoop line [] false false []

theorem tokenizeLoop_ne_nil : ∀ {line current : List Char} {inQuotes escape : Bool} {tokens : List (List Char)},
    (∀ t ∈ tokens, t ≠ []) → ∀ t ∈ tokenizeLoop line current inQuotes escape tokens, t ≠ []
  | [], current, inQuotes, escape, tokens, h, t, ht => by
    rcases mem_pushWord ht with ht | ht
    · exact h t ht
    · exact ht.2
  | c :: line, current, inQuotes, escape, tokens, h, t, ht => by
    have hpush : ∀ t ∈ pushWord tokens current, t ≠ [] := fun t ht => (mem_pushWord ht).elim (h t) And.right
    rw [tokenizeLoop] at ht
    split at ht
    · exact tokenizeLoop_ne_nil h t ht
    split at ht
    · split at ht <;> exact tokenizeLoop_ne_nil h t ht
    split at ht
    · exact tokenizeLoop_ne_nil h t ht
    split at ht
    · exact tokenizeLoop_ne_nil hpush t ht
    split at ht
    · exact hpush t ht
    · exact tokenizeLoop_ne_nil h t ht

/-! ## Quoted words -/

def escaped (c : Char) : List Char := if c = quote ∨ c = backslash then [backslash, c] else [c]

def quoted (word : List Char) : List Char := quote :: word.flatMap escaped ++ [quote]

def joinQuoted (seps : List (List Char)) : List (List Char) → List Char
  | [] => []
  | word :: words => quoted word ++ (List.zipWith (fun sep word => sep ++ quoted word) seps words).flatten

def Trailer (tail : List Char) : Prop :=
  ∃ spaces comment, (∀ c ∈ spaces, isspace c = true) ∧ (comment = [] ∨ ∃ text, comment = '#' :: text) ∧
    tail = spaces ++ comment

variable {current rest : List Char} {tokens : List (List Char)}

theorem tokenizeLoop_escaped (word : List Char) : tokenizeLoop (word.flatMap escaped ++ rest) current true
    false tokens = tokenizeLoop rest (current ++ word) true false tokens := by
  induction word generalizing current with
  | nil => rw [flatMap_nil, nil_append, append_nil]
  | cons c word ih =>
    have hstep : tokenizeLoop (escaped c ++ (word.flatMap escaped ++ rest)) current true false tokens =
        tokenizeLoop (word.flatMap escaped ++ rest) (current ++ [c]) true false tokens := by
      unfold escaped
      by_cases hc : c = quote ∨ c = backslash
      · rw [if_pos hc]
        simp [tokenizeLoop]
      · rw [if_neg hc]
        rw [not_or] at hc
        simp [tokenizeLoop, hc.1, hc.2]
    rw [flatMap_cons, append_assoc, hstep, ih, append_assoc, singleton_append]

theorem tokenizeLoop_quoted (word : List Char) : tokenizeLoop (quoted word ++ rest) current false false tokens =
    tokenizeLoop rest (current ++ word) false false tokens := by
  have hopen : ∀ line, tokenizeLoop (quote :: line) current false false tokens = tokenizeLoop line current true false
    tokens :=
    fun line => by simp [tokenizeLoop, quote, backslash]
  have hclose : ∀ word, tokenizeLoop (quote :: rest) word true false tokens = tokenizeLoop rest word false false
    tokens :=
    fun word => by simp [tokenizeLoop, quote, backslash]
  rw [quoted, cons_append, cons_append, hopen, append_assoc, tokenizeLoop_escaped, singleton_append, hclose]

theorem isspace_ne {c : Char} (h : isspace c = true) : c ≠ backslash ∧ c ≠ quote ∧ c ≠ '#' := by
  refine ⟨?_, ?_, ?_⟩ <;> rintro rfl <;> revert h <;> decide

theorem tokenizeLoop_space {c : Char} (h : isspace c = true) : tokenizeLoop (c :: rest) current false false tokens =
    tokenizeLoop rest [] false false (pushWord tokens current) := by
  simp [tokenizeLoop, h, (isspace_ne h).1, (isspace_ne h).2.1]

theorem tokenizeLoop_spaces {spaces : List Char} (h : ∀ c ∈ spaces, isspace c = true) :
    tokenizeLoop (spaces ++ rest) [] false false tokens = tokenizeLoop rest [] false false tokens := by
  induction spaces with
  | nil => rfl
  | cons c spaces ih =>
    rw [cons_append, tokenizeLoop_space (h c mem_cons_self), pushWord, if_pos rfl]
    exact ih fun c hc => h c (mem_cons_of_mem _ hc)

theorem tokenizeLoop_separator {sep : List Char} (hne : sep ≠ []) (h : ∀ c ∈ sep, isspace c = true) :
    tokenizeLoop (sep ++ rest) current false false tokens = tokenizeLoop rest [] false
    false (pushWord tokens current) := by
  cases sep with
  | nil => exact absurd rfl hne
  | cons c sep =>
    rw [cons_append, tokenizeLoop_space (h c mem_cons_self)]
    exact tokenizeLoop_spaces fun c hc => h c (mem_cons_of_mem _ hc)

theorem tokenizeLoop_trailer {tail : List Char} (h : Trailer tail) :
    tokenizeLoop tail current false false tokens = pushWord tokens current := by
  obtain ⟨spaces, comment, hspaces, hcomment, rfl⟩ := h
  have hend : ∀ current tokens, tokenizeLoop comment current false false tokens = pushWord tokens current := by
    intro current tokens
    rcases hcomment with rfl | ⟨text, rfl⟩
    · rfl
    · simp [tokenizeLoop, quote, backslash, isspace]
  by_cases hnil : spaces = []
  · rw [hnil, nil_append, hend]
  · rw [tokenizeLoop_separator hnil hspaces, hend, pushWord, if_pos rfl]

theorem tokenizeLoop_joined {tail : List Char} (htail : Trailer tail) : ∀ {words seps : List (List Char)}
    {current : List Char}
    {tokens : List (List Char)}, words.length ≤ seps.length → (∀ t ∈ words, t ≠ []) → current ≠ [] →
    (∀ sep ∈ seps, sep ≠ [] ∧ ∀ c ∈ sep, isspace c = true) →
    tokenizeLoop ((List.zipWith (fun sep word => sep ++ quoted word) seps words).flatten ++ tail) current false
    false tokens =
      tokens ++ current :: words
  | [], seps, current, tokens, _, _, hcur, _ => by
    rw [zipWith_nil_right, flatten_nil, nil_append, tokenizeLoop_trailer htail, pushWord, if_neg hcur]
  | word :: words, [], _, _, hlen, _, _, _ => absurd hlen (Nat.not_succ_le_zero _)
  | word :: words, sep :: seps, current, tokens, hlen, hwords, hcur, hseps => by
    obtain ⟨hne, hspace⟩ := hseps sep mem_cons_self
    rw [zipWith_cons_cons, flatten_cons, append_assoc, append_assoc, tokenizeLoop_separator hne hspace,
      tokenizeLoop_quoted, nil_append, tokenizeLoop_joined htail (Nat.le_of_succ_le_succ hlen)
        (fun t ht => hwords t (mem_cons_of_mem _ ht)) (hwords word mem_cons_self)
        (fun s hs => hseps s (mem_cons_of_mem _ hs)), pushWord, if_neg hcur, append_assoc, singleton_append]

/-- **`Tokenize` undoes quoting**: words in quotes, separated by white space, are found again. -/
theorem tokenize_joinQuoted {words seps : List (List Char)} {tail : List Char} (hwords : ∀ t ∈ words, t ≠ [])
    (hlen : words.length ≤ seps.length + 1) (hseps : ∀ sep ∈ seps, sep ≠ [] ∧ ∀ c ∈ sep, isspace c = true)
    (htail : Trailer tail) : tokenize (joinQuoted seps words ++ tail) = words := by
  unfold tokenize
  cases words with
  | nil =>
    rw [joinQuoted, nil_append, tokenizeLoop_trailer htail]
    rfl
  | cons word words =>
    rw [joinQuoted, append_assoc, tokenizeLoop_quoted, nil_append,
      tokenizeLoop_joined htail (Nat.le_of_succ_le_succ hlen) (fun t ht => hwords t (mem_cons_of_mem _ ht))
        (hwords word mem_cons_self) hseps, nil_append]

/-- Two words with a separator of two characters and a comment; the second has a blank, a quotation mark and a
backslash. -/
theorem tokenize_joinQuoted_two :
    tokenize (joinQuoted [[' ', '\t']] [['a'], ['#', ' ', quote, backslash]] ++ [' ', '#', quote]) =
      [['a'], ['#', ' ', quote, backslash]] := by
  refine tokenize_joinQuoted (by decide) (by decide) ?_ ⟨[' '], ['#', quote], ?_, Or.inr ⟨[quote], rfl⟩, rfl⟩
  · intro sep hsep
    rw [mem_singleton.1 hsep]
    simp [isspace]
  · simp [isspace]

/-! ## Lines with a rule -/

def requestRule (fuel defaultPort : Nat) (line : List Char) : Option RequestRule :=
  match tokenize line with
  | [cmd, feed, pattern, hostSpec] =>
    if cmd.map Char.toUpper = "REQUEST".toList then
      match FeedType.parse fuel feed 0, ServiceAddr.parse hostSpec [] (defaultPort % 2 ^ 16) with
      | some (.ok, feedtype), some (host, port) => some ⟨feedtype, pattern, host, port⟩
      | _, _ => none
    else none
  | _ => none

theorem requestRule_ne_nil {fuel defaultPort : Nat} {line : List Char} {rule : RequestRule}
    (h : requestRule fuel defaultPort line = some rule) : rule.pattern ≠ [] ∧ rule.upstreamHost ≠ [] := by
  unfold requestRule at h
  split at h
  case h_2 => cases h
  case h_1 cmd feed pattern hostSpec htok =>
    have hne : ∀ t ∈ tokenize line, t ≠ [] := tokenizeLoop_ne_nil nofun
    rw [htok] at hne
    split at h
    case isFalse => cases h
    case isTrue =>
      split at h
      case h_2 => cases h
      case h_1 hhost =>
        cases h
        exact ⟨hne _ (by simp), ServiceAddr.parse_host hhost⟩

end ConfParser

end Rdm
