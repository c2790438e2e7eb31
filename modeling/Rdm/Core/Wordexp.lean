import Rdm.Core.ConfParser
import Rdm.Core.FeedTypeString

/-!
# The command of a requester

`RdmEngine::Run` writes the command of a requester as one text, with the pattern in quotes, and `Wordexp` splits it
again, without escapes.
-/

namespace Rdm

open FeedType (isspace)
open List (append_assoc append_nil cons_append nil_append)

variable {s : List Char}

namespace Wordexp

def expandLoop : List Char → List Char → Bool → List (List Char) → Option (List (List Char))
  | [], currentToken, inQuotes, tokens => if inQuotes then none else some (pushWord tokens currentToken)
  | c :: words, currentToken, true, tokens =>
    if c = quote then expandLoop words currentToken false tokens
    else expandLoop words (currentToken ++ [c]) true tokens
  | c :: words, currentToken, false, tokens =>
    if c = quote then expandLoop words currentToken true tokens
    else if isspace c then expandLoop words [] false (pushWord tokens currentToken)
    else if c = '#' then some (pushWord tokens currentToken)
    else expandLoop words (currentToken ++ [c]) false tokens

def expand (words : List Char) : Option (List (List Char)) :=
  let words := words.dropWhile isspace
  if words.head? = some '#' then some [] else expandLoop words [] false []

/-! ## Texts of one word -/

def Plain (s : List Char) : Prop := ∀ c ∈ s, isspace c = false ∧ c ≠ quote ∧ c ≠ '#'

instance (s : List Char) : Decidable (Plain s) :=
  List.decidableBAll (fun c => isspace c = false ∧ c ≠ quote ∧ c ≠ '#') s

theorem plain_nil : Plain [] := fun _ h => absurd h List.not_mem_nil

def Renders (text value : List Char) : Prop :=
  value ≠ [] ∧ ∀ rest current tokens,
    expandLoop (text ++ rest) current false tokens = expandLoop rest (current ++ value) false tokens

theorem expandLoop_plain : ∀ {text : List Char}, Plain text → ∀ rest current tokens,
    expandLoop (text ++ rest) current false tokens = expandLoop rest (current ++ text) false tokens
  | [], _, rest, current, tokens => by rw [nil_append, append_nil]
  | c :: text, h, rest, current, tokens => by
    obtain ⟨hspace, hquote, hhash⟩ := h c (List.mem_cons_self ..)
    rw [cons_append, expandLoop, if_neg hquote, if_neg (by rw [hspace]; exact Bool.false_ne_true), if_neg hhash,
      expandLoop_plain (fun d hd => h d (List.mem_cons_of_mem _ hd)), append_assoc, List.singleton_append]

theorem expandLoop_quoted : ∀ {text : List Char}, quote ∉ text → ∀ rest current tokens,
    expandLoop (text ++ quote :: rest) current true tokens = expandLoop rest (current ++ text) false tokens
  | [], _, rest, current, tokens => by rw [nil_append, append_nil, expandLoop, if_pos rfl]
  | c :: text, h, rest, current, tokens => by
    rw [List.mem_cons, not_or] at h
    rw [cons_append, expandLoop, if_neg (Ne.symm h.1), expandLoop_quoted h.2, append_assoc,
      List.singleton_append]

theorem Renders.plain (hne : s ≠ []) (h : Plain s) : Renders s s := ⟨hne, expandLoop_plain h⟩

theorem Renders.quoted (hne : s ≠ []) (h : quote ∉ s) : Renders ([quote] ++ s ++ [quote]) s := by
  refine ⟨hne, fun rest current tokens => ?_⟩
  rw [append_assoc, append_assoc, List.singleton_append, List.singleton_append, expandLoop, if_pos rfl]
  exact expandLoop_quoted h rest current tokens

/-! ## Texts of several words -/

def Adds (text : List Char) (values : List (List Char)) : Prop :=
  ∀ rest current tokens, current ≠ [] → ∃ current' tokens', current' ≠ [] ∧
    expandLoop (text ++ rest) current false tokens = expandLoop rest current' false tokens' ∧
    tokens' ++ [current'] = tokens ++ [current] ++ values

theorem Adds.nil : Adds [] [] := fun _ current tokens h => ⟨current, tokens, h, rfl, (append_nil _).symm⟩

theorem Adds.append {text text' : List Char} {values values' : List (List Char)} (h : Adds text values)
    (h' : Adds text' values') : Adds (text ++ text') (values ++ values') := by
  intro rest current tokens hne
  obtain ⟨current1, tokens1, hne1, hrun1, heq1⟩ := h (text' ++ rest) current tokens hne
  obtain ⟨current2, tokens2, hne2, hrun2, heq2⟩ := h' rest current1 tokens1 hne1
  refine ⟨current2, tokens2, hne2, ?_, ?_⟩
  · rw [append_assoc, hrun1, hrun2]
  · rw [heq2, heq1, append_assoc]

theorem Adds.word {text value : List Char} (h : Renders text value) : Adds (' ' :: text) [value] := by
  intro rest current tokens hne
  refine ⟨value, tokens ++ [current], h.1, ?_, rfl⟩
  rw [cons_append, expandLoop, if_neg (by decide), if_pos (by decide), h.2, nil_append, pushWord, if_neg hne]

theorem Adds.flag {flag : List Char} (hs : s = ' ' :: flag) (hflag : flag ≠ [] ∧ Plain flag) : Adds s [flag] := by
  rw [hs]
  exact .word (.plain hflag.1 hflag.2)

theorem Adds.option {flag text value : List Char} (hs : s = ' ' :: flag ++ [' ']) (hflag : flag ≠ [] ∧ Plain flag)
    (h : Renders text value) : Adds (s ++ text) [flag, value] := by
  have hadd := Adds.append (.flag rfl hflag) (.word h)
  rwa [hs, append_assoc]

theorem Adds.ite {p : Prop} [Decidable p] {text text' : List Char} {values values' : List (List Char)}
    (h : p → Adds text values) (h' : ¬p → Adds text' values') :
    Adds (if p then text else text') (if p then values else values') := by
  by_cases hp : p
  · rw [if_pos hp, if_pos hp]
    exact h hp
  · rw [if_neg hp, if_neg hp]
    exact h' hp

theorem Adds.expand {name text : List Char} {values : List (List Char)} (hname : name ≠ [] ∧ Plain name)
    (h : Adds text values) : expand (name ++ text) = some (name :: values) := by
  obtain ⟨hne, hplain⟩ := hname
  obtain ⟨current, tokens, hne', hrun, heq⟩ := h [] name [] hne
  obtain ⟨c, name, rfl⟩ := List.exists_cons_of_ne_nil hne
  obtain ⟨hspace, -, hhash⟩ := hplain c (List.mem_cons_self ..)
  have hdrop : (c :: name ++ text).dropWhile isspace = c :: name ++ text :=
    List.dropWhile_cons_of_neg (by rw [hspace]; exact Bool.false_ne_true)
  rw [append_nil] at hrun
  rw [Wordexp.expand, hdrop, cons_append, List.head?_cons, if_neg (fun h => hhash (Option.some.inj h)),
    ← cons_append, expandLoop_plain hplain, nil_append, hrun, expandLoop, if_neg Bool.false_ne_true, pushWord,
    if_neg hne', heq]
  rfl

/-! ## What comes out -/

theorem mem_pushWord_of {P : List Char → Prop} {tokens : List (List Char)} {current : List Char}
    (hcurrent : P current) (htokens : ∀ t ∈ tokens, P t) : ∀ t ∈ pushWord tokens current, P t := fun t ht => by
  rcases mem_pushWord ht with ht | ht
  · exact htokens t ht
  · exact ht.1 ▸ hcurrent

theorem pushWord_start (tokens : List (List Char)) (current : List Char) : tokens <+: pushWord tokens current := by
  unfold pushWord
  split
  · exact List.prefix_refl _
  · exact List.prefix_append _ _

/-- **Words stay** once they are found, and no quotation mark is in one. -/
theorem expandLoop_out : ∀ {text current : List Char} {inQuotes : Bool} {tokens out : List (List Char)},
    quote ∉ current → (∀ t ∈ tokens, quote ∉ t) → expandLoop text current inQuotes tokens = some out →
    tokens <+: out ∧ ∀ t ∈ out, quote ∉ t
  | [], current, inQuotes, tokens, out, hcurrent, htokens, h => by
    rw [expandLoop] at h
    split at h
    · cases h
    · cases h
      exact ⟨pushWord_start _ _, mem_pushWord_of (P := (quote ∉ ·)) hcurrent htokens⟩
  | c :: text, current, true, tokens, out, hcurrent, htokens, h => by
    rw [expandLoop] at h
    split at h
    · exact expandLoop_out hcurrent htokens h
    · next hc => exact expandLoop_out (by simpa using ⟨hcurrent, Ne.symm hc⟩) htokens h
  | c :: text, current, false, tokens, out, hcurrent, htokens, h => by
    have hpush := mem_pushWord_of (P := (quote ∉ ·)) hcurrent htokens
    rw [expandLoop] at h
    split at h
    · exact expandLoop_out hcurrent htokens h
    next hc =>
    split at h
    · obtain ⟨hstart, hout⟩ := expandLoop_out List.not_mem_nil hpush h
      exact ⟨(pushWord_start _ _).trans hstart, hout⟩
    split at h
    · cases h
      exact ⟨pushWord_start _ _, hpush⟩
    · exact expandLoop_out (by simpa using ⟨hcurrent, Ne.symm hc⟩) htokens h

/-- **Outside of quotes** all words are plain: the text ends at a `#`, or the loop goes on behind it. -/
theorem expandLoop_unquoted : ∀ {text current : List Char} {tokens : List (List Char)}, quote ∉ text → Plain current →
    (∀ t ∈ tokens, Plain t) → ∀ rest,
    (∃ out, expandLoop (text ++ rest) current false tokens = some out ∧ ∀ t ∈ out, Plain t) ∨
    ∃ current' tokens', Plain current' ∧ (∀ t ∈ tokens', Plain t) ∧ tokens.length ≤ tokens'.length ∧
      expandLoop (text ++ rest) current false tokens = expandLoop rest current' false tokens'
  | [], current, tokens, _, hcurrent, htokens, rest => .inr ⟨current, tokens, hcurrent, htokens, Nat.le_refl _, rfl⟩
  | c :: text, current, tokens, hquote, hcurrent, htokens, rest => by
    rw [List.mem_cons, not_or] at hquote
    have hpush := mem_pushWord_of hcurrent htokens
    rw [cons_append, expandLoop, if_neg (Ne.symm hquote.1)]
    by_cases hspace : isspace c = true
    · rw [if_pos hspace]
      refine (expandLoop_unquoted hquote.2 plain_nil hpush rest).imp_right ?_
      rintro ⟨current', tokens', hcurrent', htokens', hle, heq⟩
      exact ⟨current', tokens', hcurrent', htokens', (pushWord_start _ _).length_le.trans hle, heq⟩
    · rw [if_neg hspace]
      by_cases hhash : c = '#'
      · rw [if_pos hhash]
        exact .inl ⟨_, rfl, hpush⟩
      · rw [if_neg hhash]
        refine expandLoop_unquoted hquote.2 (fun d hd => ?_) htokens rest
        rcases List.mem_append.1 hd with hd | hd
        · exact hcurrent d hd
        · rw [List.mem_singleton.1 hd]
          exact ⟨by simpa using hspace, Ne.symm hquote.1, hhash⟩

end Wordexp

/-! ## The command -/

namespace RdmEngine

open Wordexp

def decimal (n : Nat) : List Char := Nat.toDigits 10 n

/-- What else goes into the command: the number of rules, the options of the engine, and its logging. -/
structure Options where
  feedCount : Nat
  disableNagles : Bool
  maxHereis : Nat
  queuePath : List Char
  debug : Bool
  info : Bool
  logDest : List Char

def requestCommand (o : Options) (rule : RequestRule) : List Char :=
  "rdm-request".toList ++ " -h ".toList ++ rule.upstreamHost ++ " -P ".toList ++ decimal rule.port ++
    " -f ".toList ++ rule.feedtype.toString ++ " -p ".toList ++ [quote] ++ rule.pattern ++ [quote] ++
    " -c ".toList ++ decimal o.feedCount ++ (if o.disableNagles then " -N".toList else []) ++
    " -H ".toList ++ decimal o.maxHereis ++ (if o.queuePath = [] then [] else " -q ".toList ++ o.queuePath) ++
    (if o.debug then " -x".toList else if o.info then " -v".toList else []) ++
    (if o.logDest = [] then [] else " -l ".toList ++ o.logDest)

/-- The arguments that the command is meant to have. -/
def requestArgs (o : Options) (rule : RequestRule) : List (List Char) :=
  "rdm-request".toList :: (["-h".toList, rule.upstreamHost] ++ ["-P".toList, decimal rule.port] ++
    ["-f".toList, rule.feedtype.toString] ++ ["-p".toList, rule.pattern] ++ ["-c".toList, decimal o.feedCount] ++
    (if o.disableNagles then ["-N".toList] else []) ++ ["-H".toList, decimal o.maxHereis] ++
    (if o.queuePath = [] then [] else ["-q".toList, o.queuePath]) ++
    (if o.debug then ["-x".toList] else if o.info then ["-v".toList] else []) ++
    (if o.logDest = [] then [] else ["-l".toList, o.logDest]))

theorem plain_of_bare (h : FeedType.Bare s) : Plain s := by
  intro c hc
  rcases h c hc with hal | rfl
  · have hge := FeedType.isalnum_ge hal
    refine ⟨(FeedType.isalnum_plain hal).1, ?_, ?_⟩
    · rintro rfl
      exact absurd hge (by decide)
    · rintro rfl
      exact absurd hge (by decide)
  · decide

theorem renders_decimal (n : Nat) : Renders (decimal n) (decimal n) := by
  refine .plain ?_ (plain_of_bare fun c hc => Or.inl ?_)
  · exact Nat.toDigits_ne_nil
  · rw [FeedType.isalnum, Nat.isDigit_of_mem_toDigits (by decide : 0 < 10) (by decide) hc]
    rfl

theorem renders_toString (v : FeedType) : Renders v.toString v.toString :=
  .plain (FeedType.denotes_toString v).ne_nil (plain_of_bare (FeedType.toString_bare v))

/-- **A host that comes out as one argument is plain**: it is read outside of quotes. -/
theorem plain_of_expand {o : Options} {rule : RequestRule}
    (h : expand (requestCommand o rule) = some (requestArgs o rule)) :
    quote ∉ rule.pattern ∧ Plain rule.upstreamHost := by
  have hfirst : ∀ text, expand ("rdm-request".toList ++ (" -h ".toList ++ text)) =
      expandLoop text [] false ["rdm-request".toList, "-h".toList] := fun text => by
    simp [expand, expandLoop, pushWord, isspace, quote]
  have hsecond : ∀ text current tokens, expandLoop (" -P ".toList ++ text) current false tokens =
      expandLoop text [] false (pushWord tokens current ++ ["-P".toList]) := fun text current tokens => by
    simp [expandLoop, pushWord, isspace, quote]
  have hplain : ∀ t ∈ ["rdm-request".toList, "-h".toList], Plain t := by decide
  unfold requestCommand at h
  simp only [append_assoc] at h
  rw [hfirst] at h
  obtain ⟨-, hquote⟩ := expandLoop_out List.not_mem_nil (fun t ht => fun hq => (hplain t ht _ hq).2.1 rfl) h
  refine ⟨hquote _ (by simp [requestArgs]), ?_⟩
  have hno : quote ∉ rule.upstreamHost := hquote _ (by simp [requestArgs])
  rcases expandLoop_unquoted hno plain_nil hplain _ with ⟨out, hout, hall⟩ | ⟨current, tokens, hcurrent, htokens,
    hle, hgo⟩
  · cases hout.symm.trans h
    exact hall _ (by simp [requestArgs])
  · -- three words are complete before the first quotation mark
    rw [hgo, hsecond] at h
    have hpush := mem_pushWord_of hcurrent htokens
    have hall : ∀ t ∈ pushWord tokens current ++ ["-P".toList], Plain t := by
      intro t ht
      rcases List.mem_append.1 ht with ht | ht
      · exact hpush t ht
      · rw [List.mem_singleton.1 ht]
        decide
    obtain ⟨⟨more, hmore⟩, -⟩ := expandLoop_out List.not_mem_nil (fun t ht => fun hq => (hall t ht _ hq).2.1 rfl) h
    have hlen := hle.trans (pushWord_start tokens current).length_le
    have hthird : (pushWord tokens current ++ ["-P".toList] ++ more)[2]? = some rule.upstreamHost := by
      rw [hmore]
      rfl
    rw [List.getElem?_append_left (by simp at hlen ⊢; omega)] at hthird
    exact hall _ (List.mem_of_getElem? hthird)

/-- **The requester has the arguments it is meant to have** exactly if the pattern of its rule has no quotation mark and
the host no whitespace, no quotation mark and no `#`. -/
theorem requestCommand_expand {fuel defaultPort : Nat} {line : List Char} {rule : RequestRule} {o : Options}
    (hrule : ConfParser.requestRule fuel defaultPort line = some rule) (hqueue : Plain o.queuePath)
    (hlog : Plain o.logDest) :
    expand (requestCommand o rule) = some (requestArgs o rule) ↔ quote ∉ rule.pattern ∧ Plain rule.upstreamHost := by
  refine ⟨plain_of_expand, fun ⟨hpattern, hhost⟩ => ?_⟩
  obtain ⟨hpne, hhne⟩ := ConfParser.requestRule_ne_nil hrule
  have hh := @Adds.option " -h ".toList "-h".toList _ _ rfl (by decide) (.plain hhne hhost)
  have hP := @Adds.option " -P ".toList "-P".toList _ _ rfl (by decide) (renders_decimal rule.port)
  have hf := @Adds.option " -f ".toList "-f".toList _ _ rfl (by decide) (renders_toString rule.feedtype)
  have hp := @Adds.option " -p ".toList "-p".toList _ _ rfl (by decide) (.quoted hpne hpattern)
  have hc := @Adds.option " -c ".toList "-c".toList _ _ rfl (by decide) (renders_decimal o.feedCount)
  have hN := @Adds.ite (o.disableNagles = true) _ _ _ _ _
    (fun _ => @Adds.flag " -N".toList "-N".toList rfl (by decide)) fun _ => .nil
  have hH := @Adds.option " -H ".toList "-H".toList _ _ rfl (by decide) (renders_decimal o.maxHereis)
  have hq := @Adds.ite (o.queuePath = []) _ _ _ _ _ (fun _ => .nil) fun hne =>
    @Adds.option " -q ".toList "-q".toList _ _ rfl (by decide) (.plain hne hqueue)
  have hx := @Adds.ite (o.debug = true) _ _ _ _ _ (fun _ => @Adds.flag " -x".toList "-x".toList rfl (by decide))
    fun _ => @Adds.ite (o.info = true) _ _ _ _ _ (fun _ => @Adds.flag " -v".toList "-v".toList rfl (by decide))
      fun _ => .nil
  have hl := @Adds.ite (o.logDest = []) _ _ _ _ _ (fun _ => .nil) fun hne =>
    @Adds.option " -l ".toList "-l".toList _ _ rfl (by decide) (.plain hne hlog)
  have hadds :=
    hh.append (hP.append (hf.append (hp.append (hc.append (hN.append (hH.append (hq.append (hx.append hl))))))))
  have h := @Adds.expand "rdm-request".toList _ _ (by decide) hadds
  unfold requestCommand requestArgs
  simp only [append_assoc] at h ⊢
  exact h

def plainOptions : Options := ⟨1, false, 16384, "/data/queue".toList, false, false, []⟩

theorem requestCommand_expand_line : ∃ rule : RequestRule,
    ConfParser.requestRule 20 388 "REQUEST any \".* [0-9]#\" upstream:388".toList = some rule ∧
    expand (requestCommand plainOptions rule) = some (requestArgs plainOptions rule) :=
  have hrule : ConfParser.requestRule 20 388 "REQUEST any \".* [0-9]#\" upstream:388".toList =
      some ⟨FeedType.ANY, ".* [0-9]#".toList, "upstream".toList, 388⟩ := by decide +kernel
  ⟨_, hrule, (requestCommand_expand hrule (by decide) (by decide)).2 (by decide)⟩

/-- A pattern with a quotation mark in it: the rule is made, and then the command is not split but refused. -/
theorem requestCommand_throws : ∃ rule : RequestRule,
    ConfParser.requestRule 20 388 "REQUEST any \"a\\\"b\" upstream".toList = some rule ∧
    rule.pattern = ['a', quote, 'b'] ∧ expand (requestCommand plainOptions rule) = none :=
  ⟨⟨FeedType.ANY, ['a', quote, 'b'], "upstream".toList, 388⟩, by decide +kernel, rfl, by decide +kernel⟩

end RdmEngine

end Rdm
