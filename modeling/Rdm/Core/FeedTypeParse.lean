import Mathlib.Data.List.TakeWhile
import Rdm.Core.FeedType

/-!
# Correctness of the parser for feed types

The grammar of feed-type expressions over tokens. The parser accepts exactly the texts of expressions and returns the
sets that they stand for (`parse_iff`).
-/

namespace Rdm.FeedType

open List
open Option (map_some some)

/-! ## Tokens -/

inductive Token where
  | name (n : List Char)
  | union
  | diff
  | complement
  | lp
  | rp
deriving DecidableEq

inductive Spells : List Char → Token → Prop
  | name {n : List Char} : n ≠ [] → (∀ c ∈ n, isalnum c = true) → Spells n (.name n)
  | bar : Spells ['|'] .union
  | plus : Spells ['+'] .union
  | diff : Spells ['-'] .diff
  | complement : Spells ['~'] .complement
  | lp : Spells ['('] .lp
  | rp : Spells [')'] .rp

def Token.EndsBefore (t : Token) (rest : List Char) : Prop := ∀ n, t = .name n → ∀ c ∈ rest.head?, isalnum c = false

/-- **The tokens of a text**, with any whitespace around them. -/
inductive Lexes : List Char → List Token → Prop
  | nil {ws : List Char} : (∀ c ∈ ws, isspace c = true) → Lexes ws []
  | cons {ws w rest : List Char} {t : Token} {ts : List Token} : (∀ c ∈ ws, isspace c = true) → Spells w t →
      t.EndsBefore rest → Lexes rest ts → Lexes (ws ++ (w ++ rest)) (t :: ts)

/-! ## The grammar -/

mutual

/-- `prim := NAME | NUMBER | '~' prim | '(' expr ')'`. -/
inductive Prim : List Token → FeedType → Prop
  | name {n : List Char} {v : FeedType} : feedMap (n.map Char.toLower) = some v → Prim [.name n] v
  | number {n : List Char} {k : Nat} : feedMap (n.map Char.toLower) = none → numeral (n.map Char.toLower) = some k →
      Prim [.name n] (UInt32.ofNat k)
  | complement {ts : List Token} {v : FeedType} : Prim ts v → Prim (.complement :: ts) (~~~v)
  | paren {ts : List Token} {v : FeedType} : Expr ts v → Prim (.lp :: (ts ++ [.rp])) v

/-- `term := prim ('-' prim)*`, set difference from the left. -/
inductive Term : List Token → FeedType → Prop
  | prim {ts : List Token} {v : FeedType} : Prim ts v → Term ts v
  | diff {ts us : List Token} {v w : FeedType} : Term ts v → Prim us w → Term (ts ++ .diff :: us) (v &&& ~~~w)

/-- `expr := term (('|' or '+') term)*`, union. -/
inductive Expr : List Token → FeedType → Prop
  | term {ts : List Token} {v : FeedType} : Term ts v → Expr ts v
  | union {ts us : List Token} {v w : FeedType} : Expr ts v → Term us w → Expr (ts ++ .union :: us) (v ||| w)

end

/-- **The text of an expression** for the set `v`. -/
def Denotes (s : List Char) (v : FeedType) : Prop := ∃ ts, Lexes s ts ∧ Expr ts v

/-! ## The current token -/

def TokenType.token (name : List Char) : TokenType → Option Token
  | .name => some (.name name)
  | .end => none
  | .union => some .union
  | .diff => some .diff
  | .complement => some .complement
  | .lp => some .lp
  | .rp => some .rp

def ParseState.current (ps : ParseState) : Option Token := ps.tok.token ps.name

def ParseState.At (ps : ParseState) : List Token → Prop
  | [] => ps.tok = .end
  | t :: ts => ps.current = some t ∧ t ≠ .name [] ∧ Lexes ps.cp ts

variable {ps ps' : ParseState} {ts us rest : List Token} {v w : FeedType} {fuel : Nat} {tok : TokenType} {t : Token}
variable {G H : List Token → FeedType → Prop} {left : FeedType} {ps₁ ps₂ : ParseState} {s : List Char}
variable {result : FeedType}

theorem advanceToken_err (ps : ParseState) : (advanceToken ps).err = ps.err := by
  unfold advanceToken
  split
  · rfl
  · split
    · rfl
    · split <;> rfl

theorem advanceToken_failed (h : ps.err ≠ .ok) : advanceToken ps = ps := if_pos h

theorem symbol_spells {c : Char} (h : symbol c = some tok) :
    ∃ t, (∀ name, tok.token name = some t) ∧ Spells [c] t ∧ ∀ n, t ≠ .name n := by
  unfold symbol at h
  split at h
  case isTrue hc =>
    cases h
    rcases hc with rfl | rfl
    · exact ⟨.union, fun _ => rfl, .bar, nofun⟩
    · exact ⟨.union, fun _ => rfl, .plus, nofun⟩
  split at h
  case isTrue hc => cases h; subst hc; exact ⟨.diff, fun _ => rfl, .diff, nofun⟩
  split at h
  case isTrue hc => cases h; subst hc; exact ⟨.lp, fun _ => rfl, .lp, nofun⟩
  split at h
  case isTrue hc => cases h; subst hc; exact ⟨.rp, fun _ => rfl, .rp, nofun⟩
  split at h
  case isTrue hc => cases h; subst hc; exact ⟨.complement, fun _ => rfl, .complement, nofun⟩
  cases h

theorem ParseState.At.lexes (h : ps.err = .ok) (hat : (advanceToken ps).At ts) : Lexes ps.cp ts := by
  have hcp := takeWhile_append_dropWhile (p := isspace) (l := ps.cp)
  have hws : ∀ c ∈ ps.cp.takeWhile isspace, isspace c = true := fun c hc => mem_takeWhile_imp hc
  rw [← hcp]
  unfold advanceToken at hat
  rw [if_neg (not_not.2 h)] at hat
  split at hat
  case h_1 hd =>
    rw [hd, append_nil]
    cases ts with
    | nil => exact .nil hws
    | cons t ts => cases hat.1
  case h_2 c cp hd =>
    rw [hd]
    split at hat
    case h_1 tok hsym =>
      obtain ⟨t', htok, hs, hno⟩ := symbol_spells hsym
      cases ts with
      | nil =>
        have hend : tok = .end := hat
        rw [hend] at htok
        cases htok []
      | cons t ts =>
        obtain ⟨hcur, -, hrest⟩ := hat
        cases (htok ps.name).symm.trans hcur
        exact .cons hws hs (fun n e => absurd e (hno n)) hrest
    case h_2 =>
      cases ts with
      | nil => cases hat
      | cons t ts =>
        obtain ⟨hcur, hne, hrest⟩ := hat
        have ht : t = .name ((c :: cp).takeWhile isalnum) := (some.inj hcur).symm
        subst ht
        have hsplit := takeWhile_append_dropWhile (p := isalnum) (l := c :: cp)
        have hlex := Lexes.cons hws (.name (fun e => hne (by rw [e])) fun x hx => mem_takeWhile_imp hx)
          (fun _ _ => head_dropWhile _ _) hrest
        rwa [hsplit] at hlex

theorem ParseState.At.back (h : ps.err = .ok) (hcur : ps.current = some t) (hne : t ≠ .name [])
    (hat : (advanceToken ps).At ts) : ps.At (t :: ts) := ⟨hcur, hne, hat.lexes h⟩

/-- The tokens from the current one on begin with the list, and `P` holds of the state behind it. -/
def ParseState.Passes (P : ParseState → Prop) : List Token → ParseState → Prop
  | [], ps => P ps
  | t :: ts, ps => ps.current = some t ∧ Passes P ts (advanceToken ps)

section

open ParseState

variable {P Q : ParseState → Prop}

theorem passes_append : Passes P (ts ++ us) ps ↔ Passes (Passes P us) ts ps := by
  induction ts generalizing ps with
  | nil => exact Iff.rfl
  | cons t ts ih => exact and_congr_right fun _ => ih

theorem ParseState.Passes.mono (h : Passes P ts ps) (hPQ : ∀ ps, P ps → Q ps) : Passes Q ts ps := by
  induction ts generalizing ps with
  | nil => exact hPQ ps h
  | cons t ts ih => exact ⟨h.1, ih h.2⟩

theorem ParseState.Passes.trans (h : Passes (· = ps₁) ts ps) (h₁ : Passes P us ps₁) : Passes P (ts ++ us) ps :=
  passes_append.2 (h.mono fun _ he => he ▸ h₁)

end

/-! ## Soundness -/

def Reads (G : List Token → FeedType → Prop) (ps : ParseState) (v : FeedType) (ps' : ParseState) : Prop :=
  ps'.err = .ok → ps.err = .ok ∧ ∃ ts, G ts v ∧ ps.Passes (· = ps') ts

def Extends (G : List Token → FeedType → Prop) (left : FeedType) (ps : ParseState) (v : FeedType)
    (ps' : ParseState) : Prop :=
  ps'.err = .ok → ps.err = .ok ∧ ∀ ts, G ts left → ∃ us, G (ts ++ us) v ∧ ps.Passes (· = ps') us

theorem Reads.failed (h : ps'.err ≠ .ok) : Reads G ps v ps' := fun he => absurd he h

theorem Extends.refl (ps : ParseState) : Extends G left ps left ps := by
  intro h
  exact ⟨h, fun ts hts => ⟨[], by rwa [append_nil], rfl⟩⟩

theorem Reads.extend (hG : ∀ {ts v}, H ts v → G ts v) (h1 : Reads H ps left ps₁) (h2 : Extends G left ps₁ v ps') :
    Reads G ps v ps' := by
  intro he
  obtain ⟨he1, hext⟩ := h2 he
  obtain ⟨he0, ts, hts, hpass⟩ := h1 he1
  obtain ⟨us, hus, hpass'⟩ := hext ts (hG hts)
  exact ⟨he0, ts ++ us, hus, hpass.trans hpass'⟩

theorem Reads.round {op : Token} {u : FeedType} (hcur : ps.current = some op)
    (hG : ∀ {ts us}, G ts left → H us w → G (ts ++ op :: us) u) (h1 : Reads H (advanceToken ps) w ps₁)
    (h2 : Extends G u ps₁ v ps') : Extends G left ps v ps' := by
  intro he
  obtain ⟨he1, hext⟩ := h2 he
  obtain ⟨he0, us, hus, hpass⟩ := h1 he1
  rw [advanceToken_err] at he0
  refine ⟨he0, fun ts hts => ?_⟩
  obtain ⟨us', hus', hpass'⟩ := hext _ (hG hts hus)
  exact ⟨op :: us ++ us', by simpa using hus', hcur, hpass.trans hpass'⟩

theorem parseName_reads (h : ps.err = .ok) (htok : ps.tok = .name) : Reads Prim ps (parseName ps).1
    (parseName ps).2 := by
  have hcur : ps.current = some (.name ps.name) := by rw [ParseState.current, htok]; rfl
  unfold parseName
  cases hv : feedValue (ps.name.map Char.toLower) with
  | none => exact Reads.failed nofun
  | some v =>
    have hprim : Prim [.name ps.name] v := by
      unfold feedValue at hv
      split at hv
      case h_1 hm =>
        cases hv
        exact .name hm
      case h_2 hm =>
        obtain ⟨k, hk, rfl⟩ := Option.map_eq_some_iff.1 hv
        exact .number hm hk
    intro he
    exact ⟨h, _, hprim, hcur, rfl⟩

theorem closeParen_reads (h : ps.err = .ok) (htok : ps.tok = .lp) (h1 : Reads Expr (advanceToken ps) v ps₁) :
    Reads Prim ps (closeParen v ps₁).1 (closeParen v ps₁).2 := by
  have hcur : ps.current = some .lp := by rw [ParseState.current, htok]; rfl
  unfold closeParen
  split
  case isTrue => exact Reads.failed nofun
  case isFalse hrp =>
    have hcur1 : ps₁.current = some .rp := by rw [ParseState.current, not_not.1 hrp]; rfl
    intro he
    have he1 : ps₁.err = .ok := by rwa [advanceToken_err] at he
    obtain ⟨-, ts, hts, hpass⟩ := h1 he1
    exact ⟨h, _, .paren hts, hcur, hpass.trans ⟨hcur1, rfl⟩⟩

/-- What the functions of the parser read. -/
structure Sound (fuel : Nat) : Prop where
  primary : ∀ {ps v ps'}, parsePrimary fuel ps = some (v, ps') → Reads Prim ps v ps'
  term : ∀ {ps v ps'}, parseTerm fuel ps = some (v, ps') → Reads Term ps v ps'
  diffs : ∀ {left ps v ps'}, termLoop fuel left ps = some (v, ps') → Extends Term left ps v ps'
  expr : ∀ {ps v ps'}, parseExpr fuel ps = some (v, ps') → Reads Expr ps v ps'
  unions : ∀ {left ps v ps'}, exprLoop fuel left ps = some (v, ps') → Extends Expr left ps v ps'

theorem Sound.succ (ih : Sound fuel) : Sound (fuel + 1) := by
  constructor
  case primary =>
    intro ps v ps' h
    rw [parsePrimary] at h
    split at h
    case isTrue he =>
      cases h
      exact Reads.failed he
    case isFalse he =>
      have he := not_not.1 he
      split at h
      case h_1 htok =>
        have hreads := parseName_reads he htok
        rwa [some.inj h] at hreads
      case h_2 htok =>
        obtain ⟨⟨w, ps₁⟩, h1, hr⟩ := Option.map_eq_some_iff.1 h
        cases hr
        have hcur : ps.current = some .complement := by rw [ParseState.current, htok]; rfl
        intro he'
        obtain ⟨-, ts, hts, hpass⟩ := ih.primary h1 he'
        exact ⟨he, _, .complement hts, hcur, hpass⟩
      case h_3 htok =>
        obtain ⟨⟨w, ps₁⟩, h1, hr⟩ := Option.map_eq_some_iff.1 h
        obtain ⟨rfl, rfl⟩ := Prod.mk.inj hr
        exact closeParen_reads he htok (ih.expr h1)
      case h_4 =>
        cases h
        exact Reads.failed nofun
  case term =>
    intro ps v ps' h
    rw [parseTerm] at h
    split at h
    case h_1 => cases h
    case h_2 left ps₁ h1 =>
      split at h
      case isTrue he =>
        cases h
        exact Reads.failed he
      case isFalse => exact (ih.primary h1).extend .prim (ih.diffs h)
  case diffs =>
    intro left ps v ps' h
    rw [termLoop] at h
    split at h
    case isFalse =>
      cases h
      exact Extends.refl ps
    case isTrue htok =>
      have hcur : ps.current = some .diff := by rw [ParseState.current, htok]; rfl
      split at h
      case h_1 => cases h
      case h_2 right ps₁ h1 => exact Reads.round hcur .diff (ih.primary h1) (ih.diffs h)
  case expr =>
    intro ps v ps' h
    rw [parseExpr] at h
    split at h
    case h_1 => cases h
    case h_2 left ps₁ h1 =>
      split at h
      case isTrue he =>
        cases h
        exact Reads.failed he
      case isFalse => exact (ih.term h1).extend .term (ih.unions h)
  case unions =>
    intro left ps v ps' h
    rw [exprLoop] at h
    split at h
    case isFalse =>
      cases h
      exact Extends.refl ps
    case isTrue htok =>
      have hcur : ps.current = some .union := by rw [ParseState.current, htok]; rfl
      split at h
      case isTrue he =>
        cases h
        exact fun he' => absurd he' he
      case isFalse =>
        split at h
        case h_1 => cases h
        case h_2 right ps₁ h1 => exact Reads.round hcur .union (ih.term h1) (ih.unions h)

theorem sound : ∀ fuel, Sound fuel
  | 0 => by constructor <;> (intros; rename_i h; simp [parsePrimary, parseTerm, termLoop, parseExpr, exprLoop] at h)
  | fuel + 1 => (sound fuel).succ

theorem takeWhile_text (h0 : '\x00' ∉ s) : s.takeWhile (· ≠ '\x00') = s := by
  refine takeWhile_eq_self_iff.2 fun c hc => ?_
  simp only [decide_eq_true_eq]
  exact fun e => h0 (e ▸ hc)

theorem feedValue_nil : feedMap [] = none ∧ numeral [] = none := by decide +kernel

mutual

theorem Prim.named : ∀ {ts : List Token} {v : FeedType}, Prim ts v → .name [] ∉ ts
  | _, _, .name hm, h => by
    rw [← Token.name.inj (mem_singleton.1 h), map_nil, feedValue_nil.1] at hm
    cases hm
  | _, _, .number _ hk, h => by
    rw [← Token.name.inj (mem_singleton.1 h), map_nil, feedValue_nil.2] at hk
    cases hk
  | _, _, .complement hp, h => hp.named (by simpa using h)
  | _, _, .paren he, h => he.named (by simpa using h)

theorem Term.named : ∀ {ts : List Token} {v : FeedType}, Term ts v → .name [] ∉ ts
  | _, _, .prim hp => hp.named
  | _, _, .diff ht hp => by simp [ht.named, hp.named]

theorem Expr.named : ∀ {ts : List Token} {v : FeedType}, Expr ts v → .name [] ∉ ts
  | _, _, .term ht => ht.named
  | _, _, .union he ht => by simp [he.named, ht.named]

end

theorem ParseState.Passes.at (h : ps.err = .ok) (hno : .name [] ∉ ts) (hpass : ps.Passes (·.tok = .end) ts) :
    ps.At ts := by
  induction ts generalizing ps with
  | nil => exact hpass
  | cons t ts ih =>
    rw [mem_cons, not_or] at hno
    exact (ih (by rwa [advanceToken_err]) hno.2 hpass.2).back h hpass.1 (Ne.symm hno.1)

/-- **Soundness**: a text that is accepted is an expression. -/
theorem parse_sound (h0 : '\x00' ∉ s)
    (h : parse fuel s result = some (.ok, v)) : Denotes s v := by
  unfold parse at h
  split at h
  case isTrue => cases h
  case isFalse =>
    split at h
    case h_1 => cases h
    case h_2 w ps' hexpr =>
      split at h
      case isTrue he =>
        have hok : ps'.err = .ok := (Prod.mk.inj (some.inj h)).1
        exact absurd hok he
      case isFalse he =>
        split at h
        case isTrue => cases h
        case isFalse hend =>
          cases h
          obtain ⟨hok, ts, hts, hpass⟩ := (sound fuel).expr hexpr (not_not.1 he)
          have hat := (hpass.mono fun _ e => e ▸ not_not.1 hend).at hok hts.named
          have hlex : Lexes (s.takeWhile (· ≠ '\x00')) ts := hat.lexes rfl
          rw [takeWhile_text h0] at hlex
          exact ⟨ts, hlex, hts⟩

/-! ## Completeness -/

theorem isalnum_ge {c : Char} (h : isalnum c = true) : 48 ≤ c.toNat := by
  rw [isalnum] at h
  delta Char.isDigit Char.isUpper Char.isLower at h
  simp only [Bool.or_eq_true, Bool.and_eq_true, decide_eq_true_eq, ge_iff_le, UInt32.le_iff_toNat_le] at h
  have hc : c.toNat = c.val.toNat := rfl
  have h0 : '0'.val.toNat = 48 := rfl
  have hA : 'A'.val.toNat = 65 := rfl
  have ha : 'a'.val.toNat = 97 := rfl
  omega

theorem isalnum_plain {c : Char} (h : isalnum c = true) : isspace c = false ∧ symbol c = none := by
  have hge := isalnum_ge h
  constructor
  · rw [isspace, Bool.or_eq_false_iff, Bool.and_eq_false_iff]
    refine ⟨decide_eq_false fun e => ?_, Or.inr (decide_eq_false (by omega))⟩
    rw [e] at hge
    exact absurd hge (by decide)
  · have hne : ∀ d, isalnum d = false → c ≠ d := fun d hd e => by
      rw [e, hd] at h
      cases h
    unfold symbol
    rw [if_neg (not_or.2 ⟨hne _ (by decide), hne _ (by decide)⟩), if_neg (hne _ (by decide)),
      if_neg (hne _ (by decide)), if_neg (hne _ (by decide)), if_neg (hne _ (by decide))]

theorem Spells.symbol {c : Char} {w : List Char} (h : Spells (c :: w) t) (hno : ∀ n, t ≠ .name n) :
    w = [] ∧ isspace c = false ∧ ∃ tok, symbol c = some tok ∧ ∀ name, tok.token name = some t := by
  cases h with
  | name => exact absurd rfl (hno _)
  | bar => exact ⟨rfl, by decide, .union, by decide, fun _ => rfl⟩
  | plus => exact ⟨rfl, by decide, .union, by decide, fun _ => rfl⟩
  | diff => exact ⟨rfl, by decide, .diff, by decide, fun _ => rfl⟩
  | complement => exact ⟨rfl, by decide, .complement, by decide, fun _ => rfl⟩
  | lp => exact ⟨rfl, by decide, .lp, by decide, fun _ => rfl⟩
  | rp => exact ⟨rfl, by decide, .rp, by decide, fun _ => rfl⟩

theorem dropWhile_append_cons {p : Char → Bool} : ∀ {ws : List Char} {c : Char} {l : List Char},
    (∀ x ∈ ws, p x = true) → p c = false → (ws ++ c :: l).dropWhile p = c :: l
  | [], c, l, _, hc => by rw [nil_append, dropWhile_cons_of_neg (by simp [hc])]
  | x :: ws, c, l, h, hc => by
    rw [cons_append, dropWhile_cons_of_pos (h x mem_cons_self)]
    exact dropWhile_append_cons (fun y hy => h y (mem_cons_of_mem _ hy)) hc

/-- **The next token** is the first one of the text. -/
theorem Lexes.at (h : ps.err = .ok) (hlex : Lexes ps.cp ts) : (advanceToken ps).At ts := by
  unfold advanceToken
  rw [if_neg (not_not.2 h)]
  generalize hcp : ps.cp = cp at hlex
  cases hlex with
  | nil hws =>
    have hd : cp.dropWhile isspace = [] := dropWhile_eq_nil_iff.2 hws
    simp only [hd]
    exact rfl
  | @cons ws w rest t ts hws hs hend hrest =>
    cases w with
    | nil =>
      cases hs with
      | name hne => exact absurd rfl hne
    | cons c w =>
      by_cases hname : ∃ n, t = .name n
      · obtain ⟨n, rfl⟩ := hname
        cases hs with
        | name hne hal =>
          obtain ⟨hsp, hsym⟩ := isalnum_plain (hal c mem_cons_self)
          have htake : (c :: w ++ rest).takeWhile isalnum = c :: w := by
            cases rest with
            | nil => rw [append_nil]; exact takeWhile_eq_self_iff.2 hal
            | cons d rest =>
              have hd : isalnum d = false := hend _ rfl d rfl
              rw [takeWhile_append_of_pos hal, takeWhile_cons_of_neg (by simp [hd]), append_nil]
          have hdrop : (c :: w ++ rest).dropWhile isalnum = rest := by
            have hsplit := takeWhile_append_dropWhile (p := isalnum) (l := c :: w ++ rest)
            rw [htake] at hsplit
            exact append_cancel_left hsplit
          simp only [cons_append] at htake hdrop ⊢
          simp only [dropWhile_append_cons hws hsp]
          split
          case h_1 heq => rw [hsym] at heq; cases heq
          case h_2 =>
            exact ⟨by simp [ParseState.current, TokenType.token, htake], by simp, by simpa [hdrop] using hrest⟩
      · obtain ⟨rfl, hsp, tok, hsym, htok⟩ := hs.symbol fun n e => hname ⟨n, e⟩
        simp only [cons_append, nil_append]
        simp only [dropWhile_append_cons hws hsp]
        split
        case h_1 tok' heq =>
          cases hsym.symm.trans heq
          exact ⟨htok _, fun e => hname ⟨_, e⟩, hrest⟩
        case h_2 heq => rw [hsym] at heq; cases heq

theorem ParseState.At.next (h : ps.err = .ok) (hat : ps.At (t :: ts)) : (advanceToken ps).At ts :=
  Lexes.at h hat.2.2

theorem ParseState.At.passes (h : ps.err = .ok) (hat : ps.At ts) : ps.Passes (·.tok = .end) ts := by
  induction ts generalizing ps with
  | nil => exact hat
  | cons t ts ih => exact ⟨hat.1, ih (by rwa [advanceToken_err]) (hat.next h)⟩

def Token.type : Token → TokenType
  | .name _ => .name
  | .union => .union
  | .diff => .diff
  | .complement => .complement
  | .lp => .lp
  | .rp => .rp

theorem tok_of_current (h : ps.current = some t) : ps.tok = t.type ∧ ∀ n, t = .name n → ps.name = n := by
  rw [ParseState.current] at h
  generalize ps.tok = tok at h ⊢
  cases tok <;> cases h <;> simp [Token.type]

def Finds (f : Nat → ParseState → Option (FeedType × ParseState)) (ps : ParseState) (v : FeedType)
    (P : ParseState → Prop) : Prop :=
  ∃ n ps', ps'.err = .ok ∧ P ps' ∧ ∀ fuel, n ≤ fuel → f fuel ps = some (v, ps')

def Enters (f : Nat → ParseState → Option (FeedType × ParseState))
    (loop : Nat → FeedType → ParseState → Option (FeedType × ParseState)) (ps : ParseState) (v : FeedType)
    (P : ParseState → Prop) : Prop :=
  ∃ n k ps', ps'.err = .ok ∧ P ps' ∧ ∀ fuel, n ≤ fuel → f (fuel + k) ps = loop fuel v ps'

section

variable {P : ParseState → Prop}

theorem Enters.finds {f : Nat → ParseState → Option (FeedType × ParseState)}
    {loop : Nat → FeedType → ParseState → Option (FeedType × ParseState)} (h : Enters f loop ps v P)
    (hloop : ∀ fuel ps', P ps' → loop (fuel + 1) v ps' = some (v, ps')) : Finds f ps v P := by
  obtain ⟨n, k, ps', he, hP, hf⟩ := h
  refine ⟨n + 1 + k, ps', he, hP, fun fuel hle => ?_⟩
  obtain ⟨m, rfl⟩ : ∃ m, fuel = m + 1 + k := ⟨fuel - 1 - k, by omega⟩
  rw [hf (m + 1) (by omega), hloop m ps' hP]

theorem Enters.term (h : Enters parseTerm termLoop ps v P) (hr : ∀ ps, P ps → ps.tok ≠ .diff) :
    Finds parseTerm ps v P :=
  h.finds fun fuel ps' hP => by rw [termLoop, if_neg (hr ps' hP)]

theorem Enters.expr (h : Enters parseExpr exprLoop ps v P) (hr : ∀ ps, P ps → ps.tok ≠ .union) :
    Finds parseExpr ps v P :=
  h.finds fun fuel ps' hP => by rw [exprLoop, if_neg (hr ps' hP)]

theorem ParseState.Passes.tok_ne (ht : t.type ≠ tok) : ∀ ps, Passes P (t :: ts) ps → ps.tok ≠ tok :=
  fun _ h => (tok_of_current h.1).1 ▸ ht

theorem Finds.leaf {f : Nat → ParseState → Option (FeedType × ParseState)} (he : ps.err = .ok)
    (hP : P (advanceToken ps)) (hf : ∀ m, f (m + 1) ps = some (v, advanceToken ps)) : Finds f ps v P := by
  refine ⟨1, advanceToken ps, by rw [advanceToken_err, he], hP, fun fuel hle => ?_⟩
  obtain ⟨m, rfl⟩ : ∃ m, fuel = m + 1 := ⟨fuel - 1, by omega⟩
  exact hf m

end

mutual

theorem Prim.finds : ∀ {ts : List Token} {v : FeedType}, Prim ts v → ∀ {ps : ParseState} {P : ParseState → Prop},
    ps.err = .ok → ps.Passes P ts → Finds parsePrimary ps v P
  | _, _, .name hm, ps, P, he, hpass => by
    obtain ⟨htok, hname⟩ := tok_of_current hpass.1
    refine .leaf he hpass.2 fun m => ?_
    rw [parsePrimary, if_neg (not_not.2 he), htok]
    simp only [Token.type, parseName, hname _ rfl, feedValue, hm]
  | _, _, .number hm hk, ps, P, he, hpass => by
    obtain ⟨htok, hname⟩ := tok_of_current hpass.1
    refine .leaf he hpass.2 fun m => ?_
    rw [parsePrimary, if_neg (not_not.2 he), htok]
    simp only [Token.type, parseName, hname _ rfl, feedValue, hm, hk, map_some]
  | _, _, .complement h, ps, P, he, hpass => by
    obtain ⟨htok, -⟩ := tok_of_current hpass.1
    obtain ⟨n, ps', he', hP, hf⟩ := h.finds (by rw [advanceToken_err, he]) hpass.2
    refine ⟨n + 1, ps', he', hP, fun fuel hle => ?_⟩
    obtain ⟨m, rfl⟩ : ∃ m, fuel = m + 1 := ⟨fuel - 1, by omega⟩
    rw [parsePrimary, if_neg (not_not.2 he), htok]
    simp only [Token.type, hf m (by omega), map_some]
  | _, _, .paren h, ps, P, he, hpass => by
    obtain ⟨htok, -⟩ := tok_of_current hpass.1
    have hin := h.enters (by rw [advanceToken_err, he]) (ParseState.Passes.tok_ne (by simp [Token.type]))
      (passes_append.1 hpass.2)
    obtain ⟨n, ps', he', hclose, hf⟩ := hin.expr (ParseState.Passes.tok_ne (by simp [Token.type]))
    have htok' : ps'.tok = .rp := (tok_of_current hclose.1).1
    refine ⟨n + 1, advanceToken ps', by rw [advanceToken_err, he'], hclose.2, fun fuel hle => ?_⟩
    obtain ⟨m, rfl⟩ : ∃ m, fuel = m + 1 := ⟨fuel - 1, by omega⟩
    rw [parsePrimary, if_neg (not_not.2 he), htok]
    simp only [Token.type, hf m (by omega), map_some, closeParen, htok', ne_eq, not_true_eq_false, if_false]

theorem Term.enters : ∀ {ts : List Token} {v : FeedType}, Term ts v → ∀ {ps : ParseState} {P : ParseState → Prop},
    ps.err = .ok → ps.Passes P ts → Enters parseTerm termLoop ps v P
  | _, _, .prim h, ps, P, he, hpass => by
    obtain ⟨n, ps', he', hP, hf⟩ := h.finds he hpass
    refine ⟨n, 1, ps', he', hP, fun fuel hle => ?_⟩
    rw [parseTerm, hf fuel hle]
    simp only [he', ne_eq, not_true_eq_false, if_false]
  | _, _, .diff h h', ps, P, he, hpass => by
    obtain ⟨n, k, ps₁, he1, hpass1, hf⟩ := h.enters he (passes_append.1 hpass)
    have htok : ps₁.tok = .diff := (tok_of_current hpass1.1).1
    obtain ⟨n', ps₂, he2, hP, hf'⟩ := h'.finds (by rw [advanceToken_err, he1]) hpass1.2
    refine ⟨max n n', k + 1, ps₂, he2, hP, fun fuel hle => ?_⟩
    rw [show fuel + (k + 1) =
      fuel + 1 + k by omega, hf (fuel + 1) (by omega), termLoop, if_pos htok, hf' fuel (by omega)]

theorem Expr.enters : ∀ {ts : List Token} {v : FeedType}, Expr ts v → ∀ {ps : ParseState} {P : ParseState → Prop},
    ps.err = .ok → (∀ ps, P ps → ps.tok ≠ .diff) → ps.Passes P ts → Enters parseExpr exprLoop ps v P
  | _, _, .term h, ps, P, he, hr, hpass => by
    obtain ⟨n, ps', he', hP, hf⟩ := (h.enters he hpass).term hr
    refine ⟨n, 1, ps', he', hP, fun fuel hle => ?_⟩
    rw [parseExpr, hf fuel hle]
    simp only [he', ne_eq, not_true_eq_false, if_false]
  | _, _, .union h h', ps, P, he, hr, hpass => by
    obtain ⟨n, k, ps₁, he1, hpass1, hf⟩ :=
      h.enters he (ParseState.Passes.tok_ne (by simp [Token.type])) (passes_append.1 hpass)
    have htok : ps₁.tok = .union := (tok_of_current hpass1.1).1
    have he1' : (advanceToken ps₁).err = .ok := by rw [advanceToken_err, he1]
    obtain ⟨n', ps₂, he2, hP, hf'⟩ := (h'.enters he1' hpass1.2).term hr
    refine ⟨max n n', k + 1, ps₂, he2, hP, fun fuel hle => ?_⟩
    rw [show fuel + (k + 1) = fuel + 1 + k by omega, hf (fuel + 1) (by omega), exprLoop, if_pos htok,
      if_neg (not_not.2 he1'), hf' fuel (by omega)]

end

/-! ## What the parser returns -/

/-- **`FeedType::Parse` returns** the outcome and the result `r`: it does so with all the fuel one can want. -/
def Returns (s : List Char) (result : FeedType) (r : ParseStatus × FeedType) : Prop :=
  ∃ n, ∀ fuel, n ≤ fuel → parse fuel s result = some r

theorem Returns.unique {r r' : ParseStatus × FeedType} (h : Returns s result r)
    (h' : Returns s result r') : r = r' := by
  obtain ⟨n, hn⟩ := h
  obtain ⟨n', hn'⟩ := h'
  have hr := hn (max n n') (by omega)
  rw [hn' (max n n') (by omega)] at hr
  exact (some.inj hr).symm

theorem Term.ne_nil : ∀ {ts : List Token} {v : FeedType}, Term ts v → ts ≠ []
  | _, _, .prim h => by cases h <;> simp
  | _, _, .diff _ _ => by simp

theorem Expr.ne_nil : ∀ {ts : List Token} {v : FeedType}, Expr ts v → ts ≠ []
  | _, _, .term h => h.ne_nil
  | _, _, .union _ _ => by simp

theorem Denotes.ne_nil (h : Denotes s v) : s ≠ [] := by
  obtain ⟨ts, hlex, hexpr⟩ := h
  intro hs
  cases hlex with
  | nil => exact hexpr.ne_nil rfl
  | cons _ hs' =>
    rw [append_eq_nil_iff, append_eq_nil_iff] at hs
    rw [hs.2.1] at hs'
    cases hs' with
    | name hne => exact hne rfl

/-- **Completeness**: expressions are accepted. -/
theorem Denotes.returns (h : Denotes (s.takeWhile (· ≠ '\x00')) v) (result : FeedType) :
    Returns s result (.ok, v) := by
  have hne : s ≠ [] := fun e => h.ne_nil (by rw [e, takeWhile_nil])
  obtain ⟨ts, hlex, hexpr⟩ := h
  have hok : (advanceToken (initial s)).err = .ok := by rw [advanceToken_err]; rfl
  have hpass := (Lexes.at rfl hlex : (advanceToken (initial s)).At ts).passes hok
  have hin := hexpr.enters hok (fun _ he => by simp [he]) hpass
  obtain ⟨n, ps', he, hend, hf⟩ := hin.expr fun _ he => by simp [he]
  refine ⟨n, fun fuel hle => ?_⟩
  rw [parse, if_neg hne, hf fuel hle]
  have hend : ps'.tok = .end := hend
  simp only [he, hend, ne_eq, not_true_eq_false, if_false]

theorem parse_error {err : ParseStatus}
    (h : parse fuel s result = some (err, v)) (he : err ≠ .ok) : v = result := by
  unfold parse at h
  split at h
  case isTrue => exact (Prod.mk.inj (some.inj h)).2.symm
  case isFalse =>
    split at h
    case h_1 => cases h
    case h_2 =>
      split at h
      case isTrue => exact (Prod.mk.inj (some.inj h)).2.symm
      case isFalse =>
        split at h
        case isTrue => exact (Prod.mk.inj (some.inj h)).2.symm
        case isFalse => exact absurd (Prod.mk.inj (some.inj h)).1.symm he

/-- **The parser is correct**: when it returns, it accepts exactly the expressions, with the set that they stand for. -/
theorem parse_iff {s : List Char} (h0 : '\x00' ∉ s) {result : FeedType} {err : ParseStatus} {res : FeedType}
    (h : Returns s result (err, res)) :
    (err = .ok ↔ ∃ v, Denotes s v) ∧ (∀ v, Denotes s v → res = v) ∧ (err = .ok → Denotes s res) ∧
      (err ≠ .ok → res = result) := by
  have hcomplete : ∀ v, Denotes s v → err = .ok ∧ res = v := fun v hv =>
    Prod.mk.inj (h.unique (Denotes.returns (by rwa [takeWhile_text h0]) result))
  obtain ⟨n, hn⟩ := h
  have hsound : err = .ok → Denotes s res := fun he => parse_sound h0 (he ▸ hn n (le_refl n))
  exact ⟨⟨fun he => ⟨res, hsound he⟩, fun ⟨v, hv⟩ => (hcomplete v hv).1⟩, fun v hv => (hcomplete v hv).2, hsound,
    parse_error (hn n (le_refl n))⟩

theorem denotes_difference : Denotes "any-1".toList (ANY &&& ~~~1) := by
  have hany : Prim [.name "any".toList] ANY := .name (by decide +kernel)
  have hone : Prim [.name ['1']] 1 := @Prim.number ['1'] 1 (by decide +kernel) (by decide +kernel)
  refine ⟨[.name "any".toList, .diff, .name ['1']], ?_, .term (.diff (.prim hany) hone)⟩
  have hlex := @Lexes.cons [] ['1'] [] _ _ nofun (.name (by decide) (all_eq_true.1 rfl)) nofun (.nil nofun)
  refine @Lexes.cons [] "any".toList "-1".toList _ _ nofun (.name (by decide) (all_eq_true.1 rfl)) ?_
    (@Lexes.cons [] ['-'] ['1'] _ _ nofun .diff nofun hlex)
  rintro n - c ⟨⟩
  rfl

theorem parse_iff_difference : Returns "any-1".toList 0 (.ok, ANY &&& ~~~1) ∧
    Denotes "any-1".toList (ANY &&& ~~~1) := by
  have h0 : '\x00' ∉ "any-1".toList := by decide
  have hr : Returns "any-1".toList 0 (.ok, ANY &&& ~~~1) :=
    Denotes.returns (by rw [takeWhile_text h0]; exact denotes_difference) 0
  exact ⟨hr, (parse_iff h0 hr).2.2.1 rfl⟩

end Rdm.FeedType
