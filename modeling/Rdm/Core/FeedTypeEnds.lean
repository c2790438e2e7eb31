import Rdm.Core.FeedTypeParse

/-!
# Termination of the parser for feed types

After an error in the right operand of a "-" the loop of a term never gets past another "-" (`parse_hangs`). The parser
returns on all other texts (`parse_returns`).
-/

namespace Rdm.FeedType

open ParseState (Passes)

variable {ps ps₀ p : ParseState} {N n w w' : Nat} {b : Bool} {ts us : List Token} {v left : FeedType}

/-! ## Errors in front of a "-" -/

mutual

/-- The tokens up to a "-" with which the parser comes to an error: the "-" stands in place of a primary or behind an
unknown name. The flag says whether this is in the right operand of another "-". -/
inductive BadPrim : Bool → List Token → Prop
  | dash : BadPrim false [.diff]
  | unknown {n : List Char} : feedValue (n.map Char.toLower) = none → BadPrim false [.name n, .diff]
  | complement {b : Bool} {ts : List Token} : BadPrim b ts → BadPrim b (.complement :: ts)
  | paren {b : Bool} {ts : List Token} : BadExpr b ts → BadPrim b (.lp :: ts)

inductive BadTerm : Bool → List Token → Prop
  | prim {b : Bool} {ts : List Token} : BadPrim b ts → BadTerm b ts
  | diff {b : Bool} {ts us : List Token} {v : FeedType} : Term ts v → BadPrim b us → BadTerm true (ts ++ .diff :: us)

inductive BadExpr : Bool → List Token → Prop
  | term {b : Bool} {ts : List Token} : BadTerm b ts → BadExpr b ts
  | union {b : Bool} {ts us : List Token} {v : FeedType} : Expr ts v → BadTerm b us → BadExpr b (ts ++ .union :: us)

end

theorem BadTerm.ne_nil : BadTerm b ts → ts ≠ []
  | .prim h => by cases h <;> simp
  | .diff _ _ => by simp

theorem BadExpr.ne_nil : BadExpr b ts → ts ≠ []
  | .term h => h.ne_nil
  | .union _ _ => by simp

/-! ## Texts on which the parser hangs -/

/-- With the flag, a call does not return; without it, an error is returned with "-" as the current token. -/
def Blocked : Bool → Option (FeedType × ParseState) → Prop
  | true, r => r = none
  | false, r => ∃ v ps', r = some (v, ps') ∧ ps'.err ≠ .ok ∧ ps'.tok = .diff

/-- From some fuel on the parser is blocked. -/
def Blocks (b : Bool) (g : Nat → Option (FeedType × ParseState)) : Prop := ∃ n, ∀ fuel, n ≤ fuel → Blocked b (g fuel)

theorem Blocks.leaf {g : Nat → Option (FeedType × ParseState)} (h : ∀ m, Blocked b (g (m + 1))) : Blocks b g := by
  refine ⟨1, fun fuel hle => ?_⟩
  obtain ⟨m, rfl⟩ : ∃ m, fuel = m + 1 := ⟨fuel - 1, by omega⟩
  exact h m

theorem Blocks.step {g f : Nat → Option (FeedType × ParseState)} {b' : Bool} (hg : Blocks b g)
    (h : ∀ fuel, 0 < fuel → Blocked b (g fuel) → Blocked b' (f (fuel + 1))) : Blocks b' f := by
  obtain ⟨n, hn⟩ := hg
  refine ⟨n + 2, fun fuel hle => ?_⟩
  obtain ⟨m, rfl⟩ : ∃ m, fuel = m + 1 := ⟨fuel - 1, by omega⟩
  exact h m (by omega) (hn m (by omega))

theorem Enters.blocks {f : Nat → ParseState → Option (FeedType × ParseState)}
    {loop : Nat → FeedType → ParseState → Option (FeedType × ParseState)} {P : ParseState → Prop}
    (h : Enters f loop ps v P) (hloop : ∀ p, p.err = .ok → P p → Blocks b (loop · v p)) : Blocks b (f · ps) := by
  obtain ⟨n, k, p, he, hP, hf⟩ := h
  obtain ⟨n', hn⟩ := hloop p he hP
  refine ⟨n + n' + k, fun fuel hle => ?_⟩
  obtain ⟨m, rfl⟩ : ∃ m, fuel = m + k := ⟨fuel - k, by omega⟩
  show Blocked b (f (m + k) ps)
  rw [hf m (by omega)]
  exact hn m (by omega)

theorem termLoop_hangs (he : ps.err ≠ .ok) (htok : ps.tok = .diff) : ∀ fuel left, termLoop fuel left ps = none
  | 0, _ => by rw [termLoop]
  | fuel + 1, left => by
    rw [termLoop, if_pos htok, advanceToken_failed he]
    cases fuel with
    | zero => rw [parsePrimary]
    | succ fuel =>
      rw [parsePrimary, if_pos he]
      exact termLoop_hangs he htok _ _

/-- **An error in the right operand of a "-" in front of another "-"** keeps the parser in the loop. -/
theorem termLoop_blocked (htok : ps.tok = .diff) (h : Blocks b (parsePrimary · (advanceToken ps))) :
    Blocks true (termLoop · left ps) := by
  refine h.step fun fuel _ hr => ?_
  rw [termLoop, if_pos htok]
  cases b with
  | true => rw [show parsePrimary fuel (advanceToken ps) = none from hr, Blocked]
  | false =>
    obtain ⟨v, p, hr, he, htok'⟩ := hr
    rw [hr]
    exact termLoop_hangs he htok' _ _

theorem exprLoop_blocked (he : ps.err = .ok) (htok : ps.tok = .union) (h : Blocks b (parseTerm · (advanceToken ps))) :
    Blocks b (exprLoop · left ps) := by
  refine h.step fun fuel hpos hr => ?_
  rw [exprLoop, if_pos htok, if_neg (not_not.2 (by rw [advanceToken_err, he]))]
  cases b with
  | true => rw [show parseTerm fuel (advanceToken ps) = none from hr, Blocked]
  | false =>
    obtain ⟨v, p, hr, hp, htok'⟩ := hr
    obtain ⟨m, rfl⟩ : ∃ m, fuel = m + 1 := ⟨fuel - 1, by omega⟩
    rw [hr]
    show Blocked false (exprLoop (m + 1) (left ||| v) p)
    rw [exprLoop, if_neg (by rw [htok']; decide)]
    exact ⟨_, p, rfl, hp, htok'⟩

theorem Blocked.map {r : Option (FeedType × ParseState)} {F : FeedType × ParseState → FeedType × ParseState}
    (h : Blocked b r) (hF : ∀ v p, p.err ≠ .ok → p.tok = .diff → (F (v, p)).2.err ≠ .ok ∧ (F (v, p)).2.tok = .diff) :
    Blocked b (r.map F) := by
  cases b with
  | true => rw [show r = none from h]; rfl
  | false =>
    obtain ⟨v, p, rfl, he, htok⟩ := h
    exact ⟨_, _, rfl, hF v p he htok⟩

mutual

theorem BadPrim.blocks : ∀ {b : Bool} {ts : List Token}, BadPrim b ts → ∀ {ps : ParseState}, ps.err = .ok →
    ps.Passes (fun _ => True) ts → Blocks b (parsePrimary · ps)
  | _, _, .dash, ps, he, hpass => by
    have htok : ps.tok = .diff := (tok_of_current hpass.1).1
    refine .leaf fun m => ?_
    rw [parsePrimary, if_neg (not_not.2 he), htok]
    exact ⟨0, ps.fail .prim, rfl, nofun, htok⟩
  | _, _, .unknown hn, ps, he, hpass => by
    obtain ⟨htok, hname⟩ := tok_of_current hpass.1
    refine .leaf fun m => ?_
    rw [parsePrimary, if_neg (not_not.2 he), htok]
    simp only [Token.type, parseName, hname _ rfl, hn]
    exact ⟨0, (advanceToken ps).fail .ukft, rfl, nofun, (tok_of_current hpass.2.1).1⟩
  | _, _, .complement h, ps, he, hpass => by
    have htok : ps.tok = .complement := (tok_of_current hpass.1).1
    refine (h.blocks (by rw [advanceToken_err, he]) hpass.2).step fun fuel _ hr => ?_
    rw [parsePrimary, if_neg (not_not.2 he), htok]
    exact hr.map fun v p hp hd => ⟨hp, hd⟩
  | _, _, .paren h, ps, he, hpass => by
    have htok : ps.tok = .lp := (tok_of_current hpass.1).1
    refine (h.blocks (by rw [advanceToken_err, he]) hpass.2).step fun fuel _ hr => ?_
    rw [parsePrimary, if_neg (not_not.2 he), htok]
    refine hr.map fun v p hp hd => ?_
    rw [closeParen, if_pos (by rw [hd]; decide)]
    exact ⟨nofun, hd⟩

theorem BadTerm.blocks : ∀ {b : Bool} {ts : List Token}, BadTerm b ts → ∀ {ps : ParseState}, ps.err = .ok →
    ps.Passes (fun _ => True) ts → Blocks b (parseTerm · ps)
  | b, _, .prim h, ps, he, hpass => by
    refine (h.blocks he hpass).step fun fuel _ hr => ?_
    rw [parseTerm]
    cases b with
    | true => rw [show parsePrimary fuel ps = none from hr, Blocked]
    | false =>
      obtain ⟨v, p, hr, hp, hd⟩ := hr
      rw [hr]
      exact ⟨0, p, if_pos hp, hp, hd⟩
  | _, _, .diff ht h, ps, he, hpass => by
    refine (ht.enters he (passes_append.1 hpass)).blocks fun p hp hpass' => ?_
    exact termLoop_blocked (tok_of_current hpass'.1).1 (h.blocks (by rw [advanceToken_err, hp]) hpass'.2)

theorem BadExpr.blocks : ∀ {b : Bool} {ts : List Token}, BadExpr b ts → ∀ {ps : ParseState}, ps.err = .ok →
    ps.Passes (fun _ => True) ts → Blocks b (parseExpr · ps)
  | b, _, .term h, ps, he, hpass => by
    refine (h.blocks he hpass).step fun fuel _ hr => ?_
    rw [parseExpr]
    cases b with
    | true => rw [show parseTerm fuel ps = none from hr, Blocked]
    | false =>
      obtain ⟨v, p, hr, hp, hd⟩ := hr
      rw [hr]
      exact ⟨0, p, if_pos hp, hp, hd⟩
  | _, _, .union hx h, ps, he, hpass => by
    have henters := hx.enters he (ParseState.Passes.tok_ne (by simp [Token.type])) (passes_append.1 hpass)
    refine henters.blocks fun p hp hpass' => ?_
    exact exprLoop_blocked hp (tok_of_current hpass'.1).1 (h.blocks (by rw [advanceToken_err, hp]) hpass'.2)

end

/-! ## Progress -/

def TokenType.isSymbol (tok : TokenType) : Prop := tok ≠ .name ∧ tok ≠ .end

instance (tok : TokenType) : Decidable tok.isSymbol := inferInstanceAs (Decidable (_ ∧ _))

def ParseState.weight (ps : ParseState) : Nat := ps.cp.length + if ps.tok.isSymbol then 1 else 0

theorem advanceToken_reads (h : ps.err = .ok) : (advanceToken ps).weight ≤ ps.cp.length := by
  have hsub := List.dropWhile_sublist isspace (l := ps.cp)
  unfold advanceToken
  rw [if_neg (not_not.2 h)]
  split
  case h_1 => simp [ParseState.weight, TokenType.isSymbol]
  case h_2 c cp hd =>
    rw [hd] at hsub
    have hlen := hsub.length_le
    split
    case h_1 tok hsym =>
      rw [List.length_cons] at hlen
      simp only [ParseState.weight]
      split <;> omega
    case h_2 =>
      have hlen' := (List.dropWhile_sublist isalnum (l := c :: cp)).length_le
      simp only [ParseState.weight, TokenType.isSymbol, ne_eq, not_true_eq_false, false_and, if_false]
      omega

theorem advanceToken_le (ps : ParseState) : (advanceToken ps).weight ≤ ps.weight := by
  by_cases h : ps.err = .ok
  · exact (advanceToken_reads h).trans (Nat.le_add_right _ _)
  · rw [advanceToken_failed h]

theorem advanceToken_lt (h : ps.err = .ok) (hsym : ps.tok.isSymbol) (hN : ps.weight ≤ N) :
    ∃ M < N, (advanceToken ps).weight ≤ M := by
  refine ⟨ps.cp.length, ?_, advanceToken_reads h⟩
  rw [ParseState.weight, if_pos hsym] at hN
  omega

/-! ## All other texts -/

/-- The tokens begin with some of `B`. -/
def Stuck (B : List Token → Prop) (ps : ParseState) : Prop := ∃ ts, B ts ∧ ps.Passes (fun _ => True) ts

theorem Stuck.symbol {B B' : List Token → Prop} {t : Token} (hcur : ps.current = some t) (h : Stuck B (advanceToken ps))
    (hB : ∀ ts, B ts → B' (t :: ts)) : Stuck B' ps := by
  obtain ⟨ts, hts, hpass⟩ := h
  exact ⟨t :: ts, hB ts hts, hcur, hpass⟩

theorem Stuck.behind {B B' : List Token → Prop} {t : Token} (hpre : ps₀.Passes (· = ps) us) (hcur : ps.current = some t)
    (h : Stuck B (advanceToken ps)) (hB : ∀ ts, B ts → B' (us ++ t :: ts)) : Stuck B' ps₀ := by
  obtain ⟨ts, hts, hpass⟩ := h
  exact ⟨us ++ t :: ts, hB ts hts, hpre.trans ⟨hcur, hpass⟩⟩

/-- `S`, or a call returns with no more than `w` to read. -/
def Ends (S : Prop) (Q : ParseState → Prop) (w : Nat) (g : Nat → Option (FeedType × ParseState)) : Prop :=
  S ∨ ∃ n v ps', (∀ fuel, n ≤ fuel → g fuel = some (v, ps')) ∧ ps'.weight ≤ w ∧ Q ps'

section

variable {S : Prop} {Q : ParseState → Prop} {f g loop : Nat → Option (FeedType × ParseState)}

theorem Ends.now (r : FeedType × ParseState) (h : ∀ fuel, g (fuel + 1) = some r) (hw : r.2.weight ≤ w) (hQ : Q r.2) :
    Ends S Q w g := by
  refine .inr ⟨1, r.1, r.2, fun fuel hf => ?_, hw, hQ⟩
  obtain ⟨m, rfl⟩ : ∃ m, fuel = m + 1 := ⟨fuel - 1, by omega⟩
  exact h m

theorem Ends.into (hg : ∀ fuel, n ≤ fuel → g fuel = some (v, p)) (hloop : Ends S Q w' loop) (hw : w' ≤ w)
    (h : ∀ fuel, g fuel = some (v, p) → f (fuel + 1) = loop fuel) : Ends S Q w f := by
  obtain hS | ⟨n', u, ps', hl, hw', hQ⟩ := hloop
  · exact .inl hS
  · refine .inr ⟨max n n' + 1, u, ps', fun fuel hle => ?_, hw'.trans hw, hQ⟩
    obtain ⟨m, rfl⟩ : ∃ m, fuel = m + 1 := ⟨fuel - 1, by omega⟩
    rw [h m (hg m (by omega)), hl m (by omega)]

theorem Ends.step (hg : ∀ fuel, n ≤ fuel → g fuel = some (v, p)) (r : FeedType × ParseState) (hw : r.2.weight ≤ w)
    (hQ : Q r.2) (h : ∀ fuel, g fuel = some (v, p) → f (fuel + 1) = some r) : Ends S Q w f := by
  have hnow : Ends S Q w (fun _ => some r) := .now r (fun _ => rfl) hw hQ
  exact .into hg hnow (le_refl w) h

end

def PrimaryEnds (ps : ParseState) : Prop := Ends (Stuck (BadPrim true) ps)
  (fun ps' => ps'.err ≠ .ok → ps'.tok = .diff → Stuck (BadPrim false) ps) ps.weight (parsePrimary · ps)

def TermEnds (ps : ParseState) : Prop := Ends (Stuck (BadTerm true) ps)
  (fun ps' => ps'.tok = .diff → ps'.err ≠ .ok ∧ Stuck (BadTerm false) ps) ps.weight (parseTerm · ps)

def ExprEnds (ps : ParseState) : Prop := Ends (Stuck (BadExpr true) ps)
  (fun ps' => ps'.tok = .diff → Stuck (BadExpr false) ps) ps.weight (parseExpr · ps)

/-- The loop of a term, which began at `ps₀`. -/
def DiffsEnd (ps₀ : ParseState) (left : FeedType) (ps : ParseState) : Prop :=
  Ends (Stuck (BadTerm true) ps₀) (fun ps' => ps'.tok ≠ .diff) ps.weight (termLoop · left ps)

def UnionsEnd (ps₀ : ParseState) (left : FeedType) (ps : ParseState) : Prop := Ends (Stuck (BadExpr true) ps₀)
  (fun ps' => ps'.tok = .diff → Stuck (BadExpr false) ps₀) ps.weight (exprLoop · left ps)

/-- From states with no more than `N` to read, the functions of the parser return, or the tokens are bad. -/
structure Total (N : Nat) : Prop where
  primary : ∀ {ps}, ps.err = .ok → ps.weight ≤ N → PrimaryEnds ps
  term : ∀ {ps}, ps.err = .ok → ps.weight ≤ N → TermEnds ps
  diffs : ∀ {ps₀ ps us left}, Term us left → ps₀.Passes (· = ps) us → ps.err = .ok → ps.weight ≤ N →
    DiffsEnd ps₀ left ps
  expr : ∀ {ps}, ps.err = .ok → ps.weight ≤ N → ExprEnds ps
  unions : ∀ {ps₀ ps us left}, Expr us left → ps₀.Passes (· = ps) us → ps.err = .ok → ps.tok ≠ .diff → ps.weight ≤ N →
    UnionsEnd ps₀ left ps

theorem current_of_tok (tok : TokenType) (h : ps.tok = tok) : ps.current = tok.token ps.name := by
  rw [ParseState.current, h]

theorem Total.primary_step (ih : ∀ M < N, Total M) (he : ps.err = .ok) (hN : ps.weight ≤ N) : PrimaryEnds ps := by
  have hle := advanceToken_le ps
  have he' : (advanceToken ps).err = .ok := by rw [advanceToken_err, he]
  cases htok : ps.tok
  case name =>
    refine .now (parseName ps) (fun fuel => by rw [parsePrimary, if_neg (not_not.2 he), htok]) ?_ ?_
    · unfold parseName
      split
      · exact hle
      · exact hle
    · unfold parseName
      split
      case h_1 => exact fun h => absurd he' h
      case h_2 hn =>
        intro _ hd
        exact ⟨_, .unknown hn, current_of_tok .name htok, current_of_tok .diff hd, trivial⟩
  case complement =>
    have hcur := current_of_tok .complement htok
    obtain ⟨M, hM, hw⟩ := advanceToken_lt he (by rw [htok]; decide) hN
    obtain hS | ⟨n, v, p, hg, hwp, hQ⟩ := (ih M hM).primary he' hw
    · exact .inl (hS.symbol hcur fun _ => .complement)
    · refine .step hg (~~~v, p) (hwp.trans hle) (fun h hd => ?_) fun fuel hfuel => ?_
      · exact (hQ h hd).symbol hcur fun _ => .complement
      · rw [parsePrimary, if_neg (not_not.2 he), htok]
        simp only [hfuel, Option.map_some]
  case lp =>
    have hcur := current_of_tok .lp htok
    obtain ⟨M, hM, hw⟩ := advanceToken_lt he (by rw [htok]; decide) hN
    obtain hS | ⟨n, v, p, hg, hwp, hQ⟩ := (ih M hM).expr he' hw
    · exact .inl (hS.symbol hcur fun _ => .paren)
    · refine .step hg (closeParen v p) ?_ ?_ fun fuel hfuel => ?_
      · unfold closeParen
        split
        · exact hwp.trans hle
        · exact (advanceToken_le p).trans (hwp.trans hle)
      · unfold closeParen
        split
        case isTrue => exact fun _ hd => (hQ hd).symbol hcur fun _ => .paren
        case isFalse hrp =>
          intro h hd
          have hp : p.err ≠ .ok := by rwa [advanceToken_err] at h
          rw [advanceToken_failed hp, not_not.1 hrp] at hd
          cases hd
      · rw [parsePrimary, if_neg (not_not.2 he), htok]
        simp only [hfuel, Option.map_some]
  all_goals
    refine .now (0, ps.fail .prim) (fun fuel => by rw [parsePrimary, if_neg (not_not.2 he), htok])
      (le_refl ps.weight) ?_
    intro _ hd
    cases htok.symm.trans hd
  exact ⟨_, .dash, current_of_tok .diff htok, trivial⟩

theorem Total.diffs_step (ih : ∀ M < N, Total M) (hterm : Term us left) (hpre : ps₀.Passes (· = ps) us)
    (he : ps.err = .ok) (hN : ps.weight ≤ N) : DiffsEnd ps₀ left ps := by
  by_cases htok : ps.tok = .diff
  case neg => exact .now (left, ps) (fun fuel => by rw [termLoop, if_neg htok]) (le_refl _) htok
  have hcur := current_of_tok .diff htok
  have hle := advanceToken_le ps
  obtain ⟨M, hM, hw⟩ := advanceToken_lt he (by rw [htok]; decide) hN
  obtain hS | ⟨n, right, p, hg, hwp, hQ⟩ := (ih M hM).primary (by rw [advanceToken_err, he]) hw
  · exact .inl (hS.behind hpre hcur fun _ => .diff hterm)
  have hround : ∀ fuel, parsePrimary fuel (advanceToken ps) = some (right, p) →
      termLoop (fuel + 1) left ps = termLoop fuel (left &&& ~~~right) p := fun fuel hfuel => by
    rw [termLoop, if_pos htok, hfuel]
  by_cases hp : p.err = .ok
  case pos =>
    obtain ⟨-, ts, hts, hpass⟩ := (sound n).primary (hg n (le_refl n)) hp
    exact .into hg ((ih M hM).diffs (.diff hterm hts) (hpre.trans ⟨hcur, hpass⟩) hp (hwp.trans hw))
      (hwp.trans hle) hround
  case neg =>
    by_cases hd : p.tok = .diff
    case pos => exact .inl ((hQ hp hd).behind hpre hcur fun _ => .diff hterm)
    case neg =>
      exact .into hg (.now (left &&& ~~~right, p) (fun fuel => by rw [termLoop, if_neg hd]) hwp hd) hle hround

theorem Total.term_step (hprim : ∀ {ps}, ps.err = .ok → ps.weight ≤ N → PrimaryEnds ps)
    (hdiffs : ∀ {ps₀ ps us left}, Term us left → ps₀.Passes (· = ps) us → ps.err = .ok → ps.weight ≤ N →
    DiffsEnd ps₀ left ps) (he : ps.err = .ok) (hN : ps.weight ≤ N) : TermEnds ps := by
  obtain ⟨ts, hts, hpass⟩ | ⟨n, left, p, hg, hwp, hQ⟩ := hprim he hN
  · exact .inl ⟨ts, .prim hts, hpass⟩
  by_cases hp : p.err = .ok
  case pos =>
    obtain ⟨-, ts, hts, hpass⟩ := (sound n).primary (hg n (le_refl n)) hp
    obtain hS | ⟨n', u, ps', hl, hw, hd⟩ := hdiffs (.prim hts) hpass hp (hwp.trans hN)
    · exact .inl hS
    · refine .into hg (.inr ⟨n', u, ps', hl, hw, fun h => absurd h hd⟩) hwp fun fuel hfuel => ?_
      rw [parseTerm, hfuel]
      simp only [hp, ne_eq, not_true_eq_false, if_false]
  case neg =>
    refine .step hg (0, p) hwp (fun hd => ⟨hp, ?_⟩) fun fuel hfuel => ?_
    · obtain ⟨ts, hts, hpass⟩ := hQ hp hd
      exact ⟨ts, .prim hts, hpass⟩
    · rw [parseTerm, hfuel]
      simp only [if_pos hp]

theorem Total.unions_step (ih : ∀ M < N, Total M) (hexpr : Expr us left) (hpre : ps₀.Passes (· = ps) us)
    (he : ps.err = .ok) (hne : ps.tok ≠ .diff) (hN : ps.weight ≤ N) : UnionsEnd ps₀ left ps := by
  by_cases htok : ps.tok = .union
  case neg => exact .now (left, ps) (fun fuel => by rw [exprLoop, if_neg htok]) (le_refl _) fun h => absurd h hne
  have hcur := current_of_tok .union htok
  have hle := advanceToken_le ps
  have he' : (advanceToken ps).err = .ok := by rw [advanceToken_err, he]
  obtain ⟨M, hM, hw⟩ := advanceToken_lt he (by rw [htok]; decide) hN
  obtain hS | ⟨n, right, p, hg, hwp, hQ⟩ := (ih M hM).term he' hw
  · exact .inl (hS.behind hpre hcur fun _ => .union hexpr)
  have hround : ∀ fuel, parseTerm fuel (advanceToken ps) = some (right, p) →
      exprLoop (fuel + 1) left ps = exprLoop fuel (left ||| right) p := fun fuel hfuel => by
    rw [exprLoop, if_pos htok, if_neg (not_not.2 he'), hfuel]
  by_cases hp : p.err = .ok
  case pos =>
    obtain ⟨-, ts, hts, hpass⟩ := (sound n).term (hg n (le_refl n)) hp
    refine .into hg ((ih M hM).unions (.union hexpr hts) (hpre.trans ⟨hcur, hpass⟩) hp ?_ (hwp.trans hw))
      (hwp.trans hle) hround
    exact fun hd => (hQ hd).1 hp
  case neg =>
    refine .into hg ?_ hle hround
    by_cases hu : p.tok = .union
    case pos =>
      have hp' : (advanceToken p).err ≠ .ok := by rwa [advanceToken_err]
      refine .now (0, advanceToken p) (fun fuel => by rw [exprLoop, if_pos hu, if_pos hp'])
        ((advanceToken_le p).trans hwp) ?_
      intro hd
      rw [advanceToken_failed hp] at hd
      cases hu.symm.trans hd
    case neg =>
      refine .now (left ||| right, p) (fun fuel => by rw [exprLoop, if_neg hu]) hwp fun hd => ?_
      exact (hQ hd).2.behind hpre hcur fun _ => .union hexpr

theorem Total.expr_step (hterm : ∀ {ps}, ps.err = .ok → ps.weight ≤ N → TermEnds ps)
    (hunions : ∀ {ps₀ ps us left}, Expr us left → ps₀.Passes (· = ps) us → ps.err = .ok → ps.tok ≠ .diff →
    ps.weight ≤ N →
      UnionsEnd ps₀ left ps) (he : ps.err = .ok) (hN : ps.weight ≤ N) : ExprEnds ps := by
  obtain ⟨ts, hts, hpass⟩ | ⟨n, left, p, hg, hwp, hQ⟩ := hterm he hN
  · exact .inl ⟨ts, .term hts, hpass⟩
  by_cases hp : p.err = .ok
  case pos =>
    obtain ⟨-, ts, hts, hpass⟩ := (sound n).term (hg n (le_refl n)) hp
    refine .into hg (hunions (.term hts) hpass hp (fun hd => (hQ hd).1 hp) (hwp.trans hN)) hwp fun fuel hfuel => ?_
    rw [parseExpr, hfuel]
    simp only [hp, ne_eq, not_true_eq_false, if_false]
  case neg =>
    refine .step hg (0, p) hwp (fun hd => ?_) fun fuel hfuel => ?_
    · obtain ⟨ts, hts, hpass⟩ := (hQ hd).2
      exact ⟨ts, .term hts, hpass⟩
    · rw [parseExpr, hfuel]
      simp only [if_pos hp]

theorem total (N : Nat) : Total N := by
  induction N using Nat.strong_induction_on with
  | _ N ih =>
    have hterm := fun {ps : ParseState} (he : ps.err = .ok) (hN : ps.weight ≤ N) =>
      Total.term_step (Total.primary_step ih) (Total.diffs_step ih) he hN
    exact ⟨Total.primary_step ih, hterm, Total.diffs_step ih, Total.expr_step hterm (Total.unions_step ih),
      Total.unions_step ih⟩

/-- **The parser returns** exactly on the texts whose tokens do not begin with some that lead to an error in the right
operand of a "-" in front of another "-". -/
theorem parse_returns (s : List Char) (result : FeedType) : (∃ r, Returns s result r) ↔
    ¬ ∃ ts, BadExpr true ts ∧ (advanceToken (initial s)).Passes (fun _ => True) ts := by
  have he : (advanceToken (initial s)).err = .ok := by rw [advanceToken_err]; rfl
  by_cases hs : s = []
  case pos =>
    refine iff_of_true ⟨_, 0, fun fuel _ => by rw [parse, if_pos hs]⟩ ?_
    rintro ⟨ts, hts, hpass⟩
    cases ts with
    | nil => exact hts.ne_nil rfl
    | cons t ts =>
      rw [hs] at hpass
      cases hpass.1
  refine ⟨?_, fun hno => ?_⟩
  · rintro ⟨r, n, hn⟩ ⟨ts, hts, hpass⟩
    obtain ⟨n', hn'⟩ := hts.blocks he hpass
    have hnone : parseExpr (max n n') (advanceToken (initial s)) = none := hn' (max n n') (by omega)
    have hr := hn (max n n') (by omega)
    rw [parse, if_neg hs, hnone] at hr
    cases hr
  · obtain hS | ⟨n, v, ps', hf, -⟩ := (total _).expr he (le_refl _)
    · exact absurd hS hno
    refine ⟨if ps'.err ≠ .ok then (ps'.err, result) else if ps'.tok ≠ .end then (.garb, result) else (.ok, v), n,
      fun fuel hle => ?_⟩
    have hexpr : parseExpr fuel (advanceToken (initial s)) = some (v, ps') := hf fuel hle
    rw [parse, if_neg hs, hexpr]
    simp only
    split
    · rfl
    · split <;> rfl

theorem parseTerm_hangs {v : FeedType} {p : ParseState} (h : ∀ fuel, parsePrimary (fuel + 1) ps = some (v, p))
    (he : p.err = .ok) (htok : p.tok = .diff) (htok' : (advanceToken p).tok = .diff) : ∀ fuel, parseTerm fuel ps = none
  | 0 => by rw [parseTerm]
  | 1 => by rw [parseTerm, parsePrimary]
  | fuel + 2 => by
    have he' : (advanceToken p).err = .ok := by rwa [advanceToken_err]
    rw [parseTerm, h fuel]
    simp only [he, ne_eq, not_true_eq_false, if_false]
    rw [termLoop, if_pos htok]
    cases fuel with
    | zero => rw [parsePrimary]
    | succ fuel =>
      have hfail : ((advanceToken p).fail .prim).err ≠ .ok := nofun
      rw [parsePrimary, if_neg (not_not.2 he'), htok']
      exact termLoop_hangs hfail htok' _ _

/-- **The parser hangs** on `any--any`: the second "-" is not a primary, and the error keeps it from being passed. -/
theorem parse_hangs : (∀ fuel result, parse fuel "any--any".toList result = none) ∧
    ¬ ∃ result r, Returns "any--any".toList result r := by
  have hname : ∀ fuel, parsePrimary (fuel + 1) (advanceToken (initial "any--any".toList)) =
      some (ANY, advanceToken (advanceToken (initial "any--any".toList))) := by
    intro fuel
    have hv : feedValue ("any".toList.map Char.toLower) = some ANY := by decide +kernel
    rw [parsePrimary, if_neg (by decide)]
    exact congrArg some (by
      rw [parseName, show (advanceToken (initial "any--any".toList)).name = "any".toList by decide, hv])
  have hnone : ∀ fuel result, parse fuel "any--any".toList result = none := by
    intro fuel result
    rw [parse, if_neg (by decide)]
    cases fuel with
    | zero => rw [parseExpr]
    | succ fuel => rw [parseExpr, parseTerm_hangs hname (by decide) (by decide) (by decide)]
  refine ⟨hnone, ?_⟩
  rintro ⟨result, r, n, hn⟩
  have hr := hn n (le_refl n)
  rw [hnone] at hr
  cases hr

end Rdm.FeedType
