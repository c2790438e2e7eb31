import Rdm.Core.ConfParser
import Rdm.Core.ProdClass
import Rdm.Pqact.StateFile

/-!
# The configuration file of pqact

A rule is a set of feeds, a pattern, an action and its arguments. A faulty rule is left out; the old entries are deleted
as soon as the file is open (`faulty_file_replaces`).
-/

namespace Rdm

/-- What a rule does; the other names have an action that does nothing. -/
inductive PqactAction where
  | exec
  | file
  | pipe
  | stub (name : List Char)
deriving DecidableEq

def PqactAction.create (actionName : List Char) : PqactAction :=
  let lowerName := actionName.map Char.toLower
  if lowerName = "exec".toList then .exec
  else if lowerName = "file".toList then .file
  else if lowerName = "pipe".toList then .pipe
  else .stub lowerName

structure PqactEntry where
  feedtype : FeedType
  prog : Pattern
  action : PqactAction
  args : List Char
deriving DecidableEq

namespace PqactParser

def isBlank (c : Char) : Bool := c = ' ' || c = '\t'

/-! ## Rules -/

def fields : Nat → List Char → List (List Char) × Option (List Char)
  | 0, text => ([], some text)
  | n + 1, text =>
    let token := text.takeWhile fun c => !isBlank c
    let next := (text.dropWhile fun c => !isBlank c).dropWhile isBlank
    if next = [] then ([token], none)
    else
      let (tokens, rest) := fields n next
      (token :: tokens, rest)

inductive Outcome where
  | nothing
  | faulty
  | entry (e : PqactEntry)
deriving DecidableEq

def makeEntry (re : RegexEngine) (fuel : Nat) (feedtype pattern action args : List Char) : Option Outcome :=
  match FeedType.parse fuel feedtype 0 with
  | none => none
  | some (.ok, ft) =>
    match Pattern.new re (bytesOf pattern) with
    | none => some .faulty
    | some prog => some (.entry ⟨ft, prog, PqactAction.create action, args⟩)
  | some _ => some .faulty

def processRule (re : RegexEngine) (fuel : Nat) (accumulated : List Char) : Option Outcome :=
  let fullLine := accumulated.dropWhile isBlank
  if fullLine = [] ∨ fullLine.head? = some '#' then some .nothing
  else
    match fields 3 fullLine with
    | ([feedtype, pattern, action], rest) => makeEntry re fuel feedtype pattern action (rest.getD [])
    | _ => some .faulty

/-! ## Lines -/

structure State where
  accumulated : List Char := []
  prevEndedWithSlash : Bool := false
  entries : List PqactEntry := []
  hasError : Bool := false

def State.process (re : RegexEngine) (fuel : Nat) (x : State) : Option State :=
  match processRule re fuel x.accumulated with
  | none => none
  | some .nothing => some { x with accumulated := [] }
  | some .faulty => some { x with accumulated := [], hasError := true }
  | some (.entry e) => some { x with accumulated := [], entries := x.entries ++ [e] }

def strip (line : List Char) : List Char × Bool :=
  let line := if line.getLast? = some '\r' then line.dropLast else line
  if line.getLast? = some '\x5c' then (line.dropLast, true) else (line, false)

def isPause (line : List Char) : Bool := line.head? = some '#' || line.all isBlank

def State.readLine (re : RegexEngine) (fuel : Nat) (x : State) (text : List Char) : Option State :=
  let (line, endsWithSlash) := strip text
  if isPause line then x.process re fuel
  else if x.accumulated = [] then some { x with accumulated := line, prevEndedWithSlash := endsWithSlash }
  else if x.prevEndedWithSlash ∨ line.head?.any isBlank then
    some { x with accumulated := x.accumulated ++ line, prevEndedWithSlash := endsWithSlash }
  else (x.process re fuel).map fun x => { x with accumulated := line, prevEndedWithSlash := endsWithSlash }

def parse (re : RegexEngine) (fuel : Nat) (file : Option (List Char)) (config : List PqactEntry) :
    Option (Bool × List PqactEntry) :=
  match file with
  | none => some (false, config)
  | some text => do
    let x ← (StateFile.getlines text []).foldlM (State.readLine re fuel) {}
    let x ← x.process re fuel
    return (!x.hasError, x.entries)

/-! ## The rules of a file -/

def rulesFrom : List (List Char) → List Char → Bool → List (List Char)
  | [], accumulated, _ => [accumulated]
  | text :: lines, accumulated, prevEndedWithSlash =>
    let (line, endsWithSlash) := strip text
    if isPause line then accumulated :: rulesFrom lines [] prevEndedWithSlash
    else if accumulated = [] then rulesFrom lines line endsWithSlash
    else if prevEndedWithSlash ∨ line.head?.any isBlank then rulesFrom lines (accumulated ++ line) endsWithSlash
    else accumulated :: rulesFrom lines line endsWithSlash

def rules (text : List Char) : List (List Char) := rulesFrom (StateFile.getlines text []) [] false

def outcomes (re : RegexEngine) (fuel : Nat) (rs : List (List Char)) : Option (List Outcome) :=
  rs.mapM (processRule re fuel)

def Outcome.entry? : Outcome → Option PqactEntry
  | .entry e => some e
  | _ => none

variable {re : RegexEngine} {fuel : Nat}

def State.after (x : State) (os : List Outcome) : State :=
  { x with
    accumulated := []
    entries := x.entries ++ os.filterMap Outcome.entry?
    hasError := x.hasError || os.any fun o => o = .faulty }

theorem State.process_eq_some {x x' : State} : x.process re fuel = some x' ↔
    ∃ o, processRule re fuel x.accumulated = some o ∧ x' = x.after [o] := by
  unfold State.process State.after
  cases hp : processRule re fuel x.accumulated with
  | none => simp
  | some o => cases o <;> simp [Outcome.entry?, List.filterMap_cons, eq_comm]

theorem outcomes_cons {r : List Char} {rs : List (List Char)} {o : Outcome} {os : List Outcome}
    (ho : processRule re fuel r = some o) (hos : outcomes re fuel rs = some os) :
    outcomes re fuel (r :: rs) = some (o :: os) := by
  unfold outcomes at *
  simp [List.mapM_cons, ho, hos]

theorem mem_outcomes : ∀ {rs : List (List Char)} {os : List Outcome}, outcomes re fuel rs = some os → ∀ o ∈ os,
    ∃ r ∈ rs, processRule re fuel r = some o
  | [], os, h, o, ho => by
    cases h
    cases ho
  | r :: rs, os, h, o, ho => by
    simp only [outcomes, List.mapM_cons, Option.pure_def, Option.bind_eq_bind, Option.bind_eq_some_iff] at h
    obtain ⟨o1, ho1, os1, hos1, he⟩ := h
    cases he
    rcases List.mem_cons.1 ho with rfl | ho
    · exact ⟨r, List.mem_cons_self, ho1⟩
    · obtain ⟨r', hr', ho'⟩ := mem_outcomes hos1 o ho
      exact ⟨r', List.mem_cons_of_mem _ hr', ho'⟩

/-- **The loop processes the rules** that the lines are put together to, in order. -/
theorem readLines_rules : ∀ {lines : List (List Char)} {x y z : State}, lines.foldlM
    (State.readLine re fuel) x = some y →
    y.process re fuel = some z → ∃ os, outcomes re fuel (rulesFrom lines x.accumulated x.prevEndedWithSlash) = some os ∧
      z.entries = x.entries ++ os.filterMap Outcome.entry? ∧ z.hasError = (x.hasError || os.any fun o => o = .faulty)
  | [], x, y, z, hy, hz => by
    cases hy
    obtain ⟨o, ho, rfl⟩ := State.process_eq_some.1 hz
    exact ⟨[o], outcomes_cons ho rfl, rfl, rfl⟩
  | text :: lines, x, y, z, hy, hz => by
    rw [List.foldlM_cons] at hy
    obtain ⟨x1, hx1, hy⟩ := Option.bind_eq_some_iff.1 hy
    obtain ⟨os, hos, hentries, herror⟩ := readLines_rules hy hz
    rw [rulesFrom]
    rw [State.readLine] at hx1
    generalize strip text = r at hx1 ⊢
    obtain ⟨line, endsWithSlash⟩ := r
    dsimp only at hx1 ⊢
    -- a rule that ends here is processed, and the others follow
    have hends : ∀ {x' : State}, x.process re fuel = some x' → x1.entries = x'.entries → x1.hasError = x'.hasError →
        ∃ os', outcomes re fuel (x.accumulated :: rulesFrom lines x1.accumulated x1.prevEndedWithSlash) = some os' ∧
          z.entries = x.entries ++ os'.filterMap Outcome.entry? ∧
          z.hasError = (x.hasError || os'.any fun o => o = .faulty) := by
      intro x' hx' he hh
      obtain ⟨o, ho, rfl⟩ := State.process_eq_some.1 hx'
      refine ⟨o :: os, outcomes_cons ho hos, ?_, ?_⟩
      · rw [hentries, he, State.after, List.append_assoc, ← List.filterMap_append]
        rfl
      · rw [herror, hh, State.after, Bool.or_assoc, ← List.any_append]
        rfl
    split at hx1
    case isTrue hpause =>
      rw [if_pos hpause]
      obtain ⟨o, ho, rfl⟩ := State.process_eq_some.1 hx1
      exact hends hx1 rfl rfl
    case isFalse hpause =>
      rw [if_neg hpause]
      split at hx1
      case isTrue hempty =>
        rw [if_pos hempty]
        cases hx1
        exact ⟨os, hos, hentries, herror⟩
      case isFalse hempty =>
        rw [if_neg hempty]
        split at hx1
        case isTrue hcont =>
          rw [if_pos hcont]
          cases hx1
          exact ⟨os, hos, hentries, herror⟩
        case isFalse hcont =>
          rw [if_neg hcont]
          obtain ⟨x', hx', rfl⟩ := Option.map_eq_some_iff.1 hx1
          exact hends hx' rfl rfl

/-- **What a file that was opened leaves**: the entries of its rules without the faulty ones; the answer is whether
there were none of these. -/
theorem parse_opened {text : List Char} {config config' : List PqactEntry} {ok : Bool}
    (h : parse re fuel (some text) config = some (ok, config')) : ∃ os, outcomes re fuel (rules text) = some os ∧
      config' = os.filterMap Outcome.entry? ∧ (ok = true ↔ Outcome.faulty ∉ os) := by
  simp only [parse, Option.bind_eq_bind, Option.bind_eq_some_iff] at h
  obtain ⟨y, hy, z, hz, he⟩ := h
  cases he
  obtain ⟨os, hos, hentries, herror⟩ := readLines_rules hy hz
  refine ⟨os, hos, hentries, ?_⟩
  have hnone : (os.any fun o => o = .faulty) = false ↔ Outcome.faulty ∉ os := by
    rw [List.any_eq_false]
    exact ⟨fun h hmem => h _ hmem (decide_eq_true rfl), fun h o ho he => h (of_decide_eq_true he ▸ ho)⟩
  rw [herror, Bool.false_or, Bool.not_eq_true', hnone]

/-- **The rules are kept if the answer is `false`**, provided that the file cannot be opened or has no faulty rule, in
which case the answer is `true`. -/
theorem parse_false_keeps {file : Option (List Char)} {config config' : List PqactEntry} {ok : Bool}
    (hfile : ∀ text ∈ file, ∀ rule ∈ rules text, processRule re fuel rule ≠ some .faulty)
    (h : parse re fuel file config = some (ok, config')) : (file ≠ none → ok = true) ∧
    (ok = false → config' = config) := by
  cases file with
  | none =>
    cases h
    exact ⟨fun hne => absurd rfl hne, fun _ => rfl⟩
  | some text =>
    obtain ⟨os, hos, -, hok⟩ := parse_opened h
    have htrue : ok = true := by
      refine hok.2 fun hmem => ?_
      obtain ⟨rule, hrule, ho⟩ := mem_outcomes hos _ hmem
      exact hfile text rfl rule hrule ho
    exact ⟨fun _ => htrue, fun hfalse => absurd (htrue.symm.trans hfalse) Bool.noConfusion⟩

def lenientEngine : RegexEngine := ⟨fun _ => true, fun _ _ => true⟩

def working : List PqactEntry := [⟨FeedType.ANY, ⟨matchAll, true⟩, .file, ['x']⟩]

def goodFile : List Char := "# rules\nANY .* PIPE\n\tdecoder\n".toList

theorem parse_false_keeps_good :
    (∃ config', parse lenientEngine 9 none working = some (false, config') ∧ config' = working) ∧
    ∃ ok config', parse lenientEngine 9 (some goodFile) working = some (ok, config') ∧ ok = true := by
  have hgood : ∀ text ∈ some goodFile, ∀ rule ∈ rules text, processRule lenientEngine 9 rule ≠ some .faulty := by
    intro text htext
    cases htext
    decide +kernel
  have hparse : parse lenientEngine 9 (some goodFile) working =
      some (true, [⟨FeedType.ANY, ⟨matchAll, true⟩, .pipe, "decoder".toList⟩]) := by decide +kernel
  have hmissing : ∀ text ∈ (none : Option (List Char)), ∀ rule ∈ rules text,
    processRule lenientEngine 9 rule ≠ some .faulty :=
    fun text htext => by cases htext
  have hnone : parse lenientEngine 9 none working = some (false, working) := rfl
  exact ⟨⟨working, hnone, (parse_false_keeps hmissing hnone).2 rfl⟩, true, _, hparse,
    (parse_false_keeps hgood hparse).1 (Option.some_ne_none _)⟩

/-- **A faulty file replaces the rules**: the answer is `false`, and the good rule stands in the place of the old
one. -/
theorem faulty_file_replaces : parse lenientEngine 9
    (some "ANY .* PIPE\tdecoder\nANY\t.*\n".toList) working =
      some (false, [⟨FeedType.ANY, ⟨matchAll, true⟩, .pipe, "decoder".toList⟩]) ∧
    parse lenientEngine 9 (some "ANY\t.*\n".toList) working = some (false, []) := by
  decide +kernel

end PqactParser

end Rdm
