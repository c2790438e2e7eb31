import Rdm.Core.ProductStore

/-!
# Feed types and their expressions

`rdm::FeedType`: the names of the feeds, the recursive-descent parser for expressions, and the text of a feed type. The
loops of the parser are bounded by `fuel`.
-/

namespace Rdm.FeedType

/-! ## The table -/

def FT (n : Nat) : FeedType := UInt32.ofNat (2 ^ n)

def NONE : FeedType := 0
def DDPLUS : FeedType := 3
def WMO : FeedType := 15
def UNIDATA : FeedType := 47
def FSL : FeedType := 1984
def NMC : FeedType := 14336
def NPORT : FeedType := 130023424
def ANY : FeedType := 0xffffffff

def FEED_DEFS : List (String × FeedType) :=
  [("none", NONE), ("pps", FT 0), ("dds", FT 1), ("ddplus", DDPLUS), ("hds", FT 2), ("ids", FT 3), ("spare", FT 4),
   ("wmo", WMO), ("uniwisc", FT 5), ("unidata", UNIDATA), ("pcws", FT 6), ("fsl2", FT 7), ("fsl3", FT 8),
   ("fsl4", FT 9), ("fsl5", FT 10), ("fsl", FSL), ("gpssrc", FT 11), ("conduit", FT 12), ("fnexrad", FT 13),
   ("nmc", NMC), ("lightning", FT 14), ("wsi", FT 15), ("satellite", FT 16), ("faa604", FT 17), ("gps", FT 18),
   ("fnmoc", FT 19), ("gem", FT 20), ("nimage", FT 21), ("ntext", FT 22), ("ngrid", FT 23), ("npoint", FT 24),
   ("ngraph", FT 25), ("nother", FT 26), ("nport", NPORT), ("nexrad3", FT 27), ("nexrad2", FT 28), ("nxrdsrc", FT 29),
   ("exp", FT 30), ("any", ANY), ("ft0", FT 0), ("domestic", FT 1), ("ft1", FT 1), ("hrs", FT 2), ("ft2", FT 2),
   ("intnl", FT 3), ("ft3", FT 3), ("nps", FT 4), ("ft4", FT 4), ("ft5", FT 5), ("mcidas", FT 5), ("acars", FT 6),
   ("ft6", FT 6), ("profiler", FT 7), ("ft7", FT 7), ("ft8", FT 8), ("ft9", FT 9), ("ft10", FT 10), ("profs", FSL),
   ("afos", FT 11), ("nmc1", FT 11), ("ft11", FT 11), ("nmc2", FT 12), ("nceph", FT 12), ("ft12", FT 12),
   ("nmc3", FT 13), ("ft13", FT 13), ("ft14", FT 14), ("nldn", FT 14), ("ft15", FT 15), ("difax", FT 16),
   ("ft16", FT 16), ("faa", FT 17), ("604", FT 17), ("ft17", FT 17), ("ft18", FT 18), ("nogaps", FT 19),
   ("seismic", FT 19), ("ft19", FT 19), ("cmc", FT 20), ("ft20", FT 20), ("image", FT 21), ("ft21", FT 21),
   ("text", FT 22), ("ft22", FT 22), ("grid", FT 23), ("ft23", FT 23), ("point", FT 24), ("nbufr", FT 24),
   ("bufr", FT 24), ("ft24", FT 24), ("graph", FT 25), ("ft25", FT 25), ("other", FT 26), ("ft26", FT 26),
   ("nnexrad", FT 27), ("nexrad", FT 27), ("ft27", FT 27), ("nexrd2", FT 28), ("craft", FT 28), ("ft28", FT 28),
   ("ft29", FT 29), ("ft30", FT 30)]

def feedMap (name : List Char) : Option FeedType := (FEED_DEFS.reverse.find? fun d => d.1.toList = name).map Prod.snd

/-! ## Characters and numerals -/

def isspace (c : Char) : Bool := c = ' ' || 9 ≤ c.toNat && c.toNat ≤ 13

def isalnum (c : Char) : Bool := c.isDigit || c.isUpper || c.isLower

def digit (c : Char) : Option Nat :=
  if c.isDigit then some (c.toNat - 48)
  else if c.isLower then some (c.toNat - 87)
  else if c.isUpper then some (c.toNat - 55)
  else none

def isDigitIn (base : Nat) (c : Char) : Bool := (digit c).any (· < base)

def ofDigits (base : Nat) (ds : List Char) : Nat := ds.foldl (fun n c => base * n + (digit c).getD 0) 0

def stoul (s : List Char) : Option (Nat × Nat) :=
  let (base, skip) : Nat × Nat := match s with
    | '0' :: 'x' :: c :: _ => if isDigitIn 16 c then (16, 2) else (8, 0)
    | '0' :: 'X' :: c :: _ => if isDigitIn 16 c then (16, 2) else (8, 0)
    | '0' :: _ => (8, 0)
    | _ => (10, 0)
  let ds := (s.drop skip).takeWhile (isDigitIn base)
  if ds = [] ∨ 2 ^ 64 ≤ ofDigits base ds then none else some (ofDigits base ds, skip + ds.length)

def numeral (s : List Char) : Option Nat :=
  match stoul s with
  | some (n, pos) => if pos = s.length then some n else none
  | none => none

/-! ## The parser -/

inductive ParseStatus where
  | ok
  | rp
  | prim
  | garb
  | ukft
deriving DecidableEq, Repr

def ParseStatus.toInt : ParseStatus → Int
  | .ok => 0
  | .rp => 1
  | .prim => 2
  | .garb => 3
  | .ukft => 4

inductive TokenType where
  | name
  | «end»
  | union
  | diff
  | complement
  | lp
  | rp
deriving DecidableEq, Repr

/-- The state of the parser: the current token and the text behind it. The text of a name is all of it. -/
structure ParseState where
  err : ParseStatus
  tok : TokenType
  name : List Char
  cp : List Char
  whole : tok = .name → ∀ c ∈ cp.head?, isalnum c = false

namespace ParseState

def fail (ps : ParseState) (err : ParseStatus) : ParseState := { ps with err := err }

end ParseState

def symbol (c : Char) : Option TokenType :=
  if c = '|' ∨ c = '+' then some .union
  else if c = '-' then some .diff
  else if c = '(' then some .lp
  else if c = ')' then some .rp
  else if c = '~' then some .complement
  else none

theorem symbol_ne_name (c : Char) : symbol c ≠ some .name := by
  unfold symbol
  repeat' split
  all_goals simp

theorem head_dropWhile (p : Char → Bool) (l : List Char) : ∀ c ∈ (l.dropWhile p).head?, p c = false := by
  intro c hc
  have h := List.head?_dropWhile_not p l
  rw [Option.mem_def.1 hc] at h
  simpa using h

def advanceToken (ps : ParseState) : ParseState :=
  if ps.err ≠ .ok then ps
  else
    match ps.cp.dropWhile isspace with
    | [] => ⟨ps.err, .end, ps.name, [], nofun⟩
    | c :: cp =>
      match h : symbol c with
      | some tok => ⟨ps.err, tok, ps.name, cp, fun e => absurd (e ▸ h) (symbol_ne_name c)⟩
      | none =>
        ⟨ps.err, .name, (c :: cp).takeWhile isalnum, (c :: cp).dropWhile isalnum, fun _ => head_dropWhile _ _⟩

def feedValue (name : List Char) : Option FeedType :=
  match feedMap name with
  | some v => some v
  | none => (numeral name).map UInt32.ofNat

def parseName (ps : ParseState) : FeedType × ParseState :=
  match feedValue (ps.name.map Char.toLower) with
  | some v => (v, advanceToken ps)
  | none => (0, (advanceToken ps).fail .ukft)

def closeParen (expr : FeedType) (ps : ParseState) : FeedType × ParseState :=
  if ps.tok ≠ .rp then (0, ps.fail .rp) else (expr, advanceToken ps)

mutual

def parsePrimary : Nat → ParseState → Option (FeedType × ParseState)
  | 0, _ => none
  | fuel + 1, ps =>
    if ps.err ≠ .ok then some (0, ps)
    else
      match ps.tok with
      | .name => some (parseName ps)
      | .complement => (parsePrimary fuel (advanceToken ps)).map fun r => (~~~r.1, r.2)
      | .lp => (parseExpr fuel (advanceToken ps)).map fun r => closeParen r.1 r.2
      | _ => some (0, ps.fail .prim)

def parseTerm : Nat → ParseState → Option (FeedType × ParseState)
  | 0, _ => none
  | fuel + 1, ps =>
    match parsePrimary fuel ps with
    | none => none
    | some (left, ps) => if ps.err ≠ .ok then some (0, ps) else termLoop fuel left ps

def termLoop : Nat → FeedType → ParseState → Option (FeedType × ParseState)
  | 0, _, _ => none
  | fuel + 1, left, ps =>
    if ps.tok = .diff then
      match parsePrimary fuel (advanceToken ps) with
      | none => none
      | some (right, ps) => termLoop fuel (left &&& ~~~right) ps
    else some (left, ps)

def parseExpr : Nat → ParseState → Option (FeedType × ParseState)
  | 0, _ => none
  | fuel + 1, ps =>
    match parseTerm fuel ps with
    | none => none
    | some (left, ps) => if ps.err ≠ .ok then some (0, ps) else exprLoop fuel left ps

def exprLoop : Nat → FeedType → ParseState → Option (FeedType × ParseState)
  | 0, _, _ => none
  | fuel + 1, left, ps =>
    if ps.tok = .union then
      if (advanceToken ps).err ≠ .ok then some (0, advanceToken ps)
      else
        match parseTerm fuel (advanceToken ps) with
        | none => none
        | some (right, ps) => exprLoop fuel (left ||| right) ps
    else some (left, ps)

end

def initial (str : List Char) : ParseState := ⟨.ok, .end, [], str.takeWhile (· ≠ '\x00'), nofun⟩

def parse (fuel : Nat) (str : List Char) (result : FeedType) : Option (ParseStatus × FeedType) :=
  if str = [] then some (.prim, result)
  else
    match parseExpr fuel (advanceToken (initial str)) with
    | none => none
    | some (parsedVal, ps) =>
      if ps.err ≠ .ok then some (ps.err, result)
      else if ps.tok ≠ .end then some (.garb, result)
      else some (.ok, parsedVal)

/-! ## The text of a feed type -/

def coverFrom : List (String × FeedType) → FeedType → List Char → List Char × FeedType
  | [], remaining, s => (s, remaining)
  | (name, type) :: ds, remaining, s =>
    if remaining = 0 ∨ type = NONE then (s, remaining)
    else if type &&& remaining = type then
      coverFrom ds (remaining &&& ~~~type) ((if s = [] then [] else s ++ ['|']) ++ name.toList.map Char.toUpper)
    else coverFrom ds remaining s

def coverDefs : List (String × FeedType) :=
  (FEED_DEFS.take ((FEED_DEFS.findIdx fun d => d.2 = ANY) + 1)).reverse

def hexDigit (n : Nat) : Char := if n < 10 then Char.ofNat (48 + n) else Char.ofNat (87 + n)

def hex8 (n : Nat) : List Char :=
  '0' :: 'x' :: ([7, 6, 5, 4, 3, 2, 1, 0].map fun i => hexDigit (n / 16 ^ i % 16))

def toString (value : FeedType) : List Char :=
  if value = NONE then "NONE".toList
  else
    let (s, remaining) := coverFrom coverDefs value []
    if remaining = 0 then s else (if s = [] then [] else s ++ ['|']) ++ hex8 remaining.toNat

end Rdm.FeedType
