import Rdm.Core.FeedTypeParse

/-!
# The state file

`StateFile::Write` writes the insertion time of the last product under the name that `getStatePath` makes from the
registry; `StateFile::Read` reads the file with the name of the configuration file and `.state`.
-/

namespace Rdm

open FeedType (isspace)
open List

/-! ## File systems -/

/-- What a directory entry is: a file with a text, or a symbolic link to a path. -/
inductive Node where
  | file (text : List Char)
  | link (target : List Char)
deriving DecidableEq

/-- The entry that each path names, and what is there. -/
structure FileSystem (E : Type) where
  entry : List Char → E
  node : E → Option Node

namespace FileSystem

variable {E : Type}

/-- Where the links lead, if there are not too many. -/
def resolve (fs : FileSystem E) : Nat → E → Option E
  | 0, _ => none
  | n + 1, e =>
    match fs.node e with
    | some (.link target) => fs.resolve n (fs.entry target)
    | _ => some e

theorem resolve_self {fs : FileSystem E} {e : E} (h : ∀ target, fs.node e ≠ some (.link target)) (n : Nat) :
    fs.resolve (n + 1) e = some e := by
  rw [resolve]
  split
  · next target he => exact absurd he (h target)
  · rfl

def SYMLOOP_MAX : Nat := 40

def read (fs : FileSystem E) (path : List Char) : Option (List Char) :=
  match fs.resolve SYMLOOP_MAX (fs.entry path) with
  | some e =>
    match fs.node e with
    | some (.file text) => some text
    | _ => none
  | none => none

theorem read_eq_some {fs : FileSystem E} {path text : List Char} : fs.read path = some text ↔
    ∃ e, fs.resolve SYMLOOP_MAX (fs.entry path) = some e ∧ fs.node e = some (.file text) := by
  rw [read]
  split
  case h_1 e he =>
    rw [he]
    split <;> simp_all
  case h_2 hnone => simp [hnone]

variable [DecidableEq E]

/-- Where the links lead, not past `e₁` and `e₂`. -/
def follow (fs : FileSystem E) (e₁ e₂ : E) : Nat → E → Option E
  | 0, _ => none
  | n + 1, e =>
    if e = e₁ ∨ e = e₂ then some e
    else
      match fs.node e with
      | some (.link target) => fs.follow e₁ e₂ n (fs.entry target)
      | _ => some e

def set (fs : FileSystem E) (e : E) (node : Option Node) : FileSystem E :=
  { fs with node := fun e' => if e' = e then node else fs.node e' }

def create (fs : FileSystem E) (path text : List Char) : Option (FileSystem E) :=
  (fs.resolve SYMLOOP_MAX (fs.entry path)).map fun e => fs.set e (some (.file text))

def rename (fs : FileSystem E) (source target : List Char) : FileSystem E :=
  if fs.entry source = fs.entry target then fs
  else (fs.set (fs.entry target) (fs.node (fs.entry source))).set (fs.entry source) none

theorem set_node (fs : FileSystem E) (e : E) (node : Option Node) : (fs.set e node).node e = node := if_pos rfl

theorem set_node_ne (fs : FileSystem E) {e e' : E} (node : Option Node) (h : e' ≠ e) :
    (fs.set e node).node e' = fs.node e' :=
  if_neg h

theorem create_rename {fs fs' : FileSystem E} {source target text : List Char}
    (hlink : ∀ p, fs.node (fs.entry source) ≠ some (.link p)) (h : fs.create source text = some fs') :
    (fs'.rename source target).entry = fs.entry ∧
    (fs'.rename source target).node (fs.entry target) = some (.file text) ∧
    (fs.entry source ≠ fs.entry target → (fs'.rename source target).node (fs.entry source) = none) ∧
    ∀ e, e ≠ fs.entry source → e ≠ fs.entry target → (fs'.rename source target).node e = fs.node e := by
  rw [create, SYMLOOP_MAX, resolve_self hlink, Option.map_some, Option.some.injEq] at h
  subst h
  have hentry : ∀ p, (fs.set (fs.entry source) (some (.file text))).entry p = fs.entry p := fun _ => rfl
  unfold rename
  rw [hentry, hentry]
  split
  case isTrue hsame =>
    refine ⟨rfl, ?_, fun hne => absurd hsame hne, fun e hs _ => set_node_ne _ _ hs⟩
    rw [← hsame, set_node]
  case isFalse hdiff =>
    refine ⟨rfl, ?_, fun _ => set_node _ _ _, fun e hs ht => ?_⟩
    · rw [set_node_ne _ _ (Ne.symm hdiff), set_node, set_node]
    · rw [set_node_ne _ _ hs, set_node_ne _ _ ht, set_node_ne _ _ hs]

/-- If neither `e₁` nor `e₂` is a link afterwards, and nothing else has changed, the links lead where they did. -/
theorem resolve_eq_follow {fs fs' : FileSystem E} {e₁ e₂ : E} (hentry : fs'.entry = fs.entry)
    (h₁ : ∀ target, fs'.node e₁ ≠ some (.link target)) (h₂ : ∀ target, fs'.node e₂ ≠ some (.link target))
    (hsame : ∀ e, e ≠ e₁ → e ≠ e₂ → fs'.node e = fs.node e) : ∀ n e, fs'.resolve n e = fs.follow e₁ e₂ n e
  | 0, _ => rfl
  | n + 1, e => by
    rw [follow]
    split
    case isTrue h =>
      rcases h with rfl | rfl
      · exact resolve_self h₁ n
      · exact resolve_self h₂ n
    case isFalse h =>
      rw [not_or] at h
      rw [resolve, hsame e h.1 h.2, hentry]
      split
      · exact resolve_eq_follow hentry h₁ h₂ hsame n _
      · rfl

end FileSystem

namespace StateFile

variable {E : Type}

/-! ## Names -/

/-- The registry: where states are kept, and the name of this node. -/
structure Registry where
  ldmStateDir : List Char
  topologyPrefix : List Char

def basename (path : List Char) : List Char := (path.reverse.takeWhile (· ≠ '/')).reverse

def getStatePath (registry : Registry) (configPath : List Char) : List Char :=
  registry.ldmStateDir ++ "/.".toList ++ registry.topologyPrefix ++ ".".toList ++ basename configPath ++ ".state".toList

/-! ## Texts -/

def formatLong (n : Int) : List Char :=
  if n < 0 then '-' :: Nat.toDigits 10 n.natAbs else Nat.toDigits 10 n.natAbs

def format06 (n : Int) : List Char :=
  let ds := Nat.toDigits 10 n.natAbs
  if n < 0 then '-' :: (List.replicate (5 - ds.length) '0' ++ ds) else List.replicate (6 - ds.length) '0' ++ ds

def stateText (t : Timestamp) : List Char :=
  "# The following line contains the insertion-time of the last, successfully-\n".toList ++
    ("# processed data-product.  Do not modify it unless you know exactly what\n".toList ++
    ("# you're doing!\n".toList ++ (formatLong t.sec ++ '.' :: format06 t.usec ++ "\n".toList)))

def getlines : List Char → List Char → List (List Char)
  | [], line => if line = [] then [] else [line]
  | c :: text, line => if c = '\n' then line :: getlines text [] else getlines text (line ++ [c])

def strtol (s : List Char) : Option Int :=
  let s := s.dropWhile isspace
  let negative := s.head? = some '-'
  let s := if s.head? = some '-' ∨ s.head? = some '+' then s.tail else s
  let ds := s.takeWhile Char.isDigit
  if ds = [] then none
  else some (if negative then -(Nat.ofDigitChars 10 ds 0 : Int) else (Nat.ofDigitChars 10 ds 0 : Int))

def stoSigned (bits : Nat) (s : List Char) : Option Int :=
  match strtol s with
  | some n => if -2 ^ (bits - 1) ≤ n ∧ n < 2 ^ (bits - 1) then some n else none
  | none => none

def stoll (s : List Char) : Option Int := stoSigned 64 s

def stoi (s : List Char) : Option Int := stoSigned 32 s

def readLines : List (List Char) → Timestamp → Bool × Timestamp
  | [], out => (false, out)
  | line :: lines, out =>
    if line = [] ∨ line.head? = some '#' then readLines lines out
    else
      match line.findIdx? (· = '.') with
      | none => (false, out)
      | some dotPos =>
        match stoll (line.take dotPos) with
        | none => (false, out)
        | some sec =>
          match stoi (line.drop (dotPos + 1)) with
          | none => (false, ⟨sec, out.usec⟩)
          | some usec => (decide (0 ≤ sec), ⟨sec, usec⟩)

def read (opened : Bool) (fs : FileSystem E) (configPath : List Char) (out : Timestamp) : Bool × Timestamp :=
  if configPath = [] then (false, out)
  else
    match fs.read (configPath ++ ".state".toList) with
    | none => (false, out)
    | some text => if opened then readLines (getlines text []) out else (false, out)

theorem read_iff {opened : Bool} {fs : FileSystem E} {configPath : List Char} (hpath : configPath ≠ [])
    {out t : Timestamp} : read opened fs configPath out = (true, t) ↔ opened = true ∧
      ∃ text, fs.read (configPath ++ ".state".toList) = some text ∧ readLines (getlines text []) out = (true, t) := by
  rw [read, if_neg hpath]
  split
  case h_1 hnone =>
    rw [hnone]
    simp
  case h_2 text htext =>
    rw [htext]
    cases opened <;> simp

variable [DecidableEq E]

/-- What the system does in a `StateFile::Write`. What it stores of the text is not checked. -/
structure Io where
  opened : Bool
  stored : List Char → List Char
  renamed : Bool

def write (registry : Registry) (io : Io) (fs : FileSystem E) (configPath : List Char) (t : Timestamp) :
    Bool × FileSystem E :=
  if configPath = [] then (false, fs)
  else
    let statePath := getStatePath registry configPath
    let tmpStatePath := statePath ++ ".tmp".toList
    if io.opened then
      match fs.create tmpStatePath (io.stored (stateText t)) with
      | none => (false, fs)
      | some fs' => if io.renamed then (true, fs'.rename tmpStatePath statePath) else (false, fs')
    else (false, fs)

/-! ## What is read back -/

theorem getlines_line : ∀ {l : List Char}, '\n' ∉ l → ∀ rest line,
    getlines (l ++ '\n' :: rest) line = (line ++ l) :: getlines rest []
  | [], _, rest, line => by rw [nil_append, append_nil, getlines, if_pos rfl]
  | c :: l, h, rest, line => by
    rw [mem_cons, not_or] at h
    rw [cons_append, getlines, if_neg (Ne.symm h.1), getlines_line h.2, append_assoc, singleton_append]

theorem strtol_digits {ds : List Char} (hne : ds ≠ []) (h : ∀ c ∈ ds, c.isDigit = true) :
    strtol ds = some (Nat.ofDigitChars 10 ds 0 : Int) := by
  obtain ⟨d, ds, rfl⟩ := exists_cons_of_ne_nil hne
  have hd := h d (mem_cons_self ..)
  have hspace : isspace d = false := (FeedType.isalnum_plain (by rw [FeedType.isalnum, hd]; rfl)).1
  have hdrop : (d :: ds).dropWhile isspace = d :: ds :=
    dropWhile_cons_of_neg (by rw [hspace]; exact Bool.false_ne_true)
  have hsign : ∀ {c : Char}, c.isDigit = false → ¬(d :: ds).head? = some c := fun hc he => by
    rw [← Option.some.inj he, hd] at hc
    cases hc
  simp only [strtol]
  rw [hdrop, if_neg (not_or.2 ⟨hsign (by decide), hsign (by decide)⟩), takeWhile_eq_self_iff.2 h, if_neg hne,
    if_neg (hsign (by decide))]

theorem stoSigned_padded {bits n : Nat} (k : Nat) (h : n < 2 ^ (bits - 1)) :
    stoSigned bits (replicate k '0' ++ Nat.toDigits 10 n) = some (n : Int) := by
  have hdigits : ∀ c ∈ replicate k '0' ++ Nat.toDigits 10 n, c.isDigit = true := by
    refine forall_mem_append.2 ⟨fun c hc => ?_, fun c hc => Nat.isDigit_of_mem_toDigits (by decide) (by decide) hc⟩
    rw [eq_of_mem_replicate hc]
    rfl
  have hval : Nat.ofDigitChars 10 (replicate k '0' ++ Nat.toDigits 10 n) 0 = n := by
    rw [Nat.ofDigitChars_append, Nat.ofDigitChars_replicate_zero, Nat.mul_zero, Nat.ofDigitChars_ten_toDigits]
  have hne : replicate k '0' ++ Nat.toDigits 10 n ≠ [] := append_ne_nil_of_right_ne_nil _ Nat.toDigits_ne_nil
  have hpow : (n : Int) < 2 ^ (bits - 1) := by exact_mod_cast h
  have hpos : (0 : Int) < 2 ^ (bits - 1) := by exact_mod_cast Nat.two_pow_pos (bits - 1)
  rw [stoSigned, strtol_digits hne hdigits, hval]
  exact if_pos ⟨by omega, hpow⟩

theorem readLines_time {t : Timestamp} (hsec : 0 ≤ t.sec ∧ t.sec < 2 ^ 63) (husec : 0 ≤ t.usec ∧ t.usec < 2 ^ 31)
    (lines : List (List Char)) (out : Timestamp) :
    readLines ((formatLong t.sec ++ '.' :: format06 t.usec) :: lines) out = (true, t) := by
  have hnodot : ∀ c ∈ Nat.toDigits 10 t.sec.natAbs, decide (c = '.') = false := fun c hc =>
    decide_eq_false fun he =>
      absurd (Nat.isDigit_of_mem_toDigits (by decide) (by decide) hc) (by rw [he]; decide)
  have hdrop : (Nat.toDigits 10 t.sec.natAbs ++ '.' :: format06 t.usec).drop
      ((Nat.toDigits 10 t.sec.natAbs).length + 1) = format06 t.usec := by simp
  have hsec' := @stoSigned_padded 64 t.sec.natAbs 0 (by omega)
  have husec' := @stoSigned_padded 32 t.usec.natAbs (6 - (Nat.toDigits 10 t.usec.natAbs).length) (by omega)
  rw [replicate_zero, nil_append] at hsec'
  rw [formatLong, if_neg (by omega), readLines, if_neg]
  · rw [findIdx?_append, findIdx?_eq_none_iff.2 hnodot, findIdx?_cons, if_pos (by decide)]
    simp only [Option.map_some, Option.none_or, Nat.zero_add, take_left']
    rw [hdrop, stoll, hsec', format06, if_neg (by omega)]
    simp only [stoi]
    rw [husec']
    simp only [Int.natAbs_of_nonneg hsec.1, Int.natAbs_of_nonneg husec.1, hsec.1, decide_true]
  · obtain ⟨d, ds, hds⟩ := exists_cons_of_ne_nil (@Nat.toDigits_ne_nil t.sec.natAbs 10)
    have hd : d.isDigit = true := Nat.isDigit_of_mem_toDigits (by decide) (by decide) (hds ▸ mem_cons_self ..)
    rw [hds, cons_append, head?_cons, not_or]
    refine ⟨nofun, fun he => ?_⟩
    rw [Option.some.inj he] at hd
    exact absurd hd (by decide)

theorem getlines_comment {l : List Char} (h : l.head? = some '#' ∧ l.getLast? = some '\n' ∧ '\n' ∉ l.dropLast)
    (rest : List Char) : ∃ line, line.head? = some '#' ∧ getlines (l ++ rest) [] = line :: getlines rest [] := by
  obtain ⟨hhead, hlast, hno⟩ := h
  obtain ⟨l, rfl⟩ := getLast?_eq_some_iff.1 hlast
  rw [dropLast_concat] at hno
  refine ⟨l, ?_, by rw [append_assoc, singleton_append, getlines_line hno, nil_append]⟩
  cases l with
  | nil => cases hhead
  | cons c l => exact hhead

theorem readLines_comment {l : List Char} (h : l.head? = some '#' ∧ l.getLast? = some '\n' ∧ '\n' ∉ l.dropLast)
    (rest : List Char) (out : Timestamp) :
    readLines (getlines (l ++ rest) []) out = readLines (getlines rest []) out := by
  obtain ⟨line, hhash, hlines⟩ := getlines_comment h rest
  rw [hlines, readLines, if_pos (Or.inr hhash)]

theorem readLines_stateText {t : Timestamp} (hsec : 0 ≤ t.sec ∧ t.sec < 2 ^ 63) (husec : 0 ≤ t.usec ∧ t.usec < 2 ^ 31)
    (out : Timestamp) : readLines (getlines (stateText t) []) out = (true, t) := by
  have hdigit : ∀ {n : Nat}, '\n' ∉ Nat.toDigits 10 n := fun h =>
    absurd (Nat.isDigit_of_mem_toDigits (by decide) (by decide) h) (by decide)
  have hno : '\n' ∉ formatLong t.sec ++ '.' :: format06 t.usec := by
    rw [formatLong, format06, if_neg (by omega), if_neg (by omega), mem_append, mem_cons, mem_append,
      not_or, not_or, not_or]
    exact ⟨hdigit, by decide, fun h => absurd (eq_of_mem_replicate h) (by decide), hdigit⟩
  have htime := getlines_line hno [] []
  unfold stateText
  refine (readLines_comment (by decide) _ _).trans ?_
  refine (readLines_comment (by decide) _ _).trans ?_
  refine (readLines_comment (by decide) _ _).trans ?_
  refine (congrArg (readLines · out) htime).trans ?_
  exact readLines_time hsec husec _ _

/-- A `StateFile::Write` that succeeds has renamed the temporary file. -/
theorem write_leaves {registry : Registry} {io : Io} {fs : FileSystem E} {configPath : List Char} {t : Timestamp}
    (hwrite : (write registry io fs configPath t).1 = true) :
    configPath ≠ [] ∧ ∃ fs₁, fs.create (getStatePath registry configPath ++ ".tmp".toList) (io.stored (stateText t)) =
      some fs₁ ∧ (write registry io fs configPath t).2 =
        fs₁.rename (getStatePath registry configPath ++ ".tmp".toList) (getStatePath registry configPath) := by
  unfold write at hwrite ⊢
  split at hwrite
  case isTrue => cases hwrite
  case isFalse hpath =>
    simp only at hwrite ⊢
    split at hwrite
    case isFalse => cases hwrite
    case isTrue hopened =>
      split at hwrite
      case h_1 => cases hwrite
      case h_2 fs₁ hcreate =>
        split at hwrite
        case isFalse => cases hwrite
        case isTrue hrenamed => exact ⟨hpath, fs₁, hcreate, by rw [if_neg hpath, if_pos hopened, if_pos hrenamed]⟩

/-- **A time comes back exactly if** the links lead from the name that is read to the one that is written, and what was
stored reads as the time, or to another file that does; the whole text does. -/
theorem read_write {registry : Registry} {io : Io} {fs : FileSystem E} {configPath : List Char} {t : Timestamp}
    (hwrite : (write registry io fs configPath t).1 = true) (hsec : 0 ≤ t.sec ∧ t.sec < 2 ^ 63)
    (husec : 0 ≤ t.usec ∧ t.usec < 10 ^ 6)
    (hplain : ∀ target, fs.node (fs.entry (getStatePath registry configPath ++ ".tmp".toList)) ≠ some (.link target))
    (opened : Bool) (out : Timestamp) :
    (read opened (write registry io fs configPath t).2 configPath out = (true, t) ↔ opened = true ∧
      ∃ e text, fs.follow (fs.entry (getStatePath registry configPath))
          (fs.entry (getStatePath registry configPath ++ ".tmp".toList)) FileSystem.SYMLOOP_MAX
          (fs.entry (configPath ++ ".state".toList)) = some e ∧ readLines (getlines text []) out = (true, t) ∧
        (e = fs.entry (getStatePath registry configPath) ∧ text = io.stored (stateText t) ∨
          e ≠ fs.entry (getStatePath registry configPath) ∧
          e ≠ fs.entry (getStatePath registry configPath ++ ".tmp".toList) ∧ fs.node e = some (.file text))) ∧
    readLines (getlines (stateText t) []) out = (true, t) := by
  refine ⟨?_, readLines_stateText hsec ⟨husec.1, by omega⟩ out⟩
  obtain ⟨hpath, fs₁, hcreate, hfs⟩ := write_leaves hwrite
  obtain ⟨hentry, hnode, hgone, hsame⟩ := FileSystem.create_rename hplain hcreate
  rw [← hfs] at hentry hnode hgone hsame
  have hnotmp : ∀ text, (write registry io fs configPath t).2.node
      (fs.entry (getStatePath registry configPath ++ ".tmp".toList)) = some text →
      fs.entry (getStatePath registry configPath ++ ".tmp".toList) = fs.entry (getStatePath registry configPath) := by
    intro text htext
    by_contra hne
    rw [hgone hne] at htext
    cases htext
  have hresolve := FileSystem.resolve_eq_follow hentry (by rw [hnode]; nofun) (fun target h => by
    rw [hnotmp _ h, hnode] at h
    cases h) fun e h₁ h₂ => hsame e h₂ h₁
  simp only [read_iff hpath, FileSystem.read_eq_some, hresolve, hentry]
  refine and_congr_right fun _ => ⟨?_, ?_⟩
  · rintro ⟨text, ⟨e, he, htext⟩, hread⟩
    refine ⟨e, text, he, hread, ?_⟩
    by_cases h₁ : e = fs.entry (getStatePath registry configPath)
    · rw [h₁, hnode] at htext
      cases htext
      exact .inl ⟨h₁, rfl⟩
    · have h₂ : e ≠ fs.entry (getStatePath registry configPath ++ ".tmp".toList) := by
        rintro rfl
        exact h₁ (hnotmp _ htext)
      exact .inr ⟨h₁, h₂, hsame e h₂ h₁ ▸ htext⟩
  · rintro ⟨e, text, he, hread, ⟨rfl, rfl⟩ | ⟨h₁, h₂, htext⟩⟩
    · exact ⟨_, ⟨_, he, hnode⟩, hread⟩
    · exact ⟨text, ⟨e, he, (hsame e h₂ h₁).trans htext⟩, hread⟩

def Io.good : Io := ⟨true, id, true⟩

def sampleRegistry : Registry := ⟨"/var/state".toList, "node".toList⟩

/-- A chain of two links. -/
def linkedFs : FileSystem (List Char) :=
  ⟨id, fun e => if e = "/etc/pqact.conf.state".toList then some (.link "/run/pqact.state".toList)
    else if e = "/run/pqact.state".toList then some (.link "/var/state/.node.pqact.conf.state".toList) else none⟩

theorem read_write_linked :
    read true (write sampleRegistry .good linkedFs "/etc/pqact.conf".toList ⟨1700000000, 42⟩).2
      "/etc/pqact.conf".toList .NONE = (true, ⟨1700000000, 42⟩) := by
  have hnone : linkedFs.node (linkedFs.entry (getStatePath sampleRegistry "/etc/pqact.conf".toList ++ ".tmp".toList)) =
      none := by decide
  obtain ⟨hiff, htext⟩ := @read_write _ _ sampleRegistry .good linkedFs "/etc/pqact.conf".toList ⟨1700000000, 42⟩
    (by decide +kernel) (by decide) (by decide) (by rw [hnone]; nofun) true .NONE
  exact hiff.2 ⟨rfl, _, _, by decide +kernel, htext, .inl ⟨rfl, rfl⟩⟩

/-- A file system with nothing in it: the time is written, and then there is no time to read. -/
theorem read_write_fails :
    (write sampleRegistry .good (⟨id, fun _ => none⟩ : FileSystem (List Char)) "/etc/pqact.conf".toList
      ⟨1700000000, 42⟩).1 = true ∧
    (read true (write sampleRegistry .good (⟨id, fun _ => none⟩ : FileSystem (List Char)) "/etc/pqact.conf".toList
      ⟨1700000000, 42⟩).2 "/etc/pqact.conf".toList .NONE).1 = false := by
  decide +kernel

end StateFile

end Rdm
