import Mathlib.Data.Set.Card
import Rdm.Core.ProductStore
import Rdm.Lib.Transitions

/-!
# The count of writers

The control header counts the handles that may write to the file. `create`, `open` and `close` are split where other
processes can come between. The count is right in every run of `Careful` calls.
-/

namespace Rdm

open Option (bind_eq_some_iff ite_none_right_eq_some)

def WRITE_COUNT_MAGIC : Nat := 0x50515545

def MAX_WRITE_COUNT : Nat := 2 ^ 32 - 1

/-! ## The header -/

/-- The fields of `pqctl` that count the writers. -/
structure ControlHeader where
  writeCountMagic : Nat
  writeCount : Nat
deriving DecidableEq

namespace ControlHeader

def initializeControlHeader : ControlHeader := ⟨WRITE_COUNT_MAGIC, 1⟩

def checkMagic (c : ControlHeader) : ControlHeader :=
  if WRITE_COUNT_MAGIC ≠ c.writeCountMagic then ⟨WRITE_COUNT_MAGIC, 0⟩ else c

def addWriter (c : ControlHeader) : Int × ControlHeader :=
  let c := c.checkMagic
  if MAX_WRITE_COUNT > c.writeCount then (0, { c with writeCount := c.writeCount + 1 }) else (EACCES, c)

def dropWriter (c : ControlHeader) : ControlHeader :=
  if c.writeCount > 0 then { c with writeCount := c.writeCount - 1 } else c

variable {c : ControlHeader}

section

variable (hmagic : c.writeCountMagic = WRITE_COUNT_MAGIC)
include hmagic

theorem checkMagic_eq : c.checkMagic = c :=
  if_neg fun hne => hne hmagic.symm

theorem addWriter_of_lt (hlt : MAX_WRITE_COUNT > c.writeCount) :
    c.addWriter = (0, { c with writeCount := c.writeCount + 1 }) := by
  rw [addWriter, checkMagic_eq hmagic]
  exact if_pos hlt

theorem addWriter_full (hfull : ¬ MAX_WRITE_COUNT > c.writeCount) : c.addWriter = (EACCES, c) := by
  rw [addWriter, checkMagic_eq hmagic]
  exact if_neg hfull

end

end ControlHeader

/-! ## Handles -/

/-- How far the call that opened the file has come. -/
inductive Stage where
  | creating
  | formatted
  | opening
  | opened
deriving DecidableEq

structure OpenFile where
  file : Nat
  readOnly : Bool
  stage : Stage
deriving DecidableEq

def OpenFile.Writes (o : OpenFile) : Prop := o.readOnly = false ∧ (o.stage = .formatted ∨ o.stage = .opened)

structure QueueFiles (H : Type) where
  header : Nat → Option ControlHeader
  path : Option Nat
  handle : H → Option OpenFile

/-- The parts of the calls on a handle. `ok` says whether what the call still does succeeds. -/
inductive FileCall (H : Type) where
  | close (h : H)
  | createFile (h : H) (readOnly noClobber : Bool) (inode : Nat)
  | format (h : H)
  | endCreate (h : H) (ok : Bool)
  | openFile (h : H) (readOnly : Bool)
  | endOpen (h : H) (ok : Bool)

namespace QueueFiles

variable {H : Type} {x y : QueueFiles H} {h h' : H} {o o' : OpenFile} {file : Nat} {c : ControlHeader}

def Used (x : QueueFiles H) (file : Nat) : Prop := ∃ h o, x.handle h = some o ∧ o.file = file

def Live (x : QueueFiles H) (file : Nat) : Prop := x.path = some file ∨ x.Used file

def writers (x : QueueFiles H) (file : Nat) : Set H := {h | ∃ o, x.handle h = some o ∧ o.file = file ∧ o.Writes}

variable [DecidableEq H]

def setHandle (x : QueueFiles H) (h : H) (o : Option OpenFile) : QueueFiles H :=
  { x with handle := Function.update x.handle h o }

def setHeader (x : QueueFiles H) (file : Nat) (c : Option ControlHeader) : QueueFiles H :=
  { x with header := Function.update x.header file c }

def createFile (x : QueueFiles H) (h : H) (readOnly noClobber : Bool) (inode : Nat) : QueueFiles H :=
  match x.path with
  | some file =>
    if noClobber then x else (x.setHeader file none).setHandle h (some ⟨file, readOnly, .creating⟩)
  | none => { (x.setHeader inode none).setHandle h (some ⟨inode, readOnly, .creating⟩) with path := some inode }

def countWriter (x : QueueFiles H) (h : H) (o : OpenFile) (c : ControlHeader) : QueueFiles H :=
  if o.readOnly then x.setHandle h (some { o with stage := .opened })
  else (x.setHeader o.file (some c.addWriter.2)).setHandle h
    (if c.addWriter.1 = 0 then some { o with stage := .opened } else none)

def next : FileCall H → QueueFiles H → Option (QueueFiles H)
  | .close h, x => do
    let o ← x.handle h
    if o.stage = .opened then
      if o.readOnly then some (x.setHandle h none)
      else some ((x.setHeader o.file ((x.header o.file).map ControlHeader.dropWriter)).setHandle h none)
    else none
  | .createFile h readOnly noClobber inode, x =>
    if x.handle h = none then some (x.createFile h readOnly noClobber inode) else none
  | .format h, x => do
    let o ← x.handle h
    if o.stage = .creating then
      some ((x.setHeader o.file (some .initializeControlHeader)).setHandle h (some { o with stage := .formatted }))
    else none
  | .endCreate h ok, x => do
    let o ← x.handle h
    if ok then
      if o.stage = .formatted then some (x.setHandle h (some { o with stage := .opened })) else none
    else if o.stage = .creating ∨ o.stage = .formatted then some { x.setHandle h none with path := none }
    else none
  | .openFile h readOnly, x =>
    if x.handle h = none then
      some (match x.path with
        | some file => x.setHandle h (some ⟨file, readOnly, .opening⟩)
        | none => x)
    else none
  | .endOpen h ok, x => do
    let o ← x.handle h
    if o.stage = .opening then
      if ok then (x.header o.file).map (x.countWriter h o) else some (x.setHandle h none)
    else none

def FileSystem (x : QueueFiles H) : FileCall H → Prop
  | .createFile _ _ _ inode => x.path = none → ¬ x.Used inode
  | _ => True

def Careful (x : QueueFiles H) : FileCall H → Prop
  | .createFile _ readOnly noClobber _ => readOnly = false ∧
      ∀ file, x.path = some file → noClobber = false → ∀ h o, x.handle h = some o → o.file = file → o.readOnly = true
  | .endCreate h false => ∀ o, x.handle h = some o → o.stage = .formatted →
      ∀ h' o', x.handle h' = some o' → o'.file = o.file → h' = h
  | _ => True

def Fresh (x : QueueFiles H) : Prop :=
  (∀ h, x.handle h = none) ∧ ∀ file c, x.path = some file → x.header file = some c → c = ⟨WRITE_COUNT_MAGIC, 0⟩

/-! ## The invariant -/

omit [DecidableEq H] in
theorem mem_writers : h ∈ x.writers file ↔ ∃ o, x.handle h = some o ∧ o.file = file ∧ o.Writes := Iff.rfl

omit [DecidableEq H] in
theorem live_of_handle (ho : x.handle h = some o) : x.Live o.file := .inr ⟨h, o, ho, rfl⟩

/-- **The headers count the writers**, and only a file that is not formatted is being created, by one handle. -/
structure Inv (x : QueueFiles H) : Prop where
  counted : ∀ file c, x.Live file → x.header file = some c →
    c.writeCountMagic = WRITE_COUNT_MAGIC ∧ (x.writers file).encard = c.writeCount
  blank : ∀ file, x.header file = none → x.writers file = ∅
  creating : ∀ h o, x.handle h = some o → o.stage = .creating → o.readOnly = false ∧ x.header o.file = none
  alone : ∀ h h' o o', x.handle h = some o → x.handle h' = some o' → o.stage = .creating → o'.stage = .creating →
    o.file = o'.file → h = h'

/-- `y` differs from `x` in the handle `h`, which is on `file`, in the header of that file, and in the path. -/
structure Moves (x y : QueueFiles H) (h : H) (file : Nat) (hd : Option ControlHeader) (new : Option OpenFile) :
    Prop where
  header : y.header = Function.update x.header file hd
  handle : y.handle = Function.update x.handle h new
  path : ∀ f, y.path = some f → f = file ∨ x.path = some f
  before : ∀ o, x.handle h = some o → o.file = file
  after : ∀ o, new = some o → o.file = file

namespace Moves

variable {hd : Option ControlHeader} {new : Option OpenFile}

section

variable (hm : Moves x y h file hd new)
include hm

theorem handle_self : y.handle h = new := by
  rw [hm.handle, Function.update_self]

theorem handle_of_ne (hne : h' ≠ h) : y.handle h' = x.handle h' := by
  rw [hm.handle, Function.update_of_ne hne]

theorem header_self : y.header file = hd := by
  rw [hm.header, Function.update_self]

theorem header_of_ne {f : Nat} (hne : f ≠ file) : y.header f = x.header f := by
  rw [hm.header, Function.update_of_ne hne]

theorem mem_writers_of_ne (hne : h' ≠ h) {f : Nat} : h' ∈ y.writers f ↔ h' ∈ x.writers f := by
  rw [mem_writers, mem_writers, hm.handle_of_ne hne]

theorem writers_drop (hnew : ∀ o, new = some o → ¬ o.Writes) : y.writers file = x.writers file \ {h} := by
  ext h'
  rcases eq_or_ne h' h with rfl | hne
  · refine ⟨fun hw => ?_, fun hw => absurd rfl hw.2⟩
    obtain ⟨o, ho, -, hw⟩ := hw
    exact absurd hw (hnew o (hm.handle_self.symm.trans ho))
  · rw [hm.mem_writers_of_ne hne]
    exact ⟨fun hw => ⟨hw, hne⟩, And.left⟩

end

theorem writers_insert (hm : Moves x y h file hd (some o)) (hnew : o.Writes) :
    y.writers file = insert h (x.writers file) := by
  ext h'
  rcases eq_or_ne h' h with rfl | hne
  · exact ⟨fun _ => Set.mem_insert h' _, fun _ => ⟨o, hm.handle_self, hm.after o rfl, hnew⟩⟩
  · rw [hm.mem_writers_of_ne hne, Set.mem_insert_iff]
    exact ⟨.inr, fun hw => hw.resolve_left hne⟩

theorem writers_of_ne (hm : Moves x y h file hd new) {f : Nat} (hne : f ≠ file) : y.writers f = x.writers f := by
  ext h'
  rcases eq_or_ne h' h with rfl | hh
  · refine ⟨fun ⟨o, ho, hf, _⟩ => ?_, fun ⟨o, ho, hf, _⟩ => ?_⟩
    · exact absurd (hf.symm.trans (hm.after o (hm.handle_self.symm.trans ho))) hne
    · exact absurd (hf.symm.trans (hm.before o ho)) hne
  · exact hm.mem_writers_of_ne hh

theorem live_of_ne (hm : Moves x y h file hd new) {f : Nat} (hne : f ≠ file) (hl : y.Live f) : x.Live f := by
  rcases hl with hp | ⟨h', o, ho, hf⟩
  · exact .inl ((hm.path f hp).resolve_left hne)
  · rcases eq_or_ne h' h with rfl | hh
    · exact absurd (hf.symm.trans (hm.after o (hm.handle_self.symm.trans ho))) hne
    · exact .inr ⟨h', o, (hm.handle_of_ne hh).symm.trans ho, hf⟩

end Moves

variable {new : Option OpenFile}

/-- **The invariant after a move** is a matter of the file that the handle is on. -/
theorem Inv.moves {hd : Option ControlHeader} (hi : x.Inv) (hm : Moves x y h file hd new)
    (hcount : ∀ c, y.Live file → hd = some c →
      c.writeCountMagic = WRITE_COUNT_MAGIC ∧ (y.writers file).encard = c.writeCount)
    (hblank : hd = none → y.writers file = ∅)
    (hnew : ∀ o, new = some o → o.stage = .creating → o.readOnly = false ∧ hd = none)
    (hother : ∀ h' o', h' ≠ h → x.handle h' = some o' → o'.file = file → o'.stage = .creating →
      hd = none ∧ ∀ o, new = some o → o.stage ≠ .creating) : y.Inv := by
  refine ⟨fun f c hl hc => ?_, fun f hf => ?_, fun h' o' ho hs => ?_, fun h1 h2 o1 o2 ho1 ho2 hs1 hs2 hf => ?_⟩
  · rcases eq_or_ne f file with rfl | hne
    · exact hcount c hl (hm.header_self.symm.trans hc)
    · rw [hm.writers_of_ne hne]
      exact hi.counted f c (hm.live_of_ne hne hl) ((hm.header_of_ne hne).symm.trans hc)
  · rcases eq_or_ne f file with rfl | hne
    · exact hblank (hm.header_self.symm.trans hf)
    · rw [hm.writers_of_ne hne]
      exact hi.blank f ((hm.header_of_ne hne).symm.trans hf)
  · rcases eq_or_ne h' h with rfl | hh
    · have hn := hm.handle_self.symm.trans ho
      rw [hm.after o' hn, hm.header_self]
      exact hnew o' hn hs
    · have hold := (hm.handle_of_ne hh).symm.trans ho
      have hro := hi.creating h' o' hold hs
      rcases eq_or_ne o'.file file with hf | hne
      · rw [hf, hm.header_self]
        exact ⟨hro.1, (hother h' o' hh hold hf hs).1⟩
      · rw [hm.header_of_ne hne]
        exact hro
  · -- of two handles that are creating one file, neither is the one that moved
    rcases eq_or_ne h1 h with rfl | hh1
    · rcases eq_or_ne h2 h1 with rfl | hh2
      · rfl
      · have hn := hm.handle_self.symm.trans ho1
        have hold := (hm.handle_of_ne hh2).symm.trans ho2
        exact absurd hs1 ((hother h2 o2 hh2 hold (hf.symm.trans (hm.after o1 hn)) hs2).2 o1 hn)
    · have hold := (hm.handle_of_ne hh1).symm.trans ho1
      rcases eq_or_ne h2 h with rfl | hh2
      · have hn := hm.handle_self.symm.trans ho2
        exact absurd hs2 ((hother h1 o1 hh1 hold (hf.trans (hm.after o2 hn)) hs1).2 o2 hn)
      · exact hi.alone h1 h2 o1 o2 hold ((hm.handle_of_ne hh2).symm.trans ho2) hs1 hs2 hf

theorem Inv.keeps (hi : x.Inv) (hm : Moves x y h file (x.header file) new)
    (hlive : y.Live file → x.Live file) (hw : y.writers file = x.writers file)
    (hstage : ∀ o, new = some o → o.stage ≠ .creating) : y.Inv := by
  refine hi.moves hm (fun c hl hc => ?_) (fun hb => ?_) (fun o ho hs => absurd hs (hstage o ho)) ?_
  · rw [hw]
    exact hi.counted file c (hlive hl) hc
  · rw [hw]
    exact hi.blank file hb
  · intro h' o' _ ho' hf hs
    exact ⟨hf ▸ (hi.creating h' o' ho' hs).2, hstage⟩

/-! ## The calls -/

theorem moves_setHandle (hb : ∀ o, x.handle h = some o → o.file = file)
    (ha : ∀ o, new = some o → o.file = file) : Moves x (x.setHandle h new) h file (x.header file) new where
  header := (Function.update_eq_self file x.header).symm
  handle := rfl
  path _ hp := .inr hp
  before := hb
  after := ha

theorem moves_setHeader {hd : Option ControlHeader}
    (hb : ∀ o, x.handle h = some o → o.file = file) (ha : ∀ o, new = some o → o.file = file) :
    Moves x ((x.setHeader file hd).setHandle h new) h file hd new where
  header := rfl
  handle := rfl
  path _ hp := .inr hp
  before := hb
  after := ha

omit [DecidableEq H] in
theorem file_of_handle (ho : x.handle h = some o) : ∀ o', x.handle h = some o' → o'.file = o.file := by
  intro o' ho'
  cases ho.symm.trans ho'
  rfl

omit [DecidableEq H] in
theorem not_mem_writers (ho : x.handle h = some o) (hw : ¬ o.Writes) : h ∉ x.writers file := by
  rintro ⟨o', ho', -, hw'⟩
  cases ho.symm.trans ho'
  exact hw hw'

section

variable (hi : x.Inv)
include hi

theorem Inv.idle (ho : x.handle h = some o) (hw : ¬ o.Writes)
    (hnew : ∀ o', new = some o' → o'.file = o.file ∧ ¬ o'.Writes ∧ o'.stage ≠ .creating) : (x.setHandle h new).Inv := by
  have hm := moves_setHandle (file_of_handle ho) fun o' ho' => (hnew o' ho').1
  refine hi.keeps hm (fun _ => live_of_handle ho) ?_ fun o' ho' => (hnew o' ho').2.2
  rw [hm.writers_drop fun o' ho' => (hnew o' ho').2.1]
  exact Set.sdiff_singleton_eq_self (not_mem_writers ho hw)

theorem Inv.dropWriter (ho : x.handle h = some o) (hw : o.Writes) :
    ((x.setHeader o.file ((x.header o.file).map ControlHeader.dropWriter)).setHandle h none).Inv := by
  have hmem : h ∈ x.writers o.file := ⟨o, ho, rfl, hw⟩
  have hm : Moves x _ h o.file ((x.header o.file).map ControlHeader.dropWriter) none :=
    moves_setHeader (file_of_handle ho) nofun
  refine hi.moves hm (fun c' _ hc' => ?_) (fun hb => ?_) nofun ?_
  · obtain ⟨c, hc, rfl⟩ := Option.map_eq_some_iff.1 hc'
    obtain ⟨hmagic, hcount⟩ := hi.counted _ c (live_of_handle ho) hc
    have hpos : 0 < c.writeCount := by
      have := Set.encard_ne_zero_of_mem hmem
      rw [hcount] at this
      exact Nat.pos_of_ne_zero fun h0 => this (by rw [h0]; rfl)
    rw [hm.writers_drop nofun, Set.encard_sdiff_singleton_of_mem hmem, hcount, ControlHeader.dropWriter, if_pos hpos]
    exact ⟨hmagic, rfl⟩
  · rw [hm.writers_drop nofun, hi.blank _ (Option.map_eq_none_iff.1 hb), Set.empty_sdiff]
  · intro h' o' _ ho' hf hs
    rw [← hf, (hi.creating h' o' ho' hs).2]
    exact ⟨rfl, nofun⟩

theorem Inv.truncate (hm : Moves x y h file none (some ⟨file, false, .creating⟩))
    (hro : ∀ h o, x.handle h = some o → o.file = file → o.readOnly = true) : y.Inv := by
  have hnone : x.writers file = ∅ := by
    refine Set.eq_empty_iff_forall_notMem.2 ?_
    rintro h' ⟨o, ho, hf, hw, -⟩
    cases hw.symm.trans (hro h' o ho hf)
  refine hi.moves hm (fun c _ hc => nomatch hc) (fun _ => ?_) (fun o ho _ => ?_) ?_
  · rw [hm.writers_drop, hnone, Set.empty_sdiff]
    rintro o ho ⟨-, hs⟩
    cases ho
    rcases hs with hs | hs <;> cases hs
  · cases ho
    exact ⟨rfl, rfl⟩
  · intro h' o' _ ho' hf hs
    cases (hi.creating h' o' ho' hs).1.symm.trans (hro h' o' ho' hf)

theorem Inv.format (ho : x.handle h = some o) (hs : o.stage = .creating) :
    ((x.setHeader o.file (some .initializeControlHeader)).setHandle h (some { o with stage := .formatted })).Inv := by
  obtain ⟨hro, hnone⟩ := hi.creating h o ho hs
  have hm : Moves x _ h o.file (some .initializeControlHeader) (some { o with stage := .formatted }) :=
    moves_setHeader (file_of_handle ho) fun o' ho' => by cases ho'; rfl
  refine hi.moves hm (fun c _ hc => ?_) nofun (fun o' ho' hs' => ?_) ?_
  · cases hc
    rw [hm.writers_insert ⟨hro, .inl rfl⟩, hi.blank _ hnone]
    exact ⟨rfl, (Set.encard_insert_of_notMem (Set.notMem_empty h)).trans (by rw [Set.encard_empty]; rfl)⟩
  · cases ho'
    cases hs'
  · intro h' o' hne ho' hf hs'
    exact absurd (hi.alone h' h o' o ho' ho hs' hs hf) hne

theorem Inv.created (ho : x.handle h = some o) (hs : o.stage = .formatted) :
    (x.setHandle h (some { o with stage := .opened })).Inv := by
  by_cases hro : o.readOnly = false
  · have hm : Moves x _ h o.file (x.header o.file) (some { o with stage := .opened }) :=
      moves_setHandle (file_of_handle ho) fun o' ho' => by cases ho'; rfl
    refine hi.keeps hm (fun _ => live_of_handle ho) ?_ fun o' ho' => ?_
    · rw [hm.writers_insert ⟨hro, .inr rfl⟩]
      exact Set.insert_eq_of_mem ⟨o, ho, rfl, hro, .inl hs⟩
    · cases ho'
      nofun
  · refine hi.idle ho (fun hw => hro hw.1) fun o' ho' => ?_
    cases ho'
    exact ⟨rfl, fun hw => hro hw.1, nofun⟩

theorem Inv.unlink (ho : x.handle h = some o)
    (hs : o.stage = .creating ∨ o.stage = .formatted ∧ ∀ h' o', x.handle h' = some o' → o'.file = o.file → h' = h) :
    Inv { x.setHandle h none with path := none } := by
  have hm : Moves x { x.setHandle h none with path := none } h o.file (x.header o.file) none :=
    ⟨(Function.update_eq_self o.file x.header).symm, rfl, nofun, file_of_handle ho, nofun⟩
  refine hi.moves hm (fun c hl hc => ?_) (fun hb => ?_) nofun ?_
  · rcases hs with hs | ⟨-, honly⟩
    · cases (hi.creating h o ho hs).2.symm.trans hc
    · -- no handle is left on the file
      rcases hl with hp | ⟨h', o', ho', hf⟩
      · cases hp
      · rcases eq_or_ne h' h with rfl | hne
        · cases hm.handle_self.symm.trans ho'
        · exact absurd (honly h' o' ((hm.handle_of_ne hne).symm.trans ho') hf) hne
  · rw [hm.writers_drop nofun, hi.blank _ hb, Set.empty_sdiff]
  · intro h' o' _ ho' hf hs'
    exact ⟨hf ▸ (hi.creating h' o' ho' hs').2, nofun⟩

theorem Inv.openFile {readOnly : Bool} (ho : x.handle h = none) (hp : x.path = some file) :
    (x.setHandle h (some ⟨file, readOnly, .opening⟩)).Inv := by
  have hm : Moves x _ h file (x.header file) (some ⟨file, readOnly, .opening⟩) :=
    moves_setHandle (fun o ho' => nomatch ho.symm.trans ho') fun o' ho' => by cases ho'; rfl
  have hnot : h ∉ x.writers file := fun ⟨o, ho', _⟩ => nomatch ho.symm.trans ho'
  refine hi.keeps hm (fun _ => .inl hp) ?_ fun o' ho' => ?_
  · rw [hm.writers_drop, Set.sdiff_singleton_eq_self hnot]
    rintro o' ho' ⟨-, hs⟩
    cases ho'
    rcases hs with hs | hs <;> cases hs
  · cases ho'
    nofun

theorem Inv.countWriter (ho : x.handle h = some o) (hs : o.stage = .opening)
    (hc : x.header o.file = some c) : (x.countWriter h o c).Inv := by
  have hidle : ¬ o.Writes := by
    rintro ⟨-, hw⟩
    rw [hs] at hw
    rcases hw with hw | hw <;> cases hw
  obtain ⟨hmagic, hcount⟩ := hi.counted _ c (live_of_handle ho) hc
  have hnot : h ∉ x.writers o.file := not_mem_writers ho hidle
  have hother : ∀ h' o', x.handle h' = some o' → o'.file = o.file → o'.stage ≠ .creating := by
    intro h' o' ho' hf hs'
    cases (hi.creating h' o' ho' hs').2.symm.trans (hf ▸ hc)
  rw [QueueFiles.countWriter]
  by_cases hro : o.readOnly = true
  · rw [if_pos hro]
    refine hi.idle ho hidle fun o' ho' => ?_
    cases ho'
    refine ⟨rfl, ?_, nofun⟩
    rintro ⟨hfalse, -⟩
    cases hro.symm.trans hfalse
  rw [if_neg hro]
  by_cases hmax : MAX_WRITE_COUNT > c.writeCount
  · rw [ControlHeader.addWriter_of_lt hmagic hmax, if_pos rfl]
    have hm : Moves x _ h o.file (some ⟨c.writeCountMagic, c.writeCount + 1⟩) (some { o with stage := .opened }) :=
      moves_setHeader (file_of_handle ho) fun o' ho' => by cases ho'; rfl
    refine hi.moves hm (fun c' _ hc' => ?_) nofun (fun o' ho' hs' => ?_) fun h' o' _ ho' hf hs' =>
      absurd hs' (hother h' o' ho' hf)
    · cases hc'
      rw [hm.writers_insert ⟨Bool.eq_false_iff.2 hro, .inr rfl⟩, Set.encard_insert_of_notMem hnot, hcount]
      exact ⟨hmagic, rfl⟩
    · cases ho'
      cases hs'
  · rw [ControlHeader.addWriter_full hmagic hmax, if_neg (show EACCES ≠ 0 by decide)]
    have hm : Moves x _ h o.file (some c) none := moves_setHeader (file_of_handle ho) nofun
    refine hi.moves hm (fun c' _ hc' => ?_) nofun nofun fun h' o' _ ho' hf hs' => absurd hs' (hother h' o' ho' hf)
    cases hc'
    rw [hm.writers_drop nofun, Set.sdiff_singleton_eq_self hnot]
    exact ⟨hmagic, hcount⟩

theorem Inv.createFile {readOnly noClobber : Bool} {inode : Nat} (ho : x.handle h = none)
    (hfs : x.FileSystem (.createFile h readOnly noClobber inode))
    (hc : x.Careful (.createFile h readOnly noClobber inode)) : (x.createFile h readOnly noClobber inode).Inv := by
  obtain ⟨rfl, hro⟩ := hc
  have hbefore : ∀ (file : Nat) (o : OpenFile), x.handle h = some o → o.file = file :=
    fun _ _ ho' => nomatch ho.symm.trans ho'
  rw [QueueFiles.createFile]
  cases hp : x.path with
  | some file =>
    cases noClobber with
    | true => exact hi
    | false =>
      refine hi.truncate (moves_setHeader (hbefore file) fun o' ho' => ?_) (hro file hp rfl)
      cases ho'
      rfl
  | none =>
    have hm : Moves x
        { (x.setHeader inode none).setHandle h (some ⟨inode, false, .creating⟩) with path := some inode } h inode
        none (some ⟨inode, false, .creating⟩) :=
      ⟨rfl, rfl, fun f hf => .inl (Option.some.inj hf).symm, hbefore inode, fun o' ho' => by cases ho'; rfl⟩
    exact hi.truncate hm fun h' o' ho' hf => absurd ⟨h', o', ho', hf⟩ (hfs hp)

end

/-- **Every careful call keeps the invariant.** -/
theorem Inv.next {a : FileCall H} (hi : x.Inv) (hfs : x.FileSystem a) (hc : x.Careful a) (hn : next a x = some y) :
    y.Inv := by
  cases a with
  | close h =>
    rw [QueueFiles.next] at hn
    obtain ⟨o, ho, hn⟩ := bind_eq_some_iff.1 hn
    obtain ⟨hs, hn⟩ := ite_none_right_eq_some.1 hn
    by_cases hro : o.readOnly = true
    · rw [if_pos hro] at hn
      cases hn
      exact hi.idle ho (fun hw => nomatch hro.symm.trans hw.1) nofun
    · rw [if_neg hro] at hn
      cases hn
      exact hi.dropWriter ho ⟨Bool.eq_false_iff.2 hro, .inr hs⟩
  | createFile h readOnly noClobber inode =>
    rw [QueueFiles.next] at hn
    obtain ⟨ho, hn⟩ := ite_none_right_eq_some.1 hn
    cases hn
    exact hi.createFile ho hfs hc
  | format h =>
    rw [QueueFiles.next] at hn
    obtain ⟨o, ho, hn⟩ := bind_eq_some_iff.1 hn
    obtain ⟨hs, hn⟩ := ite_none_right_eq_some.1 hn
    cases hn
    exact hi.format ho hs
  | endCreate h ok =>
    rw [QueueFiles.next] at hn
    obtain ⟨o, ho, hn⟩ := bind_eq_some_iff.1 hn
    cases ok with
    | true =>
      obtain ⟨hs, hn⟩ := ite_none_right_eq_some.1 hn
      cases hn
      exact hi.created ho hs
    | false =>
      obtain ⟨hs, hn⟩ := ite_none_right_eq_some.1 hn
      cases hn
      exact hi.unlink ho (hs.imp_right fun hs => ⟨hs, hc o ho hs⟩)
  | openFile h readOnly =>
    rw [QueueFiles.next] at hn
    obtain ⟨ho, hn⟩ := ite_none_right_eq_some.1 hn
    cases hp : x.path with
    | none =>
      rw [hp] at hn
      cases hn
      exact hi
    | some file =>
      rw [hp] at hn
      cases hn
      exact hi.openFile ho hp
  | endOpen h ok =>
    rw [QueueFiles.next] at hn
    obtain ⟨o, ho, hn⟩ := bind_eq_some_iff.1 hn
    obtain ⟨hs, hn⟩ := ite_none_right_eq_some.1 hn
    cases ok with
    | true =>
      obtain ⟨c, hc, rfl⟩ := Option.map_eq_some_iff.1 hn
      exact hi.countWriter ho hs hc
    | false =>
      cases hn
      refine hi.idle ho ?_ nofun
      rintro ⟨-, hw⟩
      rw [hs] at hw
      rcases hw with hw | hw <;> cases hw

omit [DecidableEq H] in
theorem Fresh.inv (hx : x.Fresh) : x.Inv := by
  have hnone : ∀ file, x.writers file = ∅ := fun file =>
    Set.eq_empty_iff_forall_notMem.2 fun h ⟨o, ho, _⟩ => nomatch (hx.1 h).symm.trans ho
  refine ⟨fun file c hl hc => ?_, fun file _ => hnone file, fun h o ho => (nomatch (hx.1 h).symm.trans ho),
    fun h _ o _ ho => (nomatch (hx.1 h).symm.trans ho)⟩
  rcases hl with hp | ⟨h, o, ho, -⟩
  · rw [hx.2 file c hp hc, hnone, Set.encard_empty]
    exact ⟨rfl, rfl⟩
  · cases (hx.1 h).symm.trans ho

/-! ## The count -/

def Opens (h : H) : FileCall H → Prop
  | .openFile h' _ => h' = h
  | .endOpen h' _ => h' = h
  | _ => False

theorem Inv.failed_open {a : FileCall H} (hi : x.Inv) (ha : Opens h a) (hn : QueueFiles.next a x = some y)
    (hfail : y.handle h = none) : y.header = x.header := by
  cases a with
  | openFile h' readOnly =>
    rw [QueueFiles.next] at hn
    obtain ⟨-, hn⟩ := ite_none_right_eq_some.1 hn
    cases hn
    cases x.path with
    | none => rfl
    | some file => rfl
  | endOpen h' ok =>
    cases ha
    rw [QueueFiles.next] at hn
    obtain ⟨o, ho, hn⟩ := bind_eq_some_iff.1 hn
    obtain ⟨-, hn⟩ := ite_none_right_eq_some.1 hn
    cases ok with
    | false =>
      cases hn
      rfl
    | true =>
      obtain ⟨c, hc, rfl⟩ := Option.map_eq_some_iff.1 hn
      have hmagic := (hi.counted _ c (live_of_handle ho) hc).1
      rw [QueueFiles.countWriter] at hfail ⊢
      by_cases hro : o.readOnly = true
      · rw [if_pos hro]
        rfl
      rw [if_neg hro] at hfail ⊢
      by_cases hmax : MAX_WRITE_COUNT > c.writeCount
      · rw [ControlHeader.addWriter_of_lt hmagic hmax, if_pos rfl] at hfail
        cases (Function.update_self h _ x.handle).symm.trans hfail
      · rw [ControlHeader.addWriter_full hmagic hmax, ← hc]
        exact Function.update_eq_self o.file x.header
  | close h' => cases ha
  | createFile h' readOnly noClobber inode => cases ha
  | format h' => cases ha
  | endCreate h' ok => cases ha

/-- **The count of writers is right** in every run of careful calls: the header of every file that some handle has open
counts the handles that are open for writing, and an `open` that fails changes nothing. -/
theorem write_count_balanced {A : QueueFiles H → FileCall H → Prop}
    (hA : ∀ x a, A x a → x.FileSystem a ∧ x.Careful a) (hr : Transitions.Reached next A Fresh x) :
    (∀ file c, x.Live file → x.header file = some c → (x.writers file).encard = c.writeCount) ∧
      (∀ h o, x.handle h = some o → o.Writes → ∃ c, x.header o.file = some c ∧ 0 < c.writeCount) ∧
      ∀ h a y, Opens h a → QueueFiles.next a x = some y → y.handle h = none → y.header = x.header := by
  have hi : x.Inv := hr.invariant (fun _ hx => hx.inv) fun x a y hx ha hn => hx.next (hA x a ha).1 (hA x a ha).2 hn
  refine ⟨fun file c hl hc => (hi.counted file c hl hc).2, fun h o ho hw => ?_, fun h a y => hi.failed_open⟩
  have hmem : h ∈ x.writers o.file := ⟨o, ho, rfl, hw⟩
  cases hc : x.header o.file with
  | none =>
    rw [hi.blank _ hc] at hmem
    cases hmem
  | some c =>
    refine ⟨c, rfl, Nat.pos_of_ne_zero fun h0 => Set.encard_ne_zero_of_mem hmem ?_⟩
    rw [(hi.counted _ c (live_of_handle ho) hc).2, h0]
    rfl

def twoHandles : QueueFiles Bool := ⟨fun _ => none, none, fun _ => none⟩

theorem twoHandles_fresh : twoHandles.Fresh := ⟨fun _ => rfl, nofun⟩

theorem twoHandles_unused (inode : Nat) : ¬ twoHandles.Used inode := by
  rintro ⟨_, _, ho, _⟩
  cases ho

/-- One handle creates the queue and another opens it: the count is 2. -/
theorem write_count_balanced_two : ∃ x : QueueFiles Bool, x.header 7 = some ⟨WRITE_COUNT_MAGIC, 2⟩ ∧
    (x.writers 7).encard = 2 := by
  have hreach : Transitions.Reached next (fun x a => x.FileSystem a ∧ x.Careful a) Fresh _ :=
    .step (.step (.step (.step (.step (.start twoHandles_fresh) (a := .createFile true false false 7)
      ⟨fun _ => twoHandles_unused 7, rfl, nofun⟩ rfl) (a := .format true) ⟨trivial, trivial⟩ rfl)
      (a := .endCreate true true) ⟨trivial, trivial⟩ rfl) (a := .openFile false false) ⟨trivial, trivial⟩ rfl)
      (a := .endOpen false true) ⟨trivial, trivial⟩ rfl
  exact ⟨_, by decide, (write_count_balanced (fun _ _ ha => ha) hreach).1 7 ⟨WRITE_COUNT_MAGIC, 2⟩ (Or.inl rfl) rfl⟩

/-- `create` truncates a queue that another handle has open and starts its count at 1, also for a `ReadOnly` handle. -/
theorem write_count_lost : ∃ x y : QueueFiles Bool,
    Transitions.Reached next FileSystem Fresh x ∧ x.path = some 7 ∧
    x.header 7 = some ⟨WRITE_COUNT_MAGIC, 1⟩ ∧ x.writers 7 = {true, false} ∧ (x.writers 7).encard ≠ 1 ∧
    Transitions.Reached next FileSystem Fresh y ∧ y.path = some 7 ∧
    y.header 7 = some ⟨WRITE_COUNT_MAGIC, 1⟩ ∧ y.writers 7 = ∅ ∧ (y.writers 7).encard ≠ 1 := by
  have hwriters : ∀ x : QueueFiles Bool, x.handle true = some ⟨7, false, .opened⟩ →
      x.handle false = some ⟨7, false, .opened⟩ → x.writers 7 = {true, false} := by
    intro x ht hf
    ext h
    cases h with
    | true => exact ⟨fun _ => Or.inl rfl, fun _ => ⟨_, ht, rfl, rfl, Or.inr rfl⟩⟩
    | false => exact ⟨fun _ => Or.inr rfl, fun _ => ⟨_, hf, rfl, rfl, Or.inr rfl⟩⟩
  have hnone : ∀ y : QueueFiles Bool, y.handle true = some ⟨7, true, .opened⟩ → y.handle false = none →
      y.writers 7 = ∅ := by
    intro y ht hf
    refine Set.eq_empty_iff_forall_notMem.2 ?_
    rintro (_ | _) ⟨o, ho, -, hw, -⟩
    · cases hf.symm.trans ho
    · cases ht.symm.trans ho
      cases hw
  have hcreate : Transitions.Reached next FileSystem Fresh _ :=
    .step (.step (.step (.step (.step (.step (.start twoHandles_fresh) (a := .createFile true false false 7)
      (fun _ => twoHandles_unused 7) rfl) (a := .format true) trivial rfl) (a := .endCreate true true) trivial rfl)
      (a := .createFile false false false 8) nofun rfl) (a := .format false) trivial rfl)
      (a := .endCreate false true) trivial rfl
  have hreadOnly : Transitions.Reached next FileSystem Fresh _ :=
    .step (.step (.step (.start twoHandles_fresh) (a := .createFile true true false 7)
      (fun _ => twoHandles_unused 7) rfl) (a := .format true) trivial rfl) (a := .endCreate true true) trivial rfl
  refine ⟨_, _, hcreate, rfl, rfl, hwriters _ rfl rfl, ?_, hreadOnly, rfl, rfl, hnone _ rfl rfl, ?_⟩
  · rw [hwriters _ rfl rfl, Set.encard_pair (by decide)]
    decide
  · rw [hnone _ rfl rfl, Set.encard_empty]
    decide

end QueueFiles

end Rdm
