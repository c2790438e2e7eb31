import Mathlib.Data.List.Basic

/-!
# The registry

The registry is an XML document. What `putString` stores comes back, except that `xmlNodeSetContent` takes its argument
as escaped text (`reference_replaced`). The library is a parameter (`LibXml`).
-/

namespace Rdm.Registry

open List Option

/-- The children of a node, as the library links them: `children` leads down and `next` along. -/
inductive Nodes where
  | nil
  | text (content : List Char) (next : Nodes)
  | element (name : List Char) (children next : Nodes)
deriving DecidableEq

namespace Nodes

def hasElement : Nodes → Bool
  | nil => false
  | text _ next => next.hasElement
  | element _ _ _ => true

def child (token : List Char) : Nodes → Option Nodes
  | nil => none
  | text _ next => next.child token
  | element name children next => if name = token then some children else next.child token

/-- The children of the first element with the name are changed. -/
def update (token : List Char) (g : Nodes → Nodes) : Nodes → Nodes
  | nil => nil
  | text s next => text s (next.update token g)
  | element name children next =>
    if name = token then element name (g children) next else element name children (next.update token g)

def find : List (List Char) → Nodes → Option Nodes
  | [], f => some f
  | token :: p, f => (f.child token).bind (find p)

theorem child_update {f : Nodes} {token token' : List Char} (g : Nodes → Nodes) :
    (f.update token g).child token' = if token' = token then (f.child token).map g else f.child token' := by
  induction f with
  | nil => simp [update, child]
  | text s next ih => exact ih
  | element name children next _ ih =>
    by_cases hn : name = token
    · by_cases h : token' = token
      · simp [update, child, hn, h]
      · simp [update, child, hn, h, Ne.symm h]
    · by_cases h : name = token'
      · simp [update, child, h, h ▸ hn]
      · simp [update, child, hn, h, ih]

end Nodes

/-! ## The library -/

/-- What the library does to the children of a node, and what a document is read as from the file it was written to. -/
structure LibXml where
  newTextChild : Nodes → List Char → Nodes
  setContent : List Char → Nodes
  getContent : Nodes → List Char
  reload : Nodes → Nodes

/-- What is documented: a new child is empty and leaves the others alone; `setContent` takes escaped text, and
`getContent` returns the text; elements that are written and read have the elements they had, and without elements the
text they had. -/
structure LibXml.Lawful (xml : LibXml) (unescaped : List Char → List Char) (Reread : Nodes → Nodes → Prop) : Prop where
  newTextChild_self : ∀ {f name}, f.child name = none → (xml.newTextChild f name).child name = some .nil
  newTextChild_other : ∀ {f name token}, token ≠ name → (xml.newTextChild f name).child token = f.child token
  setContent_leaf : ∀ v, (xml.setContent v).hasElement = false
  getContent_setContent : ∀ v, xml.getContent (xml.setContent v) = unescaped v
  reload : ∀ f, Reread f (xml.reload f)
  reread_child : ∀ {f f'}, Reread f f' → ∀ token, Option.Rel Reread (f.child token) (f'.child token)
  reread_leaf : ∀ {f f'}, Reread f f' → f'.hasElement = f.hasElement
  reread_text : ∀ {f f'}, Reread f f' → f.hasElement = false → xml.getContent f' = xml.getContent f

namespace LibXml

variable {xml : LibXml} {unescaped : List Char → List Char} {Reread : Nodes → Nodes → Prop}
variable {f f' value : Nodes} {token token' : List Char} {p r : List (List Char)}

/-- `findNodeUnlocked` makes the nodes that are missing; the last one gets the value. -/
def replace (xml : LibXml) (value : Nodes) : List (List Char) → Nodes → Nodes
  | [], _ => value
  | token :: p, f =>
    (if f.child token = none then xml.newTextChild f token else f).update token (xml.replace value p)

def get (xml : LibXml) (p : List (List Char)) (f : Nodes) : Option (List Char) :=
  (f.find p).bind fun children => if children.hasElement then none else some (xml.getContent children)

section

variable (h : xml.Lawful unescaped Reread)
include h

theorem Lawful.child_replace : (xml.replace value (token :: p) f).child token =
    some (xml.replace value p ((f.child token).getD .nil)) := by
  rw [replace, Nodes.child_update, if_pos rfl]
  split
  case isTrue hnone => rw [h.newTextChild_self hnone, hnone]; rfl
  case isFalse hsome =>
    obtain ⟨children, hc⟩ := ne_none_iff_exists'.1 hsome
    rw [hc]
    rfl

theorem Lawful.child_replace_of_ne (hne : token' ≠ token) :
    (xml.replace value (token :: p) f).child token' = f.child token' := by
  rw [replace, Nodes.child_update, if_neg hne]
  split
  · exact h.newTextChild_other hne
  · rfl

theorem Lawful.find_replace : (xml.replace value p f).find p = some value := by
  induction p generalizing f with
  | nil => rfl
  | cons token p ih => rw [Nodes.find, h.child_replace, bind_some, ih]

/-- **Other paths lead where they did.** -/
theorem Lawful.get_replace (hp : ¬ p <+: r) (hr : ¬ r <+: p) : xml.get r (xml.replace value p f) = xml.get r f := by
  induction p generalizing r f with
  | nil => exact absurd nil_prefix hp
  | cons token p ih =>
    cases r with
    | nil => exact absurd nil_prefix hr
    | cons token' r =>
      by_cases hne : token' = token
      · subst hne
        rw [prefix_cons_inj] at hp hr
        have hrest := @ih ((f.child token').getD .nil) r hp hr
        simp only [get, Nodes.find, h.child_replace, bind_some] at hrest ⊢
        rw [hrest]
        cases hc : f.child token' with
        | some children => rfl
        | none =>
          cases r with
          | nil => exact absurd nil_prefix hr
          | cons => rfl
      · simp only [get, Nodes.find, h.child_replace_of_ne hne]

/-- **Values survive the file.** -/
theorem Lawful.get_reread (hre : Reread f f') : xml.get p f' = xml.get p f := by
  induction p generalizing f f' with
  | nil =>
    simp only [get, Nodes.find, bind_some, h.reread_leaf hre]
    cases he : f.hasElement with
    | true => rfl
    | false =>
      rw [h.reread_text hre he]
  | cons token p ih =>
    have hrel := h.reread_child hre token
    simp only [get, Nodes.find] at ih ⊢
    generalize f.child token = c, f'.child token = c' at hrel ⊢
    cases hrel with
    | none => rfl
    | some hc => exact ih hc

end

end LibXml

/-! ## The engine -/

/-- The document, if it is loaded, the file, if there is one that can be parsed, and whether the document was
changed. -/
structure RegistryEngine where
  doc : Option Nodes
  file : Option Nodes
  isDirty : Bool

namespace RegistryEngine

variable (xml : LibXml) (path value : List Char) (s : RegistryEngine)

def components (path : List Char) : List (List Char) := (path.splitOn '/').filter (· ≠ [])

def ensureLoaded (createIfMissing : Bool) : RegistryEngine :=
  match s.doc, s.file with
  | some _, _ => s
  | none, some f => { s with doc := some f, isDirty := false }
  | none, none => if createIfMissing then { s with doc := some .nil, isDirty := false } else s

def getString : Option (List Char) × RegistryEngine :=
  if ' ' ∈ path then (none, s)
  else
    let s := s.ensureLoaded false
    (s.doc.bind (xml.get (components path)), s)

def putString : Bool × RegistryEngine :=
  if ' ' ∈ path then (false, s)
  else
    let s := s.ensureLoaded true
    (true, { s with doc := s.doc.map (xml.replace (xml.setContent value) (components path)), isDirty := true })

def flushToDiskUnlocked : RegistryEngine :=
  match s.doc with
  | some f => if s.isDirty then { s with file := some (xml.reload f), isDirty := false } else s
  | none => s

def close : RegistryEngine := { s.flushToDiskUnlocked xml with doc := none }

theorem ensureLoaded_doc : ∃ f, (s.ensureLoaded true).doc = some f
    ∧ ∀ p, p ≠ [] → (s.ensureLoaded false).doc.bind (xml.get p) = xml.get p f := by
  obtain ⟨doc, file, isDirty⟩ := s
  cases doc with
  | some f => exact ⟨f, rfl, fun p _ => rfl⟩
  | none =>
    cases file with
    | some f => exact ⟨f, rfl, fun p _ => rfl⟩
    | none =>
      refine ⟨.nil, rfl, fun p hp => ?_⟩
      cases p with
      | nil => exact absurd rfl hp
      | cons => rfl

variable {xml s path} {unescaped : List Char → List Char} {Reread : Nodes → Nodes → Prop}

theorem getString_loaded {f : Nodes} (hdoc : s.doc = some f) (hspace : ' ' ∉ path) :
    (getString xml path s).1 = xml.get (components path) f := by
  have hload : s.ensureLoaded false = s := by
    rw [ensureLoaded, hdoc]
  rw [getString, if_neg hspace, hload]
  exact congrArg (Option.bind · _) hdoc

theorem getString_close (h : xml.Lawful unescaped Reread) {f : Nodes} (hdoc : s.doc = some f)
    (hdirty : s.isDirty = true)
    (path : List Char) : (getString xml path (s.close xml)).1 = (getString xml path s).1 := by
  by_cases hspace : ' ' ∈ path
  · rw [getString, getString, if_pos hspace, if_pos hspace]
  · rw [getString_loaded hdoc hspace, getString, if_neg hspace]
    simp only [close, flushToDiskUnlocked, hdoc, hdirty, ensureLoaded, if_true, bind_some]
    exact h.get_reread (h.reload f)

/-- **What is put is there and nothing else changes**, also after the registry is loaded again, exactly for the values
that are themselves as escaped text; the other paths are those of which neither leads to the other. -/
theorem putString_laws (h : xml.Lawful unescaped Reread) (s : RegistryEngine) (path value : List Char)
    (hspace : ' ' ∉ path) : ((getString xml path (putString xml path value s).2).1 = some value
      ∧ (getString xml path ((putString xml path value s).2.close xml)).1 = some value
      ∧ ∀ r, ¬ components path <+: components r → ¬ components r <+: components path →
        (getString xml r (putString xml path value s).2).1 = (getString xml r s).1
          ∧ (getString xml r ((putString xml path value s).2.close xml)).1 = (getString xml r s).1)
      ↔ unescaped value = value := by
  obtain ⟨f, hdoc, hget⟩ := s.ensureLoaded_doc xml
  have hput : (putString xml path value s).2.doc =
      some (xml.replace (xml.setContent value) (components path) f) := by
    simp [putString, hspace, hdoc]
  have hdirty : (putString xml path value s).2.isDirty = true := by simp [putString, hspace]
  have hsame : (getString xml path (putString xml path value s).2).1 = some (unescaped value) := by
    rw [getString_loaded hput hspace, LibXml.get, h.find_replace, bind_some, h.setContent_leaf, h.getContent_setContent]
    rfl
  have hother : ∀ r, ¬ components path <+: components r → ¬ components r <+: components path →
      (getString xml r (putString xml path value s).2).1 = (getString xml r s).1 := by
    intro r hp hr
    by_cases hs : ' ' ∈ r
    · rw [getString, getString, if_pos hs, if_pos hs]
    · have hne : components r ≠ [] := fun he => hr (he ▸ nil_prefix)
      rw [getString_loaded hput hs, h.get_replace hp hr, getString, if_neg hs]
      exact (hget _ hne).symm
  simp only [getString_close h hput hdirty, hsame, some.injEq]
  refine ⟨fun hlaws => hlaws.1, fun hvalue => ⟨hvalue, hvalue, fun r hp hr => ?_⟩⟩
  exact ⟨hother r hp hr, hother r hp hr⟩

end RegistryEngine

/-! ## A library with these properties -/

namespace Nodes

variable {f : Nodes} {token : List Char}

def hasText : Nodes → Bool
  | nil => false
  | text _ _ => true
  | element _ _ next => next.hasText

def content : Nodes → List Char
  | nil => []
  | text s next => s ++ next.content
  | element _ children next => children.content ++ next.content

def concat (name : List Char) : Nodes → Nodes
  | nil => element name nil nil
  | text s next => text s (next.concat name)
  | element name' children next => element name' children (next.concat name)

def layout (depth : Nat) : List Char := '\n' :: List.replicate (2 * depth) ' '

/-- White space is put between the elements of nodes without text. -/
def save : Bool → Nat → Nodes → Nodes
  | spaced, depth, nil => if spaced then text (layout (depth - 1)) nil else nil
  | spaced, depth, text s next => text s (save spaced depth next)
  | spaced, depth, element name children next =>
    let inner := spaced && children.hasElement && !children.hasText
    let node := element name (save inner (depth + 1) children) (save spaced depth next)
    if spaced then text (layout depth) node else node

theorem child_concat_self (h : f.child token = none) : (f.concat token).child token = some nil := by
  induction f with
  | nil => simp [concat, child]
  | text s next ih => exact ih h
  | element name children next _ ih =>
    by_cases hn : name = token
    · simp [child, hn] at h
    · rw [child, if_neg hn] at h
      rw [concat, child, if_neg hn, ih h]

theorem child_concat_other {token' : List Char} (h : token' ≠ token) :
    (f.concat token).child token' = f.child token' := by
  induction f with
  | nil => simp [concat, child, Ne.symm h]
  | text s next ih => exact ih
  | element name children next _ ih => simp [concat, child, ih]

theorem hasElement_save (spaced : Bool) (depth : Nat) : (save spaced depth f).hasElement = f.hasElement := by
  induction f generalizing depth with
  | nil => cases spaced <;> rfl
  | text s next ih => exact ih depth
  | element => cases spaced <;> rfl

theorem content_save (h : f.hasElement = false) (depth : Nat) : (save false depth f).content = f.content := by
  induction f with
  | nil => rfl
  | text s next ih => rw [save, content, content, ih h]
  | element => cases h

theorem child_save (spaced : Bool) (depth : Nat) :
    (save spaced depth f).child token = (f.child token).map fun children =>
    save (spaced && children.hasElement && !children.hasText) (depth + 1) children := by
  induction f generalizing depth with
  | nil => cases spaced <;> rfl
  | text s next ih => exact ih depth
  | element name children next _ ih => cases spaced <;> by_cases h : name = token <;> simp [save, child, h, ih]

def Saved (f f' : Nodes) : Prop := ∃ spaced depth, f' = save spaced depth f ∧ (f.hasElement = false → spaced = false)

end Nodes

def predefined (name : List Char) : Option Char :=
  if name = "amp".toList then some '&'
  else if name = "lt".toList then some '<'
  else if name = "gt".toList then some '>'
  else if name = "quot".toList then some '\x22'
  else if name = "apos".toList then some '\x27'
  else none

def unescape : List Char → Option (List Char) → List Char
  | [], _ => []
  | c :: cs, none => if c = '&' then unescape cs (some []) else c :: unescape cs none
  | c :: cs, some name =>
    if c = ';' then (predefined name).toList ++ unescape cs none else unescape cs (some (name ++ [c]))

def libXml : LibXml where
  newTextChild f name := f.concat name
  setContent v := if unescape v none = [] then .nil else .text (unescape v none) .nil
  getContent := Nodes.content
  reload f := f.save (f.hasElement && !f.hasText) 1

theorem libXml_lawful : libXml.Lawful (unescape · none) Nodes.Saved where
  newTextChild_self := Nodes.child_concat_self
  newTextChild_other := Nodes.child_concat_other
  setContent_leaf v := by
    simp only [libXml]
    split <;> rfl
  getContent_setContent v := by
    simp only [libXml]
    split
    case isTrue h => exact h.symm
    case isFalse => exact append_nil _
  reload f := ⟨_, 1, rfl, fun he => by rw [he]; rfl⟩
  reread_child := by
    rintro f _ ⟨spaced, depth, rfl, -⟩ token
    rw [Nodes.child_save]
    cases f.child token with
    | none => exact .none
    | some children => exact .some ⟨_, _, rfl, fun he => by simp [he]⟩
  reread_leaf := by
    rintro f _ ⟨spaced, depth, rfl, -⟩
    exact Nodes.hasElement_save spaced depth
  reread_text := by
    rintro f _ ⟨spaced, depth, rfl, hspaced⟩ he
    rw [hspaced he]
    exact Nodes.content_save he depth

namespace RegistryEngine

theorem putString_laws_less :
    (getString libXml "/a/b".toList ((putString libXml "/a/b".toList "<".toList ⟨none, none, false⟩).2.close libXml)).1
      = some "<".toList :=
  ((putString_laws libXml_lawful ⟨none, none, false⟩ "/a/b".toList "<".toList (by decide)).2 (by decide)).2.1

/-- A value that looks like a reference comes back as the character it refers to. -/
theorem reference_replaced :
    (getString libXml "/a".toList (putString libXml "/a".toList "&amp;".toList ⟨none, none, false⟩).2).1
      = some "&".toList := by decide

end RegistryEngine

end Rdm.Registry
