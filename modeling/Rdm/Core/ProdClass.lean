import Rdm.Core.ProductStore

/-!
# Classes of products

A class is a range of arrival times and a list of specifications, each a set of feeds and a pattern. The engine for
regular expressions is a parameter.
-/

namespace Rdm

/-- The engine for extended regular expressions. -/
structure RegexEngine where
  compiles : List UInt8 → Bool
  search : List UInt8 → List UInt8 → Bool

def matchAll : List UInt8 := [46, 42]

structure Pattern where
  ere : List UInt8
  isMatchAll : Bool
deriving DecidableEq

namespace Pattern

def sanitizeExpression : List UInt8 → List UInt8
  | 46 :: 42 :: c :: rest => sanitizeExpression (c :: rest)
  | expr => expr

def new (re : RegexEngine) (expr : List UInt8) : Option Pattern :=
  if expr = matchAll then some ⟨matchAll, true⟩
  else if re.compiles (sanitizeExpression expr) then some ⟨sanitizeExpression expr, false⟩
  else none

def isMatch (re : RegexEngine) (p : Pattern) (target : List UInt8) : Bool := p.isMatchAll || re.search p.ere target

end Pattern

structure ProdSpec where
  feedtype : FeedType := 0
  pattern : List UInt8 := []
deriving DecidableEq

structure ProdClass where
  fromSec : Int := 0
  fromUsec : Int := 0
  toSec : Int := 0
  toUsec : Int := 0
  specs : List ProdSpec := []
deriving DecidableEq

namespace ProdClass

instance : Inhabited ProdClass := ⟨{}⟩

def InRange (clss : ProdClass) (info : ProdInfo) : Prop :=
  ¬ (info.arrival.sec < clss.fromSec ∨ info.arrival.sec = clss.fromSec ∧ info.arrival.usec < clss.fromUsec) ∧
  ¬ (clss.toSec < info.arrival.sec ∨ info.arrival.sec = clss.toSec ∧ clss.toUsec < info.arrival.usec)

instance (clss : ProdClass) (info : ProdInfo) : Decidable (clss.InRange info) :=
  inferInstanceAs (Decidable (_ ∧ _))

def containsAny (re : RegexEngine) (info : ProdInfo) : List ProdSpec → Option Bool
  | [] => some false
  | spec :: specs =>
    if info.feedtype &&& spec.feedtype ≠ 0 then
      if spec.pattern = [] ∨ spec.pattern = matchAll then some true
      else
        match Pattern.new re spec.pattern with
        | none => none
        | some pat => if pat.isMatch re info.ident then some true else containsAny re info specs
    else containsAny re info specs

def contains (re : RegexEngine) (clss : ProdClass) (info : ProdInfo) : Option Bool :=
  if ¬ clss.InRange info then some false
  else if clss.specs = [] then some true
  else containsAny re info clss.specs

end ProdClass

def ProdSpec.Matches (re : RegexEngine) (spec : ProdSpec) (ident : List UInt8) : Prop :=
  spec.pattern = [] ∨ spec.pattern = matchAll ∨ ∃ pat, Pattern.new re spec.pattern = some pat ∧
    pat.isMatch re ident = true

variable {re : RegexEngine} {info : ProdInfo}

theorem ProdClass.containsAny_spec : ∀ {specs : List ProdSpec}, containsAny re info specs = some true →
    ∃ spec ∈ specs, info.feedtype &&& spec.feedtype ≠ 0 ∧ spec.Matches re info.ident
  | [], h => by cases h
  | spec :: specs, h => by
    rw [containsAny] at h
    have hrest : containsAny re info specs = some true →
        ∃ spec' ∈ spec :: specs, info.feedtype &&& spec'.feedtype ≠ 0 ∧ spec'.Matches re info.ident := by
      intro h
      obtain ⟨spec', hm, hs⟩ := containsAny_spec h
      exact ⟨spec', List.mem_cons_of_mem _ hm, hs⟩
    split at h
    case isFalse => exact hrest h
    case isTrue hft =>
      split at h
      case isTrue hp => exact ⟨spec, List.mem_cons_self, hft, hp.imp_right .inl⟩
      case isFalse =>
        split at h
        case h_1 => cases h
        case h_2 pat hpat =>
          split at h
          case isTrue hm => exact ⟨spec, List.mem_cons_self, hft, .inr (.inr ⟨pat, hpat, hm⟩)⟩
          case isFalse => exact hrest h

/-- **A product of a class** arrived in its range and, unless the class has no specifications, fits one of them. -/
theorem ProdClass.contains_spec {clss : ProdClass} (h : clss.contains re info = some true) : clss.InRange info ∧
    (clss.specs ≠ [] → ∃ spec ∈ clss.specs, info.feedtype &&& spec.feedtype ≠ 0 ∧ spec.Matches re info.ident) := by
  rw [contains] at h
  split at h
  case isTrue => cases h
  case isFalse hr =>
    refine ⟨Decidable.not_not.1 hr, fun hne => ?_⟩
    rw [if_neg hne] at h
    exact containsAny_spec h

end Rdm
