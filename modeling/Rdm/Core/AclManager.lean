import Rdm.Core.Client
import Rdm.Core.FeedType

/-!
# Access control

`rdm::AclManager` has the `ALLOW` and `ACCEPT` rules. A peer gets the part of a class that they allow
(`ReduceToAllowed`), and a filter with their patterns (`GetUpstreamFilter`).
-/

namespace Rdm

structure PeerContext where
  hostname : List UInt8
  ipString : List UInt8

structure AllowRule where
  feedtype : FeedType
  hostPattern : List UInt8
  okPattern : Pattern
  notPattern : Option Pattern

structure AcceptRule where
  feedtype : FeedType
  hostPattern : List UInt8

/-! ## The filter -/

structure UpFilter.Element where
  ft : FeedType
  okPattern : Pattern
  notPattern : Option Pattern

abbrev UpFilter := List UpFilter.Element

namespace UpFilter

/-- **A component is added** unless it shares a feed with one that is there, which throws. -/
def addComponent (filt : UpFilter) (feedtype : FeedType) (okPattern : Pattern) (notPattern : Option Pattern) :
    Option UpFilter :=
  if filt.any fun elt => feedtype &&& elt.ft ≠ 0 then none else some (filt ++ [⟨feedtype, okPattern, notPattern⟩])

def isMatch (re : RegexEngine) (info : ProdInfo) : UpFilter → Bool
  | [] => false
  | elt :: elts =>
    if elt.ft &&& info.feedtype ≠ 0 then
      elt.okPattern.isMatch re info.ident && !(elt.notPattern.any fun p => p.isMatch re info.ident)
    else isMatch re info elts

theorem isMatch_spec {re : RegexEngine} {info : ProdInfo} : ∀ {filt : UpFilter}, isMatch re info filt = true →
    ∃ elt ∈ filt, elt.ft &&& info.feedtype ≠ 0 ∧ elt.okPattern.isMatch re info.ident = true ∧
      ∀ p ∈ elt.notPattern, p.isMatch re info.ident = false
  | [], h => by cases h
  | elt :: elts, h => by
    rw [isMatch] at h
    split at h
    case isTrue hft =>
      rw [Bool.and_eq_true, Bool.not_eq_true'] at h
      refine ⟨elt, List.mem_cons_self, hft, h.1, fun p hp => ?_⟩
      rw [Option.mem_def.1 hp] at h
      exact h.2
    case isFalse =>
      obtain ⟨elt', hm, hrest⟩ := isMatch_spec h
      exact ⟨elt', List.mem_cons_of_mem _ hm, hrest⟩

end UpFilter

/-! ## The rules -/

structure AclManager where
  allowRules : List AllowRule
  acceptRules : List AcceptRule
  search : List UInt8 → List UInt8 → Option Bool

namespace AclManager

/-- Does the pattern match the address or the name? One that is no regular expression has to be equal to either. -/
def isHostMatch (acl : AclManager) (peer : PeerContext) (pattern : List UInt8) : Bool :=
  let equal := peer.ipString = pattern ∨ peer.hostname = pattern
  match acl.search pattern peer.ipString with
  | none => equal
  | some true => true
  | some false =>
    match acl.search pattern peer.hostname with
    | none => equal
    | some found => found

def isHostOk (acl : AclManager) (peer : PeerContext) : Bool :=
  (acl.allowRules.any fun rule => acl.isHostMatch peer rule.hostPattern) ||
    acl.acceptRules.any fun rule => acl.isHostMatch peer rule.hostPattern

def feeds (fts : List FeedType) : FeedType := fts.foldl (· ||| ·) FeedType.NONE

def getAllowed (acl : AclManager) (peer : PeerContext) (desiredFeed : FeedType) : FeedType :=
  desiredFeed &&& feeds ((acl.allowRules.filter fun rule => acl.isHostMatch peer rule.hostPattern).map (·.feedtype))

def getAccepted (acl : AclManager) (peer : PeerContext) : FeedType :=
  feeds ((acl.acceptRules.filter fun rule => acl.isHostMatch peer rule.hostPattern).map (·.feedtype))

def reduceSpec (feed : FeedType) (spec : ProdSpec) : Option ProdSpec :=
  if spec.feedtype = FeedType.NONE then some spec
  else if spec.feedtype &&& feed ≠ FeedType.NONE then some ⟨spec.feedtype &&& feed, spec.pattern⟩
  else none

def reduceTo (feed : FeedType) (clss : ProdClass) : Option ProdClass :=
  if feed = FeedType.NONE then none
  else if clss.specs.filterMap (reduceSpec feed) = [] then none
  else some { clss with specs := clss.specs.filterMap (reduceSpec feed) }

def reduceToAllowed (acl : AclManager) (peer : PeerContext) (want : ProdClass) : Option ProdClass :=
  reduceTo (acl.getAllowed peer 0xffffffff) want

def reduceToAcceptable (acl : AclManager) (peer : PeerContext) (offered : ProdClass) : Option ProdClass :=
  reduceTo (acl.getAccepted peer) offered

def firstRule (acl : AclManager) (peer : PeerContext) (spec : ProdSpec) : Option AllowRule :=
  acl.allowRules.find? fun rule => rule.feedtype &&& spec.feedtype ≠ FeedType.NONE &&
    acl.isHostMatch peer rule.hostPattern

def addSpecs (acl : AclManager) (peer : PeerContext) : List ProdSpec → UpFilter → Option UpFilter
  | [], filt => some filt
  | spec :: specs, filt =>
    match acl.firstRule peer spec with
    | none => addSpecs acl peer specs filt
    | some rule =>
      match filt.addComponent (rule.feedtype &&& spec.feedtype) rule.okPattern rule.notPattern with
      | none => none
      | some filt => addSpecs acl peer specs filt

def getUpstreamFilter (acl : AclManager) (peer : PeerContext) (want : ProdClass) : Option (Option UpFilter) :=
  match acl.addSpecs peer want.specs [] with
  | none => none
  | some filt => some (if filt = [] then none else some filt)

end AclManager

/-! ## What the filter and the classes say -/

variable {re : RegexEngine} {acl : AclManager} {peer : PeerContext} {info : ProdInfo}

def AclManager.Origin (acl : AclManager) (peer : PeerContext) (specs : List ProdSpec) (elt : UpFilter.Element) : Prop :=
  ∃ rule ∈ acl.allowRules, acl.isHostMatch peer rule.hostPattern = true ∧ ∃ spec ∈ specs,
    elt = ⟨rule.feedtype &&& spec.feedtype, rule.okPattern, rule.notPattern⟩

/-- **A filter is made of rules for the peer** and specifications it asked for. -/
theorem AclManager.addSpecs_origin {specs : List ProdSpec} : ∀ {rest : List ProdSpec} {filt filt' : UpFilter},
    (∀ spec ∈ rest, spec ∈ specs) → (∀ elt ∈ filt, acl.Origin peer specs elt) →
    acl.addSpecs peer rest filt = some filt' → ∀ elt ∈ filt', acl.Origin peer specs elt
  | [], filt, filt', _, hfilt, h => by
    cases h
    exact hfilt
  | spec :: rest, filt, filt', hspecs, hfilt, h => by
    have hrest : ∀ s ∈ rest, s ∈ specs := fun s hs => hspecs s (List.mem_cons_of_mem _ hs)
    rw [addSpecs] at h
    split at h
    case h_1 => exact addSpecs_origin hrest hfilt h
    case h_2 rule hrule =>
      have hmem := List.mem_of_find?_eq_some hrule
      have hcond := List.find?_some hrule
      rw [Bool.and_eq_true] at hcond
      split at h
      case h_1 => cases h
      case h_2 filt1 hadd =>
        refine addSpecs_origin hrest (fun elt he => ?_) h
        unfold UpFilter.addComponent at hadd
        split at hadd
        · cases hadd
        · cases hadd
          rcases List.mem_append.1 he with he | he
          · exact hfilt elt he
          · exact ⟨rule, hmem, hcond.2, spec, hspecs spec List.mem_cons_self, List.mem_singleton.1 he⟩

theorem AclManager.getUpstreamFilter_origin {want : ProdClass} {filt : UpFilter}
    (h : acl.getUpstreamFilter peer want = some (some filt)) : ∀ elt ∈ filt, acl.Origin peer want.specs elt := by
  unfold getUpstreamFilter at h
  split at h
  case h_1 => cases h
  case h_2 filt' hf =>
    split at h
    · cases h
    · cases h
      exact addSpecs_origin (fun _ h => h) (fun _ h => absurd h List.not_mem_nil) hf

theorem AclManager.reduceTo_spec {feed : FeedType} {clss reduced : ProdClass} (h : reduceTo feed clss = some reduced) :
    reduced.specs = clss.specs.filterMap (reduceSpec feed) ∧ reduced.specs ≠ [] := by
  unfold reduceTo at h
  split at h
  · cases h
  split at h
  · cases h
  · next hne =>
    cases h
    exact ⟨rfl, hne⟩

theorem AclManager.reduceTo_feed {feed : FeedType} {clss reduced : ProdClass} (h : reduceTo feed clss = some reduced)
    {spec : ProdSpec} (hs : spec ∈ reduced.specs) : spec.feedtype &&& feed = spec.feedtype := by
  rw [(reduceTo_spec h).1] at hs
  obtain ⟨spec', -, hred⟩ := List.mem_filterMap.1 hs
  unfold reduceSpec at hred
  split at hred
  · next hnone =>
    cases hred
    rw [hnone]
    exact UInt32.zero_and
  split at hred
  · cases hred
    show spec'.feedtype &&& feed &&& feed = _
    rw [UInt32.and_assoc, UInt32.and_self]
  · cases hred

theorem FeedType.and_or (v u w : FeedType) : v &&& (u ||| w) = v &&& u ||| v &&& w :=
  UInt32.toBitVec_inj.1 BitVec.and_or_distrib_left

theorem AclManager.feeds_overlap {v : FeedType} {fts : List FeedType} (h : v &&& feeds fts ≠ 0) :
    ∃ ft ∈ fts, v &&& ft ≠ 0 := by
  have hfold : ∀ (fts : List FeedType) (u : FeedType), v &&& fts.foldl (· ||| ·) u ≠ 0 →
      v &&& u ≠ 0 ∨ ∃ ft ∈ fts, v &&& ft ≠ 0 := by
    intro fts
    induction fts with
    | nil => exact fun u h => .inl h
    | cons ft fts ih =>
      intro u h
      rcases ih (u ||| ft) h with h | ⟨ft', hm, h⟩
      · by_cases hu : v &&& u = 0
        · refine .inr ⟨ft, List.mem_cons_self, fun hft => h ?_⟩
          rw [FeedType.and_or, hu, hft]
          rfl
        · exact .inl hu
      · exact .inr ⟨ft', List.mem_cons_of_mem _ hm, h⟩
  rcases hfold fts _ h with h | h
  · exact absurd UInt32.and_zero h
  · exact h

end Rdm
