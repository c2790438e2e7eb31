import Rdm.Core.ServiceHandlers
import Rdm.Network.SunRpcXdr

/-!
# The filter of a feed and the class that is granted

The filter has the first rule that allows some feed of a specification; the class keeps what all the rules allow. So a
feed that only a later rule allows is granted and not let through (`filter_covers_class`).
-/

namespace Rdm

namespace FeedType

def Disjoint (v w : FeedType) : Prop := v &&& w = 0

instance (v w : FeedType) : Decidable (v.Disjoint w) := inferInstanceAs (Decidable (_ = _))

def has (v : FeedType) (i : Nat) : Bool := v.toBitVec.getLsbD i

theorem ext_has {v w : FeedType} (h : ∀ i, v.has i = w.has i) : v = w :=
  UInt32.toBitVec_inj.1 (BitVec.eq_of_getLsbD_eq fun i _ => h i)

@[simp] theorem has_and (v w : FeedType) (i : Nat) : has (v &&& w) i = (v.has i && w.has i) := by
  simp [has]

@[simp] theorem has_or (v w : FeedType) (i : Nat) : has (v ||| w) i = (v.has i || w.has i) := by
  simp [has]

@[simp] theorem has_zero (i : Nat) : has 0 i = false := by
  simp [has]

theorem Disjoint.symm {v w : FeedType} (h : v.Disjoint w) : w.Disjoint v := by
  rw [Disjoint, UInt32.and_comm]
  exact h

theorem disjoint_iff {v w : FeedType} : v.Disjoint w ↔ ∀ i, v.has i = true → w.has i = false := by
  constructor
  · intro h i hv
    have hi := has_and v w i
    rw [h, has_zero, hv, Bool.true_and] at hi
    exact hi.symm
  · intro h
    refine ext_has fun i => ?_
    rw [has_and, has_zero]
    cases hv : v.has i with
    | false => rfl
    | true => exact h i hv

end FeedType

namespace AclManager

open FeedType List

variable {acl : AclManager} {peer : PeerContext} {spec : ProdSpec}

theorem has_feeds (fts : List FeedType) (i : Nat) : (feeds fts).has i = fts.any (·.has i) := by
  have hfold : ∀ (fts : List FeedType) (u : FeedType),
    (fts.foldl (· ||| ·) u).has i = (u.has i || fts.any (·.has i)) := by
    intro fts
    induction fts with
    | nil => exact fun u => (Bool.or_false _).symm
    | cons ft fts ih =>
      intro u
      rw [foldl_cons, ih, has_or, any_cons, Bool.or_assoc]
  rw [feeds, hfold]
  exact congrArg (· || _) (has_zero i)

/-! ## The components -/

def component (acl : AclManager) (peer : PeerContext) (spec : ProdSpec) : Option UpFilter.Element :=
  (acl.firstRule peer spec).map fun rule => ⟨rule.feedtype &&& spec.feedtype, rule.okPattern, rule.notPattern⟩

def components (acl : AclManager) (peer : PeerContext) (specs : List ProdSpec) : List UpFilter.Element :=
  specs.filterMap (acl.component peer)

def Separate (acl : AclManager) (peer : PeerContext) (specs : List ProdSpec) : Prop :=
  (acl.components peer specs).Pairwise fun c c' => c.ft.Disjoint c'.ft

instance (acl : AclManager) (peer : PeerContext) (specs : List ProdSpec) : Decidable (acl.Separate peer specs) :=
  inferInstanceAs (Decidable (List.Pairwise _ _))

theorem addComponent_eq {filt : UpFilter} {ft : FeedType} {ok : Pattern} {no : Option Pattern} :
    filt.addComponent ft ok no = if ∀ elt ∈ filt, ft.Disjoint elt.ft then some (filt ++ [⟨ft, ok, no⟩]) else none := by
  have hany : (filt.any fun elt => decide (ft &&& elt.ft ≠ 0)) = true ↔ ¬ ∀ elt ∈ filt, ft.Disjoint elt.ft := by
    simp [FeedType.Disjoint]
  rw [UpFilter.addComponent]
  by_cases h : ∀ elt ∈ filt, ft.Disjoint elt.ft
  · rw [if_pos h, if_neg fun ha => hany.1 ha h]
  · rw [if_neg h, if_pos (hany.2 h)]

/-- **The loop adds the components**, as long as none has a feed in common with one before it. -/
theorem addSpecs_eq_some : ∀ {specs : List ProdSpec} {filt filt' : UpFilter},
    acl.addSpecs peer specs filt = some filt' ↔
    filt' = filt ++ acl.components peer specs ∧ (∀ elt ∈ filt, ∀ c ∈ acl.components peer specs, c.ft.Disjoint elt.ft) ∧
      acl.Separate peer specs
  | [], filt, filt' => by
    simp [addSpecs, components, Separate, eq_comm]
  | spec :: specs, filt, filt' => by
    rw [addSpecs]
    cases hrule : acl.firstRule peer spec with
    | none =>
      have hnone : acl.components peer (spec :: specs) = acl.components peer specs := by
        simp [components, component, hrule]
      rw [Separate, hnone]
      exact addSpecs_eq_some
    | some rule =>
      have hsome : acl.components peer (spec :: specs) =
          ⟨rule.feedtype &&& spec.feedtype, rule.okPattern, rule.notPattern⟩ :: acl.components peer specs := by
        simp [components, component, hrule]
      dsimp only
      rw [Separate, hsome, addComponent_eq, pairwise_cons]
      by_cases h : ∀ elt ∈ filt, FeedType.Disjoint (rule.feedtype &&& spec.feedtype) elt.ft
      · rw [if_pos h]
        dsimp only
        rw [addSpecs_eq_some, append_assoc]
        simp only [mem_append, mem_cons, not_mem_nil, or_false, singleton_append, Separate]
        constructor
        · rintro ⟨rfl, hold, hsep⟩
          refine ⟨rfl, ?_, fun c hc => ?_, hsep⟩
          · rintro elt he c (rfl | hc)
            · exact h elt he
            · exact hold elt (.inl he) c hc
          · exact (hold _ (.inr rfl) c hc).symm
        · rintro ⟨rfl, hold, hnew, hsep⟩
          refine ⟨rfl, ?_, hsep⟩
          rintro elt (he | rfl) c hc
          · exact hold elt he c (.inr hc)
          · exact (hnew c hc).symm
      · rw [if_neg h]
        constructor
        · exact fun hf => by cases hf
        · rintro ⟨-, hold, -⟩
          exact absurd (fun elt he => hold elt he _ mem_cons_self) h

theorem getUpstreamFilter_eq (acl : AclManager) (peer : PeerContext) (want : ProdClass) :
    acl.getUpstreamFilter peer want =
    if acl.Separate peer want.specs then
      some (if acl.components peer want.specs = [] then none else some (acl.components peer want.specs)) else none := by
  rw [getUpstreamFilter]
  by_cases h : acl.Separate peer want.specs
  · have hadd : acl.addSpecs peer want.specs [] = some (acl.components peer want.specs) :=
      addSpecs_eq_some.2 ⟨rfl, fun _ he => absurd he not_mem_nil, h⟩
    rw [hadd, if_pos h]
  · have hadd : acl.addSpecs peer want.specs [] = none := by
      cases hf : acl.addSpecs peer want.specs [] with
      | none => rfl
      | some filt => exact absurd (addSpecs_eq_some.1 hf).2.2 h
    rw [hadd, if_neg h]

/-! ## Requests for a feed -/

theorem component_le {c : UpFilter.Element} (h : acl.component peer spec = some c) {i : Nat}
    (hi : c.ft.has i = true) : spec.feedtype.has i = true := by
  obtain ⟨rule, -, rfl⟩ := Option.map_eq_some_iff.1 h
  rw [has_and, Bool.and_eq_true] at hi
  exact hi.2

theorem separate_of_disjoint {specs : List ProdSpec} (h : specs.Pairwise fun s s' => s.feedtype.Disjoint s'.feedtype) :
    acl.Separate peer specs := by
  refine pairwise_filterMap.2 (h.imp fun {s s'} hss c hc c' hc' => ?_)
  refine disjoint_iff.2 fun i hi => ?_
  by_contra hne
  have hno := disjoint_iff.1 hss i (component_le hc hi)
  rw [component_le hc' (Bool.eq_true_of_not_eq_false hne)] at hno
  cases hno

/-- **A request is answered if its components are separate.** -/
theorem feed_request_answered (addProcess : ProdClass → Int × ProdClass) (pid : UInt32) (h : UpstreamServerHandler)
    {request : FeedRequest} (hsep : acl.Separate peer request.requestedClass.specs) :
    acl.getUpstreamFilter peer request.requestedClass ≠ none ∧
      ∃ response h', h.onFeedRequest acl peer addProcess pid request = some (response, h') := by
  have hfilt := getUpstreamFilter_eq acl peer request.requestedClass
  rw [if_pos hsep] at hfilt
  rw [UpstreamServerHandler.onFeedRequest, hfilt]
  refine ⟨Option.some_ne_none _, ?_⟩
  dsimp only
  -- every way out of the function has a response
  repeat' split
  all_goals exact ⟨_, _, rfl⟩

def allowing (fts : List FeedType) : AclManager where
  allowRules := fts.map fun ft => ⟨ft, matchAll, ⟨matchAll, true⟩, none⟩
  acceptRules := []
  search := fun _ _ => some true

def asking (fts : List FeedType) : ProdClass := ⟨0, 0, 100, 0, fts.map (⟨·, matchAll⟩)⟩

def stranger : PeerContext := ⟨[], []⟩

theorem feed_request_answered_once : (allowing [1]).Separate stranger (asking [1, 2]).specs ∧ ∃ response h',
    ({} : UpstreamServerHandler).onFeedRequest (allowing [1]) stranger (fun clss => (0, clss))
    7 ⟨false, 0, asking [1, 2]⟩ =
      some (response, h') := by
  have hsep : (allowing [1]).Separate stranger (asking [1, 2]).specs := separate_of_disjoint (by decide)
  exact ⟨hsep, (feed_request_answered _ _ _ hsep).2⟩

/-- **A request that names a feed twice is answered with an exception**; such a request can come over the wire. -/
theorem repeated_feed_throws :
    (∃ bs, SunRpcXdr.putNetFeedpar ⟨asking [1, 1], 0⟩ = some bs ∧
      Xdr.decode SunRpcXdr.getNetFeedpar bs = some (⟨asking [1, 1], 0⟩, [])) ∧
    (allowing [1]).getUpstreamFilter stranger (asking [1, 1]) = none ∧
    ∀ addProcess pid h, UpstreamServerHandler.onFeedRequest (allowing [1]) stranger addProcess pid
      ⟨false, 0, asking [1, 1]⟩ h = none := by
  have hthrows : (allowing [1]).getUpstreamFilter stranger (asking [1, 1]) = none := by
    rw [getUpstreamFilter_eq, if_neg (by decide)]
  refine ⟨?_, hthrows, fun addProcess pid h => ?_⟩
  · have hwire : SunRpcXdr.OnWire (asking [1, 1]) := by
      refine ⟨by decide, by decide, by decide, by decide, fun spec hs => ?_⟩
      rw [eq_of_mem_replicate (n := 2) hs]
      exact ⟨by decide, by decide⟩
    have hlen : (asking [1, 1]).specs.length < 2 ^ 32 := by decide
    obtain ⟨bs, hput, hget⟩ := @SunRpcXdr.feedpar_round_trip ⟨asking [1, 1], 0⟩ hwire hlen
    have hdec := hget.decode []
    rw [append_nil] at hdec
    exact ⟨bs, hput, hdec⟩
  · rw [UpstreamServerHandler.onFeedRequest, hthrows]

/-! ## The feeds of the filter -/

def FirstCovers (acl : AclManager) (peer : PeerContext) (spec : ProdSpec) : Prop :=
  ∀ rule ∈ acl.firstRule peer spec, spec.feedtype &&& acl.getAllowed peer 0xffffffff = rule.feedtype &&& spec.feedtype

instance (acl : AclManager) (peer : PeerContext) (spec : ProdSpec) : Decidable (acl.FirstCovers peer spec) :=
  inferInstanceAs (Decidable (∀ rule ∈ acl.firstRule peer spec, _))

def filtered (acl : AclManager) (peer : PeerContext) (spec : ProdSpec) : FeedType :=
  ((acl.component peer spec).map (·.ft)).getD 0

def granted (acl : AclManager) (peer : PeerContext) (spec : ProdSpec) : FeedType :=
  spec.feedtype &&& acl.getAllowed peer 0xffffffff

theorem has_components (specs : List ProdSpec) (i : Nat) :
    (feeds ((acl.components peer specs).map (·.ft))).has i = specs.any fun spec => (acl.filtered peer spec).has i := by
  rw [has_feeds, components]
  induction specs with
  | nil => rfl
  | cons spec specs ih =>
    rw [any_cons, ← ih, filtered]
    cases h : acl.component peer spec <;> simp [h]

theorem has_reduceSpec (feed : FeedType) (spec : ProdSpec) (i : Nat) :
    ((reduceSpec feed spec).any fun s => s.feedtype.has i) = has (spec.feedtype &&& feed) i := by
  rw [reduceSpec]
  split
  · next hnone => rw [Option.any_some, hnone, has_and, NONE, has_zero, Bool.false_and]
  split
  · rfl
  · next hno =>
    rw [not_not.1 hno]
    exact (has_zero i).symm

theorem has_reduced {want reduced : ProdClass} (h : acl.reduceToAllowed peer want = some reduced) (i : Nat) :
    (feeds (reduced.specs.map (·.feedtype))).has i = want.specs.any fun spec => (acl.granted peer spec).has i := by
  rw [has_feeds, (reduceTo_spec h).1]
  induction want.specs with
  | nil => rfl
  | cons spec specs ih =>
    rw [any_cons, ← ih, granted, ← has_reduceSpec]
    cases hspec : reduceSpec (acl.getAllowed peer 0xffffffff) spec <;> simp [hspec]

theorem getAllowed_any (acl : AclManager) (peer : PeerContext) : acl.getAllowed peer 0xffffffff =
    feeds ((acl.allowRules.filter fun rule => acl.isHostMatch peer rule.hostPattern).map (·.feedtype)) := by
  rw [getAllowed]
  exact UInt32.neg_one_and

theorem granted_of_filtered {i : Nat} (h : (acl.filtered peer spec).has i = true) :
    (acl.granted peer spec).has i = true := by
  rw [filtered, component] at h
  cases hrule : acl.firstRule peer spec with
  | none =>
    rw [hrule] at h
    cases (has_zero i).symm.trans h
  | some rule =>
    rw [hrule] at h
    have hbits : (rule.feedtype.has i && spec.feedtype.has i) = true := (has_and _ _ i).symm.trans h
    rw [Bool.and_eq_true] at hbits
    have hmatch := List.find?_some hrule
    rw [Bool.and_eq_true] at hmatch
    have hmem : rule ∈ acl.allowRules.filter fun rule => acl.isHostMatch peer rule.hostPattern :=
      mem_filter.2 ⟨mem_of_find?_eq_some hrule, hmatch.2⟩
    have hall :
      has (feeds ((acl.allowRules.filter fun rule => acl.isHostMatch peer rule.hostPattern).map (·.feedtype))) i
        = true := by
      rw [has_feeds]
      exact any_eq_true.2 ⟨_, mem_map_of_mem hmem, hbits.1⟩
    rw [granted, getAllowed_any, has_and, hbits.2, hall]
    rfl

theorem granted_eq_zero (h : acl.firstRule peer spec = none) : acl.granted peer spec = 0 := by
  by_contra hne
  rw [granted, getAllowed_any] at hne
  obtain ⟨ft, hft, hover⟩ := feeds_overlap hne
  obtain ⟨rule, hrule, rfl⟩ := mem_map.1 hft
  obtain ⟨hmem, hhost⟩ := mem_filter.1 hrule
  have hnot := List.find?_eq_none.1 h rule hmem
  rw [UInt32.and_comm] at hover
  rw [hhost, Bool.and_true, decide_eq_true_eq] at hnot
  exact hnot hover

theorem firstCovers_iff : acl.FirstCovers peer spec ↔ acl.filtered peer spec = acl.granted peer spec := by
  rw [FirstCovers, filtered, component]
  cases hrule : acl.firstRule peer spec with
  | none =>
    rw [granted_eq_zero hrule]
    simp
  | some rule => simp [granted, eq_comm]

/-- **The filter has a component for every feed that is granted if the first rules cover the specifications, and only
then.** -/
theorem filter_covers_class {want reduced : ProdClass} {filt : UpFilter}
    (hdis : want.specs.Pairwise fun s s' => s.feedtype.Disjoint s'.feedtype)
    (hfilt : acl.getUpstreamFilter peer want = some (some filt)) (hred : acl.reduceToAllowed peer want = some reduced) :
    feeds (filt.map (·.ft)) = feeds (reduced.specs.map (·.feedtype)) ↔ ∀ spec ∈ want.specs,
      acl.FirstCovers peer spec := by
  have hcomp : filt = acl.components peer want.specs := by
    rw [getUpstreamFilter_eq, if_pos (separate_of_disjoint hdis)] at hfilt
    split at hfilt
    · cases hfilt
    · exact (Option.some.inj (Option.some.inj hfilt)).symm
  subst hcomp
  simp only [firstCovers_iff]
  constructor
  · intro heq spec hs
    refine ext_has fun i => Bool.eq_iff_iff.2 ⟨granted_of_filtered, fun hi => ?_⟩
    -- some specification has a component with the feed, and it can only be this one
    have hany : (want.specs.any fun spec => (acl.granted peer spec).has i) = true := any_eq_true.2 ⟨spec, hs, hi⟩
    rw [← has_reduced hred, ← heq, has_components] at hany
    obtain ⟨spec', hs', hi'⟩ := any_eq_true.1 hany
    have hsymm : Std.Symm fun s s' : ProdSpec => s.feedtype.Disjoint s'.feedtype := ⟨fun _ _ h => h.symm⟩
    have hone : spec' = spec := by
      by_contra hne
      have hno := disjoint_iff.1 (hdis.forall hs' hs hne) i
      rw [granted, has_and, Bool.and_eq_true] at hi
      have hi'' := granted_of_filtered hi'
      rw [granted, has_and, Bool.and_eq_true] at hi''
      rw [hno hi''.1] at hi
      cases hi.1
    rwa [← hone]
  · intro hall
    refine ext_has fun i => ?_
    rw [has_components, has_reduced hred]
    refine Bool.eq_iff_iff.2 ?_
    simp only [any_eq_true]
    exact exists_congr fun spec => and_congr_right fun hs => by rw [hall spec hs]

theorem filter_covers_class_two : (∀ spec ∈ (asking [1, 2]).specs, (allowing [1, 2]).FirstCovers stranger spec) ∧
    feeds (((allowing [1, 2]).components stranger (asking [1, 2]).specs).map (·.ft)) =
      feeds ((asking [1, 2]).specs.map (·.feedtype)) := by
  have hcovers : ∀ spec ∈ (asking [1, 2]).specs, (allowing [1, 2]).FirstCovers stranger spec := by
    decide
  have hred : (allowing [1, 2]).reduceToAllowed stranger (asking [1, 2]) = some (asking [1, 2]) := rfl
  exact ⟨hcovers, (filter_covers_class (by decide) rfl hred).2 hcovers⟩

/-- **A feed is granted and then held back**: two rules allow one feed each, and the filter has a component for the
first only. -/
theorem second_rule_blocked : ∃ filt reduced, (allowing [1, 2]).getUpstreamFilter stranger (asking [3]) = some
    (some filt) ∧ (allowing [1, 2]).reduceToAllowed stranger (asking [3]) = some reduced ∧
    feeds (filt.map (·.ft)) = 1 ∧ feeds (reduced.specs.map (·.feedtype)) = 3 :=
  ⟨_, _, rfl, rfl, by decide, by decide⟩

end AclManager

end Rdm
