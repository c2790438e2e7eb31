import Rdm.Core.ClassAlgebra
import Rdm.Core.Streaming

/-!
# The patterns of a request

`OnFeedRequest` never looks at the patterns of a request. One that cannot be compiled ends the stream when
`ProdClass::Contains` meets a product of its feeds (`bad_pattern_accepted`).
-/

namespace Rdm

open ProgLogic ProgLogic.Prog

variable {D : DataSection} {re : RegexEngine} {acl : AclManager} {peer : PeerContext}

theorem AclManager.reduceTo_compiles {feed : FeedType} {clss reduced : ProdClass}
    (h : reduceTo feed clss = some reduced)
    (hc : ∀ spec ∈ clss.specs, spec.Compiles re) : ∀ spec ∈ reduced.specs, spec.Compiles re := by
  intro spec hs
  rw [(reduceTo_spec h).1] at hs
  obtain ⟨spec', hmem, hspec⟩ := List.mem_filterMap.1 hs
  rw [reduceSpec] at hspec
  split at hspec
  · cases hspec
    exact hc spec hmem
  split at hspec
  · cases hspec
    exact hc spec' hmem
  · cases hspec

theorem QueueCursor.nextOf_returns {clss : ProdClass} (h : ∀ info, clss.contains re info ≠ none) {mapped : Bool}
    {cursor : Timestamp} {q : ProductQueue} {r : Stepped × ProductQueue}
    (hr : (QueueCursor.next D false (fun _ => true) mapped cursor q).returned = some r) :
    ∃ r', (QueueCursor.nextOf D re clss mapped cursor q).returned = some r' := by
  obtain ⟨res, q'⟩ := r
  cases hd : res.delivery with
  | none =>
    refine ⟨(res, q'), returned_bind.2 ⟨res, q', hr, ?_⟩⟩
    rw [hd]
    rfl
  | some d =>
    obtain ⟨b, hb⟩ := Option.ne_none_iff_exists'.1 (h d.info)
    refine ⟨(if b then res else { res with delivery := none }, q'), returned_bind.2 ⟨res, q', hr, ?_⟩⟩
    rw [hd]
    dsimp only
    rw [hb]
    rfl

/-- The rules leave a filter and a class for the peer, and the table of processes takes the class as it is. -/
def AclManager.Grants (acl : AclManager) (peer : PeerContext) (addProcess : ProdClass → Int × ProdClass)
    (want : ProdClass) : Prop :=
  (∃ filt, acl.getUpstreamFilter peer want = some (some filt)) ∧
    ∃ sub, acl.reduceToAllowed peer want = some sub ∧ addProcess sub = (0, sub)

theorem UpstreamServerHandler.onFeedRequest_grants {addProcess : ProdClass → Int × ProdClass} (pid : UInt32)
    {request : FeedRequest} (h : UpstreamServerHandler) (hgrants : acl.Grants peer addProcess request.requestedClass) :
    ∃ response h', h.onFeedRequest acl peer addProcess pid request = some (response, h') ∧
      response.statusCode = ReplyStatus.OK := by
  obtain ⟨⟨filt, hfilt⟩, sub, hsub, hadd⟩ := hgrants
  simp only [onFeedRequest, hfilt, hsub, hadd, Option.isNone_some, Bool.false_eq_true, ne_eq, not_true_eq_false,
    if_false]
  exact ⟨_, _, rfl, rfl⟩

/-- **A request that is answered with `OK`** has patterns that can be compiled, and gives a class that answers for every
product, exactly if its patterns can be compiled or the rules or the table of processes refuse it. -/
theorem accepted_patterns_answer (re : RegexEngine) (D : DataSection) (acl : AclManager) (peer : PeerContext)
    (addProcess : ProdClass → Int × ProdClass) (pid : UInt32) (request : FeedRequest) (h : UpstreamServerHandler) :
    (∀ response h', h.onFeedRequest acl peer addProcess pid request = some (response, h') →
      response.statusCode = ReplyStatus.OK →
      (∀ info, h'.activeSub.contains re info ≠ none) ∧
      (∀ mapped cursor q, (QueueCursor.next D false (fun _ => true) mapped cursor q).returned ≠ none →
        (QueueCursor.nextOf D re h'.activeSub mapped cursor q).returned ≠ none) ∧
      ∀ spec ∈ request.requestedClass.specs, spec.Compiles re) ↔
    (∀ spec ∈ request.requestedClass.specs, spec.Compiles re) ∨
      ¬ acl.Grants peer addProcess request.requestedClass := by
  constructor
  · intro hall
    by_cases hgrants : acl.Grants peer addProcess request.requestedClass
    · obtain ⟨response, h', hfeed, hok⟩ := UpstreamServerHandler.onFeedRequest_grants pid h hgrants
      exact .inl (hall response h' hfeed hok).2.2
    · exact .inr hgrants
  · intro hcase response h' hfeed hok
    obtain ⟨hreduced, hadd, filt, hfilt, -⟩ := UpstreamServerHandler.onFeedRequest_ok hfeed hok
    have hcompiles := hcase.resolve_right (not_not_intro ⟨⟨filt, hfilt⟩, h'.activeSub, hreduced, hadd⟩)
    have hanswers : ∀ info, h'.activeSub.contains re info ≠ none := by
      intro info
      obtain ⟨b, hb, -⟩ := ProdClass.contains_answers fun spec hs _ =>
        AclManager.reduceTo_compiles hreduced hcompiles spec hs
      rw [hb]
      exact Option.some_ne_none b
    refine ⟨hanswers, fun mapped cursor q hne => ?_, hcompiles⟩
    obtain ⟨r, hr⟩ := Option.ne_none_iff_exists'.1 hne
    exact Option.ne_none_iff_exists'.2 (QueueCursor.nextOf_returns hanswers hr)

def badPattern : FeedRequest := ⟨false, 0, { toSec := 31536000, specs := [⟨1, [40]⟩] }⟩

/-- **A pattern that cannot be compiled is accepted**, and the class throws for every product of the feed in its
range. -/
theorem bad_pattern_accepted : ¬ (∀ spec ∈ badPattern.requestedClass.specs, spec.Compiles blindEngine) ∧
    (UpstreamServerHandler.onFeedRequest feedRules ⟨[97], [98]⟩ (fun clss => (0, clss)) 7 badPattern {}).map
      (fun r => (r.1.statusCode, r.2.activeSub.contains blindEngine { feedtype := 1 })) =
      some (ReplyStatus.OK, none) := by
  decide

end Rdm
