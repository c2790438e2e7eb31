import Rdm.Core.FeedType
import Rdm.Core.ProdClass

/-!
# Operations on classes of products

A class without specifications contains everything in its range, so `ProdClass::Optimize` and `ProdClass::Intersect` can
make a class larger (`optimize_contains`, `intersect_sound`).
-/

namespace Rdm

def ProdSpec.Compiles (re : RegexEngine) (spec : ProdSpec) : Prop :=
  spec.pattern = [] ∨ spec.pattern = matchAll ∨ (Pattern.new re spec.pattern).isSome = true

instance (re : RegexEngine) (spec : ProdSpec) : Decidable (spec.Compiles re) := inferInstanceAs (Decidable (_ ∨ _ ∨ _))

namespace ProdClass

variable {re : RegexEngine} {info : ProdInfo}

/-! ## The answer of `Contains` -/

/-- **The loop answers** if the patterns it looks at can be compiled, and finds a specification that fits if there is
one. -/
theorem containsAny_answers : ∀ {specs : List ProdSpec},
    (∀ spec ∈ specs, info.feedtype &&& spec.feedtype ≠ 0 → spec.Compiles re) → ∃ b, containsAny re info specs = some b ∧
      (b = true ↔ ∃ spec ∈ specs, info.feedtype &&& spec.feedtype ≠ 0 ∧ spec.Matches re info.ident)
  | [], _ => ⟨false, rfl, by simp⟩
  | spec :: specs, h => by
    obtain ⟨b, hb, hiff⟩ := containsAny_answers fun spec' hs => h spec' (List.mem_cons_of_mem _ hs)
    rw [containsAny]
    by_cases hft : info.feedtype &&& spec.feedtype ≠ 0
    · rw [if_pos hft]
      by_cases hp : spec.pattern = [] ∨ spec.pattern = matchAll
      · exact ⟨true, if_pos hp, by simpa using .inl ⟨hft, hp.imp_right .inl⟩⟩
      · have hsome : (Pattern.new re spec.pattern).isSome = true := by
          rcases h spec List.mem_cons_self hft with hc | hc | hc
          · exact absurd (.inl hc) hp
          · exact absurd (.inr hc) hp
          · exact hc
        obtain ⟨pat, hpat⟩ := Option.isSome_iff_exists.1 hsome
        rw [if_neg hp, hpat]
        have hmatch : spec.Matches re info.ident ↔ pat.isMatch re info.ident = true := by
          rw [not_or] at hp
          simp [ProdSpec.Matches, hp.1, hp.2, hpat]
        by_cases hm : pat.isMatch re info.ident = true
        · exact ⟨true, if_pos hm, by simpa using .inl ⟨hft, hmatch.2 hm⟩⟩
        · refine ⟨b, (if_neg hm).trans hb, hiff.trans ?_⟩
          simp [hmatch, hm]
    · rw [if_neg hft]
      refine ⟨b, hb, hiff.trans ?_⟩
      simp [Decidable.not_not.1 hft]

/-- **`Contains` answers** if the patterns of the product's feeds can be compiled. -/
theorem contains_answers {clss : ProdClass}
    (h : ∀ spec ∈ clss.specs, info.feedtype &&& spec.feedtype ≠ 0 → spec.Compiles re) : ∃ b,
    clss.contains re info = some b ∧
      (b = true ↔ clss.InRange info ∧ (clss.specs ≠ [] →
        ∃ spec ∈ clss.specs, info.feedtype &&& spec.feedtype ≠ 0 ∧ spec.Matches re info.ident)) := by
  rw [contains]
  by_cases hr : clss.InRange info
  · rw [if_neg (not_not_intro hr)]
    by_cases hs : clss.specs = []
    · exact ⟨true, if_pos hs, by simp [hr, hs]⟩
    · obtain ⟨b, hb, hiff⟩ := containsAny_answers h
      rw [if_neg hs]
      exact ⟨b, hb, hiff.trans (by simp [hr, hs])⟩
  · exact ⟨false, if_pos hr, by simp [hr]⟩

theorem contains_iff (hre : ∀ expr, re.compiles expr = true) {clss : ProdClass} : clss.contains re info = some true ↔
    clss.InRange info ∧ (clss.specs ≠ [] →
      ∃ spec ∈ clss.specs, info.feedtype &&& spec.feedtype ≠ 0 ∧ spec.Matches re info.ident) := by
  have hall : ∀ spec ∈ clss.specs, info.feedtype &&& spec.feedtype ≠ 0 → spec.Compiles re := by
    intro spec _ _
    unfold ProdSpec.Compiles Pattern.new
    by_cases hp : spec.pattern = matchAll <;> simp [hp, hre]
  obtain ⟨b, hb, hiff⟩ := contains_answers hall
  rw [hb, Option.some.injEq, hiff]

/-! ## `Optimize` -/

def optimize (clss : ProdClass) : ProdClass :=
  if clss.specs = [] then clss else { clss with specs := clss.specs.filter (·.feedtype ≠ FeedType.NONE) }

theorem containsAny_filter (specs : List ProdSpec) :
    containsAny re info (specs.filter (·.feedtype ≠ FeedType.NONE)) = containsAny re info specs := by
  induction specs with
  | nil => rfl
  | cons spec specs ih =>
    by_cases hft : spec.feedtype = FeedType.NONE
    · have hskip : ¬ (info.feedtype &&& spec.feedtype ≠ 0) := by
        rw [hft]
        exact not_not_intro UInt32.and_zero
      rw [List.filter_cons_of_neg (by simpa using hft), containsAny, if_neg hskip, ih]
    · rw [List.filter_cons_of_pos (by simpa using hft), containsAny, containsAny, ih]

/-- **`Optimize` keeps what a class contains** exactly unless all its specifications are without feeds and the product
is in its range. -/
theorem optimize_contains (re : RegexEngine) (clss : ProdClass) (info : ProdInfo) :
    (clss.optimize.contains re info = some true ↔ clss.contains re info = some true) ↔
      clss.specs = [] ∨ (∃ spec ∈ clss.specs, spec.feedtype ≠ FeedType.NONE) ∨ ¬ clss.InRange info := by
  by_cases hne : clss.specs = []
  · rw [optimize, if_pos hne]
    exact iff_of_true Iff.rfl (.inl hne)
  by_cases hr : clss.InRange info
  case neg =>
    have hopt : ¬ clss.optimize.InRange info := by rwa [optimize, if_neg hne]
    rw [contains, contains, if_pos hr, if_pos hopt]
    exact iff_of_true Iff.rfl (.inr (.inr hr))
  have hcontains : clss.contains re info = containsAny re info clss.specs := by
    rw [contains, if_neg (not_not_intro hr), if_neg hne]
  by_cases hleft : clss.specs.filter (·.feedtype ≠ FeedType.NONE) = []
  · have hopen : clss.optimize.contains re info = some true := by
      rw [optimize, if_neg hne]
      exact (if_neg (not_not_intro hr)).trans (if_pos hleft)
    have hnone : containsAny re info clss.specs = some false := by rw [← containsAny_filter, hleft, containsAny]
    rw [hopen, hcontains, hnone]
    simpa [hne, hr] using hleft
  · have hsame : clss.optimize.contains re info = containsAny re info clss.specs := by
      rw [optimize, if_neg hne]
      exact (if_neg (not_not_intro hr)).trans ((if_neg hleft).trans (containsAny_filter _))
    rw [hsame, hcontains]
    refine iff_of_true Iff.rfl (.inr (.inl ?_))
    simpa using hleft

def single (spec : ProdSpec) : ProdClass := { toSec := 100, specs := [spec] }

def literalEngine : RegexEngine := ⟨fun _ => true, fun expr text => expr == text⟩

/-- **A class without feeds contains nothing, and everything in its range after `Optimize`.** -/
theorem optimize_opens : (single ⟨FeedType.NONE, []⟩).contains literalEngine { feedtype := 1 } = some false ∧
    (single ⟨FeedType.NONE, []⟩).optimize.contains literalEngine { feedtype := 1 } = some true := by
  decide

/-! ## `Intersect` -/

def Later (sec usec sec' usec' : Int) : Prop := sec' < sec ∨ sec = sec' ∧ usec' < usec

instance (sec usec sec' usec' : Int) : Decidable (Later sec usec sec' usec') := inferInstanceAs (Decidable (_ ∨ _))

def narrow (filt want result : ProdClass) : ProdClass :=
  let result :=
    if Later filt.fromSec filt.fromUsec want.fromSec want.fromUsec then
      { result with fromSec := filt.fromSec, fromUsec := filt.fromUsec }
    else { result with fromSec := want.fromSec, fromUsec := want.fromUsec }
  if Later want.toSec want.toUsec filt.toSec filt.toUsec then { result with toSec := filt.toSec, toUsec := filt.toUsec }
  else { result with toSec := want.toSec, toUsec := want.toUsec }

def isAny (filt : ProdClass) : Prop := filt.specs = [] ∨ filt.specs = [⟨FeedType.ANY, matchAll⟩]

instance (filt : ProdClass) : Decidable filt.isAny := inferInstanceAs (Decidable (_ ∨ _))

def common (wSpec fSpec : ProdSpec) : Option ProdSpec :=
  let intersection := fSpec.feedtype &&& wSpec.feedtype
  if intersection ≠ FeedType.NONE ∧ (fSpec.pattern = matchAll ∨ fSpec.pattern = wSpec.pattern) then
    some ⟨intersection, wSpec.pattern⟩
  else none

def intersect (filt want result : ProdClass) : Bool × ProdClass :=
  if filt.specs = [] ∧ want.specs = [] then (true, want)
  else if Later filt.fromSec filt.fromUsec want.toSec want.toUsec then (false, result)
  else if Later want.fromSec want.fromUsec filt.toSec filt.toUsec then (false, result)
  else if filt.isAny then (true, { narrow filt want result with specs := want.specs })
  else
    let specs := want.specs.flatMap fun wSpec => filt.specs.filterMap (common wSpec)
    (!specs.isEmpty, { narrow filt want result with specs := specs })

theorem inRange_narrow {filt want : ProdClass} (result : ProdClass) :
    (narrow filt want result).InRange info ↔ filt.InRange info ∧ want.InRange info := by
  unfold narrow
  by_cases hfrom : Later filt.fromSec filt.fromUsec want.fromSec want.fromUsec <;>
    by_cases hto : Later want.toSec want.toUsec filt.toSec filt.toUsec
  all_goals
    simp only [hfrom, hto, if_true, if_false]
    unfold InRange
    unfold Later at hfrom hto
    dsimp only
    omega

theorem fits_of_common {wSpec fSpec spec : ProdSpec} (h : common wSpec fSpec = some spec)
    (hft : info.feedtype &&& spec.feedtype ≠ 0) (hm : spec.Matches re info.ident) :
    (info.feedtype &&& fSpec.feedtype ≠ 0 ∧ fSpec.Matches re info.ident) ∧
      info.feedtype &&& wSpec.feedtype ≠ 0 ∧ wSpec.Matches re info.ident := by
  rw [common] at h
  split at h
  case isFalse => cases h
  case isTrue hc =>
    cases h
    refine ⟨⟨fun h0 => hft ?_, ?_⟩, fun h0 => hft ?_, hm⟩
    · rw [← UInt32.and_assoc, h0, UInt32.zero_and]
    · rcases hc.2 with hp | hp
      · exact .inr (.inl hp)
      · rw [ProdSpec.Matches, hp]
        exact hm
    · rw [UInt32.and_comm fSpec.feedtype, ← UInt32.and_assoc, h0, UInt32.zero_and]

theorem fits_any {filt : ProdClass} (h : filt.isAny) (hft : info.feedtype ≠ 0) (hne : filt.specs ≠ []) :
    ∃ spec ∈ filt.specs, info.feedtype &&& spec.feedtype ≠ 0 ∧ spec.Matches re info.ident := by
  rw [h.resolve_left hne]
  refine ⟨_, List.mem_singleton.2 rfl, ?_, .inr (.inl rfl)⟩
  rw [FeedType.ANY, show (0xffffffff : UInt32) = -1 by decide, UInt32.and_neg_one]
  exact hft

/-- A wanted class and a filter, in whose ranges the product is, are narrowed by a filter that lets everything pass. -/
theorem intersect_any {filt want : ProdClass} (result : ProdClass) (hany : filt.isAny)
    (hnil : ¬ (filt.specs = [] ∧ want.specs = [])) (hf : filt.InRange info) (hw : want.InRange info) :
    filt.intersect want result = (true, { narrow filt want result with specs := want.specs }) := by
  unfold InRange at hf hw
  have hfrom : ¬ Later filt.fromSec filt.fromUsec want.toSec want.toUsec := by unfold Later; omega
  have hto : ¬ Later want.fromSec want.fromUsec filt.toSec filt.toUsec := by unfold Later; omega
  rw [intersect, if_neg hnil, if_neg hfrom, if_neg hto, if_pos hany]

/-- **What an intersection contains, both classes contain**, exactly unless the wanted class has no specifications and
the filter either has none and another range, or is `{ANY, ".*"}` and the product is without a feed. -/
theorem intersect_sound (hre : ∀ expr, re.compiles expr = true) (filt want result : ProdClass) (info : ProdInfo) :
    (∀ r, filt.intersect want result = (true, r) → r.contains re info = some true →
      filt.contains re info = some true ∧ want.contains re info = some true) ↔
    ¬ (want.specs = [] ∧ want.InRange info ∧ (filt.specs = [] ∧ ¬ filt.InRange info ∨
      filt.specs = [⟨FeedType.ANY, matchAll⟩] ∧ filt.InRange info ∧ info.feedtype = FeedType.NONE)) := by
  simp only [contains_iff hre]
  constructor
  · rintro hsound ⟨hnil, hw, ⟨hfnil, hout⟩ | ⟨hany, hf, hfeed⟩⟩
    · exact hout (hsound want (if_pos ⟨hfnil, hnil⟩) ⟨hw, (absurd hnil ·)⟩).1.1
    · have hne : filt.specs ≠ [] := by simp [hany]
      have hin := (inRange_narrow result).2 ⟨hf, hw⟩
      have hboth := hsound _ (intersect_any result (.inr hany) (hne ·.1) hf hw) ⟨hin, (absurd hnil ·)⟩
      obtain ⟨spec, -, hfits, -⟩ := hboth.1.2 hne
      exact hfits (by rw [hfeed]; exact UInt32.zero_and)
  rintro hok r h ⟨hrange, hfits⟩
  rw [intersect] at h
  split at h
  case isTrue hnil =>
    cases h
    have hf : filt.InRange info := Decidable.not_not.1 fun hout => hok ⟨hnil.2, hrange, .inl ⟨hnil.1, hout⟩⟩
    exact ⟨⟨hf, (absurd hnil.1 ·)⟩, hrange, hfits⟩
  split at h
  · cases h
  split at h
  · cases h
  split at h
  case isTrue hany =>
    cases h
    obtain ⟨hf, hw⟩ := (inRange_narrow result).1 hrange
    refine ⟨⟨hf, fun hne => fits_any hany (fun hfeed => ?_) hne⟩, hw, hfits⟩
    by_cases hnil : want.specs = []
    · exact hok ⟨hnil, hw, .inr ⟨hany.resolve_left hne, hf, hfeed⟩⟩
    · obtain ⟨spec, -, hft, -⟩ := hfits hnil
      exact hft (by rw [hfeed, UInt32.zero_and])
  case isFalse =>
    obtain ⟨hne, rfl⟩ := Prod.mk.inj h
    obtain ⟨hf, hw⟩ := (inRange_narrow result).1 hrange
    obtain ⟨spec, hs, hft, hm⟩ := hfits (by simpa using hne)
    obtain ⟨wSpec, hwSpec, hs⟩ := List.mem_flatMap.1 hs
    obtain ⟨fSpec, hfSpec, hs⟩ := List.mem_filterMap.1 hs
    obtain ⟨hfit, hwit⟩ := fits_of_common hs hft hm
    exact ⟨⟨hf, fun _ => ⟨fSpec, hfSpec, hfit⟩⟩, hw, fun _ => ⟨wSpec, hwSpec, hwit⟩⟩

def upTo (sec : Int) : ProdClass := { toSec := sec }

theorem intersect_sound_feed : (single ⟨3, matchAll⟩).intersect (single ⟨1, [65]⟩) {} = (true, single ⟨1, [65]⟩) ∧
    (single ⟨3, matchAll⟩).contains literalEngine { feedtype := 1, ident := [65] } = some true ∧
    (single ⟨1, [65]⟩).contains literalEngine { feedtype := 1, ident := [65] } = some true := by
  have hcommon : (single ⟨3, matchAll⟩).intersect (single ⟨1, [65]⟩) {} = (true, single ⟨1, [65]⟩) := by decide
  have hin : (single ⟨1, [65]⟩).contains literalEngine { feedtype := 1, ident := [65] } = some true := by decide
  exact ⟨hcommon, (intersect_sound (fun _ => rfl) _ _ _ _).2 (by decide) _ hcommon hin⟩

/-- **An intersection can be larger than the filter**, whose range is forgotten where nothing is specified. -/
theorem intersect_exceeds_filter :
    ((upTo 10).intersect (upTo 100) {} = (true, upTo 100) ∧
      (upTo 100).contains literalEngine { arrival := ⟨50, 0⟩ } = some true ∧
      (upTo 10).contains literalEngine { arrival := ⟨50, 0⟩ } = some false) ∧
    (single ⟨FeedType.ANY, matchAll⟩).intersect (upTo 100) {} = (true, upTo 100) ∧
      (upTo 100).contains literalEngine {} = some true ∧
      (single ⟨FeedType.ANY, matchAll⟩).contains literalEngine {} = some false := by
  decide

end ProdClass

end Rdm
