import Rdm.Core.FeedFilter

/-!
# The components of an upstream filter

`UpFilter::AddComponent` refuses a component that overlaps with another one. So their order does not matter
(`components_order_free`).
-/

namespace Rdm

namespace FeedType

def SingleBit (v : FeedType) : Prop := ∃ i, ∀ j, v.has j = true ↔ j = i

theorem singleBit_FT {n : Nat} (h : n < 32) : SingleBit (FT n) := by
  refine ⟨n, fun j => ?_⟩
  have hbits : (FT n).toBitVec = BitVec.twoPow 32 n := by
    apply BitVec.eq_of_toNat_eq
    simp [FT, BitVec.toNat_twoPow]
  rw [has, hbits, BitVec.getLsbD_twoPow]
  simp [h, eq_comm]

theorem SingleBit.meets {v : FeedType} (h : v.SingleBit) : ∃ i, ∀ w : FeedType, w &&& v ≠ 0 ↔ w.has i = true := by
  obtain ⟨i, hi⟩ := h
  refine ⟨i, fun w => ?_⟩
  have hdisj := disjoint_iff (v := v) (w := w)
  rw [ne_eq, UInt32.and_comm]
  constructor
  · intro hne
    by_contra hw
    refine hne (hdisj.2 fun j hj => ?_)
    rw [(hi j).1 hj]
    exact Bool.eq_false_iff.2 hw
  · intro hw h0
    have hfalse := hdisj.1 h0 i ((hi i).2 rfl)
    rw [hw] at hfalse
    cases hfalse

end FeedType

namespace UpFilter

/-! ## Calls -/

def addInPlace (c : Element) (filt : UpFilter) : Except (List Char) Unit × UpFilter :=
  match filt.find? fun elt => c.ft &&& elt.ft ≠ 0 with
  | some elt =>
    (.error ("Feedtype ".toList ++ c.ft.toString ++ " overlaps with feedtype ".toList ++ elt.ft.toString), filt)
  | none => (.ok (), filt ++ [c])

def addAll : List Element → UpFilter → List Element × UpFilter
  | [], filt => ([], filt)
  | c :: cs, filt =>
    match addInPlace c filt with
    | (.error _, filt) => addAll cs filt
    | (.ok _, filt) => (c :: (addAll cs filt).1, (addAll cs filt).2)

def Apart (filt : UpFilter) : Prop := filt.Pairwise fun elt elt' => elt.ft.Disjoint elt'.ft

instance (filt : UpFilter) : Decidable filt.Apart := inferInstanceAs (Decidable (List.Pairwise _ _))

instance : Std.Symm fun elt elt' : Element => elt.ft.Disjoint elt'.ft := ⟨fun _ _ h => h.symm⟩

variable {re : RegexEngine} {info : ProdInfo} {c : Element} {filt : UpFilter}

theorem addInPlace_cases (c : Element) (filt : UpFilter) :
    (addInPlace c filt = (.ok (), filt ++ [c]) ∧ ∀ elt ∈ filt, c.ft.Disjoint elt.ft) ∨
      ∃ msg, addInPlace c filt = (.error msg, filt) ∧ ∃ elt ∈ filt, ¬ c.ft.Disjoint elt.ft := by
  rw [addInPlace]
  cases hfind : filt.find? fun elt => c.ft &&& elt.ft ≠ 0 with
  | none =>
    refine .inl ⟨rfl, fun elt helt => ?_⟩
    have hno := List.find?_eq_none.1 hfind elt helt
    simpa [FeedType.Disjoint] using hno
  | some elt =>
    refine .inr ⟨_, rfl, elt, List.mem_of_find?_eq_some hfind, ?_⟩
    have hmeets := List.find?_some hfind
    simpa [FeedType.Disjoint] using hmeets

theorem Apart.append_singleton (h : filt.Apart) (hc : ∀ elt ∈ filt, c.ft.Disjoint elt.ft) : Apart (filt ++ [c]) := by
  refine List.pairwise_append.2 ⟨h, List.pairwise_singleton _ _, fun elt helt c' hc' => ?_⟩
  rw [List.mem_singleton.1 hc']
  exact (hc elt helt).symm

/-- **A sequence of calls** leaves the components apart; they are those of the calls that succeeded, in this order. -/
theorem addAll_spec : ∀ (cs : List Element) {filt : UpFilter}, filt.Apart →
    (addAll cs filt).2 = filt ++ (addAll cs filt).1 ∧ (addAll cs filt).2.Apart
  | [], filt, h => ⟨(List.append_nil filt).symm, h⟩
  | c :: cs, filt, h => by
    rw [addAll]
    rcases addInPlace_cases c filt with ⟨hadd, hall⟩ | ⟨msg, hadd, -⟩
    · obtain ⟨heq, hapart⟩ := addAll_spec cs (h.append_singleton hall)
      rw [hadd]
      refine ⟨?_, hapart⟩
      rw [heq]
      simp
    · rw [hadd]
      exact addAll_spec cs h

theorem addAll_apart : ∀ {cs : List Element} {filt : UpFilter}, Apart (filt ++ cs) → addAll cs filt = (cs, filt ++ cs)
  | [], filt, _ => by rw [addAll, List.append_nil]
  | c :: cs, filt, h => by
    rw [addAll]
    rcases addInPlace_cases c filt with ⟨hadd, -⟩ | ⟨msg, -, elt, helt, hmeets⟩
    · have hrest : addAll cs (filt ++ [c]) = (cs, filt ++ c :: cs) := by
        rw [addAll_apart (by simpa using h)]
        simp
      rw [hadd]
      simp only [hrest]
    · have hdisj := (List.pairwise_append.1 h).2.2 elt helt c List.mem_cons_self
      exact absurd hdisj.symm hmeets

/-! ## Matching -/

def Element.verdict (re : RegexEngine) (info : ProdInfo) (elt : Element) : Bool :=
  elt.okPattern.isMatch re info.ident && !(elt.notPattern.any fun p => p.isMatch re info.ident)

theorem isMatch_iff (huniq : ∀ elt ∈ filt, ∀ elt' ∈ filt, elt.ft &&& info.feedtype ≠ 0 → elt'.ft &&& info.feedtype ≠ 0 →
      elt = elt') :
    filt.isMatch re info = true ↔ ∃ elt ∈ filt, elt.ft &&& info.feedtype ≠ 0 ∧ elt.verdict re info = true := by
  induction filt with
  | nil => simp [isMatch]
  | cons elt elts ih =>
    rw [isMatch]
    by_cases hmeets : elt.ft &&& info.feedtype ≠ 0
    · rw [if_pos hmeets]
      constructor
      · intro h
        exact ⟨elt, List.mem_cons_self, hmeets, h⟩
      · intro h
        obtain ⟨elt', helt', hmeets', hverdict⟩ := h
        rw [huniq elt List.mem_cons_self elt' helt' hmeets hmeets']
        exact hverdict
    · rw [if_neg hmeets, ih fun a ha b hb => huniq a (List.mem_cons_of_mem _ ha) b (List.mem_cons_of_mem _ hb)]
      constructor
      · intro h
        obtain ⟨elt', helt', h'⟩ := h
        exact ⟨elt', List.mem_cons_of_mem _ helt', h'⟩
      · intro h
        obtain ⟨elt', helt', hmeets', hverdict⟩ := h
        rcases List.mem_cons.1 helt' with heq | helt'
        · exact absurd (heq ▸ hmeets') hmeets
        · exact ⟨elt', helt', hmeets', hverdict⟩

theorem Apart.unique (h : filt.Apart) (hbit : info.feedtype.SingleBit) : ∀ elt ∈ filt, ∀ elt' ∈ filt,
    elt.ft &&& info.feedtype ≠ 0 → elt'.ft &&& info.feedtype ≠ 0 → elt = elt' := by
  obtain ⟨i, hi⟩ := hbit.meets
  intro elt helt elt' helt' hmeets hmeets'
  by_contra hne
  have hdisj : elt.ft.Disjoint elt'.ft := List.Pairwise.forall h helt helt' hne
  have hfalse := FeedType.disjoint_iff.1 hdisj i ((hi elt.ft).1 hmeets)
  rw [(hi elt'.ft).1 hmeets'] at hfalse
  cases hfalse

/-- **The order does not matter.** The components are apart, a call that throws leaves the filter as it is, and the
calls that succeeded do so in any order, with the same answers. -/
theorem components_order_free (re : RegexEngine) (cs : List Element) :
    (addAll cs []).2.Apart ∧
    (∀ c msg, (addInPlace c (addAll cs []).2).1 = .error msg → (addInPlace c (addAll cs []).2).2 = (addAll cs []).2) ∧
    ∀ ds, ds.Perm (addAll cs []).1 → (addAll ds []).1 = ds ∧ ∀ info : ProdInfo, info.feedtype.SingleBit →
      (addAll ds []).2.isMatch re info = (addAll cs []).2.isMatch re info := by
  obtain ⟨heq, hapart⟩ := addAll_spec cs (List.Pairwise.nil : Apart [])
  rw [List.nil_append] at heq
  refine ⟨hapart, fun c msg hthrow => ?_, fun ds hperm => ?_⟩
  · rcases addInPlace_cases c (addAll cs []).2 with ⟨hadd, -⟩ | ⟨msg', hadd, -⟩
    · rw [hadd] at hthrow
      cases hthrow
    · rw [hadd]
  · rw [← heq] at hperm
    have hapart' : Apart ds := (hperm.pairwise_iff fun hab => hab.symm).2 hapart
    have hadd : addAll ds [] = (ds, ds) := addAll_apart hapart'
    rw [hadd]
    refine ⟨rfl, fun info hbit => ?_⟩
    rw [Bool.eq_iff_iff, isMatch_iff (hapart'.unique hbit), isMatch_iff (hapart.unique hbit)]
    constructor
    · intro h
      obtain ⟨elt, helt, h'⟩ := h
      exact ⟨elt, hperm.mem_iff.1 helt, h'⟩
    · intro h
      obtain ⟨elt, helt, h'⟩ := h
      exact ⟨elt, hperm.mem_iff.2 helt, h'⟩

def anyEngine : RegexEngine := ⟨fun _ => true, fun _ _ => true⟩

def threeCalls : List Element :=
    [⟨3, ⟨matchAll, true⟩, none⟩, ⟨4, ⟨matchAll, true⟩, some ⟨[97], false⟩⟩, ⟨5, ⟨matchAll, true⟩, none⟩]

theorem components_order_free_swap : (addAll threeCalls []).2.length = 2 ∧
    (addAll (threeCalls.take 2).reverse []).2.isMatch anyEngine { feedtype := FeedType.FT 2 } =
      (addAll threeCalls []).2.isMatch anyEngine { feedtype := FeedType.FT 2 } := by
  have hdone : (addAll threeCalls []).1 = threeCalls.take 2 := rfl
  have hfree := (components_order_free anyEngine threeCalls).2.2 (threeCalls.take 2).reverse
    (by rw [hdone]; exact List.reverse_perm _)
  exact ⟨rfl, hfree.2 _ (FeedType.singleBit_FT (by decide))⟩

end UpFilter

end Rdm
