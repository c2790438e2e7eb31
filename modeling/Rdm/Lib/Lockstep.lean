import Mathlib.Data.Option.Basic
import Rdm.Lib.Prog

/-!
# Two programs in lockstep

`Lockstep R m m' s t`: `m` from `s` returns exactly if `m'` from `t` does, and then `R` holds between what they return
and leave.
-/

namespace ProgLogic.Prog

variable {σ σ₁ τ τ₁ υ α α₁ β β₁ γ : Type} {m : Prog σ α} {m' : Prog τ β} {R R' : α → σ → β → τ → Prop} {s : σ} {t : τ}
variable {f : α → Prog σ α₁} {f' : β → Prog τ β₁}

theorem returned_bind_eq :
    ((m >>= f) s).returned = (m s).returned.bind fun p => (f p.1 p.2).returned := by
  ext r
  rw [returned_bind, Option.bind_eq_some_iff]
  constructor
  · rintro ⟨a, s', hm, hf⟩
    exact ⟨(a, s'), hm, hf⟩
  · rintro ⟨⟨a, s'⟩, hm, hf⟩
    exact ⟨a, s', hm, hf⟩

theorem returned_zoom_eq {view : σ → τ} {put : τ → σ → σ} :
    (Prog.zoom view put m' s).returned = (m' (view s)).returned.map fun p => (p.1, put p.2 s) := by
  unfold Prog.zoom
  rcases m' (view s) with ⟨w, e | ⟨b, t⟩⟩
  · cases w <;> rfl
  · cases w <;> rfl

theorem wlp_iff_returned {Q : α → σ → Prop} : wlp m Q s ↔ ∀ a s', (m s).returned = some (a, s') → Q a s' := by
  constructor
  · intro h a s' hr
    exact h.of_returned hr
  · intro h hw a s' hres
    exact h a s' (Outcome.returned_eq_some.2 ⟨hw, hres⟩)

theorem returned_read_eq : (Prog.read s).returned = some (s, s) := rfl

theorem returned_modify_eq {f : σ → σ} : (Prog.modify f s).returned = some ((), f s) := rfl

theorem returned_call_eq {f : σ → α × σ} : (Prog.call f s).returned = some (f s) := rfl

theorem returned_assert_eq {p : Prop} [Decidable p] : (Prog.assert p s).returned = if p then some
    ((), s) else none := by
  unfold Prog.assert
  split <;> rfl

/-- **Two programs in lockstep.** -/
def Lockstep (R : α → σ → β → τ → Prop) (m : Prog σ α) (m' : Prog τ β) (s : σ) (t : τ) : Prop :=
  Option.Rel (fun p p' => R p.1 p.2 p'.1 p'.2) (m s).returned (m' t).returned

/-! ## What lockstep says -/

theorem Lockstep.returned (h : Lockstep R m m' s t) {a : α} {s' : σ} (hr : (m s).returned = some (a, s')) :
    ∃ b t', (m' t).returned = some (b, t') ∧ R a s' b t' := by
  rw [Lockstep, hr] at h
  generalize (m' t).returned = o at h
  cases h with
  | some hR => exact ⟨_, _, rfl, hR⟩

theorem Lockstep.swap (h : Lockstep R m m' s t) : Lockstep (fun b t' a s' => R a s' b t') m' m t s := by
  rw [Lockstep] at h ⊢
  generalize (m s).returned = o at h ⊢
  generalize (m' t).returned = o' at h ⊢
  cases h with
  | some hR => exact .some hR
  | none => exact .none

theorem Lockstep.both {n : Prog υ γ} {u : υ} {S : α → σ → γ → υ → Prop} (h : Lockstep R m m' s t)
    (h' : Lockstep S m n s u) : Lockstep (fun b t' c u' => ∃ a s', R a s' b t' ∧ S a s' c u') m' n t u := by
  rw [Lockstep] at h h' ⊢
  generalize (m s).returned = o at h h'
  generalize (m' t).returned = o1 at h ⊢
  generalize (n u).returned = o2 at h' ⊢
  cases h with
  | some hR =>
    cases h' with
    | some hS => exact .some ⟨_, _, hR, hS⟩
  | none =>
    cases h'
    exact .none

/-! ## The rules -/

theorem Lockstep.mono (h : Lockstep R m m' s t) (hR : ∀ a s' b t', R a s' b t' → R' a s' b t') :
    Lockstep R' m m' s t := by
  rw [Lockstep] at h ⊢
  generalize (m s).returned = o at h ⊢
  generalize (m' t).returned = o' at h ⊢
  cases h with
  | some h => exact .some (hR _ _ _ _ h)
  | none => exact .none

theorem Lockstep.knowing (h : Lockstep R m m' s t) {Q : α → σ → Prop} (hQ : wlp m Q s) :
    Lockstep (fun a s' b t' => Q a s' ∧ R a s' b t') m m' s t := by
  have hQ : ∀ p, (m s).returned = some p → Q p.1 p.2 := fun p hp => hQ.of_returned hp
  rw [Lockstep] at h ⊢
  generalize (m s).returned = o at h hQ ⊢
  generalize (m' t).returned = o' at h ⊢
  cases h with
  | some hR => exact .some ⟨hQ _ rfl, hR⟩
  | none => exact .none

theorem Lockstep.pure {a : α} {b : β} (h : R a s b t) : Lockstep R (Pure.pure a) (Pure.pure b) s t := .some h

theorem Lockstep.bind {S : α₁ → σ → β₁ → τ → Prop} (h : Lockstep R m m' s t)
    (hf : ∀ a s' b t', R a s' b t' → Lockstep S (f a) (f' b) s' t') : Lockstep S (m >>= f) (m' >>= f') s t := by
  rw [Lockstep] at h ⊢
  rw [returned_bind_eq, returned_bind_eq]
  generalize (m s).returned = o at h ⊢
  generalize (m' t).returned = o' at h ⊢
  cases h with
  | some hR => exact hf _ _ _ _ hR
  | none => exact .none

theorem Lockstep.read {f : σ → Prog σ α} {f' : τ → Prog τ β} (h : Lockstep R (f s) (f' t) s t) :
    Lockstep R (Prog.read >>= f) (Prog.read >>= f') s t :=
  Lockstep.bind (R := fun a s' b t' => a = s ∧ s' = s ∧ b = t ∧ t' = t) (.some ⟨rfl, rfl, rfl, rfl⟩) (by
    rintro _ _ _ _ ⟨rfl, rfl, rfl, rfl⟩
    exact h)

theorem Lockstep.step_left {S : α₁ → σ → β → τ → Prop} {a : α} {s' : σ} (hm : (m s).returned = some (a, s'))
    (h : Lockstep S (f a) m' s' t) : Lockstep S (m >>= f) m' s t := by
  rw [Lockstep, returned_bind_eq, hm]
  exact h

theorem Lockstep.step_right {S : α → σ → β₁ → τ → Prop} {b : β} {t' : τ}
    (hm : (m' t).returned = some (b, t')) (h : Lockstep S m (f' b) s t') : Lockstep S m (m' >>= f') s t :=
  (h.swap.step_left hm).swap

theorem Lockstep.then_right {S : α → σ → β₁ → τ → Prop} (h : Lockstep R m m' s t)
    (hf : ∀ a s' b t', R a s' b t' → ∃ c t'', (f' b t').returned = some (c, t'') ∧ S a s' c t'') :
    Lockstep S m (m' >>= f') s t := by
  rw [Lockstep] at h ⊢
  rw [returned_bind_eq]
  generalize (m s).returned = o at h ⊢
  generalize (m' t).returned = o' at h ⊢
  cases h with
  | some hR =>
    obtain ⟨c, t'', hret, hS⟩ := hf _ _ _ _ hR
    rw [Option.bind_some, hret]
    exact .some hS
  | none => exact .none

theorem Lockstep.modify {f : σ → σ} {f' : τ → τ} {R : Unit → σ → Unit → τ → Prop} (h : R () (f s) () (f' t)) :
    Lockstep R (Prog.modify f) (Prog.modify f') s t := .some h

theorem Lockstep.call {f : σ → α × σ} {f' : τ → β × τ} (h : R (f s).1 (f s).2 (f' t).1 (f' t).2) :
    Lockstep R (Prog.call f) (Prog.call f') s t := .some h

theorem Lockstep.assert {p p' : Prop} [Decidable p] [Decidable p'] {R : Unit → σ → Unit → τ → Prop} (hp : p ↔ p')
    (h : p → R () s () t) : Lockstep R (Prog.assert p) (Prog.assert p') s t := by
  rw [Lockstep, Prog.assert, Prog.assert]
  by_cases hc : p
  · rw [if_pos hc, if_pos (hp.1 hc)]
    exact .some (h hc)
  · rw [if_neg hc, if_neg fun hc' => hc (hp.2 hc')]
    exact .none

theorem Lockstep.ite {n : Prog σ α} {n' : Prog τ β} {p p' : Prop} [Decidable p] [Decidable p'] (hp : p ↔ p')
    (h : p → Lockstep R m m' s t) (hn : ¬ p → Lockstep R n n' s t) :
    Lockstep R (if p then m else n) (if p' then m' else n') s t := by
  by_cases hc : p
  · rw [if_pos hc, if_pos (hp.1 hc)]
    exact h hc
  · rw [if_neg hc, if_neg fun hc' => hc (hp.2 hc')]
    exact hn hc

theorem Lockstep.same {m : Prog σ α} {R : α → σ → α → σ → Prop} (h : ∀ a s', R a s' a s') : Lockstep R m m s s := by
  rw [Lockstep]
  generalize (m s).returned = o
  cases o with
  | none => exact .none
  | some p => exact .some (h _ _)

theorem Lockstep.zoom {view : σ → σ₁} {put : σ₁ → σ → σ} {view' : τ → τ₁} {put' : τ₁ → τ → τ} {n : Prog σ₁ α}
    {n' : Prog τ₁ β} (h : Lockstep (fun a s1 b t1 => R a (put s1 s) b (put' t1 t)) n n' (view s) (view' t)) :
    Lockstep R (Prog.zoom view put n) (Prog.zoom view' put' n') s t := by
  rw [Lockstep] at h ⊢
  rw [returned_zoom_eq, returned_zoom_eq]
  generalize (n (view s)).returned = o at h ⊢
  generalize (n' (view' t)).returned = o' at h ⊢
  cases h with
  | some hR => exact .some hR
  | none => exact .none

end ProgLogic.Prog
