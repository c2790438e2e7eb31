import Mathlib.Control.Monad.Basic
import Mathlib.Logic.Function.Basic

/-!
# Programs that log, fault and change a state

`Prog σ α` runs from a state `σ` and returns a value and a new state, or stops at a fault, and reports whether a warning
was logged. `wp m Q s`: if `m` logs no warning from `s`, it returns and `Q` holds. `wlp` allows a fault.
-/

namespace ProgLogic

/-- How a call can fail to return. -/
inductive Fault where
  | assertion
  | hang
  deriving DecidableEq, Repr

/-- What one call does: whether it logged a warning, and its result. -/
structure Outcome (α : Type) where
  warned : Bool
  result : Except Fault α

def Prog (σ α : Type) := σ → Outcome (α × σ)

def Outcome.returned {α : Type} (o : Outcome α) : Option α :=
  match o with
  | ⟨false, .ok a⟩ => some a
  | _ => none

theorem Outcome.returned_eq_some {α : Type} {o : Outcome α} {a : α} :
    o.returned = some a ↔ o.warned = false ∧ o.result = .ok a := by
  rcases o with ⟨w, e | b⟩
  · cases w <;> simp [Outcome.returned]
  · cases w <;> simp [Outcome.returned]

theorem Outcome.toOption_eq_some {α : Type} {o : Outcome α} {a : α} : o.result.toOption = some a ↔
    o.result = .ok a := by
  cases o.result with
  | error e => simp [Except.toOption]
  | ok b => simp [Except.toOption]

def Outcome.fault {α : Type} (o : Outcome α) : Option Fault :=
  match o.result with
  | .error e => some e
  | .ok _ => none

namespace Prog

variable {σ τ α β : Type} {m n : Prog σ α} {f : α → Prog σ β} {a : α} {s s' : σ} {Q R : α → σ → Prop} {P : β → σ → Prop}
variable {view : σ → τ} {put : τ → σ → σ} {m' : Prog τ α} {p : Prop} {g : σ → σ}

def andThen (m : Prog σ α) (f : α → Prog σ β) : Prog σ β := fun s =>
  match m s with
  | ⟨w, .error e⟩ => ⟨w, .error e⟩
  | ⟨w, .ok (a, s')⟩ =>
    match f a s' with
    | ⟨w', r⟩ => ⟨w || w', r⟩

instance : Monad (Prog σ) where
  pure a := fun s => ⟨false, .ok (a, s)⟩
  bind := andThen

/-- `log_assert` of a build with assertions: it aborts. In the default Release build it is void. -/
def assert (p : Prop) [Decidable p] : Prog σ Unit := fun s =>
  if p then ⟨false, .ok ((), s)⟩ else ⟨false, .error .assertion⟩

def ofOption : Option α → Prog σ α
  | some a => pure a
  | none => fun _ => ⟨false, .error .hang⟩

def warn : Prog σ Unit := fun s => ⟨true, .ok ((), s)⟩

def read : Prog σ σ := fun s => ⟨false, .ok (s, s)⟩

def modify (f : σ → σ) : Prog σ Unit := fun s => ⟨false, .ok ((), f s)⟩

def call (f : σ → α × σ) : Prog σ α := fun s => ⟨false, .ok (f s)⟩

def zoom (view : σ → τ) (put : τ → σ → σ) (m : Prog τ α) : Prog σ α := fun s =>
  match m (view s) with
  | ⟨w, .error e⟩ => ⟨w, .error e⟩
  | ⟨w, .ok (a, t)⟩ => ⟨w, .ok (a, put t s)⟩

/-! ## Preconditions -/

def wp (m : Prog σ α) (Q : α → σ → Prop) (s : σ) : Prop :=
  (m s).warned = false → ∃ a s', (m s).result = .ok (a, s') ∧ Q a s'

def wlp (m : Prog σ α) (Q : α → σ → Prop) (s : σ) : Prop :=
  (m s).warned = false → ∀ a s', (m s).result = .ok (a, s') → Q a s'

/-! ### What a sequence and a component report and return -/

theorem result_bind {b : β} : ((m >>= f) s).result = .ok (b, s') ↔
    ∃ a t, (m s).result = .ok (a, t) ∧ (f a t).result = .ok (b, s') := by
  show (andThen m f s).result = .ok (b, s') ↔ _
  unfold andThen
  rcases m s with ⟨w, e | ⟨a, t⟩⟩ <;> simp [and_assoc]

theorem warned_bind : ((m >>= f) s).warned = false ↔
    (m s).warned = false ∧ ∀ a t, (m s).result = .ok (a, t) → (f a t).warned = false := by
  show (andThen m f s).warned = false ↔ _
  unfold andThen
  rcases m s with ⟨w, e | ⟨a, t⟩⟩ <;> simp

theorem result_zoom : (zoom view put m' s).result = .ok (a, s') ↔
    ∃ t, (m' (view s)).result = .ok (a, t) ∧ put t s = s' := by
  unfold zoom
  rcases m' (view s) with ⟨w, e | ⟨b, t⟩⟩ <;> simp [and_assoc]

theorem warned_zoom : (zoom view put m' s).warned = (m' (view s)).warned := by
  unfold zoom
  rcases m' (view s) with ⟨w, e | ⟨b, t⟩⟩ <;> rfl

theorem returned_bind {r : β × σ} :
    ((m >>= f) s).returned = some r ↔ ∃ a s', (m s).returned = some (a, s') ∧ (f a s').returned = some r := by
  obtain ⟨b, t⟩ := r
  simp only [Outcome.returned_eq_some, warned_bind, result_bind]
  grind

theorem returned_zoom :
    (zoom view put m' s).returned = some (a, s') ↔ ∃ t, (m' (view s)).returned = some (a, t) ∧ put t s = s' := by
  simp only [Outcome.returned_eq_some, warned_zoom, result_zoom]
  grind

theorem assert_pos [Decidable p] (h : p) : assert p s = ⟨false, .ok ((), s)⟩ := if_pos h

/-! ### Total correctness -/

theorem wp.mono (h : wp m Q s) (hQ : ∀ a s', Q a s' → R a s') : wp m R s := by
  intro hw
  obtain ⟨a, s', hr, hq⟩ := h hw
  exact ⟨a, s', hr, hQ a s' hq⟩

theorem wp_of_eq (h : m s = ⟨false, .ok (a, s')⟩) : wp m Q s ↔ Q a s' := by
  simp [wp, h, and_assoc]

@[simp] theorem wp_pure : wp (pure a) Q s ↔ Q a s := wp_of_eq rfl

@[simp] theorem wp_bind : wp (m >>= f) P s ↔ wp m (fun a => wp (f a) P) s := by
  simp only [wp, warned_bind, result_bind]
  rcases m s with ⟨w, e | ⟨a, t⟩⟩ <;> simp [and_assoc]

theorem wp.bind (h : wp m Q s) (hf : ∀ a s', Q a s' → wp (f a) P s') : wp (m >>= f) P s := by
  rw [wp_bind]
  exact h.mono hf

@[simp] theorem wp_read {Q : σ → σ → Prop} : wp read Q s ↔ Q s s := wp_of_eq rfl

@[simp] theorem wp_modify {Q : Unit → σ → Prop} : wp (modify g) Q s ↔ Q () (g s) := wp_of_eq rfl

@[simp] theorem wp_call {g : σ → α × σ} : wp (call g) Q s ↔ Q (g s).1 (g s).2 := wp_of_eq rfl

@[simp] theorem wp_warn {Q : Unit → σ → Prop} : wp warn Q s := by
  simp [wp, warn]

@[simp] theorem wp_assert [Decidable p] {Q : Unit → σ → Prop} : wp (assert p) Q s ↔ p ∧ Q () s := by
  by_cases h : p
  · simp [wp_of_eq (assert_pos h), h]
  · simp [wp, assert, h]

@[simp] theorem wp_ofOption_some : wp (ofOption (some a)) Q s ↔ Q a s := wp_pure

@[simp] theorem wp_zoom : wp (zoom view put m') Q s ↔ wp m' (fun a t => Q a (put t s)) (view s) := by
  simp only [wp, warned_zoom, result_zoom]
  grind

/-! ### Partial correctness -/

theorem wlp.mono (h : wlp m Q s) (hQ : ∀ a s', Q a s' → R a s') : wlp m R s :=
  fun hw a s' hr => hQ a s' (h hw a s' hr)

theorem wp.wlp (h : wp m Q s) : wlp m Q s := by
  intro hw a s' hr
  obtain ⟨b, t, hr', hq⟩ := h hw
  rw [hr] at hr'
  cases hr'
  exact hq

theorem wlp_true : wlp m (fun _ _ => True) s := fun _ _ _ _ => trivial

theorem wlp.and (hQ : wlp m Q s) (hR : wlp m R s) : wlp m (fun a s' => Q a s' ∧ R a s') s :=
  fun hw a s' hr => ⟨hQ hw a s' hr, hR hw a s' hr⟩

theorem wlp.of_returned (h : wlp m Q s) (hr : (m s).returned = some (a, s')) : Q a s' := by
  obtain ⟨hw, hres⟩ := Outcome.returned_eq_some.1 hr
  exact h hw a s' hres

theorem wlp.total (h : wlp m Q s) (hr : wp m (fun _ _ => True) s) : wp m Q s := by
  intro hw
  obtain ⟨a, s', hr, -⟩ := hr hw
  exact ⟨a, s', hr, h hw a s' hr⟩

theorem wlp_of_eq (h : m s = ⟨false, .ok (a, s')⟩) : wlp m Q s ↔ Q a s' := by
  simp [wlp, h]

@[simp] theorem wlp_pure : wlp (pure a) Q s ↔ Q a s := wlp_of_eq rfl

@[simp] theorem wlp_read {Q : σ → σ → Prop} : wlp read Q s ↔ Q s s := wlp_of_eq rfl

@[simp] theorem wlp_modify {Q : Unit → σ → Prop} : wlp (modify g) Q s ↔ Q () (g s) := wlp_of_eq rfl

@[simp] theorem wlp_call {g : σ → α × σ} : wlp (call g) Q s ↔ Q (g s).1 (g s).2 := wlp_of_eq rfl

@[simp] theorem wlp_assert [Decidable p] {Q : Unit → σ → Prop} : wlp (assert p) Q s ↔ (p → Q () s) := by
  by_cases h : p
  · simp [wlp_of_eq (assert_pos h), h]
  · simp [wlp, assert, h]

@[simp] theorem wlp_ofOption {o : Option α} : wlp (ofOption o) Q s ↔ ∀ a, o = some a → Q a s := by
  cases o with
  | none => simp [wlp, ofOption]
  | some a => simp [ofOption]

@[simp] theorem wlp_bind : wlp (m >>= f) P s ↔ wlp m (fun a => wlp (f a) P) s := by
  simp only [wlp, warned_bind, result_bind]
  rcases m s with ⟨w, e | ⟨a, t⟩⟩ <;> simp

@[simp] theorem wlp_zoom : wlp (zoom view put m') Q s ↔ wlp m' (fun a t => Q a (put t s)) (view s) := by
  simp only [wlp, warned_zoom, result_zoom]
  grind

/-! ## Results -/

def Yields (m : Prog σ α) (P : α → Prop) : Prop := ∀ s, wlp m (fun a _ => P a) s

section

variable {P : α → Prop} {R : β → Prop}

theorem yields_pure (h : P a) : Yields (pure a : Prog σ α) P := fun _ => wlp_pure.2 h

theorem yields_none : Yields (ofOption none : Prog σ α) P := fun _ => wlp_ofOption.2 (by simp)

theorem Yields.bind (h : Yields m P) (hf : ∀ a, P a → Yields (f a) R) : Yields (m >>= f) R :=
  fun s => wlp_bind.2 ((h s).mono fun a t ha => hf a ha t)

theorem yields_then (hf : ∀ a, Yields (f a) R) : Yields (m >>= f) R :=
  fun _ => wlp_bind.2 (wlp_true.mono fun a t _ => hf a t)

theorem Yields.zoom (h : Yields m' P) : Yields (zoom view put m' : Prog σ α) P := fun s => wlp_zoom.2 (h (view s))

theorem yields_ite [Decidable p] (hm : p → Yields m P) (hn : ¬ p → Yields n P) : Yields (if p then m else n) P := by
  split
  case isTrue h => exact hm h
  case isFalse h => exact hn h

end

/-! ## Programs without warnings -/

def Silent (m : Prog σ α) : Prop := ∀ s, (m s).warned = false

theorem silent_pure : Silent (pure a : Prog σ α) := fun _ => rfl

theorem silent_read : Silent (read : Prog σ σ) := fun _ => rfl

theorem silent_modify : Silent (modify g) := fun _ => rfl

theorem silent_assert [Decidable p] : Silent (assert p : Prog σ Unit) := by
  intro s
  unfold assert
  split <;> rfl

theorem silent_ofOption {o : Option α} : Silent (ofOption o : Prog σ α) := by
  cases o with
  | none => exact fun _ => rfl
  | some a => exact silent_pure

theorem Silent.bind (hm : Silent m) (hf : ∀ a, Silent (f a)) : Silent (m >>= f) :=
  fun s => warned_bind.2 ⟨hm s, fun a t _ => hf a t⟩

theorem silent_ite [Decidable p] (hm : Silent m) (hn : Silent n) : Silent (if p then m else n) := by
  split
  · exact hm
  · exact hn

theorem Silent.zoom (hm : Silent m') : Silent (zoom view put m' : Prog σ α) := fun s => warned_zoom.trans (hm (view s))

/-! ## Warnings -/

def ends (m : Prog σ α) (Q : Bool → α → σ → Prop) (s : σ) : Prop :=
  ∃ a s', (m s).result = .ok (a, s') ∧ Q (m s).warned a s'

def warns (m : Prog σ α) (Q : α → σ → Prop) (s : σ) : Prop :=
  (m s).warned = true → ∃ a s', (m s).result = .ok (a, s') ∧ Q a s'

section

variable {Q R : Bool → α → σ → Prop} {P : Bool → β → σ → Prop}

theorem ends.mono (h : ends m Q s) (hQ : ∀ w a s', Q w a s' → R w a s') : ends m R s := by
  obtain ⟨a, s', hr, hq⟩ := h
  exact ⟨a, s', hr, hQ _ a s' hq⟩

theorem ends.returns {Q : α → σ → Prop} (h : ends m (fun w a s' => w = false ∧ Q a s') s) :
    ∃ a s', (m s).returned = some (a, s') ∧ Q a s' := by
  obtain ⟨a, s', hr, hw, hq⟩ := h
  exact ⟨a, s', Outcome.returned_eq_some.2 ⟨hw, hr⟩, hq⟩

theorem wp.ends {Q : α → σ → Prop} (h : wp m Q s) (hm : Silent m) : ends m (fun w a s' => w = false ∧ Q a s') s := by
  obtain ⟨a, s', hr, hq⟩ := h (hm s)
  exact ⟨a, s', hr, hm s, hq⟩

theorem wp.returns {Q : α → σ → Prop} (h : wp m Q s) (hm : Silent m) : ∃ a s', (m s).returned = some (a, s') ∧ Q a s' :=
  (h.ends hm).returns

theorem ends_of_eq {w : Bool} (h : m s = ⟨w, .ok (a, s')⟩) : Prog.ends m Q s ↔ Q w a s' := by
  simp [Prog.ends, h, and_assoc]

@[simp] theorem ends_pure : Prog.ends (pure a) Q s ↔ Q false a s := ends_of_eq rfl

@[simp] theorem ends_read {Q : Bool → σ → σ → Prop} : Prog.ends read Q s ↔ Q false s s := ends_of_eq rfl

@[simp] theorem ends_modify {Q : Bool → Unit → σ → Prop} : Prog.ends (modify g) Q s ↔ Q false () (g s) :=
  ends_of_eq rfl

@[simp] theorem ends_bind :
    Prog.ends (m >>= f) P s ↔ Prog.ends m (fun w a => Prog.ends (f a) fun w' => P (w || w')) s := by
  show Prog.ends (andThen m f) P s ↔ _
  unfold Prog.ends andThen
  rcases m s with ⟨w, e | ⟨a, t⟩⟩ <;> simp [and_assoc]

@[simp] theorem ends_zoom : Prog.ends (zoom view put m') Q s ↔ Prog.ends m' (fun w a t => Q w a (put t s))
    (view s) := by
  simp only [Prog.ends, warned_zoom, result_zoom]
  grind

theorem wp.ends_bind {Q : α → σ → Prop} (h : wp m Q s) (hm : Silent m) (hf : ∀ a s', Q a s' → Prog.ends (f a) P s') :
    Prog.ends (m >>= f) P s := by
  rw [Prog.ends_bind]
  refine (h.ends hm).mono ?_
  rintro w a s' ⟨rfl, hp⟩
  simpa only [Bool.false_or] using hf a s' hp

end

theorem warns.mono (h : warns m Q s) (hQ : ∀ a s', Q a s' → R a s') : warns m R s := by
  intro hw
  obtain ⟨a, s', hr, hq⟩ := h hw
  exact ⟨a, s', hr, hQ a s' hq⟩

theorem Silent.warns (hm : Silent m) : warns m Q s := by
  intro hw
  rw [hm s] at hw
  cases hw

theorem warns.bind (hm : Prog.warns m (fun a s' => Prog.ends (f a) (fun _ => P) s') s) (hn : wlp m Q s)
    (hf : ∀ a s', Q a s' → Prog.warns (f a) P s') : Prog.warns (m >>= f) P s := by
  show Prog.warns (andThen m f) P s
  unfold Prog.warns andThen
  unfold Prog.warns at hm
  unfold Prog.wlp at hn
  rcases hr : m s with ⟨w, e | ⟨a, s'⟩⟩
  · intro hw
    rw [hr] at hm
    obtain ⟨a, s', he, -⟩ := hm hw
    cases he
  · rw [hr] at hm hn
    intro hw
    cases w with
    | true =>
      obtain ⟨b, t, he, hends⟩ := hm rfl
      cases he
      exact hends
    | false => exact hf a s' (hn rfl a s' rfl) hw

theorem warns.seq (hm : Prog.warns m (fun a s' => Prog.ends (f a) (fun _ => P) s') s)
    (hf : ∀ a s', Prog.warns (f a) P s') : Prog.warns (m >>= f) P s :=
  .bind hm wlp_true fun a s' _ => hf a s'

theorem wp.warns_bind (h : wp m Q s) (hm : Silent m) (hf : ∀ a s', Q a s' → Prog.warns (f a) P s') :
    Prog.warns (m >>= f) P s :=
  .bind hm.warns h.wlp hf

theorem bind_of_eq (h : m s = ⟨false, .ok (a, s')⟩) : (m >>= f) s = f a s' := by
  show andThen m f s = _
  simp [andThen, h]

theorem wp.bind_eq (h : wp m Q s) (hm : Silent m) : ∃ a s', Q a s' ∧ ∀ f : α → Prog σ β, (m >>= f) s = f a s' := by
  obtain ⟨a, s', hr, hq⟩ := h (hm s)
  have hms : m s = ⟨false, .ok (a, s')⟩ := by rw [← hm s, ← hr]
  exact ⟨a, s', hq, fun f => bind_of_eq hms⟩

theorem wp_congr {t : σ} (h : m s = n t) : wp m Q s ↔ wp n Q t := by
  rw [wp, wp, h]

theorem warns_bind_of_eq (h : m s = ⟨false, .ok (a, s')⟩) : Prog.warns (m >>= f) P s ↔ Prog.warns (f a) P s' := by
  rw [Prog.warns, Prog.warns, bind_of_eq h]

@[simp] theorem warns_read {f : σ → Prog σ β} : Prog.warns (read >>= f) P s ↔ Prog.warns (f s) P s :=
    warns_bind_of_eq rfl

@[simp] theorem warns_modify {f : Unit → Prog σ β} :
    Prog.warns (modify g >>= f) P s ↔ Prog.warns (f ()) P (g s) := warns_bind_of_eq rfl

@[simp] theorem warns_some : Prog.warns (ofOption (some a) >>= f) P s ↔ Prog.warns (f a) P s := warns_bind_of_eq rfl

theorem warns_assert [Decidable p] {f : Unit → Prog σ β} (hp : p) :
    Prog.warns (assert p >>= f) P s ↔ Prog.warns (f ()) P s := warns_bind_of_eq (assert_pos hp)

@[simp] theorem warns_zoom : Prog.warns (zoom view put m') Q s ↔ Prog.warns m' (fun a t => Q a (put t s)) (view s) := by
  simp only [Prog.warns, warned_zoom, result_zoom]
  grind

/-! ## Calls without warnings -/

def quiet (m : Prog σ α) (Q : α → σ → Prop) (s : σ) : Prop :=
  (m s).warned = false ∧ ∀ a s', (m s).result = .ok (a, s') → Q a s'

theorem quiet.mono (h : quiet m Q s) (hQ : ∀ a s', Q a s' → R a s') : quiet m R s :=
  ⟨h.1, fun a s' hr => hQ a s' (h.2 a s' hr)⟩

theorem quiet.and (h : quiet m Q s) (hR : wlp m R s) : quiet m (fun a s' => Q a s' ∧ R a s') s :=
  ⟨h.1, fun a s' hr => ⟨h.2 a s' hr, hR h.1 a s' hr⟩⟩

/-- **A correct call without a warning returns.** -/
theorem quiet.returns (h : quiet m Q s) (hR : wp m R s) : ∃ a s', (m s).returned = some (a, s') ∧ Q a s' ∧ R a s' := by
  obtain ⟨a, s', hr, hq⟩ := hR h.1
  exact ⟨a, s', Outcome.returned_eq_some.2 ⟨h.1, hr⟩, h.2 a s' hr, hq⟩

theorem quiet_of_eq (h : m s = ⟨false, .ok (a, s')⟩) : Prog.quiet m Q s ↔ Q a s' := by
  simp [Prog.quiet, h]

@[simp] theorem quiet_pure : Prog.quiet (pure a) Q s ↔ Q a s := quiet_of_eq rfl

@[simp] theorem quiet_read {Q : σ → σ → Prop} : Prog.quiet read Q s ↔ Q s s := quiet_of_eq rfl

@[simp] theorem quiet_modify {Q : Unit → σ → Prop} : Prog.quiet (modify g) Q s ↔ Q () (g s) := quiet_of_eq rfl

@[simp] theorem quiet_assert [Decidable p] {Q : Unit → σ → Prop} :
    Prog.quiet (assert p) Q s ↔ (p → Q () s) := by
  by_cases h : p
  · simp [quiet_of_eq (assert_pos h), h]
  · simp [Prog.quiet, assert, h]

@[simp] theorem quiet_ofOption {o : Option α} : Prog.quiet (ofOption o) Q s ↔ ∀ a, o = some a → Q a s := by
  cases o with
  | none => simp [Prog.quiet, ofOption]
  | some a => simp [ofOption]

@[simp] theorem quiet_bind : Prog.quiet (m >>= f) P s ↔ Prog.quiet m (fun a => Prog.quiet (f a) P) s := by
  simp only [Prog.quiet, warned_bind, result_bind]
  grind

@[simp] theorem quiet_zoom : Prog.quiet (zoom view put m') Q s ↔ Prog.quiet m' (fun a t => Q a (put t s)) (view s) := by
  simp only [Prog.quiet, warned_zoom, result_zoom]
  grind

theorem quiet.bind (h : Prog.quiet m Q s) (hf : ∀ a s', Q a s' → Prog.quiet (f a) P s') : Prog.quiet (m >>= f) P s :=
  Prog.quiet_bind.2 (h.mono hf)

end Prog

/-! ## Checking an answer

What holds of the value that a call returns, or of one pair of a list, is checked by computing it. -/

section Checking

variable {α β : Type} {P : α → Prop} {R : α → β → Prop}

instance decidableExistsSome {o : Option α} [DecidablePred P] : Decidable (∃ a, o = some a ∧ P a) :=
  decidable_of_iff (o.any (fun a => decide (P a)) = true) (by simp [Option.any_eq_true])

instance decidableExistsPair {o : Option (α × β)} [∀ a b, Decidable (R a b)] :
    Decidable (∃ a b, o = some (a, b) ∧ R a b) :=
  decidable_of_iff (∃ r, o = some r ∧ R r.1 r.2) (by simp)

instance decidableExistsAnswer {o : Option (α × β)} {a : α} {P : β → Prop} [DecidableEq α] [DecidablePred P] :
    Decidable (∃ b, o = some (a, b) ∧ P b) :=
  decidable_of_iff (∃ r, o = some r ∧ r.1 = a ∧ P r.2) (by simp only [Prod.exists]; grind)

instance decidableReturns {o : Option (α × β)} {a : α} [DecidableEq α] : Decidable (∃ b, o = some (a, b)) :=
  decidable_of_iff (∃ b, o = some (a, b) ∧ True) (by simp)

instance decidableExistsEntry {l : List (α × β)} [∀ a b, Decidable (R a b)] : Decidable (∃ a b, (a, b) ∈ l ∧ R a b) :=
  decidable_of_iff (∃ r ∈ l, R r.1 r.2) (by simp)

end Checking

end ProgLogic
