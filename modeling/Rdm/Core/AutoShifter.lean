import Mathlib.Algebra.Order.Field.Basic
import Mathlib.Algebra.Order.Field.Rat
import Mathlib.Data.Nat.Cast.Order.Field
import Mathlib.Data.Rat.Cast.Defs
import Rdm.Core.ProductStore

/-!
# When to switch the transfer mode

`AutoShifter` keeps the outcomes of the calls since its last evaluation. `windows` cuts the calls where one comes at
least two intervals after the last cut.
-/

namespace Rdm

structure ShiftEntry where
  time : Int
  wasAccepted : Int
deriving DecidableEq

structure AutoShifter where
  queue : List ShiftEntry
  prevCompTime : Int
  ldmCount : Nat
  isPrimary : Bool
  shouldSwitch : Bool
  interval : Rat

namespace AutoShifter

open List

variable {s : AutoShifter} {now : Int} {c : ShiftEntry} {calls pending : List ShiftEntry}

def resetInternal (now : Int) (s : AutoShifter) : AutoShifter :=
  { s with prevCompTime := now, shouldSwitch := false, queue := [] }

def accepted (entries : List ShiftEntry) : Nat := entries.countP fun e => e.wasAccepted ≠ 0

def rejected (entries : List ShiftEntry) : Nat := entries.countP fun e => e.wasAccepted = 0

def compare (ldmCount : Nat) (isPrimary : Bool) (entries : List ShiftEntry) : Bool :=
  let acceptedCount : Nat := accepted entries % 2 ^ 32
  let rejectedCount : Nat := rejected entries % 2 ^ 32
  if (acceptedCount + rejectedCount) % 2 ^ 32 = 0 then false
  else
    let rejectedMean : Rat := rejectedCount / (ldmCount - 1 : Nat)
    if isPrimary then acceptedCount ≤ rejectedMean else rejectedMean ≤ acceptedCount

def due (interval : Rat) (prev now : Int) : Bool := ¬((now - prev : Int) : Rat) < 2 * interval

def process (c : ShiftEntry) (stored : Bool) (s : AutoShifter) : Int × AutoShifter :=
  if s.ldmCount ≤ 1 then (0, s)
  else if stored = false then (ENOMEM, s)
  else
    let queue := (s.queue ++ [c]).dropWhile (·.time ≤ s.prevCompTime)
    if due s.interval s.prevCompTime c.time then
      (0, { s with queue := queue, shouldSwitch := compare s.ldmCount s.isPrimary queue, prevCompTime := c.time })
    else (0, { s with queue := queue, shouldSwitch := false })

def getShouldSwitch (s : AutoShifter) : Bool := if s.ldmCount = 1 then !s.isPrimary else s.shouldSwitch

def run : List ShiftEntry → AutoShifter → List (List ShiftEntry × Bool)
  | [], _ => []
  | c :: calls, s =>
    let s' := (process c true s).2
    if due s.interval s.prevCompTime c.time then (s'.queue, s'.getShouldSwitch) :: run calls s' else run calls s'

/-! ## Windows -/

/-- **The calls cut into windows**, and the ones that no evaluation has counted yet. -/
def windows (interval : Rat) (prev : Int) (pending : List ShiftEntry) : List ShiftEntry →
    List (List ShiftEntry) × List ShiftEntry
  | [] => ([], pending)
  | c :: calls =>
    if due interval prev c.time then
      let (ws, rest) := windows interval c.time [] calls
      ((pending ++ [c]) :: ws, rest)
    else windows interval prev (pending ++ [c]) calls

theorem flatten_windows (interval : Rat) (prev : Int) (pending calls : List ShiftEntry) :
    (windows interval prev pending calls).1.flatten ++ (windows interval prev pending calls).2 = pending ++ calls := by
  induction calls generalizing prev pending with
  | nil => simp [windows]
  | cons c calls ih =>
    rw [windows]
    split
    · simp [ih]
    · simp [ih]

theorem windows_ne_nil {interval : Rat} {prev : Int} {w : List ShiftEntry}
    (h : w ∈ (windows interval prev pending calls).1) : w ≠ [] := by
  induction calls generalizing prev pending with
  | nil => cases h
  | cons c calls ih =>
    rw [windows] at h
    split at h
    · rcases mem_cons.1 h with rfl | h
      · simp
      · exact ih h
    · exact ih h

def Holds (s : AutoShifter) (pending : List ShiftEntry) : Prop :=
  ∃ old, s.queue = old ++ pending ∧ (∀ e ∈ old, e.time ≤ s.prevCompTime) ∧ ∀ e ∈ pending, s.prevCompTime < e.time

/-- **A call drops the entries that were evaluated** and no others. -/
theorem Holds.trimmed (h : s.Holds pending) (hc : s.prevCompTime < c.time) :
    (s.queue ++ [c]).dropWhile (·.time ≤ s.prevCompTime) = pending ++ [c] := by
  obtain ⟨old, hq, hold, hnew⟩ := h
  rw [hq, append_assoc, dropWhile_append_of_pos (by simpa using hold)]
  cases pending with
  | nil => simp [hc]
  | cons e pending => simp [hnew e]

theorem run_windows (hn : 2 ≤ s.ldmCount) (h : s.Holds pending) (hinc : (calls.map (·.time)).Pairwise (· < ·))
    (hlater : ∀ c ∈ calls, s.prevCompTime < c.time ∧ ∀ e ∈ pending, e.time < c.time) : run calls s =
      (windows s.interval s.prevCompTime pending calls).1.map fun w => (w, compare s.ldmCount s.isPrimary w) := by
  induction calls generalizing s pending with
  | nil => rfl
  | cons c calls ih =>
    obtain ⟨hc, hrest⟩ := pairwise_cons.1 hinc
    have hnow := hlater c mem_cons_self
    have htrim := h.trimmed hnow.1
    have hnew : ∀ e ∈ pending ++ [c], s.prevCompTime < e.time ∧ e.time ≤ c.time := by
      obtain ⟨_, -, -, hpending⟩ := h
      intro e he
      rcases mem_append.1 he with he | he
      · exact ⟨hpending e he, (hnow.2 e he).le⟩
      · rw [mem_singleton.1 he]
        exact ⟨hnow.1, le_refl _⟩
    have hcount : ¬s.ldmCount ≤ 1 := by omega
    have hone : s.ldmCount ≠ 1 := by omega
    have htimes : ∀ c' ∈ calls, c.time < c'.time := fun c' hc' => hc _ (mem_map_of_mem hc')
    by_cases hdue : due s.interval s.prevCompTime c.time = true
    · -- the window ends here, and its entries stay in the queue until the next call
      have hstep : (process c true s).2 = { s with
          queue := pending ++ [c], prevCompTime := c.time,
          shouldSwitch := compare s.ldmCount s.isPrimary (pending ++ [c]) } := by
        simp [process, hcount, htrim, hdue]
      have hrun := @ih (process c true s).2 []
      rw [hstep] at hrun
      rw [run, windows, if_pos hdue, if_pos hdue, hstep,
        hrun hn ⟨pending ++ [c], by simp, fun e he => (hnew e he).2, by simp⟩ hrest
        fun c' hc' => ⟨htimes c' hc', by simp⟩]
      simp [getShouldSwitch, hone]
    · have hstep : (process c true s).2 = { s with queue := pending ++ [c], shouldSwitch := false } := by
        simp [process, hcount, htrim, hdue]
      have hrun := @ih (process c true s).2 (pending ++ [c])
      rw [hstep] at hrun
      rw [run, windows, if_neg hdue, if_neg hdue, hstep, hrun hn ⟨[], rfl, by simp, fun e he => (hnew e he).1⟩ hrest
        fun c' hc' => ⟨(hlater c' (mem_cons_of_mem _ hc')).1, fun e he => (hnew e he).2.trans_lt (htimes c' hc')⟩]

theorem run_reset (s : AutoShifter) (reset : Int) (hn : 2 ≤ s.ldmCount)
    (hinc : (reset :: calls.map (·.time)).Pairwise (· < ·)) : run calls (s.resetInternal reset) =
      (windows s.interval reset [] calls).1.map fun w => (w, compare s.ldmCount s.isPrimary w) := by
  obtain ⟨hafter, hinc⟩ := pairwise_cons.1 hinc
  exact @run_windows (s.resetInternal reset) calls [] hn ⟨[], rfl, by simp, by simp⟩ hinc
    fun c hc => ⟨hafter _ (mem_map_of_mem hc), by simp⟩

/-! ## The comparison -/

def Switches (ldmCount : Nat) (isPrimary : Bool) (w : List ShiftEntry) : Prop :=
  if isPrimary then accepted w * (ldmCount - 1) ≤ rejected w else rejected w ≤ accepted w * (ldmCount - 1)

instance (n : Nat) (isPrimary : Bool) (w : List ShiftEntry) : Decidable (Switches n isPrimary w) :=
  inferInstanceAs (Decidable (if isPrimary then _ ≤ _ else _ ≤ _))

theorem accepted_add_rejected (w : List ShiftEntry) : accepted w + rejected w = w.length := by
  rw [length_eq_countP_add_countP (fun e : ShiftEntry => decide (e.wasAccepted ≠ 0))]
  simp [accepted, rejected]

theorem compare_eq {n : Nat} (hn : 2 ≤ n) (isPrimary : Bool) {w : List ShiftEntry} (hne : w ≠ [])
    (hshort : w.length < 2 ^ 32) : compare n isPrimary w = decide (Switches n isPrimary w) := by
  have hsum := accepted_add_rejected w
  have hpos := length_pos_iff.2 hne
  have hdiv : (0 : Rat) < (n - 1 : Nat) := by exact_mod_cast (by omega : 0 < n - 1)
  rw [compare, Nat.mod_eq_of_lt (by omega : accepted w < 2 ^ 32), Nat.mod_eq_of_lt (by omega : rejected w < 2 ^ 32),
    Nat.mod_eq_of_lt (by omega)]
  simp only
  rw [if_neg (by omega)]
  cases isPrimary
  · simp only [Switches, div_le_iff₀ hdiv]
    norm_cast
  · simp only [Switches, le_div_iff₀ hdiv]
    norm_cast

/-- **Every call is counted once**, in the window that the first evaluation at or after it ends, if no window has
`2 ^ 32` calls. -/
theorem windows_counted (s : AutoShifter) (reset : Int) (calls : List ShiftEntry) (hn : 2 ≤ s.ldmCount)
    (hinc : (reset :: calls.map (·.time)).Pairwise (· < ·))
    (hshort : ∀ w ∈ (windows s.interval reset [] calls).1, w.length < 2 ^ 32) :
    run calls (s.resetInternal reset)
        = (windows s.interval reset [] calls).1.map (fun w => (w, decide (Switches s.ldmCount s.isPrimary w)))
      ∧ (windows s.interval reset [] calls).1.flatten ++ (windows s.interval reset [] calls).2 = calls := by
  refine ⟨(run_reset s reset hn hinc).trans (map_congr_left fun w hw => ?_), flatten_windows ..⟩
  exact congrArg (Prod.mk w) (compare_eq hn _ (windows_ne_nil hw) (hshort w hw))

theorem windows_counted_two : run [⟨1, 1⟩, ⟨3, 0⟩, ⟨4, 0⟩] (resetInternal 0 ⟨[], 0, 2, true, false, 1⟩)
    = [([⟨1, 1⟩, ⟨3, 0⟩], true)] :=
  (windows_counted ⟨[], 0, 2, true, false, 1⟩ 0 [⟨1, 1⟩, ⟨3, 0⟩, ⟨4, 0⟩] (by decide) (by decide)
    (by decide +kernel)).1.trans (by decide +kernel)

/-! ## A window that is too long -/

theorem windows_single {interval : Rat} {prev : Int} (hcalls : ∀ e ∈ calls, due interval prev e.time = false)
    (hc : due interval prev c.time = true) : windows interval prev pending (calls ++ [c]) =
    ([pending ++ calls ++ [c]], []) := by
  induction calls generalizing pending with
  | nil => simp [windows, hc]
  | cons e calls ih =>
    have he := hcalls e mem_cons_self
    simp [windows, he, ih fun e' he' => hcalls e' (mem_cons_of_mem _ he')]

def acceptances (n : Nat) : List ShiftEntry := (List.range n).map fun i : Nat => ⟨i + 1, 1⟩

theorem counts_acceptances (n : Nat) : accepted (acceptances n) = n ∧ rejected (acceptances n) = 0 := by
  simp [accepted, rejected, acceptances, countP_map, Function.comp_def]

theorem increasing_acceptances (n : Nat) : ((0 : Int) :: (acceptances n).map (·.time)).Pairwise (· < ·) := by
  rw [acceptances, map_map, pairwise_cons, pairwise_map]
  refine ⟨?_, pairwise_lt_range.imp fun h => by simpa using h⟩
  simp only [mem_map, Function.comp_apply, forall_exists_index, and_imp]
  rintro _ i - rfl
  omega

theorem windows_acceptances (n : Nat) :
    (windows ((n + 1 : Nat) / 2) 0 [] (acceptances (n + 1))).1 = [acceptances (n + 1)] := by
  have hlast : acceptances (n + 1) = acceptances n ++ [⟨n + 1, 1⟩] := by
    rw [acceptances, range_succ, map_append]
    rfl
  have htwo : 2 * (((n + 1 : Nat) : Rat) / 2) = (n + 1 : Nat) := mul_div_cancel₀ _ (by decide)
  rw [hlast, windows_single]
  · rfl
  · intro e he
    obtain ⟨i, hi, rfl⟩ := mem_map.1 he
    have hlt : i + 1 < n + 1 := Nat.succ_lt_succ (mem_range.1 hi)
    rw [due, htwo, decide_eq_false_iff_not, not_not, Int.sub_zero]
    change ((i + 1 : Int) : Rat) < (n + 1 : Nat)
    exact_mod_cast hlt
  · rw [due, htwo]
    simp

/-- `2 ^ 32` acceptances are counted as none. -/
theorem window_too_long : ∃ calls : List ShiftEntry, ((0 : Int) :: calls.map (·.time)).Pairwise (· < ·)
    ∧ run calls (resetInternal 0 ⟨[], 0, 2, false, false, (2 ^ 32 : Nat) / 2⟩) = [(calls, false)] ∧
    Switches 2 false calls := by
  obtain ⟨n, hn⟩ : ∃ n, 2 ^ 32 = n + 1 := ⟨2 ^ 32 - 1, rfl⟩
  obtain ⟨hacc, hrej⟩ := counts_acceptances (n + 1)
  have hinc := increasing_acceptances (n + 1)
  have hcompare : compare 2 false (acceptances (n + 1)) = false := by
    rw [compare, hacc, hrej, ← hn]
    rfl
  refine ⟨acceptances (n + 1), hinc, ?_, ?_⟩
  · rw [hn, run_reset _ 0 (Nat.le_refl 2) hinc]
    exact (congrArg _ (windows_acceptances n)).trans (congrArg (fun b => [(_, b)]) hcompare)
  · rw [Switches, hacc, hrej]
    simp

end AutoShifter

end Rdm
