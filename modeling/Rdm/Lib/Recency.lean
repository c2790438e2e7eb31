import Mathlib.Data.List.Nodup

/-!
# Lists in the order of use

A log has what was used, the last use first. A list in the order of use (`Recent`) has each thing before what was used
longer ago.
-/

namespace Recency

variable {α : Type} [DecidableEq α] {log xs ys : List α} {x y z : α}

def Later (log : List α) (x y : α) : Prop := log.idxOf x < log.idxOf y

/-- The list has things of the log, in the order of their last use. -/
structure Recent (log xs : List α) : Prop where
  logged : ∀ x ∈ xs, x ∈ log
  order : xs.Pairwise (Later log)

theorem recent_nil : Recent log [] := ⟨fun _ h => absurd h List.not_mem_nil, List.Pairwise.nil⟩

namespace Recent

theorem sublist (h : Recent log ys) (hs : xs.Sublist ys) : Recent log xs :=
  ⟨fun x hx => h.logged x (hs.subset hx), h.order.sublist hs⟩

theorem nodup (h : Recent log xs) : xs.Nodup := h.order.imp fun hlt he => absurd (he ▸ hlt) (Nat.lt_irrefl _)

theorem used (h : Recent log xs) (hz : z ∉ xs) : Recent (z :: log) (z :: xs) := by
  have hne : ∀ x ∈ xs, z ≠ x := fun x hx he => hz (he ▸ hx)
  refine ⟨fun x hx => ?_, List.pairwise_cons.2 ⟨fun x hx => ?_, h.order.imp_of_mem fun {x y} hx hy hlt => ?_⟩⟩
  · rcases List.mem_cons.1 hx with rfl | hx
    · exact List.mem_cons_self
    · exact List.mem_cons_of_mem _ (h.logged x hx)
  · rw [Later, List.idxOf_cons_self, List.idxOf_cons_ne _ (hne x hx)]
    exact Nat.succ_pos _
  · rw [Later, List.idxOf_cons_ne _ (hne x hx), List.idxOf_cons_ne _ (hne y hy)]
    exact Nat.succ_lt_succ hlt

theorem used_again (h : Recent log (xs ++ z :: ys)) : Recent (z :: log) (z :: (xs ++ ys)) := by
  refine (h.sublist (List.Sublist.append_left (List.sublist_cons_self z ys) xs)).used ?_
  exact fun hz => (List.nodup_middle.1 h.nodup).notMem hz

theorem later_of_before (h : Recent log (xs ++ z :: ys)) (hx : x ∈ xs) : Later log x z :=
  (List.pairwise_append.1 h.order).2.2 x hx z List.mem_cons_self

end Recent

end Recency
