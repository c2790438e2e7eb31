import Rdm.Lib.Links

/-!
# Skip lists over an arena of link cells

A node `x` owns the cells `ptr x, ptr x + 1, …` of an arena; cell `ptr x + k` holds its successor on level `k`.
`IsSkip`: the list holds the nodes `xs` in order, and level `k` chains those of height at least `k`.
-/

namespace SkipList

open Links List
open Function (Injective update update_of_ne update_self)

variable {ν ω : Type} {xs : List ν}

/-! ## The algorithms -/

def walk (nx : ν → ν) (before : ν → Bool) : Nat → ν → Option (ν × ν)
  | 0, _ => none
  | fuel + 1, p => if before (nx p) then walk nx before fuel (nx p) else some (p, nx p)

def descend (nx : Nat → ν → ν) (before : ν → Bool) (fuel : Nat) : Nat → ν → (Nat → ν) → Option ((Nat → ν) × ν × ν)
  | 0, p, upd => do
    let (p', q) ← walk (nx 0) before fuel p
    return (Function.update upd 0 p', p', q)
  | k + 1, p, upd => do
    let (p', _) ← walk (nx (k + 1)) before fuel p
    descend nx before fuel k p' (Function.update upd (k + 1) p')

def link (ptr : ν → Nat) (z u : ν) (k : Nat) (cell : Nat → ν) : Nat → ν :=
  Function.update (Function.update cell (ptr z + k) (cell (ptr u + k))) (ptr u + k) z

def splice (ptr : ν → Nat) (z : ν) (upd : Nat → ν) : Nat → (Nat → ν) → Nat → ν
  | 0, cell => link ptr z (upd 0) 0 cell
  | k + 1, cell => splice ptr z upd k (link ptr z (upd (k + 1)) (k + 1) cell)

def unsplice [DecidableEq ν] (ptr : ν → Nat) (z : ν) (upd : Nat → ν) : Nat → Nat → (Nat → ν) → (Nat → ν) × Nat
  | 0, k, cell => (cell, k)
  | n + 1, k, cell =>
    if cell (ptr (upd k) + k) = z then
      unsplice ptr z upd n (k + 1) (Function.update cell (ptr (upd k) + k) (cell (ptr z + k)))
    else (cell, k)

def trim [DecidableEq ν] (first : Nat → ν) (tl : ν) : Nat → Nat
  | 0 => 0
  | m + 1 => if first (m + 1) = tl then trim first tl m else m + 1

/-! ## The invariant -/

def onLevel (ht : ν → Nat) (k : Nat) (xs : List ν) : List ν := xs.filter (fun x => decide (k ≤ ht x))

structure IsSkip (cell : Nat → ν) (own : Nat → ω) (tag : ν → ω) (ptr : ν → Nat) (hd tl : ν) (top level : Nat)
    (xs : List ν) (ht : ν → Nat) : Prop where
  chain : ∀ k ≤ top, Chain (fun x => cell (ptr x + k)) (cell (ptr hd + k)) (onLevel ht k xs) tl
  owned : ∀ x ∈ hd :: xs, ∀ k ≤ ht x, own (ptr x + k) = tag x
  ht_hd : ht hd = top
  ht_le : ∀ x ∈ xs, ht x ≤ level
  level_le : level ≤ top
  nodup : (hd :: tl :: xs).Nodup

theorem IsSkip.raise {cell : Nat → ν} {own : Nat → ω} {tag : ν → ω} {ptr : ν → Nat} {hd tl : ν} {top level m : Nat}
    {ht : ν → Nat} (h : IsSkip cell own tag ptr hd tl top level xs ht) (hl : level ≤ m) (hm : m ≤ top) :
    IsSkip cell own tag ptr hd tl top m xs ht :=
  { h with
    ht_le := fun x hx => Nat.le_trans (h.ht_le x hx) hl
    level_le := hm }

section Lists

variable {ht : ν → Nat} {k : Nat}

theorem mem_onLevel {x : ν} : x ∈ onLevel ht k xs ↔ x ∈ xs ∧ k ≤ ht x := by
  simp [onLevel]

@[simp] theorem onLevel_append (xs ys : List ν) : onLevel ht k (xs ++ ys) = onLevel ht k xs ++ onLevel ht k ys := by
  simp [onLevel]

theorem onLevel_cons_of_le {x : ν} (h : k ≤ ht x) (xs : List ν) : onLevel ht k (x :: xs) = x :: onLevel ht k xs := by
  simp [onLevel, h]

theorem onLevel_cons_of_lt {x : ν} (h : ht x < k) (xs : List ν) : onLevel ht k (x :: xs) = onLevel ht k xs := by
  simp [onLevel, h]

@[simp] theorem onLevel_zero (xs : List ν) : onLevel ht 0 xs = xs := by
  simp [onLevel]

theorem onLevel_congr {ht' : ν → Nat} (h : ∀ x ∈ xs, ht' x = ht x) :
    onLevel ht' k xs = onLevel ht k xs := by
  unfold onLevel
  exact filter_congr (fun x hx => by rw [h x hx])

theorem onLevel_eq_nil (h : ∀ x ∈ xs, ht x < k) : onLevel ht k xs = [] := by
  unfold onLevel
  rw [filter_eq_nil_iff]
  intro x hx
  have := h x hx
  simp only [decide_eq_true_eq]
  omega

theorem mem_hd_onLevel {hd x : ν} (hhd : k ≤ ht hd) (hx : x ∈ hd :: onLevel ht k xs) :
    x ∈ hd :: xs ∧ k ≤ ht x := by
  rcases mem_cons.1 hx with rfl | hx
  · exact ⟨mem_cons_self, hhd⟩
  · exact ⟨mem_cons_of_mem _ (mem_onLevel.1 hx).1, (mem_onLevel.1 hx).2⟩

theorem getLastD_onLevel_mem {j : Nat} (hjk : j ≤ k) (xs : List ν) (hd : ν) :
    (onLevel ht k xs).getLastD hd ∈ hd :: onLevel ht j xs := by
  rcases mem_cons.1 (getLastD_mem (onLevel ht k xs) hd) with e | hm
  · rw [e]
    exact mem_cons_self
  · obtain ⟨h1, h2⟩ := mem_onLevel.1 hm
    exact mem_cons_of_mem _ (mem_onLevel.2 ⟨h1, by omega⟩)

end Lists

/-! ## Searching -/

theorem split_sorted {R : ν → ν → Prop} (before : ν → Bool) (hR : ∀ x y, R x y → before y = true → before x = true) :
    ∀ {xs : List ν}, xs.Pairwise R → xs.filter before ++ xs.filter (fun x => !before x) = xs
  | [], _ => rfl
  | x :: xs, h => by
    obtain ⟨hx, hxs⟩ := pairwise_cons.1 h
    cases hb : before x with
    | true => simpa [hb] using split_sorted before hR hxs
    | false =>
      have hnone : xs.filter before = [] := by
        rw [filter_eq_nil_iff]
        intro y hy hby
        rw [hR x y (hx y hy) hby] at hb
        cases hb
      have hall : xs.filter (fun x => !before x) = xs := by
        have ih := split_sorted before hR hxs
        rwa [hnone] at ih
      simp [hb, hnone, hall]

theorem walk_spec {nx : ν → ν} {before : ν → Bool} {tl : ν} {bs : List ν} :
    ∀ {as : List ν} {p : ν} {fuel : Nat}, Chain nx (nx p) (as ++ bs) tl → (∀ a ∈ as, before a = true) →
      before (bs.headD tl) = false → as.length < fuel → walk nx before fuel p = some (as.getLastD p, bs.headD tl)
  | [], p, fuel + 1, h, _, hb, _ => by
    have hp : nx p = bs.headD tl := chain_head h
    simp only [walk, hp, hb, Bool.false_eq_true, if_false]
    rfl
  | a :: as, p, fuel + 1, h, ha, hb, hf => by
    have hp : nx p = a := h.1
    have hlen : as.length < fuel := by simp only [length_cons] at hf; omega
    have hrec := walk_spec h.2 (fun x hx => ha x (mem_cons_of_mem _ hx)) hb hlen
    rw [getLastD_cons]
    simp [walk, hp, ha a mem_cons_self, hrec]

section Search

variable {cell : Nat → ν} {own : Nat → ω} {tag : ν → ω} {ptr : ν → Nat} {hd tl : ν} {top level : Nat}
  {ht : ν → Nat} {pre suf : List ν} {before : ν → Bool}

def lastBefore (ht : ν → Nat) (hd : ν) (pre : List ν) (k : Nat) : ν := (onLevel ht k pre).getLastD hd

theorem IsSkip.walk (h : IsSkip cell own tag ptr hd tl top level (pre ++ suf) ht) (hpre : ∀ x ∈ pre, before x = true)
    (hsuf : ∀ x ∈ suf, before x = false) (htl : before tl = false) {k fuel : Nat} (hk : k ≤ top)
    (hf : (pre ++ suf).length < fuel) {p : ν} (hp : p ∈ hd :: onLevel ht k pre) :
    SkipList.walk (fun x => cell (ptr x + k)) before fuel p =
      some (lastBefore ht hd pre k, (onLevel ht k suf).headD tl) := by
  obtain ⟨as, bs, hab, rfl⟩ := split_at_getLastD hp
  have hc := h.chain k hk
  rw [onLevel_append, hab, append_assoc] at hc
  have hc' := chain_after (f := fun x => cell (ptr x + k)) hc
  rw [lastBefore, hab, getLastD_append]
  have hlen : (as ++ bs).length ≤ pre.length := by rw [← hab]; exact length_filter_le _ _
  refine walk_spec hc' ?_ ?_ ?_
  · intro a ha
    have hm : a ∈ onLevel ht k pre := by rw [hab]; exact mem_append_right _ ha
    exact hpre a (mem_onLevel.1 hm).1
  · cases hs : onLevel ht k suf with
    | nil => simpa using htl
    | cons y ys =>
      have : y ∈ onLevel ht k suf := by rw [hs]; exact mem_cons_self
      simpa using hsuf y (mem_onLevel.1 this).1
  · simp only [length_append] at hlen hf; omega

/-- **Search.** Descending from level `k` finds the last node before the target on every level. -/
theorem IsSkip.descend (before : ν → Bool) (h : IsSkip cell own tag ptr hd tl top level (pre ++ suf) ht)
    (hpre : ∀ x ∈ pre, before x = true) (hsuf : ∀ x ∈ suf, before x = false) (htl : before tl = false) {fuel : Nat}
    (hf : (pre ++ suf).length < fuel) : ∀ {k : Nat} {p : ν} (upd : Nat → ν), k ≤ top → p ∈ hd :: onLevel ht k pre →
      ∃ upd', SkipList.descend (fun k x => cell (ptr x + k)) before fuel k p upd =
        some (upd', pre.getLastD hd, suf.headD tl) ∧
      (∀ i ≤ k, upd' i = lastBefore ht hd pre i) ∧ (∀ i, k < i → upd' i = upd i)
  | 0, p, upd, hk, hp => by
    refine ⟨update upd 0 (lastBefore ht hd pre 0), ?_, ?_, ?_⟩
    · simp only [SkipList.descend, h.walk hpre hsuf htl hk hf hp]
      simp [lastBefore]
    · intro i hi
      obtain rfl : i = 0 := by omega
      simp
    · intro i hi
      exact update_of_ne (by omega) _ _
  | k + 1, p, upd, hk, hp => by
    obtain ⟨upd', hd', hle, hgt⟩ :=
      IsSkip.descend before h hpre hsuf htl hf (k := k) (p := lastBefore ht hd pre (k + 1))
      (update upd (k + 1) (lastBefore ht hd pre (k + 1))) (by omega)
      (getLastD_onLevel_mem (Nat.le_succ k) pre hd)
    refine ⟨upd', ?_, ?_, ?_⟩
    · simp only [SkipList.descend, h.walk hpre hsuf htl hk hf hp]
      exact hd'
    · intro i hi
      rcases Nat.lt_or_eq_of_le hi with h' | rfl
      · exact hle i (by omega)
      · rw [hgt _ (by omega), update_self]
    · intro i hi
      rw [hgt i (by omega), update_of_ne (by omega)]

theorem IsSkip.lastBefore_above (h : IsSkip cell own tag ptr hd tl top level (pre ++ suf) ht) {k : Nat}
    (hk : level < k) : lastBefore ht hd pre k = hd := by
  rw [lastBefore, onLevel_eq_nil]
  · rfl
  · intro x hx
    have := h.ht_le x (mem_append_left _ hx)
    omega

theorem IsSkip.lastBefore_mem (h : IsSkip cell own tag ptr hd tl top level (pre ++ suf) ht) {k : Nat} (hk : k ≤ top) :
    lastBefore ht hd pre k ∈ hd :: pre ∧ k ≤ ht (lastBefore ht hd pre k) :=
  mem_hd_onLevel (h.ht_hd ▸ hk) (getLastD_mem _ _)

end Search

/-! ## Linking in -/

section Splice

variable {ptr : ν → Nat} {z : ν} {upd : Nat → ν}

theorem splice_other {c : Nat} : ∀ {K : Nat} (cell : Nat → ν),
    (∀ k ≤ K, c ≠ ptr z + k ∧ c ≠ ptr (upd k) + k) → splice ptr z upd K cell c = cell c
  | 0, cell, h => by
    obtain ⟨h1, h2⟩ := h 0 (by omega)
    simp only [splice, link]
    rw [update_of_ne h2, update_of_ne h1]
  | K + 1, cell, h => by
    obtain ⟨h1, h2⟩ := h (K + 1) (by omega)
    rw [splice, splice_other _ (fun k hk => h k (by omega)), link, update_of_ne h2, update_of_ne h1]

/-- The links that `splice` writes do not collide. -/
structure Apart (ptr : ν → Nat) (z : ν) (upd : Nat → ν) (K : Nat) : Prop where
  node : ∀ i ≤ K, ∀ j ≤ K, ptr z + i ≠ ptr (upd j) + j
  inj : ∀ i ≤ K, ∀ j ≤ K, ptr (upd i) + i = ptr (upd j) + j → i = j

theorem Apart.anti {K K' : Nat} (h : Apart ptr z upd K) (hK : K' ≤ K) : Apart ptr z upd K' :=
  ⟨fun i hi j hj => h.node i (by omega) j (by omega), fun i hi j hj => h.inj i (by omega) j (by omega)⟩

theorem splice_pred : ∀ {K k : Nat} (cell : Nat → ν), Apart ptr z upd K → k ≤ K →
    splice ptr z upd K cell (ptr (upd k) + k) = z
  | 0, k, cell, _, hk => by
    obtain rfl : k = 0 := by omega
    simp [splice, link]
  | K + 1, k, cell, h, hk => by
    rcases Nat.lt_or_eq_of_le hk with hk | rfl
    · rw [splice]
      exact splice_pred _ (h.anti (Nat.le_succ K)) (by omega)
    · rw [splice, splice_other]
      · simp [link]
      · intro j hj
        refine ⟨fun e => h.node j (by omega) _ (Nat.le_refl _) e.symm, fun e => ?_⟩
        have := h.inj _ (Nat.le_refl _) j (by omega) e
        omega

theorem splice_node : ∀ {K k : Nat} (cell : Nat → ν), Apart ptr z upd K → k ≤ K →
    splice ptr z upd K cell (ptr z + k) = cell (ptr (upd k) + k)
  | 0, k, cell, h, hk => by
    obtain rfl : k = 0 := by omega
    simp only [splice, link]
    rw [update_of_ne (h.node 0 (Nat.le_refl _) 0 (Nat.le_refl _)), update_self]
  | K + 1, k, cell, h, hk => by
    rcases Nat.lt_or_eq_of_le hk with hk | rfl
    · rw [splice, splice_node _ (h.anti (by omega)) (by omega), link, update_of_ne, update_of_ne]
      · exact fun e => h.node _ (Nat.le_refl _) k (by omega) e.symm
      · intro e
        have := h.inj k (by omega) _ (Nat.le_refl _) e
        omega
    · rw [splice, splice_other, link, update_of_ne (h.node _ (Nat.le_refl _) _ (Nat.le_refl _)), update_self]
      intro j hj
      refine ⟨by omega, h.node _ (Nat.le_refl _) j (by omega)⟩

end Splice

section Invariant

variable {cell : Nat → ν} {own : Nat → ω} {tag : ν → ω} {ptr : ν → Nat} {hd tl : ν} {top level : Nat}
  {ht : ν → Nat} {xs pre suf : List ν}

theorem IsSkip.cell_inj (h : IsSkip cell own tag ptr hd tl top level xs ht) (htag : Injective tag)
    {x y : ν} {i j : Nat} (hx : x ∈ hd :: xs) (hy : y ∈ hd :: xs) (hi : i ≤ ht x) (hj : j ≤ ht y)
    (e : ptr x + i = ptr y + j) : x = y ∧ i = j := by
  have hxy : x = y := by
    apply htag
    rw [← h.owned x hx i hi, ← h.owned y hy j hj, e]
  subst hxy
  exact ⟨rfl, by omega⟩

theorem IsSkip.level_nodup (h : IsSkip cell own tag ptr hd tl top level xs ht) (k : Nat) :
    (hd :: onLevel ht k xs).Nodup :=
  (filter_sublist.cons_cons hd).nodup ((sublist_cons_self tl xs).cons_cons hd |>.nodup h.nodup)

theorem perm_sentinels (hd tl z : ν) (pre suf : List ν) :
    (hd :: tl :: (pre ++ z :: suf)).Perm (z :: hd :: tl :: (pre ++ suf)) :=
  (((perm_middle.cons tl).trans (List.Perm.swap z tl _)).cons hd).trans (List.Perm.swap z hd _)

/-- **Frame.** A list survives every change of the arena that leaves its own cells alone. -/
theorem IsSkip.frame (h : IsSkip cell own tag ptr hd tl top level xs ht) {cell' : Nat → ν} {own' : Nat → ω}
    {ptr' ht' : ν → Nat} (hptr : ∀ x ∈ hd :: xs, ptr' x = ptr x) (hht : ∀ x ∈ hd :: xs, ht' x = ht x)
    (hc : ∀ x ∈ hd :: xs, ∀ k ≤ ht x, cell' (ptr x + k) = cell (ptr x + k) ∧ own' (ptr x + k) = tag x) :
    IsSkip cell' own' tag ptr' hd tl top level xs ht' where
  chain k hk := by
    have hhd := (hc hd mem_cons_self k (by rw [h.ht_hd]; exact hk)).1
    have hon : onLevel ht' k xs = onLevel ht k xs := onLevel_congr fun x hx => hht x (mem_cons_of_mem _ hx)
    rw [hptr hd mem_cons_self, hhd, hon]
    refine chain_congr (h.chain k hk) ?_
    intro x hx
    obtain ⟨hx, hkx⟩ := mem_onLevel.1 hx
    have hx := mem_cons_of_mem hd hx
    rw [hptr x hx, (hc x hx k hkx).1]
  owned x hx k hk := by
    rw [hptr x hx]
    exact (hc x hx k (by rw [← hht x hx]; exact hk)).2
  ht_hd := by rw [hht hd mem_cons_self]; exact h.ht_hd
  ht_le x hx := by rw [hht x (mem_cons_of_mem _ hx)]; exact h.ht_le x hx
  level_le := h.level_le
  nodup := h.nodup

theorem IsSkip.splice_frame (h : IsSkip cell own tag ptr hd tl top level (pre ++ suf) ht) {z : ν} {K : Nat}
    (hK : K ≤ top) (hz : ∀ k ≤ K, own (ptr z + k) = tag z) {upd : Nat → ν}
    (hupd : ∀ k ≤ K, upd k = lastBefore ht hd pre k) {c : Nat} (hc : ∀ x ∈ z :: hd :: (pre ++ suf), own c ≠ tag x) :
    splice ptr z upd K cell c = cell c := by
  apply splice_other
  intro k hk
  refine ⟨fun e => hc z mem_cons_self (e ▸ hz k hk), fun e => ?_⟩
  obtain ⟨hm, hl⟩ := h.lastBefore_mem (by omega : k ≤ top)
  rw [hupd k hk] at e
  have hm := cons_subset_cons _ (subset_append_left pre suf) hm
  exact hc _ (mem_cons_of_mem _ hm) (e ▸ h.owned _ hm k hl)

/-- **Insertion.** Linking a node of height `K` in between `pre` and `suf`. -/
theorem IsSkip.insert [DecidableEq ν] (h : IsSkip cell own tag ptr hd tl top level (pre ++ suf) ht)
    (htag : Injective tag) {z : ν} {K : Nat} (hK : K ≤ top) (hz : ∀ k ≤ K, own (ptr z + k) = tag z)
    (hnew : z ∉ hd :: tl :: (pre ++ suf)) {upd : Nat → ν} (hupd : ∀ k ≤ K, upd k = lastBefore ht hd pre k) :
    IsSkip (splice ptr z upd K cell) own tag ptr hd tl top (max level K) (pre ++ z :: suf)
      (update ht z K) := by
  have hne : ∀ x ∈ hd :: (pre ++ suf), x ≠ z := by
    rintro x hx rfl
    exact hnew (by simp only [mem_cons] at hx ⊢; tauto)
  have hht : ∀ x ∈ hd :: (pre ++ suf), update ht z K x = ht x :=
    fun x hx => update_of_ne (hne x hx) _ _
  have hlast : ∀ k ≤ K, upd k ∈ hd :: (pre ++ suf) ∧ k ≤ ht (upd k) := by
    intro k hk
    rw [hupd k hk]
    exact (h.lastBefore_mem (by omega)).imp_left fun hm => cons_subset_cons _ (subset_append_left pre suf) hm
  have hzx : ∀ x ∈ hd :: (pre ++ suf), ∀ i ≤ ht x, ∀ j ≤ K, ptr z + j ≠ ptr x + i := by
    intro x hx i hi j hj e
    refine hne x hx (htag ?_)
    rw [← h.owned x hx i hi, ← hz j hj, e]
  have hapart : Apart ptr z upd K :=
    ⟨fun i hi j hj => hzx _ (hlast j hj).1 j (hlast j hj).2 i hi, fun i hi j hj e =>
      (h.cell_inj htag (hlast i hi).1 (hlast j hj).1 (hlast i hi).2 (hlast j hj).2 e).2⟩
  -- a cell of an old node changes only where that node is the one remembered on the cell's level
  have hold : ∀ x ∈ hd :: (pre ++ suf), ∀ k ≤ ht x, (k ≤ K → x ≠ upd k) →
      splice ptr z upd K cell (ptr x + k) = cell (ptr x + k) := by
    intro x hx k hk hxu
    refine splice_other _ fun j hj => ⟨fun e => hzx x hx k hk j hj e.symm, fun e => ?_⟩
    obtain ⟨rfl, rfl⟩ := h.cell_inj htag hx (hlast j hj).1 hk (hlast j hj).2 e
    exact hxu hj rfl
  constructor
  case chain =>
    intro k hk
    have hpre : onLevel (update ht z K) k pre = onLevel ht k pre :=
      onLevel_congr fun x hx => hht x (by simp [hx])
    have hsuf : onLevel (update ht z K) k suf = onLevel ht k suf :=
      onLevel_congr fun x hx => hht x (by simp [hx])
    have hc := h.chain k hk
    have hnd := h.level_nodup k
    have hmem : ∀ x ∈ hd :: onLevel ht k (pre ++ suf), x ∈ hd :: (pre ++ suf) ∧ k ≤ ht x :=
      fun x hx => mem_hd_onLevel (h.ht_hd ▸ hk) hx
    rw [onLevel_append] at hc hnd hmem ⊢
    by_cases hkK : k ≤ K
    · rw [onLevel_cons_of_le (by rw [update_self]; exact hkK), hpre, hsuf]
      refine chain_insert (f := fun x => cell (ptr x + k)) hc hnd ?_ ?_ ?_
      · rw [← lastBefore, ← hupd k hkK]
        exact splice_pred cell hapart hkK
      · rw [← lastBefore, ← hupd k hkK]
        exact splice_node cell hapart hkK
      · intro y hy hyl
        obtain ⟨hy, hky⟩ := hmem y hy
        refine hold y hy k hky fun _ => ?_
        rw [hupd k hkK]
        exact hyl
    · rw [onLevel_cons_of_lt (by rw [update_self]; omega), hpre, hsuf]
      exact chain_keep hc fun x hx => hold x (hmem x hx).1 k (hmem x hx).2 fun h' => absurd h' hkK
  case owned =>
    intro x hx k hk
    by_cases hxz : x = z
    · subst hxz
      rw [update_self] at hk
      exact hz k hk
    · have hx' : x ∈ hd :: (pre ++ suf) := by
        simp only [mem_cons, mem_append] at hx ⊢; tauto
      rw [hht x hx'] at hk
      exact h.owned x hx' k hk
  case ht_hd => rw [hht hd mem_cons_self, h.ht_hd]
  case ht_le =>
    intro x hx
    by_cases hxz : x = z
    · subst hxz
      rw [update_self]
      exact Nat.le_max_right _ _
    · have hx' : x ∈ pre ++ suf := by
        simp only [mem_cons, mem_append] at hx ⊢; tauto
      rw [hht x (mem_cons_of_mem _ hx')]
      exact Nat.le_trans (h.ht_le x hx') (Nat.le_max_left _ _)
  case level_le => exact Nat.max_le.2 ⟨h.level_le, hK⟩
  case nodup => exact (perm_sentinels hd tl z pre suf).nodup_iff.2 (nodup_cons.2 ⟨hnew, h.nodup⟩)

end Invariant

/-! ## Linking out -/

section Unsplice

variable [DecidableEq ν] {ptr : ν → Nat} {z : ν} {upd : Nat → ν}

theorem unsplice_spec (ptr : ν → Nat) (upd : Nat → ν) {K L : Nat} (hK : K < L)
    (hnode : ∀ i ≤ K, ∀ j ≤ K, ptr z + i ≠ ptr (upd j) + j)
    (hinj : ∀ j ≤ K, ∀ i < L, ptr (upd i) + i = ptr (upd j) + j → i = j) : ∀ {n k : Nat} (cell : Nat → ν), k + n = L →
      k ≤ K + 1 → (∀ j, k ≤ j → j ≤ K → cell (ptr (upd j) + j) = z) →
      (K + 1 < L → cell (ptr (upd (K + 1)) + (K + 1)) ≠ z) →
      (unsplice ptr z upd n k cell).2 = K + 1 ∧
      (∀ j, k ≤ j → j ≤ K → (unsplice ptr z upd n k cell).1 (ptr (upd j) + j) = cell (ptr z + j)) ∧
      ∀ c, (∀ j, k ≤ j → j ≤ K → c ≠ ptr (upd j) + j) → (unsplice ptr z upd n k cell).1 c = cell c
  | 0, k, cell, hL, hk, _, _ => by
    refine ⟨by simp only [unsplice]; omega, fun j h1 h2 => by omega, fun c _ => rfl⟩
  | n + 1, k, cell, hL, hk, hfol, hstop => by
    rcases Nat.lt_or_eq_of_le hk with hk' | rfl
    · -- level `k` is led past the node, the rest is the induction hypothesis
      let cell1 := update cell (ptr (upd k) + k) (cell (ptr z + k))
      have hcell1 : ∀ c, c ≠ ptr (upd k) + k → cell1 c = cell c := fun c hc => update_of_ne hc _ _
      have hne : ∀ i < L, i ≠ k → ptr (upd i) + i ≠ ptr (upd k) + k :=
        fun i hi hik e => hik (hinj k (by omega) i hi e)
      obtain ⟨hl, hpred, hother⟩ :=
        unsplice_spec ptr upd hK hnode hinj (n := n) (k := k + 1) cell1 (by omega) (by omega)
        (fun j h1 h2 => by rw [hcell1 _ (hne j (by omega) (by omega))]; exact hfol j (by omega) h2)
        (fun h => by rw [hcell1 _ (hne _ h (by omega))]; exact hstop h)
      have heq : unsplice ptr z upd (n + 1) k cell = unsplice ptr z upd n (k + 1) cell1 := by
        rw [unsplice, if_pos (hfol k (Nat.le_refl k) (by omega))]
      rw [heq]
      refine ⟨hl, fun j h1 h2 => ?_, fun c hc => ?_⟩
      · rcases Nat.lt_or_eq_of_le h1 with h1 | rfl
        · rw [hpred j h1 h2, hcell1 _ (hnode j h2 k (by omega))]
        · rw [hother _ (fun i h3 h4 e => by have := hinj i h4 k (by omega) e; omega)]
          exact update_self _ _ _
      · rw [hother c (fun j h1 h2 => hc j (by omega) h2), hcell1 c (hc k (Nat.le_refl k) (by omega))]
    · rw [unsplice, if_neg (hstop (by omega))]
      exact ⟨rfl, fun j h1 h2 => by omega, fun c _ => rfl⟩

variable {cell : Nat → ν} {own : Nat → ω} {tag : ν → ω} {hd tl : ν} {top level : Nat}
  {ht : ν → Nat} {xs pre suf : List ν}

/-- **Removal.** Linking out the node between `pre` and `suf`; only cells of the list are written. -/
theorem IsSkip.remove (h : IsSkip cell own tag ptr hd tl top level (pre ++ z :: suf) ht)
    (htag : Injective tag) (hupd : ∀ k ≤ level, upd k = lastBefore ht hd pre k) :
    (unsplice ptr z upd (level + 1) 0 cell).2 = ht z + 1 ∧
    IsSkip (unsplice ptr z upd (level + 1) 0 cell).1 own tag ptr hd tl top level (pre ++ suf) ht ∧
    ∀ c, (∀ x ∈ hd :: (pre ++ suf), own c ≠ tag x) → (unsplice ptr z upd (level + 1) 0 cell).1 c = cell c := by
  have hzm : z ∈ hd :: (pre ++ z :: suf) := by simp
  have hzl : ht z ≤ level := h.ht_le z (by simp)
  have hlev := h.level_le
  have hlast : ∀ k ≤ level, upd k ∈ hd :: (pre ++ suf) ∧ upd k ∈ hd :: (pre ++ z :: suf) ∧ k ≤ ht (upd k) := by
    intro k hk
    rw [hupd k hk]
    obtain ⟨h1, h2⟩ := h.lastBefore_mem (by omega : k ≤ top)
    exact ⟨cons_subset_cons _ (subset_append_left _ _) h1,
      cons_subset_cons _ (subset_append_left _ _) h1, h2⟩
  obtain ⟨hznot, hnd⟩ := nodup_cons.1 ((perm_sentinels hd tl z pre suf).nodup_iff.1 h.nodup)
  have hzne : ∀ x ∈ hd :: (pre ++ suf), x ≠ z := by
    rintro x hx rfl
    exact hznot (by simp only [mem_cons] at hx ⊢; tauto)
  have hfol : ∀ k ≤ top, cell (ptr (lastBefore ht hd pre k) + k) = (onLevel ht k (z :: suf)).headD tl := by
    intro k hk
    have hc := h.chain k hk
    rw [onLevel_append] at hc
    exact chain_next (f := fun x => cell (ptr x + k)) hc
  obtain ⟨hcount, hpred, hother⟩ := unsplice_spec ptr upd (K := ht z) (L := level + 1)
    (by omega)
    (fun i hi j hj e => hzne _ (hlast j (by omega)).1
      (h.cell_inj htag hzm (hlast j (by omega)).2.1 hi (hlast j (by omega)).2.2 e).1.symm)
    (fun j hj i hi e => (h.cell_inj htag (hlast i (by omega)).2.1 (hlast j (by omega)).2.1 (hlast i (by omega)).2.2
      (hlast j (by omega)).2.2 e).2)
    (n := level + 1) (k := 0) cell (by omega) (by omega)
    (fun j _ hj => by
      rw [hupd j (by omega), hfol j (by omega), onLevel_cons_of_le hj]
      rfl)
    (fun hlt => by
      rw [hupd _ (by omega), hfol _ (by omega), onLevel_cons_of_lt (Nat.lt_succ_self _)]
      cases hs : onLevel ht (ht z + 1) suf with
      | nil =>
        rintro rfl
        exact hznot (by simp)
      | cons y ys =>
        have hy : y ∈ onLevel ht (ht z + 1) suf := by rw [hs]; exact mem_cons_self
        exact hzne y (mem_cons_of_mem _ (mem_append_right _ (mem_onLevel.1 hy).1)))
  have hold : ∀ x ∈ hd :: (pre ++ suf), ∀ k ≤ ht x, (k ≤ ht z → x ≠ upd k) →
      (unsplice ptr z upd (level + 1) 0 cell).1 (ptr x + k) = cell (ptr x + k) := by
    intro x hx k hk hxu
    refine hother _ fun j _ hj e => ?_
    have hx' : x ∈ hd :: (pre ++ z :: suf) := by
      simp only [mem_cons, mem_append] at hx ⊢; tauto
    obtain ⟨rfl, rfl⟩ := h.cell_inj htag hx' (hlast j (by omega)).2.1 hk (hlast j (by omega)).2.2 e
    exact hxu hj rfl
  refine ⟨hcount, ?_, fun c hc => hother c fun j _ hj e => ?_⟩
  · constructor
    case chain =>
      intro k hk
      have hc := h.chain k hk
      have hlnd := h.level_nodup k
      have hmem : ∀ x ∈ hd :: onLevel ht k (pre ++ suf), x ∈ hd :: (pre ++ suf) ∧ k ≤ ht x :=
        fun x hx => mem_hd_onLevel (h.ht_hd ▸ hk) hx
      rw [onLevel_append] at hc hlnd hmem ⊢
      by_cases hkz : k ≤ ht z
      · rw [onLevel_cons_of_le hkz] at hc hlnd
        refine chain_remove (f := fun x => cell (ptr x + k)) hc hlnd ?_ ?_
        · rw [← lastBefore, ← hupd k (by omega)]
          exact hpred k (Nat.zero_le k) hkz
        · intro y hy hyl
          obtain ⟨hy, hky⟩ := hmem y hy
          refine hold y hy k hky fun _ => ?_
          rw [hupd k (by omega)]
          exact hyl
      · rw [onLevel_cons_of_lt (by omega)] at hc
        exact chain_keep hc fun x hx => hold x (hmem x hx).1 k (hmem x hx).2 fun h' => absurd h' hkz
    case owned =>
      intro x hx k hk
      refine h.owned x ?_ k hk
      simp only [mem_cons, mem_append] at hx ⊢; tauto
    case ht_hd => exact h.ht_hd
    case ht_le =>
      intro x hx
      refine h.ht_le x ?_
      simp only [mem_cons, mem_append] at hx ⊢; tauto
    case level_le => exact h.level_le
    case nodup => exact hnd
  · obtain ⟨h1, h2, h3⟩ := hlast j (by omega)
    exact hc _ h1 (e ▸ h.owned _ h2 j h3)

theorem IsSkip.trim (h : IsSkip cell own tag ptr hd tl top level xs ht) {first : Nat → ν}
    (hfirst : ∀ k ≤ level, first k = cell (ptr hd + k)) : ∀ m ≤ level, (∀ x ∈ xs, ht x ≤ m) →
      IsSkip cell own tag ptr hd tl top (SkipList.trim first tl m) xs ht
  | 0, _, hm => { h with ht_le := hm, level_le := Nat.zero_le _ }
  | m + 1, hlev, hm => by
    rw [SkipList.trim]
    split
    case isTrue hfst =>
      refine IsSkip.trim h hfirst m (by omega) fun x hx => ?_
      by_contra hlt
      have hx' : x ∈ onLevel ht (m + 1) xs := mem_onLevel.2 ⟨hx, by omega⟩
      have hc := chain_head (h.chain (m + 1) (Nat.le_trans hlev h.level_le))
      rw [← hfirst (m + 1) hlev, hfst] at hc
      cases hs : onLevel ht (m + 1) xs with
      | nil => rw [hs] at hx'; exact absurd hx' (not_mem_nil)
      | cons y ys =>
        rw [hs] at hc
        have hy : y ∈ onLevel ht (m + 1) xs := by rw [hs]; exact mem_cons_self
        have hyt : tl ∈ xs := by rw [hc]; exact (mem_onLevel.1 hy).1
        exact (nodup_cons.1 (nodup_cons.1 h.nodup).2).1 hyt
    case isFalse => exact { h with ht_le := hm, level_le := Nat.le_trans hlev h.level_le }

end Unsplice

end SkipList
