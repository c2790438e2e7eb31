import Mathlib.Data.List.Basic
import Mathlib.Data.List.Nodup
import Mathlib.Logic.Function.Basic

/-!
# Linked lists in a memory of links

`Chain f p xs e`: the pointer `p` and the links `f` visit exactly `xs` and then reach `e`. `BackLinks` adds the links of
a doubly linked list, `buckets` the chains of a hash table.
-/

namespace Links

open Function (update update_of_ne update_self)
open List

variable {α : Type} {f g : α → α} {e : α} {xs : List α} {ys : List α} {x : α} {b : α → α}

def Chain (f : α → α) : α → List α → α → Prop
  | p, [], e => p = e
  | p, x :: xs, e => p = x ∧ Chain f (f x) xs e

def BackLinks (bk : α → α) : α → List α → Prop
  | _, [] => True
  | p, x :: xs => bk x = p ∧ BackLinks bk x xs

def follow [DecidableEq α] (f : α → α) (e : α) : Nat → α → List α
  | 0, _ => []
  | fuel + 1, p => if p = e then [] else p :: follow f e fuel (f p)

theorem follow_chain [DecidableEq α] : ∀ {xs : List α} {p : α} {fuel : Nat}, Chain f p xs e → e ∉ xs →
    xs.length ≤ fuel → follow f e fuel p = xs
  | [], _, 0, _, _, _ => rfl
  | [], _, fuel + 1, h, _, _ => if_pos h
  | x :: xs, _, fuel + 1, ⟨hp, h⟩, he, hf => by
    subst hp
    rw [mem_cons, not_or] at he
    rw [follow, if_neg (Ne.symm he.1), follow_chain h he.2 (Nat.le_of_succ_le_succ hf)]

theorem chain_congr : ∀ {xs : List α} {p e : α}, Chain f p xs e → (∀ x ∈ xs, g x = f x) → Chain g p xs e
  | [], _, _, h, _ => h
  | x :: xs, _, _, h, hx => by
    refine ⟨h.1, ?_⟩
    rw [hx x mem_cons_self]
    exact chain_congr h.2 (fun y hy => hx y (mem_cons_of_mem _ hy))

theorem chain_keep {a : α} (h : Chain f (f a) xs e) (hx : ∀ x ∈ a :: xs, g x = f x) :
    Chain g (g a) xs e := by
  rw [hx a mem_cons_self]
  exact chain_congr h fun x hm => hx x (mem_cons_of_mem _ hm)

theorem chain_head : ∀ {xs : List α} {p e : α}, Chain f p xs e → p = xs.headD e
  | [], _, _, h => h
  | _ :: _, _, _, h => h.1

theorem chain_after : ∀ {xs ys : List α} {a e : α}, Chain f (f a) (xs ++ ys) e →
    Chain f (f (xs.getLastD a)) ys e
  | [], _, _, _, h => h
  | x :: xs, _, _, _, h => by
    rw [getLastD_cons]
    exact chain_after h.2

theorem chain_next {a : α} (h : Chain f (f a) (xs ++ ys) e) :
    f (xs.getLastD a) = ys.headD e := chain_head (chain_after h)

theorem chain_at : ∀ {xs : List α} {p : α}, Chain f p (xs ++ x :: ys) e → f x = ys.headD e
  | [], _, h => chain_head h.2
  | _ :: _, _, h => chain_at h.2

theorem getLastD_mem : ∀ (xs : List α) (a : α), xs.getLastD a ∈ a :: xs
  | [], a => by simp
  | x :: xs, a => by
    rw [getLastD_cons]
    exact mem_cons_of_mem _ (getLastD_mem xs x)

theorem getLastD_append : ∀ (xs ys : List α) (a : α), (xs ++ ys).getLastD a = ys.getLastD (xs.getLastD a)
  | [], _, _ => rfl
  | x :: xs, ys, a => by
    rw [cons_append, getLastD_cons, getLastD_cons]
    exact getLastD_append xs ys x

theorem split_at_getLastD {a p : α} (h : p ∈ a :: xs) : ∃ as bs, xs = as ++ bs ∧ p = as.getLastD a := by
  rcases mem_cons.1 h with rfl | h
  · exact ⟨[], xs, rfl, rfl⟩
  · obtain ⟨as, bs, rfl⟩ := append_of_mem h
    exact ⟨as ++ [p], bs, by simp, by rw [getLastD_append]; rfl⟩

theorem ne_getLastD {a : α} (h : (a :: (x :: xs ++ ys)).Nodup) : a ≠ xs.getLastD x := by
  intro e
  refine (nodup_cons.1 h).1 (e ▸ mem_append_left _ (getLastD_mem xs x))

/-- **Insertion**: `z` is linked in after the last node of `xs`. -/
theorem chain_insert {z : α} : ∀ {xs ys : List α} {a : α}, Chain f (f a) (xs ++ ys) e → (a :: (xs ++ ys)).Nodup →
    g (xs.getLastD a) = z → g z = f (xs.getLastD a) →
    (∀ y ∈ a :: (xs ++ ys), y ≠ xs.getLastD a → g y = f y) → Chain g (g a) (xs ++ z :: ys) e
  | [], ys, a, h, hnd, hl, hz, hrest => by
    simp only [nil_append, getLastD_nil] at *
    refine ⟨hl, ?_⟩
    rw [hz]
    refine chain_congr h (fun y hy => hrest y (mem_cons_of_mem _ hy) ?_)
    rintro rfl
    exact (nodup_cons.mp hnd).1 hy
  | x :: xs, ys, a, h, hnd, hl, hz, hrest => by
    rw [getLastD_cons] at hl hz hrest
    refine ⟨by rw [hrest a (by simp) (ne_getLastD hnd)]; exact h.1, ?_⟩
    exact chain_insert h.2 (nodup_cons.mp hnd).2 hl hz
      (fun y hy hy' => hrest y (mem_cons_of_mem _ hy) hy')

/-- **Removal**: the node `z` after the last node of `xs` is linked out. -/
theorem chain_remove {z : α} : ∀ {xs ys : List α} {a : α}, Chain f (f a) (xs ++ z :: ys) e →
    (a :: (xs ++ z :: ys)).Nodup → g (xs.getLastD a) = f z →
    (∀ y ∈ a :: (xs ++ ys), y ≠ xs.getLastD a → g y = f y) → Chain g (g a) (xs ++ ys) e
  | [], ys, a, h, hnd, hl, hrest => by
    simp only [nil_append, getLastD_nil] at *
    rw [hl]
    refine chain_congr h.2 (fun y hy => hrest y (mem_cons_of_mem _ hy) ?_)
    rintro rfl
    exact (nodup_cons.mp hnd).1 (mem_cons_of_mem _ hy)
  | x :: xs, ys, a, h, hnd, hl, hrest => by
    rw [getLastD_cons] at hl hrest
    refine ⟨by rw [hrest a (by simp) (ne_getLastD hnd)]; exact h.1, ?_⟩
    exact chain_remove h.2 (nodup_cons.mp hnd).2 hl
      (fun y hy hy' => hrest y (mem_cons_of_mem _ hy) hy')

theorem chain_unlink {p q z : α} (h : Chain f p (xs ++ z :: ys) e) (hnd : (xs ++ z :: ys).Nodup)
    (hnil : xs = [] → q = ys.headD e) (hcons : xs ≠ [] → q = p) (hl : ∀ y ∈ xs.getLast?, g y = ys.headD e)
    (hrest : ∀ y ∈ xs ++ ys, y ∉ xs.getLast? → g y = f y) : Chain g q (xs ++ ys) e := by
  have hnext : f z = ys.headD e := chain_at h
  cases xs with
  | nil =>
    rw [hnil rfl, ← hnext]
    exact chain_congr h.2 fun y hy => hrest y hy (by simp)
  | cons a xs =>
    rw [hcons (cons_ne_nil _ _)]
    have hlast : (a :: xs).getLast? = some (xs.getLastD a) := by
      rw [getLast?_cons, ← getLastD_eq_getLast?]
    refine ⟨h.1, chain_remove (f := f) h.2 hnd ?_ ?_⟩
    · rw [hl _ (by rw [hlast]; exact Option.mem_some_self _), hnext]
    · intro y hy hyl
      refine hrest y hy fun hm => hyl ?_
      rw [hlast] at hm
      exact (Option.mem_some_iff.1 hm).symm

/-! ## Links back -/

theorem backLinks_append : ∀ {xs ys : List α} {p : α},
    BackLinks b p (xs ++ ys) ↔ BackLinks b p xs ∧ BackLinks b (xs.getLastD p) ys
  | [], _, _ => by simp [BackLinks]
  | x :: xs, ys, p => by
    have ih : BackLinks b x (xs ++ ys) ↔ BackLinks b x xs ∧ BackLinks b (xs.getLastD x) ys := backLinks_append
    simp only [cons_append, BackLinks, ih, getLastD_cons, and_assoc]

theorem backLinks_congr {b' : α → α} : ∀ {xs : List α} {p : α}, BackLinks b p xs → (∀ x ∈ xs, b' x = b x) →
    BackLinks b' p xs
  | [], _, _, _ => trivial
  | x :: xs, _, h, hx => by
    refine ⟨by rw [hx x mem_cons_self]; exact h.1, ?_⟩
    exact backLinks_congr h.2 fun y hy => hx y (mem_cons_of_mem _ hy)

theorem backLinks_at {p : α} (h : BackLinks b p (xs ++ x :: ys)) : b x = xs.getLastD p :=
  (backLinks_append.1 h).2.1

theorem backLinks_cons {b' : α → α} {p : α} (h : BackLinks b p xs) (hnd : xs.Nodup) (hx : b' x = p)
    (hy : ∀ y ∈ xs.head?, b' y = x) (hrest : ∀ y ∈ xs, y ∉ xs.head? → b' y = b y) : BackLinks b' p (x :: xs) := by
  refine ⟨hx, ?_⟩
  cases xs with
  | nil => trivial
  | cons y ys =>
    refine ⟨hy y rfl, backLinks_congr h.2 fun z hz => hrest z (mem_cons_of_mem _ hz) fun hm => ?_⟩
    exact (nodup_cons.1 hnd).1 (Option.mem_some_iff.1 hm ▸ hz)

theorem backLinks_remove {b' : α → α} {p : α} (h : BackLinks b p (xs ++ x :: ys))
    (hxs : ∀ y ∈ xs, b' y = b y) (hys : ∀ y ∈ ys.tail, b' y = b y) (hy : ∀ y ∈ ys.head?, b' y = xs.getLastD p) :
    BackLinks b' p (xs ++ ys) := by
  obtain ⟨h1, -, h2⟩ := backLinks_append.1 h
  refine backLinks_append.2 ⟨backLinks_congr h1 hxs, ?_⟩
  cases ys with
  | nil => trivial
  | cons y ys => exact ⟨hy y rfl, backLinks_congr h2.2 hys⟩

/-! ## The chains of a hash table -/

def buckets (n : Nat) (C : Nat → List α) : List α := (List.range n).flatMap C

theorem mem_buckets {n : Nat} {C : Nat → List α} : x ∈ buckets n C ↔ ∃ i < n, x ∈ C i := by
  simp [buckets]

theorem buckets_congr {n : Nat} {C C' : Nat → List α} (h : ∀ i < n, C' i = C i) : buckets n C' = buckets n C :=
  flatMap_congr fun i hi => h i (mem_range.1 hi)

theorem buckets_update (C : Nat → List α) (i : Nat) (l : List α) : ∀ {n : Nat}, i < n →
    (buckets n (update C i l) ++ C i).Perm (buckets n C ++ l)
  | n + 1, hi => by
    rw [buckets, buckets, range_succ, flatMap_append, flatMap_append, flatMap_singleton,
      flatMap_singleton]
    by_cases hin : i = n
    · subst hin
      have hsame : (range i).flatMap (update C i l) = (range i).flatMap C := by
        refine flatMap_congr fun j hj => ?_
        have := mem_range.1 hj
        exact update_of_ne (by omega) _ _
      rw [hsame, update_self, append_assoc, append_assoc]
      exact (perm_append_comm).append_left _
    · have ih := buckets_update C i l (n := n) (by omega)
      rw [update_of_ne (by omega : n ≠ i)]
      have h1 : ((range n).flatMap (update C i l) ++ C n ++ C i).Perm
          ((range n).flatMap (update C i l) ++ C i ++ C n) := by
        rw [append_assoc, append_assoc]
        exact (perm_append_comm).append_left _
      have h2 : ((range n).flatMap C ++ l ++ C n).Perm ((range n).flatMap C ++ C n ++ l) := by
        rw [append_assoc, append_assoc]
        exact (perm_append_comm).append_left _
      exact h1.trans ((ih.append_right _).trans h2)

theorem buckets_cons (C : Nat → List α) {n i : Nat} (hi : i < n) :
    (buckets n (update C i (x :: C i))).Perm (x :: buckets n C) := by
  have h := buckets_update C i (x :: C i) hi
  have h2 : (buckets n C ++ x :: C i).Perm (x :: buckets n C ++ C i) := perm_middle
  exact (perm_append_right_iff (C i)).1 (h.trans h2)

theorem buckets_unlink (C : Nat → List α) {n i : Nat} {pre suf : List α} (hi : i < n)
    (hC : C i = pre ++ x :: suf) : (x :: buckets n (update C i (pre ++ suf))).Perm (buckets n C) := by
  have h := buckets_update C i (pre ++ suf) hi
  have h1 : (x :: buckets n (update C i (pre ++ suf)) ++ (pre ++ suf)).Perm
      (buckets n (update C i (pre ++ suf)) ++ C i) := by
    rw [hC]
    exact perm_middle.symm.trans (perm_middle.symm.append_left _)
  exact (perm_append_right_iff _).1 (h1.trans h)

structure Table (n : Nat) (hd : Nat → α) (f : α → α) (key : α → Nat) (C : Nat → List α) (e : α) : Prop where
  chain : ∀ i < n, Chain f (hd i) (C i) e
  hash : ∀ i < n, ∀ x ∈ C i, key x = i

namespace Table

variable {n i : Nat} {hd hd' : Nat → α} {key key' : α → Nat} {C : Nat → List α} {e x : α}

theorem mem_chain (h : Table n hd f key C e) (hx : x ∈ buckets n C) : x ∈ C (key x) := by
  obtain ⟨i, hi, hxi⟩ := mem_buckets.1 hx
  rwa [h.hash i hi x hxi]

theorem chain_unique (h : Table n hd f key C e) {j : Nat} (hi : i < n) (hj : j < n) (hxi : x ∈ C i) (hxj : x ∈ C j) :
    i = j := by
  rw [← h.hash i hi x hxi, ← h.hash j hj x hxj]

theorem cons (h : Table n hd f key C e) (hi : i < n) (hx : key' x = i) (hg : g x = hd i)
    (hrest : ∀ y ∈ buckets n C, g y = f y ∧ key' y = key y) :
    Table n (update hd i x) g key' (update C i (x :: C i)) e := by
  have hsame : ∀ j < n, ∀ y ∈ C j, g y = f y ∧ key' y = key y := fun j hj y hy => hrest y (mem_buckets.2 ⟨j, hj, hy⟩)
  have hchain : ∀ j < n, Chain g (hd j) (C j) e := fun j hj =>
    chain_congr (h.chain j hj) fun y hy => (hsame j hj y hy).1
  have hhash : ∀ j < n, ∀ y ∈ C j, key' y = j := fun j hj y hy => (hsame j hj y hy).2.trans (h.hash j hj y hy)
  refine ⟨fun j hj => ?_, fun j hj y hy => ?_⟩ <;> by_cases hji : j = i
  · subst hji
    rw [update_self, update_self]
    exact ⟨rfl, hg ▸ hchain j hj⟩
  · rw [update_of_ne hji, update_of_ne hji]
    exact hchain j hj
  · subst hji
    rw [update_self] at hy
    exact (mem_cons.1 hy).elim (fun e => e ▸ hx) (hhash j hj y)
  · rw [update_of_ne hji] at hy
    exact hhash j hj y hy

theorem unlink (h : Table n hd f key C e) {pre suf : List α} (hi : i < n) (hC : C i = pre ++ x :: suf)
    (hnd : (pre ++ x :: suf).Nodup) (hhd : ∀ j, j ≠ i → hd' j = hd j) (hnil : pre = [] → hd' i = suf.headD e)
    (hcons : pre ≠ [] → hd' i = hd i) (hl : ∀ y ∈ pre.getLast?, g y = suf.headD e)
    (hrest : ∀ y, y ≠ x → (y ∉ pre.getLast? → g y = f y) ∧ key' y = key y) :
    Table n hd' g key' (update C i (pre ++ suf)) e := by
  have hxi : x ∈ C i := by rw [hC]; simp
  have hne : ∀ y ∈ pre ++ suf, y ≠ x := by
    rintro y hy rfl
    exact (nodup_cons.1 (perm_middle.nodup_iff.1 hnd)).1 hy
  have hother : ∀ j < n, j ≠ i → ∀ y ∈ C j, y ≠ x ∧ y ∉ pre.getLast? := by
    refine fun j hj hji y hy => ⟨fun e => hji (h.chain_unique hj hi (e ▸ hy) hxi), fun hm => hji ?_⟩
    refine h.chain_unique hj hi hy ?_
    rw [hC]
    exact mem_append_left _ (mem_of_mem_getLast? hm)
  refine ⟨fun j hj => ?_, fun j hj y hy => ?_⟩ <;> by_cases hji : j = i
  · subst hji
    rw [update_self]
    exact chain_unlink (hC ▸ h.chain j hj) hnd hnil hcons hl fun y hy => (hrest y (hne y hy)).1
  · rw [update_of_ne hji, hhd j hji]
    exact chain_congr (h.chain j hj) fun y hy => (hrest y (hother j hj hji y hy).1).1 (hother j hj hji y hy).2
  · subst hji
    rw [update_self] at hy
    rw [(hrest y (hne y hy)).2]
    refine h.hash j hj y ?_
    rw [hC]
    simp only [mem_append, mem_cons] at hy ⊢
    exact hy.imp_right Or.inr
  · rw [update_of_ne hji] at hy
    rw [(hrest y (hother j hj hji y hy).1).2]
    exact h.hash j hj y hy

end Table

end Links
