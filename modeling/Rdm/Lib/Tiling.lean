import Mathlib.Algebra.GroupWithZero.Nat
import Mathlib.Data.List.Basic
import Mathlib.Data.List.Nodup
import Mathlib.Data.Set.Defs

/-!
# Tilings of an interval

`Tiles off ext lo xs hi`: the pieces `xs` follow each other without a gap from `lo` to `hi`, and none is empty. The
pieces between busy ones are their gaps if no two of them are neighbours (`Tiles.gap_iff`).
-/

namespace Tiling

open List

variable {ν : Type} {off off' : ν → Int} {ext ext' : ν → Nat} {lo hi : Int} {xs ys : List ν} {x : ν}

def Tiles (off : ν → Int) (ext : ν → Nat) : Int → List ν → Int → Prop
  | lo, [], hi => lo = hi
  | lo, x :: xs, hi => off x = lo ∧ 0 < ext x ∧ Tiles off ext (lo + ext x) xs hi

theorem tiles_append : ∀ {xs : List ν} {lo : Int}, Tiles off ext lo (xs ++ ys) hi ↔
    ∃ mid, Tiles off ext lo xs mid ∧ Tiles off ext mid ys hi
  | [], lo => by simp [Tiles]
  | x :: xs, lo => by
    have ih : Tiles off ext (lo + ext x) (xs ++ ys) hi ↔
        ∃ mid, Tiles off ext (lo + ext x) xs mid ∧ Tiles off ext mid ys hi := tiles_append
    simp only [cons_append, Tiles, ih]
    constructor
    · rintro ⟨h1, h2, mid, h3, h4⟩
      exact ⟨mid, ⟨h1, h2, h3⟩, h4⟩
    · rintro ⟨mid, ⟨h1, h2, h3⟩, h4⟩
      exact ⟨h1, h2, mid, h3, h4⟩

theorem Tiles.congr : ∀ {xs : List ν} {lo : Int}, Tiles off ext lo xs hi →
    (∀ x ∈ xs, off' x = off x ∧ ext' x = ext x) → Tiles off' ext' lo xs hi
  | [], _, h, _ => h
  | x :: xs, lo, h, hx => by
    obtain ⟨h1, h2, h3⟩ := h
    obtain ⟨e1, e2⟩ := hx x mem_cons_self
    refine ⟨by rw [e1]; exact h1, by rw [e2]; exact h2, ?_⟩
    rw [e2]
    exact Tiles.congr h3 fun y hy => hx y (mem_cons_of_mem _ hy)

theorem Tiles.le : ∀ {xs : List ν} {lo : Int}, Tiles off ext lo xs hi → lo ≤ hi
  | [], _, h => Int.le_of_eq h
  | x :: xs, lo, h => by
    have := Tiles.le h.2.2
    omega

theorem Tiles.mem : ∀ {xs : List ν} {lo : Int}, Tiles off ext lo xs hi → ∀ x ∈ xs,
    lo ≤ off x ∧ 0 < ext x ∧ off x + ext x ≤ hi
  | x :: xs, lo, ⟨h1, h2, h3⟩, y, hy => by
    rcases mem_cons.1 hy with rfl | hy
    · have := h3.le
      exact ⟨Int.le_of_eq h1.symm, h2, by omega⟩
    · obtain ⟨h4, h5, h6⟩ := Tiles.mem h3 y hy
      exact ⟨by omega, h5, h6⟩

theorem Tiles.sum : ∀ {xs : List ν} {lo : Int}, Tiles off ext lo xs hi → lo + (xs.map ext).sum = hi
  | [], lo, h => by
    have h : lo = hi := h
    simp [h]
  | x :: xs, lo, ⟨_, _, h3⟩ => by
    have := Tiles.sum h3
    simp only [map_cons, sum_cons, Int.natCast_add]
    omega

theorem Tiles.cover : ∀ {xs : List ν} {lo : Int}, Tiles off ext lo xs hi → ∀ b : Int,
    lo ≤ b ∧ b < hi ↔ ∃ x ∈ xs, off x ≤ b ∧ b < off x + ext x
  | [], lo, h, b => by
    have h : lo = hi := h
    simp only [not_mem_nil, false_and, exists_false, iff_false]
    omega
  | x :: xs, lo, ⟨h1, h2, h3⟩, b => by
    have ih := Tiles.cover h3 b
    have hle := Tiles.le h3
    simp only [exists_mem_cons_iff, ← ih]
    omega

theorem Tiles.apart (h : Tiles off ext lo xs hi) {y : ν} (hx : x ∈ xs) (hy : y ∈ xs) (hne : x ≠ y) :
    off x + ext x ≤ off y ∨ off y + ext y ≤ off x := by
  obtain ⟨as, bs, rfl⟩ := append_of_mem hx
  obtain ⟨mid, ha, h1, h2, hb⟩ := tiles_append.1 h
  rcases mem_append.1 hy with hy | hy
  · have := ha.mem y hy
    omega
  · rcases mem_cons.1 hy with rfl | hy
    · exact absurd rfl hne
    · have := hb.mem y hy
      omega

theorem Tiles.off_inj (h : Tiles off ext lo xs hi) {y : ν} (hx : x ∈ xs) (hy : y ∈ xs) (e : off x = off y) : x = y := by
  by_contra hne
  have hapart := h.apart hx hy hne
  have hmem := h.mem x hx
  have hmem' := h.mem y hy
  omega

theorem Tiles.adjacent (h : Tiles off ext lo xs hi) {y : ν} (hx : x ∈ xs) (hy : y ∈ xs) (e : off x + ext x = off y) :
    ∃ as bs, xs = as ++ x :: y :: bs := by
  obtain ⟨as, bs, rfl⟩ := append_of_mem hx
  obtain ⟨mid, ha, h1, h2, hb⟩ := tiles_append.1 h
  cases bs with
  | nil =>
    have hend : mid + ext x = hi := hb
    have := h.mem y hy
    omega
  | cons z bs =>
    have hz : off z = off y := by have := hb.1; omega
    obtain rfl := h.off_inj (by simp) hy hz
    exact ⟨as, bs, rfl⟩

theorem Tiles.split {as bs : List ν} {z : ν} (h : Tiles off ext lo (as ++ x :: bs) hi)
    (hsame : ∀ y ∈ as ++ bs, off' y = off y ∧ ext' y = ext y) (hx : off' x = off x) (hx0 : 0 < ext' x)
    (hz : off' z = off x + ext' x) (hz0 : 0 < ext' z) (hsum : ext' x + ext' z = ext x) :
    Tiles off' ext' lo (as ++ x :: z :: bs) hi := by
  obtain ⟨mid, ha, h1, h2, hb⟩ := tiles_append.1 h
  refine tiles_append.2 ⟨mid, ha.congr fun y hy => hsame y (by simp [hy]), hx.trans h1, hx0, by omega, hz0, ?_⟩
  rw [show mid + (ext' x : Int) + ext' z = mid + ext x by omega]
  exact hb.congr fun y hy => hsame y (by simp [hy])

theorem Tiles.merge {as bs : List ν} {z : ν} (h : Tiles off ext lo (as ++ x :: z :: bs) hi)
    (hsame : ∀ y ∈ as ++ bs, off' y = off y ∧ ext' y = ext y) (hx : off' x = off x) (hsum : ext' x = ext x + ext z) :
    Tiles off' ext' lo (as ++ x :: bs) hi := by
  obtain ⟨mid, ha, h1, h2, h3, h4, hb⟩ := tiles_append.1 h
  refine tiles_append.2 ⟨mid, ha.congr fun y hy => hsame y (by simp [hy]), hx.trans h1, by omega, ?_⟩
  rw [show mid + (ext' x : Int) = mid + ext x + ext z by omega]
  exact hb.congr fun y hy => hsame y (by simp [hy])

/-! ## Gaps -/

/-- A stretch of `[lo, hi)` from the end of a busy piece to the beginning of one, without a busy piece in it. -/
structure IsGap (lo hi : Int) (busy : Set (Int × Nat)) (p : Int × Nat) : Prop where
  pos : 0 < p.2
  left : p.1 = lo ∨ ∃ a ∈ busy, a.1 + a.2 = p.1
  right : p.1 + p.2 = hi ∨ ∃ a ∈ busy, p.1 + p.2 = a.1
  apart : ∀ a ∈ busy, a.1 + a.2 ≤ p.1 ∨ p.1 + p.2 ≤ a.1

theorem IsGap.congr {busy busy' : Set (Int × Nat)} {p : Int × Nat} (h : IsGap lo hi busy p)
    (he : ∀ a, a ∈ busy' ↔ a ∈ busy) : IsGap lo hi busy' p where
  pos := h.pos
  left := h.left.imp_right fun hex => by
    obtain ⟨a, ha, hae⟩ := hex
    exact ⟨a, (he a).2 ha, hae⟩
  right := h.right.imp_right fun hex => by
    obtain ⟨a, ha, hae⟩ := hex
    exact ⟨a, (he a).2 ha, hae⟩
  apart a ha := h.apart a ((he a).1 ha)

theorem Tiles.exists_left (h : Tiles off ext lo xs hi) (hx : x ∈ xs) (hlo : off x ≠ lo) :
    ∃ y ∈ xs, off y + ext y = off x := by
  have hxm := h.mem x hx
  obtain ⟨y, hy, h1, h2⟩ := (h.cover (off x - 1)).1 (by omega)
  have hne : y ≠ x := by
    rintro rfl
    omega
  have := h.apart hy hx hne
  exact ⟨y, hy, by omega⟩

theorem Tiles.exists_right (h : Tiles off ext lo xs hi) (hx : x ∈ xs) (hhi : off x + ext x ≠ hi) :
    ∃ y ∈ xs, off x + ext x = off y := by
  have hxm := h.mem x hx
  obtain ⟨y, hy, h1, h2⟩ := (h.cover (off x + ext x)).1 (by omega)
  have hne : y ≠ x := by
    rintro rfl
    omega
  have := h.apart hy hx hne
  exact ⟨y, hy, by omega⟩

section Gaps

variable {free bs : List ν} {p : Int × Nat}

def spans (off : ν → Int) (ext : ν → Nat) (bs : List ν) : Set (Int × Nat) := {a | ∃ b ∈ bs, (off b, ext b) = a}

theorem Tiles.isGap (h : Tiles off ext lo xs hi) (hnd : xs.Nodup) (hp : xs.Perm (free ++ bs))
    (hadj : ∀ x ∈ free, ∀ y ∈ free, off x + ext x ≠ off y) (hx : x ∈ free) :
    IsGap lo hi (spans off ext bs) (off x, ext x) := by
  have hmem : ∀ y, y ∈ xs ↔ y ∈ free ∨ y ∈ bs := fun y => by rw [hp.mem_iff, mem_append]
  have hxs : x ∈ xs := (hmem x).2 (.inl hx)
  constructor
  case pos => exact (h.mem x hxs).2.1
  case left =>
    by_cases hlo : off x = lo
    · exact .inl hlo
    · obtain ⟨y, hy, he⟩ := h.exists_left hxs hlo
      have hyb : y ∈ bs := ((hmem y).1 hy).resolve_left fun hyf => hadj y hyf x hx he
      exact .inr ⟨_, ⟨y, hyb, rfl⟩, he⟩
  case right =>
    by_cases hhi : off x + ext x = hi
    · exact .inl hhi
    · obtain ⟨y, hy, he⟩ := h.exists_right hxs hhi
      have hyb : y ∈ bs := ((hmem y).1 hy).resolve_left fun hyf => hadj x hx y hyf he
      exact .inr ⟨_, ⟨y, hyb, rfl⟩, he⟩
  case apart =>
    rintro a ⟨b, hb, rfl⟩
    have hne : b ≠ x := by
      rintro rfl
      exact (nodup_append.1 (hp.nodup_iff.1 hnd)).2.2 b hx b hb rfl
    exact h.apart ((hmem b).2 (.inr hb)) hxs hne

theorem Tiles.exists_of_isGap (h : Tiles off ext lo xs hi) (hp : xs.Perm (free ++ bs))
    (hadj : ∀ x ∈ free, ∀ y ∈ free, off x + ext x ≠ off y) (hg : IsGap lo hi (spans off ext bs) p) :
    ∃ x ∈ free, (off x, ext x) = p := by
  have hmem : ∀ y, y ∈ xs ↔ y ∈ free ∨ y ∈ bs := fun y => by rw [hp.mem_iff, mem_append]
  have hbusy : ∀ b ∈ bs, lo ≤ off b ∧ 0 < ext b ∧ off b + ext b ≤ hi := fun b hb => h.mem b ((hmem b).2 (.inr hb))
  have hpos := hg.pos
  have hlo : lo ≤ p.1 := by
    rcases hg.left with he | ⟨_, ⟨b, hb, rfl⟩, he⟩
    · omega
    · have := hbusy b hb
      dsimp only at he
      omega
  have hhi : p.1 + p.2 ≤ hi := by
    rcases hg.right with he | ⟨_, ⟨b, hb, rfl⟩, he⟩
    · omega
    · have := hbusy b hb
      dsimp only at he
      omega
  -- a piece that meets the gap is not busy
  have hfree : ∀ y ∈ xs, ∀ c : Int, off y ≤ c → c < off y + ext y → p.1 ≤ c → c < p.1 + p.2 → y ∈ free := by
    intro y hy c h1 h2 h3 h4
    refine ((hmem y).1 hy).resolve_right fun hyb => ?_
    have := hg.apart _ ⟨y, hyb, rfl⟩
    dsimp only at this
    omega
  obtain ⟨x, hx, h1, h2⟩ := (h.cover p.1).1 (by omega)
  have hxf := hfree x hx p.1 h1 h2 (by omega) (by omega)
  refine ⟨x, hxf, ?_⟩
  have hxm := h.mem x hx
  have hxb : ∀ b ∈ bs, off b + ext b ≠ off x + ext x → off b + ext b ≤ off x ∨ off x + ext x ≤ off b := by
    intro b hb hne
    refine h.apart ((hmem b).2 (.inr hb)) hx ?_
    rintro rfl
    exact hne rfl
  have hstart : off x = p.1 := by
    rcases hg.left with he | ⟨_, ⟨b, hb, rfl⟩, he⟩
    · omega
    · dsimp only at he
      have hbm := hbusy b hb
      have := hxb b hb (by omega)
      omega
  have hend : off x + ext x = p.1 + p.2 := by
    rcases Int.lt_trichotomy (off x + ext x) (p.1 + p.2) with hlt | he | hgt
    · -- the piece behind would be a neighbour that is not busy either
      obtain ⟨y, hy, he⟩ := h.exists_right hx (by omega)
      have hym := h.mem y hy
      exact absurd he (hadj x hxf y (hfree y hy (off y) (by omega) (by omega) (by omega) (by omega)))
    · exact he
    · rcases hg.right with he | ⟨_, ⟨b, hb, rfl⟩, he⟩
      · omega
      · dsimp only at he
        have hbm := hbusy b hb
        have := hg.apart _ ⟨b, hb, rfl⟩
        by_cases hsame : off b + ext b = off x + ext x
        · have hbx : b ≠ x := by
            rintro rfl
            omega
          have := h.apart ((hmem b).2 (.inr hb)) hx hbx
          omega
        · have := hxb b hb hsame
          omega
  exact Prod.ext hstart (by dsimp only; omega)

/-- **The pieces between busy ones are the gaps**, if no two of them are neighbours. -/
theorem Tiles.gap_iff (h : Tiles off ext lo xs hi) (hnd : xs.Nodup) (hp : xs.Perm (free ++ bs))
    (hadj : ∀ x ∈ free, ∀ y ∈ free, off x + ext x ≠ off y) :
    (∃ x ∈ free, (off x, ext x) = p) ↔ IsGap lo hi (spans off ext bs) p := by
  constructor
  · rintro ⟨x, hx, rfl⟩
    exact h.isGap hnd hp hadj hx
  · exact h.exists_of_isGap hp hadj

end Gaps

end Tiling
