import Rdm.Pq.FreeListSpec

/-!
# The hash table of allocated regions

`HashInv rl C`: hash chain `i` is `C i`, doubly linked through the slots. The operations change no offset and no extent.
-/

namespace Rdm

open ProgLogic ProgLogic.Prog FreeBlock Links List
open Function (update update_of_ne update_self)

namespace RegionList

def allocs (rl : RegionList) (C : Nat → List Nat) : List Nat := buckets rl.nchains C

structure HashInv (rl : RegionList) (C : Nat → List Nat) : Prop where
  chain : ∀ i < rl.nchains, Chain (fun x => (rl.rp x).next) (rl.chains i) (C i) RL_NONE
  back : ∀ i < rl.nchains, BackLinks (fun x => (rl.rp x).prev) RL_NONE (C i)
  hash : ∀ i < rl.nchains, ∀ x ∈ C i, hashOffset rl (rl.rp x).offset = i
  nodup : (allocs rl C).Nodup
  bound : ∀ x ∈ allocs rl C, x < rl.nalloc + RL_FREE_OVERHEAD
  length : (allocs rl C).length ≤ rl.nalloc
  pos : 0 < rl.nchains
  small : rl.nalloc + RL_FREE_OVERHEAD ≤ RL_NONE

/-- Two lists with the same free lists, slots and sizes. -/
structure SameButLinks (rl rl' : RegionList) (T : Nat → Prop) : Prop where
  fields : rl' = { rl with rp := rl'.rp, chains := rl'.chains }
  key : ∀ x, (rl'.rp x).offset = (rl.rp x).offset ∧ (rl'.rp x).extent = (rl.rp x).extent
  rest : ∀ x, ¬T x → rl'.rp x = rl.rp x

variable {rl : RegionList} {C : Nat → List Nat} {s : RlFb} {x : Nat}

theorem mem_allocs : x ∈ allocs rl C ↔ ∃ i < rl.nchains, x ∈ C i := mem_buckets

theorem HashInv.hash_lt (h : HashInv rl C) (off : Int) : hashOffset rl off < rl.nchains := Nat.mod_lt _ h.pos

theorem HashInv.table (h : HashInv rl C) : Table rl.nchains rl.chains (fun x => (rl.rp x).next)
    (fun x => hashOffset rl (rl.rp x).offset) C RL_NONE := ⟨h.chain, h.hash⟩

theorem HashInv.ne_none (h : HashInv rl C) (hx : x ∈ allocs rl C) : x ≠ RL_NONE := by
  have h1 := h.bound x hx
  have h2 := h.small
  omega

/-! ## Looking up -/

theorem findFrom_spec (s : RlFb) (off : Int) : ∀ {xs : List Nat} {fuel next : Nat},
    Chain (fun x => (s.rl.rp x).next) next xs RL_NONE → (∀ x ∈ xs, x ≠ RL_NONE) →
    (∀ x ∈ xs, (s.rl.rp x).isAlloc = true) → xs.length < fuel →
    wp (findFrom s.rl off fuel next) (fun r s' => s' = s ∧
      (r = RL_NONE ∧ (∀ x ∈ xs, (s.rl.rp x).offset ≠ off) ∨ r ∈ xs ∧ (s.rl.rp r).offset = off)) s
  | [], fuel + 1, next, hc, _, _, _ => by
    have hn : next = RL_NONE := hc
    simp [findFrom, hn]
  | x :: xs, fuel + 1, next, hc, hne, hal, hf => by
    obtain ⟨rfl, hc⟩ := hc
    rw [findFrom, if_neg (hne next mem_cons_self)]
    split
    case isTrue hoff =>
      simp only [wp_bind, wp_assert, wp_pure]
      exact ⟨hal next mem_cons_self, trivial, .inr ⟨mem_cons_self, hoff.symm⟩⟩
    case isFalse hoff =>
      refine (findFrom_spec s off hc (fun y hy => hne y (mem_cons_of_mem _ hy))
        (fun y hy => hal y (mem_cons_of_mem _ hy)) (by simp only [length_cons] at hf; omega)).mono ?_
      rintro r s' ⟨hs, h | ⟨hr, he⟩⟩
      · refine ⟨hs, .inl ⟨h.1, fun y hy => ?_⟩⟩
        rcases mem_cons.1 hy with rfl | hy
        · exact fun e => hoff e.symm
        · exact h.2 y hy
      · exact ⟨hs, .inr ⟨mem_cons_of_mem _ hr, he⟩⟩

/-- **Looking up** an offset. -/
theorem find_spec (h : HashInv s.rl C) (hal : ∀ x ∈ allocs s.rl C, (s.rl.rp x).isAlloc = true) (off : Int) :
    wp (find off) (fun r s' => s' = s ∧ (r = RL_NONE ∧ (∀ x ∈ allocs s.rl C, (s.rl.rp x).offset ≠ off) ∨
      r ∈ allocs s.rl C ∧ (s.rl.rp r).offset = off)) s := by
  have hi := h.hash_lt off
  have hsub : ∀ x ∈ C (hashOffset s.rl off), x ∈ allocs s.rl C := fun x hx => mem_allocs.2 ⟨_, hi, hx⟩
  have hnd : (C (hashOffset s.rl off)).Nodup := (nodup_flatMap.1 h.nodup).1 _ (mem_range.2 hi)
  have hlen : (C (hashOffset s.rl off)).length ≤ s.rl.nalloc :=
    Nat.le_trans ((subperm_of_subset hnd hsub).length_le) h.length
  simp only [find, wp_bind, wp_read]
  refine (findFrom_spec s off (h.chain _ hi) (fun x hx => h.ne_none (hsub x hx)) (fun x hx => hal x (hsub x hx))
    (by omega)).mono ?_
  rintro r s' ⟨hs, h' | ⟨hr, he⟩⟩
  · refine ⟨hs, .inl ⟨h'.1, fun x hx e => ?_⟩⟩
    have hm := h.table.mem_chain hx
    rw [e] at hm
    exact h'.2 x hm e
  · exact ⟨hs, .inr ⟨hsub r hr, he⟩⟩

theorem silent_findFrom (rl : RegionList) (off : Int) : ∀ fuel next, Silent (findFrom rl off fuel next)
  | 0, _ => silent_ofOption
  | fuel + 1, next => by
    unfold findFrom
    exact silent_ite silent_pure (silent_ite (silent_assert.bind fun _ => silent_pure) (silent_findFrom rl off fuel _))

theorem silent_find (off : Int) : Silent (find off) := silent_read.bind fun _ => silent_findFrom _ _ _ _

/-! ## Putting a region in front of its chain -/

theorem HashInv.relinked (h : HashInv rl C) {rp : Nat → Region} {ch : Nat → Nat} {i : Nat} {l : List Nat}
    (htab : Table rl.nchains ch (fun y => (rp y).next) (fun y => hashOffset rl (rp y).offset) (update C i l) RL_NONE)
    (hback : BackLinks (fun y => (rp y).prev) RL_NONE l) (hother : ∀ j < rl.nchains, j ≠ i → ∀ y ∈ C j, rp y = rl.rp y)
    (hnd : (allocs rl (update C i l)).Nodup) (hbound : ∀ y ∈ allocs rl (update C i l), y < rl.nalloc + RL_FREE_OVERHEAD)
    (hlen : (allocs rl (update C i l)).length ≤ rl.nalloc) : HashInv { rl with rp := rp, chains := ch }
    (update C i l) where
  chain := htab.chain
  back j hj := by
    by_cases hji : j = i
    · subst hji
      rw [update_self]
      exact hback
    · rw [update_of_ne hji]
      exact backLinks_congr (h.back j hj) fun y hy => congrArg Region.prev (hother j hj hji y hy)
  hash := htab.hash
  nodup := hnd
  bound := hbound
  length := hlen
  pos := h.pos
  small := h.small

theorem HashInv.cons (h : HashInv rl C) {rl' : RegionList} {rp : Nat → Region} (hx : x ∉ allocs rl C)
    (hxb : x < rl.nalloc + RL_FREE_OVERHEAD) (hlen : (allocs rl C).length < rl.nalloc)
    (hf : rl' = { rl with rp := rp, chains := update rl.chains (hashOffset rl (rl.rp x).offset) x })
    (hnew : rp x = { rl.rp x with next := rl.chains (hashOffset rl (rl.rp x).offset), prev := RL_NONE })
    (hhead : ∀ y ∈ (C (hashOffset rl (rl.rp x).offset)).head?, rp y = { rl.rp y with prev := x })
    (hrest : ∀ y, y ≠ x → y ∉ (C (hashOffset rl (rl.rp x).offset)).head? → rp y = rl.rp y) :
    SameButLinks rl rl' (· ∈ x :: allocs rl C) ∧
      ∃ C', HashInv rl' C' ∧ (allocs rl' C').Perm (x :: allocs rl C) := by
  subst hf
  have hin := h.hash_lt (rl.rp x).offset
  generalize hi : hashOffset rl (rl.rp x).offset = i at *
  have hsub : ∀ j < rl.nchains, ∀ y ∈ C j, y ∈ allocs rl C := fun j hj y hy => mem_allocs.2 ⟨j, hj, hy⟩
  have hne : ∀ j < rl.nchains, ∀ y ∈ C j, y ≠ x := fun j hj y hy e => hx (e ▸ hsub j hj y hy)
  have hheadC : ∀ y ∈ (C i).head?, y ∈ C i := fun y hy => mem_of_mem_head? hy
  have hkey : ∀ y, (rp y).offset = (rl.rp y).offset ∧ (rp y).extent = (rl.rp y).extent ∧
      (y ≠ x → (rp y).next = (rl.rp y).next) := by
    intro y
    by_cases hyx : y = x
    · subst hyx
      rw [hnew]
      exact ⟨rfl, rfl, fun e => absurd rfl e⟩
    · by_cases hyh : y ∈ (C i).head?
      · rw [hhead y hyh]
        exact ⟨rfl, rfl, fun _ => rfl⟩
      · rw [hrest y hyx hyh]
        exact ⟨rfl, rfl, fun _ => rfl⟩
  have hother : ∀ j < rl.nchains, j ≠ i → ∀ y ∈ C j, rp y = rl.rp y := by
    intro j hj hji y hy
    refine hrest y (hne j hj y hy) fun hm => hji ?_
    exact h.table.chain_unique hj hin hy (hheadC y hm)
  have htab : Table rl.nchains (update rl.chains i x) (fun y => (rp y).next)
      (fun y => hashOffset rl (rp y).offset) (update C i (x :: C i)) RL_NONE := by
    refine h.table.cons hin (by rw [(hkey x).1]; exact hi) (by rw [hnew]) fun y hy => ?_
    exact ⟨(hkey y).2.2 fun e => hx (e ▸ hy), by rw [(hkey y).1]⟩
  have hback : BackLinks (fun y => (rp y).prev) RL_NONE (x :: C i) := by
    have hnd : (C i).Nodup := (nodup_flatMap.1 h.nodup).1 _ (mem_range.2 hin)
    refine backLinks_cons (h.back i hin) hnd (by rw [hnew]) (fun y hy => by rw [hhead y hy]) fun y hy hyh => ?_
    rw [hrest y (hne i hin y hy) hyh]
  have hperm : (allocs rl (update C i (x :: C i))).Perm (x :: allocs rl C) := buckets_cons C hin
  refine ⟨⟨rfl, fun y => ⟨(hkey y).1, (hkey y).2.1⟩, fun y hy => ?_⟩, _, h.relinked htab hback hother ?_ ?_ ?_, hperm⟩
  · simp only [mem_cons, not_or] at hy
    exact hrest y hy.1 fun hm => hy.2 (hsub i hin y (hheadC y hm))
  · exact hperm.nodup_iff.2 (nodup_cons.2 ⟨hx, h.nodup⟩)
  · intro y hy
    rcases mem_cons.1 (hperm.mem_iff.1 hy) with rfl | hy
    · exact hxb
    · exact h.bound y hy
  · rw [hperm.length_eq]
    exact hlen

/-- **Adding** a region to the hash table. -/
theorem addToHash_spec (h : HashInv s.rl C) (hal : ∀ y ∈ allocs s.rl C, (s.rl.rp y).isAlloc = true)
    (hx : x ∉ allocs s.rl C) (hxb : x < s.rl.nalloc + RL_FREE_OVERHEAD) (hlen : (allocs s.rl C).length < s.rl.nalloc)
    (hxa : (s.rl.rp x).isAlloc = true) :
    wp (addToHash x) (fun _ s' => s'.fb = s.fb ∧ SameButLinks s.rl s'.rl (· ∈ x :: allocs s.rl C) ∧
      ∃ C', HashInv s'.rl C' ∧ (allocs s'.rl C').Perm (x :: allocs s.rl C)) s := by
  have hc := h.chain _ (h.hash_lt (s.rl.rp x).offset)
  simp only [addToHash, modRl, wp_bind, wp_read, wp_assert]
  refine ⟨hxa, ?_⟩
  cases hC : C (hashOffset s.rl (s.rl.rp x).offset) with
  | nil =>
    rw [hC] at hc
    have hnone : s.rl.chains (hashOffset s.rl (s.rl.rp x).offset) = RL_NONE := hc
    simp only [hnone, ne_eq, not_true_eq_false, if_false, wp_modify]
    refine ⟨trivial, h.cons hx hxb hlen rfl (by simp [setRegion, hnone]) (by simp [hC]) fun y hy _ => ?_⟩
    simp [setRegion, hy]
  | cons y ys =>
    rw [hC] at hc
    have hy : s.rl.chains (hashOffset s.rl (s.rl.rp x).offset) = y := hc.1
    have hym : y ∈ allocs s.rl C := mem_allocs.2 ⟨_, h.hash_lt _, by rw [hC]; exact mem_cons_self⟩
    have hyx : y ≠ x := fun e => hx (e ▸ hym)
    simp only [hy, ne_eq, h.ne_none hym, not_false_eq_true, if_true, wp_bind, wp_assert, wp_modify]
    refine ⟨hal y hym, trivial, h.cons hx hxb hlen rfl (by simp [setRegion, hy, hyx.symm])
      (by simp [hC, setRegion, hyx]) fun z hz hzh => ?_⟩
    have hzy : z ≠ y := by rintro rfl; simp [hC] at hzh
    simp [setRegion, hz, hzy]

/-! ## Taking a region out of its chain -/

def Unhashed (rl : RegionList) (C : Nat → List Nat) (x : Nat) (rl' : RegionList) : Prop :=
  SameButLinks rl rl' (· ∈ allocs rl C) ∧ rl'.rp x = rl.rp x ∧
    ∃ C', HashInv rl' C' ∧ (x :: allocs rl' C').Perm (allocs rl C)

theorem HashInv.erase (h : HashInv rl C) {rl' : RegionList} {rp : Nat → Region} {ch : Nat → Nat} {i : Nat}
    {pre suf : List Nat} (hi : i < rl.nchains) (hC : C i = pre ++ x :: suf)
    (hf : rl' = { rl with rp := rp, chains := ch })
    (hchains : ch = if pre = [] then update rl.chains i (suf.headD RL_NONE) else rl.chains)
    (hlast : ∀ y ∈ pre.getLast?, rp y = { rl.rp y with next := suf.headD RL_NONE })
    (hhead : ∀ y ∈ suf.head?, rp y = { rl.rp y with prev := pre.getLastD RL_NONE })
    (hrest : ∀ y, y ∉ pre.getLast? → y ∉ suf.head? → rp y = rl.rp y) :
    Unhashed rl C x rl' := by
  subst hf
  have hlastC : ∀ y ∈ pre.getLast?, y ∈ pre := fun y hy => mem_of_mem_getLast? hy
  have hheadC : ∀ y ∈ suf.head?, y ∈ suf := fun y hy => mem_of_mem_head? hy
  have hnd : (pre ++ x :: suf).Nodup := by
    have := (nodup_flatMap.1 h.nodup).1 _ (mem_range.2 hi)
    rwa [hC] at this
  obtain ⟨hndpre, hndsuf, hdisj⟩ := nodup_append.1 hnd
  obtain ⟨hxsuf, hndsuf⟩ := nodup_cons.1 hndsuf
  have hps : ∀ y ∈ pre, y ∉ suf := fun y hy hy' => hdisj y hy y (mem_cons_of_mem _ hy') rfl
  have hxpre : x ∉ pre := fun hx => hdisj x hx x mem_cons_self rfl
  have hin : ∀ y, y ∈ pre ∨ y ∈ suf → y ∈ C i := by
    rw [hC]
    simp only [mem_append, mem_cons]
    tauto
  have hother : ∀ j < rl.nchains, j ≠ i → ∀ y ∈ C j, rp y = rl.rp y := by
    intro j hj hji y hy
    refine hrest y (fun hm => hji ?_) (fun hm => hji ?_)
    · exact h.table.chain_unique hj hi hy (hin y (.inl (hlastC y hm)))
    · exact h.table.chain_unique hj hi hy (hin y (.inr (hheadC y hm)))
  have hkey : ∀ y, (rp y).offset = (rl.rp y).offset ∧ (rp y).extent = (rl.rp y).extent ∧
      (y ∉ pre.getLast? → (rp y).next = (rl.rp y).next) ∧
      (y ∉ suf.head? → (rp y).prev = (rl.rp y).prev) := by
    intro y
    by_cases hyl : y ∈ pre.getLast?
    · rw [hlast y hyl]
      exact ⟨rfl, rfl, fun e => absurd hyl e, fun _ => rfl⟩
    · by_cases hyh : y ∈ suf.head?
      · rw [hhead y hyh]
        exact ⟨rfl, rfl, fun _ => rfl, fun e => absurd hyh e⟩
      · rw [hrest y hyl hyh]
        exact ⟨rfl, rfl, fun _ => rfl, fun _ => rfl⟩
  have htab : Table rl.nchains ch (fun y => (rp y).next) (fun y => hashOffset rl (rp y).offset)
      (update C i (pre ++ suf)) RL_NONE := by
    refine h.table.unlink hi hC hnd (fun j hj => ?_) (fun hpre => ?_) (fun hpre => ?_)
      (fun y hy => by rw [hlast y hy]) fun y _ => ⟨(hkey y).2.2.1, by rw [(hkey y).1]⟩
    · rw [hchains]
      split
      · exact update_of_ne hj _ _
      · rfl
    · rw [hchains, if_pos hpre, update_self]
    · rw [hchains, if_neg hpre]
  have hback : BackLinks (fun y => (rp y).prev) RL_NONE (pre ++ suf) := by
    have hb := h.back i hi
    rw [hC] at hb
    refine backLinks_remove hb (fun y hy => (hkey y).2.2.2 fun hm => hps y hy (hheadC y hm)) (fun y hy => ?_)
      (fun y hy => by rw [hhead y hy])
    refine (hkey y).2.2.2 fun hm => ?_
    cases suf with
    | nil => exact absurd hy not_mem_nil
    | cons z zs =>
      obtain rfl : z = y := by simpa using hm
      exact (nodup_cons.1 hndsuf).1 hy
  have hperm : (x :: allocs rl (update C i (pre ++ suf))).Perm (allocs rl C) := buckets_unlink C hi hC
  have hlen := hperm.length_eq ▸ h.length
  refine ⟨⟨rfl, fun y => ⟨(hkey y).1, (hkey y).2.1⟩, fun y hy => ?_⟩, ?_, _,
    h.relinked htab hback hother ?_ ?_ ?_, hperm⟩
  · refine hrest y (fun hm => hy ?_) (fun hm => hy ?_)
    · exact mem_allocs.2 ⟨i, hi, hin y (.inl (hlastC y hm))⟩
    · exact mem_allocs.2 ⟨i, hi, hin y (.inr (hheadC y hm))⟩
  · exact hrest x (fun hm => hxpre (hlastC x hm)) (fun hm => hxsuf (hheadC x hm))
  · exact (nodup_cons.1 (hperm.nodup_iff.2 h.nodup)).2
  · exact fun y hy => h.bound y (hperm.mem_iff.1 (mem_cons_of_mem _ hy))
  · exact Nat.le_of_succ_le hlen

/-- **Removing** a region from the hash table. -/
theorem removeFromHash_spec (h : HashInv s.rl C) (hx : x ∈ allocs s.rl C)
    (hal : ∀ y ∈ allocs s.rl C, y ≠ x → (s.rl.rp y).isAlloc = true) :
    wp (removeFromHash x) (fun _ s' => s'.fb = s.fb ∧ Unhashed s.rl C x s'.rl) s := by
  have hxC := h.table.mem_chain hx
  have hi := h.hash_lt (s.rl.rp x).offset
  obtain ⟨pre, suf, hC⟩ := append_of_mem hxC
  have hnd : (pre ++ x :: suf).Nodup := by
    have := (nodup_flatMap.1 h.nodup).1 _ (mem_range.2 hi)
    rwa [hC] at this
  have hmem : ∀ y ∈ pre ++ x :: suf, y ∈ allocs s.rl C := fun y hy => mem_allocs.2 ⟨_, hi, by rw [hC]; exact hy⟩
  have hprev : (s.rl.rp x).prev = pre.getLastD RL_NONE := by
    have hb := h.back _ hi
    rw [hC] at hb
    exact backLinks_at hb
  have hnext : (s.rl.rp x).next = suf.headD RL_NONE := by
    have hc := h.chain _ hi
    rw [hC] at hc
    exact chain_at hc
  simp only [removeFromHash, modRl, wp_bind, wp_read, hprev, hnext]
  rcases eq_nil_or_concat pre with rfl | ⟨pre', l, rfl⟩
  · cases suf with
    | nil =>
      simp only [getLastD_nil, headD_nil, ne_eq, not_true_eq_false, if_false, wp_bind, wp_modify, wp_pure]
      exact ⟨trivial, h.erase hi hC rfl (by simp) (by simp) (by simp) (fun _ _ _ => rfl)⟩
    | cons n suf =>
      have hnm := hmem n (by simp)
      have hnx : n ≠ x := by rintro rfl; simp at hnd
      simp only [getLastD_nil, headD_cons, ne_eq, not_true_eq_false, if_false, h.ne_none hnm, not_false_eq_true,
        if_true, wp_modify, wp_bind, wp_read, wp_assert]
      refine ⟨by rw [hnext]; exact hal n hnm hnx, trivial, h.erase hi hC rfl (by simp) (by simp) (by simp)
        fun y _ hy => ?_⟩
      have hyn : y ≠ n := by rintro rfl; simp at hy
      simp [hyn]
  · rw [concat_eq_append] at *
    have hlm := hmem l (by simp)
    have hlx : l ≠ x := by rintro rfl; simp [nodup_append] at hnd
    cases suf with
    | nil =>
      simp only [getLastD_append, getLastD_cons, getLastD_nil, headD_nil, ne_eq, h.ne_none hlm,
        not_false_eq_true, if_true, not_true_eq_false, if_false, wp_bind, wp_modify, wp_pure]
      refine ⟨trivial, h.erase hi hC rfl (by simp) (by simp) (by simp) fun y hy _ => ?_⟩
      have hyl : y ≠ l := by rintro rfl; simp at hy
      simp [hyl]
    | cons n suf =>
      have hnm := hmem n (by simp)
      have hnx : n ≠ x := by rintro rfl; simp [nodup_append] at hnd
      have hnl : n ≠ l := by rintro rfl; simp [nodup_append] at hnd
      simp only [getLastD_append, getLastD_cons, getLastD_nil, headD_cons, ne_eq, h.ne_none hlm,
        h.ne_none hnm, not_false_eq_true, if_true, wp_modify, wp_bind, wp_read, wp_assert]
      refine ⟨by rw [hnext]; simpa [setRegion, hnl] using hal n hnm hnx, trivial, h.erase hi hC rfl
        (by simp [setRegion]) (by simp [setRegion, hnl.symm]) (by simp [setRegion, hnl]) fun y hy hy' => ?_⟩
      have hyl : y ≠ l := by rintro rfl; simp at hy
      have hyn : y ≠ n := by rintro rfl; simp at hy'
      simp [setRegion, hyl, hyn]

end RegionList

end Rdm
