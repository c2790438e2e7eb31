import Mathlib.Data.List.Perm.Subperm
import Rdm.Lib.Links
import Rdm.Pq.SignatureIndex

/-!
# The signature index as a map

`SxInv sx C fl`: the hash chains are `C`, the unused elements `fl`, and no signature occurs twice. The operations are
those of the association list `entries`.
-/

namespace Rdm

open ProgLogic ProgLogic.Prog Links List
open Function (update update_of_ne update_self)

namespace SignatureIndex

variable {sx sx' : SignatureIndex} {C : Nat → List Nat} {fl : List Nat} {sig : Signature} {x : Nat} {i : Nat}

def used (sx : SignatureIndex) (C : Nat → List Nat) : List Nat := buckets sx.nchains C

def entries (sx : SignatureIndex) (C : Nat → List Nat) : List (Signature × Int) :=
  (used sx C).map fun x => ((sx.sxep x).sxi, (sx.sxep x).offset)

structure SxInv (sx : SignatureIndex) (C : Nat → List Nat) (fl : List Nat) : Prop where
  chain : ∀ i < sx.nchains, Chain (fun x => (sx.sxep x).next) (sx.chains i) (C i) SX_NONE
  hash : ∀ i < sx.nchains, ∀ x ∈ C i, sx.hash (sx.sxep x).sxi = i
  free : Chain (fun x => (sx.sxep x).next) sx.freeHead fl SX_NONE
  slots : (used sx C ++ fl).Perm (List.range sx.nalloc)
  nfree : sx.nfree = fl.length
  nelems : sx.nelems = (used sx C).length
  distinct : ((entries sx C).map Prod.fst).Nodup
  chains_pos : 0 < sx.nchains
  nalloc_pos : 0 < sx.nalloc
  small : sx.nalloc ≤ SX_NONE

theorem SxInv.hash_lt (h : SxInv sx C fl) (sig : Signature) : sx.hash sig < sx.nchains := Nat.mod_lt _ h.chains_pos

theorem mem_used : x ∈ used sx C ↔ ∃ i < sx.nchains, x ∈ C i := mem_buckets

theorem SxInv.nodup (h : SxInv sx C fl) : (used sx C ++ fl).Nodup := h.slots.nodup_iff.2 nodup_range

theorem SxInv.count (h : SxInv sx C fl) : sx.nfree + sx.nelems = sx.nalloc := by
  have h1 := h.slots.length_eq
  have h2 := h.nfree
  have h3 := h.nelems
  simp only [length_append, length_range] at h1
  omega

theorem SxInv.ne_none (h : SxInv sx C fl) (hx : x ∈ used sx C ++ fl) : x ≠ SX_NONE := by
  have h1 := mem_range.1 (h.slots.mem_iff.1 hx)
  have h2 := h.small
  omega

theorem SxInv.table (h : SxInv sx C fl) : Table sx.nchains sx.chains (fun x => (sx.sxep x).next)
    (fun x => sx.hash (sx.sxep x).sxi) C SX_NONE := ⟨h.chain, h.hash⟩

theorem SxInv.chain_nodup (h : SxInv sx C fl) (hi : i < sx.nchains) : (C i).Nodup :=
  (nodup_flatMap.1 (nodup_append.1 h.nodup).1).1 i (mem_range.2 hi)

theorem SxInv.chain_length (h : SxInv sx C fl) (hi : i < sx.nchains) : (C i).length ≤ sx.nalloc := by
  have hsub : ∀ x ∈ C i, x ∈ List.range sx.nalloc := fun x hx =>
    h.slots.mem_iff.1 (mem_append_left _ (mem_used.2 ⟨i, hi, hx⟩))
  have := (subperm_of_subset (h.chain_nodup hi) hsub).length_le
  simpa using this

theorem SxInv.notMem_entries (h : SxInv sx C fl) (hno : ∀ x ∈ C (sx.hash sig), (sx.sxep x).sxi ≠ sig) :
    sig ∉ (entries sx C).map Prod.fst := by
  intro hm
  obtain ⟨⟨_, _⟩, he, rfl⟩ := mem_map.1 hm
  obtain ⟨x, hx, he⟩ := mem_map.1 he
  injection he with he _
  subst he
  exact hno x (h.table.mem_chain hx) rfl

/-! ## Looking up -/

theorem findFrom_spec (sx : SignatureIndex) (sig : Signature) : ∀ {xs : List Nat} {fuel next : Nat},
    Chain (fun x => (sx.sxep x).next) next xs SX_NONE → (∀ x ∈ xs, x ≠ SX_NONE) → xs.length < fuel →
    wp (findFrom sx sig fuel next) (fun r s' => s' = sx ∧
      (r = none ∧ (∀ x ∈ xs, (sx.sxep x).sxi ≠ sig) ∨ ∃ x ∈ xs, r = some x ∧ (sx.sxep x).sxi = sig)) sx
  | [], fuel + 1, next, hc, _, _ => by
    have hn : next = SX_NONE := hc
    rw [findFrom, if_pos hn, wp_pure]
    exact ⟨rfl, .inl ⟨rfl, nofun⟩⟩
  | x :: xs, fuel + 1, next, hc, hne, hf => by
    obtain ⟨rfl, hc⟩ := hc
    rw [findFrom, if_neg (hne next mem_cons_self)]
    by_cases hsig : sig = (sx.sxep next).sxi
    · rw [if_pos hsig, wp_pure]
      exact ⟨rfl, .inr ⟨next, mem_cons_self, rfl, hsig.symm⟩⟩
    · rw [if_neg hsig]
      refine (findFrom_spec sx sig hc (fun y hy => hne y (mem_cons_of_mem _ hy))
        (by simp only [length_cons] at hf; omega)).mono ?_
      rintro r s' ⟨hs, hr⟩
      refine ⟨hs, ?_⟩
      rcases hr with ⟨hr, hno⟩ | ⟨y, hy, hr, he⟩
      · refine .inl ⟨hr, fun y hy => ?_⟩
        rcases mem_cons.1 hy with rfl | hy
        · exact fun e => hsig e.symm
        · exact hno y hy
      · exact .inr ⟨y, mem_cons_of_mem _ hy, hr, he⟩

/-- **Looking up** a signature. -/
theorem find_spec (h : SxInv sx C fl) (sig : Signature) :
    wp (find sig) (fun r s' => s' = sx ∧ (r = none ∧ sig ∉ (entries sx C).map Prod.fst ∨
      ∃ x ∈ used sx C, r = some x ∧ (sx.sxep x).sxi = sig)) sx := by
  have hi := h.hash_lt sig
  have hmem : ∀ x ∈ C (sx.hash sig), x ∈ used sx C := fun x hx => mem_used.2 ⟨_, hi, hx⟩
  have hlen := h.chain_length hi
  simp only [find, wp_bind, wp_read]
  refine (findFrom_spec sx sig (h.chain _ hi) (fun x hx => h.ne_none (mem_append_left _ (hmem x hx)))
    (by omega)).mono ?_
  rintro r s' ⟨hs, hr⟩
  refine ⟨hs, ?_⟩
  rcases hr with ⟨hr, hno⟩ | ⟨x, hx, hr, he⟩
  · exact .inl ⟨hr, h.notMem_entries hno⟩
  · exact .inr ⟨x, hmem x hx, hr, he⟩

theorem silent_findFrom (sx : SignatureIndex) (sig : Signature) : ∀ fuel next, Silent (findFrom sx sig fuel next)
  | 0, _ => silent_ofOption
  | fuel + 1, _ => silent_ite silent_pure (silent_ite silent_pure (silent_findFrom sx sig fuel _))

theorem silent_find (sig : Signature) : Silent (find sig) := silent_read.bind fun _ => silent_findFrom _ _ _ _

/-! ## Adding -/

theorem SxInv.cons {z : Nat} (h : SxInv sx C (z :: fl)) (hsig : sig ∉ (entries sx C).map Prod.fst) {offset : Int}
    (hn : sx'.nchains = sx.nchains) (hna : sx'.nalloc = sx.nalloc) (hfree : sx'.freeHead = (sx.sxep z).next)
    (hnf : sx'.nfree = sx.nfree - 1) (hne : sx'.nelems = sx.nelems + 1)
    (hch : sx'.chains = update sx.chains (sx.hash sig) z)
    (hz : sx'.sxep z = ⟨sig, offset, sx.chains (sx.hash sig)⟩) (hrest : ∀ x, x ≠ z → sx'.sxep x = sx.sxep x) :
    ∃ C', SxInv sx' C' fl ∧ (entries sx' C').Perm ((sig, offset) :: entries sx C) := by
  have hi := h.hash_lt sig
  have hnd := h.nodup
  have hzused : z ∉ used sx C := fun hm => (nodup_append.1 hnd).2.2 z hm z mem_cons_self rfl
  have hzfl : z ∉ fl := (nodup_cons.1 (nodup_append.1 hnd).2.1).1
  have hother : ∀ x ∈ used sx C, sx'.sxep x = sx.sxep x := fun x hx => hrest x fun e => hzused (e ▸ hx)
  have hused : (used sx' (update C (sx.hash sig) (z :: C (sx.hash sig)))).Perm (z :: used sx C) := by
    rw [used, hn]
    exact buckets_cons C hi
  have htab : Table sx.nchains (update sx.chains (sx.hash sig) z) (fun x => (sx'.sxep x).next)
      (fun x => sx.hash (sx'.sxep x).sxi) (update C (sx.hash sig) (z :: C (sx.hash sig))) SX_NONE :=
    h.table.cons hi (by rw [hz]) (by rw [hz]) fun x hx => by simp only [hother x hx, and_self]
  have hent : (entries sx' (update C (sx.hash sig) (z :: C (sx.hash sig)))).Perm
      ((sig, offset) :: entries sx C) := by
    refine (hused.map _).trans ?_
    rw [map_cons, hz]
    refine List.Perm.cons _ ?_
    rw [entries, map_congr_left fun x hx => by rw [hother x hx]]
  refine ⟨_, ?_, hent⟩
  constructor
  case chain =>
    rw [hn, hch]
    exact htab.chain
  case hash =>
    unfold SignatureIndex.hash
    rw [hn]
    exact htab.hash
  case free =>
    rw [hfree]
    exact chain_congr h.free.2 fun x hx => by rw [hrest x fun e => hzfl (e ▸ hx)]
  case slots =>
    rw [hna]
    exact ((hused.append_right fl).trans perm_middle.symm).trans h.slots
  case nfree =>
    rw [hnf, h.nfree]
    rfl
  case nelems =>
    rw [hne, h.nelems, hused.length_eq]
    rfl
  case distinct =>
    rw [(hent.map Prod.fst).nodup_iff]
    exact nodup_cons.2 ⟨hsig, h.distinct⟩
  case chains_pos =>
    rw [hn]
    exact h.chains_pos
  case nalloc_pos =>
    rw [hna]
    exact h.nalloc_pos
  case small =>
    rw [hna]
    exact h.small

/-- **Adding** a signature: it fails only when no element is left. -/
theorem add_spec (h : SxInv sx C fl) (hsig : sig ∉ (entries sx C).map Prod.fst) (offset : Int) :
    wp (add sig offset) (fun r s' => fl = [] ∧ r = none ∧ s' = sx ∨ ∃ z fl', fl = z :: fl' ∧ r = some z ∧
      s'.nalloc = sx.nalloc ∧ ∃ C', SxInv s' C' fl' ∧ (entries s' C').Perm ((sig, offset) :: entries sx C)) sx := by
  have hna := h.nalloc_pos
  simp only [add, allocateElement, wp_bind, wp_read, wp_assert]
  refine ⟨by omega, h.count, ?_⟩
  cases fl with
  | nil =>
    have h0 : sx.nfree = 0 := h.nfree
    rw [if_pos h0, wp_pure, if_pos rfl, wp_pure]
    exact .inl ⟨rfl, rfl, rfl⟩
  | cons z fl =>
    have h0 : sx.nfree ≠ 0 := by rw [h.nfree]; simp
    have hz : sx.freeHead = z := h.free.1
    rw [if_neg h0, hz]
    simp only [wp_bind, wp_modify, wp_pure]
    rw [if_neg (h.ne_none (mem_append_right _ mem_cons_self))]
    simp only [wp_bind, wp_modify, wp_pure]
    refine .inr ⟨z, fl, rfl, rfl, rfl, h.cons hsig ?_ ?_ ?_ ?_ ?_ ?_ ?_ fun x hx => ?_⟩
    · rfl
    · rfl
    · rfl
    · exact sizeSub_of_le (by omega)
    · rfl
    · rfl
    · exact update_self _ _ _
    · exact update_of_ne hx _ _

theorem silent_add (sig : Signature) (offset : Int) : Silent (add sig offset) := by
  refine silent_read.bind fun sx => silent_assert.bind fun _ => silent_assert.bind fun _ => ?_
  refine Silent.bind (silent_read.bind fun _ => silent_ite silent_pure (silent_modify.bind fun _ => silent_pure))
    fun _ => ?_
  exact silent_ite silent_pure (silent_modify.bind fun _ => silent_pure)

/-! ## Removing -/

theorem SxInv.unlink (h : SxInv sx C fl) {pre suf : List Nat} (hi : i < sx.nchains)
    (hC : C i = pre ++ x :: suf) (hn : sx'.nchains = sx.nchains) (hna : sx'.nalloc = sx.nalloc)
    (hfree : sx'.freeHead = x) (hnf : sx'.nfree = sx.nfree + 1) (hne : sx'.nelems = sx.nelems - 1)
    (hch : ∀ j, j ≠ i → sx'.chains j = sx.chains j) (hnil : pre = [] → sx'.chains i = suf.headD SX_NONE)
    (hcons : pre ≠ [] → sx'.chains i = sx.chains i) (hx : (sx'.sxep x).next = sx.freeHead)
    (hlast : ∀ y ∈ pre.getLast?, sx'.sxep y = { sx.sxep y with next := suf.headD SX_NONE })
    (hrest : ∀ y, y ≠ x → y ∉ pre.getLast? → sx'.sxep y = sx.sxep y) :
    ∃ C', SxInv sx' C' (x :: fl) ∧
      (((sx.sxep x).sxi, (sx.sxep x).offset) :: entries sx' C').Perm (entries sx C) := by
  have hnd := h.chain_nodup hi
  rw [hC] at hnd
  have hxC : x ∈ C i := by rw [hC]; simp
  have hpreC : ∀ y ∈ pre, y ∈ C i := fun y hy => by rw [hC]; simp [hy]
  have hused : (x :: used sx' (update C i (pre ++ suf))).Perm (used sx C) := by
    rw [used, hn]
    exact buckets_unlink C hi hC
  -- what the other elements keep: everything but the link, and that too unless they were before `x`
  have hkeep : ∀ y, y ≠ x → (sx'.sxep y).sxi = (sx.sxep y).sxi ∧ (sx'.sxep y).offset = (sx.sxep y).offset := by
    intro y hy
    by_cases hm : y ∈ pre.getLast?
    · rw [hlast y hm]
      exact ⟨rfl, rfl⟩
    · rw [hrest y hy hm]
      exact ⟨rfl, rfl⟩
  have hnotx : ∀ y ∈ used sx' (update C i (pre ++ suf)), y ≠ x := by
    intro y hy e
    have hnd' := hused.nodup_iff.2 (nodup_append.1 h.nodup).1
    exact (nodup_cons.1 hnd').1 (e ▸ hy)
  have htab : Table sx.nchains sx'.chains (fun y => (sx'.sxep y).next) (fun y => sx.hash (sx'.sxep y).sxi)
      (update C i (pre ++ suf)) SX_NONE := by
    refine h.table.unlink hi hC hnd hch hnil hcons (fun y hy => by rw [hlast y hy]) fun y hy => ⟨fun hm => ?_, ?_⟩
    · rw [hrest y hy hm]
    · rw [(hkeep y hy).1]
  have hent : (((sx.sxep x).sxi, (sx.sxep x).offset) :: entries sx' (update C i (pre ++ suf))).Perm
      (entries sx C) := by
    refine List.Perm.trans ?_ (hused.map _)
    rw [map_cons, entries]
    refine List.Perm.cons _ ?_
    rw [map_congr_left fun y hy => by rw [(hkeep y (hnotx y hy)).1, (hkeep y (hnotx y hy)).2]]
  refine ⟨_, ?_, hent⟩
  constructor
  case chain =>
    rw [hn]
    exact htab.chain
  case hash =>
    unfold SignatureIndex.hash
    rw [hn]
    exact htab.hash
  case free =>
    refine ⟨hfree, ?_⟩
    beta_reduce
    rw [hx]
    refine chain_congr h.free fun y hy => ?_
    have hy' : ∀ z ∈ C i, z ≠ y := fun z hz e =>
      (nodup_append.1 h.nodup).2.2 z (mem_used.2 ⟨i, hi, hz⟩) y hy e
    rw [hrest y (fun e => hy' x hxC e.symm) fun hm => hy' y (hpreC y (mem_of_mem_getLast? hm)) rfl]
  case slots =>
    rw [hna]
    exact (perm_middle.trans (hused.append_right fl)).trans h.slots
  case nfree =>
    rw [hnf, h.nfree]
    rfl
  case nelems =>
    rw [hne, h.nelems, ← hused.length_eq]
    rfl
  case distinct =>
    have := ((hent.map Prod.fst).nodup_iff).2 h.distinct
    exact (nodup_cons.1 this).2
  case chains_pos =>
    rw [hn]
    exact h.chains_pos
  case nalloc_pos =>
    rw [hna]
    exact h.nalloc_pos
  case small =>
    rw [hna]
    exact h.small

theorem SxInv.next_at (h : SxInv sx C fl) {pre suf : List Nat} (hi : i < sx.nchains)
    (hC : C i = pre ++ x :: suf) : (sx.sxep x).next = suf.headD SX_NONE := by
  have hc := h.chain i hi
  rw [hC] at hc
  exact chain_at (f := fun x => (sx.sxep x).next) hc

theorem SxInv.nelems_pos (h : SxInv sx C fl) (hx : x ∈ used sx C) : 1 ≤ sx.nelems := by
  rw [h.nelems]
  exact length_pos_of_mem hx

def Removed (sx : SignatureIndex) (C : Nat → List Nat) (fl : List Nat) (sig : Signature)
    (sx' : SignatureIndex) : Prop :=
  sx'.nalloc = sx.nalloc ∧ ∃ off x C', SxInv sx' C' (x :: fl) ∧ ((sig, off) :: entries sx' C').Perm (entries sx C)

theorem removeFrom_spec (h : SxInv sx C fl) (hi : i < sx.nchains) : ∀ {suf : List Nat} {fuel : Nat}
    {pre : List Nat} {p : Nat}, C i = pre ++ p :: suf → suf.length < fuel →
    wp (removeFrom sx sig fuel p (sx.sxep p).next) (fun r s' =>
      r = false ∧ s' = sx ∧ (∀ x ∈ suf, (sx.sxep x).sxi ≠ sig) ∨ r = true ∧ Removed sx C fl sig s') sx
  | [], fuel + 1, pre, p, hC, _ => by
    have hnext : (sx.sxep p).next = SX_NONE := h.next_at hi hC
    rw [removeFrom, if_pos hnext, wp_pure]
    exact .inl ⟨rfl, rfl, nofun⟩
  | x :: suf, fuel + 1, pre, p, hC, hf => by
    have hnext : (sx.sxep p).next = x := h.next_at hi hC
    have hC' : C i = (pre ++ [p]) ++ x :: suf := by simp [hC]
    have hxC : x ∈ C i := by rw [hC']; simp
    have hnd := h.chain_nodup hi
    rw [hC'] at hnd
    have hpx : p ≠ x := fun e => (nodup_append.1 hnd).2.2 p (by simp) x mem_cons_self e
    rw [removeFrom, hnext, if_neg (h.ne_none (mem_append_left _ (mem_used.2 ⟨i, hi, hxC⟩)))]
    by_cases hsig : sig = (sx.sxep x).sxi
    · rw [if_pos hsig]
      simp only [removed, freeElement, wp_bind, wp_modify, wp_pure]
      refine .inr ⟨trivial, rfl, (sx.sxep x).offset, x, ?_⟩
      rw [hsig]
      refine h.unlink hi hC' rfl rfl rfl rfl (sizeSub_of_le (h.nelems_pos (mem_used.2 ⟨i, hi, hxC⟩)))
        (fun _ _ => rfl) ?_ (fun _ => rfl) ?_ ?_ ?_
      · simp
      · simp [setElem]
      · intro y hy
        obtain rfl : y = p := by simpa using hy.symm
        simp [setElem, hpx, h.next_at hi hC']
      · intro y hyx hyp
        have hyp' : y ≠ p := by
          intro e
          simp [e] at hyp
        simp [setElem, hyx, hyp']
    · rw [if_neg hsig]
      refine (removeFrom_spec h hi hC' (by simp only [length_cons] at hf; omega)).mono ?_
      intro r s' hr
      rcases hr with ⟨hr, hs, hno⟩ | hr
      · refine .inl ⟨hr, hs, fun y hy => ?_⟩
        rcases mem_cons.1 hy with rfl | hy
        · exact fun e => hsig e.symm
        · exact hno y hy
      · exact .inr hr

/-- **Removing** a signature. -/
theorem remove_spec (h : SxInv sx C fl) (sig : Signature) :
    wp (remove sig) (fun r s' => r = false ∧ s' = sx ∧ sig ∉ (entries sx C).map Prod.fst ∨
      r = true ∧ Removed sx C fl sig s') sx := by
  have hi := h.hash_lt sig
  have hno : (∀ x ∈ C (sx.hash sig), (sx.sxep x).sxi ≠ sig) → _ := h.notMem_entries
  simp only [remove, wp_bind, wp_read, wp_assert]
  refine ⟨h.count, ?_⟩
  have hhead := chain_head (h.chain _ hi)
  cases hC : C (sx.hash sig) with
  | nil =>
    rw [hC] at hno
    rw [hC, headD_nil] at hhead
    rw [if_pos hhead, wp_pure]
    exact .inl ⟨rfl, rfl, hno (fun _ h => by cases h)⟩
  | cons x suf =>
    rw [hC, headD_cons] at hhead
    have hxC : x ∈ C (sx.hash sig) := by rw [hC]; exact mem_cons_self
    have hxu : x ∈ used sx C := mem_used.2 ⟨_, hi, hxC⟩
    have hC' : C (sx.hash sig) = [] ++ x :: suf := hC
    rw [hhead, if_neg (h.ne_none (mem_append_left _ hxu))]
    by_cases hsig : sig = (sx.sxep x).sxi
    · rw [if_pos hsig]
      simp only [removed, freeElement, wp_bind, wp_modify, wp_pure]
      refine .inr ⟨trivial, rfl, (sx.sxep x).offset, x, ?_⟩
      rw [hsig] at hi hC' ⊢
      refine h.unlink hi hC' rfl rfl rfl rfl (sizeSub_of_le (h.nelems_pos hxu)) ?_ ?_ ?_ ?_ ?_ ?_
      · intro j hj
        exact update_of_ne hj _ _
      · intro _
        rw [← h.next_at hi hC']
        exact update_self _ _ _
      · exact fun e => absurd rfl e
      · simp [setElem]
      · exact fun _ h => by cases h
      · intro y hyx _
        simp [setElem, hyx]
    · rw [if_neg hsig]
      have hlen := h.chain_length hi
      rw [hC, length_cons] at hlen
      refine (removeFrom_spec h hi hC' (by omega)).mono ?_
      intro r s' hr
      rcases hr with ⟨hr, hs, hall⟩ | hr
      · refine .inl ⟨hr, hs, hno fun y hy => ?_⟩
        rw [hC] at hy
        rcases mem_cons.1 hy with rfl | hy
        · exact fun e => hsig e.symm
        · exact hall y hy
      · exact .inr hr

theorem silent_removed (index : Nat) : Silent (removed index) :=
  silent_modify.bind fun _ => silent_modify.bind fun _ => silent_pure

theorem silent_removeFrom (sx : SignatureIndex) (sig : Signature) : ∀ fuel prev next,
    Silent (removeFrom sx sig fuel prev next)
  | 0, _, _ => silent_ofOption
  | fuel + 1, _, _ => silent_ite silent_pure <|
    silent_ite (silent_modify.bind fun _ => silent_removed _) (silent_removeFrom sx sig fuel _ _)

theorem silent_remove (sig : Signature) : Silent (remove sig) :=
  silent_read.bind fun _ => silent_assert.bind fun _ => silent_ite silent_pure <|
    silent_ite (silent_modify.bind fun _ => silent_removed _) (silent_removeFrom _ _ _ _ _)

/-! ## The empty index -/

theorem initialElem_chain (n : Nat) (sxep : Nat → SignatureElement) : ∀ m a : Nat, a + m = n →
    Chain (fun x => (initialElem n sxep x).next) (if m = 0 then SX_NONE else a) (List.range' a m) SX_NONE
  | 0, _, _ => rfl
  | m + 1, a, ha => by
    refine ⟨rfl, ?_⟩
    have ih := initialElem_chain n sxep m (a + 1) (by omega)
    have hnext : (initialElem n sxep a).next = if m = 0 then SX_NONE else a + 1 := by
      rw [initialElem, if_pos (by omega)]
      by_cases hm : m = 0
      · rw [if_pos hm]
        exact if_pos (by omega)
      · rw [if_neg hm]
        exact if_neg (by omega)
    beta_reduce
    rw [hnext]
    exact ih

/-- **`SignatureIndex::Initialize`.** -/
theorem initialise_spec (sx : SignatureIndex) {n : Nat} (hpos : 0 < n) (hn : n ≤ SX_NONE) :
    wp (initialise n) (fun _ s' => SxInv s' (fun _ => []) (List.range n) ∧ entries s' (fun _ => []) = [] ∧
      s'.nalloc = n) sx := by
  rw [initialise, wp_modify]
  have hused : ∀ sx : SignatureIndex, used sx (fun _ => []) = [] := fun sx => by simp [used, buckets]
  refine ⟨?_, by simp [entries, hused], rfl⟩
  constructor
  case chain => exact fun i hi => if_pos hi
  case hash => exact fun _ _ _ h => by cases h
  case free =>
    have hc := initialElem_chain n sx.sxep n 0 (Nat.zero_add n)
    rw [if_neg (by omega)] at hc
    rw [range_eq_range']
    exact hc
  case slots => rw [hused]; exact List.Perm.refl _
  case nfree => simp
  case nelems => rw [hused]; rfl
  case distinct => simp [entries, hused]
  case chains_pos => exact prevPrime_pos _
  case nalloc_pos => exact hpos
  case small => exact hn

end SignatureIndex

end Rdm
