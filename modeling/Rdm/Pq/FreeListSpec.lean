import Rdm.Pq.RegionList

/-!
# The two lists of free regions

`ListInv o s own xs ht`: the regions `xs` are the skip list of order `o`, sorted. The operations are specified once for
both orders; neither touches the other list (`ListInv.frame`).
-/

namespace Rdm

open ProgLogic ProgLogic.Prog SkipList FreeBlock List
open Function (Injective update update_of_ne update_self)
open FreeOrder (before head level)

variable {o : FreeOrder} {a b : Region}

namespace FreeOrder

def tag : FreeOrder → Nat → Holder
  | .offset => .offset
  | .extent => .extent

def hd : FreeOrder → Nat
  | .offset => RL_FOFF_HD
  | .extent => RL_FEXT_HD

def Before (o : FreeOrder) (r r' : Region) : Prop := o.before r'.getExtent r'.offset r = true

theorem tag_injective (o : FreeOrder) : Injective o.tag := by
  cases o <;> exact fun _ _ h => by injection h

theorem before_offset {r r' : Region} : Before .offset r r' ↔ r.offset < r'.offset := by
  simp [Before, before]

theorem before_extent {r r' : Region} : Before .extent r r' ↔
    r.getExtent < r'.getExtent ∨ r.getExtent = r'.getExtent ∧ r.offset < r'.offset := by
  simp [Before, before]

theorem Before.asymm (h : o.Before a b) : ¬o.Before b a := by
  cases o with
  | offset =>
    rw [before_offset] at *
    omega
  | extent =>
    rw [before_extent] at *
    omega

def SameKey (o : FreeOrder) (a a' : Region) : Prop := (o = .extent → a'.getExtent = a.getExtent) ∧ a'.offset = a.offset

theorem SameKey.refl (o : FreeOrder) (a : Region) : o.SameKey a a := ⟨fun _ => rfl, rfl⟩

theorem before_congr {a' b' : Region} (ha : o.SameKey a a') (hb : o.SameKey b b') :
    o.Before a' b' ↔ o.Before a b := by
  cases o with
  | offset => rw [before_offset, before_offset, ha.2, hb.2]
  | extent => rw [before_extent, before_extent, ha.1 rfl, ha.2, hb.1 rfl, hb.2]

theorem before_total (h : a.offset ≠ b.offset) : o.Before a b ∨ o.Before b a := by
  cases o with
  | offset =>
    rw [before_offset, before_offset]
    omega
  | extent =>
    rw [before_extent, before_extent]
    omega

theorem hit_self (o : FreeOrder) (r : Region) : o.hit r.getExtent r.offset r = true := by
  cases o <;> simp [hit]

variable (o : FreeOrder)

@[simp] theorem ptr_setPtr (r : Region) (b : Nat) : o.ptr (o.setPtr r b) = b := by cases o <;> rfl

@[simp] theorem setPtr_offset (r : Region) (b : Nat) : (o.setPtr r b).offset = r.offset := by cases o <;> rfl

@[simp] theorem setPtr_extent (r : Region) (b : Nat) : (o.setPtr r b).extent = r.extent := by cases o <;> rfl

@[simp] theorem level_setLevel (rl : RegionList) (k : Nat) : o.level (o.setLevel rl k) = k := by cases o <;> rfl

@[simp] theorem setLevel_rp (rl : RegionList) (k : Nat) : (o.setLevel rl k).rp = rl.rp := by cases o <;> rfl

@[simp] theorem setLevel_nalloc (rl : RegionList) (k : Nat) : (o.setLevel rl k).nalloc = rl.nalloc := by cases o <;> rfl

@[simp] theorem head_setLevel (o' : FreeOrder) (rl : RegionList) (k : Nat) :
    o'.head (o.setLevel rl k) = o'.head rl := by
  cases o <;> cases o' <;> rfl

end FreeOrder

namespace RegionList

variable {o : FreeOrder} {s s' : RlFb} {own own' : Nat → Owner Holder} {xs : List Nat} {ht : Nat → Nat}

@[simp] theorem setRegion_nalloc (rl : RegionList) (i : Nat) (r : Region) : (setRegion rl i r).nalloc = rl.nalloc := rfl

@[simp] theorem setRegion_rp (rl : RegionList) (i : Nat) (r : Region) :
    (setRegion rl i r).rp = update rl.rp i r := rfl

@[simp] theorem head_setRegion (o : FreeOrder) (rl : RegionList) (i : Nat) (r : Region) :
    o.head (setRegion rl i r) = o.head rl := by cases o <;> rfl

@[simp] theorem level_setRegion (o : FreeOrder) (rl : RegionList) (i : Nat) (r : Region) :
    o.level (setRegion rl i r) = o.level rl := by cases o <;> rfl

structure ListInv (o : FreeOrder) (s : RlFb) (own : Nat → Owner Holder) (xs : List Nat) (ht : Nat → Nat) : Prop where
  skip : InPool s.fb own o.tag (fun x => o.ptr (s.rl.rp x)) o.hd o.tail (o.level s.rl) xs ht
  sorted : xs.Pairwise fun x y => o.Before (s.rl.rp x) (s.rl.rp y)
  lt_tail : ∀ x ∈ xs, o.Before (s.rl.rp x) (s.rl.rp o.tail)
  head : o.head s.rl = o.hd
  length : xs.length ≤ s.rl.nalloc

/-- The region `z` can be entered in a free list. -/
structure Insertable (o : FreeOrder) (rl : RegionList) (xs : List Nat) (z : Nat) : Prop where
  not_mem : z ∉ o.hd :: o.tail :: xs
  length : xs.length < rl.nalloc
  offset_ne : ∀ x ∈ xs, (rl.rp x).offset ≠ (rl.rp z).offset
  before_tail : o.Before (rl.rp z) (rl.rp o.tail)

theorem Insertable.perm {rl : RegionList} {z : Nat} (h : Insertable o rl xs z) {zs : List Nat} (hp : zs.Perm xs) :
    Insertable o rl zs z where
  not_mem := by simpa only [mem_cons, hp.mem_iff] using h.not_mem
  length := by rw [hp.length_eq]; exact h.length
  offset_ne x hx := h.offset_ne x (hp.mem_iff.1 hx)
  before_tail := h.before_tail

theorem ptr_update (o : FreeOrder) (rp : Nat → Region) (z b : Nat) :
    (fun x => o.ptr (update rp z (o.setPtr (rp z) b) x)) = update (fun x => o.ptr (rp x)) z b := by
  funext x
  by_cases hx : x = z
  · subst hx
    simp
  · simp [hx]

theorem ListInv.frame (h : ListInv o s own xs ht) (hk : Keeps (fun k => ∃ x, k = o.tag x) s.fb own s'.fb own')
    (hlev : o.level s'.rl = o.level s.rl) (hhead : o.head s'.rl = o.head s.rl) (hn : s'.rl.nalloc = s.rl.nalloc)
    (hptr : ∀ x ∈ o.hd :: xs, o.ptr (s'.rl.rp x) = o.ptr (s.rl.rp x))
    (hkey : ∀ x ∈ o.tail :: xs, o.SameKey (s.rl.rp x) (s'.rl.rp x)) : ListInv o s' own' xs ht where
  skip := by
    rw [hlev]
    exact h.skip.frame hk hptr
  sorted := h.sorted.imp_of_mem fun hx hy hxy =>
    (FreeOrder.before_congr (hkey _ (mem_cons_of_mem _ hx)) (hkey _ (mem_cons_of_mem _ hy))).2 hxy
  lt_tail x hx :=
    (FreeOrder.before_congr (hkey x (mem_cons_of_mem _ hx)) (hkey _ mem_cons_self)).2 (h.lt_tail x hx)
  head := hhead.trans h.head
  length := by
    rw [hn]
    exact h.length

def lower (o : FreeOrder) (rl : RegionList) (e : Nat) (off : Int) (xs : List Nat) : List Nat :=
  xs.filter fun x => o.before e off (rl.rp x)

def upper (o : FreeOrder) (rl : RegionList) (e : Nat) (off : Int) (xs : List Nat) : List Nat :=
  xs.filter fun x => !o.before e off (rl.rp x)

theorem before_mono {e : Nat} {off : Int} (h : o.Before a b) (hb : o.before e off b = true) :
    o.before e off a = true := by
  cases o with
  | offset =>
    rw [FreeOrder.before_offset] at h
    simp only [before, decide_eq_true_eq] at *
    omega
  | extent =>
    rw [FreeOrder.before_extent] at h
    simp only [before, decide_eq_true_eq] at *
    omega

section

variable (h : ListInv o s own xs ht)
include h

theorem ListInv.split (e : Nat) (off : Int) : lower o s.rl e off xs ++ upper o s.rl e off xs = xs :=
  split_sorted _ (fun _ _ hxy hy => before_mono hxy hy) h.sorted

/-- **Searching** a free list. -/
theorem search_spec {e : Nat} {off : Int} (htl : o.before e off (s.rl.rp o.tail) = false) :
    ∃ upd, search o s e off = some (upd, (lower o s.rl e off xs).getLastD o.hd, (upper o s.rl e off xs).headD o.tail) ∧
      ∀ i ≤ o.level s.rl, upd i = lastBefore ht o.hd (lower o s.rl e off xs) i := by
  have hskip := h.skip
  rw [← h.split e off] at hskip
  have hlen := h.length
  obtain ⟨upd, hdesc, hupd, -⟩ := hskip.descend (fun x => o.before e off (s.rl.rp x))
    (fun x hx => (mem_filter.1 hx).2) (fun x hx => by simpa using (mem_filter.1 hx).2) htl
    (by rw [h.split e off]; omega : _ < s.rl.nalloc + 1) (fun _ => o.hd) hskip.level_le mem_cons_self
  refine ⟨upd, ?_, hupd⟩
  rw [search, h.head]
  exact hdesc

theorem ListInv.around {x : Nat} (hx : x ∈ xs) : ∃ suf,
    upper o s.rl (s.rl.rp x).getExtent (s.rl.rp x).offset xs = x :: suf ∧
    xs = lower o s.rl (s.rl.rp x).getExtent (s.rl.rp x).offset xs ++ x :: suf := by
  obtain ⟨pre, suf, rfl⟩ := append_of_mem hx
  have hs := h.sorted
  rw [pairwise_append, pairwise_cons] at hs
  obtain ⟨-, ⟨hsuf, -⟩, hpre⟩ := hs
  have hself : o.before (s.rl.rp x).getExtent (s.rl.rp x).offset (s.rl.rp x) = false := by
    have := fun hb : o.Before (s.rl.rp x) (s.rl.rp x) => hb.asymm hb
    simpa [FreeOrder.Before] using this
  have h1 : pre.filter (fun y => o.before (s.rl.rp x).getExtent (s.rl.rp x).offset (s.rl.rp y)) = pre :=
    filter_eq_self.2 fun y hy => hpre y hy x mem_cons_self
  have h2 : suf.filter (fun y => o.before (s.rl.rp x).getExtent (s.rl.rp x).offset (s.rl.rp y)) = [] := by
    rw [filter_eq_nil_iff]
    exact fun y hy => (hsuf y hy).asymm
  have hlow : lower o s.rl (s.rl.rp x).getExtent (s.rl.rp x).offset (pre ++ x :: suf) = pre := by
    simp [lower, filter_append, hself, h1, h2]
  refine ⟨suf, ?_, by rw [hlow]⟩
  have hsplit := h.split (s.rl.rp x).getExtent (s.rl.rp x).offset
  rw [hlow] at hsplit
  exact append_cancel_left hsplit

/-- **Deleting** a region from a free list. -/
theorem deleteFrom_spec (hinv : Inv s.fb own) {x : Nat} (hx : x ∈ xs) :
    wp (deleteFrom o x) (fun _ s' => ∃ own' k, ListInv o s' own' (xs.erase x) ht ∧ Inv s'.fb own' ∧
      Keeps (Others o.tag) s.fb own s'.fb own' ∧ s'.rl = o.setLevel s.rl k) s := by
  obtain ⟨suf, hup, hxs⟩ := h.around hx
  have htl : o.before (s.rl.rp x).getExtent (s.rl.rp x).offset (s.rl.rp o.tail) = false := by
    have := (h.lt_tail x hx).asymm
    simpa [FreeOrder.Before] using this
  obtain ⟨upd, hsearch, hupd⟩ := search_spec h htl
  rw [hup] at hsearch
  have hskip := h.skip
  generalize lower o s.rl (s.rl.rp x).getExtent (s.rl.rp x).offset xs = pre at hxs hsearch hupd
  subst hxs
  have hnd : (pre ++ x :: suf).Nodup := (nodup_cons.1 (nodup_cons.1 hskip.nodup).2).2
  have herase : (pre ++ x :: suf).erase x = pre ++ suf := by
    have hxpre : x ∉ pre := fun hp => (nodup_append.1 hnd).2.2 x hp x mem_cons_self rfl
    rw [erase_append_right _ hxpre, erase_cons_head]
  have hsub : (pre ++ suf).Sublist (pre ++ x :: suf) := (sublist_cons_self x suf).append_left pre
  have hdel := pool_delete o.tag_injective hinv hskip hupd
  simp only [deleteFrom, wp_bind, wp_read, hsearch, wp_ofOption_some, headD_cons, o.hit_self, if_true, wp_modify,
    onFb, wp_zoom]
  refine hdel.mono ?_
  rintro - fb ⟨own', hpool, hskip', hkeeps⟩
  simp only [modRl, wp_modify, h.head]
  refine ⟨own', _, ?_, hpool, hkeeps, rfl⟩
  rw [herase]
  constructor
  case skip => simpa using hskip'
  case sorted => simpa using h.sorted.sublist hsub
  case lt_tail =>
    intro y hy
    simpa using h.lt_tail y (hsub.mem hy)
  case head => simpa using h.head
  case length =>
    have := hsub.length_le
    have := h.length
    simp only [FreeOrder.setLevel_nalloc]
    omega

def newLevel (o : FreeOrder) (rl : RegionList) (k : Nat) : Nat := if o.level rl < k then o.level rl + 1 else k

def newUpd (o : FreeOrder) (rl : RegionList) (k : Nat) (upd : Nat → Nat) : Nat → Nat :=
  if o.level rl < k then Function.update upd (o.level rl + 1) (o.head rl) else upd

theorem ListInv.place {r : Region} (hne : ∀ x ∈ xs, (s.rl.rp x).offset ≠ r.offset) (htl : o.Before r (s.rl.rp o.tail)) :
    ∃ upd p q pre suf, search o s r.getExtent r.offset = some (upd, p, q) ∧ pre ++ suf = xs ∧
      (∀ x ∈ pre, o.Before (s.rl.rp x) r) ∧ (∀ x ∈ suf, o.Before r (s.rl.rp x)) ∧
      ∀ k, ∀ i ≤ newLevel o s.rl k, newUpd o s.rl k upd i = lastBefore ht o.hd pre i := by
  have htl' : o.before r.getExtent r.offset (s.rl.rp o.tail) = false := by
    have := htl.asymm
    simpa [FreeOrder.Before] using this
  obtain ⟨upd, hsearch, hupd⟩ := search_spec h htl'
  refine ⟨upd, _, _, _, _, hsearch, h.split r.getExtent r.offset, fun x hx => (mem_filter.1 hx).2, ?_, ?_⟩
  · intro x hx
    obtain ⟨hxs, hnb⟩ := mem_filter.1 hx
    rcases FreeOrder.before_total (o := o) (hne x hxs) with hb | hb
    · rw [FreeOrder.Before] at hb
      rw [hb] at hnb
      cases hnb
    · exact hb
  · intro k i hi
    have hsplit := h.split r.getExtent r.offset
    unfold newLevel at hi
    unfold newUpd
    split at hi
    case isTrue hlt =>
      rw [if_pos hlt]
      rcases Nat.lt_or_eq_of_le hi with hi | rfl
      · rw [update_of_ne (by omega), hupd i (by omega)]
      · have hskip := h.skip
        rw [← hsplit] at hskip
        rw [update_self, h.head, hskip.lastBefore_above (Nat.lt_succ_self _)]
    case isFalse hge =>
      rw [if_neg hge]
      exact hupd i (by omega)

/-- **Inserting** a region into a free list. -/
theorem addTo_spec (hinv : Inv s.fb own) {z : Nat} (he : Insertable o s.rl xs z) :
    wp (addTo o z) (fun r s' => r = 0 ∧ ∃ own' ht' k b xs', ListInv o s' own' xs' ht' ∧ xs'.Perm (z :: xs) ∧
      Inv s'.fb own' ∧ Keeps (Others o.tag) s.fb own s'.fb own' ∧
      s'.rl = setRegion (o.setLevel s.rl k) z (o.setPtr (s.rl.rp z) b)) s := by
  obtain ⟨hz, hlen, hne, htl⟩ := he
  obtain ⟨upd, p, q, pre, suf, hsearch, rfl, hpre, hsuf, hupd⟩ := h.place hne htl
  have hlev := h.skip.level_le
  have hpos : 0 < s.fb.maxsize := by obtain ⟨F, hF⟩ := hinv; exact hF.pos
  simp only [addTo, wp_bind, wp_read, hsearch, wp_ofOption_some, onFb, wp_zoom]
  refine (getRandomLevel_spec hinv).mono ?_
  rintro k fb1 ⟨hk, hinv1, hmax1, hcells1⟩
  have hk' : newLevel o s.rl k < s.fb.maxsize := by unfold newLevel; split <;> omega
  simp only [wp_bind, modRl, wp_modify, wp_zoom]
  refine (get_spec hinv1 (o.tag z) (by rw [hmax1]; exact hk')).mono ?_
  rintro b fb2 ⟨hb, own2, hinv2, hnew, hmax2, hkeep⟩
  have hgot : Got (o.tag z) (newLevel o s.rl k) s.fb own b fb2 :=
    ⟨hb, own2, hinv2, hnew, hmax2.trans hmax1, fun c k' hc => by rw [← hcells1]; exact hkeep c k' hc⟩
  have hupd' := hupd k
  obtain ⟨own', hpool, hskip', hkeeps⟩ := pool_insert o.tag_injective h.skip hk' hz hupd' hgot
  have hkey : ∀ x, o.SameKey (s.rl.rp x) (update s.rl.rp z (o.setPtr (s.rl.rp z) b) x) := by
    intro x
    by_cases hx : x = z
    · subst hx; simp [FreeOrder.SameKey, Region.getExtent]
    · simp [FreeOrder.SameKey, hx]
  rw [← ptr_update] at hpool hskip' hkeeps
  unfold newLevel newUpd at hpool hskip' hkeeps
  simp only [if_neg hb, wp_bind, wp_modify, wp_pure, FreeOrder.setLevel_rp]
  refine ⟨trivial, own', update ht z (if o.level s.rl < k then o.level s.rl + 1 else k), _, b, pre ++ z :: suf,
    ?_, perm_middle, ?_, ?_, rfl⟩
  · have hsorted := h.sorted
    rw [pairwise_append] at hsorted
    obtain ⟨h1, h2, h3⟩ := hsorted
    have hbefore : ∀ x y, o.Before (update s.rl.rp z (o.setPtr (s.rl.rp z) b) x)
        (update s.rl.rp z (o.setPtr (s.rl.rp z) b) y) ↔ o.Before (s.rl.rp x) (s.rl.rp y) :=
      fun x y => FreeOrder.before_congr (hkey x) (hkey y)
    constructor
    case skip => simpa using hskip'
    case sorted =>
      simp only [setRegion_rp, FreeOrder.setLevel_rp, hbefore]
      refine pairwise_append.2 ⟨h1, pairwise_cons.2 ⟨hsuf, h2⟩, fun x hx y hy => ?_⟩
      rcases mem_cons.1 hy with rfl | hy
      · exact hpre x hx
      · exact h3 x hx y hy
    case lt_tail =>
      intro x hx
      simp only [setRegion_rp, FreeOrder.setLevel_rp, hbefore]
      by_cases hxz : x = z
      · rw [hxz]
        exact htl
      · refine h.lt_tail x ?_
        simp only [mem_append, mem_cons] at hx ⊢
        tauto
    case head => simpa using h.head
    case length =>
      simp only [length_append, length_cons, setRegion_nalloc, FreeOrder.setLevel_nalloc] at hlen ⊢
      omega
  · simpa using hpool
  · simpa using hkeeps

end

/-! ## Both lists -/

def IsTime (k : Holder) : Prop := ∃ i, k = .time i

structure FreeInv (s : RlFb) (own : Nat → Owner Holder) (L : FreeOrder → List Nat) : Prop where
  pool : Inv s.fb own
  list : ∀ o, ∃ zs ht, ListInv o s own zs ht ∧ zs.Perm (L o)

variable {L : FreeOrder → List Nat}

theorem FreeInv.perm {L' : FreeOrder → List Nat} (h : FreeInv s own L) (hp : ∀ o, (L o).Perm (L' o)) :
    FreeInv s own L' where
  pool := h.pool
  list o := by
    obtain ⟨zs, ht, hl, hz⟩ := h.list o
    exact ⟨zs, ht, hl, hz.trans (hp o)⟩

theorem isTime_others (o : FreeOrder) {k : Holder} (h : IsTime k) : Others o.tag k := by
  obtain ⟨i, rfl⟩ := h
  cases o <;> nofun

theorem tag_others {o' : FreeOrder} (hne : o' ≠ o) {k : Holder} (h : ∃ x, k = o'.tag x) : Others o.tag k := by
  obtain ⟨x, rfl⟩ := h
  cases o <;> cases o' <;> first | exact absurd rfl hne | nofun

theorem ptr_setPtr_ne {o' : FreeOrder} (hne : o' ≠ o) (r : Region) (b : Nat) : o'.ptr (o.setPtr r b) = o'.ptr r := by
  cases o <;> cases o' <;> first | exact absurd rfl hne | rfl

theorem level_setLevel_ne {o' : FreeOrder} (hne : o' ≠ o) (rl : RegionList) (k : Nat) :
    o'.level (o.setLevel rl k) = o'.level rl := by
  cases o <;> cases o' <;> first | exact absurd rfl hne | rfl

theorem FreeInv.frame (h : FreeInv s own L) {rl' : RegionList} (hlev : ∀ o, level o rl' = o.level s.rl)
    (hhead : ∀ o, head o rl' = o.head s.rl) (hn : rl'.nalloc = s.rl.nalloc)
    (hrp : ∀ o x, x ∈ FreeOrder.hd o :: o.tail :: L o →
      o.ptr (rl'.rp x) = o.ptr (s.rl.rp x) ∧ o.SameKey (s.rl.rp x) (rl'.rp x)) : FreeInv { s with rl :=
      rl' } own L where
  pool := h.pool
  list o := by
    obtain ⟨zs, ht, hl, hp⟩ := h.list o
    refine ⟨zs, ht, hl.frame (Keeps.refl _ _ _) (hlev o) (hhead o) hn (fun x hx => ?_) (fun x hx => ?_), hp⟩
    · refine (hrp o x ?_).1
      simp only [mem_cons, hp.mem_iff] at hx ⊢
      tauto
    · refine (hrp o x ?_).2
      simp only [mem_cons, hp.mem_iff] at hx ⊢
      tauto

theorem FreeInv.recount (h : FreeInv s own L) {rl' : RegionList}
    (hlev : ∀ o, level o rl' = o.level s.rl := by intro o; cases o <;> rfl)
    (hhead : ∀ o, head o rl' = o.head s.rl := by intro o; cases o <;> rfl)
    (hn : rl'.nalloc = s.rl.nalloc := by rfl) (hrp : rl'.rp = s.rl.rp := by rfl) :
    FreeInv { s with rl := rl' } own L :=
  h.frame hlev hhead hn fun o x _ => by rw [hrp]; exact ⟨rfl, .refl _ _⟩

theorem FreeInv.delete (h : FreeInv s own L) (o : FreeOrder) {x : Nat} (hx : x ∈ L o) :
    wp (deleteFrom o x) (fun _ s' => ∃ own' k, FreeInv s' own' (update L o ((L o).erase x)) ∧
      Keeps IsTime s.fb own s'.fb own' ∧ s'.rl = o.setLevel s.rl k) s := by
  obtain ⟨zs, ht, hl, hp⟩ := h.list o
  refine (deleteFrom_spec hl h.pool (hp.mem_iff.2 hx)).mono ?_
  rintro - s' ⟨own', k, hl', hpool, hkeeps, hrl⟩
  refine ⟨own', k, ⟨hpool, fun o' => ?_⟩, hkeeps.mono fun _ => isTime_others o, hrl⟩
  by_cases ho : o' = o
  · subst ho
    rw [update_self]
    exact ⟨_, ht, hl', hp.erase x⟩
  · obtain ⟨zs', ht', hl2, hp2⟩ := h.list o'
    rw [update_of_ne ho]
    refine ⟨zs', ht', hl2.frame (hkeeps.mono fun _ => tag_others ho) ?_ ?_ ?_ ?_ ?_, hp2⟩
    · rw [hrl, level_setLevel_ne ho]
    · rw [hrl, FreeOrder.head_setLevel]
    · rw [hrl, FreeOrder.setLevel_nalloc]
    · intro y _
      rw [hrl, FreeOrder.setLevel_rp]
    · intro y _
      rw [hrl, FreeOrder.setLevel_rp]
      exact .refl _ _

theorem FreeInv.add (h : FreeInv s own L) (o : FreeOrder) {z : Nat} (he : Insertable o s.rl (L o) z) :
    wp (addTo o z) (fun r s' => r = 0 ∧ ∃ own' k b, FreeInv s' own' (update L o (z :: L o)) ∧
      Keeps IsTime s.fb own s'.fb own' ∧ s'.rl = setRegion (o.setLevel s.rl k) z (o.setPtr (s.rl.rp z) b)) s := by
  obtain ⟨zs, ht, hl, hp⟩ := h.list o
  refine (addTo_spec hl h.pool (he.perm hp)).mono ?_
  rintro r s' ⟨hr, own', ht', k, b, zs', hl', hp', hpool, hkeeps, hrl⟩
  refine ⟨hr, own', k, b, ⟨hpool, fun o' => ?_⟩, hkeeps.mono fun _ => isTime_others o, hrl⟩
  by_cases ho : o' = o
  · subst ho
    rw [update_self]
    exact ⟨zs', ht', hl', hp'.trans (hp.cons z)⟩
  · obtain ⟨zs2, ht2, hl2, hp2⟩ := h.list o'
    rw [update_of_ne ho]
    have hrp : ∀ y, o'.ptr (s'.rl.rp y) = o'.ptr (s.rl.rp y) ∧ (s'.rl.rp y).extent = (s.rl.rp y).extent ∧
        (s'.rl.rp y).offset = (s.rl.rp y).offset := by
      intro y
      rw [hrl, setRegion_rp, FreeOrder.setLevel_rp]
      by_cases hy : y = z
      · subst hy
        rw [update_self, ptr_setPtr_ne ho]
        simp
      · rw [update_of_ne hy]
        exact ⟨rfl, rfl, rfl⟩
    refine ⟨zs2, ht2, hl2.frame (hkeeps.mono fun _ => tag_others ho) ?_ ?_ ?_ ?_ ?_, hp2⟩
    · rw [hrl, level_setRegion, level_setLevel_ne ho]
    · rw [hrl, head_setRegion, FreeOrder.head_setLevel]
    · rw [hrl, setRegion_nalloc, FreeOrder.setLevel_nalloc]
    · exact fun y _ => (hrp y).1
    · intro y _
      refine ⟨fun _ => ?_, (hrp y).2.2⟩
      rw [Region.getExtent, Region.getExtent, (hrp y).2.1]

end RegionList

end Rdm
