import Rdm.Pq.TimeQueue

/-!
# The time queue is a sorted map

`TqInv s own ts fl ht`: the elements `ts` are in the queue, by strictly increasing time, and the elements `fl` are
unused. `add_spec`: one of these enters at the first free time.
-/

namespace Rdm

open ProgLogic ProgLogic.Prog SkipList FreeBlock Links List
open Function (Injective forall_update_iff update update_of_ne update_self)
open Timestamp (ENDT NONE incrementMicrosecond)

namespace TimeQueue

/-- The invariant of the time queue. -/
structure TqInv (s : TqFb) (own : Nat → Owner Holder) (ts fl : List Nat) (ht : Nat → Nat) : Prop where
  skip : InPool s.fb own .time (fun x => (s.tq.tqep x).fblk) TQ_HEAD TQ_NIL s.tq.level ts ht
  sorted : ts.Pairwise fun x y => (s.tq.tqep x).tv < (s.tq.tqep y).tv
  lt_endt : ∀ x ∈ ts, (s.tq.tqep x).tv < Timestamp.ENDT
  le_endt : ∀ i, (s.tq.tqep i).tv ≤ Timestamp.ENDT
  nil : (s.tq.tqep TQ_NIL).tv = Timestamp.ENDT ∧ (s.tq.tqep TQ_NIL).offset = -1
  free : Chain (fun p : Int => (s.tq.tqep p.toNat).offset) s.tq.freeHead (fl.map (fun i : Nat => (i : Int))) TQ_NONE
  slots : (ts ++ fl).Perm (List.range' TQ_OVERHEAD_ELEMS s.tq.nalloc)
  nfree : s.tq.nfree = fl.length
  nelems : s.tq.nelems = ts.length + TQ_OVERHEAD_ELEMS
  nalloc_pos : 0 < s.tq.nalloc
  nalloc_lt : s.tq.nalloc < 2 ^ 32

variable {s : TqFb} {own own' : Nat → Owner Holder} {ts fl : List Nat} {ht : Nat → Nat} {x : Nat}

theorem time_injective : Injective Holder.time := fun _ _ h => by injection h

/-! ## Reading the invariant -/

section

variable (h : TqInv s own ts fl ht)
include h

theorem TqInv.mem_slots (hx : x ∈ ts ++ fl) : TQ_HEAD < x ∧ x < s.tq.nalloc + TQ_OVERHEAD_ELEMS := by
  have hm := (h.slots.mem_iff).1 hx
  simp only [mem_range'_1, TQ_OVERHEAD_ELEMS] at hm
  simp only [TQ_HEAD, TQ_OVERHEAD_ELEMS]
  omega

theorem TqInv.length : ts.length + fl.length = s.tq.nalloc := by
  have := h.slots.length_eq
  simpa using this

theorem TqInv.nodup : (ts ++ fl).Nodup :=
  h.slots.nodup_iff.2 nodup_range'

theorem TqInv.count : s.tq.count = ts.length := by
  rw [TimeQueue.count, h.nelems, sizeSub_of_le (Nat.le_add_left _ _)]
  exact Nat.add_sub_cancel _ _

theorem TqInv.frame {fb' : FreeBlock}
    (hk : Keeps (fun k => ∃ x, k = Holder.time x) s.fb own fb' own') : TqInv { s with fb := fb' } own' ts fl ht :=
  { h with skip := h.skip.frame hk fun _ _ => rfl }

end

def earlier (tq : TimeQueue) (key : Timestamp) (ts : List Nat) : List Nat := ts.filter fun x => (tq.tqep x).tv < key

def later (tq : TimeQueue) (key : Timestamp) (ts : List Nat) : List Nat :=
    ts.filter fun x => !decide ((tq.tqep x).tv < key)

variable {tq : TimeQueue} {key : Timestamp} {tv : Nat → Timestamp}

theorem mem_earlier : x ∈ earlier tq key ts ↔ x ∈ ts ∧ (tq.tqep x).tv < key := by
  simp [earlier]

theorem mem_later : x ∈ later tq key ts ↔ x ∈ ts ∧ key ≤ (tq.tqep x).tv := by
  simp [later]

theorem TqInv.split (h : TqInv s own ts fl ht) (key : Timestamp) : earlier s.tq key ts ++ later s.tq key ts = ts :=
  split_sorted (fun x => decide ((s.tq.tqep x).tv < key)) (fun x y hxy hy => by
    simp only [decide_eq_true_eq] at hy ⊢
    exact lt_trans hxy hy) h.sorted

theorem TqInv.later_sorted (h : TqInv s own ts fl ht) (key : Timestamp) :
    (later s.tq key ts).Pairwise fun x y => (s.tq.tqep x).tv < (s.tq.tqep y).tv :=
  h.sorted.sublist filter_sublist

theorem TqInv.later_head (h : TqInv s own ts fl ht) (hx : x ∈ later s.tq key ts) :
    (s.tq.tqep ((later s.tq key ts).headD TQ_NIL)).tv ≤ (s.tq.tqep x).tv := by
  have hs := h.later_sorted key
  cases hl : later s.tq key ts with
  | nil => rw [hl] at hx; exact absurd hx not_mem_nil
  | cons y ys =>
    rw [hl] at hs hx
    rcases mem_cons.1 hx with rfl | hx
    · exact le_rfl
    · exact le_of_lt ((pairwise_cons.1 hs).1 x hx)

/-! ## Searching for a free time -/

theorem walk_past {nx : Nat → Nat} (htv : ∀ i, tv i < key) :
    ∀ (fuel p : Nat), walk nx (fun x => tv x < key) fuel p = none
  | 0, _ => rfl
  | fuel + 1, p => by
    rw [walk, if_pos (by simp [htv]), walk_past htv fuel]

theorem walk_stop {nx : Nat → Nat} {before : Nat → Bool} {p' q : Nat} :
    ∀ {fuel p : Nat}, walk nx before fuel p = some (p', q) → before q = false
  | fuel + 1, p, h => by
    rw [walk] at h
    split at h
    · exact walk_stop h
    · rename_i hb
      cases h
      simpa using hb

theorem addSearch_past {nx : Nat → Nat → Nat} {level wfuel : Nat}
    (htv : ∀ i, tv i < key) (fuel k p : Nat) (upd : Nat → Nat) : addSearch nx tv level wfuel fuel k p key upd =
    none := by
  cases fuel with
  | zero => rfl
  | succ fuel => simp [addSearch, walk_past htv]

theorem addSearch_endt {nx : Nat → Nat → Nat} {level wfuel : Nat}
    (htv : ∀ i, tv i ≤ ENDT) (hkey : ENDT ≤ key) (fuel k p : Nat) (upd : Nat → Nat) :
    addSearch nx tv level wfuel fuel k p key upd = none := by
  rcases lt_or_eq_of_le hkey with hlt | rfl
  · exact addSearch_past (fun i => lt_of_le_of_lt (htv i) hlt) fuel k p upd
  · cases fuel with
    | zero => rfl
    | succ fuel =>
      rw [addSearch]
      cases hw : walk (nx k) (fun x => decide (tv x < ENDT)) wfuel p with
      | none => rfl
      | some r =>
        obtain ⟨p', q⟩ := r
        have hq := walk_stop hw
        have hq : tv q = ENDT := le_antisymm (htv q) (not_lt.1 (by simpa using hq))
        have hpast : ∀ i, tv i < ENDT.incrementMicrosecond :=
          fun i => lt_of_le_of_lt (htv i) (Timestamp.lt_incrementMicrosecond _)
        simp [hq, addSearch_past hpast]

def Taken (tq : TimeQueue) (ts : List Nat) (key : Timestamp) (n : Nat) : Prop :=
  ∀ m < n, ∃ x ∈ ts, (tq.tqep x).tv = Timestamp.incrementMicrosecond^[m] key

def Found (tq : TimeQueue) (ts : List Nat) (ht : Nat → Nat) (level : Nat) (now key : Timestamp) (upd : Nat → Nat) :
    Prop :=
  key < Timestamp.ENDT ∧ (∀ x ∈ ts, (tq.tqep x).tv ≠ key) ∧
  (∃ n, key = Timestamp.incrementMicrosecond^[n] now ∧ Taken tq ts now n) ∧
  ∀ j ≤ level, upd j = lastBefore ht TQ_HEAD (earlier tq key ts) j

theorem Taken.cons {n : Nat} (hx : x ∈ ts) (hk : (tq.tqep x).tv = key)
    (h : Taken tq ts key.incrementMicrosecond n) : Taken tq ts key (n + 1) := by
  intro m hm
  cases m with
  | zero => exact ⟨x, hx, hk⟩
  | succ m => simpa [Function.iterate_succ_apply] using h m (by omega)

def SearchEnds (tq : TimeQueue) (ts : List Nat) (ht : Nat → Nat) (level : Nat) (key : Timestamp)
    (res : Option (Timestamp × (Nat → Nat))) : Prop :=
  (∃ key' upd, res = some (key', upd) ∧ Found tq ts ht level key key' upd) ∨
    res = none ∧ ∃ n, ENDT ≤ incrementMicrosecond^[n] key ∧ Taken tq ts key n

theorem SearchEnds.cons {level : Nat} {res : Option (Timestamp × (Nat → Nat))} (hx : x ∈ ts) (hk : (tq.tqep x).tv = key)
    (h : SearchEnds tq ts ht level key.incrementMicrosecond res) : SearchEnds tq ts ht level key res := by
  rcases h with ⟨key', upd, hs, hend, hfree, ⟨n, hn, htk⟩, hl⟩ | ⟨hnone, n, hn, htk⟩
  · exact .inl ⟨key', upd, hs, hend, hfree, ⟨n + 1, hn, htk.cons hx hk⟩, hl⟩
  · exact .inr ⟨hnone, n + 1, hn, htk.cons hx hk⟩

theorem mem_head_earlier {key' : Timestamp} {k p : Nat} (hkey : key ≤ key')
    (hp : p ∈ TQ_HEAD :: onLevel ht k (earlier tq key ts)) : p ∈ TQ_HEAD :: onLevel ht k (earlier tq key' ts) := by
  rcases mem_cons.1 hp with rfl | hp
  · exact mem_cons_self
  · obtain ⟨h1, h2⟩ := mem_onLevel.1 hp
    obtain ⟨h3, h4⟩ := mem_earlier.1 h1
    exact mem_cons_of_mem _ (mem_onLevel.2 ⟨mem_earlier.2 ⟨h3, lt_of_lt_of_le h4 hkey⟩, h2⟩)

theorem TqInv.walk (h : TqInv s own ts fl ht) (hkey : key ≤ ENDT) {k p : Nat}
    (hk : k ≤ s.fb.maxsize - 1) (hp : p ∈ TQ_HEAD :: onLevel ht k (earlier s.tq key ts)) :
    SkipList.walk (nextAt s k) (fun x => (s.tq.tqep x).tv < key) (s.tq.nalloc + 1) p =
      some (lastBefore ht TQ_HEAD (earlier s.tq key ts) k, (onLevel ht k (later s.tq key ts)).headD TQ_NIL) := by
  have hskip := h.skip
  have hlen := h.length
  rw [← h.split key] at hskip
  refine hskip.walk ?_ ?_ ?_ hk (by rw [h.split key]; omega) hp
  · intro x hx
    simpa using (mem_earlier.1 hx).2
  · intro x hx
    simpa using (mem_later.1 hx).2
  · rw [h.nil.1]
    simpa using hkey

theorem later_lt {key' : Timestamp} (hlt : key < key') (hx : x ∈ ts)
    (hk : (tq.tqep x).tv = key) : (later tq key' ts).length < (later tq key ts).length := by
  have hsub : (later tq key' ts).Sublist (later tq key ts) := by
    refine monotone_filter_right ts fun y hy => ?_
    simp only [Bool.not_eq_true', decide_eq_false_iff_not, not_lt] at hy ⊢
    exact le_trans (le_of_lt hlt) hy
  rcases Nat.lt_or_eq_of_le hsub.length_le with hl | hl
  · exact hl
  · have heq := hsub.eq_of_length hl
    have hm : x ∈ later tq key' ts := by rw [heq]; exact mem_later.2 ⟨hx, le_of_eq hk.symm⟩
    have := (mem_later.1 hm).2
    rw [hk] at this
    exact absurd hlt (not_lt.2 this)

/-- **The search of `Add`.** -/
theorem TqInv.addSearch (h : TqInv s own ts fl ht) : ∀ (fuel : Nat) {k p : Nat} {key : Timestamp} (upd : Nat → Nat),
    k ≤ s.tq.level → p ∈ TQ_HEAD :: onLevel ht k (earlier s.tq key ts) →
    (∀ j, k < j → j ≤ s.tq.level → upd j = lastBefore ht TQ_HEAD (earlier s.tq key ts) j) →
    (later s.tq key ts).length * (s.tq.level + 2) + k < fuel →
    SearchEnds s.tq ts ht s.tq.level key
      (TimeQueue.addSearch (nextAt s) (fun x => (s.tq.tqep x).tv) s.tq.level (s.tq.nalloc + 1) fuel k p key upd)
  | 0, k, p, key, upd, _, _, _, hf => by omega
  | fuel + 1, k, p, key, upd, hk, hp, hupd, hf => by
    rcases le_or_gt ENDT key with hkey | hkey
    · exact .inr ⟨addSearch_endt h.le_endt hkey _ _ _ _, 0, hkey, fun m hm => by omega⟩
    have hlev := h.skip.level_le
    have hw := h.walk (le_of_lt hkey) (by omega : k ≤ s.fb.maxsize - 1) hp
    have hupd' : ∀ j, k ≤ j → j ≤ s.tq.level → update upd k (lastBefore ht TQ_HEAD (earlier s.tq key ts) k) j =
        lastBefore ht TQ_HEAD (earlier s.tq key ts) j := by
      intro j h1 h2
      rcases Nat.lt_or_eq_of_le h1 with h1 | rfl
      · rw [update_of_ne (by omega), hupd j h1 h2]
      · rw [update_self]
    simp only [TimeQueue.addSearch, hw, Option.bind_eq_bind, Option.bind_some]
    by_cases hq : (s.tq.tqep ((onLevel ht k (later s.tq key ts)).headD TQ_NIL)).tv = key
    · -- the time is taken on this level
      rw [if_neg (by simpa using hq)]
      have hmem : (onLevel ht k (later s.tq key ts)).headD TQ_NIL ∈ ts := by
        cases hl : onLevel ht k (later s.tq key ts) with
        | nil =>
          rw [hl] at hq
          simp only [headD_nil, h.nil.1] at hq
          exact absurd hkey (by rw [hq]; exact lt_irrefl _)
        | cons y ys =>
          have hy : y ∈ onLevel ht k (later s.tq key ts) := by rw [hl]; exact mem_cons_self
          exact (mem_later.1 (mem_onLevel.1 hy).1).1
      have hlt := Timestamp.lt_incrementMicrosecond key
      have hfewer := later_lt hlt hmem hq
      have hsteps : (later s.tq key.incrementMicrosecond ts).length * (s.tq.level + 2) + (s.tq.level + 2) ≤
          (later s.tq key ts).length * (s.tq.level + 2) := by
        rw [← Nat.succ_mul]
        exact Nat.mul_le_mul_right _ hfewer
      -- either way the search goes on at the top level, for the next time
      have hrec : ∀ p, p ∈ TQ_HEAD :: onLevel ht s.tq.level (earlier s.tq key ts) →
          SearchEnds s.tq ts ht s.tq.level key (TimeQueue.addSearch (nextAt s) (fun x => (s.tq.tqep x).tv) s.tq.level
            (s.tq.nalloc + 1) fuel s.tq.level p key.incrementMicrosecond upd) := by
        intro p hp
        exact .cons hmem hq (TqInv.addSearch h fuel upd (Nat.le_refl _) (mem_head_earlier (le_of_lt hlt) hp)
          (fun j h1 h2 => by omega) (by omega))
      rcases Nat.lt_or_eq_of_le hk with hkl | rfl
      · rw [if_pos hkl]
        refine hrec _ ?_
        rw [hupd _ hkl (Nat.le_refl _)]
        exact getLastD_onLevel_mem (Nat.le_refl _) _ _
      · rw [if_neg (Nat.lt_irrefl _)]
        exact hrec _ (getLastD_onLevel_mem (Nat.le_refl _) _ _)
    · rw [if_pos (by simpa using hq)]
      cases k with
      | zero =>
        refine .inl ⟨key, _, rfl, hkey, fun x hx hxk => hq ?_, ⟨0, rfl, fun m hm => by omega⟩,
          fun j hj => hupd' j (Nat.zero_le _) hj⟩
        have hxl : x ∈ later s.tq key ts := mem_later.2 ⟨hx, le_of_eq hxk.symm⟩
        have hle := h.later_head hxl
        rw [onLevel_zero]
        refine le_antisymm (le_trans hle (le_of_eq hxk)) ?_
        cases hl : later s.tq key ts with
        | nil => rw [hl] at hxl; exact absurd hxl not_mem_nil
        | cons y ys =>
          have hy : y ∈ later s.tq key ts := by rw [hl]; exact mem_cons_self
          exact (mem_later.1 hy).2
      | succ k =>
        exact TqInv.addSearch h fuel _ (by omega) (getLastD_onLevel_mem (Nat.le_succ k) _ _)
          (fun j h1 h2 => hupd' j h1 h2) (by omega)

/-! ## Adding -/

def withoutFree (s : TqFb) (next : Int) : TqFb :=
  { s with tq := { s.tq with freeHead := next, nfree := s.tq.nfree - 1, nelems := s.tq.nelems + 1 } }

theorem allocateElement_spec (h : TqInv s own ts fl ht) {z : Nat} {fl' : List Nat} (hfl : fl = z :: fl') :
    wp allocateElement (fun r s' => r = z ∧ s' = withoutFree s (s.tq.tqep z).offset) s := by
  have hfree := h.free
  rw [hfl] at hfree
  have hz := h.mem_slots (x := z) (by simp [hfl])
  have hn : 0 < s.tq.nfree := by rw [h.nfree, hfl]; simp
  have hhead : s.tq.freeHead = z := hfree.1
  simp only [allocateElement, modTq, wp_bind, wp_read, if_pos hn, wp_modify, wp_assert, wp_pure, hhead,
    Int.toNat_natCast]
  simp only [TQ_HEAD, TQ_NONE] at hz ⊢
  exact ⟨by omega, trivial, rfl⟩

theorem hasSpace_spec (h : TqInv s own ts fl ht) : wp hasSpace (fun r s' => r = decide (fl ≠ []) ∧ s' = s) s := by
  have hlen := h.length
  simp only [hasSpace, wp_bind, wp_read, wp_assert, wp_pure, h.count]
  refine ⟨by omega, ?_, trivial⟩
  cases fl with
  | nil => simp at hlen ⊢; omega
  | cons z fl => simp at hlen ⊢; omega

/-- What a queue gains by `Add`: the element `z`, at the first free time from the clock reading on. -/
structure Added (s : TqFb) (own : Nat → Owner Holder) (ts fl : List Nat) (now : Timestamp) (offset : Int) (s' : TqFb)
    (own' : Nat → Owner Holder) (ht' : Nat → Nat) (z : Nat) (key : Timestamp) : Prop where
  inv : TqInv s' own' (earlier s.tq key ts ++ z :: later s.tq key ts) (fl.erase z) ht'
  pool : Inv s'.fb own'
  keeps : Keeps (Others Holder.time) s.fb own s'.fb own'
  mem : z ∈ fl
  elem : (s'.tq.tqep z).tv = key ∧ (s'.tq.tqep z).offset = offset
  others : ∀ x ≠ z, s'.tq.tqep x = s.tq.tqep x
  nalloc : s'.tq.nalloc = s.tq.nalloc
  free : ∀ x ∈ ts, (s.tq.tqep x).tv ≠ key
  lt_endt : key < Timestamp.ENDT
  first : ∃ n, key = Timestamp.incrementMicrosecond^[n] now ∧ Taken s.tq ts now n

def linked (s : TqFb) (fb : FreeBlock) (z : Nat) (e : TimeQueueElement) (upd : Nat → Nat) (k : Nat) : TqFb :=
  { tq := { setElem s.tq z e with level := max s.tq.level k }
    fb := { fb with fblks := splice (fun x => ((setElem s.tq z e).tqep x).fblk) z upd k fb.fblks } }

theorem linked_spec (h : TqInv s own ts fl ht) {z : Nat} {fl' : List Nat} (hfl : fl = z :: fl') {now : Timestamp}
    (offset : Int) {upd : Nat → Nat} (hfound : Found s.tq ts ht s.tq.level now key upd) {k b : Nat} {fb : FreeBlock}
    (hk : k < s.fb.maxsize) (hgot : Got (Holder.time z) k s.fb own b fb) :
    ∃ own' ht', Added s own ts fl now offset
      (linked (withoutFree s (s.tq.tqep z).offset) fb z ⟨key, offset, b⟩
        (fun i => if s.tq.level < i then TQ_HEAD else upd i) k) own' ht' z key := by
  obtain ⟨hend, hfree, hfirst, hupd⟩ := hfound
  have hnd := h.nodup
  have hzslot := h.mem_slots (x := z) (by simp [hfl])
  have hzts : z ∉ ts := by
    intro hz
    rw [hfl] at hnd
    have := (nodup_append.1 hnd).2.2 z hz z mem_cons_self
    exact this rfl
  have hznew : z ∉ TQ_HEAD :: TQ_NIL :: (earlier s.tq key ts ++ later s.tq key ts) := by
    rw [h.split key]
    simp only [mem_cons, TQ_HEAD, TQ_NIL] at hzslot ⊢
    rintro (rfl | rfl | hz)
    · omega
    · omega
    · exact hzts hz
  have hskip := h.skip
  rw [← h.split key] at hskip
  have hupd' : ∀ i ≤ k, (if s.tq.level < i then TQ_HEAD else upd i) = lastBefore ht
    TQ_HEAD (earlier s.tq key ts) i := by
    intro i hi
    split
    case isTrue hlt => exact (hskip.lastBefore_above hlt).symm
    case isFalse hge => exact hupd i (by omega)
  obtain ⟨own', hpool, hskip', hkeep⟩ := pool_insert time_injective hskip hk hznew hupd' hgot
  have hfblk := Function.comp_update TimeQueueElement.fblk s.tq.tqep z ⟨key, offset, b⟩
  rw [show update (fun x => (s.tq.tqep x).fblk) z b = _ from hfblk.symm] at hpool hskip' hkeep
  have hothers : ∀ x, x ≠ z → update s.tq.tqep z ⟨key, offset, b⟩ x = s.tq.tqep x :=
    fun x hx => update_of_ne hx _ _
  have hnez : ∀ x ∈ ts, x ≠ z := fun x hx e => hzts (e ▸ hx)
  refine ⟨own', update ht z k, ?_⟩
  constructor
  case inv =>
    constructor
    case skip =>
      exact hskip'
    case sorted =>
      have heq : ∀ x, x ∈ ts → (update s.tq.tqep z ⟨key, offset, b⟩ x).tv = (s.tq.tqep x).tv :=
        fun x hx => by rw [hothers x (hnez x hx)]
      have hsp : ts.Pairwise fun x y => (update s.tq.tqep z ⟨key, offset, b⟩ x).tv <
        (update s.tq.tqep z ⟨key, offset, b⟩ y).tv :=
        h.sorted.imp_of_mem fun hx hy hxy => by rwa [heq _ hx, heq _ hy]
      rw [← h.split key, pairwise_append] at hsp
      simp only [linked, withoutFree, setElem, pairwise_append, pairwise_cons, forall_mem_cons, update_self]
      refine ⟨hsp.1, ⟨fun y hy => ?_, hsp.2.1⟩, fun x hx => ⟨?_, hsp.2.2 x hx⟩⟩
      · obtain ⟨hy, hle⟩ := mem_later.1 hy
        rw [heq y hy]
        exact lt_of_le_of_ne hle (hfree y hy).symm
      · obtain ⟨hx, hlt⟩ := mem_earlier.1 hx
        rwa [heq x hx]
    case lt_endt =>
      refine (forall_update_iff s.tq.tqep fun x e => x ∈ _ → e.tv < ENDT).2 ⟨fun _ => hend, fun x hxz hx =>
        h.lt_endt x ?_⟩
      rw [← h.split key]
      simp only [mem_append, mem_cons] at hx ⊢
      tauto
    case le_endt =>
      exact (forall_update_iff s.tq.tqep fun _ e => e.tv ≤ ENDT).2 ⟨le_of_lt hend, fun x _ => h.le_endt x⟩
    case nil =>
      simp only [linked, withoutFree, setElem]
      rw [hothers TQ_NIL (by simp only [TQ_HEAD, TQ_NIL] at hzslot ⊢; omega)]
      exact h.nil
    case free =>
      have hc := h.free
      rw [hfl] at hc
      have hc := hc.2
      simp only [linked, withoutFree, setElem, hfl, erase_cons_head]
      refine chain_congr (by simpa using hc) fun p hp => ?_
      obtain ⟨i, hi, rfl⟩ := mem_map.1 hp
      simp only [Int.toNat_natCast]
      rw [hothers i]
      rintro rfl
      rw [hfl] at hnd
      exact (nodup_cons.1 (nodup_append.1 hnd).2.1).1 hi
    case slots =>
      refine List.Perm.trans ?_ h.slots
      rw [hfl, erase_cons_head]
      conv_rhs => rw [← h.split key]
      simp only [append_assoc, cons_append]
      refine List.Perm.append_left _ ?_
      exact perm_middle.symm
    case nfree =>
      simp only [linked, withoutFree, setElem, h.nfree, hfl, erase_cons_head, length_cons]
      omega
    case nelems =>
      have hlen : (earlier s.tq key ts).length + (later s.tq key ts).length = ts.length := by
        rw [← length_append, h.split key]
      simp only [linked, withoutFree, setElem, h.nelems, length_append, length_cons]
      omega
    case nalloc_pos => exact h.nalloc_pos
    case nalloc_lt => exact h.nalloc_lt
  case pool => exact hpool
  case keeps => exact hkeep
  case mem => simp [hfl]
  case elem => simp [linked, setElem]
  case others => exact hothers
  case nalloc => rfl
  case free => exact hfree
  case lt_endt => exact hend
  case first => exact hfirst

theorem add_full (h : TqInv s own ts [] ht) (now : Timestamp) (offset : Int) (Q : Int → TqFb → Prop) :
    wlp (add now offset) Q s := by
  unfold add
  simp only [wlp_bind, wlp_read, wlp_assert]
  intro _
  refine (hasSpace_spec h).wlp.mono ?_
  rintro space s' ⟨hspace, _⟩
  rw [wlp_bind, wlp_assert]
  intro htrue
  simp [hspace] at htrue

def startSearch (s : TqFb) (now : Timestamp) : Option (Timestamp × (Nat → Nat)) :=
  TimeQueue.addSearch (nextAt s) (fun x => (s.tq.tqep x).tv) s.tq.level (s.tq.nalloc + 1) s.tq.addFuel s.tq.level
    TQ_HEAD now fun _ => TQ_HEAD

section

variable (h : TqInv s own ts fl ht)
include h

theorem TqInv.startSearch (now : Timestamp) :
    SearchEnds s.tq ts ht s.tq.level now (TimeQueue.startSearch s now) := by
  have hlen := h.length
  have hlater : (later s.tq now ts).length * (s.tq.level + 2) + s.tq.level < s.tq.addFuel := by
    have hle : (later s.tq now ts).length ≤ s.tq.nalloc := Nat.le_trans (length_filter_le _ _) (by omega)
    have := Nat.mul_le_mul_right (s.tq.level + 2) hle
    rw [addFuel, Nat.add_mul]
    omega
  exact h.addSearch s.tq.addFuel (fun _ => TQ_HEAD) (Nat.le_refl _) mem_cons_self (fun j h1 h2 => by omega) hlater

/-- **Adding** when the search ends: an element with the offset is in the queue, at the first free time from the clock
reading on. -/
theorem add_found (hinv : Inv s.fb own) (hfl : fl ≠ []) {now : Timestamp} (offset : Int)
    {upd : Nat → Nat} (hsearch : startSearch s now = some (key, upd))
    (hfound : Found s.tq ts ht s.tq.level now key upd) :
    wp (add now offset) (fun r s' => r = 0 ∧ ∃ own' ht' z key, Added s own ts fl now offset s' own' ht' z key) s := by
  obtain ⟨z, fl', hzfl⟩ := exists_cons_of_ne_nil hfl
  have hpos := h.nalloc_pos
  unfold add
  simp only [wp_bind, wp_read, wp_assert]
  refine ⟨by omega, ?_⟩
  refine (hasSpace_spec h).mono ?_
  rintro space s' ⟨hspace, hs'⟩
  obtain rfl := hs'.symm
  simp only [wp_bind, wp_assert]
  refine ⟨by simp [hspace, hfl], ?_⟩
  refine (allocateElement_spec h hzfl).mono ?_
  rintro r s1 ⟨rfl, rfl⟩
  have hz := h.mem_slots (x := z) (by simp [hzfl])
  simp only [wp_bind, wp_assert, wp_read, Int.toNat_natCast]
  refine ⟨by simp only [TQ_NONE]; omega, ?_⟩
  -- the search is that of the queue before the element was taken
  have hsearch' : startSearch (withoutFree s (s.tq.tqep z).offset) now = some (key, upd) := hsearch
  rw [startSearch] at hsearch'
  rw [hsearch', wp_ofOption_some]
  have hlev := h.skip.level_le
  simp only [onFb, wp_bind, wp_zoom]
  refine (getRandomLevel_spec hinv).mono ?_
  rintro k fb1 ⟨hk, hinv1, hmax1, hcells1⟩
  have hk' : (if s.tq.level < k then s.tq.level + 1 else k) < s.fb.maxsize := by split <;> omega
  refine (get_spec hinv1 (Holder.time z) (by rw [hmax1]; exact hk')).mono ?_
  rintro b fb2 ⟨hb, own2, hinv2, hnew, hmax2, hkeep⟩
  have hgot : Got (Holder.time z) (if s.tq.level < k then s.tq.level + 1 else k) s.fb own b fb2 :=
    ⟨hb, own2, hinv2, hnew, hmax2.trans hmax1, fun c k' hc => by rw [← hcells1]; exact hkeep c k' hc⟩
  obtain ⟨own', ht', hadd⟩ := linked_spec h hzfl offset hfound hk' hgot
  simp only [if_neg hb, modTq, wp_bind, wp_modify, wp_pure]
  refine ⟨trivial, own', ht', z, key, ?_⟩
  exact hadd

/-- **Adding.** If it returns, an element with the offset is in the queue, at the first free time from the clock on. -/
theorem add_spec (hinv : Inv s.fb own) (hfl : fl ≠ []) (now : Timestamp) (offset : Int) :
    wlp (add now offset) (fun r s' => r = 0 ∧ ∃ own' ht' z key, Added s own ts fl now offset s' own' ht' z key) s := by
  rcases h.startSearch now with ⟨key, upd, hsearch, hfound⟩ | ⟨hsearch, -⟩
  · exact (add_found h hinv hfl offset hsearch hfound).wlp
  · obtain ⟨z, fl', hzfl⟩ := exists_cons_of_ne_nil hfl
    unfold add
    simp only [wlp_bind, wlp_read, wlp_assert]
    intro _
    refine (hasSpace_spec h).wlp.mono ?_
    rintro space s' ⟨-, hs'⟩
    obtain rfl := hs'.symm
    simp only [wlp_bind, wlp_assert]
    intro _
    refine (allocateElement_spec h hzfl).wlp.mono ?_
    rintro r s1 ⟨rfl, rfl⟩
    simp only [wlp_bind, wlp_assert, wlp_read, wlp_ofOption]
    intro _ found hfound
    exact absurd (hsearch.symm.trans hfound) (by simp)

/-! ## Deleting -/

/-- What is left after an element was deleted. -/
structure Deleted (s : TqFb) (own : Nat → Owner Holder) (ts fl : List Nat) (ht : Nat → Nat) (x : Nat) (s' : TqFb)
    (own' : Nat → Owner Holder) : Prop where
  inv : TqInv s' own' (ts.erase x) (x :: fl) ht
  pool : Inv s'.fb own'
  keeps : Keeps (Others Holder.time) s.fb own s'.fb own'
  others : ∀ y ≠ x, s'.tq.tqep y = s.tq.tqep y
  nalloc : s'.tq.nalloc = s.tq.nalloc

def freed (s : TqFb) (fb : FreeBlock) (x level : Nat) : TqFb :=
  { tq := { setElem s.tq x ⟨Timestamp.NONE, s.tq.freeHead, FBLK_NONE⟩ with
      freeHead := x
      nfree := s.tq.nfree + 1
      nelems := sizeSub s.tq.nelems 1
      level := level }
    fb := fb }

theorem freed_spec (hx : x ∈ ts) {fb : FreeBlock} {level : Nat}
    (hpool : Inv fb own') (hkeeps : Keeps (Others Holder.time) s.fb own fb own')
    (hskip : InPool fb own' .time (fun x => (s.tq.tqep x).fblk) TQ_HEAD TQ_NIL level (ts.erase x) ht) :
    Deleted s own ts fl ht x (freed s fb x level) own' := by
  have hnd := h.nodup
  have hlen := h.length
  have hlt := h.nalloc_lt
  have hxslot := h.mem_slots (mem_append_left fl hx)
  have hpos : 0 < ts.length := length_pos_of_mem hx
  have herase : ∀ y ∈ ts.erase x, y ∈ ts ∧ y ≠ x := fun y hy =>
    have hnd' : ts.Nodup := (nodup_append.1 hnd).1
    ⟨mem_of_mem_erase hy, fun e => by rw [e] at hy; exact hnd'.not_mem_erase hy⟩
  have hothers : ∀ y, y ≠ x → update s.tq.tqep x ⟨NONE, s.tq.freeHead, FBLK_NONE⟩ y = s.tq.tqep y :=
    fun y hy => update_of_ne hy _ _
  constructor
  case inv =>
    constructor
    case skip =>
      refine hskip.frame (Keeps.refl _ _ _) fun y hy => ?_
      rcases mem_cons.1 hy with rfl | hy
      · simp only [freed, setElem]
        rw [hothers TQ_HEAD (by simp only [TQ_HEAD] at hxslot ⊢; omega)]
      · simp only [freed, setElem]
        rw [hothers y (herase y hy).2]
    case sorted =>
      refine (h.sorted.sublist (erase_sublist)).imp_of_mem fun hy hz hyz => ?_
      simp only [freed, setElem]
      rw [hothers _ (herase _ hy).2, hothers _ (herase _ hz).2]
      exact hyz
    case lt_endt =>
      intro y hy
      simp only [freed, setElem]
      rw [hothers y (herase y hy).2]
      exact h.lt_endt y (herase y hy).1
    case le_endt =>
      exact (forall_update_iff s.tq.tqep fun _ e => e.tv ≤ ENDT).2 ⟨(by decide : NONE ≤ ENDT), fun y _ => h.le_endt y⟩
    case nil =>
      simp only [freed, setElem]
      rw [hothers TQ_NIL (by simp only [TQ_HEAD, TQ_NIL] at hxslot ⊢; omega)]
      exact h.nil
    case free =>
      simp only [freed, setElem, map_cons]
      refine ⟨rfl, ?_⟩
      simp only [Int.toNat_natCast, update_self]
      refine chain_congr h.free fun p hp => ?_
      obtain ⟨i, hi, rfl⟩ := mem_map.1 hp
      simp only [Int.toNat_natCast]
      rw [hothers i]
      rintro rfl
      exact (nodup_append.1 hnd).2.2 i hx i hi rfl
    case slots =>
      refine List.Perm.trans ?_ h.slots
      exact perm_middle.trans ((perm_cons_erase hx).symm.append_right fl)
    case nfree => simp only [freed, h.nfree, length_cons]
    case nelems =>
      simp only [freed, h.nelems, length_erase_of_mem hx, TQ_OVERHEAD_ELEMS]
      rw [sizeSub_of_le (by omega)]
      omega
    case nalloc_pos => exact h.nalloc_pos
    case nalloc_lt => exact h.nalloc_lt
  case pool => exact hpool
  case keeps => exact hkeeps
  case others => exact hothers
  case nalloc => rfl

/-- **Deleting** an element of the queue. -/
theorem delete_spec (hinv : Inv s.fb own) (hx : x ∈ ts) :
    wp (delete x) (fun _ s' => ∃ own', Deleted s own ts fl ht x s' own') s := by
  obtain ⟨pre, suf, rfl⟩ := append_of_mem hx
  have hsorted := h.sorted
  rw [pairwise_append, pairwise_cons] at hsorted
  obtain ⟨-, ⟨hsuf, -⟩, hpre⟩ := hsorted
  have hlen := h.length
  have hxend := h.lt_endt x hx
  have hlev := h.skip.level_le
  have hxslot := h.mem_slots (mem_append_left fl hx)
  have herase : (pre ++ x :: suf).erase x = pre ++ suf := by
    have hnd := (nodup_append.1 h.nodup).1
    have hxpre : x ∉ pre := fun hp => (nodup_append.1 hnd).2.2 x hp x mem_cons_self rfl
    rw [erase_append_right _ hxpre, erase_cons_head]
  obtain ⟨upd, hdesc, hupd, -⟩ := h.skip.descend (beforeEntry s.tq (s.tq.tqep x).tv (s.tq.tqep x).offset)
    (fun y hy => by simpa [beforeEntry] using .inl (hpre y hy x mem_cons_self))
    (fun y hy => by
      rcases mem_cons.1 hy with rfl | hy
      · simp [beforeEntry]
      · have hlt := hsuf y hy
        have hne : (s.tq.tqep y).tv ≠ (s.tq.tqep x).tv := fun e => lt_irrefl _ (e ▸ hlt)
        simp [beforeEntry, hne, le_of_lt hlt])
    (by
      have hne : ENDT ≠ (s.tq.tqep x).tv := fun e => lt_irrefl _ (e ▸ hxend)
      simp [beforeEntry, h.nil.1, hne, le_of_lt hxend])
    (by omega : (pre ++ x :: suf).length < s.tq.nalloc + 1) (fun _ => TQ_HEAD) hlev mem_cons_self
  have hdel := pool_delete time_injective hinv h.skip hupd
  simp only [delete, wp_bind, wp_read]
  rw [show descend (nextAt s) = descend (fun k x => s.fb.fblks ((s.tq.tqep x).fblk + k)) from rfl, hdesc]
  simp only [wp_ofOption_some, wp_bind, wp_assert, headD_cons, and_self, if_true, freeElement, wp_modify, wp_read,
    modTq, onFb, wp_zoom]
  refine ⟨.inr hxslot, hxslot, ?_⟩
  refine hdel.mono ?_
  rintro - fb ⟨own', hpool, hskip, hkeeps⟩
  refine ⟨own', ?_⟩
  have hskip' := hskip
  rw [← herase] at hskip'
  have hfin := freed_spec h hx hpool hkeeps hskip'
  have hhead : update s.tq.tqep x ⟨NONE, s.tq.freeHead, FBLK_NONE⟩ TQ_HEAD = s.tq.tqep TQ_HEAD :=
    update_of_ne (by simp only [TQ_HEAD] at hxslot ⊢; omega) _ _
  have htrim : (fun k => fb.fblks ((update s.tq.tqep x ⟨NONE, s.tq.freeHead, FBLK_NONE⟩ TQ_HEAD).fblk
      + k)) = fun k => fb.fblks ((s.tq.tqep TQ_HEAD).fblk + k) := by rw [hhead]
  rw [← htrim] at hfin
  exact hfin

/-! ## Looking up -/

theorem next_spec {pre suf : List Nat} (hts : ts = pre ++ x :: suf) : next s x = suf.headD TQ_NIL := by
  have hc := h.skip.chain 0 (Nat.zero_le _)
  rw [onLevel_zero, hts, show pre ++ x :: suf = (pre ++ [x]) ++ suf by simp] at hc
  have hn := chain_next (f := fun y => s.fb.fblks ((s.tq.tqep y).fblk + 0)) hc
  rwa [getLastD_append] at hn

theorem first_spec : first s = ts.head? := by
  have hc := chain_head (h.skip.chain 0 (Nat.zero_le _))
  rw [onLevel_zero] at hc
  have hnext : nextAt s 0 TQ_HEAD = ts.headD TQ_NIL := hc
  rw [first, hnext]
  cases ts with
  | nil => rfl
  | cons x ts =>
    have hx := h.mem_slots (x := x) (by simp)
    have hne : x ≠ TQ_NIL := by simp only [TQ_HEAD, TQ_NIL] at hx ⊢; omega
    rw [headD_cons, head?_cons, if_neg hne]

def neighbour (tq : TimeQueue) (ts : List Nat) (key : Timestamp) : Match → Option Nat
  | .lessThan => (earlier tq key ts).getLast?
  | .equal => ts.find? fun x => (tq.tqep x).tv = key
  | .greaterThan => (ts.filter fun x => key < (tq.tqep x).tv).head?

theorem TqInv.filter_gt (key : Timestamp) :
    (ts.filter fun x => key < (s.tq.tqep x).tv) =
      if (s.tq.tqep ((later s.tq key ts).headD TQ_NIL)).tv = key ∧ later s.tq key ts ≠ [] then (later s.tq key ts).tail
      else later s.tq key ts := by
  have hsplit : (ts.filter fun x => key < (s.tq.tqep x).tv) =
      (later s.tq key ts).filter fun x => key < (s.tq.tqep x).tv := by
    rw [later, filter_filter]
    refine filter_congr fun x _ => ?_
    by_cases hx : key < (s.tq.tqep x).tv
    · simp [hx, le_of_lt hx]
    · simp [hx]
  have hsorted := h.later_sorted key
  have hge : ∀ x ∈ later s.tq key ts, key ≤ (s.tq.tqep x).tv := fun x hx => (mem_later.1 hx).2
  rw [hsplit]
  generalize later s.tq key ts = l at hsorted hge
  cases l with
  | nil => simp
  | cons y ys =>
    obtain ⟨hy, -⟩ := pairwise_cons.1 hsorted
    have hys : ∀ x ∈ ys, key < (s.tq.tqep x).tv := fun x hx => lt_of_le_of_lt (hge y mem_cons_self) (hy x hx)
    have hfil : ys.filter (fun x => decide (key < (s.tq.tqep x).tv)) = ys :=
      filter_eq_self.2 fun x hx => by simpa using hys x hx
    by_cases hk : (s.tq.tqep y).tv = key
    · simp [hk, hfil]
    · have hlt := lt_of_le_of_ne (hge y mem_cons_self) (Ne.symm hk)
      simp [hk, hlt, hfil]

theorem TqInv.find_eq (hkey : key < ENDT) :
    (ts.find? fun x => (s.tq.tqep x).tv = key) =
      if (s.tq.tqep ((later s.tq key ts).headD TQ_NIL)).tv = key then some ((later s.tq key ts).headD TQ_NIL) else
        none := by
  have hpre : (earlier s.tq key ts).find? (fun x => decide ((s.tq.tqep x).tv = key)) = none := by
    rw [find?_eq_none]
    intro x hx
    simpa using ne_of_lt (mem_earlier.1 hx).2
  have hsorted := h.later_sorted key
  have hge : ∀ x ∈ later s.tq key ts, key ≤ (s.tq.tqep x).tv := fun x hx => (mem_later.1 hx).2
  conv_lhs => rw [← h.split key, find?_append, hpre, Option.none_or]
  generalize later s.tq key ts = l at hsorted hge
  cases l with
  | nil =>
    have hne : ENDT ≠ key := fun e => lt_irrefl _ (e ▸ hkey)
    simp [h.nil.1, hne]
  | cons y ys =>
    obtain ⟨hy, -⟩ := pairwise_cons.1 hsorted
    by_cases hk : (s.tq.tqep y).tv = key
    · simp [hk]
    · have hnone : ys.find? (fun x => decide ((s.tq.tqep x).tv = key)) = none := by
        rw [find?_eq_none]
        intro x hx
        have hlt := lt_of_le_of_lt (hge y mem_cons_self) (hy x hx)
        simpa using ne_of_gt hlt
      simp [hk, hnone]

/-- **Looking up** the neighbours of a time. The element at the end of time is the tail of the queue itself. -/
theorem find_spec (hkey : key ≤ ENDT) (mt : Match) :
    wp (find key mt) (fun r s' => s' = s ∧
      (r = neighbour s.tq ts key mt ∨ mt = .equal ∧ key = ENDT ∧ r = some TQ_NIL)) s := by
  have hlen := h.length
  have hlev := h.skip.level_le
  simp only [find, wp_bind, wp_read, h.count]
  by_cases hts : ts = []
  · subst hts
    exact wp_pure.2 ⟨rfl, .inl (by cases mt <;> simp [neighbour, earlier])⟩
  have hts0 : ts.length ≠ 0 := by simpa using hts
  have hskip := h.skip
  rw [← h.split key] at hskip
  obtain ⟨upd, hdesc, -, -⟩ := hskip.descend (fun x => decide ((s.tq.tqep x).tv < key))
    (fun y hy => by simpa using (mem_earlier.1 hy).2) (fun y hy => by simpa using (mem_later.1 hy).2)
    (by rw [h.nil.1]; simpa using hkey) (by rw [h.split key]; omega : _ < s.tq.nalloc + 1) (fun _ => TQ_HEAD) hlev
    mem_cons_self
  have hslot : ∀ x ∈ ts, x ≠ TQ_NIL ∧ x ≠ TQ_HEAD := by
    intro x hx
    have := h.mem_slots (mem_append_left fl hx)
    simp only [TQ_HEAD, TQ_NIL] at this ⊢
    omega
  rw [if_neg hts0]
  simp only [wp_bind]
  rw [show descend (nextAt s) = descend (fun k x => s.fb.fblks ((s.tq.tqep x).fblk + k)) from rfl, hdesc]
  simp only [wp_ofOption_some]
  cases mt with
  | lessThan =>
    refine wp_pure.2 ⟨rfl, .inl ?_⟩
    simp only [neighbour]
    rcases eq_nil_or_concat (earlier s.tq key ts) with hnil | ⟨l, y, hl⟩
    · simp [hnil]
    · have hy : y ∈ earlier s.tq key ts := by rw [hl]; simp
      have := (hslot y (mem_earlier.1 hy).1).2
      rw [hl, concat_eq_append, getLastD_append]
      simp [this]
  | equal =>
    rcases lt_or_eq_of_le hkey with hlt | heq
    · exact wp_pure.2 ⟨rfl, .inl (h.find_eq hlt).symm⟩
    · have hlater : later s.tq key ts = [] := by
        refine eq_nil_iff_forall_not_mem.2 fun x hx => ?_
        obtain ⟨hx, hle⟩ := mem_later.1 hx
        exact absurd (heq ▸ hle) (not_le_of_gt (h.lt_endt x hx))
      rw [hlater, headD_nil, if_pos (h.nil.1.trans heq.symm)]
      exact wp_pure.2 ⟨rfl, .inr ⟨rfl, heq, rfl⟩⟩
  | greaterThan =>
    have hgt := h.filter_gt key
    simp only [neighbour, reduceCtorEq, false_and, or_false]
    cases hl : later s.tq key ts with
    | nil =>
      rw [hl] at hgt
      rw [hgt]
      simp
    | cons y ys =>
      have hy : y ∈ ts := (mem_later.1 (by rw [hl]; exact mem_cons_self : y ∈ later s.tq key ts)).1
      rw [hl, headD_cons] at hgt
      rw [headD_cons, if_neg (hslot y hy).1]
      by_cases hk : (s.tq.tqep y).tv = key
      · have hnext : nextAt s 0 y = ys.headD TQ_NIL :=
          next_spec h (by rw [← hl, h.split key] : ts = earlier s.tq key ts ++ y :: ys)
        rw [if_pos ⟨hk, cons_ne_nil _ _⟩, tail_cons] at hgt
        rw [if_pos hk, wp_pure, hnext, hgt]
        refine ⟨rfl, ?_⟩
        cases ys with
        | nil => simp
        | cons w ws =>
          have hw : w ∈ ts := (mem_later.1 (by rw [hl]; simp : w ∈ later s.tq key ts)).1
          simp [(hslot w hw).1]
      · rw [if_neg (fun e => hk e.1)] at hgt
        rw [if_neg hk, wp_pure, hgt]
        exact ⟨rfl, rfl⟩

theorem find_past (hkey : ENDT < key) (mt : Match) :
    wlp (find key mt) (fun r s' => ts = [] ∧ s' = s ∧ r = neighbour s.tq ts key mt) s := by
  have hpast : ∀ i, (s.tq.tqep i).tv < key := fun i => lt_of_le_of_lt (h.le_endt i) hkey
  have hdesc : ∀ (fuel k p : Nat) (upd : Nat → Nat),
      descend (nextAt s) (fun x => decide ((s.tq.tqep x).tv < key)) fuel k p upd = none := by
    intro fuel k p upd
    cases k with
    | zero => simp [descend, walk_past hpast]
    | succ k => simp [descend, walk_past hpast]
  simp only [find, wlp_bind, wlp_read, h.count]
  split
  case isTrue h0 =>
    have hts : ts = [] := eq_nil_of_length_eq_zero h0
    subst hts
    exact wlp_pure.2 ⟨rfl, rfl, by cases mt <;> simp [neighbour, earlier]⟩
  case isFalse => simp [hdesc]

theorem find_wlp (key : Timestamp) (mt : Match) : wlp (find key mt) (fun r s' => s' = s ∧
    (r = neighbour s.tq ts key mt ∨ mt = .equal ∧ r = some TQ_NIL)) s := by
  rcases le_or_gt key ENDT with hkey | hkey
  · refine (find_spec h hkey mt).wlp.mono ?_
    rintro r s' ⟨hs', hr⟩
    exact ⟨hs', hr.imp_right fun hn => ⟨hn.1, hn.2.2⟩⟩
  · refine (find_past h hkey mt).mono ?_
    rintro r s' ⟨-, hs', hr⟩
    exact ⟨hs', .inl hr⟩

end

theorem mem_of_neighbour {mt : Match} (hx : neighbour tq ts key mt = some x) :
    x ∈ ts := by
  cases mt with
  | lessThan => exact (mem_earlier.1 (mem_of_getLast? hx)).1
  | equal => exact mem_of_find?_eq_some hx
  | greaterThan => exact (mem_filter.1 (mem_of_head? hx)).1

/-! ## The empty queue -/

theorem initialElem_le_endt (n nilBlk headBlk i : Nat) : (initialElem n nilBlk headBlk i).tv ≤ ENDT := by
  have hnone : NONE ≤ ENDT := by decide
  unfold initialElem
  split_ifs
  · exact le_refl _
  · exact hnone
  · exact hnone
  · exact hnone

theorem initialElem_chain (n nilBlk headBlk : Nat) : ∀ m a : Nat, TQ_OVERHEAD_ELEMS ≤ a →
    a + m = n + TQ_OVERHEAD_ELEMS →
    Chain (fun p : Int => (initialElem n nilBlk headBlk p.toNat).offset) (if m = 0 then TQ_NONE else a)
      ((range' a m).map (fun i : Nat => (i : Int))) TQ_NONE
  | 0, a, _, _ => rfl
  | m + 1, a, h2, ha => by
    refine ⟨rfl, ?_⟩
    have ih := initialElem_chain n nilBlk headBlk m (a + 1) (by omega) (by omega)
    have hoff : (initialElem n nilBlk headBlk a).offset = if m = 0 then TQ_NONE else ((a + 1 : Nat) : Int) := by
      have hnil : a ≠ TQ_NIL := by simp only [TQ_NIL, TQ_OVERHEAD_ELEMS] at h2 ⊢; omega
      have hhead : a ≠ TQ_HEAD := by simp only [TQ_HEAD, TQ_OVERHEAD_ELEMS] at h2 ⊢; omega
      rw [initialElem, if_neg hnil, if_neg hhead]
      by_cases hm : m = 0
      · rw [if_neg (by omega), if_pos hm]
      · rw [if_pos (by omega), if_neg hm]
        rfl
    simp only [Int.toNat_natCast, hoff]
    exact ih

theorem initialise_spec (hinv : Inv s.fb own) {n : Nat} (hn : 0 < n) (hn' : n < 2 ^ 32) :
    wp (initialise n) (fun _ s' => ∃ own' ht', TqInv s' own' [] (range' TQ_OVERHEAD_ELEMS n) ht' ∧ Inv s'.fb own' ∧
      Keeps (Others Holder.time) s.fb own s'.fb own' ∧ s'.tq.nalloc = n) s := by
  have hpos : 0 < s.fb.maxsize := by obtain ⟨F, h⟩ := hinv; exact h.pos
  simp only [initialise, onFb, wp_bind, wp_zoom]
  refine (get_spec hinv (Holder.time TQ_NIL) hpos).mono ?_
  rintro nilBlk fb1 ⟨-, own1, hinv1, -, hmax1, hkeep1⟩
  simp only [wp_bind, wp_read, wp_zoom]
  refine (get_spec hinv1 (Holder.time TQ_HEAD) (by omega : fb1.maxsize - 1 < fb1.maxsize)).mono ?_
  rintro headBlk fb2 ⟨-, own2, hinv2, hhead, hmax2, hkeep2⟩
  simp only [modTq, wp_modify]
  have hk : Keeps (fun _ => True) s.fb own fb2 own2 :=
    Keeps.trans ⟨hmax1, fun c k _ => hkeep1 c k⟩ ⟨hmax2, fun c k _ => hkeep2 c k⟩
  obtain ⟨hskip, hpool, hkeeps⟩ :=
    pool_init Holder.time (fun x => (initialElem n nilBlk headBlk x).fblk) (by omega) hinv2 hk
    (by decide : TQ_HEAD ≠ TQ_NIL) rfl (fun i hi => hhead i (by omega)) rfl
  refine ⟨own2, fun _ => fb2.maxsize - 1, ?_, hpool, hkeeps, trivial⟩
  constructor
  case skip => exact hskip
  case sorted => exact List.Pairwise.nil
  case lt_endt => exact fun _ h => by cases h
  case le_endt =>
    exact initialElem_le_endt n nilBlk headBlk
  case nil => exact ⟨rfl, rfl⟩
  case free =>
    have hc := initialElem_chain n nilBlk headBlk n TQ_OVERHEAD_ELEMS (Nat.le_refl _) (Nat.add_comm _ _)
    rwa [if_neg (by omega)] at hc
  case slots => exact List.Perm.refl _
  case nfree => simp
  case nelems => rfl
  case nalloc_pos => exact hn
  case nalloc_lt => exact hn'

end TimeQueue

end Rdm
