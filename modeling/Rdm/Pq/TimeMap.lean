import Rdm.Lib.OrderedMap
import Rdm.Pq.FreeBlockInit
import Rdm.Pq.TimeQueueSpec

/-!
# The time queue refines an ordered map

What the time queue is for: a map from times to offsets. The time that `Add` chooses is the least one that is free,
among the times that a clock can show (`Normal`).
-/

namespace Rdm

open ProgLogic ProgLogic.Prog SkipList FreeBlock OrderedMap List
open Timestamp (ENDT incrementMicrosecond)

namespace Timestamp

variable {t u now : Timestamp}

def Normal (t : Timestamp) : Prop := 0 ≤ t.usec ∧ t.usec ≤ 999999

instance (t : Timestamp) : Decidable t.Normal := inferInstanceAs (Decidable (_ ∧ _))

theorem Normal.increment (h : t.Normal) : t.incrementMicrosecond.Normal := by
  obtain ⟨h0, h1⟩ := h
  unfold Normal incrementMicrosecond
  split_ifs
  · simp only
    omega
  · simp only
    omega

theorem Normal.iterate (h : t.Normal) (n : Nat) : (incrementMicrosecond^[n] t).Normal := by
  induction n with
  | zero => exact h
  | succ n ih =>
    rw [Function.iterate_succ_apply']
    exact ih.increment

theorem Normal.increment_le (h : t.Normal) (hu : u.Normal) (hlt : t < u) : t.incrementMicrosecond ≤ u := by
  obtain ⟨h0, h1⟩ := h
  obtain ⟨hu0, hu1⟩ := hu
  rw [lt_iff] at hlt
  unfold incrementMicrosecond
  split_ifs
  · rw [le_iff]
    simp only
    omega
  · rw [le_iff]
    simp only
    omega

theorem le_iterate (now : Timestamp) (n : Nat) : now ≤ incrementMicrosecond^[n] now := by
  induction n with
  | zero => exact le_refl _
  | succ n ih =>
    rw [Function.iterate_succ_apply']
    exact le_trans ih (le_of_lt (lt_incrementMicrosecond _))

theorem Normal.eq_iterate (h : now.Normal) (ht : t.Normal) (hle : now ≤ t) {n : Nat}
    (hlt : t < incrementMicrosecond^[n] now) : ∃ m < n, t = incrementMicrosecond^[m] now := by
  induction n with
  | zero => exact absurd hlt (not_lt_of_ge hle)
  | succ n ih =>
    rcases lt_trichotomy t (incrementMicrosecond^[n] now) with hn | hn | hn
    · obtain ⟨m, hm, e⟩ := ih hn
      exact ⟨m, by omega, e⟩
    · exact ⟨n, by omega, hn⟩
    · rw [Function.iterate_succ_apply'] at hlt
      exact absurd hlt (not_lt_of_ge ((h.iterate n).increment_le ht hn))

end Timestamp

namespace TimeQueue

/-! ## The map and its questions -/

def entry (tq : TimeQueue) (x : Nat) : Timestamp × Int := ((tq.tqep x).tv, (tq.tqep x).offset)

def freeTimes (M : Map Timestamp Int) (now : Timestamp) : Set Timestamp := {t | t.Normal ∧ now ≤ t ∧ M t = none}

def Answers (M : Map Timestamp Int) (key : Timestamp) : Match → Option (Timestamp × Int) → Prop
  | .lessThan => IsBelow M key
  | .equal => IsAt M key
  | .greaterThan => IsAbove M key

structure Enumerates (s : TqFb) (xs : List Nat) : Prop where
  first : first s = xs.head?
  next : ∀ pre x suf, xs = pre ++ x :: suf → next s x = suf.headD TQ_NIL
  ne_nil : TQ_NIL ∉ xs

def HoldsMap (s : TqFb) (M : Map Timestamp Int) : Prop := ∃ xs, Enumerates s xs ∧ Lists M (xs.map (entry s.tq))

/-- The elements that can be had from `First` and `Next`. -/
inductive Given (s : TqFb) : Nat → Prop
  | first {x : Nat} : first s = some x → Given s x
  | next {x : Nat} : Given s x → next s x ≠ TQ_NIL → Given s (next s x)

theorem Enumerates.given {s : TqFb} {xs : List Nat} (h : Enumerates s xs) {x : Nat} : Given s x ↔ x ∈ xs := by
  constructor
  · intro hx
    induction hx with
    | first hx =>
      rw [h.first] at hx
      exact mem_of_head? hx
    | next _ hne ih =>
      obtain ⟨pre, suf, hxs⟩ := append_of_mem ih
      rw [h.next _ _ _ hxs] at hne ⊢
      cases suf with
      | nil => exact absurd rfl hne
      | cons y suf => rw [hxs]; simp
  · -- the elements are given one after the other
    have key : ∀ (suf pre : List Nat), xs = pre ++ suf → (∀ y ∈ pre, Given s y) → ∀ y ∈ xs, Given s y := by
      intro suf
      induction suf with
      | nil =>
        intro pre hxs hpre y hy
        rw [hxs, append_nil] at hy
        exact hpre y hy
      | cons z suf ih =>
        intro pre hxs hpre
        have hz : Given s z := by
          rcases eq_nil_or_concat pre with rfl | ⟨pre', w, rfl⟩
          · exact .first (by rw [h.first, hxs]; rfl)
          · rw [concat_eq_append] at hxs hpre
            have hn : TimeQueue.next s w = z := by rw [h.next pre' w (z :: suf) (by rw [hxs]; simp)]; rfl
            have hne : z ≠ TQ_NIL := fun e => h.ne_nil (by rw [← e, hxs]; simp)
            rw [← hn]
            exact .next (hpre w (by simp)) (by rw [hn]; exact hne)
        refine ih (pre ++ [z]) (by rw [hxs]; simp) fun y hy => ?_
        rcases mem_append.1 hy with hy | hy
        · exact hpre y hy
        · rw [mem_singleton.1 hy]
          exact hz
    exact key xs [] rfl (fun _ hy => by cases hy) x

/-! ## The refinement relation -/

variable {s s' : TqFb} {own own' : Nat → Owner Holder} {ts fl : List Nat} {ht ht' : Nat → Nat} {M : Map Timestamp Int}
  {n : Nat} {now key : Timestamp}

/-- The queue is in order, its elements stand for the entries of the map, and its times are those of a clock. -/
structure Refines (n : Nat) (s : TqFb) (M : Map Timestamp Int) (own : Nat → Owner Holder) (ts fl : List Nat)
    (ht : Nat → Nat) : Prop where
  inv : TqInv s own ts fl ht
  pool : Inv s.fb own
  nalloc : s.tq.nalloc = n
  lists : Lists M (ts.map (entry s.tq))
  normal : ∀ t ∈ keys M, t.Normal

theorem TqInv.enumerates (h : TqInv s own ts fl ht) : Enumerates s ts where
  first := first_spec h
  next _ _ _ hts := next_spec h hts
  ne_nil hx := by
    have := h.mem_slots (mem_append_left fl hx)
    simp only [TQ_HEAD, TQ_NIL] at this
    omega

section

variable (h : Refines n s M own ts fl ht)
include h

theorem Refines.holdsMap : HoldsMap s M := ⟨ts, h.inv.enumerates, h.lists⟩

theorem Refines.taken {m : Nat} (htk : Taken s.tq ts now m) {i : Nat} (hi : i < m) :
    incrementMicrosecond^[i] now ∈ keys M := by
  obtain ⟨x, hx, hxt⟩ := htk i hi
  exact h.lists.mem_keys.2 ⟨entry s.tq x, mem_map_of_mem hx, hxt⟩

theorem Refines.isLeast (hnow : now.Normal) {m : Nat} (htk : Taken s.tq ts now m)
    (hfree : ∀ x ∈ ts, (s.tq.tqep x).tv ≠ incrementMicrosecond^[m] now) :
    IsLeast (freeTimes M now) (incrementMicrosecond^[m] now) := by
  refine ⟨⟨hnow.iterate m, Timestamp.le_iterate now m, h.lists.eq_none ?_⟩, ?_⟩
  · intro e he
    obtain ⟨x, hx, rfl⟩ := mem_map.1 he
    exact hfree x hx
  · rintro t ⟨ht, hle, hnone⟩
    by_contra hlt
    obtain ⟨i, hi, rfl⟩ := hnow.eq_iterate ht hle (not_le.1 hlt)
    exact h.taken htk hi hnone

theorem Refines.added (hnow : now.Normal) {offset : Int} {z : Nat}
    (ha : Added s own ts fl now offset s' own' ht' z key) :
    IsLeast (freeTimes M now) key ∧
      Refines n s' (put M key offset) own' (earlier s.tq key ts ++ z :: later s.tq key ts) (fl.erase z) ht' := by
  obtain ⟨m, rfl, htk⟩ := ha.first
  have hleast := h.isLeast hnow htk ha.free
  refine ⟨hleast, ha.inv, ha.pool, ha.nalloc.trans h.nalloc, ?_, ?_⟩
  · have hz : z ∉ ts := fun hz => (nodup_append.1 h.inv.nodup).2.2 z hz z ha.mem rfl
    have hsame : ∀ l : List Nat, (∀ x ∈ l, x ∈ ts) → l.map (entry s'.tq) = l.map (entry s.tq) := by
      intro l hl
      refine map_congr_left fun x hx => ?_
      rw [entry, entry, ha.others x fun e => hz (e ▸ hl x hx)]
    have hentry : entry s'.tq z = (incrementMicrosecond^[m] now, offset) := Prod.ext ha.elem.1 ha.elem.2
    have hl := h.lists
    rw [← h.inv.split (incrementMicrosecond^[m] now), map_append] at hl
    have hsorted : ((earlier s.tq (incrementMicrosecond^[m] now) ts ++
        z :: later s.tq (incrementMicrosecond^[m] now) ts).map (entry s'.tq)).Pairwise fun a b => a.1 < b.1 :=
      pairwise_map.2 ha.inv.sorted
    rw [map_append, map_cons, hentry, hsame _ fun x hx => (mem_earlier.1 hx).1,
      hsame _ fun x hx => (mem_later.1 hx).1] at hsorted ⊢
    exact hl.insert hsorted
  · intro t ht
    obtain ⟨v, hv⟩ := mem_keys.1 ht
    rcases put_eq_some.1 hv with ⟨rfl, -⟩ | ⟨-, hv⟩
    · exact hleast.1.1
    · exact h.normal t (mem_keys.2 ⟨v, hv⟩)

theorem Refines.deleted {x : Nat} (hx : x ∈ ts) (hd : Deleted s own ts fl ht x s' own') :
    Refines n s' (OrderedMap.erase M (s.tq.tqep x).tv) own' (ts.erase x) (x :: fl) ht := by
  refine ⟨hd.inv, hd.pool, hd.nalloc.trans h.nalloc, ?_, ?_⟩
  · have hnd := (nodup_append.1 h.inv.nodup).1
    have hsame : (ts.erase x).map (entry s'.tq) = (ts.erase x).map (entry s.tq) := by
      refine map_congr_left fun y hy => ?_
      rw [entry, entry, hd.others y ((hnd.mem_erase_iff).1 hy).1]
    obtain ⟨pre, suf, hts⟩ := append_of_mem hx
    have hpre : x ∉ pre := by
      rw [hts] at hnd
      exact fun hp => (nodup_append.1 hnd).2.2 x hp x mem_cons_self rfl
    have hl := h.lists
    rw [hts, map_append, map_cons] at hl
    rw [hsame, hts, erase_append_right _ hpre, erase_cons_head, map_append]
    exact hl.remove
  · intro t ht
    obtain ⟨v, hv⟩ := mem_keys.1 ht
    exact h.normal t (mem_keys.2 ⟨v, (erase_eq_some.1 hv).2⟩)

/-! ## The operations -/

theorem Refines.free_ne_nil (hcap : (keys M).ncard < n) : fl ≠ [] := by
  rintro rfl
  have hlen := h.inv.length
  rw [h.lists.ncard_keys, length_map, ← h.nalloc, ← hlen] at hcap
  exact absurd hcap (Nat.lt_irrefl _)

end

/-- **Add returns** when there is a free time before the end of time, and puts the offset at the least of them. -/
theorem Refines.add (h : Refines n s M own ts fl ht) (hnow : now.Normal) (hcap : (keys M).ncard < n)
    (hkey : IsLeast (freeTimes M now) key) (hend : key < ENDT) (offset : Int) :
    wp (add now offset) (fun r s' => r = 0 ∧ HoldsMap s' (put M key offset)) s := by
  rcases h.inv.startSearch now with ⟨key', upd, hsearch, hfound⟩ | ⟨-, m, hm, htk⟩
  · refine (add_found h.inv h.pool (h.free_ne_nil hcap) offset hsearch hfound).mono ?_
    rintro r s' ⟨hr, own', ht', z, key'', ha⟩
    obtain ⟨hleast, href⟩ := h.added hnow ha
    rw [hleast.unique hkey] at href
    exact ⟨hr, href.holdsMap⟩
  · -- otherwise the least free time would be taken
    obtain ⟨hk, hle, hnone⟩ := hkey.1
    obtain ⟨i, hi, rfl⟩ := hnow.eq_iterate hk hle (lt_of_lt_of_le hend hm)
    exact absurd hnone (h.taken htk hi)

theorem Refines.delete (h : Refines n s M own ts fl ht) {x : Nat} (hx : Given s x) :
    wp (delete x) (fun _ s' => HoldsMap s' (OrderedMap.erase M (s.tq.tqep x).tv)) s := by
  have hx := h.inv.enumerates.given.1 hx
  refine (delete_spec h.inv h.pool hx).mono ?_
  rintro - s' ⟨own', hd⟩
  exact (h.deleted hx hd).holdsMap

theorem Refines.neighbour (h : Refines n s M own ts fl ht) (key : Timestamp) (mt : Match) :
    Answers M key mt ((neighbour s.tq ts key mt).map (entry s.tq)) := by
  cases mt with
  | lessThan =>
    have hb := h.lists.below (p := fun e => decide (e.1 < key)) fun e => decide_eq_true_iff
    rw [filter_map, List.getLast?_map] at hb
    exact hb
  | equal =>
    have ha := h.lists.at (p := fun e => decide (e.1 = key)) fun e => decide_eq_true_iff
    rw [List.find?_map] at ha
    exact ha
  | greaterThan =>
    have ha := h.lists.above (p := fun e => decide (key < e.1)) fun e => decide_eq_true_iff
    rw [filter_map, List.head?_map] at ha
    exact ha

theorem Refines.find (h : Refines n s M own ts fl ht) {mt : Match} (hkey : key ≤ ENDT)
    (heq : mt = .equal → key < ENDT) :
    wp (find key mt) (fun r s' => s' = s ∧ (∀ x ∈ r, Given s x) ∧ Answers M key mt (r.map (entry s.tq))) s := by
  refine (find_spec h.inv hkey mt).mono ?_
  rintro r s' ⟨rfl, rfl | ⟨hmt, hk, -⟩⟩
  · exact ⟨rfl, fun x hx => h.inv.enumerates.given.2 (mem_of_neighbour hx), h.neighbour key mt⟩
  · exact absurd hk (ne_of_lt (heq hmt))

/-! ## Runs -/

def start (nalloc : Nat) : Prog TqFb Unit := do
  onFb (FreeBlock.initialise nalloc)
  initialise nalloc

/-- **The states of a queue, with the map of the run**. -/
inductive Reached (nalloc : Nat) : TqFb → Map Timestamp Int → Prop
  | start {s₀ s : TqFb} : (start nalloc s₀).returned = some ((), s) → Reached nalloc s empty
  | add {s s' : TqFb} {M : Map Timestamp Int} {now key : Timestamp} {offset r : Int} : Reached nalloc s M → now.Normal →
      IsLeast (freeTimes M now) key → key < Timestamp.ENDT → (add now offset s).returned = some (r, s') →
      Reached nalloc s' (put M key offset)
  | delete {s s' : TqFb} {M : Map Timestamp Int} {x : Nat} : Reached nalloc s M → Given s x →
      (delete x s).returned = some ((), s') → Reached nalloc s' (OrderedMap.erase M (s.tq.tqep x).tv)

theorem start_spec (h4 : 4 ≤ n) :
    wlp (start n) (fun _ s' => ∃ own ts fl ht, Refines n s' empty own ts fl ht) s := by
  unfold start
  simp only [onFb, wlp_bind, wlp_zoom]
  rcases Nat.lt_or_ge n (2 ^ 28) with h28 | h28
  · refine (FreeBlock.initialise_spec (κ := Holder) s.fb h4 h28).wlp.mono ?_
    rintro - fb ⟨-, -, own, hinv, -⟩
    have hspec := initialise_spec (s := { s with fb := fb }) hinv (by omega : 0 < n) (by omega)
    refine hspec.wlp.mono ?_
    rintro - s' ⟨own', ht, htq, hpool, -, hn⟩
    exact ⟨own', [], _, ht, htq, hpool, hn, .nil, fun t ht => absurd rfl ht⟩
  · -- such a pool has too many levels
    have hlog : 14 ≤ log4 n := Nat.le_log_of_pow_le (by omega) (by omega)
    unfold FreeBlock.initialise
    simp only [wlp_bind, wlp_assert]
    intro _ hlt
    simp only [FB_MAX_LEVELS] at hlt
    omega

theorem Reached.refines (h4 : 4 ≤ n) (h : Reached n s M) : ∃ own ts fl ht, Refines n s M own ts fl ht := by
  induction h with
  | start hs => exact (start_spec h4).of_returned hs
  | @add s s' M now key offset r _ hnow hkey hend hr ih =>
    obtain ⟨own, ts, fl, ht, h⟩ := ih
    by_cases hfl : fl = []
    · subst hfl
      have hfull := add_full h.inv now offset fun _ s' => ∃ own ts fl ht, Refines n s' (put M key offset) own ts fl ht
      exact hfull.of_returned hr
    · obtain ⟨-, own', ht', z, key', ha⟩ := (add_spec h.inv h.pool hfl now offset).of_returned hr
      obtain ⟨hleast, href⟩ := h.added hnow ha
      rw [hleast.unique hkey] at href
      exact ⟨_, _, _, _, href⟩
  | delete _ hx hr ih =>
    obtain ⟨own, ts, fl, ht, h⟩ := ih
    have hx := h.inv.enumerates.given.1 hx
    obtain ⟨own', hd⟩ := (delete_spec h.inv h.pool hx).wlp.of_returned hr
    exact ⟨_, _, _, _, h.deleted hx hd⟩

/-- **The time queue refines the map.** `First` and `Next` list its entries in increasing order; `Add` puts the offset
at the least free time; `Delete` erases one entry; `Find` answers for the map. -/
theorem timeQueue_refines_map {nalloc : Nat} (h4 : 4 ≤ nalloc) {s : TqFb} {M : Map Timestamp Int}
    (h : Reached nalloc s M) : HoldsMap s M ∧
    (∀ (now key : Timestamp) (offset : Int), now.Normal → (keys M).ncard < nalloc → IsLeast (freeTimes M now) key →
      key < Timestamp.ENDT → wp (add now offset) (fun r s' => r = 0 ∧ HoldsMap s' (put M key offset)) s) ∧
    (∀ x, Given s x → wp (delete x) (fun _ s' => HoldsMap s' (OrderedMap.erase M (s.tq.tqep x).tv)) s) ∧
    ∀ (key : Timestamp) (mt : Match), key ≤ Timestamp.ENDT → (mt = .equal → key < Timestamp.ENDT) →
      wp (find key mt) (fun r s' => s' = s ∧ (∀ x ∈ r, Given s x) ∧ Answers M key mt (r.map (entry s.tq))) s := by
  obtain ⟨own, ts, fl, ht, href⟩ := h.refines h4
  exact ⟨href.holdsMap, fun _ _ offset hnow hcap hkey hend => href.add hnow hcap hkey hend offset,
    fun _ hx => href.delete hx, fun _ _ hkey heq => href.find hkey heq⟩

def unwritten : TqFb := ⟨⟨0, 0, 0, 0, 0, fun _ => ⟨⟨0, 0⟩, 0, 0⟩⟩, ⟨0, 0, 0, 0, fun _ => 0, fun _ => 0, fun _ => 0, []⟩⟩

def twoAdds : Prog TqFb Int := do
  start 4
  let _ ← add ⟨5, 0⟩ 4096
  add ⟨5, 0⟩ 4500

theorem isLeast_empty {now : Timestamp} (h : now.Normal) : IsLeast (freeTimes empty now) now :=
  ⟨⟨h, le_refl _, rfl⟩, fun _ ht => ht.2.1⟩

theorem isLeast_put {now : Timestamp} (h : now.Normal) (offset : Int) :
    IsLeast (freeTimes (put empty now offset) now) now.incrementMicrosecond := by
  have hlt := Timestamp.lt_incrementMicrosecond now
  refine ⟨⟨h.increment, le_of_lt hlt, ?_⟩, ?_⟩
  · rw [Option.eq_none_iff_forall_ne_some]
    intro v hv
    rcases put_eq_some.1 hv with ⟨e, -⟩ | ⟨-, hv⟩
    · exact absurd e (ne_of_gt hlt)
    · cases hv
  · rintro t ⟨ht, hle, hnone⟩
    refine h.increment_le ht (lt_of_le_of_ne hle ?_)
    rintro rfl
    exact Option.some_ne_none offset ((put_eq_some.2 (Or.inl ⟨rfl, rfl⟩)).symm.trans hnone)

theorem timeQueue_refines_map_two : ∃ s, Reached 4 s (put (put empty ⟨5, 0⟩ 4096) ⟨5, 1⟩ 4500) ∧
    HoldsMap s (put (put empty ⟨5, 0⟩ 4096) ⟨5, 1⟩ 4500) := by
  have hrun : (twoAdds unwritten).returned.isSome = true := by decide +kernel
  obtain ⟨⟨r, s⟩, hr⟩ := Option.isSome_iff_exists.1 hrun
  obtain ⟨⟨⟩, s₁, h₁, hr⟩ := returned_bind.1 hr
  obtain ⟨r₂, s₂, h₂, h₃⟩ := returned_bind.1 hr
  have hnow : (⟨5, 0⟩ : Timestamp).Normal := by decide
  have hreached := Reached.add (.add (.start h₁) hnow (isLeast_empty hnow) (by decide) h₂) hnow (isLeast_put hnow 4096)
    (by decide) h₃
  exact ⟨s, hreached, (timeQueue_refines_map (by decide) hreached).1⟩

end TimeQueue

end Rdm
