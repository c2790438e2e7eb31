import Mathlib.Data.Finset.Dedup
import Rdm.Lib.OrderedMap
import Rdm.Lib.Transitions
import Rdm.Pq.QueueSpec

/-!
# Regions as a set and a map

What the region list is for: a set of free regions, from which `get` takes the best fit, and a map from offsets to
allocated ones. A run of the region list is a run of these.
-/

namespace Rdm

open ProgLogic ProgLogic.Prog FreeBlock Tiling Transitions OrderedMap QueueIndexManager List
open RegionList (allocs RlInv NoAdj IsMax BestFit)
open Multiset (mem_coe)

/-! ## Giving a region back -/

namespace RegionList

variable {s : RlFb} {own : Nat → Owner Holder} {D : DataSection} {xs em : List Nat} {C : Nat → List Nat} {x : Nat}

def withdraw (rlix : Nat) : Prog RlFb Unit := do
  removeFromHash rlix
  modRl fun rl => setRegion rl rlix (rl.rp rlix).clearAlloc

theorem clearAlloc_getExtent (r : Region) : r.clearAlloc.getExtent = r.getExtent := by
  simp only [Region.clearAlloc, Region.getExtent]
  omega

theorem clearAlloc_isAlloc (r : Region) : r.clearAlloc.isAlloc = false := by
  rw [isAlloc_eq_false]
  show r.extent / 2 * 2 % 2 = 0
  omega

theorem withdraw_spec (h : RlInv s own D xs [] em C) (hx : x ∈ allocs s.rl C) :
    wp (withdraw x) (fun _ s' => s'.fb = s.fb ∧ ∃ C', RlInv s' own D xs [x] em C' ∧
      (x :: allocs s'.rl C').Perm (allocs s.rl C) ∧
      (∀ y, (s'.rl.rp y).offset = (s.rl.rp y).offset ∧ (s'.rl.rp y).getExtent = (s.rl.rp y).getExtent) ∧
      s'.rl.nalloc = s.rl.nalloc ∧ s'.rl.nbytes = s.rl.nbytes ∧ s'.rl.maxfextent = s.rl.maxfextent) s := by
  obtain ⟨tl, hs⟩ := h.shape
  rw [withdraw]
  refine (removeFromHash_spec hs.hash hx fun y hy _ => hs.marked y hy).bind ?_
  rintro _ s1 ⟨hfb, hsame, hxsame, C', hH, hperm⟩
  rw [modRl, wp_modify]
  have hnd := nodup_cons.1 (hperm.nodup_iff.2 hs.hash.nodup)
  have hne : ∀ y ∈ allocs s1.rl C', y ≠ x := fun y hy e => hnd.1 (e ▸ hy)
  have hother : ∀ y, y ≠ x → (setRegion s1.rl x (s1.rl.rp x).clearAlloc).rp y = s1.rl.rp y := fun y hy =>
    Function.update_of_ne hy _ _
  have hself : (setRegion s1.rl x (s1.rl.rp x).clearAlloc).rp x = (s1.rl.rp x).clearAlloc := Function.update_self _ _ _
  have hH' : HashInv (setRegion s1.rl x (s1.rl.rp x).clearAlloc) C' :=
    hH.same ⟨rfl, rfl, rfl⟩ fun y hy => hother y (hne y hy)
  have hkey : ∀ y, ((setRegion s1.rl x (s1.rl.rp x).clearAlloc).rp y).offset = (s.rl.rp y).offset ∧
      ((setRegion s1.rl x (s1.rl.rp x).clearAlloc).rp y).getExtent = (s.rl.rp y).getExtent := by
    intro y
    by_cases hy : y = x
    · rw [hy, hself, clearAlloc_getExtent, hxsame]
      exact ⟨rfl, rfl⟩
    · rw [hother y hy, Region.getExtent, (hsame.key y).1, (hsame.key y).2]
      exact ⟨rfl, rfl⟩
  have hinv : RlInv ⟨setRegion s1.rl x (s1.rl.rp x).clearAlloc, s.fb⟩ own D xs [x] em C' := by
    refine h.rehash hH' ?_ hkey (fun y hy => ?_) hperm (fun y hy => ?_) fun y hy => ?_
    · have hf := hsame.fields
      rw [hf]
      rfl
    · have hyx : y ≠ x := fun e => hy (e ▸ hx)
      rw [hother y hyx, hsame.rest y hy]
    · rw [mem_singleton.1 hy, hself]
      exact clearAlloc_isAlloc _
    · have hy : y ∈ allocs s1.rl C' := hy
      rw [hother y (hne y hy), Region.isAlloc, (hsame.key y).2]
      exact hs.marked y (hperm.mem_iff.1 (mem_cons_of_mem _ hy))
  refine ⟨hfb, C', hfb ▸ hinv, hperm, hkey, ?_, ?_, ?_⟩
  all_goals
    rw [hsame.fields]
    rfl

end RegionList

namespace QueueIndexManager

variable {ω : Type} {D : DataSection} {s : QueueIndexManager ω} {g : Ghost} {r : Nat}

theorem rlWithdraw_spec (h : IndexInv D s g) (hr : r ∈ allocs s.rl g.C) :
    wp (onRl (RegionList.withdraw r)) (fun _ s' => s' = { s with rl := s'.rl } ∧ regionOf s'.rl r = regionOf s.rl r ∧
      ∃ C, IndexInv D s' { g with C := C } [r] ∧
        (catalog s g).regions = regionOf s.rl r ::ₘ (catalog s' { g with C := C }).regions) s := by
  rw [onRl, wp_zoom]
  refine (RegionList.withdraw_spec h.regions hr).mono ?_
  rintro _ t ⟨hfb, C, hinv, hp, hkey, hn, -, hm⟩
  have hfb : t.fb = s.fb := hfb
  have hreg : ∀ y, regionOf t.rl y = regionOf s.rl y := fun y => Prod.ext (hkey y).1 (hkey y).2
  refine ⟨by simp [hfb], hreg r, C, ?_, ?_⟩
  · exact { h with
      time := by rw [hfb]; exact h.time
      regions := hinv
      max := by
        show IsMax t.rl g.xs t.rl.maxfextent
        rw [hm]
        exact RegionList.IsMax.congr h.max (fun _ => Iff.rfl) fun y _ => (hkey y).2
      noAdj := RegionList.NoAdj.congr h.noAdj (fun _ hy => hy) fun y _ => hkey y
      tqSlots := h.tqSlots.trans hn.symm
      sxSlots := h.sxSlots.trans hn.symm }
  · simp only [catalog, map_congr_left fun y (_ : y ∈ allocs t.rl C) => hreg y]
    rw [Multiset.cons_coe, Multiset.coe_eq_coe]
    exact (hp.map (regionOf s.rl)).symm

theorem rlPutBack_spec (h : IndexInv D s g [r]) :
    wp (onRl (RegionList.putBack r)) (fun _ s' => s'.sx = s.sx ∧ ∃ own xs em,
      IndexInv D s' { g with own := own, xs := xs, em := em } ∧ g.em <:+ em ∧
      catalog s' { g with own := own, xs := xs, em := em } = catalog s g) s := by
  rw [onRl, wp_zoom]
  refine (RegionList.putBack_spec h.regions h.max h.noAdj).mono ?_
  rintro _ t ⟨own, xs, em, hinv, hmax, hadj, hkept, hk, hem⟩
  refine ⟨rfl, own, xs, em, ?_, hem, catalog_kept rfl rfl hkept⟩
  exact { h with
    time := h.time.frame hk
    regions := hinv
    max := hmax
    noAdj := hadj
    tqSlots := h.tqSlots.trans hkept.nalloc.symm
    sxSlots := h.sxSlots.trans hkept.nalloc.symm }

section Put

variable {Q : Unit → QueueIndexManager ω → Prop} (hq : wp (onRl (RegionList.putBack r)) Q s)
include hq

theorem rlPut_returns (hr : r < s.rl.nalloc) : wp (onRl (RegionList.put r)) Q s := by
  rw [onRl, wp_zoom, RegionList.put, wp_bind, wp_read, wp_bind, wp_assert]
  exact ⟨hr, wp_zoom.1 hq⟩

theorem rlPut_checked : wlp (onRl (RegionList.put r)) Q s := by
  rw [onRl, wlp_zoom, RegionList.put, wlp_bind, wlp_read, wlp_bind, wlp_assert]
  exact fun _ => (wp_zoom.1 hq).wlp

end Put

end QueueIndexManager

/-! ## The calls of the index -/

/-- The region that the index is working on: none, one as `get` returned it, or one that has been cut or taken back. -/
inductive Hand where
  | none
  | taken (x : Nat)
  | cut (x : Nat)
deriving DecidableEq

def Hand.slots : Hand → List Nat
  | .none => []
  | .taken x => [x]
  | .cut x => [x]

/-- The index in the middle of an operation. -/
structure Held (ω : Type) where
  ix : QueueIndexManager ω
  hand : Hand

/-- The calls that the index makes. The time queue shares the arena. -/
inductive RlCall where
  | get (extent : Nat)
  | split (extent : Nat)
  | addToHash
  | removeFromHash (offset : Int)
  | put
  | free (offset : Int)
  | stamp (now : Timestamp) (offset : Int)
  | unstamp (tqep : Nat)
deriving DecidableEq

namespace RlCall


variable {ω α : Type}

def onIx (m : Prog (QueueIndexManager ω) α) : Prog (Held ω) α := zoom (·.ix) (fun ix h => { h with ix := ix }) m

def grab (hand : Hand) : Prog (Held ω) (Option (Int × Nat)) := do
  modify fun h => { h with hand := hand }
  let h ← read
  return hand.slots.head?.map (regionOf h.ix.rl)

def drop : Prog (Held ω) (Option (Int × Nat)) := do
  modify fun h => { h with hand := .none }
  return none

def run : RlCall → Prog (Held ω) (Option (Int × Nat))
  | .get extent => do
    let r ← onIx (onRl (RegionList.get extent))
    if r = RL_NONE then return none else grab (.taken r)
  | .split extent => do
    let h ← read
    match h.hand.slots with
    | [] => return none
    | x :: _ =>
      let status ← onIx (onRl (RegionList.split x extent))
      if status ≠ 0 then return none else grab (.cut x)
  | .addToHash => do
    let h ← read
    match h.hand.slots with
    | [] => return none
    | x :: _ =>
      onIx (onRl (RegionList.setAllocated x))
      drop
  | .removeFromHash offset => do
    let r ← onIx (onRl (RegionList.find offset))
    if r = RL_NONE then return none
    else
      onIx (onRl (RegionList.withdraw r))
      grab (.cut r)
  | .put => do
    let h ← read
    match h.hand.slots with
    | [] => return none
    | x :: _ =>
      onIx (onRl (RegionList.put x))
      drop
  | .free offset => do
    let r ← onIx (onRl (RegionList.find offset))
    if r = RL_NONE then return none
    else
      onIx (onRl (RegionList.free r))
      return none
  | .stamp now offset => do
    let _ ← onIx (onTq (TimeQueue.add now offset))
    return none
  | .unstamp tqep => do
    onIx (onTq (TimeQueue.delete tqep))
    return none

def Valid (D : DataSection) (h : Held ω) : RlCall → Prop
  | .get extent => h.hand = .none ∧ 1 ≤ extent
  | .split extent => h.ix.rl.hasSpace = true ∧ 1 ≤ extent ∧ D.align ∣ extent ∧
      ∃ x ∈ h.hand.slots, h.hand = .taken x ∧ extent < (h.ix.rl.rp x).getExtent
  | .addToHash | .put => h.hand ≠ .none
  | .unstamp tqep => h.hand = .none ∧ tqep ∈ h.ix.linked
  | _ => h.hand = .none

instance (D : DataSection) (h : Held ω) : DecidablePred (Valid D h)
  | .get _ => inferInstanceAs (Decidable (_ ∧ _))
  | .split _ => inferInstanceAs (Decidable (_ ∧ _))
  | .addToHash | .put => inferInstanceAs (Decidable (_ ≠ _))
  | .unstamp _ => inferInstanceAs (Decidable (_ ∧ _))
  | .removeFromHash _ | .free _ | .stamp _ _ => inferInstanceAs (Decidable (_ = _))

end RlCall

abbrev RlLabel := RlCall × Option (Int × Nat)

namespace Held

variable {ω : Type}

def Start (D : DataSection) (h : Held ω) : Prop :=
  h.hand = .none ∧ ∃ nalloc ix, ix.align = D.align ∧
    (formatNew nalloc D.datao D.ixo ix).returned = some (0, h.ix)

def Step (D : DataSection) (h : Held ω) (l : RlLabel) (h' : Held ω) : Prop :=
  l.1.Valid D h ∧ (l.1.run h).returned = some (l.2, h')

end Held

/-! ## The set and the map -/

structure Space where
  free : Finset (Int × Nat)
  alloc : Map Int Nat
  hand : Option (Int × Nat)

namespace Space

def busy (A : Space) : Set (Int × Nat) := {p | A.alloc p.1 = some p.2 ∨ A.hand = some p}

/-- The smallest free region of at least `extent` and, of several, the one with the lowest offset. -/
structure Best (A : Space) (extent : Nat) (p : Int × Nat) : Prop where
  mem : p ∈ A.free
  enough : extent ≤ p.2
  least : ∀ q ∈ A.free, extent ≤ q.2 → p.2 < q.2 ∨ p.2 = q.2 ∧ p.1 ≤ q.1

def Joined (D : DataSection) (A : Space) : Prop := ∀ p, p ∈ A.free ↔ IsGap D.datao D.ixo A.busy p

def Start (D : DataSection) (A : Space) : Prop := A = ⟨{(D.datao, D.size)}, OrderedMap.empty, none⟩

/-- What the calls do to the set and the map. -/
inductive Step (D : DataSection) : Space → RlLabel → Space → Prop
  | getNone {A : Space} {extent : Nat} : (∀ p ∈ A.free, p.2 < extent) → Step D A (.get extent, none) A
  | get {A : Space} {extent : Nat} {p : Int × Nat} : A.Best extent p →
      Step D A (.get extent, some p) { A with free := A.free.erase p, hand := some p }
  | split {A : Space} {extent : Nat} {p : Int × Nat} : A.hand = some p → extent < p.2 →
      Step D A (.split extent, some (p.1, extent))
        { A with free := insert (p.1 + extent, p.2 - extent) A.free, hand := some (p.1, extent) }
  | addToHash {A : Space} {p : Int × Nat} : A.hand = some p →
      Step D A (.addToHash, none) { A with alloc := OrderedMap.put A.alloc p.1 p.2, hand := none }
  | removeFromHash {A : Space} {p : Int × Nat} : A.alloc p.1 = some p.2 →
      Step D A (.removeFromHash p.1, some p) { A with alloc := erase A.alloc p.1, hand := some p }
  | put {A A' : Space} {p : Int × Nat} : A.hand = some p → A' = ⟨A'.free, A.alloc, none⟩ → A'.Joined D →
      Step D A (.put, none) A'
  | free {A A' : Space} {p : Int × Nat} : A.alloc p.1 = some p.2 → A' = ⟨A'.free, erase A.alloc p.1, none⟩ →
      A'.Joined D → Step D A (.free p.1, none) A'
  | notFound {A : Space} {offset : Int} {c : RlCall} : A.alloc offset = none →
      c = .removeFromHash offset ∨ c = .free offset → Step D A (c, none) A
  | time {A : Space} {c : RlCall} : (∃ now off, c = .stamp now off) ∨ (∃ x, c = .unstamp x) → Step D A (c, none) A

end Space

/-! ## The region list represents them -/

open RlCall (onIx)

/-- **The index represents the set and the map**, by the lists `g`. -/
structure Rep {ω : Type} (D : DataSection) (h : Held ω) (A : Space) (g : Ghost) : Prop where
  inv : IndexInv D h.ix g h.hand.slots
  whole : ∀ x, h.hand = .taken x → NoAdj h.ix.rl (x :: g.xs)
  free : ∀ p, p ∈ A.free ↔ ∃ x ∈ g.xs, regionOf h.ix.rl x = p
  alloc : ∀ off ext, A.alloc off = some ext ↔ (off, ext) ∈ (catalog h.ix g).regions
  hand : A.hand = h.hand.slots.head?.map (regionOf h.ix.rl)

variable {ω : Type} {D : DataSection} {h h' : Held ω} {A : Space} {g g' : Ghost} {hand : List Nat}

theorem QueueIndexManager.IndexInv.free_iff {s : QueueIndexManager ω} (h : IndexInv D s g hand)
    (p : Int × Nat) : (∃ x ∈ g.xs, regionOf s.rl x = p) ↔
      IsGap D.datao D.ixo {q | q ∈ (catalog s g).regions ∨ ∃ x ∈ hand, regionOf s.rl x = q} p := by
  obtain ⟨tl, hs⟩ := h.regions.shape
  have hgap := hs.tiles.gap_iff (p := p) (nodup_append.1 hs.nodup).1 hs.part h.noAdj
  have hbusy : ∀ q, q ∈ spans (fun x => (s.rl.rp x).offset) (fun x => (s.rl.rp x).getExtent) (hand ++ allocs s.rl g.C) ↔
      q ∈ {q | q ∈ (catalog s g).regions ∨ ∃ x ∈ hand, regionOf s.rl x = q} := by
    intro q
    have hreg : q ∈ (catalog s g).regions ↔ ∃ x ∈ allocs s.rl g.C, regionOf s.rl x = q := by
      simp only [catalog, mem_coe, mem_map]
    rw [Set.mem_ofPred_eq, hreg]
    constructor
    · rintro ⟨x, hx, rfl⟩
      rcases mem_append.1 hx with hx | hx
      · exact .inr ⟨x, hx, rfl⟩
      · exact .inl ⟨x, hx, rfl⟩
    · rintro (⟨x, hx, rfl⟩ | ⟨x, hx, rfl⟩)
      · exact ⟨x, mem_append_right _ hx, rfl⟩
      · exact ⟨x, mem_append_left _ hx, rfl⟩
  constructor
  · exact fun hex => (hgap.1 hex).congr fun q => (hbusy q).symm
  · exact fun hg => hgap.2 (hg.congr hbusy)

theorem QueueIndexManager.IndexInv.slot_unique {s : QueueIndexManager ω} (h : IndexInv D s g hand)
    {x y : Nat} (hx : x ∈ g.xs ++ (hand ++ allocs s.rl g.C)) (hy : y ∈ g.xs ++ (hand ++ allocs s.rl g.C))
    (e : (s.rl.rp x).offset = (s.rl.rp y).offset) : x = y := by
  obtain ⟨tl, hs⟩ := h.regions.shape
  exact hs.tiles.off_inj (hs.part.mem_iff.2 hx) (hs.part.mem_iff.2 hy) e

theorem Rep.mem_busy (hr : Rep D h A g) (p : Int × Nat) :
    p ∈ A.busy ↔ p ∈ (catalog h.ix g).regions ∨ ∃ x ∈ h.hand.slots, regionOf h.ix.rl x = p := by
  have halloc := hr.alloc p.1 p.2
  have hhand : A.hand = some p ↔ ∃ x ∈ h.hand.slots, regionOf h.ix.rl x = p := by
    rw [hr.hand]
    cases h.hand <;> simp [Hand.slots]
  exact or_congr halloc hhand

/-- **The free regions are the gaps.** -/
theorem Rep.joined (hr : Rep D h A g) : A.Joined D := by
  intro p
  rw [hr.free, hr.inv.free_iff]
  constructor
  · exact fun hg => hg.congr hr.mem_busy
  · exact fun hg => hg.congr fun q => (hr.mem_busy q).symm

theorem Space.Joined.free_iff {A' : Space} (h : A.Joined D) (h' : A'.Joined D) (hb : ∀ p, p ∈ A'.busy ↔ p ∈ A.busy)
    (p : Int × Nat) : p ∈ A'.free ↔ p ∈ A.free := by
  rw [h p, h' p]
  constructor
  · exact fun hg => hg.congr fun q => (hb q).symm
  · exact fun hg => hg.congr hb

theorem Rep.keep_free {A' : Space} (hr : Rep D h A g) (hr' : Rep D h' A' g') (hb : ∀ p, p ∈ A'.busy ↔ p ∈ A.busy) :
    Rep D h' { A' with free := A.free } g' :=
  { hr' with free := fun p => (hr.joined.free_iff hr'.joined hb p).symm.trans (hr'.free p) }

theorem Rep.of_inv (hinv : IndexInv D h.ix g h.hand.slots) (hw : ∀ x, h.hand = .taken x → NoAdj h.ix.rl (x :: g.xs))
    {M : Map Int Nat} (hM : ∀ off ext, M off = some ext ↔ (off, ext) ∈ (catalog h.ix g).regions) :
    Rep D h ⟨(g.xs.map (regionOf h.ix.rl)).toFinset, M, h.hand.slots.head?.map (regionOf h.ix.rl)⟩ g :=
  ⟨hinv, hw, fun p => by simp, hM, rfl⟩

/-! ## One call -/

theorem QueueIndexManager.IndexInv.em_unique {s s' : QueueIndexManager ω} {hand' : List Nat} (h : IndexInv D s g hand)
    (h' : IndexInv D s' g' hand') (hrl : s'.rl = s.rl) : g'.em = g.em := by
  obtain ⟨tl, hs⟩ := h.regions.shape
  obtain ⟨tl', hs'⟩ := h'.regions.shape
  have hnone : ∀ {rl tl xs hand em C}, RegionList.Shape rl D tl xs hand em C → RL_NONE ∉ em ∧
    em.length ≤ rl.nalloc := by
    intro rl tl xs hand em C hs
    have hlen := hs.length
    refine ⟨fun hm => ?_, by omega⟩
    have hslot := hs.mem_slots (mem_append_right tl hm)
    have hsmall := hs.hash.small
    omega
  have hchain := hs'.empty
  have hlen' := (hnone hs').2
  simp only [hrl] at hchain hlen'
  rw [← Links.follow_chain hs.empty (hnone hs).1 (hnone hs).2, ← Links.follow_chain hchain (hnone hs').1 hlen']

/-- What a call does to the unused slots: it takes the first of them, or puts some in front. There are as many slots as
before. -/
structure Stacked (s : QueueIndexManager ω) (em : List Nat) (s' : QueueIndexManager ω) (em' : List Nat) : Prop where
  nalloc : s'.rl.nalloc = s.rl.nalloc
  slots : em <:+ em' ∨ ∃ z, em = z :: em'

theorem Stacked.refl (s : QueueIndexManager ω) (em : List Nat) : Stacked s em s em := ⟨rfl, .inl suffix_rfl⟩

theorem QueueIndexManager.IndexInv.stacked {s s' : QueueIndexManager ω} {hand' : List Nat} (h : IndexInv D s g hand)
    (h' : IndexInv D s' g' hand') (hsx : s'.sx = s.sx) (hem : g.em <:+ g'.em) : Stacked s g.em s' g'.em :=
  ⟨by rw [← h'.sxSlots, hsx, h.sxSlots], .inl hem⟩

def Matched (D : DataSection) (A : Space) (s : QueueIndexManager ω) (em : List Nat) (c : RlCall)
    (ans : Option (Int × Nat))
    (h' : Held ω) : Prop := ∃ A' g', Space.Step D A (c, ans) A' ∧ Stacked s em h'.ix g'.em ∧ Rep D h' A' g'

theorem wp_onIx {α : Type} {m : Prog (QueueIndexManager ω) α} {Q : α → Held ω → Prop} :
    wp (onIx m) Q h ↔ wp m (fun a ix => Q a { h with ix := ix }) h.ix := wp_zoom

theorem Rep.best (hr : Rep D h A g) {extent r : Nat} (hb : BestFit h.ix.rl g.xs extent r) :
    A.Best extent (regionOf h.ix.rl r) where
  mem := (hr.free _).2 ⟨r, hb.mem, rfl⟩
  enough := hb.enough
  least q hq hqe := by
    obtain ⟨x, hx, rfl⟩ := (hr.free q).1 hq
    exact hb.least x hx hqe

theorem Rep.mem_erase (hr : Rep D h A g) {r : Nat} (hm : r ∈ g.xs) (p : Int × Nat) :
    p ∈ A.free.erase (regionOf h.ix.rl r) ↔ ∃ x ∈ g.xs.erase r, regionOf h.ix.rl x = p := by
  obtain ⟨tl, hs⟩ := hr.inv.regions.shape
  have hnd : g.xs.Nodup := (nodup_append.1 hs.part_nodup).1
  rw [Finset.mem_erase, hr.free]
  constructor
  · rintro ⟨hp, x, hx, rfl⟩
    exact ⟨x, (mem_erase_of_ne fun e => hp (by rw [e])).2 hx, rfl⟩
  · rintro ⟨x, hx, rfl⟩
    obtain ⟨hne, hx⟩ := hnd.mem_erase_iff.1 hx
    refine ⟨fun e => hne ?_, x, hx, rfl⟩
    exact hr.inv.slot_unique (mem_append_left _ hx) (mem_append_left _ hm) (congrArg Prod.fst e)

theorem Rep.in_hand (hr : Rep D h A g) (hn : h.hand ≠ .none) : ∃ x, h.hand.slots = [x] ∧ IndexInv D h.ix g [x] ∧
    A.hand = some (regionOf h.ix.rl x) := by
  obtain ⟨x, hslots⟩ : ∃ x, h.hand.slots = [x] := by
    cases hhand : h.hand with
    | none => exact absurd hhand hn
    | taken x => exact ⟨x, rfl⟩
    | cut x => exact ⟨x, rfl⟩
  have hinv := hr.inv
  have hhand := hr.hand
  rw [hslots] at hinv hhand
  exact ⟨x, hslots, hinv, hhand⟩

theorem get_matched (hr : Rep D h A g) (hn : h.hand = .none) {extent : Nat} (hpos : 1 ≤ extent) :
    wp ((RlCall.get extent).run) (Matched D A h.ix g.em (.get extent)) h := by
  have hinv : IndexInv D h.ix g := by
    have := hr.inv
    rwa [hn] at this
  rw [RlCall.run, wp_bind, wp_onIx]
  refine (rlGet_best hinv hpos).mono ?_
  rintro r ix (⟨rfl, rfl, hsmall⟩ | ⟨hne, hbest, hrp, own, ht⟩)
  · rw [if_pos rfl, wp_pure]
    refine ⟨A, g, .getNone fun p hp => ?_, .refl _ _, hr⟩
    obtain ⟨x, hx, rfl⟩ := (hr.free p).1 hp
    exact hsmall x hx
  · rw [if_neg hne]
    simp only [RlCall.grab, wp_bind, wp_modify, wp_read, wp_pure]
    have hreg : ∀ y, regionOf ix.rl y = regionOf h.ix.rl y := fun y => by rw [regionOf, regionOf, hrp]
    show Matched D A h.ix g.em (.get extent) (some (regionOf ix.rl r)) _
    rw [hreg r]
    refine ⟨_, _, .get (hr.best hbest), hinv.stacked ht.inv (by rw [ht.rest]) suffix_rfl, ht.inv, fun x hx => ?_,
      fun p => ?_, fun off ext => ?_, ?_⟩
    · cases hx
      exact ht.noAdj
    · simp only [hreg]
      exact hr.mem_erase hbest.mem p
    · rw [hr.alloc, ht.same]
    · exact congrArg some (hreg r).symm

/-- **A slot for the rest** of a region that is split. -/
theorem Rep.spare (hr : Rep D h A g) (hspace : RegionList.hasSpace h.ix.rl = true) : ∃ z em, g.em = z :: em := by
  refine exists_cons_of_ne_nil (length_pos_iff.1 ?_)
  have hn : h.ix.rl.nempty = g.em.length := hr.inv.regions.nempty
  exact hn ▸ of_decide_eq_true hspace

theorem split_matched (hr : Rep D h A g) {extent : Nat} (hv : (RlCall.split extent).Valid D h) :
    wp ((RlCall.split extent).run) (Matched D A h.ix g.em (.split extent)) h := by
  obtain ⟨hspace, hpos, hal, x, hm, hx, hlt⟩ := hv
  obtain ⟨y, hslots, hinv, hhand⟩ := hr.in_hand (by rw [hx]; simp)
  obtain rfl : x = y := mem_singleton.1 (hslots ▸ hm)
  obtain ⟨z, em, hzem⟩ := hr.spare hspace
  have hev : extent % 2 = 0 := Nat.mod_eq_zero_of_dvd (D.align_even.trans hal)
  rw [RlCall.run, wp_bind, wp_read, hslots]
  dsimp only
  rw [wp_bind, wp_onIx]
  refine (rlSplit_spec hinv (hr.whole x hx) hzem hpos hlt hal).mono ?_
  rintro status ix ⟨rfl, -, hcut, own, hinv', hcat⟩
  simp only [ne_eq, not_true_eq_false, if_false, RlCall.grab, wp_bind, wp_modify, wp_read, wp_pure]
  have hlow : regionOf ix.rl x = ((h.ix.rl.rp x).offset, extent) := Prod.ext hcut.low.1 (hcut.low_extent hev)
  have hhigh : regionOf ix.rl z = ((h.ix.rl.rp x).offset + extent, (h.ix.rl.rp x).getExtent - extent) :=
    Prod.ext hcut.high.1 (hcut.high_extent hev)
  have hother : ∀ y ∈ g.xs, regionOf ix.rl y = regionOf h.ix.rl y := by
    intro y hy
    obtain ⟨tl, hs⟩ := hinv.regions.shape
    have hyx : y ≠ x := fun e => (nodup_append.1 hs.part_nodup).2.2 y hy x (by simp) e
    have hyz : y ≠ z := fun e => hs.empty_not_mem (z := z) (by rw [hzem]; exact mem_cons_self) (e ▸ hs.free_mem hy)
    rw [regionOf, regionOf, hcut.other y hyx hyz]
  show Matched D A h.ix g.em (.split extent) (some (regionOf ix.rl x)) _
  rw [hlow]
  refine ⟨_, _, .split hhand hlt, ⟨hcut.nalloc, .inr ⟨z, hzem⟩⟩, hinv', (fun y hy => by cases hy), fun p => ?_,
    fun off ext => ?_, ?_⟩
  · rw [Finset.mem_insert, hr.free]
    constructor
    · rintro (rfl | ⟨y, hy, rfl⟩)
      · exact ⟨z, mem_cons_self, hhigh⟩
      · exact ⟨y, mem_cons_of_mem _ hy, hother y hy⟩
    · rintro ⟨y, hy, rfl⟩
      rcases mem_cons.1 hy with rfl | hy
      · exact .inl hhigh
      · exact .inr ⟨y, hy, (hother y hy).symm⟩
  · rw [hr.alloc, hcat]
  · exact congrArg some hlow.symm

section

variable (hr : Rep D h A g)
include hr

theorem addToHash_matched (hn : h.hand ≠ .none) : wp (RlCall.addToHash.run) (Matched D A h.ix g.em .addToHash) h := by
  obtain ⟨x, hslots, hinv, hhand⟩ := hr.in_hand hn
  rw [RlCall.run, wp_bind, wp_read, hslots]
  dsimp only
  rw [wp_bind, wp_onIx]
  refine (rlSetAllocated_spec hinv).mono ?_
  rintro _ ix ⟨hix, C, hinv', -, hcat⟩
  simp only [RlCall.drop, wp_bind, wp_modify, wp_pure]
  have hregs : (catalog ix { g with C := C }).regions = regionOf h.ix.rl x ::ₘ (catalog h.ix g).regions :=
    congrArg Catalog.regions hcat
  -- no allocated region has the offset of the one in hand
  have hnew : ∀ ext, ((h.ix.rl.rp x).offset, ext) ∉ (catalog h.ix g).regions := by
    intro ext hm
    obtain ⟨y, hy, he⟩ := mem_map.1 (mem_coe.1 hm)
    have hyx : y = x := hinv.slot_unique (mem_append_right _ (mem_append_right _ hy))
      (mem_append_right _ (mem_append_left _ (mem_singleton_self x))) (congrArg Prod.fst he)
    obtain ⟨tl, hs⟩ := hinv.regions.shape
    exact hs.alloc_ne (mem_append_right _ (mem_singleton_self x)) hy hyx
  have hM : ∀ off ext, put A.alloc (h.ix.rl.rp x).offset (h.ix.rl.rp x).getExtent off = some ext ↔
      (off, ext) ∈ (catalog ix { g with C := C }).regions := by
    intro off ext
    rw [put_eq_some, hr.alloc, hregs, Multiset.mem_cons]
    constructor
    · rintro (⟨rfl, rfl⟩ | ⟨-, hm⟩)
      · exact .inl rfl
      · exact .inr hm
    · rintro (he | hm)
      · exact .inl ⟨congrArg Prod.fst he, (congrArg Prod.snd he).symm⟩
      · exact .inr ⟨fun e => hnew ext (e ▸ hm), hm⟩
  have hr' : Rep D ⟨ix, .none⟩ _ { g with C := C } := Rep.of_inv hinv' (fun y hy => by cases hy) hM
  refine ⟨_, _, .addToHash hhand, hinv.stacked hinv' (by rw [hix]) suffix_rfl, hr.keep_free hr' fun p => ?_⟩
  rw [hr'.mem_busy, hr.mem_busy, hslots, hregs, Multiset.mem_cons]
  simp only [Hand.slots, not_mem_nil, false_and, exists_false, or_false, mem_singleton, exists_eq_left]
  rw [or_comm, eq_comm]

theorem put_matched (hn : h.hand ≠ .none) : wlp (RlCall.put.run) (Matched D A h.ix g.em .put) h := by
  obtain ⟨x, hslots, hinv, hhand⟩ := hr.in_hand hn
  rw [RlCall.run, wlp_bind, wlp_read, hslots]
  dsimp only
  rw [wlp_bind, onIx, wlp_zoom]
  refine (rlPut_checked (rlPutBack_spec hinv)).mono ?_
  rintro _ ix ⟨hsx, own, xs, em, hinv', hem, hcat⟩
  simp only [RlCall.drop, wlp_bind, wlp_modify, wlp_pure]
  have hM : ∀ off ext, A.alloc off = some ext ↔
      (off, ext) ∈ (catalog ix { g with own := own, xs := xs, em := em }).regions := fun off ext => by
    rw [hcat, hr.alloc]
  have hr' : Rep D ⟨ix, .none⟩ _ { g with own := own, xs := xs, em := em } :=
    Rep.of_inv hinv' (fun y hy => by cases hy) hM
  exact ⟨_, _, .put hhand rfl hr'.joined, hinv.stacked hinv' hsx hem, hr'⟩

section

variable (hn : h.hand = .none)
include hn

theorem Rep.idle : IndexInv D h.ix g := by
  have hinv := hr.inv
  rwa [hn] at hinv

theorem Rep.erased {a : Catalog} {x : Nat}
    (hregs : (catalog h.ix g).regions = regionOf h.ix.rl x ::ₘ a.regions) (off : Int) (ext : Nat) :
    erase A.alloc (h.ix.rl.rp x).offset off = some ext ↔ (off, ext) ∈ a.regions := by
  have hnd := (hr.idle hn).spread.regions
  rw [hregs, Multiset.map_cons, Multiset.nodup_cons] at hnd
  rw [erase_eq_some, hr.alloc, hregs, Multiset.mem_cons]
  constructor
  · rintro ⟨hne, he | hm⟩
    · exact absurd (congrArg Prod.fst he) hne
    · exact hm
  · intro hm
    refine ⟨fun e => hnd.1 ?_, .inr hm⟩
    exact Multiset.mem_map.2 ⟨_, hm, e⟩

def Looked (A : Space) (s : QueueIndexManager ω) (g : Ghost) (off : Int) (r : Nat) : Prop :=
  r = RL_NONE ∧ A.alloc off = none ∨
    r ≠ RL_NONE ∧ r ∈ allocs s.rl g.C ∧ (s.rl.rp r).offset = off ∧ A.alloc off = some (s.rl.rp r).getExtent

omit hn in
theorem Rep.alloc_none {off : Int} (hno : ∀ x ∈ allocs h.ix.rl g.C, (h.ix.rl.rp x).offset ≠ off) :
    A.alloc off = none := by
  cases ha : A.alloc off with
  | none => rfl
  | some ext =>
    obtain ⟨x, hx, he⟩ := mem_map.1 (mem_coe.1 ((hr.alloc off ext).1 ha))
    exact absurd (congrArg Prod.fst he) (hno x hx)

theorem Rep.find (off : Int) : wp (onRl (RegionList.find off)) (fun r ix => ix = h.ix ∧ Looked A h.ix g off r)
    h.ix := by
  refine (rlFind_spec (hr.idle hn) off).mono ?_
  rintro r ix ⟨rfl, ⟨rfl, hno⟩ | ⟨hne, hm, rfl⟩⟩
  · exact ⟨rfl, .inl ⟨rfl, hr.alloc_none hno⟩⟩
  · exact ⟨rfl, .inr ⟨hne, hm, rfl, (hr.alloc _ _).2 (mem_coe.2 (mem_map_of_mem hm))⟩⟩

theorem removeFromHash_matched (off : Int) :
    wp ((RlCall.removeFromHash off).run) (Matched D A h.ix g.em (.removeFromHash off)) h := by
  rw [RlCall.run, wp_bind, wp_onIx]
  refine (hr.find hn off).mono ?_
  rintro r ix ⟨rfl, ⟨rfl, hno⟩ | ⟨hne, hm, rfl, ha⟩⟩
  · rw [if_pos rfl, wp_pure]
    exact ⟨A, g, .notFound hno (.inl rfl), .refl _ _, hr⟩
  rw [if_neg hne, wp_bind, wp_onIx]
  refine (rlWithdraw_spec (hr.idle hn) hm).mono ?_
  rintro _ ix ⟨hix, hreg, C, hinv', hregs⟩
  simp only [RlCall.grab, wp_bind, wp_modify, wp_read, wp_pure]
  have hM := hr.erased hn hregs
  have hr' : Rep D ⟨ix, .cut r⟩ _ { g with C := C } := Rep.of_inv hinv' (fun y hy => by cases hy) hM
  have hr1 := hr.keep_free hr' fun p => by
    rw [hr'.mem_busy, hr.mem_busy, hn, hregs, Multiset.mem_cons]
    simp only [Hand.slots, not_mem_nil, false_and, exists_false, or_false, mem_singleton, exists_eq_left, hreg]
    rw [or_comm, eq_comm]
  show Matched D A h.ix g.em (.removeFromHash (h.ix.rl.rp r).offset) (some (regionOf ix.rl r)) _
  rw [hreg]
  exact ⟨_, _, .removeFromHash (p := regionOf h.ix.rl r) ha, (hr.idle hn).stacked hinv' (by rw [hix]) suffix_rfl,
    { hr1 with hand := congrArg some hreg.symm }⟩

theorem free_matched (off : Int) : wp ((RlCall.free off).run) (Matched D A h.ix g.em (.free off)) h := by
  rw [RlCall.run, wp_bind, wp_onIx]
  refine (hr.find hn off).mono ?_
  rintro r ix ⟨rfl, ⟨rfl, hno⟩ | ⟨hne, hm, rfl, ha⟩⟩
  · rw [if_pos rfl, wp_pure]
    exact ⟨A, g, .notFound hno (.inr rfl), .refl _ _, hr⟩
  rw [if_neg hne, wp_bind, wp_onIx]
  refine (rlFree_spec (hr.idle hn) hm).mono ?_
  rintro _ ix ⟨hix, own, xs, em, C, hinv', hem, hregs, -⟩
  rw [wp_pure]
  have hM := hr.erased (a := catalog ix { g with own := own, xs := xs, em := em, C := C }) hn hregs
  have hr' : Rep D ⟨ix, .none⟩ _ { g with own := own, xs := xs, em := em, C := C } :=
    Rep.of_inv hinv' (fun y hy => by cases hy) hM
  rw [hn]
  exact ⟨_, _, .free (p := regionOf h.ix.rl r) ha rfl hr'.joined, (hr.idle hn).stacked hinv' (by rw [hix]) hem, hr'⟩

theorem stamp_matched (now : Timestamp) (off : Int) :
    wlp ((RlCall.stamp now off).run) (Matched D A h.ix g.em (.stamp now off)) h := by
  rw [RlCall.run, wlp_bind, onIx, wlp_zoom]
  refine (tqAdd_spec (hr.idle hn) now off).mono ?_
  rintro _ ix ⟨-, hix, g', key, hinv', hst⟩
  rw [wlp_pure]
  have hregs : (catalog ix g').regions = (catalog h.ix g).regions := by rw [hst.rest]
  have hM : ∀ off ext, A.alloc off = some ext ↔ (off, ext) ∈ (catalog ix g').regions := fun off ext => by
    rw [hregs, hr.alloc]
  have hr' : Rep D ⟨ix, .none⟩ _ g' := Rep.of_inv hinv' (fun y hy => by cases hy) hM
  have hr1 := hr.keep_free hr' fun p => by
    rw [hr'.mem_busy, hr.mem_busy, hn, hregs]
    simp only [Hand.slots, not_mem_nil, false_and, exists_false]
  rw [hn]
  have hem := (hr.idle hn).em_unique hinv' (by rw [hix])
  refine ⟨A, g', .time (.inl ⟨now, off, rfl⟩), (hr.idle hn).stacked hinv' (by rw [hix]) (hem ▸ suffix_rfl),
    { hr1 with hand := ?_ }⟩
  rw [hr.hand, hn]
  rfl

theorem unstamp_matched {x : Nat} (hx : x ∈ h.ix.linked) : wp ((RlCall.unstamp x).run)
    (Matched D A h.ix g.em (.unstamp x)) h := by
  have hinv := hr.idle hn
  rw [hinv.linked_eq] at hx
  obtain ⟨pre, suf, hts⟩ := append_of_mem hx
  rw [RlCall.run, wp_bind, wp_onIx]
  refine (tqDelete_spec hinv hts).mono ?_
  rintro _ ix ⟨hix, own, hinv', -⟩
  rw [wp_pure]
  have hrl : ix.rl = h.ix.rl := by rw [hix]
  rw [hn]
  refine ⟨A, _, .time (.inr ⟨x, rfl⟩), hinv.stacked hinv' (by rw [hix]) suffix_rfl, hinv', (fun y hy => by cases hy),
    fun p => ?_, fun off ext => ?_, ?_⟩
  · rw [hr.free]
    simp only [hrl]
  · rw [hr.alloc]
    simp only [catalog, hrl]
  · rw [hr.hand, hn]
    rfl

end

def RlCall.Returns : RlCall → Prop
  | .put | .stamp _ _ => False
  | _ => True

theorem RlCall.run_returns {c : RlCall} (hv : c.Valid D h) (hc : c.Returns) : wp c.run (Matched D A h.ix g.em c) h := by
  cases c with
  | get extent => exact get_matched hr hv.1 hv.2
  | split extent => exact split_matched hr hv
  | addToHash => exact addToHash_matched hr hv
  | removeFromHash off => exact removeFromHash_matched hr hv off
  | put => exact absurd hc id
  | free off => exact free_matched hr hv off
  | stamp now off => exact absurd hc id
  | unstamp x => exact unstamp_matched hr hv.1 hv.2

/-- **Every call is matched**, if it returns. -/
theorem RlCall.run_matched {c : RlCall} (hv : c.Valid D h) : wlp c.run (Matched D A h.ix g.em c) h := by
  cases c with
  | put => exact put_matched hr hv
  | stamp now off => exact stamp_matched hr hv now off
  | _ => exact (RlCall.run_returns hr hv trivial).wlp

end

/-! ## Runs -/

theorem start_matched (hs : h.Start D) : ∃ A, Space.Start D A ∧ ∃ g, Rep D h A g := by
  obtain ⟨hn, nalloc, ix, hal, hres⟩ := hs
  obtain ⟨g, hinv, hcat⟩ := (formatNew_empty hal nalloc).of_returned hres
  have hnone : ∀ q, q ∉ (catalog h.ix g).regions := by
    intro q hq
    rw [hcat] at hq
    exact Multiset.notMem_zero q hq
  have hsize : (D.size : Int) = D.ixo - D.datao := Int.toNat_of_nonneg (by have := D.nonempty; omega)
  refine ⟨⟨{(D.datao, D.size)}, OrderedMap.empty, none⟩, rfl, g, by rwa [hn], (fun x hx => ?_), fun p => ?_,
    fun off ext => ?_, by rw [hn]; rfl⟩
  · rw [hn] at hx
    cases hx
  · rw [hinv.free_iff, Finset.mem_singleton]
    constructor
    · rintro rfl
      refine ⟨?_, .inl rfl, .inl ?_, fun a ha => ?_⟩
      · have := D.nonempty
        dsimp only
        omega
      · dsimp only
        omega
      · rcases ha with ha | ⟨x, hx, -⟩
        · exact absurd ha (hnone a)
        · cases hx
    · intro hg
      have hbusy : ∀ a, a ∉ {q | q ∈ (catalog h.ix g).regions ∨ ∃ x ∈ ([] : List Nat), regionOf h.ix.rl x = q} := by
        rintro a (ha | ⟨x, hx, -⟩)
        · exact hnone a ha
        · cases hx
      have hleft : p.1 = D.datao := hg.left.resolve_right fun hex => by
        obtain ⟨a, ha, -⟩ := hex
        exact hbusy a ha
      have hright : p.1 + p.2 = D.ixo := hg.right.resolve_right fun hex => by
        obtain ⟨a, ha, -⟩ := hex
        exact hbusy a ha
      exact Prod.ext hleft (by dsimp only; omega)
  · constructor
    · intro he
      cases he
    · exact fun hm => absurd hm (hnone _)

def RegionList.listedAt (o : FreeOrder) (k : Nat) (s : RlFb) : List Nat :=
  let next := fun x => s.fb.fblks (o.ptr (s.rl.rp x) + k)
  Links.follow next o.tail s.rl.nalloc (next (o.head s.rl))

theorem RegionList.ListInv.listedAt_eq {o : FreeOrder} {s : RlFb} {own : Nat → Owner Holder} {zs : List Nat}
    {ht : Nat → Nat} (h : RegionList.ListInv o s own zs ht) {k : Nat} (hk : k < s.fb.maxsize) :
    RegionList.listedAt o k s = SkipList.onLevel ht k zs := by
  have hchain := h.skip.chain k (by omega)
  have htl : o.tail ∉ zs := (nodup_cons.1 (nodup_cons.1 h.skip.nodup).2).1
  have hsub : SkipList.onLevel ht k zs ⊆ zs := fun x hx => (SkipList.mem_onLevel.1 hx).1
  rw [RegionList.listedAt, h.head]
  exact Links.follow_chain hchain (fun hm => htl (hsub hm)) (Nat.le_trans (length_filter_le _ _) h.length)

/-- **What the region list shows**: both free lists hold the free regions, strictly sorted; `Find` finds what the map
has at an offset; and with no region in hand `Get` takes out the best fit, or there is none. -/
structure Shows (s : RlFb) (hand : Hand) (A : Space) : Prop where
  offsets : (RegionList.listed .offset s).Pairwise fun x y => (s.rl.rp x).offset < (s.rl.rp y).offset
  extents : (RegionList.listed .extent s).Pairwise fun x y => (s.rl.rp x).getExtent < (s.rl.rp y).getExtent ∨
    (s.rl.rp x).getExtent = (s.rl.rp y).getExtent ∧ (s.rl.rp x).offset < (s.rl.rp y).offset
  free : ∀ o p, p ∈ A.free ↔ ∃ x ∈ RegionList.listed o s, regionOf s.rl x = p
  bottom : ∀ o, RegionList.listedAt o 0 s = RegionList.listed o s
  levels : ∀ o k, k + 1 < s.fb.maxsize → (RegionList.listedAt o (k + 1) s).Sublist (RegionList.listedAt o k s)
  find : ∀ off, ∃ r, (RegionList.find off s).returned = some (r, s) ∧ (r = RL_NONE ∧ A.alloc off = none ∨
    r ≠ RL_NONE ∧ (s.rl.rp r).isAlloc = true ∧ (s.rl.rp r).offset = off ∧ A.alloc off = some (s.rl.rp r).getExtent)
  get : hand = .none → ∀ extent, 1 ≤ extent → wp (RegionList.get extent) (fun r s' =>
    r = RL_NONE ∧ s' = s ∧ (∀ p ∈ A.free, p.2 < extent) ∨
    r ≠ RL_NONE ∧ A.Best extent (regionOf s.rl r) ∧ regionOf s'.rl r = regionOf s.rl r ∧
      ∀ o p, (∃ x ∈ RegionList.listed o s', regionOf s'.rl x = p) ↔ p ∈ A.free.erase (regionOf s.rl r)) s

theorem sublist_onLevel {ht : Nat → Nat} (k : Nat) (zs : List Nat) :
    (SkipList.onLevel ht (k + 1) zs).Sublist (SkipList.onLevel ht k zs) := by
  refine monotone_filter_right zs fun x hx => ?_
  have hx := of_decide_eq_true hx
  exact decide_eq_true (by omega)

theorem RegionList.RlInv.mem_listed {s : RlFb} {own : Nat → Owner Holder} {xs em : List Nat} {C : Nat → List Nat}
    (h : RlInv s own D xs hand em C) (o : FreeOrder) (x : Nat) : x ∈ RegionList.listed o s ↔ x ∈ xs := by
  obtain ⟨zs, ht, hl, hp⟩ := h.free.list o
  rw [hl.listed_eq]
  exact hp.mem_iff

theorem Rep.shows (hr : Rep D h A g) : Shows ⟨h.ix.rl, h.ix.fb⟩ h.hand A := by
  obtain ⟨tl, hs⟩ := hr.inv.regions.shape
  have hlist : ∀ o, ∃ zs ht, RegionList.ListInv o ⟨h.ix.rl, h.ix.fb⟩ g.own zs ht ∧ zs.Perm g.xs :=
    hr.inv.regions.free.list
  constructor
  case offsets =>
    obtain ⟨zs, ht, hl, -⟩ := hlist .offset
    rw [hl.listed_eq]
    exact hl.sorted.imp fun hb => FreeOrder.before_offset.1 hb
  case extents =>
    obtain ⟨zs, ht, hl, -⟩ := hlist .extent
    rw [hl.listed_eq]
    exact hl.sorted.imp fun hb => FreeOrder.before_extent.1 hb
  case free =>
    intro o p
    simp only [hr.inv.regions.mem_listed]
    exact hr.free p
  case bottom => exact fun o => rfl
  case levels =>
    intro o k hk
    obtain ⟨zs, ht, hl, -⟩ := hlist o
    rw [hl.listedAt_eq hk, hl.listedAt_eq (Nat.lt_of_succ_lt hk)]
    exact sublist_onLevel k zs
  case find =>
    intro off
    have hfind := RegionList.find_spec (s := ⟨h.ix.rl, h.ix.fb⟩) hs.hash hs.marked off
    obtain ⟨r, s', hres, rfl, hr'⟩ := hfind.returns (RegionList.silent_find off)
    refine ⟨r, hres, ?_⟩
    rcases hr' with ⟨rfl, hno⟩ | ⟨hm, rfl⟩
    · exact .inl ⟨rfl, hr.alloc_none hno⟩
    · exact .inr ⟨hs.hash.ne_none hm, hs.marked r hm, rfl,
        (hr.alloc _ _).2 (mem_coe.2 (mem_map_of_mem hm))⟩
  case get =>
    intro hn extent hpos
    refine (RegionList.get_spec (hr.idle hn).regions hr.inv.max hpos).mono ?_
    rintro r s' (⟨rfl, rfl, hsmall⟩ | ⟨hbest, own, hinv', -, -, hrp, -⟩)
    · refine .inl ⟨rfl, rfl, fun p hp => ?_⟩
      obtain ⟨x, hx, rfl⟩ := (hr.free p).1 hp
      exact hsmall x hx
    · have hreg : ∀ y, regionOf s'.rl y = regionOf h.ix.rl y := fun y => by rw [regionOf, regionOf, hrp]
      refine .inr ⟨?_, hr.best hbest, hreg r, fun o p => ?_⟩
      · have h1 := (hs.mem_slots (mem_append_left _ (hs.free_mem hbest.mem))).2
        have h2 := hs.hash.small
        omega
      · simp only [hinv'.mem_listed, hreg]
        exact (hr.mem_erase hbest.mem p).symm

/-- **The region list refines the set and the map**: for every run of calls as the index makes them there is a run of
the set and the map with the same answers, and the region list shows what it leads to. From there every call but `Put`
returns. -/
theorem regionList_refines (D : DataSection) {tr : List RlLabel} {h : Held ω}
    (hrun : Trace (Held.Start D) (Held.Step D) tr h) :
    ∃ A, Trace (Space.Start D) (Space.Step D) tr A ∧ Shows ⟨h.ix.rl, h.ix.fb⟩ h.hand A ∧
      A.hand = h.hand.slots.head?.map (regionOf h.ix.rl) ∧ A.Joined D ∧
      ∀ c : RlCall, c.Valid D h → c.Returns → wp c.run (fun _ _ => True) h := by
  obtain ⟨A, htr, g, hr⟩ := hrun.simulate (R := fun h A => ∃ g, Rep D h A g) (fun _ hs => start_matched hs) <| by
    rintro x A ⟨c, ans⟩ y ⟨g, hr⟩ ⟨hv, hres⟩
    obtain ⟨A', g', hstep, -, hr'⟩ := (RlCall.run_matched hr hv).of_returned hres
    exact ⟨A', hstep, g', hr'⟩
  exact ⟨A, htr, hr.shows, hr.hand, hr.joined, fun c hv hc => (RlCall.run_returns hr hv hc).mono fun _ _ _ => trivial⟩

def Held.runCalls (D : DataSection) : List RlCall → Held ω → Option (List RlLabel × Held ω)
  | [], h => some ([], h)
  | c :: cs, h =>
    if c.Valid D h then (c.run h).returned.bind fun r => (runCalls D cs r.2).map fun q =>
      ((c, r.1) :: q.1, q.2) else none

theorem Held.runCalls_trace : ∀ {cs : List RlCall} {tr tr' : List RlLabel} {h h' : Held ω},
    Trace (Held.Start D) (Held.Step D) tr h → Held.runCalls D cs h = some (tr', h') →
    Trace (Held.Start D) (Held.Step D) (tr ++ tr') h'
  | [], tr, tr', h, h', ht, hr => by
    cases hr
    rwa [append_nil]
  | c :: cs, tr, tr', h, h', ht, hr => by
    rw [Held.runCalls] at hr
    split at hr
    case isFalse => cases hr
    case isTrue hv =>
    obtain ⟨⟨ans, h1⟩, hres, hr⟩ := Option.bind_eq_some_iff.1 hr
    obtain ⟨⟨tr1, h2⟩, hrest, he⟩ := Option.map_eq_some_iff.1 hr
    cases he
    have hnext := Held.runCalls_trace (.step ht (l := (c, ans)) ⟨hv, hres⟩) hrest
    rwa [append_assoc] at hnext

def sampleCalls : List RlCall :=
  [.get 400, .split 400, .addToHash, .stamp ⟨5, 0⟩ 4096, .get 300, .addToHash, .free 4096]

def sampleLabels : List RlLabel :=
  [(.get 400, some (4096, 1024)), (.split 400, some (4096, 400)), (.addToHash, none), (.stamp ⟨5, 0⟩ 4096, none),
    (.get 300, some (4496, 624)), (.addToHash, none), (.free 4096, none)]

theorem regionList_refines_sample : ∃ (h : Held Unit) (A : Space),
    Trace (Held.Start smallSection) (Held.Step smallSection) sampleLabels h ∧
    Trace (Space.Start smallSection) (Space.Step smallSection) sampleLabels A ∧
    Shows ⟨h.ix.rl, h.ix.fb⟩ h.hand A := by
  obtain ⟨ix, hformat, h, hcalls⟩ : ∃ ix, (formatNew 4 4096 5120 blank).returned = some (0, ix) ∧
      ∃ h, Held.runCalls smallSection sampleCalls ⟨ix, .none⟩ = some (sampleLabels, h) := by
    decide +kernel
  have hstart : Held.Start smallSection ⟨ix, .none⟩ := ⟨rfl, 4, blank, rfl, hformat⟩
  have htrace := Held.runCalls_trace (.start hstart) hcalls
  obtain ⟨A, hA, hshows, -⟩ := regionList_refines smallSection htrace
  exact ⟨h, A, htrace, hA, hshows⟩

end Rdm
