import Rdm.Lib.OrderedMap
import Rdm.Pq.SignatureIndexSpec

/-!
# The signature index refines a finite map

What the index is for: a map from signatures to offsets, with at most `nalloc` keys. In every state that the code
reaches, `Find` answers for it.
-/

namespace Rdm

open ProgLogic ProgLogic.Prog Links OrderedMap List

namespace SignatureIndex

variable {nalloc : Nat} {sx sx' : SignatureIndex} {M : Map Signature Int} {C : Nat → List Nat} {fl : List Nat}
  {sig : Signature} {offset : Int}

/-! ## The refinement relation -/

/-- The hash chains `C` and the list of unused elements `fl` end, and every slot is on one of them, once. -/
structure Partitioned (nalloc : Nat) (sx : SignatureIndex) (C : Nat → List Nat) (fl : List Nat) : Prop where
  chains : ∀ i < sx.nchains, Chain (fun x => (sx.sxep x).next) (sx.chains i) (C i) SX_NONE
  free : Chain (fun x => (sx.sxep x).next) sx.freeHead fl SX_NONE
  slots : (buckets sx.nchains C ++ fl).Perm (range nalloc)
  nfree : sx.nfree = fl.length
  nelems : sx.nelems = (buckets sx.nchains C).length
  count : sx.nfree + sx.nelems = nalloc

structure Represents (nalloc : Nat) (sx : SignatureIndex) (M : Map Signature Int) (C : Nat → List Nat) (fl : List Nat) :
    Prop where
  inv : SxInv sx C fl
  nalloc : sx.nalloc = nalloc
  holds : ∀ sig offset, M sig = some offset ↔ (sig, offset) ∈ entries sx C

section

variable (h : Represents nalloc sx M C fl)
include h

theorem Represents.partitioned : Partitioned nalloc sx C fl where
  chains := h.inv.chain
  free := h.inv.free
  slots := by
    rw [← h.nalloc]
    exact h.inv.slots
  nfree := h.inv.nfree
  nelems := h.inv.nelems
  count := by rw [h.inv.count, h.nalloc]

theorem Represents.absent : M sig = none ↔ sig ∉ (entries sx C).map Prod.fst := by
  simp [Option.eq_none_iff_forall_ne_some, h.holds]

theorem Represents.ncard_keys : (keys M).ncard = sx.nelems := by
  rw [ncard_keys_of_nodup h.inv.distinct h.holds, h.inv.nelems, entries, length_map]

theorem Represents.full : (keys M).ncard = nalloc ↔ fl = [] := by
  have hcount := h.partitioned.count
  rw [h.ncard_keys, ← length_eq_zero_iff, ← h.inv.nfree]
  omega

/-! ## The operations -/

theorem Represents.find (sig : Signature) :
    wp (find sig) (fun r s' => s' = sx ∧ r.map (fun x => (sx.sxep x).offset) = M sig) sx := by
  refine (find_spec h.inv sig).mono ?_
  rintro r s' ⟨rfl, ⟨rfl, hno⟩ | ⟨x, hx, rfl, rfl⟩⟩
  · exact ⟨rfl, (h.absent.2 hno).symm⟩
  · exact ⟨rfl, ((h.holds _ _).2 (mem_map.2 ⟨x, hx, rfl⟩)).symm⟩

/-- **Add** fails exactly when all elements are in use. -/
theorem Represents.add (hsig : M sig = none) (offset : Int) :
    wp (add sig offset) (fun r s' => (r = none ↔ (keys M).ncard = nalloc) ∧
      (r = none ∧ s' = sx ∨ r ≠ none ∧ ∃ C' fl', Represents nalloc s' (put M sig offset) C' fl')) sx := by
  refine (add_spec h.inv (h.absent.1 hsig) offset).mono ?_
  rintro r s' (⟨hfl, rfl, rfl⟩ | ⟨z, fl', hfl, rfl, hn, C', hinv, hperm⟩)
  · exact ⟨iff_of_true rfl (h.full.2 hfl), .inl ⟨rfl, rfl⟩⟩
  · have hroom : (keys M).ncard ≠ nalloc := fun e => by
      rw [h.full.1 e] at hfl
      cases hfl
    refine ⟨iff_of_false (by simp) hroom, .inr ⟨by simp, C', fl', hinv, hn.trans h.nalloc, fun sig' off' => ?_⟩⟩
    rw [put_eq_some, hperm.mem_iff, mem_cons, ← h.holds, Prod.mk.injEq, eq_comm (a := offset)]
    by_cases he : sig' = sig
    · subst he
      simp [hsig]
    · simp [he]

/-- **Remove** succeeds exactly for the keys. -/
theorem Represents.remove (sig : Signature) :
    wp (remove sig) (fun b s' => (b = true ↔ M sig ≠ none) ∧
      ∃ C' fl', Represents nalloc s' (OrderedMap.erase M sig) C' fl') sx := by
  refine (remove_spec h.inv sig).mono ?_
  rintro b s' (⟨rfl, rfl, hno⟩ | ⟨rfl, hn, off, x, C', hinv, hperm⟩)
  · have hnone := h.absent.2 hno
    refine ⟨by simp [hnone], C, fl, h.inv, h.nalloc, fun sig' off' => ?_⟩
    rw [erase_eq_some, ← h.holds]
    exact ⟨And.right, fun hs => ⟨fun e => by simp [e, hnone] at hs, hs⟩⟩
  · have hmem : ∀ sig' off', M sig' = some off' ↔ (sig', off') = (sig, off) ∨ (sig', off') ∈ entries s' C' := by
      intro sig' off'
      rw [h.holds, ← hperm.mem_iff, mem_cons]
    -- the entry that is gone was the only one with its signature
    have hgone : ∀ off', (sig, off') ∉ entries s' C' := by
      have hnd := (hperm.map Prod.fst).nodup_iff.2 h.inv.distinct
      rw [map_cons, nodup_cons] at hnd
      exact fun off' hm => hnd.1 (mem_map.2 ⟨(sig, off'), hm, rfl⟩)
    have hsome : M sig = some off := (hmem sig off).2 (.inl rfl)
    refine ⟨by simp [hsome], C', x :: fl, hinv, hn.trans h.nalloc, fun sig' off' => ?_⟩
    rw [erase_eq_some, hmem, Prod.mk.injEq]
    by_cases he : sig' = sig
    · subst he
      simp [hgone]
    · simp [he]

end

/-! ## Runs -/

/-- **The states of an index, with the map of the run**: `Add` leaves a full map alone. -/
inductive MapRun (nalloc : Nat) : SignatureIndex → Map Signature Int → Prop
  | start {sx₀ sx : SignatureIndex} : (initialise nalloc sx₀).returned = some ((), sx) → MapRun nalloc sx empty
  | add {sx sx' : SignatureIndex} {M : Map Signature Int} {sig : Signature} {offset : Int} {r : Option Nat} :
      MapRun nalloc sx M → M sig = none → (keys M).ncard < nalloc → (add sig offset sx).returned = some (r, sx') →
      MapRun nalloc sx' (put M sig offset)
  | addFull {sx sx' : SignatureIndex} {M : Map Signature Int} {sig : Signature} {offset : Int} {r : Option Nat} :
      MapRun nalloc sx M → M sig = none → nalloc ≤ (keys M).ncard → (add sig offset sx).returned = some (r, sx') →
      MapRun nalloc sx' M
  | remove {sx sx' : SignatureIndex} {M : Map Signature Int} {sig : Signature} {b : Bool} :
      MapRun nalloc sx M → (remove sig sx).returned = some (b, sx') → MapRun nalloc sx' (OrderedMap.erase M sig)
  | find {sx sx' : SignatureIndex} {M : Map Signature Int} {sig : Signature} {r : Option Nat} :
      MapRun nalloc sx M → (find sig sx).returned = some (r, sx') → MapRun nalloc sx' M

theorem MapRun.represents (hpos : 1 ≤ nalloc) (hsize : nalloc < 2 ^ 64) (h : MapRun nalloc sx M) :
    ∃ C fl, Represents nalloc sx M C fl := by
  induction h with
  | @start sx0 sx hs =>
    have hsmall : nalloc ≤ SX_NONE := Nat.le_pred_of_lt hsize
    obtain ⟨hinv, hentries, hn⟩ := (initialise_spec sx0 hpos hsmall).wlp.of_returned hs
    exact ⟨_, _, hinv, hn, fun sig offset => by simp [hentries, empty]⟩
  | add _ hsig hlt hr ih =>
    obtain ⟨C, fl, h⟩ := ih
    obtain ⟨hfull, ⟨hnone, -⟩ | ⟨-, hrep⟩⟩ := (h.add hsig _).wlp.of_returned hr
    · exact absurd (hfull.1 hnone) (Nat.ne_of_lt hlt)
    · exact hrep
  | addFull _ hsig hge hr ih =>
    obtain ⟨C, fl, h⟩ := ih
    obtain ⟨hfull, ⟨-, rfl⟩ | ⟨hsome, -⟩⟩ := (h.add hsig _).wlp.of_returned hr
    · exact ⟨C, fl, h⟩
    · have hcount := h.partitioned.count
      rw [h.ncard_keys] at hfull hge
      exact absurd (hfull.2 (by omega)) hsome
  | remove _ hr ih =>
    obtain ⟨C, fl, h⟩ := ih
    exact ((h.remove _).wlp.of_returned hr).2
  | find _ hr ih =>
    obtain ⟨C, fl, h⟩ := ih
    obtain ⟨rfl, -⟩ := (h.find _).wlp.of_returned hr
    exact ⟨C, fl, h⟩

/-- **The signature index refines the map.** The chains and the unused elements partition the slots; `Find` answers for
the map; `Add` of an absent signature fails exactly when there are `nalloc` keys; `Remove` succeeds exactly for keys. -/
theorem signatureIndex_refines_map {nalloc : Nat} (hpos : 1 ≤ nalloc) (hsize : nalloc < 2 ^ 64) {sx : SignatureIndex}
    {M : Map Signature Int} (h : MapRun nalloc sx M) :
    ((∃ C fl, Partitioned nalloc sx C fl) ∧ sx.nelems = (keys M).ncard) ∧
    (∀ sig, ∃ r, (find sig sx).returned = some (r, sx) ∧ r.map (fun x => (sx.sxep x).offset) = M sig) ∧
    (∀ sig offset, M sig = none → ∃ r sx', (add sig offset sx).returned = some (r, sx') ∧
      (r = none ↔ (keys M).ncard = nalloc) ∧ MapRun nalloc sx' (if r = none then M else put M sig offset)) ∧
    ∀ sig, ∃ b sx', (remove sig sx).returned = some (b, sx') ∧ (b = true ↔ M sig ≠ none) ∧
      MapRun nalloc sx' (OrderedMap.erase M sig) := by
  obtain ⟨C, fl, hrep⟩ := h.represents hpos hsize
  refine ⟨⟨⟨C, fl, hrep.partitioned⟩, hrep.ncard_keys.symm⟩, fun sig => ?_, fun sig offset hsig => ?_, fun sig => ?_⟩
  · obtain ⟨r, sx', hr, rfl, hans⟩ := (hrep.find sig).returns (silent_find sig)
    exact ⟨r, hr, hans⟩
  · obtain ⟨r, sx', hr, hfull, -⟩ := (hrep.add hsig offset).returns (silent_add sig offset)
    refine ⟨r, sx', hr, hfull, ?_⟩
    have hcount := hrep.partitioned.count
    split
    case isTrue hnone => exact .addFull h hsig (Nat.le_of_eq (hfull.1 hnone).symm) hr
    case isFalse hsome =>
      have hne : (keys M).ncard ≠ nalloc := fun e => hsome (hfull.2 e)
      rw [hrep.ncard_keys] at hne
      exact .add h hsig (by rw [hrep.ncard_keys]; omega) hr
  · obtain ⟨b, sx', hr, hb, -⟩ := (hrep.remove sig).returns (silent_remove sig)
    exact ⟨b, sx', hr, hb, .remove h hr⟩

def unwritten : SignatureIndex := ⟨0, 0, 0, 0, 0, fun _ => ⟨Signature.fill 0, 0, 0⟩, fun _ => 0⟩

def addAddRemove : Prog SignatureIndex Bool := do
  initialise 2
  let _ ← add (Signature.fill 7) 4096
  let _ ← add (Signature.fill 8) 8192
  remove (Signature.fill 7)

theorem signatureIndex_refines_map_remove : ∃ sx M, MapRun 2 sx M ∧ sx.nelems = (keys M).ncard ∧
    ∃ r, (find (Signature.fill 8) sx).returned = some (r, sx) ∧ r.map (fun x => (sx.sxep x).offset) = some 8192 := by
  have hrun : (addAddRemove unwritten).returned.isSome = true := by decide +kernel
  obtain ⟨⟨b, sx⟩, hr⟩ := Option.isSome_iff_exists.1 hrun
  obtain ⟨⟨⟩, sx₁, h₁, hr⟩ := returned_bind.1 hr
  obtain ⟨r₁, sx₂, h₂, hr⟩ := returned_bind.1 hr
  obtain ⟨r₂, sx₃, h₃, h₄⟩ := returned_bind.1 hr
  have hempty : (OrderedMap.keys (empty : Map Signature Int)).ncard < 2 := by simp [OrderedMap.keys, empty]
  have hone : MapRun 2 sx₂ (put empty (Signature.fill 7) 4096) := .add (.start h₁) rfl hempty h₂
  have hkeys : (keys (put empty (Signature.fill 7) (4096 : Int))).ncard = 1 :=
    @ncard_keys_of_nodup _ _ _ [(Signature.fill 7, 4096)] (List.nodup_singleton _) fun k v => by
      simp [put_eq_some, empty, @eq_comm _ (4096 : Int)]
  have hne : Signature.fill 8 ≠ Signature.fill 7 := by decide
  have hnone : put empty (Signature.fill 7) (4096 : Int) (Signature.fill 8) = none := by simp [put, hne, empty]
  have hrun := MapRun.remove (.add hone hnone (by omega) h₃) h₄
  obtain ⟨⟨-, hcount⟩, hfind, -⟩ := signatureIndex_refines_map (by decide) (by decide) hrun
  obtain ⟨r, hr, hans⟩ := hfind (Signature.fill 8)
  exact ⟨sx, _, hrun, hcount, r, hr, hans.trans (by simp [put, erase, hne])⟩

end SignatureIndex

end Rdm
