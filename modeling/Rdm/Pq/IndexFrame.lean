import Rdm.Lib.Lockstep
import Rdm.Pq.Allocation

/-!
# The index in two worlds

In two worlds with callbacks that go along with each other on the regions of products, an operation does the same to the
index (`Twin`).
-/

namespace Rdm

open ProgLogic ProgLogic.Prog TimeQueue
open RegionList (allocs)

variable {ω ω' : Type} {E : ω → ω' → Prop} {cb : Callbacks ω} {cb' : Callbacks ω'}

def DecodeAlike (E : ω → ω' → Prop) (cb : Callbacks ω) (cb' : Callbacks ω') (off : Int) (ext : Nat) : Prop :=
  ∀ e e', E e e' → (cb'.decode off ext e').1 = (cb.decode off ext e).1 ∧
    E (cb.decode off ext e).2 (cb'.decode off ext e').2

/-- **The callbacks go along with each other** on the products of a catalog that have a time. -/
structure Follow (E : ω → ω' → Prop) (cb : Callbacks ω) (cb' : Callbacks ω') (a : Catalog) : Prop where
  decode : ∀ t off ext, (t, off) ∈ a.times → (off, ext) ∈ a.regions → DecodeAlike E cb cb' off ext
  mvrt : ∀ t info rl e e', E e e' → E (cb.mvrt t info rl e) (cb'.mvrt t info rl e')

theorem Follow.evictions {a a' : Catalog} {e e' : ω} (h : Follow E cb cb' a) (hev : Evictions cb (a, e) (a', e')) :
    Follow E cb cb' a' where
  decode t off ext ht hr := h.decode t off ext (hev.times_sublist.mem ht) (Multiset.mem_of_le hev.regions_le hr)
  mvrt := h.mvrt

namespace QueueIndexManager

variable {α : Type} {D : DataSection} {s : QueueIndexManager ω} {g : Ghost} {e : ω'} {extent : Nat}

def inWorld (s : QueueIndexManager ω) (e : ω') : QueueIndexManager ω' where
  rl := s.rl
  tq := s.tq
  fb := s.fb
  sx := s.sx
  align := s.align
  isFull := s.isFull
  smallestExtentSeen := s.smallestExtentSeen
  env := e

def Twin (E : ω → ω' → Prop) (a : α) (s : QueueIndexManager ω) (b : α) (t : QueueIndexManager ω') : Prop :=
  a = b ∧ ∃ e, E s.env e ∧ t = s.inWorld e

/-! ## Operations without callbacks -/

/-- **In any two worlds** that are alike the programs do the same to the index. -/
def Twins (E : ω → ω' → Prop) (m : Prog (QueueIndexManager ω) α) (m' : Prog (QueueIndexManager ω') α) : Prop :=
  ∀ ⦃s e⦄, E s.env e → Lockstep (Twin E) m m' s (s.inWorld e)

section Rules

variable {β : Type} {m n : Prog (QueueIndexManager ω) α} {m' n' : Prog (QueueIndexManager ω') α}
variable {f : α → Prog (QueueIndexManager ω) β} {f' : α → Prog (QueueIndexManager ω') β}

theorem twins_pure (a : α) : Twins E (pure a) (pure a) := fun _ e hE => .pure ⟨rfl, e, hE, rfl⟩

theorem twins_onRl (m : Prog RlFb α) : Twins E (onRl m) (onRl m) :=
    fun _ e hE => .zoom (.same fun _ _ => ⟨rfl, e, hE, rfl⟩)

theorem twins_onTq (m : Prog TqFb α) : Twins E (onTq m) (onTq m) :=
    fun _ e hE => .zoom (.same fun _ _ => ⟨rfl, e, hE, rfl⟩)

theorem twins_onSx (m : Prog SignatureIndex α) : Twins E (onSx m) (onSx m) :=
  fun _ e hE => .zoom (.same fun _ _ => ⟨rfl, e, hE, rfl⟩)

theorem twins_onEnv {f : ω → α × ω} {f' : ω' → α × ω'}
    (hf : ∀ e e', E e e' → (f' e').1 = (f e).1 ∧ E (f e).2 (f' e').2) : Twins E (onEnv f) (onEnv f') :=
  fun _ _ hE => .zoom (.call ⟨(hf _ _ hE).1.symm, _, (hf _ _ hE).2, rfl⟩)

theorem twin_bind {Q : α → QueueIndexManager ω → Prop} (h : Lockstep (Twin E) m m' s (s.inWorld e)) (hQ : wlp m Q s)
    (hf : ∀ a s' e', Q a s' → E s'.env e' → Lockstep (Twin E) (f a) (f' a) s' (s'.inWorld e')) :
    Lockstep (Twin E) (m >>= f) (m' >>= f') s (s.inWorld e) := by
  refine (h.knowing hQ).bind ?_
  rintro a s' _ _ ⟨hq, rfl, e', hE, rfl⟩
  exact hf a s' e' hq hE

theorem twin_then (h : Lockstep (Twin E) m m' s (s.inWorld e)) (hf : ∀ a, Twins E (f a) (f' a)) :
    Lockstep (Twin E) (m >>= f) (m' >>= f') s (s.inWorld e) :=
  twin_bind h wlp_true fun a _ _ _ hE => hf a hE

theorem Twins.bind (h : Twins E m m') (hf : ∀ a, Twins E (f a) (f' a)) : Twins E (m >>= f) (m' >>= f') :=
  fun _ _ hE => twin_then (h hE) hf

theorem Twins.ite {p : Prop} [Decidable p] (h : Twins E m m') (hn : Twins E n n') :
    Twins E (if p then m else n) (if p then m' else n') :=
  fun _ _ hE => .ite Iff.rfl (fun _ => h hE) fun _ => hn hE

theorem Twins.read {f : QueueIndexManager ω → Prog (QueueIndexManager ω) β}
    {f' : QueueIndexManager ω' → Prog (QueueIndexManager ω') β} (hf : ∀ s e, Twins E (f s) (f' (s.inWorld e))) :
    Twins E (Prog.read >>= f) (Prog.read >>= f') :=
  fun s e hE => .read (hf s e hE)

end Rules

theorem freeByOffset_twin (offset : Int) (sig : Signature) : Twins E (freeByOffset offset sig)
    (freeByOffset offset sig) := by
  refine (twins_onRl _).bind fun rlix => .ite (twins_pure _) (.read fun _ _ => .ite (twins_pure _) ?_)
  refine (twins_onSx _).bind fun removed => .ite (twins_pure _) ?_
  exact (twins_onRl _).bind fun _ => twins_pure _

theorem trimRegion_twin (rlix extent : Nat) : Twins E (trimRegion rlix extent) (trimRegion rlix extent) := by
  refine .read fun _ _ => .ite ((twins_onRl _).bind fun status => .ite ?_ (twins_pure _)) (twins_pure _)
  exact (twins_onRl _).bind fun _ => twins_pure _

/-! ## Deleting products -/

theorem tryDeleteProduct_twin (hE : E s.env e) {x r : Nat}
    (hdec : DecodeAlike E cb cb' (s.rl.rp r).offset (s.rl.rp r).getExtent) :
    Lockstep (Twin E) (tryDeleteProduct cb x r) (tryDeleteProduct cb' x r) s (s.inWorld e) := by
  refine .read (.ite Iff.rfl (fun _ => twins_pure _ hE) fun _ => twin_then (twins_onEnv hdec hE) ?_)
  rintro ⟨status, info⟩
  refine .ite (twins_pure _) ((twins_onSx _).bind fun removed => .ite (twins_pure _) ?_)
  exact (twins_onTq _).bind fun _ => (twins_onRl _).bind fun _ => twins_pure _

theorem deleteOldestFrom_twin : ∀ (fuel : Nat) (pre suf : List Nat) {s : QueueIndexManager ω} {e : ω'} {status : Int},
    IndexInv D s g → Follow E cb cb' (catalog s g) → g.ts = pre ++ suf → E s.env e →
    Lockstep (Twin E) (deleteOldestFrom cb fuel (suf.headD TQ_NIL) status)
    (deleteOldestFrom cb' fuel (suf.headD TQ_NIL) status)
      s (s.inWorld e)
  | 0, _, _, _, _, _, _, _, _, _ => .none
  | fuel + 1, pre, suf, s, e, status, h, hf, hts, hE => by
    refine .read (twin_bind (twins_onRl _ hE) (rlFind_spec h _).wlp ?_)
    rintro r s1 e1 ⟨rfl, hfound⟩ hE1
    refine .ite Iff.rfl (fun _ => twins_pure _ hE1) fun hne => ?_
    obtain ⟨-, hr, hoff⟩ := hfound.resolve_left fun hnone => hne hnone.1
    clear hfound
    cases suf with
    | nil => exact absurd hoff (h.no_region_nil hr)
    | cons x suf =>
      have hx : x ∈ g.ts := by rw [hts]; simp
      obtain ⟨htime, hregion⟩ := mem_catalog hx hr hoff
      refine twin_bind (tryDeleteProduct_twin hE1 (hf.decode _ _ _ htime hregion))
        (tryDeleteProduct_spec h hts hr hoff rfl).wlp ?_
      rintro ⟨status, info⟩ s2 e2 hout hE2
      refine .ite Iff.rfl (fun _ => ?_) fun hst => .ite Iff.rfl (fun _ => twins_pure _ hE2) fun _ => .read ?_
      · refine twin_then (.modify ⟨rfl, e2, hE2, rfl⟩) fun _ => .read fun _ _ => ?_
        refine (twins_onEnv ?_).bind fun _ => twins_pure _
        exact fun _ _ hE => ⟨rfl, hf.mvrt _ _ _ _ _ hE⟩
      · obtain ⟨-, hs2, -⟩ := hout.resolve_right fun ho => hst ho.1
        have h2 : IndexInv D s2 g := by
          rw [hs2]
          exact h.control _ s1.isFull s1.smallestExtentSeen
        have hf2 : Follow E cb cb' (catalog s2 g) := by
          rw [hs2]
          exact hf
        have hnext : next ⟨s2.tq, s2.fb⟩ x = suf.headD TQ_NIL := next_spec h2.time hts
        show Lockstep (Twin E) (deleteOldestFrom cb fuel (next ⟨s2.tq, s2.fb⟩ x) status)
          (deleteOldestFrom cb' fuel (next ⟨s2.tq, s2.fb⟩ x) status) s2 (s2.inWorld e2)
        rw [hnext]
        exact deleteOldestFrom_twin fuel (pre ++ [x]) suf h2 hf2 (by simp [hts]) hE2

theorem deleteOldest_twin (h : IndexInv D s g) (hf : Follow E cb cb' (catalog s g)) (hE : E s.env e) :
    Lockstep (Twin E) (deleteOldest cb) (deleteOldest cb') s (s.inWorld e) := by
  have hfirst : first ⟨s.tq, s.fb⟩ = g.ts.head? := first_spec h.time
  refine .read ?_
  simp only [inWorld, hfirst]
  cases hts : g.ts with
  | nil => exact twins_pure _ hE
  | cons x suf => exact deleteOldestFrom_twin _ [] (x :: suf) h hf hts hE

theorem makeSlotFrom_twin : ∀ (fuel : Nat) {s : QueueIndexManager ω} {g : Ghost} {e : ω'}, IndexInv D s g →
    Follow E cb cb' (catalog s g) → E s.env e → Lockstep (Twin E) (makeSlotFrom cb fuel)
    (makeSlotFrom cb' fuel) s (s.inWorld e)
  | 0, _, _, _, _, _, _ => .none
  | fuel + 1, s, g, e, h, hf, hE => by
    refine .read (.ite Iff.rfl (fun _ => twins_pure _ hE) fun _ => ?_)
    refine twin_bind (deleteOldest_twin h hf hE) (deleteOldest_spec h).wlp ?_
    rintro status s1 e1 ⟨g1, hsh, -⟩ hE1
    refine .ite Iff.rfl (fun _ => twins_pure _ hE1) fun _ =>
      .read (.ite Iff.rfl (fun _ => ?_) fun _ => twins_pure _ hE1)
    exact makeSlotFrom_twin fuel hsh.inv (hf.evictions hsh.evictions) hE1

theorem ensureSlot_twin (h : IndexInv D s g) (hf : Follow E cb cb' (catalog s g)) (hE : E s.env e) :
    Lockstep (Twin E) (ensureSlot cb) (ensureSlot cb') s (s.inWorld e) :=
  .read (.ite Iff.rfl (fun _ => .read (makeSlotFrom_twin _ h hf hE)) fun _ => twins_pure _ hE)

/-! ## Allocating -/

theorem makeSpaceFrom_twin (hpos : 0 < extent) : ∀ (fuel : Nat) {s : QueueIndexManager ω} {g : Ghost} {e : ω'},
    IndexInv D s g → Follow E cb cb' (catalog s g) → E s.env e →
    Lockstep (Twin E) (makeSpaceFrom cb extent fuel) (makeSpaceFrom cb' extent fuel) s (s.inWorld e)
  | 0, _, _, _, _, _, _ => .none
  | fuel + 1, s, g, e, h, hf, hE => by
    refine .read (.ite Iff.rfl (fun _ => twins_pure _ hE) fun _ => ?_)
    refine twin_bind (deleteOldest_twin h hf hE) (deleteOldest_spec h).wlp ?_
    rintro status s1 e1 ⟨g1, hsh, -⟩ hE1
    refine .ite Iff.rfl (fun _ => twins_pure _ hE1) fun _ => twin_bind (twins_onRl _ hE1)
      (rlGet_spec hsh.inv hpos).wlp ?_
    intro rlix s2 e2 hget hE2
    refine .ite Iff.rfl (fun hnone => ?_) fun _ => twins_pure _ hE2
    obtain ⟨-, rfl⟩ := hget.resolve_right fun hg => hg.1 hnone
    exact makeSpaceFrom_twin hpos fuel hsh.inv (hf.evictions hsh.evictions) hE2

theorem takeRegion_twin (h : IndexInv D s g) (hf : Follow E cb cb' (catalog s g)) (hE : E s.env e)
    (hpos : 0 < extent) : Lockstep (Twin E) (takeRegion cb extent) (takeRegion cb' extent) s (s.inWorld e) := by
  refine twin_bind (twins_onRl _ hE) (rlGet_spec h hpos).wlp fun rlix s1 e1 hget hE1 => ?_
  refine .ite Iff.rfl (fun hnone => ?_) fun _ => twins_pure _ hE1
  obtain ⟨-, rfl⟩ := hget.resolve_right fun hg => hg.1 hnone
  exact .read (makeSpaceFrom_twin hpos _ h hf hE1)

theorem allocateRegion_twin (h : IndexInv D s g) (hf : Follow E cb cb' (catalog s g)) (hE : E s.env e)
    (hpos : 0 < extent) (hfit : extent + D.align ≤ 2 ^ 64) (sig : Signature) :
    Lockstep (Twin E) (allocateRegion cb extent sig) (allocateRegion cb' extent sig) s (s.inWorld e) := by
  refine twin_bind (twins_onSx _ hE) (sxFind_spec h sig).wlp ?_
  rintro dup s1 e1 ⟨rfl, -⟩ hE1
  refine .ite Iff.rfl (fun _ => twins_pure _ hE1) fun _ => twin_bind (ensureSlot_twin h hf hE1)
    (ensureSlot_spec h).wlp ?_
  rintro status s2 e2 ⟨g2, hsh, -⟩ hE2
  refine .ite Iff.rfl (fun _ => twins_pure _ hE2) fun _ => .read ?_
  refine Lockstep.bind (R := fun _ s3 _ t3 => s3 = { s2 with smallestExtentSeen := s3.smallestExtentSeen } ∧
    t3 = s3.inWorld e2) (.modify ⟨rfl, rfl⟩) ?_
  rintro _ s3 _ _ ⟨hs3, rfl⟩
  have h3 : IndexInv D s3 g2 := by
    rw [hs3]
    exact hsh.inv.control s2.env s2.isFull _
  have hf3 : Follow E cb cb' (catalog s3 g2) := by
    rw [hs3]
    exact hf.evictions hsh.evictions
  have hE3 : E s3.env e2 := by
    rw [hs3]
    exact hE2
  have hround : 0 < roundUp extent s2.align := by
    rw [hsh.inv.align]
    obtain ⟨-, hle, -⟩ := roundUp_spec D.align_pos hfit hpos
    omega
  refine twin_then (takeRegion_twin h3 hf3 hE3 hround) fun res => ?_
  cases res with
  | error status => exact twins_pure _
  | ok rlix =>
    refine (trimRegion_twin _ _).bind fun status => .ite (twins_pure _) ?_
    exact (twins_onRl _).bind fun _ => twins_pure _

/-- **Allocating** in two worlds. -/
theorem allocateProductSpace_twin (h : IndexInv D s g) (hf : Follow E cb cb' (catalog s g)) (hE : E s.env e)
    (hpos : 0 < extent) (hfit : extent + D.align ≤ 2 ^ 64) (sig : Signature) :
    Lockstep (Twin E) (allocateProductSpace cb extent sig) (allocateProductSpace cb' extent sig) s (s.inWorld e) := by
  refine twin_then (allocateRegion_twin h hf hE hpos hfit sig) fun res => ?_
  cases res with
  | error status => exact twins_pure _
  | ok rlix =>
    refine .read fun _ _ => (twins_onSx _).bind fun sxep => ?_
    cases sxep with
    | some _ => exact twins_pure _
    | none => exact (twins_onRl _).bind fun _ => twins_pure _

/-! ## Looking up the time of a product -/

theorem seekOffset_twin (tq : TqFb) (offset : Int) : ∀ (fuel tqep : Nat),
    Twins E (seekOffset tq offset fuel tqep) (seekOffset tq offset fuel tqep)
  | 0, _ => fun _ _ _ => .none
  | fuel + 1, _ => .ite (twins_pure _) (.ite (twins_pure _) (seekOffset_twin tq offset fuel _))

/-- **Searching by signature** in two worlds: here the callbacks have to go along on the region that is filed. -/
theorem findTimeEntryBySignature_twin (h : IndexInv D s g) (hE : E s.env e) {sig : Signature} (interval : Nat)
    (hdec : ∀ off ext, (sig, off) ∈ (catalog s g).sigs → (off, ext) ∈ (catalog s g).regions →
    DecodeAlike E cb cb' off ext) :
    Lockstep (Twin E) (findTimeEntryBySignature cb interval sig) (findTimeEntryBySignature cb' interval sig)
      s (s.inWorld e) := by
  refine .read (twin_bind (twins_onSx _ hE) (sxFind_spec h sig).wlp ?_)
  rintro found s1 e1 ⟨rfl, hsig⟩ hE1
  cases found with
  | none => exact twins_pure _ hE1
  | some x =>
    obtain ⟨y, hy, hfiled⟩ := hsig.resolve_left fun hnone => by cases hnone.1
    cases hy
    refine twin_bind (twins_onRl _ hE1) (rlFind_spec h _).wlp ?_
    rintro r s2 e2 ⟨rfl, hr⟩ hE2
    refine .ite Iff.rfl (fun _ => twins_pure _ hE2) fun hne => ?_
    obtain ⟨-, hr, hoff⟩ := hr.resolve_left fun hnone => hne hnone.1
    have hregion : ((s2.rl.rp r).offset, (s2.rl.rp r).getExtent) ∈ (catalog s2 g).regions :=
      Multiset.mem_coe.2 (List.mem_map_of_mem hr)
    refine twin_then (twins_onEnv (hdec _ _ (hoff.symm ▸ hfiled) hregion) hE2) ?_
    rintro ⟨status, info⟩
    refine .ite (twins_pure _) ((twins_onTq _).bind fun start => ?_)
    cases start with
    | none => exact twins_pure _
    | some timeEntry => exact seekOffset_twin _ _ _ _

end QueueIndexManager

end Rdm
