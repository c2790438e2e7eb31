import Mathlib.Data.Multiset.AddSub
import Rdm.Pq.QueueIndexManager
import Rdm.Pq.RegionFree
import Rdm.Pq.SignatureIndexSpec
import Rdm.Pq.TimeQueueSpec

/-!
# The index as a catalog

The memory of the four structures of the index encodes lists (`Ghost`). What the queue sees of them is a `Catalog` of
regions, signatures and times.
-/

namespace Rdm

open ProgLogic ProgLogic.Prog FreeBlock TimeQueue SignatureIndex List
open RegionList (allocs RlInv IsMax NoAdj IsTime)

/-- What the index says about the products. -/
@[ext] structure Catalog where
  regions : Multiset (Int × Nat)
  sigs : Multiset (Signature × Int)
  times : List (Timestamp × Int)
  nbytes : Nat

def Catalog.empty : Catalog := ⟨0, 0, [], 0⟩

def Catalog.addRegion (a : Catalog) (region : Int × Nat) : Catalog := { a with regions := region ::ₘ a.regions }

def Catalog.addSig (a : Catalog) (entry : Signature × Int) : Catalog := { a with sigs := entry ::ₘ a.sigs }

/-- The regions do not overlap. -/
structure Catalog.Spread (a : Catalog) : Prop where
  regions : (a.regions.map Prod.fst).Nodup
  apart : ∀ p ∈ a.regions, ∀ q ∈ a.regions, p.1 ≠ q.1 → p.1 + p.2 ≤ q.1 ∨ q.1 + q.2 ≤ p.1

/-- `a'` is `a` with the time `key` for the offset `off`: the first time from `now` on that is not taken. -/
structure Catalog.Stamped (a : Catalog) (now key : Timestamp) (off : Int) (a' : Catalog) : Prop where
  rest : a' = { a with times := a'.times }
  times : ∃ pre suf, a.times = pre ++ suf ∧ a'.times = pre ++ (key, off) :: suf
  before : ∀ p ∈ a.times, p.1 ≠ key
  sorted : a'.times.Pairwise fun p q => p.1 < q.1
  lt_endt : key < Timestamp.ENDT
  first : ∃ n, key = Timestamp.incrementMicrosecond^[n] now ∧
    ∀ i < n, ∃ p ∈ a.times, p.1 = Timestamp.incrementMicrosecond^[i] now

/-- The lists that the index encodes: the owners of the cells; the time queue with its unused elements and heights; the
free regions, the empty slots and the hash chains; the chains and the unused elements of the signature index. -/
structure Ghost where
  own : Nat → Owner Holder
  ts : List Nat
  tfl : List Nat
  ht : Nat → Nat
  xs : List Nat
  em : List Nat
  C : Nat → List Nat
  sc : Nat → List Nat
  sfl : List Nat

namespace QueueIndexManager

variable {ω α : Type} {D : DataSection} {s s' : QueueIndexManager ω} {g : Ghost}

def regionOf (rl : RegionList) (x : Nat) : Int × Nat := ((rl.rp x).offset, (rl.rp x).getExtent)

def timeOf (tq : TimeQueue) (x : Nat) : Timestamp × Int := ((tq.tqep x).tv, (tq.tqep x).offset)

def catalog (s : QueueIndexManager ω) (g : Ghost) : Catalog where
  regions := (allocs s.rl g.C).map (regionOf s.rl)
  sigs := entries s.sx g.sc
  times := g.ts.map (timeOf s.tq)
  nbytes := s.rl.nbytes

/-- **The invariant of the index**. Between two operations no region is in hand. -/
structure IndexInv (D : DataSection) (s : QueueIndexManager ω) (g : Ghost) (hand : List Nat := []) : Prop where
  time : TqInv ⟨s.tq, s.fb⟩ g.own g.ts g.tfl g.ht
  regions : RlInv ⟨s.rl, s.fb⟩ g.own D g.xs hand g.em g.C
  max : IsMax s.rl g.xs s.rl.maxfextent
  noAdj : NoAdj s.rl g.xs
  sigs : SxInv s.sx g.sc g.sfl
  tqSlots : s.tq.nalloc = s.rl.nalloc
  sxSlots : s.sx.nalloc = s.rl.nalloc
  align : s.align = D.align

/-! ## Reading the invariant -/

section

variable (h : IndexInv D s g)
include h

theorem IndexInv.pool : Inv s.fb g.own := h.regions.free.pool

theorem IndexInv.hash : RegionList.HashInv s.rl g.C := by
  obtain ⟨tl, hs⟩ := h.regions.shape
  exact hs.hash

theorem IndexInv.marked : ∀ x ∈ allocs s.rl g.C, (s.rl.rp x).isAlloc = true := by
  obtain ⟨tl, hs⟩ := h.regions.shape
  exact hs.marked

theorem IndexInv.nelems : s.rl.nelems = (catalog s g).regions.card := by
  simpa [catalog] using h.regions.nelems

theorem IndexInv.hasSpace : s.rl.hasSpace = decide (g.em ≠ []) := by
  have hn : s.rl.nempty = g.em.length := h.regions.nempty
  simp [RegionList.hasSpace, hn, length_pos_iff]

theorem IndexInv.tiles : ∃ tl free, tl.Perm (free ++ allocs s.rl g.C) ∧
    Tiling.Tiles (fun x => (s.rl.rp x).offset) (fun x => (s.rl.rp x).getExtent) D.datao tl D.ixo := by
  obtain ⟨tl, hs⟩ := h.regions.shape
  exact ⟨tl, g.xs, hs.part, hs.tiles⟩

theorem IndexInv.spread : (catalog s g).Spread := by
  obtain ⟨tl, free, hp, ht⟩ := h.tiles
  have hsub : ∀ x ∈ allocs s.rl g.C, x ∈ tl := fun x hx => hp.mem_iff.2 (mem_append_right _ hx)
  constructor
  case regions =>
    simp only [catalog, Multiset.map_coe, map_map, Multiset.coe_nodup]
    exact List.Nodup.map_on (fun x hx y hy e => ht.off_inj (hsub x hx) (hsub y hy) e) h.hash.nodup
  case apart =>
    intro p hpm q hqm hne
    obtain ⟨x, hx, rfl⟩ := mem_map.1 (Multiset.mem_coe.1 hpm)
    obtain ⟨y, hy, rfl⟩ := mem_map.1 (Multiset.mem_coe.1 hqm)
    refine ht.apart (hsub x hx) (hsub y hy) fun e => hne ?_
    rw [e]

theorem IndexInv.region_mem {p : Int × Nat} (hp : p ∈ (catalog s g).regions) : D.datao ≤ p.1 ∧ p.1 + p.2 ≤ D.ixo := by
  obtain ⟨tl, free, hpart, ht⟩ := h.tiles
  obtain ⟨x, hx, rfl⟩ := mem_map.1 (Multiset.mem_coe.1 hp)
  obtain ⟨h1, -, h2⟩ := ht.mem x (hpart.mem_iff.2 (mem_append_right _ hx))
  exact ⟨h1, h2⟩

theorem IndexInv.regions_sum_le : ((catalog s g).regions.map Prod.snd).sum ≤ D.size := by
  obtain ⟨tl, free, hp, ht⟩ := h.tiles
  have hsum := ht.sum
  have hperm := (hp.map fun x => (s.rl.rp x).getExtent).sum_eq
  rw [map_append, sum_append] at hperm
  have hcat : ((catalog s g).regions.map Prod.snd).sum =
    ((allocs s.rl g.C).map fun x => (s.rl.rp x).getExtent).sum := by
    simp only [catalog, Multiset.map_coe, map_map, Multiset.sum_coe]
    rfl
  rw [hcat]
  simp only [DataSection.size]
  omega

end

theorem rlInv_frame {t : RlFb} {own own' : Nat → Owner Holder} {xs hand em : List Nat} {C : Nat → List Nat}
    (h : RlInv t own D xs hand em C) {fb' : FreeBlock} (hinv : Inv fb' own')
    (hk : Keeps (Others Holder.time) t.fb own fb' own') : RlInv { t with fb := fb' } own' D xs hand em C :=
  { h with
    free := by
      refine ⟨hinv, fun o => ?_⟩
      obtain ⟨zs, ht, hl, hp⟩ := h.free.list o
      have hk' : Keeps (fun k => ∃ x, k = o.tag x) t.fb own fb' own' := by
        refine hk.mono ?_
        rintro k ⟨x, hx⟩
        subst hx
        cases o <;> nofun
      exact ⟨zs, ht, hl.frame hk' rfl rfl rfl (fun _ _ => rfl) (fun _ _ => .refl _ _), hp⟩ }

section

variable (h : IndexInv D s g)
include h

theorem IndexInv.no_region_nil {r : Nat} (hr : r ∈ allocs s.rl g.C) :
    (s.rl.rp r).offset ≠ (s.tq.tqep TQ_NIL).offset := by
  obtain ⟨tl, hs⟩ := h.regions.shape
  have h0 : 0 ≤ (s.rl.rp r).offset := (hs.bounds (hs.alloc_mem hr)).1
  have hnil : (s.tq.tqep TQ_NIL).offset = -1 := h.time.nil.2
  omega

/-! ## The operations of the parts -/

theorem rlFind_spec (off : Int) : wp (onRl (RegionList.find off)) (fun r s' => s' = s ∧
    (r = RL_NONE ∧ (∀ x ∈ allocs s.rl g.C, (s.rl.rp x).offset ≠ off) ∨
      r ≠ RL_NONE ∧ r ∈ allocs s.rl g.C ∧ (s.rl.rp r).offset = off)) s := by
  rw [onRl, wp_zoom]
  have hspec := RegionList.find_spec (s := ⟨s.rl, s.fb⟩) h.hash h.marked off
  refine hspec.mono ?_
  rintro r t ⟨ht, hr⟩
  subst ht
  refine ⟨rfl, hr.imp_right ?_⟩
  rintro ⟨hm, he⟩
  exact ⟨h.hash.ne_none hm, hm, he⟩

theorem find_region {off : Int} (hreg : off ∈ (catalog s g).regions.map Prod.fst) :
    wp (onRl (RegionList.find off)) (fun r s' => s' = s ∧ r ≠ RL_NONE ∧ r ∈ allocs s.rl g.C ∧ (s.rl.rp r).offset = off ∧
      (off, (s.rl.rp r).getExtent) ∈ (catalog s g).regions) s := by
  refine (rlFind_spec h _).mono ?_
  rintro r s' ⟨hs', hr⟩
  rcases hr with ⟨-, hno⟩ | ⟨hne, hr, hoff⟩
  · obtain ⟨p, hp, he⟩ := Multiset.mem_map.1 hreg
    obtain ⟨y, hy, rfl⟩ := mem_map.1 (Multiset.mem_coe.1 hp)
    exact absurd he (hno y hy)
  · refine ⟨hs', hne, hr, hoff, ?_⟩
    rw [← hoff]
    exact Multiset.mem_coe.2 (mem_map_of_mem hr)

theorem find_nil : wp (onRl (RegionList.find (s.tq.tqep TQ_NIL).offset)) (fun r s' =>
    s' = s ∧ r = RL_NONE) s := by
  refine (rlFind_spec h _).mono ?_
  rintro r s' ⟨hs', hr⟩
  rcases hr with ⟨hr, -⟩ | ⟨-, hr, hoff⟩
  · exact ⟨hs', hr⟩
  · exact absurd hoff (h.no_region_nil hr)

theorem sxFind_spec (sig : Signature) :
    wp (onSx (find sig)) (fun r s' => s' = s ∧ (r = none ∧ sig ∉ (catalog s g).sigs.map Prod.fst ∨
      ∃ x, r = some x ∧ (sig, (s.sx.sxep x).offset) ∈ (catalog s g).sigs)) s := by
  rw [onSx, wp_zoom]
  refine (find_spec h.sigs sig).mono ?_
  rintro r t ⟨ht, hr⟩
  subst ht
  refine ⟨rfl, ?_⟩
  rcases hr with ⟨hr, hno⟩ | ⟨x, hx, hr, he⟩
  · exact .inl ⟨hr, by simpa [catalog] using hno⟩
  · refine .inr ⟨x, hr, ?_⟩
    rw [← he]
    exact Multiset.mem_coe.2 (mem_map_of_mem hx)

theorem sxRemove_spec (sig : Signature) : wp (onSx (remove sig)) (fun r s' =>
    r = false ∧ s' = s ∧ sig ∉ (catalog s g).sigs.map Prod.fst ∨
    r = true ∧ s' = { s with sx := s'.sx } ∧ ∃ off sc sfl, IndexInv D s' { g with sc := sc, sfl := sfl } ∧
      (catalog s g).sigs = (sig, off) ::ₘ (catalog s' { g with sc := sc, sfl := sfl }).sigs) s := by
  rw [onSx, wp_zoom]
  refine (remove_spec h.sigs sig).mono ?_
  intro r t hr
  rcases hr with ⟨hr, ht, hno⟩ | ⟨hr, hn, off, x, sc, hinv, hp⟩
  · subst ht
    exact .inl ⟨hr, rfl, by simpa [catalog] using hno⟩
  · refine .inr ⟨hr, rfl, off, sc, x :: g.sfl, ?_, ?_⟩
    · exact { h with sigs := hinv, sxSlots := hn.trans h.sxSlots }
    · exact (Multiset.coe_eq_coe.2 hp).symm

theorem sxAdd_spec {sig : Signature} (hsig : sig ∉ (catalog s g).sigs.map Prod.fst) (off : Int) :
    wp (onSx (add sig off)) (fun r s' => g.sfl = [] ∧ r = none ∧ s' = s ∨
      r.isSome ∧ s' = { s with sx := s'.sx } ∧ ∃ sc sfl, IndexInv D s' { g with sc := sc, sfl := sfl } ∧
        (catalog s' { g with sc := sc, sfl := sfl }).sigs = (sig, off) ::ₘ (catalog s g).sigs) s := by
  rw [onSx, wp_zoom]
  have hsig' : sig ∉ (entries s.sx g.sc).map Prod.fst := by simpa [catalog] using hsig
  refine (add_spec h.sigs hsig' off).mono ?_
  intro r t hr
  rcases hr with ⟨hfl, hr, ht⟩ | ⟨z, fl', hfl, hr, hn, sc, hinv, hp⟩
  · subst ht
    exact .inl ⟨hfl, hr, rfl⟩
  · refine .inr ⟨by simp [hr], rfl, sc, fl', ?_, Multiset.coe_eq_coe.2 hp⟩
    exact { h with sigs := hinv, sxSlots := hn.trans h.sxSlots }

theorem tqDelete_spec {x : Nat} {pre suf : List Nat} (hts : g.ts = pre ++ x :: suf) :
    wp (onTq (delete x)) (fun _ s' => s' = { s with tq := s'.tq, fb := s'.fb } ∧ ∃ own,
      IndexInv D s' { g with own := own, ts := pre ++ suf, tfl := x :: g.tfl } ∧
      (pre ++ suf).map (timeOf s'.tq) = (pre ++ suf).map (timeOf s.tq)) s := by
  rw [onTq, wp_zoom]
  have hx : x ∈ g.ts := by rw [hts]; simp
  have hnd : (pre ++ x :: suf).Nodup := hts ▸ (nodup_append.1 h.time.nodup).1
  have hxout : x ∉ pre ++ suf := (nodup_cons.1 (nodup_middle.1 hnd)).1
  have herase : g.ts.erase x = pre ++ suf := by
    rw [hts, erase_append_right _ fun hm => hxout (mem_append_left _ hm), erase_cons_head]
  refine (delete_spec h.time h.pool hx).mono ?_
  rintro _ t ⟨own', hd⟩
  refine ⟨rfl, own', ?_, map_congr_left fun y hy => ?_⟩
  · exact { h with
      time := herase ▸ hd.inv
      regions := rlInv_frame h.regions hd.pool hd.keeps
      tqSlots := hd.nalloc.trans h.tqSlots }
  · have hy : t.tq.tqep y = s.tq.tqep y := hd.others y fun e => hxout (e ▸ hy)
    show timeOf t.tq y = timeOf s.tq y
    rw [timeOf, timeOf, hy]

theorem IndexInv.times_sorted : (catalog s g).times.Pairwise fun p q => p.1 < q.1 :=
  pairwise_map.2 h.time.sorted

theorem IndexInv.times_nodup : (catalog s g).times.Nodup :=
  h.times_sorted.imp fun hlt he => absurd (he ▸ hlt) (lt_irrefl _)

theorem tqAdd_spec (now : Timestamp) (off : Int) :
    wlp (onTq (add now off)) (fun r s' => r = 0 ∧ s' = { s with tq := s'.tq, fb := s'.fb } ∧ ∃ g' key,
      IndexInv D s' g' ∧ (catalog s g).Stamped now key off (catalog s' g')) s := by
  rw [onTq, wlp_zoom]
  by_cases htfl : g.tfl = []
  · exact add_full (htfl ▸ h.time) now off _
  refine (add_spec h.time h.pool htfl now off).mono ?_
  rintro r t ⟨hr, own', ht', z, key, hadd⟩
  have hz : z ∉ g.ts := fun hm => (nodup_append.1 h.time.nodup).2.2 z hm z hadd.mem rfl
  have hmap : ∀ l : List Nat, (∀ x ∈ l, x ∈ g.ts) → l.map (timeOf t.tq) = l.map (timeOf s.tq) := by
    intro l hl
    refine map_congr_left fun x hx => ?_
    have hx : t.tq.tqep x = s.tq.tqep x := hadd.others x fun e => hz (e ▸ hl x hx)
    rw [timeOf, timeOf, hx]
  have hinv : IndexInv D { s with tq := t.tq, fb := t.fb } { g with
      own := own', ts := earlier s.tq key g.ts ++ z :: later s.tq key g.ts
      tfl := g.tfl.erase z, ht := ht' } :=
    { h with
      time := hadd.inv
      regions := rlInv_frame h.regions hadd.pool hadd.keeps
      tqSlots := hadd.nalloc.trans h.tqSlots }
  refine ⟨hr, rfl, _, key, hinv, rfl, ?_, ?_, hinv.times_sorted, hadd.lt_endt, ?_⟩
  · refine ⟨(earlier s.tq key g.ts).map (timeOf s.tq), (later s.tq key g.ts).map (timeOf s.tq), ?_, ?_⟩
    · rw [← map_append]
      exact congrArg (List.map (timeOf s.tq)) (h.time.split key).symm
    · have hpair : timeOf t.tq z = (key, off) := Prod.ext hadd.elem.1 hadd.elem.2
      simp only [catalog, map_append, map_cons, hpair]
      rw [hmap _ fun x hx => (mem_earlier.1 hx).1, hmap _ fun x hx => (mem_later.1 hx).1]
  · intro p hp
    obtain ⟨x, hx, rfl⟩ := mem_map.1 hp
    exact hadd.free x hx
  · obtain ⟨n, hn, htaken⟩ := hadd.first
    refine ⟨n, hn, fun i hi => ?_⟩
    obtain ⟨x, hx, he⟩ := htaken i hi
    exact ⟨timeOf s.tq x, mem_map_of_mem hx, he⟩

theorem rlFree_spec {x : Nat} (hx : x ∈ allocs s.rl g.C) :
    wp (onRl (RegionList.free x)) (fun _ s' => s' = { s with rl := s'.rl, fb := s'.fb } ∧ ∃ own xs em C,
      IndexInv D s' { g with own := own, xs := xs, em := em, C := C } ∧ g.em <:+ em ∧
      (catalog s g).regions = regionOf s.rl x ::ₘ (allocs s'.rl C).map (regionOf s'.rl) ∧
      s'.rl.nbytes = sizeSub s.rl.nbytes (s.rl.rp x).getExtent) s := by
  rw [onRl, wp_zoom]
  refine (RegionList.free_spec h.regions h.max h.noAdj hx).mono ?_
  rintro _ t ⟨own', xs', em', C', hinv, hmax, hadj, hk, hem, hp, hkey, hn, hb⟩
  refine ⟨rfl, own', xs', em', C', ?_, hem, ?_, hb⟩
  · exact { h with
      time := h.time.frame hk
      regions := hinv
      max := hmax
      noAdj := hadj
      tqSlots := h.tqSlots.trans hn.symm
      sxSlots := h.sxSlots.trans hn.symm }
  · have hmap : (allocs t.rl C').map (regionOf t.rl) = (allocs t.rl C').map (regionOf s.rl) :=
      map_congr_left fun y hy => by
        obtain ⟨h1, h2⟩ := hkey y hy
        exact Prod.ext h1 h2
    show ((allocs s.rl g.C).map (regionOf s.rl) : Multiset _) =
      regionOf s.rl x ::ₘ ((allocs t.rl C').map (regionOf t.rl) : Multiset _)
    rw [hmap, Multiset.cons_coe, Multiset.coe_eq_coe]
    exact (hp.map (regionOf s.rl)).symm

end

end QueueIndexManager

end Rdm
