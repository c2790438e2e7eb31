import Rdm.Pq.Exhaustion

/-!
# The slots that `Put` takes back

Region slots are numbered from `RL_EMPTY_HD` on, but `Put` asserts that its slot is below `nalloc`. As long as four
unused slots are left, `Put` takes what `Get` returns.
-/

namespace Rdm

open ProgLogic ProgLogic.Prog FreeBlock Links Transitions QueueIndexManager SignatureIndex List

variable {ω : Type} {D : DataSection} {h h' : Held ω} {A : Space} {g : Ghost}

/-! ## The last slots -/

def lastSlots (nalloc : Nat) : List Nat := range' nalloc RL_FREE_OVERHEAD

theorem slot_lt {s : QueueIndexManager ω} {hand : List Nat} (hinv : IndexInv D s g hand)
    (hlast : lastSlots s.rl.nalloc <:+ g.em) {x : Nat} (hx : x ∈ g.xs ++ hand) : x < s.rl.nalloc := by
  obtain ⟨tl, hs⟩ := hinv.regions.shape
  have hxt : x ∈ tl := by
    rcases mem_append.1 hx with hx | hx
    · exact hs.free_mem hx
    · exact hs.hand_mem hx
  have hslot := hs.mem_slots (mem_append_left g.em hxt)
  by_contra hge
  have hmem : x ∈ lastSlots s.rl.nalloc := mem_range'_1.2 ⟨Nat.not_lt.1 hge, hslot.2⟩
  exact hs.empty_not_mem (hlast.mem hmem) hxt

theorem Stacked.last {s s' : QueueIndexManager ω} {em em' : List Nat} (h : Stacked s em s' em')
    (hlast : lastSlots s.rl.nalloc <:+ em) (hroom : RL_FREE_OVERHEAD ≤ em'.length) :
    lastSlots s'.rl.nalloc <:+ em' := by
  rw [h.nalloc]
  rcases h.slots with hsuf | ⟨z, rfl⟩
  · exact hlast.trans hsuf
  · refine (suffix_cons_iff.1 hlast).resolve_left fun e => ?_
    have hlen := congrArg length e
    simp only [lastSlots, length_range', length_cons] at hlen
    omega

/-! ## Runs -/

def Held.Roomy (D : DataSection) (h : Held ω) : Prop :=
  Transitions.Reached IndexCall.next
    (fun h c => (c.Valid D h ∧ c.Survivable h) ∧ RL_FREE_OVERHEAD ≤ h.ix.rl.nempty) (Held.Start D) h ∧
  RL_FREE_OVERHEAD ≤ h.ix.rl.nempty

theorem Held.Start.last (hs : h.Start D) : ∃ A g, Rep D h A g ∧
    (RL_FREE_OVERHEAD ≤ g.em.length → lastSlots h.ix.rl.nalloc <:+ g.em) := by
  obtain ⟨A, -, g, hr⟩ := start_matched hs
  refine ⟨A, g, hr, ?_⟩
  obtain ⟨hn, nalloc, ix, hal, hres⟩ := hs
  rcases Nat.lt_or_ge nalloc 4 with h4 | h4
  · exact ((formatNew_small h4 fun _ _ => False).of_returned hres).elim
  rcases Nat.lt_or_ge nalloc (2 ^ 28) with h28 | h28
  · obtain ⟨n, rfl⟩ : ∃ n, nalloc = n + 1 := ⟨nalloc - 1, by omega⟩
    obtain ⟨-, -, own, ht, hinv, -⟩ := (formatNew_lists D ix hal h4 h28).wlp.of_returned hres
    obtain ⟨tl, hs⟩ := hinv.regions.shape
    have hnalloc : h.ix.rl.nalloc = n + 1 := by
      have hslots := hinv.sigs.slots.length_eq
      simp only [emptyLists, used, buckets, length_append, length_range] at hslots
      rw [← hinv.sxSlots, ← hslots]
      simp
    rw [← hr.inv.em_unique hinv rfl, hnalloc]
    intro hroom
    simp only [emptyLists, length_range', RL_FREE_OVERHEAD, RL_EMPTY_HD, lastSlots] at hroom ⊢
    refine ⟨range' 5 (n - 4), ?_⟩
    rw [show n + 1 = 5 + (n - 4) by omega, range'_append_1, Nat.sub_add_cancel hroom]
  · exact ((formatNew_large h28 fun _ _ => False).of_returned hres).elim

theorem Held.Roomy.rep (hrun : h.Roomy D) : ∃ A g, Rep D h A g ∧ lastSlots h.ix.rl.nalloc <:+ g.em := by
  obtain ⟨hreach, hroom⟩ := hrun
  obtain ⟨A, g, hr, hlast⟩ := hreach.invariant
      (I := fun h => ∃ A g, Rep D h A g ∧ (RL_FREE_OVERHEAD ≤ g.em.length → lastSlots h.ix.rl.nalloc <:+ g.em))
      (fun _ hs => hs.last) <| by
    rintro x c y ⟨A, g, hr, hlast⟩ ⟨⟨hv, hsurv⟩, hroom⟩ hn
    rw [hr.inv.regions.nempty] at hroom
    obtain ⟨A', g', hst, hr'⟩ := IndexCall.next_rep hr hv hsurv hn
    exact ⟨A', g', hr', hst.last (hlast hroom)⟩
  rw [hr.inv.regions.nempty] at hroom
  exact ⟨A, g, hr, hlast hroom⟩

/-- **`Put` takes back what `Get` returns**, if four slots were unused at all times, unless the arena is exhausted. -/
theorem get_returns_what_put_takes (D : DataSection) {h : Held ω} (hrun : h.Roomy D) :
    (h.hand = .none → ∀ extent, 1 ≤ extent → wp (RegionList.get extent) (fun r s' =>
      r = RL_NONE ∨ r < s'.rl.nalloc) ⟨h.ix.rl, h.ix.fb⟩) ∧
    ∀ x ∈ h.hand.slots, x < h.ix.rl.nalloc ∧ wp (RegionList.put x) (fun _ _ => True) ⟨h.ix.rl, h.ix.fb⟩ := by
  obtain ⟨A, g, hr, hlast⟩ := hrun.rep
  refine ⟨fun hn extent hpos => ?_, fun x hx => ?_⟩
  · have hget := rlGet_best (hr.idle hn) hpos
    rw [onRl, wp_zoom] at hget
    refine hget.mono ?_
    rintro r t (⟨rfl, -⟩ | ⟨-, hbest, -, own, ht⟩)
    · exact Or.inl rfl
    · have hlt := slot_lt hr.inv hlast (mem_append_left _ hbest.mem)
      have hst := hr.inv.stacked ht.inv rfl suffix_rfl
      have hnalloc : t.rl.nalloc = h.ix.rl.nalloc := hst.nalloc
      rw [hnalloc]
      exact Or.inr hlt
  · have hlt := slot_lt hr.inv hlast (mem_append_right _ hx)
    obtain ⟨y, hslots, hinv, -⟩ := hr.in_hand (fun e => by rw [e] at hx; cases hx)
    rw [hslots] at hx
    obtain rfl := mem_singleton.1 hx
    have hput := rlPut_returns (rlPutBack_spec hinv) hlt
    rw [onRl, wp_zoom] at hput
    exact ⟨hlt, hput.mono fun _ _ _ => trivial⟩

theorem get_returns_what_put_takes_first : ∃ h : Held Unit, h.Roomy smallSection ∧ h.hand = .taken 4 ∧
    4 < h.ix.rl.nalloc ∧ wp (RegionList.put 4) (fun _ _ => True) ⟨h.ix.rl, h.ix.fb⟩ := by
  obtain ⟨ix, hformat, hroom, hw, h, hn, hhand, hroom'⟩ : ∃ ix, (formatNew 8 4096 5120 blank).returned = some (0, ix) ∧
      RL_FREE_OVERHEAD ≤ ix.rl.nempty ∧ ((IndexCall.part (.get 100)).run (⟨ix, .none⟩ : Held Unit)).warned = false ∧
      ∃ h, (IndexCall.part (.get 100)).next (⟨ix, .none⟩ : Held Unit) = some h ∧ h.hand = .taken 4 ∧
        RL_FREE_OVERHEAD ≤ h.ix.rl.nempty := by
    decide +kernel
  have hstart : Held.Start smallSection (⟨ix, .none⟩ : Held Unit) := ⟨rfl, 8, _, rfl, hformat⟩
  have hrun : h.Roomy smallSection := by
    refine ⟨.step (a := .part (.get 100)) (.start hstart) ⟨⟨⟨rfl, by decide⟩, fun hwarn => ?_⟩, hroom⟩ hn, hroom'⟩
    rw [hw] at hwarn
    cases hwarn
  obtain ⟨-, hput⟩ := get_returns_what_put_takes smallSection hrun
  exact ⟨h, hrun, hhand, hput 4 (by rw [hhand]; exact mem_singleton_self 4)⟩

def stampedCalls : List RlCall := [.get 100, .split 144, .addToHash, .stamp ⟨1, 0⟩ 4096]

/-- **`Put` aborts**: of four slots, the second region is in slot `5`. When its `Split` fails it cannot be given
back. -/
theorem last_slot_not_taken_back : ∃ h : Held Unit, h.Survived smallSection ∧ h.hand = .none ∧
    (∃ t, (RegionList.get 104 ⟨h.ix.rl, h.ix.fb⟩).returned = some (5, t) ∧ t.rl.nalloc = 4 ∧
      (RegionList.put 5 t).fault = some .assertion) ∧
    (allocateProductSpace fixedCallbacks 100 (Signature.fill 7) h.ix).fault = some .assertion := by
  obtain ⟨tr, h, hcalls, hrest⟩ : ∃ tr h, exhausted [1, 1, 1, 1, 1, 0, 0] stampedCalls = some (tr, h) ∧ h.hand = .none ∧
      (∃ t, (RegionList.get 104 ⟨h.ix.rl, h.ix.fb⟩).returned = some (5, t) ∧ t.rl.nalloc = 4 ∧
        (RegionList.put 5 t).fault = some .assertion) ∧
      (allocateProductSpace fixedCallbacks 100 (Signature.fill 7) h.ix).fault = some .assertion := by
    decide +kernel
  exact ⟨h, exhausted_survived hcalls, hrest⟩

end Rdm
