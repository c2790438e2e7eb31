import Rdm.Lib.Transitions
import Rdm.Pq.FirstBlocks

/-!
# The arena of blocks is safe

In every state of every run, the blocks that are handed out and the free ones are disjoint intervals of the arena, and
the counters count them.
-/

namespace Rdm

open ProgLogic ProgLogic.Prog Links FreeBlock
open Function (update update_of_ne)

/-! ## Runs -/

structure Arena where
  fb : FreeBlock
  out : List (Nat × Nat)

inductive ArenaCall where
  | get (level : Nat)
  | write (cell value : Nat)
  | release (level block : Nat)

namespace Arena

def next : ArenaCall → Arena → Option Arena
  | .get level, x => (FreeBlock.get level x.fb).result.toOption.map fun r =>
      ⟨r.2, if r.1 = FBLK_NONE then x.out else (level, r.1) :: x.out⟩
  | .write cell value, x => some { x with fb := { x.fb with fblks := update x.fb.fblks cell value } }
  | .release level block, x => (FreeBlock.release (level + 1) block x.fb).result.toOption.map fun r =>
      ⟨r.2, x.out.erase (level, block)⟩

def Matching (x : Arena) : ArenaCall → Prop
  | .get _ => True
  | .write cell _ => ∃ p ∈ x.out, p.2 ≤ cell ∧ cell ≤ p.2 + p.1
  | .release level block => (level, block) ∈ x.out

def Start (nalloc : Nat) (x : Arena) : Prop :=
  x.out = [] ∧ ∃ fb, (initialise nalloc fb).returned = some ((), x.fb)

def Reached (nalloc : Nat) : Arena → Prop := Transitions.Reached next Matching (Start nalloc)

/-! ## The blocks -/

def intervals (x : Arena) (F : Nat → List Nat) : List (Nat × Nat) :=
  x.out.map (fun p => (p.2, p.1 + 1)) ++
    (List.range (x.fb.maxsize + 1)).flatMap fun l => (F l).map fun b => (b, x.fb.width l)

/-- **What is meant by safe**: the chains of the free lists are `F`, all blocks are disjoint and inside the arena, and
the counters are right. -/
structure Safe (nalloc : Nat) (x : Arena) (F : Nat → List Nat) : Prop where
  arena : x.fb.arenaSz ≤ getArenaSize nalloc
  chain : ∀ l ≤ x.fb.maxsize, Chain x.fb.fblks (x.fb.free l) (F l) FBLK_NONE
  inside : ∀ p ∈ x.intervals F, p.1 + p.2 ≤ x.fb.arenaSz
  disjoint : (x.intervals F).Pairwise fun p q => p.1 + p.2 ≤ q.1 ∨ q.1 + q.2 ≤ p.1
  once : (x.out.map Prod.snd).Nodup
  nfree : ∀ l ≤ x.fb.maxsize, x.fb.nfree l = (F l).length
  avail : x.fb.avail = ∑ l ∈ Finset.range (x.fb.maxsize + 1), x.fb.nfree l
  allocated : x.fb.allocated = x.out.length

structure Owned (nalloc : Nat) (x : Arena) (own : Nat → Owner Nat) : Prop where
  pool : FreeBlock.Inv x.fb own
  arena : x.fb.arenaSz ≤ getArenaSize nalloc
  fits : ∀ p ∈ x.out, p.1 < x.fb.maxsize
  held : ∀ p ∈ x.out, ∀ i ≤ p.1, own (p.2 + i) = .held p.2
  once : (x.out.map Prod.snd).Nodup
  allocated : x.fb.allocated = x.out.length

variable {nalloc : Nat} {x y : Arena} {own : Nat → Owner Nat} {F : Nat → List Nat}

theorem pairwise_apart {l : List (Owner Nat × Nat × Nat)}
    (hown : ∀ e ∈ l, 0 < e.2.2 ∧ ∀ i < e.2.2, own (e.2.1 + i) = e.1) (hnd : (l.map Prod.fst).Nodup) :
    (l.map Prod.snd).Pairwise fun p q => p.1 + p.2 ≤ q.1 ∨ q.1 + q.2 ≤ p.1 := by
  rw [List.pairwise_map]
  refine (List.pairwise_map.1 hnd).imp_of_mem ?_
  intro e e' he he' hne
  by_contra hover
  -- the later of the two first cells is in both
  obtain ⟨hpos, hcells⟩ := hown e he
  obtain ⟨hpos', hcells'⟩ := hown e' he'
  have h1 := hcells (max e.2.1 e'.2.1 - e.2.1) (by omega)
  have h2 := hcells' (max e.2.1 e'.2.1 - e'.2.1) (by omega)
  rw [show e.2.1 + (max e.2.1 e'.2.1 - e.2.1) = max e.2.1 e'.2.1 by omega] at h1
  rw [show e'.2.1 + (max e.2.1 e'.2.1 - e'.2.1) = max e.2.1 e'.2.1 by omega] at h2
  exact hne (h1.symm.trans h2)

def owned (x : Arena) (F : Nat → List Nat) : List (Owner Nat × Nat × Nat) :=
  x.out.map (fun p => (.held p.2, p.2, p.1 + 1)) ++
    (List.range (x.fb.maxsize + 1)).flatMap fun l => (F l).map fun b => (.free l b, b, x.fb.width l)

theorem owned_snd (x : Arena) (F : Nat → List Nat) : (x.owned F).map Prod.snd = x.intervals F := by
  simp [owned, intervals, List.map_flatMap, Function.comp_def]

theorem Owned.owner (h : Owned nalloc x own) (hF : FreeLists x.fb own F (x.fb.maxsize + 1) x.fb.arenaSz) :
    ∀ e ∈ x.owned F, 0 < e.2.2 ∧ ∀ i < e.2.2, own (e.2.1 + i) = e.1 := by
  intro e he
  rcases List.mem_append.1 he with he | he
  · obtain ⟨p, hp, rfl⟩ := List.mem_map.1 he
    exact ⟨Nat.succ_pos _, fun i hi => h.held p hp i (Nat.le_of_lt_succ hi)⟩
  · obtain ⟨l, hl, he⟩ := List.mem_flatMap.1 he
    obtain ⟨b, hb, rfl⟩ := List.mem_map.1 he
    exact ⟨hF.width_pos l, hF.owned l (List.mem_range.1 hl) b hb⟩

theorem Owned.owners_nodup (h : Owned nalloc x own) (hF : FreeLists x.fb own F (x.fb.maxsize + 1) x.fb.arenaSz) :
    ((x.owned F).map Prod.fst).Nodup := by
  have hfst : (x.owned F).map Prod.fst = (x.out.map Prod.snd).map .held ++
      (List.range (x.fb.maxsize + 1)).flatMap fun l => (F l).map (Owner.free l) := by
    simp [owned, List.map_flatMap, Function.comp_def]
  rw [hfst, List.nodup_append]
  refine ⟨h.once.map fun a b e => by injection e, List.nodup_flatMap.2 ⟨fun l hl => ?_, ?_⟩, ?_⟩
  · exact (hF.nodup l (List.mem_range.1 hl)).map fun a b e => by injection e
  · refine List.nodup_range.imp fun {l l'} hne => ?_
    intro o ho ho'
    obtain ⟨b, -, rfl⟩ := List.mem_map.1 ho
    obtain ⟨b', -, he⟩ := List.mem_map.1 ho'
    injection he with hl
    exact hne hl.symm
  · rintro o ho o' ho' rfl
    obtain ⟨b, -, rfl⟩ := List.mem_map.1 ho
    obtain ⟨l, -, ho'⟩ := List.mem_flatMap.1 ho'
    obtain ⟨b', -, he⟩ := List.mem_map.1 ho'
    cases he

theorem Owned.safe (h : Owned nalloc x own) : ∃ F, Safe nalloc x F := by
  obtain ⟨F, hF⟩ := h.pool
  refine ⟨F, h.arena, fun l hl => hF.chain l (Nat.lt_succ_of_le hl), ?_, ?_, h.once,
    fun l hl => hF.count l (Nat.lt_succ_of_le hl), ?_, h.allocated⟩
  · intro p hp
    rw [← owned_snd] at hp
    obtain ⟨e, he, rfl⟩ := List.mem_map.1 hp
    obtain ⟨hpos, hown⟩ := h.owner hF e he
    have hlast := hF.bound (e.2.1 + (e.2.2 - 1)) <| by
      rw [hown (e.2.2 - 1) (by omega)]
      rintro hout
      rcases List.mem_append.1 he with he | he
      · obtain ⟨p, -, rfl⟩ := List.mem_map.1 he
        cases hout
      · obtain ⟨l, -, he⟩ := List.mem_flatMap.1 he
        obtain ⟨b, -, rfl⟩ := List.mem_map.1 he
        cases hout
    omega
  · rw [← owned_snd]
    exact pairwise_apart (h.owner hF) (h.owners_nodup hF)
  · rw [hF.avail]
    exact Finset.sum_congr rfl fun l hl => (hF.count l (Finset.mem_range.1 hl)).symm

/-! ## The counters -/

theorem take_counts (want l : Nat) (fb : FreeBlock) : wlp (take want l)
    (fun _ fb' => fb'.arenaSz = fb.arenaSz ∧ fb'.allocated = fb.allocated + 1) fb := by
  simp only [take, wlp_bind, wlp_read, wlp_assert, wlp_modify]
  intro _ _ _ _
  split
  case isFalse => exact wlp_pure.2 ⟨rfl, rfl⟩
  case isTrue =>
    simp only [FreeBlock.release, wlp_bind, wlp_read, wlp_assert, wlp_modify, wlp_pure]
    intro _ _
    exact ⟨rfl, by simp [pushed, popped, sizeSub]⟩

theorem getFrom_counts (want : Nat) : ∀ (n l : Nat) (fb : FreeBlock), wlp (getFrom want n l)
    (fun _ fb' => fb'.arenaSz = fb.arenaSz ∧ fb'.allocated = fb.allocated + 1) fb
  | 0, _, _ => fun hw => by cases hw
  | n + 1, l, fb => by
    simp only [getFrom, wlp_bind, wlp_read]
    split
    case isTrue => exact take_counts want l fb
    case isFalse => exact getFrom_counts want n (l + 1) fb

theorem get_counts (level : Nat) (fb : FreeBlock) : wlp (FreeBlock.get level)
    (fun _ fb' => level < fb.maxsize ∧ fb'.arenaSz = fb.arenaSz ∧ fb'.allocated = fb.allocated + 1) fb := by
  simp only [FreeBlock.get, wlp_bind, wlp_read, wlp_assert]
  exact fun hl => (getFrom_counts _ _ _ fb).mono fun _ _ h => ⟨hl, h⟩

theorem level_lt {level : Nat} {fb : FreeBlock} {r : Nat × FreeBlock} (h : (FreeBlock.get level fb).result = .ok r) :
    level < fb.maxsize := by
  obtain ⟨_, _, hread, h⟩ := result_bind.1 h
  cases hread
  obtain ⟨_, _, hassert, -⟩ := result_bind.1 h
  by_contra hge
  rw [Prog.assert, if_neg hge] at hassert
  cases hassert

theorem release_counts (size block : Nat) (fb : FreeBlock) : wlp (FreeBlock.release size block)
    (fun _ fb' => fb'.arenaSz = fb.arenaSz ∧ fb'.allocated = sizeSub fb.allocated 1) fb := by
  simp only [FreeBlock.release, wlp_bind, wlp_read, wlp_assert, wlp_modify]
  exact fun _ _ => ⟨rfl, rfl⟩

/-! ## The steps -/

theorem start_owned (h4 : 4 ≤ nalloc) (h14 : nalloc < 4 ^ 14) (h : Start nalloc x) : ∃ own, Owned nalloc x own := by
  obtain ⟨hout, fb, hr⟩ := h
  have hspec := initialise_spec (κ := Nat) fb h4 (by omega)
  obtain ⟨-, hcount, own, hinv, -⟩ := hspec.wlp.of_returned hr
  obtain ⟨_, _, hr', ⟨-, -, harena, -⟩, -⟩ := (initialise_quiet nalloc fb).returns hspec
  rw [hr] at hr'
  cases hr'
  refine ⟨own, hinv, harena, ?_, ?_, ?_, ?_⟩ <;> simp [hout, hcount]

theorem Owned.got (h : Owned nalloc x own) {level b : Nat} {fb : FreeBlock}
    (hr : (FreeBlock.get level x.fb).returned = some (b, fb)) :
    b ≠ FBLK_NONE ∧ ∃ own', Owned nalloc ⟨fb, (level, b) :: x.out⟩ own' := by
  obtain ⟨hlevel, harena, hcount⟩ := (get_counts level x.fb).of_returned hr
  -- with a name that no block has, the cells of the block are seen to be nobody's
  have hnew : b ≠ FBLK_NONE ∧ b ∉ x.out.map Prod.snd := by
    obtain ⟨hne, own', -, hheld, -, hkeep⟩ := (get_spec h.pool FBLK_NONE hlevel).wlp.of_returned hr
    refine ⟨hne, fun hb => hne ?_⟩
    obtain ⟨p, hp, rfl⟩ := List.mem_map.1 hb
    have hbefore := (hkeep p.2 p.2 (h.held p hp 0 (Nat.zero_le _))).1
    rw [show own' p.2 = .held FBLK_NONE from hheld 0 (Nat.zero_le _)] at hbefore
    injection hbefore with e
    exact e.symm
  obtain ⟨-, own', hinv, hheld, hmax, hkeep⟩ := (get_spec h.pool b hlevel).wlp.of_returned hr
  refine ⟨hnew.1, own', hinv, by rw [harena]; exact h.arena, ?_, ?_, List.nodup_cons.2 ⟨hnew.2, h.once⟩, ?_⟩
  · intro p hp
    rw [hmax]
    rcases List.mem_cons.1 hp with rfl | hp
    · exact hlevel
    · exact h.fits p hp
  · intro p hp i hi
    rcases List.mem_cons.1 hp with rfl | hp
    · exact hheld i hi
    · exact (hkeep _ _ (h.held p hp i hi)).1
  · rw [hcount, h.allocated, List.length_cons]

theorem Owned.get (h : Owned nalloc x own) {level : Nat} (hlevel : level < x.fb.maxsize) :
    ∃ b fb, (FreeBlock.get level x.fb).result = .ok (b, fb) ∧
      ((b ≠ FBLK_NONE ∧ ∃ own', Owned nalloc ⟨fb, (level, b) :: x.out⟩ own') ∨
        b = FBLK_NONE ∧ fb = x.fb ∧ ∀ l, level ≤ l → l ≤ x.fb.maxsize → x.fb.nfree l = 0) := by
  by_cases hw : (FreeBlock.get level x.fb).warned = true
  · obtain ⟨b, fb, hres, hnone⟩ := get_warns hlevel hw
    exact ⟨b, fb, hres, .inr hnone⟩
  · have hw := Bool.eq_false_of_not_eq_true hw
    obtain ⟨b, fb, hres, -⟩ := get_spec h.pool FBLK_NONE hlevel hw
    exact ⟨b, fb, hres, .inl (h.got (Outcome.returned_eq_some.2 ⟨hw, hres⟩))⟩

theorem Owned.release (h : Owned nalloc x own) {level block : Nat} (hp : (level, block) ∈ x.out) :
    ∃ fb, (FreeBlock.release (level + 1) block x.fb).returned = some ((), fb) ∧
      ∃ own', Owned nalloc ⟨fb, x.out.erase (level, block)⟩ own' := by
  have hspec := release_spec h.pool (Nat.succ_pos level) (h.fits _ hp) fun i hi => h.held _ hp i (Nat.le_of_lt_succ hi)
  obtain ⟨⟨⟩, fb, hr, own', hinv, hmax, hkeep⟩ := hspec.returns (silent_release _ _)
  obtain ⟨harena, hcount⟩ := (release_counts _ _ _).of_returned hr
  have hmem : ∀ p ∈ x.out.erase (level, block), p ∈ x.out ∧ p.2 ≠ block := by
    intro p hpe
    have hne := ((List.Nodup.of_map _ h.once).mem_erase_iff).1 hpe
    exact ⟨hne.2, fun e => hne.1 (List.inj_on_of_nodup_map h.once hne.2 hp e)⟩
  refine ⟨fb, hr, own', hinv, by rw [harena]; exact h.arena, ?_, ?_, ?_, ?_⟩
  · intro p hpe
    rw [hmax]
    exact h.fits p (hmem p hpe).1
  · intro p hpe i hi
    obtain ⟨hpo, hne⟩ := hmem p hpe
    have hcell := h.held p hpo i hi
    refine (hkeep _ _ hcell ?_).1
    rintro ⟨h1, h2⟩
    have hown := h.held _ hp (p.2 + i - block) (by omega)
    rw [show block + (p.2 + i - block) = p.2 + i by omega, hcell] at hown
    injection hown with e
    exact hne e
  · exact h.once.sublist ((List.erase_sublist).map _)
  · rw [hcount, h.allocated, List.length_erase_of_mem hp, sizeSub_of_le (List.length_pos_of_mem hp)]

theorem Owned.write (h : Owned nalloc x own) {cell v : Nat} (hc : x.Matching (.write cell v)) :
    Owned nalloc { x with fb := { x.fb with fblks := update x.fb.fblks cell v } } own := by
  obtain ⟨p, hp, hle, hlast⟩ := hc
  have hcell := h.held p hp (cell - p.2) (by omega)
  rw [show p.2 + (cell - p.2) = cell by omega] at hcell
  refine { h with pool := h.pool.write fun c hfree => update_of_ne ?_ _ _ }
  rintro rfl
  exact hfree _ hcell

theorem Owned.next {a : ArenaCall} (h : Owned nalloc x own) (hm : x.Matching a) (hn : next a x = some y) :
    ∃ own', Owned nalloc y own' := by
  cases a with
  | get level =>
    obtain ⟨⟨b, fb⟩, hres, rfl⟩ := Option.map_eq_some_iff.1 hn
    have hres := Outcome.toOption_eq_some.1 hres
    obtain ⟨b', fb', hres', hb⟩ := h.get (level_lt hres)
    rw [hres'] at hres
    cases hres
    rcases hb with ⟨hne, hown⟩ | ⟨rfl, rfl, -⟩
    · rw [if_neg hne]
      exact hown
    · exact ⟨own, h⟩
  | write cell value =>
    cases hn
    exact ⟨own, h.write hm⟩
  | release level block =>
    obtain ⟨⟨u, fb⟩, hres, rfl⟩ := Option.map_eq_some_iff.1 hn
    obtain ⟨fb', hr, hown⟩ := h.release hm
    rw [Outcome.toOption_eq_some, (Outcome.returned_eq_some.1 hr).2] at hres
    cases hres
    exact hown

theorem Reached.owned (h4 : 4 ≤ nalloc) (h14 : nalloc < 4 ^ 14) (h : x.Reached nalloc) : ∃ own, Owned nalloc x own := by
  refine Transitions.Reached.invariant (I := fun x => ∃ own, Owned nalloc x own) h ?_ ?_
  · exact fun x hs => start_owned h4 h14 hs
  · rintro x a y ⟨own, hown⟩ hm hn
    exact hown.next hm hn

/-- **The arena is safe.** In every state of every run the blocks are disjoint and inside the arena and the counters are
right; a request returns without a block only if there is no free one of its level or above; what was handed out can be
released. -/
theorem arena_safe {nalloc : Nat} (h4 : 4 ≤ nalloc) (h14 : nalloc < 4 ^ 14) :
    (∀ fb, ∃ fb', (initialise nalloc fb).returned = some ((), fb')) ∧
    ∀ x : Arena, x.Reached nalloc → (∃ F, Safe nalloc x F) ∧
      (∀ level < x.fb.maxsize, ∃ b fb, (FreeBlock.get level x.fb).result = .ok (b, fb) ∧
        (b = FBLK_NONE → ∀ l, level ≤ l → l ≤ x.fb.maxsize → x.fb.nfree l = 0)) ∧
      ∀ p ∈ x.out, ∃ fb, (FreeBlock.release (p.1 + 1) p.2 x.fb).returned = some ((), fb) := by
  refine ⟨fun fb => ?_, fun x hx => ?_⟩
  · obtain ⟨⟨⟩, fb', hr, -⟩ := (initialise_quiet nalloc fb).returns (initialise_spec (κ := Nat) fb h4 (by omega))
    exact ⟨fb', hr⟩
  · obtain ⟨own, h⟩ := hx.owned h4 h14
    refine ⟨h.safe, fun level hlevel => ?_, fun p hp => ?_⟩
    · obtain ⟨b, fb, hres, ⟨hne, -⟩ | ⟨-, -, hnone⟩⟩ := h.get hlevel
      · exact ⟨b, fb, hres, fun e => absurd e hne⟩
      · exact ⟨b, fb, hres, fun _ => hnone⟩
    · obtain ⟨fb, hr, -⟩ := h.release hp
      exact ⟨fb, hr⟩

def unused : FreeBlock := ⟨0, 0, 0, 0, fun _ => 0, fun _ => 0, fun _ => 0, []⟩

theorem arena_safe_four : ∃ x : Arena, x.Reached 4 ∧ x.out = [(1, 3)] ∧ ∃ F, Safe 4 x F := by
  obtain ⟨-, hsafe⟩ := @arena_safe 4 (by decide) (by decide)
  have hget : (initialise 4 unused).returned.bind (fun r => (FreeBlock.get 1 r.2).returned.map Prod.fst) =
    some 3 := by decide +kernel
  obtain ⟨⟨⟨⟩, fb⟩, hr, hget⟩ := Option.bind_eq_some_iff.1 hget
  obtain ⟨⟨b, fb'⟩, hb, rfl⟩ := Option.map_eq_some_iff.1 hget
  have hres := (Outcome.returned_eq_some.1 hb).2
  have hrun : Reached 4 ⟨fb', [(1, 3)]⟩ := by
    refine .step (x := ⟨fb, []⟩) (a := .get 1) (.start ⟨rfl, unused, hr⟩) trivial ?_
    rw [next, hres]
    rfl
  exact ⟨_, hrun, rfl, (hsafe _ hrun).1⟩

/-- From `4 ^ 14` slots on, `Initialize` ends in a failed assertion: fifteen levels are too many. -/
theorem initialise_fault (h : 4 ^ 14 ≤ nalloc) (fb : FreeBlock) : (initialise nalloc fb).fault = some .assertion := by
  have hlog : ¬ log4 nalloc + 1 < FB_MAX_LEVELS := by
    have h14 : 14 ≤ log4 nalloc := Nat.le_log_of_pow_le (by decide) h
    exact Nat.not_lt.2 (Nat.succ_le_succ h14)
  rw [initialise, bind_of_eq (assert_pos (by omega))]
  show Outcome.fault (andThen (Prog.assert _) _ fb) = _
  rw [andThen, Prog.assert, if_neg hlog]
  rfl

theorem too_many_levels : (initialise (4 ^ 14) unused).fault = some .assertion :=
    initialise_fault (Nat.le_refl _) unused

end Arena

end Rdm
