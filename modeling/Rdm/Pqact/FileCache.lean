import Mathlib.Algebra.Group.Int.Defs
import Rdm.Lib.Recency

/-!
# The cache of open files

`pqact::FileCache` has the open files in a list, in the order in which they were obtained (`reached_inv`). `EvictLru`
deletes the last entry that has none of some flags.
-/

namespace Rdm

open Recency List

inductive EntryType where
  | unio
  | pipe
deriving DecidableEq

/-- `pqact::IFileEntry`: the number stands for its address, and `args` is what it was opened with. -/
structure FileEntry (Args : Type) where
  id : Nat
  type : EntryType
  args : Args
  flags : UInt32
  lastUse : Int
deriving DecidableEq

namespace FileEntry

variable {Args : Type}

def FL_NEEDS_SYNC : UInt32 := 1

def isFlagSet (e : FileEntry Args) (flag : UInt32) : Bool := e.flags &&& flag ≠ 0

def touch (now : Int) (e : FileEntry Args) : FileEntry Args := { e with lastUse := now }

end FileEntry

structure FileCacheConfig where
  maxEntries : Nat
  maxTimeIdleSecs : Nat
  pos : 0 < maxEntries

structure FileCache (Args : Type) where
  entries : List (FileEntry Args) := []
  next : Nat := 0

namespace FileCache

variable {Args : Type} {isMatch : EntryType → Args → Args → Bool} {cfg : FileCacheConfig}
variable {es es' : List (FileEntry Args)}

/-! ## The operations -/

def evictBack (skipFlags : UInt32) : List (FileEntry Args) → List (FileEntry Args)
  | [] => []
  | e :: es => if e.isFlagSet skipFlags then e :: evictBack skipFlags es else es

def evictLru (skipFlags : UInt32) (es : List (FileEntry Args)) : List (FileEntry Args) :=
  (evictBack skipFlags es.reverse).reverse

def removeAndFree (entry : Option Nat) (es : List (FileEntry Args)) : List (FileEntry Args) :=
  match entry with
  | none => es
  | some id => es.eraseP fun e => e.id = id

def syncAll (maxTimeIdleSecs : Nat) (now : Int) (sync : Nat → Int × UInt32) : List (FileEntry Args) →
    List (FileEntry Args)
  | [] => []
  | e :: es =>
    let synced := if e.isFlagSet FileEntry.FL_NEEDS_SYNC then { e with flags := (sync e.id).2 } else e
    let failed := e.isFlagSet FileEntry.FL_NEEDS_SYNC && (sync e.id).1 ≠ 0
    if failed ∨ maxTimeIdleSecs < (now - e.lastUse) % 2 ^ 64 then syncAll maxTimeIdleSecs now sync es
    else synced :: syncAll maxTimeIdleSecs now sync es

theorem length_evictLru {es : List (FileEntry Args)} (h : es ≠ []) : (evictLru 0 es).length < es.length := by
  have hback : ∀ es : List (FileEntry Args), es ≠ [] → (evictBack 0 es).length < es.length := by
    intro es hne
    cases es with
    | nil => exact absurd rfl hne
    | cons e es =>
      rw [evictBack, if_neg (by simp [FileEntry.isFlagSet])]
      exact Nat.lt_succ_self _
  have hlt := hback es.reverse (by simpa using h)
  rw [length_reverse] at hlt
  rwa [evictLru, length_reverse]

def makeRoom (cfg : FileCacheConfig) (es : List (FileEntry Args)) : List (FileEntry Args) :=
  if cfg.maxEntries ≤ es.length then makeRoom cfg (evictLru 0 es) else es
termination_by es.length
decreasing_by
  have hpos := cfg.pos
  exact length_evictLru (List.ne_nil_of_length_pos (by omega))

def findMatch (isMatch : EntryType → Args → Args → Bool) (type : EntryType) (args : Args) :
    List (FileEntry Args) → Option (List (FileEntry Args) × FileEntry Args × List (FileEntry Args))
  | [] => none
  | e :: es =>
    if e.type = type ∧ isMatch e.type e.args args then some ([], e, es)
    else (findMatch isMatch type args es).map fun r => (e :: r.1, r.2.1, r.2.2)

def getOrCreate (isMatch : EntryType → Args → Args → Bool) (cfg : FileCacheConfig) (type : EntryType) (args : Args)
    (now : Int) (opened : Option UInt32) (c : FileCache Args) : Option (FileEntry Args × Bool) × FileCache Args :=
  match findMatch isMatch type args c.entries with
  | some (before, e, behind) =>
    (some (e.touch now, false), { c with entries := e.touch now :: (before ++ behind) })
  | none =>
    let c := { c with entries := makeRoom cfg c.entries }
    match opened with
    | none => (none, c)
    | some flags =>
      let e : FileEntry Args := ⟨c.next, type, args, flags, now⟩
      (some (e, true), ⟨e :: c.entries, c.next + 1⟩)

/-! ## Runs -/

/-- What is called. Between the calls an action may set the flags of an entry. -/
inductive Op (Args : Type) where
  | getOrCreate (type : EntryType) (args : Args) (now : Int) (opened : Option UInt32)
  | evictLru (skipFlags : UInt32)
  | removeAndFree (entry : Option Nat)
  | syncAll (now : Int) (sync : Nat → Int × UInt32)
  | setFlags (id : Nat) (flags : UInt32)

/-- A cache, and the numbers of what was obtained, the last first. -/
structure History (Args : Type) where
  cache : FileCache Args := {}
  log : List Nat := []

def Op.step (isMatch : EntryType → Args → Args → Bool) (cfg : FileCacheConfig) (x : History Args) : Op Args →
    History Args
  | .getOrCreate type args now opened =>
    let (r, c) := x.cache.getOrCreate isMatch cfg type args now opened
    ⟨c, (r.map fun r => r.1.id).toList ++ x.log⟩
  | .evictLru skipFlags => { x with cache.entries := FileCache.evictLru skipFlags x.cache.entries }
  | .removeAndFree entry => { x with cache.entries := FileCache.removeAndFree entry x.cache.entries }
  | .syncAll now sync => { x with cache.entries := FileCache.syncAll cfg.maxTimeIdleSecs now sync x.cache.entries }
  | .setFlags id flags =>
    { x with cache.entries := x.cache.entries.map fun e => if e.id = id then { e with flags := flags } else e }

def run (isMatch : EntryType → Args → Args → Bool) (cfg : FileCacheConfig) (ops : List (Op Args)) : History Args :=
  ops.foldl (Op.step isMatch cfg) {}

/-! ## What the operations do to the list -/

def shape (e : FileEntry Args) : Nat × EntryType × Args := (e.id, e.type, e.args)

theorem evictBack_spec (skipFlags : UInt32) (es : List (FileEntry Args)) :
    ((∀ e ∈ es, e.isFlagSet skipFlags = true) ∧ evictBack skipFlags es = es) ∨
      ∃ before e behind, es = before ++ e :: behind ∧ e.isFlagSet skipFlags = false ∧
        (∀ e' ∈ before, e'.isFlagSet skipFlags = true) ∧ evictBack skipFlags es = before ++ behind := by
  induction es with
  | nil => exact .inl ⟨fun _ h => absurd h not_mem_nil, rfl⟩
  | cons e es ih =>
    cases he : e.isFlagSet skipFlags with
    | false => exact .inr ⟨[], e, es, rfl, he, fun _ h => absurd h not_mem_nil, by simp [evictBack, he]⟩
    | true =>
      have hstep : evictBack skipFlags (e :: es) = e :: evictBack skipFlags es := by simp [evictBack, he]
      rw [hstep]
      rcases ih with ⟨hall, heq⟩ | ⟨before, e', behind, hes, he', hbefore, heq⟩
      · exact .inl ⟨forall_mem_cons.2 ⟨he, hall⟩, by rw [heq]⟩
      · exact .inr ⟨e :: before, e', behind, by rw [hes]; rfl, he', forall_mem_cons.2 ⟨he, hbefore⟩, by rw [heq]; rfl⟩

/-- **`EvictLru` deletes the last entry without the flags**, if there is one. -/
theorem evictLru_spec (skipFlags : UInt32) (es : List (FileEntry Args)) :
    ((∀ e ∈ es, e.isFlagSet skipFlags = true) ∧ evictLru skipFlags es = es) ∨
      ∃ before e behind, es = before ++ e :: behind ∧ e.isFlagSet skipFlags = false ∧
        (∀ e' ∈ behind, e'.isFlagSet skipFlags = true) ∧ evictLru skipFlags es = before ++ behind := by
  unfold evictLru
  rcases evictBack_spec skipFlags es.reverse with ⟨hall, heq⟩ | ⟨before, e, behind, hes, he, hbefore, heq⟩
  · exact .inl ⟨fun e h => hall e (mem_reverse.2 h), by rw [heq, reverse_reverse]⟩
  · refine .inr ⟨behind.reverse, e, before.reverse, ?_, he, fun e' h => hbefore e' (mem_reverse.1 h), ?_⟩
    · rw [← reverse_reverse es, hes]
      simp
    · rw [heq, reverse_append]

theorem evictLru_sublist (skipFlags : UInt32) (es : List (FileEntry Args)) : (evictLru skipFlags es).Sublist es := by
  rcases evictLru_spec skipFlags es with ⟨-, heq⟩ | ⟨before, e, behind, hes, -, -, heq⟩
  · rw [heq]
  · rw [heq, hes]
    exact List.Sublist.append_left (sublist_cons_self e behind) before

theorem makeRoom_spec (cfg : FileCacheConfig) (es : List (FileEntry Args)) :
    (makeRoom cfg es).Sublist es ∧ (makeRoom cfg es).length < cfg.maxEntries := by
  fun_induction makeRoom cfg es with
  | case1 es hfull ih => exact ⟨ih.1.trans (evictLru_sublist 0 es), ih.2⟩
  | case2 es hroom => exact ⟨List.Sublist.refl es, Nat.lt_of_not_le hroom⟩

theorem syncAll_shapes (maxTimeIdleSecs : Nat) (now : Int) (sync : Nat → Int × UInt32) (es : List (FileEntry Args)) :
    ((syncAll maxTimeIdleSecs now sync es).map shape).Sublist (es.map shape) := by
  induction es with
  | nil => exact List.Sublist.refl _
  | cons e es ih =>
    have hshape : shape (if e.isFlagSet FileEntry.FL_NEEDS_SYNC then { e with flags := (sync e.id).2 } else e) =
      shape e := by
      split <;> rfl
    rw [syncAll]
    split
    · exact ih.trans (sublist_cons_self _ _)
    · rw [map_cons, map_cons, hshape]
      exact ih.cons_cons _

theorem findMatch_some {type : EntryType} {args : Args} : ∀ {es before behind : List (FileEntry Args)}
    {e : FileEntry Args}, findMatch isMatch type args es = some (before, e, behind) →
    es = before ++ e :: behind ∧ e.type = type ∧ isMatch e.type e.args args = true
  | [], _, _, _, h => by cases h
  | e' :: es, before, behind, e, h => by
    rw [findMatch] at h
    split at h
    case isTrue hm =>
      cases h
      exact ⟨rfl, hm⟩
    case isFalse =>
      obtain ⟨r, hr, he⟩ := Option.map_eq_some_iff.1 h
      cases he
      obtain ⟨rfl, hm⟩ := findMatch_some hr
      exact ⟨rfl, hm⟩

theorem findMatch_none {type : EntryType} {args : Args} :
    findMatch isMatch type args es = none ↔ ∀ e ∈ es, e.type = type → isMatch e.type e.args args = false := by
  induction es with
  | nil => simp [findMatch]
  | cons e es ih =>
    rw [findMatch, forall_mem_cons, ← ih]
    by_cases hm : e.type = type ∧ isMatch e.type e.args args = true
    · rw [if_pos hm]
      refine ⟨fun h => (Option.some_ne_none _ h).elim, fun h => ?_⟩
      rw [h.1 hm.1] at hm
      cases hm.2
    · rw [if_neg hm, Option.map_eq_none_iff]
      rw [not_and, Bool.not_eq_true] at hm
      exact ⟨fun h => ⟨hm, h⟩, And.right⟩

/-! ## The invariant -/

/-- **The invariant of a cache**: it is not too large and in the order in which the entries were obtained, and no two
entries of a type were opened with the same arguments. -/
structure Inv (cfg : FileCacheConfig) (x : History Args) : Prop where
  room : x.cache.entries.length ≤ cfg.maxEntries
  recent : Recent x.log (x.cache.entries.map (·.id))
  fresh : ∀ id ∈ x.log, id < x.cache.next
  single : x.cache.entries.Pairwise fun e e' => e.type = e'.type → e.args ≠ e'.args

theorem inv_new : Inv cfg ({} : History Args) :=
  ⟨Nat.zero_le _, recent_nil, fun _ h => absurd h not_mem_nil, List.Pairwise.nil⟩

theorem single_shapes : (es.Pairwise fun e e' => e.type = e'.type → e.args ≠ e'.args) ↔
    (es.map shape).Pairwise fun s s' => s.2.1 = s'.2.1 → s.2.2 ≠ s'.2.2 := by
  rw [pairwise_map]
  rfl

theorem ids_shapes : es.map (·.id) = (es.map shape).map (·.1) := by
  rw [map_map]
  rfl

variable {x : History Args} {e : FileEntry Args}

theorem Inv.shrink (h : Inv cfg x) (hs : (es.map shape).Sublist (x.cache.entries.map shape)) :
    Inv cfg { x with cache.entries := es } := by
  have hlen := hs.length_le
  rw [length_map, length_map] at hlen
  refine ⟨Nat.le_trans hlen h.room, ?_, h.fresh, single_shapes.2 ((single_shapes.1 h.single).sublist hs)⟩
  have hrecent := h.recent
  rw [ids_shapes] at hrecent ⊢
  exact hrecent.sublist (hs.map _)

theorem Inv.lt_next (h : Inv cfg x) (he : e ∈ x.cache.entries) : e.id < x.cache.next :=
  h.fresh _ (h.recent.logged _ (mem_map_of_mem he))

theorem Inv.hit (h : Inv cfg x) {before behind : List (FileEntry Args)}
    (hes : x.cache.entries = before ++ e :: behind) (now : Int) :
    Inv cfg ⟨{ x.cache with entries := e.touch now :: (before ++ behind) }, e.id :: x.log⟩ := by
  have hroom := h.room
  have hrecent := h.recent
  have hsingle := h.single
  rw [hes] at hroom hrecent hsingle
  refine ⟨?_, ?_, ?_, ?_⟩
  · simpa [Nat.add_assoc] using hroom
  · rw [map_append, map_cons] at hrecent
    rw [map_cons, map_append]
    exact hrecent.used_again
  · refine forall_mem_cons.2 ⟨h.lt_next (by rw [hes]; simp), h.fresh⟩
  · have hmiddle := (pairwise_middle fun {e e'} hne htype => (hne htype.symm).symm).1 hsingle
    rw [pairwise_cons] at hmiddle ⊢
    exact hmiddle

theorem Inv.miss (h : Inv cfg x) (hs : es.Sublist x.cache.entries) (hroom : es.length < cfg.maxEntries)
    (hid : e.id = x.cache.next) (hnew : ∀ e' ∈ es, e.type = e'.type → e.args ≠ e'.args) :
    Inv cfg ⟨⟨e :: es, x.cache.next + 1⟩, e.id :: x.log⟩ := by
  have hshrunk := h.shrink (hs.map shape)
  refine ⟨hroom, ?_, ?_, pairwise_cons.2 ⟨hnew, hshrunk.single⟩⟩
  · refine hshrunk.recent.used fun hmem => ?_
    obtain ⟨e', he', hsame⟩ := mem_map.1 hmem
    have hlt := hshrunk.lt_next he'
    dsimp only at hsame hlt
    omega
  · refine forall_mem_cons.2 ⟨by dsimp only; omega, fun id hlog => ?_⟩
    exact Nat.lt_succ_of_lt (h.fresh id hlog)

/-- **Every call keeps the invariant**, if an entry matches the arguments it was opened with. -/
theorem Op.step_inv (hmatch : ∀ type args, isMatch type args args = true) (h : Inv cfg x) (op : Op Args) :
    Inv cfg (op.step isMatch cfg x) := by
  cases op with
  | getOrCreate type args now opened =>
    rw [step, FileCache.getOrCreate]
    cases hfind : findMatch isMatch type args x.cache.entries with
    | some r =>
      obtain ⟨before, e, behind⟩ := r
      exact h.hit (findMatch_some hfind).1 now
    | none =>
      obtain ⟨hs, hroom⟩ := makeRoom_spec cfg x.cache.entries
      cases opened with
      | none => exact h.shrink (hs.map shape)
      | some flags =>
        refine h.miss hs hroom rfl fun e' he' htype hargs => ?_
        have hno := findMatch_none.1 hfind e' (hs.subset he') htype.symm
        rw [← hargs, hmatch] at hno
        cases hno
  | evictLru skipFlags => exact h.shrink ((evictLru_sublist _ _).map shape)
  | removeAndFree entry =>
    refine h.shrink (List.Sublist.map shape ?_)
    cases entry with
    | none => exact List.Sublist.refl _
    | some id => exact eraseP_sublist
  | syncAll now sync => exact h.shrink (syncAll_shapes _ _ _ _)
  | setFlags id flags =>
    have hsame : (x.cache.entries.map fun e => if e.id = id then { e with flags := flags } else e).map shape =
        x.cache.entries.map shape := by
      rw [map_map]
      refine map_congr_left fun e _ => ?_
      rw [Function.comp_apply]
      split <;> rfl
    exact h.shrink (hsame ▸ List.Sublist.refl _)

theorem run_inv (hmatch : ∀ type args, isMatch type args args = true) (cfg : FileCacheConfig) (ops : List (Op Args)) :
    Inv cfg (run isMatch cfg ops) := by
  have hfold : ∀ (ops : List (Op Args)) (x : History Args), Inv cfg x →
    Inv cfg (ops.foldl (Op.step isMatch cfg) x) := by
    intro ops
    induction ops with
    | nil => exact fun x h => h
    | cons op ops ih => exact fun x h => ih _ (op.step_inv hmatch h)
  exact hfold ops {} inv_new

/-! ## Least recently used -/

structure LeastRecentlyUsed (isMatch : EntryType → Args → Args → Bool) (cfg : FileCacheConfig) (x : History Args) :
    Prop where
  room : x.cache.entries.length ≤ cfg.maxEntries
  order : Recent x.log (x.cache.entries.map (·.id))
  single : x.cache.entries.Pairwise fun e e' => e.type = e'.type → e.args ≠ e'.args
  hit : ∀ type args now opened, (∃ e ∈ x.cache.entries, e.type = type ∧ isMatch e.type e.args args = true) →
    ∃ e ∈ x.cache.entries, e.type = type ∧ isMatch e.type e.args args = true ∧
      x.cache.getOrCreate isMatch cfg type args now opened = (some (e.touch now, false),
        { x.cache with entries := e.touch now :: x.cache.entries.filter (·.id ≠ e.id) })
  evict : ∀ flags,
    ((∀ e ∈ x.cache.entries, e.flags &&& flags ≠ 0) ∧ evictLru flags x.cache.entries = x.cache.entries) ∨
    ∃ e ∈ x.cache.entries, e.flags &&& flags = 0 ∧
      (∀ e' ∈ x.cache.entries, e'.flags &&& flags = 0 → e' = e ∨ Later x.log e'.id e.id) ∧
      evictLru flags x.cache.entries = x.cache.entries.filter (·.id ≠ e.id)

theorem Inv.filter_ne (h : Inv cfg x) {before behind : List (FileEntry Args)}
    (hes : x.cache.entries = before ++ e :: behind) : x.cache.entries.filter (·.id ≠ e.id) = before ++ behind := by
  have hnodup := h.recent.nodup
  rw [hes, map_append, map_cons, nodup_middle, ← map_append, nodup_cons] at hnodup
  have hkeep : ∀ e' ∈ before ++ behind, decide (e'.id ≠ e.id) = true := by
    intro e' he'
    rw [decide_eq_true_eq]
    exact fun he => hnodup.1 (mem_map.2 ⟨e', he', he⟩)
  rw [hes, filter_append, filter_cons_of_neg (by simp), ← filter_append, filter_eq_self.2 hkeep]

/-- **The cache keeps what was used last**: after any calls it behaves as a cache of least recently used entries. -/
theorem run_leastRecentlyUsed (hmatch : ∀ type args, isMatch type args args = true) (cfg : FileCacheConfig)
    (ops : List (Op Args)) : LeastRecentlyUsed isMatch cfg (run isMatch cfg ops) := by
  have h := run_inv hmatch cfg ops
  generalize run isMatch cfg ops = x at h
  refine ⟨h.room, h.recent, h.single, fun type args now opened hex => ?_, fun flags => ?_⟩
  · obtain ⟨e, he, htype, hm⟩ := hex
    cases hfind : findMatch isMatch type args x.cache.entries with
    | none =>
      rw [findMatch_none.1 hfind e he htype] at hm
      cases hm
    | some r =>
      obtain ⟨before, e, behind⟩ := r
      obtain ⟨hes, hfound⟩ := findMatch_some hfind
      refine ⟨e, by rw [hes]; simp, hfound.1, hfound.2, ?_⟩
      rw [FileCache.getOrCreate, hfind, h.filter_ne hes]
  · rcases evictLru_spec flags x.cache.entries with ⟨hall, heq⟩ | ⟨before, e, behind, hes, he, hbehind, heq⟩
    · exact Or.inl ⟨fun e he => by simpa [FileEntry.isFlagSet] using hall e he, heq⟩
    · refine Or.inr ⟨e, by rw [hes]; simp, by simpa [FileEntry.isFlagSet] using he, fun e' he' hflags => ?_,
        by rw [heq, h.filter_ne hes]⟩
      have hrecent := h.recent
      rw [hes, map_append, map_cons] at hrecent
      rw [hes, mem_append, mem_cons] at he'
      rcases he' with hb | rfl | hb
      · exact Or.inr (hrecent.later_of_before (mem_map_of_mem hb))
      · exact Or.inl rfl
      · exact absurd hflags (by simpa [FileEntry.isFlagSet] using hbehind e' hb)

def oneTooMany : List (Op Nat) :=
  [.getOrCreate .unio 1 0 (some 0), .getOrCreate .unio 2 1 (some 0), .getOrCreate .unio 1 2 none,
    .getOrCreate .unio 3 3 (some 0)]

/-- The third file takes the place of the second, since the first was used again. -/
theorem run_leastRecentlyUsed_evicts : (∀ (_ : EntryType) (args : Nat), (args == args) = true) ∧
    ((run (fun _ opened args => opened == args) ⟨2, 21600, by decide⟩ oneTooMany).cache.entries.map (·.args)) = [3, 1] ∧
    LeastRecentlyUsed (fun _ opened args => opened == args) ⟨2, 21600, by decide⟩
      (run (fun _ opened args => opened == args) ⟨2, 21600, by decide⟩ oneTooMany) :=
  ⟨fun _ _ => beq_self_eq_true _, by decide +kernel, run_leastRecentlyUsed (fun _ _ => beq_self_eq_true _) _ _⟩

end FileCache

end Rdm
