import Rdm.Core.FeedType
import Rdm.Pq.FirstBlocks
import Rdm.Pq.IndexLayer
import Rdm.Pq.IndexRuns

/-!
# Creating a queue

`pqcreate` reads a size and a number of slots; `ProductQueue::create` lays out the file and formats the index. Only for
four up to `2 ^ 28` slots is the index set up (`create_yields`).
-/

namespace Rdm

open ProgLogic ProgLogic.Prog Rounding RegionList
open FeedType (isspace)
open IndexLayer (requiredSizes exactArea Laid ranges place)

/-! ## The options of `pqcreate` -/

namespace PqCreate

def digitValue (c : Char) : Nat :=
  if c.isDigit then c.toNat - 48
  else if c.isLower then c.toNat - 87
  else if c.isUpper then c.toNat - 55
  else 36

def findBase : List Char → Nat × List Char
  | '0' :: x :: d :: s =>
    if (x = 'x' ∨ x = 'X') ∧ digitValue d < 16 then (16, d :: s) else (8, '0' :: x :: d :: s)
  | '0' :: s => (8, '0' :: s)
  | s => (10, s)

def ofDigits (base : Nat) (ds : List Char) : Nat := ds.foldl (fun n c => n * base + digitValue c) 0

def strtol (text : List Char) (base : Nat) : Int × List Char × Bool :=
  let s := text.dropWhile isspace
  let negative := s.head? = some '-'
  let s := if s.head? = some '-' ∨ s.head? = some '+' then s.tail else s
  let (base, s) := if base = 0 then findBase s else (base, s)
  let ds := s.takeWhile fun c => digitValue c < base
  let rest := s.dropWhile fun c => digitValue c < base
  if ds = [] then (0, text, false)
  else if negative then
    if 2 ^ 63 < ofDigits base ds then (-2 ^ 63, rest, true) else (-(ofDigits base ds : Int), rest, false)
  else if 2 ^ 63 ≤ ofDigits base ds then (2 ^ 63 - 1, rest, true)
  else (ofDigits base ds, rest, false)

structure Arguments where
  size : Option (List Char) := none
  path : Option (List Char) := none
  slots : Option (List Char) := none
  positional : List (List Char) := []

def sizeText (args : Arguments) : Option (List Char) :=
  match args.positional with
  | [] => some (args.size.getD [])
  | [arg] => if args.size = none then some arg else if args.path = none then args.size else none
  | [arg, _] => if args.size.isSome ∨ args.path.isSome then none else some arg
  | _ => none

def unitExponent : List Char → Nat
  | 'k' :: _ | 'K' :: _ => 1
  | 'm' :: _ | 'M' :: _ => 2
  | 'g' :: _ | 'G' :: _ => 3
  | _ => 0

def scale : Nat → Int → Option Int
  | 0, n => some n
  | e + 1, n =>
    let n := (n * 1000).bmod (2 ^ 64)
    if n ≤ 0 then none else scale e n

def parseSize (text : List Char) : Option Int :=
  let (n, cp, outOfRange) := strtol text 0
  if outOfRange then none
  else if n ≤ 0 then none
  else scale (unitExponent cp) n

def PQ_AVG_PRODUCT_SIZE : Int := 140000

/-- The size and the slots that `pqcreate` takes from its arguments, unless it ends with the usage. -/
def processOptions (args : Arguments) : Option (Int × Nat) := do
  let text ← sizeText args
  if text = [] then none
  else
    let initialsz ← parseSize text
    match args.slots with
    | some slots =>
      let nproducts := ((strtol slots 10).1 % 2 ^ 64).toNat
      if nproducts = 0 then none else some (initialsz, nproducts)
    | none => some (initialsz, (initialsz / PQ_AVG_PRODUCT_SIZE).toNat)

theorem processOptions_size {args : Arguments} {size : Int} {slots : Nat}
    (h : processOptions args = some (size, slots)) :
    ∃ text, sizeText args = some text ∧ parseSize text = some size := by
  simp only [processOptions, Option.bind_eq_bind, Option.bind_eq_some_iff] at h
  obtain ⟨text, htext, h⟩ := h
  split at h
  case isTrue => cases h
  case isFalse =>
    obtain ⟨initialsz, hsize, h⟩ := Option.bind_eq_some_iff.1 h
    have heq : initialsz = size := by
      split at h
      · split at h
        · cases h
        · cases h
          rfl
      · cases h
        rfl
    exact ⟨text, htext, heq ▸ hsize⟩

/-! ## The value of a size -/

def numeral (text : List Char) : Option (Int × List Char) :=
  let s := text.dropWhile isspace
  let sign : Int := if s.head? = some '-' then -1 else 1
  let s := if s.head? = some '-' ∨ s.head? = some '+' then s.tail else s
  let (base, s) := findBase s
  let ds := s.takeWhile fun c => digitValue c < base
  let rest := s.dropWhile fun c => digitValue c < base
  if ds = [] then none else some (sign * ofDigits base ds, rest)

def sizeValue (text : List Char) : Option Int := (numeral text).map fun r => r.1 * 1000 ^ unitExponent r.2

/-- `strtol` finds a positive number exactly where there is a numeral of one that a `long` holds. -/
theorem strtol_eq_iff {text cp : List Char} {n : Int} (hn : 0 < n) :
    strtol text 0 = (n, cp, false) ↔ numeral text = some (n, cp) ∧ n < 2 ^ 63 := by
  unfold strtol numeral
  dsimp only
  rw [if_pos rfl]
  generalize text.dropWhile isspace = s
  generalize findBase (if s.head? = some '-' ∨ s.head? = some '+' then s.tail else s) = r
  obtain ⟨base, u⟩ := r
  dsimp only
  by_cases hds : u.takeWhile (fun c => digitValue c < base) = []
  · rw [if_pos hds, if_pos hds]
    exact iff_of_false (fun h => hn.ne (Prod.mk.inj h).1) (fun h => nomatch h.1)
  rw [if_neg hds, if_neg hds]
  generalize ofDigits base (u.takeWhile fun c => digitValue c < base) = d
  by_cases hneg : s.head? = some '-'
  · rw [if_pos hneg, if_pos hneg]
    split <;> simp only [Prod.mk.injEq, Option.some.injEq] <;> omega
  · rw [if_neg hneg, if_neg hneg, Int.one_mul]
    split
    case isTrue hlarge =>
      refine iff_of_false (by simp) fun ⟨hnum, hlt⟩ => ?_
      have hd := (Prod.mk.inj (Option.some.inj hnum)).1
      omega
    case isFalse hfit =>
      simp only [Prod.mk.injEq, Option.some.injEq, and_true]
      exact ⟨fun h => ⟨h, by omega⟩, fun h => h.1⟩

theorem parseSize_eq_some {text : List Char} {size : Int} : parseSize text = some size ↔
    ∃ n cp, numeral text = some (n, cp) ∧ 0 < n ∧ n < 2 ^ 63 ∧ scale (unitExponent cp) n = some size := by
  constructor
  · intro h
    rcases hr : strtol text 0 with ⟨n, cp, outOfRange⟩
    simp only [parseSize, hr] at h
    split at h
    · cases h
    split at h
    · cases h
    next hrange hle =>
    have hpos : 0 < n := by omega
    obtain ⟨hnum, hlt⟩ := (strtol_eq_iff hpos).1 (by rw [hr, Bool.eq_false_of_not_eq_true hrange])
    exact ⟨n, cp, hnum, hpos, hlt, h⟩
  · rintro ⟨n, cp, hnum, hpos, hlt, h⟩
    rw [parseSize, (strtol_eq_iff hpos).2 ⟨hnum, hlt⟩]
    dsimp only
    rwa [if_neg Bool.false_ne_true, if_neg (Int.not_le.2 hpos)]

/-- The multiplications succeed if no product, taken to 64 bits, is negative or zero; the last one is the result. -/
theorem scale_eq_some {e : Nat} {n m : Int} (hpos : 0 < n) (hlt : n < 2 ^ 63) : scale e n = some m ↔
    (∀ i ≤ e, 0 < (n * 1000 ^ i).bmod (2 ^ 64)) ∧ (n * 1000 ^ e).bmod (2 ^ 64) = m := by
  have hn : n.bmod (2 ^ 64) = n := Int.bmod_eq_of_le (by omega) (by omega)
  induction e generalizing n with
  | zero =>
    rw [scale, pow_zero, Int.mul_one, hn, Option.some.injEq]
    exact ⟨fun h => ⟨fun i hi => by rwa [Nat.le_zero.1 hi, pow_zero, Int.mul_one, hn], h⟩, fun h => h.2⟩
  | succ e ih =>
    have hstep (i : Nat) : ((n * 1000).bmod (2 ^ 64) * 1000 ^ i).bmod (2 ^ 64) = (n * 1000 ^ (i + 1)).bmod
      (2 ^ 64) := by
      rw [Int.bmod_mul_bmod, Int.mul_assoc, Int.pow_succ']
    simp only [scale]
    split
    case isTrue hle =>
      refine iff_of_false (fun h => nomatch h) fun h => ?_
      have hfirst := h.1 1 (Nat.le_add_left 1 e)
      rw [pow_one] at hfirst
      omega
    case isFalse hle =>
      have hmax : (n * 1000).bmod (2 ^ 64) < 2 ^ 63 := Int.bmod_lt (by decide)
      refine (ih (Int.not_le.1 hle) hmax Int.bmod_bmod).trans ?_
      rw [hstep]
      refine and_congr_left fun _ => ⟨fun h i hi => ?_, fun h i hi => ?_⟩
      · cases i with
        | zero => rwa [pow_zero, Int.mul_one, hn]
        | succ i =>
          rw [← hstep]
          exact h i (by omega)
      · rw [hstep]
        exact h (i + 1) (by omega)

theorem processOptions_range {args : Arguments} {size : Int} {slots : Nat}
    (h : processOptions args = some (size, slots)) : 0 < size ∧ size < 2 ^ 63 := by
  obtain ⟨text, -, hsize⟩ := processOptions_size h
  obtain ⟨n, cp, -, hpos, hlt, hscale⟩ := parseSize_eq_some.1 hsize
  obtain ⟨hall, rfl⟩ := (scale_eq_some hpos hlt).1 hscale
  exact ⟨hall _ le_rfl, Int.bmod_lt (by decide)⟩

/-- **An accepted size is the value of its text** exactly if that is below 2 ^ 63 or the text is rejected, which only
the sign of a product or a numeral too large for a `long` brings about. -/
theorem accepted_size_exact (text : List Char) :
    (∀ args size slots, sizeText args = some text → processOptions args = some (size, slots) →
      sizeValue text = some size) ↔
    ∀ n cp, numeral text = some (n, cp) → n * 1000 ^ unitExponent cp < 2 ^ 63 ∨ 2 ^ 63 ≤ n ∨
      ∃ i ≤ unitExponent cp, (n * 1000 ^ i).bmod (2 ^ 64) ≤ 0 := by
  have hvalue {n : Int} {cp : List Char} (hnum : numeral text = some (n, cp)) :
      sizeValue text = some (n * 1000 ^ unitExponent cp) := by
    rw [sizeValue, hnum, Option.map_some]
  constructor
  · intro hexact n cp hnum
    by_contra! hbad
    obtain ⟨hlarge, hlt, hall⟩ := hbad
    have hpos : 0 < n := pos_of_mul_pos_left (by omega : 0 < n * 1000 ^ unitExponent cp) (by positivity)
    have hsize := parseSize_eq_some.2 ⟨n, cp, hnum, hpos, hlt, (scale_eq_some hpos hlt).2 ⟨hall, rfl⟩⟩
    have hne : text ≠ [] := fun h => by
      rw [h] at hsize
      cases hsize
    -- the text as the only argument
    have hargs : processOptions { size := some text } =
        some ((n * 1000 ^ unitExponent cp).bmod (2 ^ 64),
          ((n * 1000 ^ unitExponent cp).bmod (2 ^ 64) / PQ_AVG_PRODUCT_SIZE).toNat) := by
      simp [processOptions, sizeText, hne, hsize]
    have heq := Option.some.inj ((hvalue hnum).symm.trans (hexact _ _ _ rfl hargs))
    have hmax : (n * 1000 ^ unitExponent cp).bmod (2 ^ 64) < 2 ^ 63 := Int.bmod_lt (by decide)
    omega
  · intro hok args size slots htext hargs
    obtain ⟨text', htext', hsize⟩ := processOptions_size hargs
    cases htext.symm.trans htext'
    obtain ⟨n, cp, hnum, hpos, hlt, hscale⟩ := parseSize_eq_some.1 hsize
    obtain ⟨hall, rfl⟩ := (scale_eq_some hpos hlt).1 hscale
    have hfit : n * 1000 ^ unitExponent cp < 2 ^ 63 := by
      rcases hok n cp hnum with h | h | ⟨i, hi, h⟩
      · exact h
      · omega
      · exact absurd (hall i hi) (Int.not_lt.2 h)
    have hnonneg : 0 ≤ n * 1000 ^ unitExponent cp := by positivity
    rw [hvalue hnum, Int.bmod_eq_of_le (by omega) (by omega)]

/-- **A product that is too large can come back positive**: this size is 18,446,744,073,709,552,000 and becomes 384. -/
theorem size_wraps_around : processOptions { positional := ["18446744073709552k".toList] } = some (384, 0) ∧
    sizeValue "18446744073709552k".toList = some 18446744073709552000 := by
  decide +kernel

end PqCreate

/-! ## `ProductQueue::create` -/

namespace NewQueue

def M_RND_UNIT : Nat := 8

def toSize (n : Int) : Nat := (n % 2 ^ 64).toNat

def toOff (n : Nat) : Int := (n : Int).bmod (2 ^ 64)

structure Geometry where
  dataOffset : Int
  indexOffset : Int
  indexSize : Nat
  maxSlots : Nat
deriving DecidableEq

/-- Where the sections of the file lie; the index is behind the data. -/
def initQueue (pagesz align : Nat) (initialsz : Int) (maxProds : Nat) : Prog IndexStatics (Except Int Geometry) := do
  let dataOffset : Int := Nat.lcm pagesz align
  let indexOffset := toOff (sizeAdd (toSize dataOffset) (roundUp (toSize initialsz) pagesz))
  let indexSize ←
    if maxProds = 0 then pure pagesz
    else do
      let size ← IndexLayer.ixSz maxProds align
      pure (roundUp size pagesz)
  if indexOffset < dataOffset then return .error EINVAL else return .ok ⟨dataOffset, indexOffset, indexSize, maxProds⟩

end NewQueue

structure NewQueue (ω : Type) where
  statics : IndexStatics
  ix : QueueIndexManager ω

namespace NewQueue

variable {ω α : Type} {pagesz ixp slots : Nat} {size : Int}

def onStatics (m : Prog IndexStatics α) : Prog (NewQueue ω) α :=
    zoom (·.statics) (fun st x => { x with statics := st }) m

def onIx (m : Prog (QueueIndexManager ω) α) : Prog (NewQueue ω) α := zoom (·.ix) (fun ix x => { x with ix := ix }) m

def formatNew (ixp : Nat) (g : Geometry) (align : Nat) : Prog (NewQueue ω) Int := do
  let (ok, _) ← onStatics (IndexLayer.ixPtrs ixp g.indexSize g.maxSlots align)
  if ok = 0 then return PqStatus.corrupt.toInt
  else onIx (QueueIndexManager.formatNew g.maxSlots g.dataOffset g.indexOffset)

/-- `ProductQueue::create`, given how the system answers when the file is made and grows. -/
def create (pagesz ixp : Nat) (fileStatus growStatus : Int) (align : Nat) (initialsz : Int) (nproducts : Nat) :
    Prog (NewQueue ω) Int := do
  let align := if align = 0 then M_RND_UNIT else roundUp align M_RND_UNIT
  let initialsz : Int := if initialsz ≠ 0 then toOff (roundUp (toSize initialsz) align) else align
  match ← onStatics (initQueue pagesz align initialsz nproducts) with
  | .error status => return status
  | .ok g =>
    if fileStatus ≠ 0 then return fileStatus
    else if growStatus ≠ 0 then return growStatus
    else
      onIx (modify fun s => { s with align := align, isFull := false })
      let status ← formatNew ixp g align
      if status ≠ 0 then return status
      else
        onIx QueueIndexManager.clear
        return 0

/-! ## The geometry -/

theorem toSize_natCast {n : Nat} (h : n < 2 ^ 64) : toSize n = n := by
  unfold toSize
  omega

theorem toOff_of_lt {n : Nat} (h : n < 2 ^ 63) : toOff n = n := by
  unfold toOff
  rw [Int.bmod_eq_emod]
  split <;> omega

theorem exactArea_lt (h0 : 0 < slots) (h28 : slots < 2 ^ 28) : exactArea (requiredSizes slots) 8 < 2 ^ 51 := by
  have harena := FreeBlock.getArenaSize_lt h28 h0
  have hchains := prevPrime_le (slots / RL_EXP_CHAIN_LEN)
  have hrl : (requiredSizes slots).rl < 2 ^ 40 := by
    show requiredSize slots < 2 ^ 40
    refine Nat.lt_of_le_of_lt (Nat.mod_le _ _) ?_
    simp only [sizeofRegionList, sizeofRegion, sizeofRegionHash, SIZE_T, RL_FREE_OVERHEAD,
      RL_NALLOC_INITIAL, calculateNumChains, RL_EXP_CHAIN_LEN] at hchains ⊢
    omega
  have htq : (requiredSizes slots).tq < 2 ^ 40 := by
    refine Nat.lt_of_le_of_lt (Nat.mod_le _ _) ?_
    simp only [TimeQueue.sizeofTimeQueue, TimeQueue.sizeofElement, SIZE_T, TimeQueue.TQ_NALLOC_INITIAL,
      TQ_OVERHEAD_ELEMS]
    omega
  have hfb : (requiredSizes slots).fb < 2 ^ 50 + 2 ^ 40 := by
    refine Nat.lt_of_le_of_lt (Nat.mod_le _ _) ?_
    simp only [FreeBlock.sizeofFreeBlock, SIZE_T, FB_MAX_LEVELS, FreeBlock.FBLKS_NALLOC_INITIAL]
    omega
  have hsx : (requiredSizes slots).sx < 2 ^ 40 := by
    have hsxChains := prevPrime_le (slots / SX_EXP_CHAIN_LEN)
    refine Nat.lt_of_le_of_lt (Nat.mod_le _ _) ?_
    simp only [SignatureIndex.sizeofSignatureIndex, SignatureIndex.sizeofElement, SignatureIndex.SX_NALLOC_INITIAL,
      SignatureIndex.sizeofSignatureHash, SignatureIndex.SXHASH_NALLOC_INITIAL, SignatureIndex.calcNchains,
      SX_EXP_CHAIN_LEN, SIZE_T] at hsxChains ⊢
    omega
  have b1 := (ceilTo_bounds (by decide : 0 < 8) (requiredSizes slots).rl).2
  have b2 := (ceilTo_bounds (by decide : 0 < 8) (requiredSizes slots).tq).2
  have b3 := (ceilTo_bounds (by decide : 0 < 8) (requiredSizes slots).fb).2
  have b4 := (ceilTo_bounds (by decide : 0 < 8) (requiredSizes slots).sx).2
  unfold exactArea
  omega

def indexOffset (pagesz : Nat) (size : Int) : Int :=
  toOff (sizeAdd (toSize pagesz) (roundUp (toSize (toOff (roundUp (toSize size) M_RND_UNIT))) pagesz))

/-- **The data section** begins behind one page and has room for the size. -/
theorem indexOffset_spec (h64 : 64 ∣ pagesz) (hpos : 0 < pagesz) (hsize : 0 < size)
    (hfit : size + 2 * pagesz ≤ 2 ^ 63) :
    ∃ D : DataSection, D.align = M_RND_UNIT ∧ D.datao = pagesz ∧ D.ixo = indexOffset pagesz size ∧ size ≤ D.size := by
  obtain ⟨k, rfl⟩ := h64
  obtain ⟨n, rfl⟩ := Int.eq_ofNat_of_zero_le hsize.le
  -- the size is first rounded to units of 8, then to pages
  obtain ⟨⟨a, ha⟩, hr, hr'⟩ := roundUp_spec (x := n) (u := 8) (by decide) (by omega) (by omega)
  obtain ⟨⟨b, hb⟩, hR, hR'⟩ := roundUp_spec (x := roundUp n 8) (u := 64 * k) hpos (by omega) (by omega)
  rw [Nat.mul_assoc] at hb
  have hoff : indexOffset (64 * k) n = ((64 * k + roundUp (roundUp n 8) (64 * k) : Nat) : Int) := by
    have h1 : toSize n = n := toSize_natCast (by omega)
    have h2 : toOff (roundUp n 8) = roundUp n 8 := toOff_of_lt (by omega)
    have h3 : toSize (roundUp n 8 : Nat) = roundUp n 8 := toSize_natCast (by omega)
    have h4 : toSize (64 * k : Nat) = 64 * k := toSize_natCast (by omega)
    unfold indexOffset M_RND_UNIT
    rw [h1, h2, h3, h4, sizeAdd_of_lt (by omega), toOff_of_lt (by omega)]
  generalize roundUp (roundUp n 8) (64 * k) = R at *
  rw [hoff]
  refine ⟨⟨(64 * k : Nat), (64 * k + R : Nat), 8, ?_, ?_, ?_, ?_, ?_, ?_, ?_⟩, rfl, rfl, rfl, ?_⟩
  · omega
  · omega
  · unfold hugeOff
    omega
  · omega
  · decide
  · decide
  · omega
  · simp only [DataSection.size]
    omega

def indexBytes (pagesz slots : Nat) : Nat := roundUp (exactArea (requiredSizes slots) M_RND_UNIT) pagesz

theorem exactArea_le_indexBytes (hpos : 0 < pagesz) (hpage : pagesz ≤ 2 ^ 62) (h0 : 0 < slots) (h28 : slots < 2 ^ 28) :
    exactArea (requiredSizes slots) M_RND_UNIT ≤ indexBytes pagesz slots := by
  have hlt := exactArea_lt h0 h28
  have hsizable : IndexLayer.Sizable slots := ⟨by omega, by omega⟩
  have htq := (IndexLayer.requiredSizes_pos hsizable).1
  have hceil := (ceilTo_bounds (by decide : 0 < M_RND_UNIT) (requiredSizes slots).tq).1
  have harea : 0 < exactArea (requiredSizes slots) M_RND_UNIT := by
    unfold exactArea
    omega
  exact (roundUp_spec hpos (by unfold M_RND_UNIT; omega) harea).2.1

theorem initQueue_returned {D : DataSection} (h8 : M_RND_UNIT ∣ pagesz) (hD : D.datao = pagesz)
    (hixo : D.ixo = indexOffset pagesz size) (h0 : 0 < slots) (h28 : slots < 2 ^ 28) :
    ∃ st, (initQueue pagesz M_RND_UNIT (toOff (roundUp (toSize size) M_RND_UNIT)) slots IndexLayer.fresh).returned =
      some (.ok ⟨D.datao, D.ixo, indexBytes pagesz slots, slots⟩, st) ∧ IndexLayer.Cached st := by
  have hsizable : IndexLayer.Sizable slots := ⟨by omega, by omega⟩
  obtain ⟨htq, hsx⟩ := IndexLayer.requiredSizes_pos hsizable
  have hlt := exactArea_lt h0 h28
  have harea : IndexLayer.area (requiredSizes slots) M_RND_UNIT = exactArea (requiredSizes slots) M_RND_UNIT :=
    IndexLayer.area_eq (by decide) htq hsx (by unfold M_RND_UNIT; omega)
  have hsz : (IndexLayer.ixSz slots M_RND_UNIT IndexLayer.fresh).returned = _ :=
    IndexLayer.ixSz_computed IndexLayer.cached_fresh (show (0 : Nat) ≠ slots by omega)
  rw [if_pos ⟨hsizable, by decide⟩] at hsz
  have hc := IndexLayer.cached_fresh.computed slots
  have hoff : toOff (sizeAdd (toSize D.datao) (roundUp (toSize (toOff (roundUp (toSize size) M_RND_UNIT))) pagesz)) =
    D.ixo := by
    rw [hD, hixo, indexOffset]
  have hle := D.nonempty
  refine ⟨{ IndexLayer.computed slots IndexLayer.fresh with area :=
    ⟨slots, IndexLayer.area (requiredSizes slots) M_RND_UNIT⟩ }, ?_, ⟨hc.rl, hc.tq, hc.fb, hc.sx, hc.ptrs⟩⟩
  rw [initQueue, Nat.lcm_eq_left h8, ← hD, hoff, if_neg (by omega : ¬ slots = 0)]
  refine returned_bind.2 ⟨_, _, hsz, ?_⟩
  show ((if D.ixo < D.datao then _ else _ : Prog IndexStatics (Except Int Geometry)) _).returned = _
  rw [if_neg (Int.not_lt.2 hle.le), harea]
  rfl

/-- A size whose index offset is not before the data leaves room for two pages. -/
theorem le_of_le_indexOffset (h64 : 64 ∣ pagesz) (hpage : pagesz ∣ 2 ^ 61) (hsize : 0 < size) (hlt : size < 2 ^ 63)
    (h : pagesz ≤ indexOffset pagesz size) : size + 2 * pagesz ≤ 2 ^ 63 := by
  have hle : pagesz ≤ 2 ^ 61 := Nat.le_of_dvd (by decide) hpage
  obtain ⟨n, rfl⟩ := Int.eq_ofNat_of_zero_le hsize.le
  obtain ⟨⟨a, ha⟩, hr, hr'⟩ := roundUp_spec (x := n) (u := 8) (by decide) (by omega) (by omega)
  have hpos : 0 < pagesz := Nat.pos_of_dvd_of_pos hpage (by decide)
  obtain ⟨hdvd, hR, hR'⟩ := roundUp_spec (x := roundUp n 8) hpos (by omega) (by omega)
  have hback {m : Nat} (hm : m < 2 ^ 64) : toSize (toOff m) = m := by
    unfold toSize toOff
    rw [Int.bmod_eq_emod]
    split <;> omega
  unfold indexOffset M_RND_UNIT at h
  rw [toSize_natCast (by omega : n < 2 ^ 64), hback (by omega), toSize_natCast (by omega),
    sizeAdd_of_lt (by omega)] at h
  -- the end of the data section is a multiple of the page size below 2 ^ 63
  have hend : pagesz + roundUp (roundUp n 8) pagesz < 2 ^ 63 := by
    by_contra! hlarge
    unfold toOff at h
    rw [Int.bmod_eq_emod] at h
    split at h <;> omega
  have hrest : pagesz ∣ 2 ^ 63 - (pagesz + roundUp (roundUp n 8) pagesz) :=
    Nat.dvd_sub (hpage.trans (by decide)) (Nat.dvd_add (Nat.dvd_refl _) hdvd)
  have := Nat.le_of_dvd (by omega) hrest
  omega

theorem initQueue_ok (align maxProds : Nat) (initialsz : Int) (st : IndexStatics) :
    wlp (initQueue pagesz align initialsz maxProds) (fun r _ => match r with
      | .error status => status = EINVAL
      | .ok g => g.maxSlots = maxProds ∧
        (Nat.lcm pagesz align : Int) ≤
        toOff (sizeAdd (toSize (Nat.lcm pagesz align)) (roundUp (toSize initialsz) pagesz))) st := by
  rw [initQueue]
  split
  all_goals
    refine wlp_bind.2 (wlp_true.mono fun indexSize _ _ => ?_)
    split
    · exact wlp_pure.2 rfl
    · next hle => exact wlp_pure.2 ⟨rfl, Int.not_lt.1 hle⟩

/-- What a `create` that returns 0 has been given. -/
theorem create_needs (h64 : 64 ∣ pagesz) (hpage : pagesz ∣ 2 ^ 61) (hsize : 0 < size) (hlt : size < 2 ^ 63)
    (x : NewQueue ω) : wlp (create pagesz ixp 0 0 0 size slots)
      (fun status _ => status = 0 → 4 ≤ slots ∧ slots < 2 ^ 28 ∧ size + 2 * pagesz ≤ 2 ^ 63) x := by
  rw [create, if_pos rfl, if_pos hsize.ne']
  refine wlp_bind.2 (wlp_zoom.2 ((initQueue_ok _ _ _ _).mono fun r st hr => ?_))
  cases r with
  | error status => exact wlp_pure.2 fun h => absurd (hr.symm.trans h) (by decide)
  | ok g =>
    obtain ⟨hslots, hoff⟩ := hr
    rw [Nat.lcm_eq_left (Nat.dvd_trans (by decide) h64)] at hoff
    have hroom := le_of_le_indexOffset h64 hpage hsize hlt hoff
    refine wlp_bind.2 (wlp_true.mono fun _ x' _ => wlp_bind.2 ?_)
    have hformat : wlp (formatNew ixp g M_RND_UNIT) (fun status _ => status = 0 → 4 ≤ slots ∧ slots < 2 ^ 28) x' := by
      rw [formatNew, hslots]
      refine wlp_bind.2 (wlp_true.mono fun ⟨ok, _⟩ _ _ => ?_)
      dsimp only
      split
      · exact wlp_pure.2 fun h => absurd h (by decide)
      rw [onIx, wlp_zoom]
      by_cases h4 : 4 ≤ slots
      · by_cases h28 : slots < 2 ^ 28
        · exact wlp_true.mono fun _ _ _ _ => ⟨h4, h28⟩
        · exact QueueIndexManager.formatNew_large (Nat.not_lt.1 h28) _
      · exact QueueIndexManager.formatNew_small (Nat.not_le.1 h4) _
    refine hformat.mono fun status _ h => ?_
    split
    · next hne => exact wlp_pure.2 fun h0 => absurd h0 hne
    · next heq =>
      obtain ⟨h4, h28⟩ := h (Decidable.not_not.1 heq)
      exact wlp_bind.2 (wlp_true.mono fun _ _ _ => wlp_pure.2 fun _ => ⟨h4, h28, hroom⟩)

/-- **The queue is created** for an accepted size exactly if there are at least four slots and not too many, and room
for two more pages: then the index fits its region, nothing is written behind the arena, and the data section is one
free region. -/
theorem create_yields {ω : Type} (pagesz ixp : Nat) {args : PqCreate.Arguments}
    (hargs : PqCreate.processOptions args = some (size, slots)) (h64 : 64 ∣ pagesz) (hpage : pagesz ∣ 2 ^ 61)
    (hixp : M_RND_UNIT ∣ ixp) (hroom : ixp + indexBytes pagesz slots < 2 ^ 64) (s : QueueIndexManager ω) :
    (∃ (D : DataSection) (x : NewQueue ω),
      (create pagesz ixp 0 0 0 size slots ⟨IndexLayer.fresh, s⟩).returned = some (0, x) ∧
      D.datao = pagesz ∧ size ≤ D.size ∧ QueueIndexManager.Formatted D slots s x.ix ∧
      Laid ixp (indexBytes pagesz slots) (ranges (place (requiredSizes slots) ixp M_RND_UNIT) (requiredSizes slots))) ↔
    4 ≤ slots ∧ slots < 2 ^ 28 ∧ size + 2 * pagesz ≤ 2 ^ 63 := by
  obtain ⟨hsize, hlt⟩ := PqCreate.processOptions_range hargs
  refine ⟨fun ⟨_, _, hret, _⟩ => (create_needs h64 hpage hsize hlt _).of_returned hret rfl, fun ⟨h4, h28, hfit⟩ => ?_⟩
  have hpos : 0 < pagesz := Nat.pos_of_dvd_of_pos hpage (by decide)
  have h8 : M_RND_UNIT ∣ pagesz := Nat.dvd_trans (by decide) h64
  obtain ⟨D, halign, hdatao, hixo, hle⟩ := indexOffset_spec h64 hpos hsize hfit
  obtain ⟨st, hinit, hcached⟩ := initQueue_returned h8 hdatao hixo (by omega) h28
  have harea := exactArea_le_indexBytes hpos (by omega) (by omega : 0 < slots) h28
  obtain ⟨hptrs, hlaid⟩ :=
    IndexLayer.ixPtrs_laid hcached ⟨by omega, by omega⟩ (by decide : 0 < M_RND_UNIT) hixp harea hroom
  obtain ⟨s', hformat, hs'⟩ :=
    QueueIndexManager.formatNew_returned D { s with align := M_RND_UNIT, isFull := false } halign.symm h4 h28
  refine ⟨D, ⟨IndexLayer.laidOut slots st, { s' with smallestExtentSeen := 2 ^ 64 - 1 }⟩, ?_, hdatao, hle, ?_, hlaid⟩
  · have hnew : (formatNew ixp ⟨D.datao, D.ixo, indexBytes pagesz slots, slots⟩ M_RND_UNIT
        ⟨st, { s with align := M_RND_UNIT, isFull := false }⟩).returned =
        some (0, ⟨IndexLayer.laidOut slots st, s'⟩) := by
      refine returned_bind.2 ⟨_, _, returned_zoom.2 ⟨_, hptrs, rfl⟩, ?_⟩
      show (onIx (QueueIndexManager.formatNew slots D.datao D.ixo)
        (NewQueue.mk (IndexLayer.laidOut slots st) _)).returned = _
      exact returned_zoom.2 ⟨s', hformat, rfl⟩
    rw [create, if_pos rfl, if_pos hsize.ne']
    refine returned_bind.2 ⟨_, _, returned_zoom.2 ⟨st, hinit, rfl⟩, ?_⟩
    refine returned_bind.2 ⟨(), _, rfl, returned_bind.2 ⟨0, _, hnew, rfl⟩⟩
  · exact { hs'.cleared _ with }

theorem create_yields_five : ∃ (D : DataSection) (x : NewQueue Unit),
    (create 4096 8192 0 0 0 700000 5 ⟨IndexLayer.fresh, QueueIndexManager.blank⟩).returned = some (0, x) ∧
    D.datao = (4096 : Nat) ∧
      (700000 : Int) ≤ D.size ∧ QueueIndexManager.Formatted D 5 QueueIndexManager.blank x.ix ∧
      Laid 8192 (indexBytes 4096 5) (ranges (place (requiredSizes 5) 8192 M_RND_UNIT) (requiredSizes 5)) := by
  have hargs : PqCreate.processOptions { positional := ["700k".toList] } = some (700000, 5) := by decide +kernel
  exact (create_yields 4096 8192 hargs (by decide) (by decide) (by decide) (by decide +kernel) _).2 (by decide)

/-- A size of 500,000 bytes gives three slots and one of 100,000 bytes none; `create` stops at an assertion. -/
theorem create_aborts : PqCreate.processOptions { positional := ["500k".toList] } = some (500000, 3) ∧
    (create 4096 8192 0 0 0 500000 3 ⟨IndexLayer.fresh, QueueIndexManager.blank⟩).fault = some .assertion ∧
    PqCreate.processOptions { positional := ["100k".toList] } = some (100000, 0) ∧
    (create 4096 8192 0 0 0 100000 0 ⟨IndexLayer.fresh, QueueIndexManager.blank⟩).fault = some .assertion := by
  refine ⟨by decide +kernel, by decide +kernel, by decide +kernel, by decide +kernel⟩

end NewQueue

end Rdm
