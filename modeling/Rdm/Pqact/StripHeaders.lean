import Mathlib.Data.Nat.Basic

/-!
# Headers of products

`FileOpsUtil::StripHeaders` moves a view of a product behind its headers and cuts the trailer. The loops over white
space may look at the byte behind the window.
-/

namespace Rdm

namespace FileOpsUtil

abbrev Memory := Nat → UInt8

/-! ## Classes of characters -/

def isdigit (c : UInt8) : Bool := 48 ≤ c && c ≤ 57

def isalpha (c : UInt8) : Bool := 65 ≤ c && c ≤ 90 || 97 ≤ c && c ≤ 122

def isalnum (c : UInt8) : Bool := isalpha c || isdigit c

def isspace (c : UInt8) : Bool := c = 32 || 9 ≤ c && c ≤ 13

def looksLike (mem : Memory) (p : Nat) : List (UInt8 → Bool) → Bool
  | [] => true
  | is :: classes => is (mem p) && looksLike mem (p + 1) classes

def isCr (c : UInt8) : Bool := c = 13

def isLf (c : UInt8) : Bool := c = 10

/-! ## The heading -/

def WMO_CCCC_LEN : Nat := 4
def WMO_I2 : Nat := 5
def SIZE_SBN_HDR : Nat := 11
def SIZE_SBN_TLR : Nat := 4
def CHECK_DEPTH : Nat := 100
def MIN_PRODUCT_SIZE : Nat := 21

def checkedSub (a b : Nat) : Option Nat := if b ≤ a then some (a - b) else none

def findTtaaii (mem : Memory) : Nat → Nat → Option Nat
  | _, 0 => none
  | p, n + 1 =>
    if looksLike mem p [isalpha, isalpha, isalpha, isalpha] then
      if looksLike mem (p + 4) [isdigit, isdigit, fun c => isspace c || isalpha c] then some p else findTtaaii
        mem (p + 1) n
    else if looksLike mem p [isCr, isCr, isLf] then none
    else findTtaaii mem (p + 1) n

def skipSpace (mem : Memory) (fin p : Nat) : Nat :=
  if isspace (mem p) ∧ p < fin then skipSpace mem fin (p + 1) else p
termination_by fin - p

def bbbLength (mem : Memory) (fin p : Nat) : Nat :=
  if p + 1 < fin ∧ isalpha (mem (p + 1)) then
    if p + 2 < fin ∧ isalpha (mem (p + 2)) then 3 else 2
  else 1

theorem bbbLength_pos (mem : Memory) (fin p : Nat) : 0 < bbbLength mem fin p := by
  unfold bbbLength
  split
  · split <;> decide
  · decide

def findLineEnd (mem : Memory) (fin p crcrlfFound : Nat) (bbbFound : Bool) : Nat × Bool :=
  if p < fin then
    if mem p = 13 ∨ mem p = 10 then
      if crcrlfFound + 1 = 3 then (p + 1, false) else findLineEnd mem fin (p + 1) (crcrlfFound + 1) bbbFound
    else if crcrlfFound ≠ 0 then (p - 1, false)
    else if isalpha (mem p) then
      if bbbFound then (p, true)
      else if p + bbbLength mem fin p < fin ∧ isspace (mem (p + bbbLength mem fin p)) then
        findLineEnd mem fin (p + bbbLength mem fin p) crcrlfFound true
      else (p, true)
    else if isspace (mem p) then findLineEnd mem fin (p + 1) crcrlfFound bbbFound
    else (p, true)
  else (p, false)
termination_by fin - p
decreasing_by
  all_goals
    have := bbbLength_pos mem fin p
    omega

def skipTime (mem : Memory) (fin p : Nat) : Nat :=
  if p + 6 ≤ fin ∧ looksLike mem p (List.replicate 6 isdigit) then p + 6 else p

def skipAwips (mem : Memory) (fin p : Nat) : Nat :=
  if p + 9 ≤ fin ∧ looksLike mem p (List.replicate 6 isalnum ++ [isCr, isCr, isLf]) then p + 9 else p

def headingEnd (mem : Memory) (fin offset : Nat) : Option Nat :=
  let p := skipSpace mem fin (offset + 6)
  if fin < p + WMO_CCCC_LEN then none
  else if looksLike mem p [isalpha, isalnum, isalpha, isalnum] then
    let p := skipTime mem fin (skipSpace mem fin (p + WMO_CCCC_LEN))
    let (p, returned) := findLineEnd mem fin p 0 false
    some (if returned then p else skipAwips mem fin p)
  else none

def getWmoOffset (mem : Memory) (buf buflen : Nat) : Option (Option (Nat × Nat)) :=
  match findTtaaii mem buf (buflen - (WMO_I2 + 1)) with
  | none => some none
  | some offset =>
    match headingEnd mem (buf + buflen) offset with
    | none => some none
    | some p => (checkedSub p offset).map fun len => some (offset - buf, len)

/-! ## The view -/

/-- `BufferView`; the address 0 is the null pointer. -/
structure BufferView where
  data : Nat
  size : Nat
deriving DecidableEq

def hasSbnHeader (mem : Memory) (data : Nat) : Bool :=
  looksLike mem data [(· = 1), isCr, isCr, isLf, isdigit, isdigit, isdigit, (· = 32), isCr, isCr, isLf]

def stripSbn (mem : Memory) (data sz : Nat) : Option BufferView :=
  if hasSbnHeader mem data then (checkedSub sz (SIZE_SBN_HDR + SIZE_SBN_TLR)).map (⟨data + SIZE_SBN_HDR, ·⟩)
  else some ⟨data, sz⟩

def stripWmo (mem : Memory) (view : BufferView) : Option BufferView :=
  match getWmoOffset mem view.data (min view.size CHECK_DEPTH) with
  | none => none
  | some none => some view
  | some (some (offset, len)) => (checkedSub view.size (offset + len)).map (⟨view.data + (offset + len), ·⟩)

def stripHeaders (mem : Memory) (data sz : Nat) : Option BufferView :=
  if sz < MIN_PRODUCT_SIZE ∨ data = 0 then some ⟨data, sz⟩ else (stripSbn mem data sz).bind (stripWmo mem)

/-! ## The bounds -/

variable (mem : Memory) {fin p offset : Nat}

theorem findTtaaii_bounds {mem : Memory} : ∀ {p n : Nat}, findTtaaii mem p n = some offset → p ≤ offset ∧ offset < p + n
  | _, 0, h => by cases h
  | p, n + 1, h => by
    rw [findTtaaii] at h
    have hrest : findTtaaii mem (p + 1) n = some offset → p ≤ offset ∧ offset < p + (n + 1) := by
      intro h
      obtain ⟨hlow, hhigh⟩ := findTtaaii_bounds h
      omega
    split at h
    · split at h
      · cases h
        omega
      · exact hrest h
    · split at h
      · cases h
      · exact hrest h

theorem skipSpace_bounds (h : p ≤ fin) : p ≤ skipSpace mem fin p ∧ skipSpace mem fin p ≤ fin := by
  fun_induction skipSpace mem fin p with
  | case1 p hp ih => exact ⟨by omega, (ih (by omega)).2⟩
  | case2 p hp => exact ⟨Nat.le_refl p, h⟩

theorem findLineEnd_bounds (crcrlfFound : Nat) (bbbFound : Bool) (h : p ≤ fin) :
    p ≤ (findLineEnd mem fin p crcrlfFound bbbFound).1 + (if crcrlfFound = 0 then 0 else 1) ∧
      (findLineEnd mem fin p crcrlfFound bbbFound).1 ≤ fin := by
  fun_induction findLineEnd mem fin p crcrlfFound bbbFound <;> grind

theorem skipTime_bounds (h : p ≤ fin) : p ≤ skipTime mem fin p ∧ skipTime mem fin p ≤ fin := by
  unfold skipTime
  split <;> omega

theorem skipAwips_bounds (h : p ≤ fin) : p ≤ skipAwips mem fin p ∧ skipAwips mem fin p ≤ fin := by
  unfold skipAwips
  split <;> omega

variable {mem}

/-- **The heading** ends behind "TTAAii" and within the window. -/
theorem headingEnd_bounds {e : Nat} (hfin : offset + 6 ≤ fin) (h : headingEnd mem fin offset = some e) :
    offset ≤ e ∧ e ≤ fin := by
  unfold headingEnd at h
  obtain ⟨hp, -⟩ := skipSpace_bounds mem hfin
  generalize skipSpace mem fin (offset + 6) = p at h hp
  dsimp only at h
  split at h
  · cases h
  split at h
  · next hroom _ =>
    obtain ⟨hs, hs'⟩ := skipSpace_bounds mem (Nat.le_of_not_lt hroom)
    obtain ⟨ht, ht'⟩ := skipTime_bounds mem hs'
    obtain ⟨hl, hl'⟩ := findLineEnd_bounds mem 0 false ht'
    rw [if_pos rfl, Nat.add_zero] at hl
    cases h
    split
    · omega
    · obtain ⟨ha, ha'⟩ := skipAwips_bounds mem hl'
      omega
  · cases h

/-- **The heading lies in the window**, and its length is not negative. -/
theorem getWmoOffset_bounds (mem : Memory) (buf buflen : Nat) : ∃ found, getWmoOffset mem buf buflen = some found ∧
    ∀ offset len, found = some (offset, len) → offset + len ≤ buflen := by
  unfold getWmoOffset
  cases hfind : findTtaaii mem buf (buflen - (WMO_I2 + 1)) with
  | none => exact ⟨none, rfl, fun _ _ h => by cases h⟩
  | some offset =>
    obtain ⟨hlow, hhigh⟩ := findTtaaii_bounds hfind
    dsimp only
    cases hend : headingEnd mem (buf + buflen) offset with
    | none => exact ⟨none, rfl, fun _ _ h => by cases h⟩
    | some e =>
      obtain ⟨he, he'⟩ := headingEnd_bounds (by unfold WMO_I2 at hhigh; omega) hend
      refine ⟨some (offset - buf, e - offset), by simp [checkedSub, he], fun _ _ h => ?_⟩
      cases h
      omega

theorem stripSbn_within (mem : Memory) (data : Nat) {sz : Nat} (h : MIN_PRODUCT_SIZE ≤ sz) : ∃ view,
    stripSbn mem data sz = some view ∧ data ≤ view.data ∧ view.data - data + view.size ≤ sz := by
  unfold MIN_PRODUCT_SIZE at h
  have hsub : checkedSub sz (SIZE_SBN_HDR + SIZE_SBN_TLR) = some (sz - 15) :=
    if_pos (by unfold SIZE_SBN_HDR SIZE_SBN_TLR; omega)
  unfold stripSbn
  split
  · refine ⟨⟨data + 11, sz - 15⟩, by rw [hsub]; rfl, ?_⟩
    dsimp only
    omega
  · refine ⟨⟨data, sz⟩, rfl, ?_⟩
    dsimp only
    omega

theorem stripWmo_within (mem : Memory) (view : BufferView) : ∃ view', stripWmo mem view = some view' ∧
    view.data ≤ view'.data ∧ view'.data - view.data + view'.size ≤ view.size := by
  obtain ⟨found, hfound, hlen⟩ := getWmoOffset_bounds mem view.data (min view.size CHECK_DEPTH)
  unfold stripWmo
  rw [hfound]
  cases found with
  | none => exact ⟨view, rfl, Nat.le_refl _, by omega⟩
  | some r =>
    obtain ⟨offset, len⟩ := r
    have hle := hlen offset len rfl
    have hsub : checkedSub view.size (offset + len) = some (view.size - (offset + len)) := if_pos (by omega)
    refine ⟨⟨view.data + (offset + len), view.size - (offset + len)⟩, by dsimp only; rw [hsub]; rfl, ?_⟩
    dsimp only
    omega

/-- **The view is a part of the product**: for any bytes there is a view, and no size goes below zero. -/
theorem stripHeaders_within (mem : Memory) (data sz : Nat) : ∃ view, stripHeaders mem data sz = some view ∧
    data ≤ view.data ∧ view.size ≤ sz ∧ view.data - data + view.size ≤ sz := by
  unfold stripHeaders
  split
  · refine ⟨⟨data, sz⟩, rfl, ?_⟩
    dsimp only
    omega
  · next hsz =>
    obtain ⟨view, hview, hdata, hsize⟩ := stripSbn_within mem data (by omega : MIN_PRODUCT_SIZE ≤ sz)
    obtain ⟨view', hview', hdata', hsize'⟩ := stripWmo_within mem view
    rw [hview, Option.bind_some]
    exact ⟨view', hview', by omega, by omega, by omega⟩

def ofText (text : String) : Memory := fun p => text.toUTF8.toList.getD (p - 1) 0

/-- A heading with an identifier is passed over. -/
example : stripHeaders (ofText "SAUS44 KWBC 012345\r\r\nMTRDEN\r\r\nMETAR") 1 35 = some ⟨31, 5⟩ := by decide +kernel

end FileOpsUtil

end Rdm
