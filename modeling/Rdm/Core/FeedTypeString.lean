import Rdm.Core.FeedTypeParse

/-!
# The text of a feed type is read back

`ToString` covers the set from the largest names down. Its text is always an expression for the bits that are gone so
far (`Covers`).
-/

namespace Rdm.FeedType

open List

/-! ## Texts one after the other -/

variable {s : List Char}

theorem Lexes.append {s' : List Char} {ts ts' : List Token} (h : Lexes s ts) (hs' : ∀ c ∈ s'.head?, isalnum c = false)
    (h' : Lexes s' ts') : Lexes (s ++ s') (ts ++ ts') := by
  induction h with
  | @nil ws hws =>
    have hall : ∀ {ws' : List Char}, (∀ c ∈ ws', isspace c = true) → ∀ c ∈ ws ++ ws', isspace c = true :=
      fun hws' c hc =>
      (mem_append.1 hc).elim (hws c) (hws' c)
    cases h' with
    | nil hws' => exact .nil (hall hws')
    | cons hws' hs hend hrest =>
      rw [nil_append, ← append_assoc]
      exact .cons (hall hws') hs hend hrest
  | @cons ws w rest t ts hws hs hend _ ih =>
    have happ : ws ++ (w ++ rest) ++ s' = ws ++ (w ++ (rest ++ s')) := by simp
    rw [happ]
    refine .cons hws hs (fun n hn c hc => ?_) ih
    cases rest with
    | nil => exact hs' c hc
    | cons d rest => exact hend n hn c hc

theorem lexes_name {n : List Char} (hne : n ≠ []) (h : ∀ c ∈ n, isalnum c = true) : Lexes n [.name n] := by
  have hlex := @Lexes.cons [] n [] _ _ nofun (.name hne h) nofun (.nil nofun)
  rwa [nil_append, append_nil] at hlex

theorem Lexes.no_zero {ts : List Token} (h : Lexes s ts) : '\x00' ∉ s := by
  induction h with
  | nil hws => exact fun h0 => absurd (hws _ h0) (by decide)
  | cons hws hs _ _ ih =>
    rw [mem_append, mem_append, not_or, not_or]
    refine ⟨fun h0 => absurd (hws _ h0) (by decide), ?_, ih⟩
    cases hs with
    | name _ hal => exact fun h0 => absurd (hal _ h0) (by decide)
    | _ => decide

def Covers (s : List Char) (v : FeedType) : Prop := s = [] ∧ v = 0 ∨ Denotes s v

theorem Covers.join {n : List Char} {v w : FeedType} (h : Covers s v) (hne : n ≠ []) (hal : ∀ c ∈ n, isalnum c = true)
    (hn : Prim [.name n] w) : Denotes ((if s = [] then [] else s ++ ['|']) ++ n) (v ||| w) := by
  rcases h with ⟨rfl, rfl⟩ | h
  · rw [if_pos rfl, nil_append, UInt32.zero_or]
    exact ⟨_, lexes_name hne hal, .term (.prim hn)⟩
  · rw [if_neg h.ne_nil]
    obtain ⟨ts, hlex, hexpr⟩ := h
    have hbar := @Lexes.cons [] ['|'] n _ _ nofun .bar nofun (lexes_name hne hal)
    have happ : s ++ ['|'] ++ n = s ++ ([] ++ (['|'] ++ n)) := by simp
    rw [happ]
    exact ⟨_, hlex.append (by simp [isalnum]) hbar, .union hexpr (.prim hn)⟩

/-! ## The loop -/

theorem coverDefs_names : ∀ d ∈ coverDefs, d.1.toList.map Char.toUpper ≠ [] ∧
    (∀ c ∈ d.1.toList.map Char.toUpper, isalnum c = true) ∧
    feedMap ((d.1.toList.map Char.toUpper).map Char.toLower) = some d.2 := by
  have hall : (coverDefs.all fun d => decide (d.1.toList.map Char.toUpper ≠ []) &&
      (d.1.toList.map Char.toUpper).all isalnum &&
      decide (feedMap ((d.1.toList.map Char.toUpper).map Char.toLower) = some d.2)) = true := by
    decide +kernel
  intro d hd
  have h := all_eq_true.1 hall d hd
  simp only [Bool.and_eq_true, decide_eq_true_eq, all_eq_true] at h
  exact ⟨h.1.1, h.1.2, h.2⟩

theorem or_split {t r : FeedType} (h : t &&& r = t) (v : FeedType) : v ||| t ||| (r &&& ~~~t) = v ||| r := by
  have hbits := congrArg UInt32.toBitVec h
  apply UInt32.toBitVec_inj.1
  ext i hi
  have hbit := congrArg (fun b => b[i]) hbits
  simp only [UInt32.toBitVec_and, BitVec.getElem_and] at hbit
  simp only [UInt32.toBitVec_or, UInt32.toBitVec_and, UInt32.toBitVec_not, BitVec.getElem_or, BitVec.getElem_and,
    BitVec.getElem_not]
  revert hbit
  cases t.toBitVec[i] <;> cases r.toBitVec[i] <;> cases v.toBitVec[i] <;> simp

theorem coverFrom_spec : ∀ {ds : List (String × FeedType)} {r v : FeedType} {s : List Char}, (∀ d ∈ ds, d ∈ coverDefs) →
    Covers s v → ∃ w, Covers (coverFrom ds r s).1 w ∧ w ||| (coverFrom ds r s).2 = v ||| r
  | [], r, v, s, _, h => ⟨v, h, rfl⟩
  | (name, type) :: ds, r, v, s, hds, h => by
    have hrest : ∀ d ∈ ds, d ∈ coverDefs := fun d hd => hds d (mem_cons_of_mem _ hd)
    rw [coverFrom]
    split
    case isTrue => exact ⟨v, h, rfl⟩
    case isFalse =>
      split
      case isTrue hin =>
        obtain ⟨hne, hal, hmap⟩ := coverDefs_names (name, type) (hds _ mem_cons_self)
        obtain ⟨w, hw, he⟩ := coverFrom_spec (r := r &&& ~~~type) hrest (.inr (h.join hne hal (.name hmap)))
        exact ⟨w, hw, he.trans (or_split hin v)⟩
      case isFalse => exact coverFrom_spec hrest h

/-! ## The remainder -/

theorem hexDigit_spec : ∀ n < 16, isalnum (hexDigit n) = true ∧ isDigitIn 16 (hexDigit n) = true ∧
    digit (hexDigit n) = some n ∧ (hexDigit n).toLower = hexDigit n := by
  decide

def hexDigits (n : Nat) : List Char := [7, 6, 5, 4, 3, 2, 1, 0].map fun i => hexDigit (n / 16 ^ i % 16)

theorem mem_hexDigits {n : Nat} {c : Char} (h : c ∈ hexDigits n) : ∃ d < 16, c = hexDigit d := by
  obtain ⟨i, -, rfl⟩ := mem_map.1 h
  exact ⟨_, Nat.mod_lt _ (by decide), rfl⟩

theorem ofDigits_hex {n : Nat} (h : n < 2 ^ 32) : ofDigits 16 (hexDigits n) = n := by
  have hd : ∀ k, (digit (hexDigit (k % 16))).getD 0 = k % 16 := fun k => by
    rw [(hexDigit_spec (k % 16) (Nat.mod_lt _ (by decide))).2.2.1]
    rfl
  have hstep : ∀ i, 16 * (n / 16 ^ (i + 1)) + n / 16 ^ i % 16 = n / 16 ^ i := fun i => by
    rw [Nat.pow_succ, ← Nat.div_div_eq_div_mul]
    exact Nat.div_add_mod _ _
  have hfirst : 16 * 0 + n / 16 ^ 7 % 16 = n / 16 ^ 7 := by
    rw [Nat.mul_zero, Nat.zero_add]
    exact Nat.mod_eq_of_lt (by omega)
  simp only [ofDigits, hexDigits, map_cons, map_nil, foldl_cons, foldl_nil, hd]
  rw [hfirst, hstep 6, hstep 5, hstep 4, hstep 3, hstep 2, hstep 1, hstep 0, Nat.pow_zero, Nat.div_one]

theorem numeral_hex {n : Nat} (h : n < 2 ^ 32) : numeral (hex8 n) = some n := by
  have hall : ∀ c ∈ hexDigits n, isDigitIn 16 c = true := fun c hc => by
    obtain ⟨d, hd, rfl⟩ := mem_hexDigits hc
    exact (hexDigit_spec d hd).2.1
  have htake : (hexDigits n).takeWhile (isDigitIn 16) = hexDigits n := takeWhile_eq_self_iff.2 hall
  have hfirst : isDigitIn 16 (hexDigit (n / 16 ^ 7 % 16)) = true := (hexDigit_spec _ (Nat.mod_lt _ (by decide))).2.1
  have hstoul : stoul (hex8 n) = some (n, 10) := by
    have hlen : (hexDigits n).length = 8 := rfl
    have hne : hexDigits n ≠ [] := fun e => by rw [e] at hlen; cases hlen
    have hdrop : (hex8 n).drop 2 = hexDigits n := rfl
    simp only [stoul]
    rw [show hex8 n = '0' :: 'x' :: hexDigit (n / 16 ^ 7 % 16) :: (hexDigits n).drop 1 from rfl]
    simp only [hfirst, if_true]
    rw [show ('0' :: 'x' :: hexDigit (n / 16 ^ 7 % 16) :: (hexDigits n).drop 1).drop 2 = hexDigits n from rfl, htake,
      ofDigits_hex h, if_neg (by simp only [hne, false_or]; omega), hlen]
  rw [numeral, hstoul]
  rfl

theorem feedMap_hex (n : Nat) : feedMap (hex8 n) = none := by
  have hno : ∀ d ∈ FEED_DEFS, d.1.toList.head? ≠ some '0' := by decide +kernel
  have hfind : (FEED_DEFS.reverse.find? fun d => decide (d.1.toList = hex8 n)) = none := by
    refine List.find?_eq_none.2 fun d hd => ?_
    rw [decide_eq_true_eq]
    intro e
    exact hno d (mem_reverse.1 hd) (by rw [e]; rfl)
  rw [feedMap, hfind]
  rfl

theorem prim_hex {n : Nat} (h : n < 2 ^ 32) : hex8 n ≠ [] ∧ (∀ c ∈ hex8 n, isalnum c = true) ∧
    Prim [.name (hex8 n)] (UInt32.ofNat n) := by
  have hcons : hex8 n = '0' :: 'x' :: hexDigits n := rfl
  have hlower : (hex8 n).map Char.toLower = hex8 n := by
    rw [hcons, map_cons, map_cons]
    refine congrArg₂ _ rfl (congrArg₂ _ rfl ?_)
    refine (map_congr_left fun c hc => ?_).trans (map_id _)
    obtain ⟨d, hd, rfl⟩ := mem_hexDigits hc
    exact (hexDigit_spec d hd).2.2.2
  refine ⟨by rw [hcons]; nofun, fun c hc => ?_, ?_⟩
  · rw [hcons, mem_cons, mem_cons] at hc
    rcases hc with rfl | rfl | hc
    · decide
    · decide
    · obtain ⟨d, hd, rfl⟩ := mem_hexDigits hc
      exact (hexDigit_spec d hd).1
  · refine .number ?_ ?_
    · rw [hlower]
      exact feedMap_hex n
    · rw [hlower]
      exact numeral_hex h

/-! ## Round trip -/

theorem denotes_toString (v : FeedType) : Denotes (toString v) v := by
  rw [toString]
  split
  case isTrue h0 =>
    rw [h0]
    obtain ⟨hne, hal, hmap⟩ := coverDefs_names ("none", NONE) (by decide +kernel)
    exact ⟨_, lexes_name hne hal, .term (.prim (.name hmap))⟩
  case isFalse h0 =>
    have hstart : Covers [] 0 := .inl ⟨rfl, rfl⟩
    obtain ⟨w, hw, he⟩ := coverFrom_spec (r := v) (fun d hd => hd) hstart
    rw [UInt32.zero_or] at he
    simp only
    split
    case isTrue hr =>
      rw [hr, UInt32.or_zero] at he
      subst he
      rcases hw with ⟨-, hw0⟩ | hw
      · exact absurd hw0 h0
      · exact hw
    case isFalse =>
      obtain ⟨hne, hal, hprim⟩ := prim_hex (UInt32.toNat_lt (coverFrom coverDefs v []).2)
      rw [UInt32.ofNat_toNat] at hprim
      have hd := hw.join hne hal hprim
      rwa [he] at hd

/-- **The text of a feed type is read back**, whatever the feed type is. -/
theorem parse_toString (v result : FeedType) : Returns (toString v) result (.ok, v) := by
  have hd := denotes_toString v
  refine Denotes.returns ?_ result
  obtain ⟨ts, hlex, hexpr⟩ := hd
  rw [takeWhile_text hlex.no_zero]
  exact ⟨ts, hlex, hexpr⟩

/-! ## The characters of a feed type -/

def Bare (s : List Char) : Prop := ∀ c ∈ s, isalnum c = true ∨ c = '|'

instance (s : List Char) : Decidable (Bare s) := List.decidableBAll (fun c => isalnum c = true ∨ c = '|') s

theorem Bare.join {n : List Char} (h : Bare s) (hn : ∀ c ∈ n, isalnum c = true) :
    Bare ((if s = [] then [] else s ++ ['|']) ++ n) := by
  have hs : Bare (if s = [] then [] else s ++ ['|']) := by
    split
    · nofun
    · exact forall_mem_append.2 ⟨h, fun c hc => .inr (mem_singleton.1 hc)⟩
  exact forall_mem_append.2 ⟨hs, fun c hc => .inl (hn c hc)⟩

theorem coverFrom_bare : ∀ {ds : List (String × FeedType)} {r : FeedType} {s : List Char}, (∀ d ∈ ds, d ∈ coverDefs) →
    Bare s → Bare (coverFrom ds r s).1
  | [], _, _, _, h => h
  | (name, type) :: ds, r, s, hds, h => by
    have hrest : ∀ d ∈ ds, d ∈ coverDefs := fun d hd => hds d (mem_cons_of_mem _ hd)
    rw [coverFrom]
    split
    · exact h
    split
    · exact coverFrom_bare hrest (h.join (coverDefs_names _ (hds _ (mem_cons_self ..))).2.1)
    · exact coverFrom_bare hrest h

theorem toString_bare (v : FeedType) : Bare (toString v) := by
  have hcover : Bare (coverFrom coverDefs v []).1 := coverFrom_bare (fun _ h => h) nofun
  rw [toString]
  split
  · decide
  simp only
  split
  · exact hcover
  · exact hcover.join (prim_hex (UInt32.toNat_lt _)).2.1

end Rdm.FeedType
