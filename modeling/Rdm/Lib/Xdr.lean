import Mathlib.Algebra.Group.Int.Defs
import Mathlib.Algebra.Group.Nat.Defs
import Mathlib.Data.List.GetD
import Mathlib.Data.List.TakeWhile

/-!
# External data representation in memory

The encoding of RFC 4506 over a memory buffer. `Parses g bs v` says that the decoder `g` reads the bytes `bs` as the
value `v` wherever they stand; it is proved piece by piece, from `Parses.bind`.
-/

namespace Xdr

open List

/-! ## Bytes in memory -/

abbrev Memory := Int → UInt8

def readBytes (mem : Memory) (pos : Int) (n : Nat) : List UInt8 := (List.range n).map fun i : Nat => mem (pos + i)

def writeBytes (mem : Memory) (pos : Int) (bs : List UInt8) : Memory := fun a =>
  if pos ≤ a ∧ a < pos + bs.length then bs.getD (a - pos).toNat 0 else mem a

variable {mem : Memory} {pos : Int} {as bs cs : List UInt8} {n : Nat} {α : Type}

@[simp] theorem length_readBytes (mem : Memory) (pos : Int) (n : Nat) : (readBytes mem pos n).length = n := by
  simp [readBytes]

theorem writeBytes_out {a : Int} (h : a < pos ∨ pos + bs.length ≤ a) : writeBytes mem pos bs a = mem a :=
  if_neg (by omega)

theorem writeBytes_nil : writeBytes mem pos [] = mem := funext fun _ => writeBytes_out (by simp; omega)

theorem readBytes_congr {mem' : Memory} (h : ∀ a, pos ≤ a → a < pos + n → mem' a = mem a) :
    readBytes mem' pos n = readBytes mem pos n := by
  refine map_congr_left fun i hi => ?_
  have := mem_range.1 hi
  exact h _ (by omega) (by omega)

theorem readBytes_write_out {q : Int} (h : q + n ≤ pos ∨ pos + bs.length ≤ q) :
    readBytes (writeBytes mem pos bs) q n = readBytes mem q n :=
  readBytes_congr fun a h1 h2 => writeBytes_out (by omega)

theorem readBytes_add (mem : Memory) (pos : Int) (m n : Nat) :
    readBytes mem pos (m + n) = readBytes mem pos m ++ readBytes mem (pos + m) n := by
  rw [readBytes, range_add, map_append, map_map]
  refine congrArg₂ _ rfl (map_congr_left fun i _ => ?_)
  simp [Int.add_assoc]

theorem readBytes_write (mem : Memory) (pos : Int) (bs : List UInt8) :
    readBytes (writeBytes mem pos bs) pos bs.length = bs := by
  refine ext_getElem (by simp) fun i h1 h2 => ?_
  have hi : pos ≤ pos + (i : Int) ∧ pos + (i : Int) < pos + bs.length := by omega
  have hn : (pos + (i : Int) - pos).toNat = i := by omega
  simp only [readBytes, getElem_map, getElem_range, writeBytes, if_pos hi, hn]
  exact getD_eq_getElem bs 0 h2

theorem writeBytes_append (mem : Memory) (pos : Int) (as bs : List UInt8) :
    writeBytes (writeBytes mem pos as) (pos + as.length) bs = writeBytes mem pos (as ++ bs) := by
  funext a
  simp only [writeBytes, length_append, Int.natCast_add]
  by_cases h1 : pos + as.length ≤ a ∧ a < pos + as.length + bs.length
  · rw [if_pos h1, if_pos (by omega), getD_append_right _ _ _ _ (by omega)]
    congr 1
    omega
  · rw [if_neg h1]
    by_cases h2 : pos ≤ a ∧ a < pos + as.length
    · rw [if_pos h2, if_pos (by omega), getD_append _ _ _ _ (by omega)]
    · rw [if_neg h2, if_neg (by omega)]

theorem writeBytes_same (h : readBytes mem pos bs.length = bs) : writeBytes mem pos bs = mem := by
  funext a
  by_cases ha : pos ≤ a ∧ a < pos + bs.length
  · have hlt : (a - pos).toNat < (readBytes mem pos bs.length).length := by rw [length_readBytes]; omega
    have hget : (readBytes mem pos bs.length).getD (a - pos).toNat 0 = mem a := by
      rw [getD_eq_getElem _ _ hlt]
      simp only [readBytes, getElem_map, getElem_range]
      congr 1
      omega
    rw [writeBytes, if_pos ha, ← hget, h]
  · rw [writeBytes, if_neg ha]

def overwrite (bs : List UInt8) (i : Nat) (cs : List UInt8) : List UInt8 := bs.take i ++ cs ++ bs.drop (i + cs.length)

theorem readBytes_overwrite (mem : Memory) (pos : Int) {i : Nat} (h : i + cs.length ≤ n) :
    readBytes (writeBytes mem (pos + i) cs) pos n = overwrite (readBytes mem pos n) i cs := by
  obtain ⟨m, rfl⟩ : ∃ m, n = i + cs.length + m := ⟨n - (i + cs.length), by omega⟩
  rw [readBytes_add, readBytes_add, readBytes_add mem, readBytes_add mem, readBytes_write,
    readBytes_write_out (by omega), readBytes_write_out (by omega)]
  simp [overwrite, drop_append]

/-! ## Streams -/

/-- A memory stream: where it is and how much it may still touch. -/
structure Stream where
  mem : Memory
  pos : Int
  handy : Nat

def putAll : List (List UInt8) → Stream → Bool × Stream
  | [], x => (true, x)
  | p :: ps, x =>
    if p.length ≤ x.handy then putAll ps ⟨writeBytes x.mem x.pos p, x.pos + p.length, x.handy - p.length⟩
    else (false, x)

theorem putAll_fits : ∀ (ps : List (List UInt8)) (x : Stream), ps.flatten.length ≤ x.handy →
    putAll ps x = (true, ⟨writeBytes x.mem x.pos ps.flatten, x.pos + ps.flatten.length, x.handy - ps.flatten.length⟩)
  | [], x, _ => by
    have h : writeBytes x.mem x.pos [] = x.mem := funext fun a => writeBytes_out (by simp; omega)
    simp [putAll, h]
  | p :: ps, x, h => by
    simp only [flatten_cons, length_append] at h ⊢
    rw [putAll, if_pos (by omega), putAll_fits ps _ (by simp only; omega), writeBytes_append]
    simp only [Int.natCast_add, Int.add_assoc, Nat.sub_sub]

theorem putAll_short : ∀ (ps : List (List UInt8)) (x : Stream), x.handy < ps.flatten.length → (putAll ps x).1 = false
  | [], _, h => by simp at h
  | p :: ps, x, h => by
    simp only [flatten_cons, length_append] at h
    rw [putAll]
    split
    · exact putAll_short ps _ (by simp only; omega)
    · rfl

theorem putAll_out : ∀ (ps : List (List UInt8)) (x : Stream) {a : Int}, a < x.pos ∨ x.pos + x.handy ≤ a →
    (putAll ps x).2.mem a = x.mem a
  | [], _, _, _ => rfl
  | p :: ps, x, a, h => by
    rw [putAll]
    split
    · rw [putAll_out ps _ (by simp only; omega)]
      exact writeBytes_out (by omega)
    · rfl

/-- **Putting is writing**: which bytes are written does not depend on the memory. -/
theorem putAll_writes : ∀ (ps : List (List UInt8)) (pos : Int) (handy : Nat), ∃ ok bs, bs.length ≤ handy ∧ ∀ mem,
    putAll ps ⟨mem, pos, handy⟩ = (ok, ⟨writeBytes mem pos bs, pos + bs.length, handy - bs.length⟩)
  | [], pos, handy => ⟨true, [], Nat.zero_le _, fun mem => by simp [putAll, writeBytes_nil]⟩
  | p :: ps, pos, handy => by
    by_cases hp : p.length ≤ handy
    · obtain ⟨ok, bs, hlen, hput⟩ := putAll_writes ps (pos + p.length) (handy - p.length)
      refine ⟨ok, p ++ bs, by rw [length_append]; omega, fun mem => ?_⟩
      rw [putAll, if_pos hp, hput, writeBytes_append, length_append, Nat.sub_sub, Int.add_assoc, Int.natCast_add]
    · exact ⟨false, [], Nat.zero_le _, fun mem => by simp [putAll, hp, writeBytes_nil]⟩

theorem putAll_same : ∀ (ps : List (List UInt8)) (x : Stream), readBytes x.mem x.pos ps.flatten.length = ps.flatten →
    (putAll ps x).2.mem = x.mem
  | [], _, _ => rfl
  | p :: ps, x, h => by
    rw [flatten_cons, length_append, readBytes_add] at h
    obtain ⟨hp, hps⟩ := append_inj h (by simp)
    rw [putAll]
    split
    · have hsame := writeBytes_same hp
      rw [putAll_same ps _ (by simpa only [hsame] using hps)]
      exact hsame
    · rfl

abbrev Get (α : Type) := StateT Stream Option α

def Stream.skip (x : Stream) (n : Nat) : Stream := ⟨x.mem, x.pos + n, x.handy - n⟩

theorem Stream.skip_skip (x : Stream) (m n : Nat) : (x.skip m).skip n = x.skip (m + n) := by
  simp only [skip, Int.natCast_add, Int.add_assoc, Nat.sub_sub]

def Parses {α : Type} (g : Get α) (bs : List UInt8) (v : α) : Prop :=
  ∀ x : Stream, readBytes x.mem x.pos bs.length = bs →
    g.run x = if bs.length ≤ x.handy then some (v, x.skip bs.length) else none

theorem Parses.pure (v : α) : Parses (Pure.pure v : Get α) [] v := by
  intro x _
  simp [Stream.skip]

variable {g : Get α}

/-- **One decoder after another.** -/
theorem Parses.bind {β : Type} {f : α → Get β} {v : α} {w : β} (hg : Parses g as v)
    (hf : Parses (f v) bs w) : Parses (g >>= f) (as ++ bs) w := by
  intro x hx
  rw [length_append, readBytes_add] at hx
  obtain ⟨ha, hb⟩ := append_inj hx (by simp)
  rw [StateT.run_bind, hg x ha, length_append]
  by_cases hfit : as.length ≤ x.handy
  · rw [if_pos hfit, Option.bind_eq_bind, Option.bind_some, hf (x.skip as.length) hb, Stream.skip_skip]
    have hiff : bs.length ≤ (x.skip as.length).handy ↔ as.length + bs.length ≤ x.handy := by
      simp only [Stream.skip]
      omega
    simp only [hiff]
  · rw [if_neg hfit, if_neg (by omega)]
    rfl

/-! ## Items -/

def getBytes (n : Nat) : Get (List UInt8) := fun x =>
  if n ≤ x.handy then some (readBytes x.mem x.pos n, x.skip n) else none

theorem getBytes_run {x : Stream} (h : n ≤ x.handy) : (getBytes n).run x = some (readBytes x.mem x.pos n, x.skip n) :=
  if_pos h

theorem parses_bytes (bs : List UInt8) : Parses (getBytes bs.length) bs bs := by
  intro x hx
  simp only [StateT.run, getBytes, hx]

def word (n : Nat) : List UInt8 :=
  [UInt8.ofNat (n / 2 ^ 24), UInt8.ofNat (n / 2 ^ 16), UInt8.ofNat (n / 2 ^ 8), UInt8.ofNat n]

def ofWord (bs : List UInt8) : Nat := bs.foldl (fun n b => 256 * n + b.toNat) 0

def getWord : Get Nat := do
  let bs ← getBytes 4
  return ofWord bs

theorem getWord_run {x : Stream} (h : 4 ≤ x.handy) : getWord.run x = some
    (ofWord (readBytes x.mem x.pos 4), x.skip 4) := by
  rw [getWord, StateT.run_bind, getBytes_run h]
  rfl

theorem ofWord_word (n : Nat) : ofWord (word n) = n % 2 ^ 32 := by
  simp only [ofWord, word, foldl_cons, foldl_nil, UInt8.toNat_ofNat']
  omega

theorem parses_word (n : Nat) : Parses getWord (word n) (n % 2 ^ 32) := by
  rw [← ofWord_word, ← append_nil (word n)]
  refine Parses.bind (parses_bytes (word n)) ?_
  rw [append_nil]
  exact Parses.pure _

def pad (n : Nat) : Nat := (4 - n % 4) % 4

def stringPieces (bs : List UInt8) : List (List UInt8) := [word bs.length, bs, List.replicate (pad bs.length) 0]

def cString (bs : List UInt8) : List UInt8 := bs.takeWhile (· ≠ 0)

def getString (max : Nat) : Get (List UInt8) := do
  let n ← getWord
  if max < n then failure
  else
    let bs ← getBytes n
    let _ ← getBytes (pad n)
    return cString bs

theorem cString_eq_self (h : 0 ∉ bs) : cString bs = bs := by
  refine takeWhile_eq_self_iff.2 fun b hb => ?_
  simp only [decide_eq_true_eq]
  exact fun e => h (e ▸ hb)

theorem stringPieces_eq (bs : List UInt8) :
    (stringPieces bs).flatten = word bs.length ++ (bs ++ (replicate (pad bs.length) 0 ++ [])) := by
  simp [stringPieces]

theorem parses_length (h : bs.length < 2 ^ 32) : Parses getWord (word bs.length) bs.length := by
  have hword := parses_word bs.length
  rwa [Nat.mod_eq_of_lt h] at hword

theorem parses_padding (n : Nat) : Parses (getBytes (pad n)) (replicate (pad n) 0) (replicate (pad n) 0) := by
  have hpad := parses_bytes (replicate (pad n) 0)
  rwa [length_replicate] at hpad

/-- **A string is read back** if it is short enough and has no zero in it. -/
theorem parses_string {max : Nat} (hlen : bs.length ≤ max) (hmax : max < 2 ^ 32) (h0 : 0 ∉ bs) :
    Parses (getString max) (stringPieces bs).flatten bs := by
  rw [stringPieces_eq]
  refine (parses_length (by omega)).bind ?_
  rw [if_neg (by omega)]
  refine (parses_bytes bs).bind ((parses_padding _).bind ?_)
  rw [cString_eq_self h0]
  exact Parses.pure bs

theorem length_stringPieces (bs : List UInt8) : (stringPieces bs).flatten.length = 4 + (bs.length + 3) / 4 * 4 := by
  simp only [stringPieces, flatten_cons, flatten_nil, append_nil, length_append,
    length_replicate, word, length_cons, length_nil, pad]
  omega

def putString (max : Nat) (s : List UInt8) : Option (List UInt8) :=
  if max < (cString s).length then none else some (stringPieces (cString s)).flatten

theorem putString_eq {max : Nat} (hlen : bs.length ≤ max) (h0 : 0 ∉ bs) :
    putString max bs = some (stringPieces bs).flatten := by
  rw [putString, cString_eq_self h0, if_neg (by omega)]

def getCounted : Get (List UInt8) := do
  let n ← getWord
  let bs ← getBytes n
  let _ ← getBytes (pad n)
  return bs

theorem parses_counted (h : bs.length < 2 ^ 32) : Parses getCounted (stringPieces bs).flatten bs := by
  rw [stringPieces_eq]
  exact (parses_length h).bind ((parses_bytes bs).bind ((parses_padding _).bind (Parses.pure bs)))

def getMany {α : Type} (g : Get α) : Nat → Get (List α)
  | 0 => return []
  | n + 1 => do
    let v ← g
    let vs ← getMany g n
    return v :: vs

theorem parses_many {enc : α → List UInt8} : ∀ {vs : List α}, (∀ v ∈ vs, Parses g (enc v) v) →
    Parses (getMany g vs.length) (vs.flatMap enc) vs
  | [], _ => Parses.pure []
  | v :: vs, h => by
    have hrest := parses_many fun w hw => h w (mem_cons_of_mem _ hw)
    have hflat : (v :: vs).flatMap enc = enc v ++ (vs.flatMap enc ++ []) := by simp
    rw [hflat]
    exact (h v mem_cons_self).bind (hrest.bind (Parses.pure (v :: vs)))

/-! ## Decoders look at nothing but their stream -/

structure Stream.Same (x y : Stream) : Prop where
  pos : y.pos = x.pos
  handy : y.handy = x.handy
  bytes : ∀ a, x.pos ≤ a → a < x.pos + x.handy → y.mem a = x.mem a

def Local {α : Type} (g : Get α) : Prop :=
  ∀ x y : Stream, x.Same y → Option.Rel (fun p q => q.1 = p.1 ∧ p.2.Same q.2) (g.run x) (g.run y)

theorem Local.pure (v : α) : Local (Pure.pure v : Get α) :=
  fun _ _ h => .some ⟨rfl, h⟩

theorem Local.failure : Local (failure : Get α) :=
  fun _ _ _ => .none

theorem Local.bind {β : Type} {f : α → Get β} (hg : Local g) (hf : ∀ v, Local (f v)) : Local (g >>= f) := by
  intro x y hxy
  rw [StateT.run_bind, StateT.run_bind]
  have h := hg x y hxy
  generalize g.run x = r, g.run y = r' at h
  cases h with
  | none => exact .none
  | @some p q hpq =>
    obtain ⟨v, x'⟩ := p
    obtain ⟨w, y'⟩ := q
    obtain ⟨hv, hsame⟩ := hpq
    subst hv
    exact hf _ x' y' hsame

theorem Local.result (hg : Local g) {x y : Stream} (hxy : x.Same y) :
    ((g.run y).map fun (v, z) => (v, z.pos)) = (g.run x).map fun (v, z) => (v, z.pos) := by
  have h := hg x y hxy
  generalize g.run x = r, g.run y = r' at h
  cases h with
  | none => rfl
  | @some p q hpq =>
    obtain ⟨v, x'⟩ := p
    obtain ⟨w, y'⟩ := q
    obtain ⟨hv, hsame⟩ := hpq
    have hpos : y'.pos = x'.pos := hsame.pos
    simp only at hv
    simp only [Option.map_some, hv, hpos]

theorem local_bytes (n : Nat) : Local (getBytes n) := by
  intro x y h
  simp only [StateT.run, getBytes, h.handy]
  split
  case isFalse => exact .none
  case isTrue hn =>
    refine .some ⟨?_, ?_⟩
    · rw [h.pos]
      exact readBytes_congr fun a h1 h2 => h.bytes a h1 (by omega)
    · refine ⟨?_, ?_, fun a h1 h2 => h.bytes a ?_ ?_⟩
      all_goals simp only [Stream.skip, h.pos, h.handy] at *
      all_goals omega

theorem local_word : Local getWord := (local_bytes 4).bind fun _ => .pure _

theorem local_string (max : Nat) : Local (getString max) := by
  refine local_word.bind fun n => ?_
  split
  · exact .failure
  · exact (local_bytes n).bind fun bs => (local_bytes _).bind fun _ => .pure _

/-! ## How much a decoder takes -/

def Takes {α : Type} (g : Get α) (k : Nat) : Prop := ∀ x v y, g.run x = some (v, y) →
  ∃ bs, k ≤ bs.length ∧ bs.length ≤ x.handy ∧ readBytes x.mem x.pos bs.length = bs ∧ y = x.skip bs.length ∧
    Parses g bs v

theorem Takes.mono {k m : Nat} (h : Takes g k) (hm : m ≤ k) : Takes g m := by
  intro x v y hv
  obtain ⟨bs, hk, hbs⟩ := h x v y hv
  exact ⟨bs, hm.trans hk, hbs⟩

theorem Takes.pure (v : α) : Takes (Pure.pure v : Get α) 0 := by
  intro x w y h
  cases h
  exact ⟨[], Nat.le_refl 0, Nat.zero_le _, rfl, by simp [Stream.skip], Parses.pure v⟩

theorem Takes.failure (k : Nat) : Takes (failure : Get α) k := by
  intro x v y h
  cases h

theorem Takes.bind {β : Type} {f : α → Get β} {k m : Nat} (hg : Takes g k) (hf : ∀ v, Takes (f v) m) :
    Takes (g >>= f) (k + m) := by
  intro x w z h
  rw [StateT.run_bind] at h
  obtain ⟨⟨v, y⟩, hv, hw⟩ := Option.bind_eq_some_iff.1 h
  obtain ⟨as, hk, hn, hread, rfl, hparse⟩ := hg x v y hv
  obtain ⟨bs, hm, hn', hread', rfl, hparse'⟩ := hf v _ w z hw
  have hn' : bs.length ≤ x.handy - as.length := hn'
  refine ⟨as ++ bs, ?_, ?_, ?_, ?_, hparse.bind hparse'⟩
  · rw [length_append]
    omega
  · rw [length_append]
    omega
  · rw [length_append, readBytes_add, hread]
    exact congrArg _ hread'
  · rw [length_append, Stream.skip_skip]

theorem takes_bytes (n : Nat) : Takes (getBytes n) n := by
  intro x v y h
  simp only [StateT.run, getBytes] at h
  split at h
  case isTrue hn =>
    cases h
    have hlen := length_readBytes x.mem x.pos n
    have hparse := parses_bytes (readBytes x.mem x.pos n)
    rw [hlen] at hparse
    refine ⟨readBytes x.mem x.pos n, ?_, ?_, ?_, ?_, hparse⟩
    all_goals rw [hlen]
    exact hn
  case isFalse => cases h

theorem takes_word : Takes getWord 4 := (takes_bytes 4).bind fun _ => .pure _

theorem takes_string (max : Nat) : Takes (getString max) 4 := by
  refine takes_word.bind (m := 0) fun n => ?_
  split
  · exact .failure 0
  · exact ((takes_bytes n).bind fun bs => (takes_bytes (pad n)).bind fun _ => .pure (cString bs)).mono (Nat.zero_le _)

theorem takes_many {k : Nat} (h : Takes g k) (n : Nat) : Takes (getMany g n) (n * k) := by
  induction n with
  | zero =>
    rw [Nat.zero_mul]
    exact .pure []
  | succ n ih =>
    rw [Nat.succ_mul, Nat.add_comm (n * k)]
    exact h.bind fun v => ih.bind fun vs => .pure (v :: vs)

/-! ## Messages -/

def Stream.ofBytes (bs : List UInt8) : Stream := ⟨writeBytes (fun _ => 0) 0 bs, 0, bs.length⟩

theorem readBytes_ofBytes (h : n ≤ bs.length) : readBytes (Stream.ofBytes bs).mem 0 n = bs.take n := by
  have hread := readBytes_write (fun _ => 0) 0 bs
  obtain ⟨m, hm⟩ : ∃ m, bs.length = n + m := ⟨bs.length - n, by omega⟩
  rw [hm, readBytes_add] at hread
  have htake := congrArg (take n) hread
  rwa [take_append_of_le_length (by simp), take_of_length_le (by simp)] at htake

def Stream.rest (x : Stream) : List UInt8 := readBytes x.mem x.pos x.handy

def decode {α : Type} (g : Get α) (bs : List UInt8) : Option (α × List UInt8) :=
  (g.run (Stream.ofBytes bs)).map fun (v, x) => (v, x.rest)

/-- **A message that is cut is not accepted**: what is read in a part of it is read in all of it. -/
theorem Takes.truncated {k : Nat} {v w : α} {y z : Stream} (hg : Takes g k)
    (h : g.run (Stream.ofBytes bs) = some (v, y)) (hcut : g.run (Stream.ofBytes (bs.take n)) = some (w, z)) :
    bs.length - y.handy ≤ n := by
  obtain ⟨cs, -, hfit, hread, -, hparse⟩ := hg _ _ _ hcut
  have hfit : cs.length ≤ (bs.take n).length := hfit
  rw [length_take] at hfit
  have hcs : readBytes (Stream.ofBytes (bs.take n)).mem 0 cs.length = cs := hread
  rw [readBytes_ofBytes (by rw [length_take]; omega), take_take, Nat.min_eq_left (by omega)] at hcs
  have hsame := (readBytes_ofBytes (show cs.length ≤ bs.length by omega)).trans hcs
  have hfull := (hparse (Stream.ofBytes bs) hsame).trans (if_pos (show cs.length ≤ bs.length by omega))
  rw [h] at hfull
  have hy : y = (Stream.ofBytes bs).skip cs.length := (Prod.mk.inj (Option.some.inj hfull)).2
  rw [hy]
  show bs.length - (bs.length - cs.length) ≤ n
  omega

/-- **Decoding stops** where the encoding ends. -/
theorem Parses.decode {v : α} (h : Parses g bs v) (trailing : List UInt8) :
    Xdr.decode g (bs ++ trailing) = some (v, trailing) := by
  have hread := readBytes_write (fun _ => 0) 0 (bs ++ trailing)
  rw [length_append, readBytes_add] at hread
  obtain ⟨hbs, hrest⟩ := append_inj hread (by simp)
  rw [Xdr.decode, h (Stream.ofBytes (bs ++ trailing)) hbs, if_pos (by simp [Stream.ofBytes])]
  simpa [Stream.rest, Stream.skip, Stream.ofBytes] using hrest

variable {β : Type} {f : α → Get β} {P : α → Prop} {R : β → Prop}

/-- What a decoder returns has the property `P`. -/
def Gives (g : Get α) (P : α → Prop) : Prop := ∀ x v y, g.run x = some (v, y) → P v

theorem Gives.bind (hg : Gives g P) (hf : ∀ v, P v → Gives (f v) R) : Gives (g >>= f) R := by
  intro x w z h
  rw [StateT.run_bind] at h
  obtain ⟨⟨v, y⟩, hv, hw⟩ := Option.bind_eq_some_iff.1 h
  exact hf v (hg x v y hv) y w z hw

theorem gives_then (hf : ∀ v, Gives (f v) R) : Gives (g >>= f) R :=
  Gives.bind (P := fun _ => True) (fun _ _ _ _ => trivial) fun v _ => hf v

theorem gives_pure {v : α} (h : P v) : Gives (Pure.pure v) P := fun _ _ _ e => by
  cases e
  exact h

theorem gives_failure : Gives (failure : Get α) P := nofun

theorem gives_bytes (n : Nat) : Gives (getBytes n) fun bs => bs.length = n := by
  intro x v y h
  simp only [StateT.run, getBytes] at h
  split at h
  · cases h
    exact length_readBytes _ _ _
  · cases h

theorem gives_string (max : Nat) : Gives (getString max) fun bs => bs.length ≤ max := by
  refine gives_then fun n => ?_
  split
  · exact gives_failure
  · refine (gives_bytes n).bind fun bs hbs => gives_then fun _ => gives_pure ?_
    have hcut : (cString bs).length ≤ bs.length := (takeWhile_sublist _).length_le
    omega

theorem Gives.of_decode (hg : Gives g P) {rest : List UInt8} {v : α} (h : decode g bs = some (v, rest)) : P v := by
  obtain ⟨⟨w, y⟩, hrun, he⟩ := Option.map_eq_some_iff.1 h
  cases he
  exact hg _ _ _ hrun

def getPadded (n : Nat) : Get (List UInt8) := do
  let bs ← getBytes n
  let _ ← getBytes (pad n)
  return bs

theorem gives_padded (n : Nat) : Gives (getPadded n) fun bs => bs.length = n :=
  (gives_bytes n).bind fun _ h => gives_then fun _ => gives_pure h

end Xdr
