import Rdm.Network.SunRpcXdr

/-!
# Decoding a class into memory

`xdr_net_prod_class` makes room for as many specifications as the message announces before it reads the first one
(`class_decoding_overgrows`).
-/

namespace Rdm.SunRpcXdr

open Xdr SunRpcSerializer List

/-! ## In place -/

def xdrNetProdSpec (spec : ProdSpec) (x : Stream) : Option Stream × ProdSpec :=
  match getUInt.run x with
  | none => (none, spec)
  | some (ft, x) =>
    match (getString 255).run x with
    | none => (none, { spec with feedtype := ft })
    | some (pattern, x) => (some x, ⟨ft, pattern⟩)

def xdrNetProdSpecs : List ProdSpec → Stream → Option Stream × List ProdSpec
  | [], x => (some x, [])
  | spec :: specs, x =>
    match xdrNetProdSpec spec x with
    | (none, spec) => (none, spec :: specs)
    | (some x, spec) => ((xdrNetProdSpecs specs x).1, spec :: (xdrNetProdSpecs specs x).2)

def resize (specs : List ProdSpec) (n : Nat) : List ProdSpec :=
    specs.take n ++ List.replicate (n - specs.length) ⟨0, []⟩

def getTimes : Get (Int × Int × Int × Int) := do
  let fSec ← getInt
  let fUsec ← getInt
  let tSec ← getInt
  let tUsec ← getInt
  return (fSec, fUsec, tSec, tUsec)

def xdrNetProdClass (clss : ProdClass) (x : Stream) : Option Stream × ProdClass :=
  match getTimes.run x with
  | none => (none, clss)
  | some ((fSec, fUsec, tSec, tUsec), x) =>
    let clss := { clss with fromSec := fSec, fromUsec := fUsec, toSec := tSec, toUsec := tUsec }
    match getWord.run x with
    | none => (none, clss)
    | some (psaLen, x) =>
      let (rest, specs) := xdrNetProdSpecs (resize clss.specs psaLen) x
      (rest, { clss with specs := specs })

def decodeInto (clss : ProdClass) (bs : List UInt8) : Option Stream × ProdClass :=
    xdrNetProdClass clss (Stream.ofBytes bs)

def announced (bs : List UInt8) : Option Nat :=
  ((getTimes >>= fun _ => getWord).run (Stream.ofBytes bs)).map Prod.fst

/-! ## What is accepted -/

theorem getNetProdSpec_run (spec : ProdSpec) (x : Stream) :
    getNetProdSpec.run x = (xdrNetProdSpec spec x).1.map fun y => ((xdrNetProdSpec spec x).2, y) := by
  rw [getNetProdSpec, StateT.run_bind, xdrNetProdSpec]
  cases getUInt.run x with
  | none => rfl
  | some p =>
    simp only [Option.bind_eq_bind, Option.bind_some, StateT.run_bind]
    cases (getString 255).run p.2 <;> rfl

theorem getMany_run : ∀ (specs : List ProdSpec) (x : Stream), (getMany getNetProdSpec specs.length).run x =
    (xdrNetProdSpecs specs x).1.map fun y => ((xdrNetProdSpecs specs x).2, y)
  | [], _ => rfl
  | spec :: specs, x => by
    rw [length_cons, getMany, StateT.run_bind, getNetProdSpec_run spec, xdrNetProdSpecs]
    rcases xdrNetProdSpec spec x with ⟨_ | y, spec'⟩
    · rfl
    · simp only [Option.map_some, Option.bind_eq_bind, Option.bind_some, StateT.run_bind, getMany_run specs y]
      cases (xdrNetProdSpecs specs y).1 <;> rfl

theorem length_resize (specs : List ProdSpec) (n : Nat) : (resize specs n).length = n := by
  simp only [resize, length_append, length_take, length_replicate]
  omega

theorem length_xdrNetProdSpecs : ∀ (specs : List ProdSpec) (x : Stream),
    (xdrNetProdSpecs specs x).2.length = specs.length
  | [], _ => rfl
  | spec :: specs, x => by
    rw [xdrNetProdSpecs]
    rcases xdrNetProdSpec spec x with ⟨_ | y, spec'⟩
    · rfl
    · simp only [length_cons, length_xdrNetProdSpecs specs y]

/-- **Decoding in place** accepts what the decoder of the class accepts, and then has the same class. -/
theorem getNetProdClass_run (clss : ProdClass) (x : Stream) :
    getNetProdClass.run x = (xdrNetProdClass clss x).1.map fun y => ((xdrNetProdClass clss x).2, y) := by
  have hsplit : getNetProdClass = do
      let (fSec, fUsec, tSec, tUsec) ← getTimes
      let psaLen ← getWord
      let specs ← getMany getNetProdSpec psaLen
      return ⟨fSec, fUsec, tSec, tUsec, specs⟩ := by
    simp only [getNetProdClass, getTimes, bind_assoc, pure_bind]
  rw [hsplit, StateT.run_bind, xdrNetProdClass]
  cases getTimes.run x with
  | none => rfl
  | some p =>
    simp only [Option.bind_eq_bind, Option.bind_some, StateT.run_bind]
    cases getWord.run p.2 with
    | none => rfl
    | some q =>
      have hmany := getMany_run (resize clss.specs q.1) q.2
      rw [length_resize] at hmany
      simp only [Option.bind_some, hmany]
      cases (xdrNetProdSpecs (resize clss.specs q.1) q.2).1 <;> rfl

theorem length_decodeInto (clss : ProdClass) (bs : List UInt8) :
    (decodeInto clss bs).2.specs.length = (announced bs).getD clss.specs.length := by
  rw [decodeInto, xdrNetProdClass, announced, StateT.run_bind]
  cases getTimes.run (Stream.ofBytes bs) with
  | none => rfl
  | some p =>
    simp only [Option.bind_eq_bind, Option.bind_some]
    cases getWord.run p.2 with
    | none => rfl
    | some q => simp only [length_xdrNetProdSpecs, length_resize, Option.map_some, Option.getD_some]

/-! ## Room for the specifications -/

theorem takes_int : Takes getInt 4 := takes_word.bind fun _ => .pure _

theorem takes_uint : Takes getUInt 4 := takes_word.bind fun _ => .pure _

theorem takes_times : Takes getTimes 16 :=
  takes_int.bind fun _ => takes_int.bind fun _ => takes_int.bind fun _ => takes_int.bind fun _ => .pure _

theorem takes_spec : Takes getNetProdSpec 8 := takes_uint.bind fun _ => (takes_string 255).bind fun _ => .pure _

theorem takes_class : Takes getNetProdClass 20 :=
  takes_int.bind fun _ => takes_int.bind fun _ => takes_int.bind fun _ => takes_int.bind fun _ =>
    takes_word.bind (m := 0) fun n =>
    ((takes_many takes_spec n).bind fun _ => .pure _).mono (Nat.zero_le _)

theorem decodeInto_room {clss : ProdClass} {bs : List UInt8} {rest : Stream} (h : (decodeInto clss bs).1 = some rest) :
    20 + 8 * (decodeInto clss bs).2.specs.length ≤ bs.length := by
  rw [decodeInto, xdrNetProdClass] at h ⊢
  cases htimes : getTimes.run (Stream.ofBytes bs) with
  | none => simp [htimes] at h
  | some p =>
    obtain ⟨as, h16, hfit, -, hy, -⟩ := takes_times _ _ _ htimes
    cases hword : getWord.run p.2 with
    | none => simp [htimes, hword] at h
    | some q =>
      obtain ⟨cs, h4, hfit', -, hy', -⟩ := takes_word _ _ _ hword
      simp only [htimes, hword] at h ⊢
      have hmany := getMany_run (resize clss.specs q.1) q.2
      rw [h, length_resize] at hmany
      obtain ⟨ds, h8, hfit'', -⟩ := takes_many takes_spec q.1 _ _ _ hmany
      rw [length_xdrNetProdSpecs, length_resize]
      rw [hy'] at hfit''
      rw [hy] at hfit' hfit''
      simp only [Stream.skip, Stream.ofBytes] at hfit hfit' hfit''
      omega

/-- **Decoding a class** makes the list no longer than one specification for eight bytes exactly if no more are
announced (or the list had as many before); a message that is cut is not accepted. -/
theorem class_decoding_bounded (clss : ProdClass) (bs : List UInt8) :
    ((decodeInto clss bs).2.specs.length ≤ max clss.specs.length (bs.length / 8) ↔
      ∀ n, announced bs = some n → n ≤ max clss.specs.length (bs.length / 8)) ∧
    ∀ rest, (decodeInto clss bs).1 = some rest → (decodeInto clss bs).2.specs.length ≤ bs.length / 8 ∧
      ∀ k, k < bs.length - rest.handy → ∀ clss', (decodeInto clss' (bs.take k)).1 = none := by
  refine ⟨?_, fun rest hrest => ⟨?_, fun k hk clss' => ?_⟩⟩
  · rw [length_decodeInto]
    cases announced bs with
    | none => exact iff_of_true (Nat.le_max_left _ _) (by simp)
    | some n => simp
  · have hroom := decodeInto_room hrest
    omega
  · cases hcut : (decodeInto clss' (bs.take k)).1 with
    | none => rfl
    | some y =>
      have hfull := getNetProdClass_run clss (Stream.ofBytes bs)
      have hpart := getNetProdClass_run clss' (Stream.ofBytes (bs.take k))
      rw [← decodeInto, hrest] at hfull
      rw [← decodeInto, hcut] at hpart
      have hle := takes_class.truncated hfull hpart
      omega

def oneSpec : List UInt8 := List.replicate 19 0 ++ [1, 0, 0, 0, 1, 0, 0, 0, 0]

theorem class_decoding_bounded_one : announced oneSpec = some 1 ∧ (decodeInto {} oneSpec).2.specs = [⟨1, []⟩] ∧
    (decodeInto {} oneSpec).2.specs.length ≤ 3 ∧ (decodeInto {} (oneSpec.take 27)).1 = none := by
  have hcount : announced oneSpec = some 1 := by decide +kernel
  have hbound := (class_decoding_bounded {} oneSpec).1.2 fun n hn => by
    rw [hcount] at hn
    cases hn
    decide
  obtain ⟨rest, hrest⟩ : ∃ rest, (decodeInto {} oneSpec).1 = some rest :=
    Option.isSome_iff_exists.1 (show (decodeInto {} oneSpec).1.isSome = true by decide +kernel)
  have hall : (decodeInto {} oneSpec).1.map (·.handy) = some 0 := by decide +kernel
  rw [hrest] at hall
  have hall : rest.handy = 0 := Option.some.inj hall
  refine ⟨hcount, by decide +kernel, hbound, ((class_decoding_bounded {} oneSpec).2 rest hrest).2 27 ?_ {}⟩
  rw [hall]
  decide

def emptyPromise : List UInt8 := List.replicate 16 0 ++ [255, 255, 255, 255]

/-- **The list is made that long** before the message is rejected. -/
theorem class_decoding_overgrows : emptyPromise.length / 8 = 2 ∧ (decodeInto {} emptyPromise).1 = none ∧
    (decodeInto {} emptyPromise).2.specs.length = 2 ^ 32 - 1 := by
  have hcount : announced emptyPromise = some (2 ^ 32 - 1) := by decide +kernel
  have hlen : (decodeInto {} emptyPromise).2.specs.length = 2 ^ 32 - 1 := by
    rw [length_decodeInto, hcount]
    rfl
  refine ⟨rfl, ?_, hlen⟩
  cases hrest : (decodeInto {} emptyPromise).1 with
  | none => rfl
  | some rest =>
    have hroom := decodeInto_room hrest
    rw [hlen] at hroom
    exact absurd hroom (by decide)

end Rdm.SunRpcXdr
