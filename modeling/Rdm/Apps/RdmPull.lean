import Rdm.Core.ProductStore
import Rdm.Lib.Transitions
import Mathlib.Order.Lattice

/-!
# The handler of a pull

`PullHandler` writes the packets of a product to its output and counts down the bytes that remain, without comparing the
size of a packet with them (`packet_too_large`).
-/

namespace Rdm

abbrev PacketData := { data : List UInt8 // data.length < 2 ^ 32 }

structure PullHandler where
  requestFullData : Bool
  remaining : UInt32 := 0
  signature : Signature := default
  arrival : Timestamp := ⟨0, 0⟩
  classFrom : Timestamp := ⟨0, 0⟩
  announced : UInt32 := 0
  output : List UInt8 := []
deriving DecidableEq

/-- What a peer makes of the handler; `accepted` is the answer of the system to a write, unless it fails. -/
inductive PullCall where
  | comingSoon (info : ProdInfo)
  | blkData (signature : Signature) (data : PacketData) (accepted : Option Nat)

namespace PullHandler

variable {h h' : PullHandler} {signature : Signature} {data : PacketData} {accepted : Option Nat}

def onComingSoon (info : ProdInfo) (h : PullHandler) : Int × PullHandler :=
  (0, { h with
    remaining := info.sz, signature := info.signature, arrival := info.arrival, announced := info.sz, output := [] })

def onBlkData (signature : Signature) (data : PacketData) (accepted : Option Nat) (h : PullHandler) :
    Int × PullHandler :=
  if h.signature ≠ signature then (EINVAL, h)
  else
    let remaining := h.remaining - UInt32.ofNat data.1.length
    -- the next request starts behind a product that is complete
    let classFrom := if remaining = 0 then h.arrival.incrementMicrosecond else h.classFrom
    let h := { h with remaining := remaining, classFrom := classFrom }
    if h.requestFullData then
      (if accepted = some data.1.length then 0 else -1, { h with output := h.output ++ data.1.take (accepted.getD 0) })
    else (0, h)

def call : PullCall → PullHandler → Int × PullHandler
  | .comingSoon info => onComingSoon info
  | .blkData signature data accepted => onBlkData signature data accepted

def Fits (h : PullHandler) : PullCall → Prop
  | .comingSoon _ => True
  | .blkData signature data _ => signature = h.signature → data.1.length ≤ h.remaining.toNat

def Within (h : PullHandler) : Prop := h.output.length + h.remaining.toNat ≤ h.announced.toNat

theorem onBlkData_other (hs : h.signature ≠ signature) : onBlkData signature data accepted h = (EINVAL, h) := if_pos hs

theorem onBlkData_fits (hs : h.signature = signature) (hfit : data.1.length ≤ h.remaining.toNat) :
    (onBlkData signature data accepted h).2.remaining.toNat = h.remaining.toNat - data.1.length
      ∧ (onBlkData signature data accepted h).2.announced = h.announced
      ∧ (onBlkData signature data accepted h).2.output.length ≤ h.output.length + data.1.length := by
  have hsub : (h.remaining - UInt32.ofNat data.1.length).toNat = h.remaining.toNat - data.1.length := by
    have hlen : (UInt32.ofNat data.1.length).toNat = data.1.length := UInt32.toNat_ofNat_of_lt' data.2
    rw [UInt32.toNat_sub_of_le _ _ (by rw [UInt32.le_iff_toNat_le, hlen]; exact hfit), hlen]
  rw [onBlkData, if_neg (not_not.2 hs)]
  cases hfull : h.requestFullData <;> simp [hsub]

theorem Within.call {c : PullCall} (hw : h.Within) (hfit : h.Fits c) : (PullHandler.call c h).2.Within := by
  cases c with
  | comingSoon info => simp [PullHandler.call, onComingSoon, Within]
  | blkData signature data accepted =>
    by_cases hs : h.signature = signature
    · obtain ⟨hrem, hann, hout⟩ := @onBlkData_fits h signature data accepted hs (hfit hs.symm)
      have hsize := hfit hs.symm
      simp only [Within, PullHandler.call, hrem, hann] at hw ⊢
      omega
    · rw [PullHandler.call, onBlkData_other hs]
      exact hw

abbrev Reached (full : Bool) : PullHandler → Prop :=
  Transitions.Reached (fun c h => some (call c h).2) Fits (· = { requestFullData := full })

/-- **The output keeps to what was announced** in every run whose packets fit, and a packet with more bytes than remain
changes nothing. -/
theorem output_within {full : Bool} (hr : Reached full h) : h.output.length ≤ h.announced.toNat
    ∧ (∀ signature data accepted, h.Fits (.blkData signature data accepted) →
      (h.signature = signature → (onBlkData signature data accepted h).2.remaining.toNat = h.remaining.toNat
      - data.1.length) ∧ (h.remaining.toNat < data.1.length → onBlkData signature data accepted h = (EINVAL, h))) := by
  have hw : h.Within := by
    apply hr.invariant
    · rintro _ rfl
      exact Nat.le_refl 0
    · intro x c y hx hfit hy
      cases hy
      exact hx.call hfit
  refine ⟨by unfold Within at hw; omega, fun signature data accepted hfit => ⟨fun hs => ?_, fun hlarge => ?_⟩⟩
  · exact (onBlkData_fits hs (hfit hs.symm)).1
  · apply onBlkData_other
    intro hs
    have hle : data.1.length ≤ h.remaining.toNat := hfit hs.symm
    omega

def announcedOne : PullHandler := (onComingSoon { sz := 1 } { requestFullData := true }).2

theorem output_within_one : Reached true (onBlkData default ⟨[7], by decide⟩ (some 1) announcedOne).2
    ∧ (onBlkData default ⟨[7], by decide⟩ (some 1) announcedOne).2.output.length ≤ 1 := by
  have hr : Reached true (onBlkData default ⟨[7], by decide⟩ (some 1) announcedOne).2 :=
    .step (a := .blkData default ⟨[7], by decide⟩ (some 1))
      (.step (a := .comingSoon { sz := 1 }) (.start rfl) trivial rfl) (fun _ => by decide) rfl
  exact ⟨hr, (output_within hr).1⟩

theorem packet_too_large : (onBlkData default ⟨[7, 7], by decide⟩ (some 2) announcedOne).1 = 0
    ∧ (onBlkData default ⟨[7, 7], by decide⟩ (some 2) announcedOne).2.output.length = 2
    ∧ (onBlkData default ⟨[7, 7], by decide⟩ (some 2) announcedOne).2.announced = 1
    ∧ (onBlkData default ⟨[7, 7], by decide⟩ (some 2) announcedOne).2.remaining.toNat = 2 ^ 32 - 1 := by decide

end PullHandler

end Rdm
