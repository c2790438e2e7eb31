import Rdm.Core.ProductStore
import Rdm.Lib.Transitions
import Mathlib.Logic.Function.Basic

/-!
# Waiting for data

Producers commit and call `notifyReaders`, which increments a version under a mutex and signals. A reader waits as long
as the version is the same as before its scan.
-/

namespace Rdm

open Function (update update_of_ne update_self)

/-! ## The processes -/

def EINTR : Int := 4
def ETIMEDOUT : Int := 110

/-- Where a producer is in `notifyReaders` for a product that it has committed. -/
inductive Producer where
  | idle
  | committed (product : Nat)
  | locked (product : Nat)
  | broadcast (product : Nat)
deriving DecidableEq

def Producer.product : Producer → Option Nat
  | .idle => none
  | .committed k | .locked k | .broadcast k => some k

/-- Where a reader is. It reads the version (`again`: twice), calls the cursor, and is at the end of the queue or in
`ProcessNotifier::Wait`, where it may also be woken without the mutex, or polling. -/
inductive ReaderAt where
  | reading (again : Bool)
  | top
  | scanning
  | atEnd
  | locking
  | testing
  | blocked
  | woken (status : Int)
  | polling
  | stopped
deriving DecidableEq

def ReaderAt.Scanned : ReaderAt → Prop
  | .reading _ | .top | .stopped => False
  | _ => True

def ReaderAt.Waits : ReaderAt → Prop
  | .locking | .testing | .blocked | .woken _ | .polling => True
  | _ => False

theorem ReaderAt.Waits.scanned : ∀ {pc : ReaderAt}, pc.Waits → pc.Scanned
  | .locking, _ | .testing, _ | .blocked, _ | .woken _, _ | .polling, _ => trivial

inductive Loop where
  | streamProducts
  | queueApp
deriving DecidableEq

/-- A reader and the version that it has read. Noted are the number of notifications when that version was current, and
the number of products when its last cursor call started. -/
structure Reader where
  pc : ReaderAt := .reading false
  lastSeen : UInt64 := 0
  readAt : Nat := 0
  scanStart : Nat := 0

inductive MutexOwner (P : Type) where
  | producer (p : P)
  | reader
deriving DecidableEq

/-- The shared state, the producers `P` and the reader. Noted are the products whose notification has incremented the
version, in this order, and those whose notification is complete. -/
structure Notifier (P : Type) where
  version : UInt64 := 0
  mutex : Option (MutexOwner P) := none
  products : Nat := 0
  producer : P → Producer := fun _ => .idle
  reader : Reader := {}
  notified : List Nat := []
  completed : List Nat := []

namespace Notifier

variable {P : Type} {x y : Notifier P} {pc : ReaderAt} {p : P} {k : Nat}

inductive Scan where
  | retry
  | atEnd
  | product
  | failure

def Scan.after : Scan → ReaderAt
  | .retry => .top
  | .atEnd => .atEnd
  | .product => .reading false
  | .failure => .stopped

/-- The atomic actions, with what the system decides as arguments. -/
inductive Act (P : Type) where
  | commit (p : P)
  | lock (p : P)
  | increment (p : P)
  | unlock (p : P)
  | getVersion (mapped : Bool)
  | startScan
  | endScan (result : Scan)
  | skipWait
  | enterWait (mapped : Bool)
  | lockMutex (status : Int)
  | test (isDone : Bool)
  | wake (status : Int)
  | relock
  | poll (isDone timedOut : Bool)
  | stop

def goto (pc : ReaderAt) (x : Notifier P) : Notifier P := { x with reader := { x.reader with pc := pc } }

def leave (pc : ReaderAt) (x : Notifier P) : Notifier P := { x.goto pc with mutex := none }

def afterWait (loop : Loop) (status : Int) : ReaderAt := .reading (loop = .streamProducts && status ≠ 0)

def next [DecidableEq P] (loop : Loop) (readOnly : Bool) : Act P → Notifier P → Option (Notifier P)
  | .commit p, x =>
    if x.producer p = .idle then
      some { x with products := x.products + 1, producer := Function.update x.producer p (.committed x.products) }
    else none
  | .lock p, x =>
    match x.producer p, x.mutex with
    | .committed k, none =>
      some { x with mutex := some (.producer p), producer := Function.update x.producer p (.locked k) }
    | _, _ => none
  | .increment p, x =>
    match x.producer p with
    | .locked k => some { x with
        version := x.version + 1
        notified := x.notified ++ [k]
        producer := Function.update x.producer p (.broadcast k) }
    | _ => none
  | .unlock p, x =>
    match x.producer p with
    | .broadcast k =>
      some { x with mutex := none, completed := x.completed ++ [k], producer := Function.update x.producer p .idle }
    | _ => none
  | .getVersion mapped, x =>
    match x.reader.pc with
    | .reading again =>
      let pc := if again then .reading false else .top
      -- `getDataVersion` is 0 if the control region cannot be mapped
      let (version, readAt) := if mapped then (x.version, x.notified.length) else (0, 0)
      some { x with reader := { x.reader with pc := pc, lastSeen := version, readAt := readAt } }
    | _ => none
  | .startScan, x =>
    if x.reader.pc = .top then some { x with reader := { x.reader with pc := .scanning, scanStart := x.products } }
      else none
  | .endScan result, x =>
    if x.reader.pc = .scanning then some (x.goto result.after) else none
  | .skipWait, x => if x.reader.pc = .atEnd ∧ loop = .streamProducts then some (x.goto .top) else none
  | .enterWait mapped, x =>
    if x.reader.pc = .atEnd then
      some (x.goto (if mapped = false then afterWait loop EINVAL else if readOnly then .polling else .locking))
    else none
  | .lockMutex status, x =>
    if x.reader.pc = .locking then
      if status ≠ 0 then some (x.goto (afterWait loop status))
      else if x.mutex = none then some { x.goto .testing with mutex := some .reader }
      else none
    else none
  | .test isDone, x =>
    if x.reader.pc = .testing then
      if x.version ≠ x.reader.lastSeen then some (x.leave (afterWait loop 0))
      else if isDone then some (x.leave (afterWait loop EINTR))
      else some (x.leave .blocked)
    else none
  -- a broadcast wakes the reader, but it may wake at any time as well
  | .wake status, x => if x.reader.pc = .blocked then some (x.goto (.woken status)) else none
  | .relock, x =>
    match x.reader.pc, x.mutex with
    | .woken status, none =>
      if status = 0 then some { x.goto .testing with mutex := some .reader } else some (x.goto (afterWait loop status))
    | _, _ => none
  | .poll isDone timedOut, x =>
    if x.reader.pc = .polling then
      if x.version ≠ x.reader.lastSeen then some (x.goto (afterWait loop 0))
      else if isDone then some (x.goto (afterWait loop EINTR))
      else if timedOut then some (x.goto (afterWait loop ETIMEDOUT))
      else some x
    else none
  | .stop, x => if x.reader.pc = .top ∨ x.reader.pc = .atEnd then some (x.goto .stopped) else none

/-! ## The invariant -/

/-- **The invariant**: the version counts the notifications, and a reader that has started to scan since it read the
version has seen all products that were announced then. -/
structure Inv (x : Notifier P) : Prop where
  version : x.version = UInt64.ofNat x.notified.length
  lastSeen : x.reader.lastSeen = UInt64.ofNat x.reader.readAt
  readAt : x.reader.readAt ≤ x.notified.length
  producer : ∀ p k, (x.producer p).product = some k → k < x.products
  notified : ∀ k ∈ x.notified, k < x.products
  broadcast : ∀ p k, x.producer p = .broadcast k → k ∈ x.notified
  completed : ∀ k ∈ x.completed, k ∈ x.notified
  scanned : x.reader.pc.Scanned → ∀ k ∈ x.notified.take x.reader.readAt, k < x.reader.scanStart

theorem Inv.new : Inv ({} : Notifier P) :=
  ⟨rfl, rfl, Nat.le_refl _, nofun, nofun, nofun, nofun, nofun⟩

theorem Inv.mutex (h : Inv x) (m : Option (MutexOwner P)) : Inv { x with mutex := m } :=
  ⟨h.version, h.lastSeen, h.readAt, h.producer, h.notified, h.broadcast, h.completed, h.scanned⟩

theorem Inv.goto (h : Inv x) (hpc : pc.Scanned → x.reader.pc.Scanned) : Inv (x.goto pc) :=
  ⟨h.version, h.lastSeen, h.readAt, h.producer, h.notified, h.broadcast, h.completed, fun hs => h.scanned (hpc hs)⟩

theorem Inv.afterWait (h : Inv x) (loop : Loop) (status : Int) : Inv (x.goto (afterWait loop status)) :=
  h.goto fun hs => hs.elim

theorem Inv.startScan (h : Inv x) :
    Inv { x with reader := { x.reader with pc := .scanning, scanStart := x.products } } :=
  ⟨h.version, h.lastSeen, h.readAt, h.producer, h.notified, h.broadcast, h.completed,
    fun _ k hk => h.notified k (List.mem_of_mem_take hk)⟩

theorem Inv.getVersion (h : Inv x) (hpc : ¬ pc.Scanned) (mapped : Bool) : Inv { x with reader := { x.reader with
    pc := pc
    lastSeen := (if mapped then (x.version, x.notified.length) else (0, 0)).1
    readAt := (if mapped then (x.version, x.notified.length) else (0, 0)).2 } } := by
  refine ⟨h.version, ?_, ?_, h.producer, h.notified, h.broadcast, h.completed, fun hs => absurd hs hpc⟩
  · cases mapped with
    | true => exact h.version
    | false => rfl
  · cases mapped with
    | true => exact Nat.le_refl _
    | false => exact Nat.zero_le _

variable [DecidableEq P] {readOnly : Bool} {loop : Loop}

theorem product_update {f : P → Producer} {s : Producer} {q : P} (h : (update f p s q).product = some k) :
    s.product = some k ∨ (f q).product = some k := by
  by_cases hq : q = p
  · subst hq
    rw [update_self] at h
    exact .inl h
  · rw [update_of_ne hq] at h
    exact .inr h

theorem broadcast_update {f : P → Producer} {s : Producer} {q : P} (h : update f p s q = .broadcast k) :
    s = .broadcast k ∨ f q = .broadcast k := by
  by_cases hq : q = p
  · subst hq
    rw [update_self] at h
    exact .inl h
  · rw [update_of_ne hq] at h
    exact .inr h

theorem Inv.commit (h : Inv x) :
    Inv { x with products := x.products + 1, producer := update x.producer p (.committed x.products) } := by
  refine ⟨h.version, h.lastSeen, h.readAt, fun q k hk => ?_, fun k hk => Nat.lt_succ_of_lt (h.notified k hk),
    fun q k hk => ?_, h.completed, h.scanned⟩
  · rcases product_update hk with hk | hk
    · cases hk
      exact Nat.lt_succ_self _
    · exact Nat.lt_succ_of_lt (h.producer q k hk)
  · rcases broadcast_update hk with hk | hk
    · cases hk
    · exact h.broadcast q k hk

theorem Inv.lock (h : Inv x) (hp : x.producer p = .committed k) :
    Inv { x with mutex := some (.producer p), producer := update x.producer p (.locked k) } := by
  refine ⟨h.version, h.lastSeen, h.readAt, fun q k' hk => ?_, h.notified, fun q k' hk => ?_, h.completed, h.scanned⟩
  · rcases product_update hk with hk | hk
    · exact h.producer p k' (by rw [hp]; exact hk)
    · exact h.producer q k' hk
  · rcases broadcast_update hk with hk | hk
    · cases hk
    · exact h.broadcast q k' hk

theorem Inv.increment (h : Inv x) (hp : x.producer p = .locked k) : Inv { x with
    version := x.version + 1
    notified := x.notified ++ [k]
    producer := update x.producer p (.broadcast k) } := by
  have hk : k < x.products := h.producer p k (by rw [hp]; rfl)
  refine ⟨?_, h.lastSeen, ?_, fun q k' hk' => ?_, fun k' hk' => ?_, fun q k' hk' => ?_,
    fun k' hk' => List.mem_append_left _ (h.completed k' hk'), fun hs => ?_⟩
  · rw [h.version, List.length_append, UInt64.ofNat_add]
    rfl
  · rw [List.length_append]
    exact Nat.le_add_right_of_le h.readAt
  · rcases product_update hk' with hk' | hk'
    · cases hk'
      exact hk
    · exact h.producer q k' hk'
  · rcases List.mem_append.1 hk' with hk' | hk'
    · exact h.notified k' hk'
    · rw [List.mem_singleton.1 hk']
      exact hk
  · rcases broadcast_update hk' with hk' | hk'
    · cases hk'
      exact List.mem_append_right _ (List.mem_singleton.2 rfl)
    · exact List.mem_append_left _ (h.broadcast q k' hk')
  · dsimp only
    rw [List.take_append_of_le_length h.readAt]
    exact h.scanned hs

theorem Inv.unlock (h : Inv x) (hp : x.producer p = .broadcast k) :
    Inv { x with mutex := none, completed := x.completed ++ [k], producer := update x.producer p .idle } := by
  refine ⟨h.version, h.lastSeen, h.readAt, fun q k' hk => ?_, h.notified, fun q k' hk => ?_, fun k' hk => ?_, h.scanned⟩
  · rcases product_update hk with hk | hk
    · cases hk
    · exact h.producer q k' hk
  · rcases broadcast_update hk with hk | hk
    · cases hk
    · exact h.broadcast q k' hk
  · rcases List.mem_append.1 hk with hk | hk
    · exact h.completed k' hk
    · rw [List.mem_singleton.1 hk]
      exact h.broadcast p k hp

theorem Inv.lockMutex (h : Inv x) {status : Int} (hn : next loop readOnly (.lockMutex status) x = some y) : Inv y := by
  obtain ⟨hpc, hn⟩ := Option.ite_none_right_eq_some.1 hn
  split at hn
  · cases hn
    exact h.afterWait loop status
  · obtain ⟨-, ⟨⟩⟩ := Option.ite_none_right_eq_some.1 hn
    exact (h.goto fun _ => by rw [hpc]; trivial).mutex _

theorem Inv.test (h : Inv x) {isDone : Bool} (hn : next loop readOnly (.test isDone) x = some y) : Inv y := by
  obtain ⟨hpc, hn⟩ := Option.ite_none_right_eq_some.1 hn
  split_ifs at hn
  · cases hn
    exact (h.afterWait loop 0).mutex none
  · cases hn
    exact (h.afterWait loop EINTR).mutex none
  · cases hn
    exact (h.goto fun _ => by rw [hpc]; trivial).mutex none

theorem Inv.relock (h : Inv x) (hn : next loop readOnly .relock x = some y) : Inv y := by
  rw [Notifier.next] at hn
  split at hn
  · next hpc _ =>
    split at hn
    · cases hn
      exact (h.goto fun _ => by rw [hpc]; trivial).mutex _
    · cases hn
      exact h.afterWait loop _
  · cases hn

theorem Inv.poll (h : Inv x) {isDone timedOut : Bool} (hn : next loop readOnly (.poll isDone timedOut) x = some y) :
    Inv y := by
  obtain ⟨-, hn⟩ := Option.ite_none_right_eq_some.1 hn
  split_ifs at hn
  · cases hn
    exact h.afterWait loop 0
  · cases hn
    exact h.afterWait loop EINTR
  · cases hn
    exact h.afterWait loop ETIMEDOUT
  · cases hn
    exact h

/-- **One action** keeps the invariant. -/
theorem Inv.next (h : Inv x) {a : Act P} (hn : next loop readOnly a x = some y) : Inv y := by
  cases a with
  | commit p =>
    obtain ⟨-, ⟨⟩⟩ := Option.ite_none_right_eq_some.1 hn
    exact h.commit
  | lock p =>
    rw [Notifier.next] at hn
    split at hn
    · next hp _ =>
      cases hn
      exact h.lock hp
    · cases hn
  | increment p =>
    rw [Notifier.next] at hn
    split at hn
    · next hp =>
      cases hn
      exact h.increment hp
    · cases hn
  | unlock p =>
    rw [Notifier.next] at hn
    split at hn
    · next hp =>
      cases hn
      exact h.unlock hp
    · cases hn
  | getVersion mapped =>
    rw [Notifier.next] at hn
    split at hn
    · next again _ =>
      cases hn
      refine h.getVersion ?_ mapped
      cases again
      all_goals exact id
    · cases hn
  | startScan =>
    obtain ⟨-, ⟨⟩⟩ := Option.ite_none_right_eq_some.1 hn
    exact h.startScan
  | endScan result =>
    obtain ⟨hpc, ⟨⟩⟩ := Option.ite_none_right_eq_some.1 hn
    exact h.goto fun _ => by rw [hpc]; trivial
  | skipWait =>
    obtain ⟨-, ⟨⟩⟩ := Option.ite_none_right_eq_some.1 hn
    exact h.goto fun hs => hs.elim
  | enterWait mapped =>
    obtain ⟨hpc, ⟨⟩⟩ := Option.ite_none_right_eq_some.1 hn
    exact h.goto fun _ => by rw [hpc]; trivial
  | lockMutex status => exact h.lockMutex hn
  | test isDone => exact h.test hn
  | wake status =>
    obtain ⟨hpc, ⟨⟩⟩ := Option.ite_none_right_eq_some.1 hn
    exact h.goto fun _ => by rw [hpc]; trivial
  | relock => exact h.relock hn
  | poll isDone timedOut => exact h.poll hn
  | stop =>
    obtain ⟨-, ⟨⟩⟩ := Option.ite_none_right_eq_some.1 hn
    exact h.goto fun hs => hs.elim

/-! ## No wake-up is lost -/

def Reached (loop : Loop) (readOnly : Bool) : Notifier P → Prop :=
  Transitions.Reached (next loop readOnly) (fun _ _ => True) (· = {})

theorem Reached.inv (h : Reached loop readOnly x) : Inv x := by
  refine Transitions.Reached.invariant h ?_ ?_
  · intro x hx
    rw [hx]
    exact Inv.new
  · intro x a y hi _ hn
    exact hi.next hn

/-- **No wake-up is lost**: a reader in `Wait` that sees the version which it has read, fewer than 2⁶⁴ notifications
ago, has started its last cursor call after the commit of every product whose notification is complete. -/
theorem no_lost_wakeup (P : Type) [DecidableEq P] (loop : Loop) (readOnly : Bool) {x : Notifier P}
    (h : Reached loop readOnly x) (hw : x.reader.pc.Waits) (hv : x.version = x.reader.lastSeen)
    (hfew : x.notified.length < x.reader.readAt + 2 ^ 64) : ∀ k ∈ x.completed, k < x.reader.scanStart := by
  have hi := h.inv
  have hmod : x.notified.length % 2 ^ 64 = x.reader.readAt % 2 ^ 64 := by
    have he := hi.version.symm.trans (hv.trans hi.lastSeen)
    simpa using congrArg UInt64.toNat he
  have heq : x.reader.readAt = x.notified.length := by
    have hle := hi.readAt
    omega
  intro k hk
  have hall := hi.scanned hw.scanned
  rw [heq, List.take_length] at hall
  exact hall k (hi.completed k hk)

/-- A product is announced, sent, and the reader waits for the next one. -/
theorem no_lost_wakeup_blocked : ∃ x : Notifier Unit, Reached .streamProducts false x ∧ x.reader.pc.Waits ∧
    x.version = x.reader.lastSeen ∧ x.notified.length < x.reader.readAt + 2 ^ 64 ∧ x.completed = [0] ∧
    ∀ k ∈ x.completed, k < x.reader.scanStart := by
  obtain ⟨x, hx, hpc, hsame, hfew, hc⟩ : ∃ x, Transitions.run (next .streamProducts false) [.commit (), .lock (),
      .increment (), .unlock (), .getVersion true, .startScan, .endScan .product, .getVersion true, .startScan,
      .endScan .atEnd, .enterWait true, .lockMutex 0, .test false] ({} : Notifier Unit) = some x ∧
      x.reader.pc = .blocked ∧
      x.version = x.reader.lastSeen ∧ x.notified.length < x.reader.readAt + 2 ^ 64 ∧ x.completed = [0] := by
    decide +kernel
  have hreach : Reached .streamProducts false x := Transitions.run_reached (fun _ _ => trivial) (.start rfl) hx
  have hw : x.reader.pc.Waits := by
    rw [hpc]
    trivial
  exact ⟨x, hreach, hw, hsame, hfew, hc, no_lost_wakeup Unit _ _ hreach hw hsame hfew⟩

def announced (p : P) (x : Notifier P) : Notifier P where
  version := x.version + 1
  mutex := none
  products := x.products + 1
  producer := Function.update x.producer p .idle
  reader := x.reader
  notified := x.notified ++ [x.products]
  completed := x.completed ++ [x.products]

theorem Reached.announced (h : Reached loop readOnly x) (hp : x.producer p = .idle)
    (hm : x.mutex = none) : Reached loop readOnly (x.announced p) := by
  have hrun : Transitions.run (next loop readOnly) [.commit p, .lock p, .increment p, .unlock p] x =
    some (x.announced p) := by
    simp [Transitions.run, next, hp, hm, Notifier.announced]
  exact Transitions.run_reached (fun _ _ => trivial) h hrun

theorem Reached.announce (h : Reached loop readOnly x) (hp : x.producer p = .idle)
    (hm : x.mutex = none) : ∀ n, ∃ y : Notifier P, Reached loop readOnly y ∧ y.reader = x.reader ∧ y.mutex = none ∧
      y.producer p = .idle ∧ y.version = x.version + UInt64.ofNat n ∧ y.products = x.products + n ∧
      (0 < n → x.products ∈ y.completed)
  | 0 => ⟨x, h, rfl, hm, hp, by simp, rfl, nofun⟩
  | n + 1 => by
    obtain ⟨y, hy, hr, hm', hp', hv, hn, hc⟩ := Reached.announce h hp hm n
    refine ⟨y.announced p, hy.announced hp' hm', hr, rfl, update_self _ _ _, ?_, ?_, fun _ => ?_⟩
    · show y.version + 1 = _
      rw [hv, UInt64.ofNat_add, UInt64.add_assoc]
      rfl
    · show y.products + 1 = _
      rw [hn, Nat.add_assoc]
    · cases n with
      | zero => exact List.mem_append_right _ (List.mem_singleton.2 hn.symm)
      | succ n => exact List.mem_append_left _ (hc (Nat.succ_pos n))

/-- After 2⁶⁴ notifications the version is the one that the reader has read, and it waits although products were
announced after its scan. -/
theorem wakeup_lost : ∃ x : Notifier Unit, Reached .streamProducts false x ∧ x.reader.pc = .blocked ∧
    x.version = x.reader.lastSeen ∧ ∃ k ∈ x.completed, ¬ k < x.reader.scanStart := by
  have hrun : Transitions.run (next .streamProducts false)
    [.getVersion true, .startScan, .endScan .atEnd, .enterWait true]
      ({} : Notifier Unit) = some { reader := { pc := .locking } } := rfl
  have hx : Reached .streamProducts false ({ reader := { pc := .locking } } : Notifier Unit) :=
    Transitions.run_reached (fun _ _ => trivial) (.start rfl) hrun
  obtain ⟨y, hy, hr, hm, -, hv, -, hc⟩ := hx.announce (p := ()) rfl rfl (2 ^ 64)
  have hversion : y.version = 0 := hv.trans (by decide)
  refine ⟨y.goto .blocked, ?_, rfl, ?_, 0, hc (by decide), ?_⟩
  · have hblock : Transitions.run (next .streamProducts false) [.lockMutex 0, .test false] y =
      some (y.goto .blocked) := by
      simp [Transitions.run, next, hr, hm, hversion, Notifier.goto, Notifier.leave]
    exact Transitions.run_reached (fun _ _ => trivial) hy hblock
  · show y.version = y.reader.lastSeen
    rw [hversion, hr]
  · show ¬ 0 < y.reader.scanStart
    rw [hr]
    exact Nat.lt_irrefl 0

end Notifier

end Rdm
