import Rdm.Core.MathUtil
import Rdm.Core.ProdClass

/-!
# The table of upstream processes

A table in shared memory with one slot for each process that serves a downstream host. A call holds the write lock, so
the calls of all processes are a sequence.
-/

namespace Rdm

inductive UldbStatus where
  | success
  | arg
  | init
  | exist
  | system
deriving DecidableEq

/-- What is read of a `sockaddr_storage`. -/
inductive SockAddr where
  | inet (addr : UInt32)
  | inet6 (addr : BitVec 128)
  | other (family : Nat)
deriving DecidableEq

def ipAddressesAreEqual : SockAddr → SockAddr → Bool
  | .inet a, .inet b => a = b
  | .inet6 a, .inet6 b => a = b
  | _, _ => false

theorem ipAddressesAreEqual_comm (a b : SockAddr) : ipAddressesAreEqual a b = ipAddressesAreEqual b a := by
  cases a <;> cases b <;> simp [ipAddressesAreEqual, eq_comm]

namespace Uldb

def MAX_SPECS_PER_ENTRY : Nat := 32

def MAX_PATTERN_LEN : Nat := 256

structure ShmProdClass where
  fromSec : Int
  fromUsec : Int
  toSec : Int
  toUsec : Int
  specs : List ProdSpec
  numSpecs : specs.length ≤ MAX_SPECS_PER_ENTRY
  terminated : ∀ spec ∈ specs, spec.pattern.length < MAX_PATTERN_LEN
deriving DecidableEq

structure ShmEntry where
  isActive : Bool
  pid : Int
  protoVers : Int
  isNotifier : Int
  isPrimary : Int
  sockAddr : SockAddr
  prodClass : ShmProdClass
deriving DecidableEq

def sizeofShmEntry : Nat := 8512

/-- The table: the header and as many slots as it says. -/
structure Table where
  maxEntries : Nat
  activeEntries : Nat
  entries : List ShmEntry
  slots : entries.length = maxEntries
deriving DecidableEq

def zeroEntry : ShmEntry := ⟨false, 0, 0, 0, 0, .other 0, ⟨0, 0, 0, 0, [], Nat.zero_le _, fun _ h => by cases h⟩⟩

def slotsFor (capacity : UInt32) : Nat :=
  if capacity.toNat / sizeofShmEntry = 0 then 100 else capacity.toNat / sizeofShmEntry

def create (capacity : UInt32) : Table :=
    ⟨slotsFor capacity, 0, .replicate (slotsFor capacity) zeroEntry, List.length_replicate⟩

def Table.rewrite (t : Table) (es : List ShmEntry) (n : Nat) (h : es.length = t.entries.length) : Table :=
  ⟨t.maxEntries, n, es, h.trans t.slots⟩

structure Request where
  pid : Int
  protoVers : Int
  sockAddr : SockAddr
  desired : ProdClass
  isNotifier : Int
  isPrimary : Int
deriving DecidableEq

def shmPattern (pattern : List UInt8) : List UInt8 := (pattern.takeWhile (· ≠ 0)).take (MAX_PATTERN_LEN - 1)

def shmProdClass (c : ProdClass) : ShmProdClass where
  fromSec := c.fromSec
  fromUsec := c.fromUsec
  toSec := c.toSec
  toUsec := c.toUsec
  specs := (c.specs.take MAX_SPECS_PER_ENTRY).map fun spec => { spec with pattern := shmPattern spec.pattern }
  numSpecs := by
    rw [List.length_map]
    exact List.length_take_le _ _
  terminated := by
    intro spec hspec
    obtain ⟨spec, -, rfl⟩ := List.mem_map.1 hspec
    exact Nat.lt_succ_of_le (List.length_take_le _ _)

def newEntry (r : Request) : ShmEntry where
  isActive := true
  pid := r.pid
  protoVers := r.protoVers
  isNotifier := r.isNotifier
  isPrimary := r.isPrimary
  sockAddr := r.sockAddr
  prodClass := shmProdClass r.desired

def isRedundant (r : Request) (e : ShmEntry) : Bool :=
  r.protoVers = e.protoVers && ipAddressesAreEqual r.sockAddr e.sockAddr && r.isNotifier = 0 && e.isNotifier = 0

structure Scan where
  entries : List ShmEntry
  activeEntries : Nat
  terminated : List Int
  found : Bool

def Scan.past (e : ShmEntry) (s : Scan) : Scan := { s with entries := e :: s.entries }

def scan (r : Request) : List ShmEntry → Nat → Scan
  | [], n => ⟨[], n, [], false⟩
  | e :: es, n =>
    if e.isActive = false then (scan r es n).past e
    else if r.pid = e.pid then ⟨e :: es, n, [], true⟩
    else if isRedundant r e then
      let s := (scan r es (sizeSub n 1)).past { e with isActive := false }
      { s with terminated := e.pid :: s.terminated }
    else (scan r es n).past e

def fill (new : ShmEntry) : List ShmEntry → Option (List ShmEntry)
  | [] => none
  | e :: es => if e.isActive = false then some (new :: es) else (fill new es).map (e :: ·)

def drop (pid : Int) : List ShmEntry → Option (List ShmEntry)
  | [] => none
  | e :: es => if e.isActive ∧
    e.pid = pid then some ({ e with isActive := false } :: es) else (drop pid es).map (e :: ·)

theorem scan_length (r : Request) : ∀ (es : List ShmEntry) (n : Nat), (scan r es n).entries.length = es.length
  | [], _ => rfl
  | e :: es, n => by
    unfold scan
    split_ifs <;> simp [Scan.past, scan_length r es]

theorem fill_length {new : ShmEntry} : ∀ {es es' : List ShmEntry}, fill new es = some es' → es'.length = es.length
  | [], _, h => by cases h
  | e :: es, es', h => by
    unfold fill at h
    split_ifs at h
    · cases h
      rfl
    · obtain ⟨es1, h1, rfl⟩ := Option.map_eq_some_iff.1 h
      simp [fill_length h1]

theorem drop_length {pid : Int} : ∀ {es es' : List ShmEntry}, drop pid es = some es' → es'.length = es.length
  | [], _, h => by cases h
  | e :: es, es', h => by
    unfold drop at h
    split_ifs at h
    · cases h
      rfl
    · obtain ⟨es1, h1, rfl⟩ := Option.map_eq_some_iff.1 h
      simp [drop_length h1]

/-- The status of `AddProcess`, the class it allows (if it writes it), and the processes it sends SIGTERM. -/
structure Added where
  status : UldbStatus
  allowed : Option ProdClass
  terminated : List Int
deriving DecidableEq

def scanned (antiDos : Bool) (r : Request) (t : Table) : Scan :=
  if antiDos then scan r t.entries t.activeEntries else ⟨t.entries, t.activeEntries, [], false⟩

theorem scanned_length (antiDos : Bool) (r : Request) (t : Table) :
    (scanned antiDos r t).entries.length = t.entries.length := by
  unfold scanned
  split_ifs
  · exact scan_length r _ _
  · rfl

def cleared (antiDos : Bool) (r : Request) (t : Table) : Table :=
  t.rewrite (scanned antiDos r t).entries (scanned antiDos r t).activeEntries (scanned_length antiDos r t)

def place (r : Request) (t : Table) : UldbStatus × Table :=
  if r.desired.specs = [] then (.success, t)
  else
    match h : fill (newEntry r) t.entries with
    | none => (.system, t)
    | some es => (.success, t.rewrite es (sizeAdd t.activeEntries 1) (fill_length h))

def addProcess (antiDos locked : Bool) (r : Request) (t : Table) : Added × Table :=
  if r.pid ≤ 0 then (⟨.arg, none, []⟩, t)
  else if locked = false then (⟨.system, none, []⟩, t)
  else if (scanned antiDos r t).found then
    (⟨.exist, some r.desired, (scanned antiDos r t).terminated⟩, cleared antiDos r t)
  else
    (⟨(place r (cleared antiDos r t)).1, some r.desired, (scanned antiDos r t).terminated⟩,
      (place r (cleared antiDos r t)).2)

def remove (locked : Bool) (pid : Int) (t : Table) : UldbStatus × Table :=
  if pid ≤ 0 then (.arg, t)
  else if locked = false then (.system, t)
  else
    match h : drop pid t.entries with
    | none => (.exist, t)
    | some es => (.success, t.rewrite es (sizeSub t.activeEntries 1) (drop_length h))

def actives (es : List ShmEntry) : List ShmEntry := es.filter (·.isActive)

def getEntries (t : Table) : List ShmEntry := actives t.entries

/-! ## What the loops do to the slots in use -/

section Loops

variable {r : Request} {e new : ShmEntry} {es es' : List ShmEntry} {pid : Int}

theorem actives_cons_active (h : e.isActive = true) : actives (e :: es) = e :: actives es := List.filter_cons_of_pos h

theorem actives_cons_inactive (h : e.isActive = false) : actives (e :: es) = actives es :=
  List.filter_cons_of_neg (by simp [h])

theorem actives_length_le (es : List ShmEntry) : (actives es).length ≤ es.length := List.length_filter_le _ _

theorem scan_sublist (r : Request) : ∀ (es : List ShmEntry) (n : Nat), (actives (scan r es n).entries).Sublist
    (actives es)
  | [], _ => .slnil
  | e :: es, n => by
    unfold scan
    split_ifs with ha hp hr
    · simpa only [Scan.past, actives_cons_inactive ha] using scan_sublist r es n
    · exact .refl _
    · rw [actives_cons_active (Bool.of_not_eq_false ha)]
      exact (scan_sublist r es _).cons e
    · simpa only [Scan.past, actives_cons_active (Bool.of_not_eq_false ha)] using (scan_sublist r es n).cons_cons e

theorem scan_count (r : Request) : ∀ (es : List ShmEntry) (k : Nat), (actives es).length + k < 2 ^ 64 →
    (scan r es ((actives es).length + k)).activeEntries =
      (actives (scan r es ((actives es).length + k)).entries).length + k
  | [], k, _ => rfl
  | e :: es, k, hlt => by
    unfold scan
    split_ifs with ha hp hr
    · simpa only [Scan.past, actives_cons_inactive ha] using
        scan_count r es k (by simpa only [actives_cons_inactive ha] using hlt)
    · rfl
    · have ha' : actives (e :: es) = e :: actives es := actives_cons_active (Bool.of_not_eq_false ha)
      have hn : sizeSub ((actives (e :: es)).length + k) 1 = (actives es).length + k := by
        rw [ha', sizeSub_of_le (by simp only [List.length_cons]; omega)]
        simp only [List.length_cons]
        omega
      rw [hn]
      exact scan_count r es k (by rw [ha'] at hlt; simp only [List.length_cons] at hlt; omega)
    · have ha' : actives (e :: es) = e :: actives es := actives_cons_active (Bool.of_not_eq_false ha)
      have hn : (actives (e :: es)).length + k = (actives es).length + (k + 1) := by
        rw [ha', List.length_cons]
        omega
      rw [hn] at hlt ⊢
      have ih := scan_count r es (k + 1) hlt
      simp only [Scan.past, actives_cons_active (Bool.of_not_eq_false ha), List.length_cons]
      omega

theorem scan_clears (r : Request) : ∀ (es : List ShmEntry) (n : Nat), (scan r es n).found = false →
    ∀ e ∈ actives (scan r es n).entries, r.pid ≠ e.pid ∧ isRedundant r e = false
  | [], _, _, e, he => by cases he
  | e :: es, n, hf, e', he => by
    unfold scan at hf he
    split_ifs at hf he with ha hp hr
    · rw [Scan.past, actives_cons_inactive ha] at he
      exact scan_clears r es n hf e' he
    · exact scan_clears r es _ hf e' he
    · rw [Scan.past, actives_cons_active (Bool.of_not_eq_false ha)] at he
      rcases List.mem_cons.1 he with rfl | he
      · exact ⟨hp, Bool.of_not_eq_true hr⟩
      · exact scan_clears r es n hf e' he

theorem fill_perm (hnew : new.isActive = true) : ∀ {es es' : List ShmEntry}, fill new es = some es' →
    (actives es').Perm (new :: actives es)
  | [], _, h => by cases h
  | e :: es, es', h => by
    unfold fill at h
    split_ifs at h with ha
    · cases h
      rw [actives_cons_active hnew, actives_cons_inactive ha]
    · obtain ⟨es1, h1, rfl⟩ := Option.map_eq_some_iff.1 h
      have ha' := Bool.of_not_eq_false ha
      rw [actives_cons_active ha', actives_cons_active ha']
      exact ((fill_perm hnew h1).cons e).trans (.swap new e _)

theorem drop_perm : ∀ {es es' : List ShmEntry}, drop pid es = some es' →
    ∃ e, e.pid = pid ∧ (e :: actives es').Perm (actives es)
  | [], _, h => by cases h
  | e :: es, es', h => by
    unfold drop at h
    split_ifs at h with ha
    · cases h
      exact ⟨e, ha.2, by rw [actives_cons_active ha.1]; exact .refl _⟩
    · obtain ⟨es1, h1, rfl⟩ := Option.map_eq_some_iff.1 h
      obtain ⟨x, hx, hp⟩ := drop_perm h1
      refine ⟨x, hx, ?_⟩
      cases he : e.isActive with
      | false =>
        rw [actives_cons_inactive he, actives_cons_inactive he]
        exact hp
      | true =>
        rw [actives_cons_active he, actives_cons_active he]
        exact (List.Perm.swap e x _).trans (hp.cons e)

end Loops

/-! ## The invariant -/

structure Counted (t : Table) : Prop where
  count : t.activeEntries = (actives t.entries).length
  small : t.maxEntries < 2 ^ 32

def Apart (a b : ShmEntry) : Prop :=
  a.pid ≠ b.pid ∧ (a.isNotifier = 0 → b.isNotifier = 0 → a.protoVers = b.protoVers →
    ipAddressesAreEqual a.sockAddr b.sockAddr = false)

def Distinct (t : Table) : Prop := (actives t.entries).Pairwise Apart

theorem Apart.symm {a b : ShmEntry} (h : Apart a b) : Apart b a :=
  ⟨h.1.symm, fun hb ha hv => by rw [ipAddressesAreEqual_comm]; exact h.2 ha hb hv.symm⟩

theorem apart_newEntry {r : Request} {e : ShmEntry} (hpid : r.pid ≠ e.pid) (hr : isRedundant r e = false) :
    Apart (newEntry r) e := by
  refine ⟨hpid, fun (hn : r.isNotifier = 0) he (hv : r.protoVers = e.protoVers) => ?_⟩
  have hne : ¬ipAddressesAreEqual r.sockAddr e.sockAddr = true := by simpa [isRedundant, hn, he, hv] using hr
  exact Bool.of_not_eq_true hne

/-! ## The calls -/

section Calls

variable {t : Table} {r : Request} {antiDos locked : Bool} {pid : Int}

theorem Counted.le_max (h : Counted t) : t.activeEntries ≤ t.maxEntries := by
  rw [h.count, ← t.slots]
  exact actives_length_le _

theorem create_counted (capacity : UInt32) : Counted (create capacity) where
  count := by simp [create, actives, zeroEntry]
  small := by
    have h := capacity.toNat_lt
    show slotsFor capacity < 2 ^ 32
    unfold slotsFor sizeofShmEntry
    split_ifs <;> omega

theorem create_distinct (capacity : UInt32) : Distinct (create capacity) := by
  simp [Distinct, create, actives, zeroEntry]

theorem Counted.cleared (h : Counted t) (antiDos : Bool) (r : Request) : Counted (cleared antiDos r t) := by
  refine ⟨?_, h.small⟩
  have hlt : (actives t.entries).length < 2 ^ 64 := by
    have hle := h.le_max
    have hsmall := h.small
    rw [← h.count]
    omega
  simp only [Uldb.cleared, Table.rewrite, scanned]
  split_ifs
  · rw [h.count]
    exact scan_count r t.entries 0 hlt
  · exact h.count

theorem Counted.place (h : Counted t) (r : Request) : Counted (place r t).2 := by
  unfold Uldb.place
  split_ifs
  · exact h
  · split
    · exact h
    next es hes =>
      refine ⟨?_, h.small⟩
      have hlen : (actives es).length = t.activeEntries + 1 := by
        rw [(fill_perm rfl hes).length_eq, List.length_cons, h.count]
      have hle : (actives es).length ≤ t.maxEntries := by
        rw [← t.slots, ← fill_length hes]
        exact actives_length_le _
      have hsmall := h.small
      simp only [Table.rewrite, sizeAdd]
      rw [hlen, Nat.mod_eq_of_lt (by omega)]

/-- **AddProcess keeps the count.** -/
theorem Counted.addProcess (h : Counted t) (antiDos locked : Bool) (r : Request) :
    Counted (addProcess antiDos locked r t).2 := by
  unfold Uldb.addProcess
  split_ifs
  · exact h
  · exact h
  · exact h.cleared antiDos r
  · exact (h.cleared antiDos r).place r

theorem Distinct.cleared (h : Distinct t) (r : Request) : Distinct (cleared true r t) :=
  List.Pairwise.sublist (scan_sublist r t.entries t.activeEntries) h

theorem Distinct.place (h : Distinct t) {r : Request} (hr : ∀ e ∈ actives t.entries, Apart (newEntry r) e) :
    Distinct (place r t).2 := by
  unfold Uldb.place
  split_ifs
  · exact h
  · split
    · exact h
    next es hes =>
      have hp : (actives es).Perm (newEntry r :: actives t.entries) := fill_perm rfl hes
      exact (hp.pairwise_iff Apart.symm).2 (List.pairwise_cons.2 ⟨hr, h⟩)

/-- **With the scan, AddProcess keeps the processes distinct**, wherever it returns. -/
theorem Distinct.addProcess (h : Distinct t) (locked : Bool) (r : Request) :
    Distinct (addProcess true locked r t).2 := by
  unfold Uldb.addProcess
  split_ifs with _ _ hf
  · exact h
  · exact h
  · exact h.cleared r
  · refine (h.cleared r).place fun e he => ?_
    obtain ⟨hpid, hr⟩ := scan_clears r t.entries t.activeEntries (Bool.of_not_eq_true hf) e he
    exact apart_newEntry hpid hr

/-- **Remove keeps the count.** -/
theorem Counted.remove (h : Counted t) (locked : Bool) (pid : Int) : Counted (remove locked pid t).2 := by
  unfold Uldb.remove
  split_ifs
  · exact h
  · exact h
  · split
    · exact h
    next es hes =>
      obtain ⟨e, -, hp⟩ := drop_perm hes
      have hlen := hp.length_eq
      refine ⟨?_, h.small⟩
      simp only [Table.rewrite, List.length_cons] at hlen ⊢
      rw [h.count, ← hlen, sizeSub_of_le (Nat.le_add_left 1 _)]
      rfl

/-- **Remove keeps the processes distinct.** -/
theorem Distinct.remove (h : Distinct t) (locked : Bool) (pid : Int) : Distinct (remove locked pid t).2 := by
  unfold Uldb.remove
  split_ifs
  · exact h
  · exact h
  · split
    · exact h
    next es hes =>
      obtain ⟨e, -, hp⟩ := drop_perm hes
      exact (List.pairwise_cons.1 ((hp.pairwise_iff Apart.symm).2 h)).2

end Calls

/-! ## Runs -/

/-- A call of some process, with what the registry and the lock answer. -/
inductive Call where
  | addProcess (antiDos locked : Bool) (r : Request)
  | remove (locked : Bool) (pid : Int)

def Call.next (t : Table) : Call → Table
  | .addProcess antiDos locked r => (Uldb.addProcess antiDos locked r t).2
  | .remove locked pid => (Uldb.remove locked pid t).2

def Call.AntiDos : Call → Prop
  | .addProcess antiDos _ _ => antiDos = true
  | .remove _ _ => True

def run (capacity : UInt32) (calls : List Call) : Table := calls.foldl Call.next (create capacity)

theorem Counted.next {t : Table} (h : Counted t) : ∀ c : Call, Counted (c.next t)
  | .addProcess antiDos locked r => h.addProcess antiDos locked r
  | .remove locked pid => h.remove locked pid

theorem Distinct.next {t : Table} (h : Distinct t) : ∀ {c : Call}, c.AntiDos → Distinct (c.next t)
  | .addProcess _ locked r, hc => by
    cases hc
    exact h.addProcess locked r
  | .remove locked pid, _ => h.remove locked pid

theorem Counted.calls : ∀ (calls : List Call) {t : Table}, Counted t → Counted (calls.foldl Call.next t)
  | [], _, h => h
  | c :: calls, _, h => (h.next c).calls calls

theorem Distinct.calls : ∀ {calls : List Call} {t : Table}, Distinct t → (∀ c ∈ calls, c.AntiDos) →
    Distinct (calls.foldl Call.next t)
  | [], _, h, _ => h
  | _ :: _, _, h, hc => by
    obtain ⟨hc, hcs⟩ := List.forall_mem_cons.1 hc
    exact (h.next hc).calls hcs

/-- **The invariant of the table**: after any calls, the header counts the slots in use and they fit the table; if the
registry asked for the scan all along, the processes in use are distinct. -/
theorem table_after_calls (capacity : UInt32) (calls : List Call) :
    (run capacity calls).activeEntries = ((run capacity calls).entries.filter (·.isActive)).length ∧
      (run capacity calls).activeEntries ≤ (run capacity calls).maxEntries ∧
      ((∀ c ∈ calls, c.AntiDos) → ((run capacity calls).entries.filter (·.isActive)).Pairwise fun a b =>
        a.pid ≠ b.pid ∧ (a.isNotifier = 0 → b.isNotifier = 0 → a.protoVers = b.protoVers →
          ipAddressesAreEqual a.sockAddr b.sockAddr = false)) := by
  have h : Counted (run capacity calls) := (create_counted capacity).calls calls
  exact ⟨h.count, h.le_max, fun hc => (create_distinct capacity).calls hc⟩

/-- A second process for the same host takes the place of the first. -/
example : (getEntries (run 20000 [.addProcess true true ⟨10, 6, .inet 7, { specs := [{}] }, 0, 0⟩,
    .addProcess true true ⟨11, 6, .inet 7, { specs := [{}] }, 0, 0⟩])).map ShmEntry.pid = [11] := by decide

end Uldb

end Rdm
