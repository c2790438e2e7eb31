import Rdm.Core.Uldb

/-!
# Calls that fail, and how many processes fit

An `AddProcess` that fails may have ended another process before (`duplicate_ends_another`). The server counts one
kilobyte for a slot that takes more than eight (`clients_fit`).
-/

namespace Rdm.Uldb

open List

section Scans

variable {r : Request} {e new : ShmEntry} {es : List ShmEntry}

theorem scan_found (r : Request) : ∀ (es : List ShmEntry) (n : Nat), (scan r es n).found = (actives es).any
    (·.pid = r.pid)
  | [], _ => rfl
  | e :: es, n => by
    unfold scan
    split_ifs with ha hp hr
    · rw [actives_cons_inactive ha]
      exact scan_found r es n
    · rw [actives_cons_active (Bool.of_not_eq_false ha), any_cons]
      simp [hp]
    · rw [actives_cons_active (Bool.of_not_eq_false ha), any_cons, decide_eq_false fun h => hp h.symm, Bool.false_or]
      exact scan_found r es _
    · rw [actives_cons_active (Bool.of_not_eq_false ha), any_cons, decide_eq_false fun h => hp h.symm, Bool.false_or]
      exact scan_found r es n

theorem scan_idle (r : Request) : ∀ (es : List ShmEntry) (n : Nat),
    (∀ e ∈ (actives es).takeWhile (·.pid ≠ r.pid), isRedundant r e = false) →
      scan r es n = ⟨es, n, [], (scan r es n).found⟩
  | [], _, _ => rfl
  | e :: es, n, h => by
    unfold scan
    split_ifs with ha hp hr
    · rw [actives_cons_inactive ha] at h
      rw [scan_idle r es n h]
      rfl
    · rfl
    · rw [actives_cons_active (Bool.of_not_eq_false ha), takeWhile_cons_of_pos (by simpa using fun h => hp h.symm)] at h
      rw [h e mem_cons_self] at hr
      cases hr
    · rw [actives_cons_active (Bool.of_not_eq_false ha), takeWhile_cons_of_pos (by simpa using fun h => hp h.symm)] at h
      rw [scan_idle r es n fun e' he' => h e' (mem_cons_of_mem _ he')]
      rfl

theorem scan_terminated (r : Request) : ∀ (es : List ShmEntry) (n : Nat), (scan r es n).terminated = [] →
    ∀ e ∈ (actives es).takeWhile (·.pid ≠ r.pid), isRedundant r e = false
  | [], _, _ => fun e he => absurd he not_mem_nil
  | e :: es, n, h => by
    unfold scan at h
    split_ifs at h with ha hp hr
    · rw [actives_cons_inactive ha]
      exact scan_terminated r es n h
    · rw [actives_cons_active (Bool.of_not_eq_false ha), takeWhile_cons_of_neg (by simp [hp])]
      exact fun e he => absurd he not_mem_nil
    · rw [actives_cons_active (Bool.of_not_eq_false ha), takeWhile_cons_of_pos (by simpa using fun h => hp h.symm)]
      intro e' he'
      rcases mem_cons.1 he' with rfl | he'
      · exact Bool.eq_false_of_not_eq_true hr
      · exact scan_terminated r es n h e' he'

theorem scan_full (r : Request) : ∀ (es : List ShmEntry) (n : Nat), (∀ e ∈ (scan r es n).entries, e.isActive = true) →
    scan r es n = ⟨es, n, [], (scan r es n).found⟩
  | [], _, _ => rfl
  | e :: es, n, h => by
    unfold scan at h ⊢
    split_ifs at h ⊢ with ha hp hr
    · rw [h e mem_cons_self] at ha
      cases ha
    · rfl
    · cases h _ mem_cons_self
    · rw [scan_full r es n fun e' he' => h e' (mem_cons_of_mem _ he')]
      rfl

theorem fill_eq_none : ∀ {es : List ShmEntry}, fill new es = none ↔ ∀ e ∈ es, e.isActive = true
  | [] => by simp [fill]
  | e :: es => by
    unfold fill
    cases ha : e.isActive with
    | false => simp [ha]
    | true => simp [ha, fill_eq_none]

theorem exists_fill (h : (actives es).length < es.length) (new : ShmEntry) : ∃ es', fill new es = some es' := by
  cases hfill : fill new es with
  | some es' => exact ⟨es', rfl⟩
  | none =>
    rw [actives, filter_eq_self.2 (fill_eq_none.1 hfill)] at h
    exact absurd h (Nat.lt_irrefl _)

end Scans

/-! ## Calls that fail -/

variable {t : Table} {r : Request} {antiDos locked : Bool}

def NoneBefore (antiDos : Bool) (r : Request) (t : Table) : Prop :=
  antiDos = true → (∃ e ∈ actives t.entries, e.pid = r.pid) →
    ∀ e ∈ (actives t.entries).takeWhile (·.pid ≠ r.pid), isRedundant r e = false

theorem cleared_of_idle (h : scanned antiDos r t = ⟨t.entries, t.activeEntries, [], (scanned antiDos r t).found⟩) :
    cleared antiDos r t = t := by
  have hentries := congrArg Scan.entries h
  have hcount := congrArg Scan.activeEntries h
  obtain ⟨maxEntries, activeEntries, entries, slots⟩ := t
  simp only [cleared, Table.rewrite, hentries, hcount]

/-- **A call that fails changes nothing** and ends no process, exactly unless the scan is made and ends a process before
it comes to the slot of the calling one. -/
theorem failed_call_changes_nothing (antiDos locked : Bool) (r : Request) (t : Table) :
    ((addProcess antiDos locked r t).1.status ≠ .success →
      getEntries (addProcess antiDos locked r t).2 = getEntries t ∧ (addProcess antiDos locked r t).1.terminated = []) ↔
    r.pid ≤ 0 ∨ locked = false ∨ NoneBefore antiDos r t := by
  unfold addProcess
  by_cases hpid : r.pid ≤ 0
  · rw [if_pos hpid]
    exact iff_of_true (fun _ => ⟨rfl, rfl⟩) (.inl hpid)
  by_cases hlock : locked = false
  · rw [if_neg hpid, if_pos hlock]
    exact iff_of_true (fun _ => ⟨rfl, rfl⟩) (.inr (.inl hlock))
  rw [if_neg hpid, if_neg hlock, or_iff_right hpid, or_iff_right hlock]
  by_cases hfound : (scanned antiDos r t).found = true
  · rw [if_pos hfound]
    constructor
    · rintro h rfl -
      exact scan_terminated r _ _ (h fun hst => by cases hst).2
    · intro h _
      have heq : scanned antiDos r t = ⟨t.entries, t.activeEntries, [], (scanned antiDos r t).found⟩ := by
        unfold scanned at hfound ⊢
        split_ifs at hfound ⊢ with hdos
        refine scan_idle r _ _ (h hdos ?_)
        rw [scan_found, any_eq_true] at hfound
        obtain ⟨e, he, hpid⟩ := hfound
        exact ⟨e, he, of_decide_eq_true hpid⟩
      simp only
      rw [cleared_of_idle heq]
      exact ⟨rfl, congrArg Scan.terminated heq⟩
  · rw [if_neg hfound]
    refine iff_of_true (fun hfail => ?_) fun hdos hmem => absurd ?_ hfound
    · -- only a full table is left, in which the scan has freed no slot
      unfold place at hfail ⊢
      split_ifs at hfail ⊢ with hspecs
      · exact absurd rfl hfail
      · split at hfail
        next hfill =>
          have heq : scanned antiDos r t = ⟨t.entries, t.activeEntries, [], (scanned antiDos r t).found⟩ := by
            have hfull := fill_eq_none.1 hfill
            unfold cleared scanned at hfull
            unfold scanned
            split_ifs at hfull ⊢
            · exact scan_full r _ _ hfull
            · rfl
          rw [cleared_of_idle heq]
          exact ⟨rfl, congrArg Scan.terminated heq⟩
        next => exact absurd rfl hfail
    · obtain ⟨e, he, hpid⟩ := hmem
      rw [scanned, if_pos hdos, scan_found, any_eq_true]
      exact ⟨e, he, decide_eq_true hpid⟩

def sampleRequest (pid : Int) (addr : UInt32) : Request := ⟨pid, 6, .inet addr, { specs := [{}] }, 0, 0⟩

/-- **A process is ended for nothing**: 11 asks again, now for the host that 10 serves. Its request is refused, but 10
has lost its slot. -/
theorem duplicate_ends_another :
    let t := run 20000 [.addProcess true true (sampleRequest 10 7), .addProcess true true (sampleRequest 11 8)]
    (getEntries t).map ShmEntry.pid = [10, 11] ∧ (addProcess true true (sampleRequest 11 7) t).1.status = .exist ∧
      (addProcess true true (sampleRequest 11 7) t).1.terminated = [10] ∧
      (getEntries (addProcess true true (sampleRequest 11 7) t).2).map ShmEntry.pid = [11] := by
  decide

/-! ## How many processes fit -/

def engineTable (maxClients : UInt32) : Table := create (maxClients * 1024)

def addAll : List (Bool × Request) → Table → List UldbStatus × Table
  | [], t => ([], t)
  | c :: cs, t =>
    let (added, t) := addProcess c.1 true c.2 t
    (added.status :: (addAll cs t).1, (addAll cs t).2)

def Stranger (r : Request) (t : Table) : Prop :=
  ∀ e ∈ actives t.entries, e.pid ≠ r.pid ∧ ipAddressesAreEqual r.sockAddr e.sockAddr = false

theorem Stranger.added (h : Stranger r t) (antiDos : Bool) (hpid : 0 < r.pid) (hspecs : r.desired.specs ≠ [])
    (hroom : (actives t.entries).length < t.maxEntries) :
    (addProcess antiDos true r t).1.status = .success ∧ (addProcess antiDos true r t).2.maxEntries = t.maxEntries ∧
      (actives (addProcess antiDos true r t).2.entries).Perm (newEntry r :: actives t.entries) := by
  have hredundant : ∀ e ∈ actives t.entries, isRedundant r e = false := by
    intro e he
    simp [isRedundant, (h e he).2]
  have hidle : scanned antiDos r t = ⟨t.entries, t.activeEntries, [], false⟩ := by
    unfold scanned
    cases antiDos with
    | false => rfl
    | true =>
      have hfound : (scan r t.entries t.activeEntries).found = false := by
        rw [scan_found, any_eq_false]
        intro e he
        simpa using (h e he).1
      rw [if_pos rfl, scan_idle r _ _ fun e he => hredundant e ((takeWhile_sublist _).mem he), hfound]
  have hcleared : cleared antiDos r t = t := cleared_of_idle (by rw [hidle])
  have hfree : (actives t.entries).length < t.entries.length := by
    rw [t.slots]
    exact hroom
  obtain ⟨es, hes⟩ := exists_fill hfree (newEntry r)
  unfold addProcess
  rw [if_neg (by omega), if_neg (by decide), hidle, if_neg Bool.false_ne_true, hcleared]
  unfold place
  rw [if_neg hspecs]
  split
  next hnone =>
    rw [hes] at hnone
    cases hnone
  next es' hes' => exact ⟨rfl, rfl, fill_perm rfl hes'⟩

/-- **Strangers to each other** all get a slot as long as there are enough. -/
theorem addAll_strangers : ∀ {cs : List (Bool × Request)} {t : Table},
    (∀ c ∈ cs, 0 < c.2.pid ∧ c.2.desired.specs ≠ []) →
    (cs.Pairwise fun c d => c.2.pid ≠ d.2.pid ∧ ipAddressesAreEqual c.2.sockAddr d.2.sockAddr = false) →
    (∀ c ∈ cs, Stranger c.2 t) → (actives t.entries).length + cs.length ≤ t.maxEntries →
    (∀ status ∈ (addAll cs t).1, status = .success) ∧
      (getEntries (addAll cs t).2).length = (actives t.entries).length + cs.length
  | [], _, _, _, _, _ => ⟨fun _ h => absurd h not_mem_nil, rfl⟩
  | c :: cs, t, hvalid, hpair, hstranger, hroom => by
    rw [length_cons] at hroom ⊢
    obtain ⟨hc, hcs⟩ := pairwise_cons.1 hpair
    obtain ⟨hpid, hspecs⟩ := hvalid c mem_cons_self
    obtain ⟨hok, hmax, hperm⟩ := (hstranger c mem_cons_self).added c.1 hpid hspecs (by omega)
    have hlen := hperm.length_eq
    rw [length_cons] at hlen
    have hrest : ∀ d ∈ cs, Stranger d.2 (addProcess c.1 true c.2 t).2 := by
      intro d hd e he
      rcases mem_cons.1 (hperm.mem_iff.1 he) with rfl | he
      · refine ⟨(hc d hd).1, ?_⟩
        rw [ipAddressesAreEqual_comm]
        exact (hc d hd).2
      · exact hstranger d (mem_cons_of_mem _ hd) e he
    obtain ⟨hall, hcount⟩ :=
      addAll_strangers (fun d hd => hvalid d (mem_cons_of_mem _ hd)) hcs hrest (by rw [hmax]; omega)
    refine ⟨fun status hs => ?_, ?_⟩
    · rcases mem_cons.1 hs with rfl | hs
      · exact hok
      · exact hall status hs
    · show (getEntries (addAll cs (addProcess c.1 true c.2 t).2).2).length = _
      omega

theorem slots_enough_iff {maxClients : UInt32} (h : 1 ≤ maxClients.toNat) :
    maxClients.toNat ≤ (engineTable maxClients).maxEntries ↔ maxClients.toNat ≤ 8 := by
  have hlt := maxClients.toNat_lt
  have hmul : (maxClients * 1024).toNat = maxClients.toNat * 1024 % 2 ^ 32 := by simp [UInt32.toNat_mul]
  show maxClients.toNat ≤ slotsFor (maxClients * 1024) ↔ _
  rw [slotsFor, hmul, sizeofShmEntry]
  constructor
  · intro hle
    split at hle <;> omega
  · intro h8
    rw [Nat.mod_eq_of_lt (by omega), if_pos (by omega)]
    omega

/-- **Up to eight clients fit**: processes with different numbers and hosts are all added and are all in use at once. -/
theorem clients_fit (maxClients : UInt32) (h1 : 1 ≤ maxClients.toNat) (h8 : maxClients.toNat ≤ 8)
    (cs : List (Bool × Request))
    (hlen : cs.length = maxClients.toNat) (hvalid : ∀ c ∈ cs, 0 < c.2.pid ∧ c.2.desired.specs ≠ [])
    (hpair : cs.Pairwise fun c d => c.2.pid ≠ d.2.pid ∧ ipAddressesAreEqual c.2.sockAddr d.2.sockAddr = false) :
    (∀ status ∈ (addAll cs (engineTable maxClients)).1, status = .success) ∧
      (getEntries (addAll cs (engineTable maxClients)).2).length = maxClients.toNat := by
  have hempty : actives (engineTable maxClients).entries = [] := by simp [engineTable, create, actives, zeroEntry]
  have hslots := (slots_enough_iff h1).2 h8
  have hfit :=
    addAll_strangers hvalid hpair (t := engineTable maxClients) (fun c _ e he => by rw [hempty] at he; cases he)
    (by rw [hempty, hlen, length_nil]; omega)
  rw [hempty, hlen] at hfit
  exact ⟨hfit.1, by simpa using hfit.2⟩

theorem clients_fit_two : (addAll [(true, sampleRequest 10 7), (true, sampleRequest 11 8)] (engineTable 2)).1 =
    [.success, .success] ∧
    (getEntries (addAll [(true, sampleRequest 10 7), (true, sampleRequest 11 8)] (engineTable 2)).2).length = 2 := by
  have hvalid : ∀ c ∈ [(true, sampleRequest 10 7), (true, sampleRequest 11 8)], 0 < c.2.pid ∧
    c.2.desired.specs ≠ [] := by decide
  exact ⟨by decide, (clients_fit 2 (by decide) (by decide) [(true, sampleRequest 10 7), (true, sampleRequest 11 8)] rfl
    hvalid (by decide)).2⟩

def nineCalls : List (Bool × Request) :=
    (List.range 9).map fun i : Nat => (true, sampleRequest (10 + i) (UInt32.ofNat i))

/-- **Nine clients do not fit**: their table has one slot. -/
theorem nine_clients_do_not_fit : (engineTable 9).maxEntries = 1 ∧
    (nineCalls.Pairwise fun c d => c.2.pid ≠ d.2.pid ∧ ipAddressesAreEqual c.2.sockAddr d.2.sockAddr = false) ∧
    (addAll nineCalls (engineTable 9)).1 = .success :: List.replicate 8 .system := by
  decide +kernel

end Rdm.Uldb
