import Rdm.Pq.CursorSpec

/-!
# A ledger of regions

When clients write the headers themselves, the bytes in a region need not be a header. `Ledger a disk rs`: the region of
an entry of the time queue shows the signature that is filed for it.
-/

namespace Rdm

open Xdr SunRpcSerializer List
open Multiset (mem_cons_of_mem mem_map_of_mem nodup_zero)

def Signed (disk : Memory) (off : Int) (ext : Nat) (sig : Signature) : Prop :=
  (decodeProdInfo disk off ext).map (fun res => res.1.signature) = some sig

instance (disk : Memory) (off : Int) (ext : Nat) (sig : Signature) : Decidable (Signed disk off ext sig) :=
  inferInstanceAs (Decidable ((decodeProdInfo disk off ext).map (fun res => res.1.signature) = some sig))

/-- **Who has which region.** -/
structure Ledger (a : Catalog) (disk : Memory) (rs : List Reservation) : Prop extends a.Sound where
  positive : ∀ p ∈ a.regions, 0 < p.2
  uses : (a.times.map Prod.snd ++ rs.map Reservation.offset).Nodup
  committed : ∀ p ∈ a.times, ∃ ext sig, (p.2, ext) ∈ a.regions ∧ (sig, p.2) ∈ a.sigs ∧ Signed disk p.2 ext sig
  reserved : ∀ r ∈ rs, (r.offset, r.extent) ∈ a.regions ∧ (r.signature, r.offset) ∈ a.sigs

variable {a a' : Catalog} {disk disk' : Memory} {rs rs' : List Reservation} {off : Int} {ext : Nat} {sig : Signature}
  {t : Timestamp} {r : Reservation} {i : Nat}

/-! ## Reading the ledger -/

theorem Signed.signature (h : Signed disk off ext sig) {info : ProdInfo} {pos : Int}
    (hdec : decodeProdInfo disk off ext = some (info, pos)) : info.signature = sig := by
  rw [Signed, hdec] at h
  exact Option.some.inj h

theorem Signed.frame (h : Signed disk off ext sig) (hsame : ∀ b, off ≤ b → b < off + ext → disk' b = disk b) :
    Signed disk' off ext sig := by
  rw [Signed, decodeProdInfo_congr hsame]
  exact h

section

variable (h : Ledger a disk rs)
include h

theorem Ledger.headed : Headed a disk := by
  intro p hp
  obtain ⟨ext, sig, hreg, hfiled, hsigned⟩ := h.committed p hp
  refine ⟨sig, hfiled, mem_map_of_mem Prod.fst hreg, fun ext' info pos hreg' hdec => ?_⟩
  rw [h.extent_unique hreg' hreg] at hdec
  exact hsigned.signature hdec

theorem Ledger.not_timed (hr : r ∈ rs) : r.offset ∉ a.times.map Prod.snd :=
  fun ht => (nodup_append.1 h.uses).2.2 _ ht _ (mem_map_of_mem hr) rfl

/-! ## Freeing a region -/

theorem Ledger.free (hf : a.Freed off ext sig a') (hfiled : (sig, off) ∈ a.sigs)
    (htimes : a'.times.Sublist a.times) (hrs : rs'.Sublist rs)
    (hno : off ∉ a'.times.map Prod.snd ++ rs'.map Reservation.offset) : Ledger a' disk rs' := by
  obtain ⟨hsound, hold, hreg, hsig⟩ := h.freed hf hfiled
  rw [mem_append, not_or] at hno
  refine { hsound with
    positive := fun p hp => h.positive p (hold p hp), uses := h.uses.sublist ((htimes.map _).append (hrs.map _))
    committed := ?committed, reserved := ?reserved }
  case committed =>
    intro p hp
    have hne : p.2 ≠ off := fun e => hno.1 (e ▸ mem_map_of_mem hp)
    obtain ⟨e, s, h1, h2, h3⟩ := h.committed p (htimes.mem hp)
    exact ⟨e, s, hreg _ h1 hne, hsig _ h2 hne, h3⟩
  case reserved =>
    intro r hr
    have hne : r.offset ≠ off := fun e => hno.2 (e ▸ mem_map_of_mem hr)
    obtain ⟨h1, h2⟩ := h.reserved r (hrs.mem hr)
    exact ⟨hreg _ h1 hne, hsig _ h2 hne⟩

/-- **A product is deleted** under the signature that is filed for it. -/
theorem Ledger.without (hw : a.Without t off ext sig a') (hfiled : (sig, off) ∈ a.sigs) : Ledger a' disk rs := by
  obtain ⟨pre, suf, hts, hts'⟩ := hw.times
  have hsub : a'.times.Sublist a.times := by
    rw [hts, hts']
    exact (sublist_cons_self _ _).append_left pre
  refine h.free hw.toFreed hfiled hsub (List.Sublist.refl _) ?_
  have huses := h.uses
  rw [hts, map_append, map_cons, append_assoc, cons_append, nodup_middle, nodup_cons] at huses
  rw [hts', map_append, append_assoc]
  exact huses.1

/-- **An entry is given up.** -/
theorem Ledger.rollback (hr : rs[i]? = some r) (hf : a.Freed r.offset ext r.signature a')
    (htimes : a'.times = a.times) : Ledger a' disk (rs.eraseIdx i) := by
  have hmem := mem_of_getElem? hr
  refine h.free hf (h.reserved r hmem).2 (by rw [htimes]) (eraseIdx_sublist _ _) ?_
  rw [mem_append, not_or, htimes]
  refine ⟨h.not_timed hmem, ?_⟩
  have hnd := (nodup_append.1 h.uses).2.1
  have hperm := (perm_eraseIdx hr).map Reservation.offset
  rw [map_cons] at hperm
  exact (nodup_cons.1 (hperm.nodup_iff.1 hnd)).1

/-! ## Evictions -/

theorem Ledger.evictStep {w w' : World} (hdisk : w.disk = disk)
    (hstep : EvictStep ProductQueue.callbacks (a, w) (a', w')) : Ledger a' disk rs ∧ w'.disk = disk := by
  cases hstep with
  | look htime hregion => exact ⟨h, hdisk⟩
  | @evict _ _ _ t off ext rl h0 hw =>
    obtain ⟨pos, hdec⟩ := decodeFunc_ok h0
    obtain ⟨pre, suf, hts, -⟩ := hw.times
    have htime : (t, off) ∈ a.times := by rw [hts]; simp
    have hreg : (off, ext) ∈ a.regions := by rw [hw.regions]; exact Multiset.mem_cons_self _ _
    obtain ⟨sig, hfiled, -, hsig⟩ := h.headed (t, off) htime
    have hsame := hsig ext _ pos hreg (hdisk ▸ hdec)
    refine ⟨h.without hw ?_, (mvrtFunc_passed _ _ _ _).disk.trans hdisk⟩
    have hcb : (ProductQueue.callbacks.decode off ext w).1.2.signature = sig := hsame
    rw [hcb]
    exact hfiled

/-- **Evictions** keep the ledger. -/
theorem Ledger.evictions {w : World} (hdisk : w.disk = disk) {p : Catalog × World}
    (hev : Evictions ProductQueue.callbacks (a, w) p) : Ledger p.1 disk rs ∧ p.2.disk = disk := by
  induction hev with
  | refl => exact ⟨h, hdisk⟩
  | tail _ hstep ih => exact ih.1.evictStep ih.2 hstep

/-! ## Reserving, writing and committing -/

theorem Ledger.enter (ha' : a' = (a.addRegion (off, ext)).addSig (sig, off)) (hpos : 0 < ext)
    (hsig : sig ∉ a.sigs.map Prod.fst) (hspread : a'.Spread) :
    Ledger a' disk rs ∧ off ∉ a'.times.map Prod.snd ++ rs.map Reservation.offset := by
  obtain ⟨hsound, hnew⟩ := h.toSound.enter ha' hsig hspread
  subst ha'
  refine ⟨{ hsound, h with positive := fun p hp => ?_, committed := fun p hp => ?_, reserved := fun r hr => ?_ }, ?_⟩
  · rcases Multiset.mem_cons.1 hp with rfl | hp
    · exact hpos
    · exact h.positive p hp
  · obtain ⟨e, s, h1, h2, h3⟩ := h.committed p hp
    exact ⟨e, s, mem_cons_of_mem h1, mem_cons_of_mem h2, h3⟩
  · obtain ⟨h1, h2⟩ := h.reserved r hr
    exact ⟨mem_cons_of_mem h1, mem_cons_of_mem h2⟩
  · intro hm
    rcases mem_append.1 hm with hm | hm
    · obtain ⟨p, hp, rfl⟩ := mem_map.1 hm
      obtain ⟨e, -, h1, -⟩ := h.committed p hp
      exact hnew (mem_map_of_mem Prod.fst h1)
    · obtain ⟨r, hr, rfl⟩ := mem_map.1 hm
      exact hnew (mem_map_of_mem Prod.fst (h.reserved r hr).1)

/-- **An entry is reserved** in a region that nobody has. -/
theorem Ledger.reserve (hreg : (r.offset, r.extent) ∈ a.regions)
    (hsig : (r.signature, r.offset) ∈ a.sigs) (hno : r.offset ∉ a.times.map Prod.snd ++ rs.map Reservation.offset) :
    Ledger a disk (rs ++ [r]) := by
  refine { h with uses := ?_, reserved := fun r' hr' => ?_ }
  · rw [map_append, ← append_assoc, map_singleton, nodup_append]
    refine ⟨h.uses, nodup_singleton _, fun o ho o' ho' e => hno ?_⟩
    rw [← mem_singleton.1 ho', ← e]
    exact ho
  · rcases mem_append.1 hr' with hr' | hr'
    · exact h.reserved r' hr'
    · rw [mem_singleton.1 hr']
      exact ⟨hreg, hsig⟩

/-- **Writing** in a region that is no product's. -/
theorem Ledger.write (hreg : (off, ext) ∈ a.regions)
    (hout : ∀ b, b < off ∨ off + ext ≤ b → disk' b = disk b) (hno : off ∉ a.times.map Prod.snd) :
    Ledger a disk' rs := by
  refine { h with committed := fun p hp => ?_ }
  obtain ⟨e, s, h1, h2, h3⟩ := h.committed p hp
  have hne : p.2 ≠ off := fun he => hno (he ▸ mem_map_of_mem hp)
  have hapart := h.apart _ h1 _ hreg hne
  simp only at hapart
  exact ⟨e, s, h1, h2, h3.frame fun b hb hb' => hout b (by omega)⟩

/-- **An entry is committed** when its region shows its signature. -/
theorem Ledger.commit (hr : rs[i]? = some r) {now key : Timestamp}
    (hstamp : a.Stamped now key r.offset a') (hsigned : Signed disk r.offset r.extent r.signature) :
    Ledger a' disk (rs.eraseIdx i) := by
  have hmem := mem_of_getElem? hr
  obtain ⟨pre, suf, hts, hts'⟩ := hstamp.times
  have hrest := hstamp.rest
  have hregions : a'.regions = a.regions := by rw [hrest]
  have hsigs : a'.sigs = a.sigs := by rw [hrest]
  obtain ⟨hreg, hfiled⟩ := h.reserved r hmem
  refine { h.retime hrest with positive := hregions ▸ h.positive, uses := ?_, committed := ?_, reserved := ?_ }
  · -- the offset of the entry moves to the times
    have hperm := (perm_eraseIdx hr).map Reservation.offset
    rw [map_cons] at hperm
    have hmoved : (a'.times.map Prod.snd ++ (rs.eraseIdx i).map Reservation.offset).Perm
        (r.offset :: (a.times.map Prod.snd ++ (rs.eraseIdx i).map Reservation.offset)) := by
      rw [hts, hts', map_append, map_append, map_cons, append_assoc, append_assoc,
        cons_append]
      exact perm_middle
    exact ((hperm.append_left _).trans (perm_middle.trans hmoved.symm)).nodup h.uses
  · intro p hp
    rw [hregions, hsigs]
    rw [hts', mem_append, mem_cons] at hp
    rcases hp with hp | rfl | hp
    · exact h.committed p (by rw [hts]; exact mem_append_left _ hp)
    · exact ⟨r.extent, r.signature, hreg, hfiled, hsigned⟩
    · exact h.committed p (by rw [hts]; exact mem_append_right _ hp)
  · intro r' hr'
    rw [hregions, hsigs]
    exact h.reserved r' ((eraseIdx_sublist _ _).mem hr')

theorem Ledger.recount (n : Nat) : Ledger { a with nbytes := n } disk rs := { h with }

end

theorem Ledger.empty (disk : Memory) : Ledger Catalog.empty disk [] := by
  refine ⟨Catalog.sound_empty, ?_, ?_, ?_, ?_⟩ <;> simp [Catalog.empty]

end Rdm
