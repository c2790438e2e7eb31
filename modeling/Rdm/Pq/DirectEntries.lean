import Rdm.Lib.Transitions
import Rdm.Pq.FailedInserts
import Rdm.Pq.Ledger

/-!
# Entries whose header the client writes

`newElementDirect` hands out a region for a signature, and the client writes the header. If what is decoded at a commit
has that signature, every product can be deleted by `DeleteOldest`.
-/

namespace Rdm

open ProgLogic ProgLogic.Prog Xdr SunRpcSerializer QueueIndexManager QueueCursor List Option
open RegionList (allocs)
open ProductQueue (callbacks commit commitEntry create decodeFunc encodeEntry locked newElement newElementDirect
  reserveDirect rollback rollbackEntry takeEntry writePayload)

/-! ## The operations -/

def ProductQueue.writeBuffer (i pos : Nat) (bytes : List UInt8) : Prog ProductQueue Int := do
  let q ← read
  match q.reserved[i]? with
  | none => return EINVAL
  | some r =>
    modify fun q => { q with ix := setDisk (writeBytes q.ix.env.disk (r.offset + pos) bytes) q.ix }
    return 0

/-- What clients do that also use `newElementDirect`. -/
inductive DirectOp where
  | queue (op : QueueOp)
  | newElementDirect (size : Nat) (signature : Signature) (mapped : Bool)
  | writeBuffer (i pos : Nat) (bytes : List UInt8)

namespace DirectOp

def run (D : DataSection) : DirectOp → Prog ProductQueue Stepped
  | .queue op => op.run D
  | .newElementDirect size signature mapped => QueueOp.status (ProductQueue.newElementDirect D size signature mapped)
  | .writeBuffer i pos bytes => QueueOp.status (ProductQueue.writeBuffer i pos bytes)

def Valid (q : ProductQueue) : DirectOp → Prop
  | .queue op => op.Valid q
  | .newElementDirect _ _ _ => True
  | .writeBuffer i pos bytes => ∀ r ∈ q.reserved[i]?, pos + bytes.length ≤ r.extent

instance (q : ProductQueue) : DecidablePred (Valid q)
  | .queue op => inferInstanceAs (Decidable (op.Valid q))
  | .newElementDirect _ _ _ => isTrue trivial
  | .writeBuffer i pos bytes => inferInstanceAs (Decidable (∀ r ∈ q.reserved[i]?, pos + bytes.length ≤ r.extent))

def Proper (q : ProductQueue) : DirectOp → Prop
  | .newElementDirect size _ _ => 0 < size
  | .queue (.commit i) => ∀ r ∈ q.reserved[i]?, ∀ res ∈ decodeProdInfo q.ix.env.disk r.offset r.extent,
      res.1.signature = r.signature
  | _ => True

instance (q : ProductQueue) : DecidablePred (Proper q)
  | .newElementDirect size _ _ => inferInstanceAs (Decidable (0 < size))
  | .queue (.commit i) => inferInstanceAs (Decidable (∀ r ∈ q.reserved[i]?,
      ∀ res ∈ decodeProdInfo q.ix.env.disk r.offset r.extent, res.1.signature = r.signature))
  | .queue (.newElement _ _) | .queue (.writePayload _ _ _) | .queue (.encodeEntry _ _) | .queue (.rollback _)
  | .queue .deleteOldest | .queue (.deleteBySignature _ _) | .queue (.sequenceDelete _ _ _) | .queue (.next _ _ _ _)
  | .queue (.sequence _ _ _ _ _) | .writeBuffer _ _ _ => isTrue trivial

def next (D : DataSection) (op : DirectOp) (q : ProductQueue) : Option ProductQueue :=
  (op.run D q).returned.map Prod.snd

end DirectOp

def ProductQueue.Created (D : DataSection) (q : ProductQueue) : Prop :=
  ∃ q₀ nproducts, q₀.ix.align = D.align ∧ q₀.reserved = [] ∧ (create D nproducts q₀).returned = some (0, q)

/-- **The states of a queue** whose clients use these operations, as long as the pool does not run out. -/
def ReachedDirect (D : DataSection) (P : ProductQueue → DirectOp → Prop) : ProductQueue → Prop :=
  Transitions.Reached (DirectOp.next D) (fun q op => op.Valid q ∧ P q op) (ProductQueue.Created D)

/-! ## The invariant -/

def Reservation.Placed (r : Reservation) : Prop :=
  r.info.sz.toNat = 0 ∨
    r.payload = r.offset + (header r.info).length ∧ (header r.info).length + r.info.sz.toNat ≤ r.extent

structure Booked (D : DataSection) (s : QueueIndexManager World) (g : Ghost) (rs : List Reservation) : Prop where
  inv : IndexInv D s g
  ledger : Ledger (catalog s g) s.env.disk rs

def ProductQueue.Booked (D : DataSection) (q : ProductQueue) : Prop :=
  (∃ g, Rdm.Booked D q.ix g q.reserved) ∧ ∀ r ∈ q.reserved, r.Placed

variable {D : DataSection} {s s' : QueueIndexManager World} {g g' : Ghost} {q : ProductQueue} {rs : List Reservation}
variable {w : World} {off : Int} {ext : Nat} {info : ProdInfo}
  {i : Nat} {r : Reservation} {sig : Signature}

theorem Booked.control (h : Booked D s g rs) (hdisk : w.disk = s.env.disk) (b : Bool) (n : Nat) :
    Booked D { s with env := w, isFull := b, smallestExtentSeen := n } g rs :=
  ⟨h.inv.control w b n, by rw [show ({ s with env := w, isFull := b, smallestExtentSeen := n } :
    QueueIndexManager World).env.disk = s.env.disk from hdisk]; exact h.ledger⟩

theorem Booked.setDisk (h : Booked D s g rs) {disk : Memory}
    (hreg : (off, ext) ∈ (catalog s g).regions) (hno : off ∉ (catalog s g).times.map Prod.snd)
    (hout : ∀ b, b < off ∨ off + ext ≤ b → disk b = s.env.disk b) : Booked D (ProductQueue.setDisk disk s) g rs :=
  ⟨h.inv.control _ s.isFull s.smallestExtentSeen, h.ledger.write hreg hout hno⟩

theorem Booked.unlocked (h : Booked D s g rs) (hp : ∀ r ∈ rs, r.Placed) (n : Nat) :
    ProductQueue.Booked D ⟨{ s with smallestExtentSeen := n }, rs⟩ :=
  ⟨⟨g, h.control rfl s.isFull n⟩, hp⟩

/-- **Deleting the oldest products** keeps the ledger. -/
theorem Booked.evicted (h : Booked D s g rs) {a : Catalog}
    (hev : Evictions callbacks (catalog s g, s.env) (a, w)) : Ledger a s.env.disk rs ∧ w.disk = s.env.disk :=
  h.ledger.evictions rfl hev

/-! ## Reserving -/

structure Fresh (s : QueueIndexManager World) (g : Ghost) (rs : List Reservation) (sig : Signature) (off : Int)
    (ext : Nat) : Prop where
  region : (off, ext) ∈ (catalog s g).regions
  filed : (sig, off) ∈ (catalog s g).sigs
  unused : off ∉ (catalog s g).times.map Prod.snd ++ rs.map Reservation.offset

theorem Fresh.not_timed (h : Fresh s g rs sig off ext) : off ∉ (catalog s g).times.map Prod.snd :=
  fun hm => h.unused (mem_append_left _ hm)

/-- **Allocating.** -/
theorem Booked.allocate (h : Booked D s g rs) {extent : Nat} (hpos : 0 < extent) (hfit : extent + D.align ≤ 2 ^ 64)
    (sig : Signature) :
    wp (allocateProductSpace callbacks extent sig) (fun res s' => ∃ g', Booked D s' g' rs ∧
      ∀ off ext, res = .ok (off, ext) → extent ≤ ext ∧ Fresh s' g' rs sig off ext) s := by
  refine (allocateProductSpace_spec h.inv h.ledger.toSound.paired hpos hfit sig).mono ?_
  rintro res s' ⟨g', h', ⟨status, rfl, hev⟩ | ⟨off, ext, a, rfl, hle, hsig, hev, hcat⟩⟩
  · obtain ⟨hl, hdisk⟩ := h.evicted hev
    exact ⟨g', ⟨h', hdisk ▸ hl⟩, fun _ _ he => by cases he⟩
  · obtain ⟨hl, hdisk⟩ := h.evicted hev
    obtain ⟨hl', hno⟩ := hl.enter hcat (by omega) hsig h'.spread
    refine ⟨g', ⟨h', hdisk ▸ hl'⟩, fun off' ext' he => ?_⟩
    cases he
    have hregions : (catalog s' g').regions = (off, ext) ::ₘ a.regions := congrArg Catalog.regions hcat
    have hsigs : (catalog s' g').sigs = (sig, off) ::ₘ a.sigs := congrArg Catalog.sigs hcat
    exact ⟨hle, hregions ▸ Multiset.mem_cons_self _ _, hsigs ▸ Multiset.mem_cons_self _ _, hno⟩

theorem Booked.tracked (h : Booked D s g rs) (off : Int) (ext : Nat) :
    Booked D (QueueMetrics.trackAllocation D.datao off ext s) g rs :=
  ⟨h.inv.tracked off ext, h.ledger.recount _⟩

theorem Booked.reserve (h : Booked D s g rs) (hf : Fresh s g rs sig off ext) {r : Reservation}
    (ho : r.offset = off) (he : r.extent = ext) (hs : r.signature = sig) : Booked D s g (rs ++ [r]) := by
  subst ho he hs
  exact ⟨h.inv, h.ledger.reserve hf.region hf.filed hf.unused⟩

def Noted (D : DataSection) (rs : List Reservation) (res : Except Int Reservation)
    (s' : QueueIndexManager World) : Prop :=
  match res with
  | .error _ => ∃ g', Booked D s' g' rs
  | .ok r => r.Placed ∧ ∃ g', Booked D s' g' (rs ++ [r])

/-- **Reserving** a product whose metadata are given. -/
theorem Booked.reserve_spec (h : Booked D s g rs) (hfit : getEncodedSize info + D.align ≤ 2 ^ 64)
    (mapped : Bool) : wp (ProductQueue.reserve D info mapped) (Noted D rs) s := by
  rw [ProductQueue.reserve]
  refine wp.bind (h.allocate (getEncodedSize_pos info) hfit info.signature) ?_
  rintro res s1 ⟨g1, h1, hres⟩
  rcases res with status | ⟨off, ext⟩
  · exact wp_pure.2 ⟨g1, h1⟩
  obtain ⟨hle, hf⟩ := hres off ext rfl
  have h2 := h1.tracked off ext
  have hf2 : Fresh (QueueMetrics.trackAllocation D.datao off ext s1) g1 rs info.signature off ext :=
    ⟨hf.region, hf.filed, hf.unused⟩
  simp only [wp_bind, wp_modify]
  by_cases hmap : mapped = false
  · rw [if_pos hmap]
    exact wp_pure.2 ⟨g1, h2⟩
  rw [if_neg hmap, wp_bind, wp_read]
  have hhead := length_header_le info
  simp only [getEncodedSize] at hle
  rcases encodeProdInfo_cases s1.env.disk off (getEncodedSize info) info with ⟨-, henc⟩ | ⟨-, disk, henc, hsame⟩
  · have hout (b : Int) (hb : b < off ∨ off + ext ≤ b) : writeBytes s1.env.disk off (header info) b = s1.env.disk b :=
      writeBytes_out (by omega)
    have h3 := h2.setDisk hf2.region hf2.not_timed hout
    have hf3 : Fresh (ProductQueue.setDisk (writeBytes s1.env.disk off (header info))
        (QueueMetrics.trackAllocation D.datao off ext s1)) g1 rs info.signature off ext :=
        ⟨hf.region, hf.filed, hf.unused⟩
    rw [show (QueueMetrics.trackAllocation D.datao off ext s1).env.disk = s1.env.disk from rfl, henc]
    simp only [wp_bind, wp_modify]
    exact wp_pure.2 ⟨.inr ⟨rfl, by simp only; omega⟩, g1, h3.reserve hf3 rfl rfl rfl⟩
  · have h3 := h2.setDisk hf2.region hf2.not_timed fun b hb => hsame b (by simp only [getEncodedSize]; omega)
    rw [show (QueueMetrics.trackAllocation D.datao off ext s1).env.disk = s1.env.disk from rfl, henc]
    simp only [wp_bind, wp_modify]
    exact wp_pure.2 ⟨g1, h3⟩

theorem Booked.free_fresh (h : Booked D s g rs) (hf : Fresh s g rs sig off ext) :
    wp (freeByOffset off sig) (fun status s' => status = 0 ∧ ∃ g', Booked D s' g' rs) s := by
  refine (freeByOffset_spec h.inv off sig).mono ?_
  rintro status s' (⟨-, -, hno | hno⟩ | ⟨hst, henv, g', ext', h', hfreed, htimes⟩)
  · exact absurd (Multiset.mem_map_of_mem Prod.fst hf.region) hno
  · exact absurd (Multiset.mem_map_of_mem Prod.fst hf.filed) hno
  · refine ⟨hst, g', h', ?_⟩
    rw [henv]
    exact h.ledger.free hfreed hf.filed (by rw [htimes]) (List.Sublist.refl _) (by rw [htimes]; exact hf.unused)

/-- **Reserving** a region of a given size, which is not 0. -/
theorem Booked.reserveDirect_spec (h : Booked D s g rs) {size : Nat} (hpos : 0 < size) (hfit : size + D.align ≤ 2 ^ 64)
    (sig : Signature) (mapped : Bool) : wp (reserveDirect D size sig mapped) (Noted D rs) s := by
  rw [reserveDirect]
  refine wp.bind (h.allocate hpos hfit sig) ?_
  rintro res s1 ⟨g1, h1, hres⟩
  rcases res with status | ⟨off, ext⟩
  · exact wp_pure.2 ⟨g1, h1⟩
  obtain ⟨hle, hf⟩ := hres off ext rfl
  have h2 := h1.tracked off ext
  have hf2 : Fresh (QueueMetrics.trackAllocation D.datao off ext s1) g1 rs sig off ext :=
    ⟨hf.region, hf.filed, hf.unused⟩
  simp only [wp_bind, wp_modify]
  by_cases hmap : mapped = false
  · rw [if_pos hmap]
    refine wp.bind (h2.free_fresh hf2) ?_
    rintro status s2 ⟨-, g2, h'⟩
    exact wp_pure.2 ⟨g2, h'⟩
  · rw [if_neg hmap]
    exact wp_pure.2 ⟨.inl rfl, g1, h2.reserve hf2 rfl rfl rfl⟩

theorem Noted.finish (hp : ∀ r ∈ q.reserved, r.Placed) {res : Except Int Reservation} (h : Noted D q.reserved res s')
    (n : Nat) : wlp (match res with
      | .error status => (pure status : Prog ProductQueue Int)
      | .ok r => do
        modify fun q => { q with reserved := q.reserved ++ [r] }
        return 0) (fun _ q' => q'.Booked D) { q with ix := { s' with smallestExtentSeen := n } } := by
  cases res with
  | error status =>
    obtain ⟨g', h'⟩ := h
    exact wlp_pure.2 (h'.unlocked hp n)
  | ok r =>
    obtain ⟨hr, g', h'⟩ := h
    simp only [wlp_bind, wlp_modify, wlp_pure]
    refine h'.unlocked (fun r' hr' => ?_) n
    rcases mem_append.1 hr' with hr' | hr'
    · exact hp r' hr'
    · rw [mem_singleton.1 hr']
      exact hr

theorem newElement_booked (h : q.Booked D) (hfit : getEncodedSize info + D.align ≤ 2 ^ 64) (mapped : Bool) :
    wlp (newElement D info mapped) (fun _ q' => q'.Booked D) q := by
  obtain ⟨⟨g, hb⟩, hp⟩ := id h
  rw [newElement]
  split
  · exact wlp_pure.2 h
  split
  · exact wlp_pure.2 h
  rw [wlp_bind, wlp_locked]
  refine (hb.reserve_spec hfit mapped).wlp.mono ?_
  exact fun res s' hn => hn.finish hp _

/-- **A region of any size** but 0. -/
theorem newElementDirect_booked (h : q.Booked D) {size : Nat} (hpos : 0 < size) (sig : Signature) (mapped : Bool) :
    wlp (newElementDirect D size sig mapped) (fun _ q' => q'.Booked D) q := by
  obtain ⟨⟨g, hb⟩, hp⟩ := id h
  rw [newElementDirect]
  split
  case isTrue => exact wlp_pure.2 h
  case isFalse hsize =>
  rw [wlp_bind, wlp_locked]
  have hfit : size + D.align ≤ 2 ^ 64 := by
    have hle := D.size_add_align_lt
    omega
  refine (hb.reserveDirect_spec hpos hfit sig mapped).wlp.mono ?_
  exact fun res s' hn => hn.finish hp _

/-! ## Writing -/

theorem ProductQueue.Booked.write (h : q.Booked D) (hr : q.reserved[i]? = some r) {disk : Memory}
    (hout : ∀ b, b < r.offset ∨ r.offset + r.extent ≤ b → disk b = q.ix.env.disk b) :
    ProductQueue.Booked D { q with ix := ProductQueue.setDisk disk q.ix } := by
  obtain ⟨⟨g, hb⟩, hp⟩ := h
  have hmem := mem_of_getElem? hr
  exact ⟨⟨g, hb.setDisk (hb.ledger.reserved r hmem).1 (hb.ledger.not_timed hmem) hout⟩, hp⟩

theorem writeBuffer_booked (h : q.Booked D) (i pos : Nat) (bytes : List UInt8)
    (hin : ∀ r, q.reserved[i]? = some r → pos + bytes.length ≤ r.extent) :
    wlp (ProductQueue.writeBuffer i pos bytes) (fun _ q' => q'.Booked D) q := by
  rw [ProductQueue.writeBuffer, wlp_bind, wlp_read]
  cases hr : q.reserved[i]? with
  | none => exact wlp_pure.2 h
  | some r =>
    have hlen := hin r hr
    simp only [wlp_bind, wlp_modify, wlp_pure]
    exact h.write hr fun b hb => writeBytes_out (by omega)

theorem writePayload_booked (h : q.Booked D) (i pos : Nat) (bytes : List UInt8)
    (hin : ∀ r, q.reserved[i]? = some r → pos + bytes.length ≤ r.info.sz.toNat) :
    wlp (writePayload i pos bytes) (fun _ q' => q'.Booked D) q := by
  rw [writePayload, wlp_bind, wlp_read]
  cases hr : q.reserved[i]? with
  | none => exact wlp_pure.2 h
  | some r =>
    have hlen := hin r hr
    simp only [wlp_bind, wlp_modify, wlp_pure]
    refine h.write hr fun b hb => writeBytes_out ?_
    rcases h.2 r (mem_of_getElem? hr) with hno | ⟨hpay, hroom⟩
    · omega
    · omega

theorem encodeEntry_booked (h : q.Booked D) (i : Nat) (data : List UInt8)
    (hin : ∀ r, q.reserved[i]? = some r → data.length = r.info.sz.toNat) :
    wlp (encodeEntry i data) (fun _ q' => q'.Booked D) q := by
  rw [encodeEntry, wlp_bind, wlp_read]
  cases hr : q.reserved[i]? with
  | none => exact wlp_pure.2 h
  | some r =>
    have hlen := hin r hr
    simp only [wlp_bind, wlp_modify, wlp_pure]
    refine h.write hr fun b hb => ?_
    rcases encodeProdInfo_cases q.ix.env.disk r.offset r.extent r.info with ⟨hfits, henc⟩ | ⟨-, disk, henc, hsame⟩
    · have hle := Nat.mod_le r.extent (2 ^ 32)
      rw [encodeProduct, henc]
      refine (writeBytes_out ?_).trans (writeBytes_out (by omega))
      rcases h.2 r (mem_of_getElem? hr) with hno | ⟨-, hroom⟩
      · omega
      · omega
    · rw [encodeProduct, henc]
      exact hsame b hb

/-! ## Committing and giving up -/

theorem rollbackEntry_booked (h : Booked D q.ix g rs) (hr : rs[i]? = some r) (hres : q.reserved = rs.eraseIdx i)
    (hp : ∀ r ∈ rs, r.Placed) :
    wlp (rollbackEntry r) (fun status q' => status = 0 ∧ q'.Booked D ∧ q'.reserved = q.reserved) q := by
  have hmem := mem_of_getElem? hr
  obtain ⟨hreg, hfiled⟩ := h.ledger.reserved r hmem
  rw [rollbackEntry, wlp_locked]
  refine (freeByOffset_spec h.inv r.offset r.signature).wlp.mono ?_
  rintro status s' (⟨-, -, hno | hno⟩ | ⟨hst, henv, g', ext', h', hfreed, htimes⟩)
  · exact absurd (Multiset.mem_map_of_mem Prod.fst hreg) hno
  · exact absurd (Multiset.mem_map_of_mem Prod.fst hfiled) hno
  · have hb : Booked D s' g' q.reserved := by
      refine ⟨h', ?_⟩
      rw [henv, hres]
      exact h.ledger.rollback hr hfreed htimes
    refine ⟨hst, hb.unlocked (fun r' hr' => hp r' ?_) _, rfl⟩
    rw [hres] at hr'
    exact (eraseIdx_sublist _ _).mem hr'

/-- **Committing**: what is decoded, if anything is, has the signature of the entry. -/
theorem commitEntry_booked (h : Booked D q.ix g rs) (hr : rs[i]? = some r) (hres : q.reserved = rs.eraseIdx i)
    (hp : ∀ r ∈ rs, r.Placed)
    (hsig : ∀ info pos, decodeProdInfo q.ix.env.disk r.offset r.extent = some (info, pos) →
    info.signature = r.signature) : wlp (commitEntry r) (fun _ q' => q'.Booked D) q := by
  have hback : ∀ status : Int, status ≠ 0 → wlp (do
      let _ ← rollbackEntry r
      return status : Prog ProductQueue Int) (fun _ q' => q'.Booked D) q := by
    intro status _
    rw [wlp_bind]
    refine (rollbackEntry_booked h hr hres hp).mono ?_
    exact fun _ q' hq' => wlp_pure.2 hq'.2.1
  rw [commitEntry, wlp_bind, ProductQueue.tryCommit, wlp_bind, wlp_read]
  rcases hdec : decodeProdInfo q.ix.env.disk r.offset r.extent with - | ⟨info, pos⟩
  · rw [wlp_pure, if_pos (by decide)]
    exact hback _ (by decide)
  simp only
  split
  case isTrue =>
    rw [wlp_pure, if_pos (by decide)]
    exact hback _ (by decide)
  case isFalse =>
    have h1 := h.control (w := q.ix.env.now.2) rfl q.ix.isFull q.ix.smallestExtentSeen
    rw [wlp_locked]
    simp only [ProductQueue.enterTime, onEnv, wlp_bind, wlp_zoom, wlp_call]
    refine (tqAdd_spec h1.inv q.ix.env.now.1 r.offset).mono ?_
    rintro status s2 ⟨hst, hs2, g2, key, h2, hstamp⟩
    have hdisk : s2.env.disk = q.ix.env.disk := by rw [hs2]; rfl
    rw [if_neg (not_not.2 hst)]
    simp only [wlp_bind, wlp_zoom, wlp_call, wlp_pure, ne_eq, not_true_eq_false, if_false]
    have hsigned : Signed q.ix.env.disk r.offset r.extent r.signature := by
      rw [Signed, hdec, map_some, hsig info pos hdec]
    have hb : Booked D s2 g2 q.reserved := by
      refine ⟨h2, ?_⟩
      rw [hdisk, hres]
      exact h.ledger.commit hr hstamp hsigned
    have hb' := hb.control (w := QueueMetrics.markMostRecent s2.env) rfl s2.isFull s2.smallestExtentSeen
    refine hb'.unlocked (fun r' hr' => hp r' ?_) _
    rw [hres] at hr'
    exact (eraseIdx_sublist _ _).mem hr'

theorem commit_booked (h : q.Booked D) (i : Nat) (hsig : ∀ r, q.reserved[i]? = some r → ∀ info pos,
    decodeProdInfo q.ix.env.disk r.offset r.extent = some (info, pos) → info.signature = r.signature) :
    wlp (commit i) (fun _ q' => q'.Booked D) q := by
  rw [commit, wlp_bind, wlp_of_eq (takeEntry_run i q)]
  obtain ⟨⟨g, hb⟩, hp⟩ := id h
  cases hr : q.reserved[i]? with
  | none =>
    rw [eraseIdx_of_length_le (List.getElem?_eq_none_iff.1 hr)]
    exact wlp_pure.2 h
  | some r => exact commitEntry_booked hb hr rfl hp (hsig r hr)

theorem rollback_booked (h : q.Booked D) (i : Nat) : wlp (rollback i) (fun _ q' => q'.Booked D) q := by
  rw [rollback, wlp_bind, wlp_of_eq (takeEntry_run i q)]
  obtain ⟨⟨g, hb⟩, hp⟩ := id h
  cases hr : q.reserved[i]? with
  | none =>
    rw [eraseIdx_of_length_le (List.getElem?_eq_none_iff.1 hr)]
    exact wlp_pure.2 h
  | some r =>
    have hback := rollbackEntry_booked (q := { q with reserved := q.reserved.eraseIdx i }) hb hr rfl hp
    exact hback.mono fun _ _ hq' => hq'.2.1

/-! ## Deleting and reading -/

theorem Booked.lost (h : Booked D s g rs) (hl : Lost D s g s') : ∃ g', Booked D s' g' rs := by
  rcases hl with ⟨hs', hdisk⟩ | ⟨x, hx, r, sig, g', w, hdisk, hoff, hfiled, hd⟩
  · rw [hs']
    exact ⟨g, h.control hdisk s.isFull s.smallestExtentSeen⟩
  · have hdisk' : s'.env.disk = s.env.disk := by rw [hd.rest]; exact hdisk
    refine ⟨g', hd.inv, ?_⟩
    rw [hdisk']
    exact h.ledger.without (hd.without_of rfl rfl) (hoff ▸ hfiled)

theorem deleteOldest_booked (h : q.Booked D) :
    wlp (locked (deleteOldest callbacks)) (fun _ q' => q'.Booked D) q := by
  obtain ⟨⟨g, hb⟩, hp⟩ := h
  rw [wlp_locked]
  refine (deleteOldest_spec hb.inv).wlp.mono ?_
  rintro status s' ⟨g', hsh, -⟩
  obtain ⟨hl, hdisk⟩ := hb.evicted hsh.evictions
  have hb' : Booked D s' g' q.reserved := ⟨hsh.inv, hdisk ▸ hl⟩
  exact hb'.unlocked hp _

theorem deleteBySignature_booked (h : q.Booked D) (interval : Nat) (sig : Signature) :
    wlp (ProductQueue.deleteBySignature interval sig) (fun _ q' => q'.Booked D) q := by
  obtain ⟨⟨g, hb⟩, hp⟩ := h
  refine (deleteBySignature_lost hb.inv hb.ledger.headed interval sig).mono ?_
  rintro status q' ⟨s', hlost, rfl⟩
  obtain ⟨g', hb'⟩ := hb.lost hlost
  exact hb'.unlocked hp _

theorem sequenceDelete_booked (h : q.Booked D) (mt : Match) (contains : ProdInfo → Bool) (cursor : Timestamp) :
    wlp (sequenceDelete mt contains cursor) (fun _ q' => q'.Booked D) q := by
  obtain ⟨⟨g, hb⟩, hp⟩ := h
  refine (sequenceDelete_exact hb.inv hb.ledger.headed mt contains cursor).mono ?_
  rintro res q' ⟨s', rfl, ⟨-, rfl, -⟩ | ⟨x, hx, -, hat⟩⟩
  · exact hb.unlocked hp _
  · obtain ⟨g', hb'⟩ := hb.lost (hat.lost hx).1
    exact hb'.unlocked hp _

theorem next_reads (h : IndexInv D q.ix g) (reverse : Bool) (contains : ProdInfo → Bool) (mapped : Bool)
    (cursor : Timestamp) : wlp (next D reverse contains mapped cursor) (fun _ q' => q' = q.afterRead) q := by
  obtain ⟨k, hpure, heq⟩ := next_peek reverse
  rw [heq, wlp_locked]
  exact (peek_reads h hpure).mono fun _ _ hs => by rw [hs]; rfl

theorem sequence_reads (h : IndexInv D q.ix g) (mt : Match) (contains : ProdInfo → Bool)
    (ifMatch : Option (Delivery → Int)) (mapped : Bool) (cursor : Timestamp) :
    wlp (sequence mt contains ifMatch mapped cursor) (fun _ q' => q' = q.afterRead) q := by
  cases ifMatch with
  | none => exact (sequence_unmatched h).mono fun _ _ hr => hr.1
  | some callback =>
    obtain ⟨k, hpure, heq⟩ := sequence_peek callback
    rw [heq, wlp_bind, wlp_assert, wlp_locked]
    exact fun _ => (peek_reads h hpure).mono fun _ _ hs => by rw [hs]; rfl

theorem ProductQueue.Booked.afterRead (h : q.Booked D) : q.afterRead.Booked D := by
  obtain ⟨⟨g, hb⟩, hp⟩ := h
  exact hb.unlocked hp _

/-! ## Runs -/

/-- **One operation** keeps the ledger. -/
theorem DirectOp.run_booked (h : q.Booked D) {op : DirectOp} (hv : op.Valid q) (hp : op.Proper q) :
    wlp (op.run D) (fun _ q' => q'.Booked D) q := by
  cases op with
  | newElementDirect size sig mapped => exact wlp_status (newElementDirect_booked h hp sig mapped) fun _ _ hq' => hq'
  | writeBuffer i pos bytes =>
    exact wlp_status (writeBuffer_booked h i pos bytes fun r hr => hv r hr) fun _ _ hq' => hq'
  | queue op =>
    cases op with
    | newElement info mapped => exact wlp_status (newElement_booked h (encoded_fits D hv) mapped) fun _ _ hq' => hq'
    | writePayload i pos bytes =>
      exact wlp_status (writePayload_booked h i pos bytes fun r hr => hv r hr) fun _ _ hq' => hq'
    | encodeEntry i data => exact wlp_status (encodeEntry_booked h i data fun r hr => hv r hr) fun _ _ hq' => hq'
    | commit i => exact wlp_status (commit_booked h i fun r hr _ _ hdec => hp r hr _ hdec) fun _ _ hq' => hq'
    | rollback i => exact wlp_status (rollback_booked h i) fun _ _ hq' => hq'
    | deleteOldest => exact wlp_status (deleteOldest_booked h) fun _ _ hq' => hq'
    | deleteBySignature interval sig => exact wlp_status (deleteBySignature_booked h interval sig) fun _ _ hq' => hq'
    | sequenceDelete mt contains cursor => exact sequenceDelete_booked h mt contains cursor
    | next reverse contains mapped cursor =>
      obtain ⟨⟨g, hb⟩, -⟩ := id h
      exact (next_reads hb.inv reverse contains mapped cursor).mono fun _ _ he => he ▸ h.afterRead
    | sequence mt contains ifMatch mapped cursor =>
      obtain ⟨⟨g, hb⟩, -⟩ := id h
      exact (sequence_reads hb.inv mt contains ifMatch mapped cursor).mono fun _ _ he => he ▸ h.afterRead

theorem ProductQueue.Created.booked (h : q.Created D) : q.Booked D := by
  obtain ⟨q0, nproducts, hal, hres, hrun⟩ := h
  have hspec : wlp (create D nproducts) (fun _ q' => q'.Booked D) q0 := by
    rw [create, wlp_locked, hres]
    refine (formatNew_empty hal nproducts).mono ?_
    rintro status s' ⟨g, h, hcat⟩
    have hb : Rdm.Booked D s' g [] := ⟨h, by rw [hcat]; exact Ledger.empty _⟩
    exact hb.unlocked (fun _ hr => absurd hr not_mem_nil) _
  exact hspec.of_returned hrun

/-- **The ledger is kept** in every run of proper operations. -/
theorem ReachedDirect.booked (h : ReachedDirect D DirectOp.Proper q) : q.Booked D := by
  refine h.invariant (fun _ hq => hq.booked) ?_
  rintro q op q' hq ⟨hv, hp⟩ hnext
  obtain ⟨⟨res, q''⟩, hrun, rfl⟩ := map_eq_some_iff.1 hnext
  exact (DirectOp.run_booked hq hv hp).of_returned hrun

/-! ## Evicting any product -/

theorem decodeFunc_granted (hg : w.grants w.requests = true) {pos : Int}
    (hdec : decodeProdInfo w.disk off ext = some (info, pos)) : (callbacks.decode off ext w).1 = (0, info) := by
  simp [callbacks, decodeFunc, World.getRegionNoWait, hg, hdec]

theorem deleteOldestFrom_evicts {x : Nat} {pre suf : List Nat} (h : Booked D s g rs) (hts : g.ts = pre ++ x :: suf)
    (hgrant : s.env.grants s.env.requests = true) (fuel : Nat) (status : Int) :
    wp (deleteOldestFrom callbacks (fuel + 1) x status) (fun status s' => status = 0 ∧ ∃ g' ext sig, IndexInv D s' g' ∧
      (sig, (s.tq.tqep x).offset) ∈ (catalog s g).sigs ∧
      (catalog s g).Without (s.tq.tqep x).tv (s.tq.tqep x).offset ext sig (catalog s' g')) s := by
  have hx : x ∈ g.ts := by rw [hts]; simp
  obtain ⟨ext, sig, hreg, hfiled, hsigned⟩ := h.ledger.committed (timeOf s.tq x) (mem_map_of_mem hx)
  simp only [deleteOldestFrom, wp_bind, wp_read]
  refine (find_region h.inv (Multiset.mem_map_of_mem Prod.fst hreg)).mono ?_
  rintro r s' ⟨rfl, hne, hr, hoff, hregion⟩
  have hext : (s'.rl.rp r).getExtent = ext := h.ledger.extent_unique hregion hreg
  -- the header is there, and its signature is filed
  obtain ⟨⟨info, pos⟩, hdec, hsig⟩ := map_eq_some_iff.1 hsigned
  have hdec : decodeProdInfo s'.env.disk (s'.rl.rp r).offset (s'.rl.rp r).getExtent = some (info, pos) := by
    rw [hoff, hext]
    exact hdec
  have hcb := decodeFunc_granted hgrant hdec
  rw [if_neg hne, wp_bind]
  refine (tryDeleteProduct_spec h.inv hts hr hoff rfl).mono ?_
  rintro out s1 (⟨hne0, -, hout | ⟨-, -, hno⟩⟩ | ⟨h0, hout, g', hd, -⟩)
  · rw [hout, hcb] at hne0
    exact absurd rfl hne0
  · rw [hcb] at hno
    exact absurd (hsig ▸ Multiset.mem_map_of_mem Prod.fst hfiled) hno
  · simp only [h0, if_true, wp_bind, wp_modify, wp_read, onEnv, wp_zoom, wp_call, wp_pure, true_and]
    have hw : (catalog s' g).Without (s'.tq.tqep x).tv (s'.rl.rp r).offset (s'.rl.rp r).getExtent out.2.signature
        (catalog s1 g') := hd.without
    have hsame : out.2.signature = sig := by rw [← hout, hcb, ← hsig]
    rw [hoff] at hw
    exact ⟨g', _, _, hd.inv.control _ true _, hsame ▸ hfiled, hw⟩

theorem Booked.deleteOldest_evicts (h : Booked D s g rs) {l suf : List Nat} {x : Nat} (hts : g.ts = l ++ x :: suf)
    (hrefuse : ∀ k < l.length, s.env.grants (s.env.requests + k) = false)
    (hgrant : s.env.grants (s.env.requests + l.length) = true) :
    wp (deleteOldest callbacks) (fun status s' => status = 0 ∧ ∃ g' ext sig, IndexInv D s' g' ∧
      (sig, (s.tq.tqep x).offset) ∈ (catalog s g).sigs ∧
      (catalog s g).Without (s.tq.tqep x).tv (s.tq.tqep x).offset ext sig (catalog s' g')) s := by
  have hregion : ∀ p ∈ l.map (timeOf s.tq), ∃ ext, (p.2, ext) ∈ (catalog s g).regions := by
    intro p hp
    obtain ⟨ext, _, hreg, -⟩ := h.ledger.committed p (by rw [catalog, hts, map_append]; exact mem_append_left _ hp)
    exact ⟨ext, hreg⟩
  rw [← length_map (timeOf s.tq)] at hrefuse hgrant
  obtain ⟨fuel, -, heq⟩ := (refused_of_denied _ _ hregion hrefuse).deleteOldest_eq _ h.inv hts
  have h' := h.control (w := { s.env with requests := s.env.requests + (l.map (timeOf s.tq)).length }) rfl
    s.isFull s.smallestExtentSeen
  rw [wp_congr heq]
  exact deleteOldestFrom_evicts h' hts hgrant fuel EACCES

theorem Ledger.removed {a a' : Catalog} {disk : Memory} (h : Ledger a disk rs) {t : Timestamp}
    (hw : a.Without t off ext sig a') (hfiled : (sig, off) ∈ a.sigs) {pre suf : List (Timestamp × Int)}
    (hts : a.times = pre ++ (t, off) :: suf) (hnd : a.times.Nodup) :
    a'.times = pre ++ suf ∧ off ∉ a'.regions.map Prod.fst ∧ off ∉ a'.sigs.map Prod.snd := by
  obtain ⟨pre', suf', hts1, hts2⟩ := hw.times
  have hsplit := hnd
  rw [hts1, nodup_middle, nodup_cons, mem_append, not_or] at hsplit
  rw [hts1, append_cons_inj_of_notMem hsplit.1.1 hsplit.1.2] at hts
  obtain ⟨rfl, -, rfl⟩ := hts
  have hregion := hw.region_gone h.toSpread
  exact ⟨hts2, hregion, by rw [(h.without hw hfiled).offsets]; exact hregion⟩

/-- **Every product can be evicted** in every run in which no size is 0 and headers are committed under the signature
they were reserved with: when its turn comes `DeleteOldest` deletes it. -/
theorem direct_entries_evictable {D : DataSection} {q : ProductQueue} (h : ReachedDirect D DirectOp.Proper q) :
    (q.ix.regions.map Prod.fst).Nodup ∧ (∀ p ∈ q.ix.regions, 0 < p.2) ∧
      (q.ix.filed.map Prod.snd).Perm (q.ix.regions.map Prod.fst) ∧
      ∀ pre t off suf, q.ix.times = pre ++ (t, off) :: suf →
        (∃ ext sig, (off, ext) ∈ q.ix.regions ∧ (sig, off) ∈ q.ix.filed ∧ Signed q.ix.env.disk off ext sig) ∧
        ((∀ k < pre.length, q.ix.env.grants (q.ix.env.requests + k) = false) →
          q.ix.env.grants (q.ix.env.requests + pre.length) = true →
          wp (ProductQueue.locked (deleteOldest ProductQueue.callbacks))
          (fun status q' => status = 0 ∧
            q'.ix.times = pre ++ suf ∧ off ∉ q'.ix.regions.map Prod.fst ∧ off ∉ q'.ix.filed.map Prod.snd) q) := by
  obtain ⟨⟨g, hb⟩, -⟩ := h.booked
  have hl := hb.ledger
  have hregions := hb.inv.regions_eq
  have hfiled := hb.inv.filed_eq
  have htimes := hb.inv.times_eq
  refine ⟨?_, ?_, ?_, ?_⟩
  · have hnd := hl.regions
    rw [← hregions] at hnd
    exact hnd
  · intro p hp
    have hp : p ∈ (q.ix.regions : Multiset (Int × Nat)) := hp
    rw [hregions] at hp
    exact hl.positive p hp
  · have ho := hl.offsets
    rw [← hregions, ← hfiled] at ho
    exact Multiset.coe_eq_coe.1 ho
  · intro pre t off suf hts
    rw [htimes] at hts
    refine ⟨?_, fun hrefuse hgrant => ?_⟩
    · obtain ⟨ext, sig, hreg, hsig, hsigned⟩ := hl.committed (t, off) (by rw [hts]; simp)
      rw [← hregions] at hreg
      rw [← hfiled] at hsig
      exact ⟨ext, sig, hreg, hsig, hsigned⟩
    · obtain ⟨l, l', hgts, hpre, hrest⟩ := map_eq_append_iff.1 hts
      obtain ⟨x, l'', rfl, hx, hsuf⟩ := map_eq_cons_iff.1 hrest
      have hlen : pre.length = l.length := by rw [← hpre, length_map]
      rw [hlen] at hrefuse hgrant
      obtain ⟨hxt, hxo⟩ := Prod.mk.inj hx
      rw [wp_locked]
      refine (hb.deleteOldest_evicts hgts hrefuse hgrant).mono ?_
      rintro status s' ⟨hst, g', ext, sig, h', hsig, hw⟩
      rw [hxt, hxo] at hw
      rw [hxo] at hsig
      obtain ⟨h1, h2, h3⟩ := hl.removed hw hsig hts hb.inv.times_nodup
      rw [← h'.regions_eq] at h2
      rw [← h'.filed_eq] at h3
      rw [← h'.times_eq] at h1
      exact ⟨hst, h1, h2, h3⟩

def directRun (P : ProductQueue → DirectOp → Prop) [∀ q op, Decidable (P q op)] (ops : List DirectOp) :
    Option ProductQueue :=
  ((ProductQueue.create smallSection 4
    (blankQueue smallSection.align tick)).returned.bind fun r => if r.1 = 0 then some r.2 else none).bind
    (Transitions.runIf (DirectOp.next smallSection) (fun q op => op.Valid q ∧ P q op) ops)

theorem directRun_reached {P : ProductQueue → DirectOp → Prop} [∀ q op, Decidable (P q op)] {ops : List DirectOp}
    {q : ProductQueue} (h : directRun P ops = some q) : ReachedDirect smallSection P q := by
  obtain ⟨q1, h1, hrun⟩ := bind_eq_some_iff.1 h
  obtain ⟨⟨status, q2⟩, h2, hst⟩ := bind_eq_some_iff.1 h1
  simp only [ite_none_right_eq_some, Option.some.injEq] at hst
  obtain ⟨rfl, rfl⟩ := hst
  exact Transitions.runIf_reached (.start ⟨_, _, rfl, rfl, h2⟩) hrun

theorem exists_directRun {P : ProductQueue → DirectOp → Prop} [∀ q op, Decidable (P q op)] {Q : ProductQueue → Prop}
    (ops : List DirectOp) (h : ∃ q, directRun P ops = some q ∧ Q q) : ∃ q, ReachedDirect smallSection P q ∧ Q q := by
  obtain ⟨q, hq, hQ⟩ := h
  exact ⟨q, directRun_reached hq, hQ⟩

def directOps (n : UInt8) : List DirectOp :=
  [.newElementDirect 144 (Signature.fill 1) true, .writeBuffer 0 0 (header (sampleInfo n)), .queue (.commit 0)]

theorem direct_entries_evictable_one : ∃ q, ReachedDirect smallSection DirectOp.Proper q ∧
    q.ix.times = [(⟨1, 0⟩, 4096)] ∧ (q.ix.regions.map Prod.fst).Nodup ∧
    wp (ProductQueue.locked (deleteOldest ProductQueue.callbacks)) (fun status q' => status = 0 ∧
      q'.ix.times = [] ∧ 4096 ∉ q'.ix.regions.map Prod.fst ∧ 4096 ∉ q'.ix.filed.map Prod.snd) q := by
  obtain ⟨q, hq, htimes, hgrant⟩ : ∃ q, ReachedDirect smallSection DirectOp.Proper q ∧ q.ix.times = [(⟨1, 0⟩, 4096)] ∧
      q.ix.env.grants q.ix.env.requests = true := by
    apply exists_directRun (directOps 1)
    decide +kernel
  obtain ⟨hnd, -, -, hev⟩ := direct_entries_evictable hq
  have hone := (hev [] ⟨1, 0⟩ 4096 [] htimes).2 (fun _ hk => absurd hk (Nat.not_lt_zero _)) hgrant
  exact ⟨q, hq, htimes, hnd, hone⟩

/-- Two regions of size 0 have the same offset; and a product whose header has another signature than was reserved
cannot be deleted, though nobody has it mapped. -/
theorem direct_entries_unchecked :
    (∃ q, ReachedDirect smallSection (fun _ _ => True) q ∧ q.ix.regions = [(4096, 0), (4096, 0)]) ∧
    ∃ q q', ReachedDirect smallSection (fun _ _ => True) q ∧ q.ix.times = [(⟨1, 0⟩, 4096)] ∧
      q.ix.env.grants q.ix.env.requests = true ∧
      (ProductQueue.locked (deleteOldest ProductQueue.callbacks) q).returned =
        some (PqStatus.corrupt.toInt, q') ∧ q'.ix.times = q.ix.times := by
  constructor
  · apply exists_directRun [.newElementDirect 0 (Signature.fill 1) true, .newElementDirect 0 (Signature.fill 2) true]
    decide +kernel
  · simp only [exists_and_left]
    apply exists_directRun (directOps 2)
    decide +kernel

end Rdm
