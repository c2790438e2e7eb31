import Rdm.Pq.Consistency

/-!
# What readers get

A product that is delivered was committed and not deleted since. As long as the clock readings of the commits increase,
none is entered behind the back of a reader.
-/

namespace Rdm

open ProgLogic ProgLogic.Prog Xdr SunRpcSerializer QueueIndexManager List

variable {D : DataSection} {P : QueueOp → Prop} {a : Audit}

/-! ## Products are read back as they were stored -/

/-- **Products are read back** as they were stored: a delivery is of a live product, with its metadata, of which only
long strings are cut, and with exactly its payload. -/
theorem delivered_as_stored (D : DataSection) {b : Audit} (h : Reached D (fun _ => True) b) {op : QueueOp}
    {res : Stepped}
    {q' : ProductQueue} (hv : op.Valid b.queue) (hrun : (op.run D b.queue).returned = some (res, q')) {d : Delivery}
    (hd : res.delivery = some d) :
    ∃ pg, (d.inserted, pg) ∈ b.store.live ∧ d.offset = pg.offset ∧
      (0 ≤ pg.info.arrival.sec ∧ pg.info.arrival.sec < 2 ^ 31 →
        -2 ^ 31 ≤ pg.info.arrival.usec ∧ pg.info.arrival.usec < 2 ^ 31 → 0 ∉ pg.info.origin → 0 ∉ pg.info.ident →
        d.info = { pg.info with origin := pg.info.origin.take 64, ident := pg.info.ident.take 255 }) ∧
      readBytes b.queue.ix.env.disk d.data pg.info.sz.toNat = pg.data ∧ pg.data.length = pg.info.sz.toNat ∧
      ∃ ext, (pg.offset, ext) ∈ b.queue.ix.regions ∧ pg.offset ≤ d.data ∧
      d.data + pg.info.sz.toNat ≤ pg.offset + ext := by
  obtain ⟨t, pg, hlive, hof⟩ := ((QueueOp.run_spec h.holds hv).of_returned hrun).delivery d hd
  have hsz : d.info.sz = pg.info.sz := by rw [hof.info]; rfl
  have hdata := hof.data
  have hinside := hof.inside
  rw [hsz] at hdata hinside
  refine ⟨pg, hof.inserted ▸ hlive, hof.offset, fun hsec husec horigin hident => ?_, hdata, ?_, hinside⟩
  · rw [hof.info]
    exact stored_eq ⟨by omega, hsec.2⟩ husec horigin hident
  · rw [← hdata, length_readBytes]

def tinyInfo : ProdInfo :=
  { arrival := ⟨7, 8⟩, signature := Signature.fill 1, origin := [104], ident := [97, 98], sz := 3 }

def tinyOps : List QueueOp := [.newElement tinyInfo true, .writePayload 0 0 [1, 2], .writePayload 0 2 [3], .commit 0]

def readAll : QueueOp := .next false (fun _ => true) true Timestamp.ZERO

theorem delivered_as_stored_tiny : ∃ (b : Audit) (res : Stepped) (q' : ProductQueue) (d : Delivery),
    Reached smallSection (fun _ => True) b ∧
    (readAll.run smallSection b.queue).returned = some (res, q') ∧ res.delivery = some d ∧
    d.info = tinyInfo ∧ readBytes b.queue.ix.env.disk d.data 3 = [1, 2, 3] := by
  obtain ⟨b, hreach, hlives, res, q', hr, hd⟩ : ∃ b : Audit, Reached smallSection (fun _ => True) b ∧
      (∀ e ∈ b.store.live, e.2.info = tinyInfo ∧ e.2.data = [1, 2, 3]) ∧
      ∃ res q', (readAll.run smallSection b.queue).returned = some (res, q') ∧ res.delivery.isSome = true := by
    apply exists_computed tick tinyOps
    decide +kernel
  obtain ⟨d, hd⟩ := Option.isSome_iff_exists.1 hd
  have hv : readAll.Valid b.queue := trivial
  obtain ⟨pg, hlive, -, hinfo, hdata, -⟩ := delivered_as_stored smallSection hreach hv hr hd
  obtain ⟨he, hbytes⟩ := hlives _ hlive
  rw [he, hbytes] at hdata
  rw [he] at hinfo
  refine ⟨b, res, q', d, hreach, hr, hd, ?_, hdata⟩
  exact hinfo (by decide) (by decide) (by decide) (by decide)

/-! ## Commits and readers -/

theorem Reached.stamps (h : Reached D P a) (hs : a.commits.Pairwise (· < ·)) :
    (∀ p ∈ a.queue.ix.times, p.1 ∈ a.commits) ∧ ∀ d ∈ a.delivered, d.inserted ∈ a.commits := by
  induction h with
  | create hal hres hrun =>
    have hnone := ((create_spec hal hres _).of_returned hrun).2.2
    refine ⟨fun p hp => ?_, nofun⟩
    have hp : p ∈ ([] : List (Timestamp × Int)) := hnone ▸ hp
    cases hp
  | @step b op res q' hr hop hv hrun ih =>
    have hdid := (QueueOp.run_spec hr.holds hv).of_returned hrun
    obtain ⟨hpre, -, hlt⟩ := pairwise_append.1 hs
    obtain ⟨htimes, hdel⟩ := ih hpre
    refine ⟨fun p hp => ?_, fun d hd => ?_⟩
    · rcases hdid.times p hp with hp | ⟨hread, hp⟩
      · exact mem_append_left _ (htimes p hp)
      · -- the reading is later than all times in the queue, so it is not taken
        have hfree : ∀ p ∈ b.queue.ix.times, p.1 ≠ b.queue.ix.env.now.1 := fun p hp =>
          ne_of_lt (hlt p.1 (htimes p hp) _ (by rw [hread]; exact mem_singleton.2 rfl))
        rw [hp hfree]
        exact mem_append_right _ (by rw [hread]; exact mem_singleton.2 rfl)
    · rcases mem_append.1 hd with hd | hd
      · exact mem_append_left _ (hdel d hd)
      · obtain ⟨t, pg, hlive, hof⟩ := hdid.delivery d (by simpa using hd)
        obtain ⟨⟨g, hk⟩, -⟩ := hr.holds
        have hmem : (t, pg.offset) ∈ b.queue.ix.times := by
          rw [hk.inv.times_eq]
          exact (hk.books.times _ _).2 ⟨pg, hlive, rfl⟩
        rw [hof.inserted]
        exact mem_append_left _ (htimes _ hmem)

/-- **No product is hidden** from a reader as long as the clock readings of the commits increase: a commit enters a time
that is later than every time that was delivered before. -/
theorem commit_after_delivered (D : DataSection) {b : Audit} (h : Reached D (fun _ => True) b) {i : Nat} {res : Stepped}
    {q' : ProductQueue} (hrun : ((QueueOp.commit i).run D b.queue).returned = some (res, q')) (hst : res.status = 0)
    (hclock : (b.commits ++ [b.queue.ix.env.now.1]).Pairwise (· < ·)) :
    ∃ pre suf key off, b.queue.ix.times = pre ++ suf ∧ q'.ix.times = pre ++ (key, off) :: suf ∧
      ∀ d ∈ b.delivered, d.inserted < key := by
  obtain ⟨hpre, -, hlt⟩ := List.pairwise_append.1 hclock
  obtain ⟨htimes, hdel⟩ := h.stamps hpre
  have hlast : ∀ t ∈ b.commits, t < b.queue.ix.env.now.1 := fun t ht => hlt t ht _ (List.mem_singleton.2 rfl)
  rw [QueueOp.run, QueueOp.status, returned_bind] at hrun
  obtain ⟨status, q₁, hcommit, hrun⟩ := hrun
  cases hrun
  rcases (commit_spec h.holds i).of_returned hcommit with ⟨-, d, key, -, -, -, ⟨pre, suf, hts, hts'⟩, hkey⟩ | ⟨hne, -⟩
  · refine ⟨pre, suf, key, d.1.offset, hts, hts', fun d hd => ?_⟩
    rw [hkey fun p hp => ne_of_lt (hlast _ (htimes p hp))]
    exact hlast _ (hdel d hd)
  · exact absurd hst hne

def readThenReserve : List QueueOp :=
  [.newElement (sampleInfo 1) true, .commit 0, readAll, .newElement (sampleInfo 2) true]

theorem commit_after_delivered_tick : ∃ (b : Audit) (q' : ProductQueue) (key : Timestamp) (off : Int),
    Reached smallSection (fun _ => True) b ∧ b.delivered.length = 1 ∧ (key, off) ∈ q'.ix.times ∧
    ∀ d ∈ b.delivered, d.inserted < key := by
  obtain ⟨b, hreach, hlen, hclock, res, q', hr, hst⟩ : ∃ b : Audit, Reached smallSection (fun _ => True) b ∧
      b.delivered.length = 1 ∧ (b.commits ++ [b.queue.ix.env.now.1]).Pairwise (· < ·) ∧
      ∃ res q', ((QueueOp.commit 0).run smallSection b.queue).returned = some (res, q') ∧ res.status = 0 := by
    apply exists_computed tick readThenReserve
    decide +kernel
  obtain ⟨pre, suf, key, off, -, hts, hdel⟩ :=
    commit_after_delivered smallSection hreach hr hst hclock
  exact ⟨b, q', key, off, hreach, hlen, by rw [hts]; simp, hdel⟩

def setBack (n : Nat) : Timestamp := if n < 2 then ⟨6, 0⟩ else ⟨5, 0⟩

/-- When the clock is set back, a product is entered before one that was delivered already. -/
theorem hidden_by_clock : (∀ n, Timestamp.ZERO ≤ setBack n ∧ setBack n < Timestamp.ENDT) ∧
    ∃ (b : Audit) (res : Stepped) (q' : ProductQueue), Reached smallSection (fun _ => True) b ∧
      ((QueueOp.commit 0).run smallSection b.queue).returned = some (res, q') ∧ res.status = 0 ∧
      b.delivered.map Delivery.inserted = [⟨6, 0⟩] ∧ b.queue.ix.times.map Prod.fst = [⟨6, 0⟩] ∧
      q'.ix.times.map Prod.fst = [⟨5, 0⟩, ⟨6, 0⟩] := by
  constructor
  · intro n
    unfold setBack
    split <;> decide
  · simp only [exists_and_left]
    apply exists_computed setBack readThenReserve
    decide +kernel

end Rdm
