import Rdm.Core.Receiver

/-!
# What a receiver does to the queue

An entry that a receiver holds is a draft of the store, which begins with the blocks that have arrived.
-/

namespace Rdm

open ProgLogic ProgLogic.Prog Xdr SunRpcSerializer List

variable {D : DataSection} {q q' : ProductQueue} {st st' : Store} {d : Reservation × List UInt8}
variable {data : List UInt8} {r : Reservation} {info : ProdInfo}

/-! ## Entries -/

theorem Holds.draft_index (h : Holds D q st) (hd : d ∈ st.drafts) :
    st.drafts[q.reserved.idxOf d.1]? = some d := by
  obtain ⟨⟨g, hk⟩, hres⟩ := h
  have hnd : (st.drafts.map fun d => d.1.offset).Nodup := by
    have hnd := hk.books.uses
    rw [Store.pages, map_append, nodup_append, map_map, map_map] at hnd
    exact hnd.2.1
  have hmem : d.1 ∈ q.reserved := hres ▸ mem_map_of_mem hd
  have hlt := idxOf_lt_length_of_mem hmem
  have hget : q.reserved[q.reserved.idxOf d.1]? = some d.1 := by
    rw [List.getElem?_eq_getElem hlt, getElem_idxOf]
  rw [← hres, List.getElem?_map] at hget
  obtain ⟨d', hd', he⟩ := Option.map_eq_some_iff.1 hget
  have hsame : d' = d := inj_on_of_nodup_map hnd (mem_of_getElem? hd') hd (congrArg Reservation.offset he)
  rw [← hres, hd', hsame]

theorem Holds.untimed (h : Holds D q st) (hd : d ∈ st.drafts) :
    d.1.offset ∉ q.ix.times.map Prod.snd := by
  obtain ⟨⟨g, hk⟩, -⟩ := h
  rw [hk.inv.times_eq]
  exact hk.books.draft_untimed hd

theorem Holds.draft_length (h : Holds D q st) (hd : d ∈ st.drafts) :
    d.2.length = d.1.info.sz.toNat := by
  obtain ⟨⟨g, hk⟩, -⟩ := h
  have hdata := (hk.books.pages _ (Store.mem_pages_of_draft hd)).data
  simp only [Store.draftPage] at hdata
  rw [← hdata, length_readBytes]

theorem Holds.draft_new (h : Holds D q (st.addDraft (r, data))) :
    ∀ d ∈ st.drafts, d.1 ≠ r := by
  intro d hd he
  obtain ⟨⟨g, hk⟩, -⟩ := h
  have hnd := hk.books.uses
  rw [Store.pages_addDraft, map_append, nodup_append] at hnd
  have hold : d.1.offset ∈ st.pages.map Page.offset := mem_map_of_mem (Store.mem_pages_of_draft hd)
  exact hnd.2.2 _ hold r.offset (mem_singleton.2 rfl) (by rw [he])

theorem Store.mem_dropDraft {i : Nat} {d' : Reservation × List UInt8} (hd : st.drafts[i]? = some d)
    (hd' : d' ∈ st.drafts) (hne : d' ≠ d) : d' ∈ (st.dropDraft i).drafts := by
  obtain ⟨hi, he⟩ := List.getElem?_eq_some_iff.1 hd
  have hp : (d :: st.drafts.eraseIdx i).Perm st.drafts := he ▸ getElem_cons_eraseIdx_perm hi
  rcases mem_cons.1 (hp.mem_iff.2 hd') with rfl | hm
  · exact absurd rfl hne
  · exact hm

structure GivenUp (D : DataSection) (q : ProductQueue) (st : Store) (gone : Reservation → Prop) (q' : ProductQueue)
    (st' : Store) : Prop where
  holds : Holds D q' st'
  times : q'.ix.times = q.ix.times
  live : st'.live = st.live
  drafts : ∀ d ∈ st.drafts, ¬ gone d.1 → d ∈ st'.drafts
  filled : Filled q.ix st → Filled q'.ix st'

theorem Holds.givenUp_none (h : Holds D q st) (gone : Reservation → Prop) : GivenUp D q st gone q st :=
  ⟨h, rfl, rfl, fun _ hd _ => hd, id⟩

def QueueEntry.In (e : QueueEntry) (st : Store) : Prop := ∀ r, e = .held r → ∃ data, (r, data) ∈ st.drafts

/-- **Giving up an entry.** -/
theorem QueueEntry.rollback_spec (h : Holds D q st) {e : QueueEntry} (he : e.In st) :
    wlp e.rollback (fun e' q' => (∀ r, e' ≠ .held r) ∧ ∃ st', GivenUp D q st (fun r => e = .held r) q' st') q := by
  cases e with
  | committed => exact wlp_pure.2 ⟨nofun, st, h.givenUp_none _⟩
  | released => exact wlp_pure.2 ⟨nofun, st, h.givenUp_none _⟩
  | held r =>
    obtain ⟨data, hd⟩ := he r rfl
    have hi := h.draft_index hd
    rw [QueueEntry.rollback, wlp_bind, wlp_read, wlp_bind]
    refine (Rdm.rollback_spec h _).mono ?_
    rintro _ q' ⟨htimes, hh, hfill⟩
    refine wlp_pure.2 ⟨nofun, _, hh, htimes, rfl, fun d hd' hne => ?_, hfill⟩
    refine Store.mem_dropDraft hi hd' fun e => hne ?_
    rw [e]

/-- **Committing an entry**: it is a live product then, or it is given up. -/
theorem QueueEntry.commit_spec (h : Holds D q st) (hd : (r, data) ∈ st.drafts) :
    wlp (QueueEntry.held r).commit (fun res q' => (∀ r', res.2 ≠ .held r') ∧ ∃ st', Holds D q' st' ∧
      (Filled q.ix st → Filled q'.ix st') ∧ (∀ d ∈ st.drafts, d.1 ≠ r → d ∈ st'.drafts) ∧
      (res.1 = 0 ∧ (∃ key, st'.live = st.live ++ [(key, ⟨r.offset, r.info, data⟩)]) ∨
        res.1 ≠ 0 ∧ st'.live = st.live ∧ q'.ix.times = q.ix.times)) q := by
  have hi := h.draft_index hd
  have hrest : ∀ d ∈ st.drafts, d.1 ≠ r → d ∈ (st.dropDraft (q.reserved.idxOf r)).drafts := fun d hd' hne =>
    Store.mem_dropDraft hi hd' fun e => hne (by rw [e])
  rw [QueueEntry.commit, wlp_bind, wlp_read, wlp_bind]
  refine (Rdm.commit_spec h _).mono ?_
  intro status q' hc
  rw [wlp_pure]
  refine ⟨fun r' => by split <;> nofun, ?_⟩
  rcases hc with ⟨hst, d, key, hd', hh, hfill, -⟩ | ⟨hst, htimes, hh, hfill⟩
  · rw [hi] at hd'
    cases hd'
    refine ⟨_, hh, hfill, fun d hd' hne => ?_, .inl ⟨hst, key, ?_⟩⟩
    · rw [Store.commitDraft, hi]
      exact hrest d hd' hne
    · rw [Store.commitDraft, hi]
      rfl
  · exact ⟨_, hh, hfill, hrest, .inr ⟨hst, rfl, htimes⟩⟩

/-! ## Transfers -/

/-- The record of a transfer: the entry that the announcement reserved, and the blocks that were accepted since. -/
structure Transfer where
  reservation : Reservation
  packets : List (Signature × List UInt8)

def Transfer.bytes (t : Transfer) : List UInt8 := (t.packets.map Prod.snd).flatten

def Transfer.push (t : Transfer) (p : Signature × List UInt8) : Transfer := { t with packets := t.packets ++ [p] }

theorem Transfer.bytes_push (t : Transfer) (p : Signature × List UInt8) : (t.push p).bytes = t.bytes ++ p.2 := by
  simp [bytes, push]

namespace Receiver

variable {s s' : Receiver} {t : Option Transfer}

/-- What a receiver knows of a transfer while it expects blocks. -/
structure Pending (s : Receiver) (t : Transfer) : Prop where
  entry : s.entry = some (.held t.reservation)
  info : t.reservation.info = s.pending
  pointer : s.blkMmapPointer = some t.reservation.payload
  remaining : t.bytes.length + s.remaining = s.pending.sz.toNat
  signatures : ∀ p ∈ t.packets, p.1 = s.pending.signature

/-- **The invariant of a receiver**: the entry that it holds is that of the last announcement, a draft which begins with
the blocks that have arrived. -/
structure Inv (s : Receiver) (st : Store) (t : Option Transfer) : Prop where
  held : ∀ r, s.entry = some (.held r) → ∃ tr data, t = some tr ∧ tr.reservation = r ∧ (r, data) ∈ st.drafts ∧
    tr.bytes <+: data
  pending : s.expectBlkdata = true → ∃ tr, t = some tr ∧ s.Pending tr

theorem Inv.entry_in (h : s.Inv st t) {e : QueueEntry} (he : s.entry = some e) : e.In st := by
  intro r hr
  obtain ⟨-, data, -, -, hd, -⟩ := h.held r (hr ▸ he)
  exact ⟨data, hd⟩

theorem Inv.idle (hexp : s.expectBlkdata = false) (hentry : ∀ r, s.entry ≠ some (.held r)) : s.Inv st t :=
  ⟨fun r hr => absurd hr (hentry r), fun h => absurd h (by rw [hexp]; exact Bool.false_ne_true)⟩

theorem Inv.frame (h : s.Inv st t) (hd : ∀ r data, s.entry = some (.held r) → (r, data) ∈ st.drafts →
    (r, data) ∈ st'.drafts) : s.Inv st' t := by
  refine ⟨fun r hr => ?_, h.pending⟩
  obtain ⟨tr, data, ht, hres, hmem, hpre⟩ := h.held r hr
  exact ⟨tr, data, ht, hres, hd r data hr hmem, hpre⟩

theorem rollback_spec (h : Holds D q st) (hi : s.Inv st t) : wlp s.rollback (fun s' q' =>
    (∀ r, s'.entry ≠ some (.held r)) ∧ s' = { s with entry := s'.entry } ∧
      ∃ st', GivenUp D q st (fun r => s.entry = some (.held r)) q' st') q := by
  rw [rollback]
  cases he : s.entry with
  | none => exact wlp_pure.2 ⟨by rw [he]; nofun, rfl, st, h.givenUp_none _⟩
  | some e =>
    simp only [wlp_bind]
    refine (QueueEntry.rollback_spec h (hi.entry_in he)).mono ?_
    rintro e' q' ⟨hno, st', hg⟩
    refine wlp_pure.2 ⟨fun r hr => hno r (Option.some.inj hr), rfl, st', { hg with drafts := fun d hd hne => ?_ }⟩
    exact hg.drafts d hd fun e => hne (congrArg some e)

def Tidy (s : Receiver) : Prop := s.expectBlkdata = false → ∀ r, s.entry ≠ some (.held r)

theorem interrupt_spec (h : Holds D q st) (hi : s.Inv st t) : wlp s.interrupt (fun s' q' =>
    s'.expectBlkdata = false ∧ (s.Tidy → ∀ r, s'.entry ≠ some (.held r)) ∧
      ∃ st', Holds D q' st' ∧ s'.Inv st' t ∧ q'.ix.times = q.ix.times ∧ (Filled q.ix st → Filled q'.ix st')) q := by
  rw [interrupt]
  cases hexp : s.expectBlkdata with
  | false =>
    rw [if_neg Bool.false_ne_true]
    exact wlp_pure.2 ⟨hexp, fun htidy => htidy hexp, st, h, hi, rfl, id⟩
  | true =>
    rw [if_pos rfl, wlp_bind]
    refine (rollback_spec h hi).mono ?_
    rintro s' q' ⟨hno, _, st', hg⟩
    exact wlp_pure.2 ⟨rfl, fun _ => hno, st', hg.holds, Inv.idle rfl hno, hg.times, hg.filled⟩

def announced (s : Receiver) (t : Option Transfer) : Option Transfer :=
  match s.entry with
  | some (.held r) => some ⟨r, []⟩
  | _ => t

/-- **An announcement.** -/
theorem comingSoon_spec (h : Holds D q st) (hi : s.Inv st t)
    (hmem : info.origin.length + info.ident.length < 2 ^ 62) (mapped : Bool) :
    wlp (s.comingSoon D mapped info) (fun res q' => (res.1 = 0 ↔ res.2.expectBlkdata = true) ∧ res.2.pending = info ∧
      (s.Tidy → res.2.Tidy) ∧ ∃ st', Holds D q' st' ∧ res.2.Inv st' (if res.1 = 0 then res.2.announced t else t) ∧
        q'.ix.times.Sublist q.ix.times ∧
        (mapped = true → getEncodedSize info < 2 ^ 32 → Filled q.ix st → Filled q'.ix st')) q := by
  rw [comingSoon, wlp_bind]
  refine (interrupt_spec h hi).mono ?_
  rintro s1 q1 ⟨hexp1, htidy, st1, h1, hi1, htimes1, hfill1⟩
  have hpend : Inv { s1 with pending := info } st1 t := by
    refine ⟨hi1.held, fun h => absurd h ?_⟩
    rw [hexp1]
    exact Bool.false_ne_true
  rw [wlp_bind]
  refine (newElement_spec h1 (encoded_fits D hmem) mapped).mono ?_
  rintro status q2 ⟨hsub, hout⟩
  rw [htimes1] at hsub
  rcases hout with ⟨hst, r, hr, hres, h2, hfill2⟩ | ⟨hst, -, h2, hfill2⟩
  · -- there is a new entry
    rw [if_neg (not_not.2 hst), wlp_bind, wlp_read, hres, List.getLast?_concat]
    have hold : ∀ d ∈ st1.drafts, d.1 ≠ r := h2.draft_new
    have hi2 : Inv { s1 with pending := info } ((st1.keep q2.ix.times).addDraft
        (r, readBytes q2.ix.env.disk r.payload info.sz.toNat)) t :=
      hpend.frame fun _ _ _ hd => mem_append_left _ hd
    simp only [wlp_bind]
    refine (rollback_spec h2 hi2).mono ?_
    rintro s3 q3 ⟨_, hs3, st3, hg⟩
    have hmine : (r, readBytes q2.ix.env.disk r.payload info.sz.toNat) ∈ st3.drafts := by
      refine hg.drafts _ (mem_append_right _ (mem_singleton.2 rfl)) fun he => ?_
      obtain ⟨-, data, -, -, hd, -⟩ := hi1.held r he
      exact hold _ hd rfl
    have hpending : s3.pending = info := by rw [hs3]
    refine wlp_pure.2 ⟨⟨fun _ => rfl, fun _ => hst⟩, hpending, fun _ hexp => absurd hexp (by simp), st3,
      hg.holds, ?_, ?_, fun _ _ hf => hg.filled (hfill2 (hfill1 hf))⟩
    · rw [if_pos hst]
      refine ⟨fun r' hr' => ?_, fun _ => ⟨⟨r, []⟩, rfl, rfl, hr.trans hpending.symm, rfl, ?_, fun _ h => by cases h⟩⟩
      · cases hr'
        exact ⟨⟨r, []⟩, _, rfl, rfl, hmine, nil_prefix⟩
      · rw [hpending]
        exact Nat.zero_add _
    · rw [hg.times]
      exact hsub
  · rw [if_pos hst, wlp_pure]
    refine ⟨⟨fun h => absurd h hst, fun h => absurd h ?_⟩, rfl, fun ht _ => htidy ht, _, h2, ?_, hsub,
      fun hm hs hf => hfill2 hm hs (hfill1 hf)⟩
    · rw [hexp1]
      exact Bool.false_ne_true
    · rw [if_neg hst]
      exact hpend.frame fun _ _ _ hd => hd

theorem finish_spec (h : Holds D q st) (hentry : s.entry = some (.held r))
    (hd : (r, data) ∈ st.drafts) : wlp s.finish (fun res q' => res.2.expectBlkdata = false ∧
      (∀ r', res.2.entry ≠ some (.held r')) ∧ ∃ st', Holds D q' st' ∧ (Filled q.ix st → Filled q'.ix st') ∧
        (res.1 = 0 ∧ (∃ key, st'.live = st.live ++ [(key, ⟨r.offset, r.info, data⟩)]) ∨
          res.1 ≠ 0 ∧ q'.ix.times = q.ix.times)) q := by
  rw [finish, hentry, Option.getD_some, wlp_bind]
  refine (QueueEntry.commit_spec h hd).mono ?_
  rintro res q1 ⟨hno, st1, h1, hfill1, _, hout⟩
  have hno1 : ∀ r', some res.2 ≠ some (.held r') := fun r' hr' => hno r' (Option.some.inj hr')
  by_cases herr : res.1 = 0
  · rw [if_neg (not_not.2 herr)]
    rcases hout with ⟨-, hlive⟩ | ⟨hbad, -⟩
    · exact wlp_pure.2 ⟨rfl, hno1, st1, h1, hfill1, .inl ⟨herr, hlive⟩⟩
    · exact absurd herr hbad
  · rw [if_pos herr, wlp_bind]
    refine (rollback_spec (t := none) h1 (Inv.idle rfl hno1)).mono ?_
    rintro s2 q2 ⟨hno2, hs2, st2, hg⟩
    rcases hout with ⟨hok, -⟩ | ⟨-, -, htimes⟩
    · exact absurd hok herr
    · refine wlp_pure.2 ⟨by rw [hs2], hno2, st2, hg.holds, fun hf => hg.filled (hfill1 hf), .inr ⟨herr, ?_⟩⟩
      rw [hg.times, htimes]

theorem memcpy_spec (h : Holds D q st) {tr : Transfer} (hp : s.Pending tr) {old : List UInt8}
    (hd : (tr.reservation, old) ∈ st.drafts) (hpre : tr.bytes <+: old) (hlen : data.length ≤ s.remaining) :
    wlp (memcpy s.blkMmapPointer s.offset data) (fun _ q' => q'.ix.times = q.ix.times ∧ ∃ st' new, Holds D q' st' ∧
      (Filled q.ix st → Filled q'.ix st') ∧ st'.live = st.live ∧ (tr.reservation, new) ∈ st'.drafts ∧
      tr.bytes ++ data <+: new) q := by
  have hrem := hp.remaining
  have hoff : s.offset = tr.bytes.length := by
    rw [offset]
    omega
  have hi := h.draft_index hd
  have hfits : tr.bytes.length + data.length ≤ tr.reservation.info.sz.toNat := by
    rw [hp.info]
    omega
  obtain ⟨htimes, hh, hfill⟩ := h.overwritten hi hfits
  rw [memcpy, hp.pointer, hoff, wlp_bind, wlp_assert]
  intro _
  rw [wlp_modify]
  refine ⟨htimes, _, overwrite old tr.bytes.length data, hh, hfill, rfl, ?_, ?_⟩
  · rw [Store.editDraft_eq hi]
    obtain ⟨hlt, -⟩ := List.getElem?_eq_some_iff.1 hi
    exact mem_set hlt _
  · rw [overwrite, prefix_iff_eq_take.1 hpre |>.symm]
    exact prefix_append _ _

theorem Pending.push {tr : Transfer} (hp : s.Pending tr) {signature : Signature}
    (hacc : s.Accepts signature data) :
    Pending { s with remaining := s.remaining - data.length } (tr.push (signature, data)) := by
  obtain ⟨-, hsig, hlen⟩ := hacc
  refine ⟨hp.entry, hp.info, hp.pointer, ?_, fun p hm => ?_⟩
  · have hrem := hp.remaining
    rw [Transfer.bytes_push, length_append]
    show tr.bytes.length + data.length + (s.remaining - data.length) = s.pending.sz.toNat
    omega
  · rcases mem_append.1 hm with hm | hm
    · exact hp.signatures p hm
    · rw [mem_singleton.1 hm]
      exact hsig.symm

/-- **A block.** -/
theorem blkData_spec (h : Holds D q st) (hi : s.Inv st t) (signature : Signature) (data : List UInt8) :
    wlp (s.blkData signature data) (fun res q' => (s.Tidy → res.2.Tidy) ∧ ∃ st', Holds D q' st' ∧
      (Filled q.ix st → Filled q'.ix st') ∧
      res.2.Inv st' (if s.Accepts signature data then t.map (·.push (signature, data)) else t) ∧
      (q'.ix.times = q.ix.times ∨ s.Accepts signature data ∧ data.length = s.remaining ∧ res.1 = 0 ∧
        ∃ tr key, t = some tr ∧ s.Pending tr ∧ st'.live = st.live ++
          [(key, ⟨tr.reservation.offset, tr.reservation.info, (tr.push (signature, data)).bytes⟩)])) q := by
  rw [blkData]
  by_cases hexp : s.expectBlkdata = false
  · have hno : ¬ s.Accepts signature data := fun hacc => by
      have := hacc.1
      rw [hexp] at this
      cases this
    rw [if_pos hexp, wlp_pure, if_neg hno]
    exact ⟨id, st, h, id, hi, .inl rfl⟩
  rw [if_neg hexp]
  by_cases hacc : s.Accepts signature data
  · -- the block is copied
    obtain ⟨tr, ht, hp⟩ := hi.pending (Bool.not_eq_false _ ▸ hexp)
    obtain ⟨tr', old, ht', -, hd, hpre⟩ := hi.held _ hp.entry
    rw [ht] at ht'
    cases ht'
    have hpush := hp.push hacc
    rw [if_pos hacc, if_pos hacc, wlp_bind]
    refine (memcpy_spec h hp hd hpre hacc.2.2).mono ?_
    rintro _ q1 ⟨htimes1, st1, new, h1, hfill1, hlive1, hd1, hpre1⟩
    rw [← Transfer.bytes_push tr (signature, data)] at hpre1
    by_cases hlast : s.remaining - data.length = 0
    · -- it was the last one
      simp only [if_pos hlast]
      refine (finish_spec h1 hpush.entry hd1).mono ?_
      rintro res q2 ⟨hexp2, hno2, st2, h2, hfill2, hout⟩
      refine ⟨fun _ _ => hno2, st2, h2, fun hf => hfill2 (hfill1 hf), Inv.idle hexp2 hno2, ?_⟩
      rcases hout with ⟨hst, key, hlive2⟩ | ⟨-, htimes2⟩
      · have hlen := hacc.2.2
        refine .inr ⟨hacc, by omega, hst, tr, key, ht, hp, ?_⟩
        have hall : (tr.push (signature, data)).bytes = new := by
          refine hpre1.eq_of_length ?_
          have hrem := hpush.remaining
          have hdl := h1.draft_length hd1
          simp only at hrem hdl
          rw [hdl, hp.info]
          omega
        rw [hlive2, hlive1, hall]
        rfl
      · exact .inl (htimes2.trans htimes1)
    · simp only [if_neg hlast]
      refine wlp_pure.2 ⟨fun _ hexp' => absurd hexp' hexp, st1, h1, hfill1, ⟨fun r hr => ?_, fun _ => ?_⟩, .inl htimes1⟩
      · have hr' : s.entry = some (.held r) := hr
        rw [hp.entry] at hr'
        cases hr'
        rw [ht]
        exact ⟨tr.push (signature, data), new, rfl, rfl, hd1, hpre1⟩
      · rw [ht]
        exact ⟨_, rfl, hpush⟩
  · -- the block is refused, and the transfer given up
    rw [if_neg hacc, if_neg hacc, wlp_bind]
    refine (rollback_spec h hi).mono ?_
    rintro s1 q1 ⟨hno, _, st1, hg⟩
    exact wlp_pure.2 ⟨fun _ _ => hno, st1, hg.holds, hg.filled, Inv.idle rfl hno, .inl hg.times⟩

end Receiver

/-! ## Whole products -/

theorem Store.dropDraft_last (st : Store) (d : Reservation × List UInt8) (f : List UInt8 → List UInt8) :
    (((st.addDraft d).editDraft st.drafts.length f).dropDraft st.drafts.length).drafts = st.drafts := by
  have hget : (st.addDraft d).drafts[st.drafts.length]? = some d := List.getElem?_concat_length
  rw [Store.editDraft_eq hget]
  simp [addDraft, dropDraft, eraseIdx_append_of_length_le]

/-- **Inserting a product** leaves the drafts of others as they are. -/
theorem insert_spec (h : Holds D q st) (hmem : info.origin.length + info.ident.length < 2 ^ 62)
    (hlen : data.length = info.sz.toNat) (mapped : Bool) :
    wlp (ProductQueue.insert D info data mapped) (fun status q' => ∃ st', Holds D q' st' ∧ st'.drafts = st.drafts ∧
      (mapped = true → getEncodedSize info < 2 ^ 32 → Filled q.ix st → Filled q'.ix st') ∧
      ∀ p ∈ st'.live, p ∈ st.live ∨ status = 0 ∧ p.2.info = info) q := by
  rw [ProductQueue.insert, wlp_bind]
  refine (newElement_spec h (encoded_fits D hmem) mapped).mono ?_
  rintro status q1 ⟨_, hout⟩
  have hkeep : ∀ p ∈ (st.keep q1.ix.times).live, p ∈ st.live := fun p hp => (mem_filter.1 hp).1
  rcases hout with ⟨hst, r, hr, hres, h1, hfill1⟩ | ⟨hst, -, h1, hfill1⟩
  · have hlast : q1.reserved.length - 1 = st.drafts.length := by
      rw [hres, length_append, ← h.2, length_map]
      rfl
    rw [if_neg (not_not.2 hst), wlp_bind, wlp_read, hlast, wlp_bind]
    refine (encodeEntry_spec h1 st.drafts.length data fun r1 hr1 => ?_).mono ?_
    · have hlen' : st.drafts.length = q.reserved.length := by rw [← h.2, length_map]
      rw [hres, hlen', List.getElem?_concat_length] at hr1
      cases hr1
      rw [hr, hlen]
    rintro status2 q2 ⟨_, h2, hfill2⟩
    have hdrop := (st.keep q1.ix.times).dropDraft_last (r, readBytes q1.ix.env.disk r.payload info.sz.toNat)
      fun old => if status2 = 0 then data else old
    split
    · refine (commit_spec h2 _).mono ?_
      intro status3 q3 hc
      rcases hc with ⟨hst3, d, key, hd, h3, hfill3, -⟩ | ⟨-, -, h3, hfill3⟩
      · have hinfo : d.1.info = info := by
          simp [Store.editDraft, Store.addDraft, Store.keep] at hd
          rw [← hd]
          exact hr
        refine ⟨_, h3, ?_, fun _ _ hf => hfill3 (hfill2 (hfill1 hf)), ?_⟩
        · rw [Store.commitDraft, hd]
          exact hdrop
        · rw [Store.commitDraft, hd]
          intro p hp
          rcases mem_append.1 hp with hp | hp
          · exact .inl (hkeep p hp)
          · rw [mem_singleton.1 hp]
            exact .inr ⟨hst3, hinfo⟩
      · exact ⟨_, h3, hdrop, fun _ _ hf => hfill3 (hfill2 (hfill1 hf)), fun p hp => .inl (hkeep p hp)⟩
    · rw [wlp_bind]
      refine (rollback_spec h2 _).mono ?_
      rintro _ q3 ⟨_, h3, hfill3⟩
      exact wlp_pure.2 ⟨_, h3, hdrop, fun _ _ hf => hfill3 (hfill2 (hfill1 hf)), fun p hp => .inl (hkeep p hp)⟩
  · rw [if_pos hst]
    exact wlp_pure.2 ⟨_, h1, rfl, hfill1, fun p hp => .inl (hkeep p hp)⟩

end Rdm
