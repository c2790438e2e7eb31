import Rdm.Pq.Store

/-!
# Changing the store

How the books change when a region is allocated, a product is drafted, written, and committed or given up.
-/

namespace Rdm

open Xdr SunRpcSerializer List

variable {a a' : Catalog} {disk disk' : Memory} {st : Store} {pg : Page} {off : Int} {ext : Nat} {sig : Signature}
variable {i : Nat} {d : Reservation × List UInt8}

/-! ## Writing -/

theorem Page.On.frame (h : pg.On a disk)
    (hroom : (SunRpcSerializer.header pg.info).length + pg.info.sz.toNat ≤ ext)
    (hsame : ∀ b, pg.offset ≤ b → b < pg.offset + ext → disk' b = disk b) : pg.On a disk' where
  filed := h.filed
  region := h.region
  header := by
    rw [← h.header, length_readBytes]
    exact readBytes_congr fun b h1 h2 => hsame b h1 (by omega)
  data := by
    rw [← h.data]
    exact readBytes_congr fun b h1 h2 => hsame b (by omega) (by omega)

theorem Books.page_frame (h : Books a disk st) (hreg : (off, ext) ∈ a.regions)
    (hout : ∀ b, b < off ∨ off + ext ≤ b → disk' b = disk b) (hpg : pg ∈ st.pages) (hne : pg.offset ≠ off) :
    pg.On a disk' := by
  obtain ⟨e, he, hroom⟩ := (h.pages pg hpg).region
  refine (h.pages pg hpg).frame hroom fun b h1 h2 => hout b ?_
  have := h.apart _ he _ hreg hne
  simp only at this
  omega

theorem Books.write (h : Books a disk st) (hreg : (off, ext) ∈ a.regions)
    (hout : ∀ b, b < off ∨ off + ext ≤ b → disk' b = disk b) (hno : ∀ pg ∈ st.pages, pg.offset ≠ off) :
    Books a disk' st :=
  { h with pages := fun pg hpg => h.page_frame hreg hout hpg (hno pg hpg) }

theorem Books.recount (h : Books a disk st) (n : Nat) : Books { a with nbytes := n } disk st :=
  { h with pages := fun pg hpg => { h.pages pg hpg with } }

/-! ## Drafts -/

theorem Books.enter (h : Books a disk st) (ha' : a' = (a.addRegion (off, ext)).addSig (sig, off))
    (hsig : sig ∉ a.sigs.map Prod.fst) (hspread : a'.Spread) : Books a' disk st ∧ ∀ pg ∈ st.pages, pg.offset ≠ off := by
  obtain ⟨hsound, hnew⟩ := h.toSound.enter ha' hsig hspread
  have hno : ∀ pg ∈ st.pages, pg.offset ≠ off := by
    intro pg hpg e
    obtain ⟨e', he, -⟩ := (h.pages pg hpg).region
    exact hnew (e ▸ Multiset.mem_map_of_mem Prod.fst he)
  subst ha'
  refine ⟨{ hsound, h with pages := fun pg hpg => ?_, drafts := fun d hd => ?_, readable := fun p hp e he => ?_ }, hno⟩
  · have hon := h.pages pg hpg
    obtain ⟨e', he, hroom⟩ := hon.region
    exact { hon with filed := Multiset.mem_cons_of_mem hon.filed, region := ⟨e', Multiset.mem_cons_of_mem he, hroom⟩ }
  · obtain ⟨h1, h2⟩ := h.drafts d hd
    exact ⟨Multiset.mem_cons_of_mem h1, h2⟩
  · rcases Multiset.mem_cons.1 he with heq | he
    · exact absurd (congrArg Prod.fst heq) (hno _ (Store.mem_pages_of_live hp))
    · exact h.readable p hp e he

def Store.addDraft (st : Store) (d : Reservation × List UInt8) : Store := { st with drafts := st.drafts ++ [d] }

theorem Store.pages_addDraft (st : Store) (d : Reservation × List UInt8) :
    (st.addDraft d).pages = st.pages ++ [draftPage d] := by
  simp [pages, addDraft]

theorem Books.draft (h : Books a disk st) {r : Reservation} {data : List UInt8}
    (hreg : (r.offset, r.extent) ∈ a.regions)
    (hsig : r.signature = r.info.signature) (hpay : r.payload = r.offset + (header r.info).length)
    (hpage : (Store.draftPage (r, data)).On a disk) (hno : ∀ pg ∈ st.pages, pg.offset ≠ r.offset) :
    Books a disk (st.addDraft (r, data)) := by
  have hpages := st.pages_addDraft (r, data)
  refine { h with uses := ?_, pages := ?_, drafts := ?_ }
  · rw [hpages, map_append, nodup_append]
    refine ⟨h.uses, by simp, ?_⟩
    intro o ho o' ho' e
    obtain ⟨pg, hpg, rfl⟩ := mem_map.1 ho
    simp only [map_cons, map_nil, mem_singleton] at ho'
    exact hno pg hpg (e.trans ho')
  · intro pg hpg
    rw [hpages, mem_append, mem_singleton] at hpg
    rcases hpg with hpg | rfl
    · exact h.pages pg hpg
    · exact hpage
  · intro d hd
    rcases mem_append.1 hd with hd | hd
    · exact h.drafts d hd
    · cases mem_singleton.1 hd
      exact ⟨hreg, hsig, hpay⟩

def Store.dropDraft (st : Store) (i : Nat) : Store := { st with drafts := st.drafts.eraseIdx i }

def Store.editDraft (st : Store) (i : Nat) (f : List UInt8 → List UInt8) : Store :=
  { st with drafts := st.drafts.modify i fun d => (d.1, f d.2) }

def Store.commitDraft (st : Store) (i : Nat) (key : Timestamp) : Store :=
  match st.drafts[i]? with
  | none => st
  | some d => ⟨st.drafts.eraseIdx i, st.live ++ [(key, draftPage d)]⟩

theorem Store.editDraft_eq (hd : st.drafts[i]? = some d) (f : List UInt8 → List UInt8) :
    st.editDraft i f = { st with drafts := st.drafts.set i (d.1, f d.2) } := by
  rw [editDraft, modify_eq_set_getElem?, hd]
  rfl

theorem Store.editDraft_none (hd : st.drafts[i]? = none) (f : List UInt8 → List UInt8) : st.editDraft i f = st := by
  rw [editDraft, modify_eq_self (List.getElem?_eq_none_iff.1 hd)]

theorem Store.dropDraft_none (hd : st.drafts[i]? = none) : st.dropDraft i = st := by
  rw [dropDraft, eraseIdx_of_length_le (List.getElem?_eq_none_iff.1 hd)]

theorem Store.map_editDraft {β : Type} (st : Store) (i : Nat) (f : List UInt8 → List UInt8)
    (m : Reservation × List UInt8 → β) (hm : ∀ d, m (d.1, f d.2) = m d) :
    (st.editDraft i f).drafts.map m = st.drafts.map m := by
  refine ext_getElem? fun j => ?_
  simp only [editDraft, List.getElem?_map, List.getElem?_modify]
  cases st.drafts[j]? with
  | none => rfl
  | some d =>
    by_cases hij : i = j
    · simpa [hij] using hm d
    · simp [hij]

theorem Books.draft_room (h : Books a disk st) (hd : d ∈ st.drafts) :
    (header d.1.info).length + d.1.info.sz.toNat ≤ d.1.extent := by
  have hroom := h.room (Store.mem_pages_of_draft hd) (h.drafts d hd).1
  simpa only [Store.draftPage] using hroom

theorem Books.decode_draft (h : Books a disk st) (hd : d ∈ st.drafts) :
    decodeProdInfo disk d.1.offset d.1.extent = if (header d.1.info).length ≤ d.1.extent % 2 ^ 32 then
      some (stored d.1.info, d.1.offset + (header d.1.info).length) else none :=
  h.decode (Store.mem_pages_of_draft hd) d.1.extent

theorem Books.decode_live (h : Books a disk st) {t : Timestamp} (hlive : (t, pg) ∈ st.live)
    (hreg : (pg.offset, ext) ∈ a.regions) :
    decodeProdInfo disk pg.offset ext = some (stored pg.info, pg.offset + (header pg.info).length) := by
  rw [h.decode (Store.mem_pages_of_live hlive), if_pos (h.readable _ hlive ext hreg)]

theorem perm_eraseIdx {α : Type} {l : List α} {x : α} (h : l[i]? = some x) : l.Perm (x :: l.eraseIdx i) := by
  obtain ⟨hi, rfl⟩ := List.getElem?_eq_some_iff.1 h
  exact (getElem_cons_eraseIdx_perm hi).symm

theorem Store.pages_split (hd : st.drafts[i]? = some d) : st.pages.Perm (draftPage d :: (st.dropDraft i).pages) := by
  have h1 : st.pages.Perm (st.live.map Prod.snd ++ (d :: st.drafts.eraseIdx i).map draftPage) :=
    ((perm_eraseIdx hd).map draftPage).append_left _
  rw [map_cons] at h1
  exact h1.trans perm_middle

theorem Books.apart_from_draft (h : Books a disk st) (hd : st.drafts[i]? = some d) :
    ((st.dropDraft i).pages.map Page.offset).Nodup ∧
      ∀ pg ∈ (st.dropDraft i).pages, pg ∈ st.pages ∧ pg.offset ≠ d.1.offset := by
  have hp := Store.pages_split hd
  have hnd := (hp.map Page.offset).nodup_iff.1 h.uses
  rw [map_cons, nodup_cons] at hnd
  exact ⟨hnd.2, fun pg hpg => ⟨hp.mem_iff.2 (mem_cons_of_mem _ hpg), fun e => hnd.1 (mem_map.2 ⟨pg, hpg, e⟩)⟩⟩

theorem Books.writeDraft (h : Books a disk st) (hd : st.drafts[i]? = some d) {f : List UInt8 → List UInt8}
    (hout : ∀ b, b < d.1.offset ∨ d.1.offset + d.1.extent ≤ b → disk' b = disk b)
    (hpage : (Store.draftPage (d.1, f d.2)).On a disk') : Books a disk' (st.editDraft i f) := by
  obtain ⟨hi, he⟩ := List.getElem?_eq_some_iff.1 hd
  have hdm : d ∈ st.drafts := mem_of_getElem? hd
  have hp := Store.pages_split hd
  rw [Store.editDraft_eq hd]
  have hset : (Store.mk (st.drafts.set i (d.1, f d.2)) st.live).drafts[i]? = some (d.1, f d.2) := by
    simp [hi]
  have hp' := Store.pages_split hset
  have herase : (st.drafts.set i (d.1, f d.2)).eraseIdx i = st.drafts.eraseIdx i := eraseIdx_set_eq
  simp only [Store.dropDraft, herase] at hp'
  obtain ⟨hnd, hrest⟩ := h.apart_from_draft hd
  refine { h with uses := ?_, pages := ?_, drafts := ?_ }
  · refine (hp'.map Page.offset).nodup_iff.2 ?_
    exact (hp.map Page.offset).nodup_iff.1 h.uses
  · intro pg hpg
    rcases mem_cons.1 (hp'.mem_iff.1 hpg) with rfl | hpg
    · exact hpage
    · obtain ⟨hold, hne⟩ := hrest pg hpg
      exact h.page_frame (h.drafts d hdm).1 hout hold hne
  · intro d' hd'
    rcases mem_or_eq_of_mem_set hd' with hd' | rfl
    · exact h.drafts d' hd'
    · exact h.drafts d hdm

/-! ## Committing and rolling back -/

theorem Books.rollback (h : Books a disk st) (hd : st.drafts[i]? = some d)
    (hf : a.Freed d.1.offset ext d.1.signature a') (htimes : a'.times = a.times) : Books a' disk (st.dropDraft i) := by
  have hdm : d ∈ st.drafts := mem_of_getElem? hd
  obtain ⟨hnd, hrest⟩ := h.apart_from_draft hd
  have hsig := (h.drafts d hdm).2.1
  refine h.free (Store.mem_pages_of_draft hdm) (hsig ▸ hf) ?_ (htimes ▸ List.Sublist.refl _) hrest hnd
    (fun d' hd' => mem_of_mem_eraseIdx hd') fun p hp => hp
  rw [htimes]
  exact h.times

theorem Books.commit (h : Books a disk st) (hd : st.drafts[i]? = some d) {now key : Timestamp}
    (hs : a.Stamped now key d.1.offset a') (hread : (header d.1.info).length ≤ d.1.extent % 2 ^ 32) :
    Books a' disk (st.commitDraft i key) := by
  rw [Store.commitDraft, hd]
  have hdm : d ∈ st.drafts := mem_of_getElem? hd
  have hp := Store.pages_split hd
  have hp' : (Store.pages ⟨st.drafts.eraseIdx i, st.live ++ [(key, Store.draftPage d)]⟩).Perm st.pages := by
    refine List.Perm.trans ?_ hp.symm
    simp only [Store.pages, Store.dropDraft, map_append, map_cons, map_nil, append_assoc, singleton_append]
    exact perm_middle
  obtain ⟨pre, suf, hts, hts'⟩ := hs.times
  have hregions : a'.regions = a.regions := by rw [hs.rest]
  have hsigs : a'.sigs = a.sigs := by rw [hs.rest]
  refine { h.retime hs.rest with
    sorted := hs.sorted, uses := (hp'.map Page.offset).nodup_iff.2 h.uses, times := ?times
    pages := ?pages, drafts := ?drafts, readable := ?readable }
  case times =>
    intro t off
    have hold := h.times t off
    simp only [hts, mem_append] at hold
    simp only [hts', mem_append, mem_cons, not_mem_nil, or_false, or_and_right, exists_or, ← hold]
    constructor
    · intro hm
      rcases hm with hm | hm | hm
      · exact .inl (.inl hm)
      · cases hm
        exact .inr ⟨_, rfl, rfl⟩
      · exact .inl (.inr hm)
    · intro hm
      rcases hm with (hm | hm) | ⟨pg, hpg, rfl⟩
      · exact .inl hm
      · exact .inr (.inr hm)
      · cases hpg
        exact .inr (.inl rfl)
  case pages =>
    intro pg hpg
    have hon := h.pages pg (hp'.mem_iff.1 hpg)
    exact { hon with filed := hsigs ▸ hon.filed, region := hregions ▸ hon.region }
  case drafts =>
    intro d' hd'
    rw [hregions]
    exact h.drafts d' (mem_of_mem_eraseIdx hd')
  case readable =>
    intro p hp e he
    rw [hregions] at he
    rcases mem_append.1 hp with hp | hp
    · exact h.readable p hp e he
    · cases mem_singleton.1 hp
      rw [h.extent_unique he (h.drafts d hdm).1]
      exact hread

end Rdm
