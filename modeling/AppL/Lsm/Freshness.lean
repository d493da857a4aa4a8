import AppL.Lsm.Handover
import AppL.Lsm.Rank

/-!
# Current copies through a merge

The sources of a merge, its target and the other runs are the holders of a directory.  Every step
of a merge keeps it current: entries that are dropped are outranked, entries that are written were
owned by their source, and what a moved block has in excess keeps the rank of its source.
-/

namespace AppL

open Transition Directory

variable {δ : Type} {g : Geometry}

/-- The copies of a run at its entries. -/
def entryShelf (dev : Dev δ) (info : ℕ) (es : List Entry) : Set (ℕ × Version ℕ δ (ℕ × ℕ)) :=
  {x | ∃ e ∈ es, x = (info, (e.copy dev).version)}

theorem Dev.Clears.data {dev dev' : Dev δ} {qs : List ℕ} (h : dev.Clears g qs dev') :
  dev'.data = dev.data
  := by
  induction h with
  | nil dev => rfl
  | cons hq hqs ih => apply ih.trans hq.data

theorem Entry.copy_congr {dev dev' : Dev δ} {e : Entry} (h : dev'.data e.psa = dev.data e.psa) :
  e.copy dev' = e.copy dev
  := by rw [Entry.copy, Entry.copy, h]

theorem Run.copies_congr {r : Run δ} {dev dev' : Dev δ} (h : dev'.data = dev.data) :
  r.copies dev' = r.copies dev
  := by rw [copies, copies, flash_congr fun q _ => congrFun h q]

namespace Merging

variable {moves : ℕ → Ste → Prop} {range : ℕ} {held : List ℕ} {dev₀ : Dev δ}
  {sc₀ : ShortcutMaster} {m m' : Merging δ}
  {outside : Set (ℕ × Version ℕ δ (ℕ × ℕ))} {val : ℕ → Option δ}

/-- The copies of the sources, those that have been taken, and those of the target. -/
def shelf (m : Merging δ) : Set (ℕ × Version ℕ δ (ℕ × ℕ)) :=
  {x | (∃ s ∈ m.srcs, x ∈ entryShelf m.dev s.1 s.2) ∨
    (∃ s ∈ m.sorted, x = (s.1, (s.2.copy m.dev).version)) ∨
    ∃ c ∈ m.res.copies m.dev, x = (m.res.info, c.version)}

/-- The directory of the merge and of the runs outside of it is current.  The target ranks above
the runs outside that have old copies of what a source owns. -/
structure Fresh (sc₀ : ShortcutMaster) (outside : Set (ℕ × Version ℕ δ (ℕ × ℕ)))
    (val : ℕ → Option δ) (m : Merging δ) : Prop where
  current : Current Outranks m.sc.scMap sc₀.rank (m.shelf ∪ outside) val
  taken : ∀ s ∈ m.sorted, m.sc.scMap s.2.lba = some s.1 ∧ s.1 ∈ m.srcs.map (·.1)
  orig : ∀ c ∈ m.res.copies m.dev, ∀ o, c.orig = some o →
    ∃ i ∈ m.srcs.map (·.1), o = sc₀.rank i
  nodup : (m.srcs.map (·.1)).Nodup
  apart : ∀ x ∈ outside, x.1 ∉ m.srcs.map (·.1) ∧ x.1 ≠ m.res.info
  above : ∀ x ∈ outside, ∀ i ∈ m.srcs.map (·.1), sc₀.scMap x.2.key = some i →
    (Outranks (sc₀.rank i) (sc₀.rank x.1) ∨
      ∃ o, x.2.orig = some o ∧ Outranks (sc₀.rank i) o) →
    Outranks (sc₀.rank m.res.info) (sc₀.rank x.1)

theorem Linked.rank_eq (h : m.Linked range sc₀) :
  m.sc.rank = sc₀.rank
  := funext fun i => ShortcutMaster.rank_eq (h.rank i)

namespace Fresh

theorem mem_src {s : ℕ × List Entry} {e : Entry} (hs : s ∈ m.srcs) (he : e ∈ s.2) :
  (s.1, (e.copy m.dev).version) ∈ m.shelf ∪ outside
  := .inl (.inl ⟨s, hs, e, he, rfl⟩)

/-- An entry that is not old is owned by its source, and has the current value. -/
theorem owned_of_new (h : m.Fresh sc₀ outside val) (hlinked : m.Linked range sc₀)
    {s : ℕ × List Entry} {e : Entry} (hs : s ∈ m.srcs) (he : e ∈ s.2)
    (hnew : m.sc.oldEntry s.1 e = false) :
  m.sc.scMap e.lba = some s.1
  := by
  by_contra hne
  have hout := h.current.old _ (mem_src hs he) hne
  rw [← hlinked.rank_eq] at hout
  rw [(ShortcutMaster.oldEntry_iff hne).mpr hout] at hnew
  cases hnew

/-- The target ranks above a run outside that has a copy of an lba of a source. -/
theorem above_outside (h : m.Fresh sc₀ outside val) (hlinked : m.Linked range sc₀)
    {x : ℕ × Version ℕ δ (ℕ × ℕ)} {i : ℕ} (hx : x ∈ outside) (hi : i ∈ m.srcs.map (·.1))
    (howner : m.sc.scMap x.2.key = some i) :
  x.1 ≠ m.res.info ∧ Outranks (sc₀.rank m.res.info) (sc₀.rank x.1)
  := by
  obtain ⟨hsrc, hres⟩ := h.apart x hx
  use hres
  obtain ⟨o, ho, hrank⟩ := h.current.old x (.inr hx) (by
    rw [howner]
    rintro heq
    exact hsrc (Option.some.inj heq ▸ hi))
  rw [howner] at ho
  cases ho
  have hbefore : sc₀.scMap x.2.key = some i := by
    rcases hlinked.old _ _ howner with rfl | hbefore
    · exact absurd hi hlinked.fresh
    · apply hbefore
  apply h.above x hx i hi hbefore hrank

theorem skip {as bs : List (ℕ × List Entry)} {idx : ℕ} {e : Entry} {l : List Entry} {dev : Dev δ}
    (h : m.Fresh sc₀ outside val) (hsrcs : m.srcs = as ++ (idx, e :: l) :: bs)
    (hold : m.sc.oldEntry idx e = true) (hdev : dev.data = m.dev.data) :
  Fresh sc₀ outside val { m with srcs := as ++ (idx, l) :: bs, dev := dev }
  := by
  have hinfos : (as ++ (idx, l) :: bs).map (·.1) = m.srcs.map (·.1) := by
    rw [hsrcs]
    simp
  have hcopy : ∀ e : Entry, e.copy dev = e.copy m.dev := fun e => Entry.copy_congr (congrFun hdev _)
  have hcopies : m.res.copies dev = m.res.copies m.dev := Run.copies_congr hdev
  refine ⟨h.current.drop ?_ ?_, ?_, ?_, hinfos ▸ h.nodup, hinfos ▸ h.apart, hinfos ▸ h.above⟩
  · rintro x ((⟨s, hs, e', he', rfl⟩ | ⟨s, hs, rfl⟩ | ⟨c, hc, rfl⟩) | hx)
    · left
      left
      rcases mem_srcs hs with rfl | hs
      · use (idx, e :: l), by simp [hsrcs], e', List.mem_cons_of_mem _ he'
        rw [hcopy]
      · refine ⟨s, ?_, e', he', by rw [hcopy]⟩
        rw [hsrcs]
        simp only [List.mem_append, List.mem_cons] at hs ⊢
        tauto
    · left
      right
      left
      use s, hs, by rw [hcopy]
    · left
      right
      right
      exact ⟨c, hcopies ▸ hc, rfl⟩
    · right
      apply hx
  · rintro x ((⟨s, hs, e', he', rfl⟩ | ⟨s, hs, rfl⟩ | ⟨c, hc, rfl⟩) | hx) howner
    · left
      left
      rw [hsrcs] at hs
      rcases mem_srcs hs with rfl | hs
      · rcases List.mem_cons.mp he' with rfl | he'
        · rw [ShortcutMaster.oldEntry_owner howner] at hold
          cases hold
        · use (idx, l), by simp, e', he', by rw [hcopy]
      · refine ⟨s, ?_, e', he', by rw [hcopy]⟩
        simp only [List.mem_append, List.mem_cons] at hs ⊢
        tauto
    · left
      right
      left
      use s, hs, by rw [hcopy]
    · left
      right
      right
      exact ⟨c, hcopies.symm ▸ hc, rfl⟩
    · right
      apply hx
  · rw [hinfos]
    apply h.taken
  · rw [hinfos]
    change ∀ c ∈ m.res.copies dev, _
    rw [hcopies]
    apply h.orig

theorem push {as bs : List (ℕ × List Entry)} {idx : ℕ} {e : Entry} {l : List Entry} {dev : Dev δ}
    (h : m.Fresh sc₀ outside val) (hinv : m.Inv g range held dev₀) (hlinked : m.Linked range sc₀)
    (hsrcs : m.srcs = as ++ (idx, e :: l) :: bs) (hnew : m.sc.oldEntry idx e = false)
    (hdev : dev.data = m.dev.data) :
  Fresh sc₀ outside val { m with
    srcs := as.map (dropLba e.lba) ++ (idx, l) :: bs.map (dropLba e.lba)
    sorted := m.sorted ++ [(idx, e)]
    dev := dev }
  := by
  have hinfos : (as.map (dropLba e.lba) ++ (idx, l) :: bs.map (dropLba e.lba)).map (·.1)
      = m.srcs.map (·.1) := by
    rw [hsrcs]
    simp only [List.map_append, List.map_cons, List.map_map]
    rfl
  have hself : (idx, e :: l) ∈ m.srcs := by simp [hsrcs]
  have howned := h.owned_of_new hlinked hself List.mem_cons_self hnew
  have hcopy : ∀ e : Entry, e.copy dev = e.copy m.dev := fun e => Entry.copy_congr (congrFun hdev _)
  have hcopies : m.res.copies dev = m.res.copies m.dev := Run.copies_congr hdev
  refine ⟨h.current.drop ?_ ?_, ?_, ?_, hinfos ▸ h.nodup, hinfos ▸ h.apart, hinfos ▸ h.above⟩
  · rintro x ((⟨s, hs, e', he', rfl⟩ | ⟨s, hs, rfl⟩ | ⟨c, hc, rfl⟩) | hx)
    · obtain ⟨y, hy, hidx, hsub, -⟩ := mem_push as bs idx (hinv.asc _ hself) hs
      rw [hidx, hcopy]
      exact mem_src (hsrcs ▸ hy) (hsub.subset he')
    · rw [hcopy]
      rcases List.mem_append.mp hs with hs | hs
      · left
        right
        left
        exact ⟨s, hs, rfl⟩
      · rw [List.mem_singleton.mp hs]
        apply mem_src hself List.mem_cons_self
    · left
      right
      right
      exact ⟨c, hcopies ▸ hc, rfl⟩
    · right
      apply hx
  · rintro x ((⟨s, hs, e', he', rfl⟩ | ⟨s, hs, rfl⟩ | ⟨c, hc, rfl⟩) | hx) howner
    · left
      by_cases heq : e'.lba = e.lba
      · right
        left
        change m.sc.scMap e'.lba = some s.1 at howner
        rw [heq, howned, Option.some.injEq] at howner
        have hs' : s = (idx, e :: l) := List.inj_on_of_nodup_map h.nodup hs hself howner.symm
        subst hs'
        have he : e' = e := by
          rcases List.mem_cons.mp he' with he | he
          · apply he
          · exact absurd heq (Nat.ne_of_gt ((List.pairwise_cons.mp (hinv.asc _ hself)).1 e' he))
        use (idx, e), by simp, by rw [he, hcopy]
      · left
        rw [hsrcs] at hs
        rcases mem_srcs hs with rfl | hs
        · rcases List.mem_cons.mp he' with rfl | he'
          · exact absurd rfl heq
          · use (idx, l), by simp, e', he', by rw [hcopy]
        · refine ⟨dropLba e.lba s, ?_, e', ?_, ?_⟩
          · have hmap := List.mem_map_of_mem (f := dropLba e.lba) hs
            rw [List.map_append, List.mem_append] at hmap
            simp only [List.mem_append, List.mem_cons]
            tauto
          · apply List.mem_filter.mpr ⟨he', by simpa using heq⟩
          · rw [hcopy]
            rfl
    · left
      right
      left
      use s, List.mem_append.mpr (.inl hs), by rw [hcopy]
    · left
      right
      right
      exact ⟨c, hcopies.symm ▸ hc, rfl⟩
    · right
      apply hx
  · rw [hinfos]
    intro s hs
    rcases List.mem_append.mp hs with hs | hs
    · apply h.taken s hs
    · rw [List.mem_singleton.mp hs]
      use howned, List.mem_map_of_mem hself
  · rw [hinfos]
    change ∀ c ∈ m.res.copies dev, _
    rw [hcopies]
    apply h.orig

theorem flush {res : Run δ} {sc sc' : ShortcutMaster} {dev dev' : Dev δ}
    (h : m.Fresh sc₀ outside val) (hinv : m.Inv g range held dev₀) (hlinked : m.Linked range sc₀)
    (hrange : range ≤ uint32Max) (hdev : m.dev.Clears g (m.sorted.map (·.2.psa)) dev)
    (hres : Run.insertAll g (m.sorted.map fun x => (x.2.lba, m.dev.data x.2.psa)) m.res m.sc
      dev = .ok (res, sc, dev'))
    (hsc : sc.linkBulkLba res.info (m.sorted.map (·.2.lba)) = .ok sc') :
  Fresh sc₀ outside val { m with sorted := [], res := res, sc := sc', dev := dev' }
  := by
  obtain ⟨-, hgrow, rfl, hdata, -⟩ := hinv.flush hrange hdev hres sc'
  have hinfo := hgrow.shape.info
  rw [hinfo] at hsc
  obtain ⟨hmap, -⟩ := ShortcutMaster.linkBulkLba_ok hsc
  have hcopies : res.copies dev' = m.res.copies m.dev ++
      (m.sorted.map fun x => (x.2.lba, m.dev.data x.2.psa)).map Copy.plain := by
    rw [hgrow.copies, Run.copies_congr hdata]
  have hcopy : ∀ s ∈ m.srcs, ∀ e ∈ s.2, e.copy dev' = e.copy m.dev := by
    intro s hs e he
    apply Entry.copy_congr
    rw [hgrow.data, hdata]
    apply List.mem_append.mpr (.inl (List.mem_flatMap.mpr ⟨s, hs, List.mem_map_of_mem he⟩))
  have hmem : ∀ s ∈ m.sorted, s.2.lba ∈ m.sorted.map (·.2.lba) := fun s hs =>
    List.mem_map_of_mem (f := fun x : ℕ × Entry => x.2.lba) hs
  have hres_lba : ∀ c ∈ m.res.copies m.dev, c.lba ∉ m.sorted.map (·.2.lba) := by
    intro c hc hin
    have hc' : c.lba ∈ m.res.lbas := Run.copies_map_lba ▸ List.mem_map_of_mem hc
    apply Nat.lt_irrefl _ ((List.pairwise_append.mp hinv.out_asc).2.2 _ hc' _ hin)
  have hsrc_lba : ∀ s ∈ m.srcs, ∀ e ∈ s.2, e.lba ∉ m.sorted.map (·.2.lba) := by
    intro s hs e he hin
    apply Nat.lt_irrefl _ (hinv.below _ (List.mem_append.mpr (.inr hin)) s hs e he)
  refine ⟨h.current.take (t := m.res.info) (K := {lba | lba ∈ m.sorted.map (·.2.lba)}) ?_ ?_
    ?_ ?_ ?_, List.forall_mem_nil _, ?_, h.nodup, hinfo ▸ h.apart, hinfo ▸ h.above⟩
  · intro lba hlba
    apply (hmap lba).trans (if_pos hlba)
  · intro lba hlba
    apply (hmap lba).trans (if_neg hlba)
  · rintro x ((⟨s, hs, e, he, rfl⟩ | ⟨s, hs, rfl⟩ | ⟨c, hc, rfl⟩) | hx)
    · left
      rw [hcopy s hs e he]
      use mem_src hs he, fun hin => absurd hin (hsrc_lba s hs e he)
    · cases hs
    · change c ∈ res.copies dev' at hc
      rw [hcopies] at hc
      rcases List.mem_append.mp hc with hc | hc
      · left
        rw [hinfo]
        use .inl (.inr (.inr ⟨c, hc, rfl⟩)), fun hin => absurd hin (hres_lba c hc)
      · right
        obtain ⟨y, hy, rfl⟩ := List.mem_map.mp hc
        obtain ⟨s, hs, rfl⟩ := List.mem_map.mp hy
        exact ⟨hinfo, s.1, (s.2.copy m.dev).version, .inl (.inr (.inl ⟨s, hs, rfl⟩)), rfl,
          .inl ⟨hmem s hs, (h.taken s hs).1, rfl⟩⟩
    · left
      use .inr hx
      intro hin
      obtain ⟨s, hs, heq⟩ := List.mem_map.mp hin
      obtain ⟨howner, hsrc⟩ := h.taken s hs
      exact h.above_outside hlinked hx hsrc (heq ▸ howner)
  · intro lba hlba
    obtain ⟨s, hs, rfl⟩ := List.mem_map.mp hlba
    refine ⟨(Copy.plain (s.2.lba, m.dev.data s.2.psa)).version, .inl (.inr (.inr ?_)), rfl⟩
    refine ⟨_, ?_, by rw [hinfo]⟩
    change _ ∈ res.copies dev'
    rw [hcopies]
    apply List.mem_append.mpr (.inr (List.mem_map_of_mem (List.mem_map_of_mem hs)))
  · rintro x ((⟨s, hs, e, he, rfl⟩ | ⟨s, hs, rfl⟩ | ⟨c, hc, rfl⟩) | hx) hnot -
    · left
      left
      use s, hs, e, he, by rw [hcopy s hs e he]
    · exact absurd (hmem s hs) hnot
    · refine .inl (.inr (.inr ⟨c, ?_, by rw [hinfo]⟩))
      change c ∈ res.copies dev'
      rw [hcopies]
      apply List.mem_append.mpr (.inl hc)
    · right
      apply hx
  · change ∀ c ∈ res.copies dev', _
    rw [hcopies]
    intro c hc o ho
    rcases List.mem_append.mp hc with hc | hc
    · apply h.orig c hc o ho
    · obtain ⟨y, -, rfl⟩ := List.mem_map.mp hc
      cases ho

/-- The copies of a target that has taken over a block. -/
theorem takeSte_copies {r : Run δ} {ste : Ste} {n : ℕ} {dev : Dev δ}
    (hentries : (r.takeSte ste n).entries = r.entries ++ ste.entries)
    (hbuf : r.buffered = []) (hbuf' : (r.takeSte ste n).buffered = []) :
  (r.takeSte ste n).copies dev = r.copies dev ++ ste.entries.map (Entry.copy dev)
  := by
  rw [Run.copies, Run.copies, hbuf, hbuf', Run.flash, Run.flash, hentries, List.map_append]
  simp

/-- An entry of a moved block is handed from the source to the target. -/
theorem handed_moved {idx : ℕ} {ste : Ste} {l : List Entry} {dev : Dev δ} {s : ℕ × List Entry}
    {p : SummaryPair} (mf : Option MapFunction) (h : m.Fresh sc₀ outside val)
    (hinv : m.Inv g range held dev₀) (hlinked : m.Linked range sc₀) (hself : s ∈ m.srcs)
    (hidx : s.1 = idx) (hleft : s.2 = ste.entries ++ l) (hflag : ste.unlinkedDataCopy = false)
    (hp : p ∈ ste.page) (hdata : dev.data p.piecePpa = m.dev.data p.piecePpa) :
  Handed m.sc.scMap sc₀.rank (m.shelf ∪ outside) m.res.info
    {lba | lba ∈ validLbas m.sc idx ste.entries}
    (Copy.version (Entry.copy dev ⟨p.lba, p.piecePpa, (moved m.sc idx ste mf).orig⟩))
  := by
  subst hidx
  have he : (⟨p.lba, p.piecePpa, none⟩ : Entry) ∈ ste.entries := by
    rw [Ste.entries]
    refine List.mem_map.mpr ⟨p, hp, ?_⟩
    rw [Ste.orig, hflag]
    rfl
  have he' : (⟨p.lba, p.piecePpa, none⟩ : Entry) ∈ s.2 := by
    rw [hleft]
    apply List.mem_append.mpr (.inl he)
  have hlba : p.lba ∈ ste.entries.map (·.lba) := List.mem_map.mpr ⟨_, he, rfl⟩
  refine ⟨s.1, Copy.version (Entry.copy m.dev ⟨p.lba, p.piecePpa, none⟩), mem_src hself he', rfl, ?_⟩
  cases hvalid : m.sc.validityCheckLba s.1 p.lba with
  | true =>
      refine .inl ⟨List.mem_filter.mpr ⟨hlba, hvalid⟩, ?_, hdata.symm⟩
      apply h.owned_of_new hlinked hself he' (by simp [ShortcutMaster.oldEntry, hvalid])
  | false =>
      right
      obtain ⟨o, ho, hrank⟩ := ShortcutMaster.validityCheckLba_false.mp hvalid
      refine ⟨fun hin => ?_, ?_, ?_, rfl, ?_⟩
      · have htrue := (List.mem_filter.mp hin).2
        change m.sc.validityCheckLba s.1 p.lba = true at htrue
        rw [hvalid] at htrue
        cases htrue
      · change m.sc.scMap p.lba ≠ some s.1
        intro howner
        rw [howner] at ho
        cases ho
        rcases hrank with hlt | ⟨-, hrec⟩
        · apply Nat.lt_irrefl _ hlt
        · rw [subInt32_self] at hrec
          apply Int.lt_irrefl _ hrec
      · intro howner
        apply Nat.lt_irrefl _ (hinv.below _
          (List.mem_append.mpr (.inl (hlinked.res_owned p.lba howner))) s hself _ he')
      · have hlt : (validLbas m.sc s.1 ste.entries).length < ste.entries.length := by
          have hshort : (validLbas m.sc s.1 ste.entries).length
              < (ste.entries.map (·.lba)).length := by
            apply List.length_filter_lt_length_iff_exists.mpr
            use p.lba, hlba, by simp [hvalid]
          simpa using hshort
        have hne : ((validLbas m.sc s.1 ste.entries).length != ste.entries.length) = true := by
          simpa using Nat.ne_of_lt hlt
        change (moved m.sc s.1 ste mf).orig = some (sc₀.rank s.1)
        rw [Ste.orig, moved, MergeState.movedSte, if_pos hne, ← hlinked.rank_eq]
        rfl

/-- A block of a source has been moved to the target as a whole. -/
structure BlockMoved (as bs : List (ℕ × List Entry)) (idx : ℕ) (ste : Ste) (l : List Entry)
    (mf : Option MapFunction) (m m' : Merging δ) : Prop where
  srcs : m.srcs = as ++ (idx, ste.entries ++ l) :: bs
  srcs' : m'.srcs = as ++ (idx, l) :: bs
  sorted : m.sorted = []
  sorted' : m'.sorted = []
  info : m'.res.info = m.res.info
  lbas : m'.res.lbas = m.res.lbas ++ ste.entries.map (·.lba)
  copies : m'.res.copies m'.dev
    = m.res.copies m.dev ++ (moved m.sc idx ste mf).entries.map (Entry.copy m'.dev)
  data : ∀ s ∈ m.srcs, ∀ e ∈ s.2, m'.dev.data e.psa = m.dev.data e.psa

namespace BlockMoved

variable {as bs : List (ℕ × List Entry)} {idx : ℕ} {ste : Ste} {l : List Entry}
  {mf : Option MapFunction}

theorem infos (hb : BlockMoved as bs idx ste l mf m m') :
  m'.srcs.map (·.1) = m.srcs.map (·.1)
  := by
  rw [hb.srcs, hb.srcs']
  simp

theorem self (hb : BlockMoved as bs idx ste l mf m m') :
  (idx, ste.entries ++ l) ∈ m.srcs
  := by
  rw [hb.srcs]
  simp

/-- What is left of a source was in it. -/
theorem src_of_left (hb : BlockMoved as bs idx ste l mf m m') {s : ℕ × List Entry}
    (hs : s ∈ m'.srcs) :
  ∃ y ∈ m.srcs, s.1 = y.1 ∧ s.2 ⊆ y.2
  := by
  rw [hb.srcs'] at hs
  rcases mem_srcs hs with rfl | hs
  · use (idx, ste.entries ++ l), hb.self, rfl
    apply List.subset_append_right
  · refine ⟨s, ?_, rfl, List.Subset.refl _⟩
    rw [hb.srcs]
    simp only [List.mem_append, List.mem_cons] at hs ⊢
    tauto

theorem lba_of_valid {lba : ℕ} (h : lba ∈ validLbas m.sc idx ste.entries) :
  ∃ e ∈ ste.entries, e.lba = lba
  := List.mem_map.mp (List.mem_filter.mp h).1

/-- The target holds the lbas that are linked to it, so the sources have no others of them. -/
theorem left_not_valid (hb : BlockMoved as bs idx ste l mf m m')
    (hinv' : m'.Inv g range held dev₀) {s : ℕ × List Entry} (hs : s ∈ m'.srcs) {e : Entry}
    (he : e ∈ s.2) :
  e.lba ∉ validLbas m.sc idx ste.entries
  := by
  intro hin
  have hres : e.lba ∈ m'.res.lbas := by
    rw [hb.lbas]
    apply List.mem_append_right _ (List.mem_filter.mp hin).1
  apply Nat.lt_irrefl e.lba
  apply hinv'.below e.lba (List.mem_append_left _ hres) s hs e he

/-- What the target had is in front of the block. -/
theorem copies_not_valid (hb : BlockMoved as bs idx ste l mf m m') (hinv : m.Inv g range held dev₀)
    {c : Copy δ} (hc : c ∈ m.res.copies m.dev) :
  c.lba ∉ validLbas m.sc idx ste.entries
  := by
  intro hin
  have hc' : c.lba ∈ m.res.lbas := Run.copies_map_lba ▸ List.mem_map_of_mem hc
  obtain ⟨e, he, hlba⟩ := lba_of_valid hin
  have hlt : c.lba < e.lba := hinv.below _ (List.mem_append_left _ hc') _ hb.self e
    (List.mem_append_left _ he)
  apply Nat.ne_of_gt hlt hlba

/-- A linked lba was owned by the source of the block. -/
theorem owned_of_valid (hb : BlockMoved as bs idx ste l mf m m') (h : m.Fresh sc₀ outside val)
    (hlinked : m.Linked range sc₀) (hflag : ste.unlinkedDataCopy = false) {lba : ℕ}
    (hin : lba ∈ validLbas m.sc idx ste.entries) :
  m.sc.scMap lba = some idx
  := by
  obtain ⟨e, he, rfl⟩ := lba_of_valid hin
  apply h.owned_of_new hlinked hb.self (List.mem_append_left _ he)
  obtain ⟨p, -, rfl⟩ := List.mem_map.mp he
  have hvalid := (List.mem_filter.mp hin).2
  simp [ShortcutMaster.oldEntry, hvalid, Ste.orig, hflag]

/-- A copy after the move was there before, and the target outranks it where it has been linked,
or it is one of the block, which has been handed to the target. -/
theorem shelf (hb : BlockMoved as bs idx ste l mf m m') (h : m.Fresh sc₀ outside val)
    (hinv : m.Inv g range held dev₀) (hinv' : m'.Inv g range held dev₀)
    (hlinked : m.Linked range sc₀) (hflag : ste.unlinkedDataCopy = false)
    {x : ℕ × Version ℕ δ (ℕ × ℕ)} (hx : x ∈ m'.shelf ∪ outside) :
  (x ∈ m.shelf ∪ outside ∧ (x.2.key ∈ {lba | lba ∈ validLbas m.sc idx ste.entries} →
      x.1 ≠ m.res.info ∧ Outranks (sc₀.rank m.res.info) (sc₀.rank x.1))) ∨
    x.1 = m.res.info ∧ Handed m.sc.scMap sc₀.rank (m.shelf ∪ outside) m.res.info
      {lba | lba ∈ validLbas m.sc idx ste.entries} x.2
  := by
  rcases hx with (⟨s, hs, e, he, rfl⟩ | ⟨s, hs, rfl⟩ | ⟨c, hc, rfl⟩) | hx
  · left
    obtain ⟨y, hy, hidx, hsub⟩ := hb.src_of_left hs
    refine ⟨?_, fun hin => absurd hin (hb.left_not_valid hinv' hs he)⟩
    rw [Entry.copy_congr (hb.data y hy e (hsub he)), hidx]
    apply mem_src hy (hsub he)
  · rw [hb.sorted'] at hs
    cases hs
  · rw [hb.copies] at hc
    rw [hb.info]
    rcases List.mem_append.mp hc with hc | hc
    · left
      refine ⟨?_, fun hin => absurd hin (hb.copies_not_valid hinv hc)⟩
      left
      right
      right
      use c, hc
    · right
      use rfl
      obtain ⟨e, he, rfl⟩ := List.mem_map.mp hc
      obtain ⟨p, hp, rfl⟩ := List.mem_map.mp he
      apply handed_moved (l := l) mf h hinv hlinked hb.self rfl rfl hflag hp
      apply hb.data _ hb.self ⟨p.lba, p.piecePpa, ste.orig⟩
      apply List.mem_append_left
      apply List.mem_map_of_mem hp
  · left
    constructor
    · right
      apply hx
    · intro hin
      apply h.above_outside hlinked hx (List.mem_map_of_mem hb.self)
      apply hb.owned_of_valid h hlinked hflag hin

/-- The target has a copy of every lba that is linked to it. -/
theorem holds (hb : BlockMoved as bs idx ste l mf m m') {lba : ℕ}
    (hin : lba ∈ validLbas m.sc idx ste.entries) :
  ∃ c, (m.res.info, c) ∈ m'.shelf ∪ outside ∧ c.key = lba
  := by
  obtain ⟨e, he, rfl⟩ := lba_of_valid hin
  obtain ⟨p, hp, rfl⟩ := List.mem_map.mp he
  let c := Entry.copy m'.dev ⟨p.lba, p.piecePpa, (moved m.sc idx ste mf).orig⟩
  have hc : c ∈ m'.res.copies m'.dev := by
    rw [hb.copies]
    apply List.mem_append_right
    apply List.mem_map_of_mem
    apply List.mem_map_of_mem hp
  refine ⟨c.version, ?_, rfl⟩
  left
  right
  right
  use c, hc
  rw [hb.info]

/-- The copies of owners that keep their lba are still there. -/
theorem keeps (hb : BlockMoved as bs idx ste l mf m m') {x : ℕ × Version ℕ δ (ℕ × ℕ)}
    (hx : x ∈ m.shelf ∪ outside) (hnot : x.2.key ∉ validLbas m.sc idx ste.entries)
    (howner : m.sc.scMap x.2.key = some x.1) :
  x ∈ m'.shelf ∪ outside
  := by
  rcases hx with (⟨s, hs, e, he, rfl⟩ | ⟨s, hs, rfl⟩ | ⟨c, hc, rfl⟩) | hx
  · left
    left
    rw [← Entry.copy_congr (hb.data s hs e he), hb.srcs']
    rw [hb.srcs] at hs
    rcases mem_srcs hs with rfl | hs
    · have hleft : e ∈ l := by
        apply (List.mem_append.mp he).resolve_left
        intro hste
        apply hnot
        apply mem_validLbas_of_owned howner
        apply List.mem_map_of_mem hste
      use (idx, l), by simp, e, hleft
    · refine ⟨s, ?_, e, he, rfl⟩
      simp only [List.mem_append, List.mem_cons] at hs ⊢
      tauto
  · rw [hb.sorted] at hs
    cases hs
  · left
    right
    right
    use c
    rw [hb.info, hb.copies]
    use List.mem_append_left _ hc
  · right
    apply hx

/-- The copies of the block that have a rank of their own have that of their source. -/
theorem orig (hb : BlockMoved as bs idx ste l mf m m') (h : m.Fresh sc₀ outside val)
    (hlinked : m.Linked range sc₀) {c : Copy δ} (hc : c ∈ m'.res.copies m'.dev) {o : ℕ × ℕ}
    (ho : c.orig = some o) :
  ∃ i ∈ m'.srcs.map (·.1), o = sc₀.rank i
  := by
  rw [hb.infos]
  rw [hb.copies] at hc
  rcases List.mem_append.mp hc with hc | hc
  · apply h.orig c hc o ho
  · obtain ⟨e, he, rfl⟩ := List.mem_map.mp hc
    obtain ⟨p, -, rfl⟩ := List.mem_map.mp he
    use idx, List.mem_map_of_mem hb.self
    change (moved m.sc idx ste mf).orig = some o at ho
    rw [Ste.orig] at ho
    split at ho
    · cases ho
      rw [← hlinked.rank_eq]
      rfl
    · cases ho

/-- The directory is current when the target has been linked to the lbas that the source of the
block owned. -/
theorem fresh (hb : BlockMoved as bs idx ste l mf m m') (h : m.Fresh sc₀ outside val)
    (hinv : m.Inv g range held dev₀) (hinv' : m'.Inv g range held dev₀)
    (hlinked : m.Linked range sc₀) (hflag : ste.unlinkedDataCopy = false)
    (hmap : ∀ lba, m'.sc.scMap lba = if lba ∈ validLbas m.sc idx ste.entries then some m.res.info
      else m.sc.scMap lba) :
  m'.Fresh sc₀ outside val
  := by
  constructor
  · apply h.current.take (t := m.res.info) (K := {lba | lba ∈ validLbas m.sc idx ste.entries})
    · intro lba hlba
      apply (hmap lba).trans (if_pos hlba)
    · intro lba hlba
      apply (hmap lba).trans (if_neg hlba)
    · intro x hx
      apply hb.shelf h hinv hinv' hlinked hflag hx
    · intro lba hlba
      apply hb.holds hlba
    · intro x hx hnot howner
      apply hb.keeps hx hnot howner
  · rw [hb.sorted']
    apply List.forall_mem_nil
  · intro c hc o ho
    apply hb.orig h hlinked hc ho
  · rw [hb.infos]
    apply h.nodup
  · rw [hb.infos, hb.info]
    apply h.apart
  · rw [hb.infos, hb.info]
    apply h.above

end BlockMoved

theorem move {as bs : List (ℕ × List Entry)} {idx : ℕ} {ste : Ste} {l : List Entry}
    {sums : List ℕ} {res : Run δ} {sc : ShortcutMaster} {dev : Dev δ} {mf : Option MapFunction}
    (h : m.Fresh sc₀ outside val) (hinv : m.Inv g range held dev₀) (hlinked : m.Linked range sc₀)
    (hsrcs : m.srcs = as ++ (idx, ste.entries ++ l) :: bs) (hsorted : m.sorted = [])
    (hmeta : ste.Meta g) (hne : ste.page ≠ []) (hcopied : ste.copied = false)
    (hflag : ste.unlinkedDataCopy = false)
    (hapart : ∀ x ∈ as ++ bs, ∀ e ∈ x.2, ste.endLba < e.lba)
    (hsums : m.sums.Perm (ste.piecePpa :: sums))
    (hres : m.res.paddingCurrentBlock g m.dev = .ok (res, dev))
    (hsc : (countUnlinked m.sc res.info
      (ste.entries.length - (validLbas m.sc idx ste.entries).length)).linkBulkLba res.info
      (validLbas m.sc idx ste.entries) = .ok sc) :
  Fresh sc₀ outside val { m with
    srcs := as ++ (idx, l) :: bs
    sums := sums
    res := res.takeSte (moved m.sc idx ste mf) ste.entries.length
    sc := sc
    dev := dev }
  := by
  have hmeta' := moved_meta hmeta m.sc idx mf
  obtain ⟨hinv', hgrow, -, hlbas⟩ := hinv.move hsrcs hsorted hmeta hmeta' hne hcopied rfl rfl
    hapart hsums hres ste.entries.length sc
  obtain ⟨hopen, -, hnil, hbuf, -⟩ := Run.paddingCurrentBlock_grows hinv.opened hinv.holds hres
  obtain ⟨-, hentries, -, hbuf'⟩ := takeSte_open (n := ste.entries.length) hopen hnil hbuf hmeta'
    hne hcopied
  have hcopies : (res.takeSte (moved m.sc idx ste mf) ste.entries.length).copies dev
      = m.res.copies m.dev ++ (moved m.sc idx ste mf).entries.map (Entry.copy dev) := by
    rw [takeSte_copies hentries hbuf hbuf', hgrow.copies, List.map_nil, List.append_nil]
  have hdata : ∀ s ∈ m.srcs, ∀ e ∈ s.2, dev.data e.psa = m.dev.data e.psa := by
    intro s hs e he
    apply hgrow.data
    apply List.mem_append_left
    apply List.mem_flatMap.mpr ⟨s, hs, List.mem_map_of_mem he⟩
  rw [hgrow.shape.info] at hsc
  obtain ⟨hmap, -⟩ := ShortcutMaster.linkBulkLba_ok hsc
  have hb : BlockMoved as bs idx ste l mf m { m with
      srcs := as ++ (idx, l) :: bs
      sums := sums
      res := res.takeSte (moved m.sc idx ste mf) ste.entries.length
      sc := sc
      dev := dev } :=
    ⟨hsrcs, rfl, hsorted, hsorted, hgrow.shape.info, hlbas, hcopies, hdata⟩
  apply hb.fresh h hinv hinv' hlinked hflag hmap

end Fresh

/-- Every step of a merge keeps the directory current. -/
theorem Step.fresh (hrange : range ≤ uint32Max) (hstep : Step g moves m m')
    (hinv : m.Inv g range held dev₀) (hlinked : m.Linked range sc₀)
    (h : m.Fresh sc₀ outside val) :
  m'.Fresh sc₀ outside val
  := by
  cases hstep with
  | skip hsrcs hold hdev => apply h.skip hsrcs hold hdev.data
  | push hsrcs hnew hmin hdev => apply h.push hinv hlinked hsrcs hnew hdev.data
  | flush hdev hres hsc => apply h.flush hinv hlinked hrange hdev hres hsc
  | move hsrcs hsorted hmeta hne hcopied hflag hapart hsums hres hsc =>
      apply h.move hinv hlinked hsrcs hsorted hmeta hne hcopied hflag hapart hsums hres hsc

/-- The run lemma. -/
theorem Steps.fresh (hrange : range ≤ uint32Max) (hsteps : m.Steps g moves m')
    (hinv : m.Inv g range held dev₀) (hlinked : m.Linked range sc₀)
    (h : m.Fresh sc₀ outside val) :
  m'.Fresh sc₀ outside val
  := by
  induction hsteps with
  | refl => apply h
  | tail hsteps hstep ih =>
      obtain ⟨hinv', hlinked', -⟩ := Steps.keeps hrange hsteps hinv hlinked
      apply hstep.fresh hrange hinv' hlinked' ih

end Merging

/-! ### A whole merge -/

/-- The copies that the sources of a merge have. -/
def mergeShelf (g : Geometry) (rset : List (Run δ)) (dev : Dev δ) :
    Set (ℕ × Version ℕ δ (ℕ × ℕ)) :=
  {x | ∃ r ∈ rset, x ∈ entryShelf dev r.info (r.mergeEntries g)}

namespace Mergeable

variable {range : ℕ} {held : List ℕ} {rset : List (Run δ)} {idx n : ℕ} {mapType : MapType}
  {sc : ShortcutMaster} {dev : Dev δ} {outside : Set (ℕ × Version ℕ δ (ℕ × ℕ))}
  {val : ℕ → Option δ}

theorem raised_rank (rset : List (Run δ)) (sc : ShortcutMaster) :
  (rset.foldl (fun sc r => sc.setCompactionFlag r.info true) sc).rank = sc.rank
  := funext fun i => ShortcutMaster.setCompactionFlag_rank (fun r : Run δ => r.info) true rset i sc

theorem beginning_fresh (hnodup : (rset.map (·.info)).Nodup)
    (hcur : Current Outranks sc.scMap sc.rank (mergeShelf g rset dev ∪ outside) val)
    (hapart : ∀ x ∈ outside, x.1 ∉ rset.map (·.info) ∧ x.1 ≠ idx)
    (habove : ∀ x ∈ outside, ∀ i ∈ rset.map (·.info), sc.scMap x.2.key = some i →
      (Outranks (sc.rank i) (sc.rank x.1) ∨ ∃ o, x.2.orig = some o ∧ Outranks (sc.rank i) o) →
      Outranks (sc.rank idx) (sc.rank x.1)) :
  (Merging.beginning g rset (Run.factory g mapType n .runNormal idx) sc dev).Fresh
    (rset.foldl (fun sc r => sc.setCompactionFlag r.info true) sc) outside val
  := by
  have hbooks := ShortcutMaster.setCompactionFlag_sameBooks (fun r : Run δ => r.info) true rset sc
  have hinfos : (Merging.beginning g rset (Run.factory g mapType n .runNormal idx) sc dev).srcs.map
      (·.1) = rset.map (·.info) := by
    rw [Merging.beginning, List.map_map]
    rfl
  refine ⟨?_, List.forall_mem_nil _, List.forall_mem_nil _, hinfos ▸ hnodup, hinfos ▸ hapart, ?_⟩
  · change Current Outranks
      (rset.foldl (fun sc r => sc.setCompactionFlag r.info true) sc).scMap _ _ _
    rw [hbooks.scMap, raised_rank]
    refine hcur.drop ?_ ?_
    · rintro x ((⟨s, hs, hx⟩ | ⟨s, hs, -⟩ | ⟨c, hc, -⟩) | hx)
      · obtain ⟨r, hr, rfl⟩ := List.mem_map.mp hs
        left
        exact ⟨r, hr, hx⟩
      · cases hs
      · cases hc
      · right
        apply hx
    · rintro x (⟨r, hr, hx⟩ | hx) -
      · left
        left
        exact ⟨_, List.mem_map_of_mem hr, hx⟩
      · right
        apply hx
  · rw [hinfos, raised_rank, hbooks.scMap]
    apply habove

/-- A merge keeps the directory current, when its target ranks above the runs outside that have
old copies of what a source owns. -/
theorem runMerge_fresh {force : Bool} {st : MergeState δ}
    (h : Mergeable g range held rset idx sc dev) (hrange : range ≤ uint32Max)
    (hok : AppL.runMerge g rset (Run.factory g mapType n .runNormal idx) force sc dev = .ok st)
    (hnodup : (rset.map (·.info)).Nodup)
    (hcur : Current Outranks sc.scMap sc.rank (mergeShelf g rset dev ∪ outside) val)
    (hapart : ∀ x ∈ outside, x.1 ∉ rset.map (·.info) ∧ x.1 ≠ idx)
    (habove : ∀ x ∈ outside, ∀ i ∈ rset.map (·.info), sc.scMap x.2.key = some i →
      (Outranks (sc.rank i) (sc.rank x.1) ∨ ∃ o, x.2.orig = some o ∧ Outranks (sc.rank i) o) →
      Outranks (sc.rank idx) (sc.rank x.1)) :
  st.sc.rank = sc.rank ∧
    Current Outranks st.sc.scMap sc.rank (entryShelf st.dev idx st.res.entries ∪ outside) val ∧
    ∀ e ∈ st.res.entries, ∀ o, e.orig = some o → ∃ i ∈ rset.map (·.info), o = sc.rank i
  := by
  obtain ⟨m, hsteps, hsorted, hend, -, -, hdone, hsc⟩ :=
    runMerge_steps h.inputs h.none h.once hok
  have hinv₀ := @beginning_inv _ _ _ _ _ _ _ _ mapType n h
  have hlinked₀ := @beginning_linked _ _ _ _ _ _ _ _ mapType n h
  obtain ⟨hinv, hlinked, hsame, hinfo⟩ := Merging.Steps.keeps hrange hsteps hinv₀ hlinked₀
  obtain ⟨hcurrent, -, horig, -⟩ := Merging.Steps.fresh hrange hsteps hinv₀ hlinked₀
    (beginning_fresh hnodup hcur hapart habove)
  rw [raised_rank] at hcurrent horig
  change m.res.info = idx at hinfo
  have hinfos : m.srcs.map (·.1) = rset.map (·.info) := by
    rw [hsame, Merging.beginning, List.map_map]
    rfl
  obtain ⟨-, hgrow, -, hpp, -⟩ := Run.insertDone_grows hinv.opened hinv.holds hdone
  have hcopies : st.res.entries.map (Entry.copy st.dev) = m.res.copies m.dev := by
    have hc := hgrow.copies
    rw [List.map_nil, List.append_nil, Run.copies, Run.buffered, hpp] at hc
    simpa [Run.flash] using hc
  have hflags := ShortcutMaster.setCompactionFlag_sameBooks (fun mm : Mm δ => mm.r.info) false
    st.mms m.sc
  rw [← hsc] at hflags
  refine ⟨?_, ?_, ?_⟩
  · rw [hsc, ← raised_rank rset sc, ← hlinked.rank_eq]
    apply funext fun i =>
      ShortcutMaster.setCompactionFlag_rank (fun mm : Mm δ => mm.r.info) false st.mms i m.sc
  · rw [hflags.scMap]
    refine hcurrent.drop ?_ ?_
    · rintro x (⟨e, he, rfl⟩ | hx)
      · left
        right
        right
        use e.copy st.dev, hcopies ▸ List.mem_map_of_mem he, by rw [hinfo]
      · right
        apply hx
    · rintro x ((⟨s, hs, e, he, -⟩ | ⟨s, hs, -⟩ | ⟨c, hc, rfl⟩) | hx) -
      · rw [hend s hs] at he
        cases he
      · rw [hsorted] at hs
        cases hs
      · rw [← hcopies] at hc
        obtain ⟨e, he, rfl⟩ := List.mem_map.mp hc
        left
        use e, he, by rw [hinfo]
      · right
        apply hx
  · rw [hinfos] at horig
    intro e he o ho
    exact horig (e.copy st.dev) (hcopies ▸ List.mem_map_of_mem he) o ho

end Mergeable

end AppL
