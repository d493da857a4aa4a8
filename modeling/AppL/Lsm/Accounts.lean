import AppL.Lsm.Handover
import AppL.Lsm.Query

/-!
# The books of the tree

Which run owns which lba, how many lbas each run counts, and which pieces are valid.  Live runs
own lbas; runs that have been merged own none, but have their index and their summary pages
until they are freed.
-/

namespace AppL

open Transition

variable {δ : Type} {g : Geometry}

/-- The lbas that the run shows: those of its table, or all that were written to the log. -/
def Run.shown (r : Run δ) : List ℕ :=
  match r.type with
  | .runNormal => r.entries.map (·.lba)
  | .runLog => r.writtenLbas

/-- The books agree with the live runs and those that wait to be freed. -/
structure Books (g : Geometry) (range : ℕ) (live waiting : List (Run δ))
    (sc : ShortcutMaster) (dev : Dev δ) : Prop where
  nodup : ((live ++ waiting).map (·.info) ++ sc.freeQ).Nodup
  inUse : ∀ r ∈ live ++ waiting, (sc.infoSet r.info).inUse = true
  lt : ∀ lba, sc.scMap lba ≠ none → lba < range
  owner : ∀ lba i, sc.scMap lba = some i → ∃ r ∈ live, r.info = i ∧ lba ∈ r.shown
  count : ∀ r ∈ live, r.nowEntryNum = sc.total range r.info
  zero : ∀ i ∈ sc.freeQ, (sc.infoSet i).unlinkedLbaNum = 0
  holds : dev.Holds (live.flatMap (Run.mergePieces g) ++ waiting.flatMap Run.ownSums)
  balanced : dev.Balanced g

/-! ### Freeing a run -/

theorem Dev.clears_of_foldlM {α : Type} {e : Abort} {force : Bool} (f : α → ℕ) (l : List α) :
  ∀ {dev dev' : Dev δ},
    l.foldlM (fun dev a => dev.invalidatePiecePpa g e (f a) force) dev = .ok dev' →
    dev.Clears g (l.map f) dev'
  := by
  induction l with
  | nil =>
      intro dev dev' h
      cases h
      exact .nil dev
  | cons a l ih =>
      intro dev dev' h
      rw [List.foldlM_cons, bind_eq_ok] at h
      obtain ⟨dev₁, hfst, hrest⟩ := h
      exact .cons (Dev.invalidatePiecePpa_ok hfst).1 (ih hrest)

/-- `run_free` gives back the index and the summary pages that the run still has. -/
theorem Run.free_ok {r : Run δ} {sc sc' : ShortcutMaster} {dev dev' : Dev δ} {held : List ℕ}
    (hh : dev.Holds (r.ownSums ++ held)) (h : r.free g sc dev = .ok (sc', dev')) :
  sc' = sc.release r.info ∧ dev'.Holds held ∧ dev'.data = dev.data ∧
    (dev.Balanced g → dev'.Balanced g)
  := by
  simp only [Run.free, bind_eq_ok] at h
  obtain ⟨dev₁, hfree, hret⟩ := h
  cases hret
  exact ⟨rfl, Dev.Holds.clears (Dev.clears_of_foldlM _ _ hfree) hh⟩

namespace Books

variable {range : ℕ} {live live' waiting waiting' srcs others : List (Run δ)} {r : Run δ}
  {sc sc' : ShortcutMaster} {dev dev' : Dev δ}

theorem perm (h : Books g range live waiting sc dev) (hl : live.Perm live')
    (hw : waiting.Perm waiting') :
  Books g range live' waiting' sc dev
  where
    nodup := (((hl.append hw).map _).append_right _).nodup_iff.mp h.nodup
    inUse r hr := h.inUse r ((hl.append hw).mem_iff.mpr hr)
    lt := h.lt
    owner lba i hi := by
      obtain ⟨r, hr, hinfo, hmem⟩ := h.owner lba i hi
      use r, hl.mem_iff.mp hr, hinfo, hmem
    count r hr := h.count r (hl.mem_iff.mpr hr)
    zero := h.zero
    holds := h.holds.perm ((hl.flatMap_right _).append (hw.flatMap_right _))
    balanced := h.balanced

/-- What is not live owns nothing. -/
theorem unowned (h : Books g range live waiting sc dev) {i : ℕ}
    (hi : i ∈ waiting.map (·.info) ++ sc.freeQ) (lba : ℕ) :
  sc.scMap lba ≠ some i
  := by
  intro howner
  obtain ⟨r, hr, rfl, -⟩ := h.owner lba i howner
  have hnodup := h.nodup
  rw [List.map_append, List.append_assoc] at hnodup
  apply List.disjoint_of_nodup_append hnodup (List.mem_map_of_mem hr) hi

/-! ### Indices -/

theorem addRun_ok {level idx : ℕ} (h : sc.addRun level = .ok (idx, sc')) :
  sc.freeQ = idx :: sc'.freeQ ∧ sc'.scMap = sc.scMap ∧ (sc'.infoSet idx).inUse = true ∧
    (∀ i, (sc'.infoSet i).unlinkedLbaNum = (sc.infoSet i).unlinkedLbaNum) ∧
    ∀ i, i ≠ idx → (sc'.infoSet i).inUse = (sc.infoSet i).inUse
  := by
  unfold ShortcutMaster.addRun at h
  split at h
  · cases h
  · rename_i idx' q hq
    split at h
    · cases h
    · cases h
      refine ⟨hq, rfl, ?_, ?_, ?_⟩
      · simp [ShortcutMaster.updateInfo]
      · intro i
        simp only [ShortcutMaster.updateInfo, Function.update_apply]
        split
        · rename_i heq
          rw [heq]
        · rfl
      · intro i hi
        simp [ShortcutMaster.updateInfo, Function.update_of_ne hi]

/-! ### The operations -/

/-- A run that waits is freed. -/
theorem free (h : Books g range live (r :: waiting) sc dev)
    (hfree : r.free g sc dev = .ok (sc', dev')) :
  Books g range live waiting sc' dev' ∧ (∀ lba, sc'.scMap lba ≠ some r.info) ∧
    dev'.data = dev.data
  := by
  have hholds : dev.Holds (r.ownSums ++
      (live.flatMap (Run.mergePieces g) ++ waiting.flatMap Run.ownSums)) := by
    apply h.holds.perm
    rw [List.flatMap_cons]
    apply List.perm_append_comm_assoc _ _ _
  obtain ⟨rfl, hholds', hdata, hbal⟩ := Run.free_ok hholds hfree
  have hinfos : ((live ++ r :: waiting).map (·.info)).Perm
      (r.info :: (live ++ waiting).map (·.info)) := by
    rw [← List.map_cons]
    apply List.perm_middle.map _
  have hnodup : (r.info :: ((live ++ waiting).map (·.info) ++ sc.freeQ)).Nodup :=
    (hinfos.append_right _).nodup_iff.mp h.nodup
  have hunowned : ∀ lba, sc.scMap lba ≠ some r.info := h.unowned (by simp)
  have hother : ∀ i, i ≠ r.info → (sc.release r.info).infoSet i = sc.infoSet i := by
    intro i hi
    simp only [ShortcutMaster.release, ShortcutMaster.updateInfo, Function.update_of_ne hi]
  have hself : ((sc.release r.info).infoSet r.info).unlinkedLbaNum = 0 := by
    simp only [ShortcutMaster.release, ShortcutMaster.updateInfo, Function.update_self]
  have hne : ∀ r' ∈ live ++ waiting, r'.info ≠ r.info := by
    intro r' hr' heq
    apply (List.nodup_cons.mp hnodup).1
    rw [← heq]
    apply List.mem_append.mpr (.inl (List.mem_map_of_mem hr'))
  refine ⟨⟨?_, ?_, h.lt, h.owner, ?_, ?_, hholds', hbal h.balanced⟩, hunowned, hdata⟩
  · refine List.Perm.nodup ?_ hnodup
    change List.Perm _ ((live ++ waiting).map (·.info) ++ (sc.freeQ ++ [r.info]))
    rw [← List.append_assoc]
    apply (List.perm_append_singleton _ _).symm
  · intro r' hr'
    rw [hother _ (hne r' hr')]
    apply h.inUse
    rw [List.mem_append] at hr'
    simp only [List.mem_append, List.mem_cons]
    tauto
  · intro r' hr'
    rw [h.count r' hr', ShortcutMaster.total, ShortcutMaster.total,
      hother _ (hne r' (List.mem_append.mpr (.inl hr')))]
    rfl
  · intro i hi
    rcases List.mem_append.mp hi with hi | hi
    · rw [hother]
      · apply h.zero i hi
      · rintro rfl
        apply (List.nodup_cons.mp hnodup).1
        apply List.mem_append.mpr (.inr hi)
    · rw [List.mem_singleton.mp hi]
      apply hself

/-- The sources of a merge can be merged. -/
theorem mergeable {level idx : ℕ} (h : Books g range live waiting sc dev)
    (hlive : live.Perm (srcs ++ others)) (hin : MergeInputs g srcs) (hnone : NoneTwice srcs)
    (honce : MovesOnce srcs) (hlt : ∀ r ∈ srcs, ∀ e ∈ r.mergeEntries g, e.lba < range)
    (hshown : ∀ r ∈ srcs, ∀ lba ∈ r.shown, lba ∈ (r.mergeEntries g).map (·.lba))
    (hadd : sc.addRun level = .ok (idx, sc')) :
  Mergeable g range (others.flatMap (Run.mergePieces g) ++ waiting.flatMap Run.ownSums) srcs idx
    sc' dev
  := by
  obtain ⟨hfree, hmap, -, hun, -⟩ := addRun_ok hadd
  have hidx : idx ∈ sc.freeQ := hfree ▸ List.mem_cons_self
  have hmem : ∀ r ∈ srcs, r ∈ live := fun r hr =>
    hlive.mem_iff.mpr (List.mem_append.mpr (.inl hr))
  have hinfos : (live.map (·.info)).Nodup := by
    have hnodup := h.nodup
    rw [List.map_append, List.append_assoc] at hnodup
    apply hnodup.of_append_left
  refine ⟨hin, hnone, honce, hlt, ?_, h.balanced, ?_, ?_, ?_, ?_⟩
  · apply h.holds.perm
    rw [← List.append_assoc, ← List.flatMap_append]
    apply (hlive.flatMap_right _).append_right _
  · intro hsrc
    obtain ⟨r, hr, hinfo⟩ := List.mem_map.mp hsrc
    apply List.disjoint_of_nodup_append h.nodup _ hidx
    rw [← hinfo]
    apply List.mem_map_of_mem (List.mem_append.mpr (.inl (hmem r hr)))
  · intro r hr lba hlba
    rw [hmap] at hlba
    obtain ⟨r', hr', hinfo, hshow⟩ := h.owner lba _ hlba
    rw [List.inj_on_of_nodup_map hinfos hr' (hmem r hr) hinfo] at hshow
    apply hshown r hr lba hshow
  · intro lba
    rw [hmap]
    apply h.unowned (List.mem_append.mpr (.inr hidx)) lba
  · rw [hun]
    apply h.zero idx hidx

/-- A merge keeps the books. -/
theorem merge {level idx : ℕ} {st : MergeState δ} (h : Books g range live waiting sc dev)
    (hlive : live.Perm (srcs ++ others)) (hadd : sc.addRun level = .ok (idx, sc'))
    (hmerged : Merged g range
      (others.flatMap (Run.mergePieces g) ++ waiting.flatMap Run.ownSums) srcs idx sc' dev st) :
  Books g range (st.res :: others) (st.mms.map (·.r) ++ waiting) st.sc st.dev
  := by
  obtain ⟨hfree, hmap, huse, hun, hother⟩ := addRun_ok hadd
  have htotal : ∀ i, sc'.total range i = sc.total range i := by
    intro i
    rw [ShortcutMaster.total, ShortcutMaster.total, ShortcutMaster.owned, ShortcutMaster.owned,
      hmap, hun]
  have hinfos : (((st.res :: others) ++ (st.mms.map (·.r) ++ waiting)).map (·.info)
      ++ st.sc.freeQ).Perm ((live ++ waiting).map (·.info) ++ sc.freeQ) := by
    have hlive' := hlive.map (·.info)
    have hsrcs : (st.mms.map (·.r)).map (·.info) = srcs.map (·.info) := by
      rw [List.map_map]
      apply hmerged.infos
    rw [hmerged.freeQ, hfree, List.map_append, List.map_append, List.map_append, List.map_cons,
      hsrcs, hmerged.info]
    rw [List.map_append] at hlive'
    rw [List.perm_iff_count] at hlive' ⊢
    intro i
    have hc := hlive' i
    simp only [List.count_append, List.count_cons] at hc ⊢
    omega
  have hnodup := h.nodup
  rw [hfree] at hnodup
  have hidx : idx ∉ (live ++ waiting).map (·.info) ∧ idx ∉ sc'.freeQ := by
    have hd := List.nodup_append.mp hnodup
    constructor
    · intro hin
      apply hd.2.2 idx hin idx List.mem_cons_self rfl
    · apply (List.nodup_cons.mp hd.2.1).1
  have hmem : ∀ r ∈ others, r ∈ live := fun r hr =>
    hlive.mem_iff.mpr (List.mem_append.mpr (.inr hr))
  have hne : ∀ r ∈ live ++ waiting, r.info ≠ idx := by
    rintro r hr rfl
    apply hidx.1 (List.mem_map_of_mem hr)
  refine ⟨hinfos.symm.nodup h.nodup, ?_, ?_, ?_, ?_, ?_, ?_, hmerged.balanced⟩
  · intro r hr
    have hold : r.info = idx ∨ ∃ r' ∈ live ++ waiting, r'.info = r.info := by
      rw [List.cons_append, List.mem_cons, List.mem_append, List.mem_append] at hr
      rcases hr with rfl | hr | hr | hr
      · left
        apply hmerged.info
      · right
        exact ⟨r, List.mem_append.mpr (.inl (hmem r hr)), rfl⟩
      · have hin : r.info ∈ st.mms.map (·.r.info) := by
          obtain ⟨mm, hmm, rfl⟩ := List.mem_map.mp hr
          apply List.mem_map_of_mem hmm
        rw [hmerged.infos] at hin
        obtain ⟨r', hr', hinfo⟩ := List.mem_map.mp hin
        refine .inr ⟨r', List.mem_append.mpr (.inl ?_), hinfo⟩
        apply hlive.mem_iff.mpr (List.mem_append.mpr (.inl hr'))
      · right
        exact ⟨r, List.mem_append.mpr (.inr hr), rfl⟩
    rw [hmerged.inUse]
    rcases hold with heq | ⟨r', hr', heq⟩
    · rw [heq, huse]
    · rw [← heq, hother _ (hne r' hr')]
      apply h.inUse r' hr'
  · intro lba hlba
    obtain ⟨i, hi⟩ := Option.ne_none_iff_exists'.mp hlba
    rcases hmerged.owner lba i hi with ⟨-, hin⟩ | ⟨-, -, hold⟩
    · obtain ⟨e, he, rfl⟩ := List.mem_map.mp hin
      apply hmerged.lt e he
    · apply h.lt
      rw [← hmap, hold]
      apply Option.some_ne_none i
  · intro lba i hi
    rcases hmerged.owner lba i hi with ⟨rfl, hin⟩ | ⟨-, hnot, hold⟩
    · use st.res, List.mem_cons_self, hmerged.info
      rw [Run.shown, hmerged.type]
      apply hin
    · rw [hmap] at hold
      obtain ⟨r, hr, rfl, hshow⟩ := h.owner lba i hold
      rcases List.mem_append.mp (hlive.mem_iff.mp hr) with hr | hr
      · exact absurd (List.mem_map_of_mem hr) hnot
      · use r, List.mem_cons_of_mem _ hr, rfl, hshow
  · intro r hr
    rcases List.mem_cons.mp hr with rfl | hr
    · rw [hmerged.count, hmerged.info]
    · rw [hmerged.total _ (hne r (List.mem_append.mpr (.inl (hmem r hr)))), htotal]
      apply h.count r (hmem r hr)
  · intro i hi
    rw [hmerged.freeQ] at hi
    have hfreeQ : i ∈ sc.freeQ := hfree ▸ List.mem_cons_of_mem _ hi
    have hsame : st.sc.total range i = sc.total range i := by
      rw [hmerged.total i (fun heq => hidx.2 (heq ▸ hi)), htotal]
    have hnone : sc.owned range i = ∅ :=
      Finset.filter_eq_empty_iff.mpr fun _ _ =>
        h.unowned (List.mem_append.mpr (.inr hfreeQ)) _
    rw [ShortcutMaster.total, ShortcutMaster.total, hnone, h.zero i hfreeQ] at hsame
    simp only [Finset.card_empty] at hsame
    omega
  · apply hmerged.holds.perm
    rw [List.flatMap_cons, List.flatMap_append, List.flatMap_map, List.append_assoc]
    apply List.Perm.append_left
    apply List.perm_append_comm_assoc _ _ _

/-- A new log takes an index and nothing else. -/
theorem addLog {level idx n : ℕ} {mapType : MapType} (h : Books g range live waiting sc dev)
    (hadd : sc.addRun level = .ok (idx, sc')) :
  Books g range (Run.factory g mapType n .runLog idx :: live) waiting sc' dev
  := by
  obtain ⟨hfree, hmap, huse, hun, hother⟩ := addRun_ok hadd
  have htotal : ∀ i, sc'.total range i = sc.total range i := by
    intro i
    rw [ShortcutMaster.total, ShortcutMaster.total, ShortcutMaster.owned, ShortcutMaster.owned,
      hmap, hun]
  have hnodup := h.nodup
  rw [hfree] at hnodup
  have hidx : idx ∉ (live ++ waiting).map (·.info) := by
    intro hin
    apply (List.nodup_append.mp hnodup).2.2 idx hin idx List.mem_cons_self rfl
  have hunowned : ∀ lba, sc.scMap lba ≠ some idx :=
    h.unowned (List.mem_append.mpr (.inr (hfree ▸ List.mem_cons_self)))
  refine ⟨?_, ?_, ?_, ?_, ?_, ?_, h.holds, h.balanced⟩
  · refine List.Perm.nodup ?_ hnodup
    apply List.perm_middle
  · intro r hr
    rw [List.cons_append, List.mem_cons] at hr
    rcases hr with rfl | hr
    · apply huse
    · rw [hother]
      · apply h.inUse r hr
      · rintro rfl
        apply hidx (List.mem_map_of_mem hr)
  · rw [hmap]
    apply h.lt
  · intro lba i hi
    rw [hmap] at hi
    obtain ⟨r, hr, hinfo, hshow⟩ := h.owner lba i hi
    use r, List.mem_cons_of_mem _ hr, hinfo, hshow
  · intro r hr
    rw [htotal]
    rcases List.mem_cons.mp hr with rfl | hr
    · change 0 = sc.total range idx
      rw [ShortcutMaster.total, h.zero idx (hfree ▸ List.mem_cons_self),
        ShortcutMaster.owned, Finset.filter_eq_empty_iff.mpr fun _ _ => hunowned _]
      rfl
    · apply h.count r hr
  · intro i hi
    rw [hun]
    exact h.zero i (hfree ▸ List.mem_cons_of_mem _ hi)

/-- A log that can be written to has the pieces of its tree and its summary pages. -/
theorem logOpen_mergePieces {held : List ℕ} {items : List (ℕ × δ)}
    (h : r.LogOpen g held dev items) :
  r.mergePieces g = r.treePsas g ++ r.sums
  := by
  have hown : r.stBody.stes.filter (fun ste => ste.copied = false) = r.stBody.stes := by
    apply List.filter_eq_self.mpr
    intro ste hste
    apply decide_eq_true (h.log.stes ste hste).2.2.1
  rw [Run.mergePieces, Run.mergeEntries, h.log.type, Run.ownSums, hown]
  rfl

theorem logOpen_shown {held : List ℕ} {items : List (ℕ × δ)} (h : r.LogOpen g held dev items) :
  r.shown = (items ++ r.buffered).map (·.1)
  := by
  rw [Run.shown, h.log.type, List.map_append, h.logs.lbas]
  rfl

/-- A write to the memtable keeps the books. -/
theorem insert {r' : Run δ} {items : List (ℕ × δ)} {lba : ℕ} {d : δ}
    (h : Books g range (r :: others) waiting sc dev) (hrange : range ≤ uint32Max)
    (hlog : r.LogOpen g (others.flatMap (Run.mergePieces g) ++ waiting.flatMap Run.ownSums) dev
      items) (hlba : lba < range) (hok : r.insert g sc dev lba d = .ok (r', sc', dev')) :
  Books g range (r' :: others) waiting sc' dev' ∧
    (∃ items', r'.LogOpen g
      (others.flatMap (Run.mergePieces g) ++ waiting.flatMap Run.ownSums) dev' items') ∧
    ∀ l ∈ r'.shown, l ∈ r.shown ∨ l = lba
  := by
  simp only [Run.insert, hlog.log.type, bind_eq_ok] at hok
  obtain ⟨-, -, hok⟩ := hok
  rcases sc.validityCheckAndLink_cases r.info r.info lba with
    ⟨hfalse, hsc, -⟩ | ⟨htrue, htakes, hunlinks⟩
  · rw [hfalse, hsc] at hok
    cases hok
    use h, ⟨items, hlog⟩, fun l hl => .inl hl
  · simp only [htrue, if_true, bind_eq_ok] at hok
    obtain ⟨⟨r₁, dev₁⟩, hsector, hret⟩ := hok
    cases hret
    have hunlinks := hunlinks (by
      intro owner howner
      obtain ⟨r₀, hr₀, rfl, -⟩ := h.owner lba owner howner
      exact h.inUse r₀ (List.mem_append.mpr (.inl hr₀)))
    obtain ⟨items', hlog', hitems, hshape, hnow, -, -, hbal⟩ :=
      Run.insertSector_log hlog (Nat.le_of_lt (Nat.lt_of_lt_of_le hlba hrange)) hsector
    have hshown : r₁.shown = r.shown ++ [lba] := by
      rw [logOpen_shown hlog', hitems, List.map_append, logOpen_shown hlog]
      rfl
    have hnodup : r.info ∉ (others ++ waiting).map (·.info) ++ sc.freeQ :=
      (List.nodup_cons.mp h.nodup).1
    have hne : ∀ r₀ ∈ others ++ waiting, r₀.info ≠ r.info := by
      intro r₀ hr₀ heq
      apply hnodup
      rw [← heq]
      apply List.mem_append.mpr (.inl (List.mem_map_of_mem hr₀))
    refine ⟨⟨?_, ?_, ?_, ?_, ?_, ?_, ?_, hbal h.balanced⟩, ⟨items', hlog'⟩, ?_⟩
    · rw [htakes.freeQ]
      change (r₁.info :: ((others ++ waiting).map (·.info) ++ sc.freeQ)).Nodup
      rw [hshape.info]
      apply h.nodup
    · intro r₀ hr₀
      rw [(htakes.rank _).inUse]
      rcases List.mem_cons.mp hr₀ with rfl | hr₀
      · rw [hshape.info]
        apply h.inUse r List.mem_cons_self
      · apply h.inUse r₀ (List.mem_cons_of_mem _ hr₀)
    · intro l hl
      rw [htakes.map, Function.update_apply] at hl
      split at hl
      · rename_i heq
        rw [heq]
        apply hlba
      · apply h.lt l hl
    · intro l i hi
      rw [htakes.map, Function.update_apply] at hi
      split at hi
      · rename_i heq
        cases hi
        use r₁, List.mem_cons_self, hshape.info
        rw [hshown, heq]
        simp
      · obtain ⟨r₀, hr₀, hinfo, hshow⟩ := h.owner l i hi
        rcases List.mem_cons.mp hr₀ with rfl | hr₀
        · use r₁, List.mem_cons_self, hshape.info.trans hinfo
          rw [hshown]
          apply List.mem_append.mpr (.inl hshow)
        · use r₀, List.mem_cons_of_mem _ hr₀, hinfo, hshow
    · intro r₀ hr₀
      rw [htakes.total hunlinks hlba]
      rcases List.mem_cons.mp hr₀ with rfl | hr₀
      · rw [hnow, hshape.info, if_pos rfl, h.count r List.mem_cons_self]
      · rw [if_neg (hne r₀ (List.mem_append.mpr (.inl hr₀))), Nat.add_zero]
        apply h.count r₀ (List.mem_cons_of_mem _ hr₀)
    · intro i hi
      rw [htakes.freeQ] at hi
      rw [hunlinks, if_neg (h.unowned (List.mem_append.mpr (.inr hi)) lba), h.zero i hi]
    · apply hlog'.logs.holds.perm
      rw [List.flatMap_cons, logOpen_mergePieces hlog', ← List.append_assoc]
    · intro l hl
      rw [hshown, List.mem_append, List.mem_singleton] at hl
      apply hl

/-- A finished log shows the lbas of its tree. -/
theorem logDone_shown (hdone : r.LogDone g) (hpp : r.pp = none) :
  r.shown = r.pairs.map (·.lba) ∧
    ∀ lba, lba ∈ r.shown ↔ lba ∈ (r.mergeEntries g).map (·.lba)
  := by
  have hshown : r.shown = r.pairs.map (·.lba) := by
    rw [Run.shown, hdone.type]
    change r.pairs.map (·.lba) ++ r.buffered.map (·.1) = _
    rw [Run.buffered, hpp]
    apply List.append_nil _
  use hshown
  intro lba
  rw [hshown, Run.mergeEntries, hdone.type]
  dsimp only
  rw [Run.treeEntries, List.map_map]
  constructor
  · intro hlba
    obtain ⟨k, hk⟩ := exists_isLast hlba
    apply List.mem_map.mpr ⟨(lba, k), (hdone.last (lba, k)).mpr hk, rfl⟩
  · intro hlba
    obtain ⟨x, hx, rfl⟩ := List.mem_map.mp hlba
    apply List.mem_of_getElem? ((hdone.last x).mp hx).1

/-- The memtable is finished, to be merged. -/
theorem insertDone {r' : Run δ} {items : List (ℕ × δ)}
    (h : Books g range (r :: others) waiting sc dev) (hrange : range ≤ uint32Max)
    (hlog : r.LogOpen g (others.flatMap (Run.mergePieces g) ++ waiting.flatMap Run.ownSums) dev
      items) (hlt : ∀ lba ∈ r.shown, lba < range) (hok : r.insertDone g dev = .ok (r', dev')) :
  Books g range (r' :: others) waiting sc dev' ∧ r'.FinishedLog g ∧
    (∀ e ∈ r'.mergeEntries g, e.lba < range) ∧
    ∀ lba ∈ r'.shown, lba ∈ (r'.mergeEntries g).map (·.lba)
  := by
  obtain ⟨hdone, hlogs, hshape, hnow, -, hcopied, hbal⟩ := Run.insertDone_log hlog hok
  have hpp : r'.pp = none := by
    simp only [Run.insertDone, bind_eq_ok] at hok
    obtain ⟨x, -, y, -, hret⟩ := hok
    cases hret
    rfl
  obtain ⟨hpairs, hmem⟩ := logDone_shown hdone hpp
  have hshown : r'.shown = r.shown := by
    rw [hpairs, ← hlogs.lbas, logOpen_shown hlog]
  have hown : r'.mergePieces g = r'.treePsas g ++ r'.sums := by
    have hfilter : r'.stBody.stes.filter (fun ste => ste.copied = false) = r'.stBody.stes := by
      apply List.filter_eq_self.mpr
      intro ste hste
      apply decide_eq_true (hcopied ste hste)
    rw [Run.mergePieces, Run.mergeEntries, hdone.type, Run.ownSums, hfilter]
    rfl
  refine ⟨⟨?_, ?_, h.lt, ?_, ?_, h.zero, ?_, hbal h.balanced⟩, ⟨hdone, ?_⟩, ?_, ?_⟩
  · change (r'.info :: ((others ++ waiting).map (·.info) ++ sc.freeQ)).Nodup
    rw [hshape.info]
    apply h.nodup
  · intro r₀ hr₀
    rw [List.cons_append, List.mem_cons] at hr₀
    rcases hr₀ with rfl | hr₀
    · rw [hshape.info]
      apply h.inUse r List.mem_cons_self
    · apply h.inUse r₀ (List.mem_cons_of_mem _ hr₀)
  · intro lba i hi
    obtain ⟨r₀, hr₀, hinfo, hshow⟩ := h.owner lba i hi
    rcases List.mem_cons.mp hr₀ with rfl | hr₀
    · use r', List.mem_cons_self, hshape.info.trans hinfo, hshown ▸ hshow
    · use r₀, List.mem_cons_of_mem _ hr₀, hinfo, hshow
  · intro r₀ hr₀
    rcases List.mem_cons.mp hr₀ with rfl | hr₀
    · rw [hnow, hshape.info]
      apply h.count r List.mem_cons_self
    · apply h.count r₀ (List.mem_cons_of_mem _ hr₀)
  · apply hlogs.holds.perm
    rw [List.flatMap_cons, hown, ← List.append_assoc]
  · intro ste hste
    use hcopied ste hste
    obtain ⟨hmeta, hne, -⟩ := hdone.stes ste hste
    obtain ⟨q, hq, hend⟩ := hmeta.end_mem hne
    have hin : q ∈ r'.pairs :=
      List.mem_flatMap.mpr ⟨ste, List.mem_append.mpr (.inl hste), hq⟩
    have := hlt q.lba (by
      rw [← hshown, hpairs]
      exact List.mem_map_of_mem hin)
    omega
  · intro e he
    apply hlt
    rw [← hshown, hmem]
    apply List.mem_map_of_mem he
  · intro lba hlba
    apply (hmem lba).mp hlba

end Books

end AppL
