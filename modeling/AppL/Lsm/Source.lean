import AppL.Lsm.Log
import AppL.Lsm.Merging

/-!
# Sources of a merge

The iterator of a source as a list of the entries that are left in it.  For a normal run these
are the pairs on the rest of its summary pages, for a log the rest of its tree.
-/

namespace AppL

open Transition

/-- The place of a pair in its block gives its piece. -/
theorem Ste.Meta.translate {g : Geometry} {ste : Ste} (h : ste.Meta g) {p : SummaryPair}
    (hp : p ∈ ste.page) :
  ste.pba * l2pgap + p.piecePpa % g.maxSectorInBlock = p.piecePpa
  := by
  obtain ⟨k, hk⟩ := List.mem_iff_getElem?.mp hp
  have hlt : k < g.maxSectorInBlock :=
    Nat.lt_of_lt_of_le (List.getElem?_eq_some_iff.mp hk).1 h.length_le
  obtain ⟨c, hc⟩ := h.dvd (List.ne_nil_of_mem hp)
  have hblock : ste.pba * l2pgap = c * g.maxSectorInBlock := by
    rw [hc, Geometry.maxSectorInBlock, Nat.mul_comm g.ppb c, Nat.mul_assoc]
  rw [h.piece k p hk, hblock, Nat.mul_add_mod_self_right, Nat.mod_eq_of_lt hlt]

namespace Mm

variable {δ : Type} {g : Geometry} {mm mm' : Mm δ}

/-- The pairs that are left on a summary page, as entries. -/
def pageEntries (orig : Option (ℕ × ℕ)) (page : List SummaryPair) : List Entry :=
  page.map fun p => ⟨p.lba, p.piecePpa, orig⟩

/-- The entries that are left in a source. -/
def left (g : Geometry) (mm : Mm δ) : List Entry :=
  match mm.ssi.type with
  | .runNormal =>
      (((mm.r.stBody.stes.map Ste.orig).drop mm.ssi.nowSteNum).zipWith pageEntries
        mm.ssi.pages).flatten
  | .runLog =>
      mm.ssi.tree.map fun x => ⟨x.1, mm.r.stBody.convertGlobalOffsetToPsa g x.2, none⟩

/-- A normal run is read page by page: the pages before `now_STE_num` are done, and the first
one that is left may be read in part. -/
structure ReadsNormal (g : Geometry) (mm : Mm δ) : Prop where
  run : mm.r.type = .runNormal
  type : mm.ssi.type = .runNormal
  stes : ∀ ste ∈ mm.r.stBody.stes, ste.Meta g ∧ ste.page ≠ []
  pages : mm.ssi.pages = [] ∨ ∃ before pre page after,
    mm.r.stBody.stes.map (·.page) = before ++ (pre ++ page) :: after ∧
    before.length = mm.ssi.nowSteNum ∧ page ≠ [] ∧ mm.ssi.pages = page :: after

/-- A log is read in the order of its tree. -/
structure ReadsLog (g : Geometry) (mm : Mm δ) : Prop where
  run : mm.r.LogDone g
  type : mm.ssi.type = .runLog
  tree : ∃ pre, mm.r.runLogMf = pre ++ mm.ssi.tree

/-- The iterator of the source is in order. -/
def Reads (g : Geometry) (mm : Mm δ) : Prop := mm.ReadsNormal g ∨ mm.ReadsLog g

/-! ### Picking -/

/-- The page that a normal run is at. -/
theorem ReadsNormal.left_cons {page : List SummaryPair} {after : List (List SummaryPair)}
    (h : mm.ReadsNormal g) (hp : mm.ssi.pages = page :: after) :
  ∃ ste pre, mm.r.stBody.stes[mm.ssi.nowSteNum]? = some ste ∧ ste.page = pre ++ page ∧
    page ≠ [] ∧ (mm.r.stBody.stes.map (·.page)).drop (mm.ssi.nowSteNum + 1) = after ∧
    mm.left g = pageEntries ste.orig page ++
      (((mm.r.stBody.stes.map Ste.orig).drop (mm.ssi.nowSteNum + 1)).zipWith pageEntries
        after).flatten
  := by
  rcases h.pages with hnil | ⟨before, pre, page', after', hstes, hlen, hne, hpages⟩
  · rw [hp] at hnil
    cases hnil
  · rw [hp] at hpages
    cases hpages
    have hget : (mm.r.stBody.stes.map (·.page))[mm.ssi.nowSteNum]? = some (pre ++ page) := by
      rw [hstes, ← hlen]
      simp
    rw [List.getElem?_map] at hget
    obtain ⟨ste, hste, hpage⟩ := Option.map_eq_some_iff.mp hget
    refine ⟨ste, pre, hste, hpage, hne, ?_, ?_⟩
    · rw [hstes, ← hlen, ← List.drop_drop, List.drop_left]
      rfl
    · have hdrop : (mm.r.stBody.stes.map Ste.orig).drop mm.ssi.nowSteNum
          = ste.orig :: (mm.r.stBody.stes.map Ste.orig).drop (mm.ssi.nowSteNum + 1) := by
        obtain ⟨hlt, heq⟩ := List.getElem?_eq_some_iff.mp hste
        rw [List.drop_eq_getElem_cons (by simpa using hlt), List.getElem_map, heq]
      rw [left, h.type, hp, hdrop, List.zipWith_cons_cons, List.flatten_cons]

theorem steAt_of_getElem? {sa : StArray} {i : ℕ} {ste : Ste} (h : sa.stes[i]? = some ste) :
  sa.steAt i = ste
  := by rw [StArray.steAt, h, Option.getD_some]

/-- The first entry that is left is picked, and its piece is found again from what is
picked. -/
theorem pick_eq {e : Entry} {l : List Entry} (h : mm.Reads g) (hl : mm.left g = e :: l)
    (sc : ShortcutMaster) :
  ∃ p, mm.pick g = some p ∧ p.lba = e.lba ∧ p.piecePpa = e.psa ∧
    mm.isOld sc p = sc.oldEntry mm.r.info e ∧
    mm.originalPsa g e.lba p.ste p.intraIdx = .ok e.psa ∧
    mm.originalPsa g e.lba p.ste (e.psa % g.maxSectorInBlock) = .ok e.psa ∧
    mm.originalPsa g e.lba mm.ssi.nowSteNum (e.psa % g.maxSectorInBlock) = .ok e.psa
  := by
  rcases h with h | h
  · cases hp : mm.ssi.pages with
    | nil => simp [left, h.type, hp] at hl
    | cons page after =>
        obtain ⟨ste, pre, hste, hpage, hne, -, hleft⟩ := h.left_cons hp
        cases page with
        | nil => exact absurd rfl hne
        | cons p ps =>
            rw [hleft, pageEntries, List.map_cons, List.cons_append] at hl
            cases hl
            have hat := steAt_of_getElem? hste
            have htr : mm.r.stBody.readTranslation mm.ssi.nowSteNum
                (p.piecePpa % g.maxSectorInBlock) = p.piecePpa := by
              rw [StArray.readTranslation, hat]
              apply (h.stes ste (List.mem_of_getElem? hste)).1.translate
              rw [hpage]
              simp
            refine ⟨⟨p.lba, p.piecePpa, mm.ssi.nowSteNum, p.piecePpa % g.maxSectorInBlock⟩,
              ?_, rfl, rfl, ?_, ?_, ?_, ?_⟩
            · simp only [pick, SpSetIter.pick, h.type, hp, htr]
            · simp only [isOld, h.type, hat, ShortcutMaster.oldEntry, Ste.orig]
              cases ste.unlinkedDataCopy with
              | false => simp
              | true => simp
            · simp only [originalPsa, h.run, htr]
            · simp only [originalPsa, h.run, htr]
            · simp only [originalPsa, h.run, htr]
  · cases ht : mm.ssi.tree with
    | nil => simp [left, h.type, ht] at hl
    | cons x t =>
        obtain ⟨lba, off⟩ := x
        simp only [left, h.type, ht, List.map_cons] at hl
        cases hl
        obtain ⟨pre, hpre⟩ := h.tree
        have hmem : (lba, off) ∈ mm.r.runLogMf := by
          rw [hpre, ht]
          simp
        have hlook := (TreeMap.lookup_eq_some h.run.asc).mpr hmem
        have horig : ∀ ste intra, mm.originalPsa g lba ste intra
            = .ok (mm.r.stBody.convertGlobalOffsetToPsa g off) := by
          intro ste intra
          simp only [originalPsa, h.run.type, hlook, orThrow]
          rfl
        refine ⟨⟨lba, mm.r.stBody.convertGlobalOffsetToPsa g off, uint32Max, off⟩, ?_, rfl,
          rfl, ?_, horig _ _, horig _ _, horig _ _⟩
        · simp only [pick, SpSetIter.pick, h.type, ht]
        · simp [isOld, h.type, ShortcutMaster.oldEntry]

theorem pick_eq_none (h : mm.Reads g) (hl : mm.left g = []) :
  mm.pick g = none
  := by
  rcases h with h | h
  · cases hp : mm.ssi.pages with
    | nil => simp only [pick, SpSetIter.pick, h.type, hp]
    | cons page after =>
        obtain ⟨ste, pre, hste, hpage, hne, -, hleft⟩ := h.left_cons hp
        rw [hl] at hleft
        simp [pageEntries, hne] at hleft
  · cases ht : mm.ssi.tree with
    | nil => simp only [pick, SpSetIter.pick, h.type, ht]
    | cons x t => simp [left, h.type, ht] at hl

/-! ### Moving -/

/-- The blocks that need not be copied are the same. -/
def SameNoncopy (a b : SpSetIter) : Prop :=
  b.noncopyLba = a.noncopyLba ∧ b.noncopyFlag = a.noncopyFlag

theorem move_normal {ssi ssi' : SpSetIter} {page : List SummaryPair}
    {after : List (List SummaryPair)} (ht : ssi.type = .runNormal)
    (hp : ssi.pages = page :: after) (h : ssi.move = .ok ssi') :
  ssi'.type = .runNormal ∧ SameNoncopy ssi ssi' ∧
    ((page.tail = [] ∧ ssi'.pages = after ∧ ssi'.nowSteNum = ssi.nowSteNum + 1) ∨
      (page.tail ≠ [] ∧ ssi'.pages = page.tail :: after ∧ ssi'.nowSteNum = ssi.nowSteNum))
  := by
  unfold SpSetIter.move at h
  rw [ht, hp] at h
  dsimp only at h
  split at h
  · rename_i htail
    cases h
    use rfl, ⟨rfl, rfl⟩, .inl ⟨htail, rfl, rfl⟩
  · rename_i htail
    cases h
    use rfl, ⟨rfl, rfl⟩, .inr ⟨htail, rfl, rfl⟩

theorem move_log {ssi ssi' : SpSetIter} {x : ℕ × ℕ} {t : TreeMap} (ht : ssi.type = .runLog)
    (htree : ssi.tree = x :: t) (h : ssi.move = .ok ssi') :
  ssi'.type = .runLog ∧ SameNoncopy ssi ssi' ∧ ssi'.tree = t
  := by
  unfold SpSetIter.move at h
  rw [ht, htree] at h
  dsimp only [List.tail_cons] at h
  split at h
  · cases h
    exact ⟨rfl, ⟨rfl, rfl⟩, rfl⟩
  · split at h
    · cases h
      exact ⟨rfl, ⟨rfl, rfl⟩, rfl⟩
    · simp only [SpSetIter.countPick, bind_eq_ok, require_eq_ok] at h
      obtain ⟨_, -, hret⟩ := h
      cases hret
      exact ⟨rfl, ⟨rfl, rfl⟩, rfl⟩

/-- The rest of the pages of a normal run. -/
theorem ReadsNormal.next {page : List SummaryPair} {after : List (List SummaryPair)}
    (h : mm.ReadsNormal g) (hp : mm.ssi.pages = page :: after) (hr : mm'.r = mm.r)
    (htype : mm'.ssi.type = .runNormal) (hpages : mm'.ssi.pages = after)
    (hnow : mm'.ssi.nowSteNum = mm.ssi.nowSteNum + 1) :
  mm'.ReadsNormal g ∧ mm'.left g = (((mm.r.stBody.stes.map Ste.orig).drop
    (mm.ssi.nowSteNum + 1)).zipWith pageEntries after).flatten
  := by
  obtain ⟨ste, pre, hste, hpage, -, hafter, -⟩ := h.left_cons hp
  constructor
  · use hr ▸ h.run, htype, hr ▸ h.stes
    rw [hpages, hr, hnow]
    cases after with
    | nil => exact .inl rfl
    | cons page' after' =>
        right
        refine ⟨(mm.r.stBody.stes.map (·.page)).take (mm.ssi.nowSteNum + 1), [], page', after',
          ?_, ?_, ?_, rfl⟩
        · rw [List.nil_append, ← hafter, List.take_append_drop]
        · rw [List.length_take, List.length_map]
          have := (List.getElem?_eq_some_iff.mp hste).1
          omega
        · have hmem : page' ∈ mm.r.stBody.stes.map (·.page) := by
            apply List.mem_of_mem_drop (i := mm.ssi.nowSteNum + 1)
            rw [hafter]
            simp
          obtain ⟨ste', hste', rfl⟩ := List.mem_map.mp hmem
          apply (h.stes ste' hste').2
  · rw [left, htype, hr, hnow, hpages]

/-- The next pair on the page of a normal run. -/
theorem ReadsNormal.nextPair {p : SummaryPair} {ps : List SummaryPair}
    {after : List (List SummaryPair)} (h : mm.ReadsNormal g)
    (hp : mm.ssi.pages = (p :: ps) :: after) (hps : ps ≠ []) (hr : mm'.r = mm.r)
    (htype : mm'.ssi.type = .runNormal) (hpages : mm'.ssi.pages = ps :: after)
    (hnow : mm'.ssi.nowSteNum = mm.ssi.nowSteNum) :
  mm'.ReadsNormal g
  := by
  use hr ▸ h.run, htype, hr ▸ h.stes
  rcases h.pages with hnil | ⟨before, pre, page, after', hstes, hlen, -, hpages'⟩
  · rw [hp] at hnil
    cases hnil
  · rw [hp] at hpages'
    cases hpages'
    right
    refine ⟨before, pre ++ [p], ps, after, ?_, hlen.trans hnow.symm, hps, hpages⟩
    rw [hr, hstes]
    simp

/-- `__move_iter_target` drops the first entry that is left. -/
theorem moveIterTarget_ok {e : Entry} {l : List Entry} (h : mm.Reads g)
    (hl : mm.left g = e :: l) (hd : mm.done = false) (hm : mm.moveIterTarget = .ok mm') :
  mm'.Reads g ∧ mm'.left g = l ∧ mm'.r = mm.r ∧ (mm'.done = true → l = []) ∧
    SameNoncopy mm.ssi mm'.ssi
  := by
  simp only [moveIterTarget, hd, Bool.false_eq_true, if_false, bind_eq_ok] at hm
  obtain ⟨ssi, hmove, hret⟩ := hm
  cases hret
  rcases h with h | h
  · cases hp : mm.ssi.pages with
    | nil => simp [left, h.type, hp] at hl
    | cons page after =>
        obtain ⟨ste, pre, hste, hpage, hne, -, hleft⟩ := h.left_cons hp
        obtain ⟨htype, hnc, hcases⟩ := move_normal h.type hp hmove
        cases page with
        | nil => exact absurd rfl hne
        | cons p ps =>
            rw [hleft, pageEntries, List.map_cons, List.cons_append, List.cons.injEq] at hl
            rcases hcases with ⟨htail, hpages, hnow⟩ | ⟨htail, hpages, hnow⟩
            · obtain ⟨hreads, hleft'⟩ :
                  ReadsNormal g (⟨mm.r, ssi, ssi.nowSteNum, ssi.doneCheck⟩ : Mm δ) ∧ _ :=
                h.next hp rfl htype hpages hnow
              rw [List.tail_cons] at htail
              rw [htail] at hl
              refine ⟨.inl hreads, hleft'.trans hl.2, rfl, ?_, hnc⟩
              intro hdone
              simp only [SpSetIter.doneCheck, htype, hpages, List.isEmpty_iff] at hdone
              rw [← hl.2, hdone]
              simp
            · rw [List.tail_cons] at htail hpages
              have hreads :
                  ReadsNormal g (⟨mm.r, ssi, ssi.nowSteNum, ssi.doneCheck⟩ : Mm δ) :=
                h.nextPair hp htail rfl htype hpages hnow
              refine ⟨.inl hreads, ?_, rfl, ?_, hnc⟩
              · obtain ⟨ste', -, hste', -, -, -, hleft'⟩ := hreads.left_cons hpages
                rw [hnow] at hste'
                cases hste.symm.trans hste'
                rw [hleft', hnow]
                apply hl.2
              · intro hdone
                simp [SpSetIter.doneCheck, htype, hpages] at hdone
  · cases ht : mm.ssi.tree with
    | nil => simp [left, h.type, ht] at hl
    | cons x t =>
        simp only [left, h.type, ht, List.map_cons, List.cons.injEq] at hl
        obtain ⟨htype, hnc, htree⟩ := move_log h.type ht hmove
        obtain ⟨pre, hpre⟩ := h.tree
        refine ⟨.inr ⟨h.run, htype, pre ++ [x], ?_⟩, ?_, rfl, ?_, hnc⟩
        · rw [htree, hpre, ht]
          simp
        · rw [left]
          simp only [htype, htree]
          apply hl.2
        · intro hdone
          simp only [SpSetIter.doneCheck, htype, htree, List.isEmpty_iff] at hdone
          rw [← hl.2, hdone]
          rfl

/-! ### Leaving a block -/

/-- The loop of `trivial_move` collects the entries up to the one at the end of the block. -/
theorem collectLbas_ok {endLba : ℕ} (fuel : ℕ) :
  ∀ {mm mm' : Mm δ} {lbas : List ℕ}, mm.Reads g → (mm.done = true → mm.left g = []) →
    MergeState.collectLbas g endLba fuel mm = .ok (lbas, mm') →
    ∃ es e l, mm.left g = es ++ e :: l ∧ lbas = (es ++ [e]).map (·.lba) ∧ e.lba = endLba ∧
      mm'.left g = e :: l ∧ mm'.Reads g ∧ mm'.r = mm.r ∧ SameNoncopy mm.ssi mm'.ssi ∧
      (mm'.done = true → mm'.left g = [])
  := by
  induction fuel with
  | zero =>
      intro mm mm' lbas _ _ h
      cases h
  | succ fuel ih =>
      intro mm mm' lbas hr hd h
      simp only [MergeState.collectLbas, bind_eq_ok, orThrow_eq_ok] at h
      obtain ⟨p, hp, h⟩ := h
      cases hl : mm.left g with
      | nil =>
          rw [pick_eq_none hr hl] at hp
          cases hp
      | cons e l =>
          obtain ⟨p', hp', hlba, -⟩ := pick_eq hr hl (ShortcutMaster.init 0)
          cases hp.symm.trans hp'
          split at h
          · rename_i hend
            cases h
            exact ⟨[], e, l, rfl, by simp [hlba], hlba.symm.trans hend, hl, hr, rfl,
              ⟨rfl, rfl⟩, hd⟩
          · simp only [bind_eq_ok] at h
            obtain ⟨mm₁, hmove, ⟨lbas', mm₂⟩, hrest, hret⟩ := h
            cases hret
            have hnd : mm.done = false := by
              rw [Bool.eq_false_iff]
              intro hdone
              rw [hd hdone] at hl
              cases hl
            obtain ⟨hr₁, hl₁, hrun₁, hd₁, hnc₁⟩ := moveIterTarget_ok hr hl hnd hmove
            obtain ⟨es, e', l', hleft, hlbas, hend, hleft', hr₂, hrun₂, hnc₂, hd₂⟩ :=
              ih hr₁ (by rwa [hl₁]) hrest
            refine ⟨e :: es, e', l', ?_, ?_, hend, hleft', hr₂, hrun₂.trans hrun₁,
              ⟨hnc₂.1.trans hnc₁.1, hnc₂.2.trans hnc₁.2⟩, hd₂⟩
            · rw [List.cons_append, ← hleft, hl₁]
            · rw [hlbas, hlba]
              rfl

theorem dropTree_ok {endLba : ℕ} (t : TreeMap) :
  ∀ {ssi ssi' : SpSetIter}, SpSetIter.dropTree endLba t ssi = .ok ssi' →
    ssi'.tree = t.dropWhile (fun x => x.1 ≤ endLba) ∧ ssi'.type = ssi.type ∧
      SameNoncopy ssi ssi'
  := by
  induction t with
  | nil =>
      intro ssi ssi' h
      cases h
      exact ⟨rfl, rfl, rfl, rfl⟩
  | cons x t ih =>
      intro ssi ssi' h
      unfold SpSetIter.dropTree at h
      split at h
      · rename_i hle
        simp only [SpSetIter.countPick, bind_eq_ok, require_eq_ok] at h
        obtain ⟨ssi₁, ⟨_, -, hret⟩, hrest⟩ := h
        cases hret
        obtain ⟨htree, htype, hnc⟩ := ih hrest
        refine ⟨?_, htype, hnc⟩
        rw [htree, List.dropWhile_cons_of_pos (by simpa using hle)]
      · rename_i hle
        cases h
        refine ⟨?_, rfl, rfl, rfl⟩
        rw [List.dropWhile_cons_of_neg (by simpa using hle)]

theorem moveSte_cases {ssi ssi' : SpSetIter} {steNum endLba : ℕ}
    (h : ssi.moveSte steNum endLba = .ok ssi') :
  steNum ∈ ssi.noncopyFlag ∧ ssi'.type = ssi.type ∧ SameNoncopy ssi ssi' ∧
    (ssi.type = .runNormal →
      ssi'.pages = ssi.pages.tail ∧ ssi'.nowSteNum = ssi.nowSteNum + 1) ∧
    (ssi.type = .runLog → ssi'.tree = ssi.tree.dropWhile fun x => x.1 ≤ endLba)
  := by
  simp only [SpSetIter.moveSte, bind_eq_ok, require_eq_ok] at h
  obtain ⟨_, hflag, h⟩ := h
  cases ht : ssi.type with
  | runNormal =>
      rw [ht] at h
      cases h
      refine ⟨hflag, rfl, ⟨rfl, rfl⟩, fun _ => ⟨rfl, rfl⟩, ?_⟩
      intro h
      cases h
  | runLog =>
      rw [ht] at h
      obtain ⟨htree, htype, hnc⟩ := dropTree_ok _ h
      refine ⟨hflag, htype.trans ht, hnc, ?_, fun _ => htree⟩
      intro h
      cases h

/-- `sp_set_iter_move_ste` of a source that is at the end of its block. -/
theorem moveSte_ok {e : Entry} {l : List Entry} {steNum : ℕ} {ssi : SpSetIter}
    (h : mm.Reads g) (hl : mm.left g = e :: l)
    (hasc : (e :: l).Pairwise fun a b => a.lba < b.lba)
    (hend : mm.r.type = .runNormal → ∀ ste, mm.r.stBody.stes[mm.ssi.nowSteNum]? = some ste →
      ste.endLba = e.lba)
    (hok : mm.ssi.moveSte steNum e.lba = .ok ssi) :
  Reads g { mm with ssi := ssi } ∧ left g { mm with ssi := ssi } = l ∧
    SameNoncopy mm.ssi ssi ∧ steNum ∈ mm.ssi.noncopyFlag ∧ (ssi.doneCheck = true → l = [])
  := by
  obtain ⟨hflag, htype, hnc, hnormal, hlog⟩ := moveSte_cases hok
  rcases h with h | h
  · obtain ⟨hpages, hnow⟩ := hnormal h.type
    cases hp : mm.ssi.pages with
    | nil => simp [left, h.type, hp] at hl
    | cons page after =>
        rw [hp, List.tail_cons] at hpages
        obtain ⟨ste, pre, hste, hpage, hne, -, hleft⟩ := h.left_cons hp
        cases page with
        | nil => exact absurd rfl hne
        | cons p ps =>
            have hmeta := (h.stes ste (List.mem_of_getElem? hste)).1
            rw [hleft, pageEntries, List.map_cons, List.cons_append, List.cons.injEq] at hl
            have hps : ps = [] := by
              cases ps with
              | nil => rfl
              | cons p' ps =>
                  exfalso
                  have hlt : e.lba < p'.lba := by
                    apply (List.pairwise_cons.mp hasc).1 ⟨p'.lba, p'.piecePpa, ste.orig⟩
                    rw [← hl.2]
                    simp
                  have hle : p'.lba ≤ ste.endLba := by
                    apply hmeta.le_end
                    rw [hpage]
                    simp
                  rw [hend h.run ste hste] at hle
                  omega
            rw [hps] at hl
            obtain ⟨hreads, hleft'⟩ : ReadsNormal g ({ mm with ssi := ssi } : Mm δ) ∧ _ :=
              h.next hp rfl (htype.trans h.type) hpages hnow
            use .inl hreads, hleft'.trans hl.2, hnc, hflag
            intro hdone
            simp only [SpSetIter.doneCheck, htype.trans h.type, hpages,
              List.isEmpty_iff] at hdone
            rw [← hl.2, hdone]
            simp
  · have htree := hlog h.type
    cases ht : mm.ssi.tree with
    | nil => simp [left, h.type, ht] at hl
    | cons x t =>
        simp only [left, h.type, ht, List.map_cons, List.cons.injEq] at hl
        have hx : x.1 = e.lba := by rw [← hl.1]
        have hdrop : ssi.tree = t := by
          rw [htree, ht, List.dropWhile_cons_of_pos (by simp [hx])]
          cases t with
          | nil => rfl
          | cons y t =>
              apply List.dropWhile_cons_of_neg
              have hlt := (List.pairwise_cons.mp hasc).1
              rw [← hl.2, List.map_cons] at hlt
              have := hlt _ (List.mem_cons_self ..)
              simpa using this
        obtain ⟨pre, hpre⟩ := h.tree
        refine ⟨.inr ⟨h.run, htype.trans h.type, pre ++ [x], ?_⟩, ?_, hnc, hflag, ?_⟩
        · change mm.r.runLogMf = _ ++ ssi.tree
          rw [hdrop, hpre, ht]
          simp
        · rw [left]
          simp only [htype.trans h.type, hdrop]
          apply hl.2
        · intro hdone
          simp only [SpSetIter.doneCheck, htype.trans h.type, hdrop, List.isEmpty_iff] at hdone
          rw [← hl.2, hdone]
          rfl

/-! ### The entry that a moved block leaves behind -/

/-- A property of entries that does not look at what `trivial_move` changes. -/
theorem map_modify_leftSte {α : Type} (f : Ste → α)
    (hf : ∀ ste, f (MergeState.leftSte ste) = f ste) (stes : List Ste) (i : ℕ) :
  (stes.modify i MergeState.leftSte).map f = stes.map f
  := by
  apply List.ext_getElem?
  intro k
  rw [List.getElem?_map, List.getElem?_map, List.getElem?_modify]
  cases stes[k]? with
  | none => rfl
  | some ste =>
      by_cases hik : i = k
      · simp [hik, hf]
      · simp [hik]

/-- The run after its entry `i` has been moved. -/
def leftRun (r : Run δ) (i : ℕ) : Run δ :=
  { r with stBody := r.stBody.modifySte i MergeState.leftSte }

theorem mem_leftRun {r : Run δ} {i : ℕ} {ste : Ste} (h : ste ∈ (leftRun r i).stBody.stes) :
  ∃ ste₀ ∈ r.stBody.stes, ste = ste₀ ∨ ste = MergeState.leftSte ste₀
  := by
  obtain ⟨k, hk⟩ := List.mem_iff_getElem?.mp h
  rw [leftRun, StArray.modifySte, List.getElem?_modify] at hk
  cases hs : r.stBody.stes[k]? with
  | none => simp [hs] at hk
  | some ste₀ =>
      use ste₀, List.mem_of_getElem? hs
      rw [hs] at hk
      by_cases hik : i = k
      · right
        simpa [hik] using hk.symm
      · left
        simpa [hik] using hk.symm

theorem leftSte_meta {ste : Ste} (h : ste.Meta g) :
  (MergeState.leftSte ste).Meta g
  := ⟨h.start_le, h.start_mem, h.start_top, h.le_end, h.end_mem, h.end_bot, h.piece, h.dvd,
    h.sorted, h.length_le⟩

theorem leftRun_steAt (r : Run δ) (i k : ℕ) {α : Type} (f : Ste → α)
    (hf : ∀ ste, f (MergeState.leftSte ste) = f ste) :
  f ((leftRun r i).stBody.steAt k) = f (r.stBody.steAt k)
  := by
  rw [StArray.steAt, StArray.steAt, leftRun, StArray.modifySte, List.getElem?_modify]
  cases r.stBody.stes[k]? with
  | none => rfl
  | some ste =>
      by_cases hik : i = k
      · simp [hik, hf]
      · simp [hik]

theorem leftRun_convert (r : Run δ) (i k : ℕ) :
  (leftRun r i).stBody.convertGlobalOffsetToPsa g k = r.stBody.convertGlobalOffsetToPsa g k
  := by
  have hpba := leftRun_steAt r i (k / g.maxSectorInBlock) (·.pba) (fun _ => rfl)
  simp only [StArray.convertGlobalOffsetToPsa, hpba]

theorem leftRun_pairs (r : Run δ) (i : ℕ) :
  (leftRun r i).pairs = r.pairs
  := by
  simp only [Run.pairs, leftRun, StArray.modifySte, List.flatMap_append]
  congr 1
  change ((r.stBody.stes.modify i MergeState.leftSte).map (·.page)).flatten
    = (r.stBody.stes.map (·.page)).flatten
  rw [map_modify_leftSte]
  intro ste
  rfl

theorem leftRun_logDone {r : Run δ} (h : r.LogDone g) (i : ℕ) :
  (leftRun r i).LogDone g
  := by
  have hfill := h.filling
  refine ⟨h.type, ⟨hfill.inblock, hfill.le, hfill.alert, hfill.writing, hfill.cur, hfill.own⟩,
    ?_, h.nil, ?_, h.asc, ?_⟩
  · intro ste hste
    obtain ⟨ste₀, hmem, rfl | rfl⟩ := mem_leftRun hste
    · apply h.stes _ hmem
    · obtain ⟨hm, hne, hflag⟩ := h.stes ste₀ hmem
      use leftSte_meta hm, hne, hflag
  · intro k p hp
    rw [leftRun_pairs] at hp
    obtain ⟨ste, hste, hpage⟩ := h.paged k p hp
    have hmap : (((leftRun r i).stBody.stes ++ [(leftRun r i).stBody.cur]).map
        (·.page))[k / g.maxSectorInBlock]? = some ste.page := by
      rw [List.map_append, leftRun, StArray.modifySte,
        map_modify_leftSte (·.page) (fun _ => rfl), ← List.map_append, List.getElem?_map, hste]
      rfl
    rw [List.getElem?_map] at hmap
    obtain ⟨ste', hste', heq⟩ := Option.map_eq_some_iff.mp hmap
    use ste', hste', heq ▸ hpage
  · intro x
    rw [leftRun_pairs]
    apply h.last

/-- A source is read as before after one of its blocks has been moved. -/
theorem leftRun_reads (h : mm.Reads g) (i : ℕ) :
  Reads g { mm with r := leftRun mm.r i } ∧
    left g { mm with r := leftRun mm.r i } = mm.left g
  := by
  constructor
  · rcases h with h | h
    · left
      refine ⟨h.run, h.type, ?_, ?_⟩
      · intro ste hste
        obtain ⟨ste₀, hmem, rfl | rfl⟩ := mem_leftRun hste
        · apply h.stes _ hmem
        · obtain ⟨hm, hne⟩ := h.stes ste₀ hmem
          use leftSte_meta hm, hne
      · have hpages := h.pages
        rw [← map_modify_leftSte (·.page) (fun _ => rfl) mm.r.stBody.stes i] at hpages
        apply hpages
    · right
      exact ⟨leftRun_logDone h.run i, h.type, h.tree⟩
  · rw [left, left]
    simp only [leftRun_convert]
    rw [leftRun, StArray.modifySte, map_modify_leftSte]
    intro ste
    rfl

end Mm

end AppL
