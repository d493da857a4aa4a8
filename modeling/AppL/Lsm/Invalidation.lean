import AppL.Lsm.Liveness

/-!
# No invalidation fails

A piece is invalidated when its lba is written again in the memtable, when an entry is dropped
or copied by a merge, and when the summary pages of a run are freed.  Wherever the code insists
on it, the piece is valid: the places of a log, the entries of a merge, and the summary pages of
a run that waits are all held.
-/

namespace AppL

open Transition

variable {δ : Type} {g : Geometry}

/-- The failure is not one of an invalidation. -/
def Abort.NotBit (e : Abort) : Prop := e.ofBit = false

/-- The computation does not fail in an invalidation. -/
def NoBitError {α : Type} (x : Except Abort α) : Prop := Meets Abort.NotBit (fun _ => True) x

theorem Abort.notBit {e : Abort} (h : e.ofWrite = false) :
  e.NotBit
  := by
  unfold Abort.ofWrite at h
  split at h
  · cases h
  · apply h

theorem notBit_of (e : Abort) (_ : e.ofLoop = false) (h : e.ofWrite = false) :
  e.NotBit
  := Abort.notBit h

/-- A piece that is held is invalidated without failure. -/
theorem Dev.Holds.invalidatePiecePpa_meets {dev : Dev δ} {e : Abort} {q : ℕ} {held : List ℕ}
    {force : Bool} {E : Abort → Prop} (h : dev.Holds (q :: held)) :
  Meets E (fun dev' => dev'.Holds held) (dev.invalidatePiecePpa g e q force)
  := by
  have hset : dev.bit q = true := (h.mem q).mpr List.mem_cons_self
  obtain ⟨dev', hdev⟩ : ∃ dev', dev.invalidatePiecePpa g e q force = .ok dev' := by
    refine ⟨_, if_neg ?_⟩
    rintro ⟨hclear, -⟩
    rw [show (dev.bm.bitUnset g q).1 = dev.bit q from rfl, hset] at hclear
    cases hclear
  apply (meets_of_eq hdev).mono
  rintro _ rfl
  apply h.invalidates (Dev.invalidatePiecePpa_ok hdev).1

namespace Run

variable {r r' : Run δ} {dev dev' : Dev δ} {held : List ℕ}

/-- The summary pages that a run still has are freed. -/
theorem free_meets {sc : ShortcutMaster} (h : dev.Holds (r.ownSums ++ held)) :
  NoBitError (r.free g sc dev)
  := by
  apply Meets.bind (Q := fun _ => True)
  · apply (meets_foldlM_rest (fun (l : List Ste) (dev : Dev δ) =>
      dev.Holds (l.map (·.piecePpa) ++ held)) _ h).mono
    · intro _ _
      trivial
    · intro ste l dev hdev
      apply hdev.invalidatePiecePpa_meets
  · intro _ _
    trivial

/-! ### Writing to a log -/

/-- The place that an lba had in the tree is valid when it is written again. -/
theorem Log.writePiece_meets {lba : ℕ} (hr : r.Log g) (hh : dev.Holds (r.treePsas g ++ held)) :
  Meets Abort.NotBit (fun x => r.SameTable x.2.1) (r.writePiece g dev lba)
  := by
  unfold Run.writePiece
  apply ((writeTranslation_meets notBit_of).with_ok fun _ h => h).bind
  rintro ⟨psa, r₁, dev₀⟩ ⟨htable, htr⟩
  obtain ⟨pba, -, hsame, -, rfl, rfl, hpba⟩ := writeTranslation_ok hr.filling htr
  apply ((validatePiecePpa_meets (notBit_of .doubleInsert rfl rfl)).with_ok fun _ h => h).bind
  rintro dev₁ ⟨-, hval⟩
  obtain ⟨-, hh₁⟩ := hh.validates (hsame.validates (Dev.validatePiecePpa_ok hval))
  apply Meets.bind (Q := fun _ => True)
  · unfold logInsert
    split
    · trivial
    · apply (meets_require (notBit_of .overRange rfl rfl)).bind
      intro _ _
      dsimp only
      split
      · trivial
      · rename_i old hold
        have hlook : r.runLogMf.lookup lba = some old := by
          rw [← hold]
          apply (TreeMap.insert_fst hr.asc).symm
        have hmem := (TreeMap.lookup_eq_some hr.asc).mp hlook
        obtain ⟨p, hp, -⟩ := hr.pair_of_mem hmem
        have hheld : (r.setPba pba).stBody.convertGlobalOffsetToPsa g old ∈
            (pba * l2pgap + r.stBody.cur.page.length) :: (r.treePsas g ++ held) := by
          rw [hr.convert_setPba hpba hp, ← hr.convert hp, treePsas_eq]
          simp only [List.mem_cons, List.mem_append, List.mem_map]
          right
          left
          exact ⟨_, hmem, rfl⟩
        apply ((hh₁.perm (List.perm_cons_erase hheld)).invalidatePiecePpa_meets).bind
        intro _ _
        trivial
  · intro _ _
    apply (insertPair_meets notBit_of fun _ => rfl).bind
    rintro sa ⟨hstes, hmax⟩
    apply htable.trans
    exact ⟨⟨rfl, hmax⟩, hstes⟩

theorem Log.writePieces_meets {lbas : List ℕ} (hlbas : ∀ lba ∈ lbas, lba ≤ uint32Max) :
  ∀ {r : Run δ} {dev : Dev δ}, r.Log g → dev.Holds (r.treePsas g ++ held) →
    Meets Abort.NotBit (fun x => r.SameTable x.2.1) (Run.writePieces g lbas r dev)
  := by
  induction lbas with
  | nil =>
      intro r dev _ _
      apply SameTable.refl r
  | cons lba lbas ih =>
      intro r dev hr hh
      apply ((hr.writePiece_meets hh).with_ok fun _ h => h).bind
      rintro ⟨psa, r₁, dev₁⟩ ⟨htable, hok⟩
      obtain ⟨pba, hr₁, -, -, -, hh₁, -⟩ := writePiece_log hr (hlbas lba (by simp)) hh hok
      apply (ih (fun l hl => hlbas l (by simp [hl])) hr₁ hh₁).bind
      intro x hx
      apply htable.trans hx

/-- `run_insert` of a log. -/
theorem LogOpen.insert_meets {items : List (ℕ × δ)} {sc : ShortcutMaster} {lba : ℕ} {d : δ}
    (hr : r.LogOpen g held dev items) (hlba : lba ≤ uint32Max) :
  NoBitError (r.insert g sc dev lba d)
  := by
  have hh := hr.logs.holds
  rw [List.append_assoc] at hh
  have hlbas : ∀ l ∈ (r.ppInsert lba d).items.map (·.1), l ≤ uint32Max := by
    rw [ppInsert_items]
    intro l hl
    obtain ⟨x, hx, rfl⟩ := List.mem_map.mp hl
    rcases List.mem_append.mp hx with hx | hx
    · apply hr.lba_le x hx
    · rw [List.mem_singleton.mp hx]
      apply hlba
  apply (Run.insert_meets notBit_of (hr.log.writePieces_meets hlbas hh)).mono fun _ _ => trivial

/-- `run_insert_done` of a log. -/
theorem LogOpen.insertDone_meets {items : List (ℕ × δ)} (hr : r.LogOpen g held dev items) :
  NoBitError (r.insertDone g dev)
  := by
  have hh := hr.logs.holds
  rw [List.append_assoc] at hh
  have hlbas : ∀ l ∈ r.buffered.map (·.1), l ≤ uint32Max := by
    intro l hl
    obtain ⟨x, hx, rfl⟩ := List.mem_map.mp hl
    apply hr.lba_le x hx
  apply (insertDone_meets_of_writes notBit_of (hr.log.writePieces_meets hlbas hh)).mono
  intro _ _
  trivial

end Run

/-! ### Merging -/

namespace MergeState

variable {range : ℕ} {held : List ℕ} {dev₀ : Dev δ} {st : MergeState δ} {m : Merging δ}
  {blocks : List (RunType × List Ste)}

/-- No iterator does harm, when a division by zero counts as none. -/
theorem allSafe (mms : List (Mm δ)) :
  AllSafe Abort.NotBit mms
  := fun _ _ => .inl (.inl rfl)

/-- The entries that have been taken are valid when they are invalidated in their sources. -/
theorem invalidateTaken_meets {xs : List (SortedPair × ℕ × δ)} (h : Sim g blocks st m)
    (hinv : m.Inv g range held dev₀) (hxs : st.sortedArr.mapM (readSorted g st) = .ok xs) :
  NoBitError (xs.foldlM (invalidateSorted g st) st.dev)
  := by
  have hread := readAll_ok h.sorted hxs
  have hh : st.dev.Holds (m.sorted.map (·.2.psa) ++
      (m.res.psas ++ m.res.sums ++ Merging.left m.srcs ++ (m.sums ++ held))) := by
    rw [← h.dev]
    apply hinv.holds.perm
    rw [Merging.rest, ← List.append_assoc]
    apply List.perm_append_comm_assoc _ _ _
  generalize st.dev = dev at hh
  generalize m.sorted = ys at hread hh
  clear hxs
  induction hread generalizing dev with
  | nil => trivial
  | @cons x y xs ys hx _ ih =>
      rw [List.foldlM_cons]
      refine Meets.bind (Q := fun dev' : Dev δ => dev'.Holds (ys.map (·.2.psa) ++ _)) ?_
        fun dev' hdev' => ih dev' hdev'
      obtain ⟨-, mm, hget, -, -, horig⟩ := hx.pending
      unfold invalidateSorted
      apply (meets_of_eq (orThrow_eq_ok.mpr hget)).bind
      rintro _ rfl
      unfold Mm.invalidateTarget
      rw [hx.psa]
      apply (meets_of_eq horig).bind
      rintro _ rfl
      apply hh.invalidatePiecePpa_meets

theorem round_succeeds {targetRound : ℕ} {force : Bool} (hrange : range ≤ uint32Max)
    (h : Sim g blocks st m) (hinv : m.Inv g range held dev₀) :
  NoBitError (st.round g targetRound force)
  := by
  have hE : ∀ e : Abort, e ≠ .divByZero → e.ofWrite = false → e.NotBit := fun _ _ => Abort.notBit
  unfold round
  apply ((sortingMmSet_meets hE _ (allSafe _)).with_ok fun _ =>
    sortingMmSet_ok (fun _ _ => False) _ h).bind
  rintro ⟨target, st₁⟩ ⟨⟨-, hmove, -⟩, m₁, hsteps₁, hsim₁, -⟩
  have hinv₁ := hsteps₁.inv hrange hinv
  have hopen : ∀ {st' : MergeState δ} {m' : Merging δ}, Sim g blocks st' m' →
      m'.Inv g range held dev₀ → st'.res.type = .runLog → Abort.doubleDelete.NotBit := by
    intro st' m' hsim' hinv' htype
    rw [← hsim'.res, hinv'.opened.type] at htype
    cases htype
  apply ((flushSorted_meets notBit_of (fun xs hxs => invalidateTaken_meets hsim₁ hinv₁ hxs)
    fun xs dev _ => insertSorted_meets notBit_of (hopen hsim₁ hinv₁) rfl xs dev).with_ok
    fun _ => flushSorted_ok (fun _ _ => False) hsim₁).bind
  rintro st₂ ⟨⟨hmms, -⟩, m₂, hsteps₂, hsim₂, -⟩
  cases target with
  | none => trivial
  | some ridx =>
      have hmove₂ : CanMove Abort.NotBit (some ridx) st₂.mms :=
        fun _ _ _ _ => .inl rfl
      apply (trivialMove_meets hE (allSafe _) hmove₂ (Run.paddingCurrentBlock_meets notBit_of
        (Run.writePieces_meets notBit_of _ (hopen hsim₂ (hsteps₂.inv hrange hinv₁)) fun _ _ => rfl)
        fun _ => rfl)).mono
      intro _ _
      trivial

theorem rounds_succeeds {step : ℕ} {force : Bool} (hrange : range ≤ uint32Max)
    (hnodup : ∀ i j ste, Movable blocks i j ste → ste.lbas.Nodup) (fuel : ℕ) :
  ∀ {targetRound : ℕ} {st : MergeState δ} {m : Merging δ}, Sim g blocks st m →
    m.Inv g range held dev₀ → NoBitError (rounds g step force fuel targetRound st)
  := by
  induction fuel with
  | zero =>
      intro targetRound st m _ _
      rfl
  | succ fuel ih =>
      intro targetRound st m h hinv
      unfold rounds
      apply ((round_succeeds hrange h hinv).with_ok fun _ => round_steps h hnodup).bind
      rintro st₁ ⟨-, m₁, hsteps, hsim₁, -⟩
      split
      · trivial
      · apply ih hsim₁ (hsteps.inv hrange hinv)

end MergeState

/-- `run_merge` invalidates valid pieces only. -/
theorem Mergeable.runMerge_meets {range : ℕ} {held : List ℕ} {rset : List (Run δ)}
    {idx n : ℕ} {sc : ShortcutMaster} {dev : Dev δ} {mapType : MapType} {force : Bool}
    (h : Mergeable g range held rset idx sc dev) (hrange : range ≤ uint32Max) :
  NoBitError (AppL.runMerge g rset (Run.factory g mapType n .runNormal idx) force sc dev)
  := by
  unfold AppL.runMerge
  have hstart : NoBitError (MergeState.start rset (Run.factory g mapType n .runNormal idx) force
      sc dev) := MergeState.start_meets_of rfl
  apply (hstart.with_ok fun _ h => h).bind
  rintro st₀ ⟨-, hok₀⟩
  obtain ⟨hsim, -⟩ := MergeState.start_ordered h.inputs h.none hok₀
  rw [start_eq h.inputs hok₀] at hsim
  have hinv := @Mergeable.beginning_inv _ _ _ _ _ _ _ _ mapType n h
  apply ((MergeState.rounds_succeeds hrange (fun _ _ _ => h.once.movable) _ hsim hinv).with_ok
    fun _ => MergeState.rounds_steps (fun _ _ _ => h.once.movable) _ hsim).bind
  rintro st₁ ⟨-, m, hsteps, hsim₁, -⟩
  have htype := (hsteps.inv hrange hinv).opened.type
  rw [hsim₁.res] at htype
  apply (Run.insertDone_meets_of_writes notBit_of
    (Run.writePieces_meets notBit_of _ (fun hlog => absurd (htype.symm.trans hlog) nofun)
      fun _ _ => rfl)).bind
  intro _ _
  trivial

/-! ### The steps of the tree -/

namespace Lsmtree

variable {lsm lsm' : Lsmtree δ} {p : Param} {waiting : List (Run δ)}

theorem Kept.freeRun_meets {r : Run δ} (h : lsm.Kept g p (r :: waiting)) :
  NoBitError (lsm.freeRun g r)
  := by
  have hh := h.books.holds
  rw [List.cons_append, List.flatMap_cons] at hh
  apply (Run.free_meets (hh.perm (List.perm_append_comm_assoc _ _ _))).bind
  intro _ _
  trivial

theorem Kept.freeRuns_meets {rs : List (Run δ)} :
  ∀ {lsm : Lsmtree δ}, lsm.Kept g p (rs ++ waiting) →
    NoBitError (rs.foldlM (Lsmtree.freeRun g) lsm)
  := by
  induction rs with
  | nil =>
      intro lsm _
      trivial
  | cons r rs ih =>
      intro lsm h
      rw [List.foldlM_cons]
      apply ((Kept.freeRun_meets h).with_ok fun _ hok => Kept.freeRun h hok).bind
      rintro lsm₁ ⟨-, h₁⟩
      apply ih h₁

/-! The failures of a step that are none of writing do not depend on the runs. -/

section Errors

variable {E : Abort → Prop} {Q : Lsmtree δ → Prop}

theorem addRun_meets (hE : ∀ e : Abort, e.ofLoop = false → e.ofWrite = false → E e)
    {sc : ShortcutMaster} {level : ℕ} :
  Meets E (fun x => sc.addRun level = .ok x) (sc.addRun level)
  := by
  have hfail : Meets E (fun _ => True) (sc.addRun level) := by
    unfold ShortcutMaster.addRun
    split
    · apply hE _ rfl rfl
    · split
      · apply hE _ rfl rfl
      · trivial
  apply (hfail.with_ok fun _ h => h).mono fun _ h => h.2

theorem populateNormal_meets (hE : ∀ e : Abort, e.ofLoop = false → e.ofWrite = false → E e)
    {sc : ShortcutMaster} {mapType : MapType} {n level : ℕ} :
  Meets E (fun x : Run δ × ShortcutMaster => ∃ idx, sc.addRun level = .ok (idx, x.2) ∧
    x.1 = Run.factory g (normalMapType p mapType) n .runNormal idx)
    (populateNormal g p sc mapType n level)
  := by
  apply (addRun_meets hE).bind
  rintro ⟨idx, sc'⟩ hadd
  exact ⟨idx, hadd, rfl⟩

theorem insertRun_meets (hE : ∀ e : Abort, e.ofLoop = false → e.ofWrite = false → E e)
    {lev : Level δ} {r : Run δ} :
  Meets E (fun lev' => lev.insertRun r = .ok lev') (lev.insertRun r)
  := by
  have hfail : Meets E (fun _ => True) (lev.insertRun r) := by
    apply (meets_require (hE .levelFull rfl rfl)).bind
    intro _ _
    trivial
  apply (hfail.with_ok fun _ h => h).mono fun _ h => h.2

theorem compactionTarget_meets (hE : ∀ e : Abort, e.ofLoop = false → e.ofWrite = false → E e)
    {rs : List (Run δ)} {last : Bool} {first second : ℕ} :
  Meets E (fun x => compactionTarget rs last first second = .ok x)
    (compactionTarget rs last first second)
  := by
  have hfail : Meets E (fun _ => True) (compactionTarget rs last first second) := by
    unfold compactionTarget
    split
    · trivial
    · split
      · split
        · trivial
        · apply hE _ rfl rfl
      · apply hE _ rfl rfl
  apply (hfail.with_ok fun _ h => h).mono fun _ h => h.2

theorem rebuild_meets (hE : ∀ e : Abort, e.ofLoop = false → e.ofWrite = false → E e) {pos : ℕ}
    (hmerge : ∀ (lev : Level δ) (src : Run δ) (idx level : ℕ) (sc : ShortcutMaster),
      lsm.disk[lsm.param.totalLevelNum - 1]? = some lev → lev.runs[pos]? = some src →
      lsm.sc.addRun level = .ok (idx, sc) →
      Meets E (fun st => ∀ lev',
          Level.insertRun { lev with runs := lev.runs.eraseIdx pos } st.res = .ok lev' →
          Meets E Q ((st.mms.map (·.r)).foldlM (Lsmtree.freeRun g) { lsm with
            sc := st.sc
            dev := st.dev
            disk := lsm.disk.set (lsm.param.totalLevelNum - 1) lev' }))
        (runMerge g [src] (Run.factory g (normalMapType lsm.param lev.mapType) src.nowEntryNum
          .runNormal idx) true sc lsm.dev)) :
  Meets E Q (lsm.rebuild g pos)
  := by
  unfold Lsmtree.rebuild
  apply (meets_orThrow fun _ => hE .outOfBounds rfl rfl).bind
  intro lev hlev
  apply (meets_orThrow fun _ => hE .outOfBounds rfl rfl).bind
  intro src hsrc
  apply (populateNormal_meets hE).bind
  rintro ⟨target, sc⟩ ⟨idx, hadd, rfl⟩
  apply (hmerge lev src idx _ sc hlev hsrc hadd).bind
  intro st hst
  apply (insertRun_meets hE).bind
  intro lev' hins
  apply hst lev' hins

theorem compactLevel_meets (hE : ∀ e : Abort, e.ofLoop = false → e.ofWrite = false → E e)
    {diskIdx first second : ℕ} {lev : Level δ}
    (hmerge : ∀ (last : Bool) (desLev : Level δ) (srcs rest : List (Run δ)) (idx level : ℕ)
      (sc : ShortcutMaster), last = (diskIdx == lsm.param.totalLevelNum - 1) →
      lsm.disk[if last then diskIdx else diskIdx + 1]? = some desLev →
      compactionTarget lev.runs last first second = .ok (srcs, rest) →
      lsm.sc.addRun level = .ok (idx, sc) →
      Meets E (fun st => ∀ desLev', Level.insertRun (if last then
            { lev with runs := if srcs.length = rest.length then [] else rest } else desLev) st.res
            = .ok desLev' →
          Meets E Q ((st.mms.map (·.r)).foldlM (Lsmtree.freeRun g) { lsm with
            sc := st.sc
            dev := st.dev
            lost := (if srcs.length = rest.length then rest else []) ++ lsm.lost
            disk := (lsm.disk.set diskIdx
              { lev with runs := if srcs.length = rest.length then [] else rest }).set
              (if last then diskIdx else diskIdx + 1) desLev'
            phase := if last then .forcing else .compacting (diskIdx + 1) }))
        (runMerge g srcs (Run.factory g (normalMapType lsm.param desLev.mapType)
          (srcs.map (·.nowEntryNum)).sum .runNormal idx) false sc lsm.dev)) :
  Meets E Q (lsm.compactLevel g diskIdx first second lev)
  := by
  unfold Lsmtree.compactLevel
  apply (meets_orThrow fun _ => hE .outOfBounds rfl rfl).bind
  intro desLev hdes
  apply (compactionTarget_meets hE).bind
  rintro ⟨srcs, rest⟩ htarget
  apply (populateNormal_meets hE).bind
  rintro ⟨target, sc⟩ ⟨idx, hadd, rfl⟩
  apply (hmerge _ desLev srcs rest idx _ sc rfl hdes htarget hadd).bind
  intro st hst
  apply (insertRun_meets hE).bind
  intro desLev' hins
  apply hst desLev' hins

theorem compact_meets (hE : ∀ e : Abort, e.ofLoop = false → e.ofWrite = false → E e)
    {first second : ℕ}
    (hlevel : ∀ diskIdx lev, lsm.phase = .compacting diskIdx → lsm.disk[diskIdx]? = some lev →
      lev.isFull = true → Meets E Q (lsm.compactLevel g diskIdx first second lev))
    (hforce : lsm.phase ≠ .idle → Q { lsm with phase := .forcing }) :
  Meets E Q (lsm.compact g first second)
  := by
  unfold Lsmtree.compact
  split
  · rename_i diskIdx hphase
    apply (meets_orThrow fun _ => hE .outOfBounds rfl rfl).bind
    intro lev hlev
    split
    · rename_i hfull
      apply hlevel diskIdx lev hphase hlev hfull
    · apply hforce
      rw [hphase]
      intro hidle
      cases hidle
  · apply hE _ rfl rfl

theorem flush_meets (hE : ∀ e : Abort, e.ofLoop = false → e.ofWrite = false → E e)
    (hdone : lsm.phase = .idle → Meets E (fun _ => True) (lsm.memtable.insertDone g lsm.dev))
    (hmerge : ∀ (lev : Level δ) (r : Run δ) (dev : Dev δ) (idx : ℕ) (sc : ShortcutMaster),
      lsm.phase = .idle → lsm.disk[0]? = some lev →
      lsm.memtable.insertDone g lsm.dev = .ok (r, dev) → lsm.sc.addRun 1 = .ok (idx, sc) →
      Meets E (fun st => ∀ lev', lev.insertRun st.res = .ok lev' → Q { lsm with
          memtable := (st.mms.map (·.r)).headD r
          sc := st.sc
          dev := st.dev
          disk := lsm.disk.set 0 lev'
          phase := .compacting 0 })
        (runMerge g [r] (Run.factory g (normalMapType lsm.param lev.mapType) r.nowEntryNum
          .runNormal idx) false sc dev)) :
  Meets E Q (lsm.flush g)
  := by
  unfold Lsmtree.flush
  apply (meets_require (hE .wrongPhase rfl rfl)).bind
  rintro _ ⟨hidle, -⟩
  apply (meets_orThrow fun _ => hE .outOfBounds rfl rfl).bind
  intro lev hlev
  apply ((hdone hidle).with_ok fun _ h => h).bind
  rintro ⟨r, dev⟩ ⟨-, hok⟩
  apply (populateNormal_meets hE).bind
  rintro ⟨target, sc⟩ ⟨idx, hadd, rfl⟩
  apply (hmerge lev r dev idx sc hidle hlev hok hadd).bind
  intro st hst
  apply (insertRun_meets hE).bind
  intro lev' hins
  apply hst lev' hins

end Errors

theorem Kept.rebuild_meets {pos : ℕ} (h : lsm.Kept g p []) (hrange : p.range ≤ uint32Max) :
  NoBitError (lsm.rebuild g pos)
  := by
  apply Lsmtree.rebuild_meets notBit_of
  intro lev src idx level sc hlev hsrc hadd
  obtain ⟨rest, hruns, -⟩ := runs_perm hlev hsrc
  apply (((h.mergeable hruns hadd).runMerge_meets hrange).with_ok fun _ h => h).mono
  rintro st ⟨-, hmerge⟩ lev' hins
  apply Kept.freeRuns_meets (h.rebuilt hrange hlev hsrc hadd hmerge hins)

/-- The runs that a compaction merges are runs of the tree. -/
theorem sources_perm {diskIdx first second : ℕ} {last : Bool} {lev : Level δ}
    {srcs rest : List (Run δ)} (hlev : lsm.disk[diskIdx]? = some lev)
    (htarget : compactionTarget lev.runs last first second = .ok (srcs, rest)) :
  ∃ others, lsm.runs.Perm (srcs ++ others)
  := by
  obtain ⟨levels, hperm, -⟩ := flatMap_set Level.runs hlev
  have hsplit := (hperm.trans ((compactionTarget_ok htarget).append_right _)).append_right lsm.lost
  rw [List.append_assoc, List.append_assoc] at hsplit
  use rest ++ (levels ++ lsm.lost), hsplit

theorem Kept.compactLevel_meets {diskIdx first second : ℕ} {lev : Level δ}
    (h : lsm.Kept g p []) (hrange : p.range ≤ uint32Max) (hphase : lsm.phase ≠ .idle)
    (hlev : lsm.disk[diskIdx]? = some lev) :
  NoBitError (lsm.compactLevel g diskIdx first second lev)
  := by
  apply Lsmtree.compactLevel_meets notBit_of
  intro last desLev srcs rest idx level sc hlast hdes htarget hadd
  obtain ⟨others, hruns⟩ := sources_perm hlev htarget
  apply (((h.mergeable hruns hadd).runMerge_meets hrange).with_ok fun _ h => h).mono
  rintro st ⟨-, hmerge⟩ desLev' hins
  apply Kept.freeRuns_meets (h.compacted hrange hphase (phase_ne_idle _ _) hlev hdes htarget hadd
    hmerge (stay_perm _ _) hins)

theorem Kept.compact_meets {first second : ℕ} (h : lsm.Kept g p [])
    (hrange : p.range ≤ uint32Max) :
  NoBitError (lsm.compact g first second)
  := by
  apply Lsmtree.compact_meets notBit_of
  · intro diskIdx lev hphase hlev _
    apply h.compactLevel_meets hrange _ hlev
    rw [hphase]
    exact nofun
  · intro _
    trivial

theorem Kept.write_meets {lba : ℕ} {d : δ} (h : lsm.Kept g p [])
    (hrange : p.range ≤ uint32Max) :
  NoBitError (lsm.write g lba d)
  := by
  unfold Lsmtree.write
  apply (meets_require (show Abort.wrongPhase.NotBit from rfl)).bind
  rintro _ ⟨hidle, -⟩
  apply (meets_require (show Abort.outOfBounds.NotBit from rfl)).bind
  intro _ hlba
  rw [h.param] at hlba
  obtain ⟨-, items, hlog⟩ := h.log hidle
  apply (hlog.insert_meets (Nat.le_trans (Nat.le_of_lt hlba) hrange)).bind
  intro _ _
  trivial

theorem Kept.flush_meets (h : lsm.Kept g p []) (hrange : p.range ≤ uint32Max)
    (honce : FlushesOnce g lsm .flush) :
  NoBitError (lsm.flush g)
  := by
  apply Lsmtree.flush_meets notBit_of
  · intro hidle
    obtain ⟨-, items, hlog⟩ := h.log hidle
    apply hlog.insertDone_meets
  · intro lev r dev idx sc hidle _ hdone hadd
    apply ((h.insertDone hrange hidle honce hdone hadd).2.runMerge_meets hrange).mono
    intro _ _ _ _
    trivial

theorem Kept.finish_meets (h : lsm.Kept g p []) :
  NoBitError (lsm.finish g)
  := by
  unfold Lsmtree.finish
  apply (meets_require (show Abort.wrongPhase.NotBit from rfl)).bind
  intro _ hphase
  have hbusy : lsm.live = lsm.runs ∧ lsm.merged = [lsm.memtable] :=
    live_busy (by rw [hphase]; exact nofun)
  have hh := h.books.holds
  rw [hbusy.2, List.nil_append, List.flatMap_singleton] at hh
  apply Meets.bind (Q := fun _ => True)
  · apply (Run.free_meets (hh.perm List.perm_append_comm)).bind
    intro _ _
    trivial
  · intro lsm₁ _
    apply Meets.bind (Q := fun _ => True)
    · apply (addRun_meets notBit_of).bind
      intro _ _
      trivial
    · intro _ _
      trivial

/-- No step fails in an invalidation, and every step keeps the books. -/
theorem Kept.step_meets {op : LsmOp δ} (h : lsm.Kept g p []) (hrange : p.range ≤ uint32Max)
    (honce : FlushesOnce g lsm op) :
  Meets Abort.NotBit (fun lsm' => lsm'.Kept g p []) (lsm.step g op)
  := by
  have hno : NoBitError (lsm.step g op) := by
    cases op with
    | write lba d => apply h.write_meets hrange
    | flush => apply h.flush_meets hrange honce
    | compact first second => apply h.compact_meets hrange
    | force pos =>
        apply (meets_require (show Abort.wrongPhase.NotBit from rfl)).bind
        intro _ _
        apply h.rebuild_meets hrange
    | finish => apply h.finish_meets
    | cleanLastLevel pos =>
        apply (meets_require (show Abort.wrongPhase.NotBit from rfl)).bind
        intro _ _
        apply h.rebuild_meets hrange
  apply (hno.with_ok fun _ hok => h.step hrange honce hok).mono fun _ hx => hx.2

/-- In a run in which no block that a flush moves as a whole has an lba twice, no invalidation
that has to succeed fails, however the run ends.  Every validation of a piece has been undone by
one invalidation unless the piece is still valid, and then it is an entry or a summary page of
one run: of a run of the tree, or a summary page of the memtable that has been merged. -/
theorem invalidates_once {p : Param} {blank : δ} {lsm₀ : Lsmtree δ} {ops : List (LsmOp δ)}
    (hrange : p.range ≤ uint32Max) (hinit : init g p blank = .ok lsm₀)
    (honce : Guarded (Lsmtree.step g) (FlushesOnce g) lsm₀ ops) :
  Meets (fun e => e ≠ .bitError ∧ e ≠ .doubleDelete ∧ e ≠ .invalidateMap)
    (fun lsm => lsm.dev.Balanced g ∧ lsm.dev.Holds
      (lsm.live.flatMap (Run.mergePieces g) ++ lsm.merged.flatMap Run.ownSums))
    (Transition.run (Lsmtree.step g) lsm₀ ops)
  := by
  have hkept := meets_run (I := fun lsm : Lsmtree δ => lsm.Kept g p [])
    (fun _ _ h hguard => h.step_meets hrange hguard) (kept_init hinit) honce
  cases hrun : Transition.run (Lsmtree.step g) lsm₀ ops with
  | ok lsm =>
      rw [hrun] at hkept
      exact ⟨hkept.books.balanced, hkept.books.holds⟩
  | error e =>
      rw [hrun] at hkept
      refine ⟨?_, ?_, ?_⟩
      · rintro rfl
        cases hkept
      · rintro rfl
        cases hkept
      · rintro rfl
        cases hkept

theorem invalidates_once_mergeTwo :
  ∃ lsm₀ lsm, init tinyGeometry tinyParam 0 = .ok lsm₀ ∧
    Transition.run (Lsmtree.step tinyGeometry) lsm₀ mergeTwo = .ok lsm ∧
    lsm.live.map (·.nowEntryNum) = [0, 23] ∧
    lsm.dev.Balanced tinyGeometry ∧ lsm.dev.Holds
      (lsm.live.flatMap (Run.mergePieces tinyGeometry) ++ lsm.merged.flatMap Run.ownSums)
  := by
  obtain ⟨lsm₀, lsm, hinit, honce, hrun, -, hlive⟩ := mergeTwo_guarded
  have hrange : tinyParam.range ≤ uint32Max := by decide
  have hmeets := invalidates_once hrange hinit honce
  rw [hrun] at hmeets
  exact ⟨lsm₀, lsm, hinit, hrun, hlive, hmeets⟩

end Lsmtree

end AppL
