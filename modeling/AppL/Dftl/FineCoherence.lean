import AppL.Dftl.FineCache
import AppL.Lib.WriteBack

/-!
# No mapping is lost

For every lba, the address in the cache, and else the one in its translation page, is the one
last assigned to it, as long as no entry is chosen for eviction while a request still holds a
pointer to it.
-/

namespace AppL

open Transition WriteBack

namespace FineCacheMonitor

/-! ### Well-formed caches -/

/-- The tree, the LRU list and the bitmap have the allocated entries. -/
structure Wf (fcm : FineCacheMonitor) : Prop where
  map_iff : ∀ lba addr, fcm.map lba = some addr ↔ ∃ fc, fcm.heap addr = some fc ∧ fc.lba = lba
  lru : ∀ addr ∈ fcm.lru, ∃ fc, fcm.heap addr = some fc
  fresh : ∀ {addr}, fcm.nextAddr ≤ addr → fcm.heap addr = none
  populated : ∀ lba, fcm.populatedCacheEntry lba = (fcm.map lba).isSome

/-- The line of an entry: it is owed to its translation page unless it is clean. -/
def line (fc : FineCache) : Line ℕ := ⟨fc.ppa, decide (fc.flag ≠ .clean)⟩

/-- The lines of a cache. -/
def lines (fcm : FineCacheMonitor) (lba : ℕ) : Option (Line ℕ) :=
  ((fcm.map lba).bind fcm.heap).map line

/-- Errors other than the use of a freed entry. -/
def NotFreed (e : Abort) : Prop := e ≠ .useAfterFree

instance (e : Abort) : Decidable (NotFreed e) := inferInstanceAs (Decidable (e ≠ _))

variable {fcm fcm' : FineCacheMonitor} {addr lba ppa : ℕ} {fc fc' : FineCache}

theorem deref_eq (h : fcm.heap addr = some fc) :
  fcm.deref addr = .ok fc
  := orThrow_eq_ok.mpr h

theorem deref_meets (h : fcm.heap addr = some fc) :
  Meets NotFreed (fun fc' => fc' = fc) (fcm.deref addr)
  := meets_of_eq (deref_eq h)

theorem checkPpa_meets (bitQuery : ℕ → Bool) (ppa : ℕ) :
  Meets NotFreed (fun _ => True) (checkPpa bitQuery ppa)
  := (meets_require (by decide)).mono fun _ _ => trivial

theorem Wf.map_eq (h : fcm.Wf) (hfc : fcm.heap addr = some fc) :
  fcm.map fc.lba = some addr
  := (h.map_iff _ _).mpr ⟨fc, hfc, rfl⟩

theorem Wf.lines_eq (h : fcm.Wf) (hfc : fcm.heap addr = some fc) :
  fcm.lines fc.lba = some (line fc)
  := by
  rw [lines, h.map_eq hfc]
  simp [hfc]

/-- The line of an lba whose entry is the same. -/
theorem lines_congr (hmap : fcm'.map lba = fcm.map lba)
    (hheap : ∀ addr, fcm.map lba = some addr → fcm'.heap addr = fcm.heap addr) :
  fcm'.lines lba = fcm.lines lba
  := by
  rw [lines, lines, hmap]
  cases hm : fcm.map lba with
  | none => rfl
  | some addr => simp [hheap addr hm]

theorem lines_eq_none (h : fcm.map lba = none) :
  fcm.lines lba = none
  := by
  rw [lines, h]
  rfl

/-- A store that keeps the lba of the entry. -/
theorem Wf.store (h : fcm.Wf) (hfc : fcm.heap addr = some fc) (hlba : fc'.lba = fc.lba) :
  (fcm.store addr fc').Wf
  where
    map_iff := by
      intro lba addr'
      rcases eq_or_ne addr' addr with rfl | ha
      · have hmap := h.map_iff lba addr'
        simp only [hfc] at hmap
        simpa [FineCacheMonitor.store, hlba] using hmap
      · simpa [FineCacheMonitor.store, ha] using h.map_iff lba addr'
    lru := by
      intro addr' haddr'
      rcases eq_or_ne addr' addr with rfl | ha
      · use fc', by simp [FineCacheMonitor.store]
      · simpa [FineCacheMonitor.store, ha] using h.lru addr' haddr'
    fresh := by
      intro addr' haddr'
      rcases eq_or_ne addr' addr with rfl | ha
      · rw [h.fresh haddr'] at hfc
        cases hfc
      · simpa [FineCacheMonitor.store, ha] using h.fresh haddr'
    populated := h.populated

theorem Wf.lines_store (h : fcm.Wf) (hfc : fcm.heap addr = some fc) (hlba : fc'.lba = fc.lba) :
  (fcm.store addr fc').lines = Function.update fcm.lines fc.lba (some (line fc'))
  := by
  funext lba
  rcases eq_or_ne lba fc.lba with rfl | hl
  · have hs : (fcm.store addr fc').heap addr = some fc' := by simp [FineCacheMonitor.store]
    rw [Function.update_self, ← hlba, (h.store hfc hlba).lines_eq hs]
  · rw [Function.update_of_ne hl]
    apply lines_congr
    · rfl
    intro addr' haddr'
    apply Function.update_of_ne
    rintro rfl
    obtain ⟨fc'', hfc'', rfl⟩ := (h.map_iff _ _).mp haddr'
    rw [hfc] at hfc''
    cases hfc''
    apply hl rfl

/-- A new pointer is not one of an entry. -/
theorem Wf.addr_ne (h : fcm.Wf) (hfc : fcm.heap addr = some fc) :
  addr ≠ fcm.nextAddr
  := by
  rintro rfl
  rw [h.fresh le_rfl] at hfc
  cases hfc

/-- A new entry. -/
theorem Wf.pushed (h : fcm.Wf) (hmap : fcm.map fc.lba = none) :
  (fcm.pushed fc).Wf
  where
    map_iff := by
      intro lba addr
      rcases eq_or_ne addr fcm.nextAddr with rfl | ha
      · rcases eq_or_ne lba fc.lba with rfl | hl
        · simp [FineCacheMonitor.pushed]
        · have hnone : fcm.map lba ≠ some fcm.nextAddr := by
            intro hm
            obtain ⟨fc', hfc', -⟩ := (h.map_iff _ _).mp hm
            apply h.addr_ne hfc' rfl
          simp [FineCacheMonitor.pushed, hl, hl.symm, hnone]
      · rcases eq_or_ne lba fc.lba with rfl | hl
        · have hno := (h.map_iff fc.lba addr).not.mp (by simp [hmap])
          simpa [FineCacheMonitor.pushed, ha, ha.symm] using hno
        · simpa [FineCacheMonitor.pushed, ha, hl] using h.map_iff lba addr
    lru := by
      intro addr haddr
      rcases List.mem_cons.mp haddr with rfl | haddr
      · use fc, by simp [FineCacheMonitor.pushed]
      · obtain ⟨fc', hfc'⟩ := h.lru addr haddr
        use fc', by simp [FineCacheMonitor.pushed, h.addr_ne hfc', hfc']
    fresh := by
      intro addr haddr
      have ha : addr ≠ fcm.nextAddr := by
        rintro rfl
        apply Nat.not_succ_le_self _ haddr
      simpa [FineCacheMonitor.pushed, ha] using h.fresh (Nat.le_of_succ_le haddr)
    populated := by
      intro lba
      rcases eq_or_ne lba fc.lba with rfl | hl
      · simp [FineCacheMonitor.pushed]
      · simpa [FineCacheMonitor.pushed, hl] using h.populated lba

theorem Wf.lines_pushed (h : fcm.Wf) (hmap : fcm.map fc.lba = none) :
  (fcm.pushed fc).lines = Function.update fcm.lines fc.lba (some (line fc))
  := by
  funext lba
  rcases eq_or_ne lba fc.lba with rfl | hl
  · have hnew : (fcm.pushed fc).heap fcm.nextAddr = some fc := by simp [FineCacheMonitor.pushed]
    rw [Function.update_self, (h.pushed hmap).lines_eq hnew]
  · rw [Function.update_of_ne hl]
    apply lines_congr
    · simp [FineCacheMonitor.pushed, hl]
    · intro addr haddr
      obtain ⟨fc', hfc', -⟩ := (h.map_iff _ _).mp haddr
      simp [FineCacheMonitor.pushed, h.addr_ne hfc']

/-- An entry is freed. -/
theorem Wf.delete (h : fcm.Wf) (hfc : fcm.heap addr = some fc) :
  (fcm.lruDelete addr fc.lba).Wf
  where
    map_iff := by
      intro lba addr'
      rcases eq_or_ne lba fc.lba with rfl | hl
      · have hno : ¬ ∃ fc', (fcm.lruDelete addr fc.lba).heap addr' = some fc' ∧ fc'.lba = fc.lba := by
          rintro ⟨fc', hfc', hlba⟩
          rcases eq_or_ne addr' addr with rfl | ha
          · simp [lruDelete] at hfc'
          · have hfc' : fcm.heap addr' = some fc' := by simpa [lruDelete, ha] using hfc'
            have hm := h.map_eq hfc'
            rw [hlba, h.map_eq hfc] at hm
            cases hm
            apply ha rfl
        simpa [lruDelete] using hno
      · rcases eq_or_ne addr' addr with rfl | ha
        · have hm : fcm.map lba ≠ some addr' := by
            intro hm
            obtain ⟨fc', hfc', rfl⟩ := (h.map_iff _ _).mp hm
            rw [hfc] at hfc'
            cases hfc'
            apply hl rfl
          simp [lruDelete, hl, hm]
        · simpa [lruDelete, hl, ha] using h.map_iff lba addr'
    lru := by
      intro addr' haddr'
      obtain ⟨haddr', ha⟩ := List.mem_filter.mp haddr'
      have ha : addr' ≠ addr := by simpa using ha
      simpa [lruDelete, ha] using h.lru addr' haddr'
    fresh := by
      intro addr' haddr'
      rcases eq_or_ne addr' addr with rfl | ha
      · simp [lruDelete]
      · simpa [lruDelete, ha] using h.fresh haddr'
    populated := by
      intro lba
      rcases eq_or_ne lba fc.lba with rfl | hl
      · simp [lruDelete]
      · simpa [lruDelete, hl] using h.populated lba

theorem Wf.lines_delete (h : fcm.Wf) (hfc : fcm.heap addr = some fc) :
  (fcm.lruDelete addr fc.lba).lines = Function.update fcm.lines fc.lba none
  := by
  funext lba
  rcases eq_or_ne lba fc.lba with rfl | hl
  · rw [Function.update_self]
    apply lines_eq_none
    simp [lruDelete]
  · rw [Function.update_of_ne hl]
    apply lines_congr
    · simp [lruDelete, hl]
    · intro addr' haddr'
      apply Function.update_of_ne
      rintro rfl
      obtain ⟨fc', hfc', rfl⟩ := (h.map_iff _ _).mp haddr'
      rw [hfc] at hfc'
      cases hfc'
      apply hl rfl

theorem Wf.lruUpdate (h : fcm.Wf) (hfc : fcm.heap addr = some fc) :
  (fcm.lruUpdate addr).Wf
  where
    map_iff := h.map_iff
    lru := by
      intro addr' haddr'
      rcases List.mem_cons.mp haddr' with rfl | haddr'
      · use fc, hfc
      · apply h.lru addr' (List.mem_of_mem_filter haddr')
    fresh := h.fresh
    populated := h.populated

/-- A cache that differs in the counters only. -/
theorem Wf.counters (h : fcm.Wf) (n : ℤ) (state : ℕ → Bool) :
  Wf { fcm with nowEvictingMap := n, gtdInternalState := state }
  := ⟨h.map_iff, h.lru, h.fresh, h.populated⟩

/-! ### What a call leaves -/

/-- The entries that are not `lost` are still there with their lbas, and no entry has become
`EVICTING`. -/
structure Follows (lost : ℕ → Prop) (fcm fcm' : FineCacheMonitor) : Prop where
  retains : ∀ {addr fc}, ¬ lost addr → fcm.heap addr = some fc →
    ∃ fc', fcm'.heap addr = some fc' ∧ fc'.lba = fc.lba
  calm : ∀ {addr fc'}, fcm'.heap addr = some fc' → fc'.flag = .evicting →
    ∃ fc, fcm.heap addr = some fc ∧ fc.flag = .evicting ∧ fc.lba = fc'.lba

variable {lost lost' : ℕ → Prop} {fcm'' : FineCacheMonitor}

theorem Follows.of_heap_eq (h : fcm'.heap = fcm.heap) :
  Follows lost fcm fcm'
  where
    retains _ hfc := ⟨_, by rw [h, hfc], rfl⟩
    calm hfc hflag := ⟨_, by rw [← h, hfc], hflag, rfl⟩

theorem Follows.trans (h : Follows lost fcm fcm') (h' : Follows lost' fcm' fcm'') :
  Follows (fun addr => lost addr ∨ lost' addr) fcm fcm''
  where
    retains := by
      intro addr fc hlost hfc
      obtain ⟨fc', hfc', hl⟩ := h.retains (fun hl => hlost (.inl hl)) hfc
      obtain ⟨fc'', hfc'', hl'⟩ := h'.retains (fun hl => hlost (.inr hl)) hfc'
      use fc'', hfc'', hl'.trans hl
    calm := by
      intro addr fc'' hfc'' hflag
      obtain ⟨fc', hfc', hflag', hl'⟩ := h'.calm hfc'' hflag
      obtain ⟨fc, hfc, hflag, hl⟩ := h.calm hfc' hflag'
      use fc, hfc, hflag, hl.trans hl'

theorem Follows.mono (h : Follows lost fcm fcm') (hl : ∀ addr, lost addr → lost' addr) :
  Follows lost' fcm fcm'
  where
    retains hlost hfc := h.retains (fun h => hlost (hl _ h)) hfc
    calm := h.calm

theorem Follows.store (hfc : fcm.heap addr = some fc) (hlba : fc'.lba = fc.lba)
    (hflag : fc'.flag ≠ .evicting) :
  Follows lost fcm (fcm.store addr fc')
  where
    retains := by
      intro addr' fc'' _ hfc''
      rcases eq_or_ne addr' addr with rfl | ha
      · rw [hfc] at hfc''
        cases hfc''
        use fc', by simp [FineCacheMonitor.store], hlba
      · exact ⟨fc'', by simp [FineCacheMonitor.store, ha, hfc''], rfl⟩
    calm := by
      intro addr' fc'' hfc'' hev
      rcases eq_or_ne addr' addr with rfl | ha
      · have heq : fc' = fc'' := by simpa [FineCacheMonitor.store] using hfc''
        rw [heq] at hflag
        exact absurd hev hflag
      · exact ⟨fc'', by simpa [FineCacheMonitor.store, ha] using hfc'', hev, rfl⟩

theorem Follows.pushed (h : fcm.Wf) (hflag : fc.flag ≠ .evicting) :
  Follows lost fcm (fcm.pushed fc)
  where
    retains := by
      intro addr fc' _ hfc'
      exact ⟨fc', by simp [FineCacheMonitor.pushed, h.addr_ne hfc', hfc'], rfl⟩
    calm := by
      intro addr fc' hfc' hev
      rcases eq_or_ne addr fcm.nextAddr with rfl | ha
      · have heq : fc = fc' := by simpa [FineCacheMonitor.pushed] using hfc'
        rw [heq] at hflag
        exact absurd hev hflag
      · exact ⟨fc', by simpa [FineCacheMonitor.pushed, ha] using hfc', hev, rfl⟩

theorem Follows.delete (fcm : FineCacheMonitor) (addr lba : ℕ) :
  Follows (· = addr) fcm (fcm.lruDelete addr lba)
  where
    retains := by
      intro addr' fc' hlost hfc'
      exact ⟨fc', by simp [lruDelete, hlost, hfc'], rfl⟩
    calm := by
      intro addr' fc' hfc' hev
      rcases eq_or_ne addr' addr with rfl | ha
      · simp [lruDelete] at hfc'
      · exact ⟨fc', by simpa [lruDelete, ha] using hfc', hev, rfl⟩

/-! ### The calls -/

/-- A well-formed cache whose lines are coherent with the store `m`. -/
structure Sound (fcm : FineCacheMonitor) (m last : ℕ → ℕ) : Prop where
  wf : fcm.Wf
  coherent : Coherent fcm.lines m last

/-- What a call that loses the entries of `lost` keeps. -/
structure Kept (lost : ℕ → Prop) (m last : ℕ → ℕ) (fcm fcm' : FineCacheMonitor) : Prop where
  sound : fcm'.Sound m last
  follows : Follows lost fcm fcm'
  state : fcm'.gtdInternalState = fcm.gtdInternalState

variable {m last : ℕ → ℕ} {bitQuery : ℕ → Bool}

/-- A new entry, whose line the cache may have. -/
theorem lruPush_meets (h : fcm.Sound m last) (fc : FineCache) (hflag : fc.flag ≠ .evicting)
    {last' : ℕ → ℕ}
    (hc : fcm.lines fc.lba = none →
      Coherent (Function.update fcm.lines fc.lba (some (line fc))) m last') :
  Meets NotFreed (Kept (fun _ => False) m last' fcm) (fcm.lruPush fc)
  := by
  apply (meets_require (by decide)).bind
  intro _ hmap
  refine ⟨⟨h.wf.pushed hmap, ?_⟩, .pushed h.wf hflag, rfl⟩
  rw [h.wf.lines_pushed hmap]
  apply hc (lines_eq_none hmap)

/-- An entry that is cached takes the address of an assignment. -/
theorem Sound.assign (h : fcm.Sound m last) (hfc : fcm.heap addr = some fc) (ppa : ℕ) :
  Kept (fun _ => False) m (Function.update last fc.lba ppa) fcm
    (fcm.store addr ⟨fc.lba, ppa, .dirty⟩)
  := by
  have hlba : (⟨fc.lba, ppa, .dirty⟩ : FineCache).lba = fc.lba := rfl
  refine ⟨⟨h.wf.store hfc hlba, ?_⟩, .store hfc hlba nofun, rfl⟩
  rw [h.wf.lines_store hfc hlba]
  apply h.coherent.assign

theorem Kept.lruUpdate (h : Kept lost m last fcm fcm') (hfc : fcm'.heap addr = some fc) :
  Kept lost m last fcm (fcm'.lruUpdate addr)
  where
    sound := ⟨h.sound.wf.lruUpdate hfc, h.sound.coherent⟩
    follows := ⟨h.follows.retains, h.follows.calm⟩
    state := h.state

/-- `fine_update_entry`. -/
theorem updateEntry_meets (h : fcm.Sound m last) (lba ppa : ℕ) :
  Meets NotFreed (fun r => Kept (fun _ => False) m (Function.update last lba ppa) fcm r.1)
    (fcm.updateEntry lba ppa)
  := by
  unfold updateEntry updateEntryWith lruFind
  cases hm : fcm.map lba with
  | none =>
      apply (lruPush_meets h ⟨lba, ppa, .dirty⟩ nofun fun _ => h.coherent.assign ppa).bind
      intro fcm' hk
      apply hk
  | some addr =>
      obtain ⟨fc, hfc, rfl⟩ := (h.wf.map_iff _ _).mp hm
      apply (deref_meets hfc).bind
      rintro _ rfl
      apply (h.assign hfc ppa).lruUpdate
      · apply Function.update_self ..

/-- `fine_update_entry_gc`: the assignment is lost unless the lba is cached. -/
theorem updateEntryGc_meets (h : fcm.Sound m last) (lba ppa : ℕ) :
  Meets NotFreed (fun r => Kept (fun _ => False) m
      (if fcm.populatedCacheEntry lba then Function.update last lba ppa else last) fcm r.1)
    (fcm.updateEntryGc lba ppa)
  := by
  unfold updateEntryGc updateEntryWith lruFind
  rw [h.wf.populated]
  cases hm : fcm.map lba with
  | none => exact ⟨h, .of_heap_eq rfl, rfl⟩
  | some addr =>
      obtain ⟨fc, hfc, rfl⟩ := (h.wf.map_iff _ _).mp hm
      apply (deref_meets hfc).bind
      rintro _ rfl
      apply h.assign hfc ppa

/-- `fine_get_mapping`. -/
theorem getMapping_meets (h : fcm.Sound m last) (lba : ℕ) :
  Meets NotFreed (fun r => Kept (fun _ => False) m last fcm r.1) (fcm.getMapping lba)
  := by
  apply (meets_orThrow fun _ => by decide).bind
  intro addr hm
  obtain ⟨fc, hfc, rfl⟩ := (h.wf.map_iff _ _).mp hm
  apply (deref_meets hfc).bind
  rintro _ rfl
  have hk : Kept (fun _ => False) m last fcm fcm := ⟨h, .of_heap_eq rfl, rfl⟩
  apply hk.lruUpdate hfc

/-- `fine_insert_entry_from_translation`, with the page of the store. -/
theorem insertEntryFromTranslation_meets (h : fcm.Sound m last) {lba : ℕ} {data : TransData}
    (hdata : m lba = data (transOffset lba)) :
  Meets NotFreed (Kept (fun _ => False) m last fcm)
    (fcm.insertEntryFromTranslation bitQuery lba data)
  := by
  unfold insertEntryFromTranslation
  split
  · exact ⟨h, .of_heap_eq rfl, rfl⟩
  · apply (checkPpa_meets bitQuery _).bind
    intro _ _
    have hload : fcm.lines lba = none →
        Coherent (Function.update fcm.lines lba (some ⟨data (transOffset lba), false⟩)) m last := by
      intro hnone
      rw [← hdata]
      apply h.coherent.load hnone
    apply lruPush_meets h ⟨lba, _, .clean⟩ nofun hload

/-! ### Evictions -/

theorem leaveEvicting_meets (fcm : FineCacheMonitor) (p : Prop) [Decidable p] :
  Meets NotFreed (fun r => ∃ n, r = { fcm with nowEvictingMap := n }) (fcm.leaveEvicting p)
  := by
  unfold leaveEvicting
  split
  · apply (meets_require (by decide)).bind
    intro _ _
    exact ⟨_, rfl⟩
  · exact ⟨_, rfl⟩

/-- What `fine_evict_target` leaves of the lines. -/
structure Evicted (addr lba : ℕ) (fcm fcm' : FineCacheMonitor) : Prop where
  wf : fcm'.Wf
  lines : fcm'.lines = Function.update fcm.lines lba none
  follows : Follows (· = addr) fcm fcm'
  state : fcm'.gtdInternalState = fcm.gtdInternalState

/-- `fine_evict_target`. -/
theorem evictTarget_meets (h : fcm.Wf) (hfc : fcm.heap addr = some fc) :
  Meets NotFreed (fun r => fc.flag ≠ .dirty ∧ Evicted addr fc.lba fcm r) (fcm.evictTarget addr)
  := by
  apply (deref_meets hfc).bind
  rintro fc rfl
  apply (meets_require (by decide)).bind
  intro _ hflag
  apply (leaveEvicting_meets fcm _).bind
  rintro _ ⟨n, rfl⟩
  have hn := h.counters n fcm.gtdInternalState
  refine ⟨hflag, hn.delete hfc, hn.lines_delete hfc, ?_, rfl⟩
  have hd := Follows.delete fcm addr fc.lba
  use hd.retains, hd.calm

/-- The store with the contents of one translation page. -/
def paged (gtdIdx : ℕ) (data : TransData) (m : ℕ → ℕ) (lba : ℕ) : ℕ :=
  if getGtdIdx lba = gtdIdx then data (transOffset lba) else m lba

theorem eq_of_transOffset {lba lba' : ℕ} (hg : getGtdIdx lba = getGtdIdx lba')
    (ho : transOffset lba = transOffset lba') :
  lba = lba'
  := by
  unfold getGtdIdx at hg
  unfold transOffset at ho
  rw [← Nat.div_add_mod lba dmfPerPage, ← Nat.div_add_mod lba' dmfPerPage, hg, ho]

variable {gtdIdx : ℕ} {data : TransData}

/-- A write to the page. -/
theorem paged_update {lba : ℕ} (hg : getGtdIdx lba = gtdIdx) (v : ℕ) :
  paged gtdIdx (Function.update data (transOffset lba) v) m
    = Function.update (paged gtdIdx data m) lba v
  := by
  funext j
  rcases eq_or_ne j lba with rfl | hj
  · simp [paged, hg]
  · rw [Function.update_of_ne hj]
    unfold paged
    split
    · have ho : transOffset j ≠ transOffset lba := by
        intro ho
        apply hj (eq_of_transOffset (by rw [hg]; assumption) ho)
      rw [Function.update_of_ne ho]
    · rfl

/-- The lbas of a translation page, as the batch update goes through them. -/
theorem mem_pageLbas {lba : ℕ} :
  lba ∈ (List.range dmfPerPage).map (gtdIdx * dmfPerPage + ·) ↔ getGtdIdx lba = gtdIdx
  := by
  have hpos : 0 < dmfPerPage := by decide
  rw [List.mem_map]
  constructor
  · rintro ⟨i, hi, rfl⟩
    rw [getGtdIdx, Nat.add_comm, Nat.add_mul_div_right _ _ hpos,
      Nat.div_eq_of_lt (List.mem_range.mp hi), Nat.zero_add]
  · rintro rfl
    use lba % dmfPerPage, List.mem_range.mpr (Nat.mod_lt _ hpos)
    apply Nat.div_add_mod' lba dmfPerPage

/-- The invariant of the batch update, for the lbas of the page still to come: only their
entries are not clean. -/
structure Batched (m last : ℕ → ℕ) (gtdIdx : ℕ) (fcm : FineCacheMonitor) (rest : List ℕ)
    (st : FineCacheMonitor × TransData) : Prop where
  kept : Kept (fun _ => False) (paged gtdIdx st.2 m) last fcm st.1
  page : ∀ lba ∈ rest, getGtdIdx lba = gtdIdx
  flags : ∀ {addr fc}, st.1.heap addr = some fc → getGtdIdx fc.lba = gtdIdx →
    fc.flag ≠ .clean → fc.lba ∈ rest

theorem batchTurn_meets {target lba : ℕ} {rest : List ℕ} {st : FineCacheMonitor × TransData}
    (h : Batched m last gtdIdx fcm (lba :: rest) st) :
  Meets NotFreed (Batched m last gtdIdx fcm rest) (batchTurn bitQuery target st lba)
  := by
  have hwf := h.kept.sound.wf
  have hpage : ∀ lba ∈ rest, getGtdIdx lba = gtdIdx :=
    fun lba hlba => h.page lba (List.mem_cons_of_mem _ hlba)
  have hg := h.page lba List.mem_cons_self
  unfold batchTurn lruFind
  cases hm : st.1.map lba with
  | none =>
      use h.kept, hpage
      intro addr fc hfc hfg hflag
      rcases List.mem_cons.mp (h.flags hfc hfg hflag) with rfl | hrest
      · rw [hwf.map_eq hfc] at hm
        cases hm
      · apply hrest
  | some addr =>
      obtain ⟨fc, hfc, rfl⟩ := (hwf.map_iff _ _).mp hm
      have honly : ∀ {addr' fc'}, st.1.heap addr' = some fc' → fc'.lba = fc.lba →
          addr' = addr := by
        intro addr' fc' hfc' hlba
        have hm' := hwf.map_eq hfc'
        rw [hlba, hm] at hm'
        cases hm'
        rfl
      apply (deref_meets hfc).bind
      rintro fc rfl
      apply (checkPpa_meets bitQuery _).bind
      intro _ _
      split
      · rename_i hclean
        use h.kept, hpage
        intro addr' fc' hfc' hfg hflag
        rcases List.mem_cons.mp (h.flags hfc' hfg hflag) with hlba | hrest
        · cases honly hfc' hlba
          rw [hfc] at hfc'
          cases hfc'
          exact absurd hclean hflag
        · apply hrest
      · apply (leaveEvicting_meets st.1 _).bind
        rintro _ ⟨n, rfl⟩
        have hn := hwf.counters n st.1.gtdInternalState
        have hlba : ({ fc with flag := .clean } : FineCache).lba = fc.lba := rfl
        have hstore : Follows (fun _ => False) st.1 (st.1.store addr { fc with flag := .clean }) :=
          .store hfc hlba nofun
        refine ⟨⟨⟨hn.store hfc hlba, ?_⟩, ?_, h.kept.state⟩, hpage, ?_⟩
        · rw [hn.lines_store hfc hlba, paged_update hg]
          apply h.kept.sound.coherent.writeBack (hwf.lines_eq hfc)
        · have ht := h.kept.follows.trans hstore
          use fun _ => ht.retains (by simp), ht.calm
        · intro addr' fc' hfc' hfg hflag
          rcases eq_or_ne addr' addr with rfl | ha
          · have heq : { fc with flag := .clean } = fc' := by
              simpa [FineCacheMonitor.store] using hfc'
            rw [← heq] at hflag
            exact absurd rfl hflag
          · have hfc' : st.1.heap addr' = some fc' := by
              simpa [FineCacheMonitor.store, ha] using hfc'
            rcases List.mem_cons.mp (h.flags hfc' hfg hflag) with hlba | hrest
            · exact absurd (honly hfc' hlba) ha
            · apply hrest

/-- The batch update: no entry of the page is left that is not clean. -/
theorem batchUpdate_meets (h : fcm.Sound (paged gtdIdx data m) last) (target : ℕ) :
  Meets NotFreed (Batched m last gtdIdx fcm []) (fcm.batchUpdate bitQuery gtdIdx target data)
  := by
  have hmem : ∀ {lba}, lba ∈ (List.range dmfPerPage).map (gtdIdx * dmfPerPage + ·)
      ↔ getGtdIdx lba = gtdIdx := mem_pageLbas
  unfold batchUpdate
  generalize (List.range dmfPerPage).map (gtdIdx * dmfPerPage + ·) = lbas at hmem ⊢
  apply meets_foldlM_rest (Batched m last gtdIdx fcm)
  · intro lba rest st hst
    apply batchTurn_meets hst
  · refine ⟨⟨h, .of_heap_eq rfl, rfl⟩, ?_, ?_⟩
    · intro lba hlba
      apply hmem.mp hlba
    · intro addr fc hfc hg _
      apply hmem.mpr hg

/-- The cache before the entry at `addr` is evicted: when the address of the entry is written to
its page, the entry is owed no more. -/
structure Flagged (m last : ℕ → ℕ) (gtdIdx addr : ℕ) (fc : FineCache) (fcm : FineCacheMonitor)
    (st : FineCacheMonitor × TransData) : Prop where
  wf : st.1.Wf
  entry : ∃ fc', st.1.heap addr = some fc' ∧ fc'.lba = fc.lba ∧
    Coherent (Function.update st.1.lines fc.lba (some ⟨fc'.ppa, false⟩))
      (Function.update (paged gtdIdx st.2 m) fc.lba fc'.ppa) last
  follows : Follows (fun _ => False) fcm st.1
  state : st.1.gtdInternalState = fcm.gtdInternalState

/-- The flags of an eviction alone, and those of a batch. -/
theorem updateFlags_meets (h : fcm.Sound (paged gtdIdx data m) last)
    (hfc : fcm.heap addr = some fc) (hg : getGtdIdx fc.lba = gtdIdx) (batch : Bool) :
  Meets NotFreed (fun st => Flagged m last gtdIdx addr fc fcm st ∧
      (batch = true → ∀ {addr' fc'}, st.1.heap addr' = some fc' → getGtdIdx fc'.lba = gtdIdx →
        fc'.flag = .clean))
    (fcm.updateFlags bitQuery batch addr fc data)
  := by
  unfold updateFlags
  cases batch with
  | true =>
      rw [if_pos rfl, hg]
      apply (batchUpdate_meets h fc.lba).mono
      intro st hst
      obtain ⟨fc', hfc', hlba⟩ := hst.kept.follows.retains (fun hf => hf) hfc
      have hlines := hst.kept.sound.wf.lines_eq hfc'
      refine ⟨⟨hst.kept.sound.wf, ⟨fc', hfc', hlba, ?_⟩, hst.kept.follows, hst.kept.state⟩, ?_⟩
      · rw [← hlba]
        apply hst.kept.sound.coherent.writeBack hlines
      · intro _ addr' fc'' hfc'' hfg
        by_contra hflag
        cases hst.flags hfc'' hfg hflag
  | false =>
      have hlba : ({ fc with flag := .clean } : FineCache).lba = fc.lba := rfl
      have hstored : (fcm.store addr { fc with flag := .clean }).heap addr
          = some { fc with flag := .clean } := Function.update_self ..
      refine ⟨⟨h.wf.store hfc hlba, ⟨_, hstored, hlba, ?_⟩, .store hfc hlba nofun, rfl⟩, nofun⟩
      rw [h.wf.lines_store hfc hlba, Function.update_idem]
      apply h.coherent.writeBack (h.wf.lines_eq hfc)

/-- No entry of the page is being evicted. -/
def NoneEvicting (gtdIdx : ℕ) (fcm : FineCacheMonitor) : Prop :=
  ∀ addr fc, fcm.heap addr = some fc → getGtdIdx fc.lba = gtdIdx → fc.flag ≠ .evicting

theorem NoneEvicting.follows (h : NoneEvicting gtdIdx fcm) (hf : Follows lost fcm fcm') :
  NoneEvicting gtdIdx fcm'
  := by
  intro addr fc' hfc' hg hflag
  obtain ⟨fc, hfc, hev, hlba⟩ := hf.calm hfc' hflag
  apply h addr fc hfc (by rw [hlba, hg]) hev

/-- What `fine_update_eviction_target_translation` leaves, with the page it has written. -/
structure Completed (m last : ℕ → ℕ) (gtdIdx addr : ℕ) (fcm : FineCacheMonitor)
    (st : FineCacheMonitor × TransData) : Prop where
  sound : st.1.Sound (paged gtdIdx st.2 m) last
  follows : Follows (· = addr) fcm st.1
  state : st.1.gtdInternalState = Function.update fcm.gtdInternalState gtdIdx true

/-- `fine_update_eviction_target_translation`. -/
theorem updateEvictionTargetTranslation_meets (h : fcm.Sound m last)
    (hdata : paged gtdIdx (fcm.clearFirst gtdIdx data).2 m = m)
    (hfc : fcm.heap addr = some fc) (hg : getGtdIdx fc.lba = gtdIdx) (batch : Bool) :
  Meets NotFreed (fun st => Completed m last gtdIdx addr fcm st ∧
      (batch = true → NoneEvicting gtdIdx st.1))
    (fcm.updateEvictionTargetTranslation bitQuery batch addr data)
  := by
  refine (deref_meets hfc).bind ?_
  rintro fc rfl
  obtain ⟨hheap, hwf, hlines, hstate⟩ :
      (fcm.clearFirst (getGtdIdx fc.lba) data).1.heap = fcm.heap ∧
      (fcm.clearFirst (getGtdIdx fc.lba) data).1.Wf ∧
      (fcm.clearFirst (getGtdIdx fc.lba) data).1.lines = fcm.lines ∧
      (fcm.clearFirst (getGtdIdx fc.lba) data).1.gtdInternalState
        = Function.update fcm.gtdInternalState (getGtdIdx fc.lba) true := by
    unfold clearFirst
    split
    · rename_i hstate
      refine ⟨rfl, h.wf, rfl, ?_⟩
      rw [← hstate, Function.update_eq_self]
    · exact ⟨rfl, h.wf.counters _ _, rfl, rfl⟩
  rw [hg] at hheap hwf hlines hstate ⊢
  generalize fcm.clearFirst gtdIdx data = first at *
  have hfirst : first.1.Sound (paged gtdIdx first.2 m) last := by
    use hwf
    rw [hlines, hdata]
    apply h.coherent
  rw [← hheap] at hfc
  refine (updateFlags_meets hfirst hfc hg batch).bind ?_
  rintro ⟨fcm₁, data₁⟩ ⟨hflags, hclean⟩
  obtain ⟨fc', hfc', hlba, hcoh⟩ := hflags.entry
  refine (deref_meets hfc').bind ?_
  rintro fc' rfl
  refine (checkPpa_meets bitQuery _).bind ?_
  intro _ _
  refine (evictTarget_meets hflags.wf hfc').bind ?_
  rintro fcm₂ ⟨-, hev⟩
  have hfollows : Follows (· = addr) fcm fcm₂ := by
    have ht := hflags.follows.trans hev.follows
    refine ⟨fun hne hfc => ?_, fun hfc hflag => ?_⟩
    · rw [← hheap] at hfc
      apply ht.retains (by simpa using hne) hfc
    · rw [← hheap]
      apply ht.calm hfc hflag
  refine ⟨⟨⟨hev.wf, ?_⟩, hfollows, ?_⟩, ?_⟩
  · rw [paged_update (by rw [hlba, hg]), hev.lines, hlba]
    have hl : Function.update fcm₁.lines fc.lba (some ⟨fc'.ppa, false⟩) fc.lba
        = some ⟨fc'.ppa, false⟩ := Function.update_self ..
    have hdrop := hcoh.drop hl rfl
    rwa [Function.update_idem] at hdrop
  · rw [hev.state, hflags.state, hstate]
  · intro hbatch addr' fc'' hfc'' hfg hflag
    obtain ⟨fc₁, hfc₁, hflag₁, hlba₁⟩ := hev.follows.calm hfc'' hflag
    have hc := hclean hbatch hfc₁ (by rw [hlba₁, hfg])
    rw [hflag₁] at hc
    cases hc

end FineCacheMonitor

end AppL
