import AppL.Dftl.FineCoherence

/-!
# The runs of the fine-grained cache

The invariant of the cache with its translation pages and the requests that wait for them, and
what every call does to it.  A request holds a pointer to the entry that it evicts.  The entry
may be updated meanwhile, and is then chosen again: the first of the two requests frees it
under the other one.  Unless this happens no mapping is lost.
-/

namespace AppL

open Transition WriteBack FineCacheMonitor

/-! ### The pages in flash -/

namespace FineMap

variable {s : FineMap} {gtdIdx : ℕ}

/-- A page is written. -/
theorem flash_write (cache : FineCacheMonitor) (data : TransData)
    (pendingReq : ℕ → List PendingReq) :
  flash ⟨cache, Function.update s.page gtdIdx (some data), pendingReq⟩
    = paged gtdIdx data s.flash
  := by
  funext lba
  unfold flash paged
  rcases eq_or_ne (getGtdIdx lba) gtdIdx with hg | hg
  · simp [hg]
  · simp [hg]

/-- The buffer that is written first is the page in flash, or a page without entries. -/
theorem paged_clearFirst {fcm : FineCacheMonitor}
    (hstate : fcm.gtdInternalState gtdIdx = (s.page gtdIdx).isSome) :
  paged gtdIdx (fcm.clearFirst gtdIdx (s.buffer gtdIdx)).2 s.flash = s.flash
  := by
  funext lba
  unfold paged clearFirst buffer
  split
  · rename_i hg
    subst hg
    rw [hstate]
    cases hp : s.page (getGtdIdx lba) with
    | none => simp [flash, hp]
    | some data => simp [flash, hp]
  · rfl

theorem flash_eq_buffer {lba : ℕ} (hg : getGtdIdx lba = gtdIdx)
    (hp : (s.page gtdIdx).isSome = true) :
  s.flash lba = s.buffer gtdIdx (transOffset lba)
  := by
  obtain ⟨data, hdata⟩ := Option.isSome_iff_exists.mp hp
  subst hg
  simp [flash, buffer, hdata]

end FineMap

/-! ### The requests of a page -/

theorem FineCacheMonitor.Kept.trans {m last last' : ℕ → ℕ} {lost : ℕ → Prop}
    {fcm fcm' fcm'' : FineCacheMonitor} (h : Kept (fun _ => False) m last fcm fcm')
    (h' : Kept lost m last' fcm' fcm'') :
  Kept lost m last' fcm fcm''
  where
    sound := h'.sound
    follows := (h.follows.trans h'.follows).mono fun _ ho => ho.resolve_left id
    state := h'.state.trans h.state

namespace PendingReq

@[simp]
theorem targets_nil :
  targets [] = []
  := rfl

@[simp]
theorem targets_missr (lba : ℕ) (write : Option ℕ) (reqs : List PendingReq) :
  targets (.missr lba write :: reqs) = targets reqs
  := rfl

@[simp]
theorem targets_evictionr (addr : ℕ) (reqs : List PendingReq) :
  targets (.evictionr addr :: reqs) = addr :: targets reqs
  := rfl

theorem targets_append (reqs reqs' : List PendingReq) :
  targets (reqs ++ reqs') = targets reqs ++ targets reqs'
  := List.filterMap_append

theorem mem_targets {reqs : List PendingReq} {addr : ℕ} :
  addr ∈ targets reqs ↔ .evictionr addr ∈ reqs
  := by
  unfold targets
  rw [List.mem_filterMap]
  constructor
  · rintro ⟨req, hreq, h⟩
    cases req with
    | missr lba write => cases h
    | evictionr addr' =>
        cases h
        apply hreq
  · intro h
    exact ⟨_, h, rfl⟩

theorem targets_erase (addr : ℕ) (reqs : List PendingReq) :
  targets (reqs.erase (.evictionr addr)) = (targets reqs).erase addr
  := by
  induction reqs with
  | nil => rfl
  | cons req reqs ih =>
      cases req with
      | missr lba write => simpa [List.erase_cons] using ih
      | evictionr addr' =>
          rw [targets_evictionr, List.erase_cons, List.erase_cons]
          rcases eq_or_ne addr' addr with rfl | ha
          · simp
          · simpa [ha] using ih

/-- The assignment of one request. -/
def assignment (last : ℕ → ℕ) (req : PendingReq) : ℕ → ℕ := FineRecord.assign last (writes [req])

theorem assign_cons (last : ℕ → ℕ) (req : PendingReq) (reqs : List PendingReq) :
  FineRecord.assign last (writes (req :: reqs))
    = FineRecord.assign (assignment last req) (writes reqs)
  := by
  unfold assignment FineRecord.assign writes
  cases req with
  | missr lba write =>
      cases write with
      | none => rfl
      | some ppa => rfl
  | evictionr addr => rfl

end PendingReq

namespace FineMap

variable {bitQuery : ℕ → Bool} {s : FineMap} {gtdIdx : ℕ} {m last : ℕ → ℕ}

/-- The end of a miss assigns the address of a write. -/
theorem finishMiss_meets {fcm : FineCacheMonitor} (h : fcm.Sound m last) (lba : ℕ)
    (write : Option ℕ) :
  Meets NotFreed (Kept (fun _ => False) m (PendingReq.assignment last (.missr lba write)) fcm)
    (finishMiss fcm lba write)
  := by
  cases write with
  | none =>
      apply (getMapping_meets h lba).bind
      intro r hr
      apply hr
  | some ppa =>
      apply (updateEntry_meets h lba ppa).bind
      intro r hr
      apply hr

/-- The store as the requests of a page see it: the buffer stands for the page when an eviction
has changed it. -/
def current (s : FineMap) (gtdIdx : ℕ) (b : PendingBuffer) : ℕ → ℕ :=
  if b.isUpdateMapping then paged gtdIdx b.value s.flash else s.flash

/-- The invariant of `demand_map_fine_type_pending`, for the requests of the page still to
come. -/
structure Pending (s : FineMap) (gtdIdx : ℕ) (last : ℕ → ℕ) (rest : List PendingReq)
    (b : PendingBuffer) : Prop where
  sound : b.cache.Sound (s.current gtdIdx b) last
  start : b.isUpdateMapping = false → b.value = s.buffer gtdIdx ∧
    b.cache.gtdInternalState = s.cache.gtdInternalState
  changed : b.isUpdateMapping = true → NoneEvicting gtdIdx b.cache ∧
    b.cache.gtdInternalState = Function.update s.cache.gtdInternalState gtdIdx true
  follows : Follows (· ∈ PendingReq.targets (s.pendingReq gtdIdx)) s.cache b.cache
  nodup : (PendingReq.targets rest).Nodup
  subset : ∀ req ∈ rest, req ∈ s.pendingReq gtdIdx
  alive : ∀ addr ∈ PendingReq.targets rest,
    ∃ fc, b.cache.heap addr = some fc ∧ getGtdIdx fc.lba = gtdIdx

/-- The misses of a page belong to it, and it is in flash. -/
def Misses (s : FineMap) (gtdIdx : ℕ) : Prop :=
  ∀ lba write, .missr lba write ∈ s.pendingReq gtdIdx →
    getGtdIdx lba = gtdIdx ∧ (s.page gtdIdx).isSome = true

variable {rest : List PendingReq} {b : PendingBuffer}

/-- A miss finds the value of the store in the buffer. -/
theorem Pending.current_eq {req : PendingReq} (h : Pending s gtdIdx last (req :: rest) b)
    {lba : ℕ} {write : Option ℕ} (hreq : req = .missr lba write) (hm : s.Misses gtdIdx) :
  s.current gtdIdx b lba = b.value (transOffset lba)
  := by
  subst hreq
  obtain ⟨hg, hp⟩ := hm lba write (h.subset _ List.mem_cons_self)
  unfold current
  cases hu : b.isUpdateMapping with
  | true => simp [paged, hg]
  | false =>
      rw [(h.start hu).1]
      apply flash_eq_buffer hg hp

theorem Pending.miss {lba : ℕ} {write : Option ℕ}
    (h : Pending s gtdIdx last (.missr lba write :: rest) b) (hm : s.Misses gtdIdx) :
  Meets NotFreed (Pending s gtdIdx (PendingReq.assignment last (.missr lba write)) rest)
    (pendingTurn bitQuery b (.missr lba write))
  := by
  apply (insertEntryFromTranslation_meets h.sound (h.current_eq rfl hm)).bind
  intro fcm hk
  apply (finishMiss_meets hk.sound lba write).bind
  intro fcm' hk'
  have hkept := hk.trans hk'
  refine ⟨hkept.sound, ?_, ?_, ?_, h.nodup, ?_, ?_⟩
  · intro hu
    use (h.start hu).1, hkept.state.trans (h.start hu).2
  · intro hu
    use (h.changed hu).1.follows hkept.follows, hkept.state.trans (h.changed hu).2
  · apply (h.follows.trans hkept.follows).mono fun _ ho => ho.resolve_right id
  · intro req hreq
    apply h.subset req (List.mem_cons_of_mem _ hreq)
  · intro addr haddr
    obtain ⟨fc, hfc, hg⟩ := h.alive addr haddr
    obtain ⟨fc', hfc', hlba⟩ := hkept.follows.retains id hfc
    use fc', hfc', by rw [hlba, hg]

/-- The rest of the requests after the eviction of one entry. -/
theorem Pending.rest_alive {addr : ℕ} {fcm : FineCacheMonitor}
    (h : Pending s gtdIdx last (.evictionr addr :: rest) b)
    (hf : Follows (· = addr) b.cache fcm) :
  Follows (· ∈ PendingReq.targets (s.pendingReq gtdIdx)) s.cache fcm ∧
    ∀ addr' ∈ PendingReq.targets rest, ∃ fc, fcm.heap addr' = some fc ∧ getGtdIdx fc.lba = gtdIdx
  := by
  constructor
  · apply (h.follows.trans hf).mono
    rintro addr' (ho | rfl)
    · apply ho
    · apply PendingReq.mem_targets.mpr (h.subset _ List.mem_cons_self)
  · intro addr' haddr'
    obtain ⟨fc, hfc, hg⟩ := h.alive addr' (List.mem_cons_of_mem _ haddr')
    have hne : addr' ≠ addr := by
      rintro rfl
      apply (List.nodup_cons.mp h.nodup).1 haddr'
    obtain ⟨fc', hfc', hlba⟩ := hf.retains hne hfc
    use fc', hfc', by rw [hlba, hg]

/-- The first eviction writes the entries of the page to the buffer. -/
theorem Pending.firstEviction {addr : ℕ}
    (h : Pending s gtdIdx last (.evictionr addr :: rest) b) (hu : b.isUpdateMapping = false)
    (hstate : s.cache.gtdInternalState gtdIdx = (s.page gtdIdx).isSome) :
  Meets NotFreed (Pending s gtdIdx last rest) (pendingTurn bitQuery b (.evictionr addr))
  := by
  obtain ⟨fc, hfc, hg⟩ := h.alive addr List.mem_cons_self
  obtain ⟨hvalue, hsame⟩ := h.start hu
  have hsound : b.cache.Sound s.flash last := by
    have hs := h.sound
    simpa [current, hu] using hs
  have hdata : paged gtdIdx (b.cache.clearFirst gtdIdx b.value).2 s.flash = s.flash := by
    rw [hvalue]
    apply paged_clearFirst
    rw [hsame, hstate]
  unfold pendingTurn
  simp only [hu, Bool.false_eq_true, if_false]
  apply (updateEvictionTargetTranslation_meets hsound hdata hfc hg true).bind
  rintro ⟨fcm, value⟩ ⟨hc, hnone⟩
  obtain ⟨hfollows, halive⟩ := h.rest_alive hc.follows
  refine ⟨hc.sound, nofun, ?_, hfollows, (List.nodup_cons.mp h.nodup).2, ?_, halive⟩
  · intro _
    use hnone rfl
    rw [hc.state, hsame]
  · intro req hreq
    apply h.subset req (List.mem_cons_of_mem _ hreq)

/-- The later evictions find their entries clean. -/
theorem Pending.laterEviction {addr : ℕ}
    (h : Pending s gtdIdx last (.evictionr addr :: rest) b) (hu : b.isUpdateMapping = true) :
  Meets NotFreed (Pending s gtdIdx last rest) (pendingTurn bitQuery b (.evictionr addr))
  := by
  obtain ⟨fc, hfc, hg⟩ := h.alive addr List.mem_cons_self
  obtain ⟨hnone, hchanged⟩ := h.changed hu
  obtain ⟨cache, value, isUpdateMapping⟩ := b
  cases hu
  apply (evictTarget_meets h.sound.wf hfc).bind
  rintro fcm ⟨hdirty, hev⟩
  have hclean : fc.flag = .clean := by
    have hevicting := hnone addr fc hfc hg
    cases hflag : fc.flag with
    | clean => rfl
    | dirty => exact absurd hflag hdirty
    | evicting => exact absurd hflag hevicting
  obtain ⟨hfollows, halive⟩ := h.rest_alive hev.follows
  have hcoh : Coherent fcm.lines (s.current gtdIdx ⟨cache, value, true⟩) last := by
    rw [hev.lines]
    apply h.sound.coherent.drop (h.sound.wf.lines_eq hfc)
    simp [line, hclean]
  refine ⟨⟨hev.wf, hcoh⟩, nofun, ?_, hfollows, (List.nodup_cons.mp h.nodup).2, ?_, halive⟩
  · intro _
    use hnone.follows hev.follows, hev.state.trans hchanged
  · intro req hreq
    apply h.subset req (List.mem_cons_of_mem _ hreq)

/-- The requests of a page, one after the other. -/
theorem Pending.turns (hm : s.Misses gtdIdx)
    (hstate : s.cache.gtdInternalState gtdIdx = (s.page gtdIdx).isSome) {rest : List PendingReq} :
  ∀ {last : ℕ → ℕ} {b : PendingBuffer}, Pending s gtdIdx last rest b →
    Meets NotFreed (Pending s gtdIdx (FineRecord.assign last (PendingReq.writes rest)) [])
      (rest.foldlM (pendingTurn bitQuery) b)
  := by
  induction rest with
  | nil =>
      intro last b h
      apply h
  | cons req rest ih =>
      intro last b h
      rw [List.foldlM_cons, PendingReq.assign_cons]
      cases req with
      | missr lba write =>
          apply (h.miss hm).bind
          intro b' hb'
          apply ih hb'
      | evictionr addr =>
          cases hu : b.isUpdateMapping with
          | true =>
              apply (h.laterEviction hu).bind
              intro b' hb'
              apply ih hb'
          | false =>
              apply (h.firstEviction hu hstate).bind
              intro b' hb'
              apply ih hb'

end FineMap

/-! ### The invariant -/

/-- Every lba has the address last assigned to it, and the entries that requests hold are there,
every one held once. -/
structure FineRecord.Inv (r : FineRecord) : Prop where
  sound : r.map.cache.Sound r.map.flash r.last
  state : ∀ gtdIdx, r.map.cache.gtdInternalState gtdIdx = (r.map.page gtdIdx).isSome
  nodup : ∀ gtdIdx, (PendingReq.targets (r.map.pendingReq gtdIdx)).Nodup
  alive : ∀ gtdIdx, ∀ addr ∈ PendingReq.targets (r.map.pendingReq gtdIdx),
    ∃ fc, r.map.cache.heap addr = some fc ∧ getGtdIdx fc.lba = gtdIdx
  misses : ∀ gtdIdx, r.map.Misses gtdIdx

namespace FineRecord

variable {bitQuery : ℕ → Bool} {r : FineRecord}

theorem init_inv :
  init.Inv
  where
    sound := by
      refine ⟨⟨?_, ?_, ?_, ?_⟩, ⟨?_, ?_⟩⟩
      · intro lba addr
        constructor
        · exact nofun
        · rintro ⟨fc, hfc, -⟩
          cases hfc
      · exact nofun
      · intro addr _
        rfl
      · intro lba
        rfl
      · intro lba
        rfl
      · exact nofun
    state _ := rfl
    nodup _ := List.nodup_nil
    alive _ := nofun
    misses _ := nofun

/-- A call that only works on the entries of the cache. -/
theorem Inv.kept {last : ℕ → ℕ} {fcm : FineCacheMonitor} (h : r.Inv)
    (hk : Kept (fun _ => False) r.map.flash last r.map.cache fcm) :
  Inv ⟨{ r.map with cache := fcm }, last⟩
  where
    sound := hk.sound
    state gtdIdx := by
      rw [hk.state]
      apply h.state
    nodup := h.nodup
    alive gtdIdx addr haddr := by
      obtain ⟨fc, hfc, hg⟩ := h.alive gtdIdx addr haddr
      obtain ⟨fc', hfc', hlba⟩ := hk.follows.retains id hfc
      use fc', hfc', by rw [hlba, hg]
    misses := h.misses

/-- A miss enters the list of its page. -/
theorem Inv.missRead {lba : ℕ} (h : r.Inv) (write : Option ℕ)
    (hp : (r.map.page (getGtdIdx lba)).isSome = true) :
  Inv ⟨r.map.listInsert (getGtdIdx lba) (.missr lba write), r.last⟩
  where
    sound := h.sound
    state := h.state
    nodup gtdIdx := by
      rcases eq_or_ne gtdIdx (getGtdIdx lba) with rfl | hg
      · simpa [FineMap.listInsert, PendingReq.targets_append] using h.nodup (getGtdIdx lba)
      · simpa [FineMap.listInsert, hg] using h.nodup gtdIdx
    alive gtdIdx := by
      rcases eq_or_ne gtdIdx (getGtdIdx lba) with rfl | hg
      · simpa [FineMap.listInsert, PendingReq.targets_append] using h.alive (getGtdIdx lba)
      · simpa [FineMap.listInsert, hg] using h.alive gtdIdx
    misses gtdIdx lba' write' hmem := by
      rcases eq_or_ne gtdIdx (getGtdIdx lba) with rfl | hg
      · simp only [FineMap.listInsert, Function.update_self, List.mem_append,
          List.mem_singleton] at hmem
        rcases hmem with hmem | hmem
        · apply h.misses _ lba' write' hmem
        · cases hmem
          use rfl, hp
      · simp only [FineMap.listInsert, Function.update_of_ne hg] at hmem
        apply h.misses gtdIdx lba' write' hmem

/-- The scan for an entry that is not being evicted finds one that is there. -/
theorem victim_meets {fcm : FineCacheMonitor} {addrs : List ℕ}
    (h : ∀ addr ∈ addrs, ∃ fc, fcm.heap addr = some fc) :
  Meets NotFreed (fun found => ∀ addr, found = some addr → ∃ fc, fcm.heap addr = some fc)
    (fcm.victim addrs)
  := by
  induction addrs with
  | nil => exact nofun
  | cons addr addrs ih =>
      obtain ⟨fc, hfc⟩ := h addr List.mem_cons_self
      apply (deref_meets hfc).bind
      rintro fc rfl
      split
      · apply ih
        intro addr' haddr'
        apply h addr' (List.mem_cons_of_mem _ haddr')
      · intro addr' haddr'
        cases haddr'
        exact ⟨_, hfc⟩

/-- A clean entry that no request holds is freed. -/
theorem Inv.freeClean {addr : ℕ} {fc : FineCache} (h : r.Inv)
    (hfc : r.map.cache.heap addr = some fc) (hclean : fc.flag = .clean)
    (hheld : addr ∉ PendingReq.targets (r.map.pendingReq (getGtdIdx fc.lba))) :
  Inv ⟨{ r.map with cache := r.map.cache.lruDelete addr fc.lba }, r.last⟩
  where
    sound := by
      use h.sound.wf.delete hfc
      rw [h.sound.wf.lines_delete hfc]
      apply h.sound.coherent.drop (h.sound.wf.lines_eq hfc)
      simp [line, hclean]
    state := h.state
    nodup := h.nodup
    alive gtdIdx addr' haddr' := by
      obtain ⟨fc', hfc', hg⟩ := h.alive gtdIdx addr' haddr'
      have hne : addr' ≠ addr := by
        rintro rfl
        rw [hfc] at hfc'
        cases hfc'
        rw [hg] at hheld
        apply hheld haddr'
      use fc', by simp [lruDelete, hne, hfc'], hg
    misses := h.misses

/-- A dirty entry that no request holds is evicted. -/
theorem Inv.holdDirty {addr : ℕ} {fc : FineCache} (h : r.Inv)
    (hfc : r.map.cache.heap addr = some fc) (n : ℤ)
    (hheld : addr ∉ PendingReq.targets (r.map.pendingReq (getGtdIdx fc.lba))) :
  Inv ⟨FineMap.listInsert { r.map with
      cache := { r.map.cache.store addr { fc with flag := .evicting } with nowEvictingMap := n } }
    (getGtdIdx fc.lba) (.evictionr addr), r.last⟩
  where
    sound := by
      have hlba : ({ fc with flag := .evicting } : FineCache).lba = fc.lba := rfl
      use (h.sound.wf.store hfc hlba).counters n _
      have howe := h.sound.coherent.owe (h.sound.wf.lines_eq hfc)
      have hline : (⟨(line fc).value, true⟩ : Line ℕ) = line { fc with flag := .evicting } := rfl
      rw [hline, ← h.sound.wf.lines_store hfc hlba] at howe
      apply howe
    state := h.state
    nodup gtdIdx := by
      rcases eq_or_ne gtdIdx (getGtdIdx fc.lba) with rfl | hg
      · simp only [FineMap.listInsert, Function.update_self, PendingReq.targets_append,
          PendingReq.targets_evictionr, PendingReq.targets_nil]
        rw [List.perm_append_comm.nodup_iff]
        apply List.nodup_cons.mpr ⟨hheld, h.nodup _⟩
      · simpa [FineMap.listInsert, hg] using h.nodup gtdIdx
    alive gtdIdx addr' haddr' := by
      rcases eq_or_ne addr' addr with rfl | ha
      · use { fc with flag := .evicting }, by simp [FineMap.listInsert, store]
        by_contra hg
        have haddr' : addr' ∈ PendingReq.targets (r.map.pendingReq gtdIdx) := by
          simpa [FineMap.listInsert, Ne.symm hg] using haddr'
        obtain ⟨fc', hfc', hg'⟩ := h.alive gtdIdx addr' haddr'
        rw [hfc] at hfc'
        cases hfc'
        apply hg hg'
      · have hold : addr' ∈ PendingReq.targets (r.map.pendingReq gtdIdx) := by
          rcases eq_or_ne gtdIdx (getGtdIdx fc.lba) with rfl | hg
          · simpa [FineMap.listInsert, PendingReq.targets_append, ha] using haddr'
          · simpa [FineMap.listInsert, hg] using haddr'
        obtain ⟨fc', hfc', hg⟩ := h.alive gtdIdx addr' hold
        use fc', by simp [FineMap.listInsert, store, ha, hfc'], hg
    misses gtdIdx lba write hmem := by
      rcases eq_or_ne gtdIdx (getGtdIdx fc.lba) with rfl | hg
      · simp only [FineMap.listInsert, Function.update_self, List.mem_append, List.mem_singleton,
          reduceCtorEq, or_false] at hmem
        apply h.misses _ lba write hmem
      · simp only [FineMap.listInsert, Function.update_of_ne hg] at hmem
        apply h.misses gtdIdx lba write hmem

/-- `fine_get_eviction_entry`, for an entry that no request holds. -/
theorem Inv.getEvictionEntry (h : r.Inv) (hheld : r.map.heldVictim = false) :
  Meets NotFreed (fun map => Inv ⟨map, r.last⟩) (r.map.exec bitQuery .getEvictionEntry)
  := by
  have hlru : ∀ addr ∈ r.map.cache.lru.reverse, ∃ fc, r.map.cache.heap addr = some fc := by
    intro addr haddr
    apply h.sound.wf.lru addr (List.mem_reverse.mp haddr)
  have hfound := victim_meets hlru
  unfold FineMap.heldVictim at hheld
  unfold FineMap.exec FineCacheMonitor.getEvictionEntry
  cases hv : r.map.cache.victim r.map.cache.lru.reverse with
  | error e =>
      rw [hv] at hfound
      apply hfound
  | ok found =>
      rw [hv] at hfound hheld
      cases found with
      | none => apply h
      | some addr =>
          obtain ⟨fc, hfc⟩ := hfound addr rfl
          have hheld : addr ∉ PendingReq.targets (r.map.pendingReq (getGtdIdx fc.lba)) := by
            simpa [hfc] using hheld
          apply Meets.bind (Q := fun st => Meets NotFreed (fun map => Inv ⟨map, r.last⟩)
            (FineMap.waitEviction { r.map with cache := st.1 } st.2))
          · apply (deref_meets hfc).bind
            rintro fc rfl
            apply (checkPpa_meets bitQuery _).bind
            intro _ _
            split
            · rename_i hclean
              apply h.freeClean hfc hclean hheld
            · have hstored : (r.map.cache.store addr { fc with flag := .evicting }).heap addr
                  = some { fc with flag := .evicting } := Function.update_self ..
              apply (deref_meets hstored).bind
              rintro _ rfl
              apply h.holdDirty hfc _ hheld
          · intro st hst
            apply hst

/-- The requests of a page are completed, but for `reqs`. -/
theorem Inv.completed {gtdIdx : ℕ} {b : PendingBuffer} {last : ℕ → ℕ} (h : r.Inv)
    (reqs : List PendingReq) (hs : b.cache.Sound (r.map.current gtdIdx b) last)
    (hstate : b.cache.gtdInternalState = if b.isUpdateMapping
      then Function.update r.map.cache.gtdInternalState gtdIdx true
      else r.map.cache.gtdInternalState)
    (hf : Follows (· ∈ PendingReq.targets (r.map.pendingReq gtdIdx)) r.map.cache b.cache)
    (hnodup : (PendingReq.targets reqs).Nodup)
    (hsub : ∀ req ∈ reqs, req ∈ r.map.pendingReq gtdIdx)
    (halive : ∀ addr ∈ PendingReq.targets reqs,
      ∃ fc, b.cache.heap addr = some fc ∧ getGtdIdx fc.lba = gtdIdx) :
  Inv ⟨{ r.map.writeUpdatedMap gtdIdx b with
    pendingReq := Function.update r.map.pendingReq gtdIdx reqs }, last⟩
  where
    sound := by
      unfold FineMap.current at hs
      unfold FineMap.writeUpdatedMap
      split at hs
      · rename_i hu
        simp only [hu, if_true]
        rw [FineMap.flash_write]
        apply hs
      · rename_i hu
        simp only [hu, Bool.false_eq_true, if_false]
        apply hs
    state gtdIdx' := by
      simp only [FineMap.writeUpdatedMap, hstate]
      split
      · rcases eq_or_ne gtdIdx' gtdIdx with rfl | hg
        · simp
        · simpa [hg] using h.state gtdIdx'
      · apply h.state gtdIdx'
    nodup gtdIdx' := by
      rcases eq_or_ne gtdIdx' gtdIdx with rfl | hg
      · simpa using hnodup
      · simpa [hg] using h.nodup gtdIdx'
    alive gtdIdx' addr haddr := by
      rcases eq_or_ne gtdIdx' gtdIdx with rfl | hg
      · apply halive addr (by simpa using haddr)
      · have haddr : addr ∈ PendingReq.targets (r.map.pendingReq gtdIdx') := by
          simpa [hg] using haddr
        obtain ⟨fc, hfc, hg'⟩ := h.alive gtdIdx' addr haddr
        have hother : addr ∉ PendingReq.targets (r.map.pendingReq gtdIdx) := by
          intro hmem
          obtain ⟨fc', hfc', hg''⟩ := h.alive gtdIdx addr hmem
          rw [hfc] at hfc'
          cases hfc'
          apply hg (hg'.symm.trans hg'')
        obtain ⟨fc', hfc', hlba⟩ := hf.retains hother hfc
        use fc', hfc', by rw [hlba, hg']
    misses gtdIdx' lba write hmem := by
      have hold : getGtdIdx lba = gtdIdx' ∧ (r.map.page gtdIdx').isSome = true := by
        rcases eq_or_ne gtdIdx' gtdIdx with rfl | hg
        · simp only [Function.update_self] at hmem
          apply h.misses gtdIdx' lba write (hsub _ hmem)
        · simp only [Function.update_of_ne hg] at hmem
          apply h.misses gtdIdx' lba write hmem
      use hold.1
      simp only [FineMap.writeUpdatedMap]
      split
      · rcases eq_or_ne gtdIdx' gtdIdx with rfl | hg
        · simp
        · simpa [hg] using hold.2
      · apply hold.2

/-- `demand_map_fine_type_pending`. -/
theorem Inv.pending (h : r.Inv) (gtdIdx : ℕ) :
  Meets NotFreed (fun map => Inv ⟨map,
      assign r.last (PendingReq.writes (r.map.pendingReq gtdIdx))⟩)
    (r.map.fineTypePending bitQuery gtdIdx)
  := by
  have hstart : FineMap.Pending r.map gtdIdx r.last (r.map.pendingReq gtdIdx)
      ⟨r.map.cache, r.map.buffer gtdIdx, false⟩ :=
    ⟨h.sound, fun _ => ⟨rfl, rfl⟩, nofun, .of_heap_eq rfl, h.nodup gtdIdx, fun _ hreq => hreq,
      h.alive gtdIdx⟩
  apply (hstart.turns (h.misses gtdIdx) (h.state gtdIdx)).bind
  intro b hb
  apply h.completed [] hb.sound _ hb.follows List.nodup_nil nofun nofun
  split
  · rename_i hu
    apply (hb.changed hu).2
  · rename_i hu
    apply (hb.start (by simpa using hu)).2

/-- The completion of one eviction. -/
theorem Inv.complete (h : r.Inv) (gtdIdx addr : ℕ) (batch : Bool) :
  Meets NotFreed (fun map => Inv ⟨map, r.last⟩)
    (r.map.exec bitQuery (.updateEvictionTargetTranslation gtdIdx addr batch))
  := by
  apply (meets_require (by decide)).bind
  intro _ hmem
  have hmem := PendingReq.mem_targets.mpr hmem
  obtain ⟨fc, hfc, hg⟩ := h.alive gtdIdx addr hmem
  have hdata := FineMap.paged_clearFirst (h.state gtdIdx)
  apply (updateEvictionTargetTranslation_meets h.sound hdata hfc hg batch).bind
  rintro ⟨fcm, value⟩ ⟨hc, -⟩
  apply h.completed (b := ⟨fcm, value, true⟩) ((r.map.pendingReq gtdIdx).erase (.evictionr addr))
    hc.sound hc.state
  · apply hc.follows.mono
    rintro addr' rfl
    apply hmem
  · rw [PendingReq.targets_erase]
    apply (h.nodup gtdIdx).erase addr
  · intro req hreq
    apply List.mem_of_mem_erase hreq
  · intro addr' haddr'
    rw [PendingReq.targets_erase, (h.nodup gtdIdx).mem_erase_iff] at haddr'
    obtain ⟨fc', hfc', hg'⟩ := h.alive gtdIdx addr' haddr'.2
    obtain ⟨fc'', hfc'', hlba⟩ := hc.follows.retains haddr'.1 hfc'
    use fc'', hfc'', by rw [hlba, hg']

/-! ### Runs -/

/-- The entry that a call chooses for eviction is not held by a request. -/
def Unheld (r : FineRecord) (call : (ℕ → Bool) × FineCall) : Prop :=
  match call.2 with
  | .getEvictionEntry => r.map.heldVictim = false
  | _ => True

instance (r : FineRecord) (call : (ℕ → Bool) × FineCall) : Decidable (r.Unheld call) := by
  unfold Unheld
  split
  · infer_instance
  · infer_instance

/-- Every call keeps the invariant, unless it chooses an entry that is held. -/
theorem step_inv (h : r.Inv) {call : (ℕ → Bool) × FineCall} (hu : r.Unheld call) :
  Meets NotFreed Inv (r.step call)
  := by
  obtain ⟨bitQuery, call⟩ := call
  cases call with
  | updateEntry lba ppa =>
      apply Meets.bind (Q := fun map => Inv ⟨map, Function.update r.last lba ppa⟩)
      · apply (updateEntry_meets h.sound lba ppa).bind
        intro st hst
        apply h.kept hst
      · intro map hmap
        apply hmap
  | updateEntryGc lba ppa =>
      apply Meets.bind (Q := fun map => Inv ⟨map, _⟩)
      · apply (updateEntryGc_meets h.sound lba ppa).bind
        intro st hst
        apply h.kept hst
      · intro map hmap
        change Inv ⟨map, assign r.last
          (if r.map.cache.populatedCacheEntry lba then [(lba, ppa)] else [])⟩
        split at hmap
        · rename_i hp
          rw [if_pos hp]
          apply hmap
        · rename_i hp
          rw [if_neg hp]
          apply hmap
  | getMapping lba =>
      apply Meets.bind (Q := fun map => Inv ⟨map, r.last⟩)
      · apply (getMapping_meets h.sound lba).bind
        intro st hst
        apply h.kept hst
      · intro map hmap
        apply hmap
  | insertEntryFromTranslation lba =>
      apply Meets.bind (Q := fun map => Inv ⟨map, r.last⟩)
      · apply (meets_orThrow fun _ => by decide).bind
        intro data hdata
        have hm : r.map.flash lba = data (transOffset lba) := by simp [FineMap.flash, hdata]
        apply (insertEntryFromTranslation_meets h.sound hm).bind
        intro fcm hfcm
        apply h.kept hfcm
      · intro map hmap
        apply hmap
  | missRead lba write =>
      apply Meets.bind (Q := fun map => Inv ⟨map, r.last⟩)
      · apply (meets_require (by decide)).bind
        intro _ hp
        apply h.missRead write hp
      · intro map hmap
        apply hmap
  | getEvictionEntry =>
      apply (h.getEvictionEntry hu).bind
      intro map hmap
      apply hmap
  | updateEvictionTargetTranslation gtdIdx addr batch =>
      apply (h.complete gtdIdx addr batch).bind
      intro map hmap
      apply hmap
  | pending gtdIdx =>
      apply (h.pending gtdIdx).bind
      intro map hmap
      apply hmap

/-- No mapping is lost in a run that never chooses an entry for eviction while a request holds
it: no freed entry is used, the address of every lba, in the cache if it is there and else in
its translation page, is the one last assigned to it, and a clean entry has the address of its
translation page. -/
theorem fine_loses_no_mapping (calls : List ((ℕ → Bool) × FineCall))
    (hG : Guarded step Unheld init calls) :
  Meets NotFreed (fun r =>
      (∀ lba, view r.map.cache.lines r.map.flash lba = r.last lba) ∧
      ∀ addr fc, r.map.cache.heap addr = some fc → fc.flag = .clean → r.map.flash fc.lba = fc.ppa)
    (run step init calls)
  := by
  apply (meets_run (fun _ _ hr hu => step_inv hr hu) init_inv hG).mono
  intro r h
  use h.sound.coherent.view_eq
  intro addr fc hfc hclean
  apply h.sound.coherent.clean (h.sound.wf.lines_eq hfc)
  simp [line, hclean]

/-- All pages are valid. -/
def allValid (calls : List FineCall) : List ((ℕ → Bool) × FineCall) :=
  calls.map fun call => (fun _ => true, call)

/-- An entry of translation page `0` is evicted, and the page is written. -/
def evictFirst : List FineCall :=
  [.updateEntry 7 99, .getEvictionEntry, .updateEvictionTargetTranslation 0 0 true]

/-- Two entries of the page are written after a miss.  They are evicted at once, and one of them is
updated before the completion. -/
def evictTwo : List FineCall :=
  evictFirst ++ [.missRead 5 (some 100), .missRead 6 (some 101), .pending 0, .getEvictionEntry,
    .getEvictionEntry, .updateEntryGc 6 201, .pending 0]

theorem fine_loses_no_mapping_evictTwo :
  Guarded step Unheld init (allValid evictTwo) ∧
  Meets NotFreed (fun r =>
      (∀ lba, view r.map.cache.lines r.map.flash lba = r.last lba) ∧
      ∀ addr fc, r.map.cache.heap addr = some fc → fc.flag = .clean → r.map.flash fc.lba = fc.ppa)
    (run step init (allValid evictTwo)) ∧
  (run step init (allValid evictTwo)).map (fun r => [5, 6, 7].map r.map.flash)
    = .ok [100, 201, 99]
  := by
  have hG : Guarded step Unheld init (allValid evictTwo) := by decide +kernel
  refine ⟨hG, fine_loses_no_mapping _ hG, by decide +kernel⟩

/-- An entry that is being evicted to the page in flash is moved by a garbage collection.  It is
dirty again, still the one used longest ago, and the next eviction chooses it too. -/
def evictTwice : List FineCall :=
  evictFirst ++ [.missRead 5 (some 100), .pending 0, .getEvictionEntry, .updateEntryGc 5 200,
    .getEvictionEntry, .pending 0]

/-- The first of the two requests frees the entry, and the other one uses it. -/
theorem evictTwice_useAfterFree :
  ¬ ∀ calls : List ((ℕ → Bool) × FineCall), Meets NotFreed (fun r =>
      (∀ lba, view r.map.cache.lines r.map.flash lba = r.last lba) ∧
      ∀ addr fc, r.map.cache.heap addr = some fc → fc.flag = .clean → r.map.flash fc.lba = fc.ppa)
    (run step init calls)
  := by
  intro h
  have hfreed : (run step init (allValid evictTwice)).map (fun _ => ())
      = .error .useAfterFree := by decide +kernel
  have hm := h (allValid evictTwice)
  cases hr : run step init (allValid evictTwice) with
  | error e =>
      rw [hr] at hfreed hm
      cases hfreed
      apply hm rfl
  | ok r =>
      rw [hr] at hfreed
      cases hfreed

end FineRecord

end AppL
