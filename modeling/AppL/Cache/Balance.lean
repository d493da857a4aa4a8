import AppL.Cache.Accounting

/-!
# The books of the cache layer

Every operation of the cache layer keeps the books of the page cache, unless it takes one of
four ways: a lookup of a page that has neither been cached nor written, an update of a page
that a user read is waiting for, a forced eviction of such an index, and an index that is
larger than the cache.
-/

namespace AppL

open Transition Ledger PcSet

namespace CacheLayer

variable {g : Geometry} {c c' : CacheLayer}

/-- The invariant between two operations: the books are balanced, the cache is not too large,
and no page is occupied but not asked for. -/
structure Settled (c : CacheLayer) : Prop where
  books : Books c.pcs
  now : c.pcs.nowCachedSize ≤ c.pcs.maxCachedSize
  occupied : ∀ k, c.pcs.flags k ≠ some .occupied

variable (g c) in
/-- The operation does not take one of the ways that spoil the books. -/
def KeepsBooks : Op → Prop
  | .scRead lba _ => c.pcs.scPinning = true
      ∨ c.pcs.flags (.shortcut, lba / ridxinpage) ≠ some .empty
      ∨ c.copy (lba / ridxinpage) ≠ none
      ∨ (c.pcs.hasSpace pagesize = false ∧ u32 c.pcs.nowCachedSize < pagesize)
  | .idxRead pba size _ => c.pcs.flags (.idx, pba) = none → size ≤ c.pcs.maxCachedSize
  | .idxInsert pba size => c.pcs.flags (.idx, pba) = none → size ≤ c.pcs.maxCachedSize
  | .scUpdate lbaSet _ => lbaSet.Pairwise (· ≤ ·) ∧ (c.pcs.scPinning = true
      ∨ ∀ i ∈ scTargets lbaSet, c.pcs.flags (.shortcut, i) ≠ some .flying)
  | .idxForceEvict pba => c.pcs.flags (.idx, pba) ≠ some .flying
  | _ => True

theorem flags_eq_some {pcs : PcSet} {k : CacheType × ℕ} {flag : CacheFlag} :
  pcs.flags k = some flag ↔ ∃ pc, pcs.pages k = some pc ∧ pc.flag = flag
  := Option.map_eq_some_iff

theorem loaded_iff {pcs : PcSet} {k : CacheType × ℕ} {pc : PageCache}
    (hp : pcs.pages k = some pc) :
  pc.loaded = true ↔ pcs.flags k = some .clean ∨ pcs.flags k = some .dirty
  := by
  rw [PcSet.flags, hp]
  simp [PageCache.loaded]

/-! ### Reads -/

/-- A page is asked for. -/
theorem Settled.send {type : CacheType} {parents : Option ℕ} {id : ℕ} {pcs : PcSet}
    (h : Books c.pcs) (hnow : c.pcs.nowCachedSize ≤ c.pcs.maxCachedSize)
    (ho : ∀ k ≠ (type, id), c.pcs.flags k ≠ some .occupied)
    (hs : c.pcs.sendGetRequest type parents id = .ok pcs) :
  Settled { c with pcs := pcs }
    ∧ pcs.flags = Function.update c.pcs.flags (type, id) (some .flying)
    ∧ pcs.maxCachedSize = c.pcs.maxCachedSize ∧ pcs.scPinning = c.pcs.scPinning
  := by
  obtain ⟨hb, hflags, hnow', hmax, hpin⟩ := h.send hs
  refine ⟨⟨hb, ?_, ?_⟩, hflags, hmax, hpin⟩
  · dsimp only
    rw [hnow', hmax]
    apply hnow
  · intro k
    dsimp only
    rw [hflags, Function.update_apply]
    split
    · simp
    · rename_i hk
      apply ho k hk

/-- A page that is underway is inserted. -/
theorem Settled.insert {type : CacheType} {id : ℕ} (h : Books c.pcs)
    (ho : ∀ k ≠ (type, id), c.pcs.flags k ≠ some .occupied)
    (hu : c.pcs.flags (type, id) = some .occupied ∨ c.pcs.flags (type, id) = some .flying)
    (hs : setInsert g c type id = .ok c') :
  Settled c' ∧ Evicted (Function.update c.pcs.flags (type, id) (some .clean)) c'.pcs.flags
    ∧ c'.pcs.maxCachedSize = c.pcs.maxCachedSize ∧ c'.pcs.scPinning = c.pcs.scPinning
    ∧ (type = .shortcut → pagesize ≤ c.pcs.maxCachedSize →
      c'.pcs.flags (type, id) = some .clean ∨ c'.pcs.flags (type, id) = some .dirty)
  := by
  obtain ⟨pc, hp, hflag⟩ : ∃ pc, c.pcs.pages (type, id) = some pc
      ∧ (pc.flag = .occupied ∨ pc.flag = .flying) := by
    rcases hu with hu | hu
    · obtain ⟨pc, hp, hf⟩ := flags_eq_some.mp hu
      use pc, hp, .inl hf
    · obtain ⟨pc, hp, hf⟩ := flags_eq_some.mp hu
      use pc, hp, .inr hf
  have hload : pc.loaded = false := by
    rcases hflag with hf | hf
    · simp [PageCache.loaded, hf]
    · simp [PageCache.loaded, hf]
  have hne : pc.flag ≠ .empty := by
    rcases hflag with hf | hf
    · simp [hf]
    · simp [hf]
  obtain ⟨hb, hev, hnow', hmax, hpin, hkeep⟩ := setInsert_books h hp hload hne hs
  refine ⟨⟨hb, hnow', ?_⟩, hev, hmax, hpin, ?_⟩
  · intro k
    apply hev.ne _ (by decide) (by decide)
    rw [Function.update_apply]
    split
    · simp
    · rename_i hk
      apply ho k hk
  · rintro rfl hpage
    have hsize : pc.size = pagesize := h.scSize pc (List.mem_of_getElem? hp)
    obtain ⟨pc', hp', hl'⟩ := hkeep (by omega)
    apply (loaded_iff hp').mp hl'

/-- The pages other than `k` that are neither clean nor dirty have kept their flags. -/
def Keeps (k : CacheType × ℕ) (f f' : CacheType × ℕ → Option CacheFlag) : Prop :=
  ∀ j ≠ k, ∀ flag, flag ≠ .clean → flag ≠ .dirty → f j = some flag → f' j = some flag

theorem Keeps.trans {k : CacheType × ℕ} {f f' f'' : CacheType × ℕ → Option CacheFlag}
    (h : Keeps k f f') (h' : Keeps k f' f'') :
  Keeps k f f''
  := fun j hj flag hc hd hf => h' j hj flag hc hd (h j hj flag hc hd hf)

theorem keeps_update (k : CacheType × ℕ) (f : CacheType × ℕ → Option CacheFlag)
    (o : Option CacheFlag) :
  Keeps k f (Function.update f k o)
  := by
  intro j hj flag _ _ hf
  rw [Function.update_of_ne hj, hf]

theorem keeps_of_evicted {f f' : CacheType × ℕ → Option CacheFlag} (h : Evicted f f')
    (k : CacheType × ℕ) :
  Keeps k f f'
  := fun _ _ _ hc hd hf => h.eq_of hf hc hd

/-- What a lookup of an empty shortcut page leaves of it, by the way it returns. -/
def Left (f : Option CacheFlag) (room : Prop) : ScRead → Prop
  | .waiting => f = some .flying
  | .initial => room → f = some .clean ∨ f = some .dirty
  | .notDone => f = some .empty
  | .hit => False
  | .notFound => False

theorem u32_le {z : ℤ} (h : 0 ≤ z) :
  (u32 z : ℤ) ≤ z
  := by
  unfold u32
  omega

theorem Settled.now_nonneg (h : Settled c) :
  0 ≤ c.pcs.nowCachedSize
  := by
  rw [h.books.ledger.size]
  apply Int.natCast_nonneg

/-- A lookup of an empty page, which has a copy if it is one of a user read. -/
theorem Settled.scMiss {i : ℕ} {parent : Option ℕ} {check : Bool} {res : ScRead}
    (h : Settled c) (hempty : c.pcs.flags (.shortcut, i) = some .empty)
    (hk : check = true → c.copy i ≠ none
      ∨ (c.pcs.hasSpace pagesize = false ∧ u32 c.pcs.nowCachedSize < pagesize))
    (hs : scMiss g c i parent check = .ok (res, c')) :
  Settled c' ∧ c'.pcs.maxCachedSize = c.pcs.maxCachedSize
    ∧ c'.pcs.scPinning = c.pcs.scPinning
    ∧ Keeps (.shortcut, i) c.pcs.flags c'.pcs.flags
    ∧ Left (c'.pcs.flags (.shortcut, i)) (pagesize ≤ c.pcs.maxCachedSize) res
  := by
  unfold CacheLayer.scMiss at hs
  split at hs
  · cases hs
    use h, rfl, rfl, fun _ _ _ _ _ hf => hf, hempty
  · rename_i hroom
    obtain ⟨c₁, h₁, hs⟩ := bind_eq_ok.mp hs
    obtain ⟨pcs, h₂, hs⟩ := bind_eq_ok.mp hs
    obtain ⟨pc, hpc, hs⟩ := bind_eq_ok.mp hs
    rw [orThrow_eq_ok] at hpc
    have hev : Evictions c c₁ := by
      unfold makeSpace at h₁
      split at h₁
      · cases h₁
        exact .refl h.books
      · rename_i hspace
        apply evict_books h.books _ h₁
        have hle := u32_le h.now_nonneg
        have hnow := h.now
        have : ¬ u32 c.pcs.nowCachedSize < pagesize := fun hlt =>
          hroom ⟨by simpa using hspace, hlt⟩
        omega
    have hppa : pc.ppa = c₁.copy i := by
      obtain ⟨pc₁, hpc₁, h₂⟩ := bind_eq_ok.mp h₂
      obtain ⟨_, -, h₂⟩ := bind_eq_ok.mp h₂
      cases h₂
      rw [orThrow_eq_ok] at hpc₁
      have hcopy : ((c₁.pcs.cachedSc.set i { pc₁ with
          flag := .occupied, size := pagesize, node := false })[i]?).bind PageCache.ppa
          = c₁.copy i := by
        apply copy_set hpc₁
        rfl
      rw [← hcopy]
      change _ = Option.bind _ _
      change (c₁.pcs.cachedSc.set i _)[i]? = some pc at hpc
      rw [hpc]
      rfl
    obtain ⟨hb, hflags, -, hnow₂, hmax₂, hpin⟩ := hev.books.occupySc h₂
    have ho : ∀ k ≠ (.shortcut, i), pcs.flags k ≠ some .occupied := by
      intro k hki
      rw [hflags, Function.update_of_ne hki]
      apply hev.flags.ne (h.occupied k) (by decide) (by decide)
    have hnow : pcs.nowCachedSize ≤ pcs.maxCachedSize := by
      rw [hnow₂, hmax₂, hev.max]
      apply hev.now.trans h.now
    have hkeep : Keeps (.shortcut, i) c.pcs.flags pcs.flags := by
      rw [hflags]
      apply (keeps_of_evicted hev.flags _).trans (keeps_update _ _ _)
    have hmax : pcs.maxCachedSize = c.pcs.maxCachedSize := hmax₂.trans hev.max
    dsimp only at hs
    cases hpp : pc.ppa with
    | none =>
        rw [hpp] at hs
        cases check with
        | true =>
            exfalso
            rcases hk rfl with hk | hk
            · apply hev.copies i hk (hppa.symm.trans hpp)
            · apply hroom hk
        | false =>
            obtain ⟨c₃, h₃, hs⟩ := bind_eq_ok.mp hs
            cases hs
            obtain ⟨hset, hev₃, hmax₃, hpin₃, hleft⟩ :=
              Settled.insert (c := { c₁ with pcs := pcs }) hb ho (.inl (by
                dsimp only
                rw [hflags, Function.update_self])) h₃
            refine ⟨hset, hmax₃.trans hmax, hpin₃.trans (hpin.trans hev.pinning), ?_, ?_⟩
            · apply (hkeep.trans (keeps_update _ _ _)).trans (keeps_of_evicted hev₃ _)
            · intro hpage
              apply hleft rfl
              dsimp only
              omega
    | some p =>
        rw [hpp] at hs
        obtain ⟨pcs', h₃, hs⟩ := bind_eq_ok.mp hs
        cases hs
        obtain ⟨hset, hflags₃, hmax₃, hpin₃⟩ :=
          Settled.send (c := { c₁ with pcs := pcs }) hb hnow ho h₃
        refine ⟨hset, hmax₃.trans hmax, hpin₃.trans (hpin.trans hev.pinning), ?_, ?_⟩
        · dsimp only at hflags₃ ⊢
          rw [hflags₃]
          apply hkeep.trans (keeps_update _ _ _)
        · dsimp only [Left] at hflags₃ ⊢
          rw [hflags₃, Function.update_self]

/-- `pc_is_cached` changes the order of the list. -/
theorem Settled.isCached {type : CacheType} {id : ℕ} {o : Option PageCache} {pcs : PcSet}
    (h : Settled c) (hs : c.pcs.isCached type id = .ok (o, pcs)) :
  Settled { c with pcs := pcs } ∧ pcs.pages = c.pcs.pages ∧ pcs.flags = c.pcs.flags
    ∧ (∃ lru, pcs = { c.pcs with lru := lru })
    ∧ o = (c.pcs.pages (type, id)).filter (fun pc => pc.flag ≠ .empty)
  := by
  obtain ⟨hb, hpages, ho, lru, hlru⟩ := h.books.isCached hs
  have hflags : pcs.flags = c.pcs.flags := by
    funext k
    rw [PcSet.flags, hpages]
    rfl
  refine ⟨⟨hb, ?_, ?_⟩, hpages, hflags, ⟨lru, hlru⟩, ho⟩
  · dsimp only
    rw [hlru]
    apply h.now
  · intro k
    dsimp only
    rw [hflags]
    apply h.occupied k

/-- A lookup of a page that is not cached. -/
theorem flags_empty {type : CacheType} {id : ℕ} {pc : PageCache}
    (hp : c.pcs.pages (type, id) = some pc)
    (ho : none = (c.pcs.pages (type, id)).filter (fun pc => pc.flag ≠ .empty)) :
  c.pcs.flags (type, id) = some .empty
  := by
  rw [hp] at ho
  rw [PcSet.flags, hp, Option.map_some]
  by_cases he : pc.flag = .empty
  · rw [he]
  · simp [Option.filter, he] at ho

/-- A user lookup of a shortcut page keeps the books unless it reclaims the page. -/
theorem Settled.scRead {lba : ℕ} {req : ℕ} {res : ScRead} (h : Settled c)
    (hk : KeepsBooks c (.scRead lba req)) (hs : scRead g c lba (some req) true = .ok (res, c')) :
  Settled c'
  := by
  unfold CacheLayer.scRead at hs
  split at hs
  · cases hs
    apply h
  · rename_i hpin
    obtain ⟨⟨o, pcs⟩, h₁, hs⟩ := bind_eq_ok.mp hs
    obtain ⟨hset, hpages, hflags, ⟨lru, hlru⟩, ho⟩ := h.isCached h₁
    dsimp only at hs
    split at hs
    · obtain ⟨pc, hp⟩ : ∃ pc, c.pcs.pages (.shortcut, lba / ridxinpage) = some pc := by
        obtain ⟨_, hlt, -⟩ := bind_eq_ok.mp h₁
        rw [require_eq_ok] at hlt
        exact ⟨_, List.getElem?_eq_getElem (hlt rfl)⟩
      have hempty := flags_empty hp ho
      apply (hset.scMiss (by rw [hflags]; exact hempty) _ hs).1
      intro _
      rcases hk with hk | hk | hk | hk
      · exact absurd hk hpin
      · exact absurd hempty hk
      · left
        change (pcs.pages (.shortcut, lba / ridxinpage)).bind PageCache.ppa ≠ none
        rw [hpages]
        apply hk
      · right
        rw [hlru]
        apply hk
    · rename_i pc
      split at hs
      · rename_i hfly
        obtain ⟨pcs', h₂, hs⟩ := bind_eq_ok.mp hs
        cases hs
        apply (Settled.send hset.books hset.now (fun k _ => hset.occupied k) h₂).1
      · rw [if_pos rfl] at hs
        cases hs
        apply hset

/-- `cache_layer_sc_retry`. -/
theorem Settled.scRetry {lba : ℕ} (h : Settled c) (hs : scRetry g c lba = .ok c') :
  Settled c'
  := by
  obtain ⟨pc, hpc, hs⟩ := bind_eq_ok.mp hs
  rw [orThrow_eq_ok] at hpc
  split at hs
  · rename_i hfly
    refine (Settled.insert h.books (fun k _ => h.occupied k) (.inr ?_) hs).1
    exact flags_eq_some.mpr ⟨pc, hpc, hfly⟩
  · cases hs
    apply h

/-- `__cache_idx_check_and_occupy`: the index is cached, or it is underway. -/
theorem Settled.idxCheckAndOccupy {pba size : ℕ} {hit : Bool} (h : Settled c)
    (hk : c.pcs.flags (.idx, pba) = none → size ≤ c.pcs.maxCachedSize)
    (hs : idxCheckAndOccupy g c pba size = .ok (hit, c')) :
  Books c'.pcs ∧ c'.pcs.nowCachedSize ≤ c'.pcs.maxCachedSize
    ∧ (∀ k ≠ (.idx, pba), c'.pcs.flags k ≠ some .occupied)
    ∧ (hit = true → Settled c')
    ∧ (hit = false → c'.pcs.flags (.idx, pba) = some .occupied
      ∨ c'.pcs.flags (.idx, pba) = some .flying)
  := by
  obtain ⟨⟨o, pcs⟩, h₁, hs⟩ := bind_eq_ok.mp hs
  obtain ⟨hset, hpages, hflags, ⟨lru, hlru⟩, ho⟩ := h.isCached h₁
  dsimp only at hs
  split at hs
  · rename_i pc
    cases hs
    use hset.books, hset.now, fun k _ => hset.occupied k, fun _ => hset
    intro hhit
    right
    have hfly : pc.flag = .flying := by simpa using hhit
    dsimp only
    rw [hflags]
    have hp := (Option.filter_eq_some_iff.mp ho.symm).1
    apply flags_eq_some.mpr ⟨pc, hp, hfly⟩
  · have hnone : c.pcs.pages (.idx, pba) = none := by
      cases hp : c.pcs.pages (.idx, pba) with
      | none => rfl
      | some pc =>
          exfalso
          apply h.books.idx pba pc hp
          have hempty := flags_empty hp ho
          rw [PcSet.flags, hp] at hempty
          simpa using hempty
    obtain ⟨c₁, h₂, hs⟩ := bind_eq_ok.mp hs
    obtain ⟨pcs', h₃, hs⟩ := bind_eq_ok.mp hs
    cases hs
    have hsize : size ≤ pcs.maxCachedSize := by
      rw [hlru]
      apply hk
      rw [PcSet.flags, hnone]
      rfl
    have hev := makeSpace_books hset.books hsize h₂
    have hnone₁ : c₁.pcs.pages (.idx, pba) = none := by
      have hf : c₁.pcs.flags (.idx, pba) = none := by
        have hf₀ : pcs.flags (.idx, pba) = none := by
          rw [hflags, PcSet.flags, hnone]
          rfl
        rcases hev.flags (.idx, pba) with hf | ⟨hf, -⟩
        · apply hf.trans hf₀
        · dsimp only at hf
          rw [hf₀] at hf
          simp at hf
      apply Option.map_eq_none_iff.mp hf
    obtain ⟨hb, hflags₃, hnow₃, hmax₃⟩ := hev.books.occupyIdx hnone₁ h₃
    refine ⟨hb, ?_, ?_, ?_, ?_⟩
    · dsimp only
      rw [hnow₃, hmax₃, hev.max]
      apply hev.now.trans hset.now
    · intro k hki
      dsimp only
      rw [hflags₃, Function.update_of_ne hki]
      apply hev.flags.ne (hset.occupied k) (by decide) (by decide)
    · intro hhit
      cases hhit
    · intro _
      left
      dsimp only
      rw [hflags₃, Function.update_self]

/-- `cache_layer_idx_insert`. -/
theorem Settled.idxInsert {pba size : ℕ} (h : Settled c)
    (hk : KeepsBooks c (.idxInsert pba size)) (hs : idxInsert g c pba size = .ok c') :
  Settled c'
  := by
  obtain ⟨⟨hit, c₁⟩, h₁, hs⟩ := bind_eq_ok.mp hs
  obtain ⟨hb, -, ho, hhit, hmiss⟩ := h.idxCheckAndOccupy hk h₁
  dsimp only at hs
  split at hs
  · rename_i hh
    cases hs
    apply hhit hh
  · rename_i hh
    apply (Settled.insert hb ho (hmiss (by simpa using hh)) hs).1

/-- `cache_layer_idx_read`. -/
theorem Settled.idxRead {pba size req : ℕ} {res : Bool} (h : Settled c)
    (hk : KeepsBooks c (.idxRead pba size req))
    (hs : idxRead g c pba size req = .ok (res, c')) :
  Settled c'
  := by
  obtain ⟨⟨hit, c₁⟩, h₁, hs⟩ := bind_eq_ok.mp hs
  obtain ⟨hb, hnow, ho, hhit, -⟩ := h.idxCheckAndOccupy hk h₁
  dsimp only at hs
  split at hs
  · rename_i hh
    cases hs
    apply hhit hh
  · obtain ⟨pcs, h₂, hs⟩ := bind_eq_ok.mp hs
    cases hs
    apply (Settled.send hb hnow ho h₂).1

/-- `cache_layer_idx_retry`. -/
theorem Settled.idxRetry {pba size : ℕ} (h : Settled c) (hs : idxRetry g c pba size = .ok c') :
  Settled c'
  := by
  unfold CacheLayer.idxRetry at hs
  split at hs
  · rename_i hnone
    obtain ⟨pcs, h₁, hs⟩ := bind_eq_ok.mp hs
    obtain ⟨hb, hflags, -, -⟩ := h.books.occupyIdx hnone h₁
    refine (Settled.insert (c := { c with pcs := pcs }) hb ?_ (.inl ?_) hs).1
    · intro k hk
      dsimp only
      rw [hflags, Function.update_of_ne hk]
      apply h.occupied k
    · dsimp only
      rw [hflags, Function.update_self]
  · rename_i pc hpc
    split at hs
    · rename_i hfly
      refine (Settled.insert h.books (fun k _ => h.occupied k) (.inr ?_) hs).1
      exact flags_eq_some.mpr ⟨pc, hpc, hfly⟩
    · cases hs
      apply h

/-- `cache_layer_idx_force_evict`. -/
theorem Settled.idxForceEvict {pba : ℕ} (h : Settled c)
    (hk : KeepsBooks c (.idxForceEvict pba)) (hs : idxForceEvict c pba = .ok c') :
  Settled c'
  := by
  obtain ⟨pcs, h₁, hs⟩ := bind_eq_ok.mp hs
  cases hs
  obtain ⟨hb, hnow, hmax, hflags⟩ := h.books.forceEvict hk (h.occupied _) h₁
  refine ⟨hb, ?_, ?_⟩
  · dsimp only
    rw [hmax]
    apply hnow.trans h.now
  · intro k
    dsimp only
    rcases hflags k with hf | hf
    · rw [hf]
      apply h.occupied k
    · simp [hf]

/-- `cache_layer_get_pending_req`. -/
theorem Settled.getPendingReq {type : CacheType} {id : ℕ} {rs : List ℕ} (h : Settled c)
    (hs : getPendingReq c type id = .ok (rs, c')) :
  Settled c'
  := by
  unfold CacheLayer.getPendingReq at hs
  cases type with
  | shortcut =>
      obtain ⟨_, -, hs⟩ := bind_eq_ok.mp hs
      cases hs
      use h.books.congr rfl rfl (.refl _) rfl rfl rfl, h.now, h.occupied
  | idx =>
      obtain ⟨_, -, hs⟩ := bind_eq_ok.mp hs
      cases hs
      use h.books.congr rfl rfl (.refl _) rfl rfl rfl, h.now, h.occupied

/-! ### Updates by a compaction -/

/-- `pc_set_update` of a page that is clean or dirty. -/
theorem Settled.setUpdate {i : ℕ} (h : Settled c)
    (hl : c.pcs.flags (.shortcut, i) = some .clean ∨ c.pcs.flags (.shortcut, i) = some .dirty)
    (hs : setUpdate c i = .ok c') :
  Settled c' ∧ c'.pcs.flags = Function.update c.pcs.flags (.shortcut, i) (some .dirty)
    ∧ c'.pcs.maxCachedSize = c.pcs.maxCachedSize ∧ c'.pcs.scPinning = c.pcs.scPinning
  := by
  obtain ⟨pcs, h₁, hs⟩ := bind_eq_ok.mp hs
  cases hs
  have hpin : pcs.scPinning = c.pcs.scPinning := by
    obtain ⟨_, -, h₁⟩ := bind_eq_ok.mp h₁
    cases h₁
    rfl
  obtain ⟨pc, hp⟩ : ∃ pc, c.pcs.pages (.shortcut, i) = some pc := by
    rcases hl with hl | hl
    · obtain ⟨pc, hp, -⟩ := flags_eq_some.mp hl
      use pc, hp
    · obtain ⟨pc, hp, -⟩ := flags_eq_some.mp hl
      use pc, hp
  obtain ⟨hb, hflags, hnow, hmax⟩ := h.books.update hp ((loaded_iff hp).mpr hl) h₁
  refine ⟨⟨hb, ?_, ?_⟩, hflags, hmax, hpin⟩
  · dsimp only
    rw [hnow, hmax]
    apply h.now
  · intro k
    dsimp only
    rw [hflags, Function.update_apply]
    split
    · simp
    · apply h.occupied k

/-- The pages that are cached are updated, and the pages that are left are empty. -/
theorem Settled.updateCached {l : List ℕ} :
  ∀ {rest : List ℕ} {c c' : CacheLayer}, Settled c →
    (∀ i ∈ l, c.pcs.flags (.shortcut, i) ≠ some .flying) →
      updateCached c l = .ok (rest, c') →
        Settled c' ∧ c'.pcs.scPinning = c.pcs.scPinning ∧ rest.Sublist l
          ∧ (∀ i ∈ rest, c'.pcs.flags (.shortcut, i) = some .empty)
          ∧ ∀ k, c.pcs.flags k = some .empty → c'.pcs.flags k = some .empty
  := by
  induction l with
  | nil =>
      intro rest c c' h _ hs
      cases hs
      refine ⟨h, rfl, .slnil, ?_, fun _ hk => hk⟩
      intro i hi
      cases hi
  | cons i l ih =>
      intro rest c c' h hfly hs
      obtain ⟨⟨o, pcs⟩, h₁, hs⟩ := bind_eq_ok.mp hs
      obtain ⟨hset, hpages, hflags, ⟨lru, hlru⟩, ho⟩ := h.isCached h₁
      have hpin : pcs.scPinning = c.pcs.scPinning := by rw [hlru]
      have hfly' : ∀ j ∈ l, pcs.flags (.shortcut, j) ≠ some .flying := by
        intro j hj
        rw [hflags]
        apply hfly j (List.mem_cons_of_mem i hj)
      dsimp only at hs
      cases o with
      | some pc =>
          obtain ⟨c₁, h₂, hs⟩ := bind_eq_ok.mp hs
          obtain ⟨hp, hne⟩ := Option.filter_eq_some_iff.mp ho.symm
          have hf : c.pcs.flags (.shortcut, i) = some pc.flag := flags_eq_some.mpr ⟨pc, hp, rfl⟩
          have hloaded : pcs.flags (.shortcut, i) = some .clean
              ∨ pcs.flags (.shortcut, i) = some .dirty := by
            have h₃ := hfly i List.mem_cons_self
            have h₄ := h.occupied (.shortcut, i)
            rw [hf] at h₃ h₄
            rw [hflags, hf]
            cases hflag : pc.flag with
            | empty => simp [hflag] at hne
            | occupied => simp [hflag] at h₄
            | flying => simp [hflag] at h₃
            | dirty => simp
            | clean => simp
          obtain ⟨hset₂, hflags₂, -, hpin₂⟩ := hset.setUpdate hloaded h₂
          have hfly₂ : ∀ j ∈ l, c₁.pcs.flags (.shortcut, j) ≠ some .flying := by
            intro j hj
            rw [hflags₂, Function.update_apply]
            split
            · simp
            · apply hfly' j hj
          obtain ⟨h₅, hpin₅, hsub, hrest, hkeep⟩ := ih hset₂ hfly₂ hs
          use h₅, hpin₅.trans (hpin₂.trans hpin), hsub.cons i, hrest
          intro k hk
          apply hkeep
          rw [hflags₂, Function.update_of_ne]
          · dsimp only
            rw [hflags]
            apply hk
          · rintro rfl
            rw [hflags, hk] at hloaded
            simp at hloaded
      | none =>
          obtain ⟨⟨rest', c₁⟩, h₂, hs⟩ := bind_eq_ok.mp hs
          cases hs
          obtain ⟨pc, hp⟩ : ∃ pc, c.pcs.pages (.shortcut, i) = some pc := by
            obtain ⟨_, hlt, -⟩ := bind_eq_ok.mp h₁
            rw [require_eq_ok] at hlt
            exact ⟨_, List.getElem?_eq_getElem (hlt rfl)⟩
          obtain ⟨h₅, hpin₅, hsub, hrest, hkeep⟩ := ih hset hfly' h₂
          dsimp only at hkeep
          rw [hflags] at hkeep
          refine ⟨h₅, hpin₅.trans hpin, hsub.cons_cons i, ?_, hkeep⟩
          intro j hj
          rcases List.mem_cons.mp hj with rfl | hj
          · apply hkeep _ (flags_empty hp ho)
          · apply hrest j hj

/-- The pages other than the shortcut pages of a list that are neither clean nor dirty have
kept their flags. -/
def KeepsAll (l : List ℕ) (f f' : CacheType × ℕ → Option CacheFlag) : Prop :=
  ∀ k, (∀ i ∈ l, k ≠ (.shortcut, i)) → ∀ flag, flag ≠ .clean → flag ≠ .dirty →
    f k = some flag → f' k = some flag

theorem Keeps.cons {i : ℕ} {l : List ℕ} {f f' f'' : CacheType × ℕ → Option CacheFlag}
    (h : Keeps (.shortcut, i) f f') (h' : KeepsAll l f' f'') :
  KeepsAll (i :: l) f f''
  := by
  intro k hk flag hc hd hf
  apply h' k (fun j hj => hk j (List.mem_cons_of_mem i hj)) flag hc hd
  apply h k (hk i List.mem_cons_self) flag hc hd hf

/-- The internal lookup of an empty page. -/
theorem Settled.scReadEmpty {i : ℕ} {res : ScRead} (h : Settled c)
    (hpin : c.pcs.scPinning = false) (hempty : c.pcs.flags (.shortcut, i) = some .empty)
    (hs : CacheLayer.scRead g c (i * ridxinpage) none false = .ok (res, c')) :
  Settled c' ∧ c'.pcs.maxCachedSize = c.pcs.maxCachedSize
    ∧ c'.pcs.scPinning = c.pcs.scPinning
    ∧ Keeps (.shortcut, i) c.pcs.flags c'.pcs.flags
    ∧ Left (c'.pcs.flags (.shortcut, i)) (pagesize ≤ c.pcs.maxCachedSize) res
  := by
  have hdiv : i * ridxinpage / ridxinpage = i := Nat.mul_div_cancel i (by decide)
  unfold CacheLayer.scRead at hs
  rw [if_neg (by simp [hpin]), hdiv] at hs
  obtain ⟨⟨o, pcs⟩, h₁, hs⟩ := bind_eq_ok.mp hs
  obtain ⟨hset, hpages, hflags, ⟨lru, hlru⟩, ho⟩ := h.isCached h₁
  obtain ⟨pc, hp, hflag⟩ := flags_eq_some.mp hempty
  have hnone : o = none := by
    rw [ho, hp]
    simp [Option.filter, hflag]
  subst hnone
  dsimp only at hs
  obtain ⟨h₂, hmax, hpin₂, hkeep, hleft⟩ := hset.scMiss (by
    dsimp only
    rw [hflags]
    exact hempty) (by simp) hs
  dsimp only at hmax hpin₂ hkeep hleft
  rw [hflags] at hkeep
  rw [hlru] at hmax hpin₂ hleft
  use h₂, hmax, hpin₂, hkeep, hleft

/-- What a batch of requests leaves: the pages that are being read, and those that are left,
which are empty. -/
structure Requested (c c' : CacheLayer) (l crps rest : List ℕ) : Prop where
  settled : Settled c'
  max : c'.pcs.maxCachedSize = c.pcs.maxCachedSize
  pinning : c'.pcs.scPinning = c.pcs.scPinning
  sublist : (crps ++ rest).Sublist l
  flying : ∀ i ∈ crps, c'.pcs.flags (.shortcut, i) = some .flying
  empty : ∀ i ∈ rest, c'.pcs.flags (.shortcut, i) = some .empty
  keeps : KeepsAll l c.pcs.flags c'.pcs.flags
  room : crps = [] ∨ pagesize ≤ c.pcs.maxCachedSize

theorem Settled.requestBatch {l : List ℕ} :
  ∀ {batch : ℕ} {crps rest : List ℕ} {c c' : CacheLayer}, Settled c →
    c.pcs.scPinning = false → l.Nodup →
    (∀ i ∈ l, c.pcs.flags (.shortcut, i) = some .empty) →
    (0 < batch → pagesize ≤ c.pcs.maxCachedSize) →
    requestBatch g batch c l = .ok (crps, rest, c') → Requested c c' l crps rest
  := by
  induction l with
  | nil =>
      intro batch crps rest c c' h _ _ _ _ hs
      have : crps = [] ∧ rest = [] ∧ c = c' := by
        cases batch with
        | zero =>
            cases hs
            exact ⟨rfl, rfl, rfl⟩
        | succ batch =>
            cases hs
            exact ⟨rfl, rfl, rfl⟩
      obtain ⟨rfl, rfl, rfl⟩ := this
      refine ⟨h, rfl, rfl, .refl _, ?_, ?_, fun _ _ _ _ _ hf => hf, .inl rfl⟩
      · intro i hi
        cases hi
      · intro i hi
        cases hi
  | cons i l ih =>
      intro batch crps rest c c' h hpin hnd hempty hroom hs
      rw [List.nodup_cons] at hnd
      cases batch with
      | zero =>
          cases hs
          refine ⟨h, rfl, rfl, .refl _, ?_, hempty, fun _ _ _ _ _ hf => hf, .inl rfl⟩
          intro i hi
          cases hi
      | succ batch =>
          have hpage := hroom (Nat.succ_pos batch)
          obtain ⟨⟨res, c₁⟩, h₁, hs⟩ := bind_eq_ok.mp hs
          obtain ⟨hset, hmax, hpin₁, hkeep, hleft⟩ :=
            h.scReadEmpty hpin (hempty i List.mem_cons_self) h₁
          have hempty₁ : ∀ j ∈ l, c₁.pcs.flags (.shortcut, j) = some .empty := by
            intro j hj
            apply hkeep _ _ _ (by decide) (by decide) (hempty j (List.mem_cons_of_mem i hj))
            rintro heq
            cases heq
            apply hnd.1 hj
          dsimp only at hs
          cases res with
          | hit => apply hleft.elim
          | notFound => apply hleft.elim
          | notDone =>
              cases hs
              refine ⟨hset, hmax, hpin₁, .refl _, ?_, ?_, ?_, .inl rfl⟩
              · intro j hj
                cases hj
              · intro j hj
                rcases List.mem_cons.mp hj with rfl | hj
                · apply hleft
                · apply hempty₁ j hj
              · intro k hk
                apply hkeep k (hk i List.mem_cons_self)
          | waiting =>
              obtain ⟨⟨crps', rest', c₂⟩, h₂, hs⟩ := bind_eq_ok.mp hs
              cases hs
              have hreq := ih hset (hpin₁.trans hpin) hnd.2 hempty₁
                (fun _ => by rw [hmax]; exact hpage) h₂
              refine ⟨hreq.settled, hreq.max.trans hmax, hreq.pinning.trans hpin₁, ?_, ?_,
                hreq.empty, hkeep.cons hreq.keeps, .inr hpage⟩
              · apply hreq.sublist.cons_cons i
              · intro j hj
                rcases List.mem_cons.mp hj with rfl | hj
                · apply hreq.keeps _ _ _ (by decide) (by decide) hleft
                  rintro j' hj' heq
                  cases heq
                  apply hnd.1 hj'
                · apply hreq.flying j hj
          | initial =>
              obtain ⟨c₂, h₂, hs⟩ := bind_eq_ok.mp hs
              obtain ⟨hset₂, hflags₂, hmax₂, hpin₂⟩ := hset.setUpdate (hleft hpage) h₂
              have hkeep₂ : Keeps (.shortcut, i) c.pcs.flags c₂.pcs.flags := by
                rw [hflags₂]
                apply hkeep.trans (keeps_update _ _ _)
              have hempty₂ : ∀ j ∈ l, c₂.pcs.flags (.shortcut, j) = some .empty := by
                intro j hj
                rw [hflags₂, Function.update_of_ne, hempty₁ j hj]
                rintro heq
                cases heq
                apply hnd.1 hj
              have hreq := ih hset₂ (hpin₂.trans (hpin₁.trans hpin)) hnd.2 hempty₂
                (fun _ => by rw [hmax₂, hmax]; exact hpage) hs
              refine ⟨hreq.settled, hreq.max.trans (hmax₂.trans hmax),
                hreq.pinning.trans (hpin₂.trans hpin₁), ?_, hreq.flying, hreq.empty,
                hkeep₂.cons hreq.keeps, ?_⟩
              · apply hreq.sublist.cons i
              · rcases hreq.room with hr | hr
                · left
                  apply hr
                · right
                  apply hpage

/-- A page that has been read is inserted and updated. -/
theorem Settled.insertUpdate {i : ℕ} (h : Settled c)
    (hfly : c.pcs.flags (.shortcut, i) = some .flying) (hpage : pagesize ≤ c.pcs.maxCachedSize)
    (hs : insertUpdate g c i = .ok c') :
  Settled c' ∧ c'.pcs.maxCachedSize = c.pcs.maxCachedSize
    ∧ c'.pcs.scPinning = c.pcs.scPinning ∧ Keeps (.shortcut, i) c.pcs.flags c'.pcs.flags
  := by
  obtain ⟨c₁, h₁, hs⟩ := bind_eq_ok.mp hs
  obtain ⟨hset, hev, hmax, hpin, hkeep⟩ :=
    Settled.insert h.books (fun k _ => h.occupied k) (.inr hfly) h₁
  obtain ⟨hset₂, hflags₂, hmax₂, hpin₂⟩ := hset.setUpdate (hkeep rfl hpage) hs
  use hset₂, hmax₂.trans hmax, hpin₂.trans hpin
  rw [hflags₂]
  exact ((keeps_update _ _ _).trans (keeps_of_evicted hev _)).trans (keeps_update _ _ _)

theorem Settled.insertUpdates {order : List ℕ} :
  ∀ {c c' : CacheLayer}, Settled c → order.Nodup →
    (∀ i ∈ order, c.pcs.flags (.shortcut, i) = some .flying) →
    (order = [] ∨ pagesize ≤ c.pcs.maxCachedSize) →
    order.foldlM (CacheLayer.insertUpdate g) c = .ok c' →
      Settled c' ∧ c'.pcs.scPinning = c.pcs.scPinning
        ∧ KeepsAll order c.pcs.flags c'.pcs.flags
  := by
  induction order with
  | nil =>
      intro c c' h _ _ _ hs
      cases hs
      use h, rfl, fun _ _ _ _ _ hf => hf
  | cons i order ih =>
      intro c c' h hnd hfly hroom hs
      rw [List.nodup_cons] at hnd
      rw [List.foldlM_cons] at hs
      obtain ⟨c₁, h₁, hs⟩ := bind_eq_ok.mp hs
      have hpage : pagesize ≤ c.pcs.maxCachedSize := by
        rcases hroom with hr | hr
        · cases hr
        · apply hr
      obtain ⟨hset, hmax, hpin, hkeep⟩ :=
        h.insertUpdate (hfly i List.mem_cons_self) hpage h₁
      have hfly₁ : ∀ j ∈ order, c₁.pcs.flags (.shortcut, j) = some .flying := by
        intro j hj
        apply hkeep _ _ _ (by decide) (by decide) (hfly j (List.mem_cons_of_mem i hj))
        rintro heq
        cases heq
        apply hnd.1 hj
      obtain ⟨hset₂, hpin₂, hkeep₂⟩ := ih hset hnd.2 hfly₁ (.inr (by rw [hmax]; exact hpage)) hs
      use hset₂, hpin₂.trans hpin, hkeep.cons hkeep₂

/-- Batch after batch of empty pages is read and updated. -/
theorem Settled.updateRest {fuel : ℕ} :
  ∀ {orders : List (List ℕ)} {l : List ℕ} {c c' : CacheLayer}, Settled c →
    c.pcs.scPinning = false → l.Nodup →
    (∀ i ∈ l, c.pcs.flags (.shortcut, i) = some .empty) →
    updateRest g fuel orders c l = .ok c' → Settled c'
  := by
  induction fuel with
  | zero =>
      intro orders l c c' h _ _ _ hs
      cases l with
      | nil =>
          cases hs
          apply h
      | cons i l => cases hs
  | succ fuel ih =>
      intro orders l c c' h hpin hnd hempty hs
      cases l with
      | nil =>
          cases hs
          apply h
      | cons i l =>
          obtain ⟨⟨crps, rest, c₁⟩, h₁, hs⟩ := bind_eq_ok.mp hs
          obtain ⟨_, hperm, hs⟩ := bind_eq_ok.mp hs
          obtain ⟨c₂, h₂, hs⟩ := bind_eq_ok.mp hs
          rw [require_eq_ok] at hperm
          have hreq := h.requestBatch hpin hnd hempty
            (fun hb => (Nat.div_pos_iff.mp hb).2) h₁
          have hnd' : (crps ++ rest).Nodup := hreq.sublist.nodup hnd
          rw [List.nodup_append] at hnd'
          have hroom : orders.headD [] = [] ∨ pagesize ≤ c₁.pcs.maxCachedSize := by
            rw [hreq.max]
            rcases hreq.room with hr | hr
            · left
              rw [hr] at hperm
              apply hperm.eq_nil
            · right
              apply hr
          obtain ⟨hset₂, hpin₂, hkeep₂⟩ := hreq.settled.insertUpdates
            (hperm.nodup_iff.mpr hnd'.1)
            (fun j hj => hreq.flying j (hperm.mem_iff.mp hj)) hroom h₂
          apply ih hset₂ (hpin₂.trans (hreq.pinning.trans hpin)) hnd'.2.1 _ hs
          intro j hj
          apply hkeep₂ _ _ _ (by decide) (by decide) (hreq.empty j hj)
          rintro j' hj' heq
          cases heq
          apply hnd'.2.2 j (hperm.mem_iff.mp hj') j hj rfl

/-- The shortcut pages of a sorted list of lbas are distinct. -/
theorem scTargets_nodup {lbaSet : List ℕ} (h : lbaSet.Pairwise (· ≤ ·)) :
  (scTargets lbaSet).Nodup
  := by
  have hmap : (lbaSet.map (· / ridxinpage)).Pairwise (· ≤ ·) := by
    apply h.map
    intro a b hab
    apply Nat.div_le_div_right hab
  have hle : (scTargets lbaSet).Pairwise (· ≤ ·) := hmap.sublist (List.destutter_sublist _ _)
  have hne : (scTargets lbaSet).IsChain (· ≠ ·) := List.isChain_destutter _ _
  have hlt : (scTargets lbaSet).IsChain (· < ·) := by
    rw [List.isChain_iff_getElem] at hne ⊢
    intro i hi
    apply Nat.lt_of_le_of_ne _ (hne i hi)
    apply List.isChain_iff_getElem.mp hle.isChain i hi
  rw [List.isChain_iff_pairwise] at hlt
  apply hlt.imp fun hab => Nat.ne_of_lt hab

/-- `cache_layer_sc_update`. -/
theorem Settled.scUpdate {lbaSet : List ℕ} {orders : List (List ℕ)} (h : Settled c)
    (hk : KeepsBooks c (.scUpdate lbaSet orders))
    (hs : scUpdate g c lbaSet orders = .ok c') :
  Settled c'
  := by
  unfold CacheLayer.scUpdate at hs
  split at hs
  · cases hs
    apply h
  · rename_i hpin
    obtain ⟨hsorted, hk⟩ := hk
    have hfly := hk.resolve_left hpin
    obtain ⟨⟨rest, c₁⟩, h₁, hs⟩ := bind_eq_ok.mp hs
    obtain ⟨hset, hpin₁, hsub, hempty, -⟩ := h.updateCached hfly h₁
    apply hset.updateRest _ (hsub.nodup (scTargets_nodup hsorted)) hempty hs
    rw [hpin₁]
    simpa using hpin

/-! ### Runs -/

/-- The books are balanced after every operation that meets the guard. -/
theorem Settled.apply {op : Op} (h : Settled c) (hk : KeepsBooks c op)
    (hs : apply g c op = .ok c') :
  Settled c'
  := by
  cases op with
  | scRead lba req =>
      obtain ⟨⟨res, c₁⟩, h₁, hs⟩ := bind_eq_ok.mp hs
      cases hs
      apply h.scRead hk h₁
  | scRetry lba => apply h.scRetry hs
  | idxRead pba size req =>
      obtain ⟨⟨res, c₁⟩, h₁, hs⟩ := bind_eq_ok.mp hs
      cases hs
      apply h.idxRead hk h₁
  | idxRetry pba size => apply h.idxRetry hs
  | getPendingReq type id =>
      obtain ⟨⟨rs, c₁⟩, h₁, hs⟩ := bind_eq_ok.mp hs
      cases hs
      apply h.getPendingReq h₁
  | scUpdate lbaSet orders => apply h.scUpdate hk hs
  | idxInsert pba size => apply h.idxInsert hk hs
  | idxForceEvict pba => apply h.idxForceEvict hk hs

/-- A new cache is settled. -/
theorem settled_init (maxCachedSize lbaNum scSeg : ℕ) (scPinning : Bool) :
  Settled (init g maxCachedSize lbaNum scPinning scSeg)
  := by
  have hpages : ∀ k pc, (init g maxCachedSize lbaNum scPinning scSeg).pcs.pages k = some pc →
      pc = ⟨.empty, none, pagesize, false⟩ := by
    rintro ⟨t, i⟩ pc hp
    cases t with
    | shortcut => apply List.eq_of_mem_replicate (List.mem_of_getElem? hp)
    | idx => cases hp
  refine ⟨⟨?_, ?_, ?_, rfl, ?_⟩, ?_, ?_⟩
  · apply Balanced.nil
    intro k w hw
    obtain ⟨pc, hp, rfl⟩ := Option.map_eq_some_iff.mp hw
    rw [hpages k pc hp]
    exact ⟨rfl, rfl⟩
  · change (0 : ℤ) = ((List.replicate _ _).countP _ : ℕ)
    simp [List.countP_replicate]
  · intro pc hpc
    rw [List.eq_of_mem_replicate hpc]
  · intro id pc hp
    cases hp
  · apply Int.natCast_nonneg _
  · intro k hk
    obtain ⟨pc, hp, hf⟩ := flags_eq_some.mp hk
    rw [hpages k pc hp] at hf
    cases hf

/-- The accounts of the page cache: the size is the sum of the sizes of the pages in the LRU
list, the pages in the list are those that are clean or dirty, which are those that have a
node, and the two numbers count the pages that are not empty. -/
structure Accounted (pcs : PcSet) : Prop where
  size : pcs.nowCachedSize = ((pcs.lru.map LruNode.size).sum : ℕ)
  pageSize : ∀ n ∈ pcs.lru, ∃ pc, pcs.pick n.type n.id = some pc ∧ pc.size = n.size
  listed : ∀ type id pc, pcs.pick type id = some pc →
    ((∃ n ∈ pcs.lru, n.type = type ∧ n.id = id) ↔ pc.flag = .clean ∨ pc.flag = .dirty)
      ∧ (pc.node = true ↔ pc.flag = .clean ∨ pc.flag = .dirty)
  scNum : pcs.cachedScNum = pcs.cachedSc.countP (fun pc => pc.flag ≠ .empty)
  idxNum : pcs.cachedIdxNum = pcs.cachedIdx.entries.countP (fun e => e.2.flag ≠ .empty)

theorem accounted_of_books {pcs : PcSet} (h : Books pcs) :
  Accounted pcs
  where
    size := by
      rw [h.ledger.size, PcSet.nodes, List.map_map]
      rfl
    pageSize n hn := by
      obtain ⟨pc, hp, -, hsize⟩ := h.of_mem hn
      use pc, hp, hsize
    listed type id pc hp := by
      have hv : pcs.views (type, id) = some pc.view := by
        rw [PcSet.views, PcSet.pages, hp, Option.map_some]
      obtain ⟨hmem, hnode⟩ := h.ledger.mem_iff hv
      have hload : pc.view.listed = true ↔ pc.flag = .clean ∨ pc.flag = .dirty := by
        simp [PageCache.view, PageCache.loaded]
      rw [← hload, ← hmem]
      refine ⟨?_, hnode.trans hmem.symm⟩
      simp [PcSet.nodes]
    scNum := h.scNum
    idxNum := by
      have hall : pcs.cachedIdx.entries.countP (fun e => e.2.flag ≠ .empty)
          = pcs.cachedIdx.entries.length := by
        rw [List.countP_eq_length]
        intro e he
        have := h.idx e.1 e.2 (AList.mem_lookup_iff.mpr he)
        simpa using this
      rw [hall, h.idxNum, PcSet.idxSize, AList.keys, List.keys, List.length_map]

/-- In every state that is reached by operations none of which spoils the books, the accounts
of the page cache are right. -/
theorem accounted_run {maxCachedSize lbaNum scSeg : ℕ} {scPinning : Bool} {ops : List Op}
    (hk : Guarded (CacheLayer.apply g) KeepsBooks (init g maxCachedSize lbaNum scPinning scSeg)
      ops)
    (hs : run (CacheLayer.apply g) (init g maxCachedSize lbaNum scPinning scSeg) ops = .ok c) :
  Accounted c.pcs
  := by
  have h : Settled c := run_preserves Settled (fun _ _ _ h hk hs => h.apply hk hs)
    (settled_init maxCachedSize lbaNum scSeg scPinning) hk hs
  apply accounted_of_books h.books

instance decidableKeepsBooks : ∀ op, Decidable (KeepsBooks c op)
  | .scRead _ _ => inferInstanceAs (Decidable (_ ∨ _ ∨ _ ∨ _))
  | .scRetry _ => isTrue trivial
  | .idxRead _ _ _ => inferInstanceAs (Decidable (_ → _))
  | .idxRetry _ _ => isTrue trivial
  | .getPendingReq _ _ => isTrue trivial
  | .scUpdate _ _ => inferInstanceAs (Decidable (_ ∧ (_ ∨ _)))
  | .idxInsert _ _ => inferInstanceAs (Decidable (_ → _))
  | .idxForceEvict _ => inferInstanceAs (Decidable (_ ≠ _))

/-! ### A compaction and a first read -/

/-- A compaction updates shortcut page `0` and inserts an index, and a user reads both. -/
def compactAndRead : List Op :=
  [.scUpdate [3, 5] [], .idxInsert 40 100, .scRead 3 1, .idxRead 40 100 1, .scUpdate [30000] [],
    .scUpdate [4] [[0]]]

/-- A cache with room for one page and a small index: page `0` is evicted for page `1`, and
comes back. -/
theorem accounted_compactAndRead :
  ∃ c, run (CacheLayer.apply threePages) (init threePages (pagesize + 200) 30000 false 0)
      compactAndRead = .ok c ∧ c.pcs.lru = [⟨.shortcut, 0, pagesize⟩] ∧ Accounted c.pcs
  := by
  have hk : Guarded (CacheLayer.apply threePages) KeepsBooks
      (init threePages (pagesize + 200) 30000 false 0) compactAndRead := by decide
  obtain ⟨c, hs⟩ : ∃ c, run (CacheLayer.apply threePages)
      (init threePages (pagesize + 200) 30000 false 0) compactAndRead = .ok c := ⟨_, rfl⟩
  refine ⟨c, hs, ?_, accounted_run hk hs⟩
  cases hs
  decide

/-- The first lookup of a new cache, of an lba that has not been written: the page is occupied
and reclaimed, and the size of the cache is negative. -/
theorem not_accounted :
  ¬ ∀ (g : Geometry) (maxCachedSize lbaNum scSeg : ℕ) (scPinning : Bool) (ops : List Op)
    (c : CacheLayer), run (CacheLayer.apply g) (init g maxCachedSize lbaNum scPinning scSeg) ops
      = .ok c → Accounted c.pcs
  := by
  intro h
  obtain ⟨c, hs⟩ : ∃ c, run (CacheLayer.apply threePages)
      (init threePages (4 * pagesize) 30000 false 0) [.scRead 7 1] = .ok c := ⟨_, rfl⟩
  have hsize := (h _ _ _ _ _ _ c hs).size
  cases hs
  revert hsize
  decide

end CacheLayer

end AppL
