import AppL.Lib.Ledger
import AppL.Cache.Copies
import AppL.Cache.Layer

/-!
# The books of the page cache

The LRU list is a ledger of the pages that are clean or dirty.  Its books balance between two
operations of the cache layer, as long as no lookup reclaims a page, no update and no forced
eviction meets a page that is underway, and no index is larger than the cache.
-/

namespace AppL

open Transition Ledger

/-! ### The pages of the cache as a ledger -/

/-- The page is clean or dirty. -/
def PageCache.loaded (pc : PageCache) : Bool := pc.flag = .clean ∨ pc.flag = .dirty

/-- What the ledger knows of a page. -/
def PageCache.view (pc : PageCache) : View := ⟨pc.loaded, pc.node, pc.size⟩

namespace PcSet

variable (pcs : PcSet)

/-- The pages of the cache, by their types and numbers. -/
def pages (k : CacheType × ℕ) : Option PageCache := pcs.pick k.1 k.2

/-- The nodes of the LRU list: the pages they belong to, and their sizes. -/
def nodes : List ((CacheType × ℕ) × ℕ) := pcs.lru.map fun n => ((n.type, n.id), n.size)

/-- The flags of the pages. -/
def flags (k : CacheType × ℕ) : Option CacheFlag := (pcs.pages k).map PageCache.flag

/-- What the ledger knows of the pages. -/
def views (k : CacheType × ℕ) : Option View := (pcs.pages k).map PageCache.view

/-- The invariant of the books.  It does not say which of the other pages are underway. -/
structure Books : Prop where
  ledger : Balanced pcs.views pcs.nodes pcs.nowCachedSize
  scNum : pcs.cachedScNum = pcs.cachedSc.countP (fun pc => pc.flag ≠ .empty)
  scSize : ∀ pc ∈ pcs.cachedSc, pc.size = pagesize
  idxNum : pcs.cachedIdxNum = pcs.idxSize
  idx : ∀ id pc, pcs.cachedIdx.lookup id = some pc → pc.flag ≠ .empty

variable {pcs}

theorem pages_put {type : CacheType} {id : ℕ} {pc pc' : PageCache}
    (h : pcs.pages (type, id) = some pc) :
  (pcs.put type id pc').pages = Function.update pcs.pages (type, id) (some pc')
  := by
  funext k
  obtain ⟨t, j⟩ := k
  rw [Function.update_apply]
  cases type with
  | shortcut =>
      cases t with
      | shortcut =>
          change (pcs.cachedSc.set id pc')[j]? = if _ then _ else pcs.cachedSc[j]?
          have hid := (List.getElem?_eq_some_iff.mp h).1
          by_cases hj : j = id
          · subst hj
            rw [if_pos rfl, List.getElem?_set_self hid]
          · rw [if_neg (by simp [hj]), List.getElem?_set_ne fun h => hj h.symm]
      | idx => rfl
  | idx =>
      cases t with
      | shortcut => rfl
      | idx =>
          change (pcs.cachedIdx.insert id pc').lookup j = if _ then _ else pcs.cachedIdx.lookup j
          by_cases hj : j = id
          · subst hj
            rw [if_pos rfl, AList.lookup_insert]
          · rw [if_neg (by simp [hj]), AList.lookup_insert_ne hj]

theorem views_eq_update {pcs' : PcSet} {k : CacheType × ℕ} {o : Option PageCache}
    (h : pcs'.pages = Function.update pcs.pages k o) :
  pcs'.views = Function.update pcs.views k (o.map PageCache.view)
  := by
  funext j
  rw [views, h, Function.update_apply, Function.update_apply]
  split
  · rfl
  · rfl

theorem flags_eq_update {pcs' : PcSet} {k : CacheType × ℕ} {o : Option PageCache}
    (h : pcs'.pages = Function.update pcs.pages k o) :
  pcs'.flags = Function.update pcs.flags k (o.map PageCache.flag)
  := by
  funext j
  rw [flags, h, Function.update_apply, Function.update_apply]
  split
  · rfl
  · rfl

/-- The number of shortcut pages that are not empty, when one of them changes. -/
theorem countP_set {l : List PageCache} {i : ℕ} {pc pc' : PageCache} (h : l[i]? = some pc) :
  ((l.set i pc').countP (fun pc => pc.flag ≠ .empty) : ℤ)
    = l.countP (fun pc => pc.flag ≠ .empty) - (if pc.flag = .empty then 0 else 1)
      + (if pc'.flag = .empty then 0 else 1)
  := by
  obtain ⟨hi, rfl⟩ := List.getElem?_eq_some_iff.mp h
  have hpos : l[i].flag ≠ .empty → 0 < l.countP (fun pc => pc.flag ≠ .empty) := by
    intro hne
    rw [List.countP_pos_iff]
    use l[i], List.getElem_mem hi, by simpa using hne
  rw [List.countP_set hi]
  simp only [decide_eq_true_eq]
  by_cases h₁ : l[i].flag = .empty
  · by_cases h₂ : pc'.flag = .empty
    · simp [h₁, h₂]
    · simp [h₁, h₂]
  · have := hpos h₁
    rw [if_pos h₁, if_neg h₁]
    by_cases h₂ : pc'.flag = .empty
    · rw [if_neg (by simpa using h₂), if_pos h₂]
      omega
    · rw [if_pos h₂, if_neg h₂]
      omega

/-- The size of a page that is changed does not change the sizes of the shortcut pages. -/
theorem size_set {l : List PageCache} {i : ℕ} {pc' : PageCache} (h : ∀ pc ∈ l, pc.size = pagesize)
    (h' : pc'.size = pagesize) :
  ∀ pc ∈ l.set i pc', pc.size = pagesize
  := by
  intro pc hpc
  rcases List.mem_or_eq_of_mem_set hpc with hpc | rfl
  · apply h pc hpc
  · apply h'

theorem idxSize_insert {id : ℕ} {pc pc' : PageCache} (h : pcs.cachedIdx.lookup id = some pc) :
  (pcs.cachedIdx.insert id pc').keys.length = pcs.idxSize
  := by
  have hmem : id ∈ pcs.cachedIdx.keys := by
    rw [← AList.mem_keys, ← AList.lookup_isSome, h]
    rfl
  have hpos := List.length_pos_of_mem hmem
  rw [AList.keys_insert, List.length_cons, List.length_erase_of_mem hmem, idxSize]
  omega

/-- A page that looks the same to the ledger is changed in place. -/
theorem Books.put {type : CacheType} {id : ℕ} {pc pc' : PageCache} (h : Books pcs)
    (hp : pcs.pages (type, id) = some pc) (hv : pc'.view = pc.view)
    (he : pc'.flag = .empty ↔ pc.flag = .empty) :
  Books (pcs.put type id pc')
  := by
  have hviews : (pcs.put type id pc').views = pcs.views := by
    rw [views_eq_update (pages_put hp)]
    apply Function.update_eq_self_iff.mpr
    rw [views, hp, Option.map_some, Option.map_some, hv]
  have hsize : pc'.size = pc.size := congrArg View.size hv
  obtain ⟨h₁, h₂, h₃, h₄, h₅⟩ := h
  cases type with
  | shortcut =>
      refine ⟨?_, ?_, ?_, h₄, h₅⟩
      · rw [hviews]
        apply h₁
      · change pcs.cachedScNum = ((pcs.cachedSc.set id pc').countP _ : ℕ)
        rw [countP_set hp, h₂]
        simp [he]
      · apply size_set h₃
        rw [hsize]
        apply h₃ pc (List.mem_of_getElem? hp)
  | idx =>
      refine ⟨?_, h₂, h₃, ?_, ?_⟩
      · rw [hviews]
        apply h₁
      · apply h₄.trans (congrArg _ (idxSize_insert hp).symm)
      · intro j pc₀ hj
        by_cases hji : j = id
        · subst hji
          change (pcs.cachedIdx.insert j pc').lookup j = some pc₀ at hj
          rw [AList.lookup_insert] at hj
          cases hj
          rw [Ne, he]
          apply h₅ j pc hp
        · change (pcs.cachedIdx.insert id pc').lookup j = some pc₀ at hj
          rw [AList.lookup_insert_ne hji] at hj
          apply h₅ j pc₀ hj

/-- The pages and the nodes are what the books are about, not the requests that wait. -/
theorem Books.congr {pcs' : PcSet} (h : Books pcs) (hsc : pcs'.cachedSc = pcs.cachedSc)
    (hidx : pcs'.cachedIdx = pcs.cachedIdx) (hlru : pcs'.lru.Perm pcs.lru)
    (hnow : pcs'.nowCachedSize = pcs.nowCachedSize)
    (hscn : pcs'.cachedScNum = pcs.cachedScNum) (hidxn : pcs'.cachedIdxNum = pcs.cachedIdxNum) :
  Books pcs'
  := by
  have hpages : pcs'.pages = pcs.pages := by
    funext k
    obtain ⟨t, j⟩ := k
    cases t with
    | shortcut => simp [pages, pick, hsc]
    | idx => simp [pages, pick, hidx]
  have hviews : pcs'.views = pcs.views := by
    funext k
    rw [views, hpages, views]
  obtain ⟨h₁, h₂, h₃, h₄, h₅⟩ := h
  refine ⟨?_, ?_, ?_, ?_, ?_⟩
  · rw [hviews, hnow]
    apply h₁.perm (hlru.map _).symm
  · rw [hscn, hsc]
    apply h₂
  · rw [hsc]
    apply h₃
  · rw [hidxn, idxSize, hidx]
    apply h₄
  · rw [hidx]
    apply h₅

/-! ### The functions of the page cache -/

theorem Books.unlisted {k : CacheType × ℕ} {pc : PageCache} (h : Books pcs)
    (hp : pcs.pages k = some pc) (hf : pc.loaded = false) :
  pc.node = false ∧ Unlisted (pcs.views k)
  := by
  have hv : pcs.views k = some pc.view := by rw [views, hp, Option.map_some]
  have hnode : pc.node = false := by
    have := (h.ledger.mem_iff hv).2
    cases hn : pc.node with
    | false => rfl
    | true =>
        have hl : pc.loaded = true := this.mp hn
        rw [hf] at hl
        cases hl
  use hnode
  intro w hw
  rw [hv] at hw
  cases hw
  use hf, hnode

theorem lruUpdate_books {type : CacheType} {id : ℕ} (h : Books pcs) :
  Books (pcs.lruUpdate type id)
  := by
  unfold lruUpdate
  split
  · rename_i n hn
    have hperm := (List.perm_cons_erase (List.mem_of_find?_eq_some hn)).symm
    exact h.congr rfl rfl hperm rfl rfl rfl
  · apply h

theorem lruUpdate_pages (type : CacheType) (id : ℕ) :
  (pcs.lruUpdate type id).pages = pcs.pages
  := by
  unfold lruUpdate
  split
  · rfl
  · rfl

/-- `pc_is_cached` gives the page and leaves the books balanced. -/
theorem Books.isCached {type : CacheType} {id : ℕ} {o : Option PageCache} {pcs' : PcSet}
    (h : Books pcs) (hs : pcs.isCached type id = .ok (o, pcs')) :
  Books pcs' ∧ pcs'.pages = pcs.pages
    ∧ o = (pcs.pages (type, id)).filter (fun pc => pc.flag ≠ .empty)
    ∧ ∃ lru, pcs' = { pcs with lru := lru }
  := by
  unfold PcSet.isCached at hs
  obtain ⟨_, -, hs⟩ := bind_eq_ok.mp hs
  have hlru : ∃ lru, pcs.lruUpdate type id = { pcs with lru := lru } := by
    unfold lruUpdate
    split
    · exact ⟨_, rfl⟩
    · exact ⟨pcs.lru, rfl⟩
  split at hs
  · rename_i hpick
    cases hs
    refine ⟨h, rfl, ?_, pcs.lru, rfl⟩
    rw [pages, hpick]
    rfl
  · rename_i pc hpick
    split at hs
    · rename_i hempty
      cases hs
      refine ⟨h, rfl, ?_, pcs.lru, rfl⟩
      rw [pages, hpick]
      simp [Option.filter, hempty]
    · rename_i hempty
      split at hs
      · cases hs
        refine ⟨lruUpdate_books h, lruUpdate_pages type id, ?_, hlru⟩
        rw [pages, hpick]
        simp [Option.filter, hempty]
      · cases hs
        refine ⟨h, rfl, ?_, pcs.lru, rfl⟩
        rw [pages, hpick]
        simp [Option.filter, hempty]

/-- `pc_occupy` of an empty shortcut page. -/
theorem Books.occupySc {id : ℕ} {pcs' : PcSet} (h : Books pcs)
    (hs : pcs.occupy .shortcut id pagesize = .ok pcs') :
  Books pcs' ∧ pcs'.flags = Function.update pcs.flags (.shortcut, id) (some .occupied)
    ∧ pcs.flags (.shortcut, id) = some .empty ∧ pcs'.nowCachedSize = pcs.nowCachedSize
    ∧ pcs'.maxCachedSize = pcs.maxCachedSize ∧ pcs'.scPinning = pcs.scPinning
  := by
  obtain ⟨pc, hpc, hs⟩ := bind_eq_ok.mp hs
  obtain ⟨_, hflag, hs⟩ := bind_eq_ok.mp hs
  cases hs
  rw [orThrow_eq_ok] at hpc
  rw [require_eq_ok] at hflag
  have hp : pcs.pages (.shortcut, id) = some pc := hpc
  have hload : pc.loaded = false := by simp [PageCache.loaded, hflag]
  obtain ⟨hnode, hun⟩ := h.unlisted hp hload
  have hsize := h.scSize pc (List.mem_of_getElem? hpc)
  let pc' : PageCache := { pc with flag := .occupied, size := pagesize, node := false }
  have hpages : (pcs.put .shortcut id pc').pages
      = Function.update pcs.pages (.shortcut, id) (some pc') := pages_put hp
  refine ⟨⟨?_, ?_, ?_, h.idxNum, h.idx⟩, flags_eq_update hpages, ?_, rfl, rfl, rfl⟩
  · change Balanced (pcs.put _ _ _).views pcs.nodes pcs.nowCachedSize
    rw [views_eq_update hpages]
    apply h.ledger.change hun
    intro w hw
    cases hw
    exact ⟨by simp [PageCache.view, PageCache.loaded], rfl⟩
  · change pcs.cachedScNum + 1 = ((pcs.cachedSc.set id _).countP _ : ℕ)
    rw [countP_set hpc, h.scNum]
    simp [hflag]
  · apply size_set h.scSize
    rfl
  · rw [flags, hp, Option.map_some, hflag]

/-- `pc_occupy` of an index that is not cached. -/
theorem Books.occupyIdx {id size : ℕ} {pcs' : PcSet} (h : Books pcs)
    (hnone : pcs.pages (.idx, id) = none) (hs : pcs.occupy .idx id size = .ok pcs') :
  Books pcs' ∧ pcs'.flags = Function.update pcs.flags (.idx, id) (some .occupied)
    ∧ pcs'.nowCachedSize = pcs.nowCachedSize ∧ pcs'.maxCachedSize = pcs.maxCachedSize
  := by
  obtain ⟨_, -, hs⟩ := bind_eq_ok.mp hs
  cases hs
  let pc : PageCache := ⟨.occupied, some id, size, false⟩
  have hpages : (pcs.put .idx id pc).pages = Function.update pcs.pages (.idx, id) (some pc) := by
    funext k
    obtain ⟨t, j⟩ := k
    rw [Function.update_apply]
    cases t with
    | shortcut => rfl
    | idx =>
        change (pcs.cachedIdx.insert id pc).lookup j = if _ then _ else pcs.cachedIdx.lookup j
        by_cases hj : j = id
        · subst hj
          rw [if_pos rfl, AList.lookup_insert]
        · rw [if_neg (by simp [hj]), AList.lookup_insert_ne hj]
  refine ⟨⟨?_, h.scNum, h.scSize, rfl, ?_⟩, flags_eq_update hpages, rfl, rfl⟩
  · change Balanced (pcs.put _ _ _).views pcs.nodes pcs.nowCachedSize
    rw [views_eq_update hpages]
    apply h.ledger.change
    · rw [views, hnone]
      intro w hw
      cases hw
    · intro w hw
      cases hw
      exact ⟨by simp [pc, PageCache.view, PageCache.loaded], rfl⟩
  · intro j pc' hj
    have hj' : (pcs.put .idx id pc).pages (.idx, j) = some pc' := hj
    rw [hpages, Function.update_apply] at hj'
    split at hj'
    · cases hj'
      simp [pc]
    · apply h.idx j pc' hj'

/-- The requests that wait do not matter. -/
theorem await_books {type : CacheType} {id req : ℕ} (h : Books pcs) :
  Books (pcs.await type id req) ∧ (pcs.await type id req).pages = pcs.pages
    ∧ (pcs.await type id req).nowCachedSize = pcs.nowCachedSize
    ∧ (pcs.await type id req).maxCachedSize = pcs.maxCachedSize
    ∧ (pcs.await type id req).scPinning = pcs.scPinning
  := by
  unfold await
  cases type with
  | shortcut =>
      dsimp only
      split
      · exact ⟨h.congr rfl rfl (.refl _) rfl rfl rfl, rfl, rfl, rfl, rfl⟩
      · exact ⟨h.congr rfl rfl (.refl _) rfl rfl rfl, rfl, rfl, rfl, rfl⟩
  | idx =>
      dsimp only
      split
      · exact ⟨h.congr rfl rfl (.refl _) rfl rfl rfl, rfl, rfl, rfl, rfl⟩
      · exact ⟨h.congr rfl rfl (.refl _) rfl rfl rfl, rfl, rfl, rfl, rfl⟩

/-- `pc_send_get_request`. -/
theorem Books.send {type : CacheType} {parents : Option ℕ} {id : ℕ} {pcs' : PcSet}
    (h : Books pcs) (hs : pcs.sendGetRequest type parents id = .ok pcs') :
  Books pcs' ∧ pcs'.flags = Function.update pcs.flags (type, id) (some .flying)
    ∧ pcs'.nowCachedSize = pcs.nowCachedSize ∧ pcs'.maxCachedSize = pcs.maxCachedSize
    ∧ pcs'.scPinning = pcs.scPinning
  := by
  obtain ⟨pc, hpc, hs⟩ := bind_eq_ok.mp hs
  obtain ⟨_, hflag, hs⟩ := bind_eq_ok.mp hs
  rw [orThrow_eq_ok] at hpc
  rw [require_eq_ok] at hflag
  have hp : pcs.pages (type, id) = some pc := hpc
  let pc' : PageCache := { pc with flag := .flying }
  have hpages : (pcs.put type id pc').pages
      = Function.update pcs.pages (type, id) (some pc') := pages_put hp
  have hload : pc.loaded = false := by
    rcases hflag with hf | hf
    · simp [PageCache.loaded, hf]
    · simp [PageCache.loaded, hf]
  have hb : Books (pcs.put type id pc') := by
    apply h.put hp
    · rw [PageCache.view, PageCache.view, hload]
      simp [pc', PageCache.loaded]
    · rcases hflag with hf | hf
      · simp [pc', hf]
      · simp [pc', hf]
  have hnow : (pcs.put type id pc').nowCachedSize = pcs.nowCachedSize
      ∧ (pcs.put type id pc').maxCachedSize = pcs.maxCachedSize
      ∧ (pcs.put type id pc').scPinning = pcs.scPinning := by
    cases type with
    | shortcut => exact ⟨rfl, rfl, rfl⟩
    | idx => exact ⟨rfl, rfl, rfl⟩
  cases parents with
  | none =>
      cases hs
      exact ⟨hb, flags_eq_update hpages, hnow⟩
  | some req =>
      cases hs
      obtain ⟨hb', hp', hnow', hmax', hpin'⟩ := await_books hb
      exact ⟨hb', flags_eq_update (hp'.trans hpages), hnow'.trans hnow.1, hmax'.trans hnow.2.1,
        hpin'.trans hnow.2.2⟩

/-- The insertion of a page that is underway. -/
theorem Books.push {type : CacheType} {id : ℕ} {pc : PageCache} {pcs' : PcSet} (h : Books pcs)
    (hp : pcs.pages (type, id) = some pc) (hload : pc.loaded = false) (hne : pc.flag ≠ .empty)
    (hs : pcs.push type id = .ok pcs') :
  Books pcs' ∧ pcs'.flags = Function.update pcs.flags (type, id) (some .clean)
    ∧ pcs'.nowCachedSize = pcs.nowCachedSize + pc.size
    ∧ pcs'.maxCachedSize = pcs.maxCachedSize ∧ pcs'.lru = ⟨type, id, pc.size⟩ :: pcs.lru
  := by
  obtain ⟨pc₀, hpc, hs⟩ := bind_eq_ok.mp hs
  cases hs
  rw [orThrow_eq_ok] at hpc
  have hpc' : pcs.pages (type, id) = some pc₀ := hpc
  rw [hp] at hpc'
  cases hpc'
  obtain ⟨-, hun⟩ := h.unlisted hp hload
  let pc' : PageCache := { pc with
    flag := .clean, node := true, ppa := if type = .idx then some id else pc.ppa }
  have hpages : (pcs.put type id pc').pages
      = Function.update pcs.pages (type, id) (some pc') := pages_put hp
  have hledger : Balanced (pcs.put type id pc').views
      (((type, id), pc.size) :: pcs.nodes) (pcs.nowCachedSize + pc.size) := by
    rw [views_eq_update hpages]
    apply h.ledger.push hun
  cases type with
  | shortcut =>
      refine ⟨⟨hledger, ?_, ?_, h.idxNum, h.idx⟩, flags_eq_update hpages, rfl, rfl, rfl⟩
      · change pcs.cachedScNum = ((pcs.cachedSc.set id _).countP _ : ℕ)
        rw [countP_set hp, h.scNum]
        simp [hne]
      · apply size_set h.scSize
        apply h.scSize pc (List.mem_of_getElem? hp)
  | idx =>
      refine ⟨⟨hledger, h.scNum, h.scSize, ?_, ?_⟩, flags_eq_update hpages, rfl, rfl, rfl⟩
      · apply h.idxNum.trans (congrArg _ (idxSize_insert hp).symm)
      · intro j pc₁ hj
        have hj' : (pcs.put .idx id pc').pages (.idx, j) = some pc₁ := hj
        rw [hpages, Function.update_apply] at hj'
        split at hj'
        · cases hj'
          simp [pc']
        · apply h.idx j pc₁ hj'

/-- The update of a page that is clean or dirty. -/
theorem Books.update {id : ℕ} {pc : PageCache} {pcs' : PcSet} (h : Books pcs)
    (hp : pcs.pages (.shortcut, id) = some pc) (hload : pc.loaded = true)
    (hs : pcs.update id = .ok pcs') :
  Books pcs' ∧ pcs'.flags = Function.update pcs.flags (.shortcut, id) (some .dirty)
    ∧ pcs'.nowCachedSize = pcs.nowCachedSize ∧ pcs'.maxCachedSize = pcs.maxCachedSize
  := by
  obtain ⟨pc₀, hpc, hs⟩ := bind_eq_ok.mp hs
  cases hs
  rw [orThrow_eq_ok] at hpc
  have hpc' : pcs.pages (.shortcut, id) = some pc₀ := hpc
  rw [hp] at hpc'
  cases hpc'
  refine ⟨?_, flags_eq_update (pages_put hp), rfl, rfl⟩
  apply h.put hp
  · rw [PageCache.view, PageCache.view, hload]
    simp [PageCache.loaded]
  · have hne : pc.flag ≠ .empty := by
      intro he
      simp [PageCache.loaded, he] at hload
    simp [hne]

/-- A listed index leaves the cache. -/
theorem Books.eraseIdx {id size : ℕ} {lru : List LruNode} {pc : PageCache} (h : Books pcs)
    (hp : pcs.pages (.idx, id) = some pc) (hl : pcs.lru.Perm (⟨.idx, id, size⟩ :: lru)) :
  Books { pcs with
      lru := lru
      nowCachedSize := pcs.nowCachedSize - size
      cachedIdxNum := pcs.cachedIdxNum - 1
      cachedIdx := pcs.cachedIdx.erase id }
  := by
  have hpages : PcSet.pages { pcs with
      lru := lru
      nowCachedSize := pcs.nowCachedSize - size
      cachedIdxNum := pcs.cachedIdxNum - 1
      cachedIdx := pcs.cachedIdx.erase id } = Function.update pcs.pages (.idx, id) none := by
    funext k
    obtain ⟨t, j⟩ := k
    rw [Function.update_apply]
    cases t with
    | shortcut => rfl
    | idx =>
        change (pcs.cachedIdx.erase id).lookup j = if _ then _ else pcs.cachedIdx.lookup j
        by_cases hj : j = id
        · subst hj
          rw [if_pos rfl, AList.lookup_erase]
        · rw [if_neg (by simp [hj]), AList.lookup_erase_ne hj]
  refine ⟨?_, h.scNum, h.scSize, ?_, ?_⟩
  · rw [views_eq_update hpages]
    apply h.ledger.remove (hl.map _)
    intro w hw
    cases hw
  · have hmem : id ∈ pcs.cachedIdx.keys := by
      rw [← AList.mem_keys, ← AList.lookup_isSome]
      change (pcs.pages (.idx, id)).isSome = true
      rw [hp]
      rfl
    change pcs.cachedIdxNum - 1 = ((pcs.cachedIdx.erase id).keys.length : ℕ)
    have hpos := List.length_pos_of_mem hmem
    rw [AList.keys_erase, List.length_erase_of_mem hmem, h.idxNum, idxSize]
    omega
  · intro j pc' hj
    change (pcs.cachedIdx.erase id).lookup j = some pc' at hj
    by_cases hji : j = id
    · subst hji
      rw [AList.lookup_erase] at hj
      cases hj
    · rw [AList.lookup_erase_ne hji] at hj
      apply h.idx j pc' hj

/-- A listed shortcut page becomes empty. -/
theorem Books.emptySc {id size : ℕ} {lru : List LruNode} {pc : PageCache} (h : Books pcs)
    (hp : pcs.pages (.shortcut, id) = some pc)
    (hl : pcs.lru.Perm (⟨.shortcut, id, size⟩ :: lru)) :
  Books { pcs with
      lru := lru
      nowCachedSize := pcs.nowCachedSize - size
      cachedScNum := pcs.cachedScNum - 1
      cachedSc := pcs.cachedSc.set id { pc with node := false, flag := .empty } }
  := by
  let pc' : PageCache := { pc with node := false, flag := .empty }
  have hpages : (pcs.put .shortcut id pc').pages
      = Function.update pcs.pages (.shortcut, id) (some pc') := pages_put hp
  have hloaded : pc.flag ≠ .empty := by
    have hv : pcs.views (.shortcut, id) = some pc.view := by rw [views, hp, Option.map_some]
    have hmem : (CacheType.shortcut, id) ∈ pcs.nodes.map Prod.fst := by
      rw [nodes, ((hl.map _).map _).mem_iff]
      simp
    have hload : pc.loaded = true := (h.ledger.mem_iff hv).1.mp hmem
    intro he
    simp [PageCache.loaded, he] at hload
  refine ⟨?_, ?_, ?_, h.idxNum, h.idx⟩
  · change Balanced (pcs.put .shortcut id pc').views (lru.map _) _
    rw [views_eq_update hpages]
    apply h.ledger.remove (hl.map _)
    intro w hw
    cases hw
    exact ⟨by simp [pc', PageCache.view, PageCache.loaded], rfl⟩
  · change pcs.cachedScNum - 1 = ((pcs.cachedSc.set id _).countP _ : ℕ)
    rw [countP_set hp, h.scNum]
    simp [hloaded]
  · apply size_set h.scSize
    apply h.scSize pc (List.mem_of_getElem? hp)

/-- A node of the list has the size of its page, which is clean or dirty. -/
theorem Books.of_mem {n : LruNode} (h : Books pcs) (hn : n ∈ pcs.lru) :
  ∃ pc, pcs.pages (n.type, n.id) = some pc ∧ pc.loaded = true ∧ pc.size = n.size
  := by
  have hv := h.ledger.listed ((n.type, n.id), n.size) (List.mem_map_of_mem hn)
  obtain ⟨pc, hp, hview⟩ := Option.map_eq_some_iff.mp hv
  refine ⟨pc, hp, ?_, ?_⟩
  · exact congrArg View.listed hview
  · exact congrArg View.size hview

/-- A page that is clean or dirty has a node. -/
theorem Books.findNode {type : CacheType} {id : ℕ} {pc : PageCache} (h : Books pcs)
    (hp : pcs.pages (type, id) = some pc) (hload : pc.loaded = true) :
  pc.node = true ∧ pcs.findNode type id = some ⟨type, id, pc.size⟩
    ∧ (⟨type, id, pc.size⟩ : LruNode) ∈ pcs.lru
  := by
  have hv : pcs.views (type, id) = some pc.view := by rw [views, hp, Option.map_some]
  obtain ⟨hmem, hnode⟩ := h.ledger.mem_iff hv
  obtain ⟨x, hx, hxk⟩ := List.mem_map.mp (hmem.mpr hload)
  obtain ⟨n, hn, rfl⟩ := List.mem_map.mp hx
  cases hf : pcs.findNode type id with
  | none =>
      have := List.find?_eq_none.mp hf n hn
      simp only [decide_eq_true_eq] at this
      cases hxk
      exact absurd ⟨rfl, rfl⟩ this
  | some m =>
      have hm := List.mem_of_find?_eq_some hf
      have hkey := List.find?_some hf
      simp only [decide_eq_true_eq] at hkey
      obtain ⟨rfl, rfl⟩ := hkey
      obtain ⟨pc₀, hp₀, -, hsize⟩ := h.of_mem hm
      rw [hp] at hp₀
      cases hp₀
      have hm' : (⟨m.type, m.id, pc.size⟩ : LruNode) = m := by rw [hsize]
      rw [hm']
      use hnode.mpr hload, rfl, hm

/-- A forced eviction of an index that is not underway. -/
theorem Books.forceEvict {pba : ℕ} {pcs' : PcSet} (h : Books pcs)
    (hf : pcs.flags (.idx, pba) ≠ some .flying) (ho : pcs.flags (.idx, pba) ≠ some .occupied)
    (hs : pcs.forceEvictIdx pba = .ok pcs') :
  Books pcs' ∧ pcs'.nowCachedSize ≤ pcs.nowCachedSize
    ∧ pcs'.maxCachedSize = pcs.maxCachedSize
    ∧ ∀ k, pcs'.flags k = pcs.flags k ∨ pcs'.flags k = none
  := by
  unfold forceEvictIdx at hs
  split at hs
  · cases hs
    use h, le_rfl, rfl, fun _ => .inl rfl
  · rename_i pc hpc
    obtain ⟨_, -, hs⟩ := bind_eq_ok.mp hs
    cases hs
    have hp : pcs.pages (.idx, pba) = some pc := hpc
    have hload : pc.loaded = true := by
      rw [flags, hp, Option.map_some] at hf ho
      have he := h.idx pba pc hpc
      cases hflag : pc.flag with
      | empty => exact absurd hflag he
      | occupied => simp [hflag] at ho
      | flying => simp [hflag] at hf
      | dirty => simp [PageCache.loaded, hflag]
      | clean => simp [PageCache.loaded, hflag]
    obtain ⟨hnode, hfind, hmem⟩ := h.findNode hp hload
    have hdel : (if pc.node = true then pcs.lruDelete .idx pba else pcs)
        = { pcs with lru := pcs.lru.erase ⟨.idx, pba, pc.size⟩ } := by
      rw [if_pos hnode, lruDelete, hfind]
    rw [hdel]
    refine ⟨h.eraseIdx hp (List.perm_cons_erase hmem), ?_, rfl, ?_⟩
    · dsimp only
      omega
    · intro k
      obtain ⟨t, j⟩ := k
      cases t with
      | shortcut => exact .inl rfl
      | idx =>
          change Option.map _ ((pcs.cachedIdx.erase pba).lookup j) = _ ∨ _
          by_cases hj : j = pba
          · subst hj
            right
            change Option.map _ ((pcs.cachedIdx.erase j).lookup j) = none
            rw [AList.lookup_erase]
            rfl
          · left
            rw [AList.lookup_erase_ne hj]
            rfl

end PcSet

/-! ### Evictions -/

/-- The flags after evictions: a page that was clean or dirty may be gone, empty, or clean. -/
def Evicted (f f' : CacheType × ℕ → Option CacheFlag) : Prop :=
  ∀ k, f' k = f k ∨ ((f k = some .clean ∨ f k = some .dirty)
    ∧ (f' k = none ∨ f' k = some .empty ∨ f' k = some .clean))

theorem Evicted.refl (f : CacheType × ℕ → Option CacheFlag) :
  Evicted f f
  := fun _ => .inl rfl

theorem Evicted.trans {f f' f'' : CacheType × ℕ → Option CacheFlag} (h : Evicted f f')
    (h' : Evicted f' f'') :
  Evicted f f''
  := by
  intro k
  rcases h' k with h' | ⟨h₁', h₂'⟩
  · rw [h']
    apply h k
  · rcases h k with h | ⟨h₁, -⟩
    · rw [← h]
      right
      use h₁', h₂'
    · right
      use h₁, h₂'

/-- A page that is neither clean nor dirty is not touched. -/
theorem Evicted.eq_of {f f' : CacheType × ℕ → Option CacheFlag} {k : CacheType × ℕ}
    {flag : CacheFlag} (h : Evicted f f') (hf : f k = some flag) (hc : flag ≠ .clean)
    (hd : flag ≠ .dirty) :
  f' k = some flag
  := by
  rcases h k with h | ⟨h, -⟩
  · rw [h, hf]
  · rw [hf] at h
    simp [hc, hd] at h

/-- No page becomes one that is underway. -/
theorem Evicted.ne {f f' : CacheType × ℕ → Option CacheFlag} {k : CacheType × ℕ}
    {flag : CacheFlag} (h : Evicted f f') (hf : f k ≠ some flag) (hc : flag ≠ .clean)
    (he : flag ≠ .empty) :
  f' k ≠ some flag
  := by
  rcases h k with h | ⟨-, h⟩
  · rw [h]
    apply hf
  · rcases h with h | h | h
    · simp [h]
    · simp [h, he.symm]
    · simp [h, hc.symm]

namespace CacheLayer

open PcSet

variable {g : Geometry} {c c' : CacheLayer}

/-- A collection keeps the books of a cache with these shortcut pages, and the copies of the
pages that have one. -/
theorem updatePcPpaByGc_books {pcs₀ : PcSet} {l : List (ℕ × ℕ)} :
  ∀ {pcs pcs' : PcSet}, Books { pcs₀ with cachedSc := pcs.cachedSc } →
    updatePcPpaByGc pcs l = .ok pcs' →
      Books { pcs₀ with cachedSc := pcs'.cachedSc }
        ∧ Evicted (PcSet.flags { pcs₀ with cachedSc := pcs.cachedSc })
          (PcSet.flags { pcs₀ with cachedSc := pcs'.cachedSc })
        ∧ ∀ i : ℕ, (pcs.cachedSc[i]?).bind PageCache.ppa ≠ none →
          (pcs'.cachedSc[i]?).bind PageCache.ppa ≠ none
  := by
  induction l with
  | nil =>
      intro pcs pcs' h hs
      cases hs
      use h, .refl _, fun _ hi => hi
  | cons x l ih =>
      intro pcs pcs' h hs
      obtain ⟨i, ppa⟩ := x
      obtain ⟨pc, hpc, hs⟩ := bind_eq_ok.mp hs
      rw [orThrow_eq_ok] at hpc
      let pc' : PageCache :=
        { pc with flag := if pc.flag = .dirty then .clean else pc.flag, ppa := some ppa }
      have hp : PcSet.pages { pcs₀ with cachedSc := pcs.cachedSc } (.shortcut, i) = some pc := hpc
      have hb : Books { pcs₀ with cachedSc := (pcs.put .shortcut i pc').cachedSc } := by
        apply h.put hp
        · by_cases hd : pc.flag = .dirty
          · simp [pc', PageCache.view, PageCache.loaded, hd]
          · simp [pc', PageCache.view, PageCache.loaded, hd]
        · by_cases hd : pc.flag = .dirty
          · simp [pc', hd]
          · simp [pc', hd]
      obtain ⟨hb', hev, hcopy⟩ := ih hb hs
      refine ⟨hb', .trans ?_ hev, ?_⟩
      · have hflags : PcSet.flags { pcs₀ with cachedSc := (pcs.put .shortcut i pc').cachedSc }
            = Function.update (PcSet.flags { pcs₀ with cachedSc := pcs.cachedSc }) (.shortcut, i)
              (some pc'.flag) := flags_eq_update (pages_put hp)
        intro k
        rw [hflags, Function.update_apply]
        split
        · rename_i hk
          subst hk
          rw [PcSet.flags, hp, Option.map_some]
          by_cases hd : pc.flag = .dirty
          · simp [pc', hd]
          · simp [pc', hd]
        · left
          rfl
      · intro j hj
        apply hcopy
        change ((pcs.cachedSc.set i pc')[j]?).bind PageCache.ppa ≠ none
        rw [List.getElem?_set]
        split
        · rename_i hij
          rw [if_pos (List.getElem?_eq_some_iff.mp hpc).1]
          simp [pc']
        · apply hj

/-- The write of a dirty page changes the shortcut pages only, in ways that the ledger does not
see. -/
theorem writeBack_books (pcs₀ : PcSet) {i : ℕ} {pc : PageCache}
    (hs : writeBack g c i pc = .ok c') (h : Books { pcs₀ with cachedSc := c.pcs.cachedSc }) :
  (∃ sc, c'.pcs = { c.pcs with cachedSc := sc })
    ∧ Books { pcs₀ with cachedSc := c'.pcs.cachedSc }
    ∧ Evicted (PcSet.flags { pcs₀ with cachedSc := c.pcs.cachedSc })
      (PcSet.flags { pcs₀ with cachedSc := c'.pcs.cachedSc })
    ∧ ∀ i, c.copy i ≠ none → c'.copy i ≠ none
  := by
  unfold CacheLayer.writeBack at hs
  split at hs
  · obtain ⟨⟨res, c₃⟩, h₁, hs⟩ := bind_eq_ok.mp hs
    obtain ⟨pc', hpc', hs⟩ := bind_eq_ok.mp hs
    cases hs
    obtain ⟨⟨res', c₂⟩, h₂, h₁⟩ := bind_eq_ok.mp h₁
    cases h₁
    obtain ⟨c₁, hgc, h₂⟩ := bind_eq_ok.mp h₂
    obtain ⟨⟨o, bm⟩, -, h₂⟩ := bind_eq_ok.mp h₂
    obtain ⟨ppa, -, h₂⟩ := bind_eq_ok.mp h₂
    cases h₂
    rw [orThrow_eq_ok] at hpc'
    change c₁.pcs.cachedSc[i]? = some pc' at hpc'
    have hc₁ : (∃ sc, c₁.pcs = { c.pcs with cachedSc := sc })
        ∧ Books { pcs₀ with cachedSc := c₁.pcs.cachedSc }
        ∧ Evicted (PcSet.flags { pcs₀ with cachedSc := c.pcs.cachedSc })
          (PcSet.flags { pcs₀ with cachedSc := c₁.pcs.cachedSc })
        ∧ ∀ i, c.copy i ≠ none → c₁.copy i ≠ none := by
      unfold CacheLayer.scGcIfFull at hgc
      split at hgc
      · obtain ⟨⟨ppas, bm⟩, -, hgc⟩ := bind_eq_ok.mp hgc
        obtain ⟨pcs, hu, hgc⟩ := bind_eq_ok.mp hgc
        cases hgc
        obtain ⟨sc, rfl, -⟩ := updatePcPpaByGc_rest hu
        exact ⟨⟨sc, rfl⟩, updatePcPpaByGc_books h hu⟩
      · cases hgc
        use ⟨_, rfl⟩, h, .refl _, fun _ hi => hi
    obtain ⟨⟨sc, hsc⟩, hb, hev, hcopy⟩ := hc₁
    have hp : PcSet.pages { pcs₀ with cachedSc := c₁.pcs.cachedSc } (.shortcut, i) = some pc'
      := hpc'
    let pc'' : PageCache := { pc' with ppa := some res }
    have hflags : PcSet.flags { pcs₀ with cachedSc := c₁.pcs.cachedSc.set i pc'' }
        = PcSet.flags { pcs₀ with cachedSc := c₁.pcs.cachedSc } := by
      have hu : PcSet.flags { pcs₀ with cachedSc := c₁.pcs.cachedSc.set i pc'' }
          = Function.update (PcSet.flags { pcs₀ with cachedSc := c₁.pcs.cachedSc }) (.shortcut, i)
            (some pc''.flag) := flags_eq_update (pages_put hp)
      rw [hu]
      apply Function.update_eq_self_iff.mpr
      rw [PcSet.flags, hp]
      rfl
    refine ⟨⟨c₁.pcs.cachedSc.set i pc'', ?_⟩, ?_, ?_, ?_⟩
    · change { c₁.pcs with cachedSc := c₁.pcs.cachedSc.set i pc'' } = _
      rw [hsc]
    · exact hb.put hp rfl (by rfl)
    · exact hev.trans (hflags ▸ .refl _)
    · intro j hj
      change ((c₁.pcs.cachedSc.set i pc'')[j]?).bind PageCache.ppa ≠ none
      rw [List.getElem?_set]
      split
      · rw [if_pos (List.getElem?_eq_some_iff.mp hpc').1]
        simp [pc'']
      · apply hcopy j hj
  · cases hs
    use ⟨_, rfl⟩, h, .refl _, fun _ hi => hi

/-- A turn of `pc_evict` takes its node from the list. -/
theorem evictNode_books {n : LruNode} (h : Books c.pcs) (hn : c.pcs.lru.getLast? = some n)
    (hs : evictNode g c n = .ok c') :
  Books c'.pcs ∧ Evicted c.pcs.flags c'.pcs.flags ∧ (∀ i, c.copy i ≠ none → c'.copy i ≠ none)
    ∧ c'.pcs.nowCachedSize = c.pcs.nowCachedSize - n.size ∧ c'.pcs.lru = c.pcs.lru.dropLast
    ∧ c'.pcs.maxCachedSize = c.pcs.maxCachedSize ∧ c'.pcs.scPinning = c.pcs.scPinning
  := by
  have hlast : c.pcs.lru = c.pcs.lru.dropLast ++ [n] := by
    rw [List.dropLast_append_getLast? n hn]
  have hperm : c.pcs.lru.Perm (n :: c.pcs.lru.dropLast) := by
    nth_rewrite 1 [hlast]
    apply List.perm_append_singleton
  have hmem : n ∈ c.pcs.lru := List.mem_of_getLast? hn
  obtain ⟨pc₀, hp₀, hload, -⟩ := h.of_mem hmem
  unfold evictNode at hs
  dsimp only at hs
  split at hs
  · rename_i htype
    obtain ⟨pc, hpc, hs⟩ := bind_eq_ok.mp hs
    obtain ⟨_, hflag, hs⟩ := bind_eq_ok.mp hs
    obtain ⟨c₁, h₁, hs⟩ := bind_eq_ok.mp hs
    obtain ⟨pc₁, hpc₁, hs⟩ := bind_eq_ok.mp hs
    cases hs
    rw [orThrow_eq_ok] at hpc hpc₁
    obtain ⟨⟨sc, hsc⟩, hb, hev, hcopy⟩ := writeBack_books c.pcs h₁ h
    have hp₁ : PcSet.pages { c.pcs with cachedSc := c₁.pcs.cachedSc } (.shortcut, n.id)
        = some pc₁ := hpc₁
    have hn' : (⟨.shortcut, n.id, n.size⟩ : LruNode) = n := by rw [← htype]
    have hb' := hb.emptySc hp₁ (by
      rw [hn']
      exact hperm)
    have hc₁ : c₁.pcs.put .shortcut n.id { pc₁ with node := false, flag := .empty } = { c.pcs with
        lru := c.pcs.lru.dropLast
        nowCachedSize := c.pcs.nowCachedSize - n.size
        cachedScNum := c.pcs.cachedScNum - 1
        cachedSc := c₁.pcs.cachedSc.set n.id { pc₁ with node := false, flag := .empty } } := by
      simp only [PcSet.put, hsc]
    dsimp only
    rw [hc₁]
    refine ⟨hb', ?_, ?_, rfl, rfl, rfl, rfl⟩
    · have hflags : PcSet.flags { c.pcs with
            cachedSc := c₁.pcs.cachedSc.set n.id { pc₁ with node := false, flag := .empty } }
          = Function.update (PcSet.flags { c.pcs with cachedSc := c₁.pcs.cachedSc })
            (.shortcut, n.id) (some .empty) := flags_eq_update (pages_put hp₁)
      intro k
      by_cases hk : k = (.shortcut, n.id)
      · right
        constructor
        · rw [htype] at hp₀
          rw [hk, PcSet.flags, hp₀, Option.map_some]
          simpa [PageCache.loaded] using hload
        · right
          left
          apply (congrFun hflags k).trans (by rw [hk, Function.update_self])
      · have hk' : PcSet.flags { c.pcs with
            cachedSc := c₁.pcs.cachedSc.set n.id { pc₁ with node := false, flag := .empty } } k
            = PcSet.flags { c.pcs with cachedSc := c₁.pcs.cachedSc } k := by
          rw [hflags, Function.update_of_ne hk]
        have hk'' := hev k
        rw [← hk'] at hk''
        apply hk''
    · intro i hi
      have hset : ((c₁.pcs.cachedSc.set n.id { pc₁ with node := false, flag := .empty })[i]?).bind
          PageCache.ppa = c₁.copy i := by
        apply copy_set hpc₁
        rfl
      change ((c₁.pcs.cachedSc.set n.id _)[i]?).bind PageCache.ppa ≠ none
      rw [hset]
      apply hcopy i hi
  · rename_i htype
    obtain ⟨_, -, hs⟩ := bind_eq_ok.mp hs
    obtain ⟨_, -, hs⟩ := bind_eq_ok.mp hs
    cases hs
    rw [htype] at hp₀
    have hn' : (⟨.idx, n.id, n.size⟩ : LruNode) = n := by rw [← htype]
    have hb := h.eraseIdx hp₀ (by
      rw [hn']
      exact hperm)
    refine ⟨hb, ?_, fun _ hi => hi, rfl, rfl, rfl, rfl⟩
    intro k
    obtain ⟨t, j⟩ := k
    cases t with
    | shortcut => exact .inl rfl
    | idx =>
        by_cases hj : j = n.id
        · right
          constructor
          · rw [hj, PcSet.flags, hp₀, Option.map_some]
            simpa [PageCache.loaded] using hload
          · left
            change Option.map _ ((c.pcs.cachedIdx.erase n.id).lookup j) = none
            rw [hj, AList.lookup_erase]
            rfl
        · left
          change Option.map _ ((c.pcs.cachedIdx.erase n.id).lookup j) = _
          rw [AList.lookup_erase_ne hj]
          rfl

/-- What evictions leave: the books are balanced, the nodes are those at the head of the list,
and the pages that have copies keep one. -/
structure Evictions (c c' : CacheLayer) : Prop where
  books : Books c'.pcs
  flags : Evicted c.pcs.flags c'.pcs.flags
  copies : ∀ i, c.copy i ≠ none → c'.copy i ≠ none
  now : c'.pcs.nowCachedSize ≤ c.pcs.nowCachedSize
  max : c'.pcs.maxCachedSize = c.pcs.maxCachedSize
  pinning : c'.pcs.scPinning = c.pcs.scPinning

theorem Evictions.refl (h : Books c.pcs) :
  Evictions c c
  := ⟨h, .refl _, fun _ hi => hi, le_rfl, rfl, rfl⟩

theorem Evictions.trans {c'' : CacheLayer} (h : Evictions c c') (h' : Evictions c' c'') :
  Evictions c c''
  where
    books := h'.books
    flags := h.flags.trans h'.flags
    copies i hi := h'.copies i (h.copies i hi)
    now := h'.now.trans h.now
    max := h'.max.trans h.max
    pinning := h'.pinning.trans h.pinning

/-- The loop of `pc_evict` frees the bytes that it is asked for, if there are as many, and
keeps the head of the list if the other nodes have as many. -/
theorem evictLoop_books {l : List LruNode} :
  ∀ {c c' : CacheLayer} {t : ℤ}, c.pcs.lru.reverse = l → Books c.pcs →
    t ≤ c.pcs.nowCachedSize → evictLoop g l c t = .ok c' →
      Evictions c c' ∧ c'.pcs.nowCachedSize ≤ c.pcs.nowCachedSize - t
        ∧ ∀ n rest, c.pcs.lru = n :: rest → t ≤ c.pcs.nowCachedSize - n.size → n ∈ c'.pcs.lru
  := by
  induction l with
  | nil =>
      intro c c' t hl h ht hs
      have hlru : c.pcs.lru = [] := List.reverse_eq_nil_iff.mp hl
      have hnow : c.pcs.nowCachedSize = 0 := by
        rw [h.ledger.size, PcSet.nodes, hlru]
        rfl
      unfold evictLoop at hs
      rw [if_pos (by omega)] at hs
      cases hs
      use .refl h, by omega
      intro n rest hnil
      rw [hlru] at hnil
      cases hnil
  | cons m l ih =>
      intro c c' t hl h ht hs
      have hlru : c.pcs.lru = l.reverse ++ [m] := by
        rw [← List.reverse_cons, ← hl, List.reverse_reverse]
      have hlast : c.pcs.lru.getLast? = some m := by
        rw [hlru]
        apply List.getLast?_concat
      unfold evictLoop at hs
      split at hs
      · cases hs
        use .refl h, by omega
        intro n rest hcons _
        rw [hcons]
        apply List.mem_cons_self
      · rename_i hpos
        obtain ⟨c₁, h₁, hs⟩ := bind_eq_ok.mp hs
        obtain ⟨hb, hf, hcopy, hnow, hdrop, hmax, hpin⟩ := evictNode_books h hlast h₁
        have hl₁ : c₁.pcs.lru.reverse = l := by
          rw [hdrop, hlru, List.dropLast_concat, List.reverse_reverse]
        obtain ⟨hev, hle, hhead⟩ := ih hl₁ hb (by omega) hs
        use .trans ⟨hb, hf, hcopy, by omega, hmax, hpin⟩ hev, by omega
        intro n rest hcons hn
        cases hrest : rest.getLast? with
        | none =>
            have hnil : rest = [] := List.getLast?_eq_none_iff.mp hrest
            have hsum := h.ledger.size
            rw [PcSet.nodes, hcons, hnil] at hsum
            simp at hsum
            omega
        | some m' =>
            have hm : m' = m := by
              rw [hcons, List.getLast?_cons, hrest] at hlast
              cases hlast
              rfl
            subst hm
            apply hhead n rest.dropLast
            · have hne : rest ≠ [] := by
                rintro rfl
                cases hrest
              rw [hdrop, hcons, List.dropLast_cons_of_ne_nil hne]
            · omega

/-- `pc_evict`, when the cache is larger than what is asked for. -/
theorem evict_books {needSize : ℕ} (h : Books c.pcs) (hneed : needSize ≤ c.pcs.maxCachedSize)
    (hs : evict g c needSize = .ok c') :
  Evictions c c'
  := by
  unfold evict at hs
  dsimp only at hs
  split at hs
  · cases hs
    exact .refl h
  · apply (evictLoop_books rfl h (by omega) hs).1

theorem makeSpace_books {size : ℕ} (h : Books c.pcs) (hneed : size ≤ c.pcs.maxCachedSize)
    (hs : makeSpace g c size = .ok c') :
  Evictions c c'
  := by
  unfold makeSpace at hs
  split at hs
  · cases hs
    exact .refl h
  · apply evict_books h hneed hs

/-- `pc_set_insert` of a page that is underway.  A page that is not larger than the cache is
still there after the eviction. -/
theorem setInsert_books {type : CacheType} {id : ℕ} {pc : PageCache} (h : Books c.pcs)
    (hp : c.pcs.pages (type, id) = some pc) (hload : pc.loaded = false) (hne : pc.flag ≠ .empty)
    (hs : setInsert g c type id = .ok c') :
  Books c'.pcs
    ∧ Evicted (Function.update c.pcs.flags (type, id) (some .clean)) c'.pcs.flags
    ∧ c'.pcs.nowCachedSize ≤ c'.pcs.maxCachedSize
    ∧ c'.pcs.maxCachedSize = c.pcs.maxCachedSize ∧ c'.pcs.scPinning = c.pcs.scPinning
    ∧ (pc.size ≤ c.pcs.maxCachedSize →
      ∃ pc', c'.pcs.pages (type, id) = some pc' ∧ pc'.loaded = true)
  := by
  obtain ⟨pcs, hpush, hs⟩ := bind_eq_ok.mp hs
  have hpin : pcs.scPinning = c.pcs.scPinning := by
    obtain ⟨pc₀, -, hpush⟩ := bind_eq_ok.mp hpush
    cases hpush
    cases type with
    | shortcut => rfl
    | idx => rfl
  obtain ⟨hb, hflags, hnow', hmax, hlru⟩ := h.push hp hload hne hpush
  have hhead : ∀ pcs' : PcSet, Books pcs' → (⟨type, id, pc.size⟩ : LruNode) ∈ pcs'.lru →
      ∃ pc', pcs'.pages (type, id) = some pc' ∧ pc'.loaded = true := by
    intro pcs' hb' hmem
    obtain ⟨pc', hp', hl', -⟩ := hb'.of_mem hmem
    use pc', hp', hl'
  rw [← hflags]
  dsimp only at hs
  split at hs
  · rename_i hover
    unfold evict at hs
    dsimp only at hs
    rw [if_neg (by omega)] at hs
    have ht : 0 - (pcs.maxCachedSize - pcs.nowCachedSize) ≤ pcs.nowCachedSize := by omega
    obtain ⟨hev, hle, hkeep⟩ := evictLoop_books (c := { c with pcs := pcs }) rfl hb ht hs
    dsimp only at hle hkeep
    refine ⟨hev.books, hev.flags, ?_, hev.max.trans hmax, hev.pinning.trans hpin, ?_⟩
    · rw [hev.max]
      dsimp only
      omega
    · intro hsize
      apply hhead _ hev.books
      apply hkeep _ _ hlru
      dsimp only
      omega
  · rename_i hover
    cases hs
    use hb, .refl _, Int.not_lt.mp hover, hmax, hpin
    intro _
    apply hhead _ hb
    rw [hlru]
    apply List.mem_cons_self

end CacheLayer

end AppL
