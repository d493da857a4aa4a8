import AppL.Cache.Copies
import AppL.Cache.Layer

/-!
# What the cache layer leaves alone

A shortcut page is present when it is dirty or has a copy in flash.  No operation of the cache
layer takes a present page away, an update makes its pages present, and only a lookup changes
the requests that wait.
-/

namespace AppL

open Transition

/-- A page of a list of shortcut pages that is dirty or has a copy. -/
def PresentIn (l : List PageCache) (i : ℕ) : Prop :=
  ∃ pc, l[i]? = some pc ∧ (pc.flag = .dirty ∨ pc.ppa ≠ none)

theorem presentIn_set {l : List PageCache} {i j : ℕ} {pc : PageCache} (h : PresentIn l j)
    (hpc : j = i → pc.flag = .dirty ∨ pc.ppa ≠ none) :
  PresentIn (l.set i pc) j
  := by
  obtain ⟨pc₀, h₀, hd⟩ := h
  by_cases hij : i = j
  · subst hij
    use pc, List.getElem?_set_self (List.getElem?_eq_some_iff.mp h₀).1, hpc rfl
  · use pc₀, by rw [List.getElem?_set_ne hij, h₀], hd

namespace CacheLayer

variable {g : Geometry} {c c' c'' : CacheLayer}

/-- The requests that wait, the requests that read, and the kind of the cache are the same. -/
structure SameRequests (pcs pcs' : PcSet) : Prop where
  reading : pcs'.reading = pcs.reading
  pending : pcs'.pendingReqMap = pcs.pendingReqMap
  pendingSc : pcs'.pendingScReqMap = pcs.pendingScReqMap
  pinning : pcs'.scPinning = pcs.scPinning

theorem SameRequests.refl (pcs : PcSet) :
  SameRequests pcs pcs
  := ⟨rfl, rfl, rfl, rfl⟩

theorem SameRequests.trans {pcs pcs' pcs'' : PcSet} (h : SameRequests pcs pcs')
    (h' : SameRequests pcs' pcs'') :
  SameRequests pcs pcs''
  where
    reading := h'.reading.trans h.reading
    pending := h'.pending.trans h.pending
    pendingSc := h'.pendingSc.trans h.pendingSc
    pinning := h'.pinning.trans h.pinning

theorem sameRequests_put (pcs : PcSet) (type : CacheType) (id : ℕ) (pc : PageCache) :
  SameRequests pcs (pcs.put type id pc)
  := by
  cases type with
  | shortcut => exact ⟨rfl, rfl, rfl, rfl⟩
  | idx => exact ⟨rfl, rfl, rfl, rfl⟩

/-- A collection keeps the pages that are present. -/
theorem updatePcPpaByGc_present {l : List (ℕ × ℕ)} :
  ∀ {pcs pcs' : PcSet}, updatePcPpaByGc pcs l = .ok pcs' → SameRequests pcs pcs' ∧
    ∀ j, PresentIn pcs.cachedSc j → PresentIn pcs'.cachedSc j
  := by
  induction l with
  | nil =>
      intro pcs pcs' h
      cases h
      use .refl _, fun _ hj => hj
  | cons x l ih =>
      intro pcs pcs' h
      obtain ⟨i, ppa⟩ := x
      obtain ⟨pc, -, h⟩ := bind_eq_ok.mp h
      obtain ⟨hsame, hpres⟩ := ih h
      use .trans (sameRequests_put _ _ _ _) hsame
      intro j hj
      apply hpres
      apply presentIn_set hj
      intro _
      right
      simp

/-- The write of a page: it has a copy then. -/
theorem writeBack_present {i : ℕ} {pc : PageCache} (hs : writeBack g c i pc = .ok c') :
  SameRequests c.pcs c'.pcs ∧ (∀ j, PresentIn c.pcs.cachedSc j → PresentIn c'.pcs.cachedSc j)
    ∧ (pc.flag = .dirty → c'.copy i ≠ none) ∧ (pc.flag ≠ .dirty → c' = c)
  := by
  unfold writeBack at hs
  split at hs
  · rename_i hd
    obtain ⟨⟨res, c₃⟩, h₁, hs⟩ := bind_eq_ok.mp hs
    obtain ⟨pc', hpc', hs⟩ := bind_eq_ok.mp hs
    cases hs
    obtain ⟨⟨res', c₂⟩, h₂, h₁⟩ := bind_eq_ok.mp h₁
    cases h₁
    obtain ⟨c₁, hgc, h₂⟩ := bind_eq_ok.mp h₂
    obtain ⟨⟨o, bm⟩, -, h₂⟩ := bind_eq_ok.mp h₂
    obtain ⟨ppa, -, h₂⟩ := bind_eq_ok.mp h₂
    cases h₂
    rw [orThrow_eq_ok] at hpc'
    have hc₁ : SameRequests c.pcs c₁.pcs
        ∧ ∀ j, PresentIn c.pcs.cachedSc j → PresentIn c₁.pcs.cachedSc j := by
      unfold scGcIfFull at hgc
      split at hgc
      · obtain ⟨⟨ppas, bm⟩, -, hgc⟩ := bind_eq_ok.mp hgc
        obtain ⟨pcs, hu, hgc⟩ := bind_eq_ok.mp hgc
        cases hgc
        apply updatePcPpaByGc_present hu
      · cases hgc
        use .refl _, fun _ hj => hj
    refine ⟨hc₁.1.trans ⟨rfl, rfl, rfl, rfl⟩, ?_, ?_, fun hn => absurd hd hn⟩
    · intro j hj
      apply presentIn_set (hc₁.2 j hj)
      intro _
      right
      simp
    · intro _
      change ((c₁.pcs.cachedSc.set i _)[i]?).bind PageCache.ppa ≠ none
      rw [List.getElem?_set_self (List.getElem?_eq_some_iff.mp hpc').1]
      simp
  · rename_i hd
    cases hs
    use .refl _, fun _ hj => hj, fun hd' => absurd hd' hd, fun _ => rfl

/-- What evictions do: the present pages stay present, and the empty pages stay empty. -/
structure Calm (c c' : CacheLayer) : Prop where
  same : SameRequests c.pcs c'.pcs
  present : ∀ j, PresentIn c.pcs.cachedSc j → PresentIn c'.pcs.cachedSc j

theorem Calm.refl (c : CacheLayer) :
  Calm c c
  := ⟨.refl _, fun _ hj => hj⟩

theorem Calm.trans (h : Calm c c') (h' : Calm c' c'') :
  Calm c c''
  := ⟨h.same.trans h'.same, fun j hj => h'.present j (h.present j hj)⟩

theorem evictNode_calm {n : LruNode} (hs : evictNode g c n = .ok c') :
  Calm c c'
  := by
  unfold evictNode at hs
  dsimp only at hs
  split at hs
  · obtain ⟨pc, hpc, hs⟩ := bind_eq_ok.mp hs
    obtain ⟨_, hflag, hs⟩ := bind_eq_ok.mp hs
    obtain ⟨c₁, h₁, hs⟩ := bind_eq_ok.mp hs
    obtain ⟨pc₁, hpc₁, hs⟩ := bind_eq_ok.mp hs
    cases hs
    rw [orThrow_eq_ok] at hpc hpc₁
    obtain ⟨hsame, hpres, hwrite, hclean⟩ := writeBack_present h₁
    refine ⟨⟨?_, ?_, ?_, ?_⟩, ?_⟩
    · apply hsame.reading
    · apply hsame.pending
    · apply hsame.pendingSc
    · apply hsame.pinning
    · intro j hj
      apply presentIn_set (hpres j hj)
      rintro rfl
      right
      dsimp only
      by_cases hd : pc.flag = .dirty
      · have hcopy := hwrite hd
        rw [copy, hpc₁] at hcopy
        apply hcopy
      · have heq := hclean hd
        rw [heq, hpc] at hpc₁
        cases hpc₁
        obtain ⟨pc₂, hpc₂, hp⟩ := hj
        change c.pcs.cachedSc[n.id]? = some pc at hpc
        rw [hpc] at hpc₂
        cases hpc₂
        apply hp.resolve_left hd
  · obtain ⟨_, -, hs⟩ := bind_eq_ok.mp hs
    obtain ⟨_, -, hs⟩ := bind_eq_ok.mp hs
    cases hs
    use ⟨rfl, rfl, rfl, rfl⟩, fun _ hj => hj

theorem evictLoop_calm {l : List LruNode} :
  ∀ {c c' : CacheLayer} {t : ℤ}, evictLoop g l c t = .ok c' → Calm c c'
  := by
  induction l with
  | nil =>
      intro c c' t hs
      unfold evictLoop at hs
      split at hs
      · cases hs
        exact .refl c
      · dsimp only at hs
        split at hs
        · cases hs
          use ⟨rfl, rfl, rfl, rfl⟩, fun _ hj => hj
        · cases hs
  | cons n l ih =>
      intro c c' t hs
      unfold evictLoop at hs
      split at hs
      · cases hs
        exact .refl c
      · obtain ⟨c₁, h₁, hs⟩ := bind_eq_ok.mp hs
        apply (evictNode_calm h₁).trans (ih hs)

theorem evict_calm {needSize : ℤ} (hs : evict g c needSize = .ok c') :
  Calm c c'
  := by
  unfold evict at hs
  dsimp only at hs
  split at hs
  · cases hs
    exact .refl c
  · apply evictLoop_calm hs

theorem makeSpace_calm {size : ℕ} (hs : makeSpace g c size = .ok c') :
  Calm c c'
  := by
  unfold makeSpace at hs
  split at hs
  · cases hs
    exact .refl c
  · apply evict_calm hs

/-! ### Insertions and updates -/

/-- `pc_set_insert`.  The inserted page must not be dirty, or its update is lost. -/
theorem setInsert_calm {type : CacheType} {id : ℕ} (hs : setInsert g c type id = .ok c') :
  SameRequests c.pcs c'.pcs ∧ ∀ j, (type = .shortcut → j = id → c.scFlag id ≠ some .dirty) →
    PresentIn c.pcs.cachedSc j → PresentIn c'.pcs.cachedSc j
  := by
  obtain ⟨pcs, hpush, hs⟩ := bind_eq_ok.mp hs
  have hcalm : Calm { c with pcs := pcs } c' := by
    dsimp only at hs
    split at hs
    · apply evict_calm hs
    · cases hs
      exact .refl _
  obtain ⟨pc, hpc, hpush⟩ := bind_eq_ok.mp hpush
  cases hpush
  rw [orThrow_eq_ok] at hpc
  constructor
  · refine .trans ?_ hcalm.same
    cases type with
    | shortcut => exact ⟨rfl, rfl, rfl, rfl⟩
    | idx => exact ⟨rfl, rfl, rfl, rfl⟩
  · intro j hj hp
    apply hcalm.present
    cases type with
    | shortcut =>
        apply presentIn_set hp
        rintro rfl
        obtain ⟨pc₀, hpc₀, hd⟩ := hp
        change c.pcs.cachedSc[j]? = some pc at hpc
        rw [hpc] at hpc₀
        cases hpc₀
        right
        have hne := hj rfl rfl
        rw [scFlag, hpc, Option.map_some] at hne
        simpa using hd.resolve_left fun hd => hne (by rw [hd])
    | idx => apply hp

theorem isCached_calm {type : CacheType} {id : ℕ} {o : Option PageCache} {pcs : PcSet}
    (hs : c.pcs.isCached type id = .ok (o, pcs)) :
  Calm c { c with pcs := pcs } ∧ (o = none → type = .shortcut →
    ∃ pc, pcs.cachedSc[id]? = some pc ∧ pc.flag = .empty)
  := by
  have hsc := isCached_cachedSc hs
  have hsame : SameRequests c.pcs (c.pcs.lruUpdate type id) := by
    unfold PcSet.lruUpdate
    split
    · exact ⟨rfl, rfl, rfl, rfl⟩
    · exact .refl _
  unfold PcSet.isCached at hs
  obtain ⟨_, hlt, hs⟩ := bind_eq_ok.mp hs
  rw [require_eq_ok] at hlt
  split at hs
  · rename_i hnone
    cases hs
    use .refl _
    rintro - rfl
    have := List.getElem?_eq_getElem (hlt rfl)
    change c.pcs.cachedSc[id]? = none at hnone
    rw [hnone] at this
    cases this
  · rename_i pc hpc
    split at hs
    · rename_i hempty
      cases hs
      use .refl _
      rintro - rfl
      use pc, hpc, hempty
    · split at hs
      · cases hs
        refine ⟨⟨hsame, ?_⟩, fun h => by cases h⟩
        intro j hj
        dsimp only
        rw [hsc]
        apply hj
      · cases hs
        use .refl _, fun h => by cases h

/-- `pc_set_update`: the page is present then. -/
theorem setUpdate_calm {i : ℕ} (hs : setUpdate c i = .ok c') :
  Calm c c' ∧ PresentIn c'.pcs.cachedSc i
  := by
  obtain ⟨pcs, hu, hs⟩ := bind_eq_ok.mp hs
  cases hs
  obtain ⟨pc, hpc, hu⟩ := bind_eq_ok.mp hu
  cases hu
  rw [orThrow_eq_ok] at hpc
  refine ⟨⟨⟨rfl, rfl, rfl, rfl⟩, ?_⟩, ?_⟩
  · intro j hj
    apply presentIn_set hj
    exact fun _ => .inl rfl
  · exact ⟨_, List.getElem?_set_self (List.getElem?_eq_some_iff.mp hpc).1, .inl rfl⟩

/-- `pc_occupy` of a shortcut page, which is empty. -/
theorem occupySc_calm {i size : ℕ} {pcs : PcSet} (hs : c.pcs.occupy .shortcut i size = .ok pcs) :
  Calm c { c with pcs := pcs } ∧ (PresentIn c.pcs.cachedSc i → ∀ pc, pcs.cachedSc[i]? = some pc →
    pc.ppa ≠ none) ∧ ∀ pc, pcs.cachedSc[i]? = some pc → pc.flag = .occupied
  := by
  obtain ⟨pc, hpc, hs⟩ := bind_eq_ok.mp hs
  obtain ⟨_, hflag, hs⟩ := bind_eq_ok.mp hs
  cases hs
  rw [orThrow_eq_ok] at hpc
  rw [require_eq_ok] at hflag
  have hself := List.getElem?_set_self (a := ({ pc with
    flag := .occupied, size := size, node := false } : PageCache))
    (List.getElem?_eq_some_iff.mp hpc).1
  have hppa : PresentIn c.pcs.cachedSc i → pc.ppa ≠ none := by
    rintro ⟨pc₀, hpc₀, hd⟩
    rw [hpc] at hpc₀
    cases hpc₀
    apply hd.resolve_left
    simp [hflag]
  refine ⟨⟨⟨rfl, rfl, rfl, rfl⟩, ?_⟩, ?_, ?_⟩
  · intro j hj
    apply presentIn_set hj
    rintro rfl
    right
    apply hppa hj
  · intro hp pc' hpc'
    change (c.pcs.cachedSc.set i _)[i]? = some pc' at hpc'
    rw [hself] at hpc'
    cases hpc'
    apply hppa hp
  · intro pc' hpc'
    change (c.pcs.cachedSc.set i _)[i]? = some pc' at hpc'
    rw [hself] at hpc'
    cases hpc'
    rfl

/-- The requests that wait after a send depend on those before. -/
theorem SameRequests.await {pcs pcs' : PcSet} (h : SameRequests pcs pcs') (type : CacheType)
    (id req : ℕ) :
  SameRequests (pcs.await type id req) (pcs'.await type id req)
  := by
  obtain ⟨h₁, h₂, h₃, h₄⟩ := h
  unfold PcSet.await
  cases type with
  | shortcut =>
      rw [h₃]
      cases pcs.pendingScReqMap.lookup id with
      | none => use by dsimp only; rw [h₁], h₂, rfl, h₄
      | some rs => use h₁, h₂, rfl, h₄
  | idx =>
      rw [h₂]
      cases pcs.pendingReqMap.lookup id with
      | none => use by dsimp only; rw [h₁], rfl, h₃, h₄
      | some rs => use h₁, rfl, h₃, h₄

/-- A read of a page is sent: its request waits, and the pages stay present. -/
theorem send_calm {type : CacheType} {parents : Option ℕ} {id : ℕ} {pcs : PcSet}
    (hs : c.pcs.sendGetRequest type parents id = .ok pcs) :
  (match parents with
    | none => SameRequests c.pcs pcs
    | some req => SameRequests (c.pcs.await type id req) pcs)
    ∧ ∀ j, PresentIn c.pcs.cachedSc j → PresentIn pcs.cachedSc j
  := by
  obtain ⟨pc, hpc, hs⟩ := bind_eq_ok.mp hs
  obtain ⟨_, hflag, hs⟩ := bind_eq_ok.mp hs
  rw [orThrow_eq_ok] at hpc
  rw [require_eq_ok] at hflag
  have hpres : ∀ j, PresentIn c.pcs.cachedSc j →
      PresentIn (c.pcs.put type id { pc with flag := .flying }).cachedSc j := by
    intro j hj
    cases type with
    | shortcut =>
        apply presentIn_set hj
        rintro rfl
        obtain ⟨pc₀, hpc₀, hd⟩ := hj
        change c.pcs.cachedSc[j]? = some pc at hpc
        rw [hpc] at hpc₀
        cases hpc₀
        right
        apply hd.resolve_left
        intro hd
        simp [hd] at hflag
    | idx => apply hj
  cases parents with
  | none =>
      cases hs
      use sameRequests_put _ _ _ _, hpres
  | some req =>
      cases hs
      refine ⟨?_, ?_⟩
      · apply (sameRequests_put _ _ _ _).await type id req
      · intro j hj
        rw [await_cachedSc]
        apply hpres j hj

/-! ### Lookups -/

/-- A request waits for a page after a lookup, or nothing waits that did not before. -/
def Asked (pcs pcs' : PcSet) (type : CacheType) (id : ℕ) (parent : Option ℕ) (waits : Prop) :
    Prop :=
  match parent with
  | none => SameRequests pcs pcs'
  | some req => (waits ∧ SameRequests (pcs.await type id req) pcs')
      ∨ (¬ waits ∧ SameRequests pcs pcs')

theorem scSend_calm {i : ℕ} {parent : Option ℕ} {res : ScRead}
    (hs : scSend c i parent = .ok (res, c')) :
  res = .waiting ∧ Asked c.pcs c'.pcs .shortcut i parent (res = .waiting)
    ∧ ∀ j, PresentIn c.pcs.cachedSc j → PresentIn c'.pcs.cachedSc j
  := by
  obtain ⟨pcs, h₁, hs⟩ := bind_eq_ok.mp hs
  cases hs
  obtain ⟨hreq, hpres⟩ := send_calm h₁
  refine ⟨rfl, ?_, hpres⟩
  cases parent with
  | none => apply hreq
  | some req => exact .inl ⟨rfl, hreq⟩

theorem Asked.of_calm {type : CacheType} {id : ℕ} {parent : Option ℕ} {waits : Prop}
    {pcs pcs' pcs'' : PcSet} (h : SameRequests pcs pcs')
    (h' : Asked pcs' pcs'' type id parent waits) :
  Asked pcs pcs'' type id parent waits
  := by
  cases parent with
  | none => apply h.trans h'
  | some req =>
      rcases h' with ⟨hw, h'⟩ | ⟨hw, h'⟩
      · left
        exact ⟨hw, (h.await type id req).trans h'⟩
      · right
        exact ⟨hw, h.trans h'⟩

theorem asked_same {type : CacheType} {id : ℕ} {parent : Option ℕ} {waits : Prop}
    {pcs pcs' : PcSet} (h : SameRequests pcs pcs') (hw : ¬ waits) :
  Asked pcs pcs' type id parent waits
  := by
  cases parent with
  | none => apply h
  | some req => exact .inr ⟨hw, h⟩

/-- A lookup of a page that is not cached.  A page that is present is read, if there is
space. -/
theorem scMiss_calm {i : ℕ} {parent : Option ℕ} {check : Bool} {res : ScRead}
    (hs : scMiss g c i parent check = .ok (res, c')) :
  Asked c.pcs c'.pcs .shortcut i parent (res = .waiting)
    ∧ (∀ j, PresentIn c.pcs.cachedSc j → PresentIn c'.pcs.cachedSc j)
    ∧ (PresentIn c.pcs.cachedSc i →
      ¬ (c.pcs.hasSpace pagesize = false ∧ u32 c.pcs.nowCachedSize < pagesize) → res = .waiting)
  := by
  unfold scMiss at hs
  split at hs
  · rename_i hroom
    cases hs
    use asked_same (.refl _) (by simp), fun _ hj => hj, fun _ hno => absurd hroom hno
  · obtain ⟨c₁, h₁, hs⟩ := bind_eq_ok.mp hs
    obtain ⟨pcs, h₂, hs⟩ := bind_eq_ok.mp hs
    obtain ⟨pc, hpc, hs⟩ := bind_eq_ok.mp hs
    rw [orThrow_eq_ok] at hpc
    have hcalm := makeSpace_calm h₁
    obtain ⟨hcalm₂, hppa, hocc⟩ := occupySc_calm h₂
    have hcalm' := hcalm.trans hcalm₂
    have hppa' : PresentIn c.pcs.cachedSc i → pc.ppa ≠ none
      := fun hp => hppa (hcalm.present i hp) pc hpc
    dsimp only at hs
    cases hpp : pc.ppa with
    | none =>
        rw [hpp] at hs
        have hnot : ¬ PresentIn c.pcs.cachedSc i := fun hp => hppa' hp hpp
        cases check with
        | true =>
            obtain ⟨pcs', h₃, hs⟩ := bind_eq_ok.mp hs
            cases hs
            obtain ⟨pc₀, -, h₃⟩ := bind_eq_ok.mp h₃
            cases h₃
            refine ⟨asked_same (hcalm'.same.trans ⟨rfl, rfl, rfl, rfl⟩) (by simp), ?_,
              fun hp => absurd hp hnot⟩
            intro j hj
            apply presentIn_set (hcalm'.present j hj)
            rintro rfl
            exact absurd hj hnot
        | false =>
            obtain ⟨c₃, h₃, hs⟩ := bind_eq_ok.mp hs
            cases hs
            obtain ⟨hsame, hpres⟩ := setInsert_calm h₃
            refine ⟨asked_same (hcalm'.same.trans hsame) (by simp), ?_,
              fun hp => absurd hp hnot⟩
            intro j hj
            apply hpres j _ (hcalm'.present j hj)
            rintro - rfl
            exact absurd hj hnot
    | some p =>
        rw [hpp] at hs
        obtain ⟨hres, hasked, hpres⟩ := scSend_calm hs
        exact ⟨.of_calm hcalm'.same hasked, fun j hj => hpres j (hcalm'.present j hj),
          fun _ _ => hres⟩

/-- `cache_layer_sc_read`. -/
theorem scRead_calm {lba : ℕ} {parent : Option ℕ} {check : Bool} {res : ScRead}
    (hs : scRead g c lba parent check = .ok (res, c')) :
  Asked c.pcs c'.pcs .shortcut (lba / ridxinpage) parent (res = .waiting)
    ∧ ∀ j, PresentIn c.pcs.cachedSc j → PresentIn c'.pcs.cachedSc j
  := by
  unfold scRead at hs
  split at hs
  · cases hs
    use asked_same (.refl _) (by simp), fun _ hj => hj
  · obtain ⟨⟨o, pcs⟩, h₁, hs⟩ := bind_eq_ok.mp hs
    obtain ⟨hcalm, -⟩ := isCached_calm h₁
    have hmiss : ∀ {c₁ : CacheLayer}, Calm c c₁ →
        scMiss g c₁ (lba / ridxinpage) parent check = .ok (res, c') →
        Asked c.pcs c'.pcs .shortcut (lba / ridxinpage) parent (res = .waiting)
          ∧ ∀ j, PresentIn c.pcs.cachedSc j → PresentIn c'.pcs.cachedSc j := by
      intro c₁ hcalm hs
      obtain ⟨hasked, hpres, -⟩ := scMiss_calm hs
      use .of_calm hcalm.same hasked, fun j hj => hpres j (hcalm.present j hj)
    dsimp only at hs
    split at hs
    · apply hmiss hcalm hs
    · split at hs
      · obtain ⟨-, hasked, hpres⟩ := scSend_calm hs
        use .of_calm hcalm.same hasked, fun j hj => hpres j (hcalm.present j hj)
      · split at hs
        · cases hs
          use asked_same hcalm.same (by simp), hcalm.present
        · apply hmiss hcalm hs

/-- A user lookup of a page that is present is a hit or reads the page, if there is space. -/
theorem scRead_present {lba req : ℕ} {res : ScRead}
    (hpres : c.pcs.scPinning = true ∨ PresentIn c.pcs.cachedSc (lba / ridxinpage))
    (hroom : c.pcs.scPinning = true ∨ c.scFlag (lba / ridxinpage) ≠ some .empty
      ∨ ¬ (c.pcs.hasSpace pagesize = false ∧ u32 c.pcs.nowCachedSize < pagesize))
    (hs : scRead g c lba (some req) true = .ok (res, c')) :
  res = .hit ∨ res = .waiting
  := by
  unfold scRead at hs
  split at hs
  · cases hs
    left
    rfl
  · rename_i hpin
    obtain ⟨⟨o, pcs⟩, h₁, hs⟩ := bind_eq_ok.mp hs
    obtain ⟨hcalm, hnone⟩ := isCached_calm h₁
    dsimp only at hs
    split at hs
    · right
      obtain ⟨pc, hpc, hempty⟩ := hnone rfl rfl
      have hsc : c.scFlag (lba / ridxinpage) = some .empty := by
        rw [scFlag, ← isCached_cachedSc h₁, hpc, ← hempty]
        rfl
      obtain ⟨-, -, hwait⟩ := scMiss_calm hs
      apply hwait (hcalm.present _ (hpres.resolve_left hpin))
      have hroom' := (hroom.resolve_left hpin).resolve_left fun h => h hsc
      have hpcs : pcs = c.pcs := by
        unfold PcSet.isCached at h₁
        obtain ⟨_, -, h₁⟩ := bind_eq_ok.mp h₁
        split at h₁
        · cases h₁
          rfl
        · split at h₁
          · cases h₁
            rfl
          · split at h₁
            · cases h₁
            · cases h₁
      dsimp only
      rw [hpcs]
      apply hroom'
    · split at hs
      · right
        apply (scSend_calm hs).1
      · rw [if_pos rfl] at hs
        cases hs
        left
        rfl

/-- `cache_layer_sc_retry`: a page that is inserted was underway, so no update is lost. -/
theorem scRetry_calm {lba : ℕ} (hs : scRetry g c lba = .ok c') :
  Calm c c'
  := by
  obtain ⟨pc, hpc, hs⟩ := bind_eq_ok.mp hs
  rw [orThrow_eq_ok] at hpc
  split at hs
  · rename_i hfly
    obtain ⟨hsame, hpres⟩ := setInsert_calm hs
    use hsame
    intro j hj
    apply hpres j _ hj
    intro _ _
    rw [scFlag, hpc, Option.map_some, hfly]
    simp
  · cases hs
    exact .refl c

/-! ### Updates by a compaction -/

theorem updateCached_calm {l : List ℕ} :
  ∀ {c c' : CacheLayer} {rest : List ℕ}, updateCached c l = .ok (rest, c') →
    Calm c c' ∧ ∀ i ∈ l, i ∈ rest ∨ PresentIn c'.pcs.cachedSc i
  := by
  induction l with
  | nil =>
      intro c c' rest hs
      cases hs
      use .refl c, by simp
  | cons i l ih =>
      intro c c' rest hs
      obtain ⟨⟨o, pcs⟩, h₁, hs⟩ := bind_eq_ok.mp hs
      obtain ⟨hcalm, -⟩ := isCached_calm h₁
      dsimp only at hs
      split at hs
      · obtain ⟨c₂, h₂, hs⟩ := bind_eq_ok.mp hs
        obtain ⟨hcalm₂, hi⟩ := setUpdate_calm h₂
        obtain ⟨hcalm₃, hl⟩ := ih hs
        use (hcalm.trans hcalm₂).trans hcalm₃
        intro j hj
        obtain rfl | hj := List.mem_cons.mp hj
        · right
          apply hcalm₃.present _ hi
        · apply hl j hj
      · obtain ⟨⟨rest', c₂⟩, h₂, hs⟩ := bind_eq_ok.mp hs
        cases hs
        obtain ⟨hcalm₂, hl⟩ := ih h₂
        use hcalm.trans hcalm₂
        intro j hj
        obtain rfl | hj := List.mem_cons.mp hj
        · left
          apply List.mem_cons_self
        · apply (hl j hj).imp (List.mem_cons_of_mem i) id

/-- A page of a batch is being read, is left, or has been updated. -/
theorem requestBatch_calm {l : List ℕ} :
  ∀ {batch : ℕ} {c c' : CacheLayer} {crps rest : List ℕ},
    requestBatch g batch c l = .ok (crps, rest, c') →
    Calm c c' ∧ ∀ i ∈ l, i ∈ crps ∨ i ∈ rest ∨ PresentIn c'.pcs.cachedSc i
  := by
  induction l with
  | nil =>
      intro batch c c' crps rest hs
      simp only [requestBatch] at hs
      cases hs
      use .refl c, by simp
  | cons i l ih =>
      intro batch c c' crps rest hs
      cases batch with
      | zero =>
          cases hs
          use .refl c, fun j hj => .inr (.inl hj)
      | succ batch =>
          obtain ⟨⟨res, c₁⟩, h₁, hs⟩ := bind_eq_ok.mp hs
          obtain ⟨hsame, hpres⟩ := scRead_calm h₁
          have hcalm : Calm c c₁ := ⟨hsame, hpres⟩
          dsimp only at hs
          split at hs
          · cases hs
            use hcalm, fun j hj => .inr (.inl hj)
          · obtain ⟨⟨crps', rest', c₂⟩, h₂, hs⟩ := bind_eq_ok.mp hs
            cases hs
            obtain ⟨hcalm₂, hl⟩ := ih h₂
            use hcalm.trans hcalm₂
            intro j hj
            obtain rfl | hj := List.mem_cons.mp hj
            · left
              apply List.mem_cons_self
            · apply (hl j hj).imp (List.mem_cons_of_mem i) id
          · obtain ⟨c₂, h₂, hs⟩ := bind_eq_ok.mp hs
            obtain ⟨hcalm₂, hi⟩ := setUpdate_calm h₂
            obtain ⟨hcalm₃, hl⟩ := ih hs
            use (hcalm.trans hcalm₂).trans hcalm₃
            intro j hj
            obtain rfl | hj := List.mem_cons.mp hj
            · right
              right
              apply hcalm₃.present _ hi
            · apply hl j hj

/-- The update of a page makes up for what its insertion may lose. -/
theorem insertUpdate_calm {i : ℕ} (hs : insertUpdate g c i = .ok c') :
  Calm c c' ∧ PresentIn c'.pcs.cachedSc i
  := by
  obtain ⟨c₁, h₁, hs⟩ := bind_eq_ok.mp hs
  obtain ⟨hsame, hpres⟩ := setInsert_calm h₁
  obtain ⟨hcalm, hi⟩ := setUpdate_calm hs
  refine ⟨⟨hsame.trans hcalm.same, ?_⟩, hi⟩
  intro j hj
  by_cases hij : j = i
  · rw [hij]
    apply hi
  · apply hcalm.present
    apply hpres j _ hj
    exact fun _ h => absurd h hij

theorem insertUpdates_calm {l : List ℕ} :
  ∀ {c c' : CacheLayer}, l.foldlM (insertUpdate g) c = .ok c' →
    Calm c c' ∧ ∀ i ∈ l, PresentIn c'.pcs.cachedSc i
  := by
  induction l with
  | nil =>
      intro c c' hs
      cases hs
      use .refl c, by simp
  | cons i l ih =>
      intro c c' hs
      rw [List.foldlM_cons] at hs
      obtain ⟨c₁, h₁, hs⟩ := bind_eq_ok.mp hs
      obtain ⟨hcalm, hi⟩ := insertUpdate_calm h₁
      obtain ⟨hcalm₂, hl⟩ := ih hs
      use hcalm.trans hcalm₂
      intro j hj
      obtain rfl | hj := List.mem_cons.mp hj
      · apply hcalm₂.present _ hi
      · apply hl j hj

theorem updateRest_calm {fuel : ℕ} :
  ∀ {orders : List (List ℕ)} {c c' : CacheLayer} {l : List ℕ},
    updateRest g fuel orders c l = .ok c' → Calm c c' ∧ ∀ i ∈ l, PresentIn c'.pcs.cachedSc i
  := by
  induction fuel with
  | zero =>
      intro orders c c' l hs
      cases l with
      | nil =>
          cases hs
          use .refl c, by simp
      | cons i l => cases hs
  | succ fuel ih =>
      intro orders c c' l hs
      cases l with
      | nil =>
          cases hs
          use .refl c, by simp
      | cons i l =>
          obtain ⟨⟨crps, rest, c₁⟩, h₁, hs⟩ := bind_eq_ok.mp hs
          obtain ⟨_, hperm, hs⟩ := bind_eq_ok.mp hs
          obtain ⟨c₂, h₂, hs⟩ := bind_eq_ok.mp hs
          rw [require_eq_ok] at hperm
          obtain ⟨hcalm, hl⟩ := requestBatch_calm h₁
          obtain ⟨hcalm₂, hread⟩ := insertUpdates_calm h₂
          obtain ⟨hcalm₃, hrest⟩ := ih hs
          use (hcalm.trans hcalm₂).trans hcalm₃
          intro j hj
          rcases hl j hj with hj | hj | hj
          · apply hcalm₃.present j (hread j (hperm.mem_iff.mpr hj))
          · apply hrest j hj
          · apply hcalm₃.present j (hcalm₂.present j hj)

theorem mem_destutter {α : Type} {R : α → α → Prop} [DecidableRel R] (hR : ∀ a b, ¬ R a b → a = b)
    {l : List α} {a : α} (ha : a ∈ l) :
  a ∈ l.destutter R
  := by
  cases l with
  | nil => cases ha
  | cons b l =>
      rw [List.destutter_cons']
      induction l generalizing b with
      | nil => simpa using ha
      | cons d l ih =>
          by_cases hbd : R b d
          · rw [List.destutter'_cons_pos _ hbd]
            obtain rfl | ha := List.mem_cons.mp ha
            · apply List.mem_cons_self
            · apply List.mem_cons_of_mem b (ih d ha)
          · rw [List.destutter'_cons_neg _ hbd]
            apply ih b
            obtain rfl := hR b d hbd
            simpa using ha

/-- The pages of all lbas are targets. -/
theorem mem_scTargets {lbaSet : List ℕ} {lba : ℕ} (h : lba ∈ lbaSet) :
  lba / ridxinpage ∈ scTargets lbaSet
  := by
  apply mem_destutter
  · intro a b hab
    simpa using hab
  · apply List.mem_map_of_mem h

/-- `cache_layer_sc_update`: the pages of the lbas are present then. -/
theorem scUpdate_calm {lbaSet : List ℕ} {orders : List (List ℕ)}
    (hs : scUpdate g c lbaSet orders = .ok c') :
  Calm c c' ∧ ∀ lba ∈ lbaSet, c.pcs.scPinning = true ∨ PresentIn c'.pcs.cachedSc (lba / ridxinpage)
  := by
  unfold scUpdate at hs
  split at hs
  · rename_i hpin
    cases hs
    use .refl c, fun _ _ => .inl hpin
  · obtain ⟨⟨rest, c₁⟩, h₁, hs⟩ := bind_eq_ok.mp hs
    obtain ⟨hcalm, hl⟩ := updateCached_calm h₁
    obtain ⟨hcalm₂, hrest⟩ := updateRest_calm hs
    use hcalm.trans hcalm₂
    intro lba hlba
    right
    rcases hl _ (mem_scTargets hlba) with hi | hi
    · apply hrest _ hi
    · apply hcalm₂.present _ hi

/-! ### Indexes -/

theorem occupyIdx_calm {pba size : ℕ} {pcs : PcSet} (hs : c.pcs.occupy .idx pba size = .ok pcs) :
  Calm c { c with pcs := pcs }
  := by
  obtain ⟨_, -, hs⟩ := bind_eq_ok.mp hs
  cases hs
  use ⟨rfl, rfl, rfl, rfl⟩, fun _ hj => hj

theorem setInsertIdx_calm {pba : ℕ} (hs : setInsert g c .idx pba = .ok c') :
  Calm c c'
  := by
  obtain ⟨hsame, hpres⟩ := setInsert_calm hs
  use hsame, fun j hj => hpres j (by simp) hj

theorem idxCheckAndOccupy_calm {pba size : ℕ} {hit : Bool}
    (hs : idxCheckAndOccupy g c pba size = .ok (hit, c')) :
  Calm c c'
  := by
  obtain ⟨⟨o, pcs⟩, h₁, hs⟩ := bind_eq_ok.mp hs
  obtain ⟨hcalm, -⟩ := isCached_calm h₁
  dsimp only at hs
  split at hs
  · cases hs
    apply hcalm
  · obtain ⟨c₁, h₂, hs⟩ := bind_eq_ok.mp hs
    obtain ⟨pcs', h₃, hs⟩ := bind_eq_ok.mp hs
    cases hs
    apply (hcalm.trans (makeSpace_calm h₂)).trans (occupyIdx_calm h₃)

theorem idxInsert_calm {pba size : ℕ} (hs : idxInsert g c pba size = .ok c') :
  Calm c c'
  := by
  obtain ⟨⟨hit, c₁⟩, h₁, hs⟩ := bind_eq_ok.mp hs
  have hcalm := idxCheckAndOccupy_calm h₁
  dsimp only at hs
  split at hs
  · cases hs
    apply hcalm
  · apply hcalm.trans (setInsertIdx_calm hs)

theorem idxForceEvict_calm {pba : ℕ} (hs : idxForceEvict c pba = .ok c') :
  Calm c c'
  := by
  obtain ⟨pcs, h₁, hs⟩ := bind_eq_ok.mp hs
  cases hs
  unfold PcSet.forceEvictIdx at h₁
  split at h₁
  · cases h₁
    exact .refl c
  · obtain ⟨_, -, h₁⟩ := bind_eq_ok.mp h₁
    cases h₁
    have hdelete : Calm c { c with pcs := c.pcs.lruDelete .idx pba } := by
      unfold PcSet.lruDelete
      split
      · use ⟨rfl, rfl, rfl, rfl⟩, fun _ hj => hj
      · exact .refl c
    split
    · use hdelete.same.trans ⟨rfl, rfl, rfl, rfl⟩, hdelete.present
    · use ⟨rfl, rfl, rfl, rfl⟩, fun _ hj => hj

/-- `cache_layer_idx_read`: unless the index is cached, the request waits for it. -/
theorem idxRead_calm {pba size req : ℕ} {hit : Bool}
    (hs : idxRead g c pba size req = .ok (hit, c')) :
  Asked c.pcs c'.pcs .idx pba (some req) (hit = false)
    ∧ ∀ j, PresentIn c.pcs.cachedSc j → PresentIn c'.pcs.cachedSc j
  := by
  obtain ⟨⟨hit', c₁⟩, h₁, hs⟩ := bind_eq_ok.mp hs
  have hcalm := idxCheckAndOccupy_calm h₁
  dsimp only at hs
  split at hs
  · cases hs
    use asked_same hcalm.same (by simp), hcalm.present
  · obtain ⟨pcs, h₂, hs⟩ := bind_eq_ok.mp hs
    cases hs
    obtain ⟨hreq, hpres⟩ := send_calm h₂
    exact ⟨.inl ⟨rfl, (hcalm.same.await .idx pba req).trans hreq⟩,
      fun j hj => hpres j (hcalm.present j hj)⟩

theorem idxRetry_calm {pba size : ℕ} (hs : idxRetry g c pba size = .ok c') :
  Calm c c'
  := by
  unfold idxRetry at hs
  split at hs
  · obtain ⟨pcs, h₁, hs⟩ := bind_eq_ok.mp hs
    apply (occupyIdx_calm h₁).trans (setInsertIdx_calm hs)
  · split at hs
    · apply setInsertIdx_calm hs
    · cases hs
      exact .refl c

end CacheLayer

end AppL
