import AppL.Cache.Copies

/-!
# Dirty shortcut pages

The log of the cache layer says which shortcut pages have been updated after their last write.
Such a page is dirty, and its eviction writes it, as long as no garbage collection of the
shortcut segment meets a dirty page other than the one that is being evicted.
-/

namespace AppL

open Transition

namespace CacheLayer

variable {g : Geometry} {c c' : CacheLayer}

/-- The page has been updated after its last write; the last event is the first of the
list. -/
def unwritten : List Event → ℕ → Bool
  | [], _ => false
  | .update j :: l, i => j = i || unwritten l i
  | .write j _ :: l, i => if j = i then false else unwritten l i

variable (g c) in
/-- When the eviction of a dirty page finds the segment full, no other page that has a valid
copy in the segment is dirty. -/
def KeepsDirty : Act → Prop
  | .evict => c.bm.checkFull g c.scSeg = true → ∀ x ∈ c.victim, ∀ p ∈ c.validPages g,
      c.oobScidx p ≠ x.1 → c.scFlag (c.oobScidx p) ≠ some .dirty
  | _ => True

instance decidableKeepsDirty : ∀ a, Decidable (KeepsDirty g c a)
  | .evict => inferInstanceAs (Decidable (_ → _))
  | .isCached _ _ => isTrue trivial
  | .occupy _ _ _ => isTrue trivial
  | .reclaim _ => isTrue trivial
  | .send _ _ _ => isTrue trivial
  | .push _ _ => isTrue trivial
  | .update _ => isTrue trivial
  | .recount => isTrue trivial
  | .forceEvict _ => isTrue trivial

variable (c) in
/-- The pages that have been updated after their last write are dirty. -/
def UnwrittenDirty : Prop := ∀ i, unwritten c.log i = true → c.scFlag i = some .dirty

theorem scFlag_set_ne {i j : ℕ} {pc : PageCache} {l : List PageCache} (hij : i ≠ j) :
  ((l.set i pc)[j]?).map PageCache.flag = (l[j]?).map PageCache.flag
  := by
  rw [List.getElem?_set_ne hij]

/-- The actions other than an eviction. -/
theorem UnwrittenDirty.pages (h : UnwrittenDirty c) (hp : Pages c c') :
  UnwrittenDirty c'
  := by
  intro j hj
  unfold scFlag
  cases hp with
  | same hsc hlog =>
      rw [hsc]
      rw [hlog] at hj
      apply h j hj
  | change i pc pc' hpc hsc _ hflag hlog =>
      rw [hlog] at hj
      have hd := h j hj
      rw [hsc, scFlag_set_ne, ← scFlag, hd]
      rintro rfl
      apply hflag
      rw [scFlag, hpc] at hd
      simpa using hd
  | update i pc hpc hsc hlog =>
      rw [hsc]
      by_cases hij : i = j
      · subst hij
        rw [List.getElem?_set_self (List.getElem?_eq_some_iff.mp hpc).1]
        rfl
      · rw [scFlag_set_ne hij]
        apply h j
        rw [hlog] at hj
        simpa [unwritten, hij] using hj

/-- A collection changes the flags of the pages that the valid pages name. -/
theorem scGcIfFull_pages (hs : scGcIfFull g c = .ok c') :
  c'.log = c.log ∧ ∀ j, (c.bm.checkFull g c.scSeg = true → ∀ p ∈ c.validPages g,
    c.oobScidx p ≠ j) → c'.scFlag j = c.scFlag j
  := by
  unfold scGcIfFull at hs
  split at hs
  · rename_i hfull
    obtain ⟨⟨ppas, bm⟩, hw, hs⟩ := bind_eq_ok.mp hs
    obtain ⟨pcs, hu, hs⟩ := bind_eq_ok.mp hs
    cases hs
    obtain ⟨sc, rfl, hrest⟩ := updatePcPpaByGc_rest hu
    refine ⟨rfl, ?_⟩
    intro j hj
    change (sc[j]?).map PageCache.flag = (c.pcs.cachedSc[j]?).map PageCache.flag
    rw [hrest]
    intro hm
    obtain ⟨x, hx, rfl⟩ := List.mem_map.mp hm
    obtain ⟨p, hp, hpx⟩ := List.mem_map.mp (List.of_mem_zip hx).1
    apply hj hfull p hp hpx
  · cases hs
    use rfl, fun _ _ => rfl

/-- The write of a page: the other pages that are dirty stay dirty. -/
theorem writeBack_pages {i : ℕ} {pc : PageCache} (hd : pc.flag = .dirty)
    (hs : writeBack g c i pc = .ok c') :
  (∃ ppa, c'.log = .write i ppa :: c.log) ∧ ∀ j ≠ i,
    (c.bm.checkFull g c.scSeg = true → ∀ p ∈ c.validPages g, c.oobScidx p ≠ j) →
      c'.scFlag j = c.scFlag j
  := by
  unfold writeBack at hs
  rw [if_pos hd] at hs
  obtain ⟨⟨res, c₃⟩, h₁, hs⟩ := bind_eq_ok.mp hs
  obtain ⟨pc', -, hs⟩ := bind_eq_ok.mp hs
  cases hs
  obtain ⟨⟨res', c₂⟩, h₂, h₁⟩ := bind_eq_ok.mp h₁
  cases h₁
  obtain ⟨c₁, hgc, h₂⟩ := bind_eq_ok.mp h₂
  obtain ⟨⟨o, bm⟩, -, h₂⟩ := bind_eq_ok.mp h₂
  obtain ⟨ppa, -, h₂⟩ := bind_eq_ok.mp h₂
  cases h₂
  obtain ⟨hlog, hflag⟩ := scGcIfFull_pages hgc
  use ⟨res, by rw [← hlog]⟩
  intro j hj hnot
  rw [← hflag j hnot]
  change ((c₁.pcs.cachedSc.set i _)[j]?).map PageCache.flag = _
  rw [scFlag_set_ne fun hij => hj hij.symm]
  rfl

/-- A turn of `pc_evict`: a shortcut page is written when it is dirty, and the other pages that
are dirty stay dirty unless a collection meets them. -/
theorem evictNode_pages {n : LruNode} (hn : c.pcs.lru.getLast? = some n)
    (hs : evictNode g c n = .ok c') :
  (c'.log = c.log ∧ (n.type = .shortcut → c.scFlag n.id = some .clean)
      ∨ n.type = .shortcut ∧ ∃ ppa, c'.log = .write n.id ppa :: c.log)
    ∧ (KeepsDirty g c .evict → ∀ j, (n.type = .shortcut → j ≠ n.id) →
      c.scFlag j = some .dirty → c'.scFlag j = some .dirty)
  := by
  unfold evictNode at hs
  dsimp only at hs
  split at hs
  · rename_i htype
    obtain ⟨pc, hpc, hs⟩ := bind_eq_ok.mp hs
    obtain ⟨_, hflag, hs⟩ := bind_eq_ok.mp hs
    obtain ⟨c₁, h₁, hs⟩ := bind_eq_ok.mp hs
    obtain ⟨pc₁, -, hs⟩ := bind_eq_ok.mp hs
    cases hs
    rw [orThrow_eq_ok] at hpc
    rw [require_eq_ok] at hflag
    change c.pcs.cachedSc[n.id]? = some pc at hpc
    have hset : ∀ j ≠ n.id, ∀ pc', ((c₁.pcs.cachedSc.set n.id pc')[j]?).map PageCache.flag
        = c₁.scFlag j := by
      intro j hj pc'
      apply scFlag_set_ne
      exact fun hij => hj hij.symm
    rcases hflag with hd | hcl
    · obtain ⟨hlog, hrest⟩ := writeBack_pages hd h₁
      use .inr ⟨htype, hlog⟩
      intro hk j hj hjd
      have hne := hj htype
      refine (hset j hne _).trans ?_
      rw [hrest j hne, ← hjd]
      · rfl
      · rintro hfull p hp rfl
        apply hk hfull (n.id, pc) _ p hp hne hjd
        simp [victim, hn, htype, hpc, hd]
    · rw [writeBack, if_neg (by simp [hcl])] at h₁
      cases h₁
      constructor
      · refine .inl ⟨rfl, fun _ => ?_⟩
        rw [scFlag, hpc, ← hcl]
        rfl
      · intro _ j hj hjd
        apply (hset j (hj htype) _).trans hjd
  · rename_i htype
    obtain ⟨_, -, hs⟩ := bind_eq_ok.mp hs
    obtain ⟨_, -, hs⟩ := bind_eq_ok.mp hs
    cases hs
    refine ⟨.inl ⟨rfl, ?_⟩, fun _ _ _ hjd => hjd⟩
    rw [htype]
    intro h
    cases h

/-- The invariant is kept by every action that meets the guard. -/
theorem UnwrittenDirty.step {a : Act} (h : UnwrittenDirty c) (hk : KeepsDirty g c a)
    (hs : step g c a = .ok c') :
  UnwrittenDirty c'
  := by
  by_cases ha : a = .evict
  · subst ha
    obtain ⟨n, hn, hs⟩ := bind_eq_ok.mp hs
    rw [orThrow_eq_ok] at hn
    obtain ⟨hlog, hrest⟩ := evictNode_pages hn hs
    replace hrest := hrest hk
    intro j hj
    rcases hlog with ⟨hlog, hcl⟩ | ⟨htype, ppa, hlog⟩
    · rw [hlog] at hj
      have hd := h j hj
      apply hrest j _ hd
      rintro htype rfl
      rw [hcl htype] at hd
      cases hd
    · have hji : n.id ≠ j := by
        rintro rfl
        rw [hlog] at hj
        simp [unwritten] at hj
      rw [hlog] at hj
      apply hrest j
      · intro _ hij
        apply hji hij.symm
      · apply h j
        simpa [unwritten, hji] using hj
  · apply h.pages (step_pages hs ha).2.2

/-- In every state that is reached by actions whose collections meet no dirty page but the
evicted one, a shortcut page that has been updated after its last write is dirty, and when it
is evicted it is written. -/
theorem unwritten_dirty_run {maxCachedSize lbaNum scSeg : ℕ} {scPinning : Bool}
    {acts : List Act}
    (hk : Guarded (CacheLayer.step g) (KeepsDirty g)
      (init g maxCachedSize lbaNum scPinning scSeg) acts)
    (hs : run (CacheLayer.step g) (init g maxCachedSize lbaNum scPinning scSeg) acts = .ok c) :
  (∀ i, unwritten c.log i = true → c.scFlag i = some .dirty)
    ∧ ∀ i size, c.pcs.lru.getLast? = some ⟨.shortcut, i, size⟩ → unwritten c.log i = true →
      CacheLayer.step g c .evict = .ok c' → ∃ ppa, c'.log = .write i ppa :: c.log
  := by
  have h : UnwrittenDirty c := run_preserves UnwrittenDirty
    (fun _ _ _ h hk hs => h.step hk hs) (fun i hi => by cases hi) hk hs
  use h
  intro i size hn hi hs'
  obtain ⟨n, hn', hs'⟩ := bind_eq_ok.mp hs'
  rw [orThrow_eq_ok] at hn'
  rw [hn] at hn'
  cases hn'
  obtain ⟨hlog, -⟩ := evictNode_pages hn hs'
  rcases hlog with ⟨-, hcl⟩ | ⟨-, hlog⟩
  · have hd := h i hi
    rw [hcl rfl] at hd
    cases hd
  · apply hlog

/-! ### Pages that are updated in turn -/

/-- A segment of four pages. -/
def fourPages : Geometry := ⟨4, 1, 1, by decide, Nat.one_pos⟩

/-- Three shortcut pages are updated in turn, in a cache that has room for two. -/
def threeInTurn : List Act :=
  updateActs 0 0 false ++ updateActs 1 0 false ++ updateActs 2 1 false ++ updateActs 0 1 true
    ++ updateActs 1 1 true ++ updateActs 2 1 true

/-- After the updates in turn, pages `1` and `2` are dirty, and the eviction of page `1` writes
it. -/
theorem unwritten_dirty_threeInTurn :
  ∃ c c', run (CacheLayer.step fourPages) (init fourPages (2 * pagesize + 1) 60000 false 0)
      threeInTurn = .ok c ∧ CacheLayer.step fourPages c .evict = .ok c'
    ∧ c.scFlag 2 = some .dirty ∧ ∃ ppa, c'.log = .write 1 ppa :: c.log
  := by
  have hk : Guarded (CacheLayer.step fourPages) (KeepsDirty fourPages)
      (init fourPages (2 * pagesize + 1) 60000 false 0) threeInTurn := by decide
  obtain ⟨c, hs⟩ : ∃ c, run (CacheLayer.step fourPages)
      (init fourPages (2 * pagesize + 1) 60000 false 0) threeInTurn = .ok c := ⟨_, rfl⟩
  obtain ⟨c', hs'⟩ : ∃ c', CacheLayer.step fourPages c .evict = .ok c' := by
    cases hs
    exact ⟨_, rfl⟩
  have h := @unwritten_dirty_run fourPages c c' _ _ _ _ _ hk hs
  refine ⟨c, c', hs, hs', h.1 2 ?_, h.2 1 pagesize ?_ ?_ hs'⟩
  · cases hs
    decide
  · cases hs
    decide
  · cases hs
    decide

/-- That eviction finds the segment full.  The collection meets shortcut page `2`, which has a
copy, and makes it clean: its last update is lost when it is evicted. -/
theorem unwritten_clean :
  ¬ ∀ (g : Geometry) (maxCachedSize lbaNum scSeg : ℕ) (scPinning : Bool) (acts : List Act)
    (c : CacheLayer), run (CacheLayer.step g) (init g maxCachedSize lbaNum scPinning scSeg) acts
      = .ok c → ∀ i, unwritten c.log i = true → c.scFlag i = some .dirty
  := by
  intro h
  obtain ⟨c, hs⟩ : ∃ c, run (CacheLayer.step fourPages)
      (init fourPages (2 * pagesize + 1) 60000 false 0) (threeInTurn ++ updateActs 0 1 true)
      = .ok c := ⟨_, rfl⟩
  have hu : unwritten c.log 2 = true := by
    cases hs
    decide
  have hd := h _ _ _ _ _ _ c hs 2 hu
  cases hs
  revert hd
  decide

end CacheLayer

end AppL
