import AppL.Cache.ScSegment

/-!
# The copies of the shortcut pages in flash

The functions of the page cache are taken as the actions of a transition system.  A garbage
collection of the shortcut segment keeps the record of the copies, and so does an eviction
that finds its old copy where it was before the collection.
-/

namespace AppL

open Transition

namespace CacheLayer

/-- The functions of the page cache that change it.  `evict` is a turn of the loop of
`pc_evict`, and `recount` what the loop does when there is no node. -/
inductive Act where
  | isCached (type : CacheType) (id : ℕ)
  | occupy (type : CacheType) (id size : ℕ)
  | reclaim (id : ℕ)
  | send (type : CacheType) (parents : Option ℕ) (id : ℕ)
  | push (type : CacheType) (id : ℕ)
  | update (id : ℕ)
  | evict
  | recount
  | forceEvict (pba : ℕ)
  deriving DecidableEq, Repr

variable (g : Geometry) (c : CacheLayer)

/-- A page is underway, as the callers of `pc_set_insert` see to. -/
def underway (type : CacheType) (id : ℕ) : Bool :=
  (c.pcs.pick type id).any fun pc => pc.flag = .occupied ∨ pc.flag = .flying

/-- One action.  Only a page that is underway is inserted, and only a page that has just been
occupied is reclaimed. -/
def step : Act → Except Abort CacheLayer
  | .isCached type id => do
      let (_, pcs) ← c.pcs.isCached type id
      return { c with pcs := pcs }
  | .occupy type id size => do
      let pcs ← c.pcs.occupy type id size
      return { c with pcs := pcs }
  | .reclaim id => do
      require .wrongPhase (c.underway .shortcut id = true)
      let pcs ← c.pcs.reclaim id
      return { c with pcs := pcs }
  | .send type parents id => do
      let pcs ← c.pcs.sendGetRequest type parents id
      return { c with pcs := pcs }
  | .push type id => do
      require .wrongPhase (c.underway type id = true)
      let pcs ← c.pcs.push type id
      return { c with pcs := pcs }
  | .update id => setUpdate c id
  | .evict => do
      let n ← orThrow .outOfBounds c.pcs.lru.getLast?
      evictNode g c n
  | .recount =>
      .ok { c with pcs := { c.pcs with
        nowCachedSize := c.pcs.cachedSc.countP (fun pc => pc.flag ≠ .empty) * pagesize } }
  | .forceEvict pba => do
      let pcs ← c.pcs.forceEvictIdx pba
      return { c with pcs := pcs }

/-! ### Shortcut pages under the actions -/

/-- The flag of a shortcut page. -/
def scFlag (i : ℕ) : Option CacheFlag := (c.pcs.cachedSc[i]?).map PageCache.flag

/-- The address that is recorded for the copy of a shortcut page in flash. -/
def copy (i : ℕ) : Option ℕ := (c.pcs.cachedSc[i]?).bind PageCache.ppa

variable {g c}

/-- What an action other than an eviction does to the shortcut pages: nothing, or it changes a
page that is not dirty, or it makes a page dirty.  The recorded addresses stay. -/
inductive Pages (c c' : CacheLayer) : Prop where
  | same : c'.pcs.cachedSc = c.pcs.cachedSc → c'.log = c.log → Pages c c'
  | change (i : ℕ) (pc pc' : PageCache) : c.pcs.cachedSc[i]? = some pc →
      c'.pcs.cachedSc = c.pcs.cachedSc.set i pc' → pc'.ppa = pc.ppa → pc.flag ≠ .dirty →
      c'.log = c.log → Pages c c'
  | update (i : ℕ) (pc : PageCache) : c.pcs.cachedSc[i]? = some pc →
      c'.pcs.cachedSc = c.pcs.cachedSc.set i { pc with flag := .dirty } →
      c'.log = .update i :: c.log → Pages c c'

theorem lruUpdate_cachedSc (pcs : PcSet) (type : CacheType) (id : ℕ) :
  (pcs.lruUpdate type id).cachedSc = pcs.cachedSc
  := by
  unfold PcSet.lruUpdate
  split
  · rfl
  · rfl

theorem lruDelete_cachedSc (pcs : PcSet) (type : CacheType) (id : ℕ) :
  (pcs.lruDelete type id).cachedSc = pcs.cachedSc
  := by
  unfold PcSet.lruDelete
  split
  · rfl
  · rfl

theorem await_cachedSc (pcs : PcSet) (type : CacheType) (id req : ℕ) :
  (pcs.await type id req).cachedSc = pcs.cachedSc
  := by
  unfold PcSet.await
  cases type with
  | shortcut =>
      dsimp only
      split
      · rfl
      · rfl
  | idx =>
      dsimp only
      split
      · rfl
      · rfl

theorem isCached_cachedSc {pcs pcs' : PcSet} {type : CacheType} {id : ℕ}
    {pc : Option PageCache} (h : pcs.isCached type id = .ok (pc, pcs')) :
  pcs'.cachedSc = pcs.cachedSc
  := by
  unfold PcSet.isCached at h
  obtain ⟨_, -, h⟩ := bind_eq_ok.mp h
  split at h
  · cases h
    rfl
  · split at h
    · cases h
      rfl
    · split at h
      · cases h
        apply lruUpdate_cachedSc
      · cases h
        rfl

/-- The actions other than an eviction. -/
theorem step_pages {a : Act} {c' : CacheLayer} (h : step g c a = .ok c') (ha : a ≠ .evict) :
  c'.bm = c.bm ∧ c'.scSeg = c.scSeg ∧ Pages c c'
  := by
  cases a with
  | isCached type id =>
      obtain ⟨⟨pc, pcs⟩, hp, h⟩ := bind_eq_ok.mp h
      cases h
      use rfl, rfl, .same (isCached_cachedSc hp) rfl
  | occupy type id size =>
      obtain ⟨pcs, hp, h⟩ := bind_eq_ok.mp h
      cases h
      cases type with
      | shortcut =>
          obtain ⟨pc, hpc, hp⟩ := bind_eq_ok.mp hp
          obtain ⟨_, hflag, hp⟩ := bind_eq_ok.mp hp
          cases hp
          rw [orThrow_eq_ok] at hpc
          rw [require_eq_ok] at hflag
          refine ⟨rfl, rfl, .change id pc _ hpc rfl rfl ?_ rfl⟩
          simp [hflag]
      | idx =>
          obtain ⟨_, -, hp⟩ := bind_eq_ok.mp hp
          cases hp
          use rfl, rfl, .same rfl rfl
  | reclaim id =>
      obtain ⟨_, hu, h⟩ := bind_eq_ok.mp h
      obtain ⟨pcs, hp, h⟩ := bind_eq_ok.mp h
      cases h
      obtain ⟨pc, hpc, hp⟩ := bind_eq_ok.mp hp
      cases hp
      rw [orThrow_eq_ok] at hpc
      rw [require_eq_ok] at hu
      refine ⟨rfl, rfl, .change id pc _ hpc rfl rfl ?_ rfl⟩
      rintro hd
      simp [underway, PcSet.pick, hpc, hd] at hu
  | send type parents id =>
      obtain ⟨pcs, hp, h⟩ := bind_eq_ok.mp h
      cases h
      obtain ⟨pc, hpc, hp⟩ := bind_eq_ok.mp hp
      obtain ⟨_, hflag, hp⟩ := bind_eq_ok.mp hp
      rw [orThrow_eq_ok] at hpc
      rw [require_eq_ok] at hflag
      have hsc : pcs.cachedSc = (c.pcs.put type id { pc with flag := .flying }).cachedSc := by
        cases parents with
        | none =>
            cases hp
            rfl
        | some req =>
            cases hp
            apply await_cachedSc
      cases type with
      | shortcut =>
          refine ⟨rfl, rfl, .change id pc _ hpc hsc rfl ?_ rfl⟩
          rintro hd
          simp [hd] at hflag
      | idx => use rfl, rfl, .same hsc rfl
  | push type id =>
      obtain ⟨_, hu, h⟩ := bind_eq_ok.mp h
      obtain ⟨pcs, hp, h⟩ := bind_eq_ok.mp h
      cases h
      obtain ⟨pc, hpc, hp⟩ := bind_eq_ok.mp hp
      cases hp
      rw [orThrow_eq_ok] at hpc
      rw [require_eq_ok] at hu
      cases type with
      | shortcut =>
          refine ⟨rfl, rfl, .change id pc _ hpc rfl (by simp) ?_ rfl⟩
          rintro hd
          simp [underway, hpc, hd] at hu
      | idx => use rfl, rfl, .same rfl rfl
  | update id =>
      obtain ⟨pcs, hp, h⟩ := bind_eq_ok.mp h
      cases h
      obtain ⟨pc, hpc, hp⟩ := bind_eq_ok.mp hp
      cases hp
      rw [orThrow_eq_ok] at hpc
      use rfl, rfl, .update id pc hpc rfl rfl
  | evict => exact absurd rfl ha
  | recount =>
      cases h
      use rfl, rfl, .same rfl rfl
  | forceEvict pba =>
      obtain ⟨pcs, hp, h⟩ := bind_eq_ok.mp h
      cases h
      refine ⟨rfl, rfl, .same ?_ rfl⟩
      unfold PcSet.forceEvictIdx at hp
      split at hp
      · cases hp
        rfl
      · obtain ⟨_, -, hp⟩ := bind_eq_ok.mp hp
        cases hp
        dsimp only
        split
        · apply lruDelete_cachedSc
        · rfl

theorem copy_set {i j : ℕ} {pc pc' : PageCache} {l : List PageCache} (hpc : l[i]? = some pc)
    (hppa : pc'.ppa = pc.ppa) :
  ((l.set i pc')[j]?).bind PageCache.ppa = (l[j]?).bind PageCache.ppa
  := by
  rw [List.getElem?_set]
  split
  · rename_i hij
    subst hij
    have hi := (List.getElem?_eq_some_iff.mp hpc).1
    rw [if_pos hi, hpc]
    apply hppa
  · rfl

/-- An action other than an eviction leaves the recorded addresses alone. -/
theorem Pages.copy_eq {c' : CacheLayer} (h : Pages c c') (j : ℕ) :
  c'.copy j = c.copy j
  := by
  unfold copy
  cases h with
  | same hsc _ => rw [hsc]
  | change i pc pc' hpc hsc hppa _ _ =>
      rw [hsc]
      apply copy_set hpc hppa
  | update i pc hpc hsc _ =>
      rw [hsc]
      apply copy_set hpc
      rfl

/-! ### The garbage collection of the segment -/

theorem setOob_first (bm : BlockManager) (i ppa p : ℕ) :
  (bm.setOob [i] ppa).oob (p * l2pgap) = if p = ppa then i else bm.oob (p * l2pgap)
  := by
  have hdiv : p * l2pgap / l2pgap = p := Nat.mul_div_cancel p (by decide)
  simp [BlockManager.setOob, hdiv]

theorem update_first (f : ℕ → Bool) (b : Bool) (ppa p : ℕ) :
  Function.update f (ppa * l2pgap) b (p * l2pgap) = if p = ppa then b else f (p * l2pgap)
  := by
  rw [Function.update_apply]
  have : p * l2pgap = ppa * l2pgap ↔ p = ppa := by
    simp [l2pgap]
  simp only [this]

theorem sid_first (p : ℕ) :
  g.sid (p * l2pgap) = p / g.pps
  := by
  rw [Geometry.sid_eq, Nat.mul_div_cancel p (by decide)]

/-- The bits and the out-of-band areas of a block manager, at the first piece of a page. -/
structure Written (bm bm' : BlockManager) (start : ℕ) (is : List ℕ) : Prop where
  bit : ∀ p, bm'.bitset (p * l2pgap)
    = if start ≤ p ∧ p < start + is.length then true else bm.bitset (p * l2pgap)
  oob : ∀ p, bm'.oob (p * l2pgap)
    = if start ≤ p then (is[p - start]?).getD (bm.oob (p * l2pgap)) else bm.oob (p * l2pgap)

theorem rewritePage_ok {s u i ppa : ℕ} {bm bm' : BlockManager}
    (hf : BlockManager.Filled g bm s u) (h : rewritePage g s bm i = .ok (ppa, bm')) :
  u < g.pps ∧ ppa = s * g.pps + u ∧ BlockManager.Filled g bm' s (u + 1)
    ∧ Written bm bm' (s * g.pps + u) [i]
  := by
  obtain ⟨⟨o, bm₁⟩, h₁, h⟩ := bind_eq_ok.mp h
  obtain ⟨ppa', h₂, h⟩ := bind_eq_ok.mp h
  rw [orThrow_eq_ok] at h₂
  subst h₂
  have hu : u < g.pps := by
    rcases Nat.lt_or_ge u g.pps with hu | hu
    · apply hu
    · have := hf.le
      have : u = g.pps := by omega
      subst this
      rw [hf.getPageAddr_full] at h₁
      cases h₁
  rw [hf.getPageAddr_next hu] at h₁
  cases h₁
  cases h
  refine ⟨hu, rfl, ?_, ?_, ?_⟩
  · apply BlockManager.Filled.bitSet
    apply BlockManager.Filled.setOob
    apply hf.assignPage hu
  · intro p
    rw [BlockManager.bitSet_bitset, update_first]
    simp only [List.length_singleton]
    have : p = s * g.pps + u ↔ s * g.pps + u ≤ p ∧ p < s * g.pps + u + 1 := by omega
    simp only [this]
    rfl
  · intro p
    rw [BlockManager.bitSet_oob, setOob_first]
    split
    · rename_i hp
      simp [hp]
    · rename_i hp
      split
      · have : p - (s * g.pps + u) = p - (s * g.pps + u) - 1 + 1 := by omega
        rw [this]
        rfl
      · rfl

theorem Written.append {bm₁ bm₂ bm₃ : BlockManager} {start i : ℕ} {is : List ℕ}
    (h₁ : Written bm₁ bm₂ start [i]) (h₂ : Written bm₂ bm₃ (start + 1) is) :
  Written bm₁ bm₃ start (i :: is)
  where
    bit p := by
      rw [h₂.bit, h₁.bit]
      simp only [List.length_cons, List.length_nil]
      split
      · rw [if_pos (by omega)]
      · split
        · rw [if_pos (by omega)]
        · rw [if_neg (by omega)]
    oob p := by
      rw [h₂.oob, h₁.oob]
      rcases Nat.lt_trichotomy p start with hp | hp | hp
      · rw [if_neg (by omega), if_neg (by omega), if_neg (by omega)]
      · subst hp
        rw [if_neg (by omega), if_pos (by omega), if_pos (by omega)]
        simp
      · rw [if_pos (by omega), if_pos (by omega), if_pos (by omega)]
        have : p - start = p - (start + 1) + 1 := by omega
        rw [this]
        rfl

/-- The pages are written one after another, from the first free page on. -/
theorem rewritePages_ok {s : ℕ} {is : List ℕ} :
  ∀ {u : ℕ} {bm bm' : BlockManager} {ppas : List ℕ}, BlockManager.Filled g bm s u →
    rewritePages g s bm is = .ok (ppas, bm') →
      ppas = List.range' (s * g.pps + u) is.length ∧ BlockManager.Filled g bm' s (u + is.length)
        ∧ Written bm bm' (s * g.pps + u) is
  := by
  induction is with
  | nil =>
      intro u bm bm' ppas hf h
      cases h
      refine ⟨rfl, hf, ?_, ?_⟩
      · intro p
        rw [if_neg (by simp)]
      · intro p
        simp
  | cons i is ih =>
      intro u bm bm' ppas hf h
      obtain ⟨⟨ppa, bm₁⟩, h₁, h⟩ := bind_eq_ok.mp h
      obtain ⟨⟨ppas', bm₂⟩, h₂, h⟩ := bind_eq_ok.mp h
      cases h
      obtain ⟨-, hppa, hf₁, hw₁⟩ := rewritePage_ok hf h₁
      obtain ⟨hppas, hf₂, hw₂⟩ := ih hf₁ h₂
      refine ⟨?_, ?_, hw₁.append hw₂⟩
      · rw [hppas, hppa]
        rfl
      · rw [List.length_cons, Nat.add_comm is.length, ← Nat.add_assoc]
        apply hf₂

theorem filled_resetSegment (bm : BlockManager) (s : ℕ) :
  BlockManager.Filled g (resetSegment g bm s) s 0
  where
    le := Nat.zero_le _
    used := by simp [resetSegment]
    bptr := by simp [resetSegment]
    pptr j hj := by simp [resetSegment, BlockManager.div_bps s j hj]

/-- A collection leaves the pages alone that it does not name. -/
theorem updatePcPpaByGc_rest {l : List (ℕ × ℕ)} :
  ∀ {pcs pcs' : PcSet}, updatePcPpaByGc pcs l = .ok pcs' →
    ∃ sc, pcs' = { pcs with cachedSc := sc } ∧ ∀ j ∉ l.map Prod.fst, sc[j]? = pcs.cachedSc[j]?
  := by
  induction l with
  | nil =>
      intro pcs pcs' h
      cases h
      use pcs.cachedSc, rfl, fun _ _ => rfl
  | cons y l ih =>
      intro pcs pcs' h
      obtain ⟨pc, -, h⟩ := bind_eq_ok.mp h
      obtain ⟨sc, hpcs, hrest⟩ := ih h
      use sc, hpcs
      intro j hj
      rw [List.map_cons, List.mem_cons, not_or] at hj
      rw [hrest j hj.2]
      apply List.getElem?_set_ne
      exact fun hyj => hj.1 hyj.symm

/-- The new address of a page that is named once. -/
theorem updatePcPpaByGc_mem {l : List (ℕ × ℕ)} :
  ∀ {pcs pcs' : PcSet}, updatePcPpaByGc pcs l = .ok pcs' → (l.map Prod.fst).Nodup →
    ∀ x ∈ l, (pcs'.cachedSc[x.1]?).bind PageCache.ppa = some x.2
  := by
  induction l with
  | nil =>
      intro pcs pcs' _ _ x hx
      cases hx
  | cons y l ih =>
      intro pcs pcs' h hnd x hx
      obtain ⟨pc, hpc, h⟩ := bind_eq_ok.mp h
      rw [orThrow_eq_ok] at hpc
      rw [List.map_cons, List.nodup_cons] at hnd
      rcases List.mem_cons.mp hx with rfl | hx
      · obtain ⟨sc, rfl, hrest⟩ := updatePcPpaByGc_rest h
        have hlt := (List.getElem?_eq_some_iff.mp hpc).1
        change (sc[x.1]?).bind PageCache.ppa = some x.2
        rw [hrest _ hnd.1]
        change ((pcs.cachedSc.set x.1 _)[x.1]?).bind PageCache.ppa = some x.2
        rw [List.getElem?_set_self hlt]
        rfl
      · apply ih h hnd.2 x hx

/-! ### The record of the copies -/

variable (g c) in
/-- The addresses recorded for the shortcut pages are distinct, each of them is a valid page
whose out-of-band area names the shortcut page, and every valid page of the segment is
recorded. -/
structure Recorded : Prop where
  distinct : ∀ i j p, c.copy i = some p → c.copy j = some p → i = j
  valid : ∀ i p, c.copy i = some p → c.bm.bitset (p * l2pgap) = true ∧ c.oobScidx p = i
  recorded : ∀ p ∈ c.validPages g, ∃ i, c.copy i = some p

variable (g c) in
/-- The invariant: the recorded addresses lie in the segment, whose first `u` pages are
assigned. -/
structure Copies (u : ℕ) : Prop extends Recorded g c where
  inSegment : ∀ i p, c.copy i = some p → p / g.pps = c.scSeg
  filled : BlockManager.Filled g c.bm c.scSeg u
  assigned : ∀ p ∈ c.validPages g, p < c.scSeg * g.pps + u

theorem mem_validPages {p : ℕ} :
  p ∈ c.validPages g ↔ p / g.pps = c.scSeg ∧ c.bm.bitset (p * l2pgap) = true
  := by
  rw [validPages, List.mem_filter, Geometry.mem_pages]

theorem div_pps {s u : ℕ} (hu : u < g.pps) :
  (s * g.pps + u) / g.pps = s
  := by
  rw [Nat.add_comm, Nat.add_mul_div_right _ _ g.pps_pos, Nat.div_eq_of_lt hu, Nat.zero_add]

theorem eq_of_div {s p : ℕ} (hp : p / g.pps = s) :
  s * g.pps ≤ p ∧ p < s * g.pps + g.pps
  := by
  have hdiv := Nat.div_add_mod p g.pps
  have hmod := Nat.mod_lt p g.pps_pos
  rw [hp, Nat.mul_comm] at hdiv
  omega

theorem validPages_nodup :
  (c.validPages g).Nodup
  := by
  apply List.Nodup.filter
  apply List.Nodup.map
  · intro i j hij
    apply Nat.add_left_cancel hij
  · apply List.nodup_range

/-- The pages that the valid pages name. -/
theorem Recorded.scidx_nodup (h : Recorded g c) :
  ((c.validPages g).map c.oobScidx).Nodup
  := by
  rw [List.nodup_map_iff_inj_on validPages_nodup]
  intro p hp q hq hpq
  obtain ⟨i, hi⟩ := h.recorded p hp
  obtain ⟨j, hj⟩ := h.recorded q hq
  rw [(h.valid i p hi).2, (h.valid j q hj).2] at hpq
  subst hpq
  rw [hi] at hj
  cases hj
  rfl

/-- The copy of a page is the valid page that names it. -/
theorem Copies.copy_iff {u i p : ℕ} (h : Copies g c u) :
  c.copy i = some p ↔ p ∈ c.validPages g ∧ c.oobScidx p = i
  := by
  constructor
  · intro hi
    have hv := h.valid i p hi
    use mem_validPages.mpr ⟨h.inSegment i p hi, hv.1⟩, hv.2
  · rintro ⟨hp, rfl⟩
    obtain ⟨i, hi⟩ := h.recorded p hp
    rw [(h.valid i p hi).2]
    apply hi

theorem mem_zip_range' {V : List ℕ} {f : ℕ → ℕ} {start k p : ℕ} (hk : V[k]? = some p) :
  (f p, start + k) ∈ (V.map f).zip (List.range' start V.length)
  := by
  obtain ⟨hlt, hkp⟩ := List.getElem?_eq_some_iff.mp hk
  rw [List.mem_iff_getElem?]
  use k
  simp [hlt, hkp]

/-- The cache records the new addresses: those of the valid pages, in their order. -/
theorem Copies.updatePcPpaByGc {u start : ℕ} {pcs : PcSet} (h : Copies g c u)
    (hu : updatePcPpaByGc c.pcs (((c.validPages g).map c.oobScidx).zip
      (List.range' start (c.validPages g).length)) = .ok pcs) :
  ∃ sc, pcs = { c.pcs with cachedSc := sc } ∧ ∀ i q, (sc[i]?).bind PageCache.ppa = some q ↔
    ∃ k p, (c.validPages g)[k]? = some p ∧ c.oobScidx p = i ∧ q = start + k
  := by
  have hzip : (((c.validPages g).map c.oobScidx).zip
      (List.range' start (c.validPages g).length)).map Prod.fst
      = (c.validPages g).map c.oobScidx := by
    apply List.map_fst_zip
    simp
  have hmem := updatePcPpaByGc_mem hu (by
    rw [hzip]
    apply h.toRecorded.scidx_nodup)
  obtain ⟨sc, rfl, hrest⟩ := updatePcPpaByGc_rest hu
  rw [hzip] at hrest
  have hnew : ∀ k p, (c.validPages g)[k]? = some p →
      (sc[c.oobScidx p]?).bind PageCache.ppa = some (start + k)
    := fun k p hk => hmem _ (mem_zip_range' hk)
  refine ⟨sc, rfl, ?_⟩
  intro i q
  constructor
  · intro hq
    by_cases hi : i ∈ (c.validPages g).map c.oobScidx
    · obtain ⟨p, hp, rfl⟩ := List.mem_map.mp hi
      obtain ⟨k, hk⟩ := List.mem_iff_getElem?.mp hp
      rw [hnew k p hk] at hq
      cases hq
      exact ⟨k, p, hk, rfl, rfl⟩
    · rw [hrest i hi] at hq
      obtain ⟨hp, hoob⟩ := (h.copy_iff (i := i) (p := q)).mp hq
      exfalso
      apply hi
      rw [← hoob]
      apply List.mem_map_of_mem hp
  · rintro ⟨k, p, hk, rfl, rfl⟩
    apply hnew k p hk

/-- The shortcut segment after a collection: the first pages are valid, and they name the
pages that the valid pages named before. -/
theorem Written.collected {bm : BlockManager}
    (h : Written (resetSegment g c.bm c.scSeg) bm (c.scSeg * g.pps)
      ((c.validPages g).map c.oobScidx)) :
  (∀ p, p / g.pps = c.scSeg → (bm.bitset (p * l2pgap) = true ↔
      p < c.scSeg * g.pps + (c.validPages g).length))
    ∧ ∀ k p, (c.validPages g)[k]? = some p →
      bm.oob ((c.scSeg * g.pps + k) * l2pgap) = c.oobScidx p
  := by
  constructor
  · intro p hp
    have hle := (eq_of_div hp).1
    rw [h.bit, List.length_map]
    simp only [resetSegment, sid_first, hp, if_true]
    split
    · simp
      omega
    · simp
      omega
  · intro k p hk
    rw [h.oob, if_pos (by omega)]
    simp [hk]

/-- A collection moves the valid pages to the front of the segment, and keeps the record. -/
theorem Copies.scGc {u : ℕ} {c' : CacheLayer} (h : Copies g c u) (hs : scGc g c = .ok c') :
  Copies g c' (c.validPages g).length ∧ c'.scSeg = c.scSeg ∧ c'.log = c.log
    ∧ (∃ sc, c'.pcs = { c.pcs with cachedSc := sc })
    ∧ ∀ i q, c'.copy i = some q ↔ ∃ k p, (c.validPages g)[k]? = some p ∧ c.oobScidx p = i
        ∧ q = c.scSeg * g.pps + k
  := by
  obtain ⟨⟨ppas, bm⟩, hw, hs⟩ := bind_eq_ok.mp hs
  obtain ⟨pcs, hu, hs⟩ := bind_eq_ok.mp hs
  cases hs
  obtain ⟨rfl, hf, hwr⟩ := rewritePages_ok (filled_resetSegment c.bm c.scSeg) hw
  rw [List.length_map, Nat.zero_add] at hf
  rw [List.length_map, Nat.add_zero] at hu
  obtain ⟨sc, rfl, hcopy⟩ := h.updatePcPpaByGc hu
  obtain ⟨hvalid, hoob⟩ := hwr.collected
  have hlen : (c.validPages g).length ≤ g.pps := hf.le
  have hmem : ∀ i q, (sc[i]?).bind PageCache.ppa = some q →
      q / g.pps = c.scSeg ∧ bm.bitset (q * l2pgap) = true ∧ bm.oob (q * l2pgap) = i := by
    intro i q hi
    obtain ⟨k, p, hk, rfl, rfl⟩ := (hcopy i q).mp hi
    have hlt := (List.getElem?_eq_some_iff.mp hk).1
    have hdiv : (c.scSeg * g.pps + k) / g.pps = c.scSeg := div_pps (by omega)
    use hdiv, (hvalid _ hdiv).mpr (by omega), hoob k p hk
  refine ⟨⟨⟨?_, ?_, ?_⟩, ?_, hf, ?_⟩, rfl, rfl, ⟨sc, rfl⟩, hcopy⟩
  · intro i j q hi hj
    rw [← (hmem i q hi).2.2, ← (hmem j q hj).2.2]
  · intro i q hi
    apply (hmem i q hi).2
  · intro q hq
    obtain ⟨hq, hbit⟩ := mem_validPages.mp hq
    have hlt := (hvalid q hq).mp hbit
    have hle := (eq_of_div (s := c.scSeg) hq).1
    have hk : q - c.scSeg * g.pps < (c.validPages g).length := by omega
    use c.oobScidx (c.validPages g)[q - c.scSeg * g.pps]
    apply (hcopy _ _).mpr
    exact ⟨q - c.scSeg * g.pps, _, List.getElem?_eq_getElem hk, rfl, by omega⟩
  · intro i q hi
    apply (hmem i q hi).1
  · intro q hq
    obtain ⟨hq, hbit⟩ := mem_validPages.mp hq
    apply (hvalid q hq).mp hbit

/-! ### Evictions keep the record -/

variable (g c) in
/-- The dirty shortcut page that the next turn of `pc_evict` writes. -/
def victim : Option (ℕ × PageCache) :=
  match c.pcs.lru.getLast? with
  | some n =>
      if n.type = .shortcut then
        (c.pcs.cachedSc[n.id]?).bind fun pc => if pc.flag = .dirty then some (n.id, pc) else none
      else
        none
  | none => none

variable (g c) in
/-- When the eviction finds the segment full, the page it writes has no copy, or one that
only valid pages precede in the segment. -/
def KeepsCopy : Act → Prop
  | .evict => c.bm.checkFull g c.scSeg = true → ∀ x ∈ c.victim, ∀ p ∈ x.2.ppa,
      ∀ q ∈ g.pages c.scSeg, q < p → c.bm.bitset (q * l2pgap) = true
  | _ => True

instance decidableKeepsCopy : ∀ a, Decidable (KeepsCopy g c a)
  | .evict => inferInstanceAs (Decidable (_ → _))
  | .isCached _ _ => isTrue trivial
  | .occupy _ _ _ => isTrue trivial
  | .reclaim _ => isTrue trivial
  | .send _ _ _ => isTrue trivial
  | .push _ _ => isTrue trivial
  | .update _ => isTrue trivial
  | .recount => isTrue trivial
  | .forceEvict _ => isTrue trivial

theorem Copies.congr {u : ℕ} {c' : CacheLayer} (h : Copies g c u) (hbm : c'.bm = c.bm)
    (hseg : c'.scSeg = c.scSeg) (hcopy : ∀ j, c'.copy j = c.copy j) :
  Copies g c' u
  := by
  have hv : c'.validPages g = c.validPages g := by rw [validPages, validPages, hbm, hseg]
  have ho : ∀ p, c'.oobScidx p = c.oobScidx p := by
    intro p
    rw [oobScidx, oobScidx, hbm]
  refine ⟨⟨?_, ?_, ?_⟩, ?_, ?_, ?_⟩
  · intro i j p hi hj
    rw [hcopy] at hi hj
    apply h.distinct i j p hi hj
  · intro i p hi
    rw [hcopy] at hi
    rw [hbm, ho]
    apply h.valid i p hi
  · intro p hp
    rw [hv] at hp
    obtain ⟨i, hi⟩ := h.recorded p hp
    use i, (hcopy i).trans hi
  · intro i p hi
    rw [hcopy] at hi
    rw [hseg]
    apply h.inSegment i p hi
  · rw [hbm, hseg]
    apply h.filled
  · intro p hp
    rw [hv] at hp
    rw [hseg]
    apply h.assigned p hp

/-- Page `i` gets the next page of the segment, and its old copy is invalidated. -/
theorem Copies.replace {u i : ℕ} {c' : CacheLayer} (h : Copies g c u) (hu : u < g.pps)
    (hseg : c'.scSeg = c.scSeg) (hf : BlockManager.Filled g c'.bm c.scSeg (u + 1))
    (hcopy : ∀ j, c'.copy j = if j = i then some (c.scSeg * g.pps + u) else c.copy j)
    (hbit : ∀ p, c'.bm.bitset (p * l2pgap) = if p = c.scSeg * g.pps + u then true
      else if c.copy i = some p then false else c.bm.bitset (p * l2pgap))
    (hoob : ∀ p, c'.bm.oob (p * l2pgap)
      = if p = c.scSeg * g.pps + u then i else c.bm.oob (p * l2pgap)) :
  Copies g c' (u + 1)
  := by
  have hdiv : (c.scSeg * g.pps + u) / g.pps = c.scSeg := div_pps hu
  have hother : ∀ j p, j ≠ i → c.copy j = some p → p ≠ c.scSeg * g.pps + u
      ∧ c.copy i ≠ some p := by
    intro j p hji hj
    constructor
    · have := h.assigned p (h.copy_iff.mp hj).1
      omega
    · intro hi
      apply hji (h.distinct j i p hj hi)
  refine ⟨⟨?_, ?_, ?_⟩, ?_, ?_, ?_⟩
  · intro j k p hj hk
    rw [hcopy] at hj hk
    split at hj
    · split at hk
      · subst j k
        rfl
      · rename_i hki
        cases hj
        exact absurd rfl (hother k _ hki hk).1
    · rename_i hji
      split at hk
      · cases hk
        exact absurd rfl (hother j _ hji hj).1
      · apply h.distinct j k p hj hk
  · intro j p hj
    rw [hcopy] at hj
    rw [hbit, oobScidx, hoob]
    split at hj
    · cases hj
      rw [if_pos rfl, if_pos rfl]
      subst j
      exact ⟨rfl, rfl⟩
    · rename_i hji
      obtain ⟨h₁, h₂⟩ := hother j p hji hj
      rw [if_neg h₁, if_neg h₂, if_neg h₁]
      apply h.valid j p hj
  · intro p hp
    obtain ⟨hp, hb⟩ := mem_validPages.mp hp
    rw [hseg] at hp
    rw [hbit] at hb
    split at hb
    · rename_i hpu
      use i
      rw [hcopy, if_pos rfl, hpu]
    · split at hb
      · cases hb
      · rename_i hpi
        obtain ⟨j, hj⟩ := h.recorded p (mem_validPages.mpr ⟨hp, hb⟩)
        use j
        rw [hcopy, if_neg, hj]
        rintro rfl
        apply hpi hj
  · intro j p hj
    rw [hcopy] at hj
    rw [hseg]
    split at hj
    · cases hj
      apply hdiv
    · apply h.inSegment j p hj
  · rw [hseg]
    apply hf
  · intro p hp
    obtain ⟨hp, hb⟩ := mem_validPages.mp hp
    rw [hseg] at hp ⊢
    rw [hbit] at hb
    split at hb
    · omega
    · split at hb
      · cases hb
      · have := h.assigned p (mem_validPages.mpr ⟨hp, hb⟩)
        omega

/-- A valid page that only valid pages precede keeps its address in a collection. -/
theorem getElem?_validPages {p : ℕ} (hp : p ∈ c.validPages g)
    (hpre : ∀ q ∈ g.pages c.scSeg, q < p → c.bm.bitset (q * l2pgap) = true) :
  (c.validPages g)[p - c.scSeg * g.pps]? = some p
  := by
  obtain ⟨hdiv, hbit⟩ := mem_validPages.mp hp
  obtain ⟨hle, hlt⟩ := eq_of_div hdiv
  obtain ⟨k, rfl⟩ := Nat.exists_eq_add_of_le hle
  obtain ⟨m, hm⟩ := Nat.exists_eq_add_of_lt (Nat.add_lt_add_iff_left.mp hlt)
  have hpages : g.pages c.scSeg = (List.range k).map (c.scSeg * g.pps + ·)
      ++ (c.scSeg * g.pps + k) :: ((List.range m).map fun j => c.scSeg * g.pps + (k + (j + 1)))
      := by
    have hr : List.range g.pps = List.range k ++ (List.range (m + 1)).map (k + ·) := by
      rw [hm, Nat.add_assoc, List.range_add]
    rw [Geometry.pages, hr, List.map_append, List.range_succ_eq_map]
    simp [Function.comp_def]
  have hall : ((List.range k).map (c.scSeg * g.pps + ·)).filter
      (fun q => c.bm.bitset (q * l2pgap)) = (List.range k).map (c.scSeg * g.pps + ·) := by
    rw [List.filter_eq_self]
    intro q hq
    apply hpre q
    · rw [hpages]
      apply List.mem_append_left _ hq
    · obtain ⟨j, hj, rfl⟩ := List.mem_map.mp hq
      have := List.mem_range.mp hj
      omega
  rw [validPages, hpages, List.filter_append, hall,
    List.filter_cons_of_pos (p := fun q => c.bm.bitset (q * l2pgap)) hbit,
    Nat.add_sub_cancel_left, List.getElem?_append_right (by simp)]
  simp

/-- The segment has room after a collection, which only a full segment needs. -/
theorem Copies.scGcIfFull {u : ℕ} {c' : CacheLayer} (h : Copies g c u)
    (hs : scGcIfFull g c = .ok c') :
  (∃ u', Copies g c' u') ∧ c'.scSeg = c.scSeg ∧ c'.log = c.log
    ∧ ∃ sc, c'.pcs = { c.pcs with cachedSc := sc }
  := by
  unfold CacheLayer.scGcIfFull at hs
  split at hs
  · obtain ⟨hc, hseg, hlog, hsc, -⟩ := h.scGc hs
    exact ⟨⟨_, hc⟩, hseg, hlog, hsc⟩
  · cases hs
    exact ⟨⟨u, h⟩, rfl, rfl, ⟨_, rfl⟩⟩

/-- A collection leaves a copy alone that only valid pages precede. -/
theorem Copies.copy_scGcIfFull {u i : ℕ} {c' : CacheLayer} (h : Copies g c u)
    (hs : CacheLayer.scGcIfFull g c = .ok c')
    (hpre : c.bm.checkFull g c.scSeg = true → ∀ p ∈ c.copy i, ∀ q ∈ g.pages c.scSeg, q < p →
      c.bm.bitset (q * l2pgap) = true) :
  c'.copy i = c.copy i
  := by
  unfold CacheLayer.scGcIfFull at hs
  split at hs
  · rename_i hfull
    obtain ⟨hc, -, -, -, hcopy⟩ := h.scGc hs
    cases hi : c.copy i with
    | some p =>
        rw [hcopy]
        obtain ⟨hp, hoob⟩ := h.copy_iff.mp hi
        have hle := (eq_of_div (mem_validPages.mp hp).1).1
        exact ⟨_, p, getElem?_validPages hp (hpre hfull p hi), hoob, by omega⟩
    | none =>
        cases hi' : c'.copy i with
        | none => rfl
        | some q =>
            obtain ⟨k, p, hk, hoob, -⟩ := (hcopy i q).mp hi'
            rw [h.copy_iff.mpr ⟨List.mem_of_getElem? hk, hoob⟩] at hi
            cases hi
  · cases hs
    rfl

theorem unsetOld_bitset (bm : BlockManager) (old : Option ℕ) (p : ℕ) :
  (unsetOld g bm old).bitset (p * l2pgap)
    = if old = some p then false else bm.bitset (p * l2pgap)
  := by
  cases old with
  | none => simp [unsetOld]
  | some q =>
      rw [unsetOld, BlockManager.bitUnset_bitset, update_first]
      simp only [Option.some.injEq, eq_comm]

theorem unsetOld_oob (bm : BlockManager) (old : Option ℕ) :
  (unsetOld g bm old).oob = bm.oob
  := by
  cases old with
  | none => rfl
  | some q => rfl

theorem filled_unsetOld {s u : ℕ} {bm : BlockManager} (h : BlockManager.Filled g bm s u)
    (old : Option ℕ) :
  BlockManager.Filled g (unsetOld g bm old) s u
  := by
  cases old with
  | none => apply h
  | some q => apply h.bitUnset

/-- The write of a page, whose old copy is where it was, keeps the record. -/
theorem Copies.writeBack {u i : ℕ} {pc : PageCache} {c' : CacheLayer} (h : Copies g c u)
    (hpc : c.pcs.cachedSc[i]? = some pc)
    (hk : pc.flag = .dirty → c.bm.checkFull g c.scSeg = true → ∀ p ∈ pc.ppa,
      ∀ q ∈ g.pages c.scSeg, q < p → c.bm.bitset (q * l2pgap) = true)
    (hs : writeBack g c i pc = .ok c') :
  ∃ u', Copies g c' u'
  := by
  have hold : c.copy i = pc.ppa := by
    rw [copy, hpc]
    rfl
  unfold CacheLayer.writeBack at hs
  split at hs
  · rename_i hdirty
    obtain ⟨⟨res, c₃⟩, h₁, hs⟩ := bind_eq_ok.mp hs
    obtain ⟨pc', hpc', hs⟩ := bind_eq_ok.mp hs
    cases hs
    obtain ⟨⟨res', c₂⟩, h₂, h₁⟩ := bind_eq_ok.mp h₁
    cases h₁
    obtain ⟨c₁, hgc, h₂⟩ := bind_eq_ok.mp h₂
    obtain ⟨⟨o, bm⟩, h₃, h₂⟩ := bind_eq_ok.mp h₂
    obtain ⟨ppa, h₄, h₂⟩ := bind_eq_ok.mp h₂
    rw [orThrow_eq_ok] at h₄ hpc'
    subst h₄
    cases h₂
    obtain ⟨⟨u₁, hc⟩, hseg, -, -⟩ := h.scGcIfFull hgc
    have hcopy := h.copy_scGcIfFull (i := i) hgc (by
      rw [hold]
      apply hk hdirty)
    have hu : u₁ < g.pps := by
      rcases Nat.lt_or_ge u₁ g.pps with hu | hu
      · apply hu
      · have hfull : u₁ = g.pps := Nat.le_antisymm hc.filled.le hu
        have hf := hc.filled
        rw [hfull] at hf
        rw [hf.getPageAddr_full] at h₃
        cases h₃
    rw [hc.filled.getPageAddr_next hu] at h₃
    cases h₃
    use u₁ + 1
    refine hc.replace (i := i) hu ?_ ?_ ?_ ?_ ?_
    · rfl
    · apply BlockManager.Filled.bitSet
      apply BlockManager.Filled.setOob
      apply filled_unsetOld (hc.filled.assignPage hu)
    · intro j
      change ((c₁.pcs.cachedSc.set i _)[j]?).bind PageCache.ppa = _
      rw [List.getElem?_set]
      split
      · rename_i hij
        rw [if_pos (List.getElem?_eq_some_iff.mp hpc').1, if_pos hij.symm]
        rfl
      · rename_i hij
        rw [if_neg fun hji => hij hji.symm]
        rfl
    · intro p
      dsimp only
      rw [BlockManager.bitSet_bitset, update_first]
      change (if _ then true else (unsetOld g _ pc.ppa).bitset (p * l2pgap)) = _
      rw [unsetOld_bitset, hcopy, hold]
      rfl
    · intro p
      dsimp only
      rw [BlockManager.bitSet_oob, setOob_first, unsetOld_oob]
      rfl
  · cases hs
    exact ⟨u, h⟩

/-- A turn of `pc_evict` that finds the old copy where it was keeps the record. -/
theorem Copies.evictNode {u : ℕ} {n : LruNode} {c' : CacheLayer} (h : Copies g c u)
    (hn : c.pcs.lru.getLast? = some n) (hk : KeepsCopy g c .evict)
    (hs : evictNode g c n = .ok c') :
  ∃ u', Copies g c' u'
  := by
  unfold CacheLayer.evictNode at hs
  dsimp only at hs
  split at hs
  · rename_i htype
    obtain ⟨pc, hpc, hs⟩ := bind_eq_ok.mp hs
    obtain ⟨_, -, hs⟩ := bind_eq_ok.mp hs
    obtain ⟨c₁, h₁, hs⟩ := bind_eq_ok.mp hs
    obtain ⟨pc₁, hpc₁, hs⟩ := bind_eq_ok.mp hs
    cases hs
    rw [orThrow_eq_ok] at hpc hpc₁
    have hc : Copies g { c with pcs := { c.pcs with
        lru := c.pcs.lru.dropLast
        nowCachedSize := c.pcs.nowCachedSize - n.size
        cachedScNum := c.pcs.cachedScNum - 1 } } u
      := h.congr rfl rfl fun j => rfl
    obtain ⟨u', hc₁⟩ := hc.writeBack hpc (by
      intro hdirty hfull
      apply hk hfull (n.id, pc)
      change c.pcs.cachedSc[n.id]? = some pc at hpc
      simp [victim, hn, htype, hpc, hdirty]) h₁
    refine ⟨u', hc₁.congr rfl rfl fun j => ?_⟩
    apply copy_set hpc₁
    rfl
  · obtain ⟨_, -, hs⟩ := bind_eq_ok.mp hs
    obtain ⟨_, -, hs⟩ := bind_eq_ok.mp hs
    cases hs
    exact ⟨u, h.congr rfl rfl fun j => rfl⟩

/-- The invariant is kept by every action that meets the guard. -/
theorem Copies.step {u : ℕ} {a : Act} {c' : CacheLayer} (h : Copies g c u)
    (hk : KeepsCopy g c a) (hs : step g c a = .ok c') :
  ∃ u', Copies g c' u'
  := by
  by_cases ha : a = .evict
  · subst ha
    obtain ⟨n, hn, hs⟩ := bind_eq_ok.mp hs
    rw [orThrow_eq_ok] at hn
    apply h.evictNode hn hk hs
  · obtain ⟨hbm, hseg, hp⟩ := step_pages hs ha
    exact ⟨u, h.congr hbm hseg hp.copy_eq⟩

theorem copy_init (maxCachedSize lbaNum scSeg i : ℕ) (scPinning : Bool) :
  (init g maxCachedSize lbaNum scPinning scSeg).copy i = none
  := by
  change ((List.replicate _ _)[i]?).bind PageCache.ppa = none
  rw [List.getElem?_replicate]
  split
  · rfl
  · rfl

/-- No page has a copy in the beginning. -/
theorem copies_init (maxCachedSize lbaNum scSeg : ℕ) (scPinning : Bool) :
  Copies g (init g maxCachedSize lbaNum scPinning scSeg) 0
  := by
  have hv : validPages g (init g maxCachedSize lbaNum scPinning scSeg) = [] := by
    simp [validPages, init, BlockManager.create]
  refine ⟨⟨?_, ?_, ?_⟩, ?_, BlockManager.filled_create scSeg, ?_⟩
  · intro i j p hi
    rw [copy_init] at hi
    cases hi
  · intro i p hi
    rw [copy_init] at hi
    cases hi
  · intro p hp
    rw [hv] at hp
    cases hp
  · intro i p hi
    rw [copy_init] at hi
    cases hi
  · intro p hp
    rw [hv] at hp
    cases hp

/-- The addresses recorded for the shortcut pages are their copies, in every state that is
reached by actions whose evictions find the segment not full, or the old copy of their page
behind valid pages only. -/
theorem recorded_run {maxCachedSize lbaNum scSeg : ℕ} {scPinning : Bool} {acts : List Act}
    {c' : CacheLayer}
    (hk : Guarded (CacheLayer.step g) (KeepsCopy g)
      (init g maxCachedSize lbaNum scPinning scSeg) acts)
    (hs : run (CacheLayer.step g) (init g maxCachedSize lbaNum scPinning scSeg) acts = .ok c') :
  Recorded g c'
  := by
  obtain ⟨u, h⟩ := run_preserves (fun c => ∃ u, Copies g c u)
    (fun _ _ _ h hk hs => h.elim fun _ h => h.step hk hs)
    ⟨0, copies_init maxCachedSize lbaNum scSeg scPinning⟩ hk hs
  apply h.toRecorded

/-! ### Two evictions -/

/-- A segment of three pages. -/
def threePages : Geometry := ⟨3, 1, 1, by decide, Nat.one_pos⟩

/-- The actions of `cache_layer_sc_update` for a shortcut page that is not cached: `evicts`
pages make room, and the page is read if it has a copy. -/
def updateActs (i evicts : ℕ) (read : Bool) : List Act :=
  [.isCached .shortcut i, .isCached .shortcut i] ++ List.replicate evicts .evict
    ++ [.occupy .shortcut i pagesize] ++ (if read then [.send .shortcut none i] else [])
    ++ [.push .shortcut i, .update i]

/-- Two shortcut pages are updated in turn, in a cache that has room for one. -/
def updatesInTurn : List Act :=
  updateActs 0 0 false ++ updateActs 1 1 false ++ updateActs 0 1 true ++ updateActs 1 1 true

/-- The copies of the two pages after the updates in turn. -/
theorem recorded_updatesInTurn :
  ∃ c', run (CacheLayer.step threePages) (init threePages (pagesize + 1) 30000 false 0)
      updatesInTurn = .ok c' ∧ c'.copy 0 = some 2 ∧ c'.copy 1 = some 1 ∧ Recorded threePages c'
  := by
  have hk : Guarded (CacheLayer.step threePages) (KeepsCopy threePages)
      (init threePages (pagesize + 1) 30000 false 0) updatesInTurn := by decide
  obtain ⟨c', hs⟩ : ∃ c', run (CacheLayer.step threePages)
      (init threePages (pagesize + 1) 30000 false 0) updatesInTurn = .ok c' := ⟨_, rfl⟩
  refine ⟨c', hs, ?_, ?_, recorded_run hk hs⟩
  · cases hs
    decide
  · cases hs
    decide

/-- With one more update the eviction of page `1` finds the segment full.  The copies move
from pages `1` and `2` to pages `0` and `1`, and page `1` is invalidated, which is the copy of
shortcut page `0` now. -/
theorem not_recorded :
  ¬ ∀ (g : Geometry) (maxCachedSize lbaNum scSeg : ℕ) (scPinning : Bool) (acts : List Act)
    (c' : CacheLayer), run (CacheLayer.step g) (init g maxCachedSize lbaNum scPinning scSeg) acts
      = .ok c' → Recorded g c'
  := by
  intro h
  obtain ⟨c', hs⟩ : ∃ c', run (CacheLayer.step threePages)
      (init threePages (pagesize + 1) 30000 false 0) (updatesInTurn ++ updateActs 0 1 true)
      = .ok c' := ⟨_, rfl⟩
  have hr := h _ _ _ _ _ _ c' hs
  have hcopy : c'.copy 0 = some 1 := by
    cases hs
    decide
  have hbit := (hr.valid 0 1 hcopy).1
  cases hs
  revert hbit
  decide

end CacheLayer

end AppL
