import Mathlib.Algebra.BigOperators.Group.Finset.Basic
import Mathlib.Algebra.Order.BigOperators.Group.List
import Mathlib.Algebra.Order.Group.Nat
import Mathlib.Data.List.Perm.Subperm
import AppL.Dftl.SftlCache
import AppL.Lib.Reservation

/-!
# The charge of the spatial cache

The counter of the cache is the sum of the charges of the cached pages, at all times.  An update
adds at most two runs to a page, so that its charge grows by at most the bytes that are reserved
for it.
-/

namespace AppL

open Transition

namespace Dftl

/-- Every abort but the one of a page that grows too much. -/
def NotGrown (e : Abort) : Prop := e ≠ .grownTooMuch

instance (e : Abort) : Decidable (NotGrown e) := inferInstanceAs (Decidable (_ ≠ _))

/-! ### What an update adds -/

section Growth

variable {m m' : List (ℕ × ℕ)} {n o p k v : ℕ} {it : ℕ × ℕ} {outside : Option (ℕ × ℕ)}
  {head : ℕ → ℕ}

/-- The runs begin in a translation page, or right behind it. -/
structure Fits (m : List (ℕ × ℕ)) : Prop where
  sorted : OrderedMap.Sorted m
  le : ∀ r ∈ m, r.1 ≤ dmfPerPage

/-- Runs that have been changed, with at most `n` runs more. -/
structure Grown (m : List (ℕ × ℕ)) (n : ℕ) (m' : List (ℕ × ℕ)) : Prop where
  fits : Fits m'
  length : m'.length ≤ m.length + n

theorem Fits.grown (h : Fits m) :
  Grown m 0 m
  := ⟨h, le_rfl⟩

theorem Grown.mono (h : Grown m n m') {n' : ℕ} (hn : n ≤ n') :
  Grown m n' m'
  := ⟨h.fits, h.length.trans (Nat.add_le_add_left hn _)⟩

theorem Grown.insert (h : Grown m n m') (hk : k ≤ dmfPerPage) :
  Grown m (n + 1) (OrderedMap.insert k v m')
  := by
  refine ⟨⟨h.fits.sorted.insert k v, ?_⟩, ?_⟩
  · intro r hr
    obtain hr | ⟨rfl, -⟩ := (OrderedMap.mem_insert h.fits.sorted).mp hr
    · apply h.fits.le r hr
    · apply hk
  · have := OrderedMap.length_insert_le k v m'
    have := h.length
    omega

theorem Grown.set (h : Grown m n m') :
  Grown m n (OrderedMap.set k v m')
  := by
  refine ⟨⟨h.fits.sorted.set k v, ?_⟩, (OrderedMap.length_set k v m').trans_le h.length⟩
  intro r hr
  obtain ⟨hr, -⟩ | ⟨rfl, y, hy, hk⟩ := OrderedMap.mem_set.mp hr
  · apply h.fits.le r hr
  · rw [← hk]
    apply h.fits.le y hy

theorem Grown.erase (h : Grown m n m') (k : ℕ) :
  Grown m n (OrderedMap.erase k m')
  := by
  refine ⟨⟨h.fits.sorted.erase k, ?_⟩, (OrderedMap.length_erase_le k m').trans h.length⟩
  intro r hr
  apply h.fits.le r (OrderedMap.mem_erase.mp hr).1

/-- A list of different numbers below `n`. -/
theorem length_le_of_lt {l : List ℕ} (h : l.Nodup) (hlt : ∀ x ∈ l, x < n) :
  l.length ≤ n
  := by
  have hsub : l ⊆ List.range n := fun x hx => List.mem_range.mpr (hlt x hx)
  apply (h.subperm hsub).length_le.trans_eq List.length_range

theorem Fits.length_le (h : Fits m) :
  m.length ≤ dmfPerPage + 1
  := by
  rw [← List.length_map Prod.fst]
  apply length_le_of_lt
  · apply List.pairwise_map.mpr (h.sorted.imp fun hlt => hlt.ne)
  · intro k hk
    obtain ⟨r, hr, rfl⟩ := List.mem_map.mp hk
    apply Nat.lt_succ_of_le (h.le r hr)

theorem absorbNext_grown (h : Fits m) :
  Grown m 0 (absorbNext o p k head m).2
  := by
  unfold absorbNext
  cases OrderedMap.above k m with
  | none => apply h.grown
  | some next =>
      dsimp only
      split
      · apply h.grown.erase
      · apply h.grown

theorem updateBackward_grown (h : Grown m n m') :
  Meets NotGrown (Grown m n) (updateBackward outside o p head m')
  := by
  unfold updateBackward
  split
  · apply (meets_orThrow fun _ => by decide).bind
    intro prev _
    apply Grown.erase
    split
    · apply h.set
    · apply h
  · apply h

/-- From wherever the iterator points to, an update adds at most two runs. -/
theorem updateFrom_grown (h : Fits m) (ho : o < dmfPerPage) :
  Meets NotGrown (Grown m 2) (updateFrom outside it m o p head)
  := by
  have hnext : o + 1 ≤ dmfPerPage := ho
  have hgrown : Grown m 0 (absorbNext o p it.1 head m).2 := absorbNext_grown h
  unfold updateFrom
  split
  · apply (h.grown.insert ho.le).mono (by decide)
  · split
    · split
      · have hset : Grown m 0 (OrderedMap.set it.1 o m) := h.grown.set
        dsimp only
        split
        · apply (hset.insert hnext).mono (by decide)
        · apply hset.mono (by decide)
      · have hset : Grown m 0 (OrderedMap.set it.1 (o - 1) m) := h.grown.set
        dsimp only
        split
        · apply (hset.insert hnext).insert ho.le
        · apply (hset.insert ho.le).mono (by decide)
    · split
      · apply h.grown.set.mono (by decide)
      · dsimp only
        split
        · apply (hgrown.set.insert ho.le).mono (by decide)
        · split
          · apply (updateBackward_grown hgrown).mono fun _ h => h.mono (by decide)
          · apply (hgrown.insert ho.le).mono (by decide)

/-- An update adds at most two runs. -/
theorem updateRunLength_grown (h : Fits m) (ho : o < dmfPerPage) :
  Meets NotGrown (Grown m 2) (updateRunLengthWith outside m o p head)
  := by
  unfold updateRunLengthWith
  split
  · apply (h.grown.insert ho.le).mono (by decide)
  · apply (meets_orThrow fun _ => by decide).bind
    intro it _
    apply updateFrom_grown h ho

end Growth

/-- The largest charge of a page. -/
def maxGtdSize : ℕ := (dmfPerPage + 1 + dmfPerPage) * 4 + bitmapSize

/-- The arrays of a page, and its charge. -/
structure Sized (size : ℕ) (sc : SftlCache) : Prop where
  fits : Fits sc.runLength
  unpopulated : sc.unpopulatedNum ≤ dmfPerPage
  size : size = sc.gtdSize

theorem Sized.le {size : ℕ} {sc : SftlCache} (h : Sized size sc) :
  size ≤ maxGtdSize
  := by
  have hlength := h.fits.length_le
  have hunpopulated := h.unpopulated
  rw [h.size]
  unfold SftlCache.gtdSize maxGtdSize
  omega

theorem sized_initial :
  Sized (pagesize + bitmapSize) .initial
  where
    fits := ⟨List.Pairwise.nil, fun r hr => by cases hr⟩
    unpopulated := le_rfl
    size := rfl

/-- The charge of a page grows by at most the bytes of two runs. -/
theorem Sized.update {size o p : ℕ} {outside : Option (ℕ × ℕ)} {sc : SftlCache}
    (h : Sized size sc) (ho : o < dmfPerPage) :
  Meets NotGrown
    (fun sc' => Sized sc'.gtdSize sc' ∧ sc'.gtdSize ≤ size + 4 * 2) (sc.updateWith outside o p)
  := by
  unfold SftlCache.updateWith
  dsimp only
  apply (updateRunLength_grown h.fits ho).bind
  intro runLength hgrown
  have hunpopulated : ∀ oldPpa, (if oldPpa = uint32Max ∧ sc.unpopulatedNum ≠ 0
      then sc.unpopulatedNum - 1 else sc.unpopulatedNum) ≤ sc.unpopulatedNum := by
    intro oldPpa
    split
    · apply Nat.sub_le _ _
    · apply le_rfl
  use ⟨hgrown.fits, (hunpopulated _).trans h.unpopulated, rfl⟩
  have hlength := hgrown.length
  have := hunpopulated (sc.headArray o)
  rw [h.size]
  unfold SftlCache.gtdSize
  dsimp only
  omega

namespace SftlMonitor

open Reservation

/-! ### The books -/

/-- The arrays of a page are in the cache or beside it, and have its charge. -/
structure Page (size : ℕ) (node : Option (Option SftlCache)) (temp : Option SftlCache) : Prop where
  bound : size ≤ maxGtdSize
  cached : ∀ sc, node = some (some sc) → Sized size sc
  kept : ∀ sc, temp = some sc → Sized size sc
  apart : node.isSome = true → temp = none

/-- The LRU list has the cached pages, and the counter with the charge `out` that an update has
taken back is the sum of their charges. -/
structure Books (s : SftlMonitor) (out : ℕ) : Prop where
  nodup : s.lru.Nodup
  lt : ∀ g ∈ s.lru, g < gtdNum
  mem_lru : ∀ g, g ∈ s.lru ↔ (s.privateData g).isSome = true
  now : s.nowCachingByte + out = total s.lru s.gtdSize
  empty : ∀ g, s.status g = .empty →
    s.privateData g = none ∧ s.tempEnt g = none ∧ s.gtdSize g = pagesize + bitmapSize
  page : ∀ g, Page (s.gtdSize g) (s.privateData g) (s.tempEnt g)

variable {s s' : SftlMonitor} {out g : ℕ} {sc : SftlCache}

theorem books_init (n : ℕ) :
  Books (init n) 0
  where
    nodup := List.nodup_nil
    lt g hg := by cases hg
    mem_lru g := by simp [init]
    now := rfl
    empty g _ := ⟨rfl, rfl, Nat.add_comm _ _⟩
    page _ := ⟨(by decide : bitmapSize + pagesize ≤ maxGtdSize), nofun, nofun, nofun⟩

/-- All charges together are no overflow. -/
theorem total_lt {l : List ℕ} {f : ℕ → ℕ} (hl : l.Nodup) (hlt : ∀ g ∈ l, g < gtdNum)
    (hf : ∀ g, f g ≤ maxGtdSize) :
  total l f < 2 ^ 32
  := by
  have hlength := length_le_of_lt hl hlt
  have hsum : total l f ≤ l.length * maxGtdSize := by
    unfold total
    have := List.sum_le_card_nsmul (l.map f) maxGtdSize (by
      intro x hx
      obtain ⟨g, -, rfl⟩ := List.mem_map.mp hx
      exact hf g)
    simpa using this
  calc total l f
      ≤ l.length * maxGtdSize := hsum
    _ ≤ gtdNum * maxGtdSize := Nat.mul_le_mul_right _ hlength
    _ < 2 ^ 32 := by decide

theorem Books.total_lt (h : Books s out) :
  total s.lru s.gtdSize < 2 ^ 32
  := SftlMonitor.total_lt h.nodup h.lt fun g => (h.page g).bound

/-- The order of the LRU list changes. -/
theorem Books.reorder (h : Books s out) {lru : List ℕ} (hp : lru.Perm s.lru) :
  Books { s with lru := lru } out
  where
    nodup := hp.nodup_iff.mpr h.nodup
    lt g hg := h.lt g (hp.mem_iff.mp hg)
    mem_lru g := hp.mem_iff.trans (h.mem_lru g)
    now := by
      rw [h.now]
      exact ((hp.map s.gtdSize).sum_eq).symm
    empty := h.empty
    page := h.page

/-- A page becomes the one used last. -/
theorem Books.touch (h : Books s out) (hg : g ∈ s.lru) :
  Books { s with lru := g :: s.lru.erase g } out
  := h.reorder (List.perm_cons_erase hg).symm

theorem Books.setStatus (h : Books s out) {status : GtdStatus} (hne : status ≠ .empty) :
  Books { s with status := Function.update s.status g status } out
  where
    nodup := h.nodup
    lt := h.lt
    mem_lru := h.mem_lru
    now := h.now
    empty g' hg' := by
      dsimp only at hg'
      rcases eq_or_ne g' g with rfl | hne'
      · rw [Function.update_self] at hg'
        exact absurd hg' hne
      · rw [Function.update_of_ne hne'] at hg'
        apply h.empty g' hg'
    page := h.page

/-- A page is not cached. -/
theorem Books.notMem (h : Books s out) (hnone : s.privateData g = none) :
  g ∉ s.lru
  := by
  rw [h.mem_lru, hnone]
  exact nofun

/-- A page that is not cached enters the LRU list with a charge. -/
theorem Books.push (h : Books s out) (hg : g < gtdNum) (hnone : s.privateData g = none)
    {node : Option SftlCache} {size : ℕ} {status : GtdStatus} (hpage : Page size (some node) none)
    (hstatus : status ≠ .empty) :
  Books { s with
    lru := g :: s.lru
    privateData := Function.update s.privateData g (some node)
    tempEnt := Function.update s.tempEnt g none
    gtdSize := Function.update s.gtdSize g size
    status := Function.update s.status g status } (out + size)
  where
    nodup := List.nodup_cons.mpr ⟨h.notMem hnone, h.nodup⟩
    lt g' hg' := by
      obtain rfl | hg' := List.mem_cons.mp hg'
      · apply hg
      · apply h.lt g' hg'
    mem_lru g' := by
      rcases eq_or_ne g' g with rfl | hne
      · simp
      · simpa [hne] using h.mem_lru g'
    now := by
      have hnow := h.now
      rw [total_cons_update (h.notMem hnone)]
      dsimp only
      omega
    empty g' hg' := by
      dsimp only at hg' ⊢
      rcases eq_or_ne g' g with rfl | hne
      · rw [Function.update_self] at hg'
        exact absurd hg' hstatus
      · rw [Function.update_of_ne hne] at hg'
        simpa only [Function.update_of_ne hne] using h.empty g' hg'
    page g' := by
      dsimp only
      rcases eq_or_ne g' g with rfl | hne
      · simpa only [Function.update_self] using hpage
      · simpa only [Function.update_of_ne hne] using h.page g'

/-- A page leaves the LRU list with its arrays. -/
theorem Books.lruDelete (h : Books s 0) {node : Option SftlCache}
    (hnode : s.privateData g = some node) :
  Books (s.lruDelete g node) 0
  where
    nodup := h.nodup.erase g
    lt g' hg' := h.lt g' (List.mem_of_mem_erase hg')
    mem_lru g' := by
      rcases eq_or_ne g' g with rfl | hne
      · simp [SftlMonitor.lruDelete, h.nodup.not_mem_erase]
      · simpa [SftlMonitor.lruDelete, hne, List.mem_erase_of_ne hne] using h.mem_lru g'
    now := by
      have hmem : g ∈ s.lru := by
        rw [h.mem_lru, hnode]
        rfl
      have hnow := h.now
      have hlt := h.total_lt
      rw [total_erase hmem] at hnow hlt
      unfold SftlMonitor.lruDelete
      dsimp only
      omega
    empty g' hg' := by
      rcases eq_or_ne g' g with rfl | hne
      · have hnone := (h.empty g' hg').1
        rw [hnode] at hnone
        cases hnone
      · simpa only [SftlMonitor.lruDelete, Function.update_of_ne hne] using h.empty g' hg'
    page g' := by
      unfold SftlMonitor.lruDelete
      dsimp only
      rcases eq_or_ne g' g with rfl | hne
      · have hpage := h.page g'
        rw [Function.update_self, Function.update_self]
        refine ⟨hpage.bound, nofun, ?_, nofun⟩
        intro sc hsc
        apply hpage.cached sc (hnode.trans (congrArg some hsc))
      · simpa only [Function.update_of_ne hne] using h.page g'

/-- The charge of a cached page is taken back. -/
theorem Books.takeBack (h : Books s 0) (hmem : g ∈ s.lru) :
  Books { s with
    nowCachingByte :=
      if s.nowCachingByte ≤ s.gtdSize g then 0 else s.nowCachingByte - s.gtdSize g }
    (s.gtdSize g)
  where
    nodup := h.nodup
    lt := h.lt
    mem_lru := h.mem_lru
    now := by
      have hnow := h.now
      have herase := total_erase hmem s.gtdSize
      dsimp only
      split
      · omega
      · omega
    empty := h.empty
    page := h.page

/-- The charge that an update has taken back is added again. -/
theorem Books.charge (h : Books s (s.gtdSize g)) (hsome : (s.privateData g).isSome = true)
    (hstatus : s.status g ≠ .empty) (hsc : Sized sc.gtdSize sc) :
  Books (s.charge g sc) 0
  := by
  have hmem := (h.mem_lru g).mpr hsome
  have hpage : ∀ g', Page ((s.charge g sc).gtdSize g') ((s.charge g sc).privateData g')
      ((s.charge g sc).tempEnt g') := by
    intro g'
    unfold SftlMonitor.charge
    dsimp only
    rcases eq_or_ne g' g with rfl | hne
    · rw [Function.update_self, Function.update_self, (h.page g').apart hsome]
      refine ⟨hsc.le, ?_, nofun, fun _ => rfl⟩
      rintro _ ⟨⟩
      apply hsc
    · simpa only [Function.update_of_ne hne] using h.page g'
  have hlru : (s.charge g sc).lru = s.lru := by
    unfold SftlMonitor.charge
    rfl
  constructor
  · rw [hlru]
    apply h.nodup
  · rw [hlru]
    apply h.lt
  · intro g'
    rcases eq_or_ne g' g with rfl | hne
    · simpa [SftlMonitor.charge] using hmem
    · simpa [SftlMonitor.charge, hne] using h.mem_lru g'
  · have hnow := h.now
    have htotal := total_update h.nodup hmem s.gtdSize sc.gtdSize
    have hlt : total s.lru (Function.update s.gtdSize g sc.gtdSize) < 2 ^ 32 :=
      SftlMonitor.total_lt h.nodup h.lt fun g' => (hpage g').bound
    unfold SftlMonitor.charge
    dsimp only
    omega
  · intro g' hg'
    have hne : g' ≠ g := by
      rintro rfl
      apply hstatus hg'
    simpa only [SftlMonitor.charge, Function.update_of_ne hne] using h.empty g' hg'
  · apply hpage

/-- The mapping of an lba is remembered. -/
theorem Books.setReal (h : Books s out) (realMapping : ℕ → ℕ) :
  Books { s with realMapping := realMapping } out
  := ⟨h.nodup, h.lt, h.mem_lru, h.now, h.empty, h.page⟩

/-! ### The operations -/

/-- The node of a page that is updated, and its charge that is taken back. -/
theorem Books.updateNode (h : Books s 0) (hg : g < gtdNum) :
  Meets NotGrown
    (fun s' => Books { s' with status := Function.update s'.status g .dirty } (s'.gtdSize g)
      ∧ (s'.privateData g).isSome = true ∧ s'.gtdSize g = s.gtdSize g
      ∧ ((s.privateData g).isSome = true → s'.nowCachingByte + s'.gtdSize g = s.nowCachingByte))
    (s.updateNode g)
  := by
  unfold SftlMonitor.updateNode
  split
  · rename_i hempty
    obtain ⟨hnone, htemp, hsize⟩ := h.empty g hempty
    have hpage : Page (pagesize + bitmapSize) (some (some .initial)) none := by
      refine ⟨sized_initial.le, ?_, nofun, fun _ => rfl⟩
      rintro _ ⟨⟩
      apply sized_initial
    have hpush := h.push hg hnone hpage (by decide : GtdStatus.dirty ≠ .empty)
    have hsame : Function.update s.tempEnt g none = s.tempEnt := by
      rw [← htemp, Function.update_eq_self]
    rw [hsame, Nat.zero_add] at hpush
    unfold SftlMonitor.lruPush
    refine ⟨?_, ?_, ?_, ?_⟩
    · dsimp only
      rw [Function.update_self]
      apply hpush
    · simp
    · simp [hsize]
    · intro hsome
      rw [hnone] at hsome
      cases hsome
  · apply (meets_require (by decide)).bind
    intro _ hsome
    have htake := h.takeBack ((h.mem_lru g).mpr hsome)
    use htake.setStatus (by decide), hsome, rfl, fun _ => htake.now.trans h.now.symm

/-- An update keeps the books, and adds at most the bytes of two runs. -/
theorem Books.updateEntryWith (h : Books s 0) (outside : Option (ℕ × ℕ)) (isgc : Bool)
    (evictionHint : Option ℕ) (lba ppa : ℕ) :
  Meets NotGrown
    (fun res => Books res.1 0
      ∧ res.1.gtdSize (getGtdIdx lba) ≤ s.gtdSize (getGtdIdx lba) + 4 * 2
      ∧ ((s.privateData (getGtdIdx lba)).isSome = true →
        res.1.nowCachingByte ≤ s.nowCachingByte + 4 * 2))
    (s.updateEntryWith outside isgc evictionHint lba ppa)
  := by
  unfold SftlMonitor.updateEntryWith
  dsimp only
  apply (meets_require (by decide)).bind
  intro _ hg
  apply (h.updateNode hg).bind
  rintro s₁ ⟨hbooks, hsome, hsize, hback⟩
  apply (meets_orThrow fun _ => by decide).bind
  intro sc hsc
  have hsized := (hbooks.page (getGtdIdx lba)).cached sc (Option.join_eq_some_iff.mp hsc)
  apply (hsized.update (Nat.mod_lt _ (by decide))).bind
  rintro sc' ⟨hsized', hgrow⟩
  apply (meets_of_eq (require_eq_ok (u := ()).mpr (by dsimp only at hgrow; omega))).bind
  intro _ _
  apply (meets_require (by decide)).bind
  intro _ _
  have hcharge := (hbooks.setReal (Function.update s₁.realMapping lba ppa)).charge
    (g := getGtdIdx lba) hsome (by simp) hsized'
  refine ⟨?_, ?_, ?_⟩
  · cases isgc with
    | true => apply hcharge
    | false => apply hcharge.touch ((hcharge.mem_lru _).mpr (by simp [SftlMonitor.charge]))
  · simpa [SftlMonitor.charge, ← hsize] using hgrow
  · intro hsome'
    have hmod := Nat.mod_le (s₁.nowCachingByte + sc'.gtdSize) (2 ^ 32)
    have hnow := hback hsome'
    dsimp only at hgrow
    unfold SftlMonitor.charge
    dsimp only
    omega

/-- A page is read, with the arrays that have been kept. -/
theorem Books.insertEntryFromTranslation (h : Books s 0) (g evictionHint orgEvictionHint : ℕ) :
  Meets NotGrown (fun res => Books res.1 0)
    (s.insertEntryFromTranslation g evictionHint orgEvictionHint)
  := by
  unfold SftlMonitor.insertEntryFromTranslation
  dsimp only
  apply (meets_require (by decide)).bind
  intro _ hg
  apply (meets_require (by decide)).bind
  intro _ hnone
  apply (meets_require (by decide)).bind
  intro _ _
  have hpage : Page (s.gtdSize g) (some (s.tempEnt g)) none :=
    ⟨(h.page g).bound, fun sc hsc => (h.page g).kept sc (Option.some.inj hsc), nofun, fun _ => rfl⟩
  have hpush := h.push hg hnone hpage (by decide : GtdStatus.clean ≠ .empty)
  rw [Function.update_eq_self] at hpush
  have hnow := hpush.now
  have hlt := hpush.total_lt
  refine ⟨hpush.nodup, hpush.lt, hpush.mem_lru, ?_, hpush.empty, hpush.page⟩
  unfold SftlMonitor.lruPush
  dsimp only at hnow hlt ⊢
  omega

/-- The scan evicts a clean page, or changes nothing. -/
theorem Books.getEvictionGtdEntry (h : Books s 0) {l : List ℕ} (hl : ∀ g ∈ l, g ∈ s.lru) :
  Meets NotGrown (fun res => Books res.1 0) (s.getEvictionGtdEntry l)
  := by
  induction l with
  | nil => apply h
  | cons g l ih =>
      have hrest := ih fun g' hg' => hl g' (List.mem_cons_of_mem g hg')
      unfold SftlMonitor.getEvictionGtdEntry
      split
      · apply hrest
      · apply hrest
      · obtain ⟨node, hnode⟩ := Option.isSome_iff_exists.mp
          ((h.mem_lru g).mp (hl g List.mem_cons_self))
        rw [hnode]
        apply h.lruDelete hnode
      · apply h
      · apply (by decide : NotGrown .demandStatus)

/-- A page is written. -/
theorem Books.updateEvictionTargetTranslation (h : Books s 0) (g : ℕ) :
  Meets NotGrown (fun res => Books res.1 0) (s.updateEvictionTargetTranslation g)
  := by
  unfold SftlMonitor.updateEvictionTargetTranslation
  apply (meets_orThrow fun _ => by decide).bind
  intro node hnode
  apply (meets_orThrow fun _ => by decide).bind
  rintro sc rfl
  apply h.lruDelete hnode

/-- A page that is not cached has its arrays beside the cache, and was there before. -/
theorem Books.of_tempEnt (h : Books s out) (htemp : s.tempEnt g = some sc) :
  s.privateData g = none ∧ s.status g ≠ .empty
  := by
  constructor
  · rw [← Option.not_isSome_iff_eq_none]
    intro hsome
    have := (h.page g).apart hsome
    rw [htemp] at this
    cases this
  · intro hempty
    have := (h.empty g hempty).2.1
    rw [htemp] at this
    cases this

/-- The arrays of a page that is not cached change, and its charge. -/
theorem Books.keep (h : Books s out) (hnone : s.privateData g = none)
    (hstatus : s.status g ≠ .empty) (hsc : Sized sc.gtdSize sc) :
  Books { s with
    tempEnt := Function.update s.tempEnt g (some sc)
    gtdSize := Function.update s.gtdSize g sc.gtdSize } out
  where
    nodup := h.nodup
    lt := h.lt
    mem_lru := h.mem_lru
    now := by
      have hsame : total s.lru (Function.update s.gtdSize g sc.gtdSize)
          = total s.lru s.gtdSize := by
        apply total_congr
        intro g' hg'
        apply Function.update_of_ne
        rintro rfl
        apply h.notMem hnone hg'
      apply h.now.trans hsame.symm
    empty g' hg' := by
      have hne : g' ≠ g := by
        rintro rfl
        apply hstatus hg'
      simpa only [Function.update_of_ne hne] using h.empty g' hg'
    page g' := by
      dsimp only
      rcases eq_or_ne g' g with rfl | hne
      · rw [Function.update_self, Function.update_self, hnone]
        refine ⟨hsc.le, nofun, ?_, nofun⟩
        rintro _ ⟨⟩
        apply hsc
      · simpa only [Function.update_of_ne hne] using h.page g'

/-- The collection updates a page that is not cached. -/
theorem Books.updateFromTranslationGc (h : Books s 0) (outside : Option (ℕ × ℕ)) (lba ppa : ℕ) :
  Meets NotGrown (fun res => Books res.1 0) (s.updateFromTranslationGc outside lba ppa)
  := by
  unfold SftlMonitor.updateFromTranslationGc
  dsimp only
  apply (meets_require (by decide)).bind
  intro _ _
  apply (meets_orThrow fun _ => by decide).bind
  intro sc hsc
  obtain ⟨hnone, hstatus⟩ := h.of_tempEnt hsc
  have hsized := (h.page _).kept sc hsc
  apply (updateRunLength_grown hsized.fits (Nat.mod_lt _ (by decide))).bind
  intro runLength hgrown
  have hsized' : Sized _ ⟨Function.update sc.headArray (transOffset lba) ppa, runLength,
      sc.unpopulatedNum⟩ := ⟨hgrown.fits, hsized.unpopulated, rfl⟩
  apply (h.keep hnone hstatus hsized').setReal _

theorem Books.forcePutMru (h : Books s 0) (g : ℕ) :
  Meets NotGrown (fun s' => Books s' 0) (s.forcePutMru g)
  := by
  unfold SftlMonitor.forcePutMru
  apply (meets_require (by decide)).bind
  intro _ hsome
  apply h.touch ((h.mem_lru g).mpr hsome)

/-- Every step keeps the books, and no page grows too much. -/
theorem Books.step (h : Books s 0) (call : Option (ℕ × ℕ) × SftlOp) :
  Meets NotGrown (fun s' => Books s' 0) (s.step call)
  := by
  obtain ⟨outside, op⟩ := call
  cases op with
  | updateEntry lba ppa evictionHint =>
      exact (h.updateEntryWith outside false (some evictionHint) lba ppa).bind fun res hres => hres.1
  | updateEntryGc lba ppa =>
      exact (h.updateEntryWith outside true none lba ppa).bind fun res hres => hres.1
  | insertEntryFromTranslation g evictionHint orgEvictionHint =>
      exact (h.insertEntryFromTranslation g evictionHint orgEvictionHint).bind fun _ hres => hres
  | getEvictionGtdEntry =>
      exact (h.getEvictionGtdEntry fun g hg => List.mem_reverse.mp hg).bind fun _ hres => hres
  | updateEvictionTargetTranslation g =>
      exact (h.updateEvictionTargetTranslation g).bind fun _ hres => hres
  | updateFromTranslationGc lba ppa =>
      exact (h.updateFromTranslationGc outside lba ppa).bind fun _ hres => hres
  | forcePutMru g => apply h.forcePutMru g
  | setStatus g status hne => apply h.setStatus hne

/-! ### The charge -/

/-- The pages with a node. -/
def cachedPages (s : SftlMonitor) : Finset ℕ :=
  (Finset.range gtdNum).filter fun g => (s.privateData g).isSome = true

/-- The counter is the sum of the charges of the cached pages.  An update does not grow a page
by more than what is reserved for it, so that it does not grow too much, and the cache does not
become larger than its limit when the page was cached and its update has been let through. -/
structure Charged (s : SftlMonitor) : Prop where
  lt : ∀ g, (s.privateData g).isSome = true → g < gtdNum
  now : s.nowCachingByte = ∑ g ∈ s.cachedPages, s.gtdSize g
  notGrown : ∀ outside isgc evictionHint lba ppa,
    s.updateEntryWith outside isgc evictionHint lba ppa ≠ .error .grownTooMuch
  reserved : ∀ outside isgc evictionHint lba ppa hint nowHint res,
    s.updateEntryWith outside isgc evictionHint lba ppa = .ok res →
    res.1.gtdSize (getGtdIdx lba)
      ≤ s.gtdSize (getGtdIdx lba) + (updateHitEvictionHint hint nowHint true).2
  hit : ∀ outside isgc evictionHint lba ppa totalHitEviction sc res,
    s.privateData (getGtdIdx lba) = some (some sc) →
    ¬ Continues sc (transOffset lba) ppa →
    s.isHitEviction (getGtdIdx lba) lba ppa totalHitEviction = false →
    s.nowCachingByte + totalHitEviction < 2 ^ 32 →
    s.updateEntryWith outside isgc evictionHint lba ppa = .ok res →
    res.1.nowCachingByte + totalHitEviction ≤ s.maxCachingByte

theorem Books.charged (h : Books s 0) :
  Charged s
  := by
  refine ⟨?_, ?_, ?_, ?_, ?_⟩
  · intro g hg
    apply h.lt g ((h.mem_lru g).mpr hg)
  · have hpages : s.cachedPages = s.lru.toFinset := by
      ext g
      rw [cachedPages, Finset.mem_filter, Finset.mem_range, List.mem_toFinset, h.mem_lru]
      use And.right, fun hg => ⟨h.lt g ((h.mem_lru g).mpr hg), hg⟩
    rw [hpages, List.sum_toFinset _ h.nodup]
    apply h.now
  · intro outside isgc evictionHint lba ppa heq
    have hmeets := h.updateEntryWith outside isgc evictionHint lba ppa
    rw [heq] at hmeets
    apply hmeets rfl
  · intro outside isgc evictionHint lba ppa hint nowHint res heq
    exact ((h.updateEntryWith outside isgc evictionHint lba ppa).of_ok heq).2.1
  · intro outside isgc evictionHint lba ppa totalHitEviction sc res hsc hjoins hhit hlt heq
    have hgrow := ((h.updateEntryWith outside isgc evictionHint lba ppa).of_ok heq).2.2 (by rw [hsc]; rfl)
    unfold isHitEviction at hhit
    rw [hsc] at hhit
    dsimp only at hhit
    rw [if_neg hjoins, decide_eq_false_iff_not] at hhit
    omega

/-- In every run the counter is the sum of the charges of the cached pages, and no page grows by
more than is reserved for its update. -/
theorem run_charged (totalCachingPhysicalPages : ℕ)
    (calls : List (Option (ℕ × ℕ) × SftlOp)) :
  run step (init totalCachingPhysicalPages) calls ≠ .error .grownTooMuch
    ∧ ∀ s, run step (init totalCachingPhysicalPages) calls = .ok s → Charged s
  := by
  have hrun : Meets NotGrown (fun s => Books s 0)
      (run step (init totalCachingPhysicalPages) calls) :=
    meets_run (G := fun _ _ => True) (fun s op hs _ => hs.step op) (books_init _)
      (guarded_true _ _)
  constructor
  · intro heq
    rw [heq] at hrun
    apply hrun rfl
  · intro s hs
    apply (hrun.of_ok hs).charged

/-- A page is written twice, the second time in front of its run, evicted, collected, read again and
written by the collection. -/
def readAgain : List (Option (ℕ × ℕ) × SftlOp) :=
  [(none, .updateEntry 5 3 0), (some (1, 0), .updateEntry 0 10 8),
    (none, .setStatus 0 .clean (by decide)), (none, .getEvictionGtdEntry),
    (none, .updateFromTranslationGc 0 20), (none, .insertEntryFromTranslation 0 16904 16904),
    (none, .updateEntryGc 1 21)]

theorem run_charged_readAgain :
  ∃ s, run step (init 100) readAgain = .ok s ∧ Charged s ∧ s.nowCachingByte = 16892
  := by
  refine ⟨_, rfl, (run_charged 100 readAgain).2 _ rfl, ?_⟩
  decide

end SftlMonitor

end Dftl

end AppL
