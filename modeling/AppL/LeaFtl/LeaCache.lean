import Mathlib.Algebra.BigOperators.Ring.Finset
import Mathlib.Algebra.Order.BigOperators.Group.List
import AppL.Lib.Ledger
import AppL.LeaFtl.Levels

/-!
# The cache of the groups

The groups that are cached are in the list `gp_lru`, and `lru_now_byte` is the sum of their sizes.
An insertion changes the size of a cached group and the sum by the same difference; a group that is
evicted keeps its size, and its levels are put aside until it is cached again.  An eviction takes
groups from the list until their sizes reach what is asked for, and counts them in 32 bits.
-/

namespace AppL

open Transition Ledger

namespace LeaFtl

variable {P : Type}

/-! ### The cache -/

/-- What happens to the translation pages when a changed group is evicted: the page that it is
written to, and the `gc_translate_map` of the garbage collection before. -/
structure MapFlush where
  ppa : ℕ
  moved : List (ℕ × ℕ)
  deriving DecidableEq, Repr

/-- The globals and the groups, the translation page and the `temporal_storage` of each group, the
list `gp_lru` from the next victim on, and `lru_reserve_byte`.  The buffer `crb` of a group is
there when its list of levels is. -/
structure LeaCache (P : Type) where
  globals : Globals
  mainGp : ℕ → Group P
  ppa : ℕ → Option ℕ
  temporalStorage : ℕ → Option (List (Level P))
  lru : List ℕ
  lruReserveByte : ℤ

namespace LeaCache

section Operations

variable (s : LeaCache P)

/-- The group `g` is changed. -/
def setGroup (g : ℕ) (gp : Group P) : LeaCache P :=
  { s with mainGp := Function.update s.mainGp g gp }

/-- `group_load_levellist`. -/
def groupLoadLevellist (g : ℕ) : Except Abort (LeaCache P) := do
  require .loadNotEmpty ((s.mainGp g).levelList.isNone = true)
  let s' := s.setGroup g { s.mainGp g with levelList := s.temporalStorage g }
  return { s' with temporalStorage := Function.update s.temporalStorage g none }

/-- `group_store_levellist`. -/
def groupStoreLevellist (g : ℕ) : LeaCache P :=
  let s' := s.setGroup g { s.mainGp g with levelList := none }
  { s' with temporalStorage := Function.update s.temporalStorage g (s.mainGp g).levelList }

/-- The end of `lea_cache_insert`. -/
def lruPush (g : ℕ) : LeaCache P :=
  let s' := s.setGroup g { s.mainGp g with isclean := true }
  { s' with
    globals := { s.globals with lruNowByte := s.globals.lruNowByte + (s.mainGp g).size }
    lru := s.lru ++ [g] }

/-- `lea_cache_insert`; `load` tells whether a translation page has been read. -/
def leaCacheInsert (g : ℕ) (load : Bool) : Except Abort (LeaCache P) := do
  if load then
    let s ← s.groupLoadLevellist g
    let reserve :=
      if s.lruReserveByte < 0 then 0 else s.lruReserveByte - (s.mainGp g).size
    return { s with lruReserveByte := reserve }.lruPush g
  else
    return s.lruPush g

/-- `group_get_map_read_grp` of a group, and whether a translation page is to be read. -/
def groupGetMapReadGrp (g : ℕ) (isstart readDone : Bool) : Except Abort (LeaCache P × Bool) :=
  match (s.mainGp g).cacheFlag with
  | .cached => return (s, false)
  | flag =>
      match s.ppa g with
      | none => do
          let s ← (s.setGroup g { s.mainGp g with cacheFlag := .cached }).leaCacheInsert g false
          return (s, false)
      | some _ =>
          if flag = .uncached then
            return (s.setGroup g { s.mainGp g with cacheFlag := .flying }, true)
          else if readDone ∧ ¬ isstart then do
            let s ← (s.setGroup g { s.mainGp g with cacheFlag := .cached }).leaCacheInsert g true
            return (s, false)
          else
            return (s, false)

/-- `moved_gp_update`. -/
def movedGpUpdate (moved : List (ℕ × ℕ)) : LeaCache P :=
  { s with ppa := moved.foldl (fun ppa q => Function.update ppa q.1 (some q.2)) s.ppa }

/-- One turn of `__lea_cache_evict_body` for the victim `g`. -/
def evictVictim (flush : ℕ → MapFlush) (g : ℕ) : Except Abort (LeaCache P) := do
  require .victimNotCached ((s.mainGp g).cacheFlag = .cached)
  let s := s.groupStoreLevellist g
  -- the check of `group_clean`
  require .plrNotMoved ((s.mainGp g).levelList.isNone = true)
  if (s.mainGp g).isclean then
    return s.setGroup g { s.mainGp g with cacheFlag := .uncached }
  else
    let s := s.movedGpUpdate (flush g).moved
    let s := { s with ppa := Function.update s.ppa g (some (flush g).ppa) }
    return s.setGroup g { s.mainGp g with isclean := true, cacheFlag := .uncached }

/-- The loop of `__lea_cache_evict_body` over the groups of the list; `getting_space` has 32 bits. -/
def evictLoop (flush : ℕ → MapFlush) (size : ℤ) :
    List ℕ → ℤ → LeaCache P → Except Abort (LeaCache P × ℤ)
  | [], gettingSpace, s =>
      if gettingSpace < size then .error .emptyLru else return (s, gettingSpace)
  | g :: rest, gettingSpace, s =>
      if gettingSpace < size then do
        let gettingSpace := (gettingSpace + (s.mainGp g).size) % 2 ^ 32
        let s ← { s with lru := rest }.evictVictim flush g
        evictLoop flush size rest gettingSpace s
      else
        return (s, gettingSpace)

/-- `__lea_cache_evict_body`; `size` has 32 bits. -/
def leaCacheEvictBody (flush : ℕ → MapFlush) (size : ℤ) : Except Abort (LeaCache P) := do
  let (s, gettingSpace) ← evictLoop flush (size % 2 ^ 32) s.lru 0 s
  return { s with
    globals := { s.globals with lruNowByte := s.globals.lruNowByte - gettingSpace } }

variable (lruMaxByte : ℕ)

/-- `lea_cache_evict_force`. -/
def leaCacheEvictForce (flush : ℕ → MapFlush) : Except Abort (LeaCache P) :=
  if s.globals.lruNowByte < lruMaxByte then
    return s
  else
    s.leaCacheEvictBody flush (s.globals.lruNowByte - lruMaxByte)

/-- There is room for a group: a comparison of 64 bits without a sign. -/
def enoughSpace (g : ℕ) : Bool :=
  ((s.mainGp g).size + s.lruReserveByte + s.globals.lruNowByte) % 2 ^ 64 < lruMaxByte

/-- There is nothing to evict for a group: a comparison of 64 bits without a sign. -/
def noSpace (g : ℕ) : Bool := s.globals.lruNowByte % 2 ^ 64 < (s.mainGp g).size

/-- `lea_cache_evict`. -/
def leaCacheEvict (flush : ℕ → MapFlush) (g : ℕ) : Except Abort (LeaCache P × Bool) :=
  if (s.mainGp g).cacheFlag = .cached then
    return (s, true)
  else if s.enoughSpace lruMaxByte g then
    return (s, true)
  else if s.noSpace g then
    return (s, false)
  else do
    let s ← s.leaCacheEvictBody flush (s.mainGp g).size
    return ({ s with lruReserveByte := s.lruReserveByte + (s.mainGp g).size }, true)

/-- `lea_cache_promote`. -/
def leaCachePromote (g : ℕ) : Except Abort (LeaCache P) := do
  require .notCached ((s.mainGp g).cacheFlag = .cached)
  return { s with lru := s.lru.erase g ++ [g] }

/-- `group_insert`, with `lea_cache_size_update`. -/
def insert (pr : Predictor P) (g : ℕ) (i : Insert) : Except Abort (LeaCache P) := do
  let (globals, gp) ← s.globals.groupInsert pr (s.mainGp g) i.tmap i.type i.interval i.ptr
  return { s.setGroup g gp with globals := globals }

end Operations

/-- The operations. -/
inductive Op
  | insert (g : ℕ) (i : Insert)
  | read (g : ℕ) (isstart readDone : Bool)
  | evict (g : ℕ) (flush : ℕ → MapFlush)
  | evictForce (flush : ℕ → MapFlush)
  | promote (g : ℕ)

/-- One operation. -/
def step (pr : Predictor P) (lruMaxByte : ℕ) (s : LeaCache P) : Op → Except Abort (LeaCache P)
  | .insert g i => s.insert pr g i
  | .read g isstart readDone => (s.groupGetMapReadGrp g isstart readDone).map Prod.fst
  | .evict g flush => (s.leaCacheEvict lruMaxByte flush g).map Prod.fst
  | .evictForce flush => s.leaCacheEvictForce lruMaxByte flush
  | .promote g => s.leaCachePromote g

/-- After `group_init` of all groups. -/
def start (P : Type) : LeaCache P where
  globals := (init P 0).1
  mainGp g := { noGroups P g with cacheFlag := .uncached }
  ppa _ := none
  temporalStorage _ := none
  lru := []
  lruReserveByte := 0

/-! ### The account -/

section Account

variable (pr : Predictor P) (s : LeaCache P)

/-- The levels of a group, which are put aside when it is not cached. -/
def levels (g : ℕ) : List (Level P) :=
  ((s.mainGp g).levelList.or (s.temporalStorage g)).getD []

/-- The bytes of the segments of a group and of its conflict buffer. -/
def groupBytes (g : ℕ) : ℕ :=
  ((s.levels g).map (groupLevelSize pr)).sum + (s.globals.masterCrb g).card * 4

/-- The account of the cache: every group has the size of its segments and of its conflict buffer,
the list has the cached groups, each once, and the sum is that of their sizes. -/
structure Accounted : Prop where
  size : ∀ g, (s.mainGp g).size = s.groupBytes pr g
  nodup : s.lru.Nodup
  mem_lru : ∀ g, g ∈ s.lru ↔ (s.mainGp g).cacheFlag = .cached
  lruNowByte : s.globals.lruNowByte = (s.lru.map fun g => (s.mainGp g).size).sum

/-- The groups that are taken from a list until their bytes and those counted before reach
`size`. -/
def victims (bytes : ℕ → ℤ) (size : ℤ) : ℤ → List ℕ → List ℕ
  | _, [] => []
  | gettingSpace, g :: rest =>
      if gettingSpace < size then
        g :: victims bytes size (gettingSpace + bytes g) rest
      else
        []

/-- The groups that are taken when `size` bytes are asked for have less than `2 ^ 32` bytes. -/
def Fits (size : ℤ) : Prop :=
  ((victims (fun g => (s.mainGp g).size) (size % 2 ^ 32) 0 s.lru).map
    fun g => (s.mainGp g).size).sum < 2 ^ 32

instance (size : ℤ) : Decidable (s.Fits size) :=
  inferInstanceAs (Decidable (List.sum _ < 2 ^ 32))

/-- What the callers ensure: a group is cached when a segment is inserted into it or when it is
promoted, and a garbage collection moves translation pages that are there. -/
def Called (s : LeaCache P) : Op → Prop
  | .insert g i => (s.mainGp g).cacheFlag = .cached ∧ i.Valid g
  | .read _ _ _ => True
  | .evict _ flush => ∀ g, ∀ q ∈ (flush g).moved, s.ppa q.1 ≠ none
  | .evictForce flush => ∀ g, ∀ q ∈ (flush g).moved, s.ppa q.1 ≠ none
  | .promote g => (s.mainGp g).cacheFlag = .cached

/-- No eviction takes `2 ^ 32` bytes or more. -/
def Narrow (lruMaxByte : ℕ) (s : LeaCache P) : Op → Prop
  | .evict g _ => (s.mainGp g).cacheFlag ≠ .cached → s.enoughSpace lruMaxByte g = false →
      s.noSpace g = false → s.Fits (s.mainGp g).size
  | .evictForce _ => lruMaxByte ≤ s.globals.lruNowByte →
      s.Fits (s.globals.lruNowByte - lruMaxByte)
  | _ => True

end Account

/-! ### The invariant -/

section Invariant

variable (pr : Predictor P) (s : LeaCache P)

/-- What is known of a group: when it is not cached its levels are put aside, or it has never had
a segment. -/
structure GroupKept (g : ℕ) : Prop where
  index : (s.mainGp g).mapIdx = g
  crb : ∀ l ∈ s.globals.masterCrb g, l / mapInTrans = g
  ordered : ∀ lev rest, s.levels g = lev :: rest → Ordered lev.segs
  size : (s.mainGp g).size = s.groupBytes pr g
  loaded : (s.mainGp g).cacheFlag = .cached → (s.mainGp g).levelList = none → s.levels g = []
  stored : (s.mainGp g).cacheFlag ≠ .cached → s.ppa g ≠ none → (s.mainGp g).levelList = none
  fresh : s.ppa g = none → (s.mainGp g).isclean = true → s.levels g = []
  clean : (s.mainGp g).cacheFlag ≠ .cached → (s.mainGp g).isclean = true

/-- What the list is to know of a group. -/
def view (g : ℕ) : Option View :=
  let cached : Bool := (s.mainGp g).cacheFlag = .cached
  some ⟨cached, cached, s.groupBytes pr g⟩

/-- The list, with the sizes. -/
def listed : List (ℕ × ℕ) := s.lru.map fun g => (g, s.groupBytes pr g)

/-- The cache while `gettingSpace` bytes have been evicted and not yet been subtracted. -/
structure Kept (gettingSpace : ℤ) : Prop where
  groups : ∀ g, GroupKept pr s g
  balanced : Balanced (s.view pr) (s.listed pr) (s.globals.lruNowByte - gettingSpace)

variable {pr} {s} {s' : LeaCache P} {gettingSpace : ℤ} {g : ℕ}

/-- Groups that a step does not change. -/
structure SameGroup (s s' : LeaCache P) (g : ℕ) : Prop where
  mainGp : s'.mainGp g = s.mainGp g
  ppa : s'.ppa g = none ↔ s.ppa g = none
  temporalStorage : s'.temporalStorage g = s.temporalStorage g
  masterCrb : s'.globals.masterCrb g = s.globals.masterCrb g

theorem SameGroup.levels (h : SameGroup s s' g) :
  s'.levels g = s.levels g
  := by
  unfold LeaCache.levels
  rw [h.mainGp, h.temporalStorage]

theorem SameGroup.groupBytes (h : SameGroup s s' g) :
  s'.groupBytes pr g = s.groupBytes pr g
  := by
  unfold LeaCache.groupBytes
  rw [h.levels, h.masterCrb]

theorem SameGroup.view (h : SameGroup s s' g) :
  s'.view pr g = s.view pr g
  := by
  unfold LeaCache.view
  rw [h.groupBytes, h.mainGp]

theorem GroupKept.congr (hg : GroupKept pr s g) (h : SameGroup s s' g) :
  GroupKept pr s' g
  where
    index := by
      rw [h.mainGp]
      apply hg.index
    crb := by
      rw [h.masterCrb]
      apply hg.crb
    ordered := by
      rw [h.levels]
      apply hg.ordered
    size := by
      rw [h.mainGp, h.groupBytes]
      apply hg.size
    loaded := by
      rw [h.mainGp, h.levels]
      apply hg.loaded
    stored := by
      rw [h.mainGp, Ne, Ne, h.ppa]
      apply hg.stored
    fresh := by
      rw [h.mainGp, h.levels, h.ppa]
      apply hg.fresh
    clean := by
      rw [h.mainGp]
      apply hg.clean

theorem view_cached (h : (s.mainGp g).cacheFlag = .cached) :
  s.view pr g = some ⟨true, true, s.groupBytes pr g⟩
  := by
  unfold view
  rw [h]
  rfl

theorem unlisted_view (h : (s.mainGp g).cacheFlag ≠ .cached) :
  Unlisted (s.view pr g)
  := by
  intro w hw
  cases hw
  simp [h]

theorem view_eq_update (hothers : ∀ g', g' ≠ g → SameGroup s s' g') :
  s'.view pr = Function.update (s.view pr) g (s'.view pr g)
  := by
  funext g'
  by_cases heq : g' = g
  · rw [heq, Function.update_self]
  · rw [Function.update_of_ne heq]
    apply (hothers g' heq).view

/-- The other groups of a list have the sizes that they had. -/
theorem listed_congr {l : List ℕ} (hl : g ∉ l) (hothers : ∀ g', g' ≠ g → SameGroup s s' g') :
  l.map (fun g' => (g', s'.groupBytes pr g')) = l.map fun g' => (g', s.groupBytes pr g')
  := by
  apply List.map_congr_left
  intro g' hg'
  have hne : g' ≠ g := fun heq => hl (heq ▸ hg')
  rw [(hothers g' hne).groupBytes]

theorem Kept.nodup (h : Kept pr s gettingSpace) :
  s.lru.Nodup
  := by
  have hn := h.balanced.nodup
  unfold listed at hn
  rw [List.map_map] at hn
  apply hn.of_map _

theorem Kept.mem_lru (h : Kept pr s gettingSpace) (g : ℕ) :
  g ∈ s.lru ↔ (s.mainGp g).cacheFlag = .cached
  := by
  have hmem := (h.balanced.mem_iff (w := _) (k := g) rfl).1
  unfold listed at hmem
  rw [List.map_map] at hmem
  have hid : s.lru.map (Prod.fst ∘ fun g => (g, s.groupBytes pr g)) = s.lru := List.map_id _
  rw [hid, decide_eq_true_iff] at hmem
  apply hmem

theorem Kept.accounted (h : Kept pr s 0) :
  Accounted pr s
  where
    size g := (h.groups g).size
    nodup := h.nodup
    mem_lru := h.mem_lru
    lruNowByte := by
      have hsum := h.balanced.size
      rw [sub_zero] at hsum
      rw [hsum]
      unfold listed
      rw [List.map_map, Nat.cast_list_sum, List.map_map]
      apply congrArg List.sum
      apply List.map_congr_left
      intro g _
      apply (h.groups g).size.symm

theorem kept_start :
  Kept pr (start P) 0
  where
    groups g := by
      constructor
      · rfl
      · simp [start, init]
      · intro lev rest h
        cases h
      · rfl
      · intro _ _
        rfl
      · intro _ h
        exact absurd rfl h
      · intro _ _
        rfl
      · intro _
        rfl
    balanced := by
      apply Balanced.nil
      intro g
      apply unlisted_view
      simp [start]

/-! ### Changes of one group -/

/-- All groups are kept when one is that changes. -/
theorem Kept.changed (h : Kept pr s gettingSpace) (hothers : ∀ g', g' ≠ g → SameGroup s s' g')
    (hg : GroupKept pr s' g) :
  ∀ g', GroupKept pr s' g'
  := by
  intro g'
  by_cases heq : g' = g
  · rw [heq]
    apply hg
  · apply (h.groups g').congr (hothers g' heq)

/-- A group that is not cached is pushed to the list. -/
theorem Kept.pushed (h : Kept pr s gettingSpace) (hnot : (s.mainGp g).cacheFlag ≠ .cached)
    (hothers : ∀ g', g' ≠ g → SameGroup s s' g') (hg : GroupKept pr s' g)
    (hcached : (s'.mainGp g).cacheFlag = .cached) (hlru : s'.lru = s.lru ++ [g])
    (hnow : s'.globals.lruNowByte = s.globals.lruNowByte + s'.groupBytes pr g) :
  Kept pr s' gettingSpace
  := by
  use h.changed hothers hg
  have hmem : g ∉ s.lru := fun hmem => hnot ((h.mem_lru g).mp hmem)
  have hpush := @Balanced.push _ _ _ _ g (s'.groupBytes pr g) _ h.balanced (unlisted_view hnot)
  have hlist : s'.listed pr = s.listed pr ++ [(g, s'.groupBytes pr g)] := by
    unfold listed
    rw [hlru, List.map_append, listed_congr hmem hothers]
    rfl
  rw [view_eq_update hothers, view_cached hcached, hlist, hnow]
  have hperm := hpush.perm (List.perm_append_singleton _ _).symm
  have hcomm : s.globals.lruNowByte + (s'.groupBytes pr g : ℤ) - gettingSpace
      = s.globals.lruNowByte - gettingSpace + s'.groupBytes pr g := by
    omega
  rw [hcomm]
  apply hperm

/-- The first group of the list is taken from it. -/
theorem Kept.popped (h : Kept pr s gettingSpace) {rest : List ℕ} (hlru : s.lru = g :: rest)
    (hothers : ∀ g', g' ≠ g → SameGroup s s' g') (hg : GroupKept pr s' g)
    (hnot : (s'.mainGp g).cacheFlag ≠ .cached) (hlru' : s'.lru = rest)
    (hnow : s'.globals.lruNowByte = s.globals.lruNowByte) :
  Kept pr s' (gettingSpace + s.groupBytes pr g)
  := by
  use h.changed hothers hg
  have hmem : g ∉ rest := by
    have hn := h.nodup
    rw [hlru] at hn
    apply (List.nodup_cons.mp hn).1
  have hlist : s.listed pr = (g, s.groupBytes pr g) :: s'.listed pr := by
    unfold listed
    rw [hlru, hlru', listed_congr hmem hothers]
    rfl
  have hout : Unlisted (s'.view pr g) := unlisted_view hnot
  have hremove := h.balanced.remove (List.Perm.of_eq hlist) hout
  have hsub : s.globals.lruNowByte - (gettingSpace + (s.groupBytes pr g : ℤ))
      = s.globals.lruNowByte - gettingSpace - s.groupBytes pr g := by
    omega
  rw [view_eq_update hothers, hnow, hsub]
  apply hremove

/-- A cached group gets another size. -/
theorem Kept.resized (h : Kept pr s gettingSpace) (hcached : (s.mainGp g).cacheFlag = .cached)
    (hothers : ∀ g', g' ≠ g → SameGroup s s' g') (hg : GroupKept pr s' g)
    (hcached' : (s'.mainGp g).cacheFlag = .cached) (hlru : s'.lru = s.lru)
    (hnow : s'.globals.lruNowByte - s.globals.lruNowByte
      = s'.groupBytes pr g - s.groupBytes pr g) :
  Kept pr s' gettingSpace
  := by
  use h.changed hothers hg
  have hmem := (h.mem_lru g).mpr hcached
  have hperm := List.perm_cons_erase hmem
  have hout : g ∉ s.lru.erase g := List.Nodup.not_mem_erase h.nodup
  have hremove := h.balanced.remove (o := none) (hperm.map _) (by intro w hw; cases hw)
  have hpush := @Balanced.push _ _ _ _ g (s'.groupBytes pr g) _ hremove (by
    rw [Function.update_self]
    intro w hw
    cases hw)
  rw [Function.update_idem] at hpush
  have hlist : (s'.listed pr).Perm ((g, s'.groupBytes pr g) ::
      (s.lru.erase g).map fun g => (g, s.groupBytes pr g)) := by
    unfold listed
    rw [hlru, ← listed_congr hout hothers]
    apply hperm.map _
  have hsum : s.globals.lruNowByte - gettingSpace - (s.groupBytes pr g : ℤ) + s'.groupBytes pr g
      = s'.globals.lruNowByte - gettingSpace := by
    omega
  rw [hsum] at hpush
  rw [view_eq_update hothers, view_cached hcached']
  apply hpush.perm hlist.symm

/-- A group that is not in the list changes and is not in it then. -/
theorem Kept.apart (h : Kept pr s gettingSpace) (hnot : (s.mainGp g).cacheFlag ≠ .cached)
    (hothers : ∀ g', g' ≠ g → SameGroup s s' g') (hg : GroupKept pr s' g)
    (hnot' : (s'.mainGp g).cacheFlag ≠ .cached) (hlru : s'.lru = s.lru)
    (hnow : s'.globals.lruNowByte = s.globals.lruNowByte) :
  Kept pr s' gettingSpace
  := by
  use h.changed hothers hg
  have hmem : g ∉ s.lru := fun hmem => hnot ((h.mem_lru g).mp hmem)
  have hlist : s'.listed pr = s.listed pr := by
    unfold listed
    rw [hlru, listed_congr hmem hothers]
  rw [view_eq_update hothers, hlist, hnow]
  apply h.balanced.change (unlisted_view hnot) (unlisted_view hnot')

end Invariant

/-! ### Insertions -/

section Insertion

variable {pr : Predictor P} {s : LeaCache P} {gettingSpace : ℤ} {g : ℕ}

/-- The levels of a cached group are its own. -/
theorem GroupKept.levels_eq (hg : GroupKept pr s g) (hcached : (s.mainGp g).cacheFlag = .cached) :
  s.levels g = (s.mainGp g).levels
  := by
  cases hlist : (s.mainGp g).levelList with
  | none =>
      rw [hg.loaded hcached hlist]
      unfold Group.levels
      rw [hlist]
      rfl
  | some levels =>
      unfold LeaCache.levels Group.levels
      rw [hlist]
      rfl

/-- The segments that go down keep their sizes. -/
theorem newLevels_bytes (ptr : ℕ) (lev : Level P) (rest : List (Level P))
    (godown : List (Segment P)) :
  ((newLevels ptr lev rest godown).map (groupLevelSize pr)).sum
    = groupLevelSize pr lev + (godown.map (segmentSize pr)).sum
      + (rest.map (groupLevelSize pr)).sum
  := by
  unfold newLevels
  split
  · rename_i hnil
    rw [hnil]
    simp
  · have hsize : groupLevelSize pr ⟨ptr, godown.map fun seg => { seg with levelPtr := some ptr }⟩
        = (godown.map (segmentSize pr)).sum := by
      unfold groupLevelSize
      rw [List.map_map]
      rfl
    rw [List.map_cons, List.map_cons, List.sum_cons, List.sum_cons, hsize, Nat.add_assoc]

theorem Kept.insert (h : Kept pr s gettingSpace) {i : Insert}
    (hcached : (s.mainGp g).cacheFlag = .cached) (hi : i.Valid g) :
  ∃ s', s.insert pr g i = .ok s' ∧ Kept pr s' gettingSpace
  := by
  have hg := h.groups g
  have hidx := hg.index
  have hlevels := hg.levels_eq hcached
  have hord : Ordered (s.mainGp g).level0 := by
    rw [level0_eq, ← hlevels]
    split
    · use by simp, List.Pairwise.nil
    · rename_i lev rest heq
      apply hg.ordered lev rest heq
  obtain ⟨globals, gp, hstep, hins⟩ := @groupInsert_inserted P pr i s.globals (s.mainGp g)
    (by rw [hidx]; exact hi) hcached hord (by rw [hidx]; exact hg.crb)
  obtain ⟨new, s₁, lev, rest, lev', godown, freed, t⟩ := groupInsert_ok hstep
  have hsome := levelList_ne_none hstep
  obtain ⟨s', hs'⟩ : ∃ s' : LeaCache P, s' = { s.setGroup g gp with globals := globals } := ⟨_, rfl⟩
  have hgp : s'.mainGp g = gp := by
    rw [hs']
    apply Function.update_self g gp s.mainGp
  have hlevels' : s'.levels g = gp.levels := by
    unfold LeaCache.levels Group.levels
    rw [hgp]
    cases hlist : gp.levelList with
    | none => exact absurd hlist hsome
    | some levels => rfl
  have hothers : ∀ g', g' ≠ g → SameGroup s s' g' := by
    intro g' hne
    rw [hs']
    refine ⟨Function.update_of_ne hne _ _, Iff.rfl, rfl, ?_⟩
    apply hins.others g' (by rw [hidx]; exact hne)
  have hbytes : ((s'.groupBytes pr g : ℕ) : ℤ) - s.groupBytes pr g = gp.size - (s.mainGp g).size := by
    have hsize := t.targeted.size
    rw [hidx] at hsize
    unfold levelBytes at hsize
    rw [t.masterCrb] at hsize
    unfold LeaCache.groupBytes
    rw [hlevels', hlevels, t.targeted.levels, newLevels_bytes, hs']
    have hold : ((s.mainGp g).levels.map (groupLevelSize pr)).sum
        = (lev.segs.map (segmentSize pr)).sum + (rest.map (groupLevelSize pr)).sum := by
      rcases t.level with ⟨hlevels, -⟩ | ⟨hlevels, rfl, rfl, -⟩
      · rw [hlevels, List.map_cons, List.sum_cons]
        rfl
      · rw [hlevels]
        rfl
    rw [hold]
    unfold groupLevelSize
    dsimp only at hsize ⊢
    omega
  have hnow : s'.globals.lruNowByte - s.globals.lruNowByte = gp.size - (s.mainGp g).size := by
    rw [hs', ← t.lruNowByte]
    apply t.targeted.lruNowByte
  have hflag : gp.cacheFlag = .cached := hins.cacheFlag.trans hcached
  have hkept : GroupKept pr s' g := by
    constructor
    · rw [hgp, hins.mapIdx]
      apply hidx
    · intro l hl
      rw [hs'] at hl
      have hcrb := hins.crb l
      rw [hidx] at hcrb
      apply (hcrb hl).elim (hg.crb l) (hi.group l)
    · intro lev rest heq
      obtain ⟨_, _, _, -, -, -, hrep, -⟩ := hins.levels
      have hordered := hrep.ordered
      rw [level0_eq, ← hlevels', heq] at hordered
      apply hordered
    · rw [hgp]
      have hsize := hg.size
      omega
    · intro _ hnone
      rw [hgp] at hnone
      exact absurd hnone hsome
    · intro hnot
      rw [hgp] at hnot
      exact absurd hflag hnot
    · intro _ hclean
      rw [hgp, t.targeted.isclean] at hclean
      cases hclean
    · intro hnot
      rw [hgp] at hnot
      exact absurd hflag hnot
  refine ⟨s', ?_, ?_⟩
  · rw [hs']
    exact bind_eq_ok.mpr ⟨_, hstep, rfl⟩
  · apply h.resized hcached hothers hkept
    · rw [hgp]
      apply hflag
    · rw [hs']
      rfl
    · rw [hnow, hbytes]

end Insertion

/-! ### Loads -/

section Load

variable {pr : Predictor P} {s : LeaCache P} {gettingSpace : ℤ} {g : ℕ}

/-- A change of one group leaves the others as they are. -/
theorem sameGroup_of_ne {s' : LeaCache P} {gp : Group P} {g' : ℕ} (hne : g' ≠ g)
    (hgp : s'.mainGp = Function.update s.mainGp g gp) (hppa : s'.ppa g' = none ↔ s.ppa g' = none)
    (hstored : s'.temporalStorage g' = s.temporalStorage g')
    (hcrb : s'.globals.masterCrb = s.globals.masterCrb) :
  SameGroup s s' g'
  where
    mainGp := by
      rw [hgp, Function.update_of_ne hne]
    ppa := hppa
    temporalStorage := hstored
    masterCrb := by
      rw [hcrb]

/-- A group keeps its size when its levels are the same. -/
theorem groupBytes_eq {s' : LeaCache P} (hlevels : s'.levels g = s.levels g)
    (hcrb : s'.globals.masterCrb = s.globals.masterCrb) :
  s'.groupBytes pr g = s.groupBytes pr g
  := by
  unfold LeaCache.groupBytes
  rw [hlevels, hcrb]

/-- A group with other flags and the same levels. -/
theorem GroupKept.flagged (hg : GroupKept pr s g) {s' : LeaCache P} {gp : Group P}
    (hgp : s'.mainGp g = gp) (hidx : gp.mapIdx = (s.mainGp g).mapIdx)
    (hsize : gp.size = (s.mainGp g).size) (hlevels : s'.levels g = s.levels g)
    (hcrb : s'.globals.masterCrb = s.globals.masterCrb)
    (hloaded : gp.cacheFlag = .cached → gp.levelList = none → s.levels g = [])
    (hstored : gp.cacheFlag ≠ .cached → s'.ppa g ≠ none → gp.levelList = none)
    (hfresh : s'.ppa g = none → gp.isclean = true → s.levels g = [])
    (hclean : gp.cacheFlag ≠ .cached → gp.isclean = true) :
  GroupKept pr s' g
  := by
  subst hgp
  constructor
  · rw [hidx]
    apply hg.index
  · rw [hcrb]
    apply hg.crb
  · rw [hlevels]
    apply hg.ordered
  · rw [hsize, groupBytes_eq hlevels hcrb]
    apply hg.size
  · rw [hlevels]
    apply hloaded
  · apply hstored
  · rw [hlevels]
    apply hfresh
  · apply hclean

/-- A group with the levels that it had is pushed to the list. -/
theorem Kept.lruPush (h : Kept pr s gettingSpace) (hnot : (s.mainGp g).cacheFlag ≠ .cached)
    {s' : LeaCache P} {gp : Group P} (hgp : s'.mainGp = Function.update s.mainGp g gp)
    (hself : gp = { s.mainGp g with
      levelList := gp.levelList, cacheFlag := .cached, isclean := true })
    (hppa : s'.ppa = s.ppa)
    (hstored : ∀ g', g' ≠ g → s'.temporalStorage g' = s.temporalStorage g')
    (hglobals : s'.globals
      = { s.globals with lruNowByte := s.globals.lruNowByte + (s.mainGp g).size })
    (hlru : s'.lru = s.lru ++ [g]) (hlevels : s'.levels g = s.levels g)
    (hloaded : gp.levelList = none → s.levels g = [])
    (hfresh : s.ppa g = none → s.levels g = []) :
  Kept pr s' gettingSpace
  := by
  have hg := h.groups g
  have hupd : s'.mainGp g = gp := by
    rw [hgp, Function.update_self]
  have hcrb : s'.globals.masterCrb = s.globals.masterCrb := by
    rw [hglobals]
  apply h.pushed hnot
  · intro g' hne
    apply sameGroup_of_ne hne hgp _ (hstored g' hne) hcrb
    rw [hppa]
  · apply hg.flagged hupd _ _ hlevels hcrb (fun _ => hloaded)
    · intro hflag
      rw [hself] at hflag
      exact absurd rfl hflag
    · intro hnone _
      rw [hppa] at hnone
      apply hfresh hnone
    · intro _
      rw [hself]
    · rw [hself]
    · rw [hself]
  · rw [hupd, hself]
  · apply hlru
  · rw [groupBytes_eq hlevels hcrb, ← hg.size, hglobals]

/-- A group without a translation page is cached as it is. -/
theorem Kept.cacheFresh (h : Kept pr s gettingSpace) (hnot : (s.mainGp g).cacheFlag ≠ .cached)
    (hppa : s.ppa g = none) :
  Kept pr ((s.setGroup g { s.mainGp g with cacheFlag := .cached }).lruPush g) gettingSpace
  := by
  have hg := h.groups g
  have hempty := hg.fresh hppa (hg.clean hnot)
  generalize hs' : (s.setGroup g { s.mainGp g with cacheFlag := .cached }).lruPush g = s'
  have hgp : s'.mainGp
      = Function.update s.mainGp g { s.mainGp g with cacheFlag := .cached, isclean := true } := by
    rw [← hs']
    simp [LeaCache.lruPush, setGroup]
  have hlevels : s'.levels g = s.levels g := by
    unfold LeaCache.levels
    rw [hgp, Function.update_self, ← hs']
    rfl
  apply h.lruPush hnot hgp rfl _ _ _ _ hlevels (fun _ => hempty) (fun _ => hempty)
  · rw [← hs']
    rfl
  · intro g' _
    rw [← hs']
    rfl
  · rw [← hs']
    simp [LeaCache.lruPush, setGroup]
  · rw [← hs']
    rfl

/-- A group with a translation page gets its levels back. -/
theorem Kept.cacheLoaded (h : Kept pr s gettingSpace) (hnot : (s.mainGp g).cacheFlag ≠ .cached)
    (hppa : s.ppa g ≠ none) :
  ∃ s', (s.setGroup g { s.mainGp g with cacheFlag := .cached }).leaCacheInsert g true = .ok s' ∧
    Kept pr s' gettingSpace
  := by
  have hg := h.groups g
  have hnone := hg.stored hnot hppa
  have hisNone : (s.mainGp g).levelList.isNone = true := by
    rw [hnone]
    rfl
  refine ⟨_, bind_eq_ok.mpr ⟨_, bind_eq_ok.mpr ⟨(), require_eq_ok.mpr ?_, rfl⟩, rfl⟩, ?_⟩
  · simpa [setGroup] using hisNone
  generalize hs' : LeaCache.lruPush _ g = s'
  have hgp : s'.mainGp = Function.update s.mainGp g
      { s.mainGp g with
        levelList := s.temporalStorage g, cacheFlag := .cached, isclean := true } := by
    rw [← hs']
    simp [LeaCache.lruPush, setGroup]
  have hstorage : s'.temporalStorage = Function.update s.temporalStorage g none := by
    rw [← hs']
    rfl
  have hlevels : s'.levels g = s.levels g := by
    unfold LeaCache.levels
    rw [hgp, hstorage, hnone, Function.update_self, Function.update_self, Option.or_none,
      Option.none_or]
  apply h.lruPush hnot hgp rfl _ _ _ _ hlevels _ (fun hfresh => absurd hfresh hppa)
  · rw [← hs']
    rfl
  · intro g' hne
    rw [hstorage, Function.update_of_ne hne]
  · rw [← hs']
    simp [LeaCache.lruPush, setGroup]
  · rw [← hs']
    rfl
  · intro hstored
    have hstored : s.temporalStorage g = none := hstored
    unfold LeaCache.levels
    rw [hnone, hstored]
    rfl

/-- A translation page is to be read for the group. -/
theorem Kept.fly (h : Kept pr s gettingSpace) (hnot : (s.mainGp g).cacheFlag ≠ .cached) :
  Kept pr (s.setGroup g { s.mainGp g with cacheFlag := .flying }) gettingSpace
  := by
  have hg := h.groups g
  generalize hs' : s.setGroup g { s.mainGp g with cacheFlag := .flying } = s'
  have hgp : s'.mainGp = Function.update s.mainGp g { s.mainGp g with cacheFlag := .flying } := by
    rw [← hs']
    rfl
  have hself : s'.mainGp g = { s.mainGp g with cacheFlag := .flying } := by
    rw [hgp, Function.update_self]
  have hlevels : s'.levels g = s.levels g := by
    unfold LeaCache.levels
    rw [hself, ← hs']
    rfl
  have hcrb : s'.globals.masterCrb = s.globals.masterCrb := by
    rw [← hs']
    rfl
  apply h.apart hnot
  · intro g' hne
    apply sameGroup_of_ne hne hgp _ _ hcrb
    · rw [← hs']
      rfl
    · rw [← hs']
      rfl
  · apply hg.flagged hself rfl rfl hlevels hcrb
    · intro hflag
      cases hflag
    · intro _ hppa
      rw [← hs'] at hppa
      apply hg.stored hnot hppa
    · intro hppa
      rw [← hs'] at hppa
      apply hg.fresh hppa
    · intro _
      apply hg.clean hnot
  · rw [hself]
    intro hflag
    cases hflag
  · rw [← hs']
    rfl
  · rw [← hs']
    rfl

theorem Kept.read (h : Kept pr s gettingSpace) (g : ℕ) (isstart readDone : Bool) :
  ∃ s' b, s.groupGetMapReadGrp g isstart readDone = .ok (s', b) ∧ Kept pr s' gettingSpace
  := by
  unfold groupGetMapReadGrp
  split
  · exact ⟨s, false, rfl, h⟩
  · rename_i hnot
    have hnot : (s.mainGp g).cacheFlag ≠ .cached := hnot
    split
    · rename_i hppa
      exact ⟨_, false, rfl, h.cacheFresh hnot hppa⟩
    · rename_i ppa hppa
      have hsome : s.ppa g ≠ none := by
        rw [hppa]
        apply Option.some_ne_none ppa
      split
      · exact ⟨_, true, rfl, h.fly hnot⟩
      · split
        · obtain ⟨s', hload, hs'⟩ := h.cacheLoaded hnot hsome
          exact ⟨s', false, bind_eq_ok.mpr ⟨s', hload, rfl⟩, hs'⟩
        · exact ⟨s, false, rfl, h⟩

end Load

/-! ### Evictions -/

section Eviction

variable {pr : Predictor P} {s : LeaCache P} {gettingSpace : ℤ} {g : ℕ}

/-- Translation pages that move are still there. -/
theorem movedGpUpdate_ppa {moved : List (ℕ × ℕ)} :
  ∀ {s : LeaCache P}, (∀ q ∈ moved, s.ppa q.1 ≠ none) →
    ∀ g, (s.movedGpUpdate moved).ppa g = none ↔ s.ppa g = none
  := by
  induction moved with
  | nil =>
      intro s _ g
      apply Iff.rfl
  | cons q moved ih =>
      intro s hmoved g
      have hkeep : ∀ g, Function.update s.ppa q.1 (some q.2) g = none ↔ s.ppa g = none := by
        intro g
        by_cases heq : g = q.1
        · rw [heq, Function.update_self]
          have hq := hmoved q List.mem_cons_self
          use fun hsome => absurd hsome (Option.some_ne_none _), fun hnone => absurd hnone hq
        · rw [Function.update_of_ne heq]
      have hrest := @ih { s with ppa := Function.update s.ppa q.1 (some q.2) } (by
        intro r hr hnone
        exact hmoved r (List.mem_cons_of_mem _ hr) ((hkeep r.1).mp hnone)) g
      apply hrest.trans (hkeep g)

/-- What the eviction of a victim leaves as it is. -/
structure Evicted (s s' : LeaCache P) : Prop where
  size : ∀ g, (s'.mainGp g).size = (s.mainGp g).size
  ppa : ∀ g, s.ppa g ≠ none → s'.ppa g ≠ none
  lruNowByte : s'.globals.lruNowByte = s.globals.lruNowByte

/-- The levels of a cached group are put aside. -/
theorem Kept.putAside (h : Kept pr s gettingSpace) {rest : List ℕ} (hlru : s.lru = g :: rest)
    {s' : LeaCache P} {gp : Group P} (hgp : s'.mainGp = Function.update s.mainGp g gp)
    (hself : gp = { s.mainGp g with levelList := none, isclean := true, cacheFlag := .uncached })
    (hstorage : s'.temporalStorage = Function.update s.temporalStorage g (s.mainGp g).levelList)
    (hglobals : s'.globals = s.globals) (hlru' : s'.lru = rest)
    (hppa : ∀ g', g' ≠ g → (s'.ppa g' = none ↔ s.ppa g' = none))
    (hfresh : s'.ppa g = none → s.ppa g = none ∧ (s.mainGp g).isclean = true) :
  Kept pr s' (gettingSpace + s.groupBytes pr g) ∧ Evicted s s'
  := by
  have hg := h.groups g
  have hcached : (s.mainGp g).cacheFlag = .cached := by
    apply (h.mem_lru g).mp
    rw [hlru]
    apply List.mem_cons_self
  have hupd : s'.mainGp g = gp := by
    rw [hgp, Function.update_self]
  have hlevels : s'.levels g = s.levels g := by
    rw [hg.levels_eq hcached]
    unfold LeaCache.levels Group.levels
    rw [hupd, hself, hstorage, Function.update_self]
    rfl
  have hcrb : s'.globals.masterCrb = s.globals.masterCrb := by
    rw [hglobals]
  constructor
  · apply h.popped hlru
    · intro g' hne
      apply sameGroup_of_ne hne hgp (hppa g' hne) _ hcrb
      rw [hstorage, Function.update_of_ne hne]
    · apply hg.flagged hupd _ _ hlevels hcrb
      · intro hflag
        rw [hself] at hflag
        cases hflag
      · intro _ _
        rw [hself]
      · intro hnone _
        apply hg.fresh (hfresh hnone).1 (hfresh hnone).2
      · intro _
        rw [hself]
      · rw [hself]
      · rw [hself]
    · rw [hupd, hself]
      intro hflag
      cases hflag
    · apply hlru'
    · rw [hglobals]
  · constructor
    · intro g'
      by_cases heq : g' = g
      · rw [heq, hupd, hself]
      · rw [hgp, Function.update_of_ne heq]
    · intro g' hne hnone
      by_cases heq : g' = g
      · subst heq
        apply hne (hfresh hnone).1
      · apply hne ((hppa g' heq).mp hnone)
    · rw [hglobals]

theorem Kept.evictVictim (h : Kept pr s gettingSpace) {flush : ℕ → MapFlush} {rest : List ℕ}
    (hlru : s.lru = g :: rest) (hmoved : ∀ g, ∀ q ∈ (flush g).moved, s.ppa q.1 ≠ none) :
  ∃ s', ({ s with lru := rest } : LeaCache P).evictVictim flush g = .ok s' ∧ s'.lru = rest ∧
    Kept pr s' (gettingSpace + s.groupBytes pr g) ∧ Evicted s s'
  := by
  have hcached : (s.mainGp g).cacheFlag = .cached := by
    apply (h.mem_lru g).mp
    rw [hlru]
    apply List.mem_cons_self
  generalize hs₁ : ({ s with lru := rest } : LeaCache P).groupStoreLevellist g = s₁
  have hgp : s₁.mainGp = Function.update s.mainGp g { s.mainGp g with levelList := none } := by
    rw [← hs₁]
    rfl
  have hself : s₁.mainGp g = { s.mainGp g with levelList := none } := by
    rw [hgp, Function.update_self]
  have hrun : ∀ s' : LeaCache P,
      (if (s₁.mainGp g).isclean then
        pure (s₁.setGroup g { s₁.mainGp g with cacheFlag := .uncached })
      else
        let s₂ := s₁.movedGpUpdate (flush g).moved
        let s₃ := { s₂ with ppa := Function.update s₂.ppa g (some (flush g).ppa) }
        pure (s₃.setGroup g { s₃.mainGp g with isclean := true, cacheFlag := .uncached }))
          = (.ok s' : Except Abort (LeaCache P)) →
      ({ s with lru := rest } : LeaCache P).evictVictim flush g = .ok s' := by
    intro s' hs'
    refine bind_eq_ok.mpr ⟨(), require_eq_ok.mpr hcached, ?_⟩
    refine bind_eq_ok.mpr ⟨(), require_eq_ok.mpr ?_, ?_⟩
    · rw [hs₁, hself]
      rfl
    · rw [hs₁]
      apply hs'
  cases hclean : (s.mainGp g).isclean with
  | true =>
      refine ⟨_, hrun _ (if_pos ?_), ?_, ?_⟩
      · rw [hself]
        apply hclean
      · rw [← hs₁]
        rfl
      · refine h.putAside hlru (?_ : _ = Function.update s.mainGp g
          { s₁.mainGp g with cacheFlag := .uncached }) ?_ ?_ ?_ ?_ ?_ ?_
        · rw [setGroup, hgp, Function.update_idem]
        · rw [hself, ← hclean]
        · rw [← hs₁]
          rfl
        · rw [← hs₁]
          rfl
        · rw [← hs₁]
          rfl
        · intro g' _
          rw [← hs₁]
          rfl
        · intro hnone
          rw [← hs₁] at hnone
          use hnone, hclean
  | false =>
      refine ⟨_, hrun _ (if_neg ?_), ?_, ?_⟩
      · rw [hself]
        dsimp only
        rw [hclean]
        apply Bool.false_ne_true
      · rw [← hs₁]
        rfl
      · refine h.putAside hlru (?_ : _ = Function.update s.mainGp g
          { s₁.mainGp g with isclean := true, cacheFlag := .uncached }) ?_ ?_ ?_ ?_ ?_ ?_
        · rw [setGroup, movedGpUpdate, hgp, Function.update_idem]
        · rw [hself]
        · rw [← hs₁]
          rfl
        · rw [← hs₁]
          rfl
        · rw [← hs₁]
          rfl
        · intro g' hne
          have hppa₁ : s₁.ppa = s.ppa := by
            rw [← hs₁]
            rfl
          have hmoved₁ : ∀ q ∈ (flush g).moved, s₁.ppa q.1 ≠ none := by
            rw [hppa₁]
            apply hmoved g
          have hkeep := movedGpUpdate_ppa hmoved₁ g'
          rw [hppa₁] at hkeep
          rw [← hkeep]
          dsimp only [setGroup]
          rw [Function.update_of_ne hne]
        · intro hnone
          simp [setGroup] at hnone

/-- The loop takes the victims and ends before the list is empty. -/
theorem evictLoop_ok {flush : ℕ → MapFlush} {size : ℤ} {l : List ℕ} :
  ∀ {s : LeaCache P} {gettingSpace : ℤ}, Kept pr s gettingSpace → s.lru = l →
    (∀ g, ∀ q ∈ (flush g).moved, s.ppa q.1 ≠ none) → 0 ≤ gettingSpace →
    size ≤ s.globals.lruNowByte →
    gettingSpace + ((victims (fun g => (s.mainGp g).size) size gettingSpace l).map
      fun g => (s.mainGp g).size).sum < 2 ^ 32 →
    ∃ s' gettingSpace', evictLoop flush size l gettingSpace s = .ok (s', gettingSpace') ∧
      Kept pr s' gettingSpace'
  := by
  induction l with
  | nil =>
      intro s gettingSpace h hlru _ _ hsize _
      have hall := h.balanced.size
      unfold listed at hall
      rw [hlru] at hall
      simp only [List.map_nil, List.sum_nil, Nat.cast_zero] at hall
      have hnot : ¬ gettingSpace < size := by omega
      exact ⟨s, gettingSpace, if_neg hnot, h⟩
  | cons g rest ih =>
      intro s gettingSpace h hlru hmoved hpos hsize hfits
      by_cases hlt : gettingSpace < size
      · have hg := (h.groups g).size
        rw [victims, if_pos hlt, List.map_cons, List.sum_cons, hg] at hfits
        obtain ⟨s', hvictim, hlru', hs', he⟩ := h.evictVictim hlru hmoved
        have hsizes : (fun g => (s'.mainGp g).size) = fun g => (s.mainGp g).size := funext he.size
        have hnonneg : 0 ≤ ((victims (fun g => (s.mainGp g).size) size
            (gettingSpace + s.groupBytes pr g) rest).map fun g => (s.mainGp g).size).sum := by
          apply List.sum_nonneg
          intro b hb
          obtain ⟨g', -, rfl⟩ := List.mem_map.mp hb
          rw [(h.groups g').size]
          apply Int.natCast_nonneg _
        obtain ⟨s'', getting'', hloop, hs''⟩ := ih hs' hlru'
          (fun g q hq => he.ppa q.1 (hmoved g q hq)) (by omega)
          (by rw [he.lruNowByte]; exact hsize) (by rw [hsizes]; omega)
        refine ⟨s'', getting'', ?_, hs''⟩
        have hwrap : (gettingSpace + (s.mainGp g).size) % 2 ^ 32
            = gettingSpace + s.groupBytes pr g := by
          rw [hg]
          apply Int.emod_eq_of_lt (by omega) (by omega)
        rw [evictLoop, if_pos hlt]
        refine bind_eq_ok.mpr ⟨s', hvictim, ?_⟩
        rw [hwrap]
        apply hloop
      · refine ⟨s, gettingSpace, ?_, h⟩
        rw [evictLoop, if_neg hlt]
        rfl

/-- `size` bytes are evicted when there are as many. -/
theorem Kept.evictBody (h : Kept pr s 0) {flush : ℕ → MapFlush} {size : ℤ} (hpos : 0 ≤ size)
    (hsize : size ≤ s.globals.lruNowByte) (hfits : s.Fits size)
    (hmoved : ∀ g, ∀ q ∈ (flush g).moved, s.ppa q.1 ≠ none) :
  ∃ s', s.leaCacheEvictBody flush size = .ok s' ∧ Kept pr s' 0
  := by
  have hmod : size % 2 ^ 32 ≤ s.globals.lruNowByte := by omega
  unfold Fits at hfits
  obtain ⟨s', getting, hloop, hs'⟩ := evictLoop_ok h rfl hmoved le_rfl hmod (by
    rw [zero_add]
    exact hfits)
  refine ⟨_, bind_eq_ok.mpr ⟨_, hloop, rfl⟩, ?_⟩
  use fun g => (hs'.groups g).congr ⟨rfl, Iff.rfl, rfl, rfl⟩
  have hb := hs'.balanced
  rw [← sub_zero (s'.globals.lruNowByte - getting)] at hb
  apply hb

theorem Kept.evictForce (h : Kept pr s 0) {flush : ℕ → MapFlush} {lruMaxByte : ℕ}
    (hmoved : ∀ g, ∀ q ∈ (flush g).moved, s.ppa q.1 ≠ none)
    (hfits : lruMaxByte ≤ s.globals.lruNowByte → s.Fits (s.globals.lruNowByte - lruMaxByte)) :
  ∃ s', s.leaCacheEvictForce lruMaxByte flush = .ok s' ∧ Kept pr s' 0
  := by
  unfold leaCacheEvictForce
  split
  · exact ⟨s, rfl, h⟩
  · rename_i hge
    rw [not_lt] at hge
    apply h.evictBody (by omega) (by omega) (hfits hge) hmoved

theorem Kept.evict (h : Kept pr s 0) {flush : ℕ → MapFlush} {lruMaxByte : ℕ} (g : ℕ)
    (hmoved : ∀ g, ∀ q ∈ (flush g).moved, s.ppa q.1 ≠ none)
    (hfits : (s.mainGp g).cacheFlag ≠ .cached → s.enoughSpace lruMaxByte g = false →
      s.noSpace g = false → s.Fits (s.mainGp g).size) :
  ∃ s' b, s.leaCacheEvict lruMaxByte flush g = .ok (s', b) ∧ Kept pr s' 0
  := by
  unfold leaCacheEvict
  split
  · exact ⟨s, true, rfl, h⟩
  · rename_i hnot
    split
    · exact ⟨s, true, rfl, h⟩
    · rename_i henough
      split
      · exact ⟨s, false, rfl, h⟩
      · rename_i hspace
        rw [Bool.not_eq_true] at henough hspace
        have hsize := (h.groups g).size
        have hnow : 0 ≤ s.globals.lruNowByte := by
          have hb := h.balanced.size
          omega
        have hle : (s.mainGp g).size ≤ s.globals.lruNowByte := by
          unfold noSpace at hspace
          rw [decide_eq_false_iff_not, not_lt] at hspace
          omega
        obtain ⟨s', hbody, hs'⟩ := h.evictBody (by omega) hle (hfits hnot henough hspace) hmoved
        refine ⟨_, true, bind_eq_ok.mpr ⟨s', hbody, rfl⟩, ?_⟩
        exact ⟨fun g => (hs'.groups g).congr ⟨rfl, Iff.rfl, rfl, rfl⟩, hs'.balanced⟩

theorem Kept.promote (h : Kept pr s gettingSpace) (hcached : (s.mainGp g).cacheFlag = .cached) :
  ∃ s', s.leaCachePromote g = .ok s' ∧ Kept pr s' gettingSpace
  := by
  refine ⟨_, bind_eq_ok.mpr ⟨(), require_eq_ok.mpr hcached, rfl⟩, ?_⟩
  use fun g => (h.groups g).congr ⟨rfl, Iff.rfl, rfl, rfl⟩
  have hperm : s.lru.Perm (s.lru.erase g ++ [g]) :=
    (List.perm_cons_erase ((h.mem_lru g).mpr hcached)).trans
      (List.perm_append_singleton _ _).symm
  apply h.balanced.perm (hperm.map _)

end Eviction

/-! ### Runs -/

section Runs

variable (pr : Predictor P) (lruMaxByte : ℕ)

theorem Kept.step {s : LeaCache P} (h : Kept pr s 0) {op : Op} (hcalled : s.Called op)
    (hnarrow : Narrow lruMaxByte s op) :
  ∃ s', step pr lruMaxByte s op = .ok s' ∧ Kept pr s' 0
  := by
  cases op with
  | insert g i => apply h.insert hcalled.1 hcalled.2
  | read g isstart readDone =>
      obtain ⟨s', b, hread, hs'⟩ := h.read g isstart readDone
      exact ⟨s', congrArg (Except.map Prod.fst) hread, hs'⟩
  | evict g flush =>
      obtain ⟨s', b, hevict, hs'⟩ := h.evict g hcalled hnarrow
      exact ⟨s', congrArg (Except.map Prod.fst) hevict, hs'⟩
  | evictForce flush => apply h.evictForce hcalled hnarrow
  | promote g => apply h.promote hcalled

/-- In every run of the operations in which no eviction takes `2 ^ 32` bytes the account of the
cache is right, and no group is taken from an empty list. -/
theorem cacheAccount_run (ops : List Op)
    (hcalled : Guarded (step pr lruMaxByte) Called (start P) ops)
    (hnarrow : Guarded (step pr lruMaxByte) (Narrow lruMaxByte) (start P) ops) :
  ∃ s, run (step pr lruMaxByte) (start P) ops = .ok s ∧ Accounted pr s
  := by
  obtain ⟨s, hrun, hs⟩ := run_progress (fun _ s => Kept pr s 0)
    (fun _ _ _ hs hop => hs.step pr lruMaxByte hop.1 hop.2) (h := []) kept_start
    (hcalled.and hnarrow)
  exact ⟨s, hrun, hs.accounted⟩

end Runs

/-! ### Groups of many levels -/

section Tower

/-- Evictions without a garbage collection. -/
def unmoved (_ : ℕ) : MapFlush := ⟨0, []⟩

theorem unmoved_moved (s : LeaCache P) :
  ∀ g, ∀ q ∈ (unmoved g).moved, s.ppa q.1 ≠ none
  := by
  intro g q hq
  cases hq

/-- An insertion of two addresses with the distance `n`. -/
def twoLbas (n : ℕ) : Insert := ⟨⟨[0, n], [0, 1]⟩, .accurate, n, 0⟩

theorem valid_twoLbas {n : ℕ} (hpos : 0 < n) (hlt : n < mapInTrans) :
  (twoLbas n).Valid 0
  where
    ne := List.cons_ne_nil _ _
    sorted := by simpa [twoLbas] using hpos
    pieces := rfl
    group := by
      intro l hl
      apply Nat.div_eq_of_lt
      simp only [twoLbas, List.mem_cons, List.not_mem_nil, or_false] at hl
      omega
    stride _ := by simp [twoLbas]

/-- A group is cached, has a segment, and is evicted. -/
theorem cacheAccount_run_evicted :
  ∃ s, run (step oneLine 0) (start _)
      [.read 0 true false, .insert 0 (twoLbas 1), .evictForce unmoved] = .ok s ∧
    Accounted oneLine s ∧ s.lru = [] ∧ (s.mainGp 0).size = 8
  := by
  have hone : (twoLbas 1).Valid 0 := valid_twoLbas Nat.one_pos (by decide)
  obtain ⟨s, hrun, hs⟩ := cacheAccount_run oneLine 0
    [.read 0 true false, .insert 0 (twoLbas 1), .evictForce unmoved]
    ⟨trivial, ⟨rfl, hone⟩, unmoved_moved _, trivial⟩
    ⟨trivial, trivial, fun _ => of_decide_eq_true (p := Fits _ _) rfl, trivial⟩
  have hend : (run (step oneLine 0) (start _)
      [.read 0 true false, .insert 0 (twoLbas 1), .evictForce unmoved]).map
        (fun s => (s.lru, (s.mainGp 0).size)) = .ok ([], 8) := rfl
  rw [hrun] at hend
  obtain ⟨hlru, hsize⟩ := Prod.mk.inj (Except.ok.inj hend)
  use s, hrun, hs, hlru, hsize

/-- The segment of two addresses. -/
def twoSeg (P : Type) (n : ℕ) (ptr : Option ℕ) (seq : ℕ) : Segment P :=
  ⟨0, 0, n, 0, .interval n, ptr, seq⟩

/-- Of two segments with different distances the older one goes down. -/
theorem removeOverlapped_twoSeg {a b ptr k : ℕ} (ha : 0 < a) (hab : a ≠ b) (seq : ℕ) :
  removeOverlapped (twoSeg P b none seq) [twoSeg P a (some ptr) k]
      (findOverlap [twoSeg P a (some ptr) k] (twoSeg P b none seq))
    = .ok ([], [twoSeg P a (some ptr) k], [])
  := by
  have hord : Ordered [twoSeg P a (some ptr) k] := by
    constructor
    · intro seg hseg
      rw [List.mem_singleton.mp hseg]
      apply Nat.zero_le a
    · apply List.pairwise_singleton _ _
  have hover : [twoSeg P a (some ptr) k].filter (fun seg => seg.overlaps (twoSeg P b none seq))
      = [twoSeg P a (some ptr) k] := by
    apply List.filter_eq_self.mpr
    intro seg hseg
    rw [List.mem_singleton.mp hseg]
    apply overlaps_eq_true.mpr ⟨Nat.zero_le b, Nat.zero_le a⟩
  have hkeep : removeCheck (twoSeg P b none seq) (twoSeg P a (some ptr) k) = .ok false := by
    have hacc : (twoSeg P b none seq).type = .accurate := rfl
    unfold removeCheck
    rw [if_pos hacc, segmentRemovable_eq hacc]
    split
    · have hne : (twoSeg P a (some ptr) k).body.asInterval ≠ 0 := ha.ne'
      rw [if_neg hne]
      apply if_neg fun hsame => hab hsame.1
    · rfl
  rw [findOverlap_eq hord (Nat.zero_le b), hover]
  refine bind_eq_ok.mpr ⟨_, hkeep, bind_eq_ok.mpr ⟨_, eraseSeg_eq hord List.mem_cons_self, ?_⟩⟩
  rw [List.filter_cons_of_neg (by simp)]
  rfl

variable {pr : Predictor P} {s : LeaCache P} {n a b : ℕ}

/-- The group 0 is the only one that is cached, and it has `n` segments of two addresses, each in a
level of its own; the one above has the distance `top`. -/
structure Tower (pr : Predictor P) (n top : ℕ) (s : LeaCache P) : Prop where
  kept : Kept pr s 0
  lru : s.lru = [0]
  crb : s.globals.masterCrb 0 = ∅
  levels : ∃ ptr seq rest,
    (s.mainGp 0).levelList = some (⟨ptr, [twoSeg P top (some ptr) seq]⟩ :: rest)
      ∧ (rest.map (groupLevelSize pr)).sum + 8 = n * 8

theorem Tower.cached (h : Tower pr n a s) :
  (s.mainGp 0).cacheFlag = .cached
  := by
  apply (h.kept.mem_lru 0).mp
  rw [h.lru]
  apply List.mem_cons_self

theorem Tower.size (h : Tower pr n a s) :
  (s.mainGp 0).size = n * 8
  := by
  obtain ⟨ptr, seq, rest, hlist, hrest⟩ := h.levels
  rw [(h.kept.groups 0).size]
  have htop : groupLevelSize pr ⟨ptr, [twoSeg P a (some ptr) seq]⟩ = 8 := rfl
  unfold LeaCache.groupBytes LeaCache.levels
  rw [hlist, h.crb, Finset.card_empty, Option.some_or, Option.getD_some, List.map_cons,
    List.sum_cons, htop]
  omega

theorem Tower.insert (h : Tower pr n a s) (ha : 0 < a) (hb : 0 < b) (hlt : b < mapInTrans)
    (hab : a ≠ b) :
  ∃ s', s.insert pr 0 (twoLbas b) = .ok s' ∧ Tower pr (n + 1) b s'
  := by
  have hcached := h.cached
  obtain ⟨s', hrun, hkept⟩ := h.kept.insert hcached (valid_twoLbas hb hlt)
  use s', hrun
  obtain ⟨ptr, seq, rest, hlist, hrest⟩ := h.levels
  obtain ⟨s₁, hs₁⟩ : ∃ s₁, { s.globals with cnt := s.globals.cnt + 1 }.setSegFastSearch
      (twoLbas b).tmap.lba s.globals.cnt = s₁ := ⟨_, rfl⟩
  have hcrb : s₁.masterCrb 0 = ∅ := by
    rw [← hs₁]
    unfold Globals.setSegFastSearch
    split
    · apply h.crb
    · apply h.crb
  have hcrb' : (s₁.crbUpdate (twoLbas b).tmap 0 .accurate).masterCrb 0 = ∅ := by
    simp [Globals.crbUpdate, Globals.crbRemoveOverlap, hcrb]
  have hfirst : s₁.firstLevel (s.mainGp 0)
      = (s₁, ⟨ptr, [twoSeg P a (some ptr) seq]⟩, rest) := by
    unfold Globals.firstLevel
    rw [hlist]
  have hidx := (h.kept.groups 0).index
  obtain ⟨globals, gp, htarget, -, -, -, hmaster, -, -, -, ptr', hlevels⟩ :=
    @insertTarget_ok P pr s₁ (s.mainGp 0) ⟨ptr, [twoSeg P a (some ptr) seq]⟩ rest (twoLbas b).tmap
      (twoSeg P b none s.globals.cnt) [] [twoSeg P b (some ptr) s.globals.cnt]
      [twoSeg P a (some ptr) seq] [] hcached
      (by
        rw [hidx, hcrb]
        exact Nat.zero_le _)
      (by
        rw [hidx]
        exact (congrArg Finset.card hcrb').trans_le (Nat.zero_le _))
      (removeOverlapped_twoSeg ha hab s.globals.cnt) rfl
  have hrun' : s.insert pr 0 (twoLbas b) = .ok { s.setGroup 0 gp with globals := globals } := by
    have hmake := @segmentMake_accurate P pr (twoLbas b).tmap 0 b 0 rfl rfl rfl b 0 s.globals.cnt
    refine bind_eq_ok.mpr ⟨(globals, gp), bind_eq_ok.mpr ⟨_, hmake, ?_⟩, rfl⟩
    rw [← htarget]
    dsimp only
    rw [hs₁, hfirst]
    rfl
  obtain rfl := Except.ok.inj (hrun.symm.trans hrun')
  have hnil : [twoSeg P a (some ptr) seq] ≠ [] := List.cons_ne_nil _ _
  refine ⟨hkept, h.lru, ?_, ptr, s.globals.cnt,
    ⟨ptr', [twoSeg P a (some ptr) seq].map fun seg => { seg with levelPtr := some ptr' }⟩ :: rest,
    ?_, ?_⟩
  · dsimp only
    rw [hmaster, hidx]
    apply hcrb'
  · refine (congrArg Group.levelList (Function.update_self 0 gp s.mainGp)).trans ?_
    rw [hlevels, newLevels, if_neg hnil]
  · have hsize : groupLevelSize pr (⟨ptr', [twoSeg P a (some ptr) seq].map fun seg =>
        { seg with levelPtr := some ptr' }⟩ : Level P) = 8 := rfl
    rw [List.map_cons, List.sum_cons, hsize]
    omega

/-- A run that is called as it should be and takes a group from an empty list. -/
def Crashes (pr : Predictor P) (lruMaxByte : ℕ) (s : LeaCache P) (ops : List Op) : Prop :=
  Guarded (step pr lruMaxByte) Called s ops ∧ run (step pr lruMaxByte) s ops = .error .emptyLru

theorem Crashes.cons {s' : LeaCache P} {lruMaxByte : ℕ} {op : Op} {ops : List Op}
    (h : Crashes pr lruMaxByte s' ops) (hcalled : s.Called op)
    (hstep : step pr lruMaxByte s op = .ok s') :
  Crashes pr lruMaxByte s (op :: ops)
  := by
  constructor
  · use hcalled
    rw [hstep]
    apply h.1
  · rw [run, hstep]
    apply h.2

/-- Segments over each other, of both distances in turn. -/
def alternating : ℕ → List Op
  | 0 => []
  | k + 1 => .insert 0 (twoLbas 1) :: .insert 0 (twoLbas 2) :: alternating k

theorem Tower.alternating {lruMaxByte : ℕ} {ops : List Op} (k : ℕ) :
  ∀ {n : ℕ} {s : LeaCache P}, Tower pr n 2 s →
    (∀ s', Tower pr (n + 2 * k) 2 s' → Crashes pr lruMaxByte s' ops) →
    Crashes pr lruMaxByte s (alternating k ++ ops)
  := by
  induction k with
  | zero =>
      intro n s h hops
      apply hops s h
  | succ k ih =>
      intro n s h hops
      obtain ⟨s₁, hstep₁, h₁⟩ := h.insert (b := 1) Nat.two_pos Nat.one_pos (by decide) (by decide)
      obtain ⟨s₂, hstep₂, h₂⟩ := h₁.insert (b := 2) Nat.one_pos Nat.two_pos (by decide) (by decide)
      have hrest := ih h₂ (by
        intro s' hs'
        apply hops
        have hn : n + 1 + 1 + 2 * k = n + 2 * (k + 1) := by omega
        rwa [hn] at hs')
      refine Crashes.cons ?_ ⟨h.cached, valid_twoLbas Nat.one_pos (by decide)⟩ hstep₁
      exact hrest.cons ⟨h₁.cached, valid_twoLbas Nat.two_pos (by decide)⟩ hstep₂

/-- A victim of `2 ^ 32` bytes counts for nothing. -/
theorem Tower.evictForce {lruMaxByte : ℕ} (h : Tower pr (2 ^ 29) a s) (hpos : 0 < lruMaxByte)
    (hlt : lruMaxByte < 2 ^ 32) :
  Crashes pr lruMaxByte s [.evictForce unmoved]
  := by
  have hsize := h.size
  have hnow : s.globals.lruNowByte = 2 ^ 32 := by
    rw [h.kept.accounted.lruNowByte, h.lru, List.map_singleton, List.sum_singleton, hsize]
    rfl
  obtain ⟨s', hvictim, -, -, -⟩ := h.kept.evictVictim h.lru (unmoved_moved s)
  constructor
  · use unmoved_moved s
    split
    · trivial
    · trivial
  · apply fails_left
    have hge : ¬ s.globals.lruNowByte < lruMaxByte := by omega
    refine (if_neg hge).trans ?_
    apply fails_left
    have hmod : (s.globals.lruNowByte - lruMaxByte) % 2 ^ 32 = 2 ^ 32 - lruMaxByte := by
      rw [hnow]
      apply Int.emod_eq_of_lt (by omega) (by omega)
    rw [hmod, h.lru, evictLoop, if_pos (by omega)]
    refine fails_right hvictim ?_
    rw [hsize]
    apply if_pos (by omega)

/-- `2 ^ 29` insertions into one group, and then an eviction. -/
theorem emptyLru_run :
  Crashes oneLine pagesize (start _) (.read 0 true false :: .insert 0 (twoLbas 2) ::
    (alternating (2 ^ 28 - 1) ++ [.insert 0 (twoLbas 1), .evictForce unmoved]))
  := by
  have hread : ∃ s, step oneLine pagesize (start _) (.read 0 true false) = .ok s ∧
      Kept oneLine s 0 := Kept.step oneLine pagesize kept_start trivial trivial
  obtain ⟨s, hread, hkept⟩ := hread
  have hs := Except.ok.inj hread
  have hcached : (s.mainGp 0).cacheFlag = .cached := by
    rw [← hs]
    rfl
  have htwo : (twoLbas 2).Valid 0 := valid_twoLbas Nat.two_pos (by decide)
  obtain ⟨s', hinsert, hkept'⟩ := hkept.insert hcached htwo
  have hs' := hinsert
  rw [← hs] at hs'
  have hs'' := Except.ok.inj hs'
  have htower : Tower oneLine 1 2 s' := by
    refine ⟨hkept', ?_, ?_, 0, 0, [], ?_, rfl⟩
    · rw [← hs'']
      rfl
    · rw [← hs'']
      rfl
    · rw [← hs'']
      rfl
  refine Crashes.cons (Crashes.cons ?_ ⟨hcached, htwo⟩ hinsert) trivial hread
  apply htower.alternating
  intro s₁ h₁
  obtain ⟨s₂, hstep₂, h₂⟩ := h₁.insert (b := 1) Nat.two_pos Nat.one_pos (by decide) (by decide)
  have hone : (twoLbas 1).Valid 0 := valid_twoLbas Nat.one_pos (by decide)
  exact Crashes.cons (h₂.evictForce (by decide) (by decide)) ⟨h₁.cached, hone⟩ hstep₂

end Tower

end LeaCache

end LeaFtl

end AppL
