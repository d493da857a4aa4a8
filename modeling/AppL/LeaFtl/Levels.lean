import AppL.LeaFtl.Newest

/-!
# The levels of a group

In every level the segments are in order and apart, and have the level as their level.  A
segment that overlaps a new one is found in level 0 and leaves it; it goes below level 0 and
above all older levels, so that of two segments that share an address the one inserted last is
above.
-/

namespace AppL

open Transition

namespace LeaFtl

variable {P : Type}

/-! ### One level -/

section Level

variable {lev l overlapped godown segs : List (Segment P)} {a b new seg : Segment P}
  {freed : List ℕ}

theorem overlaps_eq_true :
  a.overlaps b = true ↔ a.start ≤ b.endLba ∧ b.start ≤ a.endLba
  := by
  unfold Segment.overlaps
  rw [decide_eq_true_iff]
  omega

/-- Segments of a level that overlap are the same. -/
theorem Ordered.eq_of_overlaps (h : Ordered lev) (ha : a ∈ lev) (hb : b ∈ lev)
    (hover : a.overlaps b = true) :
  a = b
  := by
  rw [overlaps_eq_true] at hover
  obtain ⟨i, hi, rfl⟩ := List.mem_iff_getElem.mp ha
  obtain ⟨j, hj, rfl⟩ := List.mem_iff_getElem.mp hb
  have hpair := List.pairwise_iff_getElem.mp h.apart
  rcases lt_trichotomy i j with hij | rfl | hij
  · have := hpair i j hi hj hij
    omega
  · rfl
  · have := hpair j i hj hi hij
    omega

/-- A level with other level pointers. -/
theorem Ordered.map_levelPtr (h : Ordered lev) (ptr : Option ℕ) :
  Ordered (lev.map fun seg => { seg with levelPtr := ptr })
  := by
  constructor
  · intro a ha
    obtain ⟨b, hb, rfl⟩ := List.mem_map.mp ha
    apply h.le b hb
  · rw [List.pairwise_map]
    apply h.apart

/-- A segment is put somewhere into a level. -/
theorem insertSeg_perm (h : insertSeg lev seg = .ok l) :
  l.Perm (seg :: lev)
  := by
  unfold insertSeg at h
  have hlen : (levelLowerBoundWrapper lev seg).1 ≤ lev.length := by
    unfold levelLowerBoundWrapper
    split
    · apply le_rfl
    · split
      · split
        · apply le_rfl
        · apply Nat.sub_le _ _
      · rename_i x hx
        have hlt := (List.getElem?_eq_some_iff.mp hx).1
        split
        · apply (Nat.sub_le _ _).trans hlt.le
        · apply hlt.le
  generalize levelLowerBoundWrapper lev seg = r at *
  obtain ⟨iter, found⟩ := r
  dsimp only at h hlen
  split at h
  · simp only [bind_eq_ok, orThrow_eq_ok] at h
    obtain ⟨x, hx, h⟩ := h
    have hlt := (List.getElem?_eq_some_iff.mp hx).1
    split at h
    · cases h
      apply List.perm_insertIdx _ _ (by omega)
    · cases h
      apply List.perm_insertIdx _ _ (by omega)
  · cases h
    apply List.perm_insertIdx _ _ le_rfl

/-- The segments that go down are in the order of the level, and the others are freed. -/
theorem removeOverlapped_sublist :
  ∀ {lev segs godown : List (Segment P)} {freed : List ℕ},
    removeOverlapped new lev overlapped = .ok (segs, godown, freed) →
    godown.Sublist overlapped ∧ ∀ a ∈ overlapped, a ∈ godown ∨ a.seq ∈ freed
  := by
  induction overlapped with
  | nil =>
      intro lev segs godown freed h
      cases h
      use List.Sublist.refl _, by simp
  | cons a overlapped ih =>
      intro lev segs godown freed h
      simp only [removeOverlapped, bind_eq_ok, Prod.exists] at h
      obtain ⟨remove, -, lev₁, -, lev₂, godown₂, freed₂, hrest, h⟩ := h
      obtain ⟨hsub, hall⟩ := ih hrest
      split at h
      · cases h
        use hsub.cons a
        intro b hb
        rcases List.mem_cons.mp hb with rfl | hb
        · right
          apply List.mem_cons_self
        · apply (hall b hb).imp id (List.mem_cons_of_mem _)
      · cases h
        use hsub.cons_cons a
        intro b hb
        rcases List.mem_cons.mp hb with rfl | hb
        · left
          apply List.mem_cons_self
        · apply (hall b hb).imp (List.mem_cons_of_mem _) id

/-- Level 0 after an insertion: the new segment, and the segments that do not overlap it; the
others go down or are freed. -/
structure Displaced (new : Segment P) (lev lev' godown : List (Segment P)) (freed : List ℕ) :
    Prop where
  ordered : Ordered lev'
  mem_iff : ∀ a, a ∈ lev' ↔ a = new ∨ a ∈ lev ∧ a.overlaps new = false
  down : godown.Sublist (lev.filter fun a => a.overlaps new)
  gone : ∀ a ∈ lev, a.overlaps new = true → a ∈ godown ∨ a.seq ∈ freed

theorem displaced (h : Ordered lev) (hle : new.start ≤ new.endLba) {ptr : Option ℕ}
    (hremove : removeOverlapped new lev (findOverlap lev new) = .ok (segs, godown, freed))
    (hinsert : insertSeg segs { new with levelPtr := ptr } = .ok l) :
  Displaced { new with levelPtr := ptr } lev l godown freed
  := by
  rw [findOverlap_eq h hle] at hremove
  obtain ⟨_, _, heq, -, -, -⟩ := @removeOverlapped_eq P new _ lev h
    (List.filter_sublist (l := lev) (p := fun a => a.overlaps new))
  rw [filter_notMem_overlapped h, hremove] at heq
  obtain ⟨rfl, -⟩ := Prod.mk.inj (Except.ok.inj heq)
  obtain ⟨hsub, hall⟩ := removeOverlapped_sublist hremove
  have hperm := insertSeg_perm hinsert
  have hmem : ∀ a, a ∈ l ↔ a = { new with levelPtr := ptr } ∨ a ∈ lev ∧ a.overlaps new = false := by
    intro a
    rw [hperm.mem_iff, List.mem_cons, List.mem_filter]
    simp
  have hordered : Ordered l := by
    have hrest := h.of_sublist (List.filter_sublist (l := lev) (p := fun a => !a.overlaps new))
    have hout : ∀ a ∈ lev.filter fun a => !a.overlaps new,
        new.endLba < a.start ∨ a.endLba < new.start := by
      intro a ha
      apply overlaps_eq_false.mp
      simpa using (List.mem_filter.mp ha).2
    obtain ⟨l₁, l₂, hsegs, h₁, h₂⟩ := hrest.split hout
    rw [hsegs] at hinsert hrest
    have hins : insertSeg (l₁ ++ l₂) { new with levelPtr := ptr }
        = .ok (l₁ ++ { new with levelPtr := ptr } :: l₂) := insertSeg_eq hrest hle h₁ h₂
    rw [hins] at hinsert
    cases hinsert
    constructor
    · intro a ha
      rcases (hmem a).mp ha with rfl | ⟨ha, -⟩
      · apply hle
      · apply h.le a ha
    · obtain ⟨hp₁, hp₂, hcross⟩ := List.pairwise_append.mp hrest.apart
      refine List.pairwise_append.mpr ⟨hp₁, List.pairwise_cons.mpr ⟨h₂, hp₂⟩, ?_⟩
      intro a ha b hb
      rcases List.mem_cons.mp hb with rfl | hb
      · apply h₁ a ha
      · apply hcross a ha b hb
  use hordered, hmem, hsub
  intro a ha hover
  apply hall a (List.mem_filter.mpr ⟨ha, hover⟩)

end Level

/-! ### The levels after an insertion -/

/-- The levels of a group, the newest first. -/
def Group.levels (gp : Group P) : List (Level P) := gp.levelList.getD []

section Insertion

variable {pr : Predictor P} {s s' : Globals} {gp gp' : Group P} {tmap : TempMap}
  {new : Segment P} {lev : Level P} {rest : List (Level P)}

/-- Level 0 is made when it is missing. -/
theorem firstLevel_eq {s₁ : Globals} (h : s.firstLevel gp = (s₁, lev, rest)) :
  (gp.levels = lev :: rest ∧ s₁ = s) ∨
    gp.levels = [] ∧ lev = ⟨s.levelCnt, []⟩ ∧ rest = [] ∧
      s₁ = { s with levelCnt := s.levelCnt + 1 }
  := by
  unfold Globals.firstLevel at h
  unfold Group.levels
  split at h
  · rename_i lev₁ rest₁ heq
    cases h
    rw [heq]
    left
    exact ⟨rfl, rfl⟩
  · rename_i hne
    cases h
    refine .inr ⟨?_, rfl, rfl, rfl⟩
    cases hl : gp.levelList with
    | none => rfl
    | some l =>
        cases l with
        | nil => rfl
        | cons lev rest => exact absurd hl (hne lev rest)

theorem leaCacheSizeUpdate_ok {size : ℕ} {decrease : Bool}
    (h : s.leaCacheSizeUpdate gp size decrease = .ok s') :
  ∃ n, s' = { s with lruNowByte := n } ∧
    n = if decrease then s.lruNowByte - size else s.lruNowByte + size
  := by
  simp only [Globals.leaCacheSizeUpdate, bind_eq_ok, pure, Except.pure, Except.ok.injEq] at h
  obtain ⟨-, -, h⟩ := h
  exact ⟨_, h.symm, rfl⟩

theorem crbSize_ok {g n : ℕ} (h : s.crbSize g = .ok n) :
  n = (s.masterCrb g).card * 4
  := by
  simp only [Globals.crbSize, bind_eq_ok, pure, Except.pure, Except.ok.injEq] at h
  obtain ⟨-, -, h⟩ := h
  apply h.symm

/-- The conflict buffer is all that an update of it changes. -/
theorem crbUpdate_eq (s : Globals) (tmap : TempMap) (g : ℕ) (type : SegmentType) :
  ∃ crb, s.crbUpdate tmap g type = { s with masterCrb := crb }
  := by
  cases type with
  | accurate => exact ⟨_, rfl⟩
  | approximate => exact ⟨_, rfl⟩

/-- The size of the segments of a level and of the conflict buffer of its group. -/
def levelBytes (pr : Predictor P) (s : Globals) (g : ℕ) (segs : List (Segment P)) : ℕ :=
  (segs.map (segmentSize pr)).sum + (s.masterCrb g).card * 4

/-- What `insertTarget` does when it succeeds: to the levels, to the segments that are freed, and
to the sizes. -/
structure Targeted (pr : Predictor P) (s : Globals) (gp : Group P) (lev : Level P)
    (rest : List (Level P)) (new : Segment P) (s' : Globals) (gp' : Group P)
    (lev' godown : List (Segment P)) (freed : List ℕ) : Prop where
  remove : ∃ segs,
    removeOverlapped new lev.segs (findOverlap lev.segs new) = .ok (segs, godown, freed)
      ∧ insertSeg segs { new with levelPtr := some lev.ptr } = .ok lev'
  levels : gp'.levels = newLevels s.levelCnt ⟨lev.ptr, lev'⟩ rest godown
  levelCnt : s'.levelCnt = s.levelCnt + if godown = [] then 0 else 1
  freed : s'.freed = s.freed ++ freed.map fun seq => (seq, new.seq)
  size : gp'.size - gp.size = levelBytes pr s' gp.mapIdx lev' + (godown.map (segmentSize pr)).sum
    - levelBytes pr s gp.mapIdx lev.segs
  lruNowByte : s'.lruNowByte - s.lruNowByte = gp'.size - gp.size
  isclean : gp'.isclean = false

theorem insertTarget_targeted
    (h : s.insertTarget pr gp lev rest tmap new = .ok (s', gp')) :
  ∃ lev' godown freed, Targeted pr s gp lev rest new s' gp' lev' godown freed
  := by
  simp only [Globals.insertTarget, bind_eq_ok] at h
  obtain ⟨crb, hcrb, s₁, hs₁, ⟨s₂, lev₂, godown⟩, hupdate, crb₂, hcrb₂, s₃, hs₃, h⟩ := h
  obtain ⟨n₁, rfl, hn₁⟩ := leaCacheSizeUpdate_ok hs₁
  obtain ⟨n₃, rfl, hn₃⟩ := leaCacheSizeUpdate_ok hs₃
  simp only [Globals.groupSegmentUpdate, bind_eq_ok, Prod.exists] at hupdate
  obtain ⟨segs, godown', freed, hremove, lev', hinsert, hupdate⟩ := hupdate
  obtain ⟨master, hmaster⟩ := crbUpdate_eq
    { s with nowSegmentNum := s.nowSegmentNum - lev.segs.length, lruNowByte := n₁ }
    tmap gp.mapIdx new.type
  rw [hmaster] at hupdate
  cases hupdate
  have hcrb := crbSize_ok hcrb
  have hcrb₂ := crbSize_ok hcrb₂
  simp only [if_true, Bool.false_eq_true, if_false] at hn₁ hn₃
  use lev', godown, freed
  split at h
  · rename_i hne
    have hnil : godown ≠ [] := by
      intro hnil
      rw [hnil] at hne
      apply hne rfl
    simp only [Globals.pushDown, bind_eq_ok] at h
    obtain ⟨⟨s₄, gp₄⟩, ⟨s₅, hs₅, h₄⟩, h⟩ := h
    obtain ⟨n₅, rfl, hn₅⟩ := leaCacheSizeUpdate_ok hs₅
    simp only [Bool.false_eq_true, if_false] at hn₅
    cases h₄
    cases h
    have hsum : groupLevelSize pr ⟨s.levelCnt, godown.map fun seg =>
        { seg with levelPtr := some s.levelCnt }⟩ = (godown.map (segmentSize pr)).sum := by
      unfold groupLevelSize
      rw [List.map_map]
      rfl
    constructor
    · use segs, hremove, hinsert
    · rw [newLevels, if_neg hnil]
      rfl
    · rw [if_neg hnil]
    · rfl
    · simp only at hsum ⊢
      rw [hsum]
      unfold levelBytes groupLevelSize at *
      simp only at hcrb hcrb₂ ⊢
      omega
    · simp only at hsum hn₅ ⊢
      rw [hsum] at hn₅ ⊢
      omega
    · rfl
  · rename_i heq
    have hnil : godown = [] := by simpa using heq
    cases h
    constructor
    · use segs, hremove, hinsert
    · rw [newLevels, if_pos hnil]
      rfl
    · rw [if_pos hnil]
      rfl
    · rfl
    · rw [hnil]
      unfold levelBytes groupLevelSize at *
      simp only [List.map_nil, List.sum_nil] at hcrb hcrb₂ ⊢
      omega
    · simp only
      omega
    · rfl

end Insertion

/-! ### Sizes of 32 bits -/

section Width

variable {pr : Predictor P} {i : Insert} {a : Segment P} {segs : List (Segment P)} {g : ℕ}

/-- A list of addresses in order is no longer than its range. -/
theorem length_le_range {l : List ℕ} :
  ∀ {b e : ℕ}, l.head? = some b → l.getLast? = some e → l.Pairwise (· < ·) → l.length + b ≤ e + 1
  := by
  induction l with
  | nil =>
      intro b e hb
      cases hb
  | cons c l ih =>
      intro b e hb he hsorted
      obtain rfl : c = b := Option.some.inj hb
      cases l with
      | nil =>
          obtain rfl : c = e := Option.some.inj he
          apply (Nat.add_comm 1 c).le
      | cons d l =>
          obtain ⟨hlt, hsorted⟩ := List.pairwise_cons.mp hsorted
          rw [List.getLast?_cons_cons] at he
          have hlen := ih rfl he hsorted
          have hcd := hlt d List.mem_cons_self
          rw [List.length_cons]
          omega

/-- A segment has at most 8 bytes for each address of its range. -/
theorem Made.segmentSize_le (h : Made pr i a) (hi : i.Valid g)
    (hlines : ∀ l, pr.lineCnt (pr.make l) ≤ l.length) :
  segmentSize pr a + a.start * 8 ≤ (a.endLba + 1) * 8
  := by
  unfold segmentSize
  cases htype : i.type with
  | accurate =>
      have hle := h.le hi
      rw [h.accurate htype]
      dsimp only
      omega
  | approximate =>
      have hlen := length_le_range h.start h.endLba hi.sorted
      have hpoints : (i.tmap.points a.start).length ≤ i.tmap.lba.length := by
        unfold TempMap.points
        rw [List.length_map, List.length_zip]
        apply Nat.min_le_left _ _
      have hcnt := hlines (i.tmap.points a.start)
      rw [h.approximate htype]
      dsimp only
      omega

/-- The segments of a level do not share addresses. -/
theorem Ordered.segmentSize_sum_le (hsize : ∀ a ∈ segs,
    segmentSize pr a + a.start * 8 ≤ (a.endLba + 1) * 8) :
  ∀ {b e : ℕ}, b ≤ e → Ordered segs → (∀ a ∈ segs, b ≤ a.start ∧ a.endLba < e) →
    (segs.map (segmentSize pr)).sum + b * 8 ≤ e * 8
  := by
  induction segs with
  | nil =>
      intro b e hbe _ _
      rw [List.map_nil, List.sum_nil]
      omega
  | cons a segs ih =>
      intro b e _ hord hrange
      obtain ⟨hb, he⟩ := hrange a List.mem_cons_self
      have ha := hsize a List.mem_cons_self
      have hrest := ih (fun c hc => hsize c (List.mem_cons_of_mem _ hc)) (Nat.succ_le_of_lt he)
        (hord.of_sublist (List.sublist_cons_self a segs)) (by
          intro c hc
          refine ⟨?_, (hrange c (List.mem_cons_of_mem _ hc)).2⟩
          exact (List.pairwise_cons.mp hord.apart).1 c hc)
      rw [List.map_cons, List.sum_cons]
      omega

/-- The sizes that `group_insert` hands to `lea_cache_size_update` fit into 32 bits: a level of a
group has at most 8 bytes for each address, and the conflict buffer 4. -/
theorem levelBytes_le (s : Globals) (hlines : ∀ l, pr.lineCnt (pr.make l) ≤ l.length)
    (hord : Ordered segs) (hmade : ∀ a ∈ segs, ∃ i, i.Valid g ∧ Made pr i a)
    (hcrb : ∀ l ∈ s.masterCrb g, l / mapInTrans = g) :
  levelBytes pr s g segs ≤ mapInTrans * 12
  := by
  have hpos : 0 < mapInTrans := by decide
  have hsum := Ordered.segmentSize_sum_le
    (fun a ha => (hmade a ha).elim fun i hi => hi.2.segmentSize_le hi.1 hlines)
    (Nat.le_add_right (g * mapInTrans) mapInTrans) hord (by
      intro a ha
      obtain ⟨i, hi, hmade⟩ := hmade a ha
      have hfirst := hi.group a.start (List.mem_of_head? hmade.start)
      have hlast := hi.group a.endLba (List.mem_of_getLast? hmade.endLba)
      rw [Nat.div_eq_iff hpos] at hfirst hlast
      omega)
  have hcard := card_le_of_group hcrb
  have hpage : pagesize / 4 = mapInTrans := rfl
  unfold levelBytes
  omega

end Width

/-! ### The order of the levels -/

/-- The levels of a group.  In a level the segments are in order, apart from each other and have
the level as theirs; a segment overlaps segments of older levels only when it was inserted
later. -/
structure Levelled (gp : Group P) : Prop where
  ordered : ∀ lev ∈ gp.levels, Ordered lev.segs
  levelPtr : ∀ lev ∈ gp.levels, ∀ a ∈ lev.segs, a.levelPtr = some lev.ptr
  ptrs : (gp.levels.map (·.ptr)).Nodup
  above : gp.levels.Pairwise fun l l' =>
    ∀ a ∈ l.segs, ∀ b ∈ l'.segs, a.overlaps b = true → b.seq < a.seq

/-- An address is in the range of a segment. -/
def Segment.Covers (a : Segment P) (lba : ℕ) : Prop := a.start ≤ lba ∧ lba ≤ a.endLba

/-- Two segments that share an address are in different levels, and the one that was inserted
last is in the newer one. -/
def NewerAbove (gp : Group P) : Prop :=
  ∀ (i j : ℕ) (l l' : Level P) (a b : Segment P) (lba : ℕ),
    gp.levels[i]? = some l → gp.levels[j]? = some l' → a ∈ l.segs → b ∈ l'.segs → a ≠ b →
      a.Covers lba → b.Covers lba → i ≠ j ∧ (i < j ↔ b.seq < a.seq)

theorem overlaps_of_covers {a b : Segment P} {lba : ℕ} (ha : a.Covers lba) (hb : b.Covers lba) :
  a.overlaps b = true
  := overlaps_eq_true.mpr ⟨ha.1.trans hb.2, hb.1.trans ha.2⟩

theorem Levelled.newerAbove {gp : Group P} (h : Levelled gp) :
  NewerAbove gp
  := by
  intro i j l l' a b lba hi hj ha hb hne hca hcb
  obtain ⟨hilt, rfl⟩ := List.getElem?_eq_some_iff.mp hi
  obtain ⟨hjlt, rfl⟩ := List.getElem?_eq_some_iff.mp hj
  have hpair := List.pairwise_iff_getElem.mp h.above
  rcases lt_trichotomy i j with hij | rfl | hij
  · have := hpair i j hilt hjlt hij a ha b hb (overlaps_of_covers hca hcb)
    exact ⟨hij.ne, by omega⟩
  · exfalso
    apply hne
    apply (h.ordered _ (List.getElem_mem hilt)).eq_of_overlaps ha hb
    apply overlaps_of_covers hca hcb
  · have := hpair j i hjlt hilt hij b hb a ha (overlaps_of_covers hcb hca)
    exact ⟨hij.ne', by omega⟩

theorem level0_eq (gp : Group P) :
  gp.level0 = match gp.levels with
    | [] => []
    | lev :: _ => lev.segs
  := by
  unfold Group.level0 Group.levels
  match gp.levelList with
  | none => rfl
  | some [] => rfl
  | some (lev :: rest) => rfl

theorem Levelled.ordered_level0 {gp : Group P} (h : Levelled gp) :
  Ordered gp.level0
  := by
  rw [level0_eq]
  split
  · use by simp, List.Pairwise.nil
  · rename_i lev rest heq
    apply h.ordered lev
    rw [heq]
    apply List.mem_cons_self

/-- The segments of level 0 that overlap the new one are found and leave level 0: they go to
level 1 or are freed. -/
def Displaces (new : Segment P) (gp : Group P) (s' : Globals) (gp' : Group P) : Prop :=
  ∀ a ∈ gp.level0, a.overlaps new = true →
    a ∈ findOverlap gp.level0 new ∧ (∀ b ∈ gp'.level0, ¬ Same b a) ∧
      ((∃ l, gp'.levels[1]? = some l ∧ ∃ b ∈ l.segs, Same b a) ∨ (a.seq, new.seq) ∈ s'.freed)

section Step

variable {pr : Predictor P} {s s' : Globals} {gp gp' : Group P} {new : Segment P} {lev : Level P}
  {rest : List (Level P)} {lev' godown : List (Segment P)} {freed : List ℕ}

/-- The levels after an insertion into the level `lev`. -/
theorem Targeted.levelled (t : Targeted pr s gp lev rest new s' gp' lev' godown freed)
    (hle : new.start ≤ new.endLba) (hlev : Ordered lev.segs)
    (hptr : ∀ a ∈ lev.segs, a.levelPtr = some lev.ptr)
    (hrest : ∀ l ∈ rest, Ordered l.segs ∧ ∀ a ∈ l.segs, a.levelPtr = some l.ptr)
    (hptrs : (lev.ptr :: rest.map (·.ptr)).Nodup)
    (hfresh : ∀ p ∈ lev.ptr :: rest.map (·.ptr), p < s.levelCnt)
    (habove : (lev :: rest).Pairwise fun l l' =>
      ∀ a ∈ l.segs, ∀ b ∈ l'.segs, a.overlaps b = true → b.seq < a.seq)
    (hseq : ∀ l ∈ lev :: rest, ∀ a ∈ l.segs, a.seq < new.seq) :
  Levelled gp'
  := by
  obtain ⟨segs, hremove, hinsert⟩ := t.remove
  have d := displaced hlev hle hremove hinsert
  have hdown : ∀ a ∈ godown, a ∈ lev.segs ∧ a.overlaps new = true := by
    intro a ha
    apply List.mem_filter.mp (d.down.subset ha)
  obtain ⟨hab, hab'⟩ := List.pairwise_cons.mp habove
  have hfirst : ∀ l ∈ rest, ∀ a ∈ lev', ∀ b ∈ l.segs, a.overlaps b = true → b.seq < a.seq := by
    intro l hl a ha b hb hover
    rcases (d.mem_iff a).mp ha with rfl | ⟨ha, -⟩
    · apply hseq l (List.mem_cons_of_mem _ hl) b hb
    · apply hab l hl a ha b hb hover
  have hlev' : ∀ a ∈ lev', a.levelPtr = some lev.ptr := by
    intro a ha
    rcases (d.mem_iff a).mp ha with rfl | ⟨ha, -⟩
    · rfl
    · apply hptr a ha
  obtain ⟨hnew, hnodup⟩ := List.nodup_cons.mp hptrs
  have hlevels := t.levels
  unfold newLevels at hlevels
  split at hlevels
  · constructor
    · rw [hlevels]
      intro l hl
      rcases List.mem_cons.mp hl with rfl | hl
      · apply d.ordered
      · apply (hrest l hl).1
    · rw [hlevels]
      intro l hl
      rcases List.mem_cons.mp hl with rfl | hl
      · apply hlev'
      · apply (hrest l hl).2
    · rw [hlevels]
      apply hptrs
    · rw [hlevels]
      apply List.pairwise_cons.mpr ⟨hfirst, hab'⟩
  · constructor
    · rw [hlevels]
      intro l hl
      rcases List.mem_cons.mp hl with rfl | hl
      · apply d.ordered
      · rcases List.mem_cons.mp hl with rfl | hl
        · apply Ordered.map_levelPtr
          apply hlev.of_sublist
          apply d.down.trans List.filter_sublist
        · apply (hrest l hl).1
    · rw [hlevels]
      intro l hl
      rcases List.mem_cons.mp hl with rfl | hl
      · apply hlev'
      · rcases List.mem_cons.mp hl with rfl | hl
        · intro a ha
          obtain ⟨b, -, rfl⟩ := List.mem_map.mp ha
          rfl
        · apply (hrest l hl).2
    · rw [hlevels]
      have hnot : ∀ p ∈ lev.ptr :: rest.map (·.ptr), p ≠ s.levelCnt :=
        fun p hp => (hfresh p hp).ne
      simp only [List.map_cons, List.nodup_cons, List.mem_cons, not_or]
      refine ⟨⟨hnot _ List.mem_cons_self, hnew⟩, ?_, hnodup⟩
      intro hmem
      apply hnot _ (List.mem_cons_of_mem _ hmem) rfl
    · rw [hlevels]
      refine List.pairwise_cons.mpr ⟨?_, List.pairwise_cons.mpr ⟨?_, hab'⟩⟩
      · intro l hl
        rcases List.mem_cons.mp hl with rfl | hl
        · intro a ha b hb hover
          obtain ⟨c, hc, rfl⟩ := List.mem_map.mp hb
          obtain ⟨hcl, hcn⟩ := hdown c hc
          rcases (d.mem_iff a).mp ha with rfl | ⟨ha, hout⟩
          · apply hseq lev List.mem_cons_self c hcl
          · exfalso
            have heq : a = c := hlev.eq_of_overlaps ha hcl hover
            rw [heq] at hout
            have hcn' : c.overlaps new = false := hout
            rw [hcn] at hcn'
            cases hcn'
        · apply hfirst l hl
      · intro l hl a ha b hb hover
        obtain ⟨c, hc, rfl⟩ := List.mem_map.mp ha
        apply hab l hl c (hdown c hc).1 b hb hover

theorem Targeted.displaces (t : Targeted pr s gp lev rest new s' gp' lev' godown freed)
    (hle : new.start ≤ new.endLba) (hlev : Ordered lev.segs) (hlevel0 : gp.level0 = lev.segs)
    (hseq : ∀ a ∈ lev.segs, a.seq < new.seq) :
  Displaces new gp s' gp'
  := by
  obtain ⟨segs, hremove, hinsert⟩ := t.remove
  have d := displaced hlev hle hremove hinsert
  intro a ha hover
  rw [hlevel0] at ha ⊢
  refine ⟨?_, ?_, ?_⟩
  · rw [findOverlap_eq hlev hle]
    apply List.mem_filter.mpr ⟨ha, hover⟩
  · have hlevel0' : gp'.level0 = lev' := by
      rw [level0_eq, t.levels]
      unfold newLevels
      split
      · rename_i hsplit
        split at hsplit
        · cases hsplit
        · cases hsplit
      · rename_i hsplit
        split at hsplit
        · cases hsplit
          rfl
        · cases hsplit
          rfl
    intro b hb hsame
    rw [hlevel0'] at hb
    rcases (d.mem_iff b).mp hb with rfl | ⟨-, hout⟩
    · have hlt := hseq a ha
      rw [← hsame.seq] at hlt
      apply lt_irrefl _ hlt
    · have hba : b.overlaps new = a.overlaps new := by
        rw [hsame]
        rfl
      have hout' : b.overlaps new = false := hout
      rw [hba, hover] at hout'
      cases hout'
  · rcases d.gone a ha hover with hdown | hfreed
    · left
      have hne : godown ≠ [] := List.ne_nil_of_mem hdown
      refine ⟨⟨s.levelCnt, godown.map fun seg => { seg with levelPtr := some s.levelCnt }⟩, ?_,
        { a with levelPtr := some s.levelCnt }, ?_, rfl⟩
      · rw [t.levels, newLevels, if_neg hne]
        rfl
      · apply List.mem_map_of_mem hdown
    · right
      rw [t.freed]
      apply List.mem_append_right
      apply List.mem_map.mpr ⟨a.seq, hfreed, rfl⟩

/-- What `group_insert` does when it succeeds: a segment is made, and put into level 0, which may
be new. -/
structure GroupInserted (pr : Predictor P) (i : Insert) (s : Globals) (gp : Group P) (s' : Globals)
    (gp' : Group P) (new : Segment P) (s₁ : Globals) (lev : Level P) (rest : List (Level P))
    (lev' godown : List (Segment P)) (freed : List ℕ) : Prop where
  made : segmentMake pr i.tmap i.type i.interval i.ptr s.cnt = .ok new
  level : gp.levels = lev :: rest ∧ s₁.levelCnt = s.levelCnt ∨
    gp.levels = [] ∧ lev = ⟨s.levelCnt, []⟩ ∧ rest = [] ∧ s₁.levelCnt = s.levelCnt + 1
  masterCrb : s₁.masterCrb = s.masterCrb
  before : s₁.freed = s.freed
  lruNowByte : s₁.lruNowByte = s.lruNowByte
  targeted : Targeted pr s₁ gp lev rest new s' gp' lev' godown freed

theorem groupInsert_ok {i : Insert}
    (h : s.groupInsert pr gp i.tmap i.type i.interval i.ptr = .ok (s', gp')) :
  ∃ new s₁ lev rest lev' godown freed,
    GroupInserted pr i s gp s' gp' new s₁ lev rest lev' godown freed
  := by
  simp only [Globals.groupInsert, bind_eq_ok] at h
  obtain ⟨new, hmake, h⟩ := h
  obtain ⟨-, -, -, hmaster, hfreed, hlevelCnt, hlru⟩ :=
    setSegFastSearch_fields { s with cnt := s.cnt + 1 } i.tmap.lba new.seq
  generalize { s with cnt := s.cnt + 1 }.setSegFastSearch i.tmap.lba new.seq = s₀ at *
  obtain ⟨⟨s₁, lev, rest⟩, hfirst⟩ : ∃ r, s₀.firstLevel gp = r := ⟨_, rfl⟩
  rw [hfirst] at h
  obtain ⟨lev', godown, freed, ht⟩ := insertTarget_targeted h
  use new, s₁, lev, rest, lev', godown, freed
  rcases firstLevel_eq hfirst with ⟨hlevels, rfl⟩ | ⟨hlevels, hlev, hrest, rfl⟩
  · exact ⟨hmake, .inl ⟨hlevels, hlevelCnt⟩, hmaster, hfreed, hlru, ht⟩
  · refine ⟨hmake, .inr ⟨hlevels, ?_, hrest, ?_⟩, hmaster, hfreed, hlru, ht⟩
    · rw [hlev, hlevelCnt]
    · exact congrArg (· + 1) hlevelCnt

/-- After an insertion a group has a list of levels. -/
theorem levelList_ne_none {i : Insert}
    (h : s.groupInsert pr gp i.tmap i.type i.interval i.ptr = .ok (s', gp')) :
  gp'.levelList ≠ none
  := by
  obtain ⟨new, s₁, lev, rest, lev', godown, freed, t⟩ := groupInsert_ok h
  have hlevels := t.targeted.levels
  intro hnone
  unfold Group.levels newLevels at hlevels
  rw [hnone] at hlevels
  split at hlevels
  · cases hlevels
  · cases hlevels

end Step

/-! ### Runs -/

section Runs

variable (pr : Predictor P)

/-- A call of `group_insert` for one of the groups. -/
def insertAt (s : Globals × (ℕ → Group P)) (x : ℕ × Insert) :
    Except Abort (Globals × (ℕ → Group P)) := do
  let (globals, gp) ← s.1.groupInsert pr (s.2 x.1) x.2.tmap x.2.type x.2.interval x.2.ptr
  return (globals, Function.update s.2 x.1 gp)

/-- The groups before the first insertion, with `fast_search` on or off. -/
def start (P : Type) (fastSearch : Bool) : Globals × (ℕ → Group P) :=
  ({ (init P 0).1 with fastSearch := fastSearch }, noGroups P)

/-- The groups between two insertions. -/
structure LevelsInv (s : Globals × (ℕ → Group P)) : Prop where
  cached : ∀ g, (s.2 g).cacheFlag = .cached
  index : ∀ g, (s.2 g).mapIdx = g
  crb : ∀ g, ∀ l ∈ s.1.masterCrb g, l / mapInTrans = g
  levelled : ∀ g, Levelled (s.2 g)
  seq : ∀ g, ∀ lev ∈ (s.2 g).levels, ∀ a ∈ lev.segs, a.seq < s.1.cnt
  ptr : ∀ g, ∀ lev ∈ (s.2 g).levels, lev.ptr < s.1.levelCnt

theorem levelsInv_start (fastSearch : Bool) :
  LevelsInv (start P fastSearch)
  := by
  constructor
  · intro g
    rfl
  · intro g
    rfl
  · intro g l hl
    simp [start, init] at hl
  · intro g
    constructor
    · simp [start, noGroups, init, Group.levels]
    · simp [start, noGroups, init, Group.levels]
    · apply List.nodup_nil
    · apply List.Pairwise.nil
  · simp [start, noGroups, init, Group.levels]
  · simp [start, noGroups, init, Group.levels]

variable {pr}

/-- What an insertion finds: level 0, which may be new, and the older levels. -/
structure Found (s₁ : Globals) (gp : Group P) (new : Segment P) (lev : Level P)
    (rest : List (Level P)) : Prop where
  level0 : gp.level0 = lev.segs
  ordered : Ordered lev.segs
  levelPtr : ∀ a ∈ lev.segs, a.levelPtr = some lev.ptr
  below : ∀ l ∈ rest, Ordered l.segs ∧ ∀ a ∈ l.segs, a.levelPtr = some l.ptr
  ptrs : (lev.ptr :: rest.map (·.ptr)).Nodup
  fresh : ∀ p ∈ lev.ptr :: rest.map (·.ptr), p < s₁.levelCnt
  above : (lev :: rest).Pairwise fun l l' =>
    ∀ a ∈ l.segs, ∀ b ∈ l'.segs, a.overlaps b = true → b.seq < a.seq
  older : ∀ l ∈ lev :: rest, ∀ a ∈ l.segs, a.seq < new.seq

section Insertion

variable {s : Globals × (ℕ → Group P)} {g : ℕ} {i : Insert} {s' s₁ : Globals} {gp' : Group P}
  {new : Segment P} {lev : Level P} {rest : List (Level P)} {lev' godown : List (Segment P)}
  {freed : List ℕ}

theorem LevelsInv.found (h : LevelsInv s)
    (t : GroupInserted pr i s.1 (s.2 g) s' gp' new s₁ lev rest lev' godown freed)
    (hseq : new.seq = s.1.cnt) :
  Found s₁ (s.2 g) new lev rest
  := by
  rcases t.level with ⟨hlevels, hcnt⟩ | ⟨hlevels, rfl, rfl, hcnt⟩
  · have hl := h.levelled g
    have hmem : ∀ l ∈ lev :: rest, l ∈ (s.2 g).levels := by
      rw [hlevels]
      exact fun l hl => hl
    constructor
    · rw [level0_eq, hlevels]
    · apply hl.ordered lev (hmem lev List.mem_cons_self)
    · apply hl.levelPtr lev (hmem lev List.mem_cons_self)
    · intro l hrest
      have hin := hmem l (List.mem_cons_of_mem _ hrest)
      use hl.ordered l hin, hl.levelPtr l hin
    · have hptrs := hl.ptrs
      rw [hlevels] at hptrs
      apply hptrs
    · rw [hcnt, ← List.map_cons]
      intro p hp
      obtain ⟨l, hl, rfl⟩ := List.mem_map.mp hp
      apply h.ptr g l (hmem l hl)
    · have habove := hl.above
      rw [hlevels] at habove
      apply habove
    · rw [hseq]
      intro l hl
      apply h.seq g l (hmem l hl)
  · constructor
    · rw [level0_eq, hlevels]
    · exact ⟨by simp, List.Pairwise.nil⟩
    · simp
    · simp
    · simp
    · simp [hcnt]
    · apply List.pairwise_singleton
    · simp

/-- The numbers of the segments are below that of the next one. -/
theorem LevelsInv.seq_lt (h : LevelsInv s) (hins : Inserted pr i s.1 (s.2 g) s' gp') :
  ∀ lev ∈ gp'.levels, ∀ a ∈ lev.segs, a.seq < s'.cnt
  := by
  obtain ⟨new, -, -, -, hseq, -, -, -, hsegs⟩ := hins.levels
  intro lev hlev a ha
  rw [hins.cnt]
  rcases hsegs a (List.mem_flatMap.mpr ⟨lev, hlev, ha⟩) with ⟨b, hb, hsame⟩ | hsame
  · obtain ⟨lev₀, hlev₀, hb⟩ := List.mem_flatMap.mp hb
    have hold := h.seq g lev₀ hlev₀ b hb
    rw [hsame.seq]
    omega
  · rw [hsame.seq, hseq]
    apply Nat.lt_succ_self

theorem GroupInserted.levelCnt_le
    (t : GroupInserted pr i s.1 (s.2 g) s' gp' new s₁ lev rest lev' godown freed) :
  s.1.levelCnt ≤ s₁.levelCnt ∧ s₁.levelCnt ≤ s'.levelCnt
  := by
  constructor
  · rcases t.level with ⟨-, hcnt⟩ | ⟨-, -, -, hcnt⟩
    · apply hcnt.ge
    · rw [hcnt]
      apply Nat.le_succ
  · rw [t.targeted.levelCnt]
    apply Nat.le_add_right

/-- The levels of the group have numbers that have been given out. -/
theorem GroupInserted.ptr_lt
    (t : GroupInserted pr i s.1 (s.2 g) s' gp' new s₁ lev rest lev' godown freed)
    (hfresh : ∀ p ∈ lev.ptr :: rest.map (·.ptr), p < s₁.levelCnt) :
  ∀ l ∈ gp'.levels, l.ptr < s'.levelCnt
  := by
  have hold : ∀ p ∈ lev.ptr :: rest.map (·.ptr), p < s'.levelCnt := fun p hp =>
    (hfresh p hp).trans_le t.levelCnt_le.2
  intro l hl
  rw [t.targeted.levels, newLevels] at hl
  split at hl
  · apply hold
    apply List.mem_map_of_mem (f := (·.ptr)) (l := ⟨lev.ptr, lev'⟩ :: rest) hl
  · rename_i hne
    rcases List.mem_cons.mp hl with rfl | hl
    · apply hold _ List.mem_cons_self
    · rcases List.mem_cons.mp hl with rfl | hl
      · rw [t.targeted.levelCnt, if_neg hne]
        apply Nat.lt_succ_self
      · apply hold _ (List.mem_cons_of_mem _ (List.mem_map_of_mem hl))

end Insertion

/-- A valid insertion succeeds, keeps the order of the levels and displaces what it overlaps. -/
theorem LevelsInv.insertAt {s : Globals × (ℕ → Group P)} (h : LevelsInv s) {g : ℕ} {i : Insert}
    (hi : i.Valid g) :
  ∃ new s', segmentMake pr i.tmap i.type i.interval i.ptr s.1.cnt = .ok new ∧
    LeaFtl.insertAt pr s (g, i) = .ok s' ∧ LevelsInv s' ∧ Displaces new (s.2 g) s'.1 (s'.2 g)
  := by
  have hidx := h.index g
  obtain ⟨s', gp', hstep, hins⟩ := @groupInsert_inserted P pr i s.1 (s.2 g) (by rw [hidx]; exact hi)
    (h.cached g) (h.levelled g).ordered_level0 (by rw [hidx]; exact h.crb g)
  obtain ⟨new, s₁, lev, rest, lev', godown, freed, t⟩ := groupInsert_ok hstep
  obtain ⟨new', hmake, hmade, hseq⟩ := segmentMake_made pr hi s.1.cnt
  obtain rfl : new' = new := Except.ok.inj (hmake.symm.trans t.made)
  have hle := hmade.le hi
  have hfound := h.found t hseq
  have hdisp := t.targeted.displaces hle hfound.ordered hfound.level0
    (hfound.older lev List.mem_cons_self)
  have hlevelled := t.targeted.levelled hle hfound.ordered hfound.levelPtr hfound.below hfound.ptrs
    hfound.fresh hfound.above hfound.older
  have hgroups : ∀ {R : ℕ → Group P → Prop}, R g gp' → (∀ g', g' ≠ g → R g' (s.2 g')) →
      ∀ g', R g' (Function.update s.2 g gp' g') := by
    intro R hg hothers
    apply (Function.forall_update_iff s.2 R).mpr ⟨hg, hothers⟩
  refine ⟨new', (s', Function.update s.2 g gp'), hmake, bind_eq_ok.mpr ⟨_, hstep, rfl⟩, ?_, ?_⟩
  · constructor
    · apply hgroups (R := fun _ gp => gp.cacheFlag = .cached)
      · apply hins.cacheFlag.trans (h.cached g)
      · exact fun g' _ => h.cached g'
    · apply hgroups (R := fun g' gp => gp.mapIdx = g')
      · apply hins.mapIdx.trans hidx
      · exact fun g' _ => h.index g'
    · intro g' l hl
      by_cases heq : g' = g
      · rw [heq] at hl ⊢
        have hcrb := hins.crb l
        rw [hidx] at hcrb
        apply (hcrb hl).elim (h.crb g l) (hi.group l)
      · rw [hins.others g' (by rw [hidx]; exact heq)] at hl
        apply h.crb g' l hl
    · apply hgroups (R := fun _ gp => Levelled gp) hlevelled
      exact fun g' _ => h.levelled g'
    · apply hgroups (R := fun _ gp => ∀ lev ∈ gp.levels, ∀ a ∈ lev.segs, a.seq < s'.cnt)
      · apply h.seq_lt hins
      · intro g' _ lev hlev a ha
        rw [hins.cnt]
        apply (h.seq g' lev hlev a ha).trans (Nat.lt_succ_self _)
    · apply hgroups (R := fun _ gp => ∀ lev ∈ gp.levels, lev.ptr < s'.levelCnt)
      · apply t.ptr_lt hfound.fresh
      · intro g' _ l hl
        obtain ⟨hle, hle'⟩ := t.levelCnt_le
        apply (h.ptr g' l hl).trans_le (hle.trans hle')
  · simp only [Function.update_self]
    apply hdisp

variable (pr)

/-- After every run of insertions: in every level the segments are in order, apart and know their
level; of two segments that share an address the one inserted last is in a newer level; and the
next insertion finds what it overlaps in level 0 and displaces it. -/
theorem levels_run (fastSearch : Bool) (ins : List (ℕ × Insert))
    (hvalid : ∀ x ∈ ins, x.2.Valid x.1) :
  ∃ s, run (insertAt pr) (start P fastSearch) ins = .ok s ∧
    (∀ g, Levelled (s.2 g)) ∧ (∀ g, NewerAbove (s.2 g)) ∧
    ∀ g i, i.Valid g → ∃ new s',
      segmentMake pr i.tmap i.type i.interval i.ptr s.1.cnt = .ok new ∧
        insertAt pr s (g, i) = .ok s' ∧ Displaces new (s.2 g) s'.1 (s'.2 g)
  := by
  have hguard : Guarded (insertAt pr) (fun _ x => x.2.Valid x.1) (start P fastSearch) ins
    := guarded_of_forall (fun x hx _ => hvalid x hx) _
  have hkeep : ∀ (ins : List (ℕ × Insert)) s x, LevelsInv s → x.2.Valid x.1 →
      ∃ s', insertAt pr s x = .ok s' ∧ LevelsInv s' := by
    intro ins s x hs hx
    obtain ⟨new, s', -, hstep, hs', -⟩ := @LevelsInv.insertAt P pr s hs x.1 x.2 hx
    exact ⟨s', hstep, hs'⟩
  obtain ⟨s, hrun, hs⟩ := run_progress (fun _ s => LevelsInv s) hkeep (h := [])
    (levelsInv_start fastSearch) hguard
  use s, hrun, hs.levelled, fun g => (hs.levelled g).newerAbove
  intro g i hi
  obtain ⟨new, s', hmake, hstep, -, hdisp⟩ := @LevelsInv.insertAt P pr s hs g i hi
  use new, s', hmake, hstep, hdisp

/-- The second segment pushes the first one down, and the third one frees the second. -/
theorem levels_run_overlapping :
  ∃ s, run (insertAt oneLine) (start _ true) (overlapping.map fun i => (0, i)) = .ok s ∧
    (∀ g, Levelled (s.2 g)) ∧ (s.2 0).levels.map (fun l => l.segs.map (·.seq)) = [[2], [0]]
  := by
  obtain ⟨s, hrun, hlevelled, -, -⟩ := levels_run oneLine true (overlapping.map fun i => (0, i))
    (by
      intro x hx
      obtain ⟨i, hi, rfl⟩ := List.mem_map.mp hx
      simp only [overlapping, List.mem_cons, List.not_mem_nil, or_false] at hi
      rcases hi with rfl | rfl | rfl
      all_goals
        constructor
        all_goals decide)
  have hseqs : (run (insertAt oneLine) (start _ true) (overlapping.map fun i => (0, i))).map
      (fun s => (s.2 0).levels.map fun l => l.segs.map (·.seq)) = .ok [[2], [0]] := rfl
  rw [hrun] at hseqs
  use s, hrun, hlevelled, Except.ok.inj hseqs

end Runs

end LeaFtl

end AppL
