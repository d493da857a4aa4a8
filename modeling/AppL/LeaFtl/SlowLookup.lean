import AppL.LeaFtl.Levels

/-!
# The lookup without the table

Without the fast search a lookup goes through the levels, the newest first.  An accurate segment
is asked whether it has the address; an approximate one is the result only when the conflict
buffer of the group names it, and this buffer never has a node.  The segment in the table is
found when it is accurate.
-/

namespace AppL

open Transition

namespace LeaFtl

variable {P : Type}

/-! ### The lookup -/

/-- A `CRB_node`. -/
structure CrbNode where
  lbaArr : List ℕ
  seg : ℕ
  deriving DecidableEq, Repr

/-- `crb_find_node`; the nodes are in the order of their keys. -/
def crbFindNode : List (ℕ × CrbNode) → ℕ → Except Abort (Option CrbNode)
  | [], _ => return none
  | (key, node) :: crb, lba => do
      if key > lba then
        return none
      else
        let back ← orThrow .outOfBounds node.lbaArr.getLast?
        if back < lba then
          crbFindNode crb lba
        else if lba ∈ node.lbaArr then
          return some node
        else
          crbFindNode crb lba

/-- The conflict buffer of the group itself: `crb_init` makes it without a node, and the two
functions that update it return before they reach it. -/
def Group.crb (_ : Group P) : List (ℕ × CrbNode) := []

/-- The segment `temp` of `group_get_segment`. -/
def probe (P : Type) (lba : ℕ) : Segment P where
  originalStart := 0
  start := lba
  endLba := lba
  startPiecePpa := 0
  body := .interval 0
  levelPtr := none
  seq := 0

/-- One turn of the loop of `group_get_segment`. -/
def levelGet (appTarget : Option CrbNode) (lev : List (Segment P)) (lba : ℕ) :
    Except Abort (Option ℕ) := do
  let (iter, found) := levelLowerBoundWrapper lev (probe P lba)
  if found then
    let target ← orThrow .outOfBounds lev[iter]?
    if target.start ≤ lba ∧ lba ≤ target.endLba then
      match target.type with
      | .accurate => do
          let included ← segmentAccInclude target lba
          return if included then some target.seq else none
      | .approximate =>
          return if appTarget.any fun node => node.seg = target.seq then some target.seq else none
    else
      return none
  else
    return none

/-- The loop of `group_get_segment`. -/
def levelsGet (appTarget : Option CrbNode) (lba : ℕ) : List (Level P) → Except Abort (Option ℕ)
  | [] => return none
  | lev :: rest => do
      let target ← levelGet appTarget lev.segs lba
      match target with
      | some seq => return some seq
      | none => levelsGet appTarget lba rest

/-- `group_get_segment`, with and without the fast search. -/
def Globals.getSegment (s : Globals) (gp : Group P) (lba : ℕ) : Except Abort (Option ℕ) :=
  match gp.levelList with
  | none => return none
  | some levels =>
      if s.fastSearch then
        return s.segList lba
      else do
        let appTarget ← crbFindNode gp.crb lba
        levelsGet appTarget lba levels

theorem getSegment_fast {s : Globals} (h : s.fastSearch = true) (gp : Group P) (lba : ℕ) :
  s.getSegment gp lba = .ok (groupGetSegment s gp lba)
  := by
  unfold Globals.getSegment groupGetSegment
  cases gp.levelList with
  | none => rfl
  | some levels => apply if_pos h

theorem getSegment_slow {s : Globals} (h : s.fastSearch = false) (gp : Group P) (lba : ℕ) :
  s.getSegment gp lba = levelsGet none lba gp.levels
  := by
  unfold Globals.getSegment Group.levels
  cases gp.levelList with
  | none => rfl
  | some levels =>
      refine (if_neg ?_).trans rfl
      rw [h]
      apply Bool.false_ne_true

/-! ### One level -/

section Level

variable {lev : List (Segment P)} {a : Segment P} {lba : ℕ}

/-- A position that the wrapper finds is one of the level. -/
theorem lt_length_of_found {seg : Segment P}
    (h : (levelLowerBoundWrapper lev seg).2 = true) :
  (levelLowerBoundWrapper lev seg).1 < lev.length
  := by
  unfold levelLowerBoundWrapper at h ⊢
  split
  · rename_i hnone
    rw [hnone] at h
    cases h
  · rename_i back hback
    rw [hback] at h
    have hpos : 0 < lev.length := List.length_pos_of_mem (List.mem_of_getLast? hback)
    dsimp only at h
    split
    · rename_i hnone
      rw [hnone] at h
      dsimp only at h
      split
      · rename_i hout
        rw [if_pos hout] at h
        cases h
      · apply Nat.sub_lt hpos Nat.one_pos
    · rename_i b hb
      have hlt := (List.getElem?_eq_some_iff.mp hb).1
      split
      · apply (Nat.sub_le _ _).trans_lt hlt
      · apply hlt

/-- At the lower bound a segment begins no earlier. -/
theorem le_start_lowerBound {seg : Segment P} (h : lowerBound lev seg < lev.length) :
  seg.start ≤ lev[lowerBound lev seg].start
  := by
  have hfind := List.findIdx_getElem (w := h)
  rw [decide_eq_true_iff, not_lt] at hfind
  apply hfind

/-- The segment whose range has the address is found. -/
theorem wrapper_probe (h : Ordered lev) (ha : a ∈ lev) (hc : a.Covers lba) :
  (levelLowerBoundWrapper lev (probe P lba)).2 = true ∧
    lev[(levelLowerBoundWrapper lev (probe P lba)).1]? = some a
  := by
  have hfound : (levelLowerBoundWrapper lev (probe P lba)).2 = true := by
    rw [← Bool.not_eq_false]
    intro hnot
    have hlt : a.endLba < lba := endLba_lt_of_notFound h le_rfl hnot a ha
    exact absurd hc.2 (not_le.mpr hlt)
  use hfound
  obtain ⟨j, hj, rfl⟩ := List.mem_iff_getElem.mp ha
  have hpair := List.pairwise_iff_getElem.mp h.apart
  have hle : (levelLowerBoundWrapper lev (probe P lba)).1 ≤ j := by
    by_contra hlt
    rcases endLba_lt_of_lt_wrapper h hj (not_le.mp hlt) with hend | hnot
    · exact absurd hc.2 (not_le.mpr hend)
    · rw [hfound] at hnot
      cases hnot
  have hge : j ≤ (levelLowerBoundWrapper lev (probe P lba)).1 := by
    have hafter : ∀ k (hk : k < lev.length), lev[k].start ≥ lba → j ≤ k := by
      intro k hk hstart
      by_contra hlt
      have := hpair k j hk hj (not_le.mp hlt)
      have := h.le _ (List.getElem_mem hk)
      have := hc.1
      omega
    unfold levelLowerBoundWrapper
    split
    · apply hj.le
    · split
      · split
        · apply hj.le
        · apply Nat.le_sub_one_of_lt hj
      · rename_i b hb
        obtain ⟨hlt, rfl⟩ := List.getElem?_eq_some_iff.mp hb
        have hjk := hafter _ hlt (le_start_lowerBound hlt)
        split
        · rename_i hcond
          have hgt : lev[lowerBound lev (probe P lba)].start > lba := hcond.1
          dsimp only
          have hne : j ≠ lowerBound lev (probe P lba) := by
            intro heq
            subst heq
            exact absurd hc.1 (not_le.mpr hgt)
          omega
        · apply hjk
  rw [Nat.le_antisymm hle hge]
  apply List.getElem?_eq_getElem hj

/-- An accurate segment has an address. -/
def Segment.Includes (a : Segment P) (lba : ℕ) : Prop :=
  a.type = .accurate ∧ a.start ≤ lba ∧ lba ≤ a.endLba ∧
    (a.body.asInterval ≠ 0 → (lba - a.start) % a.body.asInterval = 0)

theorem Segment.Includes.covers (h : a.Includes lba) :
  a.Covers lba
  := ⟨h.2.1, h.2.2.1⟩

theorem segmentAccInclude_includes (h : a.type = .accurate) :
  ∃ b, segmentAccInclude a lba = .ok b ∧ (b = true ↔ a.Includes lba)
  := by
  refine ⟨_, segmentAccInclude_eq h lba, ?_⟩
  rw [decide_eq_true_iff]
  apply (and_iff_right h).symm

/-- In a level the accurate segment that has the address is found, and nothing else. -/
theorem levelGet_none (h : Ordered lev) (lba : ℕ) :
  ∃ r, levelGet none lev lba = .ok r ∧ ∀ k, r = some k ↔ ∃ a ∈ lev, a.seq = k ∧ a.Includes lba
  := by
  by_cases hcov : ∃ a ∈ lev, a.Covers lba
  · obtain ⟨a, ha, hc⟩ := hcov
    obtain ⟨hfound, hget⟩ := wrapper_probe h ha hc
    have hrange : a.start ≤ lba ∧ lba ≤ a.endLba := hc
    have honly : ∀ b ∈ lev, b.Includes lba → b = a := by
      intro b hb hinc
      apply h.eq_of_overlaps hb ha (overlaps_of_covers hinc.covers hc)
    unfold levelGet
    generalize levelLowerBoundWrapper lev (probe P lba) = r at *
    obtain ⟨iter, found⟩ := r
    cases hfound
    cases htype : a.type with
    | accurate =>
        obtain ⟨b, hb, hiff⟩ := @segmentAccInclude_includes P a lba htype
        refine ⟨if b then some a.seq else none, ?_, ?_⟩
        · refine bind_eq_ok.mpr ⟨a, orThrow_eq_ok.mpr hget, ?_⟩
          rw [if_pos hrange, htype]
          exact bind_eq_ok.mpr ⟨b, hb, rfl⟩
        · intro k
          constructor
          · intro hk
            split at hk
            · rename_i hbt
              exact ⟨a, ha, Option.some.inj hk, hiff.mp hbt⟩
            · cases hk
          · rintro ⟨b', hb', rfl, hinc⟩
            obtain rfl := honly b' hb' hinc
            rw [if_pos (hiff.mpr hinc)]
    | approximate =>
        refine ⟨none, ?_, ?_⟩
        · refine bind_eq_ok.mpr ⟨a, orThrow_eq_ok.mpr hget, ?_⟩
          rw [if_pos hrange, htype]
          rfl
        · intro k
          constructor
          · intro hk
            cases hk
          · rintro ⟨b', hb', -, hinc⟩
            obtain rfl := honly b' hb' hinc
            rw [hinc.1] at htype
            cases htype
  · refine ⟨none, ?_, ?_⟩
    · have hlt := @lt_length_of_found P lev (probe P lba)
      unfold levelGet
      generalize levelLowerBoundWrapper lev (probe P lba) = r at *
      obtain ⟨iter, found⟩ := r
      cases found with
      | false => rfl
      | true =>
          have hget := List.getElem?_eq_getElem (hlt rfl)
          refine bind_eq_ok.mpr ⟨_, orThrow_eq_ok.mpr hget, if_neg ?_⟩
          intro hc
          apply hcov ⟨_, List.getElem_mem (hlt rfl), hc⟩
    · intro k
      constructor
      · intro hk
        cases hk
      · rintro ⟨a, ha, -, hinc⟩
        exact absurd ⟨a, ha, hinc.covers⟩ hcov

end Level

/-! ### All levels -/

/-- Of the accurate segments that have the address the one inserted last is found. -/
theorem levelsGet_none (lba : ℕ) {levels : List (Level P)} :
  (∀ lev ∈ levels, Ordered lev.segs) →
  (levels.Pairwise fun l l' => ∀ a ∈ l.segs, ∀ b ∈ l'.segs, a.overlaps b = true → b.seq < a.seq) →
  ∃ r, levelsGet none lba levels = .ok r ∧
    ∀ k, r = some k ↔ ∃ a ∈ levels.flatMap (·.segs), a.seq = k ∧ a.Includes lba ∧
      ∀ b ∈ levels.flatMap (·.segs), b.Includes lba → b.seq ≤ a.seq
  := by
  induction levels with
  | nil =>
      intro _ _
      use none, rfl, by simp
  | cons lev rest ih =>
      intro hord habove
      obtain ⟨hfirst, habove⟩ := List.pairwise_cons.mp habove
      obtain ⟨r₀, hget, hr₀⟩ := levelGet_none (hord lev List.mem_cons_self) lba
      obtain ⟨r, hrest, hr⟩ := ih (fun l hl => hord l (List.mem_cons_of_mem _ hl)) habove
      cases r₀ with
      | some seq =>
          obtain ⟨a, ha, rfl, hinc⟩ := (hr₀ seq).mp rfl
          have hnewest : ∀ b ∈ (lev :: rest).flatMap (·.segs), b.Includes lba → b.seq ≤ a.seq := by
            intro b hb hbinc
            rw [List.flatMap_cons] at hb
            rcases List.mem_append.mp hb with hb | hb
            · apply (Option.some.inj ((hr₀ b.seq).mpr ⟨b, hb, rfl, hbinc⟩)).ge
            · obtain ⟨l, hl, hb⟩ := List.mem_flatMap.mp hb
              apply (hfirst l hl a ha b hb (overlaps_of_covers hinc.covers hbinc.covers)).le
          have hmem : a ∈ (lev :: rest).flatMap (·.segs) := List.mem_append_left _ ha
          use some a.seq, bind_eq_ok.mpr ⟨_, hget, rfl⟩
          intro k
          constructor
          · intro hk
            use a, hmem, Option.some.inj hk, hinc, hnewest
          · rintro ⟨b, hb, rfl, hbinc, hb'⟩
            exact congrArg some (Nat.le_antisymm (hb' a hmem hinc) (hnewest b hb hbinc))
      | none =>
          have hout : ∀ b ∈ lev.segs, ¬ b.Includes lba := by
            intro b hb hinc
            have hfound := (hr₀ b.seq).mpr ⟨b, hb, rfl, hinc⟩
            cases hfound
          have hiff : ∀ b, b.Includes lba →
              (b ∈ (lev :: rest).flatMap (·.segs) ↔ b ∈ rest.flatMap (·.segs)) := by
            intro b hinc
            rw [List.flatMap_cons, List.mem_append]
            apply or_iff_right fun hb => hout b hb hinc
          use r, bind_eq_ok.mpr ⟨_, hget, hrest⟩
          intro k
          rw [hr k]
          constructor
          · rintro ⟨a, ha, hk, hinc, hnewest⟩
            use a, (hiff a hinc).mpr ha, hk, hinc
            intro b hb hbinc
            apply hnewest b ((hiff b hbinc).mp hb) hbinc
          · rintro ⟨a, ha, hk, hinc, hnewest⟩
            use a, (hiff a hinc).mp ha, hk, hinc
            intro b hb hbinc
            apply hnewest b ((hiff b hbinc).mpr hb) hbinc

/-! ### Runs -/

section Runs

variable (pr : Predictor P)

/-- The groups after the insertions `h`, with the fast search or without.  A segment of an
accurate insertion is in its group as long as no later insertion has all its addresses. -/
structure Recorded (fast : Bool) (h : List (ℕ × Insert)) (s : Globals × (ℕ → Group P)) :
    Prop where
  inv : LevelsInv s
  lists : ∀ g, (s.2 g).levelList ≠ none
  fastSearch : s.1.fastSearch = fast
  valid : ∀ x ∈ h, x.2.Valid x.1
  cnt : s.1.cnt = h.length
  made : ∀ g, ∀ a ∈ (s.2 g).segs, ∃ i, h[a.seq]? = some (g, i) ∧ Made pr i a
  live : ∀ k g i, h[k]? = some (g, i) → i.type = .accurate →
    k ∈ (s.2 g).live ∨ ∃ k' x, k < k' ∧ h[k']? = some x ∧ ∀ l ∈ i.tmap.lba, l ∈ x.2.tmap.lba
  newest : fast = true → ∀ lba k, s.1.segList lba = some k ↔ IsNewest (h.map Prod.snd) lba k

theorem recorded_start (fast : Bool) :
  Recorded pr fast [] (start P fast)
  where
    inv := levelsInv_start fast
    lists _ := Option.some_ne_none _
    fastSearch := rfl
    valid := by simp
    cnt := rfl
    made := by simp [start, noGroups, init, Group.segs]
    live := by simp
    newest := by simp [start, init, IsNewest]

variable {pr} {fast : Bool} {h : List (ℕ × Insert)} {s : Globals × (ℕ → Group P)}

theorem Recorded.insertAt (hs : Recorded pr fast h s) {g : ℕ} {i : Insert} (hi : i.Valid g) :
  ∃ s', insertAt pr s (g, i) = .ok s' ∧ Recorded pr fast (h ++ [(g, i)]) s'
  := by
  have hidx := hs.inv.index g
  have hord : Ordered (s.2 g).level0 := (hs.inv.levelled g).ordered_level0
  obtain ⟨globals, gp, hstep, hins⟩ := @groupInsert_inserted P pr i s.1 (s.2 g)
    (by rw [hidx]; exact hi) (hs.inv.cached g) hord (by rw [hidx]; exact hs.inv.crb g)
  have hrun : LeaFtl.insertAt pr s (g, i) = .ok (globals, Function.update s.2 g gp)
    := bind_eq_ok.mpr ⟨_, hstep, rfl⟩
  obtain ⟨-, s', -, hrun', hinv, -⟩ := @LevelsInv.insertAt P pr s hs.inv g i hi
  obtain rfl : s' = (globals, Function.update s.2 g gp) := Except.ok.inj (hrun'.symm.trans hrun)
  refine ⟨_, hrun, ?_⟩
  obtain ⟨new, godown, freed, hmade, hseq, -, hrep, hlive, hsegs⟩ := hins.levels
  have hcnt := hs.cnt
  have hlast : (h ++ [(g, i)])[s.1.cnt]? = some (g, i) := by
    rw [hcnt]
    apply List.getElem?_concat_length
  have hold : ∀ {k : ℕ} {x : ℕ × Insert}, h[k]? = some x → (h ++ [(g, i)])[k]? = some x := by
    intro k x hk
    rw [List.getElem?_append_left (List.getElem?_eq_some_iff.mp hk).1]
    apply hk
  have hvalid : ∀ {k : ℕ} {x : ℕ × Insert}, h[k]? = some x → x.2.Valid x.1
    := fun hk => hs.valid _ (List.mem_of_getElem? hk)
  constructor
  · apply hinv
  · intro g'
    dsimp only
    by_cases heq : g' = g
    · rw [heq, Function.update_self]
      apply levelList_ne_none hstep
    · rw [Function.update_of_ne heq]
      apply hs.lists g'
  · apply hins.fastSearch.trans hs.fastSearch
  · intro x hx
    rcases List.mem_append.mp hx with hx | hx
    · apply hs.valid x hx
    · rw [List.mem_singleton.mp hx]
      apply hi
  · rw [List.length_append, List.length_singleton, ← hcnt]
    apply hins.cnt
  · intro g' a ha
    dsimp only at ha
    by_cases heq : g' = g
    · rw [heq, Function.update_self] at ha
      rw [heq]
      rcases hsegs a ha with ⟨b, hb, hsame⟩ | hsame
      · obtain ⟨i', hi', hmade'⟩ := hs.made g b hb
        exact ⟨i', by rw [hsame.seq]; exact hold hi', hmade'.of_same hsame⟩
      · exact ⟨i, by rw [hsame.seq, hseq]; exact hlast, hmade.of_same hsame⟩
    · rw [Function.update_of_ne heq] at ha
      obtain ⟨i', hi', hmade'⟩ := hs.made g' a ha
      exact ⟨i', hold hi', hmade'⟩
  · intro k g' i' hk hacc
    dsimp only
    rcases Nat.lt_or_ge k h.length with hlt | hge
    · rw [List.getElem?_append_left hlt] at hk
      rcases hs.live k g' i' hk hacc with hmem | ⟨k', x, hkk', hx, hsub⟩
      · by_cases heq : g' = g
        · subst heq
          rw [Function.update_self]
          rcases hlive k (.inl hmem) with hmem | hfreed
          · left
            apply hmem
          · right
            obtain ⟨a, ha, rfl, hnew, hremovable⟩ := hrep.removable k hfreed
            obtain ⟨i₁, h₁, hmade₁⟩ := hs.made g' a (mem_segs_of_level0 ha)
            obtain rfl : i₁ = i' := by
              rw [hk] at h₁
              cases h₁
              rfl
            use s.1.cnt, (g', i), by omega, hlast
            have hnot : mistaken i a = false := by
              unfold mistaken
              rw [hmade₁.accurate hacc]
            apply lba_mem_of_removable hmade₁ (hvalid hk) hmade hi (hmade.type.symm.trans hnew) hnot
              hremovable
        · rw [Function.update_of_ne heq]
          left
          apply hmem
      · right
        use k', x, hkk', hold hx, hsub
    · have hlt := (List.getElem?_eq_some_iff.mp hk).1
      rw [List.length_append, List.length_singleton] at hlt
      obtain rfl : k = s.1.cnt := by omega
      rw [hlast] at hk
      cases hk
      rw [Function.update_self]
      rcases hlive s.1.cnt (.inr rfl) with hmem | hfreed
      · left
        apply hmem
      · exfalso
        obtain ⟨a, ha, hak, -⟩ := hrep.removable _ hfreed
        obtain ⟨i₁, h₁, -⟩ := hs.made g a (mem_segs_of_level0 ha)
        have := (List.getElem?_eq_some_iff.mp h₁).1
        omega
  · intro hfast lba k
    rw [List.map_append, List.map_singleton, isNewest_append, List.length_map,
      hins.segList (hs.fastSearch.trans hfast)]
    split
    · rw [Option.some.injEq, hcnt]
      apply eq_comm
    · apply hs.newest hfast lba k

/-- An address that is in a list has a last one. -/
theorem exists_isNewest {lba : ℕ} {ins : List Insert} :
  (∃ i ∈ ins, lba ∈ i.tmap.lba) → ∃ k, IsNewest ins lba k
  := by
  induction ins using List.reverseRecOn with
  | nil =>
      rintro ⟨i, hi, -⟩
      cases hi
  | append_singleton ins i ih =>
      rintro ⟨j, hj, hin⟩
      by_cases hlast : lba ∈ i.tmap.lba
      · exact ⟨ins.length, isNewest_append.mpr (by rw [if_pos hlast])⟩
      · rcases List.mem_append.mp hj with hj | hj
        · obtain ⟨k, hk⟩ := ih ⟨j, hj, hin⟩
          exact ⟨k, isNewest_append.mpr (by rw [if_neg hlast]; exact hk)⟩
        · rw [List.mem_singleton.mp hj] at hin
          exact absurd hin hlast

/-- The last insertion that has an address is an accurate one, if there is one. -/
def NewestAccurate (ins : List Insert) (lba : ℕ) : Prop :=
  ∀ k i, IsNewest ins lba k → ins[k]? = some i → i.type = .accurate

/-- Without the fast search a lookup finds the newest segment of an address when it is accurate,
and only accurate segments that have the address. -/
theorem Recorded.slow_newest (hs : Recorded pr false h s) (lba : ℕ) :
  ∃ r, s.1.getSegment (s.2 (lba / mapInTrans)) lba = .ok r ∧
    (∀ k g i, IsNewest (h.map Prod.snd) lba k → h[k]? = some (g, i) → i.type = .accurate →
      r = some k) ∧
    ∀ k, r = some k → ∃ g i, h[k]? = some (g, i) ∧ i.type = .accurate ∧ lba ∈ i.tmap.lba
  := by
  have hlev := hs.inv.levelled (lba / mapInTrans)
  obtain ⟨r, hget, hr⟩ := levelsGet_none lba hlev.ordered hlev.above
  have hmem : ∀ {a : Segment P}, a ∈ (s.2 (lba / mapInTrans)).segs → a.Includes lba →
      ∃ i, h[a.seq]? = some (lba / mapInTrans, i) ∧ i.type = .accurate ∧ lba ∈ i.tmap.lba := by
    intro a ha hinc
    obtain ⟨i, hi, hmade⟩ := hs.made _ a ha
    have hacc : i.type = .accurate := hmade.type.symm.trans hinc.1
    have hvalid := hs.valid _ (List.mem_of_getElem? hi)
    use i, hi, hacc, (hmade.mem_iff hvalid hacc lba).mpr hinc.2
  refine ⟨r, (getSegment_slow hs.fastSearch _ lba).trans hget, ?_, ?_⟩
  · rintro k g i ⟨i', hi', hin, hlater⟩ hk hacc
    rw [List.getElem?_map, hk] at hi'
    obtain rfl : i = i' := Option.some.inj hi'
    have hvalid := hs.valid _ (List.mem_of_getElem? hk)
    have hg : lba / mapInTrans = g := hvalid.group lba hin
    have hnot : ∀ k' x, k < k' → h[k']? = some x → lba ∉ x.2.tmap.lba := by
      intro k' x hkk' hx
      apply hlater k' x.2 hkk'
      rw [List.getElem?_map, hx]
      rfl
    obtain hlive | ⟨k', x, hkk', hx, hsub⟩ := hs.live k g i hk hacc
    · obtain ⟨a, ha, rfl⟩ := List.mem_map.mp hlive
      rw [← hg] at ha
      obtain ⟨i₁, h₁, hmade⟩ := hs.made _ a ha
      rw [hk] at h₁
      cases h₁
      have hinc : a.Includes lba := ⟨hmade.type.trans hacc, (hmade.mem_iff hvalid hacc lba).mp hin⟩
      refine (hr _).mpr ⟨a, ha, rfl, hinc, ?_⟩
      intro b hb hbinc
      obtain ⟨i₂, h₂, -, hin₂⟩ := hmem hb hbinc
      by_contra hlt
      apply hnot b.seq _ (not_le.mp hlt) h₂ hin₂
    · exact absurd (hsub lba hin) (hnot k' x hkk' hx)
  · intro k hk
    obtain ⟨a, ha, rfl, hinc, -⟩ := (hr k).mp hk
    obtain ⟨i, hi, hacc, hin⟩ := hmem ha hinc
    exact ⟨_, i, hi, hacc, hin⟩

variable (pr)

/-- Valid insertions from the beginning succeed. -/
theorem insertAll_recorded (fast : Bool) {ins : List (ℕ × Insert)}
    (hvalid : ∀ x ∈ ins, x.2.Valid x.1) :
  ∃ s, run (insertAt pr) (start P fast) ins = .ok s ∧ Recorded pr fast ins s
  := by
  have hguard : Guarded (insertAt pr) (fun _ x => x.2.Valid x.1) (start P fast) ins
    := guarded_of_forall (fun x hx _ => hvalid x hx) _
  apply run_progress (Recorded pr fast) (fun _ _ _ hs hx => hs.insertAt hx) (h := [])
    (recorded_start pr fast) hguard

/-- After every run of insertions the sizes of the levels, which are handed to
`lea_cache_size_update`, fit into 32 bits. -/
theorem levelBytes_run (hlines : ∀ l, pr.lineCnt (pr.make l) ≤ l.length) (fast : Bool)
    {ins : List (ℕ × Insert)} (hvalid : ∀ x ∈ ins, x.2.Valid x.1) :
  ∃ s, run (insertAt pr) (start P fast) ins = .ok s ∧
    ∀ g, ∀ lev ∈ (s.2 g).levels, levelBytes pr s.1 g lev.segs < 2 ^ 32
  := by
  obtain ⟨s, hrun, hs⟩ := insertAll_recorded pr fast hvalid
  use s, hrun
  intro g lev hlev
  have hmade : ∀ a ∈ lev.segs, ∃ i, i.Valid g ∧ Made pr i a := by
    intro a ha
    obtain ⟨i, hi, hmade⟩ := hs.made g a (List.mem_flatMap.mpr ⟨lev, hlev, ha⟩)
    exact ⟨i, hs.valid _ (List.mem_of_getElem? hi), hmade⟩
  calc levelBytes pr s.1 g lev.segs
      ≤ mapInTrans * 12 :=
        levelBytes_le s.1 hlines ((hs.inv.levelled g).ordered lev hlev) hmade (hs.inv.crb g)
    _ < 2 ^ 32 := by decide

/-- After every run of insertions a lookup without the fast search gives the segment that it
gives with it exactly when the last insertion that has the address is an accurate one. -/
theorem getSegment_slow_eq_fast (ins : List (ℕ × Insert)) (hvalid : ∀ x ∈ ins, x.2.Valid x.1)
    (lba : ℕ) :
  ∃ fast slow r r', run (insertAt pr) (start P true) ins = .ok fast ∧
    run (insertAt pr) (start P false) ins = .ok slow ∧
    fast.1.getSegment (fast.2 (lba / mapInTrans)) lba = .ok r ∧
    slow.1.getSegment (slow.2 (lba / mapInTrans)) lba = .ok r' ∧
    (r' = r ↔ NewestAccurate (ins.map Prod.snd) lba)
  := by
  obtain ⟨fast, hfast, hf⟩ := insertAll_recorded pr true hvalid
  obtain ⟨slow, hslow, hs⟩ := insertAll_recorded pr false hvalid
  obtain ⟨r', hget, hnewest, honly⟩ := hs.slow_newest lba
  have hr := hf.newest rfl lba
  refine ⟨fast, slow, fast.1.segList lba, r', hfast, hslow, ?_, hget, ?_⟩
  · rw [getSegment_fast hf.fastSearch]
    unfold groupGetSegment
    split
    · rename_i hnone
      exact absurd hnone (hf.lists _)
    · rfl
  · constructor
    · rintro heq k i hk hi
      rw [← heq] at hr
      obtain ⟨g, i', hi', hacc, -⟩ := honly k ((hr k).mpr hk)
      rw [List.getElem?_map, hi'] at hi
      rw [← Option.some.inj hi]
      apply hacc
    · intro hacc
      cases hseg : fast.1.segList lba with
      | some k =>
          have hk := (hr k).mp hseg
          obtain ⟨i, hi, -, -⟩ := id hk
          have hmap := hi
          rw [List.getElem?_map, Option.map_eq_some_iff] at hmap
          obtain ⟨⟨g, i'⟩, hx, heq⟩ := hmap
          obtain rfl : i' = i := heq
          apply hnewest k g i' hk hx (hacc k i' hk hi)
      | none =>
          cases r' with
          | none => rfl
          | some k =>
              obtain ⟨g, i, hi, -, hin⟩ := honly k rfl
              have hmem : i ∈ ins.map Prod.snd := List.mem_map_of_mem (List.mem_of_getElem? hi)
              obtain ⟨k', hk'⟩ := exists_isNewest ⟨i, hmem, hin⟩
              have hsome := (hr k').mpr hk'
              rw [hseg] at hsome
              cases hsome

/-- The third insertion is an accurate one, and both lookups find its segment. -/
theorem getSegment_slow_eq_fast_overlapping :
  ∃ fast slow, run (insertAt oneLine) (start _ true) (overlapping.map fun i => (0, i)) = .ok fast ∧
    run (insertAt oneLine) (start _ false) (overlapping.map fun i => (0, i)) = .ok slow ∧
    fast.1.getSegment (fast.2 0) 2 = .ok (some 2) ∧ slow.1.getSegment (slow.2 0) 2 = .ok (some 2)
  := by
  obtain ⟨fast, slow, r, r', hfast, hslow, hr, hr', hiff⟩ := getSegment_slow_eq_fast oneLine
    (overlapping.map fun i => (0, i))
    (by
      intro x hx
      obtain ⟨i, hi, rfl⟩ := List.mem_map.mp hx
      simp only [overlapping, List.mem_cons, List.not_mem_nil, or_false] at hi
      rcases hi with rfl | rfl | rfl
      all_goals
        constructor
        all_goals decide)
    2
  have hnewest : NewestAccurate overlapping 2 := by
    rintro k i ⟨i', hi', hin, hlater⟩ hk
    have hlt := (List.getElem?_eq_some_iff.mp hk).1
    obtain rfl : k = 2 := by
      by_contra hne
      have hlt' : k < 2 := Nat.lt_of_le_of_ne (Nat.le_of_lt_succ hlt) hne
      apply hlater 2 ⟨⟨[0, 2, 4, 6], [8, 9, 10, 11]⟩, .accurate, 2, 0⟩ hlt' rfl (by decide)
    cases hk
    rfl
  have hget : (run (insertAt oneLine) (start _ true) (overlapping.map fun i => (0, i)) >>=
      fun s => s.1.getSegment (s.2 (2 / mapInTrans)) 2) = .ok (some 2) := rfl
  obtain rfl : r' = r := hiff.mpr hnewest
  rw [hfast] at hget
  obtain rfl : r' = some 2 := Except.ok.inj (hr.symm.trans hget)
  use fast, slow, hfast, hslow, hr, hr'

/-- The table has the segment of an approximate insertion, and the lookup without it finds
nothing. -/
theorem not_getSegment_slow_eq_fast :
  (∀ i ∈ [(⟨⟨[0, 1, 3], [0, 1, 2]⟩, .approximate, 0, 0x5500000020⟩ : Insert)], i.Valid 0) ∧
    ∃ fast slow,
      run (insertAt oneLine) (start _ true)
        [(0, ⟨⟨[0, 1, 3], [0, 1, 2]⟩, .approximate, 0, 0x5500000020⟩)] = .ok fast ∧
      run (insertAt oneLine) (start _ false)
        [(0, ⟨⟨[0, 1, 3], [0, 1, 2]⟩, .approximate, 0, 0x5500000020⟩)] = .ok slow ∧
      fast.1.getSegment (fast.2 0) 1 = .ok (some 0) ∧ slow.1.getSegment (slow.2 0) 1 = .ok none
  := by
  constructor
  · intro i hi
    rw [List.mem_singleton.mp hi]
    constructor
    all_goals decide
  · exact ⟨_, _, rfl, rfl, rfl, rfl⟩

end Runs

end LeaFtl

end AppL
