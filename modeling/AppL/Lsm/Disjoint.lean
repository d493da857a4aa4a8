import AppL.Lsm.Log
import AppL.Lsm.Merge

/-!
# Blocks that meet no other block

The searches over the ranges of the blocks, and what `__check_disjoint_spm` finds: blocks that
are sorted, have no unlinked data, and whose range no other block of the sources meets.
-/

namespace AppL

open Transition

/-- The ranges of two blocks do not meet. -/
def Ste.Apart (a b : Ste) : Prop := a.endLba < b.startLba ∨ b.endLba < a.startLba

/-- The entry without what `trivial_move` changes in its source. -/
def Ste.core (ste : Ste) : Ste := { ste with copied := false, mf := none }

/-- The lba lies in the range of the block. -/
def Ste.Covers (ste : Ste) (lba : ℕ) : Prop := ste.startLba ≤ lba ∧ lba ≤ ste.endLba

theorem Ste.Apart.not_covers {a b : Ste} {lba : ℕ} (h : a.Apart b) (ha : a.Covers lba)
    (hb : b.Covers lba) :
  False
  := by
  obtain ⟨ha₁, ha₂⟩ := ha
  obtain ⟨hb₁, hb₂⟩ := hb
  rcases h with h | h
  · omega
  · omega

theorem Ste.Meta.covers {g : Geometry} {ste : Ste} (h : ste.Meta g) {p : SummaryPair}
    (hp : p ∈ ste.page) :
  ste.Covers p.lba
  := ⟨h.start_le p hp, h.le_end p hp⟩

namespace StArray

/-! ### Binary searches -/

/-- The ranges of the entries are in order, one behind the other. -/
def Ranged (stes : List Ste) : Prop :=
  (∀ ste ∈ stes, ste.startLba ≤ ste.endLba) ∧
    stes.Pairwise fun a b => a.endLba < b.startLba

theorem Ranged.lt {stes : List Ste} (h : Ranged stes) {i j : ℕ} {a b : Ste} (hij : i < j)
    (hi : stes[i]? = some a) (hj : stes[j]? = some b) :
  a.endLba < b.startLba
  := by
  obtain ⟨hi', rfl⟩ := List.getElem?_eq_some_iff.mp hi
  obtain ⟨hj', rfl⟩ := List.getElem?_eq_some_iff.mp hj
  apply List.pairwise_iff_getElem.mp h.2 i j hi' hj' hij

/-- At most one block of the table covers an lba. -/
theorem Ranged.unique {stes : List Ste} (h : Ranged stes) {i j lba : ℕ} {a b : Ste}
    (hi : stes[i]? = some a) (hj : stes[j]? = some b) (ha : a.Covers lba)
    (hb : b.Covers lba) :
  i = j
  := by
  obtain ⟨ha₁, ha₂⟩ := ha
  obtain ⟨hb₁, hb₂⟩ := hb
  rcases Nat.lt_trichotomy i j with hlt | heq | hgt
  · have := h.lt hlt hi hj
    omega
  · apply heq
  · have := h.lt hgt hj hi
    omega

/-- `spm_find_target_idx` finds an entry whose range covers the lba. -/
theorem findTargetLoop_some {spm : ℕ → Ste} {lba i : ℕ} (fuel : ℕ) :
  ∀ {s e : ℕ}, findTargetLoop spm lba fuel s e = some i →
    i < e ∧ (spm i).startLba ≤ lba ∧ (lba = (spm i).startLba ∨ lba ≤ (spm i).endLba)
  := by
  induction fuel with
  | zero =>
      intro s e h
      cases h
  | succ fuel ih =>
      intro s e h
      unfold findTargetLoop at h
      split at h
      · cases h
      · rename_i hlt
        dsimp only at h
        split at h
        · rename_i heq
          cases h
          refine ⟨by omega, Nat.le_of_eq heq, .inl heq.symm⟩
        · rename_i hne
          split at h
          · obtain ⟨h₁, h₂⟩ := ih h
            exact ⟨by omega, h₂⟩
          · rename_i hge
            split at h
            · rename_i hle
              cases h
              use by omega, Nat.le_of_not_lt hge, .inr hle
            · apply ih h

/-- When `spm_joint_check` finds nothing, no range meets that of the target. -/
theorem jointCheckLoop_none {stes : List Ste} (hr : Ranged stes) {spm : ℕ → Ste}
    (hspm : ∀ i ste, stes[i]? = some ste → spm i = ste) {target : Ste} (fuel : ℕ) :
  ∀ {s e : ℕ}, e ≤ stes.length → e < s + fuel →
    jointCheckLoop spm target fuel s e = none →
    ∀ i ste, s ≤ i → i < e → stes[i]? = some ste → ste.Apart target
  := by
  induction fuel with
  | zero =>
      intro s e _ hf _ i ste hs he _
      omega
  | succ fuel ih =>
      intro s e hlen hf h i ste hs he hi
      unfold jointCheckLoop at h
      split at h
      · omega
      · rename_i hlt
        have hmid : (s + (e - 1)) / 2 < stes.length := by omega
        obtain ⟨mid, hm⟩ : ∃ mid, stes[(s + (e - 1)) / 2]? = some mid :=
          ⟨_, List.getElem?_eq_getElem hmid⟩
        have hle := hr.1 ste (List.mem_of_getElem? hi)
        have hlem := hr.1 mid (List.mem_of_getElem? hm)
        dsimp only at h
        rw [hspm _ _ hm] at h
        split at h
        · cases h
        · rename_i hne
          split at h
          · rename_i hbelow
            split at h
            · cases h
            · rename_i hend
              rcases Nat.lt_trichotomy i ((s + (e - 1)) / 2) with hi' | hi' | hi'
              · have := hr.lt hi' hi hm
                left
                omega
              · subst hi'
                rw [hm] at hi
                cases hi
                left
                omega
              · apply ih hlen (by omega) h i ste hi' he hi
          · rename_i habove
            split at h
            · cases h
            · rename_i hstart
              rcases Nat.lt_trichotomy i ((s + (e - 1)) / 2) with hi' | hi' | hi'
              · apply ih (by omega) (by omega) h i ste hs hi' hi
              · subst hi'
                rw [hm] at hi
                cases hi
                right
                omega
              · have := hr.lt hi' hm hi
                right
                omega

/-- When `spm_joint_check_debug` finds nothing, no range except the skipped one meets that of
the target. -/
theorem jointCheckDebugLoop_none {target : Ste} {skip : ℕ} (stes : List Ste) :
  ∀ {i : ℕ}, jointCheckDebugLoop target (some skip) i stes = none →
    ∀ k ste, stes[k]? = some ste → i + k ≠ skip → ste.Apart target
  := by
  induction stes with
  | nil =>
      intro i _ k ste hk
      simp at hk
  | cons a stes ih =>
      intro i h k ste hk hne
      unfold jointCheckDebugLoop at h
      have hrest : jointCheckDebugLoop target (some skip) (i + 1) stes = none ∧
          (skip = i ∨ a.Apart target) := by
        split at h
        · rename_i hs
          use h, .inl (Option.some.inj hs)
        · split at h
          · rename_i hend
            use h, .inr (.inl hend)
          · split at h
            · rename_i hstart
              rw [if_neg (by simp)] at h
              use h, .inr (.inr hstart)
            · cases h
      cases k with
      | zero =>
          rw [List.getElem?_cons_zero] at hk
          cases hk
          rcases hrest.2 with heq | hap
          · omega
          · apply hap
      | succ k =>
          rw [List.getElem?_cons_succ] at hk
          apply ih hrest.1 k ste hk
          omega

end StArray

/-! ### Finished runs -/

namespace Run

variable {δ : Type} {g : Geometry} {r : Run δ}

/-- A normal run that is finished: its entries are in the order of their lbas. -/
structure Done (g : Geometry) (r : Run δ) : Prop where
  type : r.type = .runNormal
  stes : ∀ ste ∈ r.stBody.stes, ste.Meta g ∧ ste.page ≠ []
  nil : r.stBody.cur.page = []
  asc : r.entries.Pairwise fun a b => a.lba < b.lba

theorem Done.entries_eq (h : r.Done g) :
  r.entries = r.stBody.stes.flatMap Ste.entries
  := by
  rw [entries, List.flatMap_append, List.flatMap_singleton, Ste.entries, h.nil]
  simp

theorem Done.ranged (h : r.Done g) :
  StArray.Ranged r.stBody.stes
  := by
  have hasc := h.asc
  rw [h.entries_eq, List.pairwise_flatMap] at hasc
  constructor
  · intro ste hste
    obtain ⟨hmeta, hne⟩ := h.stes ste hste
    obtain ⟨p, hp, heq⟩ := hmeta.start_mem hne
    rw [← heq]
    apply hmeta.le_end p hp
  · apply List.Pairwise.imp_of_mem _ hasc.2
    intro a b ha hb hab
    obtain ⟨hmeta, hne⟩ := h.stes a ha
    obtain ⟨hmeta', hne'⟩ := h.stes b hb
    obtain ⟨p, hp, hend⟩ := hmeta.end_mem hne
    obtain ⟨q, hq, hstart⟩ := hmeta'.start_mem hne'
    rw [← hend, ← hstart]
    apply hab _ (List.mem_map_of_mem hp) _ (List.mem_map_of_mem hq)

end Run

/-! ### Blocks that can be moved -/

/-- The blocks of the sources, as they are before a merge. -/
def blocksOf {δ : Type} (rset : List (Run δ)) : List (RunType × List Ste) :=
  rset.map fun r => (r.type, r.stBody.stes.map Ste.core)

/-- `ste` is the block `j` of source `i`; it is sorted, has no unlinked data and is apart from
all other blocks. -/
structure Movable (blocks : List (RunType × List Ste)) (i j : ℕ) (ste : Ste) : Prop where
  mem : ∃ t stes, blocks[i]? = some (t, stes) ∧ stes[j]? = some ste
  sorted : ste.sorted = true
  flag : ste.unlinkedDataCopy = false
  apart : ∀ k t stes k' ste', blocks[k]? = some (t, stes) → stes[k']? = some ste' →
    k ≠ i ∨ k' ≠ j → ste'.Apart ste

/-- What `__check_disjoint_spm` is called with: normal runs whose blocks are in the order of
their ranges, or one log. -/
def Inputs {δ : Type} (rset : List (Run δ)) : Prop :=
  (∀ r ∈ rset, r.type = .runNormal ∧ StArray.Ranged r.stBody.stes) ∨
    ∃ r, rset = [r] ∧ r.type = .runLog

namespace MergeState

variable {δ : Type} {g : Geometry} {rset : List (Run δ)}

theorem firstJoint_none {isLog : Bool} {i j : ℕ} {ste : Ste} (rs : List (Run δ)) :
  ∀ {k : ℕ}, firstJoint isLog i j ste k rs = none →
    ∀ n r, rs[n]? = some r → jointIn isLog i j ste (k + n) r = none
  := by
  induction rs with
  | nil =>
      intro k _ n r hn
      simp at hn
  | cons r₀ rs ih =>
      intro k h n r hn
      unfold firstJoint at h
      cases hj : jointIn isLog i j ste k r₀ with
      | some idx => simp [hj] at h
      | none =>
          rw [hj] at h
          cases n with
          | zero =>
              rw [List.getElem?_cons_zero] at hn
              cases hn
              apply hj
          | succ n =>
              rw [List.getElem?_cons_succ] at hn
              have := ih h n r hn
              rwa [Nat.add_assoc, Nat.add_comm 1 n] at this

/-- What is known of a block that `__check_disjoint_spm` selects. -/
theorem mem_checkDisjoint {x : ℕ × ℕ} (todo : List (ℕ × ℕ)) :
  ∀ {joint acc : List (ℕ × ℕ)}, x ∈ checkDisjoint rset todo joint acc →
    x ∈ acc ∨ (x ∈ todo ∧ ∃ r, rset[x.1]? = some r ∧
      (r.stBody.steAt x.2).sorted = true ∧ (r.stBody.steAt x.2).unlinkedDataCopy = false ∧
      firstJoint (r.type == .runLog) x.1 x.2 (r.stBody.steAt x.2) 0 rset = none)
  := by
  induction todo with
  | nil =>
      intro joint acc h
      left
      apply h
  | cons y todo ih =>
      intro joint acc h
      obtain ⟨i, j⟩ := y
      have hnext : ∀ {joint acc : List (ℕ × ℕ)}, x ∈ checkDisjoint rset todo joint acc →
          x ∈ acc ∨ (x ∈ (i, j) :: todo ∧ ∃ r, rset[x.1]? = some r ∧
            (r.stBody.steAt x.2).sorted = true ∧
            (r.stBody.steAt x.2).unlinkedDataCopy = false ∧
            firstJoint (r.type == .runLog) x.1 x.2 (r.stBody.steAt x.2) 0 rset = none) := by
        intro joint acc h
        rcases ih h with hacc | ⟨hmem, hr⟩
        · left
          apply hacc
        · right
          exact ⟨List.mem_cons_of_mem _ hmem, hr⟩
      unfold checkDisjoint at h
      cases hr : rset[i]? with
      | none =>
          rw [hr] at h
          apply hnext h
      | some r =>
          simp only [hr] at h
          split at h
          · apply hnext h
          · rename_i hcond
            simp only [not_or, Bool.not_eq_false, Bool.not_eq_true] at hcond
            obtain ⟨-, hcond⟩ := hcond
            split at h
            · apply hnext h
            · rename_i hnone
              rcases hnext h with hacc | hrest
              · rcases List.mem_append.mp hacc with hacc | hacc
                · left
                  apply hacc
                · rw [List.mem_singleton] at hacc
                  subst hacc
                  right
                  use List.mem_cons_self .., r, hr, hcond.1, hcond.2.1, hnone
              · right
                apply hrest

theorem mem_allBlocks {x : ℕ × ℕ} (h : x ∈ allBlocks rset) :
  ∃ r, rset[x.1]? = some r ∧ x.2 < r.stBody.stes.length
  := by
  unfold allBlocks at h
  obtain ⟨y, hy, hx⟩ := List.mem_flatMap.mp h
  obtain ⟨j, hj, rfl⟩ := List.mem_map.mp hx
  refine ⟨y.1, ?_, List.mem_range.mp hj⟩
  apply (List.mem_zipIdx_iff_getElem?.mp hy)

/-- The iterator of a source knows the blocks of this source that were selected. -/
theorem markDisjoint_eq {i : ℕ} {r : Run δ} (blocks : List (ℕ × ℕ)) :
  ∀ (ssi : SpSetIter), markDisjoint i r blocks ssi
    = { ssi with
        noncopyFlag := ssi.noncopyFlag ++ (blocks.filter fun b => b.1 = i).map (·.2)
        noncopyLba := ssi.noncopyLba ++ (blocks.filter fun b => b.1 = i).map fun b =>
          ((r.stBody.steAt b.2).startLba, (r.stBody.steAt b.2).endLba) }
  := by
  induction blocks with
  | nil =>
      intro ssi
      simp [markDisjoint]
  | cons b blocks ih =>
      intro ssi
      rw [markDisjoint, List.foldl_cons]
      change markDisjoint i r blocks _ = _
      rw [ih]
      by_cases hb : b.1 = i
      · simp [hb, SpSetIter.skipLba]
      · simp [hb]

/-- The blocks that `__check_disjoint_spm` selects can be moved. -/
theorem checkDisjoint_movable (hs : Inputs rset) {x : ℕ × ℕ}
    (h : x ∈ checkDisjoint rset (allBlocks rset) [] []) :
  ∃ r, rset[x.1]? = some r ∧ x.2 < r.stBody.stes.length ∧
    Movable (blocksOf rset) x.1 x.2 (r.stBody.steAt x.2).core
  := by
  rcases mem_checkDisjoint _ h with hnil | ⟨hall, r, hr, hsorted, hflag, hjoint⟩
  · cases hnil
  · obtain ⟨r', hr', hlt⟩ := mem_allBlocks hall
    rw [hr] at hr'
    cases hr'
    have hste : r.stBody.stes[x.2]? = some (r.stBody.steAt x.2) := by
      rw [StArray.steAt, List.getElem?_eq_getElem hlt, Option.getD_some]
    refine ⟨r, hr, hlt, ⟨?_, hsorted, hflag, ?_⟩⟩
    · refine ⟨r.type, r.stBody.stes.map Ste.core, ?_, ?_⟩
      · rw [blocksOf, List.getElem?_map, hr]
        rfl
      · rw [List.getElem?_map, hste]
        rfl
    · intro k t stes k' ste' hk hk' hne
      rw [blocksOf, List.getElem?_map] at hk
      obtain ⟨rk, hrk, heq⟩ := Option.map_eq_some_iff.mp hk
      cases heq
      rw [List.getElem?_map] at hk'
      obtain ⟨sk, hsk, rfl⟩ := Option.map_eq_some_iff.mp hk'
      have hin := firstJoint_none rset hjoint k rk hrk
      rw [Nat.zero_add] at hin
      change sk.Apart (r.stBody.steAt x.2)
      rcases hs with hnormal | ⟨r₀, hset, hlog⟩
      · obtain ⟨htype, hranged⟩ := hnormal r (List.mem_of_getElem? hr)
        obtain ⟨htype', hranged'⟩ := hnormal rk (List.mem_of_getElem? hrk)
        by_cases hkx : k = x.1
        · subst hkx
          rw [hr] at hrk
          cases hrk
          have hne' : k' ≠ x.2 := by
            rcases hne with hne | hne
            · exact absurd rfl hne
            · apply hne
          rcases Nat.lt_or_gt_of_ne hne' with hlt' | hgt
          · left
            apply hranged.lt hlt' hsk hste
          · right
            apply hranged.lt hgt hste hsk
        · simp only [jointIn, htype, htype', hkx] at hin
          apply StArray.jointCheckLoop_none hranged' _ _ (Nat.le_refl _) _ hin k' sk
            (Nat.zero_le _) (List.getElem?_eq_some_iff.mp hsk).1 hsk
          · intro i ste hi
            rw [StArray.steAt, hi, Option.getD_some]
          · rw [Nat.zero_add]
            apply Nat.lt_succ_self _
      · subst hset
        have hzero : ∀ {n : ℕ} {q : Run δ}, [r₀][n]? = some q → n = 0 ∧ q = r₀ := by
          intro n q hn
          cases n with
          | zero =>
              cases hn
              exact ⟨rfl, rfl⟩
          | succ n => simp at hn
        obtain ⟨hx, rfl⟩ := hzero hr
        obtain ⟨rfl, rfl⟩ := hzero hrk
        have hne' : k' ≠ x.2 := by
          rcases hne with hne | hne
          · exact absurd hx.symm hne
          · apply hne
        simp only [jointIn, hlog, hx] at hin
        apply StArray.jointCheckDebugLoop_none _ hin k' sk hsk
        rwa [Nat.zero_add]

end MergeState

end AppL
