import Mathlib.Logic.Relation
import Mathlib.Data.List.Forall2
import AppL.Lsm.Source
import AppL.Lsm.Disjoint

/-!
# The merge of the code is a merge

Every successful run of `run_merge` is a sequence of steps of the transition system of
`Merging`.
-/

namespace AppL

open Transition

/-- A sequence of steps of a merge. -/
abbrev Merging.Steps {δ : Type} (g : Geometry) (moves : ℕ → Ste → Prop) :
    Merging δ → Merging δ → Prop :=
  Relation.ReflTransGen (Merging.Step g moves)

theorem Dev.Clears.append {δ : Type} {g : Geometry} {dev dev₁ dev' : Dev δ} {qs qs' : List ℕ}
    (h : dev.Clears g qs dev₁) (h' : dev₁.Clears g qs' dev') :
  dev.Clears g (qs ++ qs') dev'
  := by
  induction h with
  | nil dev => apply h'
  | cons hq _ ih => exact .cons hq (ih h')

namespace Mm

variable {δ : Type} {g : Geometry} {mm mm' : Mm δ}

/-- The source is read in order, and behind the blocks that were moved. -/
structure Reading (g : Geometry) (mm : Mm δ) : Prop where
  reads : mm.Reads g
  asc : (mm.left g).Pairwise fun a b => a.lba < b.lba
  done : mm.done = true → mm.left g = []
  copied : ∀ ste ∈ mm.r.stBody.stes, ste.copied = true → ∀ e ∈ mm.left g, ste.endLba < e.lba
  ranged : mm.r.type = .runNormal → StArray.Ranged mm.r.stBody.stes

/-- The iterator of source `i` knows blocks that can be moved. -/
structure Noncopy (blocks : List (RunType × List Ste)) (i : ℕ) (ssi : SpSetIter) : Prop where
  lba : ∀ x ∈ ssi.noncopyLba, ∃ j ∈ ssi.noncopyFlag, ∃ ste, Movable blocks i j ste ∧
    ste.startLba = x.1
  flag : ∀ j ∈ ssi.noncopyFlag, ∃ ste, Movable blocks i j ste

theorem Noncopy.same {blocks : List (RunType × List Ste)} {i : ℕ} {ssi ssi' : SpSetIter}
    (h : Noncopy blocks i ssi) (hs : SameNoncopy ssi ssi') :
  Noncopy blocks i ssi'
  := by
  constructor
  · rw [hs.1, hs.2]
    apply h.lba
  · rw [hs.2]
    apply h.flag

theorem Reading.not_done {e : Entry} {l : List Entry} (h : mm.Reading g)
    (hl : mm.left g = e :: l) :
  mm.done = false
  := by
  rw [Bool.eq_false_iff]
  intro hd
  rw [h.done hd] at hl
  cases hl

/-- The next entry is dropped. -/
theorem Reading.move {e : Entry} {l : List Entry} (h : mm.Reading g) (hl : mm.left g = e :: l)
    (hm : mm.moveIterTarget = .ok mm') :
  mm'.Reading g ∧ mm'.left g = l ∧ mm'.r = mm.r ∧ SameNoncopy mm.ssi mm'.ssi
  := by
  obtain ⟨hr, hleft, hrun, hd, hnc⟩ := moveIterTarget_ok h.reads hl (h.not_done hl) hm
  refine ⟨⟨hr, ?_, ?_, ?_, ?_⟩, hleft, hrun, hnc⟩
  · rw [hleft]
    have := h.asc
    rw [hl] at this
    apply (List.pairwise_cons.mp this).2
  · rw [hleft]
    apply hd
  · rw [hleft, hrun]
    intro ste hste hc e' he'
    apply h.copied ste hste hc e'
    rw [hl]
    simp [he']
  · rw [hrun]
    apply h.ranged

/-- `__invalidate_target` of the next entry invalidates its piece. -/
theorem Reading.invalidate {e : Entry} {l : List Entry} {dev dev' : Dev δ} {force : Bool}
    (h : mm.Reading g) (hl : mm.left g = e :: l)
    (hi : mm.invalidateTarget g dev e.lba e.psa force mm.ssi.nowSteNum = .ok dev') :
  dev.Invalidates g dev' e.psa
  := by
  obtain ⟨-, -, -, -, -, -, -, hpsa⟩ := pick_eq h.reads hl (ShortcutMaster.init 0)
  simp only [invalidateTarget, bind_eq_ok, hpsa] at hi
  obtain ⟨q, hq, hdev⟩ := hi
  cases hq
  apply (Dev.invalidatePiecePpa_ok hdev).1

theorem originalPsa_congr (h : mm'.r = mm.r) (lba ste intra : ℕ) :
  mm'.originalPsa g lba ste intra = mm.originalPsa g lba ste intra
  := by rw [originalPsa, originalPsa, h]

end Mm

/-- The pieces of the summary pages that the run still has. -/
def Run.ownSums {δ : Type} (r : Run δ) : List ℕ :=
  (r.stBody.stes.filter fun ste => ste.copied = false).map (·.piecePpa)

namespace MergeState

variable {δ : Type} {g : Geometry} {blocks : List (RunType × List Ste)}
  {st st' : MergeState δ} {m m' : Merging δ}

/-- The sorted pair stands for an entry of its source. -/
def Pending (g : Geometry) (mms : List (Mm δ)) (p : SortedPair) (x : ℕ × Entry) : Prop :=
  p.lba = x.2.lba ∧ ∃ mm, mms[p.ridx]? = some mm ∧ mm.r.info = x.1 ∧
    mm.originalPsa g p.lba p.ste p.intraIdx = .ok x.2.psa ∧
    mm.originalPsa g p.lba p.ste (x.2.psa % g.maxSectorInBlock) = .ok x.2.psa

theorem Pending.mono {mms mms' : List (Mm δ)} {p : SortedPair} {x : ℕ × Entry}
    (h : Pending g mms p x)
    (hm : ∀ (i : ℕ) (mm : Mm δ), mms[i]? = some mm →
      ∃ mm' : Mm δ, mms'[i]? = some mm' ∧ mm'.r = mm.r) :
  Pending g mms' p x
  := by
  obtain ⟨hlba, mm, hmm, hinfo, h₁, h₂⟩ := h
  obtain ⟨mm', hmm', hr⟩ := hm p.ridx mm hmm
  refine ⟨hlba, mm', hmm', hr ▸ hinfo, ?_, ?_⟩
  · rw [Mm.originalPsa_congr hr, h₁]
  · rw [Mm.originalPsa_congr hr, h₂]

/-- The state of `run_merge` shows the state of a merge. -/
structure Sim (g : Geometry) (blocks : List (RunType × List Ste)) (st : MergeState δ)
    (m : Merging δ) : Prop where
  srcs : m.srcs = st.mms.map fun mm => (mm.r.info, mm.left g)
  sums : m.sums = st.mms.flatMap fun mm => mm.r.ownSums
  res : m.res = st.res
  sc : m.sc = st.sc
  dev : m.dev = st.dev
  sorted : List.Forall₂ (Pending g st.mms) st.sortedArr m.sorted
  mms : ∀ mm ∈ st.mms, mm.Reading g
  same : blocksOf (st.mms.map (·.r)) = blocks
  noncopy : ∀ i mm, st.mms[i]? = some mm → Mm.Noncopy blocks i mm.ssi

/-- A list at one of its elements. -/
theorem split_at {α : Type} {l : List α} {i : ℕ} {a : α} (h : l[i]? = some a) :
  ∃ l₁ l₂, l = l₁ ++ a :: l₂ ∧ l₁.length = i ∧ ∀ b, l.set i b = l₁ ++ b :: l₂
  := by
  obtain ⟨hi, rfl⟩ := List.getElem?_eq_some_iff.mp h
  refine ⟨l.take i, l.drop (i + 1), ?_, ?_, ?_⟩
  · rw [List.cons_getElem_drop_succ, List.take_append_drop]
  · simp [Nat.le_of_lt hi]
  · intro b
    rw [List.set_eq_take_cons_drop _ hi]

theorem forall₂_getElem? {α β : Type} {R : α → β → Prop} {l : List α} {l' : List β}
    (h : List.Forall₂ R l l') :
  ∀ {i : ℕ} {b : β}, l'[i]? = some b → ∃ a, l[i]? = some a ∧ R a b
  := by
  induction h with
  | nil =>
      intro i b hb
      cases hb
  | cons hab _ ih =>
      intro i b hb
      cases i with
      | zero =>
          cases hb
          exact ⟨_, rfl, hab⟩
      | succ i => apply ih hb

theorem forall₂_getElem?_left {α β : Type} {R : α → β → Prop} {l : List α} {l' : List β}
    (h : List.Forall₂ R l l') {i : ℕ} {a : α} (ha : l[i]? = some a) :
  ∃ b, l'[i]? = some b ∧ R a b
  := forall₂_getElem? h.flip ha

/-- The source has moved on. -/
structure Onward (g : Geometry) (mm mm' : Mm δ) : Prop where
  run : mm'.r = mm.r
  reading : mm'.Reading g
  noncopy : Mm.SameNoncopy mm.ssi mm'.ssi

theorem map_run_eq {mms mms' : List (Mm δ)} (hon : List.Forall₂ (Onward g) mms mms') :
  mms'.map (·.r) = mms.map (·.r)
  := by
  induction hon with
  | nil => rfl
  | cons hmm _ ih => rw [List.map_cons, List.map_cons, hmm.run, ih]

/-- Sources move on, and the device changes. -/
theorem Sim.onward {mms : List (Mm δ)} (h : Sim g blocks st m)
    (hon : List.Forall₂ (Onward g) st.mms mms) (dev : Dev δ) :
  Sim g blocks { st with mms := mms, dev := dev }
    { m with srcs := mms.map (fun mm => (mm.r.info, mm.left g)), dev := dev }
  := by
  have hruns := map_run_eq hon
  have hget : ∀ (i : ℕ) (mm : Mm δ), st.mms[i]? = some mm →
      ∃ mm' : Mm δ, mms[i]? = some mm' ∧ mm'.r = mm.r := by
    intro i mm hi
    have hmap : (mms.map (·.r))[i]? = some mm.r := by
      rw [hruns, List.getElem?_map, hi]
      rfl
    rw [List.getElem?_map] at hmap
    apply Option.map_eq_some_iff.mp hmap
  refine ⟨rfl, ?_, h.res, h.sc, rfl, ?_, ?_, ?_, ?_⟩
  · have hsums : ∀ l : List (Mm δ), (l.flatMap fun mm => mm.r.ownSums)
        = (l.map (·.r)).flatMap Run.ownSums := by
      intro l
      rw [List.flatMap_map]
    rw [hsums, hruns, ← hsums]
    apply h.sums
  · apply h.sorted.imp
    intro p x hp
    apply hp.mono hget
  · intro mm hmm
    obtain ⟨i, hi⟩ := List.mem_iff_getElem?.mp hmm
    obtain ⟨mm₀, -, hmm₀⟩ := forall₂_getElem? hon hi
    apply hmm₀.reading
  · change blocksOf (mms.map (·.r)) = _
    rw [hruns]
    apply h.same
  · intro i mm hi
    obtain ⟨mm₀, hi₀, hmm₀⟩ := forall₂_getElem? hon hi
    apply (h.noncopy i mm₀ hi₀).same hmm₀.noncopy

/-- One source moves on, and the device changes. -/
theorem Sim.update {ridx : ℕ} {mm mm' : Mm δ} (h : Sim g blocks st m)
    (hmm : st.mms[ridx]? = some mm) (hon : Onward g mm mm') (dev : Dev δ) :
  ∃ as bs, m.srcs = as ++ (mm.r.info, mm.left g) :: bs ∧
    Sim g blocks { st with mms := st.mms.set ridx mm', dev := dev }
      { m with srcs := as ++ (mm.r.info, mm'.left g) :: bs, dev := dev }
  := by
  obtain ⟨ms, ms', heq, -, hset⟩ := split_at hmm
  refine ⟨ms.map fun mm => (mm.r.info, mm.left g), ms'.map fun mm => (mm.r.info, mm.left g),
    ?_, ?_⟩
  · rw [h.srcs, heq]
    simp
  · have hself : ∀ l : List (Mm δ), (∀ x ∈ l, x ∈ st.mms) → List.Forall₂ (Onward g) l l := by
      intro l hl
      rw [List.forall₂_same]
      intro x hx
      exact ⟨rfl, h.mms x (hl x hx), rfl, rfl⟩
    have hons : List.Forall₂ (Onward g) st.mms (st.mms.set ridx mm') := by
      rw [hset, heq]
      apply List.rel_append
      · apply hself
        intro x hx
        simp [heq, hx]
      · apply List.Forall₂.cons hon
        apply hself
        intro x hx
        simp [heq, hx]
    have hsim := h.onward hons dev
    rw [hset, List.map_append, List.map_cons, hon.run] at hsim
    rw [hset]
    apply hsim

/-! ### Picking the smallest entry -/

theorem left_nil_of_pick {mm : Mm δ} (h : mm.Reads g) (hp : mm.pick g = none) :
  mm.left g = []
  := by
  cases hl : mm.left g with
  | nil => rfl
  | cons e l =>
      obtain ⟨p, hp', -⟩ := Mm.pick_eq h hl (ShortcutMaster.init 0)
      rw [hp] at hp'
      cases hp'

/-- What is picked is the first of the entries that are left. -/
theorem left_cons_of_pick {mm : Mm δ} {p : Picked} (h : mm.Reads g) (hp : mm.pick g = some p) :
  ∃ e l, mm.left g = e :: l ∧ p.lba = e.lba
  := by
  cases hl : mm.left g with
  | nil =>
      rw [Mm.pick_eq_none h hl] at hp
      cases hp
  | cons e l =>
      obtain ⟨p', hp', hlba, -⟩ := Mm.pick_eq h hl (ShortcutMaster.init 0)
      cases hp.symm.trans hp'
      use e, l, rfl, hlba

/-- The loop of `__pick_smallest_pair` finds a source with the smallest entry, or all of the
sources have nothing left. -/
theorem pickSmallest_spec (mms : List (Mm δ)) :
  ∀ {i : ℕ}, (∀ mm ∈ mms, mm.Reading g) →
    (pickSmallest g i mms = none ∧ ∀ mm ∈ mms, mm.left g = []) ∨
    ∃ n mm p, pickSmallest g i mms = some (i + n, p) ∧ mms[n]? = some mm ∧
      mm.pick g = some p ∧ ∀ mm' ∈ mms, ∀ e ∈ mm'.left g, p.lba ≤ e.lba
  := by
  induction mms with
  | nil =>
      intro i _
      left
      exact ⟨rfl, by simp⟩
  | cons mm mms ih =>
      intro i hread
      have hmm := hread mm (List.mem_cons_self ..)
      have hrest := ih (i := i + 1) fun mm' hmm' => hread mm' (List.mem_cons_of_mem _ hmm')
      have hskip : mm.left g = [] → pickSmallest g i (mm :: mms) = pickSmallest g (i + 1) mms := by
        intro hl
        rw [pickSmallest, Mm.pick_eq_none hmm.reads hl]
        dsimp only
        split
        · rfl
        · rfl
      cases hp : mm.pick g with
      | none =>
          have hl := left_nil_of_pick hmm.reads hp
          rw [hskip hl]
          rcases hrest with ⟨hnone, hall⟩ | ⟨n, mm', p, hsome, hget, hpick, hmin⟩
          · left
            use hnone
            intro x hx
            rcases List.mem_cons.mp hx with rfl | hx
            · apply hl
            · apply hall x hx
          · right
            refine ⟨n + 1, mm', p, ?_, hget, hpick, ?_⟩
            · rw [hsome, Nat.add_assoc, Nat.add_comm 1 n]
            · intro x hx e he
              rcases List.mem_cons.mp hx with rfl | hx
              · rw [hl] at he
                cases he
              · apply hmin x hx e he
      | some p =>
          right
          obtain ⟨e₀, l, hl, hlba⟩ := left_cons_of_pick hmm.reads hp
          have hnd := hmm.not_done hl
          have hself : ∀ e ∈ mm.left g, p.lba ≤ e.lba := by
            intro e he
            have hasc := hmm.asc
            rw [hl] at he hasc
            rw [hlba]
            rcases List.mem_cons.mp he with rfl | he
            · apply Nat.le_refl _
            · apply Nat.le_of_lt ((List.pairwise_cons.mp hasc).1 e he)
          rcases hrest with ⟨hnone, hall⟩ | ⟨n, mm', q, hsome, hget, hpick, hmin⟩
          · refine ⟨0, mm, p, ?_, rfl, hp, ?_⟩
            · simp only [pickSmallest, hnone, hp, hnd]
              rfl
            · intro x hx e he
              rcases List.mem_cons.mp hx with rfl | hx
              · apply hself e he
              · rw [hall x hx] at he
                cases he
          · by_cases hlt : q.lba < p.lba
            · refine ⟨n + 1, mm', q, ?_, hget, hpick, ?_⟩
              · simp only [pickSmallest, hsome, hp, hnd, hlt, if_true]
                rw [Nat.add_assoc, Nat.add_comm 1 n]
                rfl
              · intro x hx e he
                rcases List.mem_cons.mp hx with rfl | hx
                · apply Nat.le_trans (Nat.le_of_lt hlt) (hself e he)
                · apply hmin x hx e he
            · refine ⟨0, mm, p, ?_, rfl, hp, ?_⟩
              · simp only [pickSmallest, hsome, hp, hnd, hlt, if_false]
                rfl
              · intro x hx e he
                rcases List.mem_cons.mp hx with rfl | hx
                · apply hself e he
                · apply Nat.le_trans (Nat.le_of_not_lt hlt) (hmin x hx e he)

/-- The source `ridx` is at the smallest entry that is left. -/
structure Picks (g : Geometry) (st : MergeState δ) (ridx : ℕ) (p : Picked) (mm : Mm δ) :
    Prop where
  get : st.mms[ridx]? = some mm
  pick : mm.pick g = some p
  min : ∀ mm' ∈ st.mms, ∀ e ∈ mm'.left g, p.lba ≤ e.lba

theorem pickSmallest_picks {ridx : ℕ} {p : Picked} (h : Sim g blocks st m)
    (hp : pickSmallest g 0 st.mms = some (ridx, p)) :
  ∃ mm, Picks g st ridx p mm
  := by
  rcases pickSmallest_spec st.mms h.mms with ⟨hnone, -⟩ | ⟨n, mm, q, hsome, hget, hpick, hmin⟩
  · rw [hnone] at hp
    cases hp
  · rw [hsome, Nat.zero_add] at hp
    cases hp
    use mm, hget, hpick, hmin

/-- An old entry is skipped. -/
theorem skipOld_ok (moves : ℕ → Ste → Prop) {ridx : ℕ} {p : Picked} {mm : Mm δ}
    (h : Sim g blocks st m)
    (hp : Picks g st ridx p mm) (hold : mm.isOld st.sc p = true)
    (hok : st.skipOld g ridx p = .ok st') :
  ∃ m', m.Step g moves m' ∧ Sim g blocks st' m' ∧ m'.sorted = m.sorted
  := by
  have hread := h.mms mm (List.mem_of_getElem? hp.get)
  obtain ⟨e, l, hl, -⟩ := left_cons_of_pick hread.reads hp.pick
  obtain ⟨p', hp', hlba, hpsa, hisOld, -⟩ := Mm.pick_eq hread.reads hl st.sc
  cases hp.pick.symm.trans hp'
  simp only [skipOld, bind_eq_ok, orThrow_eq_ok] at hok
  obtain ⟨mm₀, hget, dev, hdev, mm', hmove, hret⟩ := hok
  cases hp.get.symm.trans hget
  cases hret
  rw [hlba, hpsa] at hdev
  obtain ⟨hread', hleft', hrun, hnc⟩ := hread.move hl hmove
  obtain ⟨as, bs, hsrcs, hsim⟩ := h.update hp.get ⟨hrun, hread', hnc⟩ dev
  rw [hl] at hsrcs
  rw [hleft'] at hsim
  refine ⟨_, Merging.Step.skip hsrcs ?_ ?_ ?_, hsim, rfl⟩
  · rw [h.sc, ← hisOld]
    apply hold
  · rw [h.dev]
    apply hread.invalidate hl hdev
  · intro x hx e' he'
    rw [h.srcs] at hx
    obtain ⟨mm', hmm', rfl⟩ := List.mem_map.mp hx
    rw [← hlba]
    apply hp.min mm' hmm' e' he'

/-- The result of `__pick_smallest_pair`. -/
def PickedFrom (g : Geometry) (st : MergeState δ) : Option (ℕ × Picked) → Prop
  | none => ∀ mm ∈ st.mms, mm.left g = []
  | some (ridx, p) => ∃ mm, Picks g st ridx p mm ∧ mm.isOld st.sc p = false

/-- `__pick_smallest_pair` skips old entries and picks the smallest one that is not. -/
theorem pickSmallestPair_ok (moves : ℕ → Ste → Prop) (fuel : ℕ) :
  ∀ {st st' : MergeState δ} {m : Merging δ} {picked : Option (ℕ × Picked)},
    Sim g blocks st m → pickSmallestPair g fuel st = .ok (picked, st') →
    ∃ m', m.Steps g moves m' ∧ Sim g blocks st' m' ∧ m'.sorted = m.sorted ∧ PickedFrom g st' picked
  := by
  induction fuel with
  | zero =>
      intro st st' m picked _ hok
      cases hok
  | succ fuel ih =>
      intro st st' m picked h hok
      unfold pickSmallestPair at hok
      cases hp : pickSmallest g 0 st.mms with
      | none =>
          simp only [hp, bind_eq_ok, require_eq_ok] at hok
          obtain ⟨-, -, hret⟩ := hok
          cases hret
          refine ⟨m, .refl, h, rfl, ?_⟩
          rcases pickSmallest_spec st.mms h.mms with ⟨-, hall⟩ | ⟨n, mm, q, hsome, -⟩
          · apply hall
          · rw [hsome] at hp
            cases hp
      | some x =>
          obtain ⟨ridx, p⟩ := x
          obtain ⟨mm, hpicks⟩ := pickSmallest_picks h hp
          simp only [hp, bind_eq_ok, orThrow_eq_ok] at hok
          obtain ⟨mm₀, hget, hok⟩ := hok
          cases hpicks.get.symm.trans hget
          split at hok
          · rename_i hold
            rw [bind_eq_ok] at hok
            obtain ⟨st₁, hskip, hrest⟩ := hok
            obtain ⟨m₁, hstep, hsim, hsorted⟩ := skipOld_ok moves h hpicks hold hskip
            obtain ⟨m', hsteps, hsim', hsorted', hfrom⟩ := ih hsim hrest
            use m', .head hstep hsteps, hsim', hsorted'.trans hsorted, hfrom
          · rename_i hold
            cases hok
            use m, .refl, h, rfl, mm, hpicks, Bool.eq_false_iff.mpr hold

/-! ### Taking the smallest entry -/

/-- The pieces that a source drops when an entry is taken. -/
def drops (e : Entry) (own : Bool) (l : List Entry) : List ℕ :=
  if own then [] else (l.filter fun e' => e'.lba = e.lba ∧ e'.psa ≠ e.psa).map (·.psa)

/-- A source that has no entry of the lba drops nothing. -/
theorem drops_none {e : Entry} (own : Bool) {l : List Entry} (h : ∀ e' ∈ l, e'.lba ≠ e.lba) :
  drops e own l = [] ∧ l.filter (fun e' => e'.lba ≠ e.lba) = l
  := by
  constructor
  · rw [drops]
    split
    · rfl
    · rw [List.map_eq_nil_iff, List.filter_eq_nil_iff]
      intro e' he'
      simp [h e' he']
  · rw [List.filter_eq_self]
    intro e' he'
    simp [h e' he']

/-- A source that begins with the lba drops its first entry only. -/
theorem drops_cons {e e₀ : Entry} (own : Bool) {l : List Entry}
    (hasc : (e₀ :: l).Pairwise fun a b => a.lba < b.lba) (heq : e₀.lba = e.lba) :
  drops e own (e₀ :: l) = (if own = false ∧ e₀.psa ≠ e.psa then [e₀.psa] else []) ∧
    (e₀ :: l).filter (fun e' => e'.lba ≠ e.lba) = l
  := by
  have hne : ∀ e' ∈ l, e'.lba ≠ e.lba := by
    intro e' he'
    rw [← heq]
    apply (Nat.ne_of_lt ((List.pairwise_cons.mp hasc).1 e' he')).symm
  obtain ⟨hdrop, hfilter⟩ := drops_none own hne
  constructor
  · cases own with
    | true => simp [drops]
    | false =>
        simp only [drops, Bool.false_eq_true, if_false] at hdrop ⊢
        by_cases hpsa : e₀.psa = e.psa
        · rw [List.filter_cons_of_neg (by simp [hpsa]), hdrop]
          simp [hpsa]
        · rw [List.filter_cons_of_pos (by simp [heq, hpsa]), List.map_cons, hdrop]
          simp [hpsa]
  · rw [List.filter_cons_of_neg (by simp [heq]), hfilter]

/-- `__move_iter` at one source. -/
theorem moveIter_cons_ok {e : Entry} {ridx i : ℕ} {mm : Mm δ} {mms mms' : List (Mm δ)}
    {dev dev' : Dev δ} (hread : mm.Reading g) (hmin : ∀ e' ∈ mm.left g, e.lba ≤ e'.lba)
    (hok : moveIter g e.lba e.psa ridx i (mm :: mms) dev = .ok (mms', dev')) :
  ∃ mm' dev₁ rest, Onward g mm mm' ∧
    mm'.left g = (mm.left g).filter (fun e' => e'.lba ≠ e.lba) ∧
    dev.Clears g (drops e (i == ridx) (mm.left g)) dev₁ ∧
    moveIter g e.lba e.psa ridx (i + 1) mms dev₁ = .ok (rest, dev') ∧ mms' = mm' :: rest
  := by
  have hstay : (∀ e' ∈ mm.left g, e'.lba ≠ e.lba) →
      (moveIter g e.lba e.psa ridx (i + 1) mms dev >>= fun x => .ok (mm :: x.1, x.2))
        = .ok (mms', dev') →
      ∃ mm' dev₁ rest, Onward g mm mm' ∧
        mm'.left g = (mm.left g).filter (fun e' => e'.lba ≠ e.lba) ∧
        dev.Clears g (drops e (i == ridx) (mm.left g)) dev₁ ∧
        moveIter g e.lba e.psa ridx (i + 1) mms dev₁ = .ok (rest, dev') ∧
        mms' = mm' :: rest := by
    intro hne hrest
    rw [bind_eq_ok] at hrest
    obtain ⟨⟨rest, dev₂⟩, hrest, hret⟩ := hrest
    cases hret
    obtain ⟨hdrop, hfilter⟩ := drops_none (i == ridx) hne
    refine ⟨mm, dev, rest, ⟨rfl, hread, rfl, rfl⟩, hfilter.symm, ?_, hrest, rfl⟩
    rw [hdrop]
    exact .nil dev
  unfold moveIter at hok
  cases hd : mm.done with
  | true =>
      simp only [hd, if_true] at hok
      apply hstay _ hok
      rw [hread.done hd]
      simp
  | false =>
      simp only [hd, Bool.false_eq_true, if_false, bind_eq_ok, orThrow_eq_ok] at hok
      obtain ⟨p, hp, hok⟩ := hok
      obtain ⟨e₀, l, hl, hlba⟩ := left_cons_of_pick hread.reads hp
      have hasc := hread.asc
      rw [hl] at hasc
      split at hok
      · rename_i heq
        rw [hlba] at heq
        simp only [bind_eq_ok] at hok
        obtain ⟨dev₁, hdrop, mm', hmove, ⟨rest, dev₂⟩, hrest, hret⟩ := hok
        cases hret
        obtain ⟨hread', hleft', hrun, hnc⟩ := hread.move hl hmove
        obtain ⟨hdrops, hfilter⟩ := drops_cons (i == ridx) hasc heq
        refine ⟨mm', dev₁, rest, ⟨hrun, hread', hnc⟩, ?_, ?_, hrest, rfl⟩
        · rw [hleft', hl, hfilter]
        · obtain ⟨p', hp', -, hpsa, -⟩ := Mm.pick_eq hread.reads hl (ShortcutMaster.init 0)
          cases hp.symm.trans hp'
          rw [hl, hdrops]
          simp only [dropOther, hpsa, hlba] at hdrop
          cases hi : (i == ridx) with
          | true =>
              simp only [bne, hi] at hdrop
              cases hdrop
              exact .nil _
          | false =>
              simp only [bne, hi, Bool.not_false, true_and] at hdrop ⊢
              split at hdrop
              · rename_i hne
                rw [if_pos hne]
                exact .cons (hread.invalidate hl hdrop) (.nil _)
              · rename_i hne
                rw [if_neg hne]
                cases hdrop
                exact .nil _
      · rename_i hne
        apply hstay _ hok
        intro e' he' heq
        have hle := hmin e₀ (by simp [hl])
        rw [hl] at he'
        rw [hlba] at hne
        rcases List.mem_cons.mp he' with rfl | he'
        · apply hne heq
        · have := (List.pairwise_cons.mp hasc).1 e' he'
          omega

/-- `__move_iter` over all sources. -/
theorem moveIter_ok {e : Entry} {ridx : ℕ} (mms : List (Mm δ)) :
  ∀ {i : ℕ} {mms' : List (Mm δ)} {dev dev' : Dev δ}, (∀ mm ∈ mms, mm.Reading g) →
    (∀ mm ∈ mms, ∀ e' ∈ mm.left g, e.lba ≤ e'.lba) →
    moveIter g e.lba e.psa ridx i mms dev = .ok (mms', dev') →
    List.Forall₂ (Onward g) mms mms' ∧
      mms'.map (fun mm => (mm.r.info, mm.left g))
        = (mms.map fun mm => (mm.r.info, mm.left g)).map (Merging.dropLba e.lba) ∧
      dev.Clears g ((mms.zipIdx i).flatMap fun x => drops e (x.2 == ridx) (x.1.left g)) dev'
  := by
  induction mms with
  | nil =>
      intro i mms' dev dev' _ _ hok
      cases hok
      use .nil, rfl, .nil _
  | cons mm mms ih =>
      intro i mms' dev dev' hread hmin hok
      obtain ⟨mm', dev₁, rest, hon, hleft, hclears, hrest, rfl⟩ :=
        moveIter_cons_ok (hread mm (List.mem_cons_self ..)) (hmin mm (List.mem_cons_self ..))
          hok
      obtain ⟨hons, hlefts, hclears'⟩ := ih
        (fun x hx => hread x (List.mem_cons_of_mem _ hx))
        (fun x hx => hmin x (List.mem_cons_of_mem _ hx)) hrest
      refine ⟨.cons hon hons, ?_, ?_⟩
      · rw [List.map_cons, List.map_cons, List.map_cons, hlefts, hleft, hon.run]
        rfl
      · rw [List.zipIdx_cons, List.flatMap_cons]
        apply hclears.append hclears'

/-- The sources that the entry is not from drop their entries of its lba. -/
theorem drops_others {e : Entry} {ridx : ℕ} (mms : List (Mm δ)) :
  ∀ {i : ℕ}, (∀ n, n < mms.length → i + n ≠ ridx) →
    (mms.zipIdx i).flatMap (fun x => drops e (x.2 == ridx) (x.1.left g))
      = Merging.others e (mms.map fun mm => (mm.r.info, mm.left g))
  := by
  induction mms with
  | nil =>
      intro i _
      rfl
  | cons mm mms ih =>
      intro i hne
      have hi : (i == ridx) = false := by
        have := hne 0 (by simp)
        simpa using this
      have hrest := ih (i := i + 1) (by
        intro n hn
        have := hne (n + 1) (by simpa using hn)
        omega)
      rw [List.zipIdx_cons, List.flatMap_cons, hrest, hi]
      rfl

/-- The smallest entry, which is not old, is taken. -/
theorem push_ok (moves : ℕ → Ste → Prop) {ridx : ℕ} {p : Picked} {mm : Mm δ} (h : Sim g blocks st m)
    (hp : Picks g st ridx p mm) (hnew : mm.isOld st.sc p = false)
    (hok : st.push g ridx p = .ok st') :
  ∃ m', m.Step g moves m' ∧ Sim g blocks st' m'
  := by
  have hread := h.mms mm (List.mem_of_getElem? hp.get)
  obtain ⟨e, l, hl, -⟩ := left_cons_of_pick hread.reads hp.pick
  obtain ⟨p', hp', hlba, hpsa, hisOld, horig, horig', -⟩ := Mm.pick_eq hread.reads hl st.sc
  cases hp.pick.symm.trans hp'
  simp only [push, bind_eq_ok] at hok
  obtain ⟨⟨mms, dev⟩, hmove, hret⟩ := hok
  cases hret
  rw [hlba, hpsa] at hmove
  have hmin := hp.min
  rw [hlba] at hmin
  obtain ⟨hons, hlefts, hclears⟩ := moveIter_ok st.mms h.mms hmin hmove
  obtain ⟨ms, ms', heq, hlen, -⟩ := split_at hp.get
  have hsrcs : m.srcs = ms.map (fun mm => (mm.r.info, mm.left g)) ++
      (mm.r.info, e :: l) :: ms'.map (fun mm => (mm.r.info, mm.left g)) := by
    rw [h.srcs, heq, List.map_append, List.map_cons, hl]
  have hdrops : (st.mms.zipIdx 0).flatMap (fun x => drops e (x.2 == ridx) (x.1.left g))
      = Merging.others e (ms.map (fun mm => (mm.r.info, mm.left g)) ++
        ms'.map (fun mm => (mm.r.info, mm.left g))) := by
    rw [heq, List.zipIdx_append, List.zipIdx_cons, List.flatMap_append, List.flatMap_cons,
      Nat.zero_add, hlen]
    rw [drops_others ms (by omega), drops_others ms' (by omega)]
    simp [drops, Merging.others]
  rw [hdrops, ← h.dev] at hclears
  refine ⟨_, Merging.Step.push hsrcs ?_ ?_ hclears, ?_⟩
  · rw [h.sc, ← hisOld]
    apply hnew
  · intro x hx e' he'
    rw [h.srcs] at hx
    obtain ⟨mm', hmm', rfl⟩ := List.mem_map.mp hx
    apply hmin mm' hmm' e' he'
  · have hsim := h.onward hons dev
    have hfilter := (drops_cons false (hl ▸ hread.asc) rfl).2
    have hsrcs' : mms.map (fun mm => (mm.r.info, mm.left g))
        = (ms.map (fun mm => (mm.r.info, mm.left g))).map (Merging.dropLba e.lba) ++
          (mm.r.info, l) ::
            (ms'.map (fun mm => (mm.r.info, mm.left g))).map (Merging.dropLba e.lba) := by
      rw [hlefts, ← h.srcs, hsrcs, List.map_append, List.map_cons, Merging.dropLba, hfilter]
    rw [hsrcs'] at hsim
    refine ⟨hsim.srcs, hsim.sums, hsim.res, hsim.sc, hsim.dev, ?_, hsim.mms, hsim.same,
      hsim.noncopy⟩
    apply List.rel_append hsim.sorted
    refine .cons ⟨hlba, ?_⟩ .nil
    obtain ⟨mm', hmm', hon⟩ := forall₂_getElem?_left hons hp.get
    refine ⟨mm', hmm', ?_, ?_, ?_⟩
    · rw [hon.run]
    · rw [Mm.originalPsa_congr hon.run, hlba]
      apply horig
    · rw [Mm.originalPsa_congr hon.run, hlba]
      apply horig'

/-! ### Sorting -/

/-- The source `ridx` is at the smallest entry, which begins a block that can be moved. -/
structure AtBlock (g : Geometry) (blocks : List (RunType × List Ste)) (st : MergeState δ)
    (ridx j : ℕ) (mm : Mm δ) (p : Picked) (ste : Ste) : Prop where
  picks : Picks g st ridx p mm
  flag : j ∈ mm.ssi.noncopyFlag
  movable : Movable blocks ridx j ste
  start : ste.startLba = p.lba

/-- A source for which the next block need not be copied. -/
def nextNoncopy (mm : Mm δ) : Mm δ :=
  { mm with ssi := { mm.ssi with noncopyIdx := mm.ssi.noncopyIdx + 1 } }

theorem nextNoncopy_onward {mm : Mm δ} (h : mm.Reading g) :
  Onward g mm (nextNoncopy mm)
  := by
  refine ⟨rfl, ⟨?_, h.asc, h.done, h.copied, h.ranged⟩, rfl, rfl⟩
  rcases h.reads with hr | hr
  · left
    use hr.run, hr.type, hr.stes, hr.pages
  · right
    exact ⟨hr.run, hr.type, hr.tree⟩

/-- A step of the index of the blocks that need not be copied changes nothing else. -/
theorem noncopyNext_ok {ridx : ℕ} {p : Picked} {mm : Mm δ} (h : Sim g blocks st m)
    (hp : Picks g st ridx p mm) (hcheck : st.noncopyCheck ridx p.lba = true) :
  Sim g blocks (st.noncopyNext ridx) m ∧
    ∃ j mm' ste, AtBlock g blocks (st.noncopyNext ridx) ridx j mm' p ste
  := by
  have hnext : st.noncopyNext ridx = { st with mms := st.mms.set ridx (nextNoncopy mm) } := by
    rw [noncopyNext, List.modify_eq_set_getElem?, hp.get]
    rfl
  have hread := h.mms mm (List.mem_of_getElem? hp.get)
  rw [hnext]
  constructor
  · obtain ⟨as, bs, hsrcs, hsim⟩ := h.update hp.get (nextNoncopy_onward hread) st.dev
    have hm : { m with srcs := as ++ (mm.r.info, (nextNoncopy mm).left g) :: bs, dev := st.dev }
        = m := by
      rw [← h.dev]
      change { m with srcs := as ++ (mm.r.info, mm.left g) :: bs } = m
      rw [← hsrcs]
    rw [hm] at hsim
    apply hsim
  · simp only [noncopyCheck, hp.get, Option.any_some, SpSetIter.noncopyCheck] at hcheck
    split at hcheck
    · rename_i startLba endLba hget
      obtain ⟨j, hj, ste, hmov, hstart⟩ :=
        (h.noncopy ridx mm hp.get).lba _ (List.mem_of_getElem? hget)
      refine ⟨j, nextNoncopy mm, ste, ⟨?_, hp.pick, ?_⟩, hj, hmov, ?_⟩
      · apply List.getElem?_set_self (List.getElem?_eq_some_iff.mp hp.get).1
      · intro x hx e he
        rcases List.mem_or_eq_of_mem_set hx with hx | rfl
        · apply hp.min x hx e he
        · apply hp.min mm (List.mem_of_getElem? hp.get) e he
      · rw [hstart]
        simpa using hcheck
    · cases hcheck

/-- `__sorting_mm_set` takes entries until it comes to a block that can be moved. -/
theorem sortingMmSet_ok (moves : ℕ → Ste → Prop) {targetRound : ℕ} {flag : Bool}
    (fuel : ℕ) :
  ∀ {st st' : MergeState δ} {m : Merging δ} {prev : Option ℕ} {target : Option ℕ},
    Sim g blocks st m → sortingMmSet g targetRound flag fuel prev st = .ok (target, st') →
    ∃ m', m.Steps g moves m' ∧ Sim g blocks st' m' ∧ ∀ ridx, target = some ridx →
      ∃ j mm p ste, AtBlock g blocks st' ridx j mm p ste
  := by
  induction fuel with
  | zero =>
      intro st st' m prev target _ hok
      cases hok
  | succ fuel ih =>
      intro st st' m prev target h hok
      unfold sortingMmSet at hok
      split at hok
      · cases hok
        use m, .refl, h, nofun
      · rw [bind_eq_ok] at hok
        obtain ⟨⟨picked, st₁⟩, hpick, hok⟩ := hok
        obtain ⟨m₁, hsteps, hsim, -, hfrom⟩ := pickSmallestPair_ok moves _ h hpick
        cases picked with
        | none =>
            obtain ⟨m', hsteps', hsim', htarget⟩ := ih hsim hok
            use m', hsteps.trans hsteps', hsim', htarget
        | some x =>
            obtain ⟨ridx, p⟩ := x
            obtain ⟨mm, hpicks, hnew⟩ := hfrom
            dsimp only at hok
            split at hok
            · rename_i hcheck
              cases hok
              simp only [Bool.and_eq_true] at hcheck
              obtain ⟨hsim', j, mm', ste, hblock⟩ := noncopyNext_ok hsim hpicks hcheck.2
              use m₁, hsteps, hsim'
              intro ridx' hridx
              cases hridx
              exact ⟨j, mm', p, ste, hblock⟩
            · simp only [bind_eq_ok, require_eq_ok] at hok
              obtain ⟨_, -, st₂, hpush, hrest⟩ := hok
              obtain ⟨m₂, hstep, hsim₂⟩ := push_ok moves hsim hpicks hnew hpush
              obtain ⟨m', hsteps', hsim', htarget⟩ := ih hsim₂ hrest
              use m', (hsteps.tail hstep).trans hsteps', hsim', htarget

/-! ### Writing the sorted entries -/

/-- What `__read_merged_data` gives for an entry that has been taken. -/
structure ReadFrom (g : Geometry) (st : MergeState δ) (x : SortedPair × ℕ × δ)
    (y : ℕ × Entry) : Prop where
  lba : x.1.lba = y.2.lba
  psa : x.2.1 = y.2.psa
  data : x.2.2 = st.dev.data y.2.psa
  pending : Pending g st.mms x.1 y

theorem readSorted_ok {p : SortedPair} {x : SortedPair × ℕ × δ} {y : ℕ × Entry}
    (hp : Pending g st.mms p y) (hok : readSorted g st p = .ok x) :
  ReadFrom g st x y
  := by
  have hp' := hp
  obtain ⟨hlba, mm, hget, -, horig, -⟩ := hp
  simp only [readSorted, bind_eq_ok, orThrow_eq_ok] at hok
  obtain ⟨mm₀, hget₀, psa, hpsa, hret⟩ := hok
  cases hget.symm.trans hget₀
  cases horig.symm.trans hpsa
  cases hret
  exact ⟨hlba, rfl, rfl, hp'⟩

theorem readAll_ok {arr : List SortedPair} {ys : List (ℕ × Entry)}
    (hp : List.Forall₂ (Pending g st.mms) arr ys) :
  ∀ {xs : List (SortedPair × ℕ × δ)}, arr.mapM (readSorted g st) = .ok xs →
    List.Forall₂ (ReadFrom g st) xs ys
  := by
  intro xs hok
  have hread := mapM_eq_ok hok
  clear hok
  induction hread generalizing ys with
  | nil =>
      cases hp
      exact .nil
  | cons hx _ ih =>
      cases hp with
      | cons hpy hpys => exact .cons (readSorted_ok hpy hx) (ih hpys)

theorem invalidateSorted_ok {x : SortedPair × ℕ × δ} {y : ℕ × Entry} {dev dev' : Dev δ}
    (hx : ReadFrom g st x y) (hok : invalidateSorted g st dev x = .ok dev') :
  dev.Invalidates g dev' y.2.psa
  := by
  obtain ⟨-, mm, hget, -, -, horig⟩ := hx.pending
  simp only [invalidateSorted, Mm.invalidateTarget, bind_eq_ok, orThrow_eq_ok] at hok
  obtain ⟨mm₀, hget₀, psa, hpsa, hdev⟩ := hok
  cases hget.symm.trans hget₀
  rw [hx.psa] at hpsa
  cases horig.symm.trans hpsa
  apply (Dev.invalidatePiecePpa_ok hdev).1

theorem invalidateAll_ok {xs : List (SortedPair × ℕ × δ)} {ys : List (ℕ × Entry)}
    (hxs : List.Forall₂ (ReadFrom g st) xs ys) :
  ∀ {dev dev' : Dev δ}, xs.foldlM (invalidateSorted g st) dev = .ok dev' →
    dev.Clears g (ys.map (·.2.psa)) dev'
  := by
  induction hxs with
  | nil =>
      intro dev dev' hok
      cases hok
      exact .nil _
  | cons hx _ ih =>
      intro dev dev' hok
      rw [List.foldlM_cons, bind_eq_ok] at hok
      obtain ⟨dev₁, hdev₁, hrest⟩ := hok
      exact .cons (invalidateSorted_ok hx hdev₁) (ih hrest)

/-- The second loop of `__write_merged_data` is a sequence of inserts. -/
theorem foldlM_insertSorted (xs : List (SortedPair × ℕ × δ)) :
  ∀ (s : Run δ × ShortcutMaster × Dev δ), xs.foldlM (insertSorted g) s
    = Run.insertAll g (xs.map fun x => (x.1.lba, x.2.2)) s.1 s.2.1 s.2.2
  := by
  induction xs with
  | nil =>
      intro s
      rfl
  | cons x xs ih =>
      intro s
      rw [List.foldlM_cons, List.map_cons, Run.insertAll]
      congr 1
      funext s'
      apply ih

/-- What is written is what has been taken. -/
theorem map_readFrom {xs : List (SortedPair × ℕ × δ)} {ys : List (ℕ × Entry)}
    (hxs : List.Forall₂ (ReadFrom g st) xs ys) :
  xs.map (fun x => x.1.lba) = ys.map (·.2.lba) ∧
    xs.map (fun x => (x.1.lba, x.2.2)) = ys.map fun y => (y.2.lba, st.dev.data y.2.psa)
  := by
  induction hxs with
  | nil => exact ⟨rfl, rfl⟩
  | cons hx _ ih =>
      simp only [List.map_cons, hx.lba, hx.data, ih.1, ih.2, and_self]

/-- The entries that have been taken are written to the target. -/
theorem sortedArrayFlush_ok (moves : ℕ → Ste → Prop) (h : Sim g blocks st m)
    (hok : st.sortedArrayFlush g = .ok st') :
  ∃ m', m.Step g moves m' ∧ Sim g blocks st' m' ∧ m'.sorted = [] ∧ st'.mms = st.mms
  := by
  simp only [sortedArrayFlush, bind_eq_ok] at hok
  obtain ⟨xs, hxs, dev, hdev, ⟨res, sc, dev'⟩, hins, sc', hlink, hret⟩ := hok
  cases hret
  have hread := readAll_ok h.sorted hxs
  have hclears := invalidateAll_ok hread hdev
  rw [foldlM_insertSorted] at hins
  obtain ⟨hlbas, hpairs⟩ := map_readFrom hread
  rw [hlbas] at hlink
  rw [hpairs, ← h.res, ← h.sc, ← h.dev] at hins
  rw [← h.dev] at hclears
  refine ⟨_, Merging.Step.flush hclears hins hlink, ?_, rfl, rfl⟩
  use h.srcs, h.sums, rfl, rfl, rfl, .nil, h.mms, h.same, h.noncopy

theorem flushSorted_ok (moves : ℕ → Ste → Prop) (h : Sim g blocks st m)
    (hok : st.flushSorted g = .ok st') :
  ∃ m', m.Steps g moves m' ∧ Sim g blocks st' m' ∧ m'.sorted = [] ∧ st'.mms = st.mms
  := by
  unfold flushSorted at hok
  split at hok
  · rename_i hnil
    cases hok
    refine ⟨m, .refl, h, ?_, rfl⟩
    have hsorted := h.sorted
    rw [hnil] at hsorted
    apply List.forall₂_nil_left_iff.mp hsorted
  · obtain ⟨m', hstep, hsim, hsorted, hmms⟩ := sortedArrayFlush_ok moves h hok
    use m', .single hstep, hsim, hsorted, hmms

end MergeState

end AppL
