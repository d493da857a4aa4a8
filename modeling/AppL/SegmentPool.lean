import Mathlib.Data.List.Count
import Mathlib.Data.Finset.Card
import Mathlib.Order.Interval.Finset.Nat
import AppL.BlockManager

/-!
# The places of the segments

A segment is free, or it is in the heap of possible victims, or a user of the block manager
holds it: as a reserve, or as a victim that the garbage collection has taken out of the heap.
The calls of the block manager move segments from one place to another.
-/

namespace AppL

open Transition

/-- The types of `get_segment`. -/
inductive SegUse where
  | reserve
  | active
  deriving DecidableEq, Repr

/-- The block manager, with the segments that its user holds. -/
structure SegmentPool where
  bm : BlockManager
  reserves : List ℕ
  popped : List ℕ

/-- The calls of the block manager.  A call of `get_gc_target` says which of the segments with
the largest count the heap gives. -/
inductive SegmentOp where
  | getSegment (use : SegUse)
  | changeReserveToActive (s : ℕ)
  | getGcTarget (target : ℕ)
  | insertGcTarget (s : ℕ)
  | trimSegment (s : ℕ)
  | bitSet (piecePpa : ℕ)
  | bitUnset (piecePpa : ℕ)
  | setOob (lbas : List ℕ) (ppa : ℕ)
  | getPageAddr (s : ℕ)
  deriving DecidableEq, Repr

namespace SegmentPool

variable (g : Geometry) (cnt : Segment → ℤ)

/-- The pool after `sbm_create`. -/
def create : SegmentPool := ⟨BlockManager.create g, [], []⟩

/-- One call.  A reserve that becomes active has to be one, and a segment that goes back to the
heap or is erased has to be a victim. -/
def step (p : SegmentPool) : SegmentOp → Except Abort SegmentPool
  | .getSegment .reserve => do
      let (s, bm) ← p.bm.getSegReserve
      return { p with bm := bm, reserves := s :: p.reserves }
  | .getSegment .active => do
      let (_, bm) ← p.bm.getSegActive
      return { p with bm := bm }
  | .changeReserveToActive s => do
      require .wrongPhase (s ∈ p.reserves)
      return { p with bm := p.bm.changeReserveToActive s, reserves := p.reserves.erase s }
  | .getGcTarget target => do
      let bm ← p.bm.getGcTarget g cnt target
      return { p with bm := bm, popped := target :: p.popped }
  | .insertGcTarget s => do
      require .wrongPhase (s ∈ p.popped)
      return { p with bm := p.bm.insertGcTarget s, popped := p.popped.erase s }
  | .trimSegment s => do
      require .wrongPhase (s ∈ p.popped)
      return { p with bm := p.bm.trimSegment g s, popped := p.popped.erase s }
  | .bitSet q => .ok { p with bm := (p.bm.bitSet g q).2 }
  | .bitUnset q => .ok { p with bm := (p.bm.bitUnset g q).2 }
  | .setOob lbas ppa => .ok { p with bm := p.bm.setOob lbas ppa }
  | .getPageAddr s => do
      let (_, bm) ← p.bm.getPageAddr g s
      return { p with bm := bm }

/-- The segments of all places. -/
def places (p : SegmentPool) : List ℕ :=
  p.bm.freeSegmentQ ++ p.bm.maxHeap ++ p.reserves ++ p.popped

/-- `p'` is reached from `p` by calls of the block manager. -/
def Reaches (p p' : SegmentPool) : Prop := ∃ ops, run (step g cnt) p ops = .ok p'

variable {g cnt} {p p' : SegmentPool}

/-! ### One call -/

/-- The calls that change no place. -/
theorem getPageAddr_places {bm bm' : BlockManager} {s : ℕ} {page : Option ℕ}
    (h : bm.getPageAddr g s = .ok (page, bm')) :
  bm'.freeSegmentQ = bm.freeSegmentQ ∧ bm'.maxHeap = bm.maxHeap
  := by
  unfold BlockManager.getPageAddr at h
  extract_lets seg bptr b next res at h
  split at h
  · cases h
    exact ⟨rfl, rfl⟩
  · split at h
    · cases h
    · cases h
      exact ⟨rfl, rfl⟩

theorem getSegReserve_ok {bm bm' : BlockManager} {s : ℕ} (h : bm.getSegReserve = .ok (s, bm')) :
  bm.freeSegmentQ = s :: bm'.freeSegmentQ ∧ bm'.maxHeap = bm.maxHeap
  := by
  unfold BlockManager.getSegReserve at h
  split at h
  · cases h
  · rename_i hq
    cases h
    exact ⟨hq, rfl⟩

theorem getSegActive_ok {bm bm' : BlockManager} {s : ℕ} (h : bm.getSegActive = .ok (s, bm')) :
  bm.freeSegmentQ = s :: bm'.freeSegmentQ ∧ bm'.maxHeap = bm.maxHeap ++ [s]
  := by
  unfold BlockManager.getSegActive at h
  split at h
  · cases h
  · rename_i hq
    cases h
    exact ⟨hq, rfl⟩

theorem getGcTarget_ok {bm bm' : BlockManager} {t : ℕ} (h : bm.getGcTarget g cnt t = .ok bm') :
  t ∈ bm.maxHeap ∧ bm'.freeSegmentQ = bm.freeSegmentQ ∧ bm'.maxHeap = bm.maxHeap.erase t
  := by
  simp only [BlockManager.getGcTarget, bind_eq_ok, require_eq_ok] at h
  obtain ⟨_, ⟨hmem, -⟩, _, -, hret⟩ := h
  cases hret
  exact ⟨hmem, rfl, rfl⟩

/-- How often a segment is in the places. -/
theorem count_places (s : ℕ) :
  p.places.count s = p.bm.freeSegmentQ.count s + p.bm.maxHeap.count s + p.reserves.count s
    + p.popped.count s
  := by simp only [places, List.count_append]

theorem count_erase {l : List ℕ} {a : ℕ} (h : a ∈ l) (s : ℕ) :
  l.count s = (l.erase a).count s + [a].count s
  := by
  rw [(List.perm_cons_erase h).count_eq, List.count_cons, List.count_singleton]

/-- A call moves segments between the places, and neither loses nor doubles one. -/
theorem step_places {op : SegmentOp} (h : step g cnt p op = .ok p') :
  p'.places.Perm p.places
  := by
  rw [List.perm_iff_count]
  intro s
  rw [count_places, count_places]
  cases op with
  | getSegment use =>
      cases use with
      | reserve =>
          simp only [step, bind_eq_ok] at h
          obtain ⟨⟨t, bm⟩, hget, hret⟩ := h
          cases hret
          obtain ⟨hq, hheap⟩ := getSegReserve_ok hget
          simp only [hq, hheap, List.count_cons]
          omega
      | active =>
          simp only [step, bind_eq_ok] at h
          obtain ⟨⟨t, bm⟩, hget, hret⟩ := h
          cases hret
          obtain ⟨hq, hheap⟩ := getSegActive_ok hget
          simp only [hq, hheap, List.count_cons, List.count_append, List.count_nil]
          omega
  | changeReserveToActive t =>
      simp only [step, bind_eq_ok, require_eq_ok] at h
      obtain ⟨_, hmem, hret⟩ := h
      cases hret
      rw [count_erase hmem s]
      simp only [BlockManager.changeReserveToActive, List.count_append]
      omega
  | getGcTarget t =>
      simp only [step, bind_eq_ok] at h
      obtain ⟨bm, hget, hret⟩ := h
      cases hret
      obtain ⟨hmem, hq, hheap⟩ := getGcTarget_ok hget
      rw [count_erase hmem s]
      simp only [hq, hheap, List.count_cons, List.count_nil]
      omega
  | insertGcTarget t =>
      simp only [step, bind_eq_ok, require_eq_ok] at h
      obtain ⟨_, hmem, hret⟩ := h
      cases hret
      rw [count_erase hmem s]
      simp only [BlockManager.insertGcTarget, List.count_append]
      omega
  | trimSegment t =>
      simp only [step, bind_eq_ok, require_eq_ok] at h
      obtain ⟨_, hmem, hret⟩ := h
      cases hret
      rw [count_erase hmem s]
      simp only [BlockManager.trimSegment, List.count_append]
      omega
  | bitSet q =>
      cases h
      rfl
  | bitUnset q =>
      cases h
      rfl
  | setOob lbas ppa =>
      cases h
      rfl
  | getPageAddr t =>
      simp only [step, bind_eq_ok] at h
      obtain ⟨⟨page, bm⟩, hget, hret⟩ := h
      cases hret
      obtain ⟨hq, hheap⟩ := getPageAddr_places hget
      simp only [hq, hheap]

/-- A segment that is not free becomes free by being erased only. -/
theorem step_notMem_free {op : SegmentOp} {s : ℕ} (hop : op ≠ .trimSegment s)
    (hs : s ∉ p.bm.freeSegmentQ) (h : step g cnt p op = .ok p') :
  s ∉ p'.bm.freeSegmentQ
  := by
  cases op with
  | getSegment use =>
      cases use with
      | reserve =>
          simp only [step, bind_eq_ok] at h
          obtain ⟨⟨t, bm⟩, hget, hret⟩ := h
          cases hret
          rw [(getSegReserve_ok hget).1] at hs
          exact fun hmem => hs (List.mem_cons_of_mem _ hmem)
      | active =>
          simp only [step, bind_eq_ok] at h
          obtain ⟨⟨t, bm⟩, hget, hret⟩ := h
          cases hret
          rw [(getSegActive_ok hget).1] at hs
          exact fun hmem => hs (List.mem_cons_of_mem _ hmem)
  | changeReserveToActive t =>
      simp only [step, bind_eq_ok, require_eq_ok] at h
      obtain ⟨_, -, hret⟩ := h
      cases hret
      apply hs
  | getGcTarget t =>
      simp only [step, bind_eq_ok] at h
      obtain ⟨bm, hget, hret⟩ := h
      cases hret
      rw [(getGcTarget_ok hget).2.1]
      apply hs
  | insertGcTarget t =>
      simp only [step, bind_eq_ok, require_eq_ok] at h
      obtain ⟨_, -, hret⟩ := h
      cases hret
      apply hs
  | trimSegment t =>
      simp only [step, bind_eq_ok, require_eq_ok] at h
      obtain ⟨_, -, hret⟩ := h
      cases hret
      simp only [BlockManager.trimSegment, List.mem_append, List.mem_singleton, not_or]
      use hs
      rintro rfl
      apply hop rfl
  | bitSet q =>
      cases h
      apply hs
  | bitUnset q =>
      cases h
      apply hs
  | setOob lbas ppa =>
      cases h
      apply hs
  | getPageAddr t =>
      simp only [step, bind_eq_ok] at h
      obtain ⟨⟨page, bm⟩, hget, hret⟩ := h
      cases hret
      rw [(getPageAddr_places hget).1]
      apply hs

/-! ### Runs -/

/-- In every state of a run, the places hold every segment of the device once. -/
theorem run_places {ops : List SegmentOp} (h : run (step g cnt) (create g) ops = .ok p) :
  p.places.Perm (List.range g.nos)
  := by
  apply run_history (fun _ p => p.places.Perm (List.range g.nos)) _ _ h
  · intro _ p op p' hp hstep
    apply (step_places hstep).trans hp
  · simp [create, places, BlockManager.create]

/-- A segment that has been handed out is not free until it is erased. -/
theorem run_notMem_free {ops : List SegmentOp} {s : ℕ} (hops : .trimSegment s ∉ ops)
    (hs : s ∉ p.bm.freeSegmentQ) (h : run (step g cnt) p ops = .ok p') :
  s ∉ p'.bm.freeSegmentQ
  := by
  apply run_preserves (G := fun _ op => op ≠ .trimSegment s)
    (fun p => s ∉ p.bm.freeSegmentQ) _ hs _ h
  · intro p op p' hp hop hstep
    apply step_notMem_free hop hp hstep
  · apply guarded_of_forall
    rintro op hop _ rfl
    apply hops hop

/-- Every segment of the device is in exactly one place. -/
def OnePlace (g : Geometry) (p : SegmentPool) : Prop :=
  ∀ s < g.nos, p.bm.freeSegmentQ.count s + p.bm.maxHeap.count s + p.reserves.count s
    + p.popped.count s = 1

/-- A segment that `get_segment` hands out was in no other place than the free queue, and it is
not in the queue again before it is erased. -/
def HandsOutOnce (g : Geometry) (cnt : Segment → ℤ) (p : SegmentPool) : Prop :=
  ∀ use p', step g cnt p (.getSegment use) = .ok p' →
    ∃ s, p.bm.freeSegmentQ = s :: p'.bm.freeSegmentQ ∧ s ∉ p.bm.maxHeap ∧ s ∉ p.reserves ∧
      s ∉ p.popped ∧
      ∀ calls p'', .trimSegment s ∉ calls → run (step g cnt) p' calls = .ok p'' →
        s ∉ p''.bm.freeSegmentQ

/-- `total_free_page_num` counts the segments of the free queue, each of them once. -/
def CountsFree (g : Geometry) (p : SegmentPool) : Prop :=
  ∀ seg, p.bm.totalFreePageNum g seg
    = ((Finset.range g.nos).filter fun s => s ∈ p.bm.freeSegmentQ).card * g.pps
      + (seg.map fun s => g.pps - (p.bm.segment s).usedPageNum).getD 0

theorem onePlace_of_perm (h : p.places.Perm (List.range g.nos)) :
  p.OnePlace g
  := by
  intro s hs
  rw [← count_places, h.count_eq]
  apply List.count_eq_one_of_mem List.nodup_range (List.mem_range.mpr hs)

/-- The result of `get_segment` is the head of the free queue. -/
theorem getSegment_head {use : SegUse} (h : step g cnt p (.getSegment use) = .ok p') :
  ∃ s, p.bm.freeSegmentQ = s :: p'.bm.freeSegmentQ
  := by
  cases use with
  | reserve =>
      simp only [step, bind_eq_ok] at h
      obtain ⟨⟨t, bm⟩, hget, hret⟩ := h
      cases hret
      use t, (getSegReserve_ok hget).1
  | active =>
      simp only [step, bind_eq_ok] at h
      obtain ⟨⟨t, bm⟩, hget, hret⟩ := h
      cases hret
      use t, (getSegActive_ok hget).1

theorem handsOutOnce_of_perm (h : p.places.Perm (List.range g.nos)) :
  p.HandsOutOnce g cnt
  := by
  intro use p' hstep
  obtain ⟨s, hq⟩ := getSegment_head hstep
  have hmem : s ∈ List.range g.nos := by
    rw [← h.mem_iff, places, hq]
    simp
  have hone := onePlace_of_perm h s (List.mem_range.mp hmem)
  rw [hq, List.count_cons_self] at hone
  refine ⟨s, hq, ?_, ?_, ?_, ?_⟩
  · rw [← List.count_eq_zero]
    omega
  · rw [← List.count_eq_zero]
    omega
  · rw [← List.count_eq_zero]
    omega
  · intro calls p'' hcalls hrun
    apply run_notMem_free hcalls _ hrun
    rw [← List.count_eq_zero]
    omega

theorem countsFree_of_perm (h : p.places.Perm (List.range g.nos)) :
  p.CountsFree g
  := by
  have hsub : p.bm.freeSegmentQ.Sublist p.places := by
    rw [places, List.append_assoc, List.append_assoc]
    apply List.sublist_append_left ..
  have hnodup : p.bm.freeSegmentQ.Nodup :=
    hsub.nodup (h.nodup_iff.mpr List.nodup_range)
  have hset : ((Finset.range g.nos).filter fun s => s ∈ p.bm.freeSegmentQ)
      = p.bm.freeSegmentQ.toFinset := by
    ext s
    rw [Finset.mem_filter, Finset.mem_range, List.mem_toFinset]
    constructor
    · rintro ⟨-, hs⟩
      apply hs
    · intro hs
      use List.mem_range.mp (h.mem_iff.mp (hsub.mem hs)), hs
  intro seg
  rw [hset, List.toFinset_card_of_nodup hnodup]
  cases seg with
  | none => rfl
  | some s => rfl

/-- The queue, which takes no more than `_NOS` segments, and the heap are never full. -/
theorem length_places_le (h : p.places.Perm (List.range g.nos)) :
  p.bm.freeSegmentQ.length + p.bm.maxHeap.length ≤ g.nos
  := by
  have hlen := h.length_eq
  simp only [places, List.length_append, List.length_range] at hlen
  omega

theorem Reaches.refl (p : SegmentPool) :
  p.Reaches g cnt p
  := ⟨[], rfl⟩

theorem run_append {ops ops' : List SegmentOp} {p'' : SegmentPool}
    (h : run (step g cnt) p ops = .ok p') (h' : run (step g cnt) p' ops' = .ok p'') :
  run (step g cnt) p (ops ++ ops') = .ok p''
  := by
  induction ops generalizing p with
  | nil =>
      cases h
      apply h'
  | cons op ops ih =>
      obtain ⟨p₁, hstep, hrest⟩ := run_cons_eq_ok.mp h
      apply run_cons_eq_ok.mpr ⟨p₁, hstep, ih hrest⟩

theorem Reaches.trans {p'' : SegmentPool} (h : p.Reaches g cnt p') (h' : p'.Reaches g cnt p'') :
  p.Reaches g cnt p''
  := by
  obtain ⟨ops, hops⟩ := h
  obtain ⟨ops', hops'⟩ := h'
  use ops ++ ops', run_append hops hops'

theorem Reaches.single {op : SegmentOp} (h : step g cnt p op = .ok p') :
  p.Reaches g cnt p'
  := ⟨[op], run_cons_eq_ok.mpr ⟨p', h, rfl⟩⟩

end SegmentPool

end AppL
