import Mathlib.Data.Fintype.Pigeonhole
import AppL.Settings
import AppL.Lib.Transition

/-!
# The owners of a fragmented block

A block of pinned runs may hold sectors of several runs.  `frag_info` is a word of 64 bits, one
for each sid, that `L2PBm_block_fragment` and `L2PBm_block_mixed_check_and_set` set and that
`__processing_unlinked_psa` tests, when it looks for the run that an unlinked sector belongs to.
All three shift the constant `1`, an `int` of 32 bits.  The shift takes its count modulo 32, as
the instruction for it does, and the result is extended with its sign to 64 bits.
-/

namespace AppL

open Transition

/-- The types of blocks. -/
inductive FragBlockType where
  | lsmBlockEmpty
  | lsmBlockSummary
  | lsmBlockNormal
  | lsmBlockFragment
  | lsmBlockMixed
  deriving DecidableEq, Repr

/-- `block_info`, of a block that may hold sectors of pinned runs. -/
structure FragBlockInfo where
  sid : BitVec 32
  intraIdx : BitVec 32
  type : FragBlockType
  fragInfo : BitVec 64
  deriving DecidableEq, Repr

/-- `MAX_RUN_NUM_FOR_FRAG`. -/
def maxRunNumForFrag : ℕ := 64

/-- `NO_MAP`. -/
def noMap : BitVec 32 := BitVec.allOnes 32

/-- The mask of a sid, when `shl k` is the value of `1<<k`. -/
def fragMaskOf (shl : ℕ → BitVec 32) (k : ℕ) : BitVec 64 := (shl k).signExtend 64

/-- `1<<k`. -/
def shiftOne (k : ℕ) : BitVec 32 := 1#32 <<< (k % 32)

/-- The operand of `frag_info|=(1<<sid)` and of `frag_info & (1<<k)`. -/
def fragMask (k : ℕ) : BitVec 64 := fragMaskOf shiftOne k

/-- `PBA_map`. -/
abbrev PbaMap := ℕ → FragBlockInfo

namespace PbaMap

variable (g : Geometry) (m : PbaMap)

/-- The table of `L2PBm_init`: all bytes are set, and the type is written over them. -/
def init : PbaMap := fun _ =>
  { sid := BitVec.allOnes 32
    intraIdx := BitVec.allOnes 32
    type := .lsmBlockEmpty
    fragInfo := BitVec.allOnes 64 }

/-- `L2PBm_clear_block_info`. -/
def clearBlockInfo (bidx : ℕ) : PbaMap :=
  Function.update m bidx
    { sid := noMap, intraIdx := noMap, type := .lsmBlockEmpty, fragInfo := 0 }

/-- `L2PBm_make_map`. -/
def makeMap (pba : ℕ) (sid intraIdx : BitVec 32) : Except Abort PbaMap := do
  require .mappingNotEmpty ((m (pba / g.ppb)).sid = noMap)
  return Function.update m (pba / g.ppb)
    { m (pba / g.ppb) with sid := sid, intraIdx := intraIdx, type := .lsmBlockNormal }

/-- `L2PBm_make_map_mixed`. -/
def makeMapMixed (pba : ℕ) (sid intraIdx : BitVec 32) (fragInfo : BitVec 64) :
    Except Abort PbaMap := do
  require .mappingNotEmpty ((m (pba / g.ppb)).sid = noMap)
  return Function.update m (pba / g.ppb)
    { sid := sid, intraIdx := intraIdx, type := .lsmBlockMixed, fragInfo := fragInfo }

/-- `L2PBm_move_owner`. -/
def moveOwner (pba : ℕ) (sid intraIdx : BitVec 32) (type : FragBlockType) :
    Except Abort PbaMap := do
  require .mappingEmpty ((m (pba / g.ppb)).sid ≠ noMap)
  require .notNormalBlock
    ((m (pba / g.ppb)).type = .lsmBlockNormal ∨ (m (pba / g.ppb)).type = .lsmBlockMixed)
  return Function.update m (pba / g.ppb)
    { m (pba / g.ppb) with sid := sid, intraIdx := intraIdx, type := type }

/-- `L2PBm_block_fragment`. -/
def blockFragment (pba sid : ℕ) : PbaMap :=
  let info := m (pba / g.ppb)
  let info :=
    if info.type ≠ .lsmBlockMixed then
      { info with sid := noMap, intraIdx := noMap, type := .lsmBlockFragment }
    else
      info
  Function.update m (pba / g.ppb) { info with fragInfo := info.fragInfo ||| fragMask sid }

/-- `L2PBm_block_mixed_check_and_set`. -/
def blockMixedCheckAndSet (pba sid : ℕ) : PbaMap :=
  let info := m (pba / g.ppb)
  let info :=
    if info.type = .lsmBlockNormal then { info with type := .lsmBlockMixed } else info
  Function.update m (pba / g.ppb) { info with fragInfo := info.fragInfo ||| fragMask sid }

end PbaMap

/-- The calls that change the table.  The garbage collection gives `L2PBm_make_map_mixed` the
`frag_info` of the block `fromBidx`, whose sectors it has copied. -/
inductive PbaMapOp where
  | clearBlockInfo (bidx : ℕ)
  | makeMap (pba : ℕ) (sid intraIdx : BitVec 32)
  | makeMapMixed (pba : ℕ) (sid intraIdx : BitVec 32) (fromBidx : ℕ)
  | moveOwner (pba : ℕ) (sid intraIdx : BitVec 32) (type : FragBlockType)
  | blockFragment (pba sid : ℕ)
  | blockMixedCheckAndSet (pba sid : ℕ)
  deriving DecidableEq, Repr

namespace PbaMap

/-- One call. -/
def step (g : Geometry) (m : PbaMap) : PbaMapOp → Except Abort PbaMap
  | .clearBlockInfo bidx => .ok (m.clearBlockInfo bidx)
  | .makeMap pba sid intraIdx => m.makeMap g pba sid intraIdx
  | .makeMapMixed pba sid intraIdx fromBidx =>
      m.makeMapMixed g pba sid intraIdx (m fromBidx).fragInfo
  | .moveOwner pba sid intraIdx type => m.moveOwner g pba sid intraIdx type
  | .blockFragment pba sid => .ok (m.blockFragment g pba sid)
  | .blockMixedCheckAndSet pba sid => .ok (m.blockMixedCheckAndSet g pba sid)

/-- The table after a sequence of calls. -/
def exec (g : Geometry) (ops : List PbaMapOp) : Except Abort PbaMap := run (step g) init ops

end PbaMap

/-! ### The loop over the sids -/

/-- The sids that the loop of `__processing_unlinked_psa` does not skip. -/
def FragBlockInfo.visited (binfo : FragBlockInfo) : List ℕ :=
  (List.range maxRunNumForFrag).filter fun k => binfo.fragInfo &&& fragMask k ≠ 0

/-- `__processing_unlinked_psa`: the first run that is visited and holds the sector, with the
place of the sector in it.  `find k` is the result of `run_find_include_address_byself` for the
run with the sid `k`, and nothing when there is no such run.  Without a result the code stops,
except for a mixed block. -/
def FragBlockInfo.processingUnlinkedPsa {α : Type} (binfo : FragBlockInfo)
    (find : ℕ → Option α) (mixed : Bool) : Except String (Option (ℕ × α)) :=
  match binfo.visited.findSome? fun k => (find k).map (k, ·) with
  | some res => .ok (some res)
  | none => if mixed then .ok none else .error "unlinking psa failed"

/-! ### What is recorded -/

/-- The sids that are recorded for each block since it was cleared, and nothing for a block that
has never been cleared. -/
abbrev FragOwners := ℕ → Option (Finset ℕ)

namespace FragOwners

/-- A sid is recorded for a block. -/
def record (o : FragOwners) (bidx sid : ℕ) : FragOwners :=
  Function.update o bidx ((o bidx).map (insert sid))

/-- The effect of a call on what is recorded. -/
def step (g : Geometry) (o : FragOwners) : PbaMapOp → FragOwners
  | .clearBlockInfo bidx => Function.update o bidx (some ∅)
  | .makeMap _ _ _ => o
  | .makeMapMixed pba _ _ fromBidx => Function.update o (pba / g.ppb) (o fromBidx)
  | .moveOwner _ _ _ _ => o
  | .blockFragment pba sid => o.record (pba / g.ppb) sid
  | .blockMixedCheckAndSet pba sid => o.record (pba / g.ppb) sid

/-- What a sequence of calls records. -/
def exec (g : Geometry) (ops : List PbaMapOp) : FragOwners :=
  ops.foldl (step g) fun _ => none

end FragOwners

/-! ### Masks -/

/-- Two words have a common bit. -/
theorem and_ne_zero_iff {w : ℕ} {x y : BitVec w} :
  x &&& y ≠ 0#w ↔ ∃ i, x.getLsbD i = true ∧ y.getLsbD i = true
  := by
  constructor
  · intro h
    by_contra hnone
    push Not at hnone
    apply h
    apply BitVec.eq_of_getLsbD_eq
    intro i _
    have hi := hnone i
    grind
  · rintro ⟨i, hx, hy⟩ h
    have hi : (x &&& y).getLsbD i = true := by simp [hx, hy]
    rw [h] at hi
    simp at hi

/-- Extending with the sign adds no common bit where there was none. -/
theorem fragMaskOf_meet (shl : ℕ → BitVec 32) (j k : ℕ) :
  fragMaskOf shl j &&& fragMaskOf shl k ≠ 0 ↔ shl j &&& shl k ≠ 0
  := by
  constructor
  · intro h
    obtain ⟨i, hj, hk⟩ := and_ne_zero_iff.mp h
    simp only [fragMaskOf, BitVec.getLsbD_signExtend, Bool.and_eq_true] at hj hk
    apply and_ne_zero_iff.mpr
    by_cases hi : i < 32
    · use i, by simpa [hi] using hj.2, by simpa [hi] using hk.2
    · rw [if_neg hi, BitVec.msb_eq_getLsbD_last] at hj hk
      use 31, hj.2, hk.2
  · intro h
    obtain ⟨i, hj, hk⟩ := and_ne_zero_iff.mp h
    have hi := BitVec.lt_of_getLsbD hj
    apply and_ne_zero_iff.mpr
    use i
    simp only [fragMaskOf, BitVec.getLsbD_signExtend, hi, if_true, hj, hk]
    simp
    omega

/-- The masks of two sids have a common bit when the sids are equal modulo 32. -/
theorem fragMask_meet (j k : ℕ) :
  fragMask j &&& fragMask k ≠ 0 ↔ j % 32 = k % 32
  := by
  rw [fragMask, fragMask, fragMaskOf_meet]
  constructor
  · intro h
    obtain ⟨i, hj, hk⟩ := and_ne_zero_iff.mp h
    simp only [shiftOne, BitVec.getLsbD_shiftLeft, BitVec.getLsbD_one] at hj hk
    grind
  · intro h
    apply and_ne_zero_iff.mpr
    use j % 32
    have hj : j % 32 < 32 := Nat.mod_lt _ (by decide)
    constructor
    · simp [shiftOne, hj]
    · simp [shiftOne, ← h, hj]

/-- The sids of 64 runs cannot be told apart by shifts of 32 bits: whatever `1<<k` is where the
count is not below 32, there is a sid whose mask has no bit or has one with the mask of another
sid. -/
theorem fragMaskOf_not_exact (shl : ℕ → BitVec 32) :
  ¬ ∀ j < maxRunNumForFrag, ∀ k < maxRunNumForFrag,
    (fragMaskOf shl j &&& fragMaskOf shl k ≠ 0 ↔ k = j)
  := by
  intro h
  have hbit : ∀ j : Fin maxRunNumForFrag, ∃ i : Fin 32, (shl j).getLsbD i = true := by
    intro j
    have hj := (fragMaskOf_meet shl j j).mp ((h j j.isLt j j.isLt).mpr rfl)
    obtain ⟨i, hi, -⟩ := and_ne_zero_iff.mp hj
    use ⟨i, BitVec.lt_of_getLsbD hi⟩, hi
  choose bit hbit using hbit
  obtain ⟨j, k, hne, heq⟩ :=
    Fintype.exists_ne_map_eq_of_card_lt bit (by rw [Fintype.card_fin, Fintype.card_fin]; decide)
  apply hne
  have hmeet : fragMaskOf shl j &&& fragMaskOf shl k ≠ 0 := by
    rw [fragMaskOf_meet]
    exact and_ne_zero_iff.mpr ⟨bit j, hbit j, heq ▸ hbit k⟩
  apply (Fin.ext ((h j j.isLt k k.isLt).mp hmeet)).symm

/-! ### Runs -/

/-- A word has the masks of the sids of a set. -/
def Holds (w : BitVec 64) (s : Finset ℕ) : Prop :=
  ∀ k, w &&& fragMask k ≠ 0 ↔ ∃ r ∈ s, r % 32 = k % 32

theorem holds_empty :
  Holds 0 ∅
  := by
  intro k
  simp

/-- Setting the mask of a sid records it. -/
theorem Holds.record {w : BitVec 64} {s : Finset ℕ} (h : Holds w s) (sid : ℕ) :
  Holds (w ||| fragMask sid) (insert sid s)
  := by
  intro k
  have hk := h k
  have hsid := fragMask_meet sid k
  rw [BitVec.and_or_distrib_right, ne_eq, show (0 : BitVec 64) = 0#64 from rfl,
    BitVec.or_eq_zero_iff, not_and_or]
  rw [Finset.exists_mem_insert, ← hsid, ← hk]
  apply or_comm

/-- The word of a block agrees with what is recorded for it; without a record it is as
`L2PBm_init` has left it. -/
def Recorded (w : BitVec 64) : Option (Finset ℕ) → Prop
  | none => w = BitVec.allOnes 64
  | some s => Holds w s

theorem Recorded.record {w : BitVec 64} {o : Option (Finset ℕ)} (h : Recorded w o) (sid : ℕ) :
  Recorded (w ||| fragMask sid) (o.map (insert sid))
  := by
  cases o with
  | none =>
      have hw : w = BitVec.allOnes 64 := h
      rw [hw]
      apply BitVec.allOnes_or
  | some s => apply Holds.record h sid

/-- The table agrees with what is recorded. -/
def PbaMap.Agrees (m : PbaMap) (o : FragOwners) : Prop := ∀ b, Recorded (m b).fragInfo (o b)

namespace PbaMap.Agrees

variable {g : Geometry} {m : PbaMap} {o : FragOwners}

/-- Writing one block, with a new record for it. -/
theorem update (h : m.Agrees o) (b : ℕ) {info : FragBlockInfo} {r : Option (Finset ℕ)}
    (hr : Recorded info.fragInfo r) :
  PbaMap.Agrees (Function.update m b info) (Function.update o b r)
  := by
  intro c
  rcases eq_or_ne c b with rfl | hne
  · simpa only [Function.update_self] using hr
  · simpa only [Function.update_of_ne hne] using h c

/-- Writing one block without its `frag_info`. -/
theorem keep (h : m.Agrees o) (b : ℕ) {info : FragBlockInfo}
    (hw : info.fragInfo = (m b).fragInfo) :
  PbaMap.Agrees (Function.update m b info) o
  := by
  have hr : Recorded info.fragInfo (o b) := hw ▸ h b
  have hb := h.update b hr
  rwa [Function.update_eq_self] at hb

theorem init :
  PbaMap.init.Agrees fun _ => none
  := fun _ => rfl

/-- One call. -/
theorem step {m' : PbaMap} {op : PbaMapOp} (h : m.Agrees o) (hs : m.step g op = .ok m') :
  m'.Agrees (o.step g op)
  := by
  cases op with
  | clearBlockInfo bidx =>
      cases hs
      apply h.update
      apply holds_empty
  | makeMap pba sid intraIdx =>
      obtain ⟨-, -, hs⟩ := bind_eq_ok.mp hs
      cases hs
      apply h.keep
      rfl
  | makeMapMixed pba sid intraIdx fromBidx =>
      obtain ⟨-, -, hs⟩ := bind_eq_ok.mp hs
      cases hs
      apply h.update
      apply h fromBidx
  | moveOwner pba sid intraIdx type =>
      obtain ⟨-, -, hs⟩ := bind_eq_ok.mp hs
      obtain ⟨-, -, hs⟩ := bind_eq_ok.mp hs
      cases hs
      apply h.keep
      rfl
  | blockFragment pba sid =>
      cases hs
      have hb := (h (pba / g.ppb)).record sid
      apply h.update
      split <;> exact hb
  | blockMixedCheckAndSet pba sid =>
      cases hs
      have hb := (h (pba / g.ppb)).record sid
      apply h.update
      split <;> exact hb

/-- A sequence of calls. -/
theorem exec {ops : List PbaMapOp} (hm : PbaMap.exec g ops = .ok m) :
  m.Agrees (FragOwners.exec g ops)
  := by
  apply run_history (fun l m => m.Agrees (FragOwners.exec g l)) _ init hm
  intro l m op m' h hs
  simpa only [FragOwners.exec, List.foldl_append, List.foldl_cons, List.foldl_nil]
    using h.step hs

end PbaMap.Agrees

/-! ### What is visited -/

/-- The sid of a record is below the number of runs that `L2PBm_init` allows. -/
def PbaMapOp.SidBelow : PbaMapOp → Prop
  | .blockFragment _ sid => sid < maxRunNumForFrag
  | .blockMixedCheckAndSet _ sid => sid < maxRunNumForFrag
  | _ => True

namespace FragOwners

/-- Recording sids that are below the bound. -/
theorem step_below {g : Geometry} {o : FragOwners} {op : PbaMapOp} (hop : op.SidBelow)
    (h : ∀ b s, o b = some s → ∀ k ∈ s, k < maxRunNumForFrag) :
  ∀ b s, o.step g op b = some s → ∀ k ∈ s, k < maxRunNumForFrag
  := by
  have hrecord : ∀ bidx sid, sid < maxRunNumForFrag →
      ∀ b s, o.record bidx sid b = some s → ∀ k ∈ s, k < maxRunNumForFrag := by
    intro bidx sid hsid b s hs k hk
    rcases eq_or_ne b bidx with rfl | hne
    · rw [record, Function.update_self, Option.map_eq_some_iff] at hs
      obtain ⟨s', hs', rfl⟩ := hs
      rcases Finset.mem_insert.mp hk with rfl | hk
      · apply hsid
      · apply h b s' hs' k hk
    · rw [record, Function.update_of_ne hne] at hs
      apply h b s hs k hk
  intro b s hs k hk
  cases op with
  | clearBlockInfo bidx =>
      rcases eq_or_ne b bidx with rfl | hne
      · simp only [step, Function.update_self, Option.some.injEq] at hs
        simp [← hs] at hk
      · simp only [step, Function.update_of_ne hne] at hs
        apply h b s hs k hk
  | makeMap pba sid intraIdx => apply h b s hs k hk
  | makeMapMixed pba sid intraIdx fromBidx =>
      rcases eq_or_ne b (pba / g.ppb) with rfl | hne
      · simp only [step, Function.update_self] at hs
        apply h fromBidx s hs k hk
      · simp only [step, Function.update_of_ne hne] at hs
        apply h b s hs k hk
  | moveOwner pba sid intraIdx type => apply h b s hs k hk
  | blockFragment pba sid => apply hrecord _ sid hop b s hs k hk
  | blockMixedCheckAndSet pba sid => apply hrecord _ sid hop b s hs k hk

theorem exec_below {g : Geometry} {ops : List PbaMapOp} (hops : ∀ op ∈ ops, op.SidBelow) :
  ∀ b s, FragOwners.exec g ops b = some s → ∀ k ∈ s, k < maxRunNumForFrag
  := by
  induction ops using List.reverseRecOn with
  | nil =>
      intro b s hs
      cases hs
  | append_singleton ops op ih =>
      rw [FragOwners.exec, List.foldl_append, List.foldl_cons, List.foldl_nil]
      apply step_below (hops op (by simp))
      apply ih
      intro op hop
      apply hops op (by simp [hop])

end FragOwners

namespace FragBlockInfo

variable {binfo : FragBlockInfo}

theorem mem_visited {k : ℕ} :
  k ∈ binfo.visited ↔ k < maxRunNumForFrag ∧ binfo.fragInfo &&& fragMask k ≠ 0
  := by
  simp [visited]

/-- The loop visits the sids that are recorded, and those that differ from one of them by 32. -/
theorem mem_visited_of_holds {s : Finset ℕ} (h : Holds binfo.fragInfo s) {k : ℕ} :
  k ∈ binfo.visited ↔ k < maxRunNumForFrag ∧ ∃ r ∈ s, r % 32 = k % 32
  := by
  rw [mem_visited, h k]

/-- All sids are visited for a block that has never been cleared. -/
theorem visited_of_allOnes (h : binfo.fragInfo = BitVec.allOnes 64) :
  binfo.visited = List.range maxRunNumForFrag
  := by
  apply List.filter_eq_self.mpr
  intro k _
  have hk : fragMask k ≠ 0 := by
    have hmeet := (fragMask_meet k k).mpr rfl
    rwa [BitVec.and_self] at hmeet
  apply decide_eq_true
  rw [h, BitVec.allOnes_and]
  apply hk

/-- The visited sids are the recorded ones when with each recorded sid the one that differs from
it by 32 is recorded. -/
theorem visited_iff {s : Finset ℕ} (h : Holds binfo.fragInfo s)
    (hs : ∀ k ∈ s, k < maxRunNumForFrag) :
  (∀ k, k ∈ binfo.visited ↔ k ∈ s) ↔ ∀ k ∈ s, (k + 32) % 64 ∈ s
  := by
  constructor
  · intro hvisited k hk
    rw [← hvisited, mem_visited_of_holds h]
    use Nat.mod_lt _ (by decide), k, hk, by omega
  · intro hclosed k
    rw [mem_visited_of_holds h]
    constructor
    · rintro ⟨hk, r, hr, hmod⟩
      have hr64 := hs r hr
      rcases eq_or_ne r k with rfl | hne
      · apply hr
      · have hflip : (r + 32) % 64 = k := by
          unfold maxRunNumForFrag at hk hr64
          omega
        exact hflip ▸ hclosed r hr
    · intro hk
      exact ⟨hs k hk, k, hk, rfl⟩

/-- A sector that only one run holds is found in this run when its sid is visited. -/
theorem processingUnlinkedPsa_of_visited {α : Type} {find : ℕ → Option α} {r : ℕ} {x : α}
    (hvisited : r ∈ binfo.visited) (hx : find r = some x) (honly : ∀ k, k ≠ r → find k = none)
    (mixed : Bool) :
  binfo.processingUnlinkedPsa find mixed = .ok (some (r, x))
  := by
  have hfirst : binfo.visited.findSome? (fun k => (find k).map (k, ·)) = some (r, x) := by
    generalize binfo.visited = l at hvisited
    induction l with
    | nil => cases hvisited
    | cons k l ih =>
        rcases eq_or_ne k r with rfl | hne
        · simp [hx]
        · have hl := (List.mem_cons.mp hvisited).resolve_left hne.symm
          simp [honly k hne, ih hl]
  simp only [processingUnlinkedPsa, hfirst]

/-- A sid that is recorded is visited. -/
theorem visited_of_recorded {s : Finset ℕ} (h : Holds binfo.fragInfo s) {r : ℕ} (hr : r ∈ s)
    (hr64 : r < maxRunNumForFrag) :
  r ∈ binfo.visited
  := by
  rw [mem_visited_of_holds h]
  use hr64, r, hr

end FragBlockInfo

/-- A block that no call has cleared keeps the bits that `L2PBm_init` has set, and the loop visits
all sids for it. -/
theorem visited_of_never_cleared {g : Geometry} {ops : List PbaMapOp} {m : PbaMap} {b : ℕ}
    (hm : PbaMap.exec g ops = .ok m) (hb : FragOwners.exec g ops b = none) :
  (m b).visited = List.range maxRunNumForFrag
  := by
  have h := PbaMap.Agrees.exec hm b
  rw [hb] at h
  apply FragBlockInfo.visited_of_allOnes h

/-- After every sequence of calls, a sector that only one run holds is found in this run when the sid
of the run is recorded for the block, or the block has never been cleared. -/
theorem unlinkedSector_found {g : Geometry} {ops : List PbaMapOp} {m : PbaMap} {b r : ℕ}
    (hm : PbaMap.exec g ops = .ok m) (hr64 : r < maxRunNumForFrag)
    (hr : ∀ s, FragOwners.exec g ops b = some s → r ∈ s) {α : Type} {find : ℕ → Option α} {x : α}
    (hx : find r = some x) (honly : ∀ k, k ≠ r → find k = none) (mixed : Bool) :
  (m b).processingUnlinkedPsa find mixed = .ok (some (r, x))
  := by
  have hvisited : r ∈ (m b).visited := by
    cases hb : FragOwners.exec g ops b with
    | none =>
        rw [visited_of_never_cleared hm hb]
        apply List.mem_range.mpr hr64
    | some s =>
        have h := PbaMap.Agrees.exec hm b
        rw [hb] at h
        apply FragBlockInfo.visited_of_recorded h (hr s hb) hr64
  apply FragBlockInfo.processingUnlinkedPsa_of_visited hvisited hx honly mixed

/-- After every sequence of calls with sids below the bound, the loop visits exactly the sids that
are recorded for a block when with each of them the one that differs from it by 32 is recorded.  A
sector that only one run holds is found in this run in any case. -/
theorem visited_eq_recorded_iff {g : Geometry} {ops : List PbaMapOp} {m : PbaMap} {b : ℕ}
    {s : Finset ℕ} (hm : PbaMap.exec g ops = .ok m) (hops : ∀ op ∈ ops, op.SidBelow)
    (hb : FragOwners.exec g ops b = some s) :
  ((∀ k, k ∈ (m b).visited ↔ k ∈ s) ↔ ∀ k ∈ s, (k + 32) % 64 ∈ s) ∧
  ∀ (α : Type) (find : ℕ → Option α) (mixed : Bool), ∀ r ∈ s, ∀ x, find r = some x →
    (∀ k, k ≠ r → find k = none) →
    (m b).processingUnlinkedPsa find mixed = .ok (some (r, x))
  := by
  have h := PbaMap.Agrees.exec hm b
  rw [hb] at h
  have hbelow := FragOwners.exec_below hops b s hb
  constructor
  · apply FragBlockInfo.visited_iff h hbelow
  · intro α find mixed r hr x hx honly
    have hvisited := FragBlockInfo.visited_of_recorded h hr (hbelow r hr)
    apply FragBlockInfo.processingUnlinkedPsa_of_visited hvisited hx honly mixed

/-- A device with one block. -/
def oneBlock : Geometry := ⟨1, 1, 1, Nat.one_pos, Nat.one_pos⟩

/-- The loop visits the sids 3 and 35 when both are recorded. -/
theorem visited_three_and_its_twin :
  ∃ m, PbaMap.exec oneBlock
      [.clearBlockInfo 0, .blockFragment 0 3, .blockMixedCheckAndSet 0 35] = .ok m ∧
    ((∀ k, k ∈ (m 0).visited ↔ k ∈ insert 35 (insert 3 (∅ : Finset ℕ))) ∧
      (m 0).processingUnlinkedPsa (fun k => if k = 35 then some 7 else none) false
        = .ok (some (35, 7)))
  := by
  refine ⟨_, rfl, ?_⟩
  obtain ⟨hvisited, hfound⟩ := visited_eq_recorded_iff (b := 0)
    (show PbaMap.exec oneBlock
      [.clearBlockInfo 0, .blockFragment 0 3, .blockMixedCheckAndSet 0 35] = .ok _ from rfl)
    (by simp [PbaMapOp.SidBelow, maxRunNumForFrag]) rfl
  constructor
  · apply hvisited.mpr (by decide)
  · apply hfound ℕ _ false 35 (by decide) 7 rfl
    intro k hk
    apply if_neg hk

/-- With the sid 3 recorded alone, the loop also visits the sid 35. -/
theorem visited_more_than_recorded :
  ∃ m, PbaMap.exec oneBlock [.clearBlockInfo 0, .blockFragment 0 3] = .ok m ∧
    FragOwners.exec oneBlock [.clearBlockInfo 0, .blockFragment 0 3] 0 = some {3} ∧
    (m 0).visited = [3, 35]
  := by
  refine ⟨_, rfl, rfl, ?_⟩
  decide

end AppL
