import Mathlib.Data.BitVec
import AppL.Lib.BinaryHeap
import AppL.Lib.Transition

/-!
# The heap of possible victims

`max_heap` keeps the segments that can be a victim, each with a count that is refreshed when the
element is looked at.  The elements lie in the slots `1` to `size`; a slot without data is free.
The heap is put in order only before its first element is taken.  The functions that tell an
element where its slot is do not change the heap.
-/

namespace AppL

open Transition

/-- Where the heap stops the program. -/
inductive HeapAbort where
  /-- "full heap!" -/
  | fullHeap
  /-- an access behind the last slot -/
  | outOfBounds
  /-- a loop has made more turns than there are slots -/
  | endlessLoop
  deriving DecidableEq, Repr

/-- `heap_node`. -/
structure HeapNode (α : Type) where
  cnt : BitVec 64
  data : Option α
  deriving DecidableEq, Repr

/-- `max_heap`. -/
structure MaxHeap (α : Type) where
  body : ℕ → HeapNode α
  size : ℕ
  max : ℕ

/-- The `int` that `get_cnt` gives, in the `uint64_t` of a node. -/
def cntOfInt (cnt : BitVec 32) : BitVec 64 := cnt.signExtend 64

namespace MaxHeap

variable {α : Type} (getCnt : α → BitVec 32) (h : MaxHeap α)

/-- `mh_init`. -/
def init (bn : ℕ) : MaxHeap α where
  body _ := ⟨0, none⟩
  size := 0
  max := bn

/-- The number of slots that `mh_init` has allocated. -/
def slots : ℕ := 2 * (h.max + 1)

/-- Reading a slot. -/
def node (i : ℕ) : Except HeapAbort (HeapNode α) :=
  if i < h.slots then .ok (h.body i) else .error .outOfBounds

/-- Writing a slot. -/
def setNode (i : ℕ) (n : HeapNode α) : MaxHeap α :=
  { h with body := Function.update h.body i n }

/-- The count of a node with data is that of the element now. -/
def refresh (n : HeapNode α) : HeapNode α :=
  match n.data with
  | some x => { n with cnt := cntOfInt (getCnt x) }
  | none => n

/-- The count of a node with data is refreshed. -/
def refreshAt (i : ℕ) : MaxHeap α := h.setNode i (refresh getCnt (h.body i))

/-- The end of `maxchild`: the child with the larger count. -/
def chooseChild (idx : ℕ) : Option ℕ :=
  let lc := h.body (2 * idx)
  let rc := h.body (2 * idx + 1)
  if lc.data.isSome ∧ rc.data.isNone then
    some (2 * idx)
  else if lc.data.isNone ∧ rc.data.isSome then
    some (2 * idx + 1)
  else if lc.data.isSome ∧ rc.data.isSome then
    some (if lc.cnt > rc.cnt then 2 * idx else 2 * idx + 1)
  else
    none

/-- `maxchild`. -/
def maxchild (idx : ℕ) : Except HeapAbort (Option ℕ × MaxHeap α) := do
  let n ← h.node idx
  if n.data.isNone then
    return (none, h)
  else
    let h := h.refreshAt getCnt idx
    let _ ← h.node (2 * idx)
    let h := h.refreshAt getCnt (2 * idx)
    let _ ← h.node (2 * idx + 1)
    let h := h.refreshAt getCnt (2 * idx + 1)
    return (h.chooseChild idx, h)

/-- The exchange of a node and its child in `mh_internal_downdate`, where the count of the child
goes through an `int`. -/
def exchange (idx child : ℕ) : MaxHeap α :=
  let temp := cntOfInt ((h.body child).cnt.setWidth 32)
  let n : HeapNode α := ⟨temp, (h.body child).data⟩
  let c : HeapNode α := ⟨(h.body idx).cnt, (h.body idx).data⟩
  (h.setNode child c).setNode idx n

/-- `mh_internal_downdate`. -/
def downdate : ℕ → ℕ → MaxHeap α → Except HeapAbort (MaxHeap α)
  | 0, _, _ => .error .endlessLoop
  | fuel + 1, idx, h => do
      let (child, h) ← h.maxchild getCnt idx
      match child with
      | some child =>
          if (h.body child).cnt > (h.body idx).cnt then
            downdate fuel child (h.exchange idx child)
          else
            return h
      | none => return h

/-- `mh_internal_downdate`, whose loop goes to another slot on every turn. -/
def internalDowndate (idx : ℕ) : Except HeapAbort (MaxHeap α) :=
  h.downdate getCnt (h.slots + 1) idx

/-- `mh_get_max`. -/
def getMax : Except HeapAbort (Option α × MaxHeap α) :=
  if h.size = 0 then
    .ok (none, h)
  else do
    let res := (h.body 1).data
    let h := h.setNode 1 (h.body h.size)
    let h := h.setNode h.size { h.body h.size with data := none }
    let h ← h.internalDowndate getCnt 1
    return (res, { h with size := h.size - 1 })

/-- `mh_insert_append`. -/
def insertAppend (data : α) : Except HeapAbort (MaxHeap α) :=
  if h.size > h.max then
    .error .fullHeap
  else
    let h := { h with size := h.size + 1 }
    .ok (h.setNode h.size { h.body h.size with data := some data })

/-- The loop `while(all_size/=2)`: how often a number can be halved. -/
def halvings : ℕ → ℕ → ℕ
  | 0, _ => 0
  | fuel + 1, allSize => if allSize / 2 = 0 then 0 else halvings fuel (allSize / 2) + 1

/-- The loop of `mh_construct` over the levels, from the level `i` upwards. -/
def constructLevels : ℕ → MaxHeap α → Except HeapAbort (MaxHeap α)
  | 0, h => .ok h
  | i + 1, h => do
      let depthStart := 2 ^ i
      let depthEnd := 2 ^ (i + 1)
      let h ← (List.range' depthStart (depthEnd - depthStart)).foldlM
        (fun h j => h.internalDowndate getCnt j) h
      constructLevels i h

/-- `mh_construct`. -/
def construct : Except HeapAbort (MaxHeap α) :=
  let depth := halvings h.size h.size + 1
  h.constructLevels getCnt (depth - 1)

/-- `mh_construct` and then `mh_get_max`. -/
def takeMax : Except HeapAbort (Option α × MaxHeap α) := do
  let h ← h.construct getCnt
  h.getMax getCnt

/-! ### Refreshing counts -/

/-- The element in a slot. -/
def data (i : ℕ) : Option α := (h.body i).data

/-- The count of an element as it is now. -/
def keyOf : Option α → ℕ
  | some x => (cntOfInt (getCnt x)).toNat
  | none => 0

/-- The count of the element in a slot as it is now. -/
def key (i : ℕ) : ℕ := keyOf getCnt (h.data i)

variable {getCnt h}

@[simp]
theorem refresh_data (n : HeapNode α) :
  (refresh getCnt n).data = n.data
  := by
  unfold refresh
  split <;> rfl

@[simp]
theorem setNode_slots (i : ℕ) (n : HeapNode α) :
  (h.setNode i n).slots = h.slots
  := rfl

@[simp]
theorem setNode_size (i : ℕ) (n : HeapNode α) :
  (h.setNode i n).size = h.size
  := rfl

@[simp]
theorem setNode_max (i : ℕ) (n : HeapNode α) :
  (h.setNode i n).max = h.max
  := rfl

theorem setNode_body_self (i : ℕ) (n : HeapNode α) :
  (h.setNode i n).body i = n
  := Function.update_self _ _ _

theorem setNode_body_of_ne {i j : ℕ} (hne : j ≠ i) (n : HeapNode α) :
  (h.setNode i n).body j = h.body j
  := Function.update_of_ne hne _ _

@[simp]
theorem refreshAt_slots (i : ℕ) :
  (h.refreshAt getCnt i).slots = h.slots
  := rfl

@[simp]
theorem refreshAt_data (i j : ℕ) :
  (h.refreshAt getCnt i).data j = h.data j
  := by
  rcases eq_or_ne j i with rfl | hne
  · rw [data, refreshAt, setNode_body_self, refresh_data]
    rfl
  · rw [data, refreshAt, setNode_body_of_ne hne]
    rfl

/-- The count in a slot with data is the one of now. -/
def Fresh (getCnt : α → BitVec 32) (h : MaxHeap α) (i : ℕ) : Prop :=
  (h.data i).isSome → (h.body i).cnt.toNat = h.key getCnt i

theorem refreshAt_fresh (i : ℕ) :
  Fresh getCnt (h.refreshAt getCnt i) i
  := by
  intro hsome
  rw [refreshAt_data] at hsome
  obtain ⟨x, hx⟩ := Option.isSome_iff_exists.mp hsome
  have hx' : (h.body i).data = some x := hx
  have hbody : ((h.refreshAt getCnt i).body i).cnt = cntOfInt (getCnt x) := by
    rw [refreshAt, setNode_body_self, refresh, hx']
  rw [hbody, key, refreshAt_data, hx, keyOf]

theorem Fresh.refreshAt {i : ℕ} (hi : Fresh getCnt h i) (j : ℕ) :
  Fresh getCnt (h.refreshAt getCnt j) i
  := by
  rcases eq_or_ne i j with rfl | hne
  · apply refreshAt_fresh i
  · intro hsome
    rw [refreshAt_data] at hsome
    have hbody : (h.refreshAt getCnt j).body i = h.body i := setNode_body_of_ne hne _
    rw [hbody, hi hsome]
    simp only [key, refreshAt_data]

/-- The slots with data are those from `1` to `n`, and their children are slots. -/
structure Occupied (h : MaxHeap α) (n : ℕ) : Prop where
  isSome : ∀ i, (h.data i).isSome = true ↔ 0 < i ∧ i ≤ n
  room : 2 * n + 1 < h.slots

/-- The heap after the counts of a slot and of its children have been refreshed. -/
def refreshed (getCnt : α → BitVec 32) (h : MaxHeap α) (idx : ℕ) : MaxHeap α :=
  ((h.refreshAt getCnt idx).refreshAt getCnt (2 * idx)).refreshAt getCnt (2 * idx + 1)

@[simp]
theorem refreshed_data (idx i : ℕ) :
  (refreshed getCnt h idx).data i = h.data i
  := by
  simp [refreshed]

@[simp]
theorem refreshed_key (idx i : ℕ) :
  (refreshed getCnt h idx).key getCnt i = h.key getCnt i
  := by
  simp [key]

theorem refreshed_fresh (idx : ℕ) :
  Fresh getCnt (refreshed getCnt h idx) idx ∧ Fresh getCnt (refreshed getCnt h idx) (2 * idx) ∧
  Fresh getCnt (refreshed getCnt h idx) (2 * idx + 1)
  := ⟨((refreshAt_fresh _).refreshAt _).refreshAt _, (refreshAt_fresh _).refreshAt _,
    refreshAt_fresh _⟩

theorem node_ok {i : ℕ} (hi : i < h.slots) :
  h.node i = .ok (h.body i)
  := if_pos hi

/-- A free slot has no child. -/
theorem maxchild_none {idx : ℕ} (hidx : idx < h.slots) (hnone : h.data idx = none) :
  h.maxchild getCnt idx = .ok (none, h)
  := by
  apply bind_eq_ok.mpr
  refine ⟨_, node_ok hidx, ?_⟩
  have hn : (h.body idx).data.isNone = true := Option.isNone_iff_eq_none.mpr hnone
  rw [if_pos hn]
  rfl

theorem maxchild_eq {idx : ℕ} (hpos : 0 < idx) (hidx : 2 * idx + 1 < h.slots)
    (hsome : (h.data idx).isSome = true) :
  h.maxchild getCnt idx
    = .ok ((refreshed getCnt h idx).chooseChild idx, refreshed getCnt h idx)
  := by
  apply bind_eq_ok.mpr
  refine ⟨_, node_ok (by omega), ?_⟩
  have hn : ¬ (h.body idx).data.isNone = true := by
    rw [Bool.not_eq_true, Option.isNone_eq_false_iff]
    apply hsome
  rw [if_neg hn]
  apply bind_eq_ok.mpr
  refine ⟨_, node_ok (h := h.refreshAt getCnt idx) (by rw [refreshAt_slots]; omega), ?_⟩
  apply bind_eq_ok.mpr
  refine ⟨_, node_ok (h := (h.refreshAt getCnt idx).refreshAt getCnt (2 * idx))
    (by rw [refreshAt_slots, refreshAt_slots]; omega), ?_⟩
  rfl

/-- `maxchild` gives the child with the largest count of now, and no child when there is none. -/
theorem chooseChild_spec {n idx : ℕ} (ho : h.Occupied n) (hl : Fresh getCnt h (2 * idx))
    (hr : Fresh getCnt h (2 * idx + 1)) (hpos : 0 < idx) :
  match h.chooseChild idx with
  | none => ∀ c, BinaryHeap.IsChild c idx → n < c
  | some c => BinaryHeap.IsChild c idx ∧ c ≤ n ∧
      ∀ d, BinaryHeap.IsChild d idx → d ≤ n → h.key getCnt d ≤ h.key getCnt c
  := by
  have hlsome : ((h.body (2 * idx)).data).isSome = true ↔ 2 * idx ≤ n := by
    rw [← data, ho.isSome]
    omega
  have hrsome : ((h.body (2 * idx + 1)).data).isSome = true ↔ 2 * idx + 1 ≤ n := by
    rw [← data, ho.isSome]
    omega
  rcases Nat.lt_or_ge n (2 * idx) with hln | hln
  · have hlnone : (h.body (2 * idx)).data = none := by
      rw [← Option.not_isSome_iff_eq_none, hlsome]
      omega
    have hrnone : (h.body (2 * idx + 1)).data = none := by
      rw [← Option.not_isSome_iff_eq_none, hrsome]
      omega
    simp only [chooseChild, hlnone, hrnone]
    rintro c (rfl | rfl)
    · apply hln
    · apply hln.trans (Nat.lt_succ_self _)
  · have hl' := hlsome.mpr hln
    rcases Nat.lt_or_ge n (2 * idx + 1) with hrn | hrn
    · have hrnone : (h.body (2 * idx + 1)).data = none := by
        rw [← Option.not_isSome_iff_eq_none, hrsome]
        omega
      simp only [chooseChild, hl', hrnone, Option.isNone_none, and_self, if_true]
      use Or.inl rfl, hln
      rintro d (rfl | rfl) hd
      · apply le_refl _
      · omega
    · have hr' := hrsome.mpr hrn
      have hl₀ := Option.isNone_eq_false_iff.mpr hl'
      have hr₀ := Option.isNone_eq_false_iff.mpr hr'
      have hlkey := hl hl'
      have hrkey := hr hr'
      simp only [chooseChild, hl', hr', hl₀, hr₀, Bool.false_eq_true, and_false, false_and,
        if_false, and_self, if_true]
      by_cases hgt : (h.body (2 * idx)).cnt > (h.body (2 * idx + 1)).cnt
      · rw [if_pos hgt]
        use Or.inl rfl, hln
        rintro d (rfl | rfl) hd
        · apply le_refl _
        · rw [← hlkey, ← hrkey]
          apply hgt.le
      · rw [if_neg hgt]
        use Or.inr rfl, hrn
        rintro d (rfl | rfl) hd
        · rw [← hlkey, ← hrkey]
          apply not_lt.mp hgt
        · apply le_refl _

/-! ### Sifting down -/

/-- The elements of a heap with `n` of them have been rearranged. -/
structure Rearranged (h h' : MaxHeap α) (n : ℕ) : Prop where
  occupied : h'.Occupied n
  size : h'.size = h.size
  max : h'.max = h.max
  elements : BinaryHeap.elements h'.data n = BinaryHeap.elements h.data n

theorem Rearranged.refl {n : ℕ} (ho : h.Occupied n) :
  Rearranged h h n
  := ⟨ho, rfl, rfl, rfl⟩

theorem Rearranged.trans {h₁ h₂ h₃ : MaxHeap α} {n : ℕ} (h₁₂ : Rearranged h₁ h₂ n)
    (h₂₃ : Rearranged h₂ h₃ n) :
  Rearranged h₁ h₃ n
  := ⟨h₂₃.occupied, h₂₃.size.trans h₁₂.size, h₂₃.max.trans h₁₂.max,
    h₂₃.elements.trans h₁₂.elements⟩

theorem rearranged_refreshed {n : ℕ} (ho : h.Occupied n) (idx : ℕ) :
  Rearranged h (refreshed getCnt h idx) n
  := by
  have hdata : (refreshed getCnt h idx).data = h.data := funext (refreshed_data idx)
  refine ⟨⟨?_, ho.room⟩, rfl, rfl, ?_⟩
  · intro i
    rw [refreshed_data, ho.isSome]
  · rw [hdata]

theorem exchange_data {idx c : ℕ} (hne : idx ≠ c) :
  (h.exchange idx c).data = h.data ∘ Equiv.swap idx c
  := by
  funext i
  rw [Function.comp_apply]
  rcases eq_or_ne i idx with rfl | hi
  · rw [Equiv.swap_apply_left, data, exchange, setNode_body_self]
    rfl
  · rcases eq_or_ne i c with rfl | hc
    · rw [Equiv.swap_apply_right, data, exchange, setNode_body_of_ne hi, setNode_body_self]
      rfl
    · rw [Equiv.swap_apply_of_ne_of_ne hi hc, data, exchange, setNode_body_of_ne hi,
        setNode_body_of_ne hc]
      rfl

theorem exchange_key {idx c : ℕ} (hne : idx ≠ c) :
  (h.exchange idx c).key getCnt = h.key getCnt ∘ Equiv.swap idx c
  := by
  funext i
  rw [key, exchange_data hne]
  rfl

theorem rearranged_exchange {n idx c : ℕ} (ho : h.Occupied n) (hidx : idx ∈ Finset.Icc 1 n)
    (hc : c ∈ Finset.Icc 1 n) (hne : idx ≠ c) :
  Rearranged h (h.exchange idx c) n
  := by
  refine ⟨⟨?_, ho.room⟩, rfl, rfl, ?_⟩
  · intro i
    rw [exchange_data hne, Function.comp_apply, ho.isSome]
    rw [Finset.mem_Icc] at hidx hc
    rcases eq_or_ne i idx with rfl | hi
    · rw [Equiv.swap_apply_left]
      omega
    · rcases eq_or_ne i c with rfl | hic
      · rw [Equiv.swap_apply_right]
        omega
      · rw [Equiv.swap_apply_of_ne_of_ne hi hic]
  · rw [exchange_data hne]
    apply BinaryHeap.elements_swap _ hidx hc

/-- Sifting down ends, and puts the place where it started in order. -/
theorem downdate_spec {n : ℕ} {s : Set ℕ} (fuel : ℕ) :
  ∀ (idx : ℕ) (h : MaxHeap α), h.Occupied n → 0 < idx → idx ≤ n → n - idx < fuel →
    BinaryHeap.Sifting s (h.key getCnt) n idx →
    ∃ h', downdate getCnt fuel idx h = .ok h' ∧ Rearranged h h' n ∧
      ∀ i ∈ s, BinaryHeap.Good (h'.key getCnt) n i
  := by
  induction fuel with
  | zero =>
      intro idx h _ _ _ hfuel
      omega
  | succ fuel ih =>
      intro idx h ho hpos hle hfuel hs
      have hroom := ho.room
      have hmax := @maxchild_eq α getCnt h idx hpos (by omega) ((ho.isSome idx).mpr ⟨hpos, hle⟩)
      have hr : Rearranged h (refreshed getCnt h idx) n := rearranged_refreshed ho idx
      obtain ⟨hfidx, hfl, hfr⟩ := @refreshed_fresh α getCnt h idx
      have hchoose := chooseChild_spec hr.occupied hfl hfr hpos
      have hkey : (refreshed getCnt h idx).key getCnt = h.key getCnt :=
        funext (refreshed_key idx)
      generalize refreshed getCnt h idx = h₁ at hmax hr hfidx hfl hfr hchoose hkey
      rw [hkey] at hchoose
      cases hc : h₁.chooseChild idx with
      | none =>
          rw [hc] at hchoose hmax
          use h₁, bind_eq_ok.mpr ⟨_, hmax, rfl⟩, hr
          rw [hkey]
          apply hs.finish
          intro d hd hdn
          exact absurd hdn (not_le.mpr (hchoose d hd))
      | some c =>
          rw [hc] at hchoose hmax
          obtain ⟨hchild, hcn, hlargest⟩ := hchoose
          have hlt := hchild.lt hpos
          have hfc : Fresh getCnt h₁ c := by
            rcases hchild with rfl | rfl
            · apply hfl
            · apply hfr
          have hcidx := hfidx ((hr.occupied.isSome idx).mpr ⟨hpos, hle⟩)
          have hcc := hfc ((hr.occupied.isSome c).mpr ⟨by omega, hcn⟩)
          rw [hkey] at hcidx hcc
          by_cases hgt : (h₁.body c).cnt > (h₁.body idx).cnt
          · have hkeys : h.key getCnt idx < h.key getCnt c := by
              rw [← hcidx, ← hcc]
              apply hgt
            have hmove := hs.move hpos hchild hcn hkeys hlargest
            rw [← hkey, ← exchange_key hlt.ne] at hmove
            have hex := @rearranged_exchange α h₁ n idx c hr.occupied
              (Finset.mem_Icc.mpr ⟨hpos, hle⟩) (Finset.mem_Icc.mpr ⟨by omega, hcn⟩) hlt.ne
            obtain ⟨h', hrun, hr', hgood⟩ := ih c _ hex.occupied (by omega) hcn (by omega) hmove
            refine ⟨h', bind_eq_ok.mpr ⟨_, hmax, ?_⟩, (hr.trans hex).trans hr', hgood⟩
            simp only [if_pos hgt]
            apply hrun
          · have hkeys : h.key getCnt c ≤ h.key getCnt idx := by
              rw [← hcidx, ← hcc]
              apply not_lt.mp hgt
            refine ⟨h₁, bind_eq_ok.mpr ⟨_, hmax, ?_⟩, hr, ?_⟩
            · simp only [if_neg hgt]
              rfl
            · rw [hkey]
              apply hs.finish
              intro d hd hdn
              apply (hlargest d hd hdn).trans hkeys

/-- `mh_internal_downdate` of a slot whose children are in order. -/
theorem internalDowndate_spec {n idx : ℕ} {s : Set ℕ} (ho : h.Occupied n) (hpos : 0 < idx)
    (hle : idx ≤ n) (hs : BinaryHeap.Sifting s (h.key getCnt) n idx) :
  ∃ h', h.internalDowndate getCnt idx = .ok h' ∧ Rearranged h h' n ∧
    ∀ i ∈ s, BinaryHeap.Good (h'.key getCnt) n i
  := by
  have hroom := ho.room
  apply downdate_spec _ idx h ho hpos hle _ hs
  omega

/-! ### Putting the heap in order -/

/-- One level: the slots from `m` to its end are sifted, and the level is in order with all levels
below it. -/
theorem level_spec {n i : ℕ} (hi : 2 ^ (i + 1) ≤ n) (len : ℕ) :
  ∀ (m : ℕ) (h : MaxHeap α), 2 ^ i ≤ m → m + len = 2 ^ (i + 1) → h.Occupied n →
    (∀ k, 2 ^ (i + 1) ≤ k ∨ 2 ^ i ≤ k ∧ k < m → BinaryHeap.Good (h.key getCnt) n k) →
    ∃ h', (List.range' m len).foldlM (fun h j => h.internalDowndate getCnt j) h = .ok h' ∧
      Rearranged h h' n ∧ ∀ k, 2 ^ i ≤ k → BinaryHeap.Good (h'.key getCnt) n k
  := by
  have hpow : 2 ^ (i + 1) = 2 * 2 ^ i := by rw [Nat.pow_succ, Nat.mul_comm]
  have hipos : 0 < 2 ^ i := Nat.two_pow_pos i
  induction len with
  | zero =>
      intro m h _ hend ho hgood
      refine ⟨h, rfl, Rearranged.refl ho, ?_⟩
      intro k hk
      apply hgood
      omega
  | succ len ih =>
      intro m h hm hend ho hgood
      have hsift := @BinaryHeap.sifting_insert _ _ {k | 2 ^ (i + 1) ≤ k ∨ 2 ^ i ≤ k ∧ k < m}
        (h.key getCnt) n m (by omega)
        (fun k hk c hc _ => Or.inl (by
          have hk' : 2 ^ (i + 1) ≤ k ∨ 2 ^ i ≤ k ∧ k < m := hk
          unfold BinaryHeap.IsChild at hc
          omega))
        hgood
        (fun c hc _ => Or.inl (by
          unfold BinaryHeap.IsChild at hc
          omega))
        (by
          rw [Set.mem_ofPred_eq]
          omega)
      obtain ⟨h₁, hrun, hr, hgood₁⟩ := internalDowndate_spec ho (by omega) (by omega) hsift
      obtain ⟨h₂, hrun₂, hr₂, hgood₂⟩ := ih (m + 1) h₁ (by omega) (by omega) hr.occupied (by
        intro k hk
        apply hgood₁
        rcases eq_or_ne k m with rfl | hne
        · apply Or.inl rfl
        · apply Or.inr
          rw [Set.mem_ofPred_eq]
          omega)
      refine ⟨h₂, ?_, hr.trans hr₂, hgood₂⟩
      rw [List.range'_succ, List.foldlM_cons]
      apply bind_eq_ok.mpr ⟨h₁, hrun, hrun₂⟩

/-- The levels up to the first one. -/
theorem constructLevels_spec {n : ℕ} (i : ℕ) :
  ∀ h : MaxHeap α, 2 ^ i ≤ n ∨ i = 0 → h.Occupied n →
    (∀ k, 2 ^ i ≤ k → BinaryHeap.Good (h.key getCnt) n k) →
    ∃ h', constructLevels getCnt i h = .ok h' ∧ Rearranged h h' n ∧
      ∀ k, 0 < k → BinaryHeap.Good (h'.key getCnt) n k
  := by
  induction i with
  | zero =>
      intro h _ ho hgood
      use h, rfl, Rearranged.refl ho, hgood
  | succ i ih =>
      intro h hi ho hgood
      have hin : 2 ^ (i + 1) ≤ n := hi.resolve_right (Nat.succ_ne_zero i)
      have hpow : 2 ^ (i + 1) = 2 * 2 ^ i := by rw [Nat.pow_succ, Nat.mul_comm]
      obtain ⟨h₁, hrun, hr, hgood₁⟩ := level_spec hin (2 ^ (i + 1) - 2 ^ i) (2 ^ i) h (le_refl _)
        (by omega) ho (by
          rintro k (hk | hk)
          · apply hgood k hk
          · omega)
      obtain ⟨h₂, hrun₂, hr₂, hgood₂⟩ := ih h₁ (Or.inl (by omega)) hr.occupied hgood₁
      use h₂, bind_eq_ok.mpr ⟨h₁, hrun, hrun₂⟩, hr.trans hr₂, hgood₂

theorem halvings_spec (fuel : ℕ) :
  ∀ n, 0 < n → n ≤ fuel → 2 ^ halvings fuel n ≤ n ∧ n < 2 ^ (halvings fuel n + 1)
  := by
  induction fuel with
  | zero =>
      intro n hn hle
      omega
  | succ fuel ih =>
      intro n hn hle
      rw [halvings]
      split
      · rw [Nat.pow_zero, Nat.zero_add, Nat.pow_one]
        omega
      · have h := ih (n / 2) (by omega) (by omega)
        rw [Nat.pow_succ] at h
        rw [Nat.pow_succ, Nat.pow_succ]
        omega

/-- `mh_construct` puts all slots in order. -/
theorem construct_spec (ho : h.Occupied h.size) :
  ∃ h', h.construct getCnt = .ok h' ∧ Rearranged h h' h.size ∧
    ∀ k, 0 < k → BinaryHeap.Good (h'.key getCnt) h.size k
  := by
  apply constructLevels_spec
  · rcases Nat.eq_zero_or_pos h.size with hzero | hpos
    · apply Or.inr
      rw [hzero]
      rfl
    · apply Or.inl (halvings_spec h.size h.size hpos (le_refl _)).1
  · apply ho
  · intro k hk c hc hcn
    exfalso
    have hk' : 2 ^ halvings h.size h.size ≤ k := hk
    have hpos : 0 < 2 ^ halvings h.size h.size := Nat.two_pow_pos _
    have hsize : 0 < h.size := by
      unfold BinaryHeap.IsChild at hc
      omega
    have hlt := (halvings_spec h.size h.size hsize (le_refl _)).2
    rw [Nat.pow_succ] at hlt
    unfold BinaryHeap.IsChild at hc
    omega

/-! ### Taking the first element -/

/-- `mh_get_max` of a heap that has an element: it gives the one in the first slot, and the
others stay. -/
theorem getMax_spec {n : ℕ} (ho : h.Occupied h.size) (hn : h.size = n + 1) :
  ∃ h', h.getMax getCnt = .ok (h.data 1, h') ∧ h'.Occupied h'.size ∧ h'.size = n ∧
    h'.max = h.max ∧
    BinaryHeap.elements h.data (n + 1) = h.data 1 ::ₘ BinaryHeap.elements h'.data n
  := by
  have hroom := ho.room
  obtain ⟨h₁, hh₁⟩ : ∃ h₁, h₁ = (h.setNode 1 (h.body h.size)).setNode h.size
      { (h.setNode 1 (h.body h.size)).body h.size with data := none } := ⟨_, rfl⟩
  have hfree : h₁.data (n + 1) = none := by
    rw [data, hh₁, hn, setNode_body_self]
  have hother : ∀ i, i ≠ n + 1 → h₁.data i = h.data (Equiv.swap 1 (n + 1) i) := by
    intro i hi
    rw [data, hh₁, hn, setNode_body_of_ne hi]
    rcases eq_or_ne i 1 with rfl | h1
    · rw [setNode_body_self, Equiv.swap_apply_left]
      rfl
    · rw [setNode_body_of_ne h1, Equiv.swap_apply_of_ne_of_ne h1 hi]
      rfl
  have ho₁ : h₁.Occupied n := by
    constructor
    · intro i
      rcases eq_or_ne i (n + 1) with rfl | hi
      · rw [hfree]
        simp
      · rw [hother i hi, ho.isSome, hn]
        rcases eq_or_ne i 1 with rfl | h1
        · rw [Equiv.swap_apply_left]
          omega
        · rw [Equiv.swap_apply_of_ne_of_ne h1 hi]
          omega
    · rw [hh₁, setNode_slots, setNode_slots]
      omega
  have helements : BinaryHeap.elements h.data (n + 1)
      = h.data 1 ::ₘ BinaryHeap.elements h₁.data n := by
    rw [BinaryHeap.elements_pop]
    congr 1
    apply BinaryHeap.elements_congr
    intro i _ hin
    apply (hother i (by omega)).symm
  have hsift : ∃ h₂, h₁.internalDowndate getCnt 1 = .ok h₂ ∧ Rearranged h₁ h₂ n := by
    rcases Nat.eq_zero_or_pos n with rfl | hpos
    · refine ⟨h₁, bind_eq_ok.mpr ⟨_, maxchild_none ?_ hfree, rfl⟩, Rearranged.refl ho₁⟩
      apply Nat.lt_of_le_of_lt (Nat.le_add_left _ _) ho₁.room
    · obtain ⟨h₂, hrun, hr, -⟩ := @internalDowndate_spec α getCnt h₁ n 1 ∅ ho₁
        Nat.one_pos hpos ⟨fun _ hi => absurd hi (Set.notMem_empty _),
          fun _ hi => absurd hi (Set.notMem_empty _), fun _ hi => absurd hi (Set.notMem_empty _)⟩
      exact ⟨h₂, hrun, hr⟩
  obtain ⟨h₂, hrun, hr⟩ := hsift
  have hsize : h₂.size - 1 = n := by
    rw [hr.size, hh₁, setNode_size, setNode_size, hn]
    rfl
  refine ⟨{ h₂ with size := h₂.size - 1 }, ?_, ?_, hsize, ?_, ?_⟩
  · rw [getMax, if_neg (by omega)]
    subst hh₁
    exact bind_eq_ok.mpr ⟨h₂, hrun, rfl⟩
  · have ho₂ := hr.occupied
    constructor
    · intro i
      rw [hsize]
      apply ho₂.isSome i
    · rw [hsize]
      apply ho₂.room
  · rw [hr.max, hh₁]
    rfl
  · rw [helements, ← hr.elements]
    rfl

/-- The heap holds exactly these elements, in the slots `1` to `size`. -/
structure Holds (h : MaxHeap α) (inside : Multiset α) : Prop where
  occupied : h.Occupied h.size
  elements : BinaryHeap.elements h.data h.size = inside.map some

theorem holds_init (bn : ℕ) :
  (init bn : MaxHeap α).Holds 0
  where
    occupied := by
      constructor
      · intro i
        simp only [data, init]
        constructor
        · intro hi
          cases hi
        · omega
      · simp [slots, init]
        omega
    elements := rfl

/-- `mh_insert_append` puts an element behind the others. -/
theorem Holds.insertAppend {inside : Multiset α} (hh : h.Holds inside) (hroom : h.size < h.max)
    (x : α) :
  ∃ h', h.insertAppend x = .ok h' ∧ h'.max = h.max ∧ h'.Holds (x ::ₘ inside)
  := by
  refine ⟨_, if_neg (by omega), rfl, ?_⟩
  have hself : ∀ i, (({ h with size := h.size + 1 } : MaxHeap α).setNode (h.size + 1)
      { h.body (h.size + 1) with data := some x }).data i
        = if i = h.size + 1 then some x else h.data i := by
    intro i
    split
    · rename_i hi
      rw [hi, data, setNode_body_self]
    · rename_i hi
      rw [data, setNode_body_of_ne hi]
      rfl
  constructor
  · constructor
    · intro i
      rw [hself, setNode_size]
      have ho := hh.occupied.isSome i
      split
      · simp
        omega
      · rw [ho]
        simp only
        omega
    · unfold slots
      simp only [setNode_size, setNode_max]
      omega
  · rw [setNode_size, BinaryHeap.elements_succ, hself, if_pos rfl, Multiset.map_cons, ← hh.elements]
    congr 1
    apply BinaryHeap.elements_congr
    intro i _ hi
    rw [hself, if_neg (by omega)]

variable [DecidableEq α]

/-- `mh_construct` and `mh_get_max` give an element whose count is the largest, and the others
stay. -/
theorem Holds.takeMax {inside : Multiset α} (hh : h.Holds inside) (getCnt : α → BitVec 32) :
  ∃ res h', h.takeMax getCnt = .ok (res, h') ∧ h'.max = h.max ∧
    match res with
    | none => inside = 0 ∧ h'.Holds 0
    | some x => x ∈ inside ∧
        (∀ y ∈ inside, (cntOfInt (getCnt y)).toNat ≤ (cntOfInt (getCnt x)).toNat) ∧
        h'.Holds (inside.erase x)
  := by
  obtain ⟨h₁, hrun, hr, hgood⟩ := @construct_spec α getCnt h hh.occupied
  have ho₁ : h₁.Occupied h₁.size := by
    rw [hr.size]
    apply hr.occupied
  have helements := hr.elements.trans hh.elements
  cases hn : h.size with
  | zero =>
      rw [hn] at helements
      have hempty : inside = 0 := Multiset.map_eq_zero.mp helements.symm
      use none, h₁, bind_eq_ok.mpr ⟨h₁, hrun, if_pos (hr.size.trans hn)⟩, hr.max, hempty, ho₁
      rw [hr.size, hn]
      rfl
  | succ n =>
      obtain ⟨h₂, hget, ho₂, hsize, hmax, hpop⟩ :=
        @getMax_spec α getCnt h₁ n ho₁ (hr.size.trans hn)
      rw [hn] at helements
      have hfirst : h₁.data 1 ∈ inside.map some := by
        rw [← helements, hpop]
        apply Multiset.mem_cons_self _ _
      obtain ⟨x, hx, hsome⟩ := Multiset.mem_map.mp hfirst
      refine ⟨some x, h₂, bind_eq_ok.mpr ⟨h₁, hrun, hsome ▸ hget⟩, hmax.trans hr.max, hx, ?_, ho₂, ?_⟩
      · intro y hy
        have hin : some y ∈ BinaryHeap.elements h₁.data (n + 1) := by
          rw [helements]
          apply Multiset.mem_map_of_mem _ hy
        obtain ⟨i, hpos, hle, hi⟩ := BinaryHeap.mem_elements.mp hin
        have hroot := BinaryHeap.le_root hgood i hpos (hn ▸ hle)
        rwa [key, key, hi, ← hsome] at hroot
      · rw [← Multiset.cons_erase hx, Multiset.map_cons, hpop, ← hsome] at helements
        rw [hsize]
        apply (Multiset.cons_inj_right _).mp helements

end MaxHeap

/-! ### Runs -/

/-- A call, or the two calls that take an element.  The counts of the elements are another
function each time. -/
inductive HeapOp (α : Type) where
  | insertAppend (data : α)
  | takeMax (getCnt : α → BitVec 32)

namespace MaxHeap

variable {α : Type}

/-- The counts of the elements have one sign. -/
def OneSign (getCnt : α → BitVec 32) (inside : Multiset α) : Prop :=
  (∀ x ∈ inside, 0 ≤ (getCnt x).toInt) ∨ ∀ x ∈ inside, (getCnt x).toInt < 0

/-- There is room for an element that is put into the heap, and the counts have one sign when an
element is taken. -/
def Room (s : MaxHeap α × Multiset α) : HeapOp α → Prop
  | .insertAppend _ => s.1.size < s.1.max
  | .takeMax getCnt => OneSign getCnt s.2

instance decidableRoom (s : MaxHeap α × Multiset α) : ∀ op, Decidable (Room s op)
  | .insertAppend _ => inferInstanceAs (Decidable (s.1.size < s.1.max))
  | .takeMax getCnt =>
      inferInstanceAs (Decidable ((∀ x ∈ s.2, 0 ≤ (getCnt x).toInt) ∨
        ∀ x ∈ s.2, (getCnt x).toInt < 0))

/-- Among counts of one sign the `uint64_t` are ordered as the `int` are. -/
theorem toInt_le_of_cntOfInt {x y : BitVec 32}
    (hsign : (0 ≤ x.toInt ∧ 0 ≤ y.toInt) ∨ (x.toInt < 0 ∧ y.toInt < 0))
    (hle : (cntOfInt x).toNat ≤ (cntOfInt y).toNat) :
  x.toInt ≤ y.toInt
  := by
  have hx : (cntOfInt x).toInt = x.toInt := BitVec.toInt_signExtend_of_le (by decide)
  have hy : (cntOfInt y).toInt = y.toInt := BitVec.toInt_signExtend_of_le (by decide)
  rw [BitVec.toInt_eq_toNat_cond] at hx hy
  have hxlt := (cntOfInt x).isLt
  have hylt := (cntOfInt y).isLt
  split at hx <;> split at hy <;> omega

variable [DecidableEq α]

/-- One call on a heap, with the elements that have been put into it and not been taken. -/
def step (s : MaxHeap α × Multiset α) : HeapOp α → Except HeapAbort (MaxHeap α × Multiset α)
  | .insertAppend x => do
      let h ← s.1.insertAppend x
      return (h, x ::ₘ s.2)
  | .takeMax getCnt => do
      let (res, h) ← s.1.takeMax getCnt
      return (h, res.elim s.2 s.2.erase)

/-- In every run in which no element is put into a heap with `max` elements, and in which the
counts have one sign whenever an element is taken, the heap holds exactly the elements that have
been put into it and not been taken, in the slots `1` to `size`; and the element that is taken has
the largest count of all of them. -/
theorem takeMax_run {bn : ℕ} {ops : List (HeapOp α)}
    (hops : Guarded step Room ((init bn : MaxHeap α), 0) ops) :
  ∃ h inside, run step ((init bn : MaxHeap α), 0) ops = .ok (h, inside) ∧ h.Holds inside ∧
    ∀ getCnt, OneSign getCnt inside →
      ∃ res h', h.takeMax getCnt = .ok (res, h') ∧
        match res with
        | none => inside = 0 ∧ h'.Holds 0
        | some x => x ∈ inside ∧ (∀ y ∈ inside, (getCnt y).toInt ≤ (getCnt x).toInt) ∧
            h'.Holds (inside.erase x)
  := by
  obtain ⟨⟨h, inside⟩, hrun, hh⟩ := @run_progress _ _ _ step Room
    (fun _ s => s.1.Holds s.2) (by
      rintro - ⟨h, inside⟩ op hh hroom
      cases op with
      | insertAppend x =>
          obtain ⟨h', hins, -, hh'⟩ := Holds.insertAppend hh hroom x
          exact ⟨(h', x ::ₘ inside), bind_eq_ok.mpr ⟨h', hins, rfl⟩, hh'⟩
      | takeMax getCnt =>
          obtain ⟨res, h', htake, -, hres⟩ := Holds.takeMax hh getCnt
          use (h', res.elim inside inside.erase), bind_eq_ok.mpr ⟨(res, h'), htake, rfl⟩
          cases res with
          | none =>
              obtain ⟨rfl, hh'⟩ := hres
              apply hh'
          | some x => exact hres.2.2) _ [] _ (holds_init bn) hops
  use h, inside, hrun, hh
  intro getCnt hsign
  obtain ⟨res, h', htake, -, hres⟩ := hh.takeMax getCnt
  use res, h', htake
  cases res with
  | none => apply hres
  | some x =>
      obtain ⟨hx, hmax, hh'⟩ := hres
      refine ⟨hx, ?_, hh'⟩
      intro y hy
      apply toInt_le_of_cntOfInt _ (hmax y hy)
      rcases hsign with hpos | hneg
      · apply Or.inl ⟨hpos y hy, hpos x hx⟩
      · apply Or.inr ⟨hneg y hy, hneg x hx⟩

/-- A heap for three elements, from which the second of three is taken after their counts have
changed. -/
theorem takeMax_run_three :
  ∃ h inside, run step ((init 3 : MaxHeap ℕ), 0)
      [.insertAppend 5, .insertAppend 6, .takeMax fun x => BitVec.ofNat 32 x, .insertAppend 7]
        = .ok (h, inside) ∧ h.Holds inside
  := by
  obtain ⟨h, inside, hrun, hh, -⟩ := @takeMax_run ℕ _ 3
    [.insertAppend 5, .insertAppend 6, .takeMax fun x => BitVec.ofNat 32 x, .insertAppend 7]
    (by decide)
  exact ⟨h, inside, hrun, hh⟩

/-- One element more than `max` is accepted, and then putting the heap in order reads behind its
last slot. -/
theorem takeMax_behind_last_slot :
  ∃ h : MaxHeap ℕ, run step ((init 1 : MaxHeap ℕ), 0) [.insertAppend 5, .insertAppend 6]
      = .ok (h, {6, 5}) ∧
    h.takeMax (fun x => BitVec.ofNat 32 x) = .error .outOfBounds
  := by
  refine ⟨_, rfl, ?_⟩
  rfl

/-- An element with a negative count is taken before one with a positive count. -/
theorem takeMax_negative :
  ∃ h : MaxHeap ℕ, run step ((init 2 : MaxHeap ℕ), 0) [.insertAppend 5, .insertAppend 6]
      = .ok (h, {6, 5}) ∧
    ∃ h', h.takeMax (fun x => if x = 5 then -1 else 1) = .ok (some 5, h')
  := by
  refine ⟨_, rfl, ?_⟩
  exact ⟨_, rfl⟩

end MaxHeap

end AppL
