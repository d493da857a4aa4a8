import AppL.Search

/-!
# Fingerprints behind guards

The mapping function of type `GUARD_BF` keeps a fingerprint of every lba.  The fingerprints are
in groups of `__target_member`, in the order of the lbas, and the guard of a group is its first
lba.  A query looks for the group of an lba by the guards and for the first equal fingerprint in
it; a retry goes on from the offset that was returned before.
-/

namespace AppL

open Transition

/-- `NOT_FOUND`. -/
def notFound : ℕ := uint32Max

/-- `hashfunction`. -/
def hashfunction (key : BitVec 32) : BitVec 32 :=
  let key := key ^^^ (key >>> 15)
  let key := key * 0x2c1b3c6d
  let key := key ^^^ (key >>> 12)
  let key := key * 0x297a2d39
  let key := key ^^^ (key >>> 15)
  let key := ~~~key + (key <<< 15)
  let key := key ^^^ (key >>> 12)
  let key := key + (key <<< 2)
  let key := key ^^^ (key >>> 4)
  let key := key * 2057
  key ^^^ (key >>> 16)

/-- The fingerprint of `bits` bits that `bf_set` and `bf_check` take from the hash. -/
def symbolized (bits lba : ℕ) : ℕ :=
  (hashfunction (BitVec.ofNat 32 lba) &&& ((1 : BitVec 32) <<< bits - 1)).toNat

/-- `bfg_map`, with the counters of its `map_function`.  A group of `bf_set` holds the
fingerprints below its write pointer. -/
structure BfgMap where
  bfSet : List (List ℕ)
  guardSet : List ℕ
  writePointer : ℕ
  nowContentsNum : ℕ
  maxContentsNum : ℕ
  deriving DecidableEq, Repr

/-- The part of a `map_read_param` that the retries read. -/
structure BfgParam where
  lba : ℕ
  prevOffset : ℕ
  deriving DecidableEq, Repr

/-- `bfg_cmp`: the difference, as an `int`. -/
def bfgCmp (b target : ℕ) : ℤ := ((b : ℤ) - target).bmod (2 ^ 32)

/-- `CEIL`. -/
def ceilDiv (a b : ℕ) : ℕ := a / b + if a % b = 0 then 0 else 1

theorem lt_ceilDiv {n m k : ℕ} (hm : 0 < m) :
  k < ceilDiv n m ↔ k * m < n
  := by
  have hdiv := Nat.div_add_mod' n m
  have hmod := Nat.mod_lt n hm
  unfold ceilDiv
  constructor
  · intro h
    rcases Nat.lt_or_ge k (n / m) with hlt | hge
    · have hmul := Nat.mul_le_mul_right m (Nat.succ_le_of_lt hlt)
      rw [Nat.succ_mul] at hmul
      omega
    · split at h
      · omega
      · obtain rfl : k = n / m := by omega
        omega
  · intro h
    have hle : k ≤ n / m := (Nat.le_div_iff_mul_le hm).mpr h.le
    rcases Nat.lt_or_eq_of_le hle with hlt | rfl
    · omega
    · rw [if_neg (by omega)]
      omega

theorem sorted_lt {lbas : List ℕ} (hsorted : lbas.Pairwise (· < ·)) {i j x y : ℕ} (hij : i < j)
    (hi : lbas[i]? = some x) (hj : lbas[j]? = some y) :
  x < y
  := by
  obtain ⟨hi', rfl⟩ := List.getElem?_eq_some_iff.mp hi
  obtain ⟨hj', rfl⟩ := List.getElem?_eq_some_iff.mp hj
  apply List.pairwise_iff_getElem.mp hsorted i j hi' hj' hij

theorem getElem?_concat {α : Type} (l : List α) (x : α) (i : ℕ) :
  (l ++ [x])[i]? = if i = l.length then some x else l[i]?
  := by
  rw [List.getElem?_append]
  split
  · rw [if_neg (by omega)]
  · split
    · rename_i heq
      rw [heq, Nat.sub_self, List.getElem?_cons_zero]
    · rw [List.getElem?_eq_none (by rw [List.length_singleton]; omega),
        List.getElem?_eq_none (by omega)]

namespace BfgMap

section Operations

variable (fp : ℕ → ℕ) (m : ℕ) (map : BfgMap)

/-- `bfg_map_init`; `m` is `__target_member`. -/
def init (contentsNum : ℕ) : BfgMap where
  bfSet := List.replicate (ceilDiv contentsNum m) []
  guardSet := List.replicate (ceilDiv contentsNum m + 1) uint32Max
  writePointer := 0
  nowContentsNum := 0
  maxContentsNum := contentsNum

/-- `bfg_map_insert`, with `fp` as the fingerprints.  The offset is not kept: it is the number
of the entry. -/
def insert (lba : ℕ) : Except Abort BfgMap := do
  require .mapOverflow (map.nowContentsNum ≤ map.maxContentsNum)
  let nowWriteSetPtr := map.writePointer / m
  let tMap ← orThrow .outOfBounds map.bfSet[nowWriteSetPtr]?
  return { map with
    guardSet := if tMap.length = 0 then map.guardSet.set nowWriteSetPtr lba else map.guardSet
    bfSet := map.bfSet.set nowWriteSetPtr (tMap ++ [fp lba])
    writePointer := map.writePointer + 1
    nowContentsNum := map.nowContentsNum + 1 }

/-- The lbas are inserted one after another. -/
def insertAll (lbas : List ℕ) : Except Abort BfgMap := lbas.foldlM (fun map => map.insert fp m) map

/-- The loop over the fingerprints of a group from slot `i` on. -/
def checkFrom (lba : ℕ) : List ℕ → ℕ → Option ℕ
  | [], _ => none
  | bf :: bfs, i => if bf = fp lba then some i else checkFrom lba bfs (i + 1)

/-- The scan of `bfg_map_query` over one group. -/
def scan (lba targetSetIdx : ℕ) (tMap : List ℕ) : Option ℕ × BfgParam :=
  match checkFrom fp lba tMap 0 with
  | some i => (some (targetSetIdx * m + i), ⟨lba, targetSetIdx * m + i⟩)
  | none => (none, ⟨lba, targetSetIdx * m⟩)

/-- `bfg_map_query`. -/
def query (lba : ℕ) : Except Abort (Option ℕ × BfgParam) := do
  let idx ← bsLowerBound bfgCmp map.guardSet 0 (ceilDiv map.writePointer m) lba
  let guard ← orThrow .outOfBounds map.guardSet[idx]?
  if lba < guard ∧ idx = 0 then
    return (none, ⟨lba, 0⟩)
  else do
    let targetSetIdx := if lba < guard then idx - 1 else idx
    let tMap ← orThrow .outOfBounds map.bfSet[targetSetIdx]?
    return scan fp m lba targetSetIdx tMap

/-- `bfg_map_query_retry`. -/
def queryRetry (param : BfgParam) : Except Abort (Option ℕ × BfgParam) :=
  if map.writePointer ≤ param.prevOffset then
    .ok (none, param)
  else do
    let tMap ← orThrow .outOfBounds map.bfSet[param.prevOffset / m]?
    let prevOffset := param.prevOffset + 1
    let i := prevOffset % m
    match checkFrom fp param.lba (tMap.drop i) i with
    | some j => return (some (prevOffset + (j - i)), ⟨param.lba, prevOffset + (j - i)⟩)
    | none => return (none, ⟨param.lba, prevOffset + (tMap.length - i)⟩)

/-- The offsets that at most `n` calls of `bfg_map_query_retry` return; the flag tells whether
the last call has returned `NOT_FOUND`. -/
def retries : ℕ → BfgParam → Except Abort (List ℕ × Bool)
  | 0, _ => .ok ([], false)
  | n + 1, param => do
      let (res, param) ← map.queryRetry fp m param
      match res with
      | none => return ([], true)
      | some offset => do
          let (offsets, done) ← retries n param
          return (offset :: offsets, done)

/-- The offsets that `bfg_map_query` and at most `n` retries return. -/
def lookups (lba n : ℕ) : Except Abort (List ℕ × Bool) := do
  let (res, param) ← map.query fp m lba
  match res with
  | none => return ([], true)
  | some offset => do
      let (offsets, done) ← map.retries fp m n param
      return (offset :: offsets, done)

/-- A read of the sector at `offset` of the block at `pba` with `__check_data`, and the retries
that follow it; `n` is the largest number of page reads, and `oob` gives the lbas of the pieces.
The result is the piece that is found, and the number of pages that have been read. -/
def read (oob : ℕ → ℕ) (pba : ℕ) : ℕ → ℕ → BfgParam → Except Abort (Option ℕ × ℕ)
  | 0, _, _ => .error .endlessLoop
  | n + 1, offset, param =>
      if oob (pba * l2pgap + offset) = param.lba then
        .ok (some (pba * l2pgap + offset), 1)
      else do
        let (res, param) ← map.queryRetry fp m param
        match res with
        | none => return (none, 1)
        | some offset => do
            let (res, reads) ← read oob pba n offset param
            return (res, reads + 1)

/-- A lookup in the block at `pba` with at most `n` page reads. -/
def lookup (oob : ℕ → ℕ) (pba n lba : ℕ) : Except Abort (Option ℕ × ℕ) := do
  let (res, param) ← map.query fp m lba
  match res with
  | none => return (none, 0)
  | some offset => map.read fp m oob pba n offset param

end Operations

/-! ### Groups -/

/-- The lbas of a group. -/
def group (m : ℕ) (lbas : List ℕ) (k : ℕ) : List ℕ := (lbas.drop (k * m)).take m

/-- The lba is in the guard interval of group `k`. -/
def InGroup (m : ℕ) (lbas : List ℕ) (lba k : ℕ) : Prop :=
  (∃ guard, lbas[k * m]? = some guard ∧ guard ≤ lba) ∧
    ∀ next, lbas[(k + 1) * m]? = some next → lba < next

/-- The differences between an lba and the guards are `int`s. -/
def Comparable (m : ℕ) (lbas : List ℕ) (lba : ℕ) : Prop :=
  ∀ k guard, lbas[k * m]? = some guard → guard < lba + 2 ^ 31 ∧ lba < guard + 2 ^ 31

variable {fp : ℕ → ℕ} {m : ℕ} {map map' : BfgMap} {lbas : List ℕ} {lba k : ℕ}

theorem length_group :
  (group m lbas k).length = min m (lbas.length - k * m)
  := by rw [group, List.length_take, List.length_drop]

theorem group_getElem? {i : ℕ} (hi : i < m) :
  (group m lbas k)[i]? = lbas[k * m + i]?
  := by rw [group, List.getElem?_take_of_lt hi, List.getElem?_drop]

/-- A further lba is the last one of its group. -/
theorem group_concat (hm : 0 < m) (k x : ℕ) :
  group m (lbas ++ [x]) k
    = if k = lbas.length / m then group m lbas k ++ [x] else group m lbas k
  := by
  have hdiv := Nat.div_add_mod' lbas.length m
  have hmod := Nat.mod_lt lbas.length hm
  unfold group
  split
  · rename_i hk
    subst hk
    rw [List.drop_append_of_le_length (by omega), List.take_of_length_le,
      List.take_of_length_le]
    · rw [List.length_drop]
      omega
    · rw [List.length_append, List.length_drop, List.length_singleton]
      omega
  · rename_i hk
    rcases Nat.lt_or_gt_of_ne hk with hlt | hgt
    · have hmul := Nat.mul_le_mul_right m (Nat.succ_le_of_lt hlt)
      rw [Nat.succ_mul] at hmul
      rw [List.drop_append_of_le_length (by omega), List.take_append_of_le_length]
      rw [List.length_drop]
      omega
    · have hmul := Nat.mul_le_mul_right m (Nat.succ_le_of_lt hgt)
      rw [Nat.succ_mul] at hmul
      rw [List.drop_eq_nil_of_le, List.drop_eq_nil_of_le]
      · omega
      · rw [List.length_append, List.length_singleton]
        omega

/-! ### Insertions -/

/-- The map of `n` groups holds the guards and the fingerprints of the lbas. -/
structure Indexes (fp : ℕ → ℕ) (m n : ℕ) (lbas : List ℕ) (map : BfgMap) : Prop where
  bfSet : ∀ k, map.bfSet[k]? = if k < n then some ((group m lbas k).map fp) else none
  guardSet : ∀ k, map.guardSet[k]?
    = if k ≤ n then some (lbas[k * m]?.getD uint32Max) else none
  writePointer : map.writePointer = lbas.length
  nowContentsNum : map.nowContentsNum = lbas.length
  fits : lbas.length ≤ n * m

theorem init_indexes (m contentsNum : ℕ) :
  Indexes fp m (ceilDiv contentsNum m) [] (init m contentsNum)
  := by
  constructor
  · intro k
    rw [init, List.getElem?_replicate, group, List.drop_nil, List.take_nil, List.map_nil]
  · intro k
    rw [init, List.getElem?_replicate]
    simp only [Nat.lt_succ_iff, List.getElem?_nil, Option.getD_none]
  · rfl
  · rfl
  · apply Nat.zero_le _

/-- One insertion adds an lba to the last group or starts the next one. -/
theorem insert_indexes {n : ℕ} (hm : 0 < m) (h : Indexes fp m n lbas map)
    (hcap : lbas.length ≤ map.maxContentsNum) (hroom : lbas.length < n * m) (lba : ℕ) :
  ∃ map', map.insert fp m lba = .ok map' ∧ Indexes fp m n (lbas ++ [lba]) map' ∧
    map'.maxContentsNum = map.maxContentsNum
  := by
  have hdiv := Nat.div_add_mod' lbas.length m
  have hmod := Nat.mod_lt lbas.length hm
  have hk : lbas.length / m < n := (Nat.div_lt_iff_lt_mul hm).mpr hroom
  have hset := h.bfSet (lbas.length / m)
  have hguard := h.guardSet (lbas.length / m)
  rw [if_pos hk] at hset
  rw [if_pos hk.le] at hguard
  have hlen : ((group m lbas (lbas.length / m)).map fp).length = lbas.length % m := by
    rw [List.length_map, length_group]
    omega
  have heq : map.insert fp m lba = .ok { map with
      guardSet := if lbas.length % m = 0 then map.guardSet.set (lbas.length / m) lba
        else map.guardSet
      bfSet := map.bfSet.set (lbas.length / m)
        ((group m lbas (lbas.length / m)).map fp ++ [fp lba])
      writePointer := map.writePointer + 1
      nowContentsNum := map.nowContentsNum + 1 } := by
    unfold insert
    simp only [h.nowContentsNum, h.writePointer, require, if_pos hcap, hset, hlen, orThrow, bind,
      Except.bind, pure, Except.pure]
  refine ⟨_, heq, ?_, rfl⟩
  constructor
  · intro k
    simp only [List.getElem?_set, group_concat hm]
    split
    · rename_i hkk
      subst hkk
      rw [if_pos (List.getElem?_eq_some_iff.mp hset).1, if_pos hk, if_pos rfl,
        List.map_append, List.map_singleton]
    · rename_i hkk
      rw [h.bfSet, if_neg (Ne.symm hkk)]
  · intro k
    simp only [getElem?_concat]
    by_cases hidx : k * m = lbas.length
    · have hkk : lbas.length / m = k := by rw [← hidx, Nat.mul_div_cancel k hm]
      rw [hkk] at hguard hk ⊢
      rw [← hidx, Nat.mul_mod_left, if_pos rfl, List.getElem?_set_self
        (List.getElem?_eq_some_iff.mp hguard).1, if_pos hk.le, if_pos rfl, Option.getD_some]
    · rw [if_neg hidx, ← h.guardSet]
      split
      · rename_i hfirst
        rw [List.getElem?_set_ne]
        intro hkk
        rw [hkk] at hdiv
        omega
      · rfl
  · rw [List.length_append, List.length_singleton, h.writePointer]
  · rw [List.length_append, List.length_singleton, h.nowContentsNum]
  · rw [List.length_append, List.length_singleton]
    omega

/-- As many lbas as the map was made for are inserted. -/
theorem insertAll_indexes (hm : 0 < m) (rest : List ℕ) :
  ∀ {lbas : List ℕ} {map : BfgMap},
    Indexes fp m (ceilDiv map.maxContentsNum m) lbas map →
    lbas.length + rest.length ≤ map.maxContentsNum →
    ∃ map', map.insertAll fp m rest = .ok map' ∧
      Indexes fp m (ceilDiv map.maxContentsNum m) (lbas ++ rest) map'
  := by
  induction rest with
  | nil =>
      intro lbas map h _
      exact ⟨map, rfl, by rwa [List.append_nil]⟩
  | cons lba rest ih =>
      intro lbas map h hcap
      rw [List.length_cons] at hcap
      have hroom : lbas.length < ceilDiv map.maxContentsNum m * m := by
        by_contra hge
        have := mt (lt_ceilDiv hm).mpr (Nat.lt_irrefl (ceilDiv map.maxContentsNum m))
        omega
      obtain ⟨map₁, h₁, hind, hmax⟩ := insert_indexes hm h (by omega) hroom lba
      rw [← hmax] at hind hcap ⊢
      rw [insertAll, List.foldlM_cons]
      obtain ⟨map', h', hind'⟩ := ih hind (by rw [List.length_append, List.length_singleton]; omega)
      refine ⟨map', ?_, by rwa [List.append_assoc] at hind'⟩
      rw [bind_eq_ok]
      use map₁, h₁, h'

theorem insertAll_init (hm : 0 < m) {contentsNum : ℕ} (hcap : lbas.length ≤ contentsNum) :
  ∃ map, (init m contentsNum).insertAll fp m lbas = .ok map ∧
    Indexes fp m (ceilDiv contentsNum m) lbas map
  := by
  have hlen : ([] : List ℕ).length + lbas.length ≤ (init m contentsNum).maxContentsNum := by
    rw [List.length_nil, Nat.zero_add]
    apply hcap
  apply insertAll_indexes hm lbas (init_indexes m contentsNum) hlen

/-! ### Queries -/

/-- An lba that was inserted is in the guard interval of its group. -/
theorem inGroup_of_getElem? (hm : 0 < m) (hsorted : lbas.Pairwise (· < ·)) {j : ℕ}
    (hj : lbas[j]? = some lba) :
  InGroup m lbas lba (j / m)
  := by
  have hdiv := Nat.div_add_mod' j m
  have hmod := Nat.mod_lt j hm
  have hlen := (List.getElem?_eq_some_iff.mp hj).1
  constructor
  · obtain ⟨guard, hguard⟩ : ∃ x, lbas[j / m * m]? = some x :=
      ⟨_, List.getElem?_eq_getElem (by omega)⟩
    use guard, hguard
    rcases Nat.eq_zero_or_pos (j % m) with h0 | hpos
    · rw [show j / m * m = j by omega, hj] at hguard
      cases hguard
      apply Nat.le_refl _
    · apply (sorted_lt hsorted (by omega) hguard hj).le
  · intro next hnext
    rw [Nat.succ_mul] at hnext
    apply sorted_lt hsorted (by omega) hj hnext

theorem inGroup_unique (hsorted : lbas.Pairwise (· < ·)) {k' : ℕ} (h : InGroup m lbas lba k)
    (h' : InGroup m lbas lba k') :
  k = k'
  := by
  have key : ∀ {k k' : ℕ}, InGroup m lbas lba k → InGroup m lbas lba k' → ¬ k < k' := by
    rintro k k' ⟨-, hnext⟩ ⟨⟨guard, hguard, hle⟩, -⟩ hlt
    have hmul := Nat.mul_le_mul_right m (Nat.succ_le_of_lt hlt)
    have hlen := (List.getElem?_eq_some_iff.mp hguard).1
    obtain ⟨next, hn⟩ : ∃ x, lbas[(k + 1) * m]? = some x :=
      ⟨_, List.getElem?_eq_getElem (hmul.trans_lt hlen)⟩
    have hlba := hnext next hn
    rcases Nat.lt_or_eq_of_le hmul with hlt' | heq
    · have := sorted_lt hsorted hlt' hn hguard
      omega
    · rw [← heq, Nat.succ_eq_add_one, hn] at hguard
      cases hguard
      omega
  rcases Nat.lt_trichotomy k k' with hlt | heq | hgt
  · apply (key h h' hlt).elim
  · apply heq
  · apply (key h' h hgt).elim

theorem bfgCmp_neg_iff {b target : ℕ} (h : b < target + 2 ^ 31 ∧ target < b + 2 ^ 31) :
  bfgCmp b target < 0 ↔ b < target
  := by
  have heq : bfgCmp b target = (b : ℤ) - target := by
    apply Int.bmod_eq_of_le
    · omega
    · omega
  omega

/-- The query scans the group of the lba, when there is one. -/
theorem query_group {n : ℕ} (hm : 0 < m) (h : Indexes fp m n lbas map)
    (hsorted : lbas.Pairwise (· < ·)) (hcmp : Comparable m lbas lba) (hlba : lba < uint32Max) :
  (∃ k, InGroup m lbas lba k ∧
      map.query fp m lba = .ok (scan fp m lba k ((group m lbas k).map fp))) ∨
    (∀ k, ¬ InGroup m lbas lba k) ∧ map.query fp m lba = .ok (none, ⟨lba, 0⟩)
  := by
  have hstop : ceilDiv lbas.length m ≤ n := by
    by_contra hlt
    have := (lt_ceilDiv hm).mp (not_le.mp hlt)
    have := h.fits
    omega
  have hguards : n < map.guardSet.length := by
    have := h.guardSet n
    rw [if_pos (Nat.le_refl n)] at this
    apply (List.getElem?_eq_some_iff.mp this).1
  have hguard : ∀ {k g : ℕ}, k < ceilDiv lbas.length m →
      (map.guardSet[k]? = some g ↔ lbas[k * m]? = some g) := by
    intro k g hk
    rw [h.guardSet, if_pos (by omega), List.getElem?_eq_getElem ((lt_ceilDiv hm).mp hk),
      Option.getD_some]
  have hsplit : Split bfgCmp map.guardSet (ceilDiv lbas.length m) lba := by
    intro i j x y hij hj hx hy hneg
    rw [hguard (hij.trans hj)] at hx
    rw [hguard hj] at hy
    rw [bfgCmp_neg_iff (hcmp j y hy)] at hneg
    rw [bfgCmp_neg_iff (hcmp i x hx)]
    apply (sorted_lt hsorted (Nat.mul_lt_mul_of_pos_right hij hm) hx hy).trans hneg
  obtain ⟨r, hr, hrle, hbelow, habove⟩ := bsLowerBound_spec hsplit (by omega)
  have hset : ∀ {k}, k * m < lbas.length →
      map.bfSet[k]? = some ((group m lbas k).map fp) := by
    intro k hk
    rw [h.bfSet, if_pos (((lt_ceilDiv hm).mpr hk).trans_le hstop)]
  have hat := h.guardSet r
  rw [if_pos (hrle.trans hstop)] at hat
  have heq : map.query fp m lba
      = if lba < lbas[r * m]?.getD uint32Max ∧ r = 0 then .ok (none, ⟨lba, 0⟩)
        else do
          let tMap ← orThrow .outOfBounds
            map.bfSet[if lba < lbas[r * m]?.getD uint32Max then r - 1 else r]?
          return scan fp m lba (if lba < lbas[r * m]?.getD uint32Max then r - 1 else r) tMap := by
    unfold query
    simp only [h.writePointer, hr, hat, orThrow, bind, Except.bind]
    rfl
  rw [heq]
  by_cases hlt : lba < lbas[r * m]?.getD uint32Max
  · simp only [if_pos hlt]
    cases r with
    | zero =>
        right
        rw [if_pos ⟨hlt, rfl⟩]
        refine ⟨?_, rfl⟩
        rintro k ⟨⟨guard, hk, hle⟩, -⟩
        rw [Nat.zero_mul] at hlt
        have hlen := (List.getElem?_eq_some_iff.mp hk).1
        rcases Nat.eq_zero_or_pos (k * m) with h0 | hpos
        · rw [h0] at hk
          rw [hk, Option.getD_some] at hlt
          omega
        · have h0 : lbas[0]? = some lbas[0] := List.getElem?_eq_getElem (by omega)
          rw [h0, Option.getD_some] at hlt
          have := sorted_lt hsorted hpos h0 hk
          omega
    | succ r =>
        left
        have hin := (lt_ceilDiv hm).mp (Nat.lt_of_succ_le hrle)
        obtain ⟨guard, hg⟩ : ∃ x, lbas[r * m]? = some x := ⟨_, List.getElem?_eq_getElem hin⟩
        refine ⟨r, ⟨⟨_, hg, ?_⟩, ?_⟩, ?_⟩
        · have hneg := hbelow r _ (Nat.lt_succ_self r) ((hguard (by omega)).mpr hg)
          rw [bfgCmp_neg_iff (hcmp r guard hg)] at hneg
          apply hneg.le
        · intro next hnext
          rwa [hnext, Option.getD_some] at hlt
        · rw [if_neg (by omega), Nat.add_sub_cancel, hset hin]
          rfl
  · left
    simp only [hlt, false_and, if_false]
    cases hg : lbas[r * m]? with
    | none =>
        rw [hg, Option.getD_none] at hlt
        omega
    | some guard =>
        have hin := (List.getElem?_eq_some_iff.mp hg).1
        have hrs := (lt_ceilDiv hm).mpr hin
        rw [hg, Option.getD_some] at hlt
        refine ⟨r, ⟨⟨guard, hg, not_lt.mp hlt⟩, ?_⟩, ?_⟩
        · intro next hnext
          have hge := habove r guard (Nat.le_refl r) hrs ((hguard hrs).mpr hg)
          have hcmp' := bfgCmp_neg_iff (hcmp r guard hg)
          have := sorted_lt hsorted (Nat.mul_lt_mul_of_pos_right (Nat.lt_succ_self r) hm) hg hnext
          omega
        · rw [hset hin]
          rfl

/-! ### Retries -/

/-- The scan from slot `i` on stops at the first equal fingerprint. -/
theorem checkFrom_eq_some {bfs : List ℕ} :
  ∀ {i j : ℕ}, checkFrom fp lba bfs i = some j →
    ∃ d, j = i + d ∧ bfs[d]? = some (fp lba)
  := by
  induction bfs with
  | nil =>
      intro i j h
      cases h
  | cons bf bfs ih =>
      intro i j h
      rw [checkFrom] at h
      split at h
      · rename_i heq
        cases h
        use 0, rfl, by rw [List.getElem?_cons_zero, heq]
      · obtain ⟨d, rfl, hd⟩ := ih h
        use d + 1, by omega, by rwa [List.getElem?_cons_succ]

/-- The scan does not go over an equal fingerprint. -/
theorem checkFrom_of_getElem? {bfs : List ℕ} :
  ∀ {i d : ℕ}, bfs[d]? = some (fp lba) →
    ∃ j, checkFrom fp lba bfs i = some j ∧ j ≤ i + d
  := by
  induction bfs with
  | nil =>
      intro i d h
      rw [List.getElem?_nil] at h
      cases h
  | cons bf bfs ih =>
      intro i d h
      rw [checkFrom]
      split
      · use i, rfl, Nat.le_add_right i d
      · rename_i hne
        cases d with
        | zero =>
            rw [List.getElem?_cons_zero] at h
            apply (hne (Option.some.inj h)).elim
        | succ d =>
            rw [List.getElem?_cons_succ] at h
            obtain ⟨j, hj, hle⟩ := @ih (i + 1) d h
            use j, hj, by omega

/-- The fingerprint of slot `i` of group `k` is that of the lba. -/
def Hit (fp : ℕ → ℕ) (m : ℕ) (lbas : List ℕ) (lba k i : ℕ) : Prop :=
  ((group m lbas k).map fp)[i]? = some (fp lba)

theorem Hit.lt {i : ℕ} (h : Hit fp m lbas lba k i) :
  i < m ∧ k * m + i < lbas.length
  := by
  have hlt := (List.getElem?_eq_some_iff.mp h).1
  rw [List.length_map, length_group] at hlt
  omega

theorem hit_iff {i : ℕ} (hi : i < m) :
  Hit fp m lbas lba k i ↔ ∃ x, lbas[k * m + i]? = some x ∧ fp x = fp lba
  := by
  unfold Hit
  rw [List.getElem?_map, group_getElem? hi]
  cases lbas[k * m + i]? with
  | none => simp
  | some x => simp

/-- The next slot of a scan that goes on at slot `i`. -/
theorem checkFrom_drop {i : ℕ} :
  (∃ j, checkFrom fp lba (((group m lbas k).map fp).drop i) i = some j ∧ i ≤ j ∧
      Hit fp m lbas lba k j ∧ ∀ t, i ≤ t → Hit fp m lbas lba k t → j ≤ t) ∨
    checkFrom fp lba (((group m lbas k).map fp).drop i) i = none ∧
      ∀ t, i ≤ t → ¬ Hit fp m lbas lba k t
  := by
  have hle : ∀ t, i ≤ t → Hit fp m lbas lba k t →
      ∃ j, checkFrom fp lba (((group m lbas k).map fp).drop i) i = some j ∧ j ≤ t := by
    intro t hit hhit
    rw [Hit, ← Nat.add_sub_cancel' hit, ← List.getElem?_drop] at hhit
    obtain ⟨j, hj, hjle⟩ := checkFrom_of_getElem? (i := i) hhit
    use j, hj, by omega
  cases hc : checkFrom fp lba (((group m lbas k).map fp).drop i) i with
  | none =>
      right
      refine ⟨rfl, fun t hit hhit => ?_⟩
      obtain ⟨j, hj, -⟩ := hle t hit hhit
      rw [hc] at hj
      cases hj
  | some j =>
      left
      obtain ⟨d, rfl, hd⟩ := checkFrom_eq_some hc
      rw [List.getElem?_drop] at hd
      refine ⟨_, rfl, Nat.le_add_right i d, hd, fun t hit hhit => ?_⟩
      obtain ⟨j, hj, hjt⟩ := hle t hit hhit
      rw [hc] at hj
      cases hj
      apply hjt

/-- A retry goes on at the slot behind the one of the previous offset. -/
theorem queryRetry_slot {n i s : ℕ} (h : Indexes fp m n lbas map) (him : i < m)
    (hi : k * m + i < lbas.length) (hs : (i + 1) % m = s) :
  map.queryRetry fp m ⟨lba, k * m + i⟩
    = match checkFrom fp lba (((group m lbas k).map fp).drop s) s with
      | some j => .ok (some (k * m + i + 1 + (j - s)), ⟨lba, k * m + i + 1 + (j - s)⟩)
      | none => .ok (none, ⟨lba, k * m + i + 1 + ((group m lbas k).length - s)⟩)
  := by
  have hm : 0 < m := by omega
  have hk : k < n := by
    have := h.fits
    by_contra hge
    have := Nat.mul_le_mul_right m (not_lt.mp hge)
    omega
  have hdiv : (k * m + i) / m = k := by
    rw [Nat.mul_comm, Nat.mul_add_div hm, Nat.div_eq_of_lt him, Nat.add_zero]
  have hmod : (k * m + i + 1) % m = s := by
    rw [Nat.add_assoc, Nat.mul_comm, Nat.mul_add_mod, hs]
  have hlt : ¬ map.writePointer ≤ k * m + i := by
    rw [h.writePointer]
    omega
  unfold queryRetry
  rw [if_neg hlt]
  simp only [hdiv, hmod, h.bfSet, if_pos hk, orThrow, bind, Except.bind, List.length_map]
  split
  · rfl
  · rfl

/-- The retries after an offset with a further equal fingerprint in the group. -/
theorem retries_next {n i j : ℕ} (h : Indexes fp m n lbas map) (hi : Hit fp m lbas lba k i)
    (hij : i < j) (hj : checkFrom fp lba (((group m lbas k).map fp).drop (i + 1)) (i + 1) = some j)
    (hhit : Hit fp m lbas lba k j) (r : ℕ) :
  map.retries fp m (r + 1) ⟨lba, k * m + i⟩ = do
    let (offsets, done) ← map.retries fp m r ⟨lba, k * m + j⟩
    return ((k * m + j) :: offsets, done)
  := by
  have hjm := hhit.lt.1
  have hmod : (i + 1) % m = i + 1 := Nat.mod_eq_of_lt (by omega)
  rw [retries, queryRetry_slot h hi.lt.1 hi.lt.2 hmod, hj]
  have heq : k * m + i + 1 + (j - (i + 1)) = k * m + j := by omega
  simp only [heq, bind, Except.bind]

/-- The retries after an offset without a further equal fingerprint in the group. -/
theorem retries_done {n i : ℕ} (h : Indexes fp m n lbas map) (hi : Hit fp m lbas lba k i)
    (him : i + 1 < m)
    (hnone : checkFrom fp lba (((group m lbas k).map fp).drop (i + 1)) (i + 1) = none) (r : ℕ) :
  map.retries fp m (r + 1) ⟨lba, k * m + i⟩ = .ok ([], true)
  := by
  rw [retries, queryRetry_slot h hi.lt.1 hi.lt.2 (Nat.mod_eq_of_lt him), hnone]
  rfl

/-- A retry after the last slot of a full group scans the group again, and its offset is in the
next one. -/
theorem retries_wrap {n i j : ℕ} (h : Indexes fp m n lbas map) (hi : Hit fp m lbas lba k i)
    (him : i + 1 = m) (hj : checkFrom fp lba ((group m lbas k).map fp) 0 = some j) (r : ℕ) :
  map.retries fp m (r + 1) ⟨lba, k * m + i⟩ = do
    let (offsets, done) ← map.retries fp m r ⟨lba, (k + 1) * m + j⟩
    return (((k + 1) * m + j) :: offsets, done)
  := by
  have hmod : (i + 1) % m = 0 := by rw [him, Nat.mod_self]
  rw [retries, queryRetry_slot h hi.lt.1 hi.lt.2 hmod, List.drop_zero, hj]
  have heq : k * m + i + 1 + (j - 0) = (k + 1) * m + j := by
    rw [Nat.succ_mul]
    omega
  simp only [heq, bind, Except.bind]

/-- From one equal fingerprint of a group the retries come to every later one. -/
theorem retries_reach {n : ℕ} (h : Indexes fp m n lbas map) {t : ℕ}
    (ht : Hit fp m lbas lba k t) (fuel : ℕ) :
  ∀ {i : ℕ}, t - i ≤ fuel → i ≤ t → Hit fp m lbas lba k i →
    ∃ c offsets, c ≤ t - i ∧
      (∀ r, map.retries fp m (c + r) ⟨lba, k * m + i⟩ = do
        let (rest, done) ← map.retries fp m r ⟨lba, k * m + t⟩
        return (offsets ++ rest, done)) ∧
      ((k * m + i) :: offsets).Pairwise (· < ·) ∧
      ((k * m + i) :: offsets).getLast? = some (k * m + t) ∧
      ∀ o ∈ (k * m + i) :: offsets, o / m = k
  := by
  have hslot : ∀ {i}, Hit fp m lbas lba k i → (k * m + i) / m = k := by
    intro i hi
    have him := hi.lt.1
    rw [Nat.mul_comm, Nat.mul_add_div (by omega), Nat.div_eq_of_lt him, Nat.add_zero]
  induction fuel with
  | zero =>
      intro i hf hit hi
      obtain rfl : i = t := by omega
      refine ⟨0, [], by omega, ?_, List.pairwise_singleton _ _, rfl, ?_⟩
      · intro r
        rw [Nat.zero_add]
        cases map.retries fp m r ⟨lba, k * m + i⟩ with
        | error e => rfl
        | ok res => rfl
      · intro o ho
        rw [List.mem_singleton] at ho
        rw [ho, hslot hi]
  | succ fuel ih =>
      intro i hf hit hi
      rcases Nat.lt_or_eq_of_le hit with hlt | rfl
      · rcases checkFrom_drop (i := i + 1) with ⟨j, hj, hij, hhit, hmin⟩ | ⟨-, hnone⟩
        · obtain ⟨c, offsets, hc, hret, hpair, hlast, hgroup⟩ :=
            ih (i := j) (by omega) (hmin t hlt ht) hhit
          have hjt := hmin t hlt ht
          refine ⟨c + 1, (k * m + j) :: offsets, by omega, ?_, ?_, ?_, ?_⟩
          · intro r
            rw [Nat.add_right_comm, retries_next h hi hij hj hhit, hret]
            cases map.retries fp m r ⟨lba, k * m + t⟩ with
            | error e => rfl
            | ok res => rfl
          · rw [List.pairwise_cons]
            refine ⟨?_, hpair⟩
            intro o ho
            rcases List.mem_cons.mp ho with rfl | ho
            · omega
            · have := (List.pairwise_cons.mp hpair).1 o ho
              omega
          · rwa [List.getLast?_cons_cons]
          · intro o ho
            rcases List.mem_cons.mp ho with rfl | ho
            · apply hslot hi
            · apply hgroup o ho
        · apply (hnone t hlt ht).elim
      · apply ih (by omega) (Nat.le_refl i) hi

/-- The retries end in the group, when the last slot of a full group is no hit. -/
theorem retries_end {n : ℕ} (h : Indexes fp m n lbas map)
    (hlast : ∀ t, Hit fp m lbas lba k t → t + 1 < m) (r : ℕ) :
  ∀ {i : ℕ}, m ≤ r + i → Hit fp m lbas lba k i →
    ∃ offsets, map.retries fp m r ⟨lba, k * m + i⟩ = .ok (offsets, true) ∧
      ∀ o ∈ offsets, ∃ t, Hit fp m lbas lba k t ∧ o = k * m + t
  := by
  induction r with
  | zero =>
      intro i hr hi
      have := hi.lt.1
      omega
  | succ r ih =>
      intro i hr hi
      rcases checkFrom_drop (i := i + 1) with ⟨j, hj, hij, hhit, -⟩ | ⟨hnone, -⟩
      · obtain ⟨offsets, hret, hall⟩ := ih (i := j) (by omega) hhit
        refine ⟨(k * m + j) :: offsets, ?_, ?_⟩
        · rw [retries_next h hi hij hj hhit, hret]
          rfl
        · intro o ho
          rcases List.mem_cons.mp ho with rfl | ho
          · exact ⟨j, hhit, rfl⟩
          · apply hall o ho
      · use [], retries_done h hi (hlast i hi) hnone r, by simp

/-- What a query with its retries gives, when the lba is in a group. -/
theorem lookups_eq {n i : ℕ}
    (hquery : map.query fp m lba = .ok (scan fp m lba k ((group m lbas k).map fp)))
    (hi : checkFrom fp lba ((group m lbas k).map fp) 0 = some i) :
  map.lookups fp m lba n = do
    let (offsets, done) ← map.retries fp m n ⟨lba, k * m + i⟩
    return ((k * m + i) :: offsets, done)
  := by
  rw [lookups, hquery, scan, hi]
  rfl

theorem lookups_none {n : ℕ}
    (hquery : map.query fp m lba = .ok (scan fp m lba k ((group m lbas k).map fp)))
    (hnone : checkFrom fp lba ((group m lbas k).map fp) 0 = none) :
  map.lookups fp m lba n = .ok ([], true)
  := by
  rw [lookups, hquery, scan, hnone]
  rfl

/-! ### Lookups -/

/-- A query for an lba and its retries give increasing offsets of the lba's own group, and come
to the offset at which it was inserted. -/
theorem lookups_reach (fp : ℕ → ℕ) {m : ℕ} (hm : 1 ≤ m) {lbas : List ℕ}
    (hsorted : lbas.Pairwise (· < ·)) (hbelow : ∀ lba ∈ lbas, lba < 2 ^ 31) {contentsNum : ℕ}
    (hcap : lbas.length ≤ contentsNum) {lba j : ℕ} (hj : lbas[j]? = some lba) :
  ∃ map, (init m contentsNum).insertAll fp m lbas = .ok map ∧
    ∃ n offsets, map.lookups fp m lba n = .ok (offsets, false) ∧ offsets.Pairwise (· < ·) ∧
      (∀ o ∈ offsets, o / m = j / m) ∧ offsets.getLast? = some j
  := by
  obtain ⟨map, hmap, hind⟩ := insertAll_init hm hcap
  use map, hmap
  have hdiv := Nat.div_add_mod' j m
  have hlba := hbelow lba (List.mem_of_getElem? hj)
  have hcmp : Comparable m lbas lba := by
    intro k guard hguard
    have := hbelow guard (List.mem_of_getElem? hguard)
    omega
  have hin := inGroup_of_getElem? hm hsorted hj
  have hmax : lba < uint32Max := by
    have : uint32Max = 2 ^ 32 - 1 := rfl
    omega
  rcases query_group hm hind hsorted hcmp hmax with ⟨k, hk, hquery⟩ | ⟨hnone, -⟩
  · obtain rfl := inGroup_unique hsorted hk hin
    have hhit : Hit fp m lbas lba (j / m) (j % m) := by
      rw [hit_iff (Nat.mod_lt j hm), hdiv]
      exact ⟨lba, hj, rfl⟩
    rcases checkFrom_drop (i := 0) with ⟨i, hi, -, hiHit, hmin⟩ | ⟨-, hno⟩
    · obtain ⟨c, offsets, -, hret, hpair, hlast, hgroup⟩ :=
        retries_reach hind hhit _ (Nat.le_refl _) (hmin _ (Nat.zero_le _) hhit) hiHit
      rw [hdiv] at hlast
      refine ⟨c, _, ?_, hpair, hgroup, hlast⟩
      rw [lookups_eq hquery hi, ← Nat.add_zero c, hret 0]
      simp only [retries, bind, Except.bind, pure, Except.pure, List.append_nil]
    · apply (hno _ (Nat.zero_le _) hhit).elim
  · apply (hnone _ hin).elim

/-- Three lbas with one fingerprint in groups of two. -/
theorem lookups_reach_sameFingerprint :
  ∃ map, (init 2 3).insertAll (fun _ => 0) 2 [10, 20, 30] = .ok map ∧
    ∃ n offsets, map.lookups (fun _ => 0) 2 20 n = .ok (offsets, false) ∧
      offsets.Pairwise (· < ·) ∧ (∀ o ∈ offsets, o / 2 = 1 / 2) ∧ offsets.getLast? = some 1
  := lookups_reach (fun _ => 0) (by decide) (by decide) (by decide) (by decide) rfl

/-- A query for an lba that is not there and its retries end after `m + 1` calls at most, and
their offsets are those of entries in the lba's guard interval. -/
def EndsInGroup (fp : ℕ → ℕ) (m : ℕ) (lbas : List ℕ) (map : BfgMap) (lba : ℕ) : Prop :=
  ∃ offsets, map.lookups fp m lba m = .ok (offsets, true) ∧
    ∀ o ∈ offsets, o < lbas.length ∧ ∃ k, InGroup m lbas lba k ∧ o / m = k

/-- The last slot of a full group, in whose guard interval the lba is, has another
fingerprint. -/
def LastSlotDiffers (fp : ℕ → ℕ) (m : ℕ) (lbas : List ℕ) (lba : ℕ) : Prop :=
  ∀ k x, InGroup m lbas lba k → lbas[k * m + (m - 1)]? = some x → fp x ≠ fp lba

/-- The lookup of an lba ends in its group exactly when the last slot of the group, when it is
full, is no false positive. -/
theorem endsInGroup_iff (fp : ℕ → ℕ) {m : ℕ} (hm : 1 ≤ m) {lbas : List ℕ}
    (hsorted : lbas.Pairwise (· < ·)) {contentsNum : ℕ} (hcap : lbas.length ≤ contentsNum)
    {lba : ℕ} (hlba : lba < uint32Max) (hcmp : Comparable m lbas lba) :
  ∃ map, (init m contentsNum).insertAll fp m lbas = .ok map ∧
    (EndsInGroup fp m lbas map lba ↔ LastSlotDiffers fp m lbas lba)
  := by
  obtain ⟨map, hmap, hind⟩ := insertAll_init hm hcap
  use map, hmap
  rcases query_group hm hind hsorted hcmp hlba with ⟨k, hk, hquery⟩ | ⟨hnone, hquery⟩
  · have hslot : ∀ {k t : ℕ}, t < m → (k * m + t) / m = k := by
      intro k t ht
      rw [Nat.mul_comm, Nat.mul_add_div hm, Nat.div_eq_of_lt ht, Nat.add_zero]
    rcases checkFrom_drop (i := 0) with ⟨i, hi, -, hiHit, hmin⟩ | ⟨hno, hnoHit⟩
    · constructor
      · rintro ⟨offsets, hlook, hall⟩ k' x hk' hx heq
        obtain rfl := inGroup_unique hsorted hk hk'
        have hhit : Hit fp m lbas lba k (m - 1) := (hit_iff (by omega)).mpr ⟨x, hx, heq⟩
        obtain ⟨c, found, hc, hret, -, -, -⟩ :=
          retries_reach hind hhit _ (Nat.le_refl _) (hmin _ (Nat.zero_le _) hhit) hiHit
        obtain ⟨r, rfl⟩ : ∃ r, m = c + (r + 1) := ⟨m - c - 1, by omega⟩
        rw [lookups_eq hquery hi, hret, retries_wrap hind hhit (by omega) hi] at hlook
        simp only [bind_eq_ok] at hlook
        obtain ⟨res, ⟨res', ⟨res'', -, hres'⟩, hres⟩, hlook⟩ := hlook
        cases hres'
        cases hres
        obtain ⟨rfl, -⟩ := Prod.mk.inj (Except.ok.inj hlook)
        obtain ⟨-, k', hk', hdiv⟩ := hall ((k + 1) * (c + (r + 1)) + i) (by simp)
        rw [hslot hiHit.lt.1] at hdiv
        have := inGroup_unique hsorted hk hk'
        omega
      · intro hlast
        have hend : ∀ t, Hit fp m lbas lba k t → t + 1 < m := by
          intro t ht
          have htm := ht.lt.1
          obtain ⟨x, hx, heq⟩ := (hit_iff htm).mp ht
          by_contra hge
          obtain rfl : t = m - 1 := by omega
          apply hlast k x hk hx heq
        obtain ⟨offsets, hret, hall⟩ :=
          retries_end hind hend m (Nat.le_add_right m i) hiHit
        refine ⟨(k * m + i) :: offsets, ?_, ?_⟩
        · rw [lookups_eq hquery hi, hret]
          rfl
        · intro o ho
          obtain ⟨t, ht, rfl⟩ : ∃ t, Hit fp m lbas lba k t ∧ o = k * m + t := by
            rcases List.mem_cons.mp ho with rfl | ho
            · exact ⟨i, hiHit, rfl⟩
            · apply hall o ho
          use ht.lt.2, k, hk, hslot ht.lt.1
    · constructor
      · intro _ k' x hk' hx heq
        obtain rfl := inGroup_unique hsorted hk hk'
        apply hnoHit (m - 1) (Nat.zero_le _) ((hit_iff (by omega)).mpr ⟨x, hx, heq⟩)
      · intro _
        use [], lookups_none hquery hno, by simp
  · constructor
    · intro _ k x hk
      apply (hnone k hk).elim
    · intro _
      refine ⟨[], ?_, by simp⟩
      rw [lookups, hquery]
      rfl

theorem endsInGroup_iff_threeEntries :
  ∃ map, (init 2 3).insertAll (symbolized 4) 2 [1, 3, 5] = .ok map ∧
    (EndsInGroup (symbolized 4) 2 [1, 3, 5] map 2 ↔ LastSlotDiffers (symbolized 4) 2 [1, 3, 5] 2)
  := by
  apply endsInGroup_iff (symbolized 4) (by decide) (by decide) (by decide) (by decide)
  intro k guard hguard
  have hmem := List.mem_of_getElem? hguard
  simp only [List.mem_cons, List.not_mem_nil, or_false] at hmem
  omega

/-- The fingerprints of the lbas 3 and 4 are the same, and 3 is in the last slot of a group of
two: the offset that the retry for lba 4 returns is the number of the inserted entries. -/
theorem not_endsInGroup_lastSlot :
  ∃ map, (init 2 3).insertAll (symbolized 4) 2 [1, 3, 5] = .ok map ∧
    4 ∉ [1, 3, 5] ∧ ¬ EndsInGroup (symbolized 4) 2 [1, 3, 5] map 4
  := by
  refine ⟨_, rfl, by decide, ?_⟩
  rintro ⟨offsets, hlook, hall⟩
  have heval : (BfgMap.lookups (symbolized 4) 2 ⟨[[symbolized 4 1, symbolized 4 3],
      [symbolized 4 5]], [1, 5, uint32Max], 3, 3, 3⟩ 4 2) = .ok ([1, 3], true) := by
    decide +kernel
  have := hlook.symm.trans heval
  cases this
  exact absurd (hall 3 (by decide)).1 (by decide)

/-! ### Reads -/

/-- From one equal fingerprint of a group the reads come to the sector of the lba. -/
theorem read_hits {n : ℕ} {oob : ℕ → ℕ} {pba : ℕ} (h : Indexes fp m n lbas map)
    (hoob : ∀ i x, lbas[i]? = some x → oob (pba * l2pgap + i) = x)
    (hsorted : lbas.Pairwise (· < ·)) {t : ℕ} (ht : Hit fp m lbas lba k t)
    (hlba : lbas[k * m + t]? = some lba) (fuel : ℕ) :
  ∀ {i : ℕ}, t - i ≤ fuel → i ≤ t → Hit fp m lbas lba k i →
    ∃ reads, map.read fp m oob pba (fuel + 1) (k * m + i) ⟨lba, k * m + i⟩
      = .ok (some (pba * l2pgap + (k * m + t)), reads) ∧ reads ≤ t - i + 1
  := by
  induction fuel with
  | zero =>
      intro i hf hit hi
      obtain rfl : i = t := by omega
      refine ⟨1, ?_, Nat.le_add_left 1 _⟩
      rw [read, if_pos (hoob _ _ hlba)]
  | succ fuel ih =>
      intro i hf hit hi
      rcases Nat.lt_or_eq_of_le hit with hlt | rfl
      · obtain ⟨x, hx⟩ : ∃ x, lbas[k * m + i]? = some x :=
          ⟨_, List.getElem?_eq_getElem hi.lt.2⟩
        have hne : oob (pba * l2pgap + (k * m + i)) ≠ lba := by
          rw [hoob _ _ hx]
          apply Nat.ne_of_lt (sorted_lt hsorted (by omega) hx hlba)
        have him : i + 1 < m := Nat.lt_of_le_of_lt hlt ht.lt.1
        rcases checkFrom_drop (i := i + 1) with ⟨j, hj, hij, hhit, hmin⟩ | ⟨-, hnone⟩
        · have hjt := hmin t hlt ht
          obtain ⟨reads, hread, hreads⟩ := ih (i := j) (by omega) hjt hhit
          have heq : k * m + i + 1 + (j - (i + 1)) = k * m + j := by omega
          refine ⟨reads + 1, ?_, by omega⟩
          rw [read, if_neg hne, queryRetry_slot h hi.lt.1 hi.lt.2 (Nat.mod_eq_of_lt him), hj]
          simp only [heq, hread, bind, Except.bind]
          rfl
        · apply (hnone t hlt ht).elim
      · refine ⟨1, ?_, Nat.le_add_left 1 _⟩
        rw [read, if_pos (hoob _ _ hlba)]

/-- The sector of every lba of a block is found with at most `__target_member` page reads. -/
theorem lookup_hits {n n' : ℕ} {oob : ℕ → ℕ} {pba : ℕ} (hm : 0 < m) (h : Indexes fp m n lbas map)
    (hoob : ∀ i x, lbas[i]? = some x → oob (pba * l2pgap + i) = x)
    (hsorted : lbas.Pairwise (· < ·)) (hbelow : ∀ lba ∈ lbas, lba < 2 ^ 31)
    (hn : lbas.length ≤ n') {j : ℕ} (hj : lbas[j]? = some lba) :
  ∃ reads, map.lookup fp m oob pba n' lba = .ok (some (pba * l2pgap + j), reads) ∧ reads ≤ m
  := by
  have hdiv := Nat.div_add_mod' j m
  have hmod := Nat.mod_lt j hm
  have hlen := (List.getElem?_eq_some_iff.mp hj).1
  have hlba := hbelow lba (List.mem_of_getElem? hj)
  have hcmp : Comparable m lbas lba := by
    intro k guard hguard
    have := hbelow guard (List.mem_of_getElem? hguard)
    omega
  have hin := inGroup_of_getElem? hm hsorted hj
  have hmax : lba < uint32Max := by
    have : uint32Max = 2 ^ 32 - 1 := rfl
    omega
  have hhit : Hit fp m lbas lba (j / m) (j % m) := by
    rw [hit_iff hmod, hdiv]
    exact ⟨lba, hj, rfl⟩
  rcases query_group hm h hsorted hcmp hmax with ⟨k, hk, hquery⟩ | ⟨hnone, -⟩
  · obtain rfl := inGroup_unique hsorted hk hin
    rcases checkFrom_drop (i := 0) with ⟨i, hi, -, hiHit, hmin⟩ | ⟨-, hno⟩
    · rw [List.drop_zero] at hi
      obtain ⟨reads, hread, hreads⟩ := read_hits h hoob hsorted hhit (hdiv.symm ▸ hj) (n' - 1)
        (by omega) (hmin _ (Nat.zero_le _) hhit) hiHit
      rw [Nat.sub_add_cancel (by omega), hdiv] at hread
      refine ⟨reads, ?_, by omega⟩
      rw [lookup, hquery, scan, hi]
      apply hread
    · apply (hno _ (Nat.zero_le _) hhit).elim
  · apply (hnone _ hin).elim

end BfgMap

end AppL
