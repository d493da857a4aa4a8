import Mathlib.Data.List.Basic
import Mathlib.Tactic.Ring

/-!
# Packed arrays

Fields of `w` bits are kept one after another in words of `W` bits, so that a field may lie
across two words.  A field is written by a disjunction into words that are zero there, and the
words double when a field does not fit.  This module has the two operations, the bits that
they read and write, and the array of fields that a list of words holds.
-/

namespace PackedArray

variable {W : ℕ}

/-- The mask of a field. -/
def full (W w : ℕ) : BitVec W := BitVec.ofNat W (2 ^ w - 1)

/-- The field with a number. -/
def get (w : ℕ) (words : List (BitVec W)) (index : ℕ) : Option (BitVec W) :=
  let start := index * w
  if start / W = (start + w - 1) / W then do
    let word ← words[start / W]?
    return (word >>> (start % W)) &&& full W w
  else do
    let word ← words[start / W]?
    let next ← words[start / W + 1]?
    return ((word >>> (start % W)) ||| (next <<< (W - start % W))) &&& full W w

/-- The words double unless word `i` is there. -/
def grow (words : List (BitVec W)) (i : ℕ) : List (BitVec W) :=
  if words.length ≤ i then words ++ List.replicate words.length 0 else words

/-- Bits are set in a word. -/
def orAt (words : List (BitVec W)) (i : ℕ) (bits : BitVec W) : Option (List (BitVec W)) := do
  let word ← words[i]?
  return words.set i (word ||| bits)

/-- A field is written. -/
def set (w : ℕ) (words : List (BitVec W)) (index : ℕ) (value : BitVec W) :
    Option (List (BitVec W)) :=
  let start := index * w
  if start / W = (start + w - 1) / W then
    orAt (grow words (start / W)) (start / W) (value <<< (start % W))
  else do
    let words ← orAt (grow words (start / W + 1)) (start / W) (value <<< (start % W))
    orAt words (start / W + 1) (value >>> (W - start % W))

/-! ### Bits -/

/-- The bit of a list of words with a number. -/
def bitAt (words : List (BitVec W)) (k : ℕ) : Bool := (words[k / W]?.getD 0).getLsbD (k % W)

@[simp]
theorem getLsbD_full {w i : ℕ} (hw : w ≤ W) :
  (full W w).getLsbD i = decide (i < w)
  := by
  unfold full
  rw [BitVec.getLsbD_ofNat, Nat.testBit_two_pow_sub_one]
  by_cases h : i < w
  · simp [h, lt_of_lt_of_le h hw]
  · simp [h]

theorem bitAt_grow (words : List (BitVec W)) (i k : ℕ) :
  bitAt (grow words i) k = bitAt words k
  := by
  unfold bitAt grow
  split
  · rw [List.getElem?_append]
    split
    · rfl
    · rename_i hk
      rw [List.getElem?_eq_none (l := words) (by omega), List.getElem?_replicate]
      split
      · rfl
      · rfl
  · rfl

theorem length_grow {words : List (BitVec W)} {i : ℕ} (h : i < 2 * words.length) :
  i < (grow words i).length ∧ words.length ≤ (grow words i).length
  := by
  unfold grow
  split
  · simp only [List.length_append, List.length_replicate]
    omega
  · omega

/-- The bits of a word are set, and those of the others stay. -/
theorem orAt_eq {words : List (BitVec W)} {i : ℕ} (bits : BitVec W) (h : i < words.length) :
  ∃ words', orAt words i bits = some words' ∧ words'.length = words.length
    ∧ ∀ k, bitAt words' k = (bitAt words k || (decide (k / W = i) && bits.getLsbD (k % W)))
  := by
  refine ⟨words.set i (words[i] ||| bits), ?_, by simp, ?_⟩
  · simp [orAt, List.getElem?_eq_getElem h]
  · intro k
    unfold bitAt
    by_cases hk : i = k / W
    · rw [← hk, List.getElem?_set_self h, List.getElem?_eq_getElem h]
      simp
    · rw [List.getElem?_set_ne hk]
      simp [Ne.symm hk]

/-- A field that starts at bit `m` of word `q` lies in that word exactly when it ends there. -/
theorem same_word {w start : ℕ} (hw : 0 < w) (hW : 0 < W) :
  start / W = (start + w - 1) / W ↔ start % W + w ≤ W
  := by
  have hm := Nat.mod_lt start hW
  have hs := Nat.div_add_mod start W
  constructor
  · intro h
    have hm' := Nat.mod_lt (start + w - 1) hW
    have hs' := Nat.div_add_mod (start + w - 1) W
    rw [← h] at hs'
    omega
  · intro h
    symm
    apply (Nat.div_mod_unique hW).mpr ⟨_, _⟩ |>.1
    · apply start % W + w - 1
    · omega
    · omega

theorem bit_eq {start j r : ℕ} (hr : start % W + j = r) (h : r < W) :
  (start + j) / W = start / W ∧ (start + j) % W = r
  := by
  have hs := Nat.div_add_mod start W
  apply (Nat.div_mod_unique (by omega)).mpr
  use by omega, h

theorem bit_eq_next {start j r : ℕ} (hr : start % W + j = W + r) (h : r < W) :
  (start + j) / W = start / W + 1 ∧ (start + j) % W = r
  := by
  have hs := Nat.div_add_mod start W
  apply (Nat.div_mod_unique (by omega)).mpr
  refine ⟨?_, h⟩
  rw [Nat.mul_add]
  omega

/-- What `get` reads. -/
theorem get_eq {w : ℕ} {words : List (BitVec W)} {index : ℕ} (hw : 0 < w) (hwW : w ≤ W)
    (h : (index + 1) * w ≤ words.length * W) :
  ∃ v, get w words index = some v ∧
    ∀ j, v.getLsbD j = (decide (j < w) && bitAt words (index * w + j))
  := by
  have hW : 0 < W := lt_of_lt_of_le hw hwW
  have hm := Nat.mod_lt (index * w) hW
  have hs := Nat.div_add_mod (index * w) W
  rw [Nat.add_mul, Nat.one_mul] at h
  have hfirst : index * w / W < words.length := by
    rw [Nat.div_lt_iff_lt_mul hW]
    omega
  unfold get
  dsimp only
  split
  · rename_i hsame
    rw [same_word hw hW] at hsame
    refine ⟨_, by rw [List.getElem?_eq_getElem hfirst]; rfl, ?_⟩
    intro j
    rw [BitVec.getLsbD_and, getLsbD_full hwW, BitVec.getLsbD_ushiftRight, Bool.and_comm]
    by_cases hj : j < w
    · obtain ⟨hdiv, hmod⟩ := bit_eq (j := j) rfl (by omega : index * w % W + j < W)
      rw [bitAt, hdiv, hmod, List.getElem?_eq_getElem hfirst]
      rfl
    · simp [hj]
  · rename_i hsame
    rw [same_word hw hW] at hsame
    have hnext : index * w / W + 1 < words.length := by
      by_contra hlen
      have hle : words.length * W ≤ (index * w / W + 1) * W
        := Nat.mul_le_mul_right W (by omega)
      rw [Nat.add_mul, Nat.one_mul, Nat.mul_comm (index * w / W)] at hle
      omega
    refine ⟨_, by rw [List.getElem?_eq_getElem hfirst, List.getElem?_eq_getElem hnext]; rfl, ?_⟩
    intro j
    rw [BitVec.getLsbD_and, getLsbD_full hwW, BitVec.getLsbD_or, BitVec.getLsbD_ushiftRight,
      BitVec.getLsbD_shiftLeft, Bool.and_comm]
    by_cases hj : j < w
    · by_cases hin : index * w % W + j < W
      · obtain ⟨hdiv, hmod⟩ := bit_eq (j := j) rfl hin
        rw [bitAt, hdiv, hmod, List.getElem?_eq_getElem hfirst]
        have hlt : j < W - index * w % W := by omega
        simp [hlt]
      · obtain ⟨r, hr⟩ : ∃ r, index * w % W + j = W + r := Nat.exists_eq_add_of_le (by omega)
        obtain ⟨hdiv, hmod⟩ := bit_eq_next hr (by omega)
        rw [bitAt, hdiv, hmod, List.getElem?_eq_getElem hnext,
          BitVec.getLsbD_of_ge words[index * w / W] _ (by omega)]
        have hge : ¬ j < W - index * w % W := by omega
        have hlt : j < W := by omega
        have hr' : j - (W - index * w % W) = r := by omega
        simp [hge, hlt, hr']
    · simp [hj]

/-- What `get` reads has no bits outside of a field. -/
theorem get_lt {w : ℕ} {words : List (BitVec W)} {index : ℕ} {v : BitVec W}
    (h : get w words index = some v) :
  v.toNat < 2 ^ w
  := by
  have hfull : (full W w).toNat < 2 ^ w := by
    unfold full
    rw [BitVec.toNat_ofNat]
    apply (Nat.mod_le _ _).trans_lt
    apply Nat.sub_lt (Nat.two_pow_pos w) Nat.one_pos
  have hand : ∀ x : BitVec W, (x &&& full W w).toNat < 2 ^ w := by
    intro x
    rw [BitVec.toNat_and]
    apply Nat.and_le_right.trans_lt hfull
  unfold get at h
  dsimp only at h
  split at h
  · simp only [Option.bind_eq_bind, Option.bind_eq_some_iff, pure] at h
    obtain ⟨word, -, h⟩ := h
    cases h
    apply hand _
  · simp only [Option.bind_eq_bind, Option.bind_eq_some_iff, pure] at h
    obtain ⟨word, -, next, -, h⟩ := h
    cases h
    apply hand _

theorem orAt_length {words words' : List (BitVec W)} {i : ℕ} {bits : BitVec W}
    (h : orAt words i bits = some words') :
  i < words.length ∧ words'.length = words.length
  := by
  unfold orAt at h
  simp only [Option.bind_eq_bind, Option.bind_eq_some_iff, pure] at h
  obtain ⟨word, hword, h⟩ := h
  cases h
  use (List.getElem?_eq_some_iff.mp hword).1, List.length_set

/-- There is room for a field that has been written, whatever its value. -/
theorem set_space {w : ℕ} {words words' : List (BitVec W)} {index : ℕ} {value : BitVec W}
    (hw : 0 < w) (hwW : w ≤ W) (h : set w words index value = some words') :
  (index + 1) * w ≤ words'.length * W
  := by
  have hW : 0 < W := lt_of_lt_of_le hw hwW
  have hm := Nat.mod_lt (index * w) hW
  have hs := Nat.div_add_mod' (index * w) W
  rw [Nat.succ_mul]
  unfold set at h
  dsimp only at h
  split at h
  · rename_i hsame
    rw [same_word hw hW] at hsame
    obtain ⟨hlt, hlen⟩ := orAt_length h
    have hmul := Nat.mul_le_mul_right W (Nat.succ_le_of_lt hlt)
    rw [Nat.succ_mul, ← hlen] at hmul
    omega
  · simp only [Option.bind_eq_bind, Option.bind_eq_some_iff] at h
    obtain ⟨words₁, -, h⟩ := h
    obtain ⟨hlt, hlen⟩ := orAt_length h
    have hmul := Nat.mul_le_mul_right W (Nat.succ_le_of_lt hlt)
    rw [Nat.succ_mul, Nat.succ_mul, ← hlen] at hmul
    omega

/-- What `set` writes, if the value has no more bits than a field. -/
theorem set_eq {w : ℕ} {words : List (BitVec W)} {index : ℕ} {value : BitVec W} (hw : 0 < w)
    (hwW : w ≤ W) (hlen : 0 < words.length) (h : index * w ≤ words.length * W)
    (hvalue : ∀ j, w ≤ j → value.getLsbD j = false) :
  ∃ words', set w words index value = some words' ∧ words.length ≤ words'.length
    ∧ (index + 1) * w ≤ words'.length * W
    ∧ ∀ k, bitAt words' k
      = (bitAt words k || (decide (index * w ≤ k) && value.getLsbD (k - index * w)))
  := by
  have hW : 0 < W := lt_of_lt_of_le hw hwW
  have hm := Nat.mod_lt (index * w) hW
  have hs := Nat.div_add_mod (index * w) W
  rw [Nat.add_mul, Nat.one_mul]
  have hfirst : index * w / W ≤ words.length := by
    apply Nat.div_le_of_le_mul
    rw [Nat.mul_comm W]
    apply h
  have hpart : ∀ k, k / W = index * w / W →
      (value <<< (index * w % W)).getLsbD (k % W)
        = (decide (index * w ≤ k) && value.getLsbD (k - index * w)) := by
    intro k hk
    have hk' := Nat.div_add_mod k W
    have hkm := Nat.mod_lt k hW
    rw [hk] at hk'
    rw [BitVec.getLsbD_shiftLeft]
    by_cases hle : index * w ≤ k
    · have hge : ¬ k % W < index * w % W := by omega
      have hsub : k % W - index * w % W = k - index * w := by omega
      simp [hkm, hge, hsub, hle]
    · have hlt : k % W < index * w % W := by omega
      simp [hlt, hle]
  have hbefore : ∀ k, k / W < index * w / W → ¬ index * w ≤ k := by
    intro k hk hle
    have := Nat.div_le_div_right (c := W) hle
    omega
  unfold set
  dsimp only
  split
  · rename_i hsame
    rw [same_word hw hW] at hsame
    obtain ⟨hg, hg'⟩ := @length_grow W words (index * w / W) (by omega)
    obtain ⟨words', hor, hlen', hbits⟩ := orAt_eq (value <<< (index * w % W)) hg
    refine ⟨words', hor, by omega, ?_, ?_⟩
    · have hle : (index * w / W + 1) * W ≤ words'.length * W
        := Nat.mul_le_mul_right W (by omega)
      rw [Nat.add_mul, Nat.one_mul, Nat.mul_comm (index * w / W)] at hle
      omega
    · intro k
      rw [hbits, bitAt_grow]
      congr 1
      have hk' := Nat.div_add_mod k W
      by_cases hk : k / W = index * w / W
      · rw [hpart k hk]
        simp [hk]
      · have hzero : (decide (index * w ≤ k) && value.getLsbD (k - index * w)) = false := by
          rcases Nat.lt_or_gt_of_ne hk with hk | hk
          · simp [hbefore k hk]
          · have hge : W * (index * w / W + 1) ≤ W * (k / W) := Nat.mul_le_mul_left W hk
            rw [Nat.mul_add, Nat.mul_one] at hge
            rw [hvalue _ (by omega), Bool.and_false]
        rw [hzero]
        simp [hk]
  · rename_i hsame
    rw [same_word hw hW] at hsame
    have hone : index * w / W < words.length := by
      rw [Nat.div_lt_iff_lt_mul hW]
      apply lt_of_le_of_ne h
      intro heq
      rw [heq, Nat.mul_mod_left] at hsame
      omega
    obtain ⟨hg, hg'⟩ := @length_grow W words (index * w / W + 1) (by omega)
    obtain ⟨words₁, hor₁, hlen₁, hbits₁⟩ := orAt_eq (i := index * w / W)
      (value <<< (index * w % W)) (by omega : _ < (grow words (index * w / W + 1)).length)
    obtain ⟨words₂, hor₂, hlen₂, hbits₂⟩ := orAt_eq (i := index * w / W + 1)
      (value >>> (W - index * w % W)) (by omega : _ < words₁.length)
    refine ⟨words₂, by rw [hor₁]; exact hor₂, by omega, ?_, ?_⟩
    · have hle : (index * w / W + 1 + 1) * W ≤ words₂.length * W
        := Nat.mul_le_mul_right W (by omega)
      rw [Nat.add_mul, Nat.add_mul, Nat.one_mul, Nat.mul_comm (index * w / W)] at hle
      omega
    · intro k
      rw [hbits₂, hbits₁, bitAt_grow, Bool.or_assoc]
      congr 1
      have hk' := Nat.div_add_mod k W
      have hkm := Nat.mod_lt k hW
      rcases lt_trichotomy (k / W) (index * w / W) with hk | hk | hk
      · simp [hbefore k hk, hk.ne, (Nat.lt_succ_of_lt hk).ne]
      · rw [hpart k hk]
        simp [hk]
      · by_cases hk₁ : k / W = index * w / W + 1
        · rw [hk₁, Nat.mul_add, Nat.mul_one] at hk'
          have hle : index * w ≤ k := by omega
          have hsub : k - index * w = W - index * w % W + k % W := by omega
          rw [BitVec.getLsbD_ushiftRight, hsub]
          simp [hk₁, hle]
        · have hge : W * (index * w / W + 2) ≤ W * (k / W) := Nat.mul_le_mul_left W (by omega)
          rw [Nat.mul_add] at hge
          rw [hvalue _ (by omega), Bool.and_false]
          simp [hk₁, hk.ne']

/-! ### The fields of a list of words -/

/-- The words hold the fields `vals`, and nothing after them. -/
structure Holds (w : ℕ) (words : List (BitVec W)) (vals : List (BitVec W)) : Prop where
  length : 0 < words.length
  space : vals.length * w ≤ words.length * W
  fits : ∀ v ∈ vals, ∀ j, w ≤ j → v.getLsbD j = false
  bits : ∀ k, bitAt words k = (vals[k / w]?.getD 0).getLsbD (k % w)

/-- A new array. -/
theorem holds_nil (w : ℕ) :
  Holds (W := W) w [0] []
  where
    length := by simp
    space := by simp
    fits := by simp
    bits k := by
      unfold bitAt
      rw [List.getElem?_singleton]
      split
      · simp
      · simp

section Holds

variable {w : ℕ} {words vals : List (BitVec W)}

/-- The next field is written. -/
theorem Holds.set {value : BitVec W} (h : Holds w words vals) (hw : 0 < w) (hwW : w ≤ W)
    (hvalue : ∀ j, w ≤ j → value.getLsbD j = false) :
  ∃ words', PackedArray.set w words vals.length value = some words'
    ∧ Holds w words' (vals ++ [value])
  := by
  obtain ⟨words', hset, hlen, hspace, hbits⟩ := set_eq hw hwW h.length h.space hvalue
  refine ⟨words', hset, ?_, ?_, ?_, ?_⟩
  · apply lt_of_lt_of_le h.length hlen
  · rw [List.length_append, List.length_singleton]
    apply hspace
  · intro v hv
    obtain hv | hv := List.mem_append.mp hv
    · apply h.fits v hv
    · rw [List.mem_singleton.mp hv]
      apply hvalue
  · intro k
    rw [hbits, h.bits]
    have hk := Nat.div_add_mod k w
    have hkm := Nat.mod_lt k hw
    rcases lt_trichotomy (k / w) vals.length with hlt | heq | hgt
    · have hbefore : ¬ vals.length * w ≤ k
        := not_le_of_gt ((Nat.div_lt_iff_lt_mul hw).mp hlt)
      rw [List.getElem?_append_left hlt]
      simp [hbefore]
    · rw [heq, Nat.mul_comm] at hk
      have hle : vals.length * w ≤ k := by omega
      have hsub : k - vals.length * w = k % w := by omega
      rw [List.getElem?_eq_none (by omega), heq, List.getElem?_concat_length, hsub]
      simp [hle]
    · have hge : (vals.length + 1) * w ≤ k / w * w := Nat.mul_le_mul_right w hgt
      rw [Nat.add_mul, Nat.one_mul, Nat.mul_comm (k / w)] at hge
      rw [List.getElem?_eq_none (by omega), List.getElem?_eq_none (by simp; omega),
        hvalue _ (by omega)]
      simp

/-- A field is read. -/
theorem Holds.get {i : ℕ} (h : Holds w words vals) (hw : 0 < w) (hwW : w ≤ W)
    (hi : i < vals.length) :
  PackedArray.get w words i = some (vals[i])
  := by
  have hspace : (i + 1) * w ≤ words.length * W
    := le_trans (Nat.mul_le_mul_right w hi) h.space
  obtain ⟨v, hv, hbits⟩ := get_eq hw hwW hspace
  rw [hv]
  congr 1
  apply BitVec.eq_of_getLsbD_eq
  intro j _
  rw [hbits, h.bits]
  by_cases hj : j < w
  · have hpos : (i * w + j) / w = i ∧ (i * w + j) % w = j := by
      apply (Nat.div_mod_unique hw).mpr
      use by rw [Nat.mul_comm w]; omega, hj
    obtain ⟨hdiv, hmod⟩ := hpos
    rw [hdiv, hmod, List.getElem?_eq_getElem hi]
    simp [hj]
  · rw [h.fits _ (List.getElem_mem hi) j (by omega)]
    simp [hj]

end Holds

end PackedArray
