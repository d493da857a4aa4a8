import AppL.Plr.ErrorBound

/-!
# The original lookup

The `get` that leaFTL keeps ends its search on another condition, decodes a negative intercept
by a subtraction and clamps the page instead of its multiple of `TICK`.  The optimised `get` has
the same result for every regression that has been built from pairs.
-/

namespace AppL

open Transition

namespace Plr

namespace LineStore

variable (p : Param) (s : LineStore)

/-- The binary search of the original `get`. -/
def searchChunkOriginal (lba : ℤ) : ℕ → ℕ → ℕ → Except Abort ℕ
  | 0, low, high => if (high : ℤ) - low ≠ 1 then .error .endlessLoop else .ok low
  | fuel + 1, low, high =>
      if (high : ℤ) - low ≠ 1 then do
        let mid := (low + high) / 2
        let x ← orThrow .outOfBounds s.chunkX[mid]?
        if lba ≥ x then
          searchChunkOriginal lba fuel mid high
        else
          searchChunkOriginal lba fuel low mid
      else
        .ok low

/-- The intercept of a field in the original `get`. -/
def decodeBOriginal (b : BitVec 64) : ℤ :=
  if b &&& ((1 : BitVec 64) <<< (p.bBit - 1)) ≠ 0 then
    -((b.toNat : ℤ) - (2 ^ (p.bBit - 1) - 1))
  else
    b.toNat

/-- The line that the original `get` uses for an address. -/
def lineAtOriginal (lba : ℤ) : Except Abort Line := do
  let low ← s.searchChunkOriginal lba s.chunkCnt 0 s.chunkCnt
  let x ← orThrow .outOfBounds s.chunkX[low]?
  let y ← orThrow .outOfBounds s.chunkY[low]?
  let offset ← orThrow .outOfBounds s.chunkOffset[low]?
  let stop ← orThrow .outOfBounds s.chunkOffset[low + 1]?
  let (x, y, index) ← s.walk lba (stop - (offset + 1)) x y (offset + 1)
  let a ← s.getA p (index - 1)
  let b ← s.getB p (index - 1)
  return ⟨x, y, a.toNat, decodeBOriginal p b⟩

end LineStore

/-- The original `get`. -/
def Builder.getOriginal (p : Param) (s : Builder) (lba : ℤ) : Except Abort ℤ := do
  let l ← s.store.lineAtOriginal p lba
  let x := l.x * correction
  let y := l.y * tick + tick / 2
  let expected := (y * p.bit + (lba * correction - x) * l.a + l.b).tdiv p.bit
  if expected.tdiv tick < s.ppaMin then
    return s.ppaMin
  else if expected.tdiv tick > s.ppaMax then
    return s.ppaMax
  else
    return expected.tdiv tick

/-! ### Lines -/

namespace LineStore

variable {p : Param} {s : LineStore} {lba : ℤ}

/-- The searches look at the same chunks. -/
theorem searchChunkOriginal_eq {fuel : ℕ} :
  ∀ {low high : ℕ}, low < high →
    s.searchChunkOriginal lba fuel low high = s.searchChunk lba fuel low high
  := by
  induction fuel with
  | zero =>
      intro low high hlt
      rw [searchChunkOriginal, searchChunk]
      by_cases h : high - low > 1
      · rw [if_pos h, if_pos (by omega)]
      · rw [if_neg h, if_neg (by omega)]
  | succ fuel ih =>
      intro low high hlt
      rw [searchChunkOriginal, searchChunk]
      by_cases h : high - low > 1
      · have hmid : (low + high) / 2 = low + (high - low) / 2 := by omega
        rw [if_pos h, if_pos (by omega)]
        simp only [hmid]
        rw [@ih (low + (high - low) / 2) high (by omega),
          @ih low (low + (high - low) / 2) (by omega)]
      · rw [if_neg h, if_neg (by omega)]

/-- The decodings of a field agree: without its top bit, a field is as much smaller as the
original decoding takes away. -/
theorem decodeBOriginal_eq {b : BitVec 64} (hb : b.toNat < 2 ^ p.bBit) :
  decodeBOriginal p b = decodeB p b
  := by
  have hwidth := p.width
  have hb0 : p.bBit - 1 < 64 := by
    unfold Param.bBit
    omega
  have hpow : 2 ^ p.bBit = 2 * 2 ^ (p.bBit - 1) := by
    rw [← pow_succ']
    congr 1
  have hone : (1 : BitVec 64) <<< (p.bBit - 1) = BitVec.twoPow 64 (p.bBit - 1)
    := (BitVec.twoPow_eq 64 _).symm
  have htwo := BitVec.toNat_twoPow_of_lt hb0
  have hbit : b.getLsbD (p.bBit - 1) = decide (2 ^ (p.bBit - 1) ≤ b.toNat) :=
    getLsbD_top (hpow ▸ hb)
  unfold decodeBOriginal decodeB
  rw [hone, BitVec.and_twoPow, hbit, toNat_and_low hb0]
  by_cases hle : 2 ^ (p.bBit - 1) ≤ b.toNat
  · have hmod : b.toNat % 2 ^ (p.bBit - 1) = b.toNat - 2 ^ (p.bBit - 1) := by
      rw [Nat.mod_eq_sub_mod hle]
      apply Nat.mod_eq_of_lt
      omega
    have hcast : ((2 ^ (p.bBit - 1) : ℕ) : ℤ) = 2 ^ (p.bBit - 1) := by norm_cast
    have hsub : (b.toNat : ℤ) - (2 ^ (p.bBit - 1) - 1) = (b.toNat - 2 ^ (p.bBit - 1) : ℕ) + 1 := by
      omega
    rw [hmod, hsub]
  · simp [hle]

/-- A field that is read has no more bits than its width. -/
theorem getB_lt {index : ℕ} {b : BitVec 64} (h : s.getB p index = .ok b) :
  b.toNat < 2 ^ p.bBit
  := PackedArray.get_lt (orThrow_eq_ok.mp h)

/-- The original `get` uses the same line. -/
theorem lineAtOriginal_eq (hchunk : s.chunkX ≠ []) :
  s.lineAtOriginal p lba = s.lineAt p lba
  := by
  have hpos : 0 < s.chunkCnt := List.length_pos_of_ne_nil hchunk
  unfold lineAtOriginal lineAt locate
  rw [searchChunkOriginal_eq hpos]
  simp only [bind_assoc]
  refine bind_congr_ok fun low _ => bind_congr_ok fun x _ => bind_congr_ok fun y _ => ?_
  refine bind_congr_ok fun offset _ => bind_congr_ok fun stop _ => bind_congr_ok fun pos _ => ?_
  refine bind_congr_ok fun a _ => bind_congr_ok fun b hb => ?_
  rw [decodeBOriginal_eq (getB_lt hb)]

end LineStore

/-- The clamps agree: below zero the only page is the least one, and within the last tick of
the largest page the quotient is that page. -/
theorem clamp_eq {v lo hi : ℤ} (hlo : 0 ≤ lo) (hle : lo ≤ hi) :
  (if v.tdiv tick < lo then lo else if v.tdiv tick > hi then hi else v.tdiv tick)
    = if v < lo * tick then lo else if v > hi * tick then hi else v.tdiv tick
  := by
  unfold tick
  rcases Int.lt_or_le v 0 with hneg | hnn
  · have hq : v.tdiv 200 = -(-v / 200) := by
      rw [← Int.tdiv_eq_ediv_of_nonneg (by omega), Int.neg_tdiv, neg_neg]
    rw [if_pos (show v < lo * 200 by omega), hq]
    split
    · rfl
    · rw [if_neg (by omega)]
      omega
  · rw [Int.tdiv_eq_ediv_of_nonneg hnn]
    by_cases hlow : v < lo * 200
    · rw [if_pos hlow, if_pos (by omega)]
    · rw [if_neg hlow, if_neg (by omega)]
      by_cases hhigh : v > hi * 200
      · rw [if_pos hhigh]
        split
        · rfl
        · omega
      · rw [if_neg hhigh, if_neg (by omega)]

/-- The page that the original `get` computes from a line. -/
theorem getOriginal_of_lineAt {p : Param} {s : Builder} {lba : ℤ} {l : Line}
    (hline : s.store.lineAtOriginal p lba = .ok l) :
  s.getOriginal p lba = .ok (if ((l.value p lba).tdiv p.bit).tdiv tick < s.ppaMin then s.ppaMin
    else if ((l.value p lba).tdiv p.bit).tdiv tick > s.ppaMax then s.ppaMax
    else ((l.value p lba).tdiv p.bit).tdiv tick)
  := by
  refine bind_eq_ok.mpr ⟨l, hline, ?_⟩
  change (if ((l.value p lba).tdiv p.bit).tdiv tick < s.ppaMin then pure s.ppaMin
    else if ((l.value p lba).tdiv p.bit).tdiv tick > s.ppaMax then pure s.ppaMax
    else pure (((l.value p lba).tdiv p.bit).tdiv tick)) = _
  split
  · rfl
  · split
    · rfl
    · rfl

/-- The original and the optimised `get` have the same result for every store that has a chunk,
when the pages are those of an `int32_t` after the multiplication with `TICK`. -/
theorem getOriginal_of_chunk {p : Param} {s : Builder} (hchunk : s.store.chunkX ≠ [])
    (hmin : 0 ≤ s.ppaMin) (hle : s.ppaMin ≤ s.ppaMax) (hmax : s.ppaMax * tick < 2 ^ 31) (lba : ℤ) :
  s.getOriginal p lba = s.get p lba
  := by
  have hintmin : int32 (s.ppaMin * tick) = s.ppaMin * tick := by
    apply int32_eq
    · unfold tick
      omega
    · unfold tick at hmax ⊢
      omega
  have hintmax : int32 (s.ppaMax * tick) = s.ppaMax * tick := by
    apply int32_eq
    · unfold tick
      omega
    · apply hmax
  have hsame : s.store.lineAtOriginal p lba = s.store.lineAt p lba :=
    LineStore.lineAtOriginal_eq hchunk
  cases hline : s.store.lineAt p lba with
  | error e =>
      unfold Builder.getOriginal Builder.get
      rw [hsame, hline]
      rfl
  | ok l =>
      rw [getOriginal_of_lineAt (hsame.trans hline), get_of_lineAt hline, hintmin, hintmax,
        clamp_eq hmin hle]

/-! ### Chunks -/

namespace LineStore

variable {p : Param} {s s' : LineStore}

/-- The arrays of the chunks stay the same. -/
def SameChunks (s s' : LineStore) : Prop :=
  s'.chunkX = s.chunkX ∧ s'.chunkOffset = s.chunkOffset

theorem SameChunks.trans {s'' : LineStore} (h : SameChunks s s') (h' : SameChunks s' s'') :
  SameChunks s s''
  := ⟨h'.1.trans h.1, h'.2.trans h.2⟩

theorem setX_chunks {index : ℕ} {value : ℤ} (h : s.setX index value = .ok s') :
  SameChunks s s'
  := by
  obtain ⟨words, -, h⟩ := bind_eq_ok.mp h
  cases h
  exact ⟨rfl, rfl⟩

theorem setY_chunks {index : ℕ} {value : ℤ} (h : s.setY index value = .ok s') :
  SameChunks s s'
  := by
  obtain ⟨words, -, h⟩ := bind_eq_ok.mp h
  cases h
  exact ⟨rfl, rfl⟩

theorem setA_chunks {index : ℕ} {value : ℤ} (h : s.setA p index value = .ok s') :
  SameChunks s s'
  := by
  obtain ⟨words, -, h⟩ := bind_eq_ok.mp h
  cases h
  exact ⟨rfl, rfl⟩

theorem setB_chunks {index : ℕ} {value : ℤ} (h : s.setB p index value = .ok s') :
  SameChunks s s'
  := by
  obtain ⟨words, -, h⟩ := bind_eq_ok.mp h
  cases h
  exact ⟨rfl, rfl⟩

theorem growChunks_chunks :
  SameChunks s s.growChunks
  := by
  unfold growChunks
  split
  · exact ⟨rfl, rfl⟩
  · exact ⟨rfl, rfl⟩

/-- A line that is pushed begins a chunk when there is none. -/
theorem linePushBack_chunks {x y a b : ℤ} (hlen : s.chunkOffset.length = s.chunkX.length)
    (h : s.linePushBack p x y a b = .ok s') :
  s'.chunkOffset.length = s'.chunkX.length ∧ s'.chunkX ≠ []
  := by
  obtain ⟨s₁, h₁, h⟩ := bind_eq_ok.mp h
  obtain ⟨s₂, h₂, h⟩ := bind_eq_ok.mp h
  obtain ⟨s₃, h₃, h⟩ := bind_eq_ok.mp h
  cases h
  obtain ⟨hx, ho⟩ := (setA_chunks h₂).trans (setB_chunks h₃)
  dsimp only
  rw [hx, ho]
  unfold pushPosition at h₁
  split at h₁
  · obtain ⟨-, -, h₁⟩ := bind_eq_ok.mp h₁
    obtain ⟨s₄, h₄, h₁⟩ := bind_eq_ok.mp h₁
    obtain ⟨hx', ho'⟩ := (setX_chunks h₄).trans (setY_chunks h₁)
    obtain ⟨hx₀, ho₀⟩ := growChunks_chunks (s := s)
    rw [hx', ho']
    dsimp only
    rw [hx₀, ho₀, List.length_append, List.length_append, hlen]
    use rfl, by simp
  · rename_i hr
    obtain ⟨s₄, h₄, h₁⟩ := bind_eq_ok.mp h₁
    obtain ⟨hx', ho'⟩ := (setX_chunks h₄).trans (setY_chunks h₁)
    rw [hx', ho']
    use hlen
    intro hnil
    rw [hnil, List.length_nil, List.length_eq_zero_iff] at hlen
    apply hr
    rw [restarts, hlen, List.getElem?_nil]

theorem close_chunkX (h : s.close = .ok s') :
  s'.chunkX = s.chunkX
  := by
  obtain ⟨s₁, h₁, h⟩ := bind_eq_ok.mp h
  obtain ⟨s₂, h₂, h⟩ := bind_eq_ok.mp h
  obtain ⟨-, -, h⟩ := bind_eq_ok.mp h
  cases h
  exact (((setX_chunks h₁).trans (setY_chunks h₂)).trans growChunks_chunks).1

end LineStore

/-! ### Insertions -/

section Insert

variable {p : Param} {s s' : Builder} {pairs : List (ℤ × ℤ)}

theorem SamePages.trans {s'' : Builder} (h : SamePages s s') (h' : SamePages s' s'') :
  SamePages s s''
  := ⟨h'.ppaMin.trans h.ppaMin, h'.ppaMax.trans h.ppaMax, h'.lbaPrev.trans h.lbaPrev⟩

variable (p) in
/-- What the last part of an insertion leaves alone: a segment is open, and at most one line is
pushed. -/
structure Extends (s s' : Builder) : Prop where
  pages : SamePages s s'
  member : s'.member ≠ []
  store : s'.store = s.store ∨ ∃ x y a b, s.store.linePushBack p x y a b = .ok s'.store

theorem closeSegment_extends {o q : Dot} {a b : ℤ} (h : s.closeSegment p o q a b = .ok s') :
  Extends p s s'
  := by
  obtain ⟨store, hstore, h⟩ := bind_eq_ok.mp h
  cases h
  use ⟨rfl, rfl, rfl⟩, List.cons_ne_nil _ _, .inr ⟨_, _, _, _, hstore⟩

theorem insertSecond_extends {o q : Dot} (h : s.insertSecond p o q = .ok s') :
  Extends p s s'
  := by
  obtain ⟨a, -, h⟩ := bind_eq_ok.mp h
  split at h
  · obtain ⟨hsame, hne, hstore⟩ := closeSegment_extends h
    use ⟨hsame.ppaMin, hsame.ppaMax, hsame.lbaPrev⟩, hne, hstore
  · cases h
    use ⟨rfl, rfl, rfl⟩, by simp, .inl rfl

theorem updateLower_same {q : Dot} (h : s.updateLower p q = .ok s') :
  SameStore s s'
  := by
  unfold Builder.updateLower at h
  dsimp only at h
  split at h
  · split at h
    · cases h
      exact ⟨rfl, rfl, rfl, rfl, rfl⟩
    · cases h
  · cases h
    exact .refl s

theorem updateUpper_same {q : Dot} (h : s.updateUpper p q = .ok s') :
  SameStore s s'
  := by
  unfold Builder.updateUpper at h
  dsimp only at h
  split at h
  · split at h
    · cases h
      exact ⟨rfl, rfl, rfl, rfl, rfl⟩
    · cases h
  · cases h
    exact .refl s

theorem insertMore_extends {o q : Dot} (h : s.insertMore p o q = .ok s') :
  Extends p s s'
  := by
  obtain ⟨a, -, h⟩ := bind_eq_ok.mp h
  obtain ⟨b, -, h⟩ := bind_eq_ok.mp h
  split at h
  · apply closeSegment_extends h
  · obtain ⟨s₁, h₁, h⟩ := bind_eq_ok.mp h
    obtain ⟨s₂, h₂, h⟩ := bind_eq_ok.mp h
    obtain ⟨a', -, h⟩ := bind_eq_ok.mp h
    have hsame := (updateLower_same h₁).trans (updateUpper_same h₂)
    split at h
    · obtain ⟨hpages, hne, hstore⟩ := closeSegment_extends h
      rw [hsame.store] at hstore
      use hsame.samePages.trans hpages, hne, hstore
    · cases h
      use ⟨hsame.ppaMin, hsame.ppaMax, hsame.lbaPrev⟩, by simp, .inl hsame.store

/-- The pages that have been inserted are counted, the last segment is open, and each chunk has
an offset. -/
structure Grows (pairs : List (ℤ × ℤ)) (s : Builder) : Prop where
  counted : Counted pairs s
  member : pairs ≠ [] → s.member ≠ []
  chunks : s.store.chunkOffset.length = s.store.chunkX.length

theorem insert_grows {q : ℤ × ℤ} (hs : Grows pairs s) (hq : Fits q)
    (h : s.insert p q.1 q.2 = .ok s') :
  Grows (pairs ++ [q]) s'
  := by
  have hcounted := hs.counted.insert hq
  obtain ⟨-, -, h⟩ := bind_eq_ok.mp h
  have hext : Extends p { s with
      ppaMin := min q.2 s.ppaMin
      ppaMax := max q.2 s.ppaMax
      lbaPrev := q.1 } s' := by
    dsimp only at h
    split at h
    · cases h
      use ⟨rfl, rfl, rfl⟩, List.cons_ne_nil _ _, .inl rfl
    · apply insertSecond_extends h
    · apply insertMore_extends h
  use hext.pages.counted hcounted, fun _ => hext.member
  rcases hext.store with hstore | ⟨x, y, a, b, hpush⟩
  · rw [hstore]
    apply hs.chunks
  · apply (LineStore.linePushBack_chunks hs.chunks hpush).1

theorem insertAll_grows (rest : List (ℤ × ℤ)) :
  ∀ {pairs : List (ℤ × ℤ)} {s : Builder}, Grows pairs s → (∀ q ∈ rest, Fits q) →
    s.insertAll p rest = .ok s' → Grows (pairs ++ rest) s'
  := by
  induction rest with
  | nil =>
      intro pairs s hs _ h
      cases h
      rwa [List.append_nil]
  | cons q rest ih =>
      intro pairs s hs hfits h
      obtain ⟨s₁, h₁, h⟩ := bind_eq_ok.mp h
      rw [List.append_cons]
      apply ih (insert_grows hs (hfits q List.mem_cons_self) h₁) _ h
      intro r hr
      apply hfits r (List.mem_cons_of_mem q hr)

/-- A finished regression has a chunk, and its pages are those of the open one. -/
theorem insertEnd_chunk (hs : Grows pairs s) (hne : pairs ≠ []) (h : s.insertEnd p = .ok s') :
  s'.store.chunkX ≠ [] ∧ s'.ppaMin = s.ppaMin ∧ s'.ppaMax = s.ppaMax
  := by
  obtain ⟨store, hpush, h⟩ := bind_eq_ok.mp h
  obtain ⟨store', hclose, h⟩ := bind_eq_ok.mp h
  cases h
  refine ⟨?_, rfl, rfl⟩
  dsimp only
  rw [LineStore.close_chunkX hclose]
  unfold Builder.pushOpen at hpush
  split at hpush
  · rename_i hnil
    apply (hs.member hne hnil).elim
  · obtain ⟨a, -, hpush⟩ := bind_eq_ok.mp hpush
    obtain ⟨b, -, hpush⟩ := bind_eq_ok.mp hpush
    apply (LineStore.linePushBack_chunks hs.chunks hpush).2

end Insert

/-! ### Finished regressions -/

namespace LineStore

variable {p : Param} {s s' t t' : LineStore} {lba : ℤ}

/-- The positions of the lines are the same. -/
structure SamePositions (s t : LineStore) : Prop where
  xCompressed : t.xCompressed = s.xCompressed
  yCompressed : t.yCompressed = s.yCompressed
  chunkX : t.chunkX = s.chunkX
  chunkY : t.chunkY = s.chunkY
  chunkOffset : t.chunkOffset = s.chunkOffset
  lineCnt : t.lineCnt = s.lineCnt

/-- The slope and the intercept of a line have no part in its position. -/
theorem linePushBack_positions {x y a b a' b' : ℤ} (h : s.linePushBack p x y a b = .ok s')
    (h' : s.linePushBack p x y a' b' = .ok t') :
  SamePositions s' t'
  := by
  obtain ⟨s₁, h₁, h⟩ := bind_eq_ok.mp h
  obtain ⟨s₂, h₂, h⟩ := bind_eq_ok.mp h
  obtain ⟨s₃, h₃, h⟩ := bind_eq_ok.mp h
  obtain ⟨t₁, h₁', h'⟩ := bind_eq_ok.mp h'
  obtain ⟨t₂, h₂', h'⟩ := bind_eq_ok.mp h'
  obtain ⟨t₃, h₃', h'⟩ := bind_eq_ok.mp h'
  obtain rfl : s₁ = t₁ := Except.ok.inj (h₁.symm.trans h₁')
  obtain ⟨aw, -, h₂⟩ := bind_eq_ok.mp h₂
  obtain ⟨bw, -, h₃⟩ := bind_eq_ok.mp h₃
  obtain ⟨aw', -, h₂'⟩ := bind_eq_ok.mp h₂'
  obtain ⟨bw', -, h₃'⟩ := bind_eq_ok.mp h₃'
  cases h₂
  cases h₃
  cases h
  cases h₂'
  cases h₃'
  cases h'
  exact ⟨rfl, rfl, rfl, rfl, rfl, rfl⟩

theorem growChunks_eq (s : LineStore) :
  s.growChunks = { s with chunkSize := s.growChunks.chunkSize }
  := by
  unfold growChunks
  split
  · rfl
  · rfl

theorem close_positions (hst : SamePositions s t) (h : s.close = .ok s') (h' : t.close = .ok t') :
  SamePositions s' t' ∧ t'.aCompressed = t.aCompressed ∧ t'.bCompressed = t.bCompressed
  := by
  obtain ⟨s₁, h₁, h⟩ := bind_eq_ok.mp h
  obtain ⟨s₂, h₂, h⟩ := bind_eq_ok.mp h
  obtain ⟨-, -, h⟩ := bind_eq_ok.mp h
  obtain ⟨t₁, h₁', h'⟩ := bind_eq_ok.mp h'
  obtain ⟨t₂, h₂', h'⟩ := bind_eq_ok.mp h'
  obtain ⟨-, -, h'⟩ := bind_eq_ok.mp h'
  obtain ⟨xw, hx, h₁⟩ := bind_eq_ok.mp h₁
  obtain ⟨yw, hy, h₂⟩ := bind_eq_ok.mp h₂
  obtain ⟨xw', hx', h₁'⟩ := bind_eq_ok.mp h₁'
  obtain ⟨yw', hy', h₂'⟩ := bind_eq_ok.mp h₂'
  cases h₁
  cases h₂
  cases h
  cases h₁'
  cases h₂'
  cases h'
  rw [hst.xCompressed, hst.lineCnt] at hx'
  rw [hst.yCompressed, hst.lineCnt] at hy'
  obtain rfl : xw = xw' := Except.ok.inj (hx.symm.trans hx')
  obtain rfl : yw = yw' := Except.ok.inj (hy.symm.trans hy')
  rw [growChunks_eq { s with xCompressed := xw, yCompressed := yw },
    growChunks_eq { t with xCompressed := xw, yCompressed := yw }]
  refine ⟨⟨rfl, rfl, hst.chunkX, hst.chunkY, ?_, hst.lineCnt⟩, rfl, rfl⟩
  dsimp only
  rw [hst.chunkOffset, hst.lineCnt]

/-- There is room for the slopes and the intercepts of all lines. -/
theorem linePushBack_space {x y a b : ℤ} (h : s.linePushBack p x y a b = .ok s') :
  s'.lineCnt * p.aBit ≤ s'.aCompressed.length * 64 ∧
    s'.lineCnt * p.bBit ≤ s'.bCompressed.length * 64
  := by
  have hwidth := p.width
  obtain ⟨s₁, h₁, h⟩ := bind_eq_ok.mp h
  obtain ⟨s₂, h₂, h⟩ := bind_eq_ok.mp h
  obtain ⟨s₃, h₃, h⟩ := bind_eq_ok.mp h
  obtain ⟨aw, ha, h₂⟩ := bind_eq_ok.mp h₂
  obtain ⟨bw, hb, h₃⟩ := bind_eq_ok.mp h₃
  cases h₂
  cases h₃
  cases h
  constructor
  · apply PackedArray.set_space p.slopeBit_pos _ (orThrow_eq_ok.mp ha)
    omega
  · apply PackedArray.set_space _ _ (orThrow_eq_ok.mp hb)
    · unfold Param.bBit
      omega
    · unfold Param.bBit
      omega

/-- A lookup stops at the same position. -/
theorem locate_positions (h : SamePositions s t) :
  t.locate lba = s.locate lba
  := by
  have hsearch : ∀ fuel low high,
      t.searchChunk lba fuel low high = s.searchChunk lba fuel low high := by
    intro fuel
    induction fuel with
    | zero =>
        intro low high
        rfl
    | succ fuel ih =>
        intro low high
        simp only [searchChunk, h.chunkX, ih]
  have hwalk : ∀ n x y index, t.walk lba n x y index = s.walk lba n x y index := by
    intro n
    induction n with
    | zero =>
        intro x y index
        rfl
    | succ n ih =>
        intro x y index
        simp only [walk, getX, getY, h.xCompressed, h.yCompressed, ih]
  unfold locate chunkCnt
  simp only [h.chunkX, h.chunkY, h.chunkOffset, hsearch, hwalk]

/-- The last line of a finished store can have any slope and intercept: a lookup reads the
fields of a line in any case. -/
theorem lineAt_ok {s₀ : LineStore} {lines : List Line} {x y a b a' b' : ℤ}
    (hpush₀ : s.linePushBack p x y a b = .ok s₀) (hs₀ : Stored p lines s₀) (hne : lines ≠ [])
    (hpair : lines.Pairwise Line.Before) (hpush : s.linePushBack p x y a' b' = .ok s')
    (hclose : s'.close = .ok t) (hfirst : (lineNo lines 0).x ≤ lba) :
  ∃ line, t.lineAt p lba = .ok line
  := by
  have hwidth := p.width
  obtain ⟨t₀, hclose₀, hclosed⟩ := close_closed hs₀ hne
  have hpos := linePushBack_positions hpush₀ hpush
  obtain ⟨hpos', ha, hb⟩ := close_positions hpos hclose₀ hclose
  obtain ⟨j, hloc, hj, -, -⟩ := locate_eq hclosed hpair hfirst
  rw [← locate_positions hpos'] at hloc
  rw [← hs₀.cnt, ← hpos.lineCnt] at hj
  obtain ⟨haw, hbw⟩ := linePushBack_space hpush
  rw [← ha] at haw
  rw [← hb] at hbw
  have ha64 : p.aBit ≤ 64 := by
    unfold Param.aBit
    omega
  have hb64 : p.bBit ≤ 64 := by
    unfold Param.bBit
    omega
  obtain ⟨av, hav, -⟩ := PackedArray.get_eq p.slopeBit_pos ha64
    (le_trans (Nat.mul_le_mul_right p.aBit hj) haw)
  obtain ⟨bv, hbv, -⟩ := PackedArray.get_eq (by unfold Param.bBit; omega) hb64
    (le_trans (Nat.mul_le_mul_right p.bBit hj) hbw)
  refine ⟨⟨(lineNo lines j).x, (lineNo lines j).y, av.toNat, decodeB p bv⟩,
    bind_eq_ok.mpr ⟨_, hloc, ?_⟩⟩
  refine bind_eq_ok.mpr ⟨av, orThrow_eq_ok.mpr hav, ?_⟩
  exact bind_eq_ok.mpr ⟨bv, orThrow_eq_ok.mpr hbv, rfl⟩

end LineStore

/-- A lookup in a finished regression gives a page. -/
theorem get_ok {p : Param} {s s' : Builder} {pairs : List (ℤ × ℤ)} {q : ℤ × ℤ} {lba : ℤ}
    (hins : Inserted (p := p) (q :: pairs) s) (hgrows : Grows (q :: pairs) s)
    (hfits : ∀ r ∈ q :: pairs, Fits r) (hpair : (q :: pairs).Pairwise Earlier)
    (h : s.insertEnd p = .ok s') (hlba : q.1 ≤ lba) :
  ∃ v, s'.get p lba = .ok v
  := by
  obtain ⟨store, hpush, h⟩ := bind_eq_ok.mp h
  obtain ⟨store', hclose, h⟩ := bind_eq_ok.mp h
  cases h
  obtain ⟨⟨lines, done, cur, heq, hshape⟩, -⟩ := hins
  have hne := hgrows.member (List.cons_ne_nil q pairs)
  rw [hshape.member] at hne
  cases cur with
  | nil => apply (hne rfl).elim
  | cons o cur =>
      rw [heq.symm] at hfits hpair
      obtain ⟨-, -, hdone⟩ := List.pairwise_append.mp hpair
      have hnear : ∀ r ∈ [o], Near p ⟨o.1, o.2, 0, 0⟩ r := by
        intro r hr
        rw [List.mem_singleton.mp hr]
        apply near_flat o
      obtain ⟨store₀, hpush₀, hseg⟩ := hshape.segments.push (hfits o (by simp)) le_rfl
        (bit_pos p) hnear (fun r hr => hdone r hr o List.mem_cons_self) (by simp)
      have hfirst : (lineNo (lines ++ [⟨o.1, o.2, 0, 0⟩]) 0).x ≤ lba := by
        have hmem : q ∈ done ++ [o] := by
          cases done with
          | nil =>
              obtain rfl : o = q := (List.cons.inj heq).1
              apply List.mem_singleton_self o
          | cons d done =>
              obtain rfl : d = q := (List.cons.inj heq).1
              apply List.mem_append_left _ List.mem_cons_self
        obtain ⟨l, ⟨i, hi, hx, -⟩, -⟩ := hseg.near q hmem
        apply le_trans (lineNo_zero_le hseg.pairwise hi) (le_trans hx hlba)
      unfold Builder.pushOpen at hpush
      rw [hshape.member] at hpush
      obtain ⟨a, -, hpush⟩ := bind_eq_ok.mp hpush
      obtain ⟨b, -, hpush⟩ := bind_eq_ok.mp hpush
      obtain ⟨line, hline⟩ := LineStore.lineAt_ok hpush₀ hseg.stored (by simp) hseg.pairwise hpush
        hclose hfirst
      exact ⟨_, get_of_lineAt hline⟩

/-- For a regression that has been built from pairs in the order of their addresses, the
original and the optimised `get` have the same result, and it is a page. -/
theorem getOriginal_eq_get (p : Param) (u : Unset) (q : ℤ × ℤ) (pairs : List (ℤ × ℤ))
    (hfits : ∀ r ∈ q :: pairs, Fits r) (hppa : ∀ r ∈ q :: pairs, r.2 * tick < 2 ^ 31)
    (hpair : (q :: pairs).Pairwise Earlier) {s s' : Builder}
    (hs : (Builder.new u).insertAll p (q :: pairs) = .ok s) (hend : s.insertEnd p = .ok s')
    {lba : ℤ} (hlba : q.1 ≤ lba) :
  s'.getOriginal p lba = s'.get p lba ∧ (p.range ≤ 190 → ∃ v, s'.get p lba = .ok v)
  := by
  have hnew : Grows [] (.new u) := ⟨(inserted_new (p := p) u).counted, fun h => (h rfl).elim, rfl⟩
  have hgrows := insertAll_grows (q :: pairs) hnew hfits hs
  rw [List.nil_append] at hgrows
  obtain ⟨hchunk, hmin, hmax⟩ := insertEnd_chunk hgrows (List.cons_ne_nil q pairs) hend
  refine ⟨?_, fun hrange => ?_⟩
  · obtain ⟨r, hr, hlo⟩ := hgrows.counted.least.resolve_left (List.cons_ne_nil q pairs)
    obtain ⟨r', hr', hhi⟩ := hgrows.counted.largest.resolve_left (List.cons_ne_nil q pairs)
    have hle := (hgrows.counted.between r hr).2
    have hge := (hfits r hr).ppa_ge
    have hlt := hppa r' hr'
    rw [← hlo, ← hmin, ← hmax] at hle
    rw [← hlo, ← hmin] at hge
    rw [← hhi, ← hmax] at hlt
    apply getOriginal_of_chunk hchunk hge hle hlt
  · obtain ⟨s₁, hs₁, hins⟩ := insertAll_inserted (q :: pairs) (by omega)
      (inserted_new (p := p) u) hfits hpair
    obtain rfl : s₁ = s := Except.ok.inj (hs₁.symm.trans hs)
    apply get_ok hins hgrows hfits hpair hend hlba

theorem getOriginal_eq_get_twoPairs :
  ∃ s', twoPairs.insertEnd largeRange = .ok s' ∧
    s'.getOriginal largeRange 5 = s'.get largeRange 5 ∧
    (largeRange.range ≤ 190 → ∃ v, s'.get largeRange 5 = .ok v)
  := by
  have hmax : (twoPairs.insertEnd largeRange).map (fun s => s.ppaMax) = .ok 0 := by
    decide +kernel
  obtain ⟨s', hs', -⟩ := map_eq_ok hmax
  have hpages : ∀ r ∈ [((0 : ℤ), (0 : ℤ)), (1, 0)], Fits r ∧ r.2 * tick < 2 ^ 31 := by
    intro r hr
    simp only [List.mem_cons, List.not_mem_nil, or_false] at hr
    rcases hr with rfl | rfl
    all_goals exact ⟨⟨by decide, by decide, by decide, by decide⟩, by decide⟩
  exact ⟨s', hs', getOriginal_eq_get largeRange ⟨⟨0, 0⟩, ⟨0, 0⟩, ⟨0, 0⟩, ⟨0, 0⟩, ⟨0, 0⟩, ⟨0, 0⟩⟩
    (0, 0) [(1, 0)] (fun r hr => (hpages r hr).1) (fun r hr => (hpages r hr).2) (by simp [Earlier])
    rfl hs' (by decide)⟩

end Plr

end AppL
