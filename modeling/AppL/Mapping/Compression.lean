import Mathlib.Data.List.Induction
import AppL.Lib.Bytes
import AppL.Mapping.GuardBf

/-!
# Compressed summary pages

With `REAL_COMPRESSION` the mapping function of type `COMP_MAP` keeps the lbas of a summary
page in chunks of `CHUNKSIZE` bits.  A chunk has its first lba in four bytes and the differences
of the others to the lbas before them, in fields of `bit_num` bits.  The two decoders find the
lba of an offset and the offset of an lba.
-/

namespace AppL

open Transition

/-- `CHUNKSIZE`, in bits. -/
def chunkSize : ℕ := 512

/-- `compressed_form`, with the bytes of `data`. -/
structure CompressedForm where
  dataSize : ℕ
  maxEntryNum : ℕ
  data : List ℕ
  bitNum : ℕ
  deriving DecidableEq, Repr

/-! ### Compression -/

/-- What the first loop of `compression_data` computes. -/
structure PageScan where
  maxEntryNum : ℕ
  maxDelta : ℕ
  prevLba : ℕ

/-- A turn of the first loop. -/
def PageScan.step (s : PageScan) (p : SummaryPair) : PageScan where
  maxEntryNum := s.maxEntryNum + 1
  maxDelta :=
    if s.maxEntryNum = 0 then s.maxDelta else max s.maxDelta (uint32 (p.lba - s.prevLba))
  prevLba := p.lba

/-- The first loop of `compression_data`. -/
def scanPage (map : List SummaryPair) : PageScan :=
  ((map.take (lpagesize / 8)).takeWhile fun p => p.lba ≠ uint32Max).foldl PageScan.step ⟨0, 0, 0⟩

/-- The number of halvings until nothing is left, for at most `n` bits. -/
def countBits : ℕ → ℕ → ℕ
  | 0, _ => 0
  | n + 1, d => if d = 0 then 0 else countBits n (d / 2) + 1

/-- `entry_per_chunk` for fields of `bitNum` bits. -/
def entryPerChunk (bitNum : ℕ) : Except Abort ℕ := do
  require .divByZero (bitNum ≠ 0)
  return (chunkSize - 32) / bitNum + 1

/-- The width and the value of the field of an entry. -/
def entryField (bitNum : ℕ) (first : Bool) (lba prevLba : ℕ) : Except Abort (ℕ × ℕ) :=
  if first then
    .ok (4, lba)
  else do
    require .deltaWidth (bitNum ∈ [8, 16, 24, 32])
    return (bitNum / 8, uint32 (lba - prevLba))

/-- The inner loop of `compression_data` for at most `n` entries from `mapIdx` on, which are
written from `desPtr` on.  The flag of the result tells whether `done` has been reached. -/
def writeEntries (map : List SummaryPair) (bitNum maxEntryNum : ℕ) :
    ℕ → Bool → List ℕ → ℕ → ℕ → ℕ → Except Abort (List ℕ × ℕ × Bool)
  | 0, _, data, _, _, prevLba => .ok (data, prevLba, false)
  | n + 1, first, data, desPtr, mapIdx, prevLba => do
      let p ← orThrow .outOfBounds map[mapIdx]?
      let (w, v) ← entryField bitNum first p.lba prevLba
      let data ← orThrow .outOfBounds (Bytes.write data desPtr w v)
      if mapIdx + 1 = maxEntryNum then
        return (data, p.lba, true)
      else
        writeEntries map bitNum maxEntryNum n false data (desPtr + w) (mapIdx + 1) p.lba

/-- The loop of `compression_data` over `n` chunks from `chunkIdx` on. -/
def writeChunks (map : List SummaryPair) (bitNum maxEntryNum entryPerChunk : ℕ) :
    ℕ → ℕ → List ℕ → ℕ → Except Abort (List ℕ)
  | 0, _, data, _ => .ok data
  | n + 1, chunkIdx, data, prevLba => do
      let (data, prevLba, done) ← writeEntries map bitNum maxEntryNum entryPerChunk true data
        (chunkIdx * chunkSize / 8) (chunkIdx * entryPerChunk) prevLba
      if done then
        return data
      else
        writeChunks map bitNum maxEntryNum entryPerChunk n (chunkIdx + 1) data prevLba

/-- `compression_data`; `map` are the pairs of the summary page. -/
def compressionData (map : List SummaryPair) : Except Abort CompressedForm := do
  let s := scanPage map
  let bitNum := if s.maxEntryNum = 1 then 0 else ceilDiv (countBits 32 s.maxDelta) 8 * 8
  let entryPerChunk ← if s.maxEntryNum = 1 then pure 1 else entryPerChunk bitNum
  let chunkNum := if s.maxEntryNum = 1 then 1 else ceilDiv s.maxEntryNum entryPerChunk
  let data ← writeChunks map bitNum s.maxEntryNum entryPerChunk chunkNum 0
    (List.replicate (chunkNum * chunkSize / 8) 255) s.prevLba
  return ⟨chunkNum * chunkSize, s.maxEntryNum, data, bitNum⟩

/-! ### Decoders -/

/-- The switch of `get_comp_lba_from_offset`: the value that is added and the bytes that are
passed.  `junk` is the byte of `temp` that is not set. -/
def shiftedDelta (junk : ℕ → ℕ) (c : CompressedForm) (ptr : ℕ) : Except Abort (ℕ × ℕ) :=
  if c.bitNum = 24 then do
    let temp ← orThrow .outOfBounds (Bytes.read c.data ptr 3)
    return ((temp + junk ptr * 2 ^ 24) / 2 ^ 8, 3)
  else if c.bitNum ∈ [8, 16, 32] then do
    let delta ← orThrow .outOfBounds (Bytes.read c.data ptr (c.bitNum / 8))
    return (delta, c.bitNum / 8)
  else
    .ok (0, 0)

/-- The loop of `get_comp_lba_from_offset`. -/
def addDeltas (junk : ℕ → ℕ) (c : CompressedForm) : ℕ → ℕ → ℕ → Except Abort ℕ
  | 0, _, headLba => .ok headLba
  | n + 1, ptr, headLba => do
      let (delta, w) ← shiftedDelta junk c ptr
      addDeltas junk c n (ptr + w) (uint32 (headLba + delta))

/-- `get_comp_lba_from_offset`. -/
def getCompLbaFromOffset (junk : ℕ → ℕ) (c : CompressedForm) (i : ℕ) : Except Abort ℕ := do
  let entryPerChunk ← entryPerChunk c.bitNum
  let chunkIdx := i / entryPerChunk
  let offset := i % entryPerChunk
  let headLba ← orThrow .outOfBounds (Bytes.read c.data (chunkIdx * chunkSize / 8) 4)
  addDeltas junk c offset (chunkIdx * chunkSize / 8 + 4) headLba

/-- The loop of `find_offset` over the heads of the chunks; `mid` is the chunk of the turn
before. -/
def findChunk (c : CompressedForm) (lba lastEntry : ℕ) : ℕ → ℕ → ℕ → ℕ → Except Abort ℕ
  | 0, _, _, _ => .error .endlessLoop
  | fuel + 1, s, e, mid =>
      if s ≤ e then do
        let mid := uint32 (s + e) / 2
        let targetLba ← orThrow .outOfBounds (Bytes.read c.data (mid * chunkSize / 8) 4)
        if mid = lastEntry then
          if targetLba ≤ lba then
            return mid
          else
            findChunk c lba lastEntry fuel s (uint32 (mid - 1)) mid
        else do
          let targetEndLba ← orThrow .outOfBounds
            (Bytes.read c.data ((mid + 1) * chunkSize / 8) 4)
          if targetLba ≤ lba ∧ lba < targetEndLba then
            return mid
          else if lba < targetLba then
            findChunk c lba lastEntry fuel s (uint32 (mid - 1)) mid
          else
            findChunk c lba lastEntry fuel (uint32 (mid + 1)) e mid
      else
        .ok mid

/-- The switch of `find_offset`. -/
def plainDelta (c : CompressedForm) (ptr : ℕ) : Except Abort ℕ :=
  if c.bitNum ∈ [8, 16, 24, 32] then
    orThrow .outOfBounds (Bytes.read c.data ptr (c.bitNum / 8))
  else
    .ok 0

/-- The loop of `find_offset` along a chunk, from turn `i` on. -/
def findInChunk (c : CompressedForm) (lba entryPerChunk targetIdx : ℕ) :
    ℕ → ℕ → ℕ → ℕ → Except Abort ℕ
  | 0, _, _, _ => .ok targetIdx
  | n + 1, i, ptr, headLba => do
      let delta ← plainDelta c ptr
      if uint32 (headLba + delta) = lba then
        return targetIdx + i
      else if i = entryPerChunk then
        return notFound
      else
        findInChunk c lba entryPerChunk targetIdx n (i + 1) (ptr + c.bitNum / 8)
          (uint32 (headLba + delta))

/-- `find_offset`. -/
def findOffset (lba : ℕ) (c : CompressedForm) : Except Abort ℕ := do
  let lastEntry := uint32 (c.dataSize / chunkSize - 1)
  let mid ← findChunk c lba lastEntry (lastEntry + 2) 0 lastEntry 0
  let headLba ← orThrow .outOfBounds (Bytes.read c.data (mid * chunkSize / 8) 4)
  let entryPerChunk ← if c.maxEntryNum ≠ 1 then entryPerChunk c.bitNum else pure 1
  if headLba = lba then
    return entryPerChunk * mid
  else
    findInChunk c lba entryPerChunk (entryPerChunk * mid) entryPerChunk 1
      (mid * chunkSize / 8 + 4) headLba

/-! ### The scan of a page -/

/-- A summary page with the lbas, behind which `UINT32_MAX` ends the entries. -/
def PageOf (page : List SummaryPair) (lbas : List ℕ) : Prop :=
  page.length = lpagesize / 8 ∧
    (page.takeWhile fun p => p.lba ≠ uint32Max).map SummaryPair.lba = lbas

/-- What the scan knows of the entries. -/
structure Scanned (lbas : List ℕ) (s : PageScan) : Prop where
  maxEntryNum : s.maxEntryNum = lbas.length
  prevLba : ∀ lba, lbas.getLast? = some lba → s.prevLba = lba
  upper : ∀ i x y, lbas[i]? = some x → lbas[i + 1]? = some y → y - x ≤ s.maxDelta
  attained : s.maxDelta = 0 ∨ ∃ (i x y : ℕ), lbas[i]? = some x ∧ lbas[i + 1]? = some y ∧
    s.maxDelta = y - x

theorem uint32_sub {x y : ℕ} (hxy : x < y) (hy : y < 2 ^ 32) :
  uint32 ((y : ℤ) - x) = y - x
  := by
  have := uint32_of_lt (z := (y : ℤ) - x) (by omega) (by omega)
  omega

/-- One more entry is scanned. -/
theorem Scanned.step {lbas : List ℕ} {s : PageScan} {p : SummaryPair} (h : Scanned lbas s)
    (hsorted : (lbas ++ [p.lba]).Pairwise (· < ·)) (hp : p.lba < 2 ^ 32) :
  Scanned (lbas ++ [p.lba]) (s.step p)
  := by
  cases hlast : lbas.getLast? with
  | none =>
      obtain rfl := List.getLast?_eq_none_iff.mp hlast
      have hnum : s.maxEntryNum = 0 := h.maxEntryNum
      have hzero : s.maxDelta = 0 := by
        rcases h.attained with hz | ⟨i, x, y, hx, -⟩
        · apply hz
        · cases hx
      refine ⟨by rw [PageScan.step, hnum]; rfl, ?_, ?_, ?_⟩
      · intro lba hlba
        cases hlba
        rfl
      · intro i x y _ hy
        rw [List.nil_append, List.getElem?_cons_succ, List.getElem?_nil] at hy
        cases hy
      · left
        simp only [PageScan.step, hnum, hzero, if_true]
  | some lba =>
      have hlen : 0 < lbas.length := List.length_pos_of_mem (List.mem_of_getLast? hlast)
      have hprev := h.prevLba lba hlast
      have hend : lbas[lbas.length - 1]? = some lba := by rwa [← List.getLast?_eq_getElem?]
      have hlt : lba < p.lba := by
        apply (List.pairwise_append.mp hsorted).2.2 lba (List.mem_of_getLast? hlast)
        apply List.mem_singleton_self _
      have hdelta : uint32 ((p.lba : ℤ) - s.prevLba) = p.lba - lba := by
        rw [hprev]
        apply uint32_sub hlt hp
      have hnum : s.maxEntryNum ≠ 0 := by
        rw [h.maxEntryNum]
        omega
      have hmax : (s.step p).maxDelta = max s.maxDelta (p.lba - lba) := by
        simp only [PageScan.step, if_neg hnum, hdelta]
      refine ⟨?_, ?_, ?_, ?_⟩
      · rw [List.length_append, List.length_singleton, PageScan.step, h.maxEntryNum]
      · intro x hx
        rw [List.getLast?_append, List.getLast?_singleton] at hx
        cases hx
        rfl
      · intro i x y hx hy
        rw [hmax]
        rw [getElem?_concat] at hx hy
        split at hy
        · rename_i hi
          rw [if_neg (by omega)] at hx
          have hidx : i = lbas.length - 1 := by omega
          rw [hidx, hend] at hx
          cases hx
          cases hy
          apply le_max_right _ _
        · rw [if_neg (by have := (List.getElem?_eq_some_iff.mp hy).1; omega)] at hx
          apply (h.upper i x y hx hy).trans (le_max_left _ _)
      · right
        rw [hmax]
        rcases Nat.le_total s.maxDelta (p.lba - lba) with hle | hle
        · refine ⟨lbas.length - 1, lba, p.lba, ?_, ?_, max_eq_right hle⟩
          · rw [getElem?_concat, if_neg (by omega), hend]
          · rw [getElem?_concat, if_pos (by omega)]
        · rcases h.attained with hz | ⟨i, x, y, hx, hy, heq⟩
          · omega
          · have hilt := (List.getElem?_eq_some_iff.mp hy).1
            refine ⟨i, x, y, ?_, ?_, ?_⟩
            · rw [getElem?_concat, if_neg (by omega), hx]
            · rw [getElem?_concat, if_neg (by omega), hy]
            · rw [max_eq_left hle, heq]

theorem foldl_scanned (entries : List SummaryPair) :
  (entries.map SummaryPair.lba).Pairwise (· < ·) → (∀ p ∈ entries, p.lba < 2 ^ 32) →
    Scanned (entries.map SummaryPair.lba) (entries.foldl PageScan.step ⟨0, 0, 0⟩)
  := by
  induction entries using List.reverseRecOn with
  | nil =>
      intro _ _
      use rfl, by simp, by simp, .inl rfl
  | append_singleton entries p ih =>
      intro hsorted hbound
      rw [List.map_append, List.map_singleton] at hsorted ⊢
      rw [List.foldl_append, List.foldl_cons, List.foldl_nil]
      apply Scanned.step _ hsorted (hbound p (by simp))
      apply ih (List.pairwise_append.mp hsorted).1 fun q hq => hbound q (by simp [hq])

theorem scanPage_scanned {page : List SummaryPair} {lbas : List ℕ} (hpage : PageOf page lbas)
    (hsorted : lbas.Pairwise (· < ·)) (hmax : ∀ lba ∈ lbas, lba < uint32Max) :
  Scanned lbas (scanPage page)
  := by
  obtain ⟨hlen, rfl⟩ := hpage
  unfold scanPage
  rw [List.take_of_length_le hlen.le]
  apply foldl_scanned _ hsorted
  intro p hp
  have := hmax p.lba (List.mem_map_of_mem hp)
  have : uint32Max < 2 ^ 32 := by decide
  omega

/-- The entries of a page have its lbas. -/
theorem PageOf.getElem? {page : List SummaryPair} {lbas : List ℕ} (h : PageOf page lbas) {i lba : ℕ}
    (hi : lbas[i]? = some lba) :
  ∃ p, page[i]? = some p ∧ p.lba = lba
  := by
  obtain ⟨-, rfl⟩ := h
  rw [List.getElem?_map, Option.map_eq_some_iff] at hi
  obtain ⟨p, hp, rfl⟩ := hi
  refine ⟨p, ?_, rfl⟩
  obtain ⟨hlt, rfl⟩ := List.getElem?_eq_some_iff.mp hp
  apply List.prefix_iff_getElem?.mp (List.takeWhile_prefix _) i hlt

/-! ### The width of a field -/

theorem countBits_le_iff (n : ℕ) :
  ∀ {d k : ℕ}, d < 2 ^ n → (countBits n d ≤ k ↔ d < 2 ^ k)
  := by
  induction n with
  | zero =>
      intro d k hd
      rw [countBits]
      have := Nat.two_pow_pos k
      omega
  | succ n ih =>
      intro d k hd
      rw [countBits]
      split
      · rename_i hz
        have := Nat.two_pow_pos k
        omega
      · rename_i hz
        cases k with
        | zero => omega
        | succ k =>
            rw [Nat.pow_succ] at hd ⊢
            have := ih (d := d / 2) (k := k) (by omega)
            omega

/-- The number of bytes of a field is the least one that has room for the difference. -/
theorem ceilDiv_countBits {d : ℕ} (hpos : 0 < d) (hd : d < 2 ^ 32) :
  ∃ w, ceilDiv (countBits 32 d) 8 = w ∧ 1 ≤ w ∧ w ≤ 4 ∧ d < 2 ^ (w * 8) ∧
    2 ^ ((w - 1) * 8) ≤ d
  := by
  have key : ∀ k, k < ceilDiv (countBits 32 d) 8 ↔ 2 ^ (k * 8) ≤ d := by
    intro k
    rw [lt_ceilDiv (by decide), ← not_le, countBits_le_iff 32 hd, not_lt]
  refine ⟨_, rfl, ?_, ?_, ?_, ?_⟩
  · apply (key 0).mpr hpos
  · rw [← not_lt, key]
    omega
  · rw [← not_le, ← key]
    apply Nat.lt_irrefl _
  · rw [← key]
    have := (key 0).mpr hpos
    omega

/-! ### Chunks -/

/-- The bytes of chunk `q` have the first `i` of its entries. -/
structure ChunkHolds (w epc : ℕ) (lbas data : List ℕ) (q i : ℕ) : Prop where
  head : 0 < i → ∀ lba, lbas[q * epc]? = some lba → Bytes.read data (q * 64) 4 = some lba
  delta : ∀ r x y, r + 1 < i → lbas[q * epc + r]? = some x → lbas[q * epc + (r + 1)]? = some y →
    Bytes.read data (q * 64 + 4 + r * w) w = some (y - x)

section Chunks

variable {w epc : ℕ} {lbas data data' : List ℕ} {q q' i : ℕ}

/-- The bytes of another chunk are not touched. -/
theorem ChunkHolds.write_other {off n v : ℕ} (h : ChunkHolds w epc lbas data q' i)
    (hroom : (i - 1) * w ≤ 60) (hne : q' ≠ q) (hoff : off + n ≤ 64)
    (hwrite : Bytes.write data (q * 64 + off) n v = some data') :
  ChunkHolds w epc lbas data' q' i
  := by
  constructor
  · intro hi lba hlba
    rw [Bytes.read_write_of_disjoint hwrite (by omega)]
    apply h.head hi lba hlba
  · intro r x y hr hx hy
    have hmul : (r + 1) * w ≤ (i - 1) * w := Nat.mul_le_mul_right w (by omega)
    rw [Nat.succ_mul] at hmul
    rw [Bytes.read_write_of_disjoint hwrite (by omega)]
    apply h.delta r x y hr hx hy

/-- The first entry of a chunk is written. -/
theorem ChunkHolds.write_head {lba : ℕ} (hlba : lbas[q * epc]? = some lba) (hlt : lba < 2 ^ 32)
    (hwrite : Bytes.write data (q * 64) 4 lba = some data') :
  ChunkHolds w epc lbas data' q 1
  := by
  constructor
  · intro _ lba' hlba'
    rw [hlba] at hlba'
    cases hlba'
    rw [Bytes.read_write hwrite, Nat.mod_eq_of_lt (by omega)]
  · intro r x y hr
    omega

/-- A further entry of a chunk is written. -/
theorem ChunkHolds.write_delta {r x y : ℕ} (h : ChunkHolds w epc lbas data q (r + 1))
    (hx : lbas[q * epc + r]? = some x) (hy : lbas[q * epc + (r + 1)]? = some y)
    (hlt : y - x < 256 ^ w)
    (hwrite : Bytes.write data (q * 64 + 4 + r * w) w (y - x) = some data') :
  ChunkHolds w epc lbas data' q (r + 2)
  := by
  constructor
  · intro _ lba hlba
    rw [Bytes.read_write_of_disjoint hwrite (by omega)]
    apply h.head (by omega) lba hlba
  · intro r' x' y' hr hx' hy'
    rcases Nat.lt_or_eq_of_le (Nat.le_of_lt_succ (Nat.lt_of_succ_lt_succ hr)) with hlt' | rfl
    · have hmul := Nat.mul_le_mul_right w (Nat.succ_le_of_lt hlt')
      rw [Nat.succ_mul] at hmul
      rw [Bytes.read_write_of_disjoint hwrite (by omega)]
      apply h.delta r' x' y' (by omega) hx' hy'
    · rw [hx] at hx'
      rw [hy] at hy'
      cases hx'
      cases hy'
      rw [Bytes.read_write hwrite, Nat.mod_eq_of_lt hlt]

/-- There are no entries behind the last one. -/
theorem ChunkHolds.extend (h : ChunkHolds w epc lbas data q i) (hi : 0 < i)
    (hend : lbas.length ≤ q * epc + i) (j : ℕ) :
  ChunkHolds w epc lbas data q j
  := by
  constructor
  · intro _
    apply h.head hi
  · intro r x y _ hx hy
    have hlt := (List.getElem?_eq_some_iff.mp hy).1
    apply h.delta r x y (by omega) hx hy

end Chunks

/-! ### The loops of the compression -/

/-- The lbas of a page fit chunks of `epc` entries, with fields of `w` bytes. -/
structure Layout (page : List SummaryPair) (lbas : List ℕ) (w epc : ℕ) : Prop where
  page : PageOf page lbas
  sorted : lbas.Pairwise (· < ·)
  max : ∀ lba ∈ lbas, lba < 2 ^ 32
  width : 8 * w ∈ [8, 16, 24, 32]
  delta : ∀ i x y, lbas[i]? = some x → lbas[i + 1]? = some y → y - x < 256 ^ w
  epc : epc = (chunkSize - 32) / (8 * w) + 1

theorem chunk_ptr (q : ℕ) :
  q * chunkSize / 8 = q * 64
  := by
  unfold chunkSize
  omega

section Write

variable {page : List SummaryPair} {lbas : List ℕ} {w epc : ℕ}

theorem Layout.width_cases (h : Layout page lbas w epc) :
  w = 1 ∨ w = 2 ∨ w = 3 ∨ w = 4
  := by
  have hw := h.width
  simp only [List.mem_cons, List.not_mem_nil, or_false] at hw
  omega

/-- The fields of a chunk are in its bytes. -/
theorem Layout.room (h : Layout page lbas w epc) :
  (epc - 1) * w ≤ 60 ∧ 2 ≤ epc
  := by
  rw [h.epc]
  rcases h.width_cases with rfl | rfl | rfl | rfl
  all_goals decide

/-- The entries of a chunk behind the first `r + 1` ones. -/
theorem writeEntries_spec (h : Layout page lbas w epc) {q : ℕ} (n : ℕ) :
  ∀ {r : ℕ} {data : List ℕ} {x : ℕ}, r + 1 + n = epc → q * epc + (r + 1) < lbas.length →
    lbas[q * epc + r]? = some x → (q + 1) * 64 ≤ data.length →
    (∀ q' < q, ChunkHolds w epc lbas data q' epc) → ChunkHolds w epc lbas data q (r + 1) →
    ∃ data' prevLba done, writeEntries page (8 * w) lbas.length n false data
        (q * 64 + 4 + r * w) (q * epc + (r + 1)) x = .ok (data', prevLba, done) ∧
      data'.length = data.length ∧ (∀ q' ≤ q, ChunkHolds w epc lbas data' q' epc) ∧
      (done = true → lbas.length ≤ (q + 1) * epc) ∧
      (done = false → (q + 1) * epc < lbas.length)
  := by
  have hepc : (q + 1) * epc = q * epc + epc := Nat.succ_mul q epc
  have hroom := h.room.1
  induction n with
  | zero =>
      intro r data x hr hlt hx hlen hbefore hq
      have hlast : r + 1 = epc := hr
      rw [hlast] at hq
      refine ⟨data, x, false, rfl, rfl, ?_, by simp, fun _ => by omega⟩
      intro q' hq'
      rcases Nat.lt_or_eq_of_le hq' with hlt' | rfl
      · apply hbefore q' hlt'
      · apply hq
  | succ n ih =>
      intro r data x hr hlt hx hlen hbefore hq
      obtain ⟨y, hy⟩ : ∃ y, lbas[q * epc + (r + 1)]? = some y := ⟨_, List.getElem?_eq_getElem hlt⟩
      obtain ⟨p, hp, rfl⟩ := h.page.getElem? hy
      have hxy := sorted_lt h.sorted (by omega) hx hy
      have hsub := uint32_sub hxy (h.max _ (List.mem_of_getElem? hy))
      have hmul : (r + 1) * w ≤ (epc - 1) * w := Nat.mul_le_mul_right w (by omega)
      rw [Nat.succ_mul] at hmul hlen
      obtain ⟨data', hwrite⟩ :
          ∃ data', Bytes.write data (q * 64 + 4 + r * w) w (p.lba - x) = some data' :=
        Bytes.exists_write (by omega) _
      have hptr : q * 64 + 4 + r * w + w = q * 64 + 4 + (r + 1) * w := by
        rw [Nat.succ_mul, Nat.add_assoc]
      have hlen' := Bytes.length_write hwrite
      have hq' := hq.write_delta hx hy (h.delta _ x _ hx hy) hwrite
      have hbefore' : ∀ q' < q, ChunkHolds w epc lbas data' q' epc := by
        intro q' hlt'
        rw [Nat.add_assoc] at hwrite
        apply (hbefore q' hlt').write_other hroom hlt'.ne (by omega) hwrite
      have hfield : entryField (8 * w) false p.lba x = .ok (w, p.lba - x) := by
        simp only [entryField, require, if_pos h.width, hsub, bind, Except.bind, pure, Except.pure,
          Bool.false_eq_true, if_false, Nat.mul_div_cancel_left w (show 0 < 8 by decide)]
      rw [writeEntries]
      simp only [hp, hfield, hwrite, orThrow, bind, Except.bind]
      split
      · rename_i hend
        refine ⟨data', p.lba, true, rfl, hlen', ?_, fun _ => by omega, by simp⟩
        intro q' hle
        rcases Nat.lt_or_eq_of_le hle with hlt' | rfl
        · apply hbefore' q' hlt'
        · apply hq'.extend (by omega) (by omega) epc
      · rename_i hend
        obtain ⟨data'', prevLba, done, heq, hlen'', hres⟩ :=
          ih (r := r + 1) (by omega) (by omega) hy (by omega) hbefore' hq'
        refine ⟨data'', prevLba, done, ?_, hlen''.trans hlen', hres⟩
        rw [hptr]
        apply heq

/-- The chunks from chunk `q` on. -/
theorem writeChunks_spec (h : Layout page lbas w epc) (n : ℕ) :
  ∀ {q : ℕ} {data : List ℕ} {prevLba : ℕ}, q * epc < lbas.length → lbas.length ≤ (q + n) * epc →
    (q + n) * 64 ≤ data.length → (∀ q' < q, ChunkHolds w epc lbas data q' epc) →
    ∃ data', writeChunks page (8 * w) lbas.length epc n q data prevLba = .ok data' ∧
      data'.length = data.length ∧ ∀ q', ChunkHolds w epc lbas data' q' epc
  := by
  obtain ⟨hroom, htwo⟩ := h.room
  have hall : ∀ {q : ℕ} {data : List ℕ}, lbas.length ≤ (q + 1) * epc →
      (∀ q' ≤ q, ChunkHolds w epc lbas data q' epc) → ∀ q', ChunkHolds w epc lbas data q' epc := by
    intro q data hend hle q'
    rcases Nat.lt_or_ge q q' with hlt | hge
    · have hmul : (q + 1) * epc ≤ q' * epc := Nat.mul_le_mul_right epc hlt
      constructor
      · intro _ lba hlba
        have := (List.getElem?_eq_some_iff.mp hlba).1
        omega
      · intro r x y _ hx
        have := (List.getElem?_eq_some_iff.mp hx).1
        omega
    · apply hle q' hge
  induction n with
  | zero =>
      intro q data prevLba hq hn
      rw [Nat.add_zero] at hn
      omega
  | succ n ih =>
      intro q data prevLba hq hn hlen hbefore
      obtain ⟨e, rfl⟩ : ∃ e, epc = e + 1 := ⟨epc - 1, by omega⟩
      obtain ⟨lba, hlba⟩ : ∃ x, lbas[q * (e + 1)]? = some x := ⟨_, List.getElem?_eq_getElem hq⟩
      obtain ⟨p, hp, rfl⟩ := h.page.getElem? hlba
      obtain ⟨data₁, hwrite⟩ : ∃ data₁, Bytes.write data (q * 64) 4 p.lba = some data₁ :=
        Bytes.exists_write (by omega) _
      have hlen₁ := Bytes.length_write hwrite
      have hhead : ChunkHolds w (e + 1) lbas data₁ q 1 :=
        .write_head hlba (h.max _ (List.mem_of_getElem? hlba)) hwrite
      have hbefore₁ : ∀ q' < q, ChunkHolds w (e + 1) lbas data₁ q' (e + 1) := by
        intro q' hlt
        rw [← Nat.add_zero (q * 64)] at hwrite
        apply (hbefore q' hlt).write_other hroom hlt.ne (by omega) hwrite
      have hsucc : (q + 1) * (e + 1) = q * (e + 1) + (e + 1) := Nat.succ_mul q (e + 1)
      obtain ⟨data', prevLba', done, hentries, hlen', hle, hdone, hmore⟩ :
          ∃ data' prevLba' done, writeEntries page (8 * w) lbas.length (e + 1) true data
              (q * chunkSize / 8) (q * (e + 1)) prevLba = .ok (data', prevLba', done) ∧
            data'.length = data.length ∧ (∀ q' ≤ q, ChunkHolds w (e + 1) lbas data' q' (e + 1)) ∧
            (done = true → lbas.length ≤ (q + 1) * (e + 1)) ∧
            (done = false → (q + 1) * (e + 1) < lbas.length) := by
        rw [writeEntries, chunk_ptr]
        simp only [hp, entryField, hwrite, orThrow, bind, Except.bind, if_true]
        split
        · rename_i hend
          refine ⟨data₁, p.lba, true, rfl, hlen₁, ?_, fun _ => by omega, by simp⟩
          intro q' hq'
          rcases Nat.lt_or_eq_of_le hq' with hlt | rfl
          · apply hbefore₁ q' hlt
          · apply hhead.extend (by omega) (by omega) _
        · rename_i hend
          obtain ⟨data', prevLba', done, heq, hlen', hres⟩ :=
            writeEntries_spec h e (r := 0) (x := p.lba) (q := q) (by omega) (by omega) hlba
              (by omega) hbefore₁ hhead
          refine ⟨data', prevLba', done, ?_, hlen'.trans hlen₁, hres⟩
          rw [Nat.zero_mul, Nat.add_zero, Nat.zero_add] at heq
          apply heq
      rw [writeChunks, hentries]
      cases done with
      | true => use data', rfl, hlen', hall (hdone rfl) hle
      | false =>
          have hadd : q + 1 + n = q + (n + 1) := by omega
          obtain ⟨data'', heq, hlen'', hres⟩ := ih (hmore rfl)
            (by rw [hadd]; exact hn) (by rw [hadd]; omega) fun q' hlt => hle q' (by omega)
          use data'', heq, hlen''.trans hlen', hres

theorem Layout.length (h : Layout page lbas w epc) :
  lbas.length ≤ 512
  := by
  obtain ⟨hlen, hlbas⟩ := h.page
  rw [← hlbas, List.length_map]
  apply (List.takeWhile_prefix _).length_le.trans hlen.le

/-- The page has been compressed. -/
structure Encoded (w epc : ℕ) (lbas : List ℕ) (c : CompressedForm) : Prop where
  bitNum : c.bitNum = 8 * w
  maxEntryNum : c.maxEntryNum = lbas.length
  dataSize : c.dataSize = ceilDiv lbas.length epc * chunkSize
  chunks : ∀ q, ChunkHolds w epc lbas c.data q epc

/-- A page with more than one entry is compressed. -/
theorem compressionData_encoded (h : Layout page lbas w epc) (htwo : 2 ≤ lbas.length)
    (hscan : Scanned lbas (scanPage page))
    (hw : ceilDiv (countBits 32 (scanPage page).maxDelta) 8 = w) :
  ∃ c, compressionData page = .ok c ∧ Encoded w epc lbas c
  := by
  obtain ⟨hroom, hepc⟩ := h.room
  have hne : lbas.length ≠ 1 := by omega
  have hw0 : w * 8 ≠ 0 := by
    rcases h.width_cases with rfl | rfl | rfl | rfl
    all_goals decide
  have hentry : entryPerChunk (w * 8) = .ok epc := by
    rw [h.epc, Nat.mul_comm 8 w]
    simp only [entryPerChunk, require, bind, Except.bind, pure, Except.pure]
    rw [if_pos hw0]
  have hend : lbas.length ≤ ceilDiv lbas.length epc * epc := by
    by_contra hlt
    exact absurd ((lt_ceilDiv (by omega)).mpr (not_le.mp hlt)) (Nat.lt_irrefl _)
  have hlen : (List.replicate (ceilDiv lbas.length epc * chunkSize / 8) 255).length
      = ceilDiv lbas.length epc * 64 := by
    rw [List.length_replicate, chunk_ptr]
  obtain ⟨data, hdata, -, hchunks⟩ : ∃ data, writeChunks page (8 * w) lbas.length epc
      (ceilDiv lbas.length epc) 0 (List.replicate (ceilDiv lbas.length epc * chunkSize / 8) 255)
      (scanPage page).prevLba = .ok data ∧ data.length = _ ∧
        ∀ q', ChunkHolds w epc lbas data q' epc :=
    writeChunks_spec h _ (by omega) (by rw [Nat.zero_add]; exact hend)
      (by rw [Nat.zero_add]; exact hlen.ge) (by simp)
  refine ⟨⟨ceilDiv lbas.length epc * chunkSize, lbas.length, data, w * 8⟩, ?_, Nat.mul_comm w 8,
    rfl, rfl, hchunks⟩
  unfold compressionData
  rw [← Nat.mul_comm w 8] at hdata
  simp only [hscan.maxEntryNum, if_neg hne, hw, hentry, hdata, bind, Except.bind, pure,
    Except.pure]

/-- A page with one entry is compressed to its head. -/
theorem compressionData_single {lba : ℕ} (hpage : PageOf page [lba])
    (hscan : Scanned [lba] (scanPage page)) :
  ∃ c, compressionData page = .ok c ∧ c.bitNum = 0
  := by
  have hnum : (scanPage page).maxEntryNum = 1 := hscan.maxEntryNum
  obtain ⟨p, hp, rfl⟩ := hpage.getElem? (i := 0) rfl
  obtain ⟨data, hwrite⟩ : ∃ data, Bytes.write (List.replicate 64 255) 0 4 p.lba = some data :=
    Bytes.exists_write (by rw [List.length_replicate]; decide) _
  refine ⟨⟨chunkSize, 1, data, 0⟩, ?_, rfl⟩
  have hentries : ∀ prevLba, writeEntries page 0 1 1 true (List.replicate 64 255) 0 0 prevLba
      = .ok (data, p.lba, true) := by
    intro prevLba
    rw [writeEntries]
    simp only [hp, entryField, hwrite, orThrow, bind, Except.bind, if_true]
    rfl
  have hptr : chunkSize / 8 = 64 := rfl
  unfold compressionData
  simp only [hnum, if_true, bind, Except.bind, pure, Except.pure, writeChunks, Nat.one_mul,
    Nat.zero_mul, Nat.zero_div, hptr, hentries]

end Write

/-! ### Decoding -/

section Decode

variable {page : List SummaryPair} {lbas : List ℕ} {w epc : ℕ} {c : CompressedForm}
  {junk : ℕ → ℕ}

theorem Encoded.entryPerChunk (hc : Encoded w epc lbas c) (h : Layout page lbas w epc) :
  entryPerChunk c.bitNum = .ok epc
  := by
  have hw0 : 8 * w ≠ 0 := by
    rcases h.width_cases with rfl | rfl | rfl | rfl
    all_goals decide
  rw [h.epc, hc.bitNum]
  simp only [AppL.entryPerChunk, require, if_pos hw0, bind, Except.bind, pure, Except.pure]

/-- Differences that are not of three bytes are added as they are. -/
theorem addDeltas_spec (h : Layout page lbas w epc) (hc : Encoded w epc lbas c) (hw : w ≠ 3)
    {q : ℕ} (n : ℕ) :
  ∀ {r x y : ℕ}, r + n < epc → lbas[q * epc + r]? = some x → lbas[q * epc + (r + n)]? = some y →
    addDeltas junk c n (q * 64 + 4 + r * w) x = .ok y
  := by
  induction n with
  | zero =>
      intro r x y _ hx hy
      rw [Nat.add_zero, hx] at hy
      cases hy
      rfl
  | succ n ih =>
      intro r x y hr hx hy
      have hlen := (List.getElem?_eq_some_iff.mp hy).1
      obtain ⟨z, hz⟩ : ∃ z, lbas[q * epc + (r + 1)]? = some z :=
        ⟨_, List.getElem?_eq_getElem (by omega)⟩
      have hxz := sorted_lt h.sorted (by omega) hx hz
      have hzlt := h.max z (List.mem_of_getElem? hz)
      have hread := (hc.chunks q).delta r x z (by omega) hx hz
      have h24 : 8 * w ≠ 24 := by omega
      have hmem : 8 * w ∈ [8, 16, 32] := by
        rcases h.width_cases with rfl | rfl | rfl | rfl
        · decide
        · decide
        · apply (hw rfl).elim
        · decide
      have hdelta : shiftedDelta junk c (q * 64 + 4 + r * w) = .ok (z - x, w) := by
        simp only [shiftedDelta, hc.bitNum, if_neg h24, if_pos hmem,
          Nat.mul_div_cancel_left w (show 0 < 8 by decide), hread, orThrow, bind, Except.bind, pure,
          Except.pure]
      have hsum : uint32 ((x : ℤ) + (z - x : ℕ)) = z := by
        have := uint32_of_lt (z := (x : ℤ) + (z - x : ℕ)) (by omega) (by omega)
        omega
      rw [addDeltas, hdelta]
      simp only [bind, Except.bind, hsum]
      rw [Nat.add_assoc (q * 64 + 4), ← Nat.succ_mul]
      apply ih (by omega) hz
      rw [← hy]
      congr 1
      omega

/-- The lba of an offset is decoded, unless the differences have three bytes. -/
theorem getCompLbaFromOffset_spec (h : Layout page lbas w epc) (hc : Encoded w epc lbas c)
    (hw : w ≠ 3) {i lba : ℕ} (hi : lbas[i]? = some lba) :
  getCompLbaFromOffset junk c i = .ok lba
  := by
  obtain ⟨-, htwo⟩ := h.room
  have hdiv := Nat.div_add_mod' i epc
  have hmod := Nat.mod_lt i (show 0 < epc by omega)
  have hlen := (List.getElem?_eq_some_iff.mp hi).1
  obtain ⟨x, hx⟩ : ∃ x, lbas[i / epc * epc]? = some x := ⟨_, List.getElem?_eq_getElem (by omega)⟩
  have hhead := (hc.chunks (i / epc)).head (by omega) x hx
  have hadd : addDeltas junk c (i % epc) (i / epc * 64 + 4 + 0 * w) x = .ok lba :=
    addDeltas_spec h hc hw (i % epc) (by omega) hx (by rw [Nat.zero_add, hdiv]; exact hi)
  rw [Nat.zero_mul, Nat.add_zero] at hadd
  unfold getCompLbaFromOffset
  simp only [hc.entryPerChunk h, chunk_ptr, hhead, hadd, orThrow, bind, Except.bind]

/-- Of a difference of three bytes the least one is lost. -/
theorem getCompLbaFromOffset_24 (h : Layout page lbas 3 epc) (hc : Encoded 3 epc lbas c)
    {x y : ℕ} (hx : lbas[0]? = some x) (hy : lbas[1]? = some y) :
  getCompLbaFromOffset (fun _ => 0) c 1 ≠ .ok y
  := by
  obtain ⟨-, htwo⟩ := h.room
  have hhead := (hc.chunks 0).head (by omega) x (by rwa [Nat.zero_mul])
  have hread := (hc.chunks 0).delta 0 x y (by omega) (by rwa [Nat.zero_mul])
    (by rwa [Nat.zero_mul])
  have hxy := sorted_lt h.sorted (by omega) hx hy
  have hylt := h.max y (List.mem_of_getElem? hy)
  rw [Nat.zero_mul] at hhead hread
  have h24 : c.bitNum = 24 := hc.bitNum
  have hone : 1 / epc = 0 := Nat.div_eq_of_lt htwo
  have hmod : 1 % epc = 1 := Nat.mod_eq_of_lt htwo
  have hsum : uint32 ((x : ℤ) + ((y - x + 0 * 2 ^ 24) / 2 ^ 8 : ℕ)) < y := by
    have := uint32_of_lt (z := (x : ℤ) + ((y - x + 0 * 2 ^ 24) / 2 ^ 8 : ℕ)) (by omega) (by omega)
    omega
  unfold getCompLbaFromOffset
  simp only [hc.entryPerChunk h, hone, hmod, Nat.zero_mul, hhead, orThrow, bind, Except.bind,
    addDeltas, shiftedDelta, if_pos h24, hread, Nat.add_zero] at hsum ⊢
  exact fun heq => hsum.ne (Except.ok.inj heq)

/-- The search for the chunk of an lba. -/
theorem findChunk_spec (h : Layout page lbas w epc) (hc : Encoded w epc lbas c) {j lba : ℕ}
    (hj : lbas[j]? = some lba) {last : ℕ} (hlast : last + 1 = ceilDiv lbas.length epc)
    (fuel : ℕ) :
  ∀ {s e mid : ℕ}, e + 1 < s + fuel → s ≤ j / epc → j / epc ≤ e → e ≤ last →
    findChunk c lba last fuel s e mid = .ok (j / epc)
  := by
  obtain ⟨-, htwo⟩ := h.room
  have hpos : 0 < epc := by omega
  have hdiv := Nat.div_add_mod' j epc
  have hmod := Nat.mod_lt j hpos
  have hlen := h.length
  have hjlen := (List.getElem?_eq_some_iff.mp hj).1
  have hheads : ∀ {q : ℕ}, q ≤ last → ∃ x, lbas[q * epc]? = some x ∧
      Bytes.read c.data (q * 64) 4 = some x ∧ (x ≤ lba ↔ q ≤ j / epc) := by
    intro q hq
    have hlt : q * epc < lbas.length := (lt_ceilDiv hpos).mp (by omega)
    obtain ⟨x, hx⟩ : ∃ x, lbas[q * epc]? = some x := ⟨_, List.getElem?_eq_getElem hlt⟩
    use x, hx, (hc.chunks q).head hpos x hx
    rw [Nat.le_div_iff_mul_le hpos]
    rcases Nat.lt_trichotomy (q * epc) j with hlt | heq | hgt
    · have := sorted_lt h.sorted hlt hx hj
      omega
    · rw [heq, hj] at hx
      cases hx
      omega
    · have := sorted_lt h.sorted hgt hj hx
      omega
  have hsmall : last < 2 ^ 31 := by
    have : last * epc < lbas.length := (lt_ceilDiv hpos).mp (by omega)
    have := Nat.le_mul_of_pos_right last hpos
    omega
  induction fuel with
  | zero =>
      intro s e mid hf hs he
      omega
  | succ fuel ih =>
      intro s e mid hf hs he hle
      have hmid := mid_eq (s := s) (e := e) (by omega)
      obtain ⟨x, -, hread, hx⟩ := hheads (q := (s + e) / 2) (by omega)
      rw [findChunk, if_pos (by omega)]
      simp only [hmid, chunk_ptr, hread, orThrow, bind, Except.bind]
      have hpred := uint32_of_lt (z := (((s + e) / 2 : ℕ) : ℤ) - 1)
      have hsucc := uint32_of_lt (z := (((s + e) / 2 : ℕ) : ℤ) + 1) (by omega) (by omega)
      split
      · rename_i heq
        split
        · rename_i hxl
          have : (s + e) / 2 = j / epc := by
            have := hx.mp hxl
            omega
          rw [this]
          rfl
        · rename_i hxl
          have hgt := mt hx.mpr hxl
          have := hpred (by omega) (by omega)
          apply ih (by omega) hs (by omega) (by omega)
      · rename_i hne
        obtain ⟨y, -, hread', hy⟩ := hheads (q := (s + e) / 2 + 1) (by omega)
        simp only [hread']
        split
        · rename_i hxy
          have : (s + e) / 2 = j / epc := by
            have h₁ := hx.mp hxy.1
            have h₂ := mt hy.mpr (not_le.mpr hxy.2)
            omega
          rw [this]
          rfl
        · rename_i hxy
          split
          · rename_i hlt
            have hgt := mt hx.mpr (not_le.mpr hlt)
            have := hpred (by omega) (by omega)
            apply ih (by omega) hs (by omega) (by omega)
          · rename_i hge
            have h₁ := hx.mp (not_lt.mp hge)
            have h₂ : (s + e) / 2 + 1 ≤ j / epc := by
              apply hy.mp
              by_contra hlt
              apply hxy ⟨not_lt.mp hge, not_le.mp hlt⟩
            apply ih (by omega) (by omega) he hle

/-- The walk along the chunk of an lba. -/
theorem findInChunk_spec (h : Layout page lbas w epc) (hc : Encoded w epc lbas c) {q k lba : ℕ}
    (hk : lbas[q * epc + k]? = some lba) (hkepc : k < epc) (idx n : ℕ) :
  ∀ {r x : ℕ}, r < k → k - r ≤ n → lbas[q * epc + r]? = some x →
    findInChunk c lba epc idx n (r + 1) (q * 64 + 4 + r * w) x = .ok (idx + k)
  := by
  induction n with
  | zero =>
      intro r x hr hn
      omega
  | succ n ih =>
      intro r x hr hn hx
      have hlen := (List.getElem?_eq_some_iff.mp hk).1
      obtain ⟨z, hz⟩ : ∃ z, lbas[q * epc + (r + 1)]? = some z :=
        ⟨_, List.getElem?_eq_getElem (by omega)⟩
      have hxz := sorted_lt h.sorted (by omega) hx hz
      have hzlt := h.max z (List.mem_of_getElem? hz)
      have hread := (hc.chunks q).delta r x z (by omega) hx hz
      have hdelta : plainDelta c (q * 64 + 4 + r * w) = .ok (z - x) := by
        simp only [plainDelta, hc.bitNum, if_pos h.width,
          Nat.mul_div_cancel_left w (show 0 < 8 by decide), hread, orThrow]
      have hsum : uint32 ((x : ℤ) + (z - x : ℕ)) = z := by
        have := uint32_of_lt (z := (x : ℤ) + (z - x : ℕ)) (by omega) (by omega)
        omega
      rw [findInChunk, hdelta]
      simp only [bind, Except.bind, hsum]
      rcases Nat.lt_or_eq_of_le (Nat.succ_le_of_lt hr) with hlt | heq
      · have hne := (sorted_lt h.sorted (by omega) hz hk).ne
        rw [if_neg hne, if_neg (by omega), hc.bitNum,
          Nat.mul_div_cancel_left w (show 0 < 8 by decide), Nat.add_assoc (q * 64 + 4),
          ← Nat.succ_mul]
        apply ih hlt (by omega) hz
      · rw [← heq, hz] at hk
        cases hk
        rw [if_pos rfl, ← heq]
        rfl

/-- The offset of an lba is found. -/
theorem findOffset_spec (h : Layout page lbas w epc) (hc : Encoded w epc lbas c)
    (htwo : 2 ≤ lbas.length) {j lba : ℕ} (hj : lbas[j]? = some lba) :
  findOffset lba c = .ok j
  := by
  obtain ⟨-, hepc⟩ := h.room
  have hpos : 0 < epc := by omega
  have hdiv := Nat.div_add_mod' j epc
  have hmod := Nat.mod_lt j hpos
  have hjlen := (List.getElem?_eq_some_iff.mp hj).1
  have hlen := h.length
  obtain ⟨last, hlast⟩ : ∃ last, last + 1 = ceilDiv lbas.length epc := by
    have := (lt_ceilDiv (k := 0) (n := lbas.length) hpos).mpr (by omega)
    use ceilDiv lbas.length epc - 1, by omega
  have hsmall : last * epc < lbas.length := (lt_ceilDiv hpos).mp (by omega)
  have hlastle := Nat.le_mul_of_pos_right last hpos
  have hentry : uint32 ((c.dataSize : ℤ) / chunkSize - 1) = last := by
    rw [hc.dataSize, ← hlast, Nat.cast_mul, Int.mul_ediv_cancel _ (by decide)]
    have := uint32_of_lt (z := ((last + 1 : ℕ) : ℤ) - 1) (by omega) (by omega)
    omega
  have hjlast : j / epc ≤ last := by
    have : j / epc < ceilDiv lbas.length epc := by
      rw [lt_ceilDiv hpos]
      omega
    omega
  obtain ⟨x, hx⟩ : ∃ x, lbas[j / epc * epc]? = some x :=
    ⟨_, List.getElem?_eq_getElem (by omega)⟩
  have hhead := (hc.chunks (j / epc)).head hpos x hx
  have hchunk : findChunk c lba last (last + 2) 0 last 0 = .ok (j / epc) :=
    findChunk_spec h hc hj hlast (last + 2) (by omega) (Nat.zero_le _) hjlast (Nat.le_refl _)
  have hone : c.maxEntryNum ≠ 1 := by
    rw [hc.maxEntryNum]
    omega
  unfold findOffset
  simp only [hentry, hchunk, chunk_ptr, hhead, hone, hc.entryPerChunk h, orThrow, bind,
    Except.bind, ne_eq, not_false_eq_true, if_true]
  split
  · rename_i heq
    subst heq
    rcases Nat.eq_zero_or_pos (j % epc) with h0 | hlt
    · rw [Nat.mul_comm]
      exact congrArg Except.ok (by omega)
    · exact absurd (sorted_lt h.sorted (by omega) hx hj) (Nat.lt_irrefl _)
  · rename_i hne
    have hk : lbas[j / epc * epc + j % epc]? = some lba := by rwa [hdiv]
    have hr : 0 < j % epc := by
      by_contra h0
      rw [show j / epc * epc = j by omega, hj] at hx
      apply hne (Option.some.inj hx).symm
    have hwalk := findInChunk_spec h hc hk hmod (epc * (j / epc)) epc hr (by omega) hx
    rw [Nat.zero_mul, Nat.add_zero] at hwalk
    rw [hwalk, Nat.mul_comm, hdiv]

end Decode

/-! ### Pages -/

/-- Both decoders are right for all entries. -/
def Decodes (junk : ℕ → ℕ) (c : CompressedForm) (lbas : List ℕ) : Prop :=
  ∀ i lba, lbas[i]? = some lba →
    getCompLbaFromOffset junk c i = .ok lba ∧ findOffset lba c = .ok i

/-- The largest difference of two neighbours does not have three bytes. -/
def NotThreeBytes (lbas : List ℕ) : Prop :=
  (∀ (i x y : ℕ), lbas[i]? = some x → lbas[i + 1]? = some y → y - x < 2 ^ 16) ∨
    ∃ (i x y : ℕ), lbas[i]? = some x ∧ lbas[i + 1]? = some y ∧ 2 ^ 24 ≤ y - x

/-- The layout of a page with more than one entry. -/
theorem exists_layout {page : List SummaryPair} {lbas : List ℕ} (hpage : PageOf page lbas)
    (hsorted : lbas.Pairwise (· < ·)) (hmax : ∀ lba ∈ lbas, lba < uint32Max)
    (htwo : 2 ≤ lbas.length) :
  ∃ w epc c, Layout page lbas w epc ∧ compressionData page = .ok c ∧ Encoded w epc lbas c ∧
    (w ≠ 3 ↔ NotThreeBytes lbas)
  := by
  have hscan := scanPage_scanned hpage hsorted hmax
  have hmax32 : ∀ lba ∈ lbas, lba < 2 ^ 32 := by
    intro lba hlba
    have := hmax lba hlba
    have : uint32Max < 2 ^ 32 := by decide
    omega
  obtain ⟨x₀, hx₀⟩ : ∃ x, lbas[0]? = some x := ⟨_, List.getElem?_eq_getElem (by omega)⟩
  obtain ⟨y₀, hy₀⟩ : ∃ y, lbas[0 + 1]? = some y := ⟨_, List.getElem?_eq_getElem (by omega)⟩
  have hxy₀ := sorted_lt hsorted (by omega) hx₀ hy₀
  have hupper₀ := hscan.upper 0 x₀ y₀ hx₀ hy₀
  obtain ⟨i, x, y, hx, hy, heq⟩ := hscan.attained.resolve_left (by omega)
  have hy32 := hmax32 y (List.mem_of_getElem? hy)
  obtain ⟨w, hw, hw1, hw4, hlt, hge⟩ := ceilDiv_countBits (d := (scanPage page).maxDelta) (by omega)
    (by omega)
  have hpow : (256 : ℕ) ^ w = 2 ^ (w * 8) := by
    rw [Nat.mul_comm, Nat.pow_mul]
  have hlayout : Layout page lbas w ((chunkSize - 32) / (8 * w) + 1) := by
    refine ⟨hpage, hsorted, hmax32, ?_, ?_, rfl⟩
    · simp only [List.mem_cons, List.not_mem_nil, or_false]
      omega
    · intro i x y hx hy
      rw [hpow]
      apply (hscan.upper i x y hx hy).trans_lt hlt
  obtain ⟨c, hc, henc⟩ := compressionData_encoded hlayout htwo hscan hw
  refine ⟨w, _, c, hlayout, hc, henc, ?_⟩
  constructor
  · intro hne
    rcases Nat.lt_or_ge w 3 with hlt3 | hge3
    · left
      intro i x y hx hy
      have hle := hscan.upper i x y hx hy
      have : 2 ^ (w * 8) ≤ 2 ^ 16 := Nat.pow_le_pow_right (by decide) (by omega)
      omega
    · right
      obtain rfl : w = 4 := by omega
      use i, x, y, hx, hy, by omega
  · rintro hnot rfl
    rcases hnot with hsmall | ⟨i', x', y', hx', hy', hbig⟩
    · have := hsmall i x y hx hy
      omega
    · have := hscan.upper i' x' y' hx' hy'
      omega

/-- Both decoders are right for all entries of a compressed page exactly when it has more than
one entry and the largest difference does not have three bytes. -/
theorem decodes_iff {page : List SummaryPair} {lbas : List ℕ} (hpage : PageOf page lbas)
    (hne : lbas ≠ []) (hsorted : lbas.Pairwise (· < ·)) (hmax : ∀ lba ∈ lbas, lba < uint32Max) :
  ∃ c, compressionData page = .ok c ∧
    ((∀ junk : ℕ → ℕ, (∀ ptr, junk ptr < 256) → Decodes junk c lbas)
      ↔ 2 ≤ lbas.length ∧ NotThreeBytes lbas)
  := by
  have hpos := List.length_pos_of_ne_nil hne
  by_cases htwo : 2 ≤ lbas.length
  · obtain ⟨w, epc, c, hlayout, hc, henc, hw⟩ := exists_layout hpage hsorted hmax htwo
    use c, hc
    constructor
    · intro hall
      refine ⟨htwo, hw.mp ?_⟩
      rintro rfl
      obtain ⟨x, hx⟩ : ∃ x, lbas[0]? = some x := ⟨_, List.getElem?_eq_getElem hpos⟩
      obtain ⟨y, hy⟩ : ∃ y, lbas[1]? = some y := ⟨_, List.getElem?_eq_getElem htwo⟩
      apply getCompLbaFromOffset_24 hlayout henc hx hy
        (hall (fun _ => 0) (fun _ => by decide) 1 y hy).1
    · rintro ⟨-, hnot⟩ junk - i lba hi
      exact ⟨getCompLbaFromOffset_spec hlayout henc (hw.mpr hnot) hi,
        findOffset_spec hlayout henc htwo hi⟩
  · obtain ⟨lba, rfl⟩ := List.length_eq_one_iff.mp (show lbas.length = 1 by omega)
    obtain ⟨c, hc, hbit⟩ := compressionData_single hpage (scanPage_scanned hpage hsorted hmax)
    use c, hc
    constructor
    · intro hall
      have hget := (hall (fun _ => 0) (fun _ => by decide) 0 lba rfl).1
      unfold getCompLbaFromOffset entryPerChunk at hget
      rw [hbit] at hget
      cases hget
    · rintro ⟨hlen, -⟩
      apply (htwo hlen).elim

theorem pageOf_replicate (lbas : List ℕ) (hlen : lbas.length ≤ lpagesize / 8)
    (hmax : ∀ lba ∈ lbas, lba < uint32Max) :
  PageOf (lbas.map (SummaryPair.mk · 0) ++
    List.replicate (lpagesize / 8 - lbas.length) ⟨uint32Max, uint32Max⟩) lbas
  := by
  constructor
  · rw [List.length_append, List.length_map, List.length_replicate]
    omega
  · rw [List.takeWhile_append_of_pos, List.takeWhile_replicate_eq_filter]
    · simp [Function.comp_def]
    · intro p hp
      obtain ⟨lba, hlba, rfl⟩ := List.mem_map.mp hp
      have := hmax lba hlba
      simp only [ne_eq, decide_eq_true_eq]
      omega

theorem decodes_iff_twoEntries :
  ∃ c, compressionData ([5, 9].map (SummaryPair.mk · 0) ++
      List.replicate 510 ⟨uint32Max, uint32Max⟩) = .ok c ∧
    ((∀ junk : ℕ → ℕ, (∀ ptr, junk ptr < 256) → Decodes junk c [5, 9])
      ↔ 2 ≤ [5, 9].length ∧ NotThreeBytes [5, 9])
  :=
  decodes_iff (pageOf_replicate [5, 9] (by decide) (by decide)) (by decide) (by decide)
    (by decide)

/-- A page with one entry has a width of zero, by which the decoder divides; and of a difference
of three bytes the decoder adds the upper two. -/
theorem not_decodes_oneEntry_threeBytes :
  (∃ c, compressionData ([5].map (SummaryPair.mk · 0) ++
      List.replicate 511 ⟨uint32Max, uint32Max⟩) = .ok c ∧
    getCompLbaFromOffset (fun _ => 0) c 0 = .error .divByZero ∧
    ¬ Decodes (fun _ => 0) c [5]) ∧
  (∃ c, compressionData ([0, 70000].map (SummaryPair.mk · 0) ++
      List.replicate 510 ⟨uint32Max, uint32Max⟩) = .ok c ∧
    getCompLbaFromOffset (fun _ => 0) c 1 = .ok 273 ∧
    ¬ Decodes (fun _ => 0) c [0, 70000])
  := by
  have hone : getCompLbaFromOffset (fun _ => 0)
      ⟨512, 1, [5, 0, 0, 0] ++ List.replicate 60 255, 0⟩ 0 = .error .divByZero := by
    decide
  have htwo : getCompLbaFromOffset (fun _ => 0)
      ⟨512, 2, [0, 0, 0, 0, 112, 17, 1] ++ List.replicate 57 255, 24⟩ 1 = .ok 273 := by
    decide
  constructor
  · refine ⟨_, by decide, hone, ?_⟩
    intro h
    have := (h 0 5 rfl).1
    rw [hone] at this
    cases this
  · refine ⟨_, by decide, htwo, ?_⟩
    intro h
    have := (h 1 70000 rfl).1
    rw [htwo] at this
    cases this

end AppL
