import Mathlib.Order.Interval.Finset.Nat
import AppL.Lsm.Run

/-!
# The valid pieces of the device

The pieces that are valid are kept as a list, without repetition, of the pieces that somebody
holds.  A successful validation adds a piece that nobody held, an invalidation of a valid
piece takes it away, and both keep the counters of the device balanced.
-/

namespace AppL

open Transition

namespace Dev

variable {δ : Type} {g : Geometry} {dev dev' : Dev δ}

/-- Whether a piece is valid. -/
abbrev bit (dev : Dev δ) (q : ℕ) : Bool := dev.bm.bitset q

/-- Only the places where blocks and pages are taken from have changed. -/
structure SameFlash (dev dev' : Dev δ) : Prop where
  bm : dev'.bm = dev.bm
  data : dev'.data = dev.data
  validated : dev'.validated = dev.validated
  invalidated : dev'.invalidated = dev.invalidated

theorem pickEmptyPba_dvd (dev : Dev δ) :
  g.ppb ∣ (dev.pickEmptyPba g).1
  := by
  simp only [pickEmptyPba, Geometry.pps]
  apply Nat.dvd_add
  · rw [← Nat.mul_assoc, Nat.mul_right_comm]
    apply Nat.dvd_mul_left
  · apply Nat.dvd_mul_left

theorem pickEmptyPba_sameFlash (dev : Dev δ) :
  SameFlash dev (dev.pickEmptyPba g).2
  := ⟨rfl, rfl, rfl, rfl⟩

theorem getMapPpa_sameFlash (dev : Dev δ) :
  SameFlash dev (dev.getMapPpa g).2
  := by
  unfold getMapPpa
  split
  · exact ⟨rfl, rfl, rfl, rfl⟩
  · exact ⟨rfl, rfl, rfl, rfl⟩

/-- The valid pieces are those of the list, each in it once. -/
structure Holds (dev : Dev δ) (held : List ℕ) : Prop where
  nodup : held.Nodup
  mem : ∀ q, dev.bit q = true ↔ q ∈ held

theorem Holds.perm {held held' : List ℕ} (h : dev.Holds held) (hp : held.Perm held') :
  dev.Holds held'
  where
    nodup := hp.nodup_iff.mp h.nodup
    mem q := (h.mem q).trans hp.mem_iff

/-- The pieces of a segment. -/
def segPieces (g : Geometry) (s : ℕ) : Finset ℕ :=
  Finset.Ico (s * (g.pps * l2pgap)) ((s + 1) * (g.pps * l2pgap))

theorem mem_segPieces {q s : ℕ} :
  q ∈ segPieces g s ↔ g.sid q = s
  := by
  have hpos : 0 < g.pps * l2pgap := Nat.mul_pos g.pps_pos (by decide)
  rw [segPieces, Finset.mem_Ico, Geometry.sid_eq, Nat.div_div_eq_div_mul,
    Nat.mul_comm l2pgap, Nat.div_eq_iff hpos, Nat.succ_mul]
  omega

/-- The number of valid pieces of a segment. -/
def validNum (g : Geometry) (dev : Dev δ) (s : ℕ) : ℕ :=
  ((segPieces g s).filter fun q => dev.bit q = true).card

/-- Every validation of a piece has been undone by one invalidation unless the piece is
still valid, and the counters of every segment differ by its valid pieces. -/
structure Balanced (g : Geometry) (dev : Dev δ) : Prop where
  piece : ∀ q, dev.validated q = dev.invalidated q + (if dev.bit q = true then 1 else 0)
  segment : ∀ s, (dev.bm.segment s).validatePieceNum
    = (dev.bm.segment s).invalidatePieceNum + dev.validNum g s

theorem Balanced.sameFlash (h : dev.Balanced g) (hs : SameFlash dev dev') :
  dev'.Balanced g
  where
    piece q := by
      rw [hs.validated, hs.invalidated, bit, hs.bm]
      apply h.piece
    segment s := by
      rw [hs.bm, validNum]
      simp only [bit, hs.bm]
      apply h.segment

theorem validNum_set {q : ℕ} (hq : dev.bit q = false)
    (h : ∀ x, dev'.bit x = if x = q then true else dev.bit x) (s : ℕ) :
  dev'.validNum g s = dev.validNum g s + (if s = g.sid q then 1 else 0)
  := by
  by_cases hs : s = g.sid q
  · have hins : (segPieces g s).filter (fun x => dev'.bit x = true)
        = insert q ((segPieces g s).filter fun x => dev.bit x = true) := by
      ext x
      rw [Finset.mem_insert, Finset.mem_filter, Finset.mem_filter, h]
      by_cases hx : x = q
      · simp [hx, mem_segPieces, hs]
      · simp [hx]
    rw [validNum, hins, Finset.card_insert_of_notMem (by simp [hq]), if_pos hs, validNum]
  · have hsame : (segPieces g s).filter (fun x => dev'.bit x = true)
        = (segPieces g s).filter fun x => dev.bit x = true := by
      apply Finset.filter_congr
      intro x hx
      have hne : x ≠ q := by
        rintro rfl
        apply hs (mem_segPieces.mp hx).symm
      rw [h, if_neg hne]
    rw [validNum, hsame, if_neg hs, Nat.add_zero, validNum]

theorem validNum_unset {q : ℕ} (hq : dev.bit q = true)
    (h : ∀ x, dev'.bit x = if x = q then false else dev.bit x) (s : ℕ) :
  dev.validNum g s = dev'.validNum g s + (if s = g.sid q then 1 else 0)
  := by
  apply validNum_set
  · simp [h]
  · intro x
    rw [h]
    by_cases hx : x = q
    · simp [hx, hq]
    · simp [hx]

/-- Setting a clear bit keeps the balance when the counters of validations go up with it. -/
theorem Balanced.set {q : ℕ} (hbal : dev.Balanced g) (hq : dev.bit q = false)
    (hbit : ∀ x, dev'.bit x = if x = q then true else dev.bit x)
    (hval : ∀ x, dev'.validated x = dev.validated x + if x = q then 1 else 0)
    (hinv : dev'.invalidated = dev.invalidated)
    (hsval : ∀ s, (dev'.bm.segment s).validatePieceNum
      = (dev.bm.segment s).validatePieceNum + if s = g.sid q then 1 else 0)
    (hsinv : ∀ s, (dev'.bm.segment s).invalidatePieceNum
      = (dev.bm.segment s).invalidatePieceNum) :
  dev'.Balanced g
  where
    piece x := by
      rw [hval, hinv, hbit, hbal.piece]
      by_cases hx : x = q
      · simp [hx, hq]
      · simp [hx]
    segment s := by
      rw [hsval, hsinv, validNum_set hq hbit, hbal.segment, Nat.add_assoc]

/-- Clearing a set bit keeps the balance when the counters of invalidations go up with it. -/
theorem Balanced.unset {q : ℕ} (hbal : dev.Balanced g) (hq : dev.bit q = true)
    (hbit : ∀ x, dev'.bit x = if x = q then false else dev.bit x)
    (hval : dev'.validated = dev.validated)
    (hinv : ∀ x, dev'.invalidated x = dev.invalidated x + if x = q then 1 else 0)
    (hsval : ∀ s, (dev'.bm.segment s).validatePieceNum
      = (dev.bm.segment s).validatePieceNum)
    (hsinv : ∀ s, (dev'.bm.segment s).invalidatePieceNum
      = (dev.bm.segment s).invalidatePieceNum + if s = g.sid q then 1 else 0) :
  dev'.Balanced g
  where
    piece x := by
      rw [hval, hinv, hbit, hbal.piece]
      by_cases hx : x = q
      · simp [hx, hq]
      · simp [hx]
    segment s := by
      rw [hsval, hsinv, hbal.segment, validNum_unset hq hbit, Nat.add_assoc,
        Nat.add_comm (if s = g.sid q then 1 else 0)]

/-- `q` was not valid and has been validated. -/
structure Validates (g : Geometry) (dev dev' : Dev δ) (q : ℕ) : Prop where
  clear : dev.bit q = false
  bit : ∀ x, dev'.bit x = if x = q then true else dev.bit x
  data : dev'.data = dev.data
  oob : dev'.bm.oob = dev.bm.oob
  balanced : dev.Balanced g → dev'.Balanced g

/-- `q` has been invalidated; nothing is said about its counters when it was not valid. -/
structure Invalidates (g : Geometry) (dev dev' : Dev δ) (q : ℕ) : Prop where
  bit : ∀ x, dev'.bit x = if x = q then false else dev.bit x
  data : dev'.data = dev.data
  oob : dev'.bm.oob = dev.bm.oob
  balanced : dev.bit q = true → dev.Balanced g → dev'.Balanced g

theorem SameFlash.validates {dev₁ : Dev δ} {q : ℕ} (hs : SameFlash dev dev₁)
    (h : Validates g dev₁ dev' q) :
  Validates g dev dev' q
  where
    clear := by
      rw [bit, ← hs.bm]
      apply h.clear
    bit x := by
      rw [h.bit, Dev.bit, Dev.bit, hs.bm]
    data := h.data.trans hs.data
    oob := by rw [h.oob, hs.bm]
    balanced hb := h.balanced (hb.sameFlash hs)

theorem validatePiecePpa_ok {e : Abort} {q : ℕ}
    (h : dev.validatePiecePpa g e q = .ok dev') :
  Validates g dev dev' q
  := by
  unfold validatePiecePpa at h
  split at h
  · rename_i hb
    cases h
    have hclear : dev.bit q = false := by simpa [BlockManager.bitSet] using hb
    refine ⟨hclear, ?_, rfl, rfl, ?_⟩
    · intro x
      apply Function.update_apply
    · intro hbal
      apply hbal.set hclear
      · intro x
        apply Function.update_apply
      · intro x
        simp only [Function.update_apply]
        split
        · simp_all
        · rfl
      · rfl
      · intro s
        simp only [BlockManager.bitSet, Function.update_apply]
        split
        · simp_all
        · rfl
      · intro s
        simp only [BlockManager.bitSet, Function.update_apply]
        split
        · simp_all
        · rfl
  · cases h

theorem invalidatePiecePpa_ok {e : Abort} {q : ℕ} {force : Bool}
    (h : dev.invalidatePiecePpa g e q force = .ok dev') :
  Invalidates g dev dev' q ∧ (force = true → dev.bit q = true)
  := by
  unfold invalidatePiecePpa at h
  split at h
  · cases h
  · rename_i hb
    cases h
    constructor
    · refine ⟨?_, rfl, rfl, ?_⟩
      · intro x
        apply Function.update_apply
      · intro hset hbal
        apply hbal.unset hset
        · intro x
          apply Function.update_apply
        · rfl
        · intro x
          simp only [Function.update_apply]
          split
          · simp_all
          · rfl
        · intro s
          simp only [BlockManager.bitUnset, Function.update_apply]
          split
          · simp_all
          · rfl
        · intro s
          simp only [BlockManager.bitUnset, Function.update_apply]
          split
          · simp_all
          · rfl
    · intro hf
      simpa [hf, BlockManager.bitUnset] using hb

/-! ### Held pieces -/

/-- A validated piece is held in addition. -/
theorem Holds.validates {held : List ℕ} {q : ℕ} (h : dev.Holds held)
    (hv : Validates g dev dev' q) :
  q ∉ held ∧ dev'.Holds (q :: held)
  := by
  have hq : q ∉ held := by
    rw [← h.mem, hv.clear]
    simp
  use hq, List.nodup_cons.mpr ⟨hq, h.nodup⟩
  intro x
  rw [hv.bit, List.mem_cons, ← h.mem]
  by_cases hx : x = q
  · simp [hx]
  · simp [hx]

/-- A held piece that is invalidated is not held any more. -/
theorem Holds.invalidates {held : List ℕ} {q : ℕ} (h : dev.Holds (q :: held))
    (hi : Invalidates g dev dev' q) :
  dev'.Holds held
  := by
  obtain ⟨hq, hnd⟩ := List.nodup_cons.mp h.nodup
  use hnd
  intro x
  have hm := h.mem x
  rw [List.mem_cons] at hm
  rw [hi.bit]
  by_cases hx : x = q
  · simp [hx, hq]
  · simpa [hx] using hm

end Dev

end AppL
