import Mathlib.Data.List.Induction
import AppL.Lsm.Custody

/-!
# Moving a summary segment into the active one

A garbage collection for data may take a summary segment, whose valid pieces it moves into the
active summary segment if its pages are enough for them.  How many pages are needed is rounded
down.
-/

namespace AppL

open Transition

namespace SegmentPool

variable {g : Geometry} {cnt : Segment → ℤ} {p p' : SegmentPool}

/-- The pages of all segments are assigned one after another. -/
def Paged (g : Geometry) (p : SegmentPool) : Prop := ∀ s, ∃ u, p.bm.Filled g s u

theorem step_paged {op : SegmentOp} (hp : p.Paged g) (h : step g cnt p op = .ok p') :
  p'.Paged g
  := by
  intro s
  obtain ⟨u, hu⟩ := hp s
  cases op with
  | getSegment use =>
      cases use with
      | reserve =>
          simp only [step, bind_eq_ok, BlockManager.getSegReserve] at h
          obtain ⟨⟨t, bm⟩, hget, hret⟩ := h
          split at hget
          · cases hget
          · cases hget
            cases hret
            exact ⟨u, hu.congr rfl rfl fun _ _ => rfl⟩
      | active =>
          simp only [step, bind_eq_ok, BlockManager.getSegActive] at h
          obtain ⟨⟨t, bm⟩, hget, hret⟩ := h
          split at hget
          · cases hget
          · cases hget
            cases hret
            exact ⟨u, hu.congr rfl rfl fun _ _ => rfl⟩
  | changeReserveToActive t =>
      simp only [step, bind_eq_ok, require_eq_ok] at h
      obtain ⟨_, -, hret⟩ := h
      cases hret
      exact ⟨u, hu.congr rfl rfl fun _ _ => rfl⟩
  | getGcTarget t =>
      simp only [step, bind_eq_ok, BlockManager.getGcTarget, require_eq_ok] at h
      obtain ⟨bm, ⟨_, -, _, -, hret⟩, hret'⟩ := h
      cases hret
      cases hret'
      refine ⟨u, hu.congr rfl rfl ?_⟩
      intro j _
      dsimp only
      split
      · apply BlockManager.fullInvalidCheck_nowAssignedPptr _
      · rfl
  | insertGcTarget t =>
      simp only [step, bind_eq_ok, require_eq_ok] at h
      obtain ⟨_, -, hret⟩ := h
      cases hret
      exact ⟨u, hu.congr rfl rfl fun _ _ => rfl⟩
  | trimSegment t =>
      simp only [step, bind_eq_ok, require_eq_ok] at h
      obtain ⟨_, -, hret⟩ := h
      cases hret
      by_cases hst : s = t
      · subst hst
        exact ⟨0, BlockManager.filled_trimSegment s⟩
      · exact ⟨u, hu.trimSegment_of_ne hst⟩
  | bitSet q =>
      cases h
      exact ⟨u, hu.bitSet q⟩
  | bitUnset q =>
      cases h
      exact ⟨u, hu.bitUnset q⟩
  | setOob lbas ppa =>
      cases h
      exact ⟨u, hu.setOob lbas ppa⟩
  | getPageAddr t =>
      simp only [step, bind_eq_ok] at h
      obtain ⟨⟨page, bm⟩, hget, hret⟩ := h
      cases hret
      obtain ⟨v, hv⟩ := hp t
      rcases hv.le.eq_or_lt with rfl | hlt
      · rw [hv.getPageAddr_full] at hget
        cases hget
        exact ⟨u, hu⟩
      · rw [hv.getPageAddr_next hlt] at hget
        cases hget
        by_cases hst : s = t
        · subst hst
          exact ⟨v + 1, hv.assignPage hlt⟩
        · exact ⟨u, hu.assignPage_of_ne hst hlt⟩

/-- In every state that is reached, the pages of all segments are assigned one after another. -/
theorem Reaches.paged (h : (create g).Reaches g cnt p) :
  p.Paged g
  := by
  obtain ⟨ops, hrun⟩ := h
  apply run_history (fun _ p => p.Paged g) _ _ hrun
  · intro _ p op p' hp hstep
    apply step_paged hp hstep
  · intro s
    exact ⟨0, BlockManager.filled_create s⟩

end SegmentPool

/-! ### Pieces -/

namespace L2pBm

variable {g : Geometry} {b b₀ : L2pBm} {s t : ℕ}

theorem mem_pieces {ppa q : ℕ} :
  q ∈ pieces ppa ↔ q / l2pgap = ppa
  := by
  simp only [pieces, List.mem_map, List.mem_range, l2pgap]
  constructor
  · rintro ⟨j, hj, rfl⟩
    omega
  · intro hq
    use q % 4, by omega, by omega

/-- The pieces of a segment, page after page. -/
def segPieces (g : Geometry) (s : ℕ) : List ℕ := (g.pages s).flatMap pieces

theorem mem_segPieces {q : ℕ} :
  q ∈ segPieces g s ↔ g.sid q = s
  := by
  simp only [segPieces, List.mem_flatMap, g.mem_pages, mem_pieces, g.sid_eq]
  constructor
  · rintro ⟨ppa, hppa, rfl⟩
    apply hppa
  · intro hs
    exact ⟨_, hs, rfl⟩

/-- The number of valid pieces of a segment. -/
def validPieceNum (g : Geometry) (b : L2pBm) (s : ℕ) : ℕ := (segPieces g s).countP b.pool.bm.bitset

/-- The pages that are left in the active summary segment. -/
def pagesLeft (g : Geometry) (b : L2pBm) : ℕ :=
  g.pps - (b.pool.bm.segment b.nowSummarySeg).usedPageNum

/-- The pieces that `gc_summary_segment` looks at. -/
def readPieces (g : Geometry) (b : L2pBm) (t : ℕ) : List ℕ :=
  ((g.pages t).filter b.readFlag).flatMap pieces

/-- In `gc_summary_segment` a call of `L2PBm_get_map_ppa` finds the active summary segment full:
the pieces `qs` have been moved, the page that is being filled has been written, and there is
another valid piece. -/
def FindsFull (g : Geometry) (b : L2pBm) (t : ℕ) : Prop :=
  ∃ qs q rest b₁ b₂, readPieces g b t = qs ++ q :: rest ∧
    qs.foldlM (moveSummaryPiece g (getMapPpa g)) (b, none) = .ok (b₁, none) ∧
    b₁.isInvalidPiece q = false ∧ b₁.invalidatePiecePpa g q = .ok b₂ ∧
    b₂.pool.bm.checkFull g b₂.nowSummarySeg = true

/-- The first page that is left in the active summary segment. -/
def nextPage (g : Geometry) (b : L2pBm) : ℕ :=
  b.nowSummarySeg * g.pps + (b.pool.bm.segment b.nowSummarySeg).usedPageNum

/-- No piece of the pages that are left in the active summary segment is valid. -/
def Unwritten (g : Geometry) (b : L2pBm) : Prop :=
  ∀ ppa ∈ g.pages b.nowSummarySeg, b.nextPage g ≤ ppa → b.readFlag ppa = false

/-- The pages without a valid piece can be left out. -/
theorem countP_readPages (pages : List ℕ) :
  ((pages.filter b.readFlag).flatMap pieces).countP b.pool.bm.bitset
    = (pages.flatMap pieces).countP b.pool.bm.bitset
  := by
  induction pages with
  | nil => rfl
  | cons ppa pages ih =>
      rw [List.filter_cons, List.flatMap_cons, List.countP_append, ← ih]
      split
      · rw [List.flatMap_cons, List.countP_append]
      · rename_i hflag
        have hzero : (pieces ppa).countP b.pool.bm.bitset = 0 := by
          rw [List.countP_eq_zero]
          intro q hq hvalid
          apply hflag
          rw [readFlag, List.any_eq_true]
          use q, hq, by rw [isInvalidPiece, hvalid]; rfl
        rw [hzero, Nat.zero_add]

theorem countP_readPieces :
  (readPieces g b t).countP b.pool.bm.bitset = b.validPieceNum g t
  := countP_readPages _

theorem sid_of_mem_readPieces {q : ℕ} (h : q ∈ readPieces g b t) :
  g.sid q = t
  := by
  rw [← mem_segPieces (g := g)]
  obtain ⟨ppa, hppa, hq⟩ := List.mem_flatMap.mp h
  apply List.mem_flatMap.mpr ⟨ppa, List.mem_of_mem_filter hppa, hq⟩

theorem nodup_readPieces :
  (readPieces g b t).Nodup
  := by
  have hpages : (g.pages t).Nodup := by
    apply List.nodup_range.map
    intro i j hij
    apply Nat.add_left_cancel hij
  rw [readPieces, List.nodup_flatMap]
  constructor
  · intro ppa _
    apply List.nodup_range.map
    intro i j hij
    apply Nat.add_left_cancel hij
  · apply (hpages.filter _).imp
    intro p p' hne q hq hq'
    apply hne ((mem_pieces.mp hq).symm.trans (mem_pieces.mp hq'))

/-- The element before which `n` elements have a property. -/
theorem exists_split_countP {α : Type} {P : α → Bool} {n : ℕ} :
  ∀ {l : List α}, n < l.countP P →
    ∃ xs x rest, l = xs ++ x :: rest ∧ xs.countP P = n ∧ P x = true
  := by
  intro l
  induction l using List.reverseRecOn with
  | nil =>
      intro h
      cases h
  | append_singleton l a ih =>
      intro h
      rcases Nat.lt_or_ge n (l.countP P) with hlt | hge
      · obtain ⟨xs, x, rest, rfl, hn, hx⟩ := ih hlt
        use xs, x, rest ++ [a], by simp, hn, hx
      · rw [List.countP_append, List.countP_singleton] at h
        split at h
        · rename_i ha
          use l, a, [], rfl, by omega, ha
        · omega

/-! ### One piece -/

/-- The page that is being filled when `k` pieces have been moved. -/
def PartPage (g : Geometry) (b₀ : L2pBm) (k : ℕ) : GcPage → Prop
  | none => k % l2pgap = 0
  | some page => k % l2pgap ≠ 0 ∧ page.1 = b₀.nextPage g + k / l2pgap ∧ page.2.length = k % l2pgap

/-- What is known when `k` valid pieces of the victim `t` have been moved and the pieces `rest` of
it have not been looked at. -/
structure Moved (g : Geometry) (b₀ : L2pBm) (t k : ℕ) (rest : ℕ → Prop) (x : L2pBm × GcPage) :
    Prop where
  now : x.1.nowSummarySeg = b₀.nowSummarySeg
  filled : x.1.pool.bm.Filled g b₀.nowSummarySeg
    ((b₀.pool.bm.segment b₀.nowSummarySeg).usedPageNum + (k + 3) / l2pgap)
  page : PartPage g b₀ k x.2
  source : ∀ q, rest q → g.sid q = t → x.1.pool.bm.bitset q = b₀.pool.bm.bitset q
  fresh : ∀ q, b₀.nextPage g * l2pgap + k ≤ q → g.sid q = b₀.nowSummarySeg →
    x.1.pool.bm.bitset q = b₀.pool.bm.bitset q

variable {k q : ℕ} {rest : ℕ → Prop} {x : L2pBm × GcPage}

theorem Moved.mono {rest' : ℕ → Prop} (h : Moved g b₀ t k rest x) (hrest : ∀ q, rest' q → rest q) :
  Moved g b₀ t k rest' x
  := ⟨h.now, h.filled, h.page, fun q hq => h.source q (hrest q hq), h.fresh⟩

/-- A page is there when fewer pieces have been moved than fit into the pages that are left. -/
theorem Moved.lt_pps (h : Moved g b₀ t k rest x) (hk : k < b₀.pagesLeft g * l2pgap)
    (hpage : k % l2pgap = 0) :
  (b₀.pool.bm.segment b₀.nowSummarySeg).usedPageNum + k / l2pgap < g.pps ∧
    (k + 3) / l2pgap = k / l2pgap
  := by
  have hle := h.filled.le
  simp only [l2pgap, pagesLeft] at *
  omega

theorem nextPage_sid {i : ℕ}
    (hi : (b₀.pool.bm.segment b₀.nowSummarySeg).usedPageNum + i / l2pgap < g.pps) :
  g.sid (b₀.nextPage g * l2pgap + i) = b₀.nowSummarySeg
  := by
  have hpps := g.pps_pos
  have hdiv : (b₀.nextPage g * l2pgap + i) / l2pgap = b₀.nextPage g + i / l2pgap := by
    simp only [l2pgap]
    omega
  rw [g.sid_eq, hdiv, nextPage, Nat.add_assoc, Nat.add_comm, Nat.add_mul_div_right _ _ hpps,
    Nat.div_eq_of_lt hi, Nat.zero_add]

/-- `L2PBm_get_map_ppa` gives the next page of the active summary segment. -/
theorem getMapPpa_filled {u : ℕ} (hf : b.pool.bm.Filled g b.nowSummarySeg u) (hu : u < g.pps) :
  ∃ b', b.getMapPpa g = .ok (b.nowSummarySeg * g.pps + u, b') ∧
    b'.nowSummarySeg = b.nowSummarySeg ∧ b'.pool.bm = b.pool.bm.assignPage g b.nowSummarySeg u
  := by
  have hready : b.readySummary g = .ok b := by
    have hfull : b.pool.bm.checkFull g b.nowSummarySeg = false := by
      rw [Bool.eq_false_iff]
      intro hfull
      have := hf.checkFull_iff.mp hfull
      omega
    rw [readySummary, if_pos hfull]
  simp only [getMapPpa, hready, getPageAddr, hf.getPageAddr_next hu, call, SegmentPool.step,
    orThrow, bind, Except.bind]
  exact ⟨_, rfl, rfl, rfl⟩

theorem invalidatePiecePpa_valid (h : b.pool.bm.bitset q = true) :
  b.invalidatePiecePpa g q
    = .ok { b with pool := { b.pool with bm := (b.pool.bm.bitUnset g q).2 } }
  := by
  simp only [invalidatePiecePpa, isInvalidPiece, h, require, Bool.not_true, if_true, bind,
    Except.bind]
  rfl

theorem validatePiecePpa_clear (h : b.pool.bm.bitset q = false) :
  b.validatePiecePpa g q
    = .ok { b with pool := { b.pool with bm := (b.pool.bm.bitSet g q).2 } }
  := by
  simp only [validatePiecePpa, isInvalidPiece, h, require, Bool.not_false, if_true, bind,
    Except.bind]
  rfl

/-- The piece is invalidated at its old place. -/
theorem Moved.unset (h : Moved g b₀ t k rest x) (hne : t ≠ b₀.nowSummarySeg) (hsid : g.sid q = t) :
  Moved g b₀ t k (fun p => rest p ∧ p ≠ q)
    ({ x.1 with pool := { x.1.pool with bm := (x.1.pool.bm.bitUnset g q).2 } }, x.2)
  where
    now := h.now
    filled := h.filled.bitUnset q
    page := h.page
    source p hp hpsid := by
      rw [BlockManager.bitUnset_bitset, Function.update_of_ne hp.2]
      apply h.source p hp.1 hpsid
    fresh p hp hpsid := by
      have hpq : p ≠ q := by
        rintro rfl
        apply hne (hsid.symm.trans hpsid)
      rw [BlockManager.bitUnset_bitset, Function.update_of_ne hpq]
      apply h.fresh p hp hpsid

/-- The page for the next piece. -/
theorem Moved.gcPage {page : GcPage} (h : Moved g b₀ t k rest (b, page))
    (hk : k < b₀.pagesLeft g * l2pgap) :
  ∃ oob b', b.gcPage (getMapPpa g) page = .ok ((b₀.nextPage g + k / l2pgap, oob), b') ∧
    oob.length = k % l2pgap ∧ b'.nowSummarySeg = b₀.nowSummarySeg ∧
    b'.pool.bm.Filled g b₀.nowSummarySeg
      ((b₀.pool.bm.segment b₀.nowSummarySeg).usedPageNum + (k + 1 + 3) / l2pgap) ∧
    b'.pool.bm.bitset = b.pool.bm.bitset
  := by
  have hpage := h.page
  have hfilled := h.filled
  have hnow : b.nowSummarySeg = b₀.nowSummarySeg := h.now
  cases page with
  | some page =>
      obtain ⟨hmod, haddr, hlen⟩ := hpage
      obtain ⟨ppa, oob⟩ := page
      dsimp only at haddr hlen
      have hup : (k + 3) / l2pgap = (k + 1 + 3) / l2pgap := by
        simp only [l2pgap] at *
        omega
      exact ⟨oob, b, by rw [← haddr]; rfl, hlen, hnow, hup ▸ hfilled, rfl⟩
  | none =>
      obtain ⟨hlt, hup⟩ := h.lt_pps hk hpage
      have hup' : (k + 1 + 3) / l2pgap = k / l2pgap + 1 := by
        simp only [l2pgap]
        omega
      dsimp only at hfilled
      rw [hup, ← hnow] at hfilled
      obtain ⟨b', hget, hnow', hbm⟩ := getMapPpa_filled hfilled (by rw [hnow]; exact hlt)
      refine ⟨[], b', ?_, Eq.symm hpage, hnow'.trans hnow, ?_, ?_⟩
      · rw [L2pBm.gcPage, hget, nextPage, hnow, Nat.add_assoc]
        rfl
      · rw [hup', ← hnow, ← Nat.add_assoc, hbm]
        rw [← hnow] at hlt
        apply hfilled.assignPage hlt
      · rw [hbm]
        rfl

/-- A piece of a page behind the next one is not valid when they are unwritten. -/
theorem Unwritten.clear {i : ℕ} (h : b₀.Unwritten g)
    (hi : (b₀.pool.bm.segment b₀.nowSummarySeg).usedPageNum + i / l2pgap < g.pps) :
  b₀.pool.bm.bitset (b₀.nextPage g * l2pgap + i) = false
  := by
  have hsid := nextPage_sid hi
  rw [g.sid_eq, ← g.mem_pages] at hsid
  have hflag := h _ hsid (by simp only [l2pgap]; omega)
  rw [readFlag, List.any_eq_false] at hflag
  have := hflag _ (mem_pieces.mpr rfl)
  simpa [isInvalidPiece] using this

/-- The page with one piece more is written when it is full. -/
theorem Moved.endGcPage {ppa : ℕ} {oob : List ℕ} (hlen : oob.length = k % l2pgap + 1)
    (hppa : ppa = b₀.nextPage g + k / l2pgap)
    (h : ∀ page, PartPage g b₀ (k + 1) page → Moved g b₀ t (k + 1) rest (b, page)) :
  ∃ y, b.endGcPage g (ppa, oob) = .ok y ∧ Moved g b₀ t (k + 1) rest y
  := by
  unfold L2pBm.endGcPage
  by_cases hfull : oob.length = l2pgap
  · have hnone : PartPage g b₀ (k + 1) none := by
      simp only [PartPage, l2pgap] at *
      omega
    obtain ⟨hnow, hfilled, hpage, hsource, hfresh⟩ := h none hnone
    rw [if_pos hfull]
    exact ⟨_, rfl, hnow, hfilled.setOob _ _, hpage, hsource, hfresh⟩
  · have hsome : PartPage g b₀ (k + 1) (some (ppa, oob)) := by
      simp only [PartPage, l2pgap] at *
      omega
    rw [if_neg hfull]
    exact ⟨_, rfl, h _ hsome⟩

/-- A valid piece is moved: the page is there, or the next one is taken, in which the piece has
not been valid before. -/
theorem moveSummaryPiece_moved (h : Moved g b₀ t k rest x) (hne : t ≠ b₀.nowSummarySeg)
    (hk : k < b₀.pagesLeft g * l2pgap) (hq : rest q) (hsid : g.sid q = t)
    (hvalid : b₀.pool.bm.bitset q = true) :
  Meets (fun _ => ¬ b₀.Unwritten g) (Moved g b₀ t (k + 1) (fun p => rest p ∧ p ≠ q))
    (moveSummaryPiece g (getMapPpa g) x q)
  := by
  obtain ⟨b, page⟩ := x
  have hbit : b.pool.bm.bitset q = true := (h.source q hq hsid).trans hvalid
  have h₁ := h.unset hne hsid
  obtain ⟨oob, b₂, hpage, hlen, hnow, hfilled, hbits⟩ := h₁.gcPage hk
  have hlt : (b₀.pool.bm.segment b₀.nowSummarySeg).usedPageNum + k / l2pgap < g.pps := by
    have := h.filled.le
    simp only [l2pgap, pagesLeft] at *
    omega
  have haddr : (b₀.nextPage g + k / l2pgap) * l2pgap + oob.length = b₀.nextPage g * l2pgap + k := by
    rw [hlen]
    simp only [l2pgap]
    omega
  have hold : b₂.pool.bm.bitset (b₀.nextPage g * l2pgap + k)
      = b₀.pool.bm.bitset (b₀.nextPage g * l2pgap + k) := by
    rw [hbits]
    apply h₁.fresh _ (Nat.le_refl _) (nextPage_sid hlt)
  have hinv : b.isInvalidPiece q = false := by
    rw [isInvalidPiece, hbit]
    rfl
  simp only [moveSummaryPiece, hinv, Bool.false_eq_true, if_false, invalidatePiecePpa_valid hbit,
    hpage, haddr, bind, Except.bind]
  cases hclear : b₂.pool.bm.bitset (b₀.nextPage g * l2pgap + k) with
  | true =>
      simp only [validatePiecePpa, isInvalidPiece, hclear, require, bind, Except.bind]
      intro hun
      rw [hold, hun.clear hlt] at hclear
      cases hclear
  | false =>
      rw [validatePiecePpa_clear hclear]
      have hend : ∃ y, endGcPage g
          { b₂ with
            pool := { b₂.pool with
              bm := (b₂.pool.bm.bitSet g (b₀.nextPage g * l2pgap + k)).2 } }
          (b₀.nextPage g + k / l2pgap, oob ++ [b.pool.bm.oob q]) = .ok y ∧
          Moved g b₀ t (k + 1) (fun p => rest p ∧ p ≠ q) y := by
        apply Moved.endGcPage _ rfl
        · intro page hpart
          refine ⟨hnow, hfilled.bitSet _, hpart, ?_, ?_⟩
          · intro p hp hpsid
            have hpk : p ≠ b₀.nextPage g * l2pgap + k := by
              rintro rfl
              apply hne (hpsid.symm.trans (nextPage_sid hlt))
            rw [BlockManager.bitSet_bitset, Function.update_of_ne hpk, hbits]
            apply h₁.source p hp hpsid
          · intro p hp hpsid
            rw [BlockManager.bitSet_bitset, Function.update_of_ne (by omega), hbits]
            apply h₁.fresh p (by omega) hpsid
        · rw [List.length_append, hlen]
          rfl
      obtain ⟨y, hy, hmoved⟩ := hend
      apply Meets.mono (meets_of_eq hy)
      rintro _ rfl
      apply hmoved

/-! ### All pieces -/

/-- The pieces `qs` are moved while they fit into the pages that are left. -/
theorem movePieces_moved {u : ℕ} (hfilled : b.pool.bm.Filled g b.nowSummarySeg u)
    (hne : t ≠ b.nowSummarySeg) {qs : List ℕ} (hnodup : qs.Nodup) (hsid : ∀ q ∈ qs, g.sid q = t)
    (hroom : qs.countP b.pool.bm.bitset ≤ b.pagesLeft g * l2pgap) :
  Meets (fun _ => ¬ b.Unwritten g)
    (Moved g b t (qs.countP b.pool.bm.bitset) (fun q => q ∉ qs))
    (qs.foldlM (moveSummaryPiece g (getMapPpa g)) (b, none))
  := by
  induction qs using List.reverseRecOn with
  | nil =>
      refine ⟨rfl, ?_, rfl, fun _ _ _ => rfl, fun _ _ _ => rfl⟩
      rw [hfilled.used]
      simpa [l2pgap] using hfilled
  | append_singleton qs q ih =>
      obtain ⟨hnodup, -, hdisj⟩ := List.nodup_append.mp hnodup
      have hq : q ∉ qs := fun hmem => hdisj q hmem q (List.mem_singleton_self q) rfl
      rw [List.countP_append, List.countP_singleton] at hroom ⊢
      rw [List.foldlM_append]
      apply (ih hnodup (fun p hp => hsid p (List.mem_append_left _ hp)) (by omega)).bind
      intro x hx
      have hqsid := hsid q (by simp)
      have hrest : ∀ p, p ∉ qs ++ [q] → p ∉ qs ∧ p ≠ q := by
        intro p hp
        simpa using hp
      simp only [List.foldlM_cons, List.foldlM_nil, bind_pure]
      cases hvalid : b.pool.bm.bitset q with
      | true =>
          rw [hvalid, if_pos rfl] at hroom
          apply (moveSummaryPiece_moved hx hne (by omega) hq hqsid hvalid).mono
          intro y hy
          apply hy.mono hrest
      | false =>
          have hinv : x.1.isInvalidPiece q = true := by
            rw [isInvalidPiece, hx.source q hq hqsid, hvalid]
            rfl
          rw [moveSummaryPiece, if_pos hinv]
          apply hx.mono fun p hp => (hrest p hp).1

/-- The active summary segment is full when all its pages have been taken. -/
theorem Moved.checkFull_iff (h : Moved g b₀ t k rest x) (hk : k % l2pgap = 0) :
  x.1.pool.bm.checkFull g x.1.nowSummarySeg = true ↔ k = b₀.pagesLeft g * l2pgap
  := by
  have hle := h.filled.le
  rw [h.now, h.filled.checkFull_iff]
  simp only [pagesLeft, l2pgap] at *
  omega

/-- The active summary segment is found full exactly when there are more valid pieces than fit
into its pages, if they are unwritten; otherwise the collection may stop before. -/
theorem findsFull_iff {u : ℕ} (hfilled : b.pool.bm.Filled g b.nowSummarySeg u)
    (hne : t ≠ b.nowSummarySeg) :
  (b.FindsFull g t → b.pagesLeft g * l2pgap < b.validPieceNum g t) ∧
    (b.Unwritten g → b.pagesLeft g * l2pgap < b.validPieceNum g t → b.FindsFull g t)
  := by
  rw [← countP_readPieces]
  have hnodup := nodup_readPieces (g := g) (b := b) (t := t)
  have hsid : ∀ q ∈ readPieces g b t, g.sid q = t := fun q hq => sid_of_mem_readPieces hq
  constructor
  · rintro ⟨qs, q, rest, b₁, b₂, hread, hfold, hvalid, hinv, hfull⟩
    rw [hread] at hnodup hsid ⊢
    by_contra hle
    obtain ⟨hnd, -, hdisj⟩ := List.nodup_append.mp hnodup
    have hq : q ∉ qs := fun hmem => hdisj q hmem q List.mem_cons_self rfl
    have hqsid := hsid q (by simp)
    rw [List.countP_append, List.countP_cons] at hle
    have hmoved := movePieces_moved hfilled hne hnd
      (fun p hp => hsid p (List.mem_append_left _ hp)) (by omega)
    have hx := hmoved.of_ok hfold
    have hset : b₁.pool.bm.bitset q = true := by simpa [isInvalidPiece] using hvalid
    rw [← hx.source q hq hqsid, hset, if_pos rfl] at hle
    rw [invalidatePiecePpa_valid hset] at hinv
    cases hinv
    have := ((hx.unset hne hqsid).checkFull_iff hx.page).mp hfull
    omega
  · intro hun hlt
    obtain ⟨qs, q, rest, hread, hnum, hvalid⟩ := exists_split_countP hlt
    rw [hread] at hnodup hsid
    obtain ⟨hnd, -, hdisj⟩ := List.nodup_append.mp hnodup
    have hq : q ∉ qs := fun hmem => hdisj q hmem q List.mem_cons_self rfl
    have hqsid := hsid q (by simp)
    have hmoved := movePieces_moved hfilled hne hnd
      (fun p hp => hsid p (List.mem_append_left _ hp)) hnum.le
    cases hfold : qs.foldlM (moveSummaryPiece g (getMapPpa g)) (b, none) with
    | error e =>
        rw [hfold] at hmoved
        exact absurd hun hmoved
    | ok x =>
        have hx := hmoved.of_ok hfold
        rw [hnum] at hx
        have hmod : b.pagesLeft g * l2pgap % l2pgap = 0 := Nat.mul_mod_left _ _
        obtain ⟨b₁, page⟩ := x
        cases page with
        | some page => exact absurd hmod hx.page.1
        | none =>
            have hset : b₁.pool.bm.bitset q = true := (hx.source q hq hqsid).trans hvalid
            refine ⟨qs, q, rest, b₁, _, hread, hfold, ?_, invalidatePiecePpa_valid hset, ?_⟩
            · rw [isInvalidPiece, hset]
              rfl
            · exact ((hx.unset hne hqsid).checkFull_iff hmod).mpr rfl


/-! ### Runs -/

instance : Decidable (b.Unwritten g) :=
  inferInstanceAs (Decidable (∀ ppa ∈ g.pages b.nowSummarySeg, b.nextPage g ≤ ppa →
    b.readFlag ppa = false))

/-- A victim that is taken in a state of the tree leaves the pages of all segments assigned one
after another. -/
theorem getGcTarget_paged {victims : List ℕ} {ops : List TableOp} {b₁ : L2pBm} {target : Option ℕ}
    (h : exec g victims ops = .ok b) (hpop : b.getGcTarget g = .ok (target, b₁)) :
  b₁.pool.Paged g
  := by
  obtain ⟨sc, hb⟩ := exec_meets.of_ok h
  have hheld := (getGcTarget_meets hb).of_ok hpop
  apply hheld.reach.paged

/-- With exact counters, the victims that are let through and do not fit are those with a rest
that needs a page more than are left. -/
theorem fitsActive_fits_iff {t : ℕ} (hguard : b.fitsActive g .dataSeg t = true)
    (hexact : (b.pool.bm.segment t).validatePieceNum
      = (b.pool.bm.segment t).invalidatePieceNum + b.validPieceNum g t) :
  b.validPieceNum g t ≤ b.pagesLeft g * l2pgap ↔
    b.validPieceNum g t % l2pgap = 0 ∨ b.validPieceNum g t / l2pgap < b.pagesLeft g
  := by
  simp only [fitsActive, Bool.and_eq_true, decide_eq_true_eq] at hguard
  have hle := hguard.2
  rw [hexact, Nat.add_sub_cancel_left] at hle
  change b.validPieceNum g t / l2pgap ≤ b.pagesLeft g at hle
  simp only [l2pgap] at *
  omega

/-- Segments of two pages: the first summary segment is full and has `n` pieces validated, of
which the first is invalidated, and there is no free segment any more. -/
def fullSummary (n : ℕ) : List TableOp :=
  [.getMapPpa, .getMapPpa] ++ (List.range n).map (fun i => .validatePiecePpa (16 + i)) ++
    [.invalidatePiecePpa 16 true, .getMapPpa, .pickEmptyPba, .pickEmptyPba]

/-- What is seen of a victim that is taken after a run. -/
def takeVictim (g : Geometry) (victims : List ℕ) (ops : List TableOp) (t : ℕ) :
    Except Abort (Option ℕ × Bool × ℕ × ℕ × Bool) :=
  (exec g victims ops >>= fun b => b.getGcTarget g).map fun x =>
    (x.1, x.2.fitsActive g .dataSeg t, x.2.validPieceNum g t, x.2.pagesLeft g,
      decide (x.2.Unwritten g))

theorem exists_takeVictim {victims : List ℕ} {ops : List TableOp} {t n m : ℕ}
    (h : takeVictim g victims ops t = .ok (some t, true, n, m, true)) :
  ∃ b b₁, exec g victims ops = .ok b ∧ b.getGcTarget g = .ok (some t, b₁) ∧
    b₁.fitsActive g .dataSeg t = true ∧ b₁.validPieceNum g t = n ∧ b₁.pagesLeft g = m ∧
    b₁.Unwritten g
  := by
  obtain ⟨⟨target, b₁⟩, hrun, hseen⟩ := map_eq_ok h
  obtain ⟨b, hexec, hpop⟩ := bind_eq_ok.mp hrun
  simp only [Prod.mk.injEq, decide_eq_true_eq] at hseen
  obtain ⟨rfl, hguard, hnum, hleft, hun⟩ := hseen
  use b, b₁, hexec, hpop, hguard, hnum, hleft, hun

theorem fits_findsFull {victims : List ℕ} {ops : List TableOp} {b₁ : L2pBm} {t : ℕ}
    (h : exec g victims ops = .ok b) (hpop : b.getGcTarget g = .ok (some t, b₁))
    (hguard : b₁.fitsActive g .dataSeg t = true) :
  (b₁.validPieceNum g t ≤ b₁.pagesLeft g * l2pgap → ¬ b₁.FindsFull g t) ∧
    (b₁.Unwritten g → ¬ b₁.FindsFull g t → b₁.validPieceNum g t ≤ b₁.pagesLeft g * l2pgap)
  := by
  obtain ⟨u, hfilled⟩ := getGcTarget_paged h hpop b₁.nowSummarySeg
  have hne : t ≠ b₁.nowSummarySeg := by
    simp only [fitsActive, Bool.and_eq_true, bne_iff_ne] at hguard
    apply hguard.1.2.symm
  obtain ⟨hfull, hfull'⟩ := findsFull_iff hfilled hne
  constructor
  · intro hfits hfinds
    have := hfull hfinds
    omega
  · intro hun hno
    by_contra hfits
    apply hno (hfull' hun (by omega))

/-- With exact counters, a victim that is let through is moved without a page too few unless it has
as many whole pages of valid pieces as pages are left, and a rest. -/
theorem rest_findsFull {victims : List ℕ} {ops : List TableOp} {b₁ : L2pBm} {t : ℕ}
    (h : exec g victims ops = .ok b) (hpop : b.getGcTarget g = .ok (some t, b₁))
    (hguard : b₁.fitsActive g .dataSeg t = true)
    (hexact : (b₁.pool.bm.segment t).validatePieceNum
      = (b₁.pool.bm.segment t).invalidatePieceNum + b₁.validPieceNum g t) :
  (b₁.validPieceNum g t % l2pgap = 0 ∨ b₁.validPieceNum g t / l2pgap < b₁.pagesLeft g →
      ¬ b₁.FindsFull g t) ∧
    (b₁.Unwritten g → ¬ b₁.FindsFull g t →
      b₁.validPieceNum g t % l2pgap = 0 ∨ b₁.validPieceNum g t / l2pgap < b₁.pagesLeft g)
  := by
  rw [← fitsActive_fits_iff hguard hexact]
  apply fits_findsFull h hpop hguard

/-- When the garbage collection for data, in any state of the tree, decides to move the valid
pieces of a summary segment into the active one, the active one is not found full if they fit
into the pages that are left, rounded up; and otherwise it is found full, unless pieces are valid
in pages that have not been handed out. -/
theorem relocate_findsFull {victims : List ℕ} {ops : List TableOp} {b₁ : L2pBm} {t : ℕ}
    (h : exec g victims ops = .ok b) (hpop : b.getGcTarget g = .ok (some t, b₁))
    (hguard : b₁.fitsActive g .dataSeg t = true) :
  (b₁.validPieceNum g t ≤ b₁.pagesLeft g * l2pgap → ¬ b₁.FindsFull g t) ∧
    (b₁.Unwritten g → ¬ b₁.FindsFull g t → b₁.validPieceNum g t ≤ b₁.pagesLeft g * l2pgap)
  := by
  apply fits_findsFull h hpop hguard

theorem relocate_findsFull_fourPieces :
  ∃ b b₁, exec ⟨1, 2, 6, by decide, by decide⟩ [2] (fullSummary 5) = .ok b ∧
    b.getGcTarget ⟨1, 2, 6, by decide, by decide⟩ = .ok (some 2, b₁) ∧
    b₁.validPieceNum ⟨1, 2, 6, by decide, by decide⟩ 2 = 4 ∧
    ¬ b₁.FindsFull ⟨1, 2, 6, by decide, by decide⟩ 2
  := by
  have hrun : takeVictim ⟨1, 2, 6, by decide, by decide⟩ [2] (fullSummary 5) 2
      = .ok (some 2, true, 4, 1, true) := by
    decide +kernel
  obtain ⟨b, b₁, hexec, hpop, hguard, hnum, hleft, -⟩ := exists_takeVictim hrun
  use b, b₁, hexec, hpop, hnum
  apply (relocate_findsFull hexec hpop hguard).1
  rw [hnum, hleft]
  decide

/-- Five pieces need two pages, and the guard lets them through with one page left. -/
theorem findsFull_fivePieces :
  ∃ b b₁, exec ⟨1, 2, 6, by decide, by decide⟩ [2] (fullSummary 6) = .ok b ∧
    b.getGcTarget ⟨1, 2, 6, by decide, by decide⟩ = .ok (some 2, b₁) ∧
    b₁.fitsActive ⟨1, 2, 6, by decide, by decide⟩ .dataSeg 2 = true ∧
    b₁.FindsFull ⟨1, 2, 6, by decide, by decide⟩ 2
  := by
  have hrun : takeVictim ⟨1, 2, 6, by decide, by decide⟩ [2] (fullSummary 6) 2
      = .ok (some 2, true, 5, 1, true) := by
    decide +kernel
  obtain ⟨b, b₁, hexec, hpop, hguard, hnum, hleft, hun⟩ := exists_takeVictim hrun
  use b, b₁, hexec, hpop, hguard
  obtain ⟨u, hfilled⟩ := getGcTarget_paged hexec hpop b₁.nowSummarySeg
  have hne : 2 ≠ b₁.nowSummarySeg := by
    simp only [fitsActive, Bool.and_eq_true, bne_iff_ne] at hguard
    apply hguard.1.2.symm
  apply (findsFull_iff hfilled hne).2 hun
  rw [hnum, hleft]
  decide

end L2pBm

end AppL
