import AppL.Lsm.Invalidation
import AppL.Lsm.Legible

/-!
# Pieces are validated once

A piece is validated when it is taken from the blank ones, and it does not get blank again.  So
no piece is validated twice, and a piece that is not valid any more has been invalidated exactly
once.  The blank pieces are those of the device, of the block that a run is filling, and of the
page that a run fills with its summaries.
-/

namespace AppL

open Transition WriteOnce

variable {δ : Type} {g : Geometry}

namespace Dev

variable {dev dev' : Dev δ} {blank blank' : Set ℕ}

/-- No piece has been validated twice, and no blank one at all. -/
structure Once (blank : Set ℕ) (dev : Dev δ) : Prop where
  once : ∀ q, dev.validated q ≤ 1
  zero : ∀ q ∈ blank, dev.validated q = 0

/-- Nothing is validated. -/
theorem Once.same (h : dev.Once blank) (hsub : blank' ⊆ blank)
    (hval : dev'.validated = dev.validated) :
  dev'.Once blank'
  := by
  constructor
  · intro q
    rw [hval]
    apply h.once
  · intro q hq
    rw [hval]
    apply h.zero q (hsub hq)

/-- A blank piece is validated. -/
theorem Once.validate {q : ℕ} (h : dev.Once blank) (hsub : blank' ⊆ blank) (hq : q ∈ blank)
    (hq' : q ∉ blank')
    (hval : dev'.validated = Function.update dev.validated q (dev.validated q + 1)) :
  dev'.Once blank'
  := by
  constructor
  · intro x
    rw [hval, Function.update_apply]
    split
    · rw [h.zero q hq]
    · apply h.once
  · intro x hx
    have hne : x ≠ q := by
      rintro rfl
      apply hq' hx
    rw [hval, Function.update_of_ne hne]
    apply h.zero x (hsub hx)

/-- Nothing that had been handed out is free again, and neither what is free nor what is left to
`others` has been validated. -/
structure Spares (g : Geometry) (others : Set ℕ) (dev dev' : Dev δ) : Prop where
  layout : dev'.Layout g
  sub : dev'.free g ⊆ dev.free g
  once : dev'.Once (others ∪ dev'.free g)

theorem validatePiecePpa_validated {e : Abort} {q : ℕ}
    (h : dev.validatePiecePpa g e q = .ok dev') :
  dev'.validated = Function.update dev.validated q (dev.validated q + 1)
  := by
  unfold validatePiecePpa at h
  split at h
  · cases h
    rfl
  · cases h

theorem invalidatePiecePpa_validated {e : Abort} {q : ℕ} {force : Bool}
    (h : dev.invalidatePiecePpa g e q force = .ok dev') :
  dev'.validated = dev.validated
  := by
  unfold invalidatePiecePpa at h
  split at h
  · cases h
  · cases h
    rfl

/-- The pieces of the page that is handed out are free, and then no longer. -/
theorem getMapPpa_free (h : dev.Layout g) {q : ℕ} (hq : q / l2pgap = (dev.getMapPpa g).1) :
  q ∈ dev.free g ∧ q ∉ (dev.getMapPpa g).2.free g
  := by
  have hsum := h.summary_lt
  have hsid : g.sid q = q / l2pgap / g.pps := Geometry.sid_eq g q
  unfold getMapPpa at hq ⊢
  split at hq
  · rename_i hfull
    rw [if_pos hfull]
    dsimp only at hq
    rw [hq, Nat.mul_div_cancel _ g.pps_pos] at hsid
    constructor
    · left
      apply hsid.ge
    · rintro (hge | ⟨hseg, -⟩ | ⟨-, hle⟩)
      · dsimp only at hge
        omega
      · obtain ⟨hlt, -⟩ := h.seg _ hseg
        omega
      · dsimp only at hle
        rw [hq, Nat.mul_mod_left] at hle
        cases hle
  · rename_i hroom
    rw [if_neg hroom]
    obtain ⟨hdiv, hmod⟩ := (eq_segment_iff (Nat.lt_of_le_of_ne h.page_le hroom)).mp hq
    rw [hdiv] at hsid
    constructor
    · right
      right
      use hsid.symm, hmod.ge
    · rintro (hge | ⟨hseg, -⟩ | ⟨-, hle⟩)
      · dsimp only at hge
        omega
      · obtain ⟨-, hne, -⟩ := h.seg _ hseg
        apply hne hsid
      · dsimp only at hle
        omega

end Dev

/-! ### Tables -/

namespace StArray

variable {others : Set ℕ} {sa sa' sa'' : StArray} {dev dev' dev'' : Dev δ}

/-- The rest of the page that is being filled with summaries. -/
def metaRest (sa : StArray) : Set ℕ :=
  {q | sa.mpNowIdx ≠ 0 ∧ q / l2pgap = sa.mpNowPpa ∧ sa.mpNowIdx ≤ q % l2pgap}

theorem metaRest_zero (h : sa.mpNowIdx = 0) :
  sa.metaRest = ∅
  := by
  rw [Set.eq_empty_iff_forall_notMem]
  rintro q ⟨hne, -⟩
  apply hne h

/-- What the table may still write to is blank, and apart from what is left to `others`. -/
structure Allotted (g : Geometry) (others : Set ℕ) (sa : StArray) (dev : Dev δ) : Prop where
  placed : sa.Placed g (others ∪ sa.metaRest) dev
  apart : ∀ q ∈ others, q ∉ sa.metaRest
  idx : sa.mpNowIdx < l2pgap
  once : dev.Once (sa.blank g (others ∪ sa.metaRest) dev)

/-- The table has gone on, and nothing that had been handed out is free again. -/
structure Allots (g : Geometry) (others : Set ℕ) (sa' : StArray) (dev dev' : Dev δ) : Prop where
  allotted : sa'.Allotted g others dev'
  sub : dev'.free g ⊆ dev.free g

theorem Allotted.allots (h : sa.Allotted g others dev) :
  sa.Allots g others dev dev
  := ⟨h, Set.Subset.refl _⟩

theorem Allots.trans (h : sa'.Allots g others dev dev') (h' : sa''.Allots g others dev' dev'') :
  sa''.Allots g others dev dev''
  := ⟨h'.allotted, h'.sub.trans h.sub⟩

/-- A table without a current block and without a page for its summaries. -/
theorem Allotted.of_nil (hnil : sa.cur.page = []) (hidx : sa.mpNowIdx = 0) (hl : dev.Layout g)
    (hapart : ∀ q ∈ others, q ∉ dev.free g) (honce : dev.Once (others ∪ dev.free g)) :
  sa.Allotted g others dev
  := by
  constructor
  · rw [metaRest_zero hidx, Set.union_empty]
    apply Placed.of_nil hnil hl hapart
  · rw [metaRest_zero hidx]
    intro q _ hq
    apply hq
  · rw [hidx]
    decide
  · rw [metaRest_zero hidx, Set.union_empty, blank, blockRest_nil hnil, Set.empty_union]
    apply honce

/-- Such a table leaves to the others what it has found. -/
theorem Allotted.of_closed (h : sa.Allotted g others dev) (hnil : sa.cur.page = [])
    (hidx : sa.mpNowIdx = 0) :
  dev.Once (others ∪ dev.free g)
  := by
  have honce := h.once
  rw [metaRest_zero hidx, Set.union_empty, blank, blockRest_nil hnil, Set.empty_union] at honce
  apply honce

/-- Only the current block and the page for summaries count. -/
theorem Allotted.congr (h : sa.Allotted g others dev) (hcur : sa'.blockRest g = sa.blockRest g)
    (hppa : sa'.mpNowPpa = sa.mpNowPpa) (hidx : sa'.mpNowIdx = sa.mpNowIdx) :
  sa'.Allotted g others dev
  := by
  have hmeta : sa'.metaRest = sa.metaRest := by rw [metaRest, metaRest, hppa, hidx]
  constructor
  · rw [hmeta]
    constructor
    · apply h.placed.layout
    · rw [hcur]
      apply h.placed.rest
    · rw [hcur]
      apply h.placed.apart
  · rw [hmeta]
    apply h.apart
  · rw [hidx]
    apply h.idx
  · rw [hmeta, blank, hcur]
    apply h.once

/-- Somebody else takes pieces from the device or gives pieces back to nobody. -/
theorem Allotted.quiet (h : sa.Allotted g others dev) (hl : dev'.Layout g)
    (hsub : dev'.free g ⊆ dev.free g) (hval : dev'.validated = dev.validated) :
  sa.Allots g others dev dev'
  := by
  refine ⟨⟨h.placed.mono hl hsub, h.apart, h.idx, ?_⟩, hsub⟩
  apply h.once.same _ hval
  apply Set.union_subset_union_right _ (Set.union_subset_union_right _ hsub)

end StArray

namespace Run

variable {others : Set ℕ} {r r' : Run δ} {dev dev' : Dev δ}

/-! ### A page -/

theorem logInsert_validated {lba offset : ℕ} {tree : TreeMap}
    (h : r.logInsert g dev lba offset = .ok (tree, dev')) :
  dev'.validated = dev.validated
  := by
  unfold logInsert at h
  split at h
  · cases h
    rfl
  · simp only [bind_eq_ok, require_eq_ok] at h
    obtain ⟨-, -, h⟩ := h
    split at h
    · cases h
      rfl
    · simp only [bind_eq_ok] at h
      obtain ⟨dev₁, hinv, hret⟩ := h
      cases hret
      apply Dev.invalidatePiecePpa_validated hinv

theorem writePiece_validated {lba psa : ℕ} (hr : r.stBody.Filling g)
    (h : r.writePiece g dev lba = .ok (psa, r', dev')) :
  dev'.validated = Function.update dev.validated psa (dev.validated psa + 1) ∧
    r'.stBody.mpNowPpa = r.stBody.mpNowPpa ∧ r'.stBody.mpNowIdx = r.stBody.mpNowIdx
  := by
  simp only [writePiece, bind_eq_ok] at h
  obtain ⟨⟨psa, r₁, dev₀⟩, htr, dev₁, hval, ⟨tree, dev₂⟩, hlog, sa, hins, hret⟩ := h
  cases hret
  obtain ⟨pba, -, hsame, -, rfl, -⟩ := writeTranslation_ok hr htr
  obtain ⟨-, -, rfl⟩ := insertPair_ok hins
  refine ⟨?_, rfl, rfl⟩
  rw [logInsert_validated hlog, Dev.validatePiecePpa_validated hval, hsame.validated]

/-- The piece that is written is taken from the blank ones. -/
theorem writePiece_allots {lba psa : ℕ} (hr : r.stBody.Filling g) (hlba : lba ≤ uint32Max)
    (h : r.stBody.Allotted g others dev) (hok : r.writePiece g dev lba = .ok (psa, r', dev')) :
  r'.stBody.Allots g others dev dev'
  := by
  obtain ⟨hval, hppa, hidx⟩ := writePiece_validated hr hok
  obtain ⟨hplaced, hquiet, hsub, hnew⟩ := writePiece_blank hr hlba h.placed hok
  obtain ⟨pba, -, hfill, happ, hpsa, -⟩ := writePiece_ok hr hlba hok
  have hmeta : r'.stBody.metaRest = r.stBody.metaRest := by
    rw [StArray.metaRest, StArray.metaRest, hppa, hidx]
  have hne : r'.stBody.cur.page ≠ [] := by simp [happ.page]
  have hbid : g.bid psa = r'.stBody.cur.pba / g.ppb := by
    have hle := hfill.le
    rw [happ.page, List.length_append, List.length_singleton] at hle
    rw [hpsa, ← happ.cur_pba]
    apply bid_block (hfill.cur.dvd hne) hle
  obtain ⟨hblank, hout⟩ := hnew psa hbid (Nat.le_refl _)
  refine ⟨⟨hmeta ▸ hplaced, hmeta ▸ h.apart, hidx ▸ h.idx, ?_⟩, hquiet.sub⟩
  rw [hmeta]
  apply h.once.validate hsub hblank ?_ hval
  rintro (hq | hq | hq)
  · exact hout (.inl hq)
  · obtain ⟨-, -, hle⟩ := hq
    rw [happ.page, List.length_append, List.length_singleton, happ.cur_pba, hpsa] at hle
    omega
  · exact hout (.inr hq)

theorem writePieces_allots {lbas psas : List ℕ} (hlbas : ∀ lba ∈ lbas, lba ≤ uint32Max) :
  ∀ {r : Run δ} {dev : Dev δ}, r.stBody.Filling g → r.stBody.Allotted g others dev →
    writePieces g lbas r dev = .ok (psas, r', dev') →
    r'.stBody.Filling g ∧ r'.stBody.Allots g others dev dev'
  := by
  induction lbas generalizing psas with
  | nil =>
      intro r dev hr h hok
      cases hok
      exact ⟨hr, h.allots⟩
  | cons lba lbas ih =>
      intro r dev hr h hok
      simp only [writePieces, bind_eq_ok] at hok
      obtain ⟨⟨psa, r₁, dev₁⟩, hfst, ⟨psas, r₂, dev₂⟩, hrest, hret⟩ := hok
      cases hret
      have hlba := hlbas lba List.mem_cons_self
      obtain ⟨pba, -, hfill, -⟩ := writePiece_ok hr hlba hfst
      have hfirst := writePiece_allots hr hlba h hfst
      obtain ⟨hfill', hnext⟩ := ih (fun l hl => hlbas l (List.mem_cons_of_mem _ hl)) hfill
        hfirst.allotted hrest
      exact ⟨hfill', hfirst.trans hnext⟩

theorem writeBuffer_allots {pp : PpBuffer δ} (hr : r.stBody.Filling g)
    (hlbas : ∀ x ∈ pp.items, x.1 ≤ uint32Max) (h : r.stBody.Allotted g others dev)
    (hok : r.writeBuffer g pp dev = .ok (r', dev')) :
  r'.stBody.Filling g ∧ r'.stBody.Allots g others dev dev'
  := by
  simp only [writeBuffer, bind_eq_ok] at hok
  obtain ⟨⟨psas, r₁, dev₁⟩, hw, hret⟩ := hok
  cases hret
  have hl : ∀ lba ∈ pp.items.map (·.1), lba ≤ uint32Max := by
    intro lba hlba
    obtain ⟨x, hx, rfl⟩ := List.mem_map.mp hlba
    apply hlbas x hx
  obtain ⟨hfill, hpieces⟩ := writePieces_allots hl hr h hw
  use hfill
  apply hpieces.trans
  apply hpieces.allotted.quiet (Dev.issueWrite_pool.layout hpieces.allotted.placed.layout)
  · rw [Dev.issueWrite_pool.free]
  · rfl

/-! ### Blocks -/

/-- The page that the summaries go to is the one that is being filled, or a new one.  What is
left of it is blank. -/
theorem metaPage {sa : StArray} (h : sa.Allotted g others dev) {x : ℕ × Dev δ}
    (hx : x = if sa.mpNowIdx = 0 then dev.getMapPpa g else (sa.mpNowPpa, dev)) :
  dev.Quiet g x.2 ∧ x.2.validated = dev.validated ∧
    ∀ i < l2pgap, sa.mpNowIdx ≤ i →
      x.1 * l2pgap + i ∉ others ∧ x.1 * l2pgap + i ∈ sa.metaRest ∪ dev.free g ∧
        x.1 * l2pgap + i ∉ x.2.free g
  := by
  have hdiv : ∀ page, ∀ i < l2pgap, (page * l2pgap + i) / l2pgap = page := fun page i hi => by
    rw [Nat.mul_comm, Nat.mul_add_div (by decide), Nat.div_eq_of_lt hi, Nat.add_zero]
  split at hx
  · subst hx
    use Dev.getMapPpa_quiet h.placed.layout, (Dev.getMapPpa_sameFlash dev).validated
    intro i hi _
    obtain ⟨hfree, hout⟩ := Dev.getMapPpa_free h.placed.layout (hdiv _ i hi)
    use fun hother => h.placed.apart _ (.inl hother) (.inr hfree), .inr hfree, hout
  · rename_i hidx
    subst hx
    use Dev.Quiet.refl h.placed.layout, rfl
    intro i hi hle
    have hmeta : sa.mpNowPpa * l2pgap + i ∈ sa.metaRest := by
      use hidx, hdiv _ i hi
      rw [Nat.mul_comm, Nat.mul_add_mod, Nat.mod_eq_of_lt hi]
      apply hle
    use fun hother => h.apart _ hother hmeta, .inl hmeta
    exact fun hfree => h.placed.apart _ (.inr hmeta) (.inr hfree)

/-- A summary gets the next piece of the page, and the pieces behind it stay blank. -/
theorem writeMeta_allots {force : Bool} (h : r.stBody.Allotted g others dev)
    (hw : r.stBody.writing = !r.stBody.cur.page.isEmpty)
    (hok : r.writeMeta g dev force = .ok (r', dev')) :
  r'.stBody.Allots g others dev dev' ∧ r'.stBody.cur.page = [] ∧
    (force = true → r'.stBody.mpNowIdx = 0)
  := by
  simp only [writeMeta, bind_eq_ok, require_eq_ok] at hok
  obtain ⟨-, -, hok⟩ := hok
  split at hok
  · rename_i hwriting
    cases hok
    have hnil : r.stBody.cur.page = [] := by simpa [hwriting] using hw
    refine ⟨⟨?_, Set.Subset.refl _⟩, hnil, fun _ => rfl⟩
    refine StArray.Allotted.of_nil hnil rfl h.placed.layout ?_ ?_
    · exact fun q hq hfree => h.placed.apart q (.inl hq) (.inr hfree)
    · refine h.once.same ?_ rfl
      rintro q (hq | hq)
      · exact .inl (.inl hq)
      · exact .inr (.inr hq)
  · simp only [bind_eq_ok, require_eq_ok] at hok
    obtain ⟨-, -, dev₂, hval, hret⟩ := hok
    obtain ⟨x, hx⟩ : ∃ x, x = if r.stBody.mpNowIdx = 0 then dev.getMapPpa g
        else (r.stBody.mpNowPpa, dev) := ⟨_, rfl⟩
    rw [← hx] at hval hret
    cases hret
    obtain ⟨hquiet, hsame, hpieces⟩ := metaPage h hx
    obtain ⟨hpool, -⟩ := Dev.validatePiecePpa_pool hval
    have hfree : dev'.free g = x.2.free g := hpool.free
    obtain ⟨hother, hblank, hout⟩ := hpieces _ h.idx (Nat.le_refl _)
    have hbehind : ∀ q ∈ (r.stBody.finishSte (x.1 * l2pgap + r.stBody.mpNowIdx)
        (if force = true ∨ r.stBody.mpNowIdx + 1 = l2pgap then uint32Max else x.1)
        (if force = true ∨ r.stBody.mpNowIdx + 1 = l2pgap then 0
          else r.stBody.mpNowIdx + 1)).metaRest,
        q ∉ others ∧ q ∈ r.stBody.metaRest ∪ dev.free g ∧ q ∉ x.2.free g ∧
          q ≠ x.1 * l2pgap + r.stBody.mpNowIdx := by
      rintro q ⟨hne, hpage, hle⟩
      simp only [StArray.finishSte] at hne hpage hle
      split at hne
      · exact absurd rfl hne
      · rename_i hfull
        rw [if_neg hfull] at hpage hle
        have hq : q = x.1 * l2pgap + q % l2pgap := by
          rw [← hpage]
          apply (Nat.div_add_mod' q l2pgap).symm
        obtain ⟨h₁, h₂, h₃⟩ := hpieces _ (Nat.mod_lt q (by decide)) (by omega)
        rw [← hq] at h₁ h₂ h₃
        use h₁, h₂, h₃
        omega
    refine ⟨⟨⟨?_, ?_, ?_, ?_⟩, hfree.subset.trans hquiet.sub⟩, rfl, ?_⟩
    · refine StArray.Placed.of_nil rfl (hpool.layout hquiet.layout) ?_
      rw [hfree]
      rintro q (hq | hq) hq'
      · exact h.placed.apart q (.inl hq) (.inr (hquiet.sub hq'))
      · exact (hbehind q hq).2.2.1 hq'
    · exact fun q hq hq' => (hbehind q hq').1 hq
    · simp only [StArray.finishSte]
      split
      · decide
      · have := h.idx
        omega
    · have hval' := Dev.validatePiecePpa_validated hval
      rw [hsame] at hval'
      rw [StArray.blank, StArray.blockRest_nil rfl, Set.empty_union, hfree]
      refine h.once.validate ?_ ?_ ?_ hval'
      · rintro q ((hq | hq) | hq)
        · exact .inl (.inl hq)
        · rcases (hbehind q hq).2.1 with hq | hq
          · exact .inl (.inr hq)
          · exact .inr (.inr hq)
        · exact .inr (.inr (hquiet.sub hq))
      · rcases hblank with hq | hq
        · exact .inl (.inr hq)
        · exact .inr (.inr hq)
      · rintro ((hq | hq) | hq)
        · apply hother hq
        · exact (hbehind _ hq).2.2.2 rfl
        · apply hout hq
    · rintro rfl
      simp [StArray.finishSte]

/-! ### The operations -/

/-- `run_insert` after its checks. -/
theorem insertSector_allots {lba : ℕ} {d : δ} (hr : r.Ready g) (hlba : lba ≤ uint32Max)
    (h : r.stBody.Allotted g others dev) (hok : r.insertSector g dev lba d = .ok (r', dev')) :
  r'.stBody.Allots g others dev dev'
  := by
  have hlbas : ∀ x ∈ (r.ppInsert lba d).items, x.1 ≤ uint32Max := by
    intro x hx
    rw [ppInsert_items] at hx
    rcases List.mem_append.mp hx with hx | hx
    · apply hr.lba_le x hx
    · rw [List.mem_singleton.mp hx]
      apply hlba
  rcases insertSector_ok (alert_eq_false hr.filling hr.lt) hok with
    ⟨-, r₀, r₁, dev₀, hw, hmeta, rfl⟩ | ⟨-, rfl, rfl⟩
  · obtain ⟨hfill, hwrite⟩ := writeBuffer_allots hr.filling hlbas h hw
    unfold writeMetaOnAlert at hmeta
    split at hmeta
    · obtain ⟨hclose, -⟩ := writeMeta_allots (r := r₀.reinit) hwrite.allotted hfill.writing hmeta
      apply hwrite.trans hclose
    · cases hmeta
      apply hwrite
  · apply h.allots

/-- `run_insert`. -/
theorem insert_allots {lba : ℕ} {d : δ} {sc sc' : ShortcutMaster} (hr : r.Ready g)
    (hlba : lba ≤ uint32Max) (h : r.stBody.Allotted g others dev)
    (hok : r.insert g sc dev lba d = .ok (r', sc', dev')) :
  r'.stBody.Allots g others dev dev'
  := by
  simp only [insert, bind_eq_ok] at hok
  obtain ⟨-, -, hok⟩ := hok
  split at hok
  · rw [bind_eq_ok] at hok
    obtain ⟨⟨r₁, dev₁⟩, hsector, hret⟩ := hok
    cases hret
    apply insertSector_allots hr hlba h hsector
  · split at hok
    · rw [bind_eq_ok] at hok
      obtain ⟨⟨r₁, dev₁⟩, hsector, hret⟩ := hok
      cases hret
      apply insertSector_allots hr hlba h hsector
    · cases hok
      apply h.allots

/-- A sequence of inserts into a normal run. -/
theorem insertAll_allots {held : List ℕ} (xs : List (ℕ × δ)) (hxs : ∀ x ∈ xs, x.1 ≤ uint32Max) :
  ∀ {r : Run δ} {sc sc' : ShortcutMaster} {dev : Dev δ}, r.Open g →
    dev.Holds (r.psas ++ r.sums ++ held) → r.stBody.Allotted g others dev →
    insertAll g xs r sc dev = .ok (r', sc', dev') → r'.stBody.Allots g others dev dev'
  := by
  induction xs with
  | nil =>
      intro r sc sc' dev _ _ h hok
      cases hok
      apply h.allots
  | cons x xs ih =>
      intro r sc sc' dev hr hh h hok
      simp only [insertAll, bind_eq_ok] at hok
      obtain ⟨⟨r₁, sc₁, dev₁⟩, hins, hrest⟩ := hok
      have hlba := hxs x List.mem_cons_self
      have hfirst := insert_allots hr.ready hlba h hins
      simp only [insert, hr.type, bind_eq_ok] at hins
      obtain ⟨-, -, ⟨r₂, dev₂⟩, hsector, hret⟩ := hins
      cases hret
      obtain ⟨hr₁, hgrow, -⟩ := insertSector_grows hr hlba hh hsector
      apply hfirst.trans (ih (fun y hy => hxs y (List.mem_cons_of_mem _ hy)) hr₁ hgrow.holds
        hfirst.allotted hrest)

/-- The sectors in the buffer are written. -/
theorem flushBuffer_allots (hr : r.Ready g) (h : r.stBody.Allotted g others dev)
    (hok : r.flushBuffer g dev = .ok (r', dev')) :
  r'.stBody.Filling g ∧ r'.stBody.Allots g others dev dev'
  := by
  unfold flushBuffer at hok
  split at hok
  · cases hok
    exact ⟨hr.filling, h.allots⟩
  · rename_i pp hpp
    have hbuf : r.buffered = pp.items := by
      rw [buffered, hpp]
      rfl
    split at hok
    · cases hok
      exact ⟨hr.filling, h.allots⟩
    · rw [bind_eq_ok] at hok
      obtain ⟨⟨r₀, dev₀⟩, hw, hret⟩ := hok
      cases hret
      apply writeBuffer_allots hr.filling (hbuf ▸ hr.lba_le) h hw

/-- `run_padding_current_block`. -/
theorem paddingCurrentBlock_allots (hr : r.Ready g) (h : r.stBody.Allotted g others dev)
    (hok : r.paddingCurrentBlock g dev = .ok (r', dev')) :
  r'.stBody.Allots g others dev dev'
  := by
  simp only [paddingCurrentBlock, bind_eq_ok] at hok
  obtain ⟨⟨r₁, dev₁⟩, hflush, ⟨res, sa⟩, hskip, hok⟩ := hok
  dsimp only at hskip hok
  obtain ⟨hfill, hwrite⟩ := flushBuffer_allots hr h hflush
  unfold StArray.forceSkipBlock at hskip
  split at hskip
  · cases hskip
  · split at hskip
    · cases hskip
      simp only [if_true] at hok
      have halert : StArray.Allotted g others { r₁.stBody with summaryWriteAlert := true } dev₁ :=
        hwrite.allotted.congr rfl rfl rfl
      obtain ⟨hclose, -⟩ := writeMeta_allots (r := { r₁ with
          stBody := { r₁.stBody with summaryWriteAlert := true } }) halert hfill.writing hok
      apply hwrite.trans hclose
    · cases hskip
      simp only [Bool.false_eq_true, if_false] at hok
      cases hok
      apply hwrite

/-- `run_insert_done`. -/
theorem insertDone_allots (hr : r.Ready g) (h : r.stBody.Allotted g others dev)
    (hok : r.insertDone g dev = .ok (r', dev')) :
  dev.Spares g others dev'
  := by
  simp only [insertDone, bind_eq_ok] at hok
  obtain ⟨⟨r₁, dev₁⟩, hflush, ⟨r₂, dev₂⟩, hmeta, hret⟩ := hok
  cases hret
  obtain ⟨hfill, hwrite⟩ := flushBuffer_allots hr h hflush
  obtain ⟨hclose, hnil, hidx⟩ := writeMeta_allots hwrite.allotted hfill.writing hmeta
  have hall := hwrite.trans hclose
  exact ⟨hall.allotted.placed.layout, hall.sub, hall.allotted.of_closed hnil (hidx rfl)⟩

end Run

/-! ### Merging -/

namespace Mm

variable {mm : Mm δ} {dev dev' : Dev δ}

theorem invalidateTarget_validated {lba piecePpa steNum : ℕ} {force : Bool}
    (h : mm.invalidateTarget g dev lba piecePpa force steNum = .ok dev') :
  dev'.validated = dev.validated
  := by
  simp only [invalidateTarget, bind_eq_ok] at h
  obtain ⟨psa, -, h⟩ := h
  apply Dev.invalidatePiecePpa_validated h

end Mm

namespace MergeState

variable {others : Set ℕ} {st st' : MergeState δ} {dev dev' : Dev δ}

theorem skipOld_validated {ridx : ℕ} {p : Picked} (hok : st.skipOld g ridx p = .ok st') :
  st'.dev.validated = st.dev.validated
  := by
  simp only [skipOld, bind_eq_ok] at hok
  obtain ⟨mm, -, dev, hinv, mm', -, hret⟩ := hok
  cases hret
  apply Mm.invalidateTarget_validated hinv

theorem pickSmallestPair_validated (fuel : ℕ) :
  ∀ {st st' : MergeState δ} {picked : Option (ℕ × Picked)},
    pickSmallestPair g fuel st = .ok (picked, st') → st'.dev.validated = st.dev.validated
  := by
  induction fuel with
  | zero =>
      intro st st' picked hok
      cases hok
  | succ fuel ih =>
      intro st st' picked hok
      unfold pickSmallestPair at hok
      split at hok
      · simp only [bind_eq_ok] at hok
        obtain ⟨-, -, hret⟩ := hok
        cases hret
        rfl
      · simp only [bind_eq_ok] at hok
        obtain ⟨mm, -, hok⟩ := hok
        split at hok
        · rw [bind_eq_ok] at hok
          obtain ⟨st₁, hskip, hrest⟩ := hok
          apply (ih hrest).trans (skipOld_validated hskip)
        · cases hok
          rfl

theorem dropOther_validated {mm : Mm δ} {p : Picked} {isOther : Bool} {piecePpa : ℕ}
    (hok : dropOther g mm p isOther piecePpa dev = .ok dev') :
  dev'.validated = dev.validated
  := by
  unfold dropOther at hok
  split at hok
  · apply Mm.invalidateTarget_validated hok
  · cases hok
    rfl

theorem moveIter_validated {lba piecePpa ridx : ℕ} (mms : List (Mm δ)) :
  ∀ {i : ℕ} {mms' : List (Mm δ)} {dev dev' : Dev δ},
    moveIter g lba piecePpa ridx i mms dev = .ok (mms', dev') → dev'.validated = dev.validated
  := by
  induction mms with
  | nil =>
      intro i mms' dev dev' hok
      cases hok
      rfl
  | cons mm mms ih =>
      intro i mms' dev dev' hok
      unfold moveIter at hok
      split at hok
      · rw [bind_eq_ok] at hok
        obtain ⟨x, hrest, hret⟩ := hok
        cases hret
        apply ih hrest
      · rw [bind_eq_ok] at hok
        obtain ⟨p, -, hok⟩ := hok
        split at hok
        · simp only [bind_eq_ok] at hok
          obtain ⟨dev₁, hdrop, mm', -, ⟨rest, dev₂⟩, hrest, hret⟩ := hok
          cases hret
          apply (ih hrest).trans (dropOther_validated hdrop)
        · rw [bind_eq_ok] at hok
          obtain ⟨x, hrest, hret⟩ := hok
          cases hret
          apply ih hrest

/-- `__sorting_mm_set` validates nothing. -/
theorem sortingMmSet_validated {targetRound : ℕ} {flag : Bool} (fuel : ℕ) :
  ∀ {st st' : MergeState δ} {prev target : Option ℕ},
    sortingMmSet g targetRound flag fuel prev st = .ok (target, st') →
    st'.dev.validated = st.dev.validated
  := by
  induction fuel with
  | zero =>
      intro st st' prev target hok
      cases hok
  | succ fuel ih =>
      intro st st' prev target hok
      unfold sortingMmSet at hok
      split at hok
      · cases hok
        rfl
      · rw [bind_eq_ok] at hok
        obtain ⟨⟨picked, st₁⟩, hpick, hok⟩ := hok
        have hval := pickSmallestPair_validated _ hpick
        cases picked with
        | none => apply (ih hok).trans hval
        | some x =>
            dsimp only at hok
            split at hok
            · cases hok
              apply hval
            · simp only [bind_eq_ok, require_eq_ok, push] at hok
              obtain ⟨-, -, st₂, ⟨⟨mms, dev⟩, hmove, hret⟩, hrest⟩ := hok
              cases hret
              apply (ih hrest).trans ((moveIter_validated _ hmove).trans hval)

theorem invalidateAll_validated {xs : List (SortedPair × ℕ × δ)} :
  ∀ {dev : Dev δ}, xs.foldlM (invalidateSorted g st) dev = .ok dev' →
    dev'.validated = dev.validated
  := by
  induction xs with
  | nil =>
      intro dev hok
      cases hok
      rfl
  | cons x xs ih =>
      intro dev hok
      simp only [List.foldlM_cons, invalidateSorted, bind_eq_ok] at hok
      obtain ⟨dev₁, ⟨mm, -, hinv⟩, hrest⟩ := hok
      apply (ih hrest).trans (Mm.invalidateTarget_validated hinv)

/-- What the target may still write to is blank. -/
def Allotted (g : Geometry) (others : Set ℕ) (st : MergeState δ) : Prop :=
  st.res.stBody.Allotted g others st.dev

/-- The target has gone on. -/
def Allots (g : Geometry) (others : Set ℕ) (st st' : MergeState δ) : Prop :=
  st'.res.stBody.Allots g others st.dev st'.dev

variable {range : ℕ} {held : List ℕ} {dev₀ : Dev δ} {m : Merging δ}
  {blocks : List (RunType × List Ste)}

theorem sortingMmSet_allots {targetRound fuel : ℕ} {flag : Bool} {prev target : Option ℕ}
    (h : st.Allotted g others)
    (hok : sortingMmSet g targetRound flag fuel prev st = .ok (target, st')) :
  st.Allots g others st'
  := by
  have hquiet := sortingMmSet_quiet fuel h.placed.layout hok
  unfold Allots
  rw [hquiet.res]
  apply StArray.Allotted.quiet h hquiet.dev.layout hquiet.dev.sub (sortingMmSet_validated fuel hok)

/-- The sorted entries are written to the target. -/
theorem flushSorted_allots (h : Sim g blocks st m) (hinv : m.Inv g range held dev₀)
    (hrange : range ≤ uint32Max) (hal : st.Allotted g others)
    (hok : st.flushSorted g = .ok st') :
  st.Allots g others st'
  := by
  unfold flushSorted at hok
  split at hok
  · cases hok
    apply StArray.Allotted.allots hal
  · simp only [sortedArrayFlush, bind_eq_ok] at hok
    obtain ⟨xs, hxs, dev, hdev, ⟨res, sc, dev'⟩, hins, sc', -, hret⟩ := hok
    cases hret
    have hread := readAll_ok h.sorted hxs
    have hclears := invalidateAll_ok hread hdev
    have hquiet := invalidateAll_quiet hal.placed.layout hdev
    rw [foldlM_insertSorted] at hins
    obtain ⟨-, hpairs⟩ := map_readFrom hread
    rw [hpairs] at hins
    have hlbas : ∀ x ∈ m.sorted.map (fun y => (y.2.lba, st.dev.data y.2.psa)),
        x.1 ≤ uint32Max := by
      intro x hx
      obtain ⟨y, hy, rfl⟩ := List.mem_map.mp hx
      have hlt := hinv.out_lt y.2.lba (List.mem_append.mpr (.inr (List.mem_map.mpr ⟨y, hy, rfl⟩)))
      apply (hlt.trans_le hrange).le
    have hh : st.dev.Holds (m.sorted.map (·.2.psa) ++ (st.res.psas ++ st.res.sums ++
        (Merging.left m.srcs ++ (m.sums ++ held)))) := by
      rw [← h.dev, ← h.res]
      apply hinv.holds.perm
      rw [Merging.rest, List.perm_iff_count]
      intro q
      simp only [List.count_append]
      omega
    obtain ⟨hh', -⟩ := Dev.Holds.clears hclears hh
    have hwait := StArray.Allotted.quiet hal hquiet.layout hquiet.sub
      (invalidateAll_validated hdev)
    have hwrite := Run.insertAll_allots _ hlbas (h.res ▸ hinv.opened) hh' hwait.allotted hins
    apply hwait.trans hwrite

theorem trivialMove_allots {ridx : ℕ} (h : Sim g blocks st m) (hinv : m.Inv g range held dev₀)
    (hal : st.Allotted g others) (hok : st.trivialMove g ridx = .ok st') :
  st.Allots g others st'
  := by
  obtain ⟨res, dev, mm, p, steNum, lbas, mm₁, ssi, sc, u, hpad, -, -, -, -, -, rfl⟩ :=
    trivialMove_mf hok
  have hopen : st.res.Open g := h.res ▸ hinv.opened
  have hholds := hinv.holds
  rw [h.dev, h.res] at hholds
  have hclose := Run.paddingCurrentBlock_allots hopen.ready hal hpad
  obtain ⟨-, -, hnil, -⟩ := Run.paddingCurrentBlock_grows hopen hholds hpad
  refine ⟨hclose.allotted.congr ?_ rfl rfl, hclose.sub⟩
  rw [StArray.blockRest_nil hnil]
  apply StArray.blockRest_nil rfl

theorem round_allots {targetRound : ℕ} {force : Bool} (h : Sim g blocks st m)
    (hinv : m.Inv g range held dev₀) (hrange : range ≤ uint32Max) (hal : st.Allotted g others)
    (hok : st.round g targetRound force = .ok st') :
  st.Allots g others st'
  := by
  simp only [round, bind_eq_ok] at hok
  obtain ⟨⟨target, st₁⟩, hsort, st₂, hflush, hok⟩ := hok
  obtain ⟨m₁, hsteps₁, hsim₁, -⟩ := sortingMmSet_ok (fun _ _ => False) _ h hsort
  obtain ⟨m₂, hsteps₂, hsim₂, -⟩ := flushSorted_ok (fun _ _ => False) hsim₁ hflush
  have hinv₁ := hsteps₁.inv hrange hinv
  have hfirst := sortingMmSet_allots hal hsort
  have hsecond := hfirst.trans (flushSorted_allots hsim₁ hinv₁ hrange hfirst.allotted hflush)
  cases target with
  | none =>
      cases hok
      apply hsecond
  | some ridx =>
      apply hsecond.trans (trivialMove_allots hsim₂ (hsteps₂.inv hrange hinv₁) hsecond.allotted hok)

theorem rounds_allots {step : ℕ} {force : Bool} (hrange : range ≤ uint32Max)
    (hnodup : ∀ i j ste, Movable blocks i j ste → ste.lbas.Nodup) (fuel : ℕ) :
  ∀ {targetRound : ℕ} {st : MergeState δ} {m : Merging δ}, Sim g blocks st m →
    m.Inv g range held dev₀ → st.Allotted g others →
    rounds g step force fuel targetRound st = .ok st' → st.Allots g others st'
  := by
  induction fuel with
  | zero =>
      intro targetRound st m _ _ _ hok
      cases hok
  | succ fuel ih =>
      intro targetRound st m h hinv hal hok
      simp only [rounds, bind_eq_ok] at hok
      obtain ⟨st₁, hround, hok⟩ := hok
      have hfirst := round_allots h hinv hrange hal hround
      obtain ⟨m₁, hsteps, h₁, -⟩ := round_steps h hnodup hround
      split at hok
      · cases hok
        apply hfirst
      · apply hfirst.trans (ih h₁ (hsteps.inv hrange hinv) hfirst.allotted hok)

end MergeState

/-- A merge into a new run validates blank pieces of the device, and leaves those of others. -/
theorem Mergeable.runMerge_once {range : ℕ} {held : List ℕ} {others : Set ℕ}
    {rset : List (Run δ)} {idx n : ℕ} {sc : ShortcutMaster} {dev : Dev δ} {mapType : MapType}
    {force : Bool} {st : MergeState δ} (h : Mergeable g range held rset idx sc dev)
    (hrange : range ≤ uint32Max) (hl : dev.Layout g) (hapart : ∀ q ∈ others, q ∉ dev.free g)
    (honce : dev.Once (others ∪ dev.free g))
    (hok : AppL.runMerge g rset (Run.factory g mapType n .runNormal idx) force sc dev = .ok st) :
  dev.Spares g others st.dev
  := by
  simp only [AppL.runMerge, bind_eq_ok] at hok
  obtain ⟨st₀, hstart, st₁, hrounds, ⟨res, dev'⟩, hdone, hret⟩ := hok
  cases hret
  obtain ⟨hsim, -⟩ := MergeState.start_ordered h.inputs h.none hstart
  rw [start_eq h.inputs hstart] at hsim
  have hinv := @Mergeable.beginning_inv _ _ _ _ _ _ _ _ mapType n h
  have hfirst : st₀.Allotted g others ∧ st₀.dev = dev := by
    simp only [MergeState.start, bind_eq_ok] at hstart
    obtain ⟨mms, -, hret⟩ := hstart
    cases hret
    exact ⟨StArray.Allotted.of_nil rfl rfl hl hapart honce, rfl⟩
  have hmerge := MergeState.rounds_allots hrange (fun _ _ _ => h.once.movable) _ hsim hinv hfirst.1
    hrounds
  obtain ⟨m, hsteps, hsim₁, -⟩ := MergeState.rounds_steps (fun _ _ _ => h.once.movable) _ hsim
    hrounds
  have hopened : st₁.res.Open g := hsim₁.res ▸ (hsteps.inv hrange hinv).opened
  obtain ⟨hl', hsub, honce'⟩ := Run.insertDone_allots hopened.ready hmerge.allotted hdone
  exact ⟨hl', hsub.trans (hfirst.2 ▸ hmerge.sub), honce'⟩

/-! ### The steps of the tree -/

namespace Lsmtree

variable {lsm lsm' : Lsmtree δ} {p : Param}

/-- The pieces that the memtable may still write to. -/
def frontPages (g : Geometry) (lsm : Lsmtree δ) : Set ℕ :=
  {q | lsm.phase = .idle ∧ q ∈ lsm.memtable.stBody.metaRest ∪ lsm.memtable.stBody.blockRest g}

/-- No piece has been validated twice, and what the memtable and the device have left has not been
validated. -/
structure ValidatesOnce (g : Geometry) (lsm : Lsmtree δ) : Prop where
  layout : lsm.dev.Layout g
  front : lsm.phase = .idle → lsm.memtable.stBody.Allotted g ∅ lsm.dev
  once : lsm.dev.Once (lsm.frontPages g ∪ lsm.dev.free g)

theorem frontPages_busy (h : lsm.phase ≠ .idle) :
  lsm.frontPages g = ∅
  := by
  rw [Set.eq_empty_iff_forall_notMem]
  rintro q ⟨hidle, -⟩
  apply h hidle

theorem frontPages_idle (h : lsm.phase = .idle) (dev : Dev δ) :
  lsm.frontPages g ∪ dev.free g
    = lsm.memtable.stBody.blank g (∅ ∪ lsm.memtable.stBody.metaRest) dev
  := by
  have hfront : lsm.frontPages g
      = lsm.memtable.stBody.metaRest ∪ lsm.memtable.stBody.blockRest g := by
    ext q
    apply and_iff_right h
  rw [hfront, StArray.blank, Set.empty_union, Set.union_assoc]

theorem ValidatesOnce.of_front (hidle : lsm.phase = .idle)
    (h : lsm.memtable.stBody.Allotted g ∅ lsm.dev) :
  lsm.ValidatesOnce g
  where
    layout := h.placed.layout
    front _ := h
    once := by
      rw [frontPages_idle hidle]
      apply h.once

theorem ValidatesOnce.of_busy (hbusy : lsm.phase ≠ .idle) (hl : lsm.dev.Layout g)
    (h : lsm.dev.Once (∅ ∪ lsm.dev.free g)) :
  lsm.ValidatesOnce g
  where
    layout := hl
    front hidle := absurd hidle hbusy
    once := by
      rw [frontPages_busy hbusy]
      apply h

/-- Other runs write, and the memtable is left alone. -/
theorem ValidatesOnce.spares (h : lsm.ValidatesOnce g)
    (hspares : lsm.dev.Spares g (lsm.frontPages g) lsm'.dev)
    (hmem : lsm'.memtable = lsm.memtable) (hphase : lsm'.phase = .idle ↔ lsm.phase = .idle) :
  lsm'.ValidatesOnce g
  := by
  by_cases hidle : lsm.phase = .idle
  · apply ValidatesOnce.of_front (hphase.mpr hidle)
    rw [hmem]
    have hfront := h.front hidle
    refine ⟨hfront.placed.mono hspares.layout hspares.sub, hfront.apart, hfront.idx, ?_⟩
    rw [← frontPages_idle hidle]
    apply hspares.once
  · have honce := hspares.once
    rw [frontPages_busy hidle] at honce
    apply ValidatesOnce.of_busy (fun hidle' => hidle (hphase.mp hidle')) hspares.layout honce

/-- `run_free` validates nothing. -/
theorem ValidatesOnce.freeRun {r : Run δ} (h : lsm.ValidatesOnce g)
    (hok : lsm.freeRun g r = .ok lsm') :
  lsm'.ValidatesOnce g
  := by
  obtain ⟨sc, dev, hfree, rfl⟩ := freeRun_ok hok
  have hquiet := Run.free_quiet h.layout hfree
  refine h.spares ⟨hquiet.layout, hquiet.sub, ?_⟩ rfl Iff.rfl
  apply h.once.same (Set.union_subset_union_right _ hquiet.sub)
  simp only [Run.free, bind_eq_ok] at hfree
  obtain ⟨dev₁, hsums, hret⟩ := hfree
  cases hret
  apply foldlM_invariant (fun _ dev' => dev'.validated = lsm.dev.validated) _ rfl hsums
  intro ste _ dev₁ dev₂ hval hinv
  apply (Dev.invalidatePiecePpa_validated hinv).trans hval

theorem ValidatesOnce.freeRuns {rs : List (Run δ)} (h : lsm.ValidatesOnce g)
    (hok : rs.foldlM (Lsmtree.freeRun g) lsm = .ok lsm') :
  lsm'.ValidatesOnce g
  := by
  apply foldlM_invariant (fun _ l => Lsmtree.ValidatesOnce g l) _ h hok
  intro r _ lsm₁ lsm₂ h₁ hfree
  apply h₁.freeRun hfree

theorem ValidatesOnce.write {lba : ℕ} {d : δ} (h : lsm.ValidatesOnce g) (hkept : lsm.Kept g p [])
    (hrange : p.range ≤ uint32Max) (hok : lsm.write g lba d = .ok lsm') :
  lsm'.ValidatesOnce g
  := by
  simp only [Lsmtree.write, bind_eq_ok, require_eq_ok] at hok
  obtain ⟨-, ⟨hidle, -⟩, -, hlba, ⟨r, sc, dev⟩, hins, hret⟩ := hok
  cases hret
  obtain ⟨-, items, hlog⟩ := hkept.log hidle
  rw [hkept.param] at hlba
  have hinsert := Run.insert_allots hlog.ready (hlba.trans_le hrange).le (h.front hidle) hins
  exact ValidatesOnce.of_front hidle hinsert.allotted

/-- A merge of some runs of the tree. -/
theorem ValidatesOnce.merge {srcs rest : List (Run δ)} {level idx n : ℕ} {mapType : MapType}
    {force : Bool} {sc : ShortcutMaster} {st : MergeState δ} (h : lsm.ValidatesOnce g)
    (hkept : lsm.Kept g p []) (hrange : p.range ≤ uint32Max)
    (hruns : lsm.runs.Perm (srcs ++ rest)) (hadd : lsm.sc.addRun level = .ok (idx, sc))
    (hok : runMerge g srcs (Run.factory g mapType n .runNormal idx) force sc lsm.dev = .ok st) :
  lsm.dev.Spares g (lsm.frontPages g) st.dev
  := by
  apply (hkept.mergeable hruns hadd).runMerge_once hrange h.layout _ h.once hok
  rintro q ⟨hidle, hq⟩ hfree
  have hplaced := (h.front hidle).placed
  rcases hq with hq | hq
  · apply hplaced.apart q (.inr hq) (.inr hfree)
  · apply hplaced.rest q hq hfree

theorem ValidatesOnce.flush (h : lsm.ValidatesOnce g) (hkept : lsm.Kept g p [])
    (hrange : p.range ≤ uint32Max) (honce : FlushesOnce g lsm .flush)
    (hok : lsm.flush g = .ok lsm') :
  lsm'.ValidatesOnce g
  := by
  simp only [Lsmtree.flush, bind_eq_ok, require_eq_ok, orThrow_eq_ok] at hok
  obtain ⟨-, ⟨hidle, -⟩, lev, -, ⟨r, dev⟩, hdone, ⟨target, sc⟩, hpop, st, hmerge, lev', -,
    hret⟩ := hok
  cases hret
  obtain ⟨idx, hadd, rfl⟩ := populateNormal_ok hpop
  obtain ⟨-, hable⟩ := hkept.insertDone hrange hidle honce hdone hadd
  obtain ⟨-, items, hlog⟩ := hkept.log hidle
  obtain ⟨hl, -, hdoneOnce⟩ := Run.insertDone_allots hlog.ready (h.front hidle) hdone
  obtain ⟨hl', -, hmergeOnce⟩ := hable.runMerge_once hrange hl (fun _ hq => hq.elim) hdoneOnce
    hmerge
  refine ValidatesOnce.of_busy ?_ hl' hmergeOnce
  simp

theorem ValidatesOnce.rebuild {pos : ℕ} (h : lsm.ValidatesOnce g) (hkept : lsm.Kept g p [])
    (hrange : p.range ≤ uint32Max) (hok : lsm.rebuild g pos = .ok lsm') :
  lsm'.ValidatesOnce g
  := by
  simp only [Lsmtree.rebuild, bind_eq_ok, orThrow_eq_ok] at hok
  obtain ⟨lev, hlev, src, hsrc, ⟨target, sc⟩, hpop, st, hmerge, lev', -, hfree⟩ := hok
  obtain ⟨idx, hadd, rfl⟩ := populateNormal_ok hpop
  obtain ⟨rest, hruns, -⟩ := runs_perm hlev hsrc
  refine ValidatesOnce.freeRuns ?_ hfree
  exact h.spares (h.merge hkept hrange hruns hadd hmerge) rfl Iff.rfl

theorem ValidatesOnce.compactLevel {diskIdx first second : ℕ} {lev : Level δ}
    (h : lsm.ValidatesOnce g) (hkept : lsm.Kept g p []) (hrange : p.range ≤ uint32Max)
    (hbusy : lsm.phase ≠ .idle) (hlev : lsm.disk[diskIdx]? = some lev)
    (hok : lsm.compactLevel g diskIdx first second lev = .ok lsm') :
  lsm'.ValidatesOnce g
  := by
  simp only [Lsmtree.compactLevel, bind_eq_ok, orThrow_eq_ok] at hok
  obtain ⟨desLev, hdes, ⟨srcs, rest⟩, htarget, ⟨target, sc⟩, hpop, st, hmerge, desLev', hins,
    hfree⟩ := hok
  obtain ⟨idx, hadd, rfl⟩ := populateNormal_ok hpop
  obtain ⟨stay, hruns, -⟩ := compacted_runs hlev hdes htarget (stay_perm srcs.length _) hins
  refine ValidatesOnce.freeRuns ?_ hfree
  refine h.spares (h.merge hkept hrange hruns hadd hmerge) rfl ?_
  use fun hidle => absurd hidle (phase_ne_idle _ _), fun hidle => absurd hidle hbusy

theorem ValidatesOnce.compact {first second : ℕ} (h : lsm.ValidatesOnce g)
    (hkept : lsm.Kept g p []) (hrange : p.range ≤ uint32Max)
    (hok : lsm.compact g first second = .ok lsm') :
  lsm'.ValidatesOnce g
  := by
  unfold Lsmtree.compact at hok
  split at hok
  · rename_i diskIdx hphase
    have hbusy : lsm.phase ≠ .idle := by simp [hphase]
    rw [bind_eq_ok] at hok
    obtain ⟨lev, hlev, hok⟩ := hok
    split at hok
    · apply h.compactLevel hkept hrange hbusy (orThrow_eq_ok.mp hlev) hok
    · cases hok
      have honce := h.once
      rw [frontPages_busy hbusy] at honce
      refine ValidatesOnce.of_busy ?_ h.layout honce
      simp
  · cases hok

theorem ValidatesOnce.finish (h : lsm.ValidatesOnce g) (hok : lsm.finish g = .ok lsm') :
  lsm'.ValidatesOnce g
  := by
  simp only [Lsmtree.finish, bind_eq_ok, require_eq_ok] at hok
  obtain ⟨-, hphase, lsm₁, hfree, ⟨memtable, sc⟩, hpop, hret⟩ := hok
  cases hret
  have h₁ := h.freeRun hfree
  obtain ⟨sc₁, dev₁, -, rfl⟩ := freeRun_ok hfree
  simp only [populateLog, bind_eq_ok] at hpop
  obtain ⟨⟨idx, sc'⟩, -, hpop⟩ := hpop
  cases hpop
  apply ValidatesOnce.of_front rfl
  refine StArray.Allotted.of_nil rfl rfl h₁.layout (fun _ hq => hq.elim) ?_
  apply h₁.once.same _ rfl
  apply Set.union_subset_union_left _ (Set.empty_subset _)

theorem ValidatesOnce.step {op : LsmOp δ} (h : lsm.ValidatesOnce g) (hkept : lsm.Kept g p [])
    (hrange : p.range ≤ uint32Max) (honce : FlushesOnce g lsm op)
    (hok : lsm.step g op = .ok lsm') :
  lsm'.ValidatesOnce g
  := by
  cases op with
  | write lba d => apply h.write hkept hrange hok
  | flush => apply h.flush hkept hrange honce hok
  | compact first second => apply h.compact hkept hrange hok
  | force pos =>
      simp only [Lsmtree.step, Lsmtree.force, bind_eq_ok] at hok
      obtain ⟨-, -, hok⟩ := hok
      apply h.rebuild hkept hrange hok
  | finish => apply h.finish hok
  | cleanLastLevel pos =>
      simp only [Lsmtree.step, Lsmtree.cleanLastLevel, bind_eq_ok] at hok
      obtain ⟨-, -, hok⟩ := hok
      apply h.rebuild hkept hrange hok

theorem validatesOnce_init {blank : δ} (h : init g p blank = .ok lsm) :
  lsm.ValidatesOnce g
  := by
  simp only [init, populateLog, bind_eq_ok] at h
  obtain ⟨⟨memtable, sc⟩, ⟨⟨idx, sc'⟩, -, hpop⟩, hret⟩ := h
  cases hpop
  cases hret
  apply ValidatesOnce.of_front rfl
  apply StArray.Allotted.of_nil rfl rfl Dev.layout_init fun _ hq => hq.elim
  exact ⟨fun _ => Nat.zero_le _, fun _ _ => rfl⟩

/-- The run lemma. -/
theorem ValidatesOnce.run {ops : List (LsmOp δ)} (h : lsm.ValidatesOnce g) (hkept : lsm.Kept g p [])
    (hrange : p.range ≤ uint32Max) (honce : Guarded (Lsmtree.step g) (FlushesOnce g) lsm ops)
    (hrun : Transition.run (Lsmtree.step g) lsm ops = .ok lsm') :
  lsm'.ValidatesOnce g
  := by
  refine (run_invariant (fun _ l => l.ValidatesOnce g ∧ l.Kept g p []) ?_ (h := []) ⟨h, hkept⟩
    honce hrun).1
  rintro _ s op s' ⟨hs, hkept⟩ hguard hstep
  exact ⟨hs.step hkept hrange hguard hstep, hkept.step hrange hguard hstep⟩

/-- What has become of a piece: it has never been validated, it is valid and an entry or a summary
page of one of the runs, or it has been invalidated once. -/
inductive Settled (g : Geometry) (lsm : Lsmtree δ) (q : ℕ) : Prop where
  | blank (hval : lsm.dev.validated q = 0) (hinv : lsm.dev.invalidated q = 0)
      (hbit : lsm.dev.bit q = false)
  | valid (hval : lsm.dev.validated q = 1) (hinv : lsm.dev.invalidated q = 0)
      (hbit : lsm.dev.bit q = true)
      (hheld : (∃ r ∈ lsm.live, q ∈ r.mergePieces g) ∨ ∃ r ∈ lsm.merged, q ∈ r.ownSums)
  | invalid (hval : lsm.dev.validated q = 1) (hinv : lsm.dev.invalidated q = 1)
      (hbit : lsm.dev.bit q = false)

theorem ValidatesOnce.settled (h : lsm.ValidatesOnce g) (hbal : lsm.dev.Balanced g)
    (hholds : lsm.dev.Holds
      (lsm.live.flatMap (Run.mergePieces g) ++ lsm.merged.flatMap Run.ownSums)) (q : ℕ) :
  lsm.Settled g q
  := by
  have hpiece := hbal.piece q
  have honce := h.once.once q
  cases hbit : lsm.dev.bit q with
  | false =>
      rw [hbit] at hpiece
      simp only [Bool.false_eq_true, if_false, Nat.add_zero] at hpiece
      rcases Nat.le_one_iff_eq_zero_or_eq_one.mp honce with hval | hval
      · apply Settled.blank hval (hpiece.symm.trans hval) hbit
      · apply Settled.invalid hval (hpiece.symm.trans hval) hbit
  | true =>
      rw [hbit] at hpiece
      simp only [if_true] at hpiece
      apply Settled.valid (by omega) (by omega) hbit
      rcases List.mem_append.mp ((hholds.mem q).mp hbit) with hq | hq
      · left
        apply List.mem_flatMap.mp hq
      · right
        apply List.mem_flatMap.mp hq

/-- In a run in which no block that a flush moves as a whole has an lba twice, however it ends, no
invalidation meets a piece that is not valid.  Every piece has been validated at most once, and
it is valid exactly as long as a run has it; otherwise it has been invalidated exactly once.  The
counters of every segment differ by the number of its valid pieces. -/
theorem pieces_settled {blank : δ} {lsm₀ : Lsmtree δ} {ops : List (LsmOp δ)}
    (hrange : p.range ≤ uint32Max) (hinit : init g p blank = .ok lsm₀)
    (honce : Guarded (Lsmtree.step g) (FlushesOnce g) lsm₀ ops) :
  Meets (fun e => e ≠ .bitError ∧ e ≠ .doubleDelete ∧ e ≠ .invalidateMap)
    (fun lsm => (∀ q, lsm.Settled g q) ∧
      ∀ s, ((lsm.dev.bm.segment s).validatePieceNum : ℤ) - (lsm.dev.bm.segment s).invalidatePieceNum
        = lsm.dev.validNum g s)
    (Transition.run (Lsmtree.step g) lsm₀ ops)
  := by
  have hruns := meets_run (I := fun lsm : Lsmtree δ => lsm.Kept g p [] ∧ lsm.ValidatesOnce g)
    (fun _ _ h hguard => (h.1.step_meets hrange hguard).with_ok fun _ hok =>
      h.2.step h.1 hrange hguard hok) ⟨kept_init hinit, validatesOnce_init hinit⟩ honce
  refine (hruns.mono ?_).of_errors ?_
  · rintro lsm ⟨hkept, hvalid⟩
    have hbal := hkept.books.balanced
    use hvalid.settled hbal hkept.books.holds
    intro s
    rw [hbal.segment s]
    omega
  · intro e he
    refine ⟨?_, ?_, ?_⟩
    · rintro rfl
      cases he
    · rintro rfl
      cases he
    · rintro rfl
      cases he

theorem pieces_settled_mergeTwo :
  ∃ lsm₀ lsm, init tinyGeometry tinyParam 0 = .ok lsm₀ ∧
    Transition.run (Lsmtree.step tinyGeometry) lsm₀ mergeTwo = .ok lsm ∧
    lsm.live.map (·.nowEntryNum) = [0, 23] ∧ (∀ q, lsm.Settled tinyGeometry q) ∧
    ∀ s, ((lsm.dev.bm.segment s).validatePieceNum : ℤ) - (lsm.dev.bm.segment s).invalidatePieceNum
      = lsm.dev.validNum tinyGeometry s
  := by
  obtain ⟨lsm₀, lsm, hinit, honce, hrun, -, hlive⟩ := mergeTwo_guarded
  have hrange : tinyParam.range ≤ uint32Max := by decide
  have hmeets := pieces_settled hrange hinit honce
  rw [hrun] at hmeets
  use lsm₀, lsm, hinit, hrun, hlive, hmeets.1, hmeets.2

/-- The pieces of the lbas 20 to 23 stay valid when the run with the index 4 is freed, although no
other run has them. -/
theorem unsettled_orphanTwice :
  ∃ lsm₀ lsm, init tinyGeometry spareParam 0 = .ok lsm₀ ∧
    Transition.run (Lsmtree.step tinyGeometry) lsm₀ orphanTwice = .ok lsm ∧
    4 ∈ lsm.freed.map (·.1) ∧
    ∀ q ∈ [72, 73, 74, 75], lsm.dev.bit q = true ∧ lsm.dev.invalidated q = 0 ∧
      (∀ r ∈ lsm.live, q ∉ r.mergePieces tinyGeometry) ∧ ∀ r ∈ lsm.merged, q ∉ r.ownSums
  := by
  have hview : (init tinyGeometry spareParam 0).map (fun lsm₀ =>
      (Transition.run (Lsmtree.step tinyGeometry) lsm₀ orphanTwice).map fun lsm =>
        decide (4 ∈ lsm.freed.map (·.1) ∧
          ∀ q ∈ [72, 73, 74, 75], lsm.dev.bit q = true ∧ lsm.dev.invalidated q = 0 ∧
            (∀ r ∈ lsm.live, q ∉ r.mergePieces tinyGeometry) ∧ ∀ r ∈ lsm.merged, q ∉ r.ownSums))
      = .ok (.ok true) := by
    decide +kernel
  obtain ⟨lsm₀, hinit, hview⟩ := map_eq_ok hview
  obtain ⟨lsm, hrun, hview⟩ := map_eq_ok hview
  exact ⟨lsm₀, lsm, hinit, hrun, of_decide_eq_true hview⟩

end Lsmtree

end AppL
