import AppL.Lib.WriteOnce
import AppL.Lsm.Log

/-!
# Where pages are written

Blocks are taken from the current data segment and pages from the current summary segment, and
every segment is new when it becomes current.  So the blank part of the flash is what has not been
handed out, and the rest of the block that a run is filling; every page that a run writes is taken
from there.
-/

namespace AppL

open Transition WriteOnce

variable {δ : Type} {g : Geometry}

/-! ### Segments -/

namespace Dev

variable {dev dev' : Dev δ}

/-- The pieces of the blocks and the pages that have not been handed out. -/
def free (g : Geometry) (dev : Dev δ) : Set ℕ :=
  {q | dev.freshSeg ≤ g.sid q ∨
    (dev.nowSegIdx = some (g.sid q) ∧ dev.nowBlockIdx ≤ g.bid q % g.bps) ∨
    (dev.nowSummarySeg = g.sid q ∧ dev.summaryPageNum ≤ q / l2pgap % g.pps)}

/-- The current segments have been handed out, are different, and the data segment has a block
left. -/
structure Layout (g : Geometry) (dev : Dev δ) : Prop where
  summary_lt : dev.nowSummarySeg < dev.freshSeg
  seg : ∀ s, dev.nowSegIdx = some s →
    s < dev.freshSeg ∧ s ≠ dev.nowSummarySeg ∧ dev.nowBlockIdx < g.bps
  page_le : dev.summaryPageNum ≤ g.pps

/-- What a piece has: its data and the lba in its out-of-band area. -/
def cell (dev : Dev δ) (q : ℕ) : δ × ℕ := (dev.data q, dev.bm.oob q)

/-- Nothing is written, but blocks and pages may be handed out. -/
structure Quiet (g : Geometry) (dev dev' : Dev δ) : Prop where
  layout : dev'.Layout g
  sub : dev'.free g ⊆ dev.free g
  cell : dev'.cell = dev.cell

theorem Quiet.refl (h : dev.Layout g) :
  dev.Quiet g dev
  := ⟨h, Set.Subset.refl _, rfl⟩

theorem Quiet.trans {dev'' : Dev δ} (h : dev.Quiet g dev') (h' : dev'.Quiet g dev'') :
  dev.Quiet g dev''
  := ⟨h'.layout, h'.sub.trans h.sub, h'.cell.trans h.cell⟩

/-- The run lemma of a sequence of such steps. -/
theorem quiet_of_foldlM {α : Type} {f : Dev δ → α → Except Abort (Dev δ)}
    (hf : ∀ dev a dev', dev.Layout g → f dev a = .ok dev' → dev.Quiet g dev') (l : List α) :
  ∀ {dev dev' : Dev δ}, dev.Layout g → l.foldlM f dev = .ok dev' → dev.Quiet g dev'
  := by
  induction l with
  | nil =>
      intro dev dev' hl h
      cases h
      apply Quiet.refl hl
  | cons a l ih =>
      intro dev dev' hl h
      rw [List.foldlM_cons, bind_eq_ok] at h
      obtain ⟨dev₁, hfst, hrest⟩ := h
      have hquiet := hf dev a dev₁ hl hfst
      apply hquiet.trans (ih hquiet.layout hrest)

/-- Nothing is handed out. -/
structure SamePool (dev dev' : Dev δ) : Prop where
  freshSeg : dev'.freshSeg = dev.freshSeg
  nowSegIdx : dev'.nowSegIdx = dev.nowSegIdx
  nowBlockIdx : dev'.nowBlockIdx = dev.nowBlockIdx
  nowSummarySeg : dev'.nowSummarySeg = dev.nowSummarySeg
  summaryPageNum : dev'.summaryPageNum = dev.summaryPageNum

theorem SamePool.free (h : dev.SamePool dev') :
  dev'.free g = dev.free g
  := by
  rw [Dev.free, Dev.free, h.freshSeg, h.nowSegIdx, h.nowBlockIdx, h.nowSummarySeg,
    h.summaryPageNum]

theorem SamePool.layout (h : dev.SamePool dev') (hl : dev.Layout g) :
  dev'.Layout g
  := by
  refine ⟨?_, ?_, ?_⟩
  · rw [h.nowSummarySeg, h.freshSeg]
    apply hl.summary_lt
  · rw [h.nowSegIdx, h.freshSeg, h.nowSummarySeg, h.nowBlockIdx]
    apply hl.seg
  · rw [h.summaryPageNum]
    apply hl.page_le

theorem SamePool.quiet (h : dev.SamePool dev') (hcell : dev'.cell = dev.cell)
    (hl : dev.Layout g) :
  dev.Quiet g dev'
  := ⟨h.layout hl, h.free.subset, hcell⟩

theorem layout_init {blank : δ} :
  (Dev.init g blank).Layout g
  := ⟨Nat.zero_lt_one, nofun, Nat.zero_le _⟩

theorem eq_segment_iff {b seg block n : ℕ} (h : block < n) :
  b = seg * n + block ↔ b / n = seg ∧ b % n = block
  := by
  constructor
  · rintro rfl
    have hn : 0 < n := by omega
    rw [Nat.mul_comm, Nat.mul_add_div hn, Nat.div_eq_of_lt h, Nat.mul_add_mod,
      Nat.mod_eq_of_lt h]
    exact ⟨Nat.add_zero _, rfl⟩
  · rintro ⟨rfl, rfl⟩
    apply (Nat.div_add_mod' b n).symm

/-- The block that is handed out is free, and then no other piece is less free than before. -/
theorem pickEmptyPba_free (h : dev.Layout g) :
  (dev.pickEmptyPba g).2.Layout g ∧
    (∀ q, g.bid q = (dev.pickEmptyPba g).1 / g.ppb → q ∈ dev.free g) ∧
    ∀ q, q ∈ (dev.pickEmptyPba g).2.free g ↔
      q ∈ dev.free g ∧ g.bid q ≠ (dev.pickEmptyPba g).1 / g.ppb
  := by
  have hdiv : ∀ seg block, (seg * g.pps + block * g.ppb) / g.ppb = seg * g.bps + block := by
    intro seg block
    rw [Geometry.pps, Nat.mul_comm g.ppb, ← Nat.mul_assoc, ← Nat.add_mul,
      Nat.mul_div_cancel _ g.ppb_pos]
  have hbps := g.bps_pos
  have hsum := h.summary_lt
  cases hseg : dev.nowSegIdx with
  | none =>
      simp only [pickEmptyPba, hseg, Option.getD_none, if_true, hdiv, Nat.zero_add]
      refine ⟨⟨Nat.lt_succ_of_lt hsum, ?_, h.page_le⟩, ?_, ?_⟩
      · intro s hs
        dsimp only at hs ⊢
        split at hs
        · cases hs
        · cases hs
          omega
      · intro q hq
        rw [eq_segment_iff hbps] at hq
        left
        apply Nat.le_of_eq hq.1.symm
      · intro q
        rw [Ne, eq_segment_iff hbps]
        have hmod := Nat.mod_lt (g.bid q) hbps
        simp only [free, hseg, Set.mem_ofPred_eq, reduceCtorEq, false_and, false_or]
        change _ ↔ _ ∧ ¬ (g.sid q = _ ∧ _)
        split
        · rename_i hone
          simp only [reduceCtorEq, false_and, false_or]
          omega
        · simp only [Option.some.injEq]
          omega
  | some s =>
      obtain ⟨hlt, hne, hblock⟩ := h.seg s hseg
      simp only [pickEmptyPba, hseg, Option.getD_some, reduceCtorEq, if_false, hdiv]
      refine ⟨⟨hsum, ?_, h.page_le⟩, ?_, ?_⟩
      · intro s' hs'
        dsimp only at hs' ⊢
        split at hs'
        · cases hs'
        · cases hs'
          omega
      · intro q hq
        rw [eq_segment_iff hblock] at hq
        right
        left
        use hseg.trans (congrArg some hq.1.symm), Nat.le_of_eq hq.2.symm
      · intro q
        rw [Ne, eq_segment_iff hblock]
        have hmod := Nat.mod_lt (g.bid q) hbps
        simp only [free, hseg, Set.mem_ofPred_eq, Option.some.injEq]
        change _ ↔ _ ∧ ¬ (g.sid q = _ ∧ _)
        split
        · rename_i hlast
          simp only [reduceCtorEq, false_and, false_or]
          omega
        · simp only [Option.some.injEq]
          omega

/-- A page for summaries is handed out. -/
theorem getMapPpa_quiet (h : dev.Layout g) :
  dev.Quiet g (dev.getMapPpa g).2
  := by
  have hsum := h.summary_lt
  have hpps := g.pps_pos
  unfold getMapPpa
  split
  · refine ⟨⟨Nat.lt_succ_self _, ?_, hpps⟩, ?_, rfl⟩
    · intro s hs
      obtain ⟨hlt, -, hblock⟩ := h.seg s hs
      use Nat.lt_succ_of_lt hlt, Nat.ne_of_lt hlt, hblock
    · rintro q (hq | hq | ⟨hq, -⟩)
      · left
        apply Nat.le_of_succ_le hq
      · right
        left
        apply hq
      · left
        apply Nat.le_of_eq hq
  · rename_i hne
    refine ⟨⟨hsum, h.seg, Nat.lt_of_le_of_ne h.page_le hne⟩, ?_, rfl⟩
    rintro q (hq | hq | ⟨hq, hle⟩)
    · left
      apply hq
    · right
      left
      apply hq
    · right
      right
      use hq, Nat.le_of_succ_le hle

theorem validatePiecePpa_pool {e : Abort} {q : ℕ} (h : dev.validatePiecePpa g e q = .ok dev') :
  dev.SamePool dev' ∧ dev'.cell = dev.cell
  := by
  unfold validatePiecePpa at h
  split at h
  · cases h
    exact ⟨⟨rfl, rfl, rfl, rfl, rfl⟩, rfl⟩
  · cases h

theorem invalidatePiecePpa_pool {e : Abort} {q : ℕ} {force : Bool}
    (h : dev.invalidatePiecePpa g e q force = .ok dev') :
  dev.SamePool dev' ∧ dev'.cell = dev.cell
  := by
  unfold invalidatePiecePpa at h
  split at h
  · cases h
  · cases h
    exact ⟨⟨rfl, rfl, rfl, rfl, rfl⟩, rfl⟩

/-- A page that is written is not handed out once more. -/
theorem issueWrite_pool {ppa : ℕ} {values : List δ} {oob : List ℕ} :
  dev.SamePool (dev.issueWrite ppa values oob)
  := ⟨rfl, rfl, rfl, rfl, rfl⟩

end Dev

/-! ### Blocks -/

/-- The pieces of a block. -/
theorem bid_block {pba k : ℕ} (hdvd : g.ppb ∣ pba) (hk : k < g.maxSectorInBlock) :
  g.bid (pba * l2pgap + k) = pba / g.ppb
  := by
  obtain ⟨b, rfl⟩ := hdvd
  have hlt : k / l2pgap < g.ppb := Nat.div_lt_of_lt_mul (Nat.mul_comm _ l2pgap ▸ hk)
  rw [Geometry.bid, Nat.mul_comm _ l2pgap, Nat.mul_add_div (by decide),
    Nat.mul_add_div g.ppb_pos, Nat.div_eq_of_lt hlt, Nat.mul_div_cancel_left b g.ppb_pos,
    Nat.add_zero]

namespace StArray

/-- The rest of the block that is being filled. -/
def blockRest (g : Geometry) (sa : StArray) : Set ℕ :=
  {q | sa.cur.page ≠ [] ∧ g.bid q = sa.cur.pba / g.ppb ∧
    sa.cur.pba * l2pgap + sa.cur.page.length ≤ q}

/-- The pieces that may still be written: those of the table, those that have not been handed
out, and those that are left to `others`. -/
def blank (g : Geometry) (others : Set ℕ) (sa : StArray) (dev : Dev δ) : Set ℕ :=
  others ∪ (sa.blockRest g ∪ dev.free g)

/-- The blank pieces of the table, of the others and of the device are different ones. -/
structure Placed (g : Geometry) (others : Set ℕ) (sa : StArray) (dev : Dev δ) : Prop where
  layout : dev.Layout g
  rest : ∀ q ∈ sa.blockRest g, q ∉ dev.free g
  apart : ∀ q ∈ others, q ∉ sa.blockRest g ∪ dev.free g

variable {others : Set ℕ} {sa : StArray} {dev dev' : Dev δ}

theorem blockRest_nil (h : sa.cur.page = []) :
  sa.blockRest g = ∅
  := by
  rw [Set.eq_empty_iff_forall_notMem]
  rintro q ⟨hne, -⟩
  apply hne h

/-- A table whose current block has not been begun. -/
theorem Placed.of_nil (h : sa.cur.page = []) (hl : dev.Layout g)
    (hapart : ∀ q ∈ others, q ∉ dev.free g) :
  sa.Placed g others dev
  := by
  refine ⟨hl, ?_, ?_⟩
  · rw [blockRest_nil h]
    exact fun _ hq => hq.elim
  · rw [blockRest_nil h, Set.empty_union]
    apply hapart

/-- When less is left to hand out, the blank pieces stay different ones. -/
theorem Placed.mono (h : sa.Placed g others dev) (hl : dev'.Layout g)
    (hsub : dev'.free g ⊆ dev.free g) :
  sa.Placed g others dev'
  where
    layout := hl
    rest q hq hfree := h.rest q hq (hsub hfree)
    apart q hq hq' := h.apart q hq (Set.union_subset_union_right _ hsub hq')

end StArray

namespace Run

variable {r r' : Run δ} {dev dev' : Dev δ} {others : Set ℕ}

theorem logInsert_pool {lba offset : ℕ} {tree : TreeMap}
    (h : r.logInsert g dev lba offset = .ok (tree, dev')) :
  dev.SamePool dev' ∧ dev'.cell = dev.cell
  := by
  unfold logInsert at h
  split at h
  · cases h
    exact ⟨⟨rfl, rfl, rfl, rfl, rfl⟩, rfl⟩
  · simp only [bind_eq_ok, require_eq_ok] at h
    obtain ⟨-, -, h⟩ := h
    split at h
    · cases h
      exact ⟨⟨rfl, rfl, rfl, rfl, rfl⟩, rfl⟩
    · simp only [bind_eq_ok] at h
      obtain ⟨dev₁, hinv, hret⟩ := h
      cases hret
      apply Dev.invalidatePiecePpa_pool hinv

/-- The block that the next piece lies in, the current one or a new one, is blank from there
on. -/
theorem writeTranslation_blank {psa : ℕ} (hr : r.stBody.Filling g)
    (hp : r.stBody.Placed g others dev) (h : r.writeTranslation g dev = .ok (psa, r', dev')) :
  dev.Quiet g dev' ∧ ∀ q, g.bid q = r'.stBody.cur.pba / g.ppb → psa ≤ q →
    q ∈ r.stBody.blockRest g ∪ dev.free g ∧ q ∉ dev'.free g
  := by
  simp only [writeTranslation, bind_eq_ok, require_eq_ok] at h
  obtain ⟨-, halert, h⟩ := h
  have hlt : r.stBody.cur.page.length < g.maxSectorInBlock := by
    apply lt_of_le_of_ne hr.le
    intro heq
    rw [hr.alert.mpr heq] at halert
    cases halert
  rw [hr.inblock, Nat.mod_eq_of_lt hlt] at h
  split at h
  · cases h
    obtain ⟨hl, hnew, hfree⟩ := Dev.pickEmptyPba_free hp.layout
    use ⟨hl, fun q hq => ((hfree q).mp hq).1, rfl⟩
    intro q hq _
    use .inr (hnew q hq), fun hq' => ((hfree q).mp hq').2 hq
  · rename_i hne
    cases h
    use Dev.Quiet.refl hp.layout
    intro q hq hle
    have hrest : q ∈ r.stBody.blockRest g :=
      ⟨fun hnil => hne (by rw [hnil]; rfl), hq, hle⟩
    use .inl hrest, hp.rest q hrest

/-- A piece is taken from the blank ones, and its block is blank from there on.  The rest of the
block is left to the table. -/
theorem writePiece_blank {lba psa : ℕ} (hr : r.stBody.Filling g) (hlba : lba ≤ uint32Max)
    (hp : r.stBody.Placed g others dev) (h : r.writePiece g dev lba = .ok (psa, r', dev')) :
  r'.stBody.Placed g others dev' ∧ dev.Quiet g dev' ∧
    r'.stBody.blank g others dev' ⊆ r.stBody.blank g others dev ∧
    ∀ q, g.bid q = r'.stBody.cur.pba / g.ppb → psa ≤ q →
      q ∈ r.stBody.blank g others dev ∧ q ∉ others ∪ dev'.free g
  := by
  obtain ⟨pba, -, -, happ, hpsa, -⟩ := writePiece_ok hr hlba h
  simp only [writePiece, bind_eq_ok] at h
  obtain ⟨⟨psa, r₁, dev₀⟩, htr, dev₁, hval, ⟨tree, dev₂⟩, hlog, sa, hins, hret⟩ := h
  cases hret
  dsimp only at hval hlog hins happ hpsa ⊢
  obtain ⟨hquiet, hrest⟩ := writeTranslation_blank hr hp htr
  obtain ⟨hpool₁, hcell₁⟩ := Dev.validatePiecePpa_pool hval
  obtain ⟨hpool₂, hcell₂⟩ := logInsert_pool hlog
  obtain ⟨-, -, rfl⟩ := insertPair_ok hins
  have hquiet₁ := hpool₁.quiet hcell₁ hquiet.layout
  have hquiet' := hquiet.trans (hquiet₁.trans (hpool₂.quiet hcell₂ hquiet₁.layout))
  have hfree : dev₂.free g = dev₀.free g := hpool₂.free.trans hpool₁.free
  have hlen := congrArg List.length happ.page
  rw [List.length_append, List.length_singleton] at hlen
  have hnew : ∀ q, g.bid q = r₁.stBody.cur.pba / g.ppb → psa ≤ q →
      q ∈ r.stBody.blockRest g ∪ dev.free g ∧ q ∉ dev₂.free g := by
    rw [hfree]
    apply hrest
  have hblock : ∀ q, q ∈ StArray.blockRest g { r₁.stBody with
      cur := r₁.stBody.steInsert r₁.stBody.cur r₁.stBody.inblockWritePointer ⟨lba, psa⟩
      writing := true
      inblockWritePointer := r₁.stBody.inblockWritePointer + 1
      globalWritePointer := r₁.stBody.globalWritePointer + 1
      summaryWriteAlert := (r₁.stBody.inblockWritePointer + 1) % g.maxSectorInBlock == 0 } →
      q ∈ r.stBody.blockRest g ∪ dev.free g ∧ q ∉ dev₂.free g := by
    rintro q ⟨-, hq, hle⟩
    rw [hlen, happ.cur_pba] at hle
    apply hnew q hq (by omega)
  refine ⟨⟨hquiet'.layout, fun q hq => (hblock q hq).2, ?_⟩, hquiet', ?_, ?_⟩
  · rintro q hq (hq' | hq')
    · apply hp.apart q hq (hblock q hq').1
    · apply hp.apart q hq (.inr (hquiet'.sub hq'))
  · rintro q (hq | hq | hq)
    · left
      apply hq
    · right
      apply (hblock q hq).1
    · right
      right
      apply hquiet'.sub hq
  · intro q hq hle
    use .inr (hnew q hq hle).1
    rintro (hq' | hq')
    · apply hp.apart q hq' (hnew q hq hle).1
    · apply (hnew q hq hle).2 hq'

/-- The pieces of a page are taken from the blank ones, together with what is behind them in their
block. -/
theorem writePieces_blank {lbas psas : List ℕ} (hlbas : ∀ lba ∈ lbas, lba ≤ uint32Max) :
  ∀ {r : Run δ} {dev : Dev δ}, r.stBody.Filling g → r.stBody.Placed g others dev →
    writePieces g lbas r dev = .ok (psas, r', dev') →
    ∃ pba, r'.stBody.Filling g ∧ r.Appends r' pba (lbas.zipWith SummaryPair.mk psas) ∧
      psas = pieces pba r.stBody.cur.page.length lbas.length ∧
      r'.stBody.Placed g others dev' ∧ dev.Quiet g dev' ∧
      r'.stBody.blank g others dev' ⊆ r.stBody.blank g others dev ∧
      (lbas ≠ [] → ∀ q, g.bid q = pba / g.ppb →
        pba * l2pgap + r.stBody.cur.page.length ≤ q →
        q ∈ r.stBody.blank g others dev ∧ q ∉ others ∪ dev'.free g)
  := by
  induction lbas generalizing psas with
  | nil =>
      intro r dev hr hp h
      cases h
      exact ⟨_, hr, Appends.refl _, rfl, hp, Dev.Quiet.refl hp.layout, Set.Subset.refl _,
        fun h => absurd rfl h⟩
  | cons lba lbas ih =>
      intro r dev hr hp h
      simp only [writePieces, bind_eq_ok] at h
      obtain ⟨⟨psa, r₁, dev₁⟩, hfst, ⟨psas, r₂, dev₂⟩, hrest, hret⟩ := h
      cases hret
      dsimp only at hrest
      have hlba := hlbas lba List.mem_cons_self
      obtain ⟨pba, -, hfill, happ, hpsa, -⟩ := writePiece_ok hr hlba hfst
      obtain ⟨hp₁, hquiet, hsub, hnew⟩ := writePiece_blank hr hlba hp hfst
      obtain ⟨pba', hfill', happ', hpsas, hp', hquiet', hsub', -⟩ :=
        ih (fun l hl => hlbas l (List.mem_cons_of_mem _ hl)) hfill hp₁ hrest
      refine ⟨pba, hfill', happ.trans happ' (by simp), ?_, hp', hquiet.trans hquiet',
        hsub'.trans hsub, ?_⟩
      · cases lbas with
        | nil => simpa [pieces, hpsa] using hpsas
        | cons l ls =>
            have hne : r₁.stBody.cur.page ≠ [] := by simp [happ.page]
            have hpba : pba' = pba := by rw [happ'.pba_eq hne, happ.cur_pba]
            rw [List.length_cons, pieces_succ, ← hpsa, hpsas, hpba, happ.page]
            simp
      · intro _ q hq hle
        rw [← happ.cur_pba] at hq
        rw [← hpsa] at hle
        obtain ⟨hblank, hout⟩ := hnew q hq hle
        use hblank, fun hq' => hout (Set.union_subset_union_right _ hquiet'.sub hq')

end Run

end AppL
