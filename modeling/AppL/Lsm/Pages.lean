import AppL.Lsm.Merging
import AppL.Lsm.Placement

/-!
# What a run has written

Every page of a run carries the lbas of its pieces in its out-of-band area, and the mapping
function of a block has the lbas of the block at the places where they are.  Both are laid down
when the page is written, and nothing changes them later.
-/

namespace AppL

open Transition WriteOnce

variable {δ : Type} {g : Geometry}

/-- The mapping functions that are kept in memory as a whole. -/
def MapType.InMemory (t : MapType) : Prop := t = .guardBf ∨ t = .plrMap

namespace Ste

variable {blank blank' : Set ℕ} {dev dev' : Dev δ} {ste : Ste}

/-- The pages of the block have its lbas in their out-of-band areas.  The last page is filled up
with `UINT32_MAX` unless it is the only one. -/
def Written (blank : Set ℕ) (dev : Dev δ) (ste : Ste) : Prop :=
  ∀ k, k / l2pgap * l2pgap < ste.page.length → k < ste.page.length ∨ l2pgap < ste.page.length →
    ∃ d, Inscribed blank dev.cell (ste.pba * l2pgap + k) (d, (ste.lbas[k]?).getD uint32Max)

/-- The mapping function of the block is kept in memory, and has the lbas at their places. -/
def Indexed (ste : Ste) : Prop :=
  ∃ t : MapType, t.InMemory ∧ ste.mf = some ⟨t, ste.lbas.zipIdx⟩

/-- The piece of an lba of the block has been written, with the lba in its out-of-band area. -/
theorem Written.piece (h : ste.Written blank dev) {k lba : ℕ} (hk : ste.lbas[k]? = some lba) :
  ste.pba * l2pgap + k ∉ blank ∧ dev.bm.oob (ste.pba * l2pgap + k) = lba
  := by
  have hlt := (List.getElem?_eq_some_iff.mp hk).1
  rw [lbas, List.length_map] at hlt
  obtain ⟨d, hnot, hcell⟩ := h k ((Nat.div_mul_le_self _ _).trans_lt hlt) (.inl hlt)
  rw [hk] at hcell
  use hnot, congrArg Prod.snd hcell

theorem Written.fills (h : ste.Written blank dev)
    (hfills : FillsIn blank blank' dev.cell dev'.cell) :
  ste.Written blank' dev'
  := by
  intro k hpage hk
  obtain ⟨d, hd⟩ := h k hpage hk
  exact ⟨d, hd.fills hfills⟩

/-- A block that has not been begun. -/
theorem Written.of_nil (h : ste.page = []) :
  ste.Written blank dev
  := by
  intro k hk
  rw [h] at hk
  cases hk

/-- Only the address and the summary page of a block count. -/
theorem Written.congr {ste' : Ste} (h : ste.Written blank dev) (hpba : ste'.pba = ste.pba)
    (hpage : ste'.page = ste.page) :
  ste'.Written blank dev
  := by
  intro k
  rw [lbas, hpage, hpba]
  apply h k

end Ste

namespace Run

variable {others : Set ℕ} {r r' : Run δ} {dev dev' : Dev δ}

/-- The next piece is the first one of a page, for which there is room in the current block. -/
structure Ready (g : Geometry) (r : Run δ) : Prop where
  filling : r.stBody.Filling g
  lt : r.stBody.cur.page.length < g.maxSectorInBlock
  aligned : r.stBody.cur.page.length % l2pgap = 0
  short : r.buffered.length < l2pgap
  lba_le : ∀ x ∈ r.buffered, x.1 ≤ uint32Max

theorem Open.ready (h : r.Open g) :
  r.Ready g
  := ⟨h.filling, h.lt, h.aligned, h.short, h.lba_le⟩

theorem LogOpen.ready {held : List ℕ} {items : List (ℕ × δ)} (h : r.LogOpen g held dev items) :
  r.Ready g
  := ⟨h.log.filling, h.lt, h.aligned, h.short, h.lba_le⟩

/-- The mapping function of the current block, as far as it has been made. -/
def CurIndexed (r : Run δ) : Prop :=
  r.stBody.cur.mf.getD ⟨r.stBody.mapType, []⟩ = ⟨r.stBody.mapType, r.stBody.cur.lbas.zipIdx⟩

/-- The finished blocks of the run can be read, except that a block which has been moved away has
no mapping function any more. -/
structure Legible (blank : Set ℕ) (r : Run δ) (dev : Dev δ) : Prop where
  written : ∀ ste ∈ r.stBody.stes, ste.Written blank dev
  indexed : ∀ ste ∈ r.stBody.stes, ste.copied = false → ste.Indexed

theorem Legible.fills {blank blank' : Set ℕ} (h : r.Legible blank dev)
    (hfills : FillsIn blank blank' dev.cell dev'.cell) :
  r.Legible blank' dev'
  := ⟨fun ste hste => (h.written ste hste).fills hfills, h.indexed⟩

/-- The pages that a run has written are its own, and what the buffer fills a page up with does
not hide an lba. -/
structure Recorded (g : Geometry) (others : Set ℕ) (r : Run δ) (dev : Dev δ) : Prop where
  placed : r.stBody.Placed g others dev
  inMemory : r.stBody.mapType.InMemory
  legible : r.Legible (r.stBody.blank g others dev) dev
  cur : r.stBody.cur.Written (others ∪ dev.free g) dev
  curIndexed : r.CurIndexed
  filler : (r.pp.getD PpBuffer.init).filler = uint32Max ∨ r.stBody.cur.page = []

/-- The run on the new device comes from the old one by writing to blank pieces. -/
structure Records (g : Geometry) (others : Set ℕ) (r r' : Run δ) (dev dev' : Dev δ) : Prop where
  recorded : r'.Recorded g others dev'
  fills : FillsIn (r.stBody.blank g others dev) (r'.stBody.blank g others dev') dev.cell dev'.cell

theorem Recorded.records (h : r.Recorded g others dev) :
  r.Records g others r dev dev
  := ⟨h, FillsIn.refl⟩

theorem Records.trans {r'' : Run δ} {dev'' : Dev δ} (h : r.Records g others r' dev dev')
    (h' : r'.Records g others r'' dev' dev'') :
  r.Records g others r'' dev dev''
  := ⟨h'.recorded, h.fills.trans h'.fills⟩

/-- Somebody else may write to pieces that have not been handed out. -/
theorem Recorded.fills (h : r.Recorded g others dev) (hl : dev'.Layout g)
    (hfills : FillsIn (dev.free g) (dev'.free g) dev.cell dev'.cell) :
  r.Records g others r dev dev'
  := by
  have hblank := (hfills.union (r.stBody.blockRest g)).union others
  exact ⟨⟨h.placed.mono hl hfills.sub, h.inMemory, h.legible.fills hblank,
    h.cur.fills (hfills.union others), h.curIndexed, h.filler⟩, hblank⟩

/-- Blocks and pages may be handed out to somebody else. -/
theorem Recorded.quiet (h : r.Recorded g others dev) (hquiet : dev.Quiet g dev') :
  r.Records g others r dev dev'
  := h.fills hquiet.layout (FillsIn.of_sub hquiet.sub hquiet.cell)

/-! ### A page -/

/-- The mapping function of the current block gets the next lba. -/
theorem writePiece_curIndexed {lba psa : ℕ} (hr : r.stBody.Filling g) (hcur : r.CurIndexed)
    (h : r.writePiece g dev lba = .ok (psa, r', dev')) :
  r'.CurIndexed
  := by
  simp only [writePiece, bind_eq_ok] at h
  obtain ⟨⟨psa, r₁, dev₀⟩, htr, dev₁, -, ⟨tree, dev₂⟩, -, sa, hins, hret⟩ := h
  cases hret
  obtain ⟨pba, -, -, -, rfl, -⟩ := writeTranslation_ok hr htr
  obtain ⟨-, -, rfl⟩ := insertPair_ok hins
  unfold CurIndexed at hcur ⊢
  change MapFunction.mk (r.stBody.cur.mf.getD ⟨r.stBody.mapType, []⟩).type
    ((r.stBody.cur.mf.getD ⟨r.stBody.mapType, []⟩).contents
      ++ [(lba, r.stBody.inblockWritePointer)]) = _
  rw [hcur, hr.inblock]
  simp only [Ste.lbas, setPba, StArray.steInsert, StArray.spInsert, List.map_append,
    List.map_singleton, List.zipIdx_append, List.length_map, Nat.zero_add, List.zipIdx_singleton]

theorem writePieces_curIndexed {lbas psas : List ℕ} (hlbas : ∀ lba ∈ lbas, lba ≤ uint32Max) :
  ∀ {r : Run δ} {dev : Dev δ}, r.stBody.Filling g → r.CurIndexed →
    writePieces g lbas r dev = .ok (psas, r', dev') → r'.CurIndexed
  := by
  induction lbas generalizing psas with
  | nil =>
      intro r dev _ hcur h
      cases h
      apply hcur
  | cons lba lbas ih =>
      intro r dev hr hcur h
      simp only [writePieces, bind_eq_ok] at h
      obtain ⟨⟨psa, r₁, dev₁⟩, hfst, ⟨psas, r₂, dev₂⟩, hrest, hret⟩ := h
      cases hret
      obtain ⟨-, -, hfill, -⟩ := writePiece_ok hr (hlbas lba List.mem_cons_self) hfst
      apply ih (fun l hl => hlbas l (List.mem_cons_of_mem _ hl)) hfill
        (writePiece_curIndexed hr hcur hfst) hrest

/-- The out-of-band area of a full page. -/
theorem ppLbas_getElem? {pp : PpBuffer δ} {i : ℕ} (hi : i < l2pgap) :
  pp.lbas[i]? = some (((pp.items.map (·.1))[i]?).getD pp.filler)
  := by
  rw [PpBuffer.lbas, List.getElem?_append]
  split
  · rename_i hlt
    rw [List.getElem?_eq_getElem hlt]
    rfl
  · rename_i hge
    rw [List.getElem?_eq_none (Nat.le_of_not_lt hge), List.getElem?_replicate_of_lt]
    · rfl
    · rw [List.length_map] at hge ⊢
      omega

theorem length_ppLbas {pp : PpBuffer δ} (h : pp.items.length ≤ l2pgap) :
  pp.lbas.length = l2pgap
  := by
  rw [PpBuffer.lbas, List.length_append, List.length_map, List.length_replicate,
    Nat.add_sub_cancel' h]

/-- The pieces of the other pages are as before. -/
theorem issueWrite_cell {base : ℕ} {pp : PpBuffer δ} (hbase : base % l2pgap = 0)
    (hlen : pp.items.length ≤ l2pgap) {q : ℕ} (hq : q < base ∨ base + l2pgap ≤ q) :
  (dev.issueWrite (base / l2pgap) (pp.items.map (·.2)) pp.lbas).cell q = dev.cell q
  := by
  have hvlen : (pp.items.map (·.2)).length ≤ l2pgap := by
    rw [List.length_map]
    apply hlen
  have holen := length_ppLbas hlen
  rw [Dev.cell, Dev.cell, issueWrite_data hbase hvlen, issueWrite_oob hbase holen.le]
  rcases hq with hlt | hge
  · rw [if_neg (Nat.not_le_of_lt hlt), if_neg (Nat.not_le_of_lt hlt)]
  · have hle : base ≤ q := by omega
    rw [if_pos hle, if_pos hle, List.getElem?_eq_none (by omega), List.getElem?_eq_none (by omega)]
    rfl

/-- The page that is written. -/
theorem issueWrite_page {base : ℕ} {pp : PpBuffer δ} (hbase : base % l2pgap = 0)
    (hlen : pp.items.length ≤ l2pgap) {i : ℕ} (hi : i < l2pgap) :
  ∃ d, (dev.issueWrite (base / l2pgap) (pp.items.map (·.2)) pp.lbas).cell (base + i)
    = (d, ((pp.items.map (·.1))[i]?).getD pp.filler)
  := by
  refine ⟨_, Prod.ext rfl ?_⟩
  change (dev.issueWrite (base / l2pgap) (pp.items.map (·.2)) pp.lbas).bm.oob (base + i) = _
  rw [issueWrite_oob hbase (length_ppLbas hlen).le, if_pos (Nat.le_add_right _ _),
    Nat.add_sub_cancel_left, ppLbas_getElem? hi]
  rfl

/-- The block that is being filled after a page has been written to it. -/
theorem cur_written {pba base : ℕ} {pp : PpBuffer δ} {psas : List ℕ} {dev₁ : Dev δ}
    (hrec : r.Recorded g others dev) (halign : r.stBody.cur.page.length % l2pgap = 0)
    (hlen : pp.items.length ≤ l2pgap)
    (hfiller : pp.filler = uint32Max ∨ r.stBody.cur.page = [])
    (happ : r.Appends r' pba ((pp.items.map (·.1)).zipWith SummaryPair.mk psas))
    (hpsas : psas.length = pp.items.length) (hquiet : dev.Quiet g dev₁)
    (hbase : base = pba * l2pgap + r.stBody.cur.page.length) (hpage : base % l2pgap = 0)
    (hnew : ∀ i < l2pgap, base + i ∉ others ∪ dev₁.free g) :
  r'.stBody.cur.Written (others ∪ dev₁.free g)
    (dev₁.issueWrite (base / l2pgap) (pp.items.map (·.2)) pp.lbas)
  := by
  have hlbas : r'.stBody.cur.lbas = r.stBody.cur.lbas ++ pp.items.map (·.1) := by
    rw [Ste.lbas, happ.page, List.map_append, map_lba_zipWith (by rw [List.length_map, hpsas])]
    rfl
  have hlength : r'.stBody.cur.page.length = r.stBody.cur.page.length + pp.items.length := by
    have := congrArg List.length hlbas
    rwa [List.length_append, Ste.lbas, Ste.lbas, List.length_map, List.length_map,
      List.length_map] at this
  have hl : l2pgap = 4 := rfl
  have hold : r.stBody.cur.lbas.length = r.stBody.cur.page.length := List.length_map _
  intro k hk hor
  rw [hlength] at hk hor
  rw [happ.cur_pba, hlbas]
  rcases Nat.lt_or_ge k r.stBody.cur.page.length with hlt | hge
  · have hne : r.stBody.cur.page ≠ [] := List.ne_nil_of_length_pos (Nat.zero_lt_of_lt hlt)
    have hk := (Nat.div_mul_le_self k l2pgap).trans_lt hlt
    obtain ⟨d, hout, hcell⟩ := hrec.cur k hk (.inl hlt)
    rw [← happ.pba_eq hne] at hout hcell
    use d, fun hq => hout (Set.union_subset_union_right _ hquiet.sub hq)
    rw [issueWrite_cell hpage hlen (.inl (by omega)), hquiet.cell, hcell,
      List.getElem?_append_left (by omega)]
  · obtain ⟨i, rfl⟩ := Nat.exists_eq_add_of_le hge
    have hi : i < l2pgap := by
      rw [hl] at hk halign hlen ⊢
      omega
    obtain ⟨d, hcell⟩ := @issueWrite_page _ dev₁ _ _ hpage hlen _ hi
    rw [← Nat.add_assoc, ← hbase]
    use d, hnew i hi
    rw [hcell, List.getElem?_append_right (by omega), hold, Nat.add_sub_cancel_left]
    rcases Nat.lt_or_ge i pp.items.length with hin | hout
    · rw [List.getElem?_eq_getElem (by rw [List.length_map]; exact hin)]
      rfl
    · rw [List.getElem?_eq_none (by rw [List.length_map]; exact hout)]
      rcases hfiller with hfill | hnil
      · rw [hfill]
      · rw [hnil, List.length_nil] at hor
        omega

/-- `__run_write_buffer` followed by `pp_reinit_buffer`. -/
theorem writeBuffer_records {pp : PpBuffer δ} (hr : r.Ready g) (hrec : r.Recorded g others dev)
    (hpos : pp.items ≠ []) (hlen : pp.items.length ≤ l2pgap)
    (hlbas : ∀ x ∈ pp.items, x.1 ≤ uint32Max)
    (hfiller : pp.filler = uint32Max ∨ r.stBody.cur.page = [])
    (h : r.writeBuffer g pp dev = .ok (r', dev')) :
  r'.stBody.Filling g ∧ r.Records g others r'.reinit dev dev'
  := by
  simp only [writeBuffer, bind_eq_ok] at h
  obtain ⟨⟨psas, r₁, dev₁⟩, hw, hret⟩ := h
  have hl : ∀ lba ∈ pp.items.map (·.1), lba ≤ uint32Max := by
    intro lba hlba
    obtain ⟨x, hx, rfl⟩ := List.mem_map.mp hlba
    apply hlbas x hx
  obtain ⟨pba, hfill, happ, hpsas, hplaced, hquiet, hsub, hnew⟩ :=
    writePieces_blank hl hr.filling hrec.placed hw
  have hindexed := writePieces_curIndexed hl hr.filling hrec.curIndexed hw
  rw [List.length_map] at hpsas
  have hplen : psas.length = pp.items.length := by
    rw [hpsas, pieces, List.length_map, List.length_range]
  have hbase : (pba * l2pgap + r.stBody.cur.page.length) % l2pgap = 0 := by
    rw [Nat.add_mod, Nat.mul_mod_left, hr.aligned]
    rfl
  have htarget : targetPpa psas = (pba * l2pgap + r.stBody.cur.page.length) / l2pgap := by
    obtain ⟨x, xs, hitems⟩ := List.exists_cons_of_ne_nil hpos
    rw [hpsas, hitems, List.length_cons, pieces_succ, targetPpa]
  dsimp only at hret
  rw [htarget] at hret
  cases hret
  have hne : r'.stBody.cur.page ≠ [] := by
    rw [happ.page]
    intro hnil
    have hzip := congrArg List.length (List.append_eq_nil_iff.mp hnil).2
    rw [List.length_zipWith, List.length_map, hplen, Nat.min_self, List.length_nil] at hzip
    apply hpos (List.eq_nil_of_length_eq_zero hzip)
  have hdvd : g.ppb ∣ pba := happ.cur_pba ▸ hfill.cur.dvd hne
  have hpage : ∀ i < l2pgap,
      pba * l2pgap + r.stBody.cur.page.length + i ∈ r.stBody.blank g others dev ∧
      pba * l2pgap + r.stBody.cur.page.length + i ∉ others ∪ dev₁.free g := by
    intro i hi
    refine hnew (by simpa using hpos) _ ?_ (Nat.le_add_right _ _)
    rw [Nat.add_assoc]
    apply bid_block hdvd
    have hlt := hr.lt
    have halign := hr.aligned
    have hl : l2pgap = 4 := rfl
    rw [Geometry.maxSectorInBlock, hl] at hlt ⊢
    rw [hl] at hi halign
    omega
  have hpool : dev₁.SamePool (dev₁.issueWrite
      ((pba * l2pgap + r.stBody.cur.page.length) / l2pgap) (pp.items.map (·.2)) pp.lbas) :=
    Dev.issueWrite_pool
  have hfills : FillsIn (r.stBody.blank g others dev) (r'.stBody.blank g others (dev₁.issueWrite
      ((pba * l2pgap + r.stBody.cur.page.length) / l2pgap) (pp.items.map (·.2)) pp.lbas))
      dev.cell (dev₁.issueWrite ((pba * l2pgap + r.stBody.cur.page.length) / l2pgap)
        (pp.items.map (·.2)) pp.lbas).cell := by
    constructor
    · rw [StArray.blank, hpool.free]
      apply hsub
    · intro q hq
      rw [issueWrite_cell hbase hlen, hquiet.cell]
      by_contra hin
      obtain ⟨i, rfl⟩ := Nat.exists_eq_add_of_le (Nat.le_of_not_lt fun hlt => hin (.inl hlt))
      apply hq (hpage i (by omega)).1
  refine ⟨hfill, ⟨?_, ?_, ⟨?_, ?_⟩, ?_, hindexed, .inl rfl⟩, hfills⟩
  · apply hplaced.mono (hpool.layout hplaced.layout) hpool.free.subset
  · exact happ.mapType ▸ hrec.inMemory
  · intro ste hste
    exact (hrec.legible.written ste (happ.stes ▸ hste)).fills hfills
  · intro ste hste
    exact hrec.legible.indexed ste (happ.stes ▸ hste)
  · rw [hpool.free]
    have hcur := cur_written hrec hr.aligned hlen hfiller happ hplen hquiet rfl hbase
      fun i hi => (hpage i hi).2
    apply hcur

/-! ### Blocks -/

/-- The current entry is finished. -/
theorem Recorded.finish {q a b : ℕ} (h : r.Recorded g others dev) (hne : r.stBody.cur.page ≠ [])
    (hquiet : dev.Quiet g dev') :
  r.Records g others (r.finish q a b) dev dev'
  := by
  have hrest : (r.finish q a b).stBody.blank g others dev' = others ∪ dev'.free g := by
    rw [StArray.blank, StArray.blockRest_nil rfl, Set.empty_union]
  have hfree := FillsIn.of_sub (Set.union_subset_union_right others hquiet.sub) hquiet.cell
  have hfills : FillsIn (r.stBody.blank g others dev) ((r.finish q a b).stBody.blank g others dev')
      dev.cell dev'.cell := by
    rw [hrest]
    refine FillsIn.of_sub (Set.union_subset_union_right others ?_) hquiet.cell
    apply hquiet.sub.trans Set.subset_union_right
  refine ⟨⟨?_, h.inMemory, ⟨?_, ?_⟩, Ste.Written.of_nil rfl, rfl, .inr rfl⟩, hfills⟩
  · refine StArray.Placed.of_nil rfl hquiet.layout ?_
    exact fun x hx hx' => h.placed.apart x hx (.inr (hquiet.sub hx'))
  · rw [hrest] at hfills ⊢
    intro ste hste
    rcases List.mem_append.mp hste with hste | hste
    · apply (h.legible.written ste hste).fills hfills
    · rw [List.mem_singleton.mp hste]
      apply (h.cur.fills hfree).congr rfl rfl
  · intro ste hste hcopied
    rcases List.mem_append.mp hste with hste | hste
    · apply h.legible.indexed ste hste hcopied
    · rw [List.mem_singleton.mp hste]
      have hcur := h.curIndexed
      unfold CurIndexed at hcur
      use r.stBody.mapType, h.inMemory
      change r.stBody.cur.mf = some ⟨r.stBody.mapType, r.stBody.cur.lbas.zipIdx⟩
      cases hmf : r.stBody.cur.mf with
      | some mf =>
          rw [hmf] at hcur
          exact congrArg some hcur
      | none =>
          rw [hmf] at hcur
          have hnil := congrArg (List.length ∘ MapFunction.contents) hcur
          simp only [Function.comp_apply, Option.getD_none, List.length_nil, List.length_zipIdx,
            Ste.lbas, List.length_map] at hnil
          exact absurd (List.eq_nil_of_length_eq_zero hnil.symm) hne

/-- A summary page is assigned. -/
theorem writeMeta_quiet {force : Bool} (hl : dev.Layout g)
    (h : r.writeMeta g dev force = .ok (r', dev')) :
  dev.Quiet g dev'
  := by
  simp only [writeMeta, bind_eq_ok, require_eq_ok] at h
  obtain ⟨-, -, h⟩ := h
  split at h
  · cases h
    apply Dev.Quiet.refl hl
  · simp only [bind_eq_ok, require_eq_ok] at h
    obtain ⟨-, -, dev₁, hval, h⟩ := h
    cases h
    obtain ⟨hpool, hcell⟩ := Dev.validatePiecePpa_pool hval
    have hmap : dev.Quiet g (if r.stBody.mpNowIdx = 0 then dev.getMapPpa g
        else (r.stBody.mpNowPpa, dev)).2 := by
      split
      · apply Dev.getMapPpa_quiet hl
      · apply Dev.Quiet.refl hl
    apply hmap.trans (hpool.quiet hcell hmap.layout)

/-- Only the table of the run and the fill of its buffer count. -/
theorem Recorded.congr (h : r.Recorded g others dev) (hstes : r'.stBody.stes = r.stBody.stes)
    (hcur : r'.stBody.cur = r.stBody.cur) (htype : r'.stBody.mapType = r.stBody.mapType)
    (hfiller : (r'.pp.getD PpBuffer.init).filler = uint32Max ∨ r'.stBody.cur.page = []) :
  r.Records g others r' dev dev
  := by
  have hrest : r'.stBody.blockRest g = r.stBody.blockRest g := by
    rw [StArray.blockRest, StArray.blockRest, hcur]
  have hblank : r'.stBody.blank g others dev = r.stBody.blank g others dev := by
    rw [StArray.blank, StArray.blank, hrest]
  have hindexed := h.curIndexed
  rw [CurIndexed, ← hcur, ← htype] at hindexed
  refine ⟨⟨⟨h.placed.layout, hrest ▸ h.placed.rest, hrest ▸ h.placed.apart⟩, htype ▸ h.inMemory,
    ⟨?_, hstes ▸ h.legible.indexed⟩, hcur ▸ h.cur, hindexed, hfiller⟩,
    FillsIn.of_sub hblank.subset rfl⟩
  rw [hblank, hstes]
  apply h.legible.written

/-- `__run_write_meta` closes the current block if there is one. -/
theorem writeMeta_records {force : Bool} (hrec : r.Recorded g others dev)
    (h : r.writeMeta g dev force = .ok (r', dev'))
    (hw : r.stBody.writing = !r.stBody.cur.page.isEmpty) :
  r.Records g others r' dev dev' ∧ r'.stBody.cur.page = []
  := by
  have hquiet := writeMeta_quiet hrec.placed.layout h
  rcases writeMeta_ok h with ⟨hwriting, rfl, rfl⟩ | ⟨hwriting, q, a, b, -, rfl⟩
  · have hnil : r.stBody.cur.page = [] := by simpa [hwriting] using hw
    use hrec.congr rfl rfl rfl hrec.filler, hnil
  · exact ⟨hrec.finish (by simpa [hwriting] using hw) hquiet, rfl⟩

/-! ### The operations -/

/-- `run_insert` after its checks. -/
theorem insertSector_records {lba : ℕ} {d : δ} (hr : r.Ready g) (hrec : r.Recorded g others dev)
    (hlba : lba ≤ uint32Max) (h : r.insertSector g dev lba d = .ok (r', dev')) :
  r.Records g others r' dev dev'
  := by
  have hlbas : ∀ x ∈ (r.ppInsert lba d).items, x.1 ≤ uint32Max := by
    intro x hx
    rw [ppInsert_items] at hx
    rcases List.mem_append.mp hx with hx | hx
    · apply hr.lba_le x hx
    · rw [List.mem_singleton.mp hx]
      apply hlba
  rcases insertSector_ok (alert_eq_false hr.filling hr.lt) h with
    ⟨hlen, r₀, r₁, dev₀, hw, hmeta, rfl⟩ | ⟨-, rfl, rfl⟩
  · obtain ⟨hfill, hwrite⟩ := writeBuffer_records hr hrec (by simp [ppInsert_items]) hlen.le
      hlbas hrec.filler hw
    unfold writeMetaOnAlert at hmeta
    split at hmeta
    · obtain ⟨hclose, -⟩ := writeMeta_records hwrite.recorded hmeta hfill.writing
      have hall := hwrite.trans hclose
      exact hall.trans (hall.recorded.congr rfl rfl rfl hall.recorded.filler)
    · cases hmeta
      exact hwrite.trans (hwrite.recorded.congr rfl rfl rfl hwrite.recorded.filler)
  · exact hrec.congr rfl rfl rfl hrec.filler

/-- `run_insert`. -/
theorem insert_records {lba : ℕ} {d : δ} {sc sc' : ShortcutMaster} (hr : r.Ready g)
    (hrec : r.Recorded g others dev) (hlba : lba ≤ uint32Max)
    (h : r.insert g sc dev lba d = .ok (r', sc', dev')) :
  r.Records g others r' dev dev'
  := by
  simp only [insert, bind_eq_ok] at h
  obtain ⟨-, -, h⟩ := h
  split at h
  · rw [bind_eq_ok] at h
    obtain ⟨⟨r₁, dev₁⟩, hsector, hret⟩ := h
    cases hret
    apply insertSector_records hr hrec hlba hsector
  · split at h
    · rw [bind_eq_ok] at h
      obtain ⟨⟨r₁, dev₁⟩, hsector, hret⟩ := h
      cases hret
      apply insertSector_records hr hrec hlba hsector
    · cases h
      apply hrec.records

/-- A sequence of inserts into a normal run. -/
theorem insertAll_records {held : List ℕ} (xs : List (ℕ × δ)) (hxs : ∀ x ∈ xs, x.1 ≤ uint32Max) :
  ∀ {r : Run δ} {sc sc' : ShortcutMaster} {dev : Dev δ}, r.Open g →
    dev.Holds (r.psas ++ r.sums ++ held) → r.Recorded g others dev →
    insertAll g xs r sc dev = .ok (r', sc', dev') → r.Records g others r' dev dev'
  := by
  induction xs with
  | nil =>
      intro r sc sc' dev _ _ hrec h
      cases h
      apply hrec.records
  | cons x xs ih =>
      intro r sc sc' dev hr hh hrec h
      simp only [insertAll, bind_eq_ok] at h
      obtain ⟨⟨r₁, sc₁, dev₁⟩, hins, hrest⟩ := h
      have hlba := hxs x List.mem_cons_self
      have hfirst := insert_records hr.ready hrec hlba hins
      simp only [insert, hr.type, bind_eq_ok] at hins
      obtain ⟨-, -, ⟨r₂, dev₂⟩, hsector, hret⟩ := hins
      cases hret
      obtain ⟨hr₁, hgrow, -⟩ := insertSector_grows hr hlba hh hsector
      apply hfirst.trans (ih (fun y hy => hxs y (List.mem_cons_of_mem _ hy)) hr₁ hgrow.holds
        hfirst.recorded hrest)

/-- The sectors in the buffer are written. -/
theorem flushBuffer_records (hr : r.Ready g) (hrec : r.Recorded g others dev)
    (h : r.flushBuffer g dev = .ok (r', dev')) :
  r'.stBody.Filling g ∧ r.Records g others r' dev dev'
  := by
  unfold flushBuffer at h
  split at h
  · cases h
    exact ⟨hr.filling, hrec.records⟩
  · rename_i pp hpp
    have hbuf : r.buffered = pp.items := by
      rw [buffered, hpp]
      rfl
    split at h
    · cases h
      exact ⟨hr.filling, hrec.records⟩
    · rename_i hpos
      rw [bind_eq_ok] at h
      obtain ⟨⟨r₀, dev₀⟩, hw, hret⟩ := h
      cases hret
      have hfiller := hrec.filler
      rw [hpp] at hfiller
      obtain ⟨hfill, hwrite⟩ := writeBuffer_records hr hrec hpos (hbuf ▸ hr.short).le
        (hbuf ▸ hr.lba_le) hfiller hw
      exact ⟨hfill, hwrite⟩

/-- `run_padding_current_block`. -/
theorem paddingCurrentBlock_records (hr : r.Ready g) (hrec : r.Recorded g others dev)
    (h : r.paddingCurrentBlock g dev = .ok (r', dev')) :
  r.Records g others r' dev dev'
  := by
  simp only [paddingCurrentBlock, bind_eq_ok] at h
  obtain ⟨⟨r₁, dev₁⟩, hflush, ⟨res, sa⟩, hskip, h⟩ := h
  dsimp only at hskip h
  obtain ⟨hfill, hwrite⟩ := flushBuffer_records hr hrec hflush
  unfold StArray.forceSkipBlock at hskip
  split at hskip
  · cases hskip
  · split at hskip
    · cases hskip
      simp only [if_true] at h
      have halert : r₁.Records g others { r₁ with
          stBody := { r₁.stBody with summaryWriteAlert := true } } dev₁ dev₁ :=
        hwrite.recorded.congr rfl rfl rfl hwrite.recorded.filler
      obtain ⟨hclose, -⟩ := writeMeta_records halert.recorded h hfill.writing
      apply hwrite.trans (halert.trans hclose)
    · cases hskip
      simp only [Bool.false_eq_true, if_false] at h
      cases h
      apply hwrite

/-- `run_insert_done`. -/
theorem insertDone_records (hr : r.Ready g) (hrec : r.Recorded g others dev)
    (h : r.insertDone g dev = .ok (r', dev')) :
  r.Records g others r' dev dev' ∧ r'.stBody.cur.page = []
  := by
  simp only [insertDone, bind_eq_ok] at h
  obtain ⟨⟨r₁, dev₁⟩, hflush, ⟨r₂, dev₂⟩, hmeta, hret⟩ := h
  cases hret
  dsimp only at hmeta
  obtain ⟨hfill, hwrite⟩ := flushBuffer_records hr hrec hflush
  obtain ⟨hclose, hnil⟩ := writeMeta_records hwrite.recorded hmeta hfill.writing
  have hall := hwrite.trans hclose
  use hall.trans (hall.recorded.congr rfl rfl rfl (.inr hnil)), hnil

/-- `run_insert_done` frees the buffer. -/
theorem insertDone_pp (h : r.insertDone g dev = .ok (r', dev')) :
  r'.pp = none
  := by
  simp only [insertDone, bind_eq_ok] at h
  obtain ⟨_, -, _, -, hret⟩ := h
  cases hret
  rfl

/-- A new run has written nothing. -/
theorem factory_recorded {mapType : MapType} {n idx : ℕ} {type : RunType}
    (htype : mapType.InMemory) (hl : dev.Layout g) (hapart : ∀ q ∈ others, q ∉ dev.free g) :
  (factory g mapType n type idx : Run δ).Recorded g others dev
  := by
  exact ⟨StArray.Placed.of_nil rfl hl hapart, htype,
    ⟨List.forall_mem_nil _, List.forall_mem_nil _⟩, Ste.Written.of_nil rfl, rfl, .inr rfl⟩

/-- The run takes over a block of another run. -/
theorem Recorded.takeSte {ste : Ste} {n : ℕ} (h : r.Recorded g others dev)
    (hnil : r.stBody.cur.page = []) (hwritten : ste.Written (r.stBody.blank g others dev) dev)
    (hindexed : ste.Indexed) :
  r.Records g others (r.takeSte ste n) dev dev
  := by
  have hrest : (r.takeSte ste n).stBody.blockRest g = r.stBody.blockRest g := by
    rw [StArray.blockRest_nil hnil, StArray.blockRest_nil rfl]
  have hblank : (r.takeSte ste n).stBody.blank g others dev = r.stBody.blank g others dev := by
    rw [StArray.blank, StArray.blank, hrest]
  refine ⟨⟨⟨h.placed.layout, hrest ▸ h.placed.rest, hrest ▸ h.placed.apart⟩, h.inMemory,
    ⟨?_, ?_⟩, Ste.Written.of_nil rfl, rfl, .inr rfl⟩, FillsIn.of_sub hblank.subset rfl⟩
  · rw [hblank]
    intro s hs
    rcases List.mem_append.mp hs with hs | hs
    · apply h.legible.written s hs
    · rw [List.mem_singleton.mp hs]
      apply hwritten
  · intro s hs hcopied
    rcases List.mem_append.mp hs with hs | hs
    · apply h.legible.indexed s hs hcopied
    · rw [List.mem_singleton.mp hs]
      apply hindexed

end Run

end AppL
