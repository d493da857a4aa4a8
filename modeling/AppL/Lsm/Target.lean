import AppL.Lsm.Write

/-!
# Filling a normal run

A run that is the target of a merge gets sectors, closes blocks, and is finished.  All of
these steps are described by one relation: the run shows more sectors than before, its
pieces and the pieces of the other runs are the valid ones, and the data of the others is
unchanged.
-/

namespace AppL

open Transition

namespace Run

variable {δ : Type} {g : Geometry} {r r' : Run δ} {dev dev' : Dev δ} {held : List ℕ}

/-! ### The contents of a run -/

/-- The entries of the run that are on flash. -/
def entries (r : Run δ) : List Entry := (r.stBody.stes ++ [r.stBody.cur]).flatMap Ste.entries

/-- The pieces of the entries of the run. -/
def psas (r : Run δ) : List ℕ := r.entries.map (·.psa)

/-- The pieces of the summary pages of the run. -/
def sums (r : Run δ) : List ℕ := r.stBody.stes.map (·.piecePpa)

/-- The sectors in the page buffer. -/
def buffered (r : Run δ) : List (ℕ × δ) := (r.pp.map (·.items)).getD []

/-- The copies of the run that are on flash. -/
def flash (r : Run δ) (dev : Dev δ) : List (Copy δ) := r.entries.map (Entry.copy dev)

/-- The copies of the run: those on flash, then those in the buffer. -/
def copies (r : Run δ) (dev : Dev δ) : List (Copy δ) :=
  r.flash dev ++ r.buffered.map Copy.plain

/-- The lbas of the run. -/
def lbas (r : Run δ) : List ℕ := r.entries.map (·.lba) ++ r.buffered.map (·.1)

theorem copies_map_lba :
  (r.copies dev).map (·.lba) = r.lbas
  := by
  simp only [copies, flash, lbas, List.map_append, List.map_map]
  congr 1

/-- The run can be written to: its entries are in order, the current block and the buffer
are not full, and the next piece is the first one of a page. -/
structure Open (g : Geometry) (r : Run δ) : Prop where
  type : r.type = .runNormal
  filling : r.stBody.Filling g
  lt : r.stBody.cur.page.length < g.maxSectorInBlock
  aligned : r.stBody.cur.page.length % l2pgap = 0
  short : r.buffered.length < l2pgap
  lba_le : ∀ x ∈ r.buffered, x.1 ≤ uint32Max
  stes : ∀ ste ∈ r.stBody.stes, ste.Meta g ∧ ste.page ≠ [] ∧ ste.copied = false

/-- The fields of a run that a write does not change. -/
structure SameShape (r r' : Run δ) : Prop where
  type : r'.type = r.type
  info : r'.info = r.info
  maxEntryNum : r'.maxEntryNum = r.maxEntryNum
  limitEntryNum : r'.limitEntryNum = r.limitEntryNum
  maxSteNum : r'.stBody.maxSteNum = r.stBody.maxSteNum
  mapType : r'.stBody.mapType = r.stBody.mapType

theorem SameShape.refl (r : Run δ) :
  r.SameShape r
  := ⟨rfl, rfl, rfl, rfl, rfl, rfl⟩

theorem SameShape.trans {r'' : Run δ} (h₁ : r.SameShape r') (h₂ : r'.SameShape r'') :
  r.SameShape r''
  := ⟨h₂.type.trans h₁.type, h₂.info.trans h₁.info, h₂.maxEntryNum.trans h₁.maxEntryNum,
    h₂.limitEntryNum.trans h₁.limitEntryNum, h₂.maxSteNum.trans h₁.maxSteNum,
    h₂.mapType.trans h₁.mapType⟩

theorem Appends.sameShape {pba : ℕ} {ps : List SummaryPair} (h : r.Appends r' pba ps) :
  r.SameShape r'
  := ⟨h.fields.2.2.2.1, h.fields.2.2.2.2.1, h.fields.1, h.fields.2.1, h.maxSteNum, h.mapType⟩

/-- `r'` on `dev'` comes from `r` on `dev` by writing the sectors `items`, while somebody
else holds the pieces `held`. -/
structure Grows (g : Geometry) (held : List ℕ) (r r' : Run δ) (dev dev' : Dev δ)
    (items : List (ℕ × δ)) : Prop where
  shape : r.SameShape r'
  copies : r'.copies dev' = r.copies dev ++ items.map Copy.plain
  holds : dev'.Holds (r'.psas ++ r'.sums ++ held)
  data : ∀ q ∈ held, dev'.data q = dev.data q
  balanced : dev.Balanced g → dev'.Balanced g

theorem Grows.refl (h : dev.Holds (r.psas ++ r.sums ++ held)) :
  r.Grows g held r dev dev []
  where
    shape := SameShape.refl r
    copies := (List.append_nil _).symm
    holds := h
    data _ _ := rfl
    balanced := id

theorem Grows.trans {r'' : Run δ} {dev'' : Dev δ} {items items' : List (ℕ × δ)}
    (h₁ : r.Grows g held r' dev dev' items) (h₂ : r'.Grows g held r'' dev' dev'' items') :
  r.Grows g held r'' dev dev'' (items ++ items')
  where
    shape := h₁.shape.trans h₂.shape
    copies := by rw [h₂.copies, h₁.copies, List.map_append, List.append_assoc]
    holds := h₂.holds
    data q hq := (h₂.data q hq).trans (h₁.data q hq)
    balanced hb := h₂.balanced (h₁.balanced hb)

/-- The counter of entries is not part of what a run shows. -/
theorem Grows.nowEntryNum {items : List (ℕ × δ)} {n : ℕ}
    (h : r.Grows g held r' dev dev' items) :
  r.Grows g held { r' with nowEntryNum := n } dev dev' items
  := ⟨⟨h.shape.type, h.shape.info, h.shape.maxEntryNum, h.shape.limitEntryNum,
    h.shape.maxSteNum, h.shape.mapType⟩, h.copies, h.holds, h.data, h.balanced⟩

theorem Grows.lbas {items : List (ℕ × δ)} (h : r.Grows g held r' dev dev' items) :
  r'.lbas = r.lbas ++ items.map (·.1)
  := by
  have hc := congrArg (List.map (·.lba)) h.copies
  rw [List.map_append, copies_map_lba, copies_map_lba, List.map_map] at hc
  apply hc

/-! ### Writing pages and closing blocks -/

/-- The sectors on flash do not change when their data does not. -/
theorem flash_congr (hd : ∀ q ∈ r.psas, dev'.data q = dev.data q) :
  r.flash dev' = r.flash dev
  := by
  apply List.map_congr_left
  intro e he
  rw [Entry.copy, Entry.copy, hd e.psa (List.mem_map_of_mem he)]

/-- The entries of the current block that is being filled are not flagged. -/
theorem entries_eq (hr : r.stBody.Filling g) :
  r.entries = r.stBody.stes.flatMap Ste.entries ++ r.stBody.cur.page.map SummaryPair.entry
  := by
  rw [entries, List.flatMap_append, List.flatMap_singleton]
  simp [Ste.entries, Ste.orig, hr.own.2, SummaryPair.entry]

theorem Appends.entries_eq {pba : ℕ} {ps : List SummaryPair} (h : r.Appends r' pba ps)
    (hr : r.stBody.Filling g) (hr' : r'.stBody.Filling g) :
  r'.entries = r.entries ++ ps.map SummaryPair.entry
  := by rw [Run.entries_eq hr', Run.entries_eq hr, h.stes, h.page, List.map_append,
    List.append_assoc]

/-- The entries of a page that has been written. -/
theorem zipWith_entries (dev : Dev δ) (items : List (ℕ × δ)) :
  ∀ {psas : List ℕ}, psas.map dev.data = items.map (·.2) →
    (((items.map (·.1)).zipWith SummaryPair.mk psas).map SummaryPair.entry).map (·.psa)
      = psas ∧
    (((items.map (·.1)).zipWith SummaryPair.mk psas).map SummaryPair.entry).map
      (Entry.copy dev) = items.map Copy.plain
  := by
  induction items with
  | nil =>
      intro psas h
      rw [List.map_nil, List.map_eq_nil_iff] at h
      rw [h]
      exact ⟨rfl, rfl⟩
  | cons x items ih =>
      intro psas h
      cases psas with
      | nil => simp at h
      | cons q psas =>
          rw [List.map_cons, List.map_cons, List.cons.injEq] at h
          obtain ⟨hpsas, hcopies⟩ := ih h.2
          constructor
          · rw [List.map_cons, List.zipWith_cons_cons, List.map_cons, List.map_cons, hpsas]
            rfl
          · rw [List.map_cons, List.zipWith_cons_cons, List.map_cons, List.map_cons, hcopies,
              List.map_cons, SummaryPair.entry, Entry.copy, h.1]
            rfl

/-- `__run_write_buffer`: the sectors on flash are followed by those of the buffer. -/
theorem writeBuffer_flash {pp : PpBuffer δ} (hr : r.Open g) (hpos : pp.items ≠ [])
    (hlen : pp.items.length ≤ l2pgap) (hlbas : ∀ x ∈ pp.items, x.1 ≤ uint32Max)
    (hh : dev.Holds (r.psas ++ r.sums ++ held))
    (h : r.writeBuffer g pp dev = .ok (r', dev')) :
  r'.stBody.Filling g ∧ r.SameShape r' ∧ r'.stBody.stes = r.stBody.stes ∧
    r'.stBody.cur.page.length = r.stBody.cur.page.length + pp.items.length ∧
    r'.nowEntryNum = r.nowEntryNum ∧
    r'.flash dev' = r.flash dev ++ pp.items.map Copy.plain ∧
    dev'.Holds (r'.psas ++ r'.sums ++ held) ∧
    (∀ q ∈ held, dev'.data q = dev.data q) ∧ (dev.Balanced g → dev'.Balanced g)
  := by
  obtain ⟨pba, psas, hpsas, hfill, happ, hh', hdata, hnew, hbal⟩ :=
    writeBuffer_normal hr.type hr.filling hr.aligned hpos hlen hlbas hh h
  have hplen : psas.length = pp.items.length := by
    rw [hpsas]
    simp [pieces]
  have hentries := happ.entries_eq hr.filling hfill
  obtain ⟨hzip, hcopies⟩ := zipWith_entries dev' pp.items hnew
  refine ⟨hfill, happ.sameShape, happ.stes, ?_, happ.fields.2.2.1, ?_, ?_, ?_, hbal⟩
  · rw [happ.page, List.length_append, List.length_zipWith, List.length_map, hplen,
      Nat.min_self]
  · have hold : r.flash dev' = r.flash dev := by
      apply flash_congr
      intro q hq
      apply hdata q
      simp [hq]
    rw [← hold, flash, hentries, List.map_append, hcopies, flash]
  · apply hh'.perm
    rw [Run.psas, Run.psas, hentries, List.map_append, hzip, sums, sums, happ.stes]
    simp only [List.append_assoc]
    apply (List.perm_append_comm_assoc _ _ _)
  · intro q hq
    apply hdata q
    simp [hq]

/-- A step of the summary pages: `__run_write_meta` closes the current block. -/
theorem writeMeta_ok {force : Bool} (h : r.writeMeta g dev force = .ok (r', dev')) :
  (r.stBody.writing = false ∧ dev' = dev ∧ r' = { r with stBody := r.stBody.getRemain }) ∨
  (r.stBody.writing = true ∧ ∃ q a b, dev.Validates g dev' q ∧
    r' = { r with stBody := r.stBody.finishSte q a b })
  := by
  simp only [writeMeta, bind_eq_ok, require_eq_ok] at h
  obtain ⟨_, -, h⟩ := h
  split at h
  · rename_i hw
    cases h
    left
    exact ⟨hw, rfl, rfl⟩
  · rename_i hw
    simp only [bind_eq_ok, require_eq_ok] at h
    obtain ⟨_, -, dev₁, hval, h⟩ := h
    cases h
    refine .inr ⟨by simpa using hw, _, _, _, ?_, rfl⟩
    apply Dev.SameFlash.validates _ (Dev.validatePiecePpa_ok hval)
    split
    · apply Dev.getMapPpa_sameFlash
    · exact ⟨rfl, rfl, rfl, rfl⟩

/-- The entries of a run that is being filled: those that are finished are in order, the
current one may have a full block. -/
structure Half (g : Geometry) (r : Run δ) : Prop where
  type : r.type = .runNormal
  filling : r.stBody.Filling g
  stes : ∀ ste ∈ r.stBody.stes, ste.Meta g ∧ ste.page ≠ [] ∧ ste.copied = false

theorem Open.half (h : r.Open g) :
  r.Half g
  := ⟨h.type, h.filling, h.stes⟩

/-- The run after its current entry is finished. -/
def finish (r : Run δ) (q a b : ℕ) : Run δ := { r with stBody := r.stBody.finishSte q a b }

/-- An entry that is finished with a summary page at `q` shows the same pairs. -/
theorem finish_grows {q a b : ℕ} (hr : r.Half g) (hne : r.stBody.cur.page ≠ [])
    (hh : dev.Holds (r.psas ++ r.sums ++ held)) (hval : dev.Validates g dev' q) :
  (r.finish q a b).Half g ∧ r.Grows g held (r.finish q a b) dev dev' []
  := by
  have hfill := hr.filling
  have hentries : (r.finish q a b).entries = r.entries := by
    simp [finish, Run.entries, StArray.finishSte, Ste.empty, Ste.entries, Ste.orig]
  have hbuf : (r.finish q a b).buffered = r.buffered := rfl
  constructor
  · refine ⟨hr.type, ⟨rfl, Nat.zero_le _, ?_, rfl, Ste.meta_empty g, rfl, rfl⟩, ?_⟩
    · have := g.maxSectorInBlock_pos
      simp only [finish, StArray.finishSte, Ste.empty, List.length_nil, Bool.false_eq_true,
        false_iff]
      omega
    · intro ste hste
      simp only [finish, StArray.finishSte, List.mem_append, List.mem_singleton] at hste
      rcases hste with hste | rfl
      · apply hr.stes ste hste
      · have hc := hfill.cur
        exact ⟨⟨hc.start_le, hc.start_mem, hc.start_top, hc.le_end, hc.end_mem, hc.end_bot,
          hc.piece, hc.dvd, hc.sorted, hc.length_le⟩, hne, hfill.own.1⟩
  · obtain ⟨hq, hh'⟩ := hh.validates hval
    refine ⟨⟨rfl, rfl, rfl, rfl, rfl, rfl⟩, ?_, ?_, ?_, hval.balanced⟩
    · rw [List.map_nil, List.append_nil, copies, copies, flash, flash, hentries, hbuf]
      congr 2
      funext e
      rw [Entry.copy, Entry.copy, hval.data]
    · apply hh'.perm
      rw [psas, psas, hentries]
      simp only [sums, finish, StArray.finishSte, List.map_append, List.map_cons, List.map_nil,
        List.append_assoc, List.cons_append, List.nil_append]
      rw [← List.append_assoc, ← List.append_assoc]
      apply List.perm_middle.symm
    · intro x _
      rw [hval.data]

/-- `__run_write_meta` closes the current block if there is one, and does not change what the
run shows. -/
theorem writeMeta_grows {force : Bool} (hr : r.Half g)
    (hh : dev.Holds (r.psas ++ r.sums ++ held)) (h : r.writeMeta g dev force = .ok (r', dev')) :
  r'.Half g ∧ r.Grows g held r' dev dev' [] ∧ r'.stBody.cur.page = [] ∧ r'.pp = r.pp ∧
    r'.nowEntryNum = r.nowEntryNum
  := by
  have hfill := hr.filling
  rcases writeMeta_ok h with ⟨hw, rfl, rfl⟩ | ⟨hw, q, a, b, hval, rfl⟩
  · have hnil : r.stBody.cur.page = [] := by simpa [hw] using hfill.writing
    refine ⟨⟨hr.type, ?_, hr.stes⟩, ?_, hnil, rfl, rfl⟩
    · exact ⟨hfill.inblock, hfill.le, hfill.alert, hfill.writing, hfill.cur, hfill.own⟩
    · use ⟨rfl, rfl, rfl, rfl, rfl, rfl⟩, (List.append_nil _).symm, hh, fun _ _ => rfl, id
  · have hne : r.stBody.cur.page ≠ [] := by simpa [hw] using hfill.writing
    obtain ⟨hhalf, hgrow⟩ := finish_grows (a := a) (b := b) hr hne hh hval
    exact ⟨hhalf, hgrow, rfl, rfl, rfl⟩

/-- The run after `pp_reinit_buffer`. -/
def reinit (r : Run δ) : Run δ := { r with pp := some PpBuffer.reinitBuffer }

/-- `__run_write_buffer` followed by `pp_reinit_buffer`, for a buffer that has got the sectors
`items` in addition. -/
theorem writeBuffer_grows {pp : PpBuffer δ} {items : List (ℕ × δ)} (hr : r.Open g)
    (hpp : pp.items = r.buffered ++ items) (hpos : pp.items ≠ [])
    (hlen : pp.items.length ≤ l2pgap) (hlbas : ∀ x ∈ pp.items, x.1 ≤ uint32Max)
    (hh : dev.Holds (r.psas ++ r.sums ++ held))
    (h : r.writeBuffer g pp dev = .ok (r', dev')) :
  r'.reinit.Half g ∧ r.Grows g held r'.reinit dev dev' items ∧
    r'.stBody.cur.page.length = r.stBody.cur.page.length + pp.items.length ∧
    r'.nowEntryNum = r.nowEntryNum
  := by
  obtain ⟨hfill, hshape, hstes, hcur, hnow, hflash, hh', hdata, hbal⟩ :=
    writeBuffer_flash hr hpos hlen hlbas hh h
  refine ⟨⟨hshape.type.trans hr.type, hfill, ?_⟩, ?_, hcur, hnow⟩
  · intro ste hste
    apply hr.stes ste
    rw [← hstes]
    apply hste
  · refine ⟨⟨hshape.type, hshape.info, hshape.maxEntryNum, hshape.limitEntryNum,
      hshape.maxSteNum, hshape.mapType⟩, ?_, hh', hdata, hbal⟩
    have hempty : r'.reinit.buffered = [] := rfl
    rw [copies, hempty, List.map_nil, List.append_nil, copies, List.append_assoc,
      ← List.map_append, ← hpp]
    apply hflash

/-- The buffer with one sector more. -/
def ppInsert (r : Run δ) (lba : ℕ) (d : δ) : PpBuffer δ :=
  (r.pp.getD PpBuffer.init).insertValue lba d

theorem ppInsert_items {lba : ℕ} {d : δ} :
  (r.ppInsert lba d).items = r.buffered ++ [(lba, d)]
  := by
  unfold buffered ppInsert PpBuffer.insertValue
  cases r.pp with
  | none => rfl
  | some pp => rfl

/-- The two cases of `run_insert` after its checks: the sector fills a page, or it stays in
the buffer. -/
theorem insertSector_ok {lba : ℕ} {d : δ} (hr : r.stBody.summaryWriteAlert = false)
    (h : r.insertSector g dev lba d = .ok (r', dev')) :
  ((r.ppInsert lba d).items.length = l2pgap ∧ ∃ r₀ r₁ dev₀,
    r.writeBuffer g (r.ppInsert lba d) dev = .ok (r₀, dev₀) ∧
    r₀.reinit.writeMetaOnAlert g dev₀ = .ok (r₁, dev') ∧
    r' = { r₁ with nowEntryNum := r₁.nowEntryNum + 1 }) ∨
  ((r.ppInsert lba d).items.length ≠ l2pgap ∧ dev' = dev ∧
    r' = { r with pp := some (r.ppInsert lba d), nowEntryNum := r.nowEntryNum + 1 })
  := by
  simp only [insertSector, bind_eq_ok] at h
  obtain ⟨⟨r₁, dev₁⟩, hbuf, ⟨r₂, dev₂⟩, hmeta, hret⟩ := h
  cases hret
  dsimp only at hmeta ⊢
  simp only [bufferSector] at hbuf
  split at hbuf
  · rename_i hfull
    rw [bind_eq_ok] at hbuf
    obtain ⟨⟨r₀, dev₀⟩, hw, hbuf⟩ := hbuf
    cases hbuf
    left
    exact ⟨by simpa [PpBuffer.isFull, ppInsert] using hfull, r₀, r₂, dev₀, hw, hmeta, rfl⟩
  · rename_i hfull
    cases hbuf
    simp only [writeMetaOnAlert, hr, Bool.false_eq_true, if_false] at hmeta
    cases hmeta
    right
    exact ⟨by simpa [PpBuffer.isFull, ppInsert] using hfull, rfl, rfl⟩

theorem alert_eq_false {sa : StArray} (hs : sa.Filling g)
    (hlt : sa.cur.page.length < g.maxSectorInBlock) :
  sa.summaryWriteAlert = false
  := by
  rw [Bool.eq_false_iff]
  apply mt hs.alert.mp (Nat.ne_of_lt hlt)

/-- A run whose current block is closed and whose buffer is empty can be written to. -/
theorem Half.open (hr : r.Half g) (hnil : r.stBody.cur.page = []) (hbuf : r.buffered = []) :
  r.Open g
  where
    type := hr.type
    filling := hr.filling
    lt := by simpa [hnil] using g.maxSectorInBlock_pos
    aligned := by simp [hnil]
    short := by simp [hbuf, l2pgap]
    lba_le x hx := by simp [hbuf] at hx
    stes := hr.stes

/-- `run_insert` after its checks shows one sector more. -/
theorem insertSector_grows {lba : ℕ} {d : δ} (hr : r.Open g) (hlba : lba ≤ uint32Max)
    (hh : dev.Holds (r.psas ++ r.sums ++ held))
    (h : r.insertSector g dev lba d = .ok (r', dev')) :
  r'.Open g ∧ r.Grows g held r' dev dev' [(lba, d)] ∧ r'.nowEntryNum = r.nowEntryNum + 1
  := by
  have hlbas : ∀ x ∈ (r.ppInsert lba d).items, x.1 ≤ uint32Max := by
    intro x hx
    rw [ppInsert_items] at hx
    rcases List.mem_append.mp hx with hx | hx
    · apply hr.lba_le x hx
    · rw [List.mem_singleton.mp hx]
      apply hlba
  rcases insertSector_ok (alert_eq_false hr.filling hr.lt) h with
    ⟨hlen, r₀, r₁, dev₀, hw, hmeta, rfl⟩ | ⟨hlen, rfl, rfl⟩
  · obtain ⟨hhalf, hgrow, hcur, hnow⟩ := writeBuffer_grows hr ppInsert_items
      (by simp [ppInsert_items]) (Nat.le_of_eq hlen) hlbas hh hw
    unfold writeMetaOnAlert at hmeta
    split at hmeta
    · obtain ⟨hhalf', hgrow', hnil, hpp, hnow'⟩ := writeMeta_grows hhalf hgrow.holds hmeta
      have hbuf : r₁.buffered = [] := by
        rw [buffered, hpp]
        rfl
      obtain ⟨htype, hfill, hlt, halign, hshort, hle, hstes⟩ := hhalf'.open hnil hbuf
      refine ⟨⟨htype, hfill, hlt, halign, hshort, hle, hstes⟩, ?_, ?_⟩
      · apply Grows.nowEntryNum
        simpa using hgrow.trans hgrow'
      · rw [hnow']
        exact congrArg (· + 1) hnow
    · rename_i halert
      cases hmeta
      refine ⟨⟨hhalf.type, hhalf.filling, ?_, ?_, ?_, ?_, hhalf.stes⟩, ?_, ?_⟩
      · apply lt_of_le_of_ne hhalf.filling.le
        apply mt hhalf.filling.alert.mpr halert
      · change r₀.stBody.cur.page.length % l2pgap = 0
        rw [hcur, hlen, Nat.add_mod_right, hr.aligned]
      · simp [buffered, reinit, PpBuffer.reinitBuffer, l2pgap]
      · simp [buffered, reinit, PpBuffer.reinitBuffer]
      · apply hgrow.nowEntryNum
      · exact congrArg (· + 1) hnow
  · refine ⟨⟨hr.type, hr.filling, hr.lt, hr.aligned, ?_, hlbas, hr.stes⟩, ?_, rfl⟩
    · change (r.ppInsert lba d).items.length < l2pgap
      have hs := hr.short
      rw [ppInsert_items, List.length_append, List.length_singleton] at hlen ⊢
      omega
    · refine ⟨⟨rfl, rfl, rfl, rfl, rfl, rfl⟩, ?_, hh, fun _ _ => rfl, id⟩
      rw [copies, copies, List.append_assoc, ← List.map_append, ← ppInsert_items]
      rfl

/-- The sectors in the buffer are written. -/
theorem flushBuffer_grows (hr : r.Open g) (hh : dev.Holds (r.psas ++ r.sums ++ held))
    (h : r.flushBuffer g dev = .ok (r', dev')) :
  r'.Half g ∧ r.Grows g held r' dev dev' [] ∧ r'.buffered = [] ∧
    r'.nowEntryNum = r.nowEntryNum
  := by
  unfold flushBuffer at h
  split at h
  · rename_i hpp
    cases h
    refine ⟨hr.half, Grows.refl hh, ?_, rfl⟩
    rw [buffered, hpp]
    rfl
  · rename_i pp hpp
    have hbuf : pp.items = r.buffered := by
      rw [buffered, hpp]
      rfl
    split at h
    · rename_i hnil
      cases h
      refine ⟨hr.half, Grows.refl hh, ?_, rfl⟩
      rw [← hbuf, hnil]
    · rename_i hpos
      rw [bind_eq_ok] at h
      obtain ⟨⟨r₀, dev₀⟩, hw, hret⟩ := h
      cases hret
      have hshort := hr.short
      have hlba := hr.lba_le
      rw [← hbuf] at hshort hlba
      obtain ⟨hhalf, hgrow, -, hnow⟩ := writeBuffer_grows hr
        (by rw [hbuf, List.append_nil]) hpos (Nat.le_of_lt hshort) hlba hh hw
      use hhalf, hgrow, rfl, hnow

/-- `run_padding_current_block` closes the current block and shows the same sectors. -/
theorem paddingCurrentBlock_grows (hr : r.Open g) (hh : dev.Holds (r.psas ++ r.sums ++ held))
    (h : r.paddingCurrentBlock g dev = .ok (r', dev')) :
  r'.Open g ∧ r.Grows g held r' dev dev' [] ∧ r'.stBody.cur.page = [] ∧ r'.buffered = [] ∧
    r'.nowEntryNum = r.nowEntryNum ∧ r'.stBody.nowSteNum ≤ r'.stBody.maxSteNum
  := by
  simp only [paddingCurrentBlock, bind_eq_ok] at h
  obtain ⟨⟨r₁, dev₁⟩, hflush, ⟨res, sa⟩, hskip, h⟩ := h
  dsimp only at hskip h
  obtain ⟨hhalf, hgrow, hbuf, hnow⟩ := flushBuffer_grows hr hh hflush
  unfold StArray.forceSkipBlock at hskip
  split at hskip
  · cases hskip
  · rename_i hroom
    split at hskip
    · rename_i hw
      cases hskip
      simp only [if_true] at h
      have hne : r₁.stBody.cur.page ≠ [] := by simpa [hw] using hhalf.filling.writing
      rcases writeMeta_ok h with ⟨hwf, -, -⟩ | ⟨-, q, a, b, hval, rfl⟩
      · rw [hw] at hwf
        cases hwf
      · obtain ⟨hhalf', hgrow'⟩ := finish_grows (a := a) (b := b) hhalf hne hgrow.holds hval
        refine ⟨hhalf'.open rfl hbuf, hgrow.trans hgrow', rfl, hbuf, hnow, ?_⟩
        simp only [StArray.nowSteNum, StArray.finishSte, List.length_append,
          List.length_singleton] at hroom ⊢
        omega
    · rename_i hw
      cases hskip
      simp only [Bool.false_eq_true, if_false] at h
      cases h
      have hnil : r₁.stBody.cur.page = [] := by
        have := hhalf.filling.writing
        simp only [Bool.not_eq_true] at hw
        simpa [hw] using this
      use hhalf.open hnil hbuf, hgrow, hnil, hbuf, hnow, Nat.le_of_not_le hroom

/-- `run_insert_done`: all sectors are on flash. -/
theorem insertDone_grows (hr : r.Open g) (hh : dev.Holds (r.psas ++ r.sums ++ held))
    (h : r.insertDone g dev = .ok (r', dev')) :
  r'.Open g ∧ r.Grows g held r' dev dev' [] ∧ r'.stBody.cur.page = [] ∧ r'.pp = none ∧
    r'.nowEntryNum = r.nowEntryNum
  := by
  simp only [insertDone, bind_eq_ok] at h
  obtain ⟨⟨r₁, dev₁⟩, hflush, ⟨r₂, dev₂⟩, hmeta, hret⟩ := h
  cases hret
  dsimp only at hmeta
  obtain ⟨hhalf, hgrow, hbuf, hnow⟩ := flushBuffer_grows hr hh hflush
  obtain ⟨hhalf', hgrow', hnil, hpp, hnow'⟩ := writeMeta_grows hhalf hgrow.holds hmeta
  have hbuf' : r₂.buffered = [] := by rw [buffered, hpp, ← buffered, hbuf]
  obtain ⟨hshape, hcopies, hholds, hdata, hbal⟩ := hgrow.trans hgrow'
  have hopen : Run.Half g ({ r₂ with pp := none } : Run δ) :=
    ⟨hhalf'.type, hhalf'.filling, hhalf'.stes⟩
  refine ⟨hopen.open hnil rfl, ⟨?_, ?_, hholds, hdata, hbal⟩, hnil, rfl, ?_⟩
  · exact ⟨hshape.type, hshape.info, hshape.maxEntryNum, hshape.limitEntryNum,
      hshape.maxSteNum, hshape.mapType⟩
  · rw [List.append_nil] at hcopies
    rw [← hcopies, copies, copies, hbuf']
    rfl
  · rw [← hnow, ← hnow']

/-! ### Sequences of inserts -/

/-- A sequence of calls of `run_insert`. -/
def insertAll (g : Geometry) : List (ℕ × δ) → Run δ → ShortcutMaster → Dev δ →
    Except Abort (Run δ × ShortcutMaster × Dev δ)
  | [], r, sc, dev => .ok (r, sc, dev)
  | x :: xs, r, sc, dev => do
      let (r, sc, dev) ← r.insert g sc dev x.1 x.2
      insertAll g xs r sc dev

/-- A sequence of inserts into a normal run does not look at the shortcut. -/
theorem insertAll_grows (xs : List (ℕ × δ)) (hxs : ∀ x ∈ xs, x.1 ≤ uint32Max) :
  ∀ {r : Run δ} {sc sc' : ShortcutMaster} {dev : Dev δ}, r.Open g →
    dev.Holds (r.psas ++ r.sums ++ held) → insertAll g xs r sc dev = .ok (r', sc', dev') →
    r'.Open g ∧ r.Grows g held r' dev dev' xs ∧ sc' = sc ∧
      r'.nowEntryNum = r.nowEntryNum + xs.length
  := by
  induction xs with
  | nil =>
      intro r sc sc' dev hr hh h
      cases h
      exact ⟨hr, Grows.refl hh, rfl, rfl⟩
  | cons x xs ih =>
      intro r sc sc' dev hr hh h
      simp only [insertAll, bind_eq_ok] at h
      obtain ⟨⟨r₁, sc₁, dev₁⟩, hins, hrest⟩ := h
      simp only [insert, hr.type, bind_eq_ok] at hins
      obtain ⟨_, -, ⟨r₂, dev₂⟩, hsector, hret⟩ := hins
      cases hret
      obtain ⟨hr₁, hgrow, hnow⟩ := insertSector_grows hr (hxs x (by simp)) hh hsector
      obtain ⟨hr', hgrow', hsc, hnow'⟩ :=
        ih (fun y hy => hxs y (by simp [hy])) hr₁ hgrow.holds hrest
      refine ⟨hr', ?_, hsc, ?_⟩
      · simpa using hgrow.trans hgrow'
      · rw [hnow', hnow, List.length_cons]
        omega

end Run

end AppL
