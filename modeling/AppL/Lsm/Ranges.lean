import AppL.Lsm.Simulation
import AppL.Lsm.Flush

/-!
# The ranges of a merged run

The blocks that a merge writes are in the order of their ranges, one behind the other, when no
page of a normal source has an lba twice.  Nothing is needed of the device for this.
-/

namespace AppL

open Transition

variable {δ : Type} {g : Geometry}

/-- The range of a block that has a page. -/
theorem Ste.Meta.start_le_end {ste : Ste} (h : ste.Meta g) (hne : ste.page ≠ []) :
  ste.startLba ≤ ste.endLba
  := by
  obtain ⟨p, hp, heq⟩ := h.start_mem hne
  rw [← heq]
  apply h.le_end p hp

/-! ### The target -/

namespace Run

variable {r r' : Run δ} {dev dev' : Dev δ}

/-- The lbas behind the finished blocks: those of the current block and of the buffer. -/
def tail (r : Run δ) : List ℕ := r.stBody.cur.page.map (·.lba) ++ r.buffered.map (·.1)

/-- The places that are taken: those of the finished blocks, and one for every lba behind them. -/
def filled (g : Geometry) (r : Run δ) : ℕ :=
  g.maxSectorInBlock * r.stBody.nowSteNum + r.tail.length

/-- The number of blocks when the lbas behind the finished ones get a block of their own. -/
def closedNum (r : Run δ) : ℕ := r.stBody.nowSteNum + if r.tail = [] then 0 else 1

/-- All lbas of the run are below `n`. -/
def Below (r : Run δ) (n : ℕ) : Prop :=
  (∀ ste ∈ r.stBody.stes, ste.endLba < n) ∧ ∀ l ∈ r.tail, l < n

/-- A finished block of a run: it describes its page, whose lbas do not descend, and it has not
been moved. -/
structure Block (g : Geometry) (ste : Ste) : Prop where
  self : ste.Meta g
  ne : ste.page ≠ []
  copied : ste.copied = false
  asc : (ste.page.map (·.lba)).Pairwise (· ≤ ·)

theorem Block.start_le_end {ste : Ste} (h : Block g ste) :
  ste.startLba ≤ ste.endLba
  := h.self.start_le_end h.ne

/-- The finished blocks are in the order of their ranges, and the lbas behind them follow in
order. -/
structure Laid (g : Geometry) (r : Run δ) : Prop where
  type : r.type = .runNormal
  filling : r.stBody.Filling g
  lba_le : ∀ x ∈ r.buffered, x.1 ≤ uint32Max
  stes : ∀ ste ∈ r.stBody.stes, Block g ste
  ranged : StArray.Ranged r.stBody.stes
  asc : r.tail.Pairwise (· < ·)
  above : ∀ l ∈ r.tail, ∀ ste ∈ r.stBody.stes, ste.endLba < l

/-- `r'` is laid out, and no lba of it is above those of `r`. -/
def Lays (g : Geometry) (r r' : Run δ) : Prop := r'.Laid g ∧ ∀ n, r.Below n → r'.Below n

theorem Lays.trans {r'' : Run δ} (h : r.Lays g r') (h' : r'.Lays g r'') :
  r.Lays g r''
  := ⟨h'.1, fun n hn => h'.2 n (h.2 n hn)⟩

/-- The pieces of a page are appended to the current block. -/
theorem writePieces_appends (lbas : List ℕ) (hlbas : ∀ lba ∈ lbas, lba ≤ uint32Max) :
  ∀ {r : Run δ} {dev : Dev δ} {psas : List ℕ}, r.stBody.Filling g →
    writePieces g lbas r dev = .ok (psas, r', dev') →
    r'.stBody.Filling g ∧ r'.stBody.stes = r.stBody.stes ∧
      r'.stBody.cur.page.map (·.lba) = r.stBody.cur.page.map (·.lba) ++ lbas ∧
      r'.type = r.type ∧ r'.info = r.info
  := by
  induction lbas with
  | nil =>
      intro r dev psas hr h
      cases h
      exact ⟨hr, rfl, by simp, rfl, rfl⟩
  | cons lba lbas ih =>
      intro r dev psas hr h
      simp only [Run.writePieces, bind_eq_ok] at h
      obtain ⟨⟨psa, r₁, dev₁⟩, hfst, ⟨psas, r₂, dev₂⟩, hrest, hret⟩ := h
      cases hret
      obtain ⟨pba, -, hr₁, happ, -⟩ := writePiece_ok hr (hlbas lba (by simp)) hfst
      obtain ⟨hfill, hstes, hpage, htype, hinfo⟩ :=
        ih (fun l hl => hlbas l (by simp [hl])) hr₁ hrest
      obtain ⟨-, -, -, htype₁, hinfo₁, -⟩ := happ.fields
      refine ⟨hfill, hstes.trans happ.stes, ?_, htype.trans htype₁, hinfo.trans hinfo₁⟩
      rw [hpage, happ.page]
      simp

/-- A page with the buffered sectors and further ones behind them is written. -/
theorem Laid.writeBuffer {pp : PpBuffer δ} {items : List (ℕ × δ)} (hr : r.Laid g)
    (hpp : pp.items = r.buffered ++ items) (hle : ∀ x ∈ items, x.1 ≤ uint32Max)
    (hasc : (items.map (·.1)).Pairwise (· < ·)) (hbelow : ∀ x ∈ items, r.Below x.1)
    (h : r.writeBuffer g pp dev = .ok (r', dev')) :
  r'.reinit.Laid g ∧ r'.reinit.stBody.stes = r.stBody.stes ∧
    r'.reinit.tail = r.tail ++ items.map (·.1) ∧ r'.info = r.info
  := by
  simp only [Run.writeBuffer, bind_eq_ok] at h
  obtain ⟨⟨psas, r₁, dev₁⟩, hw, hret⟩ := h
  cases hret
  have hlbas : ∀ lba ∈ pp.items.map (·.1), lba ≤ uint32Max := by
    intro lba hlba
    obtain ⟨x, hx, rfl⟩ := List.mem_map.mp hlba
    rw [hpp] at hx
    rcases List.mem_append.mp hx with hx | hx
    · apply hr.lba_le x hx
    · apply hle x hx
  obtain ⟨hfill, hstes, hpage, htype, hinfo⟩ := writePieces_appends _ hlbas hr.filling hw
  have htail : r₁.reinit.tail = r.tail ++ items.map (·.1) := by
    change r₁.stBody.cur.page.map (·.lba) ++ [] = _
    rw [List.append_nil, hpage, hpp, List.map_append, tail, List.append_assoc]
  refine ⟨⟨htype.trans hr.type, hfill, ?_, ?_, ?_, ?_, ?_⟩, hstes, htail, hinfo⟩
  · exact List.forall_mem_nil _
  · change ∀ ste ∈ r₁.stBody.stes, _
    rw [hstes]
    apply hr.stes
  · change StArray.Ranged r₁.stBody.stes
    rw [hstes]
    apply hr.ranged
  · rw [htail, List.pairwise_append]
    use hr.asc, hasc
    intro a ha b hb
    obtain ⟨x, hx, rfl⟩ := List.mem_map.mp hb
    apply (hbelow x hx).2 a ha
  · change ∀ l ∈ _, ∀ ste ∈ r₁.stBody.stes, _
    rw [htail, hstes]
    intro l hl ste hste
    rcases List.mem_append.mp hl with hl | hl
    · apply hr.above l hl ste hste
    · obtain ⟨x, hx, rfl⟩ := List.mem_map.mp hl
      apply (hbelow x hx).1 ste hste

/-- One more block behind the others. -/
theorem ranged_concat {stes : List Ste} {ste : Ste} (h : StArray.Ranged stes)
    (hle : ste.startLba ≤ ste.endLba) (hlt : ∀ s ∈ stes, s.endLba < ste.startLba) :
  StArray.Ranged (stes ++ [ste])
  := by
  constructor
  · intro s hs
    rcases List.mem_append.mp hs with hs | hs
    · apply h.1 s hs
    · rw [List.mem_singleton.mp hs]
      apply hle
  · rw [List.pairwise_append]
    use h.2, List.pairwise_singleton _ _
    intro s hs t ht
    rw [List.mem_singleton.mp ht]
    apply hlt s hs

/-- A block is put behind the finished ones, when nothing is behind them. -/
theorem Laid.concat {ste : Ste} (hr : r.Laid g) (hste : Block g ste)
    (hlt : ∀ s ∈ r.stBody.stes, s.endLba < ste.startLba) (htype : r'.type = r.type)
    (hstes : r'.stBody.stes = r.stBody.stes ++ [ste]) (hfill : r'.stBody.Filling g)
    (htail : r'.tail = []) :
  r'.Laid g ∧ ∀ n, ste.endLba < n → (∀ s ∈ r.stBody.stes, s.endLba < n) → r'.Below n
  := by
  have hmem : ∀ {s : Ste}, s ∈ r'.stBody.stes → s ∈ r.stBody.stes ∨ s = ste := by
    intro s hs
    rw [hstes] at hs
    rcases List.mem_append.mp hs with hs | hs
    · left
      apply hs
    · right
      apply List.mem_singleton.mp hs
  refine ⟨⟨htype.trans hr.type, hfill, ?_, ?_, ?_, ?_, ?_⟩, ?_⟩
  · intro x hx
    have hbuf : r'.buffered.map (·.1) = [] := (List.append_eq_nil_iff.mp htail).2
    rw [List.map_eq_nil_iff.mp hbuf] at hx
    cases hx
  · intro s hs
    rcases hmem hs with hs | rfl
    · apply hr.stes s hs
    · apply hste
  · rw [hstes]
    apply ranged_concat hr.ranged hste.start_le_end hlt
  · rw [htail]
    exact .nil
  · rw [htail]
    exact nofun
  · intro n hn hall
    refine ⟨?_, ?_⟩
    · intro s hs
      rcases hmem hs with hs | rfl
      · apply hall s hs
      · apply hn
    · rw [htail]
      exact nofun

/-- The current block is closed. -/
theorem Laid.finish {q a b : ℕ} (hr : r.Laid g) (hne : r.stBody.cur.page ≠ [])
    (hbuf : r.buffered = []) :
  r.Lays g (r.finish q a b) ∧ (r.finish q a b).tail = []
  := by
  have htail : (r.finish q a b).tail = [] := by
    change [] ++ r.buffered.map (·.1) = []
    rw [hbuf]
    rfl
  have hmem : ∀ {p : SummaryPair}, p ∈ r.stBody.cur.page → p.lba ∈ r.tail := by
    intro p hp
    apply List.mem_append_left _ (List.mem_map_of_mem hp)
  have hcur := hr.filling.cur
  have hste : Block g { r.stBody.cur with piecePpa := q } := by
    refine ⟨⟨hcur.start_le, hcur.start_mem, hcur.start_top, hcur.le_end, hcur.end_mem,
      hcur.end_bot, hcur.piece, hcur.dvd, hcur.sorted, hcur.length_le⟩, hne,
      hr.filling.own.1, ?_⟩
    apply (List.pairwise_append.mp hr.asc).1.imp
    intro a b hab
    apply Nat.le_of_lt hab
  have hfill : (r.finish q a b).stBody.Filling g := by
    refine ⟨rfl, Nat.zero_le _, ?_, rfl, Ste.meta_empty g, rfl, rfl⟩
    have := g.maxSectorInBlock_pos
    simp only [Run.finish, StArray.finishSte, Ste.empty, List.length_nil, Bool.false_eq_true,
      false_iff]
    omega
  have hlt : ∀ s ∈ r.stBody.stes, s.endLba < r.stBody.cur.startLba := by
    intro s hs
    obtain ⟨p, hp, heq⟩ := hcur.start_mem hne
    rw [← heq]
    apply hr.above p.lba (hmem hp) s hs
  have htype : (r.finish q a b).type = r.type := rfl
  obtain ⟨hlaid, hbelow⟩ := hr.concat hste hlt htype rfl hfill htail
  refine ⟨⟨hlaid, ?_⟩, htail⟩
  intro n hn
  obtain ⟨p, hp, heq⟩ := hcur.end_mem hne
  apply hbelow n _ hn.1
  change r.stBody.cur.endLba < n
  rw [← heq]
  apply hn.2 p.lba (hmem hp)

theorem tail_ne_nil (hne : r.stBody.cur.page ≠ []) :
  r.tail ≠ []
  := by
  intro htail
  apply hne
  apply List.map_eq_nil_iff.mp (List.append_eq_nil_iff.mp htail).1

theorem finish_closedNum {q a b : ℕ} (hne : r.stBody.cur.page ≠ []) :
  (r.finish q a b).stBody.nowSteNum = r.closedNum
  := by
  rw [closedNum, if_neg (tail_ne_nil hne)]
  apply List.length_append

/-- `__run_write_meta` closes the current block, if there is something in it. -/
theorem Laid.writeMeta {force : Bool} (hr : r.Laid g) (hbuf : r.buffered = [])
    (h : r.writeMeta g dev force = .ok (r', dev')) :
  r.Lays g r' ∧ r'.tail = [] ∧ r'.info = r.info ∧ r'.stBody.nowSteNum = r.closedNum
  := by
  rcases writeMeta_ok h with ⟨hw, rfl, rfl⟩ | ⟨hw, q, a, b, -, rfl⟩
  · have hfill := hr.filling
    have hnil : r.stBody.cur.page = [] := by simpa [hw] using hfill.writing
    have htail : r.tail = [] := by
      rw [tail, hnil, hbuf]
      rfl
    refine ⟨⟨⟨hr.type, ?_, hr.lba_le, hr.stes, hr.ranged, hr.asc, hr.above⟩, fun n hn => hn⟩,
      htail, rfl, ?_⟩
    · exact ⟨hfill.inblock, hfill.le, hfill.alert, hfill.writing, hfill.cur, hfill.own⟩
    · rw [closedNum, if_pos htail]
      rfl
  · have hne : r.stBody.cur.page ≠ [] := by simpa [hw] using hr.filling.writing
    obtain ⟨hlays, htail⟩ := hr.finish (q := q) (a := a) (b := b) hne hbuf
    use hlays, htail, rfl
    apply finish_closedNum hne

/-- A run that nothing but the buffer and the number of entries changes in. -/
theorem Laid.congr (hr : r.Laid g) (hs : r'.stBody = r.stBody) (htype : r'.type = r.type)
    (hbuf : r'.buffered = r.buffered) :
  r'.Laid g
  := by
  have htail : r'.tail = r.tail := by rw [tail, tail, hs, hbuf]
  refine ⟨htype.trans hr.type, hs ▸ hr.filling, hbuf ▸ hr.lba_le, hs ▸ hr.stes, hs ▸ hr.ranged,
    htail ▸ hr.asc, ?_⟩
  rw [htail, hs]
  apply hr.above

/-- The run can be written to: the current block is not full. -/
def Room (g : Geometry) (r : Run δ) : Prop := r.stBody.cur.page.length < g.maxSectorInBlock

theorem room_of_tail (h : r.tail = []) :
  r.Room g
  := by
  have hnil := List.map_eq_nil_iff.mp (List.append_eq_nil_iff.mp h).1
  rw [Room, hnil]
  apply g.maxSectorInBlock_pos

/-- A block that is closed because it is full. -/
theorem Laid.closed_filled (hr : r.Laid g) (hbuf : r.buffered = [])
    (halert : r.stBody.summaryWriteAlert = true) (htail : r'.tail = [])
    (hnum : r'.stBody.nowSteNum = r.closedNum) :
  r'.filled g = r.filled g
  := by
  have hfull := hr.filling.alert.mp halert
  have hpos := g.maxSectorInBlock_pos
  have hlen : r.tail.length = g.maxSectorInBlock := by
    rw [tail, hbuf, List.map_nil, List.append_nil, List.length_map, hfull]
  have hne : r.tail ≠ [] := List.ne_nil_of_length_pos (hlen ▸ hpos)
  rw [filled, filled, hnum, closedNum, if_neg hne, htail, hlen, Nat.mul_succ, List.length_nil,
    Nat.add_zero]

/-- `run_insert` of a normal run after its checks, for an lba above all others. -/
theorem Laid.insertSector {lba : ℕ} {d : δ} (hr : r.Laid g) (hroom : r.Room g)
    (hlba : lba ≤ uint32Max) (hbelow : r.Below lba)
    (h : r.insertSector g dev lba d = .ok (r', dev')) :
  r'.Laid g ∧ r'.Room g ∧ r'.info = r.info ∧ r'.filled g = r.filled g + 1 ∧
    ∀ n, lba < n → r.Below n → r'.Below n
  := by
  have hone : ∀ x ∈ [(lba, d)], x.1 = lba := by
    intro x hx
    rw [List.mem_singleton.mp hx]
  rcases insertSector_ok (alert_eq_false hr.filling hroom) h with
    ⟨-, r₀, r₁, dev₀, hw, hmeta, rfl⟩ | ⟨-, rfl, rfl⟩
  · obtain ⟨hlaid, hstes, htail, hinfo⟩ := hr.writeBuffer ppInsert_items
      (fun x hx => hone x hx ▸ hlba) (List.pairwise_singleton _ _)
      (fun x hx => hone x hx ▸ hbelow) hw
    have hfilled : r₀.reinit.filled g = r.filled g + 1 := by
      rw [filled, StArray.nowSteNum, hstes, htail, List.length_append]
      rfl
    have hnext : ∀ n, lba < n → r.Below n → r₀.reinit.Below n := by
      intro n hn hb
      use hstes ▸ hb.1
      rw [htail]
      intro l hl
      rcases List.mem_append.mp hl with hl | hl
      · apply hb.2 l hl
      · rw [List.mem_singleton.mp hl]
        apply hn
    unfold writeMetaOnAlert at hmeta
    split at hmeta
    · rename_i halert
      obtain ⟨hlays, hnil, hinfo', hnum⟩ := hlaid.writeMeta rfl hmeta
      use hlays.1.congr rfl rfl rfl, room_of_tail hnil, hinfo'.trans hinfo,
        (hlaid.closed_filled rfl halert hnil hnum).trans hfilled
      intro n hn hb
      apply hlays.2 n (hnext n hn hb)
    · rename_i halert
      cases hmeta
      refine ⟨hlaid.congr rfl rfl rfl, ?_, hinfo, hfilled, hnext⟩
      apply lt_of_le_of_ne hlaid.filling.le (mt hlaid.filling.alert.mpr halert)
  · have hbuf : Run.buffered { r with
        pp := some (r.ppInsert lba d)
        nowEntryNum := r.nowEntryNum + 1 } = r.buffered ++ [(lba, d)] := ppInsert_items
    have htail : Run.tail { r with
        pp := some (r.ppInsert lba d)
        nowEntryNum := r.nowEntryNum + 1 } = r.tail ++ [lba] := by
      rw [tail, hbuf, tail, List.map_append, ← List.append_assoc]
      rfl
    refine ⟨⟨hr.type, hr.filling, ?_, hr.stes, hr.ranged, ?_, ?_⟩, hroom, rfl, ?_, ?_⟩
    · rw [hbuf]
      intro x hx
      rcases List.mem_append.mp hx with hx | hx
      · apply hr.lba_le x hx
      · exact hone x hx ▸ hlba
    · rw [htail, List.pairwise_append]
      use hr.asc, List.pairwise_singleton _ _
      intro a ha b hb
      rw [List.mem_singleton.mp hb]
      apply hbelow.2 a ha
    · rw [htail]
      intro l hl ste hste
      rcases List.mem_append.mp hl with hl | hl
      · apply hr.above l hl ste hste
      · rw [List.mem_singleton.mp hl]
        apply hbelow.1 ste hste
    · rw [filled, htail, List.length_append]
      rfl
    · intro n hn hb
      use hb.1
      rw [htail]
      intro l hl
      rcases List.mem_append.mp hl with hl | hl
      · apply hb.2 l hl
      · rw [List.mem_singleton.mp hl]
        apply hn

/-- Sectors above all others are inserted in the order of their lbas. -/
theorem Laid.insertAll (xs : List (ℕ × δ)) :
  ∀ {r : Run δ} {sc sc' : ShortcutMaster} {dev : Dev δ}, r.Laid g → r.Room g →
    (∀ x ∈ xs, x.1 ≤ uint32Max) → (xs.map (·.1)).Pairwise (· < ·) →
    (∀ x ∈ xs, r.Below x.1) → insertAll g xs r sc dev = .ok (r', sc', dev') →
    r'.Laid g ∧ r'.Room g ∧ r'.filled g = r.filled g + xs.length ∧
      ∀ n, (∀ x ∈ xs, x.1 < n) → r.Below n → r'.Below n
  := by
  induction xs with
  | nil =>
      intro r sc sc' dev hr hroom _ _ _ h
      cases h
      use hr, hroom, rfl, fun _ _ hn => hn
  | cons x xs ih =>
      intro r sc sc' dev hr hroom hle hasc hbelow h
      simp only [Run.insertAll, bind_eq_ok] at h
      obtain ⟨⟨r₁, sc₁, dev₁⟩, hins, hrest⟩ := h
      simp only [Run.insert, hr.type, bind_eq_ok, require_eq_ok] at hins
      obtain ⟨-, -, ⟨r₂, dev₂⟩, hsec, hret⟩ := hins
      cases hret
      obtain ⟨hlaid, hroom', -, hfilled, hnext⟩ := hr.insertSector hroom (hle x List.mem_cons_self)
        (hbelow x List.mem_cons_self) hsec
      rw [List.map_cons, List.pairwise_cons] at hasc
      have hhead : ∀ y ∈ xs, x.1 < y.1 := fun y hy => hasc.1 y.1 (List.mem_map_of_mem hy)
      obtain ⟨hlaid', hroom'', hfilled', hnext'⟩ := ih hlaid hroom'
        (fun y hy => hle y (List.mem_cons_of_mem _ hy)) hasc.2
        (fun y hy => hnext y.1 (hhead y hy) (hbelow y (List.mem_cons_of_mem _ hy))) hrest
      refine ⟨hlaid', hroom'', ?_, ?_⟩
      · rw [hfilled', hfilled, List.length_cons]
        omega
      intro n hn hb
      apply hnext' n fun y hy => hn y (List.mem_cons_of_mem _ hy)
      apply hnext n (hn x List.mem_cons_self) hb

/-- A run whose blocks are as they were and whose lbas are the same ones. -/
theorem Laid.lays (hr' : r'.Laid g) (hstes : r'.stBody.stes = r.stBody.stes)
    (htail : r'.tail = r.tail) :
  r.Lays g r'
  := by
  use hr'
  intro n hn
  rw [Below, hstes, htail]
  apply hn

theorem Laid.flushBuffer (hr : r.Laid g) (h : r.flushBuffer g dev = .ok (r', dev')) :
  r'.Laid g ∧ r'.stBody.stes = r.stBody.stes ∧ r'.tail = r.tail ∧ r'.buffered = [] ∧
    r'.info = r.info
  := by
  unfold Run.flushBuffer at h
  split at h
  · rename_i hpp
    cases h
    refine ⟨hr, rfl, rfl, ?_, rfl⟩
    rw [buffered, hpp]
    rfl
  · rename_i pp hpp
    have hbuf : r.buffered = pp.items := by
      rw [buffered, hpp]
      rfl
    split at h
    · rename_i hnil
      cases h
      exact ⟨hr, rfl, rfl, hbuf.trans hnil, rfl⟩
    · rw [bind_eq_ok] at h
      obtain ⟨⟨r₀, dev₀⟩, hw, hret⟩ := h
      cases hret
      have hitems : pp.items = r.buffered ++ [] := by rw [List.append_nil, hbuf]
      obtain ⟨hlaid, hstes, htail, hinfo⟩ := hr.writeBuffer hitems (List.forall_mem_nil _) .nil
        (List.forall_mem_nil _) hw
      rw [List.map_nil, List.append_nil] at htail
      exact ⟨hlaid, hstes, htail, rfl, hinfo⟩

theorem closedNum_congr (hstes : r'.stBody.stes = r.stBody.stes) (htail : r'.tail = r.tail) :
  r'.closedNum = r.closedNum
  := by
  rw [closedNum, closedNum, StArray.nowSteNum, StArray.nowSteNum, hstes, htail]

theorem Laid.paddingCurrentBlock (hr : r.Laid g)
    (h : r.paddingCurrentBlock g dev = .ok (r', dev')) :
  r.Lays g r' ∧ r'.tail = [] ∧ r'.info = r.info ∧ r'.stBody.nowSteNum = r.closedNum
  := by
  simp only [Run.paddingCurrentBlock, bind_eq_ok] at h
  obtain ⟨⟨r₁, dev₁⟩, hflush, ⟨res, sa⟩, hskip, h⟩ := h
  obtain ⟨hlaid, hstes, htail, hbuf, hinfo⟩ := hr.flushBuffer hflush
  have hlays := hlaid.lays hstes htail
  rw [← closedNum_congr hstes htail]
  dsimp only at hskip h hlays hbuf hinfo
  unfold StArray.forceSkipBlock at hskip
  split at hskip
  · cases hskip
  · split at hskip
    · rename_i hw
      cases hskip
      simp only [if_true] at h
      rcases writeMeta_ok h with ⟨hwf, -, -⟩ | ⟨-, q, a, b, -, rfl⟩
      · exact absurd (hw.symm.trans hwf) (by decide)
      · have hne : r₁.stBody.cur.page ≠ [] := by simpa [hw] using hlays.1.filling.writing
        obtain ⟨hlays', htail⟩ := hlays.1.finish (q := q) (a := a) (b := b) hne hbuf
        use hlays.trans hlays', htail, hinfo
        apply finish_closedNum hne
    · rename_i hw
      cases hskip
      simp only [Bool.false_eq_true, if_false] at h
      cases h
      have hnil : r₁.stBody.cur.page = [] := by simpa [hw] using hlays.1.filling.writing
      have htail₁ : r₁.tail = [] := by
        rw [tail, hnil, hbuf]
        rfl
      use hlays, htail₁, hinfo
      rw [closedNum, if_pos htail₁]
      rfl

theorem Laid.insertDone (hr : r.Laid g) (h : r.insertDone g dev = .ok (r', dev')) :
  r.Lays g r' ∧ r'.tail = [] ∧ r'.stBody.nowSteNum = r.closedNum
  := by
  simp only [Run.insertDone, bind_eq_ok] at h
  obtain ⟨⟨r₁, dev₁⟩, hflush, ⟨r₂, dev₂⟩, hmeta, hret⟩ := h
  cases hret
  obtain ⟨hlaid, hstes, htail₁, hbuf, -⟩ := hr.flushBuffer hflush
  have hlays := hlaid.lays hstes htail₁
  obtain ⟨hlays', htail, -, hnum⟩ := hlays.1.writeMeta hbuf hmeta
  have hbuf' : r₂.buffered = [] := List.map_eq_nil_iff.mp (List.append_eq_nil_iff.mp htail).2
  have hnil : Run.tail ({ r₂ with pp := none } : Run δ) = [] := by
    rw [tail, hbuf'] at htail
    apply htail
  refine ⟨⟨hlays'.1.congr rfl rfl ?_, ?_⟩, hnil, hnum.trans (closedNum_congr hstes htail₁)⟩
  · rw [hbuf']
    rfl
  · intro n hn
    use (hlays'.2 n (hlays.2 n hn)).1
    rw [hnil]
    exact List.forall_mem_nil _

theorem takeSte_tail {ste : Ste} {k : ℕ} (htail : r.tail = []) :
  (r.takeSte ste k).tail = []
  := by
  change [] ++ r.buffered.map (·.1) = []
  rw [(List.append_eq_nil_iff.mp htail).2]
  rfl

/-- The target takes over a block that is above all its lbas. -/
theorem Laid.takeSte {ste : Ste} {k : ℕ} (hr : r.Laid g) (htail : r.tail = [])
    (hste : Block g ste) (hbelow : r.Below ste.startLba) :
  (r.takeSte ste k).Laid g ∧ (r.takeSte ste k).tail = [] ∧
    ∀ n, ste.endLba < n → (r.takeSte ste k).Below n
  := by
  have htail' : (r.takeSte ste k).tail = [] := takeSte_tail htail
  have hfill : (r.takeSte ste k).stBody.Filling g := by
    refine ⟨rfl, Nat.zero_le _, ?_, rfl, Ste.meta_empty g, rfl, rfl⟩
    have halert := alert_eq_false hr.filling (room_of_tail htail)
    have := g.maxSectorInBlock_pos
    simp only [Run.takeSte, halert, Ste.empty, List.length_nil, Bool.false_eq_true, false_iff]
    omega
  have htype : (r.takeSte ste k).type = r.type := rfl
  obtain ⟨hlaid, hnext⟩ := hr.concat hste hbelow.1 htype rfl hfill htail'
  use hlaid, htail'
  intro n hn
  apply hnext n hn
  intro s hs
  have := hbelow.1 s hs
  have := hste.start_le_end
  omega

end Run

/-! ### A merge -/

namespace Merging

variable {moves : ℕ → Ste → Prop} {m m' : Merging δ}

/-- The target, the entries that have been taken and those left in the sources are in order,
one behind the other. -/
structure Ordered (g : Geometry) (m : Merging δ) : Prop where
  laid : m.res.Laid g
  room : m.res.Room g
  res_le : m.res.Below (uint32Max + 1)
  le : ∀ x ∈ m.srcs, ∀ e ∈ x.2, e.lba ≤ uint32Max
  asc : ∀ x ∈ m.srcs, x.2.Pairwise fun a b => a.lba < b.lba
  taken_asc : (m.sorted.map (·.2.lba)).Pairwise (· < ·)
  taken_le : ∀ y ∈ m.sorted, y.2.lba ≤ uint32Max
  taken : ∀ y ∈ m.sorted, m.res.Below y.2.lba
  below : ∀ x ∈ m.srcs, ∀ e ∈ x.2, m.res.Below e.lba ∧ ∀ y ∈ m.sorted, y.2.lba < e.lba

theorem Ordered.skip {as bs : List (ℕ × List Entry)} {idx : ℕ} {e : Entry} {l : List Entry}
    {dev : Dev δ} (h : m.Ordered g) (hsrcs : m.srcs = as ++ (idx, e :: l) :: bs) :
  Ordered g { m with srcs := as ++ (idx, l) :: bs, dev := dev }
  := by
  have hmem : ∀ x ∈ as ++ (idx, l) :: bs, ∃ y ∈ m.srcs, x.2.Sublist y.2 := by
    intro x hx
    rcases mem_srcs hx with rfl | hx
    · refine ⟨(idx, e :: l), ?_, List.sublist_cons_self _ _⟩
      rw [hsrcs]
      simp
    · refine ⟨x, ?_, List.Sublist.refl _⟩
      rw [hsrcs]
      simp only [List.mem_append, List.mem_cons] at hx ⊢
      tauto
  refine ⟨h.laid, h.room, h.res_le, ?_, ?_, h.taken_asc, h.taken_le, h.taken, ?_⟩
  · intro x hx e' he'
    obtain ⟨y, hy, hsub⟩ := hmem x hx
    apply h.le y hy e' (hsub.subset he')
  · intro x hx
    obtain ⟨y, hy, hsub⟩ := hmem x hx
    apply (h.asc y hy).sublist hsub
  · intro x hx e' he'
    obtain ⟨y, hy, hsub⟩ := hmem x hx
    apply h.below y hy e' (hsub.subset he')

theorem Ordered.push {as bs : List (ℕ × List Entry)} {idx : ℕ} {e : Entry} {l : List Entry}
    {dev : Dev δ} (h : m.Ordered g) (hsrcs : m.srcs = as ++ (idx, e :: l) :: bs)
    (hmin : ∀ x ∈ m.srcs, ∀ e' ∈ x.2, e.lba ≤ e'.lba) :
  Ordered g { m with
    srcs := as.map (dropLba e.lba) ++ (idx, l) :: bs.map (dropLba e.lba)
    sorted := m.sorted ++ [(idx, e)]
    dev := dev }
  := by
  have hself : (idx, e :: l) ∈ m.srcs := by
    rw [hsrcs]
    simp
  have hmem := fun x hx => mem_push as bs idx (x := x) (h.asc _ hself) hx
  rw [← hsrcs] at hmem
  obtain ⟨hres, htaken⟩ := h.below _ hself e List.mem_cons_self
  have htake : ∀ y ∈ m.sorted ++ [(idx, e)], y ∈ m.sorted ∨ y = (idx, e) := by
    intro y hy
    simpa using hy
  refine ⟨h.laid, h.room, h.res_le, ?_, ?_, ?_, ?_, ?_, ?_⟩
  · intro x hx e' he'
    obtain ⟨y, hy, -, hsub, -⟩ := hmem x hx
    apply h.le y hy e' (hsub.subset he')
  · intro x hx
    obtain ⟨y, hy, -, hsub, -⟩ := hmem x hx
    apply (h.asc y hy).sublist hsub
  · rw [List.map_append, List.pairwise_append]
    use h.taken_asc, List.pairwise_singleton _ _
    intro a ha b hb
    obtain ⟨y, hy, rfl⟩ := List.mem_map.mp ha
    rw [List.mem_singleton.mp hb]
    apply htaken y hy
  · intro y hy
    rcases htake y hy with hy | rfl
    · apply h.taken_le y hy
    · apply h.le _ hself e List.mem_cons_self
  · intro y hy
    rcases htake y hy with hy | rfl
    · apply h.taken y hy
    · apply hres
  · intro x hx e' he'
    obtain ⟨y, hy, -, hsub, hne, -⟩ := hmem x hx
    obtain ⟨hbelow, hlt⟩ := h.below y hy e' (hsub.subset he')
    use hbelow
    intro z hz
    rcases htake z hz with hz | rfl
    · apply hlt z hz
    · apply lt_of_le_of_ne (hmin y hy e' (hsub.subset he')) (hne e' he').symm

theorem Ordered.flush {res : Run δ} {sc sc' : ShortcutMaster} {dev dev' : Dev δ}
    (h : m.Ordered g)
    (hres : Run.insertAll g (m.sorted.map fun x => (x.2.lba, m.dev.data x.2.psa)) m.res m.sc
      dev = .ok (res, sc, dev')) :
  Ordered g { m with sorted := [], res := res, sc := sc', dev := dev' } ∧
    res.filled g = m.res.filled g + m.sorted.length
  := by
  have hmem : ∀ x ∈ m.sorted.map fun x => (x.2.lba, m.dev.data x.2.psa),
      ∃ y ∈ m.sorted, x.1 = y.2.lba := by
    intro x hx
    obtain ⟨y, hy, rfl⟩ := List.mem_map.mp hx
    exact ⟨y, hy, rfl⟩
  have hasc : ((m.sorted.map fun x => (x.2.lba, m.dev.data x.2.psa)).map (·.1)).Pairwise
      (· < ·) := by
    rw [List.map_map]
    apply h.taken_asc
  obtain ⟨hlaid, hroom, hfilled, hnext⟩ := h.laid.insertAll _ h.room
    (fun x hx => by
      obtain ⟨y, hy, heq⟩ := hmem x hx
      exact heq ▸ h.taken_le y hy) hasc
    (fun x hx => by
      obtain ⟨y, hy, heq⟩ := hmem x hx
      exact heq ▸ h.taken y hy) hres
  rw [List.length_map] at hfilled
  refine ⟨⟨hlaid, hroom, ?_, h.le, h.asc, .nil, nofun, nofun, ?_⟩, hfilled⟩
  · apply hnext _ _ h.res_le
    intro z hz
    obtain ⟨y, hy, heq⟩ := hmem z hz
    exact heq ▸ Nat.lt_succ_of_le (h.taken_le y hy)
  intro x hx e he
  obtain ⟨hbelow, hlt⟩ := h.below x hx e he
  refine ⟨hnext e.lba ?_ hbelow, nofun⟩
  intro z hz
  obtain ⟨y, hy, heq⟩ := hmem z hz
  exact heq ▸ hlt y hy

/-- A block is moved to the target, and what is left in the sources is above it. -/
theorem Ordered.takeBlock {srcs : List (ℕ × List Entry)} {sums : List ℕ} {res : Run δ}
    {sc : ShortcutMaster} {dev : Dev δ} {ste : Ste} {k : ℕ} (h : m.Ordered g)
    (hsub : ∀ x ∈ srcs, ∃ y ∈ m.srcs, x.2.Sublist y.2)
    (hres : m.res.paddingCurrentBlock g m.dev = .ok (res, dev)) (hste : Run.Block g ste)
    (hle : ste.endLba ≤ uint32Max) (hbelow : m.res.Below ste.startLba)
    (habove : ∀ x ∈ srcs, ∀ e ∈ x.2, ste.endLba < e.lba) :
  Ordered g ⟨srcs, [], sums, res.takeSte ste k, sc, dev⟩
  := by
  obtain ⟨hlays, htail, -⟩ := h.laid.paddingCurrentBlock hres
  obtain ⟨hlaid, htail', hnext⟩ :=
    hlays.1.takeSte (k := k) htail hste (hlays.2 _ hbelow)
  refine ⟨hlaid, Run.room_of_tail htail', hnext _ (Nat.lt_succ_of_le hle), ?_, ?_, .nil, nofun,
    nofun, ?_⟩
  · intro x hx e he
    obtain ⟨y, hy, hs⟩ := hsub x hx
    apply h.le y hy e (hs.subset he)
  · intro x hx
    obtain ⟨y, hy, hs⟩ := hsub x hx
    apply (h.asc y hy).sublist hs
  · intro x hx e he
    use hnext e.lba (habove x hx e he), nofun

/-- Every step of a merge keeps the order. -/
theorem Ordered.step (h : m.Ordered g) (hstep : m.Step g moves m') :
  m'.Ordered g
  := by
  cases hstep with
  | skip hsrcs _ _ => apply h.skip hsrcs
  | push hsrcs _ hmin _ => apply h.push hsrcs hmin
  | flush _ hres _ => apply (h.flush hres).1
  | @move as bs idx ste l sums res sc dev mf hsrcs hsorted hmeta hne hcopied _ hapart _ hres _ =>
      have hself : (idx, ste.entries ++ l) ∈ m.srcs := by
        rw [hsrcs]
        simp
      have hmem : ∀ {p : SummaryPair}, p ∈ ste.page →
          (⟨p.lba, p.piecePpa, ste.orig⟩ : Entry) ∈ ste.entries ++ l := by
        intro p hp
        apply List.mem_append_left _ (List.mem_map_of_mem hp)
      have hasc := h.asc _ hself
      rw [List.pairwise_append] at hasc
      obtain ⟨q, hq, hend⟩ := hmeta.end_mem hne
      have hblock : Run.Block g (moved m.sc idx ste mf) := by
        use moved_meta hmeta m.sc idx mf, hne, hcopied
        change (ste.page.map (·.lba)).Pairwise (· ≤ ·)
        have hpage := hasc.1
        rw [Ste.entries, List.pairwise_map] at hpage
        rw [List.pairwise_map]
        apply hpage.imp Nat.le_of_lt
      rw [hsorted]
      apply h.takeBlock _ hres hblock
      · change ste.endLba ≤ uint32Max
        rw [← hend]
        apply h.le _ hself _ (hmem hq)
      · obtain ⟨p, hp, heq⟩ := hmeta.start_mem hne
        change m.res.Below ste.startLba
        rw [← heq]
        apply (h.below _ hself _ (hmem hp)).1
      · intro x hx e he
        rcases mem_srcs hx with rfl | hx
        · change ste.endLba < e.lba
          rw [← hend]
          apply hasc.2.2 ⟨q.lba, q.piecePpa, ste.orig⟩ (List.mem_map_of_mem hq) e he
        · apply hapart x hx e he
      · intro x hx
        rcases mem_srcs hx with rfl | hx
        · exact ⟨_, hself, List.sublist_append_right _ _⟩
        · refine ⟨x, ?_, List.Sublist.refl _⟩
          rw [hsrcs]
          simp only [List.mem_append, List.mem_cons] at hx ⊢
          tauto

theorem Ordered.steps (h : m.Ordered g) (hsteps : m.Steps g moves m') :
  m'.Ordered g
  := by
  induction hsteps with
  | refl => apply h
  | tail _ hstep ih => apply ih.step hstep

end Merging

/-! ### The blocks of the sources -/

/-- Blocks with the same ranges. -/
theorem StArray.Ranged.congr {stes stes' : List Ste} (h : Ranged stes)
    (heq : stes.map (fun s => (s.startLba, s.endLba))
      = stes'.map fun s => (s.startLba, s.endLba)) :
  Ranged stes'
  := by
  constructor
  · have hle : ∀ x ∈ stes.map (fun s => (s.startLba, s.endLba)), x.1 ≤ x.2 := by
      intro x hx
      obtain ⟨s, hs, rfl⟩ := List.mem_map.mp hx
      apply h.1 s hs
    rw [heq] at hle
    intro s hs
    apply hle _ (List.mem_map_of_mem hs)
  · have hlt : (stes.map fun s => (s.startLba, s.endLba)).Pairwise fun a b => a.2 < b.1 :=
      List.pairwise_map.mpr h.2
    rw [heq] at hlt
    apply List.pairwise_map.mp hlt

/-- Every entry that is left in a source lies in the range of a block of it. -/
theorem Mm.Reads.covered {mm : Mm δ} {e : Entry} (h : mm.Reads g) (he : e ∈ mm.left g) :
  ∃ (k : ℕ) (ste : Ste), mm.r.stBody.stes[k]? = some ste ∧ ste.Covers e.lba
  := by
  rcases h with h | h
  · rw [Mm.left, h.type] at he
    obtain ⟨es, hes, he⟩ := List.mem_flatten.mp he
    obtain ⟨orig, page, hpage, rfl⟩ : ∃ orig page, page ∈ mm.ssi.pages ∧
        es = Mm.pageEntries orig page := by
      rw [← List.map_uncurry_zip_eq_zipWith] at hes
      obtain ⟨x, hx, rfl⟩ := List.mem_map.mp hes
      exact ⟨x.1, x.2, (List.of_mem_zip hx).2, rfl⟩
    obtain ⟨p, hp, rfl⟩ := List.mem_map.mp he
    rcases h.pages with hnil | ⟨before, pre, page', after, hstes, -, -, hpages⟩
    · rw [hnil] at hpage
      cases hpage
    · obtain ⟨ste, hste, hmem⟩ : ∃ ste ∈ mm.r.stBody.stes, p ∈ ste.page := by
        have hin : ∃ q ∈ mm.r.stBody.stes.map (·.page), p ∈ q := by
          rw [hstes]
          rw [hpages] at hpage
          rcases List.mem_cons.mp hpage with rfl | hpage
          · use pre ++ page, by simp, by simp [hp]
          · use page, by simp [hpage], hp
        obtain ⟨q, hq, hpq⟩ := hin
        obtain ⟨ste, hste, rfl⟩ := List.mem_map.mp hq
        use ste, hste, hpq
      obtain ⟨k, hk⟩ := List.mem_iff_getElem?.mp hste
      exact ⟨k, ste, hk, (h.stes ste hste).1.covers hmem⟩
  · rw [Mm.left, h.type] at he
    obtain ⟨x, hx, rfl⟩ := List.mem_map.mp he
    obtain ⟨pre, hpre⟩ := h.tree
    have hmem : x ∈ mm.r.runLogMf := by
      rw [hpre]
      apply List.mem_append_right _ hx
    obtain ⟨hlt, hcov⟩ := h.run.covers hmem
    refine ⟨_, _, List.getElem?_eq_getElem hlt, ?_⟩
    rw [StArray.steAt, List.getElem?_eq_getElem hlt, Option.getD_some] at hcov
    apply hcov

theorem Mm.Reads.setDone {mm : Mm δ} {done : Bool} (h : mm.Reads g) :
  Mm.Reads g { mm with done := done }
  := by
  rcases h with h | h
  · left
    use h.run, h.type, h.stes, h.pages
  · right
    exact ⟨h.run, h.type, h.tree⟩

/-- A normal run is at the block that covers its next entry. -/
theorem Mm.ReadsNormal.covers {mm : Mm δ} {e : Entry} {l : List Entry} {ste : Ste}
    (h : mm.ReadsNormal g) (hl : mm.left g = e :: l)
    (hste : mm.r.stBody.stes[mm.ssi.nowSteNum]? = some ste) :
  ste.Covers e.lba
  := by
  cases hp : mm.ssi.pages with
  | nil => simp [Mm.left, h.type, hp] at hl
  | cons page after =>
      obtain ⟨ste', pre, hste', hpage, hne, -, hleft⟩ := h.left_cons hp
      cases hste.symm.trans hste'
      cases page with
      | nil => exact absurd rfl hne
      | cons p ps =>
          rw [hleft, Mm.pageEntries, List.map_cons, List.cons_append] at hl
          cases hl
          apply (h.stes ste (List.mem_of_getElem? hste)).1.covers (p := p)
          rw [hpage]
          simp

/-- The blocks of a source describe their pages. -/
theorem Mm.Reads.meta {mm : Mm δ} {ste : Ste} (h : mm.Reads g) (hste : ste ∈ mm.r.stBody.stes) :
  ste.Meta g ∧ ste.page ≠ []
  := by
  rcases h with h | h
  · apply h.stes ste hste
  · use (h.run.stes ste hste).1, (h.run.stes ste hste).2.1

namespace MergeState

variable {st st' : MergeState δ} {m : Merging δ} {blocks : List (RunType × List Ste)}

/-- The blocks of a source are those from before the merge. -/
theorem blocks_get {i : ℕ} {mm : Mm δ} (h : Sim g blocks st m) (hi : st.mms[i]? = some mm) :
  blocks[i]? = some (mm.r.type, mm.r.stBody.stes.map Ste.core)
  := by
  rw [← h.same, blocksOf, List.map_map, List.getElem?_map, hi]
  rfl

/-- A block to be moved is a block of its source, as it is now. -/
theorem Movable.get {i j : ℕ} {mm : Mm δ} {ste : Ste} (h : Sim g blocks st m)
    (hi : st.mms[i]? = some mm) (hmov : Movable blocks i j ste) :
  ∃ s, mm.r.stBody.stes[j]? = some s ∧ s.core = ste
  := by
  obtain ⟨t, stes, hget, hste⟩ := hmov.mem
  cases (blocks_get h hi).symm.trans hget
  rw [List.getElem?_map] at hste
  apply Option.map_eq_some_iff.mp hste

/-- No other block covers an lba of a block to be moved. -/
theorem Movable.unique {i j k k' lba : ℕ} {mm : Mm δ} {ste s : Ste} (h : Sim g blocks st m)
    (hk : st.mms[k]? = some mm) (hmov : Movable blocks i j ste)
    (hs : mm.r.stBody.stes[k']? = some s) (hcov : s.Covers lba) (hcov' : ste.Covers lba) :
  k = i ∧ k' = j
  := by
  by_contra hne
  have hne' : k ≠ i ∨ k' ≠ j := by
    by_contra hboth
    apply hne
    simpa using hboth
  have hstes : (mm.r.stBody.stes.map Ste.core)[k']? = some s.core := by
    rw [List.getElem?_map, hs]
    rfl
  apply (hmov.apart k _ _ k' s.core (blocks_get h hk) hstes hne').not_covers hcov hcov'

/-- The block that `trivial_move` takes covers the lba that its source is at. -/
theorem targetSte_covers {mm : Mm δ} {p : Picked} {steNum : ℕ} (h : mm.Reads g)
    (hp : mm.pick g = some p) (hste : targetSte g mm p.lba = some steNum) :
  ∃ s, mm.r.stBody.stes[steNum]? = some s ∧ s.Covers p.lba
  := by
  rcases h with h | h
  · simp only [targetSte, h.run] at hste
    obtain ⟨hlt, hstart, hend⟩ := StArray.findTargetLoop_some _ hste
    have hget := List.getElem?_eq_getElem hlt
    refine ⟨_, hget, ?_⟩
    rw [Mm.steAt_of_getElem? hget] at hstart hend
    use hstart
    rcases hend with heq | hle
    · rw [heq]
      obtain ⟨hmeta, hne⟩ := h.stes _ (List.getElem_mem hlt)
      apply hmeta.start_le_end hne
    · apply hle
  · simp only [targetSte, h.run.type] at hste
    obtain ⟨x, hx, rfl⟩ := Option.map_eq_some_iff.mp hste
    obtain ⟨t, ht⟩ := List.head?_eq_some_iff.mp hx
    obtain ⟨pre, hpre⟩ := h.tree
    have hmem : x ∈ mm.r.runLogMf := by
      rw [hpre, ht]
      simp
    obtain ⟨hlt, hcov⟩ := h.run.covers hmem
    have hlba : p.lba = x.1 := by
      simp only [Mm.pick, SpSetIter.pick, h.type, ht] at hp
      cases hp
      rfl
    refine ⟨_, List.getElem?_eq_getElem hlt, ?_⟩
    rw [StArray.steAt, List.getElem?_eq_getElem hlt, Option.getD_some] at hcov
    exact hlba ▸ hcov

/-- A source after its block `steNum` has been moved. -/
def leave (mm : Mm δ) (steNum : ℕ) (ssi : SpSetIter) : Mm δ :=
  { mm with
    r := Mm.leftRun mm.r steNum
    ssi := ssi
    done := mm.done || ssi.doneCheck }

/-- What `trivial_move` does to its source. -/
theorem leave_ok {mm mm₁ : Mm δ} {s : Ste} {lbas : List ℕ} {steNum fuel : ℕ} {ssi : SpSetIter}
    (h : mm.Reading g) (hs : mm.r.stBody.stes[steNum]? = some s)
    (hcollect : collectLbas g s.endLba fuel mm = .ok (lbas, mm₁))
    (hmove : mm₁.ssi.moveSte steNum s.endLba = .ok ssi) :
  ∃ es l, mm.left g = es ++ l ∧ lbas = es.map (·.lba) ∧ (∀ e ∈ es, e.lba ≤ s.endLba) ∧
    (∃ e ∈ es, e.lba = s.endLba) ∧ (∀ e ∈ l, s.endLba < e.lba) ∧ mm₁.r = mm.r ∧
    Mm.SameNoncopy mm.ssi ssi ∧ (leave mm₁ steNum ssi).Reading g ∧
    (leave mm₁ steNum ssi).left g = l
  := by
  obtain ⟨es, e, l, hleft, hlbas, hend, hleft₁, hreads₁, hrun, hnc₁, hdone₁⟩ :=
    Mm.collectLbas_ok fuel h.reads h.done hcollect
  have hasc := h.asc
  rw [hleft, List.pairwise_append, List.pairwise_cons] at hasc
  obtain ⟨-, ⟨habove, hasc'⟩, hbelow⟩ := hasc
  rw [hend] at habove
  have hcov : s.Covers s.endLba := by
    obtain ⟨hmeta, hne⟩ := h.reads.meta (List.mem_of_getElem? hs)
    use hmeta.start_le_end hne, Nat.le_refl _
  rw [← hend] at hmove
  obtain ⟨hreads, hl, hnc, -, hdone⟩ := Mm.moveSte_ok hreads₁ hleft₁
    (List.pairwise_cons.mpr ⟨hend.symm ▸ habove, hasc'⟩) (by
      intro htype ste hste
      rcases hreads₁ with hreads₁ | hreads₁
      · have hcov' := hreads₁.covers hleft₁ hste
        rw [hrun] at hste htype
        rw [hend] at hcov' ⊢
        cases (h.ranged htype).unique hs hste hcov hcov'
        cases hs.symm.trans hste
        rfl
      · rw [hreads₁.run.type] at htype
        cases htype) hmove
  obtain ⟨hreads', hl'⟩ := Mm.leftRun_reads hreads steNum
  refine ⟨es ++ [e], l, by rw [hleft, List.append_assoc]; rfl, hlbas, ?_,
    ⟨e, by simp, hend⟩, habove, hrun, ⟨hnc.1.trans hnc₁.1, hnc.2.trans hnc₁.2⟩,
    ⟨hreads'.setDone, ?_, ?_, ?_, ?_⟩, hl'.trans hl⟩
  · intro e' he'
    rcases List.mem_append.mp he' with he' | he'
    · have := hbelow e' he' e List.mem_cons_self
      omega
    · rw [List.mem_singleton.mp he', hend]
  · change List.Pairwise _ (Mm.left g { mm₁ with r := Mm.leftRun mm₁.r steNum, ssi := ssi })
    rw [hl', hl]
    apply hasc'
  · intro hd
    change Mm.left g { mm₁ with r := Mm.leftRun mm₁.r steNum, ssi := ssi } = []
    rw [hl', hl]
    rcases Bool.or_eq_true_iff.mp hd with hd | hd
    · rw [hdone₁ hd] at hleft₁
      cases hleft₁
    · apply hdone hd
  · change ∀ ste ∈ (Mm.leftRun mm₁.r steNum).stBody.stes, ste.copied = true →
      ∀ e ∈ Mm.left g { mm₁ with r := Mm.leftRun mm₁.r steNum, ssi := ssi }, ste.endLba < e.lba
    rw [hl', hl, hrun]
    intro ste hste hcopied e' he'
    obtain ⟨k, hk⟩ := List.mem_iff_getElem?.mp hste
    rw [Mm.leftRun, StArray.modifySte, List.getElem?_modify] at hk
    obtain ⟨s', hs', rfl⟩ := Option.map_eq_some_iff.mp hk
    split at hcopied
    · rename_i heq
      subst heq
      cases hs.symm.trans hs'
      rw [if_pos rfl]
      apply habove e' he'
    · rename_i hne
      rw [if_neg hne]
      apply h.copied s' (List.mem_of_getElem? hs') hcopied e'
      rw [hleft]
      simp [he']
  · intro htype
    change StArray.Ranged (mm₁.r.stBody.stes.modify steNum leftSte)
    rw [hrun]
    apply StArray.Ranged.congr (h.ranged (hrun ▸ htype))
    apply (Mm.map_modify_leftSte _ (fun _ => rfl) _ _).symm

theorem modify_concat {α : Type} (l : List α) (x : α) (f : α → α) :
  (l ++ [x]).modify l.length f = l ++ [f x]
  := by
  rw [List.modify_eq_take_drop, List.take_left, List.drop_left]
  rfl

/-- A merge whose sorted entries are written. -/
def flushed (g : Geometry) (st : MergeState δ) : Merging δ where
  srcs := st.mms.map fun mm => (mm.r.info, mm.left g)
  sorted := []
  sums := st.mms.flatMap fun mm => mm.r.ownSums
  res := st.res
  sc := st.sc
  dev := st.dev

/-- The blocks of the sources are the same after one of them has been left. -/
theorem blocksOf_set {ridx steNum : ℕ} {mm mm₁ mm' : Mm δ} (hget : st.mms[ridx]? = some mm)
    (hrun : mm₁.r = mm.r) (hr : mm'.r = Mm.leftRun mm₁.r steNum) :
  blocksOf ((st.mms.set ridx mm').map (·.r)) = blocksOf (st.mms.map (·.r))
  := by
  obtain ⟨hlt, rfl⟩ := List.getElem?_eq_some_iff.mp hget
  have hcore : (mm'.r.type, mm'.r.stBody.stes.map Ste.core)
      = ((st.mms[ridx]).r.type, (st.mms[ridx]).r.stBody.stes.map Ste.core) := by
    rw [hr, hrun]
    change (_, ((st.mms[ridx]).r.stBody.stes.modify steNum leftSte).map Ste.core) = _
    rw [Mm.map_modify_leftSte]
    · rfl
    · intro ste
      rfl
  rw [blocksOf, blocksOf, List.map_set, List.map_set, hcore]
  apply List.ext_getElem?
  intro k
  by_cases hk : ridx = k
  · subst hk
    rw [List.getElem?_set_self (by simpa using hlt)]
    simp [hlt]
  · rw [List.getElem?_set_ne hk]

/-- The block of the target that `trivial_move` makes of a block of a source. -/
def taken (sc : ShortcutMaster) (idx : ℕ) (unlinked : Bool) (mf : Option MapFunction)
    (ste : Ste) : Ste :=
  movedSte (sc.infoSet idx) unlinked { ste with unlinkedDataCopy := true, mf := mf }

/-- What a successful `trivial_move` has done. -/
theorem trivialMove_ok {ridx : ℕ} (hok : st.trivialMove g ridx = .ok st') :
  ∃ res dev mm p steNum lbas valid mm₁ ssi mf sc,
    st.res.paddingCurrentBlock g st.dev = .ok (res, dev) ∧ st.mms[ridx]? = some mm ∧
    mm.pick g = some p ∧ targetSte g mm p.lba = some steNum ∧
    collectLbas g (mm.r.stBody.steAt steNum).endLba (mm.ssi.remaining + 1) mm
      = .ok (lbas, mm₁) ∧
    valid = lbas.filter (st.sc.validityCheckLba mm₁.r.info ·) ∧
    (Merging.countUnlinked st.sc res.info (lbas.length - valid.length)).linkBulkLba res.info valid
      = .ok sc ∧
    mm₁.ssi.moveSte steNum (mm.r.stBody.steAt steNum).endLba = .ok ssi ∧
    st' = { st with
      mms := st.mms.set ridx (leave mm₁ steNum ssi)
      res := res.takeSte (taken st.sc mm₁.r.info (valid.length != lbas.length) mf
        (mm.r.stBody.steAt steNum)) lbas.length
      sc := sc
      dev := dev }
  := by
  simp only [trivialMove, bind_eq_ok, orThrow_eq_ok] at hok
  obtain ⟨⟨res, dev⟩, hpad, mm, hget, p, hp, steNum, hste, ⟨lbas, mm₁⟩, hcollect, sc, hlink, ssi,
    hmove, hret⟩ := hok
  cases hret
  refine ⟨res, dev, mm, p, steNum, lbas, _, mm₁, ssi,
    (if mm₁.ssi.differMap then some ⟨res.stBody.mapType, lbas.zipIdx⟩ else none).orElse
      fun _ => (mm.r.stBody.steAt steNum).mf,
    sc, hpad, hget, hp, hste, hcollect, rfl, hlink, hmove, ?_⟩
  simp only [StArray.copySte, StArray.modifySte, StArray.nowSteNum, modify_concat]
  rfl

/-- The block `s` of source `ridx`, with the entries `es` of it that the source is at and those
behind them, `l`. -/
structure BlockOf (g : Geometry) (st : MergeState δ) (ridx j : ℕ) (mm : Mm δ) (s : Ste)
    (es l : List Entry) : Prop where
  get : mm.r.stBody.stes[j]? = some s
  copied : s.copied = false
  left : mm.left g = es ++ l
  le : ∀ e ∈ es, e.lba ≤ s.endLba
  last : ∃ e ∈ es, e.lba = s.endLba
  above : ∀ e ∈ l, s.endLba < e.lba
  others : ∀ (k : ℕ) (x : Mm δ), st.mms[k]? = some x → k ≠ ridx →
    ∀ e ∈ x.left g, s.endLba < e.lba

/-- The block at which a source stands is moved to the target. -/
theorem trivialMove_block {ridx j : ℕ} {mm : Mm δ} {p : Picked} {ste : Ste}
    (h : Sim g blocks st m) (hsorted : m.sorted = [])
    (hat : AtBlock g blocks st ridx j mm p ste) (hok : st.trivialMove g ridx = .ok st') :
  ∃ s es l valid res dev mm₁ ssi mf sc, BlockOf g st ridx j mm s es l ∧ s.core = ste ∧
    s.startLba = p.lba ∧ st.res.paddingCurrentBlock g st.dev = .ok (res, dev) ∧
    mm₁.r = mm.r ∧ (leave mm₁ j ssi).left g = l ∧
    valid = (es.map (·.lba)).filter (st.sc.validityCheckLba mm.r.info ·) ∧
    (Merging.countUnlinked st.sc res.info (es.length - valid.length)).linkBulkLba res.info valid
      = .ok sc ∧
    st' = { st with
      mms := st.mms.set ridx (leave mm₁ j ssi)
      res := res.takeSte (taken st.sc mm.r.info (valid.length != es.length) mf s) es.length
      sc := sc
      dev := dev } ∧
    Sim g blocks st' (flushed g st')
  := by
  have hread := h.mms mm (List.mem_of_getElem? hat.picks.get)
  obtain ⟨res, dev, mm₀, p₀, steNum, lbas, valid, mm₁, ssi, mf, sc, hpad, hget, hp₀, hste,
    hcollect, hvalid, hlink, hmove, rfl⟩ := trivialMove_ok hok
  cases hat.picks.get.symm.trans hget
  cases hat.picks.pick.symm.trans hp₀
  obtain ⟨s, hs, hcov⟩ := targetSte_covers hread.reads hp₀ hste
  obtain ⟨s', hs', hcore⟩ := Movable.get h hget hat.movable
  have hcov' : ste.Covers p.lba := by
    obtain ⟨hmeta, hne⟩ := hread.reads.meta (List.mem_of_getElem? hs')
    rw [← hat.start, ← hcore]
    use Nat.le_refl _
    change s'.startLba ≤ s'.endLba
    apply hmeta.start_le_end hne
  obtain ⟨-, rfl⟩ := Movable.unique h hget hat.movable hs hcov hcov'
  cases hs.symm.trans hs'
  have hstart : s.startLba = p.lba := by
    rw [← hat.start, ← hcore]
    rfl
  rw [Mm.steAt_of_getElem? hs] at hcollect hmove ⊢
  obtain ⟨es, l, hleft, rfl, hle, hlast, habove, hrun, hnc, hread', hl⟩ :=
    leave_ok hread hs hcollect hmove
  rw [hrun] at hvalid ⊢
  rw [List.length_map] at hlink ⊢
  have hset : ∀ {k : ℕ} {x : Mm δ}, (st.mms.set ridx (leave mm₁ steNum ssi))[k]? = some x →
      (k = ridx ∧ x = leave mm₁ steNum ssi) ∨ (k ≠ ridx ∧ st.mms[k]? = some x) := by
    intro k x hk
    by_cases hkr : k = ridx
    · subst hkr
      rw [List.getElem?_set_self (List.getElem?_eq_some_iff.mp hget).1] at hk
      left
      exact ⟨rfl, (Option.some.inj hk).symm⟩
    · rw [List.getElem?_set_ne fun heq => hkr heq.symm] at hk
      right
      use hkr, hk
  refine ⟨s, es, l, valid, res, dev, mm₁, ssi, mf, sc, ⟨hs, ?_, hleft, hle, hlast, habove, ?_⟩,
    hcore, hstart, hpad, hrun, hl, hvalid, hlink, rfl, rfl, rfl, rfl, rfl, rfl, ?_, ?_, ?_, ?_⟩
  · rw [Bool.eq_false_iff]
    intro hcopied
    obtain ⟨e, he, hend⟩ := hlast
    have := hread.copied s (List.mem_of_getElem? hs) hcopied e (by simp [hleft, he])
    omega
  · intro k y hk hne' e he
    have hmin := hat.picks.min y (List.mem_of_getElem? hk) e he
    obtain ⟨k', sk, hsk, hcov₁, hcov₂⟩ := (h.mms y (List.mem_of_getElem? hk)).reads.covered he
    have hstes : (y.r.stBody.stes.map Ste.core)[k']? = some sk.core := by
      rw [List.getElem?_map, hsk]
      rfl
    rcases hat.movable.apart k _ _ k' sk.core (blocks_get h hk) hstes (.inl hne') with
      hap | hap
    · rw [← hcore] at hap
      change sk.endLba < s.startLba at hap
      omega
    · rw [← hcore] at hap
      change s.endLba < sk.startLba at hap
      omega
  · have hpend := h.sorted
    rw [hsorted] at hpend
    change List.Forall₂ _ st.sortedArr []
    rw [List.forall₂_nil_right_iff.mp hpend]
    exact .nil
  · intro x hx
    obtain ⟨k, hk⟩ := List.mem_iff_getElem?.mp hx
    rcases hset hk with ⟨-, rfl⟩ | ⟨-, hk⟩
    · apply hread'
    · apply h.mms x (List.mem_of_getElem? hk)
  · rw [← h.same]
    apply blocksOf_set hget hrun rfl
  · intro i x hx
    rcases hset hx with ⟨rfl, rfl⟩ | ⟨-, hk⟩
    · apply (h.noncopy i mm hget).same hnc
    · apply h.noncopy i x hk

/-- After a block has been moved, the order is kept. -/
theorem trivialMove_ordered {ridx j : ℕ} {mm : Mm δ} {p : Picked} {ste : Ste}
    (h : Sim g blocks st m) (hord : m.Ordered g) (hsorted : m.sorted = [])
    (hat : AtBlock g blocks st ridx j mm p ste) (hok : st.trivialMove g ridx = .ok st') :
  Sim g blocks st' (flushed g st') ∧ (flushed g st').Ordered g
  := by
  have hread := h.mms mm (List.mem_of_getElem? hat.picks.get)
  obtain ⟨s, es, l, valid, res, dev, mm₁, ssi, mf, sc, hblock, hcore, hstart, hpad, -, hl, -, -,
    rfl, hsim⟩ := trivialMove_block h hsorted hat hok
  use hsim
  have hmem : ∀ {k : ℕ} {x : Mm δ}, st.mms[k]? = some x → (x.r.info, x.left g) ∈ m.srcs := by
    intro k x hk
    rw [h.srcs]
    apply List.mem_map_of_mem (List.mem_of_getElem? hk)
  have hset : ∀ x ∈ st.mms.set ridx (leave mm₁ j ssi), x = leave mm₁ j ssi ∨
      ∃ k, k ≠ ridx ∧ st.mms[k]? = some x := by
    intro x hx
    obtain ⟨k, hk⟩ := List.mem_iff_getElem?.mp hx
    by_cases hkr : ridx = k
    · subst hkr
      rw [List.getElem?_set_self (List.getElem?_eq_some_iff.mp hat.picks.get).1] at hk
      left
      apply (Option.some.inj hk).symm
    · rw [List.getElem?_set_ne hkr] at hk
      right
      use k, Ne.symm hkr, hk
  obtain ⟨hmeta, hne⟩ := hread.reads.meta (List.mem_of_getElem? hblock.get)
  rw [← h.res, ← h.dev] at hpad
  refine hord.takeBlock ?_ hpad ?_ ?_ ?_ ?_
  · intro x hx
    obtain ⟨y, hy, rfl⟩ := List.mem_map.mp hx
    rcases hset y hy with rfl | ⟨k, -, hk⟩
    · refine ⟨_, hmem hat.picks.get, ?_⟩
      change (Mm.left g (leave mm₁ j ssi)).Sublist (mm.left g)
      rw [hblock.left, hl]
      apply List.sublist_append_right _ _
    · exact ⟨_, hmem hk, List.Sublist.refl _⟩
  · refine ⟨⟨hmeta.start_le, hmeta.start_mem, hmeta.start_top, hmeta.le_end, hmeta.end_mem,
      hmeta.end_bot, hmeta.piece, hmeta.dvd, hmeta.sorted, hmeta.length_le⟩, hne,
      hblock.copied, ?_⟩
    have hsort : s.core.sorted = true := hcore ▸ hat.movable.sorted
    have hchain := hmeta.sorted hsort
    change (s.page.map (·.lba)).Pairwise (· ≤ ·)
    rw [← List.isChain_iff_pairwise, List.isChain_map]
    apply hchain
  · obtain ⟨e, he, hend⟩ := hblock.last
    change s.endLba ≤ uint32Max
    rw [← hend]
    apply hord.le _ (hmem hat.picks.get) e
    rw [hblock.left]
    apply List.mem_append_left _ he
  · obtain ⟨e, l', hleft', hlba⟩ := left_cons_of_pick hread.reads hat.picks.pick
    change m.res.Below s.startLba
    rw [hstart, hlba]
    apply (hord.below _ (hmem hat.picks.get) e _).1
    rw [hleft']
    apply List.mem_cons_self
  · intro x hx e he
    obtain ⟨y, hy, rfl⟩ := List.mem_map.mp hx
    change s.endLba < e.lba
    rcases hset y hy with rfl | ⟨k, hkr, hk⟩
    · apply hblock.above
      rw [← hl]
      apply he
    · apply hblock.others k y hk hkr e he

/-! ### The rounds -/

theorem round_ordered {targetRound : ℕ} {force : Bool} (h : Sim g blocks st m)
    (hord : m.Ordered g) (hok : st.round g targetRound force = .ok st') :
  ∃ m', Sim g blocks st' m' ∧ m'.Ordered g
  := by
  simp only [round, bind_eq_ok] at hok
  obtain ⟨⟨target, st₁⟩, hsort, st₂, hflush, hok⟩ := hok
  obtain ⟨m₁, hsteps₁, hsim₁, hat⟩ := sortingMmSet_ok (fun _ _ => False) _ h hsort
  obtain ⟨m₂, hsteps₂, hsim₂, hsorted, hmms⟩ := flushSorted_ok (fun _ _ => False) hsim₁ hflush
  have hord₂ := (hord.steps hsteps₁).steps hsteps₂
  cases target with
  | none =>
      cases hok
      exact ⟨m₂, hsim₂, hord₂⟩
  | some ridx =>
      obtain ⟨j, mm, p, ste, hat⟩ := hat ridx rfl
      have hat₂ : AtBlock g blocks st₂ ridx j mm p ste :=
        ⟨⟨hmms ▸ hat.picks.get, hat.picks.pick, hmms ▸ hat.picks.min⟩, hat.flag, hat.movable,
          hat.start⟩
      exact ⟨_, trivialMove_ordered hsim₂ hord₂ hsorted hat₂ hok⟩

theorem rounds_ordered {step : ℕ} {force : Bool} (fuel : ℕ) :
  ∀ {targetRound : ℕ} {st : MergeState δ} {m : Merging δ}, Sim g blocks st m → m.Ordered g →
    rounds g step force fuel targetRound st = .ok st' → st'.res.Laid g ∧
      st'.res.Below (uint32Max + 1)
  := by
  induction fuel with
  | zero =>
      intro targetRound st m _ _ hok
      cases hok
  | succ fuel ih =>
      intro targetRound st m h hord hok
      simp only [rounds, bind_eq_ok] at hok
      obtain ⟨st₁, hround, hok⟩ := hok
      obtain ⟨m₁, h₁, hord₁⟩ := round_ordered h hord hround
      split at hok
      · cases hok
        rw [← h₁.res]
        exact ⟨hord₁.laid, hord₁.res_le⟩
      · apply ih h₁ hord₁ hok

end MergeState

/-! ### The beginning -/

/-- A run that `run_insert_done` has left, with lbas of 32 bits. -/
structure Run.Finished (g : Geometry) (r : Run δ) : Prop where
  stes : ∀ ste ∈ r.stBody.stes, Run.Block g ste ∧ ste.endLba ≤ uint32Max
  nil : r.stBody.cur.page = []

/-- A log that `run_insert_done` has left, none of whose blocks has been moved. -/
structure Run.FinishedLog (g : Geometry) (r : Run δ) : Prop where
  done : r.LogDone g
  stes : ∀ ste ∈ r.stBody.stes, ste.copied = false ∧ ste.endLba ≤ uint32Max

/-- The sources of a merge: finished normal runs whose blocks are in the order of their ranges,
or the memtable alone. -/
def MergeInputs (g : Geometry) (rset : List (Run δ)) : Prop :=
  (∀ r ∈ rset, r.type = .runNormal ∧ StArray.Ranged r.stBody.stes ∧ r.Finished g) ∨
    ∃ r, rset = [r] ∧ r.FinishedLog g

/-- No page of a normal run has an lba twice. -/
def NoneTwice (rset : List (Run δ)) : Prop :=
  ∀ r ∈ rset, r.type = .runNormal → ∀ ste ∈ r.stBody.stes, ste.lbas.Nodup

/-- The entries of a finished run without such a page ascend. -/
theorem Run.Finished.done {r : Run δ} (h : r.Finished g) (htype : r.type = .runNormal)
    (hranged : StArray.Ranged r.stBody.stes) (hnodup : ∀ ste ∈ r.stBody.stes, ste.lbas.Nodup) :
  r.Done g
  := by
  use htype, fun ste hste => ⟨(h.stes ste hste).1.self, (h.stes ste hste).1.ne⟩, h.nil
  have heq : r.entries = r.stBody.stes.flatMap Ste.entries := by
    rw [entries, List.flatMap_append, List.flatMap_singleton, Ste.entries, h.nil]
    simp
  rw [heq, List.pairwise_flatMap]
  constructor
  · intro ste hste
    rw [Ste.entries, List.pairwise_map]
    have hle := List.pairwise_map.mp (h.stes ste hste).1.asc
    have hne := List.pairwise_map.mp (hnodup ste hste)
    apply (hle.and hne).imp fun hab => lt_of_le_of_ne hab.1 hab.2
  · apply hranged.2.imp_of_mem
    intro a b ha hb hab x hx y hy
    obtain ⟨p, hp, rfl⟩ := List.mem_map.mp hx
    obtain ⟨q, hq, rfl⟩ := List.mem_map.mp hy
    have hpa := (h.stes a ha).1.self.le_end p hp
    have hqb := (h.stes b hb).1.self.start_le q hq
    dsimp only
    omega

/-- A normal run that is finished has its entries in its finished blocks. -/
theorem Run.left_start {r : Run δ} {ssi : SpSetIter} {n : ℕ} (hnil : r.stBody.cur.page = [])
    (hssi : ssi.type = .runNormal ∧ ssi.nowSteNum = 0 ∧
      ssi.pages = r.stBody.stes.map (·.page)) :
  Mm.left g (⟨r, ssi, n, false⟩ : Mm δ) = r.entries
  := by
  obtain ⟨htype, hnow, hpages⟩ := hssi
  rw [Run.entries, List.flatMap_append, List.flatMap_singleton, Ste.entries, hnil, List.map_nil,
    List.append_nil, Mm.left, htype, hnow, hpages]
  change (List.zipWith Mm.pageEntries (r.stBody.stes.map Ste.orig)
    (r.stBody.stes.map (·.page))).flatten = (r.stBody.stes.map Ste.entries).flatten
  rw [List.zipWith_map, List.zipWith_self]
  rfl

/-- The iterator of a normal run begins with all its entries. -/
theorem Run.Done.reading {r : Run δ} {ssi : SpSetIter} {n : ℕ} (h : r.Done g)
    (hcopied : ∀ ste ∈ r.stBody.stes, ste.copied = false)
    (hssi : ssi.type = .runNormal ∧ ssi.nowSteNum = 0 ∧
      ssi.pages = r.stBody.stes.map (·.page)) :
  Mm.Reading g ⟨r, ssi, n, false⟩
  := by
  have hleft := Run.left_start (g := g) (n := n) h.nil hssi
  obtain ⟨htype, hnow, hpages⟩ := hssi
  refine ⟨.inl ⟨h.type, htype, h.stes, ?_⟩, ?_, (absurd · Bool.false_ne_true), ?_,
    fun _ => h.ranged⟩
  · cases hstes : r.stBody.stes with
    | nil =>
        left
        rw [hpages, hstes]
        rfl
    | cons ste stes =>
        right
        refine ⟨[], [], ste.page, stes.map (·.page), ?_, hnow.symm, ?_, ?_⟩
        · rfl
        · apply (h.stes ste (by rw [hstes]; simp)).2
        · rw [hpages, hstes]
          rfl
  · rw [hleft]
    apply h.asc
  · intro ste hste hc
    rw [hcopied ste hste] at hc
    cases hc

/-- The iterator of a log begins with its whole tree. -/
theorem Run.LogDone.reading {r : Run δ} {ssi : SpSetIter} {n : ℕ} (h : r.LogDone g)
    (hcopied : ∀ ste ∈ r.stBody.stes, ste.copied = false)
    (hssi : ssi.type = .runLog ∧ ssi.tree = r.runLogMf) :
  Mm.Reading g ⟨r, ssi, n, false⟩
  := by
  obtain ⟨htype, htree⟩ := hssi
  refine ⟨.inr ⟨h, htype, [], htree.symm⟩, ?_, nofun, ?_, ?_⟩
  · rw [Mm.left, htype]
    dsimp only
    rw [htree, List.pairwise_map]
    apply h.asc
  · intro ste hste hc
    rw [hcopied ste hste] at hc
    cases hc
  · intro hnormal
    rw [h.type] at hnormal
    cases hnormal

theorem MergeInputs.inputs {rset : List (Run δ)} (h : MergeInputs g rset) :
  Inputs rset
  := by
  rcases h with h | ⟨r, hset, hlog⟩
  · left
    exact fun r hr => ⟨(h r hr).1, (h r hr).2.1⟩
  · right
    use r, hset, hlog.done.type

theorem MergeInputs.le {rset : List (Run δ)} {r : Run δ} {ste : Ste} (h : MergeInputs g rset)
    (hr : r ∈ rset) (hste : ste ∈ r.stBody.stes) :
  ste.endLba ≤ uint32Max
  := by
  rcases h with h | ⟨r', hset, hlog⟩
  · exact ((h r hr).2.2.stes ste hste).2
  · rw [hset, List.mem_singleton] at hr
    rw [hr] at hste
    apply (hlog.stes ste hste).2

namespace MergeState

variable {rset : List (Run δ)} {target : Run δ}

/-- The source `x` at the beginning of a merge. -/
theorem makeMm_reading {blocks : List (ℕ × ℕ)} {x : Run δ × ℕ} {mm : Mm δ}
    (hin : MergeInputs g rset) (hnone : NoneTwice rset) (hx : x.1 ∈ rset)
    (h : makeMm target blocks x = .ok mm) :
  mm.Reading g ∧ mm.r = x.1 ∧
    mm.ssi.noncopyFlag = (blocks.filter fun b => b.1 = x.2).map (·.2) ∧
    mm.ssi.noncopyLba = (blocks.filter fun b => b.1 = x.2).map fun b =>
      ((x.1.stBody.steAt b.2).startLba, (x.1.stBody.steAt b.2).endLba)
  := by
  simp only [makeMm, bind_eq_ok] at h
  obtain ⟨ssi, hinit, hret⟩ := h
  cases hret
  rw [markDisjoint_eq]
  rcases hin with hnormal | ⟨r, hset, hlog⟩
  · obtain ⟨htype, hranged, hfin⟩ := hnormal x.1 hx
    simp only [SpSetIter.init, htype] at hinit
    cases hinit
    refine ⟨?_, rfl, rfl, rfl⟩
    apply (hfin.done htype hranged (hnone x.1 hx htype)).reading
    · intro ste hste
      apply (hfin.stes ste hste).1.copied
    · exact ⟨rfl, rfl, rfl⟩
  · rw [hset, List.mem_singleton] at hx
    simp only [SpSetIter.init, hx, hlog.done.type, bind_eq_ok, require_eq_ok] at hinit
    obtain ⟨-, -, hinit⟩ := hinit
    cases hinit
    refine ⟨?_, rfl, rfl, rfl⟩
    rw [hx]
    apply hlog.done.reading
    · intro ste hste
      apply (hlog.stes ste hste).1
    · exact ⟨rfl, rfl⟩

theorem start_ordered {mapType : MapType} {n idx : ℕ} {force : Bool} {sc : ShortcutMaster}
    {dev : Dev δ} {st : MergeState δ} (hin : MergeInputs g rset) (hnone : NoneTwice rset)
    (hok : start rset (Run.factory g mapType n .runNormal idx) force sc dev = .ok st) :
  Sim g (blocksOf rset) st (flushed g st) ∧ (flushed g st).Ordered g
  := by
  simp only [start, bind_eq_ok] at hok
  obtain ⟨mms, hmms, hret⟩ := hok
  cases hret
  have hall := mapM_eq_ok hmms
  obtain ⟨blocks, hblocks⟩ : ∃ blocks, blocks
      = if force = true then [] else checkDisjoint rset (allBlocks rset) [] [] := ⟨_, rfl⟩
  rw [← hblocks] at hall
  have hget : ∀ {i : ℕ} {mm : Mm δ}, mms[i]? = some mm → ∃ r, rset[i]? = some r ∧
      makeMm (Run.factory g mapType n .runNormal idx) blocks (r, i) = .ok mm := by
    intro i mm hi
    obtain ⟨x, hx, hmm⟩ := forall₂_getElem? hall hi
    rw [List.getElem?_zipIdx] at hx
    obtain ⟨r, hr, rfl⟩ := Option.map_eq_some_iff.mp hx
    use r, hr
    rwa [Nat.zero_add] at hmm
  have hmovable : ∀ b ∈ blocks, ∃ r, rset[b.1]? = some r ∧
      Movable (blocksOf rset) b.1 b.2 (r.stBody.steAt b.2).core := by
    intro b hb
    rw [hblocks] at hb
    split at hb
    · cases hb
    · obtain ⟨r, hr, -, hmov⟩ := checkDisjoint_movable hin.inputs hb
      exact ⟨r, hr, hmov⟩
  have hread : ∀ {i : ℕ} {mm : Mm δ}, mms[i]? = some mm → ∃ r, rset[i]? = some r ∧
      mm.Reading g ∧ mm.r = r ∧
      mm.ssi.noncopyFlag = (blocks.filter fun b => b.1 = i).map (·.2) ∧
      mm.ssi.noncopyLba = (blocks.filter fun b => b.1 = i).map fun b =>
        ((r.stBody.steAt b.2).startLba, (r.stBody.steAt b.2).endLba) := by
    intro i mm hi
    obtain ⟨r, hr, hmake⟩ := hget hi
    exact ⟨r, hr, makeMm_reading hin hnone (List.mem_of_getElem? hr) hmake⟩
  have hruns : mms.map (·.r) = rset := by
    apply List.ext_getElem?
    intro i
    rw [List.getElem?_map]
    cases hi : mms[i]? with
    | some mm =>
        obtain ⟨r, hr, -, hmm, -⟩ := hread hi
        rw [hr, ← hmm]
        rfl
    | none =>
        have hlen := hall.length_eq
        rw [List.length_zipIdx] at hlen
        rw [List.getElem?_eq_none_iff, ← hlen] at hi
        rw [List.getElem?_eq_none hi]
        rfl
  have hmem : ∀ x ∈ mms, x.Reading g ∧ x.r ∈ rset := by
    intro x hx
    obtain ⟨i, hi⟩ := List.mem_iff_getElem?.mp hx
    obtain ⟨r, hr, hx, hrun, -⟩ := hread hi
    use hx, hrun ▸ List.mem_of_getElem? hr
  constructor
  · refine ⟨rfl, rfl, rfl, rfl, rfl, .nil, fun x hx => (hmem x hx).1, ?_, ?_⟩
    · exact congrArg blocksOf hruns
    · intro i mm hi
      obtain ⟨r, hr, -, hrun, hflag, hlba⟩ := hread hi
      have hblock : ∀ b ∈ blocks.filter (fun b => b.1 = i),
          Movable (blocksOf rset) i b.2 (r.stBody.steAt b.2).core := by
        intro b hb
        obtain ⟨hb, heq⟩ := List.mem_filter.mp hb
        obtain ⟨r', hr', hmov⟩ := hmovable b hb
        simp only [decide_eq_true_eq] at heq
        rw [heq] at hr' hmov
        cases hr.symm.trans hr'
        apply hmov
      constructor
      · intro x hx
        rw [hlba] at hx
        obtain ⟨b, hb, rfl⟩ := List.mem_map.mp hx
        refine ⟨b.2, ?_, _, hblock b hb, rfl⟩
        rw [hflag]
        apply List.mem_map_of_mem hb
      · intro j hj
        rw [hflag] at hj
        obtain ⟨b, hb, rfl⟩ := List.mem_map.mp hj
        exact ⟨_, hblock b hb⟩
  · have hempty : ∀ k, Run.Below (Run.factory g mapType n .runNormal idx : Run δ) k := by
      intro k
      use nofun, nofun
    have hpos := g.maxSectorInBlock_pos
    refine ⟨⟨rfl, ⟨rfl, Nat.zero_le _, ?_, rfl, Ste.meta_empty g, rfl, rfl⟩, nofun, nofun,
      ⟨nofun, .nil⟩, .nil, nofun⟩, hpos, hempty _, ?_, ?_, .nil, nofun, nofun, ?_⟩
    · simp only [flushed, Run.factory, StArray.init, Ste.empty, List.length_nil,
        Bool.false_eq_true, false_iff]
      omega
    · intro y hy e he
      obtain ⟨x, hx, rfl⟩ := List.mem_map.mp hy
      obtain ⟨hx, hr⟩ := hmem x hx
      obtain ⟨k, ste, hste, hcov⟩ := hx.reads.covered he
      apply hcov.2.trans (hin.le hr (List.mem_of_getElem? hste))
    · intro y hy
      obtain ⟨x, hx, rfl⟩ := List.mem_map.mp hy
      apply (hmem x hx).1.asc
    · intro y _ e _
      use hempty e.lba, nofun

end MergeState

/-! ### The merged run -/

/-- The block `j` of source `i` may be moved as a whole: it is sorted, has no unlinked data, and
its range meets that of no other block of the sources. -/
def MayMove (rset : List (Run δ)) (i j : ℕ) : Prop :=
  ∃ r ste, rset[i]? = some r ∧ r.stBody.stes[j]? = some ste ∧ ste.sorted = true ∧
    ste.unlinkedDataCopy = false ∧
    ∀ k r' k' ste', rset[k]? = some r' → r'.stBody.stes[k']? = some ste' →
      k ≠ i ∨ k' ≠ j → ste'.Apart ste

theorem Movable.mayMove {rset : List (Run δ)} {i j : ℕ} {ste : Ste}
    (h : Movable (blocksOf rset) i j ste) :
  (∃ r s, rset[i]? = some r ∧ r.stBody.stes[j]? = some s ∧ s.core = ste) ∧ MayMove rset i j
  := by
  obtain ⟨t, stes, hget, hste⟩ := h.mem
  rw [blocksOf, List.getElem?_map] at hget
  obtain ⟨r, hr, heq⟩ := Option.map_eq_some_iff.mp hget
  cases heq
  rw [List.getElem?_map] at hste
  obtain ⟨s, hs, rfl⟩ := Option.map_eq_some_iff.mp hste
  use ⟨r, s, hr, hs, rfl⟩, r, s, hr, hs, h.sorted, h.flag
  intro k r' k' ste' hk hk' hne
  have hblocks : (blocksOf rset)[k]? = some (r'.type, r'.stBody.stes.map Ste.core) := by
    rw [blocksOf, List.getElem?_map, hk]
    rfl
  have hste' : (r'.stBody.stes.map Ste.core)[k']? = some ste'.core := by
    rw [List.getElem?_map, hk']
    rfl
  apply h.apart k _ _ k' ste'.core hblocks hste' hne

/-- The merged run is a source for the next merge. -/
theorem runMerge_finished {rset : List (Run δ)} {mapType : MapType} {n idx : ℕ} {force : Bool}
    {sc : ShortcutMaster} {dev : Dev δ} {st : MergeState δ} (hin : MergeInputs g rset)
    (hnone : NoneTwice rset)
    (hok : runMerge g rset (Run.factory g mapType n .runNormal idx) force sc dev = .ok st) :
  st.res.type = .runNormal ∧ StArray.Ranged st.res.stBody.stes ∧ st.res.Finished g
  := by
  simp only [runMerge, bind_eq_ok] at hok
  obtain ⟨st₀, hstart, st₁, hrounds, ⟨res, dev'⟩, hdone, hret⟩ := hok
  cases hret
  obtain ⟨hsim, hord⟩ := MergeState.start_ordered hin hnone hstart
  obtain ⟨hlaid, hle⟩ := MergeState.rounds_ordered _ hsim hord hrounds
  obtain ⟨⟨hlaid', hnext⟩, htail, -⟩ := hlaid.insertDone hdone
  refine ⟨hlaid'.type, hlaid'.ranged, ?_, ?_⟩
  · intro ste hste
    use hlaid'.stes ste hste, Nat.le_of_lt_succ ((hnext _ hle).1 ste hste)
  · apply List.map_eq_nil_iff.mp (List.append_eq_nil_iff.mp htail).1

/-- A finished memtable is a source of a merge. -/
theorem memtable_inputs {p : Param} {blank : δ} {ops : List (LsmOp δ)} {lsm : Lsmtree δ}
    {r : Run δ} {dev : Dev δ} (hrange : p.range ≤ uint32Max)
    (hexec : Lsmtree.exec g p blank ops = .ok lsm) (hphase : lsm.phase = .idle)
    (hdone : lsm.memtable.insertDone g lsm.dev = .ok (r, dev))
    (hstes : ∀ ste ∈ r.stBody.stes, ste.copied = false ∧ ste.endLba ≤ uint32Max) :
  MergeInputs g [r] ∧ NoneTwice [r]
  := by
  obtain ⟨xs, hfills, -⟩ := (Lsmtree.ready_exec hrange hexec).filled hphase
  have hlog := (hfills.insertDone hdone).1
  use .inr ⟨r, rfl, hlog, hstes⟩
  intro r' hr' htype
  rw [List.mem_singleton.mp hr', hlog.type] at htype
  cases htype

/-- `__check_disjoint_spm` selects only blocks that may be moved; and when no page of a normal
source has an lba twice, the blocks of the merged run are in the order of their ranges. -/
theorem runMerge_ranged {rset : List (Run δ)} {mapType : MapType} {n idx : ℕ} {force : Bool}
    {sc : ShortcutMaster} {dev : Dev δ} (hin : MergeInputs g rset) :
  (∀ x ∈ MergeState.checkDisjoint rset (MergeState.allBlocks rset) [] [],
    MayMove rset x.1 x.2) ∧
  (NoneTwice rset → ∀ st,
    runMerge g rset (Run.factory g mapType n .runNormal idx) force sc dev = .ok st →
    StArray.Ranged st.res.stBody.stes ∧ st.res.Finished g)
  := by
  constructor
  · intro x hx
    obtain ⟨r, hr, hlt, hmov⟩ := MergeState.checkDisjoint_movable hin.inputs hx
    apply hmov.mayMove.2
  · intro hnone st hok
    obtain ⟨-, hranged, hfin⟩ := runMerge_finished hin hnone hok
    exact ⟨hranged, hfin⟩

instance (stes : List Ste) : Decidable (StArray.Ranged stes) :=
  inferInstanceAs (Decidable (_ ∧ _))

/-- The memtable after the lbas have been written, and its merge into a normal run. -/
def mergeMemtable (lbas : List ℕ) :
    Except Abort (Lsmtree ℕ × (Run ℕ × Dev ℕ) × MergeState ℕ) := do
  let lsm ← Lsmtree.exec smallGeometry (smallParam lbas.length) 0 (writes lbas)
  let x ← lsm.memtable.insertDone smallGeometry lsm.dev
  let st ← runMerge smallGeometry [x.1]
    (Run.factory smallGeometry .guardBf lbas.length .runNormal 1) false lsm.sc x.2
  return (lsm, x, st)

theorem runMerge_ranged_memtable :
  ∃ lsm x st, mergeMemtable [5, 1, 9, 2, 5, 11, 12, 13] = .ok (lsm, x, st) ∧
    MergeInputs smallGeometry [x.1] ∧ StArray.Ranged st.res.stBody.stes ∧
    st.res.stBody.nowSteNum = 2
  := by
  have hview : (mergeMemtable [5, 1, 9, 2, 5, 11, 12, 13]).map (fun x =>
      (decide (x.1.phase = .idle), decide (∀ ste ∈ x.2.1.1.stBody.stes,
        ste.copied = false ∧ ste.endLba ≤ uint32Max), x.2.2.res.stBody.nowSteNum))
      = .ok (true, true, 2) := by
    decide +kernel
  obtain ⟨⟨lsm, x, st⟩, hok, hview⟩ := map_eq_ok hview
  simp only [Prod.mk.injEq, decide_eq_true_eq] at hview
  obtain ⟨hphase, hstes, hnum⟩ := hview
  use lsm, x, st, hok
  simp only [mergeMemtable, bind_eq_ok] at hok
  obtain ⟨lsm', hexec, x', hdone, st', hmerge, hret⟩ := hok
  cases hret
  obtain ⟨hin, hnone⟩ := memtable_inputs (by decide) hexec hphase hdone hstes
  use hin, ((runMerge_ranged hin).2 hnone st hmerge).1, hnum

/-- One page in a block and one block in a segment. -/
def tinyGeometry : Geometry := ⟨1, 1, 100, Nat.one_pos, Nat.one_pos⟩

/-- A tree with memtables of 16 sectors and two runs in a level. -/
def tinyParam : Param := ⟨false, 16, 2, 3, 10, 4, 1, 1, 300⟩

/-- The lba 20 is written twice in one block of the first memtable.  The block is moved to a
run of the first level as a whole, and its two entries are copied in different rounds of the
next merge. -/
def writeTwice : List (LsmOp ℕ) :=
  writes [1, 2, 3, 4, 6, 7, 8, 9, 18, 19, 20, 20, 21, 22, 23, 24] ++
    [.flush, .compact 0 1, .finish] ++
    writes [1, 2, 3, 6, 7, 8, 10, 20, 22, 23, 30, 31, 1, 2, 22, 31] ++ [.flush]

/-- The first level after `ops`, and the merge of its runs. -/
def mergeFirstLevel (ops : List (LsmOp ℕ)) : Except Abort (Level ℕ × MergeState ℕ) := do
  let lsm ← Lsmtree.exec tinyGeometry tinyParam 0 ops
  let lev ← orThrow .outOfBounds lsm.disk[0]?
  let x ← Lsmtree.populateNormal tinyGeometry lsm.param lsm.sc .plrMap
    (lev.runs.map (·.nowEntryNum)).sum 2
  let st ← runMerge tinyGeometry lev.runs x.1 false x.2 lsm.dev
  return (lev, st)

theorem not_ranged_writeTwice :
  ∃ lev st, mergeFirstLevel writeTwice = .ok (lev, st) ∧
    (∀ r ∈ lev.runs, r.type = .runNormal ∧ StArray.Ranged r.stBody.stes) ∧
    ¬ StArray.Ranged st.res.stBody.stes
  := by
  have hview : (mergeFirstLevel writeTwice).map (fun x =>
      (decide (∀ r ∈ x.1.runs, r.type = .runNormal ∧ StArray.Ranged r.stBody.stes),
        decide (StArray.Ranged x.2.res.stBody.stes))) = .ok (true, false) := by
    decide +kernel
  obtain ⟨⟨lev, st⟩, hok, hview⟩ := map_eq_ok hview
  simp only [Prod.mk.injEq, decide_eq_true_eq, decide_eq_false_iff_not] at hview
  use lev, st, hok, hview.1, hview.2

end AppL
