import Mathlib.Data.List.Chain
import AppL.Lsm.Held

/-!
# Writing to a run

What a successful write does: the block of the current entry gets the next pairs, their
pieces were not valid before and are valid afterwards, and no other piece of the device that
is valid changes its data.
-/

namespace AppL

open Transition

/-! ### Entries of a table -/

/-- The lbas of a summary page. -/
def Ste.lbas (ste : Ste) : List ℕ := ste.page.map (·.lba)

/-- An entry of a run on flash, with the level and the recency of the run from which its
block was moved when the block is flagged. -/
structure Entry where
  lba : ℕ
  psa : ℕ
  orig : Option (ℕ × ℕ)
  deriving DecidableEq, Repr

/-- An entry of a block that is not flagged. -/
def SummaryPair.entry (p : SummaryPair) : Entry := ⟨p.lba, p.piecePpa, none⟩

/-- The original level and recency of a block with unlinked data. -/
def Ste.orig (ste : Ste) : Option (ℕ × ℕ) :=
  if ste.unlinkedDataCopy then some (ste.originalLevel, ste.originalRecency) else none

/-- The entries of a block. -/
def Ste.entries (ste : Ste) : List Entry :=
  ste.page.map fun p => ⟨p.lba, p.piecePpa, ste.orig⟩

/-- A copy of a sector. -/
structure Copy (δ : Type) where
  lba : ℕ
  data : δ
  orig : Option (ℕ × ℕ)

/-- The copy of a sector that is not in a flagged block. -/
def Copy.plain {δ : Type} (x : ℕ × δ) : Copy δ := ⟨x.1, x.2, none⟩

/-- The copy at an entry. -/
def Entry.copy {δ : Type} (dev : Dev δ) (e : Entry) : Copy δ := ⟨e.lba, dev.data e.psa, e.orig⟩

/-- The entry describes its page: the range of its lbas, whether they are sorted, and the
pieces of its block one after another. -/
structure Ste.Meta (g : Geometry) (ste : Ste) : Prop where
  start_le : ∀ p ∈ ste.page, ste.startLba ≤ p.lba
  start_mem : ste.page ≠ [] → ∃ p ∈ ste.page, p.lba = ste.startLba
  start_top : ste.page = [] → ste.startLba = uint32Max
  le_end : ∀ p ∈ ste.page, p.lba ≤ ste.endLba
  end_mem : ste.page ≠ [] → ∃ p ∈ ste.page, p.lba = ste.endLba
  end_bot : ste.page = [] → ste.endLba = 0
  piece : ∀ k p, ste.page[k]? = some p → p.piecePpa = ste.pba * l2pgap + k
  dvd : ste.page ≠ [] → g.ppb ∣ ste.pba
  sorted : ste.sorted = true → ste.page.IsChain fun p q => p.lba ≤ q.lba
  length_le : ste.page.length ≤ g.maxSectorInBlock

theorem Geometry.maxSectorInBlock_pos (g : Geometry) :
  0 < g.maxSectorInBlock
  := Nat.mul_pos g.ppb_pos (by decide)

theorem Ste.meta_empty (g : Geometry) :
  Ste.empty.Meta g
  where
    start_le p hp := by simp [Ste.empty] at hp
    start_mem h := by simp [Ste.empty] at h
    start_top _ := rfl
    le_end p hp := by simp [Ste.empty] at hp
    end_mem h := by simp [Ste.empty] at h
    end_bot _ := rfl
    piece k p hp := by simp [Ste.empty] at hp
    dvd h := by simp [Ste.empty] at h
    sorted _ := by simp [Ste.empty]
    length_le := Nat.zero_le _

/-- A pair whose piece is the next one of the block keeps the entry in order. -/
theorem Ste.Meta.steInsert {g : Geometry} {ste : Ste} (h : ste.Meta g) (sa : StArray)
    (intra : ℕ) {p : SummaryPair} (hp : p.lba ≤ uint32Max)
    (hpiece : p.piecePpa = ste.pba * l2pgap + ste.page.length) (hdvd : g.ppb ∣ ste.pba)
    (hlen : ste.page.length < g.maxSectorInBlock) :
  (sa.steInsert ste intra p).Meta g
  where
    start_le q hq := by
      simp only [StArray.steInsert, StArray.spInsert, List.mem_append,
        List.mem_singleton] at hq ⊢
      rcases hq with hq | rfl
      · have := h.start_le q hq
        omega
      · omega
    start_mem _ := by
      simp only [StArray.steInsert, StArray.spInsert, List.mem_append, List.mem_singleton]
      rcases Nat.le_total p.lba ste.startLba with hle | hle
      · use p
        simp [hle]
      · by_cases hnil : ste.page = []
        · use p
          have := h.start_top hnil
          simp only [or_true, true_and]
          omega
        · obtain ⟨q, hq, hqe⟩ := h.start_mem hnil
          use q
          simp [hq, hqe, hle]
    start_top hnil := by simp [StArray.steInsert, StArray.spInsert] at hnil
    le_end q hq := by
      simp only [StArray.steInsert, StArray.spInsert, List.mem_append,
        List.mem_singleton] at hq ⊢
      rcases hq with hq | rfl
      · have := h.le_end q hq
        omega
      · omega
    end_mem _ := by
      simp only [StArray.steInsert, StArray.spInsert, List.mem_append, List.mem_singleton]
      rcases Nat.le_total ste.endLba p.lba with hle | hle
      · use p
        simp [hle]
      · by_cases hnil : ste.page = []
        · use p
          have := h.end_bot hnil
          simp only [or_true, true_and]
          omega
        · obtain ⟨q, hq, hqe⟩ := h.end_mem hnil
          use q
          simp [hq, hqe, hle]
    end_bot hnil := by simp [StArray.steInsert, StArray.spInsert] at hnil
    piece k q hq := by
      simp only [StArray.steInsert, StArray.spInsert, List.getElem?_append] at hq ⊢
      split at hq
      · apply h.piece k q hq
      · rename_i hk
        have hk' : k = ste.page.length := by
          have := (List.getElem?_eq_some_iff.mp hq).1
          simp only [List.length_singleton] at this
          omega
        subst hk'
        simp only [Nat.sub_self, List.getElem?_cons_zero, Option.some.injEq] at hq
        rw [← hq, hpiece]
    dvd _ := hdvd
    sorted hs := by
      simp only [StArray.steInsert, StArray.spInsert, Bool.and_eq_true] at hs ⊢
      obtain ⟨hs, hlast⟩ := hs
      rw [List.isChain_append]
      use h.sorted hs, List.isChain_singleton _
      intro q hq r hr
      simp only [List.head?_cons, Option.mem_def, Option.some.injEq] at hr
      subst hr
      simp only [Option.mem_def] at hq
      simpa [hq] using hlast
    length_le := by
      simp only [StArray.steInsert, StArray.spInsert, List.length_append,
        List.length_singleton]
      omega

/-! ### The current entry -/

/-- The current entry is being filled: it is in order, the write pointer is at its end, and
the alert is raised when its block is full. -/
structure StArray.Filling (g : Geometry) (sa : StArray) : Prop where
  inblock : sa.inblockWritePointer = sa.cur.page.length
  le : sa.cur.page.length ≤ g.maxSectorInBlock
  alert : sa.summaryWriteAlert = true ↔ sa.cur.page.length = g.maxSectorInBlock
  writing : sa.writing = !sa.cur.page.isEmpty
  cur : sa.cur.Meta g
  own : sa.cur.copied = false ∧ sa.cur.unlinkedDataCopy = false

/-- `r'` is `r` with `ps` at the end of the current entry, whose block is at `pba`. -/
structure Run.Appends {δ : Type} (r r' : Run δ) (pba : ℕ) (ps : List SummaryPair) : Prop where
  stes : r'.stBody.stes = r.stBody.stes
  page : r'.stBody.cur.page = r.stBody.cur.page ++ ps
  cur_pba : r'.stBody.cur.pba = pba
  pba_eq : r.stBody.cur.page ≠ [] → pba = r.stBody.cur.pba
  global : r'.stBody.globalWritePointer = r.stBody.globalWritePointer + ps.length
  room : ps ≠ [] → r.stBody.nowSteNum < r.stBody.maxSteNum
  maxSteNum : r'.stBody.maxSteNum = r.stBody.maxSteNum
  mapType : r'.stBody.mapType = r.stBody.mapType
  fields : r'.maxEntryNum = r.maxEntryNum ∧ r'.limitEntryNum = r.limitEntryNum ∧
    r'.nowEntryNum = r.nowEntryNum ∧ r'.type = r.type ∧ r'.info = r.info ∧ r'.pp = r.pp

namespace Run

variable {δ : Type} {g : Geometry} {r r' : Run δ} {dev dev' : Dev δ} {held : List ℕ}

theorem writeTranslation_ok {psa : ℕ} (hr : r.stBody.Filling g)
    (h : r.writeTranslation g dev = .ok (psa, r', dev')) :
  ∃ pba, r.stBody.summaryWriteAlert = false ∧ Dev.SameFlash dev dev' ∧ g.ppb ∣ pba ∧
    r' = r.setPba pba ∧ psa = pba * l2pgap + r.stBody.cur.page.length ∧
    (r.stBody.cur.page ≠ [] → pba = r.stBody.cur.pba)
  := by
  simp only [writeTranslation, bind_eq_ok, require_eq_ok] at h
  obtain ⟨_, halert, h⟩ := h
  have hlt : r.stBody.cur.page.length < g.maxSectorInBlock := by
    have := hr.le
    have := hr.alert
    simp only [halert, Bool.false_eq_true, false_iff] at this
    omega
  have hmod : r.stBody.inblockWritePointer % g.maxSectorInBlock = r.stBody.cur.page.length := by
    rw [hr.inblock, Nat.mod_eq_of_lt hlt]
  rw [hmod] at h
  split at h
  · rename_i hz
    cases h
    rw [List.length_eq_zero_iff] at hz
    refine ⟨_, halert, Dev.pickEmptyPba_sameFlash dev, Dev.pickEmptyPba_dvd dev, rfl, ?_, ?_⟩
    · rw [hr.inblock]
    · intro hne
      contradiction
  · rename_i hz
    cases h
    rw [List.length_eq_zero_iff] at hz
    refine ⟨_, halert, ⟨rfl, rfl, rfl, rfl⟩, hr.cur.dvd hz, rfl, ?_, fun _ => rfl⟩
    rw [hr.inblock]

theorem insertPair_ok {sa sa' : StArray} {p : SummaryPair} (h : sa.insertPair g p = .ok sa') :
  sa.summaryWriteAlert = false ∧ sa.nowSteNum < sa.maxSteNum ∧
    sa' = { sa with
      cur := sa.steInsert sa.cur sa.inblockWritePointer p
      writing := true
      inblockWritePointer := sa.inblockWritePointer + 1
      globalWritePointer := sa.globalWritePointer + 1
      summaryWriteAlert := (sa.inblockWritePointer + 1) % g.maxSectorInBlock == 0 }
  := by
  unfold StArray.insertPair at h
  split at h
  · cases h
  · rename_i halert
    split at h
    · cases h
    · rename_i hroom
      cases h
      simp only [Bool.not_eq_true] at halert
      exact ⟨halert, Nat.lt_of_not_le hroom, rfl⟩

/-- A pair for the next piece of the block keeps the current entry in order. -/
theorem Filling_insertPair {sa sa' : StArray} {pba lba : ℕ} (hs : sa.Filling g)
    (hpba : g.ppb ∣ pba) (hlba : lba ≤ uint32Max)
    (hcur : sa.cur.page ≠ [] → pba = sa.cur.pba)
    (h : StArray.insertPair g { sa with cur := { sa.cur with pba := pba } }
      ⟨lba, pba * l2pgap + sa.cur.page.length⟩ = .ok sa') :
  sa'.Filling g
  := by
  obtain ⟨halert, -, rfl⟩ := insertPair_ok h
  have hlt : sa.cur.page.length < g.maxSectorInBlock := by
    have hle := hs.le
    have hna : ¬ sa.summaryWriteAlert = true := by simpa using halert
    rw [hs.alert] at hna
    omega
  have hmeta : Ste.Meta g { sa.cur with pba := pba } := by
    have hc := hs.cur
    refine ⟨hc.start_le, hc.start_mem, hc.start_top, hc.le_end, hc.end_mem, hc.end_bot, ?_,
      fun _ => hpba, hc.sorted, hc.length_le⟩
    intro k q hq
    have hne : sa.cur.page ≠ [] := by
      intro hnil
      simp [hnil] at hq
    rw [hcur hne]
    apply hc.piece k q hq
  refine ⟨?_, ?_, ?_, ?_, ?_, hs.own⟩
  · simp [StArray.steInsert, StArray.spInsert, hs.inblock]
  · simpa [StArray.steInsert, StArray.spInsert] using Nat.succ_le_of_lt hlt
  · simp only [StArray.steInsert, StArray.spInsert, hs.inblock, beq_iff_eq,
      List.length_append, List.length_singleton]
    constructor
    · intro hmod
      have := Nat.dvd_of_mod_eq_zero hmod
      have := Nat.le_of_dvd (Nat.succ_pos _) this
      omega
    · intro heq
      rw [heq, Nat.mod_self]
  · simp [StArray.steInsert, StArray.spInsert]
  · apply hmeta.steInsert _ _ hlba rfl hpba hlt

/-- A successful turn of the loop of `__run_write_buffer`: the next piece of the block was
not valid; it is validated before the tree of a log is changed. -/
theorem writePiece_ok {lba psa : ℕ} (hr : r.stBody.Filling g) (hlba : lba ≤ uint32Max)
    (h : r.writePiece g dev lba = .ok (psa, r', dev')) :
  ∃ pba dev₁, r'.stBody.Filling g ∧ r.Appends r' pba [⟨lba, psa⟩] ∧
    psa = pba * l2pgap + r.stBody.cur.page.length ∧ dev.Validates g dev₁ psa ∧
    (r.setPba pba).logInsert g dev₁ lba r.stBody.globalWritePointer
      = .ok (r'.runLogMf, dev')
  := by
  simp only [writePiece, bind_eq_ok] at h
  obtain ⟨⟨psa, r₁, dev₀⟩, htr, dev₁, hval, ⟨tree, dev₂⟩, hlog, sa, hins, hret⟩ := h
  cases hret
  dsimp only at hval hlog hins
  obtain ⟨pba, halert, hsame, hdvd, rfl, rfl, hpba⟩ := writeTranslation_ok hr htr
  have hval := hsame.validates (Dev.validatePiecePpa_ok hval)
  have hfill := Filling_insertPair hr hdvd hlba hpba hins
  obtain ⟨-, hroom, rfl⟩ := insertPair_ok hins
  refine ⟨pba, dev₁, hfill, ?_, rfl, hval, hlog⟩
  exact ⟨rfl, rfl, rfl, hpba, rfl, fun _ => hroom, rfl, rfl, rfl, rfl, rfl, rfl, rfl, rfl⟩

theorem Appends.trans {r₁ r₂ : Run δ} {pba₁ pba₂ : ℕ} {ps qs : List SummaryPair}
    (h₁ : r.Appends r₁ pba₁ ps) (h₂ : r₁.Appends r₂ pba₂ qs) (hps : ps ≠ []) :
  r.Appends r₂ pba₁ (ps ++ qs)
  := by
  have hne : r₁.stBody.cur.page ≠ [] := by
    rw [h₁.page]
    simp [hps]
  constructor
  · rw [h₂.stes, h₁.stes]
  · rw [h₂.page, h₁.page, List.append_assoc]
  · rw [h₂.cur_pba, h₂.pba_eq hne, h₁.cur_pba]
  · apply h₁.pba_eq
  · rw [h₂.global, h₁.global, List.length_append, Nat.add_assoc]
  · intro _
    apply h₁.room hps
  · rw [h₂.maxSteNum, h₁.maxSteNum]
  · rw [h₂.mapType, h₁.mapType]
  · obtain ⟨a₁, a₂, a₃, a₄, a₅, a₆⟩ := h₁.fields
    obtain ⟨b₁, b₂, b₃, b₄, b₅, b₆⟩ := h₂.fields
    use b₁.trans a₁, b₂.trans a₂, b₃.trans a₃, b₄.trans a₄, b₅.trans a₅, b₆.trans a₆

theorem Appends.refl (r : Run δ) :
  r.Appends r r.stBody.cur.pba []
  where
    stes := rfl
    page := by simp
    cur_pba := rfl
    pba_eq _ := rfl
    global := rfl
    room h := by simp at h
    maxSteNum := rfl
    mapType := rfl
    fields := ⟨rfl, rfl, rfl, rfl, rfl, rfl⟩

/-- The pieces of a block from an offset on. -/
def pieces (pba offset n : ℕ) : List ℕ := (List.range n).map fun i => pba * l2pgap + (offset + i)

theorem pieces_succ (pba offset n : ℕ) :
  pieces pba offset (n + 1) = (pba * l2pgap + offset) :: pieces pba (offset + 1) n
  := by
  simp only [pieces, List.range_succ_eq_map, List.map_cons, List.map_map, Nat.add_zero]
  congr 2
  funext i
  simp only [Function.comp_apply]
  omega

/-- The tree of a normal run is not used. -/
theorem logInsert_normal {lba offset : ℕ} {tree : TreeMap} (ht : r.type = .runNormal)
    (h : r.logInsert g dev lba offset = .ok (tree, dev')) :
  tree = r.runLogMf ∧ dev' = dev
  := by
  simp only [logInsert, ht] at h
  cases h
  exact ⟨rfl, rfl⟩

/-- What the loop of `__run_write_buffer` does to a normal run. -/
theorem writePieces_normal {lbas psas : List ℕ} (hlbas : ∀ lba ∈ lbas, lba ≤ uint32Max) :
  ∀ {r : Run δ} {dev : Dev δ} {held : List ℕ}, r.type = .runNormal → r.stBody.Filling g →
    dev.Holds held → writePieces g lbas r dev = .ok (psas, r', dev') →
    ∃ pba, r'.stBody.Filling g ∧ r.Appends r' pba (lbas.zipWith SummaryPair.mk psas) ∧
      psas = pieces pba r.stBody.cur.page.length lbas.length ∧ dev'.Holds (psas ++ held) ∧
      dev'.data = dev.data ∧ (dev.Balanced g → dev'.Balanced g) ∧ r'.runLogMf = r.runLogMf
  := by
  induction lbas generalizing psas with
  | nil =>
      intro r dev held _ hr hh h
      cases h
      exact ⟨_, hr, Appends.refl _, rfl, hh, rfl, id, rfl⟩
  | cons lba lbas ih =>
      intro r dev held ht hr hh h
      simp only [writePieces, bind_eq_ok] at h
      obtain ⟨⟨psa, r₁, dev₁⟩, hfst, ⟨psas, r₂, dev₂⟩, hrest, hret⟩ := h
      cases hret
      obtain ⟨pba, dev₀, hfill, happ, hpsa, hval, hlog⟩ :=
        writePiece_ok hr (hlbas lba (by simp)) hfst
      obtain ⟨htree₁, rfl⟩ := logInsert_normal (r := r.setPba pba) ht hlog
      have ht₁ : r₁.type = .runNormal := happ.fields.2.2.2.1.trans ht
      obtain ⟨-, hh₁⟩ := hh.validates hval
      obtain ⟨pba', hfill', happ', hpsas, hh', hdata, hbal, htree⟩ :=
        ih (fun l hl => hlbas l (by simp [hl])) ht₁ hfill hh₁ hrest
      refine ⟨pba, hfill', ?_, ?_, ?_, ?_, ?_, ?_⟩
      · apply happ.trans happ' (by simp)
      · cases lbas with
        | nil => simpa [pieces, hpsa] using hpsas
        | cons l ls =>
            have hne : r₁.stBody.cur.page ≠ [] := by simp [happ.page]
            have hpba : pba' = pba := by rw [happ'.pba_eq hne, happ.cur_pba]
            rw [List.length_cons, pieces_succ, ← hpsa, hpsas, hpba, happ.page]
            simp
      · apply hh'.perm
        simp
      · rw [hdata, hval.data]
      · intro hb
        apply hbal (hval.balanced hb)
      · rw [htree, htree₁]
        rfl

/-! ### A page -/

/-- The first pieces of a page get new values. -/
theorem update_page {α : Type} {f : ℕ → α} {l : List α} {base : ℕ} (hbase : base % l2pgap = 0)
    (hlen : l.length ≤ l2pgap) (q : ℕ) :
  (if q / l2pgap = base / l2pgap then (l[q % l2pgap]?).getD (f q) else f q)
    = if base ≤ q then (l[q - base]?).getD (f q) else f q
  := by
  have hl : l2pgap = 4 := rfl
  by_cases hq : q / l2pgap = base / l2pgap
  · have hle : base ≤ q := by
      rw [hl] at hq hbase
      omega
    have hmod : q % l2pgap = q - base := by
      rw [hl] at hq hbase ⊢
      omega
    rw [if_pos hq, if_pos hle, hmod]
  · rw [if_neg hq]
    split
    · have hge : l.length ≤ q - base := by
        rw [hl] at hq hbase hlen
        omega
      rw [List.getElem?_eq_none hge, Option.getD_none]
    · rfl

/-- The data of the device after the first sectors of a page have been written. -/
theorem issueWrite_data {base : ℕ} {values : List δ} {oob : List ℕ} (hbase : base % l2pgap = 0)
    (hlen : values.length ≤ l2pgap) (q : ℕ) :
  (dev.issueWrite (base / l2pgap) values oob).data q
    = if base ≤ q then (values[q - base]?).getD (dev.data q) else dev.data q
  := update_page hbase hlen q

/-- The out-of-band area of the device after a page has been written. -/
theorem issueWrite_oob {base : ℕ} {values : List δ} {oob : List ℕ} (hbase : base % l2pgap = 0)
    (hlen : oob.length ≤ l2pgap) (q : ℕ) :
  (dev.issueWrite (base / l2pgap) values oob).bm.oob q
    = if base ≤ q then (oob[q - base]?).getD (dev.bm.oob q) else dev.bm.oob q
  := update_page hbase hlen q

theorem holds_issueWrite {ppa : ℕ} {values : List δ} {oob : List ℕ} :
  (dev.issueWrite ppa values oob).Holds held ↔ dev.Holds held
  := by
  constructor
  · intro h
    use h.nodup, h.mem
  · intro h
    use h.nodup, h.mem

theorem balanced_issueWrite {ppa : ℕ} {values : List δ} {oob : List ℕ} (h : dev.Balanced g) :
  (dev.issueWrite ppa values oob).Balanced g
  := ⟨h.piece, h.segment⟩

theorem mem_pieces {pba offset n q : ℕ} :
  q ∈ pieces pba offset n ↔ pba * l2pgap + offset ≤ q ∧ q < pba * l2pgap + offset + n
  := by
  simp only [pieces, List.mem_map, List.mem_range]
  constructor
  · rintro ⟨i, hi, rfl⟩
    omega
  · rintro ⟨h₁, h₂⟩
    use q - (pba * l2pgap + offset)
    omega

section NextPage

variable {pba offset : ℕ} {values : List δ} {oob : List ℕ}

/-- A piece outside of those that are written keeps its data. -/
theorem issueWrite_data_of_notMem (hbase : (pba * l2pgap + offset) % l2pgap = 0)
    (hlen : values.length ≤ l2pgap) {q : ℕ} (hq : q ∉ pieces pba offset values.length) :
  (dev.issueWrite ((pba * l2pgap + offset) / l2pgap) values oob).data q = dev.data q
  := by
  rw [issueWrite_data hbase hlen]
  split
  · rw [mem_pieces] at hq
    rw [List.getElem?_eq_none (by omega), Option.getD_none]
  · rfl

theorem issueWrite_data_piece (hbase : (pba * l2pgap + offset) % l2pgap = 0)
    (hlen : values.length ≤ l2pgap) {i : ℕ} {d : δ} (hd : values[i]? = some d) :
  (dev.issueWrite ((pba * l2pgap + offset) / l2pgap) values oob).data (pba * l2pgap + offset + i) = d
  := by
  rw [issueWrite_data hbase hlen, if_pos (Nat.le_add_right _ _), Nat.add_sub_cancel_left, hd,
    Option.getD_some]

/-- A piece outside of those that are written keeps its out-of-band area. -/
theorem issueWrite_oob_of_notMem (hbase : (pba * l2pgap + offset) % l2pgap = 0)
    (hlen : oob.length ≤ l2pgap) {q : ℕ} (hq : q ∉ pieces pba offset oob.length) :
  (dev.issueWrite ((pba * l2pgap + offset) / l2pgap) values oob).bm.oob q = dev.bm.oob q
  := by
  rw [issueWrite_oob hbase hlen]
  split
  · rw [mem_pieces] at hq
    rw [List.getElem?_eq_none (by omega), Option.getD_none]
  · rfl

theorem issueWrite_oob_piece (hbase : (pba * l2pgap + offset) % l2pgap = 0)
    (hlen : oob.length ≤ l2pgap) {i lba : ℕ} (hlba : oob[i]? = some lba) :
  (dev.issueWrite ((pba * l2pgap + offset) / l2pgap) values oob).bm.oob
    (pba * l2pgap + offset + i) = lba
  := by
  rw [issueWrite_oob hbase hlen, if_pos (Nat.le_add_right _ _), Nat.add_sub_cancel_left, hlba,
    Option.getD_some]

end NextPage

/-- `__run_write_buffer` of a normal run: the buffered sectors are at the next pieces of the
block, and no other valid piece has changed. -/
theorem writeBuffer_normal {pp : PpBuffer δ} (ht : r.type = .runNormal)
    (hr : r.stBody.Filling g) (halign : r.stBody.cur.page.length % l2pgap = 0)
    (hpos : pp.items ≠ []) (hlen : pp.items.length ≤ l2pgap)
    (hlbas : ∀ x ∈ pp.items, x.1 ≤ uint32Max) (hh : dev.Holds held)
    (h : r.writeBuffer g pp dev = .ok (r', dev')) :
  ∃ pba psas, psas = pieces pba r.stBody.cur.page.length pp.items.length ∧
    r'.stBody.Filling g ∧
    r.Appends r' pba ((pp.items.map (·.1)).zipWith SummaryPair.mk psas) ∧
    dev'.Holds (psas ++ held) ∧ (∀ q ∈ held, dev'.data q = dev.data q) ∧
    psas.map dev'.data = pp.items.map (·.2) ∧ (dev.Balanced g → dev'.Balanced g)
  := by
  simp only [writeBuffer, bind_eq_ok] at h
  obtain ⟨⟨psas, r₁, dev₁⟩, hw, hret⟩ := h
  have hl : ∀ lba ∈ pp.items.map (·.1), lba ≤ uint32Max := by
    intro lba hlba
    obtain ⟨x, hx, rfl⟩ := List.mem_map.mp hlba
    apply hlbas x hx
  obtain ⟨pba, hfill, happ, hpsas, hh', hdata, hbal, -⟩ := writePieces_normal hl ht hr hh hw
  rw [List.length_map] at hpsas
  have hbase : (pba * l2pgap + r.stBody.cur.page.length) % l2pgap = 0 := by
    rw [Nat.add_mod, Nat.mul_mod_left, halign]
    rfl
  have htarget : targetPpa psas = (pba * l2pgap + r.stBody.cur.page.length) / l2pgap := by
    obtain ⟨x, xs, hitems⟩ := List.exists_cons_of_ne_nil hpos
    rw [hpsas, hitems, List.length_cons, pieces_succ, targetPpa]
  dsimp only at hret
  rw [htarget] at hret
  cases hret
  have hvlen : (pp.items.map (·.2)).length ≤ l2pgap := by simpa using hlen
  refine ⟨pba, psas, hpsas, hfill, happ, holds_issueWrite.mpr hh', ?_, ?_, ?_⟩
  · intro q hq
    rw [← hdata]
    apply issueWrite_data_of_notMem hbase hvlen
    rw [List.length_map, ← hpsas]
    intro hmem
    apply (List.nodup_append.mp hh'.nodup).2.2 q hmem q hq rfl
  · apply List.ext_getElem?
    intro i
    rw [List.getElem?_map, hpsas, pieces, List.getElem?_map]
    by_cases hi : i < pp.items.length
    · rw [List.getElem?_range hi, Option.map_some, Option.map_some,
        issueWrite_data hbase hvlen, if_pos (by omega)]
      have hsub : pba * l2pgap + (r.stBody.cur.page.length + i)
          - (pba * l2pgap + r.stBody.cur.page.length) = i := by omega
      rw [hsub, List.getElem?_map, List.getElem?_eq_getElem hi]
      rfl
    · rw [List.getElem?_eq_none (by simpa using hi), List.getElem?_map,
        List.getElem?_eq_none (by simpa using hi)]
      rfl
  · intro hb
    apply balanced_issueWrite (hbal hb)

end Run

end AppL
