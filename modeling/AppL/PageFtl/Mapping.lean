import AppL.PageFtl.ReadBuffer

/-!
# The mapping of the page-mapping FTL

The history of the writes says what the align buffer holds and what has been flushed.  In
every state between two operations the mapping is a bijection between the lbas that have been
flushed and the valid pieces, and a read finds the last written data of its lba in the align
buffer or in flash.
-/

namespace AppL

open Transition

namespace PageFtl

variable {δ : Type} {g : Geometry}

/-- What a history of operations has flushed for every lba, and what it has left in the align
buffer.  A buffer that is full is flushed. -/
structure Flushed (δ : Type) where
  data : ℕ → Option δ
  buf : List (ℕ × δ)

/-- The buffer goes to flash. -/
def Flushed.flush (x : Flushed δ) : Flushed δ where
  data lba := ((x.buf.find? fun y => y.1 = lba).map Prod.snd).or (x.data lba)
  buf := []

/-- One operation of the history. -/
def Flushed.next (x : Flushed δ) : Op δ → Flushed δ
  | .write key data _ _ =>
      let x' : Flushed δ := { x with buf := align x.buf key data }
      if x'.buf.length = l2pgap then x'.flush else x'
  | _ => x

/-- The writes of a history that have been flushed, and those in the align buffer. -/
def flushed (ops : List (Op δ)) : Flushed δ := ops.foldl Flushed.next ⟨fun _ => none, []⟩

/-- The data that `page_read` gives when the device serves the read in this state. -/
def readData (s : PageFtl δ) (key : ℕ) : Option δ :=
  match (pageRead s key).1 with
  | .aligned v => some v
  | .notFound => none
  | .bufferHit v => v
  | .issued =>
      (s.mapping key).bind fun q => (s.flash (q / l2pgap)).bind fun v => v (q % l2pgap)
  | .pending =>
      -- the read that is in flight answers both
      (s.mapping key).bind fun q =>
        (s.rb.issueReq.find? fun x => x.1.ppa / l2pgap = q / l2pgap).bind fun x =>
          (x.2.or (s.flash (q / l2pgap))).bind fun v => v (q % l2pgap)

/-- The operation is a `page_write`. -/
def Op.isWrite : Op δ → Bool
  | .write _ _ _ _ => true
  | _ => false

/-- The invariant of the mapping after the operations `ops`. -/
structure Mapped (g : Geometry) (ops : List (Op δ)) (s : PageFtl δ) : Prop where
  segments : Segments g s
  consistent : Consistent g (flushed ops).data (fun _ => True) s
  buffered : Buffered (lastWritten ops) (flushed ops).data s.aBuffer
  buf : s.aBuffer = (flushed ops).buf
  rb : (∀ op ∈ ops, op.isWrite = true) → s.rb.bufferPpa = none ∧ s.rb.issueReq = []

/-- A flush makes the last written data the data in flash. -/
theorem Buffered.flush_eq {w : ℕ → Option δ} {x : Flushed δ} (h : Buffered w x.data x.buf) :
  x.flush.data = w
  := by
  funext lba
  change ((x.buf.find? fun y => y.1 = lba).map Prod.snd).or (x.data lba) = w lba
  cases hf : x.buf.find? (fun y => y.1 = lba) with
  | none =>
      have hmem : lba ∉ x.buf.map Prod.fst := by
        rintro hm
        obtain ⟨y, hy, rfl⟩ := List.mem_map.mp hm
        rw [List.find?_eq_none] at hf
        apply hf y hy
        simp
      apply (h.rest lba hmem).symm
  | some y =>
      have hy : y.1 = lba := by simpa using List.find?_some hf
      rw [← hy, h.mem y (List.mem_of_find?_eq_some hf)]
      rfl

/-- The mapping does not depend on the requests that wait. -/
theorem Mapped.of_rb {ops : List (Op δ)} {s s' : PageFtl δ} {op : Op δ} (h : Mapped g ops s)
    (hop : op.isWrite = false) (hs : s' = { s with rb := s'.rb }) :
  Mapped g (ops ++ [op]) s'
  := by
  have hne : ∀ key data target order, op ≠ .write key data target order := by
    rintro key data target order rfl
    cases hop
  have hw := lastWritten_other ops hne
  have hf : flushed (ops ++ [op]) = flushed ops := by
    rw [flushed, List.foldl_append]
    cases op with
    | write key data target order => cases hop
    | read key => rfl
    | serve ppa => rfl
    | endReq ppa => rfl
    | remove key => rfl
  obtain ⟨h₁, h₂, h₃, h₄, -⟩ := h
  rw [hs]
  refine ⟨?_, ?_, ?_, ?_, ?_⟩
  · use h₁.filled, h₁.free, h₁.reserve, h₁.nodup, h₁.active
  · rw [hf]
    use h₂.clear, h₂.erased, h₂.mapped, h₂.valid, h₂.unmapped
  · rw [hw, hf]
    apply h₃
  · rw [hf]
    apply h₄
  · intro hall
    have := hall op (by simp)
    rw [hop] at this
    cases this

/-- A write keeps the invariant. -/
theorem Mapped.pageWrite {ops : List (Op δ)} {s s' : PageFtl δ} {key target : ℕ} {data : δ}
    {order : List ℕ} (h : Mapped g ops s)
    (hs : PageFtl.pageWrite g s key data target order = .ok s') :
  Mapped g (ops ++ [.write key data target order]) s'
  := by
  obtain ⟨f', hf', hbuf', h₁, h₂, h₃, hrb, -⟩ :=
    pageWrite_ok h.segments h.consistent h.buffered hs
  have hnext : flushed (ops ++ [.write key data target order]) = ⟨f', s'.aBuffer⟩ := by
    have hal := h.buffered.align key data
    rw [flushed, List.foldl_append]
    change (flushed ops).next (.write key data target order) = _
    simp only [Flushed.next, ← h.buf]
    split
    · rename_i hlen
      rw [if_pos hlen] at hf' hbuf'
      have hdata := Buffered.flush_eq (x := ⟨(flushed ops).data, align s.aBuffer key data⟩) hal
      rw [hf', hbuf', ← hdata]
      rfl
    · rename_i hlen
      rw [if_neg hlen] at hf' hbuf'
      rw [hf', hbuf']
  refine ⟨h₁, ?_, ?_, ?_, ?_⟩
  · rw [hnext]
    apply h₂
  · rw [lastWritten_write, hnext]
    apply h₃
  · rw [hnext]
  · intro hall
    rw [hrb]
    apply h.rb
    intro op hop
    apply hall op (List.mem_append_left _ hop)

/-- Every operation keeps the invariant. -/
theorem Mapped.step {ops : List (Op δ)} {s s' : PageFtl δ} {op : Op δ} (h : Mapped g ops s)
    (hs : PageFtl.step g s op = .ok s') :
  Mapped g (ops ++ [op]) s'
  := by
  cases op with
  | write key data target order => apply h.pageWrite hs
  | read key =>
      cases hs
      apply h.of_rb rfl
      unfold pageRead
      split
      · rfl
      · split
        · rfl
        · split
          · rfl
          · split
            · rfl
            · rfl
  | serve ppa =>
      simp only [PageFtl.step, serve, bind_eq_ok] at hs
      obtain ⟨v, -, hret⟩ := hs
      cases hret
      apply h.of_rb rfl rfl
  | endReq ppa =>
      simp only [PageFtl.step, pageEndReq, bind_eq_ok] at hs
      obtain ⟨x, -, v, -, hret⟩ := hs
      cases hret
      apply h.of_rb rfl rfl
  | remove key =>
      cases hs
      apply h.of_rb rfl rfl

theorem mapped_create {s : PageFtl δ} (h : create g = .ok s) :
  Mapped g [] s
  := by
  obtain ⟨f, h₁, h₂, h₃, -⟩ := inv_create h
  obtain ⟨hbuf, hrb⟩ : s.aBuffer = [] ∧ s.rb.bufferPpa = none ∧ s.rb.issueReq = [] := by
    simp only [create, bind_eq_ok] at h
    obtain ⟨x, -, y, -, hret⟩ := h
    cases hret
    exact ⟨rfl, rfl, rfl⟩
  have hf : f = fun _ => none := by
    funext lba
    rw [← h₃.rest lba (by simp [hbuf])]
    rfl
  subst hf
  use h₁, h₂, h₃, hbuf, fun _ => hrb

/-- Every state reached satisfies the invariant. -/
theorem mapped_run {s₀ s : PageFtl δ} {ops : List (Op δ)} (h₀ : create g = .ok s₀)
    (h : run (PageFtl.step g) s₀ ops = .ok s) :
  Mapped g ops s
  := run_history (Mapped g) (fun _ _ _ _ hI => hI.step) (mapped_create h₀) h

/-! ### Reads -/

/-- A read that does not wait for another one, and that the read buffer does not answer, gives
the last written data. -/
theorem Mapped.readData_eq {ops : List (Op δ)} {s : PageFtl δ} (h : Mapped g ops s)
    (hb : s.rb.bufferPpa = none) (hi : s.rb.issueReq = []) (key : ℕ) :
  readData s key = lastWritten ops key
  := by
  cases hf : s.aBuffer.find? (fun x => x.1 = key) with
  | some x =>
      have hx : x.1 = key := by simpa using List.find?_some hf
      have hw := h.buffered.mem x (List.mem_of_find?_eq_some hf)
      rw [hx] at hw
      simp only [readData, pageRead, hf, hw]
  | none =>
      have hmem : key ∉ s.aBuffer.map Prod.fst := by
        intro hm
        obtain ⟨x, hx, rfl⟩ := List.mem_map.mp hm
        rw [List.find?_eq_none] at hf
        apply hf x hx
        simp
      rw [h.buffered.rest key hmem]
      cases hq : s.mapping key with
      | none =>
          rw [h.consistent.unmapped key hq]
          simp only [readData, pageRead, hf, hq]
      | some q =>
          obtain ⟨-, -, v, hfl, hd, -⟩ := h.consistent.mapped key q hq
          have hans : (pageRead s key).1 = .issued := by simp [pageRead, hf, hq, hb, hi]
          simp only [readData, hans, hq, Option.bind_some, hfl, hd]

/-- The valid pieces are those of the mapping. -/
theorem Mapped.valid_iff {ops : List (Op δ)} {s : PageFtl δ} (h : Mapped g ops s) (q : ℕ) :
  s.bm.bitset q = true ↔ ∃ lba, s.mapping lba = some q
  := by
  constructor
  · intro hb
    use s.bm.oob q, h.consistent.valid q hb trivial
  · rintro ⟨lba, hq⟩
    apply (h.consistent.mapped lba q hq).1

/-- In every state between two operations the mapping is injective; the piece of a mapped lba
is valid, has the lba in its out-of-band entry and the data that was flushed last for it; the
valid pieces are those of the mapping; and after writes alone every read gives the last
written data of its lba. -/
theorem mapping_readData (g : Geometry) (s₀ s : PageFtl δ) (ops : List (Op δ))
    (h₀ : create g = .ok s₀) (h : run (PageFtl.step g) s₀ ops = .ok s) :
  (∀ lba lba' q, s.mapping lba = some q → s.mapping lba' = some q → lba = lba') ∧
    (∀ lba q, s.mapping lba = some q → s.bm.bitset q = true ∧ s.bm.oob q = lba ∧
      ∃ v, s.flash (q / l2pgap) = some v ∧ v (q % l2pgap) = (flushed ops).data lba) ∧
    (∀ q, s.bm.bitset q = true ↔ ∃ lba, s.mapping lba = some q) ∧
    ((∀ op ∈ ops, op.isWrite = true) → ∀ key, readData s key = lastWritten ops key)
  := by
  have hm := mapped_run h₀ h
  refine ⟨?_, ?_, ?_, ?_⟩
  · intro lba lba' q hq hq'
    rw [← (hm.consistent.mapped lba q hq).2.1, ← (hm.consistent.mapped lba' q hq').2.1]
  · intro lba q hq
    obtain ⟨hb, ho, v, hfl, hd, -⟩ := hm.consistent.mapped lba q hq
    use hb, ho, v, hfl, hd
  · apply hm.valid_iff
  · intro hall key
    obtain ⟨hb, hi⟩ := hm.rb hall
    apply hm.readData_eq hb hi

/-- A device of three segments of two pages. -/
def twoPageGeometry : Geometry := ⟨2, 1, 3, Nat.two_pos, Nat.one_pos⟩

/-- Four consecutive lbas are written, which fills a page; `target` is the victim if no segment
is free. -/
def writePage (first data target : ℕ) : List (Op ℕ) :=
  (List.range l2pgap).map (fun i => .write (first + i) data target [])

/-- The lbas `0` to `3` are written again until no segment is free; of segment `1` the page with
the lbas `4` to `7` is left. -/
def fillDevice : List (Op ℕ) :=
  writePage 0 10 0 ++ writePage 4 10 0 ++ writePage 0 11 0 ++ writePage 0 12 0

/-- The next page makes room by a collection of segment `1`, and one lba is written once more. -/
def collectVictim : List (Op ℕ) :=
  fillDevice ++ writePage 0 13 1 ++ [.write 2 20 0 []]

/-- The collection has moved the lbas `4` to `7` from page `3` to page `0`, the lbas `0` to `3`
come after them: reads find the new data in the align buffer and the moved data in flash. -/
theorem mapping_readData_collected :
  ∃ s₀ s s', create twoPageGeometry = .ok s₀ ∧
    run (PageFtl.step twoPageGeometry) s₀ fillDevice = .ok s ∧
    run (PageFtl.step twoPageGeometry) s₀ collectVictim = .ok s' ∧
    [0, 4].map s.mapping = [some 20, some 12] ∧ [0, 4].map s'.mapping = [some 4, some 0] ∧
    [1, 2, 4].map (readData s') = [some 13, some 20, some 10]
  := by
  obtain ⟨s₀, h₀⟩ : ∃ s₀, create (δ := ℕ) twoPageGeometry = .ok s₀ := ⟨_, rfl⟩
  obtain ⟨s, h⟩ : ∃ s, run (PageFtl.step twoPageGeometry) s₀ fillDevice = .ok s := by
    cases h₀
    exact ⟨_, rfl⟩
  obtain ⟨s', h'⟩ : ∃ s', run (PageFtl.step twoPageGeometry) s₀ collectVictim = .ok s' := by
    cases h₀
    exact ⟨_, rfl⟩
  have hread := (mapping_readData twoPageGeometry s₀ s' _ h₀ h').2.2.2 (by decide)
  use s₀, s, s', h₀, h, h'
  constructor
  · cases h₀
    cases h
    decide
  constructor
  · cases h₀
    cases h'
    decide
  · rw [funext hread]
    decide

end PageFtl

end AppL
