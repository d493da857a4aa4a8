import AppL.PageFtl.Mapping
import Mathlib.Data.List.Rotate
import Mathlib.Data.Nat.ModEq

/-!
# The other garbage collection

`new_do_gc` reads every page of the victim and takes a piece as live when the mapping of its
out-of-band lba designates it; `do_gc` reads the pages with a valid piece and goes by the
validity bit.  Where the valid pieces are those of the mapping the two tests agree when the
collection starts, and they keep agreeing on the pieces still to be looked at: an lba that has
been collected is mapped to a piece that comes no more, or has left the victim.

`new_do_gc` goes round the array of its reads and frees a read that it has handled without taking
it out of the array.  It ends only if one round from the first completed read on finds all reads
completed; it then handles the pages in that order.
-/

namespace AppL

open Transition

namespace PageFtl

variable {δ : Type} {g : Geometry}

/-- A slot of a page that `new_do_gc` has read: `page_map_pick` tells whether it is live. -/
def newGcPiece (g : Geometry) (ppa : ℕ) (v : Page δ) (x : PageFtl δ × AlignGcBuffer δ) (i : ℕ) :
    Except Abort (PageFtl δ × AlignGcBuffer δ) :=
  let q := ppa * l2pgap + i
  if x.1.mapping (x.1.bm.oob q) ≠ some q then
    .ok x
  else
    let b := { x.2 with items := x.2.items ++ [(x.1.bm.oob q, v i)] }
    if b.items.length = l2pgap then gcWrite g x.1 b else .ok (x.1, b)

/-- The slots of a page that `new_do_gc` has read. -/
def newGcPage (g : Geometry) (x : PageFtl δ × AlignGcBuffer δ) (r : ℕ × Page δ) :
    Except Abort (PageFtl δ × AlignGcBuffer δ) :=
  (List.range l2pgap).foldlM (newGcPiece g r.1 r.2) x

/-- Where `new_do_gc` is in `gv_array`: the index `gvIdx` of the next read to be tested, the number
`doneCnt` of reads it has handled, and their indices, whose memory is free. -/
structure GvArray (δ : Type) where
  gvIdx : ℕ
  doneCnt : ℕ
  freed : List ℕ
  gc : PageFtl δ × AlignGcBuffer δ

/-- How many reads have completed, in issue order, at test `t` of `isdone`.  The numbers are those
of `arrivals`, and behind its end every read has completed. -/
def completed (g : Geometry) (arrivals : List ℕ) (t : ℕ) : ℕ := arrivals.getD t g.pps

/-- One turn of the loop round `gv_array`.  The entry of a freed read is not taken out of it. -/
def newGcTurn (g : Geometry) (arrivals : List ℕ) (reads : List (ℕ × Page δ)) (l : GvArray δ)
    (t : ℕ) : Except Abort (GvArray δ) :=
  if l.doneCnt = g.pps then
    .ok l
  else if l.gvIdx ∈ l.freed then
    .error .useAfterFree
  else if completed g arrivals t ≤ l.gvIdx then
    .ok { l with gvIdx := (l.gvIdx + 1) % g.pps }
  else do
    let r ← orThrow .outOfBounds reads[l.gvIdx]?
    let gc ← newGcPage g l.gc r
    return ⟨(l.gvIdx + 1) % g.pps, l.doneCnt + 1, l.freed ++ [l.gvIdx], gc⟩

/-- `new_do_gc` of the segment `target`, whose page reads complete as `arrivals` says. -/
def newDoGc (g : Geometry) (s : PageFtl δ) (target : ℕ) (arrivals : List ℕ) :
    Except Abort (PageFtl δ) := do
  let bm ← s.bm.getGcTarget g mhGetCnt target
  let s := { s with bm := bm }
  let reads ← (g.pages target).mapM
    (fun p => do return (p, ← orThrow .notPopulated (s.flash p)))
  let l ← (List.range (arrivals.length + g.pps)).foldlM (newGcTurn g arrivals reads)
    ⟨0, 0, [], (s, ⟨[], fun _ => none⟩)⟩
  let (s, _) ← gcWriteLast g l.gc.1 l.gc.2
  gcFinish g s target

/-! ### Mapped lbas -/

theorem foldl_mapPiece_of_mem (m : ℕ → Option ℕ) (ppa k : ℕ) (lbas : List ℕ) (lba : ℕ)
    (h : lba ∈ lbas) :
  ∃ i < k + lbas.length, (lbas.zipIdx k).foldl (mapPiece ppa) m lba = some (ppa * l2pgap + i)
  := by
  induction lbas generalizing m k with
  | nil => cases h
  | cons a l ih =>
      rw [List.zipIdx_cons, List.foldl_cons, List.length_cons]
      by_cases hl : lba ∈ l
      · obtain ⟨i, hi, heq⟩ := ih (mapPiece ppa m (a, k)) (k + 1) hl
        use i, by omega, heq
      · obtain rfl := (List.mem_cons.mp h).resolve_right hl
        use k, by omega
        rw [foldl_mapPiece_of_notMem _ _ _ _ _ hl, mapPiece, Function.update_self]

theorem setMapping_of_mem (m : ℕ → Option ℕ) (ppa : ℕ) {lbas : List ℕ} {lba : ℕ}
    (h : lba ∈ lbas) :
  ∃ i < lbas.length, setMapping m ppa lbas lba = some (ppa * l2pgap + i)
  := by
  have := foldl_mapPiece_of_mem m ppa 0 lbas lba h
  rwa [Nat.zero_add] at this

/-! ### The two tests during a collection -/

/-- A collection of `target` with the slots `R` still to be looked at.  The two tests agree on
them, and the lbas in the gc buffer are mapped to pieces that have been looked at; the bits of
the victim are those of `s₀`. -/
structure SameTests (g : Geometry) (s₀ : PageFtl δ) (target : ℕ) (R : List ℕ)
    (x : PageFtl δ × AlignGcBuffer δ) : Prop where
  written : ∀ p, p / g.pps = target → x.1.flash p ≠ none
  slots : ∀ q ∈ R, q / l2pgap / g.pps = target
  nodup : R.Nodup
  agree : ∀ q ∈ R, x.1.bm.bitset q = true ↔ x.1.mapping (x.1.bm.oob q) = some q
  taken : ∀ y ∈ x.2.items, ∃ q, x.1.mapping y.1 = some q ∧ q ∉ R
  bits : ∀ q, q / l2pgap / g.pps = target → x.1.bm.bitset q = s₀.bm.bitset q

/-- What `gcWrite` changes, whatever the state of the segments: an erased page is written, and
the lbas of the buffer are mapped to its pieces. -/
structure BufferWritten (s s' : PageFtl δ) (b b' : AlignGcBuffer δ) (res : ℕ) : Prop where
  erased : s.flash res = none
  flash : ∀ p, s.flash p ≠ none → s'.flash p ≠ none
  mapping : s'.mapping = setMapping s.mapping res (b.items.map Prod.fst)
  bitset : ∀ q, q / l2pgap ≠ res → s'.bm.bitset q = s.bm.bitset q
  oob : ∀ q, q / l2pgap ≠ res → s'.bm.oob q = s.bm.oob q
  items : b'.items = []

theorem getPageAddr_bits {bm bm' : BlockManager} {t : ℕ} {res : Option ℕ}
    (h : bm.getPageAddr g t = .ok (res, bm')) :
  bm'.bitset = bm.bitset ∧ bm'.oob = bm.oob
  := by
  simp only [BlockManager.getPageAddr] at h
  split_ifs at h <;> cases h <;> exact ⟨rfl, rfl⟩

theorem gcWrite_bufferWritten {s s' : PageFtl δ} {b b' : AlignGcBuffer δ}
    (hlen : b.items.length ≤ l2pgap) (h : gcWrite g s b = .ok (s', b')) :
  ∃ res, BufferWritten s s' b b' res
  := by
  simp only [gcWrite, pageMapGcUpdate, bind_eq_ok, orThrow_eq_ok, pure, Except.pure,
    Except.ok.injEq, Prod.exists, Prod.mk.injEq, program, require_eq_ok] at h
  obtain ⟨_, _, ⟨_, bm, haddr, res, rfl, rfl, rfl⟩, _, ⟨_, herased, rfl⟩, rfl, rfl⟩ := h
  obtain ⟨hbit, hoob⟩ := getPageAddr_bits haddr
  have hval := foldl_bitSet (g := g) bm res (b.items.map Prod.fst).length (by simpa using hlen)
  obtain ⟨-, ho, hb⟩ := hval
  use res
  constructor
  · apply herased
  · intro p hp
    by_cases hpr : p = res
    · subst hpr
      exact absurd herased hp
    · simp only [validatePpa]
      rw [Function.update_of_ne hpr]
      apply hp
  · rfl
  · intro q hq
    rw [Bool.eq_iff_iff, ← hbit]
    refine (hb q).trans ?_
    simp [hq]
  · intro q hq
    simp only [validatePpa, BlockManager.setOob, if_neg hq, ho, hoob]
  · rfl

/-- Writing the gc buffer keeps the tests in agreement: no lba of the buffer is that of a valid
piece still to be looked at, and their new pieces are outside the victim. -/
theorem SameTests.gcWrite {s₀ s s' : PageFtl δ} {b b' : AlignGcBuffer δ} {target : ℕ}
    {R : List ℕ} (h : SameTests g s₀ target R (s, b)) (hlen : b.items.length ≤ l2pgap)
    (hw : PageFtl.gcWrite g s b = .ok (s', b')) :
  SameTests g s₀ target R (s', b')
  := by
  obtain ⟨res, w⟩ := gcWrite_bufferWritten hlen hw
  have hout : res / g.pps ≠ target := by
    intro ht
    apply h.written res ht w.erased
  have hne : ∀ q, q / l2pgap / g.pps = target → q / l2pgap ≠ res := by
    intro q hq heq
    rw [heq] at hq
    apply hout hq
  constructor
  · intro p hp
    apply w.flash p (h.written p hp)
  · apply h.slots
  · apply h.nodup
  · intro q hq
    have ht := h.slots q hq
    simp only
    rw [w.bitset q (hne q ht), w.oob q (hne q ht), h.agree q hq, w.mapping]
    by_cases hm : s.bm.oob q ∈ b.items.map Prod.fst
    · obtain ⟨y, hy, hyq⟩ := List.mem_map.mp hm
      obtain ⟨q', hq', hnot⟩ := h.taken y hy
      simp only [hyq] at hq'
      have hold : s.mapping (s.bm.oob q) ≠ some q := by
        rw [hq', Ne, Option.some.injEq]
        rintro rfl
        apply hnot hq
      have hnew : setMapping s.mapping res (b.items.map Prod.fst) (s.bm.oob q) ≠ some q := by
        intro heq
        obtain ⟨i, hi, hri⟩ := setMapping_of_mem s.mapping res hm
        rw [hri, Option.some.injEq] at heq
        apply hne q ht
        rw [← heq]
        apply piece_div
        rw [List.length_map] at hi
        omega
      use fun hq => absurd hq hold, fun hq => absurd hq hnew
    · rw [setMapping_of_notMem _ _ hm]
  · intro y hy
    rw [w.items] at hy
    cases hy
  · intro q hq
    simp only
    rw [w.bitset q (hne q hq)]
    apply h.bits q hq

/-- The two loops do the same on a slot, and the tests still agree after it. -/
theorem SameTests.newGcPiece_eq {s₀ : PageFtl δ} {target ppa i : ℕ} {v : Page δ} {R : List ℕ}
    {x : PageFtl δ × AlignGcBuffer δ} (h : SameTests g s₀ target ((ppa * l2pgap + i) :: R) x) :
  newGcPiece g ppa v x i = gcPiece g ppa v x i
  := by
  have hag := h.agree _ List.mem_cons_self
  unfold newGcPiece gcPiece
  cases hv : x.1.bm.bitset (ppa * l2pgap + i) with
  | false =>
      rw [hv] at hag
      have hm : x.1.mapping (x.1.bm.oob (ppa * l2pgap + i)) ≠ some (ppa * l2pgap + i) := by
        intro hm
        cases hag.mpr hm
      simp only [if_pos hm, hv, Bool.false_eq_true, if_false]
  | true =>
      have hm := hag.mp hv
      simp only [hm, hv, ne_eq, not_true_eq_false, if_false, if_true]

theorem SameTests.gcPiece {s₀ : PageFtl δ} {target ppa i : ℕ} {v : Page δ} {R : List ℕ}
    {x x' : PageFtl δ × AlignGcBuffer δ}
    (h : SameTests g s₀ target ((ppa * l2pgap + i) :: R) x) (hlen : x.2.items.length < l2pgap)
    (hp : PageFtl.gcPiece g ppa v x i = .ok x') :
  x'.2.items.length < l2pgap ∧ SameTests g s₀ target R x'
  := by
  obtain ⟨s, b⟩ := x
  have hnodup := List.nodup_cons.mp h.nodup
  have hrest : ∀ b' : AlignGcBuffer δ,
      (∀ y ∈ b'.items, ∃ q, s.mapping y.1 = some q ∧ q ∉ R) → SameTests g s₀ target R (s, b') := by
    intro b' hb
    refine ⟨h.written, ?_, hnodup.2, ?_, hb, h.bits⟩
    · intro q hq
      apply h.slots q (List.mem_cons_of_mem _ hq)
    · intro q hq
      apply h.agree q (List.mem_cons_of_mem _ hq)
  have hold : ∀ y ∈ b.items, ∃ q, s.mapping y.1 = some q ∧ q ∉ R := by
    intro y hy
    obtain ⟨q, hq, hnot⟩ := h.taken y hy
    use q, hq, fun hR => hnot (List.mem_cons_of_mem _ hR)
  unfold PageFtl.gcPiece at hp
  cases hv : s.bm.bitset (ppa * l2pgap + i) with
  | false =>
      simp only [hv, Bool.false_eq_true, if_false, Except.ok.injEq] at hp
      subst hp
      exact ⟨hlen, hrest b hold⟩
  | true =>
      have hm := (h.agree _ List.mem_cons_self).mp hv
      have hnew := hrest { b with items := b.items ++ [(s.bm.oob (ppa * l2pgap + i), v i)] } (by
        intro y hy
        rcases List.mem_append.mp hy with hy | hy
        · apply hold y hy
        · rw [List.mem_singleton.mp hy]
          exact ⟨_, hm, hnodup.1⟩)
      simp only [hv, if_true] at hp
      split at hp
      · rename_i hfull
        obtain ⟨s', b'⟩ := x'
        have h' := hnew.gcWrite (by simp only at hfull ⊢; omega) hp
        obtain ⟨res, w⟩ := gcWrite_bufferWritten (by simp only at hfull ⊢; omega) hp
        refine ⟨?_, h'⟩
        simp [w.items, l2pgap]
      · rename_i hfull
        simp only [Except.ok.injEq] at hp
        subst hp
        refine ⟨?_, hnew⟩
        simp only [List.length_append, List.length_singleton] at hfull ⊢
        simp only at hlen
        omega

/-! ### The pages -/

/-- The pieces of some pages. -/
def pieces (ppas : List ℕ) : List ℕ :=
  ppas.flatMap (fun p => (List.range l2pgap).map (fun i => p * l2pgap + i))

/-- The page has a valid piece. -/
def hasValid (bm : BlockManager) (p : ℕ) : Bool :=
  (List.range l2pgap).any (fun i => bm.bitset (p * l2pgap + i))

/-- One page: the two loops do the same, and they do nothing when no piece of it is valid. -/
theorem SameTests.page {s₀ : PageFtl δ} {target : ℕ} {r : ℕ × Page δ} {ppas : List ℕ}
    {x : PageFtl δ × AlignGcBuffer δ} (h : SameTests g s₀ target (pieces (r.1 :: ppas)) x)
    (hlen : x.2.items.length < l2pgap) :
  (List.range l2pgap).foldlM (newGcPiece g r.1 r.2) x
    = (List.range l2pgap).foldlM (PageFtl.gcPiece g r.1 r.2) x
  := by
  apply foldlM_congr_invariant (fun is x => x.2.items.length < l2pgap ∧ SameTests g s₀ target
    (is.map (fun i => r.1 * l2pgap + i) ++ pieces ppas) x) _ _ ⟨hlen, h⟩
  · intro i is x hx
    apply hx.2.newGcPiece_eq
  · intro i is x x' hx hstep
    apply hx.2.gcPiece hx.1 hstep

theorem SameTests.page_ok {s₀ : PageFtl δ} {target : ℕ} {r : ℕ × Page δ} {ppas : List ℕ}
    {x x' : PageFtl δ × AlignGcBuffer δ} (h : SameTests g s₀ target (pieces (r.1 :: ppas)) x)
    (hlen : x.2.items.length < l2pgap)
    (hr : (List.range l2pgap).foldlM (PageFtl.gcPiece g r.1 r.2) x = .ok x') :
  x'.2.items.length < l2pgap ∧ SameTests g s₀ target (pieces ppas) x'
  := by
  apply foldlM_invariant (fun is x => x.2.items.length < l2pgap ∧ SameTests g s₀ target
    (is.map (fun i => r.1 * l2pgap + i) ++ pieces ppas) x) _ ⟨hlen, h⟩ hr
  intro i is x x' hx hstep
  apply hx.2.gcPiece hx.1 hstep

/-- A page without a valid piece is passed over. -/
theorem foldlM_gcPiece_of_not_hasValid {x : PageFtl δ × AlignGcBuffer δ} {r : ℕ × Page δ}
    (h : hasValid x.1.bm r.1 = false) :
  (List.range l2pgap).foldlM (PageFtl.gcPiece g r.1 r.2) x = .ok x
  := by
  have hclear : ∀ i ∈ List.range l2pgap, x.1.bm.bitset (r.1 * l2pgap + i) = false := by
    intro i hi
    rw [hasValid, List.any_eq_false] at h
    simpa using h i hi
  revert hclear
  generalize List.range l2pgap = is
  intro hclear
  induction is with
  | nil => rfl
  | cons i is ih =>
      have hi := hclear i List.mem_cons_self
      rw [List.foldlM_cons, PageFtl.gcPiece]
      simp only [hi, Bool.false_eq_true, if_false]
      apply ih
      intro j hj
      apply hclear j (List.mem_cons_of_mem _ hj)

/-- All pages that `new_do_gc` reads, and those among them that `do_gc` reads. -/
theorem SameTests.reads {s₀ : PageFtl δ} {target : ℕ} {reads : List (ℕ × Page δ)}
    {x : PageFtl δ × AlignGcBuffer δ}
    (h : SameTests g s₀ target (pieces (reads.map Prod.fst)) x)
    (hlen : x.2.items.length < l2pgap) :
  reads.foldlM (newGcPage g) x
    = (reads.filter (fun r => hasValid s₀.bm r.1)).foldlM
        (fun x r => (List.range l2pgap).foldlM (PageFtl.gcPiece g r.1 r.2) x) x
  := by
  rw [List.foldlM_filter]
  apply foldlM_congr_invariant (fun l x => x.2.items.length < l2pgap ∧
    SameTests g s₀ target (pieces (l.map Prod.fst)) x) _ _ ⟨hlen, h⟩
  · intro r l x hx
    rw [newGcPage, hx.2.page hx.1]
    split
    · rfl
    · rename_i hnot
      apply foldlM_gcPiece_of_not_hasValid
      rw [← Bool.not_eq_true]
      intro hv
      apply hnot
      rw [hasValid, List.any_eq_true] at hv ⊢
      obtain ⟨i, hi, hb⟩ := hv
      use i, hi
      have hslot : r.1 * l2pgap + i ∈ pieces ((r :: l).map Prod.fst) := by
        rw [pieces, List.map_cons, List.flatMap_cons, List.mem_append]
        left
        apply List.mem_map_of_mem hi
      rw [← hx.2.bits _ (hx.2.slots _ hslot)]
      apply hb
  · intro r l x x' hx hstep
    split at hstep
    · apply hx.2.page_ok hx.1 hstep
    · rename_i hnot
      cases hstep
      use hx.1
      have hsub : ∀ q ∈ pieces (l.map Prod.fst), q ∈ pieces ((r :: l).map Prod.fst) := by
        intro q hq
        rw [pieces, List.map_cons, List.flatMap_cons, List.mem_append]
        right
        apply hq
      have hnodup := hx.2.nodup
      rw [pieces, List.map_cons, List.flatMap_cons, List.nodup_append'] at hnodup
      refine ⟨hx.2.written, ?_, hnodup.2.1, ?_, ?_, hx.2.bits⟩
      · intro q hq
        apply hx.2.slots q (hsub q hq)
      · intro q hq
        apply hx.2.agree q (hsub q hq)
      · intro y hy
        obtain ⟨q, hq, hn⟩ := hx.2.taken y hy
        use q, hq, fun hl => hn (hsub q hl)

/-! ### Going round the array of reads -/

/-- The first test that finds its read completed. -/
def firstDone (g : Geometry) (arrivals : List ℕ) : ℕ :=
  (List.range arrivals.length).findIdx (fun t => decide (t % g.pps < completed g arrivals t))

/-- From the first test that finds its read completed on, a whole round of tests does. -/
def InOnePass (g : Geometry) (arrivals : List ℕ) : Prop :=
  ∀ i < g.pps, (firstDone g arrivals + i) % g.pps < completed g arrivals (firstDone g arrivals + i)

/-- The order in which `new_do_gc` handles the pages of the victim when one round is enough. -/
def roundFrom (g : Geometry) (target : ℕ) (arrivals : List ℕ) : List ℕ :=
  (g.pages target).rotate (firstDone g arrivals)

theorem firstDone_le (g : Geometry) (arrivals : List ℕ) :
  firstDone g arrivals ≤ arrivals.length
  := by
  have := @List.findIdx_le_length _ (fun t => decide (t % g.pps < completed g arrivals t))
    (List.range arrivals.length)
  rwa [List.length_range] at this

theorem not_completed_of_lt_firstDone {g : Geometry} {arrivals : List ℕ} {t : ℕ}
    (h : t < firstDone g arrivals) :
  completed g arrivals t ≤ t % g.pps
  := by
  have := List.not_of_lt_findIdx h
  simpa using this

theorem completed_of_length_le {g : Geometry} {arrivals : List ℕ} {t : ℕ}
    (h : arrivals.length ≤ t) :
  t % g.pps < completed g arrivals t
  := by
  rw [completed, List.getD_eq_getElem?_getD, List.getElem?_eq_none h, Option.getD_none]
  apply Nat.mod_lt _ g.pps_pos

/-- The first completed read is found at `firstDone`. -/
theorem completed_firstDone (g : Geometry) (arrivals : List ℕ) :
  firstDone g arrivals % g.pps < completed g arrivals (firstDone g arrivals)
  := by
  by_cases hlt : firstDone g arrivals < arrivals.length
  · have := @List.findIdx_getElem _ (fun t => decide (t % g.pps < completed g arrivals t))
      (List.range arrivals.length) (by rwa [List.length_range])
    rw [decide_eq_true_eq, List.getElem_range] at this
    apply this
  · apply completed_of_length_le (not_lt.mp hlt)

/-- Where every read has completed at the first completed read, one round is enough. -/
theorem inOnePass_of_length_le {g : Geometry} {arrivals : List ℕ}
    (h : arrivals.length ≤ firstDone g arrivals) :
  InOnePass g arrivals
  := by
  intro i _
  apply completed_of_length_le
  omega

theorem length_pages (g : Geometry) (target : ℕ) :
  (g.pages target).length = g.pps
  := by
  rw [Geometry.pages, List.length_map, List.length_range]

theorem slot_succ (g : Geometry) (t : ℕ) :
  (t % g.pps + 1) % g.pps = (t + 1) % g.pps
  := Nat.mod_add_mod t g.pps 1

/-- Two tests less than a round apart are of different reads. -/
theorem slot_ne {g : Geometry} {t i j : ℕ} (hij : i < j) (hj : j < g.pps) :
  (t + i) % g.pps ≠ (t + j) % g.pps
  := by
  intro h
  have hmod : i % g.pps = j % g.pps := Nat.ModEq.add_left_cancel' t h
  rw [Nat.mod_eq_of_lt (hij.trans hj), Nat.mod_eq_of_lt hj] at hmod
  omega

variable {arrivals : List ℕ} {reads : List (ℕ × Page δ)}

/-- A turn whose read has not completed. -/
theorem newGcTurn_next {l : GvArray δ} {t : ℕ} (hcnt : l.doneCnt ≠ g.pps)
    (hfree : l.gvIdx ∉ l.freed) (hlate : completed g arrivals t ≤ l.gvIdx) :
  newGcTurn g arrivals reads l t = .ok { l with gvIdx := (l.gvIdx + 1) % g.pps }
  := by
  rw [newGcTurn, if_neg hcnt, if_neg hfree, if_pos hlate]

/-- A turn whose read has completed. -/
theorem newGcTurn_done {l : GvArray δ} {t : ℕ} {r : ℕ × Page δ} (hcnt : l.doneCnt ≠ g.pps)
    (hfree : l.gvIdx ∉ l.freed) (hdone : l.gvIdx < completed g arrivals t)
    (hr : reads[l.gvIdx]? = some r) :
  newGcTurn g arrivals reads l t = (newGcPage g l.gc r).map
    (fun gc => ⟨(l.gvIdx + 1) % g.pps, l.doneCnt + 1, l.freed ++ [l.gvIdx], gc⟩)
  := by
  rw [newGcTurn, if_neg hcnt, if_neg hfree, if_neg (not_le.mpr hdone), hr]
  simp only [orThrow, bind, Except.bind, pure, Except.pure]
  cases newGcPage g l.gc r with
  | error e => rfl
  | ok gc => rfl

/-- Before the first completed read nothing but the index moves. -/
theorem turns_before_firstDone (x : PageFtl δ × AlignGcBuffer δ) {n : ℕ}
    (h : n ≤ firstDone g arrivals) :
  (List.range n).foldlM (newGcTurn g arrivals reads) ⟨0, 0, [], x⟩ = .ok ⟨n % g.pps, 0, [], x⟩
  := by
  induction n with
  | zero =>
      rw [Nat.zero_mod]
      rfl
  | succ n ih =>
      rw [List.range_succ, List.foldlM_append, ih (by omega)]
      have hturn := @newGcTurn_next _ g arrivals reads ⟨n % g.pps, 0, [], x⟩ n g.pps_pos.ne
        List.not_mem_nil (not_completed_of_lt_firstDone h)
      simp only [bind, Except.bind, List.foldlM_cons, hturn, slot_succ]
      rfl

/-- The first turns of the round that begins with the first completed read, when every test of
the round finds its read completed: the reads are handled one after the other. -/
theorem turns_of_inOnePass (hpass : InOnePass g arrivals) (hlen : reads.length = g.pps)
    (x : PageFtl δ × AlignGcBuffer δ) {j : ℕ} (hj : j ≤ g.pps) :
  (List.range (firstDone g arrivals + j)).foldlM (newGcTurn g arrivals reads) ⟨0, 0, [], x⟩
    = (((reads.rotate (firstDone g arrivals)).take j).foldlM (newGcPage g) x).map
        (fun gc => ⟨(firstDone g arrivals + j) % g.pps, j,
          (List.range j).map (fun i => (firstDone g arrivals + i) % g.pps), gc⟩)
  := by
  induction j with
  | zero => apply turns_before_firstDone x (Nat.le_refl _)
  | succ j ih =>
      have hlt : j < (reads.rotate (firstDone g arrivals)).length := by
        rw [List.length_rotate]
        omega
      have hread : reads[(firstDone g arrivals + j) % g.pps]?
          = some (reads.rotate (firstDone g arrivals))[j] := by
        rw [← List.getElem?_eq_getElem hlt, List.getElem?_rotate (by omega), hlen, Nat.add_comm]
      rw [← Nat.add_assoc, List.range_succ, List.foldlM_append, ih (by omega),
        List.take_succ_eq_append_getElem hlt, List.foldlM_append]
      cases ((reads.rotate (firstDone g arrivals)).take j).foldlM (newGcPage g) x with
      | error e => rfl
      | ok gc =>
          have hfree : (firstDone g arrivals + j) % g.pps
              ∉ (List.range j).map (fun i => (firstDone g arrivals + i) % g.pps) := by
            intro hmem
            obtain ⟨i, hi, heq⟩ := List.mem_map.mp hmem
            apply slot_ne (List.mem_range.mp hi) (by omega) heq
          have hturn := newGcTurn_done (l := ⟨(firstDone g arrivals + j) % g.pps, j, _, gc⟩)
            (by simp only; omega) hfree (hpass j (by omega)) hread
          simp only [bind, Except.bind, Except.map, List.foldlM_cons, List.foldlM_nil, hturn,
            slot_succ, pure, Except.pure, List.range_succ, List.map_append, List.map_cons,
            List.map_nil]
          cases newGcPage g gc (reads.rotate (firstDone g arrivals))[j] with
          | error e => rfl
          | ok gc => rfl

/-- When all reads have been handled, the loop has ended. -/
theorem turns_ended {l : GvArray δ} (h : l.doneCnt = g.pps) (ts : List ℕ) :
  ts.foldlM (newGcTurn g arrivals reads) l = .ok l
  := by
  induction ts with
  | nil => rfl
  | cons t ts ih =>
      rw [List.foldlM_cons, newGcTurn, if_pos h]
      apply ih

/-- One round is enough: the loop handles the reads from the first completed one on. -/
theorem turns_eq_of_inOnePass (hpass : InOnePass g arrivals) (hlen : reads.length = g.pps)
    (x : PageFtl δ × AlignGcBuffer δ) :
  ∃ idx freed,
    (List.range (arrivals.length + g.pps)).foldlM (newGcTurn g arrivals reads) ⟨0, 0, [], x⟩
      = ((reads.rotate (firstDone g arrivals)).foldlM (newGcPage g) x).map
          (fun gc => ⟨idx, g.pps, freed, gc⟩)
  := by
  have hle := firstDone_le g arrivals
  have hround := turns_of_inOnePass hpass hlen x (Nat.le_refl _)
  rw [List.take_of_length_le (by rw [List.length_rotate, hlen])] at hround
  obtain ⟨k, hk⟩ := Nat.exists_eq_add_of_le (Nat.add_le_add_right hle g.pps)
  rw [hk, List.range_add, List.foldlM_append, hround]
  use (firstDone g arrivals + g.pps) % g.pps,
    (List.range g.pps).map (fun i => (firstDone g arrivals + i) % g.pps)
  cases (reads.rotate (firstDone g arrivals)).foldlM (newGcPage g) x with
  | error e => rfl
  | ok gc => apply turns_ended rfl

/-- What `n` turns have done when the test `late` finds its read not completed: fewer reads have
been handled than tests were made from the first completed read on, and this read is free. -/
structure Polled (g : Geometry) (arrivals : List ℕ) (late n : ℕ) (l : GvArray δ) : Prop where
  gvIdx : l.gvIdx = n % g.pps
  doneCnt : l.doneCnt + (if late < n then 1 else 0) ≤ n - firstDone g arrivals
  freed : firstDone g arrivals < n → firstDone g arrivals % g.pps ∈ l.freed

/-- A turn in the round that begins with the first completed read. -/
theorem Polled.turn {late n : ℕ} {l l' : GvArray δ} (h : Polled g arrivals late n l)
    (hlate : completed g arrivals late ≤ late % g.pps) (hle : firstDone g arrivals ≤ late)
    (hcnt : l.doneCnt ≠ g.pps) (ht : newGcTurn g arrivals reads l n = .ok l') :
  l.gvIdx ∉ l.freed ∧ Polled g arrivals late (n + 1) l'
  := by
  have hdone := h.doneCnt
  rw [newGcTurn, if_neg hcnt] at ht
  split_ifs at ht with hfree hlt
  · use hfree
    cases ht
    rw [h.gvIdx] at hlt
    have hne : n ≠ firstDone g arrivals := by
      rintro rfl
      apply absurd (completed_firstDone g arrivals) (not_lt.mpr hlt)
    constructor
    · simp only [h.gvIdx, slot_succ]
    · simp only
      split_ifs at hdone ⊢ <;> omega
    · intro hn
      apply h.freed
      omega
  · use hfree
    simp only [bind_eq_ok, pure, Except.pure, Except.ok.injEq] at ht
    obtain ⟨r, -, gc, -, rfl⟩ := ht
    rw [h.gvIdx] at hlt
    have hle' : firstDone g arrivals ≤ n := by
      by_contra hn
      apply hlt (not_completed_of_lt_firstDone (not_le.mp hn))
    have hne : late ≠ n := by
      rintro rfl
      apply hlt hlate
    constructor
    · simp only [h.gvIdx, slot_succ]
    · simp only
      split_ifs at hdone ⊢ <;> omega
    · intro _
      simp only [List.mem_append, List.mem_singleton]
      rcases hle'.lt_or_eq with hn | hn
      · left
        apply h.freed hn
      · right
        rw [hn, h.gvIdx]

/-- A read that is late: the loop stops at the latest when it comes back to the first completed
read. -/
theorem turns_of_late {late : ℕ} (hlate : completed g arrivals late ≤ late % g.pps)
    (hle : firstDone g arrivals ≤ late) (hlt : late < firstDone g arrivals + g.pps)
    {x : PageFtl δ × AlignGcBuffer δ} {n : ℕ} {l : GvArray δ}
    (hrun : (List.range n).foldlM (newGcTurn g arrivals reads) ⟨0, 0, [], x⟩ = .ok l) :
  n ≤ firstDone g arrivals + g.pps ∧ Polled g arrivals late n l
  := by
  have hpos := g.pps_pos
  induction n generalizing l with
  | zero =>
      cases hrun
      constructor
      · omega
      · constructor
        · rw [Nat.zero_mod]
        · simp
        · intro hn
          omega
  | succ n ih =>
      rw [List.range_succ, List.foldlM_append, bind_eq_ok] at hrun
      obtain ⟨l', hl', hturn⟩ := hrun
      obtain ⟨hn, hp⟩ := ih hl'
      simp only [List.foldlM_cons, List.foldlM_nil, bind_eq_ok, pure, Except.pure,
        Except.ok.injEq, exists_eq_right] at hturn
      have hdone := hp.doneCnt
      have hcnt : l'.doneCnt ≠ g.pps := by
        split_ifs at hdone <;> omega
      obtain ⟨hfree, hp'⟩ := hp.turn hlate hle hcnt hturn
      constructor
      · by_contra hlast
        obtain rfl : n = firstDone g arrivals + g.pps := by omega
        apply hfree
        rw [hp.gvIdx, Nat.add_mod_right]
        apply hp.freed
        omega
      · apply hp'

/-- The loop ends only where one round is enough. -/
theorem inOnePass_of_turns {x : PageFtl δ × AlignGcBuffer δ} {l : GvArray δ}
    (hrun : (List.range (arrivals.length + g.pps)).foldlM (newGcTurn g arrivals reads)
      ⟨0, 0, [], x⟩ = .ok l) :
  InOnePass g arrivals
  := by
  by_contra hnot
  obtain ⟨i, hi, hlate⟩ : ∃ i < g.pps, completed g arrivals (firstDone g arrivals + i)
      ≤ (firstDone g arrivals + i) % g.pps := by
    simpa [InOnePass] using hnot
  have hn := (turns_of_late hlate (by omega) (by omega) hrun).1
  apply hnot (inOnePass_of_length_le (by omega))

/-! ### The whole collection -/

/-- Reading written pages gives their contents. -/
theorem mapM_flash_of_written {s : PageFtl δ} {v : ℕ → Page δ} {ppas : List ℕ}
    (h : ∀ p ∈ ppas, s.flash p = some (v p)) :
  ppas.mapM (fun p => do return (p, ← orThrow Abort.notPopulated (s.flash p)))
    = .ok (ppas.map (fun p => (p, v p)))
  := by
  induction ppas with
  | nil => rfl
  | cons p l ih =>
      have ih' := ih (fun q hq => h q (List.mem_cons_of_mem _ hq))
      rw [List.mapM_cons, ih', h p List.mem_cons_self]
      rfl

theorem pieces_nodup {ppas : List ℕ} (h : ppas.Nodup) :
  (pieces ppas).Nodup
  := by
  have hn := @slots_nodup Unit (ppas.map (fun p => (p, fun _ => none)))
    (by simpa [Function.comp_def] using h)
  simpa [slots, pieces, List.flatMap_map, List.map_flatMap, Function.comp_def] using hn

/-- When a collection starts, the two tests agree on the whole victim. -/
theorem sameTests_start {s : PageFtl δ} {target : ℕ} {ppas : List ℕ} {left : Page δ}
    (hppas : ∀ p ∈ ppas, p / g.pps = target) (hnodup : ppas.Nodup)
    (hvalid : ∀ q, s.bm.bitset q = true ↔ ∃ lba, s.mapping lba = some q)
    (hoob : ∀ lba q, s.mapping lba = some q → s.bm.oob q = lba)
    (hwritten : ∀ p, p / g.pps = target → s.flash p ≠ none) :
  SameTests g s target (pieces ppas) (s, ⟨[], left⟩)
  := by
  constructor
  · apply hwritten
  · intro q hq
    simp only [pieces, List.mem_flatMap, List.mem_map, List.mem_range] at hq
    obtain ⟨p, hp, i, hi, rfl⟩ := hq
    rw [piece_div p i hi]
    apply hppas p hp
  · apply pieces_nodup hnodup
  · intro q _
    rw [hvalid]
    constructor
    · rintro ⟨lba, hl⟩
      rw [hoob lba q hl]
      apply hl
    · intro hm
      exact ⟨_, hm⟩
  · intro y hy
    cases hy
  · intro q _
    rfl

/-- Handled from the first completed read on, the pages with a valid piece are all of those that
`do_gc` reads. -/
theorem readOrder_roundFrom (bm : BlockManager) (target : ℕ) (arrivals : List ℕ) :
  readOrder ((roundFrom g target arrivals).filter (hasValid bm))
      ((g.pages target).filter (hasValid bm))
    = (roundFrom g target arrivals).filter (hasValid bm)
  := by
  rw [readOrder, if_pos]
  apply List.Perm.filter
  apply List.rotate_perm

/-- The collection succeeds only if every page of the victim has been written and one round is
enough. -/
theorem newDoGc_ok {s s' : PageFtl δ} {target : ℕ} {arrivals : List ℕ}
    (h : newDoGc g s target arrivals = .ok s') :
  (∀ p, p / g.pps = target → s.flash p ≠ none) ∧ InOnePass g arrivals
  := by
  simp only [newDoGc, bind_eq_ok] at h
  obtain ⟨bm, -, reads, hreads, l, hturns, -⟩ := h
  obtain ⟨hfst, hflash⟩ := mapM_flash hreads
  constructor
  · intro p hp hnone
    have hmem : p ∈ reads.map Prod.fst := by
      rw [hfst]
      apply (g.mem_pages target p).mpr hp
    obtain ⟨r, hr, rfl⟩ := List.mem_map.mp hmem
    have := hflash r hr
    rw [hnone] at this
    cases this
  · apply inOnePass_of_turns hturns

/-- Where every page of the victim has been written and one round is enough, the two collections
that handle their reads in the same order are the same. -/
theorem newDoGc_eq {s : PageFtl δ} {target : ℕ} {arrivals : List ℕ}
    (hvalid : ∀ q, s.bm.bitset q = true ↔ ∃ lba, s.mapping lba = some q)
    (hoob : ∀ lba q, s.mapping lba = some q → s.bm.oob q = lba)
    (hwritten : ∀ p, p / g.pps = target → s.flash p ≠ none) (hpass : InOnePass g arrivals) :
  newDoGc g s target arrivals
    = doGc g s target ((roundFrom g target arrivals).filter (hasValid s.bm))
  := by
  unfold newDoGc doGc
  apply bind_congr_ok
  intro bm htake
  have k := getGcTarget_ok htake
  have hbits : hasValid s.bm = hasValid bm := by
    unfold hasValid
    rw [k.bitset]
  have horder : readOrder ((roundFrom g target arrivals).filter (hasValid s.bm))
      (readPages g { s with bm := bm } target)
      = (roundFrom g target arrivals).filter (hasValid bm) := by
    rw [hbits]
    apply readOrder_roundFrom
  let v : ℕ → Page δ := fun p => (s.flash p).getD (fun _ => none)
  have hflash : ∀ p, p / g.pps = target → s.flash p = some (v p) := by
    intro p hp
    obtain ⟨w, hw⟩ := Option.ne_none_iff_exists'.mp (hwritten p hp)
    simp only [v, hw, Option.getD_some]
  have hround : ∀ p ∈ roundFrom g target arrivals, p / g.pps = target := by
    intro p hp
    rw [← g.mem_pages]
    apply List.mem_rotate.mp hp
  have hnew := mapM_flash_of_written (s := { s with bm := bm })
    (fun p hp => hflash p ((g.mem_pages target p).mp hp))
  have hold := mapM_flash_of_written (s := { s with bm := bm })
    (fun p hp => hflash p (hround p (List.mem_of_mem_filter (p := hasValid bm) hp)))
  obtain ⟨idx, freed, hturns⟩ := @turns_eq_of_inOnePass _ g _
    ((g.pages target).map (fun p => (p, v p))) hpass
    (by rw [List.length_map, length_pages]) ({ s with bm := bm }, ⟨[], fun _ => none⟩)
  have hstart := @sameTests_start _ g { s with bm := bm } target _ (fun _ => none) hround
    (List.nodup_rotate.mpr (pages_nodup g target))
    (fun q => by rw [k.bitset]; apply hvalid) (fun lba q hq => by rw [k.oob]; apply hoob lba q hq)
    hwritten
  have hloop := @SameTests.reads _ g _ target
    ((roundFrom g target arrivals).map (fun p => (p, v p))) _
    (by simpa [Function.comp_def] using hstart) (by simp [l2pgap])
  have hfilter : ((roundFrom g target arrivals).map (fun p => (p, v p))).filter
        (fun r => hasValid bm r.1)
      = ((roundFrom g target arrivals).filter (hasValid bm)).map (fun p => (p, v p)) := by
    rw [List.filter_map]
    rfl
  rw [hfilter, roundFrom, List.map_rotate] at hloop
  rw [hloop] at hturns
  simp only at hnew hold hturns ⊢
  rw [horder, hnew, hold]
  simp only [bind, Except.bind, roundFrom] at hturns ⊢
  rw [hturns]
  cases (List.map (fun p => (p, v p)) (List.filter (hasValid bm)
    ((g.pages target).rotate (firstDone g arrivals)))).foldlM
      (fun x r => (List.range l2pgap).foldlM (PageFtl.gcPiece g r.1 r.2) x)
      ({ s with bm := bm }, ⟨[], fun _ => none⟩) with
  | error e => rfl
  | ok x => rfl

/-- In a state whose valid pieces are those of the mapping, each with its lba in the out-of-band
area, the collection of a victim ends as the other one does, with the same mapping, bits,
out-of-band area and flash content or the same abort, when every page of the victim has been
written and one round is enough; otherwise it does not end. -/
theorem newDoGc_eq_doGc (g : Geometry) (s : PageFtl δ) (target : ℕ) (arrivals : List ℕ)
    (hvalid : ∀ q, s.bm.bitset q = true ↔ ∃ lba, s.mapping lba = some q)
    (hoob : ∀ lba q, s.mapping lba = some q → s.bm.oob q = lba) :
  ((∀ p, p / g.pps = target → s.flash p ≠ none) ∧ InOnePass g arrivals →
    newDoGc g s target arrivals
      = doGc g s target ((roundFrom g target arrivals).filter (hasValid s.bm))) ∧
  (∀ s', newDoGc g s target arrivals = .ok s' →
    (∀ p, p / g.pps = target → s.flash p ≠ none) ∧ InOnePass g arrivals)
  := by
  constructor
  · rintro ⟨hwritten, hpass⟩
    apply newDoGc_eq hvalid hoob hwritten hpass
  · intro s' h
    apply newDoGc_ok h

/-! ### Reads in time and late reads -/

/-- Both reads have completed when they are tested: the lbas `4` to `7` go to the reserve. -/
theorem newDoGc_eq_doGc_inTime :
  ∃ s₀ s, create twoPageGeometry = .ok s₀ ∧
    run (PageFtl.step twoPageGeometry) s₀ fillDevice = .ok s ∧
    newDoGc twoPageGeometry s 1 [1, 2]
      = doGc twoPageGeometry s 1 ((roundFrom twoPageGeometry 1 [1, 2]).filter (hasValid s.bm)) ∧
    (newDoGc twoPageGeometry s 1 [1, 2]).toOption.map (fun t => t.mapping 4) = some (some 0)
  := by
  obtain ⟨s₀, h₀⟩ : ∃ s₀, create (δ := ℕ) twoPageGeometry = .ok s₀ := ⟨_, rfl⟩
  obtain ⟨s, h⟩ : ∃ s, run (PageFtl.step twoPageGeometry) s₀ fillDevice = .ok s := by
    cases h₀
    exact ⟨_, rfl⟩
  have hm := mapped_run h₀ h
  use s₀, s, h₀, h
  constructor
  · apply (newDoGc_eq_doGc twoPageGeometry s 1 [1, 2] hm.valid_iff
      (fun lba q hq => (hm.consistent.mapped lba q hq).2.1)).1
    constructor
    · intro p hp
      have hpages : p = 2 ∨ p = 3 := by
        simp only [twoPageGeometry, Geometry.pps] at hp
        omega
      cases h₀
      cases h
      rcases hpages with rfl | rfl
      · decide
      · decide
    · unfold InOnePass
      decide
  · cases h₀
    cases h
    decide

/-- The second read has not completed when it is tested: the first one, which has been handled and
freed, is tested again, while `do_gc` waits for the second one. -/
theorem newDoGc_late :
  ¬ ∀ (g : Geometry) (s : PageFtl ℕ) (target : ℕ) (arrivals : List ℕ),
    arrivals.Pairwise (· ≤ ·) →
    (∀ q, s.bm.bitset q = true ↔ ∃ lba, s.mapping lba = some q) →
    (∀ lba q, s.mapping lba = some q → s.bm.oob q = lba) →
    newDoGc g s target arrivals = doGc g s target (readPages g s target)
  := by
  intro hall
  obtain ⟨s₀, h₀⟩ : ∃ s₀, create (δ := ℕ) twoPageGeometry = .ok s₀ := ⟨_, rfl⟩
  obtain ⟨s, h⟩ : ∃ s, run (PageFtl.step twoPageGeometry) s₀ fillDevice = .ok s := by
    cases h₀
    exact ⟨_, rfl⟩
  have hm := mapped_run h₀ h
  have heq := hall twoPageGeometry s 1 [1, 1] (by decide) hm.valid_iff
    (fun lba q hq => (hm.consistent.mapped lba q hq).2.1)
  have hok := congrArg (fun r => r.toOption.isSome) heq
  revert hok
  cases h₀
  cases h
  decide

end PageFtl

end AppL
