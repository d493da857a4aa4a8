import Mathlib.Data.List.Nodup
import AppL.PageFtl.Basic

/-!
# The mapping invariant of the page-mapping FTL

The mapping designates valid pieces that carry the lba in the out-of-band area and the data
last flushed for it, and every valid piece is designated.  The invariant is carried through
the writing of one page, which is what both a flush of the align buffer and a write of
garbage collection do, and through a whole garbage collection.
-/

namespace AppL

open Transition

/-! ### Positions -/

theorem piece_div (p i : ℕ) (hi : i < l2pgap) :
  (p * l2pgap + i) / l2pgap = p
  := by
  unfold l2pgap at *
  omega

theorem piece_mod (p i : ℕ) (hi : i < l2pgap) :
  (p * l2pgap + i) % l2pgap = i
  := by
  unfold l2pgap at *
  omega

theorem piece_eq (q : ℕ) :
  q / l2pgap * l2pgap + q % l2pgap = q
  := by
  unfold l2pgap
  omega

theorem piece_mod_lt (q : ℕ) :
  q % l2pgap < l2pgap
  := Nat.mod_lt q (by decide)

theorem Geometry.page_div (g : Geometry) (t u : ℕ) (hu : u < g.pps) :
  (t * g.pps + u) / g.pps = t
  := by
  rw [Nat.add_comm, Nat.add_mul_div_right _ _ g.pps_pos, Nat.div_eq_of_lt hu, Nat.zero_add]

theorem Geometry.page_mod (g : Geometry) (t u : ℕ) (hu : u < g.pps) :
  (t * g.pps + u) % g.pps = u
  := by
  rw [Nat.mul_add_mod_self_right, Nat.mod_eq_of_lt hu]

namespace BlockManager

variable {g : Geometry} {bm bm' bm'' : BlockManager}

/-- The number of pages of a segment that have been assigned. -/
def used (bm : BlockManager) (t : ℕ) : ℕ := (bm.segment t).usedPageNum

/-- `bm'` differs from `bm` in bits, out-of-band entries and piece counters only. -/
structure Keeps (g : Geometry) (bm bm' : BlockManager) : Prop where
  queue : bm'.freeSegmentQ = bm.freeSegmentQ
  heap : bm'.maxHeap = bm.maxHeap
  filled : ∀ t u, Filled g bm t u → Filled g bm' t u

theorem Keeps.refl (bm : BlockManager) :
  Keeps g bm bm
  := ⟨rfl, rfl, fun _ _ h => h⟩

theorem Keeps.trans (h : Keeps g bm bm') (h' : Keeps g bm' bm'') :
  Keeps g bm bm''
  := ⟨h'.queue.trans h.queue, h'.heap.trans h.heap, fun t u hf => h'.filled t u (h.filled t u hf)⟩

theorem keeps_bitSet (bm : BlockManager) (q : ℕ) :
  Keeps g bm (bm.bitSet g q).2
  := ⟨rfl, rfl, fun _ _ h => h.bitSet q⟩

theorem keeps_bitUnset (bm : BlockManager) (q : ℕ) :
  Keeps g bm (bm.bitUnset g q).2
  := ⟨rfl, rfl, fun _ _ h => h.bitUnset q⟩

theorem keeps_setOob (bm : BlockManager) (lbas : List ℕ) (ppa : ℕ) :
  Keeps g bm (bm.setOob lbas ppa)
  := ⟨rfl, rfl, fun _ _ h => h.congr rfl rfl (fun _ _ => rfl)⟩

/-- Every segment has its pages assigned one after another. -/
def AllFilled (g : Geometry) (bm : BlockManager) : Prop := ∀ t, Filled g bm t (bm.used t)

theorem Keeps.used_eq (h : Keeps g bm bm') (hf : AllFilled g bm) (t : ℕ) :
  bm'.used t = bm.used t
  := (h.filled t _ (hf t)).used

theorem Keeps.allFilled (h : Keeps g bm bm') (hf : AllFilled g bm) :
  AllFilled g bm'
  := by
  intro t
  rw [h.used_eq hf t]
  apply h.filled t _ (hf t)

theorem used_assignPage (bm : BlockManager) (s u t : ℕ) :
  (bm.assignPage g s u).used t = if t = s then u + 1 else bm.used t
  := by
  simp only [used, assignPage, Function.update_apply]
  split
  · rfl
  · rfl

theorem AllFilled.assignPage (hf : AllFilled g bm) {s : ℕ} (hu : bm.used s < g.pps) :
  AllFilled g (bm.assignPage g s (bm.used s))
  := by
  intro t
  rw [used_assignPage]
  by_cases ht : t = s
  · subst ht
    rw [if_pos rfl]
    apply (hf t).assignPage hu
  · rw [if_neg ht]
    apply (hf t).assignPage_of_ne ht hu

/-- `sbm_get_page_addr` under the invariant: nothing when the segment is full, else the next
page. -/
theorem AllFilled.getPageAddr (hf : AllFilled g bm) (s : ℕ) :
  bm.getPageAddr g s = if bm.used s = g.pps then .ok (none, bm)
    else .ok (some (s * g.pps + bm.used s), bm.assignPage g s (bm.used s))
  := by
  by_cases hu : bm.used s = g.pps
  · rw [if_pos hu]
    apply Filled.getPageAddr_full
    rw [← hu]
    apply hf s
  · rw [if_neg hu]
    apply (hf s).getPageAddr_next
    have := (hf s).le
    omega

end BlockManager

namespace PageFtl

variable {δ : Type} {g : Geometry}

/-! ### Mapping updates -/

theorem foldl_mapPiece_of_notMem (m : ℕ → Option ℕ) (ppa k : ℕ) (lbas : List ℕ) (lba : ℕ)
    (h : lba ∉ lbas) :
  (lbas.zipIdx k).foldl (mapPiece ppa) m lba = m lba
  := by
  induction lbas generalizing m k with
  | nil => rfl
  | cons a l ih =>
      rw [List.mem_cons, not_or] at h
      rw [List.zipIdx_cons, List.foldl_cons, ih _ _ h.2, mapPiece, Function.update_of_ne h.1]

theorem foldl_mapPiece_of_getElem (m : ℕ → Option ℕ) (ppa k : ℕ) (lbas : List ℕ) (hn : lbas.Nodup)
    (i : ℕ) (lba : ℕ) (h : lbas[i]? = some lba) :
  (lbas.zipIdx k).foldl (mapPiece ppa) m lba = some (ppa * l2pgap + (k + i))
  := by
  induction lbas generalizing m k i with
  | nil => simp at h
  | cons a l ih =>
      rw [List.nodup_cons] at hn
      rw [List.zipIdx_cons, List.foldl_cons]
      cases i with
      | zero =>
          simp only [List.getElem?_cons_zero, Option.some.injEq] at h
          subst h
          rw [foldl_mapPiece_of_notMem _ _ _ _ _ hn.1]
          simp [mapPiece]
      | succ i =>
          rw [List.getElem?_cons_succ] at h
          rw [ih _ _ hn.2 i h]
          congr 2
          omega

theorem setMapping_of_notMem (m : ℕ → Option ℕ) (ppa : ℕ) {lbas : List ℕ} {lba : ℕ}
    (h : lba ∉ lbas) :
  setMapping m ppa lbas lba = m lba
  := foldl_mapPiece_of_notMem m ppa 0 lbas lba h

theorem setMapping_of_getElem (m : ℕ → Option ℕ) (ppa : ℕ) {lbas : List ℕ} (hn : lbas.Nodup)
    {i lba : ℕ} (h : lbas[i]? = some lba) :
  setMapping m ppa lbas lba = some (ppa * l2pgap + i)
  := by
  have := foldl_mapPiece_of_getElem m ppa 0 lbas hn i lba h
  rwa [Nat.zero_add] at this

/-! ### The invariant -/

/-- The mapping, the validity bits, the out-of-band area and the flash content agree, with
`f lba` the data last flushed for `lba`; the valid pieces that satisfy `ok` are all mapped. -/
structure Consistent (g : Geometry) (f : ℕ → Option δ) (ok : ℕ → Prop) (s : PageFtl δ) :
    Prop where
  clear : ∀ q, s.bm.used (q / l2pgap / g.pps) ≤ q / l2pgap % g.pps → s.bm.bitset q = false
  erased : ∀ p, s.bm.used (p / g.pps) ≤ p % g.pps → s.flash p = none
  mapped : ∀ lba q, s.mapping lba = some q → s.bm.bitset q = true ∧ s.bm.oob q = lba ∧
    ∃ v, s.flash (q / l2pgap) = some v ∧ v (q % l2pgap) = f lba ∧ (f lba).isSome
  valid : ∀ q, s.bm.bitset q = true → ok q → s.mapping (s.bm.oob q) = some q
  unmapped : ∀ lba, s.mapping lba = none → f lba = none

/-- `s'` is `s` with page `res` written: its first pieces are mapped from `lbas`, valid and
labelled, its content is `v`, and the pieces in `cleared` are no longer valid. -/
structure PageWritten (g : Geometry) (s s' : PageFtl δ) (res : ℕ) (lbas : List ℕ)
    (v : Page δ) (cleared : ℕ → Prop) : Prop where
  mapping : s'.mapping = setMapping s.mapping res lbas
  bitset : ∀ q, s'.bm.bitset q = true ↔
    (q / l2pgap = res ∧ q % l2pgap < lbas.length) ∨ (s.bm.bitset q = true ∧ ¬ cleared q)
  oob : ∀ q, s'.bm.oob q =
    if q / l2pgap = res then (lbas[q % l2pgap]?).getD (s.bm.oob q) else s.bm.oob q
  flash : s'.flash = Function.update s.flash res (some v)
  used : ∀ t, s'.bm.used t = if t = res / g.pps then s.bm.used t + 1 else s.bm.used t

/-- Writing the next page of a segment keeps the mapping, the bits, the out-of-band area and
the flash content in agreement. -/
theorem Consistent.pageWritten {f f' : ℕ → Option δ} {ok : ℕ → Prop} {s s' : PageFtl δ}
    {res : ℕ} {lbas : List ℕ} {v : Page δ} {cleared : ℕ → Prop}
    (h : Consistent g f ok s) (w : PageWritten g s s' res lbas v cleared)
    (hfresh : s.bm.used (res / g.pps) = res % g.pps)
    (hnodup : lbas.Nodup) (hlen : lbas.length ≤ l2pgap)
    (hv : ∀ i lba, lbas[i]? = some lba → v i = f' lba ∧ (f' lba).isSome)
    (hf : ∀ lba, lba ∉ lbas → f' lba = f lba)
    (hcleared : ∀ q, cleared q → ∃ lba ∈ lbas, s.mapping lba = some q)
    (hold : ∀ lba ∈ lbas, ∀ q, s.mapping lba = some q → cleared q ∨ ¬ ok q) :
  Consistent g f' ok s'
  := by
  have hnew : ∀ q, s.bm.bitset q = true → q / l2pgap ≠ res := by
    intro q hq hres
    have := h.clear q (by rw [hres, hfresh])
    rw [this] at hq
    contradiction
  constructor
  · intro q hq
    rw [Bool.eq_false_iff, Ne, w.bitset]
    rw [w.used] at hq
    rintro (⟨hres, -⟩ | ⟨hb, -⟩)
    · rw [hres, if_pos rfl, hfresh] at hq
      omega
    · have hle : s.bm.used (q / l2pgap / g.pps) ≤ q / l2pgap % g.pps := by
        split at hq
        · omega
        · apply hq
      rw [h.clear q hle] at hb
      contradiction
  · intro p hp
    rw [w.used] at hp
    have hne : p ≠ res := by
      rintro rfl
      rw [if_pos rfl, hfresh] at hp
      omega
    rw [w.flash, Function.update_of_ne hne]
    apply h.erased
    split at hp
    · omega
    · apply hp
  · intro lba q hq
    rw [w.mapping] at hq
    by_cases hm : lba ∈ lbas
    · obtain ⟨i, hi⟩ := List.mem_iff_getElem?.mp hm
      rw [setMapping_of_getElem _ _ hnodup hi, Option.some.injEq] at hq
      subst hq
      have hilt : i < lbas.length := (List.getElem?_eq_some_iff.mp hi).1
      have hi4 : i < l2pgap := by omega
      refine ⟨?_, ?_, v, ?_, ?_, (hv i lba hi).2⟩
      · rw [w.bitset]
        left
        rw [piece_div _ _ hi4, piece_mod _ _ hi4]
        use rfl, hilt
      · rw [w.oob, piece_div _ _ hi4, piece_mod _ _ hi4, if_pos rfl, hi]
        rfl
      · rw [w.flash, piece_div _ _ hi4, Function.update_self]
      · rw [piece_mod _ _ hi4]
        apply (hv i lba hi).1
    · rw [setMapping_of_notMem _ _ hm] at hq
      obtain ⟨hb, ho, v', hfl, hd, hs⟩ := h.mapped lba q hq
      have hne := hnew q hb
      refine ⟨?_, ?_, v', ?_, ?_, ?_⟩
      · rw [w.bitset]
        right
        constructor
        · apply hb
        · intro hc
          obtain ⟨lba', hm', hq'⟩ := hcleared q hc
          have ho' := (h.mapped lba' q hq').2.1
          rw [ho] at ho'
          subst ho'
          contradiction
      · rw [w.oob, if_neg hne]
        apply ho
      · rw [w.flash, Function.update_of_ne hne]
        apply hfl
      · rw [hf lba hm]
        apply hd
      · rw [hf lba hm]
        apply hs
  · intro q hq hok
    rw [w.mapping, w.oob]
    rw [w.bitset] at hq
    rcases hq with ⟨hres, hlt⟩ | ⟨hb, hc⟩
    · have hget : lbas[q % l2pgap]? = some lbas[q % l2pgap] := List.getElem?_eq_getElem hlt
      rw [if_pos hres, hget, Option.getD_some, setMapping_of_getElem _ _ hnodup hget, ← hres,
        piece_eq]
    · rw [if_neg (hnew q hb)]
      have hq := h.valid q hb hok
      have hm : s.bm.oob q ∉ lbas := by
        intro hm
        rcases hold _ hm q hq with hc' | hnok
        · apply hc hc'
        · apply hnok hok
      rw [setMapping_of_notMem _ _ hm, hq]
  · intro lba hl
    rw [w.mapping] at hl
    by_cases hm : lba ∈ lbas
    · obtain ⟨i, hi⟩ := List.mem_iff_getElem?.mp hm
      rw [setMapping_of_getElem _ _ hnodup hi] at hl
      contradiction
    · rw [setMapping_of_notMem _ _ hm] at hl
      rw [hf lba hm]
      apply h.unmapped lba hl

/-! ### Writing a page -/

/-- `s'` differs from `s` in the mapping, the flash content, and the bits, labels and page
counters of the block manager only. -/
structure SameShell (s s' : PageFtl δ) : Prop where
  reserve : s'.reserve = s.reserve
  active : s'.active = s.active
  aBuffer : s'.aBuffer = s.aBuffer
  rb : s'.rb = s.rb
  queue : s'.bm.freeSegmentQ = s.bm.freeSegmentQ
  heap : s'.bm.maxHeap = s.bm.maxHeap

theorem SameShell.refl (s : PageFtl δ) :
  SameShell s s
  := ⟨rfl, rfl, rfl, rfl, rfl, rfl⟩

theorem SameShell.trans {s s' s'' : PageFtl δ} (h : SameShell s s') (h' : SameShell s' s'') :
  SameShell s s''
  := ⟨h'.reserve.trans h.reserve, h'.active.trans h.active, h'.aBuffer.trans h.aBuffer,
    h'.rb.trans h.rb, h'.queue.trans h.queue, h'.heap.trans h.heap⟩

/-- Setting the bits of the first `n` pieces of a page sets these bits and no others. -/
theorem foldl_bitSet (bm : BlockManager) (ppa n : ℕ) (hn : n ≤ l2pgap) :
  let bm' := (List.range n).foldl (fun bm i => (bm.bitSet g (ppa * l2pgap + i)).2) bm
  BlockManager.Keeps g bm bm' ∧ bm'.oob = bm.oob ∧
    ∀ q, bm'.bitset q = true ↔ (q / l2pgap = ppa ∧ q % l2pgap < n) ∨ bm.bitset q = true
  := by
  induction n with
  | zero =>
      refine ⟨BlockManager.Keeps.refl bm, rfl, ?_⟩
      simp
  | succ n ih =>
      obtain ⟨hk, ho, hb⟩ := ih (by omega)
      rw [List.range_succ, List.foldl_append]
      use hk.trans (BlockManager.keeps_bitSet _ _), ho
      intro q
      simp only [List.foldl_cons, List.foldl_nil, BlockManager.bitSet_bitset,
        Function.update_apply]
      split
      · rename_i hq
        subst hq
        simp [piece_div ppa n (by omega), piece_mod ppa n (by omega)]
      · rename_i hq
        rw [hb q]
        have hsplit : q % l2pgap < n + 1 ∧ q / l2pgap = ppa ↔ q % l2pgap < n ∧ q / l2pgap = ppa := by
          have hpq := piece_eq q
          constructor
          · rintro ⟨hlt, hdiv⟩
            rw [hdiv] at hpq
            refine ⟨?_, hdiv⟩
            by_contra hge
            apply hq
            rw [← hpq]
            omega
          · rintro ⟨hlt, hdiv⟩
            use by omega, hdiv
        tauto

/-- Writing the gc buffer takes the next page of the reserve segment. -/
theorem gcWrite_ok {s s' : PageFtl δ} {b b' : AlignGcBuffer δ}
    (hf : s.bm.AllFilled g) (hlen : b.items.length ≤ l2pgap)
    (h : gcWrite g s b = .ok (s', b')) :
  s.bm.used s.reserve < g.pps ∧ s'.bm.AllFilled g ∧ SameShell s s' ∧ b'.items = [] ∧
    PageWritten g s s' (s.reserve * g.pps + s.bm.used s.reserve) (b.items.map Prod.fst)
      b.value (fun _ => False)
  := by
  simp only [gcWrite, pageMapGcUpdate, hf.getPageAddr] at h
  by_cases hu : s.bm.used s.reserve = g.pps
  · simp [hu, orThrow, bind, Except.bind] at h
  · have hlt : s.bm.used s.reserve < g.pps := by
      have := (hf s.reserve).le
      omega
    simp only [if_neg hu, orThrow_eq_ok, bind_eq_ok, pure, Except.pure, Except.ok.injEq,
      Prod.exists, Prod.mk.injEq, program, require_eq_ok] at h
    obtain ⟨res, s₁, ⟨_, _, ⟨rfl, rfl⟩, _, ⟨⟩, rfl, rfl⟩, _, ⟨_, herased, rfl⟩, rfl, rfl⟩ := h
    have hval := foldl_bitSet (g := g) (s.bm.assignPage g s.reserve (s.bm.used s.reserve))
      (s.reserve * g.pps + s.bm.used s.reserve) (b.items.map Prod.fst).length (by simpa using hlen)
    obtain ⟨hk, ho, hb⟩ := hval
    have hk' := hk.trans (BlockManager.keeps_setOob _ (b.items.map Prod.fst)
      (s.reserve * g.pps + s.bm.used s.reserve))
    refine ⟨hlt, hk'.allFilled (hf.assignPage hlt), ⟨rfl, rfl, rfl, rfl, hk.queue, hk.heap⟩, rfl, ?_⟩
    constructor
    · rfl
    · intro q
      simp only [not_false_eq_true, and_true]
      apply hb q
    · intro q
      simp only [validatePpa, BlockManager.setOob, ho]
      rfl
    · rfl
    · intro t
      have := hk'.used_eq (hf.assignPage hlt) t
      rw [BlockManager.used_assignPage] at this
      rw [g.page_div _ _ hlt]
      refine this.trans ?_
      split
      · rename_i ht
        rw [ht]
      · rfl

end PageFtl

end AppL
