import AppL.PageFtl.Invariant

/-!
# Garbage collection of the page-mapping FTL

While a victim is collected, every lba mapped into it waits in the gc buffer or among the
pieces still to be looked at, and the pages written go one after another to the reserve
segment.  At the end no lba is mapped into the victim, so that erasing it keeps the mapping
invariant.
-/

namespace AppL

open Transition

namespace PageFtl

variable {δ : Type} {g : Geometry}

/-! ### Pieces still to be collected -/

/-- The slots of the pages that garbage collection has read, with their data. -/
def slots (reads : List (ℕ × Page δ)) : List (ℕ × Option δ) :=
  reads.flatMap (fun r => (List.range l2pgap).map (fun i => (r.1 * l2pgap + i, r.2 i)))

/-- The lbas and data of the valid ones among some slots. -/
def pend (s : PageFtl δ) (R : List (ℕ × Option δ)) : List (ℕ × Option δ) :=
  (R.filter (fun r => s.bm.bitset r.1)).map (fun r => (s.bm.oob r.1, r.2))

theorem pend_cons_of_valid {s : PageFtl δ} {r : ℕ × Option δ} (R : List (ℕ × Option δ))
    (h : s.bm.bitset r.1 = true) :
  pend s (r :: R) = (s.bm.oob r.1, r.2) :: pend s R
  := by
  simp [pend, h]

theorem pend_cons_of_invalid {s : PageFtl δ} {r : ℕ × Option δ} (R : List (ℕ × Option δ))
    (h : s.bm.bitset r.1 = false) :
  pend s (r :: R) = pend s R
  := by
  simp [pend, h]

theorem pend_congr {s s' : PageFtl δ} {R : List (ℕ × Option δ)}
    (hb : ∀ r ∈ R, s'.bm.bitset r.1 = s.bm.bitset r.1)
    (ho : ∀ r ∈ R, s'.bm.oob r.1 = s.bm.oob r.1) :
  pend s' R = pend s R
  := by
  induction R with
  | nil => rfl
  | cons r R ih =>
      have ih' := ih (fun x hx => hb x (List.mem_cons_of_mem r hx))
        (fun x hx => ho x (List.mem_cons_of_mem r hx))
      have hbr := hb r List.mem_cons_self
      have hor := ho r List.mem_cons_self
      cases hv : s.bm.bitset r.1 with
      | true =>
          rw [pend_cons_of_valid R hv, pend_cons_of_valid R (hbr.trans hv), ih', hor]
      | false =>
          rw [pend_cons_of_invalid R hv, pend_cons_of_invalid R (hbr.trans hv), ih']

/-! ### The invariant of the collection -/

/-- What garbage collection of `target` has not changed since it started in `s₀`. -/
structure GcFrame (g : Geometry) (s₀ s : PageFtl δ) : Prop where
  shell : SameShell s₀ s
  used : ∀ t, t ≠ s₀.reserve → s.bm.used t = s₀.bm.used t
  flash : ∀ p, s.flash p ≠ s₀.flash p →
    p / g.pps = s₀.reserve ∧ p % g.pps < s.bm.used s₀.reserve

/-- The state of a collection of `target` with the slots `R` still to be looked at; `V` is
the number of valid pieces it started with. -/
structure Collecting (g : Geometry) (f : ℕ → Option δ) (s₀ : PageFtl δ) (target V : ℕ)
    (R : List (ℕ × Option δ)) (x : PageFtl δ × AlignGcBuffer δ) : Prop where
  frame : GcFrame g s₀ x.1
  filled : x.1.bm.AllFilled g
  reserve_ne : s₀.reserve ≠ target
  consistent : Consistent g f (fun q => q / l2pgap / g.pps ≠ target) x.1
  pending : ∀ y ∈ x.2.items ++ pend x.1 R,
    y.2 = f y.1 ∧ ∃ q, q / l2pgap / g.pps = target ∧ x.1.mapping y.1 = some q
  nodup : ((x.2.items ++ pend x.1 R).map Prod.fst).Nodup
  complete : ∀ lba q, x.1.mapping lba = some q → q / l2pgap / g.pps = target →
    lba ∈ (x.2.items ++ pend x.1 R).map Prod.fst
  slots : ∀ r ∈ R, r.1 / l2pgap / g.pps = target
  count : l2pgap * x.1.bm.used s₀.reserve + (x.2.items ++ pend x.1 R).length = V

namespace Collecting

section Written

variable {f : ℕ → Option δ} {s₀ s s' : PageFtl δ} {target V : ℕ} {R : List (ℕ × Option δ)}
  {b : AlignGcBuffer δ}

/-- The slots of the victim are not in the page that is written. -/
theorem pend_written (h : Collecting g f s₀ target V R (s, b))
    (hpage : PageWritten g s s' (s₀.reserve * g.pps + s.bm.used s₀.reserve)
      (b.items.map Prod.fst) b.value (fun _ => False))
    (hlt : s.bm.used s₀.reserve < g.pps) :
  pend s' R = pend s R
  := by
  have hne : ∀ r ∈ R, r.1 / l2pgap ≠ s₀.reserve * g.pps + s.bm.used s₀.reserve := by
    intro r hr heq
    have hslot := h.slots r hr
    rw [heq, g.page_div _ _ hlt] at hslot
    apply h.reserve_ne hslot
  apply pend_congr
  · intro r hr
    rw [Bool.eq_iff_iff, hpage.bitset]
    simp [hne r hr]
  · intro r hr
    rw [hpage.oob, if_neg (hne r hr)]

/-- The page is written into the reserve segment. -/
theorem frame_written (h : Collecting g f s₀ target V R (s, b))
    (hpage : PageWritten g s s' (s₀.reserve * g.pps + s.bm.used s₀.reserve)
      (b.items.map Prod.fst) b.value (fun _ => False))
    (hlt : s.bm.used s₀.reserve < g.pps) (hshell : SameShell s s') :
  GcFrame g s₀ s'
  := by
  have hused := hpage.used
  rw [g.page_div _ _ hlt] at hused
  constructor
  · apply h.frame.shell.trans hshell
  · intro t ht
    rw [hused t, if_neg ht]
    apply h.frame.used t ht
  · intro p hp
    rw [hused, if_pos rfl]
    rw [hpage.flash] at hp
    by_cases hpr : p = s₀.reserve * g.pps + s.bm.used s₀.reserve
    · subst hpr
      rw [g.page_div _ _ hlt, g.page_mod _ _ hlt]
      use rfl
      apply Nat.lt_succ_self
    · rw [Function.update_of_ne hpr] at hp
      obtain ⟨hseg, hbelow⟩ := h.frame.flash p hp
      use hseg
      apply Nat.lt_succ_of_lt hbelow

/-- The lbas of the gc buffer get the piece of the page, all others keep theirs. -/
theorem consistent_written (h : Collecting g f s₀ target V R (s, b))
    (hpage : PageWritten g s s' (s₀.reserve * g.pps + s.bm.used s₀.reserve)
      (b.items.map Prod.fst) b.value (fun _ => False))
    (hlt : s.bm.used s₀.reserve < g.pps) (hlen : b.items.length ≤ l2pgap)
    (hnodup : (b.items.map Prod.fst).Nodup) :
  Consistent g f (fun q => q / l2pgap / g.pps ≠ target) s'
  := by
  apply h.consistent.pageWritten hpage
  · simp only
    rw [g.page_div _ _ hlt, g.page_mod _ _ hlt]
  · apply hnodup
  · simpa using hlen
  · intro i lba hi
    rw [List.getElem?_map, Option.map_eq_some_iff] at hi
    obtain ⟨y, hy, rfl⟩ := hi
    have hmem : y ∈ b.items := List.mem_of_getElem? hy
    obtain ⟨hdata, q, -, hq⟩ := h.pending y (List.mem_append_left _ hmem)
    obtain ⟨-, -, -, -, -, hsome⟩ := h.consistent.mapped _ _ hq
    refine ⟨?_, hsome⟩
    rw [AlignGcBuffer.value, hy]
    apply hdata
  · intro lba _
    rfl
  · intro q hq
    contradiction
  · intro lba hm q hq
    right
    obtain ⟨y, hy, rfl⟩ := List.mem_map.mp hm
    obtain ⟨q', hq', hmapped⟩ := (h.pending y (List.mem_append_left _ hy)).2
    simp only at hq
    rw [hq, Option.some.injEq] at hmapped
    subst hmapped
    simpa using hq'

/-- An lba of the gc buffer is mapped out of the victim. -/
theorem moved_written (h : Collecting g f s₀ target V R (s, b))
    (hpage : PageWritten g s s' (s₀.reserve * g.pps + s.bm.used s₀.reserve)
      (b.items.map Prod.fst) b.value (fun _ => False))
    (hlt : s.bm.used s₀.reserve < g.pps) (hlen : b.items.length ≤ l2pgap)
    (hnodup : (b.items.map Prod.fst).Nodup) {lba q : ℕ} (hq : s'.mapping lba = some q)
    (hm : lba ∈ b.items.map Prod.fst) :
  q / l2pgap / g.pps ≠ target
  := by
  obtain ⟨i, hi⟩ := List.mem_iff_getElem?.mp hm
  have hi4 : i < l2pgap := by
    have := (List.getElem?_eq_some_iff.mp hi).1
    rw [List.length_map] at this
    omega
  rw [hpage.mapping, setMapping_of_getElem _ _ hnodup hi, Option.some.injEq] at hq
  subst hq
  rw [piece_div _ _ hi4, g.page_div _ _ hlt]
  apply h.reserve_ne

end Written

/-- Writing the gc buffer moves its lbas out of the victim. -/
theorem gcWrite {f : ℕ → Option δ} {s₀ : PageFtl δ} {target V : ℕ}
    {R : List (ℕ × Option δ)} {s s' : PageFtl δ} {b b' : AlignGcBuffer δ}
    (h : Collecting g f s₀ target V R (s, b)) (hlen : b.items.length ≤ l2pgap)
    (hw : PageFtl.gcWrite g s b = .ok (s', b')) :
  b'.items = [] ∧
    Collecting g f s₀ target (V + l2pgap - b.items.length) R (s', b')
  := by
  obtain ⟨hlt, hfilled, hshell, hitems, hpage⟩ := gcWrite_ok h.filled hlen hw
  have hres : s.reserve = s₀.reserve := h.frame.shell.reserve
  rw [hres] at hpage hlt
  have hnodup := h.nodup
  rw [List.map_append, List.nodup_append'] at hnodup
  obtain ⟨hnItems, hnRest, hdisj⟩ := hnodup
  have hpend := h.pend_written hpage hlt
  have hmapping : ∀ lba ∉ b.items.map Prod.fst, s'.mapping lba = s.mapping lba := by
    intro lba hm
    rw [hpage.mapping, setMapping_of_notMem _ _ hm]
  use hitems
  constructor
  · apply h.frame_written hpage hlt hshell
  · apply hfilled
  · apply h.reserve_ne
  · apply h.consistent_written hpage hlt hlen hnItems
  · rw [hitems, hpend]
    intro y hy
    simp only [List.nil_append] at hy
    obtain ⟨hdata, q, hq, hmq⟩ := h.pending y (List.mem_append_right _ hy)
    use hdata, q, hq
    rw [← hmq]
    apply hmapping
    intro hm
    apply hdisj hm (List.mem_map_of_mem hy)
  · rw [hitems, hpend]
    apply hnRest
  · rw [hitems, hpend]
    intro lba q hq ht
    have hm : lba ∉ b.items.map Prod.fst :=
      fun hm => h.moved_written hpage hlt hlen hnItems hq hm ht
    simp only at hq
    rw [hmapping lba hm] at hq
    have hold := h.complete lba q hq ht
    rw [List.map_append, List.mem_append] at hold
    apply hold.resolve_left hm
  · apply h.slots
  · rw [hitems, hpend]
    have hcount := h.count
    rw [hpage.used, g.page_div _ _ hlt, if_pos rfl, Nat.mul_add]
    simp only [List.length_append, List.nil_append] at hcount ⊢
    omega

end Collecting

/-- Looking at one slot keeps the invariant of the collection. -/
theorem Collecting.gcPiece {f : ℕ → Option δ} {s₀ : PageFtl δ} {target V : ℕ}
    {R : List (ℕ × Option δ)} {ppa i : ℕ} {v : Page δ} {x x' : PageFtl δ × AlignGcBuffer δ}
    (h : Collecting g f s₀ target V ((ppa * l2pgap + i, v i) :: R) x)
    (hlen : x.2.items.length < l2pgap) (hp : PageFtl.gcPiece g ppa v x i = .ok x') :
  x'.2.items.length < l2pgap ∧ Collecting g f s₀ target V R x'
  := by
  obtain ⟨s, b⟩ := x
  have hslots : ∀ r ∈ R, r.1 / l2pgap / g.pps = target :=
    fun r hr => h.slots r (List.mem_cons_of_mem _ hr)
  unfold PageFtl.gcPiece at hp
  cases hv : s.bm.bitset (ppa * l2pgap + i) with
  | false =>
      simp only [hv, Bool.false_eq_true, if_false, Except.ok.injEq] at hp
      subst hp
      have hpend := pend_cons_of_invalid R hv (r := (_, v i))
      refine ⟨hlen, h.frame, h.filled, h.reserve_ne, h.consistent, ?_, ?_, ?_, hslots, ?_⟩
      · rw [← hpend]
        apply h.pending
      · rw [← hpend]
        apply h.nodup
      · rw [← hpend]
        apply h.complete
      · rw [← hpend]
        apply h.count
  | true =>
      simp only [hv, if_true] at hp
      have hpend := pend_cons_of_valid R hv (r := (_, v i))
      have hsame : (b.items ++ [(s.bm.oob (ppa * l2pgap + i), v i)]) ++ pend s R
          = b.items ++ pend s ((ppa * l2pgap + i, v i) :: R) := by
        rw [hpend, List.append_assoc]
        rfl
      have hcol : Collecting g f s₀ target V R
          (s, { b with items := b.items ++ [(s.bm.oob (ppa * l2pgap + i), v i)] }) := by
        refine ⟨h.frame, h.filled, h.reserve_ne, h.consistent, ?_, ?_, ?_, hslots, ?_⟩
        · rw [hsame]
          apply h.pending
        · rw [hsame]
          apply h.nodup
        · rw [hsame]
          apply h.complete
        · rw [hsame]
          apply h.count
      split at hp
      · rename_i hfull
        obtain ⟨s', b'⟩ := x'
        obtain ⟨hitems, hcol'⟩ := hcol.gcWrite (by simp only at hfull ⊢; omega) hp
        rw [hfull, Nat.add_sub_cancel] at hcol'
        refine ⟨?_, hcol'⟩
        simp [hitems, l2pgap]
      · rename_i hfull
        simp only [Except.ok.injEq] at hp
        subst hp
        refine ⟨?_, hcol⟩
        simp only [List.length_append, List.length_singleton] at hfull ⊢
        simp only at hlen
        omega

/-- Looking at all slots of all pages that were read. -/
theorem Collecting.reads {f : ℕ → Option δ} {s₀ : PageFtl δ} {target V : ℕ}
    {reads : List (ℕ × Page δ)} {x x' : PageFtl δ × AlignGcBuffer δ}
    (h : Collecting g f s₀ target V (PageFtl.slots reads) x) (hlen : x.2.items.length < l2pgap)
    (hr : reads.foldlM (fun x r => (List.range l2pgap).foldlM (PageFtl.gcPiece g r.1 r.2) x) x
      = .ok x') :
  x'.2.items.length < l2pgap ∧ Collecting g f s₀ target V [] x'
  := by
  apply foldlM_invariant
    (fun l x => x.2.items.length < l2pgap ∧ Collecting g f s₀ target V (PageFtl.slots l) x)
    ?_ ⟨hlen, h⟩ hr
  intro r l x x' hx hin
  apply foldlM_invariant
    (fun is x => x.2.items.length < l2pgap ∧ Collecting g f s₀ target V
      (is.map (fun i => (r.1 * l2pgap + i, r.2 i)) ++ PageFtl.slots l) x)
    ?_ hx hin
  intro i is y y' hy hstep
  apply hy.2.gcPiece hy.1 hstep

/-! ### The start and the end of a collection -/

/-- The number of valid pieces of a page. -/
def pageValid (bm : BlockManager) (p : ℕ) : ℕ :=
  ((List.range l2pgap).filter (fun i => bm.bitset (p * l2pgap + i))).length

/-- The number of valid pieces of a segment. -/
def segValid (g : Geometry) (bm : BlockManager) (t : ℕ) : ℕ :=
  ((g.pages t).map (pageValid bm)).sum

/-- The segments between operations: the reserve and the free segments are empty, and no
segment is in two places. -/
structure Segments (g : Geometry) (s : PageFtl δ) : Prop where
  filled : s.bm.AllFilled g
  free : ∀ t ∈ s.bm.freeSegmentQ, s.bm.used t = 0
  reserve : s.bm.used s.reserve = 0
  nodup : (s.reserve :: (s.bm.freeSegmentQ ++ s.bm.maxHeap)).Nodup
  active : s.active ∈ s.bm.maxHeap

theorem pend_slots_length (s : PageFtl δ) (reads : List (ℕ × Page δ)) :
  (pend s (slots reads)).length = ((reads.map Prod.fst).map (pageValid s.bm)).sum
  := by
  induction reads with
  | nil => rfl
  | cons r l ih =>
      simp only [pend, slots, List.length_map, List.flatMap_cons, List.filter_append,
        List.length_append, List.map_cons, List.sum_cons] at ih ⊢
      rw [ih]
      congr 1
      simp only [pageValid, List.filter_map, List.length_map]
      rfl

/-- Pages without a valid piece do not count. -/
theorem sum_pageValid_filter (bm : BlockManager) (l : List ℕ) :
  ((l.filter (fun p => (List.range l2pgap).any (fun i => bm.bitset (p * l2pgap + i)))).map
    (pageValid bm)).sum = (l.map (pageValid bm)).sum
  := by
  induction l with
  | nil => rfl
  | cons p l ih =>
      rw [List.filter_cons]
      split
      · rw [List.map_cons, List.sum_cons, List.map_cons, List.sum_cons, ih]
      · rename_i hany
        have hzero : pageValid bm p = 0 := by
          rw [pageValid, List.length_eq_zero_iff, List.filter_eq_nil_iff]
          intro i hi hb
          apply hany
          rw [List.any_eq_true]
          use i, hi, hb
        rw [List.map_cons, List.sum_cons, hzero, Nat.zero_add, ih]

/-- The reads of a garbage collection give the pages and their contents. -/
theorem mapM_flash {s : PageFtl δ} {pages : List ℕ} {reads : List (ℕ × Page δ)}
    (h : pages.mapM (fun p => do return (p, ← orThrow Abort.notPopulated (s.flash p)))
      = .ok reads) :
  reads.map Prod.fst = pages ∧ ∀ r ∈ reads, s.flash r.1 = some r.2
  := by
  induction pages generalizing reads with
  | nil =>
      cases h
      simp
  | cons p l ih =>
      simp only [List.mapM_cons, bind_eq_ok, orThrow_eq_ok, pure, Except.pure,
        Except.ok.injEq] at h
      obtain ⟨r, ⟨v, hv, rfl⟩, rs, hrs, rfl⟩ := h
      obtain ⟨h₁, h₂⟩ := ih hrs
      use by rw [List.map_cons, h₁]
      intro r hr
      rcases List.mem_cons.mp hr with rfl | hr
      · apply hv
      · apply h₂ r hr

theorem slots_nodup {reads : List (ℕ × Page δ)} (h : (reads.map Prod.fst).Nodup) :
  ((slots reads).map Prod.fst).Nodup
  := by
  induction reads with
  | nil => simp [slots]
  | cons r l ih =>
      rw [List.map_cons, List.nodup_cons] at h
      have ih' := ih h.2
      simp only [slots, List.flatMap_cons, List.map_append, List.map_map] at ih' ⊢
      rw [List.nodup_append']
      refine ⟨?_, ih', ?_⟩
      · apply List.Nodup.map_on _ List.nodup_range
        intro i _ j _ hij
        simp only [Function.comp_apply] at hij
        omega
      · intro q hq hq'
        simp only [List.mem_map, List.mem_range, Function.comp_apply, List.mem_flatMap] at hq hq'
        obtain ⟨i, hi, rfl⟩ := hq
        obtain ⟨_, ⟨r', hr', j, hj, rfl⟩, heq⟩ := hq'
        apply h.1
        have : r.1 = r'.1 := by
          rw [← piece_div r.1 i hi, ← heq, piece_div r'.1 j hj]
        rw [this]
        apply List.mem_map_of_mem hr'

theorem readOrder_perm (order pages : List ℕ) :
  (readOrder order pages).Perm pages
  := by
  unfold readOrder
  split
  · assumption
  · apply List.Perm.refl

theorem pages_nodup (g : Geometry) (t : ℕ) :
  (g.pages t).Nodup
  := by
  apply List.Nodup.map_on _ List.nodup_range
  intro i _ j _ hij
  omega

/-- When the victim has been read, all lbas mapped into it are still to be collected. -/
theorem Consistent.collecting {f : ℕ → Option δ} {s : PageFtl δ} {target : ℕ}
    {reads : List (ℕ × Page δ)} {order : List ℕ}
    (hc : Consistent g f (fun _ => True) s) (hf : s.bm.AllFilled g)
    (hne : s.reserve ≠ target) (hres : s.bm.used s.reserve = 0)
    (hpages : reads.map Prod.fst = readOrder order (readPages g s target))
    (hread : ∀ r ∈ reads, s.flash r.1 = some r.2) (left : Page δ) :
  Collecting g f s target (segValid g s.bm target) (slots reads) (s, ⟨[], left⟩)
  := by
  have hperm : (reads.map Prod.fst).Perm (readPages g s target) := by
    rw [hpages]
    apply readOrder_perm
  have htarget : ∀ r ∈ reads, r.1 / g.pps = target := by
    intro r hr
    have hm := hperm.subset (List.mem_map_of_mem (f := Prod.fst) hr)
    apply (g.mem_pages target r.1).mp (List.mem_of_mem_filter hm)
  have hslot : ∀ y ∈ slots reads, ∃ r ∈ reads, ∃ i < l2pgap,
      y = (r.1 * l2pgap + i, r.2 i) := by
    intro y hy
    simp only [slots, List.mem_flatMap, List.mem_map, List.mem_range] at hy
    obtain ⟨r, hr, i, hi, rfl⟩ := hy
    exact ⟨r, hr, i, hi, rfl⟩
  constructor
  · use SameShell.refl s, fun _ _ => rfl, fun p hp => absurd rfl hp
  · apply hf
  · apply hne
  · use hc.clear, hc.erased, hc.mapped, fun q hq _ => hc.valid q hq trivial, hc.unmapped
  · intro y hy
    rw [List.nil_append, pend, List.mem_map] at hy
    obtain ⟨z, hz, rfl⟩ := hy
    rw [List.mem_filter] at hz
    obtain ⟨r, hr, i, hi, rfl⟩ := hslot z hz.1
    have hmap := hc.valid _ hz.2 trivial
    obtain ⟨-, -, v, hv, hd, -⟩ := hc.mapped _ _ hmap
    rw [piece_div _ _ hi, hread r hr, Option.some.injEq] at hv
    subst hv
    rw [piece_mod _ _ hi] at hd
    refine ⟨hd, _, ?_, hmap⟩
    rw [piece_div _ _ hi]
    apply htarget r hr
  · rw [List.nil_append, pend, List.map_map]
    have hn := @slots_nodup δ reads
      (hperm.nodup_iff.mpr ((pages_nodup g target).filter _))
    have hn' : (((slots reads).filter (fun r => s.bm.bitset r.1)).map Prod.fst).Nodup :=
      hn.sublist ((List.filter_sublist).map _)
    rw [show (Prod.fst ∘ fun r : ℕ × Option δ => (s.bm.oob r.1, r.2)) = s.bm.oob ∘ Prod.fst
      from rfl, ← List.map_map]
    apply List.Nodup.map_on _ hn'
    intro q hq q' hq' heq
    have hbit : ∀ q ∈ ((slots reads).filter (fun r => s.bm.bitset r.1)).map Prod.fst,
        s.bm.bitset q = true := by
      intro q hq
      obtain ⟨y, hy, rfl⟩ := List.mem_map.mp hq
      apply (List.mem_filter.mp hy).2
    have h₁ := hc.valid q (hbit q hq) trivial
    have h₂ := hc.valid q' (hbit q' hq') trivial
    rw [heq, h₂, Option.some.injEq] at h₁
    apply h₁.symm
  · intro lba q hq ht
    obtain ⟨hb, ho, -⟩ := hc.mapped lba q hq
    have hlt := piece_mod_lt q
    have hpage : q / l2pgap ∈ readPages g s target := by
      rw [readPages, List.mem_filter, g.mem_pages, List.any_eq_true]
      use ht, q % l2pgap, List.mem_range.mpr hlt
      rw [piece_eq]
      apply hb
    obtain ⟨r, hr, hrq⟩ := List.mem_map.mp (hperm.mem_iff.mpr hpage)
    rw [List.nil_append, List.mem_map]
    use (lba, r.2 (q % l2pgap))
    refine ⟨?_, rfl⟩
    rw [pend, List.mem_map]
    use (q, r.2 (q % l2pgap))
    refine ⟨?_, by rw [ho]⟩
    rw [List.mem_filter]
    refine ⟨?_, hb⟩
    simp only [slots, List.mem_flatMap, List.mem_map, List.mem_range]
    use r, hr, q % l2pgap, hlt
    rw [hrq, piece_eq]
  · intro y hy
    obtain ⟨r, hr, i, hi, rfl⟩ := hslot y hy
    rw [piece_div _ _ hi]
    apply htarget r hr
  · rw [hres, List.nil_append, pend_slots_length, segValid,
      ← sum_pageValid_filter s.bm (g.pages target)]
    simp only [Nat.mul_zero, Nat.zero_add]
    apply (hperm.map _).sum_nat

/-- `s'` is `s` at the end of a garbage collection: `target` is erased and free, the reserve
is active, and the oldest free segment is the reserve. -/
structure SegmentErased (g : Geometry) (s s' : PageFtl δ) (target : ℕ) : Prop where
  queue : s.bm.freeSegmentQ ++ [target] = s'.reserve :: s'.bm.freeSegmentQ
  heap : s'.bm.maxHeap = s.bm.maxHeap ++ [s.reserve]
  active : s'.active = s.reserve
  aBuffer : s'.aBuffer = s.aBuffer
  rb : s'.rb = s.rb
  mapping : s'.mapping = s.mapping
  flash : ∀ p, s'.flash p = if p / g.pps = target then none else s.flash p
  bitset : ∀ q, s'.bm.bitset q = if q / l2pgap / g.pps = target then false else s.bm.bitset q
  oob : ∀ q, s'.bm.oob q = if q / l2pgap / g.pps = target then 0 else s.bm.oob q
  used : ∀ t, s'.bm.used t = if t = target then 0 else s.bm.used t
  filled : s.bm.AllFilled g → s'.bm.AllFilled g

theorem gcFinish_ok {s s' : PageFtl δ} {target : ℕ} (h : gcFinish g s target = .ok s') :
  SegmentErased g s s' target
  := by
  simp only [gcFinish, BlockManager.getSegReserve] at h
  split at h
  · simp [bind, Except.bind] at h
  rename_i t qs hq
  simp only [bind, Except.bind, pure, Except.pure, Except.ok.injEq] at h
  subst h
  have hused : ∀ t, BlockManager.used (s.bm.trimSegment g target) t
      = if t = target then 0 else s.bm.used t := by
    intro t
    simp only [BlockManager.used, BlockManager.trimSegment, Function.update_apply]
    split
    · rfl
    · rfl
  constructor
  · apply hq
  · rfl
  · rfl
  · rfl
  · rfl
  · rfl
  · intro p
    rfl
  · intro q
    rw [← g.sid_eq]
    rfl
  · intro q
    rw [← g.sid_eq]
    rfl
  · apply hused
  · intro hf x
    have hx : BlockManager.Filled g (s.bm.trimSegment g target) x
        (BlockManager.used (s.bm.trimSegment g target) x) := by
      rw [hused]
      by_cases hx : x = target
      · subst hx
        rw [if_pos rfl]
        apply BlockManager.filled_trimSegment
      · rw [if_neg hx]
        apply (hf x).trimSegment_of_ne hx
    exact hx.congr rfl rfl (fun _ _ => rfl)

/-- Erasing a victim that no lba is mapped into keeps the mapping invariant. -/
theorem Consistent.segmentErased {f : ℕ → Option δ} {s s' : PageFtl δ} {target : ℕ}
    (h : Consistent g f (fun q => q / l2pgap / g.pps ≠ target) s)
    (e : SegmentErased g s s' target)
    (hout : ∀ lba q, s.mapping lba = some q → q / l2pgap / g.pps ≠ target) :
  Consistent g f (fun _ => True) s'
  := by
  constructor
  · intro q hq
    rw [e.used] at hq
    rw [e.bitset]
    split
    · rfl
    · rename_i ht
      rw [if_neg ht] at hq
      apply h.clear q hq
  · intro p hp
    rw [e.used] at hp
    rw [e.flash]
    split
    · rfl
    · rename_i ht
      rw [if_neg ht] at hp
      apply h.erased p hp
  · intro lba q hq
    rw [e.mapping] at hq
    have hne := hout lba q hq
    rw [e.bitset, if_neg hne, e.oob, if_neg hne, e.flash, if_neg hne]
    apply h.mapped lba q hq
  · intro q hb _
    rw [e.bitset] at hb
    split at hb
    · contradiction
    · rename_i hne
      rw [e.mapping, e.oob, if_neg hne]
      apply h.valid q hb hne
  · intro lba hl
    rw [e.mapping] at hl
    apply h.unmapped lba hl

/-- The segments after the end of a collection. -/
theorem Collecting.segments {f : ℕ → Option δ} {s₀ s s' : PageFtl δ} {target V : ℕ}
    {b : AlignGcBuffer δ} (h : Collecting g f s₀ target V [] (s, b))
    (hs : (s₀.reserve :: target :: (s₀.bm.freeSegmentQ ++ s₀.bm.maxHeap)).Nodup)
    (hfree : ∀ t ∈ s₀.bm.freeSegmentQ, s₀.bm.used t = 0)
    (e : SegmentErased g s s' target) :
  Segments g s'
  := by
  have hqueue : s.bm.freeSegmentQ = s₀.bm.freeSegmentQ := h.frame.shell.queue
  have hheap : s.bm.maxHeap = s₀.bm.maxHeap := h.frame.shell.heap
  have hres : s.reserve = s₀.reserve := h.frame.shell.reserve
  have hq := e.queue
  rw [hqueue] at hq
  have hempty : ∀ x ∈ s'.reserve :: s'.bm.freeSegmentQ, s'.bm.used x = 0 := by
    intro x hx
    rw [← hq, List.mem_append, List.mem_singleton] at hx
    rw [e.used]
    split
    · rfl
    · rename_i ht
      have hx : x ∈ s₀.bm.freeSegmentQ := hx.resolve_right ht
      have hxr : x ≠ s₀.reserve := by
        rintro rfl
        rw [List.nodup_cons] at hs
        apply hs.1
        simp [hx]
      apply (h.frame.used x hxr).trans (hfree x hx)
  constructor
  · apply e.filled h.filled
  · intro x hx
    apply hempty x (List.mem_cons_of_mem _ hx)
  · apply hempty _ List.mem_cons_self
  · have hperm : (s'.reserve :: (s'.bm.freeSegmentQ ++ (s₀.bm.maxHeap ++ [s₀.reserve]))).Perm
        (s₀.reserve :: target :: (s₀.bm.freeSegmentQ ++ s₀.bm.maxHeap)) := by
      rw [← List.cons_append, ← hq, ← List.append_assoc]
      apply (List.perm_append_singleton _ _).trans
      apply List.Perm.cons
      rw [List.append_assoc]
      apply List.perm_middle
    rw [e.heap, hheap, hres]
    apply hperm.nodup_iff.mpr hs
  · rw [e.heap, e.active]
    simp

/-- What a garbage collection of `target` keeps and what it changes. -/
structure Collected (g : Geometry) (f : ℕ → Option δ) (s s' : PageFtl δ) (target : ℕ) :
    Prop where
  segments : Segments g s'
  consistent : Consistent g f (fun _ => True) s'
  active : s'.active = s.reserve
  used : s'.bm.used s.reserve = (segValid g s.bm target + 3) / l2pgap
  queue : s.bm.freeSegmentQ ++ [target] = s'.reserve :: s'.bm.freeSegmentQ
  aBuffer : s'.aBuffer = s.aBuffer
  rb : s'.rb = s.rb
  flash : ∀ p v, s'.flash p = some v → s.flash p ≠ some v →
    p / g.pps = s.reserve ∧ p % g.pps < (segValid g s.bm target + 3) / l2pgap

/-- The end of a collection, when the gc buffer is empty. -/
theorem Collecting.finish {f : ℕ → Option δ} {s₀ s s' : PageFtl δ} {target V : ℕ}
    {b : AlignGcBuffer δ} (h : Collecting g f s₀ target V [] (s, b)) (hitems : b.items = [])
    (hV : V / l2pgap = (segValid g s₀.bm target + 3) / l2pgap)
    (hs : (s₀.reserve :: target :: (s₀.bm.freeSegmentQ ++ s₀.bm.maxHeap)).Nodup)
    (hfree : ∀ t ∈ s₀.bm.freeSegmentQ, s₀.bm.used t = 0)
    (hfin : gcFinish g s target = .ok s') :
  Collected g f s₀ s' target
  := by
  have e := gcFinish_ok hfin
  have hres : s.reserve = s₀.reserve := h.frame.shell.reserve
  have hout : ∀ lba q, s.mapping lba = some q → q / l2pgap / g.pps ≠ target := by
    intro lba q hq ht
    have := h.complete lba q hq ht
    rw [hitems] at this
    simp [pend] at this
  have hcount : s.bm.used s₀.reserve = (segValid g s₀.bm target + 3) / l2pgap := by
    have hc := h.count
    rw [hitems] at hc
    simp only [pend, List.filter_nil, List.map_nil, List.append_nil, List.length_nil,
      Nat.add_zero] at hc
    rw [← hV, ← hc, Nat.mul_div_cancel_left _ (by decide)]
  constructor
  · apply h.segments hs hfree e
  · apply h.consistent.segmentErased e hout
  · rw [e.active, hres]
  · rw [e.used, if_neg h.reserve_ne, hcount]
  · rw [← e.queue]
    congr 1
    apply h.frame.shell.queue.symm
  · rw [e.aBuffer]
    apply h.frame.shell.aBuffer
  · rw [e.rb]
    apply h.frame.shell.rb
  · intro p v hp hne
    rw [e.flash] at hp
    split at hp
    · contradiction
    · rw [← hcount]
      apply h.frame.flash p
      intro heq
      simp only at heq
      rw [hp] at heq
      apply hne heq.symm

/-- Taking a victim from the heap changes neither bits nor labels nor pages. -/
structure TargetTaken (g : Geometry) (bm bm' : BlockManager) (target : ℕ) : Prop where
  mem : target ∈ bm.maxHeap
  heap : bm'.maxHeap = bm.maxHeap.erase target
  queue : bm'.freeSegmentQ = bm.freeSegmentQ
  bitset : bm'.bitset = bm.bitset
  oob : bm'.oob = bm.oob
  used : ∀ t, bm'.used t = bm.used t
  filled : bm.AllFilled g → bm'.AllFilled g

theorem getGcTarget_ok {bm bm' : BlockManager} {cnt : Segment → ℤ} {target : ℕ}
    (h : bm.getGcTarget g cnt target = .ok bm') :
  TargetTaken g bm bm' target
  := by
  simp only [BlockManager.getGcTarget, bind_eq_ok, require_eq_ok, pure, Except.pure,
    Except.ok.injEq] at h
  obtain ⟨_, ⟨hmem, -⟩, _, -, rfl⟩ := h
  refine ⟨hmem, rfl, rfl, rfl, rfl, fun _ => rfl, ?_⟩
  intro hf t
  refine BlockManager.Filled.congr (hf t) rfl rfl ?_
  intro j _
  simp only
  split
  · simp
  · rfl

/-- A garbage collection keeps the mapping invariant and writes only the first pages of the
reserve segment, as many as the valid pieces of the victim need. -/
theorem doGc_ok {f : ℕ → Option δ} {s s' : PageFtl δ} {target : ℕ} {order : List ℕ}
    (hs : Segments g s) (hc : Consistent g f (fun _ => True) s)
    (h : doGc g s target order = .ok s') :
  Collected g f s s' target
  := by
  simp only [doGc, bind_eq_ok, pure, Except.pure, Prod.exists] at h
  obtain ⟨bm, htake, reads, hreads, s₁, b₁, hfold, s₂, b₂, hlast, hfin⟩ := h
  have k := getGcTarget_ok htake
  obtain ⟨hpages, hread⟩ := mapM_flash hreads
  have hperm : (s.bm.freeSegmentQ ++ s.bm.maxHeap).Perm
      (target :: (bm.freeSegmentQ ++ bm.maxHeap)) := by
    rw [k.queue, k.heap]
    apply (List.Perm.append_left _ (List.perm_cons_erase k.mem)).trans
    apply List.perm_middle
  have hnodup := (hperm.cons s.reserve).nodup_iff.mp hs.nodup
  have hne : s.reserve ≠ target := by
    rintro heq
    rw [List.nodup_cons] at hnodup
    apply hnodup.1
    rw [heq]
    apply List.mem_cons_self
  have hfree : ∀ t ∈ bm.freeSegmentQ, bm.used t = 0 := by
    intro t ht
    rw [k.queue] at ht
    rw [k.used]
    apply hs.free t ht
  have hc' : Consistent g f (fun _ => True) { s with bm := bm } := by
    constructor
    · intro q hq
      rw [k.used] at hq
      rw [k.bitset]
      apply hc.clear q hq
    · intro p hp
      rw [k.used] at hp
      apply hc.erased p hp
    · intro lba q hq
      rw [k.bitset, k.oob]
      apply hc.mapped lba q hq
    · intro q hb hok
      rw [k.oob]
      rw [k.bitset] at hb
      apply hc.valid q hb hok
    · apply hc.unmapped
  have hvalid : segValid g bm target = segValid g s.bm target := by
    unfold segValid pageValid
    rw [k.bitset]
  have hcol := hc'.collecting (k.filled hs.filled) hne ((k.used _).trans hs.reserve) hpages hread
    (fun _ => none)
  obtain ⟨hlen, hcol₁⟩ := hcol.reads (by simp [l2pgap]) hfold
  have hcount := hcol₁.count
  simp only [pend, List.filter_nil, List.map_nil, List.append_nil] at hcount hlen
  have hfinal : ∃ V, V / l2pgap = (segValid g bm target + 3) / l2pgap ∧ b₂.items = [] ∧
      Collecting g f { s with bm := bm } target V [] (s₂, b₂) := by
    unfold gcWriteLast at hlast
    split at hlast
    · rename_i hitems
      simp only [Except.ok.injEq, Prod.mk.injEq] at hlast
      obtain ⟨rfl, rfl⟩ := hlast
      refine ⟨_, ?_, hitems, hcol₁⟩
      rw [hitems, List.length_nil] at hcount
      rw [← hcount]
      unfold l2pgap
      omega
    · rename_i hitems
      obtain ⟨hitems₂, hcol₂⟩ := hcol₁.gcWrite (Nat.le_of_lt hlen) hlast
      refine ⟨_, ?_, hitems₂, hcol₂⟩
      have hpos : 0 < b₁.items.length := List.length_pos_iff.mpr hitems
      rw [← hcount]
      unfold l2pgap at *
      omega
  obtain ⟨V, hV, hitems, hcol₂⟩ := hfinal
  have hres := hcol₂.finish hitems hV hnodup hfree hfin
  refine ⟨hres.segments, hres.consistent, hres.active, ?_, ?_, hres.aBuffer, hres.rb, ?_⟩
  · rw [← hvalid]
    apply hres.used
  · rw [← k.queue]
    apply hres.queue
  · rw [← hvalid]
    apply hres.flash

end PageFtl

end AppL
