import AppL.PageFtl.Gc

/-!
# Writes of the page-mapping FTL

A flush of the align buffer takes the next page of a segment, after a garbage collection
when the device is full.  It keeps the mapping invariant, makes the last written data of
every lba the data in flash, and writes only pages that are known before the step.
-/

namespace AppL

open Transition

namespace PageFtl

variable {δ : Type} {g : Geometry}

/-! ### The align buffer -/

/-- The align buffer holds the last written data `w` of its lbas, and the flash holds the
last written data of the others. -/
structure Buffered (w f : ℕ → Option δ) (buf : List (ℕ × δ)) : Prop where
  nodup : (buf.map Prod.fst).Nodup
  mem : ∀ x ∈ buf, w x.1 = some x.2
  rest : ∀ k ∉ buf.map Prod.fst, w k = f k

theorem align_keys_of_mem {buf : List (ℕ × δ)} {key : ℕ} (data : δ)
    (h : key ∈ buf.map Prod.fst) :
  (align buf key data).map Prod.fst = buf.map Prod.fst
  := by
  rw [align, if_pos h, List.map_map]
  apply List.map_congr_left
  intro x _
  simp only [Function.comp_apply]
  split
  · rename_i hx
    apply hx.symm
  · rfl

theorem align_keys_of_notMem {buf : List (ℕ × δ)} {key : ℕ} (data : δ)
    (h : key ∉ buf.map Prod.fst) :
  (align buf key data).map Prod.fst = buf.map Prod.fst ++ [key]
  := by
  rw [align, if_neg h, List.map_append]
  rfl

/-- Putting a write into the align buffer keeps the buffer up to date. -/
theorem Buffered.align {w f : ℕ → Option δ} {buf : List (ℕ × δ)} (h : Buffered w f buf)
    (key : ℕ) (data : δ) :
  Buffered (Function.update w key (some data)) f (PageFtl.align buf key data)
  := by
  by_cases hm : key ∈ buf.map Prod.fst
  · have hkeys := align_keys_of_mem data hm
    constructor
    · rw [hkeys]
      apply h.nodup
    · intro x hx
      rw [PageFtl.align, if_pos hm, List.mem_map] at hx
      obtain ⟨y, hy, rfl⟩ := hx
      split
      · simp
      · rename_i hne
        rw [Function.update_of_ne hne]
        apply h.mem y hy
    · intro k hk
      rw [hkeys] at hk
      have hne : k ≠ key := by
        rintro rfl
        contradiction
      rw [Function.update_of_ne hne]
      apply h.rest k hk
  · have hkeys := align_keys_of_notMem data hm
    constructor
    · rw [hkeys, List.nodup_append']
      use h.nodup, List.nodup_singleton key
      simpa using hm
    · intro x hx
      rw [PageFtl.align, if_neg hm, List.mem_append, List.mem_singleton] at hx
      rcases hx with hx | rfl
      · have hne : x.1 ≠ key := by
          rintro rfl
          apply hm (List.mem_map_of_mem hx)
        rw [Function.update_of_ne hne]
        apply h.mem x hx
      · simp
    · intro k hk
      rw [hkeys, List.mem_append, List.mem_singleton, not_or] at hk
      rw [Function.update_of_ne hk.2]
      apply h.rest k hk.1

/-- After a flush the flash holds the last written data of every lba. -/
theorem Buffered.flushed {w f : ℕ → Option δ} {buf : List (ℕ × δ)} (_ : Buffered w f buf) :
  Buffered w w []
  := by
  refine ⟨List.nodup_nil, ?_, ?_⟩
  · intro x hx
    contradiction
  · intro k _
    rfl

/-! ### Taking a page -/

/-- `s'` is `s` with the next page `res` of the active segment handed out, a free segment
having become active when the old one was full. -/
structure PageTaken (g : Geometry) (s s' : PageFtl δ) (res : ℕ) : Prop where
  segments : Segments g s'
  fresh : s.bm.used (res / g.pps) = res % g.pps
  used : ∀ t, s'.bm.used t = if t = res / g.pps then s.bm.used t + 1 else s.bm.used t
  bitset : s'.bm.bitset = s.bm.bitset
  oob : s'.bm.oob = s.bm.oob
  mapping : s'.mapping = s.mapping
  flash : s'.flash = s.flash
  aBuffer : s'.aBuffer = s.aBuffer
  rb : s'.rb = s.rb
  page : (s.bm.used s.active < g.pps ∧ res = s.active * g.pps + s.bm.used s.active) ∨
    (s.bm.used s.active = g.pps ∧ ∃ t q, s.bm.freeSegmentQ = t :: q ∧ res = t * g.pps)

/-- A segment with a page left gives it. -/
theorem retry_of_lt {s s' : PageFtl δ} {n res : ℕ} (hs : Segments g s)
    (hu : s.bm.used s.active < g.pps) (h : retry g (n + 1) s = .ok (res, s')) :
  PageTaken g s s' res
  := by
  have hne : s.bm.used s.active ≠ g.pps := Nat.ne_of_lt hu
  have hnodup := hs.nodup
  rw [List.nodup_cons, List.nodup_append'] at hnodup
  obtain ⟨hres, -, -, hdisj⟩ := hnodup
  have hra : s.reserve ≠ s.active := by
    intro heq
    apply hres
    rw [heq]
    apply List.mem_append_right _ hs.active
  simp only [retry, hs.filled.getPageAddr, if_neg hne, bind_eq_ok, Except.ok.injEq, pure,
    Except.pure] at h
  obtain ⟨x, rfl, hx⟩ := h
  simp only [Except.ok.injEq, Prod.mk.injEq] at hx
  obtain ⟨rfl, rfl⟩ := hx
  have hused := s.bm.used_assignPage (g := g) s.active (s.bm.used s.active)
  constructor
  · constructor
    · apply hs.filled.assignPage hu
    · intro t ht
      have hta : t ≠ s.active := by
        rintro rfl
        apply hdisj ht hs.active
      rw [hused, if_neg hta]
      apply hs.free t ht
    · rw [hused, if_neg hra]
      apply hs.reserve
    · apply hs.nodup
    · apply hs.active
  · rw [g.page_div _ _ hu, g.page_mod _ _ hu]
  · intro t
    rw [hused, g.page_div _ _ hu]
    split
    · rename_i ht
      rw [ht]
    · rfl
  · rfl
  · rfl
  · rfl
  · rfl
  · rfl
  · rfl
  · left
    exact ⟨hu, rfl⟩

/-- The loop of `get_ppa` takes a page of the active segment or the first page of the oldest
free one. -/
theorem retry_ok {s s' : PageFtl δ} {n res : ℕ} (hs : Segments g s)
    (h : retry g (n + 1) s = .ok (res, s')) :
  PageTaken g s s' res
  := by
  by_cases hu : s.bm.used s.active = g.pps
  · have hnodup := hs.nodup
    simp only [retry, hs.filled.getPageAddr, if_pos hu, bind_eq_ok, Except.ok.injEq] at h
    obtain ⟨x, rfl, hx⟩ := h
    simp only [bind_eq_ok] at hx
    obtain ⟨y, hseg, hr⟩ := hx
    simp only [BlockManager.getSegActive] at hseg
    split at hseg
    · contradiction
    rename_i t q hq
    simp only [Except.ok.injEq] at hseg
    subst hseg
    simp only at hr
    have hfree := hs.free t (by rw [hq]; apply List.mem_cons_self)
    have hs' : Segments g { s with
        bm := { s.bm with freeSegmentQ := q, maxHeap := s.bm.maxHeap ++ [t] }, active := t } := by
      constructor
      · intro x
        exact BlockManager.Filled.congr (hs.filled x) rfl rfl (fun _ _ => rfl)
      · intro x hx
        apply hs.free x
        rw [hq]
        apply List.mem_cons_of_mem t hx
      · apply hs.reserve
      · rw [hq] at hnodup
        refine (List.Perm.nodup_iff ?_).mp hnodup
        apply List.Perm.cons
        rw [List.cons_append, ← List.append_assoc]
        apply (List.perm_append_singleton _ _).symm
      · simp
    cases n with
    | zero => simp [retry] at hr
    | succ n =>
        have hlt : BlockManager.used { s.bm with
            freeSegmentQ := q, maxHeap := s.bm.maxHeap ++ [t] } t < g.pps :=
          lt_of_eq_of_lt hfree g.pps_pos
        have k := retry_of_lt hs' hlt hr
        refine ⟨k.segments, k.fresh, k.used, k.bitset, k.oob, k.mapping, k.flash, k.aBuffer,
          k.rb, ?_⟩
        right
        use hu, t, q, hq
        rcases k.page with ⟨-, hp⟩ | ⟨hfull, -⟩
        · have hp' : res = t * g.pps + s.bm.used t := hp
          rw [hp', hfree, Nat.add_zero]
        · simp only at hfull hlt
          omega
  · apply retry_of_lt hs _ h
    have := (hs.filled s.active).le
    omega

/-! ### Flushing the align buffer -/

/-- The pages that a flush of the align buffer writes: the next page of the active segment,
the first page of a free segment, or, when the device is full, the pages of the reserve
segment for the valid pieces of the victim and one more. -/
def nextPages (g : Geometry) (s : PageFtl δ) (target : ℕ) : List ℕ :=
  if s.bm.checkFull g s.active then
    match s.bm.freeSegmentQ with
    | [] =>
        (List.range ((segValid g s.bm target + 3) / l2pgap + 1)).map (s.reserve * g.pps + ·)
    | t :: _ => [t * g.pps]
  else
    [s.active * g.pps + s.bm.used s.active]

/-- The loop of `page_map_assign` maps the lbas and clears the bits of their old pieces. -/
theorem foldl_assignPiece (res : ℕ) (lbas : List ℕ) (hn : lbas.Nodup) (k : ℕ) (s : PageFtl δ) :
  let s' := (lbas.zipIdx k).foldl (assignPiece g res) s
  SameShell s s' ∧ BlockManager.Keeps g s.bm s'.bm ∧ s'.flash = s.flash ∧
    s'.mapping = (lbas.zipIdx k).foldl (mapPiece res) s.mapping ∧ s'.bm.oob = s.bm.oob ∧
    ∀ q, s'.bm.bitset q = true ↔
      s.bm.bitset q = true ∧ ¬ ∃ lba ∈ lbas, s.mapping lba = some q
  := by
  induction lbas generalizing k s with
  | nil =>
      refine ⟨SameShell.refl s, BlockManager.Keeps.refl _, rfl, rfl, rfl, ?_⟩
      simp
  | cons a l ih =>
      rw [List.nodup_cons] at hn
      obtain ⟨hsh, hk, hfl, hm, ho, hb⟩ := ih hn.2 (k + 1) (assignPiece g res s (a, k))
      have hk₁ : BlockManager.Keeps g s.bm (assignPiece g res s (a, k)).bm := by
        simp only [assignPiece]
        split
        · apply BlockManager.keeps_bitUnset
        · apply BlockManager.Keeps.refl
      have ho₁ : (assignPiece g res s (a, k)).bm.oob = s.bm.oob := by
        simp only [assignPiece]
        split
        · rfl
        · rfl
      have hb₁ : ∀ q, (assignPiece g res s (a, k)).bm.bitset q = true ↔
          s.bm.bitset q = true ∧ s.mapping a ≠ some q := by
        intro q
        simp only [assignPiece]
        cases hma : s.mapping a with
        | none => simp
        | some q' =>
            by_cases hq : q = q'
            · subst hq
              simp
            · simp [hq, Ne.symm hq]
      rw [List.zipIdx_cons, List.foldl_cons, List.foldl_cons]
      have hsh₁ : SameShell s (assignPiece g res s (a, k)) :=
        ⟨rfl, rfl, rfl, rfl, hk₁.queue, hk₁.heap⟩
      use hsh₁.trans hsh, hk₁.trans hk, hfl, hm, ho.trans ho₁
      intro q
      rw [hb q, hb₁ q, and_assoc]
      apply and_congr_right
      intro _
      have hrest : ∀ lba ∈ l, (assignPiece g res s (a, k)).mapping lba = s.mapping lba := by
        intro lba hl
        have hne : lba ≠ a := by
          rintro rfl
          apply hn.1 hl
        simp only [assignPiece, mapPiece]
        rw [Function.update_of_ne hne]
      constructor
      · rintro ⟨hna, hnl⟩ ⟨lba, hl, hq⟩
        rcases List.mem_cons.mp hl with rfl | hl
        · apply hna hq
        · apply hnl
          use lba, hl, (hrest lba hl).trans hq
      · intro hno
        constructor
        · intro hq
          apply hno
          use a, List.mem_cons_self, hq
        · rintro ⟨lba, hl, hq⟩
          apply hno
          use lba, List.mem_cons_of_mem a hl, (hrest lba hl).symm.trans hq

/-- Writing the full align buffer to the page that was taken for it. -/
theorem PageTaken.assign {w f : ℕ → Option δ} {s s₁ s' : PageFtl δ} {res : ℕ}
    {buf : List (ℕ × δ)} (hc : Consistent g f (fun _ => True) s) (k : PageTaken g s s₁ res)
    (hbuf : Buffered w f buf) (hlen : buf.length = l2pgap)
    (h : program ((buf.map Prod.fst).zipIdx.foldl (assignPiece g res)
      (validatePpa g s₁ res (buf.map Prod.fst))) res (fun i => (buf[i]?).map Prod.snd) = .ok s') :
  Segments g s' ∧ Consistent g w (fun _ => True) s' ∧ s'.aBuffer = s.aBuffer ∧ s'.rb = s.rb ∧
    ∀ p v, s'.flash p = some v → s.flash p ≠ some v → p = res
  := by
  obtain ⟨hkv, hov, hbv⟩ := foldl_bitSet (g := g) s₁.bm res (buf.map Prod.fst).length
    (by simp [hlen])
  have hkv' := hkv.trans (BlockManager.keeps_setOob _ (buf.map Prod.fst) res)
  obtain ⟨hsh, hka, hfa, hma, hoa, hba⟩ := foldl_assignPiece (g := g) res (buf.map Prod.fst)
    hbuf.nodup 0 (validatePpa g s₁ res (buf.map Prod.fst))
  simp only [program, bind_eq_ok, require_eq_ok, pure, Except.pure, Except.ok.injEq] at h
  obtain ⟨_, -, rfl⟩ := h
  have hkeep : BlockManager.Keeps g s₁.bm ((buf.map Prod.fst).zipIdx.foldl (assignPiece g res)
      (validatePpa g s₁ res (buf.map Prod.fst))).bm := hkv'.trans hka
  have hused := hkeep.used_eq k.segments.filled
  have hflash : (List.foldl (assignPiece g res) (validatePpa g s₁ res (buf.map Prod.fst))
      (buf.map Prod.fst).zipIdx).flash = s.flash := hfa.trans k.flash
  refine ⟨?_, ?_, ?_, ?_, ?_⟩
  · constructor
    · apply hkeep.allFilled k.segments.filled
    · intro t ht
      simp only at ht
      rw [hkeep.queue] at ht
      apply (hused t).trans (k.segments.free t ht)
    · rw [hused]
      simp only
      rw [hsh.reserve]
      apply k.segments.reserve
    · simp only
      rw [hsh.reserve, hkeep.queue, hkeep.heap]
      apply k.segments.nodup
    · simp only
      rw [hsh.active, hkeep.heap]
      apply k.segments.active
  · have hw : PageWritten g s
        { (buf.map Prod.fst).zipIdx.foldl (assignPiece g res)
            (validatePpa g s₁ res (buf.map Prod.fst)) with
          flash := Function.update ((buf.map Prod.fst).zipIdx.foldl (assignPiece g res)
            (validatePpa g s₁ res (buf.map Prod.fst))).flash res
            (some (fun i => (buf[i]?).map Prod.snd)) }
        res (buf.map Prod.fst) (fun i => (buf[i]?).map Prod.snd)
        (fun q => ∃ lba ∈ buf.map Prod.fst, s.mapping lba = some q) := by
      constructor
      · simp only
        rw [hma, setMapping]
        simp only [validatePpa]
        rw [k.mapping]
      · intro q
        simp only
        rw [hba q]
        simp only [validatePpa, BlockManager.setOob]
        rw [hbv q, k.mapping, k.bitset]
        constructor
        · rintro ⟨hnew | hold, hno⟩
          · left
            apply hnew
          · right
            use hold, hno
        · rintro (⟨hres, hlt⟩ | ⟨hold, hno⟩)
          · use Or.inl ⟨hres, hlt⟩
            rintro ⟨lba, -, hq⟩
            have hb := (hc.mapped lba q hq).1
            rw [hc.clear q (by rw [hres, k.fresh])] at hb
            contradiction
          · use Or.inr hold, hno
      · intro q
        simp only
        rw [hoa]
        simp only [validatePpa, BlockManager.setOob, hov, k.oob]
      · simp only
        rw [hflash]
      · intro t
        apply (hused t).trans
        apply k.used t
    apply hc.pageWritten hw k.fresh hbuf.nodup (by simp [hlen])
    · intro i lba hi
      rw [List.getElem?_map, Option.map_eq_some_iff] at hi
      obtain ⟨x, hx, rfl⟩ := hi
      have hd := hbuf.mem x (List.mem_of_getElem? hx)
      rw [hx, hd]
      exact ⟨rfl, rfl⟩
    · apply hbuf.rest
    · intro q hq
      apply hq
    · intro lba hl q hq
      left
      use lba, hl, hq
  · apply hsh.aBuffer.trans k.aBuffer
  · apply hsh.rb.trans k.rb
  · intro p v hp hne
    by_contra hpr
    simp only at hp
    rw [Function.update_of_ne hpr, hflash] at hp
    contradiction

/-- A flush of the align buffer keeps the mapping invariant, puts the last written data of
every lba into flash, and writes only the pages in `nextPages`. -/
theorem flush_ok {w f : ℕ → Option δ} {s s₁ s' : PageFtl δ} {target res : ℕ} {order : List ℕ}
    {buf : List (ℕ × δ)} (hs : Segments g s) (hc : Consistent g f (fun _ => True) s)
    (hbuf : Buffered w f buf) (hlen : buf.length = l2pgap)
    (ha : pageMapAssign g s (buf.map Prod.fst) target order = .ok (res, s₁))
    (hp : program s₁ res (fun i => (buf[i]?).map Prod.snd) = .ok s') :
  Segments g s' ∧ Consistent g w (fun _ => True) s' ∧ s'.rb = s.rb ∧
    ∀ p v, s'.flash p = some v → s.flash p ≠ some v → p ∈ nextPages g s target
  := by
  simp only [pageMapAssign, getPpa, bind_eq_ok, pure, Except.pure, Except.ok.injEq,
    Prod.exists, Prod.mk.injEq] at ha
  obtain ⟨_, _, ⟨s₂, hgc, res', s₃, hretry, rfl, rfl⟩, rfl, rfl⟩ := ha
  have hfull := (hs.filled s.active).checkFull_iff
  unfold gcIfNeeded at hgc
  split at hgc
  · rename_i hneed
    rw [Bool.and_eq_true, hfull, BlockManager.isGcNeeded, List.isEmpty_iff] at hneed
    have hcol := doGc_ok hs hc hgc
    have k := retry_ok hcol.segments hretry
    obtain ⟨hs', hc', -, hrb, hfl⟩ := k.assign hcol.consistent hbuf hlen hp
    use hs', hc', hrb.trans hcol.rb
    intro p v hpv hne
    simp only [nextPages, hfull.mpr hneed.1, if_true, hneed.2, List.mem_map, List.mem_range]
    by_cases hgcp : s₂.flash p = some v
    · obtain ⟨hdiv, hmod⟩ := hcol.flash p v hgcp hne
      use p % g.pps, Nat.lt_succ_of_lt hmod
      rw [← hdiv, Nat.mul_comm]
      apply Nat.div_add_mod
    · have hres := hfl p v hpv hgcp
      subst hres
      rcases k.page with ⟨hlt, hpage⟩ | ⟨hfull₂, -⟩
      · use (segValid g s.bm target + 3) / l2pgap, Nat.lt_succ_self _
        rw [hpage, hcol.active, hcol.used]
      · exfalso
        obtain ⟨-, t, q, hq, -⟩ := k.page.resolve_left (by omega)
        have hlast := hcol.queue
        rw [hneed.2, List.nil_append, hq] at hlast
        simp at hlast
  · rename_i hneed
    simp only [Except.ok.injEq] at hgc
    subst hgc
    have k := retry_ok hs hretry
    obtain ⟨hs', hc', -, hrb, hfl⟩ := k.assign hc hbuf hlen hp
    use hs', hc', hrb
    intro p v hpv hne
    have hres := hfl p v hpv hne
    subst hres
    unfold nextPages
    rcases k.page with ⟨hlt, hpage⟩ | ⟨hfull₂, t, q, hq, hpage⟩
    · rw [if_neg (by rw [hfull]; omega), hpage]
      apply List.mem_singleton_self
    · rw [if_pos (hfull.mpr hfull₂), hq, hpage]
      apply List.mem_singleton_self

/-- A write keeps the mapping invariant and the align buffer up to date, and writes only the
pages in `nextPages`, when it fills the align buffer. -/
theorem pageWrite_ok {w f : ℕ → Option δ} {s s' : PageFtl δ} {key target : ℕ} {data : δ}
    {order : List ℕ} (hs : Segments g s) (hc : Consistent g f (fun _ => True) s)
    (hbuf : Buffered w f s.aBuffer) (h : pageWrite g s key data target order = .ok s') :
  ∃ f', f' = (if (align s.aBuffer key data).length = l2pgap then
      Function.update w key (some data) else f) ∧
    s'.aBuffer = (if (align s.aBuffer key data).length = l2pgap then []
      else align s.aBuffer key data) ∧
    Segments g s' ∧ Consistent g f' (fun _ => True) s' ∧
    Buffered (Function.update w key (some data)) f' s'.aBuffer ∧ s'.rb = s.rb ∧
    ∀ p v, s'.flash p = some v → s.flash p ≠ some v →
      (align s.aBuffer key data).length = l2pgap ∧ p ∈ nextPages g s target
  := by
  have hbuf' := hbuf.align key data
  simp only [pageWrite] at h
  split at h
  · rename_i hlen
    simp only [bind_eq_ok, pure, Except.pure, Except.ok.injEq, Prod.exists] at h
    obtain ⟨res, s₁, ha, s₂, hp, rfl⟩ := h
    obtain ⟨hs', hc', hrb, hfl⟩ := flush_ok hs hc hbuf' hlen ha hp
    refine ⟨Function.update w key (some data), (if_pos hlen).symm, (if_pos hlen).symm, ?_, ?_,
      hbuf'.flushed, hrb, ?_⟩
    · use hs'.filled, hs'.free, hs'.reserve, hs'.nodup, hs'.active
    · use hc'.clear, hc'.erased, hc'.mapped, hc'.valid, hc'.unmapped
    · intro p v hpv hne
      use hlen, hfl p v hpv hne
  · rename_i hlen
    simp only [pure, Except.pure, Except.ok.injEq] at h
    subst h
    refine ⟨f, (if_neg hlen).symm, (if_neg hlen).symm, ?_, ?_, hbuf', rfl, ?_⟩
    · use hs.filled, hs.free, hs.reserve, hs.nodup, hs.active
    · use hc.clear, hc.erased, hc.mapped, hc.valid, hc.unmapped
    · intro p v hpv hne
      contradiction

end PageFtl

end AppL
