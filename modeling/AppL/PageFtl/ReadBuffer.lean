import AppL.PageFtl.Write

/-!
# Coherence of the page read buffer

The read buffer is keyed by the physical page and nothing takes a page out of it, so it is
only as good as the page: a page that is programmed again while it is buffered, or while a
read of it is in flight, is answered with its old content.  In a run where this does not
happen every hit in the read buffer returns the last written data.
-/

namespace AppL

open Transition

namespace PageFtl

variable {δ : Type} {g : Geometry}

/-- What the read buffer and the reads in flight hold of a page is the content of the page,
unless the page is erased. -/
structure Coherent (s : PageFtl δ) : Prop where
  buffer : ∀ p v, s.rb.bufferPpa = some p → s.flash p = some v → v = s.rb.bufferValue
  issued : ∀ x ∈ s.rb.issueReq, ∀ c v, x.2 = some c →
    s.flash (x.1.ppa / l2pgap) = some v → v = c

/-- The operation does not program the page in the read buffer, nor a page whose read is in
flight. -/
def SparesBuffered (g : Geometry) (s : PageFtl δ) : Op δ → Prop
  | .write key data target _ => (align s.aBuffer key data).length = l2pgap →
      ∀ p ∈ nextPages g s target, s.rb.bufferPpa ≠ some p ∧
        ∀ x ∈ s.rb.issueReq, x.1.ppa / l2pgap ≠ p
  | _ => True

instance (g : Geometry) (s : PageFtl δ) :
    ∀ op, Decidable (SparesBuffered g s op)
  | .write key data target _ =>
      inferInstanceAs (Decidable ((align s.aBuffer key data).length = l2pgap →
        ∀ p ∈ nextPages g s target, s.rb.bufferPpa ≠ some p ∧
          ∀ x ∈ s.rb.issueReq, x.1.ppa / l2pgap ≠ p))
  | .read _ => isTrue trivial
  | .serve _ => isTrue trivial
  | .endReq _ => isTrue trivial
  | .remove _ => isTrue trivial

/-- The invariant of the FTL after the operations `ops`. -/
def Inv (g : Geometry) (ops : List (Op δ)) (s : PageFtl δ) : Prop :=
  ∃ f, Segments g s ∧ Consistent g f (fun _ => True) s ∧
    Buffered (lastWritten ops) f s.aBuffer ∧ Coherent s

theorem lastWritten_write (ops : List (Op δ)) (key : ℕ) (data : δ) (target : ℕ)
    (order : List ℕ) :
  lastWritten (ops ++ [.write key data target order])
    = Function.update (lastWritten ops) key (some data)
  := by
  funext lba
  simp only [lastWritten, List.foldl_append, List.foldl_cons, List.foldl_nil,
    Function.update_apply, eq_comm]

/-- The invariant does not depend on which requests wait. -/
theorem Inv.of_rb {ops : List (Op δ)} {s s' : PageFtl δ} {op : Op δ} (h : Inv g ops s)
    (hw : lastWritten (ops ++ [op]) = lastWritten ops)
    (hs : s' = { s with rb := s'.rb }) (hc : Coherent s') :
  Inv g (ops ++ [op]) s'
  := by
  obtain ⟨f, h₁, h₂, h₃, -⟩ := h
  rw [hs]
  refine ⟨f, ?_, ?_, ?_, ?_⟩
  · use h₁.filled, h₁.free, h₁.reserve, h₁.nodup, h₁.active
  · use h₂.clear, h₂.erased, h₂.mapped, h₂.valid, h₂.unmapped
  · rw [hw]
    apply h₃
  · rw [← hs]
    apply hc

theorem lastWritten_other (ops : List (Op δ)) {op : Op δ}
    (h : ∀ key data target order, op ≠ .write key data target order) :
  lastWritten (ops ++ [op]) = lastWritten ops
  := by
  funext lba
  simp only [lastWritten, List.foldl_append, List.foldl_cons, List.foldl_nil]

/-- Issuing a read, or waiting for one, keeps the read buffer coherent. -/
theorem Coherent.pageRead {s : PageFtl δ} (h : Coherent s) (key : ℕ) :
  Coherent (PageFtl.pageRead s key).2 ∧
    (PageFtl.pageRead s key).2 = { s with rb := (PageFtl.pageRead s key).2.rb }
  := by
  unfold PageFtl.pageRead
  split
  · exact ⟨h, rfl⟩
  · split
    · exact ⟨h, rfl⟩
    · split
      · exact ⟨h, rfl⟩
      · split
        · exact ⟨⟨h.buffer, h.issued⟩, rfl⟩
        · refine ⟨⟨h.buffer, ?_⟩, rfl⟩
          intro x hx c v hxc
          rcases List.mem_append.mp hx with hx | hx
          · apply h.issued x hx c v hxc
          · rw [List.mem_singleton] at hx
            subst hx
            contradiction

/-- The device answers a read with the content of the page. -/
theorem Coherent.serve {s s' : PageFtl δ} {ppa : ℕ} (h : Coherent s)
    (hs : PageFtl.serve s ppa = .ok s') :
  Coherent s' ∧ s' = { s with rb := s'.rb }
  := by
  simp only [PageFtl.serve, bind_eq_ok, orThrow_eq_ok, pure, Except.pure,
    Except.ok.injEq] at hs
  obtain ⟨v, hv, rfl⟩ := hs
  refine ⟨⟨h.buffer, ?_⟩, rfl⟩
  intro x hx c v' hxc hv'
  simp only [List.mem_map] at hx
  obtain ⟨y, hy, rfl⟩ := hx
  split at hxc
  · rename_i hp
    rw [if_pos hp] at hv'
    simp only at hv'
    rw [hp, hv] at hv'
    simp only [Option.some.injEq] at hxc hv'
    rw [← hxc, ← hv']
  · rename_i hp
    rw [if_neg hp] at hv'
    apply h.issued y hy c v' hxc hv'

/-- A completed read puts the page it has read into the read buffer. -/
theorem Coherent.pageEndReq {s s' : PageFtl δ} {ppa : ℕ} (h : Coherent s)
    (hs : PageFtl.pageEndReq s ppa = .ok s') :
  Coherent s' ∧ s' = { s with rb := s'.rb }
  := by
  simp only [PageFtl.pageEndReq, bind_eq_ok, orThrow_eq_ok, pure, Except.pure,
    Except.ok.injEq] at hs
  obtain ⟨x, hfind, c, hc, rfl⟩ := hs
  have hmem := List.mem_of_find?_eq_some hfind
  have hppa : x.1.ppa / l2pgap = ppa := by simpa using List.find?_some hfind
  refine ⟨⟨?_, ?_⟩, rfl⟩
  · intro p v hp hv
    simp only [Option.some.injEq] at hp
    subst hp
    rw [← hppa] at hv
    apply h.issued x hmem c v hc hv
  · intro y hy
    apply h.issued y (List.mem_of_mem_filter hy)

/-- A write that spares the buffered pages keeps the read buffer coherent. -/
theorem Coherent.pageWrite {s s' : PageFtl δ} {key target : ℕ} {data : δ} {order : List ℕ}
    (h : Coherent s) (hg : SparesBuffered g s (.write key data target order))
    (hrb : s'.rb = s.rb)
    (hfl : ∀ p v, s'.flash p = some v → s.flash p ≠ some v →
      (align s.aBuffer key data).length = l2pgap ∧ p ∈ nextPages g s target) :
  Coherent s'
  := by
  constructor
  · intro p v hp hv
    rw [hrb] at hp ⊢
    by_cases hold : s.flash p = some v
    · apply h.buffer p v hp hold
    · obtain ⟨hlen, hmem⟩ := hfl p v hv hold
      exact absurd hp (hg hlen p hmem).1
  · intro x hx c v hxc hv
    rw [hrb] at hx
    by_cases hold : s.flash (x.1.ppa / l2pgap) = some v
    · apply h.issued x hx c v hxc hold
    · obtain ⟨hlen, hmem⟩ := hfl _ v hv hold
      exact absurd rfl ((hg hlen _ hmem).2 x hx)

/-- Every operation that spares the buffered pages keeps the invariant. -/
theorem Inv.step {ops : List (Op δ)} {s s' : PageFtl δ} {op : Op δ} (h : Inv g ops s)
    (hg : SparesBuffered g s op) (hs : PageFtl.step g s op = .ok s') :
  Inv g (ops ++ [op]) s'
  := by
  obtain ⟨f, hseg, hcon, hbuf, hcoh⟩ := h
  have hI : Inv g ops s := ⟨f, hseg, hcon, hbuf, hcoh⟩
  cases op with
  | write key data target order =>
      obtain ⟨f', -, -, h₁, h₂, h₃, hrb, hfl⟩ := pageWrite_ok hseg hcon hbuf hs
      refine ⟨f', h₁, h₂, ?_, hcoh.pageWrite hg hrb hfl⟩
      rw [lastWritten_write]
      apply h₃
  | read key =>
      simp only [PageFtl.step, Except.ok.injEq] at hs
      subst hs
      obtain ⟨hc, hs⟩ := hcoh.pageRead key
      apply hI.of_rb (lastWritten_other ops (by simp)) hs hc
  | serve ppa =>
      obtain ⟨hc, hs⟩ := hcoh.serve hs
      apply hI.of_rb (lastWritten_other ops (by simp)) hs hc
  | endReq ppa =>
      obtain ⟨hc, hs⟩ := hcoh.pageEndReq hs
      apply hI.of_rb (lastWritten_other ops (by simp)) hs hc
  | remove key =>
      simp only [PageFtl.step, Except.ok.injEq] at hs
      subst hs
      apply hI.of_rb (lastWritten_other ops (by simp)) rfl hcoh

/-- The invariant holds of a new FTL. -/
theorem inv_create {s : PageFtl δ} (h : create g = .ok s) :
  Inv g [] s
  := by
  simp only [create, BlockManager.getSegReserve, BlockManager.getSegActive, bind_eq_ok] at h
  obtain ⟨x, hx, y, hy, hz⟩ := h
  split at hx
  · contradiction
  rename_i t q hq
  simp only [Except.ok.injEq] at hx
  subst hx
  simp only at hy
  split at hy
  · contradiction
  rename_i t' q'
  simp only [Except.ok.injEq, pure, Except.pure] at hy hz
  subst hy hz
  have hnodup : (t :: t' :: q').Nodup := by
    rw [← hq]
    apply List.nodup_range
  refine ⟨fun _ => none, ?_, ?_, ?_, ?_⟩
  · constructor
    · intro x
      exact (BlockManager.filled_create x).congr rfl rfl (fun _ _ => rfl)
    · intro x _
      rfl
    · rfl
    · refine (List.Perm.nodup_iff ?_).mp hnodup
      apply List.Perm.cons
      apply (List.perm_append_singleton _ _).symm
    · simp
  · constructor
    · intro q _
      rfl
    · intro p _
      rfl
    · intro lba q hq
      contradiction
    · intro q hq
      contradiction
    · intro lba _
      rfl
  · refine ⟨List.nodup_nil, ?_, ?_⟩
    · intro x hx
      contradiction
    · intro k _
      rfl
  · constructor
    · intro p v hp
      contradiction
    · intro x hx
      contradiction

/-- Every state reached by operations that spare the buffered pages satisfies the
invariant. -/
theorem inv_run {s₀ s : PageFtl δ} {ops : List (Op δ)} (h₀ : create g = .ok s₀)
    (hg : Guarded (PageFtl.step g) (SparesBuffered g) s₀ ops)
    (h : run (PageFtl.step g) s₀ ops = .ok s) :
  Inv g ops s
  := run_invariant (Inv g) (fun _ _ _ _ hI => hI.step) (inv_create h₀) hg h

/-- The page a hit is answered from, and the answer. -/
theorem pageRead_bufferHit {s : PageFtl δ} {key : ℕ} {v : Option δ}
    (h : (pageRead s key).1 = .bufferHit v) :
  key ∉ s.aBuffer.map Prod.fst ∧ ∃ q, s.mapping key = some q ∧
    s.rb.bufferPpa = some (q / l2pgap) ∧ v = s.rb.bufferValue (q % l2pgap)
  := by
  unfold pageRead at h
  split at h
  · contradiction
  rename_i hfind
  split at h
  · contradiction
  rename_i q hq
  split at h
  · rename_i hp
    simp only [Answer.bufferHit.injEq] at h
    refine ⟨?_, q, hq, hp, h.symm⟩
    intro hm
    obtain ⟨x, hx, rfl⟩ := List.mem_map.mp hm
    rw [List.find?_eq_none] at hfind
    apply hfind x hx
    simp
  · split at h
    · contradiction
    · contradiction

/-- In every run in which no operation programs the page in the read buffer or a page whose
read is in flight, a read answered from the read buffer finds there the current content of
its physical page and returns the last written data of its lba. -/
theorem bufferHit_latest (g : Geometry) (s₀ s : PageFtl δ) (ops : List (Op δ))
    (h₀ : create g = .ok s₀) (hg : Guarded (PageFtl.step g) (SparesBuffered g) s₀ ops)
    (h : run (PageFtl.step g) s₀ ops = .ok s) (key : ℕ) (v : Option δ)
    (hhit : (pageRead s key).1 = .bufferHit v) :
  (∃ q, s.mapping key = some q ∧ s.flash (q / l2pgap) = some s.rb.bufferValue) ∧
    v = lastWritten ops key
  := by
  obtain ⟨f, -, hcon, hbuf, hcoh⟩ := inv_run h₀ hg h
  obtain ⟨hkey, q, hq, hp, rfl⟩ := pageRead_bufferHit hhit
  obtain ⟨-, -, c, hfl, hd, -⟩ := hcon.mapped key q hq
  have hc := hcoh.buffer _ c hp hfl
  subst hc
  use ⟨q, hq, hfl⟩
  rw [hd, hbuf.rest key hkey]

/-! ### A fresh and a stale hit -/

/-- A device of three segments of one page. -/
def tinyGeometry : Geometry := ⟨1, 1, 3, Nat.one_pos, Nat.one_pos⟩

/-- The lbas `0` to `3` are written, which fills a page. -/
def writeFour (data target : ℕ) : List (Op ℕ) :=
  (List.range l2pgap).map (fun key => .write key data target [])

/-- The lbas are written to page `1` and a read brings it to the read buffer. -/
def firstRead : List (Op ℕ) :=
  writeFour 10 0 ++ [.read 0, .serve 1, .endReq 1]

/-- The lbas are written three times more.  On the way segment `1` is erased, becomes the
reserve and then the active segment, and its page is programmed again. -/
def rewrites : List (Op ℕ) :=
  writeFour 11 0 ++ writeFour 12 1 ++ writeFour 13 2

/-- The read after the first one is a hit and returns what was written. -/
theorem bufferHit_latest_firstRead :
  ∃ s₀ s, create tinyGeometry = .ok s₀ ∧ run (PageFtl.step tinyGeometry) s₀ firstRead = .ok s ∧
    (pageRead s 0).1 = .bufferHit (some 10) ∧ some 10 = lastWritten firstRead 0
  := by
  obtain ⟨s₀, h₀⟩ : ∃ s₀, create (δ := ℕ) tinyGeometry = .ok s₀ := ⟨_, rfl⟩
  obtain ⟨s, h⟩ : ∃ s, run (PageFtl.step tinyGeometry) s₀ firstRead = .ok s := by
    cases h₀
    exact ⟨_, rfl⟩
  have hhit : (pageRead s 0).1 = .bufferHit (some 10) := by
    cases h₀
    cases h
    decide
  have hg : Guarded (PageFtl.step tinyGeometry) (SparesBuffered tinyGeometry) s₀ firstRead := by
    cases h₀
    decide
  exact ⟨s₀, s, h₀, h, hhit, (bufferHit_latest tinyGeometry s₀ s firstRead h₀ hg h 0 _ hhit).2⟩

/-- Without the condition a hit can return old data: the page in the read buffer has been
erased and programmed again. -/
theorem bufferHit_stale :
  ¬ ∀ (g : Geometry) (s₀ s : PageFtl ℕ) (ops : List (Op ℕ)), create g = .ok s₀ →
    run (PageFtl.step g) s₀ ops = .ok s → ∀ key v, (pageRead s key).1 = .bufferHit v →
      (∃ q, s.mapping key = some q ∧ s.flash (q / l2pgap) = some s.rb.bufferValue) ∧
        v = lastWritten ops key
  := by
  intro hall
  obtain ⟨s₀, h₀⟩ : ∃ s₀, create (δ := ℕ) tinyGeometry = .ok s₀ := ⟨_, rfl⟩
  obtain ⟨s, h⟩ : ∃ s, run (PageFtl.step tinyGeometry) s₀ (firstRead ++ rewrites) = .ok s := by
    cases h₀
    exact ⟨_, rfl⟩
  have hhit : (pageRead s 0).1 = .bufferHit (some 10) := by
    cases h₀
    cases h
    decide
  have hv := (hall tinyGeometry s₀ s (firstRead ++ rewrites) h₀ h 0 _ hhit).2
  revert hv
  decide

end PageFtl

end AppL
